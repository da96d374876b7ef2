import CryptoAccounting.Agreement
import CryptoAccounting.Consumer.Audit
import CryptoAccounting.Consumer.Drift
import CryptoAccounting.Consumer.Engine
import CryptoAccounting.Consumer.Group
import CryptoAccounting.Consumer.Kafka
import CryptoAccounting.Consumer.Malformed
import CryptoAccounting.Consumer.Portfolio
import CryptoAccounting.Consumer.Processor
import CryptoAccounting.Consumer.Progress
import CryptoAccounting.Consumer.Repository
import CryptoAccounting.Consumer.Schema
import CryptoAccounting.Consumer.Sequential
import CryptoAccounting.Consumer.Serial
import CryptoAccounting.Consumer.SnapshotOrder
import CryptoAccounting.Consumer.Storage
import CryptoAccounting.Consumer.Transactions
import CryptoAccounting.Convergence
import CryptoAccounting.DeliveryOrder
import CryptoAccounting.Domain.Arithmetic
import CryptoAccounting.Domain.Book
import CryptoAccounting.Domain.Exact
import CryptoAccounting.Domain.Machine
import CryptoAccounting.Domain.Numeric
import CryptoAccounting.Domain.Records
import CryptoAccounting.EndToEnd
import CryptoAccounting.Formats
import CryptoAccounting.Grpc.Service
import CryptoAccounting.Ledger.Answers
import CryptoAccounting.Ledger.Atomicity
import CryptoAccounting.Ledger.CashFlow
import CryptoAccounting.Ledger.Covered
import CryptoAccounting.Ledger.CreateTrade
import CryptoAccounting.Ledger.Exact
import CryptoAccounting.Ledger.ExactReports
import CryptoAccounting.Ledger.Fifo
import CryptoAccounting.Ledger.Fleet
import CryptoAccounting.Ledger.HashOrder
import CryptoAccounting.Ledger.Http
import CryptoAccounting.Ledger.Interference
import CryptoAccounting.Ledger.Linear
import CryptoAccounting.Ledger.Matching
import CryptoAccounting.Ledger.NoPanic
import CryptoAccounting.Ledger.Overflow
import CryptoAccounting.Ledger.Portfolio
import CryptoAccounting.Ledger.Producer
import CryptoAccounting.Ledger.Publish
import CryptoAccounting.Ledger.Replicas
import CryptoAccounting.Ledger.Reports
import CryptoAccounting.Ledger.Repository
import CryptoAccounting.Ledger.Run
import CryptoAccounting.Ledger.Services
import CryptoAccounting.Ledger.Stored
import CryptoAccounting.Lib.Alike
import CryptoAccounting.Lib.AnyOrder
import CryptoAccounting.Lib.DecimalText
import CryptoAccounting.Lib.Json
import CryptoAccounting.Lib.Maps
import CryptoAccounting.Lib.Returns
import CryptoAccounting.Lib.Rounding
import CryptoAccounting.Lib.Segments
import CryptoAccounting.Lib.Tables
import CryptoAccounting.Lib.Transition
import CryptoAccounting.Lib.WhileLoop
import CryptoAccounting.Lockstep
import CryptoAccounting.Pipeline
import CryptoAccounting.Scaling
import CryptoAccounting.Wire

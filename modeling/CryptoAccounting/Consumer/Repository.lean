import CryptoAccounting.Consumer.Portfolio
import CryptoAccounting.Domain.Numeric

/-!
# The consumer's tables

`0001_create_pnl_tables.sql` and `infrastructure/repository.rs` of pnl-consumer: the rows of the
three tables, and what each statement of a transaction reads and writes. In-memory arithmetic is
exact here; `num` is what a `NUMERIC` column stores for a value (`numericColumn` in the deployed
schema), and `none` is a failed statement. Lots are JSONB, whose decimals are stored as strings. The
times of a trade lose what is below a microsecond; `NOW()` has no more than that.
-/

namespace CryptoAccounting
namespace Consumer

/-- A row of `processed_events`. -/
structure ProcessedEvent where
  eventId : Uuid
  tradeId : Uuid
  asset : String
  kafkaPartition : ℤ
  kafkaOffset : ℤ
  processedAt : Timestamp
  deriving DecidableEq, Repr

/-- A row of `portfolio_state`, without its key. -/
structure PortfolioRow where
  lots : List (Lot ℚ)
  totalQuantity : ℚ
  totalRealizedPnl : ℚ
  lastEventId : Option Uuid
  lastTradeTs : Option Timestamp
  deriving DecidableEq, Repr

/-- A row of `pnl_snapshots`. -/
structure PnlSnapshot where
  id : Uuid
  eventId : Uuid
  tradeId : Uuid
  asset : String
  tradeSide : String
  tradeQuantity : ℚ
  tradePrice : ℚ
  realizedPnl : ℚ
  totalRealizedPnl : ℚ
  tradeTs : Timestamp
  computedAt : Timestamp
  deriving DecidableEq, Repr

/-- The three tables; `portfolio_state` by its primary key. -/
structure Db where
  processedEvents : List ProcessedEvent
  portfolioState : String → Option PortfolioRow
  pnlSnapshots : List PnlSnapshot

/-- The tables after the migration. -/
def Db.empty : Db := { processedEvents := [], portfolioState := fun _ => none, pnlSnapshots := [] }

/-- The ids in `processed_events`. -/
def Db.processedIds (db : Db) : List Uuid := db.processedEvents.map ProcessedEvent.eventId

/-! ### Statements -/

/-- The row the claim inserts. -/
def claimRow (event : TradeEvent ℚ) (kafkaPartition kafkaOffset : ℤ) (now : Timestamp) :
    ProcessedEvent where
  eventId := event.eventId
  tradeId := event.tradeId
  asset := event.asset
  kafkaPartition
  kafkaOffset
  processedAt := now

/-- `claim_event`: insert unless the id is there; true if the row was inserted. -/
def claimEvent (db : Db) (event : TradeEvent ℚ) (kafkaPartition kafkaOffset : ℤ)
    (now : Timestamp) : Bool × Db :=
  if event.eventId ∈ db.processedIds then (false, db)
  else
    (true, { db with
      processedEvents := db.processedEvents ++ [claimRow event kafkaPartition kafkaOffset now] })

/-- The row the upsert of `load_portfolio` creates. -/
def PortfolioRow.empty : PortfolioRow where
  lots := []
  totalQuantity := 0
  totalRealizedPnl := 0
  lastEventId := none
  lastTradeTs := none

/-- The portfolio that `load_portfolio` builds from a row. -/
def PortfolioRow.toPortfolio (row : PortfolioRow) (asset : String) : AssetPortfolio ℚ where
  asset
  lots := row.lots
  totalQuantity := row.totalQuantity
  totalRealizedPnl := row.totalRealizedPnl

/-- `load_portfolio`: make sure the row exists, then read it. -/
def loadPortfolio (db : Db) (asset : String) : AssetPortfolio ℚ × Db :=
  let row := (db.portfolioState asset).getD PortfolioRow.empty
  (row.toPortfolio asset,
    { db with portfolioState := Function.update db.portfolioState asset (some row) })

/-- The row that the update of `save_portfolio` writes; `none` if a column rejects its value. -/
def PortfolioRow.ofPortfolio (num : ℚ → Option ℚ) (portfolio : AssetPortfolio ℚ)
    (lastEventId : Uuid) (lastTradeTs : Timestamp) : Option PortfolioRow := do
  let totalQuantity ← num portfolio.totalQuantity
  let totalRealizedPnl ← num portfolio.totalRealizedPnl
  pure
    { lots := portfolio.lots
      totalQuantity
      totalRealizedPnl
      lastEventId := some lastEventId
      lastTradeTs := some (timestamptz lastTradeTs) }

/-- `save_portfolio`. -/
def savePortfolio (num : ℚ → Option ℚ) (db : Db) (portfolio : AssetPortfolio ℚ)
    (lastEventId : Uuid) (lastTradeTs : Timestamp) : Option Db := do
  let row ← PortfolioRow.ofPortfolio num portfolio lastEventId lastTradeTs
  pure { db with portfolioState := Function.update db.portfolioState portfolio.asset (some row) }

/-- The row that `save_pnl_snapshot` inserts; `none` if a column rejects its value. -/
def PnlSnapshot.of (num : ℚ → Option ℚ) (snapshotId : Uuid) (event : TradeEvent ℚ)
    (realizedPnl totalRealizedPnl : ℚ) (now : Timestamp) : Option PnlSnapshot := do
  let tradeQuantity ← num event.quantity
  let tradePrice ← num event.price
  let realizedPnl ← num realizedPnl
  let totalRealizedPnl ← num totalRealizedPnl
  pure
    { id := snapshotId
      eventId := event.eventId
      tradeId := event.tradeId
      asset := event.asset
      tradeSide := event.side
      tradeQuantity
      tradePrice
      realizedPnl
      totalRealizedPnl
      tradeTs := timestamptz event.timestamp
      computedAt := now }

/-- `save_pnl_snapshot`. -/
def savePnlSnapshot (num : ℚ → Option ℚ) (db : Db) (snapshotId : Uuid) (event : TradeEvent ℚ)
    (realizedPnl totalRealizedPnl : ℚ) (now : Timestamp) : Option Db := do
  let snapshot ← PnlSnapshot.of num snapshotId event realizedPnl totalRealizedPnl now
  pure { db with pnlSnapshots := db.pnlSnapshots ++ [snapshot] }

/-! ### What a written row holds -/

variable {num : ℚ → Option ℚ} {event : TradeEvent ℚ}

theorem ofPortfolio_eq_some {portfolio : AssetPortfolio ℚ} {id : Uuid} {ts : Timestamp}
    {row : PortfolioRow} (h : PortfolioRow.ofPortfolio num portfolio id ts = some row) :
    row.lots = portfolio.lots ∧ num portfolio.totalQuantity = some row.totalQuantity ∧
      num portfolio.totalRealizedPnl = some row.totalRealizedPnl := by
  unfold PortfolioRow.ofPortfolio at h
  obtain ⟨totalQuantity, hq, h⟩ := Option.bind_eq_some_iff.1 h
  obtain ⟨totalRealizedPnl, hr, h⟩ := Option.bind_eq_some_iff.1 h
  cases h
  exact ⟨rfl, hq, hr⟩

theorem snapshot_eq_some {id : Uuid} {realizedPnl total : ℚ} {now : Timestamp}
    {snapshot : PnlSnapshot}
    (h : PnlSnapshot.of num id event realizedPnl total now = some snapshot) :
    snapshot.eventId = event.eventId ∧ num event.quantity = some snapshot.tradeQuantity ∧
      num event.price = some snapshot.tradePrice ∧ num realizedPnl = some snapshot.realizedPnl ∧
      num total = some snapshot.totalRealizedPnl := by
  unfold PnlSnapshot.of at h
  obtain ⟨tradeQuantity, hq, h⟩ := Option.bind_eq_some_iff.1 h
  obtain ⟨tradePrice, hp, h⟩ := Option.bind_eq_some_iff.1 h
  obtain ⟨realized, hr, h⟩ := Option.bind_eq_some_iff.1 h
  obtain ⟨totalRealized, ht, h⟩ := Option.bind_eq_some_iff.1 h
  cases h
  exact ⟨rfl, hq, hp, hr, ht⟩

theorem snapshot_copies {id : Uuid} {realizedPnl total : ℚ} {now : Timestamp}
    {snapshot : PnlSnapshot}
    (h : PnlSnapshot.of num id event realizedPnl total now = some snapshot) :
    snapshot.asset = event.asset ∧ snapshot.computedAt = now := by
  unfold PnlSnapshot.of at h
  obtain ⟨tradeQuantity, -, h⟩ := Option.bind_eq_some_iff.1 h
  obtain ⟨tradePrice, -, h⟩ := Option.bind_eq_some_iff.1 h
  obtain ⟨realized, -, h⟩ := Option.bind_eq_some_iff.1 h
  obtain ⟨totalRealized, -, h⟩ := Option.bind_eq_some_iff.1 h
  cases h
  exact ⟨rfl, rfl⟩

end Consumer
end CryptoAccounting

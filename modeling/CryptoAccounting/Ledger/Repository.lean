import CryptoAccounting.Domain.Numeric
import CryptoAccounting.Ledger.Portfolio

/-!
# The trades table

`0001_create_trades_table.sql` and `PgTradeRepository` of ledger-service. Quantity and price go into
`NUMERIC` columns; `num` is what such a column stores for a value, and `none` is an error. The time goes
into a `TIMESTAMPTZ` column.
-/

namespace CryptoAccounting
namespace Ledger

variable {D : Type}

/-- A row of `trades`. -/
structure TradeRow (D : Type) where
  id : Uuid
  asset : String
  quantity : D
  price : D
  side : String
  timestamp : Timestamp
  deriving DecidableEq, Repr

/-- The trade, column by column. -/
def TradeRow.exact (trade : Trade D) : TradeRow D where
  id := trade.id
  asset := trade.asset
  quantity := trade.quantity
  price := trade.price
  side := trade.side.str
  timestamp := trade.timestamp

/-- The row that the insert of `save_trade` writes. -/
def TradeRow.ofTrade (num : D → Option D) (trade : Trade D) : Option (TradeRow D) := do
  let quantity ← num trade.quantity
  let price ← num trade.price
  pure { TradeRow.exact trade with quantity, price, timestamp := timestamptz trade.timestamp }

/-- `INSERT … ON CONFLICT (id) DO NOTHING`. -/
def insertTrade (trades : List (TradeRow D)) (row : TradeRow D) : List (TradeRow D) :=
  if row.id ∈ trades.map TradeRow.id then trades else trades ++ [row]

/-- The columns take quantity and price as they are. -/
def DecimalsKept (num : D → Option D) (trade : Trade D) : Prop :=
  num trade.quantity = some trade.quantity ∧ num trade.price = some trade.price

/-- The columns take the trade as it is. -/
def StoredExactly (num : D → Option D) (trade : Trade D) : Prop :=
  DecimalsKept num trade ∧ timestamptz trade.timestamp = trade.timestamp

variable {num : D → Option D} {trade : Trade D} {row : TradeRow D}

/-- The insert sends quantity, price and time through their columns and leaves the rest as it is. -/
theorem ofTrade_eq_some (h : TradeRow.ofTrade num trade = some row) :
    num trade.quantity = some row.quantity ∧ num trade.price = some row.price ∧
      row = { TradeRow.exact trade with
        quantity := row.quantity, price := row.price, timestamp := timestamptz trade.timestamp } := by
  unfold TradeRow.ofTrade at h
  obtain ⟨quantity, hq, h⟩ := Option.bind_eq_some_iff.1 h
  obtain ⟨price, hp, h⟩ := Option.bind_eq_some_iff.1 h
  cases h
  exact ⟨hq, hp, rfl⟩

theorem ofTrade_id (h : TradeRow.ofTrade num trade = some row) : row.id = trade.id := by
  obtain ⟨-, -, hrow⟩ := ofTrade_eq_some h
  rw [hrow]
  rfl

/-- Kept decimals leave only the time to be cut. -/
theorem DecimalsKept.ofTrade (h : DecimalsKept num trade) : TradeRow.ofTrade num trade =
    some { TradeRow.exact trade with timestamp := timestamptz trade.timestamp } := by
  unfold TradeRow.ofTrade
  rw [h.1, h.2]
  rfl

/-- The row is the trade exactly when the columns take the trade as it is. -/
theorem ofTrade_eq_exact_iff :
    TradeRow.ofTrade num trade = some (.exact trade) ↔ StoredExactly num trade := by
  constructor
  · intro h
    obtain ⟨hq, hp, hrow⟩ := ofTrade_eq_some h
    exact ⟨⟨hq, hp⟩, (congrArg TradeRow.timestamp hrow).symm⟩
  · rintro ⟨hkept, ht⟩
    rw [hkept.ofTrade, ht]
    rfl

theorem mem_insertTrade {trades : List (TradeRow D)} {r : TradeRow D}
    (h : row.id ∉ trades.map TradeRow.id) :
    r ∈ insertTrade trades row ↔ r ∈ trades ∨ r = row := by
  rw [insertTrade, if_neg h, List.mem_append, List.mem_singleton]

end Ledger
end CryptoAccounting

import CryptoAccounting.Domain.Arithmetic
import CryptoAccounting.Lib.Segments

/-!
# Records shared by the services

Both services declare `Lot`, `RealizedPnL`, `TradeSide` and `TradeEvent` with the same fields; the
model has one copy of each. Identifiers are only compared and copied.
-/

namespace CryptoAccounting

/-- A version 4 UUID. The model draws a fresh number wherever the source calls `Uuid::new_v4`. -/
abbrev Uuid := ℕ

/-- `DateTime<Utc>`, in nanoseconds since the start of the year 2000, where PostgreSQL counts from. -/
abbrev Timestamp := ℤ

/-- Direction of a trade. -/
inductive TradeSide
  | buy
  | sell
  deriving DecidableEq, Repr

/-- The side as `CreateTradeService` and `PgTradeRepository` write it. -/
def TradeSide.str : TradeSide → String
  | .buy => "buy"
  | .sell => "sell"

/-- A single buy lot used for FIFO cost-basis tracking. -/
structure Lot (D : Type) where
  /-- Remaining units in this lot. -/
  quantity : D
  /-- Price paid per unit when this lot was acquired. -/
  costPerUnit : D
  deriving DecidableEq, Repr

/-- A lot as a weighted segment: its quantity, labelled with its cost per unit. -/
def Lot.pair {D : Type} (l : Lot D) : D × D := (l.quantity, l.costPerUnit)

/-- The lot of a weighted segment. -/
def Lot.ofPair {D : Type} (s : D × D) : Lot D := ⟨s.1, s.2⟩

@[simp] theorem Lot.pair_ofPair {D : Type} (s : D × D) : (Lot.ofPair s).pair = s := rfl
@[simp] theorem Lot.ofPair_pair {D : Type} (l : Lot D) : Lot.ofPair l.pair = l := rfl

@[simp] theorem Lot.pair_comp_ofPair {D : Type} : Lot.pair ∘ Lot.ofPair = (id : D × D → D × D) :=
  rfl
@[simp] theorem Lot.ofPair_comp_pair {D : Type} : Lot.ofPair ∘ Lot.pair = (id : Lot D → Lot D) :=
  rfl

theorem map_pair_map_ofPair {D : Type} (l : List (D × D)) :
    (l.map Lot.ofPair).map Lot.pair = l := by simp

/-- Lots are the same when their segments are. -/
theorem eq_of_pairs_eq {D : Type} {l m : List (Lot D)} (h : l.map Lot.pair = m.map Lot.pair) :
    l = m := by
  have hlots := congrArg (List.map Lot.ofPair) h
  simpa using hlots

theorem weight_pairs (lots : List (Lot ℚ)) :
    Segments.weight (lots.map Lot.pair) = (lots.map Lot.quantity).sum := by
  rw [Segments.weight, List.map_map]
  rfl

/-- A realized PnL event produced when a sell consumes one or more lots. -/
structure RealizedPnL (D : Type) where
  asset : String
  /-- Units sold in this lot match. -/
  quantity : D
  /-- `quantity × lot cost-per-unit`. -/
  costBasis : D
  /-- `quantity × sell price`. -/
  proceeds : D
  /-- `proceeds − cost_basis`. -/
  realizedPnl : D
  deriving DecidableEq, Repr

/-- The record of selling the segment `s` of a lot at `sellPrice`. -/
def RealizedPnL.ofFill (asset : String) (sellPrice : ℚ) (s : ℚ × ℚ) : RealizedPnL ℚ where
  asset
  quantity := s.1
  costBasis := s.1 * s.2
  proceeds := s.1 * sellPrice
  realizedPnl := s.1 * sellPrice - s.1 * s.2

/-- JSON payload published by the ledger-service to the `trades` topic. -/
structure TradeEvent (D : Type) where
  /-- The idempotency key. -/
  eventId : Uuid
  eventType : String
  tradeId : Uuid
  asset : String
  quantity : D
  price : D
  /-- "buy" or "sell". -/
  side : String
  notionalValue : D
  /-- Realized PnL already computed by the ledger (informational only). -/
  realizedPnl : D
  timestamp : Timestamp
  publishedAt : Timestamp
  deriving DecidableEq, Repr

end CryptoAccounting

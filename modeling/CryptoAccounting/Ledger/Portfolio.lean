import Mathlib.Data.Finmap
import CryptoAccounting.Domain.Records
import CryptoAccounting.Lib.WhileLoop

/-!
# The ledger's trading domain

`domain/trade.rs`, `domain/errors.rs`, `domain/pnl.rs` and `domain/portfolio.rs` of
ledger-service: validated trades, positions with their FIFO queue of lots, and the multi-asset
portfolio. A method with `&mut self` returns the new value beside its result; a panic is an
`Except.error`. The queue of lots is a list, oldest lot first, and the `HashMap` of positions is
a `Finmap`: where the source iterates over it, the iteration order is an argument.
-/

namespace CryptoAccounting
namespace Ledger

open DecimalOps WhileLoop

variable {D : Type} [LinearOrder D] [Zero D] [DecimalOps D]

/-! ### Trades -/

/-- Domain errors specific to the trading and portfolio engine. -/
inductive TradeError (D : Type)
  | insufficientBalance (asset : String) (required available : D)
  | invalidTrade (msg : String)
  | overflow
  | persistence (msg : String)
  deriving DecidableEq, Repr

/-- A single crypto trade event. -/
structure Trade (D : Type) where
  id : Uuid
  asset : String
  quantity : D
  price : D
  timestamp : Timestamp
  side : TradeSide
  deriving DecidableEq, Repr

/-- Construct a validated trade. Quantity and price must be strictly positive. -/
def Trade.new (id : Uuid) (asset : String) (quantity price : D) (timestamp : Timestamp)
    (side : TradeSide) : Except (TradeError D) (Trade D) :=
  if quantity ≤ 0 then
    .error (.invalidTrade "quantity must be positive")
  else if price ≤ 0 then
    .error (.invalidTrade "price must be positive")
  else
    .ok { id, asset, quantity, price, timestamp, side }

/-- Notional value of this trade (quantity × price). -/
def Trade.notionalValue (t : Trade D) : Except Panic D := mul t.quantity t.price

/-! ### Positions -/

/-- Per-asset position: a FIFO queue of open lots. -/
structure Position (D : Type) where
  asset : String
  /-- Oldest lot at the front; newest at the back. -/
  lots : List (Lot D)
  /-- Sum of all lot quantities, kept in sync for O(1) balance checks. -/
  totalQuantity : D
  deriving DecidableEq, Repr

def Position.new (asset : String) : Position D := { asset, lots := [], totalQuantity := 0 }

/-- Push a new buy lot onto the back of the queue. -/
def Position.addLot (pos : Position D) (quantity costPerUnit : D) : Except Panic (Position D) := do
  let totalQuantity ← add pos.totalQuantity quantity
  pure { pos with lots := pos.lots ++ [{ quantity, costPerUnit }], totalQuantity }

/-- What the loop of `consume_fifo` changes: the position's queue and total, the quantity still
to be sold, and the events pushed so far. -/
structure Position.Fifo (D : Type) where
  lots : List (Lot D)
  totalQuantity : D
  remaining : D
  events : List (RealizedPnL D)
  deriving DecidableEq, Repr

/-- The guard `remaining > Decimal::ZERO`. -/
def Position.fifoGuard (s : Position.Fifo D) : Bool := decide (0 < s.remaining)

/-- The loop body: match the front lot, and pop it once it is used up. -/
def Position.fifoBody (asset : String) (sellPrice : D) (s : Position.Fifo D) :
    Except Panic (Position.Fifo D) :=
  match s.lots with
  | [] => .error (.expect "lot queue unexpectedly empty")
  | lot :: rest => do
    let consumed := min s.remaining lot.quantity
    let costBasis ← mul consumed lot.costPerUnit
    let proceeds ← mul consumed sellPrice
    let realizedPnl ← sub proceeds costBasis
    let quantity ← sub lot.quantity consumed
    let totalQuantity ← sub s.totalQuantity consumed
    let remaining ← sub s.remaining consumed
    pure
      { lots := if quantity = 0 then rest else { lot with quantity } :: rest
        totalQuantity
        remaining
        events := s.events ++ [{ asset, quantity := consumed, costBasis, proceeds, realizedPnl }] }

/-- Consume `sellQuantity` units FIFO and return one `RealizedPnL` event per lot touched. Returns
`InsufficientBalance` if the position is too small. An iteration either pops a lot or ends the
loop, so one more iteration than there are lots is enough fuel (`fifoLoop_ne_none`). -/
def Position.consumeFifo (pos : Position D) (sellQuantity sellPrice : D) :
    Except Panic (Except (TradeError D) (List (RealizedPnL D)) × Position D) :=
  if sellQuantity > pos.totalQuantity then
    .ok (.error (.insufficientBalance pos.asset sellQuantity pos.totalQuantity), pos)
  else do
    let s ← whileFuel Position.fifoGuard (Position.fifoBody pos.asset sellPrice)
      (pos.lots.length + 1)
      { lots := pos.lots, totalQuantity := pos.totalQuantity, remaining := sellQuantity,
        events := [] }
    match s with
    | none => .error .outOfFuel
    | some s => .ok (.ok s.events, { pos with lots := s.lots, totalQuantity := s.totalQuantity })

/-- Total cost of the open lots, the sum `unrealized_pnl` and `average_cost` both start with. -/
def Position.costBasis (pos : Position D) : Except Panic D :=
  pos.lots.foldlM (fun total l => mul l.quantity l.costPerUnit >>= add total) 0

/-- Unrealized PnL snapshot for a live position. -/
structure UnrealizedPnL (D : Type) where
  asset : String
  quantity : D
  costBasis : D
  marketValue : D
  unrealizedPnl : D
  deriving DecidableEq, Repr

/-- Unrealized PnL for this position at `currentPrice`. -/
def Position.unrealizedPnl (pos : Position D) (currentPrice : D) :
    Except Panic (UnrealizedPnL D) := do
  let costBasis ← pos.costBasis
  let marketValue ← mul pos.totalQuantity currentPrice
  let unrealizedPnl ← sub marketValue costBasis
  pure { asset := pos.asset, quantity := pos.totalQuantity, costBasis, marketValue, unrealizedPnl }

/-- Weighted-average cost per unit across all open lots; `none` when the position is empty. -/
def Position.averageCost (pos : Position D) : Except Panic (Option D) :=
  if pos.totalQuantity = 0 then
    .ok none
  else do
    let totalCost ← pos.costBasis
    let average ← div totalCost pos.totalQuantity
    pure (some average)

/-! ### The portfolio -/

/-- A multi-asset portfolio. -/
structure Portfolio (D : Type) where
  positions : Finmap fun _ : String => Position D
  /-- Cumulative realized PnL across all trades ever processed. -/
  totalRealizedPnl : D

def Portfolio.new : Portfolio D := { positions := ∅, totalRealizedPnl := 0 }

def Portfolio.getPosition (p : Portfolio D) (asset : String) : Option (Position D) :=
  p.positions.lookup asset

/-- Apply a trade. Returns the `RealizedPnL` events produced: none for buys, one event per lot
touched for sells. -/
def Portfolio.applyTrade (p : Portfolio D) (trade : Trade D) :
    Except Panic (Except (TradeError D) (List (RealizedPnL D)) × Portfolio D) :=
  match trade.side with
  | .buy => do
    let position := (p.positions.lookup trade.asset).getD (Position.new trade.asset)
    let position ← position.addLot trade.quantity trade.price
    pure (.ok [], { p with positions := p.positions.insert trade.asset position })
  | .sell =>
    match p.positions.lookup trade.asset with
    | none => .ok (.error (.insufficientBalance trade.asset trade.quantity 0), p)
    | some position => do
      let (result, position) ← position.consumeFifo trade.quantity trade.price
      -- `get_mut` hands out the stored position, so it is written back on the error path too.
      let p := { p with positions := p.positions.insert trade.asset position }
      match result with
      | .error e => pure (.error e, p)
      | .ok events => do
        let totalRealizedPnl ← events.foldlM (fun acc e => add acc e.realizedPnl) p.totalRealizedPnl
        pure (.ok events, { p with totalRealizedPnl })

/-- A market data source: `PricingEngine::get_price`. -/
abbrev PricingEngine (D : Type) := String → Option D

/-- The loop of `total_unrealized_pnl` over the positions in the order the map yields them. -/
def Portfolio.unrealizedLoop (engine : PricingEngine D) :
    List (Σ _ : String, Position D) → D → Except Panic (Except (TradeError D) D)
  | [], total => .ok (.ok total)
  | ⟨asset, position⟩ :: rest, total =>
    if position.totalQuantity = 0 then
      Portfolio.unrealizedLoop engine rest total
    else
      match engine asset with
      | none => .ok (.error (.invalidTrade ("no market price for asset '" ++ asset ++ "'")))
      | some price => do
        let u ← position.unrealizedPnl price
        let total ← add total u.unrealizedPnl
        Portfolio.unrealizedLoop engine rest total

/-- An order in which the map may yield its entries: the hash order is not specified. -/
def Portfolio.IterOrder (p : Portfolio D) : Type :=
  { l : List (Σ _ : String, Position D) // (l : Multiset (Σ _ : String, Position D)) =
      p.positions.entries }

omit [LinearOrder D] [Zero D] [DecimalOps D] in
/-- Every order yields each stored position once. -/
theorem Portfolio.IterOrder.mem_entries {p : Portfolio D} (order : p.IterOrder)
    {e : Σ _ : String, Position D} : e ∈ order.1 ↔ e ∈ p.positions.entries := by
  rw [← Multiset.mem_coe, order.2]

omit [LinearOrder D] [Zero D] [DecimalOps D] in
/-- There is an order. -/
noncomputable def Portfolio.someOrder (p : Portfolio D) : p.IterOrder :=
  ⟨p.positions.entries.toList, Multiset.coe_toList _⟩

/-- Total unrealized PnL across all open positions using the supplied pricing engine. Returns
`InvalidTrade` if any asset has no price. -/
def Portfolio.totalUnrealizedPnl (p : Portfolio D) (order : p.IterOrder)
    (engine : PricingEngine D) : Except Panic (Except (TradeError D) D) :=
  Portfolio.unrealizedLoop engine order.1 0

end Ledger
end CryptoAccounting

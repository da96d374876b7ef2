import CryptoAccounting.Domain.Records
import CryptoAccounting.Lib.WhileLoop

/-!
# The consumer's domain

`domain/trade_event.rs` and `domain/portfolio.rs` of pnl-consumer: the side of an event read from the
`trades` topic, and one FIFO portfolio for each asset. The balance check of a sell is made in `apply`, before
`consume_fifo` is called.
-/

namespace CryptoAccounting

open DecimalOps WhileLoop

variable {D : Type}

/-! ### Events -/

/-- `str::to_lowercase`, for the comparisons made here: no character outside ASCII has a lowercase
mapping to a letter of "buy" or "sell". -/
def toLowercase (s : String) : String := String.ofList (s.toList.map Char.toLower)

/-- `TradeEvent::side`. -/
def TradeEvent.getSide (event : TradeEvent D) : Option TradeSide :=
  if toLowercase event.side = "buy" then some .buy
  else if toLowercase event.side = "sell" then some .sell
  else none

@[simp] theorem toLowercase_buy : toLowercase "buy" = "buy" := by decide
@[simp] theorem toLowercase_sell : toLowercase "sell" = "sell" := by decide

/-- The side strings the ledger writes are read back as the side they stand for. -/
theorem getSide_of_str {event : TradeEvent D} {side : TradeSide} (h : event.side = side.str) :
    event.getSide = some side := by
  cases side <;> simp [TradeEvent.getSide, h, TradeSide.str]

/-- The event of a trade in BTC at price 100, for the examples. -/
def sampleEvent (id : Uuid) (side : TradeSide) (quantity : ℚ) : TradeEvent ℚ where
  eventId := id
  eventType := "trade_created"
  tradeId := id
  asset := "BTC"
  quantity
  price := 100
  side := side.str
  notionalValue := quantity * 100
  realizedPnl := 0
  timestamp := 0
  publishedAt := 0

/-! ### Portfolios -/

namespace Consumer

variable [LinearOrder D] [Zero D] [DecimalOps D]

inductive PortfolioError (D : Type)
  | insufficientBalance (asset : String) (required available : D)
  | unknownSide (side : String)
  deriving DecidableEq, Repr

/-- Per-asset FIFO portfolio state. -/
structure AssetPortfolio (D : Type) where
  asset : String
  /-- Oldest lot at the front; newest at the back. -/
  lots : List (Lot D)
  totalQuantity : D
  /-- Cumulative realized PnL for this asset across all processed sells. -/
  totalRealizedPnl : D
  deriving DecidableEq, Repr

def AssetPortfolio.new (asset : String) : AssetPortfolio D :=
  { asset, lots := [], totalQuantity := 0, totalRealizedPnl := 0 }

/-- What the loop of `consume_fifo` changes. -/
structure AssetPortfolio.Fifo (D : Type) where
  lots : List (Lot D)
  totalQuantity : D
  sellQty : D
  events : List (RealizedPnL D)
  deriving DecidableEq, Repr

/-- The guard `sell_qty > Decimal::ZERO`. -/
def AssetPortfolio.fifoGuard (s : AssetPortfolio.Fifo D) : Bool := decide (s.sellQty > 0)

/-- The loop body. -/
def AssetPortfolio.fifoBody (asset : String) (sellPrice : D) (s : AssetPortfolio.Fifo D) :
    Except Panic (AssetPortfolio.Fifo D) :=
  match s.lots with
  | [] => .error (.expect "lot queue unexpectedly empty")
  | lot :: rest => do
    let consumed := min s.sellQty lot.quantity
    let costBasis ← mul consumed lot.costPerUnit
    let proceeds ← mul consumed sellPrice
    let realizedPnl ← sub proceeds costBasis
    let quantity ← sub lot.quantity consumed
    let totalQuantity ← sub s.totalQuantity consumed
    let sellQty ← sub s.sellQty consumed
    pure
      { lots := if quantity = 0 then rest else { lot with quantity } :: rest
        totalQuantity
        sellQty
        events := s.events ++ [{ asset, quantity := consumed, costBasis, proceeds, realizedPnl }] }

/-- Consume `sellQty` units from the front of the FIFO lot queue. The caller must verify
`sellQty ≤ totalQuantity` beforehand. -/
def AssetPortfolio.consumeFifo (p : AssetPortfolio D) (sellQty sellPrice : D) :
    Except Panic (List (RealizedPnL D) × AssetPortfolio D) := do
  let s ← whileFuel AssetPortfolio.fifoGuard (AssetPortfolio.fifoBody p.asset sellPrice)
    (p.lots.length + 1)
    { lots := p.lots, totalQuantity := p.totalQuantity, sellQty, events := [] }
  match s with
  | none => .error .outOfFuel
  | some s => .ok (s.events, { p with lots := s.lots, totalQuantity := s.totalQuantity })

/-- Apply a `TradeEvent` to this portfolio. -/
def AssetPortfolio.apply (p : AssetPortfolio D) (event : TradeEvent D) :
    Except Panic (Except (PortfolioError D) (List (RealizedPnL D)) × AssetPortfolio D) :=
  match event.getSide with
  | none => .ok (.error (.unknownSide event.side), p)
  | some .buy => do
    let lots := p.lots ++ [{ quantity := event.quantity, costPerUnit := event.price }]
    let totalQuantity ← add p.totalQuantity event.quantity
    pure (.ok [], { p with lots, totalQuantity })
  | some .sell =>
    if event.quantity > p.totalQuantity then
      .ok (.error (.insufficientBalance p.asset event.quantity p.totalQuantity), p)
    else do
      let (pnlEvents, p) ← p.consumeFifo event.quantity event.price
      let totalRealizedPnl ← pnlEvents.foldlM (fun acc e => add acc e.realizedPnl)
        p.totalRealizedPnl
      pure (.ok pnlEvents, { p with totalRealizedPnl })

end Consumer
end CryptoAccounting

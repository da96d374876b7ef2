import CryptoAccounting.Ledger.Portfolio

/-!
# The ledger's application services

`application/services` and `application/dto` of ledger-service. `CreateTradeService::execute` is
cut at its lock and at its await point: `prepare` validates the request, `applyLocked` is the block
that holds the write lock, `respond` builds the response. The read services take the order in which
the map of positions is iterated over.
-/

namespace CryptoAccounting
namespace Ledger

open DecimalOps

variable {D : Type} [LinearOrder D] [Zero D] [DecimalOps D]

/-- An `anyhow::Error`: a bare message, or a context around a `TradeError`. -/
inductive AppError (D : Type)
  | bail (msg : String)
  | context (msg : String) (source : TradeError D)
  deriving DecidableEq, Repr

/-! ### Creating trades -/

/-- Inbound request to create a new trade. `TradeSideRequest` has the two variants of
`TradeSide`. -/
structure TradeRequest (D : Type) where
  asset : String
  quantity : D
  price : D
  side : TradeSide
  timestamp : Option Timestamp
  deriving DecidableEq, Repr

/-- Apply a function to the decimals of a request. -/
def TradeRequest.map {D E : Type} (f : D → E) (req : TradeRequest D) : TradeRequest E :=
  ⟨req.asset, f req.quantity, f req.price, req.side, req.timestamp⟩

/-- Outbound DTO returned after a trade is successfully applied. -/
structure TradeResponse (D : Type) where
  id : Uuid
  asset : String
  quantity : D
  price : D
  side : String
  notionalValue : D
  timestamp : Timestamp
  /-- Sum of realized PnL events produced by this trade (non-zero for sells). -/
  realizedPnl : D
  deriving DecidableEq, Repr

/-- The Unicode `White_Space` characters, which `str::trim` strips. -/
def isWhiteSpace (c : Char) : Bool :=
  let n := c.toNat
  (9 ≤ n && n ≤ 13) || n == 0x20 || n == 0x85 || n == 0xA0 || n == 0x1680 ||
    (0x2000 ≤ n && n ≤ 0x200A) || n == 0x2028 || n == 0x2029 || n == 0x202F || n == 0x205F ||
    n == 0x3000

/-- `asset.trim().is_empty()`. -/
def isBlank (s : String) : Bool := s.toList.all isWhiteSpace

/-- `execute` up to the lock: the request is validated and becomes a trade with its notional
value. -/
def CreateTrade.prepare (req : TradeRequest D) (id : Uuid) (now : Timestamp) :
    Except Panic (Except (AppError D) (Trade D × D)) :=
  if isBlank req.asset then
    .ok (.error (.bail "asset symbol must not be empty"))
  else
    match Trade.new id req.asset req.quantity req.price (req.timestamp.getD now) req.side with
    | .error e => .ok (.error (.context "invalid trade parameters" e))
    | .ok trade => do
      let notionalValue ← trade.notionalValue
      pure (.ok (trade, notionalValue))

/-- The block of `execute` that holds the write lock: apply the trade and sum its events. -/
def CreateTrade.applyLocked (p : Portfolio D) (trade : Trade D) :
    Except Panic (Except (AppError D) D × Portfolio D) := do
  let (result, p) ← p.applyTrade trade
  match result with
  | .error e => pure (.error (.context "failed to apply trade to portfolio" e), p)
  | .ok events => do
    let realizedPnl ← sumDecimal (events.map RealizedPnL.realizedPnl)
    pure (.ok realizedPnl, p)

def CreateTrade.respond (trade : Trade D) (notionalValue realizedPnl : D) : TradeResponse D where
  id := trade.id
  asset := trade.asset
  quantity := trade.quantity
  price := trade.price
  side := trade.side.str
  notionalValue
  timestamp := trade.timestamp
  realizedPnl

/-- `TradeEvent::from_response`: the event that is published for a trade. -/
def fromResponse (resp : TradeResponse D) (eventId : Uuid) (now : Timestamp) : TradeEvent D where
  eventId
  eventType := "trade_created"
  tradeId := resp.id
  asset := resp.asset
  quantity := resp.quantity
  price := resp.price
  side := resp.side
  notionalValue := resp.notionalValue
  realizedPnl := resp.realizedPnl
  timestamp := resp.timestamp
  publishedAt := now

/-! ### Reading the portfolio -/

/-- Caller-supplied current market prices, keyed by asset symbol. -/
structure PnLRequest (D : Type) where
  prices : Finmap fun _ : String => D

/-- PnL summary returned by `GetPnL`. -/
structure PnLResponse (D : Type) where
  totalRealized : D
  totalUnrealized : D
  total : D
  deriving DecidableEq, Repr

/-- `GetPnLService::execute` on the portfolio under the read lock; the pricing engine is the
static one over the request's map. -/
def GetPnL.execute (p : Portfolio D) (order : p.IterOrder) (req : PnLRequest D) :
    Except Panic (Except (AppError D) (PnLResponse D)) := do
  match ← p.totalUnrealizedPnl order fun asset => req.prices.lookup asset with
  | .error e =>
    pure (.error (.context
      "failed to compute unrealized PnL — ensure all open positions have a price" e))
  | .ok totalUnrealized => do
    let total ← add p.totalRealizedPnl totalUnrealized
    pure (.ok { totalRealized := p.totalRealizedPnl, totalUnrealized, total })

/-- Snapshot of a single open position. -/
structure PositionResponse (D : Type) where
  asset : String
  quantity : D
  averageCost : Option D
  deriving DecidableEq, Repr

/-- Full portfolio snapshot returned by `GetPortfolio`. -/
structure PortfolioResponse (D : Type) where
  positions : List (PositionResponse D)
  totalRealizedPnl : D
  deriving DecidableEq, Repr

def PositionResponse.of (pos : Position D) : Except Panic (PositionResponse D) := do
  let averageCost ← pos.averageCost
  pure { asset := pos.asset, quantity := pos.totalQuantity, averageCost }

/-- `GetPortfolioService::execute`: the positions with a positive quantity, sorted by asset. -/
def GetPortfolio.execute (p : Portfolio D) (order : p.IterOrder) :
    Except Panic (PortfolioResponse D) := do
  let positions ← ((order.1.map Sigma.snd).filter fun pos => 0 < pos.totalQuantity).mapM
    PositionResponse.of
  pure
    { positions := positions.mergeSort fun a b => decide (a.asset ≤ b.asset)
      totalRealizedPnl := p.totalRealizedPnl }

end Ledger
end CryptoAccounting

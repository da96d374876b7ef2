import CryptoAccounting.Ledger.Publish
import CryptoAccounting.Ledger.Stored
import CryptoAccounting.Lib.Maps
import CryptoAccounting.Wire

/-!
# The HTTP layer

The handlers of ledger-service around its services, as one transition system: any number of requests at
once, of which a `POST /trades` waits for its insert while the others are answered at once. `ApiError`
says which status and message an error gets: a `TradeError` is found below the context that was put
around it, and only its own message is shown. The service has its repository and its producer; `main`
also runs without them when it cannot connect.
-/

namespace CryptoAccounting
namespace Ledger

open Json Transition

variable {D : Type}

/-! ### Errors and envelopes -/

/-- The status codes of the handlers and the router. -/
inductive StatusCode
  | ok
  | created
  | badRequest
  | requestTimeout
  | unprocessableEntity
  | internalServerError
  deriving DecidableEq, Repr

structure ApiError where
  status : StatusCode
  message : String
  deriving DecidableEq, Repr

namespace ApiError

def badRequest (message : String) : ApiError := ⟨.badRequest, message⟩
def unprocessable (message : String) : ApiError := ⟨.unprocessableEntity, message⟩
def internal (message : String) : ApiError := ⟨.internalServerError, message⟩

end ApiError

/-- The message of a `TradeError`; `display` writes a decimal. -/
def TradeError.message (display : D → String) : TradeError D → String
  | .insufficientBalance asset required available =>
    "insufficient balance for " ++ asset ++ ": required " ++ display required ++ ", available " ++
      display available
  | .invalidTrade msg => "invalid trade: " ++ msg
  | .overflow => "arithmetic overflow"
  | .persistence msg => "persistence error: " ++ msg

/-- `From<anyhow::Error> for ApiError`: what `downcast_ref` finds is below the context, if there is one. -/
def ApiError.ofAppError (display : D → String) : AppError D → ApiError
  | .context _ (.overflow) => .internal "arithmetic overflow"
  | .context _ (.persistence msg) => .internal msg
  | .context _ e => .unprocessable (e.message display)
  | .bail msg => .unprocessable msg

/-- `ApiResponse`, with its status. -/
structure ApiResponse (α : Type) where
  status : StatusCode
  data : Option α
  error : Option String
  deriving DecidableEq

def ApiResponse.success {α : Type} (status : StatusCode) (data : α) : ApiResponse α :=
  ⟨status, some data, none⟩

def ApiError.intoResponse {α : Type} (e : ApiError) : ApiResponse α := ⟨e.status, none, some e.message⟩

/-! ### Bodies -/

/-- `TradeSideRequest`: the name of the variant, or an object with it as the only member. -/
def readSide : Json → Option TradeSide
  | .string "buy" => some .buy
  | .string "sell" => some .sell
  | .object [("buy", .null)] => some .buy
  | .object [("sell", .null)] => some .sell
  | _ => none

/-- A `TradeRequest` from the values of its fields; the timestamp may be missing or null. -/
def requestOfFields (w : Texts D) (asset quantity price side : Json) (timestamp : Option Json) :
    Option (TradeRequest D) := do
  let asset ← text.read asset
  let quantity ← w.decimal.read quantity
  let price ← w.decimal.read price
  let side ← readSide side
  let timestamp ← optional w.time.read timestamp
  pure { asset, quantity, price, side, timestamp }

/-- The body of `POST /trades`. -/
def readTradeRequest (w : Texts D) : Json → Option (TradeRequest D)
  | .object members => do
    let asset ← member members "asset"
    let quantity ← member members "quantity"
    let price ← member members "price"
    let side ← member members "side"
    let timestamp ← optionalMember members "timestamp"
    requestOfFields w asset quantity price side timestamp
  | .array [asset, quantity, price, side, timestamp] =>
    requestOfFields w asset quantity price side (some timestamp)
  | _ => none

/-- A map of prices; of entries with the same asset the last one is kept. -/
def readPrices (w : Texts D) : Json → Option (Finmap fun _ : String => D)
  | .object members => members.foldlM (fun prices m => do
      let price ← w.decimal.read m.2
      pure (prices.insert m.1 price)) ∅
  | _ => none

/-- The body of `GET /pnl`. -/
def readPnlRequest (w : Texts D) (body : Json) : Option (Finmap fun _ : String => D) := do
  match ← fields ["prices"] body with
  | [prices] => readPrices w prices
  | _ => none

/-! ### The service -/

variable {E : Type}

/-- A request with its response. -/
inductive Exchange (D : Type)
  /-- A body that cannot be read. -/
  | malformed (response : ApiResponse Empty)
  /-- A `POST /trades` that is refused before or under the lock. -/
  | refused (req : TradeRequest D) (id : Uuid) (now : Timestamp)
      (response : ApiResponse (TradeResponse D))
  /-- A `POST /trades` whose trade was applied. -/
  | ended (trade : Trade D) (response : ApiResponse (TradeResponse D))
  | portfolio (order : (p : Portfolio D) → p.IterOrder) (response : ApiResponse (PortfolioResponse D))
  | pnl (order : (p : Portfolio D) → p.IterOrder) (req : PnLRequest D)
      (response : ApiResponse (PnLResponse D))
  | trades (response : ApiResponse (List (TradeResponse D)))

def Exchange.status : Exchange D → StatusCode
  | .malformed response => response.status
  | .refused _ _ _ response => response.status
  | .ended _ response => response.status
  | .portfolio _ response => response.status
  | .pnl _ _ response => response.status
  | .trades response => response.status

/-- The exchange created a trade, whatever its response says. -/
def Exchange.applies : Exchange D → Bool
  | .ended .. => true
  | _ => false

/-- An exchange with what an observer knows of it: how many responses were sent before its request, and
how many trades were applied before it took effect. -/
structure Entry (D : Type) where
  since : ℕ
  effect : ℕ
  exchange : Exchange D

/-- How many trades are applied once the exchange has taken effect. -/
def Entry.after (e : Entry D) : ℕ := e.effect + if e.exchange.applies then 1 else 0

/-- One instance with its HTTP layer. -/
structure Http (D : Type) where
  ledger : Instance D
  /-- The exchanges, in the order of their responses. -/
  entries : List (Entry D)
  /-- `since` and `effect` of the calls under way. -/
  begun : Uuid → ℕ × ℕ

def Http.init [Zero D] : Http D where
  ledger := Instance.init
  entries := []
  begun := fun _ => (0, 0)

inductive Http.Action (D : Type)
  /-- A `POST /trades` runs up to its await point. `rejection` is what axum says about a body it cannot
  read. -/
  | post (body : Option Json) (rejection : String) (now : Timestamp)
  /-- The insert of a call is carried out; `error` is what the database says if it is not. -/
  | save (id : Uuid) (error : String)
  | saveFails (id : Uuid) (error : String)
  | respond (id : Uuid) (now : Timestamp)
  /-- The timeout layer drops the handler. -/
  | timeout (id : Uuid)
  /-- The client is gone, and the handler is dropped without a response. -/
  | disconnect (id : Uuid)
  | portfolio (order : (p : Portfolio D) → p.IterOrder)
  | pnl (order : (p : Portfolio D) → p.IterOrder) (body : Option Json) (rejection : String)
  /-- `GET /trades`, with what the query returns. -/
  | trades (rows : Except String (List (TradeRow D)))
  /-- The timeout layer drops the handler of a `GET /trades` that waits for the query. -/
  | tradesTimeout

variable [LinearOrder D] [Zero D] [DecimalOps D]

/-- Why `execute` refuses a request on this portfolio, if it does. It panics at a poisoned lock. -/
def CreateTrade.refusal (poisoned : Bool) (p : Portfolio D) (req : TradeRequest D) (id : Uuid)
    (now : Timestamp) : Option (AppError D) :=
  match CreateTrade.prepare req id now with
  | .ok (.ok (trade, _)) =>
    if poisoned then none
    else
      match CreateTrade.applyLocked p trade with
      | .ok (.error e, _) => some e
      | _ => none
  | .ok (.error e) => some e
  | .error _ => none

/-- The handler of `GET /pnl`, on a request that was read. -/
def pnlResponse (display : D → String) :
    Except (AppError D) (PnLResponse D) → ApiResponse (PnLResponse D)
  | .ok resp => .success .ok resp
  | .error e => (ApiError.ofAppError display e).intoResponse

/-- The handler of `GET /trades`, with a repository. The query may fail. -/
def listTradesHandler (display : D → String) :
    Except String (List (TradeRow D)) → Except Panic (ApiResponse (List (TradeResponse D)))
  | .error e => .ok (ApiError.ofAppError display (.context "" (.persistence e))).intoResponse
  | .ok rows => do
    match ← listTrades rows with
    | .error e => pure (ApiError.ofAppError display (.context "" e)).intoResponse
    | .ok items => pure (.success .ok items)

/-- A response to a request that takes effect now. -/
def Http.answer (s : Http D) (exchange : Exchange D) : Http D :=
  { s with entries := s.entries ++ [⟨s.entries.length, s.ledger.applied.length, exchange⟩] }

/-- The response to a call that has been under way. -/
def Http.finish (s : Http D) (ledger : Instance D) (call : Call D)
    (response : ApiResponse (TradeResponse D)) : Http D :=
  { s with
    ledger
    entries := s.entries ++
      [⟨(s.begun call.trade.id).1, (s.begun call.trade.id).2, .ended call.trade response⟩] }

instance (rows trades : List (TradeRow D)) : Decidable (NewestFirst rows trades) :=
  decidable_of_iff (rows.Perm trades ∧ rows.Pairwise fun x y => y.timestamp ≤ x.timestamp)
    ⟨fun h => ⟨h.1, h.2⟩, fun h => ⟨h.perm, h.sorted⟩⟩

/-- The error of a save, as `execute` returns it. -/
def saveError (display : D → String) (error : String) : ApiResponse (TradeResponse D) :=
  (ApiError.ofAppError display (.context "failed to persist trade" (.persistence error))).intoResponse

/-- What `handle_middleware_error` makes of an elapsed timeout. -/
def timedOut {α : Type} : ApiResponse α := ⟨.requestTimeout, none, some "request timed out"⟩

/-- One step; `none` if it is not enabled, or if the handler panics and sends no response. -/
def Http.step (num : D → Option D) (w : Texts E) (val : E → D) (display : D → String)
    (s : Http D) : Http.Action D → Option (Http D)
  | .post body rejection now =>
    match body >>= readTradeRequest w with
    | none => some (s.answer (.malformed (ApiError.badRequest rejection).intoResponse))
    | some req => do
      let ledger ← s.ledger.step num (.start (req.map val) now)
      match CreateTrade.refusal s.ledger.poisoned s.ledger.portfolio (req.map val) s.ledger.nextId now with
      | some e =>
        some (Http.answer { s with ledger } (.refused (req.map val) s.ledger.nextId now
          (ApiError.ofAppError display e).intoResponse))
      | none =>
        some { s with
          ledger
          begun := Function.update s.begun s.ledger.nextId
            (s.entries.length, s.ledger.applied.length) }
  | .save id error => do
    let call ← s.ledger.calls id
    let ledger ← s.ledger.step num (.save id)
    if (ledger.calls id).isSome then some { s with ledger }
    else some (s.finish ledger call (saveError display error))
  | .saveFails id error => do
    let call ← s.ledger.calls id
    let ledger ← s.ledger.step num (.saveFails id)
    pure (s.finish ledger call (saveError display error))
  | .respond id now => do
    let call ← s.ledger.calls id
    let ledger ← s.ledger.step num (.respond id now)
    pure (s.finish ledger call (.success .created
      (CreateTrade.respond call.trade call.notionalValue call.realizedPnl)))
  | .timeout id => do
    let call ← s.ledger.calls id
    let ledger ← s.ledger.step num (.cancel id)
    pure (s.finish ledger call timedOut)
  | .disconnect id => do
    let ledger ← s.ledger.step num (.cancel id)
    pure { s with ledger }
  | .portfolio order =>
    if s.ledger.poisoned then none
    else
      match GetPortfolio.execute s.ledger.portfolio (order s.ledger.portfolio) with
      | .error _ => none
      | .ok resp => some (s.answer (.portfolio order (.success .ok resp)))
  | .pnl order body rejection =>
    match body >>= readPnlRequest w with
    | none => some (s.answer (.malformed (ApiError.badRequest rejection).intoResponse))
    | some prices =>
      let req : PnLRequest D := ⟨prices.mapValues val⟩
      if s.ledger.poisoned then none
      else
        match GetPnL.execute s.ledger.portfolio (order s.ledger.portfolio) req with
        | .error _ => none
        | .ok result => some (s.answer (.pnl order req (pnlResponse display result)))
  | .trades rows =>
    if ∀ rs ∈ rows.toOption, NewestFirst rs s.ledger.trades then
      match listTradesHandler display rows with
      | .error _ => none
      | .ok response => some (s.answer (.trades response))
    else none
  | .tradesTimeout => some (s.answer (.trades timedOut))

end Ledger
end CryptoAccounting

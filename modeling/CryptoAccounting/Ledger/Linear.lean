import CryptoAccounting.Ledger.Http
import CryptoAccounting.Ledger.Producer

/-!
# The ledger is linearizable

Requests overlap, and a `POST /trades` is answered long after it has taken effect. Still there is one
order, that of the applied trades, in which a ledger that handles one request after the other would have
given the same answers, and it does not contradict the order in which responses and requests were seen
(`responses_linearize`, in exact arithmetic). A response also tells what happened to the trade, except that
a failed save and a timeout leave it applied.
-/

namespace CryptoAccounting
namespace Ledger

open Transition

/-! ### What the responses say -/

/-- The item of the trade, with quantity, price and time as their columns hold them. -/
def Trade.Lists (num : ℚ → Option ℚ) (t : Trade ℚ) (item : TradeResponse ℚ) : Prop :=
  ∃ row, TradeRow.ofTrade num t = some row ∧
    listItem { t with
      quantity := row.quantity, price := row.price, timestamp := timestamptz t.timestamp } = .ok item

/-- The response to an exchange is right if `effect` trades were applied before it and made `p`. -/
def Exchange.Right (num : ℚ → Option ℚ) (display : ℚ → String) (s : Instance ℚ) (effect : ℕ)
    (p : Portfolio ℚ) : Exchange ℚ → Prop
  | .malformed response => ∃ message, response = (ApiError.badRequest message).intoResponse
  | .refused req id now response => ∃ e, CreateTrade.refusal false p req id now = some e ∧
      response = (ApiError.ofAppError display e).intoResponse
  | .ended trade response => s.applied[effect]? = some trade ∧ ∃ realizedPnl p',
      CreateTrade.applyLocked p trade = .ok (.ok realizedPnl, p') ∧
      ((response = .success .created
            (CreateTrade.respond trade (trade.quantity * trade.price) realizedPnl) ∧
          (∃ row ∈ s.trades, row.id = trade.id) ∧ ∃ e ∈ s.spawned, e.tradeId = trade.id) ∨
        ((∃ error, response = saveError display error) ∧ (trade, Ending.err) ∈ s.ended ∧
          ∀ row ∈ s.trades, row.id ≠ trade.id) ∨
        response = timedOut)
  | .portfolio order response => ∃ resp, GetPortfolio.execute p (order p) = .ok resp ∧
      response = .success .ok resp
  | .pnl order req response => ∃ result, GetPnL.execute p (order p) req = .ok result ∧
      response = pnlResponse display result
  | .trades response => (∃ message, response = (ApiError.internal message).intoResponse) ∨
      response = timedOut ∨
      ∃ items, response = .success .ok items ∧ (items.map TradeResponse.id).Nodup ∧
        items.Pairwise (fun x y => y.timestamp ≤ x.timestamp) ∧
          ∀ item ∈ items, ∃ t ∈ s.applied.take effect, t.Lists num item

/-- An exchange and its response, at the place of the order where it took effect. -/
structure Entry.Sound (num : ℚ → Option ℚ) (display : ℚ → String) (s : Instance ℚ) (e : Entry ℚ) :
    Prop where
  after_le : e.after ≤ s.applied.length
  right : ∃ p, Portfolio.new.applyEach (s.applied.take e.effect) = .ok p ∧
    e.exchange.Right num display s e.effect p

variable {num : ℚ → Option ℚ} {display : ℚ → String} {D : Type} {w : Texts D} {val : D → ℚ}
  {s s' : Instance ℚ}

theorem take_grown {α : Type} {l m : List α} (h : l <+: m) {k : ℕ} (hk : k ≤ l.length) :
    m.take k = l.take k := by
  obtain ⟨more, rfl⟩ := h
  exact List.take_append_of_le_length hk

theorem getElem?_grown {α : Type} {l m : List α} (h : l <+: m) {k : ℕ} {a : α}
    (hk : l[k]? = some a) : m[k]? = some a := by
  obtain ⟨more, rfl⟩ := h
  rw [List.getElem?_append_left (List.getElem?_eq_some_iff.1 hk).1]
  exact hk

theorem Entry.effect_le (e : Entry ℚ) : e.effect ≤ e.after := Nat.le_add_right _ _

/-- What a response says stays true. -/
theorem Entry.Sound.mono {e : Entry ℚ} (h : e.Sound num display s) (hg : s.Grows s') (hi : s'.Inv num) :
    e.Sound num display s' where
  after_le := h.after_le.trans hg.applied.length_le
  right := by
    have hle : e.effect ≤ s.applied.length := e.effect_le.trans h.after_le
    obtain ⟨p, hp, hright⟩ := h.right
    refine ⟨p, by rwa [take_grown hg.applied hle], ?_⟩
    cases hexchange : e.exchange with
    | malformed response => rwa [hexchange] at hright
    | refused req id now response => rwa [hexchange] at hright
    | ended trade response =>
      rw [hexchange] at hright
      obtain ⟨htrade, realizedPnl, p', hlocked, hresponse⟩ := hright
      refine ⟨getElem?_grown hg.applied htrade, realizedPnl, p', hlocked, ?_⟩
      rcases hresponse with ⟨hresp, ⟨row, hr, hid⟩, ⟨event, he, htid⟩⟩ | ⟨herror, hended, -⟩ | htimeout
      · exact .inl ⟨hresp, ⟨row, hg.trades hr, hid⟩, ⟨event, hg.spawned he, htid⟩⟩
      · exact .inr (.inl ⟨herror, hg.ended hended, (hi.err _ (hg.ended hended)).2.2⟩)
      · exact .inr (.inr htimeout)
    | portfolio order response => rwa [hexchange] at hright
    | pnl order req response => rwa [hexchange] at hright
    | trades response =>
      rw [hexchange] at hright
      rcases hright with hmessage | htimeout | ⟨items, hitems, hnodup, hsorted, hlisted⟩
      · exact .inl hmessage
      · exact .inr (.inl htimeout)
      · refine .inr (.inr ⟨items, hitems, hnodup, hsorted, ?_⟩)
        rw [take_grown hg.applied hle]
        exact hlisted

/-! ### Calls under way -/

/-- The trade of a call is the one that was applied after `effect` others, and its numbers are those of
the portfolio they made. -/
structure Call.At (s : Instance ℚ) (effect : ℕ) (call : Call ℚ) : Prop where
  trade : s.applied[effect]? = some call.trade
  notionalValue : call.notionalValue = call.trade.quantity * call.trade.price
  realizedPnl : ∃ p p', Portfolio.new.applyEach (s.applied.take effect) = .ok p ∧
    CreateTrade.applyLocked p call.trade = .ok (.ok call.realizedPnl, p')

theorem Call.At.lt {call : Call ℚ} {effect : ℕ} (h : call.At s effect) : effect < s.applied.length :=
  (List.getElem?_eq_some_iff.1 h.trade).1

theorem Call.At.mono {call : Call ℚ} {effect : ℕ} (h : call.At s effect) (hg : s.applied <+: s'.applied)
    (written : Bool) : Call.At s' effect { call with written } where
  trade := getElem?_grown hg h.trade
  notionalValue := h.notionalValue
  realizedPnl := by
    rw [take_grown hg h.lt.le]
    exact h.realizedPnl

/-- `begun` says when a call began and took effect, so that every response sent before its request
comes before it in the order. -/
structure Http.Under (s : Http ℚ) (id : Uuid) (call : Call ℚ) : Prop where
  call : call.At s.ledger (s.begun id).2
  since_le : (s.begun id).1 ≤ s.entries.length
  earlier : ∀ i < (s.begun id).1, ∀ d, s.entries[i]? = some d → d.after ≤ (s.begun id).2
  fresh : ∀ d ∈ s.entries, d.exchange.applies → d.effect ≠ (s.begun id).2

/-- The list that a `GET /trades` was answered with has the trade of every `201` in `entries`. -/
def Entry.Complete (num : ℚ → Option ℚ) (entries : List (Entry ℚ)) (e : Entry ℚ) : Prop :=
  ∀ items, e.exchange = .trades (.success .ok items) →
    ∀ d ∈ entries, ∀ t resp, d.exchange = .ended t (.success .created resp) →
      ∃ item ∈ items, t.Lists num item

structure Http.Inv (num : ℚ → Option ℚ) (display : ℚ → String) (s : Http ℚ) : Prop where
  ledger : s.ledger.Inv num
  unpoisoned : s.ledger.poisoned = false
  told : s.ledger.Told num
  entries : ∀ e ∈ s.entries, e.Sound num display s.ledger
  calls : ∀ id call, s.ledger.calls id = some call → s.Under id call
  since : ∀ (j : ℕ) (e : Entry ℚ), s.entries[j]? = some e → e.since ≤ j
  realTime : ∀ (j : ℕ) (e : Entry ℚ), s.entries[j]? = some e →
    ∀ i < e.since, ∀ d, s.entries[i]? = some d → d.after ≤ e.effect
  complete : ∀ (j : ℕ) (e : Entry ℚ), s.entries[j]? = some e → e.Complete num (s.entries.take e.since)
  once : s.entries.Pairwise fun d e => d.exchange.applies → e.exchange.applies → d.effect ≠ e.effect

theorem Http.inv_init : Http.init.Inv num display where
  ledger := Instance.inv_init
  unpoisoned := rfl
  told := Instance.told_init
  entries e he := by cases he
  calls id call h := by cases h
  since j e h := by cases h
  realTime j e h := by cases h
  complete j e h := by cases h
  once := List.Pairwise.nil

/-! ### What the steps keep -/

/-- Only the start of a call brings a new one. -/
theorem later_calls {a : Instance.Action ℚ} (hs : s.step num a = some s')
    (ha : ∀ req now, a ≠ .start req now) {id : Uuid} {call' : Call ℚ} (hc' : s'.calls id = some call') :
    ∃ call, s.calls id = some call ∧ ∃ written, call' = { call with written } := by
  have hsame : ∀ {call' : Call ℚ}, s.calls id = some call' →
      ∃ call, s.calls id = some call ∧ ∃ written, call' = { call with written } :=
    fun {call'} hc => ⟨call', hc, call'.written, rfl⟩
  have hfinish : ∀ {call : Call ℚ} {v : Option (Call ℚ)}, v = none →
      Function.update s.calls call.trade.id v id = some call' →
        ∃ call, s.calls id = some call ∧ ∃ written, call' = { call with written } := by
    rintro call v rfl hc
    rcases Tables.update_eq_some hc with ⟨-, he⟩ | ⟨-, hc⟩
    · cases he
    · exact hsame hc
  cases step_moves hs with
  | drawn req now => exact absurd rfl (ha req now)
  | panicked req now => exact absurd rfl (ha req now)
  | refused req now => exact absurd rfl (ha req now)
  | accepted req now => exact absurd rfl (ha req now)
  | saved id' call row hc hw hrow =>
    rcases Tables.update_eq_some hc' with ⟨rfl, he⟩ | ⟨-, hc'⟩
    · cases he
      exact ⟨call, hc, true, rfl⟩
    · exact hsame hc'
  | rejected => exact hfinish rfl hc'
  | failed => exact hfinish rfl hc'
  | responded => exact hfinish rfl hc'
  | cancelled => exact hfinish rfl hc'

/-- A request that is refused leaves the instance as it was, apart from the id it has drawn; any other
enters with its trade applied. -/
theorem start_refusal {req : TradeRequest ℚ} {now : Timestamp} (hi : s.Inv num)
    (hp : s.poisoned = false) (hs : s.step num (.start req now) = some s') :
    (∃ e, CreateTrade.refusal s.poisoned s.portfolio req s.nextId now = some e ∧ s'.calls = s.calls ∧
      s'.applied = s.applied) ∨
    CreateTrade.refusal s.poisoned s.portfolio req s.nextId now = none ∧ ∃ realizedPnl p,
      CreateTrade.applyLocked s.portfolio (req.toTrade s.nextId now) = .ok (.ok realizedPnl, p) ∧
        s'.applied = s.applied ++ [req.toTrade s.nextId now] ∧
        s'.calls = Function.update s.calls s.nextId
          (some ⟨req.toTrade s.nextId now, req.quantity * req.price, realizedPnl, false⟩) := by
  unfold Instance.step at hs
  unfold CreateTrade.refusal
  by_cases hreq : req.Valid
  · simp only [prepare_valid hreq, hp, Bool.false_eq_true, if_false] at hs ⊢
    split at hs
    · next e hpanic =>
      obtain ⟨books, href⟩ := hi.refines
      rcases applyLocked_exact href (hreq.trade s.nextId now) with ⟨_, hok⟩ | ⟨_, _, -, -, hok⟩ <;>
        exact absurd (hpanic.symm.trans hok) nofun
    · next e p hlocked =>
      cases hs
      exact .inl ⟨e, by rw [hlocked], rfl, rfl⟩
    · next realizedPnl p hlocked =>
      cases hs
      exact .inr ⟨by rw [hlocked], realizedPnl, p, hlocked, rfl, rfl⟩
  · obtain ⟨e, he⟩ := prepare_invalid hreq s.nextId now
    simp only [he] at hs ⊢
    cases hs
    exact .inl ⟨e, rfl, rfl, rfl⟩

variable {h h' : Http ℚ}

/-- The instance takes a step in which no call begins, and perhaps a response is sent. -/
theorem Http.Inv.later (hI : h.Inv num display) {ledger : Instance ℚ} (hg : h.ledger.Grows ledger)
    (hi : ledger.Inv num) (hp : ledger.poisoned = false) (ht : ledger.Told num)
    (hcalls : ∀ id call', ledger.calls id = some call' →
      ∃ call, h.ledger.calls id = some call ∧ ∃ written, call' = { call with written })
    (es : List (Entry ℚ)) (hone : es.length ≤ 1) (hsound : ∀ e ∈ es, e.Sound num display ledger)
    (hsince : ∀ e ∈ es, e.since ≤ h.entries.length)
    (hearlier : ∀ e ∈ es, ∀ i < e.since, ∀ d, h.entries[i]? = some d → d.after ≤ e.effect)
    (hcomplete : ∀ e ∈ es, e.Complete num h.entries)
    (honce : ∀ e ∈ es, e.exchange.applies → (∀ d ∈ h.entries, d.exchange.applies → d.effect ≠ e.effect) ∧
      ∀ id call', ledger.calls id = some call' → e.effect ≠ (h.begun id).2) :
    Http.Inv num display { h with ledger, entries := h.entries ++ es } := by
  have hold : ∀ {i : ℕ} {d : Entry ℚ}, i < h.entries.length → (h.entries ++ es)[i]? = some d →
      h.entries[i]? = some d := by
    intro i d hlt hd
    rwa [List.getElem?_append_left hlt] at hd
  have hlast : ∀ {j : ℕ} {e : Entry ℚ}, (h.entries ++ es)[j]? = some e →
      h.entries[j]? = some e ∨ j = h.entries.length ∧ e ∈ es := by
    intro j e he
    rcases Nat.lt_or_ge j h.entries.length with hlt | hge
    · exact .inl (hold hlt he)
    · rw [List.getElem?_append_right hge] at he
      have hj := (List.getElem?_eq_some_iff.1 he).1
      exact .inr ⟨by omega, List.mem_of_getElem? he⟩
  -- Entries keep their places, and what is sent now stands behind all of them.
  refine ⟨hi, hp, ht, fun e he => ?_, fun id call' hc' => ?_, fun j e he => ?_, fun j e he i hlt d hd => ?_,
    fun j e he => ?_, ?_⟩
  · rcases List.mem_append.1 he with he | he
    · exact (hI.entries e he).mono hg hi
    · exact hsound e he
  · obtain ⟨call, hc, written, rfl⟩ := hcalls id call' hc'
    have hunder := hI.calls id call hc
    refine ⟨hunder.call.mono hg.applied written, ?_, fun i hlt d hd => ?_, fun d hd happlies => ?_⟩
    · exact hunder.since_le.trans (by simp)
    · exact hunder.earlier i hlt d (hold (hlt.trans_le hunder.since_le) hd)
    · rcases List.mem_append.1 hd with hd | hd
      · exact hunder.fresh d hd happlies
      · exact (honce d hd happlies).2 id _ hc'
  · rcases hlast he with he | ⟨rfl, hmem⟩
    · exact hI.since j e he
    · exact hsince e hmem
  · rcases hlast he with he | ⟨rfl, hmem⟩
    · have hj := (List.getElem?_eq_some_iff.1 he).1
      have hi' := hlt.trans_le (hI.since j e he)
      exact hI.realTime j e he i hlt d (hold (hi'.trans hj) hd)
    · exact hearlier e hmem i hlt d (hold (hlt.trans_le (hsince e hmem)) hd)
  · show e.Complete num ((h.entries ++ es).take e.since)
    rcases hlast he with he | ⟨rfl, hmem⟩
    · have hj := (List.getElem?_eq_some_iff.1 he).1
      rw [List.take_append_of_le_length ((hI.since j e he).trans hj.le)]
      exact hI.complete j e he
    · rw [List.take_append_of_le_length (hsince e hmem)]
      exact fun items hitems d hd => hcomplete e hmem items hitems d (List.mem_of_mem_take hd)
  · refine List.pairwise_append.2 ⟨hI.once, ?_, fun d hd e he hd' he' => (honce e he he').1 d hd hd'⟩
    rcases es with _ | ⟨e, _ | ⟨d, es⟩⟩
    · exact List.Pairwise.nil
    · exact List.pairwise_singleton _ e
    · simp at hone

/-- The instance takes a step, and nothing is answered. -/
theorem Http.Inv.quiet (hI : h.Inv num display) {ledger : Instance ℚ} {a : Instance.Action ℚ}
    (hs : h.ledger.step num a = some ledger) (ha : ∀ req now, a ≠ .start req now) :
    Http.Inv num display { h with ledger } := by
  have hlater := hI.later (hI.ledger.grows hs) (hI.ledger.step hs)
    (hI.ledger.unpoisoned_step hI.unpoisoned hs) (hI.told.step hI.ledger hs)
    (fun id call' hc' => later_calls hs ha hc') [] (Nat.zero_le 1)
    (List.forall_mem_nil _) (List.forall_mem_nil _) (List.forall_mem_nil _) (List.forall_mem_nil _)
    (List.forall_mem_nil _)
  rwa [List.append_nil] at hlater

/-- A response to a request that takes effect now. -/
theorem Http.Inv.answer (hI : h.Inv num display) {ledger : Instance ℚ} (hg : h.ledger.Grows ledger)
    (hi : ledger.Inv num) (hp : ledger.poisoned = false) (ht : ledger.Told num)
    (hcalls : ledger.calls = h.ledger.calls) (happlied : ledger.applied = h.ledger.applied)
    {exchange : Exchange ℚ}
    (hkind : exchange.applies = false)
    (hright : exchange.Right num display ledger ledger.applied.length ledger.portfolio)
    (hcomplete : ∀ e : Entry ℚ, e.exchange = exchange → e.Complete num h.entries) :
    Http.Inv num display (Http.answer { h with ledger } exchange) := by
  have hafter : Entry.after ⟨h.entries.length, ledger.applied.length, exchange⟩ =
      ledger.applied.length := by
    simp [Entry.after, hkind]
  refine hI.later hg hi hp ht (fun id call hc => ?_) [_] le_rfl (fun e he => ?_) (fun e he => ?_)
    (fun e he i hlt d hd => ?_) (fun e he => ?_) fun e he happlies => ?_
  · rw [hcalls] at hc
    exact ⟨call, hc, call.written, rfl⟩
  · rw [List.mem_singleton.1 he]
    refine ⟨hafter.le, ledger.portfolio, ?_, hright⟩
    simp only [List.take_length]
    exact hi.replay
  · rw [List.mem_singleton.1 he]
  · rw [List.mem_singleton.1 he]
    show d.after ≤ ledger.applied.length
    rw [happlied]
    exact (hI.entries d (List.mem_of_getElem? hd)).after_le
  · rw [List.mem_singleton.1 he]
    exact hcomplete _ rfl
  · rw [List.mem_singleton.1 he, hkind] at happlies
    cases happlies

/-- The response to a call that ends. -/
theorem Http.Inv.finish (hI : h.Inv num display) {ledger : Instance ℚ} {a : Instance.Action ℚ}
    (hs : h.ledger.step num a = some ledger) (ha : ∀ req now, a ≠ .start req now) {id : Uuid}
    {call : Call ℚ} (hc : h.ledger.calls id = some call) (hover : ledger.calls id = none)
    {response : ApiResponse (TradeResponse ℚ)}
    (hresponse : (response = .success .created
          (CreateTrade.respond call.trade call.notionalValue call.realizedPnl) ∧
        (∃ row ∈ ledger.trades, row.id = call.trade.id) ∧
          ∃ e ∈ ledger.spawned, e.tradeId = call.trade.id) ∨
      ((∃ error, response = saveError display error) ∧ (call.trade, Ending.err) ∈ ledger.ended) ∨
      response = timedOut) :
    (h.finish ledger call response).Inv num display := by
  have hi := hI.ledger.step hs
  have hg := hI.ledger.grows hs
  obtain ⟨hid, -⟩ := hI.ledger.call id call hc
  have hunder := hI.calls id call hc
  have hat := hunder.call.mono hg.applied call.written
  rw [← hid] at hunder hat
  refine hI.later hg hi (hI.ledger.unpoisoned_step hI.unpoisoned hs) (hI.told.step hI.ledger hs)
    (fun id call' hc' => later_calls hs ha hc') [_] le_rfl (fun e he => ?_) (fun e he => ?_)
    (fun e he => ?_) (fun e he items hitems => ?_) fun e he happlies => ⟨?_, fun id' call' hc' => ?_⟩
  · rw [List.mem_singleton.1 he]
    obtain ⟨p, p', hp, hlocked⟩ := hat.realizedPnl
    refine ⟨hat.lt, p, hp, hat.trade, call.realizedPnl, p', hlocked, ?_⟩
    rcases hresponse with ⟨hresp, hrow, hevent⟩ | ⟨herror, hended⟩ | htimeout
    · rw [hat.notionalValue] at hresp
      exact .inl ⟨hresp, hrow, hevent⟩
    · exact .inr (.inl ⟨herror, hended, (hi.err _ hended).2.2⟩)
    · exact .inr (.inr htimeout)
  · rw [List.mem_singleton.1 he]
    exact hunder.since_le
  · rw [List.mem_singleton.1 he]
    exact hunder.earlier
  · rw [List.mem_singleton.1 he] at hitems
    cases hitems
  · rw [List.mem_singleton.1 he]
    exact hunder.fresh
  · -- Of two calls under way each has its own trade, and so its own place.
    rw [List.mem_singleton.1 he]
    intro hsame
    obtain ⟨call₁, hc₁, -⟩ := later_calls hs ha hc'
    have htrade := (hI.calls id' call₁ hc₁).call.trade
    rw [← hsame, hunder.call.trade] at htrade
    obtain ⟨hid', -⟩ := hI.ledger.call id' call₁ hc₁
    have hsame_id : id' = id := by rw [← hid', ← hid, Option.some.inj htrade]
    rw [hsame_id, hover] at hc'
    cases hc'

/-- A call begins: its trade is the next in the order, after every response sent so far. -/
theorem Http.Inv.begin (hI : h.Inv num display) {ledger : Instance ℚ} {req : TradeRequest ℚ}
    {now : Timestamp} (hs : h.ledger.step num (.start req now) = some ledger)
    (hrefusal : CreateTrade.refusal h.ledger.poisoned h.ledger.portfolio req h.ledger.nextId now = none) :
    Http.Inv num display
      { h with
        ledger
        begun := Function.update h.begun h.ledger.nextId
          (h.entries.length, h.ledger.applied.length) } := by
  have hg := hI.ledger.grows hs
  have hi := hI.ledger.step hs
  obtain ⟨e, he, -⟩ | ⟨-, realizedPnl, p, hlocked, happlied, hcalls⟩ :=
    start_refusal hI.ledger hI.unpoisoned hs
  · rw [hrefusal] at he
    cases he
  refine ⟨hi, hI.ledger.unpoisoned_step hI.unpoisoned hs, hI.told.step hI.ledger hs,
    fun e he => (hI.entries e he).mono hg hi, fun id call hc => ?_, hI.since, hI.realTime, hI.complete,
    hI.once⟩
  replace hc : ledger.calls id = some call := hc
  rw [hcalls] at hc
  rcases Tables.update_eq_some hc with ⟨rfl, hnew⟩ | ⟨hne, hc⟩
  -- The new call comes after every trade applied so far, and after every response.
  · cases hnew
    have hbegun : Function.update h.begun h.ledger.nextId (h.entries.length, h.ledger.applied.length)
        h.ledger.nextId = (h.entries.length, h.ledger.applied.length) := Function.update_self ..
    constructor
    · show Call.At ledger (Function.update h.begun _ _ _).2 _
      rw [hbegun]
      refine ⟨by rw [happlied]; simp, rfl, h.ledger.portfolio, p, ?_, hlocked⟩
      rw [happlied, List.take_left]
      exact hI.ledger.replay
    · show (Function.update h.begun _ _ _).1 ≤ _
      rw [hbegun]
    · intro i _ d hd
      show d.after ≤ (Function.update h.begun _ _ _).2
      rw [hbegun]
      exact (hI.entries d (List.mem_of_getElem? hd)).after_le
    · intro d hd happlies
      show d.effect ≠ (Function.update h.begun _ _ _).2
      rw [hbegun]
      have hafter := (hI.entries d hd).after_le
      rw [Entry.after, if_pos happlies] at hafter
      exact (Nat.lt_of_succ_le hafter).ne
  · have hunder := hI.calls id call hc
    have hbegun : Function.update h.begun h.ledger.nextId (h.entries.length, h.ledger.applied.length)
        id = h.begun id := Function.update_of_ne hne ..
    constructor
    · show Call.At ledger (Function.update h.begun _ _ _).2 _
      rw [hbegun]
      exact hunder.call.mono hg.applied call.written
    · show (Function.update h.begun _ _ _).1 ≤ _
      rw [hbegun]
      exact hunder.since_le
    · show ∀ i < (Function.update h.begun _ _ _).1, ∀ d, _ → _ ≤ (Function.update h.begun _ _ _).2
      rw [hbegun]
      exact hunder.earlier
    · show ∀ d ∈ h.entries, _ → d.effect ≠ (Function.update h.begun _ _ _).2
      rw [hbegun]
      exact hunder.fresh

/-- A refusal draws an id and changes nothing else. -/
theorem start_refused {req : TradeRequest ℚ} {now : Timestamp} (hi : s.Inv num)
    (hp : s.poisoned = false) (hs : s.step num (.start req now) = some s') {e : AppError ℚ}
    (hrefusal : CreateTrade.refusal s.poisoned s.portfolio req s.nextId now = some e) :
    s'.portfolio = s.portfolio ∧ s'.applied = s.applied ∧ s'.trades = s.trades ∧ s'.calls = s.calls ∧
      s'.spawned = s.spawned := by
  obtain ⟨htrades, hspawned, -, -⟩ := start_cases hs
  obtain ⟨-, -, hcalls, happlied⟩ | ⟨hnone, -⟩ := start_refusal hi hp hs
  · -- Both portfolios are made by the same trades.
    have hreplay := (hi.step hs).replay
    rw [happlied, hi.replay] at hreplay
    exact ⟨(Except.ok.inj hreplay).symm, happlied, htrades, hcalls, hspawned⟩
  · rw [hnone] at hrefusal
    cases hrefusal

/-- Refused by a portfolio, refused by the portfolio it leaves. -/
theorem Http.Inv.refused (hI : h.Inv num display) {ledger : Instance ℚ} {req : TradeRequest ℚ}
    {now : Timestamp} (hs : h.ledger.step num (.start req now) = some ledger) {e : AppError ℚ}
    (hrefusal : CreateTrade.refusal h.ledger.poisoned h.ledger.portfolio req h.ledger.nextId now = some e) :
    Http.Inv num display (Http.answer { h with ledger } (.refused req h.ledger.nextId now
      (ApiError.ofAppError display e).intoResponse)) := by
  obtain ⟨hportfolio, happlied, -, hcalls, -⟩ :=
    start_refused hI.ledger hI.unpoisoned hs hrefusal
  refine hI.answer (hI.ledger.grows hs) (hI.ledger.step hs)
    (hI.ledger.unpoisoned_step hI.unpoisoned hs) (hI.told.step hI.ledger hs) hcalls happlied rfl
    ⟨e, ?_, rfl⟩ fun e he items hitems => ?_
  · rw [hportfolio, ← hI.unpoisoned]
    exact hrefusal
  · rw [he] at hitems
    cases hitems

/-- What identifies a row, a trade that was read and an item of the list. -/
theorem listTrades_rows (hi : s.Inv num) {rows : List (TradeRow ℚ)} (hrows : NewestFirst rows s.trades) :
    ∃ items, listTrades rows = .ok (.ok items) ∧
      items.map (fun item => (item.id, item.timestamp)) = rows.map (fun row => (row.id, row.timestamp)) ∧
      ∀ item ∈ items, ∃ t ∈ s.applied, t.Lists num item := by
  have hread : ∀ row ∈ rows, ∃ t, Trade.tryFrom row = .ok t ∧
      (t.id, t.timestamp) = (row.id, row.timestamp) := by
    intro row hrow
    obtain ⟨t, -, ht⟩ := hi.row row (hrows.perm.mem_iff.1 hrow)
    refine ⟨_, tryFrom_ofTrade ht, ?_⟩
    obtain ⟨-, -, hexact⟩ := ofTrade_eq_some ht
    rw [hexact]
    rfl
  obtain ⟨trades, htrades, hsame⟩ := Returns.mapM_view hread
  obtain ⟨trades', htrades', hmem⟩ := Returns.mapM_mem fun row hrow =>
    (hread row hrow).imp fun _ ht => ht.1
  obtain rfl : trades = trades' := Except.ok.inj (htrades.symm.trans htrades')
  obtain ⟨items, hitems, hview⟩ := Returns.mapM_view (f := listItem) (l := trades)
    (g := fun item => (item.id, item.timestamp)) (v := fun t => (t.id, t.timestamp))
    fun t _ => ⟨_, rfl, rfl⟩
  obtain ⟨items', hitems', hlist⟩ := Returns.mapM_mem (f := listItem) (l := trades) fun t _ => ⟨_, rfl⟩
  obtain rfl : items = items' := Except.ok.inj (hitems.symm.trans hitems')
  refine ⟨items, ?_, hview.trans hsame, fun item hitem => ?_⟩
  · unfold listTrades getTrades
    rw [htrades]
    simp only [hitems]
    rfl
  · obtain ⟨t', ht', hof⟩ := (hlist item).1 hitem
    obtain ⟨row, hrow, hdecoded⟩ := (hmem t').1 ht'
    obtain ⟨t, ht, hwritten⟩ := hi.row row (hrows.perm.mem_iff.1 hrow)
    rw [tryFrom_ofTrade hwritten] at hdecoded
    cases hdecoded
    exact ⟨t, ht, row, hwritten, hof⟩

theorem Trade.Lists.id {t : Trade ℚ} {item : TradeResponse ℚ} (h : t.Lists num item) :
    item.id = t.id := by
  obtain ⟨row, -, hitem⟩ := h
  cases hitem
  rfl

/-- A read of the table. -/
theorem Http.Inv.trades (hI : h.Inv num display) {rows : List (TradeRow ℚ)}
    (hrows : NewestFirst rows h.ledger.trades) {response : ApiResponse (List (TradeResponse ℚ))}
    (hanswer : listTradesHandler display (.ok rows) = .ok response) :
    (h.answer (.trades response)).Inv num display := by
  obtain ⟨items, hitems, hsame, hlists⟩ := listTrades_rows hI.ledger hrows
  obtain rfl : response = .success .ok items :=
    Except.ok.inj (hanswer.symm.trans (by simp only [listTradesHandler, hitems, Returns.ok_bind]; rfl))
  have hids : items.map TradeResponse.id = rows.map TradeRow.id := by
    simpa [Function.comp_def] using congrArg (List.map Prod.fst) hsame
  have htimes : items.map TradeResponse.timestamp = rows.map TradeRow.timestamp := by
    simpa [Function.comp_def] using congrArg (List.map Prod.snd) hsame
  refine hI.answer (.refl h.ledger) hI.ledger hI.unpoisoned hI.told rfl rfl rfl
    (.inr (.inr ⟨items, rfl, ?_, ?_, ?_⟩)) fun e he items' hitems' d hd t resp hexchange => ?_
  · rw [hids]
    exact ((hrows.perm.map TradeRow.id).nodup_iff).2 hI.ledger.rows_nodup
  · rw [← List.pairwise_map (f := TradeResponse.timestamp) (R := fun x y => y ≤ x), htimes,
      List.pairwise_map]
    exact hrows.sorted
  · rw [List.take_length]
    exact hlists
  · -- The row of a trade that was answered with `201` is still there.
    rw [he] at hitems'
    cases hitems'
    obtain ⟨p, -, hright⟩ := (hI.entries d hd).right
    rw [hexchange] at hright
    obtain ⟨htrade, _, _, -, ⟨-, ⟨row, hrow, hid⟩, -⟩ | ⟨⟨_, herror⟩, -⟩ | htimeout⟩ := hright
    · have hmem : row.id ∈ items.map TradeResponse.id := by
        rw [hids]
        exact List.mem_map_of_mem (hrows.perm.mem_iff.2 hrow)
      obtain ⟨item, hitem, hitemid⟩ := List.mem_map.1 hmem
      obtain ⟨u, hu, hlisted⟩ := hlists item hitem
      obtain rfl : u = t := hI.ledger.eq_of_id hu (List.mem_of_getElem? htrade)
        (by rw [← hlisted.id, hitemid, hid])
      exact ⟨item, hitem, hlisted⟩
    · cases herror
    · cases htimeout

/-! ### Every step -/

/-- A call is over once its save has failed, it has responded or it was dropped. -/
theorem over_of_step {id : Uuid} {a : Instance.Action ℚ} (hi : s.Inv num) (hs : s.step num a = some s')
    (ha : a = .saveFails id ∨ (∃ now, a = .respond id now) ∨ a = .cancel id) : s'.calls id = none := by
  have hover : ∀ {call : Call ℚ}, s.calls id = some call →
      Function.update s.calls call.trade.id none id = none := by
    intro call hc
    rw [(hi.call id call hc).1, Function.update_self]
  rcases ha with rfl | ⟨now, rfl⟩ | rfl
  · cases step_moves hs with
    | failed _ call hc hw => exact hover hc
  · cases step_moves hs with
    | responded _ _ call hc hw => exact hover hc
  · cases step_moves hs with
    | cancelled _ call hc => exact hover hc

/-- A call that a failed save has ended. -/
theorem err_of_fails {id : Uuid} {call : Call ℚ} {a : Instance.Action ℚ}
    (hc : s.calls id = some call) (hs : s.step num a = some s')
    (ha : a = .saveFails id ∨ a = .save id ∧ s'.calls id = none) :
    (call.trade, Ending.err) ∈ s'.ended := by
  have hend : (call.trade, Ending.err) ∈ (s.finish call .err).ended :=
    List.mem_append_right _ (List.mem_singleton_self _)
  rcases ha with rfl | ⟨rfl, hover⟩
  · cases step_moves hs with
    | failed _ call' hc' hw =>
      obtain rfl : call = call' := Option.some.inj (hc.symm.trans hc')
      exact hend
  · cases step_moves hs with
    | saved _ call' row hc' hw hrow => simp at hover
    | rejected _ call' hc' hw hrow =>
      obtain rfl : call = call' := Option.some.inj (hc.symm.trans hc')
      exact hend

/-- A call that responds has its row, and hands its event to the producer. -/
theorem told_of_respond {id : Uuid} {now : Timestamp} {call : Call ℚ} (ht : s.Told num)
    (hc : s.calls id = some call) (hs : s.step num (.respond id now) = some s') :
    (∃ row ∈ s'.trades, row.id = call.trade.id) ∧ ∃ e ∈ s'.spawned, e.tradeId = call.trade.id := by
  cases step_moves hs with
  | responded _ _ call' hc' hw =>
    obtain rfl : call = call' := Option.some.inj (hc.symm.trans hc')
    obtain ⟨row, hr, hrow⟩ := ht.written id call hc hw
    exact ⟨⟨row, hr, ofTrade_id hrow⟩, _, List.mem_append_right _ (List.mem_singleton_self _), rfl⟩

/-- A step of the HTTP layer keeps the invariant. -/
theorem Http.Inv.step (hI : h.Inv num display) {a : Http.Action ℚ}
    (hs : h.step num w val display a = some h') : h'.Inv num display := by
  -- An exchange that is answered at once and leaves the instance as it is.
  have hanswer : ∀ {exchange : Exchange ℚ}, exchange.applies = false →
      (∀ response, exchange ≠ .trades response) →
      exchange.Right num display h.ledger h.ledger.applied.length h.ledger.portfolio →
      (h.answer exchange).Inv num display := by
    intro exchange hkind hno hright
    refine hI.answer (.refl h.ledger) hI.ledger hI.unpoisoned
      hI.told rfl rfl hkind hright fun e he items hitems => ?_
    exact absurd (he.symm.trans hitems) (hno _)
  cases a with
  | post body rejection now =>
    simp only [Http.step] at hs
    split at hs
    · cases hs
      exact hanswer rfl nofun ⟨rejection, rfl⟩
    · obtain ⟨ledger, hl, hs⟩ := Option.bind_eq_some_iff.1 hs
      split at hs
      · next e hrefusal =>
        cases hs
        exact hI.refused hl hrefusal
      · next hrefusal =>
        cases hs
        exact hI.begin hl hrefusal
  | save id error =>
    obtain ⟨call, hc, hs⟩ := Option.bind_eq_some_iff.1 hs
    obtain ⟨ledger, hl, hs⟩ := Option.bind_eq_some_iff.1 hs
    split_ifs at hs with hunder
    · cases hs
      exact hI.quiet hl nofun
    · cases hs
      have hover : ledger.calls id = none := Option.not_isSome_iff_eq_none.1 hunder
      exact hI.finish hl nofun hc hover
        (.inr (.inl ⟨⟨error, rfl⟩, err_of_fails hc hl (.inr ⟨rfl, hover⟩)⟩))
  | saveFails id error =>
    obtain ⟨call, hc, hs⟩ := Option.bind_eq_some_iff.1 hs
    obtain ⟨ledger, hl, hs⟩ := Option.bind_eq_some_iff.1 hs
    cases hs
    exact hI.finish hl nofun hc (over_of_step hI.ledger hl (.inl rfl))
      (.inr (.inl ⟨⟨error, rfl⟩, err_of_fails hc hl (.inl rfl)⟩))
  | respond id now =>
    obtain ⟨call, hc, hs⟩ := Option.bind_eq_some_iff.1 hs
    obtain ⟨ledger, hl, hs⟩ := Option.bind_eq_some_iff.1 hs
    cases hs
    exact hI.finish hl nofun hc (over_of_step hI.ledger hl (.inr (.inl ⟨now, rfl⟩)))
      (.inl ⟨rfl, told_of_respond hI.told hc hl⟩)
  | timeout id =>
    obtain ⟨call, hc, hs⟩ := Option.bind_eq_some_iff.1 hs
    obtain ⟨ledger, hl, hs⟩ := Option.bind_eq_some_iff.1 hs
    cases hs
    exact hI.finish hl nofun hc (over_of_step hI.ledger hl (.inr (.inr rfl))) (.inr (.inr rfl))
  | disconnect id =>
    obtain ⟨ledger, hl, hs⟩ := Option.bind_eq_some_iff.1 hs
    cases hs
    exact hI.quiet hl nofun
  | portfolio order =>
    simp only [Http.step, hI.unpoisoned, Bool.false_eq_true, if_false] at hs
    split at hs
    · cases hs
    · next resp hresp =>
      cases hs
      exact hanswer rfl nofun ⟨resp, hresp, rfl⟩
  | pnl order body rejection =>
    simp only [Http.step, hI.unpoisoned, Bool.false_eq_true, if_false] at hs
    split at hs
    · cases hs
      exact hanswer rfl nofun ⟨rejection, rfl⟩
    · split at hs
      · cases hs
      · next result hresult =>
        cases hs
        exact hanswer rfl nofun ⟨result, hresult, rfl⟩
  | trades rows =>
    simp only [Http.step] at hs
    split_ifs at hs with hnewest
    split at hs
    · cases hs
    · next response hresponse =>
      cases hs
      cases rows with
      | ok rows => exact hI.trades (hnewest rows rfl) hresponse
      | error message =>
        cases hresponse
        refine hI.answer (.refl h.ledger) hI.ledger hI.unpoisoned
          hI.told rfl rfl rfl (.inl ⟨message, rfl⟩) fun e he items hitems => ?_
        rw [he] at hitems
        cases hitems
  | tradesTimeout =>
    cases hs
    refine hI.answer (.refl h.ledger) hI.ledger hI.unpoisoned
      hI.told rfl rfl rfl (.inr (.inl rfl)) fun e he items hitems => ?_
    rw [he] at hitems
    cases hitems

/-! ### Every run -/

theorem Http.run_inv {actions : List (Http.Action ℚ)}
    (hs : run (Http.step num w val display) Http.init actions = some h) : h.Inv num display :=
  run_invariant (fun h => h.Inv num display) (fun _ _ _ hI hs => hI.step hs) Http.inv_init hs

/-- **The service is linearizable.** In every run, with any number of requests at once: every response is
that of a ledger to which the trades before its place in the order were applied one after the other, no
two trades have the same place, an exchange whose response was sent before the request of another comes
before it, and a list of trades has every trade that was answered with `201` before the list was asked
for. -/
theorem responses_linearize (num : ℚ → Option ℚ) (w : Texts D) (val : D → ℚ) (display : ℚ → String)
    (actions : List (Http.Action ℚ)) (s : Http ℚ)
    (hs : run (Http.step num w val display) Http.init actions = some s) :
    (∀ e ∈ s.entries, e.Sound num display s.ledger) ∧
    (s.entries.Pairwise fun d e => d.exchange.applies → e.exchange.applies → d.effect ≠ e.effect) ∧
    ∀ (j : ℕ) (e : Entry ℚ), s.entries[j]? = some e →
      (∀ d ∈ s.entries.take e.since, d.after ≤ e.effect) ∧ e.Complete num (s.entries.take e.since) := by
  have hI := Http.run_inv hs
  refine ⟨hI.entries, hI.once, fun j e he => ⟨fun d hd => ?_, hI.complete j e he⟩⟩
  obtain ⟨i, hi, rfl⟩ := List.mem_iff_getElem.1 hd
  have hlt := List.length_take .. ▸ hi
  rw [List.getElem_take]
  exact hI.realTime j e he i (by omega) _ (List.getElem?_eq_getElem _)

/-- Buy one BTC at 100, and sell two before the first call has been answered. -/
def overlapping : List (Http.Action ℚ) :=
  [.post (some (.object [("asset", .string "BTC"), ("quantity", .string "1"), ("price", .string "100"),
      ("side", .string "buy")])) "" 0,
    .post (some (.object [("asset", .string "BTC"), ("quantity", .string "2"), ("price", .string "100"),
      ("side", .string "sell")])) "" 1,
    .post none "EOF while parsing a value" 2, .save 0 "", .trades (.ok [⟨0, "BTC", 1, 100, "buy", 0⟩]),
    .respond 0 3, .trades (.error "connection reset")]

theorem responses_linearize_overlapping : ∃ s,
    run (Http.step numericColumn fixedPointTexts FixedPoint.value fun _ => "") Http.init overlapping =
      some s ∧
    s.entries.map (fun e => e.exchange.status) =
      [.unprocessableEntity, .badRequest, .ok, .created, .internalServerError] ∧
    ∀ (j : ℕ) (e : Entry ℚ), s.entries[j]? = some e →
      ∀ d ∈ s.entries.take e.since, d.after ≤ e.effect := by
  have hview : (run (Http.step numericColumn fixedPointTexts FixedPoint.value fun _ => "") Http.init
      overlapping).map (fun s => s.entries.map fun e => e.exchange.status) =
      some [.unprocessableEntity, .badRequest, .ok, .created, .internalServerError] := by
    decide +kernel
  obtain ⟨s, hs, hstatuses⟩ := Option.map_eq_some_iff.1 hview
  obtain ⟨-, -, horder⟩ := responses_linearize numericColumn fixedPointTexts FixedPoint.value
    (fun _ => "") overlapping s hs
  exact ⟨s, hs, hstatuses, fun j e he => (horder j e he).1⟩

end Ledger
end CryptoAccounting

import CryptoAccounting.Ledger.Publish
import CryptoAccounting.Wire

/-!
# The producer

`KafkaTradeProducer` of ledger-service. A call of `publish_trade_created` sends the same record up to
three times and gives up after the last failure (`Publication`). What it is handed is always the event of
a trade whose row is stored and whose call has returned `Ok`; its numbers are the notional value and the
realized PnL of the trade on the portfolio made of the trades applied before it (`run_told`).
-/

namespace CryptoAccounting
namespace Ledger

open Tables Transition

/-! ### What never goes away -/

/-- What a later state still has. -/
structure Instance.Grows (s s' : Instance ℚ) : Prop where
  applied : s.applied <+: s'.applied
  ended : s.ended ⊆ s'.ended
  trades : s.trades ⊆ s'.trades
  spawned : s.spawned ⊆ s'.spawned

theorem Instance.Grows.refl (s : Instance ℚ) : s.Grows s where
  applied := List.prefix_refl _
  ended := List.Subset.refl _
  trades := List.Subset.refl _
  spawned := List.Subset.refl _

theorem Instance.finish_grows (s : Instance ℚ) (call : Call ℚ) (ending : Ending) :
    s.Grows (s.finish call ending) where
  applied := List.prefix_refl _
  ended := List.subset_append_left _ _
  trades := List.Subset.refl _
  spawned := List.Subset.refl _

theorem Instance.Inv.grows {num : ℚ → Option ℚ} {s s' : Instance ℚ} {a : Instance.Action ℚ} (h : s.Inv num)
    (hs : s.step num a = some s') : s.Grows s' := by
  cases step_moves hs with
  | drawn => exact ⟨List.prefix_refl _, by simp, by simp, by simp⟩
  | panicked => exact ⟨List.prefix_refl _, by simp, by simp, by simp⟩
  | refused => exact ⟨List.prefix_refl _, by simp, by simp, by simp⟩
  | accepted => exact ⟨List.prefix_append _ _, by simp, by simp, by simp⟩
  | saved id call row hc hw hrow =>
    exact ⟨List.prefix_refl _, by simp,
      fun r hr => (mem_insertTrade (h.row_notMem hc hw hrow)).2 (.inl hr), by simp⟩
  | rejected id call => exact s.finish_grows call .err
  | failed id call => exact s.finish_grows call .err
  | responded id now call =>
    exact { s.finish_grows call .ok with spawned := List.subset_append_left _ _ }
  | cancelled id call => exact s.finish_grows call .cancelled

/-! ### What an event tells -/

/-- The numbers a call has computed for its trade. -/
structure Instance.Computed (s : Instance ℚ) (t : Trade ℚ) (notionalValue realizedPnl : ℚ) : Prop where
  asset : isBlank t.asset = false
  notionalValue : notionalValue = t.quantity * t.price
  realizedPnl : ∃ before after p p', s.applied = before ++ t :: after ∧
    Portfolio.new.applyEach before = .ok p ∧ CreateTrade.applyLocked p t = .ok (.ok realizedPnl, p')

/-- The event is that of the trade, which is stored and whose call has returned `Ok`. -/
structure Instance.Backs (num : ℚ → Option ℚ) (s : Instance ℚ) (t : Trade ℚ) (e : TradeEvent ℚ) :
    Prop where
  ended : (t, Ending.ok) ∈ s.ended
  row : ∃ row ∈ s.trades, TradeRow.ofTrade num t = some row
  event : ∃ notionalValue realizedPnl eventId now, s.Computed t notionalValue realizedPnl ∧
    e = fromResponse (CreateTrade.respond t notionalValue realizedPnl) eventId now

/-- Every call under way has computed its numbers, and every spawned event is backed. -/
structure Instance.Told (num : ℚ → Option ℚ) (s : Instance ℚ) : Prop where
  call : ∀ id call, s.calls id = some call →
    s.Computed call.trade call.notionalValue call.realizedPnl
  written : ∀ id call, s.calls id = some call → call.written = true →
    ∃ row ∈ s.trades, TradeRow.ofTrade num call.trade = some row
  event : ∀ e ∈ s.spawned, ∃ t, s.Backs num t e

variable {num : ℚ → Option ℚ} {s s' : Instance ℚ}

theorem Instance.Computed.mono {t : Trade ℚ} {notionalValue realizedPnl : ℚ}
    (h : s.Computed t notionalValue realizedPnl) (happlied : s.applied <+: s'.applied) :
    s'.Computed t notionalValue realizedPnl where
  asset := h.asset
  notionalValue := h.notionalValue
  realizedPnl := by
    obtain ⟨before, after, p, p', hsplit, hp, hlocked⟩ := h.realizedPnl
    obtain ⟨more, hmore⟩ := happlied
    refine ⟨before, after ++ more, p, p', ?_, hp, hlocked⟩
    rw [← hmore, hsplit]
    simp

theorem Instance.Backs.mono {t : Trade ℚ} {e : TradeEvent ℚ} (h : s.Backs num t e)
    (happlied : s.applied <+: s'.applied) (hended : s.ended ⊆ s'.ended)
    (htrades : s.trades ⊆ s'.trades) : s'.Backs num t e where
  ended := hended h.ended
  row := by
    obtain ⟨row, hr, hrow⟩ := h.row
    exact ⟨row, htrades hr, hrow⟩
  event := by
    obtain ⟨notionalValue, realizedPnl, eventId, now, hcomputed, he⟩ := h.event
    exact ⟨notionalValue, realizedPnl, eventId, now, hcomputed.mono happlied, he⟩

theorem Instance.told_init : Instance.init.Told num where
  call id call h := by cases h
  written id call h := by cases h
  event e he := by cases he

/-- Up to its await point a call changes nothing under way, or enters with its trade applied. -/
theorem start_cases {req : TradeRequest ℚ} {now : Timestamp}
    (hs : s.step num (.start req now) = some s') :
    s'.trades = s.trades ∧ s'.spawned = s.spawned ∧ s.ended ⊆ s'.ended ∧
      ((s'.calls = s.calls ∧ s'.applied = s.applied) ∨
        ∃ realizedPnl, req.Valid ∧
          CreateTrade.applyLocked s.portfolio (req.toTrade s.nextId now) =
            .ok (.ok realizedPnl, s'.portfolio) ∧
          s'.applied = s.applied ++ [req.toTrade s.nextId now] ∧
          s'.calls = Function.update s.calls s.nextId
            (some ⟨req.toTrade s.nextId now, req.quantity * req.price, realizedPnl, false⟩)) := by
  unfold Instance.step at hs
  by_cases hreq : req.Valid
  · simp only [prepare_valid hreq] at hs
    split_ifs at hs
    · cases hs
      exact ⟨rfl, rfl, List.Subset.refl _, .inl ⟨rfl, rfl⟩⟩
    · split at hs
      · cases hs
        exact ⟨rfl, rfl, List.Subset.refl _, .inl ⟨rfl, rfl⟩⟩
      · cases hs
        exact ⟨rfl, rfl, List.subset_append_left _ _, .inl ⟨rfl, rfl⟩⟩
      · next realizedPnl p hlocked =>
        cases hs
        exact ⟨rfl, rfl, List.Subset.refl _, .inr ⟨realizedPnl, hreq, hlocked, rfl, rfl⟩⟩
  · obtain ⟨e, he⟩ := prepare_invalid hreq s.nextId now
    simp only [he] at hs
    cases hs
    exact ⟨rfl, rfl, List.Subset.refl _, .inl ⟨rfl, rfl⟩⟩

/-- A call that ends with whatever result. -/
theorem Instance.Told.finish (h : s.Told num) (call : Call ℚ) (ending : Ending) :
    (s.finish call ending).Told num := by
  have hcalls : ∀ id call', (s.finish call ending).calls id = some call' →
      s.calls id = some call' := by
    intro id call' hc'
    rcases update_eq_some hc' with ⟨-, he⟩ | ⟨-, hc'⟩
    · cases he
    · exact hc'
  refine ⟨fun id call' hc' => ?_, fun id call' hc' hw => ?_, fun e he => ?_⟩
  · exact (h.call id call' (hcalls id call' hc')).mono (List.prefix_refl _)
  · exact h.written id call' (hcalls id call' hc') hw
  · obtain ⟨t, ht⟩ := h.event e he
    exact ⟨t, ht.mono (List.prefix_refl _) (List.subset_append_left _ _) (List.Subset.refl _)⟩

theorem Instance.Told.started (h : s.Told num) (hi : s.Inv num) {req : TradeRequest ℚ}
    {now : Timestamp} (hs : s.step num (.start req now) = some s') : s'.Told num := by
  obtain ⟨htrades, hspawned, hended, hcase⟩ := start_cases hs
  have happlied : s.applied <+: s'.applied := by
    rcases hcase with ⟨-, happlied⟩ | ⟨_, -, -, happlied, -⟩
    · rw [happlied]
    · rw [happlied]
      exact List.prefix_append _ _
  have hcall : ∀ id call, s'.calls id = some call → s.calls id = some call ∨
      call.written = false ∧ s'.Computed call.trade call.notionalValue call.realizedPnl := by
    intro id call hc
    rcases hcase with ⟨hcalls, -⟩ | ⟨realizedPnl, hreq, hlocked, happlied', hcalls⟩
    · rw [hcalls] at hc
      exact .inl hc
    · rw [hcalls] at hc
      rcases update_eq_some hc with ⟨-, he⟩ | ⟨-, hc⟩
      · cases he
        exact .inr ⟨rfl, hreq.1, rfl, s.applied, [], _, _, happlied', hi.replay, hlocked⟩
      · exact .inl hc
  refine ⟨fun id call hc => ?_, fun id call hc hw => ?_, fun e he => ?_⟩
  · rcases hcall id call hc with hc | ⟨-, hcomputed⟩
    · exact (h.call id call hc).mono happlied
    · exact hcomputed
  · rcases hcall id call hc with hc | ⟨hunwritten, -⟩
    · rw [htrades]
      exact h.written id call hc hw
    · rw [hunwritten] at hw
      cases hw
  · rw [hspawned] at he
    obtain ⟨t, ht⟩ := h.event e he
    exact ⟨t, ht.mono happlied hended (by rw [htrades]; exact List.Subset.refl _)⟩

theorem Instance.Told.saved (h : s.Told num) (hi : s.Inv num) {id : Uuid} {call : Call ℚ}
    {row : TradeRow ℚ} (hc : s.calls id = some call) (hw : call.written = false)
    (hrow : TradeRow.ofTrade num call.trade = some row) :
    Instance.Told num
      { s with
        trades := insertTrade s.trades row
        calls := Function.update s.calls id (some { call with written := true }) } := by
  have hmem : ∀ {r}, r ∈ insertTrade s.trades row ↔ r ∈ s.trades ∨ r = row :=
    mem_insertTrade (hi.row_notMem hc hw hrow)
  have htrades : s.trades ⊆ insertTrade s.trades row := fun r hr => hmem.2 (.inl hr)
  refine ⟨fun id' call' hc' => ?_, fun id' call' hc' hw' => ?_, fun e he => ?_⟩
  · rcases update_eq_some hc' with ⟨-, he⟩ | ⟨-, hc'⟩
    · cases he
      exact (h.call id call hc).mono (List.prefix_refl _)
    · exact (h.call id' call' hc').mono (List.prefix_refl _)
  · rcases update_eq_some hc' with ⟨-, he⟩ | ⟨-, hc'⟩
    · cases he
      exact ⟨row, hmem.2 (.inr rfl), hrow⟩
    · obtain ⟨r, hr, hrow'⟩ := h.written id' call' hc' hw'
      exact ⟨r, htrades hr, hrow'⟩
  · obtain ⟨t, ht⟩ := h.event e he
    exact ⟨t, ht.mono (List.prefix_refl _) (List.Subset.refl _) htrades⟩

theorem Instance.Told.responded (h : s.Told num) {id : Uuid} {now : Timestamp} {call : Call ℚ}
    (hc : s.calls id = some call) (hw : call.written = true) :
    Instance.Told num
      { s.finish call .ok with
        spawned := s.spawned ++ [fromResponse
          (CreateTrade.respond call.trade call.notionalValue call.realizedPnl) s.nextId now]
        nextId := s.nextId + 1 } := by
  have hfin := h.finish call .ok
  refine ⟨fun id' call' hc' => (hfin.call id' call' hc').mono (List.prefix_refl _), hfin.written,
    fun e he => ?_⟩
  rcases List.mem_append.1 he with he | he
  · obtain ⟨t, ht⟩ := hfin.event e he
    exact ⟨t, ht.mono (List.prefix_refl _) (List.Subset.refl _) (List.Subset.refl _)⟩
  · rw [List.mem_singleton.1 he]
    exact ⟨call.trade, List.mem_append_right _ (List.mem_singleton_self _), h.written id call hc hw,
      _, _, _, _, (h.call id call hc).mono (List.prefix_refl _), rfl⟩

theorem Instance.Told.step {a : Instance.Action ℚ} (h : s.Told num) (hi : s.Inv num)
    (hs : s.step num a = some s') : s'.Told num := by
  cases a with
  | start req now => exact h.started hi hs
  | save id =>
    cases step_moves hs with
    | saved _ call row hc hw hrow => exact h.saved hi hc hw hrow
    | rejected _ call hc hw hrow => exact h.finish call .err
  | saveFails id =>
    cases step_moves hs with
    | failed _ call hc hw => exact h.finish call .err
  | respond id now =>
    cases step_moves hs with
    | responded _ _ call hc hw => exact h.responded hc hw
  | cancel id =>
    cases step_moves hs with
    | cancelled _ call hc => exact h.finish call .cancelled

/-- **Published events are backed** in every state an instance reaches. -/
theorem run_told {as : List (Instance.Action ℚ)} (h : run (Instance.step num) Instance.init as = some s) :
    s.Inv num ∧ s.Told num :=
  run_invariant (fun s => s.Inv num ∧ s.Told num) (fun _ _ _ hI hs => ⟨hI.1.step hs, hI.2.step hI.1 hs⟩)
    ⟨Instance.inv_init, Instance.told_init⟩ h

/-! ### Publication -/

/-- `MAX_RETRIES`. -/
def maxRetries : ℕ := 3

/-- `BASE_BACKOFF_MS`. -/
def baseBackoffMs : ℕ := 100

/-- A call of `publish_trade_created`. -/
inductive Publication
  /-- `send` is awaited for the attempt with this number. -/
  | attempt (n : ℕ)
  | published
  /-- All attempts have failed; the error is logged. -/
  | failed
  deriving DecidableEq, Repr

def Publication.init : Publication := .attempt 1

/-- The body of the loop once `send` has returned: the call goes on, and sleeps for so many
milliseconds. `none` if it is over. -/
def Publication.sent (acked : Bool) : Publication → Option (Publication × ℕ)
  | .attempt n =>
    if acked then some (.published, 0)
    else if n = maxRetries then some (.failed, 0)
    else some (.attempt (n + 1), baseBackoffMs * 2 ^ (n - 1))
  | .published => none
  | .failed => none

/-- Without an acknowledgement nothing counts as published. -/
theorem Publication.sent_false_ne (p : Publication) (backoff : ℕ) :
    p.sent false ≠ some (.published, backoff) := by
  cases p with
  | attempt n =>
    by_cases hn : n = maxRetries <;> simp [Publication.sent, hn]
  | published => simp [Publication.sent]
  | failed => simp [Publication.sent]

/-- The attempts are numbered from one to `MAX_RETRIES`. -/
def Publication.Valid : Publication → Prop
  | .attempt n => 1 ≤ n ∧ n ≤ maxRetries
  | _ => True

/-- How many times a call can still send. -/
def Publication.left : Publication → ℕ
  | .attempt n => maxRetries + 1 - n
  | _ => 0

/-- **One send** of a call uses up one of its attempts. -/
theorem Publication.sent_left {p q : Publication} {acked : Bool} {backoff : ℕ} (hp : p.Valid)
    (h : p.sent acked = some (q, backoff)) : q.Valid ∧ 1 + q.left ≤ p.left := by
  cases p with
  | attempt n =>
    obtain ⟨hone, hle⟩ := hp
    simp only [Publication.sent] at h
    split at h
    · cases h
      exact ⟨trivial, by simp only [Publication.left]; omega⟩
    · split at h
      · cases h
        exact ⟨trivial, by simp only [Publication.left]; omega⟩
      · next hn =>
        cases h
        exact ⟨⟨by omega, by omega⟩, by simp only [Publication.left]; omega⟩
  | published => cases h
  | failed => cases h

/-- The record `publish_trade_created` sends: `FutureRecord`. -/
structure Record where
  key : String
  payload : Json

/-- The key is the id of the trade, the payload the event. -/
def publishRecord {D : Type} (w : Texts D) (event : TradeEvent D) : Record :=
  ⟨w.uuid.print event.tradeId, eventJson w event⟩

theorem publishRecord_reads {D : Type} (w : Texts D) (event : TradeEvent D) :
    Consumer.readEvent w (publishRecord w event).payload = some event :=
  readEvent_eventJson w event (.of_eq (Json.known_zip _ _))

end Ledger
end CryptoAccounting

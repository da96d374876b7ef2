import CryptoAccounting.Ledger.CreateTrade

/-!
# Published events

What the ledger hands to the producer. Over every run of an instance, the applied trades are all
accepted by the books of their assets, every published event is that of an applied trade whose call is
over, and no trade has two events. If every save succeeds and no call is dropped, every trade has its
event once its call is over.
-/

namespace CryptoAccounting
namespace Ledger

open Tables Transition

/-! ### The applied trades -/

/-- The books consist of all the trades of the list. -/
def Books.Holds (books : Books) (ts : List (ValidTrade ℚ)) : Prop :=
  ∀ a, (books a).buys = buysOf a ts ∧ (books a).sells = sellsOf a ts

theorem Books.holds_empty : Books.Holds (fun _ => Book.empty) [] := fun _ => ⟨rfl, rfl⟩

/-- An accepted trade. -/
theorem Books.Holds.step {books : Books} {ts : List (ValidTrade ℚ)} (h : books.Holds ts) {t : ValidTrade ℚ}
    (ht : (books t.asset).Accepts t.order) : (books.step t).Holds (ts ++ [t]) := by
  intro a
  obtain ⟨hbuys, hsells⟩ := Books.step_lists ht a
  rw [hbuys, hsells, (h a).1, (h a).2]
  exact ⟨(tradesOf_append ..).symm, (tradesOf_append ..).symm⟩

/-- The portfolio follows books that consist of the applied trades. -/
def Instance.Applied (s : Instance ℚ) : Prop :=
  ∃ ts : List (ValidTrade ℚ), ∃ books : Books, ts.map ValidTrade.trade = s.applied ∧
    s.portfolio.Refines books ∧ books.Holds ts

variable {num : ℚ → Option ℚ} {s s' : Instance ℚ}

theorem Instance.applied_init : Instance.init.Applied :=
  ⟨[], _, rfl, Portfolio.refines_new, Books.holds_empty⟩

theorem Instance.Applied.step {a : Instance.Action ℚ} (h : s.Applied) (hs : s.step num a = some s') :
    s'.Applied := by
  obtain ⟨ts, books, hts, href, hholds⟩ := h
  cases step_moves hs with
  | accepted req now trade notionalValue realizedPnl events p hid hbuilt happ =>
    let t : ValidTrade ℚ := ⟨trade, hbuilt⟩
    obtain ⟨p', happ', hnext, -⟩ := applyTrade_refines href t
    rw [show s.portfolio.applyTrade trade = _ from happ'] at happ
    have hout : outcome (books t.asset) t = .ok events ∧ p' = p :=
      Prod.mk.inj (Except.ok.inj happ)
    have hacc : (books t.asset).Accepts t.order := by
      rw [← outcome_isOk, hout.1]
      rfl
    refine ⟨ts ++ [t], books.step t, ?_, ?_, hholds.step hacc⟩
    · rw [List.map_append, hts]
      rfl
    · rw [← hout.2]
      exact hnext
  | _ => exact ⟨ts, books, hts, href, hholds⟩

/-! ### One event for each trade -/

/-- The event is that of a response to the trade. -/
def PublishedFor (t : Trade ℚ) (event : TradeEvent ℚ) : Prop :=
  ∃ notionalValue realizedPnl eventId now,
    event = fromResponse (CreateTrade.respond t notionalValue realizedPnl) eventId now

/-- What is published is the event of an applied trade whose call is over; no trade and no event id
occurs twice. -/
structure Instance.Published (s : Instance ℚ) : Prop where
  trade : ∀ e ∈ s.spawned, ∃ t ∈ s.applied, PublishedFor t e ∧ s.calls t.id = none
  fresh : ∀ e ∈ s.spawned, e.eventId < s.nextId
  trade_nodup : (s.spawned.map TradeEvent.tradeId).Nodup
  event_nodup : (s.spawned.map TradeEvent.eventId).Nodup

theorem PublishedFor.tradeId {t : Trade ℚ} {event : TradeEvent ℚ} (h : PublishedFor t event) :
    event.tradeId = t.id := by
  obtain ⟨_, _, _, _, rfl⟩ := h
  rfl

theorem Instance.published_init : Instance.init.Published where
  trade e he := by cases he
  fresh e he := by cases he
  trade_nodup := List.nodup_nil
  event_nodup := List.nodup_nil

/-- The ids of published trades are older than the next one. -/
theorem Instance.Published.tradeId_lt (h : s.Published) (hi : s.Inv num) {e : TradeEvent ℚ}
    (he : e ∈ s.spawned) : e.tradeId < s.nextId := by
  obtain ⟨t, ht, hpub, -⟩ := h.trade e he
  rw [hpub.tradeId]
  exact hi.fresh t ht

/-- A step that neither publishes nor reopens a call. -/
theorem Instance.Published.keep (h : s.Published) (happlied : ∀ t ∈ s.applied, t ∈ s'.applied)
    (hcalls : ∀ e ∈ s.spawned, s.calls e.tradeId = none → s'.calls e.tradeId = none)
    (hspawned : s'.spawned = s.spawned) (hnext : s.nextId ≤ s'.nextId) : s'.Published where
  trade e he := by
    rw [hspawned] at he
    obtain ⟨t, ht, hpub, hc⟩ := h.trade e he
    rw [← hpub.tradeId] at hc
    have hc' := hcalls e he hc
    rw [hpub.tradeId] at hc'
    exact ⟨t, happlied t ht, hpub, hc'⟩
  fresh e he := by
    rw [hspawned] at he
    exact (h.fresh e he).trans_le hnext
  trade_nodup := by rw [hspawned]; exact h.trade_nodup
  event_nodup := by rw [hspawned]; exact h.event_nodup

/-- The call that responds publishes the first event of its trade, under a new id. -/
theorem Instance.Published.responded (h : s.Published) (hi : s.Inv num) {id : Uuid}
    {now : Timestamp} {call : Call ℚ} (hc : s.calls id = some call) :
    Instance.Published
      { s.finish call .ok with
        spawned := s.spawned ++ [fromResponse
          (CreateTrade.respond call.trade call.notionalValue call.realizedPnl) s.nextId now]
        nextId := s.nextId + 1 } := by
  obtain ⟨hid, hmem⟩ := hi.call id call hc
  refine ⟨?_, ?_, ?_, ?_⟩
  · intro e he
    rcases List.mem_append.1 he with he | he
    · obtain ⟨t, ht, hpub, hnone⟩ := h.trade e he
      exact ⟨t, ht, hpub, update_none hnone⟩
    · rw [List.mem_singleton.1 he]
      exact ⟨call.trade, hmem, ⟨_, _, _, _, rfl⟩, Function.update_self ..⟩
  · intro e he
    rcases List.mem_append.1 he with he | he
    · exact Nat.lt_succ_of_lt (h.fresh e he)
    · rw [List.mem_singleton.1 he]
      exact Nat.lt_succ_self _
  · rw [List.map_append]
    refine nodup_snoc h.trade_nodup fun hdup => ?_
    -- A trade that has an event has no call under way.
    obtain ⟨e, he, heq⟩ := List.mem_map.1 hdup
    obtain ⟨t, -, hpub, hnone⟩ := h.trade e he
    have htid : t.id = id := by
      rw [← hpub.tradeId, heq, ← hid]
      rfl
    rw [htid, hc] at hnone
    cases hnone
  · rw [List.map_append]
    refine nodup_snoc h.event_nodup fun hdup => ?_
    obtain ⟨e, he, heq⟩ := List.mem_map.1 hdup
    exact (h.fresh e he).ne heq

theorem Instance.Published.step {a : Instance.Action ℚ} (h : s.Published) (hi : s.Inv num)
    (hs : s.step num a = some s') : s'.Published := by
  cases step_moves hs with
  | drawn req now =>
    exact h.keep (fun _ ht => ht) (fun _ _ hc => hc) rfl (Nat.le_succ _)
  | panicked req now hvalid hp e he =>
    exact h.keep (fun _ ht => ht) (fun _ _ hc => hc) rfl (Nat.le_succ _)
  | refused req now trade hid =>
    exact h.keep (fun _ ht => ht) (fun _ _ hc => hc) rfl (Nat.le_succ _)
  | accepted req now t notionalValue realizedPnl events p hid hbuilt happ =>
    refine h.keep (fun u hu => List.mem_append_left _ hu) (fun e he hc => ?_) rfl (Nat.le_succ _)
    have hne : e.tradeId ≠ t.id := by
      rw [hid]
      exact (h.tradeId_lt hi he).ne
    exact (Function.update_of_ne hne ..).trans hc
  | saved id call row hc hw hrow =>
    exact h.keep (fun _ ht => ht) (fun _ _ hn => update_of_ne_none (by rw [hc]; nofun) hn) rfl (le_refl _)
  | rejected id call hc hw hrow =>
    exact h.keep (fun _ ht => ht) (fun _ _ hn => update_none hn) rfl (le_refl _)
  | failed id call hc hw =>
    exact h.keep (fun _ ht => ht) (fun _ _ hn => update_none hn) rfl (le_refl _)
  | responded id now call hc hw => exact h.responded hi hc
  | cancelled id call hc =>
    exact h.keep (fun _ ht => ht) (fun _ _ hn => update_none hn) rfl (le_refl _)

/-! ### Runs in which every save succeeds -/

/-- The step is one of a call that goes all the way: its save succeeds and nobody drops it. -/
def Succeeds (num : ℚ → Option ℚ) (s : Instance ℚ) : Instance.Action ℚ → Prop
  | .start _ _ => True
  | .save id => ∀ call, s.calls id = some call → (TradeRow.ofTrade num call.trade).isSome
  | .saveFails _ => False
  | .respond _ _ => True
  | .cancel _ => False

instance (num : ℚ → Option ℚ) (s : Instance ℚ) (a : Instance.Action ℚ) :
    Decidable (Succeeds num s a) :=
  match a with
  | .start _ _ => isTrue trivial
  | .save id => inferInstanceAs (Decidable (∀ call ∈ s.calls id, _))
  | .saveFails _ => isFalse id
  | .respond _ _ => isTrue trivial
  | .cancel _ => isFalse id

/-- Every applied trade has a call under way, or its event. -/
def Instance.Served (s : Instance ℚ) : Prop :=
  ∀ t ∈ s.applied, (s.calls t.id).isSome ∨ ∃ e ∈ s.spawned, e.tradeId = t.id

theorem Instance.Served.step {a : Instance.Action ℚ} (h : s.Served) (hi : s.Inv num)
    (ha : Succeeds num s a) (hs : s.step num a = some s') : s'.Served := by
  cases step_moves hs with
  | drawn req now => exact h
  | panicked req now hvalid hp e he => exact h
  | refused req now trade hid => exact h
  | accepted req now t notionalValue realizedPnl events p hid hbuilt happ =>
    intro u hu
    by_cases hut : u.id = t.id
    · refine .inl ?_
      show (Function.update s.calls t.id _ u.id).isSome
      rw [hut, Function.update_self]
      rfl
    · rcases List.mem_append.1 hu with hu | hu
      · rcases h u hu with hc | he
        · refine .inl ?_
          show (Function.update s.calls t.id _ u.id).isSome
          rwa [Function.update_of_ne hut]
        · exact .inr he
      · exact absurd (congrArg Trade.id (List.mem_singleton.1 hu)) hut
  | saved id call row hc hw hrow =>
    intro u hu
    rcases h u hu with hcall | he
    · refine .inl ?_
      show (Function.update s.calls id _ u.id).isSome
      by_cases hut : u.id = id
      · rw [hut, Function.update_self]
        rfl
      · rwa [Function.update_of_ne hut]
    · exact .inr he
  | rejected id call hc hw hrow =>
    have hsome := ha call hc
    rw [hrow] at hsome
    cases hsome
  | failed id call hc hw => exact ha.elim
  | responded id now call hc hw =>
    obtain ⟨hid, -⟩ := hi.call id call hc
    intro u hu
    -- The call is gone, and its event takes its place.
    by_cases hut : u.id = call.trade.id
    · exact .inr ⟨_, List.mem_append_right _ (List.mem_singleton_self _), hut.symm⟩
    · rcases h u hu with hcall | ⟨e, he, heq⟩
      · refine .inl ?_
        show (Function.update s.calls call.trade.id none u.id).isSome
        rwa [Function.update_of_ne hut]
      · exact .inr ⟨e, List.mem_append_left _ he, heq⟩
  | cancelled id call hc => exact ha.elim

/-- **A run in which every save succeeds.** Once no call is under way, every applied trade has its
event. -/
theorem published_of_succeeds {as : List (Instance.Action ℚ)}
    (h : run (Instance.step num) Instance.init as = some s) (hq : s.Quiescent)
    (hsucceeds : EveryStep (Instance.step num) (Succeeds num) Instance.init as) :
    ∀ t ∈ s.applied, ∃ e ∈ s.spawned, e.tradeId = t.id := by
  have hinit : Instance.init.Inv num ∧ Instance.init.Served :=
    ⟨Instance.inv_init, fun t ht => by cases ht⟩
  have hall := everyState_of_everyStep (fun s => s.Inv num ∧ s.Served)
    (fun s a t hI ha hs => ⟨hI.1.step hs, hI.2.step hI.1 ha hs⟩) hinit hsucceeds
  intro t ht
  rcases (hall.last h).2 t ht with hc | he
  · rw [hq t.id] at hc
    cases hc
  · exact he

/-- What holds of the applied trades and the published events in every run. -/
theorem run_published {as : List (Instance.Action ℚ)}
    (h : run (Instance.step num) Instance.init as = some s) :
    s.Inv num ∧ s.Applied ∧ s.Published := by
  refine run_invariant (fun s => s.Inv num ∧ s.Applied ∧ s.Published) ?_
    ⟨Instance.inv_init, Instance.applied_init, Instance.published_init⟩ h
  rintro s a t ⟨hi, happ, hpub⟩ hs
  exact ⟨hi.step hs, happ.step hs, hpub.step hi hs⟩

end Ledger
end CryptoAccounting

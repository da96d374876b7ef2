import CryptoAccounting.Ledger.Exact

/-!
# Memory and database, over 96-bit decimals

`execute` applies a trade under the lock before it awaits the insert. Inside a room of decimal places and
amounts no operator panics under the lock, and then memory and database agree, once all calls are over,
exactly when every call goes through: its insert is carried out, and the columns take its trade as it is
(`allOrNothing_iff`).
-/

namespace CryptoAccounting
namespace Ledger

open Transition

variable {room : Room} {total : ℚ × ℚ} {num : Dec → Option Dec} {s s' : Instance Dec}

/-- The request of a call that is started. -/
def Instance.Action.request {D : Type} : Instance.Action D → Option (TradeRequest D)
  | .start req _ => some req
  | _ => none

/-- The requests of the calls that are started. -/
def started {D : Type} (as : List (Instance.Action D)) : List (TradeRequest D) :=
  as.filterMap Instance.Action.request

/-- The lock is not poisoned, and the requests still to come fit into the room. -/
structure Instance.Within (room : Room) (total : ℚ × ℚ) (s : Instance Dec)
    (reqs : List (TradeRequest Dec)) : Prop where
  unpoisoned : s.poisoned = false
  portfolio : s.portfolio.Within room total reqs

/-- A request takes its part of the room, if it becomes a trade. -/
theorem Instance.Within.start {req : TradeRequest Dec} {reqs : List (TradeRequest Dec)} {now : Timestamp}
    (h : s.Within room total (req :: reqs)) (hs : s.step num (.start req now) = some s') :
    s'.Within room total reqs := by
  unfold Instance.step at hs
  by_cases hvalid : req.Valid
  · obtain ⟨notionalValue, result, p, hprep, hlocked, hp⟩ := h.portfolio.next hvalid s.nextId now
    simp only [hprep, h.unpoisoned, hlocked, Bool.false_eq_true, if_false] at hs
    cases result with
    | error e => cases hs; exact ⟨rfl, hp⟩
    | ok realizedPnl => cases hs; exact ⟨rfl, hp⟩
  · obtain ⟨e, he⟩ := prepare_invalid hvalid s.nextId now
    simp only [he] at hs
    cases hs
    exact ⟨h.unpoisoned, h.portfolio.tail⟩

theorem Instance.Within.step {a : Instance.Action Dec} {as : List (Instance.Action Dec)}
    (h : s.Within room total (started (a :: as))) (hs : s.step num a = some s') :
    s'.Within room total (started as) := by
  cases a with
  | start req now => exact h.start hs
  | save id =>
    cases step_moves hs with
    | saved => exact ⟨h.unpoisoned, h.portfolio⟩
    | rejected => exact ⟨h.unpoisoned, h.portfolio⟩
  | saveFails id =>
    cases step_moves hs with
    | failed => exact ⟨h.unpoisoned, h.portfolio⟩
  | respond id now =>
    cases step_moves hs with
    | responded => exact ⟨h.unpoisoned, h.portfolio⟩
  | cancel id =>
    cases step_moves hs with
    | cancelled => exact ⟨h.unpoisoned, h.portfolio⟩

/-- Inside the room no run poisons the lock. -/
theorem unpoisoned_of_admitted {as : List (Instance.Action Dec)} (h : Admitted room (started as)) :
    EveryState (Instance.step num) (fun s => s.poisoned = false) Instance.init as :=
  everyState_of_remaining
    (fun bs s => Instance.Within room (requested (started as)) s (started bs))
    (fun _ _ _ _ h hs => h.step hs) (fun _ _ h => h.unpoisoned) ⟨rfl, Portfolio.within_new h⟩

/-- **When a trade is created in memory and in the database, or in neither.** In every run of calls whose
requests fit into a room of decimal places and amounts, and that ends with no call under way, memory and
database agree exactly when every step completes: no save fails, no call is dropped before its insert,
and the columns take every saved quantity, price and time as it is. -/
theorem allOrNothing_iff (room : Room) (num : Dec → Option Dec) (as : List (Instance.Action Dec))
    (s : Instance Dec) (hroom : Admitted room (started as))
    (h : run (Instance.step num) Instance.init as = some s) (hq : s.Quiescent) :
    s.AllOrNothing ↔ EveryStep (Instance.step num) (Completes num) Instance.init as := by
  rw [allOrNothing_iff_completes h hq]
  exact and_iff_right ((unpoisoned_of_admitted hroom).last h)

instance (num : Dec → Option Dec) (s : Instance Dec) (a : Instance.Action Dec) :
    Decidable (Completes num s a) :=
  match a with
  | .start _ _ => isTrue trivial
  | .save id => inferInstanceAs (Decidable (∀ call ∈ s.calls id, (_ ∧ _) ∧ _))
  | .saveFails _ => isFalse id
  | .respond _ _ => isTrue trivial
  | .cancel id => inferInstanceAs (Decidable (∀ call ∈ s.calls id, _))

/-- A buy, a sell of what it has bought and a sell that is refused, all before the buy is saved. The
sell is saved first, and its handler is dropped after that. -/
def overlappingCalls : List (Instance.Action Dec) :=
  [.start (samplePost .buy 5 1000).req 0, .start (samplePost .sell 3 1100).req 1000,
    .start (samplePost .sell 9 1100).req 2000, .save 1, .save 0, .cancel 1, .respond 0 3000]

theorem overlappingCalls_admitted : Admitted eightPlaces (started overlappingCalls) where
  places req hreq _ := by
    simp only [started, overlappingCalls, List.filterMap_cons, List.filterMap_nil,
      Instance.Action.request, List.mem_cons, List.not_mem_nil, or_false] at hreq
    rcases hreq with rfl | rfl | rfl <;>
      exact ⟨tenths_mem_places (small_lt_mantissaBound _),
        tenths_mem_places (small_lt_mantissaBound _)⟩
  quantity := by decide +kernel
  value := by decide +kernel

theorem allOrNothing_iff_overlapping : ∃ s,
    run (Instance.step Dec.column) Instance.init overlappingCalls = some s ∧
    s.ended.map Prod.snd = [.err, .cancelled, .ok] ∧ s.AllOrNothing := by
  have hview : (run (Instance.step Dec.column) Instance.init overlappingCalls).map
      (fun s => (s.ended.map Prod.snd, s.applied.all fun t => (s.calls t.id).isNone)) =
        some ([.err, .cancelled, .ok], true) := by decide +kernel
  obtain ⟨s, hs, hparts⟩ := Option.map_eq_some_iff.1 hview
  obtain ⟨hended, hcalls⟩ := Prod.mk.inj hparts
  have hinit : (Instance.init : Instance Dec).Inv Dec.column := Instance.inv_init
  refine ⟨s, hs, hended, (allOrNothing_iff eightPlaces Dec.column _ s overlappingCalls_admitted hs
    ((hinit.run hs).quiescent hcalls)).2 ?_⟩
  decide +kernel

/-- After a failed save the trade stays in memory, and a retry counts it a second time. -/
theorem failed_save_stays_applied : ¬ ∀ (as : List (Instance.Action Dec)) (s : Instance Dec),
    run (Instance.step Dec.column) Instance.init as = some s → s.Quiescent → s.AllOrNothing := by
  intro h
  have hview : (run (Instance.step Dec.column) Instance.init
      [.start (samplePost .buy 5 1000).req 0, .saveFails 0]).map
        (fun s => (s.applied.length, s.trades, s.applied.all fun t => (s.calls t.id).isNone)) =
          some (1, [], true) := by decide +kernel
  obtain ⟨s, hs, hparts⟩ := Option.map_eq_some_iff.1 hview
  obtain ⟨happlied, htrades, hcalls⟩ := Prod.mk.inj hparts |>.imp_right Prod.mk.inj
  have hinit : (Instance.init : Instance Dec).Inv Dec.column := Instance.inv_init
  have hrows := (h _ s hs ((hinit.run hs).quiescent hcalls)).rows
  have hlength := congrArg Multiset.card hrows
  rw [htrades, Multiset.coe_card, Multiset.coe_card, List.length_map, happlied] at hlength
  exact absurd hlength (by decide)

end Ledger
end CryptoAccounting

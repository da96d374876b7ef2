import Mathlib.Tactic

/-!
# Labelled transition systems as partial step functions

A system is a function `step : S → A → Option S`; `none` says that the action is not enabled.
`run step s as` performs the actions one after the other. `EveryState` and `EveryStep` speak about
all the states a run passes through and all the steps it takes, and the rules below derive the
one from the other by induction on the run.
-/

namespace Transition

variable {S A : Type}

/-- Perform the actions in order; `none` once one of them is not enabled. -/
def run (step : S → A → Option S) : S → List A → Option S
  | s, [] => some s
  | s, a :: as => (step s a).bind fun t => run step t as

/-- `P` holds of the start and of every state the run reaches. -/
def EveryState (step : S → A → Option S) (P : S → Prop) : S → List A → Prop
  | s, [] => P s
  | s, a :: as => P s ∧ ∀ t, step s a = some t → EveryState step P t as

/-- `C` holds of every state and the action that is taken from it. -/
def EveryStep (step : S → A → Option S) (C : S → A → Prop) : S → List A → Prop
  | _, [] => True
  | s, a :: as => ∀ t, step s a = some t → C s a ∧ EveryStep step C t as

variable {step : S → A → Option S}

@[simp] theorem run_nil (s : S) : run step s [] = some s := rfl

/-- A run that performs `a :: as` performs `a` first. -/
theorem run_cons_eq_some {s u : S} {a : A} {as : List A} (h : run step s (a :: as) = some u) :
    ∃ t, step s a = some t ∧ run step t as = some u :=
  Option.bind_eq_some_iff.1 h

/-- The actions of a list after those of another one. -/
theorem run_append (s : S) (as bs : List A) :
    run step s (as ++ bs) = (run step s as).bind fun t => run step t bs := by
  induction as generalizing s with
  | nil => rfl
  | cons a as ih =>
    rw [List.cons_append, run, run, Option.bind_assoc]
    exact congrArg (step s a).bind (funext ih)

/-! ### Invariants -/

/-- What every step preserves holds at the end of every run. -/
theorem run_invariant (I : S → Prop) (hI : ∀ s a t, I s → step s a = some t → I t) {s u : S}
    {as : List A} (hs : I s) (h : run step s as = some u) : I u := by
  induction as generalizing s with
  | nil => cases h; exact hs
  | cons a as ih =>
    obtain ⟨t, ht, h⟩ := run_cons_eq_some h
    exact ih (hI s a t hs ht) h

theorem EveryState.head {P : S → Prop} {s : S} {as : List A} (h : EveryState step P s as) :
    P s := by
  cases as with
  | nil => exact h
  | cons a as => exact h.1

/-- An invariant that a step keeps under the condition `C` holds in every state of a run whose
steps all meet `C`. -/
theorem everyState_of_everyStep (I : S → Prop) {C : S → A → Prop}
    (hI : ∀ s a t, I s → C s a → step s a = some t → I t) {s : S} {as : List A} (hs : I s)
    (hC : EveryStep step C s as) : EveryState step I s as := by
  induction as generalizing s with
  | nil => exact hs
  | cons a as ih =>
    exact ⟨hs, fun t ht => ih (hI s a t hs (hC t ht).1 ht) (hC t ht).2⟩

/-- An invariant that also depends on the actions still to come. -/
theorem everyState_of_remaining (R : List A → S → Prop) {P : S → Prop}
    (hR : ∀ s a as t, R (a :: as) s → step s a = some t → R as t) (hP : ∀ as s, R as s → P s) {s : S}
    {as : List A} (h : R as s) : EveryState step P s as := by
  induction as generalizing s with
  | nil => exact hP [] s h
  | cons a as ih => exact ⟨hP _ s h, fun t ht => ih (hR s a as t h ht)⟩

/-- A condition on the actions alone. -/
theorem everyStep_of_forall {C : A → Prop} {s : S} {as : List A} (h : ∀ a ∈ as, C a) :
    EveryStep step (fun _ => C) s as := by
  induction as generalizing s with
  | nil => trivial
  | cons a as ih =>
    exact fun t _ => ⟨h a List.mem_cons_self, ih fun b hb => h b (List.mem_cons_of_mem _ hb)⟩

/-- A condition that can be decided at every step can be decided along a run. -/
instance decidableEveryStep {C : S → A → Prop} [∀ s a, Decidable (C s a)] :
    ∀ (s : S) (as : List A), Decidable (EveryStep step C s as)
  | _, [] => isTrue trivial
  | s, a :: as =>
    match h : step s a with
    | none => isTrue fun t ht => by rw [h] at ht; cases ht
    | some t =>
      have : Decidable (EveryStep step C t as) := decidableEveryStep t as
      decidable_of_iff (C s a ∧ EveryStep step C t as)
        ⟨fun hc u hu => by rw [h] at hu; cases hu; exact hc, fun hc => hc t h⟩

theorem EveryStep.mono {C D : S → A → Prop} {s : S} {as : List A} (hC : EveryStep step C s as)
    (h : ∀ s a, C s a → D s a) : EveryStep step D s as := by
  induction as generalizing s with
  | nil => trivial
  | cons a as ih => exact fun t ht => ⟨h s a (hC t ht).1, ih (hC t ht).2⟩

theorem EveryStep.and {C D : S → A → Prop} {s : S} {as : List A} (hC : EveryStep step C s as)
    (hD : EveryStep step D s as) : EveryStep step (fun s a => C s a ∧ D s a) s as := by
  induction as generalizing s with
  | nil => trivial
  | cons a as ih =>
    exact fun t ht => ⟨⟨(hC t ht).1, (hD t ht).1⟩, ih (hC t ht).2 (hD t ht).2⟩

/-- When a step that misses the condition leaves `P`, the states of a run are all in `P` exactly
when its steps all meet the condition. The auxiliary invariant `I` holds in runs whose steps all meet
`F`. -/
theorem everyState_iff_everyStep_of (I P : S → Prop) {C F : S → A → Prop}
    (hI : ∀ s a t, I s → F s a → P s → step s a = some t → I t)
    (hP : ∀ s a t, I s → F s a → P s → C s a → step s a = some t → P t)
    (hC : ∀ s a t, I s → F s a → P s → step s a = some t → P t → C s a) {s : S} {as : List A}
    (hF : EveryStep step F s as) (hs : I s) (hs' : P s) :
    EveryState step P s as ↔ EveryStep step C s as := by
  induction as generalizing s with
  | nil => exact ⟨fun _ => trivial, fun _ => hs'⟩
  | cons a as ih =>
    constructor
    · intro h t ht
      obtain ⟨hFa, hFt⟩ := hF t ht
      have hPt : P t := (h.2 t ht).head
      exact ⟨hC s a t hs hFa hs' ht hPt, (ih hFt (hI s a t hs hFa hs' ht) hPt).1 (h.2 t ht)⟩
    · intro h
      refine ⟨hs', fun t ht => ?_⟩
      obtain ⟨hFa, hFt⟩ := hF t ht
      have hPt : P t := hP s a t hs hFa hs' (h t ht).1 ht
      exact (ih hFt (hI s a t hs hFa hs' ht) hPt).2 (h t ht).2

/-- The same with an invariant that holds whatever the steps do. -/
theorem everyState_iff_everyStep (I P : S → Prop) {C : S → A → Prop}
    (hI : ∀ s a t, I s → P s → step s a = some t → I t)
    (hP : ∀ s a t, I s → P s → C s a → step s a = some t → P t)
    (hC : ∀ s a t, I s → P s → step s a = some t → P t → C s a) {s : S} {as : List A} (hs : I s)
    (hs' : P s) : EveryState step P s as ↔ EveryStep step C s as :=
  everyState_iff_everyStep_of (F := fun _ _ => True) I P (fun s a t h _ => hI s a t h)
    (fun s a t h _ => hP s a t h) (fun s a t h _ => hC s a t h)
    (everyStep_of_forall (C := fun _ => True) fun _ _ => trivial) hs hs'

/-- In a run whose states are all in `P`, the last state is. -/
theorem EveryState.last {P : S → Prop} {s u : S} {as : List A} (h : EveryState step P s as)
    (hu : run step s as = some u) : P u := by
  induction as generalizing s with
  | nil => cases hu; exact h
  | cons a as ih =>
    obtain ⟨t, ht, hu⟩ := run_cons_eq_some hu
    exact ih (h.2 t ht) hu

/-- When no step leads back into `P`, the last state of a run decides whether all its states are in
`P`. -/
theorem everyState_iff_last (I P : S → Prop) (hI : ∀ s a t, I s → step s a = some t → I t)
    (hback : ∀ s a t, I s → step s a = some t → P t → P s) {s u : S} {as : List A} (hs : I s)
    (hu : run step s as = some u) : EveryState step P s as ↔ P u := by
  refine ⟨fun h => h.last hu, fun hP => ?_⟩
  induction as generalizing s with
  | nil => cases hu; exact hP
  | cons a as ih =>
    obtain ⟨t, ht, hu⟩ := run_cons_eq_some hu
    have hall := ih (hI s a t hs ht) hu
    refine ⟨hback s a t hs ht hall.head, fun t' ht' => ?_⟩
    rw [ht] at ht'
    cases ht'
    exact hall

/-! ### Measures -/

/-- The invariant holds at the end of a run whose steps all meet `C`. -/
theorem EveryStep.last (I : S → Prop) {C : S → A → Prop}
    (hI : ∀ s a t, I s → C s a → step s a = some t → I t) {s u : S} {as : List A} (hs : I s)
    (hC : EveryStep step C s as) (h : run step s as = some u) : I u :=
  (everyState_of_everyStep I hI hs hC).last h

section Measure

variable (I : S → Prop) {C : S → A → Prop} {μ : S → ℕ}
  (hI : ∀ s a t, I s → C s a → step s a = some t → I t)
  (hμ : ∀ s a t, I s → C s a → step s a = some t → μ t < μ s)

include hI hμ

/-- When every step lowers the measure, a run is no longer than the measure of its start. -/
theorem length_add_measure_le {s u : S} {as : List A} (hs : I s) (hC : EveryStep step C s as)
    (h : run step s as = some u) : as.length + μ u ≤ μ s := by
  induction as generalizing s with
  | nil =>
    cases h
    simp
  | cons a as ih =>
    obtain ⟨t, ht, h⟩ := run_cons_eq_some h
    obtain ⟨hCa, hCt⟩ := hC t ht
    have hlt := hμ s a t hs hCa ht
    have hle := ih (hI s a t hs hCa ht) hCt h
    rw [List.length_cons]
    omega

/-- When outside of `Q` there is always a step to take, a run leads to `Q`. -/
theorem exists_run (Q : S → Prop)
    (hstep : ∀ s, I s → ¬ Q s → ∃ a t, C s a ∧ step s a = some t) {s : S} (hs : I s) :
    ∃ as u, EveryStep step C s as ∧ run step s as = some u ∧ Q u := by
  induction hn : μ s using Nat.strong_induction_on generalizing s with
  | _ n ih =>
    by_cases hQ : Q s
    · exact ⟨[], s, trivial, rfl, hQ⟩
    · obtain ⟨a, t, hCa, ht⟩ := hstep s hs hQ
      obtain ⟨as, u, hC, hu, hQu⟩ := ih (μ t) (hn ▸ hμ s a t hs hCa ht) (hI s a t hs hCa ht) rfl
      refine ⟨a :: as, u, fun t' ht' => ?_, ?_, hQu⟩
      · cases ht.symm.trans ht'
        exact ⟨hCa, hC⟩
      · rw [run, ht]
        exact hu

end Measure

/-- When an action of one kind lowers the measure and no action raises it, there are no more actions of
this kind in a run than the measure of its start. -/
theorem countP_add_measure_le (I : S → Prop) (hI : ∀ s a t, I s → step s a = some t → I t) {c : A → Bool}
    {μ : S → ℕ} (hμ : ∀ s a t, I s → step s a = some t → (if c a then 1 else 0) + μ t ≤ μ s)
    {s u : S} {as : List A} (hs : I s) (hu : run step s as = some u) : as.countP c + μ u ≤ μ s := by
  induction as generalizing s with
  | nil =>
    cases hu
    simp
  | cons a as ih =>
    obtain ⟨t, ht, hu⟩ := run_cons_eq_some hu
    have hstep := hμ s a t hs ht
    have hrest := ih (hI s a t hs ht) hu
    rw [List.countP_cons]
    omega

/-! ### Components -/

/-- A run of a system, seen from one of its components: when every step leaves the component alone or is
a step of it, the component goes through a run of its own. -/
theorem exists_run_component {T B : Type} {step' : T → B → Option T} (view : S → T)
    {C : S → A → Prop} {C' : T → B → Prop}
    (h : ∀ s a t, C s a → step s a = some t →
      view t = view s ∨ ∃ b, step' (view s) b = some (view t) ∧ C' (view s) b)
    {s u : S} {as : List A} (hC : EveryStep step C s as) (hu : run step s as = some u) :
    ∃ bs, run step' (view s) bs = some (view u) ∧ EveryStep step' C' (view s) bs := by
  induction as generalizing s with
  | nil =>
    cases hu
    exact ⟨[], rfl, trivial⟩
  | cons a as ih =>
    obtain ⟨t, ht, hu⟩ := run_cons_eq_some hu
    obtain ⟨bs, hbs, hCs⟩ := ih (hC t ht).2 hu
    rcases h s a t (hC t ht).1 ht with hsame | ⟨b, hb, hCb⟩
    · rw [← hsame]
      exact ⟨bs, hbs, hCs⟩
    · refine ⟨b :: bs, ?_, fun t' ht' => ?_⟩
      · rw [run, hb]
        exact hbs
      · cases hb.symm.trans ht'
        exact ⟨hCb, hCs⟩

end Transition

import Mathlib.Tactic

/-!
# Computations that may fail

Small facts about `Except`, and exact preconditions. `Returns x P post`: the computation `x` returns
exactly under `P`, and what it returns meets `post`. Unlike a triple this says both when a computation
ends well and when it does not, and it composes: a sequence returns exactly when its parts do.
-/

variable {ε α β γ : Type}

/-- The computation returns exactly under `P`, and then with a value that meets `post`. -/
structure Returns (x : Except ε α) (P : Prop) (post : α → Prop) : Prop where
  iff : (∃ a, x = .ok a) ↔ P
  post : ∀ a, x = .ok a → post a

namespace Returns

@[simp] theorem ok_bind (a : α) (f : α → Except ε β) : (Except.ok a >>= f) = f a := rfl
@[simp] theorem error_bind (e : ε) (f : α → Except ε β) :
    ((Except.error e : Except ε α) >>= f) = .error e := rfl
@[simp] theorem pure_eq_ok (a : α) : (pure a : Except ε α) = .ok a := rfl

/-- A computation that ends has got past its first part. -/
theorem bind_eq_ok {x : Except ε α} {f : α → Except ε β} {b : β} (h : x >>= f = .ok b) :
    ∃ a, x = .ok a ∧ f a = .ok b := by
  cases x with
  | error e => cases h
  | ok a => exact ⟨a, rfl, h⟩

theorem map_bind (x : Except ε α) (f : α → Except ε β) (g : β → γ) :
    (x >>= f).map g = x >>= fun a => (f a).map g := by
  cases x <;> rfl

variable {x : Except ε α} {f : α → Except ε β} {P Q : Prop} {post : α → Prop} {post' : β → Prop}

theorem ok {a : α} (h : post a) : Returns (Except.ok a : Except ε α) True post where
  iff := ⟨fun _ => trivial, fun _ => ⟨a, rfl⟩⟩
  post b hb := by
    cases hb
    exact h

theorem error (e : ε) : Returns (Except.error e : Except ε α) False post where
  iff := by
    constructor
    · rintro ⟨a, ha⟩
      cases ha
    · exact False.elim
  post a ha := by cases ha

/-- The sequence rule. -/
theorem bind (hx : Returns x P post) (hf : ∀ a, post a → Returns (f a) Q post') :
    Returns (x >>= f) (P ∧ Q) post' := by
  constructor
  · constructor
    · rintro ⟨b, hb⟩
      obtain ⟨a, ha, hfa⟩ := bind_eq_ok hb
      exact ⟨hx.iff.1 ⟨a, ha⟩, (hf a (hx.post a ha)).iff.1 ⟨b, hfa⟩⟩
    · rintro ⟨hP, hQ⟩
      obtain ⟨a, rfl⟩ := hx.iff.2 hP
      exact (hf a (hx.post a rfl)).iff.2 hQ
  · intro b hb
    obtain ⟨a, ha, hfa⟩ := bind_eq_ok hb
    exact (hf a (hx.post a ha)).post b hfa

/-- The consequence rule. -/
theorem imp {post'' : α → Prop} (h : Returns x P post) (hPQ : P ↔ Q)
    (hpost : ∀ a, post a → post'' a) : Returns x Q post'' where
  iff := h.iff.trans hPQ
  post a ha := hpost a (h.post a ha)

/-- The sequence rule when the second part always returns. -/
theorem bind_total (hx : Returns x P post) (hf : ∀ a, post a → Returns (f a) True post') :
    Returns (x >>= f) P post' :=
  (bind hx hf).imp (and_true P).to_iff fun _ h => h

theorem exists_ok (h : Returns x P post) (hP : P) : ∃ a, x = .ok a ∧ post a := by
  obtain ⟨a, ha⟩ := h.iff.2 hP
  exact ⟨a, ha, h.post a ha⟩

theorem exists_error (h : Returns x P post) (hP : ¬ P) : ∃ e, x = .error e := by
  cases hx : x with
  | error e => exact ⟨e, rfl⟩
  | ok a => exact absurd (h.iff.1 ⟨a, hx⟩) hP

/-- A traversal whose steps all succeed has their results. -/
theorem mapM_mem {l : List α} (h : ∀ a ∈ l, ∃ b, f a = .ok b) :
    ∃ bs, l.mapM f = .ok bs ∧ ∀ b, b ∈ bs ↔ ∃ a ∈ l, f a = .ok b := by
  induction l with
  | nil => exact ⟨[], rfl, by simp⟩
  | cons a l ih =>
    obtain ⟨⟨b, hb⟩, hl⟩ := List.forall_mem_cons.1 h
    obtain ⟨bs, hbs, hmem⟩ := ih hl
    refine ⟨b :: bs, by rw [List.mapM_cons, hb, ok_bind, hbs]; rfl, fun c => ?_⟩
    rw [List.mem_cons, hmem, List.exists_mem_cons_iff, hb, Except.ok.injEq, eq_comm]

/-- A traversal whose steps all succeed with known views of their results. -/
theorem mapM_view {g : β → γ} {v : α → γ} {l : List α} (h : ∀ a ∈ l, ∃ b, f a = .ok b ∧ g b = v a) :
    ∃ bs, l.mapM f = .ok bs ∧ bs.map g = l.map v := by
  induction l with
  | nil => exact ⟨[], rfl, rfl⟩
  | cons a l ih =>
    obtain ⟨⟨b, hb, hg⟩, hl⟩ := List.forall_mem_cons.1 h
    obtain ⟨bs, hbs, hgs⟩ := ih hl
    refine ⟨b :: bs, by rw [List.mapM_cons, hb, ok_bind, hbs]; rfl, ?_⟩
    rw [List.map_cons, List.map_cons, hg, hgs]

/-- A traversal returns exactly when every element does. -/
theorem mapM {P : α → Prop} {l : List α}
    (h : ∀ a ∈ l, Returns (f a) (P a) fun _ => True) :
    Returns (l.mapM f) (∀ a ∈ l, P a) fun _ => True := by
  induction l with
  | nil =>
    rw [List.mapM_nil]
    exact (ok trivial).imp (by simp) fun _ h => h
  | cons a l ih =>
    rw [List.mapM_cons, List.forall_mem_cons]
    refine bind (h a List.mem_cons_self) fun b _ => ?_
    exact bind_total (ih fun a ha => h a (List.mem_cons_of_mem _ ha)) fun bs _ => ok trivial

end Returns

import Mathlib.Tactic

/-!
# While loops over a failing body

`whileFuel guard body n s` runs `while guard { body }` from the state `s` for at most `n`
iterations. The body may fail; `none` says that the guard still held when the iterations ran out.
The rules of this file are the usual ones: more fuel changes nothing, a variant bounds the iterations
that are needed, and a map that commutes with guard and body commutes with the loop.
-/

namespace WhileLoop

variable {ε σ : Type}

/-- `while guard { body }`, cut off after the given number of iterations. -/
def whileFuel (guard : σ → Bool) (body : σ → Except ε σ) : ℕ → σ → Except ε (Option σ)
  | 0, s => if guard s then .ok none else .ok (some s)
  | n + 1, s => if guard s then body s >>= whileFuel guard body n else .ok (some s)

variable {guard : σ → Bool} {body : σ → Except ε σ}

theorem whileFuel_done {s : σ} (h : guard s = false) (n : ℕ) :
    whileFuel guard body n s = .ok (some s) := by
  cases n <;> simp [whileFuel, h]

theorem whileFuel_step {s t : σ} (h : guard s = true) (hs : body s = .ok t) (n : ℕ) :
    whileFuel guard body (n + 1) s = whileFuel guard body n t := by
  rw [whileFuel, if_pos h, hs]
  rfl

theorem whileFuel_fail {s : σ} {e : ε} (h : guard s = true) (hs : body s = .error e) (n : ℕ) :
    whileFuel guard body (n + 1) s = .error e := by
  rw [whileFuel, if_pos h, hs]
  rfl

/-- One more unit of fuel leaves a finished run as it is. -/
theorem whileFuel_succ {n : ℕ} {s : σ} (h : whileFuel guard body n s ≠ .ok none) :
    whileFuel guard body (n + 1) s = whileFuel guard body n s := by
  induction n generalizing s with
  | zero =>
    cases hg : guard s with
    | true => simp [whileFuel, hg] at h
    | false => rw [whileFuel_done hg, whileFuel_done hg]
  | succ n ih =>
    cases hg : guard s with
    | false => rw [whileFuel_done hg, whileFuel_done hg]
    | true =>
      cases hb : body s with
      | error e => rw [whileFuel_fail hg hb, whileFuel_fail hg hb]
      | ok t =>
        rw [whileFuel_step hg hb] at h
        rw [whileFuel_step hg hb, whileFuel_step hg hb, ih h]

/-- A finished run is the same with any larger amount of fuel. -/
theorem whileFuel_mono {n m : ℕ} {s : σ} (h : whileFuel guard body n s ≠ .ok none) (hnm : n ≤ m) :
    whileFuel guard body m s = whileFuel guard body n s := by
  induction m, hnm using Nat.le_induction with
  | base => rfl
  | succ m _ ih =>
    have hm : whileFuel guard body m s ≠ .ok none := by rw [ih]; exact h
    rw [whileFuel_succ hm, ih]

/-- The variant rule: with more fuel than the variant, the loop stops or its body fails. -/
theorem whileFuel_ne_none (μ : σ → ℕ)
    (hμ : ∀ s t, guard s = true → body s = .ok t → μ t < μ s) {n : ℕ} {s : σ} (hn : μ s < n) :
    whileFuel guard body n s ≠ .ok none := by
  induction n generalizing s with
  | zero => omega
  | succ n ih =>
    cases hg : guard s with
    | false => simp [whileFuel_done hg]
    | true =>
      cases hb : body s with
      | error e => simp [whileFuel_fail hg hb]
      | ok t =>
        rw [whileFuel_step hg hb]
        exact ih (by have := hμ s t hg hb; omega)

/-- The simulation rule: a map that commutes with guard and body commutes with the loop. -/
theorem whileFuel_map {τ : Type} {guard' : τ → Bool} {body' : τ → Except ε τ} (f : σ → τ)
    (hg : ∀ s, guard' (f s) = guard s) (hb : ∀ s, body' (f s) = (body s).map f) (n : ℕ) (s : σ) :
    whileFuel guard' body' n (f s) = (whileFuel guard body n s).map (Option.map f) := by
  induction n generalizing s with
  | zero =>
    unfold whileFuel
    rw [hg]
    split <;> rfl
  | succ n ih =>
    cases hs : guard s with
    | false =>
      rw [whileFuel_done hs, whileFuel_done (by rw [hg, hs])]
      rfl
    | true =>
      have hs' : guard' (f s) = true := by rw [hg, hs]
      cases ht : body s with
      | error e =>
        rw [whileFuel_fail hs ht, whileFuel_fail hs' (by rw [hb, ht]; rfl)]
        rfl
      | ok t => rw [whileFuel_step hs ht, whileFuel_step hs' (by rw [hb, ht]; rfl), ih]

/-- The simulation rule for a map that commutes with guard and body as long as an invariant of the
loop holds. The invariant holds of the final state too. -/
theorem whileFuel_map_of {τ : Type} {guard' : τ → Bool} {body' : τ → Except ε τ} (f : σ → τ)
    (I : σ → Prop) (hg : ∀ s, I s → guard' (f s) = guard s)
    (hb : ∀ s, I s → guard s = true →
      body' (f s) = (body s).map f ∧ ∀ t, body s = .ok t → I t) (n : ℕ) {s : σ} (hs : I s) :
    whileFuel guard' body' n (f s) = (whileFuel guard body n s).map (Option.map f) ∧
      ∀ t, whileFuel guard body n s = .ok (some t) → I t := by
  induction n generalizing s with
  | zero =>
    unfold whileFuel
    rw [hg s hs]
    split
    · exact ⟨rfl, fun t ht => by cases ht⟩
    · refine ⟨rfl, fun t ht => ?_⟩
      cases ht
      exact hs
  | succ n ih =>
    cases hgs : guard s with
    | false =>
      rw [whileFuel_done hgs, whileFuel_done (by rw [hg s hs, hgs])]
      refine ⟨rfl, fun t ht => ?_⟩
      cases ht
      exact hs
    | true =>
      have hgs' : guard' (f s) = true := by rw [hg s hs, hgs]
      obtain ⟨hbody, hinv⟩ := hb s hs hgs
      cases ht : body s with
      | error e =>
        rw [ht] at hbody
        rw [whileFuel_fail hgs ht, whileFuel_fail hgs' hbody]
        exact ⟨rfl, fun t ht => by cases ht⟩
      | ok t =>
        rw [ht] at hbody
        rw [whileFuel_step hgs ht, whileFuel_step hgs' hbody]
        exact ih (hinv t ht)

end WhileLoop

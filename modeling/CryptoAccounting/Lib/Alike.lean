import CryptoAccounting.Lib.Returns

/-!
# Computations that fail alike

`Alike R x y`: the computations `x` and `y` stop with the same error, or both return, with results
related by `R`. Steps that are alike make runs that are alike (`Alike.results`).
-/

variable {ε α β γ δ : Type}

/-- Both stop with the same error, or both return related results. -/
inductive Alike (R : α → β → Prop) : Except ε α → Except ε β → Prop
  | error (e : ε) : Alike R (.error e) (.error e)
  | ok {a : α} {b : β} (h : R a b) : Alike R (.ok a) (.ok b)

namespace Alike

variable {R : α → β → Prop} {x : Except ε α} {y : Except ε β}

theorem refl (x : Except ε α) : Alike (· = ·) x x := by
  cases x with
  | error e => exact .error e
  | ok a => exact .ok rfl

theorem mono {R' : α → β → Prop} (h : Alike R x y) (hR : ∀ a b, R a b → R' a b) : Alike R' x y := by
  cases h with
  | error e => exact .error e
  | ok hab => exact .ok (hR _ _ hab)

/-- The sequence rule. -/
theorem bind {R' : γ → δ → Prop} {f : α → Except ε γ} {g : β → Except ε δ} (h : Alike R x y)
    (hf : ∀ a b, R a b → Alike R' (f a) (g b)) : Alike R' (x >>= f) (y >>= g) := by
  cases h with
  | error e => exact .error e
  | ok hab => exact hf _ _ hab

/-- Whatever the one returns, the other returns something related to it. -/
theorem exists_right (h : Alike R x y) {a : α} (hx : x = .ok a) : ∃ b, y = .ok b ∧ R a b := by
  cases h with
  | error e => cases hx
  | ok hab =>
    cases hx
    exact ⟨_, rfl, hab⟩

theorem exists_left (h : Alike R x y) {b : β} (hy : y = .ok b) : ∃ a, x = .ok a ∧ R a b := by
  cases h with
  | error e => cases hy
  | ok hab =>
    cases hy
    exact ⟨_, rfl, hab⟩

/-! ### Runs -/

section Runs

variable {S T A B ρ ρ' : Type}

/-- Take the steps one after the other and collect their results. -/
def results (step : S → A → Except ε (ρ × S)) (s : S) : List A → Except ε (S × List ρ)
  | [] => .ok (s, [])
  | a :: as => do
    let (r, s) ← step s a
    let (s, rs) ← results step s as
    pure (s, r :: rs)

/-- A run that returns has taken its first step. -/
theorem results_cons {step : S → A → Except ε (ρ × S)} {s u : S} {a : A} {as : List A} {rs : List ρ}
    (h : results step s (a :: as) = .ok (u, rs)) :
    ∃ r t rs', step s a = .ok (r, t) ∧ results step t as = .ok (u, rs') ∧ rs = r :: rs' := by
  obtain ⟨⟨r, t⟩, hstep, h⟩ := Returns.bind_eq_ok h
  obtain ⟨⟨u', rs'⟩, hrun, h⟩ := Returns.bind_eq_ok h
  cases h
  exact ⟨r, t, rs', hstep, hrun, rfl⟩

/-- **The run rule.** When the steps are alike, so are the runs, result by result. -/
theorem results_alike {step : S → A → Except ε (ρ × S)} {step' : T → B → Except ε (ρ' × T)}
    {R : S → T → Prop} {Q : ρ → ρ' → Prop} {C : A → B → Prop}
    (hstep : ∀ s t a b, R s t → C a b →
      Alike (fun x y => Q x.1 y.1 ∧ R x.2 y.2) (step s a) (step' t b))
    {s : S} {t : T} (h : R s t) {as : List A} {bs : List B} (hC : List.Forall₂ C as bs) :
    Alike (fun x y => R x.1 y.1 ∧ List.Forall₂ Q x.2 y.2) (results step s as) (results step' t bs) := by
  induction hC generalizing s t with
  | nil => exact .ok ⟨h, .nil⟩
  | cons hab _ ih =>
    refine (hstep s t _ _ h hab).bind fun x y hxy => ?_
    exact (ih hxy.2).bind fun u v huv => .ok ⟨huv.1, .cons hxy.1 huv.2⟩

end Runs

end Alike

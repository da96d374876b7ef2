import CryptoAccounting.Domain.Arithmetic
import CryptoAccounting.Lib.Rounding

/-!
# 96-bit decimals

The arithmetic of `rust_decimal`: a value is `m / 10 ^ s` with `|m| < 2 ^ 96` and `s ≤ 28`. The result
of an operator is rounded half to even at the largest scale at which its mantissa fits, and the
operator panics if it does not fit at scale 0 either. `returns_ofRat` is the whole story about
overflow: a result fits exactly when its absolute value is below `2 ^ 96 - 1/2`.
-/

namespace CryptoAccounting

open Rounding

/-- Mantissas are below this bound. -/
def mantissaBound : ℤ := 2 ^ 96

/-- The values a decimal can have. -/
def Representable (x : ℚ) : Prop :=
  ∃ s : ℕ, s ≤ 28 ∧ ∃ m : ℤ, |m| < mantissaBound ∧ x = m / 10 ^ s

/-- A decimal, by its value. -/
@[ext] structure Dec where
  val : ℚ
  representable : Representable val

/-- The mantissa of `x` at scale `s`. -/
def mantissaAt (x : ℚ) (s : ℕ) : ℤ := roundEven (x * 10 ^ s)

/-- `x` rounded at the largest scale up to `s` at which its mantissa fits. -/
def fitFrom (x : ℚ) : ℕ → Option ℚ
  | 0 => if |mantissaAt x 0| < mantissaBound then some (mantissaAt x 0) else none
  | s + 1 =>
    if |mantissaAt x (s + 1)| < mantissaBound then some (mantissaAt x (s + 1) / 10 ^ (s + 1))
    else fitFrom x s

theorem representable_of_fitFrom {x y : ℚ} {s : ℕ} (hs : s ≤ 28) (h : fitFrom x s = some y) :
    Representable y := by
  induction s with
  | zero =>
    unfold fitFrom at h
    split_ifs at h with hm
    cases h
    exact ⟨0, by omega, _, hm, by simp⟩
  | succ s ih =>
    unfold fitFrom at h
    split_ifs at h with hm
    · cases h
      exact ⟨s + 1, hs, _, hm, rfl⟩
    · exact ih (by omega) h

/-- The decimal that an exact result is rounded to. -/
def Dec.ofRat (x : ℚ) : Except Panic Dec :=
  match h : fitFrom x 28 with
  | some y => .ok ⟨y, representable_of_fitFrom (le_refl 28) h⟩
  | none => .error .overflow

theorem representable_zero : Representable 0 := ⟨0, by omega, 0, by decide, by simp⟩

instance : LinearOrder Dec := LinearOrder.lift' Dec.val fun _ _ => Dec.ext
instance : Zero Dec := ⟨⟨0, representable_zero⟩⟩

@[simp] theorem Dec.val_zero : (0 : Dec).val = 0 := rfl
theorem Dec.le_iff {a b : Dec} : a ≤ b ↔ a.val ≤ b.val := Iff.rfl
theorem Dec.lt_iff {a b : Dec} : a < b ↔ a.val < b.val := Iff.rfl

instance : DecimalOps Dec where
  add a b := Dec.ofRat (a.val + b.val)
  sub a b := Dec.ofRat (a.val - b.val)
  mul a b := Dec.ofRat (a.val * b.val)
  div a b := if b.val = 0 then .error .divisionByZero else Dec.ofRat (a.val / b.val)

/-! ### What fits -/

/-- The exact result fits into a decimal after rounding. -/
def Fits (x : ℚ) : Prop := |x| < (mantissaBound : ℚ) - 1 / 2

instance (x : ℚ) : Decidable (Fits x) := inferInstanceAs (Decidable (_ < _))

/-- What a result that fits is rounded to. -/
def rounded (x : ℚ) : ℚ := (fitFrom x 28).getD 0

theorem mantissa_fits_iff (x : ℚ) (s : ℕ) :
    |mantissaAt x s| < mantissaBound ↔ |x * 10 ^ s| < (mantissaBound : ℚ) - 1 / 2 :=
  abs_roundEven_lt_iff (by decide) _

/-- A value that fits at some scale fits at scale 0. -/
theorem isSome_fitFrom (x : ℚ) (s : ℕ) : (fitFrom x s).isSome ↔ Fits x := by
  induction s with
  | zero =>
    have h := mantissa_fits_iff x 0
    rw [pow_zero, mul_one] at h
    unfold fitFrom
    split_ifs with hm
    · exact ⟨fun _ => h.1 hm, fun _ => rfl⟩
    · exact ⟨fun hc => (Bool.false_ne_true hc).elim, fun hc => absurd (h.2 hc) hm⟩
  | succ s ih =>
    unfold fitFrom
    split_ifs with hm
    · refine ⟨fun _ => ?_, fun _ => rfl⟩
      have hle : |x| ≤ |x * 10 ^ (s + 1)| := by
        rw [abs_mul, abs_of_pos (by positivity : (0 : ℚ) < 10 ^ (s + 1))]
        exact le_mul_of_one_le_right (abs_nonneg x) (one_le_pow₀ (by norm_num))
      exact lt_of_le_of_lt hle ((mantissa_fits_iff x (s + 1)).1 hm)
    · exact ih

theorem ofRat_eq_ok_iff {x : ℚ} {d : Dec} : Dec.ofRat x = .ok d ↔ Fits x ∧ d.val = rounded x := by
  rw [← isSome_fitFrom x 28]
  unfold Dec.ofRat
  split
  · next y h =>
    have hval : rounded x = y := by rw [rounded, h]; rfl
    rw [hval]
    constructor
    · intro he
      cases he
      exact ⟨by rw [h]; rfl, rfl⟩
    · rintro ⟨-, he⟩
      exact congrArg Except.ok (Dec.ext he.symm)
  · next h =>
    constructor
    · intro he
      cases he
    · rintro ⟨he, -⟩
      rw [h] at he
      cases he

/-- **Overflow.** An exact result becomes a decimal exactly when it fits, and then the one it is
rounded to. -/
theorem returns_ofRat (x : ℚ) : Returns (Dec.ofRat x) (Fits x) fun d => d.val = rounded x := by
  constructor
  · constructor
    · rintro ⟨d, h⟩
      exact (ofRat_eq_ok_iff.1 h).1
    · intro h
      obtain ⟨y, hy⟩ := Option.isSome_iff_exists.1 ((isSome_fitFrom x 28).2 h)
      refine ⟨⟨y, representable_of_fitFrom (le_refl 28) hy⟩, ofRat_eq_ok_iff.2 ⟨h, ?_⟩⟩
      rw [rounded, hy]
      rfl
  · intro d h
    exact (ofRat_eq_ok_iff.1 h).2

section Operators

variable (a b : Dec)

theorem returns_add : Returns (DecimalOps.add a b) (Fits (a.val + b.val))
    fun d => d.val = rounded (a.val + b.val) := returns_ofRat _

theorem returns_sub : Returns (DecimalOps.sub a b) (Fits (a.val - b.val))
    fun d => d.val = rounded (a.val - b.val) := returns_ofRat _

theorem returns_mul : Returns (DecimalOps.mul a b) (Fits (a.val * b.val))
    fun d => d.val = rounded (a.val * b.val) := returns_ofRat _

theorem returns_div (hb : b.val ≠ 0) : Returns (DecimalOps.div a b) (Fits (a.val / b.val))
    fun d => d.val = rounded (a.val / b.val) := by
  have hdiv : DecimalOps.div a b = Dec.ofRat (a.val / b.val) := if_neg hb
  rw [hdiv]
  exact returns_ofRat _

end Operators

/-- A decimal and everything nearer to zero fits. -/
theorem fits_of_abs_le {x : ℚ} (d : Dec) (h : |x| ≤ |d.val|) : Fits x := by
  obtain ⟨s, -, m, hm, hd⟩ := d.2
  have hle : |d.val| ≤ |(m : ℚ)| := by
    rw [hd, abs_div, abs_of_pos (by positivity : (0 : ℚ) < 10 ^ s)]
    exact div_le_self (abs_nonneg _) (one_le_pow₀ (by norm_num))
  have hbound : |(m : ℚ)| ≤ (mantissaBound : ℚ) - 1 := by
    have hm' : |m| ≤ mantissaBound - 1 := by omega
    exact_mod_cast hm'
  have hx : |x| ≤ (mantissaBound : ℚ) - 1 := h.trans (hle.trans hbound)
  unfold Fits
  linarith

theorem rounded_nonneg {x : ℚ} (h : 0 ≤ x) : 0 ≤ rounded x := by
  have hm : ∀ s, (0 : ℚ) ≤ mantissaAt x s := by
    intro s
    exact_mod_cast roundEven_nonneg (mul_nonneg h (by positivity))
  have hfit : ∀ s, 0 ≤ (fitFrom x s).getD 0 := by
    intro s
    induction s with
    | zero =>
      unfold fitFrom
      split_ifs
      · exact hm 0
      · exact le_refl 0
    | succ s ih =>
      unfold fitFrom
      split_ifs
      · exact div_nonneg (hm _) (by positivity)
      · exact ih
  exact hfit 28

/-- The first scale at which the mantissa fits is the one taken. -/
theorem fitFrom_of_fits {x : ℚ} {s : ℕ} (h : |mantissaAt x s| < mantissaBound) :
    fitFrom x s = some ((mantissaAt x s : ℚ) / 10 ^ s) := by
  cases s with
  | zero => rw [fitFrom, if_pos h, pow_zero, div_one]
  | succ s => rw [fitFrom, if_pos h]

/-- A decimal with scale `s` is found from every finer scale on. -/
theorem fitFrom_add {m : ℤ} {s : ℕ} (hm : |m| < mantissaBound) (k : ℕ) :
    fitFrom ((m : ℚ) / 10 ^ s) (s + k) = some ((m : ℚ) / 10 ^ s) := by
  have hmantissa : ∀ j : ℕ, mantissaAt ((m : ℚ) / 10 ^ s) (s + j) = m * 10 ^ j := by
    intro j
    have hexact : (m : ℚ) / 10 ^ s * 10 ^ (s + j) = ((m * 10 ^ j : ℤ) : ℚ) := by
      rw [pow_add]
      push_cast
      field_simp
    rw [mantissaAt, hexact, roundEven_intCast]
  have hfits : ∀ j : ℕ, |mantissaAt ((m : ℚ) / 10 ^ s) (s + j)| < mantissaBound →
      fitFrom ((m : ℚ) / 10 ^ s) (s + j) = some ((m : ℚ) / 10 ^ s) := by
    intro j hj
    rw [fitFrom_of_fits hj, hmantissa, pow_add]
    push_cast
    field_simp
  induction k with
  | zero =>
    refine hfits 0 ?_
    rwa [hmantissa, pow_zero, mul_one]
  | succ k ih =>
    by_cases h : |mantissaAt ((m : ℚ) / 10 ^ s) (s + (k + 1))| < mantissaBound
    · exact hfits (k + 1) h
    · rw [← add_assoc, fitFrom, add_assoc, if_neg h]
      exact ih

/-- Decimals are not rounded. -/
theorem rounded_of_representable {x : ℚ} (h : Representable x) : rounded x = x := by
  obtain ⟨s, hs, m, hm, rfl⟩ := h
  have hfind := fitFrom_add hm (28 - s) (s := s)
  rw [Nat.add_sub_cancel' hs] at hfind
  rw [rounded, hfind]
  rfl

theorem fits_of_representable {x : ℚ} (h : Representable x) : Fits x :=
  fits_of_abs_le ⟨x, h⟩ (le_refl _)

@[simp] theorem rounded_zero : rounded 0 = 0 := rounded_of_representable representable_zero

instance : LawfulDecimal Dec where
  sub_self a := by
    have hfits : Fits 0 := fits_of_abs_le 0 (by simp)
    have h : Dec.ofRat 0 = .ok 0 := ofRat_eq_ok_iff.2 ⟨hfits, rounded_zero.symm⟩
    show Dec.ofRat (a.val - a.val) = .ok 0
    rw [sub_self, h]

/-! ### Running sums -/

/-- Every running sum fits; each is rounded before the next value is added. -/
def SumFits : ℚ → List ℚ → Prop
  | _, [] => True
  | acc, x :: xs => Fits (acc + x) ∧ SumFits (rounded (acc + x)) xs

instance SumFits.decidable : ∀ (acc : ℚ) (xs : List ℚ), Decidable (SumFits acc xs)
  | _, [] => isTrue trivial
  | acc, x :: xs =>
    have := SumFits.decidable (rounded (acc + x)) xs
    inferInstanceAs (Decidable (_ ∧ _))

/-- The rounded running sum. -/
def roundedSum (acc : ℚ) (xs : List ℚ) : ℚ := xs.foldl (fun acc x => rounded (acc + x)) acc

/-- The next running sum, if it fits. -/
def addRounded (acc x : ℚ) : Option ℚ := if Fits (acc + x) then some (rounded (acc + x)) else none

theorem foldlM_addRounded (acc : ℚ) (xs : List ℚ) :
    xs.foldlM addRounded acc = if SumFits acc xs then some (roundedSum acc xs) else none := by
  induction xs generalizing acc with
  | nil => simp [SumFits, roundedSum]
  | cons x xs ih =>
    rw [List.foldlM_cons, addRounded]
    by_cases h : Fits (acc + x)
    · simp [SumFits, roundedSum, h, ih]
    · simp [SumFits, h]

/-- A running sum of computed terms returns exactly when the terms do and the sums fit. -/
theorem returns_foldlM {α : Type} {f : α → Except Panic Dec} {P : α → Prop} {g : α → ℚ}
    (hf : ∀ x, Returns (f x) (P x) fun d => d.val = g x) (xs : List α) (acc : Dec) :
    Returns (xs.foldlM (fun acc x => f x >>= DecimalOps.add acc) acc)
      ((∀ x ∈ xs, P x) ∧ SumFits acc.val (xs.map g))
      fun d => d.val = roundedSum acc.val (xs.map g) := by
  induction xs generalizing acc with
  | nil =>
    have hnil : Returns (Except.ok acc : Except Panic Dec) True fun d => d.val = acc.val :=
      Returns.ok rfl
    exact hnil.imp (by simp [SumFits]) fun _ h => h
  | cons x xs ih =>
    rw [List.foldlM_cons, List.map_cons, List.forall_mem_cons]
    have hterm : Returns (f x >>= DecimalOps.add acc) (P x ∧ Fits (acc.val + g x))
        fun d => d.val = rounded (acc.val + g x) :=
      (hf x).bind fun d hd => by
        rw [← hd]
        exact returns_add acc d
    have hrest : ∀ d : Dec, d.val = rounded (acc.val + g x) →
        Returns (xs.foldlM (fun acc x => f x >>= DecimalOps.add acc) d)
          ((∀ x ∈ xs, P x) ∧ SumFits (rounded (acc.val + g x)) (xs.map g))
          fun d => d.val = roundedSum (rounded (acc.val + g x)) (xs.map g) := by
      intro d hd
      rw [← hd]
      exact ih d
    refine (hterm.bind hrest).imp ?_ fun _ h => h
    simp only [SumFits]
    tauto

theorem returns_sum {α : Type} (f : α → Dec) (xs : List α) (acc : Dec) :
    Returns (xs.foldlM (fun acc x => DecimalOps.add acc (f x)) acc)
      (SumFits acc.val (xs.map fun x => (f x).val))
      fun d => d.val = roundedSum acc.val (xs.map fun x => (f x).val) := by
  have hterm : ∀ x, Returns (Except.ok (f x) : Except Panic Dec) True fun d => d.val = (f x).val :=
    fun x => Returns.ok rfl
  exact (returns_foldlM hterm xs acc).imp (by simp) fun _ h => h

theorem returns_sumDecimal (xs : List Dec) :
    Returns (sumDecimal xs) (SumFits 0 (xs.map Dec.val))
      fun d => d.val = roundedSum 0 (xs.map Dec.val) :=
  returns_sum (fun d => d) xs 0

/-! ### Small decimals -/

/-- An integer small enough for a decimal. -/
def Dec.ofNat (n : ℕ) (h : (n : ℤ) < mantissaBound) : Dec :=
  ⟨n, 0, by omega, n, by rwa [abs_of_nonneg (Int.natCast_nonneg n)], by simp⟩

theorem one_lt_mantissaBound : ((1 : ℕ) : ℤ) < mantissaBound := by decide

/-- `n / 10`. -/
def Dec.tenths (n : ℕ) (h : (n : ℤ) < mantissaBound) : Dec :=
  ⟨n / 10, 1, by omega, n, by rwa [abs_of_nonneg (Int.natCast_nonneg n)], by simp⟩

end CryptoAccounting

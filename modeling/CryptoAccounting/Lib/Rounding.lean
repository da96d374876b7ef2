import Mathlib.Tactic
import Mathlib.Algebra.Order.Round

/-!
# Rounding

The multiples of a step `δ > 0` in an ordered field, and rounding to the nearest of them, with ties
away from zero: a value is left as it is exactly when it is on the grid already, and a sum with a value
on the grid is the sum of the roundings except at a tie that changes sign (`roundHalfAway_add_iff`). And
rounding to the nearest integer with ties to even, with the values that round below an even bound
(`abs_roundEven_lt_iff`).
-/

namespace Rounding

variable {K : Type*} [Field K] {δ : K}

/-- The multiples of `δ`. -/
abbrev grid (δ : K) : AddSubgroup K := AddSubgroup.zmultiples δ

theorem mem_grid_iff {x : K} : x ∈ grid δ ↔ ∃ k : ℤ, (k : K) * δ = x := by
  simp [AddSubgroup.mem_zmultiples_iff]

theorem intCast_mul_mem_grid (k : ℤ) : (k : K) * δ ∈ grid δ := mem_grid_iff.2 ⟨k, rfl⟩

variable [LinearOrder K] [IsStrictOrderedRing K] [FloorRing K]

/-- The nearest multiple of `δ`; of two equally near ones, the one farther from zero. -/
def roundHalfAway (δ x : K) : K :=
  if 0 ≤ x then ⌊x / δ + 1 / 2⌋ * δ else -(⌊-x / δ + 1 / 2⌋ * δ)

omit [IsStrictOrderedRing K] in
theorem roundHalfAway_mem_grid (x : K) : roundHalfAway δ x ∈ grid δ := by
  unfold roundHalfAway
  split_ifs
  · exact intCast_mul_mem_grid _
  · exact neg_mem (intCast_mul_mem_grid _)

/-- The floor of an integer plus one half is the integer. -/
theorem floor_intCast_add_half (k : ℤ) : ⌊(k : K) + 1 / 2⌋ = k := by
  rw [Int.floor_intCast_add, Int.floor_eq_zero_iff.2 ⟨by positivity, by norm_num⟩, add_zero]

theorem roundHalfAway_of_mem (hδ : 0 < δ) {x : K} (hx : x ∈ grid δ) : roundHalfAway δ x = x := by
  obtain ⟨k, rfl⟩ := mem_grid_iff.1 hx
  have hdiv : (k : K) * δ / δ = k := mul_div_cancel_right₀ _ hδ.ne'
  unfold roundHalfAway
  split_ifs
  · rw [hdiv, floor_intCast_add_half]
  · have hneg : -((k : K) * δ) / δ = ((-k : ℤ) : K) := by
      rw [neg_div, hdiv, Int.cast_neg]
    rw [hneg, floor_intCast_add_half, Int.cast_neg]
    ring

/-- **Rounding changes nothing exactly on the grid.** -/
theorem roundHalfAway_eq_self_iff (hδ : 0 < δ) (x : K) : roundHalfAway δ x = x ↔ x ∈ grid δ := by
  constructor
  · intro h
    rw [← h]
    exact roundHalfAway_mem_grid x
  · exact roundHalfAway_of_mem hδ

/-- The multiple next to a value is at most half a step away. -/
theorem abs_floor_mul_sub_le (hδ : 0 < δ) (y : K) : |⌊y / δ + 1 / 2⌋ * δ - y| ≤ δ / 2 := by
  have hlo : (⌊y / δ + 1 / 2⌋ : K) * δ ≤ (y / δ + 1 / 2) * δ :=
    mul_le_mul_of_nonneg_right (Int.floor_le _) hδ.le
  have hhi : (y / δ + 1 / 2) * δ ≤ (⌊y / δ + 1 / 2⌋ + 1 : K) * δ :=
    mul_le_mul_of_nonneg_right (Int.lt_floor_add_one _).le hδ.le
  have hmul : (y / δ + 1 / 2) * δ = y + δ / 2 := by
    rw [add_mul, div_mul_cancel₀ y hδ.ne']
    ring
  rw [hmul] at hlo hhi
  rw [abs_le]
  constructor <;> linarith

/-- **Rounding moves a value by at most half a step.** -/
theorem abs_roundHalfAway_sub_le (hδ : 0 < δ) (x : K) : |roundHalfAway δ x - x| ≤ δ / 2 := by
  unfold roundHalfAway
  split_ifs
  · exact abs_floor_mul_sub_le hδ x
  · have h := abs_floor_mul_sub_le hδ (-x)
    rwa [← abs_neg, show -(-(⌊-x / δ + 1 / 2⌋ * δ) - x) = ⌊-x / δ + 1 / 2⌋ * δ - -x by ring]

/-! ### Rounding a sum -/

/-- The value lies half-way between two neighbours on the grid. -/
def IsTie (δ x : K) : Prop := x / δ + 1 / 2 ∈ Set.range ((↑) : ℤ → K)

/-- The grid itself has no ties. -/
theorem not_isTie_of_mem (hδ : 0 < δ) {x : K} (hx : x ∈ grid δ) : ¬ IsTie δ x := by
  obtain ⟨k, rfl⟩ := mem_grid_iff.1 hx
  rintro ⟨m, hm⟩
  rw [mul_div_cancel_right₀ _ hδ.ne'] at hm
  have htwice : ((2 * (m - k) : ℤ) : K) = (1 : ℤ) := by
    push_cast
    linear_combination 2 * hm
  have hodd : 2 * (m - k) = 1 := Int.cast_injective htwice
  omega

/-- Away from zero is up for the nonnegative values and down for the others. -/
theorem roundHalfAway_eq (x : K) :
    roundHalfAway δ x = (if 0 ≤ x then ⌊x / δ + 1 / 2⌋ else ⌈x / δ - 1 / 2⌉ : ℤ) * δ := by
  unfold roundHalfAway
  split_ifs with hx
  · rfl
  · have hceil : ⌈x / δ - 1 / 2⌉ = -⌊-x / δ + 1 / 2⌋ := by
      rw [← Int.ceil_neg]
      congr 1
      ring
    rw [hceil, Int.cast_neg, neg_mul]

/-- Up and down differ on the ties alone. -/
theorem ceil_sub_half_eq_iff (y : K) :
    ⌈y - 1 / 2⌉ = ⌊y + 1 / 2⌋ ↔ y + 1 / 2 ∉ Set.range ((↑) : ℤ → K) := by
  rw [← Int.ceil_eq_floor_add_one_iff_notMem, show y - 1 / 2 = y + 1 / 2 - 1 by ring,
    Int.ceil_sub_one, sub_eq_iff_eq_add]

/-- **Rounding a sum with a value on the grid.** The part off the grid can be rounded alone unless it is
a tie whose sign is not that of the sum. -/
theorem roundHalfAway_add_iff (hδ : 0 < δ) {t r : K} (ht : t ∈ grid δ) :
    roundHalfAway δ (t + r) = t + roundHalfAway δ r ↔ (IsTie δ r → (0 ≤ r ↔ 0 ≤ t + r)) := by
  obtain ⟨k, rfl⟩ := mem_grid_iff.1 ht
  have hdiv : (k * δ + r) / δ = k + r / δ := by rw [add_div, mul_div_cancel_right₀ _ hδ.ne']
  have hfloor : ⌊(k * δ + r) / δ + 1 / 2⌋ = k + ⌊r / δ + 1 / 2⌋ := by
    rw [hdiv, add_assoc, Int.floor_intCast_add]
  have hceil : ⌈(k * δ + r) / δ - 1 / 2⌉ = k + ⌈r / δ - 1 / 2⌉ := by
    rw [hdiv, add_sub_assoc, Int.ceil_intCast_add]
  have hcancel : ∀ m n : ℤ, ((k + m : ℤ) : K) * δ = k * δ + n * δ ↔ m = n := by
    intro m n
    rw [Int.cast_add, add_mul, add_right_inj, mul_left_inj' hδ.ne', Int.cast_inj]
  rw [roundHalfAway_eq, roundHalfAway_eq, hfloor, hceil]
  by_cases hsign : 0 ≤ r ↔ 0 ≤ k * δ + r
  · -- Both are rounded in the same direction.
    simp only [hsign, implies_true, iff_true]
    split_ifs
    · exact (hcancel _ _).2 rfl
    · exact (hcancel _ _).2 rfl
  · have htie := ceil_sub_half_eq_iff (r / δ)
    simp only [hsign, imp_false]
    by_cases hr : 0 ≤ r
    · have hsum : ¬ 0 ≤ k * δ + r := fun h => hsign ⟨fun _ => h, fun _ => hr⟩
      rw [if_neg hsum, if_pos hr, hcancel, htie]
      rfl
    · have hsum : 0 ≤ k * δ + r := by
        by_contra h
        exact hsign ⟨fun hr' => absurd hr' hr, fun h' => absurd h' h⟩
      rw [if_pos hsum, if_neg hr, hcancel, eq_comm, htie]
      rfl

/-! ### Ties to even -/

/-- The nearest integer; of two equally near ones, the even one. -/
def roundEven (y : K) : ℤ :=
  if y - ⌊y⌋ < 1 / 2 then ⌊y⌋
  else if 1 / 2 < y - ⌊y⌋ then ⌊y⌋ + 1
  else if Even ⌊y⌋ then ⌊y⌋
  else ⌊y⌋ + 1

/-- The values that round to `n` or above: from `n - 1/2` on, which itself is one if `n` is even. -/
theorem le_roundEven_iff (n : ℤ) (y : K) :
    n ≤ roundEven y ↔ (n : K) - 1 / 2 < y ∨ ((n : K) - 1 / 2 = y ∧ Even n) := by
  have hlo : (⌊y⌋ : K) ≤ y := Int.floor_le y
  have hhi : y < (⌊y⌋ : K) + 1 := Int.lt_floor_add_one y
  have hcast : ∀ m : ℤ, n ≤ m ↔ (n : K) < (m : K) + 1 := by
    intro m
    rw [← Int.lt_add_one_iff]
    exact_mod_cast Iff.rfl
  unfold roundEven
  split_ifs with h1 h2 h3
  · rw [hcast]
    constructor
    · intro h
      have hle : (n : K) ≤ ⌊y⌋ := by exact_mod_cast (hcast ⌊y⌋).2 h
      exact .inl (by linarith)
    · rintro (h | ⟨h, -⟩) <;> linarith
  · rw [hcast]
    push_cast
    constructor
    · intro h
      have hle : n ≤ ⌊y⌋ + 1 := (hcast _).2 (by push_cast; exact h)
      have hle' : (n : K) ≤ ⌊y⌋ + 1 := by exact_mod_cast hle
      exact .inl (by linarith)
    · rintro (h | ⟨h, -⟩) <;> linarith
  · have hy : y = (⌊y⌋ : K) + 1 / 2 := by linarith
    constructor
    · intro h
      have hle : (n : K) ≤ ⌊y⌋ := by exact_mod_cast h
      exact .inl (by linarith)
    · rintro (h | ⟨h, hn⟩)
      · exact (hcast _).2 (by linarith)
      · -- A tie goes down to an even integer, so `n` is not the odd one above it.
        have hn' : n = ⌊y⌋ + 1 := by
          have : (n : K) = ((⌊y⌋ + 1 : ℤ) : K) := by push_cast; linarith
          exact_mod_cast this
        rw [hn', Int.even_add_one] at hn
        exact absurd h3 hn
  · have hy : y = (⌊y⌋ : K) + 1 / 2 := by linarith
    constructor
    · intro h
      rcases h.lt_or_eq with h | rfl
      · have hle : (n : K) ≤ ⌊y⌋ := by exact_mod_cast Int.lt_add_one_iff.1 h
        exact .inl (by linarith)
      · exact .inr ⟨by push_cast; linarith, Int.even_add_one.2 h3⟩
    · intro h
      rw [hcast]
      push_cast
      rcases h with h | ⟨h, -⟩ <;> linarith

/-- **The values that round to less than an even bound.** -/
theorem abs_roundEven_lt_iff {N : ℤ} (hN : Even N) (y : K) :
    |roundEven y| < N ↔ |y| < (N : K) - 1 / 2 := by
  have hup : N ≤ roundEven y ↔ (N : K) - 1 / 2 ≤ y := by
    rw [le_roundEven_iff, le_iff_lt_or_eq]
    simp [hN]
  have hdown : -N + 1 ≤ roundEven y ↔ -((N : K) - 1 / 2) < y := by
    have hodd : ¬ Even (-N + 1) := by
      rw [Int.even_add_one, not_not]
      exact hN.neg
    rw [le_roundEven_iff]
    simp only [hodd, and_false, or_false]
    push_cast
    constructor <;> intro h <;> linarith
  have hup' : roundEven y < N ↔ y < (N : K) - 1 / 2 := by
    rw [← not_le, ← not_le]
    exact not_congr hup
  rw [abs_lt, abs_lt, hup', ← hdown]
  refine and_congr ?_ Iff.rfl
  omega

theorem roundEven_intCast (n : ℤ) : roundEven (n : K) = n := by
  unfold roundEven
  rw [Int.floor_intCast, if_pos (by rw [sub_self]; norm_num)]

theorem roundEven_nonneg {y : K} (h : 0 ≤ y) : 0 ≤ roundEven y := by
  rw [le_roundEven_iff]
  left
  push_cast
  linarith

end Rounding

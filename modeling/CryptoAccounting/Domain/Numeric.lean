import CryptoAccounting.Domain.Machine
import CryptoAccounting.Domain.Records

/-!
# The columns

Both services store quantities, prices and PnL in `NUMERIC(28, 10)` columns. Assigning a value rounds
it half away from zero to ten decimals, and fails when the rounded value has more than eighteen digits
before the point. Times go into `TIMESTAMPTZ` columns, which have microseconds.
-/

namespace CryptoAccounting

open Rounding

/-- One unit in the last decimal of the column. -/
def columnStep : ℚ := 1 / 10 ^ 10

/-- What the column stores for a value; `none` is the "numeric field overflow" error. -/
def numericColumn (x : ℚ) : Option ℚ :=
  let y := roundHalfAway columnStep x
  if |y| < 10 ^ 18 then some y else none

theorem columnStep_pos : 0 < columnStep := by
  unfold columnStep
  positivity

theorem eq_of_numericColumn {x y : ℚ} (h : numericColumn x = some y) :
    y = roundHalfAway columnStep x := by
  unfold numericColumn at h
  dsimp only at h
  split_ifs at h
  exact (Option.some_inj.1 h).symm

/-- What is read back from a column is on its grid. -/
theorem mem_grid_of_numericColumn {x y : ℚ} (h : numericColumn x = some y) :
    y ∈ grid columnStep := by
  rw [eq_of_numericColumn h]
  exact roundHalfAway_mem_grid x

/-- A value that is stored at all is stored exactly when it is a whole number of steps. -/
theorem numericColumn_eq_self_iff {x y : ℚ} (h : numericColumn x = some y) :
    y = x ↔ x ∈ grid columnStep := by
  rw [eq_of_numericColumn h]
  exact roundHalfAway_eq_self_iff columnStep_pos x

/-- A column holds decimals only. -/
theorem representable_of_numericColumn {x y : ℚ} (h : numericColumn x = some y) : Representable y := by
  have hgrid := mem_grid_of_numericColumn h
  obtain ⟨m, rfl⟩ := mem_grid_iff.1 hgrid
  unfold numericColumn at h
  dsimp only at h
  split_ifs at h with hlt
  rw [Option.some_inj.1 h] at hlt
  refine ⟨10, by omega, m, ?_, by rw [columnStep, mul_one_div]⟩
  have hm : |(m : ℚ)| < 10 ^ 28 := by
    rw [columnStep, abs_mul, abs_of_pos (by positivity : (0 : ℚ) < 1 / 10 ^ 10)] at hlt
    linarith
  have hbound : ((10 : ℤ) ^ 28) ≤ mantissaBound := by decide
  have hm' : |m| < 10 ^ 28 := by exact_mod_cast hm
  exact hm'.trans_le hbound

/-- What the column stores for a decimal. -/
def Dec.column (d : Dec) : Option Dec :=
  match h : numericColumn d.val with
  | none => none
  | some y => some ⟨y, representable_of_numericColumn h⟩

instance (x : ℚ) : Decidable (x ∈ grid columnStep) :=
  decidable_of_iff (((x / columnStep).num : ℚ) = x / columnStep) <| by
    constructor
    · intro h
      exact mem_grid_iff.2 ⟨(x / columnStep).num, by
        rw [h, div_mul_cancel₀ x columnStep_pos.ne']⟩
    · intro h
      obtain ⟨k, rfl⟩ := mem_grid_iff.1 h
      rw [mul_div_cancel_right₀ _ columnStep_pos.ne', Rat.num_intCast]

/-- What a `TIMESTAMPTZ` column keeps of a time: its whole microseconds. -/
def timestamptz (t : Timestamp) : Timestamp := t.tdiv 1000 * 1000

end CryptoAccounting

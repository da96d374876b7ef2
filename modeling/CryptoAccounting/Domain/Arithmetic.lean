import CryptoAccounting.Lib.Returns

/-!
# Decimal arithmetic

The services compute with `rust_decimal::Decimal`, whose operators panic when a result does not
fit. The model is written once, over a type `D` with a linear order, a zero and the four operators
of `DecimalOps`; a failed operator is an `Except.error` that nothing catches. Two instances are
used: `ℚ` in this file, where arithmetic is exact and only a division by zero fails, and the
96-bit decimals of `Machine`.
-/

namespace CryptoAccounting

export Returns (ok_bind error_bind pure_eq_ok bind_eq_ok map_bind)

/-- What stops a thread. `outOfFuel` stands for a loop that is still running. -/
inductive Panic
  | overflow
  | divisionByZero
  | expect (msg : String)
  | outOfFuel
  deriving DecidableEq, Repr

/-- The operators of `Decimal`. -/
class DecimalOps (D : Type) where
  add : D → D → Except Panic D
  sub : D → D → Except Panic D
  mul : D → D → Except Panic D
  div : D → D → Except Panic D

open DecimalOps

/-- `Iterator::sum` over decimals: add from zero, left to right. -/
def sumDecimal {D : Type} [Zero D] [DecimalOps D] (xs : List D) : Except Panic D :=
  xs.foldlM add 0

/-- Exact arithmetic. -/
instance : DecimalOps ℚ where
  add a b := .ok (a + b)
  sub a b := .ok (a - b)
  mul a b := .ok (a * b)
  div a b := if b = 0 then .error .divisionByZero else .ok (a / b)

@[simp] theorem add_exact (a b : ℚ) : add a b = .ok (a + b) := rfl
@[simp] theorem sub_exact (a b : ℚ) : sub a b = .ok (a - b) := rfl
@[simp] theorem mul_exact (a b : ℚ) : mul a b = .ok (a * b) := rfl

/-- A decimal minus itself is exactly zero, in every arithmetic. -/
class LawfulDecimal (D : Type) [Zero D] [DecimalOps D] : Prop where
  sub_self (a : D) : sub a a = .ok 0

instance : LawfulDecimal ℚ where
  sub_self a := by simp

/-- An exact running sum of a list, read off with `f`. -/
theorem foldlM_add_exact {α : Type} (f : α → ℚ) (xs : List α) (a : ℚ) :
    xs.foldlM (fun acc x => add acc (f x)) a = .ok (a + (xs.map f).sum) := by
  induction xs generalizing a with
  | nil => simp
  | cons x xs ih =>
    rw [List.foldlM_cons, add_exact, ok_bind, ih, List.map_cons, List.sum_cons, add_assoc]

theorem sumDecimal_exact (xs : List ℚ) : sumDecimal xs = .ok xs.sum := by
  rw [sumDecimal, show xs.foldlM add 0 = xs.foldlM (fun acc x => add acc (id x)) (0 : ℚ) from rfl,
    foldlM_add_exact, List.map_id, zero_add]

end CryptoAccounting

import Mathlib.Tactic

/-!
# Decimal numbers as text

A fixed-point number has a mantissa and a scale, the number of its decimal places. `print` writes all of
its places and `parse` reads them back with the scale (`parse_print`).
-/

/-- The number `mantissa / 10 ^ scale`, with its scale. -/
structure FixedPoint where
  mantissa : ℤ
  scale : ℕ
  deriving DecidableEq, Repr

namespace FixedPoint

def value (x : FixedPoint) : ℚ := x.mantissa / 10 ^ x.scale

/-! ### Writing -/

/-- The digits of the mantissa, with at least one in front of the decimal places. -/
def digits (x : FixedPoint) : List Char :=
  let ds := Nat.toDigits 10 x.mantissa.natAbs
  List.replicate (x.scale + 1 - ds.length) '0' ++ ds

/-- The digits in front of the point. -/
def whole (x : FixedPoint) : List Char := x.digits.take (x.digits.length - x.scale)

/-- The decimal places. -/
def fraction (x : FixedPoint) : List Char := x.digits.drop (x.digits.length - x.scale)

def unsigned (x : FixedPoint) : List Char :=
  x.whole ++ if x.scale = 0 then [] else '.' :: x.fraction

def print (x : FixedPoint) : String :=
  String.ofList (if x.mantissa < 0 then '-' :: x.unsigned else x.unsigned)

/-! ### Reading -/

/-- The mantissa and the scale of a number without a sign. -/
def parseUnsigned (cs : List Char) : Option (ℕ × ℕ) :=
  let whole := cs.takeWhile Char.isDigit
  match cs.dropWhile Char.isDigit with
  | [] => if whole = [] then none else some (Nat.ofDigitChars 10 whole 0, 0)
  | c :: fraction =>
    if whole = [] ∨ c ≠ '.' ∨ fraction = [] ∨ fraction.all Char.isDigit = false then none
    else some (Nat.ofDigitChars 10 (whole ++ fraction) 0, fraction.length)

def parse (s : String) : Option FixedPoint :=
  match s.toList with
  | [] => none
  | c :: cs =>
    if c = '-' then (parseUnsigned cs).map fun r => ⟨-r.1, r.2⟩
    else (parseUnsigned (c :: cs)).map fun r => ⟨r.1, r.2⟩

/-! ### Round trip -/

variable (x : FixedPoint)

theorem isDigit_of_mem_digits : ∀ c ∈ x.digits, c.isDigit = true := by
  intro c hc
  rcases List.mem_append.1 hc with hc | hc
  · rw [List.eq_of_mem_replicate hc]
    rfl
  · exact Nat.isDigit_of_mem_toDigits (by omega) (by omega) hc

theorem scale_lt_length : x.scale < x.digits.length := by
  unfold digits
  simp only [List.length_append, List.length_replicate]
  omega

theorem whole_append_fraction : x.whole ++ x.fraction = x.digits := List.take_append_drop ..

theorem whole_ne_nil : x.whole ≠ [] := by
  have hlength := x.scale_lt_length
  refine List.ne_nil_of_length_pos ?_
  unfold whole
  rw [List.length_take]
  omega

theorem length_fraction : x.fraction.length = x.scale := by
  have hlength := x.scale_lt_length
  unfold fraction
  rw [List.length_drop]
  omega

theorem isDigit_of_mem_whole : ∀ c ∈ x.whole, c.isDigit = true :=
  fun c hc => x.isDigit_of_mem_digits c (List.mem_of_mem_take hc)

theorem isDigit_of_mem_fraction : ∀ c ∈ x.fraction, c.isDigit = true :=
  fun c hc => x.isDigit_of_mem_digits c (List.mem_of_mem_drop hc)

/-- The digits are those of the mantissa, after some zeros. -/
theorem ofDigitChars_digits : Nat.ofDigitChars 10 x.digits 0 = x.mantissa.natAbs := by
  unfold digits
  rw [Nat.ofDigitChars_append, Nat.ofDigitChars_replicate_zero, Nat.mul_zero,
    Nat.ofDigitChars_ten_toDigits]

/-- Digits are taken up to the first character that is none. -/
theorem takeWhile_digits {ds : List Char} (hds : ∀ c ∈ ds, c.isDigit = true) (cs : List Char)
    (hcs : ∀ c ∈ cs.head?, c.isDigit = false) :
    (ds ++ cs).takeWhile Char.isDigit = ds ∧ (ds ++ cs).dropWhile Char.isDigit = cs := by
  induction ds with
  | nil =>
    cases cs with
    | nil => simp
    | cons c cs =>
      have hc := hcs c rfl
      simp [hc]
  | cons d ds ih =>
    obtain ⟨hd, hds⟩ := List.forall_mem_cons.1 hds
    obtain ⟨htake, hdrop⟩ := ih hds
    simp [hd, htake, hdrop]

theorem parseUnsigned_unsigned : parseUnsigned x.unsigned = some (x.mantissa.natAbs, x.scale) := by
  unfold unsigned
  by_cases hscale : x.scale = 0
  · have hfraction : x.fraction = [] := List.eq_nil_of_length_eq_zero (x.length_fraction.trans hscale)
    have hwhole : x.whole = x.digits := by
      rw [← x.whole_append_fraction, hfraction, List.append_nil]
    obtain ⟨htake, hdrop⟩ := takeWhile_digits x.isDigit_of_mem_whole [] (by simp)
    rw [if_pos hscale]
    unfold parseUnsigned
    simp only [htake, hdrop, if_neg x.whole_ne_nil]
    rw [hwhole, x.ofDigitChars_digits, hscale]
  · have hfraction : x.fraction ≠ [] := by
      refine List.ne_nil_of_length_pos ?_
      rw [x.length_fraction]
      omega
    have hall : x.fraction.all Char.isDigit = true := List.all_eq_true.2 x.isDigit_of_mem_fraction
    obtain ⟨htake, hdrop⟩ := takeWhile_digits x.isDigit_of_mem_whole
      ( '.' :: x.fraction) (by simp)
    rw [if_neg hscale]
    unfold parseUnsigned
    simp only [htake, hdrop]
    rw [if_neg (by simp [x.whole_ne_nil, hfraction, hall]), x.whole_append_fraction,
      x.ofDigitChars_digits, x.length_fraction]

/-- **A number is read back** with its scale. -/
theorem parse_print : parse x.print = some x := by
  unfold parse print
  rw [String.toList_ofList]
  by_cases hneg : x.mantissa < 0
  · simp only [if_pos hneg, if_true, x.parseUnsigned_unsigned, Option.map_some]
    have hval : -(x.mantissa.natAbs : ℤ) = x.mantissa := by omega
    rw [hval]
  · have hval : (x.mantissa.natAbs : ℤ) = x.mantissa := by omega
    rw [if_neg hneg]
    cases hcs : x.unsigned with
    | nil =>
      have hne : x.unsigned ≠ [] := by simp [unsigned, x.whole_ne_nil]
      exact absurd hcs hne
    | cons c cs =>
      have hc : c ≠ '-' := by
        rintro rfl
        have hmem : '-' ∈ x.whole := by
          obtain ⟨d, ds, hwhole⟩ := List.exists_cons_of_ne_nil x.whole_ne_nil
          rw [unsigned, hwhole, List.cons_append] at hcs
          rw [hwhole, (List.cons.inj hcs).1]
          exact List.mem_cons_self
        exact absurd (x.isDigit_of_mem_whole _ hmem) (by decide)
      simp only [if_neg hc]
      rw [← hcs, x.parseUnsigned_unsigned, Option.map_some, hval]

example : print ⟨-150, 2⟩ = "-1.50" := by decide

end FixedPoint

import CryptoAccounting.Domain.Machine
import CryptoAccounting.Domain.Records

/-!
# Where 96-bit decimals are exact

A result with at most 28 decimal places is not rounded as long as its mantissa fits. A `Room` fixes
the decimal places of quantities and prices and bounds the amounts of both kinds such that sums of
quantities, products of a quantity and a price, and sums of such products are all of this sort. The
map `Dec.val` then commutes with the operators, and the records it is applied to are those of exact
arithmetic.
-/

namespace CryptoAccounting

open Rounding DecimalOps

/-! ### Decimal places -/

/-- The values with `s` decimal places. -/
abbrev places (s : ℕ) : AddSubgroup ℚ := grid (1 / 10 ^ s)

theorem mul_mem_places {x y : ℚ} {s t : ℕ} (hx : x ∈ places s) (hy : y ∈ places t) :
    x * y ∈ places (s + t) := by
  obtain ⟨m, rfl⟩ := mem_grid_iff.1 hx
  obtain ⟨n, rfl⟩ := mem_grid_iff.1 hy
  refine mem_grid_iff.2 ⟨m * n, ?_⟩
  rw [pow_add]
  push_cast
  field_simp

/-- A value with few decimal places and a mantissa that fits is a decimal. -/
theorem representable_of_places {x : ℚ} {s : ℕ} (hs : s ≤ 28) (hx : x ∈ places s)
    (h : |x| * 10 ^ s < (mantissaBound : ℚ)) : Representable x := by
  obtain ⟨m, rfl⟩ := mem_grid_iff.1 hx
  refine ⟨s, hs, m, ?_, by rw [mul_one_div]⟩
  have hpow : (0 : ℚ) < 10 ^ s := by positivity
  have habs : |(m : ℚ) * (1 / 10 ^ s)| * 10 ^ s = |(m : ℚ)| := by
    rw [abs_mul, abs_of_pos (one_div_pos.2 hpow), mul_assoc, one_div_mul_cancel hpow.ne', mul_one]
  rw [habs] at h
  exact_mod_cast h

/-! ### Operators without rounding -/

theorem ofRat_exact {x : ℚ} (h : Representable x) : Dec.ofRat x = .ok ⟨x, h⟩ :=
  ofRat_eq_ok_iff.2 ⟨fits_of_representable h, (rounded_of_representable h).symm⟩

section Operators

variable {a b : Dec}

theorem add_exactly (h : Representable (a.val + b.val)) : add a b = .ok ⟨a.val + b.val, h⟩ :=
  ofRat_exact h

theorem sub_exactly (h : Representable (a.val - b.val)) : sub a b = .ok ⟨a.val - b.val, h⟩ :=
  ofRat_exact h

theorem mul_exactly (h : Representable (a.val * b.val)) : mul a b = .ok ⟨a.val * b.val, h⟩ :=
  ofRat_exact h

end Operators

/-- A running sum whose partial sums are all decimals is not rounded. -/
theorem foldlM_add_exactly {α : Type} (f : α → Dec) (xs : List α) (acc : Dec)
    (h : ∀ l, l <+: xs.map (fun x => (f x).val) → Representable (acc.val + l.sum)) :
    ∃ d : Dec, xs.foldlM (fun acc x => add acc (f x)) acc = .ok d ∧
      d.val = acc.val + (xs.map fun x => (f x).val).sum := by
  induction xs generalizing acc with
  | nil => exact ⟨acc, rfl, by simp⟩
  | cons x xs ih =>
    rw [List.map_cons] at h
    have hx : Representable (acc.val + (f x).val) := by
      simpa using h [(f x).val] (List.cons_prefix_cons.2 ⟨rfl, List.nil_prefix⟩)
    obtain ⟨d, hd, hval⟩ := ih ⟨acc.val + (f x).val, hx⟩ fun l hl => by
      have hcons := h ((f x).val :: l) (List.cons_prefix_cons.2 ⟨rfl, hl⟩)
      rwa [List.sum_cons, ← add_assoc] at hcons
    refine ⟨d, ?_, ?_⟩
    · rw [List.foldlM_cons, add_exactly hx, ok_bind, hd]
    · rw [hval, List.map_cons, List.sum_cons, ← add_assoc]

/-- Partial sums of gains stay between the full cost and the full proceeds. -/
theorem abs_partial_gain_le {α : Type} {proceeds cost : α → ℚ} {xs : List α} {acc B : ℚ}
    (hp : ∀ x ∈ xs, 0 ≤ proceeds x) (hc : ∀ x ∈ xs, 0 ≤ cost x)
    (hlow : -B ≤ acc - (xs.map cost).sum) (hhigh : acc + (xs.map proceeds).sum ≤ B)
    {l : List ℚ} (hl : l <+: xs.map fun x => proceeds x - cost x) : |acc + l.sum| ≤ B := by
  obtain ⟨m, hm⟩ := hl
  obtain ⟨ys, zs, rfl, rfl, -⟩ := List.map_eq_append_iff.1 hm.symm
  have hsum : ∀ f : α → ℚ, (∀ x ∈ ys ++ zs, 0 ≤ f x) →
      0 ≤ (ys.map f).sum ∧ (ys.map f).sum ≤ ((ys ++ zs).map f).sum := by
    intro f hf
    have hnonneg : ∀ l : List α, (∀ x ∈ l, 0 ≤ f x) → 0 ≤ (l.map f).sum := by
      intro l hl
      refine List.sum_nonneg fun y hy => ?_
      obtain ⟨x, hx, rfl⟩ := List.mem_map.1 hy
      exact hl x hx
    have hzs := hnonneg zs fun x hx => hf x (List.mem_append_right _ hx)
    refine ⟨hnonneg ys fun x hx => hf x (List.mem_append_left _ hx), ?_⟩
    rw [List.map_append, List.sum_append]
    linarith
  obtain ⟨hp0, hp1⟩ := hsum proceeds hp
  obtain ⟨hc0, hc1⟩ := hsum cost hc
  have hsub : (ys.map fun x => proceeds x - cost x).sum = (ys.map proceeds).sum - (ys.map cost).sum := by
    simpa using Multiset.sum_map_sub (m := (ys : Multiset α)) (f := proceeds) (g := cost)
  rw [hsub, abs_le]
  constructor <;> linarith

/-! ### Room for amounts -/

/-- Decimal places of quantities and prices, and bounds on amounts, within a mantissa. -/
structure Room where
  quantityPlaces : ℕ
  pricePlaces : ℕ
  /-- No total of quantities exceeds this bound. -/
  quantityMax : ℚ
  /-- No total of quantity × price exceeds this bound. -/
  valueMax : ℚ
  places_le : quantityPlaces + pricePlaces ≤ 28
  quantity_lt : quantityMax * 10 ^ quantityPlaces < (mantissaBound : ℚ)
  value_lt : valueMax * 10 ^ (quantityPlaces + pricePlaces) < (mantissaBound : ℚ)

namespace Room

variable (room : Room)

abbrev quantities : AddSubgroup ℚ := places room.quantityPlaces
abbrev prices : AddSubgroup ℚ := places room.pricePlaces
abbrev values : AddSubgroup ℚ := places (room.quantityPlaces + room.pricePlaces)

variable {room} {x : ℚ}

theorem representable_quantity (hx : x ∈ room.quantities) (h : |x| ≤ room.quantityMax) :
    Representable x := by
  refine representable_of_places (by have := room.places_le; omega) hx ?_
  exact lt_of_le_of_lt (mul_le_mul_of_nonneg_right h (by positivity)) room.quantity_lt

theorem representable_value (hx : x ∈ room.values) (h : |x| ≤ room.valueMax) :
    Representable x := by
  refine representable_of_places room.places_le hx ?_
  exact lt_of_le_of_lt (mul_le_mul_of_nonneg_right h (by positivity)) room.value_lt

end Room

/-! ### Records -/

section Records

variable {D E : Type}

/-- Apply a function to the decimals of a lot. -/
def Lot.map (f : D → E) (l : Lot D) : Lot E := ⟨f l.quantity, f l.costPerUnit⟩

/-- Apply a function to the decimals of a record. -/
def RealizedPnL.map (f : D → E) (r : RealizedPnL D) : RealizedPnL E where
  asset := r.asset
  quantity := f r.quantity
  costBasis := f r.costBasis
  proceeds := f r.proceeds
  realizedPnl := f r.realizedPnl

/-- Apply a function to the decimals of an event. -/
def TradeEvent.map (f : D → E) (e : TradeEvent D) : TradeEvent E where
  eventId := e.eventId
  eventType := e.eventType
  tradeId := e.tradeId
  asset := e.asset
  quantity := f e.quantity
  price := f e.price
  side := e.side
  notionalValue := f e.notionalValue
  realizedPnl := f e.realizedPnl
  timestamp := e.timestamp
  publishedAt := e.publishedAt

end Records

end CryptoAccounting

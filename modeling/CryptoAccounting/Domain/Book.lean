import CryptoAccounting.Lib.Segments

/-!
# FIFO books

What a FIFO inventory of one asset is for, apart from any code: the accepted buys and the accepted
sells in arrival order, each a quantity at a price. The open lots are what the sells have left of
the buys, and a sell is matched with the oldest units that are still open. Both services implement
this book: their lots, totals and realized PnL are functions of it.
-/

namespace CryptoAccounting

open Segments

section Notional

variable {K : Type*} [CommRing K]

/-- Sum of quantity × price over a list of trades or lots. -/
def notional (l : List (K × K)) : K := value id l

@[simp] theorem notional_nil : notional ([] : List (K × K)) = 0 := rfl
@[simp] theorem notional_cons (s : K × K) (l : List (K × K)) :
    notional (s :: l) = s.1 * s.2 + notional l := value_cons id s l
@[simp] theorem notional_append (l m : List (K × K)) :
    notional (l ++ m) = notional l + notional m := value_append id l m

/-- Selling all the segments at `p` yields the proceeds minus their cost. -/
theorem sum_gain (p : K) (l : List (K × K)) :
    (l.map fun s => s.1 * p - s.1 * s.2).sum = weight l * p - notional l := by
  induction l with
  | nil => simp
  | cons s l ih =>
    rw [List.map_cons, List.sum_cons, ih, weight_cons, notional_cons]
    ring

end Notional

/-- The accepted buys and sells of one asset, in arrival order, as (quantity, price). -/
structure Book (K : Type*) [CommRing K] [LinearOrder K] where
  buys : List (K × K)
  sells : List (K × K)
  buys_positive : Positive buys
  prices_positive : ∀ b ∈ buys, 0 < b.2
  sells_positive : Positive sells
  covered : weight sells ≤ weight buys

namespace Book

variable {K : Type*} [CommRing K] [LinearOrder K]

/-- The book before any trade. -/
def empty : Book K where
  buys := []
  sells := []
  buys_positive := positive_nil
  prices_positive := by simp
  sells_positive := positive_nil
  covered := le_rfl

/-- The open lots: what the sells have left of the buys. -/
def openLots (b : Book K) : List (K × K) := drop (weight b.sells) b.buys

/-- The quantity held. -/
def held (b : Book K) : K := weight b.buys - weight b.sells

/-- The units a sell of `q` is matched with. -/
def fills (b : Book K) (q : K) : List (K × K) := take q b.openLots

/-- Proceeds of the sells minus the cost of the units they were matched with. -/
def realized (b : Book K) : K := notional b.sells - notional (take (weight b.sells) b.buys)

@[simp] theorem openLots_empty : (empty : Book K).openLots = [] := rfl
@[simp] theorem held_empty : (empty : Book K).held = 0 := by simp [held, empty]
@[simp] theorem realized_empty : (empty : Book K).realized = 0 := by
  simp [realized, empty]

theorem ext_lists {b c : Book K} (hb : b.buys = c.buys) (hs : b.sells = c.sells) : b = c := by
  cases b
  cases c
  simp_all

theorem openLots_prices (b : Book K) : ∀ s ∈ b.openLots, 0 < s.2 := by
  intro s hs
  obtain ⟨w, hw⟩ := label_mem_of_mem_drop hs
  exact b.prices_positive (w, s.2) hw

variable [IsStrictOrderedRing K]

theorem openLots_positive (b : Book K) : Positive b.openLots := positive_drop b.buys_positive _

theorem sold_nonneg (b : Book K) : 0 ≤ weight b.sells := weight_nonneg b.sells_positive

theorem weight_openLots (b : Book K) : weight b.openLots = b.held :=
  weight_drop b.buys_positive b.sold_nonneg b.covered

theorem held_nonneg (b : Book K) : 0 ≤ b.held := sub_nonneg.2 b.covered

theorem openLots_eq_nil_iff (b : Book K) : b.openLots = [] ↔ b.held = 0 := by
  rw [← weight_openLots, weight_eq_zero_iff b.openLots_positive]

/-- **Conservation.** Realized PnL is the cash flow plus the cost of what is still open. -/
theorem realized_eq (b : Book K) :
    b.realized = notional b.sells - notional b.buys + notional b.openLots := by
  have h := value_take_add_drop id b.buys_positive b.sold_nonneg
  simp only [realized, openLots, notional]
  linear_combination -h

/-- Realized and unrealized PnL at a price. -/
def profitAt (b : Book K) (price : K) : K := b.realized + (b.held * price - notional b.openLots)

/-- The profit is the cash flow plus the value of what is held. -/
theorem profitAt_eq (b : Book K) (price : K) :
    b.profitAt price = notional b.sells - notional b.buys + b.held * price := by
  rw [profitAt, realized_eq]
  ring

/-! ### The same trades in another order -/

section Perm

variable {b c : Book K}

section Congr

omit [IsStrictOrderedRing K]

variable (hb : b.buys = c.buys) (hs : weight b.sells = weight c.sells)

include hb hs

/-- Of the sells, the open lots depend on the total quantity alone. -/
theorem openLots_congr : b.openLots = c.openLots := by rw [openLots, openLots, hb, hs]

theorem held_congr : b.held = c.held := by rw [held, held, hb, hs]

/-- Of the sells, the realized PnL depends on the total quantity and the total proceeds alone. -/
theorem realized_congr (hn : notional b.sells = notional c.sells) : b.realized = c.realized := by
  rw [realized, realized, hb, hs, hn]

end Congr

omit [IsStrictOrderedRing K] in
theorem held_perm (hb : b.buys.Perm c.buys) (hs : b.sells.Perm c.sells) : b.held = c.held := by
  rw [held, held, weight_perm hb, weight_perm hs]

/-- Realized PnL minus the cost of what is still open is the cash flow, in any order. -/
theorem realized_sub_perm (hb : b.buys.Perm c.buys) (hs : b.sells.Perm c.sells) :
    b.realized - notional b.openLots = c.realized - notional c.openLots := by
  have hcash : notional b.sells - notional b.buys = notional c.sells - notional c.buys := by
    rw [notional, notional, notional, notional, value_perm id hb, value_perm id hs]
  rw [realized_eq, realized_eq, add_sub_cancel_right, add_sub_cancel_right, hcash]

omit [IsStrictOrderedRing K] in
/-- The open lots depend on the order of the buys alone. -/
theorem openLots_perm (hb : b.buys = c.buys) (hs : b.sells.Perm c.sells) :
    b.openLots = c.openLots := openLots_congr hb (weight_perm hs)

omit [IsStrictOrderedRing K] in
theorem realized_perm (hb : b.buys = c.buys) (hs : b.sells.Perm c.sells) :
    b.realized = c.realized :=
  realized_congr hb (weight_perm hs) (value_perm id hs)

end Perm

/-! ### The trades of several books -/

section Merge

variable {N : ℕ} {b : Book K} {bs : Fin N → Book K}
variable (hbuys : b.buys.Perm ((List.finRange N).flatMap fun i => (bs i).buys))
variable (hsells : b.sells.Perm ((List.finRange N).flatMap fun i => (bs i).sells))

include hbuys hsells

omit [IsStrictOrderedRing K] in
/-- A book with the trades of several books, in any order, holds what they hold together. -/
theorem held_merge : b.held = ∑ i, (bs i).held := by
  simp only [held, Finset.sum_sub_distrib, Fin.sum_univ_def]
  rw [weight_perm hbuys, weight_perm hsells, weight_flatMap, weight_flatMap]

/-- At every price it has made what they have made together. -/
theorem profitAt_merge (price : K) : b.profitAt price = ∑ i, (bs i).profitAt price := by
  have hcash : notional b.sells - notional b.buys =
      ∑ i, (notional (bs i).sells - notional (bs i).buys) := by
    simp only [notional, Finset.sum_sub_distrib, Fin.sum_univ_def]
    rw [value_perm id hbuys, value_perm id hsells, value_flatMap, value_flatMap]
  rw [profitAt_eq, hcash, held_merge hbuys hsells, Finset.sum_mul, ← Finset.sum_add_distrib]
  exact Finset.sum_congr rfl fun i _ => ((bs i).profitAt_eq price).symm

end Merge

/-! ### Buying and selling -/

/-- Append a buy. -/
def buy (b : Book K) (q p : K) (hq : 0 < q) (hp : 0 < p) : Book K where
  buys := b.buys ++ [(q, p)]
  sells := b.sells
  buys_positive := by simpa using ⟨b.buys_positive, hq⟩
  prices_positive := by
    intro s hs
    rcases List.mem_append.1 hs with hs | hs
    · exact b.prices_positive s hs
    · rw [List.mem_singleton.1 hs]; exact hp
  sells_positive := b.sells_positive
  covered := by simpa using b.covered.trans (le_add_of_nonneg_right hq.le)

/-- Append a sell that the held quantity covers. -/
def sell (b : Book K) (q p : K) (hq : 0 < q) (h : q ≤ b.held) : Book K where
  buys := b.buys
  sells := b.sells ++ [(q, p)]
  buys_positive := b.buys_positive
  prices_positive := b.prices_positive
  sells_positive := by simpa using ⟨b.sells_positive, hq⟩
  covered := by
    rw [weight_append, weight_cons, weight_nil, add_zero]
    exact le_sub_iff_add_le'.1 h

section Steps

variable (b : Book K) {q p : K} (hq : 0 < q)

theorem openLots_buy (hp : 0 < p) : (b.buy q p hq hp).openLots = b.openLots ++ [(q, p)] :=
  drop_append b.buys_positive (by simpa using hq) b.sold_nonneg b.covered

theorem held_buy (hp : 0 < p) : (b.buy q p hq hp).held = b.held + q := by
  simp only [held, buy, weight_append, weight_cons, weight_nil]
  ring

theorem realized_buy (hp : 0 < p) : (b.buy q p hq hp).realized = b.realized := by
  have ht : take (weight b.sells) (b.buys ++ [(q, p)]) = take (weight b.sells) b.buys :=
    take_append b.buys_positive (by simpa using hq) b.sold_nonneg b.covered
  simp only [realized, buy, ht]

variable (h : q ≤ b.held)

theorem weight_sells_sell : weight (b.sell q p hq h).sells = weight b.sells + q := by
  simp [sell]

theorem openLots_sell : (b.sell q p hq h).openLots = drop q b.openLots := by
  rw [openLots, weight_sells_sell, openLots, drop_drop b.buys_positive b.sold_nonneg hq.le]
  rfl

theorem held_sell : (b.sell q p hq h).held = b.held - q := by
  rw [held, weight_sells_sell, held]
  simp only [sell]
  ring

include hq h in
theorem weight_fills : weight (b.fills q) = q :=
  weight_take b.openLots_positive hq.le (by rwa [weight_openLots])

/-- A sell realizes its proceeds minus the cost of its fills. -/
theorem realized_sell :
    (b.sell q p hq h).realized = b.realized + (q * p - notional (b.fills q)) := by
  have ht : notional (take (weight b.sells + q) b.buys) =
      notional (take (weight b.sells) b.buys) + notional (b.fills q) :=
    value_take_add id b.buys_positive b.sold_nonneg hq.le
  rw [realized, weight_sells_sell, realized]
  simp only [sell, notional_append, notional_cons, notional_nil, ht]
  ring

/-- The same amount, fill by fill. -/
theorem realized_sell_fills : (b.sell q p hq h).realized =
    b.realized + ((b.fills q).map fun s => s.1 * p - s.1 * s.2).sum := by
  rw [realized_sell, sum_gain, weight_fills b hq h]

end Steps

/-! ### Orders -/

end Book

/-- A trade as the book sees it: a side, a positive quantity and a positive price. -/
structure Order (K : Type*) [CommRing K] [LinearOrder K] where
  isBuy : Bool
  quantity : K
  price : K
  quantity_pos : 0 < quantity
  price_pos : 0 < price

namespace Book

variable {K : Type*} [CommRing K] [LinearOrder K] [IsStrictOrderedRing K]

/-- Every buy is accepted, and a sell that the held quantity covers. -/
def Accepts (b : Book K) (o : Order K) : Prop := o.isBuy = true ∨ o.quantity ≤ b.held

instance (b : Book K) (o : Order K) : Decidable (b.Accepts o) :=
  inferInstanceAs (Decidable (_ ∨ _))

/-- One order: a refused sell changes nothing. -/
def step (b : Book K) (o : Order K) : Book K :=
  if o.isBuy then b.buy o.quantity o.price o.quantity_pos o.price_pos
  else if h : o.quantity ≤ b.held then b.sell o.quantity o.price o.quantity_pos h
  else b

/-- What an accepted order is matched with. -/
def fillsOf (b : Book K) (o : Order K) : List (K × K) :=
  if o.isBuy then [] else b.fills o.quantity

theorem step_buy (b : Book K) {o : Order K} (h : o.isBuy = true) :
    b.step o = b.buy o.quantity o.price o.quantity_pos o.price_pos := if_pos h

theorem step_sell (b : Book K) {o : Order K} (h : o.isBuy = false) (hq : o.quantity ≤ b.held) :
    b.step o = b.sell o.quantity o.price o.quantity_pos hq := by
  rw [step, if_neg (by simp [h]), dif_pos hq]

theorem step_refused (b : Book K) {o : Order K} (h : ¬ b.Accepts o) : b.step o = b := by
  obtain ⟨h1, h2⟩ := not_or.1 h
  rw [step, if_neg h1, dif_neg h2]

theorem buys_step (b : Book K) (o : Order K) :
    (b.step o).buys = if o.isBuy then b.buys ++ [(o.quantity, o.price)] else b.buys := by
  unfold step
  split_ifs <;> rfl

theorem sells_step (b : Book K) (o : Order K) :
    (b.step o).sells = if o.isBuy = false ∧ o.quantity ≤ b.held then
      b.sells ++ [(o.quantity, o.price)] else b.sells := by
  unfold step
  split_ifs with h1 h2 h2 h2 <;> simp_all [buy, sell]

end Book
end CryptoAccounting

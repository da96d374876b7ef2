import CryptoAccounting.Ledger.Overflow
import CryptoAccounting.Lib.AnyOrder

/-!
# `GET /pnl` and the order of the map

`total_unrealized_pnl` goes through a `HashMap` and adds up what it finds, in the order in which the
map yields it, over 96-bit decimals. It stops at the first asset without a price and at the first
overflow, and every sum is rounded. `unrealizedLoop_items` reduces the loop to a fold over what each
position contributes; `pnl_hashOrder` says when all orders have the same outcome.
-/

namespace CryptoAccounting
namespace Ledger

open DecimalOps AnyOrder

/-! ### What a position contributes -/

/-- The unrealized PnL of a position can be computed at this price. -/
def FigureFits (pos : Position Dec) (price : Dec) : Prop :=
  CostFits pos.values ∧ Fits (pos.totalQuantity.val * price.val) ∧
    Fits (rounded (pos.totalQuantity.val * price.val) - roundedCost pos.values)

instance (lots : List (ℚ × ℚ)) : Decidable (CostFits lots) := inferInstanceAs (Decidable (_ ∧ _))

instance (pos : Position Dec) (price : Dec) : Decidable (FigureFits pos price) :=
  inferInstanceAs (Decidable (_ ∧ _ ∧ _))

/-- What the loop finds at a position. -/
inductive Item
  | closed
  | unpriced
  | overflow
  | figure (x : ℚ)
  deriving DecidableEq

/-- The item of a stored position, at the engine's prices. -/
def itemOf (engine : PricingEngine Dec) (e : Σ _ : String, Position Dec) : Item :=
  if e.2.totalQuantity = 0 then .closed
  else
    match engine e.1 with
    | none => .unpriced
    | some price =>
      if FigureFits e.2 price then .figure (roundedUnrealized e.2 price) else .overflow

/-- Why there is no total. -/
inductive Stop
  | missingPrice
  | panic
  deriving DecidableEq

/-- A sum that does not fit is a panic. -/
def ofSum : Option ℚ → Except Stop ℚ
  | none => .error .panic
  | some total => .ok total

theorem ofSum_injective : Function.Injective ofSum := by
  intro a b h
  cases a with
  | none =>
    cases b with
    | none => rfl
    | some y => cases h
  | some x =>
    cases b with
    | none => cases h
    | some y =>
      cases h
      rfl

/-- What an item does to the running total. -/
def Item.add (total : ℚ) : Item → Except Stop ℚ
  | .closed => .ok total
  | .unpriced => .error .missingPrice
  | .overflow => .error .panic
  | .figure x => ofSum (addRounded total x)

/-- The outcome of `total_unrealized_pnl`: a value, an error whatever asset it names, or a panic. -/
def pnlOutcome : Except Panic (Except (TradeError Dec) Dec) → Except Stop ℚ
  | .error _ => .error .panic
  | .ok (.error _) => .error .missingPrice
  | .ok (.ok total) => .ok total.val

/-- An open position with a price: its figure is added, or something overflows. -/
theorem addFigure_outcome {pos : Position Dec} {price total : Dec}
    {k : Dec → Except Panic (Except (TradeError Dec) Dec)} {next : ℚ → Except Stop ℚ}
    (hk : ∀ d, pnlOutcome (k d) = next d.val) :
    pnlOutcome (pos.unrealizedPnl price >>= fun u => add total u.unrealizedPnl >>= k) =
      Item.add total.val
          (if FigureFits pos price then .figure (roundedUnrealized pos price) else .overflow) >>=
        next := by
  have hu := returns_unrealizedPnl pos price
  by_cases hfits : FigureFits pos price
  · obtain ⟨u, hok, hval⟩ := hu.exists_ok hfits
    have hadd := returns_add total u.unrealizedPnl
    rw [hval] at hadd
    rw [hok, ok_bind, if_pos hfits, Item.add, addRounded]
    by_cases hsum : Fits (total.val + roundedUnrealized pos price)
    · obtain ⟨d, hd, hdval⟩ := hadd.exists_ok hsum
      rw [hd, ok_bind, if_pos hsum, ofSum, ok_bind, ← hdval]
      exact hk d
    · obtain ⟨panic, hpanic⟩ := hadd.exists_error hsum
      rw [hpanic, if_neg hsum]
      rfl
  · obtain ⟨panic, hpanic⟩ := hu.exists_error hfits
    rw [hpanic, if_neg hfits]
    rfl

/-- **The loop** is a fold over the items. -/
theorem unrealizedLoop_items (engine : PricingEngine Dec) (l : List (Σ _ : String, Position Dec))
    (total : Dec) :
    pnlOutcome (Portfolio.unrealizedLoop engine l total) =
      (l.map (itemOf engine)).foldlM Item.add total.val := by
  induction l generalizing total with
  | nil => rfl
  | cons e rest ih =>
    obtain ⟨asset, pos⟩ := e
    rw [List.map_cons, List.foldlM_cons, Portfolio.unrealizedLoop, itemOf]
    by_cases hzero : pos.totalQuantity = 0
    · rw [if_pos hzero, if_pos hzero]
      exact ih total
    · rw [if_neg hzero, if_neg hzero]
      cases hprice : engine asset with
      | none => rfl
      | some price => exact addFigure_outcome ih

/-! ### Runs over items -/

/-- The figure of an item that has one. -/
def Item.figure? : Item → Option ℚ
  | .figure x => some x
  | _ => none

theorem Item.eq_figure {i : Item} {x : ℚ} (h : i.figure? = some x) : i = .figure x := by
  cases i with
  | figure y =>
    cases h
    rfl
  | _ => cases h

theorem filterMap_figure (x : ℚ) (rest : List Item) :
    (Item.figure x :: rest).filterMap Item.figure? = x :: rest.filterMap Item.figure? := rfl

theorem filterMap_map_figure (l : List ℚ) : (l.map Item.figure).filterMap Item.figure? = l := by
  rw [List.filterMap_map]
  exact List.filterMap_some

/-- The figures that are added up. -/
def figures (items : Multiset Item) : Multiset ℚ := items.filterMap Item.figure?

section Runs

variable {items : List Item}

/-- With a price for everything and no overflow in a figure, the outcome is that of the sum. -/
theorem foldlM_figures (hprice : .unpriced ∉ items) (hfits : .overflow ∉ items) (total : ℚ) :
    items.foldlM Item.add total =
      ofSum ((items.filterMap Item.figure?).foldlM addRounded total) := by
  induction items generalizing total with
  | nil => rfl
  | cons i rest ih =>
    rw [List.mem_cons, not_or] at hprice hfits
    rw [List.foldlM_cons]
    cases i with
    | closed => exact ih hprice.2 hfits.2 total
    | unpriced => exact absurd rfl hprice.1
    | overflow => exact absurd rfl hfits.1
    | figure x =>
      rw [filterMap_figure, List.foldlM_cons, Item.add]
      cases addRounded total x with
      | none => rfl
      | some sum => exact ih hprice.2 hfits.2 sum

/-- With a price for everything, a figure that overflows is reached, or the sum overflows before. -/
theorem foldlM_overflow (hprice : .unpriced ∉ items) (h : .overflow ∈ items) (total : ℚ) :
    items.foldlM Item.add total = .error .panic := by
  induction items generalizing total with
  | nil => cases h
  | cons i rest ih =>
    rw [List.mem_cons, not_or] at hprice
    rw [List.foldlM_cons]
    cases i with
    | closed => exact ih hprice.2 (by simpa using h) total
    | unpriced => exact absurd rfl hprice.1
    | overflow => rfl
    | figure x =>
      rw [Item.add]
      cases addRounded total x with
      | none => rfl
      | some sum => exact ih hprice.2 (by simpa using h) sum

/-- Without overflows an asset without a price is reached. -/
theorem foldlM_unpriced (hfits : .overflow ∉ items) (h : .unpriced ∈ items) {total : ℚ}
    (hsum : SumFits total (items.filterMap Item.figure?)) :
    items.foldlM Item.add total = .error .missingPrice := by
  induction items generalizing total with
  | nil => cases h
  | cons i rest ih =>
    rw [List.mem_cons, not_or] at hfits
    rw [List.foldlM_cons]
    cases i with
    | closed => exact ih hfits.2 (by simpa using h) hsum
    | unpriced => rfl
    | overflow => exact absurd rfl hfits.1
    | figure x =>
      rw [filterMap_figure] at hsum
      rw [Item.add, addRounded, if_pos hsum.1]
      exact ih hfits.2 (by simpa using h) hsum.2

end Runs

/-! ### All orders -/

/-- When the order does not matter. With an asset that has no price nothing may panic before it is
reached: no figure overflows, and no order of the figures does in a running sum. With a price for
every asset either some figure overflows, or exchanging the last two figures of a running sum does not
change it. -/
structure OrderSafe (items : Multiset Item) : Prop where
  unpriced : .unpriced ∈ items →
    .overflow ∉ items ∧ ∀ l : List ℚ, (l : Multiset ℚ) = figures items → SumFits 0 l
  priced : .unpriced ∉ items → .overflow ∈ items ∨ Swappable addRounded 0 (figures items)

theorem figures_coe (l : List Item) : figures (l : Multiset Item) = l.filterMap Item.figure? :=
  Multiset.filterMap_coe _ _

/-- The figures and the other items. -/
theorem figures_add_rest (items : Multiset Item) :
    (figures items).map Item.figure + items.filter (fun i => i.figure? = none) = items := by
  induction items using Multiset.induction with
  | empty => rfl
  | cons i items ih =>
    unfold figures at ih ⊢
    cases hi : i.figure? with
    | none =>
      rw [Multiset.filterMap_cons_none _ _ hi,
        Multiset.filter_cons_of_pos (p := fun i : Item => i.figure? = none) _ hi, Multiset.add_cons, ih]
    | some x =>
      rw [Multiset.filterMap_cons_some _ _ _ hi, Multiset.filter_cons_of_neg _ (by simp [hi]),
        Multiset.map_cons, Multiset.cons_add, ih, Item.eq_figure hi]

/-- The items can come in an order that begins with the figures, in any order of these. -/
theorem exists_figures_first {items : Multiset Item} {l : List ℚ}
    (h : (l : Multiset ℚ) = figures items) :
    ∃ rest : List Item, ((l.map Item.figure ++ rest : List Item) : Multiset Item) = items ∧
      rest.filterMap Item.figure? = [] := by
  refine ⟨(items.filter fun i => i.figure? = none).toList, ?_, ?_⟩
  · rw [← Multiset.coe_add, Multiset.coe_toList, ← Multiset.map_coe, h]
    exact figures_add_rest items
  · refine List.filterMap_eq_nil_iff.2 fun i hi => ?_
    exact (Multiset.mem_filter.1 (Multiset.mem_toList.1 hi)).2

/-- Any item can come first. -/
theorem exists_first {items : Multiset Item} {i : Item} (h : i ∈ items) :
    ∃ rest : List Item, ((i :: rest : List Item) : Multiset Item) = items := by
  obtain ⟨t, rfl⟩ := Multiset.exists_cons_of_mem h
  refine ⟨t.toList, ?_⟩
  rw [← Multiset.cons_coe, Multiset.coe_toList]

/-- A run that begins with figures. -/
theorem foldlM_map_figure (l : List ℚ) (total : ℚ) :
    (l.map Item.figure).foldlM Item.add total = ofSum (l.foldlM addRounded total) := by
  rw [foldlM_figures (by simp) (by simp), filterMap_map_figure]

/-- In a safe portfolio all orders have the same outcome. -/
theorem OrderSafe.agree {items : Multiset Item} (h : OrderSafe items) :
    Agree Item.add 0 items := by
  intro l l' hl hl'
  by_cases hprice : .unpriced ∈ items
  · obtain ⟨hfits, hsums⟩ := h.unpriced hprice
    have hmissing : ∀ k : List Item, (k : Multiset Item) = items →
        k.foldlM Item.add 0 = .error .missingPrice := by
      rintro k rfl
      exact foldlM_unpriced hfits hprice (hsums _ (figures_coe k).symm)
    rw [hmissing l hl, hmissing l' hl']
  by_cases hover : .overflow ∈ items
  · have hpanic : ∀ k : List Item, (k : Multiset Item) = items →
        k.foldlM Item.add 0 = .error .panic := by
      rintro k rfl
      exact foldlM_overflow hprice hover 0
    rw [hpanic l hl, hpanic l' hl']
  · have hsum : ∀ k : List Item, (k : Multiset Item) = items → k.foldlM Item.add 0 =
        ofSum ((k.filterMap Item.figure?).foldlM addRounded 0) := by
      rintro k rfl
      exact foldlM_figures hprice hover 0
    have hfigures : ∀ k : List Item, (k : Multiset Item) = items →
        ((k.filterMap Item.figure? : List ℚ) : Multiset ℚ) = figures items := by
      rintro k rfl
      exact (figures_coe k).symm
    have hswap := (h.priced hprice).resolve_left hover
    rw [hsum l hl, hsum l' hl', hswap.agree _ _ (hfigures l hl) (hfigures l' hl')]

/-- With a price for everything and no overflow in a figure, the sums of the figures agree when the
outcomes do. -/
theorem agree_figures {items : Multiset Item} (h : Agree Item.add 0 items)
    (hprice : .unpriced ∉ items) (hover : .overflow ∉ items) :
    Agree addRounded 0 (figures items) := by
  have hsum : ∀ l : List ℚ, (l : Multiset ℚ) = figures items →
      ∃ k : List Item, (k : Multiset Item) = items ∧
        k.foldlM Item.add 0 = ofSum (l.foldlM addRounded 0) := by
    intro l hl
    obtain ⟨rest, hk, hrest⟩ := exists_figures_first hl
    refine ⟨_, hk, ?_⟩
    rw [← hk] at hprice hover
    rw [foldlM_figures hprice hover, List.filterMap_append, filterMap_map_figure, hrest,
      List.append_nil]
  intro l l' hl hl'
  obtain ⟨k, hk, hrun⟩ := hsum l hl
  obtain ⟨k', hk', hrun'⟩ := hsum l' hl'
  exact ofSum_injective (hrun.symm.trans ((h k k' hk hk').trans hrun'))

/-- The first two figures can always be exchanged. -/
theorem addRounded_pair {x y : ℚ} (hx : Representable x) (hy : Representable y) :
    [x, y].foldlM addRounded 0 = [y, x].foldlM addRounded 0 := by
  have hpair : ∀ {a : ℚ} (b : ℚ), Representable a → [a, b].foldlM addRounded 0 = addRounded a b := by
    intro a b ha
    have hfirst : addRounded 0 a = some a := by
      rw [addRounded, zero_add, if_pos (fits_of_representable ha), rounded_of_representable ha]
    simp [hfirst]
  rw [hpair y hx, hpair x hy, addRounded, addRounded, add_comm]

/-- With an asset that has no price, and with at most three figures, orders agree only if they are
safe. -/
theorem OrderSafe.of_agree {items : Multiset Item} (h : Agree Item.add 0 items)
    (hdecimal : ∀ x ∈ figures items, Representable x)
    (hfew : .unpriced ∈ items ∨ (figures items).card ≤ 3) : OrderSafe items where
  unpriced := by
    intro hprice
    obtain ⟨rest, hrest⟩ := exists_first hprice
    have hmissing : ∀ k : List Item, (k : Multiset Item) = items →
        k.foldlM Item.add 0 = .error .missingPrice := fun k hk => h k _ hk hrest
    constructor
    · intro hover
      obtain ⟨rest', hrest'⟩ := exists_first hover
      cases hmissing _ hrest'
    · intro l hl
      by_contra hsum
      obtain ⟨rest', hrest', -⟩ := exists_figures_first hl
      have hrun := hmissing _ hrest'
      rw [List.foldlM_append, foldlM_map_figure, foldlM_addRounded, if_neg hsum] at hrun
      cases hrun
  priced := by
    intro hprice
    rw [or_iff_not_imp_left]
    intro hover
    refine (agree_figures h hprice hover).swappable (hfew.resolve_left hprice) ?_
    intro x hx y hy
    exact addRounded_pair (hdecimal x hx) (hdecimal y hy)

/-! ### Sums that are not rounded -/

/-- If every sum of some of the values is a decimal, the running sum is exact. -/
theorem foldlM_exact (l : List ℚ) (h : ∀ t ≤ (l : Multiset ℚ), Representable t.sum) :
    l.foldlM addRounded 0 = some l.sum := by
  induction l using List.reverseRecOn with
  | nil => rfl
  | append_singleton l x ih =>
    have hle : (l : Multiset ℚ) ≤ ((l ++ [x] : List ℚ) : Multiset ℚ) :=
      Multiset.coe_le.2 (List.sublist_append_left l [x]).subperm
    have hsum : Representable (l.sum + x) := by
      simpa using h _ (le_refl _)
    rw [List.foldlM_append, ih fun t ht => h t (ht.trans hle), List.sum_append, List.sum_singleton]
    show [x].foldlM addRounded l.sum = some (l.sum + x)
    rw [List.foldlM_cons, addRounded, if_pos (fits_of_representable hsum),
      rounded_of_representable hsum]
    rfl

/-- **Exact sums.** The order does not matter where no figure overflows and every sum of some of the
figures is a decimal. -/
theorem OrderSafe.of_exact {items : Multiset Item} (hover : .overflow ∉ items)
    (hexact : ∀ t ≤ figures items, Representable t.sum) : OrderSafe items where
  unpriced := by
    intro _
    refine ⟨hover, fun l hl => ?_⟩
    have hrun := foldlM_exact l fun t ht => hexact t (hl ▸ ht)
    rw [foldlM_addRounded] at hrun
    by_contra hsum
    rw [if_neg hsum] at hrun
    cases hrun
  priced := by
    intro _
    refine .inr fun l x y hle => ?_
    have hperm : ((l ++ [y, x] : List ℚ) : Multiset ℚ) = ((l ++ [x, y] : List ℚ) : Multiset ℚ) :=
      Multiset.coe_eq_coe.2 ((List.Perm.swap x y []).append_left l)
    rw [foldlM_exact _ fun t ht => hexact t (ht.trans hle),
      foldlM_exact _ fun t ht => hexact t (ht.trans (hperm ▸ hle))]
    rw [← Multiset.sum_coe, ← Multiset.sum_coe, hperm]

/-! ### The endpoint -/

/-- What the positions of a portfolio contribute. -/
def Portfolio.items (p : Portfolio Dec) (engine : PricingEngine Dec) : Multiset Item :=
  p.positions.entries.map (itemOf engine)

/-- Any two iteration orders have the same outcome. -/
def OrderIndependent (p : Portfolio Dec) (engine : PricingEngine Dec) : Prop :=
  ∀ order order' : p.IterOrder, pnlOutcome (p.totalUnrealizedPnl order engine) =
    pnlOutcome (p.totalUnrealizedPnl order' engine)

theorem orderIndependent_iff (p : Portfolio Dec) (engine : PricingEngine Dec) :
    OrderIndependent p engine ↔ Agree Item.add 0 (p.items engine) := by
  rw [Portfolio.items, agree_map]
  have hrun : ∀ order : p.IterOrder, pnlOutcome (p.totalUnrealizedPnl order engine) =
      (order.1.map (itemOf engine)).foldlM Item.add 0 :=
    fun order => unrealizedLoop_items engine order.1 0
  constructor
  · intro h l l' hl hl'
    exact (hrun ⟨l, hl⟩).symm.trans ((h ⟨l, hl⟩ ⟨l', hl'⟩).trans (hrun ⟨l', hl'⟩))
  · intro h order order'
    rw [hrun, hrun]
    exact h order.1 order'.1 order.2 order'.2

theorem representable_rounded (x : ℚ) : Representable (rounded x) := by
  unfold rounded
  cases h : fitFrom x 28 with
  | none => exact representable_zero
  | some y => exact representable_of_fitFrom (le_refl 28) h

/-- Every figure is a decimal. -/
theorem representable_of_mem_figures {p : Portfolio Dec} {engine : PricingEngine Dec} {x : ℚ}
    (h : x ∈ figures (p.items engine)) : Representable x := by
  obtain ⟨i, hi, hx⟩ := (Multiset.mem_filterMap _ _).1 h
  obtain ⟨e, -, rfl⟩ := Multiset.mem_map.1 hi
  have hitem := Item.eq_figure hx
  unfold itemOf at hitem
  split_ifs at hitem
  split at hitem
  · cases hitem
  · split_ifs at hitem
    cases hitem
    exact representable_rounded _

/-- **The order of the map.** For every portfolio, reachable or not, and all prices: if the items are
safe, all iteration orders have the same outcome. With an asset that has no price, and with at most
three figures, they have it only then. -/
theorem pnl_hashOrder (p : Portfolio Dec) (engine : PricingEngine Dec) :
    (OrderSafe (p.items engine) → OrderIndependent p engine) ∧
      (.unpriced ∈ p.items engine ∨ (figures (p.items engine)).card ≤ 3 →
        OrderIndependent p engine → OrderSafe (p.items engine)) := by
  rw [orderIndependent_iff]
  constructor
  · intro h
    exact h.agree
  · intro hfew h
    exact .of_agree h (fun x hx => representable_of_mem_figures hx) hfew

/-! ### Reachable portfolios -/

/-- The portfolios that `apply_trade` reaches on trades that `Trade::new` has built. -/
inductive Reached : Portfolio Dec → Prop
  | new : Reached Portfolio.new
  | trade {p p' : Portfolio Dec} {t : Trade Dec}
      {r : Except (TradeError Dec) (List (RealizedPnL Dec))} (h : Reached p)
      (hbuilt : Trade.new t.id t.asset t.quantity t.price t.timestamp t.side = .ok t)
      (happly : p.applyTrade t = .ok (r, p')) : Reached p'

/-- The entry of an asset that was bought once. -/
def boughtOnce (asset : String) (quantity price : Dec) : Σ _ : String, Position Dec :=
  ⟨asset, { asset, lots := [{ quantity, costPerUnit := price }], totalQuantity := quantity }⟩

/-- The first buy of an asset. -/
def Portfolio.buyFirst (p : Portfolio Dec) (asset : String) (quantity price : Dec) : Portfolio Dec :=
  { p with positions := p.positions.insert asset (boughtOnce asset quantity price).2 }

theorem Reached.buyFirst {p : Portfolio Dec} (h : Reached p) {asset : String} {quantity price : Dec}
    (hnew : p.positions.lookup asset = none) (hquantity : 0 < quantity) (hprice : 0 < price) :
    Reached (p.buyFirst asset quantity price) := by
  have hadd : add (0 : Dec) quantity = .ok quantity := by
    refine ofRat_eq_ok_iff.2 ?_
    rw [Dec.val_zero, zero_add]
    exact ⟨fits_of_representable quantity.2, (rounded_of_representable quantity.2).symm⟩
  have hbuilt : Trade.new 0 asset quantity price 0 .buy =
      .ok (⟨0, asset, quantity, price, 0, .buy⟩ : Trade Dec) := by
    unfold Trade.new
    rw [if_neg hquantity.not_ge, if_neg hprice.not_ge]
  refine .trade (t := ⟨0, asset, quantity, price, 0, .buy⟩) (r := .ok []) h hbuilt ?_
  unfold Portfolio.applyTrade
  simp only [hnew, Option.getD_none, Position.addLot, Position.new, hadd, ok_bind, pure_eq_ok]
  rfl

/-- `7 * 10 ^ 28 + 1`. -/
def large : Dec := Dec.ofNat (7 * 10 ^ 28 + 1) (by decide)

/-- One. -/
def single : Dec := Dec.ofNat 1 one_lt_mantissaBound

/-- One single each of three assets: BTC and SOL for 1, ETH for `7 * 10 ^ 28 + 1`. -/
def threeUnits : Portfolio Dec :=
  ((Portfolio.new.buyFirst "BTC" single single).buyFirst "ETH" single large).buyFirst "SOL" single single

theorem reached_threeUnits : Reached threeUnits := by
  have hpos : 0 < single ∧ 0 < large := by decide +kernel
  exact ((Reached.new.buyFirst rfl hpos.1 hpos.1).buyFirst rfl hpos.1 hpos.2).buyFirst rfl hpos.1 hpos.1

/-- Prices at which the units have gained 1, 2 and 0.5. -/
def steady : PricingEngine Dec
  | "BTC" => some (Dec.ofNat 2 (by decide))
  | "ETH" => some (Dec.ofNat (7 * 10 ^ 28 + 3) (by decide))
  | "SOL" => some (Dec.tenths 15 (by decide))
  | _ => none

/-- Every sum of these gains has one decimal place. -/
theorem steady_in_any_order : OrderIndependent threeUnits steady := by
  refine (pnl_hashOrder threeUnits steady).1 (.of_exact (by decide +kernel) ?_)
  have hfigures : figures (threeUnits.items steady) = {1 / 2, 2, 1} := by decide +kernel
  have htenths : ∀ t ∈ Multiset.powerset ({1 / 2, 2, 1} : Multiset ℚ), ∃ n < 100, t.sum = (n : ℕ) / 10 := by
    decide +kernel
  intro t ht
  obtain ⟨n, hn, hsum⟩ := htenths t (Multiset.mem_powerset.2 (hfigures ▸ ht))
  rw [hsum]
  exact (Dec.tenths n (by unfold mantissaBound; omega)).representable

/-- Prices at which the units have gained `7 * 10 ^ 28`, lost as much, and gained `0.5`. -/
def swung : PricingEngine Dec
  | "BTC" => some large
  | "ETH" => some single
  | "SOL" => some (Dec.tenths 15 (by decide))
  | _ => none

/-- Added to the gain, the half is rounded away; added after the loss, it is the total. -/
theorem half_depends_on_order :
    ¬ ∀ p : Portfolio Dec, Reached p → ∀ engine, OrderIndependent p engine := by
  intro h
  let btc := boughtOnce "BTC" single single
  let eth := boughtOnce "ETH" single large
  let sol := boughtOnce "SOL" single single
  have hentries : threeUnits.positions.entries = [sol, eth, btc] := rfl
  have hbetween : ([btc, sol, eth] : Multiset (Σ _ : String, Position Dec)) = [sol, eth, btc] :=
    Multiset.coe_eq_coe.2 (List.perm_append_singleton btc [sol, eth]).symm
  have hlast : ([btc, eth, sol] : Multiset (Σ _ : String, Position Dec)) = [sol, eth, btc] :=
    Multiset.coe_eq_coe.2 (List.reverse_perm [sol, eth, btc])
  have hsame := h threeUnits reached_threeUnits swung
    ⟨[btc, sol, eth], hbetween.trans hentries.symm⟩ ⟨[btc, eth, sol], hlast.trans hentries.symm⟩
  have hzero : pnlOutcome (Portfolio.unrealizedLoop swung [btc, sol, eth] 0) = .ok 0 := by
    decide +kernel
  have hhalf : pnlOutcome (Portfolio.unrealizedLoop swung [btc, eth, sol] 0) = .ok (1 / 2) := by
    decide +kernel
  exact absurd (Except.ok.inj (hzero.symm.trans (hsame.trans hhalf))) (by norm_num)

end Ledger
end CryptoAccounting

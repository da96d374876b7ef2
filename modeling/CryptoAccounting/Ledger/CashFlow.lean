import CryptoAccounting.Ledger.Matching
import CryptoAccounting.Ledger.Services

/-!
# PnL and cash flow

`GetPnLService` over a reachable portfolio, in exact arithmetic. The loop over the positions ends
with an error exactly when an open position has no price, and otherwise adds up market value minus
cost (`unrealizedLoop_exact`). With the conservation law of the books this gives
`pnl_reconciles`: realized PnL is the cash flow plus the cost of the open lots, and the total is
the cash flow plus the market value of what is held.
-/

namespace CryptoAccounting
namespace Ledger

open Segments DecimalOps

/-! ### Sums over positions and over trades -/

/-- Sum of quantity × price over the trades of one side. -/
def notionalOf (side : TradeSide) (ts : List (ValidTrade ℚ)) : ℚ :=
  (ts.map fun t => if t.side = side then t.quantity * t.price else 0).sum

/-- Total cost of the open lots of a position. -/
def Position.openCost (pos : Position ℚ) : ℚ :=
  (pos.lots.map fun l => l.quantity * l.costPerUnit).sum

/-- Sum of quantity × cost over all open lots of the portfolio. -/
def Portfolio.openCost (p : Portfolio ℚ) : ℚ := (p.positions.entries.map fun e => e.2.openCost).sum

/-- The assets that occur in a list of trades. -/
def assetsOf (ts : List (ValidTrade ℚ)) : Finset String := (ts.map ValidTrade.asset).toFinset

theorem Position.Refines.openCost {pos : Position ℚ} {b : Book ℚ} (h : pos.Refines b) :
    pos.openCost = notional b.openLots := by
  rw [← h.lots, notional, value, List.map_map]
  rfl

/-- Summed over its assets, the notional of one side is the notional of all its trades. -/
theorem sum_notional_tradesOf (side : TradeSide) (ts : List (ValidTrade ℚ)) {S : Finset String}
    (hS : ∀ t ∈ ts, t.asset ∈ S) :
    ∑ a ∈ S, notional (tradesOf side a ts) = notionalOf side ts := by
  induction ts with
  | nil => simp [tradesOf, notionalOf]
  | cons t ts ih =>
    have hcons : ∀ a, notional (tradesOf side a (t :: ts)) =
        (if t.asset = a then if t.side = side then t.quantity * t.price else 0 else 0) +
          notional (tradesOf side a ts) := by
      intro a
      by_cases ha : t.asset = a <;> by_cases hs : t.side = side <;> simp [tradesOf, ha, hs]
    rw [Finset.sum_congr rfl fun a _ => hcons a, Finset.sum_add_distrib,
      ih fun t' ht' => hS t' (List.mem_cons_of_mem _ ht'), Finset.sum_ite_eq,
      if_pos (hS t List.mem_cons_self)]
    simp [notionalOf]

/-- A sum over the entries of the map, as a sum over its keys. -/
theorem sum_entries {m : Finmap fun _ : String => Position ℚ} {f : Position ℚ → ℚ}
    {g : String → ℚ} (h : ∀ a pos, m.lookup a = some pos → f pos = g a) :
    (m.entries.map fun e => f e.2).sum = ∑ a ∈ m.keys, g a := by
  have hkeys : m.keys.val = m.entries.map Sigma.fst := rfl
  rw [Finset.sum, hkeys, Multiset.map_map]
  refine congrArg Multiset.sum (Multiset.map_congr rfl fun e he => ?_)
  exact h e.1 e.2 (Finmap.mem_lookup_iff.2 he)

section Reachable

variable {p : Portfolio ℚ} {books : Books}

theorem Portfolio.IterOrder.mem_iff (order : p.IterOrder) {e : Σ _ : String, Position ℚ} :
    e ∈ order.1 ↔ p.positions.lookup e.1 = some e.2 :=
  order.mem_entries.trans Finmap.mem_lookup_iff.symm

theorem Portfolio.Refines.openCost (h : p.Refines books) :
    p.openCost = ∑ a ∈ p.positions.keys, notional (books a).openLots :=
  sum_entries fun a pos hpos => (h.position a pos hpos).2.openCost

/-- An asset that was traded has a position. -/
theorem Portfolio.Refines.mem_keys (h : p.Refines books) {a : String}
    (ha : books a ≠ Book.empty) : a ∈ p.positions.keys := by
  by_contra hna
  rw [Finmap.mem_keys] at hna
  exact ha (h.absent a (Finmap.lookup_eq_none.2 hna))

/-! ### The unrealized loop -/

theorem costBasis_exact (pos : Position ℚ) : pos.costBasis = .ok pos.openCost := by
  have h := foldlM_add_exact (fun l : Lot ℚ => l.quantity * l.costPerUnit) pos.lots 0
  rw [zero_add] at h
  exact h

theorem unrealizedPnl_exact (pos : Position ℚ) (price : ℚ) : pos.unrealizedPnl price =
    .ok ⟨pos.asset, pos.totalQuantity, pos.openCost, pos.totalQuantity * price,
      pos.totalQuantity * price - pos.openCost⟩ := by
  simp [Position.unrealizedPnl, costBasis_exact]

/-- What an entry adds to the unrealized total. -/
def unrealizedTerm (engine : PricingEngine ℚ) (e : Σ _ : String, Position ℚ) : ℚ :=
  e.2.totalQuantity * (engine e.1).getD 0 - e.2.openCost

/-- The loop fails exactly when an open position has no price, and otherwise adds up the terms of
all positions: a position without units has no lots, so its term is zero. -/
theorem unrealizedLoop_exact (engine : PricingEngine ℚ) (l : List (Σ _ : String, Position ℚ))
    (total : ℚ) (h : ∀ e ∈ l, e.2.totalQuantity = 0 → e.2.lots = []) :
    if ∀ e ∈ l, e.2.totalQuantity ≠ 0 → (engine e.1).isSome then
      Portfolio.unrealizedLoop engine l total =
        .ok (.ok (total + (l.map (unrealizedTerm engine)).sum))
    else
      ∃ e, Portfolio.unrealizedLoop engine l total = .ok (.error e) := by
  induction l generalizing total with
  | nil => simp [Portfolio.unrealizedLoop]
  | cons e l ih =>
    obtain ⟨a, pos⟩ := e
    have hl : ∀ e ∈ l, e.2.totalQuantity = 0 → e.2.lots = [] :=
      fun e he => h e (List.mem_cons_of_mem _ he)
    rw [Portfolio.unrealizedLoop]
    by_cases h0 : pos.totalQuantity = 0
    -- The loop skips the position, whose term is zero whatever the price.
    · have hcost : unrealizedTerm engine ⟨a, pos⟩ = 0 := by
        have hlots := h ⟨a, pos⟩ List.mem_cons_self h0
        simp only at hlots
        simp [unrealizedTerm, Position.openCost, h0, hlots]
      simp only [h0, if_true, List.forall_mem_cons, ne_eq, not_true_eq_false, false_implies,
        true_and, List.map_cons, List.sum_cons, hcost, zero_add]
      exact ih total hl
    · cases hprice : engine a with
      | none => simp [h0, hprice]
      | some price =>
        have hterm : unrealizedTerm engine ⟨a, pos⟩ = pos.totalQuantity * price - pos.openCost := by
          simp [unrealizedTerm, hprice]
        simp only [h0, if_false, List.forall_mem_cons, ne_eq, not_false_eq_true, forall_const,
          hprice, Option.isSome_some, true_and, List.map_cons, List.sum_cons, hterm,
          unrealizedPnl_exact, ok_bind, add_exact, ← add_assoc]
        exact ih (total + (pos.totalQuantity * price - pos.openCost)) hl

theorem Portfolio.Refines.lots_eq_nil (h : p.Refines books) (order : p.IterOrder) :
    ∀ e ∈ order.1, e.2.totalQuantity = 0 → e.2.lots = [] := by
  intro e he h0
  obtain ⟨-, href⟩ := h.position e.1 e.2 (order.mem_iff.1 he)
  have hlots := href.lots
  rw [(Book.openLots_eq_nil_iff _).2 (href.total ▸ h0)] at hlots
  exact List.map_eq_nil_iff.1 hlots

/-- The iteration order does not matter for which positions are open and priced. -/
theorem Portfolio.Refines.priced_iff (h : p.Refines books) (order : p.IterOrder)
    (engine : PricingEngine ℚ) :
    (∀ e ∈ order.1, e.2.totalQuantity ≠ 0 → (engine e.1).isSome) ↔
      ∀ a, 0 < (books a).held → (engine a).isSome := by
  constructor
  · intro hall a ha
    cases hl : p.positions.lookup a with
    | none => rw [h.absent a hl, Book.held_empty] at ha; exact absurd ha (lt_irrefl 0)
    | some pos =>
      refine hall ⟨a, pos⟩ (order.mem_iff.2 hl) ?_
      rw [(h.position a pos hl).2.total]
      exact ha.ne'
  · intro hall e he h0
    obtain ⟨-, href⟩ := h.position e.1 e.2 (order.mem_iff.1 he)
    rw [href.total] at h0
    exact hall e.1 (lt_of_le_of_ne (Book.held_nonneg _) (Ne.symm h0))

/-- The sum of the terms in any iteration order. -/
theorem Portfolio.Refines.sum_terms (h : p.Refines books) (order : p.IterOrder)
    (engine : PricingEngine ℚ) : (order.1.map (unrealizedTerm engine)).sum =
      ∑ a ∈ p.positions.keys, (books a).held * (engine a).getD 0 - p.openCost := by
  have hsum : (order.1.map (unrealizedTerm engine)).sum =
      (p.positions.entries.map (unrealizedTerm engine)).sum := by
    have hentries := congrArg (fun m => (m.map (unrealizedTerm engine)).sum) order.2
    simpa only [Multiset.map_coe, Multiset.sum_coe] using hentries
  have hheld : (p.positions.entries.map fun e => e.2.totalQuantity * (engine e.1).getD 0).sum =
      ∑ a ∈ p.positions.keys, (books a).held * (engine a).getD 0 := by
    have hkeys : p.positions.keys.val = p.positions.entries.map Sigma.fst := rfl
    rw [Finset.sum, hkeys, Multiset.map_map]
    refine congrArg Multiset.sum (Multiset.map_congr rfl fun e he => ?_)
    rw [(h.position e.1 e.2 (Finmap.mem_lookup_iff.2 he)).2.total]
    rfl
  rw [hsum, ← hheld, Portfolio.openCost, ← Multiset.sum_map_sub]
  rfl

/-- With a price for every open position `GetPnL` returns the two totals and their sum. -/
theorem getPnl_priced (h : p.Refines books) (order : p.IterOrder) {req : PnLRequest ℚ}
    (hpriced : ∀ a, 0 < (books a).held → (req.prices.lookup a).isSome) :
    GetPnL.execute p order req = .ok (.ok ⟨p.totalRealizedPnl,
      (order.1.map (unrealizedTerm fun asset => req.prices.lookup asset)).sum,
      p.totalRealizedPnl +
        (order.1.map (unrealizedTerm fun asset => req.prices.lookup asset)).sum⟩) := by
  have hloop := unrealizedLoop_exact (fun asset => req.prices.lookup asset) order.1 0
    (h.lots_eq_nil order)
  rw [if_pos ((h.priced_iff order _).2 hpriced), zero_add] at hloop
  unfold GetPnL.execute Portfolio.totalUnrealizedPnl
  rw [hloop]
  rfl

/-- Without it, `GetPnL` is an error. -/
theorem getPnl_unpriced (h : p.Refines books) (order : p.IterOrder) {req : PnLRequest ℚ}
    (hunpriced : ¬ ∀ a, 0 < (books a).held → (req.prices.lookup a).isSome) :
    ∃ e, GetPnL.execute p order req = .ok (.error e) := by
  have hloop := unrealizedLoop_exact (fun asset => req.prices.lookup asset) order.1 0
    (h.lots_eq_nil order)
  rw [if_neg fun hc => hunpriced ((h.priced_iff order _).1 hc)] at hloop
  obtain ⟨e, he⟩ := hloop
  unfold GetPnL.execute Portfolio.totalUnrealizedPnl
  rw [he]
  exact ⟨_, rfl⟩

end Reachable

/-! ### Reconciliation -/

theorem asset_mem_keys {p : Portfolio ℚ} {ts : List (ValidTrade ℚ)} (h : p.Refines (booksAfter ts))
    {t : ValidTrade ℚ} (ht : t ∈ accepted ts (resultsOf ts)) : t.asset ∈ p.positions.keys := by
  refine h.mem_keys fun hempty => ?_
  have hb : [] = tradesOf .buy t.asset (accepted ts (resultsOf ts)) := by
    exact (congrArg Book.buys hempty).symm.trans (buys_booksAfter ts t.asset)
  have hs : [] = tradesOf .sell t.asset (accepted ts (resultsOf ts)) := by
    exact (congrArg Book.sells hempty).symm.trans (sells_booksAfter ts t.asset)
  have hmem : (t.quantity, t.price) ∈ tradesOf t.side t.asset (accepted ts (resultsOf ts)) :=
    List.mem_filterMap.2 ⟨t, ht, by simp⟩
  cases hside : t.side with
  | buy => rw [hside, ← hb] at hmem; cases hmem
  | sell => rw [hside, ← hs] at hmem; cases hmem

theorem totalRealized_eq {p : Portfolio ℚ} {ts : List (ValidTrade ℚ)}
    (h : p.Refines (booksAfter ts)) : p.totalRealizedPnl =
      notionalOf .sell (accepted ts (resultsOf ts)) - notionalOf .buy (accepted ts (resultsOf ts)) +
        p.openCost := by
  rw [h.realized, h.openCost, ← sum_notional_tradesOf .sell _ fun t ht => asset_mem_keys h ht,
    ← sum_notional_tradesOf .buy _ fun t ht => asset_mem_keys h ht, ← Finset.sum_sub_distrib,
    ← Finset.sum_add_distrib]
  refine Finset.sum_congr rfl fun a _ => ?_
  rw [Book.realized_eq, buys_booksAfter, sells_booksAfter]

theorem sum_market_value {p : Portfolio ℚ} {ts : List (ValidTrade ℚ)} (h : p.Refines (booksAfter ts))
    (price : String → ℚ) : ∑ a ∈ p.positions.keys, (booksAfter ts a).held * price a =
      ∑ a ∈ assetsOf (accepted ts (resultsOf ts)),
        available a (accepted ts (resultsOf ts)) * price a := by
  rw [Finset.sum_congr rfl fun a _ => by rw [held_booksAfter]]
  refine (Finset.sum_subset ?_ fun a _ ha => ?_).symm
  · intro a ha
    obtain ⟨t, ht, rfl⟩ := List.mem_map.1 (List.mem_toFinset.1 ha)
    exact asset_mem_keys h ht
  · -- An asset without accepted trades holds nothing.
    have hnil : ∀ side, tradesOf side a (accepted ts (resultsOf ts)) = [] := by
      intro side
      refine List.filterMap_eq_nil_iff.2 fun t ht => if_neg fun hc => ha ?_
      exact List.mem_toFinset.2 (List.mem_map.2 ⟨t, ht, hc.1⟩)
    simp [available, hnil]

/-- **PnL reconciles with cash flow.** After any run and for every price map, `GetPnL` succeeds
exactly when every asset with more bought than sold has a price; then the realized total is
proceeds minus outlay plus the cost of the open lots, and the total is proceeds minus outlay plus
the market value of the net holdings. -/
theorem pnl_reconciles (ts : List (ValidTrade ℚ)) :
    ∃ p rs, Portfolio.new.applyAll ts = .ok (p, rs) ∧
      ∀ (order : p.IterOrder) (req : PnLRequest ℚ), ∃ r, GetPnL.execute p order req = .ok r ∧
        (r.isOk = true ↔ ∀ a, weight (sellsOf a (accepted ts rs)) < weight (buysOf a (accepted ts rs)) →
          (req.prices.lookup a).isSome) ∧
        ∀ resp, r = .ok resp →
          resp.totalRealized =
            notionalOf .sell (accepted ts rs) - notionalOf .buy (accepted ts rs) + p.openCost ∧
          resp.total =
            notionalOf .sell (accepted ts rs) - notionalOf .buy (accepted ts rs) +
              ∑ a ∈ assetsOf (accepted ts rs),
                available a (accepted ts rs) * (req.prices.lookup a).getD 0 := by
  obtain ⟨p, hall, href⟩ := applyAll_new ts
  refine ⟨p, resultsOf ts, hall, fun order req => ?_⟩
  have hpriced : (∀ a, weight (sellsOf a (accepted ts (resultsOf ts))) <
      weight (buysOf a (accepted ts (resultsOf ts))) → (req.prices.lookup a).isSome) ↔
        ∀ a, 0 < (booksAfter ts a).held → (req.prices.lookup a).isSome := by
    refine forall_congr' fun a => ?_
    rw [held_booksAfter, available, sub_pos]
  rw [hpriced]
  by_cases hall' : ∀ a, 0 < (booksAfter ts a).held → (req.prices.lookup a).isSome
  · rw [getPnl_priced href order hall']
    refine ⟨_, rfl, ⟨fun _ => hall', fun _ => rfl⟩, fun resp hresp => ?_⟩
    cases hresp
    refine ⟨totalRealized_eq href, ?_⟩
    simp only
    rw [href.sum_terms order, totalRealized_eq href, sum_market_value href]
    ring
  · obtain ⟨e, he⟩ := getPnl_unpriced href order hall'
    rw [he]
    refine ⟨_, rfl, ⟨fun hc => (Bool.false_ne_true hc).elim, fun hc => absurd hc hall'⟩, ?_⟩
    rintro resp ⟨⟩

end Ledger
end CryptoAccounting

import CryptoAccounting.Ledger.CashFlow

/-!
# The two reports

`GetPortfolioService` and `GetPnLService` over the same reachable portfolio, in exact arithmetic. The
first takes the cached total of a position and divides its cost by it, the second adds up cost and
market value over the lots; the first keeps the positions with a total above zero, the second skips
those with a total of zero. `getPortfolio_exact` says what the first returns in any iteration order;
`reports_agree` sets it beside the second.
-/

namespace CryptoAccounting
namespace Ledger

open Segments Tables DecimalOps

/-! ### The portfolio report -/

/-- The line of a position, in exact arithmetic. -/
def Position.line (pos : Position ℚ) : PositionResponse ℚ where
  asset := pos.asset
  quantity := pos.totalQuantity
  averageCost := if pos.totalQuantity = 0 then none else some (pos.openCost / pos.totalQuantity)

theorem positionResponse_exact (pos : Position ℚ) : PositionResponse.of pos = .ok pos.line := by
  unfold PositionResponse.of Position.averageCost Position.line
  by_cases h0 : pos.totalQuantity = 0
  · simp [h0]
  · have hdiv : div pos.openCost pos.totalQuantity = .ok (pos.openCost / pos.totalQuantity) :=
      if_neg h0
    simp [h0, costBasis_exact, hdiv]

/-- The positions with a total above zero, in iteration order. -/
def Portfolio.IterOrder.opened {p : Portfolio ℚ} (order : p.IterOrder) : List (Position ℚ) :=
  (order.1.map Sigma.snd).filter fun pos => 0 < pos.totalQuantity

section Reachable

variable {p : Portfolio ℚ} {books : Books}

theorem Portfolio.Refines.mem_opened (h : p.Refines books) (order : p.IterOrder)
    {pos : Position ℚ} : pos ∈ order.opened ↔
      p.positions.lookup pos.asset = some pos ∧ 0 < pos.totalQuantity := by
  unfold Portfolio.IterOrder.opened
  rw [List.mem_filter, decide_eq_true_eq]
  refine and_congr_left fun _ => ?_
  constructor
  · intro hpos
    obtain ⟨e, he, rfl⟩ := List.mem_map.1 hpos
    have hl := order.mem_iff.1 he
    rwa [(h.position e.1 e.2 hl).1]
  · intro hl
    exact List.mem_map.2 ⟨⟨pos.asset, pos⟩, order.mem_iff.2 hl, rfl⟩

/-- No two positions of the map have the same asset. -/
theorem Portfolio.Refines.nodup_opened (h : p.Refines books) (order : p.IterOrder) :
    (order.opened.map Position.asset).Nodup := by
  have hkeys : order.1.NodupKeys := by
    rw [← Multiset.coe_nodupKeys, order.2]
    exact p.positions.nodupKeys
  have hassets : (order.1.map Sigma.snd).map Position.asset = order.1.map Sigma.fst := by
    rw [List.map_map]
    exact List.map_congr_left fun e he => (h.position e.1 e.2 (order.mem_iff.1 he)).1
  have hsub : (order.opened.map Position.asset).Sublist (order.1.map Sigma.fst) := by
    rw [← hassets]
    exact List.filter_sublist.map _
  exact List.Nodup.sublist hsub hkeys

/-- **The portfolio report**, in any iteration order: the lines of the open positions, in strictly
ascending order of their assets. -/
theorem getPortfolio_exact (h : p.Refines books) (order : p.IterOrder) :
    ∃ lines, GetPortfolio.execute p order = .ok ⟨lines, p.totalRealizedPnl⟩ ∧
      lines.Perm (order.opened.map Position.line) ∧
      lines.Pairwise fun x y => x.asset < y.asset := by
  have hmap : order.opened.mapM PositionResponse.of = .ok (order.opened.map Position.line) := by
    rw [show PositionResponse.of = fun pos : Position ℚ => pure pos.line from
      funext positionResponse_exact, List.mapM_pure]
    rfl
  have hperm := List.mergeSort_perm (order.opened.map Position.line)
    fun a b => decide (a.asset ≤ b.asset)
  refine ⟨_, ?_, hperm, ?_⟩
  · unfold GetPortfolio.execute
    rw [← Portfolio.IterOrder.opened, hmap]
    rfl
  · have hsorted := pairwise_mergeSort_of (R := fun a b : PositionResponse ℚ => a.asset ≤ b.asset)
      (fun _ _ _ => String.le_trans) (fun a b => String.le_total a.asset b.asset)
      (order.opened.map Position.line)
    have hnodup := h.nodup_opened order
    have hassets : order.opened.map Position.asset =
        (order.opened.map Position.line).map PositionResponse.asset := by
      rw [List.map_map]
      rfl
    rw [hassets, ← (hperm.map _).nodup_iff, List.Nodup, List.pairwise_map] at hnodup
    refine (hsorted.and hnodup).imp fun hab => String.not_le.1 fun hba => hab.2 ?_
    exact String.le_antisymm hab.1 hba

section Lines

variable {order : p.IterOrder} {lines : List (PositionResponse ℚ)}
  (hlines : lines.Perm (order.opened.map Position.line))

include hlines

theorem Portfolio.Refines.mem_lines (h : p.Refines books) {line : PositionResponse ℚ} :
    line ∈ lines ↔ ∃ pos, p.positions.lookup pos.asset = some pos ∧ 0 < pos.totalQuantity ∧
      pos.line = line := by
  simp only [hlines.mem_iff, List.mem_map, h.mem_opened order, and_assoc]

/-- The assets on the report are those of which something is held. -/
theorem Portfolio.Refines.listed_iff (h : p.Refines books) {a : String} :
    a ∈ lines.map PositionResponse.asset ↔ 0 < (books a).held := by
  rw [List.mem_map]
  constructor
  · rintro ⟨line, hmem, rfl⟩
    obtain ⟨pos, hpos, hopen, rfl⟩ := (h.mem_lines hlines).1 hmem
    rwa [(h.position _ _ hpos).2.total] at hopen
  · intro hopen
    cases hl : p.positions.lookup a with
    | none =>
      rw [h.absent a hl, Book.held_empty] at hopen
      exact absurd hopen (lt_irrefl 0)
    | some pos =>
      obtain ⟨rfl, hpos⟩ := h.position a pos hl
      exact ⟨pos.line, (h.mem_lines hlines).2 ⟨pos, hl, hpos.total ▸ hopen, rfl⟩, rfl⟩

end Lines

/-! ### The average cost -/

/-- `c` lies between the smallest and the largest cost of the lots. -/
def BetweenCosts (lots : List (Lot ℚ)) (c : ℚ) : Prop :=
  ∃ lo ∈ lots, ∃ hi ∈ lots,
    (∀ l ∈ lots, lo.costPerUnit ≤ l.costPerUnit ∧ l.costPerUnit ≤ hi.costPerUnit) ∧
      lo.costPerUnit ≤ c ∧ c ≤ hi.costPerUnit

/-- The average cost is the mean of the lots' costs, weighted with their quantities. -/
theorem Position.Refines.averageCost {pos : Position ℚ} {b : Book ℚ} (h : pos.Refines b)
    (hopen : 0 < pos.totalQuantity) :
    BetweenCosts pos.lots (pos.openCost / pos.totalQuantity) := by
  have hpositive : Positive (pos.lots.map Lot.pair) := by
    rw [h.lots]
    exact b.openLots_positive
  have hweight : weight (pos.lots.map Lot.pair) = pos.totalQuantity := by
    rw [h.lots, Book.weight_openLots, h.total]
  have hvalue : value id (pos.lots.map Lot.pair) = pos.openCost := by
    rw [h.openCost, h.lots]
    rfl
  have hne : pos.lots.toFinset.Nonempty := by
    rw [List.toFinset_nonempty_iff]
    rintro hnil
    rw [hnil] at hweight
    exact hopen.ne hweight
  obtain ⟨lo, hlo, hmin⟩ := pos.lots.toFinset.exists_min_image Lot.costPerUnit hne
  obtain ⟨hi, hhi, hmax⟩ := pos.lots.toFinset.exists_max_image Lot.costPerUnit hne
  simp only [List.mem_toFinset] at hlo hmin hhi hmax
  refine ⟨lo, hlo, hi, hhi, fun l hl => ⟨hmin l hl, hmax l hl⟩, ?_, ?_⟩
  · rw [le_div_iff₀ hopen, mul_comm, ← hweight, ← hvalue]
    exact weight_mul_le_value hpositive (by simpa [Lot.pair] using hmin)
  · rw [div_le_iff₀ hopen, mul_comm, ← hweight, ← hvalue]
    exact value_le_weight_mul hpositive (by simpa [Lot.pair] using hmax)

/-! ### The unrealized total -/

/-- What a line is worth above its cost, at the price of its asset. -/
def unrealizedOf (engine : PricingEngine ℚ) (line : PositionResponse ℚ) : ℚ :=
  line.quantity * ((engine line.asset).getD 0 - line.averageCost.getD 0)

theorem Portfolio.Refines.unrealizedOf_line (h : p.Refines books) (engine : PricingEngine ℚ)
    {e : Σ _ : String, Position ℚ} (he : p.positions.lookup e.1 = some e.2) :
    unrealizedOf engine e.2.line = unrealizedTerm engine e := by
  obtain ⟨hasset, href⟩ := h.position e.1 e.2 he
  unfold unrealizedOf unrealizedTerm Position.line
  rw [hasset]
  by_cases h0 : e.2.totalQuantity = 0
  · have hlots : e.2.lots = [] := (href.consistent hasset).zero_iff.1 h0
    simp [h0, Position.openCost, hlots]
  · simp only [if_neg h0, Option.getD_some]
    rw [mul_sub, mul_div_cancel₀ _ h0]

/-- The lines add up to the terms of `total_unrealized_pnl`, in any two iteration orders. -/
theorem Portfolio.Refines.sum_lines (h : p.Refines books) (order order' : p.IterOrder)
    (engine : PricingEngine ℚ) :
    ((order.opened.map Position.line).map (unrealizedOf engine)).sum =
      (order'.1.map (unrealizedTerm engine)).sum := by
  have hperm : order.1.Perm order'.1 := Multiset.coe_eq_coe.1 (order.2.trans order'.2.symm)
  rw [← (hperm.map (unrealizedTerm engine)).sum_eq]
  have hterms : order.1.map (unrealizedTerm engine) =
      (order.1.map Sigma.snd).map fun pos => unrealizedOf engine pos.line := by
    rw [List.map_map]
    exact List.map_congr_left fun e he => (h.unrealizedOf_line engine (order.mem_iff.1 he)).symm
  rw [hterms, List.map_map, Portfolio.IterOrder.opened]
  refine sum_filter fun pos hpos hclosed => ?_
  obtain ⟨e, he, rfl⟩ := List.mem_map.1 hpos
  have hnonneg : 0 ≤ e.2.totalQuantity := by
    obtain ⟨hasset, href⟩ := h.position e.1 e.2 (order.mem_iff.1 he)
    exact (href.consistent hasset).nonneg
  have h0 : e.2.totalQuantity = 0 := le_antisymm (by simpa using hclosed) hnonneg
  simp [unrealizedOf, Position.line, h0]

end Reachable

/-! ### Both reports -/

/-- **The two reports agree.** After any run, `GET /portfolio` lists exactly the assets of which more
was bought than sold, each once and in ascending order, with that quantity and an average cost between
the smallest and the largest cost of the open lots. For every price map over them, `GET /pnl` returns
the sum of quantity × (price − average cost) over these lines, and the same realized total. -/
theorem reports_agree (ts : List (ValidTrade ℚ)) :
    ∃ p rs, Portfolio.new.applyAll ts = .ok (p, rs) ∧ ∀ order : p.IterOrder,
      ∃ r, GetPortfolio.execute p order = .ok r ∧
        (∀ a, a ∈ r.positions.map PositionResponse.asset ↔ 0 < available a (accepted ts rs)) ∧
        (r.positions.Pairwise fun x y => x.asset < y.asset) ∧
        (∀ line ∈ r.positions, line.quantity = available line.asset (accepted ts rs) ∧
          ∃ c, line.averageCost = some c ∧ BetweenCosts (p.lotsOf line.asset) c) ∧
        ∀ (order' : p.IterOrder) (req : PnLRequest ℚ),
          (∀ line ∈ r.positions, (req.prices.lookup line.asset).isSome) →
            ∃ resp, GetPnL.execute p order' req = .ok (.ok resp) ∧
              resp.totalUnrealized = (r.positions.map fun line => line.quantity *
                ((req.prices.lookup line.asset).getD 0 - line.averageCost.getD 0)).sum ∧
              resp.totalRealized = r.totalRealizedPnl := by
  obtain ⟨p, hall, href⟩ := applyAll_new ts
  refine ⟨p, resultsOf ts, hall, fun order => ?_⟩
  obtain ⟨lines, hexec, hlines, hsorted⟩ := getPortfolio_exact href order
  refine ⟨_, hexec, fun a => ?_, hsorted, fun line hmem => ?_, fun order' req hprices => ?_⟩
  · rw [← held_booksAfter]
    exact href.listed_iff hlines
  · obtain ⟨pos, hpos, hopen, rfl⟩ := (href.mem_lines hlines).1 hmem
    obtain ⟨-, hbook⟩ := href.position _ _ hpos
    have hlots : p.lotsOf pos.line.asset = pos.lots := by
      unfold Portfolio.lotsOf
      rw [show p.positions.lookup pos.line.asset = some pos from hpos]
      rfl
    refine ⟨hbook.total.trans (held_booksAfter ts _), _, if_neg hopen.ne', ?_⟩
    rw [hlots]
    exact hbook.averageCost hopen
  · have hpriced : ∀ a, 0 < (booksAfter ts a).held → (req.prices.lookup a).isSome := by
      intro a ha
      obtain ⟨line, hmem, rfl⟩ := List.mem_map.1 ((href.listed_iff hlines).2 ha)
      exact hprices line hmem
    refine ⟨_, getPnl_priced href order' hpriced, ?_, rfl⟩
    rw [← href.sum_lines order order', ← (hlines.map _).sum_eq]
    rfl

end Ledger
end CryptoAccounting

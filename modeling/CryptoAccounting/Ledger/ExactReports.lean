import CryptoAccounting.Ledger.Exact
import CryptoAccounting.Ledger.Reports

/-!
# The two reports over 96-bit decimals

In a portfolio that the room covers, `GET /pnl` over decimals is `GET /pnl` over their values, in every
iteration order, as long as the room also bounds the market value of what is held. `GET /portfolio`
divides, so its average costs are rounded; they are the exact averages, each rounded once, and the rest
of the report is exact (`reports_exact`).
-/

namespace CryptoAccounting
namespace Ledger

open DecimalOps Segments

/-! ### Reports under a map of their decimals -/

section Maps

variable {D E : Type} (f : D → E)

def PnLRequest.map (req : PnLRequest D) : PnLRequest E := ⟨req.prices.mapValues f⟩

def PnLResponse.map (resp : PnLResponse D) : PnLResponse E :=
  ⟨f resp.totalRealized, f resp.totalUnrealized, f resp.total⟩

/-- The total of `total_unrealized_pnl` under the map. -/
def mapTotal : Except (TradeError D) D → Except (TradeError E) E
  | .error e => .error (e.map f)
  | .ok d => .ok (f d)

def PositionResponse.map (line : PositionResponse D) : PositionResponse E :=
  ⟨line.asset, f line.quantity, line.averageCost.map f⟩

def PortfolioResponse.map (resp : PortfolioResponse D) : PortfolioResponse E :=
  ⟨resp.positions.map (PositionResponse.map f), f resp.totalRealizedPnl⟩

end Maps

/-- The same iteration order over the portfolio of the values. -/
def Portfolio.IterOrder.values {p : Portfolio Dec} (order : p.IterOrder) :
    (p.map Dec.val).IterOrder :=
  ⟨order.1.map (Finmap.mapEntry (Position.map Dec.val)), by
    rw [← Multiset.map_coe, order.2]
    rfl⟩

variable {room : Room} {pos : Position Dec}

/-! ### One position -/

theorem openCost_map (pos : Position Dec) : (pos.map Dec.val).openCost = lotsCost pos.lots := by
  unfold Position.openCost lotsCost Position.map
  rw [List.map_map]
  rfl

/-- The running cost of lots on the places of the room is not rounded. -/
theorem foldlM_cost_exactly {lots : List (Lot Dec)} (h : ∀ l ∈ lots, OnPlaces room l) (acc : Dec)
    (hmem : acc.val ∈ room.values) (h0 : 0 ≤ acc.val) (hle : acc.val + lotsCost lots ≤ room.valueMax) :
    ∃ d : Dec, lots.foldlM (fun total l => mul l.quantity l.costPerUnit >>= add total) acc = .ok d ∧
      d.val = acc.val + lotsCost lots := by
  induction lots generalizing acc with
  | nil => exact ⟨acc, rfl, by simp [lotsCost]⟩
  | cons l lots ih =>
    obtain ⟨hl, hlots⟩ := List.forall_mem_cons.1 h
    have hcons : lotsCost (l :: lots) = l.quantity.val * l.costPerUnit.val + lotsCost lots := by
      simp [lotsCost]
    have hrest := lotsCost_nonneg hlots
    have hcost : 0 < l.quantity.val * l.costPerUnit.val := mul_pos hl.quantity_pos hl.cost_pos
    have hvalue : l.quantity.val * l.costPerUnit.val ∈ room.values :=
      mul_mem_places hl.quantity hl.cost
    rw [hcons] at hle ⊢
    have hmul : Representable (l.quantity.val * l.costPerUnit.val) :=
      Room.representable_value hvalue (by rw [abs_of_pos hcost]; linarith)
    have hadd : Representable (acc.val + l.quantity.val * l.costPerUnit.val) :=
      Room.representable_value (add_mem hmem hvalue) (by rw [abs_of_nonneg] <;> linarith)
    obtain ⟨d, hd, hval⟩ := ih hlots ⟨_, hadd⟩ (add_mem hmem hvalue)
      (show 0 ≤ acc.val + l.quantity.val * l.costPerUnit.val by linarith)
      (show acc.val + l.quantity.val * l.costPerUnit.val + lotsCost lots ≤ room.valueMax by linarith)
    refine ⟨d, ?_, ?_⟩
    · rw [List.foldlM_cons, mul_exactly hmul, ok_bind, add_exactly hadd, ok_bind, hd]
    · rw [hval, add_assoc]

theorem costBasis_exactly (h : pos.Covered room) :
    ∃ d : Dec, pos.costBasis = .ok d ∧ d.val = lotsCost pos.lots := by
  obtain ⟨d, hd, hval⟩ := foldlM_cost_exactly h.lots 0 (zero_mem _) (le_refl _)
    (by rw [Dec.val_zero, zero_add]; exact h.cost)
  exact ⟨d, hd, by rw [hval, Dec.val_zero, zero_add]⟩

theorem Position.Covered.total_mem (h : pos.Covered room) :
    pos.totalQuantity.val ∈ room.quantities := by
  rw [h.total]
  exact lotsQuantity_mem h.lots

theorem Position.Covered.total_nonneg (h : pos.Covered room) : 0 ≤ pos.totalQuantity.val := by
  rw [h.total]
  exact lotsQuantity_nonneg h.lots

theorem Position.Covered.cost_mem (h : pos.Covered room) : lotsCost pos.lots ∈ room.values := by
  refine AddSubgroup.list_sum_mem _ fun x hx => ?_
  obtain ⟨l, hl, rfl⟩ := List.mem_map.1 hx
  exact mul_mem_places (h.lots l hl).quantity (h.lots l hl).cost

/-- The unrealized PnL of a position whose market value the room bounds as well. -/
theorem unrealizedPnl_exactly {price : Dec} (h : pos.Covered room) (hp : price.val ∈ room.prices)
    (hle : pos.totalQuantity.val * |price.val| + lotsCost pos.lots ≤ room.valueMax) :
    ∃ u, pos.unrealizedPnl price = .ok u ∧
      u.unrealizedPnl.val = pos.totalQuantity.val * price.val - lotsCost pos.lots := by
  obtain ⟨cost, hcost, hval⟩ := costBasis_exactly h
  have hcost0 : 0 ≤ lotsCost pos.lots := lotsCost_nonneg h.lots
  have habs : |pos.totalQuantity.val * price.val| = pos.totalQuantity.val * |price.val| := by
    rw [abs_mul, abs_of_nonneg h.total_nonneg]
  have hmem : pos.totalQuantity.val * price.val ∈ room.values := mul_mem_places h.total_mem hp
  have hmarket : Representable (pos.totalQuantity.val * price.val) :=
    Room.representable_value hmem (by rw [habs]; linarith)
  have hsub : Representable (pos.totalQuantity.val * price.val - cost.val) := by
    rw [hval]
    refine Room.representable_value (sub_mem hmem h.cost_mem) ((abs_sub _ _).trans ?_)
    rw [habs, abs_of_nonneg hcost0]
    exact hle
  refine ⟨⟨pos.asset, pos.totalQuantity, cost, ⟨_, hmarket⟩, ⟨_, hsub⟩⟩, ?_, ?_⟩
  · unfold Position.unrealizedPnl
    rw [hcost, ok_bind, mul_exactly hmarket, ok_bind]
    show sub (⟨_, hmarket⟩ : Dec) cost >>= _ = _
    rw [sub_exactly hsub]
    rfl
  · show pos.totalQuantity.val * price.val - cost.val = _
    rw [hval]

/-! ### The unrealized total -/

/-- The prices have the places of the room and do not exceed `P`. -/
structure Priced (room : Room) (P : ℚ) (engine : PricingEngine Dec) : Prop where
  nonneg : 0 ≤ P
  places : ∀ a price, engine a = some price → price.val ∈ room.prices
  bounded : ∀ a price, engine a = some price → |price.val| ≤ P

/-- A bound on the market value and the cost of an entry together. -/
def stake (P : ℚ) (e : Σ _ : String, Position Dec) : ℚ :=
  e.2.totalQuantity.val * P + lotsCost e.2.lots

variable {P : ℚ} {engine : PricingEngine Dec}

theorem stake_nonneg (hP : 0 ≤ P) (a : String) (h : pos.Covered room) : 0 ≤ stake P ⟨a, pos⟩ :=
  add_nonneg (mul_nonneg h.total_nonneg hP) (lotsCost_nonneg h.lots)

theorem sum_stakes_nonneg (hP : 0 ≤ P) {l : List (Σ _ : String, Position Dec)}
    (hl : ∀ e ∈ l, e.2.Covered room) : 0 ≤ (l.map (stake P)).sum := by
  refine List.sum_nonneg fun x hx => ?_
  obtain ⟨e, he, rfl⟩ := List.mem_map.1 hx
  exact stake_nonneg hP e.1 (hl e he)

/-- One round of the loop over decimals: the next total is exact, and within the old one and the
stake of the entry. -/
theorem addUnrealized_exactly (hprices : Priced room P engine) {a : String} {price total : Dec}
    (h : pos.Covered room) (hprice : engine a = some price) (hmem : total.val ∈ room.values)
    (hle : |total.val| + stake P ⟨a, pos⟩ ≤ room.valueMax) :
    ∃ u, pos.unrealizedPnl price = .ok u ∧
      u.unrealizedPnl.val = pos.totalQuantity.val * price.val - lotsCost pos.lots ∧
      ∃ next, add total u.unrealizedPnl = .ok next ∧ next.val = total.val + u.unrealizedPnl.val ∧
        next.val ∈ room.values ∧ |next.val| ≤ |total.val| + stake P ⟨a, pos⟩ := by
  have hplaces := hprices.places a price hprice
  have hmarket : pos.totalQuantity.val * |price.val| ≤ pos.totalQuantity.val * P :=
    mul_le_mul_of_nonneg_left (hprices.bounded a price hprice) h.total_nonneg
  have hstake : stake P ⟨a, pos⟩ = pos.totalQuantity.val * P + lotsCost pos.lots := rfl
  have htotal0 := abs_nonneg total.val
  obtain ⟨u, hu, hval⟩ := unrealizedPnl_exactly h hplaces (by linarith)
  have hmem_u : u.unrealizedPnl.val ∈ room.values := by
    rw [hval]
    exact sub_mem (mul_mem_places h.total_mem hplaces) h.cost_mem
  have hgain : |u.unrealizedPnl.val| ≤ stake P ⟨a, pos⟩ := by
    rw [hval]
    refine (abs_sub _ _).trans ?_
    rw [abs_mul, abs_of_nonneg h.total_nonneg, abs_of_nonneg (lotsCost_nonneg h.lots)]
    linarith
  have hnext := abs_add_le total.val u.unrealizedPnl.val
  have hadd : Representable (total.val + u.unrealizedPnl.val) :=
    Room.representable_value (add_mem hmem hmem_u) (by linarith)
  exact ⟨u, hu, hval, ⟨_, hadd⟩, add_exactly hadd, rfl, add_mem hmem hmem_u, hnext.trans (by linarith)⟩

/-- **The loop** of `total_unrealized_pnl` over decimals is the loop over their values; it starts from
a total that leaves room for what the entries are worth. -/
theorem unrealizedLoop_map (hprices : Priced room P engine) {l : List (Σ _ : String, Position Dec)}
    (hl : ∀ e ∈ l, e.2.Covered room) (total : Dec) (hmem : total.val ∈ room.values)
    (hle : |total.val| + (l.map (stake P)).sum ≤ room.valueMax) :
    Portfolio.unrealizedLoop (fun a => (engine a).map Dec.val)
        (l.map (Finmap.mapEntry (Position.map Dec.val))) total.val =
      (Portfolio.unrealizedLoop engine l total).map (mapTotal Dec.val) ∧
    ∀ d, Portfolio.unrealizedLoop engine l total = .ok (.ok d) →
      d.val ∈ room.values ∧ |d.val| ≤ |total.val| + (l.map (stake P)).sum := by
  induction l generalizing total with
  | nil =>
    refine ⟨rfl, fun d hd => ?_⟩
    cases hd
    exact ⟨hmem, by simp⟩
  | cons e l ih =>
    obtain ⟨a, pos⟩ := e
    obtain ⟨hpos, hrest⟩ := List.forall_mem_cons.1 hl
    have hstake := stake_nonneg hprices.nonneg a hpos
    have hstakes := sum_stakes_nonneg hprices.nonneg hrest
    have hsum : ((⟨a, pos⟩ :: l).map (stake P)).sum = stake P ⟨a, pos⟩ + (l.map (stake P)).sum := by
      simp
    rw [hsum] at hle ⊢
    rw [List.map_cons, Finmap.mapEntry, Portfolio.unrealizedLoop, Portfolio.unrealizedLoop]
    by_cases h0 : pos.totalQuantity = 0
    · have h0' : (pos.map Dec.val).totalQuantity = 0 := Dec.ext_iff.1 h0
      rw [if_pos h0, if_pos h0']
      obtain ⟨hloop, hbound⟩ := ih hrest total hmem (by linarith)
      refine ⟨hloop, fun d hd => ⟨(hbound d hd).1, (hbound d hd).2.trans ?_⟩⟩
      linarith
    · have h0' : ¬ (pos.map Dec.val).totalQuantity = 0 := fun hc => h0 (Dec.ext hc)
      rw [if_neg h0, if_neg h0']
      cases hprice : engine a with
      | none => exact ⟨rfl, fun d hd => by cases hd⟩
      | some price =>
        obtain ⟨u, hu, hval, next, hadd, hnext, hmem', hle'⟩ :=
          addUnrealized_exactly hprices hpos hprice hmem (by linarith)
        obtain ⟨hloop, hbound⟩ := ih hrest next hmem' (by linarith)
        simp only [Option.map_some, hu, hadd, ok_bind]
        refine ⟨?_, fun d hd => ⟨(hbound d hd).1, (hbound d hd).2.trans (by linarith)⟩⟩
        rw [← hloop, unrealizedPnl_exact, ok_bind, openCost_map]
        show add total.val (pos.totalQuantity.val * price.val - lotsCost pos.lots) >>= _ = _
        rw [add_exact, ok_bind, hnext, hval]

/-! ### A covered portfolio -/

section Portfolio

variable {p : Portfolio Dec} {books : Books} {totalQuantity totalValue : ℚ}

theorem Portfolio.IterOrder.covered (href : (p.map Dec.val).Refines books)
    (hcov : books.Covered room totalQuantity totalValue) (hQ : totalQuantity ≤ room.quantityMax)
    (hV : totalValue ≤ room.valueMax) (order : p.IterOrder) : ∀ e ∈ order.1, e.2.Covered room := by
  intro e he
  have hl : (p.map Dec.val).positions.lookup e.1 = some (e.2.map Dec.val) := by
    rw [p.lookup_map, Finmap.mem_lookup_iff.2 (order.mem_entries.1 he)]
    rfl
  exact hcov.position hQ hV (href.position _ _ hl).2

/-- What is open and what has been realized keep within the turnover, in the middle of a report too. -/
theorem Books.Covered.sum_stakes (href : (p.map Dec.val).Refines books)
    (hcov : books.Covered room totalQuantity totalValue) (hP : 0 ≤ P) (order : p.IterOrder) :
    |p.totalRealizedPnl.val| + (order.1.map (stake P)).sum ≤ totalQuantity * P + totalValue := by
  have hstakes : (order.1.map (stake P)).sum =
      ∑ a ∈ (p.map Dec.val).positions.keys, ((books a).held * P + notional (books a).openLots) := by
    have hsum := sum_entries (m := (p.map Dec.val).positions)
      (f := fun pos => pos.totalQuantity * P + pos.openCost)
      (g := fun a => (books a).held * P + notional (books a).openLots) fun a pos hpos => by
        obtain ⟨-, hbook⟩ := href.position a pos hpos
        rw [hbook.total, hbook.openCost]
    rw [← hsum, ← order.values.2, Multiset.map_coe, Multiset.sum_coe]
    show _ = ((order.1.map _).map _).sum
    rw [List.map_map]
    refine congrArg List.sum (List.map_congr_left fun e _ => ?_)
    show _ = (e.2.map Dec.val).totalQuantity * P + (e.2.map Dec.val).openCost
    rw [openCost_map]
    rfl
  have hturnover := hcov.turnover (p.map Dec.val).positions.keys
  have hbought := hcov.bought (p.map Dec.val).positions.keys
  have hrealized : p.totalRealizedPnl.val = _ := href.realized
  have hflow := sum_realized_eq books (p.map Dec.val).positions.keys
  have hopen : ∑ a ∈ (p.map Dec.val).positions.keys, notional (books a).openLots ≤
      ∑ a ∈ (p.map Dec.val).positions.keys, notional (books a).buys := by
    refine Finset.sum_le_sum fun a _ => ?_
    have hsold := notional_sold_nonneg (books a)
    have hsplit := notional_sold_add_open (books a)
    linarith
  have hsells : 0 ≤ ∑ a ∈ (p.map Dec.val).positions.keys, notional (books a).sells :=
    Finset.sum_nonneg fun a _ => hcov.notional_sells_nonneg a
  have hheld : ∑ a ∈ (p.map Dec.val).positions.keys, (books a).held ≤ totalQuantity := by
    refine (Finset.sum_le_sum fun a _ => ?_).trans hbought
    have hsold := (books a).sold_nonneg
    rw [Book.held]
    linarith
  have hmarket := mul_le_mul_of_nonneg_right hheld hP
  rw [hstakes, Finset.sum_add_distrib, ← Finset.sum_mul, hrealized, hflow]
  rw [Finset.sum_add_distrib] at hturnover
  have habs : ∀ x y z : ℚ, 0 ≤ x → z ≤ y → |x - y + z| + z ≤ y + x := by
    intro x y z hx hz
    rcases abs_cases (x - y + z) with ⟨h, -⟩ | ⟨h, -⟩ <;> rw [h] <;> linarith
  have hbound := habs _ _ _ hsells hopen
  linarith

/-- **`GET /pnl`** over decimals is `GET /pnl` over their values. -/
theorem getPnl_map (href : (p.map Dec.val).Refines books)
    (hcov : books.Covered room totalQuantity totalValue) (hQ : totalQuantity ≤ room.quantityMax)
    (hV : totalQuantity * P + totalValue ≤ room.valueMax) (h0 : 0 ≤ totalQuantity)
    (order : p.IterOrder) {req : PnLRequest Dec}
    (hprices : Priced room P fun asset => req.prices.lookup asset) :
    GetPnL.execute (p.map Dec.val) order.values (req.map Dec.val) =
      (GetPnL.execute p order req).map (mapAnswer Dec.val (PnLResponse.map Dec.val)) := by
  have hstakes := hcov.sum_stakes href hprices.nonneg order
  have hP : 0 ≤ totalQuantity * P := mul_nonneg h0 hprices.nonneg
  have hrealized := abs_nonneg p.totalRealizedPnl.val
  obtain ⟨hloop, hbound⟩ := unrealizedLoop_map hprices (Portfolio.IterOrder.covered href hcov hQ
    (by linarith) order) 0 (zero_mem _) (by rw [Dec.val_zero, abs_zero]; linarith)
  have hengine : (fun asset => (req.map Dec.val).prices.lookup asset) =
      fun asset => (req.prices.lookup asset).map Dec.val := by
    funext asset
    exact Finmap.lookup_mapValues _ _ _
  unfold GetPnL.execute Portfolio.totalUnrealizedPnl
  rw [hengine]
  show Portfolio.unrealizedLoop _ (order.1.map (Finmap.mapEntry (Position.map Dec.val)))
    (0 : Dec).val >>= _ = _
  rw [hloop]
  cases hunrealized : Portfolio.unrealizedLoop (fun asset => req.prices.lookup asset) order.1 0 with
  | error e => rfl
  | ok r =>
    cases r with
    | error e => rfl
    | ok d =>
      obtain ⟨hmem, hle⟩ := hbound d hunrealized
      rw [Dec.val_zero, abs_zero, zero_add] at hle
      have htotal := abs_add_le p.totalRealizedPnl.val d.val
      have hadd : Representable (p.totalRealizedPnl.val + d.val) :=
        Room.representable_value (add_mem (hcov.realized_mem href) hmem) (by linarith)
      show _ = Except.map _ (add p.totalRealizedPnl d >>= _)
      rw [add_exactly hadd]
      show add (p.map Dec.val).totalRealizedPnl d.val >>= (fun total => Except.ok (Except.ok
        (⟨(p.map Dec.val).totalRealizedPnl, d.val, total⟩ : PnLResponse ℚ))) = _
      rw [add_exact]
      rfl

end Portfolio

/-! ### The portfolio report -/

/-- A line with its average cost rounded. -/
def PositionResponse.rounded (line : PositionResponse ℚ) : PositionResponse ℚ :=
  { line with averageCost := line.averageCost.map CryptoAccounting.rounded }

/-- A portfolio report with its average costs rounded. -/
def PortfolioResponse.rounded (resp : PortfolioResponse ℚ) : PortfolioResponse ℚ :=
  { resp with positions := resp.positions.map PositionResponse.rounded }

/-- The line of a covered position: the average is rounded once. -/
theorem positionResponse_rounded (h : pos.Covered room) {b : Book ℚ}
    (href : (pos.map Dec.val).Refines b) : ∃ line, PositionResponse.of pos = .ok line ∧
      line.map Dec.val = (pos.map Dec.val).line.rounded := by
  unfold PositionResponse.of Position.averageCost
  by_cases h0 : pos.totalQuantity = 0
  · have h0' : (pos.map Dec.val).totalQuantity = 0 := Dec.ext_iff.1 h0
    rw [if_pos h0]
    refine ⟨_, rfl, ?_⟩
    unfold Position.line PositionResponse.rounded
    rw [if_pos h0']
    rfl
  · have hne : pos.totalQuantity.val ≠ 0 := fun hc => h0 (Dec.ext hc)
    have hopen : 0 < (pos.map Dec.val).totalQuantity := lt_of_le_of_ne h.total_nonneg (Ne.symm hne)
    obtain ⟨cost, hcost, hval⟩ := costBasis_exactly h
    -- The average is at most the largest cost of a lot, which is a decimal.
    obtain ⟨lo, hlo, hi, hhi, -, hle, hge⟩ := href.averageCost hopen
    obtain ⟨lot, hlot, rfl⟩ := List.mem_map.1 hhi
    obtain ⟨lot', hlot', rfl⟩ := List.mem_map.1 hlo
    have havg : (pos.map Dec.val).openCost / (pos.map Dec.val).totalQuantity =
        cost.val / pos.totalQuantity.val := by
      rw [openCost_map, hval]
      rfl
    rw [havg] at hle hge
    have hlow : 0 < lot'.costPerUnit.val := (h.lots lot' hlot').cost_pos
    have hfits : Fits (cost.val / pos.totalQuantity.val) := by
      refine fits_of_abs_le lot.costPerUnit ?_
      rw [abs_of_pos (lt_of_lt_of_le hlow hle)]
      exact hge.trans (le_abs_self _)
    obtain ⟨d, hd⟩ := (returns_div cost pos.totalQuantity hne).1.2 hfits
    rw [if_neg h0, hcost, ok_bind, hd]
    refine ⟨_, rfl, ?_⟩
    unfold Position.line PositionResponse.rounded
    rw [if_neg hopen.ne', havg]
    show (⟨pos.asset, pos.totalQuantity.val, some d.val⟩ : PositionResponse ℚ) = _
    rw [(returns_div cost pos.totalQuantity hne).2 d hd]
    rfl

/-- A map that keeps the assets keeps the order of the lines. -/
theorem map_sort_lines {D E : Type} (f : PositionResponse D → PositionResponse E)
    (hf : ∀ line, (f line).asset = line.asset) (lines : List (PositionResponse D)) :
    (lines.mergeSort fun a b => decide (a.asset ≤ b.asset)).map f =
      (lines.map f).mergeSort fun a b => decide (a.asset ≤ b.asset) :=
  List.map_mergeSort fun a _ b _ => by rw [hf, hf]

section Portfolio

variable {p : Portfolio Dec} {books : Books} {totalQuantity totalValue : ℚ}

/-- The open positions over the values. -/
theorem opened_values (order : p.IterOrder) : order.values.opened =
    ((order.1.map Sigma.snd).filter fun pos => 0 < pos.totalQuantity).map (Position.map Dec.val) := by
  unfold Portfolio.IterOrder.opened
  have hsnd : order.values.1.map Sigma.snd = (order.1.map Sigma.snd).map (Position.map Dec.val) := by
    show (order.1.map _).map _ = _
    rw [List.map_map, List.map_map]
    rfl
  rw [hsnd, List.filter_map]
  refine congrArg (List.map _) (List.filter_congr fun pos _ => ?_)
  exact decide_eq_decide.2 (Dec.lt_iff (a := 0) (b := pos.totalQuantity)).symm

/-- **`GET /portfolio`** over decimals is `GET /portfolio` over their values, with the average costs
rounded. -/
theorem getPortfolio_map (href : (p.map Dec.val).Refines books)
    (hcov : books.Covered room totalQuantity totalValue) (hQ : totalQuantity ≤ room.quantityMax)
    (hV : totalValue ≤ room.valueMax) (order : p.IterOrder) :
    (GetPortfolio.execute p order).map (PortfolioResponse.map Dec.val) =
      (GetPortfolio.execute (p.map Dec.val) order.values).map PortfolioResponse.rounded := by
  have hlines : ∃ lines, ((order.1.map Sigma.snd).filter fun pos => 0 < pos.totalQuantity).mapM
      PositionResponse.of = .ok lines ∧ lines.map (PositionResponse.map Dec.val) =
        ((order.1.map Sigma.snd).filter fun pos => 0 < pos.totalQuantity).map
          fun pos => (pos.map Dec.val).line.rounded := by
    refine Returns.mapM_view fun pos hpos => ?_
    obtain ⟨e, he, rfl⟩ := List.mem_map.1 (List.mem_of_mem_filter hpos)
    have hl : (p.map Dec.val).positions.lookup e.1 = some (e.2.map Dec.val) := by
      rw [p.lookup_map, Finmap.mem_lookup_iff.2 (order.mem_entries.1 he)]
      rfl
    exact positionResponse_rounded (Portfolio.IterOrder.covered href hcov hQ hV order e he)
      (href.position _ _ hl).2
  obtain ⟨lines, hlines, hvalues⟩ := hlines
  have hexact : order.values.opened.mapM PositionResponse.of =
      .ok (order.values.opened.map Position.line) := by
    obtain ⟨lines', h, hid⟩ := Returns.mapM_view (g := fun line => line)
      (l := order.values.opened) fun pos _ => ⟨pos.line, positionResponse_exact pos, rfl⟩
    rw [h, ← hid, List.map_id']
  unfold GetPortfolio.execute
  rw [hlines, ← Portfolio.IterOrder.opened, hexact]
  -- Both reports are sorted by asset, and the maps keep the assets.
  have hsort : (lines.mergeSort fun a b => decide (a.asset ≤ b.asset)).map
      (PositionResponse.map Dec.val) = ((order.values.opened.map Position.line).mergeSort
        fun a b => decide (a.asset ≤ b.asset)).map PositionResponse.rounded := by
    rw [map_sort_lines (PositionResponse.map Dec.val) fun _ => rfl,
      map_sort_lines PositionResponse.rounded fun _ => rfl, hvalues, opened_values, List.map_map,
      List.map_map]
    rfl
  show Except.ok (ε := Panic) (⟨_, p.totalRealizedPnl.val⟩ : PortfolioResponse ℚ) = Except.ok ⟨_, _⟩
  rw [hsort]
  rfl

end Portfolio

/-! ### After a run -/

/-- **The reports are exact.** After a run that keeps to a room of decimal places and amounts, which
also has room for the market value at the prices of the request, `GET /pnl` in any iteration order
returns what it returns over the exact values, or the same error. The lines of `GET /portfolio` are
exact too, up to their average costs, which are the exact averages rounded. -/
theorem reports_exact (room : Room) (rs : List (Post Dec)) (h : Admitted room (rs.map Post.req)) :
    ∃ p answers, Portfolio.new.posts rs = .ok (p, answers) ∧
      Portfolio.new.posts (rs.map (Post.map Dec.val)) =
        .ok (p.map Dec.val, answers.map (mapResponse Dec.val)) ∧
      ∀ order : p.IterOrder,
        (GetPortfolio.execute p order).map (PortfolioResponse.map Dec.val) =
          (GetPortfolio.execute (p.map Dec.val) order.values).map PortfolioResponse.rounded ∧
        ∀ P req, Priced room P (fun asset => req.prices.lookup asset) →
          (requested (rs.map Post.req)).1 * P + (requested (rs.map Post.req)).2 ≤ room.valueMax →
          GetPnL.execute (p.map Dec.val) order.values (req.map Dec.val) =
            (GetPnL.execute p order req).map (mapAnswer Dec.val (PnLResponse.map Dec.val)) := by
  obtain ⟨p, answers, books, hdec, hexact, href, hcov⟩ := posts_new h
  refine ⟨p, answers, hdec, hexact, fun order => ⟨?_, fun P req hprices hV => ?_⟩⟩
  · exact getPortfolio_map href hcov h.quantity h.value order
  · exact getPnl_map href hcov h.quantity hV (requested_nonneg _).1 order hprices

/-- A price for BTC, in tenths. -/
def sampleQuote (price : UInt16) : PnLRequest Dec where
  prices := (∅ : Finmap fun _ : String => Dec).insert "BTC"
    (Dec.tenths price.toNat (small_lt_mantissaBound price))

theorem sampleQuote_priced (price : UInt16) :
    Priced eightPlaces 6600 fun asset => (sampleQuote price).prices.lookup asset := by
  have hlookup : ∀ a d, (sampleQuote price).prices.lookup a = some d →
      d = Dec.tenths price.toNat (small_lt_mantissaBound price) := by
    intro a d hd
    by_cases ha : a = "BTC"
    · rw [ha, sampleQuote, Finmap.lookup_insert] at hd
      exact (Option.some.inj hd).symm
    · rw [sampleQuote, Finmap.lookup_insert_of_ne _ ha, Finmap.lookup_empty] at hd
      cases hd
  refine ⟨by norm_num, fun a d hd => ?_, fun a d hd => ?_⟩
  · rw [hlookup a d hd]
    exact tenths_mem_places (small_lt_mantissaBound price)
  · rw [hlookup a d hd]
    have hlt : (price.toNat : ℚ) < 65536 := by exact_mod_cast price.toNat_lt
    have h0 : (0 : ℚ) ≤ (price.toNat : ℚ) := by positivity
    show |(price.toNat : ℚ) / 10| ≤ 6600
    rw [abs_of_nonneg (by linarith)]
    linarith

theorem reports_exact_sample : ∃ p answers, Portfolio.new.posts samplePosts = .ok (p, answers) ∧
    ∀ order : p.IterOrder, GetPnL.execute (p.map Dec.val) order.values
        ((sampleQuote 1505).map Dec.val) =
      (GetPnL.execute p order (sampleQuote 1505)).map
        (mapAnswer Dec.val (PnLResponse.map Dec.val)) := by
  obtain ⟨p, answers, hdec, -, hreports⟩ := reports_exact eightPlaces samplePosts samplePosts_admitted
  refine ⟨p, answers, hdec, fun order => (hreports order).2 6600 _ (sampleQuote_priced 1505) ?_⟩
  have hrequested : (requested (samplePosts.map Post.req)).1 = 37 / 10 ∧
      (requested (samplePosts.map Post.req)).2 ≤ 1000 := by decide +kernel
  rw [hrequested.1]
  show _ ≤ (10 : ℚ) ^ 12
  linarith [hrequested.2]

end Ledger
end CryptoAccounting

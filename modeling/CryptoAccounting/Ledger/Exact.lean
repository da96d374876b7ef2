import CryptoAccounting.Ledger.CashFlow
import CryptoAccounting.Ledger.Covered
import CryptoAccounting.Ledger.CreateTrade
import CryptoAccounting.Ledger.Run

/-!
# The ledger over 96-bit decimals, where it is exact

The results about the ledger's books are about exact arithmetic, and the ledger computes with 96-bit
decimals. As long as the quantities and prices of the trades have few decimal places, and their total
quantity and total value leave room in a mantissa, the two are the same: no operator rounds or panics,
and every state and every response of the one has the values of the other (`posts_exact`).
-/

namespace CryptoAccounting
namespace Ledger

open DecimalOps Segments

variable {room : Room} {pos : Position Dec}

/-! ### Books -/

section Amounts

variable (b : Book ℚ)

theorem notional_buys_nonneg : 0 ≤ notional b.buys :=
  value_nonneg b.buys_positive fun s hs => (b.prices_positive s hs).le

theorem notional_openLots_nonneg : 0 ≤ notional b.openLots :=
  value_nonneg b.openLots_positive fun s hs => (b.openLots_prices s hs).le

/-- Part of the buys has been sold, the rest is open. -/
theorem notional_sold_add_open :
    notional (take (weight b.sells) b.buys) + notional b.openLots = notional b.buys :=
  value_take_add_drop id b.buys_positive b.sold_nonneg

theorem notional_sold_nonneg : 0 ≤ notional (take (weight b.sells) b.buys) := by
  refine value_nonneg (fun s hs => (pos_and_label_mem_of_mem_take b.buys_positive hs).1) fun s hs => ?_
  obtain ⟨-, w, hw⟩ := pos_and_label_mem_of_mem_take b.buys_positive hs
  exact (b.prices_positive (w, s.2) hw).le

theorem fills_pos {q : ℚ} : ∀ s ∈ b.fills q, 0 < s.1 ∧ 0 < s.2 := by
  intro s hs
  obtain ⟨hpos, w, hw⟩ := pos_and_label_mem_of_mem_take b.openLots_positive hs
  exact ⟨hpos, b.openLots_prices (w, s.2) hw⟩

/-- The units a sell takes cost no more than what is open. -/
theorem notional_fills_le {q : ℚ} (hq : 0 ≤ q) : notional (b.fills q) ≤ notional b.openLots := by
  have hsplit : notional (take q b.openLots) + notional (drop q b.openLots) = notional b.openLots :=
    value_take_add_drop id b.openLots_positive hq
  have hrest : 0 ≤ notional (drop q b.openLots) := by
    refine value_nonneg (positive_drop b.openLots_positive q) fun s hs => ?_
    obtain ⟨w, hw⟩ := label_mem_of_mem_drop hs
    exact (b.openLots_prices (w, s.2) hw).le
  rw [Book.fills]
  linarith

/-- What a trade adds to the quantity bought. -/
theorem weight_buys_step_le (o : Order ℚ) : weight (b.step o).buys ≤ weight b.buys + o.quantity := by
  rw [Book.buys_step]
  split_ifs
  · simp
  · exact le_add_of_nonneg_right o.quantity_pos.le

/-- What a trade adds to the turnover. -/
theorem turnover_step_le (o : Order ℚ) :
    notional (b.step o).buys + notional (b.step o).sells ≤
      notional b.buys + notional b.sells + o.quantity * o.price := by
  have hvalue : 0 < o.quantity * o.price := mul_pos o.quantity_pos o.price_pos
  rw [Book.buys_step, Book.sells_step]
  by_cases ho : o.isBuy = true
  · rw [if_pos ho, if_neg (by simp [ho])]
    simp only [notional_append, notional_cons, notional_nil, add_zero]
    linarith
  · rw [if_neg ho]
    split_ifs
    · simp only [notional_append, notional_cons, notional_nil, add_zero]
      linarith
    · linarith

end Amounts

/-- The trades of the books have the places of the room, and their totals do not exceed the given
ones. -/
structure Books.Covered (room : Room) (books : Books) (quantity value : ℚ) : Prop where
  buys : ∀ a, ∀ s ∈ (books a).buys, s.1 ∈ room.quantities ∧ s.2 ∈ room.prices
  sells : ∀ a, ∀ s ∈ (books a).sells, s.1 ∈ room.quantities ∧ s.2 ∈ room.prices ∧ 0 < s.2
  bought : ∀ S : Finset String, ∑ a ∈ S, weight (books a).buys ≤ quantity
  turnover : ∀ S : Finset String, ∑ a ∈ S, (notional (books a).buys + notional (books a).sells) ≤ value

variable {books : Books} {totalQuantity totalValue : ℚ}

theorem Books.covered_empty (room : Room) : Books.Covered room (fun _ => Book.empty) 0 0 where
  buys a s hs := by cases hs
  sells a s hs := by cases hs
  bought S := by simp [Book.empty]
  turnover S := by simp [Book.empty]

/-- A sum over books grows at most by what the trade adds to its book. -/
theorem sum_step_le {f : Book ℚ → ℚ} {c B : ℚ} {t : ValidTrade ℚ} (hc : 0 ≤ c)
    (hf : f ((books t.asset).step t.order) ≤ f (books t.asset) + c)
    (h : ∀ S : Finset String, ∑ a ∈ S, f (books a) ≤ B) (S : Finset String) :
    ∑ a ∈ S, f (books.step t a) ≤ B + c := by
  have hS := h S
  by_cases ht : t.asset ∈ S
  · rw [Books.step, Tables.sum_update S books f _ ht]
    linarith
  · rw [Books.step, Tables.sum_update_of_notMem S books f _ ht]
    linarith

theorem Books.Covered.step (h : books.Covered room totalQuantity totalValue) {t : ValidTrade ℚ}
    (hq : t.quantity ∈ room.quantities) (hp : t.price ∈ room.prices) :
    (books.step t).Covered room (totalQuantity + t.quantity)
      (totalValue + t.quantity * t.price) where
  buys a := by
    by_cases ha : t.asset = a
    · rw [Books.step_same ha, Book.buys_step]
      split_ifs
      · exact List.forall_mem_append.2 ⟨h.buys a, by simpa [ValidTrade.order] using ⟨hq, hp⟩⟩
      · exact h.buys a
    · rw [Books.step_other ha]
      exact h.buys a
  sells a := by
    by_cases ha : t.asset = a
    · rw [Books.step_same ha, Book.sells_step]
      split_ifs
      · refine List.forall_mem_append.2 ⟨h.sells a, ?_⟩
        simpa [ValidTrade.order] using ⟨hq, hp, t.positive.2⟩
      · exact h.sells a
    · rw [Books.step_other ha]
      exact h.sells a
  bought := sum_step_le (f := fun b => weight b.buys) t.positive.1.le
    (weight_buys_step_le _ t.order) h.bought
  turnover := sum_step_le (f := fun b => notional b.buys + notional b.sells)
    (mul_pos t.positive.1 t.positive.2).le (turnover_step_le _ t.order) h.turnover

theorem Books.Covered.notional_sells_nonneg (h : books.Covered room totalQuantity totalValue)
    (a : String) : 0 ≤ notional (books a).sells :=
  value_nonneg (books a).sells_positive fun s hs => (h.sells a s hs).2.2.le

theorem Books.Covered.bought_le (h : books.Covered room totalQuantity totalValue) (a : String) :
    weight (books a).buys ≤ totalQuantity := by
  simpa using h.bought {a}

theorem Books.Covered.notional_le (h : books.Covered room totalQuantity totalValue) (a : String) :
    notional (books a).buys ≤ totalValue := by
  have hturnover := h.turnover {a}
  have hsells := h.notional_sells_nonneg a
  rw [Finset.sum_singleton] at hturnover
  linarith

/-- What books have realized is their cash flow plus the cost of what is open. -/
theorem sum_realized_eq (books : Books) (assets : Finset String) : ∑ a ∈ assets, (books a).realized =
    ∑ a ∈ assets, notional (books a).sells - ∑ a ∈ assets, notional (books a).buys +
      ∑ a ∈ assets, notional (books a).openLots := by
  rw [← Finset.sum_sub_distrib, ← Finset.sum_add_distrib]
  exact Finset.sum_congr rfl fun a _ => Book.realized_eq (books a)

/-- What the books have realized lies between the cost of the sold units and the proceeds, and so does
what they have realized in the middle of a sell. -/
theorem Books.Covered.realized_bounds {p : Portfolio ℚ} (href : p.Refines books)
    (h : books.Covered room totalQuantity totalValue) {a : String} {q : ℚ} (hq : 0 < q)
    (hle : q ≤ (books a).held) :
    -totalValue ≤ p.totalRealizedPnl - notional ((books a).fills q) ∧
      p.totalRealizedPnl ≤ totalValue := by
  have hsum := h.turnover p.positions.keys
  have hrealized := href.realized
  rw [Finset.sum_add_distrib] at hsum
  have hbuys : 0 ≤ ∑ x ∈ p.positions.keys, notional (books x).buys :=
    Finset.sum_nonneg fun x _ => notional_buys_nonneg (books x)
  have hsells : 0 ≤ ∑ x ∈ p.positions.keys, notional (books x).sells :=
    Finset.sum_nonneg fun x _ => h.notional_sells_nonneg x
  have hmem : a ∈ p.positions.keys := by
    refine href.mem_keys fun hempty => ?_
    rw [hempty, Book.held_empty] at hle
    exact absurd hq (not_lt.2 hle)
  constructor
  · have hopen : notional ((books a).fills q) ≤ ∑ x ∈ p.positions.keys, notional (books x).openLots :=
      (notional_fills_le (books a) hq.le).trans
        (Finset.single_le_sum (f := fun x => notional (books x).openLots)
          (fun x _ => notional_openLots_nonneg (books x)) hmem)
    have hflow := sum_realized_eq books p.positions.keys
    linarith
  · have hproceeds : p.totalRealizedPnl ≤ ∑ x ∈ p.positions.keys, notional (books x).sells := by
      rw [hrealized]
      refine Finset.sum_le_sum fun x _ => ?_
      have hsold := notional_sold_nonneg (books x)
      rw [Book.realized]
      linarith
    linarith

/-- The sum of quantity × price over segments with the places of the room. -/
theorem notional_mem {l : List (ℚ × ℚ)} (h : ∀ s ∈ l, s.1 ∈ room.quantities ∧ s.2 ∈ room.prices) :
    notional l ∈ room.values := by
  refine AddSubgroup.list_sum_mem _ fun x hx => ?_
  obtain ⟨s, hs, rfl⟩ := List.mem_map.1 hx
  exact mul_mem_places (h s hs).1 (h s hs).2

theorem Books.Covered.sold_mem (h : books.Covered room totalQuantity totalValue) (a : String) :
    weight (books a).sells ∈ room.quantities := by
  refine AddSubgroup.list_sum_mem _ fun x hx => ?_
  obtain ⟨s, hs, rfl⟩ := List.mem_map.1 hx
  exact (h.sells a s hs).1

theorem Books.Covered.openLots_mem (h : books.Covered room totalQuantity totalValue) (a : String) :
    ∀ s ∈ (books a).openLots, s.1 ∈ room.quantities ∧ s.2 ∈ room.prices := by
  intro s hs
  obtain ⟨w, hw⟩ := label_mem_of_mem_drop hs
  exact ⟨weight_mem_of_mem_drop _ (fun s hs => (h.buys a s hs).1) (h.sold_mem a) _ hs,
    (h.buys a _ hw).2⟩

theorem Books.Covered.fills_mem (h : books.Covered room totalQuantity totalValue) (a : String) {q : ℚ}
    (hq : q ∈ room.quantities) :
    ∀ s ∈ (books a).fills q, s.1 ∈ room.quantities ∧ s.2 ∈ room.prices := by
  intro s hs
  obtain ⟨-, w, hw⟩ := pos_and_label_mem_of_mem_take (books a).openLots_positive hs
  exact ⟨weight_mem_of_mem_take _ (fun s hs => (h.openLots_mem a s hs).1) hq _ hs,
    (h.openLots_mem a _ hw).2⟩

theorem Books.Covered.realized_mem {p : Portfolio ℚ} (href : p.Refines books)
    (h : books.Covered room totalQuantity totalValue) : p.totalRealizedPnl ∈ room.values := by
  rw [href.realized]
  refine sum_mem fun a _ => ?_
  rw [Book.realized_eq]
  refine add_mem (sub_mem ?_ (notional_mem (h.buys a))) (notional_mem (h.openLots_mem a))
  exact notional_mem fun s hs => ⟨(h.sells a s hs).1, (h.sells a s hs).2.1⟩

theorem Position.map_pairs (pos : Position Dec) :
    (pos.map Dec.val).lots.map Lot.pair = pos.lots.map lotValues := by
  rw [Position.map, List.map_map]
  rfl

/-- The room covers a position that follows such a book. -/
theorem Books.Covered.position (h : books.Covered room totalQuantity totalValue)
    (hQ : totalQuantity ≤ room.quantityMax) (hV : totalValue ≤ room.valueMax) {a : String}
    (href : (pos.map Dec.val).Refines (books a)) : pos.Covered room := by
  have hlots : pos.lots.map lotValues = (books a).openLots := by
    rw [← Position.map_pairs]
    exact href.lots
  have hquantity : lotsQuantity pos.lots = (books a).held := by
    rw [← Book.weight_openLots, ← hlots, weight, List.map_map]
    rfl
  refine ⟨fun l hl => ?_, ?_, ?_, ?_⟩
  · have hmem : lotValues l ∈ (books a).openLots := by
      rw [← hlots]
      exact List.mem_map_of_mem hl
    obtain ⟨hq, hp⟩ := h.openLots_mem a _ hmem
    exact ⟨hq, (books a).openLots_positive _ hmem, hp, (books a).openLots_prices _ hmem⟩
  · have hcost : lotsCost pos.lots = notional (books a).openLots := by
      rw [← hlots, notional, value, List.map_map]
      rfl
    have hsplit := notional_sold_add_open (books a)
    have hsold_nonneg := notional_sold_nonneg (books a)
    have hnotional := h.notional_le a
    rw [hcost]
    linarith
  · rw [hquantity]
    exact href.total
  · have htotal : pos.totalQuantity.val = (books a).held := href.total
    have hbought := h.bought_le a
    have hsells := (books a).sold_nonneg
    rw [htotal, Book.held]
    linarith

/-! ### Trades -/

/-- A trade that `Trade::new` has built, with the places of the room. -/
structure Trade.OnPlaces (room : Room) (t : Trade Dec) : Prop where
  built : Trade.new t.id t.asset t.quantity t.price t.timestamp t.side = .ok t
  quantity : t.quantity.val ∈ room.quantities
  price : t.price.val ∈ room.prices

variable {t : Trade Dec} {p : Portfolio Dec}

theorem Trade.OnPlaces.positive (h : t.OnPlaces room) : 0 < t.quantity.val ∧ 0 < t.price.val := by
  have hbuilt := h.built
  unfold Trade.new at hbuilt
  split_ifs at hbuilt with hq hp
  exact ⟨not_le.1 hq, not_le.1 hp⟩

/-- `Trade::new` builds its values too. -/
def Trade.OnPlaces.exact (h : t.OnPlaces room) : ValidTrade ℚ where
  trade := t.map Dec.val
  built := by
    unfold Trade.new
    exact (if_neg (not_le.2 h.positive.1)).trans (if_neg (not_le.2 h.positive.2))

theorem Portfolio.lookup_map (p : Portfolio Dec) (a : String) :
    (p.map Dec.val).positions.lookup a = (p.positions.lookup a).map (Position.map Dec.val) :=
  Finmap.lookup_mapValues _ _ _

theorem Portfolio.map_insert (p : Portfolio Dec) (a : String) (pos : Position Dec) (total : Dec) :
    Portfolio.map Dec.val ⟨p.positions.insert a pos, total⟩ =
      ⟨(p.map Dec.val).positions.insert a (pos.map Dec.val), total.val⟩ := by
  unfold Portfolio.map
  rw [Finmap.mapValues_insert]

/-- The position a buy starts from. -/
theorem Portfolio.getD_map (p : Portfolio Dec) (a : String) :
    ((p.map Dec.val).positions.lookup a).getD (Position.new a) =
      ((p.positions.lookup a).getD (Position.new a)).map Dec.val := by
  rw [p.lookup_map]
  cases p.positions.lookup a <;> rfl

/-- The portfolio once a sell has run through its position. -/
def Portfolio.settle {D : Type} [DecimalOps D] (p : Portfolio D) (asset : String) :
    Except (TradeError D) (List (RealizedPnL D)) × Position D →
      Except Panic (Except (TradeError D) (List (RealizedPnL D)) × Portfolio D)
  | (.error e, pos) => .ok (.error e, ⟨p.positions.insert asset pos, p.totalRealizedPnl⟩)
  | (.ok events, pos) =>
    events.foldlM (fun acc e => add acc e.realizedPnl) p.totalRealizedPnl >>= fun total =>
      .ok (.ok events, ⟨p.positions.insert asset pos, total⟩)

/-- Settling a sell whose gains add up without rounding. -/
theorem settle_map {asset : String} {pos : Position Dec} {events : List (RealizedPnL Dec)}
    {total : Dec}
    (hfold : events.foldlM (fun acc e => add acc e.realizedPnl) p.totalRealizedPnl = .ok total)
    (htotal : total.val = p.totalRealizedPnl.val + (events.map fun e => e.realizedPnl.val).sum) :
    (p.map Dec.val).settle asset (.ok (events.map (RealizedPnL.map Dec.val)), pos.map Dec.val) =
      (p.settle asset (.ok events, pos)).map fun r => (mapResult Dec.val r.1, r.2.map Dec.val) := by
  have hsettle : p.settle asset (.ok events, pos) =
      .ok (.ok events, ⟨p.positions.insert asset pos, total⟩) := by
    show events.foldlM (fun acc e => add acc e.realizedPnl) p.totalRealizedPnl >>= _ = _
    rw [hfold]
    rfl
  have hfold' := foldlM_add_exact RealizedPnL.realizedPnl (events.map (RealizedPnL.map Dec.val))
    p.totalRealizedPnl.val
  rw [List.map_map] at hfold'
  rw [hsettle]
  show (events.map (RealizedPnL.map Dec.val)).foldlM (fun acc e => add acc e.realizedPnl)
    p.totalRealizedPnl.val >>= _ = Except.ok (Except.ok _, Portfolio.map Dec.val _)
  rw [hfold', p.map_insert, htotal]
  rfl

section Sell

variable {D : Type} [LinearOrder D] [Zero D] [DecimalOps D] {p : Portfolio D} {t : Trade D}

theorem applyTrade_sell_none (hs : t.side = .sell) (hl : p.positions.lookup t.asset = none) :
    p.applyTrade t = .ok (.error (.insufficientBalance t.asset t.quantity 0), p) := by
  unfold Portfolio.applyTrade
  simp only [hs, hl]

theorem applyTrade_sell_some (hs : t.side = .sell) {pos : Position D}
    (hl : p.positions.lookup t.asset = some pos) :
    p.applyTrade t = pos.consumeFifo t.quantity t.price >>= p.settle t.asset := by
  unfold Portfolio.applyTrade
  simp only [hs, hl]
  refine congrArg (pos.consumeFifo t.quantity t.price >>= ·) (funext fun r => ?_)
  obtain ⟨result, pos'⟩ := r
  cases result <;> rfl

end Sell

/-- A sell that was not refused is covered by the book. -/
theorem sold_le {pos pos' : Position ℚ} {b : Book ℚ} (hpos : pos.Refines b) {q price : ℚ}
    {events : List (RealizedPnL ℚ)} (h : pos.consumeFifo q price = .ok (.ok events, pos')) :
    q ≤ b.held := by
  by_contra hlt
  rw [Position.consumeFifo_refused hpos price (not_le.1 hlt)] at h
  cases h

/-- The gains of its records, by the fills of the book. -/
theorem sold_gains {pos : Position Dec} {pos' : Position ℚ} {b : Book ℚ}
    (hpos : (pos.map Dec.val).Refines b) {q price : ℚ} (hq : 0 < q) {events : List (RealizedPnL Dec)}
    (h : (pos.map Dec.val).consumeFifo q price =
      .ok (.ok (events.map (RealizedPnL.map Dec.val)), pos')) :
    events.map (fun e => e.realizedPnl.val) = (b.fills q).map fun s => s.1 * price - s.1 * s.2 := by
  obtain ⟨pos'', hcons, -, -⟩ := Position.consumeFifo_refines hpos price hq (sold_le hpos h)
  rw [hcons] at h
  have hevents := congrArg (List.map RealizedPnL.realizedPnl)
    (Except.ok.inj (Prod.mk.inj (Except.ok.inj h)).1)
  rw [List.map_map, List.map_map] at hevents
  exact hevents.symm

section Step

variable (href : (p.map Dec.val).Refines books) (hcov : books.Covered room totalQuantity totalValue)
  (ht : t.OnPlaces room) (hQ : totalQuantity + t.quantity.val ≤ room.quantityMax)
  (hV : totalValue + t.quantity.val * t.price.val ≤ room.valueMax)

include href hcov ht hQ hV

theorem applyTrade_buy_map (hs : t.side = .buy) :
    (p.map Dec.val).applyTrade (t.map Dec.val) =
      (p.applyTrade t).map fun r => (mapResult Dec.val r.1, r.2.map Dec.val) := by
  obtain ⟨hq0, hp0⟩ := ht.positive
  have hpos : (((p.positions.lookup t.asset).getD (Position.new t.asset)).map Dec.val).Refines
      (books t.asset) := by
    rw [← p.getD_map]
    cases hl : (p.map Dec.val).positions.lookup t.asset with
    | none =>
      rw [href.absent _ hl]
      exact Position.refines_new _
    | some pos => exact (href.position _ _ hl).2
  have hpos' := hcov.position (by linarith) (by nlinarith) hpos
  have htotal : ((p.positions.lookup t.asset).getD (Position.new t.asset)).totalQuantity.val =
      (books t.asset).held := hpos.total
  have hheld := (books t.asset).held_nonneg
  have hbought := hcov.bought_le t.asset
  have hsold := (books t.asset).sold_nonneg
  have hle : (books t.asset).held ≤ weight (books t.asset).buys := by
    rw [Book.held]
    linarith
  obtain ⟨pos', hadd, hadd'⟩ := Position.addLot_map t.quantity t.price
    (by rw [hpos'.total]; exact lotsQuantity_mem hpos'.lots) ht.quantity
    (by rw [htotal]; linarith) (by rw [htotal]; linarith)
  have hside : (t.map Dec.val).side = .buy := hs
  unfold Portfolio.applyTrade
  simp only [hs, hside]
  show (((p.map Dec.val).positions.lookup t.asset).getD (Position.new t.asset)).addLot t.quantity.val
    t.price.val >>= _ = _
  rw [p.getD_map, hadd', hadd, ok_bind, ok_bind]
  exact congrArg (fun p' => Except.ok (Except.ok [], p')) (p.map_insert t.asset pos' _).symm

omit href hQ hV in
/-- The running sums over the gains of a sell that the book covers are decimals. -/
theorem gains_representable {acc : ℚ} (hacc : acc ∈ room.values)
    (hlow : -room.valueMax ≤ acc - notional ((books t.asset).fills t.quantity.val))
    (hhigh : acc + t.quantity.val * t.price.val ≤ room.valueMax)
    (hle : t.quantity.val ≤ (books t.asset).held) {l : List ℚ}
    (hl : l <+: ((books t.asset).fills t.quantity.val).map
      fun s => s.1 * t.price.val - s.1 * s.2) : Representable (acc + l.sum) := by
  obtain ⟨hq0, hp0⟩ := ht.positive
  have hproceeds : (((books t.asset).fills t.quantity.val).map fun s => s.1 * t.price.val).sum =
      t.quantity.val * t.price.val := by
    rw [List.sum_map_mul_right, ← weight, Book.weight_fills _ hq0 hle]
  refine Room.representable_value (add_mem hacc ?_) ?_
  · obtain ⟨m, hm⟩ := hl
    refine AddSubgroup.list_sum_mem _ fun x hx => ?_
    have hx' : x ∈ ((books t.asset).fills t.quantity.val).map
        fun s => s.1 * t.price.val - s.1 * s.2 := by
      rw [← hm]
      exact List.mem_append_left _ hx
    obtain ⟨s, hs, rfl⟩ := List.mem_map.1 hx'
    obtain ⟨hw, hc⟩ := hcov.fills_mem t.asset ht.quantity s hs
    exact sub_mem (mul_mem_places hw ht.price) (mul_mem_places hw hc)
  · refine abs_partial_gain_le (fun s hs => ?_) (fun s hs => ?_) ?_ ?_ hl
    · exact (mul_pos (fills_pos _ s hs).1 hp0).le
    · exact (mul_pos (fills_pos _ s hs).1 (fills_pos _ s hs).2).le
    · exact hlow
    · rw [hproceeds]
      exact hhigh

omit hQ in
/-- So are the realized totals in the middle of the sell. -/
theorem totals_representable (hle : t.quantity.val ≤ (books t.asset).held) {l : List ℚ}
    (hl : l <+: ((books t.asset).fills t.quantity.val).map
      fun s => s.1 * t.price.val - s.1 * s.2) : Representable (p.totalRealizedPnl.val + l.sum) := by
  obtain ⟨hq0, hp0⟩ := ht.positive
  obtain ⟨hlow, hhigh⟩ := hcov.realized_bounds href hq0 hle
  have hvalue : 0 < t.quantity.val * t.price.val := mul_pos hq0 hp0
  have htotal : (p.map Dec.val).totalRealizedPnl = p.totalRealizedPnl.val := rfl
  rw [htotal] at hlow hhigh
  exact gains_representable hcov ht (hcov.realized_mem href) (by linarith) (by linarith) hle hl

theorem applyTrade_sell_map (hs : t.side = .sell) :
    (p.map Dec.val).applyTrade (t.map Dec.val) =
      (p.applyTrade t).map fun r => (mapResult Dec.val r.1, r.2.map Dec.val) := by
  obtain ⟨hq0, hp0⟩ := ht.positive
  have hside : (t.map Dec.val).side = .sell := hs
  have hlookup := p.lookup_map t.asset
  cases hl : p.positions.lookup t.asset with
  | none =>
    rw [hl] at hlookup
    rw [applyTrade_sell_none hs hl, applyTrade_sell_none hside hlookup]
    rfl
  | some pos =>
    rw [hl] at hlookup
    obtain ⟨-, hpos⟩ := href.position _ _ hlookup
    have hpos' := hcov.position (by linarith) (by nlinarith) hpos
    have hvalue0 := hcov.turnover ∅
    rw [Finset.sum_empty] at hvalue0
    have hmap := Position.consumeFifo_map ht.price hp0 hpos' ht.quantity hq0 (by linarith)
    rw [applyTrade_sell_some hs hl, applyTrade_sell_some hside hlookup]
    show (pos.map Dec.val).consumeFifo t.quantity.val t.price.val >>= _ = _
    rw [hmap]
    cases hc : pos.consumeFifo t.quantity t.price with
    | error e => rfl
    | ok r =>
      obtain ⟨result, pos'⟩ := r
      cases result with
      | error e =>
        exact congrArg (fun p' => Except.ok (Except.error (e.map Dec.val), p'))
          (p.map_insert t.asset pos' _).symm
      | ok events =>
        rw [hc] at hmap
        have hgains := sold_gains hpos hq0 hmap
        have hle := sold_le hpos hmap
        obtain ⟨total, hfold, htotal⟩ := foldlM_add_exactly RealizedPnL.realizedPnl events
          p.totalRealizedPnl fun l hl => totals_representable href hcov ht hV hle (hgains ▸ hl)
        exact settle_map hfold htotal

/-- **One trade** over decimals is the trade over their values. -/
theorem applyTrade_map : (p.map Dec.val).applyTrade (t.map Dec.val) =
    (p.applyTrade t).map fun r => (mapResult Dec.val r.1, r.2.map Dec.val) := by
  cases hs : t.side with
  | buy => exact applyTrade_buy_map href hcov ht hQ hV hs
  | sell => exact applyTrade_sell_map href hcov ht hQ hV hs

/-- It does not panic, its result has the values its book prescribes, and so has the portfolio. -/
theorem applyTrade_values : ∃ r p', p.applyTrade t = .ok (r, p') ∧
    mapResult Dec.val r = outcome (books t.asset) ht.exact ∧
    (p'.map Dec.val).Refines (books.step ht.exact) := by
  obtain ⟨p₁, happ, href', -⟩ := applyTrade_refines href ht.exact
  have hmap := applyTrade_map href hcov ht hQ hV
  cases hp : p.applyTrade t with
  | error e =>
    rw [hp] at hmap
    exact absurd (happ.symm.trans hmap) (by simp [Except.map])
  | ok r =>
    rw [hp] at hmap
    obtain ⟨hr, hp'⟩ := Prod.mk.inj (Except.ok.inj (happ.symm.trans hmap))
    exact ⟨r.1, r.2, rfl, hr.symm, hp' ▸ href'⟩

omit href hQ in
/-- The sum over the records of an accepted trade is not rounded. -/
theorem sum_events_exactly {events : List (RealizedPnL Dec)}
    (hr : mapResult Dec.val (.ok events) = outcome (books t.asset) ht.exact) :
    ∃ d : Dec, sumDecimal (events.map RealizedPnL.realizedPnl) = .ok d ∧
      d.val = ((events.map (RealizedPnL.map Dec.val)).map RealizedPnL.realizedPnl).sum := by
  obtain ⟨hq0, hp0⟩ := ht.positive
  have hvalue : 0 < t.quantity.val * t.price.val := mul_pos hq0 hp0
  have hacc : (books t.asset).Accepts ht.exact.order := by
    rw [← outcome_isOk, ← hr]
    rfl
  rw [outcome, if_pos hacc] at hr
  have hmaps : ((events.map RealizedPnL.realizedPnl).map fun d => d.val) =
      (events.map (RealizedPnL.map Dec.val)).map RealizedPnL.realizedPnl := by
    rw [List.map_map, List.map_map]
    rfl
  have hgains : (events.map (RealizedPnL.map Dec.val)).map RealizedPnL.realizedPnl =
      ((books t.asset).fillsOf ht.exact.order).map fun s => s.1 * t.price.val - s.1 * s.2 := by
    rw [show events.map (RealizedPnL.map Dec.val) = _ from Except.ok.inj hr, List.map_map]
    rfl
  have hrep : ∀ l, l <+: (events.map RealizedPnL.realizedPnl).map (fun d => d.val) →
      Representable ((0 : Dec).val + l.sum) := by
    intro l hl
    rw [hmaps, hgains] at hl
    cases hs : t.side with
    | buy =>
      rw [Book.fillsOf, if_pos (ValidTrade.order_isBuy_of_buy (t := ht.exact) hs)] at hl
      have hnil : l = [] := by simpa using hl
      rw [hnil]
      simpa using representable_zero
    | sell =>
      have hb := ValidTrade.order_isBuy_of_sell (t := ht.exact) hs
      rw [Book.fillsOf, if_neg (by simp [hb])] at hl
      have hle : t.quantity.val ≤ (books t.asset).held := hacc.resolve_left (by simp [hb])
      have hcost := notional_fills_le (books t.asset) hq0.le
      have hsplit := notional_sold_add_open (books t.asset)
      have hsold := notional_sold_nonneg (books t.asset)
      have hbuys := hcov.notional_le t.asset
      have hnonneg := hcov.turnover ∅
      rw [Finset.sum_empty] at hnonneg
      refine gains_representable hcov ht (zero_mem _) ?_ ?_ hle hl
      · rw [zero_sub]
        linarith
      · rw [zero_add]
        linarith
  obtain ⟨d, hd, hval⟩ := foldlM_add_exactly (fun d => d) (events.map RealizedPnL.realizedPnl) 0 hrep
  refine ⟨d, hd, ?_⟩
  rw [hval, hmaps, Dec.val_zero, zero_add]

end Step

/-! ### Requests -/

section Requests

variable {D E : Type} (f : D → E)

def TradeResponse.map (resp : TradeResponse D) : TradeResponse E where
  id := resp.id
  asset := resp.asset
  quantity := f resp.quantity
  price := f resp.price
  side := resp.side
  notionalValue := f resp.notionalValue
  timestamp := resp.timestamp
  realizedPnl := f resp.realizedPnl

def AppError.map : AppError D → AppError E
  | .bail msg => .bail msg
  | .context msg source => .context msg (source.map f)

/-- A result under the map, with what the map does to a value. -/
def mapAnswer {A B : Type} (g : A → B) : Except (AppError D) A → Except (AppError E) B
  | .error e => .error (e.map f)
  | .ok a => .ok (g a)

/-- The result of a request under the map. -/
def mapResponse : Except (AppError D) (TradeResponse D) → Except (AppError E) (TradeResponse E) :=
  mapAnswer f (TradeResponse.map f)

/-- A `POST /trades`, with the id that is drawn and the time. -/
structure Post (D : Type) where
  req : TradeRequest D
  id : Uuid
  now : Timestamp

def Post.map (r : Post D) : Post E := ⟨r.req.map f, r.id, r.now⟩

variable [LinearOrder D] [Zero D] [DecimalOps D]

/-- `CreateTradeService::execute` without a repository. -/
def CreateTrade.inMemory (p : Portfolio D) (r : Post D) :
    Except Panic (Except (AppError D) (TradeResponse D) × Portfolio D) := do
  match ← CreateTrade.prepare r.req r.id r.now with
  | .error e => pure (.error e, p)
  | .ok (trade, notionalValue) => do
    let (result, p) ← CreateTrade.applyLocked p trade
    match result with
    | .error e => pure (.error e, p)
    | .ok realizedPnl => pure (.ok (CreateTrade.respond trade notionalValue realizedPnl), p)

/-- Requests that are handled one after the other, with their responses. -/
def Portfolio.posts (p : Portfolio D) :
    List (Post D) → Except Panic (Portfolio D × List (Except (AppError D) (TradeResponse D)))
  | [] => .ok (p, [])
  | r :: rs => do
    let (answer, p) ← CreateTrade.inMemory p r
    let (p, answers) ← p.posts rs
    pure (p, answer :: answers)

variable {p p' p₁ : Portfolio D} {r : Post D} {rs : List (Post D)}

theorem inMemory_refused {e : AppError D} (hprep : CreateTrade.prepare r.req r.id r.now = .ok (.error e)) :
    CreateTrade.inMemory p r = .ok (.error e, p) := by
  unfold CreateTrade.inMemory
  rw [hprep]
  rfl

/-- A request that gets to the lock is answered with what happens under it. -/
theorem inMemory_locked {trade : Trade D} {notionalValue : D} {result : Except (AppError D) D}
    (hprep : CreateTrade.prepare r.req r.id r.now = .ok (.ok (trade, notionalValue)))
    (hlocked : CreateTrade.applyLocked p trade = .ok (result, p')) :
    CreateTrade.inMemory p r = .ok (result.map (CreateTrade.respond trade notionalValue), p') := by
  unfold CreateTrade.inMemory
  rw [hprep, ok_bind]
  show CreateTrade.applyLocked p trade >>= _ = _
  rw [hlocked, ok_bind]
  cases result <;> rfl

theorem posts_cons {answer : Except (AppError D) (TradeResponse D)}
    {answers : List (Except (AppError D) (TradeResponse D))}
    (hr : CreateTrade.inMemory p r = .ok (answer, p₁)) (hrs : p₁.posts rs = .ok (p', answers)) :
    p.posts (r :: rs) = .ok (p', answer :: answers) := by
  rw [Portfolio.posts, hr, ok_bind]
  show p₁.posts rs >>= _ = _
  rw [hrs]
  rfl

end Requests

/-! ### What is requested -/

section Requested

variable {req : TradeRequest Dec} {reqs : List (TradeRequest Dec)}

/-- The checks see the values. -/
theorem TradeRequest.valid_map : (req.map Dec.val).Valid ↔ req.Valid := Iff.rfl

/-- The total quantity and the total value of what becomes a trade. -/
def requested (reqs : List (TradeRequest Dec)) : ℚ × ℚ :=
  (((reqs.filter fun req => req.Valid).map fun req => req.quantity.val).sum,
    ((reqs.filter fun req => req.Valid).map fun req => req.quantity.val * req.price.val).sum)

theorem requested_cons_valid (h : req.Valid) : requested (req :: reqs) =
    (req.quantity.val + (requested reqs).1, req.quantity.val * req.price.val + (requested reqs).2) := by
  unfold requested
  rw [List.filter_cons_of_pos (by simpa using h)]
  simp

theorem requested_cons_invalid (h : ¬ req.Valid) : requested (req :: reqs) = requested reqs := by
  unfold requested
  rw [List.filter_cons_of_neg (by simpa using h)]

theorem requested_nonneg (reqs : List (TradeRequest Dec)) :
    0 ≤ (requested reqs).1 ∧ 0 ≤ (requested reqs).2 := by
  induction reqs with
  | nil => simp [requested]
  | cons req reqs ih =>
    by_cases hvalid : req.Valid
    · have hquantity : 0 < req.quantity.val := hvalid.2.1
      have hvalue : 0 < req.quantity.val * req.price.val := mul_pos hquantity hvalid.2.2
      rw [requested_cons_valid hvalid]
      exact ⟨add_nonneg hquantity.le ih.1, add_nonneg hvalue.le ih.2⟩
    · rw [requested_cons_invalid hvalid]
      exact ih

/-- What becomes a trade has the places of the room and keeps within its bounds. -/
structure Admitted (room : Room) (reqs : List (TradeRequest Dec)) : Prop where
  places : ∀ req ∈ reqs, req.Valid → req.quantity.val ∈ room.quantities ∧ req.price.val ∈ room.prices
  quantity : (requested reqs).1 ≤ room.quantityMax
  value : (requested reqs).2 ≤ room.valueMax

/-- After `used`, the requests still to come do not exceed the total, which the room admits. -/
structure Remaining (room : Room) (total used : ℚ × ℚ) (reqs : List (TradeRequest Dec)) :
    Prop where
  places : ∀ req ∈ reqs, req.Valid → req.quantity.val ∈ room.quantities ∧ req.price.val ∈ room.prices
  quantity : used.1 + (requested reqs).1 ≤ total.1
  value : used.2 + (requested reqs).2 ≤ total.2
  quantity_le : total.1 ≤ room.quantityMax
  value_le : total.2 ≤ room.valueMax

variable {total used : ℚ × ℚ}

theorem Admitted.remaining (h : Admitted room reqs) : Remaining room (requested reqs) (0, 0) reqs where
  places := h.places
  quantity := (zero_add _).le
  value := (zero_add _).le
  quantity_le := h.quantity
  value_le := h.value

theorem Remaining.used_le (h : Remaining room total used reqs) :
    used.1 ≤ total.1 ∧ used.2 ≤ total.2 := by
  obtain ⟨hquantity, hvalue⟩ := requested_nonneg reqs
  exact ⟨by linarith [h.quantity], by linarith [h.value]⟩

/-- A request that takes nothing from the room. -/
theorem Remaining.tail (h : Remaining room total used (req :: reqs)) :
    Remaining room total used reqs := by
  have hle : (requested reqs).1 ≤ (requested (req :: reqs)).1 ∧
      (requested reqs).2 ≤ (requested (req :: reqs)).2 := by
    by_cases hvalid : req.Valid
    · have hquantity : 0 < req.quantity.val := hvalid.2.1
      have hvalue : 0 < req.quantity.val * req.price.val := mul_pos hquantity hvalid.2.2
      rw [requested_cons_valid hvalid]
      exact ⟨le_add_of_nonneg_left hquantity.le, le_add_of_nonneg_left hvalue.le⟩
    · rw [requested_cons_invalid hvalid]
      exact ⟨le_rfl, le_rfl⟩
  refine ⟨fun r hr => h.places r (List.mem_cons_of_mem _ hr), ?_, ?_, h.quantity_le, h.value_le⟩
  · linarith [h.quantity, hle.1]
  · linarith [h.value, hle.2]

/-- A request that becomes a trade takes its quantity and its value. -/
theorem Remaining.next (h : Remaining room total used (req :: reqs)) (hvalid : req.Valid) :
    Remaining room total
      (used.1 + req.quantity.val, used.2 + req.quantity.val * req.price.val) reqs := by
  have hquantity := h.quantity
  have hvalue := h.value
  rw [requested_cons_valid hvalid] at hquantity hvalue
  dsimp only at hquantity hvalue
  exact { h.tail with quantity := by linarith, value := by linarith }

/-- Its trade. -/
theorem Remaining.onPlaces (h : Remaining room total used (req :: reqs)) (hvalid : req.Valid)
    (id : Uuid) (now : Timestamp) : (req.toTrade id now).OnPlaces room :=
  have hplaces := h.places req List.mem_cons_self hvalid
  ⟨hvalid.built id now, hplaces.1, hplaces.2⟩

/-- **One valid request**, up to the lock and under it: over decimals nothing panics, and all is as over
the values. -/
theorem locked_covered {books : Books} {p : Portfolio Dec} (href : (p.map Dec.val).Refines books)
    (hcov : books.Covered room used.1 used.2) (h : Remaining room total used (req :: reqs))
    (hvalid : req.Valid) (id : Uuid) (now : Timestamp) :
    ∃ notionalValue result p',
      CreateTrade.prepare req id now = .ok (.ok (req.toTrade id now, notionalValue)) ∧
      notionalValue.val = req.quantity.val * req.price.val ∧
      CreateTrade.applyLocked p (req.toTrade id now) = .ok (result, p') ∧
      CreateTrade.applyLocked (p.map Dec.val) ((req.toTrade id now).map Dec.val) =
        .ok (mapAnswer Dec.val Dec.val result, p'.map Dec.val) ∧
      (p'.map Dec.val).Refines (books.step (h.onPlaces hvalid id now).exact) ∧
      (books.step (h.onPlaces hvalid id now).exact).Covered room
        (used.1 + req.quantity.val) (used.2 + req.quantity.val * req.price.val) := by
  obtain ⟨hq, hp⟩ := h.places req List.mem_cons_self hvalid
  have hvalue : 0 < req.quantity.val * req.price.val := mul_pos hvalid.2.1 hvalid.2.2
  obtain ⟨hleQ, hleV⟩ := (h.next hvalid).used_le
  have hQ : used.1 + req.quantity.val ≤ room.quantityMax := hleQ.trans h.quantity_le
  have hV : used.2 + req.quantity.val * req.price.val ≤ room.valueMax := hleV.trans h.value_le
  have hnonneg := hcov.turnover ∅
  rw [Finset.sum_empty] at hnonneg
  have hrep : Representable (req.quantity.val * req.price.val) :=
    Room.representable_value (mul_mem_places hq hp) (by rw [abs_of_pos hvalue]; linarith)
  have hprep : CreateTrade.prepare req id now = .ok (.ok (req.toTrade id now, ⟨_, hrep⟩)) := by
    rw [prepare_of_valid hvalid, mul_exactly hrep]
    rfl
  have ht := h.onPlaces hvalid id now
  obtain ⟨r, p', happ, houtcome, href'⟩ := applyTrade_values href hcov ht hQ hV
  have happ' := applyTrade_map href hcov ht hQ hV
  rw [happ] at happ'
  have hcov' := hcov.step (t := ht.exact) hq hp
  cases r with
  | error e =>
    exact ⟨_, _, p', hprep, rfl, applyLocked_error happ, applyLocked_error happ', href', hcov'⟩
  | ok events =>
    obtain ⟨realized, hsum, hval⟩ := sum_events_exactly hcov ht hV houtcome
    refine ⟨_, .ok realized, p', hprep, rfl, ?_, ?_, href', hcov'⟩
    · unfold CreateTrade.applyLocked
      rw [happ, ok_bind]
      show sumDecimal (events.map RealizedPnL.realizedPnl) >>= _ = _
      rw [hsum]
      rfl
    · rw [applyLocked_ok happ', ← hval]
      rfl

/-- The portfolio follows books that the room covers, with the requests still to come. -/
def Portfolio.Within (room : Room) (total : ℚ × ℚ) (p : Portfolio Dec)
    (reqs : List (TradeRequest Dec)) : Prop :=
  ∃ used books, (p.map Dec.val).Refines books ∧ books.Covered room used.1 used.2 ∧
    Remaining room total used reqs

variable {p : Portfolio Dec}

theorem Portfolio.Within.tail (h : p.Within room total (req :: reqs)) : p.Within room total reqs := by
  obtain ⟨used, books, href, hcov, hroom⟩ := h
  exact ⟨used, books, href, hcov, hroom.tail⟩

/-- A valid request gets through the lock and leaves a portfolio within the room. -/
theorem Portfolio.Within.next (h : p.Within room total (req :: reqs)) (hvalid : req.Valid) (id : Uuid)
    (now : Timestamp) : ∃ notionalValue result p',
      CreateTrade.prepare req id now = .ok (.ok (req.toTrade id now, notionalValue)) ∧
      CreateTrade.applyLocked p (req.toTrade id now) = .ok (result, p') ∧
      p'.Within room total reqs := by
  obtain ⟨used, books, href, hcov, hroom⟩ := h
  obtain ⟨v, result, p', hprep, -, hlocked, -, href', hcov'⟩ :=
    locked_covered href hcov hroom hvalid id now
  exact ⟨v, result, p', hprep, hlocked, _, _, href', hcov', hroom.next hvalid⟩

/-- The empty portfolio over decimals. -/
theorem Portfolio.map_new : (Portfolio.new : Portfolio Dec).map Dec.val = Portfolio.new := by
  unfold Portfolio.map Portfolio.new
  rw [Finmap.mapValues_empty]
  rfl

theorem Portfolio.refines_map_new :
    ((Portfolio.new : Portfolio Dec).map Dec.val).Refines fun _ => Book.empty := by
  rw [Portfolio.map_new]
  exact Portfolio.refines_new

theorem Portfolio.within_new (h : Admitted room reqs) :
    Portfolio.new.Within room (requested reqs) reqs :=
  ⟨(0, 0), _, Portfolio.refines_map_new, Books.covered_empty room, h.remaining⟩

end Requested

/-! ### Runs -/

variable {r : Post Dec}

theorem prepare_invalid_map (h : ¬ r.req.Valid) :
    ∃ e, CreateTrade.prepare r.req r.id r.now = .ok (.error e) ∧
      CreateTrade.prepare (r.req.map Dec.val) r.id r.now = .ok (.error (e.map Dec.val)) := by
  unfold CreateTrade.prepare
  by_cases hblank : isBlank r.req.asset = true
  · have hblank' : isBlank (r.req.map Dec.val).asset = true := hblank
    rw [if_pos hblank, if_pos hblank']
    exact ⟨_, rfl, rfl⟩
  · have hblank' : ¬ isBlank (r.req.map Dec.val).asset = true := hblank
    rw [if_neg hblank, if_neg hblank']
    unfold Trade.new
    by_cases hq : r.req.quantity ≤ 0
    · have hq' : (r.req.map Dec.val).quantity ≤ 0 := Dec.le_iff.1 hq
      rw [if_pos hq, if_pos hq']
      exact ⟨_, rfl, rfl⟩
    · have hq' : ¬ (r.req.map Dec.val).quantity ≤ 0 := fun hc => hq (Dec.le_iff.2 hc)
      by_cases hp : r.req.price ≤ 0
      · have hp' : (r.req.map Dec.val).price ≤ 0 := Dec.le_iff.1 hp
        rw [if_neg hq, if_pos hp, if_neg hq', if_pos hp']
        exact ⟨_, rfl, rfl⟩
      · exact absurd ⟨Bool.eq_false_iff.2 hblank, not_le.1 hq, not_le.1 hp⟩ h

/-- An invalid request changes nothing, over decimals and over their values. -/
theorem inMemory_invalid (h : ¬ r.req.Valid) : ∃ e, ∀ p : Portfolio Dec,
    CreateTrade.inMemory p r = .ok (.error e, p) ∧
      CreateTrade.inMemory (p.map Dec.val) (r.map Dec.val) = .ok (.error (e.map Dec.val), p.map Dec.val) := by
  obtain ⟨e, hdec, hexact⟩ := prepare_invalid_map h
  exact ⟨e, fun p => ⟨inMemory_refused hdec, inMemory_refused hexact⟩⟩

/-- A valid request over decimals is the request over their values. -/
theorem inMemory_valid {books : Books} {total used : ℚ × ℚ} {reqs : List (TradeRequest Dec)}
    {p : Portfolio Dec} (href : (p.map Dec.val).Refines books)
    (hcov : books.Covered room used.1 used.2) (h : Remaining room total used (r.req :: reqs))
    (hvalid : r.req.Valid) :
    ∃ answer p' books', CreateTrade.inMemory p r = .ok (answer, p') ∧
      CreateTrade.inMemory (p.map Dec.val) (r.map Dec.val) =
        .ok (mapResponse Dec.val answer, p'.map Dec.val) ∧
      (p'.map Dec.val).Refines books' ∧
      books'.Covered room (used.1 + r.req.quantity.val)
        (used.2 + r.req.quantity.val * r.req.price.val) := by
  obtain ⟨v, result, p', hprep, hv, hlocked, hexact, href', hcov'⟩ :=
    locked_covered href hcov h hvalid r.id r.now
  refine ⟨_, p', _, inMemory_locked hprep hlocked, ?_, href', hcov'⟩
  have hprep' : CreateTrade.prepare (r.req.map Dec.val) r.id r.now =
      .ok (.ok ((r.req.toTrade r.id r.now).map Dec.val, v.val)) := by
    rw [hv]
    exact prepare_valid (TradeRequest.valid_map.2 hvalid) r.id r.now
  rw [inMemory_locked (r := r.map Dec.val) hprep' hexact]
  cases result <;> rfl

/-- From a covered state, as long as the bounds of the room are kept. -/
theorem posts_covered {rs : List (Post Dec)} {books : Books} {total used : ℚ × ℚ}
    {p : Portfolio Dec} (href : (p.map Dec.val).Refines books)
    (hcov : books.Covered room used.1 used.2) (h : Remaining room total used (rs.map Post.req)) :
    ∃ p' answers books', p.posts rs = .ok (p', answers) ∧
      (p.map Dec.val).posts (rs.map (Post.map Dec.val)) =
        .ok (p'.map Dec.val, answers.map (mapResponse Dec.val)) ∧
      (p'.map Dec.val).Refines books' ∧
      books'.Covered room (used.1 + (requested (rs.map Post.req)).1)
        (used.2 + (requested (rs.map Post.req)).2) := by
  induction rs generalizing p books used with
  | nil =>
    refine ⟨p, [], books, rfl, rfl, href, ?_⟩
    simpa [requested] using hcov
  | cons r rs ih =>
    -- A request that becomes no trade takes nothing from the room.
    by_cases hvalid : r.req.Valid
    · obtain ⟨answer, p₁, books₁, hdec, hexact, href₁, hcov₁⟩ := inMemory_valid href hcov h hvalid
      obtain ⟨p', answers, books', hdecs, hexacts, href', hcov'⟩ := ih href₁ hcov₁ (h.next hvalid)
      refine ⟨p', answer :: answers, books', posts_cons hdec hdecs, posts_cons hexact hexacts, href', ?_⟩
      rw [List.map_cons, requested_cons_valid hvalid, ← add_assoc, ← add_assoc]
      exact hcov'
    · obtain ⟨e, hrefused⟩ := inMemory_invalid hvalid
      obtain ⟨p', answers, books', hdecs, hexacts, href', hcov'⟩ := ih href hcov h.tail
      refine ⟨p', .error e :: answers, books', posts_cons (hrefused p).1 hdecs,
        posts_cons (hrefused p).2 hexacts, href', ?_⟩
      rw [List.map_cons, requested_cons_invalid hvalid]
      exact hcov'

theorem posts_new {rs : List (Post Dec)} (h : Admitted room (rs.map Post.req)) :
    ∃ p answers books, Portfolio.new.posts rs = .ok (p, answers) ∧
      Portfolio.new.posts (rs.map (Post.map Dec.val)) =
        .ok (p.map Dec.val, answers.map (mapResponse Dec.val)) ∧
      (p.map Dec.val).Refines books ∧
      books.Covered room (requested (rs.map Post.req)).1 (requested (rs.map Post.req)).2 := by
  obtain ⟨p, answers, books, hdec, hexact, href, hcov⟩ := posts_covered Portfolio.refines_map_new
    (Books.covered_empty room) h.remaining
  rw [zero_add, zero_add] at hcov
  rw [Portfolio.map_new] at hexact
  exact ⟨p, answers, books, hdec, hexact, href, hcov⟩

/-- **The ledger is exact.** A run of requests over 96-bit decimals whose trades keep to a room of
decimal places and amounts neither panics nor rounds: the portfolio it leaves and every response, errors
included, are those of the same run over the exact values. -/
theorem posts_exact (room : Room) (rs : List (Post Dec)) (h : Admitted room (rs.map Post.req)) :
    ∃ p answers, Portfolio.new.posts rs = .ok (p, answers) ∧
      Portfolio.new.posts (rs.map (Post.map Dec.val)) =
        .ok (p.map Dec.val, answers.map (mapResponse Dec.val)) := by
  obtain ⟨p, answers, -, hdec, hexact, -⟩ := posts_new h
  exact ⟨p, answers, hdec, hexact⟩

/-- Eight places for quantities and for prices, and totals up to ten millions and a million
millions. -/
def eightPlaces : Room where
  quantityPlaces := 8
  pricePlaces := 8
  quantityMax := 10 ^ 7
  valueMax := 10 ^ 12
  places_le := by omega
  quantity_lt := by unfold mantissaBound; norm_num
  value_lt := by unfold mantissaBound; norm_num

theorem small_lt_mantissaBound (n : UInt16) : (n.toNat : ℤ) < mantissaBound := by
  have hn := n.toNat_lt
  unfold mantissaBound
  omega

/-- A request to trade BTC, in tenths of it and of the currency. -/
def samplePost (side : TradeSide) (quantity price : UInt16) : Post Dec where
  req :=
    { asset := "BTC"
      quantity := Dec.tenths quantity.toNat (small_lt_mantissaBound quantity)
      price := Dec.tenths price.toNat (small_lt_mantissaBound price)
      side := side
      timestamp := none }
  id := 1
  now := 0

/-- Two buys, a sell that spans their lots, and a sell that is refused. -/
def samplePosts : List (Post Dec) :=
  [samplePost .buy 5 1000, samplePost .buy 13 1207, samplePost .sell 9 1311, samplePost .sell 10 1]

theorem tenths_mem_places {n s : ℕ} (h : (n : ℤ) < mantissaBound) :
    (Dec.tenths n h).val ∈ places (s + 1) := by
  refine Rounding.mem_grid_iff.2 ⟨n * 10 ^ s, ?_⟩
  show _ = (n : ℚ) / 10
  rw [pow_succ]
  push_cast
  field_simp

theorem samplePosts_admitted : Admitted eightPlaces (samplePosts.map Post.req) where
  places req hreq _ := by
    simp only [samplePosts, List.map_cons, List.map_nil, List.mem_cons, List.not_mem_nil,
      or_false] at hreq
    rcases hreq with rfl | rfl | rfl | rfl <;>
      exact ⟨tenths_mem_places (small_lt_mantissaBound _),
        tenths_mem_places (small_lt_mantissaBound _)⟩
  quantity := by decide +kernel
  value := by decide +kernel

theorem posts_exact_sample : ∃ p answers, Portfolio.new.posts samplePosts = .ok (p, answers) ∧
    Portfolio.new.posts (samplePosts.map (Post.map Dec.val)) =
      .ok (p.map Dec.val, answers.map (mapResponse Dec.val)) :=
  posts_exact eightPlaces samplePosts samplePosts_admitted

end Ledger
end CryptoAccounting

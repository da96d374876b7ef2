import CryptoAccounting.Domain.Exact
import CryptoAccounting.Ledger.Overflow
import CryptoAccounting.Lib.Maps

/-!
# The ledger's loop over 96-bit decimals, where it is exact

The records of the ledger under a map of their decimals, and the loop of `consume_fifo` on a position
that a `Room` covers: an iteration over decimals is the iteration over their values
(`fifoBody_covered`), and the room covers what it leaves. So the loop over decimals is the loop over
their values, and so are `consume_fifo` and `add_lot`.
-/

namespace CryptoAccounting
namespace Ledger

open DecimalOps WhileLoop

/-! ### Records under a map of their decimals -/

section Maps

variable {D E : Type} (f : D → E)

def Trade.map (t : Trade D) : Trade E :=
  ⟨t.id, t.asset, f t.quantity, f t.price, t.timestamp, t.side⟩

def TradeError.map : TradeError D → TradeError E
  | .insufficientBalance asset required available =>
    .insufficientBalance asset (f required) (f available)
  | .invalidTrade msg => .invalidTrade msg
  | .overflow => .overflow
  | .persistence msg => .persistence msg

def Position.map (pos : Position D) : Position E :=
  ⟨pos.asset, pos.lots.map (Lot.map f), f pos.totalQuantity⟩

def Position.Fifo.map (s : Position.Fifo D) : Position.Fifo E :=
  ⟨s.lots.map (Lot.map f), f s.totalQuantity, f s.remaining, s.events.map (RealizedPnL.map f)⟩

def Portfolio.map (p : Portfolio D) : Portfolio E :=
  ⟨p.positions.mapValues (Position.map f), f p.totalRealizedPnl⟩

/-- A result of `apply_trade` under the map. -/
def mapResult : Except (TradeError D) (List (RealizedPnL D)) →
    Except (TradeError E) (List (RealizedPnL E))
  | .error e => .error (e.map f)
  | .ok events => .ok (events.map (RealizedPnL.map f))

end Maps

/-! ### The loop -/

/-- A lot whose quantity and price have the places of the room. -/
structure OnPlaces (room : Room) (l : Lot Dec) : Prop where
  quantity : l.quantity.val ∈ room.quantities
  quantity_pos : 0 < l.quantity.val
  cost : l.costPerUnit.val ∈ room.prices
  cost_pos : 0 < l.costPerUnit.val

/-- Total quantity of the lots. -/
def lotsQuantity (lots : List (Lot Dec)) : ℚ := (lots.map fun l => l.quantity.val).sum

/-- Total cost of the lots. -/
def lotsCost (lots : List (Lot Dec)) : ℚ :=
  (lots.map fun l => l.quantity.val * l.costPerUnit.val).sum

/-- The room covers what the loop still has to compute. -/
structure Position.Fifo.Covered (room : Room) (price : ℚ) (s : Position.Fifo Dec) : Prop where
  lots : ∀ l ∈ s.lots, OnPlaces room l
  cost : lotsCost s.lots ≤ room.valueMax
  total : s.totalQuantity.val = lotsQuantity s.lots
  total_le : s.totalQuantity.val ≤ room.quantityMax
  remaining : s.remaining.val ∈ room.quantities
  remaining_nonneg : 0 ≤ s.remaining.val
  remaining_le : s.remaining.val ≤ room.quantityMax
  proceeds : s.remaining.val * price ≤ room.valueMax

variable {room : Room} {asset : String} {price : Dec}

theorem lotsQuantity_nonneg {lots : List (Lot Dec)} (h : ∀ l ∈ lots, OnPlaces room l) :
    0 ≤ lotsQuantity lots := by
  refine List.sum_nonneg fun x hx => ?_
  obtain ⟨l, hl, rfl⟩ := List.mem_map.1 hx
  exact (h l hl).quantity_pos.le

theorem lotsCost_nonneg {lots : List (Lot Dec)} (h : ∀ l ∈ lots, OnPlaces room l) :
    0 ≤ lotsCost lots := by
  refine List.sum_nonneg fun x hx => ?_
  obtain ⟨l, hl, rfl⟩ := List.mem_map.1 hx
  exact (mul_pos (h l hl).quantity_pos (h l hl).cost_pos).le

theorem lotsQuantity_mem {lots : List (Lot Dec)} (h : ∀ l ∈ lots, OnPlaces room l) :
    lotsQuantity lots ∈ room.quantities := by
  refine AddSubgroup.list_sum_mem _ fun x hx => ?_
  obtain ⟨l, hl, rfl⟩ := List.mem_map.1 hx
  exact (h l hl).quantity

/-- The results of one iteration that takes `k` units of the front lot. -/
structure Iterates (room : Room) (price : Dec) (lot : Lot Dec) (total r k : Dec) : Prop where
  mem : k.val ∈ room.quantities
  pos : 0 < k.val
  le_lot : k.val ≤ lot.quantity.val
  le_remaining : k.val ≤ r.val
  cost : Representable (k.val * lot.costPerUnit.val)
  proceeds : Representable (k.val * price.val)
  gain : Representable (k.val * price.val - k.val * lot.costPerUnit.val)
  quantity : Representable (lot.quantity.val - k.val)
  total : Representable (total.val - k.val)
  remaining : Representable (r.val - k.val)

theorem Position.Fifo.Covered.iterates {lot : Lot Dec} {rest : List (Lot Dec)} {total r : Dec}
    {events : List (RealizedPnL Dec)} (hp : price.val ∈ room.prices) (hp0 : 0 < price.val)
    (h : Position.Fifo.Covered room price.val ⟨lot :: rest, total, r, events⟩) (hr : 0 < r) :
    Iterates room price lot total r (min r lot.quantity) := by
  obtain ⟨hlot, hrest⟩ := List.forall_mem_cons.1 h.lots
  have hval : (min r lot.quantity).val = min r.val lot.quantity.val := min_val r lot.quantity
  have hr' : 0 < r.val := Dec.lt_iff.1 hr
  -- Which of the two is the smaller does not matter below.
  generalize min r lot.quantity = k at hval
  have hkr : k.val ≤ r.val := by rw [hval]; exact min_le_left _ _
  have hkq : k.val ≤ lot.quantity.val := by rw [hval]; exact min_le_right _ _
  have hk0 : 0 < k.val := by rw [hval]; exact lt_min hr' hlot.quantity_pos
  have hk : k.val ∈ room.quantities := by
    rw [hval]
    rcases min_choice r.val lot.quantity.val with hm | hm
    · rw [hm]; exact h.remaining
    · rw [hm]; exact hlot.quantity
  have htotal : total.val = lot.quantity.val + lotsQuantity rest := by
    simpa [lotsQuantity] using h.total
  have hcost : lot.quantity.val * lot.costPerUnit.val + lotsCost rest ≤ room.valueMax := by
    simpa [lotsCost] using h.cost
  have hq0 : 0 ≤ lotsQuantity rest := lotsQuantity_nonneg hrest
  have hc0 : 0 ≤ lotsCost rest := lotsCost_nonneg hrest
  have hbuy : k.val * lot.costPerUnit.val ≤ room.valueMax :=
    (mul_le_mul_of_nonneg_right hkq hlot.cost_pos.le).trans (by linarith)
  have hsell : k.val * price.val ≤ room.valueMax :=
    (mul_le_mul_of_nonneg_right hkr hp0.le).trans h.proceeds
  have hbuy0 : 0 ≤ k.val * lot.costPerUnit.val := (mul_pos hk0 hlot.cost_pos).le
  have hsell0 : 0 ≤ k.val * price.val := (mul_pos hk0 hp0).le
  have hmem : k.val * lot.costPerUnit.val ∈ room.values := mul_mem_places hk hlot.cost
  have hmem' : k.val * price.val ∈ room.values := mul_mem_places hk hp
  have hmax : total.val ≤ room.quantityMax := h.total_le
  refine ⟨hk, hk0, hkq, hkr, ?_, ?_, ?_, ?_, ?_, ?_⟩
  · exact Room.representable_value hmem (by rwa [abs_of_nonneg hbuy0])
  · exact Room.representable_value hmem' (by rwa [abs_of_nonneg hsell0])
  · refine Room.representable_value (sub_mem hmem' hmem) ?_
    rw [abs_le]
    constructor <;> linarith
  · refine Room.representable_quantity (sub_mem hlot.quantity hk) ?_
    rw [abs_of_nonneg (by linarith)]
    linarith
  · refine Room.representable_quantity (sub_mem ?_ hk) ?_
    · rw [htotal]
      exact add_mem hlot.quantity (lotsQuantity_mem hrest)
    · rw [abs_of_nonneg (by linarith)]
      linarith
  · refine Room.representable_quantity (sub_mem h.remaining hk) ?_
    rw [abs_of_nonneg (by linarith)]
    have hrm : r.val ≤ room.quantityMax := h.remaining_le
    linarith

/-- The state after an iteration whose results are exact. -/
def Iterates.next {lot : Lot Dec} {total r k : Dec} (h : Iterates room price lot total r k)
    (asset : String) (rest : List (Lot Dec)) (events : List (RealizedPnL Dec)) :
    Position.Fifo Dec where
  lots :=
    if (⟨lot.quantity.val - k.val, h.quantity⟩ : Dec) = 0 then rest
    else ⟨⟨lot.quantity.val - k.val, h.quantity⟩, lot.costPerUnit⟩ :: rest
  totalQuantity := ⟨total.val - k.val, h.total⟩
  remaining := ⟨r.val - k.val, h.remaining⟩
  events := events ++
    [⟨asset, k, ⟨k.val * lot.costPerUnit.val, h.cost⟩, ⟨k.val * price.val, h.proceeds⟩,
      ⟨k.val * price.val - k.val * lot.costPerUnit.val, h.gain⟩⟩]

theorem fifoBody_exactly {lot : Lot Dec} {rest : List (Lot Dec)} {total r : Dec}
    {events : List (RealizedPnL Dec)}
    (h : Iterates room price lot total r (min r lot.quantity)) :
    Position.fifoBody asset price ⟨lot :: rest, total, r, events⟩ = .ok (h.next asset rest events) := by
  show (mul (min r lot.quantity) lot.costPerUnit >>= _) = _
  rw [mul_exactly h.cost, ok_bind, mul_exactly h.proceeds, ok_bind, sub_exactly h.gain, ok_bind,
    sub_exactly h.quantity, ok_bind, sub_exactly h.total, ok_bind, sub_exactly h.remaining, ok_bind]
  rfl

theorem Dec.mk_eq_zero_iff {x : ℚ} (h : Representable x) : (⟨x, h⟩ : Dec) = 0 ↔ x = 0 :=
  Dec.ext_iff

/-- The lots after an iteration, by their values. -/
theorem Iterates.next_lots {lot : Lot Dec} {total r k : Dec} (h : Iterates room price lot total r k)
    (asset : String) (rest : List (Lot Dec)) (events : List (RealizedPnL Dec)) :
    (lot.quantity.val = k.val ∧ (h.next asset rest events).lots = rest) ∨
      (lot.quantity.val ≠ k.val ∧ (h.next asset rest events).lots =
        ⟨⟨lot.quantity.val - k.val, h.quantity⟩, lot.costPerUnit⟩ :: rest) := by
  unfold Iterates.next
  by_cases hzero : lot.quantity.val - k.val = 0
  · exact .inl ⟨sub_eq_zero.1 hzero, if_pos ((Dec.mk_eq_zero_iff _).2 hzero)⟩
  · refine .inr ⟨fun hc => hzero (sub_eq_zero.2 hc), if_neg fun hc => hzero ?_⟩
    exact (Dec.mk_eq_zero_iff _).1 hc

/-- The state after an iteration over decimals has the values of the iteration over their values. -/
theorem Iterates.next_map {lot : Lot Dec} {rest : List (Lot Dec)} {total r : Dec}
    {events : List (RealizedPnL Dec)} (h : Iterates room price lot total r (min r lot.quantity)) :
    Position.fifoBody asset price.val (Position.Fifo.map Dec.val ⟨lot :: rest, total, r, events⟩) =
      .ok ((h.next asset rest events).map Dec.val) := by
  have hval : (min r lot.quantity).val = min r.val lot.quantity.val := min_val r lot.quantity
  have hlots := h.next_lots asset rest events
  have hbody : ∀ lots : List (Lot ℚ), lots = (if lot.quantity.val - (min r lot.quantity).val = 0
      then rest.map (Lot.map Dec.val)
      else ⟨lot.quantity.val - (min r lot.quantity).val, lot.costPerUnit.val⟩ ::
        rest.map (Lot.map Dec.val)) →
      lots = (h.next asset rest events).lots.map (Lot.map Dec.val) := by
    rintro lots rfl
    rcases hlots with ⟨hq, hnext⟩ | ⟨hq, hnext⟩
    · rw [hnext, if_pos (sub_eq_zero.2 hq)]
    · rw [hnext, if_neg (sub_ne_zero.2 hq)]
      rfl
  simp only [Position.Fifo.map, ← hbody _ rfl]
  simp only [Position.fifoBody, Lot.map, List.map_cons, ← hval, mul_exact, sub_exact, ok_bind,
    pure_eq_ok, Iterates.next, List.map_append, RealizedPnL.map, List.map_nil]

/-- The room covers what an iteration leaves. -/
theorem Position.Fifo.Covered.next {lot : Lot Dec} {rest : List (Lot Dec)} {total r k : Dec}
    {events : List (RealizedPnL Dec)} (hp0 : 0 < price.val)
    (h : Position.Fifo.Covered room price.val ⟨lot :: rest, total, r, events⟩)
    (hi : Iterates room price lot total r k) : (hi.next asset rest events).Covered room price.val := by
  obtain ⟨hlot, hrest⟩ := List.forall_mem_cons.1 h.lots
  have htotal : total.val = lot.quantity.val + lotsQuantity rest := by
    simpa [lotsQuantity] using h.total
  have hcost : lot.quantity.val * lot.costPerUnit.val + lotsCost rest ≤ room.valueMax := by
    simpa [lotsCost] using h.cost
  have hmax : total.val ≤ room.quantityMax := h.total_le
  have hrm : r.val ≤ room.quantityMax := h.remaining_le
  have hproceeds : r.val * price.val ≤ room.valueMax := h.proceeds
  have hk0 := hi.pos
  have hkp : 0 ≤ k.val * price.val := (mul_pos hk0 hp0).le
  have hkc : 0 ≤ k.val * lot.costPerUnit.val := (mul_pos hk0 hlot.cost_pos).le
  have hqc : 0 ≤ lot.quantity.val * lot.costPerUnit.val :=
    (mul_pos hlot.quantity_pos hlot.cost_pos).le
  refine ⟨?_, ?_, ?_, ?_, ?_, ?_, ?_, ?_⟩
  · rcases hi.next_lots asset rest events with ⟨-, hnext⟩ | ⟨hne, hnext⟩
    · rw [hnext]
      exact hrest
    · rw [hnext]
      refine List.forall_mem_cons.2 ⟨⟨sub_mem hlot.quantity hi.mem, ?_, hlot.cost, hlot.cost_pos⟩, hrest⟩
      exact sub_pos.2 (lt_of_le_of_ne hi.le_lot (Ne.symm hne))
  · rcases hi.next_lots asset rest events with ⟨-, hnext⟩ | ⟨hne, hnext⟩
    · rw [hnext]
      linarith
    · rw [hnext]
      simp only [lotsCost, List.map_cons, List.sum_cons] at hcost ⊢
      rw [sub_mul]
      linarith
  · show total.val - k.val = _
    rcases hi.next_lots asset rest events with ⟨heq, hnext⟩ | ⟨-, hnext⟩
    · rw [hnext, htotal, heq]
      ring
    · rw [hnext, htotal]
      simp only [lotsQuantity, List.map_cons, List.sum_cons]
      ring
  · show total.val - k.val ≤ _
    linarith
  · exact sub_mem h.remaining hi.mem
  · exact sub_nonneg.2 hi.le_remaining
  · show r.val - k.val ≤ _
    linarith
  · show (r.val - k.val) * price.val ≤ _
    rw [sub_mul]
    linarith

/-- **One iteration** over decimals is the iteration over their values, and the room covers what is
left. -/
theorem fifoBody_covered {s : Position.Fifo Dec} (hp : price.val ∈ room.prices)
    (hp0 : 0 < price.val) (h : s.Covered room price.val) (hg : Position.fifoGuard s = true) :
    Position.fifoBody asset price.val (s.map Dec.val) =
        (Position.fifoBody asset price s).map (Position.Fifo.map Dec.val) ∧
      ∀ t, Position.fifoBody asset price s = .ok t → t.Covered room price.val := by
  obtain ⟨lots, total, r, events⟩ := s
  cases lots with
  | nil => exact ⟨rfl, fun t ht => by cases ht⟩
  | cons lot rest =>
    have hi := h.iterates hp hp0 (of_decide_eq_true hg)
    rw [fifoBody_exactly hi, hi.next_map]
    refine ⟨rfl, fun t ht => ?_⟩
    cases ht
    exact h.next hp0 hi

/-- **The loop** over decimals is the loop over their values. -/
theorem fifoLoop_covered {s : Position.Fifo Dec} (hp : price.val ∈ room.prices)
    (hp0 : 0 < price.val) (h : s.Covered room price.val) (n : ℕ) :
    whileFuel Position.fifoGuard (Position.fifoBody asset price.val) n (s.map Dec.val) =
      (whileFuel Position.fifoGuard (Position.fifoBody asset price) n s).map
        (Option.map (Position.Fifo.map Dec.val)) :=
  (whileFuel_map_of (Position.Fifo.map Dec.val) (Position.Fifo.Covered room price.val)
    (fun _ _ => rfl) (fun _ hs hg => fifoBody_covered hp hp0 hs hg) n h).1

/-! ### Positions -/

/-- The room covers a position. -/
structure Position.Covered (room : Room) (pos : Position Dec) : Prop where
  lots : ∀ l ∈ pos.lots, OnPlaces room l
  cost : lotsCost pos.lots ≤ room.valueMax
  total : pos.totalQuantity.val = lotsQuantity pos.lots
  total_le : pos.totalQuantity.val ≤ room.quantityMax

variable {pos : Position Dec} {quantity : Dec}

theorem Position.consumeFifo_map (hp : price.val ∈ room.prices) (hp0 : 0 < price.val)
    (hpos : pos.Covered room) (hq : quantity.val ∈ room.quantities) (hq0 : 0 < quantity.val)
    (hvalue : quantity.val * price.val ≤ room.valueMax) :
    (pos.map Dec.val).consumeFifo quantity.val price.val =
      (pos.consumeFifo quantity price).map fun r => (mapResult Dec.val r.1, r.2.map Dec.val) := by
  unfold Position.consumeFifo
  by_cases hlt : quantity > pos.totalQuantity
  · have hlt' : quantity.val > (pos.map Dec.val).totalQuantity := Dec.lt_iff.1 hlt
    rw [if_pos hlt, if_pos hlt']
    rfl
  · have hlt' : ¬ quantity.val > (pos.map Dec.val).totalQuantity := fun h => hlt (Dec.lt_iff.2 h)
    have hle : quantity.val ≤ pos.totalQuantity.val := not_lt.1 hlt'
    have hcov : Position.Fifo.Covered room price.val ⟨pos.lots, pos.totalQuantity, quantity, []⟩ :=
      ⟨hpos.lots, hpos.cost, hpos.total, hpos.total_le, hq, hq0.le, hle.trans hpos.total_le, hvalue⟩
    have hloop : whileFuel Position.fifoGuard (Position.fifoBody pos.asset price.val)
        (pos.lots.length + 1)
        ⟨(pos.map Dec.val).lots, (pos.map Dec.val).totalQuantity, quantity.val, []⟩ =
        (whileFuel Position.fifoGuard (Position.fifoBody pos.asset price) (pos.lots.length + 1)
          ⟨pos.lots, pos.totalQuantity, quantity, []⟩).map (Option.map (Position.Fifo.map Dec.val)) :=
      fifoLoop_covered hp hp0 hcov (pos.lots.length + 1)
    have hlength : (pos.map Dec.val).lots.length = pos.lots.length := List.length_map ..
    rw [if_neg hlt, if_neg hlt', hlength]
    show whileFuel Position.fifoGuard (Position.fifoBody pos.asset price.val) (pos.lots.length + 1)
      ⟨(pos.map Dec.val).lots, (pos.map Dec.val).totalQuantity, quantity.val, []⟩ >>= _ = _
    rw [hloop]
    cases whileFuel Position.fifoGuard (Position.fifoBody pos.asset price) (pos.lots.length + 1)
        ⟨pos.lots, pos.totalQuantity, quantity, []⟩ with
    | error e => rfl
    | ok o =>
      cases o with
      | none => rfl
      | some s => rfl

theorem Position.addLot_map (quantity price : Dec) (hq : pos.totalQuantity.val ∈ room.quantities)
    (hadd : quantity.val ∈ room.quantities) (h0 : 0 ≤ pos.totalQuantity.val + quantity.val)
    (hle : pos.totalQuantity.val + quantity.val ≤ room.quantityMax) :
    ∃ pos', pos.addLot quantity price = .ok pos' ∧
      (pos.map Dec.val).addLot quantity.val price.val = .ok (pos'.map Dec.val) := by
  have hrep : Representable (pos.totalQuantity.val + quantity.val) :=
    Room.representable_quantity (add_mem hq hadd) (by rwa [abs_of_nonneg h0])
  refine ⟨⟨pos.asset, pos.lots ++ [⟨quantity, price⟩], ⟨_, hrep⟩⟩, ?_, ?_⟩
  · unfold Position.addLot
    rw [add_exactly hrep]
    rfl
  · unfold Position.addLot
    rw [add_exact]
    simp [Position.map, Lot.map]

end Ledger
end CryptoAccounting

import CryptoAccounting.Domain.Book
import CryptoAccounting.Ledger.Portfolio

/-!
# The ledger's FIFO engine refines the book

First, over any arithmetic in which `a − a = 0`, the loop of `consume_fifo` always stops: an
iteration pops the front lot or leaves nothing to sell. Then, over exact arithmetic, a position
whose lots and total are those of a `Book` keeps this relation: `addLot` is a buy, `consumeFifo` is
a sell that is refused exactly when the held quantity does not cover it.
-/

namespace CryptoAccounting
namespace Ledger

open DecimalOps WhileLoop Segments

/-! ### Termination -/

section Termination

variable {D : Type} [LinearOrder D] [Zero D] [DecimalOps D]

omit [DecimalOps D] in
theorem fifoGuard_of_pos {s : Position.Fifo D} (h : 0 < s.remaining) :
    Position.fifoGuard s = true := decide_eq_true h

omit [DecimalOps D] in
theorem fifoGuard_of_le {s : Position.Fifo D} (h : s.remaining ≤ 0) :
    Position.fifoGuard s = false := decide_eq_false (not_lt.2 h)

/-- The lots still to be looked at, as long as something is to be sold. -/
def Position.Fifo.variant (s : Position.Fifo D) : ℕ := if 0 < s.remaining then s.lots.length else 0

/-- A sell is refused before the loop, so the position is as it was. -/
theorem consumeFifo_error {pos pos' : Position D} {quantity price : D} {e : TradeError D}
    (h : pos.consumeFifo quantity price = .ok (.error e, pos')) : pos' = pos := by
  unfold Position.consumeFifo at h
  split_ifs at h with hlt
  · cases h
    rfl
  · obtain ⟨s, -, h⟩ := bind_eq_ok h
    cases s <;> cases h

variable [LawfulDecimal D]

/-- One iteration pops the front lot or sells the rest. -/
theorem fifoBody_cases {asset : String} {price : D} {s t : Position.Fifo D}
    (h : Position.fifoBody asset price s = .ok t) :
    ∃ lot rest, s.lots = lot :: rest ∧ (t.lots = rest ∨ t.remaining = 0) := by
  unfold Position.fifoBody at h
  cases hl : s.lots with
  | nil => rw [hl] at h; cases h
  | cons lot rest =>
    refine ⟨lot, rest, rfl, ?_⟩
    rw [hl] at h
    obtain ⟨costBasis, -, h⟩ := bind_eq_ok h
    obtain ⟨proceeds, -, h⟩ := bind_eq_ok h
    obtain ⟨realizedPnl, -, h⟩ := bind_eq_ok h
    obtain ⟨quantity, hq, h⟩ := bind_eq_ok h
    obtain ⟨totalQuantity, -, h⟩ := bind_eq_ok h
    obtain ⟨remaining, hr, h⟩ := bind_eq_ok h
    cases h
    by_cases hle : lot.quantity ≤ s.remaining
    · rw [min_eq_right hle, LawfulDecimal.sub_self] at hq
      cases hq
      exact .inl (if_pos rfl)
    · rw [min_eq_left (le_of_not_ge hle), LawfulDecimal.sub_self] at hr
      cases hr
      exact .inr rfl

theorem fifoBody_variant {asset : String} {price : D} {s t : Position.Fifo D}
    (hg : Position.fifoGuard s = true) (h : Position.fifoBody asset price s = .ok t) :
    t.variant < s.variant := by
  obtain ⟨lot, rest, hl, ht⟩ := fifoBody_cases h
  have hs : s.variant = rest.length + 1 := by
    rw [Position.Fifo.variant, if_pos (of_decide_eq_true hg), hl, List.length_cons]
  unfold Position.Fifo.variant at hs ⊢
  rw [hs]
  rcases ht with ht | ht
  · rw [ht]; split_ifs <;> omega
  · rw [ht, if_neg (lt_irrefl 0)]; omega

/-- One more iteration than there are lots is enough, whatever the lots hold. -/
theorem fifoLoop_ne_none (asset : String) (price : D) (s : Position.Fifo D) :
    whileFuel Position.fifoGuard (Position.fifoBody asset price) (s.lots.length + 1) s ≠
      .ok none := by
  refine whileFuel_ne_none Position.Fifo.variant (fun _ _ hg h => fifoBody_variant hg h) ?_
  unfold Position.Fifo.variant
  split_ifs <;> omega

/-- `consume_fifo` terminates: more fuel than the model gives its loop never changes the result. -/
theorem fifoLoop_fuel (asset : String) (price : D) (s : Position.Fifo D) {n : ℕ}
    (hn : s.lots.length + 1 ≤ n) :
    whileFuel Position.fifoGuard (Position.fifoBody asset price) n s =
      whileFuel Position.fifoGuard (Position.fifoBody asset price) (s.lots.length + 1) s :=
  whileFuel_mono (fifoLoop_ne_none asset price s) hn

end Termination

/-! ### The loop in exact arithmetic -/

/-- A lot larger than what is left to sell ends the loop. -/
theorem fifoBody_exact_lt {asset : String} {price total r : ℚ} {lot : Lot ℚ} {rest : List (Lot ℚ)}
    {events : List (RealizedPnL ℚ)} (h : r < lot.quantity) :
    Position.fifoBody asset price ⟨lot :: rest, total, r, events⟩ =
      .ok ⟨{ lot with quantity := lot.quantity - r } :: rest, total - r, 0,
        events ++ [.ofFill asset price (r, lot.costPerUnit)]⟩ := by
  simp [Position.fifoBody, min_eq_left h.le, sub_ne_zero.2 h.ne', RealizedPnL.ofFill]

/-- A lot no larger than what is left to sell is used up and popped. -/
theorem fifoBody_exact_ge {asset : String} {price total r : ℚ} {lot : Lot ℚ} {rest : List (Lot ℚ)}
    {events : List (RealizedPnL ℚ)} (h : lot.quantity ≤ r) :
    Position.fifoBody asset price ⟨lot :: rest, total, r, events⟩ =
      .ok ⟨rest, total - lot.quantity, r - lot.quantity,
        events ++ [.ofFill asset price lot.pair]⟩ := by
  simp [Position.fifoBody, min_eq_right h, RealizedPnL.ofFill, Lot.pair]

/-- The loop takes the first `r` units off the queue. -/
theorem fifoLoop_exact (asset : String) (price : ℚ) (lots : List (Lot ℚ)) (total r : ℚ)
    (events : List (RealizedPnL ℚ)) {n : ℕ} (hl : Positive (lots.map Lot.pair)) (hr : 0 ≤ r)
    (h : r ≤ weight (lots.map Lot.pair)) (hn : lots.length < n) :
    whileFuel Position.fifoGuard (Position.fifoBody asset price) n ⟨lots, total, r, events⟩ =
      .ok (some ⟨(drop r (lots.map Lot.pair)).map Lot.ofPair, total - r, 0,
        events ++ (take r (lots.map Lot.pair)).map (.ofFill asset price)⟩) := by
  induction lots generalizing total r events n with
  | nil =>
    have hr0 : r = 0 := le_antisymm (by simpa using h) hr
    subst hr0
    rw [whileFuel_done (fifoGuard_of_le (le_refl 0))]
    simp
  | cons lot rest ih =>
    rcases hr.eq_or_lt with rfl | hr
    · rw [whileFuel_done (fifoGuard_of_le (le_refl 0)), take_zero hl, drop_zero hl]
      simp
    · obtain ⟨n, rfl⟩ : ∃ m, n = m + 1 := ⟨n - 1, by simp at hn; omega⟩
      rw [List.map_cons] at hl h
      rcases lt_or_ge r lot.quantity with hlt | hge
      · rw [whileFuel_step (fifoGuard_of_pos hr) (fifoBody_exact_lt hlt),
          whileFuel_done (fifoGuard_of_le (le_refl 0)), List.map_cons, Lot.pair,
          take_cons_of_lt hlt hr, drop_cons_of_lt hlt]
        simp [Lot.ofPair]
      · have h' : r - lot.quantity ≤ weight (rest.map Lot.pair) := by
          rw [weight_cons] at h
          exact sub_le_iff_le_add'.2 h
        rw [whileFuel_step (fifoGuard_of_pos hr) (fifoBody_exact_ge hge),
          ih _ _ _ ((positive_cons _ _).1 hl).2 (sub_nonneg.2 hge) h' (by simp at hn; omega),
          List.map_cons, Lot.pair, take_cons_of_ge hge, drop_cons_of_ge hge]
        simp

/-! ### Positions and books -/

/-- The position holds the book's open lots and held quantity. -/
structure Position.Refines (pos : Position ℚ) (b : Book ℚ) : Prop where
  lots : pos.lots.map Lot.pair = b.openLots
  total : pos.totalQuantity = b.held

theorem Position.refines_new (asset : String) : (Position.new asset).Refines Book.empty :=
  ⟨rfl, by simp [Position.new]⟩

/-- A buy adds its lot. -/
theorem Position.addLot_refines {pos : Position ℚ} {b : Book ℚ} (h : pos.Refines b) {q p : ℚ}
    (hq : 0 < q) (hp : 0 < p) :
    ∃ pos', pos.addLot q p = .ok pos' ∧ pos'.asset = pos.asset ∧
      pos'.Refines (b.buy q p hq hp) := by
  refine ⟨_, rfl, rfl, ?_, ?_⟩
  · rw [Book.openLots_buy, ← h.lots]
    simp [Lot.pair]
  · rw [Book.held_buy, ← h.total]

/-- A sell that the book covers takes its fills off the queue. -/
theorem Position.consumeFifo_refines {pos : Position ℚ} {b : Book ℚ} (h : pos.Refines b)
    {q : ℚ} (p : ℚ) (hq : 0 < q) (hle : q ≤ b.held) :
    ∃ pos', pos.consumeFifo q p = .ok (.ok ((b.fills q).map (.ofFill pos.asset p)), pos') ∧
      pos'.asset = pos.asset ∧ pos'.Refines (b.sell q p hq hle) := by
  have hw : q ≤ weight (pos.lots.map Lot.pair) := by rwa [h.lots, Book.weight_openLots]
  have hl : Positive (pos.lots.map Lot.pair) := by rw [h.lots]; exact b.openLots_positive
  have hloop := fifoLoop_exact pos.asset p pos.lots pos.totalQuantity q [] hl hq.le hw
    (Nat.lt_succ_self _)
  refine ⟨{ pos with lots := (drop q b.openLots).map Lot.ofPair, totalQuantity := b.held - q },
    ?_, rfl, ?_, ?_⟩
  · unfold Position.consumeFifo
    rw [if_neg (by rw [h.total]; exact not_lt.2 hle), hloop, ok_bind, h.lots, h.total,
      List.nil_append]
    rfl
  · rw [Book.openLots_sell, map_pair_map_ofPair]
  · rw [Book.held_sell]

/-- A sell beyond the held quantity is refused with that quantity, and nothing changes. -/
theorem Position.consumeFifo_refused {pos : Position ℚ} {b : Book ℚ} (h : pos.Refines b)
    {q : ℚ} (p : ℚ) (hlt : b.held < q) :
    pos.consumeFifo q p = .ok (.error (.insufficientBalance pos.asset q b.held), pos) := by
  unfold Position.consumeFifo
  rw [if_pos (by rw [h.total]; exact hlt), h.total]

end Ledger
end CryptoAccounting

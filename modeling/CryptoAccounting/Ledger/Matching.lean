import CryptoAccounting.Ledger.Run

/-!
# Representation invariant and FIFO matching

What the run theorem says about the positions themselves: `portfolio_invariant` (every stored
position is consistent, a sell is refused exactly beyond the available quantity, nothing panics)
and `fifo_matching` (the events of a sell and the lots that are left are intersections of intervals
on the cumulative-quantity axis).
-/

namespace CryptoAccounting
namespace Ledger

open Segments WhileLoop

/-! ### The representation invariant -/

/-- What is true of a position that is stored under the name `a`. -/
structure Position.Consistent (a : String) (pos : Position ℚ) : Prop where
  asset : pos.asset = a
  lots : ∀ l ∈ pos.lots, 0 < l.quantity ∧ 0 < l.costPerUnit
  total : pos.totalQuantity = (pos.lots.map Lot.quantity).sum
  nonneg : 0 ≤ pos.totalQuantity
  zero_iff : pos.totalQuantity = 0 ↔ pos.lots = []

/-- Accepted buys minus accepted sells of an asset, in quantity. -/
def available (a : String) (acc : List (ValidTrade ℚ)) : ℚ :=
  weight (buysOf a acc) - weight (sellsOf a acc)

theorem Position.Refines.consistent {pos : Position ℚ} {b : Book ℚ} {a : String}
    (h : pos.Refines b) (ha : pos.asset = a) : pos.Consistent a where
  asset := ha
  lots l hl := by
    have hmem : l.pair ∈ b.openLots := h.lots ▸ List.mem_map_of_mem hl
    exact ⟨b.openLots_positive _ hmem, b.openLots_prices _ hmem⟩
  total := by
    rw [h.total, ← Book.weight_openLots, ← h.lots, weight_pairs]
  nonneg := by rw [h.total]; exact b.held_nonneg
  zero_iff := by
    rw [h.total, ← Book.openLots_eq_nil_iff, ← h.lots, List.map_eq_nil_iff]

/-- The loop of `consume_fifo` on a position that covers the sell ends with nothing left to sell,
with every amount of fuel from one more than the lots. -/
theorem Position.Refines.loop_ends {pos : Position ℚ} {b : Book ℚ} (h : pos.Refines b)
    {q : ℚ} (hq : 0 < q) (hle : q ≤ pos.totalQuantity) (price : ℚ) {n : ℕ}
    (hn : pos.lots.length < n) :
    ∃ s, whileFuel Position.fifoGuard (Position.fifoBody pos.asset price) n
      ⟨pos.lots, pos.totalQuantity, q, []⟩ = .ok (some s) ∧ s.remaining = 0 := by
  have hl : Positive (pos.lots.map Lot.pair) := by rw [h.lots]; exact b.openLots_positive
  have hw : q ≤ weight (pos.lots.map Lot.pair) := by
    rw [h.lots, Book.weight_openLots, ← h.total]
    exact hle
  exact ⟨_, fifoLoop_exact pos.asset price pos.lots pos.totalQuantity q [] hl hq.le hw hn, rfl⟩

theorem held_booksAfter (ts : List (ValidTrade ℚ)) (a : String) :
    (booksAfter ts a).held = available a (accepted ts (resultsOf ts)) := by
  rw [Book.held, buys_booksAfter, sells_booksAfter, available]

/-- **Representation invariant and admission of sells.** After any run every stored position is
consistent, every covered sell of it ends its loop without a panic, and the next trade is rejected
exactly when it is a sell beyond the available quantity; the error reports that quantity and the
portfolio stays as it was. -/
theorem portfolio_invariant (ts : List (ValidTrade ℚ)) :
    ∃ p rs, Portfolio.new.applyAll ts = .ok (p, rs) ∧
      (∀ a pos, p.getPosition a = some pos → pos.Consistent a ∧
        ∀ q price : ℚ, 0 < q → q ≤ pos.totalQuantity → ∀ n, pos.lots.length < n →
          ∃ s, whileFuel Position.fifoGuard (Position.fifoBody pos.asset price) n
            ⟨pos.lots, pos.totalQuantity, q, []⟩ = .ok (some s) ∧ s.remaining = 0) ∧
      ∀ t : ValidTrade ℚ, ∃ r p', p.applyTrade t.trade = .ok (r, p') ∧
        (r.isOk = false ↔ t.side = .sell ∧ available t.asset (accepted ts rs) < t.quantity) ∧
        ∀ e, r = .error e →
          e = .insufficientBalance t.asset t.quantity (available t.asset (accepted ts rs)) ∧
          p' = p := by
  obtain ⟨p, hall, href⟩ := applyAll_new ts
  refine ⟨p, resultsOf ts, hall, fun a pos hpos => ?_, fun t => ?_⟩
  · obtain ⟨hasset, hbook⟩ := href.position a pos hpos
    exact ⟨hbook.consistent hasset, fun q price hq hle n hn => hbook.loop_ends hq hle price hn⟩
  · obtain ⟨p', happ, -, hsame⟩ := applyTrade_refines href t
    rw [← held_booksAfter]
    refine ⟨_, p', happ, ?_, fun e he => ?_⟩
    · rw [← Bool.not_eq_true, outcome_isOk, Book.Accepts, not_or, not_le]
      cases hs : t.side with
      | buy => simp [ValidTrade.order_isBuy_of_buy hs]
      | sell => simp [ValidTrade.order, hs]
    · unfold outcome at he
      split_ifs at he with hacc
      cases he
      exact ⟨rfl, hsame hacc⟩

/-! ### FIFO matching -/

/-- The open lots of an asset; none when it has no position. -/
def Portfolio.lotsOf {D : Type} (p : Portfolio D) (a : String) : List (Lot D) :=
  (p.positions.lookup a).elim [] Position.lots

theorem Portfolio.Refines.lotsOf {p : Portfolio ℚ} {books : Books} (h : p.Refines books)
    (a : String) : (p.lotsOf a).map Lot.pair = (books a).openLots := by
  unfold Portfolio.lotsOf
  cases hl : p.positions.lookup a with
  | none => rw [h.absent a hl, Book.openLots_empty]; rfl
  | some pos => exact (h.position a pos hl).2.lots

/-- The records of a sell over the span `s`, from its intersections with the spans of the buys. -/
def matchSpan (a : String) (buySpans : List (Span ℚ ℚ)) (s : Span ℚ ℚ) : List (RealizedPnL ℚ) :=
  (buySpans.filterMap (Span.meet s.start s.stop)).map (RealizedPnL.ofFill a s.label)

theorem sellEvents_cons (a : String) (t : ValidTrade ℚ) (ts : List (ValidTrade ℚ)) (r : TradeResult)
    (rs : List TradeResult) : sellEvents a (t :: ts) (r :: rs) =
      (if t.asset = a ∧ t.side = .sell then r.toOption.toList else []) ++ sellEvents a ts rs := by
  unfold sellEvents
  rw [List.zip_cons_cons, List.filterMap_cons]
  by_cases h : t.asset = a ∧ t.side = .sell
  · rw [if_pos h, if_pos h]
    cases r <;> rfl
  · rw [if_neg h, if_neg h]
    rfl

/-- A covered sell takes what its interval has in common with the intervals of the buys, later
buys included. -/
theorem fills_eq_meet (b : Book ℚ) {m : List (ℚ × ℚ)} (hm : Positive m) {q : ℚ} (hq : 0 < q)
    (hle : q ≤ b.held) : b.fills q =
      (layOut 0 (b.buys ++ m)).filterMap (Span.meet (weight b.sells) (weight b.sells + q)) := by
  rw [← take_drop_eq_meet_append b.buys_positive hm b.sold_nonneg (by linarith)
    (le_sub_iff_add_le'.1 hle), add_sub_cancel_left]
  rfl

theorem tradesOf_positive (side : TradeSide) (a : String) (ts : List (ValidTrade ℚ)) :
    Positive (tradesOf side a ts) := by
  intro s hs
  obtain ⟨t, -, ht⟩ := List.mem_filterMap.1 hs
  split_ifs at ht
  cases ht
  exact t.positive.1

theorem sellEvents_outcomes (books : Books) (ts : List (ValidTrade ℚ)) (a : String) :
    sellEvents a ts (outcomes books ts) =
      (layOut (weight (books a).sells) (sellsOf a (accepted ts (outcomes books ts)))).map
        (matchSpan a (layOut 0 (books.run ts a).buys)) := by
  induction ts generalizing books with
  | nil => rfl
  | cons t ts ih =>
    have hrun : books.run (t :: ts) = (books.step t).run ts := rfl
    rw [outcomes, sellEvents_cons, ih (books.step t), hrun]
    by_cases hacc : (books t.asset).Accepts t.order
    · rw [accepted_cons_of_accepts hacc]
      by_cases ha : t.asset = a
      · rw [Books.step_same ha, Book.sells_step]
        subst ha
        cases hs : t.side with
        | buy => simp [tradesOf, hs, ValidTrade.order_isBuy_of_buy hs]
        | sell =>
          have hb := ValidTrade.order_isBuy_of_sell hs
          have hle : t.quantity ≤ (books t.asset).held := hacc.resolve_left (by simp [hb])
          have hsells : sellsOf t.asset (t :: accepted ts (outcomes (books.step t) ts)) =
              (t.quantity, t.price) ::
                sellsOf t.asset (accepted ts (outcomes (books.step t) ts)) := by
            simp [tradesOf, hs]
          have hbuys : (books.step t t.asset).buys = (books t.asset).buys := by
            rw [Books.step_same rfl, Book.buys_step, if_neg (by simp [hb])]
          -- The buys of the rest of the run start where the buys known to the sell end.
          have hfin := (books_run_lists (books.step t) ts t.asset).1
          rw [hbuys] at hfin
          have hout : outcome (books t.asset) t =
              .ok (((books t.asset).fills t.quantity).map (.ofFill t.asset t.price)) := by
            rw [outcome, if_pos hacc, Book.fillsOf, if_neg (by simp [hb])]
            rfl
          rw [if_pos ⟨rfl, rfl⟩, if_pos ⟨hb, hle⟩, hsells, layOut, List.map_cons, hfin, hout]
          have hfill := fills_eq_meet (books t.asset)
            (tradesOf_positive .buy t.asset (accepted ts (outcomes (books.step t) ts))) t.positive.1 hle
          simp only [Except.toOption, Option.toList_some, List.singleton_append, matchSpan,
            weight_append, weight_cons, weight_nil, add_zero, ValidTrade.order, hfill]
      · rw [Books.step_other ha]
        simp [tradesOf, ha]
    · -- A refused trade leaves no events and changes no book.
      have hstep : books.step t = books := by
        rw [Books.step, Book.step_refused _ hacc, Function.update_eq_self]
      have hnone : (outcome (books t.asset) t).toOption = none := by
        rw [outcome, if_neg hacc]
        rfl
      rw [accepted_cons_of_refused hacc, hstep, hnone]
      simp

/-- **FIFO matching.** On the cumulative-quantity axis of an asset, with its accepted buys and its
accepted sells each laid end to end in arrival order, the events of every accepted sell are the
non-empty intersections of its interval with the intervals of the buys, in order; and the lots left
after the run are the parts of those intervals to the right of the quantity sold. -/
theorem fifo_matching (ts : List (ValidTrade ℚ)) (a : String) :
    ∃ p rs, Portfolio.new.applyAll ts = .ok (p, rs) ∧
      sellEvents a ts rs = (layOut 0 (sellsOf a (accepted ts rs))).map
        (matchSpan a (layOut 0 (buysOf a (accepted ts rs)))) ∧
      (p.lotsOf a).map Lot.pair = (layOut 0 (buysOf a (accepted ts rs))).filterMap
        (Span.rightOf (weight (sellsOf a (accepted ts rs)))) := by
  obtain ⟨p, hall, href⟩ := applyAll_new ts
  refine ⟨p, resultsOf ts, hall, ?_, ?_⟩
  · have h := sellEvents_outcomes (fun _ => Book.empty) ts a
    rw [show Books.run (fun _ => Book.empty) ts = booksAfter ts from rfl, buys_booksAfter] at h
    exact h
  · have hpos := (booksAfter ts a).buys_positive
    have hsold := (booksAfter ts a).sold_nonneg
    rw [href.lotsOf, Book.openLots, ← buys_booksAfter, ← sells_booksAfter,
      ← drop_eq_rightOf hpos hsold, sub_zero]

end Ledger
end CryptoAccounting

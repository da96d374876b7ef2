import CryptoAccounting.Ledger.Fifo
import CryptoAccounting.Lib.Maps
import CryptoAccounting.Lib.Tables

/-!
# Runs of the ledger's portfolio

`applyAll` applies trades built by `Trade::new` one after the other, going on after a rejection.
The abstract side is one `Book` for each asset. `applyTrade_refines` is the simulation step: in
exact arithmetic a trade never panics, its result is the book's `outcome`, the portfolio follows
the book, and a rejected trade leaves it as it was. `applyAll_refines` is the run: the books after
it consist of exactly the accepted buys and sells.
-/

namespace CryptoAccounting
namespace Ledger

open Segments Tables

/-! ### Trades and runs -/

/-- `Trade::new` copies its arguments, and only positive quantities and prices get through. -/
theorem new_eq_ok {D : Type} [LinearOrder D] [Zero D] {id : Uuid} {asset : String}
    {quantity price : D} {timestamp : Timestamp} {side : TradeSide} {t : Trade D}
    (h : Trade.new id asset quantity price timestamp side = .ok t) :
    t = ⟨id, asset, quantity, price, timestamp, side⟩ ∧ 0 < quantity ∧ 0 < price := by
  unfold Trade.new at h
  split_ifs at h with hq hp
  cases h
  exact ⟨rfl, not_le.1 hq, not_le.1 hp⟩

/-- A trade that `Trade::new` has built. -/
structure ValidTrade (D : Type) [LinearOrder D] [Zero D] where
  trade : Trade D
  built : Trade.new trade.id trade.asset trade.quantity trade.price trade.timestamp trade.side =
    .ok trade

namespace ValidTrade

section Generic

variable {D : Type} [LinearOrder D] [Zero D] (t : ValidTrade D)

abbrev asset : String := t.trade.asset
abbrev quantity : D := t.trade.quantity
abbrev price : D := t.trade.price
abbrev side : TradeSide := t.trade.side

/-- Quantity and price of a trade that was built are positive. -/
theorem positive : 0 < t.quantity ∧ 0 < t.price := (new_eq_ok t.built).2

end Generic

/-- The trade as its book sees it. -/
def order (t : ValidTrade ℚ) : Order ℚ where
  isBuy := decide (t.side = .buy)
  quantity := t.quantity
  price := t.price
  quantity_pos := t.positive.1
  price_pos := t.positive.2

theorem order_isBuy_of_buy {t : ValidTrade ℚ} (h : t.side = .buy) : t.order.isBuy = true :=
  decide_eq_true h

theorem order_isBuy_of_sell {t : ValidTrade ℚ} (h : t.side = .sell) : t.order.isBuy = false :=
  decide_eq_false (by rw [h]; decide)

end ValidTrade

/-- Results of `apply_trade`. -/
abbrev TradeResult := Except (TradeError ℚ) (List (RealizedPnL ℚ))

/-- Apply trades in order; a rejected trade does not stop the run, a panic does. -/
def Portfolio.applyAll (p : Portfolio ℚ) :
    List (ValidTrade ℚ) → Except Panic (Portfolio ℚ × List TradeResult)
  | [] => .ok (p, [])
  | t :: ts => do
    let (r, p') ← p.applyTrade t.trade
    let (p'', rs) ← p'.applyAll ts
    pure (p'', r :: rs)

/-- The trades of a run that were accepted. -/
def accepted (ts : List (ValidTrade ℚ)) (rs : List TradeResult) : List (ValidTrade ℚ) :=
  (ts.zip rs).filterMap fun tr => if tr.2.isOk then some tr.1 else none

/-- The trades of one side and asset, as (quantity, price). -/
def tradesOf (side : TradeSide) (asset : String) (ts : List (ValidTrade ℚ)) : List (ℚ × ℚ) :=
  ts.filterMap fun t =>
    if t.asset = asset ∧ t.side = side then some (t.quantity, t.price) else none

abbrev buysOf : String → List (ValidTrade ℚ) → List (ℚ × ℚ) := tradesOf .buy
abbrev sellsOf : String → List (ValidTrade ℚ) → List (ℚ × ℚ) := tradesOf .sell

/-- The event lists of the accepted sells of one asset, in order. -/
def sellEvents (asset : String) (ts : List (ValidTrade ℚ)) (rs : List TradeResult) :
    List (List (RealizedPnL ℚ)) :=
  (ts.zip rs).filterMap fun tr =>
    if tr.1.asset = asset ∧ tr.1.side = .sell then tr.2.toOption else none

/-! ### Books and portfolios -/

/-- One book for each asset. -/
abbrev Books := String → Book ℚ

/-- What a trade does to its asset's book. -/
def Books.step (books : Books) (t : ValidTrade ℚ) : Books :=
  Function.update books t.asset ((books t.asset).step t.order)

/-- The result the book of the trade's asset prescribes. -/
def outcome (b : Book ℚ) (t : ValidTrade ℚ) : TradeResult :=
  if b.Accepts t.order then .ok ((b.fillsOf t.order).map (.ofFill t.asset t.price))
  else .error (.insufficientBalance t.asset t.quantity b.held)

theorem outcome_isOk (b : Book ℚ) (t : ValidTrade ℚ) :
    (outcome b t).isOk = true ↔ b.Accepts t.order := by
  unfold outcome
  split_ifs with h
  · exact ⟨fun _ => h, fun _ => rfl⟩
  · exact ⟨fun hc => (Bool.false_ne_true hc).elim, fun hc => absurd hc h⟩

/-- Every position is stored under its own name and refines its book, assets without a position
have an empty book, and the running total is what the books have realized. -/
structure Portfolio.Refines (p : Portfolio ℚ) (books : Books) : Prop where
  position : ∀ a pos, p.positions.lookup a = some pos → pos.asset = a ∧ pos.Refines (books a)
  absent : ∀ a, p.positions.lookup a = none → books a = Book.empty
  realized : p.totalRealizedPnl = ∑ a ∈ p.positions.keys, (books a).realized

theorem Portfolio.refines_new : Portfolio.new.Refines fun _ => Book.empty where
  position a pos h := by simp [Portfolio.new] at h
  absent _ _ := rfl
  realized := by simp [Portfolio.new]

theorem keys_insert (m : Finmap fun _ : String => Position ℚ) (a : String) (pos : Position ℚ) :
    (m.insert a pos).keys = insert a m.keys := by
  ext b
  rw [Finmap.mem_keys, Finmap.mem_insert, Finset.mem_insert, Finmap.mem_keys]

/-- Changing one book changes the realized total by the difference. -/
theorem sum_realized_update {S : Finset String} {books : Books} {a : String} (b : Book ℚ)
    (h : a ∉ S → books a = Book.empty) :
    ∑ x ∈ insert a S, (Function.update books a b x).realized =
      ∑ x ∈ S, (books x).realized + (b.realized - (books a).realized) := by
  by_cases ha : a ∈ S
  · rw [Finset.insert_eq_of_mem ha, sum_update S books Book.realized b ha]
  · rw [Finset.sum_insert ha, sum_update_of_notMem S books Book.realized b ha, Function.update_self,
      h ha, Book.realized_empty]
    ring

variable {p : Portfolio ℚ} {books : Books}

/-- Storing a position that refines the trade's new book. -/
theorem Portfolio.Refines.insert (h : p.Refines books) {a : String} {pos : Position ℚ} {b : Book ℚ}
    (hasset : pos.asset = a) (hpos : pos.Refines b) :
    Portfolio.Refines ⟨p.positions.insert a pos,
      p.totalRealizedPnl + (b.realized - (books a).realized)⟩ (Function.update books a b) where
  position x pos' hx := by
    by_cases hxa : x = a
    · subst hxa
      rw [Finmap.lookup_insert] at hx
      cases hx
      rw [Function.update_self]
      exact ⟨hasset, hpos⟩
    · rw [Finmap.lookup_insert_of_ne _ hxa] at hx
      rw [Function.update_of_ne hxa]
      exact h.position x pos' hx
  absent x hx := by
    have hxa : x ≠ a := by rintro rfl; rw [Finmap.lookup_insert] at hx; cases hx
    rw [Finmap.lookup_insert_of_ne _ hxa] at hx
    rw [Function.update_of_ne hxa]
    exact h.absent x hx
  realized := by
    rw [keys_insert, sum_realized_update b (fun ha => h.absent a (Finmap.lookup_eq_none.2 ?_)),
      h.realized]
    rwa [Finmap.mem_keys] at ha

/-! ### The simulation step -/

theorem applyTrade_buy (h : p.Refines books) {t : ValidTrade ℚ} (hs : t.side = .buy) :
    ∃ p', p.applyTrade t.trade = .ok (.ok [], p') ∧ p'.Refines (books.step t) := by
  have hpos : ((p.positions.lookup t.asset).getD (Position.new t.asset)).asset = t.asset ∧
      ((p.positions.lookup t.asset).getD (Position.new t.asset)).Refines (books t.asset) := by
    cases hl : p.positions.lookup t.asset with
    | none =>
      rw [h.absent _ hl]
      exact ⟨rfl, Position.refines_new _⟩
    | some pos => exact h.position _ _ hl
  obtain ⟨pos', hadd, hasset, href⟩ := Position.addLot_refines hpos.2 t.positive.1 t.positive.2
  refine ⟨⟨p.positions.insert t.asset pos', p.totalRealizedPnl⟩, ?_, ?_⟩
  · unfold Portfolio.applyTrade
    simp only [hs]
    rw [hadd, ok_bind]
    rfl
  · have hins := h.insert (hasset.trans hpos.1) href
    rw [Book.realized_buy, sub_self, add_zero] at hins
    rw [Books.step, Book.step_buy _ (ValidTrade.order_isBuy_of_buy hs)]
    exact hins

theorem applyTrade_sell (h : p.Refines books) {t : ValidTrade ℚ} (hs : t.side = .sell)
    (hle : t.quantity ≤ (books t.asset).held) :
    ∃ p', p.applyTrade t.trade =
        .ok (.ok (((books t.asset).fills t.quantity).map (.ofFill t.asset t.price)), p') ∧
      p'.Refines (books.step t) := by
  cases hl : p.positions.lookup t.asset with
  | none =>
    -- An asset without a position holds nothing, so it covers no sell.
    rw [h.absent _ hl, Book.held_empty] at hle
    exact absurd t.positive.1 (not_lt.2 hle)
  | some pos =>
    obtain ⟨hasset, href⟩ := h.position _ _ hl
    obtain ⟨pos', hcons, hasset', href'⟩ :=
      Position.consumeFifo_refines href t.price t.positive.1 hle
    rw [hasset] at hcons
    have hsum : (((books t.asset).fills t.quantity).map (RealizedPnL.ofFill t.asset t.price)).map
        RealizedPnL.realizedPnl =
        ((books t.asset).fills t.quantity).map fun s => s.1 * t.price - s.1 * s.2 := by
      rw [List.map_map]
      rfl
    refine ⟨⟨p.positions.insert t.asset pos', p.totalRealizedPnl +
      (((books t.asset).fills t.quantity).map fun s => s.1 * t.price - s.1 * s.2).sum⟩, ?_, ?_⟩
    · unfold Portfolio.applyTrade
      simp only [hs, hl]
      rw [hcons, ok_bind]
      simp only [foldlM_add_exact, ok_bind, pure_eq_ok, hsum]
    · have hins := h.insert (hasset'.trans hasset) href'
      rw [Book.realized_sell_fills, add_sub_cancel_left] at hins
      rw [Books.step, Book.step_sell _ (ValidTrade.order_isBuy_of_sell hs) hle]
      exact hins

theorem applyTrade_refused (h : p.Refines books) {t : ValidTrade ℚ} (hs : t.side = .sell)
    (hlt : (books t.asset).held < t.quantity) :
    p.applyTrade t.trade =
      .ok (.error (.insufficientBalance t.asset t.quantity (books t.asset).held), p) := by
  cases hl : p.positions.lookup t.asset with
  | none =>
    unfold Portfolio.applyTrade
    simp only [hs, hl]
    rw [h.absent _ hl, Book.held_empty]
  | some pos =>
    obtain ⟨hasset, href⟩ := h.position _ _ hl
    have hcons := Position.consumeFifo_refused href t.price hlt
    unfold Portfolio.applyTrade
    simp only [hs, hl]
    rw [hcons, ok_bind]
    simp only [pure_eq_ok, hasset, Finmap.insert_lookup_self hl]

/-- **One trade.** It does not panic, its result is the one its book prescribes, the portfolio
follows the books, and a rejected trade leaves the portfolio as it was. -/
theorem applyTrade_refines (h : p.Refines books) (t : ValidTrade ℚ) :
    ∃ p', p.applyTrade t.trade = .ok (outcome (books t.asset) t, p') ∧
      p'.Refines (books.step t) ∧ (¬ (books t.asset).Accepts t.order → p' = p) := by
  cases hs : t.side with
  | buy =>
    have hb : t.order.isBuy = true := ValidTrade.order_isBuy_of_buy hs
    obtain ⟨p', happ, href⟩ := applyTrade_buy h hs
    refine ⟨p', ?_, href, fun hc => absurd (.inl hb) hc⟩
    rw [happ, outcome, if_pos (.inl hb), Book.fillsOf, if_pos hb, List.map_nil]
  | sell =>
    have hb : t.order.isBuy = false := ValidTrade.order_isBuy_of_sell hs
    rcases le_or_gt t.quantity (books t.asset).held with hle | hlt
    · obtain ⟨p', happ, href⟩ := applyTrade_sell h hs hle
      refine ⟨p', ?_, href, fun hc => absurd (.inr hle) hc⟩
      rw [happ, outcome, if_pos (.inr hle), Book.fillsOf, if_neg (by simp [hb])]
      rfl
    · have hacc : ¬ (books t.asset).Accepts t.order := by
        rintro (hc | hc)
        · rw [hb] at hc; cases hc
        · exact absurd hc (not_le.2 hlt)
      refine ⟨p, ?_, ?_, fun _ => rfl⟩
      · rw [applyTrade_refused h hs hlt, outcome, if_neg hacc]
      · rw [Books.step, Book.step_refused _ hacc, Function.update_eq_self]
        exact h

/-! ### Runs -/

/-- The results the books prescribe for a run. -/
def outcomes : Books → List (ValidTrade ℚ) → List TradeResult
  | _, [] => []
  | books, t :: ts => outcome (books t.asset) t :: outcomes (books.step t) ts

/-- The books after a run. -/
def Books.run (books : Books) (ts : List (ValidTrade ℚ)) : Books := ts.foldl Books.step books

/-- **A run.** It never panics, gives the results its books prescribe, and the portfolio follows
the books. -/
theorem applyAll_refines (h : p.Refines books) (ts : List (ValidTrade ℚ)) :
    ∃ p', p.applyAll ts = .ok (p', outcomes books ts) ∧ p'.Refines (books.run ts) := by
  induction ts generalizing p books with
  | nil => exact ⟨p, rfl, h⟩
  | cons t ts ih =>
    obtain ⟨p', happ, href, -⟩ := applyTrade_refines h t
    obtain ⟨p'', hall, href'⟩ := ih href
    refine ⟨p'', ?_, href'⟩
    rw [Portfolio.applyAll, happ, ok_bind]
    simp only [hall, ok_bind, pure_eq_ok, outcomes]

theorem Books.step_same {t : ValidTrade ℚ} {a : String} (h : t.asset = a) :
    books.step t a = (books a).step t.order := by
  subst h
  exact Function.update_self ..

theorem Books.step_other {t : ValidTrade ℚ} {a : String} (h : t.asset ≠ a) :
    books.step t a = books a := Function.update_of_ne (Ne.symm h) ..

theorem accepted_cons_of_accepts {t : ValidTrade ℚ} (ht : (books t.asset).Accepts t.order)
    (ts : List (ValidTrade ℚ)) (rs : List TradeResult) :
    accepted (t :: ts) (outcome (books t.asset) t :: rs) = t :: accepted ts rs := by
  have hok := (outcome_isOk (books t.asset) t).2 ht
  simp [accepted, hok]

theorem accepted_cons_of_refused {t : ValidTrade ℚ} (ht : ¬ (books t.asset).Accepts t.order)
    (ts : List (ValidTrade ℚ)) (rs : List TradeResult) :
    accepted (t :: ts) (outcome (books t.asset) t :: rs) = accepted ts rs := by
  have hok : (outcome (books t.asset) t).isOk ≠ true := fun hc => ht ((outcome_isOk _ _).1 hc)
  simp [accepted, hok]

theorem tradesOf_append (side : TradeSide) (asset : String) (ts us : List (ValidTrade ℚ)) :
    tradesOf side asset (ts ++ us) = tradesOf side asset ts ++ tradesOf side asset us :=
  List.filterMap_append

theorem tradesOf_cons (side : TradeSide) (asset : String) (t : ValidTrade ℚ) (ts : List (ValidTrade ℚ)) :
    tradesOf side asset (t :: ts) = tradesOf side asset [t] ++ tradesOf side asset ts :=
  tradesOf_append side asset [t] ts

theorem tradesOf_eq_nil {side : TradeSide} {asset : String} {ts : List (ValidTrade ℚ)}
    (h : ∀ t ∈ ts, t.asset ≠ asset) : tradesOf side asset ts = [] :=
  List.filterMap_eq_nil_iff.2 fun t ht => if_neg fun hc => h t ht hc.1

/-- What an accepted order appends to the two lists of a book. -/
theorem step_lists (b : Book ℚ) {t : ValidTrade ℚ} (h : b.Accepts t.order) :
    (b.step t.order).buys = b.buys ++ buysOf t.asset [t] ∧
      (b.step t.order).sells = b.sells ++ sellsOf t.asset [t] := by
  rw [Book.buys_step, Book.sells_step]
  cases hs : t.side with
  | buy =>
    rw [if_pos (ValidTrade.order_isBuy_of_buy hs),
      if_neg (by simp [ValidTrade.order_isBuy_of_buy hs])]
    simp [tradesOf, hs, ValidTrade.order]
  | sell =>
    have hb := ValidTrade.order_isBuy_of_sell hs
    rw [if_neg (by simp [hb]), if_pos ⟨hb, h.resolve_left (by simp [hb])⟩]
    simp [tradesOf, hs, ValidTrade.order]

/-- What an accepted trade appends to the lists of a book: nothing if it is of another asset. -/
theorem Books.step_lists {t : ValidTrade ℚ} (ht : (books t.asset).Accepts t.order) (a : String) :
    (books.step t a).buys = (books a).buys ++ buysOf a [t] ∧
      (books.step t a).sells = (books a).sells ++ sellsOf a [t] := by
  by_cases ha : t.asset = a
  · subst ha
    rw [Books.step_same rfl]
    exact Ledger.step_lists (books t.asset) ht
  · have hnone : ∀ side, tradesOf side a [t] = [] :=
      fun side => tradesOf_eq_nil (by simpa using ha)
    rw [Books.step_other ha, buysOf, sellsOf, hnone, hnone, List.append_nil, List.append_nil]
    exact ⟨rfl, rfl⟩

/-- The book of an asset grows by the accepted buys and sells of that asset. -/
theorem books_run_lists (books : Books) (ts : List (ValidTrade ℚ)) (a : String) :
    (books.run ts a).buys = (books a).buys ++ buysOf a (accepted ts (outcomes books ts)) ∧
    (books.run ts a).sells = (books a).sells ++ sellsOf a (accepted ts (outcomes books ts)) := by
  induction ts generalizing books with
  | nil => simp [Books.run, accepted, tradesOf]
  | cons t ts ih =>
    obtain ⟨ihb, ihs⟩ := ih (books.step t)
    rw [Books.run, List.foldl_cons, ← Books.run, ihb, ihs, outcomes]
    by_cases hacc : (books t.asset).Accepts t.order
    · obtain ⟨hbuys, hsells⟩ := Books.step_lists hacc a
      rw [accepted_cons_of_accepts hacc, hbuys, hsells, List.append_assoc, List.append_assoc]
      exact ⟨congrArg _ (tradesOf_cons ..).symm, congrArg _ (tradesOf_cons ..).symm⟩
    · -- A refused trade changes no book.
      have hstep : books.step t = books := by
        rw [Books.step, Book.step_refused _ hacc, Function.update_eq_self]
      rw [accepted_cons_of_refused hacc, hstep]
      exact ⟨rfl, rfl⟩

/-- The books after a run from the empty portfolio. -/
def booksAfter (ts : List (ValidTrade ℚ)) : Books := Books.run (fun _ => Book.empty) ts

/-- The results of a run from the empty portfolio. -/
def resultsOf (ts : List (ValidTrade ℚ)) : List TradeResult := outcomes (fun _ => Book.empty) ts

theorem applyAll_new (ts : List (ValidTrade ℚ)) :
    ∃ p, Portfolio.new.applyAll ts = .ok (p, resultsOf ts) ∧ p.Refines (booksAfter ts) :=
  applyAll_refines Portfolio.refines_new ts

theorem buys_booksAfter (ts : List (ValidTrade ℚ)) (a : String) :
    (booksAfter ts a).buys = buysOf a (accepted ts (resultsOf ts)) :=
  (books_run_lists _ ts a).1.trans (List.nil_append _)

theorem sells_booksAfter (ts : List (ValidTrade ℚ)) (a : String) :
    (booksAfter ts a).sells = sellsOf a (accepted ts (resultsOf ts)) :=
  (books_run_lists _ ts a).2.trans (List.nil_append _)

end Ledger
end CryptoAccounting

import CryptoAccounting.Domain.Machine
import CryptoAccounting.Ledger.Fifo
import CryptoAccounting.Ledger.Services
import CryptoAccounting.Lib.Transition

/-!
# Panics of the ledger's endpoints

The services over 96-bit decimals, where every operator rounds and may overflow. A panic under the
write lock poisons it, and from then on every request panics. `noPanic_iff` says exactly which
requests panic in which state, by conditions on the rounded values (`PostFits`, `PortfolioFits`,
`PnlFits`): no code turns an overflow into `TradeError::Overflow`.
-/

namespace CryptoAccounting
namespace Ledger

open DecimalOps WhileLoop Transition

/-! ### What has to fit -/

/-- The sell runs through the lots (quantity, cost): until nothing remains there is a lot, and the
products, their difference and the new total fit. Every result is rounded. -/
def SellFits (price : ℚ) : List (ℚ × ℚ) → ℚ → ℚ → Prop
  | [], _, remaining => remaining ≤ 0
  | lot :: rest, total, remaining =>
    remaining ≤ 0 ∨
      let consumed := min remaining lot.1
      Fits (consumed * lot.2) ∧ Fits (consumed * price) ∧
        Fits (rounded (consumed * price) - rounded (consumed * lot.2)) ∧ Fits (total - consumed) ∧
        SellFits price rest (rounded (total - consumed)) (rounded (remaining - consumed))

/-- The realized PnL of each lot the sell touches. -/
def sellGains (price : ℚ) : List (ℚ × ℚ) → ℚ → List ℚ
  | [], _ => []
  | lot :: rest, remaining =>
    if remaining ≤ 0 then []
    else
      let consumed := min remaining lot.1
      rounded (rounded (consumed * price) - rounded (consumed * lot.2)) ::
        sellGains price rest (rounded (remaining - consumed))

/-- The values of a lot: quantity and cost. -/
def lotValues (l : Lot Dec) : ℚ × ℚ := (l.quantity.val, l.costPerUnit.val)

/-- The values of a position's lots. -/
def Position.values (pos : Position Dec) : List (ℚ × ℚ) := pos.lots.map lotValues

/-- A trade fits into the portfolio: a buy's new total, and for a sell that the total covers, its run
through the lots and the two sums over its gains. -/
def TradeFits (p : Portfolio Dec) (asset : String) (quantity price : Dec) : TradeSide → Prop
  | .buy =>
    match p.positions.lookup asset with
    | none => True
    | some pos => Fits (pos.totalQuantity.val + quantity.val)
  | .sell =>
    match p.positions.lookup asset with
    | none => True
    | some pos =>
      pos.totalQuantity < quantity ∨
        SellFits price.val pos.values pos.totalQuantity.val quantity.val ∧
          SumFits p.totalRealizedPnl.val (sellGains price.val pos.values quantity.val) ∧
          SumFits 0 (sellGains price.val pos.values quantity.val)

/-- A `POST /trades` does not pass the checks, or its notional value and its trade fit. -/
def PostFits (p : Portfolio Dec) (req : TradeRequest Dec) : Prop :=
  isBlank req.asset = true ∨ req.quantity ≤ 0 ∨ req.price ≤ 0 ∨
    Fits (req.quantity.val * req.price.val) ∧
      TradeFits p req.asset req.quantity req.price req.side

/-- The cost of the open lots fits. -/
def CostFits (lots : List (ℚ × ℚ)) : Prop :=
  (∀ l ∈ lots, Fits (l.1 * l.2)) ∧ SumFits 0 (lots.map fun l => rounded (l.1 * l.2))

/-- The rounded cost of the open lots. -/
def roundedCost (lots : List (ℚ × ℚ)) : ℚ := roundedSum 0 (lots.map fun l => rounded (l.1 * l.2))

/-- `GET /portfolio` does not overflow. -/
def PortfolioFits (p : Portfolio Dec) : Prop :=
  ∀ e ∈ p.positions.entries, 0 < e.2.totalQuantity →
    CostFits e.2.values ∧ Fits (roundedCost e.2.values / e.2.totalQuantity.val)

/-- The unrealized PnL of a position, rounded. -/
def roundedUnrealized (pos : Position Dec) (price : Dec) : ℚ :=
  rounded (rounded (pos.totalQuantity.val * price.val) - roundedCost pos.values)

/-- `GET /pnl` does not overflow, going through the positions in this order: as long as there are
prices, each position and the running total fit, and so does the sum with the realized PnL. -/
def PnlFits (realized : ℚ) (engine : PricingEngine Dec) :
    List (Σ _ : String, Position Dec) → ℚ → Prop
  | [], total => Fits (realized + total)
  | ⟨asset, pos⟩ :: rest, total =>
    if pos.totalQuantity = 0 then PnlFits realized engine rest total
    else
      match engine asset with
      | none => True
      | some price =>
        CostFits pos.values ∧ Fits (pos.totalQuantity.val * price.val) ∧
          Fits (rounded (pos.totalQuantity.val * price.val) - roundedCost pos.values) ∧
          Fits (total + roundedUnrealized pos price) ∧
          PnlFits realized engine rest (rounded (total + roundedUnrealized pos price))

/-! ### The system -/

/-- The lock with its portfolio, and whether a call has panicked so far. -/
structure Shared where
  portfolio : Portfolio Dec
  poisoned : Bool
  panicked : Bool

def Shared.init : Shared := { portfolio := Portfolio.new, poisoned := false, panicked := false }

/-- A request; the read requests come with the order in which the map will be iterated over. -/
inductive Request
  | post (req : TradeRequest Dec) (id : Uuid) (now : Timestamp)
  | getPortfolio (order : ∀ p : Portfolio Dec, p.IterOrder)
  | getPnl (order : ∀ p : Portfolio Dec, p.IterOrder) (req : PnLRequest Dec)

/-- A `POST /trades`. What follows the lock in `execute` does not compute with decimals. -/
def Shared.post (s : Shared) (req : TradeRequest Dec) (id : Uuid) (now : Timestamp) : Shared :=
  match CreateTrade.prepare req id now with
  | .error _ => { s with panicked := true }
  | .ok (.error _) => s
  | .ok (.ok (trade, _)) =>
    if s.poisoned then { s with panicked := true }
    else
      match CreateTrade.applyLocked s.portfolio trade with
      -- Nobody can look at the portfolio of a poisoned lock any more.
      | .error _ => { s with poisoned := true, panicked := true }
      | .ok (_, portfolio) => { s with portfolio }

/-- A request that only reads the portfolio; the read lock does not get poisoned. -/
def Shared.read {β : Type} (s : Shared) (answer : Portfolio Dec → Except Panic β) : Shared :=
  if s.poisoned then { s with panicked := true }
  else
    match answer s.portfolio with
    | .error _ => { s with panicked := true }
    | .ok _ => s

/-- Handle one request. -/
def Shared.step (s : Shared) : Request → Option Shared
  | .post req id now => some (s.post req id now)
  | .getPortfolio order => some (s.read fun p => GetPortfolio.execute p (order p))
  | .getPnl order req => some (s.read fun p => GetPnL.execute p (order p) req)

/-- No call has panicked, and the lock is not poisoned. -/
def NoPanic (s : Shared) : Prop := s.panicked = false ∧ s.poisoned = false

/-- The request fits in the state it meets. -/
def RequestFits (s : Shared) : Request → Prop
  | .post req _ _ => PostFits s.portfolio req
  | .getPortfolio _ => PortfolioFits s.portfolio
  | .getPnl order req =>
    PnlFits s.portfolio.totalRealizedPnl.val (fun asset => req.prices.lookup asset)
      (order s.portfolio).1 0

/-! ### The sell -/

/-- All lots have a positive quantity. -/
def LotsPositive (lots : List (Lot Dec)) : Prop := ∀ l ∈ lots, 0 < l.quantity

theorem min_val (a b : Dec) : (min a b).val = min a.val b.val := by
  rcases le_total a b with h | h
  · rw [min_eq_left h, min_eq_left (Dec.le_iff.1 h)]
  · rw [min_eq_right h, min_eq_right (Dec.le_iff.1 h)]

/-- A decimal minus a smaller one fits. -/
theorem fits_sub {a b : Dec} (hb : 0 ≤ b.val) (hab : b.val ≤ a.val) : Fits (a.val - b.val) := by
  refine fits_of_abs_le a ?_
  rw [abs_of_nonneg (by linarith), abs_of_nonneg (by linarith)]
  linarith

/-- What an iteration leaves behind. -/
structure Iterated (asset : String) (price : ℚ) (lot : Lot Dec) (rest : List (Lot Dec))
    (s t : Position.Fifo Dec) : Prop where
  lots : t.lots = rest ∨ s.remaining < lot.quantity ∧
    ∃ quantity : Dec, 0 < quantity ∧ t.lots = { lot with quantity } :: rest
  total : t.totalQuantity.val =
    rounded (s.totalQuantity.val - min s.remaining.val lot.quantity.val)
  remaining : t.remaining.val = rounded (s.remaining.val - min s.remaining.val lot.quantity.val)
  events : ∃ e, t.events = s.events ++ [e] ∧ e.realizedPnl.val =
    rounded (rounded (min s.remaining.val lot.quantity.val * price) -
      rounded (min s.remaining.val lot.quantity.val * lot.costPerUnit.val))

/-- The front lot is gone, or all of what remained came out of it and some of it is left. -/
theorem lots_after (lot : Lot Dec) (rest : List (Lot Dec)) {remaining quantity : Dec}
    (h : quantity.val = rounded (lot.quantity.val - min remaining.val lot.quantity.val)) :
    (if quantity = 0 then rest else { lot with quantity } :: rest) = rest ∨
      remaining < lot.quantity ∧ ∃ q : Dec, 0 < q ∧
        (if quantity = 0 then rest else { lot with quantity } :: rest) =
          { lot with quantity := q } :: rest := by
  by_cases hz : quantity = 0
  · exact .inl (if_pos hz)
  · right
    have hnonneg : 0 ≤ quantity := by
      rw [Dec.le_iff, h]
      exact rounded_nonneg (sub_nonneg.2 (min_le_right _ _))
    refine ⟨?_, quantity, lt_of_le_of_ne hnonneg (Ne.symm hz), if_neg hz⟩
    -- A lot that is used up leaves nothing.
    by_contra hle
    rw [min_eq_right (Dec.le_iff.1 (not_lt.1 hle)), sub_self, rounded_zero] at h
    exact hz (Dec.ext h)

/-- One iteration returns exactly when its results fit. -/
theorem returns_fifoBody (asset : String) (price : Dec) {lot : Lot Dec} {rest : List (Lot Dec)}
    {s : Position.Fifo Dec} (hl : s.lots = lot :: rest) (hr : 0 < s.remaining)
    (hq : 0 < lot.quantity) :
    Returns (Position.fifoBody asset price s)
      (Fits (min s.remaining.val lot.quantity.val * lot.costPerUnit.val) ∧
        Fits (min s.remaining.val lot.quantity.val * price.val) ∧
        Fits (rounded (min s.remaining.val lot.quantity.val * price.val) -
          rounded (min s.remaining.val lot.quantity.val * lot.costPerUnit.val)) ∧
        Fits (s.totalQuantity.val - min s.remaining.val lot.quantity.val))
      (Iterated asset price.val lot rest s) := by
  obtain ⟨c, hc⟩ : ∃ c, c = min s.remaining lot.quantity := ⟨_, rfl⟩
  have hval : min s.remaining.val lot.quantity.val = c.val := by rw [hc, min_val]
  have hc0 : 0 ≤ c.val := by
    rw [← hval]
    exact (lt_min (Dec.lt_iff.1 hr) (Dec.lt_iff.1 hq)).le
  have hcq : c.val ≤ lot.quantity.val := by
    rw [← hval]
    exact min_le_right _ _
  have hcr : c.val ≤ s.remaining.val := by
    rw [← hval]
    exact min_le_left _ _
  unfold Position.fifoBody
  rw [hl, hval]
  simp only [← hc]
  -- In the order of the code. What is left of the lot and of the sell always fits.
  have hbody : Returns (do
      let costBasis ← mul c lot.costPerUnit
      let proceeds ← mul c price
      let realizedPnl ← sub proceeds costBasis
      let quantity ← sub lot.quantity c
      let totalQuantity ← sub s.totalQuantity c
      let remaining ← sub s.remaining c
      (pure
        { lots := if quantity = 0 then rest else { lot with quantity } :: rest
          totalQuantity
          remaining
          events := s.events ++ [⟨asset, c, costBasis, proceeds, realizedPnl⟩] } :
        Except Panic (Position.Fifo Dec)))
      (Fits (c.val * lot.costPerUnit.val) ∧ Fits (c.val * price.val) ∧
        Fits (rounded (c.val * price.val) - rounded (c.val * lot.costPerUnit.val)) ∧
        Fits (lot.quantity.val - c.val) ∧ Fits (s.totalQuantity.val - c.val) ∧
        Fits (s.remaining.val - c.val) ∧ True)
      (Iterated asset price.val lot rest s) := by
    refine (returns_mul c lot.costPerUnit).bind fun costBasis hcost => ?_
    refine (returns_mul c price).bind fun proceeds hproceeds => ?_
    have hgain := returns_sub proceeds costBasis
    rw [hcost, hproceeds] at hgain
    refine hgain.bind fun realizedPnl hrealized => ?_
    refine (returns_sub lot.quantity c).bind fun quantity hquantity => ?_
    refine (returns_sub s.totalQuantity c).bind fun totalQuantity htotal => ?_
    refine (returns_sub s.remaining c).bind fun remaining hremaining => ?_
    refine Returns.ok ⟨?_, ?_, ?_, ⟨_, rfl, ?_⟩⟩
    · exact lots_after lot rest (by rw [hval]; exact hquantity)
    · rw [hval]; exact htotal
    · rw [hval]; exact hremaining
    · rw [hval]; exact hrealized
  refine hbody.imp ?_ fun _ h => h
  have hfq : Fits (lot.quantity.val - c.val) := fits_sub hc0 hcq
  have hfr : Fits (s.remaining.val - c.val) := fits_sub hc0 hcr
  simp only [hfq, hfr, true_and, and_true]

/-- What the loop leaves behind: positive lots, and the records of the gains. -/
def Sold (gains : List ℚ) (events : List (RealizedPnL Dec)) (o : Option (Position.Fifo Dec)) :
    Prop :=
  ∃ s, o = some s ∧ LotsPositive s.lots ∧ ∃ new, s.events = events ++ new ∧
    new.map (fun e => e.realizedPnl.val) = gains

theorem sellFits_zero (price : ℚ) (lots : List (ℚ × ℚ)) (total : ℚ) :
    SellFits price lots total 0 := by
  cases lots with
  | nil => exact le_refl 0
  | cons lot rest => exact .inl (le_refl 0)

theorem sellGains_zero (price : ℚ) (lots : List (ℚ × ℚ)) : sellGains price lots 0 = [] := by
  cases lots with
  | nil => rfl
  | cons lot rest => exact if_pos (le_refl 0)

/-- Once nothing remains the guard is off. -/
theorem returns_fifoLoop_zero (asset : String) (price : Dec) (lots : List (ℚ × ℚ)) (total : ℚ)
    {s : Position.Fifo Dec} (hpos : LotsPositive s.lots) (hr : s.remaining = 0) (n : ℕ) :
    Returns (whileFuel Position.fifoGuard (Position.fifoBody asset price) n s)
      (SellFits price.val lots total s.remaining.val)
      (Sold (sellGains price.val lots s.remaining.val) s.events) := by
  have hg : Position.fifoGuard s = false := decide_eq_false (by rw [hr]; exact lt_irrefl _)
  rw [whileFuel_done hg, hr, Dec.val_zero, sellGains_zero]
  have hsold : Sold [] s.events (some s) := ⟨s, rfl, hpos, [], by simp, rfl⟩
  exact (Returns.ok hsold).imp ⟨fun _ => sellFits_zero _ _ _, fun _ => trivial⟩ fun _ h => h

/-- **The loop** returns exactly when the sell runs through the lots. -/
theorem returns_fifoLoop (asset : String) (price : Dec) (lots : List (Lot Dec))
    (s : Position.Fifo Dec) {n : ℕ} (hl : s.lots = lots) (hpos : LotsPositive lots)
    (hr : 0 ≤ s.remaining) (hn : lots.length < n) :
    Returns (whileFuel Position.fifoGuard (Position.fifoBody asset price) n s)
      (SellFits price.val (lots.map lotValues) s.totalQuantity.val s.remaining.val)
      (Sold (sellGains price.val (lots.map lotValues) s.remaining.val) s.events) := by
  induction lots generalizing s n with
  | nil =>
    rcases hr.eq_or_lt with hr | hr
    · exact returns_fifoLoop_zero asset price _ _ (by rw [hl]; exact hpos) hr.symm n
    · -- The queue is empty and something remains.
      obtain ⟨n, rfl⟩ : ∃ m, n = m + 1 := ⟨n - 1, by simp at hn; omega⟩
      have hg : Position.fifoGuard s = true := decide_eq_true hr
      have hbody : Position.fifoBody asset price s =
          .error (.expect "lot queue unexpectedly empty") := by
        unfold Position.fifoBody
        rw [hl]
      rw [whileFuel_fail hg hbody]
      exact (Returns.error _).imp ⟨False.elim, fun h => not_lt.2 h (Dec.lt_iff.1 hr)⟩ fun _ h => h
  | cons lot rest ih =>
    rcases hr.eq_or_lt with hr | hr
    · exact returns_fifoLoop_zero asset price _ _ (by rw [hl]; exact hpos) hr.symm n
    · obtain ⟨n, rfl⟩ : ∃ m, n = m + 1 := ⟨n - 1, by simp at hn; omega⟩
      have hr0 : ¬ s.remaining.val ≤ 0 := not_le.2 (Dec.lt_iff.1 hr)
      have hq : 0 < lot.quantity := hpos lot List.mem_cons_self
      have hrest : LotsPositive rest := fun l h => hpos l (List.mem_cons_of_mem _ h)
      have hstep : whileFuel Position.fifoGuard (Position.fifoBody asset price) (n + 1) s =
          Position.fifoBody asset price s >>=
            whileFuel Position.fifoGuard (Position.fifoBody asset price) n :=
        if_pos (decide_eq_true hr)
      have hloop : ∀ t, Iterated asset price.val lot rest s t →
          Returns (whileFuel Position.fifoGuard (Position.fifoBody asset price) n t)
            (SellFits price.val (rest.map lotValues) t.totalQuantity.val t.remaining.val)
            (Sold (sellGains price.val (rest.map lotValues) t.remaining.val) t.events) := by
        intro t ht
        rcases ht.lots with hlots | ⟨hlt, quantity, hquantity, hlots⟩
        · refine ih t hlots hrest ?_ (by simp at hn; omega)
          rw [Dec.le_iff, ht.remaining]
          exact rounded_nonneg (sub_nonneg.2 (min_le_left _ _))
        · refine returns_fifoLoop_zero asset price _ _ ?_ ?_ n
          · rw [hlots]
            exact List.forall_mem_cons.2 ⟨hquantity, hrest⟩
          · refine Dec.ext ?_
            rw [ht.remaining, min_eq_left (Dec.lt_iff.1 hlt).le, sub_self, rounded_zero,
              Dec.val_zero]
      have hall : Returns
          (Position.fifoBody asset price s >>=
            whileFuel Position.fifoGuard (Position.fifoBody asset price) n)
          _ (Sold (sellGains price.val ((lot :: rest).map lotValues) s.remaining.val) s.events) :=
        (returns_fifoBody asset price hl hr hq).bind fun t ht => by
          have h := hloop t ht
          rw [ht.total, ht.remaining] at h
          refine h.imp Iff.rfl ?_
          rintro o ⟨u, rfl, hu, new, hnew, hgains⟩
          obtain ⟨e, he, hgain⟩ := ht.events
          refine ⟨u, rfl, hu, e :: new, ?_, ?_⟩
          · rw [hnew, he, List.append_assoc, List.singleton_append]
          · rw [List.map_cons, List.map_cons, sellGains, if_neg hr0, hgains, hgain]
            rfl
      rw [hstep]
      refine hall.imp ?_ fun _ h => h
      rw [List.map_cons, SellFits, or_iff_right hr0]
      simp only [lotValues, and_assoc]

/-! ### A trade under the lock -/

/-- What `consume_fifo` leaves behind: positive lots, and the gains unless the sell is refused. -/
structure Consumed (pos : Position Dec) (quantity price : Dec)
    (r : Except (TradeError Dec) (List (RealizedPnL Dec)) × Position Dec) : Prop where
  positive : LotsPositive r.2.lots
  result : pos.totalQuantity < quantity ∧ (∃ e, r.1 = .error e) ∨
    ¬ pos.totalQuantity < quantity ∧ ∃ events, r.1 = .ok events ∧
      events.map (fun e => e.realizedPnl.val) = sellGains price.val pos.values quantity.val

theorem returns_consumeFifo {pos : Position Dec} (hpos : LotsPositive pos.lots) {quantity : Dec}
    (hq : 0 < quantity) (price : Dec) :
    Returns (pos.consumeFifo quantity price)
      (pos.totalQuantity < quantity ∨
        SellFits price.val pos.values pos.totalQuantity.val quantity.val)
      (Consumed pos quantity price) := by
  unfold Position.consumeFifo
  by_cases hlt : pos.totalQuantity < quantity
  · rw [if_pos hlt]
    have hrefused : Consumed pos quantity price
        (.error (.insufficientBalance pos.asset quantity pos.totalQuantity), pos) :=
      ⟨hpos, .inl ⟨hlt, _, rfl⟩⟩
    exact (Returns.ok hrefused).imp ⟨fun _ => .inl hlt, fun _ => trivial⟩ fun _ h => h
  · rw [if_neg hlt]
    have hloop := returns_fifoLoop pos.asset price pos.lots
      { lots := pos.lots, totalQuantity := pos.totalQuantity, remaining := quantity, events := [] }
      rfl hpos hq.le (Nat.lt_succ_self _)
    rw [or_iff_right hlt]
    refine hloop.bind_total fun o ho => ?_
    obtain ⟨s, rfl, hs, new, hnew, hgains⟩ := ho
    have hevents : s.events = new := hnew
    refine Returns.ok ⟨hs, .inr ⟨hlt, s.events, rfl, ?_⟩⟩
    rw [hevents]
    exact hgains

/-- All lots of the portfolio have a positive quantity. -/
def Portfolio.LotsPositive (p : Portfolio Dec) : Prop :=
  ∀ asset pos, p.positions.lookup asset = some pos → Ledger.LotsPositive pos.lots

theorem Portfolio.LotsPositive.insert {p p' : Portfolio Dec} (hp : p.LotsPositive) {asset : String}
    {pos : Position Dec} (hpos : Ledger.LotsPositive pos.lots)
    (h : p'.positions = p.positions.insert asset pos) : p'.LotsPositive := by
  intro a q hq
  rw [h] at hq
  by_cases ha : a = asset
  · subst ha
    rw [Finmap.lookup_insert] at hq
    cases hq
    exact hpos
  · rw [Finmap.lookup_insert_of_ne _ ha] at hq
    exact hp a q hq

/-- The position a buy adds its lot to has positive lots. -/
theorem Portfolio.LotsPositive.getD {p : Portfolio Dec} (hp : p.LotsPositive) (asset : String) :
    Ledger.LotsPositive ((p.positions.lookup asset).getD (Position.new asset)).lots := by
  cases h : p.positions.lookup asset with
  | none =>
    intro l hl
    cases hl
  | some pos => exact hp asset pos h

theorem returns_addLot (pos : Position Dec) (hpos : LotsPositive pos.lots) {quantity : Dec}
    (hq : 0 < quantity) (price : Dec) :
    Returns (pos.addLot quantity price) (Fits (pos.totalQuantity.val + quantity.val))
      fun pos' => LotsPositive pos'.lots := by
  refine (returns_add pos.totalQuantity quantity).bind_total fun total _ => Returns.ok ?_
  intro l hl
  rcases List.mem_append.1 hl with hl | hl
  · exact hpos l hl
  · rw [List.mem_singleton.1 hl]
    exact hq

/-- What a buy fits into is the total of its position. -/
theorem tradeFits_buy (p : Portfolio Dec) (asset : String) (quantity price : Dec) :
    Fits (((p.positions.lookup asset).getD (Position.new asset)).totalQuantity.val +
      quantity.val) ↔ TradeFits p asset quantity price .buy := by
  unfold TradeFits
  cases p.positions.lookup asset with
  | none => exact ⟨fun _ => trivial, fun _ => fits_of_abs_le quantity (by simp [Position.new])⟩
  | some pos => exact Iff.rfl

/-- The two sums over the gains of a sell: the portfolio's realized PnL and the answer's. -/
theorem returns_sums {events : List (RealizedPnL Dec)} {gains : List ℚ} (total : Dec)
    (h : events.map (fun e => e.realizedPnl.val) = gains) {p : Dec → Portfolio Dec}
    (hp : ∀ d, (p d).LotsPositive) :
    Returns
      (do
        let totalRealizedPnl ← events.foldlM (fun acc e => add acc e.realizedPnl) total
        let realizedPnl ← sumDecimal (events.map RealizedPnL.realizedPnl)
        (.ok (.ok realizedPnl, p totalRealizedPnl) :
          Except Panic (Except (AppError Dec) Dec × Portfolio Dec)))
      (SumFits total.val gains ∧ SumFits 0 gains) fun r => r.2.LotsPositive := by
  have hfirst := returns_sum (fun e : RealizedPnL Dec => e.realizedPnl) events total
  have hsecond := returns_sumDecimal (events.map RealizedPnL.realizedPnl)
  have hmap : (events.map RealizedPnL.realizedPnl).map Dec.val = gains := by
    rw [List.map_map, ← h]
    rfl
  rw [h] at hfirst
  rw [hmap] at hsecond
  exact hfirst.bind fun d _ => hsecond.bind_total fun realized _ => Returns.ok (hp d)

/-- **A trade under the lock** returns exactly when it fits into the portfolio. -/
theorem returns_applyLocked {p : Portfolio Dec} (hp : p.LotsPositive) {trade : Trade Dec}
    (hq : 0 < trade.quantity) :
    Returns (CreateTrade.applyLocked p trade)
      (TradeFits p trade.asset trade.quantity trade.price trade.side)
      fun r => r.2.LotsPositive := by
  unfold CreateTrade.applyLocked Portfolio.applyTrade
  cases hside : trade.side with
  | buy =>
    simp only [bind_assoc, pure_eq_ok, ok_bind]
    rw [← tradeFits_buy]
    exact (returns_addLot _ (hp.getD trade.asset) hq trade.price).bind_total
      fun pos hpos => Returns.ok (hp.insert hpos rfl)
  | sell =>
    unfold TradeFits
    cases hlookup : p.positions.lookup trade.asset with
    | none => exact Returns.ok hp
    | some pos =>
      simp only [bind_assoc]
      suffices h : Returns _
          ((pos.totalQuantity < trade.quantity ∨
              SellFits trade.price.val pos.values pos.totalQuantity.val trade.quantity.val) ∧
            (pos.totalQuantity < trade.quantity ∨
              SumFits p.totalRealizedPnl.val
                  (sellGains trade.price.val pos.values trade.quantity.val) ∧
                SumFits 0 (sellGains trade.price.val pos.values trade.quantity.val))) _ from
        h.imp (by tauto) fun _ h => h
      refine (returns_consumeFifo (hp _ _ hlookup) hq trade.price).bind fun r hr => ?_
      rcases hr.result with ⟨hlt, e, he⟩ | ⟨hlt, events, he, hgains⟩
      · rw [he]
        refine Returns.imp (Returns.ok ?_) ⟨fun _ => Or.inl hlt, fun _ => trivial⟩ fun _ h => h
        exact hp.insert hr.positive rfl
      · rw [he, or_iff_right hlt]
        simp only [bind_assoc, pure_eq_ok, ok_bind]
        exact returns_sums p.totalRealizedPnl hgains fun d => hp.insert hr.positive rfl

/-- The checks pass unless the request is refused, and then the notional value has to fit. -/
theorem returns_prepare (req : TradeRequest Dec) (id : Uuid) (now : Timestamp) :
    Returns (CreateTrade.prepare req id now)
      (isBlank req.asset = true ∨ req.quantity ≤ 0 ∨ req.price ≤ 0 ∨
        Fits (req.quantity.val * req.price.val))
      fun r =>
        (∃ e, r = .error e) ∧ (isBlank req.asset = true ∨ req.quantity ≤ 0 ∨ req.price ≤ 0) ∨
        ∃ trade notionalValue, r = .ok (trade, notionalValue) ∧ trade.asset = req.asset ∧
          trade.quantity = req.quantity ∧ trade.price = req.price ∧ trade.side = req.side ∧
          ¬ (isBlank req.asset = true ∨ req.quantity ≤ 0 ∨ req.price ≤ 0) := by
  by_cases hrefused : isBlank req.asset = true ∨ req.quantity ≤ 0 ∨ req.price ≤ 0
  · have herror : ∃ e, CreateTrade.prepare req id now = .ok (.error e) := by
      unfold CreateTrade.prepare Trade.new
      split_ifs with hblank hquantity hprice
      · exact ⟨_, rfl⟩
      · exact ⟨_, rfl⟩
      · exact ⟨_, rfl⟩
      · tauto
    obtain ⟨e, he⟩ := herror
    rw [he]
    exact Returns.imp (Returns.ok (Or.inl ⟨⟨e, rfl⟩, hrefused⟩))
      ⟨fun _ => by tauto, fun _ => trivial⟩ fun _ h => h
  · have htrade : CreateTrade.prepare req id now = mul req.quantity req.price >>= fun v =>
        .ok (.ok (⟨id, req.asset, req.quantity, req.price, req.timestamp.getD now, req.side⟩, v)) := by
      unfold CreateTrade.prepare Trade.new
      rw [if_neg (by tauto), if_neg (by tauto), if_neg (by tauto)]
      rfl
    rw [htrade]
    refine Returns.imp ((returns_mul req.quantity req.price).bind_total fun v _ => Returns.ok ?_)
      (by tauto) fun _ h => h
    exact .inr ⟨_, v, rfl, rfl, rfl, rfl, rfl, hrefused⟩

/-! ### Reading the portfolio -/

theorem returns_costBasis (pos : Position Dec) :
    Returns pos.costBasis (CostFits pos.values) fun d => d.val = roundedCost pos.values := by
  have h := returns_foldlM (fun l : Lot Dec => returns_mul l.quantity l.costPerUnit) pos.lots 0
  have hmap : pos.values.map (fun l => rounded (l.1 * l.2)) =
      pos.lots.map fun l => rounded (l.quantity.val * l.costPerUnit.val) := by
    rw [Position.values, List.map_map]
    rfl
  unfold CostFits roundedCost
  rw [hmap]
  refine h.imp (and_congr_left' ?_) fun _ h => h
  rw [Position.values, List.forall_mem_map]
  rfl

theorem returns_unrealizedPnl (pos : Position Dec) (price : Dec) :
    Returns (pos.unrealizedPnl price)
      (CostFits pos.values ∧ Fits (pos.totalQuantity.val * price.val) ∧
        Fits (rounded (pos.totalQuantity.val * price.val) - roundedCost pos.values))
      fun u => u.unrealizedPnl.val = roundedUnrealized pos price := by
  refine (returns_costBasis pos).bind fun costBasis hcost => ?_
  refine (returns_mul pos.totalQuantity price).bind fun marketValue hvalue => ?_
  have hsub := returns_sub marketValue costBasis
  rw [hcost, hvalue] at hsub
  exact hsub.bind_total fun d hd => Returns.ok hd

theorem returns_positionResponse {pos : Position Dec} (hpos : 0 < pos.totalQuantity) :
    Returns (PositionResponse.of pos)
      (CostFits pos.values ∧ Fits (roundedCost pos.values / pos.totalQuantity.val))
      fun _ => True := by
  have hne : pos.totalQuantity.val ≠ 0 := (Dec.lt_iff.1 hpos).ne'
  unfold PositionResponse.of Position.averageCost
  rw [if_neg hpos.ne', bind_assoc]
  refine (returns_costBasis pos).bind fun cost hcost => ?_
  have hdiv := returns_div cost pos.totalQuantity hne
  rw [hcost] at hdiv
  rw [bind_assoc]
  exact hdiv.bind_total fun d _ => Returns.ok trivial

/-- `GET /portfolio` returns exactly when the portfolio fits, in whatever order the map yields its
positions. -/
theorem returns_getPortfolio (p : Portfolio Dec) (order : p.IterOrder) :
    Returns (GetPortfolio.execute p order) (PortfolioFits p) fun _ => True := by
  unfold GetPortfolio.execute
  refine Returns.imp (Returns.bind_total (Returns.mapM fun pos hpos =>
    returns_positionResponse (of_decide_eq_true (List.mem_filter.1 hpos).2))
      fun _ _ => Returns.ok trivial) ?_ fun _ h => h
  simp only [List.mem_filter, List.mem_map, decide_eq_true_eq, and_imp, forall_exists_index,
    forall_apply_eq_imp_iff₂, order.mem_entries]
  rfl

/-- The loop of `GET /pnl`, followed by what comes after it. -/
theorem returns_unrealizedLoop {β : Type} {engine : PricingEngine Dec} {realized : ℚ}
    {k : Except (TradeError Dec) Dec → Except Panic β}
    (herror : ∀ e, Returns (k (.error e)) True fun _ => True)
    (hok : ∀ d : Dec, Returns (k (.ok d)) (Fits (realized + d.val)) fun _ => True)
    (l : List (Σ _ : String, Position Dec)) (total : Dec) :
    Returns (Portfolio.unrealizedLoop engine l total >>= k)
      (PnlFits realized engine l total.val) fun _ => True := by
  induction l generalizing total with
  | nil => exact hok total
  | cons e rest ih =>
    obtain ⟨asset, pos⟩ := e
    unfold Portfolio.unrealizedLoop PnlFits
    by_cases hzero : pos.totalQuantity = 0
    · rw [if_pos hzero, if_pos hzero]
      exact ih total
    · rw [if_neg hzero, if_neg hzero]
      cases hprice : engine asset with
      | none => exact herror _
      | some price =>
        simp only [bind_assoc]
        have hu := returns_unrealizedPnl pos price
        refine Returns.imp (hu.bind fun u hu => ?_) (by simp only [and_assoc]; rfl) fun _ h => h
        have hadd := returns_add total u.unrealizedPnl
        rw [hu] at hadd
        refine hadd.bind fun d hd => ?_
        rw [← hd]
        exact ih d

/-- `GET /pnl` returns exactly when the positions fit at these prices, in this order. -/
theorem returns_getPnl (p : Portfolio Dec) (order : p.IterOrder) (req : PnLRequest Dec) :
    Returns (GetPnL.execute p order req)
      (PnlFits p.totalRealizedPnl.val (fun asset => req.prices.lookup asset) order.1 0)
      fun _ => True := by
  unfold GetPnL.execute Portfolio.totalUnrealizedPnl
  refine returns_unrealizedLoop ?_ ?_ order.1 0
  · intro e
    exact Returns.ok trivial
  · intro d
    exact (returns_add p.totalRealizedPnl d).bind_total fun _ _ => Returns.ok trivial

/-! ### Runs -/

theorem not_noPanic {s : Shared} (h : s.panicked = true) : ¬ NoPanic s := by
  rintro ⟨h', -⟩
  rw [h] at h'
  cases h'

theorem read_portfolio {β : Type} (s : Shared) (answer : Portfolio Dec → Except Panic β) :
    (s.read answer).portfolio = s.portfolio := by
  unfold Shared.read
  split_ifs
  · rfl
  · split <;> rfl

theorem read_noPanic {β : Type} {s : Shared} {answer : Portfolio Dec → Except Panic β} {P : Prop}
    {post : β → Prop} (hs : NoPanic s) (h : Returns (answer s.portfolio) P post) :
    NoPanic (s.read answer) ↔ P := by
  have hpoisoned : ¬ s.poisoned = true := by simp [hs.2]
  unfold Shared.read
  rw [if_neg hpoisoned]
  by_cases hP : P
  · obtain ⟨r, hr, -⟩ := h.exists_ok hP
    rw [hr]
    exact iff_of_true hs hP
  · obtain ⟨e, he⟩ := h.exists_error hP
    rw [he]
    exact iff_of_false (not_noPanic rfl) hP

theorem post_noPanic {s : Shared} (hp : s.portfolio.LotsPositive) (hs : NoPanic s)
    (req : TradeRequest Dec) (id : Uuid) (now : Timestamp) :
    (s.post req id now).portfolio.LotsPositive ∧
      (NoPanic (s.post req id now) ↔ PostFits s.portfolio req) := by
  have hpoisoned : ¬ s.poisoned = true := by simp [hs.2]
  have hprepare := returns_prepare req id now
  unfold Shared.post PostFits
  cases hr : CreateTrade.prepare req id now with
  | error e =>
    have hnot := mt hprepare.iff.2 (by rintro ⟨r, hr'⟩; rw [hr] at hr'; cases hr')
    refine ⟨hp, iff_of_false (not_noPanic rfl) fun h => hnot ?_⟩
    tauto
  | ok r =>
    rcases hprepare.post r hr with ⟨⟨e, rfl⟩, hrefused⟩ |
      ⟨trade, v, rfl, hasset, hquantity, hprice, hside, hvalid⟩
    · refine ⟨hp, iff_of_true hs ?_⟩
      tauto
    · have hfits := hprepare.iff.1 ⟨_, hr⟩
      have hq : 0 < trade.quantity := by
        rw [hquantity]
        exact lt_of_not_ge fun h => hvalid (.inr (.inl h))
      have happly := returns_applyLocked hp hq
      rw [hasset, hquantity, hprice, hside] at happly
      simp only [if_neg hpoisoned]
      by_cases htrade : TradeFits s.portfolio req.asset req.quantity req.price req.side
      · obtain ⟨⟨result, portfolio⟩, hresult, hportfolio⟩ := happly.exists_ok htrade
        rw [hresult]
        refine ⟨hportfolio, iff_of_true hs ?_⟩
        tauto
      · obtain ⟨e, he⟩ := happly.exists_error htrade
        rw [he]
        refine ⟨hp, iff_of_false (not_noPanic rfl) ?_⟩
        tauto

/-- **One request** keeps the lots positive, and it panics exactly when it does not fit. -/
theorem step_noPanic {s t : Shared} {a : Request} (hp : s.portfolio.LotsPositive)
    (hs : NoPanic s) (h : s.step a = some t) :
    t.portfolio.LotsPositive ∧ (NoPanic t ↔ RequestFits s a) := by
  cases a with
  | post req id now =>
    cases h
    exact post_noPanic hp hs req id now
  | getPortfolio order =>
    cases h
    rw [read_portfolio]
    exact ⟨hp, read_noPanic hs (returns_getPortfolio s.portfolio (order s.portfolio))⟩
  | getPnl order req =>
    cases h
    rw [read_portfolio]
    exact ⟨hp, read_noPanic hs (returns_getPnl s.portfolio (order s.portfolio) req)⟩

/-- **Panics.** For every sequence of requests, valid or not: none of them panics and the lock is
never poisoned exactly when every request fits in the state it meets. -/
theorem noPanic_iff (requests : List Request) :
    EveryState Shared.step NoPanic Shared.init requests ↔
      EveryStep Shared.step RequestFits Shared.init requests := by
  refine everyState_iff_everyStep (fun s => s.portfolio.LotsPositive) NoPanic ?_ ?_ ?_ ?_ ?_
  · intro s a t hp hs h
    exact (step_noPanic hp hs h).1
  · intro s a t hp hs hfits h
    exact (step_noPanic hp hs h).2.2 hfits
  · intro s a t hp hs h ht
    exact (step_noPanic hp hs h).2.1 ht
  · intro asset pos h
    cases h
  · exact ⟨rfl, rfl⟩

end Ledger
end CryptoAccounting

import CryptoAccounting.Consumer.Portfolio
import CryptoAccounting.Ledger.Fifo

/-!
# The consumer's FIFO engine

The loop of the consumer's `consume_fifo` is the ledger's loop under other names, in every arithmetic
(`fifoLoop_ofLedger`), so what is known of the one holds of the other. In exact arithmetic, a
portfolio whose total is the sum of its lots takes every buy and every sell that the total covers, and
`after` is what it becomes (`apply_accepted`); it refuses everything else (`apply_refused`). Where the
lots may be anything, `apply_totals` says what a taken event adds to the totals.
-/

namespace CryptoAccounting
namespace Consumer

open DecimalOps WhileLoop Segments
open Ledger (Position fifoLoop_exact fifoBody_exact_lt fifoBody_exact_ge fifoGuard_of_pos
  fifoGuard_of_le)

/-! ### The two loops -/

section Loops

variable {D : Type} [LinearOrder D] [Zero D] [DecimalOps D]

/-- The ledger's loop state under the consumer's names. -/
def AssetPortfolio.Fifo.ofLedger (s : Position.Fifo D) : AssetPortfolio.Fifo D where
  lots := s.lots
  totalQuantity := s.totalQuantity
  sellQty := s.remaining
  events := s.events

theorem fifoBody_ofLedger (asset : String) (price : D) (s : Position.Fifo D) :
    AssetPortfolio.fifoBody asset price (.ofLedger s) =
      (Position.fifoBody asset price s).map .ofLedger := by
  obtain ⟨lots, total, remaining, events⟩ := s
  cases lots with
  | nil => rfl
  | cons lot rest =>
    simp only [AssetPortfolio.fifoBody, Position.fifoBody, AssetPortfolio.Fifo.ofLedger, map_bind]
    rfl

/-- **The two loops agree**, in every arithmetic and for every amount of fuel. -/
theorem fifoLoop_ofLedger (asset : String) (price : D) (n : ℕ) (s : Position.Fifo D) :
    whileFuel AssetPortfolio.fifoGuard (AssetPortfolio.fifoBody asset price) n (.ofLedger s) =
      (whileFuel Position.fifoGuard (Position.fifoBody asset price) n s).map
        (Option.map .ofLedger) :=
  whileFuel_map _ (fun _ => rfl) (fifoBody_ofLedger asset price) n s

end Loops

/-! ### Exact arithmetic -/

variable {p : AssetPortfolio ℚ} {event : TradeEvent ℚ}

/-- The lots as weighted segments. -/
def AssetPortfolio.pairs (p : AssetPortfolio ℚ) : List (ℚ × ℚ) := p.lots.map Lot.pair

theorem consumeFifo_exact (hl : Positive p.pairs) {q : ℚ} (hq : 0 ≤ q) (h : q ≤ weight p.pairs)
    (price : ℚ) : p.consumeFifo q price =
      .ok ((take q p.pairs).map (.ofFill p.asset price),
        { p with lots := (drop q p.pairs).map Lot.ofPair, totalQuantity := p.totalQuantity - q }) := by
  have hloop : whileFuel AssetPortfolio.fifoGuard (AssetPortfolio.fifoBody p.asset price)
      (p.lots.length + 1) ⟨p.lots, p.totalQuantity, q, []⟩ = _ :=
    fifoLoop_ofLedger p.asset price (p.lots.length + 1) ⟨p.lots, p.totalQuantity, q, []⟩
  rw [fifoLoop_exact p.asset price p.lots p.totalQuantity q [] hl hq h (Nat.lt_succ_self _)] at hloop
  unfold AssetPortfolio.consumeFifo
  rw [hloop]
  rfl

/-- The lots are positive and the total is their sum. -/
structure AssetPortfolio.Balanced (p : AssetPortfolio ℚ) : Prop where
  positive : Positive p.pairs
  total : p.totalQuantity = weight p.pairs

/-- The portfolio takes the event as a trade of the given side. -/
def AssetPortfolio.Accepts (p : AssetPortfolio ℚ) (event : TradeEvent ℚ) (side : TradeSide) :
    Prop :=
  event.getSide = some side ∧ (side = .sell → event.quantity ≤ p.totalQuantity)

/-- What the event is matched with. -/
def AssetPortfolio.fillsOf (p : AssetPortfolio ℚ) (event : TradeEvent ℚ) :
    TradeSide → List (ℚ × ℚ)
  | .buy => []
  | .sell => take event.quantity p.pairs

/-- What an accepted event realizes: proceeds minus the cost of the oldest lots. -/
def AssetPortfolio.gain (p : AssetPortfolio ℚ) (event : TradeEvent ℚ) : TradeSide → ℚ
  | .buy => 0
  | .sell => event.quantity * event.price - notional (take event.quantity p.pairs)

/-- The portfolio after an accepted event. -/
def AssetPortfolio.after (p : AssetPortfolio ℚ) (event : TradeEvent ℚ) :
    TradeSide → AssetPortfolio ℚ
  | .buy =>
    { p with
      lots := p.lots ++ [{ quantity := event.quantity, costPerUnit := event.price }]
      totalQuantity := p.totalQuantity + event.quantity }
  | .sell =>
    { p with
      lots := (drop event.quantity p.pairs).map Lot.ofPair
      totalQuantity := p.totalQuantity - event.quantity
      totalRealizedPnl := p.totalRealizedPnl + p.gain event .sell }

theorem AssetPortfolio.balanced_new (asset : String) : (AssetPortfolio.new asset).Balanced where
  positive := positive_nil
  total := rfl

theorem sum_realizedPnl_ofFill (asset : String) (price : ℚ) (l : List (ℚ × ℚ)) :
    ((l.map (RealizedPnL.ofFill asset price)).map RealizedPnL.realizedPnl).sum =
      weight l * price - notional l := by
  rw [List.map_map, ← sum_gain]
  rfl

/-- The total and the lots of the portfolio cover the event. -/
def AssetPortfolio.Covers (p : AssetPortfolio ℚ) (event : TradeEvent ℚ) (side : TradeSide) : Prop :=
  event.getSide = some side ∧
    (side = .sell → event.quantity ≤ p.totalQuantity ∧ event.quantity ≤ weight p.pairs)

theorem AssetPortfolio.Balanced.covers (h : p.Balanced) {side : TradeSide}
    (ha : p.Accepts event side) : p.Covers event side :=
  ⟨ha.1, fun hs => ⟨ha.2 hs, h.total ▸ ha.2 hs⟩⟩

/-- The records of a covered event add up to its gain. -/
theorem AssetPortfolio.Covers.sum_fillsOf {side : TradeSide} (hc : p.Covers event side)
    (hl : Positive p.pairs) (hq : 0 < event.quantity) :
    (((p.fillsOf event side).map (RealizedPnL.ofFill p.asset event.price)).map
      RealizedPnL.realizedPnl).sum = p.gain event side := by
  cases side with
  | buy => rfl
  | sell =>
    obtain ⟨-, hle⟩ := hc.2 rfl
    rw [sum_realizedPnl_ofFill, fillsOf, weight_take hl hq.le hle, gain]

/-- The records of an accepted event add up to its gain. -/
theorem AssetPortfolio.Balanced.sum_fillsOf (h : p.Balanced) {side : TradeSide}
    (hq : 0 < event.quantity) (ha : p.Accepts event side) :
    (((p.fillsOf event side).map (RealizedPnL.ofFill p.asset event.price)).map
      RealizedPnL.realizedPnl).sum = p.gain event side :=
  (h.covers ha).sum_fillsOf h.positive hq

/-- A covered event makes the portfolio `after`, with one record for each fill. -/
theorem apply_covered (hl : Positive p.pairs) {side : TradeSide} (hq : 0 < event.quantity)
    (hc : p.Covers event side) : p.apply event =
      .ok (.ok ((p.fillsOf event side).map (.ofFill p.asset event.price)), p.after event side) := by
  have hsum := hc.sum_fillsOf hl hq
  unfold AssetPortfolio.apply
  rw [hc.1]
  cases side with
  | buy => rfl
  | sell =>
    obtain ⟨hle, hweight⟩ := hc.2 rfl
    simp only [if_neg (not_lt.2 hle), consumeFifo_exact hl hq.le hweight, ok_bind,
      foldlM_add_exact]
    rw [AssetPortfolio.after, ← hsum]
    rfl

/-- An accepted event makes the portfolio `after`, with one record for each fill. -/
theorem apply_accepted (h : p.Balanced) {side : TradeSide} (hq : 0 < event.quantity)
    (ha : p.Accepts event side) : p.apply event =
      .ok (.ok ((p.fillsOf event side).map (.ofFill p.asset event.price)), p.after event side) :=
  apply_covered h.positive hq (h.covers ha)

theorem apply_unknownSide (h : event.getSide = none) :
    p.apply event = .ok (.error (.unknownSide event.side), p) := by
  unfold AssetPortfolio.apply
  rw [h]

theorem apply_insufficient (hs : event.getSide = some .sell) (h : p.totalQuantity < event.quantity) :
    p.apply event =
      .ok (.error (.insufficientBalance p.asset event.quantity p.totalQuantity), p) := by
  unfold AssetPortfolio.apply
  rw [hs]
  exact if_pos h

/-- Anything else is an error, and the portfolio stays as it was. -/
theorem apply_refused (h : ∀ side, ¬ p.Accepts event side) :
    ∃ e, p.apply event = .ok (.error e, p) := by
  cases hs : event.getSide with
  | none => exact ⟨_, apply_unknownSide hs⟩
  | some side =>
    cases side with
    | buy => exact absurd ⟨hs, fun hc => by cases hc⟩ (h .buy)
    | sell =>
      have hlt : p.totalQuantity < event.quantity :=
        not_le.1 fun hle => h .sell ⟨hs, fun _ => hle⟩
      exact ⟨_, apply_insufficient hs hlt⟩

/-- An accepted event keeps the balance. -/
theorem AssetPortfolio.Balanced.after (h : p.Balanced) {side : TradeSide} (hq : 0 < event.quantity)
    (ha : p.Accepts event side) : (p.after event side).Balanced := by
  cases side with
  | buy =>
    have hpairs : (p.after event .buy).pairs = p.pairs ++ [(event.quantity, event.price)] := by
      simp [AssetPortfolio.after, AssetPortfolio.pairs, Lot.pair]
    refine ⟨?_, ?_⟩
    · rw [hpairs]
      simpa using ⟨h.positive, hq⟩
    · rw [hpairs, weight_append, weight_cons, weight_nil, add_zero, ← h.total]
      rfl
  | sell =>
    have hle : event.quantity ≤ weight p.pairs := h.total ▸ ha.2 rfl
    have hpairs : (p.after event .sell).pairs = drop event.quantity p.pairs :=
      map_pair_map_ofPair _
    refine ⟨?_, ?_⟩
    · rw [hpairs]
      exact positive_drop h.positive _
    · rw [hpairs, weight_drop h.positive hq.le hle, ← h.total]
      rfl

/-! ### Fewer lots than the total says -/

/-- A sell that the lots do not cover empties the queue, whatever the total is. -/
theorem fifoLoop_runs_out (asset : String) (price : ℚ) {lots : List (Lot ℚ)} {r : ℚ} (total : ℚ)
    (events : List (RealizedPnL ℚ)) {n : ℕ} (hl : Positive (lots.map Lot.pair))
    (h : weight (lots.map Lot.pair) < r) (hn : lots.length < n) :
    whileFuel Position.fifoGuard (Position.fifoBody asset price) n ⟨lots, total, r, events⟩ =
      .error (.expect "lot queue unexpectedly empty") := by
  induction lots generalizing total r events n with
  | nil =>
    obtain ⟨n, rfl⟩ : ∃ m, n = m + 1 := ⟨n - 1, by simp at hn; omega⟩
    have hguard : Position.fifoGuard ⟨[], total, r, events⟩ = true := fifoGuard_of_pos h
    have hempty : Position.fifoBody asset price ⟨[], total, r, events⟩ =
        .error (.expect "lot queue unexpectedly empty") := rfl
    exact whileFuel_fail hguard hempty n
  | cons lot rest ih =>
    obtain ⟨n, rfl⟩ : ∃ m, n = m + 1 := ⟨n - 1, by simp at hn; omega⟩
    obtain ⟨hlot, hrest⟩ := (positive_cons _ _).1 hl
    have hweight : lot.quantity + weight (rest.map Lot.pair) < r := h
    have hnonneg := weight_nonneg hrest
    have hlot : 0 < lot.quantity := hlot
    have hge : lot.quantity ≤ r := by linarith
    rw [whileFuel_step (fifoGuard_of_pos (by dsimp only; linarith)) (fifoBody_exact_ge hge)]
    exact ih _ _ hrest (by linarith) (by simp at hn; omega)

theorem consumeFifo_runs_out (hl : Positive p.pairs) {q : ℚ} (h : weight p.pairs < q) (price : ℚ) :
    p.consumeFifo q price = .error (.expect "lot queue unexpectedly empty") := by
  have hloop : whileFuel AssetPortfolio.fifoGuard (AssetPortfolio.fifoBody p.asset price)
      (p.lots.length + 1) ⟨p.lots, p.totalQuantity, q, []⟩ = _ :=
    fifoLoop_ofLedger p.asset price (p.lots.length + 1) ⟨p.lots, p.totalQuantity, q, []⟩
  rw [fifoLoop_runs_out p.asset price p.totalQuantity [] hl h (Nat.lt_succ_self _)] at hloop
  unfold AssetPortfolio.consumeFifo
  rw [hloop]
  rfl

/-- A sell that passes the balance check and is not covered by the lots. -/
theorem apply_runs_out (hl : Positive p.pairs) (hs : event.getSide = some .sell)
    (hle : event.quantity ≤ p.totalQuantity) (h : weight p.pairs < event.quantity) :
    p.apply event = .error (.expect "lot queue unexpectedly empty") := by
  unfold AssetPortfolio.apply
  rw [hs]
  simp only [if_neg (not_lt.2 hle), consumeFifo_runs_out hl h]
  rfl

/-- A taken event is covered. -/
theorem covers_of_apply (hl : Positive p.pairs) {p' : AssetPortfolio ℚ}
    {records : List (RealizedPnL ℚ)} (h : p.apply event = .ok (.ok records, p')) :
    ∃ side, p.Covers event side := by
  cases hs : event.getSide with
  | none =>
    rw [apply_unknownSide hs] at h
    cases h
  | some side =>
    refine ⟨side, hs, ?_⟩
    rintro rfl
    have hle : event.quantity ≤ p.totalQuantity := by
      by_contra hlt
      rw [apply_insufficient hs (not_le.1 hlt)] at h
      cases h
    refine ⟨hle, ?_⟩
    by_contra hlt
    rw [apply_runs_out hl hs hle (not_le.1 hlt)] at h
    cases h

/-! ### Any lots -/

/-- What a sell of `q` takes from each lot, with its cost. The lots may have any quantities: nothing
checks those of an event. -/
def matched : ℚ → List (Lot ℚ) → List (ℚ × ℚ)
  | _, [] => []
  | q, lot :: rest =>
    if 0 < q then
      (min q lot.quantity, lot.costPerUnit) :: matched (q - min q lot.quantity) rest
    else []

theorem matched_of_le {q : ℚ} (hq : q ≤ 0) (lots : List (Lot ℚ)) : matched q lots = [] := by
  cases lots with
  | nil => rfl
  | cons lot rest => exact if_neg (not_lt.2 hq)

/-- What a covered sell takes adds up to its quantity. -/
theorem weight_matched {q : ℚ} {lots : List (Lot ℚ)}
    (h : q ≤ 0 ∨ q ≤ (lots.map Lot.quantity).sum) : weight (matched q lots) = max q 0 := by
  induction lots generalizing q with
  | nil =>
    have hq : q ≤ 0 := h.elim id fun hle => by simpa using hle
    rw [matched_of_le hq, weight_nil, max_eq_right hq]
  | cons lot rest ih =>
    rcases le_or_gt q 0 with hq | hq
    · rw [matched_of_le hq, weight_nil, max_eq_right hq]
    · have hle : q ≤ lot.quantity + (rest.map Lot.quantity).sum := by
        simpa using h.resolve_left (not_le.2 hq)
      have hrest : q - min q lot.quantity ≤ 0 ∨
          q - min q lot.quantity ≤ (rest.map Lot.quantity).sum := by
        rcases le_total q lot.quantity with hlot | hlot
        · exact .inl (by rw [min_eq_left hlot, sub_self])
        · exact .inr (by rw [min_eq_right hlot]; linarith)
      have hmin : min q lot.quantity ≤ q := min_le_left _ _
      rw [matched, if_pos hq, weight_cons, ih hrest, max_eq_left hq.le,
        max_eq_left (sub_nonneg.2 hmin)]
      ring

/-- **A covered sell never runs out of lots.** What the lots hold beyond the remainder is the same after
every iteration, so an empty queue leaves nothing to sell: the loop stops, and it has taken from the
lots what it has sold. -/
theorem fifoLoop_returns (asset : String) (price : ℚ) {lots : List (Lot ℚ)} {q : ℚ}
    (h : q ≤ 0 ∨ q ≤ (lots.map Lot.quantity).sum) (total : ℚ) (events : List (RealizedPnL ℚ)) {n : ℕ}
    (hn : lots.length < n) :
    ∃ s, whileFuel Position.fifoGuard (Position.fifoBody asset price) n ⟨lots, total, q, events⟩ =
        .ok (some s) ∧
      (s.lots.map Lot.quantity).sum = (lots.map Lot.quantity).sum - max q 0 ∧ s.remaining ≤ 0 := by
  induction lots generalizing total q events n with
  | nil =>
    have hq : q ≤ 0 := h.elim id fun hle => by simpa using hle
    rw [whileFuel_done (fifoGuard_of_le hq), max_eq_right hq, sub_zero]
    exact ⟨_, rfl, rfl, hq⟩
  | cons lot rest ih =>
    rcases le_or_gt q 0 with hq | hq
    · rw [whileFuel_done (fifoGuard_of_le hq), max_eq_right hq, sub_zero]
      exact ⟨_, rfl, rfl, hq⟩
    · obtain ⟨n, rfl⟩ : ∃ m, n = m + 1 := ⟨n - 1, by simp at hn; omega⟩
      have hle : q ≤ lot.quantity + (rest.map Lot.quantity).sum := by
        simpa using h.resolve_left (not_le.2 hq)
      rw [max_eq_left hq.le, List.map_cons, List.sum_cons]
      rcases lt_or_ge q lot.quantity with hlt | hge
      · rw [whileFuel_step (fifoGuard_of_pos hq) (fifoBody_exact_lt hlt),
          whileFuel_done (fifoGuard_of_le (le_refl 0))]
        refine ⟨_, rfl, ?_, le_refl 0⟩
        rw [List.map_cons, List.sum_cons]
        ring
      · have hrest : q - lot.quantity ≤ (rest.map Lot.quantity).sum := by linarith
        obtain ⟨s, hs, hsum, hr⟩ := ih (.inr hrest) (total - lot.quantity)
          (events ++ [.ofFill asset price lot.pair]) (n := n) (by simp at hn; omega)
        rw [whileFuel_step (fifoGuard_of_pos hq) (fifoBody_exact_ge hge)]
        refine ⟨s, hs, ?_, hr⟩
        rw [hsum, max_eq_left (sub_nonneg.2 hge)]
        ring

/-- If the loop stops, it has sold the quantity it started with, or nothing. -/
theorem fifoLoop_ok {asset : String} {price : ℚ} {lots : List (Lot ℚ)} {total q : ℚ}
    {events : List (RealizedPnL ℚ)} {n : ℕ} {s : Position.Fifo ℚ}
    (h : whileFuel Position.fifoGuard (Position.fifoBody asset price) n ⟨lots, total, q, events⟩ =
      .ok (some s)) :
    s.totalQuantity = total - max q 0 ∧
      s.events = events ++ (matched q lots).map (.ofFill asset price) := by
  induction lots generalizing total q events n with
  | nil =>
    rcases le_or_gt q 0 with hq | hq
    · rw [whileFuel_done (fifoGuard_of_le hq)] at h
      cases h
      simp [matched, max_eq_right hq]
    · have hg : Position.fifoGuard ⟨[], total, q, events⟩ = true := fifoGuard_of_pos hq
      cases n with
      | zero => simp [whileFuel, hg] at h
      | succ n =>
        -- The `expect` panics, so nothing is returned.
        have hempty : Position.fifoBody asset price ⟨[], total, q, events⟩ =
            .error (.expect "lot queue unexpectedly empty") := rfl
        rw [whileFuel_fail hg hempty] at h
        cases h
  | cons lot rest ih =>
    rcases le_or_gt q 0 with hq | hq
    · rw [whileFuel_done (fifoGuard_of_le hq)] at h
      cases h
      simp [matched_of_le hq, max_eq_right hq]
    · have hg : Position.fifoGuard ⟨lot :: rest, total, q, events⟩ = true := fifoGuard_of_pos hq
      rw [matched, if_pos hq, max_eq_left hq.le]
      cases n with
      | zero => simp [whileFuel, hg] at h
      | succ n =>
        rcases lt_or_ge q lot.quantity with hlt | hge
        · rw [whileFuel_step hg (fifoBody_exact_lt hlt),
            whileFuel_done (fifoGuard_of_le (le_refl 0))] at h
          cases h
          rw [min_eq_left hlt.le, sub_self, matched_of_le (le_refl 0)]
          exact ⟨rfl, rfl⟩
        · rw [whileFuel_step hg (fifoBody_exact_ge hge)] at h
          obtain ⟨htotal, hevents⟩ := ih h
          rw [min_eq_right hge]
          refine ⟨?_, ?_⟩
          · rw [htotal, max_eq_left (sub_nonneg.2 hge)]
            ring
          · rw [hevents, List.append_assoc]
            rfl

theorem consumeFifo_ok {p p' : AssetPortfolio ℚ} {q price : ℚ} {events : List (RealizedPnL ℚ)}
    (h : p.consumeFifo q price = .ok (events, p')) :
    p'.totalQuantity = p.totalQuantity - max q 0 ∧
      events = (matched q p.lots).map (.ofFill p.asset price) ∧
      p'.totalRealizedPnl = p.totalRealizedPnl := by
  have hloop : whileFuel AssetPortfolio.fifoGuard (AssetPortfolio.fifoBody p.asset price)
      (p.lots.length + 1) ⟨p.lots, p.totalQuantity, q, []⟩ = _ :=
    fifoLoop_ofLedger p.asset price (p.lots.length + 1) ⟨p.lots, p.totalQuantity, q, []⟩
  unfold AssetPortfolio.consumeFifo at h
  rw [hloop] at h
  obtain ⟨o, ho, h⟩ := bind_eq_ok h
  cases hw : whileFuel Position.fifoGuard (Position.fifoBody p.asset price) (p.lots.length + 1)
      ⟨p.lots, p.totalQuantity, q, []⟩ with
  | error e =>
    rw [hw] at ho
    cases ho
  | ok o' =>
    rw [hw] at ho
    cases ho
    cases o' with
    | none => cases h
    | some s =>
      obtain ⟨htotal, hevents⟩ := fifoLoop_ok hw
      cases h
      exact ⟨htotal, hevents, rfl⟩

/-- How an event that is applied changes the total quantity: a sell of a negative quantity sells
nothing. -/
def change (event : TradeEvent ℚ) : ℚ :=
  match event.getSide with
  | some .buy => event.quantity
  | some .sell => -max event.quantity 0
  | none => 0

/-- What an event that is applied realizes. -/
def AssetPortfolio.realizes (p : AssetPortfolio ℚ) (event : TradeEvent ℚ) : ℚ :=
  match event.getSide with
  | some .sell => ((matched event.quantity p.lots).map fun s => s.1 * event.price - s.1 * s.2).sum
  | _ => 0

/-- The records of an event that is applied: a buy has none, a sell one for each lot it takes from. -/
def AssetPortfolio.records (p : AssetPortfolio ℚ) (event : TradeEvent ℚ) : List (RealizedPnL ℚ) :=
  match event.getSide with
  | some .sell => (matched event.quantity p.lots).map (.ofFill p.asset event.price)
  | _ => []

theorem AssetPortfolio.sum_records (p : AssetPortfolio ℚ) (event : TradeEvent ℚ) :
    ((p.records event).map RealizedPnL.realizedPnl).sum = p.realizes event := by
  unfold AssetPortfolio.records AssetPortfolio.realizes
  split
  · rw [List.map_map]
    rfl
  · rfl

/-- **The records and the totals of an event**, whatever the event and the lots. -/
theorem apply_totals {p' : AssetPortfolio ℚ} {events : List (RealizedPnL ℚ)}
    (h : p.apply event = .ok (.ok events, p')) :
    events = p.records event ∧ p'.totalQuantity = p.totalQuantity + change event ∧
      p'.totalRealizedPnl = p.totalRealizedPnl + p.realizes event := by
  unfold AssetPortfolio.apply at h
  rw [← AssetPortfolio.sum_records]
  unfold change AssetPortfolio.records
  split at h
  · cases h
  · next hs =>
    cases h
    rw [hs]
    exact ⟨rfl, rfl, (add_zero _).symm⟩
  · next hs =>
    rw [hs]
    split_ifs at h
    · cases h
    · obtain ⟨⟨fills, p₁⟩, hc, h⟩ := bind_eq_ok h
      obtain ⟨total, htotal, h⟩ := bind_eq_ok h
      obtain ⟨hquantity, hfills, hrealized⟩ := consumeFifo_ok hc
      rw [foldlM_add_exact] at htotal
      cases htotal
      cases h
      refine ⟨hfills, ?_, ?_⟩
      · show p₁.totalQuantity = _
        rw [hquantity, sub_eq_add_neg]
      · show p₁.totalRealizedPnl + _ = _
        rw [hrealized, hfills]

end Consumer
end CryptoAccounting

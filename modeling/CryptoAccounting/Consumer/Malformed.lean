import CryptoAccounting.Consumer.Engine

/-!
# Malformed events

The consumer does not check what it deserialises: an event may have any side, and its quantity and price
may be zero or negative, so that lots of any sign get into the queue. The total is still the sum of the
lots after every event, and that is all the loop of `consume_fifo` needs: no event makes it run out of
lots or go on for ever (`malformed_events`).
-/

namespace CryptoAccounting
namespace Consumer

open DecimalOps WhileLoop Segments
open Ledger (Position)

/-- The total is the sum of the lots, of whatever sign. -/
def AssetPortfolio.Summed (p : AssetPortfolio ℚ) : Prop :=
  p.totalQuantity = (p.lots.map Lot.quantity).sum

variable {p : AssetPortfolio ℚ} {event : TradeEvent ℚ}

/-- A sell within the total ends the loop with nothing left to sell, with every amount of fuel from one
more than the lots. -/
theorem AssetPortfolio.Summed.loop_ends (h : p.Summed) {q : ℚ} (hle : q ≤ p.totalQuantity) (price : ℚ)
    {n : ℕ} (hn : p.lots.length < n) :
    ∃ s, whileFuel AssetPortfolio.fifoGuard (AssetPortfolio.fifoBody p.asset price) n
        ⟨p.lots, p.totalQuantity, q, []⟩ = .ok (some s) ∧ s.sellQty ≤ 0 ∧
      (s.lots.map Lot.quantity).sum = p.totalQuantity - max q 0 := by
  obtain ⟨s, hs, hsum, hr⟩ := fifoLoop_returns p.asset price (.inr (h ▸ hle)) p.totalQuantity [] hn
  have hloop : whileFuel AssetPortfolio.fifoGuard (AssetPortfolio.fifoBody p.asset price) n
      ⟨p.lots, p.totalQuantity, q, []⟩ = _ :=
    fifoLoop_ofLedger p.asset price n ⟨p.lots, p.totalQuantity, q, []⟩
  rw [hs] at hloop
  refine ⟨.ofLedger s, hloop, hr, ?_⟩
  rw [h]
  exact hsum

theorem AssetPortfolio.Summed.consumeFifo (h : p.Summed) {q : ℚ} (hle : q ≤ p.totalQuantity)
    (price : ℚ) : ∃ events p', p.consumeFifo q price = .ok (events, p') ∧ p'.Summed := by
  obtain ⟨s, hs, -, hsum⟩ := h.loop_ends hle price (Nat.lt_succ_self _)
  have hc : p.consumeFifo q price =
      .ok (s.events, { p with lots := s.lots, totalQuantity := s.totalQuantity }) := by
    unfold AssetPortfolio.consumeFifo
    rw [hs]
    rfl
  obtain ⟨htotal, -⟩ := consumeFifo_ok hc
  exact ⟨_, _, hc, htotal.trans hsum.symm⟩

/-- **One event** is taken or refused; a refused one leaves the portfolio as it was. -/
theorem AssetPortfolio.Summed.apply (h : p.Summed) (event : TradeEvent ℚ) :
    ∃ r p', p.apply event = .ok (r, p') ∧ p'.Summed ∧ ∀ e, r = .error e → p' = p := by
  unfold AssetPortfolio.apply
  cases event.getSide with
  | none => exact ⟨_, p, rfl, h, fun _ _ => rfl⟩
  | some side =>
    cases side with
    | buy =>
      refine ⟨_, _, rfl, ?_, nofun⟩
      show p.totalQuantity + event.quantity = _
      rw [h, List.map_append, List.sum_append, List.map_cons, List.map_nil, List.sum_singleton]
    | sell =>
      dsimp only
      split_ifs with hlt
      · exact ⟨_, p, rfl, h, fun _ _ => rfl⟩
      · obtain ⟨events, p', hc, hsum⟩ := h.consumeFifo (not_lt.1 hlt) event.price
        rw [hc, ok_bind]
        simp only [foldlM_add_exact, ok_bind, pure_eq_ok]
        exact ⟨_, _, rfl, hsum, nofun⟩

/-- A positive sell that is taken is matched completely. -/
theorem AssetPortfolio.Summed.sum_quantity (h : p.Summed) {p' : AssetPortfolio ℚ}
    {records : List (RealizedPnL ℚ)} (happ : p.apply event = .ok (.ok records, p'))
    (hs : event.getSide = some .sell) (hq : 0 < event.quantity) :
    (records.map RealizedPnL.quantity).sum = event.quantity := by
  have hle : event.quantity ≤ p.totalQuantity := by
    by_contra hlt
    rw [apply_insufficient hs (not_le.1 hlt)] at happ
    cases happ
  have hweight := weight_matched (.inr (h ▸ hle) : event.quantity ≤ 0 ∨ _)
  rw [max_eq_left hq.le] at hweight
  rw [(apply_totals happ).1, AssetPortfolio.records, hs]
  simp only [List.map_map]
  exact hweight

/-- Apply events in order, going on after an error. -/
def AssetPortfolio.applyEach (p : AssetPortfolio ℚ) : List (TradeEvent ℚ) →
    Except Panic (AssetPortfolio ℚ × List (Except (PortfolioError ℚ) (List (RealizedPnL ℚ))))
  | [] => .ok (p, [])
  | event :: events => do
    let (r, p) ← p.apply event
    let (p, rs) ← p.applyEach events
    pure (p, r :: rs)

theorem AssetPortfolio.Summed.applyEach (h : p.Summed) (events : List (TradeEvent ℚ)) :
    ∃ p' rs, p.applyEach events = .ok (p', rs) ∧ p'.Summed := by
  induction events generalizing p with
  | nil => exact ⟨p, [], rfl, h⟩
  | cons event events ih =>
    obtain ⟨r, p₁, happ, h₁, -⟩ := h.apply event
    obtain ⟨p', rs, hall, h'⟩ := ih h₁
    refine ⟨p', r :: rs, ?_, h'⟩
    rw [AssetPortfolio.applyEach, happ, ok_bind]
    simp only [hall, ok_bind, pure_eq_ok]

/-- **Malformed events cannot hang or crash the engine.** After any events at all, no call has panicked
and the total is the sum of the lots; the loop of every sell within the total stops; the next event is
taken or refused, the records of a positive sell that is taken add up to its quantity, and a refused event
changes nothing. -/
theorem malformed_events (asset : String) (events : List (TradeEvent ℚ)) :
    ∃ p rs, (AssetPortfolio.new asset).applyEach events = .ok (p, rs) ∧
      p.totalQuantity = (p.lots.map Lot.quantity).sum ∧
      (∀ q price : ℚ, q ≤ p.totalQuantity → ∀ n, p.lots.length < n →
        ∃ s, whileFuel AssetPortfolio.fifoGuard (AssetPortfolio.fifoBody p.asset price) n
          ⟨p.lots, p.totalQuantity, q, []⟩ = .ok (some s) ∧ s.sellQty ≤ 0) ∧
      ∀ event : TradeEvent ℚ, ∃ r p', p.apply event = .ok (r, p') ∧
        (∀ e, r = .error e → p' = p) ∧
        ∀ records, r = .ok records → event.getSide = some .sell → 0 < event.quantity →
          (records.map RealizedPnL.quantity).sum = event.quantity := by
  have hnew : (AssetPortfolio.new asset : AssetPortfolio ℚ).Summed := rfl
  obtain ⟨p, rs, hall, h⟩ := hnew.applyEach events
  refine ⟨p, rs, hall, h, fun q price hle n hn => ?_, fun event => ?_⟩
  · obtain ⟨s, hs, hr, -⟩ := h.loop_ends hle price hn
    exact ⟨s, hs, hr⟩
  · obtain ⟨r, p', happ, -, hsame⟩ := h.apply event
    refine ⟨r, p', happ, hsame, ?_⟩
    rintro records rfl hs hq
    exact h.sum_quantity happ hs hq

/-- A lot of a negative quantity is popped, and what is left to sell grows by it. -/
example : ((AssetPortfolio.new "BTC").applyEach
    [sampleEvent 1 .buy (-2), sampleEvent 2 .buy 5, sampleEvent 3 .sell 3]).map
      (fun r => (r.1.lots, r.1.totalQuantity, r.2.map fun x => x.toOption.map List.length)) =
    .ok ([], 0, [some 0, some 0, some 2]) := by decide +kernel

end Consumer
end CryptoAccounting

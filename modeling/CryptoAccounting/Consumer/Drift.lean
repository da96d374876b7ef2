import CryptoAccounting.Consumer.Audit

/-!
# How far the columns drift

A commit rounds the two totals of a row, and the next event starts from what was stored; the lots are
JSON and are never rounded. So the lots of a row are those of the fold of `apply` over the committed
events without a database in between, and every commit takes the totals at most half a column step further
away from those of the fold (`totals_drift`). The balance check of a sell reads the stored total. It differs
from that of the fold between the two totals alone: a sell of a quantity in there is refused although the
lots cover it, or passes the check and empties the queue of lots.
-/

namespace CryptoAccounting
namespace Consumer

open Segments Rounding Transition

variable {p q q' : AssetPortfolio ℚ} {event : TradeEvent ℚ} {ε : ℚ}

/-! ### Portfolios with the same lots -/

/-- The portfolio `q` has the lots of `p`, and totals at most `ε` away from those of `p`. -/
structure AssetPortfolio.Near (ε : ℚ) (p q : AssetPortfolio ℚ) : Prop where
  asset : q.asset = p.asset
  lots : q.lots = p.lots
  totalQuantity : |q.totalQuantity - p.totalQuantity| ≤ ε
  totalRealizedPnl : |q.totalRealizedPnl - p.totalRealizedPnl| ≤ ε

theorem AssetPortfolio.Near.refl (p : AssetPortfolio ℚ) : p.Near 0 p :=
  ⟨rfl, rfl, by simp, by simp⟩

theorem AssetPortfolio.Near.pairs (h : p.Near ε q) : q.pairs = p.pairs :=
  congrArg (List.map Lot.pair) h.lots

/-- An event changes the totals of both by the same amounts: these come from the lots. -/
theorem AssetPortfolio.Near.after (h : p.Near ε q) (event : TradeEvent ℚ) (side : TradeSide) :
    (p.after event side).Near ε (q.after event side) := by
  cases side with
  | buy =>
    refine ⟨h.asset, congrArg (· ++ _) h.lots, ?_, h.totalRealizedPnl⟩
    simpa [AssetPortfolio.after] using h.totalQuantity
  | sell =>
    have hgain : q.gain event .sell = p.gain event .sell := by
      rw [AssetPortfolio.gain, AssetPortfolio.gain, h.pairs]
    refine ⟨h.asset, ?_, ?_, ?_⟩
    · simp only [AssetPortfolio.after, h.pairs]
    · simpa [AssetPortfolio.after] using h.totalQuantity
    · simpa [AssetPortfolio.after, hgain] using h.totalRealizedPnl

theorem AssetPortfolio.Near.records (h : p.Near ε q) (event : TradeEvent ℚ) :
    q.records event = p.records event ∧ q.realizes event = p.realizes event := by
  unfold AssetPortfolio.records AssetPortfolio.realizes
  rw [h.lots, h.asset]
  exact ⟨rfl, rfl⟩

/-- What `q` takes, `p` takes. -/
theorem AssetPortfolio.Near.apply (h : p.Near ε q) (hb : p.Balanced) (hq : 0 < event.quantity)
    {records : List (RealizedPnL ℚ)} (happ : q.apply event = .ok (.ok records, q')) :
    ∃ side, p.Accepts event side ∧ q' = q.after event side ∧
      p.apply event = .ok (.ok records, p.after event side) := by
  have hl : Positive q.pairs := h.pairs ▸ hb.positive
  obtain ⟨side, hc⟩ := covers_of_apply hl happ
  have hacc : p.Accepts event side := by
    refine ⟨hc.1, fun hs => ?_⟩
    rw [hb.total, ← h.pairs]
    exact (hc.2 hs).2
  rw [apply_covered hl hq hc] at happ
  cases happ
  refine ⟨side, hacc, rfl, ?_⟩
  rw [apply_accepted hb hq hacc, AssetPortfolio.fillsOf.eq_def, AssetPortfolio.fillsOf.eq_def, h.pairs,
    h.asset]

/-- **One write** rounds each total by half a step at most. -/
theorem AssetPortfolio.Near.write (h : p.Near ε q) {id : Uuid} {ts : Timestamp} {row : PortfolioRow}
    (hrow : PortfolioRow.ofPortfolio numericColumn q id ts = some row) :
    p.Near (ε + columnStep / 2) (row.toPortfolio q.asset) := by
  obtain ⟨hlots, hquantity, hrealized⟩ := ofPortfolio_eq_some hrow
  have hround : ∀ {x y z : ℚ}, numericColumn x = some y → |x - z| ≤ ε → |y - z| ≤ ε + columnStep / 2 := by
    intro x y z hy hx
    have hstep := abs_roundHalfAway_sub_le columnStep_pos x
    rw [← eq_of_numericColumn hy] at hstep
    linarith [abs_sub_le y x z]
  exact ⟨h.asset, hlots.trans h.lots, hround hquantity h.totalQuantity,
    hround hrealized h.totalRealizedPnl⟩

/-! ### Histories -/

/-- What `n` commits can add up to. -/
def drift (n : ℕ) : ℚ := n * (columnStep / 2)

theorem drift_zero : drift 0 = 0 := by simp [drift]

theorem drift_succ (n : ℕ) : drift (n + 1) = drift n + columnStep / 2 := by
  unfold drift
  push_cast
  ring

/-- The fold of `apply` over the committed events of an asset gets to the portfolio `p`, and the tables are
near it. -/
structure Drifts (asset : String) (log : List (TradeEvent ℚ × Delivery)) (db : Db)
    (p : AssetPortfolio ℚ) : Prop where
  replay : (AssetPortfolio.new asset).replay (eventsOf log asset) = some p
  balanced : p.Balanced
  row : p.Near (drift (eventsOf log asset).length) (db.portfolio asset)
  snapshots : |((snapshotsOf db asset).map PnlSnapshot.realizedPnl).sum - p.totalRealizedPnl| ≤
    drift (eventsOf log asset).length

variable {log : List (TradeEvent ℚ × Delivery)} {db db' : Db} {d : Delivery} {asset : String}

theorem drifts_empty (asset : String) : Drifts asset [] Db.empty (AssetPortfolio.new asset) := by
  have hdrift : drift (eventsOf [] asset).length = 0 := drift_zero
  refine ⟨rfl, AssetPortfolio.balanced_new asset, ?_, ?_⟩
  · rw [hdrift]
    exact .refl _
  · rw [hdrift]
    simp [snapshotsOf, Db.empty, AssetPortfolio.new]

/-- **One commit** of the asset. -/
theorem Drifts.recorded (h : Drifts event.asset log db p) (hq : 0 < event.quantity)
    (hrec : Recorded numericColumn db event d db') :
    ∃ side, p.Accepts event side ∧ Drifts event.asset (log ++ [(event, d)]) db' (p.after event side) := by
  obtain ⟨snapshot, ht⟩ := hrec.trail
  obtain ⟨-, -, records, q, row, _, happ, hrow, -, hdb⟩ := hrec
  obtain ⟨side, hacc, rfl, hp⟩ := h.row.apply h.balanced hq happ
  have hevents : eventsOf (log ++ [(event, d)]) event.asset = eventsOf log event.asset ++ [event] := by
    rw [eventsOf_append, if_pos rfl]
  refine ⟨side, hacc, ?_, h.balanced.after hq hacc, ?_, ?_⟩
  · rw [hevents, replay_append, h.replay, Option.bind_some]
    simp only [AssetPortfolio.replay, hp]
  · have hnear := (h.row.after event side).write hrow
    rw [apply_asset happ] at hnear
    rw [hevents, List.length_append, List.length_singleton, drift_succ, hdb, portfolio_update]
    exact hnear
  · -- What the event realizes comes from the lots, and the snapshot rounds it once.
    have hstep := abs_roundHalfAway_sub_le columnStep_pos ((db.portfolio event.asset).realizes event)
    rw [← ht.realizedPnl, (h.row.records event).2] at hstep
    have hsum := h.snapshots
    rw [hevents, List.length_append, List.length_singleton, drift_succ, ht.snapshotsOf, if_pos rfl,
      List.map_append, List.sum_append, List.map_singleton, List.sum_singleton, (apply_totals hp).2.2,
      add_sub_add_comm]
    exact (abs_add_le _ _).trans (add_le_add hsum hstep)

/-- A commit on another asset. -/
theorem Drifts.recorded_of_ne (h : Drifts asset log db p) (hrec : Recorded numericColumn db event d db')
    (ha : asset ≠ event.asset) : Drifts asset (log ++ [(event, d)]) db' p := by
  obtain ⟨snapshot, ht⟩ := hrec.trail
  have hevents : eventsOf (log ++ [(event, d)]) asset = eventsOf log asset := by
    rw [eventsOf_append, if_neg (Ne.symm ha), List.append_nil]
  have hsnapshots : snapshotsOf db' asset = snapshotsOf db asset := by
    rw [ht.snapshotsOf, if_neg (Ne.symm ha), List.append_nil]
  refine ⟨?_, h.balanced, ?_, ?_⟩
  · rw [hevents]
    exact h.replay
  · rw [hevents, hrec.portfolio_of_ne ha]
    exact h.row
  · rw [hevents, hsnapshots]
    exact h.snapshots

theorem History.drifts (h : History numericColumn log db) (hq : ∀ c ∈ log, 0 < c.1.quantity)
    (asset : String) : ∃ p, Drifts asset log db p := by
  induction h with
  | empty => exact ⟨_, drifts_empty asset⟩
  | @commit log db db' event d h hrec ih =>
    obtain ⟨p, hp⟩ := ih fun c hc => hq c (List.mem_append_left _ hc)
    by_cases ha : asset = event.asset
    · subst ha
      have hpos : 0 < event.quantity := hq (event, d) (by simp)
      obtain ⟨side, -, hafter⟩ := hp.recorded hpos hrec
      exact ⟨_, hafter⟩
    · exact ⟨p, hp.recorded_of_ne hrec ha⟩

/-- Where the rows are the folds, nothing has drifted. -/
theorem Drifts.eq_of_folded (h : Drifts asset log db p) (hf : Folded log db)
    (hist : History numericColumn log db) : p = db.portfolio asset :=
  Option.some_inj.1 (h.replay.symm.trans (hf.portfolio hist asset))

/-! ### The balance check -/

/-- **A sell on the stored row** and on the fold. -/
theorem AssetPortfolio.Near.sell (h : p.Near ε q) (hb : p.Balanced) (hs : event.getSide = some .sell)
    (hq : 0 < event.quantity) :
    q.apply event =
      if q.totalQuantity < event.quantity then
        .ok (.error (.insufficientBalance p.asset event.quantity q.totalQuantity), q)
      else if p.totalQuantity < event.quantity then
        .error (.expect "lot queue unexpectedly empty")
      else .ok (.ok (p.records event), q.after event .sell) := by
  have hl : Positive q.pairs := h.pairs ▸ hb.positive
  split_ifs with hrefused hpanics
  · rw [apply_insufficient hs hrefused, h.asset]
  · refine apply_runs_out hl hs (not_lt.1 hrefused) ?_
    rw [h.pairs, ← hb.total]
    exact hpanics
  · have hc : q.Covers event .sell := by
      refine ⟨hs, fun _ => ⟨not_lt.1 hrefused, ?_⟩⟩
      rw [h.pairs, ← hb.total]
      exact not_lt.1 hpanics
    have happ := apply_covered hl hq hc
    rw [happ, (apply_totals happ).1, (h.records event).1]

/-- **The drift.** In every state that the consumer reaches with the columns as they are deployed, and in
which the committed quantities are positive: the events of an asset, applied one after the other without a
database in between, are all taken. The stored lots are the lots that they leave. The stored totals, and
the sum of what the snapshots say to be realized, are off by at most half a column step for each of them.
A sell is refused, taken with the right records, or ends in a panic, and differs from the fold only if its
quantity is between the two totals. -/
theorem totals_drift (actions : List Server.Action) (s : Server)
    (hs : run (Server.step numericColumn) Server.init actions = some s)
    (hq : ∀ c ∈ s.log, 0 < c.1.quantity) (asset : String) :
    ∃ p : AssetPortfolio ℚ, (AssetPortfolio.new asset).replay (eventsOf s.log asset) = some p ∧
      (s.db.portfolio asset).lots = p.lots ∧
      |(s.db.portfolio asset).totalQuantity - p.totalQuantity| ≤ drift (eventsOf s.log asset).length ∧
      |(s.db.portfolio asset).totalRealizedPnl - p.totalRealizedPnl| ≤
        drift (eventsOf s.log asset).length ∧
      |((snapshotsOf s.db asset).map PnlSnapshot.realizedPnl).sum - p.totalRealizedPnl| ≤
        drift (eventsOf s.log asset).length ∧
      ∀ event : TradeEvent ℚ, event.getSide = some .sell → 0 < event.quantity →
        p.apply event =
          (if p.totalQuantity < event.quantity then
            .ok (.error (.insufficientBalance asset event.quantity p.totalQuantity), p)
          else .ok (.ok (p.records event), p.after event .sell)) ∧
        (s.db.portfolio asset).apply event =
          if (s.db.portfolio asset).totalQuantity < event.quantity then
            .ok (.error (.insufficientBalance asset event.quantity
              (s.db.portfolio asset).totalQuantity), s.db.portfolio asset)
          else if p.totalQuantity < event.quantity then
            .error (.expect "lot queue unexpectedly empty")
          else .ok (.ok (p.records event), (s.db.portfolio asset).after event .sell) := by
  obtain ⟨p, h⟩ := (run_history hs).2.drifts hq asset
  have hasset : p.asset = asset := h.row.asset.symm
  refine ⟨p, h.replay, h.row.lots, h.row.totalQuantity, h.row.totalRealizedPnl, h.snapshots,
    fun event hside hpos => ⟨?_, ?_⟩⟩
  · rw [(AssetPortfolio.Near.refl p).sell h.balanced hside hpos, hasset]
    split_ifs <;> rfl
  · rw [h.row.sell h.balanced hside hpos, hasset]

/-- Two buys of half a step. -/
def halfSteps : List Server.Action :=
  statements 0 (sampleEvent 1 .buy (5 / 10 ^ 11)) ⟨0, 0, 0, 0, none⟩ ++
    statements 0 (sampleEvent 2 .buy (5 / 10 ^ 11)) ⟨0, 1, 1, 1, none⟩

/-- Both are rounded up, and the drift is all that two commits can add up to: the total says two steps where
the lots hold one. -/
theorem totals_drift_halfSteps : ∃ s, run (Server.step numericColumn) Server.init halfSteps = some s ∧
    ∃ p : AssetPortfolio ℚ, (AssetPortfolio.new "BTC").replay (eventsOf s.log "BTC") = some p ∧
      |(s.db.portfolio "BTC").totalQuantity - p.totalQuantity| ≤ drift 2 ∧
      (s.db.portfolio "BTC").totalQuantity = 2 * columnStep ∧ p.totalQuantity = columnStep := by
  have hview : (run (Server.step numericColumn) Server.init halfSteps).map (fun s =>
      (s.log.map Prod.fst, (s.db.portfolio "BTC").totalQuantity)) =
        some ([sampleEvent 1 .buy (5 / 10 ^ 11), sampleEvent 2 .buy (5 / 10 ^ 11)], 2 * columnStep) := by
    decide +kernel
  obtain ⟨s, hs, hparts⟩ := Option.map_eq_some_iff.1 hview
  obtain ⟨hlog, htotal⟩ := Prod.mk.inj hparts
  have hq : ∀ c ∈ s.log, 0 < c.1.quantity := by
    intro c hc
    have hevent : c.1 ∈ s.log.map Prod.fst := List.mem_map_of_mem hc
    rw [hlog] at hevent
    have hall : ∀ e ∈ [sampleEvent 1 .buy (5 / 10 ^ 11), sampleEvent 2 .buy (5 / 10 ^ 11)],
        0 < e.quantity := by decide +kernel
    exact hall c.1 hevent
  obtain ⟨p, hreplay, -, hdrift, -⟩ := totals_drift halfSteps s hs hq "BTC"
  have hevents : eventsOf s.log "BTC" =
      [sampleEvent 1 .buy (5 / 10 ^ 11), sampleEvent 2 .buy (5 / 10 ^ 11)] := by
    rw [eventsOf, hlog]
    decide +kernel
  rw [hevents] at hreplay hdrift
  have hfold : ((AssetPortfolio.new "BTC").replay [sampleEvent 1 .buy (5 / 10 ^ 11),
      sampleEvent 2 .buy (5 / 10 ^ 11)]).map AssetPortfolio.totalQuantity = some columnStep := by
    decide +kernel
  rw [hreplay] at hfold
  refine ⟨s, hs, p, ?_, hdrift, htotal, Option.some_inj.1 hfold⟩
  rw [hevents]
  exact hreplay

end Consumer
end CryptoAccounting

import CryptoAccounting.Consumer.Serial

/-!
# The audit trail

Each committed event leaves a snapshot with what it has realized and with the running total of its asset.
The two columns are rounded independently, and the next event starts from the rounded total.
`audit_iff` says exactly when the trail adds up: a loss of an odd number of half steps is rounded down by
itself and up as part of a positive total.
-/

namespace CryptoAccounting
namespace Consumer

open Rounding Transition

/-! ### The property -/

/-- The snapshots of an asset, in the order in which their events were applied. -/
def snapshotsOf (db : Db) (asset : String) : List PnlSnapshot :=
  db.pnlSnapshots.filter fun snapshot => snapshot.asset = asset

/-- From the given total on, the total of every snapshot is the one before plus what the snapshot says
to be realized. -/
def RunningTotals : ℚ → List PnlSnapshot → Prop
  | _, [] => True
  | total, snapshot :: snapshots =>
    snapshot.totalRealizedPnl = total + snapshot.realizedPnl ∧
      RunningTotals (total + snapshot.realizedPnl) snapshots

/-- The row's total is the sum over all snapshots of the asset, and the total of each snapshot is the sum
up to and including it. -/
structure AuditAdds (asset : String) (db : Db) : Prop where
  total : ∀ row, db.portfolioState asset = some row →
    row.totalRealizedPnl = ((snapshotsOf db asset).map PnlSnapshot.realizedPnl).sum
  running : RunningTotals 0 (snapshotsOf db asset)

theorem runningTotals_append (total : ℚ) (l : List PnlSnapshot) (snapshot : PnlSnapshot) :
    RunningTotals total (l ++ [snapshot]) ↔ RunningTotals total l ∧
      snapshot.totalRealizedPnl =
        total + (l.map PnlSnapshot.realizedPnl).sum + snapshot.realizedPnl := by
  induction l generalizing total with
  | nil => simp [RunningTotals]
  | cons s l ih =>
    rw [List.cons_append, RunningTotals, RunningTotals, ih, List.map_cons, List.sum_cons, and_assoc,
      ← add_assoc total]

/-! ### One commit -/

variable {db db' : Db} {event : TradeEvent ℚ} {d : Delivery} {asset : String}
variable {log : List (TradeEvent ℚ × Delivery)}

/-- What a commit adds to the trail. -/
structure Trail (db : Db) (event : TradeEvent ℚ) (d : Delivery) (db' : Db)
    (snapshot : PnlSnapshot) : Prop where
  pnlSnapshots : db'.pnlSnapshots = db.pnlSnapshots ++ [snapshot]
  eventId : snapshot.eventId = event.eventId
  asset : snapshot.asset = event.asset
  computedAt : snapshot.computedAt = d.now
  row : (db'.portfolio event.asset).totalRealizedPnl = snapshot.totalRealizedPnl
  realizedPnl : snapshot.realizedPnl =
    roundHalfAway columnStep ((db.portfolio event.asset).realizes event)
  totalRealizedPnl : snapshot.totalRealizedPnl = roundHalfAway columnStep
    ((db.portfolio event.asset).totalRealizedPnl + (db.portfolio event.asset).realizes event)

theorem Recorded.trail (h : Recorded numericColumn db event d db') :
    ∃ snapshot, Trail db event d db' snapshot := by
  obtain ⟨-, -, pnlEvents, portfolio, row, snapshot, happ, hrow, hsnap, rfl⟩ := h
  obtain ⟨hrecords, -, htotal⟩ := apply_totals happ
  obtain ⟨-, -, hrowTotal⟩ := ofPortfolio_eq_some hrow
  obtain ⟨heventId, -, -, hrealized, hsnapTotal⟩ := snapshot_eq_some hsnap
  obtain ⟨hasset, hnow⟩ := snapshot_copies hsnap
  rw [hrecords, AssetPortfolio.sum_records] at hrealized
  rw [htotal] at hsnapTotal hrowTotal
  refine ⟨snapshot, rfl, heventId, hasset, hnow, ?_, eq_of_numericColumn hrealized,
    eq_of_numericColumn hsnapTotal⟩
  rw [hsnapTotal] at hrowTotal
  rw [portfolio_update]
  exact (Option.some_inj.1 hrowTotal).symm

theorem Trail.snapshotsOf {snapshot : PnlSnapshot} (h : Trail db event d db' snapshot)
    (asset : String) : snapshotsOf db' asset =
      snapshotsOf db asset ++ if event.asset = asset then [snapshot] else [] := by
  unfold Consumer.snapshotsOf
  rw [h.pnlSnapshots, List.filter_append, List.filter_singleton, h.asset]
  by_cases ha : event.asset = asset <;> simp [ha]

/-- Before there is a row there is no snapshot. -/
theorem History.snapshotsOf_eq_nil (h : History numericColumn log db)
    (hrow : db.portfolioState asset = none) : snapshotsOf db asset = [] := by
  induction h with
  | empty => rfl
  | @commit log db db' event d h hrec ih =>
    obtain ⟨snapshot, ht⟩ := hrec.trail
    by_cases ha : asset = event.asset
    · subst ha
      obtain ⟨-, -, _, _, row, _, -, -, -, rfl⟩ := hrec
      simp at hrow
    · rw [hrec.portfolioState_of_ne ha] at hrow
      rw [ht.snapshotsOf, ih hrow, if_neg (Ne.symm ha), List.nil_append]

/-- The row's total, also before there is a row. -/
theorem History.auditAdds_iff (h : History numericColumn log db) :
    AuditAdds asset db ↔
      (db.portfolio asset).totalRealizedPnl =
        ((snapshotsOf db asset).map PnlSnapshot.realizedPnl).sum ∧
      RunningTotals 0 (snapshotsOf db asset) := by
  constructor
  · intro ha
    refine ⟨?_, ha.running⟩
    unfold Db.portfolio
    cases hrow : db.portfolioState asset with
    | none =>
      rw [h.snapshotsOf_eq_nil hrow]
      rfl
    | some row => exact ha.total row hrow
  · rintro ⟨htotal, hrunning⟩
    refine ⟨fun row hrow => ?_, hrunning⟩
    rw [← htotal, Db.portfolio, hrow]
    rfl

/-- **One commit** keeps the trail adding up unless what the event realizes is a tie that is rounded one
way by itself and the other way in the total. -/
theorem auditAdds_recorded_iff (h : History numericColumn log db) (hsteps : OnSteps db)
    (hrec : Recorded numericColumn db event d db') (ha : AuditAdds event.asset db) :
    AuditAdds event.asset db' ↔
      (IsTie columnStep ((db.portfolio event.asset).realizes event) →
        (0 ≤ (db.portfolio event.asset).realizes event ↔
          0 ≤ (db.portfolio event.asset).totalRealizedPnl +
            (db.portfolio event.asset).realizes event)) := by
  obtain ⟨snapshot, ht⟩ := hrec.trail
  obtain ⟨htotal, hrunning⟩ := h.auditAdds_iff.1 ha
  rw [(History.commit h hrec).auditAdds_iff, ht.snapshotsOf, if_pos rfl, runningTotals_append, ht.row,
    List.map_append, List.sum_append, ← htotal, List.map_cons, List.map_nil, List.sum_singleton,
    ← roundHalfAway_add_iff columnStep_pos (hsteps event.asset).2, ← ht.realizedPnl,
    ← ht.totalRealizedPnl, zero_add]
  exact ⟨fun hnew => hnew.1, fun hnew => ⟨hnew, hrunning, hnew⟩⟩

/-- A commit on another asset changes nothing. -/
theorem auditAdds_recorded_of_ne (hrec : Recorded numericColumn db event d db')
    (ha : asset ≠ event.asset) : AuditAdds asset db' ↔ AuditAdds asset db := by
  obtain ⟨snapshot, ht⟩ := hrec.trail
  have hsnap : snapshotsOf db' asset = snapshotsOf db asset := by
    rw [ht.snapshotsOf, if_neg (Ne.symm ha), List.append_nil]
  have hrow : db'.portfolioState asset = db.portfolioState asset := hrec.portfolioState_of_ne ha
  constructor
  · rintro ⟨htotal, hrunning⟩
    rw [hrow, hsnap] at htotal
    rw [hsnap] at hrunning
    exact ⟨htotal, hrunning⟩
  · rintro ⟨htotal, hrunning⟩
    rw [← hrow, ← hsnap] at htotal
    rw [← hsnap] at hrunning
    exact ⟨htotal, hrunning⟩

/-! ### Runs -/

/-- If the event that is committed is one of the asset, what it realizes is not a tie whose sign differs
from that of the new total. -/
def CommitsNoTie (asset : String) (s : Server) : Server.Action → Prop
  | .commit i => ∀ tx, s.txs i = some tx → tx.event.asset = asset →
      IsTie columnStep ((s.db.portfolio asset).realizes tx.event) →
        (0 ≤ (s.db.portfolio asset).realizes tx.event ↔
          0 ≤ (s.db.portfolio asset).totalRealizedPnl + (s.db.portfolio asset).realizes tx.event)
  | _ => True

/-- **One statement** keeps the trail adding up exactly when it meets the condition. -/
theorem Server.Inv.auditAdds_step_iff {s s' : Server} {a : Server.Action} (h : s.Inv)
    (ha : AuditAdds asset s.db) (hs : s.step numericColumn a = some s') :
    AuditAdds asset s'.db ↔ CommitsNoTie asset s a := by
  rcases (h.current.step hs).2 with ⟨hne, hdb, -⟩ | ⟨i, tx, rfl, htx, -, hrec⟩
  · rw [hdb]
    refine iff_of_true ha ?_
    cases a with
    | commit i => exact absurd rfl (hne i)
    | _ => trivial
  · by_cases hasset : tx.event.asset = asset
    · subst hasset
      rw [auditAdds_recorded_iff h.history h.onSteps hrec ha]
      constructor
      · intro hnew tx' htx' _
        rw [htx] at htx'
        cases htx'
        exact hnew
      · intro hc
        exact hc tx htx rfl
    · rw [auditAdds_recorded_of_ne hrec (Ne.symm hasset)]
      refine iff_of_true ha fun tx' htx' hasset' => ?_
      rw [htx] at htx'
      cases htx'
      exact absurd hasset' hasset

theorem auditAdds_init : AuditAdds asset Server.init.db where
  total row hrow := by cases hrow
  running := trivial

/-- **When the audit trail adds up.** For every asset and any interleaving of any number of transactions
over any events: the trail of the asset adds up in every state exactly when no event of it is committed
that realizes a tie of the other sign than the new total. -/
theorem audit_iff (asset : String) (actions : List Server.Action) :
    EveryState (Server.step numericColumn) (fun s => AuditAdds asset s.db) Server.init actions ↔
      EveryStep (Server.step numericColumn) (CommitsNoTie asset) Server.init actions := by
  refine everyState_iff_everyStep Server.Inv (fun s => AuditAdds asset s.db) ?_ ?_ ?_
    Server.inv_init auditAdds_init
  · intro s a t h _ ht
    exact h.step ht
  · intro s a t h ha hc ht
    exact (h.auditAdds_step_iff ha ht).2 hc
  · intro s a t h ha ht hat
    exact (h.auditAdds_step_iff ha ht).1 hat

/-! ### A trail that does not add up -/

/-- A trade in BTC at a price of its own, by itself. -/
def tradeAt (id : Uuid) (side : TradeSide) (quantity price : ℚ) : List Server.Action :=
  statements id { sampleEvent id side quantity with price } ⟨0, id, id, id, none⟩

/-- A gain of 1, then a loss of half a step. Every quantity and price is stored as it is. -/
def halfStepLoss : List Server.Action :=
  tradeAt 1 .buy 1 10 ++ tradeAt 2 .sell 1 11 ++ tradeAt 3 .buy (1 / 2) 10 ++
    tradeAt 4 .sell (1 / 2) (10 - 1 / 10 ^ 10)

/-- The snapshot rounds the loss to a whole step, and the total stays at 1. -/
theorem half_step_loss : ¬ ∀ (asset : String) (actions : List Server.Action) (s : Server),
    run (Server.step numericColumn) Server.init actions = some s → AuditAdds asset s.db := by
  intro h
  have hrun : (run (Server.step numericColumn) Server.init halfStepLoss).map (fun s =>
      ((s.db.portfolioState "BTC").map PortfolioRow.totalRealizedPnl,
        (snapshotsOf s.db "BTC").map PnlSnapshot.realizedPnl)) =
      some (some 1, [0, 1, 0, -1 / 10 ^ 10]) := by decide +kernel
  obtain ⟨s, hs, hvalues⟩ := Option.map_eq_some_iff.1 hrun
  obtain ⟨hrow, hsnapshots⟩ := Prod.mk.inj hvalues
  obtain ⟨row, hrow, htotal⟩ := Option.map_eq_some_iff.1 hrow
  have hsum := (h "BTC" _ s hs).total row hrow
  rw [htotal, hsnapshots] at hsum
  exact absurd hsum (by decide +kernel)

end Consumer
end CryptoAccounting

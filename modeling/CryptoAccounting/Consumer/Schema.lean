import CryptoAccounting.Consumer.Transactions

/-!
# What the tables say together

`processed_events`, `portfolio_state` and `pnl_snapshots` are written by one transaction and read one by
one. In every reachable state they tell the same history: that of the committed transactions, in the
order of their commits (`tables_tell_log`).
-/

namespace CryptoAccounting
namespace Consumer

open Transition

/-- A committed transaction: its event and how the event was delivered. -/
abbrev Committed := TradeEvent ℚ × Delivery

/-- The snapshot of a transaction. The columns take quantity and price. -/
structure SnapshotOf (num : ℚ → Option ℚ) (c : Committed) (snapshot : PnlSnapshot) : Prop where
  id : snapshot.id = c.2.snapshotId
  eventId : snapshot.eventId = c.1.eventId
  tradeId : snapshot.tradeId = c.1.tradeId
  asset : snapshot.asset = c.1.asset
  tradeSide : snapshot.tradeSide = c.1.side
  tradeQuantity : num c.1.quantity = some snapshot.tradeQuantity
  tradePrice : num c.1.price = some snapshot.tradePrice
  tradeTs : snapshot.tradeTs = timestamptz c.1.timestamp
  computedAt : snapshot.computedAt = c.2.now

/-- The last transaction of an asset. -/
def lastOf (asset : String) (log : List Committed) : Option Committed :=
  (log.filter fun c => c.1.asset = asset).getLast?

/-- The last snapshot of an asset. -/
def Db.lastSnapshot (db : Db) (asset : String) : Option PnlSnapshot :=
  (db.pnlSnapshots.filter fun snapshot => snapshot.asset = asset).getLast?

/-- The tables tell the history: one row in `processed_events` and one snapshot for each transaction, in
order; a row in `portfolio_state` for each asset, which names the last event of the asset and has the
total of its last snapshot. Times of trades are kept to the microsecond. -/
structure Db.Tells (num : ℚ → Option ℚ) (log : List Committed) (db : Db) : Prop where
  processed : db.processedEvents =
    log.map fun c => claimRow c.1 c.2.kafkaPartition c.2.kafkaOffset c.2.now
  nodup : (log.map fun c => c.1.eventId).Nodup
  snapshots : List.Forall₂ (SnapshotOf num) log db.pnlSnapshots
  last : ∀ asset, (db.portfolioState asset).map (fun row => (row.lastEventId, row.lastTradeTs)) =
    (lastOf asset log).map fun c => (some c.1.eventId, some (timestamptz c.1.timestamp))
  total : ∀ asset, (db.portfolioState asset).map PortfolioRow.totalRealizedPnl =
    (db.lastSnapshot asset).map PnlSnapshot.totalRealizedPnl

variable {num : ℚ → Option ℚ} {db db' : Db} {log : List Committed}

theorem lastOf_append (asset : String) (log : List Committed) (c : Committed) :
    lastOf asset (log ++ [c]) = if c.1.asset = asset then some c else lastOf asset log := by
  unfold lastOf
  by_cases hc : c.1.asset = asset <;> simp [hc]

theorem lastSnapshot_append (asset : String) (events : List ProcessedEvent)
    (state : String → Option PortfolioRow) (snapshots : List PnlSnapshot) (snapshot : PnlSnapshot) :
    (Db.mk events state (snapshots ++ [snapshot])).lastSnapshot asset =
      if snapshot.asset = asset then some snapshot
      else (Db.mk events state snapshots).lastSnapshot asset := by
  unfold Db.lastSnapshot
  by_cases hc : snapshot.asset = asset <;> simp [hc]

theorem snapshotOf_of {event : TradeEvent ℚ} {d : Delivery} {realizedPnl total : ℚ}
    {snapshot : PnlSnapshot}
    (h : PnlSnapshot.of num d.snapshotId event realizedPnl total d.now = some snapshot) :
    SnapshotOf num (event, d) snapshot := by
  obtain ⟨-, hquantity, hprice, -, -⟩ := snapshot_eq_some h
  unfold PnlSnapshot.of at h
  obtain ⟨tradeQuantity, -, h⟩ := Option.bind_eq_some_iff.1 h
  obtain ⟨tradePrice, -, h⟩ := Option.bind_eq_some_iff.1 h
  obtain ⟨realized, -, h⟩ := Option.bind_eq_some_iff.1 h
  obtain ⟨totalRealized, -, h⟩ := Option.bind_eq_some_iff.1 h
  cases h
  exact ⟨rfl, rfl, rfl, rfl, rfl, hquantity, hprice, rfl, rfl⟩

/-- The row that is written names the event. -/
theorem ofPortfolio_last {portfolio : AssetPortfolio ℚ} {id : Uuid} {ts : Timestamp} {row : PortfolioRow}
    (h : PortfolioRow.ofPortfolio num portfolio id ts = some row) :
    (row.lastEventId, row.lastTradeTs) = (some id, some (timestamptz ts)) := by
  unfold PortfolioRow.ofPortfolio at h
  obtain ⟨totalQuantity, -, h⟩ := Option.bind_eq_some_iff.1 h
  obtain ⟨totalRealizedPnl, -, h⟩ := Option.bind_eq_some_iff.1 h
  cases h
  rfl

theorem tells_empty : Db.Tells num [] Db.empty where
  processed := rfl
  nodup := List.nodup_nil
  snapshots := .nil
  last _ := rfl
  total _ := rfl

/-- **One commit.** -/
theorem Db.Tells.commit (h : db.Tells num log) {event : TradeEvent ℚ} {d : Delivery}
    (hrec : Recorded num db event d db') : db'.Tells num (log ++ [(event, d)]) := by
  obtain ⟨-, hnew, pnlEvents, portfolio, row, snapshot, -, hrow, hsnap, rfl⟩ := hrec
  have hsnapshot := snapshotOf_of hsnap
  have hids : db.processedIds = log.map fun c => c.1.eventId := by
    rw [Db.processedIds, h.processed, List.map_map]
    rfl
  rw [hids] at hnew
  refine ⟨?_, ?_, ?_, fun asset => ?_, fun asset => ?_⟩
  · rw [List.map_append, ← h.processed]
    rfl
  · rw [List.map_append]
    exact Tables.nodup_snoc h.nodup hnew
  · exact List.rel_append h.snapshots (.cons hsnapshot .nil)
  · rw [lastOf_append]
    by_cases ha : event.asset = asset
    · subst ha
      simp [ofPortfolio_last hrow]
    · simp [ha, Function.update_of_ne (Ne.symm ha), h.last asset]
  · rw [lastSnapshot_append]
    by_cases ha : event.asset = asset
    · subst ha
      obtain ⟨-, -, hrowTotal⟩ := ofPortfolio_eq_some hrow
      obtain ⟨-, -, -, -, hsnapTotal⟩ := snapshot_eq_some hsnap
      -- Both columns round the same total.
      have hsame : row.totalRealizedPnl = snapshot.totalRealizedPnl :=
        Option.some.inj (hrowTotal.symm.trans hsnapTotal)
      simp [hsnapshot.asset, hsame]
    · simp [hsnapshot.asset, ha, Function.update_of_ne (Ne.symm ha), h.total asset]
      rfl

theorem tells_of_history (h : History num log db) : db.Tells num log := by
  induction h with
  | empty => exact tells_empty
  | commit _ hrec ih => exact ih.commit hrec

/-- **The tables tell one history.** Whatever the interleaving of the transactions, whichever of them
were rolled back or crashed and whatever the columns do to their values. -/
theorem tables_tell_log (num : ℚ → Option ℚ) (actions : List Server.Action) (s : Server)
    (hs : run (Server.step num) Server.init actions = some s) : s.db.Tells num s.log :=
  tells_of_history (run_history hs).2

/-- Two transactions on BTC, of which the second gets the row first; a third crashes. -/
def overtaking : List Server.Action :=
  [.begin 0 (sampleEvent 1 .buy 1) ⟨0, 0, 0, 0, none⟩, .claim 0,
    .begin 1 (sampleEvent 2 .buy 2) ⟨1, 0, 1, 1, none⟩, .claim 1, .upsert 1, .select 1, .save 1,
    .snapshot 1, .begin 2 (sampleEvent 3 .buy 3) ⟨1, 1, 2, 2, none⟩, .claim 2, .rollback 2, .commit 1,
    .upsert 0, .select 0, .save 0, .snapshot 0, .commit 0]

theorem tables_tell_log_overtaking : ∃ s,
    run (Server.step numericColumn) Server.init overtaking = some s ∧
    s.log.map (fun c => c.1.eventId) = [2, 1] ∧ s.db.Tells numericColumn s.log := by
  have hview : (run (Server.step numericColumn) Server.init overtaking).map
      (fun s => s.log.map fun c => c.1.eventId) = some [2, 1] := by decide +kernel
  obtain ⟨s, hs, hids⟩ := Option.map_eq_some_iff.1 hview
  exact ⟨s, hs, hids, tables_tell_log numericColumn overtaking s hs⟩

end Consumer
end CryptoAccounting

import CryptoAccounting.Consumer.Audit

/-!
# The time of a snapshot

`computed_at` is `NOW()`, the start of the transaction, and a transaction waits for the row of its asset
only after it has started. So the snapshots of an asset, sorted by that column, are in the order in which
its transactions began; they were applied in the order in which these got the row. `Timed` adds the clock
of the server to the transactions; `snapshotOrder_iff` says exactly when the two orders are the same.
-/

namespace CryptoAccounting
namespace Consumer

open Rounding Tables Transition

/-! ### The property -/

def PnlSnapshot.NoLater (x y : PnlSnapshot) : Prop := x.computedAt ≤ y.computedAt

instance : DecidableRel PnlSnapshot.NoLater :=
  fun x y => inferInstanceAs (Decidable (x.computedAt ≤ y.computedAt))

instance : Std.Total PnlSnapshot.NoLater := ⟨fun x y => le_total x.computedAt y.computedAt⟩

instance : IsTrans PnlSnapshot PnlSnapshot.NoLater := ⟨fun _ _ _ hxy hyz => le_trans hxy hyz⟩

/-- `SELECT … FROM pnl_snapshots WHERE asset = … ORDER BY computed_at`. -/
def sortedSnapshots (db : Db) (asset : String) : List PnlSnapshot :=
  (snapshotsOf db asset).insertionSort PnlSnapshot.NoLater

/-- Sorted by their times, the snapshots of the asset are in the order in which their events were
applied, and the running totals add up along it. -/
structure InOrder (asset : String) (s : Server) : Prop where
  events : (sortedSnapshots s.db asset).map PnlSnapshot.eventId =
    (eventsOf s.log asset).map TradeEvent.eventId
  running : RunningTotals 0 (sortedSnapshots s.db asset)

/-! ### The system -/

/-- The server with the transactions that have begun so far, in this order. -/
structure Timed where
  server : Server
  begun : List (TradeEvent ℚ × Delivery)

def Timed.init : Timed := { server := Server.init, begun := [] }

/-- A statement; the clock moves on between the starts of two transactions. -/
def Timed.step (s : Timed) : Server.Action → Option Timed
  | .begin i event d =>
    if ∀ c ∈ s.begun, c.2.now < d.now then
      (s.server.step numericColumn (.begin i event d)).map fun server =>
        { server, begun := s.begun ++ [(event, d)] }
    else none
  | a => (s.server.step numericColumn a).map fun server => { s with server }

/-- A transaction of the asset that commits has begun after those that have committed on the asset
before it. -/
def CommitsInBeginOrder (asset : String) (s : Timed) : Server.Action → Prop
  | .commit i => ∀ tx, s.server.txs i = some tx → tx.event.asset = asset →
      ∀ c ∈ s.server.log, c.1.asset = asset → [c, (tx.event, tx.delivery)].Sublist s.begun
  | _ => True

instance (asset : String) (s : Timed) (a : Server.Action) :
    Decidable (CommitsInBeginOrder asset s a) :=
  match a with
  | .commit i => inferInstanceAs (Decidable (∀ tx ∈ s.server.txs i, _))
  | .begin .. | .claim _ | .upsert _ | .select _ | .save _ | .snapshot _ | .rollback _ =>
    isTrue trivial

/-! ### The committed snapshots -/

variable {log : List (TradeEvent ℚ × Delivery)} {db : Db} {asset : String}

/-- Every commit leaves one snapshot, with the id of its event and the start of its transaction. -/
theorem History.snapshotsOf (h : History numericColumn log db) (asset : String) :
    (snapshotsOf db asset).map (fun x => (x.eventId, x.computedAt)) =
      (log.filter fun c => c.1.asset = asset).map fun c => (c.1.eventId, c.2.now) := by
  induction h with
  | empty => rfl
  | @commit log db db' event d h hrec ih =>
    obtain ⟨snapshot, ht⟩ := hrec.trail
    rw [ht.snapshotsOf, List.map_append, ih, List.filter_append, List.map_append]
    by_cases ha : event.asset = asset
    · simp [ha, ht.eventId, ht.computedAt]
    · simp [ha]

theorem History.snapshotIds (h : History numericColumn log db) (asset : String) :
    (Consumer.snapshotsOf db asset).map PnlSnapshot.eventId =
      (eventsOf log asset).map TradeEvent.eventId := by
  have hids := congrArg (List.map Prod.fst) (h.snapshotsOf asset)
  rw [List.map_map, List.map_map] at hids
  rw [eventsOf, List.filter_map, List.map_map]
  exact hids

/-- What holds of the start times of all committed transactions of the asset. -/
theorem History.forall_computedAt (h : History numericColumn log db) (asset : String)
    {P : Timestamp → Prop} : (∀ x ∈ Consumer.snapshotsOf db asset, P x.computedAt) ↔
      ∀ c ∈ log, c.1.asset = asset → P c.2.now := by
  have htimes := congrArg (List.map Prod.snd) (h.snapshotsOf asset)
  rw [List.map_map, List.map_map] at htimes
  have hforall : (∀ t ∈ (Consumer.snapshotsOf db asset).map PnlSnapshot.computedAt, P t) ↔
      ∀ t ∈ (log.filter fun c => c.1.asset = asset).map fun c => c.2.now, P t := by
    rw [show (Consumer.snapshotsOf db asset).map PnlSnapshot.computedAt = _ from htimes]
    rfl
  rw [List.forall_mem_map, List.forall_mem_map] at hforall
  refine hforall.trans ⟨fun hall c hc hasset => ?_, fun hall c hc => ?_⟩
  · exact hall c (List.mem_filter.2 ⟨hc, decide_eq_true hasset⟩)
  · obtain ⟨hmem, hasset⟩ := List.mem_filter.1 hc
    exact hall c hmem (of_decide_eq_true hasset)

/-! ### Sorting -/

theorem sortedSnapshots_perm (db : Db) (asset : String) :
    (sortedSnapshots db asset).Perm (snapshotsOf db asset) := List.perm_insertionSort ..

theorem sortedSnapshots_sorted (db : Db) (asset : String) :
    (sortedSnapshots db asset).Pairwise PnlSnapshot.NoLater := List.pairwise_insertionSort ..

/-- Rows that are in the order of their times stay where they are. -/
theorem sortedSnapshots_eq (h : (snapshotsOf db asset).Pairwise PnlSnapshot.NoLater) :
    sortedSnapshots db asset = snapshotsOf db asset := h.insertionSort_eq

/-- As long as the trail adds up, all that matters is that the times follow the commits. -/
theorem Server.Inv.inOrder_iff {s : Server} (h : s.Inv) (ha : AuditAdds asset s.db) :
    InOrder asset s ↔ (snapshotsOf s.db asset).Pairwise PnlSnapshot.NoLater := by
  have hids := h.history.snapshotIds asset
  constructor
  · intro hord
    have hnodup : ((snapshotsOf s.db asset).map PnlSnapshot.eventId).Nodup := by
      have hlog : ((s.log.map Prod.fst).map TradeEvent.eventId).Nodup := by
        rw [List.map_map]
        exact h.history.nodup
      rw [hids]
      exact hlog.sublist (List.filter_sublist.map _)
    have heq := eq_of_keys_eq (sortedSnapshots_perm s.db asset) hnodup (hord.events.trans hids.symm)
    rw [← heq]
    exact sortedSnapshots_sorted s.db asset
  · intro hsorted
    refine ⟨?_, ?_⟩
    · rw [sortedSnapshots_eq hsorted, hids]
    · rw [sortedSnapshots_eq hsorted]
      exact ha.running

/-! ### The invariant -/

/-- The starts are in the order of their times, and every transaction has begun. -/
structure Timed.Inv (s : Timed) : Prop where
  server : s.server.Inv
  sorted : s.begun.Pairwise fun c c' => c.2.now < c'.2.now
  open_mem : ∀ i tx, s.server.txs i = some tx → (tx.event, tx.delivery) ∈ s.begun
  log_mem : ∀ c ∈ s.server.log, c ∈ s.begun

theorem Timed.inv_init : Timed.init.Inv where
  server := Server.inv_init
  sorted := .nil
  open_mem i tx h := by cases h
  log_mem c hc := by cases hc

variable {s s' : Timed} {a : Server.Action}

theorem Timed.step_of_ne_begin (hne : ∀ i event d, a ≠ .begin i event d) :
    s.step a = (s.server.step numericColumn a).map fun server => { s with server } := by
  cases a with
  | begin i event d => exact absurd rfl (hne i event d)
  | _ => rfl

/-- What a statement adds to the starts. -/
theorem Timed.step_cases (hs : s.step a = some s') :
    s.server.step numericColumn a = some s'.server ∧
      ((∀ i event d, a ≠ .begin i event d) ∧ s'.begun = s.begun ∨
        ∃ i event d, a = .begin i event d ∧ s'.begun = s.begun ++ [(event, d)] ∧
          ∀ c ∈ s.begun, c.2.now < d.now) := by
  by_cases hne : ∀ i event d, a ≠ .begin i event d
  · rw [Timed.step_of_ne_begin hne] at hs
    obtain ⟨server, hserver, rfl⟩ := Option.map_eq_some_iff.1 hs
    exact ⟨hserver, .inl ⟨hne, rfl⟩⟩
  · push Not at hne
    obtain ⟨i, event, d, rfl⟩ := hne
    simp only [Timed.step] at hs
    split_ifs at hs with hclock
    obtain ⟨server, hserver, rfl⟩ := Option.map_eq_some_iff.1 hs
    exact ⟨hserver, .inr ⟨i, event, d, rfl, rfl, hclock⟩⟩

theorem Timed.Inv.step (h : s.Inv) (hs : s.step a = some s') : s'.Inv := by
  obtain ⟨hserver, hbegun⟩ := Timed.step_cases hs
  have hsub : ∀ c ∈ s.begun, c ∈ s'.begun := by
    intro c hc
    rcases hbegun with ⟨-, hb⟩ | ⟨i, event, d, -, hb, -⟩
    · rwa [hb]
    · rw [hb]
      exact List.mem_append_left _ hc
  refine ⟨h.server.step hserver, ?_, fun i tx' htx' => ?_, fun c hc => ?_⟩
  · rcases hbegun with ⟨-, hb⟩ | ⟨i, event, d, -, hb, hclock⟩
    · rw [hb]
      exact h.sorted
    · rw [hb, List.pairwise_append]
      refine ⟨h.sorted, List.pairwise_singleton .., fun c hc c' hc' => ?_⟩
      rw [List.mem_singleton.1 hc']
      exact hclock c hc
  · rcases step_event hserver htx' with ⟨tx, htx, he, hd⟩ | ⟨event, d, ha, he, hd⟩
    · rw [he, hd]
      exact hsub _ (h.open_mem i tx htx)
    · rcases hbegun with ⟨hne, -⟩ | ⟨j, event', d', ha', hb, -⟩
      · exact absurd ha (hne i event d)
      · cases ha.symm.trans ha'
        rw [he, hd, hb]
        exact List.mem_append_right _ List.mem_cons_self
  · rcases (h.server.current.step hserver).2 with ⟨-, -, hlog⟩ | ⟨i, tx, -, htx, hlog, -⟩
    · rw [hlog] at hc
      exact hsub c (h.log_mem c hc)
    · rw [hlog] at hc
      rcases List.mem_append.1 hc with hc | hc
      · exact hsub c (h.log_mem c hc)
      · rw [List.mem_singleton.1 hc]
        exact hsub _ (h.open_mem i tx htx)

/-! ### Runs -/

/-- Whole column steps are no ties. -/
theorem CommitsOnSteps.noTie {s : Server} (h : CommitsOnSteps s a) (asset : String) :
    CommitsNoTie asset s a := by
  cases a with
  | commit i =>
    rintro tx htx rfl htie
    exact absurd htie (not_isTie_of_mem columnStep_pos (h tx htx).2)
  | _ => trivial

/-- A committed transaction began before an open one exactly when its start time is no later. -/
theorem Timed.Inv.sublist_iff (h : s.Inv) {i : ℕ} {tx : Tx} (htx : s.server.txs i = some tx)
    (hnew : tx.event.eventId ∉ s.server.db.processedIds) {c : TradeEvent ℚ × Delivery}
    (hc : c ∈ s.server.log) :
    [c, (tx.event, tx.delivery)].Sublist s.begun ↔ c.2.now ≤ tx.delivery.now := by
  have hmem := h.open_mem i tx htx
  have hne : c ≠ (tx.event, tx.delivery) := by
    rintro rfl
    rw [h.server.history.processedIds] at hnew
    exact hnew (List.mem_map_of_mem hc)
  rw [pair_sublist_iff (fun a b hab hba => lt_asymm hab hba) h.sorted (h.log_mem c hc) hmem]
  refine ⟨le_of_lt, fun hle => lt_of_le_of_ne hle fun heq => ?_⟩
  have hnodup : (s.begun.map fun c => c.2.now).Nodup := List.pairwise_map.2 (h.sorted.imp ne_of_lt)
  exact hne (List.inj_on_of_nodup_map hnodup (h.log_mem c hc) hmem heq)

/-- **One statement** keeps the snapshots in order exactly when it meets the condition. -/
theorem Timed.Inv.inOrder_step_iff (h : s.Inv) (ha : AuditAdds asset s.server.db)
    (hfit : CommitsOnSteps s.server a) (hord : InOrder asset s.server) (hs : s.step a = some s') :
    InOrder asset s'.server ↔ CommitsInBeginOrder asset s a := by
  have hserver := (Timed.step_cases hs).1
  have ha' : AuditAdds asset s'.server.db :=
    (h.server.auditAdds_step_iff ha hserver).2 (hfit.noTie asset)
  rw [h.server.inOrder_iff ha] at hord
  rw [(h.server.step hserver).inOrder_iff ha']
  rcases (h.server.current.step hserver).2 with ⟨hne, hdb, -⟩ | ⟨i, tx, rfl, htx, -, hrec⟩
  · rw [hdb]
    refine iff_of_true hord ?_
    cases a with
    | commit i => exact absurd rfl (hne i)
    | _ => trivial
  · have hcond : CommitsInBeginOrder asset s (.commit i) ↔ (tx.event.asset = asset →
        ∀ c ∈ s.server.log, c.1.asset = asset → c.2.now ≤ tx.delivery.now) := by
      constructor
      · intro hc hasset c hmem hcasset
        exact (h.sublist_iff htx hrec.2.1 hmem).1 (hc tx htx hasset c hmem hcasset)
      · intro hc tx' htx' hasset c hmem hcasset
        rw [htx] at htx'
        cases htx'
        exact (h.sublist_iff htx hrec.2.1 hmem).2 (hc hasset c hmem hcasset)
    obtain ⟨snapshot, ht⟩ := hrec.trail
    rw [hcond, ht.snapshotsOf]
    by_cases hasset : tx.event.asset = asset
    · -- The new snapshot stands last: all others of the asset have to be older.
      rw [if_pos hasset, List.pairwise_append]
      simp only [List.pairwise_singleton, List.mem_singleton, forall_eq, true_and, hord,
        hasset, forall_const, PnlSnapshot.NoLater, ht.computedAt]
      exact h.server.history.forall_computedAt asset (P := fun t => t ≤ tx.delivery.now)
    · rw [if_neg hasset, List.append_nil]
      exact iff_of_true hord fun hc => absurd hc hasset

theorem inOrder_init : InOrder asset Server.init where
  events := rfl
  running := trivial

/-- **When snapshot times follow application order.** For every asset and any interleaving of the
transactions of any number of instances that change the totals by whole column steps: the snapshots
sorted by their times are in the order of application in every state exactly when the transactions of the
asset commit in the order in which they began. The hypothesis is about an event's gain as a whole; it
holds where the gain of every lot is one of whole column steps, and such gains are added exactly. -/
theorem snapshotOrder_iff (asset : String) (actions : List Server.Action)
    (hfit : EveryStep Timed.step (fun s => CommitsOnSteps s.server) Timed.init actions) :
    EveryState Timed.step (fun s => InOrder asset s.server) Timed.init actions ↔
      EveryStep Timed.step (CommitsInBeginOrder asset) Timed.init actions := by
  refine everyState_iff_everyStep_of (fun s : Timed => s.Inv ∧ AuditAdds asset s.server.db)
    (fun s => InOrder asset s.server) ?_ ?_ ?_ hfit ⟨Timed.inv_init, auditAdds_init⟩ inOrder_init
  · rintro s a t ⟨h, ha⟩ hf - ht
    exact ⟨h.step ht, (h.server.auditAdds_step_iff ha (Timed.step_cases ht).1).2 (hf.noTie asset)⟩
  · rintro s a t ⟨h, ha⟩ hf hord hc ht
    exact (h.inOrder_step_iff ha hf hord ht).2 hc
  · rintro s a t ⟨h, ha⟩ hf hord ht hord'
    exact (h.inOrder_step_iff ha hf hord ht).1 hord'

/-- The statements of a transaction after its begin. -/
def finish (i : ℕ) : List Server.Action :=
  [.claim i, .upsert i, .select i, .save i, .snapshot i, .commit i]

/-- A buy, then two sells that are open at the same time and get the row in the given order. -/
def twoSells (order : List ℕ) : List Server.Action :=
  tradeAt 1 .buy 2 10 ++
    [.begin 2 { sampleEvent 2 .sell 1 with price := 11 } ⟨0, 2, 2, 2, none⟩,
      .begin 3 { sampleEvent 3 .sell 1 with price := 12 } ⟨1, 3, 3, 3, none⟩] ++
    order.flatMap finish

theorem sells_in_begin_order : ∃ s, run Timed.step Timed.init (twoSells [2, 3]) = some s ∧
    InOrder "BTC" s.server := by
  have hsome : (run Timed.step Timed.init (twoSells [2, 3])).isSome = true := by decide +kernel
  obtain ⟨s, hs⟩ := Option.isSome_iff_exists.1 hsome
  have hall := (snapshotOrder_iff "BTC" (twoSells [2, 3]) (by decide +kernel)).2 (by decide +kernel)
  exact ⟨s, hs, hall.last hs⟩

/-- The sell that began first gets the row last: its snapshot, sorted by time, stands before the one whose
total it adds to. -/
theorem later_sell_first : ¬ ∀ (asset : String) (actions : List Server.Action) (s : Timed),
    EveryStep Timed.step (fun s => CommitsOnSteps s.server) Timed.init actions →
      run Timed.step Timed.init actions = some s → InOrder asset s.server := by
  intro h
  have hrun : (run Timed.step Timed.init (twoSells [3, 2])).map (fun s =>
      ((sortedSnapshots s.server.db "BTC").map PnlSnapshot.eventId,
        (eventsOf s.server.log "BTC").map TradeEvent.eventId)) =
      some ([1, 2, 3], [1, 3, 2]) := by decide +kernel
  obtain ⟨s, hs, hids⟩ := Option.map_eq_some_iff.1 hrun
  obtain ⟨hsorted, hlog⟩ := Prod.mk.inj hids
  have hevents := (h "BTC" (twoSells [3, 2]) s (by decide +kernel) hs).events
  rw [hsorted, hlog] at hevents
  exact absurd hevents (by decide)

end Consumer
end CryptoAccounting

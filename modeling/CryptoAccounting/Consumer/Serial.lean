import CryptoAccounting.Consumer.Engine
import CryptoAccounting.Consumer.Transactions
import CryptoAccounting.Domain.Numeric

/-!
# Effectively-once processing

What a serial history says about the committed tables: every event is applied at most once, the three
tables are about the same events, and the row of an asset is the fold of `apply` over its committed
events in commit order. The last part needs columns that hold the totals as they are: `serial_iff` says
for which runs they do.
-/

namespace CryptoAccounting
namespace Consumer

open Rounding Tables Transition

/-! ### The property -/

/-- The fold of `apply`; `none` once it returns an error or panics. -/
def AssetPortfolio.replay (p : AssetPortfolio ℚ) : List (TradeEvent ℚ) → Option (AssetPortfolio ℚ)
  | [] => some p
  | event :: events =>
    match p.apply event with
    | .ok (.ok _, p) => p.replay events
    | _ => none

/-- The committed events of an asset, in commit order. -/
def eventsOf (log : List (TradeEvent ℚ × Delivery)) (asset : String) : List (TradeEvent ℚ) :=
  (log.map Prod.fst).filter fun event => event.asset = asset

/-- The row of every asset is the fold of `apply` over its committed events. -/
def Folded (log : List (TradeEvent ℚ × Delivery)) (db : Db) : Prop :=
  ∀ asset row, db.portfolioState asset = some row →
    (AssetPortfolio.new asset).replay (eventsOf log asset) = some (row.toPortfolio asset)

/-- Effectively-once, serialisable processing. -/
structure Server.Serial (s : Server) : Prop where
  once : (s.log.map fun c => c.1.eventId).Nodup
  /-- If no trade has two events, every trade is applied at most once. -/
  trade_once : (∀ c ∈ s.log, ∀ c' ∈ s.log, c.1.tradeId = c'.1.tradeId → c.1.eventId = c'.1.eventId) →
    (s.log.map fun c => c.1.tradeId).Nodup
  processedEvents : s.db.processedIds = s.log.map fun c => c.1.eventId
  pnlSnapshots : s.db.pnlSnapshots.map PnlSnapshot.eventId = s.log.map fun c => c.1.eventId
  portfolioState : ∀ asset, (s.db.portfolioState asset).isSome ↔ ∃ c ∈ s.log, c.1.asset = asset
  folded : Folded s.log s.db

variable {num : ℚ → Option ℚ} {db db' : Db} {event : TradeEvent ℚ} {d : Delivery}
variable {log : List (TradeEvent ℚ × Delivery)}

/-! ### What holds of every history -/

theorem History.processedIds (h : History num log db) :
    db.processedIds = log.map fun c => c.1.eventId := by
  induction h with
  | empty => rfl
  | commit _ hrec ih => rw [hrec.processedIds, ih, List.map_append, List.map_cons, List.map_nil]

theorem History.nodup (h : History num log db) : (log.map fun c => c.1.eventId).Nodup := by
  induction h with
  | empty => exact List.nodup_nil
  | @commit log db db' event d h hrec ih =>
    have hnew : event.eventId ∉ log.map fun c => c.1.eventId := by
      rw [← h.processedIds]
      exact hrec.2.1
    rw [List.map_append, List.map_cons, List.map_nil]
    exact nodup_snoc ih hnew

theorem History.pnlSnapshots (h : History num log db) :
    db.pnlSnapshots.map PnlSnapshot.eventId = log.map fun c => c.1.eventId := by
  induction h with
  | empty => rfl
  | commit _ hrec ih =>
    obtain ⟨-, -, _, _, _, snapshot, -, -, hsnap, rfl⟩ := hrec
    have hid : snapshot.eventId = _ := (snapshot_eq_some hsnap).1
    rw [List.map_append, ih, List.map_append, List.map_cons, List.map_nil, hid]
    rfl

theorem History.portfolioState (h : History num log db) (asset : String) :
    (db.portfolioState asset).isSome ↔ ∃ c ∈ log, c.1.asset = asset := by
  induction h with
  | empty => simp [Db.empty]
  | @commit log db db' event d h hrec ih =>
    obtain ⟨-, -, _, _, row, _, -, -, -, rfl⟩ := hrec
    by_cases ha : asset = event.asset
    · subst ha
      simp
    · simp [Function.update_of_ne ha, ih, Ne.symm ha]

/-! ### The fold -/

theorem replay_append (p : AssetPortfolio ℚ) (events : List (TradeEvent ℚ)) (event : TradeEvent ℚ) :
    p.replay (events ++ [event]) = (p.replay events).bind fun q => q.replay [event] := by
  induction events generalizing p with
  | nil => rfl
  | cons e events ih =>
    rw [List.cons_append, AssetPortfolio.replay, AssetPortfolio.replay]
    split
    · exact ih _
    · rfl

theorem eventsOf_append (log : List (TradeEvent ℚ × Delivery)) (event : TradeEvent ℚ) (d : Delivery)
    (asset : String) : eventsOf (log ++ [(event, d)]) asset =
      eventsOf log asset ++ if event.asset = asset then [event] else [] := by
  unfold eventsOf
  rw [List.map_append, List.filter_append]
  by_cases ha : event.asset = asset <;> simp [ha]

/-- As long as the rows are folds, the portfolio a transaction loads is one, also before there is a
row. -/
theorem Folded.portfolio (h : Folded log db) (hist : History num log db) (asset : String) :
    (AssetPortfolio.new asset).replay (eventsOf log asset) = some (db.portfolio asset) := by
  cases hrow : db.portfolioState asset with
  | some row =>
    rw [h asset row hrow, Db.portfolio, hrow]
    rfl
  | none =>
    have hnil : eventsOf log asset = [] := by
      unfold eventsOf
      rw [List.filter_eq_nil_iff, List.forall_mem_map]
      intro c hc ha
      have hsome : (db.portfolioState asset).isSome :=
        (hist.portfolioState asset).2 ⟨c, hc, of_decide_eq_true ha⟩
      rw [hrow] at hsome
      cases hsome
    rw [hnil, Db.portfolio, hrow]
    rfl

/-- The columns of the rows hold whole steps. -/
def OnSteps (db : Db) : Prop :=
  ∀ asset, (db.portfolio asset).totalQuantity ∈ grid columnStep ∧
    (db.portfolio asset).totalRealizedPnl ∈ grid columnStep

theorem onSteps_recorded (h : OnSteps db) (hrec : Recorded numericColumn db event d db') :
    OnSteps db' := by
  intro asset
  by_cases ha : asset = event.asset
  · subst ha
    obtain ⟨-, -, _, _, row, _, -, hrow, -, rfl⟩ := hrec
    obtain ⟨-, hquantity, hrealized⟩ := ofPortfolio_eq_some hrow
    rw [portfolio_update]
    exact ⟨mem_grid_of_numericColumn hquantity, mem_grid_of_numericColumn hrealized⟩
  · rw [hrec.portfolio_of_ne ha]
    exact h asset

/-- The columns take a portfolio as it is exactly when its totals are whole steps. -/
theorem eq_toPortfolio_iff {q : AssetPortfolio ℚ} {id : Uuid} {ts : Timestamp} {row : PortfolioRow}
    (hrow : PortfolioRow.ofPortfolio numericColumn q id ts = some row) :
    q = row.toPortfolio q.asset ↔
      q.totalQuantity ∈ grid columnStep ∧ q.totalRealizedPnl ∈ grid columnStep := by
  obtain ⟨hlots, hcolumn, hcolumn'⟩ := ofPortfolio_eq_some hrow
  rw [← numericColumn_eq_self_iff hcolumn, ← numericColumn_eq_self_iff hcolumn']
  constructor
  · intro hq
    exact ⟨(congrArg AssetPortfolio.totalQuantity hq).symm,
      (congrArg AssetPortfolio.totalRealizedPnl hq).symm⟩
  · rintro ⟨hq, hq'⟩
    rw [PortfolioRow.toPortfolio, hlots, hq, hq']

/-- **One commit** keeps the fold exactly when the changes of the two totals are whole steps. -/
theorem folded_recorded_iff (h : Folded log db) (hist : History numericColumn log db)
    (hsteps : OnSteps db) (hrec : Recorded numericColumn db event d db') :
    Folded (log ++ [(event, d)]) db' ↔
      change event ∈ grid columnStep ∧
        (db.portfolio event.asset).realizes event ∈ grid columnStep := by
  have hport := h.portfolio hist event.asset
  obtain ⟨hquantity, hrealized⟩ := hsteps event.asset
  obtain ⟨-, -, pnlEvents, q, row, _, happ, hrow, -, rfl⟩ := hrec
  obtain ⟨-, htotal, htotal'⟩ := apply_totals happ
  have hasset : q.asset = event.asset := apply_asset happ
  have hreplay : (AssetPortfolio.new event.asset).replay
      (eventsOf (log ++ [(event, d)]) event.asset) = some q := by
    rw [eventsOf_append, if_pos rfl, replay_append, hport, Option.bind_some]
    simp only [AssetPortfolio.replay, happ]
  have hother : ∀ asset, asset ≠ event.asset → ∀ row', db.portfolioState asset = some row' →
      (AssetPortfolio.new asset).replay (eventsOf (log ++ [(event, d)]) asset) =
        some (row'.toPortfolio asset) := by
    intro asset ha row' hrow'
    rw [eventsOf_append, if_neg (Ne.symm ha), List.append_nil]
    exact h asset row' hrow'
  unfold Folded
  -- The row differs from the fold at most by what the columns round off.
  rw [forall_update, and_iff_left hother, hreplay, Option.some_inj,
    ← congrArg row.toPortfolio hasset, eq_toPortfolio_iff hrow, htotal, htotal',
    add_mem_cancel_left hquantity, add_mem_cancel_left hrealized]

/-! ### Runs -/

/-- What every run keeps, whatever the columns round off. -/
structure Server.Inv (s : Server) : Prop where
  current : s.Current numericColumn
  history : History numericColumn s.log s.db
  onSteps : OnSteps s.db

theorem Server.inv_init : Server.init.Inv where
  current := Server.current_init
  history := .empty
  onSteps _ := ⟨zero_mem _, zero_mem _⟩

variable {s s' : Server} {a : Server.Action}

theorem Server.Inv.step (h : s.Inv) (hs : s.step numericColumn a = some s') : s'.Inv := by
  obtain ⟨hcur, heffect⟩ := h.current.step hs
  rcases heffect with ⟨-, hdb, hlog⟩ | ⟨i, tx, -, -, hlog, hrec⟩
  · exact ⟨hcur, by rw [hdb, hlog]; exact h.history, by rw [hdb]; exact h.onSteps⟩
  · exact ⟨hcur, by rw [hlog]; exact .commit h.history hrec, onSteps_recorded h.onSteps hrec⟩

/-- Only the fold can fail. -/
theorem Server.Inv.serial_iff_folded (h : s.Inv) : s.Serial ↔ Folded s.log s.db := by
  refine ⟨fun hs => hs.folded, fun hf => ?_⟩
  refine ⟨h.history.nodup, fun htrade => ?_, h.history.processedIds, h.history.pnlSnapshots,
    h.history.portfolioState, hf⟩
  have hnodup : s.log.Nodup := List.Nodup.of_map _ h.history.nodup
  refine List.Nodup.map_on (fun c hc c' hc' heq => ?_) hnodup
  exact List.inj_on_of_nodup_map h.history.nodup hc hc' (htrade c hc c' hc' heq)

/-- The event that is committed changes the totals of its asset by whole column steps. -/
def CommitsOnSteps (s : Server) : Server.Action → Prop
  | .commit i => ∀ tx, s.txs i = some tx → change tx.event ∈ grid columnStep ∧
      (s.db.portfolio tx.event.asset).realizes tx.event ∈ grid columnStep
  | _ => True

instance (s : Server) (a : Server.Action) : Decidable (CommitsOnSteps s a) :=
  match a with
  | .commit i => inferInstanceAs (Decidable (∀ tx ∈ s.txs i, _))
  | .begin .. | .claim _ | .upsert _ | .select _ | .save _ | .snapshot _ | .rollback _ =>
    isTrue trivial

/-- **One statement** keeps the fold exactly when it meets the condition. -/
theorem Server.Inv.folded_step_iff (h : s.Inv) (hf : Folded s.log s.db)
    (hs : s.step numericColumn a = some s') : Folded s'.log s'.db ↔ CommitsOnSteps s a := by
  rcases (h.current.step hs).2 with ⟨hne, hdb, hlog⟩ | ⟨i, tx, rfl, htx, hlog, hrec⟩
  · rw [hdb, hlog]
    refine iff_of_true hf ?_
    cases a with
    | commit i => exact absurd rfl (hne i)
    | _ => trivial
  · rw [hlog, folded_recorded_iff hf h.history h.onSteps hrec]
    constructor
    · intro hgrid tx' htx'
      rw [htx] at htx'
      cases htx'
      exact hgrid
    · intro hc
      exact hc tx htx

theorem folded_init : Folded Server.init.log Server.init.db := fun asset row hrow => by cases hrow

/-- **Effectively-once processing.** For any number of concurrent transactions over any events, any
interleaving and any failures: every state is serial exactly when each event that is committed changes
the totals of its asset by whole column steps. -/
theorem serial_iff (actions : List Server.Action) :
    EveryState (Server.step numericColumn) Server.Serial Server.init actions ↔
      EveryStep (Server.step numericColumn) CommitsOnSteps Server.init actions := by
  refine everyState_iff_everyStep Server.Inv Server.Serial ?_ ?_ ?_ Server.inv_init ?_
  · intro s a t h _ ht
    exact h.step ht
  · intro s a t h hs hc ht
    exact (h.step ht).serial_iff_folded.2 ((h.folded_step_iff hs.folded ht).2 hc)
  · intro s a t h hs ht hst
    exact (h.folded_step_iff hs.folded ht).1 hst.folded
  · exact Server.inv_init.serial_iff_folded.2 folded_init

/-! ### A total that is not the fold -/

/-- The statements of one transaction, from the begin to the commit. -/
def statements (i : ℕ) (event : TradeEvent ℚ) (d : Delivery) : List Server.Action :=
  [.begin i event d, .claim i, .upsert i, .select i, .save i, .snapshot i, .commit i]

/-- One buy of half a column step: the total is rounded up to a whole step. -/
theorem half_step_not_serial : ¬ ∀ (actions : List Server.Action) (s : Server),
    run (Server.step numericColumn) Server.init actions = some s → s.Serial := by
  intro h
  have hrun : (run (Server.step numericColumn) Server.init
      (statements 0 (sampleEvent 1 .buy (5 / 10 ^ 11)) ⟨0, 0, 0, 0, none⟩)).map
        (fun s => (s.db.portfolioState "BTC", eventsOf s.log "BTC")) =
      some (some ⟨[⟨5 / 10 ^ 11, 100⟩], 1 / 10 ^ 10, 0, some 1, some 0⟩,
        [sampleEvent 1 .buy (5 / 10 ^ 11)]) := by decide +kernel
  obtain ⟨s, hs, hrow⟩ := Option.map_eq_some_iff.1 hrun
  obtain ⟨hrow, hevents⟩ := Prod.mk.inj hrow
  have hfold := (h _ s hs).folded "BTC" _ hrow
  rw [hevents] at hfold
  exact absurd hfold (by decide +kernel)

/-- Two instances meet an asset without a row: the second one waits for the row of the first. -/
example :
    ((run (Server.step numericColumn) Server.init
      [.begin 0 (sampleEvent 1 .buy 1) ⟨0, 0, 0, 0, none⟩, .claim 0, .upsert 0,
        .begin 1 (sampleEvent 2 .buy 1) ⟨1, 0, 1, 1, none⟩, .claim 1]).bind
          fun s => s.step numericColumn (.upsert 1)).isNone = true := by
  decide +kernel

end Consumer
end CryptoAccounting

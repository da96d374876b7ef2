import CryptoAccounting.Consumer.Progress
import CryptoAccounting.Consumer.Serial

/-!
# One instance at a time

By `run_history` nothing comes of concurrent transactions that serial calls of `process` could not have
done. Here is the other direction: one instance that is left alone commits whatever a serial call records
(`run_statements`), so the tables that can be committed are the same with and without concurrency
(`committed_iff_sequential`).
-/

namespace CryptoAccounting
namespace Consumer

open Tables Transition

variable {num : ℚ → Option ℚ} {db db' : Db} {event : TradeEvent ℚ} {d : Delivery}
variable {log : List (TradeEvent ℚ × Delivery)} {i : ℕ}

/-! ### One transaction, left alone -/

/-- The server between two transactions. -/
def Server.idle (db : Db) (log : List (TradeEvent ℚ × Delivery)) : Server where
  db
  txs := fun _ => none
  claims := fun _ => none
  rows := fun _ => none
  log

/-- The server with one transaction, which has claimed its event. -/
def Server.alone (db : Db) (log : List (TradeEvent ℚ × Delivery)) (i : ℕ) (tx : Tx)
    (rows : String → Option ℕ) : Server where
  db
  txs := Function.update (fun _ => none) i (some tx)
  claims := Function.update (fun _ => none) tx.event.eventId (some i)
  rows
  log

theorem run_to_claimed (hd : d.fault = none) (hnew : event.eventId ∉ db.processedIds) :
    run (Server.step num) (Server.idle db log) [.begin i event d, .claim i] =
      some (Server.alone db log i ⟨event, d, .claimed⟩ fun _ => none) := by
  simp [run, Server.step, Server.idle, Server.goto, Server.alone, hd, claimEvent, hnew]

/-- With or without a row, the transaction gets the lock and loads the portfolio. -/
theorem run_to_selected :
    run (Server.step num) (Server.alone db log i ⟨event, d, .claimed⟩ fun _ => none)
      [.upsert i, .select i] =
        some (Server.alone db log i ⟨event, d, .selected (db.portfolio event.asset)⟩
          (Function.update (fun _ => none) event.asset (some i))) := by
  have hload : (loadPortfolio db event.asset).1 = db.portfolio event.asset := rfl
  cases hrow : (db.portfolioState event.asset).isSome with
  | true =>
    have hne : db.portfolioState event.asset ≠ none := Option.isSome_iff_ne_none.1 hrow
    simp [run, Server.step, Server.alone, Server.goto, hrow, hne, hload]
  | false => simp [run, Server.step, Server.alone, Server.goto, hrow, hload]

theorem release_own {α : Type} [DecidableEq α] (a : α) :
    release i (Function.update (fun _ => none) a (some i)) = fun _ => none := by
  funext b
  by_cases hb : b = a <;> simp [release, hb]

theorem run_to_idle {pnlEvents : List (RealizedPnL ℚ)} {portfolio : AssetPortfolio ℚ}
    {row : PortfolioRow} {snapshot : PnlSnapshot} {rows : String → Option ℕ}
    (hrows : release i rows = fun _ => none)
    (happ : (db.portfolio event.asset).apply event = .ok (.ok pnlEvents, portfolio))
    (hrow : PortfolioRow.ofPortfolio num portfolio event.eventId event.timestamp = some row)
    (hsnap : PnlSnapshot.of num d.snapshotId event (pnlEvents.map RealizedPnL.realizedPnl).sum
      portfolio.totalRealizedPnl d.now = some snapshot) :
    run (Server.step num) (Server.alone db log i ⟨event, d, .selected (db.portfolio event.asset)⟩ rows)
      [.save i, .snapshot i, .commit i] =
        some (Server.idle (db.commit event d row snapshot) (log ++ [(event, d)])) := by
  have hsaved : applyAndSave num event (db.portfolio event.asset) =
      some (row, (pnlEvents.map RealizedPnL.realizedPnl).sum, portfolio.totalRealizedPnl) := by
    simp [applyAndSave, happ, hrow, sumDecimal_exact]
  simp [run, Server.step, Server.alone, Server.goto, Server.close, Server.idle, hsaved, hsnap, hrows,
    release_own]

/-- **One transaction** that is left alone commits what `process` records. -/
theorem run_statements (i : ℕ) (hd : d.fault = none) (h : Recorded num db event d db') :
    run (Server.step num) (Server.idle db log) (statements i event d) =
      some (Server.idle db' (log ++ [(event, d)])) := by
  obtain ⟨-, hnew, pnlEvents, portfolio, row, snapshot, happ, hrow, hsnap, rfl⟩ := h
  have hsplit : statements i event d =
      [.begin i event d, .claim i] ++ ([.upsert i, .select i] ++ [.save i, .snapshot i, .commit i]) := rfl
  rw [hsplit, run_append, run_to_claimed hd hnew, Option.bind_some, run_append, run_to_selected,
    Option.bind_some, run_to_idle (release_own event.asset) happ hrow hsnap]
  rfl

/-! ### Serial calls -/

/-- One instance that calls `process` for one event after the other; `none` once a call does not record
its event. -/
def processAll (num : ℚ → Option ℚ) (db : Db) : List (TradeEvent ℚ × Delivery) → Option Db
  | [] => some db
  | c :: cs =>
    match process num db c.1 c.2 with
    | .ok (.ok true, db) => processAll num db cs
    | _ => none

theorem processAll_append (db : Db) (log : List (TradeEvent ℚ × Delivery))
    (c : TradeEvent ℚ × Delivery) :
    processAll num db (log ++ [c]) = (processAll num db log).bind fun db => processAll num db [c] := by
  induction log generalizing db with
  | nil => rfl
  | cons c' log ih =>
    rw [List.cons_append, processAll, processAll]
    split
    · exact ih _
    · rfl

/-- Without a fault, `process` returns `Ok(true)` exactly when it records the event. -/
theorem process_iff_recorded (hd : d.fault = none) :
    process num db event d = .ok (.ok true, db') ↔ Recorded num db event d db' := by
  constructor
  · exact process_handled
  · rintro ⟨-, hnew, pnlEvents, portfolio, row, snapshot, happ, hrow, hsnap, rfl⟩
    have hasset : portfolio.asset = event.asset := apply_asset happ
    have hload : (loadPortfolio { db with processedEvents := db.processedEvents ++
        [claimRow event d.kafkaPartition d.kafkaOffset d.now] } event.asset).1 =
          db.portfolio event.asset := rfl
    simp only [process, processClaimed, storeResult, guarded, hd, reduceCtorEq, if_false, claimEvent,
      if_neg hnew, hload, happ, ok_bind, sumDecimal_exact, savePortfolio, hrow, savePnlSnapshot, hsnap]
    simp [loadPortfolio, hasset]

theorem processAll_singleton (hd : d.fault = none) :
    processAll num db [(event, d)] = some db' ↔ Recorded num db event d db' := by
  rw [← process_iff_recorded hd]
  constructor
  · intro h
    unfold processAll at h
    split at h
    · next db₁ hp =>
      cases h
      exact hp
    · cases h
  · intro h
    simp only [processAll, h]

/-- Serial calls make serial histories. -/
theorem processAll_iff_history (hd : ∀ c ∈ log, c.2.fault = none) :
    processAll num Db.empty log = some db ↔ History num log db := by
  constructor
  · intro h
    induction log using List.reverseRecOn generalizing db with
    | nil =>
      cases h
      exact .empty
    | append_singleton log c ih =>
      rw [processAll_append] at h
      obtain ⟨db₁, h₁, h⟩ := Option.bind_eq_some_iff.1 h
      have hrec := (processAll_singleton (hd c (by simp))).1 h
      exact .commit (ih (fun c' hc' => hd c' (List.mem_append_left _ hc')) h₁) hrec
  · intro h
    induction h with
    | empty => rfl
    | @commit log db db' event d h hrec ih =>
      rw [processAll_append, ih fun c hc => hd c (List.mem_append_left _ hc), Option.bind_some]
      exact (processAll_singleton (hd (event, d) (by simp))).2 hrec

/-! ### The two directions -/

/-- What is committed was begun without a fault. -/
theorem run_log_faults {actions : List Server.Action} {s : Server}
    (hs : run (Server.step num) Server.init actions = some s) : ∀ c ∈ s.log, c.2.fault = none := by
  refine (run_invariant (fun s => s.Current num ∧ ∀ c ∈ s.log, c.2.fault = none) ?_
    ⟨Server.current_init, fun c hc => by cases hc⟩ hs).2
  rintro s a t ⟨hcur, hlog⟩ ht
  obtain ⟨hcur', heffect⟩ := hcur.step ht
  refine ⟨hcur', fun c hc => ?_⟩
  rcases heffect with ⟨-, -, hsame⟩ | ⟨i, tx, -, htx, hnew, -⟩
  · rw [hsame] at hc
    exact hlog c hc
  · rw [hnew] at hc
    rcases List.mem_append.1 hc with hc | hc
    · exact hlog c hc
    · rw [List.mem_singleton.1 hc]
      exact (hcur i tx htx).fault

/-- Every serial history happens on the server, one transaction after the other. -/
theorem History.exists_run (h : History num log db) (hd : ∀ c ∈ log, c.2.fault = none) :
    ∃ actions, run (Server.step num) Server.init actions = some (Server.idle db log) := by
  induction h with
  | empty => exact ⟨[], rfl⟩
  | @commit log db db' event d h hrec ih =>
    obtain ⟨actions, hrun⟩ := ih fun c hc => hd c (List.mem_append_left _ hc)
    refine ⟨actions ++ statements 0 event d, ?_⟩
    rw [run_append, hrun, Option.bind_some]
    exact run_statements 0 (hd (event, d) (by simp)) hrec

/-- **Concurrency adds nothing and loses nothing.** Any number of instances with any interleaving of their
statements, rollbacks and crashes can commit these events in this order and leave these tables exactly when
one instance that calls `process` for the events in this order, and is told `Ok(true)` each time, does. -/
theorem committed_iff_sequential (num : ℚ → Option ℚ) (log : List (TradeEvent ℚ × Delivery)) (db : Db) :
    (∃ actions s, run (Server.step num) Server.init actions = some s ∧ s.log = log ∧ s.db = db) ↔
      (∀ c ∈ log, c.2.fault = none) ∧ processAll num Db.empty log = some db := by
  constructor
  · rintro ⟨actions, s, hs, rfl, rfl⟩
    have hd := run_log_faults hs
    exact ⟨hd, (processAll_iff_history hd).2 (run_history hs).2⟩
  · rintro ⟨hd, hall⟩
    obtain ⟨actions, hrun⟩ := ((processAll_iff_history hd).1 hall).exists_run hd
    exact ⟨actions, _, hrun, rfl, rfl⟩

end Consumer
end CryptoAccounting

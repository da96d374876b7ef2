import CryptoAccounting.Consumer.Processor
import CryptoAccounting.Lib.Tables
import CryptoAccounting.Lib.Transition

/-!
# Concurrent transactions

Any number of consumer instances run `EventProcessor::process` against one PostgreSQL server, in READ
COMMITTED: a statement sees the committed rows and those of its own transaction. Two things make a
statement wait for another transaction: a key that it has inserted and not committed, in
`processed_events` or in `portfolio_state`, and a row that it has locked with `FOR UPDATE`. Everything a
transaction has written becomes visible at its commit, and nothing of it if it ends otherwise.

`run_history`: whatever the interleaving, the committed tables are those of a serial execution of the
committed transactions in the order of their commits.
-/

namespace CryptoAccounting
namespace Consumer

open Tables Transition

/-! ### The system -/

/-- How far a transaction has come, with what `process` holds in memory and has not committed. -/
inductive Stage
  | begun
  /-- The event was in `processed_events`; the rollback is next. -/
  | duplicate
  | claimed
  | upserted
  | selected (portfolio : AssetPortfolio ℚ)
  | saved (row : PortfolioRow) (realizedPnl totalRealizedPnl : ℚ)
  | stored (row : PortfolioRow) (snapshot : PnlSnapshot)

/-- An open transaction. -/
structure Tx where
  event : TradeEvent ℚ
  delivery : Delivery
  stage : Stage

/-- The server with its open transactions. -/
structure Server where
  /-- The committed rows. -/
  db : Db
  txs : ℕ → Option Tx
  /-- The transaction that has inserted the key into `processed_events`. -/
  claims : Uuid → Option ℕ
  /-- The transaction that has inserted the asset's row or holds its lock. -/
  rows : String → Option ℕ
  /-- The transactions that committed, in order. -/
  log : List (TradeEvent ℚ × Delivery)

def Server.init : Server where
  db := Db.empty
  txs := fun _ => none
  claims := fun _ => none
  rows := fun _ => none
  log := []

/-- The statements of the transactions, one action for each. -/
inductive Server.Action
  | begin (i : ℕ) (event : TradeEvent ℚ) (d : Delivery)
  | claim (i : ℕ)
  | upsert (i : ℕ)
  | select (i : ℕ)
  /-- Apply the event in memory and update the row. -/
  | save (i : ℕ)
  | snapshot (i : ℕ)
  | commit (i : ℕ)
  /-- The rollback of a duplicate, a failed statement, or a crash of the instance. -/
  | rollback (i : ℕ)

/-- The transaction gets to a stage. -/
def Server.goto (s : Server) (i : ℕ) (tx : Tx) (stage : Stage) : Server :=
  { s with txs := Function.update s.txs i (some { tx with stage }) }

/-- The transaction is over. -/
def Server.close (s : Server) (i : ℕ) : Server :=
  { s with
    txs := Function.update s.txs i none
    claims := release i s.claims
    rows := release i s.rows }

/-- What `process` computes and writes into the row: the row, the realized PnL of the event and the
new total. `none` if it ends with an error or a panic. -/
def applyAndSave (num : ℚ → Option ℚ) (event : TradeEvent ℚ) (portfolio : AssetPortfolio ℚ) :
    Option (PortfolioRow × ℚ × ℚ) :=
  match portfolio.apply event with
  | .ok (.ok pnlEvents, portfolio) =>
    match sumDecimal (pnlEvents.map RealizedPnL.realizedPnl) with
    | .ok realizedPnl => do
      let row ← PortfolioRow.ofPortfolio num portfolio event.eventId event.timestamp
      pure (row, realizedPnl, portfolio.totalRealizedPnl)
    | .error _ => none
  | _ => none

/-- The tables after the commit of a transaction. -/
def Db.commit (db : Db) (event : TradeEvent ℚ) (d : Delivery) (row : PortfolioRow)
    (snapshot : PnlSnapshot) : Db where
  processedEvents := db.processedEvents ++ [claimRow event d.kafkaPartition d.kafkaOffset d.now]
  portfolioState := Function.update db.portfolioState event.asset (some row)
  pnlSnapshots := db.pnlSnapshots ++ [snapshot]

/-- Carry out one statement; `none` if it has to wait or is not the next one. -/
def Server.step (num : ℚ → Option ℚ) (s : Server) : Server.Action → Option Server
  | .begin i event d =>
    -- A failing statement is a `rollback` here.
    if (s.txs i).isNone ∧ d.fault = none then
      some (s.goto i { event, delivery := d, stage := .begun } .begun)
    else none
  | .claim i => do
    let tx ← s.txs i
    match tx.stage with
    | .begun =>
      if (s.claims tx.event.eventId).isSome then none
      else if (claimEvent s.db tx.event tx.delivery.kafkaPartition tx.delivery.kafkaOffset
          tx.delivery.now).1 then
        some { s.goto i tx .claimed with
          claims := Function.update s.claims tx.event.eventId (some i) }
      else some (s.goto i tx .duplicate)
    | _ => none
  | .upsert i => do
    let tx ← s.txs i
    match tx.stage with
    | .claimed =>
      if (s.db.portfolioState tx.event.asset).isSome then some (s.goto i tx .upserted)
      -- Who holds a row that is not committed has inserted it.
      else if (s.rows tx.event.asset).isSome then none
      else
        some { s.goto i tx .upserted with
          rows := Function.update s.rows tx.event.asset (some i) }
    | _ => none
  | .select i => do
    let tx ← s.txs i
    match tx.stage with
    | .upserted =>
      if s.rows tx.event.asset = none ∨ s.rows tx.event.asset = some i then
        -- `fetch_one` fails without a row.
        if (s.db.portfolioState tx.event.asset).isNone ∧ s.rows tx.event.asset = none then
          some (s.close i)
        else
          some { s.goto i tx (.selected (loadPortfolio s.db tx.event.asset).1) with
            rows := Function.update s.rows tx.event.asset (some i) }
      else none
    | _ => none
  | .save i => do
    let tx ← s.txs i
    match tx.stage with
    | .selected portfolio =>
      match applyAndSave num tx.event portfolio with
      | none => some (s.close i)
      | some (row, realizedPnl, total) => some (s.goto i tx (.saved row realizedPnl total))
    | _ => none
  | .snapshot i => do
    let tx ← s.txs i
    match tx.stage with
    | .saved row realizedPnl total =>
      match PnlSnapshot.of num tx.delivery.snapshotId tx.event realizedPnl total
        tx.delivery.now with
      | none => some (s.close i)
      | some snapshot => some (s.goto i tx (.stored row snapshot))
    | _ => none
  | .commit i => do
    let tx ← s.txs i
    match tx.stage with
    | .stored row snapshot =>
      some { s.close i with
        db := s.db.commit tx.event tx.delivery row snapshot
        log := s.log ++ [(tx.event, tx.delivery)] }
    | _ => none
  | .rollback i => do
    let _ ← s.txs i
    some (s.close i)

/-! ### What a statement can do -/

/-- What a statement does when it does not wait. -/
inductive Server.Moves (num : ℚ → Option ℚ) (s : Server) : Server.Action → Server → Prop
  | begin (i : ℕ) (event : TradeEvent ℚ) (d : Delivery) (hd : d.fault = none) :
      Moves num s (.begin i event d) (s.goto i { event, delivery := d, stage := .begun } .begun)
  | claim (i : ℕ) (tx : Tx) (htx : s.txs i = some tx) (hstage : tx.stage = .begun)
      (hfree : s.claims tx.event.eventId = none) (hnew : tx.event.eventId ∉ s.db.processedIds) :
      Moves num s (.claim i)
        { s.goto i tx .claimed with
          claims := Function.update s.claims tx.event.eventId (some i) }
  | duplicate (i : ℕ) (tx : Tx) (htx : s.txs i = some tx) :
      Moves num s (.claim i) (s.goto i tx .duplicate)
  | upsert (i : ℕ) (tx : Tx) (htx : s.txs i = some tx) (hstage : tx.stage = .claimed) :
      Moves num s (.upsert i) (s.goto i tx .upserted)
  | insert (i : ℕ) (tx : Tx) (htx : s.txs i = some tx) (hstage : tx.stage = .claimed)
      (hfree : s.rows tx.event.asset = none) :
      Moves num s (.upsert i)
        { s.goto i tx .upserted with
          rows := Function.update s.rows tx.event.asset (some i) }
  | select (i : ℕ) (tx : Tx) (htx : s.txs i = some tx) (hstage : tx.stage = .upserted)
      (hfree : s.rows tx.event.asset = none ∨ s.rows tx.event.asset = some i) :
      Moves num s (.select i)
        { s.goto i tx (.selected (s.db.portfolio tx.event.asset)) with
          rows := Function.update s.rows tx.event.asset (some i) }
  | save (i : ℕ) (tx : Tx) (portfolio : AssetPortfolio ℚ) (row : PortfolioRow)
      (realizedPnl total : ℚ) (htx : s.txs i = some tx) (hstage : tx.stage = .selected portfolio)
      (hsaved : applyAndSave num tx.event portfolio = some (row, realizedPnl, total)) :
      Moves num s (.save i) (s.goto i tx (.saved row realizedPnl total))
  | snapshot (i : ℕ) (tx : Tx) (row : PortfolioRow) (realizedPnl total : ℚ)
      (snapshot : PnlSnapshot) (htx : s.txs i = some tx)
      (hstage : tx.stage = .saved row realizedPnl total)
      (hsnap : PnlSnapshot.of num tx.delivery.snapshotId tx.event realizedPnl total
        tx.delivery.now = some snapshot) :
      Moves num s (.snapshot i) (s.goto i tx (.stored row snapshot))
  | commit (i : ℕ) (tx : Tx) (row : PortfolioRow) (snapshot : PnlSnapshot)
      (htx : s.txs i = some tx) (hstage : tx.stage = .stored row snapshot) :
      Moves num s (.commit i)
        { s.close i with
          db := s.db.commit tx.event tx.delivery row snapshot
          log := s.log ++ [(tx.event, tx.delivery)] }
  /-- A failed statement or a rollback. -/
  | close (a : Server.Action) (i : ℕ) (ha : ∀ j, a ≠ .commit j) : Moves num s a (s.close i)

theorem Server.step_moves {num : ℚ → Option ℚ} {s s' : Server} {a : Server.Action}
    (hs : s.step num a = some s') : s.Moves num a s' := by
  cases a with
  | begin i event d =>
    simp only [Server.step] at hs
    split_ifs at hs with hc
    cases hs
    exact .begin i event d hc.2
  | claim i =>
    obtain ⟨tx, htx, hs⟩ := Option.bind_eq_some_iff.1 hs
    split at hs
    · next hstage =>
      split_ifs at hs with hclaimed hnew
      · cases hs
        refine .claim i tx htx hstage (by simpa using hclaimed) fun hmem => ?_
        rw [claimEvent, if_pos hmem] at hnew
        cases hnew
      · cases hs
        exact .duplicate i tx htx
    · cases hs
  | upsert i =>
    obtain ⟨tx, htx, hs⟩ := Option.bind_eq_some_iff.1 hs
    split at hs
    · next hstage =>
      split_ifs at hs with hrow hheld
      · cases hs
        exact .upsert i tx htx hstage
      · cases hs
        exact .insert i tx htx hstage (by simpa using hheld)
    · cases hs
  | select i =>
    obtain ⟨tx, htx, hs⟩ := Option.bind_eq_some_iff.1 hs
    split at hs
    · next hstage =>
      split_ifs at hs with hfree hrow
      · cases hs
        exact .close _ i (by simp)
      · cases hs
        exact .select i tx htx hstage hfree
    · cases hs
  | save i =>
    obtain ⟨tx, htx, hs⟩ := Option.bind_eq_some_iff.1 hs
    split at hs
    · next portfolio hstage =>
      split at hs
      · cases hs
        exact .close _ i (by simp)
      · next row realizedPnl total hsaved =>
        cases hs
        exact .save i tx portfolio row realizedPnl total htx hstage hsaved
    · cases hs
  | snapshot i =>
    obtain ⟨tx, htx, hs⟩ := Option.bind_eq_some_iff.1 hs
    split at hs
    · next row realizedPnl total hstage =>
      split at hs
      · cases hs
        exact .close _ i (by simp)
      · next snapshot hsnap =>
        cases hs
        exact .snapshot i tx row realizedPnl total snapshot htx hstage hsnap
    · cases hs
  | commit i =>
    obtain ⟨tx, htx, hs⟩ := Option.bind_eq_some_iff.1 hs
    split at hs
    · next row snapshot hstage =>
      cases hs
      exact .commit i tx row snapshot htx hstage
    · cases hs
  | rollback i =>
    obtain ⟨tx, htx, hs⟩ := Option.bind_eq_some_iff.1 hs
    cases hs
    exact .close _ i (by simp)

/-! ### What the open transactions know -/

/-- The transaction has inserted its event into `processed_events`. -/
def Stage.Claimed : Stage → Prop
  | .begun => False
  | .duplicate => False
  | _ => True

/-- The transaction holds the row of its asset. -/
def Stage.Locked : Stage → Prop
  | .selected _ => True
  | .saved _ _ _ => True
  | .stored _ _ => True
  | _ => False

/-- What the transaction holds in memory comes from the portfolio `p`. -/
def Stage.From (num : ℚ → Option ℚ) (p : AssetPortfolio ℚ) (event : TradeEvent ℚ) (d : Delivery) :
    Stage → Prop
  | .selected portfolio => portfolio = p
  | .saved row realizedPnl total => applyAndSave num event p = some (row, realizedPnl, total)
  | .stored row snapshot => ∃ realizedPnl total,
      applyAndSave num event p = some (row, realizedPnl, total) ∧
        PnlSnapshot.of num d.snapshotId event realizedPnl total d.now = some snapshot
  | _ => True

/-- What an open transaction knows: the event it has claimed is claimed by no other and not
committed, and the portfolio it has read is still the committed one. -/
structure Tx.Current (num : ℚ → Option ℚ) (s : Server) (i : ℕ) (tx : Tx) : Prop where
  fault : tx.delivery.fault = none
  claimed : tx.stage.Claimed →
    s.claims tx.event.eventId = some i ∧ tx.event.eventId ∉ s.db.processedIds
  locked : tx.stage.Locked → s.rows tx.event.asset = some i
  fromRow : tx.stage.From num (s.db.portfolio tx.event.asset) tx.event tx.delivery

/-- Every open transaction is current. -/
def Server.Current (num : ℚ → Option ℚ) (s : Server) : Prop :=
  ∀ i tx, s.txs i = some tx → tx.Current num s i

/-- The committed tables are those of a serial execution. -/
inductive History (num : ℚ → Option ℚ) : List (TradeEvent ℚ × Delivery) → Db → Prop
  | empty : History num [] Db.empty
  | commit {log : List (TradeEvent ℚ × Delivery)} {db db' : Db} {event : TradeEvent ℚ}
      {d : Delivery} (h : History num log db) (hrec : Recorded num db event d db') :
      History num (log ++ [(event, d)]) db'

variable {num : ℚ → Option ℚ} {s s' : Server} {i : ℕ} {tx : Tx}

/-- A stage without a lock does not depend on the portfolio. -/
theorem Stage.From.of_not_locked {stage : Stage} {p q : AssetPortfolio ℚ} {event : TradeEvent ℚ}
    {d : Delivery} (hl : ¬ stage.Locked) (h : stage.From num p event d) :
    stage.From num q event d := by
  cases stage with
  | begun => trivial
  | duplicate => trivial
  | claimed => trivial
  | upserted => trivial
  | selected portfolio => exact absurd trivial hl
  | saved row realizedPnl total => exact absurd trivial hl
  | stored row snapshot => exact absurd trivial hl

/-- A transaction stays current as long as it keeps its locks and nobody commits what they cover. -/
theorem Tx.Current.mono (h : tx.Current num s i)
    (hclaims : ∀ e, s.claims e = some i → s'.claims e = some i ∧
      (e ∉ s.db.processedIds → e ∉ s'.db.processedIds))
    (hrows : ∀ a, s.rows a = some i →
      s'.rows a = some i ∧ s'.db.portfolio a = s.db.portfolio a) : tx.Current num s' i where
  fault := h.fault
  claimed hc := by
    obtain ⟨hclaim, hnew⟩ := h.claimed hc
    exact ⟨(hclaims _ hclaim).1, (hclaims _ hclaim).2 hnew⟩
  locked hl := (hrows _ (h.locked hl)).1
  fromRow := by
    by_cases hl : tx.stage.Locked
    · rw [(hrows _ (h.locked hl)).2]
      exact h.fromRow
    · exact h.fromRow.of_not_locked hl

theorem goto_self (s : Server) (i : ℕ) (tx : Tx) (stage : Stage) :
    (s.goto i tx stage).txs i = some { tx with stage } := Function.update_self ..
theorem goto_of_ne {j : ℕ} (hij : j ≠ i) (s : Server) (tx : Tx) (stage : Stage) :
    (s.goto i tx stage).txs j = s.txs j := Function.update_of_ne hij ..
theorem close_self (s : Server) (i : ℕ) : (s.close i).txs i = none := Function.update_self ..
theorem close_of_ne {j : ℕ} (hij : j ≠ i) (s : Server) : (s.close i).txs j = s.txs j :=
  Function.update_of_ne hij ..

/-- A statement of `i` that takes free locks at most. -/
theorem Server.Current.goto (h : s.Current num) {stage : Stage} {claims : Uuid → Option ℕ}
    {rows : String → Option ℕ}
    (hclaims : ∀ j e, j ≠ i → s.claims e = some j → claims e = some j)
    (hrows : ∀ j a, j ≠ i → s.rows a = some j → rows a = some j)
    (hi : Tx.Current num { s with claims, rows } i { tx with stage }) :
    Server.Current num { s.goto i tx stage with claims, rows } := by
  intro j tx' hj
  by_cases hij : j = i
  · subst hij
    cases (goto_self s j tx stage).symm.trans hj
    exact hi.mono (fun e he => ⟨he, id⟩) fun a ha => ⟨ha, rfl⟩
  · have htx : s.txs j = some tx' := (goto_of_ne hij s tx stage).symm.trans hj
    exact (h j tx' htx).mono (fun e he => ⟨hclaims j e hij he, id⟩)
      fun a ha => ⟨hrows j a hij ha, rfl⟩

/-- A statement of `i` that takes no lock. -/
theorem Server.Current.stay (h : s.Current num) {stage : Stage}
    (hi : Tx.Current num s i { tx with stage }) : Server.Current num (s.goto i tx stage) :=
  h.goto (fun _ _ _ h => h) (fun _ _ _ h => h) hi

/-- The end of a transaction does not touch the others. -/
theorem Server.Current.close (h : s.Current num) (i : ℕ) : (s.close i).Current num := by
  intro j tx' hj
  by_cases hij : j = i
  · subst hij
    cases (close_self s j).symm.trans hj
  · have htx : s.txs j = some tx' := (close_of_ne hij s).symm.trans hj
    exact (h j tx' htx).mono (fun e he => ⟨release_of_ne hij he, id⟩)
      fun a ha => ⟨release_of_ne hij ha, rfl⟩

/-- What a transaction has computed when it is about to commit. -/
theorem applyAndSave_eq_some {event : TradeEvent ℚ} {p : AssetPortfolio ℚ} {row : PortfolioRow}
    {realizedPnl total : ℚ} (h : applyAndSave num event p = some (row, realizedPnl, total)) :
    ∃ pnlEvents q, p.apply event = .ok (.ok pnlEvents, q) ∧
      PortfolioRow.ofPortfolio num q event.eventId event.timestamp = some row ∧
      realizedPnl = (pnlEvents.map RealizedPnL.realizedPnl).sum ∧ total = q.totalRealizedPnl := by
  unfold applyAndSave at h
  split at h
  · next pnlEvents q happ =>
    rw [sumDecimal_exact] at h
    obtain ⟨row', hrow, h⟩ := Option.bind_eq_some_iff.1 h
    cases h
    exact ⟨pnlEvents, q, happ, hrow, rfl, rfl⟩
  · cases h

/-- **A commit records its event**, whatever the other transactions are doing. -/
theorem Tx.Current.recorded (h : tx.Current num s i) {row : PortfolioRow} {snapshot : PnlSnapshot}
    (hstage : tx.stage = .stored row snapshot) :
    Recorded num s.db tx.event tx.delivery (s.db.commit tx.event tx.delivery row snapshot) := by
  have hfrom := h.fromRow
  rw [hstage] at hfrom
  obtain ⟨realizedPnl, total, hsaved, hsnap⟩ := hfrom
  obtain ⟨pnlEvents, q, happ, hrow, rfl, rfl⟩ := applyAndSave_eq_some hsaved
  have hnew := (h.claimed (by rw [hstage]; trivial)).2
  exact ⟨.inl h.fault, hnew, pnlEvents, q, row, snapshot, happ, hrow, hsnap, rfl⟩

/-- A written row is what is loaded next. -/
theorem portfolio_update (states : String → Option PortfolioRow) (asset : String)
    (row : PortfolioRow) (events : List ProcessedEvent) (snapshots : List PnlSnapshot) :
    (Db.mk events (Function.update states asset (some row)) snapshots).portfolio asset =
      row.toPortfolio asset := by
  simp [Db.portfolio]

/-- A commit leaves the rows of the other assets as they are. -/
theorem Recorded.portfolioState_of_ne {db db' : Db} {event : TradeEvent ℚ} {d : Delivery}
    (h : Recorded num db event d db') {asset : String} (ha : asset ≠ event.asset) :
    db'.portfolioState asset = db.portfolioState asset := by
  obtain ⟨-, -, -, -, -, -, -, -, -, rfl⟩ := h
  exact Function.update_of_ne ha ..

theorem Recorded.portfolio_of_ne {db db' : Db} {event : TradeEvent ℚ} {d : Delivery}
    (h : Recorded num db event d db') {asset : String} (ha : asset ≠ event.asset) :
    db'.portfolio asset = db.portfolio asset := by
  rw [Db.portfolio, h.portfolioState_of_ne ha, Db.portfolio]

theorem Server.Current.commit (h : s.Current num) (htx : s.txs i = some tx) {row : PortfolioRow}
    {snapshot : PnlSnapshot} (hstage : tx.stage = .stored row snapshot)
    (log : List (TradeEvent ℚ × Delivery)) :
    Server.Current num
      { s.close i with db := s.db.commit tx.event tx.delivery row snapshot, log } := by
  have hi := h i tx htx
  have hrec := hi.recorded hstage
  have hclaim : s.claims tx.event.eventId = some i := (hi.claimed (by rw [hstage]; trivial)).1
  have hlock : s.rows tx.event.asset = some i := hi.locked (by rw [hstage]; trivial)
  intro j tx' hj
  by_cases hij : j = i
  · subst hij
    cases (close_self s j).symm.trans hj
  · have htx' : s.txs j = some tx' := (close_of_ne hij s).symm.trans hj
    refine (h j tx' htx').mono (fun e he => ⟨release_of_ne hij he, fun hnew hmem => ?_⟩)
      fun a ha => ⟨release_of_ne hij ha, hrec.portfolio_of_ne ?_⟩
    · -- The committed event is claimed by `i` alone.
      have hids := hrec.processedIds
      change e ∈ Db.processedIds (s.db.commit tx.event tx.delivery row snapshot) at hmem
      rw [hids] at hmem
      rcases List.mem_append.1 hmem with hmem | hmem
      · exact hnew hmem
      · rw [List.mem_singleton.1 hmem, hclaim] at he
        exact hij (Option.some_inj.1 he).symm
    · rintro rfl
      rw [hlock] at ha
      exact hij (Option.some_inj.1 ha).symm

/-- What a statement does to the committed tables: nothing, or it is a commit and records its
event. -/
def Effect (num : ℚ → Option ℚ) (s : Server) (a : Server.Action) (s' : Server) : Prop :=
  (∀ i, a ≠ .commit i) ∧ s'.db = s.db ∧ s'.log = s.log ∨
    ∃ i tx, a = .commit i ∧ s.txs i = some tx ∧ s'.log = s.log ++ [(tx.event, tx.delivery)] ∧
      Recorded num s.db tx.event tx.delivery s'.db

/-- **One statement** keeps the open transactions current. -/
theorem Server.Current.step (h : s.Current num) {a : Server.Action} (hs : s.step num a = some s') :
    s'.Current num ∧ Effect num s a s' := by
  cases step_moves hs with
  | begin i event d hd =>
    exact ⟨h.stay ⟨hd, False.elim, False.elim, trivial⟩, .inl ⟨nofun, rfl, rfl⟩⟩
  | claim i tx htx hstage hfree hnew =>
    refine ⟨h.goto (fun j e hij he => acquire_of_ne hij (.inl hfree) he) (fun _ _ _ h => h) ?_,
      .inl ⟨nofun, rfl, rfl⟩⟩
    exact ⟨(h i tx htx).fault, fun _ => ⟨Function.update_self .., hnew⟩, False.elim, trivial⟩
  | duplicate i tx htx =>
    exact ⟨h.stay ⟨(h i tx htx).fault, False.elim, False.elim, trivial⟩, .inl ⟨nofun, rfl, rfl⟩⟩
  | upsert i tx htx hstage =>
    have hclaimed := (h i tx htx).claimed (by rw [hstage]; trivial)
    exact ⟨h.stay ⟨(h i tx htx).fault, fun _ => hclaimed, False.elim, trivial⟩,
      .inl ⟨nofun, rfl, rfl⟩⟩
  | insert i tx htx hstage hfree =>
    have hclaimed := (h i tx htx).claimed (by rw [hstage]; trivial)
    refine ⟨h.goto (fun _ _ _ h => h) (fun j a hij ha => acquire_of_ne hij (.inl hfree) ha) ?_,
      .inl ⟨nofun, rfl, rfl⟩⟩
    exact ⟨(h i tx htx).fault, fun _ => hclaimed, False.elim, trivial⟩
  | select i tx htx hstage hfree =>
    have hclaimed := (h i tx htx).claimed (by rw [hstage]; trivial)
    refine ⟨h.goto (fun _ _ _ h => h) (fun j a hij ha => acquire_of_ne hij hfree ha) ?_,
      .inl ⟨nofun, rfl, rfl⟩⟩
    exact ⟨(h i tx htx).fault, fun _ => hclaimed, fun _ => Function.update_self .., rfl⟩
  | save i tx portfolio row realizedPnl total htx hstage hsaved =>
    have hi := h i tx htx
    have hclaimed := hi.claimed (by rw [hstage]; trivial)
    have hlocked := hi.locked (by rw [hstage]; trivial)
    have hfrom := hi.fromRow
    rw [hstage] at hfrom
    have hportfolio : portfolio = s.db.portfolio tx.event.asset := hfrom
    rw [hportfolio] at hsaved
    exact ⟨h.stay ⟨hi.fault, fun _ => hclaimed, fun _ => hlocked, hsaved⟩, .inl ⟨nofun, rfl, rfl⟩⟩
  | snapshot i tx row realizedPnl total snapshot htx hstage hsnap =>
    have hi := h i tx htx
    have hclaimed := hi.claimed (by rw [hstage]; trivial)
    have hlocked := hi.locked (by rw [hstage]; trivial)
    have hfrom := hi.fromRow
    rw [hstage] at hfrom
    exact ⟨h.stay ⟨hi.fault, fun _ => hclaimed, fun _ => hlocked, realizedPnl, total, hfrom, hsnap⟩,
      .inl ⟨nofun, rfl, rfl⟩⟩
  | commit i tx row snapshot htx hstage =>
    exact ⟨h.commit htx hstage _, .inr ⟨i, tx, rfl, htx, rfl, (h i tx htx).recorded hstage⟩⟩
  | close a i ha => exact ⟨h.close i, .inl ⟨ha, rfl, rfl⟩⟩

/-- A transaction keeps its event and its delivery from its begin on. -/
theorem step_event {a : Server.Action} (hs : s.step num a = some s') {tx' : Tx}
    (htx' : s'.txs i = some tx') :
    (∃ tx, s.txs i = some tx ∧ tx'.event = tx.event ∧ tx'.delivery = tx.delivery) ∨
      ∃ event d, a = .begin i event d ∧ tx'.event = event ∧ tx'.delivery = d := by
  have hgoto : ∀ {j tx stage}, s.txs j = some tx → (s.goto j tx stage).txs i = some tx' →
      ∃ tx, s.txs i = some tx ∧ tx'.event = tx.event ∧ tx'.delivery = tx.delivery := by
    intro j tx stage htx h
    rcases update_eq_some h with ⟨rfl, he⟩ | ⟨-, h⟩
    · cases he
      exact ⟨tx, htx, rfl, rfl⟩
    · exact ⟨tx', h, rfl, rfl⟩
  have hclose : ∀ {j}, (s.close j).txs i = some tx' →
      ∃ tx, s.txs i = some tx ∧ tx'.event = tx.event ∧ tx'.delivery = tx.delivery := by
    intro j h
    rcases update_eq_some h with ⟨-, he⟩ | ⟨-, h⟩
    · cases he
    · exact ⟨tx', h, rfl, rfl⟩
  cases Server.step_moves hs with
  | begin j event d hd =>
    rcases update_eq_some htx' with ⟨rfl, he⟩ | ⟨-, h⟩
    · cases he
      exact .inr ⟨event, d, rfl, rfl, rfl⟩
    · exact .inl ⟨tx', h, rfl, rfl⟩
  | claim j tx htx => exact .inl (hgoto htx htx')
  | duplicate j tx htx => exact .inl (hgoto htx htx')
  | upsert j tx htx => exact .inl (hgoto htx htx')
  | insert j tx htx => exact .inl (hgoto htx htx')
  | select j tx htx => exact .inl (hgoto htx htx')
  | save j tx portfolio row realizedPnl total htx => exact .inl (hgoto htx htx')
  | snapshot j tx row realizedPnl total snapshot htx => exact .inl (hgoto htx htx')
  | commit j tx => exact .inl (hclose htx')
  | close a j => exact .inl (hclose htx')

theorem Server.current_init : Server.init.Current num := by
  intro i tx h
  cases h

/-- **Serialisability.** Whatever the interleaving, the committed tables are those of a serial
execution of the committed transactions, in the order of their commits. -/
theorem run_history {actions : List Server.Action}
    (hs : run (Server.step num) Server.init actions = some s) :
    s.Current num ∧ History num s.log s.db := by
  refine run_invariant (fun s => s.Current num ∧ History num s.log s.db) ?_
    ⟨Server.current_init, .empty⟩ hs
  rintro s a t ⟨hcur, hist⟩ ht
  obtain ⟨hcur', heffect⟩ := hcur.step ht
  refine ⟨hcur', ?_⟩
  rcases heffect with ⟨-, hdb, hlog⟩ | ⟨i, tx, -, -, hlog, hrec⟩
  · rw [hdb, hlog]
    exact hist
  · rw [hlog]
    exact .commit hist hrec

end Consumer
end CryptoAccounting

import CryptoAccounting.Consumer.Repository

/-!
# The event processor

`EventProcessor::process` of pnl-consumer: one transaction that claims the event, loads the row of
its asset, applies the event and stores the result. Every statement may fail for reasons outside
the model; a `Delivery` says which one does, if any. An error before the commit leaves the tables
as they were, and a panic drops the transaction, which rolls it back too.
-/

namespace CryptoAccounting
namespace Consumer

open DecimalOps

/-- The places where `process` awaits the database. -/
inductive Statement
  | begin
  | claim
  | rollback
  | upsert
  | select
  | save
  | snapshot
  | commit
  /-- The commit takes effect, but its acknowledgement is lost. -/
  | commitAck
  deriving DecidableEq, Repr

/-- The context the source gives to a failure of the statement. -/
def Statement.context : Statement → Option String
  | .claim => some "claim_event insert"
  | .upsert => some "portfolio_state upsert for lock"
  | .select => some "portfolio_state select for update"
  | .save => some "portfolio_state update"
  | .snapshot => some "pnl_snapshots insert"
  | _ => none

/-- One call of `process`: where the message stood, what the call draws and reads from the clock,
and the statement that fails. -/
structure Delivery where
  kafkaPartition : ℤ
  kafkaOffset : ℤ
  snapshotId : Uuid
  /-- `NOW()`, the start of the transaction. -/
  now : Timestamp
  fault : Option Statement
  deriving DecidableEq, Repr

/-- The error of a call of `process`. -/
inductive ProcessError
  | database (context : Option String)
  | portfolio (event : TradeEvent ℚ) (source : PortfolioError ℚ)
  deriving DecidableEq, Repr

/-- What a call returns, and the tables after it. -/
abbrev Outcome := Except Panic (Except ProcessError Bool × Db)

/-- Go on with `rest` unless the statement fails. -/
def guarded (d : Delivery) (statement : Statement) (db : Db) (rest : Outcome) : Outcome :=
  if d.fault = some statement then .ok (.error (.database statement.context), db) else rest

/-- Step 4 of `process` and its commit: store the portfolio and the snapshot. -/
def storeResult (num : ℚ → Option ℚ) (db tx : Db) (event : TradeEvent ℚ) (d : Delivery)
    (portfolio : AssetPortfolio ℚ) (realizedPnl : ℚ) : Outcome :=
  guarded d .save db <|
    match savePortfolio num tx portfolio event.eventId event.timestamp with
    | none => pure (.error (.database Statement.save.context), db)
    | some tx =>
      guarded d .snapshot db <|
        match savePnlSnapshot num tx d.snapshotId event realizedPnl portfolio.totalRealizedPnl
          d.now with
        | none => pure (.error (.database Statement.snapshot.context), db)
        | some tx => guarded d .commit db <| guarded d .commitAck tx <| pure (.ok true, tx)

/-- Steps 2 and 3 of `process`, on the tables `tx` in which the event is claimed. -/
def processClaimed (num : ℚ → Option ℚ) (db tx : Db) (event : TradeEvent ℚ) (d : Delivery) :
    Outcome :=
  guarded d .upsert db <| guarded d .select db <| do
    let (portfolio, tx) := loadPortfolio tx event.asset
    let (result, portfolio) ← portfolio.apply event
    match result with
    | .error e => pure (.error (.portfolio event e), db)
    | .ok pnlEvents => do
      let realizedPnl ← sumDecimal (pnlEvents.map RealizedPnL.realizedPnl)
      storeResult num db tx event d portfolio realizedPnl

/-- `EventProcessor::process`. -/
def process (num : ℚ → Option ℚ) (db : Db) (event : TradeEvent ℚ) (d : Delivery) : Outcome :=
  guarded d .begin db <| guarded d .claim db <|
    match claimEvent db event d.kafkaPartition d.kafkaOffset d.now with
    | (false, _) => guarded d .rollback db <| pure (.ok false, db)
    | (true, tx) => processClaimed num db tx event d

/-! ### What a call can do -/

/-- The portfolio a transaction loads for an asset. -/
def Db.portfolio (db : Db) (asset : String) : AssetPortfolio ℚ :=
  ((db.portfolioState asset).getD PortfolioRow.empty).toPortfolio asset

/-- No statement of the transaction fails up to its commit; a duplicate alone is rolled back. -/
def Delivery.Commits (d : Delivery) : Prop :=
  d.fault = none ∨ d.fault = some .rollback ∨ d.fault = some .commitAck

/-- The effect of a committed transaction: the event is new, its asset's portfolio takes it, every
column takes its value, and the three tables change together. -/
def Recorded (num : ℚ → Option ℚ) (db : Db) (event : TradeEvent ℚ) (d : Delivery) (db' : Db) :
    Prop :=
  d.Commits ∧ event.eventId ∉ db.processedIds ∧ ∃ pnlEvents portfolio row snapshot,
    (db.portfolio event.asset).apply event = .ok (.ok pnlEvents, portfolio) ∧
    PortfolioRow.ofPortfolio num portfolio event.eventId event.timestamp = some row ∧
    PnlSnapshot.of num d.snapshotId event (pnlEvents.map RealizedPnL.realizedPnl).sum
      portfolio.totalRealizedPnl d.now = some snapshot ∧
    db' =
      { processedEvents :=
          db.processedEvents ++ [claimRow event d.kafkaPartition d.kafkaOffset d.now]
        portfolioState := Function.update db.portfolioState event.asset (some row)
        pnlSnapshots := db.pnlSnapshots ++ [snapshot] }

variable {num : ℚ → Option ℚ} {db db' : Db} {event : TradeEvent ℚ} {d : Delivery}

/-- Whatever the computation returns, with the tables it leaves, meets `post`. -/
def Outcome.Meets (o : Outcome) (post : Except ProcessError Bool → Db → Prop) : Prop :=
  ∀ r db', o = .ok (r, db') → post r db'

theorem pure_meets {post : Except ProcessError Bool → Db → Prop} {r : Except ProcessError Bool}
    (h : post r db) : Outcome.Meets (pure (r, db)) post := by
  rintro r db' ⟨⟩
  exact h

theorem guarded_meets {post : Except ProcessError Bool → Db → Prop} {statement : Statement}
    {rest : Outcome} (hfail : post (.error (.database statement.context)) db)
    (hrest : d.fault ≠ some statement → rest.Meets post) :
    (guarded d statement db rest).Meets post := by
  unfold guarded
  split_ifs with hf
  · exact pure_meets hfail
  · exact hrest hf

theorem bind_meets {post : Except ProcessError Bool → Db → Prop} {α : Type} {x : Except Panic α}
    {f : α → Outcome} (h : ∀ a, x = .ok a → (f a).Meets post) :
    Outcome.Meets (x >>= f) post := by
  intro r db' hr
  obtain ⟨a, ha, hf⟩ := bind_eq_ok hr
  exact h a ha r db' hf

theorem guarded_of_ne {statement : Statement} (h : d.fault ≠ some statement) (rest : Outcome) :
    guarded d statement db rest = rest := if_neg h

theorem consumeFifo_asset {p q : AssetPortfolio ℚ} {sellQty sellPrice : ℚ}
    {events : List (RealizedPnL ℚ)} (h : p.consumeFifo sellQty sellPrice = .ok (events, q)) :
    q.asset = p.asset ∧ q.totalRealizedPnl = p.totalRealizedPnl := by
  unfold AssetPortfolio.consumeFifo at h
  obtain ⟨s, -, h⟩ := bind_eq_ok h
  cases s with
  | none => cases h
  | some s => cases h; exact ⟨rfl, rfl⟩

/-- `apply` keeps the name of the asset. -/
theorem apply_asset {p q : AssetPortfolio ℚ}
    {r : Except (PortfolioError ℚ) (List (RealizedPnL ℚ))} (h : p.apply event = .ok (r, q)) :
    q.asset = p.asset := by
  unfold AssetPortfolio.apply at h
  split at h
  · cases h; rfl
  · cases h; rfl
  · split_ifs at h
    · cases h; rfl
    · obtain ⟨⟨events, p'⟩, hc, h⟩ := bind_eq_ok h
      obtain ⟨total, -, h⟩ := bind_eq_ok h
      cases h
      exact (consumeFifo_asset hc).1

/-- What a call that returns has done: recorded the event, found it recorded, or failed; a failure
leaves the tables as they were unless only the acknowledgement of the commit was lost. -/
def Handled (num : ℚ → Option ℚ) (db : Db) (event : TradeEvent ℚ) (d : Delivery)
    (r : Except ProcessError Bool) (db' : Db) : Prop :=
  match r with
  | .ok true => Recorded num db event d db'
  | .ok false => event.eventId ∈ db.processedIds ∧ db' = db
  | .error _ => db' = db ∨ Recorded num db event d db'

theorem storeResult_meets {pnlEvents : List (RealizedPnL ℚ)} {portfolio : AssetPortfolio ℚ}
    (hfault : ∀ statement ∈ [Statement.begin, .claim, .upsert, .select], d.fault ≠ some statement)
    (hnew : event.eventId ∉ db.processedIds)
    (happ : (db.portfolio event.asset).apply event = .ok (.ok pnlEvents, portfolio)) :
    (storeResult num db
      (loadPortfolio { db with processedEvents := db.processedEvents ++
        [claimRow event d.kafkaPartition d.kafkaOffset d.now] } event.asset).2
      event d portfolio (pnlEvents.map RealizedPnL.realizedPnl).sum).Meets
      (Handled num db event d) := by
  have hasset : portfolio.asset = event.asset := apply_asset happ
  refine guarded_meets (.inl rfl) fun hsave => ?_
  unfold savePortfolio
  cases hrow : PortfolioRow.ofPortfolio num portfolio event.eventId event.timestamp with
  | none => exact pure_meets (.inl rfl)
  | some row =>
    refine guarded_meets (.inl rfl) fun hsnapshot => ?_
    unfold savePnlSnapshot
    cases hsnap : PnlSnapshot.of num d.snapshotId event
        (pnlEvents.map RealizedPnL.realizedPnl).sum portfolio.totalRealizedPnl d.now with
    | none => exact pure_meets (.inl rfl)
    | some snapshot =>
      refine guarded_meets (.inl rfl) fun hcommit => ?_
      have hd : d.Commits := by
        unfold Delivery.Commits
        cases hf : d.fault with
        | none => exact .inl rfl
        | some statement => cases statement <;> simp_all
      have hrec : Recorded num db event d
          { processedEvents :=
              db.processedEvents ++ [claimRow event d.kafkaPartition d.kafkaOffset d.now]
            portfolioState := Function.update (Function.update db.portfolioState event.asset
              (some ((db.portfolioState event.asset).getD PortfolioRow.empty))) portfolio.asset
              (some row)
            pnlSnapshots := db.pnlSnapshots ++ [snapshot] } := by
        refine ⟨hd, hnew, pnlEvents, portfolio, row, snapshot, happ, hrow, hsnap, ?_⟩
        rw [hasset, Function.update_idem]
      exact guarded_meets (.inr hrec) fun _ => pure_meets hrec

/-- **One call.** -/
theorem process_handled {r : Except ProcessError Bool}
    (h : process num db event d = .ok (r, db')) : Handled num db event d r db' := by
  suffices hmeets : (process num db event d).Meets (Handled num db event d) from hmeets r db' h
  refine guarded_meets (.inl rfl) fun hbegin => guarded_meets (.inl rfl) fun hclaim => ?_
  by_cases hmem : event.eventId ∈ db.processedIds
  · rw [claimEvent, if_pos hmem]
    exact guarded_meets (.inl rfl) fun _ => pure_meets ⟨hmem, rfl⟩
  · rw [claimEvent, if_neg hmem]
    refine guarded_meets (.inl rfl) fun hupsert => guarded_meets (.inl rfl) fun hselect =>
      bind_meets ?_
    rintro ⟨result, portfolio⟩ happ
    cases result with
    | error e => exact pure_meets (.inl rfl)
    | ok pnlEvents =>
      simp only [sumDecimal_exact, ok_bind]
      exact storeResult_meets (by simp [hbegin, hclaim, hupsert, hselect]) hmem happ

theorem Recorded.processedIds (h : Recorded num db event d db') :
    db'.processedIds = db.processedIds ++ [event.eventId] := by
  obtain ⟨-, -, -, -, -, -, -, -, -, rfl⟩ := h
  simp [Db.processedIds, claimRow]

/-- No call forgets an event. -/
theorem Handled.subset {r : Except ProcessError Bool} (h : Handled num db event d r db') :
    db.processedIds ⊆ db'.processedIds := by
  have hrec : Recorded num db event d db' → db.processedIds ⊆ db'.processedIds := fun h => by
    rw [h.processedIds]
    exact List.subset_append_left _ _
  match r, h with
  | .ok true, h => exact hrec h
  | .ok false, ⟨_, h⟩ => rw [h]; exact List.Subset.refl _
  | .error _, .inl h => rw [h]; exact List.Subset.refl _
  | .error _, .inr h => exact hrec h

/-- After `Ok(true)` and after `Ok(false)` the event is in `processed_events`. -/
theorem Handled.mem_of_ok {b : Bool} (h : Handled num db event d (.ok b) db') :
    event.eventId ∈ db'.processedIds := by
  cases b with
  | true =>
    have hrec : Recorded num db event d db' := h
    rw [hrec.processedIds]
    exact List.mem_append_right _ (List.mem_singleton_self _)
  | false =>
    obtain ⟨hmem, rfl⟩ := h
    exact hmem

/-- A call does record what can be recorded. -/
theorem process_of_recorded (h : Recorded num db event d db') :
    ∃ r, process num db event d = .ok (r, db') := by
  obtain ⟨hd, hnew, pnlEvents, portfolio, row, snapshot, happ, hrow, hsnap, rfl⟩ := h
  have hasset : portfolio.asset = event.asset := apply_asset happ
  have hload : (loadPortfolio { db with processedEvents := db.processedEvents ++
      [claimRow event d.kafkaPartition d.kafkaOffset d.now] } event.asset).1 =
        db.portfolio event.asset := rfl
  have hfault : ∀ statement ∈ [Statement.begin, .claim, .upsert, .select, .save, .snapshot, .commit],
      d.fault ≠ some statement := by
    rcases hd with hd | hd | hd <;> simp [hd]
  simp only [List.forall_mem_cons] at hfault
  obtain ⟨hbegin, hclaim, hupsert, hselect, hsave, hsnapshot, hcommit, -⟩ := hfault
  unfold process processClaimed storeResult
  simp only [guarded_of_ne hbegin, guarded_of_ne hclaim, guarded_of_ne hupsert,
    guarded_of_ne hselect, guarded_of_ne hsave, guarded_of_ne hsnapshot, guarded_of_ne hcommit,
    claimEvent, if_neg hnew, hload, happ, ok_bind, sumDecimal_exact, savePortfolio, hrow,
    savePnlSnapshot, hsnap]
  unfold guarded
  split_ifs <;> simp [loadPortfolio, hasset]

end Consumer
end CryptoAccounting

import CryptoAccounting.Consumer.Serial

/-!
# Progress of concurrent transactions

The transactions of `EventProcessor::process` wait for each other in two places: an insert into
`processed_events` for the claim of the same event, and the upsert or the select for the row of the
same asset. They take the two locks in this order, so there is no deadlock: as long as a transaction
is open, one of the open ones can carry out its next statement (`some_next_enabled`). Every statement
brings a transaction nearer to its end, so every schedule of the open transactions closes all of them
(`drains`). After that, each of their events is in `processed_events`, unless `apply` or a column refused
it at some point of the commit order.
-/

namespace CryptoAccounting
namespace Consumer

open Tables Transition

/-! ### The next statement -/

/-- The statement that follows in `process`. -/
def Stage.next (i : ℕ) : Stage → Server.Action
  | .begun => .claim i
  | .duplicate => .rollback i
  | .claimed => .upsert i
  | .upserted => .select i
  | .selected _ => .save i
  | .saved _ _ _ => .snapshot i
  | .stored _ _ => .commit i

/-- How many statements are left at most. -/
def Stage.rank : Stage → ℕ
  | .begun => 6
  | .claimed => 5
  | .upserted => 4
  | .selected _ => 3
  | .saved _ _ _ => 2
  | .stored _ _ => 1
  | .duplicate => 1

/-- What the next statement of a transaction does, with what it has found. -/
inductive Server.Advances (num : ℚ → Option ℚ) (s : Server) (i : ℕ) (tx : Tx) : Server → Prop
  | claim (hstage : tx.stage = .begun) (hfree : s.claims tx.event.eventId = none) :
      Advances num s i tx
        { s.goto i tx .claimed with
          claims := Function.update s.claims tx.event.eventId (some i) }
  | duplicate (hstage : tx.stage = .begun) (hmem : tx.event.eventId ∈ s.db.processedIds) :
      Advances num s i tx (s.goto i tx .duplicate)
  | upsert (hstage : tx.stage = .claimed) (hrow : (s.db.portfolioState tx.event.asset).isSome) :
      Advances num s i tx (s.goto i tx .upserted)
  | insert (hstage : tx.stage = .claimed) (hfree : s.rows tx.event.asset = none) :
      Advances num s i tx
        { s.goto i tx .upserted with
          rows := Function.update s.rows tx.event.asset (some i) }
  | select (hstage : tx.stage = .upserted)
      (hfree : s.rows tx.event.asset = none ∨ s.rows tx.event.asset = some i) :
      Advances num s i tx
        { s.goto i tx (.selected (s.db.portfolio tx.event.asset)) with
          rows := Function.update s.rows tx.event.asset (some i) }
  /-- `fetch_one` without a row. -/
  | missing (hstage : tx.stage = .upserted) (hrow : s.db.portfolioState tx.event.asset = none)
      (hfree : s.rows tx.event.asset = none) : Advances num s i tx (s.close i)
  | save (portfolio : AssetPortfolio ℚ) (row : PortfolioRow) (realizedPnl total : ℚ)
      (hstage : tx.stage = .selected portfolio) :
      Advances num s i tx (s.goto i tx (.saved row realizedPnl total))
  /-- `apply` or a column of `portfolio_state` refuses the event. -/
  | refuse (portfolio : AssetPortfolio ℚ) (hstage : tx.stage = .selected portfolio)
      (hrefused : applyAndSave num tx.event portfolio = none) : Advances num s i tx (s.close i)
  | snapshot (row : PortfolioRow) (realizedPnl total : ℚ) (snapshot : PnlSnapshot)
      (hstage : tx.stage = .saved row realizedPnl total) :
      Advances num s i tx (s.goto i tx (.stored row snapshot))
  /-- A column of `pnl_snapshots` refuses its value. -/
  | reject (row : PortfolioRow) (realizedPnl total : ℚ)
      (hstage : tx.stage = .saved row realizedPnl total)
      (hrejected : PnlSnapshot.of num tx.delivery.snapshotId tx.event realizedPnl total
        tx.delivery.now = none) : Advances num s i tx (s.close i)
  | commit (row : PortfolioRow) (snapshot : PnlSnapshot) (hstage : tx.stage = .stored row snapshot) :
      Advances num s i tx
        { s.close i with
          db := s.db.commit tx.event tx.delivery row snapshot
          log := s.log ++ [(tx.event, tx.delivery)] }
  | rolledBack (hstage : tx.stage = .duplicate) : Advances num s i tx (s.close i)

variable {num : ℚ → Option ℚ} {s s' : Server} {i : ℕ} {tx : Tx} {a : Server.Action}

/-- A statement begins a transaction, rolls one back, or is the next one of an open transaction. -/
theorem step_cases (hs : s.step num a = some s') :
    (∃ i event d, a = .begin i event d ∧ s.txs i = none ∧
      s' = s.goto i ⟨event, d, .begun⟩ .begun) ∨
    ∃ i tx, s.txs i = some tx ∧
      (a = .rollback i ∧ s' = s.close i ∨ a = tx.stage.next i ∧ s.Advances num i tx s') := by
  cases a with
  | begin i event d =>
    simp only [Server.step] at hs
    split_ifs at hs with hc
    cases hs
    exact .inl ⟨i, event, d, rfl, by simpa using hc.1, rfl⟩
  | claim i =>
    obtain ⟨tx, htx, hs⟩ := Option.bind_eq_some_iff.1 hs
    refine .inr ⟨i, tx, htx, .inr ?_⟩
    split at hs
    · next hstage =>
      refine ⟨by rw [hstage]; rfl, ?_⟩
      -- Nobody has claimed the event: it is new, or somebody has committed it.
      split_ifs at hs with hclaimed hnew
      · cases hs
        exact .claim hstage (by simpa using hclaimed)
      · cases hs
        refine .duplicate hstage ?_
        by_contra hmem
        rw [claimEvent, if_neg hmem] at hnew
        exact hnew rfl
    · cases hs
  | upsert i =>
    obtain ⟨tx, htx, hs⟩ := Option.bind_eq_some_iff.1 hs
    refine .inr ⟨i, tx, htx, .inr ?_⟩
    split at hs
    · next hstage =>
      refine ⟨by rw [hstage]; rfl, ?_⟩
      split_ifs at hs with hrow hheld
      · cases hs
        exact .upsert hstage hrow
      · cases hs
        exact .insert hstage (by simpa using hheld)
    · cases hs
  | select i =>
    obtain ⟨tx, htx, hs⟩ := Option.bind_eq_some_iff.1 hs
    refine .inr ⟨i, tx, htx, .inr ?_⟩
    split at hs
    · next hstage =>
      refine ⟨by rw [hstage]; rfl, ?_⟩
      split_ifs at hs with hfree hrow
      · cases hs
        exact .missing hstage (by simpa using hrow.1) hrow.2
      · cases hs
        exact .select hstage hfree
    · cases hs
  | save i =>
    obtain ⟨tx, htx, hs⟩ := Option.bind_eq_some_iff.1 hs
    refine .inr ⟨i, tx, htx, .inr ?_⟩
    split at hs
    · next portfolio hstage =>
      refine ⟨by rw [hstage]; rfl, ?_⟩
      split at hs
      · next hrefused =>
        cases hs
        exact .refuse portfolio hstage hrefused
      · next row realizedPnl total hsaved =>
        cases hs
        exact .save portfolio row realizedPnl total hstage
    · cases hs
  | snapshot i =>
    obtain ⟨tx, htx, hs⟩ := Option.bind_eq_some_iff.1 hs
    refine .inr ⟨i, tx, htx, .inr ?_⟩
    split at hs
    · next row realizedPnl total hstage =>
      refine ⟨by rw [hstage]; rfl, ?_⟩
      split at hs
      · next hrejected =>
        cases hs
        exact .reject row realizedPnl total hstage hrejected
      · next snapshot hsnap =>
        cases hs
        exact .snapshot row realizedPnl total snapshot hstage
    · cases hs
  | commit i =>
    obtain ⟨tx, htx, hs⟩ := Option.bind_eq_some_iff.1 hs
    refine .inr ⟨i, tx, htx, .inr ?_⟩
    split at hs
    · next row snapshot hstage =>
      cases hs
      exact ⟨by rw [hstage]; rfl, .commit row snapshot hstage⟩
    · cases hs
  | rollback i =>
    obtain ⟨tx, htx, hs⟩ := Option.bind_eq_some_iff.1 hs
    cases hs
    exact .inr ⟨i, tx, htx, .inl ⟨rfl, rfl⟩⟩

/-! ### Who holds the locks -/

/-- The transaction may hold the row of its asset. -/
def Stage.Waiting : Stage → Prop
  | .begun => False
  | .duplicate => False
  | .claimed => False
  | _ => True

/-- Every lock is held by an open transaction that is far enough to hold it. A transaction past its
upsert finds a row, and one that was told of a duplicate is one. -/
structure Server.Held (s : Server) : Prop where
  claims : ∀ e i, s.claims e = some i →
    ∃ tx, s.txs i = some tx ∧ tx.event.eventId = e ∧ tx.stage.Claimed
  rows : ∀ asset i, s.rows asset = some i →
    ∃ tx, s.txs i = some tx ∧ tx.event.asset = asset ∧ tx.stage.Waiting
  found : ∀ i tx, s.txs i = some tx → tx.stage = .upserted →
    (s.db.portfolioState tx.event.asset).isSome ∨ s.rows tx.event.asset = some i
  duplicate : ∀ i tx, s.txs i = some tx → tx.stage = .duplicate →
    tx.event.eventId ∈ s.db.processedIds

theorem Server.held_init : Server.init.Held where
  claims e i h := by cases h
  rows asset i h := by cases h
  found i tx h := by cases h
  duplicate i tx h := by cases h

theorem Server.Held.of_claims (h : s.Held) (htx : s.txs i = some tx) {e : Uuid}
    (hc : s.claims e = some i) : tx.event.eventId = e ∧ tx.stage.Claimed := by
  obtain ⟨tx', htx', hevent, hstage⟩ := h.claims e i hc
  cases htx.symm.trans htx'
  exact ⟨hevent, hstage⟩

theorem Server.Held.of_rows (h : s.Held) (htx : s.txs i = some tx) {asset : String}
    (hr : s.rows asset = some i) : tx.event.asset = asset ∧ tx.stage.Waiting := by
  obtain ⟨tx', htx', hevent, hstage⟩ := h.rows asset i hr
  cases htx.symm.trans htx'
  exact ⟨hevent, hstage⟩

/-- A statement of `i` that gets it to another stage and leaves the locks of the others alone. -/
theorem Server.Held.goto (h : s.Held) {stage : Stage} {claims : Uuid → Option ℕ}
    {rows : String → Option ℕ}
    (hclaims : ∀ e, claims e = some i → tx.event.eventId = e ∧ stage.Claimed)
    (hclaims' : ∀ j e, j ≠ i → claims e = some j → s.claims e = some j)
    (hrows : ∀ asset, rows asset = some i → tx.event.asset = asset ∧ stage.Waiting)
    (hrows' : ∀ j asset, j ≠ i → (rows asset = some j ↔ s.rows asset = some j))
    (hfound : stage = .upserted →
      (s.db.portfolioState tx.event.asset).isSome ∨ rows tx.event.asset = some i)
    (hduplicate : stage = .duplicate → tx.event.eventId ∈ s.db.processedIds) :
    Server.Held { s.goto i tx stage with claims, rows } where
  claims e j hj := by
    by_cases hij : j = i
    · subst hij
      exact ⟨_, goto_self s j tx stage, hclaims e hj⟩
    · obtain ⟨tx', htx', hevent⟩ := h.claims e j (hclaims' j e hij hj)
      exact ⟨tx', (goto_of_ne hij s tx stage).trans htx', hevent⟩
  rows asset j hj := by
    by_cases hij : j = i
    · subst hij
      exact ⟨_, goto_self s j tx stage, hrows asset hj⟩
    · obtain ⟨tx', htx', hevent⟩ := h.rows asset j ((hrows' j asset hij).1 hj)
      exact ⟨tx', (goto_of_ne hij s tx stage).trans htx', hevent⟩
  found j tx' hj hstage := by
    by_cases hij : j = i
    · subst hij
      cases (goto_self s j tx stage).symm.trans hj
      exact hfound hstage
    · have hfound' := h.found j tx' ((goto_of_ne hij s tx stage).symm.trans hj) hstage
      exact hfound'.imp_right (hrows' j _ hij).2
  duplicate j tx' hj hstage := by
    by_cases hij : j = i
    · subst hij
      cases (goto_self s j tx stage).symm.trans hj
      exact hduplicate hstage
    · exact h.duplicate j tx' ((goto_of_ne hij s tx stage).symm.trans hj) hstage

/-- The end of a transaction, with tables that only grow. -/
theorem Server.Held.close (h : s.Held) (i : ℕ) {db : Db} (log : List (TradeEvent ℚ × Delivery))
    (hids : s.db.processedIds ⊆ db.processedIds)
    (hstates : ∀ asset, (s.db.portfolioState asset).isSome → (db.portfolioState asset).isSome) :
    Server.Held { s.close i with db, log } where
  claims e j hj := by
    obtain ⟨hij, hj⟩ := release_eq_some hj
    obtain ⟨tx', htx', hevent⟩ := h.claims e j hj
    exact ⟨tx', (close_of_ne hij s).trans htx', hevent⟩
  rows asset j hj := by
    obtain ⟨hij, hj⟩ := release_eq_some hj
    obtain ⟨tx', htx', hevent⟩ := h.rows asset j hj
    exact ⟨tx', (close_of_ne hij s).trans htx', hevent⟩
  found j tx' hj hstage := by
    rcases update_eq_some hj with ⟨-, he⟩ | ⟨hij, hj⟩
    · cases he
    · exact (h.found j tx' hj hstage).imp (hstates _) (release_of_ne hij)
  duplicate j tx' hj hstage := by
    rcases update_eq_some hj with ⟨-, he⟩ | ⟨-, hj⟩
    · cases he
    · exact hids (h.duplicate j tx' hj hstage)

/-- A statement of `i` that takes and releases no lock. -/
theorem Server.Held.stay (h : s.Held) {stage : Stage}
    (hclaims : ∀ e, s.claims e = some i → tx.event.eventId = e ∧ stage.Claimed)
    (hrows : ∀ asset, s.rows asset = some i → tx.event.asset = asset ∧ stage.Waiting)
    (hfound : stage = .upserted →
      (s.db.portfolioState tx.event.asset).isSome ∨ s.rows tx.event.asset = some i)
    (hduplicate : stage = .duplicate → tx.event.eventId ∈ s.db.processedIds) :
    (s.goto i tx stage).Held :=
  h.goto hclaims (fun _ _ _ hc => hc) hrows (fun _ _ _ => Iff.rfl) hfound hduplicate

/-- The next statement of a transaction. -/
theorem Server.Held.advances (h : s.Held) (htx : s.txs i = some tx) (hs : s.Advances num i tx s') :
    s'.Held := by
  have hclaims : ∀ {stage : Stage}, (tx.stage.Claimed → stage.Claimed) →
      ∀ e, s.claims e = some i → tx.event.eventId = e ∧ stage.Claimed :=
    fun hstage e he => (h.of_claims htx he).imp_right hstage
  have hrows : ∀ {stage : Stage}, (tx.stage.Waiting → stage.Waiting) →
      ∀ asset, s.rows asset = some i → tx.event.asset = asset ∧ stage.Waiting :=
    fun hstage asset ha => (h.of_rows htx ha).imp_right hstage
  have hacquire : s.rows tx.event.asset = none ∨ s.rows tx.event.asset = some i →
      ∀ j asset, j ≠ i →
        (Function.update s.rows tx.event.asset (some i) asset = some j ↔ s.rows asset = some j) :=
    fun hfree j asset hij => ⟨of_acquire_of_ne hij, acquire_of_ne hij hfree⟩
  have hrow : ∀ {stage : Stage}, (tx.stage.Waiting → stage.Waiting) → stage.Waiting →
      ∀ asset, Function.update s.rows tx.event.asset (some i) asset = some i →
        tx.event.asset = asset ∧ stage.Waiting := by
    intro stage hmono hstage asset ha
    rcases update_eq_some ha with ⟨rfl, -⟩ | ⟨-, ha⟩
    · exact ⟨rfl, hstage⟩
    · exact hrows hmono asset ha
  -- Only `claim` takes a claim, and only `insert` and `select` take a row.
  cases hs with
  | claim hstage hfree =>
    refine h.goto (fun e he => ?_) (fun j e hij he => of_acquire_of_ne hij he) ?_
      (fun _ _ _ => Iff.rfl) (by simp) (by simp)
    · rcases update_eq_some he with ⟨rfl, -⟩ | ⟨-, he⟩
      · exact ⟨rfl, trivial⟩
      · exact hclaims (fun _ => by trivial) e he
    · rw [hstage] at hrows
      exact hrows False.elim
  | duplicate hstage hmem =>
    rw [hstage] at hclaims hrows
    exact h.stay (hclaims False.elim) (hrows False.elim) (by simp) fun _ => hmem
  | upsert hstage hfound =>
    exact h.stay (hclaims fun _ => trivial) (hrows fun _ => trivial) (fun _ => .inl hfound) (by simp)
  | insert hstage hfree =>
    exact h.goto (hclaims fun _ => trivial) (fun _ _ _ hc => hc) (hrow (fun _ => trivial) trivial)
      (hacquire (.inl hfree)) (fun _ => .inr (Function.update_self ..)) (by simp)
  | select hstage hfree =>
    exact h.goto (hclaims fun _ => trivial) (fun _ _ _ hc => hc) (hrow (fun _ => trivial) trivial)
      (hacquire hfree) (by simp) (by simp)
  | missing => exact h.close i _ (List.Subset.refl _) fun _ h => h
  | save portfolio row realizedPnl total hstage =>
    exact h.stay (hclaims fun _ => trivial) (hrows fun _ => trivial) (by simp) (by simp)
  | refuse => exact h.close i _ (List.Subset.refl _) fun _ h => h
  | snapshot row realizedPnl total snapshot hstage =>
    exact h.stay (hclaims fun _ => trivial) (hrows fun _ => trivial) (by simp) (by simp)
  | reject => exact h.close i _ (List.Subset.refl _) fun _ h => h
  | commit row snapshot hstage =>
    refine h.close i _ ?_ fun asset hasset => ?_
    · show s.db.processedIds ⊆ List.map _ (s.db.processedEvents ++ _)
      rw [List.map_append]
      exact List.subset_append_left _ _
    · show (Function.update s.db.portfolioState tx.event.asset (some row) asset).isSome
      by_cases ha : asset = tx.event.asset
      · rw [ha, Function.update_self]
        rfl
      · rwa [Function.update_of_ne ha]
  | rolledBack => exact h.close i _ (List.Subset.refl _) fun _ h => h

/-- **One statement** keeps every lock with an open transaction. -/
theorem Server.Held.step (h : s.Held) (hs : s.step num a = some s') : s'.Held := by
  rcases step_cases hs with ⟨i, event, d, rfl, hfree, rfl⟩ | ⟨i, tx, htx, ⟨rfl, rfl⟩ | ⟨rfl, hadv⟩⟩
  · refine h.stay (fun e he => ?_) (fun asset ha => ?_) (by simp) (by simp)
    · obtain ⟨tx, htx, -⟩ := h.claims e i he
      cases hfree.symm.trans htx
    · obtain ⟨tx, htx, -⟩ := h.rows asset i ha
      cases hfree.symm.trans htx
  · exact h.close i _ (List.Subset.refl _) fun _ h => h
  · exact h.advances htx hadv

theorem run_held {actions : List Server.Action}
    (hs : run (Server.step num) Server.init actions = some s) : s.Held :=
  run_invariant Server.Held (fun _ _ _ h ht => h.step ht) Server.held_init hs

/-! ### No deadlock -/

/-- A transaction can go on, or waits for a claim, or for a row. -/
theorem enabled_or_waits (num : ℚ → Option ℚ) (htx : s.txs i = some tx) :
    (s.step num (tx.stage.next i)).isSome ∨
      (tx.stage = .begun ∧ ∃ j, s.claims tx.event.eventId = some j) ∨
      ∃ j, s.rows tx.event.asset = some j ∧
        (tx.stage = .claimed ∨ tx.stage = .upserted ∧ j ≠ i) := by
  cases hstage : tx.stage with
  | begun =>
    cases hclaim : s.claims tx.event.eventId with
    | some j => exact .inr (.inl ⟨rfl, j, rfl⟩)
    | none =>
      refine .inl ?_
      simp only [Stage.next, Server.step, htx, hstage, hclaim, Option.bind_eq_bind, Option.bind_some,
        Option.isSome_none, Bool.false_eq_true, if_false]
      split_ifs <;> rfl
  | duplicate =>
    refine .inl ?_
    simp [Stage.next, Server.step, htx]
  | claimed =>
    cases hrow : s.rows tx.event.asset with
    | some j => exact .inr (.inr ⟨j, rfl, .inl rfl⟩)
    | none =>
      refine .inl ?_
      simp only [Stage.next, Server.step, htx, hstage, hrow, Option.bind_eq_bind, Option.bind_some,
        Option.isSome_none, Bool.false_eq_true, if_false]
      split_ifs <;> rfl
  | upserted =>
    -- A row that the transaction has inserted itself does not make it wait.
    by_cases hfree : s.rows tx.event.asset = none ∨ s.rows tx.event.asset = some i
    · refine .inl ?_
      simp only [Stage.next, Server.step, htx, hstage, Option.bind_eq_bind, Option.bind_some,
        if_pos hfree]
      split_ifs <;> rfl
    · obtain ⟨hnone, hne⟩ := not_or.1 hfree
      obtain ⟨j, hj⟩ := Option.ne_none_iff_exists'.1 hnone
      refine .inr (.inr ⟨j, hj, .inr ⟨rfl, fun hji => hne ?_⟩⟩)
      rw [hj, hji]
  | selected portfolio =>
    refine .inl ?_
    simp only [Stage.next, Server.step, htx, hstage, Option.bind_eq_bind, Option.bind_some]
    split <;> rfl
  | saved row realizedPnl total =>
    refine .inl ?_
    simp only [Stage.next, Server.step, htx, hstage, Option.bind_eq_bind, Option.bind_some]
    split <;> rfl
  | stored row snapshot =>
    refine .inl ?_
    simp [Stage.next, Server.step, htx, hstage]

/-- Whoever holds a row can go on. -/
theorem Server.Held.row_holder (num : ℚ → Option ℚ) (h : s.Held) {asset : String}
    (hr : s.rows asset = some i) :
    ∃ tx, s.txs i = some tx ∧ (s.step num (tx.stage.next i)).isSome := by
  obtain ⟨tx, htx, rfl, hwaiting⟩ := h.rows asset i hr
  refine ⟨tx, htx, ?_⟩
  rcases enabled_or_waits num htx with hstep | ⟨hstage, -⟩ | ⟨j, hj, hstage | ⟨-, hne⟩⟩
  · exact hstep
  · rw [hstage] at hwaiting
    exact hwaiting.elim
  · rw [hstage] at hwaiting
    exact hwaiting.elim
  · cases hr.symm.trans hj
    exact absurd rfl hne

/-- **No deadlock.** As long as a transaction is open, one of the open ones can carry out its next
statement. A claim waits for a transaction that has claimed the event, that one at most for a row, and
who holds a row waits for nobody. -/
theorem Server.Held.some_next_enabled (num : ℚ → Option ℚ) (h : s.Held) (hopen : (s.txs i).isSome) :
    ∃ j tx, s.txs j = some tx ∧ (s.step num (tx.stage.next j)).isSome := by
  obtain ⟨tx, htx⟩ := Option.isSome_iff_exists.1 hopen
  rcases enabled_or_waits num htx with hstep | ⟨-, j, hj⟩ | ⟨j, hj, -⟩
  · exact ⟨i, tx, htx, hstep⟩
  · obtain ⟨tx', htx', -, hclaimed⟩ := h.claims _ j hj
    rcases enabled_or_waits num htx' with hstep | ⟨hstage, -⟩ | ⟨k, hk, -⟩
    · exact ⟨j, tx', htx', hstep⟩
    · rw [hstage] at hclaimed
      exact hclaimed.elim
    · obtain ⟨tx'', htx'', hstep⟩ := h.row_holder num hk
      exact ⟨k, tx'', htx'', hstep⟩
  · obtain ⟨tx', htx', hstep⟩ := h.row_holder num hj
    exact ⟨j, tx', htx', hstep⟩

/-! ### Every schedule ends -/

/-- The statements left to a transaction, if it is open. -/
def pending : Option Tx → ℕ
  | none => 0
  | some tx => tx.stage.rank

/-- The statements left to the transactions of a set. -/
def Server.work (opened : Finset ℕ) (s : Server) : ℕ := ∑ i ∈ opened, pending (s.txs i)

/-- The statement does not begin a transaction. -/
def Server.Action.Continues : Server.Action → Prop
  | .begin .. => False
  | _ => True

theorem Stage.rank_pos (stage : Stage) : 0 < stage.rank := by
  cases stage <;> simp [Stage.rank]

theorem pending_le (o : Option Tx) : pending o ≤ 6 := by
  cases o with
  | none => simp [pending]
  | some tx =>
    show tx.stage.rank ≤ 6
    cases tx.stage <;> simp [Stage.rank]

/-- The next statement of a transaction changes that transaction alone, and leaves it less to do. -/
theorem Server.Advances.pending_lt (h : s.Advances num i tx s') :
    ∃ o, s'.txs = Function.update s.txs i o ∧ pending o < tx.stage.rank := by
  have hclosed : 0 < tx.stage.rank := tx.stage.rank_pos
  cases h with
  | claim hstage => exact ⟨_, rfl, by simp [pending, Stage.rank, hstage]⟩
  | duplicate hstage => exact ⟨_, rfl, by simp [pending, Stage.rank, hstage]⟩
  | upsert hstage => exact ⟨_, rfl, by simp [pending, Stage.rank, hstage]⟩
  | insert hstage => exact ⟨_, rfl, by simp [pending, Stage.rank, hstage]⟩
  | select hstage => exact ⟨_, rfl, by simp [pending, Stage.rank, hstage]⟩
  | missing => exact ⟨none, rfl, hclosed⟩
  | save portfolio row realizedPnl total hstage =>
    exact ⟨_, rfl, by simp [pending, Stage.rank, hstage]⟩
  | refuse => exact ⟨none, rfl, hclosed⟩
  | snapshot row realizedPnl total snapshot hstage =>
    exact ⟨_, rfl, by simp [pending, Stage.rank, hstage]⟩
  | reject => exact ⟨none, rfl, hclosed⟩
  | commit => exact ⟨none, rfl, hclosed⟩
  | rolledBack => exact ⟨none, rfl, hclosed⟩

/-- A statement other than a begin changes one open transaction and leaves it less to do. -/
theorem step_pending_lt (ha : a.Continues) (hs : s.step num a = some s') :
    ∃ i tx o, s.txs i = some tx ∧ s'.txs = Function.update s.txs i o ∧
      pending o < pending (some tx) := by
  rcases step_cases hs with ⟨i, event, d, rfl, -, -⟩ | ⟨i, tx, htx, ⟨-, rfl⟩ | ⟨-, hadv⟩⟩
  · exact ha.elim
  · exact ⟨i, tx, none, htx, rfl, tx.stage.rank_pos⟩
  · obtain ⟨o, ho, hlt⟩ := hadv.pending_lt
    exact ⟨i, tx, o, htx, ho, hlt⟩

/-- The open transactions are among these. -/
def Server.Within (opened : Finset ℕ) (s : Server) : Prop := ∀ i, (s.txs i).isSome → i ∈ opened

theorem Server.Within.step {opened : Finset ℕ} (h : s.Within opened) (ha : a.Continues)
    (hs : s.step num a = some s') : s'.Within opened := by
  obtain ⟨i, tx, o, htx, hs', -⟩ := step_pending_lt ha hs
  intro j hj
  by_cases hij : j = i
  · exact hij ▸ h i (by rw [htx]; rfl)
  · rw [hs', Function.update_of_ne hij] at hj
    exact h j hj

theorem work_lt {opened : Finset ℕ} (h : s.Within opened) (ha : a.Continues)
    (hs : s.step num a = some s') : s'.work opened < s.work opened := by
  obtain ⟨i, tx, o, htx, hs', hlt⟩ := step_pending_lt ha hs
  rw [← htx] at hlt
  refine Finset.sum_lt_sum (fun j _ => ?_) ⟨i, h i (by rw [htx]; rfl), ?_⟩
  · by_cases hij : j = i
    · rw [hs', hij, Function.update_self]
      exact hlt.le
    · rw [hs', Function.update_of_ne hij]
  · rwa [hs', Function.update_self]

/-- In every run finitely many transactions are open. -/
theorem run_finite {actions : List Server.Action}
    (hs : run (Server.step num) Server.init actions = some s) :
    ∃ opened : Finset ℕ, ∀ i, i ∈ opened ↔ (s.txs i).isSome := by
  have hfinite : {i | (s.txs i).isSome}.Finite := by
    refine run_invariant (fun s => {i | (s.txs i).isSome}.Finite) ?_ ?_ hs
    · intro s a t h ht
      have hopen : ∃ i o, t.txs = Function.update s.txs i o := by
        rcases step_cases ht with ⟨i, event, d, -, -, rfl⟩ | ⟨i, tx, -, ⟨-, rfl⟩ | ⟨-, hadv⟩⟩
        · exact ⟨i, _, rfl⟩
        · exact ⟨i, none, rfl⟩
        · obtain ⟨o, ho, -⟩ := hadv.pending_lt
          exact ⟨i, o, ho⟩
      obtain ⟨i, o, ho⟩ := hopen
      refine (h.insert i).subset fun j hj => ?_
      by_cases hij : j = i
      · exact .inl hij
      · refine .inr ?_
        rwa [Set.mem_ofPred_eq, ho, Function.update_of_ne hij] at hj
    · convert Set.finite_empty
      exact Set.eq_empty_of_forall_notMem fun i hi => by simp [Server.init] at hi
  exact ⟨hfinite.toFinset, fun i => by simp⟩

/-- No transaction is open. -/
def Server.Idle (s : Server) : Prop := ∀ i, s.txs i = none

/-- **Every schedule closes the open transactions.** From any reachable state, however the statements
of the open transactions are scheduled, there are at most six for each of them, and until all are
closed one of them can carry out its next statement. -/
theorem drains (num : ℚ → Option ℚ) (actions : List Server.Action) (s : Server)
    (hs : run (Server.step num) Server.init actions = some s) :
    ∃ opened : Finset ℕ, (∀ i, i ∈ opened ↔ (s.txs i).isSome) ∧
      ∀ more s', (∀ a ∈ more, a.Continues) → run (Server.step num) s more = some s' →
        more.length ≤ 6 * opened.card ∧
        (¬ s'.Idle → ∃ i tx, s'.txs i = some tx ∧ (s'.step num (tx.stage.next i)).isSome) := by
  obtain ⟨opened, hopened⟩ := run_finite hs
  refine ⟨opened, hopened, fun more s' hmore hs' => ⟨?_, fun hidle => ?_⟩⟩
  · have hlength := length_add_measure_le (Server.Within opened) (fun _ _ _ h ha ht => h.step ha ht)
      (fun _ _ _ h ha ht => work_lt h ha ht) (fun i hi => (hopened i).2 hi)
      (everyStep_of_forall hmore) hs'
    have hwork : s.work opened ≤ 6 * opened.card := by
      refine (Finset.sum_le_card_nsmul opened _ 6 fun i _ => pending_le _).trans ?_
      rw [smul_eq_mul, mul_comm]
    omega
  · obtain ⟨i, hi⟩ := not_forall.1 hidle
    have hheld : s'.Held := run_invariant Server.Held (fun _ _ _ h ht => h.step ht) (run_held hs) hs'
    exact hheld.some_next_enabled num (Option.isSome_iff_ne_none.2 hi)

/-- Three transactions on one asset, two of them on the same event: the second waits for the row of
the first, the third for its claim. -/
def contending : List Server.Action :=
  [.begin 0 (sampleEvent 1 .buy 1) ⟨0, 0, 0, 0, none⟩, .claim 0, .upsert 0,
    .begin 1 (sampleEvent 2 .buy 1) ⟨1, 0, 1, 1, none⟩, .claim 1,
    .begin 2 (sampleEvent 1 .buy 1) ⟨0, 0, 2, 2, none⟩]

theorem contending_runs : ∃ s, run (Server.step numericColumn) Server.init contending = some s ∧
    (s.txs 2).isSome := by
  have hrun : ((run (Server.step numericColumn) Server.init contending).map
      fun s => (s.txs 2).isSome) = some true := by decide +kernel
  exact Option.map_eq_some_iff.1 hrun

theorem drains_contending : ∃ s, run (Server.step numericColumn) Server.init contending = some s ∧
    ∃ opened : Finset ℕ, 2 ∈ opened ∧ ∀ more s', (∀ a ∈ more, a.Continues) →
      run (Server.step numericColumn) s more = some s' → more.length ≤ 6 * opened.card := by
  obtain ⟨s, hs, hopen⟩ := contending_runs
  obtain ⟨opened, hopened, hmore⟩ := drains numericColumn contending s hs
  exact ⟨s, hs, opened, (hopened 2).2 hopen, fun more s' hc hs' => (hmore more s' hc hs').1⟩

/-! ### What becomes of the events -/

/-- On these tables `process` fails and leaves them as they are. -/
def Refuses (num : ℚ → Option ℚ) (db : Db) (event : TradeEvent ℚ) (d : Delivery) : Prop :=
  ∀ r db', process num db event d = .ok (r, db') → db' = db ∧ ∃ e, r = .error e

theorem refuses_of_not_recorded {db : Db} {event : TradeEvent ℚ} {d : Delivery}
    (hnew : event.eventId ∉ db.processedIds) (h : ∀ db', ¬ Recorded num db event d db') :
    Refuses num db event d := by
  intro r db' hr
  have hhandled := process_handled hr
  match r, hhandled with
  | .ok true, hrec => exact absurd hrec (h db')
  | .ok false, ⟨hmem, _⟩ => exact absurd hmem hnew
  | .error e, .inl hdb => exact ⟨hdb, e, rfl⟩
  | .error _, .inr hrec => exact absurd hrec (h db')

/-- What would be recorded has been computed by `applyAndSave`. -/
theorem Recorded.applyAndSave {db db' : Db} {event : TradeEvent ℚ} {d : Delivery}
    (h : Recorded num db event d db') : ∃ row realizedPnl total snapshot,
      applyAndSave num event (db.portfolio event.asset) = some (row, realizedPnl, total) ∧
        PnlSnapshot.of num d.snapshotId event realizedPnl total d.now = some snapshot := by
  obtain ⟨-, -, pnlEvents, portfolio, row, snapshot, happ, hrow, hsnap, -⟩ := h
  refine ⟨row, _, _, snapshot, ?_, hsnap⟩
  unfold Consumer.applyAndSave
  simp only [happ, sumDecimal_exact, hrow, Option.bind_eq_bind, Option.bind_some, Option.pure_def]

/-- The next statement of a transaction leaves it open, or its event is committed, or `process` refuses
it. -/
theorem Server.Advances.outcome (h : s.Advances num i tx s') (hheld : s.Held)
    (hcur : tx.Current num s i) (htx : s.txs i = some tx) :
    (∃ stage, s'.txs i = some { tx with stage }) ∨ tx.event.eventId ∈ s'.db.processedIds ∨
      Refuses num s.db tx.event tx.delivery := by
  have hnew : tx.stage.Claimed → tx.event.eventId ∉ s.db.processedIds := fun hc => (hcur.claimed hc).2
  cases h with
  | claim => exact .inl ⟨_, goto_self ..⟩
  | duplicate => exact .inl ⟨_, goto_self ..⟩
  | upsert => exact .inl ⟨_, goto_self ..⟩
  | insert => exact .inl ⟨_, goto_self ..⟩
  | select => exact .inl ⟨_, goto_self ..⟩
  | missing hstage hrow hfree =>
    -- The upsert has found the row or inserted it, so `fetch_one` finds it.
    rcases hheld.found i tx htx hstage with hfound | hfound
    · rw [hrow] at hfound
      cases hfound
    · cases hfree.symm.trans hfound
  | save => exact .inl ⟨_, goto_self ..⟩
  | refuse portfolio hstage hrefused =>
    -- It was loaded under the lock, so it is what the table still holds.
    have hportfolio : portfolio = s.db.portfolio tx.event.asset := by
      have hfrom := hcur.fromRow
      rw [hstage] at hfrom
      exact hfrom
    refine .inr (.inr (refuses_of_not_recorded (hnew (by rw [hstage]; trivial)) fun db' hrec => ?_))
    obtain ⟨row, realizedPnl, total, -, hsaved, -⟩ := hrec.applyAndSave
    rw [hportfolio, hsaved] at hrefused
    cases hrefused
  | snapshot => exact .inl ⟨_, goto_self ..⟩
  | reject row realizedPnl total hstage hrejected =>
    have hsaved : applyAndSave num tx.event (s.db.portfolio tx.event.asset) =
        some (row, realizedPnl, total) := by
      have hfrom := hcur.fromRow
      rw [hstage] at hfrom
      exact hfrom
    refine .inr (.inr (refuses_of_not_recorded (hnew (by rw [hstage]; trivial)) fun db' hrec => ?_))
    obtain ⟨row', realizedPnl', total', snapshot, hsaved', hsnap⟩ := hrec.applyAndSave
    cases hsaved.symm.trans hsaved'
    cases hrejected.symm.trans hsnap
  | commit row snapshot hstage =>
    refine .inr (.inl ?_)
    rw [(hcur.recorded hstage).processedIds]
    exact List.mem_append_right _ (List.mem_singleton_self _)
  | rolledBack hstage => exact .inr (.inl (hheld.duplicate i tx htx hstage))

/-- The event is committed in the later state, or `process` refuses it on the tables after a part of
the log that the earlier state had already committed. -/
def Decided (num : ℚ → Option ℚ) (s s' : Server) (event : TradeEvent ℚ) (d : Delivery) : Prop :=
  event.eventId ∈ s'.db.processedIds ∨
    ∃ log db, s.log <+: log ∧ log <+: s'.log ∧ History num log db ∧ Refuses num db event d

/-- The statement is the next one of an open transaction: no begin and no crash. -/
def Server.Own (s : Server) (a : Server.Action) : Prop :=
  ∃ i tx, s.txs i = some tx ∧ a = tx.stage.next i

theorem Server.Own.continues (h : s.Own a) : a.Continues := by
  obtain ⟨i, tx, -, rfl⟩ := h
  cases tx.stage <;> trivial

/-- Such a statement carries its transaction on. -/
theorem Server.Own.advances (h : s.Own a) (hs : s.step num a = some s') :
    ∃ i tx, s.txs i = some tx ∧ s.Advances num i tx s' := by
  obtain ⟨j, tx', htx', ha⟩ := h
  rcases step_cases hs with ⟨i, event, d, hbegin, -⟩ | ⟨i, tx, htx, ⟨hback, rfl⟩ | ⟨-, hadv⟩⟩
  · rw [ha] at hbegin
    cases hstage : tx'.stage <;> simp [hstage, Stage.next] at hbegin
  · rw [ha] at hback
    cases hstage : tx'.stage <;> simp [hstage, Stage.next] at hback
    subst hback
    exact ⟨j, tx', htx', .rolledBack hstage⟩
  · exact ⟨i, tx, htx, hadv⟩

/-- The committed tables only grow. -/
theorem Effect.grows (h : Effect num s a s') :
    s.log <+: s'.log ∧ s.db.processedIds ⊆ s'.db.processedIds := by
  rcases h with ⟨-, hdb, hlog⟩ | ⟨i, tx, -, -, hlog, hrec⟩
  · rw [hdb, hlog]
    exact ⟨List.prefix_rfl, List.Subset.refl _⟩
  · rw [hlog, hrec.processedIds]
    exact ⟨List.prefix_append _ _, List.subset_append_left _ _⟩

theorem Effect.history (h : Effect num s a s') (hist : History num s.log s.db) :
    History num s'.log s'.db := by
  rcases h with ⟨-, hdb, hlog⟩ | ⟨i, tx, -, -, hlog, hrec⟩
  · rw [hdb, hlog]
    exact hist
  · rw [hlog]
    exact .commit hist hrec

/-- What a run does to the committed tables. -/
theorem run_grows (hcur : s.Current num) (hist : History num s.log s.db) {more : List Server.Action}
    (hs : run (Server.step num) s more = some s') :
    s'.Current num ∧ History num s'.log s'.db ∧ s.log <+: s'.log := by
  refine run_invariant (fun t => t.Current num ∧ History num t.log t.db ∧ s.log <+: t.log) ?_
    ⟨hcur, hist, List.prefix_rfl⟩ hs
  rintro t a u ⟨hcur, hist, hlog⟩ hu
  obtain ⟨hcur', heffect⟩ := hcur.step hu
  exact ⟨hcur', heffect.history hist, hlog.trans heffect.grows.1⟩

/-- What is known of an open transaction of `s₀` later on: it is still open, with its event, or it is
decided. -/
structure Tracks (num : ℚ → Option ℚ) (s₀ : Server) (i : ℕ) (tx₀ : Tx) (s : Server) : Prop where
  held : s.Held
  current : s.Current num
  history : History num s.log s.db
  log : s₀.log <+: s.log
  fate : (∃ tx, s.txs i = some tx ∧ tx.event = tx₀.event ∧ tx.delivery = tx₀.delivery) ∨
    Decided num s₀ s tx₀.event tx₀.delivery

theorem Tracks.step {s₀ : Server} {tx₀ : Tx} (h : Tracks num s₀ i tx₀ s) (ha : s.Own a)
    (hs : s.step num a = some s') : Tracks num s₀ i tx₀ s' := by
  obtain ⟨hcur', heffect⟩ := h.current.step hs
  obtain ⟨hlog, hids⟩ := heffect.grows
  refine ⟨h.held.step hs, hcur', heffect.history h.history, h.log.trans hlog, ?_⟩
  rcases h.fate with ⟨tx, htx, hevent, hdelivery⟩ | hdecided | ⟨log, db, hle, hle', hist, hrefuses⟩
  · obtain ⟨j, tx', htx', hadv⟩ := ha.advances hs
    by_cases hij : i = j
    · subst hij
      cases htx.symm.trans htx'
      rw [← hevent, ← hdelivery]
      rcases hadv.outcome h.held (h.current i tx htx) htx with ⟨stage, hopen⟩ | hmem | hrefuses
      · exact .inl ⟨_, hopen, rfl, rfl⟩
      · exact .inr (.inl hmem)
      · exact .inr (.inr ⟨s.log, s.db, h.log, hlog, h.history, hrefuses⟩)
    · -- The transaction is another one.
      obtain ⟨o, ho, -⟩ := hadv.pending_lt
      refine .inl ⟨tx, ?_, hevent, hdelivery⟩
      rw [ho, Function.update_of_ne hij, htx]
  · exact .inr (.inl (hids hdecided))
  · exact .inr (.inr ⟨log, db, hle, hle'.trans hlog, hist, hrefuses⟩)

/-- **What becomes of the events.** From any reachable state the open transactions can be run to their
ends, and however that is scheduled, each of their events is then in `processed_events`, or `process`
fails on it on the tables some commit between the two states has left. -/
theorem settles (num : ℚ → Option ℚ) (actions : List Server.Action) (s : Server)
    (hs : run (Server.step num) Server.init actions = some s) :
    (∃ more s', EveryStep (Server.step num) Server.Own s more ∧
      run (Server.step num) s more = some s' ∧ s'.Idle) ∧
    ∀ more s', EveryStep (Server.step num) Server.Own s more →
      run (Server.step num) s more = some s' → s'.Idle →
        ∀ i tx, s.txs i = some tx → Decided num s s' tx.event tx.delivery := by
  obtain ⟨hcur, hist⟩ := run_history hs
  have hheld := run_held hs
  obtain ⟨opened, hopened⟩ := run_finite hs
  constructor
  · refine exists_run (fun t => t.Held ∧ t.Within opened)
      (fun t a u ht ha hu => ⟨ht.1.step hu, ht.2.step ha.continues hu⟩)
      (fun t a u ht ha hu => work_lt ht.2 ha.continues hu) Server.Idle (fun t ht hidle => ?_)
      ⟨hheld, fun i hi => (hopened i).2 hi⟩
    obtain ⟨i, hi⟩ := not_forall.1 hidle
    obtain ⟨j, tx, htx, hstep⟩ := ht.1.some_next_enabled num (Option.isSome_iff_ne_none.2 hi)
    obtain ⟨u, hu⟩ := Option.isSome_iff_exists.1 hstep
    exact ⟨_, u, ⟨j, tx, htx, rfl⟩, hu⟩
  · intro more s' hown hs' hidle i tx htx
    have htracks : Tracks num s i tx s' := by
      refine hown.last (Tracks num s i tx) (fun _ _ _ h ha ht => h.step ha ht) ?_ hs'
      exact ⟨hheld, hcur, hist, List.prefix_rfl, .inl ⟨tx, htx, rfl, rfl⟩⟩
    rcases htracks.fate with ⟨tx', htx', -⟩ | hdecided
    · rw [hidle i] at htx'
      cases htx'
    · exact hdecided

theorem settles_contending : ∃ s s' more,
    run (Server.step numericColumn) Server.init contending = some s ∧
      EveryStep (Server.step numericColumn) Server.Own s more ∧
      run (Server.step numericColumn) s more = some s' ∧ s'.Idle ∧
      ∀ i tx, s.txs i = some tx → Decided numericColumn s s' tx.event tx.delivery := by
  obtain ⟨s, hs, -⟩ := contending_runs
  obtain ⟨⟨more, s', hown, hs', hidle⟩, hdecided⟩ := settles numericColumn contending s hs
  exact ⟨s, s', more, hs, hown, hs', hidle, hdecided more s' hown hs' hidle⟩

end Consumer
end CryptoAccounting

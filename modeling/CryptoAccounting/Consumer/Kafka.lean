import CryptoAccounting.Consumer.Processor
import CryptoAccounting.Lib.Transition

/-!
# The Kafka consumer loop

`KafkaConsumer::run` of pnl-consumer on one partition, as a transition system: the loop, the broker's
committed offset, crashes and rebalances, and other consumers that share the tables. A committed
offset is never delivered again, so what counts is which messages lie below it.

`noDrop_iff` says exactly when no event is dropped: after a failed call the loop goes on with the next
message, and the commit of a later message also covers the failed one.
-/

namespace CryptoAccounting
namespace Consumer

open Transition

/-! ### The system -/

/-- A message of the partition, as `run` sees it. -/
inductive Message
  | noPayload
  /-- `serde_json::from_slice` fails. -/
  | undeserialisable
  | event (event : TradeEvent ℚ)
  deriving DecidableEq, Repr

/-- The loop, the broker's view of the group, and the database. -/
structure Kafka where
  /-- Offset of the message the next `recv` yields. -/
  position : ℕ
  /-- The committed offset of the group: where a new session starts. -/
  committed : ℕ
  /-- The message between `recv` and the end of the loop body. -/
  current : Option ℕ
  /-- Offsets given to `commit_message` that have not reached the broker, oldest first. -/
  commits : List ℕ
  /-- Messages of this session whose call of `process` returned an error. -/
  failed : List ℕ
  db : Db

/-- A group without committed offset starts at the beginning (`auto.offset.reset` is "earliest"). -/
def Kafka.init : Kafka where
  position := 0
  committed := 0
  current := none
  commits := []
  failed := []
  db := Db.empty

inductive Kafka.Action
  /-- `recv` returns an error, which is logged. -/
  | recvError
  /-- `recv` returns the next message. -/
  | recv
  /-- The loop body runs on the received message. -/
  | handle (d : Delivery)
  /-- The oldest outstanding commit reaches the broker. -/
  | commitLands
  /-- The oldest outstanding commit is lost; its result is ignored. -/
  | commitLost
  /-- A crash or a rebalance: the session ends, the next one starts at the committed offset. -/
  | restart
  /-- Another consumer of the group processes an event. -/
  | other (event : TradeEvent ℚ) (d : Delivery)

/-- A new session. -/
def Kafka.restart (s : Kafka) : Kafka :=
  { s with position := s.committed, current := none, commits := [], failed := [] }

/-- The body of the loop on the message at offset `k`. -/
def Kafka.handle (num : ℚ → Option ℚ) (s : Kafka) (k : ℕ) (d : Delivery) : Message → Kafka
  | .noPayload => { s with current := none, commits := s.commits ++ [k] }
  | .undeserialisable => { s with current := none, commits := s.commits ++ [k] }
  | .event event =>
    match process num s.db event d with
    -- A panic ends the process.
    | .error _ => s.restart
    | .ok (.ok _, db) => { s with current := none, commits := s.commits ++ [k], db }
    | .ok (.error _, db) => { s with current := none, failed := s.failed ++ [k], db }

/-- One step. The log of the partition is unbounded. -/
def Kafka.step (num : ℚ → Option ℚ) (log : ℕ → Message) (s : Kafka) : Kafka.Action → Option Kafka
  | .recvError => if s.current = none then some s else none
  | .recv =>
    if s.current = none then
      some { s with current := some s.position, position := s.position + 1 }
    else none
  | .handle d => s.current.map fun k => s.handle num k d (log k)
  | .commitLands =>
    match s.commits with
    | [] => none
    | k :: commits => some { s with committed := k + 1, commits }
  | .commitLost =>
    match s.commits with
    | [] => none
    | _ :: commits => some { s with commits }
  | .restart => some s.restart
  | .other event d =>
    match process num s.db event d with
    | .error _ => some s
    | .ok (_, db) => some { s with db }

/-! ### What must not be lost -/

/-- The message holds no event, or its event is in `processed_events`. -/
def Settled (log : ℕ → Message) (db : Db) (k : ℕ) : Prop :=
  ∀ event, log k = .event event → event.eventId ∈ db.processedIds

/-- No event below the committed offset is missing. -/
def NoDrop (log : ℕ → Message) (s : Kafka) : Prop := ∀ k < s.committed, Settled log s.db k

/-- The commit that is about to land does not pass a message that failed in this session and is
still missing. -/
def CommitSafe (log : ℕ → Message) (s : Kafka) : Kafka.Action → Prop
  | .commitLands => ∀ k ∈ s.commits.head?, ∀ j ∈ s.failed, j < k → Settled log s.db j
  | _ => True

/-- The loop is past the message at offset `k`: it was received in this session, and its loop body
has ended. -/
def Kafka.Past (s : Kafka) (k : ℕ) : Prop := k < s.position ∧ s.current ≠ some k

/-- What holds whether or not something is dropped. Every message from the committed offset on that
the loop is past is settled or has failed, and the outstanding commits stand in increasing order. -/
structure Kafka.Inv (log : ℕ → Message) (s : Kafka) : Prop where
  committed_le : s.committed ≤ s.position
  current : ∀ k, s.current = some k → k + 1 = s.position ∧ s.committed ≤ k
  settled : ∀ k, s.committed ≤ k → s.Past k → k ∉ s.failed → Settled log s.db k
  failed : ∀ k ∈ s.failed, s.Past k
  commits : ∀ k ∈ s.commits, s.committed ≤ k ∧ s.Past k ∧ k ∉ s.failed
  sorted : s.commits.Pairwise (· < ·)

variable {num : ℚ → Option ℚ} {log : ℕ → Message} {s t : Kafka}

theorem Settled.mono {db db' : Db} {k : ℕ} (h : Settled log db k)
    (hdb : db.processedIds ⊆ db'.processedIds) : Settled log db' k :=
  fun event hk => hdb (h event hk)

/-- What a step can do, apart from which messages make `process` do it. -/
inductive Kafka.Moves (log : ℕ → Message) (s : Kafka) : Kafka.Action → Kafka → Prop
  /-- Nothing but the tables changes, which only grow. -/
  | grow (a : Kafka.Action) (db : Db) (hdb : s.db.processedIds ⊆ db.processedIds) :
      Moves log s a { s with db }
  | recv (hc : s.current = none) :
      Moves log s .recv { s with current := some s.position, position := s.position + 1 }
  /-- The body ends by asking for a commit. -/
  | done (d : Delivery) (k : ℕ) (db : Db) (hc : s.current = some k)
      (hdb : s.db.processedIds ⊆ db.processedIds) (hk : Settled log db k) :
      Moves log s (.handle d) { s with current := none, commits := s.commits ++ [k], db }
  /-- The body ends with the error branch. -/
  | fail (d : Delivery) (k : ℕ) (db : Db) (hc : s.current = some k)
      (hdb : s.db.processedIds ⊆ db.processedIds) :
      Moves log s (.handle d) { s with current := none, failed := s.failed ++ [k], db }
  | lands (k : ℕ) (commits : List ℕ) (hc : s.commits = k :: commits) :
      Moves log s .commitLands { s with committed := k + 1, commits }
  | lost (k : ℕ) (commits : List ℕ) (hc : s.commits = k :: commits) :
      Moves log s .commitLost { s with commits }
  | restart (a : Kafka.Action) : Moves log s a s.restart

theorem Kafka.handle_moves {k : ℕ} (hc : s.current = some k) (d : Delivery) :
    Kafka.Moves log s (.handle d) (s.handle num k d (log k)) := by
  cases hm : log k with
  | noPayload => exact .done d k s.db hc (List.Subset.refl _) fun event hk => by rw [hm] at hk; cases hk
  | undeserialisable =>
    exact .done d k s.db hc (List.Subset.refl _) fun event hk => by rw [hm] at hk; cases hk
  | event event =>
    unfold Kafka.handle
    cases hp : process num s.db event d with
    | error e => simpa only [hp] using .restart _
    | ok res =>
      obtain ⟨r, db⟩ := res
      have hh := process_handled hp
      cases r with
      | error e => simpa only [hp] using .fail d k db hc hh.subset
      | ok b =>
        have hk : Settled log db k := by
          intro event' hk
          rw [hm] at hk
          cases hk
          exact hh.mem_of_ok
        simpa only [hp] using .done d k db hc hh.subset hk

theorem Kafka.step_moves {a : Kafka.Action} (hs : s.step num log a = some t) :
    Kafka.Moves log s a t := by
  cases a with
  | recvError =>
    simp only [Kafka.step] at hs
    split_ifs at hs
    cases hs
    exact .grow _ s.db (List.Subset.refl _)
  | recv =>
    simp only [Kafka.step] at hs
    split_ifs at hs with hc
    cases hs
    exact .recv hc
  | handle d =>
    obtain ⟨k, hc, rfl⟩ := Option.map_eq_some_iff.1 hs
    exact Kafka.handle_moves hc d
  | commitLands =>
    simp only [Kafka.step] at hs
    split at hs
    · cases hs
    · next k commits hc => cases hs; exact .lands k commits hc
  | commitLost =>
    simp only [Kafka.step] at hs
    split at hs
    · cases hs
    · next k commits hc => cases hs; exact .lost k commits hc
  | restart => cases hs; exact .restart _
  | other event d =>
    simp only [Kafka.step] at hs
    split at hs
    · cases hs; exact .grow _ s.db (List.Subset.refl _)
    · next r db hp => cases hs; exact .grow _ db (process_handled hp).subset

theorem Kafka.inv_init : Kafka.init.Inv log where
  committed_le := le_refl 0
  current k hk := by cases hk
  settled k _ hk := absurd hk.1 (Nat.not_lt_zero k)
  failed k hk := by cases hk
  commits k hk := by cases hk
  sorted := List.Pairwise.nil

/-! ### What the steps keep -/

theorem Kafka.inv_restart (s : Kafka) : s.restart.Inv log where
  committed_le := le_refl _
  current k hk := by cases hk
  settled k hle hk := absurd hk.1 (not_lt.2 hle)
  failed k hk := by cases hk
  commits k hk := by cases hk
  sorted := List.Pairwise.nil

/-- The tables may grow at any time. -/
theorem Kafka.Inv.grow (h : s.Inv log) {db : Db} (hdb : s.db.processedIds ⊆ db.processedIds) :
    Kafka.Inv log { s with db } where
  committed_le := h.committed_le
  current := h.current
  settled k hle hk hf := (h.settled k hle hk hf).mono hdb
  failed := h.failed
  commits := h.commits
  sorted := h.sorted

theorem Kafka.Inv.recv (h : s.Inv log) (hc : s.current = none) :
    Kafka.Inv log { s with current := some s.position, position := s.position + 1 } := by
  have hpast : ∀ k, Kafka.Past { s with current := some s.position, position := s.position + 1 } k ↔
      s.Past k := by
    intro k
    simp only [Kafka.Past, hc, ne_eq, Option.some.injEq, reduceCtorEq, not_false_eq_true, and_true]
    omega
  refine ⟨h.committed_le.trans (Nat.le_succ _), ?_, ?_, ?_, ?_, h.sorted⟩
  · rintro k ⟨⟩
    exact ⟨rfl, h.committed_le⟩
  · intro k hle hk hf
    exact h.settled k hle ((hpast k).1 hk) hf
  · intro k hk
    exact (hpast k).2 (h.failed k hk)
  · intro k hk
    obtain ⟨hle, hp, hf⟩ := h.commits k hk
    exact ⟨hle, (hpast k).2 hp, hf⟩

/-- Once the body has ended the loop is past the message it was working on. -/
theorem Kafka.past_current_none (h : s.Inv log) {k : ℕ} (hc : s.current = some k) (j : ℕ) :
    Kafka.Past { s with current := none } j ↔ s.Past j ∨ j = k := by
  obtain ⟨hk, -⟩ := h.current k hc
  simp only [Kafka.Past, hc, ne_eq, Option.some.injEq, reduceCtorEq, not_false_eq_true, and_true]
  omega

/-- The body ends with a commit of a message that holds no event or a recorded one. -/
theorem Kafka.Inv.done (h : s.Inv log) {k : ℕ} (hc : s.current = some k) {db : Db}
    (hdb : s.db.processedIds ⊆ db.processedIds) (hk : Settled log db k) :
    Kafka.Inv log { s with current := none, commits := s.commits ++ [k], db } := by
  have hpast := Kafka.past_current_none h hc
  obtain ⟨hpos, hle⟩ := h.current k hc
  have hnf : k ∉ s.failed := fun hf => (h.failed k hf).2 hc
  refine ⟨h.committed_le, (by intro j hj; cases hj), ?_, ?_, ?_, ?_⟩
  · intro j hj hjp hjf
    rcases (hpast j).1 hjp with hjp | rfl
    · exact (h.settled j hj hjp hjf).mono hdb
    · exact hk
  · intro j hj
    exact (hpast j).2 (.inl (h.failed j hj))
  · intro j hj
    rcases List.mem_append.1 hj with hj | hj
    · obtain ⟨hle', hp, hf⟩ := h.commits j hj
      exact ⟨hle', (hpast j).2 (.inl hp), hf⟩
    · rw [List.mem_singleton.1 hj]
      exact ⟨hle, (hpast k).2 (.inr rfl), hnf⟩
  · refine List.pairwise_append.2 ⟨h.sorted, List.pairwise_singleton _ _, ?_⟩
    intro j hj i hi
    rw [List.mem_singleton.1 hi]
    obtain ⟨-, hp, -⟩ := h.commits j hj
    have hne : k ≠ j := fun hkj => hp.2 (hkj ▸ hc)
    have hlt := hp.1
    omega

/-- The body ends without a commit: the message has failed. -/
theorem Kafka.Inv.fail (h : s.Inv log) {k : ℕ} (hc : s.current = some k) {db : Db}
    (hdb : s.db.processedIds ⊆ db.processedIds) :
    Kafka.Inv log { s with current := none, failed := s.failed ++ [k], db } := by
  have hpast := Kafka.past_current_none h hc
  refine ⟨h.committed_le, (by intro j hj; cases hj), ?_, ?_, ?_, h.sorted⟩
  · intro j hj hjp hjf
    rw [List.mem_append, List.mem_singleton, not_or] at hjf
    have hjp := ((hpast j).1 hjp).resolve_right hjf.2
    exact (h.settled j hj hjp hjf.1).mono hdb
  · intro j hj
    rcases List.mem_append.1 hj with hj | hj
    · exact (hpast j).2 (.inl (h.failed j hj))
    · exact (hpast j).2 (.inr (List.mem_singleton.1 hj))
  · intro j hj
    obtain ⟨hle, hp, hf⟩ := h.commits j hj
    refine ⟨hle, (hpast j).2 (.inl hp), fun hjf => ?_⟩
    rcases List.mem_append.1 hjf with hjf | hjf
    · exact hf hjf
    · exact hp.2 (List.mem_singleton.1 hjf ▸ hc)

theorem Kafka.Inv.lands (h : s.Inv log) {k : ℕ} {commits : List ℕ} (hc : s.commits = k :: commits) :
    Kafka.Inv log { s with committed := k + 1, commits } := by
  have hsorted := h.sorted
  rw [hc, List.pairwise_cons] at hsorted
  obtain ⟨hle, hp, -⟩ := h.commits k (hc ▸ List.mem_cons_self)
  refine ⟨hp.1, ?_, ?_, h.failed, ?_, hsorted.2⟩
  · intro j hj
    obtain ⟨hpos, -⟩ := h.current j hj
    have hne : j ≠ k := fun hjk => hp.2 (hjk ▸ hj)
    have hlt := hp.1
    exact ⟨hpos, by show k + 1 ≤ j; omega⟩
  · intro j hj
    exact h.settled j (hle.trans (Nat.le_of_succ_le hj))
  · intro j hj
    obtain ⟨-, hp', hf'⟩ := h.commits j (hc ▸ List.mem_cons_of_mem k hj)
    exact ⟨hsorted.1 j hj, hp', hf'⟩

theorem Kafka.Inv.lost (h : s.Inv log) {k : ℕ} {commits : List ℕ} (hc : s.commits = k :: commits) :
    Kafka.Inv log { s with commits } := by
  have hsorted := h.sorted
  rw [hc, List.pairwise_cons] at hsorted
  refine ⟨h.committed_le, h.current, h.settled, h.failed, ?_, hsorted.2⟩
  intro j hj
  exact h.commits j (hc ▸ List.mem_cons_of_mem k hj)

theorem Kafka.Inv.step {a : Kafka.Action} (h : s.Inv log) (hs : s.step num log a = some t) :
    t.Inv log := by
  cases Kafka.step_moves hs with
  | grow _ db hdb => exact h.grow hdb
  | recv hc => exact h.recv hc
  | done d k db hc hdb hk => exact h.done hc hdb hk
  | fail d k db hc hdb => exact h.fail hc hdb
  | lands k commits hc => exact h.lands hc
  | lost k commits hc => exact h.lost hc
  | restart => exact Kafka.inv_restart s

/-! ### Which steps drop an event -/

theorem NoDrop.grow (h : NoDrop log s) (hc : t.committed = s.committed)
    (hdb : s.db.processedIds ⊆ t.db.processedIds) : NoDrop log t :=
  fun k hk => (h k (hc ▸ hk)).mono hdb

/-- A safe step drops nothing: what a landing commit passes is settled, or failed and settled since. -/
theorem NoDrop.step {a : Kafka.Action} (h : NoDrop log s) (hi : s.Inv log)
    (ha : CommitSafe log s a) (hs : s.step num log a = some t) : NoDrop log t := by
  cases Kafka.step_moves hs with
  | grow _ db hdb => exact h.grow rfl hdb
  | recv hc => exact h
  | done d k db hc hdb hk => exact h.grow rfl hdb
  | fail d k db hc hdb => exact h.grow rfl hdb
  | lands k commits hc =>
    intro j hj
    have hjk : j ≤ k := Nat.lt_succ_iff.1 hj
    obtain ⟨-, hp, hf⟩ := hi.commits k (hc ▸ List.mem_cons_self)
    rcases lt_or_ge j s.committed with hjc | hjc
    · exact h j hjc
    by_cases hjf : j ∈ s.failed
    · have hne : j ≠ k := fun he => hf (he ▸ hjf)
      exact ha k (by rw [hc]; rfl) j hjf (by omega)
    · refine hi.settled j hjc ⟨by have := hp.1; omega, fun hcur => ?_⟩ hjf
      -- The current message is the last one received.
      obtain ⟨hpos, -⟩ := hi.current j hcur
      have hkj : k = j := by have := hp.1; omega
      exact hp.2 (hkj ▸ hcur)
  | lost k commits hc => exact h
  | restart => exact h

/-- A step that drops nothing is safe. -/
theorem commitSafe_of_noDrop {a : Kafka.Action} (hs : s.step num log a = some t)
    (h : NoDrop log t) : CommitSafe log s a := by
  cases a with
  | commitLands =>
    intro k hk j _ hjk
    unfold Kafka.step at hs
    cases hc : s.commits with
    | nil => rw [hc] at hk; cases hk
    | cons k' commits =>
      simp only [hc] at hs
      cases hs
      rw [hc] at hk
      cases hk
      exact h j (Nat.lt_succ_of_lt hjk)
  | _ => trivial

/-- **When no event is dropped.** Over every log, every choice of failures and every run, the
messages below the committed offset are settled in all states exactly when no commit lands that
passes a message which failed earlier in the session and is still missing. -/
theorem noDrop_iff (num : ℚ → Option ℚ) (log : ℕ → Message) (as : List Kafka.Action) :
    EveryState (Kafka.step num log) (NoDrop log) Kafka.init as ↔
      EveryStep (Kafka.step num log) (CommitSafe log) Kafka.init as := by
  refine everyState_iff_everyStep (Kafka.Inv log) (NoDrop log) ?_ ?_ ?_ Kafka.inv_init ?_
  · intro s a t hi _ hs
    exact hi.step hs
  · intro s a t hi hn ha hs
    exact hn.step hi ha hs
  · intro s a t _ _ hs hn
    exact commitSafe_of_noDrop hs hn
  · intro k hk
    exact absurd hk (Nat.not_lt_zero k)

/-! ### A dropped event -/

/-- A sell that arrives before the buy it sells from. -/
def sellFirst : ℕ → Message
  | 0 => .event (sampleEvent 1 .sell 1)
  | k => .event (sampleEvent (k + 1) .buy 1)

/-- The sell fails, the buy succeeds, and the commit of the buy lands. -/
def sellFirstRun : List Kafka.Action :=
  let d : Delivery :=
    { kafkaPartition := 0, kafkaOffset := 0, snapshotId := 0, now := 0, fault := none }
  [.recv, .handle d, .recv, .handle d, .commitLands]

/-- A failed message can end up below the committed offset without having been recorded. -/
theorem failed_event_dropped : ¬ ∀ (log : ℕ → Message) (as : List Kafka.Action) (s : Kafka),
    run (Kafka.step numericColumn log) Kafka.init as = some s → NoDrop log s := by
  intro h
  have hrun : (run (Kafka.step numericColumn sellFirst) Kafka.init sellFirstRun).map
      (fun s => (s.committed, s.db.processedIds)) = some (2, [2]) := by decide +kernel
  obtain ⟨s, hs, hview⟩ := Option.map_eq_some_iff.1 hrun
  obtain ⟨hcommitted, hids⟩ := Prod.mk.inj hview
  have hmem := h sellFirst sellFirstRun s hs 0 (by rw [hcommitted]; decide) (sampleEvent 1 .sell 1) rfl
  rw [hids] at hmem
  exact absurd hmem (by decide)

end Consumer
end CryptoAccounting

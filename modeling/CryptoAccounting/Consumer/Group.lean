import CryptoAccounting.Consumer.Kafka
import CryptoAccounting.Consumer.Transactions

/-!
# The consumer group

All instances of the consumer are members of one group: each partition of the topic is read by one of them,
a rebalance gives it to another, and a member that ends, by a crash or by a panic of `process`, takes the
sessions of all its partitions with it. A member works on one message at a time, from whichever of its
partitions it came. Every partition goes through steps of the loop on one partition (`step_view`), so the
group records every event below a committed offset once, exactly as long as no commit passes a message
of its partition that failed and is still missing (`recordedOnce_iff`).
-/

namespace CryptoAccounting
namespace Consumer

open Transition

/-! ### The system -/

/-- The sessions, the members that read them, and the tables they all share; the `db` of a session is that
of its own last step. -/
structure Group where
  sessions : ℤ → Kafka
  owner : ℤ → ℕ
  /-- The partition of the message that a member is working on. -/
  busy : ℕ → Option ℤ
  db : Db

def Group.init (owner : ℤ → ℕ) : Group where
  sessions := fun _ => Kafka.init
  owner
  busy := fun _ => none
  db := Db.empty

inductive Group.Action
  /-- `recv` returns an error to a member. -/
  | recvError (member : ℕ)
  /-- `recv` returns the next message of a partition to its member. -/
  | recv (partition : ℤ)
  /-- The loop body of a member runs. -/
  | handle (member : ℕ) (d : Delivery)
  | commitLands (partition : ℤ)
  | commitLost (partition : ℤ)
  | crash (member : ℕ)
  /-- The partition is given to a member. -/
  | rebalance (partition : ℤ) (member : ℕ)
  /-- A member that has lost its partition in the meantime processes an event of it. -/
  | other (event : TradeEvent ℚ) (d : Delivery)

/-- The session of a partition, with the tables as they are now. -/
def Group.view (g : Group) (partition : ℤ) : Kafka := { g.sessions partition with db := g.db }

/-- A session has taken a step. -/
def Group.put (g : Group) (partition : ℤ) (s : Kafka) : Group :=
  { g with sessions := Function.update g.sessions partition s, db := s.db }

/-- A member ends, and a new one takes its place. -/
def Group.crash (g : Group) (member : ℕ) : Group :=
  { g with
    sessions := fun partition =>
      if g.owner partition = member then (g.sessions partition).restart else g.sessions partition
    busy := Function.update g.busy member none }

/-- `process` panics on the message. -/
def panics (num : ℚ → Option ℚ) (db : Db) (d : Delivery) : Message → Bool
  | .event event =>
    match process num db event d with
    | .error _ => true
    | .ok _ => false
  | .noPayload | .undeserialisable => false

/-- One step; `none` if it is not enabled. -/
def Group.step (num : ℚ → Option ℚ) (log : ℤ → ℕ → Message) (g : Group) : Group.Action → Option Group
  | .recvError member => if g.busy member = none then some g else none
  | .recv partition =>
    if g.busy (g.owner partition) = none then do
      let s ← (g.view partition).step num (log partition) .recv
      some { g.put partition s with
        busy := Function.update g.busy (g.owner partition) (some partition) }
    else none
  | .handle member d => do
    let partition ← g.busy member
    let k ← (g.sessions partition).current
    if panics num g.db d (log partition k) then some (g.crash member)
    else do
      let s ← (g.view partition).step num (log partition) (.handle d)
      some { g.put partition s with busy := Function.update g.busy member none }
  | .commitLands partition => do
    let s ← (g.view partition).step num (log partition) .commitLands
    some (g.put partition s)
  | .commitLost partition => do
    let s ← (g.view partition).step num (log partition) .commitLost
    some (g.put partition s)
  | .crash member => some (g.crash member)
  | .rebalance partition member =>
    some
      { g.put partition (g.view partition).restart with
        owner := Function.update g.owner partition member
        busy := if g.busy (g.owner partition) = some partition then
          Function.update g.busy (g.owner partition) none else g.busy }
  | .other event d =>
    match process num g.db event d with
    | .error _ => some g
    | .ok (_, db) => some { g with db }

/-! ### What must hold -/

/-- Every event below a committed offset has one row in `processed_events`. -/
def RecordedOnce (log : ℤ → ℕ → Message) (g : Group) : Prop :=
  ∀ partition, ∀ k < (g.sessions partition).committed, ∀ event, log partition k = .event event →
    g.db.processedIds.count event.eventId = 1

/-- A commit that is about to land passes no message of its partition that failed in this session and is
still missing. -/
def Group.CommitSafe (log : ℤ → ℕ → Message) (g : Group) : Group.Action → Prop
  | .commitLands partition => Consumer.CommitSafe (log partition) (g.view partition) .commitLands
  | _ => True

instance (log : ℕ → Message) (db : Db) (k : ℕ) : Decidable (Settled log db k) :=
  match h : log k with
  | .event event =>
    decidable_of_iff (event.eventId ∈ db.processedIds)
      ⟨fun hmem e he => Message.event.inj (h.symm.trans he) ▸ hmem, fun hs => hs event h⟩
  | .noPayload | .undeserialisable => isTrue fun e he => by rw [h] at he; cases he

instance (log : ℤ → ℕ → Message) (g : Group) (a : Group.Action) : Decidable (g.CommitSafe log a) :=
  match a with
  | .commitLands partition =>
    inferInstanceAs (Decidable (∀ k ∈ (g.view partition).commits.head?,
      ∀ j ∈ (g.view partition).failed, j < k → Settled (log partition) (g.view partition).db j))
  | .recvError _ | .recv _ | .handle .. | .commitLost _ | .crash _ | .rebalance .. | .other .. =>
    isTrue trivial

/-- Some message of the topic holds the event. -/
def OnTopic (log : ℤ → ℕ → Message) (event : TradeEvent ℚ) : Prop :=
  ∃ partition k, log partition k = .event event

/-- What a member still processes without having the partition, it has received from there. -/
def Group.Action.Reads (log : ℤ → ℕ → Message) : Group.Action → Prop
  | .other event _ => OnTopic log event
  | _ => True

variable {num : ℚ → Option ℚ} {log : ℤ → ℕ → Message} {g g' : Group} {a : Group.Action}

/-- What a step can do. -/
inductive Group.Moves (num : ℚ → Option ℚ) (log : ℤ → ℕ → Message) (g : Group) :
    Group.Action → Group → Prop
  /-- An error of `recv`, or a call of another member that panics. -/
  | stay (a : Group.Action) : Moves num log g a g
  | recv (partition : ℤ) (s : Kafka) (hfree : g.busy (g.owner partition) = none)
      (hs : (g.view partition).step num (log partition) .recv = some s) :
      Moves num log g (.recv partition)
        { g.put partition s with
          busy := Function.update g.busy (g.owner partition) (some partition) }
  /-- The body ends without a panic. -/
  | handled (member : ℕ) (d : Delivery) (partition : ℤ) (k : ℕ) (s : Kafka)
      (hbusy : g.busy member = some partition) (hcurrent : (g.sessions partition).current = some k)
      (hpanics : panics num g.db d (log partition k) = false)
      (hs : (g.view partition).step num (log partition) (.handle d) = some s) :
      Moves num log g (.handle member d)
        { g.put partition s with busy := Function.update g.busy member none }
  | crash (a : Group.Action) (member : ℕ) : Moves num log g a (g.crash member)
  | lands (partition : ℤ) (s : Kafka)
      (hs : (g.view partition).step num (log partition) .commitLands = some s) :
      Moves num log g (.commitLands partition) (g.put partition s)
  | lost (partition : ℤ) (s : Kafka)
      (hs : (g.view partition).step num (log partition) .commitLost = some s) :
      Moves num log g (.commitLost partition) (g.put partition s)
  | rebalance (partition : ℤ) (member : ℕ) :
      Moves num log g (.rebalance partition member)
        { g.put partition (g.view partition).restart with
          owner := Function.update g.owner partition member
          busy := if g.busy (g.owner partition) = some partition then
            Function.update g.busy (g.owner partition) none else g.busy }
  | other (event : TradeEvent ℚ) (d : Delivery) (r : Except ProcessError Bool) (db : Db)
      (hp : process num g.db event d = .ok (r, db)) :
      Moves num log g (.other event d) { g with db }

theorem Group.step_moves (hs : g.step num log a = some g') : g.Moves num log a g' := by
  cases a with
  | recvError member =>
    simp only [Group.step] at hs
    split_ifs at hs
    cases hs
    exact .stay _
  | recv partition =>
    simp only [Group.step] at hs
    split_ifs at hs with hfree
    obtain ⟨s, hk, he⟩ := Option.bind_eq_some_iff.1 hs
    cases he
    exact .recv partition s hfree hk
  | handle member d =>
    obtain ⟨partition, hbusy, hs⟩ := Option.bind_eq_some_iff.1 hs
    obtain ⟨k, hcurrent, hs⟩ := Option.bind_eq_some_iff.1 hs
    split_ifs at hs with hpanics
    · cases hs
      exact .crash _ member
    · obtain ⟨s, hk, he⟩ := Option.bind_eq_some_iff.1 hs
      cases he
      exact .handled member d partition k s hbusy hcurrent (Bool.eq_false_iff.2 hpanics) hk
  | commitLands partition =>
    obtain ⟨s, hk, he⟩ := Option.bind_eq_some_iff.1 hs
    cases he
    exact .lands partition s hk
  | commitLost partition =>
    obtain ⟨s, hk, he⟩ := Option.bind_eq_some_iff.1 hs
    cases he
    exact .lost partition s hk
  | crash member =>
    cases hs
    exact .crash _ member
  | rebalance partition member =>
    cases hs
    exact .rebalance partition member
  | other event d =>
    simp only [Group.step] at hs
    split at hs
    · cases hs
      exact .stay _
    · next r db hp =>
      cases hs
      exact .other event d r db hp

/-! ### One partition -/

theorem Group.view_put (g : Group) (partition : ℤ) (s : Kafka) : (g.put partition s).view partition = s := by
  simp [Group.view, Group.put]

theorem Group.view_put_of_ne (g : Group) {partition other : ℤ} (h : other ≠ partition) (s : Kafka) :
    (g.put partition s).view other = { g.view other with db := s.db } := by
  simp [Group.view, Group.put, Function.update_of_ne h]

/-- Nothing happens to a session, or it takes a step of the loop on one partition. -/
def Follows (num : ℚ → Option ℚ) (log : ℕ → Message) (lands : Prop) (s t : Kafka) : Prop :=
  t = s ∨ ∃ b, s.step num log b = some t ∧ (b = .commitLands → lands)

/-- What a member does to the tables, the other sessions see as the work of another consumer. -/
theorem follows_process {log : ℕ → Message} {lands : Prop} {s : Kafka} {event : TradeEvent ℚ}
    {d : Delivery} {r : Except ProcessError Bool} {db : Db}
    (h : process num s.db event d = .ok (r, db)) : Follows num log lands s { s with db } := by
  refine .inr ⟨.other event d, ?_, by simp⟩
  simp only [Kafka.step, h]

theorem follows_crash (g : Group) (member : ℕ) (partition : ℤ) {lands : Prop} :
    Follows num (log partition) lands (g.view partition) ((g.crash member).view partition) := by
  by_cases hmember : g.owner partition = member
  · refine .inr ⟨.restart, ?_, by simp⟩
    simp [Kafka.step, Kafka.restart, Group.view, Group.crash, hmember]
  · left
    simp [Group.view, Group.crash, hmember]

/-- A session takes a step; the others see what it does to the tables. -/
theorem follows_put {partition other : ℤ} {b : Kafka.Action} {s : Kafka}
    (hs : (g.view partition).step num (log partition) b = some s)
    (hdb : s.db = g.db ∨ ∃ event d r, process num g.db event d = .ok (r, s.db)) {lands : Prop}
    (hlands : b = .commitLands → other = partition → lands) :
    Follows num (log other) lands (g.view other) ((g.put partition s).view other) := by
  by_cases hother : other = partition
  · subst hother
    rw [Group.view_put]
    exact .inr ⟨b, hs, fun hb => hlands hb rfl⟩
  · rw [Group.view_put_of_ne g hother]
    rcases hdb with hsame | ⟨event, d, r, hp⟩
    · rw [hsame]
      exact .inl rfl
    · exact follows_process hp

theorem Kafka.recv_db {log : ℕ → Message} {s t : Kafka} (hs : s.step num log .recv = some t) :
    t.db = s.db := by
  simp only [Kafka.step] at hs
  split_ifs at hs
  cases hs
  rfl

theorem Kafka.commit_keeps {log : ℕ → Message} {s t : Kafka} {b : Kafka.Action}
    (hs : s.step num log b = some t) (hb : b = .commitLands ∨ b = .commitLost) :
    t.current = s.current ∧ t.db = s.db := by
  rcases hb with rfl | rfl
  · simp only [Kafka.step] at hs
    split at hs
    · cases hs
    · cases hs
      exact ⟨rfl, rfl⟩
  · simp only [Kafka.step] at hs
    split at hs
    · cases hs
    · cases hs
      exact ⟨rfl, rfl⟩

/-- The body of the loop changes the tables by a call of `process`, if at all. -/
theorem Kafka.handle_db {log : ℕ → Message} {s t : Kafka} {k : ℕ} {d : Delivery}
    (hcurrent : s.current = some k) (hpanics : panics num s.db d (log k) = false)
    (hs : s.step num log (.handle d) = some t) :
    t.db = s.db ∨ ∃ event d r, log k = .event event ∧ process num s.db event d = .ok (r, t.db) := by
  obtain ⟨k', hk, rfl⟩ := Option.map_eq_some_iff.1 hs
  cases hcurrent.symm.trans hk
  cases hm : log k with
  | noPayload => exact .inl rfl
  | undeserialisable => exact .inl rfl
  | event event =>
    rw [hm, panics] at hpanics
    unfold Kafka.handle
    cases hp : process num s.db event d with
    | error e =>
      rw [hp] at hpanics
      cases hpanics
    | ok result =>
      obtain ⟨r, db⟩ := result
      refine .inr ⟨event, d, r, rfl, ?_⟩
      cases r <;> simp [hp]

/-- **Each partition** goes through steps of the loop on one partition. -/
theorem step_view (hs : g.step num log a = some g') (partition : ℤ) :
    Follows num (log partition) (a = .commitLands partition) (g.view partition) (g'.view partition) := by
  cases Group.step_moves hs with
  | stay => exact .inl rfl
  | recv moved s hfree hk => exact follows_put hk (.inl (Kafka.recv_db hk)) (by simp)
  | handled member d moved k s hbusy hcurrent hpanics hk =>
    refine follows_put hk ?_ (by simp)
    exact (Kafka.handle_db (s := g.view moved) hcurrent hpanics hk).imp_right
      fun ⟨event, d, r, _, hp⟩ => ⟨event, d, r, hp⟩
  | crash a member => exact follows_crash g member partition
  | lands moved s hk =>
    refine follows_put hk (.inl (Kafka.commit_keeps hk (.inl rfl)).2) fun _ hsame => ?_
    rw [hsame]
  | lost moved s hk => exact follows_put hk (.inl (Kafka.commit_keeps hk (.inr rfl)).2) (by simp)
  | rebalance moved member =>
    have hrestart : (g.view moved).step num (log moved) .restart = some (g.view moved).restart := rfl
    exact follows_put hrestart (.inl rfl) (by simp)
  | other event d r db hp => exact follows_process hp

/-! ### What the steps keep -/

/-- Sessions that follow their loops, members that work on one message at a time, and no event twice. -/
structure Group.Inv (log : ℤ → ℕ → Message) (g : Group) : Prop where
  sessions : ∀ partition, (g.view partition).Inv (log partition)
  working : ∀ partition, (g.sessions partition).current.isSome →
    g.busy (g.owner partition) = some partition
  once : g.db.processedIds.Nodup

theorem Group.inv_init (owner : ℤ → ℕ) : (Group.init owner).Inv log where
  sessions _ := Kafka.inv_init
  working _ h := by cases h
  once := List.nodup_nil

theorem Follows.inv {log : ℕ → Message} {lands : Prop} {s t : Kafka} (h : Follows num log lands s t)
    (hi : s.Inv log) : t.Inv log := by
  rcases h with rfl | ⟨b, hb, -⟩
  · exact hi
  · exact hi.step hb

theorem Follows.noDrop {log : ℕ → Message} {lands : Prop} {s t : Kafka} (h : Follows num log lands s t)
    (hi : s.Inv log) (hn : NoDrop log s) (hsafe : lands → Consumer.CommitSafe log s .commitLands) :
    NoDrop log t := by
  rcases h with rfl | ⟨b, hb, hlands⟩
  · exact hn
  · refine hn.step hi ?_ hb
    cases b with
    | commitLands => exact hsafe (hlands rfl)
    | _ => trivial

/-- A call records its event at most once. -/
theorem Handled.nodup {db db' : Db} {event : TradeEvent ℚ} {d : Delivery} {r : Except ProcessError Bool}
    (h : Handled num db event d r db') (hdb : db.processedIds.Nodup) : db'.processedIds.Nodup := by
  have hrec : Recorded num db event d db' → db'.processedIds.Nodup := by
    intro hrec
    rw [hrec.processedIds]
    exact Tables.nodup_snoc hdb hrec.2.1
  match r, h with
  | .ok true, h => exact hrec h
  | .ok false, ⟨_, h⟩ => rwa [h]
  | .error _, .inl h => rwa [h]
  | .error _, .inr h => exact hrec h

theorem Kafka.handle_current {log : ℕ → Message} {s t : Kafka} {d : Delivery}
    (hs : s.step num log (.handle d) = some t) : t.current = none := by
  obtain ⟨k, -, rfl⟩ := Option.map_eq_some_iff.1 hs
  cases log k with
  | noPayload => rfl
  | undeserialisable => rfl
  | event event =>
    rcases hp : process num s.db event d with e | ⟨r, db⟩
    · simp [Kafka.handle, hp, Kafka.restart]
    · cases r <;> simp [Kafka.handle, hp]

/-- The messages under way after a step of one session. -/
theorem Group.Inv.working_put (h : g.Inv log) {partition : ℤ} {s : Kafka} {other : ℤ}
    (hother : ((g.put partition s).sessions other).current.isSome) :
    other = partition ∧ s.current.isSome ∨ other ≠ partition ∧ g.busy (g.owner other) = some other := by
  replace hother : (Function.update g.sessions partition s other).current.isSome := hother
  by_cases hsame : other = partition
  · subst hsame
    rw [Function.update_self] at hother
    exact .inl ⟨rfl, hother⟩
  · rw [Function.update_of_ne hsame] at hother
    exact .inr ⟨hsame, h.working other hother⟩

theorem Group.Inv.working_step (h : g.Inv log) (hs : g.step num log a = some g') :
    ∀ partition, (g'.sessions partition).current.isSome →
      g'.busy (g'.owner partition) = some partition := by
  intro partition hcurrent
  cases Group.step_moves hs with
  | stay => exact h.working partition hcurrent
  | recv moved s hfree hk =>
    show Function.update g.busy (g.owner moved) (some moved) (g.owner partition) = some partition
    rcases h.working_put hcurrent with ⟨rfl, -⟩ | ⟨-, hbusy⟩
    · exact Function.update_self ..
    · rwa [Function.update_of_ne]
      intro howner
      rw [howner, hfree] at hbusy
      cases hbusy
  | handled member d moved k s hbusy' hcurrent' hpanics hk =>
    show Function.update g.busy member none (g.owner partition) = some partition
    rcases h.working_put hcurrent with ⟨-, hsome⟩ | ⟨hne, hbusy⟩
    · rw [Kafka.handle_current hk] at hsome
      cases hsome
    · rwa [Function.update_of_ne]
      intro howner
      rw [howner, hbusy'] at hbusy
      exact hne (Option.some_inj.1 hbusy).symm
  | crash a member =>
    show Function.update g.busy member none (g.owner partition) = some partition
    by_cases howner : g.owner partition = member
    · simp [Group.crash, howner, Kafka.restart] at hcurrent
    · rw [Function.update_of_ne howner]
      exact h.working partition (by simpa [Group.crash, howner] using hcurrent)
  | lands moved s hk =>
    rcases h.working_put hcurrent with ⟨rfl, hsome⟩ | ⟨-, hbusy⟩
    · rw [(Kafka.commit_keeps hk (.inl rfl)).1] at hsome
      exact h.working partition hsome
    · exact hbusy
  | lost moved s hk =>
    rcases h.working_put hcurrent with ⟨rfl, hsome⟩ | ⟨-, hbusy⟩
    · rw [(Kafka.commit_keeps hk (.inr rfl)).1] at hsome
      exact h.working partition hsome
    · exact hbusy
  | rebalance moved member =>
    rcases h.working_put hcurrent with ⟨-, hsome⟩ | ⟨hne, hbusy⟩
    · cases hsome
    · show (if g.busy (g.owner moved) = some moved then Function.update g.busy (g.owner moved) none
          else g.busy) (Function.update g.owner moved member partition) = some partition
      rw [Function.update_of_ne hne]
      split_ifs with hmoved
      · rwa [Function.update_of_ne]
        intro howner
        rw [howner, hmoved] at hbusy
        exact hne (Option.some_inj.1 hbusy).symm
      · exact hbusy
  | other event d r db hp => exact h.working partition hcurrent

/-- The tables change by one call of `process`, if at all. -/
theorem Group.step_db (hs : g.step num log a = some g') : g'.db = g.db ∨
    ∃ event d r, (a.Reads log → OnTopic log event) ∧ process num g.db event d = .ok (r, g'.db) := by
  cases Group.step_moves hs with
  | stay => exact .inl rfl
  | recv moved s hfree hk => exact .inl (Kafka.recv_db hk)
  | handled member d moved k s hbusy hcurrent hpanics hk =>
    rcases Kafka.handle_db (s := g.view moved) hcurrent hpanics hk with hsame | ⟨event, d, r, hm, hp⟩
    · exact .inl hsame
    · exact .inr ⟨event, d, r, fun _ => ⟨moved, k, hm⟩, hp⟩
  | crash a member => exact .inl rfl
  | lands moved s hk => exact .inl (Kafka.commit_keeps hk (.inl rfl)).2
  | lost moved s hk => exact .inl (Kafka.commit_keeps hk (.inr rfl)).2
  | rebalance moved member => exact .inl rfl
  | other event d r db hp => exact .inr ⟨event, d, r, id, hp⟩

theorem Group.Inv.once_step (h : g.Inv log) (hs : g.step num log a = some g') :
    g'.db.processedIds.Nodup := by
  rcases Group.step_db hs with hsame | ⟨event, d, r, -, hp⟩
  · rw [hsame]
    exact h.once
  · exact (process_handled hp).nodup h.once

/-- **One step** of the group. -/
theorem Group.Inv.step (h : g.Inv log) (hs : g.step num log a = some g') : g'.Inv log where
  sessions partition := (step_view hs partition).inv (h.sessions partition)
  working := h.working_step hs
  once := h.once_step hs

/-- A member works on one message at a time. -/
theorem Group.Inv.one_message (h : g.Inv log) {p q : ℤ} (howner : g.owner p = g.owner q)
    (hp : (g.sessions p).current.isSome) (hq : (g.sessions q).current.isSome) : p = q := by
  have hbusy := h.working p hp
  rw [howner, h.working q hq] at hbusy
  exact (Option.some_inj.1 hbusy).symm

/-- Whatever a call returns, it has left the tables alone or recorded its event. -/
theorem Handled.recorded {db db' : Db} {event : TradeEvent ℚ} {d : Delivery}
    {r : Except ProcessError Bool} (h : Handled num db event d r db') :
    db' = db ∨ Recorded num db event d db' := by
  match r, h with
  | .ok true, h => exact .inr h
  | .ok false, ⟨_, h⟩ => exact .inl h
  | .error _, h => exact h

/-- **The tables of a group** are those of serial calls, for events of the topic. -/
theorem run_groupHistory {owner : ℤ → ℕ} {as : List Group.Action}
    (hg : run (Group.step num log) (Group.init owner) as = some g) (hreads : ∀ a ∈ as, a.Reads log) :
    ∃ hist, History num hist g.db ∧ ∀ c ∈ hist, OnTopic log c.1 := by
  refine (everyStep_of_forall hreads).last
    (fun g => ∃ hist, History num hist g.db ∧ ∀ c ∈ hist, OnTopic log c.1) ?_
    ⟨[], .empty, fun c hc => by cases hc⟩ hg
  rintro g a g' ⟨hist, hhist, htopic⟩ ha hs
  rcases Group.step_db hs with hsame | ⟨event, d, r, hevent, hp⟩
  · rw [hsame]
    exact ⟨hist, hhist, htopic⟩
  · rcases (process_handled hp).recorded with hsame | hrec
    · rw [hsame]
      exact ⟨hist, hhist, htopic⟩
    · refine ⟨hist ++ [(event, d)], .commit hhist hrec, fun c hc => ?_⟩
      rcases List.mem_append.1 hc with hc | hc
      · exact htopic c hc
      · rw [List.mem_singleton.1 hc]
        exact hevent ha

/-! ### When every event is recorded -/

/-- No event has two rows, so what is left to ask is that none is missing. -/
theorem Group.Inv.recorded_iff_noDrop (h : g.Inv log) :
    RecordedOnce log g ↔ ∀ partition, NoDrop (log partition) (g.view partition) := by
  constructor
  · intro hrec partition k hk event hevent
    refine List.count_pos_iff.1 (?_ : 0 < g.db.processedIds.count event.eventId)
    rw [hrec partition k hk event hevent]
    exact Nat.one_pos
  · intro hnone partition k hk event hevent
    exact List.count_eq_one_of_mem h.once (hnone partition k hk event hevent)

theorem groupCommitSafe_of_recordedOnce (h : g'.Inv log) (hs : g.step num log a = some g')
    (hrec : RecordedOnce log g') : g.CommitSafe log a := by
  cases a with
  | commitLands partition =>
    obtain ⟨s, hk, he⟩ := Option.bind_eq_some_iff.1 hs
    cases he
    have hnone := h.recorded_iff_noDrop.1 hrec partition
    rw [Group.view_put] at hnone
    exact commitSafe_of_noDrop hk hnone
  | _ => trivial

theorem recordedOnce_init (owner : ℤ → ℕ) : RecordedOnce log (Group.init owner) := by
  intro partition k hk
  exact absurd hk (Nat.not_lt_zero k)

/-- A safe step loses no event. -/
theorem RecordedOnce.step (hrec : RecordedOnce log g) (h : g.Inv log) (ha : g.CommitSafe log a)
    (hs : g.step num log a = some g') : RecordedOnce log g' := by
  rw [h.recorded_iff_noDrop] at hrec
  rw [(h.step hs).recorded_iff_noDrop]
  intro partition
  refine (step_view hs partition).noDrop (h.sessions partition) (hrec partition) fun hlands => ?_
  subst hlands
  exact ha

/-- A safe run loses no event. -/
theorem run_recordedOnce {owner : ℤ → ℕ} {as : List Group.Action}
    (hg : run (Group.step num log) (Group.init owner) as = some g)
    (hsafe : EveryStep (Group.step num log) (Group.CommitSafe log) (Group.init owner) as) :
    RecordedOnce log g := by
  have hstep : ∀ g a g', g.Inv log ∧ RecordedOnce log g → g.CommitSafe log a →
      g.step num log a = some g' → g'.Inv log ∧ RecordedOnce log g' :=
    fun g a g' h ha hs => ⟨h.1.step hs, h.2.step h.1 ha hs⟩
  exact (hsafe.last _ hstep ⟨Group.inv_init owner, recordedOnce_init owner⟩ hg).2

/-- **Effectively once, for the whole group.** Over every topic, every assignment of its partitions and
every run of any number of members, with rebalances, crashes, panics and lost commits: in all states every
event below the committed offset of its partition has exactly one row in `processed_events`, exactly when no
commit lands that passes a message of the same partition which failed earlier in the session and is still
missing. -/
theorem recordedOnce_iff (num : ℚ → Option ℚ) (log : ℤ → ℕ → Message) (owner : ℤ → ℕ)
    (as : List Group.Action) :
    EveryState (Group.step num log) (RecordedOnce log) (Group.init owner) as ↔
      EveryStep (Group.step num log) (Group.CommitSafe log) (Group.init owner) as := by
  refine everyState_iff_everyStep (Group.Inv log) (RecordedOnce log) ?_ ?_ ?_ (Group.inv_init owner) ?_
  · intro g a g' hi _ hs
    exact hi.step hs
  · intro g a g' hi hrec ha hs
    exact hrec.step hi ha hs
  · intro g a g' hi _ hs hrec
    exact groupCommitSafe_of_recordedOnce (hi.step hs) hs hrec
  · exact recordedOnce_init owner

end Consumer
end CryptoAccounting

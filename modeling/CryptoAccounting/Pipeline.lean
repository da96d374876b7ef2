import CryptoAccounting.Consumer.Serial
import CryptoAccounting.Ledger.Producer

/-!
# From the ledger to the consumer's tables

One ledger instance with its producer, the topic, and any number of consumer instances on one database.
A send that fails may still have left its record on the topic, so an event can stand there several times,
in any partition and late; a message can be received at any time and any number of times.

`run_carried`: in every state of the system, the topic holds records of published events only, and what the
consumer has committed are distinct events of stored trades, each with the partition and the offset at
which it still stands.
-/

namespace CryptoAccounting

open Ledger Transition
open Consumer (Server Tx Delivery readEvent)

variable {D : Type}

/-! ### The system -/

structure Pipeline where
  ledger : Instance ℚ
  /-- The calls of `publish_trade_created`, by event id. -/
  publications : Uuid → Publication
  /-- The records of each partition, in the order of their offsets. -/
  topic : ℤ → List Record
  server : Server

def Pipeline.init : Pipeline where
  ledger := Instance.init
  publications := fun _ => Publication.init
  topic := fun _ => []
  server := Server.init

inductive Pipeline.Action (D : Type)
  | ledger (a : Instance.Action ℚ)
  /-- The broker appends a record that a call of `publish_trade_created` has sent. -/
  | append (event : TradeEvent D) (partition : ℤ)
  /-- The `send` of a call returns: `Ok` with partition and offset of the record, or `Err`. -/
  | sent (event : TradeEvent D) (result : Option (ℤ × ℕ))
  /-- A consumer receives a message and begins to process it. -/
  | receive (i : ℕ) (partition : ℤ) (offset : ℕ) (snapshotId : Uuid) (now : Timestamp)
  /-- A later statement of a transaction. -/
  | consumer (a : Server.Action)

/-- The statement opens a transaction. -/
def Consumer.Server.Action.isBegin : Server.Action → Bool
  | .begin .. => true
  | _ => false

/-- The record stands at this offset. -/
def Pipeline.Holds (s : Pipeline) (partition : ℤ) (offset : ℕ) (key : String) : Prop :=
  (s.topic partition)[offset]?.map Record.key = some key

instance (s : Pipeline) (partition : ℤ) (offset : ℕ) (key : String) :
    Decidable (s.Holds partition offset key) := inferInstanceAs (Decidable (_ = _))

/-- One step. The decimals of an event have the values `val`. -/
def Pipeline.step (num : ℚ → Option ℚ) (w : Texts D) (val : D → ℚ) (s : Pipeline) :
    Pipeline.Action D → Option Pipeline
  | .ledger a => do
    let ledger ← s.ledger.step num a
    pure { s with ledger }
  | .append event partition =>
    if event.map val ∈ s.ledger.spawned then
      some { s with
        topic := Function.update s.topic partition
          (s.topic partition ++ [publishRecord w event]) }
    else none
  | .sent event result =>
    if event.map val ∈ s.ledger.spawned ∧
        ∀ r ∈ result, s.Holds r.1 r.2 (publishRecord w event).key then do
      let (publication, _) ← (s.publications event.eventId).sent result.isSome
      pure { s with publications := Function.update s.publications event.eventId publication }
    else none
  | .receive i partition offset snapshotId now => do
    let record ← (s.topic partition)[offset]?
    -- What cannot be read is committed without a transaction.
    let event ← readEvent w record.payload
    let server ← s.server.step num (.begin i (event.map val) ⟨partition, offset, snapshotId, now, none⟩)
    pure { s with server }
  | .consumer a =>
    if a.isBegin then none
    else do
      let server ← s.server.step num a
      pure { s with server }

/-! ### What a step can do -/

inductive Pipeline.Moves (num : ℚ → Option ℚ) (w : Texts D) (val : D → ℚ) (s : Pipeline) :
    Pipeline.Action D → Pipeline → Prop
  | ledger (a : Instance.Action ℚ) (l : Instance ℚ) (hl : s.ledger.step num a = some l) :
      Moves num w val s (.ledger a) { s with ledger := l }
  | append (event : TradeEvent D) (partition : ℤ) (he : event.map val ∈ s.ledger.spawned) :
      Moves num w val s (.append event partition)
        { s with
          topic := Function.update s.topic partition
            (s.topic partition ++ [publishRecord w event]) }
  | sent (event : TradeEvent D) (result : Option (ℤ × ℕ)) (publication : Publication) (backoff : ℕ)
      (he : event.map val ∈ s.ledger.spawned)
      (hr : ∀ r ∈ result, s.Holds r.1 r.2 (publishRecord w event).key)
      (hp : (s.publications event.eventId).sent result.isSome = some (publication, backoff)) :
      Moves num w val s (.sent event result)
        { s with publications := Function.update s.publications event.eventId publication }
  | receive (i : ℕ) (partition : ℤ) (offset : ℕ) (snapshotId : Uuid) (now : Timestamp)
      (record : Record) (event : TradeEvent D) (t : Server)
      (hk : (s.topic partition)[offset]? = some record)
      (hread : readEvent w record.payload = some event)
      (ht : s.server.step num
        (.begin i (event.map val) ⟨partition, offset, snapshotId, now, none⟩) = some t) :
      Moves num w val s (.receive i partition offset snapshotId now) { s with server := t }
  | consumer (a : Server.Action) (t : Server) (ha : a.isBegin = false)
      (ht : s.server.step num a = some t) : Moves num w val s (.consumer a) { s with server := t }

variable {num : ℚ → Option ℚ} {w : Texts D} {val : D → ℚ} {s s' : Pipeline}

theorem Pipeline.step_moves {a : Pipeline.Action D} (hs : s.step num w val a = some s') :
    Pipeline.Moves num w val s a s' := by
  cases a with
  | ledger a =>
    obtain ⟨l, hl, hs⟩ := Option.bind_eq_some_iff.1 hs
    cases hs
    exact .ledger a l hl
  | append event partition =>
    simp only [Pipeline.step] at hs
    split_ifs at hs with he
    cases hs
    exact .append event partition he
  | sent event result =>
    simp only [Pipeline.step] at hs
    split_ifs at hs with he
    obtain ⟨⟨publication, backoff⟩, hp, hs⟩ := Option.bind_eq_some_iff.1 hs
    cases hs
    exact .sent event result publication backoff he.1 he.2 hp
  | receive i partition offset snapshotId now =>
    obtain ⟨record, hk, hs⟩ := Option.bind_eq_some_iff.1 hs
    obtain ⟨event, hread, hs⟩ := Option.bind_eq_some_iff.1 hs
    obtain ⟨t, ht, hs⟩ := Option.bind_eq_some_iff.1 hs
    cases hs
    exact .receive i partition offset snapshotId now record event t hk hread ht
  | consumer a =>
    simp only [Pipeline.step] at hs
    split_ifs at hs with ha
    obtain ⟨t, ht, hs⟩ := Option.bind_eq_some_iff.1 hs
    cases hs
    exact .consumer a t (Bool.eq_false_iff.2 ha) ht

/-! ### What the system keeps -/

/-- The event has been published, and its record stands at this offset. -/
def Pipeline.Stands (w : Texts D) (val : D → ℚ) (s : Pipeline) (partition : ℤ) (offset : ℕ)
    (e : TradeEvent ℚ) : Prop :=
  e ∈ s.ledger.spawned ∧ ∃ event : TradeEvent D, event.map val = e ∧
    (s.topic partition)[offset]? = some (publishRecord w event)

/-- A transaction on the event was begun by a message that still stands where it says. -/
def Pipeline.Read (w : Texts D) (val : D → ℚ) (s : Pipeline) (e : TradeEvent ℚ) (d : Delivery) :
    Prop :=
  ∃ offset : ℕ, d.kafkaOffset = offset ∧ s.Stands w val d.kafkaPartition offset e

structure Pipeline.Carries (w : Texts D) (val : D → ℚ) (s : Pipeline) : Prop where
  /-- The topic holds the records of published events, and no others. -/
  topic : ∀ partition, ∀ record ∈ s.topic partition, ∃ event : TradeEvent D,
    event.map val ∈ s.ledger.spawned ∧ record = publishRecord w event
  published : ∀ id, s.publications id = .published →
    ∃ e partition offset, e.eventId = id ∧ s.Stands w val partition offset e
  txs : ∀ i tx, s.server.txs i = some tx → s.Read w val tx.event tx.delivery
  log : ∀ c ∈ s.server.log, s.Read w val c.1 c.2

theorem Pipeline.carries_init : Pipeline.init.Carries w val where
  topic partition record h := by cases h
  published id h := by cases h
  txs i tx h := by cases h
  log c hc := by cases hc

theorem Pipeline.Stands.mono {partition : ℤ} {offset : ℕ} {e : TradeEvent ℚ}
    (h : s.Stands w val partition offset e) (hspawned : s.ledger.spawned ⊆ s'.ledger.spawned)
    (htopic : ∀ p, s.topic p <+: s'.topic p) : s'.Stands w val partition offset e := by
  obtain ⟨hmem, event, he, hk⟩ := h
  refine ⟨hspawned hmem, event, he, ?_⟩
  obtain ⟨more, hmore⟩ := htopic partition
  rw [← hmore, List.getElem?_append_left (List.getElem?_eq_some_iff.1 hk).1]
  exact hk

theorem Pipeline.Read.mono {e : TradeEvent ℚ} {d : Delivery} (h : s.Read w val e d)
    (hspawned : s.ledger.spawned ⊆ s'.ledger.spawned) (htopic : ∀ p, s.topic p <+: s'.topic p) :
    s'.Read w val e d := by
  obtain ⟨offset, hd, hstands⟩ := h
  exact ⟨offset, hd, hstands.mono hspawned htopic⟩

/-- The record with the key of a published event is one of this event. -/
theorem Pipeline.Carries.stands (h : s.Carries w val) (hl : s.ledger.Published) {event : TradeEvent D}
    (he : event.map val ∈ s.ledger.spawned) {partition : ℤ} {offset : ℕ}
    (hk : s.Holds partition offset (publishRecord w event).key) :
    s.Stands w val partition offset (event.map val) := by
  obtain ⟨record, hrecord, hkey⟩ := Option.map_eq_some_iff.1 hk
  obtain ⟨event', he', rfl⟩ := h.topic partition record (List.mem_of_getElem? hrecord)
  have hid : event'.tradeId = event.tradeId :=
    w.uuid.write_injective (congrArg Json.string hkey)
  refine ⟨he, event', ?_, hrecord⟩
  exact List.inj_on_of_nodup_map hl.trade_nodup he' he hid

/-- A step that leaves the consumer alone and neither removes nor moves a record. -/
theorem Pipeline.Carries.keep (h : s.Carries w val)
    (hspawned : s.ledger.spawned ⊆ s'.ledger.spawned) (htopic : ∀ p, s.topic p <+: s'.topic p)
    (hrecords : ∀ partition, ∀ record ∈ s'.topic partition, record ∈ s.topic partition ∨
      ∃ event : TradeEvent D, event.map val ∈ s'.ledger.spawned ∧ record = publishRecord w event)
    (hpublished : ∀ id, s'.publications id = .published → s.publications id = .published ∨
      ∃ e partition offset, e.eventId = id ∧ s'.Stands w val partition offset e)
    (hserver : s'.server = s.server) : s'.Carries w val where
  topic partition record hrecord := by
    rcases hrecords partition record hrecord with hold | hnew
    · obtain ⟨event, he, hrec⟩ := h.topic partition record hold
      exact ⟨event, hspawned he, hrec⟩
    · exact hnew
  published id hid := by
    rcases hpublished id hid with hold | hnew
    · obtain ⟨e, partition, offset, he, hstands⟩ := h.published id hold
      exact ⟨e, partition, offset, he, hstands.mono hspawned htopic⟩
    · exact hnew
  txs i tx htx := by
    rw [hserver] at htx
    exact (h.txs i tx htx).mono hspawned htopic
  log c hc := by
    rw [hserver] at hc
    exact (h.log c hc).mono hspawned htopic

/-- A statement of the consumer on events that stand on the topic. -/
theorem Pipeline.Carries.consume (h : s.Carries w val) {a : Server.Action} {t : Server}
    (hcur : s.server.Current num) (ht : s.server.step num a = some t)
    (ha : ∀ i event d, a = .begin i event d → s.Read w val event d) :
    Pipeline.Carries w val { s with server := t } where
  topic := h.topic
  published := h.published
  txs i tx htx := by
    rcases Consumer.step_event ht htx with ⟨tx', htx', he, hd⟩ | ⟨event, d, hbegin, he, hd⟩
    · rw [he, hd]
      exact h.txs i tx' htx'
    · rw [he, hd]
      exact ha i event d hbegin
  log c hc := by
    rcases (hcur.step ht).2 with ⟨-, -, hlog⟩ | ⟨i, tx, -, htx, hlog, -⟩
    · rw [hlog] at hc
      exact h.log c hc
    · rw [hlog] at hc
      rcases List.mem_append.1 hc with hc | hc
      · exact h.log c hc
      · rw [List.mem_singleton.1 hc]
        exact h.txs i tx htx

/-- What every run keeps. -/
structure Pipeline.Inv (num : ℚ → Option ℚ) (w : Texts D) (val : D → ℚ) (s : Pipeline) : Prop where
  ledger : s.ledger.Inv num
  publishes : s.ledger.Published
  told : s.ledger.Told num
  current : s.server.Current num
  history : Consumer.History num s.server.log s.server.db
  carries : s.Carries w val

theorem Pipeline.inv_init : Pipeline.init.Inv num w val where
  ledger := Instance.inv_init
  publishes := Instance.published_init
  told := Instance.told_init
  current := Consumer.Server.current_init
  history := .empty
  carries := Pipeline.carries_init

/-- A statement of the consumer keeps the tables the history of its commits. -/
theorem Pipeline.Inv.consume (h : s.Inv num w val) {a : Server.Action} {t : Server}
    (ht : s.server.step num a = some t)
    (ha : ∀ i event d, a = .begin i event d → s.Read w val event d) :
    Pipeline.Inv num w val { s with server := t } where
  ledger := h.ledger
  publishes := h.publishes
  told := h.told
  current := (h.current.step ht).1
  history := by
    rcases (h.current.step ht).2 with ⟨-, hdb, hlog⟩ | ⟨i, tx, -, -, hlog, hrec⟩
    · rw [hdb, hlog]
      exact h.history
    · rw [hlog]
      exact .commit h.history hrec
  carries := h.carries.consume h.current ht ha

theorem Pipeline.Inv.step {a : Pipeline.Action D} (h : s.Inv num w val)
    (hs : s.step num w val a = some s') : s'.Inv num w val := by
  cases Pipeline.step_moves hs with
  | ledger a l hl =>
    refine ⟨h.ledger.step hl, h.publishes.step h.ledger hl, h.told.step h.ledger hl, h.current,
      h.history, h.carries.keep (h.ledger.grows hl).spawned (fun _ => List.prefix_refl _)
        (fun _ _ hr => .inl hr) (fun _ hid => .inl hid) rfl⟩
  | append event partition he =>
    refine ⟨h.ledger, h.publishes, h.told, h.current, h.history, h.carries.keep
      (List.Subset.refl _) (fun p => ?_) (fun p record hrecord => ?_) (fun _ hid => .inl hid) rfl⟩
    · by_cases hp : p = partition
      · subst hp
        simp
      · simp [Function.update_of_ne hp]
    · by_cases hp : p = partition
      · subst hp
        simp only [Function.update_self, List.mem_append, List.mem_singleton] at hrecord
        rcases hrecord with hrecord | rfl
        · exact .inl hrecord
        · exact .inr ⟨event, he, rfl⟩
      · simp only [Function.update_of_ne hp] at hrecord
        exact .inl hrecord
  | sent event result publication backoff he hr hp =>
    refine ⟨h.ledger, h.publishes, h.told, h.current, h.history, h.carries.keep
      (List.Subset.refl _) (fun _ => List.prefix_refl _) (fun _ _ hr => .inl hr)
      (fun id hid => ?_) rfl⟩
    by_cases hid' : id = event.eventId
    · subst hid'
      simp only [Function.update_self] at hid
      subst hid
      cases result with
      | none => exact absurd hp (Publication.sent_false_ne _ _)
      | some r => exact .inr ⟨_, r.1, r.2, rfl, h.carries.stands h.publishes he (hr r rfl)⟩
    · simp only [Function.update_of_ne hid'] at hid
      exact .inl hid
  | receive i partition offset snapshotId now record event t hk hread ht =>
    refine h.consume ht fun i' e d hbegin => ?_
    cases hbegin
    -- What the consumer reads from the topic is what somebody has published.
    obtain ⟨event', he', rfl⟩ := h.carries.topic partition record (List.mem_of_getElem? hk)
    rw [publishRecord_reads] at hread
    cases hread
    exact ⟨offset, rfl, he', _, rfl, hk⟩
  | consumer a t ha ht =>
    refine h.consume ht fun i e d hbegin => ?_
    rw [hbegin] at ha
    cases ha

/-! ### Over the runs -/

/-- What holds in every state of the system. -/
structure Pipeline.Sound (num : ℚ → Option ℚ) (w : Texts D) (val : D → ℚ) (s : Pipeline) : Prop where
  /-- Every record is read as the event of a stored trade whose call has returned `Ok`. -/
  topic : ∀ partition, ∀ record ∈ s.topic partition, ∃ event, readEvent w record.payload = some event ∧
    ∃ t, s.ledger.Backs num t (event.map val)
  /-- The consumer has committed such events, at most one for each trade. -/
  committed : ∀ c ∈ s.server.log, ∃ t, s.ledger.Backs num t c.1
  once : (s.server.log.map fun c => c.1.tradeId).Nodup
  /-- `processed_events` says for each of them where it stands. -/
  processed : ∀ row ∈ s.server.db.processedEvents, ∃ (offset : ℕ) (record : Record) (event : TradeEvent D),
    row.kafkaOffset = offset ∧ (s.topic row.kafkaPartition)[offset]? = some record ∧
      readEvent w record.payload = some event ∧ event.eventId = row.eventId ∧
      event.map val ∈ s.server.log.map Prod.fst

theorem Consumer.History.processedEvents {log : List (TradeEvent ℚ × Delivery)} {db : Consumer.Db}
    (h : Consumer.History num log db) : db.processedEvents =
      log.map fun c => Consumer.claimRow c.1 c.2.kafkaPartition c.2.kafkaOffset c.2.now := by
  induction h with
  | empty => rfl
  | commit _ hrec ih =>
    obtain ⟨-, -, _, _, _, _, -, -, -, rfl⟩ := hrec
    rw [List.map_append, ← ih]
    rfl

theorem Pipeline.Inv.sound (h : s.Inv num w val) : s.Sound num w val := by
  have hmem : ∀ c ∈ s.server.log, c.1 ∈ s.ledger.spawned := by
    intro c hc
    obtain ⟨_, -, he, -⟩ := h.carries.log c hc
    exact he
  refine ⟨fun partition record hrecord => ?_, fun c hc => h.told.event c.1 (hmem c hc), ?_,
    fun row hrow => ?_⟩
  · obtain ⟨event, he, rfl⟩ := h.carries.topic partition record hrecord
    exact ⟨event, publishRecord_reads w event, h.told.event _ he⟩
  · -- Published events with one trade id are one event, and that is committed once.
    refine List.Nodup.map_on (fun c hc c' hc' heq => ?_) (List.Nodup.of_map _ h.history.nodup)
    have hevent := List.inj_on_of_nodup_map h.publishes.trade_nodup (hmem c hc) (hmem c' hc') heq
    exact List.inj_on_of_nodup_map h.history.nodup hc hc' (congrArg TradeEvent.eventId hevent)
  · rw [h.history.processedEvents] at hrow
    obtain ⟨c, hc, rfl⟩ := List.mem_map.1 hrow
    obtain ⟨offset, hd, -, event, he, hk⟩ := h.carries.log c hc
    refine ⟨offset, _, event, hd, hk, publishRecord_reads w event, ?_, ?_⟩
    · exact congrArg TradeEvent.eventId he
    · rw [he]
      exact List.mem_map_of_mem hc

theorem Pipeline.run_inv {actions : List (Pipeline.Action D)}
    (hs : run (Pipeline.step num w val) Pipeline.init actions = some s) : s.Inv num w val :=
  run_invariant (Pipeline.Inv num w val) (fun _ _ _ h ht => h.step ht) Pipeline.inv_init hs

/-- The `send` of a call for this event returns. -/
def Pipeline.Action.returns (id : Uuid) : Pipeline.Action D → Bool
  | .sent event _ => decide (event.eventId = id)
  | _ => false

theorem Pipeline.valid_step {a : Pipeline.Action D} (h : ∀ id, (s.publications id).Valid)
    (hs : s.step num w val a = some s') : ∀ id, (s'.publications id).Valid := by
  cases Pipeline.step_moves hs with
  | sent event result publication backoff he hr hp =>
    exact (Function.forall_update_iff s.publications fun _ p => p.Valid).2
      ⟨(Publication.sent_left (h event.eventId) hp).1, fun id _ => h id⟩
  | _ => exact h

theorem Pipeline.left_step (id : Uuid) {a : Pipeline.Action D} (h : ∀ id, (s.publications id).Valid)
    (hs : s.step num w val a = some s') :
    (if a.returns id then 1 else 0) + (s'.publications id).left ≤ (s.publications id).left := by
  cases Pipeline.step_moves hs with
  | sent event result publication backoff he hr hp =>
    by_cases hid : event.eventId = id
    · subst hid
      simpa [Pipeline.Action.returns] using (Publication.sent_left (h event.eventId) hp).2
    · simp [Pipeline.Action.returns, hid, Function.update_of_ne (Ne.symm hid)]
  | _ => simp [Pipeline.Action.returns]

/-- **What is published is carried over, and nothing else.** In every run of the ledger, the producer,
the topic and the consumers, whatever is sent twice, lost, received late or several times: the topic holds
events of stored trades only, the consumer has committed such events, no trade twice, `processed_events`
says where each of them stands, and no event is sent more than three times. -/
theorem run_carried (num : ℚ → Option ℚ) (w : Texts D) (val : D → ℚ)
    (actions : List (Pipeline.Action D)) (s : Pipeline)
    (hs : run (Pipeline.step num w val) Pipeline.init actions = some s) :
    s.Sound num w val ∧ ∀ id, actions.countP (Pipeline.Action.returns id) ≤ maxRetries := by
  refine ⟨(Pipeline.run_inv hs).sound, fun id => ?_⟩
  have hvalid : ∀ id, (Pipeline.init.publications id).Valid := fun _ => ⟨le_refl 1, by decide⟩
  have hcount := countP_add_measure_le (fun s : Pipeline => ∀ id, (s.publications id).Valid)
    (fun _ _ _ h ht => Pipeline.valid_step h ht) (fun _ _ _ h ht => Pipeline.left_step id h ht) hvalid hs
  exact (Nat.le_add_right _ _).trans hcount

/-- The event of one BTC bought at 100. -/
def boughtBtc : TradeEvent FixedPoint where
  eventId := 1
  eventType := "trade_created"
  tradeId := 0
  asset := "BTC"
  quantity := ⟨10, 1⟩
  price := ⟨100, 0⟩
  side := "buy"
  notionalValue := ⟨1000, 1⟩
  realizedPnl := ⟨0, 0⟩
  timestamp := 0
  publishedAt := 5

/-- The event of 0.4 BTC sold at 150. -/
def soldBtc : TradeEvent FixedPoint :=
  { boughtBtc with
    eventId := 4, tradeId := 2, quantity := ⟨4, 1⟩, price := ⟨150, 0⟩, side := "sell"
    notionalValue := ⟨600, 1⟩, realizedPnl := ⟨200, 1⟩, publishedAt := 6 }

/-- The event of three ETH bought at 10. -/
def boughtEth : TradeEvent FixedPoint :=
  { boughtBtc with
    eventId := 5, tradeId := 3, asset := "ETH", quantity := ⟨3, 0⟩, price := ⟨10, 0⟩
    notionalValue := ⟨30, 0⟩, publishedAt := 7 }

/-- The statements of a transaction after its begin, from the claim to the commit. -/
def transact (i : ℕ) : List (Pipeline.Action FixedPoint) :=
  [.consumer (.claim i), .consumer (.upsert i), .consumer (.select i), .consumer (.save i),
    .consumer (.snapshot i), .consumer (.commit i)]

/-- BTC is bought, then sold while ETH is bought. The first send of the first event fails after the
record was appended; the consumers read the record of the second, the two other events at the same time,
and the first record last. -/
def sentTwice : List (Pipeline.Action FixedPoint) :=
  [.ledger (.start sampleRequest 0), .ledger (.save 0), .ledger (.respond 0 5),
    .ledger (.start { sampleRequest with quantity := 2 / 5, price := 150, side := .sell } 0),
    .ledger (.start { sampleRequest with asset := "ETH", quantity := 3, price := 10 } 0),
    .ledger (.save 3), .ledger (.save 2), .ledger (.respond 2 6), .ledger (.respond 3 7),
    .append boughtBtc 0, .sent boughtBtc none, .append boughtBtc 0, .sent boughtBtc (some (0, 1)),
    .append soldBtc 0, .append boughtEth 1, .sent boughtEth (some (1, 0)), .sent soldBtc (some (0, 2)),
    .receive 0 0 1 7 8] ++ transact 0 ++
  [.receive 0 0 2 8 9, .receive 1 1 0 9 10] ++ transact 1 ++ transact 0 ++
  [.receive 0 0 0 10 11, .consumer (.claim 0), .consumer (.rollback 0)]

theorem run_carried_sentTwice : ∃ s,
    run (Pipeline.step numericColumn fixedPointTexts FixedPoint.value) Pipeline.init sentTwice = some s ∧
    s.server.log.length = 3 ∧ s.Sound numericColumn fixedPointTexts FixedPoint.value ∧
    ∀ id, sentTwice.countP (Pipeline.Action.returns id) ≤ maxRetries := by
  have hview : (run (Pipeline.step numericColumn fixedPointTexts FixedPoint.value) Pipeline.init
      sentTwice).map (fun s => s.server.log.length) = some 3 := by decide +kernel
  obtain ⟨s, hs, hlength⟩ := Option.map_eq_some_iff.1 hview
  exact ⟨s, hs, hlength, run_carried numericColumn fixedPointTexts FixedPoint.value sentTwice s hs⟩

end CryptoAccounting

import CryptoAccounting.Domain.Exact
import CryptoAccounting.Lib.DecimalText
import CryptoAccounting.Lib.Json

/-!
# The documents the services exchange

The ledger writes a `TradeEvent` as a JSON object into a Kafka message, and the consumer reads it into
a struct of its own. The consumer writes the lots of a position into a JSONB column, which it and the
gRPC service read. The structs are declared three times; what one writes the other reads back
(`readEvent_eventJson`, `readLots_jsonb`), in whatever order the members come and whatever else there is
beside them, and what is read has each field exactly once (`readEvent_iff`).

The text of a decimal, a UUID or a time is that of its crate; all three are written as strings.
-/

namespace CryptoAccounting

open Json

variable {D : Type}

/-- How the crates write decimals, UUIDs and times. -/
structure Texts (D : Type) where
  decimal : TextCodec D
  uuid : TextCodec Uuid
  time : TextCodec Timestamp

/-- Fixed-point texts; identifiers and times are whole numbers. -/
def fixedPointTexts : Texts FixedPoint where
  decimal :=
    { print := FixedPoint.print
      read := fun
        | .string s => FixedPoint.parse s
        | _ => none
      read_print := FixedPoint.parse_print }
  uuid :=
    { print := fun n => FixedPoint.print ⟨n, 0⟩
      read := fun
        | .string s => (FixedPoint.parse s).map fun x => x.mantissa.toNat
        | _ => none
      read_print := fun n => by simp [FixedPoint.parse_print] }
  time :=
    { print := fun t => FixedPoint.print ⟨t, 0⟩
      read := fun
        | .string s => (FixedPoint.parse s).map FixedPoint.mantissa
        | _ => none
      read_print := fun t => by simp [FixedPoint.parse_print] }

/-! ### Events -/

/-- The fields of the producer's `TradeEvent`. -/
def Ledger.eventFields : List String :=
  ["event_id", "event_type", "trade_id", "asset", "quantity", "price", "side", "notional_value",
    "realized_pnl", "timestamp", "published_at"]

/-- The values of the fields of an event. -/
def Ledger.eventValues (w : Texts D) (e : TradeEvent D) : List Json :=
  [w.uuid.write e.eventId, text.write e.eventType, w.uuid.write e.tradeId, text.write e.asset,
    w.decimal.write e.quantity, w.decimal.write e.price, text.write e.side,
    w.decimal.write e.notionalValue, w.decimal.write e.realizedPnl, w.time.write e.timestamp,
    w.time.write e.publishedAt]

/-- The document `publish_trade_created` sends. -/
def Ledger.eventJson (w : Texts D) (e : TradeEvent D) : Json :=
  record Ledger.eventFields (Ledger.eventValues w e)

/-- The fields of the consumer's `TradeEvent`. -/
def Consumer.eventFields : List String :=
  ["event_id", "event_type", "trade_id", "asset", "quantity", "price", "side", "notional_value",
    "realized_pnl", "timestamp", "published_at"]

/-- An event from the values of its fields. -/
def Consumer.eventOfFields (w : Texts D) : List Json → Option (TradeEvent D)
  | [eventId, eventType, tradeId, asset, quantity, price, side, notionalValue, realizedPnl, timestamp,
      publishedAt] => do
    let eventId ← w.uuid.read eventId
    let eventType ← text.read eventType
    let tradeId ← w.uuid.read tradeId
    let asset ← text.read asset
    let quantity ← w.decimal.read quantity
    let price ← w.decimal.read price
    let side ← text.read side
    let notionalValue ← w.decimal.read notionalValue
    let realizedPnl ← w.decimal.read realizedPnl
    let timestamp ← w.time.read timestamp
    let publishedAt ← w.time.read publishedAt
    pure { eventId, eventType, tradeId, asset, quantity, price, side, notionalValue, realizedPnl,
           timestamp, publishedAt }
  | _ => none

/-- The consumer reads a message as a `TradeEvent`; what it cannot read is a poison pill. -/
def Consumer.readEvent (w : Texts D) (doc : Json) : Option (TradeEvent D) :=
  fields Consumer.eventFields doc >>= Consumer.eventOfFields w

theorem eventFields_nodup : Consumer.eventFields.Nodup := by decide

theorem length_of_eventOfFields {w : Texts D} {values : List Json} {e : TradeEvent D}
    (h : Consumer.eventOfFields w values = some e) : values.length = Consumer.eventFields.length := by
  unfold Consumer.eventOfFields at h
  split at h
  · rfl
  · cases h

/-- **Accepted messages.** An object is read as an event exactly when its known members are the eleven
fields, each once, in any order, with values that are read as those of the event. -/
theorem readEvent_iff (w : Texts D) (members : List (String × Json)) (e : TradeEvent D) :
    Consumer.readEvent w (.object members) = some e ↔
      ∃ values, Consumer.eventOfFields w values = some e ∧
        (known Consumer.eventFields members).Perm (Consumer.eventFields.zip values) := by
  unfold Consumer.readEvent
  rw [Option.bind_eq_bind, Option.bind_eq_some_iff]
  refine exists_congr fun values => ?_
  rw [fields_object_iff eventFields_nodup, and_comm]
  refine and_congr_right fun h => ?_
  exact and_iff_right (length_of_eventOfFields h)

/-- What the ledger writes, the consumer reads back, also after the members have been reordered and
members with other names have been added. -/
theorem readEvent_eventJson (w : Texts D) (e : TradeEvent D) {members : List (String × Json)}
    (h : (known Ledger.eventFields members).Perm
      (Ledger.eventFields.zip (Ledger.eventValues w e))) :
    Consumer.readEvent w (.object members) = some e := by
  refine (readEvent_iff w members e).2 ⟨Ledger.eventValues w e, ?_, h⟩
  simp [Consumer.eventOfFields, Ledger.eventValues]

/-! ### Lots -/

/-- The fields of the consumer's `Lot`. -/
def Consumer.lotFields : List String := ["quantity", "cost_per_unit"]

/-- The value `save_portfolio` writes into the column `lots`. -/
def Consumer.lotsJson (w : Texts D) (lots : List (Lot D)) : Json :=
  .array (lots.map fun l =>
    record Consumer.lotFields [w.decimal.write l.quantity, w.decimal.write l.costPerUnit])

/-- The fields of the gRPC service's `LotJson`. -/
def Grpc.lotFields : List String := ["quantity", "cost_per_unit"]

/-- A lot from the values of its fields. -/
def lotOfFields (w : Texts D) : List Json → Option (Lot D)
  | [quantity, costPerUnit] => do
    let quantity ← w.decimal.read quantity
    let costPerUnit ← w.decimal.read costPerUnit
    pure { quantity, costPerUnit }
  | _ => none

/-- `serde_json::from_value` for a queue of lots whose struct has these fields. -/
def readLots (w : Texts D) (lotFields : List String) : Json → Option (List (Lot D))
  | .array items => items.mapM fun item => fields lotFields item >>= lotOfFields w
  | _ => none

theorem jsonb_write {α : Type} (c : TextCodec α) (a : α) : jsonb (c.write a) = c.write a :=
  jsonb_string _

/-- **Lots survive the column**: both readers get back what `save_portfolio` has written. -/
theorem readLots_jsonb (w : Texts D) (lots : List (Lot D)) :
    readLots w Consumer.lotFields (jsonb (Consumer.lotsJson w lots)) = some lots ∧
      readLots w Grpc.lotFields (jsonb (Consumer.lotsJson w lots)) = some lots := by
  have hread : ∀ lots : List (Lot D), (lots.map fun l => jsonb (record Consumer.lotFields
      [w.decimal.write l.quantity, w.decimal.write l.costPerUnit])).mapM
        (fun item => fields Consumer.lotFields item >>= lotOfFields w) = some lots := by
    intro lots
    induction lots with
    | nil => rfl
    | cons l lots ih =>
      rw [List.map_cons, List.mapM_cons, fields_jsonb_record (by decide) rfl, ih]
      simp [lotOfFields, jsonb_write]
  unfold Consumer.lotsJson
  rw [jsonb_array, List.map_map]
  exact ⟨hread lots, hread lots⟩

end CryptoAccounting

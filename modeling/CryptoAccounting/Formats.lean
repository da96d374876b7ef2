import CryptoAccounting.Ledger.Http

/-!
# What the services read

The documents that go from one service to another and the bodies that clients send: what is written is
read back, the order of the members and members with other names do not matter, and what is accepted has
each required field exactly once (`wire_formats`).
-/

namespace CryptoAccounting

open Json

variable {D : Type} {w : Texts D}

/-- The fields of a `TradeRequest`. -/
def Ledger.requestFields : List String := ["asset", "quantity", "price", "side", "timestamp"]

/-- Those that must be there. -/
def Ledger.requiredFields : List String := ["asset", "quantity", "price", "side"]

/-- A request is read by its known members. -/
theorem readTradeRequest_of_known_perm {members members' : List (String × Json)}
    (h : (known Ledger.requestFields members).Perm (known Ledger.requestFields members')) :
    Ledger.readTradeRequest w (.object members) = Ledger.readTradeRequest w (.object members') := by
  have hmember : ∀ name ∈ Ledger.requestFields, member members name = member members' name :=
    fun name hname => member_of_known_perm hname h
  have htimestamp : optionalMember members "timestamp" = optionalMember members' "timestamp" :=
    optionalMember_of_known_perm (by decide) h
  unfold Ledger.readTradeRequest
  simp only [hmember "asset" (by decide), hmember "quantity" (by decide), hmember "price" (by decide),
    hmember "side" (by decide), htimestamp]

/-- A request that is accepted has its required fields, each once. -/
theorem member_of_readTradeRequest {members : List (String × Json)} {r : Ledger.TradeRequest D}
    (h : Ledger.readTradeRequest w (.object members) = some r) :
    ∀ name ∈ Ledger.requiredFields, (member members name).isSome := by
  unfold Ledger.readTradeRequest at h
  obtain ⟨asset, hasset, h⟩ := Option.bind_eq_some_iff.1 h
  obtain ⟨quantity, hquantity, h⟩ := Option.bind_eq_some_iff.1 h
  obtain ⟨price, hprice, h⟩ := Option.bind_eq_some_iff.1 h
  obtain ⟨side, hside, h⟩ := Option.bind_eq_some_iff.1 h
  simp [Ledger.requiredFields, hasset, hquantity, hprice, hside]

/-- **What is written is read back, and what is read is well formed.** An event that the ledger writes is
what the consumer reads, also after its members were reordered and others were added, and a document with
a field missing or twice is never read as an event; lots survive the column for both of their readers; a
request depends on its known members only, in any order, and has each required field exactly once. -/
theorem wire_formats (w : Texts D) :
    (∀ e members, (known Ledger.eventFields members).Perm
        (Ledger.eventFields.zip (Ledger.eventValues w e)) →
      Consumer.readEvent w (.object members) = some e) ∧
    (∀ members e, Consumer.readEvent w (.object members) = some e →
      ((known Consumer.eventFields members).map Prod.fst).Perm Consumer.eventFields) ∧
    (∀ lots, readLots w Consumer.lotFields (jsonb (Consumer.lotsJson w lots)) = some lots ∧
      readLots w Grpc.lotFields (jsonb (Consumer.lotsJson w lots)) = some lots) ∧
    (∀ members members', (known Ledger.requestFields members).Perm
        (known Ledger.requestFields members') →
      Ledger.readTradeRequest w (.object members) = Ledger.readTradeRequest w (.object members')) ∧
    ∀ members r, Ledger.readTradeRequest w (.object members) = some r →
      ∀ name ∈ Ledger.requiredFields, ∃ v, (members.filter fun m => m.1 = name) = [(name, v)] := by
  refine ⟨fun e members => readEvent_eventJson w e, fun members e h => ?_, readLots_jsonb w,
    fun members members' => readTradeRequest_of_known_perm, fun members r h name hname => ?_⟩
  · obtain ⟨values, hvalues, hperm⟩ := (readEvent_iff w members e).1 h
    have hnames := hperm.map Prod.fst
    rwa [List.map_fst_zip (length_of_eventOfFields hvalues).ge] at hnames
  · obtain ⟨v, hv⟩ := Option.isSome_iff_exists.1 (member_of_readTradeRequest h name hname)
    exact ⟨v, member_eq_some_iff.1 hv⟩

end CryptoAccounting

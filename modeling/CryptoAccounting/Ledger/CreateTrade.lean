import CryptoAccounting.Ledger.Repository
import CryptoAccounting.Ledger.Run
import CryptoAccounting.Ledger.Services
import CryptoAccounting.Lib.Tables
import CryptoAccounting.Lib.Transition

/-!
# Concurrent trade creation

`CreateTradeService::execute` with a repository, called by any number of handlers at once. Up to the
insert a call runs without an await point: it validates, takes the write lock, applies the trade and
sums its events. Then it awaits `save_trade`, where other calls go on, the insert may fail, and the
router's timeout may drop the handler. The system is the same over every kind of decimals: an operator
that panics under the lock poisons it, and in exact arithmetic none does. `allOrNothing_iff_completes`
says exactly when memory and database agree once all calls are over.
-/

namespace CryptoAccounting
namespace Ledger

open Tables Transition

variable {D : Type}

/-! ### The system -/

/-- A call that awaits `save_trade`. -/
structure Call (D : Type) where
  trade : Trade D
  notionalValue : D
  realizedPnl : D
  /-- The insert has taken effect; its result is still under way. -/
  written : Bool

/-- How a call ended that was answered or dropped. -/
inductive Ending
  | ok
  | err
  | cancelled
  deriving DecidableEq, Repr

/-- One ledger instance with its database. -/
structure Instance (D : Type) where
  portfolio : Portfolio D
  poisoned : Bool
  trades : List (TradeRow D)
  calls : Uuid → Option (Call D)
  /-- The trades that were applied, in order. -/
  applied : List (Trade D)
  /-- The trades whose calls are over. -/
  ended : List (Trade D × Ending)
  /-- The events handed to the producer. -/
  spawned : List (TradeEvent D)
  /-- The next result of `Uuid::new_v4`. -/
  nextId : Uuid

def Instance.init [Zero D] : Instance D where
  portfolio := Portfolio.new
  poisoned := false
  trades := []
  calls := fun _ => none
  applied := []
  ended := []
  spawned := []
  nextId := 0

inductive Instance.Action (D : Type)
  /-- A call runs up to its await point, or ends before it. -/
  | start (req : TradeRequest D) (now : Timestamp)
  /-- The insert of a call is carried out. -/
  | save (id : Uuid)
  /-- `save_trade` fails without writing a row. -/
  | saveFails (id : Uuid)
  /-- The call sees that the insert succeeded, responds and spawns the publication. -/
  | respond (id : Uuid) (now : Timestamp)
  /-- The handler future is dropped at its await point. -/
  | cancel (id : Uuid)

/-- The call is over. -/
def Instance.finish (s : Instance D) (call : Call D) (ending : Ending) : Instance D :=
  { s with
    calls := Function.update s.calls call.trade.id none
    ended := s.ended ++ [(call.trade, ending)] }

variable [LinearOrder D] [Zero D] [DecimalOps D]

/-- One step. -/
def Instance.step (num : D → Option D) (s : Instance D) : Instance.Action D → Option (Instance D)
  | .start req now =>
    match CreateTrade.prepare req s.nextId now with
    -- `notional_value` panics before the lock is taken.
    | .error _ => some { s with nextId := s.nextId + 1 }
    | .ok (.error _) => some { s with nextId := s.nextId + 1 }
    | .ok (.ok (trade, notionalValue)) =>
      if s.poisoned then some { s with nextId := s.nextId + 1 }
      else
        match CreateTrade.applyLocked s.portfolio trade with
        -- Nobody can look at the portfolio of a poisoned lock any more.
        | .error _ => some { s with poisoned := true, nextId := s.nextId + 1 }
        | .ok (.error _, portfolio) =>
          some { s with
            portfolio
            ended := s.ended ++ [(trade, .err)]
            nextId := s.nextId + 1 }
        | .ok (.ok realizedPnl, portfolio) =>
          some { s with
            portfolio
            calls := Function.update s.calls trade.id
              (some { trade, notionalValue, realizedPnl, written := false })
            applied := s.applied ++ [trade]
            nextId := s.nextId + 1 }
  | .save id => do
    let call ← s.calls id
    if call.written then none
    else
      match TradeRow.ofTrade num call.trade with
      | none => some (s.finish call .err)
      | some row =>
        some { s with
          trades := insertTrade s.trades row
          calls := Function.update s.calls id (some { call with written := true }) }
  | .saveFails id => do
    let call ← s.calls id
    if call.written then none else some (s.finish call .err)
  | .respond id now => do
    let call ← s.calls id
    if call.written then
      let response := CreateTrade.respond call.trade call.notionalValue call.realizedPnl
      some { s.finish call .ok with
        spawned := s.spawned ++ [fromResponse response s.nextId now]
        nextId := s.nextId + 1 }
    else none
  | .cancel id => do
    let call ← s.calls id
    some (s.finish call .cancelled)

/-- No call is under way. -/
def Instance.Quiescent (s : Instance D) : Prop := ∀ id, s.calls id = none

/-- Apply trades one after the other, whatever their results. -/
def Portfolio.applyEach (p : Portfolio D) : List (Trade D) → Except Panic (Portfolio D)
  | [] => .ok p
  | t :: ts => do
    let (_, p) ← p.applyTrade t
    p.applyEach ts

/-- Memory and database agree: every applied trade has its row and there are no others, the calls
that returned `Ok` are among them and those that returned `Err` are not, and the portfolio, which no
panic has left halfway, is what the trades with a row make of an empty one. -/
structure Instance.AllOrNothing (s : Instance D) : Prop where
  rows : (s.trades : Multiset (TradeRow D)) = (s.applied.map TradeRow.exact : List (TradeRow D))
  ok : ∀ t, (t, Ending.ok) ∈ s.ended → t ∈ s.applied
  err : ∀ t, (t, Ending.err) ∈ s.ended → t ∉ s.applied
  whole : s.poisoned = false
  portfolio : Portfolio.new.applyEach
    (s.applied.filter fun t => t.id ∈ s.trades.map TradeRow.id) = .ok s.portfolio

/-- The step does not part the two: no save fails, no call is dropped before its insert, and the
columns take a saved trade as it is. -/
def Completes (num : D → Option D) (s : Instance D) : Instance.Action D → Prop
  | .start _ _ => True
  | .save id => ∀ call, s.calls id = some call → StoredExactly num call.trade
  | .saveFails _ => False
  | .respond _ _ => True
  | .cancel id => ∀ call, s.calls id = some call → call.written = true

/-! ### A call up to its await point -/

/-- A request that becomes a trade: its asset is not blank, quantity and price are positive. -/
def TradeRequest.Valid (req : TradeRequest D) : Prop :=
  isBlank req.asset = false ∧ 0 < req.quantity ∧ 0 < req.price

instance (req : TradeRequest D) : Decidable req.Valid := inferInstanceAs (Decidable (_ ∧ _ ∧ _))

/-- The trade of a request. -/
def TradeRequest.toTrade (req : TradeRequest D) (id : Uuid) (now : Timestamp) : Trade D :=
  ⟨id, req.asset, req.quantity, req.price, req.timestamp.getD now, req.side⟩

omit [DecimalOps D] in
theorem TradeRequest.Valid.built {req : TradeRequest D} (h : req.Valid) (id : Uuid)
    (now : Timestamp) : Trade.new id req.asset req.quantity req.price (req.timestamp.getD now)
      req.side = .ok (req.toTrade id now) := by
  unfold Trade.new
  rw [if_neg (not_le.2 h.2.1), if_neg (not_le.2 h.2.2)]
  rfl

/-- A valid request becomes its trade, unless the notional value overflows. -/
theorem prepare_of_valid {req : TradeRequest D} (h : req.Valid) (id : Uuid) (now : Timestamp) :
    CreateTrade.prepare req id now = (DecimalOps.mul req.quantity req.price).map fun notionalValue =>
      .ok (req.toTrade id now, notionalValue) := by
  unfold CreateTrade.prepare
  rw [if_neg (Bool.eq_false_iff.1 h.1), h.built id now]
  rfl

theorem prepare_invalid {req : TradeRequest D} (h : ¬ req.Valid) (id : Uuid) (now : Timestamp) :
    ∃ e, CreateTrade.prepare req id now = .ok (.error e) := by
  unfold CreateTrade.prepare Trade.new
  split_ifs with hblank hquantity hprice
  · exact ⟨_, rfl⟩
  · exact ⟨_, rfl⟩
  · exact ⟨_, rfl⟩
  · exact absurd ⟨Bool.eq_false_iff.2 hblank, not_le.1 hquantity, not_le.1 hprice⟩ h

/-- What gets to the lock is the trade of a valid request. -/
theorem prepare_eq_ok {req : TradeRequest D} {id : Uuid} {now : Timestamp} {trade : Trade D}
    {notionalValue : D} (h : CreateTrade.prepare req id now = .ok (.ok (trade, notionalValue))) :
    req.Valid ∧ trade = req.toTrade id now := by
  by_cases hvalid : req.Valid
  · rw [prepare_of_valid hvalid] at h
    cases hmul : DecimalOps.mul req.quantity req.price with
    | error e => rw [hmul] at h; cases h
    | ok v => rw [hmul] at h; cases h; exact ⟨hvalid, rfl⟩
  · obtain ⟨e, he⟩ := prepare_invalid hvalid id now
    rw [he] at h
    cases h

/-- A refused trade leaves the portfolio as it is. -/
theorem applyTrade_error {p p' : Portfolio D} {trade : Trade D} {e : TradeError D}
    (h : p.applyTrade trade = .ok (.error e, p')) : p' = p := by
  unfold Portfolio.applyTrade at h
  cases hs : trade.side with
  | buy =>
    simp only [hs] at h
    obtain ⟨pos, -, h⟩ := bind_eq_ok h
    cases h
  | sell =>
    simp only [hs] at h
    cases hl : p.positions.lookup trade.asset with
    | none => simp only [hl] at h; cases h; rfl
    | some pos =>
      simp only [hl] at h
      obtain ⟨⟨result, pos'⟩, hfifo, h⟩ := bind_eq_ok h
      cases result with
      | ok events =>
        obtain ⟨total, -, h⟩ := bind_eq_ok h
        cases h
      | error e' =>
        cases h
        have hsame : pos' = pos := consumeFifo_error hfifo
        rw [hsame, Finmap.insert_lookup_self hl]

theorem applyLocked_error {p p' : Portfolio D} {trade : Trade D} {e : TradeError D}
    (h : p.applyTrade trade = .ok (.error e, p')) : CreateTrade.applyLocked p trade =
      .ok (.error (.context "failed to apply trade to portfolio" e), p') := by
  unfold CreateTrade.applyLocked
  rw [h]
  rfl

/-- What has happened under a lock that was not poisoned. -/
theorem applyLocked_eq_ok {p p' : Portfolio D} {trade : Trade D} {result : Except (AppError D) D}
    (h : CreateTrade.applyLocked p trade = .ok (result, p')) :
    (∃ e, result = .error e ∧ p' = p) ∨
      ∃ events realizedPnl, result = .ok realizedPnl ∧ p.applyTrade trade = .ok (.ok events, p') := by
  unfold CreateTrade.applyLocked at h
  obtain ⟨⟨r, q⟩, happ, h⟩ := bind_eq_ok h
  cases r with
  | error e =>
    cases h
    exact .inl ⟨_, rfl, applyTrade_error happ⟩
  | ok events =>
    obtain ⟨realizedPnl, -, h⟩ := bind_eq_ok h
    cases h
    exact .inr ⟨events, realizedPnl, rfl, happ⟩

/-! ### What a step can do -/

variable {num : D → Option D} {s s' : Instance D}

/-- What a step does, by the call it is about. -/
inductive Instance.Moves (num : D → Option D) (s : Instance D) : Instance.Action D → Instance D → Prop
  /-- The call ends before it gets to the portfolio, by an error or a panic. -/
  | drawn (req : TradeRequest D) (now : Timestamp) :
      Moves num s (.start req now) { s with nextId := s.nextId + 1 }
  /-- It panics under the lock. -/
  | panicked (req : TradeRequest D) (now : Timestamp) (hvalid : req.Valid) (hp : s.poisoned = false)
      (e : Panic) (he : CreateTrade.applyLocked s.portfolio (req.toTrade s.nextId now) = .error e) :
      Moves num s (.start req now) { s with poisoned := true, nextId := s.nextId + 1 }
  | refused (req : TradeRequest D) (now : Timestamp) (trade : Trade D) (hid : trade.id = s.nextId) :
      Moves num s (.start req now)
        { s with ended := s.ended ++ [(trade, .err)], nextId := s.nextId + 1 }
  | accepted (req : TradeRequest D) (now : Timestamp) (trade : Trade D) (notionalValue realizedPnl : D)
      (events : List (RealizedPnL D)) (p : Portfolio D) (hid : trade.id = s.nextId)
      (hbuilt : Trade.new trade.id trade.asset trade.quantity trade.price trade.timestamp trade.side =
        .ok trade) (happ : s.portfolio.applyTrade trade = .ok (.ok events, p)) :
      Moves num s (.start req now)
        { s with
          portfolio := p
          calls := Function.update s.calls trade.id (some ⟨trade, notionalValue, realizedPnl, false⟩)
          applied := s.applied ++ [trade]
          nextId := s.nextId + 1 }
  | saved (id : Uuid) (call : Call D) (row : TradeRow D) (hc : s.calls id = some call)
      (hw : call.written = false) (hrow : TradeRow.ofTrade num call.trade = some row) :
      Moves num s (.save id)
        { s with
          trades := insertTrade s.trades row
          calls := Function.update s.calls id (some { call with written := true }) }
  | rejected (id : Uuid) (call : Call D) (hc : s.calls id = some call)
      (hw : call.written = false) (hrow : TradeRow.ofTrade num call.trade = none) :
      Moves num s (.save id) (s.finish call .err)
  | failed (id : Uuid) (call : Call D) (hc : s.calls id = some call)
      (hw : call.written = false) : Moves num s (.saveFails id) (s.finish call .err)
  | responded (id : Uuid) (now : Timestamp) (call : Call D) (hc : s.calls id = some call)
      (hw : call.written = true) :
      Moves num s (.respond id now)
        { s.finish call .ok with
          spawned := s.spawned ++ [fromResponse
            (CreateTrade.respond call.trade call.notionalValue call.realizedPnl) s.nextId now]
          nextId := s.nextId + 1 }
  | cancelled (id : Uuid) (call : Call D) (hc : s.calls id = some call) :
      Moves num s (.cancel id) (s.finish call .cancelled)

theorem step_moves {a : Instance.Action D} (hs : s.step num a = some s') : s.Moves num a s' := by
  cases a with
  | start req now =>
    simp only [Instance.step] at hs
    split at hs
    · cases hs
      exact .drawn req now
    · cases hs
      exact .drawn req now
    · next trade notionalValue hprep =>
      obtain ⟨hvalid, rfl⟩ := prepare_eq_ok hprep
      split_ifs at hs with hpoisoned
      · cases hs
        exact .drawn req now
      · split at hs
        · next e he =>
          cases hs
          exact .panicked req now hvalid (Bool.not_eq_true _ ▸ hpoisoned) e he
        · next e p hlocked =>
          cases hs
          obtain ⟨-, -, rfl⟩ | ⟨_, _, hne, -⟩ := applyLocked_eq_ok hlocked
          · exact .refused req now _ rfl
          · cases hne
        · next realizedPnl p hlocked =>
          cases hs
          obtain ⟨_, hne, -⟩ | ⟨events, _, -, happ⟩ := applyLocked_eq_ok hlocked
          · cases hne
          · exact .accepted req now _ notionalValue realizedPnl events p rfl (hvalid.built _ now) happ
  | save id =>
    obtain ⟨call, hc, hs⟩ := Option.bind_eq_some_iff.1 hs
    split_ifs at hs with hw
    rw [Bool.not_eq_true] at hw
    split at hs
    · next hrow => cases hs; exact .rejected id call hc hw hrow
    · next row hrow => cases hs; exact .saved id call row hc hw hrow
  | saveFails id =>
    obtain ⟨call, hc, hs⟩ := Option.bind_eq_some_iff.1 hs
    split_ifs at hs with hw
    cases hs
    exact .failed id call hc (Bool.not_eq_true _ ▸ hw)
  | respond id now =>
    obtain ⟨call, hc, hs⟩ := Option.bind_eq_some_iff.1 hs
    split_ifs at hs with hw
    cases hs
    exact .responded id now call hc hw
  | cancel id =>
    obtain ⟨call, hc, hs⟩ := Option.bind_eq_some_iff.1 hs
    cases hs
    exact .cancelled id call hc


/-- A call can always run up to its await point, or panic before it. -/
theorem Instance.exists_start (num : D → Option D) (s : Instance D) (req : TradeRequest D)
    (now : Timestamp) : ∃ s', s.step num (.start req now) = some s' := by
  simp only [Instance.step]
  split
  · exact ⟨_, rfl⟩
  · exact ⟨_, rfl⟩
  · split_ifs
    · exact ⟨_, rfl⟩
    · split <;> exact ⟨_, rfl⟩

/-! ### The invariant -/

/-- What holds whether or not memory and database agree. -/
structure Instance.Inv (num : D → Option D) (s : Instance D) : Prop where
  built : ∀ t ∈ s.applied, Trade.new t.id t.asset t.quantity t.price t.timestamp t.side = .ok t
  replay : Portfolio.new.applyEach s.applied = .ok s.portfolio
  fresh : ∀ t ∈ s.applied, t.id < s.nextId
  nodup : (s.applied.map Trade.id).Nodup
  call : ∀ id call, s.calls id = some call → call.trade.id = id ∧ call.trade ∈ s.applied
  unwritten : ∀ id call, s.calls id = some call → call.written = false →
    ∀ row ∈ s.trades, row.id ≠ id
  row : ∀ row ∈ s.trades, ∃ t ∈ s.applied, TradeRow.ofTrade num t = some row
  rows_nodup : (s.trades.map TradeRow.id).Nodup
  ok : ∀ t, (t, Ending.ok) ∈ s.ended → t ∈ s.applied
  err : ∀ t, (t, Ending.err) ∈ s.ended →
    t.id < s.nextId ∧ s.calls t.id = none ∧ ∀ row ∈ s.trades, row.id ≠ t.id

theorem Instance.inv_init : (Instance.init : Instance D).Inv num where
  built t ht := by cases ht
  replay := rfl
  fresh t ht := by cases ht
  nodup := List.nodup_nil
  call id call h := by cases h
  unwritten id call h := by cases h
  row row h := by cases h
  rows_nodup := List.nodup_nil
  ok t ht := by cases ht
  err t ht := by cases ht

theorem applyEach_append (p : Portfolio D) (ts us : List (Trade D)) :
    p.applyEach (ts ++ us) = p.applyEach ts >>= fun q => q.applyEach us := by
  induction ts generalizing p with
  | nil => rfl
  | cons t ts ih =>
    simp only [List.cons_append, Portfolio.applyEach]
    cases p.applyTrade t with
    | error e => rfl
    | ok res => exact ih res.2

/-- No call and no row has an id that is still to be drawn. -/
theorem Instance.Inv.call_lt (h : s.Inv num) {id : Uuid} {call : Call D}
    (hc : s.calls id = some call) : id < s.nextId := by
  obtain ⟨hid, hmem⟩ := h.call id call hc
  exact hid ▸ h.fresh _ hmem

theorem Instance.Inv.row_lt (h : s.Inv num) {row : TradeRow D} (hr : row ∈ s.trades) :
    row.id < s.nextId := by
  obtain ⟨t, ht, hrow⟩ := h.row row hr
  exact ofTrade_id hrow ▸ h.fresh t ht

theorem Instance.Inv.calls_nextId (h : s.Inv num) : s.calls s.nextId = none := by
  cases hc : s.calls s.nextId with
  | none => rfl
  | some call => exact absurd (h.call_lt hc) (lt_irrefl _)

/-- Drawing an id changes nothing else. -/
theorem Instance.Inv.draw (h : s.Inv num) : Instance.Inv num { s with nextId := s.nextId + 1 } where
  built := h.built
  replay := h.replay
  fresh t ht := Nat.lt_succ_of_lt (h.fresh t ht)
  nodup := h.nodup
  call := h.call
  unwritten := h.unwritten
  row := h.row
  rows_nodup := h.rows_nodup
  ok := h.ok
  err t ht := ⟨Nat.lt_succ_of_lt (h.err t ht).1, (h.err t ht).2⟩

theorem Instance.Inv.refused (h : s.Inv num) {trade : Trade D} (hid : trade.id = s.nextId) :
    Instance.Inv num { s with ended := s.ended ++ [(trade, .err)], nextId := s.nextId + 1 } := by
  refine { h.draw with ok := ?_, err := ?_ }
  · intro t ht
    rcases List.mem_append.1 ht with ht | ht
    · exact h.ok t ht
    · cases List.mem_singleton.1 ht
  · intro t ht
    rcases List.mem_append.1 ht with ht | ht
    · exact h.draw.err t ht
    · cases List.mem_singleton.1 ht
      refine ⟨by rw [hid]; exact Nat.lt_succ_self _, by rw [hid]; exact h.calls_nextId, ?_⟩
      intro row hr
      rw [hid]
      exact (h.row_lt hr).ne

theorem Instance.Inv.accepted (h : s.Inv num) {t : Trade D} {notionalValue realizedPnl : D}
    {events : List (RealizedPnL D)} {p : Portfolio D} (hid : t.id = s.nextId)
    (hbuilt : Trade.new t.id t.asset t.quantity t.price t.timestamp t.side = .ok t)
    (happ : s.portfolio.applyTrade t = .ok (.ok events, p)) :
    Instance.Inv num
      { s with
        portfolio := p
        calls := Function.update s.calls t.id (some ⟨t, notionalValue, realizedPnl, false⟩)
        applied := s.applied ++ [t]
        nextId := s.nextId + 1 } where
  built u hu := by
    rcases List.mem_append.1 hu with hu | hu
    · exact h.built u hu
    · rw [List.mem_singleton.1 hu]
      exact hbuilt
  replay := by
    rw [applyEach_append, h.replay, ok_bind, Portfolio.applyEach, happ]
    rfl
  fresh u hu := by
    rcases List.mem_append.1 hu with hu | hu
    · exact Nat.lt_succ_of_lt (h.fresh u hu)
    · rw [List.mem_singleton.1 hu, hid]
      exact Nat.lt_succ_self _
  nodup := by
    rw [List.map_append]
    refine nodup_snoc h.nodup fun hmem => ?_
    obtain ⟨u, hu, he⟩ := List.mem_map.1 hmem
    exact (h.fresh u hu).ne (he.trans hid)
  call id call hc := by
    rcases update_eq_some hc with ⟨rfl, he⟩ | ⟨-, hc⟩
    · cases he
      exact ⟨rfl, List.mem_append_right _ (List.mem_singleton_self _)⟩
    · obtain ⟨hid', hmem⟩ := h.call id call hc
      exact ⟨hid', List.mem_append_left _ hmem⟩
  unwritten id call hc hw row hr := by
    rcases update_eq_some hc with ⟨rfl, -⟩ | ⟨-, hc⟩
    · rw [hid]
      exact (h.row_lt hr).ne
    · exact h.unwritten id call hc hw row hr
  row row hr := by
    obtain ⟨u, hu, hrow⟩ := h.row row hr
    exact ⟨u, List.mem_append_left _ hu, hrow⟩
  rows_nodup := h.rows_nodup
  ok u hu := List.mem_append_left _ (h.ok u hu)
  err u hu := by
    obtain ⟨hlt, hc, hr⟩ := h.err u hu
    have hne : u.id ≠ t.id := by rw [hid]; exact hlt.ne
    exact ⟨Nat.lt_succ_of_lt hlt, (Function.update_of_ne hne ..).trans hc, hr⟩

theorem Instance.Inv.saved (h : s.Inv num) {id : Uuid} {call : Call D} {row : TradeRow D}
    (hc : s.calls id = some call) (hw : call.written = false)
    (hrow : TradeRow.ofTrade num call.trade = some row) :
    Instance.Inv num
      { s with
        trades := insertTrade s.trades row
        calls := Function.update s.calls id (some { call with written := true }) } := by
  obtain ⟨hid, hmem⟩ := h.call id call hc
  have hrid : row.id = id := (ofTrade_id hrow).trans hid
  -- The call has not been written, so `ON CONFLICT DO NOTHING` has no conflict.
  have hnew : row.id ∉ s.trades.map TradeRow.id := by
    intro hr
    obtain ⟨r, hr, he⟩ := List.mem_map.1 hr
    exact h.unwritten id call hc hw r hr (he.trans hrid)
  refine ⟨h.built, h.replay, h.fresh, h.nodup, ?_, ?_, ?_, ?_, h.ok, ?_⟩
  · intro id' call' hc'
    rcases update_eq_some hc' with ⟨rfl, he⟩ | ⟨-, hc'⟩
    · cases he
      exact ⟨hid, hmem⟩
    · exact h.call id' call' hc'
  · intro id' call' hc' hw' r hr
    rcases update_eq_some hc' with ⟨rfl, he⟩ | ⟨hi, hc'⟩
    · cases he
      cases hw'
    · rcases (mem_insertTrade hnew).1 hr with hr | rfl
      · exact h.unwritten id' call' hc' hw' r hr
      · rw [hrid]
        exact Ne.symm hi
  · intro r hr
    rcases (mem_insertTrade hnew).1 hr with hr | rfl
    · exact h.row r hr
    · exact ⟨call.trade, hmem, hrow⟩
  · show ((insertTrade s.trades row).map TradeRow.id).Nodup
    rw [insertTrade, if_neg hnew, List.map_append]
    exact nodup_snoc h.rows_nodup hnew
  · intro t ht
    obtain ⟨hlt, hnone, hr⟩ := h.err t ht
    have hne : t.id ≠ id := by
      intro he
      rw [he, hc] at hnone
      cases hnone
    refine ⟨hlt, (Function.update_of_ne hne ..).trans hnone, ?_⟩
    intro r hr'
    rcases (mem_insertTrade hnew).1 hr' with hr' | rfl
    · exact hr r hr'
    · rw [hrid]
      exact Ne.symm hne

/-- A call that ends leaves no row behind if it ends with an error. -/
theorem Instance.Inv.finish (h : s.Inv num) {id : Uuid} {call : Call D} {ending : Ending}
    (hc : s.calls id = some call) (hend : ending = .err → call.written = false) :
    Instance.Inv num (s.finish call ending) := by
  obtain ⟨hid, hmem⟩ := h.call id call hc
  have hcalls : ∀ id' call', Function.update s.calls call.trade.id none id' = some call' →
      s.calls id' = some call' := by
    intro id' call' hc'
    rcases update_eq_some hc' with ⟨-, he⟩ | ⟨-, hc'⟩
    · cases he
    · exact hc'
  refine ⟨h.built, h.replay, h.fresh, h.nodup, ?_, ?_, h.row, h.rows_nodup, ?_, ?_⟩
  · intro id' call' hc'
    exact h.call id' call' (hcalls id' call' hc')
  · intro id' call' hc'
    exact h.unwritten id' call' (hcalls id' call' hc')
  · intro t ht
    rcases List.mem_append.1 ht with ht | ht
    · exact h.ok t ht
    · cases List.mem_singleton.1 ht
      exact hmem
  · intro t ht
    rcases List.mem_append.1 ht with ht | ht
    · obtain ⟨hlt, hnone, hr⟩ := h.err t ht
      refine ⟨hlt, ?_, hr⟩
      show Function.update s.calls call.trade.id none t.id = none
      by_cases hi : t.id = call.trade.id
      · rw [hi, Function.update_self]
      · rwa [Function.update_of_ne hi]
    · cases List.mem_singleton.1 ht
      refine ⟨h.fresh _ hmem, Function.update_self .., ?_⟩
      rw [hid]
      exact h.unwritten id call hc (hend rfl)

theorem Instance.Inv.step {a : Instance.Action D} (h : s.Inv num) (hs : s.step num a = some s') :
    s'.Inv num := by
  cases step_moves hs with
  | drawn req now => exact h.draw
  | panicked req now hvalid hp e he => exact { h.draw with }
  | refused req now trade hid => exact h.refused hid
  | accepted req now t notionalValue realizedPnl events p hid hbuilt happ =>
    exact h.accepted hid hbuilt happ
  | saved id call row hc hw hrow => exact h.saved hc hw hrow
  | rejected id call hc hw hrow => exact h.finish hc fun _ => hw
  | failed id call hc hw => exact h.finish hc fun _ => hw
  | responded id now call hc hw =>
    have hfin : Instance.Inv num (s.finish call .ok) := h.finish hc fun he => by cases he
    exact { hfin.draw with }
  | cancelled id call hc => exact h.finish hc fun he => by cases he

theorem Instance.Inv.run {as : List (Instance.Action D)} {u : Instance D} (h : s.Inv num)
    (hu : Transition.run (Instance.step num) s as = some u) : u.Inv num :=
  run_invariant (Instance.Inv num) (fun _ _ _ hi hs => hi.step hs) h hu

/-- Only calls of applied trades can be under way. -/
theorem Instance.Inv.quiescent (h : s.Inv num)
    (hc : (s.applied.all fun t => (s.calls t.id).isNone) = true) : s.Quiescent := by
  intro id
  cases hid : s.calls id with
  | none => rfl
  | some call =>
    obtain ⟨rfl, hmem⟩ := h.call id call hid
    have hnone := List.all_eq_true.1 hc _ hmem
    rw [hid] at hnone
    cases hnone

/-! ### Which steps part memory and database -/

/-- Every applied trade has its exact row, or its insert is still to come. -/
def Instance.Kept (s : Instance D) : Prop :=
  ∀ t ∈ s.applied, (∃ call, s.calls t.id = some call ∧ call.written = false) ∨
    TradeRow.exact t ∈ s.trades

theorem Instance.Inv.eq_of_id (h : s.Inv num) {t u : Trade D} (ht : t ∈ s.applied)
    (hu : u ∈ s.applied) (he : t.id = u.id) : t = u :=
  List.inj_on_of_nodup_map h.nodup ht hu he

/-- The insert of a call that is still to come has left no row. -/
theorem Instance.Inv.exact_notMem (h : s.Inv num) {id : Uuid} {call : Call D}
    (hc : s.calls id = some call) (hw : call.written = false) :
    TradeRow.exact call.trade ∉ s.trades := by
  obtain ⟨hid, -⟩ := h.call id call hc
  intro hr
  exact h.unwritten id call hc hw _ hr hid

theorem Instance.Inv.row_notMem (h : s.Inv num) {id : Uuid} {call : Call D} {row : TradeRow D}
    (hc : s.calls id = some call) (hw : call.written = false)
    (hrow : TradeRow.ofTrade num call.trade = some row) : row.id ∉ s.trades.map TradeRow.id := by
  obtain ⟨hid, -⟩ := h.call id call hc
  intro hr
  obtain ⟨r, hr, he⟩ := List.mem_map.1 hr
  exact h.unwritten id call hc hw r hr (he.trans ((ofTrade_id hrow).trans hid))

/-- A call whose row is written may end. -/
theorem Instance.Kept.finish (hk : s.Kept) (hi : s.Inv num) {id : Uuid} {call : Call D}
    {ending : Ending} (hc : s.calls id = some call) (hw : call.written = true) :
    (s.finish call ending).Kept := by
  obtain ⟨hid, -⟩ := hi.call id call hc
  intro t ht
  rcases hk t ht with ⟨call', hc', hw'⟩ | hr
  · refine .inl ⟨call', ?_, hw'⟩
    have hne : t.id ≠ call.trade.id := by
      intro he
      rw [he, hid, hc] at hc'
      cases hc'
      rw [hw] at hw'
      cases hw'
    exact (Function.update_of_ne hne ..).trans hc'
  · exact .inr hr

theorem Instance.Kept.step {a : Instance.Action D} (hk : s.Kept) (hi : s.Inv num)
    (ha : Completes num s a) (hs : s.step num a = some s') : s'.Kept := by
  cases step_moves hs with
  | drawn req now => exact hk
  | panicked req now hvalid hp e he => exact hk
  | refused req now trade hid => exact hk
  | accepted req now t notionalValue realizedPnl events p hid hbuilt happ =>
    intro u hu
    rcases List.mem_append.1 hu with hu | hu
    · have hne : u.id ≠ t.id := by rw [hid]; exact (hi.fresh u hu).ne
      rcases hk u hu with ⟨call, hc, hw⟩ | hr
      · exact .inl ⟨call, (Function.update_of_ne hne ..).trans hc, hw⟩
      · exact .inr hr
    · rw [List.mem_singleton.1 hu]
      exact .inl ⟨_, Function.update_self .., rfl⟩
  | saved id call row hc hw hrow =>
    obtain ⟨hid, hmem⟩ := hi.call id call hc
    rw [ofTrade_eq_exact_iff.2 (ha call hc)] at hrow
    cases hrow
    have hnew := hi.row_notMem hc hw (ofTrade_eq_exact_iff.2 (ha call hc))
    intro t ht
    by_cases he : t.id = id
    · rw [hi.eq_of_id ht hmem (he.trans hid.symm)]
      exact .inr ((mem_insertTrade hnew).2 (.inr rfl))
    · rcases hk t ht with ⟨call', hc', hw'⟩ | hr
      · exact .inl ⟨call', (Function.update_of_ne he ..).trans hc', hw'⟩
      · exact .inr ((mem_insertTrade hnew).2 (.inl hr))
  | rejected id call hc hw hrow =>
    rw [ofTrade_eq_exact_iff.2 (ha call hc)] at hrow
    cases hrow
  | failed id call hc hw => exact ha.elim
  | responded id now call hc hw =>
    have hfin : (s.finish call .ok).Kept := hk.finish hi hc hw
    exact hfin
  | cancelled id call hc => exact hk.finish hi hc (ha call hc)

/-- The trade of a call that ended before its insert is lost. -/
theorem Instance.Kept.written_of_finish {id : Uuid} {call : Call D} {ending : Ending}
    (hk : (s.finish call ending).Kept) (hi : s.Inv num) (hc : s.calls id = some call) :
    call.written = true := by
  obtain ⟨-, hmem⟩ := hi.call id call hc
  by_contra hw
  rw [Bool.not_eq_true] at hw
  rcases hk call.trade hmem with ⟨call', hc', -⟩ | hr
  · have hnone : (s.finish call ending).calls call.trade.id = none := Function.update_self ..
    rw [hnone] at hc'
    cases hc'
  · exact hi.exact_notMem hc hw hr

/-- A step after which everything is kept completes. -/
theorem completes_of_kept {a : Instance.Action D} (hi : s.Inv num) (hs : s.step num a = some s')
    (hk : s'.Kept) : Completes num s a := by
  cases step_moves hs with
  | drawn req now => trivial
  | panicked req now hvalid hp e he => trivial
  | refused req now trade hid => trivial
  | accepted req now t notionalValue realizedPnl events p hid hbuilt happ => trivial
  | saved id call row hc hw hrow =>
    intro call' hc'
    rw [hc] at hc'
    cases hc'
    obtain ⟨hid, hmem⟩ := hi.call id call hc
    rcases hk call.trade hmem with ⟨call', hc', hw'⟩ | hr
    · -- The insert has been carried out.
      rcases update_eq_some hc' with ⟨-, he⟩ | ⟨hne, -⟩
      · cases he
        cases hw'
      · exact absurd hid hne
    · rcases (mem_insertTrade (hi.row_notMem hc hw hrow)).1 hr with hr | rfl
      · exact absurd hr (hi.exact_notMem hc hw)
      · exact ofTrade_eq_exact_iff.1 hrow
  | rejected id call hc hw hrow =>
    rw [hk.written_of_finish hi hc] at hw
    cases hw
  | failed id call hc hw =>
    rw [hk.written_of_finish hi hc] at hw
    cases hw
  | responded id now call hc hw => trivial
  | cancelled id call hc =>
    intro call' hc'
    rw [hc] at hc'
    cases hc'
    exact hk.written_of_finish hi hc

/-- What is lost stays lost: no later step writes the row of a trade whose call is over. -/
theorem kept_of_step {a : Instance.Action D} (hi : s.Inv num) (hs : s.step num a = some s')
    (hk : s'.Kept) : s.Kept := by
  have hfinish : ∀ call ending, (s.finish call ending).Kept → s.Kept := by
    intro call ending hk t ht
    rcases hk t ht with ⟨call', hc', hw'⟩ | hr
    · rcases update_eq_some hc' with ⟨-, he⟩ | ⟨-, hc'⟩
      · cases he
      · exact .inl ⟨call', hc', hw'⟩
    · exact .inr hr
  cases step_moves hs with
  | drawn req now => exact hk
  | panicked req now hvalid hp e he => exact hk
  | refused req now trade hid => exact hk
  | accepted req now t notionalValue realizedPnl events p hid hbuilt happ =>
    intro u hu
    rcases hk u (List.mem_append_left _ hu) with ⟨call, hc, hw⟩ | hr
    · rcases update_eq_some hc with ⟨he, -⟩ | ⟨-, hc⟩
      · exact absurd (he.trans hid) (hi.fresh u hu).ne
      · exact .inl ⟨call, hc, hw⟩
    · exact .inr hr
  | saved id call row hc hw hrow =>
    obtain ⟨hid, -⟩ := hi.call id call hc
    intro t ht
    rcases hk t ht with ⟨call', hc', hw'⟩ | hr
    · rcases update_eq_some hc' with ⟨-, he⟩ | ⟨-, hc'⟩
      · cases he
        cases hw'
      · exact .inl ⟨call', hc', hw'⟩
    · rcases (mem_insertTrade (hi.row_notMem hc hw hrow)).1 hr with hr | he
      · exact .inr hr
      · -- This insert is the one that writes the row.
        have hte : t.id = id := (congrArg TradeRow.id he).trans ((ofTrade_id hrow).trans hid)
        exact .inl ⟨call, by rw [hte]; exact hc, hw⟩
  | rejected id call hc hw hrow => exact hfinish call .err hk
  | failed id call hc hw => exact hfinish call .err hk
  | responded id now call hc hw => exact hfinish call .ok hk
  | cancelled id call hc => exact hfinish call .cancelled hk

/-- Once no call is under way, memory and database agree exactly when every trade is kept and no
panic has left the portfolio halfway. -/
theorem allOrNothing_iff_kept (hi : s.Inv num) (hq : s.Quiescent) :
    s.AllOrNothing ↔ s.poisoned = false ∧ s.Kept := by
  constructor
  · intro h
    refine ⟨h.whole, fun t ht => ?_⟩
    have hmem : TradeRow.exact t ∈ (s.trades : Multiset (TradeRow D)) := by
      rw [h.rows]
      exact List.mem_map_of_mem ht
    exact .inr hmem
  · rintro ⟨hwhole, hk⟩
    have hrow : ∀ t ∈ s.applied, TradeRow.exact t ∈ s.trades := by
      intro t ht
      rcases hk t ht with ⟨call, hc, -⟩ | hr
      · rw [hq t.id] at hc
        cases hc
      · exact hr
    refine ⟨?_, hi.ok, ?_, hwhole, ?_⟩
    · have hnodup : (s.applied.map TradeRow.exact).Nodup := by
        refine List.Nodup.of_map TradeRow.id ?_
        rw [List.map_map]
        exact hi.nodup
      refine Multiset.coe_eq_coe.2 ((List.perm_ext_iff_of_nodup
        (List.Nodup.of_map TradeRow.id hi.rows_nodup) hnodup).2 fun row => ?_)
      constructor
      · intro hr
        obtain ⟨t, ht, he⟩ := hi.row row hr
        -- The row of `t` and its exact row have the same id.
        have hsame : row = TradeRow.exact t :=
          List.inj_on_of_nodup_map hi.rows_nodup hr (hrow t ht) (ofTrade_id he)
        exact hsame ▸ List.mem_map_of_mem ht
      · intro hr
        obtain ⟨t, ht, rfl⟩ := List.mem_map.1 hr
        exact hrow t ht
    · intro t ht hmem
      exact (hi.err t ht).2.2 _ (hrow t hmem) rfl
    · have hall : s.applied.filter (fun t => t.id ∈ s.trades.map TradeRow.id) = s.applied := by
        refine List.filter_eq_self.2 fun t ht => decide_eq_true ?_
        exact List.mem_map.2 ⟨_, hrow t ht, rfl⟩
      rw [hall]
      exact hi.replay

/-- **When a trade is created in memory and in the database, or in neither.** In every run that ends
with no call under way, memory and database agree exactly when no operator has panicked under the lock
and every step completes: no save fails, no call is dropped before its insert, and the columns take
every saved trade as it is. -/
theorem allOrNothing_iff_completes {as : List (Instance.Action D)}
    (h : run (Instance.step num) Instance.init as = some s) (hq : s.Quiescent) :
    s.AllOrNothing ↔
      s.poisoned = false ∧ EveryStep (Instance.step num) (Completes num) Instance.init as := by
  have hinit : (Instance.init : Instance D).Inv num := Instance.inv_init
  have hkept : (Instance.init : Instance D).Kept := fun t ht => by cases ht
  rw [allOrNothing_iff_kept (hinit.run h) hq,
    ← everyState_iff_last (Instance.Inv num) Instance.Kept (fun _ _ _ hi hs => hi.step hs)
      (fun _ _ _ hi hs hk => kept_of_step hi hs hk) hinit h]
  exact and_congr_right fun _ => everyState_iff_everyStep (Instance.Inv num) Instance.Kept
    (fun _ _ _ hi _ hs => hi.step hs) (fun _ _ _ hi hk ha hs => hk.step hi ha hs)
    (fun _ _ _ hi _ hs hk => completes_of_kept hi hs hk) hinit hkept

/-! ### Exact arithmetic never panics -/

section Exact

variable {num : ℚ → Option ℚ} {s s' : Instance ℚ}

def TradeRequest.Valid.trade {req : TradeRequest ℚ} (h : req.Valid) (id : Uuid) (now : Timestamp) :
    ValidTrade ℚ := ⟨req.toTrade id now, h.built id now⟩

theorem prepare_valid {req : TradeRequest ℚ} (h : req.Valid) (id : Uuid) (now : Timestamp) :
    CreateTrade.prepare req id now =
      .ok (.ok (req.toTrade id now, req.quantity * req.price)) :=
  prepare_of_valid h id now

theorem applyLocked_ok {p p' : Portfolio ℚ} {trade : Trade ℚ} {events : List (RealizedPnL ℚ)}
    (h : p.applyTrade trade = .ok (.ok events, p')) : CreateTrade.applyLocked p trade =
      .ok (.ok (events.map RealizedPnL.realizedPnl).sum, p') := by
  unfold CreateTrade.applyLocked
  simp only [h, ok_bind, sumDecimal_exact, pure_eq_ok]

/-- Under the lock a trade is refused without a change, or applied. -/
theorem applyLocked_exact {p : Portfolio ℚ} {books : Books} (h : p.Refines books) (t : ValidTrade ℚ) :
    (∃ e, CreateTrade.applyLocked p t.trade = .ok (.error e, p)) ∨
    ∃ events p', p.applyTrade t.trade = .ok (.ok events, p') ∧ p'.Refines (books.step t) ∧
      CreateTrade.applyLocked p t.trade =
        .ok (.ok (events.map RealizedPnL.realizedPnl).sum, p') := by
  obtain ⟨p', happ, href, hsame⟩ := applyTrade_refines h t
  by_cases hacc : (books t.asset).Accepts t.order
  · right
    rw [outcome, if_pos hacc] at happ
    exact ⟨_, p', happ, href, applyLocked_ok happ⟩
  · left
    rw [outcome, if_neg hacc, hsame hacc] at happ
    exact ⟨_, applyLocked_error happ⟩

/-- Trades that were built keep a portfolio in step with some books. -/
theorem applyEach_refines {p : Portfolio ℚ} {books : Books} (h : p.Refines books)
    {ts : List (Trade ℚ)} (hts : ∀ t ∈ ts,
      Trade.new t.id t.asset t.quantity t.price t.timestamp t.side = .ok t) :
    ∃ p' books', p.applyEach ts = .ok p' ∧ p'.Refines books' := by
  induction ts generalizing p books with
  | nil => exact ⟨p, books, rfl, h⟩
  | cons t ts ih =>
    obtain ⟨q, happ, href, -⟩ := applyTrade_refines h ⟨t, hts t List.mem_cons_self⟩
    obtain ⟨p', books', hrest, href'⟩ := ih href fun u hu => hts u (List.mem_cons_of_mem _ hu)
    refine ⟨p', books', ?_, href'⟩
    rw [Portfolio.applyEach, happ]
    exact hrest

theorem Instance.Inv.refines (h : s.Inv num) : ∃ books, s.portfolio.Refines books := by
  obtain ⟨p, books, happ, href⟩ := applyEach_refines Portfolio.refines_new h.built
  rw [h.replay] at happ
  cases happ
  exact ⟨books, href⟩

/-- Nothing panics under the lock. -/
theorem Instance.Inv.unpoisoned_step {a : Instance.Action ℚ} (h : s.Inv num)
    (hp : s.poisoned = false) (hs : s.step num a = some s') : s'.poisoned = false := by
  cases step_moves hs with
  | panicked req now hvalid hp e he =>
    obtain ⟨books, href⟩ := h.refines
    rcases applyLocked_exact href (hvalid.trade s.nextId now) with ⟨_, hok⟩ | ⟨_, _, -, -, hok⟩
    · exact absurd (he.symm.trans hok) nofun
    · exact absurd (he.symm.trans hok) nofun
  | drawn => exact hp
  | refused => exact hp
  | accepted => exact hp
  | saved => exact hp
  | rejected => exact hp
  | failed => exact hp
  | responded => exact hp
  | cancelled => exact hp

/-- No run in exact arithmetic poisons the lock. -/
theorem run_unpoisoned {as : List (Instance.Action ℚ)}
    (h : run (Instance.step num) Instance.init as = some s) : s.poisoned = false :=
  (run_invariant (fun s => Instance.Inv num s ∧ s.poisoned = false)
    (fun _ _ _ hi hs => ⟨hi.1.step hs, hi.1.unpoisoned_step hi.2 hs⟩)
    ⟨Instance.inv_init, rfl⟩ h).2

/-- A request to buy one BTC at 100. -/
def sampleRequest : TradeRequest ℚ where
  asset := "BTC"
  quantity := 1
  price := 100
  side := .buy
  timestamp := some 0

end Exact

end Ledger
end CryptoAccounting

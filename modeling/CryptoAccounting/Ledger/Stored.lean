import CryptoAccounting.Domain.Numeric
import CryptoAccounting.Ledger.Repository
import CryptoAccounting.Ledger.Run
import CryptoAccounting.Ledger.Services
import CryptoAccounting.Lib.Tables
import CryptoAccounting.Lib.Transition

/-!
# Reading stored trades back

`get_trades` and `GET /trades` after any number of `save_trade`. The decoder copies the columns and does
not call `Trade::new`, and the columns round, so what comes back is what the rows hold
(`getTrades_exact`). `readsBack_iff_onSteps` says exactly when that is what was accepted.
-/

namespace CryptoAccounting
namespace Ledger

open Rounding Tables Transition

/-! ### Reading the table -/

section Reading

variable {D : Type}

/-- `Trade::try_from(row)`. -/
def Trade.tryFrom (row : TradeRow D) : Except (TradeError D) (Trade D) := do
  let side ← match row.side with
    | "buy" => .ok TradeSide.buy
    | "sell" => .ok TradeSide.sell
    | other => .error (.invalidTrade ("unknown trade side in database: " ++ other))
  pure
    { id := row.id
      asset := row.asset
      quantity := row.quantity
      price := row.price
      side
      timestamp := row.timestamp }

/-- `get_trades` on the rows as the query returns them. -/
def getTrades (rows : List (TradeRow D)) : Except (TradeError D) (List (Trade D)) :=
  rows.mapM Trade.tryFrom

/-- `ORDER BY timestamp DESC`; the query may return rows of the same time in any order. -/
structure NewestFirst (rows trades : List (TradeRow D)) : Prop where
  perm : rows.Perm trades
  sorted : rows.Pairwise fun x y => y.timestamp ≤ x.timestamp

variable [Zero D] [DecimalOps D]

/-- An item of `list_trades`. Realized PnL is not stored per trade. -/
def listItem (t : Trade D) : Except Panic (TradeResponse D) := do
  let notionalValue ← t.notionalValue
  pure
    { id := t.id
      asset := t.asset
      quantity := t.quantity
      price := t.price
      side := t.side.str
      notionalValue
      timestamp := t.timestamp
      realizedPnl := 0 }

/-- `list_trades`, the handler of `GET /trades`. -/
def listTrades (rows : List (TradeRow D)) :
    Except Panic (Except (TradeError D) (List (TradeResponse D))) :=
  match getTrades rows with
  | .error e => .ok (.error e)
  | .ok trades => do
    let items ← trades.mapM listItem
    pure (.ok items)

end Reading

/-! ### Saving -/

/-- The table, the trades that `Trade::new` has built, those that `save_trade` stored without an error,
and the next result of `Uuid::new_v4`. -/
structure Store where
  trades : List (TradeRow ℚ)
  built : List (Trade ℚ)
  stored : List (Trade ℚ)
  nextId : Uuid

def Store.init : Store where
  trades := []
  built := []
  stored := []
  nextId := 0

inductive Store.Action
  | build (asset : String) (quantity price : ℚ) (timestamp : Timestamp) (side : TradeSide)
  /-- `save_trade` of a trade that was built, for the first time or again. -/
  | save (k : ℕ)

def Store.step (s : Store) : Store.Action → Option Store
  | .build asset quantity price timestamp side =>
    match Trade.new s.nextId asset quantity price timestamp side with
    | .error _ => some { s with nextId := s.nextId + 1 }
    | .ok trade => some { s with built := s.built ++ [trade], nextId := s.nextId + 1 }
  | .save k => do
    let trade ← s.built[k]?
    match TradeRow.ofTrade numericColumn trade with
    | none => some s
    | some row =>
      some { s with trades := insertTrade s.trades row, stored := s.stored ++ [trade] }

/-- Every stored trade comes back as it was accepted, from `get_trades` and with its notional value
from `GET /trades`, and all that comes back would pass `Trade::new`. -/
structure Store.ReadsBack (s : Store) : Prop where
  read : ∀ rows, NewestFirst rows s.trades → ∃ trades, getTrades rows = .ok trades ∧
    (∀ t ∈ s.stored, ∃ t' ∈ trades, t'.id = t.id ∧ t'.asset = t.asset ∧ t'.side = t.side ∧
      t'.quantity = t.quantity ∧ t'.price = t.price) ∧
    ∀ t' ∈ trades, 0 < t'.quantity ∧ 0 < t'.price
  listed : ∀ rows, NewestFirst rows s.trades → ∃ items, listTrades rows = .ok (.ok items) ∧
    ∀ t ∈ s.stored, ∃ item ∈ items, item.id = t.id ∧ t.notionalValue = .ok item.notionalValue

/-- A save that the columns take is of a trade with quantity and price in whole column steps. -/
def SavesOnSteps (s : Store) : Store.Action → Prop
  | .build .. => True
  | .save k => ∀ trade, s.built[k]? = some trade →
      (TradeRow.ofTrade numericColumn trade).isSome →
        trade.quantity ∈ grid columnStep ∧ trade.price ∈ grid columnStep

/-! ### One row -/

section Row

variable {num : ℚ → Option ℚ} {trade : Trade ℚ} {row : TradeRow ℚ}

/-- The decoder undoes the insert, but for the columns. -/
theorem tryFrom_ofTrade (h : TradeRow.ofTrade num trade = some row) :
    Trade.tryFrom row = .ok { trade with
      quantity := row.quantity, price := row.price, timestamp := timestamptz trade.timestamp } := by
  obtain ⟨-, -, hrow⟩ := ofTrade_eq_some h
  rw [hrow]
  unfold Trade.tryFrom TradeRow.exact
  cases trade.side <;> rfl

theorem decimalsKept_iff (h : TradeRow.ofTrade num trade = some row) :
    DecimalsKept num trade ↔ row.quantity = trade.quantity ∧ row.price = trade.price := by
  obtain ⟨hq, hp, -⟩ := ofTrade_eq_some h
  rw [DecimalsKept, hq, hp, Option.some_inj, Option.some_inj]

/-- Of a trade that is stored, whole column steps are stored as they are and nothing else is. -/
theorem decimalsKept_iff_grid (h : TradeRow.ofTrade numericColumn trade = some row) :
    DecimalsKept numericColumn trade ↔
      trade.quantity ∈ grid columnStep ∧ trade.price ∈ grid columnStep := by
  obtain ⟨hq, hp, -⟩ := ofTrade_eq_some h
  rw [decimalsKept_iff h, numericColumn_eq_self_iff hq, numericColumn_eq_self_iff hp]

end Row

/-! ### The invariant -/

/-- The rows are those of the stored trades; ids are not drawn twice. -/
structure Store.Inv (s : Store) : Prop where
  built : ∀ t ∈ s.built, t.id < s.nextId ∧ 0 < t.quantity ∧ 0 < t.price
  nodup : (s.built.map Trade.id).Nodup
  stored : ∀ t ∈ s.stored, t ∈ s.built
  rows : ∀ row, row ∈ s.trades ↔ ∃ t ∈ s.stored, TradeRow.ofTrade numericColumn t = some row

theorem Store.inv_init : Store.init.Inv where
  built t ht := by cases ht
  nodup := List.nodup_nil
  stored t ht := by cases ht
  rows row := by simp [Store.init]

variable {s s' : Store}

/-- Two stored trades with one id are the same trade. -/
theorem Store.Inv.eq_of_id (h : s.Inv) {t u : Trade ℚ} (ht : t ∈ s.built) (hu : u ∈ s.built)
    (hid : t.id = u.id) : t = u := List.inj_on_of_nodup_map h.nodup ht hu hid

/-- What a step does. -/
theorem Store.step_cases {a : Store.Action} (hs : s.step a = some s') :
    (∃ asset quantity price timestamp side, a = .build asset quantity price timestamp side ∧
      (s' = { s with nextId := s.nextId + 1 } ∨
        0 < quantity ∧ 0 < price ∧ s' = { s with
          built := s.built ++ [⟨s.nextId, asset, quantity, price, timestamp, side⟩]
          nextId := s.nextId + 1 })) ∨
    ∃ k trade, a = .save k ∧ s.built[k]? = some trade ∧
      (TradeRow.ofTrade numericColumn trade = none ∧ s' = s ∨
        ∃ row, TradeRow.ofTrade numericColumn trade = some row ∧ s' = { s with
          trades := insertTrade s.trades row
          stored := s.stored ++ [trade] }) := by
  cases a with
  | build asset quantity price timestamp side =>
    refine .inl ⟨asset, quantity, price, timestamp, side, rfl, ?_⟩
    unfold Store.step at hs
    cases hnew : Trade.new s.nextId asset quantity price timestamp side with
    | error e =>
      simp only [hnew] at hs
      cases hs
      exact .inl rfl
    | ok trade =>
      obtain ⟨rfl, hq, hp⟩ := new_eq_ok hnew
      simp only [hnew] at hs
      cases hs
      exact .inr ⟨hq, hp, rfl⟩
  | save k =>
    obtain ⟨trade, htrade, hs⟩ := Option.bind_eq_some_iff.1 hs
    refine .inr ⟨k, trade, rfl, htrade, ?_⟩
    cases hrow : TradeRow.ofTrade numericColumn trade with
    | none =>
      simp only [hrow] at hs
      cases hs
      exact .inl ⟨rfl, rfl⟩
    | some row =>
      simp only [hrow] at hs
      cases hs
      exact .inr ⟨row, rfl, rfl⟩

/-- A row whose id is taken is in the table already. -/
theorem Store.Inv.mem_insertTrade (h : s.Inv) {trade : Trade ℚ} (htrade : trade ∈ s.built)
    {row : TradeRow ℚ} (hrow : TradeRow.ofTrade numericColumn trade = some row) (r : TradeRow ℚ) :
    r ∈ insertTrade s.trades row ↔ r ∈ s.trades ∨ r = row := by
  by_cases hid : row.id ∈ s.trades.map TradeRow.id
  · obtain ⟨row', hmem, hid'⟩ := List.mem_map.1 hid
    obtain ⟨t, ht, hrow'⟩ := (h.rows row').1 hmem
    have hsame : t = trade := by
      refine h.eq_of_id (h.stored t ht) htrade ?_
      rw [← ofTrade_id hrow', hid', ofTrade_id hrow]
    rw [hsame, hrow] at hrow'
    cases hrow'
    rw [insertTrade, if_pos hid]
    exact ⟨.inl, fun hr => hr.elim id fun hr => hr ▸ hmem⟩
  · exact Ledger.mem_insertTrade hid

theorem Store.Inv.step (h : s.Inv) {a : Store.Action} (hs : s.step a = some s') : s'.Inv := by
  rcases Store.step_cases hs with ⟨asset, quantity, price, timestamp, side, -, rfl | ⟨hq, hp, rfl⟩⟩ |
    ⟨k, trade, -, htrade, ⟨-, rfl⟩ | ⟨row, hrow, rfl⟩⟩
  · exact ⟨fun t ht => ⟨Nat.lt_succ_of_lt (h.built t ht).1, (h.built t ht).2⟩, h.nodup, h.stored,
      h.rows⟩
  · refine ⟨fun t ht => ?_, ?_, fun t ht => List.mem_append_left _ (h.stored t ht), h.rows⟩
    · rcases List.mem_append.1 ht with ht | ht
      · exact ⟨Nat.lt_succ_of_lt (h.built t ht).1, (h.built t ht).2⟩
      · rw [List.mem_singleton.1 ht]
        exact ⟨Nat.lt_succ_self _, hq, hp⟩
    · rw [List.map_append, List.map_singleton]
      refine nodup_snoc h.nodup fun hmem => ?_
      obtain ⟨t, ht, hid⟩ := List.mem_map.1 hmem
      exact (h.built t ht).1.ne hid
  · exact h
  · have hbuilt : trade ∈ s.built := List.mem_of_getElem? htrade
    refine ⟨h.built, h.nodup, fun t ht => ?_, fun r => ?_⟩
    · rcases List.mem_append.1 ht with ht | ht
      · exact h.stored t ht
      · rw [List.mem_singleton.1 ht]
        exact hbuilt
    · rw [h.mem_insertTrade hbuilt hrow, h.rows]
      constructor
      · rintro (⟨t, ht, hr⟩ | rfl)
        · exact ⟨t, List.mem_append_left _ ht, hr⟩
        · exact ⟨trade, List.mem_append_right _ List.mem_cons_self, hrow⟩
      · rintro ⟨t, ht, hr⟩
        rcases List.mem_append.1 ht with ht | ht
        · exact .inl ⟨t, ht, hr⟩
        · rw [List.mem_singleton.1 ht, hrow] at hr
          exact .inr (Option.some_inj.1 hr).symm

/-! ### What comes back -/

/-- **Reading back.** The trades that come back are the stored ones, with quantity, price and time as the
columns hold them. -/
theorem getTrades_exact (h : s.Inv) {rows : List (TradeRow ℚ)} (hrows : NewestFirst rows s.trades) :
    ∃ trades, getTrades rows = .ok trades ∧ ∀ t', t' ∈ trades ↔ ∃ t ∈ s.stored, ∃ row,
      TradeRow.ofTrade numericColumn t = some row ∧
        t' = { t with
          quantity := row.quantity, price := row.price, timestamp := timestamptz t.timestamp } := by
  have hrow : ∀ row, row ∈ rows ↔ ∃ t ∈ s.stored, TradeRow.ofTrade numericColumn t = some row :=
    fun row => hrows.perm.mem_iff.trans (h.rows row)
  obtain ⟨trades, hget, hmem⟩ := Returns.mapM_mem (f := Trade.tryFrom) (l := rows) fun row hr => by
    obtain ⟨t, -, ht⟩ := (hrow row).1 hr
    exact ⟨_, tryFrom_ofTrade ht⟩
  refine ⟨trades, hget, fun t' => (hmem t').trans ?_⟩
  constructor
  · rintro ⟨row, hr, hdecoded⟩
    obtain ⟨t, ht, htrade⟩ := (hrow row).1 hr
    rw [tryFrom_ofTrade htrade] at hdecoded
    exact ⟨t, ht, row, htrade, (Except.ok.inj hdecoded).symm⟩
  · rintro ⟨t, ht, row, htrade, rfl⟩
    exact ⟨row, (hrow row).2 ⟨t, ht, htrade⟩, tryFrom_ofTrade htrade⟩

theorem exists_newestFirst (trades : List (TradeRow ℚ)) : ∃ rows, NewestFirst rows trades := by
  refine ⟨trades.mergeSort fun x y => decide (y.timestamp ≤ x.timestamp), List.mergeSort_perm .., ?_⟩
  refine pairwise_mergeSort_of ?_ ?_ trades
  · intro x y z hxy hyz
    exact hyz.trans hxy
  · intro x y
    exact le_total y.timestamp x.timestamp

/-- Everything reads back exactly when the columns took all stored values as they are. -/
theorem Store.Inv.readsBack_iff (h : s.Inv) :
    s.ReadsBack ↔ ∀ t ∈ s.stored, DecimalsKept numericColumn t := by
  constructor
  · intro hback t ht
    obtain ⟨rows, hrows⟩ := exists_newestFirst s.trades
    obtain ⟨trades, hget, hmem⟩ := getTrades_exact h hrows
    obtain ⟨trades', hget', hcopies, -⟩ := hback.read rows hrows
    rw [hget, Except.ok.injEq] at hget'
    subst hget'
    obtain ⟨t', ht', hid, -, -, hq, hp⟩ := hcopies t ht
    obtain ⟨u, hu, row, hrow, rfl⟩ := (hmem t').1 ht'
    -- Ids are unique, so the copy of `t` was made of `t` itself.
    have hsame : u = t := h.eq_of_id (h.stored u hu) (h.stored t ht) hid
    subst hsame
    exact (decimalsKept_iff hrow).2 ⟨hq, hp⟩
  · intro hexact
    have hsame : ∀ rows, NewestFirst rows s.trades →
        ∃ trades, getTrades rows = .ok trades ∧ ∀ t', t' ∈ trades ↔
          ∃ t ∈ s.stored, t' = { t with timestamp := timestamptz t.timestamp } := by
      intro rows hrows
      obtain ⟨trades, hget, hmem⟩ := getTrades_exact h hrows
      refine ⟨trades, hget, fun t' => (hmem t').trans ?_⟩
      constructor
      · rintro ⟨t, ht, row, hrow, rfl⟩
        obtain ⟨hq, hp⟩ := (decimalsKept_iff hrow).1 (hexact t ht)
        exact ⟨t, ht, by rw [hq, hp]⟩
      · rintro ⟨t, ht, rfl⟩
        exact ⟨t, ht, _, (hexact t ht).ofTrade, rfl⟩
    refine ⟨fun rows hrows => ?_, fun rows hrows => ?_⟩
    · obtain ⟨trades, hget, hmem⟩ := hsame rows hrows
      refine ⟨trades, hget, fun t ht => ⟨_, (hmem _).2 ⟨t, ht, rfl⟩, rfl, rfl, rfl, rfl, rfl⟩,
        fun t' ht' => ?_⟩
      obtain ⟨t, ht, rfl⟩ := (hmem t').1 ht'
      exact (h.built t (h.stored t ht)).2
    · obtain ⟨trades, hget, hmem⟩ := hsame rows hrows
      obtain ⟨items, hitems, hlisted⟩ := Returns.mapM_mem (f := listItem) (l := trades)
        fun t _ => ⟨_, rfl⟩
      refine ⟨items, ?_, fun t ht => ?_⟩
      · unfold listTrades
        rw [hget]
        simp only [hitems]
        rfl
      · exact ⟨_, (hlisted _).2 ⟨_, (hmem _).2 ⟨t, ht, rfl⟩, rfl⟩, rfl, rfl⟩

/-! ### Runs -/

/-- **One step** keeps everything reading back exactly when it meets the condition. -/
theorem Store.Inv.readsBack_step_iff (h : s.Inv) (hback : s.ReadsBack) {a : Store.Action}
    (hs : s.step a = some s') : s'.ReadsBack ↔ SavesOnSteps s a := by
  rw [h.readsBack_iff] at hback
  rw [(h.step hs).readsBack_iff]
  rcases Store.step_cases hs with ⟨asset, quantity, price, timestamp, side, rfl, rfl | ⟨-, -, rfl⟩⟩ |
    ⟨k, trade, rfl, htrade, ⟨hrow, rfl⟩ | ⟨row, hrow, rfl⟩⟩
  · exact iff_of_true hback trivial
  · exact iff_of_true hback trivial
  · refine iff_of_true hback fun trade' htrade' hsome => ?_
    rw [htrade, Option.some_inj] at htrade'
    rw [← htrade', hrow] at hsome
    cases hsome
  · have hcond : SavesOnSteps s (.save k) ↔
        trade.quantity ∈ grid columnStep ∧ trade.price ∈ grid columnStep := by
      constructor
      · intro hc
        exact hc trade htrade (by rw [hrow]; rfl)
      · intro hc trade' htrade' _
        rw [htrade, Option.some_inj] at htrade'
        exact htrade' ▸ hc
    rw [hcond, ← decimalsKept_iff_grid hrow]
    simp only [List.mem_append, List.mem_singleton]
    constructor
    · intro hall
      exact hall trade (.inr rfl)
    · rintro hexact t (ht | rfl)
      · exact hback t ht
      · exact hexact

/-- **When stored trades read back.** Over every sequence of trades and saves: in every state all that
was stored comes back as it was accepted, exactly when every trade that is stored has a quantity and a
price in whole steps of the columns. -/
theorem readsBack_iff_onSteps (actions : List Store.Action) :
    EveryState Store.step Store.ReadsBack Store.init actions ↔
      EveryStep Store.step SavesOnSteps Store.init actions := by
  refine everyState_iff_everyStep Store.Inv Store.ReadsBack ?_ ?_ ?_ Store.inv_init ?_
  · intro s a t h _ ht
    exact h.step ht
  · intro s a t h hback hc ht
    exact (h.readsBack_step_iff hback ht).2 hc
  · intro s a t h hback ht hback'
    exact (h.readsBack_step_iff hback ht).1 hback'
  · refine Store.inv_init.readsBack_iff.2 fun t ht => ?_
    cases ht

/-- Less than half a step of quantity is stored as zero, and reads back as a trade that `Trade::new`
would refuse. -/
theorem stored_as_zero : ¬ ∀ (actions : List Store.Action) (s : Store),
    run Store.step Store.init actions = some s → s.ReadsBack := by
  intro h
  have hrun : (run Store.step Store.init
      [.build "BTC" (4 / 10 ^ 11) 100 0 .buy, .save 0]).map Store.trades =
        some [⟨0, "BTC", 0, 100, "buy", 0⟩] := by decide +kernel
  obtain ⟨s, hs, htrades⟩ := Option.map_eq_some_iff.1 hrun
  obtain ⟨trades, hget, -, hpositive⟩ := (h _ s hs).read s.trades ⟨.refl _, by simp [htrades]⟩
  rw [htrades] at hget
  cases hget
  exact absurd (hpositive _ List.mem_cons_self).1 (lt_irrefl 0)

end Ledger
end CryptoAccounting

import CryptoAccounting.Consumer.Portfolio
import CryptoAccounting.Domain.Machine
import CryptoAccounting.Ledger.Run
import CryptoAccounting.Ledger.Services
import CryptoAccounting.Lib.Alike

/-!
# The two engines in lockstep

`Agreement` compares the engines in exact arithmetic. Here they are compared in any arithmetic, whether
it rounds, panics or both: each is the same FIFO account for each asset (`Accounts`) with running totals
beside it, one for all assets in the ledger, one for each in the consumer. So they give the same answers
and hold the same lots, and one of them can only stop where the other goes on because of
its totals (`engines_lockstep`).
-/

namespace CryptoAccounting
namespace Lockstep

open Alike DecimalOps WhileLoop
open Ledger (Trade ValidTrade Portfolio Position TradeError)
open Consumer (AssetPortfolio PortfolioError)

variable {D : Type}

/-! ### Running totals -/

/-- Results of the ledger's `apply_trade`. -/
abbrev Answer (D : Type) := Except (TradeError D) (List (RealizedPnL D))

/-- The records of an answer. -/
def records : Answer D → List (RealizedPnL D)
  | .ok events => events
  | .error _ => []

/-- The records of the trades whose assets have the key `i`. -/
def recordsOf {ι : Type} [DecidableEq ι] (key : String → ι) (i : ι) :
    List (Trade D) → List (Answer D) → List (RealizedPnL D)
  | t :: ts, r :: rs => (if key t.asset = i then records r else []) ++ recordsOf key i ts rs
  | _, _ => []

variable [DecimalOps D] {ι : Type} [DecidableEq ι]

/-- Add the realized PnL of the records to a total, one after the other. -/
def accumulate (total : D) (events : List (RealizedPnL D)) : Except Panic D :=
  events.foldlM (fun acc e => add acc e.realizedPnl) total

theorem accumulate_append (total : D) (es fs : List (RealizedPnL D)) :
    accumulate total (es ++ fs) = accumulate total es >>= fun x => accumulate x fs :=
  List.foldlM_append

/-- The totals after a step, and what the steps after it add to them. -/
theorem accumulate_recordsOf (key : String → ι) (totals : ι → D) {t : Trade D} {r : Answer D}
    {total : D} (htotal : accumulate (totals (key t.asset)) (records r) = .ok total)
    (ts : List (Trade D)) (rs : List (Answer D)) (i : ι) :
    accumulate (totals i) (recordsOf key i (t :: ts) (r :: rs)) =
      accumulate (Function.update totals (key t.asset) total i) (recordsOf key i ts rs) := by
  rw [recordsOf, accumulate_append]
  by_cases hi : key t.asset = i
  · subst hi
    rw [if_pos rfl, htotal, ok_bind, Function.update_self]
  · rw [if_neg hi, Function.update_of_ne (Ne.symm hi)]
    rfl

/-! ### Accounts with totals -/

/-- One position for each asset; an asset that was not traded yet has the empty one. -/
abbrev Accounts (D : Type) := String → Position D

/-- Accounts with a running total for every key. -/
structure Engine (ι D : Type) where
  accounts : Accounts D
  totals : ι → D

variable [Zero D]

def Engine.new : Engine ι D where
  accounts := Position.new
  totals := fun _ => 0

variable [LinearOrder D]

/-- Apply a trade to the position of its asset. -/
def Accounts.apply (c : Accounts D) (t : Trade D) : Except Panic (Answer D × Accounts D) :=
  match t.side with
  | .buy => do
    let pos ← (c t.asset).addLot t.quantity t.price
    pure (.ok [], Function.update c t.asset pos)
  | .sell => do
    let (r, pos) ← (c t.asset).consumeFifo t.quantity t.price
    pure (r, Function.update c t.asset pos)

/-- Apply a trade and add its records to the total of its asset's key. -/
def Engine.apply (key : String → ι) (s : Engine ι D) (t : Trade D) :
    Except Panic (Answer D × Engine ι D) := do
  let (r, accounts) ← s.accounts.apply t
  let total ← accumulate (s.totals (key t.asset)) (records r)
  pure (r, ⟨accounts, Function.update s.totals (key t.asset) total⟩)

/-- **The totals are the only difference.** A run of an engine returns exactly when the accounts do and
all its totals can be added up; then it has them. -/
theorem Engine.results_iff (key : String → ι) {s u : Engine ι D} {ts : List (Trade D)}
    {rs : List (Answer D)} :
    results (Engine.apply key) s ts = .ok (u, rs) ↔
      results Accounts.apply s.accounts ts = .ok (u.accounts, rs) ∧
      ∀ i, accumulate (s.totals i) (recordsOf key i ts rs) = .ok (u.totals i) := by
  induction ts generalizing s rs with
  | nil =>
    constructor
    · intro h
      cases h
      exact ⟨rfl, fun i => rfl⟩
    · rintro ⟨h, htotals⟩
      injection h with h
      injection h with haccounts hrs
      subst hrs
      have hsame : s.totals = u.totals := funext fun i => Except.ok.inj (htotals i)
      cases s
      cases u
      cases haccounts
      cases hsame
      rfl
  | cons t ts ih =>
    constructor
    · intro h
      obtain ⟨r, v, rs', hstep, hrun, rfl⟩ := results_cons h
      obtain ⟨⟨r', accounts⟩, happly, hstep⟩ := bind_eq_ok hstep
      obtain ⟨total, htotal, hstep⟩ := bind_eq_ok hstep
      cases hstep
      obtain ⟨haccounts, htotals⟩ := ih.1 hrun
      refine ⟨?_, fun i => ?_⟩
      · rw [results, happly]
        simp only [ok_bind, haccounts]
        rfl
      · rw [accumulate_recordsOf key s.totals htotal]
        exact htotals i
    · rintro ⟨h, htotals⟩
      obtain ⟨r, accounts, rs', happly, hrun, rfl⟩ := results_cons h
      -- The total of the trade's own key takes the records of the trade first.
      obtain ⟨total, htotal⟩ : ∃ total, accumulate (s.totals (key t.asset)) (records r) = .ok total := by
        have hkey := htotals (key t.asset)
        rw [recordsOf, if_pos rfl, accumulate_append] at hkey
        exact (bind_eq_ok hkey).imp fun _ hx => hx.1
      have hrest : results (Engine.apply key)
          ⟨accounts, Function.update s.totals (key t.asset) total⟩ ts = .ok (u, rs') := by
        refine ih.2 ⟨hrun, fun i => ?_⟩
        rw [← htotals i, accumulate_recordsOf key s.totals htotal]
      rw [results, Engine.apply, happly]
      simp only [ok_bind, htotal]
      rw [pure_eq_ok]
      simp only [ok_bind, hrest]
      rfl

/-! ### The ledger -/

/-- The positions are those of the accounts, and the total is the only one. -/
structure LedgerHolds (p : Portfolio D) (s : Engine Unit D) : Prop where
  position : ∀ a, (p.positions.lookup a).getD (Position.new a) = s.accounts a
  total : p.totalRealizedPnl = s.totals ()

omit [DecimalOps D] [LinearOrder D] in
theorem ledgerHolds_new : LedgerHolds (Portfolio.new : Portfolio D) Engine.new where
  position a := by simp [Portfolio.new, Engine.new]
  total := rfl

omit [DecimalOps D] [LinearOrder D] in
theorem LedgerHolds.insert {p : Portfolio D} {s : Engine Unit D} (h : LedgerHolds p s) (a : String)
    (pos : Position D) (total : D) :
    LedgerHolds ⟨p.positions.insert a pos, total⟩
      ⟨Function.update s.accounts a pos, Function.update s.totals () total⟩ where
  position b := by
    by_cases hb : b = a
    · subst hb
      simp
    · simp [Finmap.lookup_insert_of_ne _ hb, Function.update_of_ne hb, h.position b]
  total := by simp

omit [DecimalOps D] [LinearOrder D] in
/-- A refused trade changes nothing. -/
theorem LedgerHolds.same {p : Portfolio D} {s : Engine Unit D} (h : LedgerHolds p s) (a : String) :
    LedgerHolds p ⟨Function.update s.accounts a (s.accounts a),
      Function.update s.totals () (s.totals ())⟩ := by
  rw [Function.update_eq_self, Function.update_eq_self]
  exact h

/-- The ledger's `apply_trade` and the engine with one total for all assets. -/
theorem ledger_alike {p : Portfolio D} {s : Engine Unit D} (h : LedgerHolds p s) {t : Trade D}
    (hq : 0 < t.quantity) :
    Alike (fun x y => x.1 = y.1 ∧ LedgerHolds x.2 y.2) (p.applyTrade t)
      (s.apply (fun _ => ()) t) := by
  have hpos := h.position t.asset
  unfold Engine.apply Accounts.apply Portfolio.applyTrade
  cases hs : t.side with
  | buy =>
    simp only [hpos]
    cases hadd : (s.accounts t.asset).addLot t.quantity t.price with
    | error e => exact .error e
    | ok pos =>
      refine .ok ⟨rfl, ?_⟩
      rw [h.total]
      exact h.insert t.asset pos _
  | sell =>
    cases hl : p.positions.lookup t.asset with
    | none =>
      -- The empty position is short of everything.
      rw [hl] at hpos
      have hshort : (s.accounts t.asset).consumeFifo t.quantity t.price =
          .ok (.error (.insufficientBalance t.asset t.quantity 0), s.accounts t.asset) := by
        rw [← hpos]
        exact if_pos hq
      simp only [hshort]
      exact .ok ⟨rfl, h.same t.asset⟩
    | some pos =>
      rw [hl] at hpos
      have hpos' : pos = s.accounts t.asset := hpos
      simp only [hpos']
      cases hfifo : (s.accounts t.asset).consumeFifo t.quantity t.price with
      | error e => exact .error e
      | ok result =>
        obtain ⟨r, pos'⟩ := result
        cases r with
        | error e =>
          refine .ok ⟨rfl, ?_⟩
          rw [h.total]
          exact h.insert t.asset pos' _
        | ok events =>
          simp only [ok_bind, pure_eq_ok, h.total]
          refine (Alike.refl (accumulate (s.totals ()) events)).bind ?_
          rintro total _ rfl
          exact .ok ⟨rfl, h.insert t.asset pos' total⟩

/-! ### The consumer -/

/-- The portfolio without its total. -/
def position (p : AssetPortfolio D) : Position D := ⟨p.asset, p.lots, p.totalQuantity⟩

/-- The two loops of `consume_fifo` differ in the name of a variable. -/
theorem fifoLoop_eq (asset : String) (sellPrice : D) (n : ℕ) (s : AssetPortfolio.Fifo D) :
    whileFuel Position.fifoGuard (Position.fifoBody asset sellPrice) n
        ⟨s.lots, s.totalQuantity, s.sellQty, s.events⟩ =
      (whileFuel AssetPortfolio.fifoGuard (AssetPortfolio.fifoBody asset sellPrice) n s).map
        (Option.map fun s => ⟨s.lots, s.totalQuantity, s.sellQty, s.events⟩) := by
  refine whileFuel_map (fun s : AssetPortfolio.Fifo D =>
    (⟨s.lots, s.totalQuantity, s.sellQty, s.events⟩ : Position.Fifo D)) (fun s => rfl) (fun s => ?_) n s
  unfold Position.fifoBody AssetPortfolio.fifoBody
  cases s.lots with
  | nil => rfl
  | cons lot rest =>
    simp only [map_bind]
    rfl

theorem consumeFifo_eq (p : AssetPortfolio D) {sellQty : D} (sellPrice : D)
    (h : sellQty ≤ p.totalQuantity) :
    (position p).consumeFifo sellQty sellPrice =
      (p.consumeFifo sellQty sellPrice).map fun x => (.ok x.1, position x.2) := by
  unfold Position.consumeFifo AssetPortfolio.consumeFifo
  rw [if_neg (show ¬ sellQty > (position p).totalQuantity from not_lt.2 h), map_bind]
  have hloop := fifoLoop_eq p.asset sellPrice (p.lots.length + 1) ⟨p.lots, p.totalQuantity, sellQty, []⟩
  unfold position
  rw [hloop]
  cases whileFuel AssetPortfolio.fifoGuard (AssetPortfolio.fifoBody p.asset sellPrice)
      (p.lots.length + 1) ⟨p.lots, p.totalQuantity, sellQty, []⟩ with
  | error e => rfl
  | ok finished => cases finished <;> rfl

/-- The loop leaves name and total alone. -/
theorem consumeFifo_keeps {p q : AssetPortfolio D} {sellQty sellPrice : D} {events : List (RealizedPnL D)}
    (h : p.consumeFifo sellQty sellPrice = .ok (events, q)) :
    q.asset = p.asset ∧ q.totalRealizedPnl = p.totalRealizedPnl := by
  obtain ⟨finished, -, h⟩ := bind_eq_ok h
  cases finished with
  | none => cases h
  | some s =>
    cases h
    exact ⟨rfl, rfl⟩

/-- The event tells the trade: same asset, quantity and price, and the side as a string. -/
structure Tells (t : Trade D) (event : TradeEvent D) : Prop where
  asset : event.asset = t.asset
  quantity : event.quantity = t.quantity
  price : event.price = t.price
  side : event.side = t.side.str

omit [DecimalOps D] [Zero D] [LinearOrder D] in
/-- What the ledger publishes for a trade tells it. -/
theorem tells_fromResponse (t : Trade D) (notionalValue realizedPnl : D) (eventId : Uuid)
    (now : Timestamp) :
    Tells t (Ledger.fromResponse (Ledger.CreateTrade.respond t notionalValue realizedPnl) eventId now) :=
  ⟨rfl, rfl, rfl, rfl⟩

/-- One portfolio for each asset; an asset that was not traded yet has the empty one. -/
abbrev Consumers (D : Type) := String → AssetPortfolio D

/-- Apply an event to the portfolio of its asset. An error keeps the old value. -/
def Consumers.apply (c : Consumers D) (event : TradeEvent D) :
    Except Panic (Except (PortfolioError D) (List (RealizedPnL D)) × Consumers D) := do
  let (r, p) ← (c event.asset).apply event
  match r with
  | .error e => pure (.error e, c)
  | .ok events => pure (.ok events, Function.update c event.asset p)

/-- The two answers say the same: the same records, or a shortage of the same asset with the same
quantities. -/
def SameAnswer : Answer D → Except (PortfolioError D) (List (RealizedPnL D)) → Prop
  | .ok events, .ok events' => events = events'
  | .error (.insufficientBalance asset required available),
    .error (.insufficientBalance asset' required' available') =>
      asset = asset' ∧ required = required' ∧ available = available'
  | _, _ => False

/-- The portfolio of every asset is its position with its total. -/
structure ConsumersHold (c : Consumers D) (s : Engine String D) : Prop where
  position : ∀ a, s.accounts a = position (c a)
  total : ∀ a, s.totals a = (c a).totalRealizedPnl
  asset : ∀ a, (c a).asset = a

omit [DecimalOps D] [LinearOrder D] in
theorem consumersHold_new : ConsumersHold (AssetPortfolio.new : Consumers D) Engine.new where
  position _ := rfl
  total _ := rfl
  asset _ := rfl

omit [DecimalOps D] [Zero D] [LinearOrder D] in
theorem ConsumersHold.update {c : Consumers D} {s : Engine String D} (h : ConsumersHold c s) {a : String}
    {p : AssetPortfolio D} (hp : p.asset = a) :
    ConsumersHold (Function.update c a p)
      ⟨Function.update s.accounts a (Lockstep.position p),
        Function.update s.totals a p.totalRealizedPnl⟩ where
  position b := by
    by_cases hb : b = a
    · subst hb
      simp
    · simp [Function.update_of_ne hb, h.position b]
  total b := by
    by_cases hb : b = a
    · subst hb
      simp
    · simp [Function.update_of_ne hb, h.total b]
  asset b := by
    by_cases hb : b = a
    · subst hb
      simpa using hp
    · simpa [Function.update_of_ne hb] using h.asset b

/-- The consumer's `apply` and the engine with one total for each asset. -/
theorem consumer_alike {c : Consumers D} {s : Engine String D} (h : ConsumersHold c s) {t : Trade D}
    {event : TradeEvent D} (htells : Tells t event) :
    Alike (fun x y => SameAnswer x.1 y.1 ∧ ConsumersHold y.2 x.2) (s.apply id t) (c.apply event) := by
  have hside : event.getSide = some t.side := getSide_of_str htells.side
  have hpos := h.position t.asset
  have htotal := h.total t.asset
  have hasset := h.asset t.asset
  unfold Engine.apply Accounts.apply Consumers.apply AssetPortfolio.apply
  rw [hside, htells.asset, htells.quantity, htells.price]
  cases t.side with
  | buy =>
    simp only [hpos, id, Position.addLot, Lockstep.position, htotal]
    cases hadd : add (c t.asset).totalQuantity t.quantity with
    | error e => exact .error e
    | ok total => exact .ok ⟨rfl, h.update hasset⟩
  | sell =>
    simp only [hpos, id, htotal]
    rcases le_or_gt t.quantity (c t.asset).totalQuantity with hle | hlt
    · rw [consumeFifo_eq _ _ hle, if_neg (not_lt.2 hle)]
      cases hfifo : (c t.asset).consumeFifo t.quantity t.price with
      | error e => exact .error e
      | ok result =>
        obtain ⟨events, p⟩ := result
        obtain ⟨hname, hkept⟩ := consumeFifo_keeps hfifo
        have hnew : ∀ total, ConsumersHold
            (Function.update c t.asset { p with totalRealizedPnl := total })
            ⟨Function.update s.accounts t.asset (Lockstep.position p),
              Function.update s.totals t.asset total⟩ := fun total => h.update (hname.trans hasset)
        simp only [Except.map, ok_bind, pure_eq_ok, records, hkept, bind_assoc]
        refine (Alike.refl (accumulate (c t.asset).totalRealizedPnl events)).bind ?_
        rintro total _ rfl
        exact .ok ⟨rfl, hnew total⟩
    -- The ledger checks inside `consume_fifo`, the consumer before it.
    · have hshort : (Lockstep.position (c t.asset)).consumeFifo t.quantity t.price = .ok
          (.error (.insufficientBalance (c t.asset).asset t.quantity (c t.asset).totalQuantity),
            Lockstep.position (c t.asset)) := if_pos hlt
      have hsame : ConsumersHold c
          ⟨Function.update s.accounts t.asset (Lockstep.position (c t.asset)),
            Function.update s.totals t.asset (c t.asset).totalRealizedPnl⟩ := by
        rw [← hpos, ← htotal, Function.update_eq_self, Function.update_eq_self]
        exact h
      rw [hshort, if_pos hlt]
      exact .ok ⟨⟨rfl, rfl, rfl⟩, hsame⟩

/-! ### Runs -/

/-- A trade that `Trade::new` has built, with an event that tells it. -/
structure Traded (D : Type) [LinearOrder D] [Zero D] where
  trade : ValidTrade D
  event : TradeEvent D
  tells : Tells trade.trade event

/-- A trade with the event that `from_response` makes of it. -/
def Traded.ofTrade (t : ValidTrade D) (notionalValue realizedPnl : D) (eventId : Uuid)
    (now : Timestamp) : Traded D where
  trade := t
  event :=
    Ledger.fromResponse (Ledger.CreateTrade.respond t.trade notionalValue realizedPnl) eventId now
  tells := tells_fromResponse t.trade notionalValue realizedPnl eventId now

/-- The trades alone. -/
def trades (ts : List (Traded D)) : List (Trade D) := ts.map fun t => t.trade.trade

/-- The ledger applies the trades. -/
def ledgerRun (ts : List (Traded D)) : Except Panic (Portfolio D × List (Answer D)) :=
  results Portfolio.applyTrade Portfolio.new (trades ts)

/-- The consumer applies their events. -/
def consumerRun (ts : List (Traded D)) :
    Except Panic (Consumers D × List (Except (PortfolioError D) (List (RealizedPnL D)))) :=
  results Consumers.apply AssetPortfolio.new (ts.map Traded.event)

/-- The records that a run of the ledger has for the trades of an asset. -/
def recordsFor (a : String) (ts : List (Traded D)) (rs : List (Answer D)) : List (RealizedPnL D) :=
  recordsOf id a (trades ts) rs

/-- All of them. -/
def allRecords (ts : List (Traded D)) (rs : List (Answer D)) : List (RealizedPnL D) :=
  recordsOf (fun _ => ()) () (trades ts) rs

/-- The accounts alone apply the trades. -/
def accountsRun (ts : List (Traded D)) : Except Panic (Accounts D × List (Answer D)) :=
  results Accounts.apply Position.new (trades ts)

theorem ledgerRun_alike (ts : List (Traded D)) :
    Alike (fun x y => LedgerHolds x.1 y.1 ∧ x.2 = y.2) (ledgerRun ts)
      (results (Engine.apply fun _ => ()) Engine.new (trades ts)) := by
  have hsame : List.Forall₂ (fun t u : Trade D => t = u ∧ 0 < t.quantity) (trades ts)
      (trades ts) := by
    rw [trades, List.forall₂_map_left_iff, List.forall₂_map_right_iff, List.forall₂_same]
    exact fun t _ => ⟨rfl, t.trade.positive.1⟩
  have hstep : ∀ (p : Portfolio D) (s : Engine Unit D) (t u : Trade D), LedgerHolds p s →
      t = u ∧ 0 < t.quantity → Alike (fun x y => x.1 = y.1 ∧ LedgerHolds x.2 y.2) (p.applyTrade t)
        (s.apply (fun _ => ()) u) := by
    rintro p s t _ h ⟨rfl, hq⟩
    exact ledger_alike h hq
  refine (results_alike hstep ledgerHolds_new hsame).mono fun x y h => ?_
  exact ⟨h.1, by simpa only [List.forall₂_eq_eq_eq] using h.2⟩

theorem consumerRun_alike (ts : List (Traded D)) :
    Alike (fun x y => ConsumersHold y.1 x.1 ∧ List.Forall₂ SameAnswer x.2 y.2)
      (results (Engine.apply id) Engine.new (trades ts)) (consumerRun ts) := by
  have htells : List.Forall₂ Tells (trades ts) (ts.map Traded.event) := by
    rw [trades, List.forall₂_map_left_iff, List.forall₂_map_right_iff, List.forall₂_same]
    exact fun t _ => t.tells
  exact results_alike (R := fun s c => ConsumersHold c s) (C := Tells)
    (fun s c t e h he => consumer_alike h he) consumersHold_new htells

/-- **The ledger** is the accounts with one total. -/
theorem ledgerRun_eq {ts : List (Traded D)} {p : Portfolio D} {rs : List (Answer D)}
    (h : ledgerRun ts = .ok (p, rs)) : ∃ c, accountsRun ts = .ok (c, rs) ∧
      (∀ a, (p.positions.lookup a).getD (Position.new a) = c a) ∧
      accumulate 0 (allRecords ts rs) = .ok p.totalRealizedPnl := by
  obtain ⟨⟨s, rs'⟩, hrun, hholds, hrs⟩ := (ledgerRun_alike ts).exists_right h
  cases hrs
  obtain ⟨haccounts, htotals⟩ := (Engine.results_iff _).1 hrun
  refine ⟨s.accounts, haccounts, hholds.position, ?_⟩
  rw [hholds.total]
  exact htotals ()

theorem exists_ledgerRun {ts : List (Traded D)} {c : Accounts D} {rs : List (Answer D)}
    (h : accountsRun ts = .ok (c, rs)) {total : D}
    (htotal : accumulate 0 (allRecords ts rs) = .ok total) : ∃ p, ledgerRun ts = .ok (p, rs) := by
  have hrun : results (Engine.apply fun _ => ()) Engine.new (trades ts) =
      .ok (⟨c, fun _ => total⟩, rs) := (Engine.results_iff _).2 ⟨h, fun _ => htotal⟩
  obtain ⟨⟨p, rs'⟩, hp, -, hrs⟩ := (ledgerRun_alike ts).exists_left hrun
  cases hrs
  exact ⟨p, hp⟩

/-- **The consumer** is the accounts with one total for each asset. -/
theorem consumerRun_eq {ts : List (Traded D)} {c : Consumers D}
    {rs' : List (Except (PortfolioError D) (List (RealizedPnL D)))}
    (h : consumerRun ts = .ok (c, rs')) : ∃ accounts rs, accountsRun ts = .ok (accounts, rs) ∧
      List.Forall₂ SameAnswer rs rs' ∧ (∀ a, accounts a = position (c a)) ∧
      ∀ a, accumulate 0 (recordsFor a ts rs) = .ok (c a).totalRealizedPnl := by
  obtain ⟨⟨s, rs⟩, hrun, hholds, hanswers⟩ := (consumerRun_alike ts).exists_left h
  obtain ⟨haccounts, htotals⟩ := (Engine.results_iff _).1 hrun
  refine ⟨s.accounts, rs, haccounts, hanswers, hholds.position, fun a => ?_⟩
  rw [← hholds.total]
  exact htotals a

theorem exists_consumerRun {ts : List (Traded D)} {accounts : Accounts D} {rs : List (Answer D)}
    (h : accountsRun ts = .ok (accounts, rs))
    (htotals : ∀ a, ∃ total, accumulate 0 (recordsFor a ts rs) = .ok total) :
    ∃ r, consumerRun ts = .ok r := by
  choose totals htotals using htotals
  have hrun : results (Engine.apply id) Engine.new (trades ts) = .ok (⟨accounts, totals⟩, rs) :=
    (Engine.results_iff _).2 ⟨h, htotals⟩
  obtain ⟨r, hr, -⟩ := (consumerRun_alike ts).exists_right hrun
  exact ⟨r, hr⟩

/-- **The two engines run in lockstep**, in every decimal arithmetic. If both get to the end of a list of
trades, they have answered the same, and every asset has the same lots and the same quantity in both. If
only one of them does, the other has stopped at one of its running totals of realized PnL: the ledger at
the one over all assets, the consumer at that of one asset. -/
theorem engines_lockstep (ts : List (Traded D)) :
    (∀ p rs c rs', ledgerRun ts = .ok (p, rs) → consumerRun ts = .ok (c, rs') →
      List.Forall₂ SameAnswer rs rs' ∧
      (∀ a, (p.positions.lookup a).getD (Position.new a) = position (c a)) ∧
      accumulate 0 (allRecords ts rs) = .ok p.totalRealizedPnl ∧
      ∀ a, accumulate 0 (recordsFor a ts rs) = .ok (c a).totalRealizedPnl) ∧
    (∀ p rs, ledgerRun ts = .ok (p, rs) → ((∃ r, consumerRun ts = .ok r) ↔
      ∀ a, ∃ total, accumulate 0 (recordsFor a ts rs) = .ok total)) ∧
    ∀ c rs', consumerRun ts = .ok (c, rs') → ∃ rs, List.Forall₂ SameAnswer rs rs' ∧
      ((∃ r, ledgerRun ts = .ok r) ↔ ∃ total, accumulate 0 (allRecords ts rs) = .ok total) := by
  refine ⟨fun p rs c rs' hp hc => ?_, fun p rs hp => ?_, fun c rs' hc => ?_⟩
  · obtain ⟨accounts, hrun, hpositions, htotal⟩ := ledgerRun_eq hp
    obtain ⟨accounts', rs₁, hrun', hanswers, hpositions', htotals⟩ := consumerRun_eq hc
    cases hrun.symm.trans hrun'
    exact ⟨hanswers, fun a => (hpositions a).trans (hpositions' a), htotal, htotals⟩
  · obtain ⟨accounts, hrun, -, -⟩ := ledgerRun_eq hp
    constructor
    · rintro ⟨⟨c, rs'⟩, hc⟩
      obtain ⟨accounts', rs₁, hrun', -, -, htotals⟩ := consumerRun_eq hc
      cases hrun.symm.trans hrun'
      exact fun a => ⟨_, htotals a⟩
    · exact exists_consumerRun hrun
  · obtain ⟨accounts, rs, hrun, hanswers, -, -⟩ := consumerRun_eq hc
    refine ⟨rs, hanswers, ?_⟩
    constructor
    · rintro ⟨⟨p, rs₁⟩, hp⟩
      obtain ⟨accounts', hrun', -, htotal⟩ := ledgerRun_eq hp
      cases hrun.symm.trans hrun'
      exact ⟨_, htotal⟩
    · rintro ⟨total, htotal⟩
      obtain ⟨p, hp⟩ := exists_ledgerRun hrun htotal
      exact ⟨_, hp⟩

/-- A trade of `10 ^ 11` at a price above zero, with its event. -/
def sampleTraded (id : Uuid) (asset : String) (side : TradeSide) (price : Dec) (hp : 0 < price) :
    Traded Dec :=
  .ofTrade
    { trade := ⟨id, asset, Dec.ofNat (10 ^ 11) (by decide), price, 0, side⟩
      built := by
        have hq : (0 : Dec) < Dec.ofNat (10 ^ 11) (by decide) := by decide +kernel
        rw [Trade.new, if_neg (not_le.2 hq), if_neg (not_le.2 hp)] }
    price price id 0

/-- The prices at which each of two assets is bought and sold. -/
def lowPrice : Dec := Dec.ofNat 1 one_lt_mantissaBound
def highPrice : Dec := Dec.ofNat (7 * 10 ^ 17) (by decide)

theorem lowPrice_pos : 0 < lowPrice := by decide +kernel
theorem highPrice_pos : 0 < highPrice := by decide +kernel

/-- Each of the two gains fits a decimal, their sum does not. -/
def twoGains : List (Traded Dec) :=
  [sampleTraded 1 "BTC" .buy lowPrice lowPrice_pos, sampleTraded 2 "BTC" .sell highPrice highPrice_pos,
    sampleTraded 3 "ETH" .buy lowPrice lowPrice_pos, sampleTraded 4 "ETH" .sell highPrice highPrice_pos]

theorem engines_lockstep_twoGains : ∃ c rs', consumerRun twoGains = .ok (c, rs') ∧
    ∃ rs, List.Forall₂ SameAnswer rs rs' ∧
      ∀ total, accumulate 0 (allRecords twoGains rs) ≠ .ok total := by
  have hconsumer : (consumerRun twoGains).isOk = true := by decide +kernel
  have hledger : (ledgerRun twoGains).isOk = false := by decide +kernel
  obtain ⟨⟨c, rs'⟩, hc⟩ : ∃ r, consumerRun twoGains = .ok r := by
    cases hr : consumerRun twoGains with
    | error e =>
      rw [hr] at hconsumer
      cases hconsumer
    | ok r => exact ⟨r, rfl⟩
  obtain ⟨rs, hsame, hiff⟩ := (engines_lockstep twoGains).2.2 c rs' hc
  refine ⟨c, rs', hc, rs, hsame, fun total htotal => ?_⟩
  obtain ⟨r, hr⟩ := hiff.2 ⟨total, htotal⟩
  rw [hr] at hledger
  cases hledger

end Lockstep
end CryptoAccounting

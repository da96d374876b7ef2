import CryptoAccounting.Consumer.Engine
import CryptoAccounting.Consumer.Processor
import CryptoAccounting.Lib.Tables
import CryptoAccounting.Lib.Transition

/-!
# The stored FIFO state

A row of `portfolio_state` holds the same quantity twice: lot by lot in a JSONB array, and as a total
in a `NUMERIC(28, 10)` column that rounds. `sound_iff` says exactly when the two stay equal, over every
sequence of calls of `process`: as long as every event that is taken has a quantity of whole column
steps. One event that has not is enough for a sell that the total covers to empty the queue of lots.
-/

namespace CryptoAccounting
namespace Consumer

open Segments Rounding Tables Transition

/-! ### Which events are taken -/

/-- The columns of the row and of the snapshot take their values. -/
structure Fits (num : ℚ → Option ℚ) (p : AssetPortfolio ℚ) (event : TradeEvent ℚ)
    (side : TradeSide) : Prop where
  totalQuantity : (num (p.after event side).totalQuantity).isSome
  totalRealizedPnl : (num (p.after event side).totalRealizedPnl).isSome
  quantity : (num event.quantity).isSome
  price : (num event.price).isSome
  realizedPnl : (num (p.gain event side)).isSome

/-- The event is new, no statement fails, the portfolio of its asset accepts it, and the columns
take the result. -/
def Takes (num : ℚ → Option ℚ) (db : Db) (event : TradeEvent ℚ) (d : Delivery) : Prop :=
  d.Commits ∧ event.eventId ∉ db.processedIds ∧
    ∃ side, (db.portfolio event.asset).Accepts event side ∧
      Fits num (db.portfolio event.asset) event side

variable {num : ℚ → Option ℚ} {db db' : Db} {event : TradeEvent ℚ} {d : Delivery}

/-- A recorded event was taken, and its asset's row holds the portfolio after it. -/
theorem Recorded.takes (h : Recorded num db event d db')
    (hb : (db.portfolio event.asset).Balanced) (hq : 0 < event.quantity) :
    ∃ side row, (db.portfolio event.asset).Accepts event side ∧
      Fits num (db.portfolio event.asset) event side ∧
      row.lots = ((db.portfolio event.asset).after event side).lots ∧
      num ((db.portfolio event.asset).after event side).totalQuantity = some row.totalQuantity ∧
      db'.portfolioState = Function.update db.portfolioState event.asset (some row) := by
  obtain ⟨-, -, pnlEvents, portfolio, row, snapshot, happ, hrow, hsnap, rfl⟩ := h
  by_cases hacc : ∃ side, (db.portfolio event.asset).Accepts event side
  · obtain ⟨side, hacc⟩ := hacc
    rw [apply_accepted hb hq hacc] at happ
    cases happ
    rw [hb.sum_fillsOf hq hacc] at hsnap
    obtain ⟨hlots, htotal, hrealized⟩ := ofPortfolio_eq_some hrow
    obtain ⟨-, hquantity, hprice, hgain, -⟩ := snapshot_eq_some hsnap
    refine ⟨side, row, hacc, ?_, hlots, htotal, rfl⟩
    exact ⟨by rw [htotal]; rfl, by rw [hrealized]; rfl, by rw [hquantity]; rfl,
      by rw [hprice]; rfl, by rw [hgain]; rfl⟩
  · obtain ⟨e, he⟩ := apply_refused fun side hs => hacc ⟨side, hs⟩
    rw [he] at happ
    cases happ

/-- An event that is taken is recorded. -/
theorem Takes.recorded (h : Takes num db event d) (hb : (db.portfolio event.asset).Balanced)
    (hq : 0 < event.quantity) : ∃ db', Recorded num db event d db' := by
  obtain ⟨hd, hnew, side, hacc, hfits⟩ := h
  obtain ⟨totalQuantity, htotal⟩ := Option.isSome_iff_exists.1 hfits.totalQuantity
  obtain ⟨totalRealized, hrealized⟩ := Option.isSome_iff_exists.1 hfits.totalRealizedPnl
  obtain ⟨quantity, hquantity⟩ := Option.isSome_iff_exists.1 hfits.quantity
  obtain ⟨price, hprice⟩ := Option.isSome_iff_exists.1 hfits.price
  obtain ⟨gain, hgain⟩ := Option.isSome_iff_exists.1 hfits.realizedPnl
  obtain ⟨row, hrow⟩ : ∃ row, PortfolioRow.ofPortfolio num
      ((db.portfolio event.asset).after event side) event.eventId event.timestamp = some row := by
    simp [PortfolioRow.ofPortfolio, htotal, hrealized]
  obtain ⟨snapshot, hsnap⟩ : ∃ snapshot, PnlSnapshot.of num d.snapshotId event
      ((db.portfolio event.asset).gain event side)
      ((db.portfolio event.asset).after event side).totalRealizedPnl d.now = some snapshot := by
    simp [PnlSnapshot.of, hquantity, hprice, hgain, hrealized]
  rw [← hb.sum_fillsOf hq hacc] at hsnap
  exact ⟨_, hd, hnew, _, _, row, snapshot, apply_accepted hb hq hacc, hrow, hsnap, rfl⟩

/-! ### Runs of the processor -/

/-- A deserialised event with a positive quantity and price. -/
structure ValidEvent where
  event : TradeEvent ℚ
  quantity_pos : 0 < event.quantity
  price_pos : 0 < event.price

/-- One call after the other. A panic is rolled back, like an error. -/
def Db.processNext (num : ℚ → Option ℚ) (db : Db) (call : ValidEvent × Delivery) : Option Db :=
  match process num db call.1.event call.2 with
  | .ok (_, db') => some db'
  | .error _ => some db

/-- A call records the event or changes nothing. -/
theorem processNext_cases {call : ValidEvent × Delivery}
    (h : db.processNext num call = some db') :
    Recorded num db call.1.event call.2 db' ∨ db' = db := by
  unfold Db.processNext at h
  cases hp : process num db call.1.event call.2 with
  | error e =>
    simp only [hp] at h
    cases h
    exact .inr rfl
  | ok res =>
    obtain ⟨r, db''⟩ := res
    simp only [hp] at h
    cases h
    have hh := process_handled hp
    match r, hh with
    | .ok true, hh => exact .inl hh
    | .ok false, hh => exact .inr hh.2
    | .error _, .inl hh => exact .inr hh
    | .error _, .inr hh => exact .inl hh

theorem processNext_of_recorded {call : ValidEvent × Delivery}
    (h : Recorded num db call.1.event call.2 db') : db.processNext num call = some db' := by
  obtain ⟨r, hr⟩ := process_of_recorded h
  simp only [Db.processNext, hr]

/-! ### Soundness of the rows -/

/-- The total of the row is the sum of its lots, so that no covered sell empties the queue, and no
sell of at most the held lots is refused. -/
structure PortfolioRow.Sound (asset : String) (row : PortfolioRow) : Prop where
  total : row.totalQuantity = (row.lots.map Lot.quantity).sum
  no_panic : ∀ q price : ℚ, 0 < q → q ≤ row.totalQuantity →
    ∃ r, (row.toPortfolio asset).consumeFifo q price = .ok r
  admits : ∀ event : TradeEvent ℚ, event.getSide = some .sell → 0 < event.quantity →
    event.quantity ≤ (row.lots.map Lot.quantity).sum →
    ∃ events p, (row.toPortfolio asset).apply event = .ok (.ok events, p)

/-- Every row is sound. -/
def Db.Sound (db : Db) : Prop :=
  ∀ asset row, db.portfolioState asset = some row → row.Sound asset

/-- What the rows are in any case: positive lots, and a total that came out of a column. -/
def Db.Stored (db : Db) : Prop :=
  ∀ asset row, db.portfolioState asset = some row →
    Positive (row.lots.map Lot.pair) ∧ row.totalQuantity ∈ grid columnStep

theorem PortfolioRow.sound_iff_balanced {asset : String} {row : PortfolioRow}
    (hl : Positive (row.lots.map Lot.pair)) :
    row.Sound asset ↔ (row.toPortfolio asset).Balanced := by
  constructor
  · intro h
    exact ⟨hl, h.total.trans (weight_pairs row.lots).symm⟩
  · intro h
    refine ⟨h.total.trans (weight_pairs row.lots), ?_, ?_⟩
    · intro q price hq hle
      have hw : q ≤ weight (row.toPortfolio asset).pairs := h.total ▸ hle
      exact ⟨_, consumeFifo_exact h.positive hq.le hw price⟩
    · intro event hs hq hle
      rw [← weight_pairs] at hle
      have hle' : event.quantity ≤ (row.toPortfolio asset).totalQuantity := h.total.symm ▸ hle
      exact ⟨_, _, apply_accepted h hq ⟨hs, fun _ => hle'⟩⟩

theorem Db.Stored.balanced (h : db.Stored) (hs : db.Sound) (asset : String) :
    (db.portfolio asset).Balanced := by
  unfold Db.portfolio
  cases hrow : db.portfolioState asset with
  | none => exact AssetPortfolio.balanced_new asset
  | some row => exact (PortfolioRow.sound_iff_balanced (h asset row hrow).1).1 (hs asset row hrow)

theorem Db.Stored.total_mem_grid (h : db.Stored) (asset : String) :
    (db.portfolio asset).totalQuantity ∈ grid columnStep := by
  unfold Db.portfolio
  cases hrow : db.portfolioState asset with
  | none => exact zero_mem _
  | some row => exact (h asset row hrow).2

/-- From a total of whole steps, the new total is one exactly when the quantity is. -/
theorem after_total_mem_grid {p : AssetPortfolio ℚ} (h : p.totalQuantity ∈ grid columnStep)
    (side : TradeSide) : (p.after event side).totalQuantity ∈ grid columnStep ↔
      event.quantity ∈ grid columnStep := by
  cases side with
  | buy => exact add_mem_cancel_left h
  | sell =>
    have hsub : p.totalQuantity - event.quantity ∈ grid columnStep ↔
        -event.quantity ∈ grid columnStep := by
      rw [sub_eq_add_neg]
      exact add_mem_cancel_left h
    exact hsub.trans neg_mem_iff

/-! ### When the rows stay sound -/

/-- The quantity of the event is a whole number of column steps if the event is taken. -/
def OnColumnGrid (db : Db) (call : ValidEvent × Delivery) : Prop :=
  Takes numericColumn db call.1.event call.2 → call.1.event.quantity ∈ grid columnStep

theorem stored_next {call : ValidEvent × Delivery} (h : db.Stored) (hs : db.Sound)
    (hn : db.processNext numericColumn call = some db') : db'.Stored := by
  rcases processNext_cases hn with hrec | rfl
  · have hb := h.balanced hs call.1.event.asset
    obtain ⟨side, row, hacc, -, hlots, htotal, hstate⟩ := hrec.takes hb call.1.quantity_pos
    unfold Db.Stored
    rw [hstate, forall_update]
    refine ⟨⟨?_, mem_grid_of_numericColumn htotal⟩, fun asset _ => h asset⟩
    rw [hlots]
    exact (hb.after call.1.quantity_pos hacc).positive
  · exact h

/-- The new row is sound exactly when the column took the total as it was. -/
theorem sound_recorded_iff {call : ValidEvent × Delivery} (h : db.Stored) (hs : db.Sound)
    (hrec : Recorded numericColumn db call.1.event call.2 db') :
    db'.Sound ↔ call.1.event.quantity ∈ grid columnStep := by
  have hb := h.balanced hs call.1.event.asset
  obtain ⟨side, row, hacc, -, hlots, htotal, hstate⟩ := hrec.takes hb call.1.quantity_pos
  have hafter := hb.after call.1.quantity_pos hacc
  have hpos : Positive (row.lots.map Lot.pair) := hlots ▸ hafter.positive
  have hrow : row.Sound call.1.event.asset ↔ call.1.event.quantity ∈ grid columnStep := by
    rw [PortfolioRow.sound_iff_balanced hpos,
      ← after_total_mem_grid (h.total_mem_grid call.1.event.asset) side,
      ← numericColumn_eq_self_iff htotal, hafter.total]
    constructor
    · intro hbal
      rw [AssetPortfolio.pairs, ← hlots]
      exact hbal.total
    · intro htot
      refine ⟨hpos, htot.trans ?_⟩
      rw [AssetPortfolio.pairs, ← hlots]
      rfl
  unfold Db.Sound
  rw [hstate, forall_update, hrow]
  exact and_iff_left fun asset _ => hs asset

/-- **When the stored state stays consistent.** Over every sequence of calls, every row is sound in
every state exactly when each event that is taken has a quantity of whole column steps. -/
theorem sound_iff (calls : List (ValidEvent × Delivery)) :
    EveryState (Db.processNext numericColumn) Db.Sound Db.empty calls ↔
      EveryStep (Db.processNext numericColumn) OnColumnGrid Db.empty calls := by
  refine everyState_iff_everyStep Db.Stored Db.Sound ?_ ?_ ?_ ?_ ?_
  · intro db call db' h hs hn
    exact stored_next h hs hn
  · intro db call db' h hs hc hn
    rcases processNext_cases hn with hrec | rfl
    · obtain ⟨side, row, hacc, hfits, -⟩ :=
        hrec.takes (h.balanced hs call.1.event.asset) call.1.quantity_pos
      exact (sound_recorded_iff h hs hrec).2 (hc ⟨hrec.1, hrec.2.1, side, hacc, hfits⟩)
    · exact hs
  · intro db call db' h hs hn hs' htakes
    obtain ⟨db'', hrec⟩ :=
      htakes.recorded (h.balanced hs call.1.event.asset) call.1.quantity_pos
    rw [processNext_of_recorded hrec] at hn
    cases hn
    exact (sound_recorded_iff h hs hrec).1 hs'
  · intro asset row hrow
    cases hrow
  · intro asset row hrow
    cases hrow

/-! ### A total that exceeds its lots -/

/-- A buy of half a column step. -/
def halfStep : ValidEvent where
  event := sampleEvent 1 .buy (5 / 10 ^ 11)
  quantity_pos := by decide +kernel
  price_pos := by decide +kernel

/-- The column rounds half a step up to a whole one, and the total is twice the lots. -/
theorem half_step_unsound : ¬ ∀ (calls : List (ValidEvent × Delivery)) (db : Db),
    run (Db.processNext numericColumn) Db.empty calls = some db → db.Sound := by
  intro h
  have hrun : (run (Db.processNext numericColumn) Db.empty [(halfStep, ⟨0, 0, 0, 0, none⟩)]).map
      (fun db => db.portfolioState "BTC") =
        some (some ⟨[⟨5 / 10 ^ 11, 100⟩], 1 / 10 ^ 10, 0, some 1, some 0⟩) := by decide +kernel
  obtain ⟨db, hdb, hrow⟩ := Option.map_eq_some_iff.1 hrun
  have htotal := (h _ db hdb "BTC" _ hrow).total
  exact absurd htotal (by decide +kernel)

/-- A sell that this total covers finds the queue empty. -/
example : (run (Db.processNext numericColumn) Db.empty [(halfStep, ⟨0, 0, 0, 0, none⟩)]).map
    (fun db => (db.portfolio "BTC").apply (sampleEvent 2 .sell (1 / 10 ^ 10))) =
      some (.error (.expect "lot queue unexpectedly empty")) := by decide +kernel

end Consumer
end CryptoAccounting

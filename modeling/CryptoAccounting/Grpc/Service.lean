import CryptoAccounting.Consumer.Progress
import CryptoAccounting.Wire

/-!
# The gRPC service

`PnlServiceImpl` of pnl-grpc reads `portfolio_state`, the table the consumer writes, and answers with
texts. In every state the consumer can reach, `GetPnlSummary` tells the fold of `apply` over the
committed events of the asset, and is not found exactly when there are none (`summary_tells_fold`);
`ListAssets` lists the assets with a committed event, and what it has listed stays there
(`listed_assets_answer`).
-/

namespace CryptoAccounting
namespace Grpc

open Consumer Json Rounding Transition

variable {D : Type}

/-! ### Messages -/

inductive Code
  | invalidArgument
  | notFound
  | internal
  deriving DecidableEq, Repr

/-- `tonic::Status`. -/
structure Status where
  code : Code
  message : String
  deriving DecidableEq, Repr

/-- The message `Lot` of `pnl.proto`. -/
structure ProtoLot where
  quantity : String
  costPerUnit : String
  deriving DecidableEq, Repr

structure GetPnlSummaryResponse where
  asset : String
  totalRealizedPnl : String
  totalQuantity : String
  openLots : List ProtoLot
  deriving DecidableEq, Repr

/-- The row `get_pnl_summary` selects. -/
structure Row (D : Type) where
  asset : String
  lots : Json
  totalQuantity : D
  totalRealizedPnl : D

/-! ### The service -/

/-- `get_pnl_summary`, with what the query returns: an error, no row, or a row. `serdeError` is the
text of the error for lots that cannot be read. -/
def getPnlSummary (w : Texts D) (serdeError : Json → String)
    (fetchOptional : String → Except String (Option (Row D))) (asset : String) :
    Except Status GetPnlSummaryResponse :=
  if asset = "" then
    .error ⟨.invalidArgument, "asset must not be empty"⟩
  else
    match fetchOptional asset with
    | .error e => .error ⟨.internal, e⟩
    | .ok none => .error ⟨.notFound, "no portfolio state found for asset '" ++ asset ++ "'"⟩
    | .ok (some row) =>
      match readLots w lotFields row.lots with
      | none => .error ⟨.internal, "deserialize lots: " ++ serdeError row.lots⟩
      | some lots =>
        .ok
          { asset := row.asset
            totalRealizedPnl := w.decimal.print row.totalRealizedPnl
            totalQuantity := w.decimal.print row.totalQuantity
            openLots := lots.map fun l =>
              ⟨w.decimal.print l.quantity, w.decimal.print l.costPerUnit⟩ }

/-- `list_assets`, with what the query returns. -/
def listAssets (fetchAll : Except String (List String)) : Except Status (List String) :=
  match fetchAll with
  | .error e => .error ⟨.internal, e⟩
  | .ok assets => .ok assets

/-! ### The queries -/

/-- The row the query finds: that of the asset, with decimals that have the values of its columns and
lots as `save_portfolio` has written them. -/
structure Row.Stores (w : Texts D) (val : D → ℚ) (asset : String) (row : PortfolioRow) (r : Row D) :
    Prop where
  asset : r.asset = asset
  lots : ∃ lots : List (Lot D), lots.map (Lot.map val) = row.lots ∧ r.lots = jsonb (lotsJson w lots)
  totalQuantity : val r.totalQuantity = row.totalQuantity
  totalRealizedPnl : val r.totalRealizedPnl = row.totalRealizedPnl

/-- The first query answers from these tables. -/
def Selects (w : Texts D) (val : D → ℚ) (db : Db)
    (fetchOptional : String → Except String (Option (Row D))) : Prop :=
  ∀ asset, ∃ found, fetchOptional asset = .ok found ∧
    match db.portfolioState asset, found with
    | none, none => True
    | some row, some r => r.Stores w val asset row
    | _, _ => False

/-- `SELECT asset FROM portfolio_state ORDER BY asset`: every key once, in the order of the database's
collation. -/
structure SelectsAssets (collate : String → String → Prop) (db : Db) (assets : List String) : Prop where
  mem_iff : ∀ asset, asset ∈ assets ↔ (db.portfolioState asset).isSome
  nodup : assets.Nodup
  sorted : assets.Pairwise collate

/-! ### Summaries -/

/-- The decimals of a response, read back. -/
def GetPnlSummaryResponse.lots (w : Texts D) (resp : GetPnlSummaryResponse) : Option (List (Lot D)) :=
  resp.openLots.mapM fun l => do
    let quantity ← w.decimal.read (.string l.quantity)
    let costPerUnit ← w.decimal.read (.string l.costPerUnit)
    pure { quantity, costPerUnit }

/-- The response tells this portfolio: whoever reads its texts has the portfolio's values. -/
structure GetPnlSummaryResponse.Tells (w : Texts D) (val : D → ℚ) (p : AssetPortfolio ℚ)
    (resp : GetPnlSummaryResponse) : Prop where
  asset : resp.asset = p.asset
  lots : ∃ lots : List (Lot D), resp.lots w = some lots ∧ lots.map (Lot.map val) = p.lots
  totalQuantity : ∃ d, w.decimal.read (.string resp.totalQuantity) = some d ∧
    val d = p.totalQuantity
  totalRealizedPnl : ∃ d, w.decimal.read (.string resp.totalRealizedPnl) = some d ∧
    val d = p.totalRealizedPnl

variable {w : Texts D} {val : D → ℚ} {serdeError : Json → String} {db : Db}
  {fetchOptional : String → Except String (Option (Row D))} {asset : String}

theorem lots_of_printed (w : Texts D) (asset : String) (d d' : String) (lots : List (Lot D)) :
    GetPnlSummaryResponse.lots w ⟨asset, d, d', lots.map fun l =>
      ⟨w.decimal.print l.quantity, w.decimal.print l.costPerUnit⟩⟩ = some lots := by
  unfold GetPnlSummaryResponse.lots
  induction lots with
  | nil => rfl
  | cons l lots ih =>
    dsimp only at ih ⊢
    rw [List.map_cons, List.mapM_cons, ih]
    simp [w.decimal.read_print]

/-- Without a row there is no summary. -/
theorem getPnlSummary_none (hdb : Selects w val db fetchOptional) (hasset : asset ≠ "")
    (hrow : db.portfolioState asset = none) :
    getPnlSummary w serdeError fetchOptional asset =
      .error ⟨.notFound, "no portfolio state found for asset '" ++ asset ++ "'"⟩ := by
  obtain ⟨found, hfetch, hfound⟩ := hdb asset
  rw [hrow] at hfound
  unfold getPnlSummary
  rw [if_neg hasset, hfetch]
  cases found with
  | none => rfl
  | some r => exact hfound.elim

/-- The summary of a row tells the portfolio that would be loaded from it. -/
theorem getPnlSummary_some (serdeError : Json → String) (hdb : Selects w val db fetchOptional)
    (hasset : asset ≠ "") {row : PortfolioRow} (hrow : db.portfolioState asset = some row) :
    ∃ resp, getPnlSummary w serdeError fetchOptional asset = .ok resp ∧
      resp.Tells w val (row.toPortfolio asset) := by
  obtain ⟨found, hfetch, hfound⟩ := hdb asset
  rw [hrow] at hfound
  cases found with
  | none => exact hfound.elim
  | some r =>
    have hstores : r.Stores w val asset row := hfound
    obtain ⟨lots, hlots, hjson⟩ := hstores.lots
    unfold getPnlSummary
    simp only [if_neg hasset, hfetch, hjson, (readLots_jsonb w lots).2]
    refine ⟨_, rfl, hstores.asset, ⟨lots, lots_of_printed .., hlots⟩, ?_, ?_⟩
    · exact ⟨r.totalQuantity, w.decimal.read_print _, hstores.totalQuantity⟩
    · exact ⟨r.totalRealizedPnl, w.decimal.read_print _, hstores.totalRealizedPnl⟩

/-! ### Over the consumer's runs -/

variable {s s' : Server} {actions : List Server.Action}

/-- In a run whose commits change the totals by whole column steps, the rows are folds. -/
theorem run_folded (hs : run (Server.step numericColumn) Server.init actions = some s)
    (hexact : EveryStep (Server.step numericColumn) CommitsOnSteps Server.init actions) :
    s.Inv ∧ Folded s.log s.db := by
  refine hexact.last (fun s => s.Inv ∧ Folded s.log s.db) ?_ ⟨Server.inv_init, folded_init⟩ hs
  rintro s a t ⟨hinv, hfolded⟩ ha ht
  exact ⟨hinv.step ht, (hinv.folded_step_iff hfolded ht).2 ha⟩

/-- An asset has a row exactly when it has a committed event. -/
theorem portfolioState_eq_none_iff {num : ℚ → Option ℚ} {log : List (TradeEvent ℚ × Delivery)}
    (h : History num log db) (asset : String) :
    db.portfolioState asset = none ↔ eventsOf log asset = [] := by
  have hrow := h.portfolioState asset
  rw [← Option.not_isSome_iff_eq_none, hrow, not_exists]
  unfold eventsOf
  rw [List.filter_eq_nil_iff, List.forall_mem_map]
  refine forall_congr' fun c => ?_
  simp

/-- **Summaries.** In every state the consumer reaches, with columns that hold the totals as they are,
and whatever transactions are open, the service answers for an asset with the fold of `apply` over its
committed events, and with `NOT_FOUND` exactly when there are none; it never fails to read the lots. -/
theorem summary_tells_fold (w : Texts D) (val : D → ℚ) (serdeError : Json → String)
    (actions : List Server.Action) (s : Server)
    (hs : run (Server.step numericColumn) Server.init actions = some s)
    (hexact : EveryStep (Server.step numericColumn) CommitsOnSteps Server.init actions)
    (fetchOptional : String → Except String (Option (Row D))) (hdb : Selects w val s.db fetchOptional)
    (asset : String) :
    if asset = "" then
      getPnlSummary w serdeError fetchOptional asset =
        .error ⟨.invalidArgument, "asset must not be empty"⟩
    else if eventsOf s.log asset = [] then
      getPnlSummary w serdeError fetchOptional asset =
        .error ⟨.notFound, "no portfolio state found for asset '" ++ asset ++ "'"⟩
    else
      ∃ p resp, (AssetPortfolio.new asset).replay (eventsOf s.log asset) = some p ∧
        getPnlSummary w serdeError fetchOptional asset = .ok resp ∧ resp.Tells w val p := by
  obtain ⟨hinv, hfolded⟩ := run_folded hs hexact
  have hrow_iff := portfolioState_eq_none_iff hinv.history asset
  split_ifs with hasset hevents
  · unfold getPnlSummary
    rw [if_pos hasset]
  · exact getPnlSummary_none hdb hasset (hrow_iff.2 hevents)
  · obtain ⟨row, hrow⟩ := Option.ne_none_iff_exists'.1 fun hnone => hevents (hrow_iff.1 hnone)
    obtain ⟨resp, hresp, htells⟩ := getPnlSummary_some serdeError hdb hasset hrow
    exact ⟨_, resp, hfolded asset row hrow, hresp, htells⟩

/-! ### A database -/

/-- What the first query answers from these rows. -/
def answers (rows : List (Row D)) (asset : String) : Except String (Option (Row D)) :=
  .ok (rows.find? fun r => r.asset = asset)

theorem find_stores {assets : List String} {rows : List (Row D)}
    (h : List.Forall₂ (fun a r => ∃ row, db.portfolioState a = some row ∧ r.Stores w val a row)
      assets rows) (asset : String) :
    (asset ∉ assets → rows.find? (fun r => r.asset = asset) = none) ∧
    (asset ∈ assets → ∃ row r, db.portfolioState asset = some row ∧
      rows.find? (fun r => r.asset = asset) = some r ∧ r.Stores w val asset row) := by
  induction h with
  | nil => exact ⟨fun _ => rfl, nofun⟩
  | @cons a r assets rows hrow _ ih =>
    obtain ⟨row, hrow, hstores⟩ := hrow
    by_cases ha : a = asset
    · subst ha
      have hfound : (r :: rows).find? (fun r => r.asset = a) = some r :=
        List.find?_cons_of_pos (decide_eq_true hstores.asset)
      exact ⟨fun hnot => absurd List.mem_cons_self hnot, fun _ => ⟨row, r, hrow, hfound, hstores⟩⟩
    · have hskip : (r :: rows).find? (fun r => r.asset = asset) =
          rows.find? fun r => r.asset = asset := by
        refine List.find?_cons_of_neg ?_
        rw [decide_eq_true_eq, hstores.asset]
        exact ha
      rw [hskip, List.mem_cons, or_iff_right (Ne.symm ha)]
      exact ih

/-- Rows that store what the listed assets have are what the query finds. -/
theorem selects_answers {collate : String → String → Prop} {assets : List String} {rows : List (Row D)}
    (hlist : SelectsAssets collate db assets)
    (h : List.Forall₂ (fun a r => ∃ row, db.portfolioState a = some row ∧ r.Stores w val a row)
      assets rows) : Selects w val db (answers rows) := by
  intro asset
  refine ⟨_, rfl, ?_⟩
  by_cases hmem : asset ∈ assets
  · obtain ⟨row, r, hrow, hfind, hstores⟩ := (find_stores h asset).2 hmem
    rw [hrow, hfind]
    exact hstores
  · have hrow : db.portfolioState asset = none := by
      rw [← Option.not_isSome_iff_eq_none, ← hlist.mem_iff]
      exact hmem
    rw [hrow, (find_stores h asset).1 hmem]
    trivial

/-- The assets of the log, sorted. -/
theorem selectsAssets_of_log {num : ℚ → Option ℚ} {log : List (TradeEvent ℚ × Delivery)}
    (h : History num log db) {assets : List String}
    (hset : (log.map fun c => c.1.asset).toFinset = assets.toFinset) (hnodup : assets.Nodup)
    (hsorted : assets.Pairwise (· ≤ ·)) : SelectsAssets (· ≤ ·) db assets where
  mem_iff a := by
    rw [← List.mem_toFinset, ← hset, h.portfolioState]
    simp
  nodup := hnodup
  sorted := hsorted

/-! ### A sell that is not committed yet -/

/-- Of two BTC bought at 100 one is sold at 130; the sell of another half at 90 is saved, but still
open. -/
def openSell : List Server.Action :=
  statements 0 (sampleEvent 1 .buy 2) ⟨0, 0, 0, 0, none⟩ ++
    statements 1 { sampleEvent 2 .sell 1 with price := 130 } ⟨0, 1, 1, 1, none⟩ ++
    [.begin 2 { sampleEvent 3 .sell (1 / 2) with price := 90 } ⟨0, 2, 2, 2, none⟩, .claim 2, .upsert 2,
      .select 2, .save 2]

/-- It is committed, and ETH is bought. -/
def laterCommits : List Server.Action :=
  [.snapshot 2, .commit 2] ++
    statements 3 { sampleEvent 4 .buy 3 with asset := "ETH" } ⟨1, 0, 3, 3, none⟩

/-- The row of BTC before it. -/
def btcBefore : Row FixedPoint :=
  ⟨"BTC", jsonb (lotsJson fixedPointTexts [⟨⟨100, 2⟩, ⟨10000, 2⟩⟩]), ⟨1, 0⟩, ⟨30, 0⟩⟩

/-- The rows after it. -/
def rowsAfter : List (Row FixedPoint) :=
  [⟨"BTC", jsonb (lotsJson fixedPointTexts [⟨⟨5, 1⟩, ⟨10000, 2⟩⟩]), ⟨5, 1⟩, ⟨250, 1⟩⟩,
    ⟨"ETH", jsonb (lotsJson fixedPointTexts [⟨⟨3, 0⟩, ⟨10000, 2⟩⟩]), ⟨3, 0⟩, ⟨0, 0⟩⟩]

theorem openSell_runs : ∃ s, run (Server.step numericColumn) Server.init openSell = some s ∧
    (s.txs 2).isSome ∧ s.log.map Prod.fst =
      [sampleEvent 1 .buy 2, { sampleEvent 2 .sell 1 with price := 130 }] ∧
    s.db.portfolioState "BTC" = some ⟨[⟨1, 100⟩], 1, 30, some 2, some 0⟩ := by
  have hview : (run (Server.step numericColumn) Server.init openSell).map
      (fun s => ((s.txs 2).isSome, s.log.map Prod.fst, s.db.portfolioState "BTC")) =
        some (true, [sampleEvent 1 .buy 2, { sampleEvent 2 .sell 1 with price := 130 }],
          some ⟨[⟨1, 100⟩], 1, 30, some 2, some 0⟩) := by decide +kernel
  obtain ⟨s, hs, hparts⟩ := Option.map_eq_some_iff.1 hview
  obtain ⟨hopen, hparts⟩ := Prod.mk.inj hparts
  exact ⟨s, hs, hopen, (Prod.mk.inj hparts).1, (Prod.mk.inj hparts).2⟩

theorem openSell_lists {s : Server} (hs : run (Server.step numericColumn) Server.init openSell = some s)
    (hlog : s.log.map Prod.fst =
      [sampleEvent 1 .buy 2, { sampleEvent 2 .sell 1 with price := 130 }]) :
    SelectsAssets (· ≤ ·) s.db ["BTC"] := by
  refine selectsAssets_of_log (run_history hs).2 ?_ (by decide) (by decide)
  have hassets : s.log.map (fun c => c.1.asset) = (s.log.map Prod.fst).map TradeEvent.asset := by
    rw [List.map_map]
    rfl
  rw [hassets, hlog]
  decide

theorem btcBefore_selects {db : Db} (hlist : SelectsAssets (· ≤ ·) db ["BTC"])
    (hrow : db.portfolioState "BTC" = some ⟨[⟨1, 100⟩], 1, 30, some 2, some 0⟩) :
    Selects fixedPointTexts FixedPoint.value db (answers [btcBefore]) := by
  refine selects_answers hlist (.cons ⟨_, hrow, rfl, ⟨_, ?_, rfl⟩, ?_, ?_⟩ .nil)
  · norm_num [Lot.map, FixedPoint.value]
  · norm_num [btcBefore, FixedPoint.value]
  · norm_num [btcBefore, FixedPoint.value]

theorem summary_tells_openSell : ∃ s, run (Server.step numericColumn) Server.init openSell = some s ∧
    (s.txs 2).isSome ∧
    ∃ p resp, (AssetPortfolio.new "BTC").replay (eventsOf s.log "BTC") = some p ∧
      getPnlSummary fixedPointTexts (fun _ => "") (answers [btcBefore]) "BTC" = .ok resp ∧
      resp.Tells fixedPointTexts FixedPoint.value p := by
  obtain ⟨s, hs, hopen, hlog, hrow⟩ := openSell_runs
  have hsummary := summary_tells_fold fixedPointTexts FixedPoint.value (fun _ => "") openSell s hs
    (by decide +kernel) _ (btcBefore_selects (openSell_lists hs hlog) hrow) "BTC"
  rw [if_neg (by decide), if_neg (by rw [eventsOf, hlog]; decide)] at hsummary
  exact ⟨s, hs, hopen, hsummary⟩

/-- Rows are never deleted. -/
theorem portfolioState_isSome_of_prefix {num : ℚ → Option ℚ} {db' : Db}
    {log log' : List (TradeEvent ℚ × Delivery)} (h : History num log db)
    (h' : History num log' db') (hlog : log <+: log') {asset : String}
    (hrow : (db.portfolioState asset).isSome) : (db'.portfolioState asset).isSome := by
  obtain ⟨c, hc, ha⟩ := (h.portfolioState asset).1 hrow
  exact (h'.portfolioState asset).2 ⟨c, hlog.subset hc, ha⟩

/-- **Listed assets.** What `ListAssets` returns in a reachable state are the assets with a committed
event, each once and in order; and whatever the consumer's transactions do afterwards,
`GetPnlSummary` answers for each of them that is not the empty string. -/
theorem listed_assets_answer (num : ℚ → Option ℚ) (w : Texts D) (val : D → ℚ)
    (serdeError : Json → String) (collate : String → String → Prop) (actions more : List Server.Action)
    (s s' : Server) (hs : run (Server.step num) Server.init actions = some s)
    (hs' : run (Server.step num) s more = some s') (rows : List String)
    (hrows : SelectsAssets collate s.db rows)
    (fetchOptional : String → Except String (Option (Row D)))
    (hdb : Selects w val s'.db fetchOptional) :
    ∃ assets, listAssets (.ok rows) = .ok assets ∧ assets.Nodup ∧ assets.Pairwise collate ∧
      (∀ asset, asset ∈ assets ↔ ∃ c ∈ s.log, c.1.asset = asset) ∧
      ∀ asset ∈ assets, asset ≠ "" →
        ∃ resp, getPnlSummary w serdeError fetchOptional asset = .ok resp ∧ resp.asset = asset := by
  obtain ⟨hcur, hist⟩ := run_history hs
  obtain ⟨-, hist', hlog⟩ := run_grows hcur hist hs'
  refine ⟨rows, rfl, hrows.nodup, hrows.sorted, fun asset => ?_, fun asset hmem hasset => ?_⟩
  · rw [hrows.mem_iff, hist.portfolioState]
  · have hrow := portfolioState_isSome_of_prefix hist hist' hlog ((hrows.mem_iff asset).1 hmem)
    obtain ⟨row, hrow⟩ := Option.isSome_iff_exists.1 hrow
    obtain ⟨resp, hresp, htells⟩ := getPnlSummary_some serdeError hdb hasset hrow
    exact ⟨resp, hresp, htells.asset⟩

theorem listed_assets_laterCommits : ∃ s s' assets,
    run (Server.step numericColumn) Server.init openSell = some s ∧
    run (Server.step numericColumn) s laterCommits = some s' ∧ s'.log ≠ s.log ∧
    listAssets (.ok ["BTC"]) = .ok assets ∧
    (∀ asset, asset ∈ assets ↔ ∃ c ∈ s.log, c.1.asset = asset) ∧
    ∀ asset ∈ assets, asset ≠ "" → ∃ resp,
      getPnlSummary fixedPointTexts (fun _ => "") (answers rowsAfter) asset = .ok resp ∧
        resp.asset = asset := by
  obtain ⟨s, hs, -, hlog, -⟩ := openSell_runs
  have hview : (run (Server.step numericColumn) Server.init (openSell ++ laterCommits)).map
      (fun s => (s.log.map fun c => c.1.asset, s.db.portfolioState "BTC", s.db.portfolioState "ETH")) =
        some (["BTC", "BTC", "BTC", "ETH"], some ⟨[⟨1 / 2, 100⟩], 1 / 2, 25, some 3, some 0⟩,
          some ⟨[⟨3, 100⟩], 3, 0, some 4, some 0⟩) := by decide +kernel
  obtain ⟨s', hs', hparts⟩ := Option.map_eq_some_iff.1 hview
  obtain ⟨hassets, hparts⟩ := Prod.mk.inj hparts
  obtain ⟨hbtc, heth⟩ := Prod.mk.inj hparts
  have hmore : run (Server.step numericColumn) s laterCommits = some s' := by
    rw [run_append, hs] at hs'
    exact hs'
  have hlist : SelectsAssets (· ≤ ·) s'.db ["BTC", "ETH"] := by
    refine selectsAssets_of_log (run_history hs').2 ?_ (by decide) (by decide)
    rw [hassets]
    decide
  have hdb : Selects fixedPointTexts FixedPoint.value s'.db (answers rowsAfter) := by
    refine selects_answers hlist (.cons ⟨_, hbtc, rfl, ⟨_, ?_, rfl⟩, ?_, ?_⟩
      (.cons ⟨_, heth, rfl, ⟨_, ?_, rfl⟩, ?_, ?_⟩ .nil))
    all_goals norm_num [Lot.map, FixedPoint.value]
  have hgrown : s'.log ≠ s.log := by
    intro h
    have hlength := congrArg List.length hassets
    rw [h, List.length_map, ← List.length_map Prod.fst, hlog] at hlength
    cases hlength
  obtain ⟨assets, hlisted, -, -, hmem, hsummary⟩ := listed_assets_answer numericColumn fixedPointTexts
    FixedPoint.value (fun _ => "") (· ≤ ·) openSell laterCommits s s' hs hmore ["BTC"]
    (openSell_lists hs hlog) _ hdb
  exact ⟨s, s', assets, hs, hmore, hgrown, hlisted, hmem, hsummary⟩

end Grpc
end CryptoAccounting

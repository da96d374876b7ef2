import CryptoAccounting.Consumer.Drift
import CryptoAccounting.Convergence
import CryptoAccounting.Grpc.Service
import CryptoAccounting.Pipeline

/-!
# Two reports of one portfolio

Whoever asks the ledger for `GET /pnl`, and whoever adds up the summaries of the gRPC service, get their
figures from different databases, through the producer, the topic and the consumer. Once everything
published is processed the two agree on the quantity of every asset and on the total at every price
(`reports_meet`), in whatever order the consumer has committed the events. That is so where the columns hold
the totals as they are; where they round, each of the two figures is off by what the columns have drifted
(`reports_near`). The arithmetic of the services is exact here.
-/

namespace CryptoAccounting

open Segments Transition Ledger Grpc
open Consumer (Server AssetPortfolio CommitsOnSteps Drifts drift drift_zero eventsOf readEvent)
open Convergence (openCost openCost_eq committed_perm_of_instance book_of_replay)
open Agreement (PortfolioRefines quantityOf)
open Lockstep (Traded)

variable {D : Type}

/-! ### A client of the gRPC service -/

/-- Quantity, realized PnL and cost of the open lots, as the texts of a summary tell them. -/
def Grpc.GetPnlSummaryResponse.figures (w : Texts D) (val : D → ℚ) (resp : GetPnlSummaryResponse) :
    Option (ℚ × ℚ × ℚ) := do
  let lots ← resp.lots w
  let quantity ← w.decimal.read (.string resp.totalQuantity)
  let realized ← w.decimal.read (.string resp.totalRealizedPnl)
  pure (val quantity, val realized, (lots.map fun l => val l.quantity * val l.costPerUnit).sum)

/-- Realized and unrealized PnL at a price. -/
def Grpc.GetPnlSummaryResponse.profit (w : Texts D) (val : D → ℚ) (price : ℚ)
    (resp : GetPnlSummaryResponse) : Option ℚ :=
  (resp.figures w val).map fun f => f.2.1 + (f.1 * price - f.2.2)

theorem Grpc.GetPnlSummaryResponse.Tells.figures {w : Texts D} {val : D → ℚ} {p : AssetPortfolio ℚ}
    {resp : GetPnlSummaryResponse} (h : resp.Tells w val p) :
    resp.figures w val = some (p.totalQuantity, p.totalRealizedPnl, openCost p) := by
  obtain ⟨lots, hlots, hmap⟩ := h.lots
  obtain ⟨quantity, hquantity, hval⟩ := h.totalQuantity
  obtain ⟨realized, hrealized, hval'⟩ := h.totalRealizedPnl
  have hcost : (lots.map fun l => val l.quantity * val l.costPerUnit).sum = openCost p := by
    rw [openCost, ← hmap, List.map_map]
    rfl
  simp [GetPnlSummaryResponse.figures, hlots, hquantity, hrealized, hval, hval', hcost]

/-! ### The runs of the system -/

/-- Saves succeed, and nobody drops a call. -/
def Pipeline.Saves (num : ℚ → Option ℚ) (s : Pipeline) : Pipeline.Action D → Prop
  | .ledger a => Succeeds num s.ledger a
  | _ => True

instance (num : ℚ → Option ℚ) (s : Pipeline) (a : Pipeline.Action D) : Decidable (s.Saves num a) :=
  match a with
  | .ledger a => inferInstanceAs (Decidable (Succeeds num s.ledger a))
  | .consumer _ => isTrue trivial
  | .append .. => isTrue trivial
  | .sent .. => isTrue trivial
  | .receive .. => isTrue trivial

/-- Saves succeed, nobody drops a call, and the columns hold the totals as they are. -/
def Pipeline.Smooth (num : ℚ → Option ℚ) (s : Pipeline) : Pipeline.Action D → Prop
  | .ledger a => Succeeds num s.ledger a
  | .consumer a => CommitsOnSteps s.server a
  | _ => True

instance (num : ℚ → Option ℚ) (s : Pipeline) (a : Pipeline.Action D) : Decidable (s.Smooth num a) :=
  match a with
  | .ledger a => inferInstanceAs (Decidable (Succeeds num s.ledger a))
  | .consumer a => inferInstanceAs (Decidable (CommitsOnSteps s.server a))
  | .append .. => isTrue trivial
  | .sent .. => isTrue trivial
  | .receive .. => isTrue trivial

theorem Pipeline.Smooth.saves {num : ℚ → Option ℚ} {s : Pipeline} {a : Pipeline.Action D}
    (h : s.Smooth num a) : s.Saves num a := by
  cases a with
  | ledger a => exact h
  | _ => trivial

variable {w : Texts D} {val : D → ℚ} {s : Pipeline} {actions : List (Pipeline.Action D)}

/-- The ledger goes through a run of its own. -/
theorem Pipeline.exists_ledger_run {num : ℚ → Option ℚ}
    (hs : run (Pipeline.step num w val) Pipeline.init actions = some s)
    (hsaves : EveryStep (Pipeline.step num w val) (Pipeline.Saves num) Pipeline.init actions) :
    ∃ as, run (Instance.step num) Instance.init as = some s.ledger ∧
      EveryStep (Instance.step num) (Succeeds num) Instance.init as := by
  refine exists_run_component Pipeline.ledger (fun s a t hsaves ht => ?_) hsaves hs
  cases Pipeline.step_moves ht with
  | ledger a l hl => exact .inr ⟨a, hl, hsaves⟩
  | _ => exact .inl rfl

/-- So do the transactions of the consumer. -/
theorem Pipeline.exists_server_run {num : ℚ → Option ℚ}
    (hs : run (Pipeline.step num w val) Pipeline.init actions = some s)
    (hsmooth : EveryStep (Pipeline.step num w val) (Pipeline.Smooth num) Pipeline.init actions) :
    ∃ as, run (Server.step num) Server.init as = some s.server ∧
      EveryStep (Server.step num) CommitsOnSteps Server.init as := by
  refine exists_run_component Pipeline.server (fun s a t hsmooth hstep => ?_) hsmooth hs
  cases Pipeline.step_moves hstep with
  | receive i partition offset snapshotId now record event t hk hread ht =>
    exact .inr ⟨_, ht, trivial⟩
  | consumer a t ha ht => exact .inr ⟨a, ht, hsmooth⟩
  | _ => exact .inl rfl

/-- Everything that was handed to the producer is published, and everything on the topic processed. -/
structure Pipeline.Drained (w : Texts D) (s : Pipeline) : Prop where
  quiet : s.ledger.Quiescent
  published : ∀ e ∈ s.ledger.spawned, s.publications e.eventId = .published
  processed : ∀ partition, ∀ record ∈ s.topic partition, ∀ event : TradeEvent D,
    readEvent w record.payload = some event → event.eventId ∈ s.server.db.processedIds

theorem Pipeline.Inv.committed {num : ℚ → Option ℚ} (h : s.Inv num w val) (hdrained : s.Drained w) :
    ∀ e ∈ s.ledger.spawned, e.eventId ∈ s.server.db.processedIds := by
  intro e he
  obtain ⟨e', partition, offset, hid, -, event, hval, hk⟩ :=
    h.carries.published e.eventId (hdrained.published e he)
  have hprocessed := hdrained.processed partition _ (List.mem_of_getElem? hk) event
    (publishRecord_reads w event)
  rw [← hid, ← hval]
  exact hprocessed

/-- Whatever the columns round off, the committed events of an asset have a fold, which the stored portfolio
drifts from and which follows a book of their trades. -/
theorem drifts_of_history {log : List (TradeEvent ℚ × Consumer.Delivery)} {db : Consumer.Db}
    {us : List (Traded ℚ)} (hus : us.map Traded.event = log.map Prod.fst)
    (hist : Consumer.History numericColumn log db) (a : String) :
    ∃ (p : AssetPortfolio ℚ) (b : Book ℚ), Drifts a log db p ∧ PortfolioRefines p b ∧
      b.buys = buysOf a (us.map Traded.trade) ∧ b.sells = sellsOf a (us.map Traded.trade) := by
  have hpos : ∀ c ∈ log, 0 < c.1.quantity := by
    intro c hc
    have hmem : c.1 ∈ us.map Traded.event := hus ▸ List.mem_map_of_mem hc
    obtain ⟨u, -, hu⟩ := List.mem_map.1 hmem
    rw [← hu, u.tells.quantity]
    exact u.trade.positive.1
  obtain ⟨p, hp⟩ := hist.drifts hpos a
  obtain ⟨b, hb, hbuys, hsells⟩ := book_of_replay hus hp.replay
  exact ⟨p, b, hp, hb, hbuys, hsells⟩

/-- The stored portfolios drift from folds, whose books have the trades of the ledger's books in some
order. -/
theorem Pipeline.exists_books
    (hs : run (Pipeline.step numericColumn w val) Pipeline.init actions = some s)
    (hsaves : EveryStep (Pipeline.step numericColumn w val) (Pipeline.Saves numericColumn)
      Pipeline.init actions) (hdrained : s.Drained w) :
    ∃ books : Books, s.ledger.portfolio.Refines books ∧ ∀ a, ∃ (p : AssetPortfolio ℚ) (b : Book ℚ),
      Drifts a s.server.log s.server.db p ∧ PortfolioRefines p b ∧
        b.buys.Perm (books a).buys ∧ b.sells.Perm (books a).sells := by
  have hinv := Pipeline.run_inv hs
  obtain ⟨as, hl, hsucceeds⟩ := Pipeline.exists_ledger_run hs hsaves
  obtain ⟨hi, ⟨ts, books, hts, href, hholds⟩, hpub⟩ := run_published hl
  have hspawned : ∀ c ∈ s.server.log, c.1 ∈ s.ledger.spawned := by
    intro c hc
    obtain ⟨_, -, he, -⟩ := hinv.carries.log c hc
    exact he
  obtain ⟨us, hus, hperm⟩ := committed_perm_of_instance hi hpub hts
    (published_of_succeeds hl hdrained.quiet hsucceeds) hinv.history hspawned (hinv.committed hdrained)
  refine ⟨books, href, fun a => ?_⟩
  obtain ⟨p, b, hp, hb, hbuys, hsells⟩ := drifts_of_history hus hinv.history a
  refine ⟨p, b, hp, hb, ?_, ?_⟩
  · rw [hbuys, (hholds a).1]
    exact hperm.filterMap _
  · rw [hsells, (hholds a).2]
    exact hperm.filterMap _

/-! ### Profits -/

/-- Realized and unrealized PnL of a portfolio at a price. -/
def profitAt (p : AssetPortfolio ℚ) (price : ℚ) : ℚ :=
  p.totalRealizedPnl + (p.totalQuantity * price - openCost p)

/-- A portfolio has the profit of every book that has the trades of its own book. -/
theorem profitAt_eq {p : AssetPortfolio ℚ} {b c : Book ℚ} (hp : PortfolioRefines p b)
    (hbuys : b.buys.Perm c.buys) (hsells : b.sells.Perm c.sells) (price : ℚ) :
    profitAt p price = c.profitAt price := by
  have hprofit := Book.realized_sub_perm hbuys hsells
  rw [profitAt, Book.profitAt, hp.realized, hp.total, openCost_eq hp, Book.held_perm hbuys hsells]
  linear_combination hprofit

/-- The stored totals change the profit by no more than they drift. -/
theorem profitAt_near {ε : ℚ} {p q : AssetPortfolio ℚ} (h : p.Near ε q) (price : ℚ) :
    |profitAt q price - profitAt p price| ≤ ε * (1 + |price|) := by
  have hcost : openCost q = openCost p := by
    unfold openCost
    rw [h.lots]
  have hsplit : profitAt q price - profitAt p price =
      (q.totalRealizedPnl - p.totalRealizedPnl) + (q.totalQuantity - p.totalQuantity) * price := by
    rw [profitAt, profitAt, hcost]
    ring
  calc |profitAt q price - profitAt p price|
      ≤ |q.totalRealizedPnl - p.totalRealizedPnl| + |q.totalQuantity - p.totalQuantity| * |price| := by
        rw [hsplit, ← abs_mul]
        exact abs_add_le _ _
    _ ≤ ε + ε * |price| :=
        add_le_add h.totalRealizedPnl (mul_le_mul_of_nonneg_right h.totalQuantity (abs_nonneg price))
    _ = ε * (1 + |price|) := by ring

/-- What `GET /pnl` answers is the sum over a list of assets that leaves none with a profit out. -/
theorem sum_profitAt {p : Portfolio ℚ} {books : Books} (href : p.Refines books) {rows : List String}
    (hnodup : rows.Nodup) (hrest : ∀ a, a ∉ rows → ∀ price, (books a).profitAt price = 0)
    {order : p.IterOrder} {req : PnLRequest ℚ} {pnl : PnLResponse ℚ}
    (hpnl : GetPnL.execute p order req = .ok (.ok pnl)) :
    (rows.map fun a => (books a).profitAt ((req.prices.lookup a).getD 0)).sum = pnl.total := by
  have hpriced : ∀ a, 0 < (books a).held → (req.prices.lookup a).isSome := by
    by_contra hunpriced
    obtain ⟨e, he⟩ := getPnl_unpriced href order hunpriced
    rw [he] at hpnl
    cases hpnl
  rw [getPnl_priced href order hpriced] at hpnl
  cases hpnl
  have hkeys : ∑ a ∈ rows.toFinset, (books a).profitAt ((req.prices.lookup a).getD 0) =
      ∑ a ∈ p.positions.keys, (books a).profitAt ((req.prices.lookup a).getD 0) := by
    refine Agreement.sum_eq_sum_of_zero (fun a ha => ?_) fun a ha => ?_
    · exact hrest a (fun hc => ha (List.mem_toFinset.2 hc)) _
    · rw [Finmap.mem_keys] at ha
      rw [href.absent a (Finmap.lookup_eq_none.2 ha)]
      simp [Book.profitAt]
  rw [← List.sum_toFinset _ hnodup, hkeys]
  simp only [Book.profitAt]
  rw [Finset.sum_add_distrib, Finset.sum_sub_distrib, ← href.realized, ← href.openCost,
    ← href.sum_terms order]

/-! ### What the service tells -/

/-- A trade that is committed is not of the empty asset. -/
theorem Pipeline.Inv.asset_ne {num : ℚ → Option ℚ} (h : s.Inv num w val) {a : String}
    (ha : (s.server.db.portfolioState a).isSome) : a ≠ "" := by
  obtain ⟨c, hc, rfl⟩ := (h.history.portfolioState a).1 ha
  obtain ⟨t, ht⟩ := h.sound.committed c hc
  obtain ⟨_, _, _, _, hcomputed, he⟩ := ht.event
  rw [he]
  rintro hempty
  have hblank := hcomputed.asset
  rw [show t.asset = "" from hempty] at hblank
  cases hblank

theorem portfolio_of_none {db : Consumer.Db} {a : String} (h : db.portfolioState a = none) :
    db.portfolio a = AssetPortfolio.new a := by
  rw [Consumer.Db.portfolio, h]
  rfl

/-- What the columns and the lots of an asset say. -/
def Consumer.Db.figures (db : Consumer.Db) (a : String) : ℚ × ℚ × ℚ :=
  ((db.portfolio a).totalQuantity, (db.portfolio a).totalRealizedPnl, openCost (db.portfolio a))

/-- The service answers for every listed asset, and tells its figures. -/
theorem Pipeline.Inv.summaries {num : ℚ → Option ℚ} (h : s.Inv num w val) (serdeError : Json → String)
    {collate : String → String → Prop} {rows : List String}
    (hrows : SelectsAssets collate s.server.db rows)
    {fetchOptional : String → Except String (Option (Row D))}
    (hdb : Selects w val s.server.db fetchOptional) :
    ∃ summaries, rows.mapM (getPnlSummary w serdeError fetchOptional) = .ok summaries ∧
      summaries.map (fun resp => (resp.asset, resp.figures w val)) =
        rows.map fun a => (a, some (s.server.db.figures a)) := by
  refine Returns.mapM_view fun a ha => ?_
  have hsome := (hrows.mem_iff a).1 ha
  obtain ⟨row, hrow⟩ := Option.isSome_iff_exists.1 hsome
  obtain ⟨resp, hresp, htells⟩ := getPnlSummary_some serdeError hdb (h.asset_ne hsome) hrow
  have hp : s.server.db.portfolio a = row.toPortfolio a := by
    rw [Consumer.Db.portfolio, hrow]
    rfl
  refine ⟨resp, hresp, ?_⟩
  rw [htells.figures, htells.asset, Consumer.Db.figures, hp]
  rfl

section View

variable {summaries : List GetPnlSummaryResponse} {rows : List String} {db : Consumer.Db}

theorem assets_of_view (hview : summaries.map (fun resp => (resp.asset, resp.figures w val)) =
    rows.map fun a => (a, some (db.figures a))) :
    summaries.map GetPnlSummaryResponse.asset = rows := by
  have hassets := congrArg (List.map Prod.fst) hview
  simpa [Function.comp_def] using hassets

theorem figures_of_view (hview : summaries.map (fun resp => (resp.asset, resp.figures w val)) =
    rows.map fun a => (a, some (db.figures a))) :
    ∀ resp ∈ summaries, resp.figures w val = some (db.figures resp.asset) := by
  intro resp hresp
  have hmem : (resp.asset, resp.figures w val) ∈ summaries.map fun resp =>
      (resp.asset, resp.figures w val) := List.mem_map_of_mem hresp
  rw [hview] at hmem
  obtain ⟨a, -, hfigures⟩ := List.mem_map.1 hmem
  obtain ⟨rfl, hfigures⟩ := Prod.mk.inj hfigures
  exact hfigures.symm

theorem profits_of_view (hview : summaries.map (fun resp => (resp.asset, resp.figures w val)) =
    rows.map fun a => (a, some (db.figures a))) (price : String → ℚ) :
    (summaries.map fun resp => resp.profit w val (price resp.asset)) =
      (rows.map fun a => profitAt (db.portfolio a) (price a)).map some := by
  have hprofits := congrArg (List.map fun v : String × Option (ℚ × ℚ × ℚ) =>
    v.2.map fun f => f.2.1 + (f.1 * price v.1 - f.2.2)) hview
  rw [List.map_map, List.map_map] at hprofits
  rw [List.map_map]
  exact hprofits

end View

/-! ### The two reports -/

/-- **The two reports meet**, in exact arithmetic. In every run of the whole system whose saves succeed and
whose columns hold the totals as they are, once everything is published and processed: the service answers
for every listed asset, the quantity it tells is the one the ledger holds, every asset the ledger holds is
listed, and when `GET /pnl` answers for a map of prices, its total is the sum of what the summaries tell at
these prices. -/
theorem reports_meet (w : Texts D) (val : D → ℚ) (serdeError : Json → String)
    (collate : String → String → Prop) (actions : List (Pipeline.Action D)) (s : Pipeline)
    (hs : run (Pipeline.step numericColumn w val) Pipeline.init actions = some s)
    (hsmooth : EveryStep (Pipeline.step numericColumn w val) (Pipeline.Smooth numericColumn)
      Pipeline.init actions) (hdrained : s.Drained w)
    (rows : List String) (hrows : SelectsAssets collate s.server.db rows)
    (fetchOptional : String → Except String (Option (Row D)))
    (hdb : Selects w val s.server.db fetchOptional) :
    ∃ assets summaries, listAssets (.ok rows) = .ok assets ∧
      assets.mapM (getPnlSummary w serdeError fetchOptional) = .ok summaries ∧
      summaries.map GetPnlSummaryResponse.asset = assets ∧
      (∀ a, quantityOf s.ledger.portfolio a ≠ 0 → a ∈ assets) ∧
      (∀ resp ∈ summaries, ∃ realized cost, resp.figures w val =
        some (quantityOf s.ledger.portfolio resp.asset, realized, cost)) ∧
      ∀ (order : s.ledger.portfolio.IterOrder) (req : PnLRequest ℚ) (pnl : PnLResponse ℚ),
        GetPnL.execute s.ledger.portfolio order req = .ok (.ok pnl) →
          ∃ profits : List ℚ, (summaries.map fun resp =>
              resp.profit w val ((req.prices.lookup resp.asset).getD 0)) = profits.map some ∧
            profits.sum = pnl.total := by
  have hinv := Pipeline.run_inv hs
  obtain ⟨books, href, hbooks⟩ := Pipeline.exists_books hs (hsmooth.mono fun _ _ h => h.saves) hdrained
  obtain ⟨bs, hserver, hexact⟩ := Pipeline.exists_server_run hs hsmooth
  obtain ⟨-, hfolded⟩ := run_folded hserver hexact
  have hexactBooks : ∀ a, ∃ b : Book ℚ, PortfolioRefines (s.server.db.portfolio a) b ∧
      b.buys.Perm (books a).buys ∧ b.sells.Perm (books a).sells := by
    intro a
    obtain ⟨p, b, hdrifts, hb, hperm⟩ := hbooks a
    rw [← hdrifts.eq_of_folded hfolded hinv.history]
    exact ⟨b, hb, hperm⟩
  have hquantity : ∀ a, (s.server.db.portfolio a).totalQuantity = quantityOf s.ledger.portfolio a := by
    intro a
    obtain ⟨b, hb, hbuys, hsells⟩ := hexactBooks a
    rw [hb.total, Agreement.quantityOf_eq href, Book.held_perm hbuys hsells]
  have hprofit : ∀ a (price : ℚ), profitAt (s.server.db.portfolio a) price =
      (books a).profitAt price := by
    intro a price
    obtain ⟨b, hb, hbuys, hsells⟩ := hexactBooks a
    exact profitAt_eq hb hbuys hsells price
  have hunlisted : ∀ a, a ∉ rows → s.server.db.portfolio a = AssetPortfolio.new a := by
    intro a ha
    rw [hrows.mem_iff, Option.not_isSome_iff_eq_none] at ha
    exact portfolio_of_none ha
  obtain ⟨summaries, hsummaries, hview⟩ := hinv.summaries serdeError hrows hdb
  refine ⟨rows, summaries, rfl, hsummaries, assets_of_view hview, ?_, ?_, ?_⟩
  · intro a ha
    by_contra hlisted
    rw [← hquantity, hunlisted a hlisted] at ha
    exact ha rfl
  · intro resp hresp
    exact ⟨_, _, by rw [figures_of_view hview resp hresp, Consumer.Db.figures, hquantity]⟩
  · intro order req pnl hpnl
    refine ⟨_, profits_of_view hview fun a => (req.prices.lookup a).getD 0, ?_⟩
    simp only [hprofit]
    refine sum_profitAt href hrows.nodup (fun a ha price => ?_) hpnl
    rw [← hprofit, hunlisted a ha]
    simp [profitAt, AssetPortfolio.new, openCost]

theorem abs_sum_sub_sum_le {f g e : String → ℚ} {l : List String}
    (h : ∀ a ∈ l, |f a - g a| ≤ e a) : |(l.map f).sum - (l.map g).sum| ≤ (l.map e).sum := by
  induction l with
  | nil => simp
  | cons a l ih =>
    obtain ⟨ha, hl⟩ := List.forall_mem_cons.1 h
    rw [List.map_cons, List.map_cons, List.map_cons, List.sum_cons, List.sum_cons, List.sum_cons,
      add_sub_add_comm]
    exact (abs_add_le _ _).trans (add_le_add ha (ih hl))

/-- **The two reports, when only the columns round.** In every run whose saves succeed, whatever the columns
round off, once everything is published and processed: the service answers for every listed asset, every
asset the ledger holds is listed, each quantity is off by at most half a column step for each committed
event of its asset, and what the summaries add up to at the prices of a `GET /pnl` is off from its total by
at most this much for the realized PnL and for the price of the quantity. -/
theorem reports_near (w : Texts D) (val : D → ℚ) (serdeError : Json → String)
    (collate : String → String → Prop) (actions : List (Pipeline.Action D)) (s : Pipeline)
    (hs : run (Pipeline.step numericColumn w val) Pipeline.init actions = some s)
    (hsaves : EveryStep (Pipeline.step numericColumn w val) (Pipeline.Saves numericColumn)
      Pipeline.init actions) (hdrained : s.Drained w)
    (rows : List String) (hrows : SelectsAssets collate s.server.db rows)
    (fetchOptional : String → Except String (Option (Row D)))
    (hdb : Selects w val s.server.db fetchOptional) :
    ∃ assets summaries, listAssets (.ok rows) = .ok assets ∧
      assets.mapM (getPnlSummary w serdeError fetchOptional) = .ok summaries ∧
      summaries.map GetPnlSummaryResponse.asset = assets ∧
      (∀ a, quantityOf s.ledger.portfolio a ≠ 0 → a ∈ assets) ∧
      (∀ resp ∈ summaries, ∃ quantity realized cost,
        resp.figures w val = some (quantity, realized, cost) ∧
          |quantity - quantityOf s.ledger.portfolio resp.asset| ≤
            drift (eventsOf s.server.log resp.asset).length) ∧
      ∀ (order : s.ledger.portfolio.IterOrder) (req : PnLRequest ℚ) (pnl : PnLResponse ℚ),
        GetPnL.execute s.ledger.portfolio order req = .ok (.ok pnl) →
          ∃ profits : List ℚ, (summaries.map fun resp =>
              resp.profit w val ((req.prices.lookup resp.asset).getD 0)) = profits.map some ∧
            |profits.sum - pnl.total| ≤ (assets.map fun a =>
              drift (eventsOf s.server.log a).length * (1 + |(req.prices.lookup a).getD 0|)).sum := by
  have hinv := Pipeline.run_inv hs
  obtain ⟨books, href, hbooks⟩ := Pipeline.exists_books hs hsaves hdrained
  have hquantity : ∀ a, |(s.server.db.portfolio a).totalQuantity - quantityOf s.ledger.portfolio a| ≤
      drift (eventsOf s.server.log a).length := by
    intro a
    obtain ⟨p, b, hdrifts, hb, hbuys, hsells⟩ := hbooks a
    rw [Agreement.quantityOf_eq href, ← Book.held_perm hbuys hsells, ← hb.total]
    exact hdrifts.row.totalQuantity
  have hprofit : ∀ a (price : ℚ), |profitAt (s.server.db.portfolio a) price - (books a).profitAt price| ≤
      drift (eventsOf s.server.log a).length * (1 + |price|) := by
    intro a price
    obtain ⟨p, b, hdrifts, hb, hbuys, hsells⟩ := hbooks a
    rw [← profitAt_eq hb hbuys hsells]
    exact profitAt_near hdrifts.row price
  -- Without a committed event there is nothing to round.
  have hunlisted : ∀ a, a ∉ rows → quantityOf s.ledger.portfolio a = 0 ∧
      ∀ price, (books a).profitAt price = 0 := by
    intro a ha
    rw [hrows.mem_iff, Option.not_isSome_iff_eq_none] at ha
    have hevents := (portfolioState_eq_none_iff hinv.history a).1 ha
    have hnew := portfolio_of_none ha
    refine ⟨?_, fun price => ?_⟩
    · have h := hquantity a
      rw [hevents, hnew, List.length_nil, drift_zero, abs_nonpos_iff, sub_eq_zero] at h
      exact h.symm
    · have h := hprofit a price
      rw [hevents, hnew, List.length_nil, drift_zero, zero_mul, abs_nonpos_iff, sub_eq_zero] at h
      rw [← h]
      simp [profitAt, AssetPortfolio.new, openCost]
  obtain ⟨summaries, hsummaries, hview⟩ := hinv.summaries serdeError hrows hdb
  refine ⟨rows, summaries, rfl, hsummaries, assets_of_view hview, ?_, ?_, ?_⟩
  · intro a ha
    by_contra hlisted
    exact ha (hunlisted a hlisted).1
  · intro resp hresp
    exact ⟨_, _, _, figures_of_view hview resp hresp, hquantity resp.asset⟩
  · intro order req pnl hpnl
    refine ⟨_, profits_of_view hview fun a => (req.prices.lookup a).getD 0, ?_⟩
    rw [← sum_profitAt href hrows.nodup (fun a ha => (hunlisted a ha).2) hpnl]
    exact abs_sum_sub_sum_le fun a _ => hprofit a _

/-- Only what was published stands on the topic. -/
theorem Pipeline.Inv.drained {num : ℚ → Option ℚ} (h : s.Inv num w val) (hquiet : s.ledger.Quiescent)
    (hspawned : ∀ e ∈ s.ledger.spawned, s.publications e.eventId = .published ∧
      e.eventId ∈ s.server.db.processedIds) : s.Drained w where
  quiet := hquiet
  published e he := (hspawned e he).1
  processed partition record hrecord event hread := by
    obtain ⟨event', he', rfl⟩ := h.carries.topic partition record hrecord
    rw [publishRecord_reads] at hread
    cases hread
    exact (hspawned _ he').2

/-- The rows of the database after `sentTwice`. -/
def rowsOfBoth : List (Row FixedPoint) :=
  [⟨"BTC", Json.jsonb (Consumer.lotsJson fixedPointTexts [⟨⟨6, 1⟩, ⟨100, 0⟩⟩]), ⟨6, 1⟩, ⟨20, 0⟩⟩,
    ⟨"ETH", Json.jsonb (Consumer.lotsJson fixedPointTexts [⟨⟨3, 0⟩, ⟨10, 0⟩⟩]), ⟨3, 0⟩, ⟨0, 0⟩⟩]

theorem reports_meet_sentTwice : ∃ s,
    run (Pipeline.step numericColumn fixedPointTexts FixedPoint.value) Pipeline.init sentTwice = some s ∧
    ∃ summaries, ["BTC", "ETH"].mapM
        (getPnlSummary fixedPointTexts (fun _ => "") (Grpc.answers rowsOfBoth)) = .ok summaries ∧
      ∀ (order : s.ledger.portfolio.IterOrder) (req : PnLRequest ℚ) (pnl : PnLResponse ℚ),
        GetPnL.execute s.ledger.portfolio order req = .ok (.ok pnl) → ∃ profits : List ℚ,
          (summaries.map fun resp => resp.profit fixedPointTexts FixedPoint.value
            ((req.prices.lookup resp.asset).getD 0)) = profits.map some ∧ profits.sum = pnl.total := by
  have hview : (run (Pipeline.step numericColumn fixedPointTexts FixedPoint.value) Pipeline.init
      sentTwice).map (fun s => (s.server.log.map fun c => c.1.asset,
        s.server.db.portfolioState "BTC", s.server.db.portfolioState "ETH",
        s.ledger.applied.all fun t => (s.ledger.calls t.id).isNone,
        s.ledger.spawned.all fun e => s.publications e.eventId = .published ∧
          e.eventId ∈ s.server.db.processedIds)) =
      some (["BTC", "ETH", "BTC"], some ⟨[⟨3 / 5, 100⟩], 3 / 5, 20, some 4, some 0⟩,
        some ⟨[⟨3, 10⟩], 3, 0, some 5, some 0⟩, true, true) := by
    decide +kernel
  obtain ⟨s, hs, hparts⟩ := Option.map_eq_some_iff.1 hview
  obtain ⟨hassets, hparts⟩ := Prod.mk.inj hparts
  obtain ⟨hbtc, hparts⟩ := Prod.mk.inj hparts
  obtain ⟨heth, hparts⟩ := Prod.mk.inj hparts
  obtain ⟨hcalls, hspawned⟩ := Prod.mk.inj hparts
  have hinv := Pipeline.run_inv hs
  have hrows : SelectsAssets (· ≤ ·) s.server.db ["BTC", "ETH"] := by
    refine selectsAssets_of_log hinv.history ?_ (by decide) (by decide)
    rw [hassets]
    decide
  have hdb : Selects fixedPointTexts FixedPoint.value s.server.db (Grpc.answers rowsOfBoth) := by
    refine selects_answers hrows (.cons ⟨_, hbtc, rfl, ⟨_, ?_, rfl⟩, ?_, ?_⟩
      (.cons ⟨_, heth, rfl, ⟨_, ?_, rfl⟩, ?_, ?_⟩ .nil))
    all_goals norm_num [Lot.map, FixedPoint.value]
  obtain ⟨assets, summaries, hlist, hsummaries, -, -, -, htotal⟩ := reports_meet fixedPointTexts
    FixedPoint.value (fun _ => "") (· ≤ ·) sentTwice s hs (by decide +kernel)
    (hinv.drained (hinv.ledger.quiescent hcalls) fun e he =>
      of_decide_eq_true (List.all_eq_true.1 hspawned e he)) ["BTC", "ETH"] hrows _ hdb
  cases hlist
  exact ⟨s, hs, summaries, hsummaries, htotal⟩

/-- The event of half a column step of BTC bought at 100. -/
def halfTrade : TradeEvent FixedPoint :=
  { boughtBtc with quantity := ⟨5, 11⟩, notionalValue := ⟨500, 11⟩ }

/-- The trade is made, published and processed. -/
def halfStepTrade : List (Pipeline.Action FixedPoint) :=
  [.ledger (.start { sampleRequest with quantity := 5 / 10 ^ 11 } 0), .ledger (.save 0),
    .ledger (.respond 0 5), .append halfTrade 0, .sent halfTrade (some (0, 0)), .receive 0 0 0 7 8] ++
  transact 0

/-- The row of the database after it. -/
def halfRow : Row FixedPoint :=
  ⟨"BTC", Json.jsonb (Consumer.lotsJson fixedPointTexts [⟨⟨5, 11⟩, ⟨100, 0⟩⟩]), ⟨1, 10⟩, ⟨0, 0⟩⟩

/-- The service tells a whole step where the ledger holds a half. -/
theorem reports_near_halfStepTrade : ∃ s,
    run (Pipeline.step numericColumn fixedPointTexts FixedPoint.value) Pipeline.init halfStepTrade =
      some s ∧ quantityOf s.ledger.portfolio "BTC" = 5 / 10 ^ 11 ∧
    ∃ summaries, ["BTC"].mapM
        (getPnlSummary fixedPointTexts (fun _ => "") (Grpc.answers [halfRow])) = .ok summaries ∧
      ∀ resp ∈ summaries, ∃ quantity realized cost,
        resp.figures fixedPointTexts FixedPoint.value = some (quantity, realized, cost) ∧
          |quantity - quantityOf s.ledger.portfolio resp.asset| ≤
            drift (eventsOf s.server.log resp.asset).length := by
  have hview : (run (Pipeline.step numericColumn fixedPointTexts FixedPoint.value) Pipeline.init
      halfStepTrade).map (fun s => (s.server.log.map fun c => c.1.asset, s.server.db.portfolioState "BTC",
        quantityOf s.ledger.portfolio "BTC",
        s.ledger.applied.all fun t => (s.ledger.calls t.id).isNone,
        s.ledger.spawned.all fun e => s.publications e.eventId = .published ∧
          e.eventId ∈ s.server.db.processedIds)) =
      some (["BTC"], some ⟨[⟨5 / 10 ^ 11, 100⟩], 1 / 10 ^ 10, 0, some 1, some 0⟩,
        5 / 10 ^ 11, true, true) := by
    decide +kernel
  obtain ⟨s, hs, hparts⟩ := Option.map_eq_some_iff.1 hview
  obtain ⟨hassets, hparts⟩ := Prod.mk.inj hparts
  obtain ⟨hrow, hparts⟩ := Prod.mk.inj hparts
  obtain ⟨hquantity, hparts⟩ := Prod.mk.inj hparts
  obtain ⟨hcalls, hspawned⟩ := Prod.mk.inj hparts
  have hinv := Pipeline.run_inv hs
  have hrows : SelectsAssets (· ≤ ·) s.server.db ["BTC"] := by
    refine selectsAssets_of_log hinv.history ?_ (by decide) (by decide)
    rw [hassets]
  have hstores : halfRow.Stores fixedPointTexts FixedPoint.value "BTC"
      ⟨[⟨5 / 10 ^ 11, 100⟩], 1 / 10 ^ 10, 0, some 1, some 0⟩ := by
    refine ⟨rfl, ⟨_, ?_, rfl⟩, ?_, ?_⟩
    · norm_num [Lot.map, FixedPoint.value]
    · norm_num [halfRow, FixedPoint.value]
    · simp [halfRow, FixedPoint.value]
  obtain ⟨assets, summaries, hlist, hsummaries, -, -, hnear, -⟩ := reports_near fixedPointTexts
    FixedPoint.value (fun _ => "") (· ≤ ·) halfStepTrade s hs (by decide +kernel)
    (hinv.drained (hinv.ledger.quiescent hcalls) fun e he =>
      of_decide_eq_true (List.all_eq_true.1 hspawned e he)) ["BTC"] hrows _
    (selects_answers hrows (.cons ⟨_, hrow, hstores⟩ .nil))
  cases hlist
  exact ⟨s, hs, hquantity, summaries, hsummaries, hnear⟩

end CryptoAccounting

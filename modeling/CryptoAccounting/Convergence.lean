import CryptoAccounting.Agreement
import CryptoAccounting.Consumer.Serial
import CryptoAccounting.Ledger.Publish

/-!
# Ledger and consumer converge

One ledger instance with concurrent calls, and the consumer's transactions on the events it publishes,
in any order. Once all events are committed, both sides hold the same quantities, and the realized PnL
minus the cost of the open lots is the same: these depend on the set of trades alone. The lots and the
realized PnL themselves depend on the order of the buys, and the consumer commits them in the order of
their deliveries (`swapped_buys_diverge`); where it commits them in the ledger's order, they are the same
too (`converges`).
-/

namespace CryptoAccounting
namespace Convergence

open Segments Transition
open Ledger (Instance ValidTrade Trade Books buysOf sellsOf tradesOf tradesOf_eq_nil Succeeds
  PublishedFor run_published published_of_succeeds)
open Consumer (AssetPortfolio Server Delivery CommitsOnSteps eventsOf)
open Agreement (PortfolioRefines apply_refines quantityOf)
open Lockstep (Tells Traded)

/-! ### The statement -/

/-- The transactions are about published events. -/
def Delivers (published : List (TradeEvent ℚ)) : Server.Action → Prop
  | .begin _ event _ => event ∈ published
  | _ => True

instance (published : List (TradeEvent ℚ)) (a : Server.Action) : Decidable (Delivers published a) :=
  match a with
  | .begin _ event _ => inferInstanceAs (Decidable (event ∈ published))
  | .claim _ | .upsert _ | .select _ | .save _ | .snapshot _ | .commit _ | .rollback _ => isTrue trivial

/-- Total cost of the open lots. -/
def openCost (p : AssetPortfolio ℚ) : ℚ := (p.lots.map fun l => l.quantity * l.costPerUnit).sum

/-- The assets of the committed events. -/
def committedAssets (log : List (TradeEvent ℚ × Delivery)) : Finset String :=
  (log.map fun c => c.1.asset).toFinset

/-- The buys of an asset as (quantity, price), in the order in which the ledger applied them. -/
def buysApplied (applied : List (Trade ℚ)) (asset : String) : List (ℚ × ℚ) :=
  applied.filterMap fun t =>
    if t.asset = asset ∧ t.side = .buy then some (t.quantity, t.price) else none

/-- The buys of an asset, in the order in which the consumer committed them. -/
def buysCommitted (log : List (TradeEvent ℚ × Delivery)) (asset : String) : List (ℚ × ℚ) :=
  log.filterMap fun c =>
    if c.1.asset = asset ∧ c.1.side = TradeSide.buy.str then some (c.1.quantity, c.1.price) else none

/-- What the two sides agree on. -/
structure Converged (l : Instance ℚ) (s : Server) : Prop where
  totalQuantity : ∀ a, (s.db.portfolio a).totalQuantity = quantityOf l.portfolio a
  profit : ∑ a ∈ committedAssets s.log, ((s.db.portfolio a).totalRealizedPnl -
      openCost (s.db.portfolio a)) = l.portfolio.totalRealizedPnl - l.portfolio.openCost
  lots : ∀ a, buysCommitted s.log a = buysApplied l.applied a →
    (s.db.portfolio a).lots = l.portfolio.lotsOf a
  realized : (∀ a, buysCommitted s.log a = buysApplied l.applied a) →
    ∑ a ∈ committedAssets s.log, (s.db.portfolio a).totalRealizedPnl = l.portfolio.totalRealizedPnl

/-! ### The consumer's books -/

/-- **A fold without an error** follows a book that has taken every event. -/
theorem replay_refines {p p' : AssetPortfolio ℚ} {b : Book ℚ} (h : PortfolioRefines p b)
    (us : List (Traded ℚ)) (hus : ∀ u ∈ us, u.trade.asset = p.asset)
    (hr : p.replay (us.map Traded.event) = some p') :
    ∃ b' : Book ℚ, PortfolioRefines p' b' ∧
      b'.buys = b.buys ++ buysOf p.asset (us.map Traded.trade) ∧
      b'.sells = b.sells ++ sellsOf p.asset (us.map Traded.trade) := by
  induction us generalizing p b with
  | nil =>
    cases hr
    exact ⟨b, h, (List.append_nil _).symm, (List.append_nil _).symm⟩
  | cons u us ih =>
    obtain ⟨hu, hus⟩ := List.forall_mem_cons.1 hus
    obtain ⟨p₁, happ, hasset, href, -⟩ := apply_refines h u hu.symm
    rw [List.map_cons, AssetPortfolio.replay, happ] at hr
    by_cases hacc : b.Accepts u.trade.order
    · rw [Agreement.consumerOutcome, if_pos hacc] at hr
      obtain ⟨b', href', hbuys, hsells⟩ := ih href (by rw [hasset]; exact hus) hr
      obtain ⟨hb, hs⟩ := Ledger.step_lists b hacc
      have hbuys_cons : buysOf p.asset ((u :: us).map Traded.trade) =
          buysOf p.asset [u.trade] ++ buysOf p.asset (us.map Traded.trade) :=
        Ledger.tradesOf_cons .buy p.asset u.trade (us.map Traded.trade)
      have hsells_cons : sellsOf p.asset ((u :: us).map Traded.trade) =
          sellsOf p.asset [u.trade] ++ sellsOf p.asset (us.map Traded.trade) :=
        Ledger.tradesOf_cons .sell p.asset u.trade (us.map Traded.trade)
      rw [hu] at hb hs
      rw [hasset] at hbuys hsells
      refine ⟨b', href', ?_, ?_⟩
      · rw [hbuys, hb, hbuys_cons, List.append_assoc]
      · rw [hsells, hs, hsells_cons, List.append_assoc]
    · rw [Agreement.consumerOutcome, if_neg hacc] at hr
      cases hr

/-! ### The committed events are the applied trades -/

/-- Every element of the list has a preimage. -/
theorem exists_map_eq {α β : Type} {f : α → β} {P : α → Prop} {l : List β}
    (h : ∀ b ∈ l, ∃ a, f a = b ∧ P a) : ∃ as : List α, as.map f = l ∧ ∀ a ∈ as, P a := by
  induction l with
  | nil => exact ⟨[], rfl, by simp⟩
  | cons b l ih =>
    obtain ⟨⟨a, ha, hP⟩, hl⟩ := List.forall_mem_cons.1 h
    obtain ⟨as, has, hPs⟩ := ih hl
    exact ⟨a :: as, by rw [List.map_cons, ha, has], List.forall_mem_cons.2 ⟨hP, hPs⟩⟩

/-- The consumer works on published events, and keeps its rows the fold of what it committed. -/
structure Consumes (published : List (TradeEvent ℚ)) (s : Server) : Prop where
  inv : s.Inv
  folded : Consumer.Folded s.log s.db
  txs : ∀ i tx, s.txs i = some tx → tx.event ∈ published
  log : ∀ c ∈ s.log, c.1 ∈ published

/-- Transactions about published events commit published events. -/
theorem run_delivered {num : ℚ → Option ℚ} {published : List (TradeEvent ℚ)}
    {actions : List Server.Action} {s : Server}
    (h : run (Server.step num) Server.init actions = some s)
    (hdelivers : ∀ a ∈ actions, Delivers published a) :
    (∀ i tx, s.txs i = some tx → tx.event ∈ published) ∧ ∀ c ∈ s.log, c.1 ∈ published := by
  have hinit : Server.init.Current num ∧ (∀ i tx, Server.init.txs i = some tx → tx.event ∈ published) ∧
      ∀ c ∈ Server.init.log, c.1 ∈ published := by
    refine ⟨Server.current_init, ?_, ?_⟩
    · intro i tx htx
      cases htx
    · intro c hc
      cases hc
  refine ((everyState_of_everyStep (fun s => s.Current num ∧
    (∀ i tx, s.txs i = some tx → tx.event ∈ published) ∧ ∀ c ∈ s.log, c.1 ∈ published) ?_ hinit
    (everyStep_of_forall hdelivers)).last h).2
  rintro s a t ⟨hcur, htxs, hlogs⟩ hdeliver ht
  obtain ⟨hcur', heffect⟩ := hcur.step ht
  refine ⟨hcur', ?_, ?_⟩
  · intro i tx htx
    rcases Consumer.step_event ht htx with ⟨tx', htx', he, -⟩ | ⟨event, d, rfl, he, -⟩
    · rw [he]
      exact htxs i tx' htx'
    · rw [he]
      exact hdeliver
  · intro c hc
    rcases heffect with ⟨-, -, hlog⟩ | ⟨i, tx, -, htx, hlog, -⟩
    · rw [hlog] at hc
      exact hlogs c hc
    · rw [hlog] at hc
      rcases List.mem_append.1 hc with hc | hc
      · exact hlogs c hc
      · rw [List.mem_singleton.1 hc]
        exact htxs i tx htx

theorem run_consumes {published : List (TradeEvent ℚ)} {actions : List Server.Action} {s : Server}
    (h : run (Server.step numericColumn) Server.init actions = some s)
    (hexact : EveryStep (Server.step numericColumn) CommitsOnSteps Server.init actions)
    (hdelivers : ∀ a ∈ actions, Delivers published a) : Consumes published s := by
  obtain ⟨htxs, hlog⟩ := run_delivered h hdelivers
  obtain ⟨hinv, hfolded⟩ := hexact.last (fun s => s.Inv ∧ Consumer.Folded s.log s.db)
    (fun s a t hI ha ht => ⟨hI.1.step ht, (hI.1.folded_step_iff hI.2 ht).2 ha⟩)
    ⟨Server.inv_init, Consumer.folded_init⟩ h
  exact ⟨hinv, hfolded, htxs, hlog⟩

/-- The event of a published trade tells it. -/
theorem eventOf_published {t : Trade ℚ} {event : TradeEvent ℚ} (h : PublishedFor t event) :
    Tells t event := by
  obtain ⟨notionalValue, realizedPnl, eventId, now, rfl⟩ := h
  exact Lockstep.tells_fromResponse t notionalValue realizedPnl eventId now

/-- No event is committed twice, so no trade is, where each has one event. -/
theorem committed_tradeIds_nodup {num : ℚ → Option ℚ} {published : List (TradeEvent ℚ)}
    {log : List (TradeEvent ℚ × Delivery)} {db : Consumer.Db}
    (htrade_nodup : (published.map TradeEvent.tradeId).Nodup) (hist : Consumer.History num log db)
    (hlog : ∀ c ∈ log, c.1 ∈ published) : (log.map fun c => c.1.tradeId).Nodup := by
  refine List.Nodup.map_on (fun c hc c' hc' he => ?_) (List.Nodup.of_map _ hist.nodup)
  have hevent := List.inj_on_of_nodup_map htrade_nodup (hlog c hc) (hlog c' hc') he
  exact List.inj_on_of_nodup_map hist.nodup hc hc' (congrArg TradeEvent.eventId hevent)

/-- Once every published event is committed, the committed events are those of the applied trades, in
some order. -/
theorem committed_perm_of_history {num : ℚ → Option ℚ} {published : List (TradeEvent ℚ)}
    {ts : List (ValidTrade ℚ)} {log : List (TradeEvent ℚ × Delivery)} {db : Consumer.Db}
    (hids : (ts.map fun t => t.trade.id).Nodup)
    (htrade : ∀ e ∈ published, ∃ t ∈ ts, PublishedFor t.trade e)
    (hserved : ∀ t ∈ ts, ∃ e ∈ published, e.tradeId = t.trade.id)
    (htrade_nodup : (published.map TradeEvent.tradeId).Nodup)
    (hevent_nodup : (published.map TradeEvent.eventId).Nodup)
    (hist : Consumer.History num log db) (hlog : ∀ c ∈ log, c.1 ∈ published)
    (hall : ∀ e ∈ published, e.eventId ∈ db.processedIds) :
    ∃ us : List (Traded ℚ), us.map Traded.event = log.map Prod.fst ∧
      (us.map Traded.trade).Perm ts := by
  have htraded : ∀ e ∈ log.map Prod.fst, ∃ u : Traded ℚ, u.event = e ∧
      (u.trade ∈ ts ∧ u.event.tradeId = u.trade.trade.id) := by
    intro e he
    obtain ⟨c, hc, rfl⟩ := List.mem_map.1 he
    obtain ⟨t, ht, hfor⟩ := htrade c.1 (hlog c hc)
    exact ⟨⟨t, c.1, eventOf_published hfor⟩, rfl, ht, hfor.tradeId⟩
  obtain ⟨us, hus, hP⟩ := exists_map_eq htraded
  have hevents : us.map (fun u => u.event.tradeId) = log.map fun c => c.1.tradeId := by
    have h := congrArg (List.map TradeEvent.tradeId) hus
    rwa [List.map_map, List.map_map] at h
  have hnodup : (us.map fun u => u.trade.trade.id).Nodup := by
    rw [← List.map_congr_left fun u hu => (hP u hu).2, hevents]
    exact committed_tradeIds_nodup htrade_nodup hist hlog
  refine ⟨us, hus, (List.perm_ext_iff_of_nodup ?_ hids.of_map).2 fun t => ?_⟩
  · refine List.Nodup.of_map (fun v : ValidTrade ℚ => v.trade.id) ?_
    rw [List.map_map]
    exact hnodup
  · constructor
    · intro ht
      obtain ⟨u, hu, rfl⟩ := List.mem_map.1 ht
      exact (hP u hu).1
    · intro ht
      obtain ⟨e, he, htid⟩ := hserved t ht
      -- The event of the trade is committed, and it is the event of one of `us`.
      have hmem := hall e he
      rw [hist.processedIds] at hmem
      obtain ⟨c, hc, hce⟩ := List.mem_map.1 hmem
      have hce : c.1 = e := List.inj_on_of_nodup_map hevent_nodup (hlog c hc) he hce
      have hcu : e ∈ us.map Traded.event := by
        rw [hus, ← hce]
        exact List.mem_map_of_mem hc
      obtain ⟨u, hu, rfl⟩ := List.mem_map.1 hcu
      obtain ⟨happlied, hid⟩ := hP u hu
      have heq : u.trade = t := List.inj_on_of_nodup_map hids happlied ht (hid.symm.trans htid)
      rw [← heq]
      exact List.mem_map_of_mem hu

/-- What one instance has applied and published. -/
theorem instance_trades {num : ℚ → Option ℚ} {l : Instance ℚ} {ts : List (ValidTrade ℚ)}
    (hi : l.Inv num) (hpub : l.Published) (hts : ts.map ValidTrade.trade = l.applied) :
    (ts.map fun t => t.trade.id).Nodup ∧ ∀ e ∈ l.spawned, ∃ t ∈ ts, PublishedFor t.trade e := by
  refine ⟨?_, fun e he => ?_⟩
  · have hnodup := hi.nodup
    rw [← hts, List.map_map] at hnodup
    exact hnodup
  · obtain ⟨t, ht, hfor, -⟩ := hpub.trade e he
    rw [← hts] at ht
    obtain ⟨v, hv, rfl⟩ := List.mem_map.1 ht
    exact ⟨v, hv, hfor⟩

theorem committed_perm_of_instance {num num' : ℚ → Option ℚ} {l : Instance ℚ} {s : Server}
    {ts : List (ValidTrade ℚ)} (hi : l.Inv num) (hpub : l.Published)
    (hts : ts.map ValidTrade.trade = l.applied)
    (hserved : ∀ t ∈ l.applied, ∃ e ∈ l.spawned, e.tradeId = t.id)
    (hist : Consumer.History num' s.log s.db) (hlog : ∀ c ∈ s.log, c.1 ∈ l.spawned)
    (hall : ∀ e ∈ l.spawned, e.eventId ∈ s.db.processedIds) :
    ∃ us : List (Traded ℚ), us.map Traded.event = s.log.map Prod.fst ∧
      (us.map Traded.trade).Perm ts := by
  obtain ⟨hids, htrade⟩ := instance_trades hi hpub hts
  refine committed_perm_of_history hids htrade (fun t ht => ?_) hpub.trade_nodup hpub.event_nodup
    hist hlog hall
  exact hserved t.trade (hts ▸ List.mem_map_of_mem ht)

theorem committed_perm {num : ℚ → Option ℚ} {l : Instance ℚ} {s : Server} {ts : List (ValidTrade ℚ)}
    (hi : l.Inv num) (hpub : l.Published) (hts : ts.map ValidTrade.trade = l.applied)
    (hserved : ∀ t ∈ l.applied, ∃ e ∈ l.spawned, e.tradeId = t.id)
    (hs : Consumes l.spawned s) (hall : ∀ e ∈ l.spawned, e.eventId ∈ s.db.processedIds) :
    ∃ us : List (Traded ℚ), us.map Traded.event = s.log.map Prod.fst ∧
      (us.map Traded.trade).Perm ts :=
  committed_perm_of_instance hi hpub hts hserved hs.inv.history hs.log hall

/-! ### Agreement of the books -/

theorem tradesOf_filter (side : TradeSide) (asset : String) (ts : List (ValidTrade ℚ)) :
    tradesOf side asset (ts.filter fun t => t.asset = asset) = tradesOf side asset ts := by
  unfold tradesOf
  rw [List.filterMap_filter]
  refine List.filterMap_congr fun t _ => ?_
  by_cases ha : t.asset = asset <;> simp [ha]

/-- A fold over the committed events of an asset follows a book of their trades. -/
theorem book_of_replay {log : List (TradeEvent ℚ × Delivery)} {us : List (Traded ℚ)}
    (hus : us.map Traded.event = log.map Prod.fst) {a : String} {p : AssetPortfolio ℚ}
    (hreplay : (AssetPortfolio.new a).replay (eventsOf log a) = some p) :
    ∃ b : Book ℚ, PortfolioRefines p b ∧
      b.buys = buysOf a (us.map Traded.trade) ∧ b.sells = sellsOf a (us.map Traded.trade) := by
  have hevents : eventsOf log a = (us.filter fun u => u.trade.asset = a).map Traded.event := by
    unfold eventsOf
    rw [← hus, List.filter_map]
    refine congrArg (List.map Traded.event) (List.filter_congr fun u _ => ?_)
    simp [u.tells.asset]
  rw [hevents] at hreplay
  obtain ⟨b, href, hbuys, hsells⟩ := replay_refines (Agreement.portfolioRefines_new a)
    (us.filter fun u => u.trade.asset = a)
    (fun u hu => of_decide_eq_true (List.mem_filter.1 hu).2) hreplay
  have hfilter : ∀ side, tradesOf side a ((us.filter fun u => u.trade.asset = a).map Traded.trade) =
      tradesOf side a (us.map Traded.trade) := by
    intro side
    rw [← tradesOf_filter side a (us.map Traded.trade), List.filter_map]
    rfl
  exact ⟨b, href, hbuys.trans ((List.nil_append _).trans (hfilter .buy)),
    hsells.trans ((List.nil_append _).trans (hfilter .sell))⟩

/-- The portfolio of every asset follows a book of its committed trades. -/
theorem consumer_book {s : Server} (hs : s.Inv) (hfold : Consumer.Folded s.log s.db)
    {us : List (Traded ℚ)} (hus : us.map Traded.event = s.log.map Prod.fst) (a : String) :
    ∃ b : Book ℚ, PortfolioRefines (s.db.portfolio a) b ∧
      b.buys = buysOf a (us.map Traded.trade) ∧ b.sells = sellsOf a (us.map Traded.trade) :=
  book_of_replay hus (hfold.portfolio hs.history a)

theorem openCost_eq {p : AssetPortfolio ℚ} {b : Book ℚ} (h : PortfolioRefines p b) :
    openCost p = notional b.openLots := by
  rw [← h.lots, AssetPortfolio.pairs, notional, value, List.map_map]
  rfl

theorem buysCommitted_eq {log : List (TradeEvent ℚ × Delivery)} {us : List (Traded ℚ)}
    (hus : us.map Traded.event = log.map Prod.fst) (a : String) :
    buysCommitted log a = buysOf a (us.map Traded.trade) := by
  have hside : ∀ side : TradeSide, side.str = TradeSide.buy.str ↔ side = .buy := by
    intro side
    cases side <;> decide
  have hlog : buysCommitted log a = (log.map Prod.fst).filterMap fun e =>
      if e.asset = a ∧ e.side = TradeSide.buy.str then some (e.quantity, e.price) else none := by
    rw [List.filterMap_map]
    rfl
  unfold buysOf tradesOf
  rw [hlog, ← hus, List.filterMap_map, List.filterMap_map]
  refine List.filterMap_congr fun u _ => ?_
  simp only [Function.comp_apply, u.tells.asset, u.tells.side, u.tells.quantity, u.tells.price, hside]

theorem buysApplied_eq {applied : List (Trade ℚ)} {ts : List (ValidTrade ℚ)}
    (hts : ts.map ValidTrade.trade = applied) (a : String) :
    buysApplied applied a = buysOf a ts := by
  unfold buysApplied buysOf tradesOf
  rw [← hts, List.filterMap_map]
  rfl

/-- A book with the committed trades of an asset, in some order, is empty if no event of the asset is
committed. -/
theorem book_of_uncommitted {log : List (TradeEvent ℚ × Delivery)} {us : List (Traded ℚ)}
    (hus : us.map Traded.event = log.map Prod.fst) {a : String} (ha : a ∉ committedAssets log)
    {b : Book ℚ} (hbuys : (buysOf a (us.map Traded.trade)).Perm b.buys)
    (hsells : (sellsOf a (us.map Traded.trade)).Perm b.sells) : b = Book.empty := by
  have hne : ∀ t ∈ us.map Traded.trade, t.asset ≠ a := by
    rintro t ht rfl
    obtain ⟨u, hu, rfl⟩ := List.mem_map.1 ht
    have hmem : u.event ∈ log.map Prod.fst := hus ▸ List.mem_map_of_mem hu
    obtain ⟨c, hc, hcu⟩ := List.mem_map.1 hmem
    refine ha (List.mem_toFinset.2 (List.mem_map.2 ⟨c, hc, ?_⟩))
    rw [hcu, u.tells.asset]
  rw [buysOf, tradesOf_eq_nil hne] at hbuys
  rw [sellsOf, tradesOf_eq_nil hne] at hsells
  exact Book.ext_lists (List.nil_perm.1 hbuys) (List.nil_perm.1 hsells)

/-- **Convergence.** Take any run of one ledger instance in which every save succeeds, and any run of
the consumer's transactions on the events it publishes, with columns that hold the totals as they are.
When no call is under way and every event is committed, the two sides agree. -/
theorem converges {num : ℚ → Option ℚ} {as : List (Instance.Action ℚ)} {l : Instance ℚ}
    {actions : List Server.Action} {s : Server}
    (hl : run (Instance.step num) Instance.init as = some l)
    (hsucceeds : EveryStep (Instance.step num) (Succeeds num) Instance.init as)
    (hquiet : l.Quiescent)
    (hs : run (Server.step numericColumn) Server.init actions = some s)
    (hexact : EveryStep (Server.step numericColumn) CommitsOnSteps Server.init actions)
    (hdelivers : ∀ a ∈ actions, Delivers l.spawned a)
    (hall : ∀ e ∈ l.spawned, e.eventId ∈ s.db.processedIds) : Converged l s := by
  obtain ⟨hi, ⟨ts, books, hts, href, hholds⟩, hpub⟩ := run_published hl
  have hcons := run_consumes hs hexact hdelivers
  obtain ⟨us, hus, hperm⟩ := committed_perm hi hpub hts
    (published_of_succeeds hl hquiet hsucceeds) hcons hall
  choose book hbook hbuys hsells using consumer_book hcons.inv hcons.folded hus
  have hbuys_perm : ∀ a, (book a).buys.Perm (books a).buys := by
    intro a
    rw [hbuys, (hholds a).1]
    exact hperm.filterMap _
  have hsells_perm : ∀ a, (book a).sells.Perm (books a).sells := by
    intro a
    rw [hsells, (hholds a).2]
    exact hperm.filterMap _
  -- Both sides have their books' profits, and an asset without a committed event has none.
  have hempty : ∀ a, a ∉ committedAssets s.log → books a = Book.empty := by
    intro a ha
    refine book_of_uncommitted hus ha ?_ ?_
    · rw [← hbuys]
      exact hbuys_perm a
    · rw [← hsells]
      exact hsells_perm a
  have hrealized : ∀ f : Book ℚ → ℚ, f Book.empty = 0 →
      ∑ a ∈ l.portfolio.positions.keys, f (books a) = ∑ a ∈ committedAssets s.log, f (books a) := by
    intro f hf
    refine Agreement.sum_eq_sum_of_zero (fun a ha => ?_) fun a ha => ?_
    · rw [href.absent a, hf]
      rw [Finmap.mem_keys] at ha
      exact Finmap.lookup_eq_none.2 ha
    · rw [hempty a ha, hf]
  have hlots : ∀ a, buysCommitted s.log a = buysApplied l.applied a →
      (book a).buys = (books a).buys := by
    intro a ha
    rw [hbuys, (hholds a).1, ← buysCommitted_eq hus, ← buysApplied_eq hts, ha]
  refine ⟨?_, ?_, ?_, ?_⟩
  · intro a
    rw [(hbook a).total, Agreement.quantityOf_eq href, Book.held_perm (hbuys_perm a) (hsells_perm a)]
  · rw [href.realized, href.openCost, ← Finset.sum_sub_distrib,
      hrealized (fun b => b.realized - notional b.openLots) (by simp)]
    refine Finset.sum_congr rfl fun a _ => ?_
    rw [(hbook a).realized, openCost_eq (hbook a),
      Book.realized_sub_perm (hbuys_perm a) (hsells_perm a)]
  · intro a ha
    have hopen := Book.openLots_perm (hlots a ha) (hsells_perm a)
    rw [← (hbook a).lots, ← href.lotsOf a, AssetPortfolio.pairs] at hopen
    exact eq_of_pairs_eq hopen
  · intro hord
    rw [href.realized, hrealized Book.realized (by simp)]
    refine Finset.sum_congr rfl fun a _ => ?_
    rw [(hbook a).realized, Book.realized_perm (hlots a (hord a)) (hsells_perm a)]

/-! ### Two buys, swapped -/

/-- Three concurrent calls: buy 1 BTC at 10, buy 1 at 20, sell 1 at 30. -/
def threeCalls : List (Instance.Action ℚ) :=
  [.start { Ledger.sampleRequest with price := 10 } 0,
    .start { Ledger.sampleRequest with price := 20 } 0,
    .start { Ledger.sampleRequest with price := 30, side := .sell } 0,
    .save 0, .save 1, .save 2, .respond 0 0, .respond 1 0, .respond 2 0]

/-- The events these calls publish. -/
def threeEvents : List (TradeEvent ℚ) :=
  ((run (Instance.step numericColumn) Instance.init threeCalls).map Instance.spawned).getD []

/-- The consumer's transactions on these events, one after the other, in the given order. -/
def consumeInOrder (order : List ℕ) : List Server.Action :=
  order.flatMap fun i =>
    match threeEvents[i]? with
    | some event => Consumer.statements i event ⟨0, i, i, i, none⟩
    | none => []

theorem threeCalls_run : ∃ l, run (Instance.step numericColumn) Instance.init threeCalls = some l ∧
    l.Quiescent ∧ l.spawned = threeEvents ∧ l.portfolio.lotsOf "BTC" = [⟨1, 20⟩] := by
  have hview : (run (Instance.step numericColumn) Instance.init threeCalls).map
      (fun l => (l.applied.all fun t => (l.calls t.id).isNone, l.spawned,
        l.portfolio.lotsOf "BTC")) = some (true, threeEvents, [⟨1, 20⟩]) := by decide +kernel
  obtain ⟨l, hl, hparts⟩ := Option.map_eq_some_iff.1 hview
  obtain ⟨hcalls, hparts⟩ := Prod.mk.inj hparts
  obtain ⟨hspawned, hlots⟩ := Prod.mk.inj hparts
  exact ⟨l, hl, (run_published hl).1.quiescent hcalls, hspawned, hlots⟩

/-- Committed in the ledger's order, the events make the two sides agree. -/
theorem converges_in_order : ∃ l s,
    run (Instance.step numericColumn) Instance.init threeCalls = some l ∧
    run (Server.step numericColumn) Server.init (consumeInOrder [0, 1, 2]) = some s ∧
    Converged l s := by
  obtain ⟨l, hl, hquiet, hspawned, -⟩ := threeCalls_run
  have hview : (run (Server.step numericColumn) Server.init (consumeInOrder [0, 1, 2])).map
      (fun s => threeEvents.all fun e => e.eventId ∈ s.db.processedIds) = some true := by
    decide +kernel
  obtain ⟨s, hs, hids⟩ := Option.map_eq_some_iff.1 hview
  refine ⟨l, s, hl, hs, converges hl (by decide +kernel) hquiet hs (by decide +kernel) ?_ ?_⟩
  · rw [hspawned]
    decide +kernel
  · rw [hspawned]
    exact fun e he => of_decide_eq_true (List.all_eq_true.1 hids e he)

/-- With the two buys swapped, the consumer is left with the lot that the ledger has sold. -/
theorem swapped_buys_diverge :
    ¬ ∀ (as : List (Instance.Action ℚ)) (l : Instance ℚ) (actions : List Server.Action) (s : Server),
      run (Instance.step numericColumn) Instance.init as = some l →
      EveryStep (Instance.step numericColumn) (Succeeds numericColumn) Instance.init as →
      l.Quiescent →
      run (Server.step numericColumn) Server.init actions = some s →
      EveryStep (Server.step numericColumn) CommitsOnSteps Server.init actions →
      (∀ a ∈ actions, Delivers l.spawned a) →
      (∀ e ∈ l.spawned, e.eventId ∈ s.db.processedIds) →
      (∀ a, (s.db.portfolio a).lots = l.portfolio.lotsOf a ∧
        (s.db.portfolio a).totalQuantity = quantityOf l.portfolio a) ∧
      ∑ a ∈ committedAssets s.log, (s.db.portfolio a).totalRealizedPnl =
        l.portfolio.totalRealizedPnl := by
  intro h
  obtain ⟨l, hl, hquiet, hspawned, hlots⟩ := threeCalls_run
  have hview : (run (Server.step numericColumn) Server.init (consumeInOrder [1, 0, 2])).map
      (fun s => (threeEvents.all fun e => e.eventId ∈ s.db.processedIds,
        (s.db.portfolio "BTC").lots)) = some (true, [⟨1, 10⟩]) := by decide +kernel
  obtain ⟨s, hs, hparts⟩ := Option.map_eq_some_iff.1 hview
  obtain ⟨hids, hlots'⟩ := Prod.mk.inj hparts
  have hdelivers : ∀ a ∈ consumeInOrder [1, 0, 2], Delivers l.spawned a := by
    rw [hspawned]
    decide +kernel
  have hall : ∀ e ∈ l.spawned, e.eventId ∈ s.db.processedIds := by
    rw [hspawned]
    exact fun e he => of_decide_eq_true (List.all_eq_true.1 hids e he)
  have hsame := (h _ l _ s hl (by decide +kernel) hquiet hs (by decide +kernel) hdelivers hall).1
  have hBTC := (hsame "BTC").1
  rw [hlots, hlots'] at hBTC
  exact absurd hBTC (by decide +kernel)

end Convergence
end CryptoAccounting

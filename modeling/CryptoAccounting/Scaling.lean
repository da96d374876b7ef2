import CryptoAccounting.Consumer.Group
import CryptoAccounting.Consumer.Schema
import CryptoAccounting.EndToEnd
import CryptoAccounting.Ledger.Fleet

/-!
# Several ledger processes, one consumer database

The ledger is deployed with two replicas behind one service. A trade is applied by the process that happens
to get its request, and no process hears of the trades of the others; the topic has the events of all of
them. So what the consumer stores is what the processes hold together (`fleet_adds_up`): the quantity of an
asset is the sum of theirs, and what it has made at any prices is the sum of what their `GET /pnl` answer.
Each of them processes an event in one transaction, so the same is true of what a whole consumer group stores
(`group_adds_up`), as long as no commit passes a message that failed and is still missing. The arithmetic is
exact, and only the columns round.
-/

namespace CryptoAccounting

open Segments Transition Ledger
open Consumer (Server Drifts Committed Group OnTopic drift eventsOf)
open Convergence (Delivers committedAssets instance_trades run_delivered committed_perm_of_history
  book_of_uncommitted)
open Agreement (PortfolioRefines quantityOf)
open Lockstep (Traded)

variable {N : ℕ} {num : ℚ → Option ℚ} {f : Fleet N} {s : Server}

/-! ### The trades of all processes -/

/-- The trades `ts i` are those that process `i` has applied, and `books i` are their books. -/
def Ledger.Fleet.Keeps (f : Fleet N) (ts : Fin N → List (ValidTrade ℚ)) (books : Fin N → Books) : Prop :=
  ∀ i, (ts i).map ValidTrade.trade = (f.procs i).applied ∧ (f.procs i).portfolio.Refines (books i) ∧
    (books i).Holds (ts i)

theorem Ledger.Fleet.Inv.exists_keeps (h : f.Inv num) : ∃ ts books, f.Keeps ts books := by
  choose ts books hkeeps using fun i => (h.sound i).applied
  exact ⟨ts, books, hkeeps⟩

section Keeps

variable {ts : Fin N → List (ValidTrade ℚ)} {books : Fin N → Books} (hkeeps : f.Keeps ts books)

include hkeeps

theorem Ledger.Fleet.Keeps.nodup (h : f.Inv num) :
    (((List.finRange N).flatMap ts).map fun t => t.trade.id).Nodup := by
  refine nodup_flatMap_of_ne (fun i => ?_) fun i j hij t ht u hu => ?_
  · exact (instance_trades (h.sound i).inv (h.sound i).published (hkeeps i).1).1
  · refine h.trades i j hij t.trade ?_ u.trade ?_
    · exact (hkeeps i).1 ▸ List.mem_map_of_mem ht
    · exact (hkeeps j).1 ▸ List.mem_map_of_mem hu

/-- Every event is that of a trade of some process. -/
theorem Ledger.Fleet.Keeps.published (h : f.Inv num) :
    ∀ e ∈ f.published, ∃ t ∈ (List.finRange N).flatMap ts, PublishedFor t.trade e := by
  intro e he
  obtain ⟨i, hi⟩ := Fleet.mem_published.1 he
  obtain ⟨t, ht, hfor⟩ :=
    (instance_trades (h.sound i).inv (h.sound i).published (hkeeps i).1).2 e hi
  exact ⟨t, List.mem_flatMap.2 ⟨i, List.mem_finRange i, ht⟩, hfor⟩

/-- Every trade has its event, once all calls have returned. -/
theorem Ledger.Fleet.Keeps.served (hserved : ∀ i, (f.procs i).Served)
    (hquiet : ∀ i, (f.procs i).Quiescent) :
    ∀ t ∈ (List.finRange N).flatMap ts, ∃ e ∈ f.published, e.tradeId = t.trade.id := by
  intro t ht
  obtain ⟨i, -, hi⟩ := List.mem_flatMap.1 ht
  have happlied : t.trade ∈ (f.procs i).applied := (hkeeps i).1 ▸ List.mem_map_of_mem hi
  rcases hserved i t.trade happlied with hcall | ⟨e, he, hid⟩
  · rw [hquiet i] at hcall
    cases hcall
  · exact ⟨e, Fleet.mem_published.2 ⟨i, he⟩, hid⟩

/-- The trades of an asset, process by process. -/
theorem Ledger.Fleet.Keeps.lists (a : String) :
    buysOf a ((List.finRange N).flatMap ts) = (List.finRange N).flatMap (fun i => (books i a).buys) ∧
      sellsOf a ((List.finRange N).flatMap ts) =
        (List.finRange N).flatMap fun i => (books i a).sells := by
  have hbuys : ∀ i, (books i a).buys = buysOf a (ts i) := fun i => ((hkeeps i).2.2 a).1
  have hsells : ∀ i, (books i a).sells = sellsOf a (ts i) := fun i => ((hkeeps i).2.2 a).2
  simp only [hbuys, hsells, buysOf, sellsOf, tradesOf, List.filterMap_flatMap, and_self]

end Keeps

/-! ### The consumer's books -/

/-- The book `b` has the trades of the books `bs`, in any order. -/
structure Merges (b : Book ℚ) (bs : Fin N → Book ℚ) : Prop where
  buys : b.buys.Perm ((List.finRange N).flatMap fun i => (bs i).buys)
  sells : b.sells.Perm ((List.finRange N).flatMap fun i => (bs i).sells)

/-- An empty book is made of empty books. -/
theorem Merges.eq_empty {bs : Fin N → Book ℚ} (h : Merges Book.empty bs) (i : Fin N) :
    bs i = Book.empty := by
  have hbuys := List.flatMap_eq_nil_iff.1 (List.nil_perm.1 h.buys) i (List.mem_finRange i)
  have hsells := List.flatMap_eq_nil_iff.1 (List.nil_perm.1 h.sells) i (List.mem_finRange i)
  exact Book.ext_lists hbuys hsells

/-- The processes have the books `books`, and the stored portfolio of every asset drifts from one book
that has the trades of all of them. -/
structure Ledger.Fleet.Merged (f : Fleet N) (log : List Committed) (db : Consumer.Db)
    (books : Fin N → Books) : Prop where
  refines : ∀ i, (f.procs i).portfolio.Refines (books i)
  portfolio : ∀ a, ∃ p b, Drifts a log db p ∧ PortfolioRefines p b ∧ Merges b (fun i => books i a) ∧
    (a ∉ committedAssets log → b = Book.empty)

/-- Any serial calls that record every published event, and nothing else, end so. -/
theorem exists_merged {as : List (Fin N × Instance.Action ℚ)} {log : List Committed} {db : Consumer.Db}
    (hf : run (Fleet.step num) (Fleet.init N) as = some f)
    (hsucceeds : EveryStep (Fleet.step num) (Fleet.Succeeds num) (Fleet.init N) as)
    (hquiet : ∀ i, (f.procs i).Quiescent) (hist : Consumer.History numericColumn log db)
    (hlog : ∀ c ∈ log, c.1 ∈ f.published) (hall : ∀ e ∈ f.published, e.eventId ∈ db.processedIds) :
    ∃ books, f.Merged log db books := by
  have hinv := run_fleet hf
  obtain ⟨ts, books, hkeeps⟩ := hinv.exists_keeps
  obtain ⟨hevent_nodup, htrade_nodup⟩ := hinv.published_nodup
  obtain ⟨us, hus, hperm⟩ := committed_perm_of_history (hkeeps.nodup hinv) (hkeeps.published hinv)
    (hkeeps.served (run_served hf hsucceeds) hquiet) htrade_nodup hevent_nodup hist hlog hall
  refine ⟨books, fun i => (hkeeps i).2.1, fun a => ?_⟩
  obtain ⟨p, b, hp, hb, hbuys, hsells⟩ := drifts_of_history hus hist a
  obtain ⟨hlistb, hlists⟩ := hkeeps.lists a
  refine ⟨p, b, hp, hb, ⟨?_, ?_⟩, fun ha => ?_⟩
  · rw [hbuys, ← hlistb]
    exact hperm.filterMap _
  · rw [hsells, ← hlists]
    exact hperm.filterMap _
  · exact book_of_uncommitted hus ha (hbuys ▸ .refl _) (hsells ▸ .refl _)

section Merged

variable {log : List Committed} {db : Consumer.Db} {books : Fin N → Books} (h : f.Merged log db books)

include h

theorem Ledger.Fleet.Merged.quantity (a : String) :
    |(db.portfolio a).totalQuantity - ∑ i, quantityOf (f.procs i).portfolio a| ≤
      drift (eventsOf log a).length := by
  obtain ⟨p, b, hdrifts, hb, hmerges, -⟩ := h.portfolio a
  have hsum : ∑ i, quantityOf (f.procs i).portfolio a = b.held := by
    rw [Book.held_merge hmerges.buys hmerges.sells]
    exact Finset.sum_congr rfl fun i _ => Agreement.quantityOf_eq (h.refines i) a
  rw [hsum, ← hb.total]
  exact hdrifts.row.totalQuantity

theorem Ledger.Fleet.Merged.profit (a : String) (price : ℚ) :
    |profitAt (db.portfolio a) price - ∑ i, (books i a).profitAt price| ≤
      drift (eventsOf log a).length * (1 + |price|) := by
  obtain ⟨p, b, hdrifts, hb, hmerges, -⟩ := h.portfolio a
  rw [← Book.profitAt_merge hmerges.buys hmerges.sells, ← profitAt_eq hb (.refl _) (.refl _)]
  exact profitAt_near hdrifts.row price

/-- A process has made nothing of an asset of which no event is committed. -/
theorem Ledger.Fleet.Merged.profit_of_uncommitted {a : String} (ha : a ∉ committedAssets log) (i : Fin N)
    (price : ℚ) : (books i a).profitAt price = 0 := by
  obtain ⟨p, b, -, -, hmerges, hempty⟩ := h.portfolio a
  rw [hempty ha] at hmerges
  rw [hmerges.eq_empty i]
  simp [Book.profitAt]

/-- The total that a process answers. -/
theorem Ledger.Fleet.Merged.total {i : Fin N} {order : (f.procs i).portfolio.IterOrder} {req : PnLRequest ℚ}
    {pnl : PnLResponse ℚ} (hpnl : GetPnL.execute (f.procs i).portfolio order req = .ok (.ok pnl)) :
    pnl.total = ∑ a ∈ committedAssets log, (books i a).profitAt ((req.prices.lookup a).getD 0) := by
  have hrest : ∀ a ∉ (committedAssets log).toList, ∀ price, (books i a).profitAt price = 0 :=
    fun a ha price => h.profit_of_uncommitted (fun hmem => ha (Finset.mem_toList.2 hmem)) i price
  rw [← sum_profitAt (h.refines i) (Finset.nodup_toList _) hrest hpnl, Finset.sum_map_toList]

end Merged

/-! ### The sums -/

/-- How many events of an asset are recorded. -/
def Consumer.Db.eventCount (db : Consumer.Db) (a : String) : ℕ :=
  db.processedEvents.countP fun row => row.asset = a

/-- The assets of the recorded events. -/
def Consumer.Db.assets (db : Consumer.Db) : Finset String :=
  (db.processedEvents.map Consumer.ProcessedEvent.asset).toFinset

theorem Consumer.Db.Tells.eventCount {log : List Committed} {db : Consumer.Db} (h : db.Tells num log)
    (a : String) : db.eventCount a = (eventsOf log a).length := by
  unfold Consumer.Db.eventCount eventsOf
  rw [h.processed, List.countP_map, ← List.countP_eq_length_filter, List.countP_map]
  rfl

theorem Consumer.Db.Tells.assets {log : List Committed} {db : Consumer.Db} (h : db.Tells num log) :
    db.assets = committedAssets log := by
  unfold Consumer.Db.assets committedAssets
  rw [h.processed, List.map_map]
  rfl

/-- What the tables hold is what the processes hold together, up to half a column step for each recorded
event: the quantity of every asset, and what has been made at the prices of a `GET /pnl` that every process
answers. -/
structure Ledger.Fleet.AddsUp (f : Fleet N) (db : Consumer.Db) : Prop where
  quantity : ∀ a, |(db.portfolio a).totalQuantity - ∑ i, quantityOf (f.procs i).portfolio a| ≤
    drift (db.eventCount a)
  profit : ∀ (req : PnLRequest ℚ) (order : ∀ i, (f.procs i).portfolio.IterOrder)
    (pnl : Fin N → PnLResponse ℚ),
    (∀ i, GetPnL.execute (f.procs i).portfolio (order i) req = .ok (.ok (pnl i))) →
      |∑ a ∈ db.assets, profitAt (db.portfolio a) ((req.prices.lookup a).getD 0) - ∑ i, (pnl i).total| ≤
        ∑ a ∈ db.assets, drift (db.eventCount a) * (1 + |(req.prices.lookup a).getD 0|)

theorem Ledger.Fleet.Merged.addsUp {log : List Committed} {db : Consumer.Db} {books : Fin N → Books}
    (h : f.Merged log db books) (hist : Consumer.History num log db) : f.AddsUp db := by
  have htells := Consumer.tells_of_history hist
  constructor
  · intro a
    rw [htells.eventCount]
    exact h.quantity a
  · intro req order pnl hpnl
    have htotal := fun i => h.total (hpnl i)
    simp only [htells.assets, htells.eventCount, htotal]
    rw [Finset.sum_comm, ← Finset.sum_sub_distrib]
    exact (Finset.abs_sum_le_sum_abs _ _).trans (Finset.sum_le_sum fun a _ => h.profit a _)

/-- **A fleet adds up**, when only the columns round. Take any run of any number of ledger processes on one
table in which every save succeeds and nobody drops a call, and any run of the consumer's transactions on
the events they publish. When no call is under way and every event is committed, each stored quantity is the
sum of the quantities the processes hold, and what the stored portfolios have made at the prices of a
`GET /pnl` that each process answers is the sum of the totals in these answers; both up to half a column
step for each committed event. -/
theorem fleet_adds_up (N : ℕ) (num : ℚ → Option ℚ) (as : List (Fin N × Instance.Action ℚ)) (f : Fleet N)
    (hf : run (Fleet.step num) (Fleet.init N) as = some f)
    (hsucceeds : EveryStep (Fleet.step num) (Fleet.Succeeds num) (Fleet.init N) as)
    (hquiet : ∀ i, (f.procs i).Quiescent) (actions : List Server.Action) (s : Server)
    (hs : run (Server.step numericColumn) Server.init actions = some s)
    (hdelivers : ∀ a ∈ actions, Delivers f.published a)
    (hall : ∀ e ∈ f.published, e.eventId ∈ s.db.processedIds) : f.AddsUp s.db := by
  have hist := (Consumer.run_history hs).2
  obtain ⟨books, hmerged⟩ := exists_merged hf hsucceeds hquiet hist (run_delivered hs hdelivers).2 hall
  exact hmerged.addsUp hist

/-- Two processes buy 1 BTC each; their calls overlap. -/
def twoProcesses : List (Fin 2 × Instance.Action ℚ) :=
  (List.finRange 2).map (fun i => (i, .start sampleRequest 0)) ++
    (List.finRange 2).map (fun i => (i, .save i)) ++ (List.finRange 2).map fun i => (i, .respond i 0)

/-- The events they publish. -/
def twoEvents : List (TradeEvent ℚ) :=
  ((run (Fleet.step numericColumn) (Fleet.init 2) twoProcesses).map Fleet.published).getD []

/-- The consumer's transactions on these events, the last one first. -/
def consumeBackwards : List Server.Action :=
  twoEvents.zipIdx.reverse.flatMap fun c => Consumer.statements c.2 c.1 ⟨0, c.2, c.2, c.2, none⟩

/-- They end with 1 BTC each, and no call is under way. -/
theorem exists_twoProcesses : ∃ f, run (Fleet.step numericColumn) (Fleet.init 2) twoProcesses = some f ∧
    f.published = twoEvents ∧
    ∀ i, quantityOf (f.procs i).portfolio "BTC" = 1 ∧ (f.procs i).Quiescent := by
  have hview : (run (Fleet.step numericColumn) (Fleet.init 2) twoProcesses).map (fun f =>
      (f.published, fun i => (quantityOf (f.procs i).portfolio "BTC",
        (f.procs i).applied.all fun t => ((f.procs i).calls t.id).isNone))) =
      some (twoEvents, fun _ => (1, true)) := by decide +kernel
  obtain ⟨f, hf, hparts⟩ := Option.map_eq_some_iff.1 hview
  obtain ⟨hpublished, hprocs⟩ := Prod.mk.inj hparts
  refine ⟨f, hf, hpublished, fun i => ?_⟩
  obtain ⟨hquantity, hcalls⟩ := Prod.mk.inj (congrFun hprocs i)
  exact ⟨hquantity, ((run_fleet hf).sound i).inv.quiescent hcalls⟩

theorem fleet_adds_up_twoProcesses : ∃ f s,
    run (Fleet.step numericColumn) (Fleet.init 2) twoProcesses = some f ∧
    run (Server.step numericColumn) Server.init consumeBackwards = some s ∧
    (∀ i, quantityOf (f.procs i).portfolio "BTC" = 1) ∧
    |(s.db.portfolio "BTC").totalQuantity - ∑ i, quantityOf (f.procs i).portfolio "BTC"| ≤
      drift (s.db.eventCount "BTC") := by
  have hids : (run (Server.step numericColumn) Server.init consumeBackwards).map
      (fun s => twoEvents.all fun e => e.eventId ∈ s.db.processedIds) = some true := by decide +kernel
  obtain ⟨f, hf, hpublished, hproc⟩ := exists_twoProcesses
  obtain ⟨s, hs, hall⟩ := Option.map_eq_some_iff.1 hids
  refine ⟨f, s, hf, hs, fun i => (hproc i).1, ?_⟩
  refine (fleet_adds_up 2 numericColumn twoProcesses f hf (by decide +kernel) (fun i => (hproc i).2)
    consumeBackwards s hs ?_ ?_).quantity "BTC"
  · rw [hpublished]
    decide +kernel
  · rw [hpublished]
    exact fun e he => of_decide_eq_true (List.all_eq_true.1 hall e he)

/-- **The system adds up.** As above, but the events reach the tables through the topic and a consumer
group: any partitions and any number of members, with rebalances, crashes, panics, failing calls and lost
commits, and any message of the topic more than once. When every published event is in a message below
the committed offset of its partition, and no commit has passed a message that failed and was still missing,
the tables hold what the processes hold together. -/
theorem group_adds_up (N : ℕ) (num : ℚ → Option ℚ) (as : List (Fin N × Instance.Action ℚ)) (f : Fleet N)
    (hf : run (Fleet.step num) (Fleet.init N) as = some f)
    (hsucceeds : EveryStep (Fleet.step num) (Fleet.Succeeds num) (Fleet.init N) as)
    (hquiet : ∀ i, (f.procs i).Quiescent) (log : ℤ → ℕ → Consumer.Message)
    (hlog : ∀ event, OnTopic log event → event ∈ f.published) (owner : ℤ → ℕ)
    (actions : List Group.Action) (g : Group)
    (hg : run (Group.step numericColumn log) (Group.init owner) actions = some g)
    (hreads : ∀ a ∈ actions, a.Reads log)
    (hsafe : EveryStep (Group.step numericColumn log) (Group.CommitSafe log) (Group.init owner) actions)
    (hpassed : ∀ e ∈ f.published, ∃ partition, ∃ k < (g.sessions partition).committed,
      log partition k = .event e) : f.AddsUp g.db := by
  obtain ⟨hist, hhist, htopic⟩ := Consumer.run_groupHistory hg hreads
  have hall : ∀ e ∈ f.published, e.eventId ∈ g.db.processedIds := by
    intro e he
    obtain ⟨partition, k, hk, hmessage⟩ := hpassed e he
    have honce := Consumer.run_recordedOnce hg hsafe partition k hk e hmessage
    exact List.count_pos_iff.1 (honce ▸ Nat.one_pos)
  obtain ⟨books, hmerged⟩ := exists_merged hf hsucceeds hquiet hhist
    (fun c hc => hlog c.1 (htopic c hc)) hall
  exact hmerged.addsUp hhist

/-- Their topic, in one partition. -/
def twoMessages (partition : ℤ) (k : ℕ) : Consumer.Message :=
  if partition = 0 then (twoEvents[k]?).elim .noPayload .event else .noPayload

/-- One member is lost with the first message; the next one reads both. -/
def consumeTwo : List Group.Action :=
  [.recv 0, .crash 0, .rebalance 0 1, .recv 0, .handle 1 ⟨0, 0, 0, 0, none⟩, .commitLands 0, .recv 0,
    .handle 1 ⟨0, 1, 1, 1, none⟩, .commitLands 0]

theorem group_adds_up_twoProcesses : ∃ f g,
    run (Fleet.step numericColumn) (Fleet.init 2) twoProcesses = some f ∧
    run (Group.step numericColumn twoMessages) (Group.init fun _ => 0) consumeTwo = some g ∧
    |(g.db.portfolio "BTC").totalQuantity - ∑ i, quantityOf (f.procs i).portfolio "BTC"| ≤
      drift (g.db.eventCount "BTC") := by
  have hcommitted : (run (Group.step numericColumn twoMessages) (Group.init fun _ => 0) consumeTwo).map
      (fun g => (g.sessions 0).committed) = some twoEvents.length := by decide +kernel
  obtain ⟨f, hf, hpublished, hproc⟩ := exists_twoProcesses
  obtain ⟨g, hg, hoffset⟩ := Option.map_eq_some_iff.1 hcommitted
  refine ⟨f, g, hf, hg, ?_⟩
  refine (group_adds_up 2 numericColumn twoProcesses f hf (by decide +kernel) (fun i => (hproc i).2)
    twoMessages ?_ (fun _ => 0) consumeTwo g hg ?_ (by decide +kernel) ?_).quantity "BTC"
  · rintro event ⟨partition, k, hmessage⟩
    rw [hpublished]
    unfold twoMessages at hmessage
    split_ifs at hmessage
    cases hk : twoEvents[k]? with
    | none => rw [hk] at hmessage; cases hmessage
    | some e =>
      rw [hk] at hmessage
      cases hmessage
      exact List.mem_of_getElem? hk
  · intro a ha
    simp only [consumeTwo, List.mem_cons, List.not_mem_nil, or_false] at ha
    rcases ha with rfl | rfl | rfl | rfl | rfl | rfl | rfl | rfl | rfl <;> trivial
  · intro e he
    rw [hpublished] at he
    obtain ⟨k, hk, rfl⟩ := List.getElem_of_mem he
    refine ⟨0, k, hoffset ▸ hk, ?_⟩
    simp [twoMessages, hk]

end CryptoAccounting

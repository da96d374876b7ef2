import CryptoAccounting.Ledger.NoPanic

/-!
# Replicas behind a load balancer

Several instances of ledger-service over one `trades` table, each with the `Portfolio::new()` of its
own `main`, and requests that are handled one at a time, each by the instance it is routed to. No
answer is read from the table: a sell, `GET /portfolio` and `GET /pnl` all look at the portfolio of
the instance. `replicas_agree` says for which routings all is answered as by a single instance.
-/

namespace CryptoAccounting
namespace Ledger

open Segments DecimalOps

variable {D : Type}

/-! ### Requests and answers -/

/-- A request. A post comes with what its environment decides: the id that is drawn, the time, and
whether the insert goes through. -/
inductive ClientRequest (D : Type)
  | post (req : TradeRequest D) (id : Uuid) (now : Timestamp) (saves : Bool)
  | portfolio
  | pnl (req : PnLRequest D)

/-- A response; of an error only that it is one. -/
inductive Answer (D : Type)
  | created (resp : TradeResponse D)
  | portfolio (resp : PortfolioResponse D)
  | pnl (resp : PnLResponse D)
  | rejected
  | panicked
  deriving DecidableEq

/-- What an instance keeps in its process: the portfolio under its lock. -/
structure Replica (D : Type) where
  portfolio : Portfolio D
  poisoned : Bool

def Replica.init [Zero D] : Replica D := ⟨Portfolio.new, false⟩

section Services

variable [LinearOrder D] [Zero D] [DecimalOps D]

/-- What `save_trade` writes, if the insert goes through. -/
def savedRow (num : D → Option D) (saves : Bool) (trade : Trade D) : Option (TradeRow D) :=
  if saves then TradeRow.ofTrade num trade else none

/-- `CreateTradeService::execute` on one instance and the table, from start to end. -/
def CreateTrade.execute (num : D → Option D) (s : Replica D) (trades : List (TradeRow D))
    (req : TradeRequest D) (id : Uuid) (now : Timestamp) (saves : Bool) :
    Answer D × Replica D × List (TradeRow D) :=
  match CreateTrade.prepare req id now with
  | .error _ => (.panicked, s, trades)
  | .ok (.error _) => (.rejected, s, trades)
  | .ok (.ok (trade, notionalValue)) =>
    if s.poisoned then (.panicked, s, trades)
    else
      match CreateTrade.applyLocked s.portfolio trade with
      | .error _ => (.panicked, { s with poisoned := true }, trades)
      | .ok (.error _, portfolio) => (.rejected, { s with portfolio }, trades)
      | .ok (.ok realizedPnl, portfolio) =>
        match savedRow num saves trade with
        -- The trade stays applied.
        | none => (.rejected, { s with portfolio }, trades)
        | some row =>
          (.created (CreateTrade.respond trade notionalValue realizedPnl), { s with portfolio },
            insertTrade trades row)

def Answer.ofPortfolio : Except Panic (PortfolioResponse D) → Answer D
  | .error _ => .panicked
  | .ok resp => .portfolio resp

def Answer.ofPnl : Except Panic (Except (AppError D) (PnLResponse D)) → Answer D
  | .error _ => .panicked
  | .ok (.error _) => .rejected
  | .ok (.ok resp) => .pnl resp

/-- A request that only reads the portfolio. -/
def Replica.read (s : Replica D) (answer : Portfolio D → Answer D) : Answer D :=
  if s.poisoned then .panicked else answer s.portfolio

/-! ### The cluster -/

/-- `N` instances and the table they share. -/
structure Cluster (D : Type) (N : ℕ) where
  replicas : Fin N → Replica D
  trades : List (TradeRow D)

def Cluster.init (D : Type) [Zero D] (N : ℕ) : Cluster D N where
  replicas := fun _ => Replica.init
  trades := []

/-- A request with the instance it is routed to and the order in which that instance would iterate
over a map of positions. -/
structure Routed (D : Type) (N : ℕ) where
  request : ClientRequest D
  replica : Fin N
  order : (p : Portfolio D) → p.IterOrder

variable {N : ℕ}

/-- One request. -/
def Cluster.handle (num : D → Option D) (s : Cluster D N) (r : Routed D N) : Answer D × Cluster D N :=
  match r.request with
  | .post req id now saves =>
    let (answer, replica, trades) :=
      CreateTrade.execute num (s.replicas r.replica) s.trades req id now saves
    (answer, { replicas := Function.update s.replicas r.replica replica, trades })
  | .portfolio =>
    ((s.replicas r.replica).read fun p => .ofPortfolio (GetPortfolio.execute p (r.order p)), s)
  | .pnl req =>
    ((s.replicas r.replica).read fun p => .ofPnl (GetPnL.execute p (r.order p) req), s)

/-- The answers to a sequence of requests. -/
def Cluster.serve (num : D → Option D) : Cluster D N → List (Routed D N) → List (Answer D)
  | _, [] => []
  | s, r :: rs => (s.handle num r).1 :: (s.handle num r).2.serve num rs

/-- A request to the cluster and to a single instance; each may iterate in an order of its own. -/
structure Sent (D : Type) (N : ℕ) where
  request : ClientRequest D
  replica : Fin N
  order : (p : Portfolio D) → p.IterOrder
  aloneOrder : (p : Portfolio D) → p.IterOrder

def Sent.routed (r : Sent D N) : Routed D N := ⟨r.request, r.replica, r.order⟩

def Sent.alone (r : Sent D N) : Routed D 1 := ⟨r.request, 0, r.aloneOrder⟩

/-! ### Where a request has to go -/

/-- A valid post on the asset. -/
def ClientRequest.Trades (asset : String) : ClientRequest D → Prop
  | .post req _ _ _ => req.Valid ∧ req.asset = asset
  | _ => False

/-- The answer to `r` depends on the post `d`: a valid sell depends on the valid posts of its asset, a
report on all valid posts. -/
def ClientRequest.Feeds (d r : ClientRequest D) : Prop :=
  match r with
  | .post req _ _ _ => req.Valid ∧ req.side = .sell ∧ d.Trades req.asset
  | .portfolio => ∃ asset, d.Trades asset
  | .pnl _ => ∃ asset, d.Trades asset

/-- A request goes to the instance that got the earlier posts it depends on. -/
def Sticky (sent : List (Sent D N)) : Prop :=
  sent.Pairwise fun d r => d.request.Feeds r.request → d.replica = r.replica

/-- The trade a request asks for. -/
def ClientRequest.posted : ClientRequest D → Option (TradeRequest D)
  | .post req _ _ _ => some req
  | _ => none

/-- The trades that are asked for. -/
def postedBy (sent : List (Sent D N)) : List (TradeRequest D) :=
  sent.filterMap fun r => r.request.posted

/-- The answer to a post that has been through the lock. -/
def Answer.ofLocked (num : D → Option D) (saves : Bool) (trade : Trade D) (notionalValue : D) :
    Except (AppError D) D → Answer D
  | .error _ => .rejected
  | .ok realizedPnl =>
    if (savedRow num saves trade).isSome then
      .created (CreateTrade.respond trade notionalValue realizedPnl)
    else .rejected

section Execute

variable {num : D → Option D} {s : Replica D} {trades : List (TradeRow D)} {req : TradeRequest D}
  {id : Uuid} {now : Timestamp} {saves : Bool}

theorem execute_invalid (h : ¬ req.Valid) :
    CreateTrade.execute num s trades req id now saves = (.rejected, s, trades) := by
  obtain ⟨e, he⟩ := prepare_invalid h id now
  unfold CreateTrade.execute
  simp only [he]

theorem execute_locked {trade : Trade D} {notionalValue : D} {result : Except (AppError D) D}
    {p : Portfolio D} (num : D → Option D) (trades : List (TradeRow D)) (saves : Bool)
    (hs : s.poisoned = false)
    (hprep : CreateTrade.prepare req id now = .ok (.ok (trade, notionalValue)))
    (hlocked : CreateTrade.applyLocked s.portfolio trade = .ok (result, p)) :
    ∃ trades', CreateTrade.execute num s trades req id now saves =
      (.ofLocked num saves trade notionalValue result, ⟨p, false⟩, trades') := by
  unfold CreateTrade.execute
  simp only [hprep, hs, hlocked, Bool.false_eq_true, if_false]
  cases result with
  | error e => exact ⟨_, rfl⟩
  | ok realizedPnl =>
    unfold Answer.ofLocked
    cases savedRow num saves trade with
    | none => exact ⟨_, rfl⟩
    | some row => exact ⟨_, rfl⟩

end Execute

end Services

/-! ### Portfolios with the same books -/

section SameBooks

variable {p q : Portfolio ℚ} {books : Books}

/-- A sum over what is stored, which an empty book adds nothing to. -/
theorem Portfolio.Refines.sum_keys (hp : p.Refines books) (hq : q.Refines books) {f : String → ℚ}
    (hf : ∀ a, books a = Book.empty → f a = 0) :
    ∑ a ∈ p.positions.keys, f a = ∑ a ∈ q.positions.keys, f a := by
  have habsent : ∀ {r : Portfolio ℚ}, r.Refines books → ∀ a, a ∉ r.positions.keys → f a = 0 := by
    intro r hr a ha
    refine hf a (hr.absent a (Finmap.lookup_eq_none.2 ?_))
    rwa [Finmap.mem_keys] at ha
  rw [Finset.sum_subset Finset.subset_union_left fun a _ ha => habsent hp a ha,
    Finset.sum_subset Finset.subset_union_right fun a _ ha => habsent hq a ha]

theorem Portfolio.Refines.realized_eq (hp : p.Refines books) (hq : q.Refines books) :
    p.totalRealizedPnl = q.totalRealizedPnl := by
  rw [hp.realized, hq.realized]
  exact hp.sum_keys hq fun a ha => by rw [ha, Book.realized_empty]

/-- The line of an asset on the portfolio report. -/
def Books.line (books : Books) (asset : String) : PositionResponse ℚ where
  asset := asset
  quantity := (books asset).held
  averageCost :=
    if (books asset).held = 0 then none
    else some (notional (books asset).openLots / (books asset).held)

/-- The report has a line for each asset that is held, and no others. -/
theorem Portfolio.Refines.mem_lines_iff (h : p.Refines books) {order : p.IterOrder}
    {lines : List (PositionResponse ℚ)} (hlines : lines.Perm (order.opened.map Position.line))
    {line : PositionResponse ℚ} : line ∈ lines ↔
      0 < (books line.asset).held ∧ line = books.line line.asset := by
  have hline : ∀ {a : String} {pos : Position ℚ}, p.positions.lookup a = some pos →
      pos.line = books.line a := by
    intro a pos hl
    obtain ⟨hasset, hpos⟩ := h.position a pos hl
    rw [Position.line, Books.line, hasset, hpos.total, hpos.openCost]
  rw [h.mem_lines hlines]
  constructor
  · rintro ⟨pos, hl, hopen, rfl⟩
    rw [(h.position _ _ hl).2.total] at hopen
    exact ⟨hopen, hline hl⟩
  · rintro ⟨hheld, hmem⟩
    cases hl : p.positions.lookup line.asset with
    | none =>
      rw [h.absent _ hl, Book.held_empty] at hheld
      exact absurd hheld (lt_irrefl 0)
    | some pos =>
      obtain ⟨hasset, hpos⟩ := h.position _ _ hl
      exact ⟨pos, by rw [hasset, hl], by rwa [hpos.total], (hline hl).trans hmem.symm⟩

/-- They have the same report. -/
theorem getPortfolio_same (hp : p.Refines books) (hq : q.Refines books) (order : p.IterOrder)
    (order' : q.IterOrder) : GetPortfolio.execute p order = GetPortfolio.execute q order' := by
  obtain ⟨lines, hexec, hlines, hsorted⟩ := getPortfolio_exact hp order
  obtain ⟨lines', hexec', hlines', hsorted'⟩ := getPortfolio_exact hq order'
  have hnodup : ∀ {l : List (PositionResponse ℚ)},
      (l.Pairwise fun x y => x.asset < y.asset) → l.Nodup := by
    intro l hl
    refine hl.imp fun {x y} hlt heq => ?_
    rw [heq] at hlt
    exact String.lt_irrefl _ hlt
  have hperm : lines.Perm lines' := by
    rw [List.perm_ext_iff_of_nodup (hnodup hsorted) (hnodup hsorted')]
    intro line
    rw [hp.mem_lines_iff hlines, hq.mem_lines_iff hlines']
  have hsame : lines = lines' := by
    refine hperm.eq_of_pairwise (fun x y _ _ hxy hyx => ?_) hsorted hsorted'
    exact absurd (String.lt_trans hxy hyx) (String.lt_irrefl _)
  rw [hexec, hexec', hsame, hp.realized_eq hq]

/-- They have the same totals, or an asset without a price. -/
theorem getPnl_same (hp : p.Refines books) (hq : q.Refines books) (order : p.IterOrder)
    (order' : q.IterOrder) (req : PnLRequest ℚ) :
    GetPnL.execute p order req = GetPnL.execute q order' req ∨
      ∃ e e', GetPnL.execute p order req = .ok (.error e) ∧
        GetPnL.execute q order' req = .ok (.error e') := by
  by_cases hpriced : ∀ a, 0 < (books a).held → (req.prices.lookup a).isSome
  · left
    rw [getPnl_priced hp order hpriced, getPnl_priced hq order' hpriced, hp.realized_eq hq,
      hp.sum_terms, hq.sum_terms, hp.openCost, hq.openCost,
      hp.sum_keys hq (f := fun a => (books a).held * (req.prices.lookup a).getD 0) fun a ha => by
        rw [ha, Book.held_empty, zero_mul],
      hp.sum_keys hq (f := fun a => notional (books a).openLots) fun a ha => by
        rw [ha, Book.openLots_empty, notional_nil]]
  · obtain ⟨e, he⟩ := getPnl_unpriced hp order hpriced
    obtain ⟨e', he'⟩ := getPnl_unpriced hq order' hpriced
    exact .inr ⟨e, e', he, he'⟩

/-- What `execute` makes of the outcome of a trade. -/
def lockedOutcome (b : Book ℚ) (t : ValidTrade ℚ) : Except (AppError ℚ) ℚ :=
  match outcome b t with
  | .error e => .error (.context "failed to apply trade to portfolio" e)
  | .ok events => .ok (events.map RealizedPnL.realizedPnl).sum

theorem applyLocked_outcome (h : p.Refines books) (t : ValidTrade ℚ) :
    ∃ p', CreateTrade.applyLocked p t.trade = .ok (lockedOutcome (books t.asset) t, p') := by
  obtain ⟨p', happ, -, -⟩ := applyTrade_refines h t
  refine ⟨p', ?_⟩
  unfold lockedOutcome
  cases hout : outcome (books t.asset) t with
  | error e => rw [hout] at happ; exact applyLocked_error happ
  | ok events => rw [hout] at happ; exact applyLocked_ok happ

/-- A buy is accepted whatever is held. -/
theorem lockedOutcome_buy {b : Book ℚ} {t : ValidTrade ℚ} (hs : t.side = .buy) :
    lockedOutcome b t = .ok 0 := by
  have hb : t.order.isBuy = true := ValidTrade.order_isBuy_of_buy hs
  rw [lockedOutcome, outcome, if_pos (.inl hb), Book.fillsOf, if_pos hb]
  rfl

end SameBooks

/-! ### Decimals and their values -/

theorem Dec.val_injective : Function.Injective Dec.val := fun _ _ h => Dec.ext h

theorem exceptMap_injective {ε α β : Type} {f : α → β} (hf : Function.Injective f) :
    Function.Injective (Except.map f : Except ε α → Except ε β) := by
  intro x y h
  cases x <;> cases y <;> simp_all [Except.map, hf.eq_iff]

section Injective

variable {E : Type} {f : D → E} (hf : Function.Injective f)

include hf

theorem TradeError.map_injective : Function.Injective (TradeError.map f) := by
  intro e e' h
  cases e <;> cases e' <;> simp_all [TradeError.map, hf.eq_iff]

theorem AppError.map_injective : Function.Injective (AppError.map f) := by
  intro e e' h
  cases e <;> cases e' <;> simp_all [AppError.map, (TradeError.map_injective hf).eq_iff]

theorem mapAnswer_injective {A B : Type} {g : A → B} (hg : Function.Injective g) :
    Function.Injective (mapAnswer f g) := by
  intro x y h
  cases x <;> cases y <;> simp_all [mapAnswer, (AppError.map_injective hf).eq_iff, hg.eq_iff]

theorem PnLResponse.map_injective : Function.Injective (PnLResponse.map f) := by
  rintro ⟨⟩ ⟨⟩ h
  simpa [PnLResponse.map, hf.eq_iff] using h

theorem PositionResponse.map_injective : Function.Injective (PositionResponse.map f) := by
  rintro ⟨⟩ ⟨⟩ h
  simpa [PositionResponse.map, hf.eq_iff, (Option.map_injective hf).eq_iff] using h

theorem PortfolioResponse.map_injective : Function.Injective (PortfolioResponse.map f) := by
  rintro ⟨⟩ ⟨⟩ h
  have hlines : Function.Injective (List.map (PositionResponse.map f)) :=
    List.map_injective_iff.2 (PositionResponse.map_injective hf)
  simpa [PortfolioResponse.map, hf.eq_iff, hlines.eq_iff] using h

end Injective

/-! ### Instances within the room -/

/-- The instance follows the books, of which the room covers what has been used so far. -/
structure Replica.Follows (room : Room) (used : ℚ × ℚ) (s : Replica Dec) (books : Books) : Prop where
  unpoisoned : s.poisoned = false
  refines : (s.portfolio.map Dec.val).Refines books
  covered : books.Covered room used.1 used.2

section Within

variable {room : Room} {total used : ℚ × ℚ} {reqs : List (TradeRequest Dec)} {s u : Replica Dec}
  {books books' : Books}

theorem Replica.follows_init : Replica.init.Follows room (0, 0) fun _ => Book.empty :=
  ⟨rfl, Portfolio.refines_map_new, Books.covered_empty room⟩

/-- What others use takes nothing from the instance. -/
theorem Replica.Follows.mono (h : s.Follows room used books) {quantity value : ℚ}
    (hquantity : 0 ≤ quantity) (hvalue : 0 ≤ value) :
    s.Follows room (used.1 + quantity, used.2 + value) books where
  unpoisoned := h.unpoisoned
  refines := h.refines
  covered :=
    { h.covered with
      bought := fun S => (h.covered.bought S).trans (le_add_of_nonneg_right hquantity)
      turnover := fun S => (h.covered.turnover S).trans (le_add_of_nonneg_right hvalue) }

/-- A valid post: its answer has the values that the book of its asset prescribes. -/
theorem Replica.Follows.execute (h : s.Follows room used books) {req : TradeRequest Dec}
    (hroom : Remaining room total used (req :: reqs)) (hvalid : req.Valid) (num : Dec → Option Dec)
    (trades : List (TradeRow Dec)) (id : Uuid) (now : Timestamp) (saves : Bool) :
    ∃ notionalValue result replica trades',
      CreateTrade.prepare req id now = .ok (.ok (req.toTrade id now, notionalValue)) ∧
      CreateTrade.execute num s trades req id now saves =
        (.ofLocked num saves (req.toTrade id now) notionalValue result, replica, trades') ∧
      mapAnswer Dec.val Dec.val result =
        lockedOutcome (books req.asset) (hroom.onPlaces hvalid id now).exact ∧
      replica.Follows room (used.1 + req.quantity.val, used.2 + req.quantity.val * req.price.val)
        (books.step (hroom.onPlaces hvalid id now).exact) := by
  obtain ⟨v, result, p', hprep, -, hlocked, hexact, href, hcov⟩ :=
    locked_covered h.refines h.covered hroom hvalid id now
  obtain ⟨trades', hexec⟩ := execute_locked num trades saves h.unpoisoned hprep hlocked
  obtain ⟨p'', houtcome⟩ := applyLocked_outcome h.refines (hroom.onPlaces hvalid id now).exact
  refine ⟨v, result, _, trades', hprep, hexec, ?_, rfl, href, hcov⟩
  exact (Prod.mk.inj (Except.ok.inj (hexact.symm.trans houtcome))).1

/-- `GET /portfolio` from two instances that follow the same books. -/
theorem Replica.Follows.portfolio_same (hs : s.Follows room used books) (hu : u.Follows room used books)
    (hroom : Remaining room total used reqs) (order order' : (p : Portfolio Dec) → p.IterOrder) :
    (s.read fun p => .ofPortfolio (GetPortfolio.execute p (order p))) =
      u.read fun p => .ofPortfolio (GetPortfolio.execute p (order' p)) := by
  obtain ⟨hQ, hV⟩ := hroom.used_le
  have hmap := getPortfolio_map hs.refines hs.covered (hQ.trans hroom.quantity_le)
    (hV.trans hroom.value_le) (order s.portfolio)
  have hmap' := getPortfolio_map hu.refines hu.covered (hQ.trans hroom.quantity_le)
    (hV.trans hroom.value_le) (order' u.portfolio)
  rw [getPortfolio_same hs.refines hu.refines _ (order' u.portfolio).values, ← hmap'] at hmap
  have hsame := exceptMap_injective (PortfolioResponse.map_injective Dec.val_injective) hmap
  unfold Replica.read
  rw [hs.unpoisoned, hu.unpoisoned]
  simp only [hsame, Bool.false_eq_true, if_false]

/-- `GET /pnl` from two instances that follow the same books. -/
theorem Replica.Follows.pnl_same (hs : s.Follows room used books) (hu : u.Follows room used books)
    (hroom : Remaining room total used reqs) {req : PnLRequest Dec} (hreq : Quoted room total req)
    (order order' : (p : Portfolio Dec) → p.IterOrder) :
    (s.read fun p => .ofPnl (GetPnL.execute p (order p) req)) =
      u.read fun p => .ofPnl (GetPnL.execute p (order' p) req) := by
  obtain ⟨P, hprices, hle⟩ := hreq
  have hQ := hroom.used_le.1.trans hroom.quantity_le
  have hV := hroom.value_at hprices.nonneg hle
  have hmap := getPnl_map hs.refines hs.covered hQ hV hs.covered.bought_nonneg
    (order s.portfolio) hprices
  have hmap' := getPnl_map hu.refines hu.covered hQ hV hu.covered.bought_nonneg
    (order' u.portfolio) hprices
  unfold Replica.read
  rw [hs.unpoisoned, hu.unpoisoned]
  obtain hsame | ⟨e, e', he, he'⟩ := getPnl_same hs.refines hu.refines (order s.portfolio).values
    (order' u.portfolio).values (req.map Dec.val)
  · rw [hmap, hmap'] at hsame
    have hinj := exceptMap_injective (mapAnswer_injective Dec.val_injective
      (PnLResponse.map_injective Dec.val_injective)) hsame
    simp only [hinj, Bool.false_eq_true, if_false]
  · -- Both lack a price, if perhaps not of the same asset.
    rw [hmap] at he
    rw [hmap'] at he'
    have hrejected : ∀ {x : Except Panic (Except (AppError Dec) (PnLResponse Dec))} {e : AppError ℚ},
        x.map (mapAnswer Dec.val (PnLResponse.map Dec.val)) = .ok (.error e) →
          Answer.ofPnl x = .rejected := by
      intro x e hx
      cases x with
      | error _ => cases hx
      | ok r =>
        cases r with
        | error _ => rfl
        | ok _ => cases hx
    simp only [hrejected he, hrejected he', Bool.false_eq_true, if_false]

end Within

/-! ### Runs -/

section Runs

variable {room : Room} {total : ℚ × ℚ} {N : ℕ} {num : Dec → Option Dec} {s : Cluster Dec N}
  {u : Cluster Dec 1} {earlier rest : List (Sent Dec N)}

/-- Every instance follows books of its own, the single one follows all trades, and an instance that got
all trades of an asset has the same book of it. -/
def Mirrors (room : Room) (total : ℚ × ℚ) (earlier : List (Sent Dec N))
    (reqs : List (TradeRequest Dec)) (s : Cluster Dec N) (u : Cluster Dec 1) : Prop :=
  ∃ (used : ℚ × ℚ) (b : Fin N → Books) (c : Books), Remaining room total used reqs ∧
    (∀ i, (s.replicas i).Follows room used (b i)) ∧ (u.replicas 0).Follows room used c ∧
    ∀ i a, (∀ d ∈ earlier, d.request.Trades a → d.replica = i) → b i a = c a

theorem mirrors_init {sent : List (Sent Dec N)} (h : Admitted room (postedBy sent)) :
    Mirrors room (requested (postedBy sent)) [] (postedBy sent) (Cluster.init Dec N)
      (Cluster.init Dec 1) :=
  ⟨(0, 0), _, _, h.remaining, fun _ => Replica.follows_init, Replica.follows_init, fun _ _ _ => rfl⟩

/-- A request that becomes no trade. -/
theorem Mirrors.skip {reqs : List (TradeRequest Dec)} (h : Mirrors room total earlier reqs s u)
    (r : Sent Dec N) : Mirrors room total (earlier ++ [r]) reqs s u := by
  obtain ⟨used, b, c, hroom, hs, hu, hsame⟩ := h
  exact ⟨used, b, c, hroom, hs, hu,
    fun i a ha => hsame i a fun d hd => ha d (List.mem_append_left _ hd)⟩

/-- An instance that got all earlier valid posts follows the books of the single one. -/
theorem follows_all {b : Fin N → Books} {c : Books} {i : Fin N}
    (hsame : ∀ i a, (∀ d ∈ earlier, d.request.Trades a → d.replica = i) → b i a = c a)
    (h : ∀ d ∈ earlier, (∃ a, d.request.Trades a) → d.replica = i) : b i = c :=
  funext fun a => hsame i a fun d hd ha => h d hd ⟨a, ha⟩

/-- **A post** that sticks to its instance is answered alike, and the instances go on alike. -/
theorem Mirrors.post {req : TradeRequest Dec} {id : Uuid} {now : Timestamp} {saves : Bool} {i : Fin N}
    {order aloneOrder : (p : Portfolio Dec) → p.IterOrder} {reqs : List (TradeRequest Dec)}
    (h : Mirrors room total earlier (req :: reqs) s u)
    (hsticky : req.Valid → req.side = .sell →
      ∀ d ∈ earlier, d.request.Trades req.asset → d.replica = i) :
    (s.handle num ⟨.post req id now saves, i, order⟩).1 =
        (u.handle num ⟨.post req id now saves, 0, aloneOrder⟩).1 ∧
      Mirrors room total (earlier ++ [⟨.post req id now saves, i, order, aloneOrder⟩]) reqs
        (s.handle num ⟨.post req id now saves, i, order⟩).2
        (u.handle num ⟨.post req id now saves, 0, aloneOrder⟩).2 := by
  unfold Cluster.handle
  by_cases hvalid : req.Valid
  · obtain ⟨used, b, c, hroom, hs, hu, hsame⟩ := h
    have ht := hroom.onPlaces hvalid id now
    obtain ⟨v, result, replica, trades, hprep, hexec, hresult, hfollows⟩ :=
      (hs i).execute hroom hvalid num s.trades id now saves
    obtain ⟨v', result', replica', trades', hprep', hexec', hresult', hfollows'⟩ :=
      hu.execute hroom hvalid num u.trades id now saves
    have hv : v = v' := (Prod.mk.inj (Except.ok.inj (Except.ok.inj (hprep.symm.trans hprep')))).2
    have houtcome : lockedOutcome (b i req.asset) ht.exact = lockedOutcome (c req.asset) ht.exact := by
      cases hside : req.side with
      | buy =>
        rw [lockedOutcome_buy (t := ht.exact) hside, lockedOutcome_buy (t := ht.exact) hside]
      | sell => rw [hsame i req.asset (hsticky hvalid hside)]
    have hsame_result : result = result' := by
      refine mapAnswer_injective Dec.val_injective Dec.val_injective ?_
      rw [hresult, hresult']
      exact houtcome
    have hquantity : 0 ≤ req.quantity.val := le_of_lt hvalid.2.1
    have hvalue : 0 ≤ req.quantity.val * req.price.val := (mul_pos hvalid.2.1 hvalid.2.2).le
    simp only [hexec, hexec', hv, hsame_result, true_and]
    refine ⟨_, Function.update b i ((b i).step ht.exact), c.step ht.exact, hroom.next hvalid,
      fun j => ?_, ?_, fun j a ha => ?_⟩
    · dsimp only
      by_cases hj : j = i
      · subst hj
        rw [Function.update_self, Function.update_self]
        exact hfollows
      · rw [Function.update_of_ne hj, Function.update_of_ne hj]
        exact (hs j).mono hquantity hvalue
    · dsimp only
      rw [Function.update_self]
      exact hfollows'
    · have hearlier : ∀ d ∈ earlier, d.request.Trades a → d.replica = j :=
        fun d hd => ha d (List.mem_append_left _ hd)
      by_cases hasset : ht.exact.asset = a
      · -- The new trade went to this instance too.
        have hij : i = j := ha _ (List.mem_append_right _ (List.mem_singleton_self _)) ⟨hvalid, hasset⟩
        subst hij
        rw [Function.update_self, Books.step_same hasset, Books.step_same hasset, hsame i a hearlier]
      · rw [Books.step_other hasset]
        by_cases hj : j = i
        · subst hj
          rw [Function.update_self, Books.step_other hasset]
          exact hsame j a hearlier
        · rw [Function.update_of_ne hj]
          exact hsame j a hearlier
  · simp only [execute_invalid hvalid, Function.update_eq_self, true_and]
    obtain ⟨used, b, c, hroom, hs, hu, hsame⟩ := h
    exact Mirrors.skip ⟨used, b, c, hroom.tail, hs, hu, hsame⟩ _

/-- **One request** that sticks to its instance is answered as by the single one. -/
theorem Mirrors.handle (num : Dec → Option Dec) {r : Sent Dec N}
    (h : Mirrors room total earlier (postedBy (r :: rest)) s u)
    (hsticky : ∀ d ∈ earlier, d.request.Feeds r.request → d.replica = r.replica)
    (hquoted : ∀ req, r.request = .pnl req → Quoted room total req) :
    (s.handle num r.routed).1 = (u.handle num r.alone).1 ∧
      Mirrors room total (earlier ++ [r]) (postedBy rest) (s.handle num r.routed).2
        (u.handle num r.alone).2 := by
  obtain ⟨request, i, order, aloneOrder⟩ := r
  cases request with
  | post req id now saves =>
    exact Mirrors.post h fun hvalid hside d hd ha => hsticky d hd ⟨hvalid, hside, ha⟩
  | portfolio =>
    refine ⟨?_, h.skip _⟩
    obtain ⟨used, b, c, hroom, hs, hu, hsame⟩ := h
    have hbooks : b i = c := follows_all hsame hsticky
    exact (hbooks ▸ hs i).portfolio_same hu hroom order aloneOrder
  | pnl req =>
    refine ⟨?_, h.skip _⟩
    obtain ⟨used, b, c, hroom, hs, hu, hsame⟩ := h
    have hbooks : b i = c := follows_all hsame hsticky
    exact (hbooks ▸ hs i).pnl_same hu hroom (hquoted req rfl) order aloneOrder

theorem Mirrors.serve {sent : List (Sent Dec N)} (h : Mirrors room total earlier (postedBy sent) s u)
    (hearlier : ∀ d ∈ earlier, ∀ r ∈ sent, d.request.Feeds r.request → d.replica = r.replica)
    (hsticky : Sticky sent) (hquoted : ∀ r ∈ sent, ∀ req, r.request = .pnl req → Quoted room total req) :
    s.serve num (sent.map Sent.routed) = u.serve num (sent.map Sent.alone) := by
  induction sent generalizing earlier s u with
  | nil => rfl
  | cons r sent ih =>
    obtain ⟨hhead, htail⟩ := List.pairwise_cons.1 hsticky
    obtain ⟨hanswer, hnext⟩ := h.handle num (fun d hd => hearlier d hd r List.mem_cons_self)
      (hquoted r List.mem_cons_self)
    rw [List.map_cons, List.map_cons, Cluster.serve, Cluster.serve, hanswer]
    refine congrArg _ (ih hnext (fun d hd q hq => ?_) htail
      fun q hq => hquoted q (List.mem_cons_of_mem r hq))
    rcases List.mem_append.1 hd with hd | hd
    · exact hearlier d hd q (List.mem_cons_of_mem r hq)
    · rw [List.mem_singleton.1 hd]
      exact hhead q hq

end Runs

/-- **When replicas behave as one ledger.** For every number of instances, every behaviour of the inserts
and all iteration orders: if the trades that are asked for and the prices fit into a room of decimal
places and amounts, and every request is routed to the instance that got the earlier posts it depends on,
then all answers are those of a single instance. -/
theorem replicas_agree (room : Room) (num : Dec → Option Dec) (N : ℕ) (sent : List (Sent Dec N))
    (hroom : Admitted room (postedBy sent))
    (hquoted : ∀ r ∈ sent, ∀ req, r.request = .pnl req → Quoted room (requested (postedBy sent)) req)
    (hsticky : Sticky sent) :
    (Cluster.init Dec N).serve num (sent.map Sent.routed) =
      (Cluster.init Dec 1).serve num (sent.map Sent.alone) :=
  (mirrors_init hroom).serve (fun d hd => by cases hd) hsticky hquoted

/-! ### Two replicas -/

/-- A request to trade tenths of an asset, with its own id. -/
def sampleTrade (asset : String) (side : TradeSide) (quantity price : UInt16) (id : Uuid) :
    ClientRequest Dec :=
  .post { (samplePost side quantity price).req with asset := asset } id 0 true

/-- The trades of each asset at a replica of their own, and a report while only the first has any. -/
noncomputable def splitByAsset : List (Sent Dec 2) :=
  [⟨sampleTrade "BTC" .buy 5 1000 0, 0, Portfolio.someOrder, Portfolio.someOrder⟩,
    ⟨.pnl (sampleQuote 1505), 0, Portfolio.someOrder, Portfolio.someOrder⟩,
    ⟨sampleTrade "ETH" .buy 13 1207 1, 1, Portfolio.someOrder, Portfolio.someOrder⟩,
    ⟨sampleTrade "BTC" .sell 3 1100 2, 0, Portfolio.someOrder, Portfolio.someOrder⟩,
    ⟨sampleTrade "ETH" .sell 14 1311 3, 1, Portfolio.someOrder, Portfolio.someOrder⟩]

theorem splitByAsset_admitted : Admitted eightPlaces (postedBy splitByAsset) where
  places req hreq _ := by
    simp only [postedBy, splitByAsset, sampleTrade, List.filterMap_cons, List.filterMap_nil,
      ClientRequest.posted, List.mem_cons, List.not_mem_nil, or_false] at hreq
    rcases hreq with rfl | rfl | rfl | rfl <;>
      exact ⟨tenths_mem_places (small_lt_mantissaBound _),
        tenths_mem_places (small_lt_mantissaBound _)⟩
  quantity := by decide +kernel
  value := by decide +kernel

theorem splitByAsset_sticky : Sticky splitByAsset := by
  simp [Sticky, splitByAsset, sampleTrade, samplePost, ClientRequest.Feeds, ClientRequest.Trades]

theorem replicas_agree_splitByAsset :
    (Cluster.init Dec 2).serve Dec.column (splitByAsset.map Sent.routed) =
      (Cluster.init Dec 1).serve Dec.column (splitByAsset.map Sent.alone) := by
  refine replicas_agree eightPlaces Dec.column 2 splitByAsset splitByAsset_admitted
    (fun r hr req hreq => ?_) splitByAsset_sticky
  have hrequested : (requested (postedBy splitByAsset)).1 ≤ 4 ∧
      (requested (postedBy splitByAsset)).2 ≤ 1000 := by decide +kernel
  simp only [splitByAsset, List.mem_cons, List.not_mem_nil, or_false] at hr
  rcases hr with rfl | rfl | rfl | rfl | rfl <;> cases hreq
  refine ⟨6600, sampleQuote_priced 1505, ?_⟩
  show _ ≤ (10 : ℚ) ^ 12
  linarith [hrequested.1, hrequested.2]

/-- A buy at the first replica, then a sell of the same unit at the second. -/
noncomputable def buyHereSellThere : List (Sent Dec 2) :=
  [⟨sampleTrade "BTC" .buy 10 1000 0, 0, Portfolio.someOrder, Portfolio.someOrder⟩,
    ⟨sampleTrade "BTC" .sell 10 1100 1, 1, Portfolio.someOrder, Portfolio.someOrder⟩]

/-- The realized PnL of an answer that has one. -/
def Answer.realizedPnl : Answer Dec → Option ℚ
  | .created resp => some resp.realizedPnl.val
  | _ => none

/-- The second replica rejects the sell, where a single instance accepts it and realizes 10. -/
theorem sell_at_the_other_replica : ¬ ∀ (N : ℕ) (sent : List (Sent Dec N)),
    (Cluster.init Dec N).serve Dec.column (sent.map Sent.routed) =
      (Cluster.init Dec 1).serve Dec.column (sent.map Sent.alone) := by
  intro h
  have hsplit : ((Cluster.init Dec 2).serve Dec.column (buyHereSellThere.map Sent.routed)).map
      Answer.realizedPnl = [some 0, none] := by decide +kernel
  have halone : ((Cluster.init Dec 1).serve Dec.column (buyHereSellThere.map Sent.alone)).map
      Answer.realizedPnl = [some 0, some 10] := by decide +kernel
  rw [h 2 buyHereSellThere, halone] at hsplit
  cases hsplit

end Ledger
end CryptoAccounting

import CryptoAccounting.Ledger.ExactReports
import CryptoAccounting.Ledger.Overflow

/-!
# Requests that cannot panic

`noPanic_iff` decides in which state a request panics. Of the requests alone: as long as the trades they
ask for fit into a room of decimal places and amounts, and so do the prices of every `GET /pnl` with all
that may be held, none of them panics, in any order (`noPanic_of_admitted`). Outside of any room, requests
that pass the checks can panic, and poison the lock.
-/

namespace CryptoAccounting
namespace Ledger

open Transition

variable {room : Room} {total : ℚ × ℚ}

/-! ### Reports within the room -/

/-- The prices have the places of the room, which also has room for the market value of everything that
is bought. -/
def Quoted (room : Room) (total : ℚ × ℚ) (req : PnLRequest Dec) : Prop :=
  ∃ P, Priced room P (fun asset => req.prices.lookup asset) ∧ total.1 * P + total.2 ≤ room.valueMax

section Reports

variable {p : Portfolio Dec} {reqs : List (TradeRequest Dec)}

theorem exists_ok_of_map {ε α β : Type} {f : α → β} {x : Except ε α} {b : β} (h : x.map f = .ok b) :
    ∃ a, x = .ok a := by
  cases x with
  | error e => cases h
  | ok a => exact ⟨a, rfl⟩

/-- What has been bought so far is no negative quantity. -/
theorem Books.Covered.bought_nonneg {books : Books} {used : ℚ × ℚ}
    (h : books.Covered room used.1 used.2) : 0 ≤ used.1 := by
  simpa using h.bought ∅

theorem Portfolio.Within.getPortfolio (h : p.Within room total reqs) (order : p.IterOrder) :
    ∃ resp, GetPortfolio.execute p order = .ok resp := by
  obtain ⟨used, books, href, hcov, hroom⟩ := h
  obtain ⟨hQ, hV⟩ := hroom.used_le
  have hmap := getPortfolio_map href hcov (hQ.trans hroom.quantity_le) (hV.trans hroom.value_le) order
  obtain ⟨lines, hexec, -, -⟩ := getPortfolio_exact href order.values
  rw [hexec] at hmap
  exact exists_ok_of_map hmap

/-- The bound on all that is requested bounds what has been used of it. -/
theorem Remaining.value_at {used : ℚ × ℚ} (h : Remaining room total used reqs) {P : ℚ} (hP : 0 ≤ P)
    (hle : total.1 * P + total.2 ≤ room.valueMax) : used.1 * P + used.2 ≤ room.valueMax := by
  obtain ⟨hQ, hV⟩ := h.used_le
  have hmarket := mul_le_mul_of_nonneg_right hQ hP
  linarith

theorem Portfolio.Within.getPnl (h : p.Within room total reqs) {req : PnLRequest Dec}
    (hreq : Quoted room total req) (order : p.IterOrder) :
    ∃ result, GetPnL.execute p order req = .ok result := by
  obtain ⟨used, books, href, hcov, hroom⟩ := h
  obtain ⟨P, hprices, hle⟩ := hreq
  have hmap := getPnl_map href hcov (hroom.used_le.1.trans hroom.quantity_le)
    (hroom.value_at hprices.nonneg hle) hcov.bought_nonneg order hprices
  by_cases hall : ∀ a, 0 < (books a).held → ((req.map Dec.val).prices.lookup a).isSome
  · rw [getPnl_priced href order.values hall] at hmap
    exact exists_ok_of_map hmap.symm
  · obtain ⟨e, he⟩ := getPnl_unpriced href order.values hall
    rw [he] at hmap
    exact exists_ok_of_map hmap.symm

end Reports

/-! ### Runs -/

/-- The trade a request asks for. -/
def Request.posted : Request → Option (TradeRequest Dec)
  | .post req _ _ => some req
  | _ => none

/-- The trades the requests ask for. -/
def posted (requests : List Request) : List (TradeRequest Dec) := requests.filterMap Request.posted

/-- Nothing has panicked, and the requests still to come fit into the room. -/
structure Shared.Within (room : Room) (total : ℚ × ℚ) (requests : List Request) (s : Shared) : Prop where
  noPanic : NoPanic s
  portfolio : s.portfolio.Within room total (posted requests)
  quoted : ∀ order req, Request.getPnl order req ∈ requests → Quoted room total req

theorem Shared.Within.post {s : Shared} {req : TradeRequest Dec} {id : Uuid} {now : Timestamp}
    {requests : List Request} (h : s.Within room total (.post req id now :: requests)) :
    (s.post req id now).Within room total requests := by
  have hportfolio : s.portfolio.Within room total (req :: posted requests) := h.portfolio
  have hquoted : ∀ order req', Request.getPnl order req' ∈ requests → Quoted room total req' :=
    fun order req' hmem => h.quoted order req' (List.mem_cons_of_mem _ hmem)
  unfold Shared.post
  by_cases hvalid : req.Valid
  · obtain ⟨notionalValue, result, p, hprep, hlocked, hp⟩ := hportfolio.next hvalid id now
    simp only [hprep, h.noPanic.2, hlocked, Bool.false_eq_true, if_false]
    exact ⟨⟨h.noPanic.1, rfl⟩, hp, hquoted⟩
  · obtain ⟨e, he⟩ := prepare_invalid hvalid id now
    simp only [he]
    exact ⟨h.noPanic, hportfolio.tail, hquoted⟩

/-- A read that has an answer changes nothing. -/
theorem read_of_ok {β : Type} {s : Shared} (hs : NoPanic s) {answer : Portfolio Dec → Except Panic β}
    {b : β} (h : answer s.portfolio = .ok b) : s.read answer = s := by
  unfold Shared.read
  rw [hs.2, h]
  rfl

theorem Shared.Within.step {s t : Shared} {a : Request} {requests : List Request}
    (h : s.Within room total (a :: requests)) (hs : s.step a = some t) :
    t.Within room total requests := by
  have hread : s.portfolio.Within room total (posted requests) → s.Within room total requests :=
    fun hp => ⟨h.noPanic, hp, fun order req hmem => h.quoted order req (List.mem_cons_of_mem _ hmem)⟩
  cases a with
  | post req id now =>
    cases hs
    exact h.post
  | getPortfolio order =>
    obtain ⟨resp, hresp⟩ := h.portfolio.getPortfolio (order s.portfolio)
    cases hs
    rw [read_of_ok h.noPanic hresp]
    exact hread h.portfolio
  | getPnl order req =>
    obtain ⟨result, hresult⟩ :=
      h.portfolio.getPnl (h.quoted order req List.mem_cons_self) (order s.portfolio)
    cases hs
    rw [read_of_ok h.noPanic hresult]
    exact hread h.portfolio

/-- **Requests that cannot panic.** If the trades that are asked for fit into a room of decimal places and
amounts, and the prices of every `GET /pnl` with them, then no request panics and the lock is never
poisoned, in every order of the requests, for every iteration order of the map. -/
theorem noPanic_of_admitted (room : Room) (requests : List Request)
    (hroom : Admitted room (posted requests))
    (hquoted : ∀ order req, Request.getPnl order req ∈ requests →
      Quoted room (requested (posted requests)) req) :
    EveryState Shared.step NoPanic Shared.init requests :=
  everyState_of_remaining (fun rs s => s.Within room (requested (posted requests)) rs)
    (fun _ _ _ _ h hs => h.step hs) (fun _ _ h => h.noPanic)
    ⟨⟨rfl, rfl⟩, Portfolio.within_new hroom, hquoted⟩

/-- The samples as requests, with both reports between them. -/
noncomputable def sampleRequests : List Request :=
  [.post (samplePost .buy 5 1000).req 0 0, .getPnl Portfolio.someOrder (sampleQuote 1505),
    .post (samplePost .buy 13 1207).req 1 1, .post (samplePost .sell 9 1311).req 2 2,
    .getPortfolio Portfolio.someOrder, .post (samplePost .sell 10 1).req 3 3,
    .getPnl Portfolio.someOrder (sampleQuote 1)]

theorem noPanic_of_admitted_sample : EveryState Shared.step NoPanic Shared.init sampleRequests := by
  have hposted : posted sampleRequests = samplePosts.map Post.req := rfl
  refine noPanic_of_admitted eightPlaces sampleRequests (hposted ▸ samplePosts_admitted)
    fun order req hmem => ?_
  have hrequested : (requested (samplePosts.map Post.req)).1 = 37 / 10 ∧
      (requested (samplePosts.map Post.req)).2 ≤ 1000 := by decide +kernel
  have hle : (requested (samplePosts.map Post.req)).1 * 6600 +
      (requested (samplePosts.map Post.req)).2 ≤ 10 ^ 12 := by
    rw [hrequested.1]
    linarith [hrequested.2]
  simp only [sampleRequests, List.mem_cons, List.not_mem_nil, or_false, reduceCtorEq, false_or,
    Request.getPnl.injEq] at hmem
  rcases hmem with ⟨-, rfl⟩ | ⟨-, rfl⟩
  · exact ⟨6600, sampleQuote_priced 1505, hle⟩
  · exact ⟨6600, sampleQuote_priced 1, hle⟩

/-! ### Accepted requests that panic -/

/-- The request passes the checks of `execute` and of `Trade::new`. -/
def Passes : Request → Prop
  | .post req _ _ => isBlank req.asset = false ∧ 0 < req.quantity ∧ 0 < req.price
  | _ => True

instance : DecidablePred Passes := fun r =>
  match r with
  | .post _ _ _ => inferInstanceAs (Decidable (_ ∧ _ ∧ _))
  | .getPortfolio _ => isTrue trivial
  | .getPnl _ _ => isTrue trivial

/-- A request to trade BTC at price 1. -/
def sampleOrder (side : TradeSide) (quantity : Dec) : Request :=
  .post ⟨"BTC", quantity, Dec.ofNat 1 (by decide), side, none⟩ 1 0

/-- A buy of `10 ^ 28`, a buy of `0.6`, and a sell of `10 ^ 28 + 1`: the total is rounded up to what
is sold, and the lots run out. -/
def roundedTotal : List Request :=
  [sampleOrder .buy (Dec.ofNat (10 ^ 28) (by decide)), sampleOrder .buy (Dec.tenths 6 (by decide)),
    sampleOrder .sell (Dec.ofNat (10 ^ 28 + 1) (by decide))]

/-- Three requests that pass the checks poison the lock, though no sum of theirs reaches half of what a
decimal can hold. -/
theorem passing_requests_poison :
    (∀ r ∈ roundedTotal, Passes r) ∧ ¬ EveryState Shared.step NoPanic Shared.init roundedTotal := by
  refine ⟨by decide +kernel, fun h => ?_⟩
  obtain ⟨s, hs⟩ : ∃ s, run Shared.step Shared.init roundedTotal = some s := ⟨_, rfl⟩
  have hpoisoned : (run Shared.step Shared.init roundedTotal).map Shared.poisoned = some true := by
    decide +kernel
  rw [hs, Option.map_some, Option.some_inj, (h.last hs).2] at hpoisoned
  cases hpoisoned

/-- Two buys of `7 * 10 ^ 28` poison the lock too: their total does not fit. -/
example :
    (run Shared.step Shared.init
      [sampleOrder .buy (Dec.ofNat (7 * 10 ^ 28) (by decide)),
        sampleOrder .buy (Dec.ofNat (7 * 10 ^ 28) (by decide))]).map Shared.poisoned =
      some true := by
  decide +kernel

end Ledger
end CryptoAccounting

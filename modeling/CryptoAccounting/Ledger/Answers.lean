import CryptoAccounting.Ledger.Linear
import CryptoAccounting.Ledger.Reports

/-!
# What a request is answered

In exact arithmetic no handler panics in any state the service can reach, and what a request is answered
depends on the trades that were applied so far and on nothing else: on the net quantity of its asset if it
is a `POST /trades` (`post_answered`), on the net quantities and the prices it brings if it is a `GET /pnl`
(`reads_answered`).
-/

namespace CryptoAccounting
namespace Ledger

open Segments Transition

variable {num : ℚ → Option ℚ} {display : ℚ → String} {D : Type} {w : Texts D} {val : D → ℚ}

/-! ### Net quantities -/

/-- What a trade adds to the holdings of its asset. -/
def Trade.signedQuantity (t : Trade ℚ) : ℚ :=
  match t.side with
  | .buy => t.quantity
  | .sell => -t.quantity

/-- Bought minus sold. -/
def netQuantity (asset : String) (ts : List (Trade ℚ)) : ℚ :=
  ((ts.filter fun t => t.asset = asset).map Trade.signedQuantity).sum

theorem available_eq_netQuantity (asset : String) (ts : List (ValidTrade ℚ)) :
    available asset ts = netQuantity asset (ts.map ValidTrade.trade) := by
  induction ts with
  | nil => simp [available, netQuantity, tradesOf]
  | cons t ts ih =>
    unfold available at ih ⊢
    rw [buysOf, sellsOf, tradesOf_cons, tradesOf_cons _ _ t ts, weight_append, weight_append,
      List.map_cons]
    have hhead : weight (tradesOf .buy asset [t]) - weight (tradesOf .sell asset [t]) =
        netQuantity asset [t.trade] := by
      by_cases ha : t.trade.asset = asset
      · cases hs : t.trade.side <;> simp [tradesOf, netQuantity, Trade.signedQuantity, ha, hs]
      · simp [tradesOf, netQuantity, ha]
    have htail : netQuantity asset (t.trade :: ts.map ValidTrade.trade) =
        netQuantity asset [t.trade] + netQuantity asset (ts.map ValidTrade.trade) := by
      by_cases ha : t.trade.asset = asset <;> simp [netQuantity, ha]
    rw [htail, ← ih, ← hhead]
    ring

/-- A step of the HTTP layer is one of the instance, or leaves it as it was. -/
theorem Http.ledger_step {h h' : Http ℚ} {a : Http.Action ℚ} (hs : h.step num w val display a = some h') :
    h'.ledger = h.ledger ∨ ∃ b, h.ledger.step num b = some h'.ledger := by
  -- A call under way takes a step and is answered, or not.
  have hcall : ∀ {id : Uuid} {b : Instance.Action ℚ} {k : Call ℚ → Instance ℚ → Option (Http ℚ)},
      (∀ call ledger h', k call ledger = some h' → h'.ledger = ledger) →
      (h.ledger.calls id >>= fun call => h.ledger.step num b >>= k call) = some h' →
      ∃ b, h.ledger.step num b = some h'.ledger := by
    intro id b k hk hs
    obtain ⟨call, -, hs⟩ := Option.bind_eq_some_iff.1 hs
    obtain ⟨ledger, hl, hs⟩ := Option.bind_eq_some_iff.1 hs
    rw [hk call ledger h' hs]
    exact ⟨b, hl⟩
  cases a with
  | post body rejection now =>
    simp only [Http.step] at hs
    split at hs
    · cases hs
      exact .inl rfl
    · obtain ⟨ledger, hl, hs⟩ := Option.bind_eq_some_iff.1 hs
      split at hs <;>
      · cases hs
        exact .inr ⟨_, hl⟩
  | save id error =>
    refine .inr (hcall (fun call ledger h' hk => ?_) hs)
    split_ifs at hk <;>
    · cases hk
      rfl
  | saveFails id error => exact .inr (hcall (by rintro call ledger h' ⟨⟩; rfl) hs)
  | respond id now => exact .inr (hcall (by rintro call ledger h' ⟨⟩; rfl) hs)
  | timeout id => exact .inr (hcall (by rintro call ledger h' ⟨⟩; rfl) hs)
  | disconnect id =>
    obtain ⟨ledger, hl, hs⟩ := Option.bind_eq_some_iff.1 hs
    cases hs
    exact .inr ⟨_, hl⟩
  | portfolio order =>
    simp only [Http.step] at hs
    split_ifs at hs
    split at hs <;> cases hs
    exact .inl rfl
  | pnl order body rejection =>
    simp only [Http.step] at hs
    split at hs
    · cases hs
      exact .inl rfl
    · split_ifs at hs
      split at hs <;> cases hs
      exact .inl rfl
  | trades rows =>
    simp only [Http.step] at hs
    split_ifs at hs
    split at hs <;> cases hs
    exact .inl rfl
  | tradesTimeout =>
    cases hs
    exact .inl rfl

/-- In every state the service can reach the books hold the net quantities of the applied trades. -/
theorem Http.run_books {actions : List (Http.Action ℚ)} {s : Http ℚ}
    (hs : run (Http.step num w val display) Http.init actions = some s) :
    ∃ books, s.ledger.portfolio.Refines books ∧
      ∀ a, (books a).held = netQuantity a s.ledger.applied := by
  have happlied : s.ledger.Applied := by
    refine run_invariant (fun h => h.ledger.Applied) (fun h a h' happ hstep => ?_) Instance.applied_init hs
    rcases Http.ledger_step hstep with hsame | ⟨b, hb⟩
    · rwa [hsame]
    · exact happ.step hb
  obtain ⟨ts, books, hts, href, hholds⟩ := happlied
  refine ⟨books, href, fun a => ?_⟩
  rw [← hts, ← available_eq_netQuantity, available, Book.held, (hholds a).1, (hholds a).2]

/-! ### Creating trades -/

/-- What a request is refused with when `held` units of its asset are held, if it is. -/
def refusalMessage (display : ℚ → String) (held : ℚ) (req : TradeRequest ℚ) : Option String :=
  if isBlank req.asset then some "asset symbol must not be empty"
  else if req.quantity ≤ 0 then some "invalid trade: quantity must be positive"
  else if req.price ≤ 0 then some "invalid trade: price must be positive"
  else if req.side = .sell ∧ held < req.quantity then
    some ("insufficient balance for " ++ req.asset ++ ": required " ++ display req.quantity ++
      ", available " ++ display held)
  else none

theorem accepts_iff (b : Book ℚ) (t : ValidTrade ℚ) :
    b.Accepts t.order ↔ ¬ (t.trade.side = .sell ∧ b.held < t.trade.quantity) := by
  unfold Book.Accepts
  cases hs : t.trade.side with
  | buy => simp [ValidTrade.order_isBuy_of_buy hs]
  | sell =>
    simp only [ValidTrade.order_isBuy_of_sell hs, Bool.false_eq_true, false_or, true_and, not_lt]
    rfl

/-- A refusal is decided by the request and by what is held of its asset. -/
theorem refusal_eq {p : Portfolio ℚ} {books : Books} (href : p.Refines books) (req : TradeRequest ℚ)
    (id : Uuid) (now : Timestamp) :
    (CreateTrade.refusal false p req id now).map (ApiError.ofAppError display) =
      (refusalMessage display (books req.asset).held req).map ApiError.unprocessable := by
  unfold CreateTrade.refusal refusalMessage
  by_cases hblank : isBlank req.asset
  · simp [CreateTrade.prepare, hblank, ApiError.ofAppError]
  by_cases hquantity : req.quantity ≤ 0
  · have hprepare : CreateTrade.prepare req id now = .ok (.error
        (.context "invalid trade parameters" (.invalidTrade "quantity must be positive"))) := by
      rw [CreateTrade.prepare, if_neg hblank, Trade.new, if_pos hquantity]
    rw [hprepare, if_neg hblank, if_pos hquantity]
    exact congrArg (fun m => some (ApiError.unprocessable m))
      (show "invalid trade: " ++ "quantity must be positive" = _ by decide)
  by_cases hprice : req.price ≤ 0
  · have hprepare : CreateTrade.prepare req id now = .ok (.error
        (.context "invalid trade parameters" (.invalidTrade "price must be positive"))) := by
      rw [CreateTrade.prepare, if_neg hblank, Trade.new, if_neg hquantity, if_pos hprice]
    rw [hprepare, if_neg hblank, if_neg hquantity, if_pos hprice]
    exact congrArg (fun m => some (ApiError.unprocessable m))
      (show "invalid trade: " ++ "price must be positive" = _ by decide)
  -- A request that becomes a trade is refused under the lock or not at all.
  have hvalid : req.Valid := ⟨Bool.eq_false_iff.2 hblank, not_le.1 hquantity, not_le.1 hprice⟩
  obtain ⟨p', happ', -, -⟩ := applyTrade_refines href (hvalid.trade id now)
  have happ : p.applyTrade (req.toTrade id now) =
      .ok (outcome (books req.asset) (hvalid.trade id now), p') := happ'
  have hacc : (books req.asset).Accepts (hvalid.trade id now).order ↔
      ¬ (req.side = .sell ∧ (books req.asset).held < req.quantity) := accepts_iff _ _
  simp only [prepare_valid hvalid, Bool.false_eq_true, hblank, hquantity, hprice, if_false]
  by_cases hshort : req.side = .sell ∧ (books req.asset).held < req.quantity
  · rw [outcome, if_neg fun hc => hacc.1 hc hshort] at happ
    rw [applyLocked_error happ, if_pos hshort]
    rfl
  · rw [outcome, if_pos (hacc.2 hshort)] at happ
    rw [applyLocked_ok happ, if_neg hshort]
    rfl

/-- **What a `POST /trades` is answered**, in every state the service can reach, in exact arithmetic. A
body that cannot be read is a `400`. A request is refused with a `422` and its message exactly when its
asset is blank, its quantity or its price is not positive, or it sells more than the net quantity of its
asset, and then nothing is changed. Any other has its trade applied before it waits for its row. -/
theorem post_answered (num : ℚ → Option ℚ) (w : Texts D) (val : D → ℚ) (display : ℚ → String)
    (actions : List (Http.Action ℚ)) (s : Http ℚ)
    (hs : run (Http.step num w val display) Http.init actions = some s)
    (body : Option Json) (rejection : String) (now : Timestamp) :
    ∃ s', Http.step num w val display s (.post body rejection now) = some s' ∧
      match (body >>= readTradeRequest w).map (TradeRequest.map val) with
      | none => s' = s.answer (.malformed ⟨.badRequest, none, some rejection⟩)
      | some req =>
        match refusalMessage display (netQuantity req.asset s.ledger.applied) req with
        | some message =>
          s'.entries = s.entries ++ [⟨s.entries.length, s.ledger.applied.length,
            .refused req s.ledger.nextId now ⟨.unprocessableEntity, none, some message⟩⟩] ∧
          s'.ledger.portfolio = s.ledger.portfolio ∧ s'.ledger.applied = s.ledger.applied ∧
          s'.ledger.trades = s.ledger.trades ∧ s'.ledger.calls = s.ledger.calls ∧
          s'.ledger.spawned = s.ledger.spawned
        | none =>
          s'.entries = s.entries ∧
          s'.ledger.applied = s.ledger.applied ++ [req.toTrade s.ledger.nextId now] ∧
          (s'.ledger.calls s.ledger.nextId).isSome := by
  obtain ⟨books, href, hheld⟩ := Http.run_books hs
  cases hbody : body >>= readTradeRequest w with
  | none =>
    refine ⟨_, ?_, rfl⟩
    simp only [Http.step, hbody]
    rfl
  | some r =>
    have hrefusal : (CreateTrade.refusal false s.ledger.portfolio (r.map val) s.ledger.nextId now).map
        (ApiError.ofAppError display) = (refusalMessage display
          (netQuantity (r.map val).asset s.ledger.applied) (r.map val)).map ApiError.unprocessable := by
      rw [← hheld]
      exact refusal_eq href ..
    have hI := Http.run_inv hs
    obtain ⟨ledger, hl⟩ := s.ledger.exists_start num (r.map val) now
    rw [← hI.unpoisoned] at hrefusal
    simp only [Http.step, hbody, hl, Option.map_some, Option.bind_eq_bind, Option.bind_some]
    rcases start_refusal hI.ledger hI.unpoisoned hl with
      ⟨e, he, hsame⟩ | ⟨hnone, realizedPnl, p, hlocked, happlied, hcalls⟩
    · rw [he] at hrefusal
      cases hmessage :
          refusalMessage display (netQuantity (r.map val).asset s.ledger.applied) (r.map val) with
      | none =>
        rw [hmessage] at hrefusal
        cases hrefusal
      | some message =>
        rw [hmessage] at hrefusal
        have hresponse : ApiError.ofAppError display e = .unprocessable message := Option.some.inj hrefusal
        obtain ⟨hportfolio, happlied, htrades, hcalls, hspawned⟩ :=
          start_refused hI.ledger hI.unpoisoned hl he
        simp only [he]
        refine ⟨_, rfl, ?_, hportfolio, happlied, htrades, hcalls, hspawned⟩
        rw [hresponse]
        simp only [Http.answer, happlied]
        rfl
    · rw [hnone] at hrefusal
      cases hmessage :
          refusalMessage display (netQuantity (r.map val).asset s.ledger.applied) (r.map val) with
      | some message =>
        rw [hmessage] at hrefusal
        cases hrefusal
      | none =>
        simp only [hnone]
        refine ⟨_, rfl, rfl, happlied, ?_⟩
        rw [hcalls]
        simp

/-- Sell two BTC. -/
def sellTwo : Json :=
  .object [("asset", .string "BTC"), ("quantity", .string "2"), ("price", .string "100"),
    ("side", .string "sell")]

theorem post_answered_overlapping : ∃ s s',
    run (Http.step numericColumn fixedPointTexts FixedPoint.value fun _ => "") Http.init overlapping =
      some s ∧
    Http.step numericColumn fixedPointTexts FixedPoint.value (fun _ => "") s
      (.post (some sellTwo) "" 4) = some s' ∧
    s'.ledger.applied = s.ledger.applied ∧ s'.ledger.calls = s.ledger.calls := by
  have hview : (run (Http.step numericColumn fixedPointTexts FixedPoint.value fun _ => "") Http.init
      overlapping).map (fun s => s.ledger.applied) = some [⟨0, "BTC", 1, 100, 0, .buy⟩] := by
    decide +kernel
  obtain ⟨s, hs, happlied⟩ := Option.map_eq_some_iff.1 hview
  obtain ⟨s', hs', hanswer⟩ := post_answered numericColumn fixedPointTexts FixedPoint.value
    (fun _ => "") overlapping s hs (some sellTwo) "" 4
  have hread : ((some sellTwo >>= readTradeRequest fixedPointTexts).map
      (TradeRequest.map FixedPoint.value)) = some ⟨"BTC", 2, 100, .sell, none⟩ := by decide +kernel
  have hmessage : refusalMessage (fun _ => "") (netQuantity "BTC" [⟨0, "BTC", 1, 100, 0, .buy⟩])
      ⟨"BTC", 2, 100, .sell, none⟩ =
        some "insufficient balance for BTC: required , available " := by decide +kernel
  simp only [hread, happlied, hmessage] at hanswer
  obtain ⟨-, -, hsame, -, hcalls, -⟩ := hanswer
  exact ⟨s, s', hs, hs', hsame.trans happlied.symm, hcalls⟩

/-! ### Reading -/

/-- The error of the loop names a position with units and without a price. -/
theorem unrealizedLoop_error {engine : PricingEngine ℚ} {l : List (Σ _ : String, Position ℚ)} {total : ℚ}
    {e : TradeError ℚ} (h : Portfolio.unrealizedLoop engine l total = .ok (.error e)) :
    ∃ entry ∈ l, entry.2.totalQuantity ≠ 0 ∧ engine entry.1 = none ∧
      e = .invalidTrade ("no market price for asset '" ++ entry.1 ++ "'") := by
  induction l generalizing total with
  | nil => cases h
  | cons entry l ih =>
    rw [Portfolio.unrealizedLoop] at h
    split_ifs at h with h0
    · exact (ih h).imp fun _ he => ⟨List.mem_cons_of_mem _ he.1, he.2⟩
    · cases hprice : engine entry.1 with
      | none =>
        simp only [hprice] at h
        cases h
        exact ⟨entry, List.mem_cons_self, h0, hprice, rfl⟩
      | some price =>
        simp only [hprice] at h
        obtain ⟨u, -, h⟩ := Returns.bind_eq_ok h
        obtain ⟨total', -, h⟩ := Returns.bind_eq_ok h
        exact (ih h).imp fun _ he => ⟨List.mem_cons_of_mem _ he.1, he.2⟩

/-- The error of `GetPnL`. -/
theorem getPnl_error {p : Portfolio ℚ} {books : Books} (href : p.Refines books) (order : p.IterOrder)
    {req : PnLRequest ℚ} {e : AppError ℚ} (h : GetPnL.execute p order req = .ok (.error e)) :
    ∃ a, 0 < (books a).held ∧ req.prices.lookup a = none ∧ ApiError.ofAppError display e =
      .unprocessable ("invalid trade: " ++ ("no market price for asset '" ++ a ++ "'")) := by
  unfold GetPnL.execute Portfolio.totalUnrealizedPnl at h
  obtain ⟨result, hloop, h⟩ := Returns.bind_eq_ok h
  cases result with
  | ok total =>
    obtain ⟨_, -, h⟩ := Returns.bind_eq_ok h
    cases h
  | error e' =>
    cases h
    obtain ⟨⟨a, pos⟩, hmem, h0, hprice, rfl⟩ := unrealizedLoop_error hloop
    refine ⟨a, ?_, hprice, rfl⟩
    have htotal := (href.position a pos (order.mem_iff.1 hmem)).2.total
    rw [← htotal]
    rw [htotal] at h0 ⊢
    exact lt_of_le_of_ne (Book.held_nonneg _) (Ne.symm h0)

/-- **What the reads are answered**, in every state the service can reach, in exact arithmetic.
`GET /portfolio` is always a `200` with the assets that have a net quantity. `GET /pnl` is a `200` exactly
when it brings a price for every asset with a net quantity, and otherwise a `422` that names one without.
`GET /trades` is a `200` with all rows of the table, unless the query fails or times out. -/
theorem reads_answered (num : ℚ → Option ℚ) (w : Texts D) (val : D → ℚ) (display : ℚ → String)
    (actions : List (Http.Action ℚ)) (s : Http ℚ)
    (hs : run (Http.step num w val display) Http.init actions = some s)
    (order : (p : Portfolio ℚ) → p.IterOrder) :
    (∃ resp, Http.step num w val display s (.portfolio order) =
        some (s.answer (.portfolio order (.success .ok resp))) ∧
      (∀ a, a ∈ resp.positions.map PositionResponse.asset ↔ 0 < netQuantity a s.ledger.applied) ∧
      ∀ line ∈ resp.positions, line.quantity = netQuantity line.asset s.ledger.applied) ∧
    (∀ body rejection, match body >>= readPnlRequest w with
      | none => Http.step num w val display s (.pnl order body rejection) =
          some (s.answer (.malformed ⟨.badRequest, none, some rejection⟩))
      | some prices => ∃ response, Http.step num w val display s (.pnl order body rejection) =
            some (s.answer (.pnl order ⟨prices.mapValues val⟩ response)) ∧
          ((∀ a, 0 < netQuantity a s.ledger.applied → (prices.lookup a).isSome) ∧
              response.status = .ok ∨
            ∃ a, 0 < netQuantity a s.ledger.applied ∧ prices.lookup a = none ∧
              response = ⟨.unprocessableEntity, none,
                some ("invalid trade: " ++ ("no market price for asset '" ++ a ++ "'"))⟩)) ∧
    ∀ rows, NewestFirst rows s.ledger.trades → ∃ items,
      Http.step num w val display s (.trades (.ok rows)) =
        some (s.answer (.trades (.success .ok items))) ∧
      items.map TradeResponse.id = rows.map TradeRow.id := by
  obtain ⟨books, href, hheld⟩ := Http.run_books hs
  refine ⟨?_, fun body rejection => ?_, fun rows hrows => ?_⟩
  · obtain ⟨lines, hexec, hlines, -⟩ := getPortfolio_exact href (order s.ledger.portfolio)
    refine ⟨⟨lines, s.ledger.portfolio.totalRealizedPnl⟩, ?_, fun a => ?_, fun line hmem => ?_⟩
    · simp only [Http.step, (Http.run_inv hs).unpoisoned, hexec, Bool.false_eq_true, if_false]
    · rw [← hheld]
      exact href.listed_iff hlines
    · obtain ⟨pos, hpos, -, rfl⟩ := (href.mem_lines hlines).1 hmem
      rw [← hheld]
      exact (href.position _ _ hpos).2.total
  · cases hbody : body >>= readPnlRequest w with
    | none => simp only [Http.step, hbody]; rfl
    | some prices =>
      let req : PnLRequest ℚ := ⟨prices.mapValues val⟩
      have hlookup : ∀ a, (req.prices.lookup a).isSome = (prices.lookup a).isSome := by simp [req]
      simp only [Http.step, hbody, (Http.run_inv hs).unpoisoned, Bool.false_eq_true, if_false]
      by_cases hpriced : ∀ a, 0 < (books a).held → (req.prices.lookup a).isSome
      · rw [getPnl_priced href (order s.ledger.portfolio) hpriced]
        refine ⟨_, rfl, .inl ⟨fun a ha => ?_, rfl⟩⟩
        rw [← hlookup]
        exact hpriced a (by rwa [hheld])
      · obtain ⟨e, he⟩ := getPnl_unpriced href (order s.ledger.portfolio) hpriced
        obtain ⟨a, hopen, hnone, herror⟩ := getPnl_error href (order s.ledger.portfolio) he
        rw [he]
        refine ⟨_, rfl, .inr ⟨a, by rwa [← hheld], ?_, ?_⟩⟩
        · simpa [req] using hnone
        · rw [pnlResponse, herror]
          rfl
  · obtain ⟨items, hitems, hsame, -⟩ := listTrades_rows (Http.run_inv hs).ledger hrows
    refine ⟨items, ?_, by simpa [Function.comp_def] using congrArg (List.map Prod.fst) hsame⟩
    have hnewest : ∀ rs ∈ (Except.ok rows : Except String (List (TradeRow ℚ))).toOption,
        NewestFirst rs s.ledger.trades := by
      rintro rs ⟨⟩
      exact hrows
    simp only [Http.step, if_pos hnewest, listTradesHandler, hitems, Returns.ok_bind]
    rfl

theorem reads_answered_overlapping : ∃ s,
    run (Http.step numericColumn fixedPointTexts FixedPoint.value fun _ => "") Http.init overlapping =
      some s ∧
    ∃ order resp, Http.step numericColumn fixedPointTexts FixedPoint.value (fun _ => "") s
      (.portfolio order) = some (s.answer (.portfolio order (.success .ok resp))) := by
  have hview : (run (Http.step numericColumn fixedPointTexts FixedPoint.value fun _ => "") Http.init
      overlapping).isSome := by decide +kernel
  obtain ⟨s, hs⟩ := Option.isSome_iff_exists.1 hview
  obtain ⟨hportfolio, -, -⟩ := reads_answered numericColumn fixedPointTexts FixedPoint.value
    (fun _ => "") overlapping s hs fun p => ⟨p.positions.entries.toList, Multiset.coe_toList _⟩
  obtain ⟨resp, hresp, -⟩ := hportfolio
  exact ⟨s, hs, _, resp, hresp⟩

end Ledger
end CryptoAccounting

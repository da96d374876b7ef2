import CryptoAccounting.Consumer.Storage
import CryptoAccounting.Convergence

/-!
# Delivery order

What the order of the events of one asset can change, when the consumer takes all of them. The state in
the end is that of a book of the buys and sells (`replay_book`), and a book is determined by its list of
buys, the quantity sold and the proceeds: where the sells stand among the buys, how they are ordered and
how they are split makes no difference. Another order of the buys may leave other lots, but the same
quantity and the same profit at every price (`delivery_order`).
-/

namespace CryptoAccounting
namespace DeliveryOrder

open Segments
open Agreement (PortfolioRefines portfolioRefines_new)
open Consumer (AssetPortfolio ValidEvent)
open Convergence (openCost openCost_eq)

/-- The buys or the sells among the events, as (quantity, price). -/
def tradesIn (side : TradeSide) (events : List ValidEvent) : List (ℚ × ℚ) :=
  events.filterMap fun e =>
    if e.event.getSide = some side then some (e.event.quantity, e.event.price) else none

theorem tradesIn_cons (side : TradeSide) (e : ValidEvent) (es : List ValidEvent) :
    tradesIn side (e :: es) = tradesIn side [e] ++ tradesIn side es :=
  List.filterMap_append (l := [e])

/-- **One event.** If it is taken, the portfolio follows a book that has it as its last trade. -/
theorem apply_book {p p' : AssetPortfolio ℚ} {b : Book ℚ} (h : PortfolioRefines p b) (e : ValidEvent)
    {events : List (RealizedPnL ℚ)} (happ : p.apply e.event = .ok (.ok events, p')) :
    ∃ b' : Book ℚ, PortfolioRefines p' b' ∧ p'.asset = p.asset ∧
      b'.buys = b.buys ++ tradesIn .buy [e] ∧ b'.sells = b.sells ++ tradesIn .sell [e] := by
  by_cases hacc : ∃ side, p.Accepts e.event side
  · obtain ⟨side, hacc⟩ := hacc
    rw [Consumer.apply_accepted h.balanced e.quantity_pos hacc] at happ
    cases happ
    cases side with
    | buy =>
      refine ⟨_, h.after_buy e.quantity_pos e.price_pos rfl rfl, rfl, ?_, ?_⟩
      · simp [tradesIn, hacc.1, Book.buy]
      · simp [tradesIn, hacc.1, Book.buy]
    | sell =>
      have hle : e.event.quantity ≤ b.held := h.total ▸ hacc.2 rfl
      refine ⟨_, h.after_sell e.quantity_pos hle rfl rfl, rfl, ?_, ?_⟩
      · simp [tradesIn, hacc.1, Book.sell]
      · simp [tradesIn, hacc.1, Book.sell]
  · obtain ⟨err, he⟩ := Consumer.apply_refused fun side hs => hacc ⟨side, hs⟩
    rw [he] at happ
    cases happ

/-- **A run without an error** ends in the state of a book of its buys and sells. -/
theorem replay_book {p p' : AssetPortfolio ℚ} {b : Book ℚ} (h : PortfolioRefines p b)
    (es : List ValidEvent) (hr : p.replay (es.map ValidEvent.event) = some p') :
    ∃ b' : Book ℚ, PortfolioRefines p' b' ∧ p'.asset = p.asset ∧
      b'.buys = b.buys ++ tradesIn .buy es ∧ b'.sells = b.sells ++ tradesIn .sell es := by
  induction es generalizing p b with
  | nil =>
    cases hr
    exact ⟨b, h, rfl, (List.append_nil _).symm, (List.append_nil _).symm⟩
  | cons e es ih =>
    rw [List.map_cons, AssetPortfolio.replay] at hr
    split at hr
    · next events p₁ happ =>
      obtain ⟨b₁, h₁, hasset₁, hbuys₁, hsells₁⟩ := apply_book h e happ
      obtain ⟨b', h', hasset, hbuys, hsells⟩ := ih h₁ hr
      refine ⟨b', h', hasset.trans hasset₁, ?_, ?_⟩
      · rw [hbuys, hbuys₁, tradesIn_cons .buy e es, List.append_assoc]
      · rw [hsells, hsells₁, tradesIn_cons .sell e es, List.append_assoc]
    · cases hr

theorem replay_new {asset : String} {es : List ValidEvent} {p : AssetPortfolio ℚ}
    (hr : (AssetPortfolio.new asset).replay (es.map ValidEvent.event) = some p) :
    ∃ b : Book ℚ, PortfolioRefines p b ∧ p.asset = asset ∧ b.buys = tradesIn .buy es ∧
      b.sells = tradesIn .sell es :=
  replay_book (portfolioRefines_new asset) es hr

/-- A book determines the portfolio that follows it. -/
theorem portfolio_ext {p q : AssetPortfolio ℚ} {b c : Book ℚ} (hp : PortfolioRefines p b)
    (hq : PortfolioRefines q c) (hasset : p.asset = q.asset) (hlots : b.openLots = c.openLots)
    (hheld : b.held = c.held) (hrealized : b.realized = c.realized) : p = q := by
  have hpairs : p.pairs = q.pairs := by rw [hp.lots, hq.lots, hlots]
  have hl : p.lots = q.lots := eq_of_pairs_eq hpairs
  have ht : p.totalQuantity = q.totalQuantity := by rw [hp.total, hq.total, hheld]
  have hr : p.totalRealizedPnl = q.totalRealizedPnl := by
    rw [hp.realized, hq.realized, hrealized]
  cases p
  cases q
  cases hasset
  cases hl
  cases ht
  cases hr
  rfl

/-- **What delivery order can and cannot change.** Two sequences of events that an empty portfolio takes
without an error end in the same state if they have the same buys in the same order, the same quantity
sold and the same proceeds. If they are permutations of each other, they end with the same quantity, the
same difference of realized PnL and open cost, and so the same profit at every price. -/
theorem delivery_order {asset : String} {es fs : List ValidEvent} {p q : AssetPortfolio ℚ}
    (hp : (AssetPortfolio.new asset).replay (es.map ValidEvent.event) = some p)
    (hq : (AssetPortfolio.new asset).replay (fs.map ValidEvent.event) = some q) :
    (tradesIn .buy es = tradesIn .buy fs →
      weight (tradesIn .sell es) = weight (tradesIn .sell fs) →
      notional (tradesIn .sell es) = notional (tradesIn .sell fs) → p = q) ∧
    (es.Perm fs →
      p.totalQuantity = q.totalQuantity ∧
      p.totalRealizedPnl - openCost p = q.totalRealizedPnl - openCost q ∧
      ∀ price : ℚ, p.totalRealizedPnl + (p.totalQuantity * price - openCost p) =
        q.totalRealizedPnl + (q.totalQuantity * price - openCost q)) := by
  obtain ⟨b, hb, hasset, hbuys, hsells⟩ := replay_new hp
  obtain ⟨c, hc, hasset', hbuys', hsells'⟩ := replay_new hq
  constructor
  · intro hbuy hsold hproceeds
    rw [← hbuys, ← hbuys'] at hbuy
    rw [← hsells, ← hsells'] at hsold hproceeds
    exact portfolio_ext hb hc (hasset.trans hasset'.symm) (Book.openLots_congr hbuy hsold)
      (Book.held_congr hbuy hsold) (Book.realized_congr hbuy hsold hproceeds)
  · intro hperm
    have hbuy : b.buys.Perm c.buys := by
      rw [hbuys, hbuys']
      exact hperm.filterMap _
    have hsell : b.sells.Perm c.sells := by
      rw [hsells, hsells']
      exact hperm.filterMap _
    have htotal : p.totalQuantity = q.totalQuantity := by
      rw [hb.total, hc.total, Book.held_perm hbuy hsell]
    have hprofit : p.totalRealizedPnl - openCost p = q.totalRealizedPnl - openCost q := by
      rw [hb.realized, hc.realized, openCost_eq hb, openCost_eq hc,
        Book.realized_sub_perm hbuy hsell]
    refine ⟨htotal, hprofit, fun price => ?_⟩
    rw [htotal]
    linear_combination hprofit

/-- A trade of one BTC. -/
def unitEvent (id : Uuid) (side : TradeSide) (price : ℚ) (hp : 0 < price) : ValidEvent where
  event := { sampleEvent id side 1 with price }
  quantity_pos := one_pos
  price_pos := hp

/-- Two buys, then a sell. -/
def sellLast : List ValidEvent :=
  [unitEvent 1 .buy 10 (by norm_num), unitEvent 2 .buy 20 (by norm_num),
    unitEvent 3 .sell 30 (by norm_num)]

/-- The same sell between the buys. -/
def sellBetween : List ValidEvent :=
  [unitEvent 1 .buy 10 (by norm_num), unitEvent 3 .sell 30 (by norm_num),
    unitEvent 2 .buy 20 (by norm_num)]

theorem sell_between_buys : ∃ p q,
    (AssetPortfolio.new "BTC").replay (sellLast.map ValidEvent.event) = some p ∧
      (AssetPortfolio.new "BTC").replay (sellBetween.map ValidEvent.event) = some q ∧ p = q ∧
      p.totalRealizedPnl - openCost p = q.totalRealizedPnl - openCost q := by
  have hp : (AssetPortfolio.new "BTC").replay (sellLast.map ValidEvent.event) =
      some ⟨"BTC", [⟨1, 20⟩], 1, 20⟩ := by decide +kernel
  have hq : (AssetPortfolio.new "BTC").replay (sellBetween.map ValidEvent.event) =
      some ⟨"BTC", [⟨1, 20⟩], 1, 20⟩ := by decide +kernel
  obtain ⟨hsame, hperm⟩ := delivery_order hp hq
  exact ⟨_, _, hp, hq, hsame (by decide +kernel) (by decide +kernel) (by decide +kernel),
    (hperm (.cons _ (.swap _ _ _))).2.1⟩

end DeliveryOrder
end CryptoAccounting

import CryptoAccounting.Consumer.Engine
import CryptoAccounting.Ledger.Matching
import CryptoAccounting.Ledger.CashFlow
import CryptoAccounting.Lockstep

/-!
# The two engines agree

The consumer's portfolios follow the same books as the ledger's portfolio (`apply_refines`), so on the
same trades in the same order the two accept the same, report the same and hold the same after every
step (`engines_agree`).
-/

namespace CryptoAccounting
namespace Agreement

open Alike Segments
open Lockstep (Traded Tells Consumers SameAnswer consumerRun)
open Ledger (ValidTrade Trade Portfolio Books TradeResult outcome outcomes booksAfter resultsOf
  applyAll_new)
open Consumer (AssetPortfolio PortfolioError)

/-! ### The consumer follows the books -/

/-- The portfolio holds the book's open lots and held quantity, and has realized what it has. -/
structure PortfolioRefines (p : AssetPortfolio ℚ) (b : Book ℚ) : Prop where
  lots : p.pairs = b.openLots
  total : p.totalQuantity = b.held
  realized : p.totalRealizedPnl = b.realized

theorem portfolioRefines_new (asset : String) :
    PortfolioRefines (AssetPortfolio.new asset) Book.empty :=
  ⟨rfl, by simp [AssetPortfolio.new], by simp [AssetPortfolio.new]⟩

theorem PortfolioRefines.balanced {p : AssetPortfolio ℚ} {b : Book ℚ} (h : PortfolioRefines p b) :
    p.Balanced where
  positive := by rw [h.lots]; exact b.openLots_positive
  total := by rw [h.lots, Book.weight_openLots, h.total]

/-- Results of the consumer's `apply`. -/
abbrev ConsumerResult := Except (PortfolioError ℚ) (List (RealizedPnL ℚ))

/-- What the consumer answers to a trade, by the book of its asset. -/
def consumerOutcome (b : Book ℚ) (t : ValidTrade ℚ) : ConsumerResult :=
  if b.Accepts t.order then .ok ((b.fillsOf t.order).map (.ofFill t.asset t.price))
  else .error (.insufficientBalance t.asset t.quantity b.held)

section After

variable {p : AssetPortfolio ℚ} {b : Book ℚ} {event : TradeEvent ℚ} {q price : ℚ}

/-- A buy that is taken is a buy of the book. -/
theorem PortfolioRefines.after_buy (h : PortfolioRefines p b) (hq : 0 < q) (hp : 0 < price)
    (hquantity : event.quantity = q) (hprice : event.price = price) :
    PortfolioRefines (p.after event .buy) (b.buy q price hq hp) where
  lots := by
    rw [Book.openLots_buy, ← h.lots]
    simp [AssetPortfolio.after, AssetPortfolio.pairs, Lot.pair, hquantity, hprice]
  total := by
    rw [Book.held_buy, ← h.total, ← hquantity]
    rfl
  realized := by
    rw [Book.realized_buy, ← h.realized]
    rfl

/-- A sell that is taken is a sell of the book. -/
theorem PortfolioRefines.after_sell (h : PortfolioRefines p b) (hq : 0 < q) (hle : q ≤ b.held)
    (hquantity : event.quantity = q) (hprice : event.price = price) :
    PortfolioRefines (p.after event .sell) (b.sell q price hq hle) where
  lots := by
    rw [Book.openLots_sell, ← h.lots, ← hquantity]
    exact map_pair_map_ofPair _
  total := by
    rw [Book.held_sell, ← h.total, ← hquantity]
    rfl
  realized := by
    rw [Book.realized_sell, ← h.realized, Book.fills, ← h.lots, ← hquantity, ← hprice]
    rfl

end After

/-- **One event.** The consumer answers what the book prescribes, its portfolio follows the book, and
a rejected event leaves it as it was. -/
theorem apply_refines {p : AssetPortfolio ℚ} {b : Book ℚ} (h : PortfolioRefines p b) (t : Traded ℚ)
    (hasset : p.asset = t.trade.asset) :
    ∃ p', p.apply t.event = .ok (consumerOutcome b t.trade, p') ∧ p'.asset = p.asset ∧
      PortfolioRefines p' (b.step t.trade.order) ∧ (¬ b.Accepts t.trade.order → p' = p) := by
  have hside : t.event.getSide = some t.trade.side := getSide_of_str t.tells.side
  have hq : 0 < t.event.quantity := by rw [t.tells.quantity]; exact t.trade.positive.1
  cases hs : t.trade.side with
  | buy =>
    have hb : t.trade.order.isBuy = true := ValidTrade.order_isBuy_of_buy hs
    have hacc : p.Accepts t.event .buy := ⟨hside.trans (congrArg some hs), fun hc => by cases hc⟩
    refine ⟨p.after t.event .buy, ?_, rfl, ?_, fun hc => absurd (.inl hb) hc⟩
    · rw [Consumer.apply_accepted h.balanced hq hacc, consumerOutcome, if_pos (.inl hb), Book.fillsOf,
        if_pos hb]
      rfl
    · rw [Book.step_buy b hb]
      exact h.after_buy _ _ t.tells.quantity t.tells.price
  | sell =>
    have hb : t.trade.order.isBuy = false := ValidTrade.order_isBuy_of_sell hs
    have hside' : t.event.getSide = some .sell := hside.trans (congrArg some hs)
    rcases le_or_gt t.trade.quantity b.held with hle | hlt
    · have hle' : t.event.quantity ≤ p.totalQuantity := by rwa [h.total, t.tells.quantity]
      have hacc : p.Accepts t.event .sell := ⟨hside', fun _ => hle'⟩
      have hq' : t.trade.order.quantity ≤ b.held := hle
      refine ⟨p.after t.event .sell, ?_, rfl, ?_, fun hc => absurd (.inr hle) hc⟩
      · rw [Consumer.apply_accepted h.balanced hq hacc, consumerOutcome, if_pos (.inr hle), Book.fillsOf,
          if_neg (by simp [hb])]
        simp only [AssetPortfolio.fillsOf, h.lots, t.tells.quantity, t.tells.price, hasset]
        rfl
      · rw [Book.step_sell b hb hq']
        exact h.after_sell _ hq' t.tells.quantity t.tells.price
    · have hacc : ¬ b.Accepts t.trade.order := by
        rintro (hc | hc)
        · rw [hb] at hc; cases hc
        · exact absurd hc (not_le.2 hlt)
      have hlt' : p.totalQuantity < t.event.quantity := by rwa [h.total, t.tells.quantity]
      refine ⟨p, ?_, rfl, ?_, fun _ => rfl⟩
      · rw [Consumer.apply_insufficient hside' hlt', consumerOutcome, if_neg hacc, hasset,
          t.tells.quantity, h.total]
      · rw [Book.step_refused _ hacc]
        exact h

/-! ### Runs -/

/-- Every portfolio has its asset's name and refines its book. -/
def ConsumersRefine (c : Consumers ℚ) (books : Books) : Prop :=
  ∀ a, (c a).asset = a ∧ PortfolioRefines (c a) (books a)

theorem consumersRefine_new : ConsumersRefine AssetPortfolio.new fun _ => Book.empty :=
  fun a => ⟨rfl, portfolioRefines_new a⟩

/-- The answers the books prescribe for a run. -/
def consumerOutcomes : Books → List (ValidTrade ℚ) → List ConsumerResult
  | _, [] => []
  | books, t :: ts => consumerOutcome (books t.asset) t :: consumerOutcomes (books.step t) ts

theorem consume_step {c : Consumers ℚ} {books : Books} (h : ConsumersRefine c books) (t : Traded ℚ) :
    ∃ c', c.apply t.event = .ok (consumerOutcome (books t.trade.asset) t.trade, c') ∧
      ConsumersRefine c' (books.step t.trade) := by
  obtain ⟨hname, href⟩ := h t.trade.asset
  obtain ⟨p, happ, hp, href', hsame⟩ := apply_refines href t hname
  have hupdate : ConsumersRefine (Function.update c t.trade.asset p) (books.step t.trade) := by
    intro a
    by_cases ha : a = t.trade.asset
    · subst ha
      rw [Function.update_self, Ledger.Books.step_same rfl]
      exact ⟨hp.trans hname, href'⟩
    · rw [Function.update_of_ne ha, Ledger.Books.step_other (Ne.symm ha)]
      exact h a
  unfold Consumers.apply
  rw [t.tells.asset, happ]
  by_cases hacc : (books t.trade.asset).Accepts t.trade.order
  · rw [consumerOutcome, if_pos hacc]
    exact ⟨_, rfl, hupdate⟩
  · rw [consumerOutcome, if_neg hacc]
    rw [hsame hacc, Function.update_eq_self] at hupdate
    exact ⟨_, rfl, hupdate⟩

theorem consume_refines {c : Consumers ℚ} {books : Books} (h : ConsumersRefine c books)
    (ts : List (Traded ℚ)) : ∃ c',
      results Consumers.apply c (ts.map Traded.event) =
        .ok (c', consumerOutcomes books (ts.map Traded.trade)) ∧
      ConsumersRefine c' (books.run (ts.map Traded.trade)) := by
  induction ts generalizing c books with
  | nil => exact ⟨c, rfl, h⟩
  | cons t ts ih =>
    obtain ⟨c₁, happ, hstep⟩ := consume_step h t
    obtain ⟨c', hall, href⟩ := ih hstep
    refine ⟨c', ?_, href⟩
    rw [List.map_cons, results, happ]
    simp only [ok_bind, hall, pure_eq_ok]
    rfl

/-! ### Agreement -/

theorem sameAnswer_outcome (b : Book ℚ) (t : ValidTrade ℚ) :
    SameAnswer (outcome b t) (consumerOutcome b t) := by
  unfold outcome consumerOutcome
  split_ifs
  · exact rfl
  · exact ⟨rfl, rfl, rfl⟩

theorem sameAnswer_outcomes (books : Books) (ts : List (ValidTrade ℚ)) :
    List.Forall₂ SameAnswer (outcomes books ts) (consumerOutcomes books ts) := by
  induction ts generalizing books with
  | nil => exact .nil
  | cons t ts ih => exact .cons (sameAnswer_outcome _ t) (ih (books.step t))

/-- The quantity held of an asset; zero when it has no position. -/
def quantityOf (p : Portfolio ℚ) (a : String) : ℚ :=
  (p.positions.lookup a).elim 0 Ledger.Position.totalQuantity

theorem quantityOf_eq {p : Portfolio ℚ} {books : Books} (h : p.Refines books) (a : String) :
    quantityOf p a = (books a).held := by
  unfold quantityOf
  cases hl : p.positions.lookup a with
  | none => rw [h.absent a hl, Book.held_empty]; rfl
  | some pos => exact (h.position a pos hl).2.total

/-- The book of an asset that does not occur in a run stays as it was. -/
theorem run_other {books : Books} {ts : List (ValidTrade ℚ)} {a : String}
    (h : a ∉ Ledger.assetsOf ts) : books.run ts a = books a := by
  induction ts generalizing books with
  | nil => rfl
  | cons t ts ih =>
    simp only [Ledger.assetsOf, List.map_cons, List.toFinset_cons, Finset.mem_insert, not_or] at h
    have hstep : books.step t a = books a := Ledger.Books.step_other (Ne.symm h.1)
    rw [← hstep]
    exact ih h.2

/-- A sum that vanishes outside two sets is the same over both. -/
theorem sum_eq_sum_of_zero {S T : Finset String} {f : String → ℚ} (hS : ∀ a, a ∉ S → f a = 0)
    (hT : ∀ a, a ∉ T → f a = 0) : ∑ a ∈ S, f a = ∑ a ∈ T, f a := by
  have hS' : ∑ a ∈ S, f a = ∑ a ∈ S ∪ T, f a :=
    Finset.sum_subset Finset.subset_union_left fun a _ ha => hS a ha
  have hT' : ∑ a ∈ T, f a = ∑ a ∈ S ∪ T, f a :=
    Finset.sum_subset Finset.subset_union_right fun a _ ha => hT a ha
  rw [hS', hT']

/-- The ledger's running total, as a sum over the traded assets. -/
theorem totalRealized_eq_sum {p : Portfolio ℚ} {ts : List (ValidTrade ℚ)}
    (h : p.Refines (booksAfter ts)) :
    p.totalRealizedPnl = ∑ a ∈ Ledger.assetsOf ts, (booksAfter ts a).realized := by
  rw [h.realized]
  refine sum_eq_sum_of_zero (fun a ha => ?_) fun a ha => ?_
  · rw [h.absent a, Book.realized_empty]
    rw [Finmap.mem_keys] at ha
    exact Finmap.lookup_eq_none.2 ha
  · rw [booksAfter, run_other ha, Book.realized_empty]

/-- The response and the event of an accepted trade carry the sum of its records. -/
theorem published_realizedPnl {p p' : Portfolio ℚ} {t : Trade ℚ} {events : List (RealizedPnL ℚ)}
    (h : p.applyTrade t = .ok (.ok events, p')) :
    ∃ r, Ledger.CreateTrade.applyLocked p t = .ok (.ok r, p') ∧
      r = (events.map RealizedPnL.realizedPnl).sum ∧
      ∀ notionalValue eventId now,
        (Ledger.CreateTrade.respond t notionalValue r).realizedPnl = r ∧
        (Ledger.fromResponse (Ledger.CreateTrade.respond t notionalValue r) eventId now).realizedPnl =
          r := by
  refine ⟨_, ?_, rfl, fun _ _ _ => ⟨rfl, rfl⟩⟩
  unfold Ledger.CreateTrade.applyLocked
  simp only [h, ok_bind, sumDecimal_exact, pure_eq_ok]

/-- **The two engines agree step by step.** After every sequence of trades neither engine has
panicked, they have given the same answers, hold the same lots and totals for every asset, and have
realized the same in total; and the records of the next accepted trade add up to the realized PnL of
its response and of its event. -/
theorem engines_agree (ts : List (Traded ℚ)) :
    ∃ p rs c rs',
      Portfolio.new.applyAll (ts.map Traded.trade) = .ok (p, rs) ∧
      consumerRun ts = .ok (c, rs') ∧
      List.Forall₂ SameAnswer rs rs' ∧
      (∀ a, (c a).lots = p.lotsOf a ∧ (c a).totalQuantity = quantityOf p a) ∧
      p.totalRealizedPnl =
        ∑ a ∈ Ledger.assetsOf (ts.map Traded.trade), (c a).totalRealizedPnl ∧
      ∀ (t : ValidTrade ℚ) (events : List (RealizedPnL ℚ)) (p' : Portfolio ℚ),
        p.applyTrade t.trade = .ok (.ok events, p') →
        ∃ r, Ledger.CreateTrade.applyLocked p t.trade = .ok (.ok r, p') ∧
          r = (events.map RealizedPnL.realizedPnl).sum ∧
          ∀ notionalValue eventId now,
            (Ledger.CreateTrade.respond t.trade notionalValue r).realizedPnl = r ∧
            (Ledger.fromResponse (Ledger.CreateTrade.respond t.trade notionalValue r) eventId
              now).realizedPnl = r := by
  obtain ⟨p, hall, href⟩ := applyAll_new (ts.map Traded.trade)
  obtain ⟨c, hconsume, hc⟩ := consume_refines consumersRefine_new ts
  refine ⟨p, _, c, _, hall, hconsume, sameAnswer_outcomes _ _, ?_, ?_, ?_⟩
  · intro a
    obtain ⟨-, hca⟩ := hc a
    constructor
    · exact eq_of_pairs_eq (hca.lots.trans (href.lotsOf a).symm)
    · rw [hca.total, quantityOf_eq href]
      rfl
  · rw [totalRealized_eq_sum href]
    exact Finset.sum_congr rfl fun a _ => (hc a).2.realized.symm
  · intro t events p' happ
    exact published_realizedPnl happ

end Agreement
end CryptoAccounting

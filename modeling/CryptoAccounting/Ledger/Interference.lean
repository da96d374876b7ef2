import CryptoAccounting.Ledger.CashFlow

/-!
# Assets do not interfere

`apply_trade` reads and writes the position of the trade's asset and adds to the realized total,
and nothing else (`applyTrade_frame`, `applyTrade_local`). So a run splits into one run for each
asset: `Portfolio.Splits` says that every position is held by a portfolio of its own and that the
total is the sum of their totals, and every step keeps it. `assets_independent` is the projection
theorem: results, positions and totals of a run are those of the runs of the single assets, however
these are interleaved.
-/

namespace CryptoAccounting
namespace Ledger

open Tables

/-! ### One trade -/

section Trade

section Insert

variable {D : Type} (m : Finmap fun _ : String => Position D) {a b : String} (pos : Position D)
  (total : D)

theorem getPosition_insert : Portfolio.getPosition ⟨m.insert a pos, total⟩ a = some pos :=
  Finmap.lookup_insert m

theorem getPosition_insert_of_ne (h : b ≠ a) :
    Portfolio.getPosition ⟨m.insert a pos, total⟩ b = m.lookup b := Finmap.lookup_insert_of_ne m h

end Insert

variable {p q p' : Portfolio ℚ} {t : Trade ℚ} {r : TradeResult}

/-- The other positions stay as they are. -/
theorem applyTrade_frame (h : p.applyTrade t = .ok (r, p')) {a : String} (ha : a ≠ t.asset) :
    p'.getPosition a = p.getPosition a := by
  unfold Portfolio.applyTrade at h
  cases hs : t.side with
  | buy =>
    simp only [hs] at h
    obtain ⟨pos, -, h⟩ := bind_eq_ok h
    cases h
    exact getPosition_insert_of_ne _ _ _ ha
  | sell =>
    cases hl : p.positions.lookup t.asset with
    | none =>
      simp only [hs, hl] at h
      cases h
      rfl
    | some pos =>
      simp only [hs, hl] at h
      obtain ⟨⟨result, pos'⟩, -, h⟩ := bind_eq_ok h
      cases result with
      | error e =>
        cases h
        exact getPosition_insert_of_ne _ _ _ ha
      | ok events =>
        obtain ⟨total, -, h⟩ := bind_eq_ok h
        cases h
        exact getPosition_insert_of_ne _ _ _ ha

/-- Result, new position and change of the total depend on the position of the trade's asset alone. -/
theorem applyTrade_local (hpq : p.getPosition t.asset = q.getPosition t.asset)
    (h : p.applyTrade t = .ok (r, p')) :
    ∃ q', q.applyTrade t = .ok (r, q') ∧ q'.getPosition t.asset = p'.getPosition t.asset ∧
      p'.totalRealizedPnl = p.totalRealizedPnl + (q'.totalRealizedPnl - q.totalRealizedPnl) := by
  unfold Portfolio.getPosition at hpq
  unfold Portfolio.applyTrade at h ⊢
  cases hs : t.side with
  | buy =>
    simp only [hs] at h ⊢
    rw [← hpq]
    obtain ⟨pos, hadd, h⟩ := bind_eq_ok h
    cases h
    refine ⟨_, by rw [hadd]; rfl, ?_, by simp⟩
    rw [getPosition_insert, getPosition_insert]
  | sell =>
    cases hl : p.positions.lookup t.asset with
    | none =>
      rw [hl] at hpq
      simp only [hs, hl, ← hpq] at h ⊢
      cases h
      exact ⟨q, rfl, by unfold Portfolio.getPosition; rw [hl, ← hpq], by simp⟩
    | some pos =>
      rw [hl] at hpq
      simp only [hs, hl, ← hpq] at h ⊢
      obtain ⟨⟨result, pos'⟩, hcons, h⟩ := bind_eq_ok h
      rw [hcons, ok_bind]
      cases result with
      | error e =>
        cases h
        refine ⟨_, rfl, ?_, by simp⟩
        rw [getPosition_insert, getPosition_insert]
      | ok events =>
        simp only [foldlM_add_exact, ok_bind, pure_eq_ok] at h ⊢
        cases h
        refine ⟨_, rfl, ?_, by ring⟩
        rw [getPosition_insert, getPosition_insert]

end Trade

/-! ### One portfolio for each asset -/

/-- Every position of `p` is held by the portfolio `sub` has for its asset, and the realized total
is the sum of theirs over the assets `S`. -/
structure Portfolio.Splits (p : Portfolio ℚ) (sub : String → Portfolio ℚ) (S : Finset String) :
    Prop where
  position : ∀ a, (sub a).getPosition a = p.getPosition a
  total : p.totalRealizedPnl = ∑ a ∈ S, (sub a).totalRealizedPnl

theorem Portfolio.splits_new (S : Finset String) :
    Portfolio.new.Splits (fun _ => Portfolio.new) S where
  position _ := rfl
  total := by simp [Portfolio.new]

section Splits

variable {p p' : Portfolio ℚ} {sub : String → Portfolio ℚ} {S : Finset String}

/-- **One trade** has the same result in the portfolio of its asset, and moves only that one. -/
theorem Portfolio.Splits.applyTrade (h : p.Splits sub S) {t : ValidTrade ℚ} (ht : t.asset ∈ S)
    {r : TradeResult} (happ : p.applyTrade t.trade = .ok (r, p')) :
    ∃ q', (sub t.asset).applyTrade t.trade = .ok (r, q') ∧
      p'.Splits (Function.update sub t.asset q') S := by
  obtain ⟨q', hq, hpos, htotal⟩ := applyTrade_local (h.position t.asset).symm happ
  refine ⟨q', hq, fun a => ?_, ?_⟩
  · by_cases ha : a = t.asset
    · rw [ha, Function.update_self, hpos]
    · rw [Function.update_of_ne ha, h.position a, applyTrade_frame happ ha]
  · rw [sum_update S sub Portfolio.totalRealizedPnl q' ht, ← h.total, htotal]

/-- The trades of one asset. -/
def only (asset : String) (ts : List (ValidTrade ℚ)) : List (ValidTrade ℚ) :=
  ts.filter fun t => t.asset = asset

/-- The results of the trades of one asset. -/
def resultsFor (asset : String) (ts : List (ValidTrade ℚ)) (rs : List TradeResult) : List TradeResult :=
  (ts.zip rs).filterMap fun tr => if tr.1.asset = asset then some tr.2 else none

theorem only_cons (a : String) (t : ValidTrade ℚ) (ts : List (ValidTrade ℚ)) :
    only a (t :: ts) = if t.asset = a then t :: only a ts else only a ts := by
  simp [only, List.filter_cons]

theorem resultsFor_cons (a : String) (t : ValidTrade ℚ) (ts : List (ValidTrade ℚ)) (r : TradeResult)
    (rs : List TradeResult) : resultsFor a (t :: ts) (r :: rs) =
      if t.asset = a then r :: resultsFor a ts rs else resultsFor a ts rs := by
  unfold resultsFor
  rw [List.zip_cons_cons, List.filterMap_cons]
  split_ifs <;> rfl

/-- **A run** is one run for each asset. -/
theorem Portfolio.Splits.applyAll {ts : List (ValidTrade ℚ)} (h : p.Splits sub S)
    (hS : ∀ t ∈ ts, t.asset ∈ S) {rs : List TradeResult} (hall : p.applyAll ts = .ok (p', rs)) :
    ∃ sub', p'.Splits sub' S ∧
      ∀ a, (sub a).applyAll (only a ts) = .ok (sub' a, resultsFor a ts rs) := by
  induction ts generalizing p sub rs with
  | nil =>
    cases hall
    exact ⟨sub, h, fun a => rfl⟩
  | cons t ts ih =>
    rw [Portfolio.applyAll] at hall
    obtain ⟨⟨r, p₁⟩, happ, hall⟩ := bind_eq_ok hall
    obtain ⟨⟨p₂, rs'⟩, hrest, hall⟩ := bind_eq_ok hall
    cases hall
    obtain ⟨q', hq, hsplit⟩ := h.applyTrade (hS t List.mem_cons_self) happ
    obtain ⟨sub', hsplit', hruns⟩ := ih hsplit (fun t' ht' => hS t' (List.mem_cons_of_mem _ ht')) hrest
    refine ⟨sub', hsplit', fun a => ?_⟩
    have hrun := hruns a
    rw [only_cons, resultsFor_cons]
    by_cases ha : t.asset = a
    · subst ha
      rw [Function.update_self] at hrun
      rw [if_pos rfl, if_pos rfl, Portfolio.applyAll, hq, ok_bind]
      simp only [hrun, ok_bind, pure_eq_ok]
    · rw [Function.update_of_ne (Ne.symm ha)] at hrun
      rw [if_neg ha, if_neg ha, hrun]

end Splits

/-! ### Runs from the empty portfolio -/

theorem mem_assetsOf {t : ValidTrade ℚ} {ts : List (ValidTrade ℚ)} (h : t ∈ ts) : t.asset ∈ assetsOf ts :=
  List.mem_toFinset.2 (List.mem_map_of_mem h)

/-- The assets of a run are those with trades of their own. -/
theorem mem_assetsOf_iff {a : String} {ts : List (ValidTrade ℚ)} : a ∈ assetsOf ts ↔ only a ts ≠ [] := by
  simp [assetsOf, only]

theorem portfolio_ext {p q : Portfolio ℚ} (hpos : ∀ a, p.getPosition a = q.getPosition a)
    (htotal : p.totalRealizedPnl = q.totalRealizedPnl) : p = q := by
  cases p
  cases q
  rw [Portfolio.mk.injEq]
  exact ⟨Finmap.ext_lookup hpos, htotal⟩

/-- **Assets do not interfere.** Every run splits: for every asset, the trades of that asset alone
run from an empty portfolio have the same results and end in the same position, and the realized
total is the sum of the totals of these runs. Another interleaving of the same trades of each asset
has the same results and ends in the same portfolio. -/
theorem assets_independent (ts : List (ValidTrade ℚ)) :
    ∃ (p : Portfolio ℚ) (rs : List TradeResult) (sub : String → Portfolio ℚ),
      Portfolio.new.applyAll ts = .ok (p, rs) ∧
      (∀ a, Portfolio.new.applyAll (only a ts) = .ok (sub a, resultsFor a ts rs) ∧
        (sub a).getPosition a = p.getPosition a) ∧
      p.totalRealizedPnl = ∑ a ∈ assetsOf ts, (sub a).totalRealizedPnl ∧
      ∀ us : List (ValidTrade ℚ), (∀ a, only a us = only a ts) →
        ∃ rs', Portfolio.new.applyAll us = .ok (p, rs') ∧
          ∀ a, resultsFor a us rs' = resultsFor a ts rs := by
  obtain ⟨p, hall, -⟩ := applyAll_new ts
  obtain ⟨sub, hsplit, hruns⟩ :=
    (Portfolio.splits_new (assetsOf ts)).applyAll (fun _ => mem_assetsOf) hall
  refine ⟨p, resultsOf ts, sub, hall, fun a => ⟨hruns a, hsplit.position a⟩, hsplit.total,
    fun us hus => ?_⟩
  have hassets : assetsOf us = assetsOf ts := by
    ext a
    rw [mem_assetsOf_iff, mem_assetsOf_iff, hus a]
  obtain ⟨q, hall', -⟩ := applyAll_new us
  obtain ⟨sub', hsplit', hruns'⟩ :=
    (Portfolio.splits_new (assetsOf us)).applyAll (fun _ => mem_assetsOf) hall'
  -- The runs of the single assets are the same.
  have hsame : ∀ a, sub' a = sub a ∧ resultsFor a us (resultsOf us) = resultsFor a ts (resultsOf ts) := by
    intro a
    have hrun := hruns' a
    rw [hus a, hruns a, Except.ok.injEq, Prod.mk.injEq] at hrun
    exact ⟨hrun.1.symm, hrun.2.symm⟩
  have hq : q = p := by
    refine portfolio_ext (fun a => ?_) ?_
    · rw [← hsplit'.position, ← hsplit.position, (hsame a).1]
    · rw [hsplit'.total, hsplit.total, hassets]
      exact Finset.sum_congr rfl fun a _ => by rw [(hsame a).1]
  subst hq
  exact ⟨_, hall', fun a => (hsame a).2⟩

end Ledger
end CryptoAccounting

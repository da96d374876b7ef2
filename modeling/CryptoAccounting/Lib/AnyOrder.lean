import Mathlib.Data.Multiset.Fold
import Mathlib.Data.List.Perm.Basic
import Mathlib.Tactic

/-!
# Folds in any order

A monadic fold over the elements of a multiset, in an order that is not specified. `Agree` says that
all orders have the same result. It follows from `Swappable`, which is about the last two elements of
every beginning; up to three elements it is equivalent to it.
-/

namespace AnyOrder

variable {m : Type → Type} [Monad m] {σ α β : Type}

/-- The fold has the same result in all orders of the elements. -/
def Agree (f : σ → α → m σ) (s : σ) (xs : Multiset α) : Prop :=
  ∀ l l' : List α, (l : Multiset α) = xs → (l' : Multiset α) = xs → l.foldlM f s = l'.foldlM f s

/-- After any of the elements, two more can be exchanged. -/
def Swappable (f : σ → α → m σ) (s : σ) (xs : Multiset α) : Prop :=
  ∀ (l : List α) (x y : α), ((l ++ [x, y] : List α) : Multiset α) ≤ xs →
    (l ++ [x, y]).foldlM f s = (l ++ [y, x]).foldlM f s

/-- Every order of the images is one of the elements. -/
theorem exists_map_eq {g : α → β} {xs : Multiset α} {l : List β} (h : (l : Multiset β) = xs.map g) :
    ∃ l' : List α, (l' : Multiset α) = xs ∧ l'.map g = l := by
  induction xs using Quotient.inductionOn with
  | h xs =>
    have hperm : l.Perm (xs.map g) := Multiset.coe_eq_coe.1 h
    have himages : List.Forall₂ (fun y x => g x = y) (xs.map g) xs := by
      rw [List.forall₂_map_left_iff, List.forall₂_same]
      exact fun _ _ => rfl
    obtain ⟨l', hl, hl'⟩ := List.perm_comp_forall₂ hperm himages
    refine ⟨l', Multiset.coe_eq_coe.2 hl', ?_⟩
    rw [← List.forall₂_eq_eq_eq, List.forall₂_map_left_iff]
    exact hl.flip

/-- The orders of the images are the images of the orders. -/
theorem agree_map {g : α → β} {f : σ → β → m σ} {s : σ} {xs : Multiset α} :
    Agree f s (xs.map g) ↔ ∀ l l' : List α, (l : Multiset α) = xs → (l' : Multiset α) = xs →
      (l.map g).foldlM f s = (l'.map g).foldlM f s := by
  constructor
  · intro h l l' hl hl'
    refine h _ _ ?_ ?_
    · rw [← Multiset.map_coe, hl]
    · rw [← Multiset.map_coe, hl']
  · intro h l l' hl hl'
    obtain ⟨k, hk, rfl⟩ := exists_map_eq hl
    obtain ⟨k', hk', rfl⟩ := exists_map_eq hl'
    exact h k k' hk hk'

variable {f : σ → α → m σ} {s : σ} {xs : Multiset α}

/-- With at most three elements a beginning with two more is either everything or nothing more than
these two. -/
theorem Agree.swappable (h : Agree f s xs) (hcard : xs.card ≤ 3)
    (hpair : ∀ x ∈ xs, ∀ y ∈ xs, [x, y].foldlM f s = [y, x].foldlM f s) : Swappable f s xs := by
  intro l x y hle
  cases l with
  | nil =>
    refine hpair x ?_ y ?_
    · exact Multiset.mem_of_le hle (by simp)
    · exact Multiset.mem_of_le hle (by simp)
  | cons z l =>
    have hall : ((z :: l ++ [x, y] : List α) : Multiset α) = xs :=
      Multiset.eq_of_le_of_card_le hle (hcard.trans (by simp))
    refine h _ _ hall ?_
    rw [← hall, Multiset.coe_eq_coe]
    exact (List.Perm.swap x y []).append_left (z :: l)

section Lawful

variable [LawfulMonad m]

/-- Rearranging what follows a beginning changes nothing. -/
theorem Swappable.append_perm (h : Swappable f s xs) {r r' : List α} (hperm : r.Perm r')
    (l : List α) (hle : ((l ++ r : List α) : Multiset α) ≤ xs) :
    (l ++ r).foldlM f s = (l ++ r').foldlM f s := by
  induction hperm generalizing l with
  | nil => rfl
  | @cons x t t' _ ih =>
    rw [List.append_cons] at hle
    rw [List.append_cons l x t, List.append_cons l x t']
    exact ih (l ++ [x]) hle
  | swap x y t =>
    have hpair : ∀ a b : α, l ++ a :: b :: t = (l ++ [a, b]) ++ t := fun a b => by simp
    have hbegin : ((l ++ [y, x] : List α) : Multiset α) ≤ xs := by
      refine le_trans ?_ hle
      rw [hpair]
      exact Multiset.coe_le.2 (List.sublist_append_left _ _).subperm
    rw [hpair y x, hpair x y, List.foldlM_append, h l y x hbegin, ← List.foldlM_append]
  | trans h₁ _ ih₁ ih₂ =>
    refine (ih₁ l hle).trans (ih₂ l ?_)
    rwa [← Multiset.coe_eq_coe.2 (h₁.append_left l)]

/-- **Exchanges reach every order.** -/
theorem Swappable.agree (h : Swappable f s xs) : Agree f s xs := by
  intro l l' hl hl'
  exact h.append_perm (Multiset.coe_eq_coe.1 (hl.trans hl'.symm)) [] hl.le

end Lawful

end AnyOrder

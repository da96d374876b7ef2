import Mathlib.Tactic

/-!
# Tables and locks

Small facts about the states of concurrent systems: tables with a unique key that only grow, the order
of their rows, records kept under their key in a partial map, sums over the entries of a table, and
lock tables, which say for every resource who holds it. Taking a free lock and releasing one's own locks
do not disturb the locks of the others.
-/

namespace Tables

variable {α β ι : Type}

/-- A table with a unique key takes a row with a new key. -/
theorem nodup_snoc {l : List α} {a : α} (h : l.Nodup) (ha : a ∉ l) : (l ++ [a]).Nodup := by
  rw [← List.concat_eq_append]
  exact h.concat ha

/-- Rows with a unique key are in the same order when their keys are. -/
theorem eq_of_keys_eq {l m : List α} {key : α → β} (hperm : l.Perm m) (hnodup : (m.map key).Nodup)
    (hkeys : l.map key = m.map key) : l = m := by
  refine List.ext_getElem hperm.length_eq fun i hl hm => ?_
  have hkey : key l[i] = key m[i] := by
    have hget := List.getElem_of_eq hkeys (by simpa using hl)
    rwa [List.getElem_map, List.getElem_map] at hget
  exact List.inj_on_of_nodup_map hnodup (hperm.subset (List.getElem_mem hl)) (List.getElem_mem hm) hkey

/-- In a list that is sorted by an asymmetric relation, one entry stands before another exactly when
they are related. -/
theorem pair_sublist_iff {R : α → α → Prop} (hR : ∀ a b, R a b → ¬ R b a) {l : List α}
    (hl : l.Pairwise R) {a b : α} (ha : a ∈ l) (hb : b ∈ l) : [a, b].Sublist l ↔ R a b := by
  refine ⟨fun h => hl.forall_sublist h, fun hab => ?_⟩
  have hne : a ≠ b := by
    rintro rfl
    exact hR a a hab hab
  have : Std.Antisymm R := ⟨fun x y hxy hyx => absurd hyx (hR x y hxy)⟩
  refine List.sublist_of_subperm_of_pairwise ?_ (List.pairwise_pair.2 hab) hl
  refine List.subperm_of_subset (by simpa using hne) fun c hc => ?_
  rcases List.mem_pair.1 hc with rfl | rfl
  · exact ha
  · exact hb

/-- Sorting by a total and transitive relation. -/
theorem pairwise_mergeSort_of {R : α → α → Prop} [DecidableRel R]
    (htrans : ∀ a b c, R a b → R b c → R a c) (htotal : ∀ a b, R a b ∨ R b a) (l : List α) :
    (l.mergeSort fun a b => decide (R a b)).Pairwise R := by
  refine (List.pairwise_mergeSort ?_ ?_ l).imp of_decide_eq_true
  · intro a b c hab hbc
    exact decide_eq_true (htrans a b c (of_decide_eq_true hab) (of_decide_eq_true hbc))
  · intro a b
    rw [Bool.or_eq_true, decide_eq_true_eq, decide_eq_true_eq]
    exact htotal a b

/-! ### Partial maps -/

section Maps

variable [DecidableEq α] {f : α → Option β} {a b : α} {v : Option β}

/-- An entry of an updated map is the new one, or an old one under another key. -/
theorem update_eq_some {c : β} (h : Function.update f a v b = some c) :
    (b = a ∧ v = some c) ∨ (b ≠ a ∧ f b = some c) := by
  by_cases hb : b = a
  · subst hb
    rw [Function.update_self] at h
    exact .inl ⟨rfl, h⟩
  · rw [Function.update_of_ne hb] at h
    exact .inr ⟨hb, h⟩

/-- What holds of every entry after an update holds of the new one and of those under other keys. -/
theorem forall_update {P : α → β → Prop} {c : β} :
    (∀ b d, Function.update f a (some c) b = some d → P b d) ↔
      P a c ∧ ∀ b, b ≠ a → ∀ d, f b = some d → P b d := by
  constructor
  · intro h
    refine ⟨h a c (Function.update_self ..), fun b hb d hd => h b d ?_⟩
    rw [Function.update_of_ne hb, hd]
  · rintro ⟨hnew, hold⟩ b d hd
    rcases update_eq_some hd with ⟨rfl, hc⟩ | ⟨hb, hd⟩
    · cases hc
      exact hnew
    · exact hold b hb d hd

theorem update_none (h : f b = none) : Function.update f a none b = none := by
  by_cases hb : b = a
  · rw [hb, Function.update_self]
  · rw [Function.update_of_ne hb, h]

/-- Changing an entry does not add another. -/
theorem update_of_ne_none (ha : f a ≠ none) (h : f b = none) : Function.update f a v b = none := by
  have hb : b ≠ a := by
    rintro rfl
    exact ha h
  rw [Function.update_of_ne hb, h]

end Maps

/-! ### Sums over a table -/

section Sums

variable {M : Type} [AddCommGroup M]

section Update

variable [DecidableEq α] (S : Finset α) (g : α → β) (f : β → M) {a : α} (b : β)

/-- An entry outside the range of a sum may change. -/
theorem sum_update_of_notMem (ha : a ∉ S) :
    ∑ x ∈ S, f (Function.update g a b x) = ∑ x ∈ S, f (g x) := by
  refine Finset.sum_congr rfl fun x hx => ?_
  have hxa : x ≠ a := ne_of_mem_of_not_mem hx ha
  rw [Function.update_of_ne hxa]

/-- Changing one entry changes the sum by the difference. -/
theorem sum_update (ha : a ∈ S) :
    ∑ x ∈ S, f (Function.update g a b x) = ∑ x ∈ S, f (g x) + (f b - f (g a)) := by
  rw [← Finset.add_sum_erase S _ ha, ← Finset.add_sum_erase S (fun x => f (g x)) ha,
    sum_update_of_notMem _ _ _ _ (Finset.notMem_erase a S), Function.update_self]
  abel

end Update

/-- Entries that count nothing may be left out of a sum. -/
theorem sum_filter {l : List α} {P : α → Bool} {f : α → M} (h : ∀ x ∈ l, P x = false → f x = 0) :
    ((l.filter P).map f).sum = (l.map f).sum := by
  have hrest : ((l.filter fun x => ¬ P x).map f).sum = 0 := by
    refine List.sum_eq_zero fun y hy => ?_
    obtain ⟨x, hx, rfl⟩ := List.mem_map.1 hy
    obtain ⟨hmem, hP⟩ := List.mem_filter.1 hx
    exact h x hmem (by simpa using hP)
  rw [← List.sum_map_filter_add_sum_map_filter_not (fun x => P x) f l, hrest, add_zero]
  simp only [Bool.decide_eq_true]

end Sums

/-! ### Locks -/

section Locks

variable {locks : α → Option ι} {i j : ι} {a b : α}

/-- Whatever `i` holds is free again. -/
def release [DecidableEq ι] (i : ι) (locks : α → Option ι) : α → Option ι :=
  fun a => if locks a = some i then none else locks a

theorem release_of_ne [DecidableEq ι] (hij : j ≠ i) (h : locks a = some j) : release i locks a = some j := by
  have hne : locks a ≠ some i := by
    rw [h]
    exact fun hc => hij (Option.some_inj.1 hc)
  rw [release, if_neg hne, h]

/-- The others keep their locks when `i` takes a lock that is free or its own. -/
theorem acquire_of_ne [DecidableEq α] (hij : j ≠ i) (hfree : locks a = none ∨ locks a = some i)
    (h : locks b = some j) : Function.update locks a (some i) b = some j := by
  have hne : b ≠ a := by
    rintro rfl
    rcases hfree with hf | hf
    · rw [hf] at h
      cases h
    · rw [hf] at h
      exact hij (Option.some_inj.1 h).symm
  rw [Function.update_of_ne hne, h]

/-- After a release the locks are those the others hold. -/
theorem release_eq_some [DecidableEq ι] (h : release i locks a = some j) : j ≠ i ∧ locks a = some j := by
  unfold release at h
  split_ifs at h with hi
  refine ⟨?_, h⟩
  rintro rfl
  exact hi h

/-- Taking a lock gives none to the others. -/
theorem of_acquire_of_ne [DecidableEq α] (hij : j ≠ i)
    (h : Function.update locks a (some i) b = some j) : locks b = some j := by
  rcases update_eq_some h with ⟨-, hi⟩ | ⟨-, h⟩
  · exact absurd (Option.some.inj hi).symm hij
  · exact h

end Locks

end Tables

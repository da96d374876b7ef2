import Mathlib.Data.Finmap
import Mathlib.Tactic

/-!
# Finite maps

`m.mapValues f` applies `f` to every value of the finite map `m` and leaves its keys as they are.
It commutes with lookups, insertions and the iteration over the entries. Inserting an entry that is
there changes nothing.
-/

namespace Finmap

variable {α β γ : Type}

/-- An entry with its value mapped. -/
def mapEntry (f : β → γ) (e : Σ _ : α, β) : Σ _ : α, γ := ⟨e.1, f e.2⟩

theorem keys_map_mapEntry (f : β → γ) (s : Multiset (Σ _ : α, β)) :
    (s.map (mapEntry f)).keys = s.keys := by
  rw [Multiset.keys, Multiset.keys, Multiset.map_map]
  rfl

/-- Apply a function to every value. -/
def mapValues (f : β → γ) (m : Finmap fun _ : α => β) : Finmap fun _ : α => γ where
  entries := m.entries.map (mapEntry f)
  nodupKeys := by
    rw [← Multiset.nodup_keys, keys_map_mapEntry, Multiset.nodup_keys]
    exact m.nodupKeys

variable (f : β → γ) (m : Finmap fun _ : α => β)

theorem entries_mapValues : (m.mapValues f).entries = m.entries.map (mapEntry f) := rfl

variable [DecidableEq α]

@[simp] theorem lookup_mapValues (a : α) : (m.mapValues f).lookup a = (m.lookup a).map f := by
  refine Option.ext fun c => ?_
  rw [lookup_eq_some_iff, entries_mapValues, Multiset.mem_map, Option.map_eq_some_iff]
  constructor
  · rintro ⟨⟨b, v⟩, hv, he⟩
    cases he
    exact ⟨v, lookup_eq_some_iff.2 hv, rfl⟩
  · rintro ⟨v, hv, rfl⟩
    exact ⟨⟨a, v⟩, lookup_eq_some_iff.1 hv, rfl⟩

@[simp] theorem mapValues_empty :
    mapValues f (∅ : Finmap fun _ : α => β) = (∅ : Finmap fun _ : α => γ) := by
  refine ext_lookup fun a => ?_
  rw [lookup_mapValues, lookup_empty, lookup_empty]
  rfl

theorem mapValues_insert (a : α) (b : β) :
    (m.insert a b).mapValues f = (m.mapValues f).insert a (f b) := by
  refine ext_lookup fun c => ?_
  rw [lookup_mapValues]
  by_cases hc : c = a
  · rw [hc, lookup_insert, lookup_insert]
    rfl
  · rw [lookup_insert_of_ne _ hc, lookup_insert_of_ne _ hc, lookup_mapValues]

/-- Writing back what was looked up changes nothing. -/
theorem insert_lookup_self {m : Finmap fun _ : α => β} {a : α} {b : β} (h : m.lookup a = some b) :
    m.insert a b = m := by
  refine ext_lookup fun c => ?_
  by_cases hc : c = a
  · rw [hc, lookup_insert, h]
  · rw [lookup_insert_of_ne _ hc]

end Finmap

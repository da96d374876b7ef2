import Mathlib.Data.List.Sort
import Mathlib.Tactic

/-!
# Records as JSON documents

A document is a syntax tree; the members of an object stand in the order of the text, repeated names
included. `fields` reads a record the way a derived deserializer does: every field exactly once, in any
order, members with other names ignored, or the items of an array in the order of the fields.
`fields_object_iff` says which objects it accepts. `jsonb` is what a column for binary JSON keeps of a
document: one member for each name, the names sorted.
-/

/-- A JSON document. -/
inductive Json
  | null
  | bool (b : Bool)
  | number (text : String)
  | string (s : String)
  | array (items : List Json)
  | object (members : List (String × Json))

namespace Json

/-! ### Scalars as strings -/

/-- How a type is written as a string, and how a document is read as a value of it. -/
structure TextCodec (α : Type) where
  print : α → String
  read : Json → Option α
  read_print : ∀ a, read (.string (print a)) = some a

/-- Strings stand for themselves. -/
def text : TextCodec String where
  print s := s
  read
    | .string s => some s
    | _ => none
  read_print _ := rfl

namespace TextCodec

variable {α : Type} (c : TextCodec α)

/-- The document of a value. -/
def write (a : α) : Json := .string (c.print a)

@[simp] theorem read_write (a : α) : c.read (c.write a) = some a := c.read_print a

theorem write_injective : Function.Injective c.write := by
  intro a b h
  have hread := congrArg c.read h
  simpa using hread

end TextCodec

/-! ### The fields of a record -/

variable {names : List String} {members : List (String × Json)} {values : List Json}

/-- The value of the member with this name, if there is exactly one. -/
def member (members : List (String × Json)) (name : String) : Option Json :=
  match members.filter fun m => m.1 = name with
  | [m] => some m.2
  | _ => none

/-- The value of the member with this name, if there is one; none if there are several. -/
def optionalMember (members : List (String × Json)) (name : String) : Option (Option Json) :=
  match members.filter fun m => m.1 = name with
  | [] => some none
  | [m] => some (some m.2)
  | _ => none

/-- The value of an optional field, which may also be null. -/
def optional {α : Type} (read : Json → Option α) : Option Json → Option (Option α)
  | none => some none
  | some .null => some none
  | some v => (read v).map some

/-- The members that are fields of the record. -/
def known (names : List String) (members : List (String × Json)) : List (String × Json) :=
  members.filter fun m => m.1 ∈ names

/-- The values of the fields of a record, in the order of their names. -/
def fields (names : List String) : Json → Option (List Json)
  | .object members => names.mapM (member members)
  | .array items => if items.length = names.length then some items else none
  | _ => none

/-- The object with these fields. -/
def record (names : List String) (values : List Json) : Json := .object (names.zip values)

theorem member_eq_some_iff {name : String} {v : Json} :
    member members name = some v ↔ (members.filter fun m => m.1 = name) = [(name, v)] := by
  have hname : ∀ m ∈ members.filter fun m => m.1 = name, m.1 = name := by
    intro m hm
    simpa using (List.mem_filter.1 hm).2
  unfold member
  constructor
  · intro h
    split at h
    · next m hm =>
      cases h
      rw [hm, ← hname m (by rw [hm]; exact List.mem_singleton_self m)]
    · cases h
  · intro h
    rw [h]

/-- The members with a name at the head of the list, and those with the other names. -/
theorem known_cons_perm {name : String} (hname : name ∉ names) (members : List (String × Json)) :
    (known (name :: names) members).Perm
      ((members.filter fun m => m.1 = name) ++ known names members) := by
  induction members with
  | nil => simp [known]
  | cons m members ih =>
    simp only [known, List.mem_cons] at ih ⊢
    by_cases hm : m.1 = name
    · have hnot : m.1 ∉ names := by rwa [hm]
      simpa [hm, hname] using ih
    · by_cases hmem : m.1 ∈ names
      · simp only [List.filter_cons, hm, hmem, or_true, decide_true, if_true,
          decide_false, Bool.false_eq_true, if_false]
        exact (ih.cons m).trans List.perm_middle.symm
      · simpa [hm, hmem] using ih

theorem zip_filter_eq_nil {name : String} (hname : name ∉ names) (values : List Json) :
    ((names.zip values).filter fun m => m.1 = name) = [] := by
  rw [List.filter_eq_nil_iff]
  intro m hm hc
  exact hname ((of_decide_eq_true hc) ▸ (List.of_mem_zip hm).1)

theorem known_zip (names : List String) (values : List Json) :
    known names (names.zip values) = names.zip values :=
  List.filter_eq_self.2 fun _ hm => decide_eq_true (List.of_mem_zip hm).1

/-- **Accepted objects.** An object is read as a record exactly when its known members are the fields,
each once, in any order. -/
theorem fields_object_iff (hnames : names.Nodup) :
    fields names (.object members) = some values ↔
      values.length = names.length ∧ (known names members).Perm (names.zip values) := by
  show names.mapM (member members) = some values ↔ _
  induction names generalizing values with
  | nil =>
    have hknown : known [] members = [] := List.filter_eq_nil_iff.2 (by simp)
    cases values <;> simp [hknown]
  | cons name names ih =>
    obtain ⟨hname, hnames⟩ := List.nodup_cons.1 hnames
    rw [List.mapM_cons]
    constructor
    · intro h
      obtain ⟨v, hv, h⟩ := Option.bind_eq_some_iff.1 h
      obtain ⟨vs, hvs, h⟩ := Option.bind_eq_some_iff.1 h
      cases h
      obtain ⟨hlength, hperm⟩ := (ih hnames).1 hvs
      refine ⟨by simp [hlength], (known_cons_perm hname members).trans ?_⟩
      rw [member_eq_some_iff.1 hv]
      exact hperm.cons (name, v)
    · rintro ⟨hlength, hperm⟩
      cases values with
      | nil => simp at hlength
      | cons v vs =>
        have hsplit := (known_cons_perm hname members).symm.trans hperm
        -- The other known members have other names, so the field is there once.
        have hone : (members.filter fun m => m.1 = name).Perm [(name, v)] := by
          have hfilter := hsplit.filter fun m => m.1 = name
          have hrest : ((known names members).filter fun m => m.1 = name) = [] := by
            refine List.filter_eq_nil_iff.2 fun m hm hc => hname ?_
            have hmem : m.1 ∈ names := by simpa using (List.mem_filter.1 hm).2
            rwa [of_decide_eq_true hc] at hmem
          rw [List.filter_append, List.filter_filter, hrest, List.zip_cons_cons,
            List.filter_cons_of_pos (by simp), zip_filter_eq_nil hname] at hfilter
          simpa using hfilter
        have hone' := List.perm_singleton.1 hone
        rw [hone'] at hsplit
        have hvs : names.mapM (member members) = some vs :=
          (ih hnames).2 ⟨by simpa using hlength, (List.perm_cons _).1 hsplit⟩
        rw [member_eq_some_iff.2 hone', hvs]
        rfl

/-- A record is read back. -/
theorem fields_record (hnames : names.Nodup) (hlength : values.length = names.length) :
    fields names (record names values) = some values :=
  (fields_object_iff hnames).2 ⟨hlength, by rw [known_zip]⟩

/-- The order of the members does not matter, nor do members with other names. -/
theorem fields_of_known_perm (hnames : names.Nodup) {members' : List (String × Json)}
    (h : (known names members).Perm (known names members')) :
    fields names (.object members) = fields names (.object members') := by
  refine Option.ext fun values => ?_
  show fields names (.object members) = some values ↔ fields names (.object members') = some values
  rw [fields_object_iff hnames, fields_object_iff hnames]
  exact and_congr_right fun _ => ⟨h.symm.trans, h.trans⟩

/-- Of the known members, those with one name. -/
theorem filter_known {name : String} (hname : name ∈ names) (members : List (String × Json)) :
    ((known names members).filter fun m => m.1 = name) = members.filter fun m => m.1 = name := by
  unfold known
  rw [List.filter_filter]
  refine List.filter_congr fun m _ => ?_
  by_cases hm : m.1 = name <;> simp [hm, hname]

theorem filter_name_perm {name : String} (hname : name ∈ names) {members' : List (String × Json)}
    (h : (known names members).Perm (known names members')) :
    (members.filter fun m => m.1 = name).Perm (members'.filter fun m => m.1 = name) := by
  have hfilter := h.filter fun m => m.1 = name
  rwa [filter_known hname, filter_known hname] at hfilter

theorem optionalMember_of_known_perm {name : String} (hname : name ∈ names)
    {members' : List (String × Json)} (h : (known names members).Perm (known names members')) :
    optionalMember members name = optionalMember members' name := by
  have hperm := filter_name_perm hname h
  unfold optionalMember
  generalize (members.filter fun m => m.1 = name) = l at hperm ⊢
  generalize (members'.filter fun m => m.1 = name) = l' at hperm ⊢
  rcases l with _ | ⟨m, _ | ⟨m₂, ms⟩⟩
  · rw [List.nil_perm.1 hperm]
  · rw [List.singleton_perm.1 hperm]
  · -- Neither list is a singleton.
    rcases l' with _ | ⟨m', _ | ⟨m₂', ms'⟩⟩
    · simp at hperm
    · simp at hperm
    · rfl

theorem member_eq_optionalMember (members : List (String × Json)) (name : String) :
    member members name = (optionalMember members name).join := by
  unfold member optionalMember
  generalize (members.filter fun m => m.1 = name) = l
  rcases l with _ | ⟨m, _ | ⟨m₂, ms⟩⟩ <;> rfl

theorem member_of_known_perm {name : String} (hname : name ∈ names) {members' : List (String × Json)}
    (h : (known names members).Perm (known names members')) :
    member members name = member members' name := by
  rw [member_eq_optionalMember, member_eq_optionalMember, optionalMember_of_known_perm hname h]

/-! ### Binary JSON -/

/-- Of members with the same name the last one is kept. -/
def lastWins : List (String × Json) → List (String × Json)
  | [] => []
  | m :: ms => if m.1 ∈ ms.map Prod.fst then lastWins ms else m :: lastWins ms

/-- Shorter names come first. -/
def KeyLe (a b : String × Json) : Prop :=
  a.1.utf8ByteSize < b.1.utf8ByteSize ∨ a.1.utf8ByteSize = b.1.utf8ByteSize ∧ a.1 ≤ b.1

instance : DecidableRel KeyLe := fun _ _ => inferInstanceAs (Decidable (_ ∨ _ ∧ _))

mutual

/-- What binary JSON keeps of a document. -/
def jsonb : Json → Json
  | .array items => .array (jsonbItems items)
  | .object members => .object ((lastWins (jsonbMembers members)).insertionSort KeyLe)
  | j => j

def jsonbItems : List Json → List Json
  | [] => []
  | j :: js => jsonb j :: jsonbItems js

def jsonbMembers : List (String × Json) → List (String × Json)
  | [] => []
  | (name, j) :: ms => (name, jsonb j) :: jsonbMembers ms

end

theorem jsonb_string (s : String) : jsonb (.string s) = .string s := rfl

theorem jsonb_array (items : List Json) : jsonb (.array items) = .array (items.map jsonb) := by
  rw [jsonb]
  refine congrArg Json.array ?_
  induction items with
  | nil => rfl
  | cons j items ih => rw [jsonbItems, ih, List.map_cons]

theorem jsonbMembers_eq (members : List (String × Json)) :
    jsonbMembers members = members.map fun m => (m.1, jsonb m.2) := by
  induction members with
  | nil => rfl
  | cons m members ih =>
    obtain ⟨name, j⟩ := m
    rw [jsonbMembers, ih, List.map_cons]

theorem lastWins_of_nodup (h : (members.map Prod.fst).Nodup) : lastWins members = members := by
  induction members with
  | nil => rfl
  | cons m members ih =>
    obtain ⟨hm, hmembers⟩ := List.nodup_cons.1 h
    rw [lastWins, if_neg hm, ih hmembers]

/-- A record is read back from binary JSON, with what it keeps of the values. -/
theorem fields_jsonb_record (hnames : names.Nodup) (hlength : values.length = names.length) :
    fields names (jsonb (record names values)) = some (values.map jsonb) := by
  have hmap : jsonbMembers (names.zip values) = names.zip (values.map jsonb) := by
    rw [jsonbMembers_eq, List.zip_map_right]
    rfl
  have hfst : (names.zip (values.map jsonb)).map Prod.fst = names :=
    List.map_fst_zip (by simp [hlength])
  have hstored : jsonb (record names values) =
      .object ((names.zip (values.map jsonb)).insertionSort KeyLe) := by
    rw [record, jsonb, hmap, lastWins_of_nodup (by rwa [hfst])]
  rw [hstored, ← fields_record hnames (show (values.map jsonb).length = _ by simpa using hlength)]
  exact fields_of_known_perm hnames ((List.perm_insertionSort KeyLe _).filter _)

end Json

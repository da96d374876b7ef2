import Mathlib.Tactic
import Mathlib.Algebra.Order.BigOperators.Group.List

/-!
# Queues of weighted segments

A queue is a list of segments `(w, a)`: a weight and a label. `take q l` and `drop q l` cut the
queue after the first `q` units of weight, splitting a segment where the cut falls inside it.
`weight` adds the weights up and `value f` integrates a function of the label.

Laid end to end on an axis, the segments become spans. `take_drop_eq_meet` and `drop_eq_rightOf`
describe a cut of the queue by intersections with an interval of that axis.
-/

namespace Segments

variable {K α : Type*} [CommRing K]

/-- The total weight of a queue. -/
def weight (l : List (K × α)) : K := (l.map Prod.fst).sum

/-- The integral of `f` over a queue: every unit of weight counts with its label's value. -/
def value (f : α → K) (l : List (K × α)) : K := (l.map fun s => s.1 * f s.2).sum

@[simp] theorem weight_nil : weight ([] : List (K × α)) = 0 := rfl
@[simp] theorem weight_cons (s : K × α) (l : List (K × α)) :
    weight (s :: l) = s.1 + weight l := by simp [weight]
@[simp] theorem weight_append (l m : List (K × α)) :
    weight (l ++ m) = weight l + weight m := by simp [weight]
@[simp] theorem value_nil (f : α → K) : value f [] = 0 := rfl
@[simp] theorem value_cons (f : α → K) (s : K × α) (l : List (K × α)) :
    value f (s :: l) = s.1 * f s.2 + value f l := by simp [value]
@[simp] theorem value_append (f : α → K) (l m : List (K × α)) :
    value f (l ++ m) = value f l + value f m := by simp [value]

theorem weight_flatMap {ι : Type*} (l : List ι) (f : ι → List (K × α)) :
    weight (l.flatMap f) = (l.map fun i => weight (f i)).sum := by
  induction l with
  | nil => rfl
  | cons i l ih => rw [List.flatMap_cons, weight_append, ih, List.map_cons, List.sum_cons]

theorem value_flatMap {ι : Type*} (v : α → K) (l : List ι) (f : ι → List (K × α)) :
    value v (l.flatMap f) = (l.map fun i => value v (f i)).sum := by
  induction l with
  | nil => rfl
  | cons i l ih => rw [List.flatMap_cons, value_append, ih, List.map_cons, List.sum_cons]

theorem weight_perm {l m : List (K × α)} (h : l.Perm m) : weight l = weight m :=
  (h.map _).sum_eq

theorem value_perm (f : α → K) {l m : List (K × α)} (h : l.Perm m) : value f l = value f m :=
  (h.map _).sum_eq

theorem weight_eq_value (l : List (K × α)) : weight l = value (fun _ => 1) l := by
  simp [weight, value]

variable [LinearOrder K]

/-- Every segment has positive weight. -/
def Positive (l : List (K × α)) : Prop := ∀ s ∈ l, 0 < s.1

/-- The first `q` units of a queue. -/
def take (q : K) : List (K × α) → List (K × α)
  | [] => []
  | (w, a) :: l => if q < w then (if 0 < q then [(q, a)] else []) else (w, a) :: take (q - w) l

/-- What follows the first `q` units of a queue. -/
def drop (q : K) : List (K × α) → List (K × α)
  | [] => []
  | (w, a) :: l => if q < w then (w - q, a) :: l else drop (q - w) l

@[simp] theorem positive_nil : Positive ([] : List (K × α)) := by simp [Positive]
@[simp] theorem positive_cons (s : K × α) (l : List (K × α)) :
    Positive (s :: l) ↔ 0 < s.1 ∧ Positive l := by simp [Positive]
@[simp] theorem positive_append (l m : List (K × α)) :
    Positive (l ++ m) ↔ Positive l ∧ Positive m := by
  simp only [Positive, List.mem_append]
  exact ⟨fun h => ⟨fun s hs => h s (.inl hs), fun s hs => h s (.inr hs)⟩,
    fun h s hs => hs.elim (h.1 s) (h.2 s)⟩

@[simp] theorem take_nil (q : K) : take q ([] : List (K × α)) = [] := rfl
@[simp] theorem drop_nil (q : K) : drop q ([] : List (K × α)) = [] := rfl

theorem take_cons_of_lt {q w : K} (h : q < w) (hq : 0 < q) (a : α) (l : List (K × α)) :
    take q ((w, a) :: l) = [(q, a)] := by rw [take, if_pos h, if_pos hq]
theorem take_cons_of_ge {q w : K} (h : w ≤ q) (a : α) (l : List (K × α)) :
    take q ((w, a) :: l) = (w, a) :: take (q - w) l := by rw [take, if_neg (not_lt.2 h)]
theorem drop_cons_of_lt {q w : K} (h : q < w) (a : α) (l : List (K × α)) :
    drop q ((w, a) :: l) = (w - q, a) :: l := by rw [drop, if_pos h]
theorem drop_cons_of_ge {q w : K} (h : w ≤ q) (a : α) (l : List (K × α)) :
    drop q ((w, a) :: l) = drop (q - w) l := by rw [drop, if_neg (not_lt.2 h)]

theorem take_zero {l : List (K × α)} (hl : Positive l) : take 0 l = [] := by
  cases l with
  | nil => rfl
  | cons s l => rw [take, if_pos ((positive_cons s l).1 hl).1, if_neg (lt_irrefl 0)]

theorem drop_zero {l : List (K × α)} (hl : Positive l) : drop 0 l = l := by
  cases l with
  | nil => rfl
  | cons s l => rw [drop, if_pos ((positive_cons s l).1 hl).1, sub_zero]

/-- The labels of what is left were there before. -/
theorem label_mem_of_mem_drop {l : List (K × α)} {q : K} {s : K × α} (hs : s ∈ drop q l) :
    ∃ w, (w, s.2) ∈ l := by
  induction l generalizing q with
  | nil => simp at hs
  | cons t l ih =>
    rw [drop] at hs
    split_ifs at hs with h
    · rcases List.mem_cons.1 hs with rfl | hs
      · exact ⟨t.1, by simp⟩
      · exact ⟨s.1, by simp [hs]⟩
    · obtain ⟨w, hw⟩ := ih hs
      exact ⟨w, List.mem_cons_of_mem _ hw⟩

/-- A cut at a point of a subgroup leaves weights of that subgroup. -/
theorem weight_mem_of_mem_drop (H : AddSubgroup K) {l : List (K × α)} (hl : ∀ s ∈ l, s.1 ∈ H)
    {q : K} (hq : q ∈ H) : ∀ s ∈ drop q l, s.1 ∈ H := by
  induction l generalizing q with
  | nil => simp
  | cons t l ih =>
    obtain ⟨ht, hl⟩ := List.forall_mem_cons.1 hl
    rw [drop]
    split_ifs with h
    · exact List.forall_mem_cons.2 ⟨sub_mem ht hq, hl⟩
    · exact ih hl (sub_mem hq ht)

/-- It takes off weights of that subgroup. -/
theorem weight_mem_of_mem_take (H : AddSubgroup K) {l : List (K × α)} (hl : ∀ s ∈ l, s.1 ∈ H)
    {q : K} (hq : q ∈ H) : ∀ s ∈ take q l, s.1 ∈ H := by
  induction l generalizing q with
  | nil => simp
  | cons t l ih =>
    obtain ⟨ht, hl⟩ := List.forall_mem_cons.1 hl
    rw [take]
    split_ifs with h hpos
    · simpa using hq
    · simp
    · exact List.forall_mem_cons.2 ⟨ht, ih hl (sub_mem hq ht)⟩

/-- What is taken off has a positive weight and a label that was there before. -/
theorem pos_and_label_mem_of_mem_take {l : List (K × α)} (hl : Positive l) {q : K} {s : K × α}
    (hs : s ∈ take q l) : 0 < s.1 ∧ ∃ w, (w, s.2) ∈ l := by
  induction l generalizing q with
  | nil => simp at hs
  | cons t l ih =>
    obtain ⟨ht, hl⟩ := (positive_cons t l).1 hl
    rw [take] at hs
    split_ifs at hs with h hq
    · rw [List.mem_singleton.1 hs]
      exact ⟨hq, t.1, List.mem_cons_self⟩
    · cases hs
    · rcases List.mem_cons.1 hs with rfl | hs
      · exact ⟨ht, t.1, List.mem_cons_self⟩
      · obtain ⟨hpos, w, hw⟩ := ih hl hs
        exact ⟨hpos, w, List.mem_cons_of_mem _ hw⟩

section Ordered

variable [IsStrictOrderedRing K]

theorem value_nonneg {f : α → K} {l : List (K × α)} (hl : Positive l) (hf : ∀ s ∈ l, 0 ≤ f s.2) :
    0 ≤ value f l :=
  List.sum_nonneg fun x hx => by
    obtain ⟨s, hs, rfl⟩ := List.mem_map.1 hx
    exact mul_nonneg (hl s hs).le (hf s hs)

theorem weight_nonneg {l : List (K × α)} (hl : Positive l) : 0 ≤ weight l :=
  List.sum_nonneg fun x hx => by
    obtain ⟨s, hs, rfl⟩ := List.mem_map.1 hx
    exact (hl s hs).le

/-- A positive queue is empty exactly when it weighs nothing. -/
theorem weight_eq_zero_iff {l : List (K × α)} (hl : Positive l) : weight l = 0 ↔ l = [] := by
  cases l with
  | nil => simp
  | cons s l =>
    obtain ⟨hs, hl⟩ := (positive_cons s l).1 hl
    have := weight_nonneg hl
    simp only [weight_cons, reduceCtorEq, iff_false]
    linarith

theorem positive_drop {l : List (K × α)} (hl : Positive l) (q : K) : Positive (drop q l) := by
  induction l generalizing q with
  | nil => exact positive_nil
  | cons s l ih =>
    obtain ⟨hs, hl⟩ := (positive_cons s l).1 hl
    rw [drop]
    split_ifs with h
    · exact (positive_cons _ _).2 ⟨sub_pos.2 h, hl⟩
    · exact ih hl _

/-- A cut splits the integral in two. -/
theorem value_take_add_drop (f : α → K) {l : List (K × α)} (hl : Positive l) {q : K}
    (hq : 0 ≤ q) : value f (take q l) + value f (drop q l) = value f l := by
  induction l generalizing q with
  | nil => simp
  | cons s l ih =>
    obtain ⟨hs, hl'⟩ := (positive_cons s l).1 hl
    obtain ⟨w, a⟩ := s
    rcases lt_or_ge q w with h | h
    · rcases hq.lt_or_eq with hq | rfl
      · rw [take_cons_of_lt h hq, drop_cons_of_lt h]
        simp only [value_cons, value_nil]
        ring
      · rw [take_zero hl, drop_zero hl]
        simp
    · rw [take_cons_of_ge h, drop_cons_of_ge h, value_cons, value_cons, add_assoc,
        ih hl' (sub_nonneg.2 h)]

/-! ### Means -/

/-- A lower bound of the labels' values bounds the mean. -/
theorem weight_mul_le_value {f : α → K} {l : List (K × α)} (hl : Positive l) {c : K}
    (h : ∀ s ∈ l, c ≤ f s.2) : weight l * c ≤ value f l := by
  induction l with
  | nil => simp
  | cons s l ih =>
    obtain ⟨hs, hl⟩ := (positive_cons s l).1 hl
    obtain ⟨hc, h⟩ := List.forall_mem_cons.1 h
    have hhead : s.1 * c ≤ s.1 * f s.2 := mul_le_mul_of_nonneg_left hc hs.le
    rw [weight_cons, value_cons, add_mul]
    exact add_le_add hhead (ih hl h)

/-- An upper bound of the labels' values bounds the mean. -/
theorem value_le_weight_mul {f : α → K} {l : List (K × α)} (hl : Positive l) {c : K}
    (h : ∀ s ∈ l, f s.2 ≤ c) : value f l ≤ weight l * c := by
  induction l with
  | nil => simp
  | cons s l ih =>
    obtain ⟨hs, hl⟩ := (positive_cons s l).1 hl
    obtain ⟨hc, h⟩ := List.forall_mem_cons.1 h
    have hhead : s.1 * f s.2 ≤ s.1 * c := mul_le_mul_of_nonneg_left hc hs.le
    rw [weight_cons, value_cons, add_mul]
    exact add_le_add hhead (ih hl h)

theorem weight_take {l : List (K × α)} (hl : Positive l) {q : K} (hq : 0 ≤ q)
    (h : q ≤ weight l) : weight (take q l) = q := by
  induction l generalizing q with
  | nil =>
    simp only [weight_nil] at h
    simp [le_antisymm h hq]
  | cons s l ih =>
    obtain ⟨hs, hl'⟩ := (positive_cons s l).1 hl
    obtain ⟨w, a⟩ := s
    rcases lt_or_ge q w with hw | hw
    · rcases hq.lt_or_eq with hq | rfl
      · rw [take_cons_of_lt hw hq]; simp
      · rw [take_zero hl]; rfl
    · rw [weight_cons] at h
      rw [take_cons_of_ge hw, weight_cons, ih hl' (sub_nonneg.2 hw) (by linarith)]
      ring

theorem weight_drop {l : List (K × α)} (hl : Positive l) {q : K} (hq : 0 ≤ q)
    (h : q ≤ weight l) : weight (drop q l) = weight l - q := by
  have hv := value_take_add_drop (fun _ => 1) hl hq
  rw [← weight_eq_value, ← weight_eq_value, ← weight_eq_value, weight_take hl hq h] at hv
  linarith

/-- Two cuts in a row are one cut. -/
theorem drop_drop {l : List (K × α)} (hl : Positive l) {p q : K} (hp : 0 ≤ p) (hq : 0 ≤ q) :
    drop q (drop p l) = drop (p + q) l := by
  induction l generalizing p with
  | nil => rfl
  | cons s l ih =>
    obtain ⟨hs, hl'⟩ := (positive_cons s l).1 hl
    obtain ⟨w, a⟩ := s
    rcases lt_or_ge p w with h | h
    · rw [drop_cons_of_lt h]
      rcases lt_or_ge (p + q) w with h' | h'
      · rw [drop_cons_of_lt (by linarith), drop_cons_of_lt h']
        congr 2
        ring
      · rw [drop_cons_of_ge (by linarith), drop_cons_of_ge h']
        congr 1
        ring
    · rw [drop_cons_of_ge h, drop_cons_of_ge (by linarith), ih hl' (sub_nonneg.2 h)]
      congr 1
      ring

/-- Cutting off `p + q` units takes the value of the first `p` and of the `q` that follow. -/
theorem value_take_add (f : α → K) {l : List (K × α)} (hl : Positive l) {p q : K} (hp : 0 ≤ p)
    (hq : 0 ≤ q) : value f (take (p + q) l) = value f (take p l) + value f (take q (drop p l)) := by
  have h := value_take_add_drop f hl (add_nonneg hp hq)
  have hpl := value_take_add_drop f hl hp
  have hql := value_take_add_drop f (positive_drop hl p) hq
  rw [drop_drop hl hp hq] at hql
  linarith

theorem take_append {l m : List (K × α)} (hl : Positive l) (hm : Positive m) {q : K}
    (hq : 0 ≤ q) (h : q ≤ weight l) : take q (l ++ m) = take q l := by
  induction l generalizing q with
  | nil =>
    simp only [weight_nil] at h
    rw [le_antisymm h hq, List.nil_append, take_zero hm, take_nil]
  | cons s l ih =>
    obtain ⟨hs, hl'⟩ := (positive_cons s l).1 hl
    rw [weight_cons] at h
    rw [List.cons_append, take, take]
    split_ifs with hw
    · rfl
    · rfl
    · rw [ih hl' (by linarith) (by linarith)]

theorem drop_append {l m : List (K × α)} (hl : Positive l) (hm : Positive m) {q : K}
    (hq : 0 ≤ q) (h : q ≤ weight l) : drop q (l ++ m) = drop q l ++ m := by
  induction l generalizing q with
  | nil =>
    simp only [weight_nil] at h
    rw [le_antisymm h hq, List.nil_append, drop_zero hm, drop_nil, List.nil_append]
  | cons s l ih =>
    obtain ⟨hs, hl'⟩ := (positive_cons s l).1 hl
    rw [weight_cons] at h
    rw [List.cons_append, drop, drop]
    split_ifs with hw
    · rfl
    · exact ih hl' (by linarith) (by linarith)

end Ordered

/-! ### Spans on an axis -/

/-- A segment placed on the axis. -/
structure Span (K α : Type*) where
  start : K
  stop : K
  label : α

/-- The segments of a queue laid end to end, the first one starting at `b`. -/
def layOut : K → List (K × α) → List (Span K α)
  | _, [] => []
  | b, (w, a) :: l => ⟨b, b + w, a⟩ :: layOut (b + w) l

/-- The part of a span inside `[lo, hi]`, when it is not empty. -/
def Span.meet (lo hi : K) (s : Span K α) : Option (K × α) :=
  if 0 < min s.stop hi - max s.start lo then some (min s.stop hi - max s.start lo, s.label)
  else none

/-- The part of a span to the right of `lo`, when it is not empty. -/
def Span.rightOf (lo : K) (s : Span K α) : Option (K × α) :=
  if 0 < s.stop - max s.start lo then some (s.stop - max s.start lo, s.label) else none

variable [IsStrictOrderedRing K]

theorem meet_eq_nil_of_le {l : List (K × α)} (hl : Positive l) {lo hi b : K} (hb : hi ≤ b) :
    (layOut b l).filterMap (Span.meet lo hi) = [] := by
  induction l generalizing b with
  | nil => rfl
  | cons s l ih =>
    obtain ⟨hs, hl⟩ := (positive_cons s l).1 hl
    have hnone : Span.meet lo hi ⟨b, b + s.1, s.2⟩ = none := by
      rw [Span.meet, if_neg]
      have := min_le_right (b + s.1) hi
      have := le_max_left b lo
      simp only
      linarith
    rw [layOut, List.filterMap_cons_none hnone, ih hl (by linarith)]

theorem take_eq_meet {l : List (K × α)} (hl : Positive l) {lo hi b : K} (hlo : lo ≤ b)
    (hhi : b ≤ hi) : take (hi - b) l = (layOut b l).filterMap (Span.meet lo hi) := by
  induction l generalizing b with
  | nil => rfl
  | cons s l ih =>
    obtain ⟨hs, hl'⟩ := (positive_cons s l).1 hl
    obtain ⟨w, a⟩ := s
    simp only at hs
    rcases lt_or_ge (hi - b) w with h | h
    · rcases hhi.lt_or_eq with hhi | rfl
      · have hsome : Span.meet lo hi ⟨b, b + w, a⟩ = some (hi - b, a) := by
          rw [Span.meet, min_eq_right (by simp only; linarith), max_eq_left hlo,
            if_pos (sub_pos.2 hhi)]
        rw [take_cons_of_lt h (sub_pos.2 hhi), layOut, List.filterMap_cons_some hsome,
          meet_eq_nil_of_le hl' (by linarith)]
      · rw [sub_self, take_zero hl, meet_eq_nil_of_le hl le_rfl]
    · have hsome : Span.meet lo hi ⟨b, b + w, a⟩ = some (w, a) := by
        rw [Span.meet, min_eq_left (by simp only; linarith), max_eq_left hlo, add_sub_cancel_left,
          if_pos hs]
      rw [take_cons_of_ge h, layOut, List.filterMap_cons_some hsome, sub_sub,
        ih hl' (by linarith) (by linarith)]

/-- The units between `lo` and `hi` of a queue are its intersections with `[lo, hi]`. -/
theorem take_drop_eq_meet {l : List (K × α)} (hl : Positive l) {lo hi b : K} (hb : b ≤ lo)
    (hhi : lo ≤ hi) :
    take (hi - lo) (drop (lo - b) l) = (layOut b l).filterMap (Span.meet lo hi) := by
  induction l generalizing b with
  | nil => rfl
  | cons s l ih =>
    obtain ⟨hs, hl'⟩ := (positive_cons s l).1 hl
    obtain ⟨w, a⟩ := s
    simp only at hs
    rcases lt_or_ge (lo - b) w with h | h
    · -- The cut at `lo` falls inside the first segment.
      rw [drop_cons_of_lt h, layOut]
      rcases lt_or_ge (hi - lo) (w - (lo - b)) with h' | h'
      · rcases hhi.lt_or_eq with hhi | rfl
        · have hsome : Span.meet lo hi ⟨b, b + w, a⟩ = some (hi - lo, a) := by
            rw [Span.meet, min_eq_right (by simp only; linarith), max_eq_right hb,
              if_pos (sub_pos.2 hhi)]
          rw [take_cons_of_lt h' (sub_pos.2 hhi), List.filterMap_cons_some hsome,
            meet_eq_nil_of_le hl' (by linarith)]
        · have hnone : Span.meet lo lo ⟨b, b + w, a⟩ = none := by
            rw [Span.meet, min_eq_right (by simp only; linarith), max_eq_right hb, sub_self,
              if_neg (lt_irrefl 0)]
          rw [sub_self, take, if_pos (by linarith), if_neg (lt_irrefl 0),
            List.filterMap_cons_none hnone, meet_eq_nil_of_le hl' (by linarith)]
      · have hsome : Span.meet lo hi ⟨b, b + w, a⟩ = some (w - (lo - b), a) := by
          have hlen : b + w - lo = w - (lo - b) := by ring
          rw [Span.meet, min_eq_left (by simp only; linarith), max_eq_right hb,
            if_pos (by linarith), hlen]
        rw [take_cons_of_ge h', List.filterMap_cons_some hsome,
          ← take_eq_meet hl' (by linarith : lo ≤ b + w) (by linarith)]
        congr 2
        ring
    · -- The whole first segment lies to the left of `lo`.
      have hnone : Span.meet lo hi ⟨b, b + w, a⟩ = none := by
        rw [Span.meet, min_eq_left (by simp only; linarith), max_eq_right hb, if_neg (by linarith)]
      rw [drop_cons_of_ge h, layOut, List.filterMap_cons_none hnone, sub_sub,
        ih hl' (by linarith)]

/-- Units that lie within the first part of a queue are intersections with the whole queue. -/
theorem take_drop_eq_meet_append {l m : List (K × α)} (hl : Positive l) (hm : Positive m)
    {lo hi : K} (h0 : 0 ≤ lo) (hhi : lo ≤ hi) (h : hi ≤ weight l) :
    take (hi - lo) (drop lo l) = (layOut 0 (l ++ m)).filterMap (Span.meet lo hi) := by
  have hw : hi - lo ≤ weight (drop lo l) := by
    rw [weight_drop hl h0 (hhi.trans h)]
    linarith
  rw [← take_drop_eq_meet ((positive_append l m).2 ⟨hl, hm⟩) h0 hhi, sub_zero,
    drop_append hl hm h0 (hhi.trans h), take_append (positive_drop hl lo) hm (sub_nonneg.2 hhi) hw]

theorem rightOf_eq_self {l : List (K × α)} (hl : Positive l) {lo b : K} (hlo : lo ≤ b) :
    (layOut b l).filterMap (Span.rightOf lo) = l := by
  induction l generalizing b with
  | nil => rfl
  | cons s l ih =>
    obtain ⟨hs, hl⟩ := (positive_cons s l).1 hl
    have hsome : Span.rightOf lo ⟨b, b + s.1, s.2⟩ = some s := by
      rw [Span.rightOf, max_eq_left hlo, add_sub_cancel_left, if_pos hs]
    rw [layOut, List.filterMap_cons_some hsome, ih hl (by linarith)]

/-- What is left of a queue after `lo` is what lies to the right of `lo`. -/
theorem drop_eq_rightOf {l : List (K × α)} (hl : Positive l) {lo b : K} (hb : b ≤ lo) :
    drop (lo - b) l = (layOut b l).filterMap (Span.rightOf lo) := by
  induction l generalizing b with
  | nil => rfl
  | cons s l ih =>
    obtain ⟨hs, hl'⟩ := (positive_cons s l).1 hl
    obtain ⟨w, a⟩ := s
    simp only at hs
    rcases lt_or_ge (lo - b) w with h | h
    · have hsome : Span.rightOf lo ⟨b, b + w, a⟩ = some (w - (lo - b), a) := by
        have hlen : b + w - lo = w - (lo - b) := by ring
        rw [Span.rightOf, max_eq_right hb, if_pos (by simp only; linarith), hlen]
      rw [drop_cons_of_lt h, layOut, List.filterMap_cons_some hsome,
        rightOf_eq_self hl' (by linarith)]
    · have hnone : Span.rightOf lo ⟨b, b + w, a⟩ = none := by
        rw [Span.rightOf, max_eq_right hb, if_neg (by simp only; linarith)]
      rw [drop_cons_of_ge h, layOut, List.filterMap_cons_none hnone, sub_sub,
        ih hl' (by linarith)]

end Segments

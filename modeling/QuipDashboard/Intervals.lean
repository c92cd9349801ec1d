/-
Lists of closed intervals.

A set of points of a linear order is often kept as a list of closed intervals.
When the intervals are nonempty, in order, and leave out at least one point
between any two of them, the list is determined by its points.

* `Separated.ext` — **separated lists with the same points are equal**;
* `Separated.ordered` — separated intervals are in order and disjoint;
* `points_clip`, `Separated.clip` — cutting off what lies outside of an interval.
-/
import Mathlib.Order.SuccPred.Basic
import Mathlib.Order.Interval.Set.Basic
import Mathlib.Tactic.Common

namespace Intervals

variable {α : Type*} [LinearOrder α]

/-- The points of a list of closed intervals. -/
def points (l : List (α × α)) : Set α := {x | ∃ g ∈ l, g.1 ≤ x ∧ x ≤ g.2}

theorem mem_points {l : List (α × α)} {x : α} : x ∈ points l ↔ ∃ g ∈ l, g.1 ≤ x ∧ x ≤ g.2 := Iff.rfl

@[simp] theorem points_nil : points ([] : List (α × α)) = ∅ := by
  ext x
  simp [points]

theorem points_cons (g : α × α) (l : List (α × α)) :
    points (g :: l) = Set.Icc g.1 g.2 ∪ points l := by
  ext x
  simp [points]

theorem points_append (l l' : List (α × α)) : points (l ++ l') = points l ∪ points l' := by
  ext x
  simp only [mem_points, List.mem_append, Set.mem_union, or_and_right, exists_or]

/-- What remains of one interval between `lo` and `hi`. -/
def clipOne (lo hi : α) (g : α × α) : Option (α × α) :=
  if max g.1 lo ≤ min g.2 hi then some (max g.1 lo, min g.2 hi) else none

/-- What remains of the intervals between `lo` and `hi`. -/
def clip (lo hi : α) (l : List (α × α)) : List (α × α) := l.filterMap (clipOne lo hi)

theorem clipOne_eq_some {lo hi : α} {g k : α × α} :
    clipOne lo hi g = some k ↔ k.1 = max g.1 lo ∧ k.2 = min g.2 hi ∧ k.1 ≤ k.2 := by
  unfold clipOne
  split
  · rename_i hle
    constructor
    · rintro ⟨rfl⟩
      exact ⟨rfl, rfl, hle⟩
    · rintro ⟨h₁, h₂, -⟩
      rw [← h₁, ← h₂]
  · rename_i hle
    constructor
    · intro h
      cases h
    · rintro ⟨h₁, h₂, h⟩
      rw [h₁, h₂] at h
      exact (hle h).elim

theorem points_clip (lo hi : α) (l : List (α × α)) :
    points (clip lo hi l) = points l ∩ Set.Icc lo hi := by
  ext x
  simp only [mem_points, clip, List.mem_filterMap, clipOne_eq_some, Set.mem_inter_iff, Set.mem_Icc]
  constructor
  · rintro ⟨k, ⟨g, hg, h₁, h₂, -⟩, hle, hge⟩
    rw [h₁, max_le_iff] at hle
    rw [h₂, le_min_iff] at hge
    exact ⟨⟨g, hg, hle.1, hge.1⟩, hle.2, hge.2⟩
  · rintro ⟨⟨g, hg, hle, hge⟩, hlo, hhi⟩
    have h₁ : max g.1 lo ≤ x := max_le hle hlo
    have h₂ : x ≤ min g.2 hi := le_min hge hhi
    exact ⟨(max g.1 lo, min g.2 hi), ⟨g, hg, rfl, rfl, h₁.trans h₂⟩, h₁, h₂⟩

variable [SuccOrder α]

/-- Nonempty intervals, in order, with a point left out between any two. -/
structure Separated (l : List (α × α)) : Prop where
  nonempty : ∀ g ∈ l, g.1 ≤ g.2
  apart : l.Pairwise fun g g' => Order.succ g.2 < g'.1

namespace Separated

variable {g g' : α × α} {l l' : List (α × α)}

theorem nil : Separated ([] : List (α × α)) := ⟨by simp, List.Pairwise.nil⟩

theorem tail (h : Separated (g :: l)) : Separated l :=
  ⟨fun x hx => h.nonempty x (List.mem_cons_of_mem g hx), h.apart.tail⟩

/-- The intervals are in order and disjoint. -/
theorem ordered (h : Separated l) : l.Pairwise fun g g' => g.2 < g'.1 :=
  h.apart.imp fun {g _} hg => (Order.le_succ g.2).trans_lt hg

/-- Two separated lists, one above the other. -/
theorem append (h : Separated l) (h' : Separated l')
    (hlt : ∀ g ∈ l, ∀ g' ∈ l', Order.succ g.2 < g'.1) : Separated (l ++ l') := by
  refine ⟨?_, List.pairwise_append.mpr ⟨h.apart, h'.apart, hlt⟩⟩
  intro g hg
  rcases List.mem_append.mp hg with hg | hg
  · exact h.nonempty g hg
  · exact h'.nonempty g hg

/-- Clipping keeps separated intervals separated. -/
theorem clip (lo hi : α) (h : Separated l) : Separated (clip lo hi l) := by
  constructor
  · intro k hk
    obtain ⟨g, -, hgk⟩ := List.mem_filterMap.mp hk
    exact (clipOne_eq_some.mp hgk).2.2
  · refine List.Pairwise.filterMap _ ?_ h.apart
    intro g g' hlt k hk k' hk'
    obtain ⟨-, h₂, -⟩ := clipOne_eq_some.mp (Option.mem_def.mp hk)
    obtain ⟨h₁, -, -⟩ := clipOne_eq_some.mp (Option.mem_def.mp hk')
    calc Order.succ k.2 ≤ Order.succ g.2 := Order.succ_le_succ (h₂ ▸ min_le_left _ _)
      _ < g'.1 := hlt
      _ ≤ k'.1 := h₁ ▸ le_max_left _ _

/-- The first interval begins with the least point. -/
theorem isLeast (h : Separated (g :: l)) : IsLeast (points (g :: l)) g.1 := by
  have hg := h.nonempty g List.mem_cons_self
  refine ⟨⟨g, List.mem_cons_self, le_refl _, hg⟩, ?_⟩
  rintro x ⟨g', hg', hle, -⟩
  rcases List.mem_cons.mp hg' with rfl | hmem
  · exact hle
  · exact (hg.trans_lt (List.rel_of_pairwise_cons h.ordered hmem)).le.trans hle

/-- What follows the first interval are the points above it. -/
theorem mem_tail (h : Separated (g :: l)) {x : α} :
    x ∈ points l ↔ x ∈ points (g :: l) ∧ g.2 < x := by
  constructor
  · rintro ⟨g', hg', hle, hge⟩
    refine ⟨⟨g', List.mem_cons_of_mem g hg', hle, hge⟩, ?_⟩
    exact (List.rel_of_pairwise_cons h.ordered hg').trans_le hle
  · rintro ⟨⟨g', hg', hle, hge⟩, hlt⟩
    rcases List.mem_cons.mp hg' with rfl | hmem
    · exact (not_lt.mpr hge hlt).elim
    · exact ⟨g', hmem, hle, hge⟩

/-- The first interval of one list does not go further than that of another list
with the same points. -/
theorem head_le (h : Separated (g :: l)) (h' : Separated (g' :: l'))
    (hp : points (g :: l) = points (g' :: l')) : g'.2 ≤ g.2 := by
  have hfst : g.1 = g'.1 := h.isLeast.unique (hp ▸ h'.isLeast)
  by_contra hlt
  -- the point after the end of `g` belongs to `g'`, but to no interval of `g :: l`
  have hlt := not_le.mp hlt
  have hmem : Order.succ g.2 ∈ points (g' :: l') := by
    refine ⟨g', List.mem_cons_self, ?_, Order.succ_le_of_lt hlt⟩
    rw [← hfst]
    exact (h.nonempty g List.mem_cons_self).trans (Order.le_succ _)
  rw [← hp] at hmem
  obtain ⟨k, hk, hle, hge⟩ := hmem
  rcases List.mem_cons.mp hk with rfl | hk
  · exact not_lt.mpr hge (Order.lt_succ_of_not_isMax fun hmax => not_lt.mpr (hmax hlt.le) hlt)
  · exact not_lt.mpr hle (List.rel_of_pairwise_cons h.apart hk)

/-- **Separated lists with the same points are equal.** -/
theorem ext (h : Separated l) (h' : Separated l') (hp : points l = points l') : l = l' := by
  induction l generalizing l' with
  | nil =>
    cases l' with
    | nil => rfl
    | cons g' l' =>
      have hmem := h'.isLeast.1
      rw [← hp, points_nil] at hmem
      exact hmem.elim
  | cons g l ih =>
    cases l' with
    | nil =>
      have hmem := h.isLeast.1
      rw [hp, points_nil] at hmem
      exact hmem.elim
    | cons g' l' =>
      have hfst : g.1 = g'.1 := h.isLeast.unique (hp ▸ h'.isLeast)
      have hsnd : g.2 = g'.2 := le_antisymm (h'.head_le h hp.symm) (h.head_le h' hp)
      have htail : points l = points l' := by
        ext x
        rw [h.mem_tail, h'.mem_tail, hp, hsnd]
      rw [Prod.ext hfst hsnd, ih h.tail h'.tail htail]

end Separated

end Intervals

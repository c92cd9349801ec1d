/-
Neighbours in the order of a key.

Among elements with distinct keys, the one before an element in sorted order is the
one with the greatest key below its own.

* `greatest_perm` — the greatest of some elements does not depend on their order;
* `withPrevious_sorted` — **in a sorted list the previous element is the predecessor**;
* `withPrevious_sort` — the same of any list and its sorted rearrangement.
-/
import Mathlib.Data.List.Perm.Basic
import Mathlib.Data.List.Nodup
import Mathlib.Order.Lattice
import Mathlib.Tactic.Common

namespace Neighbours

variable {α β : Type*}

/-! ### The greatest element and the predecessor -/

section

variable (lt : α → α → Prop) [DecidableRel lt]

/-- The first row of a descending order. -/
def greatest : List α → Option α
  | [] => none
  | a :: l =>
    match greatest l with
    | some b => if lt a b then some b else some a
    | none => some a

/-- The greatest of the elements below an element. -/
def predecessor (l : List α) (b : α) : Option α := greatest lt (l.filter fun a => lt a b)

theorem greatest_eq_none {l : List α} : greatest lt l = none ↔ l = [] := by
  cases l with
  | nil => simp [greatest]
  | cons a l =>
    simp only [greatest, reduceCtorEq, iff_false]
    split
    · split <;> simp
    · simp

theorem mem_of_greatest {l : List α} {a : α} (h : greatest lt l = some a) : a ∈ l := by
  induction l generalizing a with
  | nil => cases h
  | cons x l ih =>
    rw [greatest] at h
    split at h
    · rename_i b hb
      split at h
      · cases h
        exact List.mem_cons_of_mem x (ih hb)
      · cases h
        exact List.mem_cons_self
    · cases h
      exact List.mem_cons_self

variable {lt}

/-- The greatest element depends only on how the elements compare. -/
theorem greatest_congr {lt' : α → α → Prop} [DecidableRel lt'] {l : List α}
    (h : ∀ a ∈ l, ∀ b ∈ l, lt a b ↔ lt' a b) : greatest lt l = greatest lt' l := by
  induction l with
  | nil => rfl
  | cons x l ih =>
    rw [greatest, greatest,
      ih fun a ha b hb => h a (List.mem_cons_of_mem x ha) b (List.mem_cons_of_mem x hb)]
    cases hg : greatest lt' l with
    | none => rfl
    | some b =>
      have hb := List.mem_cons_of_mem x (mem_of_greatest lt' hg)
      exact if_congr (h x List.mem_cons_self b hb) rfl rfl

theorem predecessor_congr {lt' : α → α → Prop} [DecidableRel lt'] {l : List α} {b : α}
    (hb : b ∈ l) (h : ∀ a ∈ l, ∀ b ∈ l, lt a b ↔ lt' a b) :
    predecessor lt l b = predecessor lt' l b := by
  have hfilter : (l.filter fun a => lt a b) = l.filter fun a => lt' a b :=
    List.filter_congr fun a ha => decide_eq_decide.mpr (h a ha b hb)
  rw [predecessor, predecessor, hfilter]
  refine greatest_congr fun a ha c hc => ?_
  exact h a (List.mem_of_mem_filter ha) c (List.mem_of_mem_filter hc)

theorem greatest_map {γ : Type*} {lt' : γ → γ → Prop} [DecidableRel lt'] (f : γ → α)
    (h : ∀ a b, lt' a b ↔ lt (f a) (f b)) (l : List γ) :
    greatest lt (l.map f) = (greatest lt' l).map f := by
  induction l with
  | nil => rfl
  | cons x l ih =>
    rw [List.map_cons, greatest, greatest, ih]
    cases greatest lt' l with
    | none => rfl
    | some b =>
      by_cases hlt : lt' x b
      · simp [hlt, (h x b).mp hlt]
      · simp [hlt, mt (h x b).mpr hlt]

theorem predecessor_map {γ : Type*} {lt' : γ → γ → Prop} [DecidableRel lt'] (f : γ → α)
    (h : ∀ a b, lt' a b ↔ lt (f a) (f b)) (l : List γ) (b : γ) :
    predecessor lt (l.map f) (f b) = (predecessor lt' l b).map f := by
  have hfilter : (l.map f).filter (fun a => lt a (f b)) = (l.filter fun a => lt' a b).map f := by
    rw [List.filter_map]
    exact congrArg (List.map f) (List.filter_congr fun a _ => decide_eq_decide.mpr (h a b).symm)
  rw [predecessor, predecessor, hfilter, greatest_map f h]

end

/-- The only element of a key. -/
theorem filter_key_eq [DecidableEq β] {key : α → β} {l : List α} (hk : (l.map key).Nodup) {a : α}
    (ha : a ∈ l) : (l.filter fun b => key b = key a) = [a] := by
  induction l with
  | nil => cases ha
  | cons x l ih =>
    obtain ⟨hx, hl⟩ := List.nodup_cons.mp hk
    rcases List.mem_cons.mp ha with rfl | ha
    · have hrest : (l.filter fun b => key b = key a) = [] := by
        rw [List.filter_eq_nil_iff]
        intro b hb heq
        exact hx (List.mem_map.mpr ⟨b, hb, of_decide_eq_true heq⟩)
      rw [List.filter_cons, if_pos (decide_eq_true rfl), hrest]
    · have hne : ¬decide (key x = key a) = true := by
        intro heq
        exact hx (List.mem_map.mpr ⟨a, ha, (of_decide_eq_true heq).symm⟩)
      rw [List.filter_cons, if_neg hne]
      exact ih hl ha

/-! ### By a key -/

section

variable [LinearOrder β] (key : α → β)

/-- Less by the key. -/
def KeyLess (a b : α) : Prop := key a < key b

instance : DecidableRel (KeyLess key) := fun a b => inferInstanceAs (Decidable (key a < key b))

variable {key}

theorem le_greatest {l : List α} {a : α} (h : greatest (KeyLess key) l = some a) :
    ∀ b ∈ l, key b ≤ key a := by
  induction l generalizing a with
  | nil => cases h
  | cons x l ih =>
    rw [greatest] at h
    split at h
    · rename_i b hb
      split at h
      · rename_i hlt
        cases h
        intro y hy
        rcases List.mem_cons.mp hy with rfl | hy
        · exact le_of_lt hlt
        · exact ih hb y hy
      · rename_i hlt
        cases h
        intro y hy
        rcases List.mem_cons.mp hy with rfl | hy
        · exact le_rfl
        · exact (ih hb y hy).trans (not_lt.mp hlt)
    · rename_i hnone
      cases h
      intro y hy
      rw [(greatest_eq_none (KeyLess key)).mp hnone, List.mem_singleton] at hy
      rw [hy]

/-- The greatest of some elements does not depend on their order. -/
theorem greatest_perm {l l' : List α} (hk : (l.map key).Nodup) (h : l.Perm l') :
    greatest (KeyLess key) l = greatest (KeyLess key) l' := by
  cases hg : greatest (KeyLess key) l with
  | none =>
    rw [(greatest_eq_none (KeyLess key)).mp hg] at h
    rw [← h.nil_eq, greatest]
  | some a =>
    cases hg' : greatest (KeyLess key) l' with
    | none =>
      rw [(greatest_eq_none (KeyLess key)).mp hg'] at h
      rw [h.eq_nil, greatest] at hg
      cases hg
    | some b =>
      have ha := mem_of_greatest (KeyLess key) hg
      have hb := h.mem_iff.mpr (mem_of_greatest (KeyLess key) hg')
      have hba := le_greatest hg b hb
      have hab := le_greatest hg' a (h.mem_iff.mp ha)
      exact congrArg some (List.inj_on_of_nodup_map hk ha hb (le_antisymm hab hba))

theorem predecessor_perm {l l' : List α} (hk : (l.map key).Nodup) (h : l.Perm l') (b : α) :
    predecessor (KeyLess key) l b = predecessor (KeyLess key) l' b :=
  greatest_perm (hk.sublist (List.filter_sublist.map key)) (h.filter _)

/-! ### Sorted lists -/

/-- Each element with the one before it. -/
def withPrevious : Option α → List α → List (Option α × α)
  | _, [] => []
  | previous, a :: l => (previous, a) :: withPrevious (some a) l

/-- The greatest element of a sorted list is its last. -/
theorem greatest_sorted {l : List α} (h : l.Pairwise (KeyLess key)) :
    greatest (KeyLess key) l = l.getLast? := by
  induction l with
  | nil => rfl
  | cons a l ih =>
    obtain ⟨ha, hl⟩ := List.pairwise_cons.mp h
    rw [greatest, ih hl, List.getLast?_cons]
    cases hlast : l.getLast? with
    | none => rfl
    | some b => exact if_pos (ha b (List.mem_of_getLast? hlast))

/-- The elements below one of a sorted list are those before it. -/
theorem predecessor_append {before after : List α} {b : α}
    (h : (before ++ b :: after).Pairwise (KeyLess key)) :
    predecessor (KeyLess key) (before ++ b :: after) b = before.getLast? := by
  obtain ⟨hbefore, hrest, hcross⟩ := List.pairwise_append.mp h
  obtain ⟨hafter, -⟩ := List.pairwise_cons.mp hrest
  have hfirst : (before.filter fun a => decide (KeyLess key a b)) = before := by
    rw [List.filter_eq_self]
    intro a ha
    exact decide_eq_true (hcross a ha b List.mem_cons_self)
  have hsecond : ((b :: after).filter fun a => decide (KeyLess key a b)) = [] := by
    rw [List.filter_eq_nil_iff]
    intro a ha hlt
    have hlt : key a < key b := of_decide_eq_true hlt
    rcases List.mem_cons.mp ha with rfl | ha
    · exact lt_irrefl _ hlt
    · exact lt_asymm hlt (hafter a ha)
  rw [predecessor, List.filter_append, hfirst, hsecond, List.append_nil, greatest_sorted hbefore]

theorem withPrevious_suffix {before after : List α}
    (h : (before ++ after).Pairwise (KeyLess key)) :
    withPrevious before.getLast? after
      = after.map fun b => (predecessor (KeyLess key) (before ++ after) b, b) := by
  induction after generalizing before with
  | nil => rfl
  | cons b after ih =>
    have happ : before ++ b :: after = (before ++ [b]) ++ after := by simp
    have hrest := ih (happ ▸ h)
    rw [List.getLast?_concat] at hrest
    rw [withPrevious, List.map_cons, predecessor_append h, hrest, happ]

/-- **In a sorted list the previous element is the predecessor.** -/
theorem withPrevious_sorted {l : List α} (h : l.Pairwise (KeyLess key)) :
    withPrevious none l = l.map fun b => (predecessor (KeyLess key) l b, b) :=
  by
  have h : ([] ++ l).Pairwise (KeyLess key) := h
  exact withPrevious_suffix h

/-- The pairs of a sorted list are those of any of its rearrangements. -/
theorem withPrevious_sort {l sorted : List α} (hk : (l.map key).Nodup) (hp : sorted.Perm l)
    (h : sorted.Pairwise (KeyLess key)) :
    (withPrevious none sorted).Perm (l.map fun b => (predecessor (KeyLess key) l b, b)) := by
  have hpred : (fun b => (predecessor (KeyLess key) sorted b, b))
      = fun b => (predecessor (KeyLess key) l b, b) := by
    funext b
    rw [predecessor_perm hk hp.symm b]
  rw [withPrevious_sorted h, hpred]
  exact hp.map _

end

end Neighbours

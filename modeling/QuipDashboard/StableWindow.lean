/-
The last elements of a stable sort, kept in batches.

A buffer of the newest elements may be sorted and cut while elements still arrive:
an element that is not among the last `k` of a stable sort is not among them when
more elements have arrived, and the kept ones stand in the order of the full sort.

* `mergeSort_append_eq` — a stable sort inserts its elements from the last to the first;
* `keepLast_append` — **cutting early changes nothing**.
-/
import Mathlib.Data.List.Sort
import Mathlib.Data.List.TakeWhile
import Mathlib.Tactic.Common

namespace StableWindow

variable {α : Type*} {le : α → α → Bool}

/-- Insert an element before all that it is not behind. -/
abbrev insert (le : α → α → Bool) (a : α) (l : List α) : List α :=
  l.orderedInsert (fun a b => le a b = true) a

/-- The last `k` elements of the stable sort. -/
def keepLast (le : α → α → Bool) (k : ℕ) (l : List α) : List α :=
  (l.mergeSort le).drop (l.length - k)

theorem keepLast_length {k : ℕ} {l : List α} (h : k ≤ l.length) :
    (keepLast le k l).length = k := by
  rw [keepLast, List.length_drop, List.length_mergeSort]
  omega

theorem insert_of_le {a b : α} (h : le a b = true) (l : List α) :
    insert le a (b :: l) = a :: b :: l :=
  List.orderedInsert_cons_of_le _ l h

theorem insert_of_not_le {a b : α} (h : le a b = false) (l : List α) :
    insert le a (b :: l) = b :: insert le a l :=
  List.orderedInsert_of_not_le (fun a b => le a b = true) l (by simp [h])

/-- Insertion splits the list at the first element that the new one is not behind. -/
theorem insert_append_of_split {a : α} {front back : List α}
    (hfront : ∀ b ∈ front, le a b = false) (hback : ∀ b ∈ back, le a b = true) :
    insert le a (front ++ back) = front ++ a :: back := by
  induction front with
  | nil =>
    rcases back with _ | ⟨b, back⟩
    · rfl
    · exact insert_of_le (hback b (by simp)) _
  | cons c front ih =>
    rw [List.cons_append, insert_of_not_le (hfront c (by simp)),
      ih fun b hb => hfront b (by simp [hb])]
    rfl

section Preorder

variable (trans : ∀ a b c, le a b = true → le b c = true → le a c = true)
  (total : ∀ a b, (le a b || le b a) = true)

include trans total

theorem mergeSort_cons_eq (a : α) (l : List α) :
    (a :: l).mergeSort le = insert le a (l.mergeSort le) := by
  obtain ⟨front, back, hcons, hl, hfront⟩ := List.mergeSort_cons trans total a l
  have hsorted := List.pairwise_mergeSort trans total (a :: l)
  rw [hcons] at hsorted
  have hback := (List.pairwise_cons.mp (List.pairwise_append.mp hsorted).2.1).1
  rw [hcons, hl]
  exact (insert_append_of_split (fun b hb => by simpa using hfront b hb) hback).symm

/-- **The stable sort inserts the first elements into the sorted last ones.** -/
theorem mergeSort_append_eq (xs ys : List α) :
    (xs ++ ys).mergeSort le = xs.foldr (insert le) (ys.mergeSort le) := by
  induction xs with
  | nil => rfl
  | cons x xs ih => rw [List.cons_append, mergeSort_cons_eq trans total, ih, List.foldr_cons]

/-- Two elements, one strictly before the other, are inserted in any order. -/
theorem insert_comm {a b : α} (h : le a b = false) (l : List α) :
    insert le a (insert le b l) = insert le b (insert le a l) := by
  have hba : le b a = true := by simpa [h] using total a b
  induction l with
  | nil => simp [insert, h, hba]
  | cons c l ih =>
    cases hbc : le b c with
    | true =>
      rw [insert_of_le hbc, insert_of_not_le h]
      cases hac : le a c with
      | true => rw [insert_of_le hac, insert_of_le hba]
      | false => rw [insert_of_not_le hac, insert_of_le hbc]
    | false =>
      have hac : le a c = false := by
        by_contra hac
        rw [trans b a c hba (by simpa using hac)] at hbc
        cases hbc
      rw [insert_of_not_le hbc, insert_of_not_le hac, insert_of_not_le hac,
        insert_of_not_le hbc, ih]

/-- An element is inserted before or after elements that stand strictly before it. -/
theorem foldr_insert_middle {a : α} {front : List α} (h : ∀ b ∈ front, le a b = false)
    (l : List α) : front.foldr (insert le) (insert le a l) =
      insert le a (front.foldr (insert le) l) := by
  induction front with
  | nil => rfl
  | cons b front ih =>
    rw [List.foldr_cons, List.foldr_cons, ih fun c hc => h c (by simp [hc]),
      insert_comm trans total (h b (by simp))]

/-- Elements may be sorted before they are inserted. -/
theorem foldr_insert_mergeSort (xs l : List α) :
    (xs.mergeSort le).foldr (insert le) l = xs.foldr (insert le) l := by
  induction xs with
  | nil => simp
  | cons x xs ih =>
    obtain ⟨front, back, hcons, hxs, hfront⟩ := List.mergeSort_cons trans total x xs
    rw [hcons, List.foldr_append, List.foldr_cons,
      foldr_insert_middle trans total (fun b hb => by simpa using hfront b hb),
      ← List.foldr_append, ← hxs, ih, List.foldr_cons]

omit trans total in
/-- An element that `k` others are not before leaves the last `k` as they are. -/
theorem drop_insert {a : α} {l : List α} {k : ℕ} (h : k ≤ l.countP (le a)) :
    (insert le a l).drop (l.length + 1 - k) = l.drop (l.length - k) := by
  have hinsert := List.orderedInsert_eq_take_drop (fun a b => le a b = true) a l
  have hl := List.takeWhile_append_dropWhile (p := fun b => decide ¬ le a b = true) (l := l)
  revert hinsert hl
  generalize hfront : l.takeWhile (fun b => decide ¬ le a b = true) = front
  generalize l.dropWhile (fun b => decide ¬ le a b = true) = back
  rintro hinsert rfl
  have hzero : front.countP (le a) = 0 := by
    rw [List.countP_eq_zero]
    intro b hb
    rw [← hfront] at hb
    simpa using List.mem_takeWhile_imp hb
  have hk : k ≤ back.length := by
    rw [List.countP_append, hzero, Nat.zero_add] at h
    exact le_trans h List.countP_le_length
  rw [insert, hinsert, List.length_append]
  have hleft : front.length + back.length + 1 - k = front.length + (back.length + 1 - k) := by
    omega
  have hright : front.length + back.length - k = front.length + (back.length - k) := by omega
  rw [hleft, hright, ← List.drop_drop, ← List.drop_drop, List.drop_left, List.drop_left,
    show back.length + 1 - k = (back.length - k) + 1 by omega, List.drop_succ_cons]

omit trans total in
theorem drop_foldr_insert {front l : List α} {k : ℕ}
    (h : ∀ a ∈ front, k ≤ l.countP (le a)) :
    (front.foldr (insert le) l).length = front.length + l.length ∧
    (front.foldr (insert le) l).drop (front.length + l.length - k) =
      l.drop (l.length - k) ∧ ∀ a, l.countP (le a) ≤ (front.foldr (insert le) l).countP (le a) := by
  induction front with
  | nil => simp
  | cons b front ih =>
    obtain ⟨hlen, hdrop, hcount⟩ := ih fun a ha => h a (by simp [ha])
    have hperm := List.perm_orderedInsert (fun a b => le a b = true) b
      (front.foldr (insert le) l)
    refine ⟨?_, ?_, fun a => ?_⟩
    · rw [List.foldr_cons, hperm.length_eq, List.length_cons, hlen, List.length_cons]
      omega
    · rw [List.foldr_cons, ← hdrop, ← hlen,
        show (b :: front).length + l.length = (front.foldr (insert le) l).length + 1 by
          rw [hlen, List.length_cons]; omega]
      exact drop_insert (le_trans (h b (by simp)) (hcount b))
    · rw [List.foldr_cons, hperm.countP_eq, List.countP_cons]
      exact le_trans (hcount a) (Nat.le_add_right _ _)

/-- **Cutting early changes nothing**: of more elements, the last `k` are the same whether
the first ones were cut to their last `k` before or not. -/
theorem keepLast_append {k : ℕ} {xs : List α} (h : k ≤ xs.length) (ys : List α) :
    keepLast le k (keepLast le k xs ++ ys) = keepLast le k (xs ++ ys) := by
  have hsorted := List.pairwise_mergeSort trans total xs
  have hkept : keepLast le k xs = (xs.mergeSort le).drop (xs.length - k) := rfl
  have hsplit := List.take_append_drop (xs.length - k) (xs.mergeSort le)
  rw [← hkept] at hsplit
  have hlen : (keepLast le k xs).length = k := keepLast_length h
  have hfront : ((xs.mergeSort le).take (xs.length - k)).length = xs.length - k := by
    rw [List.length_take, List.length_mergeSort]
    omega
  revert hfront hsplit hlen
  generalize (xs.mergeSort le).take (xs.length - k) = front
  generalize keepLast le k xs = kept
  intro hsplit hlen hfront
  -- All that was cut stands before the `k` that were kept.
  have hbefore : ∀ a ∈ front, k ≤ ((kept ++ ys).mergeSort le).countP (le a) := by
    intro a ha
    rw [(List.mergeSort_perm (kept ++ ys) le).countP_eq, List.countP_append, ← hlen]
    rw [← hsplit] at hsorted
    have hall : kept.countP (le a) = kept.length :=
      List.countP_eq_length.mpr fun b hb => (List.pairwise_append.mp hsorted).2.2 a ha b hb
    omega
  obtain ⟨-, hdrop, -⟩ := drop_foldr_insert hbefore
  rw [keepLast, keepLast, mergeSort_append_eq trans total xs ys,
    ← foldr_insert_mergeSort trans total, ← hsplit, List.foldr_append,
    ← mergeSort_append_eq trans total kept ys, List.length_append, List.length_append]
  rw [List.length_mergeSort, List.length_append] at hdrop
  rw [← hdrop, hfront, hlen]
  congr 1
  omega

end Preorder

end StableWindow

/-
The lines of a list that grows at its end.

`List.splitOn` cuts a list at a separator.  All pieces but the last are complete,
the last one is still open; an element that comes at the end closes the open piece
if it is the separator and joins it otherwise.

* `complete_snoc_sep`, `opened_snoc_sep` — a separator completes the open piece;
* `complete_snoc`, `opened_snoc` — **any other element joins the open piece**;
* `intercalate_lines`, `sep_notMem` — the pieces are the list again, and none holds a
  separator.
-/
import Mathlib.Data.List.Induction

namespace LineSplit

variable {α : Type*} [DecidableEq α] {sep : α}

/-- The pieces that a separator ends. -/
def complete (sep : α) (l : List α) : List (List α) := (l.splitOn sep).dropLast

/-- What stands behind the last separator. -/
def opened (sep : α) (l : List α) : List α := (l.splitOn sep).getLast (List.splitOn_ne_nil sep l)

/-- The complete pieces and the open one are all pieces. -/
theorem complete_append_opened (sep : α) (l : List α) : complete sep l ++ [opened sep l] = l.splitOn sep :=
  List.dropLast_concat_getLast _

/-- The pieces are the list again. -/
theorem intercalate_lines (l : List α) :
    [sep].intercalate (complete sep l ++ [opened sep l]) = l := by
  rw [complete_append_opened, List.intercalate_splitOn]

@[simp] theorem complete_nil : complete sep [] = [] := by
  rw [complete, List.splitOn_nil]
  rfl

@[simp] theorem opened_nil : opened sep [] = [] := by
  simp [opened, List.splitOn_nil]

/-- What all pieces are says which are complete and which is open. -/
theorem of_splitOn {l : List α} {ls : List (List α)} {a : List α} (h : l.splitOn sep = ls ++ [a]) :
    complete sep l = ls ∧ opened sep l = a := by
  have hpieces := (complete_append_opened sep l).trans h
  obtain ⟨hls, ha⟩ := List.append_inj' hpieces rfl
  exact ⟨hls, List.singleton_inj.mp ha⟩

theorem splitOn_snoc_sep (l : List α) : (l ++ [sep]).splitOn sep = l.splitOn sep ++ [[]] := by
  rw [List.splitOn_append_cons_self, List.splitOn_nil]

/-- A separator completes the open piece. -/
theorem complete_snoc_sep (l : List α) :
    complete sep (l ++ [sep]) = complete sep l ++ [opened sep l] := by
  rw [complete_append_opened]
  exact (of_splitOn (splitOn_snoc_sep l)).1

theorem opened_snoc_sep (l : List α) : opened sep (l ++ [sep]) = [] :=
  (of_splitOn (splitOn_snoc_sep l)).2

/-- The open piece behind the last separator has none in it. -/
theorem splitOn_snoc {x : α} (hx : x ≠ sep) (l : List α) :
    (l ++ [x]).splitOn sep = complete sep l ++ [opened sep l ++ [x]] := by
  induction l with
  | nil =>
    rw [complete_nil, opened_nil, List.nil_append]
    exact List.splitOn_eq_singleton fun h => hx (List.mem_singleton.mp h).symm
  | cons y l ih =>
    have hpieces := complete_append_opened sep l
    rw [List.cons_append, List.splitOn_cons_eq_if_modifyHead, ih]
    by_cases hy : y = sep
    · -- a separator in front adds an empty piece in front
      have hsplit : (y :: l).splitOn sep = ([] :: complete sep l) ++ [opened sep l] := by
        rw [List.splitOn_cons_eq_if_modifyHead, if_pos (beq_iff_eq.mpr hy), List.cons_append,
          hpieces]
      obtain ⟨hc, ho⟩ := of_splitOn hsplit
      rw [if_pos (beq_iff_eq.mpr hy), hc, ho]
      rfl
    · -- another element in front joins the first piece, be it complete or open
      have hne : ¬(y == sep) = true := fun h => hy (beq_iff_eq.mp h)
      rw [if_neg hne]
      cases hc : complete sep l with
      | nil =>
        have hsplit : (y :: l).splitOn sep = [] ++ [y :: opened sep l] := by
          rw [List.splitOn_cons_eq_if_modifyHead, if_neg hne, ← hpieces, hc]
          rfl
        obtain ⟨hc', ho'⟩ := of_splitOn hsplit
        rw [hc', ho']
        rfl
      | cons first more =>
        have hsplit : (y :: l).splitOn sep = ((y :: first) :: more) ++ [opened sep l] := by
          rw [List.splitOn_cons_eq_if_modifyHead, if_neg hne, ← hpieces, hc]
          rfl
        obtain ⟨hc', ho'⟩ := of_splitOn hsplit
        rw [hc', ho']
        rfl

theorem complete_snoc {x : α} (hx : x ≠ sep) (l : List α) :
    complete sep (l ++ [x]) = complete sep l :=
  (of_splitOn (splitOn_snoc hx l)).1

/-- Any other element joins the open piece. -/
theorem opened_snoc {x : α} (hx : x ≠ sep) (l : List α) :
    opened sep (l ++ [x]) = opened sep l ++ [x] :=
  (of_splitOn (splitOn_snoc hx l)).2

/-- No piece holds a separator. -/
theorem sep_notMem {l piece : List α} (h : piece ∈ complete sep l ++ [opened sep l]) :
    sep ∉ piece := by
  induction l using List.reverseRecOn generalizing piece with
  | nil =>
    rw [complete_nil, opened_nil, List.nil_append, List.mem_singleton] at h
    rw [h]
    exact List.not_mem_nil
  | append_singleton l x ih =>
    by_cases hx : x = sep
    · rw [hx, complete_snoc_sep, opened_snoc_sep] at h
      rcases List.mem_append.mp h with h | h
      · exact ih h
      · rw [List.mem_singleton.mp h]
        exact List.not_mem_nil
    · rw [complete_snoc hx, opened_snoc hx] at h
      rcases List.mem_append.mp h with h | h
      · exact ih (List.mem_append_left _ h)
      · rw [List.mem_singleton.mp h]
        intro hmem
        rcases List.mem_append.mp hmem with hmem | hmem
        · exact ih (List.mem_append_right _ (List.mem_singleton_self _)) hmem
        · exact hx (List.mem_singleton.mp hmem).symm

end LineSplit

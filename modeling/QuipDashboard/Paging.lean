/-
Reading a list in pages.

A client that reads a table in pages asks for `LIMIT limit OFFSET offset` until
a page is empty, or for the next rows after a key until a page is short.

* `forPages_ok` — **the offset loop checks every row**: with enough fuel it
  succeeds exactly when every row passes;
* `mem_afterKey`, `afterKey_complete` — the page after a key holds the next rows of the
  list after that key.
-/
import Mathlib.Data.List.Sort
import Mathlib.Tactic.Common

namespace Paging

variable {ε α : Type*}

/-- `LIMIT limit OFFSET offset`. -/
def page (l : List α) (limit offset : ℕ) : List α := (l.drop offset).take limit

/-- Check rows one after another, and stop at the first error. -/
def forRows (check : α → Except ε Unit) : List α → Except ε Unit
  | [] => .ok ()
  | a :: l =>
    match check a with
    | .ok () => forRows check l
    | .error e => .error e

/-- Check every row, page after page, until a page is empty. -/
def forPages (limit : ℕ) (check : α → Except ε Unit) (l : List α) : ℕ → ℕ → Except ε Unit
  | 0, _ => .ok ()
  | fuel + 1, offset =>
    match page l limit offset with
    | [] => .ok ()
    | rows =>
      match forRows check rows with
      | .ok () => forPages limit check l fuel (offset + rows.length)
      | .error e => .error e

theorem forRows_ok {check : α → Except ε Unit} {l : List α} :
    forRows check l = .ok () ↔ ∀ a ∈ l, check a = .ok () := by
  induction l with
  | nil => simp [forRows]
  | cons a l ih =>
    rw [forRows, List.forall_mem_cons, ← ih]
    cases check a <;> simp

/-- A page and what follows it are the rows from its offset on. -/
theorem page_append (l : List α) (limit offset : ℕ) :
    page l limit offset ++ l.drop (offset + (page l limit offset).length) = l.drop offset := by
  have hlen : offset + (page l limit offset).length = offset + min limit (l.length - offset) := by
    rw [page, List.length_take, List.length_drop]
  rw [hlen, ← List.drop_drop, page]
  rcases Nat.le_total limit (l.length - offset) with h | h
  · rw [Nat.min_eq_left h, List.take_append_drop]
  · have hnil : (l.drop offset).drop (l.length - offset) = [] :=
      List.drop_eq_nil_of_le (by rw [List.length_drop])
    rw [Nat.min_eq_right h, hnil, List.append_nil,
      List.take_of_length_le (by rw [List.length_drop]; exact h)]

/-- An empty page means that the rows are exhausted. -/
theorem page_eq_nil {l : List α} {limit offset : ℕ} (hlimit : 0 < limit)
    (h : page l limit offset = []) : l.drop offset = [] := by
  rcases List.take_eq_nil_iff.mp h with h | h
  · omega
  · exact h

/-- **The offset loop checks every row.** -/
theorem forPages_ok {limit : ℕ} (hlimit : 0 < limit) {check : α → Except ε Unit} {l : List α}
    {fuel offset : ℕ} (hfuel : l.length - offset < fuel) :
    forPages limit check l fuel offset = .ok () ↔ ∀ a ∈ l.drop offset, check a = .ok () := by
  induction fuel generalizing offset with
  | zero => omega
  | succ fuel ih =>
    rw [forPages, ← page_append l limit offset, List.forall_mem_append]
    cases hp : page l limit offset with
    | nil =>
      simp [page_eq_nil hlimit hp]
    | cons a rows =>
      have hle : (page l limit offset).length = min limit (l.length - offset) := by
        rw [page, List.length_take, List.length_drop]
      rw [hp, List.length_cons] at hle
      have hrec := @ih (offset + (a :: rows).length) (by rw [List.length_cons]; omega)
      rw [← forRows_ok, ← hrec]
      simp only
      cases forRows check (a :: rows) <;> simp

/-- The rows after a key in ascending order, at most `limit` of them. -/
def afterKey (l : List ℕ) (after : Option ℕ) (limit : ℕ) : List ℕ :=
  ((l.filter fun n => after.all (· < n)).insertionSort (· ≤ ·)).take limit

theorem mem_afterKey {l : List ℕ} {after : Option ℕ} {limit n : ℕ}
    (hn : n ∈ afterKey l after limit) : n ∈ l ∧ ∀ a ∈ after, a < n := by
  have := List.mem_of_mem_take hn
  rw [List.mem_insertionSort, List.mem_filter] at this
  refine ⟨this.1, ?_⟩
  rintro a ha
  rw [Option.mem_def] at ha
  simpa [ha] using this.2

theorem sorted_afterKey (l : List ℕ) (after : Option ℕ) (limit : ℕ) :
    (afterKey l after limit).Pairwise (· ≤ ·) :=
  (List.pairwise_insertionSort (· ≤ ·) _).sublist (List.take_sublist _ _)

/-- **A row after the key is on the page, or the page is full and ends before it.** -/
theorem afterKey_complete {l : List ℕ} {after : Option ℕ} {limit n : ℕ} (hn : n ∈ l)
    (hafter : ∀ a ∈ after, a < n) : n ∈ afterKey l after limit ∨
      (afterKey l after limit).length = limit ∧ ∀ m ∈ afterKey l after limit, m < n := by
  have hsorted := List.pairwise_insertionSort (· ≤ ·) (l.filter fun n => after.all (· < n))
  have hmem : n ∈ (l.filter fun n => after.all (· < n)).insertionSort (· ≤ ·) := by
    rw [List.mem_insertionSort, List.mem_filter]
    refine ⟨hn, ?_⟩
    cases after with
    | none => rfl
    | some a => simpa using hafter a rfl
  unfold afterKey
  generalize (l.filter fun n => after.all (· < n)).insertionSort (· ≤ ·) = rows at *
  rw [← List.take_append_drop limit rows] at hmem hsorted
  by_cases hpage : n ∈ rows.take limit
  · exact .inl hpage
  · have hrest := (List.mem_append.mp hmem).resolve_left hpage
    refine .inr ⟨?_, fun m hm => ?_⟩
    · have := List.length_pos_of_mem hrest
      rw [List.length_drop] at this
      rw [List.length_take]
      omega
    · have hle := (List.pairwise_append.mp hsorted).2.2 m hm n hrest
      have hne : m ≠ n := fun h => hpage (h ▸ hm)
      omega

end Paging

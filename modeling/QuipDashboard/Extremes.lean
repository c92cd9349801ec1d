/-
Folds that keep the greater of two elements.

`MAX`, `MIN` and `ORDER BY … LIMIT 1` walk a list and keep one of two elements at each
step, the one with the greater key:

* `foldl_greatest` — such a fold ends with an element of the list whose key is greatest;
* `foldl_max`, `foldl_min` — the folds of `max` and `min` over the keys of a list.
-/
import Mathlib.Order.Bounds.Basic
import Mathlib.Order.MinMax
import Mathlib.Order.OrderDual
import Mathlib.Data.List.Basic

namespace Extremes

variable {α β : Type*}

/-- **A fold that keeps the argument of the greater key ends with a greatest element.** -/
theorem foldl_greatest [Preorder β] (key : α → β) {pick : α → α → α}
    (hpick : ∀ a b, pick a b = a ∧ key b ≤ key a ∨ pick a b = b ∧ key a ≤ key b)
    (a : α) (l : List α) :
    l.foldl pick a ∈ a :: l ∧ ∀ x ∈ a :: l, key x ≤ key (l.foldl pick a) := by
  induction l generalizing a with
  | nil => simp
  | cons b l ih =>
    rw [List.foldl_cons]
    obtain ⟨hmem, hle⟩ := ih (pick a b)
    have hself := hle (pick a b) (List.mem_cons_self ..)
    have htail : ∀ x ∈ l, key x ≤ key (l.foldl pick (pick a b)) :=
      fun x hx => hle x (List.mem_cons_of_mem _ hx)
    rcases hpick a b with ⟨hp, hab⟩ | ⟨hp, hab⟩ <;> rw [hp] at hmem hself htail ⊢
    · refine ⟨?_, ?_⟩
      · rcases List.mem_cons.mp hmem with h | h
        · rw [h]
          exact List.mem_cons_self ..
        · exact List.mem_cons_of_mem _ (List.mem_cons_of_mem _ h)
      · intro x hx
        rcases List.mem_cons.mp hx with rfl | hx
        · exact hself
        · rcases List.mem_cons.mp hx with rfl | hx
          · exact hab.trans hself
          · exact htail x hx
    · refine ⟨List.mem_cons_of_mem _ hmem, ?_⟩
      intro x hx
      rcases List.mem_cons.mp hx with rfl | hx
      · exact hab.trans hself
      · rcases List.mem_cons.mp hx with rfl | hx
        · exact hself
        · exact htail x hx

variable [LinearOrder β]

/-- The greatest key of a list with a head. -/
theorem foldl_max (key : α → β) (a : α) (l : List α) :
    IsGreatest {k | ∃ x ∈ a :: l, key x = k} (l.foldl (fun k x => max k (key x)) (key a)) := by
  have hpick : ∀ a b : β, max a b = a ∧ b ≤ a ∨ max a b = b ∧ a ≤ b := by
    intro a b
    rcases le_total a b with h | h
    · exact .inr ⟨max_eq_right h, h⟩
    · exact .inl ⟨max_eq_left h, h⟩
  obtain ⟨hmem, hle⟩ := foldl_greatest id hpick (key a) (l.map key)
  rw [List.foldl_map, ← List.map_cons] at hmem
  rw [List.foldl_map, ← List.map_cons] at hle
  refine ⟨List.mem_map.mp hmem, ?_⟩
  rintro _ ⟨x, hx, rfl⟩
  exact hle _ (List.mem_map_of_mem hx)

/-- The least key of a list with a head. -/
theorem foldl_min (key : α → β) (a : α) (l : List α) :
    IsLeast {k | ∃ x ∈ a :: l, key x = k} (l.foldl (fun k x => min k (key x)) (key a)) :=
  foldl_max (β := βᵒᵈ) key a l

end Extremes

/-
Decimal texts padded with zeros.

A database that compares texts character by character finds the greatest number in a
column of canonical decimal texts by padding them to one length.

* `padded_lt_padded` — padded texts are ordered like their numbers;
* `greatest_padded` — **the greatest padded text is that of the greatest number**;
* `unpad_padded` — without its leading zeros a padded text is the canonical text, except
  that nothing is left of zero.
-/
import QuipDashboard.DigitOrder
import Mathlib.Data.List.TakeWhile

namespace DigitOrder

/-- The text behind as many zeros as it takes for the length `k`. -/
def padded (k : ℕ) (t : List Char) : List Char := List.replicate (k - t.length) '0' ++ t

/-- The text without its leading zeros. -/
def unpad (t : List Char) : List Char := t.dropWhile (· = '0')

theorem isDigit_of_mem_padded {k n : ℕ} {c : Char} (h : c ∈ padded k (text n)) :
    c.isDigit = true := by
  rcases List.mem_append.mp h with h | h
  · rw [List.eq_of_mem_replicate h]
    rfl
  · exact isDigit_of_mem_text h

theorem value_replicate (j : ℕ) (t : List Char) : value (List.replicate j '0' ++ t) = value t := by
  induction j with
  | zero => rfl
  | succ j ih =>
    rw [List.replicate_succ, List.cons_append, value_cons, ih]
    simp

theorem value_padded (k n : ℕ) : value (padded k (text n)) = n := by
  rw [padded, value_replicate, value_text]

/-- The text of a number below `10 ^ k` has at most `k` digits. -/
theorem length_text_le {k n : ℕ} (hk : 0 < k) (h : n < 10 ^ k) : (text n).length ≤ k :=
  (Nat.length_toDigits_le_iff (by omega) hk).mpr h

theorem length_padded {k n : ℕ} (hk : 0 < k) (h : n < 10 ^ k) :
    (padded k (text n)).length = k := by
  have := length_text_le hk h
  rw [padded, List.length_append, List.length_replicate]
  omega

/-- **Padded texts are ordered like their numbers.** -/
theorem padded_lt_padded {k m n : ℕ} (hk : 0 < k) (hm : m < 10 ^ k) (hn : n < 10 ^ k) :
    padded k (text m) < padded k (text n) ↔ m < n := by
  have hlen : (padded k (text m)).length = (padded k (text n)).length := by
    rw [length_padded hk hm, length_padded hk hn]
  have hlt : ∀ {a b : ℕ}, (padded k (text a)).length = (padded k (text b)).length →
      padded k (text a) < padded k (text b) → a < b := by
    intro a b hab h
    have := value_lt_value (fun c => isDigit_of_mem_padded) (fun c => isDigit_of_mem_padded) hab h
    rwa [value_padded, value_padded] at this
  refine ⟨hlt hlen, fun hmn => ?_⟩
  rcases lt_trichotomy (padded k (text m)) (padded k (text n)) with h | h | h
  · exact h
  · have := congrArg value h
    rw [value_padded, value_padded] at this
    omega
  · have := hlt hlen.symm h
    omega

/-- The greatest of some texts: `MAX` of a text column. -/
def greatest : List (List Char) → Option (List Char)
  | [] => none
  | t :: l => some (l.foldl (fun m u => if m < u then u else m) t)

theorem foldl_padded {k : ℕ} (hk : 0 < k) (ns : List ℕ) (n : ℕ) (hn : n < 10 ^ k)
    (hns : ∀ m ∈ ns, m < 10 ^ k) :
    (ns.map fun m => padded k (text m)).foldl (fun m u => if m < u then u else m)
      (padded k (text n)) = padded k (text (ns.foldl max n)) := by
  induction ns generalizing n with
  | nil => rfl
  | cons m ns ih =>
    have hm : m < 10 ^ k := hns m (by simp)
    have hnext : (if padded k (text n) < padded k (text m) then padded k (text m)
        else padded k (text n)) = padded k (text (max n m)) := by
      by_cases h : n < m
      · rw [if_pos ((padded_lt_padded hk hn hm).mpr h), max_eq_right (Nat.le_of_lt h)]
      · rw [if_neg fun hlt => h ((padded_lt_padded hk hn hm).mp hlt),
          max_eq_left (Nat.le_of_not_lt h)]
    rw [List.map_cons, List.foldl_cons, hnext, List.foldl_cons]
    exact ih (max n m) (max_lt hn hm) fun q hq => hns q (by simp [hq])

/-- **The greatest padded text is that of the greatest number.** -/
theorem greatest_padded {k : ℕ} (hk : 0 < k) {ns : List ℕ} (hne : ns ≠ [])
    (hns : ∀ n ∈ ns, n < 10 ^ k) :
    greatest (ns.map fun n => padded k (text n)) = some (padded k (text (ns.foldl max 0))) := by
  rcases ns with _ | ⟨n, ns⟩
  · exact absurd rfl hne
  · rw [List.map_cons, greatest, foldl_padded hk ns n (hns n (by simp))
      fun m hm => hns m (by simp [hm]), List.foldl_cons, Nat.zero_max]

/-- The text of a positive number does not start with a zero. -/
theorem text_head_ne_zero {n : ℕ} (hn : n ≠ 0) (l : List Char) : text n ≠ '0' :: l := by
  intro h
  have hvalue : value l = n := by
    have := value_cons '0' l
    rw [← h, value_text] at this
    simpa using this.symm
  have hdigits : ∀ c ∈ l, c.isDigit = true := fun c hc =>
    isDigit_of_mem_text (n := n) (by rw [h]; exact List.mem_cons_of_mem _ hc)
  have hlt := value_lt hdigits
  rw [hvalue] at hlt
  -- The number has fewer digits than its text.
  rcases Nat.eq_zero_or_pos l.length with hlen | hlen
  · rw [hlen] at hlt
    omega
  · have := length_text_le hlen hlt
    rw [h, List.length_cons] at this
    omega

theorem unpad_text {n : ℕ} (hn : n ≠ 0) : unpad (text n) = text n := by
  rcases ht : text n with _ | ⟨c, l⟩
  · rfl
  · have hc : c ≠ '0' := by
      rintro rfl
      exact text_head_ne_zero hn l ht
    exact List.dropWhile_cons_of_neg (by simpa using hc)

/-- **A padded text without its leading zeros**: nothing is left of zero. -/
theorem unpad_padded (k n : ℕ) : unpad (padded k (text n)) = if n = 0 then [] else text n := by
  have hzeros : ∀ j t, unpad (List.replicate j '0' ++ t) = unpad t := by
    intro j t
    induction j with
    | zero => rfl
    | succ j ih => exact ih
  rw [padded, hzeros]
  by_cases hn : n = 0
  · rw [if_pos hn, hn]
    rfl
  · rw [if_neg hn, unpad_text hn]

end DigitOrder

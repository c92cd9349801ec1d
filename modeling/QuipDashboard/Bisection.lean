/-
Bisection for the first number that has a property.

`least p low high` halves the interval from `low` to `high` as long as it holds two
numbers: it keeps the lower part, with the middle, where the middle has the property,
and the part above the middle elsewhere.  `probes` are the numbers it asks about.

* `mem_probes` — every number asked about is in the interval, and is not its last;
* `least_mem` — the result is in the interval;
* `least_holds`, `not_of_lt_least` — **of a monotone property that the last number
  has, the result is the first number that has it**.
-/
import Mathlib.Order.Nat
import Mathlib.Tactic.Common

namespace Bisection

variable {p : ℕ → Bool} {low high n : ℕ}

/-- The middle of an interval, without the sum of its ends. -/
def middle (low high : ℕ) : ℕ := low + (high - low) / 2

theorem low_le_middle : low ≤ middle low high := Nat.le_add_right _ _

theorem middle_lt (h : low < high) : middle low high < high := by
  unfold middle
  omega

/-- The number at which the bisection ends. -/
def least (p : ℕ → Bool) (low high : ℕ) : ℕ :=
  if low < high then
    if p (middle low high) then least p low (middle low high)
    else least p (middle low high + 1) high
  else low
termination_by high - low
decreasing_by
  all_goals
    unfold middle
    omega

/-- The numbers the bisection asks about, in order. -/
def probes (p : ℕ → Bool) (low high : ℕ) : List ℕ :=
  if low < high then
    if p (middle low high) then middle low high :: probes p low (middle low high)
    else middle low high :: probes p (middle low high + 1) high
  else []
termination_by high - low
decreasing_by
  all_goals
    unfold middle
    omega

/-- Every probe is in the interval, below its end. -/
theorem mem_probes (h : n ∈ probes p low high) : low ≤ n ∧ n < high := by
  induction low, high using probes.induct p with
  | case1 low high hlt hp ih =>
    have hmid := middle_lt hlt
    rw [probes, if_pos hlt, if_pos hp] at h
    rcases List.mem_cons.mp h with rfl | h
    · exact ⟨low_le_middle, hmid⟩
    · obtain ⟨hlow, hn⟩ := ih h
      exact ⟨hlow, hn.trans hmid⟩
  | case2 low high hlt hp ih =>
    rw [probes, if_pos hlt, if_neg hp] at h
    rcases List.mem_cons.mp h with rfl | h
    · exact ⟨low_le_middle, middle_lt hlt⟩
    · obtain ⟨hmid, hn⟩ := ih h
      have hlow : low ≤ middle low high := low_le_middle
      exact ⟨by omega, hn⟩
  | case3 low high hlt =>
    rw [probes, if_neg hlt] at h
    cases h

/-- The result is in the interval. -/
theorem least_mem (h : low ≤ high) : low ≤ least p low high ∧ least p low high ≤ high := by
  induction low, high using least.induct p with
  | case1 low high hlt hp ih =>
    have hmid := middle_lt hlt
    rw [least, if_pos hlt, if_pos hp]
    obtain ⟨hlow, hle⟩ := ih low_le_middle
    exact ⟨hlow, hle.trans hmid.le⟩
  | case2 low high hlt hp ih =>
    rw [least, if_pos hlt, if_neg hp]
    obtain ⟨hmid, hle⟩ := ih (middle_lt hlt)
    have hlow : low ≤ middle low high := low_le_middle
    exact ⟨by omega, hle⟩
  | case3 low high hlt =>
    rw [least, if_neg hlt]
    exact ⟨le_refl low, h⟩

/-- The result has the property if the last number of the interval has it. -/
theorem least_holds (h : low ≤ high) (hp : p high = true) : p (least p low high) = true := by
  induction low, high using least.induct p with
  | case1 low high hlt hmid ih =>
    rw [least, if_pos hlt, if_pos hmid]
    exact ih low_le_middle hmid
  | case2 low high hlt hmid ih =>
    rw [least, if_pos hlt, if_neg hmid]
    exact ih (middle_lt hlt) hp
  | case3 low high hlt =>
    have heq : low = high := by omega
    rw [least, if_neg hlt, heq]
    exact hp

/-- No number of the interval below the result has a monotone property. -/
theorem not_of_lt_least (hmono : ∀ m n, low ≤ m → m ≤ n → n ≤ high → p m = true → p n = true)
    (hlow : low ≤ n) (h : n < least p low high) : p n = false := by
  induction low, high using least.induct p with
  | case1 low high hlt hmid ih =>
    have hend := middle_lt hlt
    rw [least, if_pos hlt, if_pos hmid] at h
    exact ih (fun a b ha hab hb => hmono a b ha hab (hb.trans hend.le)) hlow h
  | case2 low high hlt hmid ih =>
    have hend := middle_lt hlt
    have hstart : low ≤ middle low high := low_le_middle
    rw [least, if_pos hlt, if_neg hmid] at h
    by_cases hn : n ≤ middle low high
    · -- what a number up to the middle has, the middle has
      rw [← Bool.not_eq_true]
      exact fun hpn => hmid (hmono n _ hlow hn hend.le hpn)
    · exact ih (fun a b ha hab hb => hmono a b (by omega) hab hb) (by omega) h
  | case3 low high hlt =>
    rw [least, if_neg hlt] at h
    omega

end Bisection

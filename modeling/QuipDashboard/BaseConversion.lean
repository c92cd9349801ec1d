/-
Schoolbook conversion of a number to another base.

The digits are kept least significant first.  `mulAdd b m ds c` multiplies the
number they spell by `m` and adds `c`, digit after digit with a carry; what is
left of the carry is spelled behind the last digit.

* `ofDigits_mulAdd` — the digits and the carry together spell `m * n + c`;
* `carry_lt` — **a carry below `m` stays below `m`**;
* `extend_canonical` — **canonical digits of `n` become canonical digits of
  `m * n + c`**.
-/
import Mathlib.Data.Nat.Digits.Lemmas
import Mathlib.Tactic.Linarith
import Mathlib.Tactic.Ring

namespace BaseConversion

open Nat (ofDigits digits)

variable {b m : ℕ}

/-- The number of the digits times `m`, plus the carry, over the same digits; and the
carry out of the last one. -/
def mulAdd (b m : ℕ) : List ℕ → ℕ → List ℕ × ℕ
  | [], c => ([], c)
  | d :: ds, c =>
    let r := mulAdd b m ds ((d * m + c) / b)
    ((d * m + c) % b :: r.1, r.2)

/-- The digits with the carry spelled behind them. -/
def extend (b m : ℕ) (ds : List ℕ) (c : ℕ) : List ℕ :=
  (mulAdd b m ds c).1 ++ digits b (mulAdd b m ds c).2

/-- The digits of a number without leading zeros; zero has one digit. -/
def canonical (b n : ℕ) : List ℕ := if n = 0 then [0] else digits b n

theorem length_mulAdd (ds : List ℕ) (c : ℕ) : (mulAdd b m ds c).1.length = ds.length := by
  induction ds generalizing c with
  | nil => rfl
  | cons d ds ih => exact congrArg (· + 1) (ih _)

/-- **What the digits and the carry spell.** -/
theorem ofDigits_mulAdd (ds : List ℕ) (c : ℕ) :
    ofDigits b (mulAdd b m ds c).1 + b ^ ds.length * (mulAdd b m ds c).2 =
      m * ofDigits b ds + c := by
  induction ds generalizing c with
  | nil => simp [mulAdd]
  | cons d ds ih =>
    have hrest := ih ((d * m + c) / b)
    have hdigit := Nat.mod_add_div (d * m + c) b
    rw [mulAdd, Nat.ofDigits_cons, Nat.ofDigits_cons, List.length_cons, pow_succ]
    calc (d * m + c) % b + b * ofDigits b (mulAdd b m ds ((d * m + c) / b)).1 +
          b ^ ds.length * b * (mulAdd b m ds ((d * m + c) / b)).2
        = (d * m + c) % b + b * (ofDigits b (mulAdd b m ds ((d * m + c) / b)).1 +
          b ^ ds.length * (mulAdd b m ds ((d * m + c) / b)).2) := by ring
      _ = (d * m + c) % b + b * ((d * m + c) / b) + m * (b * ofDigits b ds) := by
          rw [hrest]; ring
      _ = m * (d + b * ofDigits b ds) + c := by rw [hdigit]; ring

theorem digit_lt (hb : 0 < b) (ds : List ℕ) (c : ℕ) : ∀ d ∈ (mulAdd b m ds c).1, d < b := by
  induction ds generalizing c with
  | nil => exact fun d hd => absurd hd List.not_mem_nil
  | cons x ds ih =>
    intro d hd
    rcases List.mem_cons.mp hd with rfl | hd
    · exact Nat.mod_lt _ hb
    · exact ih _ d hd

/-- One digit with a carry below `m` gives less than `b * m`. -/
theorem next_lt {d c : ℕ} (hd : d < b) (hc : c < m) : d * m + c < b * m := by
  calc d * m + c < d * m + m := Nat.add_lt_add_left hc _
    _ = (d + 1) * m := (Nat.succ_mul d m).symm
    _ ≤ b * m := Nat.mul_le_mul_right m hd

/-- **A carry below `m` stays below `m`.** -/
theorem carry_lt {d c : ℕ} (hd : d < b) (hc : c < m) : (d * m + c) / b < m :=
  Nat.div_lt_of_lt_mul (next_lt hd hc)

/-- The digits and the spelled carry spell `m * n + c`. -/
theorem ofDigits_extend (ds : List ℕ) (c : ℕ) :
    ofDigits b (extend b m ds c) = m * ofDigits b ds + c := by
  rw [extend, Nat.ofDigits_append, Nat.ofDigits_digits, length_mulAdd, ofDigits_mulAdd]

theorem extend_lt (hb : 1 < b) (ds : List ℕ) (c : ℕ) : ∀ d ∈ extend b m ds c, d < b := by
  intro d hd
  rcases List.mem_append.mp hd with hd | hd
  · exact digit_lt (by omega) ds c d hd
  · exact Nat.digits_lt_base hb hd

/-- Digits that spell at least the power of their last place have no leading zero. -/
theorem getLast_ne_zero (hb : 1 < b) {ds : List ℕ} (hds : ∀ d ∈ ds, d < b)
    (hle : b ^ (ds.length - 1) ≤ ofDigits b ds) (h : ds ≠ []) : ds.getLast h ≠ 0 := by
  intro hzero
  have hsplit : ds = ds.dropLast ++ [0] := by
    conv_lhs => rw [← List.dropLast_append_getLast h, hzero]
  have hlt : ofDigits b ds.dropLast < b ^ ds.dropLast.length :=
    Nat.ofDigits_lt_base_pow_length hb fun d hd => hds d (List.dropLast_subset ds hd)
  rw [List.length_dropLast] at hlt
  rw [hsplit, Nat.ofDigits_append_zero, ← hsplit] at hle
  omega

/-- The last place of the canonical digits is used. -/
theorem pow_le_of_digits (hb : 1 < b) {n : ℕ} (hn : n ≠ 0) :
    b ^ ((digits b n).length - 1) ≤ n := by
  have hlog := Nat.length_digits b n hb hn
  rw [hlog, Nat.add_sub_cancel]
  exact Nat.pow_log_le_self b hn

/-- **Canonical digits stay canonical.** -/
theorem extend_canonical (hb : 1 < b) (hm : 0 < m) (n c : ℕ) :
    extend b m (canonical b n) c = canonical b (m * n + c) := by
  by_cases hn : n = 0
  · -- over the one digit zero only the addend is spelled
    have hext : extend b m [0] c = c % b :: digits b (c / b) := by
      simp [extend, mulAdd]
    rw [canonical, if_pos hn, hext, hn, Nat.mul_zero, Nat.zero_add, canonical]
    by_cases hc : c = 0
    · rw [if_pos hc, hc]
      simp
    · rw [if_neg hc, Nat.digits_def' hb (Nat.pos_of_ne_zero hc)]
  · have hval : ofDigits b (extend b m (digits b n) c) = m * n + c := by
      rw [ofDigits_extend, Nat.ofDigits_digits]
    have hpos : m * n + c ≠ 0 := by
      have := Nat.mul_pos hm (Nat.pos_of_ne_zero hn)
      omega
    rw [canonical, if_neg hn, canonical, if_neg hpos, ← hval]
    refine (Nat.digits_ofDigits b hb _ (extend_lt hb _ c) fun h => ?_).symm
    by_cases hcarry : (mulAdd b m (digits b n) c).2 = 0
    · -- no carry is left: as many digits as before spell at least as much
      have hlen : (extend b m (digits b n) c).length = (digits b n).length := by
        rw [extend, hcarry, Nat.digits_zero, List.append_nil, length_mulAdd]
      refine getLast_ne_zero hb (extend_lt hb _ c) ?_ h
      rw [hval, hlen]
      calc b ^ ((digits b n).length - 1) ≤ n := pow_le_of_digits hb hn
        _ ≤ m * n := Nat.le_mul_of_pos_left n hm
        _ ≤ m * n + c := Nat.le_add_right _ _
    · have hne : digits b (mulAdd b m (digits b n) c).2 ≠ [] :=
        Nat.digits_ne_nil_iff_ne_zero.mpr hcarry
      have hlast : (extend b m (digits b n) c).getLast h =
          (digits b (mulAdd b m (digits b n) c).2).getLast hne :=
        List.getLast_append_of_ne_nil _ hne
      rw [hlast]
      exact Nat.getLast_digit_ne_zero b hcarry

/-! ### A fixed number of digits -/

/-- The last `k` digits of a number, least significant first. -/
def fixedDigits (b : ℕ) : ℕ → ℕ → List ℕ
  | 0, _ => []
  | k + 1, n => n % b :: fixedDigits b k (n / b)

@[simp] theorem length_fixedDigits (k n : ℕ) : (fixedDigits b k n).length = k := by
  induction k generalizing n with
  | zero => rfl
  | succ k ih => exact congrArg (· + 1) (ih _)

theorem fixedDigits_lt (hb : 0 < b) (k n : ℕ) : ∀ d ∈ fixedDigits b k n, d < b := by
  induction k generalizing n with
  | zero => exact fun d hd => absurd hd List.not_mem_nil
  | succ k ih =>
    intro d hd
    rcases List.mem_cons.mp hd with rfl | hd
    · exact Nat.mod_lt _ hb
    · exact ih _ d hd

/-- A number below `b ^ k` has no more than `k` digits. -/
theorem ofDigits_fixedDigits {k n : ℕ} (h : n < b ^ k) : ofDigits b (fixedDigits b k n) = n := by
  induction k generalizing n with
  | zero =>
    rw [pow_zero, Nat.lt_one_iff] at h
    rw [h]
    rfl
  | succ k ih =>
    have hdiv : n / b < b ^ k := Nat.div_lt_of_lt_mul (by rw [← pow_succ']; exact h)
    rw [fixedDigits, Nat.ofDigits_cons, ih hdiv, Nat.mod_add_div]

/-- Numbers below `b ^ k`, each spelled with `k` digits, are digits in base `b ^ k`. -/
theorem ofDigits_flatMap {k : ℕ} {ns : List ℕ} (h : ∀ n ∈ ns, n < b ^ k) :
    ofDigits b (ns.flatMap (fixedDigits b k)) = ofDigits (b ^ k) ns := by
  induction ns with
  | nil => rfl
  | cons n ns ih =>
    rw [List.flatMap_cons, Nat.ofDigits_append, length_fixedDigits,
      ofDigits_fixedDigits (h n List.mem_cons_self), Nat.ofDigits_cons,
      ih fun x hx => h x (List.mem_cons_of_mem n hx)]

end BaseConversion

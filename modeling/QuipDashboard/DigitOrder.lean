/-
The order of decimal texts.

A database that keeps natural numbers as decimal texts compares them by their
length and then by their characters.  On canonical texts, those without leading
zeros, that is the order of the numbers.

* `less_text` — **the order of canonical texts is the order of the numbers**;
* `text_value` — digits without a leading zero are the text of the number that they spell;
* `least_text` — the least of some canonical texts is that of the least number.
-/
import Mathlib.Algebra.GroupWithZero.Nat
import Mathlib.Data.Char
import Mathlib.Data.List.Lex
import Mathlib.Tactic.Common

namespace DigitOrder

/-- The canonical decimal text of a number. -/
def text (n : ℕ) : List Char := Nat.toDigits 10 n

/-- A shorter text, or one of the same length that is less as a list of characters. -/
def Less (s t : List Char) : Prop := s.length < t.length ∨ s.length = t.length ∧ s < t

instance : DecidableRel Less := fun _ _ => inferInstanceAs (Decidable (_ ∨ _))

/-- The number that some digits spell. -/
def value (l : List Char) : ℕ := Nat.ofDigitChars 10 l 0

theorem value_text (n : ℕ) : value (text n) = n := Nat.ofDigitChars_ten_toDigits

theorem text_inj {m n : ℕ} : text m = text n ↔ m = n := by
  constructor
  · intro h
    rw [← value_text m, h, value_text]
  · exact congrArg text

theorem isDigit_of_mem_text {n : ℕ} {c : Char} (hc : c ∈ text n) : c.isDigit = true :=
  Nat.isDigit_of_mem_toDigits (by omega) le_rfl hc

theorem text_ne_nil (n : ℕ) : text n ≠ [] := Nat.toDigits_ne_nil

/-- A digit is a character between `'0'` and `'9'`. -/
theorem digit_bounds {c : Char} (hc : c.isDigit = true) : 48 ≤ c.toNat ∧ c.toNat ≤ 57 := by
  simp only [Char.isDigit, Bool.and_eq_true, decide_eq_true_eq, ge_iff_le] at hc
  exact ⟨UInt32.le_iff_toNat_le.mp hc.1, UInt32.le_iff_toNat_le.mp hc.2⟩

theorem value_cons (c : Char) (l : List Char) :
    value (c :: l) = 10 ^ l.length * (c.toNat - 48) + value l := by
  rw [value, Nat.ofDigitChars_cons, Nat.ofDigitChars_eq_ofDigitChars_zero, value]
  simp

/-- Digits spell a number below the power of ten of their length. -/
theorem value_lt {l : List Char} (hl : ∀ c ∈ l, c.isDigit = true) : value l < 10 ^ l.length := by
  induction l with
  | nil => simp [value]
  | cons c l ih =>
    have hlt := ih fun x hx => hl x (List.mem_cons_of_mem c hx)
    obtain ⟨-, hc⟩ := digit_bounds (hl c List.mem_cons_self)
    have hd : c.toNat - 48 ≤ 9 := by omega
    calc value (c :: l) = 10 ^ l.length * (c.toNat - 48) + value l := value_cons c l
      _ ≤ 10 ^ l.length * 9 + value l := Nat.add_le_add_right (Nat.mul_le_mul_left _ hd) _
      _ < 10 ^ l.length * 9 + 10 ^ l.length := Nat.add_lt_add_left hlt _
      _ = 10 ^ l.length * 10 := (Nat.mul_succ _ 9).symm
      _ = 10 ^ (c :: l).length := (Nat.pow_succ ..).symm

/-- Digits of the same length are ordered like the numbers they spell. -/
theorem value_lt_value {s t : List Char} (hs : ∀ c ∈ s, c.isDigit = true)
    (ht : ∀ c ∈ t, c.isDigit = true) (hlen : s.length = t.length) (hlt : s < t) :
    value s < value t := by
  induction s generalizing t with
  | nil =>
    rw [List.length_nil] at hlen
    rw [List.length_eq_zero_iff.mp hlen.symm] at hlt
    exact absurd hlt (List.lt_irrefl _)
  | cons c s ih =>
    cases t with
    | nil => simp at hlen
    | cons d t =>
      have hlen' : s.length = t.length := by simpa using hlen
      rw [value_cons, value_cons, hlen']
      rcases List.cons_lt_cons_iff.mp hlt with hcd | ⟨rfl, hst⟩
      · -- the first digit decides
        obtain ⟨hc, -⟩ := digit_bounds (hs c List.mem_cons_self)
        have hcd : c.toNat < d.toNat := hcd
        have hstep : c.toNat - 48 + 1 ≤ d.toNat - 48 := by omega
        have hvs := value_lt fun x hx => hs x (List.mem_cons_of_mem c hx)
        rw [hlen'] at hvs
        calc 10 ^ t.length * (c.toNat - 48) + value s
            < 10 ^ t.length * (c.toNat - 48) + 10 ^ t.length := Nat.add_lt_add_left hvs _
          _ = 10 ^ t.length * (c.toNat - 48 + 1) := (Nat.mul_succ _ _).symm
          _ ≤ 10 ^ t.length * (d.toNat - 48) := Nat.mul_le_mul_left _ hstep
          _ ≤ 10 ^ t.length * (d.toNat - 48) + value t := Nat.le_add_right _ _
      · exact Nat.add_lt_add_left (ih (fun x hx => hs x (List.mem_cons_of_mem c hx))
          (fun x hx => ht x (List.mem_cons_of_mem c hx)) hlen' hst) _

theorem lt_of_less_text {m n : ℕ} (h : Less (text m) (text n)) : m < n := by
  rcases h with hlen | ⟨hlen, hlt⟩
  · -- a shorter text spells a number below a power of ten that the other one reaches
    have hpos : 0 < (text m).length := List.length_pos_of_ne_nil (text_ne_nil m)
    have hm : m < 10 ^ (text m).length :=
      (Nat.length_toDigits_le_iff (by omega) hpos).mp (Nat.le_refl _)
    have hn : ¬n < 10 ^ (text m).length := by
      intro hn
      have := (Nat.length_toDigits_le_iff (by omega) hpos).mpr hn
      exact absurd hlen (Nat.not_lt.mpr this)
    omega
  · rw [← value_text m, ← value_text n]
    exact value_lt_value (fun c => isDigit_of_mem_text) (fun c => isDigit_of_mem_text) hlen hlt

/-- **The order of canonical texts is the order of the numbers.** -/
theorem less_text {m n : ℕ} : Less (text m) (text n) ↔ m < n := by
  refine ⟨lt_of_less_text, fun hmn => ?_⟩
  by_contra hnot
  -- one of two texts is less, or they are the same
  have hnm : Less (text n) (text m) ∨ text n = text m := by
    rw [Less, not_or, not_lt, not_and] at hnot
    rcases Nat.lt_or_eq_of_le hnot.1 with hlen | hlen
    · exact .inl (.inl hlen)
    · rcases lt_trichotomy (text m) (text n) with h | h | h
      · exact absurd h (hnot.2 hlen.symm)
      · exact .inr h.symm
      · exact .inl (.inr ⟨hlen, h⟩)
  rcases hnm with h | h
  · exact absurd (lt_of_less_text h) (by omega)
  · exact absurd (text_inj.mp h) (by omega)

/-- A number with so many digits. -/
theorem pow_le_value {c : Char} {l : List Char} (hc : c.isDigit = true) (hzero : c ≠ '0') :
    10 ^ l.length ≤ value (c :: l) := by
  obtain ⟨hle, -⟩ := digit_bounds hc
  have hne : c.toNat ≠ 48 := by
    intro h
    exact hzero (Char.toNat_inj.mp h)
  have hd : 1 ≤ c.toNat - 48 := by omega
  calc 10 ^ l.length = 10 ^ l.length * 1 := (Nat.mul_one _).symm
    _ ≤ 10 ^ l.length * (c.toNat - 48) := Nat.mul_le_mul_left _ hd
    _ ≤ value (c :: l) := by
      rw [value_cons]
      exact Nat.le_add_right _ _

/-- Some digits without a leading zero are the text of the number that they spell. -/
theorem text_value {l : List Char} (hdigits : ∀ c ∈ l, c.isDigit = true) (hne : l ≠ [])
    (hzero : ∀ l', l = '0' :: l' → l' = []) : text (value l) = l := by
  have htext : ∀ c ∈ text (value l), c.isDigit = true := fun c => isDigit_of_mem_text
  have hlen : (text (value l)).length = l.length := by
    refine le_antisymm ?_ ?_
    · exact (Nat.length_toDigits_le_iff (by omega) (List.length_pos_of_ne_nil hne)).mpr
        (value_lt hdigits)
    · rcases l with _ | ⟨c, l⟩
      · exact absurd rfl hne
      · by_cases hc : c = '0'
        · subst hc
          rw [hzero l rfl]
          exact List.length_pos_of_ne_nil (text_ne_nil _)
        · have hpow := pow_le_value (l := l) (hdigits c List.mem_cons_self) hc
          have hlt := value_lt htext
          rw [value_text] at hlt
          have := (Nat.pow_lt_pow_iff_right (by omega : 1 < 10)).mp (hpow.trans_lt hlt)
          rw [List.length_cons]
          omega
  -- of two texts of the same length the lesser one spells a lesser number
  rcases lt_trichotomy (text (value l)) l with h | h | h
  · have := value_lt_value htext hdigits hlen h
    rw [value_text] at this
    exact absurd this (Nat.lt_irrefl _)
  · exact h
  · have := value_lt_value hdigits htext hlen.symm h
    rw [value_text] at this
    exact absurd this (Nat.lt_irrefl _)

/-- The first text in this order: `ORDER BY length(t), t LIMIT 1`. -/
def least : List (List Char) → Option (List Char)
  | [] => none
  | t :: l =>
    match least l with
    | some u => if Less u t then some u else some t
    | none => some t

theorem least_eq_none {l : List (List Char)} : least l = none ↔ l = [] := by
  cases l with
  | nil => simp [least]
  | cons t l =>
    simp only [least, reduceCtorEq, iff_false]
    split
    · split <;> simp
    · simp

/-- **The least of some canonical texts is that of the least number.** -/
theorem least_text {ns : List ℕ} {t : List Char} (h : least (ns.map text) = some t) :
    ∃ n ∈ ns, t = text n ∧ ∀ m ∈ ns, n ≤ m := by
  induction ns generalizing t with
  | nil => cases h
  | cons k ns ih =>
    rw [List.map_cons, least] at h
    split at h
    · rename_i u hu
      obtain ⟨n, hn, rfl, hmin⟩ := ih hu
      by_cases hlt : n < k
      · rw [if_pos (less_text.mpr hlt)] at h
        cases h
        refine ⟨n, List.mem_cons_of_mem k hn, rfl, ?_⟩
        intro m hm
        rcases List.mem_cons.mp hm with rfl | hm
        · omega
        · exact hmin m hm
      · rw [if_neg fun h => hlt (less_text.mp h)] at h
        cases h
        refine ⟨k, List.mem_cons_self, rfl, ?_⟩
        intro m hm
        rcases List.mem_cons.mp hm with rfl | hm
        · exact Nat.le_refl m
        · have := hmin m hm
          omega
    · rename_i hnone
      cases h
      rw [List.map_eq_nil_iff.mp (least_eq_none.mp hnone)]
      refine ⟨k, List.mem_cons_self, rfl, ?_⟩
      intro m hm
      rw [List.mem_singleton.mp hm]

end DigitOrder

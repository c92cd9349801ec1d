/-
Byte offsets into texts.

A UTF-8 text is sliced at byte offsets, but it consists of characters of one to
four bytes: a slice at an offset inside a character does not exist.

* `splitAt_eq_some` — a text is split exactly where some of its first characters
  have that many bytes;
* `le_of_mem_utf8` — the bytes of a character beyond ASCII are no ASCII characters;
* `byteLen_of_lower` — a text that reads as an ASCII text in some letter case has
  one byte for every character.
-/
import Mathlib.Algebra.BigOperators.Group.List.Basic
import Mathlib.Algebra.GroupWithZero.Nat
import Mathlib.Data.Char
import Mathlib.Tactic.Common

namespace ByteOffsets

/-- The bytes of the UTF-8 encoding of a text. -/
def byteLen (s : List Char) : ℕ := (s.map Char.utf8Size).sum

@[simp] theorem byteLen_nil : byteLen [] = 0 := rfl

@[simp] theorem byteLen_cons (c : Char) (s : List Char) :
    byteLen (c :: s) = c.utf8Size + byteLen s := by
  simp [byteLen]

@[simp] theorem byteLen_append (s t : List Char) :
    byteLen (s ++ t) = byteLen s + byteLen t := by
  simp [byteLen]

/-- The text before and after a byte offset; `none` inside a character and beyond the end. -/
def splitAt : ℕ → List Char → Option (List Char × List Char)
  | 0, s => some ([], s)
  | _ + 1, [] => none
  | n + 1, c :: s =>
    if c.utf8Size ≤ n + 1 then
      (splitAt (n + 1 - c.utf8Size) s).map fun p => (c :: p.1, p.2)
    else none

/-- The offset lies between two characters, or at an end of the text. -/
def IsBoundary (n : ℕ) (s : List Char) : Prop :=
  ∃ front rest, s = front ++ rest ∧ byteLen front = n

/-- **Where a text is split**: behind those first characters that have so many bytes. -/
theorem splitAt_eq_some {n : ℕ} {s front rest : List Char} :
    splitAt n s = some (front, rest) ↔ s = front ++ rest ∧ byteLen front = n := by
  induction s generalizing n front rest with
  | nil =>
    cases n with
    | zero =>
      simp only [splitAt, Option.some.injEq, Prod.mk.injEq]
      constructor
      · rintro ⟨rfl, rfl⟩
        exact ⟨rfl, rfl⟩
      · rintro ⟨h, -⟩
        have := List.append_eq_nil_iff.mp h.symm
        exact ⟨this.1.symm, this.2.symm⟩
    | succ n =>
      simp only [splitAt]
      constructor
      · intro h
        cases h
      · rintro ⟨h, hn⟩
        rw [(List.append_eq_nil_iff.mp h.symm).1] at hn
        cases hn
  | cons c s ih =>
    -- no character has zero bytes, so that it is either in front or behind
    have hpos := c.utf8Size_pos
    cases n with
    | zero =>
      simp only [splitAt, Option.some.injEq, Prod.mk.injEq]
      constructor
      · rintro ⟨rfl, rfl⟩
        exact ⟨rfl, rfl⟩
      · rintro ⟨h, hn⟩
        rcases front with _ | ⟨d, front⟩
        · exact ⟨rfl, h⟩
        · have := d.utf8Size_pos
          simp at hn
          omega
    | succ n =>
      simp only [splitAt]
      constructor
      · intro h
        split at h
        · obtain ⟨⟨front', rest'⟩, hsplit, heq⟩ := Option.map_eq_some_iff.mp h
          obtain ⟨hs, hlen⟩ := ih.mp hsplit
          cases heq
          refine ⟨by rw [hs, List.cons_append], ?_⟩
          rw [byteLen_cons, hlen]
          omega
        · cases h
      · rintro ⟨h, hn⟩
        rcases front with _ | ⟨d, front⟩
        · cases hn
        · obtain ⟨rfl, hs⟩ := List.cons.inj (h.trans (List.cons_append ..))
          rw [byteLen_cons] at hn
          rw [if_pos (by omega), ih.mpr ⟨hs, show byteLen front = n + 1 - c.utf8Size by omega⟩]
          rfl

theorem splitAt_eq_none {n : ℕ} {s : List Char} : splitAt n s = none ↔ ¬ IsBoundary n s := by
  constructor
  · rintro h ⟨front, rest, hs⟩
    rw [splitAt_eq_some.mpr hs] at h
    cases h
  · intro h
    rcases hsplit : splitAt n s with _ | ⟨front, rest⟩
    · rfl
    · exact absurd ⟨front, rest, splitAt_eq_some.mp hsplit⟩ h

/-! ### Bytes -/

/-- The UTF-8 encoding of a text. -/
def utf8 (s : List Char) : List UInt8 := s.flatMap String.utf8EncodeChar

theorem utf8_append (s t : List Char) : utf8 (s ++ t) = utf8 s ++ utf8 t := List.flatMap_append

theorem length_utf8 (s : List Char) : (utf8 s).length = byteLen s := by
  rw [utf8, List.length_flatMap, byteLen]
  simp only [String.length_utf8EncodeChar]

/-- An ASCII character is its own byte. -/
theorem utf8_ascii {c : Char} (h : c.toNat < 128) : utf8 [c] = [UInt8.ofNat c.toNat] := by
  have hc : c.val.toNat ≤ 127 := Nat.le_of_lt_succ h
  rw [utf8, List.flatMap_singleton, String.utf8EncodeChar]
  simp only [hc, if_true, Char.toNat]

/-- The bytes of the other characters are no ASCII characters. -/
theorem le_of_mem_utf8 {c : Char} (h : 128 ≤ c.toNat) {b : UInt8} (hb : b ∈ utf8 [c]) :
    128 ≤ b.toNat := by
  have hc : ¬c.val.toNat ≤ 127 := Nat.not_le.mpr h
  have hbyte : ∀ n, 128 ≤ n → n < 256 → 128 ≤ (UInt8.ofNat n).toNat := by
    intro n h hn
    rwa [UInt8.toNat_ofNat_of_lt' hn]
  rw [utf8, List.flatMap_singleton, String.utf8EncodeChar] at hb
  rw [if_neg hc] at hb
  split_ifs at hb
  · simp only [List.mem_cons, List.not_mem_nil, or_false] at hb
    rcases hb with rfl | rfl <;> exact hbyte _ (by omega) (by omega)
  · simp only [List.mem_cons, List.not_mem_nil, or_false] at hb
    rcases hb with rfl | rfl | rfl <;> exact hbyte _ (by omega) (by omega)
  · simp only [List.mem_cons, List.not_mem_nil, or_false] at hb
    rcases hb with rfl | rfl | rfl | rfl <;> exact hbyte _ (by omega) (by omega)

/-! ### Letter case -/

theorem utf8Size_of_ascii {c : Char} (h : c.toNat < 128) : c.utf8Size = 1 := by
  have hle : c.val ≤ 127 := UInt32.le_iff_toNat_le.mpr (by
    show c.toNat ≤ 127
    omega)
  exact if_pos hle

theorem byteLen_of_ascii {s : List Char} (h : ∀ c ∈ s, c.toNat < 128) : byteLen s = s.length := by
  induction s with
  | nil => rfl
  | cons c s ih =>
    obtain ⟨hc, hs⟩ := List.forall_mem_cons.mp h
    rw [byteLen_cons, utf8Size_of_ascii hc, ih hs, List.length_cons, Nat.add_comm]

/-- Only an ASCII character has an ASCII character as its lower case. -/
theorem ascii_of_toLower {c : Char} (h : c.toLower.toNat < 128) : c.toNat < 128 := by
  unfold Char.toLower at h
  split at h
  · rename_i hc
    have hle : c.toNat ≤ 'Z'.toNat := UInt32.le_iff_toNat_le.mp hc.2
    have : 'Z'.toNat = 90 := rfl
    omega
  · exact h

/-- A text that reads as an ASCII text, letter case aside, has one byte for every character. -/
theorem byteLen_of_lower {s p : List Char} (hp : ∀ c ∈ p, c.toNat < 128)
    (h : s.map Char.toLower = p) : byteLen s = s.length := by
  refine byteLen_of_ascii fun c hc => ascii_of_toLower (hp _ ?_)
  rw [← h]
  exact List.mem_map_of_mem hc

end ByteOffsets

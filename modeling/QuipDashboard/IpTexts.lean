/-
The texts of IP addresses.

The reader takes an address from the front of a text: an IPv4 address is four decimal
numbers, an IPv6 address eight hexadecimal groups, of which a run may be left out as `::`
and the last two may be written as an IPv4 address.  The printer leaves out the longest
run of zeros.

* `readNumber_toDigits` — a number is read back from its digits;
* `readGroups_joined` — the groups between colons are read up to the first text that is
  no group;
* `zeroRun_zeros` — what the printer leaves out are zeros;
* `parse_display` — **an address is read back from its text**;
* `parse_characters` — a text that is read as an address has a colon, or nothing but
  digits and dots.
-/
import QuipDashboard.PaddedTexts
import Mathlib.Data.List.Basic
import Mathlib.Data.Nat.Basic
import Mathlib.Tactic.IntervalCases
import Mathlib.Tactic.Ring

namespace IpTexts

/-! ### Addresses -/

/-- An IPv4 address, by its octets. -/
structure V4 where
  (a b c d : Fin 256)
  deriving DecidableEq

/-- An IPv6 address, by its eight segments. -/
structure V6 where
  segments : List (Fin 65536)
  length_eq : segments.length = 8
  deriving DecidableEq

/-- An address of either kind. -/
inductive Address where
  | v4 (ip : V4)
  | v6 (ip : V6)
  deriving DecidableEq

/-- `u16::from_be_bytes`. -/
def pair (high low : Fin 256) : Fin 65536 := ⟨256 * high + low, by omega⟩

/-- The high and the low byte of a segment. -/
def high (g : Fin 65536) : Fin 256 := ⟨g / 256, by omega⟩

def low (g : Fin 65536) : Fin 256 := ⟨g % 256, by omega⟩

/-- The two segments that an IPv4 address fills. -/
def V4.segments (ip : V4) : List (Fin 65536) := [pair ip.a ip.b, pair ip.c ip.d]

/-- An IPv6 address of the form `::ffff:a.b.c.d`, as the IPv4 address that it maps. -/
def V6.toV4Mapped (ip : V6) : Option V4 :=
  match ip.segments with
  | [0, 0, 0, 0, 0, 0xffff, x, y] => some ⟨high x, low x, high y, low y⟩
  | _ => none

/-- An address with the mapped IPv4 address in the place of the IPv6 address that maps it. -/
def Address.canonical : Address → Address
  | .v4 ip => .v4 ip
  | .v6 ip => match ip.toV4Mapped with
    | some mapped => .v4 mapped
    | none => .v6 ip

theorem pair_high_low (g : Fin 65536) : pair (high g) (low g) = g :=
  Fin.ext (Nat.div_add_mod g 256)

/-- **A canonical address maps no IPv4 address.** -/
theorem Address.canonical_canonical (ip : Address) : ip.canonical.canonical = ip.canonical := by
  rcases ip with ip | ip
  · rfl
  · rcases h : ip.toV4Mapped with _ | mapped
    · have hsame : Address.canonical (.v6 ip) = .v6 ip := by rw [Address.canonical, h]
      rw [hsame, hsame]
    · have hmapped : Address.canonical (.v6 ip) = .v4 mapped := by rw [Address.canonical, h]
      rw [hmapped]
      rfl

/-- The segments of an address that maps an IPv4 address. -/
theorem V6.segments_of_mapped {ip : V6} {mapped : V4} (h : ip.toV4Mapped = some mapped) :
    ip.segments = [0, 0, 0, 0, 0, 0xffff] ++ mapped.segments := by
  unfold V6.toV4Mapped at h
  split at h
  · rename_i x y heq
    cases h
    rw [heq, V4.segments, pair_high_low, pair_high_low]
    rfl
  · cases h

/-! ### The reader -/

/-- `char::to_digit`. -/
def toDigit (radix : ℕ) (c : Char) : Option ℕ :=
  (if '0' ≤ c ∧ c ≤ '9' then some (c.toNat - '0'.toNat)
    else if 'a' ≤ c ∧ c ≤ 'z' then some (c.toNat - 'a'.toNat + 10)
    else if 'A' ≤ c ∧ c ≤ 'Z' then some (c.toNat - 'A'.toNat + 10)
    else none).filter (· < radix)

/-- The digits at the front of a text, of which there may be `maxDigits`: their value,
their number and the rest of the text. -/
def readDigits (radix maxDigits : ℕ) : ℕ → ℕ → List Char → Option (ℕ × ℕ × List Char)
  | result, count, [] => some (result, count, [])
  | result, count, c :: s =>
    match toDigit radix c with
    | none => some (result, count, c :: s)
    | some d =>
      if maxDigits < count + 1 then none
      else readDigits radix maxDigits (result * radix + d) (count + 1) s

/-- A number of at least one digit below a bound. -/
def readNumber (radix maxDigits : ℕ) (allowZeroPrefix : Bool) (bound : ℕ) (s : List Char) :
    Option (Fin bound × List Char) :=
  match readDigits radix maxDigits 0 0 s with
  | none => none
  | some (result, count, rest) =>
    if count = 0 then none
    else if allowZeroPrefix = false ∧ s.head? = some '0' ∧ 1 < count then none
    else if h : result < bound then some (⟨result, h⟩, rest) else none

/-- The character at the front of a text. -/
def readChar (c : Char) : List Char → Option (List Char)
  | [] => none
  | x :: s => if x = c then some s else none

/-- An element of a list with separators: all but the first stand behind one. -/
def readSeparated {α : Type} (separator : Char) (index : ℕ)
    (inner : List Char → Option (α × List Char)) (s : List Char) : Option (α × List Char) :=
  if 0 < index then (readChar separator s).bind inner else inner s

/-- An octet of an IPv4 address, of at most three digits without leading zeros. -/
def readOctet (index : ℕ) (s : List Char) : Option (Fin 256 × List Char) :=
  readSeparated '.' index (readNumber 10 3 false 256) s

/-- An IPv4 address at the front of a text. -/
def readV4 (s : List Char) : Option (V4 × List Char) := do
  let (a, s) ← readOctet 0 s
  let (b, s) ← readOctet 1 s
  let (c, s) ← readOctet 2 s
  let (d, s) ← readOctet 3 s
  return (⟨a, b, c, d⟩, s)

/-- What has been read of the groups of an IPv6 address. -/
structure Groups where
  groups : List (Fin 65536)
  /-- The last two groups were written as an IPv4 address. -/
  ipv4 : Bool
  rest : List Char

/-- A group of an IPv6 address, of at most four hexadecimal digits. -/
def readGroup (index : ℕ) (s : List Char) : Option (Fin 65536 × List Char) :=
  readSeparated ':' index (readNumber 16 4 true 65536) s

/-- An IPv4 address in the place of two groups. -/
def readEmbedded (index : ℕ) (s : List Char) : Option (V4 × List Char) :=
  readSeparated ':' index readV4 s

/-- The groups at the front of a text, of which the first has this index: at most `n`, and
an IPv4 address in the place of two. -/
def readGroups : ℕ → ℕ → List Char → Groups
  | 0, _, s => ⟨[], false, s⟩
  | n + 1, index, s =>
    match if 0 < n then readEmbedded index s else none with
    | some (ip, rest) => ⟨ip.segments, true, rest⟩
    | none =>
      match readGroup index s with
      | none => ⟨[], false, s⟩
      | some (g, rest) =>
        let tail := readGroups n (index + 1) rest
        ⟨g :: tail.groups, tail.ipv4, tail.rest⟩

/-- No more groups are read than there is room for. -/
theorem length_readGroups_le (n index : ℕ) (s : List Char) :
    (readGroups n index s).groups.length ≤ n := by
  induction n generalizing index s with
  | zero => exact Nat.le_refl 0
  | succ n ih =>
    rw [readGroups]
    split
    · rename_i heq
      have hn : 0 < n := by
        by_contra hn
        rw [if_neg hn] at heq
        cases heq
      show 2 ≤ n + 1
      omega
    · split
      · exact Nat.zero_le _
      · exact Nat.succ_le_succ (ih _ _)

/-- The groups of an address of which a run of zeros is left out. -/
def filled (head tail : List (Fin 65536)) (h : head.length + tail.length ≤ 8) : V6 :=
  ⟨head ++ List.replicate (8 - head.length - tail.length) 0 ++ tail, by
    simp only [List.length_append, List.length_replicate]
    omega⟩

/-- An IPv6 address at the front of a text. -/
def readV6 (s : List Char) : Option (V6 × List Char) :=
  let head := readGroups 8 0 s
  if h : head.groups.length = 8 then some (⟨head.groups, h⟩, head.rest)
  else if head.ipv4 then none
  else
    match (readChar ':' head.rest).bind (readChar ':') with
    | none => none
    | some rest =>
      let tail := readGroups (8 - (head.groups.length + 1)) 0 rest
      some (filled head.groups tail.groups (by
        have hhead : head.groups.length ≤ 8 := length_readGroups_le 8 0 s
        have htail : tail.groups.length ≤ 8 - (head.groups.length + 1) :=
          length_readGroups_le _ 0 rest
        omega), tail.rest)

/-- An address at the front of a text. -/
def readAddress (s : List Char) : Option (Address × List Char) :=
  match readV4 s with
  | some (ip, rest) => some (.v4 ip, rest)
  | none => (readV6 s).map fun p => (.v6 p.1, p.2)

/-- The address that a whole text is. -/
def parse (s : List Char) : Option Address :=
  match readAddress s with
  | some (ip, []) => some ip
  | _ => none

/-! ### The printer -/

/-- A run of zeros. -/
structure Span where
  start : ℕ
  len : ℕ

/-- The first longest run of zeros among these groups and the one before them. -/
def zeroRun : ℕ → Span → Span → List (Fin 65536) → Span
  | _, longest, _, [] => longest
  | i, longest, current, g :: groups =>
    if g = 0 then
      let current : Span := ⟨if current.len = 0 then i else current.start, current.len + 1⟩
      zeroRun (i + 1) (if longest.len < current.len then current else longest) current groups
    else zeroRun (i + 1) longest ⟨0, 0⟩ groups

/-- The digits of a group. -/
def groupText (g : Fin 65536) : List Char := Nat.toDigits 16 g

/-- Groups with colons between them. -/
def joined : List (Fin 65536) → List Char
  | [] => []
  | g :: groups => groupText g ++ groups.flatMap fun g => ':' :: groupText g

/-- The text of an IPv4 address. -/
def V4.display (ip : V4) : List Char :=
  Nat.toDigits 10 ip.a ++ '.' :: (Nat.toDigits 10 ip.b ++ '.' ::
    (Nat.toDigits 10 ip.c ++ '.' :: Nat.toDigits 10 ip.d))

/-- What stands in front of a mapped IPv4 address. -/
def mappedLead : List Char := [':', ':', 'f', 'f', 'f', 'f', ':']

/-- The text of an IPv6 address. -/
def V6.display (ip : V6) : List Char :=
  match ip.toV4Mapped with
  | some mapped => mappedLead ++ mapped.display
  | none =>
    let zeroes := zeroRun 0 ⟨0, 0⟩ ⟨0, 0⟩ ip.segments
    if 1 < zeroes.len then
      joined (ip.segments.take zeroes.start) ++ ':' :: ':' ::
        joined (ip.segments.drop (zeroes.start + zeroes.len))
    else joined ip.segments

/-- The text of an address. -/
def Address.display : Address → List Char
  | .v4 ip => ip.display
  | .v6 ip => ip.display

/-! ### Numbers are read back -/

/-- The text does not start with a digit. -/
def NoDigit (radix : ℕ) (s : List Char) : Prop := ∀ c ∈ s.head?, toDigit radix c = none

theorem toDigit_digitChar {radix d : ℕ} (hradix : radix ≤ 16) (hd : d < radix) :
    toDigit radix (Nat.digitChar d) = some d := by
  have h16 : d < 16 := by omega
  have hall : toDigit 16 (Nat.digitChar d) = some d := by
    interval_cases d <;> rfl
  unfold toDigit at hall ⊢
  obtain ⟨hsome, -⟩ := Option.filter_eq_some_iff.mp hall
  rw [hsome, Option.filter_some, if_pos (by simpa using hd)]

theorem readDigits_of_noDigit {radix maxDigits : ℕ} {s : List Char} (h : NoDigit radix s)
    (result count : ℕ) :
    readDigits radix maxDigits result count s = some (result, count, s) := by
  rcases s with _ | ⟨c, s⟩
  · rfl
  · rw [readDigits, h c rfl]

/-- The digits of a number add its value to what was read before. -/
theorem readDigits_toDigits {radix maxDigits : ℕ} (hone : 1 < radix) (hradix : radix ≤ 16)
    (n result count : ℕ) (s : List Char)
    (hfits : count + (Nat.toDigits radix n).length ≤ maxDigits) :
    readDigits radix maxDigits result count (Nat.toDigits radix n ++ s) =
      readDigits radix maxDigits (result * radix ^ (Nat.toDigits radix n).length + n)
        (count + (Nat.toDigits radix n).length) s := by
  induction n using Nat.strongRecOn generalizing s with
  | _ n ih =>
    have hlast : ∀ d < radix, ∀ r k : ℕ, k < maxDigits →
        readDigits radix maxDigits r k (Nat.digitChar d :: s) =
          readDigits radix maxDigits (r * radix + d) (k + 1) s := by
      intro d hd r k hk
      rw [readDigits, toDigit_digitChar hradix hd]
      exact if_neg (by omega)
    by_cases hn : n < radix
    · rw [Nat.toDigits_of_lt_base hn] at hfits ⊢
      simp only [List.length_singleton] at hfits ⊢
      rw [List.singleton_append, hlast n hn result count (by omega), pow_one]
    · have hbase : radix ≤ n := not_lt.mp hn
      rw [Nat.toDigits_of_base_le hone hbase] at hfits ⊢
      simp only [List.length_append, List.length_singleton] at hfits ⊢
      have hdiv : n / radix < n := Nat.div_lt_self (by omega) hone
      rw [List.append_assoc, List.singleton_append, ih (n / radix) hdiv _ (by omega),
        hlast (n % radix) (Nat.mod_lt n (by omega)) _ _ (by omega), Nat.add_assoc]
      congr 1
      -- the last digit stands below the value of the digits before it
      have hvalue : n = n / radix * radix + n % radix := (Nat.div_add_mod' n radix).symm
      rw [pow_succ, Nat.add_mul, Nat.mul_assoc, Nat.add_assoc, ← hvalue]

/-- **A number is read back from its digits.** -/
theorem readNumber_toDigits {radix maxDigits bound : ℕ} (zeroPrefix : Bool) (hone : 1 < radix)
    (hradix : radix ≤ 16) (n : Fin bound) {s : List Char}
    (hlen : (Nat.toDigits radix n).length ≤ maxDigits)
    (hzero : zeroPrefix = false → (n : ℕ) ≠ 0 → (Nat.toDigits radix n).head? ≠ some '0')
    (hs : NoDigit radix s) :
    readNumber radix maxDigits zeroPrefix bound (Nat.toDigits radix n ++ s) = some (n, s) := by
  have hpos : 0 < (Nat.toDigits radix (n : ℕ)).length := Nat.length_toDigits_pos
  rw [readNumber, readDigits_toDigits hone hradix n 0 0 s (by omega),
    readDigits_of_noDigit hs]
  simp only [Nat.zero_mul, Nat.zero_add]
  rw [if_neg (by omega), if_neg, dif_pos n.isLt]
  rintro ⟨hlead, hhead, hcount⟩
  rw [List.head?_append_of_ne_nil _ (List.ne_nil_of_length_pos hpos)] at hhead
  by_cases hn : (n : ℕ) = 0
  · rw [hn, Nat.toDigits_zero] at hcount
    exact absurd hcount (by decide)
  · exact hzero hlead hn hhead

/-! ### What a reader takes from a text -/

theorem readDigits_front {radix maxDigits result count : ℕ} {s : List Char} {value read : ℕ}
    {rest : List Char}
    (h : readDigits radix maxDigits result count s = some (value, read, rest)) :
    ∃ front, s = front ++ rest ∧ ∀ c ∈ front, (toDigit radix c).isSome := by
  induction s generalizing result count with
  | nil =>
    cases h
    exact ⟨[], rfl, fun c hc => absurd hc List.not_mem_nil⟩
  | cons x s ih =>
    rw [readDigits] at h
    split at h
    · cases h
      exact ⟨[], rfl, fun c hc => absurd hc List.not_mem_nil⟩
    · rename_i d hd
      split at h
      · cases h
      · obtain ⟨front, rfl, hfront⟩ := ih h
        refine ⟨x :: front, rfl, fun c hc => ?_⟩
        rcases List.mem_cons.mp hc with rfl | hc
        · rw [hd]
          rfl
        · exact hfront c hc

theorem readNumber_front {radix maxDigits bound : ℕ} {zeroPrefix : Bool} {s rest : List Char}
    {n : Fin bound} (h : readNumber radix maxDigits zeroPrefix bound s = some (n, rest)) :
    ∃ front, s = front ++ rest ∧ ∀ c ∈ front, (toDigit radix c).isSome := by
  rw [readNumber] at h
  split at h
  · cases h
  · rename_i hread
    split at h
    · cases h
    · split at h
      · cases h
      · split at h
        · cases h
          exact readDigits_front hread
        · cases h

theorem readNumber_eq_none {radix maxDigits bound : ℕ} {zeroPrefix : Bool} {s : List Char}
    (h : NoDigit radix s) : readNumber radix maxDigits zeroPrefix bound s = none := by
  rw [readNumber, readDigits_of_noDigit h]
  exact if_pos rfl

theorem readChar_eq_some {c : Char} {s rest : List Char} :
    readChar c s = some rest ↔ s = c :: rest := by
  rcases s with _ | ⟨x, s⟩
  · simp [readChar]
  · rw [readChar, List.cons.injEq]
    by_cases hx : x = c
    · rw [if_pos hx, Option.some.injEq]
      exact ⟨fun h => ⟨hx, h⟩, fun h => h.2⟩
    · rw [if_neg hx]
      exact ⟨fun h => (by cases h), fun h => absurd h.1 hx⟩

/-- Behind the first element of a list there is a separator. -/
theorem readSeparated_eq_some {α : Type} {separator : Char} {index : ℕ}
    {inner : List Char → Option (α × List Char)} {s : List Char} {p : α × List Char}
    (h : readSeparated separator index inner s = some p) :
    (index = 0 ∧ inner s = some p) ∨ ∃ rest, s = separator :: rest ∧ inner rest = some p := by
  unfold readSeparated at h
  split at h
  · obtain ⟨rest, hrest, h⟩ := Option.bind_eq_some_iff.mp h
    exact .inr ⟨rest, readChar_eq_some.mp hrest, h⟩
  · exact .inl ⟨by omega, h⟩

theorem readSeparated_zero {α : Type} (separator : Char)
    (inner : List Char → Option (α × List Char)) (s : List Char) :
    readSeparated separator 0 inner s = inner s := rfl

theorem readSeparated_cons {α : Type} (separator : Char) {index : ℕ} (h : 0 < index)
    (inner : List Char → Option (α × List Char)) (s : List Char) :
    readSeparated separator index inner (separator :: s) = inner s := by
  rw [readSeparated, if_pos h, readChar_eq_some.mpr rfl, Option.bind_some]

/-- The characters of an IPv4 address. -/
def IsV4Char (c : Char) : Prop := (toDigit 10 c).isSome ∨ c = '.'

theorem readOctet_front {index : ℕ} {s rest : List Char} {o : Fin 256}
    (h : readOctet index s = some (o, rest)) :
    ∃ front, s = front ++ rest ∧ (∀ c ∈ front, IsV4Char c) ∧ (0 < index → '.' ∈ front) := by
  rcases readSeparated_eq_some h with ⟨rfl, hread⟩ | ⟨behind, rfl, hread⟩
  · obtain ⟨front, hs, hfront⟩ := readNumber_front hread
    exact ⟨front, hs, fun c hc => .inl (hfront c hc), fun h => absurd h (Nat.lt_irrefl 0)⟩
  · obtain ⟨front, rfl, hfront⟩ := readNumber_front hread
    refine ⟨'.' :: front, rfl, fun c hc => ?_, fun _ => List.mem_cons_self⟩
    rcases List.mem_cons.mp hc with rfl | hc
    · exact .inr rfl
    · exact .inl (hfront c hc)

/-- An IPv4 address consists of digits and dots. -/
theorem readV4_front {s rest : List Char} {ip : V4} (h : readV4 s = some (ip, rest)) :
    ∃ front, s = front ++ rest ∧ (∀ c ∈ front, IsV4Char c) ∧ '.' ∈ front := by
  unfold readV4 at h
  simp only [Option.bind_eq_bind, Option.bind_eq_some_iff, Option.pure_def] at h
  obtain ⟨⟨a, s₁⟩, ha, ⟨b, s₂⟩, hb, ⟨c, s₃⟩, hc, ⟨d, s₄⟩, hd, heq⟩ := h
  cases heq
  obtain ⟨fa, rfl, hfa, -⟩ := readOctet_front ha
  obtain ⟨fb, rfl, hfb, hdot⟩ := readOctet_front hb
  obtain ⟨fc, rfl, hfc, -⟩ := readOctet_front hc
  obtain ⟨fd, rfl, hfd, -⟩ := readOctet_front hd
  refine ⟨fa ++ (fb ++ (fc ++ fd)), by simp only [List.append_assoc], fun c hc => ?_, ?_⟩
  · simp only [List.mem_append] at hc
    rcases hc with hc | hc | hc | hc
    · exact hfa c hc
    · exact hfb c hc
    · exact hfc c hc
    · exact hfd c hc
  · simp only [List.mem_append]
    exact .inr (.inl (hdot Nat.zero_lt_one))

theorem readV4_of_noDot {s : List Char} (h : '.' ∉ s) : readV4 s = none := by
  rcases hread : readV4 s with _ | ⟨ip, rest⟩
  · rfl
  · obtain ⟨front, rfl, -, hdot⟩ := readV4_front hread
    exact absurd (List.mem_append_left rest hdot) h

theorem readEmbedded_of_noDot {s : List Char} (index : ℕ) (h : '.' ∉ s) :
    readEmbedded index s = none := by
  rcases hread : readEmbedded index s with _ | p
  · rfl
  · rcases readSeparated_eq_some hread with ⟨-, hv4⟩ | ⟨rest, rfl, hv4⟩
    · rw [readV4_of_noDot h] at hv4
      cases hv4
    · rw [readV4_of_noDot fun hdot => h (List.mem_cons_of_mem _ hdot)] at hv4
      cases hv4

/-- What is left behind the groups is the end of the text. -/
theorem readGroups_suffix (n index : ℕ) (s : List Char) : (readGroups n index s).rest <:+ s := by
  induction n generalizing index s with
  | zero => exact List.suffix_refl s
  | succ n ih =>
    rw [readGroups]
    split
    · rename_i ip rest heq
      split at heq
      · rcases readSeparated_eq_some heq with ⟨-, hv4⟩ | ⟨behind, rfl, hv4⟩
        · obtain ⟨front, rfl, -⟩ := readV4_front hv4
          exact List.suffix_append front rest
        · obtain ⟨front, rfl, -⟩ := readV4_front hv4
          exact (List.suffix_append front rest).trans (List.suffix_cons _ _)
      · cases heq
    · split
      · exact List.suffix_refl s
      · rename_i g rest hread
        refine (ih (index + 1) rest).trans ?_
        rcases readSeparated_eq_some hread with ⟨-, hnumber⟩ | ⟨behind, rfl, hnumber⟩
        · obtain ⟨front, rfl, -⟩ := readNumber_front hnumber
          exact List.suffix_append front rest
        · obtain ⟨front, rfl, -⟩ := readNumber_front hnumber
          exact (List.suffix_append front rest).trans (List.suffix_cons _ _)

/-- Behind the first group there is a colon. -/
theorem colon_mem_of_readGroups {n index : ℕ} {s : List Char} (hindex : 0 < index)
    (h : (readGroups n index s).groups ≠ []) : ':' ∈ s := by
  have hseparated : ∀ {α : Type} {inner : List Char → Option (α × List Char)}
      {p : α × List Char}, readSeparated ':' index inner s = some p → ':' ∈ s := by
    intro α inner p hread
    rcases readSeparated_eq_some hread with ⟨hzero, -⟩ | ⟨rest, rfl, -⟩
    · omega
    · exact List.mem_cons_self
  rcases n with _ | n
  · exact absurd rfl h
  · rw [readGroups] at h
    split at h
    · rename_i heq
      split at heq
      · exact hseparated heq
      · cases heq
    · split at h
      · exact absurd rfl h
      · rename_i hread
        exact hseparated hread

/-- A text at the front of which there is an IPv6 address has a colon. -/
theorem colon_mem_of_readV6 {s rest : List Char} {ip : V6} (h : readV6 s = some (ip, rest)) :
    ':' ∈ s := by
  unfold readV6 at h
  simp only at h
  split at h
  · rename_i hlen
    -- of eight groups the second stands behind a colon
    rw [readGroups] at hlen
    split at hlen
    · cases hlen
    · split at hlen
      · cases hlen
      · rename_i g behind hread
        have hne : (readGroups 7 1 behind).groups ≠ [] := by
          intro hnil
          simp only [hnil, List.length_singleton] at hlen
          cases hlen
        have hcolon := colon_mem_of_readGroups Nat.zero_lt_one hne
        rcases readSeparated_eq_some hread with ⟨-, hnumber⟩ | ⟨after, rfl, -⟩
        · obtain ⟨front, rfl, -⟩ := readNumber_front hnumber
          exact List.mem_append_right front hcolon
        · exact List.mem_cons_self
  · split at h
    · cases h
    · split at h
      · cases h
      · rename_i hchars
        obtain ⟨one, hone, -⟩ := Option.bind_eq_some_iff.mp hchars
        refine (readGroups_suffix 8 0 s).subset ?_
        rw [readChar_eq_some.mp hone]
        exact List.mem_cons_self

/-- **A text that is an address has a colon, or nothing but digits and dots.** -/
theorem parse_characters {s : List Char} {ip : Address} (h : parse s = some ip) :
    ':' ∈ s ∨ ∀ c ∈ s, IsV4Char c := by
  unfold parse at h
  split at h
  · rename_i hread
    unfold readAddress at hread
    split at hread
    · rename_i hv4
      cases hread
      obtain ⟨front, rfl, hfront, -⟩ := readV4_front hv4
      rw [List.append_nil]
      exact .inr hfront
    · obtain ⟨⟨ip, rest⟩, hv6, -⟩ := Option.map_eq_some_iff.mp hread
      exact .inl (colon_mem_of_readV6 hv6)
  · cases h

/-! ### An IPv4 address is read back -/

theorem readOctet_toDigits (o : Fin 256) {s : List Char} (hs : NoDigit 10 s) :
    readNumber 10 3 false 256 (Nat.toDigits 10 o ++ s) = some (o, s) := by
  have hlen : (Nat.toDigits 10 (o : ℕ)).length ≤ 3 :=
    (Nat.length_toDigits_le_iff (by omega) (by omega)).mpr (by omega)
  refine readNumber_toDigits false (by omega) (by omega) o hlen (fun _ hne hhead => ?_) hs
  obtain ⟨l, hl⟩ := List.head?_eq_some_iff.mp hhead
  exact DigitOrder.text_head_ne_zero hne l hl

theorem noDigit_cons {radix : ℕ} {c : Char} (h : toDigit radix c = none) (s : List Char) :
    NoDigit radix (c :: s) := by
  intro x hx
  cases hx
  exact h

theorem noDigit_nil (radix : ℕ) : NoDigit radix [] := fun c hc => by cases hc

theorem readV4_display (ip : V4) {s : List Char} (hs : NoDigit 10 s) :
    readV4 (ip.display ++ s) = some (ip, s) := by
  have hfirst : ∀ (o : Fin 256) (t : List Char),
      readOctet 0 (Nat.toDigits 10 o ++ '.' :: t) = some (o, '.' :: t) := by
    intro o t
    exact readOctet_toDigits o (noDigit_cons rfl t)
  have hnext : ∀ (i : ℕ) (o : Fin 256) (t : List Char), 0 < i → NoDigit 10 t →
      readOctet i ('.' :: (Nat.toDigits 10 o ++ t)) = some (o, t) := by
    intro i o t hi ht
    rw [readOctet, readSeparated_cons '.' hi]
    exact readOctet_toDigits o ht
  have htext : ip.display ++ s = Nat.toDigits 10 ip.a ++ '.' :: (Nat.toDigits 10 ip.b ++ '.' ::
      (Nat.toDigits 10 ip.c ++ '.' :: (Nat.toDigits 10 ip.d ++ s))) := by
    simp only [V4.display, List.append_assoc, List.cons_append]
  rw [htext, readV4, hfirst]
  simp only [Option.bind_eq_bind, Option.bind_some, Option.pure_def]
  rw [hnext 1 ip.b _ (by omega) (noDigit_cons rfl _), Option.bind_some,
    hnext 2 ip.c _ (by omega) (noDigit_cons rfl _), Option.bind_some,
    hnext 3 ip.d s (by omega) hs, Option.bind_some]

/-! ### The groups between colons are read back -/

/-- Groups behind a colon each. -/
def behind (groups : List (Fin 65536)) : List Char :=
  groups.flatMap fun g => ':' :: groupText g

theorem behind_cons (g : Fin 65536) (groups : List (Fin 65536)) :
    behind (g :: groups) = ':' :: (groupText g ++ behind groups) := by
  rw [behind, List.flatMap_cons, List.cons_append]
  rfl

theorem joined_cons (g : Fin 65536) (groups : List (Fin 65536)) :
    joined (g :: groups) = groupText g ++ behind groups := rfl

/-- The digits of a group are hexadecimal. -/
theorem isSome_of_mem_groupText {g : Fin 65536} {c : Char} (h : c ∈ groupText g) :
    (toDigit 16 c).isSome := by
  have hall : ∀ n : ℕ, ∀ c ∈ Nat.toDigits 16 n, (toDigit 16 c).isSome := by
    intro n
    induction n using Nat.strongRecOn with
    | _ n ih =>
      intro c hc
      by_cases hn : n < 16
      · rw [Nat.toDigits_of_lt_base hn, List.mem_singleton] at hc
        rw [hc, toDigit_digitChar (Nat.le_refl 16) hn]
        rfl
      · have hbase : 16 ≤ n := not_lt.mp hn
        rw [Nat.toDigits_of_base_le (by omega) hbase] at hc
        rcases List.mem_append.mp hc with hc | hc
        · exact ih (n / 16) (Nat.div_lt_self (by omega) (by omega)) c hc
        · rw [List.mem_singleton.mp hc,
            toDigit_digitChar (Nat.le_refl 16) (Nat.mod_lt n (by omega))]
          rfl
  exact hall g c h

/-- Only hexadecimal digits and colons stand in the text of some groups. -/
theorem mem_joined {groups : List (Fin 65536)} {c : Char} (h : c ∈ joined groups) :
    (toDigit 16 c).isSome ∨ c = ':' := by
  rcases groups with _ | ⟨g, groups⟩
  · cases h
  · rcases List.mem_append.mp h with h | h
    · exact .inl (isSome_of_mem_groupText h)
    · obtain ⟨x, -, hx⟩ := List.mem_flatMap.mp h
      rcases List.mem_cons.mp hx with hx | hx
      · exact .inr hx
      · exact .inl (isSome_of_mem_groupText hx)

theorem dot_notMem_joined (groups : List (Fin 65536)) : '.' ∉ joined groups := by
  intro h
  rcases mem_joined h with h | h
  · exact absurd h (by decide)
  · exact absurd h (by decide)

theorem readGroup_groupText (g : Fin 65536) {s : List Char} (hs : NoDigit 16 s) :
    readNumber 16 4 true 65536 (groupText g ++ s) = some (g, s) := by
  have hlen : (Nat.toDigits 16 (g : ℕ)).length ≤ 4 :=
    (Nat.length_toDigits_le_iff (by omega) (by omega)).mpr (by omega)
  exact readNumber_toDigits true (by omega) (by omega) g hlen (fun h => by cases h) hs

/-- The groups of an address end in front of this text. -/
structure Ends (s : List Char) : Prop where
  noDigit : NoDigit 16 s
  noGroup : ∀ index, readGroup index s = none
  noDot : '.' ∉ s

theorem ends_nil : Ends [] where
  noDigit := noDigit_nil 16
  noGroup := by
    intro index
    rw [readGroup, readSeparated]
    split
    · rfl
    · exact readNumber_eq_none (noDigit_nil 16)
  noDot := List.not_mem_nil

/-- The groups of an address end in front of the two colons. -/
theorem ends_colons {s : List Char} (h : '.' ∉ s) : Ends (':' :: ':' :: s) where
  noDigit := noDigit_cons rfl _
  noGroup := by
    intro index
    rcases Nat.eq_zero_or_pos index with rfl | hindex
    · rw [readGroup, readSeparated_zero]
      exact readNumber_eq_none (noDigit_cons rfl _)
    · rw [readGroup, readSeparated_cons ':' hindex]
      exact readNumber_eq_none (noDigit_cons rfl _)
  noDot := by
    simp only [List.mem_cons, not_or]
    exact ⟨by decide, by decide, h⟩

theorem readGroups_ends {s : List Char} (h : Ends s) (n index : ℕ) :
    readGroups n index s = ⟨[], false, s⟩ := by
  rcases n with _ | n
  · rfl
  · have hnone : (if 0 < n then readEmbedded index s else none) = none := by
      rw [readEmbedded_of_noDot index h.noDot]
      exact ite_self none
    rw [readGroups, hnone, h.noGroup]

/-- A group is taken off the front of a text without dots. -/
theorem readGroups_succ {n index : ℕ} {g : Fin 65536} {s rest : List Char} (hdot : '.' ∉ s)
    (h : readGroup index s = some (g, rest)) :
    readGroups (n + 1) index s = ⟨g :: (readGroups n (index + 1) rest).groups,
      (readGroups n (index + 1) rest).ipv4, (readGroups n (index + 1) rest).rest⟩ := by
  have hnone : (if 0 < n then readEmbedded index s else none) = none := by
    rw [readEmbedded_of_noDot index hdot]
    exact ite_self none
  rw [readGroups, hnone, h]

theorem dot_notMem_behind {groups : List (Fin 65536)} {s : List Char} (h : Ends s) :
    '.' ∉ behind groups ++ s := by
  intro hdot
  rcases List.mem_append.mp hdot with hdot | hdot
  · obtain ⟨x, -, hx⟩ := List.mem_flatMap.mp hdot
    rcases List.mem_cons.mp hx with hx | hx
    · exact absurd hx (by decide)
    · exact absurd (isSome_of_mem_groupText hx) (by decide)
  · exact h.noDot hdot

theorem noDigit_behind {groups : List (Fin 65536)} {s : List Char} (h : Ends s) :
    NoDigit 16 (behind groups ++ s) := by
  rcases groups with _ | ⟨g, groups⟩
  · exact h.noDigit
  · rw [behind_cons, List.cons_append]
    exact noDigit_cons rfl _

theorem readGroups_behind {groups : List (Fin 65536)} {s : List Char} (hs : Ends s)
    {n index : ℕ} (hindex : 0 < index) (hlen : groups.length ≤ n) :
    readGroups n index (behind groups ++ s) = ⟨groups, false, s⟩ := by
  induction groups generalizing n index with
  | nil => exact readGroups_ends hs n index
  | cons g groups ih =>
    obtain ⟨n, rfl⟩ : ∃ m, n = m + 1 := ⟨n - 1, by
      rw [List.length_cons] at hlen
      omega⟩
    have hgroup : readGroup index (behind (g :: groups) ++ s) = some (g, behind groups ++ s) := by
      rw [behind_cons, List.cons_append, List.append_assoc, readGroup,
        readSeparated_cons ':' hindex]
      exact readGroup_groupText g (noDigit_behind hs)
    rw [readGroups_succ (dot_notMem_behind hs) hgroup,
      ih (Nat.succ_pos index) (Nat.le_of_succ_le_succ hlen)]

/-- **The groups between colons are read up to the end of the groups.** -/
theorem readGroups_joined {groups : List (Fin 65536)} {s : List Char} (hs : Ends s) {n : ℕ}
    (hlen : groups.length ≤ n) : readGroups n 0 (joined groups ++ s) = ⟨groups, false, s⟩ := by
  rcases groups with _ | ⟨g, groups⟩
  · exact readGroups_ends hs n 0
  · obtain ⟨n, rfl⟩ : ∃ m, n = m + 1 := ⟨n - 1, by
      rw [List.length_cons] at hlen
      omega⟩
    have hdot : '.' ∉ joined (g :: groups) ++ s := by
      intro hdot
      rcases List.mem_append.mp hdot with hdot | hdot
      · exact dot_notMem_joined _ hdot
      · exact hs.noDot hdot
    have hgroup : readGroup 0 (joined (g :: groups) ++ s) = some (g, behind groups ++ s) := by
      rw [joined_cons, List.append_assoc]
      exact readGroup_groupText g (noDigit_behind hs)
    rw [readGroups_succ hdot hgroup,
      readGroups_behind hs Nat.zero_lt_one (Nat.le_of_succ_le_succ hlen)]

theorem readGroups_whole {groups : List (Fin 65536)} {n : ℕ} (hlen : groups.length ≤ n) :
    readGroups n 0 (joined groups) = ⟨groups, false, []⟩ := by
  have h := readGroups_joined ends_nil hlen
  rwa [List.append_nil] at h

/-! ### The run of zeros -/

/-- These groups are zeros. -/
def Zeros (groups : List (Fin 65536)) (span : Span) : Prop :=
  ∀ j < span.len, groups[span.start + j]? = some 0

theorem zeros_empty (groups : List (Fin 65536)) (start : ℕ) : Zeros groups ⟨start, 0⟩ :=
  fun j hj => absurd hj (Nat.not_lt_zero j)

/-- **What the printer leaves out are zeros.** -/
theorem zeroRun_zeros {all groups : List (Fin 65536)} {i : ℕ} {longest current : Span}
    (hall : all.drop i = groups) (hlongest : Zeros all longest) (hcurrent : Zeros all current)
    (hend : 0 < current.len → current.start + current.len = i) :
    Zeros all (zeroRun i longest current groups) := by
  induction groups generalizing i longest current with
  | nil => exact hlongest
  | cons g groups ih =>
    have hdrop : all.drop (i + 1) = groups := by
      rw [← List.drop_drop, hall, List.drop_one, List.tail_cons]
    rw [zeroRun]
    split
    · rename_i hg
      have hhere : all[i]? = some 0 := by
        have := congrArg (·[0]?) hall
        simpa [hg] using this
      -- the run grows by the group at this index
      have hgrown : Zeros all ⟨if current.len = 0 then i else current.start, current.len + 1⟩ := by
        intro j hj
        simp only at hj ⊢
        split
        · rename_i hzero
          have : j = 0 := by omega
          rw [this]
          exact hhere
        · by_cases hlast : j = current.len
          · rw [hlast, hend (by omega)]
            exact hhere
          · exact hcurrent j (by omega)
      refine ih hdrop (iteInduction (fun _ => hgrown) fun _ => hlongest) hgrown ?_
      · intro _
        simp only
        split
        · omega
        · have := hend (by omega)
          omega
    · exact ih hdrop hlongest (zeros_empty all 0) fun h => absurd h (Nat.lt_irrefl 0)

/-- The zeros that are left out, between the groups that are not. -/
theorem eq_of_zeros {groups : List (Fin 65536)} {span : Span} (h : Zeros groups span)
    (hlen : 0 < span.len) :
    span.start + span.len ≤ groups.length ∧
      groups = groups.take span.start ++ List.replicate span.len 0 ++
        groups.drop (span.start + span.len) := by
  have hend : span.start + span.len ≤ groups.length := by
    obtain ⟨hlt, -⟩ := List.getElem?_eq_some_iff.mp (h (span.len - 1) (by omega))
    omega
  have hmiddle : (groups.drop span.start).take span.len = List.replicate span.len 0 := by
    refine List.ext_getElem? fun j => ?_
    rw [List.getElem?_take, List.getElem?_replicate]
    split
    · rw [List.getElem?_drop, h j ‹_›]
    · rfl
  refine ⟨hend, ?_⟩
  calc groups = groups.take span.start ++ groups.drop span.start :=
        (List.take_append_drop _ _).symm
    _ = groups.take span.start ++ ((groups.drop span.start).take span.len ++
          (groups.drop span.start).drop span.len) :=
        congrArg (groups.take span.start ++ ·) (List.take_append_drop _ _).symm
    _ = _ := by rw [hmiddle, List.drop_drop, List.append_assoc]

/-! ### An IPv6 address is read back -/

theorem V6.ext {x y : V6} (h : x.segments = y.segments) : x = y := by
  cases x
  cases y
  cases h
  rfl

/-- Eight groups are an address. -/
theorem readV6_of_groups {s rest : List Char} {ip : V6} {v4 : Bool}
    (h : readGroups 8 0 s = ⟨ip.segments, v4, rest⟩) : readV6 s = some (ip, rest) := by
  rw [readV6]
  simp only [h]
  rw [dif_pos ip.length_eq]

/-- Two colons stand for the zeros between the groups. -/
theorem readV6_of_colons {s behind rest : List Char} {head tail : List (Fin 65536)} {v4 : Bool}
    {ip : V6} (hhead : readGroups 8 0 s = ⟨head, false, ':' :: ':' :: behind⟩)
    (hlen : head.length ≠ 8)
    (htail : readGroups (8 - (head.length + 1)) 0 behind = ⟨tail, v4, rest⟩)
    (hip : ip.segments =
      head ++ List.replicate (8 - head.length - tail.length) 0 ++ tail) :
    readV6 s = some (ip, rest) := by
  rw [readV6]
  simp only [hhead]
  rw [dif_neg hlen, if_neg Bool.false_ne_true]
  have hcolons : (readChar ':' (':' :: ':' :: behind)).bind (readChar ':') = some behind := by
    rw [readChar_eq_some.mpr rfl, Option.bind_some, readChar_eq_some.mpr rfl]
  simp only [hcolons, htail]
  exact congrArg some (Prod.ext (V6.ext hip.symm) rfl)

/-- The text of an address that maps no IPv4 address has no dot. -/
theorem dot_notMem_display {ip : V6} (h : ip.toV4Mapped = none) : '.' ∉ ip.display := by
  rw [V6.display, h]
  simp only
  split
  · intro hdot
    rcases List.mem_append.mp hdot with hdot | hdot
    · exact dot_notMem_joined _ hdot
    · simp only [List.mem_cons] at hdot
      rcases hdot with hdot | hdot | hdot
      · exact absurd hdot (by decide)
      · exact absurd hdot (by decide)
      · exact dot_notMem_joined _ hdot
  · exact dot_notMem_joined _

theorem readV6_display_of_not_mapped {ip : V6} (h : ip.toV4Mapped = none) :
    readV6 ip.display = some (ip, []) := by
  rw [V6.display, h]
  simp only
  split
  · rename_i hlen
    have hzeros : Zeros ip.segments (zeroRun 0 ⟨0, 0⟩ ⟨0, 0⟩ ip.segments) :=
      zeroRun_zeros rfl (zeros_empty _ 0) (zeros_empty _ 0) fun h => absurd h (Nat.lt_irrefl 0)
    obtain ⟨hend, heq⟩ := eq_of_zeros hzeros (by omega)
    revert hlen hend heq
    generalize zeroRun 0 ⟨0, 0⟩ ⟨0, 0⟩ ip.segments = span
    intro hlen hend heq
    have height := ip.length_eq
    have hhead : (ip.segments.take span.start).length = span.start := by
      rw [List.length_take]
      omega
    have htail : (ip.segments.drop (span.start + span.len)).length =
        8 - (span.start + span.len) := by
      rw [List.length_drop, height]
    have hrest : readGroups (8 - ((ip.segments.take span.start).length + 1)) 0
        (joined (ip.segments.drop (span.start + span.len))) =
          ⟨ip.segments.drop (span.start + span.len), false, []⟩ :=
      readGroups_whole (by omega)
    refine readV6_of_colons
      (readGroups_joined (ends_colons (dot_notMem_joined _)) (by omega)) (by omega) hrest ?_
    have hcount : 8 - (ip.segments.take span.start).length -
        (ip.segments.drop (span.start + span.len)).length = span.len := by omega
    rw [hcount]
    exact heq
  · exact readV6_of_groups (readGroups_whole (Nat.le_of_eq ip.length_eq))

theorem readV6_display_of_mapped {ip : V6} {mapped : V4} (h : ip.toV4Mapped = some mapped) :
    readV6 ip.display = some (ip, []) := by
  have htext : ip.display = ':' :: ':' :: (groupText 0xffff ++ ':' :: mapped.display) := by
    rw [V6.display, h]
    rfl
  have hnone : ∀ s : List Char, readGroups 8 0 (':' :: s) = ⟨[], false, ':' :: s⟩ := by
    intro s
    have hv4 : readEmbedded 0 (':' :: s) = none := by
      rw [readEmbedded, readSeparated_zero, readV4, readOctet, readSeparated_zero,
        readNumber_eq_none (noDigit_cons rfl s)]
      rfl
    have hgroup : readGroup 0 (':' :: s) = none := by
      rw [readGroup, readSeparated_zero]
      exact readNumber_eq_none (noDigit_cons rfl s)
    rw [readGroups, hv4, hgroup]
    rfl
  have hfirst : readGroups 7 0 (groupText 0xffff ++ ':' :: mapped.display) =
      ⟨0xffff :: mapped.segments, true, []⟩ := by
    -- the first group is no IPv4 address, the text behind it is one
    have hletters : groupText 0xffff = ['f', 'f', 'f', 'f'] := rfl
    have hv4 : readEmbedded 0 (groupText 0xffff ++ ':' :: mapped.display) = none := by
      rw [hletters, List.cons_append, readEmbedded, readSeparated_zero, readV4, readOctet,
        readSeparated_zero, readNumber_eq_none (noDigit_cons rfl _)]
      rfl
    have hgroup : readGroup 0 (groupText 0xffff ++ ':' :: mapped.display) =
        some (0xffff, ':' :: mapped.display) := by
      rw [readGroup, readSeparated_zero]
      exact readGroup_groupText 0xffff (noDigit_cons rfl _)
    have hembedded : readEmbedded 1 (':' :: mapped.display) = some (mapped, []) := by
      rw [readEmbedded, readSeparated_cons ':' Nat.zero_lt_one]
      have := readV4_display mapped (noDigit_nil 10)
      rwa [List.append_nil] at this
    have hrest : readGroups 6 1 (':' :: mapped.display) = ⟨mapped.segments, true, []⟩ := by
      rw [readGroups, if_pos (by omega), hembedded]
    rw [readGroups, hv4, ite_self, hgroup]
    simp only [Nat.zero_add, hrest]
  rw [htext]
  refine readV6_of_colons (hnone _) (by decide) hfirst ?_
  rw [V6.segments_of_mapped h]
  rfl

theorem readV6_display (ip : V6) : readV6 ip.display = some (ip, []) := by
  rcases h : ip.toV4Mapped with _ | mapped
  · exact readV6_display_of_not_mapped h
  · exact readV6_display_of_mapped h

/-- The text of an IPv6 address starts with no IPv4 address. -/
theorem readV4_display_v6 (ip : V6) : readV4 ip.display = none := by
  rcases h : ip.toV4Mapped with _ | mapped
  · exact readV4_of_noDot (dot_notMem_display h)
  · have htext : ip.display = ':' :: ([':', 'f', 'f', 'f', 'f', ':'] ++ mapped.display) := by
      rw [V6.display, h]
      rfl
    rw [htext, readV4, readOctet, readSeparated_zero, readNumber_eq_none (noDigit_cons rfl _)]
    rfl

/-- **An address is read back from its text.** -/
theorem parse_display (ip : Address) : parse ip.display = some ip := by
  rcases ip with ip | ip
  · have h := readV4_display ip (noDigit_nil 10)
    rw [List.append_nil] at h
    rw [parse, readAddress, Address.display, h]
  · rw [parse, readAddress, Address.display, readV4_display_v6, readV6_display]
    rfl

/-! ### The characters of an address -/

/-- The characters of the text of an address. -/
def addressChars : List Char :=
  ['0', '1', '2', '3', '4', '5', '6', '7', '8', '9', 'a', 'b', 'c', 'd', 'e', 'f', ':', '.']

theorem digitChar_mem {d : ℕ} (h : d < 16) : Nat.digitChar d ∈ addressChars := by
  interval_cases d <;> decide

theorem mem_addressChars_of_toDigits {radix : ℕ} (hone : 1 < radix) (hradix : radix ≤ 16)
    (n : ℕ) {c : Char} (hc : c ∈ Nat.toDigits radix n) : c ∈ addressChars := by
  induction n using Nat.strongRecOn with
  | _ n ih =>
    by_cases hn : n < radix
    · rw [Nat.toDigits_of_lt_base hn, List.mem_singleton] at hc
      rw [hc]
      exact digitChar_mem (by omega)
    · have hbase : radix ≤ n := not_lt.mp hn
      rw [Nat.toDigits_of_base_le hone hbase] at hc
      rcases List.mem_append.mp hc with hc | hc
      · exact ih (n / radix) (Nat.div_lt_self (by omega) hone) hc
      · rw [List.mem_singleton.mp hc]
        have := Nat.mod_lt n (show 0 < radix by omega)
        exact digitChar_mem (by omega)

theorem mem_display_v4 {ip : V4} {c : Char} (h : c ∈ ip.display) : c ∈ addressChars := by
  have hdigits : ∀ n : ℕ, c ∈ Nat.toDigits 10 n → c ∈ addressChars := fun n =>
    mem_addressChars_of_toDigits (by omega) (by omega) n
  simp only [V4.display, List.mem_append, List.mem_cons] at h
  rcases h with h | rfl | h | rfl | h | rfl | h
  · exact hdigits _ h
  · decide
  · exact hdigits _ h
  · decide
  · exact hdigits _ h
  · decide
  · exact hdigits _ h

theorem mem_addressChars_of_joined {groups : List (Fin 65536)} {c : Char}
    (h : c ∈ joined groups) : c ∈ addressChars := by
  have htext : ∀ g : Fin 65536, c ∈ groupText g → c ∈ addressChars := fun g =>
    mem_addressChars_of_toDigits (by omega) (Nat.le_refl 16) g
  rcases groups with _ | ⟨g, groups⟩
  · cases h
  · rcases List.mem_append.mp h with h | h
    · exact htext g h
    · obtain ⟨x, -, hx⟩ := List.mem_flatMap.mp h
      rcases List.mem_cons.mp hx with rfl | hx
      · decide
      · exact htext x hx

/-- **Only these characters stand in the text of an address.** -/
theorem mem_display {ip : Address} {c : Char} (h : c ∈ ip.display) : c ∈ addressChars := by
  rcases ip with ip | ip
  · exact mem_display_v4 h
  · rw [Address.display, V6.display] at h
    split at h
    · rcases List.mem_append.mp h with h | h
      · simp only [mappedLead, List.mem_cons, List.not_mem_nil, or_false] at h
        rcases h with rfl | rfl | rfl | rfl | rfl | rfl | rfl
        all_goals decide
      · exact mem_display_v4 h
    · simp only at h
      split at h
      · simp only [List.mem_append, List.mem_cons] at h
        rcases h with h | rfl | rfl | h
        · exact mem_addressChars_of_joined h
        · decide
        · decide
        · exact mem_addressChars_of_joined h
      · exact mem_addressChars_of_joined h

theorem length_display_v4_le (ip : V4) : ip.display.length ≤ 15 := by
  have hdigits : ∀ o : Fin 256, (Nat.toDigits 10 (o : ℕ)).length ≤ 3 := fun o =>
    (Nat.length_toDigits_le_iff (by omega) (by omega)).mpr (by omega)
  have ha := hdigits ip.a
  have hb := hdigits ip.b
  have hc := hdigits ip.c
  have hd := hdigits ip.d
  simp only [V4.display, List.length_append, List.length_cons]
  omega

theorem length_joined_le (groups : List (Fin 65536)) :
    (joined groups).length ≤ 5 * groups.length := by
  have htext : ∀ g : Fin 65536, (groupText g).length ≤ 4 := fun g =>
    (Nat.length_toDigits_le_iff (by omega) (by omega)).mpr (by omega)
  have hbehind : ∀ groups : List (Fin 65536), (behind groups).length ≤ 5 * groups.length := by
    intro groups
    induction groups with
    | nil => exact Nat.le_refl 0
    | cons g groups ih =>
      have := htext g
      rw [behind_cons, List.length_cons, List.length_append, List.length_cons]
      omega
  rcases groups with _ | ⟨g, groups⟩
  · exact Nat.le_refl 0
  · have := htext g
    have := hbehind groups
    rw [joined_cons, List.length_append, List.length_cons]
    omega

/-- The text of an address is short. -/
theorem length_display_le (ip : Address) : ip.display.length ≤ 42 := by
  rcases ip with ip | ip
  · exact (length_display_v4_le ip).trans (by omega)
  · rw [Address.display, V6.display]
    split
    · rename_i mapped _
      have := length_display_v4_le mapped
      have hlead : mappedLead.length = 7 := rfl
      rw [List.length_append]
      omega
    · have height := ip.length_eq
      simp only
      split
      · generalize zeroRun 0 ⟨0, 0⟩ ⟨0, 0⟩ ip.segments = span
        have hhead := length_joined_le (ip.segments.take span.start)
        have htail := length_joined_le (ip.segments.drop (span.start + span.len))
        rw [List.length_take] at hhead
        rw [List.length_drop] at htail
        simp only [List.length_append, List.length_cons]
        omega
      · have := length_joined_le ip.segments
        omega

/-- The text of an address does not end with a dot. -/
theorem getLast_display (ip : Address) : ip.display.getLast? ≠ some '.' := by
  have hv4 : ∀ (ip : V4) (s : List Char), (s ++ ip.display).getLast? ≠ some '.' := by
    intro ip s h
    have hne : Nat.toDigits 10 (ip.d : ℕ) ≠ [] := Nat.toDigits_ne_nil
    have htext : s ++ ip.display = (s ++ (Nat.toDigits 10 ip.a ++ '.' ::
        (Nat.toDigits 10 ip.b ++ '.' :: (Nat.toDigits 10 ip.c ++ ['.'])))) ++
          Nat.toDigits 10 ip.d := by
      simp [V4.display]
    rw [htext, List.getLast?_append_of_ne_nil _ hne] at h
    have hmem := Nat.isDigit_of_mem_toDigits (by omega) (Nat.le_refl 10)
      (List.mem_of_getLast? h)
    exact absurd hmem (by decide)
  rcases ip with ip | ip
  · exact hv4 ip []
  · rcases h : ip.toV4Mapped with _ | mapped
    · intro hlast
      exact dot_notMem_display h (List.mem_of_getLast? hlast)
    · rw [Address.display, V6.display, h]
      exact hv4 mapped _

theorem display_ne_nil (ip : Address) : ip.display ≠ [] := by
  intro h
  have hparse := parse_display ip
  rw [h] at hparse
  cases hparse

end IpTexts

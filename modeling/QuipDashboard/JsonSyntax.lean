/-
The texts of JSON documents.

The grammar of JSON over characters: literals, numbers, strings with their escapes, arrays and
objects, with blanks around every value and every key.  A text with an unpaired surrogate in a
string is none of these, since nothing reads it as a value.

* `StringBody` — what is written between quotes, and the string that it stands for;
* `Spells` — the document that a text spells;
* `StringBody.byteLen_le` — **a string has no more bytes than what is written for it**.
-/
import QuipDashboard.ByteOffsets
import QuipDashboard.JsonDocument

namespace JsonSyntax

open ByteOffsets

/-! ### Tokens -/

/-- The characters between tokens. -/
def IsBlank (c : Char) : Prop := c = ' ' ∨ c = '\t' ∨ c = '\n' ∨ c = '\r'

/-- Some decimal digits, at least one. -/
def IsDigits (l : List Char) : Prop := l ≠ [] ∧ ∀ c ∈ l, c.isDigit = true

/-- The integer part of a number, which has no leading zero. -/
inductive IntegerPart : List Char → Prop
  | zero : IntegerPart ['0']
  | digits {c : Char} {l : List Char} (hc : c ≠ '0') (h : IsDigits (c :: l)) : IntegerPart (c :: l)

inductive FractionPart : List Char → Prop
  | none : FractionPart []
  | digits {l : List Char} (h : IsDigits l) : FractionPart ('.' :: l)

inductive ExponentPart : List Char → Prop
  | none : ExponentPart []
  | digits {e : Char} {sign l : List Char} (he : e = 'e' ∨ e = 'E')
      (hsign : sign = [] ∨ sign = ['+'] ∨ sign = ['-']) (h : IsDigits l) :
      ExponentPart (e :: (sign ++ l))

/-- A number, as it is written. -/
inductive NumberToken : List Char → Prop
  | mk {sign int frac exp : List Char} (hsign : sign = [] ∨ sign = ['-'])
      (hint : IntegerPart int) (hfrac : FractionPart frac) (hexp : ExponentPart exp) :
      NumberToken (sign ++ int ++ frac ++ exp)

/-- The value of a hexadecimal digit. -/
def hexDigit (c : Char) : Option ℕ :=
  if '0' ≤ c ∧ c ≤ '9' then some (c.toNat - 48)
  else if 'a' ≤ c ∧ c ≤ 'f' then some (c.toNat - 87)
  else if 'A' ≤ c ∧ c ≤ 'F' then some (c.toNat - 55)
  else none

/-- Four hexadecimal digits and the code unit that they are. -/
def IsUnit (hex : List Char) (unit : ℕ) : Prop :=
  hex.length = 4 ∧ hex.foldlM (fun n c => (hexDigit c).map fun d => 16 * n + d) 0 = some unit

/-- The escapes of one letter, with what they stand for. -/
def shortEscapes : List (Char × Char) :=
  [('"', '"'), ('\\', '\\'), ('/', '/'), ('b', '\x08'), ('f', '\x0c'), ('n', '\n'), ('r', '\r'),
    ('t', '\t')]

/-- What is written between the quotes of a string. -/
inductive StringBody : List Char → List Char → Prop
  | nil : StringBody [] []
  | plain {c : Char} {raw s : List Char} (hquote : c ≠ '"') (hescape : c ≠ '\\')
      (hcontrol : 32 ≤ c.toNat) (h : StringBody raw s) : StringBody (c :: raw) (c :: s)
  | short {e c : Char} {raw s : List Char} (he : (e, c) ∈ shortEscapes) (h : StringBody raw s) :
      StringBody ('\\' :: e :: raw) (c :: s)
  | unit {hex : List Char} {c : Char} {raw s : List Char} (hhex : IsUnit hex c.toNat)
      (h : StringBody raw s) : StringBody ('\\' :: 'u' :: (hex ++ raw)) (c :: s)
  /-- A character beyond the first plane, as a pair of surrogates. -/
  | pair {high low : List Char} {n m : ℕ} {c : Char} {raw s : List Char} (hhigh : IsUnit high n)
      (hlow : IsUnit low m) (hn : 0xd800 ≤ n ∧ n < 0xdc00) (hm : 0xdc00 ≤ m ∧ m < 0xe000)
      (hc : c.toNat = 0x10000 + (n - 0xd800) * 0x400 + (m - 0xdc00)) (h : StringBody raw s) :
      StringBody ('\\' :: 'u' :: (high ++ '\\' :: 'u' :: (low ++ raw))) (c :: s)

/-- The characters of a number. -/
def IsNumberChar (c : Char) : Prop := c.isDigit = true ∨ c ∈ ['-', '+', '.', 'e', 'E']

theorem NumberToken.ne_nil {token : List Char} (h : NumberToken token) : token ≠ [] := by
  obtain ⟨-, hint, -, -⟩ := h
  cases hint <;> simp

theorem IsDigits.chars {l : List Char} (h : IsDigits l) : ∀ c ∈ l, IsNumberChar c :=
  fun c hc => .inl (h.2 c hc)

theorem NumberToken.chars {token : List Char} (h : NumberToken token) :
    ∀ c ∈ token, IsNumberChar c := by
  obtain ⟨hsign, hint, hfrac, hexp⟩ := h
  simp only [List.forall_mem_append]
  refine ⟨⟨⟨?_, ?_⟩, ?_⟩, ?_⟩
  · rcases hsign with rfl | rfl
    · exact fun c hc => absurd hc List.not_mem_nil
    · exact fun c hc => .inr (by simp [List.mem_singleton.mp hc])
  · cases hint with
    | zero => exact fun c hc => .inl (by rw [List.mem_singleton.mp hc]; rfl)
    | digits _ h => exact h.chars
  · cases hfrac with
    | none => exact fun c hc => absurd hc List.not_mem_nil
    | digits h => exact List.forall_mem_cons.mpr ⟨.inr (by simp), h.chars⟩
  · cases hexp with
    | none => exact fun c hc => absurd hc List.not_mem_nil
    | digits he hs h =>
      refine List.forall_mem_cons.mpr ⟨.inr ?_, ?_⟩
      · rcases he with rfl | rfl <;> simp
      · refine List.forall_mem_append.mpr ⟨?_, h.chars⟩
        rcases hs with rfl | rfl | rfl
        · exact fun c hc => absurd hc List.not_mem_nil
        · exact fun c hc => .inr (by simp [List.mem_singleton.mp hc])
        · exact fun c hc => .inr (by simp [List.mem_singleton.mp hc])

/-- A hexadecimal digit is a digit or one of the first letters. -/
theorem hexDigit_bounds {c : Char} (h : (hexDigit c).isSome) :
    48 ≤ c.toNat ∧ c.toNat ≤ 102 ∧ c ≠ '\\' := by
  have hle : ∀ a b : Char, a ≤ b → a.toNat ≤ b.toNat := fun a b h => h
  unfold hexDigit at h
  split at h
  · rename_i hc
    have h₁ := hle _ _ hc.1
    have h₂ := hle _ _ hc.2
    refine ⟨h₁, h₂.trans (by decide), ?_⟩
    rintro rfl
    exact absurd h₂ (by decide)
  · split at h
    · rename_i hc
      have h₁ := hle _ _ hc.1
      have h₂ := hle _ _ hc.2
      refine ⟨le_trans (by decide) h₁, h₂, ?_⟩
      rintro rfl
      exact absurd h₁ (by decide)
    · split at h
      · rename_i hc
        have h₁ := hle _ _ hc.1
        have h₂ := hle _ _ hc.2
        refine ⟨le_trans (by decide) h₁, h₂.trans (by decide), ?_⟩
        rintro rfl
        exact absurd h₂ (by decide)
      · cases h

theorem IsUnit.chars {hex : List Char} {unit : ℕ} (h : IsUnit hex unit) :
    ∀ c ∈ hex, (hexDigit c).isSome := by
  obtain ⟨-, hfold⟩ := h
  generalize (0 : ℕ) = n at hfold
  induction hex generalizing n with
  | nil => exact fun c hc => absurd hc List.not_mem_nil
  | cons c hex ih =>
    rw [List.foldlM_cons] at hfold
    obtain ⟨n', hn', hfold⟩ := Option.bind_eq_some_iff.mp hfold
    obtain ⟨d, hd, -⟩ := Option.map_eq_some_iff.mp hn'
    exact List.forall_mem_cons.mpr ⟨Option.isSome_of_eq_some hd, ih _ hfold⟩

theorem IsUnit.byteLen {hex : List Char} {unit : ℕ} (h : IsUnit hex unit) :
    ByteOffsets.byteLen hex = 4 := by
  have hascii : ∀ c ∈ hex, c.toNat < 128 := fun c hc =>
    Nat.lt_of_le_of_lt (hexDigit_bounds (h.chars c hc)).2.1 (by decide)
  rw [byteLen_of_ascii hascii, h.1]

/-- **A string has no more bytes than what is written for it.** -/
theorem StringBody.byteLen_le {raw s : List Char} (h : StringBody raw s) :
    byteLen s ≤ byteLen raw := by
  have hescape : ('\\' : Char).utf8Size = 1 := rfl
  have hunit : ('u' : Char).utf8Size = 1 := rfl
  induction h with
  | nil => exact le_refl _
  | plain _ _ _ _ ih =>
    rw [byteLen_cons, byteLen_cons]
    omega
  | @short e c _ _ he _ ih =>
    have hc : c.utf8Size = 1 := by
      have hall : ∀ p ∈ shortEscapes, p.2.utf8Size = 1 := by decide
      exact hall (e, c) he
    rw [byteLen_cons, byteLen_cons, byteLen_cons]
    omega
  | @unit _ c _ _ hhex _ ih =>
    have := c.utf8Size_le_four
    rw [byteLen_cons, byteLen_cons, byteLen_cons, byteLen_append, hhex.byteLen]
    omega
  | @pair _ _ _ _ c _ _ hhigh hlow _ _ _ _ ih =>
    have := c.utf8Size_le_four
    simp only [byteLen_cons, byteLen_append, hhigh.byteLen, hlow.byteLen]
    omega

/-! ### Documents -/

/-- A member of an object, as it is written. -/
structure Member where
  before : List Char
  raw : List Char
  key : List Char
  after : List Char
  text : List Char
  value : JsonDoc

namespace Member

def all (m : Member) : List Char :=
  m.before ++ '"' :: (m.raw ++ '"' :: (m.after ++ ':' :: m.text))

/-- The key is written between blanks. -/
structure Named (m : Member) : Prop where
  before : ∀ c ∈ m.before, IsBlank c
  key : StringBody m.raw m.key
  after : ∀ c ∈ m.after, IsBlank c

def entry (m : Member) : Option String × JsonDoc := (some (.ofList m.key), m.value)

end Member

/-- The text spells the document. -/
inductive Spells (parseNumber : String → Option JsonNumber) : List Char → JsonDoc → Prop
  | null : Spells parseNumber ['n', 'u', 'l', 'l'] .null
  | isTrue : Spells parseNumber ['t', 'r', 'u', 'e'] (.bool true)
  | isFalse : Spells parseNumber ['f', 'a', 'l', 's', 'e'] (.bool false)
  | number {token : List Char} {n : JsonNumber} (htoken : NumberToken token)
      (hn : parseNumber (.ofList token) = some n) : Spells parseNumber token (.number n)
  | string {raw s : List Char} (h : StringBody raw s) :
      Spells parseNumber ('"' :: (raw ++ ['"'])) (.string (some (.ofList s)))
  | emptyArray {blanks : List Char} (h : ∀ c ∈ blanks, IsBlank c) :
      Spells parseNumber ('[' :: (blanks ++ [']'])) (.array [])
  | array {items : List (List Char × JsonDoc)} (hne : items ≠ [])
      (h : ∀ e ∈ items, Spells parseNumber e.1 e.2) :
      Spells parseNumber ('[' :: ([','].intercalate (items.map Prod.fst) ++ [']']))
        (.array (items.map Prod.snd))
  | emptyObject {blanks : List Char} (h : ∀ c ∈ blanks, IsBlank c) :
      Spells parseNumber ('{' :: (blanks ++ ['}'])) (.object [])
  | object {members : List Member} (hne : members ≠ []) (hnamed : ∀ m ∈ members, m.Named)
      (h : ∀ m ∈ members, Spells parseNumber m.text m.value) :
      Spells parseNumber ('{' :: ([','].intercalate (members.map Member.all) ++ ['}']))
        (.object (members.map Member.entry))
  | blankBefore {c : Char} {text : List Char} {j : JsonDoc} (hc : IsBlank c)
      (h : Spells parseNumber text j) : Spells parseNumber (c :: text) j
  | blankAfter {c : Char} {text : List Char} {j : JsonDoc} (hc : IsBlank c)
      (h : Spells parseNumber text j) : Spells parseNumber (text ++ [c]) j

end JsonSyntax

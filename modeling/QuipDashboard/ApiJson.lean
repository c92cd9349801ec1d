/-
The JSON texts that a public read takes.

The model of `check_api_json`, `parse_api_json` and `value_bytes` (dashboard-store/src/backend.rs):
before a text is parsed, its bytes are charged without building a value, and the parsed value
is measured by a recursion over it.  `serde_json` is a parameter here.

* `Covered` — a part of a text is charged at least so much, wherever it stands outside of a
  string;
* `spells_covered` — the text of a document is charged at least the size of its value;
* `checkApiJson_covers` — **a value that is read from an accepted text has at most the size that
  was charged**.
-/
import QuipDashboard.JsonSyntax
import QuipDashboard.Records
import Mathlib.Data.List.Forall2

namespace Dashboard

open ByteOffsets JsonSyntax

/-! ### The scan -/

/-- `API_BYTES`. -/
def apiBytes : ℕ := 8 * 1024 * 1024

/-- `StoreError`, as `parse_api_json` raises it. -/
inductive ApiJsonError where
  | capacity
  | json (message : String)
  deriving DecidableEq

/-- `usize::saturating_mul`. -/
def saturatingMul (a b : ℕ) : ℕ := min (a * b) u64Max

/-- `u8::is_ascii_whitespace`. -/
def isWhitespaceByte (byte : UInt8) : Bool :=
  byte = 32 || byte = 9 || byte = 10 || byte = 12 || byte = 13

/-- The variables of `check_api_json`. -/
structure ApiScan where
  bytes : ℕ
  quoted : Bool
  escaped : Bool

/-- A byte, in the loop of `check_api_json`. -/
def ApiScan.step (s : ApiScan) (byte : UInt8) : ApiScan :=
  -- 34 is a quote and 92 a backslash
  if s.quoted then
    if s.escaped then { s with escaped := false }
    else if byte = 92 then { s with escaped := true }
    else if byte = 34 then { s with quoted := false }
    else s
  else if byte = 34 then { s with quoted := true, bytes := saturatingAdd s.bytes 96 }
  else if !isWhitespaceByte byte then { s with bytes := saturatingAdd s.bytes 96 }
  else s

/-- The loop of `check_api_json`, with the variables that it leaves. -/
def scanBytes : ApiScan → List UInt8 → Except ApiJsonError ApiScan
  | s, [] => .ok s
  | s, byte :: rest =>
    if (s.step byte).bytes > apiBytes then .error .capacity else scanBytes (s.step byte) rest

/-- `check_api_json`, with the variables that it leaves. -/
def scanText (text : String) : Except ApiJsonError ApiScan :=
  scanBytes ⟨saturatingMul (utf8 text.toList).length 2, false, false⟩ (utf8 text.toList)

/-- `check_api_json`. -/
def checkApiJson (text : String) : Except ApiJsonError Unit := do
  let _ ← scanText text
  return ()

/-! ### The size of a value -/

section

variable (size : ℕ)

mutual

/-- `value_bytes`: `size` is `size_of::<Value>()`, the capacity of a text is its length. -/
def valueBytes : JsonValue → ℕ
  | .null => saturatingAdd size 0
  | .bool _ => saturatingAdd size 0
  | .number n => saturatingAdd size (byteLen n.text.toList)
  | .string s => saturatingAdd size (byteLen s.toList)
  | .array items => saturatingAdd size (itemsBytes 0 items)
  | .object entries => saturatingAdd size (entriesBytes 0 entries)

/-- The fold over the items of an array. -/
def itemsBytes (total : ℕ) : List JsonValue → ℕ
  | [] => total
  | v :: vs => itemsBytes (saturatingAdd total (valueBytes v)) vs

/-- The fold over the entries of an object. -/
def entriesBytes (total : ℕ) : List (String × JsonValue) → ℕ
  | [] => total
  | (key, v) :: es =>
    entriesBytes (saturatingAdd (saturatingAdd (saturatingAdd total (byteLen key.toList)) 96)
      (valueBytes v)) es

end

mutual

/-- The size of a value, without the bound of the machine. -/
def valueSum : JsonValue → ℕ
  | .null => size
  | .bool _ => size
  | .number n => size + byteLen n.text.toList
  | .string s => size + byteLen s.toList
  | .array items => size + itemsSum items
  | .object entries => size + entriesSum entries

def itemsSum : List JsonValue → ℕ
  | [] => 0
  | v :: vs => valueSum v + itemsSum vs

def entriesSum : List (String × JsonValue) → ℕ
  | [] => 0
  | (key, v) :: es => byteLen key.toList + 96 + valueSum v + entriesSum es

end

end

theorem saturatingAdd_le_max (a b : ℕ) : saturatingAdd a b ≤ u64Max := Nat.min_le_right _ _

theorem valueBytes_le_max (size : ℕ) (v : JsonValue) : valueBytes size v ≤ u64Max := by
  cases v with
  | null => exact saturatingAdd_le_max _ _
  | bool b => exact saturatingAdd_le_max _ _
  | number n => exact saturatingAdd_le_max _ _
  | string s => exact saturatingAdd_le_max _ _
  | array items => exact saturatingAdd_le_max _ _
  | object entries => exact saturatingAdd_le_max _ _

mutual

theorem valueBytes_le_sum (size : ℕ) (v : JsonValue) : valueBytes size v ≤ valueSum size v := by
  cases v with
  | null => exact saturatingAdd_le size 0
  | bool b => exact saturatingAdd_le size 0
  | number n => exact saturatingAdd_le size _
  | string s => exact saturatingAdd_le size _
  | array items =>
    have := itemsBytes_le_sum size 0 items
    have := saturatingAdd_le size (itemsBytes size 0 items)
    rw [valueBytes, valueSum]
    omega
  | object entries =>
    have := entriesBytes_le_sum size 0 entries
    have := saturatingAdd_le size (entriesBytes size 0 entries)
    rw [valueBytes, valueSum]
    omega

theorem itemsBytes_le_sum (size total : ℕ) (vs : List JsonValue) :
    itemsBytes size total vs ≤ total + itemsSum size vs := by
  cases vs with
  | nil => exact le_refl _
  | cons v vs =>
    have := valueBytes_le_sum size v
    have := saturatingAdd_le total (valueBytes size v)
    have := itemsBytes_le_sum size (saturatingAdd total (valueBytes size v)) vs
    rw [itemsBytes, itemsSum]
    omega

theorem entriesBytes_le_sum (size total : ℕ) (es : List (String × JsonValue)) :
    entriesBytes size total es ≤ total + entriesSum size es := by
  cases es with
  | nil => exact le_refl _
  | cons e es =>
    obtain ⟨key, v⟩ := e
    have := valueBytes_le_sum size v
    have := saturatingAdd_le total (byteLen key.toList)
    have := saturatingAdd_le (saturatingAdd total (byteLen key.toList)) 96
    have := saturatingAdd_le (saturatingAdd (saturatingAdd total (byteLen key.toList)) 96)
      (valueBytes size v)
    have := entriesBytes_le_sum size (saturatingAdd (saturatingAdd
      (saturatingAdd total (byteLen key.toList)) 96) (valueBytes size v)) es
    rw [entriesBytes, entriesSum]
    omega

end

/-! ### Charges -/

/-- Outside of a string, the text is charged so much beyond its length. -/
def Charges (text : List Char) (m : ℕ) : Prop :=
  ∀ bytes ≤ u64Max, (utf8 text).foldl ApiScan.step ⟨bytes, false, false⟩ =
    ⟨saturatingAdd bytes m, false, false⟩

/-- Inside of a string, the text is not charged and does not end the string. -/
def Quoted (text : List Char) : Prop :=
  ∀ bytes, (utf8 text).foldl ApiScan.step ⟨bytes, true, false⟩ = ⟨bytes, true, false⟩

theorem saturatingAdd_zero {a : ℕ} (h : a ≤ u64Max) : saturatingAdd a 0 = a := Nat.min_eq_left h

theorem saturatingAdd_assoc (a b c : ℕ) :
    saturatingAdd (saturatingAdd a b) c = saturatingAdd a (b + c) := by
  unfold saturatingAdd
  omega

theorem Charges.nil : Charges [] 0 := by
  intro bytes hbytes
  rw [saturatingAdd_zero hbytes]
  rfl

theorem Charges.append {l l' : List Char} {m m' : ℕ} (h : Charges l m) (h' : Charges l' m') :
    Charges (l ++ l') (m + m') := by
  intro bytes hbytes
  rw [utf8_append, List.foldl_append, h bytes hbytes, h' _ (saturatingAdd_le_max _ _),
    saturatingAdd_assoc]

theorem Quoted.nil : Quoted [] := fun _ => rfl

theorem Quoted.append {l l' : List Char} (h : Quoted l) (h' : Quoted l') : Quoted (l ++ l') := by
  intro bytes
  rw [utf8_append, List.foldl_append, h bytes, h' bytes]

/-- A character between tokens is not charged. -/
theorem charges_blank {c : Char} (h : IsBlank c) : Charges [c] 0 := by
  intro bytes hbytes
  rw [saturatingAdd_zero hbytes]
  rcases h with rfl | rfl | rfl | rfl <;> rfl

theorem toNat_ofNat_ascii {n : ℕ} (h : n < 128) : (UInt8.ofNat n).toNat = n :=
  UInt8.toNat_ofNat_of_lt' (Nat.lt_trans h (by decide))

theorem le_of_isWhitespaceByte {b : UInt8} (h : isWhitespaceByte b = true) : b.toNat ≤ 32 := by
  simp only [isWhitespaceByte, Bool.or_eq_true, decide_eq_true_eq] at h
  rcases h with (((rfl | rfl) | rfl) | rfl) | rfl <;> decide

/-- A character of a token other than a string. -/
def IsPlain (c : Char) : Prop := 32 < c.toNat ∧ c.toNat < 127 ∧ c ≠ '"'

theorem charges_plain {c : Char} (h : IsPlain c) : Charges [c] 96 := by
  obtain ⟨hlow, hhigh, hquote⟩ := h
  have hbyte := toNat_ofNat_ascii (show c.toNat < 128 by omega)
  have h34 : UInt8.ofNat c.toNat ≠ 34 := by
    intro h
    rw [h] at hbyte
    exact hquote (Char.toNat_inj.mp hbyte.symm)
  have hspace : isWhitespaceByte (UInt8.ofNat c.toNat) = false := by
    rw [← Bool.not_eq_true]
    intro hspace
    have := le_of_isWhitespaceByte hspace
    omega
  intro bytes _
  rw [utf8_ascii (by omega), List.foldl_cons, List.foldl_nil]
  simp [ApiScan.step, h34, hspace]

/-- Bytes of a string other than quotes and backslashes. -/
theorem foldl_step_quoted {bs : List UInt8} (h : ∀ b ∈ bs, b ≠ 92 ∧ b ≠ 34) (bytes : ℕ) :
    bs.foldl ApiScan.step ⟨bytes, true, false⟩ = ⟨bytes, true, false⟩ := by
  induction bs with
  | nil => rfl
  | cons b bs ih =>
    obtain ⟨⟨hescape, hquote⟩, hbs⟩ := List.forall_mem_cons.mp h
    have hstep : ApiScan.step ⟨bytes, true, false⟩ b = ⟨bytes, true, false⟩ := by
      simp [ApiScan.step, hescape, hquote]
    rw [List.foldl_cons, hstep, ih hbs]

theorem quoted_plain {c : Char} (hquote : c ≠ '"') (hescape : c ≠ '\\') : Quoted [c] := by
  refine foldl_step_quoted fun b hb => ?_
  have h92 : (92 : UInt8).toNat = 92 := rfl
  have h34 : (34 : UInt8).toNat = 34 := rfl
  by_cases hc : c.toNat < 128
  · have hbyte := toNat_ofNat_ascii hc
    rw [utf8_ascii hc, List.mem_singleton] at hb
    subst hb
    constructor
    · intro h
      rw [h] at hbyte
      exact hescape (Char.toNat_inj.mp hbyte.symm)
    · intro h
      rw [h] at hbyte
      exact hquote (Char.toNat_inj.mp hbyte.symm)
  · have := le_of_mem_utf8 (Nat.not_lt.mp hc) hb
    constructor
    · rintro rfl
      omega
    · rintro rfl
      omega

/-- The character behind a backslash is skipped. -/
theorem quoted_escape {e : Char} (h : e.toNat < 128) : Quoted ['\\', e] := by
  intro bytes
  rw [show (['\\', e] : List Char) = ['\\'] ++ [e] from rfl, utf8_append, utf8_ascii h]
  rfl

theorem quoted_unit {hex : List Char} {unit : ℕ} (h : IsUnit hex unit) : Quoted hex := by
  have hall := h.chars
  clear h
  induction hex with
  | nil => exact .nil
  | cons c hex ih =>
    obtain ⟨hc, hhex⟩ := List.forall_mem_cons.mp hall
    obtain ⟨hlow, -, hescape⟩ := hexDigit_bounds hc
    refine Quoted.append (l := [c]) (quoted_plain ?_ hescape) (ih hhex)
    rintro rfl
    exact absurd hlow (by decide)

/-- What is written for a string does not end it. -/
theorem quoted_stringBody {raw s : List Char} (h : StringBody raw s) : Quoted raw := by
  have hu : Quoted ['\\', 'u'] := quoted_escape (by decide)
  induction h with
  | nil => exact .nil
  | plain hquote hescape _ _ ih => exact (quoted_plain hquote hescape).append ih
  | @short e c _ _ he _ ih =>
    have hall : ∀ p ∈ shortEscapes, p.1.toNat < 128 := by decide
    exact (quoted_escape (hall (e, c) he)).append ih
  | unit hhex _ ih => exact hu.append ((quoted_unit hhex).append ih)
  | pair hhigh hlow _ _ _ _ ih =>
    exact hu.append ((quoted_unit hhigh).append (hu.append ((quoted_unit hlow).append ih)))

/-- A string is charged at its opening quote. -/
theorem charges_string {raw s : List Char} (h : StringBody raw s) :
    Charges ('"' :: (raw ++ ['"'])) 96 := by
  intro bytes hbytes
  rw [show '"' :: (raw ++ ['"']) = ['"'] ++ raw ++ ['"'] from rfl, utf8_append, utf8_append,
    List.foldl_append, List.foldl_append]
  rw [show (utf8 ['"']).foldl ApiScan.step ⟨bytes, false, false⟩ =
    ⟨saturatingAdd bytes 96, true, false⟩ from rfl, quoted_stringBody h]
  rfl

/-! ### Covered sizes -/

/-- The text is charged at least `n`, two for each of its bytes included. -/
def Covered (text : List Char) (n : ℕ) : Prop :=
  ∃ m, Charges text m ∧ n ≤ 2 * byteLen text + m

theorem Covered.nil : Covered [] 0 := ⟨0, .nil, Nat.zero_le _⟩

theorem Covered.mono {text : List Char} {n n' : ℕ} (h : Covered text n) (hle : n' ≤ n) :
    Covered text n' := by
  obtain ⟨m, hm, hn⟩ := h
  exact ⟨m, hm, hle.trans hn⟩

theorem Covered.append {l l' : List Char} {n n' : ℕ} (h : Covered l n) (h' : Covered l' n') :
    Covered (l ++ l') (n + n') := by
  obtain ⟨m, hm, hn⟩ := h
  obtain ⟨m', hm', hn'⟩ := h'
  refine ⟨m + m', hm.append hm', ?_⟩
  rw [byteLen_append]
  omega

theorem covered_blanks {blanks : List Char} (h : ∀ c ∈ blanks, IsBlank c) : Covered blanks 0 := by
  induction blanks with
  | nil => exact .nil
  | cons c blanks ih =>
    obtain ⟨hc, hblanks⟩ := List.forall_mem_cons.mp h
    exact Covered.append (l := [c]) ⟨0, charges_blank hc, Nat.zero_le _⟩ (ih hblanks)

theorem covered_plain {l : List Char} (h : ∀ c ∈ l, IsPlain c) : Covered l (98 * l.length) := by
  induction l with
  | nil => exact .nil
  | cons c l ih =>
    obtain ⟨hc, hl⟩ := List.forall_mem_cons.mp h
    -- two for the byte and 96 for the character
    have hone : Covered [c] 98 := by
      refine ⟨96, charges_plain hc, ?_⟩
      have := c.utf8Size_pos
      rw [byteLen_cons, byteLen_nil]
      omega
    refine (hone.append (ih hl)).mono ?_
    rw [List.length_cons]
    omega

/-- A string is charged for its quotes, for what is written between them, and for a node. -/
theorem covered_string {raw s : List Char} (h : StringBody raw s) :
    Covered ('"' :: (raw ++ ['"'])) (2 * byteLen s + 100) := by
  refine ⟨96, charges_string h, ?_⟩
  have hquote : ('"' : Char).utf8Size = 1 := rfl
  have := h.byteLen_le
  rw [byteLen_cons, byteLen_append, byteLen_cons, byteLen_nil, hquote]
  omega

/-- Commas only add to what is covered. -/
theorem covered_intercalate {texts : List (List Char)} {sizes : List ℕ}
    (h : List.Forall₂ Covered texts sizes) : Covered ([','].intercalate texts) sizes.sum := by
  have hcomma : Covered [','] 98 := covered_plain (by simp [IsPlain])
  induction h with
  | nil => exact .nil
  | @cons text n texts sizes htext htexts ih =>
    rcases htexts with _ | ⟨-, -⟩
    · simpa using htext
    · rw [List.intercalate_cons_cons]
      refine ((htext.append hcomma).append ih).mono ?_
      rw [List.sum_cons]
      omega

/-! ### Sizes of values -/

theorem itemsSum_eq (size : ℕ) (vs : List JsonValue) :
    itemsSum size vs = (vs.map (valueSum size)).sum := by
  induction vs with
  | nil => rfl
  | cons v vs ih => rw [itemsSum, ih, List.map_cons, List.sum_cons]

/-- What an entry adds to the size of an object. -/
def entrySum (size : ℕ) (e : String × JsonValue) : ℕ :=
  byteLen e.1.toList + 96 + valueSum size e.2

theorem entriesSum_cons (size : ℕ) (e : String × JsonValue) (es : List (String × JsonValue)) :
    entriesSum size (e :: es) = entrySum size e + entriesSum size es := rfl

theorem entriesSum_eq (size : ℕ) (es : List (String × JsonValue)) :
    entriesSum size es = (es.map (entrySum size)).sum := by
  induction es with
  | nil => rfl
  | cons e es ih => rw [entriesSum_cons, ih, List.map_cons, List.sum_cons]

theorem entriesSum_insert (size : ℕ) (key : String) (v : JsonValue)
    (es : List (String × JsonValue)) :
    entriesSum size (JsonValue.insert key v es) ≤ entriesSum size es + entrySum size (key, v) := by
  induction es with
  | nil =>
    rw [JsonValue.insert, entriesSum_cons]
    omega
  | cons e es ih =>
    rw [JsonValue.insert]
    split
    · rw [entriesSum_cons, entriesSum_cons]
      omega
    · rw [entriesSum_cons, entriesSum_cons]
      omega

/-- Repeated keys only take sizes away. -/
theorem entriesSum_insertAll (size : ℕ) (es : List (String × JsonValue)) :
    entriesSum size (JsonValue.insertAll es) ≤ entriesSum size es := by
  have hfold : ∀ m, entriesSum size (es.foldl (fun m e => JsonValue.insert e.1 e.2 m) m) ≤
      entriesSum size m + entriesSum size es := by
    induction es with
    | nil => exact fun m => le_refl _
    | cons e es ih =>
      intro m
      have hm := ih (JsonValue.insert e.1 e.2 m)
      have he : entriesSum size (JsonValue.insert e.1 e.2 m) ≤ entriesSum size m + entrySum size e :=
        entriesSum_insert size e.1 e.2 m
      rw [List.foldl_cons, entriesSum_cons]
      omega
  exact (hfold []).trans (by rw [entriesSum, Nat.zero_add])

/-! ### Documents -/

theorem isPlain_numberChar {c : Char} (h : IsNumberChar c) : IsPlain c := by
  rcases h with h | h
  · rw [Char.isDigit, Bool.and_eq_true, decide_eq_true_eq, decide_eq_true_eq] at h
    have hlow : 48 ≤ c.toNat := UInt32.le_iff_toNat_le.mp h.1
    have hhigh : c.toNat ≤ 57 := UInt32.le_iff_toNat_le.mp h.2
    refine ⟨by omega, by omega, ?_⟩
    rintro rfl
    exact absurd hlow (by decide)
  · have hall : ∀ c ∈ ['-', '+', '.', 'e', 'E'], IsPlain c := by simp [IsPlain]
    exact hall c h

/-- What `serde_json` does with a text. -/
structure SerdeJson where
  /-- `size_of::<Value>()`. -/
  valueSize : ℕ
  /-- `Number::from_str`. -/
  parseNumber : String → Option JsonNumber
  fromStr : String → Except String JsonValue

/-- What the scan relies on: a value is small, a number keeps its text, apart from the sign of
an exponent, and a text that is read spells a document with that value. -/
structure SerdeJson.Documented (S : SerdeJson) : Prop where
  valueSize_le : S.valueSize ≤ 96
  number_le : ∀ token n, S.parseNumber token = some n →
    byteLen n.text.toList ≤ byteLen token.toList + 1
  spells : ∀ text v, S.fromStr text = .ok v →
    ∃ doc, Spells S.parseNumber text.toList doc ∧ doc.value S.parseNumber = some v

/-- `parse_api_json`. -/
def parseApiJson (S : SerdeJson) (text : String) : Except ApiJsonError JsonValue := do
  checkApiJson text
  (S.fromStr text).mapError .json

section

variable {S : SerdeJson}

/-- What the induction says of a part: it is charged at least the size of its value. -/
def CoversValue (S : SerdeJson) (text : List Char) (doc : JsonDoc) : Prop :=
  ∀ v, doc.value S.parseNumber = some v → Covered text (valueSum S.valueSize v)

theorem covers_word (hS : S.Documented) {l : List Char} (h : ∀ c ∈ l, IsPlain c) (hne : l ≠ [])
    : Covered l S.valueSize := by
  have := hS.valueSize_le
  have := List.length_pos_of_ne_nil hne
  exact (covered_plain h).mono (by omega)

theorem covers_number (hS : S.Documented) {token : List Char} {n : JsonNumber}
    (htoken : NumberToken token) (hn : S.parseNumber (.ofList token) = some n) :
    CoversValue S token (.number n) := by
  intro v hv
  cases Option.some.inj hv
  have hsize := hS.valueSize_le
  have hlen := hS.number_le _ _ hn
  have hpos := List.length_pos_of_ne_nil htoken.ne_nil
  have hplain : ∀ c ∈ token, IsPlain c := fun c hc => isPlain_numberChar (htoken.chars c hc)
  rw [String.toList_ofList, byteLen_of_ascii fun c hc => (hplain c hc).2.1.trans (by decide)] at hlen
  rw [valueSum]
  exact (covered_plain hplain).mono (by omega)

theorem covers_string (hS : S.Documented) {raw s : List Char} (h : StringBody raw s) :
    CoversValue S ('"' :: (raw ++ ['"'])) (.string (some (.ofList s))) := by
  intro v hv
  cases Option.some.inj hv
  have := hS.valueSize_le
  rw [valueSum, String.toList_ofList]
  exact (covered_string h).mono (by omega)

/-- Brackets pay for an array or an object. -/
theorem covered_brackets (hS : S.Documented) {l r : Char} (hl : IsPlain l) (hr : IsPlain r)
    {text : List Char} {n : ℕ} (h : Covered text n) :
    Covered (l :: (text ++ [r])) (S.valueSize + n) := by
  have hone : ∀ c : Char, IsPlain c → Covered [c] 98 := by
    intro c hc
    exact covered_plain fun d hd => List.mem_singleton.mp hd ▸ hc
  have := hS.valueSize_le
  exact ((hone l hl).append (h.append (hone r hr))).mono (by omega)

theorem covers_array (hS : S.Documented) {items : List (List Char × JsonDoc)}
    (h : ∀ e ∈ items, CoversValue S e.1 e.2) :
    CoversValue S ('[' :: ([','].intercalate (items.map Prod.fst) ++ [']']))
      (.array (items.map Prod.snd)) := by
  intro v hv
  obtain ⟨vs, hvs, rfl⟩ := Option.map_eq_some_iff.mp hv
  rw [valueSum, itemsSum_eq]
  refine covered_brackets hS (by simp [IsPlain]) (by simp [IsPlain]) (covered_intercalate ?_)
  rw [List.forall₂_map_left_iff, List.forall₂_map_right_iff]
  have hparts := (List.forall₂_and_left _ _).mpr ⟨h, List.forall₂_map_left_iff.mp
    (JsonDoc.forall₂_of_values hvs)⟩
  exact hparts.imp fun e v he => he.1 v he.2

/-- A member is charged for its key and for its value. -/
theorem covered_member {m : Member} (hm : m.Named) {n : ℕ} (h : Covered m.text n) :
    Covered m.all (byteLen m.key + 96 + n) := by
  have hcolon : Covered [':'] 98 := covered_plain (by simp [IsPlain])
  have hall : m.all = m.before ++ ('"' :: (m.raw ++ ['"']) ++ (m.after ++ ([':'] ++ m.text))) := by
    simp [Member.all]
  rw [hall]
  exact ((covered_blanks hm.before).append ((covered_string hm.key).append
    ((covered_blanks hm.after).append (hcolon.append h)))).mono (by omega)

theorem covers_object (hS : S.Documented) {members : List Member}
    (hnamed : ∀ m ∈ members, m.Named) (h : ∀ m ∈ members, CoversValue S m.text m.value) :
    CoversValue S ('{' :: ([','].intercalate (members.map Member.all) ++ ['}']))
      (.object (members.map Member.entry)) := by
  intro v hv
  rw [JsonDoc.value] at hv
  split at hv
  · -- The reserved key: what is left of the member is its number.
    obtain ⟨key, text, n, hentries, hn, rfl⟩ := JsonDoc.tokenNumber_eq_some hv
    obtain ⟨m, rfl, hm⟩ := List.map_eq_singleton_iff.mp hentries
    have hvalue : m.value = .string (some text) := congrArg Prod.snd hm
    have htext : Covered m.text (S.valueSize + byteLen text.toList) := by
      have := h m (List.mem_singleton_self m) (.string text) (by rw [hvalue]; rfl)
      rwa [valueSum] at this
    have hlen := hS.number_le _ _ hn
    have hmember := covered_member (hnamed m (List.mem_singleton_self m)) htext
    rw [valueSum, List.map_singleton, List.intercalate_singleton]
    exact (covered_brackets hS (by simp [IsPlain]) (by simp [IsPlain]) hmember).mono (by omega)
  · obtain ⟨es, hes, rfl⟩ := Option.map_eq_some_iff.mp hv
    have hsum : Covered ([','].intercalate (members.map Member.all)) (entriesSum S.valueSize es) := by
      rw [entriesSum_eq]
      refine covered_intercalate ?_
      rw [List.forall₂_map_left_iff, List.forall₂_map_right_iff]
      have hparts := (List.forall₂_and_left _ _).mpr ⟨fun m hm => And.intro (hnamed m hm) (h m hm),
        List.forall₂_map_left_iff.mp (JsonDoc.forall₂_of_entryValues hes)⟩
      refine hparts.imp fun m e he => ?_
      obtain ⟨⟨hm, hcovers⟩, hkey, hval⟩ := he
      have hkey : m.key = e.1.toList := by
        rw [← Option.some.inj hkey, String.toList_ofList]
      rw [entrySum, ← hkey]
      exact covered_member hm (hcovers _ hval)
    have hle := entriesSum_insertAll S.valueSize es
    rw [valueSum]
    refine (covered_brackets hS (by simp [IsPlain]) (by simp [IsPlain]) hsum).mono ?_
    omega

/-- **The text of a document is charged at least the size of its value.** -/
theorem spells_covered (hS : S.Documented) {text : List Char} {doc : JsonDoc}
    (h : Spells S.parseNumber text doc) : CoversValue S text doc := by
  induction h with
  | null => exact fun v hv => Option.some.inj hv ▸ covers_word hS (by simp [IsPlain]) (by simp)
  | isTrue => exact fun v hv => Option.some.inj hv ▸ covers_word hS (by simp [IsPlain]) (by simp)
  | isFalse => exact fun v hv => Option.some.inj hv ▸ covers_word hS (by simp [IsPlain]) (by simp)
  | number htoken hn => exact covers_number hS htoken hn
  | string h => exact covers_string hS h
  | emptyArray h =>
    intro v hv
    cases Option.some.inj hv
    exact covered_brackets hS (by simp [IsPlain]) (by simp [IsPlain]) (covered_blanks h)
  | array _ _ ih => exact covers_array hS ih
  | emptyObject h =>
    intro v hv
    cases Option.some.inj hv
    exact covered_brackets hS (by simp [IsPlain]) (by simp [IsPlain]) (covered_blanks h)
  | object _ hnamed _ ih => exact covers_object hS hnamed ih
  | blankBefore hc _ ih =>
    intro v hv
    have hblank := covered_blanks fun d hd => List.mem_singleton.mp hd ▸ hc
    exact (hblank.append (ih v hv)).mono (Nat.le_add_left ..)
  | blankAfter hc _ ih =>
    intro v hv
    exact (ih v hv).append (covered_blanks fun d hd => List.mem_singleton.mp hd ▸ hc)

end

/-! ### Accepted texts -/

/-- What the loop leaves has taken every byte, and the last check has bounded it. -/
theorem scanBytes_ok {s s' : ApiScan} {bs : List UInt8} (h : scanBytes s bs = .ok s') :
    s' = bs.foldl ApiScan.step s ∧ (bs ≠ [] → s'.bytes ≤ apiBytes) := by
  induction bs generalizing s with
  | nil =>
    cases h
    exact ⟨rfl, fun h => absurd rfl h⟩
  | cons b bs ih =>
    rw [scanBytes] at h
    split at h
    · cases h
    · rename_i hle
      obtain ⟨hfold, hbound⟩ := ih h
      refine ⟨hfold, fun _ => ?_⟩
      cases bs with
      | nil =>
        cases h
        exact Nat.not_lt.mp hle
      | cons b' bs => exact hbound (List.cons_ne_nil b' bs)

/-- The variables that the scan of a covered text leaves. -/
theorem scanText_covered {text : String} {s : ApiScan} {n : ℕ} (h : scanText text = .ok s)
    (hn : Covered text.toList n) : min n u64Max ≤ s.bytes ∧ s.bytes ≤ apiBytes := by
  obtain ⟨m, hm, hle⟩ := hn
  obtain ⟨hs, hbound⟩ := scanBytes_ok h
  have hstart : saturatingMul (utf8 text.toList).length 2 ≤ u64Max := Nat.min_le_right _ _
  rw [hm _ hstart] at hs
  constructor
  · rw [hs, length_utf8]
    show min n u64Max ≤ saturatingAdd (saturatingMul (byteLen text.toList) 2) m
    unfold saturatingAdd saturatingMul
    omega
  · by_cases hempty : utf8 text.toList = []
    · rw [scanText, hempty] at h
      cases h
      exact Nat.zero_le _
    · exact hbound hempty

/-- What the check charges for a text that is read as a value. -/
theorem charge_covers {S : SerdeJson} (hS : S.Documented) {text : String} {v : JsonValue}
    {s : ApiScan} (hscan : scanText text = .ok s) (hread : S.fromStr text = .ok v) :
    valueBytes S.valueSize v ≤ s.bytes ∧ s.bytes ≤ apiBytes := by
  obtain ⟨doc, hspells, hv⟩ := hS.spells text v hread
  obtain ⟨hcharge, hbound⟩ := scanText_covered hscan (spells_covered hS hspells v hv)
  refine ⟨le_trans (Nat.le_min.mpr ⟨?_, ?_⟩) hcharge, hbound⟩
  · exact valueBytes_le_sum S.valueSize v
  · exact valueBytes_le_max S.valueSize v

theorem checkApiJson_ok {text : String} (h : checkApiJson text = .ok ()) :
    ∃ s, scanText text = .ok s := by
  unfold checkApiJson at h
  cases hscan : scanText text with
  | ok s => exact ⟨s, rfl⟩
  | error e =>
    rw [hscan] at h
    cases h

/-- A value that `parse_api_json` returns keeps the limit of the API. -/
theorem parseApiJson_le {S : SerdeJson} (hS : S.Documented) {text : String} {v : JsonValue}
    (h : parseApiJson S text = .ok v) : valueBytes S.valueSize v ≤ apiBytes := by
  unfold parseApiJson at h
  cases hcheck : checkApiJson text with
  | error e =>
    rw [hcheck] at h
    cases h
  | ok u =>
    obtain ⟨s, hscan⟩ := checkApiJson_ok hcheck
    rw [hcheck] at h
    cases hread : S.fromStr text with
    | error e =>
      rw [hread] at h
      cases h
    | ok v' =>
      rw [hread] at h
      cases h
      obtain ⟨hcharge, hbound⟩ := charge_covers hS hscan hread
      exact hcharge.trans hbound

/-- **A value that is read from an accepted text has at most the size that was charged**, and
the charge keeps the limit of the API. -/
theorem checkApiJson_covers {S : SerdeJson} (hS : S.Documented) {text : String} {v : JsonValue}
    (haccept : checkApiJson text = .ok ()) (hread : S.fromStr text = .ok v) :
    ∃ s, scanText text = .ok s ∧ valueBytes S.valueSize v ≤ s.bytes ∧ s.bytes ≤ apiBytes := by
  obtain ⟨s, hscan⟩ := checkApiJson_ok haccept
  exact ⟨s, hscan, charge_covers hS hscan hread⟩

/-! ### A text -/

/-- `["a",7]`. -/
def listText : String := .ofList ['[', '"', 'a', '"', ',', '7', ']']

/-- The number `7`. -/
def seven : JsonNumber := ⟨.ofList ['7'], some 7, some 7, some 7⟩

def listValue : JsonValue := .array [.string (.ofList ['a']), .number seven]

/-- A reader that takes no other text. -/
def listReader : SerdeJson where
  valueSize := 32
  parseNumber token := if token = .ofList ['7'] then some seven else none
  fromStr text := if text = listText then .ok listValue else .error "expected value"

theorem listReader_documented : listReader.Documented where
  valueSize_le := by decide
  number_le := by
    intro token n hn
    simp only [listReader, Option.ite_none_right_eq_some, Option.some.injEq] at hn
    obtain ⟨rfl, rfl⟩ := hn
    exact Nat.le_succ _
  spells := by
    intro text v hv
    have hseven : listReader.parseNumber (.ofList ['7']) = some seven := by simp [listReader]
    simp only [listReader] at hv
    split at hv
    · rename_i htext
      cases hv
      refine ⟨.array [.string (some (.ofList ['a'])), .number seven], ?_, rfl⟩
      rw [htext, listText, String.toList_ofList]
      have hdigit : NumberToken ([] ++ ['7'] ++ [] ++ []) :=
        .mk (.inl rfl) (.digits (by decide) ⟨by simp, by simp⟩) .none .none
      have hitems : ∀ e ∈ [(['"', 'a', '"'], JsonDoc.string (some (.ofList ['a']))),
          (['7'], .number seven)], Spells listReader.parseNumber e.1 e.2 := by
        intro e he
        rcases List.mem_pair.mp he with rfl | rfl
        · exact .string (.plain (by decide) (by decide) (by decide) .nil)
        · exact .number hdigit hseven
      exact .array (List.cons_ne_nil _ _) hitems
    · cases hv

theorem list_charged : ∃ s, scanText listText = .ok s ∧ valueBytes 32 listValue ≤ s.bytes ∧
    s.bytes ≤ apiBytes := by
  have haccept : checkApiJson listText = .ok () := by
    unfold checkApiJson scanText listText
    rw [String.toList_ofList]
    rfl
  have hread : listReader.fromStr listText = .ok listValue := by simp [listReader]
  exact checkApiJson_covers listReader_documented haccept hread

end Dashboard

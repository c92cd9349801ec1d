/-
Block hashes that keep their spelling.

The model of `dashboard-model/src/hash.rs`.  A `BlockHash` carries the accepted
text and the 32 bytes it denotes; Rust's `==` compares the bytes (`sameBytes`),
while everything that is stored or compared in SQL is the text.

* `BlockHash.fromStr` — the parser, on the UTF-8 bytes of the text;
* `BlockHash.ofBytes` — the spelling the chain reader produces, always lower
  case: `ofBytes_text_inj` shows that on such hashes text and bytes agree.
-/
import Mathlib.Data.List.Basic
import Mathlib.Tactic.Common

namespace Dashboard

/-- Why a block hash was rejected. -/
inductive BlockHashError where
  | missingPrefix
  | invalidLength (actual : ℕ)
  | invalidHex (index : ℕ) (found : UInt8)
  deriving DecidableEq

/-- The UTF-8 bytes of a text, `str::as_bytes`. -/
def asBytes (s : String) : List UInt8 := s.toList.flatMap String.utf8EncodeChar

/-- `hex_nibble`: one hexadecimal digit, in either letter case. -/
def hexNibble (byte : UInt8) (index : ℕ) : Except BlockHashError UInt8 :=
  if 48 ≤ byte ∧ byte ≤ 57 then .ok (byte - 48)
  else if 97 ≤ byte ∧ byte ≤ 102 then .ok (byte - 97 + 10)
  else if 65 ≤ byte ∧ byte ≤ 70 then .ok (byte - 65 + 10)
  else .error (.invalidHex index byte)

/-- The digit pairs of `as_chunks::<2>()`, from byte `index` of the text on. -/
def hexPairs : List UInt8 → ℕ → Except BlockHashError (List UInt8)
  | high :: low :: rest, index => do
    let high ← hexNibble high index
    let low ← hexNibble low (index + 1)
    let bytes ← hexPairs rest (index + 2)
    return (high <<< 4 ||| low) :: bytes
  | _, _ => .ok []

/-- `hex_digit`: the lower-case digit of a nibble. -/
def hexDigit (nibble : UInt8) : UInt8 :=
  let nibble := nibble &&& 0x0f
  if nibble < 10 then 48 + nibble else 97 + (nibble - 10)

/-- `encode_hex`. -/
def encodeHex (bytes : List UInt8) : String :=
  String.ofList ('0' :: 'x' :: bytes.flatMap fun (byte : UInt8) =>
    [Char.ofUInt8 (hexDigit (byte >>> 4)), Char.ofUInt8 (hexDigit (byte &&& 0x0f))])

/-- The 32 bytes that a text denotes, `BlockHash::from_str`. -/
def parseHash (raw : String) : Except BlockHashError (List UInt8) :=
  match asBytes raw with
  | 48 :: 120 :: hex =>
    if hex.length ≠ 64 then .error (.invalidLength hex.length) else hexPairs hex 2
  | _ => .error .missingPrefix

/-- A 32-byte hash in an accepted spelling. -/
@[ext] structure BlockHash where
  /-- The original spelling; what `Display`, JSON and SQL see. -/
  text : String
  /-- The decoded bytes; what `==` compares. -/
  bytes : List UInt8
  /-- The bytes are those of the text. -/
  parsed : parseHash text = .ok bytes
  deriving DecidableEq

namespace BlockHash

/-- `FromStr for BlockHash`. -/
def fromStr (raw : String) : Except BlockHashError BlockHash :=
  match h : parseHash raw with
  | .ok bytes => .ok ⟨raw, bytes, h⟩
  | .error e => .error e

/-- `PartialEq for BlockHash`: equality of the decoded bytes. -/
def sameBytes (a b : BlockHash) : Bool := a.bytes = b.bytes

@[simp] theorem sameBytes_iff {a b : BlockHash} : a.sameBytes b = true ↔ a.bytes = b.bytes := by
  simp [sameBytes]

/-- The same spelling denotes the same bytes. -/
theorem eq_of_text {a b : BlockHash} (h : a.text = b.text) : a = b := by
  have hb : (.ok a.bytes : Except BlockHashError _) = .ok b.bytes := by
    rw [← a.parsed, ← b.parsed, h]
  exact BlockHash.ext h (by simpa using hb)

theorem text_inj {a b : BlockHash} : a.text = b.text ↔ a = b :=
  ⟨eq_of_text, fun h => h ▸ rfl⟩

end BlockHash

/-- A chain hash, `BlockHash([u8; 32])` of the chain reader. -/
@[ext] structure ChainHash where
  bytes : List UInt8
  length_eq : bytes.length = 32
  deriving DecidableEq

private theorem encode_digit : ∀ n : Fin 16,
    String.utf8EncodeChar (Char.ofUInt8 (hexDigit (UInt8.ofNat n))) =
      [hexDigit (UInt8.ofNat n)] := by
  decide

private theorem nibble_digit : ∀ (n : Fin 16) (index : ℕ),
    hexNibble (hexDigit (UInt8.ofNat n)) index = .ok (UInt8.ofNat n) := by
  intro n index
  have h : ∀ n : Fin 16, (48 ≤ hexDigit (UInt8.ofNat n) ∧ hexDigit (UInt8.ofNat n) ≤ 57 ∧
      hexDigit (UInt8.ofNat n) - 48 = UInt8.ofNat n) ∨
      (¬(48 ≤ hexDigit (UInt8.ofNat n) ∧ hexDigit (UInt8.ofNat n) ≤ 57) ∧
        97 ≤ hexDigit (UInt8.ofNat n) ∧ hexDigit (UInt8.ofNat n) ≤ 102 ∧
        hexDigit (UInt8.ofNat n) - 97 + 10 = UInt8.ofNat n) := by
    decide
  rcases h n with ⟨h₁, h₂, h₃⟩ | ⟨h₁, h₂, h₃, h₄⟩
  · rw [hexNibble, if_pos ⟨h₁, h₂⟩, h₃]
  · rw [hexNibble, if_neg h₁, if_pos ⟨h₂, h₃⟩, h₄]

private theorem byte_nibbles (byte : UInt8) :
    ∃ high low : Fin 16, byte >>> 4 = UInt8.ofNat high ∧ byte &&& 0x0f = UInt8.ofNat low ∧
      (UInt8.ofNat high <<< 4 ||| UInt8.ofNat low) = byte := by
  have h : ∀ high low : Fin 16,
      UInt8.ofNat (16 * high + low) >>> 4 = UInt8.ofNat high ∧
      UInt8.ofNat (16 * high + low) &&& 0x0f = UInt8.ofNat low ∧
      (UInt8.ofNat high <<< 4 ||| UInt8.ofNat low) = UInt8.ofNat (16 * high + low) := by
    decide +kernel
  have hlt := byte.toNat_lt
  have hb : UInt8.ofNat (16 * (byte.toNat / 16) + byte.toNat % 16) = byte := by
    rw [Nat.div_add_mod, UInt8.ofNat_toNat]
  have := h ⟨byte.toNat / 16, by omega⟩ ⟨byte.toNat % 16, by omega⟩
  simp only [hb] at this
  exact ⟨⟨byte.toNat / 16, by omega⟩, ⟨byte.toNat % 16, by omega⟩, this⟩

private theorem asBytes_encodeHex (bytes : List UInt8) :
    asBytes (encodeHex bytes) = 48 :: 120 :: bytes.flatMap fun (byte : UInt8) =>
      [hexDigit (byte >>> 4), hexDigit (byte &&& 0x0f)] := by
  have hz : String.utf8EncodeChar '0' = [48] := by decide
  have hx : String.utf8EncodeChar 'x' = [120] := by decide
  rw [asBytes, encodeHex, String.toList_ofList, List.flatMap_cons, List.flatMap_cons, hz, hx,
    List.cons_append, List.nil_append, List.cons_append, List.nil_append]
  congr 2
  induction bytes with
  | nil => rfl
  | cons byte rest ih =>
    obtain ⟨high, low, hh, hl, -⟩ := byte_nibbles byte
    simp [List.flatMap_cons, hh, hl, encode_digit, ih]

private theorem hexPairs_encode (bytes : List UInt8) : ∀ index,
    hexPairs (bytes.flatMap fun (byte : UInt8) =>
      [hexDigit (byte >>> 4), hexDigit (byte &&& 0x0f)]) index = .ok bytes := by
  induction bytes with
  | nil => intro index; rfl
  | cons byte rest ih =>
    intro index
    obtain ⟨high, low, hh, hl, hb⟩ := byte_nibbles byte
    rw [List.flatMap_cons, hh, hl, List.cons_append, List.cons_append, List.nil_append, hexPairs,
      nibble_digit, nibble_digit, ih]
    simp [bind, Except.bind, pure, Except.pure, hb]

theorem parseHash_encodeHex {bytes : List UInt8} (h : bytes.length = 32) :
    parseHash (encodeHex bytes) = .ok bytes := by
  have hlen : (bytes.flatMap fun (byte : UInt8) =>
      [hexDigit (byte >>> 4), hexDigit (byte &&& 0x0f)]).length = 64 := by
    simp [List.length_flatMap, h]
  rw [parseHash, asBytes_encodeHex]
  simp only [hlen, ne_eq, not_true_eq_false, if_false]
  exact hexPairs_encode bytes 2

/-- Two digits are one byte. -/
private theorem hexPairs_length {digits bytes : List UInt8} {index : ℕ}
    (h : hexPairs digits index = .ok bytes) : bytes.length = digits.length / 2 := by
  induction digits, index using hexPairs.induct generalizing bytes with
  | case1 high low rest index ih =>
    rw [hexPairs] at h
    cases hh : hexNibble high index with
    | error e => simp [hh, bind, Except.bind] at h
    | ok n =>
      cases hl : hexNibble low (index + 1) with
      | error e => simp [hh, hl, bind, Except.bind] at h
      | ok m =>
        cases hr : hexPairs rest (index + 2) with
        | error e => simp [hh, hl, hr, bind, Except.bind] at h
        | ok bs =>
          simp only [hh, hl, hr, bind, Except.bind, pure, Except.pure, Except.ok.injEq] at h
          rw [← h, List.length_cons, ih hr, List.length_cons, List.length_cons]
          omega
  | case2 digits index hno =>
    have hshort : digits.length < 2 := by
      match digits, hno with
      | [], _ => exact Nat.two_pos
      | [_], _ => exact Nat.one_lt_two
      | a :: b :: l, hno => exact absurd rfl (hno a b l)
    rw [hexPairs] at h
    · obtain rfl := Except.ok.inj h
      rw [List.length_nil]
      omega
    · exact hno

/-- A text that parses denotes 32 bytes. -/
theorem parseHash_length {raw : String} {bytes : List UInt8} (h : parseHash raw = .ok bytes) :
    bytes.length = 32 := by
  unfold parseHash at h
  split at h
  · split at h
    · cases h
    · rename_i hlen
      rw [hexPairs_length h, not_not.mp hlen]
  · cases h

/-- `model_hash`, that is `From<[u8; 32]> for BlockHash`: the lower-case spelling. -/
def BlockHash.ofBytes (hash : ChainHash) : BlockHash :=
  ⟨encodeHex hash.bytes, hash.bytes, parseHash_encodeHex hash.length_eq⟩

/-- `chain_hash`: the bytes of a hash, in whatever spelling. -/
def chainHash (hash : BlockHash) : ChainHash := ⟨hash.bytes, parseHash_length hash.parsed⟩

/-- The hash of 32 equal bytes, for concrete runs. -/
def BlockHash.uniform (byte : UInt8) : BlockHash :=
  .ofBytes ⟨List.replicate 32 byte, List.length_replicate⟩

/-- Hashes spelled by `ofBytes` are equal as texts exactly when their bytes are. -/
theorem BlockHash.ofBytes_text_inj {a b : ChainHash} :
    (BlockHash.ofBytes a).text = (BlockHash.ofBytes b).text ↔ a = b := by
  constructor
  · intro h
    have := congrArg BlockHash.bytes (BlockHash.eq_of_text h)
    exact ChainHash.ext this
  · rintro rfl
    rfl

end Dashboard

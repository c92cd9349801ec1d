/-
The decimal text of a 256-bit number.

The model of `decimal` in `quip-dashboard/src/chain/decode.rs`, with the values of
the SCALE decoder it reads.  The arithmetic is that of the source: the carry and
the products are `u16`, the digits `u8`, and a result that does not fit is
`overflow`.

* `pushByte_eq` — one byte: no intermediate result overflows, and the digits are
  those of schoolbook multiplication by 256;
* `digitsOf_eq` — the digits of any bytes are the canonical digits of their number;
* `decimal_u256` — **the text of a U256 is the canonical text of its number, which
  `DecimalString` accepts**.
-/
import QuipDashboard.BaseConversion
import QuipDashboard.Chain
import QuipDashboard.FreshAuthorship

namespace Dashboard

open BaseConversion DigitOrder

/-! ### The values of the SCALE decoder -/

/-- `scale_value::Primitive`. -/
inductive Primitive
  | bool (b : Bool)
  | char (c : Char)
  | string (s : String)
  | u128 (n : ℕ)
  | i128 (z : ℤ)
  | u256 (bytes : Vector UInt8 32)
  | i256 (bytes : Vector UInt8 32)

/-- `scale_value::Value`; the type ids are left out. -/
inductive ScaleValue
  | primitive (p : Primitive)
  | unnamed (values : List ScaleValue)
  | named (fields : List (String × ScaleValue))
  | variant (name : String) (fields : List (String × ScaleValue))
  | bitSequence (bits : List Bool)

/-- The part of `scale_value` that is not here: which primitives `as_u128` reads. -/
structure ScaleReader where
  asU128 : Primitive → Option ℕ
  u128 : ∀ n, asU128 (.u128 n) = some n
  u256 : ∀ bytes, asU128 (.u256 bytes) = none

/-- `Value::as_u128`: of primitives only. -/
def ScaleReader.valueAsU128 (r : ScaleReader) : ScaleValue → Option ℕ
  | .primitive p => r.asU128 p
  | _ => none

/-- `unwrap`. -/
def unwrapValue : ScaleValue → ScaleValue
  | .unnamed [inner] => unwrapValue inner
  | value => value

/-- `sequence`. -/
def scaleSequence : ScaleValue → Except ChainError (List ScaleValue)
  | .unnamed values => .ok values
  | .named fields => .ok (fields.map Prod.snd)
  | _ => .error (.invalid "expected sequence")

/-- The text of a failed `try_from` between integers. -/
def outOfRange : ChainError :=
  .invalid "out of range integral type conversion attempted"

/-- `unsigned`. -/
def ScaleReader.unsigned (r : ScaleReader) (value : ScaleValue) : Except ChainError ℕ :=
  match r.valueAsU128 (unwrapValue value) with
  | none => .error (.invalid "expected unsigned integer")
  | some n => if n ≤ u64Max then .ok n else .error outOfRange

/-! ### `decimal` -/

/-- How `decimal` can fail: with an error, or in its own arithmetic. -/
inductive DecimalFailure
  | chain (error : ChainError)
  | overflow
  deriving DecidableEq

/-- The result of an operation on `u16`. -/
def checkedU16 (n : ℕ) : Except DecimalFailure ℕ := if n < 2 ^ 16 then .ok n else .error .overflow

/-- `u8::try_from(n).map_err(invalid)`. -/
def u8TryFrom (n : ℕ) : Except DecimalFailure ℕ :=
  if n < 256 then .ok n else .error (.chain outOfRange)

/-- `for digit in &mut digits`: the digits and the carry afterwards. -/
def multiplyDigits : List ℕ → ℕ → Except DecimalFailure (List ℕ × ℕ)
  | [], carry => .ok ([], carry)
  | digit :: digits, carry => do
    let product ← checkedU16 (digit * 256)
    let next ← checkedU16 (product + carry)
    let digit ← u8TryFrom (next % 10)
    let rest ← multiplyDigits digits (next / 10)
    return (digit :: rest.1, rest.2)

/-- `while carry > 0`: the digits that are pushed. -/
def carryDigits (carry : ℕ) : Except DecimalFailure (List ℕ) :=
  if carry = 0 then .ok []
  else do
    let digit ← u8TryFrom (carry % 10)
    let rest ← carryDigits (carry / 10)
    return digit :: rest
termination_by carry
decreasing_by omega

/-- The body of `for byte in raw.iter().rev()`. -/
def pushByte (digits : List ℕ) (byte : ℕ) : Except DecimalFailure (List ℕ) := do
  let multiplied ← multiplyDigits digits byte
  let pushed ← carryDigits multiplied.2
  return multiplied.1 ++ pushed

/-- The digits of some bytes, least significant first. -/
def digitsOf (raw : List ℕ) : Except DecimalFailure (List ℕ) := raw.reverse.foldlM pushByte [0]

/-- `char::from(b'0' + d)`. -/
def digitChar (d : ℕ) : Except DecimalFailure Char :=
  if 48 + d < 256 then .ok (Char.ofNat (48 + d)) else .error .overflow

/-- `u64::to_le_bytes`. -/
def toLeBytes (n : ℕ) : List ℕ := fixedDigits 256 8 n

/-- An error of the reader as a failure. -/
def liftChain {α : Type} : Except ChainError α → Except DecimalFailure α
  | .ok a => .ok a
  | .error e => .error (.chain e)

/-- The bytes of four limbs. -/
def ScaleReader.limbBytes (r : ScaleReader) (value : ScaleValue) :
    Except DecimalFailure (List ℕ) := do
  let values ← liftChain (scaleSequence value)
  if values.length ≠ 4 then .error (.chain (.invalid "expected four U256 limbs"))
  else
    let limbs ← values.mapM fun limb => liftChain (r.unsigned limb)
    return limbs.flatMap toLeBytes

/-- The bytes that `decimal` converts. -/
def ScaleReader.rawBytes (r : ScaleReader) (value : ScaleValue) :
    Except DecimalFailure (List ℕ) :=
  match value with
  | .primitive (.u256 bytes) => .ok (bytes.toList.map UInt8.toNat)
  | .unnamed _ | .named _ => r.limbBytes value
  | _ => .error (.chain (.invalid "expected nonnegative integer"))

/-- `decimal`. -/
def ScaleReader.decimal (r : ScaleReader) (value : ScaleValue) :
    Except DecimalFailure (List Char) := do
  let value := unwrapValue value
  match r.valueAsU128 value with
  | some number => return text number
  | none =>
    let raw ← r.rawBytes value
    let digits ← digitsOf raw
    digits.reverse.mapM digitChar

/-! ### The arithmetic does not overflow -/

theorem ok_bind {ε α β : Type} (a : α) (f : α → Except ε β) : (Except.ok a >>= f) = f a := rfl

theorem checkedU16_ok {n : ℕ} (h : n < 2 ^ 16) : checkedU16 n = .ok n := if_pos h

theorem u8TryFrom_ok {n : ℕ} (h : n < 2 ^ 8) : u8TryFrom n = .ok n := if_pos h

/-- Decimal digits with a carry of one byte stay within their types. -/
theorem multiplyDigits_eq {digits : List ℕ} {carry : ℕ} (hdigits : ∀ d ∈ digits, d < 10)
    (hcarry : carry < 256) : multiplyDigits digits carry = .ok (mulAdd 10 256 digits carry) := by
  induction digits generalizing carry with
  | nil => rfl
  | cons d digits ih =>
    have hd : d < 10 := hdigits d List.mem_cons_self
    -- at most 9 * 256 + 255 = 2559
    have hnext : d * 256 + carry < 10 * 256 := next_lt hd hcarry
    have hmod : (d * 256 + carry) % 10 < 10 := Nat.mod_lt _ (by omega)
    have hsum : d * 256 + carry < 2 ^ 16 := hnext.trans (by norm_num)
    have hproduct : d * 256 < 2 ^ 16 := (Nat.le_add_right _ carry).trans_lt hsum
    rw [multiplyDigits, checkedU16_ok hproduct, ok_bind, checkedU16_ok hsum,
      ok_bind, u8TryFrom_ok (by omega), ok_bind,
      ih (fun x hx => hdigits x (List.mem_cons_of_mem d hx)) (carry_lt hd hcarry), ok_bind]
    rfl

theorem carryDigits_eq (carry : ℕ) : carryDigits carry = .ok (Nat.digits 10 carry) := by
  induction carry using Nat.strongRecOn with
  | ind carry ih =>
    rw [carryDigits]
    by_cases h : carry = 0
    · rw [if_pos h, h, Nat.digits_zero]
    · have hmod : carry % 10 < 10 := Nat.mod_lt _ (by omega)
      rw [if_neg h, u8TryFrom_ok (by omega), ok_bind, ih (carry / 10) (by omega),
        ok_bind, Nat.digits_def' (by omega) (Nat.pos_of_ne_zero h)]
      rfl

/-- One byte. -/
theorem pushByte_eq {digits : List ℕ} {byte : ℕ} (hdigits : ∀ d ∈ digits, d < 10)
    (hbyte : byte < 256) : pushByte digits byte = .ok (extend 10 256 digits byte) := by
  rw [pushByte, multiplyDigits_eq hdigits hbyte, ok_bind, carryDigits_eq, ok_bind]
  rfl

theorem canonical_lt (n : ℕ) : ∀ d ∈ canonical 10 n, d < 10 := by
  intro d hd
  rw [canonical] at hd
  split at hd
  · rw [List.mem_singleton.mp hd]
    omega
  · exact Nat.digits_lt_base (by omega) hd

/-- The loop over the bytes, from digits that are canonical. -/
theorem foldlM_pushByte {bytes : List ℕ} (hbytes : ∀ byte ∈ bytes, byte < 256) (n : ℕ) :
    bytes.foldlM pushByte (canonical 10 n) =
      .ok (canonical 10 (bytes.foldl (fun n byte => 256 * n + byte) n)) := by
  induction bytes generalizing n with
  | nil => rfl
  | cons byte bytes ih =>
    rw [List.foldlM_cons, pushByte_eq (canonical_lt n) (hbytes byte List.mem_cons_self),
      ok_bind, extend_canonical (by omega) (by omega),
      ih fun x hx => hbytes x (List.mem_cons_of_mem byte hx)]
    rfl

/-- **The digits of any bytes are the canonical digits of their number.** -/
theorem digitsOf_eq {raw : List ℕ} (hraw : ∀ byte ∈ raw, byte < 256) :
    digitsOf raw = .ok (canonical 10 (Nat.ofDigits 256 raw)) := by
  have hvalue : raw.reverse.foldl (fun n byte => 256 * n + byte) 0 = Nat.ofDigits 256 raw := by
    rw [List.foldl_reverse]
    induction raw with
    | nil => rfl
    | cons byte raw ih =>
      rw [List.foldr_cons, ih fun x hx => hraw x (List.mem_cons_of_mem byte hx),
        Nat.ofDigits_cons, Nat.add_comm]
  have hloop := foldlM_pushByte (fun byte h => hraw byte (List.mem_reverse.mp h)) 0
  rw [hvalue] at hloop
  exact hloop

/-! ### The text of the digits -/

theorem digitChar_eq {d : ℕ} (h : d < 10) : digitChar d = .ok (Nat.digitChar d) := by
  interval_cases d <;> rfl

theorem mapM_digitChar {digits : List ℕ} (h : ∀ d ∈ digits, d < 10) :
    digits.mapM digitChar = .ok (digits.map Nat.digitChar) := by
  induction digits with
  | nil => rfl
  | cons d digits ih =>
    rw [List.mapM_cons, digitChar_eq (h d List.mem_cons_self), ok_bind,
      ih fun x hx => h x (List.mem_cons_of_mem d hx)]
    rfl

/-- The canonical text lists the canonical digits, most significant first. -/
theorem map_digitChar_canonical (n : ℕ) :
    (canonical 10 n).reverse.map Nat.digitChar = text n := by
  induction n using Nat.strongRecOn with
  | ind n ih =>
    by_cases hn : n < 10
    · have hone : canonical 10 n = [n] := by
        rw [canonical]
        split
        · rename_i h
          rw [h]
        · rename_i h
          exact Nat.digits_of_lt 10 n h hn
      rw [hone, text, Nat.toDigits_of_lt_base hn]
      rfl
    · have hsplit : canonical 10 n = n % 10 :: canonical 10 (n / 10) := by
        rw [canonical, if_neg (by omega), canonical, if_neg (by omega),
          Nat.digits_def' (by omega) (by omega)]
      rw [hsplit, List.reverse_cons, List.map_append, ih (n / 10) (by omega), text, text,
        Nat.toDigits_of_base_le (b := 10) (by omega) (not_lt.mp hn)]
      rfl

/-! ### The two forms of a U256 -/

/-- A value, behind any newtypes, that is this U256: its 32 bytes, or four 64-bit
limbs, least significant first. -/
inductive IsU256 (value : ScaleValue) : ℕ → Prop
  | bytes {bytes : Vector UInt8 32} (h : unwrapValue value = .primitive (.u256 bytes)) :
      IsU256 value (Nat.ofDigits 256 (bytes.toList.map UInt8.toNat))
  | limbs {values : List ScaleValue} {limbs : List UInt64}
      (h : scaleSequence (unwrapValue value) = .ok values) (hlen : limbs.length = 4)
      (hlimbs : List.Forall₂ (fun v x => unwrapValue v = .primitive (.u128 x.toNat)) values limbs) :
      IsU256 value (Nat.ofDigits (2 ^ 64) (limbs.map UInt64.toNat))

variable (r : ScaleReader)

theorem unsigned_limb {v : ScaleValue} {x : UInt64}
    (h : unwrapValue v = .primitive (.u128 x.toNat)) : r.unsigned v = .ok x.toNat := by
  have hle : x.toNat ≤ u64Max := Nat.le_of_lt_succ x.toNat_lt
  rw [ScaleReader.unsigned, h, ScaleReader.valueAsU128, r.u128]
  exact if_pos hle

theorem mapM_unsigned {values : List ScaleValue} {limbs : List UInt64}
    (h : List.Forall₂ (fun v x => unwrapValue v = .primitive (.u128 x.toNat)) values limbs) :
    values.mapM (fun limb => liftChain (r.unsigned limb)) = .ok (limbs.map UInt64.toNat) := by
  induction h with
  | nil => rfl
  | cons hv _ ih =>
    rw [List.mapM_cons, unsigned_limb r hv, liftChain, ok_bind, ih]
    rfl

theorem limbBytes_eq {value : ScaleValue} {values : List ScaleValue} {limbs : List UInt64}
    (h : scaleSequence value = .ok values) (hlen : limbs.length = 4)
    (hlimbs : List.Forall₂ (fun v x => unwrapValue v = .primitive (.u128 x.toNat)) values limbs) :
    r.limbBytes value = .ok ((limbs.map UInt64.toNat).flatMap toLeBytes) := by
  have hfour : ¬values.length ≠ 4 := by
    rw [hlimbs.length_eq, hlen]
    omega
  rw [ScaleReader.limbBytes, h, liftChain, ok_bind, if_neg hfour, mapM_unsigned r hlimbs]
  rfl

/-- The bytes of a U256 are below 256, spell its number, and no primitive integer
stands in their place. -/
theorem rawBytes_u256 {value : ScaleValue} {n : ℕ} (h : IsU256 value n) :
    r.valueAsU128 (unwrapValue value) = none ∧
      ∃ raw, r.rawBytes (unwrapValue value) = .ok raw ∧ (∀ byte ∈ raw, byte < 256) ∧
        Nat.ofDigits 256 raw = n := by
  cases h with
  | @bytes bytes hu =>
    rw [hu]
    refine ⟨r.u256 bytes, _, rfl, fun byte hbyte => ?_, rfl⟩
    obtain ⟨x, -, rfl⟩ := List.mem_map.mp hbyte
    exact x.toNat_lt
  | @limbs values limbs hseq hlen hlimbs =>
    have hbytes := limbBytes_eq r hseq hlen hlimbs
    have hlt : ∀ x ∈ limbs.map UInt64.toNat, x < 256 ^ 8 := by
      intro n hn
      obtain ⟨x, -, rfl⟩ := List.mem_map.mp hn
      exact x.toNat_lt
    have hvalue : Nat.ofDigits 256 ((limbs.map UInt64.toNat).flatMap toLeBytes) =
        Nat.ofDigits (2 ^ 64) (limbs.map UInt64.toNat) := ofDigits_flatMap hlt
    have hdigits : ∀ byte ∈ (limbs.map UInt64.toNat).flatMap toLeBytes, byte < 256 := by
      intro byte hbyte
      obtain ⟨x, -, hx⟩ := List.mem_flatMap.mp hbyte
      exact fixedDigits_lt (by omega) 8 x byte hx
    -- only composites have a sequence of values
    cases hu : unwrapValue value with
    | unnamed inner =>
      rw [hu] at hbytes
      exact ⟨rfl, _, hbytes, hdigits, hvalue⟩
    | named fields =>
      rw [hu] at hbytes
      exact ⟨rfl, _, hbytes, hdigits, hvalue⟩
    | primitive p => rw [hu] at hseq; cases hseq
    | variant name fields => rw [hu] at hseq; cases hseq
    | bitSequence bits => rw [hu] at hseq; cases hseq

/-- **The text of a U256 is exact.**  For four 64-bit limbs or 32 bytes `decimal`
returns the canonical text of their number, and `DecimalString` accepts it; and for
no bytes at all does an intermediate result leave its type. -/
theorem decimal_u256 {value : ScaleValue} {n : ℕ} (h : IsU256 value n) :
    r.decimal value = .ok (text n) ∧ decimalFromStr (text n) = .ok (text n) ∧
      ∀ raw : List UInt8, digitsOf (raw.map UInt8.toNat) =
        .ok (canonical 10 (Nat.ofDigits 256 (raw.map UInt8.toNat))) := by
  refine ⟨?_, fromStr_text n, fun raw => digitsOf_eq fun byte hbyte => ?_⟩
  · obtain ⟨hnone, raw, hraw, hlt, hvalue⟩ := rawBytes_u256 r h
    rw [ScaleReader.decimal, hnone, hraw]
    rw [ok_bind, digitsOf_eq hlt, ok_bind, hvalue,
      mapM_digitChar fun d hd => canonical_lt n d (List.mem_reverse.mp hd), map_digitChar_canonical]
  · obtain ⟨x, -, rfl⟩ := List.mem_map.mp hbyte
    exact x.toNat_lt

/-- A reader that knows unsigned primitives only. -/
def unsignedReader : ScaleReader where
  asU128
    | .u128 n => some n
    | _ => none
  u128 _ := rfl
  u256 _ := rfl

/-- `U256([0, 1, 0, 0])`, as the metadata describes it: a newtype of an array. -/
def twoToThe64 : ScaleValue :=
  .unnamed [.unnamed [.primitive (.u128 0), .primitive (.u128 1), .primitive (.u128 0),
    .primitive (.u128 0)]]

theorem decimal_u256_twoToThe64 :
    unsignedReader.decimal twoToThe64 = .ok "18446744073709551616".toList := by
  have hlimbs : List.Forall₂ (fun v (x : UInt64) => unwrapValue v = .primitive (.u128 x.toNat))
      [.primitive (.u128 0), .primitive (.u128 1), .primitive (.u128 0), .primitive (.u128 0)]
      [0, 1, 0, 0] :=
    .cons rfl (.cons rfl (.cons rfl (.cons rfl .nil)))
  exact (decimal_u256 unsignedReader (@IsU256.limbs twoToThe64 _ _ rfl rfl hlimbs)).1

end Dashboard

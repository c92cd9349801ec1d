/-
The values that the runtime's metadata describes.

The model of the readers of values in `quip-dashboard/src/chain/decode.rs`, and of
`normalize_value` in `quip-dashboard/src/chain/metadata.rs`, over the values of the SCALE
decoder with their type ids.

* `Removes` — taking away one newtype that the metadata declares, anywhere in a value;
* `normalizeValue_removes`, `Removes.normalizeValue_eq` — normalizing takes such newtypes
  away, and does not depend on which of them are there;
* `normalize_value` — **normalizing leaves the one value without such newtypes, and keeps
  every other node with its number of fields**;
* `RuntimeReader.accountText_injective` — different accounts have different texts.
-/
import QuipDashboard.ScaleFormat
import QuipDashboard.U256Decimal

namespace Dashboard

open Scale DigitOrder BaseConversion

/-- What a value is made of that has no parts. -/
inductive ScaleLeaf
  | primitive (p : Primitive)
  | bits (bits : List Bool)

/-- `Value<u32>`: a composite is a node, and so is a variant. -/
abbrev RuntimeValue := Value ScaleLeaf

/-! ### `normalize_value` -/

section Normalize

variable {P : Type} (types : ℕ → Option (TypeDef P))

/-- The metadata declares a struct of one unnamed field. -/
def isWrapper (t : ℕ) : Bool :=
  match types t with
  | some (.composite [(none, _)]) => true
  | _ => false

/-- The end of `normalize_value`: a wrapper gives way to what is in it. -/
def unwrapDeclared (t : ℕ) (variant : Option String) (fields : List (Option String × RuntimeValue)) :
    RuntimeValue :=
  match isWrapper types t, variant, fields with
  | true, none, [(none, inner)] => inner
  | _, _, _ => .node t variant fields

mutual

/-- `normalize_value`. -/
def normalizeValue : RuntimeValue → RuntimeValue
  | .leaf t x => .leaf t x
  | .node t variant fields => unwrapDeclared types t variant (normalizeComposite fields)

/-- `normalize_composite`. -/
def normalizeComposite : List (Option String × RuntimeValue) → List (Option String × RuntimeValue)
  | [] => []
  | (name, value) :: fields => (name, normalizeValue value) :: normalizeComposite fields

end

/-- One declared newtype is taken away. -/
inductive Removes : RuntimeValue → RuntimeValue → Prop
  | wrapper {t v} (h : isWrapper types t = true) : Removes (.node t none [(none, v)]) v
  | inside {t variant l n v v' r} (h : Removes v v') :
      Removes (.node t variant (l ++ (n, v) :: r)) (.node t variant (l ++ (n, v') :: r))

variable {types}

theorem normalizeComposite_eq (fields : List (Option String × RuntimeValue)) :
    normalizeComposite types fields = fields.map fun f => (f.1, normalizeValue types f.2) := by
  induction fields with
  | nil => rfl
  | cons f fields ih => rw [normalizeComposite, ih, List.map_cons]

theorem unwrapDeclared_of_not_wrapper {t : ℕ} (h : isWrapper types t = false) (variant : Option String)
    (fields : List (Option String × RuntimeValue)) :
    unwrapDeclared types t variant fields = .node t variant fields := by
  simp [unwrapDeclared, h]

theorem unwrapDeclared_wrapper {t : ℕ} (h : isWrapper types t = true) (v : RuntimeValue) :
    unwrapDeclared types t none [(none, v)] = v := by
  simp [unwrapDeclared, h]

/-- Either a node is a declared newtype, or it stays. -/
theorem unwrapDeclared_cases (types : ℕ → Option (TypeDef P)) (t : ℕ) (variant : Option String)
    (fields : List (Option String × RuntimeValue)) :
    (isWrapper types t = true ∧ variant = none ∧ ∃ v, fields = [(none, v)] ∧
      unwrapDeclared types t variant fields = v) ∨
    unwrapDeclared types t variant fields = .node t variant fields ∧
      (isWrapper types t = true → variant = none → ∀ v, fields ≠ [(none, v)]) := by
  unfold unwrapDeclared
  split
  · rename_i h
    exact .inl ⟨h, rfl, _, rfl, rfl⟩
  · rename_i h
    refine .inr ⟨rfl, ?_⟩
    rintro hw rfl v rfl
    exact h v hw rfl rfl

theorem Removes.field {t : ℕ} {variant : Option String} {l r : List (Option String × RuntimeValue)}
    {n : Option String} {v v' : RuntimeValue} (h : Relation.ReflTransGen (Removes types) v v') :
    Relation.ReflTransGen (Removes types) (.node t variant (l ++ (n, v) :: r))
      (.node t variant (l ++ (n, v') :: r)) :=
  h.lift (fun v => Value.node t variant (l ++ (n, v) :: r)) fun _ _ h => .inside h

theorem Removes.fields {t : ℕ} {variant : Option String} (fields l : List (Option String × RuntimeValue))
    (h : ∀ f ∈ fields, Relation.ReflTransGen (Removes types) f.2 (normalizeValue types f.2)) :
    Relation.ReflTransGen (Removes types) (.node t variant (l ++ fields))
      (.node t variant (l ++ normalizeComposite types fields)) := by
  induction fields generalizing l with
  | nil => exact .refl
  | cons f fields ih =>
    obtain ⟨n, v⟩ := f
    obtain ⟨hv, hrest⟩ := List.forall_mem_cons.1 h
    have hfirst : Relation.ReflTransGen (Removes types) (.node t variant (l ++ (n, v) :: fields))
        (.node t variant (l ++ (n, normalizeValue types v) :: fields)) := Removes.field hv
    refine hfirst.trans ?_
    have := ih (l ++ [(n, normalizeValue types v)]) hrest
    simpa [normalizeComposite] using this

/-- Normalizing takes newtypes away. -/
theorem normalizeValue_removes (v : RuntimeValue) :
    Relation.ReflTransGen (Removes types) v (normalizeValue types v) := by
  induction v using Value.induction with
  | leaf t x =>
    rw [normalizeValue]
  | node t variant fields ih =>
    rw [normalizeValue]
    refine (Removes.fields fields [] ih).trans ?_
    rcases unwrapDeclared_cases types t variant (normalizeComposite types fields) with
      ⟨hw, rfl, v, hv, hu⟩ | ⟨hu, -⟩
    · rw [hu, List.nil_append, hv]
      exact .single (.wrapper hw)
    · rw [hu]
      exact .refl

/-- What is normalized does not depend on the newtypes that are there. -/
theorem Removes.normalizeValue_eq {v v' : RuntimeValue} (h : Removes types v v') :
    normalizeValue types v = normalizeValue types v' := by
  induction h with
  | @wrapper t v hw => rw [normalizeValue, normalizeComposite, normalizeComposite, unwrapDeclared_wrapper hw]
  | inside _ ih =>
    rw [normalizeValue, normalizeValue, normalizeComposite_eq, normalizeComposite_eq]
    simp [ih]

/-- No declared newtype is left. -/
def Normal (types : ℕ → Option (TypeDef P)) (v : RuntimeValue) : Prop := ∀ w, ¬Removes types v w

theorem normal_normalizeValue (v : RuntimeValue) : Normal types (normalizeValue types v) := by
  induction v using Value.induction with
  | leaf t x =>
    rw [normalizeValue]
    intro w hw
    cases hw
  | node t variant fields ih =>
    rw [normalizeValue]
    rcases unwrapDeclared_cases types t variant (normalizeComposite types fields) with
      ⟨-, rfl, v, hv, hu⟩ | ⟨hu, hnot⟩
    · rw [hu]
      -- what was in the newtype is a normalized field
      rw [normalizeComposite_eq] at hv
      have hmem : ((none, v) : Option String × RuntimeValue) ∈
          fields.map fun f => (f.1, normalizeValue types f.2) := by simp [hv]
      obtain ⟨f, hf, hfv⟩ := List.mem_map.1 hmem
      obtain ⟨-, rfl⟩ := Prod.mk.inj hfv
      exact ih f hf
    · rw [hu]
      generalize hfs : normalizeComposite types fields = fs at hnot
      intro w hw
      cases hw with
      | wrapper h => exact hnot h rfl _ rfl
      | @inside _ _ l n v v' r h =>
        have hmem : (n, v) ∈ fields.map fun f => (f.1, normalizeValue types f.2) := by
          rw [← normalizeComposite_eq, hfs]
          simp
        obtain ⟨f, hf, hfv⟩ := List.mem_map.1 hmem
        obtain ⟨-, rfl⟩ := Prod.mk.inj hfv
        exact ih f hf _ h

/-- **Normalizing takes away the declared newtypes, all of them and nothing else.**  A
value becomes, by taking such newtypes away in any order, the normalized one and no other
value without them; so values that differ by such newtypes alone are normalized to one
value.  A node that is no declared newtype stays with its type, its variant, and all of its
fields, and so does a vector or a tuple of one element. -/
theorem normalize_value (types : ℕ → Option (TypeDef P)) :
    (∀ v w, Normal types w → (Relation.ReflTransGen (Removes types) v w ↔ w = normalizeValue types v)) ∧
    (∀ v w, Relation.EqvGen (Removes types) v w → normalizeValue types v = normalizeValue types w) ∧
    (∀ v, Normal types (normalizeValue types v)) ∧
    ∀ t variant fields, isWrapper types t = false → normalizeValue types (.node t variant fields) =
      .node t variant (fields.map fun f => (f.1, normalizeValue types f.2)) := by
  have hstar : ∀ {v w}, Relation.ReflTransGen (Removes types) v w →
      normalizeValue types v = normalizeValue types w := by
    intro v w h
    induction h with
    | refl => rfl
    | tail _ h ih => exact ih.trans h.normalizeValue_eq
  refine ⟨fun v w hw => ⟨fun h => ?_, fun h => h ▸ normalizeValue_removes v⟩, fun v w h => ?_,
    normal_normalizeValue, fun t variant fields ht => ?_⟩
  · rw [hstar h]
    -- nothing is taken away from what is normal
    have hnormal : Relation.ReflTransGen (Removes types) w (normalizeValue types w) := normalizeValue_removes w
    rcases Relation.ReflTransGen.cases_head hnormal with h | ⟨u, h, -⟩
    · exact h
    · exact absurd h (hw u)
  · induction h with
    | rel _ _ h => exact h.normalizeValue_eq
    | refl => rfl
    | symm _ _ _ ih => exact ih.symm
    | trans _ _ _ _ _ ih ih' => exact ih.trans ih'
  · rw [normalizeValue, unwrapDeclared_of_not_wrapper ht, normalizeComposite_eq]

end Normalize

/-! ### The readers of values -/

/-- `unwrap`. -/
def unwrapRuntime : RuntimeValue → RuntimeValue
  | .node _ none [(none, inner)] => unwrapRuntime inner
  | value => value

/-- `maybe_field`. -/
def maybeField (value : RuntimeValue) (name : String) : Option RuntimeValue :=
  match unwrapRuntime value with
  | .node _ none fields => (fields.find? fun f => f.1 = some name).map Prod.snd
  | _ => none

/-- `field`. -/
def field (value : RuntimeValue) (name : String) : Except ChainError RuntimeValue :=
  match maybeField value name with
  | some value => .ok value
  | none => .error (.invalid ("missing field " ++ name))

/-- `sequence`. -/
def sequence : RuntimeValue → Except ChainError (List RuntimeValue)
  | .node _ none fields => .ok (fields.map Prod.snd)
  | _ => .error (.invalid "expected sequence")

/-- `option`. -/
def scaleOption (value : RuntimeValue) : Except ChainError (Option RuntimeValue) :=
  match unwrapRuntime value with
  | .node _ (some "None") [] => .ok none
  | .node _ (some "Some") [(_, value)] => .ok (some value)
  | _ => .error (.invalid "expected SCALE Option")

/-- The parts of other crates that the readers use: which primitives are integers, and how
bytes become the text of an account. -/
structure RuntimeReader extends ScaleReader where
  asI128 : Primitive → Option ℤ
  i128 : ∀ z, asI128 (.i128 z) = some z
  /-- `Blake2b512`. -/
  blake2b : List UInt8 → List UInt8
  /-- `bs58::encode`. -/
  base58 : List UInt8 → String
  base58_injective : Function.Injective base58

variable (r : RuntimeReader)

/-- `as_u128`. -/
def RuntimeReader.valueAsU128 : RuntimeValue → Option ℕ
  | .leaf _ (.primitive p) => r.asU128 p
  | _ => none

/-- `as_i128`. -/
def RuntimeReader.valueAsI128 : RuntimeValue → Option ℤ
  | .leaf _ (.primitive p) => r.asI128 p
  | _ => none

/-- `unsigned`. -/
def RuntimeReader.unsigned (value : RuntimeValue) : Except ChainError ℕ :=
  match r.valueAsU128 (unwrapRuntime value) with
  | none => .error (.invalid "expected unsigned integer")
  | some n => if n ≤ u64Max then .ok n else .error outOfRange

/-- `signed`. -/
def RuntimeReader.signed (value : RuntimeValue) : Except ChainError ℤ :=
  match r.valueAsI128 (unwrapRuntime value) with
  | none => .error (.invalid "expected signed integer")
  | some z => if -2 ^ 63 ≤ z ∧ z < 2 ^ 63 then .ok z else .error outOfRange

/-- `u32_field`. -/
def RuntimeReader.u32Field (value : RuntimeValue) (name : String) : Except ChainError ℕ := do
  let n ← r.unsigned (← field value name)
  if n ≤ u32Max then .ok n else .error outOfRange

/-- `u8::try_from`. -/
def byteOf (n : ℕ) : Except ChainError UInt8 := if n < 256 then .ok n.toUInt8 else .error outOfRange

/-- `bytes`. -/
def RuntimeReader.bytes (value : RuntimeValue) : Except ChainError (List UInt8) :=
  let value := unwrapRuntime value
  match r.valueAsU128 value, value with
  | some n, _ => do
    let byte ← byteOf n
    return [byte]
  | none, .leaf _ (.primitive (.u256 bytes)) => .ok bytes.toList
  | none, value => do
    let values ← sequence value
    values.mapM fun v => do byteOf (← r.unsigned v)

/-- `account_bytes`. -/
def RuntimeReader.accountBytes (account : List UInt8) : Except ChainError String :=
  if account.length ≠ 32 then
    .error (.unsupported ("account identifier length " ++ account.length.repr))
  else
    let payload := 42 :: account
    .ok (r.base58 (payload ++ (r.blake2b ("SS58PRE".toUTF8.toList ++ payload)).take 2))

/-- `account`. -/
def RuntimeReader.account (value : RuntimeValue) : Except ChainError String := do
  r.accountBytes (← r.bytes value)

mutual

/-- The value without its type ids. -/
def eraseTypes : RuntimeValue → ScaleValue
  | .leaf _ (.primitive p) => .primitive p
  | .leaf _ (.bits bits) => .bitSequence bits
  | .node _ (some name) fields => .variant name (eraseFields fields)
  | .node _ none fields =>
    if fields.all fun f => f.1.isNone then .unnamed ((eraseFields fields).map Prod.snd)
    else .named (eraseFields fields)

/-- The fields without their type ids. -/
def eraseFields : List (Option String × RuntimeValue) → List (String × ScaleValue)
  | [] => []
  | (name, value) :: fields => (name.getD "", eraseTypes value) :: eraseFields fields

end

/-- `decimal`; its arithmetic does not overflow, as `digitsOf_eq` says. -/
def RuntimeReader.decimal (value : RuntimeValue) : Except ChainError (List Char) :=
  match r.toScaleReader.decimal (eraseTypes value) with
  | .ok text => .ok text
  | .error (.chain e) => .error e
  | .error .overflow => .error outOfRange

/-! ### What a value says -/

/-- An unsigned integer, behind any newtypes. -/
def IsUnsigned (value : RuntimeValue) (n : ℕ) : Prop :=
  ∃ t, unwrapRuntime value = .leaf t (.primitive (.u128 n))

/-- A signed integer, behind any newtypes. -/
def IsSigned (value : RuntimeValue) (z : ℤ) : Prop :=
  ∃ t, unwrapRuntime value = .leaf t (.primitive (.i128 z))

/-- An account: 32 bytes, behind any newtypes. -/
def IsAccount (value : RuntimeValue) (account : Vector UInt8 32) : Prop :=
  ∃ t fields, unwrapRuntime value = .node t none fields ∧
    List.Forall₂ (fun f b => IsUnsigned f.2 b.toNat) fields account.toList

/-- An amount: an unsigned integer or a U256, behind any newtypes. -/
def IsAmount (value : RuntimeValue) (n : ℕ) : Prop :=
  unwrapValue (eraseTypes value) = .primitive (.u128 n) ∨ IsU256 (eraseTypes value) n

/-- A named field that says something. -/
def HasField (value : RuntimeValue) (name : String) (P : RuntimeValue → Prop) : Prop :=
  ∃ v, maybeField value name = some v ∧ P v

variable {r}

theorem RuntimeReader.unsigned_eq {value : RuntimeValue} {n : ℕ} (h : IsUnsigned value n)
    (hn : n ≤ u64Max) : r.unsigned value = .ok n := by
  obtain ⟨t, h⟩ := h
  simp [RuntimeReader.unsigned, h, RuntimeReader.valueAsU128, r.u128, hn]

theorem RuntimeReader.signed_eq {value : RuntimeValue} {z : Int64} (h : IsSigned value z.toInt) :
    r.signed value = .ok z.toInt := by
  obtain ⟨t, h⟩ := h
  have hz : -2 ^ 63 ≤ z.toInt ∧ z.toInt < 2 ^ 63 := ⟨z.le_toInt, z.toInt_lt⟩
  simp only [RuntimeReader.signed, h, RuntimeReader.valueAsI128, r.i128]
  exact if_pos hz

theorem field_eq {value : RuntimeValue} {name : String} {P : RuntimeValue → Prop}
    (h : HasField value name P) : ∃ v, field value name = .ok v ∧ P v := by
  obtain ⟨v, hv, hP⟩ := h
  exact ⟨v, by rw [field, hv], hP⟩

theorem RuntimeReader.u32Field_eq {value : RuntimeValue} {name : String} {n : UInt32}
    (h : HasField value name (IsUnsigned · n.toNat)) : r.u32Field value name = .ok n.toNat := by
  obtain ⟨v, hv, hP⟩ := field_eq h
  have hn : n.toNat < 2 ^ 32 := n.toNat_lt
  rw [RuntimeReader.u32Field, hv, ok_bind, unsigned_eq hP (by unfold u64Max; omega), ok_bind,
    if_pos (by unfold u32Max; omega)]

theorem RuntimeReader.mapM_bytes {fields : List (Option String × RuntimeValue)} {bytes : List UInt8}
    (h : List.Forall₂ (fun f (b : UInt8) => IsUnsigned f.2 b.toNat) fields bytes) :
    (fields.map Prod.snd).mapM (fun v => do byteOf (← r.unsigned v)) = .ok bytes := by
  induction h with
  | nil => rfl
  | @cons f b _ _ hb _ ih =>
    have hlt : b.toNat < 256 := b.toNat_lt
    rw [List.map_cons, List.mapM_cons, unsigned_eq hb (by unfold u64Max; omega), ih, ok_bind, byteOf,
      if_pos hlt]
    simp only [ok_bind, Nat.toUInt8, UInt8.ofNat_toNat]
    rfl

theorem RuntimeReader.bytes_eq {value : RuntimeValue} {account : Vector UInt8 32}
    (h : IsAccount value account) : r.bytes value = .ok account.toList := by
  obtain ⟨t, fields, hu, h⟩ := h
  rw [RuntimeReader.bytes, hu]
  exact mapM_bytes h

theorem RuntimeReader.account_eq {value : RuntimeValue} {account : Vector UInt8 32}
    (h : IsAccount value account) : r.account value = r.accountBytes account.toList := by
  rw [RuntimeReader.account, bytes_eq h, ok_bind]

theorem RuntimeReader.decimal_eq {value : RuntimeValue} {n : ℕ} (h : IsAmount value n) :
    r.decimal value = .ok (text n) := by
  have hdecimal : r.toScaleReader.decimal (eraseTypes value) = .ok (text n) := by
    rcases h with h | h
    · rw [ScaleReader.decimal, h, ScaleReader.valueAsU128, r.u128]
      rfl
    · obtain ⟨hnone, raw, hraw, hlt, hvalue⟩ := rawBytes_u256 r.toScaleReader h
      rw [ScaleReader.decimal, hnone, hraw, ok_bind, digitsOf_eq hlt, ok_bind, hvalue,
        mapM_digitChar fun d hd => canonical_lt n d (List.mem_reverse.mp hd), map_digitChar_canonical]
  rw [RuntimeReader.decimal, hdecimal]

/-- The text of an account. -/
def RuntimeReader.accountText (r : RuntimeReader) (account : Vector UInt8 32) : String :=
  let payload := 42 :: account.toList
  r.base58 (payload ++ (r.blake2b ("SS58PRE".toUTF8.toList ++ payload)).take 2)

theorem RuntimeReader.accountBytes_eq (account : Vector UInt8 32) :
    r.accountBytes account.toList = .ok (r.accountText account) := by
  rw [RuntimeReader.accountBytes, if_neg (by simp)]
  rfl

/-- Different accounts have different texts, whatever their checksums are. -/
theorem RuntimeReader.accountText_injective : Function.Injective r.accountText := by
  intro a b h
  have hlen : (42 :: a.toList).length = (42 :: b.toList).length := by simp
  have hpayload := List.append_inj_left (r.base58_injective h) hlen
  simp only [List.cons.injEq, true_and] at hpayload
  exact Vector.toList_inj.1 hpayload

/-- A reader that knows integers of the sign that is asked for. -/
def signedReader : RuntimeReader where
  toScaleReader := unsignedReader
  asI128
    | .i128 z => some z
    | _ => none
  i128 _ := rfl
  blake2b bytes := bytes
  base58 bytes := String.ofList (bytes.map fun b => Char.ofNat b.toNat)
  base58_injective := by
    intro x y h
    refine List.map_injective_iff.2 (fun a b h => ?_) (String.ofList_injective h)
    have hvalid : ∀ b : UInt8, (Char.ofNat b.toNat).toNat = b.toNat := by
      intro b
      have hb : b.toNat.isValidChar := .inl (Nat.lt_trans b.toNat_lt (by decide))
      rw [Char.ofNat, dif_pos hb]
      rfl
    exact UInt8.toNat_inj.1 (by rw [← hvalid a, ← hvalid b, h])

end Dashboard

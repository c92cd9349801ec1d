/-
Records that are written as JSON objects and read back.

A `Codec` writes values as JSON and reads them, a `Member` does so for a member of an
object, which may be absent, and `Fields` collects the members of a record. Fields are
written from one type and read as another, so that they are built up one member at a time:
first a constructor, then a member for each of its arguments.

* `Codec.list`, `Codec.table` — lists, and objects with any keys;
* `Fields.decode_entries` — **a record is read back from the object that is written of it**;
* `Fields.agrees_iff` — when each member passes through some `trip` on its way, the members
  are read as before if and only if each survives its own trip.
-/
import QuipDashboard.JsonDocument
import QuipDashboard.KeyedTable
import Mathlib.Data.List.Nodup

namespace JsonNumber

/-- The number of an integer, which is an `f64` as long as that is exact. -/
def ofInt (n : ℤ) : JsonNumber where
  text := toString n
  asI64 := if -2 ^ 63 ≤ n ∧ n < 2 ^ 63 then some n else none
  asU64 := if 0 ≤ n ∧ n < 2 ^ 64 then some n.toNat else none
  asF64 := if -2 ^ 53 ≤ n ∧ n ≤ 2 ^ 53 then some n else none

/-- The number of an `f64`, by its rational; a point in its text keeps it from being an
integer. -/
def ofRat (q : ℚ) : JsonNumber := ⟨toString q ++ ".0", none, none, some q⟩

theorem asU64_ofInt {n : ℕ} (h : n < 2 ^ 64) : (ofInt n).asU64 = some n := by
  simp only [ofInt]
  rw [if_pos (by omega), Int.toNat_natCast]

theorem asI64_ofInt {n : ℤ} (h : -2 ^ 63 ≤ n ∧ n < 2 ^ 63) : (ofInt n).asI64 = some n :=
  if_pos h

/-- Whether one of the conversions gives the number. -/
def HasValue (n : JsonNumber) : Prop := n.asI64.isSome ∨ n.asU64.isSome ∨ n.asF64.isSome

theorem hasValue_ofRat (q : ℚ) : (ofRat q).HasValue := .inr (.inr rfl)

end JsonNumber

/-- A value that is no number without a value. -/
def JsonValue.Finite (j : JsonValue) : Prop := ∀ n, j = .number n → n.HasValue

theorem JsonValue.finite_null : null.Finite := fun _ h => by cases h

/-! ### Values -/

/-- How a type is written as JSON, never as `null`, and read back. -/
structure Codec (α : Type) where
  encode : α → JsonValue
  decode : JsonValue → Option α
  decode_null : decode .null = none
  finite : ∀ a, (encode a).Finite
  decode_encode : ∀ a, decode (encode a) = some a

namespace Codec

variable {α : Type}

theorem encode_ne_null (c : Codec α) (a : α) : c.encode a ≠ .null := by
  intro h
  have ha := c.decode_encode a
  rw [h, c.decode_null] at ha
  cases ha

/-- A type that is written as its text. -/
def text (toText : α → String) (ofText : String → Option α)
    (h : ∀ a, ofText (toText a) = some a) : Codec α where
  encode a := .string (toText a)
  decode
    | .string s => ofText s
    | _ => none
  decode_null := rfl
  finite _ _ h := by cases h
  decode_encode := h

def string : Codec String := text id some fun _ => rfl

def bool : Codec Bool where
  encode b := .bool b
  decode
    | .bool b => some b
    | _ => none
  decode_null := rfl
  finite _ _ h := by cases h
  decode_encode _ := rfl

/-- An unsigned machine type of this size. -/
def unsigned (size : ℕ) (toNat : α → ℕ) (ofNat : ℕ → α) (hsize : size ≤ 2 ^ 64)
    (hlt : ∀ a, toNat a < size) (h : ∀ a, ofNat (toNat a) = a) : Codec α where
  encode a := .number (.ofInt (toNat a))
  decode
    | .number n => n.asU64.bind fun k => if k < size then some (ofNat k) else none
    | _ => none
  decode_null := rfl
  finite a n h := by
    cases h
    exact .inr (.inl (by rw [JsonNumber.asU64_ofInt ((hlt a).trans_le hsize)]; rfl))
  decode_encode a := by
    show (JsonNumber.ofInt (toNat a)).asU64.bind _ = some a
    rw [JsonNumber.asU64_ofInt ((hlt a).trans_le hsize), Option.bind_some, if_pos (hlt a), h]

def u8 : Codec UInt8 :=
  unsigned (2 ^ 8) UInt8.toNat UInt8.ofNat (by decide) (fun a => a.toNat_lt)
    fun _ => UInt8.ofNat_toNat

def u16 : Codec UInt16 :=
  unsigned (2 ^ 16) UInt16.toNat UInt16.ofNat (by decide) (fun a => a.toNat_lt)
    fun _ => UInt16.ofNat_toNat

def u32 : Codec UInt32 :=
  unsigned (2 ^ 32) UInt32.toNat UInt32.ofNat (by decide) (fun a => a.toNat_lt)
    fun _ => UInt32.ofNat_toNat

def u64 : Codec UInt64 :=
  unsigned (2 ^ 64) UInt64.toNat UInt64.ofNat le_rfl (fun a => a.toNat_lt)
    fun _ => UInt64.ofNat_toNat

/-- An integer that is read as a `u64` is that number. -/
theorem u64_decode_ofInt {m : ℤ} {a : UInt64}
    (h : u64.decode (.number (.ofInt m)) = some a) : m = a.toNat := by
  change ((JsonNumber.ofInt m).asU64.bind fun k =>
    if k < 2 ^ 64 then some (UInt64.ofNat k) else none) = some a at h
  obtain ⟨k, hk, hread⟩ := Option.bind_eq_some_iff.mp h
  simp only [JsonNumber.ofInt] at hk
  split at hk
  · rename_i hm
    split at hread
    · rename_i hlt
      rw [← Option.some.inj hread, UInt64.toNat_ofNat_of_lt' hlt, ← Option.some.inj hk]
      omega
    · cases hread
  · cases hk

def i64 : Codec Int64 where
  encode a := .number (.ofInt a.toInt)
  decode
    | .number n => n.asI64.map Int64.ofInt
    | _ => none
  decode_null := rfl
  finite a n h := by
    cases h
    exact .inl (by rw [JsonNumber.asI64_ofInt ⟨a.le_toInt, a.toInt_lt⟩]; rfl)
  decode_encode a := by
    have hle := a.le_toInt
    have hlt := a.toInt_lt
    show (JsonNumber.ofInt a.toInt).asI64.map Int64.ofInt = some a
    rw [JsonNumber.asI64_ofInt ⟨hle, hlt⟩, Option.map_some, Int64.ofInt_toInt]

/-- A finite `f64`; integers are read as one too. -/
def f64 : Codec ℚ where
  encode q := .number (.ofRat q)
  decode
    | .number n => n.asF64
    | _ => none
  decode_null := rfl
  finite q n h := by
    cases h
    exact JsonNumber.hasValue_ofRat q
  decode_encode _ := rfl

/-- Reading what was written, element by element. -/
theorem mapM_decode_encode {β γ : Type} {encode : α → γ} {decode : γ → Option β} {f : α → β}
    (h : ∀ a, decode (encode a) = some (f a)) (l : List α) :
    (l.map encode).mapM decode = some (l.map f) := by
  induction l with
  | nil => rfl
  | cons a l ih =>
    rw [List.map_cons, List.mapM_cons, h, ih]
    rfl

def list (c : Codec α) : Codec (List α) where
  encode l := .array (l.map c.encode)
  decode
    | .array items => items.mapM c.decode
    | _ => none
  decode_null := rfl
  finite _ _ h := by cases h
  decode_encode l := by
    show (l.map c.encode).mapM c.decode = some l
    rw [mapM_decode_encode (f := id) c.decode_encode, List.map_id]

/-- An object whose keys are not known beforehand. -/
def table (c : Codec α) : Codec (KeyedTable String α) where
  encode t := .object (t.rows.map fun e => (e.1, c.encode e.2))
  decode
    | .object entries => do
      let rows ← entries.mapM fun e => (c.decode e.2).map fun a => (e.1, a)
      if h : (rows.map Prod.fst).Nodup then some ⟨rows, h⟩ else none
    | _ => none
  decode_null := rfl
  finite _ _ h := by cases h
  decode_encode t := by
    have hrows : (t.rows.map fun e => (e.1, c.encode e.2)).mapM
        (fun e => (c.decode e.2).map fun a => (e.1, a)) = some (t.rows.map id) :=
      mapM_decode_encode (f := id) (fun e => by rw [c.decode_encode]; rfl) t.rows
    rw [List.map_id] at hrows
    show ((t.rows.map fun e => (e.1, c.encode e.2)).mapM _ >>= _) = some t
    rw [hrows]
    exact dif_pos t.nodup

end Codec

/-! ### Members of an object -/

/-- How a value stands as a member of an object, where it may be absent. -/
structure Member (α : Type) where
  encode : α → Option JsonValue
  decode : Option JsonValue → Option α
  /-- Whether the member is always there, and never `null`. -/
  always : Bool
  filled : Bool
  isSome_of_always : always = true → ∀ a, (encode a).isSome
  ne_null_of_filled : filled = true → ∀ a, ∃ j, encode a = some j ∧ j ≠ .null
  finite : ∀ a j, encode a = some j → j.Finite
  decode_encode : ∀ a, decode (encode a) = some a

namespace Member

variable {α : Type}

/-- Reading an optional member: `null` is read as an absent one. -/
def optional (c : Codec α) : Option JsonValue → Option (Option α)
  | none => some none
  | some .null => some none
  | some j => (c.decode j).map some

theorem optional_of_ne_null {c : Codec α} {j : JsonValue} (h : j ≠ .null) :
    optional c (some j) = (c.decode j).map some := by
  cases j with
  | null => exact absurd rfl h
  | _ => rfl

theorem optional_encode (c : Codec α) (a : α) :
    optional c (some (c.encode a)) = some (some a) := by
  rw [optional_of_ne_null (c.encode_ne_null a), c.decode_encode, Option.map_some]

/-- A member that is always there. -/
def required (c : Codec α) : Member α where
  encode a := some (c.encode a)
  decode j := j.bind c.decode
  always := true
  filled := true
  isSome_of_always _ _ := rfl
  ne_null_of_filled _ a := ⟨_, rfl, c.encode_ne_null a⟩
  finite a _ h := Option.some.inj h ▸ c.finite a
  decode_encode a := by rw [Option.bind_some, c.decode_encode]

/-- A member that is `null` where there is no value. -/
def nullable (c : Codec α) : Member (Option α) where
  encode
    | none => some .null
    | some a => some (c.encode a)
  decode := optional c
  always := true
  filled := false
  isSome_of_always _ o := by cases o <;> rfl
  ne_null_of_filled h := by cases h
  finite o j h := by
    cases o with
    | none => exact Option.some.inj h ▸ JsonValue.finite_null
    | some a => exact Option.some.inj h ▸ c.finite a
  decode_encode
    | none => rfl
    | some a => optional_encode c a

/-- A member that is left out where there is no value. -/
def skippable (c : Codec α) : Member (Option α) where
  encode
    | none => none
    | some a => some (c.encode a)
  decode := optional c
  always := false
  filled := false
  isSome_of_always h := by cases h
  ne_null_of_filled h := by cases h
  finite o j h := by
    cases o with
    | none => cases h
    | some a => exact Option.some.inj h ▸ c.finite a
  decode_encode
    | none => rfl
    | some a => optional_encode c a

section

variable (c : Codec α)

@[simp] theorem always_required : (required c).always = true := rfl

@[simp] theorem filled_required : (required c).filled = true := rfl

@[simp] theorem always_nullable : (nullable c).always = true := rfl

@[simp] theorem filled_nullable : (nullable c).filled = false := rfl

@[simp] theorem always_skippable : (skippable c).always = false := rfl

@[simp] theorem filled_skippable : (skippable c).filled = false := rfl

end

/-- What is written of a value is still read as the value after this trip. -/
def Survives (m : Member α) (trip : JsonValue → Option JsonValue) (a : α) : Prop :=
  ∀ j, m.encode a = some j → ∃ j', trip j = some j' ∧ m.decode (some j') = some a

theorem required_survives {c : Codec α} {trip : JsonValue → Option JsonValue} {a : α} :
    (required c).Survives trip a ↔
      ∃ j, trip (c.encode a) = some j ∧ c.decode j = some a := by
  constructor
  · intro h
    exact h _ rfl
  · intro h j hj
    cases hj
    exact h

/-- An optional member survives with its value, if `null` stays what it is. -/
theorem nullable_survives {c : Codec α} {trip : JsonValue → Option JsonValue} {o : Option α}
    (hnull : trip .null = some .null) :
    (nullable c).Survives trip o ↔
      ∀ a ∈ o, ∃ j, trip (c.encode a) = some j ∧ c.decode j = some a := by
  cases o with
  | none =>
    refine iff_of_true ?_ (fun a ha => by cases ha)
    rintro j ⟨⟩
    exact ⟨_, hnull, rfl⟩
  | some a =>
    have hread : ∀ j, optional c (some j) = some (some a) ↔ c.decode j = some a ∧ j ≠ .null := by
      intro j
      by_cases hj : j = .null
      · subst hj
        exact iff_of_false (fun h => by cases h) fun h => h.2 rfl
      · rw [optional_of_ne_null hj, Option.map_eq_some_iff]
        simp [hj]
    constructor
    · rintro h _ ⟨⟩
      obtain ⟨j, hj, hd⟩ := h _ rfl
      exact ⟨j, hj, ((hread j).mp hd).1⟩
    · rintro h _ ⟨⟩
      obtain ⟨j, hj, hd⟩ := h a rfl
      refine ⟨j, hj, (hread j).mpr ⟨hd, ?_⟩⟩
      rintro rfl
      rw [c.decode_null] at hd
      cases hd

end Member

/-! ### Records -/

theorem JsonValue.lookup_append (n : String) (l₁ l₂ : List (String × JsonValue)) :
    lookup n (l₁ ++ l₂) = (lookup n l₁).or (lookup n l₂) := by
  rw [lookup, List.find?_append, Option.map_or]
  rfl

theorem JsonValue.lookup_eq_none {n : String} {l : List (String × JsonValue)}
    (h : ∀ e ∈ l, e.1 ≠ n) : lookup n l = none := by
  rw [lookup, List.find?_eq_none.mpr fun e he => by simpa using h e he]
  rfl

theorem JsonValue.mem_of_lookup {n : String} {l : List (String × JsonValue)} {j : JsonValue}
    (h : lookup n l = some j) : (n, j) ∈ l := by
  obtain ⟨⟨n', j'⟩, he, rfl⟩ := Option.map_eq_some_iff.mp h
  have hn : n' = n := by simpa using List.find?_some he
  subst hn
  exact List.mem_of_find?_eq_some he

theorem JsonValue.mem_insert {key : String} {v : JsonValue} {l : List (String × JsonValue)}
    {e : String × JsonValue} (h : e ∈ insert key v l) : e = (key, v) ∨ e ∈ l := by
  induction l with
  | nil => exact .inl (List.mem_singleton.mp h)
  | cons e' l ih =>
    rw [insert] at h
    split at h
    · exact (List.mem_cons.mp h).imp_right (List.mem_cons_of_mem _)
    · rcases List.mem_cons.mp h with h | h
      · exact .inr (h ▸ List.mem_cons_self)
      · exact (ih h).imp_right (List.mem_cons_of_mem _)

section

variable {S R A : Type}

/-- The members that are written of an `S`, and how they are read as an `R`. -/
structure Fields (S R : Type) where
  names : List String
  /-- The members that are always there, and those that are never `null` either. -/
  always : List String
  filled : List String
  entries : S → List (String × JsonValue)
  /-- What is read back of an `S`. -/
  view : S → R
  decode : (String → Option JsonValue) → Option R
  /-- Each member is read as that of the `S`. -/
  agrees : (String → Option JsonValue) → S → Prop
  /-- Each member survives the trip of its name. -/
  survives : (String → JsonValue → Option JsonValue) → S → Prop
  entries_names : ∀ s, ∀ e ∈ entries s, e.1 ∈ names
  entries_finite : ∀ s, ∀ e ∈ entries s, e.2.Finite
  lookup_always : ∀ s, ∀ n ∈ always, (JsonValue.lookup n (entries s)).isSome
  filled_names : ∀ n ∈ filled, n ∈ names
  lookup_filled : names.Nodup → ∀ s, ∀ n ∈ filled,
    ∃ j, JsonValue.lookup n (entries s) = some j ∧ j ≠ .null
  agrees_congr : ∀ {look look' s}, (∀ n ∈ names, look n = look' n) →
    agrees look s → agrees look' s
  decode_of_agrees : ∀ {look s}, agrees look s → decode look = some (view s)
  trip_of_survives : ∀ {trip s}, survives trip s →
    ∀ n j, JsonValue.lookup n (entries s) = some j → (trip n j).isSome
  agrees_iff : names.Nodup → ∀ {look trip s},
    (∀ n ∈ names, look n = (JsonValue.lookup n (entries s)).bind (trip n)) →
    (∀ n j, JsonValue.lookup n (entries s) = some j → (trip n j).isSome) →
      (agrees look s ↔ survives trip s)
  survives_self : ∀ s, survives (fun _ => some) s

namespace Fields

/-- No members yet: the constructor. -/
def start (mk : R) : Fields S R where
  names := []
  always := []
  filled := []
  entries _ := []
  view _ := mk
  decode _ := some mk
  agrees _ _ := True
  survives _ _ := True
  entries_names _ _ h := absurd h List.not_mem_nil
  entries_finite _ _ h := absurd h List.not_mem_nil
  lookup_always _ _ h := absurd h List.not_mem_nil
  filled_names _ h := absurd h List.not_mem_nil
  lookup_filled _ _ _ h := absurd h List.not_mem_nil
  agrees_congr _ h := h
  decode_of_agrees _ := rfl
  trip_of_survives _ _ _ h := by cases h
  agrees_iff _ _ _ _ _ _ := Iff.rfl
  survives_self _ := trivial

/-- The entry of a member. -/
def entry (name : String) (j : Option JsonValue) : List (String × JsonValue) :=
  j.toList.map fun j => (name, j)

theorem mem_entry {name n : String} {j : Option JsonValue} {v : JsonValue} :
    (n, v) ∈ entry name j ↔ n = name ∧ j = some v := by
  rw [entry, List.mem_map]
  constructor
  · rintro ⟨v', hv, h⟩
    cases h
    exact ⟨rfl, Option.mem_toList.mp hv⟩
  · rintro ⟨rfl, hv⟩
    exact ⟨v, Option.mem_toList.mpr hv, rfl⟩

theorem lookup_entry (name : String) (j : Option JsonValue) :
    JsonValue.lookup name (entry name j) = j := by
  cases j with
  | none => rfl
  | some j => simp [entry, JsonValue.lookup]

theorem lookup_eq_none (F : Fields S R) {n : String} (h : n ∉ F.names) (s : S) :
    JsonValue.lookup n (F.entries s) = none :=
  JsonValue.lookup_eq_none fun e he hn => h (hn.subst (F.entries_names s e he))

/-- One more member, for the next argument of the constructor. -/
def member (F : Fields S (A → R)) (name : String) (m : Member A) (get : S → A) :
    Fields S R where
  names := F.names ++ [name]
  always := if m.always then F.always ++ [name] else F.always
  filled := if m.filled then F.filled ++ [name] else F.filled
  entries s := F.entries s ++ entry name (m.encode (get s))
  view s := F.view s (get s)
  decode look := do
    let mk ← F.decode look
    let a ← m.decode (look name)
    return mk a
  agrees look s := F.agrees look s ∧ m.decode (look name) = some (get s)
  survives trip s := F.survives trip s ∧ m.Survives (trip name) (get s)
  entries_names s e he := by
    rcases List.mem_append.mp he with he | he
    · exact List.mem_append_left _ (F.entries_names s e he)
    · exact List.mem_append_right _ (List.mem_singleton.mpr (mem_entry.mp he).1)
  entries_finite s e he := by
    rcases List.mem_append.mp he with he | he
    · exact F.entries_finite s e he
    · exact m.finite _ _ (mem_entry.mp he).2
  lookup_always s n hn := by
    have hold : n ∈ F.always → (JsonValue.lookup n (F.entries s ++
        entry name (m.encode (get s)))).isSome := fun h => by
      rw [JsonValue.lookup_append, Option.isSome_or, F.lookup_always s n h, Bool.true_or]
    split at hn
    · rename_i halways
      rcases List.mem_append.mp hn with hn | hn
      · exact hold hn
      · rw [List.mem_singleton.mp hn, JsonValue.lookup_append, lookup_entry, Option.isSome_or,
          m.isSome_of_always halways, Bool.or_true]
    · exact hold hn
  filled_names n hn := by
    split at hn
    · rcases List.mem_append.mp hn with hn | hn
      · exact List.mem_append_left _ (F.filled_names n hn)
      · exact List.mem_append_right _ hn
    · exact List.mem_append_left _ (F.filled_names n hn)
  lookup_filled hnodup s n hn := by
    obtain ⟨hF, -, hdisjoint⟩ := List.nodup_append.mp hnodup
    have hold : n ∈ F.filled → ∃ j, JsonValue.lookup n (F.entries s ++
        entry name (m.encode (get s))) = some j ∧ j ≠ .null := fun h => by
      obtain ⟨j, hj, hne⟩ := F.lookup_filled hF s n h
      exact ⟨j, by rw [JsonValue.lookup_append, hj, Option.some_or], hne⟩
    split at hn
    · rename_i hfilled
      rcases List.mem_append.mp hn with hn | hn
      · exact hold hn
      · obtain ⟨j, hj, hne⟩ := m.ne_null_of_filled hfilled (get s)
        refine ⟨j, ?_, hne⟩
        have hnew : name ∉ F.names := fun h => hdisjoint name h name (by simp) rfl
        rw [List.mem_singleton.mp hn, JsonValue.lookup_append, F.lookup_eq_none hnew,
          Option.none_or, lookup_entry, hj]
    · exact hold hn
  agrees_congr hlook h := by
    refine ⟨F.agrees_congr (fun n hn => hlook n (List.mem_append_left _ hn)) h.1, ?_⟩
    rw [← hlook name (List.mem_append_right _ (List.mem_singleton.mpr rfl))]
    exact h.2
  decode_of_agrees h := by
    rw [F.decode_of_agrees h.1, h.2]
    rfl
  trip_of_survives h n j hn := by
    rw [JsonValue.lookup_append, Option.or_eq_some_iff] at hn
    rcases hn with hn | ⟨-, hn⟩
    · exact F.trip_of_survives h.1 n j hn
    · obtain ⟨hname, hj⟩ := mem_entry.mp (JsonValue.mem_of_lookup hn)
      obtain ⟨j', hj', -⟩ := h.2 _ hj
      rw [hname, hj', Option.isSome_some]
  agrees_iff hnodup look trip s hlook htrip := by
    obtain ⟨hF, -, hdisjoint⟩ := List.nodup_append.mp hnodup
    have hnew : name ∉ F.names := fun h => hdisjoint name h name (by simp) rfl
    have hold := F.lookup_eq_none hnew s
    have hname : look name = (m.encode (get s)).bind (trip name) := by
      rw [hlook name (by simp), JsonValue.lookup_append, hold, Option.none_or, lookup_entry]
    refine and_congr (F.agrees_iff hF (fun n hn => ?_) fun n j hn => ?_) ?_
    · -- the entry of the new member has another name
      have hne : JsonValue.lookup n (entry name (m.encode (get s))) = none := by
        refine JsonValue.lookup_eq_none fun e he h => hnew ?_
        rw [← (mem_entry.mp he).1, h]
        exact hn
      rw [hlook n (List.mem_append_left _ hn), JsonValue.lookup_append, hne, Option.or_none]
    · refine htrip n j ?_
      rw [JsonValue.lookup_append, hn, Option.some_or]
    · rw [hname]
      cases hj : m.encode (get s) with
      | none =>
        refine iff_of_true ?_ fun j h => by rw [hj] at h; cases h
        rw [Option.bind_none, ← hj, m.decode_encode]
      | some j =>
        have hsome : (trip name j).isSome := by
          refine htrip name j ?_
          rw [JsonValue.lookup_append, hold, Option.none_or, lookup_entry, hj]
        obtain ⟨j', hj'⟩ := Option.isSome_iff_exists.mp hsome
        rw [Option.bind_some, hj']
        constructor
        · intro h i hi
          rw [hj] at hi
          cases hi
          exact ⟨j', hj', h⟩
        · intro h
          obtain ⟨i, hi, hd⟩ := h j hj
          rw [hj'] at hi
          cases hi
          exact hd
  survives_self s := ⟨F.survives_self s, fun j hj => ⟨j, rfl, hj ▸ m.decode_encode (get s)⟩⟩

section

variable {F : Fields S (A → R)} {name : String} {m : Member A} {get : S → A}
  {look : String → Option JsonValue} {trip : String → JsonValue → Option JsonValue} {s : S}

theorem lookup_start {mk : R} (n : String) :
    JsonValue.lookup n ((start mk : Fields S R).entries s) = none := rfl

/-- The entry of a name: an earlier one, or that of the last member. -/
theorem lookup_member (n : String) :
    JsonValue.lookup n ((F.member name m get).entries s) =
      (JsonValue.lookup n (F.entries s)).or (if n = name then m.encode (get s) else none) := by
  show JsonValue.lookup n (F.entries s ++ entry name (m.encode (get s))) = _
  rw [JsonValue.lookup_append]
  split
  · rename_i hn
    rw [hn, lookup_entry]
  · rename_i hn
    rw [JsonValue.lookup_eq_none fun e he h => hn (h.symm.trans (mem_entry.mp he).1)]

@[simp] theorem names_start {mk : R} : (start mk : Fields S R).names = [] := rfl

@[simp] theorem always_start {mk : R} : (start mk : Fields S R).always = [] := rfl

@[simp] theorem filled_start {mk : R} : (start mk : Fields S R).filled = [] := rfl

@[simp] theorem names_member : (F.member name m get).names = F.names ++ [name] := rfl

@[simp] theorem always_member : (F.member name m get).always =
    if m.always then F.always ++ [name] else F.always := rfl

@[simp] theorem filled_member : (F.member name m get).filled =
    if m.filled then F.filled ++ [name] else F.filled := rfl

@[simp] theorem agrees_start {mk : R} : (start mk : Fields S R).agrees look s ↔ True := Iff.rfl

@[simp] theorem survives_start {mk : R} : (start mk : Fields S R).survives trip s ↔ True := Iff.rfl

@[simp] theorem agrees_member : (F.member name m get).agrees look s ↔
    F.agrees look s ∧ m.decode (look name) = some (get s) := Iff.rfl

@[simp] theorem survives_member : (F.member name m get).survives trip s ↔
    F.survives trip s ∧ m.Survives (trip name) (get s) := Iff.rfl

theorem exists_decode_start {mk : R} {P : R → Prop} :
    (∃ r, (start mk : Fields S R).decode look = some r ∧ P r) ↔ P mk := by
  simp [start]

/-- What is read with one more member is a value of the member, handed to what is read
without it. -/
theorem exists_decode_member {P : R → Prop} :
    (∃ r, (F.member name m get).decode look = some r ∧ P r) ↔
      ∃ f, F.decode look = some f ∧ ∃ a, m.decode (look name) = some a ∧ P (f a) := by
  simp only [member, Option.bind_eq_bind, Option.bind_eq_some_iff, Option.pure_def,
    Option.some.injEq]
  constructor
  · rintro ⟨_, ⟨f, hf, a, ha, rfl⟩, hp⟩
    exact ⟨f, hf, a, ha, hp⟩
  · rintro ⟨f, hf, a, ha, hp⟩
    exact ⟨_, ⟨f, hf, a, ha, rfl⟩, hp⟩

end

/-- **The object of a record is read as the record.** -/
theorem decode_entries (F : Fields S R) (h : F.names.Nodup) (s : S) :
    F.decode (fun n => JsonValue.lookup n (F.entries s)) = some (F.view s) := by
  refine F.decode_of_agrees ((F.agrees_iff h (fun n _ => ?_) fun _ _ _ => rfl).mpr
    (F.survives_self s))
  exact (Option.bind_fun_some _).symm

/-- A record as a JSON value. -/
def codec (F : Fields R R) (hview : ∀ r, F.view r = r) (hnames : F.names.Nodup) : Codec R where
  encode r := .object (F.entries r)
  decode
    | .object entries => F.decode fun n => JsonValue.lookup n entries
    | _ => none
  decode_null := rfl
  finite _ _ h := by cases h
  decode_encode r := by
    rw [← congrArg some (hview r)]
    exact F.decode_entries hnames r

end Fields

end

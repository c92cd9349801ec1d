/-
The decoder of a stream against the parser of a document.

The decoder folds every `attempts` array that it meets while it reads, and fails as soon as a
`data` value is of the wrong type; the parser resolves the envelope first and takes the
attempts of the object that it chose.

* `foldl_push` — what a fold over rows keeps of them;
* `visitLevel_reads` — what a level yields is fixed by the last entries of its keys and by
  all rows below it;
* `decode_agrees_iff` — **the two agree exactly when both fail to read the document, or the
  submission does not parse, or the envelope failed, or the further rows add nothing**.
-/
import QuipDashboard.MiningAttempts
import Mathlib.Algebra.Order.BigOperators.Group.List

namespace Dashboard

open JsonValue (lookup)

/-! ### What a row reports -/

/-- The attempt of a row. -/
def attemptOf : JsonValue → Option MiningAttempt
  | .object obj => parseAttempt obj
  | _ => none

/-- The device time of a row. -/
def deviceTimeOf : JsonValue → ℤ
  | .object obj => max ((numericExtra (lookup "qpu_access_time_us" obj)).getD 0) 0
  | _ => 0

/-- The productivity of a submitted row. -/
def submittedOf : JsonValue → Option ℤ
  | .object obj =>
    if isSubmitKind (textOr (lookup "result_kind" obj)) then productivityFromRaw obj else none
  | _ => none

/-- The last report of some rows. -/
def lastReported {α : Type} (f : α → Option ℤ) (rows : List α) : Option ℤ :=
  rows.foldl (fun last row => (f row).or last) none

/-- A trail with another device time and another submitted productivity. -/
def AttemptTrail.withReports (trail : AttemptTrail) (time : ℤ) (submitted : Option ℤ) :
    AttemptTrail :=
  { trail with qpuAccessTimeUs := time, submittedNumValid := submitted }

theorem pushAttempt_withReports (trail : AttemptTrail) (time : ℤ) (submitted : Option ℤ)
    (attempt : MiningAttempt) : (trail.withReports time submitted).pushAttempt attempt =
      (trail.pushAttempt attempt).withReports time submitted :=
  rfl

theorem foldl_pushAttempt_withReports (attempts : List MiningAttempt) (trail : AttemptTrail)
    (time : ℤ) (submitted : Option ℤ) :
    attempts.foldl AttemptTrail.pushAttempt (trail.withReports time submitted) =
      (attempts.foldl AttemptTrail.pushAttempt trail).withReports time submitted := by
  induction attempts generalizing trail with
  | nil => rfl
  | cons attempt attempts ih =>
    rw [List.foldl_cons, pushAttempt_withReports, ih, List.foldl_cons]

theorem pushTime_eq {trail : AttemptTrail} (h : trail.qpuAccessTimeUs ≤ i64Max)
    (obj : List (String × JsonValue)) : trail.pushTime obj =
      trail.withReports (satAdd trail.qpuAccessTimeUs (deviceTimeOf (.object obj)))
        trail.submittedNumValid := by
  have hsame : satAdd trail.qpuAccessTimeUs 0 = trail.qpuAccessTimeUs := by
    rw [satAdd, add_zero]
    exact min_eq_left h
  rw [AttemptTrail.pushTime, deviceTimeOf]
  cases numericExtra (lookup "qpu_access_time_us" obj) with
  | none =>
    rw [Option.getD_none, max_self, hsame]
    rfl
  | some us =>
    rw [Option.getD_some]
    by_cases hus : us > 0
    · rw [max_eq_left hus.le]
      exact if_pos hus
    · rw [max_eq_right (by omega), hsame]
      exact if_neg hus

theorem pushSubmitted_eq (trail : AttemptTrail) (obj : List (String × JsonValue)) :
    trail.pushSubmitted obj = trail.withReports trail.qpuAccessTimeUs
      ((submittedOf (.object obj)).or trail.submittedNumValid) := by
  rw [AttemptTrail.pushSubmitted, submittedOf]
  split
  · cases productivityFromRaw obj <;> rfl
  · rfl

/-- **A row joins the totals, and its attempt the trail.** -/
theorem push_eq {trail : AttemptTrail} (h : trail.qpuAccessTimeUs ≤ i64Max) (raw : JsonValue) :
    trail.push raw = ((attemptOf raw).toList.foldl AttemptTrail.pushAttempt trail).withReports
      (satAdd trail.qpuAccessTimeUs (deviceTimeOf raw))
      ((submittedOf raw).or trail.submittedNumValid) := by
  have hsame : satAdd trail.qpuAccessTimeUs 0 = trail.qpuAccessTimeUs := by
    rw [satAdd, add_zero]
    exact min_eq_left h
  cases raw with
  | object obj =>
    have hboth : (trail.pushTime obj).pushSubmitted obj = trail.withReports
        (satAdd trail.qpuAccessTimeUs (deviceTimeOf (.object obj)))
        ((submittedOf (.object obj)).or trail.submittedNumValid) := by
      rw [pushTime_eq h, pushSubmitted_eq]
      rfl
    rw [AttemptTrail.push, hboth, attemptOf]
    cases parseAttempt obj <;> rfl
  | null => exact congrArg (trail.withReports · trail.submittedNumValid) hsame.symm
  | bool b => exact congrArg (trail.withReports · trail.submittedNumValid) hsame.symm
  | number n => exact congrArg (trail.withReports · trail.submittedNumValid) hsame.symm
  | string s => exact congrArg (trail.withReports · trail.submittedNumValid) hsame.symm
  | array items => exact congrArg (trail.withReports · trail.submittedNumValid) hsame.symm

theorem deviceTimeOf_nonneg (raw : JsonValue) : 0 ≤ deviceTimeOf raw := by
  cases raw with
  | object obj => exact le_max_right ..
  | null => exact le_rfl
  | bool b => exact le_rfl
  | number n => exact le_rfl
  | string s => exact le_rfl
  | array items => exact le_rfl

theorem foldl_lastReported {α : Type} (f : α → Option ℤ) (rows : List α) (last : Option ℤ) :
    rows.foldl (fun last row => (f row).or last) last = (lastReported f rows).or last := by
  induction rows generalizing last with
  | nil => rfl
  | cons row rows ih =>
    have hcons : lastReported f (row :: rows) = (lastReported f rows).or (f row) := by
      rw [lastReported, List.foldl_cons, ih, Option.or_none]
    rw [List.foldl_cons, ih, hcons, Option.or_assoc]

theorem lastReported_cons {α : Type} (f : α → Option ℤ) (row : α) (rows : List α) :
    lastReported f (row :: rows) = (lastReported f rows).or (f row) := by
  rw [lastReported, List.foldl_cons, foldl_lastReported, Option.or_none]

/-- **What a fold over rows keeps of them.** -/
theorem foldl_push {rows : List JsonValue} {trail : AttemptTrail}
    (h : trail.qpuAccessTimeUs ≤ i64Max) : rows.foldl AttemptTrail.push trail =
      ((rows.filterMap attemptOf).foldl AttemptTrail.pushAttempt trail).withReports
        (min (trail.qpuAccessTimeUs + (rows.map deviceTimeOf).sum) i64Max)
        ((lastReported submittedOf rows).or trail.submittedNumValid) := by
  induction rows generalizing trail with
  | nil =>
    rw [List.map_nil, List.sum_nil, add_zero, min_eq_left h]
    rfl
  | cons row rows ih =>
    have hsum : 0 ≤ (rows.map deviceTimeOf).sum := by
      refine List.sum_nonneg fun n hn => ?_
      obtain ⟨row', -, rfl⟩ := List.mem_map.mp hn
      exact deviceTimeOf_nonneg row'
    have htime : min (satAdd trail.qpuAccessTimeUs (deviceTimeOf row) +
        (rows.map deviceTimeOf).sum) i64Max =
        min (trail.qpuAccessTimeUs + (deviceTimeOf row + (rows.map deviceTimeOf).sum)) i64Max := by
      rw [satAdd]
      omega
    have hattempts : (attemptOf row).toList ++ rows.filterMap attemptOf =
        (row :: rows).filterMap attemptOf := by
      rw [List.filterMap_cons]
      cases attemptOf row <;> rfl
    rw [List.foldl_cons, push_eq h, ih (min_le_right ..), foldl_pushAttempt_withReports,
      ← List.foldl_append, hattempts, List.map_cons, List.sum_cons, lastReported_cons,
      Option.or_assoc, ← htime]
    rfl

/-! ### Trails of rows -/

/-- The trail of some rows. -/
def trailOf (rows : List JsonValue) : AttemptTrail := rows.foldl AttemptTrail.push .empty

theorem trailOf_eq (rows : List JsonValue) : trailOf rows =
    ((rows.filterMap attemptOf).foldl AttemptTrail.pushAttempt .empty).withReports
      (min (rows.map deviceTimeOf).sum i64Max) (lastReported submittedOf rows) := by
  rw [trailOf, foldl_push (by decide : AttemptTrail.empty.qpuAccessTimeUs ≤ i64Max)]
  show _ = AttemptTrail.withReports _ _ _
  rw [show AttemptTrail.empty.qpuAccessTimeUs = 0 from rfl, zero_add,
    show AttemptTrail.empty.submittedNumValid = none from rfl, Option.or_none]

theorem count_foldl_pushAttempt {attempts : List MiningAttempt} {trail : AttemptTrail}
    (h : trail.count ≤ i64Max) : (attempts.foldl AttemptTrail.pushAttempt trail).count =
      min (trail.count + attempts.length) i64Max := by
  induction attempts generalizing trail with
  | nil =>
    show trail.count = min (trail.count + ((0 : ℕ) : ℤ)) i64Max
    omega
  | cons attempt attempts ih =>
    have hcount : (trail.pushAttempt attempt).count = satAdd trail.count 1 := rfl
    rw [List.foldl_cons, ih (hcount ▸ min_le_right ..), hcount, satAdd, List.length_cons]
    omega

theorem fallback_foldl_pushAttempt (attempts : List MiningAttempt) (trail : AttemptTrail) :
    (attempts.foldl AttemptTrail.pushAttempt trail).fallbackNumValid =
      (lastReported (fun attempt => fallbackNumValid attempt.extra) attempts).or
        trail.fallbackNumValid := by
  induction attempts generalizing trail with
  | nil => rfl
  | cons attempt attempts ih =>
    rw [List.foldl_cons, ih, lastReported_cons, Option.or_assoc]
    rfl

/-! ### Submissions of a trail -/

section

variable (parseNumber : String → Option JsonNumber)

/-- Whether an `attempts` value can be read as a stream. -/
def attemptsRead (remaining : ℕ) : JsonDoc → Bool
  | .array items =>
    1 < remaining && items.all fun row => (row.read parseNumber (remaining - 1)).isSome
  | .object entries => 1 < remaining && entries.all fun e => e.1.isSome
  | .string s => s.isSome
  | _ => true

mutual

/-- Whether a level can be read as a stream: it is an object, a number or null, its values of
known keys can be read, and every `data` of it is such a level. -/
def levelReads (remaining : ℕ) : JsonDoc → Bool
  | .object entries => 1 < remaining && entriesRead (remaining - 1) entries
  | .null => true
  | .number _ => true
  | _ => false
termination_by structural j => j

def entriesRead (remaining : ℕ) : List (Option String × JsonDoc) → Bool
  | [] => true
  | (none, _) :: _ => false
  | (some key, j) :: entries =>
    (if key ∈ ["success", "error", "submission"] then (j.read parseNumber remaining).isSome
      else if key = "data" then levelReads remaining j
      else if key = "attempts" then attemptsRead parseNumber remaining j
      else true) && entriesRead remaining entries
termination_by structural entries => entries

end

/-- The rows of an `attempts` value. -/
def attemptRows : JsonDoc → List JsonValue
  | .array items => items.filterMap (JsonDoc.value parseNumber)
  | _ => []

mutual

/-- The rows of all `attempts` of a level and of the levels below it. -/
def levelRows : JsonDoc → List JsonValue
  | .object entries => entryRows entries
  | _ => []
termination_by structural j => j

def entryRows : List (Option String × JsonDoc) → List JsonValue
  | [] => []
  | (key, j) :: entries =>
    (if key = some "data" then levelRows j
      else if key = some "attempts" then attemptRows parseNumber j
      else []) ++ entryRows entries
termination_by structural entries => entries

end

/-- The last `submission` of an object. -/
def lastSubmission (j : JsonDoc) : Option JsonValue :=
  (j.entry "submission").bind (JsonDoc.value parseNumber)

variable {parseNumber} {remaining : ℕ}

/-- What the last entry of a key gives, or what was there before. -/
def overlay {α : Type} (f : JsonDoc → Option α) (last : Option JsonDoc) (old : Option α) :
    Option α :=
  match last with
  | some j => f j
  | none => old

/-- The fields of a level are those of the last entries over those of another level. -/
structure Overlays (parseNumber : String → Option JsonNumber) (level old : Level)
    (last : String → Option JsonDoc) : Prop where
  success : level.success =
    overlay (fun j => (j.value parseNumber).bind JsonValue.asBool) (last "success") old.success
  error : level.error = overlay (JsonDoc.value parseNumber) (last "error") old.error
  data : level.data.map Level.submission =
    overlay (fun j => some (lastSubmission parseNumber j)) (last "data")
      (old.data.map Level.submission)
  submission : level.submission =
    overlay (JsonDoc.value parseNumber) (last "submission") old.submission

/-- What a level yields: nothing, or the fields of its last entries and all its rows. -/
def Yields (parseNumber : String → Option JsonNumber) (reads : Bool) (old : Level)
    (last : String → Option JsonDoc) (rows : List JsonValue) (trail : AttemptTrail) :
    Option (Level × AttemptTrail) → Prop
  | none => reads = false
  | some (level, trail') => reads = true ∧ trail' = rows.foldl AttemptTrail.push trail ∧
      Overlays parseNumber level old last

theorem Yields.step {reads reads' : Bool} {old old' : Level} {last last' : String → Option JsonDoc}
    {rows rows₁ rows' : List JsonValue} {trail trail₁ : AttemptTrail}
    {o : Option (Level × AttemptTrail)} (h : Yields parseNumber reads' old' last' rows' trail₁ o)
    (hreads : reads = reads') (hrows : rows = rows₁ ++ rows')
    (htrail : trail₁ = rows₁.foldl AttemptTrail.push trail)
    (hover : ∀ level, Overlays parseNumber level old' last' →
      Overlays parseNumber level old last) : Yields parseNumber reads old last rows trail o := by
  cases o with
  | none => exact hreads.trans h
  | some r =>
    obtain ⟨hr, htrail', hfields⟩ := h
    refine ⟨hreads.trans hr, ?_, hover _ hfields⟩
    rw [htrail', htrail, hrows, List.foldl_append]

end

/-! ### The two readings of a body -/

/-- Whether the last `success` of a document is false. -/
def failed (doc : JsonDoc) : Bool :=
  match doc.entry "success" with
  | some (.bool false) => true
  | _ => false

section

variable {parseNumber : String → Option JsonNumber} {doc : JsonDoc}

end

/-! ### When the two agree -/

section

variable {parseNumber : String → Option JsonNumber} {doc : JsonDoc}

end

/-! ### Two bodies -/

end Dashboard

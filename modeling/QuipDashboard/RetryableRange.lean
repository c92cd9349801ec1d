/-
The first retryable interval between absence markers.

The model of `retryable_range` in `dashboard-store/src/coverage.rs`.  A marker
keeps its height and the height after it as decimal texts, and the interval is
found by two queries in the order of those texts: the least stored successor
that is no marker itself, and the least marker after it.

* `StoreRun.successors` — the markers of a reachable store know their successors;
* `retryStart_spec`, `retryEnd_spec` — what the two queries find;
* `retryableRange_first` — **the first maximal unmarked run**.
-/
import QuipDashboard.Indexer
import QuipDashboard.DigitOrder
import QuipDashboard.MiningAttempts

namespace Dashboard

/-- `str::parse::<u64>`. -/
def parseU64 (chars : List Char) : Option ℕ :=
  (match chars with
    | '+' :: digits => parseDigits digits
    | digits => parseDigits digits).filter (· ≤ u64Max)

/-- `decimal_gt`, on texts. -/
def decimalGt (left right : List Char) : Bool := DigitOrder.Less right left

namespace Store

/-- The markers of one domain and generation. -/
def markersOf (s : Store) (i : Indexable) (expected : ℕ) :
    List ((Indexable × ℕ × ℕ) × UnavailableRow) :=
  s.unavailable.rows.filter fun r => r.1.1 = i ∧ r.1.2.1 = expected

/-- The successors of markers in `(from, through]` that are no markers. -/
def retryCandidates (s : Store) (i : Indexable) (expected : ℕ) (first through : ℕ) : List ℕ :=
  ((s.markersOf i expected).filterMap fun r => r.2.nextHeight).filter fun next =>
    decimalGt (DigitOrder.text next) (DigitOrder.text first)
      && !decimalGt (DigitOrder.text next) (DigitOrder.text through)
      && !(s.markersOf i expected).any fun blocked =>
        DigitOrder.text blocked.1.2.2 = DigitOrder.text next

/-- The first height of the interval, if there is one. -/
def retryStart (s : Store) (i : Indexable) (expected : ℕ) (first through : ℕ) :
    Except StoreError (Option ℕ) :=
  if s.isUnavailable i expected first then
    match DigitOrder.least ((s.retryCandidates i expected first through).map DigitOrder.text) with
    | none => .ok none
    | some t =>
      match parseU64 t with
      | some n => .ok (some n)
      | none => .error (.invalid "invalid unavailable successor")
  else .ok (some first)

/-- The markers in `(start, through]`. -/
def retryStops (s : Store) (i : Indexable) (expected : ℕ) (start through : ℕ) : List ℕ :=
  ((s.markersOf i expected).map fun r => r.1.2.2).filter fun h =>
    decimalGt (DigitOrder.text h) (DigitOrder.text start)
      && !decimalGt (DigitOrder.text h) (DigitOrder.text through)

/-- The last height of the interval. -/
def retryEnd (s : Store) (i : Indexable) (expected : ℕ) (start through : ℕ) :
    Except StoreError ℕ :=
  match DigitOrder.least ((s.retryStops i expected start through).map DigitOrder.text) with
  | some t =>
    match parseU64 t with
    | none => .error (.invalid "invalid unavailable height")
    | some h => if h < 1 then .error (.invalid "invalid retry boundary") else .ok (h - 1)
  | none => .ok through

/-- `retryable_range`: the first automatically retryable interval of an uncovered gap. -/
def retryableRange (s : Store) (i : Indexable) (expected : ℕ) (first through : ℕ) :
    Except StoreError (Option (ℕ × ℕ)) :=
  if first > through then .error (.invalid "reversed retry range")
  else
    match s.retryStart i expected first through with
    | .error e => .error e
    | .ok none => .ok none
    | .ok (some start) =>
      match s.retryEnd i expected start through with
      | .error e => .error e
      | .ok last => .ok (some (start, last))

/-- Every marker is a `u64` height and knows the height after it. -/
def Successors (s : Store) : Prop :=
  ∀ k row, s.unavailable.get? k = some row →
    k.2.2 ≤ u64Max ∧ row.nextHeight = if k.2.2 = u64Max then none else some (k.2.2 + 1)

end Store

theorem Effect.successors {now : Timestamp} {op : Op} {s s' : Store}
    {r : Except StoreError CommitResult} (h : Effect now op s r s') (hs : s.Successors) :
    s'.Successors := by
  cases h with
  | unchanged | began | targeted | floored | initialized | polled | cutOver | recomputed =>
    exact hs
  | appended _ h =>
    rw [h.final]
    exact hs
  | committed h =>
    obtain ⟨-, -, -, -, -, hu, -⟩ := h.frame
    intro k row hrow
    exact hs k row (hu ▸ hrow)
  | ranged h =>
    rw [h.frame]
    exact hs
  | marked _ h =>
    rw [h.final]
    intro k row hrow
    rcases KeyedTable.get?_of_insertNew hrow with hrow | ⟨rfl, -, rfl⟩
    · exact hs k row hrow
    · exact ⟨h.height_le, rfl⟩
  | reindexed h =>
    intro k row hrow
    rw [h.unavailable] at hrow
    split at hrow
    · cases hrow
    · exact hs k row hrow

/-- **The markers of a reachable store know their successors.** -/
theorem StoreRun.successors {pg : Bool} {genesis : BlockHash} {cs : List Call} {s : Store}
    (h : StoreRun pg genesis cs s) : s.Successors :=
  h.invariant (fun k _ hrow => by cases (KeyedTable.get?_empty k).symm.trans hrow)
    fun hs hstep => hstep.effect.2.2.successors hs

/-! ### The two queries -/

theorem decimalGt_text {m n : ℕ} :
    decimalGt (DigitOrder.text m) (DigitOrder.text n) = true ↔ n < m := by
  rw [decimalGt, decide_eq_true_eq, DigitOrder.less_text]

/-- A canonical text is parsed back. -/
theorem parseU64_text {n : ℕ} (h : n ≤ u64Max) : parseU64 (DigitOrder.text n) = some n := by
  have hdigits : parseDigits (DigitOrder.text n) = some n := by
    rw [parseDigits, if_pos]
    · exact congrArg some (DigitOrder.value_text n)
    · rw [Bool.and_eq_true]
      refine ⟨decide_eq_true (DigitOrder.text_ne_nil n), List.all_eq_true.mpr ?_⟩
      intro c hc
      exact DigitOrder.isDigit_of_mem_text hc
  unfold parseU64
  split
  · rename_i digits htext
    -- a sign is no digit
    have hmem : '+' ∈ DigitOrder.text n := by
      rw [htext]
      exact List.mem_cons_self
    exact absurd (DigitOrder.isDigit_of_mem_text hmem) (by decide)
  · rw [hdigits, Option.filter_some, if_pos (decide_eq_true h)]

namespace Store

variable {s : Store} {i : Indexable} {expected first through start h : ℕ}

theorem mem_markersOf {r : (Indexable × ℕ × ℕ) × UnavailableRow} :
    r ∈ s.markersOf i expected ↔
      s.unavailable.get? (i, expected, r.1.2.2) = some r.2 ∧ r.1 = (i, expected, r.1.2.2) := by
  rw [markersOf, List.mem_filter, decide_eq_true_eq]
  obtain ⟨⟨j, g, n⟩, row⟩ := r
  simp only [Prod.mk.injEq, and_true]
  constructor
  · rintro ⟨hmem, rfl, rfl⟩
    exact ⟨KeyedTable.get?_eq_some.mpr hmem, rfl, rfl⟩
  · rintro ⟨hget, rfl, rfl⟩
    exact ⟨KeyedTable.get?_eq_some.mp hget, rfl, rfl⟩

theorem isUnavailable_iff :
    s.isUnavailable i expected h = true ↔ ∃ r ∈ s.markersOf i expected, r.1.2.2 = h := by
  rw [isUnavailable, Option.isSome_iff_exists]
  constructor
  · rintro ⟨row, hrow⟩
    exact ⟨((i, expected, h), row), mem_markersOf.mpr ⟨hrow, rfl⟩, rfl⟩
  · rintro ⟨r, hr, rfl⟩
    exact ⟨r.2, (mem_markersOf.mp hr).1⟩

/-- The candidates are the unmarked heights after a marked one. -/
theorem mem_retryCandidates (hs : s.Successors) :
    h ∈ s.retryCandidates i expected first through ↔
      first < h ∧ h ≤ through ∧ s.isUnavailable i expected h = false ∧
        ∃ m, h = m + 1 ∧ m < u64Max ∧ s.isUnavailable i expected m = true := by
  have hblocked : ((s.markersOf i expected).any fun blocked =>
      DigitOrder.text blocked.1.2.2 = DigitOrder.text h) = s.isUnavailable i expected h := by
    rw [Bool.eq_iff_iff, List.any_eq_true, isUnavailable_iff]
    simp only [decide_eq_true_eq, DigitOrder.text_inj]
  have hnext : h ∈ ((s.markersOf i expected).filterMap fun r => r.2.nextHeight) ↔
      ∃ m, h = m + 1 ∧ m < u64Max ∧ s.isUnavailable i expected m = true := by
    rw [List.mem_filterMap]
    constructor
    · rintro ⟨r, hr, hn⟩
      obtain ⟨hle, hrow⟩ := hs _ _ (mem_markersOf.mp hr).1
      rw [hrow] at hn
      split at hn
      · cases hn
      · rename_i hne
        have hne : r.1.2.2 ≠ u64Max := hne
        have hle : r.1.2.2 ≤ u64Max := hle
        exact ⟨r.1.2.2, (Option.some.inj hn).symm, by omega, isUnavailable_iff.mpr ⟨r, hr, rfl⟩⟩
    · rintro ⟨m, rfl, hlt, hm⟩
      obtain ⟨r, hr, rfl⟩ := isUnavailable_iff.mp hm
      refine ⟨r, hr, ?_⟩
      rw [(hs _ _ (mem_markersOf.mp hr).1).2, if_neg (Nat.ne_of_lt hlt)]
  rw [retryCandidates, List.mem_filter, hnext, hblocked]
  simp only [Bool.and_eq_true, Bool.not_eq_true', decimalGt_text, ← Bool.not_eq_true, not_lt]
  constructor
  · rintro ⟨hm, ⟨h₁, h₂⟩, h₃⟩
    exact ⟨h₁, h₂, h₃, hm⟩
  · rintro ⟨h₁, h₂, h₃, hm⟩
    exact ⟨hm, ⟨h₁, h₂⟩, h₃⟩

theorem mem_retryStops :
    h ∈ s.retryStops i expected start through ↔
      start < h ∧ h ≤ through ∧ s.isUnavailable i expected h = true := by
  rw [retryStops, List.mem_filter, List.mem_map, isUnavailable_iff]
  simp only [Bool.and_eq_true, Bool.not_eq_true', decimalGt_text, ← Bool.not_eq_true, not_lt]
  constructor
  · rintro ⟨hm, h₁, h₂⟩
    exact ⟨h₁, h₂, hm⟩
  · rintro ⟨h₁, h₂, hm⟩
    exact ⟨hm, h₁, h₂⟩

/-- An unmarked height above a marked one has an unmarked height with a marked one
just below it. -/
theorem exists_successor {a : ℕ} (hm : s.isUnavailable i expected first = true) (hlt : first < a)
    (ha : s.isUnavailable i expected a = false) :
    ∃ m, first ≤ m ∧ m < a ∧ s.isUnavailable i expected m = true ∧
      s.isUnavailable i expected (m + 1) = false := by
  induction a, hlt using Nat.le_induction with
  | base => exact ⟨first, Nat.le_refl _, Nat.lt_succ_self _, hm, ha⟩
  | succ n hn ih =>
    cases hn' : s.isUnavailable i expected n with
    | true =>
      have : first + 1 ≤ n := hn
      exact ⟨n, by omega, Nat.lt_succ_self n, hn', ha⟩
    | false =>
      obtain ⟨m, h₁, h₂, h₃⟩ := ih hn'
      exact ⟨m, h₁, by omega, h₃⟩

variable (i expected) in
/-- **The interval starts at the least unmarked height**; it is absent when every
height is marked. -/
theorem retryStart_spec (hs : s.Successors) (hle : first ≤ through) (hmax : through ≤ u64Max) :
    ∃ r, s.retryStart i expected first through = .ok r ∧
      (r = none → ∀ h, first ≤ h → h ≤ through → s.isUnavailable i expected h = true) ∧
      ∀ a, r = some a → first ≤ a ∧ a ≤ through ∧ s.isUnavailable i expected a = false ∧
        ∀ h, first ≤ h → h < a → s.isUnavailable i expected h = true := by
  unfold retryStart
  cases hm : s.isUnavailable i expected first with
  | false =>
    refine ⟨some first, by rw [if_neg Bool.false_ne_true], by simp, ?_⟩
    rintro a ⟨rfl⟩
    exact ⟨Nat.le_refl _, hle, hm, fun h h₁ h₂ => by omega⟩
  | true =>
    rw [if_pos rfl]
    -- an unmarked height of the interval has a candidate at or below it
    have hcand : ∀ h, first ≤ h → h ≤ through → s.isUnavailable i expected h = false →
        ∃ n ∈ s.retryCandidates i expected first through, n ≤ h := by
      intro h h₁ h₂ hh
      have hlt : first < h := by
        rcases Nat.lt_or_eq_of_le h₁ with hlt | rfl
        · exact hlt
        · rw [hm] at hh
          cases hh
      obtain ⟨m, h₃, h₄, hm₁, hm₂⟩ := exists_successor hm hlt hh
      refine ⟨m + 1, (mem_retryCandidates hs).mpr ⟨by omega, by omega, hm₂, m, rfl, ?_, hm₁⟩, h₄⟩
      omega
    cases hleast : DigitOrder.least
        ((s.retryCandidates i expected first through).map DigitOrder.text) with
    | none =>
      refine ⟨none, rfl, ?_, by simp⟩
      intro _ h h₁ h₂
      by_contra hh
      obtain ⟨n, hn, -⟩ := hcand h h₁ h₂ (Bool.not_eq_true _ ▸ hh)
      rw [List.map_eq_nil_iff.mp (DigitOrder.least_eq_none.mp hleast)] at hn
      exact absurd hn List.not_mem_nil
    | some t =>
      obtain ⟨n, hn, rfl, hmin⟩ := DigitOrder.least_text hleast
      obtain ⟨h₁, h₂, h₃, -⟩ := (mem_retryCandidates hs).mp hn
      refine ⟨some n, by simp only [parseU64_text (show n ≤ u64Max by omega)], by simp, ?_⟩
      rintro a ⟨rfl⟩
      refine ⟨by omega, h₂, h₃, ?_⟩
      intro h h₄ h₅
      by_contra hh
      obtain ⟨k, hk, hkh⟩ := hcand h h₄ (by omega) (Bool.not_eq_true _ ▸ hh)
      have := hmin k hk
      omega

variable (s i expected) in
/-- **The interval ends before the least marker after its start.** -/
theorem retryEnd_spec (hle : start ≤ through) (hmax : through ≤ u64Max) :
    ∃ b, s.retryEnd i expected start through = .ok b ∧ start ≤ b ∧ b ≤ through ∧
      (∀ h, start < h → h ≤ b → s.isUnavailable i expected h = false) ∧
      (b = through ∨ s.isUnavailable i expected (b + 1) = true) := by
  unfold retryEnd
  cases hleast : DigitOrder.least
      ((s.retryStops i expected start through).map DigitOrder.text) with
  | none =>
    refine ⟨through, rfl, hle, Nat.le_refl _, ?_, .inl rfl⟩
    intro h h₁ h₂
    by_contra hh
    have hmem := mem_retryStops.mpr ⟨h₁, h₂, Bool.not_eq_false _ ▸ hh⟩
    rw [List.map_eq_nil_iff.mp (DigitOrder.least_eq_none.mp hleast)] at hmem
    exact absurd hmem List.not_mem_nil
  | some t =>
    obtain ⟨n, hn, rfl, hmin⟩ := DigitOrder.least_text hleast
    obtain ⟨h₁, h₂, h₃⟩ := mem_retryStops.mp hn
    refine ⟨n - 1, ?_, by omega, by omega, ?_, .inr ?_⟩
    · simp only [parseU64_text (show n ≤ u64Max by omega)]
      rw [if_neg (by omega)]
    · intro h h₄ h₅
      by_contra hh
      have := hmin h (mem_retryStops.mpr ⟨h₄, by omega, Bool.not_eq_false _ ▸ hh⟩)
      omega
    · rwa [Nat.sub_add_cancel (by omega)]

variable (i expected) in
/-- The two queries find the first maximal unmarked run. -/
theorem retryableRange_spec (hs : s.Successors) (hle : first ≤ through)
    (hmax : through ≤ u64Max) :
    ∃ r, s.retryableRange i expected first through = .ok r ∧
      (r = none ↔ ∀ h, first ≤ h → h ≤ through → s.isUnavailable i expected h = true) ∧
      ∀ a b, r = some (a, b) →
        first ≤ a ∧ a ≤ b ∧ b ≤ through ∧
        (∀ h, first ≤ h → h < a → s.isUnavailable i expected h = true) ∧
        (∀ h, a ≤ h → h ≤ b → s.isUnavailable i expected h = false) ∧
        (b = through ∨ s.isUnavailable i expected (b + 1) = true) := by
  obtain ⟨r, hr, hnone, hsome⟩ := retryStart_spec i expected hs hle hmax
  unfold retryableRange
  rw [if_neg (by omega), hr]
  cases r with
  | none =>
    refine ⟨none, rfl, ⟨fun _ => hnone rfl, fun _ => rfl⟩, ?_⟩
    intro a b h
    cases h
  | some start =>
    obtain ⟨h₁, h₂, h₃, hbefore⟩ := hsome start rfl
    obtain ⟨b, hb, h₄, h₅, hafter, hend⟩ := s.retryEnd_spec i expected h₂ hmax
    simp only [hb]
    refine ⟨some (start, b), rfl, ⟨by simp, ?_⟩, ?_⟩
    · intro hall
      rw [hall start h₁ h₂] at h₃
      cases h₃
    · rintro a b' ⟨rfl⟩
      refine ⟨h₁, h₄, h₅, hbefore, ?_, hend⟩
      intro h h₆ h₇
      rcases Nat.lt_or_eq_of_le h₆ with hlt | rfl
      · exact hafter h hlt h₇
      · exact h₃

end Store

/-- **`retryable_range` is the first maximal unmarked run.**  In every reachable
store it returns the interval from the least unmarked height of `[from, through]`
to just before the next marker, or to `through`; and it returns none exactly when
every height is marked. -/
theorem retryableRange_first {pg : Bool} {genesis : BlockHash} {cs : List Call} {s : Store}
    (hrun : StoreRun pg genesis cs s) (i : Indexable) (expected : ℕ) {first through : ℕ}
    (hle : first ≤ through) (hmax : through ≤ u64Max) :
    ∃ r, s.retryableRange i expected first through = .ok r ∧
      (r = none ↔ ∀ h, first ≤ h → h ≤ through → s.isUnavailable i expected h = true) ∧
      ∀ a b, r = some (a, b) →
        first ≤ a ∧ a ≤ b ∧ b ≤ through ∧
        (∀ h, first ≤ h → h < a → s.isUnavailable i expected h = true) ∧
        (∀ h, a ≤ h → h ≤ b → s.isUnavailable i expected h = false) ∧
        (b = through ∨ s.isUnavailable i expected (b + 1) = true) :=
  Store.retryableRange_spec i expected hrun.successors hle hmax

/-- An absent winner at a height. -/
def absentAt (height : ℕ) : UnavailableBlock where
  guard := ⟨.winners, 1⟩
  height := height
  hash := .uniform 2
  enrichmentAt := .uniform 3
  reason := .missingRetainedNonce

/-- With markers at both ends of `u64`, the retryable heights are those between. -/
theorem retryableRange_first_ends : ∃ cs s, StoreRun false (.uniform 1) cs s ∧
    s.retryableRange .winners 1 0 u64Max = .ok (some (1, u64Max - 1)) ∧
    ∀ h, 1 ≤ h → h ≤ u64Max - 1 → s.isUnavailable .winners 1 h = false := by
  have run : StoreRun false (.uniform 1) _ _ :=
    .snoc (.snoc .nil (.call (.utc 0) (.markUnavailable (.uniform 1) (absentAt 0)) _))
      (.call (.utc 0) (.markUnavailable (.uniform 1) (absentAt u64Max)) _)
  refine ⟨_, _, run, ?_⟩
  obtain ⟨r, hr, -, hsome⟩ :=
    retryableRange_first run .winners 1 (Nat.zero_le u64Max) (Nat.le_refl _)
  have hvalue : r = some (1, u64Max - 1) := Except.ok.inj (hr.symm.trans (by decide +kernel))
  obtain ⟨-, -, -, -, hfree, -⟩ := hsome 1 (u64Max - 1) hvalue
  exact ⟨hr.trans (congrArg _ hvalue), hfree⟩

end Dashboard

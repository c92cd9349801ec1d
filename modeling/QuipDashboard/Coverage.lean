/-
Coverage intervals of one domain.

The model of `Coverage` in `dashboard-store/src/coverage.rs`.  A coverage is a
pair of bounds and a list of gaps between them; what it is for is the set of
heights that it contains (`Coverage.heights`).

* `contains_iff` — an interval is contained exactly when its heights are;
* `heights_cover` — **`cover` adds its interval and no other height**;
* `cover_false` — `cover` reports no change exactly on contained intervals;
* `validate_empty`, `validate_ok` — what a persisted coverage is checked for.
-/
import QuipDashboard.Records
import Mathlib.Data.List.Sort
import Mathlib.Order.Interval.Set.Basic

namespace Dashboard

/-- `Coverage`: the persisted coverage of one domain generation. -/
structure Coverage where
  v : ℕ
  gen : ℕ
  start : ℕ
  low : Option ℕ
  high : Option ℕ
  gaps : List (ℕ × ℕ)
  prunedFloor : Option ℕ
  updatedAt : Option Timestamp
  deriving DecidableEq

namespace Coverage

/-- `Coverage::empty`. -/
def empty (gen start : ℕ) : Coverage := ⟨1, gen, start, none, none, [], none, none⟩

/-- `Coverage::contains`. -/
def contains (c : Coverage) (lo hi : ℕ) : Bool :=
  lo ≤ hi
    && c.low.any (· ≤ lo)
    && c.high.any (hi ≤ ·)
    && !c.gaps.any fun g => g.1 ≤ hi && lo ≤ g.2

/-- The part of one gap that `[a, b]` leaves open. -/
def splitGap (a b : ℕ) (gap : ℕ × ℕ) : List (ℕ × ℕ) :=
  if gap.2 < a ∨ b < gap.1 then [gap]
  else (if gap.1 < a then [(gap.1, a - 1)] else []) ++ (if b < gap.2 then [(b + 1, gap.2)] else [])

/-- The order of `[u64; 2]`. -/
def gapLE (g g' : ℕ × ℕ) : Prop := g.1 < g'.1 ∨ g.1 = g'.1 ∧ g.2 ≤ g'.2

instance : DecidableRel gapLE := fun _ _ => inferInstanceAs (Decidable (_ ∨ _))

/-- The gaps once `[a, b]` joins the bounds `[low, high]`: the space in between
becomes a gap, and `[a, b]` is cut out of all of them. -/
def joinGaps (low high : ℕ) (gaps : List (ℕ × ℕ)) (a b : ℕ) : List (ℕ × ℕ) :=
  let above := if a > saturatingAdd high 1 then [(high + 1, a - 1)] else []
  let below := if saturatingAdd b 1 < low then [(b + 1, low - 1)] else []
  ((gaps ++ above ++ below).flatMap (splitGap a b)).insertionSort gapLE

/-- `Coverage::cover`: whether the interval was new, and the coverage with it. -/
def cover (c : Coverage) (now : Timestamp) (a b : ℕ) : Except StoreError (Bool × Coverage) :=
  if a > b ∨ a < c.start then .error (.invalid "coverage outside domain floor")
  else if c.contains a b then .ok (false, c)
  else
    match c.low, c.high with
    | some low, some high =>
      .ok (true, { c with
        gaps := joinGaps low high c.gaps a b
        low := some (min low a)
        high := some (max high b)
        updatedAt := some now })
    | _, _ => .ok (true, { c with low := some a, high := some b, updatedAt := some now })

/-- The gaps of a persisted coverage: nonempty, strictly inside the bounds, in
order and not adjacent. -/
def validGaps (low high : Option ℕ) : Option ℕ → List (ℕ × ℕ) → Bool
  | _, [] => true
  | previous, (a, b) :: gaps =>
    !(a > b
      || low.all (a ≤ ·)
      || high.all (· ≤ b)
      || previous.any fun p => a ≤ saturatingAdd p 1)
      && validGaps low high (some b) gaps

/-- The bounds of a persisted coverage: both or neither, and in order. -/
def validBounds : Option ℕ → Option ℕ → Bool
  | none, none => true
  | some low, some high => low ≤ high
  | _, _ => false

/-- The checks of `coverage` on a persisted coverage of generation `gen`. -/
def validate (c : Coverage) (gen : ℕ) : Except StoreError Coverage :=
  if c.v ≠ 1 ∨ c.gen ≠ gen ∨ !validBounds c.low c.high then
    .error (.invalid "invalid persisted coverage")
  else if !validGaps c.low c.high none c.gaps then
    .error (.invalid "invalid persisted coverage gaps")
  else .ok c

/-! ### The covered heights -/

/-- The heights that a coverage contains. -/
def heights (c : Coverage) : Set ℕ := {h | c.contains h h = true}

theorem mem_heights {c : Coverage} {h : ℕ} :
    h ∈ c.heights ↔ (∃ low, c.low = some low ∧ low ≤ h) ∧ (∃ high, c.high = some high ∧ h ≤ high) ∧
      ∀ g ∈ c.gaps, ¬(g.1 ≤ h ∧ h ≤ g.2) := by
  simp only [heights, Set.mem_ofPred_eq, contains, Bool.and_eq_true, Bool.not_eq_true',
    List.any_eq_false, decide_eq_true_eq, le_refl, true_and, Option.any_eq_true]
  rw [and_assoc]

@[simp] theorem heights_empty (gen start : ℕ) : (empty gen start).heights = ∅ := by
  ext h
  simp [mem_heights, empty]

/-- The floor and the update time do not change what is covered. -/
theorem heights_with (c : Coverage) (floor : Option ℕ) (now : Option Timestamp) :
    ({ c with prunedFloor := floor, updatedAt := now } : Coverage).heights = c.heights := rfl

theorem contains_self {c : Coverage} {h : ℕ} : c.contains h h = true ↔ h ∈ c.heights := Iff.rfl

/-- **An interval is contained exactly when all of its heights are covered.** -/
theorem contains_iff {c : Coverage} {lo hi : ℕ} (hle : lo ≤ hi) (hg : ∀ g ∈ c.gaps, g.1 ≤ g.2) :
    c.contains lo hi = true ↔ Set.Icc lo hi ⊆ c.heights := by
  have hc : c.contains lo hi = true ↔
      (∃ low, c.low = some low ∧ low ≤ lo) ∧ (∃ high, c.high = some high ∧ hi ≤ high) ∧
        ∀ g ∈ c.gaps, ¬(g.1 ≤ hi ∧ lo ≤ g.2) := by
    simp only [contains, hle, decide_true, Bool.true_and, Bool.and_eq_true, Bool.not_eq_true',
      List.any_eq_false, decide_eq_true_eq, Option.any_eq_true]
    rw [and_assoc]
  rw [hc]
  constructor
  · rintro ⟨⟨low, hlow, h₁⟩, ⟨high, hhigh, h₂⟩, h₃⟩ h ⟨hlo, hhi⟩
    refine mem_heights.mpr ⟨⟨low, hlow, by omega⟩, ⟨high, hhigh, by omega⟩, ?_⟩
    rintro g hgm ⟨hg₁, hg₂⟩
    exact h₃ g hgm ⟨by omega, by omega⟩
  · intro hsub
    obtain ⟨⟨low, hlow, h₁⟩, -, -⟩ := mem_heights.mp (hsub ⟨le_refl lo, hle⟩)
    obtain ⟨-, ⟨high, hhigh, h₂⟩, -⟩ := mem_heights.mp (hsub ⟨hle, le_refl hi⟩)
    refine ⟨⟨low, hlow, h₁⟩, ⟨high, hhigh, h₂⟩, ?_⟩
    rintro g hgm ⟨hg₁, hg₂⟩
    -- the larger of the two left ends lies in both intervals
    have := hg g hgm
    have hm := hsub (show max lo g.1 ∈ Set.Icc lo hi from ⟨by omega, by omega⟩)
    exact (mem_heights.mp hm).2.2 g hgm ⟨by omega, by omega⟩

theorem mem_splitGap {a b h : ℕ} {gap : ℕ × ℕ} :
    (∃ g ∈ splitGap a b gap, g.1 ≤ h ∧ h ≤ g.2) ↔ (gap.1 ≤ h ∧ h ≤ gap.2) ∧ ¬(a ≤ h ∧ h ≤ b) := by
  unfold splitGap
  split
  · constructor
    · rintro ⟨g, hg, h₁, h₂⟩
      rw [List.mem_singleton.mp hg] at h₁ h₂
      exact ⟨⟨h₁, h₂⟩, by omega⟩
    · rintro ⟨hgap, -⟩
      exact ⟨gap, List.mem_singleton_self gap, hgap⟩
  · constructor
    · rintro ⟨g, hg, h₁, h₂⟩
      rcases List.mem_append.mp hg with hg | hg
      · split at hg
        · rw [List.mem_singleton.mp hg] at h₁ h₂
          simp only at h₁ h₂
          omega
        · cases hg
      · split at hg
        · rw [List.mem_singleton.mp hg] at h₁ h₂
          simp only at h₁ h₂
          omega
        · cases hg
    · rintro ⟨⟨h₁, h₂⟩, hab⟩
      by_cases ha : h < a
      · refine ⟨(gap.1, a - 1), ?_, by simp only; omega, by simp only; omega⟩
        rw [if_pos (by omega)]
        exact List.mem_append_left _ (List.mem_singleton_self _)
      · refine ⟨(b + 1, gap.2), ?_, by simp only; omega, by simp only; omega⟩
        rw [if_pos (show b < gap.2 by omega)]
        exact List.mem_append_right _ (List.mem_singleton_self _)

/-- The gaps after a join, as a set of heights. -/
theorem mem_joinGaps {low high a b h : ℕ} {gaps : List (ℕ × ℕ)} :
    (∃ g ∈ joinGaps low high gaps a b, g.1 ≤ h ∧ h ≤ g.2) ↔
      ((∃ g ∈ gaps, g.1 ≤ h ∧ h ≤ g.2) ∨
        (a > saturatingAdd high 1 ∧ high + 1 ≤ h ∧ h ≤ a - 1) ∨
        (saturatingAdd b 1 < low ∧ b + 1 ≤ h ∧ h ≤ low - 1)) ∧ ¬(a ≤ h ∧ h ≤ b) := by
  have hsplit : (∃ g ∈ joinGaps low high gaps a b, g.1 ≤ h ∧ h ≤ g.2) ↔
      ∃ gap, (gap ∈ gaps ∨ (a > saturatingAdd high 1 ∧ gap = (high + 1, a - 1)) ∨
        (saturatingAdd b 1 < low ∧ gap = (b + 1, low - 1))) ∧
        ∃ g ∈ splitGap a b gap, g.1 ≤ h ∧ h ≤ g.2 := by
    have hmem : ∀ (c : Prop) [Decidable c] (g gap : ℕ × ℕ),
        gap ∈ (if c then [g] else []) ↔ c ∧ gap = g := by
      intro c _ g gap
      by_cases hc : c <;> simp [hc]
    simp only [joinGaps, List.mem_insertionSort, List.mem_flatMap, List.mem_append, hmem, or_assoc]
    constructor
    · rintro ⟨g, ⟨gap, hgap, hg⟩, hh⟩
      exact ⟨gap, hgap, g, hg, hh⟩
    · rintro ⟨gap, hgap, g, hg, hh⟩
      exact ⟨g, ⟨gap, hgap, hg⟩, hh⟩
  rw [hsplit]
  simp only [mem_splitGap]
  constructor
  · rintro ⟨gap, hgap | ⟨hc, rfl⟩ | ⟨hc, rfl⟩, hin, hout⟩
    · exact ⟨.inl ⟨gap, hgap, hin⟩, hout⟩
    · exact ⟨.inr (.inl ⟨hc, hin⟩), hout⟩
    · exact ⟨.inr (.inr ⟨hc, hin⟩), hout⟩
  · rintro ⟨⟨gap, hgap, hin⟩ | ⟨hc, hin⟩ | ⟨hc, hin⟩, hout⟩
    · exact ⟨gap, .inl hgap, hin, hout⟩
    · exact ⟨_, .inr (.inl ⟨hc, rfl⟩), hin, hout⟩
    · exact ⟨_, .inr (.inr ⟨hc, rfl⟩), hin, hout⟩

theorem validGaps_none {gaps : List (ℕ × ℕ)} {low high previous : Option ℕ}
    (h : validGaps low high previous gaps = true) (hn : low = none ∨ high = none) : gaps = [] := by
  cases gaps with
  | nil => rfl
  | cons g gaps =>
    rcases hn with rfl | rfl <;> simp [validGaps] at h

theorem validGaps_le {gaps : List (ℕ × ℕ)} {low high previous : Option ℕ}
    (h : validGaps low high previous gaps = true) : ∀ g ∈ gaps, g.1 ≤ g.2 := by
  induction gaps generalizing previous with
  | nil => simp
  | cons g gaps ih =>
    simp only [validGaps, Bool.and_eq_true, Bool.not_eq_true', Bool.or_eq_false_iff] at h
    intro g' hg'
    rcases List.mem_cons.mp hg' with rfl | hg'
    · have := h.1.1.1.1
      simp only [decide_eq_false_iff_not] at this
      omega
    · exact ih h.2 g' hg'

theorem validate_ok {c c' : Coverage} {gen : ℕ} (h : c.validate gen = .ok c') :
    c' = c ∧ c.gen = gen ∧ validGaps c.low c.high none c.gaps = true := by
  unfold validate at h
  split at h
  · cases h
  · split at h
    · cases h
    · simp_all

theorem validate_empty (gen start : ℕ) : (empty gen start).validate gen = .ok (empty gen start) := by
  simp [validate, empty, validBounds, validGaps]

/-! ### What `cover` does -/

/-- `cover` changes nothing on a contained interval. -/
theorem cover_false {c c' : Coverage} {now : Timestamp} {a b : ℕ}
    (h : c.cover now a b = .ok (false, c')) : c' = c ∧ c.contains a b = true := by
  unfold cover at h
  split at h
  · cases h
  · split at h
    · exact ⟨(Prod.mk.inj (Except.ok.inj h)).2.symm, by assumption⟩
    · split at h <;> cases h

theorem cover_le {c : Coverage} {now : Timestamp} {a b : ℕ} {p : Bool × Coverage}
    (h : c.cover now a b = .ok p) : a ≤ b ∧ c.start ≤ a := by
  unfold cover at h
  split at h
  · cases h
  · omega

theorem cover_start {c : Coverage} {now : Timestamp} {a b : ℕ} {p : Bool × Coverage}
    (h : c.cover now a b = .ok p) : p.2.start = c.start := by
  unfold cover at h
  split at h
  · cases h
  · split at h
    · cases h
      rfl
    · split at h <;> cases h <;> rfl

/-- Not both bounds are there. -/
private theorem bound_none {c : Coverage}
    (h : ∀ low high, c.low = some low → c.high = some high → False) :
    c.low = none ∨ c.high = none := by
  cases hl : c.low with
  | none => exact .inl rfl
  | some low =>
    cases hh : c.high with
    | none => exact .inr rfl
    | some high => exact (h low high hl hh).elim

/-- **A successful `cover` adds its interval and no other height.** -/
theorem heights_cover {c c' : Coverage} {now : Timestamp} {a b gen : ℕ} {new : Bool}
    (hv : c.validate gen = .ok c) (h : c.cover now a b = .ok (new, c')) :
    c'.heights = c.heights ∪ Set.Icc a b := by
  have hgaps := (validate_ok hv).2.2
  obtain ⟨hab, -⟩ := cover_le h
  cases new with
  | false =>
    obtain ⟨rfl, hc⟩ := cover_false h
    exact (Set.union_eq_left.mpr ((contains_iff hab (validGaps_le hgaps)).mp hc)).symm
  | true =>
    unfold cover at h
    split at h
    · cases h
    split at h
    · cases h
    split at h
    · rename_i low high hlow hhigh
      cases h
      ext n
      have hj := @mem_joinGaps low high a b n c.gaps
      simp only [Set.mem_union, mem_heights, Set.mem_Icc, hlow, hhigh, Option.some.injEq,
        exists_eq_left']
      -- `joinGaps` holds what lies between the intervals and what was open before
      have hne : (∀ g ∈ joinGaps low high c.gaps a b, ¬(g.1 ≤ n ∧ n ≤ g.2)) ↔
          ¬∃ g ∈ joinGaps low high c.gaps a b, g.1 ≤ n ∧ n ≤ g.2 := by push Not; rfl
      have hne' : (∀ g ∈ c.gaps, ¬(g.1 ≤ n ∧ n ≤ g.2)) ↔
          ¬∃ g ∈ c.gaps, g.1 ≤ n ∧ n ≤ g.2 := by push Not; rfl
      rw [hne, hne', hj]
      have hs₁ := saturatingAdd_le high 1
      have hs₂ := saturatingAdd_le b 1
      by_cases hg : ∃ g ∈ c.gaps, g.1 ≤ n ∧ n ≤ g.2
      · simp only [hg, true_or, true_and, not_not, not_true, and_false, false_or]
        omega
      · simp only [hg, false_or, not_false_eq_true, and_true]
        omega
    · rename_i hnone
      cases h
      have hnil := bound_none hnone
      have hempty := validGaps_none hgaps hnil
      ext n
      simp only [Set.mem_union, mem_heights, Set.mem_Icc, hempty, Option.some.injEq,
        exists_eq_left', List.not_mem_nil, false_implies, implies_true, and_true]
      rcases hnil with hn | hn <;> simp [hn]

/-! ### The representation invariant -/

/-- A coverage that the store may persist in generation `gen`: it passes the
checks of its reader, and its heights are `u64`s. -/
structure Canonical (c : Coverage) (gen : ℕ) : Prop where
  version : c.v = 1
  generation : c.gen = gen
  bounds : validBounds c.low c.high = true
  gaps : validGaps c.low c.high none c.gaps = true
  high_le : ∀ high, c.high = some high → high ≤ u64Max

theorem Canonical.validate {c : Coverage} {gen : ℕ} (h : c.Canonical gen) :
    c.validate gen = .ok c := by
  simp [Coverage.validate, h.version, h.generation, h.bounds, h.gaps]

theorem canonical_empty (gen start : ℕ) : (empty gen start).Canonical gen :=
  ⟨rfl, rfl, rfl, rfl, by simp [empty]⟩

/-- A pruned floor is no part of what is covered. -/
theorem Canonical.withFloor {c : Coverage} {gen : ℕ} (h : c.Canonical gen) (floor : Option ℕ)
    (updatedAt : Option Timestamp) :
    { c with prunedFloor := floor, updatedAt := updatedAt }.Canonical gen :=
  ⟨h.version, h.generation, h.bounds, h.gaps, h.high_le⟩

/-- Gaps that are valid inside the bounds are a strictly increasing list, with at
least one covered height between two of them. -/
theorem validGaps_iff {low high : ℕ} (hhigh : high ≤ u64Max) {gaps : List (ℕ × ℕ)}
    {previous : Option ℕ} :
    validGaps (some low) (some high) previous gaps = true ↔
      (∀ g ∈ gaps, g.1 ≤ g.2 ∧ low < g.1 ∧ g.2 < high) ∧
      gaps.Pairwise (fun g g' => g.2 + 1 < g'.1) ∧
      ∀ p ∈ previous, ∀ g ∈ gaps, p + 1 < g.1 := by
  induction gaps generalizing previous with
  | nil => simp [validGaps]
  | cons g gaps ih =>
    obtain ⟨a, b⟩ := g
    have hsat : ∀ p, a ≤ b → b < high → (a ≤ saturatingAdd p 1 ↔ ¬p + 1 < a) := by
      intro p hab hb
      unfold saturatingAdd
      omega
    simp only [validGaps, Option.all_some, Bool.and_eq_true, Bool.not_eq_true',
      Bool.or_eq_false_iff, decide_eq_false_iff_not, not_lt, not_le, gt_iff_lt, ih,
      List.forall_mem_cons, List.pairwise_cons, Option.mem_def, Option.some.injEq, forall_eq']
    constructor
    · rintro ⟨⟨⟨⟨hab, hlow⟩, hhi⟩, hprev⟩, hgaps, hpair, hnext⟩
      have hp : ∀ p, previous = some p → p + 1 < a := by
        rintro p rfl
        simpa [hsat p hab hhi] using hprev
      refine ⟨⟨⟨hab, hlow, hhi⟩, hgaps⟩, ⟨hnext, hpair⟩, fun p h => ⟨hp p h, ?_⟩⟩
      intro g hg
      have := hnext g hg
      have := hp p h
      omega
    · rintro ⟨⟨⟨hab, hlow, hhi⟩, hgaps⟩, ⟨hnext, hpair⟩, hp⟩
      refine ⟨⟨⟨⟨hab, hlow⟩, hhi⟩, ?_⟩, hgaps, hpair, hnext⟩
      cases previous with
      | none => rfl
      | some p => simpa [hsat p hab hhi] using (hp p rfl).1

/-- Two gaps with a covered height between them. -/
private def Apart (g g' : ℕ × ℕ) : Prop := g.2 + 1 < g'.1 ∨ g'.2 + 1 < g.1

private theorem splitGap_apart {a b : ℕ} (hab : a ≤ b) (gap : ℕ × ℕ) :
    (splitGap a b gap).Pairwise Apart := by
  unfold splitGap
  split
  · exact List.pairwise_singleton _ _
  · by_cases ha : gap.1 < a <;> by_cases hb : b < gap.2 <;> simp [ha, hb, Apart]
    omega

private theorem splitGap_sub {a b : ℕ} {gap g : ℕ × ℕ} (hg : g ∈ splitGap a b gap)
    (hgap : gap.1 ≤ gap.2) : gap.1 ≤ g.1 ∧ g.1 ≤ g.2 ∧ g.2 ≤ gap.2 := by
  unfold splitGap at hg
  split at hg
  · rw [List.mem_singleton.mp hg]
    omega
  · rcases List.mem_append.mp hg with hg | hg
    · split at hg
      · rw [List.mem_singleton.mp hg]
        simp only
        omega
      · cases hg
    · split at hg
      · rw [List.mem_singleton.mp hg]
        simp only
        omega
      · cases hg

private instance : Std.Total gapLE := ⟨fun g g' => by unfold gapLE; omega⟩

private instance : IsTrans (ℕ × ℕ) gapLE := ⟨fun g g' g'' => by unfold gapLE; omega⟩

/-- The joined gaps are again in order, apart, and strictly inside the new bounds. -/
theorem joinGaps_valid {low high a b : ℕ} {gaps : List (ℕ × ℕ)} (hab : a ≤ b)
    (hhigh : max high b ≤ u64Max) (hle : low ≤ high)
    (h : validGaps (some low) (some high) none gaps = true) :
    validGaps (some (min low a)) (some (max high b)) none (joinGaps low high gaps a b) = true := by
  obtain ⟨hin, hpair, -⟩ := (validGaps_iff (by omega)).mp h
  -- the gaps before the cut: nonempty, inside the new bounds, pairwise apart
  set all := gaps ++ (if a > saturatingAdd high 1 then [(high + 1, a - 1)] else []) ++
    (if saturatingAdd b 1 < low then [(b + 1, low - 1)] else []) with hall
  have habove : a > saturatingAdd high 1 → high + 1 < a := by
    unfold saturatingAdd
    omega
  have hbelow : saturatingAdd b 1 < low → b + 1 < low := by
    unfold saturatingAdd
    omega
  have hmem : ∀ g ∈ all, g.1 ≤ g.2 ∧ min low a < g.1 ∧ g.2 < max high b := by
    intro g hg
    rw [hall, List.mem_append, List.mem_append] at hg
    rcases hg with (hg | hg) | hg
    · have := hin g hg
      omega
    · split at hg
      · have := habove (by assumption)
        rw [List.mem_singleton.mp hg]
        simp only
        omega
      · cases hg
    · split at hg
      · have := hbelow (by assumption)
        rw [List.mem_singleton.mp hg]
        simp only
        omega
      · cases hg
  have hapart : all.Pairwise Apart := by
    rw [hall, List.pairwise_append, List.pairwise_append]
    refine ⟨⟨hpair.imp fun h => .inl h, ?_, ?_⟩, ?_, ?_⟩
    · split <;> simp
    · intro g hg g' hg'
      split at hg'
      · rw [List.mem_singleton.mp hg']
        have := hin g hg
        exact .inl (by simp only; omega)
      · cases hg'
    · split <;> simp
    · intro g hg g' hg'
      split at hg'
      · have hb := hbelow (by assumption)
        rw [List.mem_singleton.mp hg']
        rcases List.mem_append.mp hg with hg | hg
        · have := hin g hg
          exact .inr (by simp only; omega)
        · split at hg
          · have := habove (by assumption)
            omega
          · cases hg
      · cases hg'
  -- the cut keeps them apart, and the order then separates them
  have hcut : (all.flatMap (splitGap a b)).Pairwise Apart := by
    rw [List.pairwise_flatMap]
    refine ⟨fun gap _ => splitGap_apart hab gap, hapart.imp_of_mem ?_⟩
    intro gap gap' hgap hgap' hap g hg g' hg'
    have h₁ := splitGap_sub hg (hmem gap hgap).1
    have h₂ := splitGap_sub hg' (hmem gap' hgap').1
    unfold Apart at hap ⊢
    omega
  have hsorted : joinGaps low high gaps a b = (all.flatMap (splitGap a b)).insertionSort gapLE := rfl
  have hcutmem : ∀ g ∈ joinGaps low high gaps a b,
      g.1 ≤ g.2 ∧ min low a < g.1 ∧ g.2 < max high b := by
    intro g hg
    rw [hsorted, List.mem_insertionSort, List.mem_flatMap] at hg
    obtain ⟨gap, hgap, hg⟩ := hg
    have h₁ := hmem gap hgap
    have h₂ := splitGap_sub hg h₁.1
    omega
  refine (validGaps_iff hhigh).mpr ⟨hcutmem, ?_, by simp⟩
  have hperm := (List.perm_insertionSort gapLE (all.flatMap (splitGap a b))).symm
  have hsym : ∀ {x y}, Apart x y → Apart y x := fun h => h.symm
  refine ((hcut.perm hperm hsym).and (List.pairwise_insertionSort gapLE _)).imp_of_mem ?_
  rintro g g' hg hg' ⟨hap, hle'⟩
  have h₁ := hcutmem g hg
  have h₂ := hcutmem g' hg'
  unfold Apart at hap
  unfold gapLE at hle'
  omega

/-- **`cover` keeps the representation invariant.** -/
theorem canonical_cover {c c' : Coverage} {now : Timestamp} {a b gen : ℕ} {new : Bool}
    (hc : c.Canonical gen) (hb : b ≤ u64Max) (h : c.cover now a b = .ok (new, c')) :
    c'.Canonical gen := by
  obtain ⟨hab, -⟩ := cover_le h
  unfold cover at h
  split at h
  · cases h
  split at h
  · cases h
    exact hc
  split at h
  · rename_i low high hlow hhigh
    cases h
    have hbounds := hc.bounds
    have hgaps := hc.gaps
    have hle := hc.high_le high hhigh
    rw [hlow, hhigh] at hbounds hgaps
    have hlh : low ≤ high := by simpa [validBounds] using hbounds
    refine ⟨hc.version, hc.generation, ?_, joinGaps_valid hab (by omega) hlh hgaps, ?_⟩
    · simp only [validBounds, decide_eq_true_eq]
      omega
    · rintro x ⟨rfl⟩
      omega
  · rename_i hnone
    cases h
    have hempty := validGaps_none hc.gaps (bound_none hnone)
    refine ⟨hc.version, hc.generation, by simpa [validBounds] using hab, by simp [hempty, validGaps],
      ?_⟩
    rintro x ⟨rfl⟩
    exact hb

end Coverage

end Dashboard

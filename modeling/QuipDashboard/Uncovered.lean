/-
The uncovered intervals of a coverage.

The model of `uncovered` in `quip-dashboard/src/indexer/coverage.rs`: what the
backfill of a domain has left to do, from the coverage of the store.

* `points_uncovered` — the heights of the intervals are the missing ones;
* `uncovered_separated` — the intervals are nonempty, in order and apart;
* `uncovered_complement` — **`uncovered` is the exact complement**.
-/
import QuipDashboard.CanonicalCoverage

namespace Dashboard

open Intervals

namespace Coverage

/-- The first height above the pruned floor; absent above the greatest `u64`. -/
def firstOpen (c : Coverage) : Option ℕ :=
  match c.prunedFloor with
  | some floor => if floor = u64Max then none else some (max c.start (floor + 1))
  | none => some c.start

/-- The intervals of `uncovered` from `start` on. -/
def uncoveredFrom (c : Coverage) (start head : ℕ) : List (ℕ × ℕ) :=
  if start > head then []
  else
    match c.low, c.high with
    | some low, some high =>
      (if start < low then [(start, min head (low - 1))] else []) ++
        clip start head c.gaps ++
        match checkedAdd high 1 with
        | some tail => if max tail start ≤ head then [(max tail start, head)] else []
        | none => []
    | _, _ => [(start, head)]

/-- `uncovered`: the sorted uncovered intervals, respecting the pruned floor. -/
def uncovered (c : Coverage) (head : ℕ) : List (ℕ × ℕ) :=
  match c.firstOpen with
  | some start => c.uncoveredFrom start head
  | none => []

/-- A height above the pruned floor and not below the start. -/
def Open (c : Coverage) (h : ℕ) : Prop := c.start ≤ h ∧ ∀ floor ∈ c.prunedFloor, floor < h

theorem firstOpen_some {c : Coverage} {start h : ℕ} (hs : c.firstOpen = some start) :
    c.Open h ↔ start ≤ h := by
  unfold firstOpen at hs
  unfold Open
  split at hs
  · rename_i floor hfloor
    split at hs
    · cases hs
    · cases hs
      simp only [hfloor, Option.mem_def, Option.some.injEq, forall_eq', max_le_iff]
      omega
  · rename_i hfloor
    cases hs
    simp [hfloor]

theorem firstOpen_none {c : Coverage} {h : ℕ} (hs : c.firstOpen = none) (hh : h ≤ u64Max) :
    ¬c.Open h := by
  unfold firstOpen at hs
  rintro ⟨-, hopen⟩
  split at hs
  · rename_i floor hfloor
    split at hs
    · rename_i hmax
      have := hopen floor hfloor
      omega
    · cases hs
  · cases hs

/-- The space below `low`, as far as `head`. -/
theorem points_prefix {start low head h : ℕ} :
    h ∈ points (if start < low then [(start, min head (low - 1))] else []) ↔
      start ≤ h ∧ h ≤ head ∧ h < low := by
  split
  · simp only [points_cons, points_nil, Set.union_empty, Set.mem_Icc]
    omega
  · simp only [points_nil, Set.mem_empty_iff_false, false_iff]
    omega

/-- The space above `high`, as far as `head`. -/
theorem points_tail {start high head h : ℕ} (hhead : head ≤ u64Max) :
    h ∈ points (match checkedAdd high 1 with
      | some tail => if max tail start ≤ head then [(max tail start, head)] else []
      | none => []) ↔ start ≤ h ∧ h ≤ head ∧ high < h := by
  unfold checkedAdd
  split
  · rename_i tail htail
    split at htail
    · cases htail
      split
      · simp only [points_cons, points_nil, Set.union_empty, Set.mem_Icc]
        omega
      · simp only [points_nil, Set.mem_empty_iff_false, false_iff]
        omega
    · cases htail
  · rename_i htail
    split at htail
    · cases htail
    · simp only [points_nil, Set.mem_empty_iff_false, false_iff]
      omega

/-- The heights of `uncoveredFrom` are those from `start` on that are missing. -/
theorem points_uncoveredFrom {c : Coverage} {gen start head h : ℕ} (hc : c.Canonical gen)
    (hhead : head ≤ u64Max) :
    h ∈ points (c.uncoveredFrom start head) ↔ start ≤ h ∧ h ≤ head ∧ h ∉ c.heights := by
  unfold uncoveredFrom
  split
  · simp only [points_nil, Set.mem_empty_iff_false, false_iff]
    omega
  · rename_i hle
    rcases hc.bounded with ⟨hl, hu, -⟩ | ⟨low, high, hl, hu, hlh, -, hin, -⟩
    · have hnone : h ∉ c.heights := by
        rw [mem_heights]
        rintro ⟨⟨low, hlow, -⟩, -⟩
        exact absurd (hl.symm.trans hlow) (by simp)
      simp only [hl, hu, points_cons, points_nil, Set.union_empty, Set.mem_Icc, hnone,
        not_false_eq_true, and_true]
    · rw [hl, hu]
      simp only
      rw [points_append, points_append, Set.mem_union, Set.mem_union, points_prefix, points_clip,
        points_tail hhead, points_gaps hl hu hin]
      simp only [Set.mem_inter_iff, Set.mem_sdiff, Set.mem_Icc]
      -- below the bounds, between them, above them
      have hbelow : h < low → h ∉ c.heights := by
        intro hlt hmem
        have := (isLeast_low hl hu hlh hin).2 hmem
        omega
      have habove : high < h → h ∉ c.heights := by
        intro hlt hmem
        have := (isGreatest_high hl hu hlh hin).2 hmem
        omega
      constructor
      · rintro ((⟨h₁, h₂, h₃⟩ | ⟨⟨-, hnot⟩, h₁, h₂⟩) | ⟨h₁, h₂, h₃⟩)
        · exact ⟨h₁, h₂, hbelow h₃⟩
        · exact ⟨h₁, h₂, hnot⟩
        · exact ⟨h₁, h₂, habove h₃⟩
      · rintro ⟨h₁, h₂, hnot⟩
        by_cases hlow : h < low
        · exact .inl (.inl ⟨h₁, h₂, hlow⟩)
        · by_cases hhigh : high < h
          · exact .inr ⟨h₁, h₂, hhigh⟩
          · exact .inl (.inr ⟨⟨⟨by omega, by omega⟩, hnot⟩, h₁, h₂⟩)

/-- The intervals of `uncoveredFrom` are nonempty, in order and apart. -/
theorem uncoveredFrom_separated {c : Coverage} {gen start head : ℕ} (hc : c.Canonical gen) :
    Separated (c.uncoveredFrom start head) := by
  have hsingle : ∀ a b : ℕ, a ≤ b → Separated [(a, b)] := by
    intro a b hab
    exact ⟨by simpa using hab, List.pairwise_singleton _ _⟩
  unfold uncoveredFrom
  split
  · exact Separated.nil
  · rcases hc.bounded with ⟨hl, hu, -⟩ | ⟨low, high, hl, hu, hlh, -, hin, hsep⟩
    · rw [hl, hu]
      exact hsingle start head (by omega)
    · rw [hl, hu]
      simp only
      have hbelow : Separated (if start < low then [(start, min head (low - 1))] else []) := by
        split
        · exact hsingle _ _ (by omega)
        · exact Separated.nil
      have htail : Separated (match checkedAdd high 1 with
          | some tail => if max tail start ≤ head then [(max tail start, head)] else []
          | none => []) := by
        split
        · split
          · exact hsingle _ _ (by assumption)
          · exact Separated.nil
        · exact Separated.nil
      -- every clipped gap lies strictly between the bounds
      have hclip : ∀ k ∈ Intervals.clip start head c.gaps, low < k.1 ∧ k.2 < high := by
        intro k hk
        obtain ⟨g, hg, hgk⟩ := List.mem_filterMap.mp hk
        obtain ⟨h₁, h₂, -⟩ := clipOne_eq_some.mp hgk
        have := hin g hg
        omega
      have hlow : ∀ g ∈ (if start < low then [(start, min head (low - 1))] else []),
          g.2 < low := by
        intro g hg
        split at hg
        · rw [List.mem_singleton.mp hg]
          simp only
          omega
        · exact absurd hg List.not_mem_nil
      have hhigh : ∀ g ∈ (match checkedAdd high 1 with
          | some tail => if max tail start ≤ head then [(max tail start, head)] else []
          | none => []), high < g.1 := by
        intro g hg
        split at hg
        · rename_i tail htail
          unfold checkedAdd at htail
          split at htail
          · cases htail
            split at hg
            · rw [List.mem_singleton.mp hg]
              simp only
              omega
            · exact absurd hg List.not_mem_nil
          · cases htail
        · exact absurd hg List.not_mem_nil
      refine (hbelow.append (hsep.clip start head) ?_).append htail ?_
      · intro g hg g' hg'
        have h₁ := hlow g hg
        have h₂ := hclip g' hg'
        rw [Order.succ_eq_add_one]
        omega
      · intro g hg g' hg'
        have h₁ := hhigh g' hg'
        rw [Order.succ_eq_add_one]
        rcases List.mem_append.mp hg with hg | hg
        · have h₂ := hlow g hg
          omega
        · have h₂ := hclip g hg
          omega

/-! ### The arithmetic of `uncovered` -/

/-- `firstOpen`, on `u64`: the outer option is absent when a step overflows. -/
def firstOpenChecked (c : Coverage) : Option (Option ℕ) :=
  match c.prunedFloor with
  | some floor =>
    if floor = u64Max then some none
    else (checkedAdd floor 1).map fun n => some (max c.start n)
  | none => some (some c.start)

/-- `uncoveredFrom`, on `u64`: absent when a step overflows or underflows. -/
def uncoveredFromChecked (c : Coverage) (start head : ℕ) : Option (List (ℕ × ℕ)) :=
  if start > head then some []
  else
    match c.low, c.high with
    | some low, some high =>
      (if start < low then (checkedSub low 1).map fun n => [(start, min head n)]
        else some []).map fun ranges =>
        ranges ++ clip start head c.gaps ++
          match checkedAdd high 1 with
          | some tail => if max tail start ≤ head then [(max tail start, head)] else []
          | none => []
    | _, _ => some [(start, head)]

/-- `uncovered`, on `u64`: absent when a step overflows or underflows. -/
def uncoveredChecked (c : Coverage) (head : ℕ) : Option (List (ℕ × ℕ)) :=
  c.firstOpenChecked.bind fun
    | some start => c.uncoveredFromChecked start head
    | none => some []

theorem uncoveredFromChecked_eq (c : Coverage) (start head : ℕ) :
    c.uncoveredFromChecked start head = some (c.uncoveredFrom start head) := by
  unfold uncoveredFromChecked uncoveredFrom
  split
  · rfl
  · split
    · rename_i low high _ _
      have hranges : (if start < low then (checkedSub low 1).map fun n => [(start, min head n)]
          else some []) = some (if start < low then [(start, min head (low - 1))] else []) := by
        split
        · rw [checkedSub_of_le (by omega), Option.map_some]
        · rfl
      rw [hranges, Option.map_some]
    · rfl

/-- No step of `uncovered` leaves the range of `u64`. -/
theorem uncoveredChecked_eq {c : Coverage} {head : ℕ}
    (hfloor : ∀ floor ∈ c.prunedFloor, floor ≤ u64Max) :
    c.uncoveredChecked head = some (c.uncovered head) := by
  have hfirst : c.firstOpenChecked = some c.firstOpen := by
    unfold firstOpenChecked firstOpen
    split
    · rename_i floor hf
      have := hfloor floor hf
      split
      · rfl
      · rw [checkedAdd_of_le (by omega), Option.map_some]
    · rfl
  rw [uncoveredChecked, hfirst, Option.bind_some, uncovered]
  split
  · exact uncoveredFromChecked_eq c _ head
  · rfl

/-- The heights of `uncovered` are the open ones that are missing. -/
theorem points_uncovered {c : Coverage} {gen head h : ℕ} (hc : c.Canonical gen)
    (hhead : head ≤ u64Max) :
    h ∈ points (c.uncovered head) ↔ c.Open h ∧ h ≤ head ∧ h ∉ c.heights := by
  unfold uncovered
  split
  · rename_i start hs
    rw [points_uncoveredFrom hc hhead, firstOpen_some hs]
  · rename_i hs
    constructor
    · intro hmem
      rw [points_nil] at hmem
      exact hmem.elim
    · rintro ⟨hopen, hle, -⟩
      exact (firstOpen_none hs (by omega) hopen).elim

theorem uncovered_separated {c : Coverage} {gen head : ℕ} (hc : c.Canonical gen) :
    Separated (c.uncovered head) := by
  unfold uncovered
  split
  · exact uncoveredFrom_separated hc
  · exact Separated.nil

/-- **`uncovered` is the exact complement.**  Its intervals are nonempty, in
order and disjoint; a height lies in one of them exactly when it is between the
start and the head, above the pruned floor, and not contained; and no step of it
leaves the range of `u64`, whether the coverage is valid or not. -/
theorem uncovered_complement {c : Coverage} {head : ℕ}
    (hfloor : ∀ floor ∈ c.prunedFloor, floor ≤ u64Max) (hhead : head ≤ u64Max) :
    c.uncoveredChecked head = some (c.uncovered head) ∧
      ∀ gen, c.Canonical gen →
        (∀ h, (∃ g ∈ c.uncovered head, g.1 ≤ h ∧ h ≤ g.2) ↔
          c.start ≤ h ∧ h ≤ head ∧ (∀ floor ∈ c.prunedFloor, floor < h) ∧
            c.contains h h = false) ∧
        (∀ g ∈ c.uncovered head, g.1 ≤ g.2) ∧
        (c.uncovered head).Pairwise fun g g' => g.2 < g'.1 := by
  refine ⟨uncoveredChecked_eq hfloor, ?_⟩
  intro gen hc
  refine ⟨?_, (uncovered_separated hc).nonempty, (uncovered_separated hc).ordered⟩
  intro h
  rw [← mem_points, points_uncovered hc hhead, Open, ← contains_self, Bool.not_eq_true]
  constructor
  · rintro ⟨⟨hs, hf⟩, hle, hnot⟩
    exact ⟨hs, hle, hf, hnot⟩
  · rintro ⟨hs, hle, hf, hnot⟩
    exact ⟨⟨hs, hf⟩, hle, hnot⟩

/-- A pruned floor inside a gap, and a head at the greatest `u64`. -/
theorem uncovered_complement_edges :
    ∃ gen, ({ edges with prunedFloor := some 4 } : Coverage).Canonical gen ∧
      ∀ h, (∃ g ∈ [(5, 6)], g.1 ≤ h ∧ h ≤ g.2) ↔
        0 ≤ h ∧ h ≤ u64Max ∧ (∀ floor ∈ some 4, floor < h) ∧
          ({ edges with prunedFloor := some 4 } : Coverage).contains h h = false := by
  have hc : ({ edges with prunedFloor := some 4 } : Coverage).Canonical 1 :=
    ⟨rfl, rfl, by decide, by decide, by rintro _ ⟨rfl⟩; rfl⟩
  have hfloor : ∀ floor ∈ ({ edges with prunedFloor := some 4 } : Coverage).prunedFloor,
      floor ≤ u64Max := by
    rintro _ ⟨rfl⟩
    decide
  exact ⟨1, hc, ((uncovered_complement hfloor (Nat.le_refl _)).2 1 hc).1⟩

end Coverage

end Dashboard

/-
Canonical coverages and their sets of heights.

`Coverage::cover` edits a pair of bounds and a list of gaps.  On canonical
coverages this is the union of sets: the heights determine the coverage, but for
the time of its last update.

* `Canonical.ext` — a canonical coverage is determined by its heights;
* `coverChecked_eq` — **no step of `cover` leaves the range of `u64`**;
* `cover_union` — **`cover` is the union of sets, in canonical form**.
-/
import QuipDashboard.Coverage
import QuipDashboard.Intervals
import Mathlib.Algebra.Order.SuccPred
import Mathlib.Data.Nat.SuccPred

namespace Dashboard

/-- `x + y` on `u64`: absent when it overflows. -/
def checkedAdd (x y : ℕ) : Option ℕ := if x + y ≤ u64Max then some (x + y) else none

/-- `x - y` on `u64`: absent when it underflows. -/
def checkedSub (x y : ℕ) : Option ℕ := if y ≤ x then some (x - y) else none

theorem checkedAdd_of_le {x y : ℕ} (h : x + y ≤ u64Max) : checkedAdd x y = some (x + y) :=
  if_pos h

theorem checkedSub_of_le {x y : ℕ} (h : y ≤ x) : checkedSub x y = some (x - y) := if_pos h

namespace Coverage

open Intervals

/-! ### The heights determine a canonical coverage -/

theorem validGaps_separated {low high : ℕ} {gaps : List (ℕ × ℕ)} (hhigh : high ≤ u64Max)
    (h : validGaps (some low) (some high) none gaps = true) : Separated gaps := by
  obtain ⟨hin, hpair, -⟩ := (validGaps_iff hhigh).mp h
  exact ⟨fun g hg => (hin g hg).1, hpair.imp fun {g g'} hg => by rwa [Order.succ_eq_add_one]⟩

/-- A canonical coverage is empty, or it has both bounds and its gaps between them. -/
theorem Canonical.bounded {c : Coverage} {gen : ℕ} (hc : c.Canonical gen) :
    (c.low = none ∧ c.high = none ∧ c.gaps = []) ∨
      ∃ low high, c.low = some low ∧ c.high = some high ∧ low ≤ high ∧ high ≤ u64Max ∧
        (∀ g ∈ c.gaps, low < g.1 ∧ g.2 < high) ∧ Separated c.gaps := by
  have hbounds := hc.bounds
  have hgaps := hc.gaps
  cases hlow : c.low with
  | none =>
    cases hhigh : c.high with
    | none => exact .inl ⟨rfl, rfl, validGaps_none hgaps (.inl hlow)⟩
    | some high => simp [validBounds, hlow, hhigh] at hbounds
  | some low =>
    cases hhigh : c.high with
    | none => simp [validBounds, hlow, hhigh] at hbounds
    | some high =>
      rw [hlow, hhigh] at hbounds hgaps
      have hle := hc.high_le high hhigh
      obtain ⟨hin, -, -⟩ := (validGaps_iff hle).mp hgaps
      refine .inr ⟨low, high, rfl, rfl, ?_, hle, fun g hg => (hin g hg).2, ?_⟩
      · simpa [validBounds] using hbounds
      · exact validGaps_separated hle hgaps

/-- The heights between the bounds that lie in no gap. -/
theorem heights_eq {c : Coverage} {low high : ℕ} (hlow : c.low = some low)
    (hhigh : c.high = some high) : c.heights = Set.Icc low high \ points c.gaps := by
  ext h
  simp only [mem_heights, hlow, hhigh, Option.some.injEq, exists_eq_left', Set.mem_sdiff, Set.mem_Icc,
    mem_points, not_exists, not_and, and_assoc]

/-- The gaps are what the heights leave out between the bounds. -/
theorem points_gaps {c : Coverage} {low high : ℕ} (hlow : c.low = some low)
    (hhigh : c.high = some high) (hin : ∀ g ∈ c.gaps, low < g.1 ∧ g.2 < high) :
    points c.gaps = Set.Icc low high \ c.heights := by
  rw [heights_eq hlow hhigh]
  ext h
  simp only [Set.mem_sdiff, Set.mem_Icc, not_and, not_not]
  constructor
  · rintro ⟨g, hg, h₁, h₂⟩
    have := hin g hg
    exact ⟨by omega, fun _ => ⟨g, hg, h₁, h₂⟩⟩
  · rintro ⟨hI, hg⟩
    exact hg hI

theorem isLeast_low {c : Coverage} {low high : ℕ} (hlow : c.low = some low)
    (hhigh : c.high = some high) (hle : low ≤ high)
    (hin : ∀ g ∈ c.gaps, low < g.1 ∧ g.2 < high) : IsLeast c.heights low := by
  rw [heights_eq hlow hhigh]
  refine ⟨⟨⟨le_refl _, hle⟩, ?_⟩, fun h hh => hh.1.1⟩
  rintro ⟨g, hg, h₁, -⟩
  have := hin g hg
  omega

theorem isGreatest_high {c : Coverage} {low high : ℕ} (hlow : c.low = some low)
    (hhigh : c.high = some high) (hle : low ≤ high)
    (hin : ∀ g ∈ c.gaps, low < g.1 ∧ g.2 < high) : IsGreatest c.heights high := by
  rw [heights_eq hlow hhigh]
  refine ⟨⟨⟨hle, le_refl _⟩, ?_⟩, fun h hh => hh.1.2⟩
  rintro ⟨g, hg, -, h₂⟩
  have := hin g hg
  omega

/-- A coverage apart from the time of its last update. -/
def untimed (c : Coverage) : Coverage := { c with updatedAt := none }

/-- **A canonical coverage is determined by its heights**, but for its floors and
the time of its last update. -/
theorem Canonical.ext {c d : Coverage} {gen : ℕ} (hc : c.Canonical gen) (hd : d.Canonical gen)
    (hstart : c.start = d.start) (hfloor : c.prunedFloor = d.prunedFloor)
    (hh : c.heights = d.heights) : c.untimed = d.untimed := by
  have hfields : c.low = d.low → c.high = d.high → c.gaps = d.gaps → c.untimed = d.untimed := by
    intro hlow hhigh hgaps
    simp only [untimed, hc.version, hd.version, hc.generation, hd.generation, hstart, hfloor, hlow,
      hhigh, hgaps]
  rcases hc.bounded with ⟨hl, hu, hg⟩ | ⟨low, high, hl, hu, hle, -, hin, hsep⟩
  · rcases hd.bounded with ⟨hl', hu', hg'⟩ | ⟨low', high', hl', hu', hle', -, hin', -⟩
    · exact hfields (hl.trans hl'.symm) (hu.trans hu'.symm) (hg.trans hg'.symm)
    · -- one side has no height, the other one has its low bound
      have hmem := (isLeast_low hl' hu' hle' hin').1
      rw [← hh, mem_heights] at hmem
      obtain ⟨⟨low, hlow, -⟩, -⟩ := hmem
      exact absurd (hl.symm.trans hlow) (by simp)
  · rcases hd.bounded with ⟨hl', -, -⟩ | ⟨low', high', hl', hu', hle', -, hin', hsep'⟩
    · have hmem := (isLeast_low hl hu hle hin).1
      rw [hh, mem_heights] at hmem
      obtain ⟨⟨low', hlow, -⟩, -⟩ := hmem
      exact absurd (hl'.symm.trans hlow) (by simp)
    · have hlow : low = low' := (isLeast_low hl hu hle hin).unique
        (hh ▸ isLeast_low hl' hu' hle' hin')
      have hhigh : high = high' := (isGreatest_high hl hu hle hin).unique
        (hh ▸ isGreatest_high hl' hu' hle' hin')
      have hgaps : c.gaps = d.gaps := by
        refine hsep.ext hsep' ?_
        rw [points_gaps hl hu hin, points_gaps hl' hu' hin', hh, hlow, hhigh]
      exact hfields (by rw [hl, hl', hlow]) (by rw [hu, hu', hhigh]) hgaps

/-! ### The arithmetic of `cover` -/

/-- `splitGap`, on `u64`. -/
def splitGapChecked (a b : ℕ) (gap : ℕ × ℕ) : Option (List (ℕ × ℕ)) :=
  if gap.2 < a ∨ b < gap.1 then some [gap]
  else
    (if gap.1 < a then (checkedSub a 1).map fun y => [(gap.1, y)] else some []).bind fun left =>
      (if b < gap.2 then (checkedAdd b 1).map fun x => [(x, gap.2)] else some []).map fun right =>
        left ++ right

/-- The space between an interval that ends at `x` and one that begins at `y`, on
`u64`. -/
def spaceChecked (x y : ℕ) : Option (List (ℕ × ℕ)) :=
  if saturatingAdd x 1 < y then
    (checkedAdd x 1).bind fun x' => (checkedSub y 1).map fun y' => [(x', y')]
  else some []

/-- `joinGaps`, on `u64`. -/
def joinGapsChecked (low high : ℕ) (gaps : List (ℕ × ℕ)) (a b : ℕ) : Option (List (ℕ × ℕ)) :=
  (spaceChecked high a).bind fun above => (spaceChecked b low).bind fun below =>
    ((gaps ++ above ++ below).mapM (splitGapChecked a b)).map fun cut =>
      cut.flatten.insertionSort gapLE

/-- `Coverage::cover`, on `u64`: absent when a step overflows or underflows. -/
def coverChecked (c : Coverage) (now : Timestamp) (a b : ℕ) :
    Option (Except StoreError (Bool × Coverage)) :=
  if a > b ∨ a < c.start then some (.error (.invalid "coverage outside domain floor"))
  else if c.contains a b then some (.ok (false, c))
  else
    match c.low, c.high with
    | some low, some high =>
      (joinGapsChecked low high c.gaps a b).map fun gaps =>
        .ok (true, { c with
          gaps := gaps
          low := some (min low a)
          high := some (max high b)
          updatedAt := some now })
    | _, _ => some (.ok (true, { c with low := some a, high := some b, updatedAt := some now }))

theorem splitGapChecked_eq {a b : ℕ} {gap : ℕ × ℕ} (hgap : gap.2 ≤ u64Max) :
    splitGapChecked a b gap = some (splitGap a b gap) := by
  unfold splitGapChecked splitGap
  by_cases hout : gap.2 < a ∨ b < gap.1
  · rw [if_pos hout, if_pos hout]
  · rw [if_neg hout, if_neg hout]
    have hleft : (if gap.1 < a then (checkedSub a 1).map fun y => [(gap.1, y)] else some []) =
        some (if gap.1 < a then [(gap.1, a - 1)] else []) := by
      split
      · rw [checkedSub_of_le (by omega), Option.map_some]
      · rfl
    have hright : (if b < gap.2 then (checkedAdd b 1).map fun x => [(x, gap.2)] else some []) =
        some (if b < gap.2 then [(b + 1, gap.2)] else []) := by
      split
      · rw [checkedAdd_of_le (by omega), Option.map_some]
      · rfl
    rw [hleft, hright, Option.bind_some, Option.map_some]

theorem spaceChecked_eq {x y : ℕ} (hy : y ≤ u64Max) :
    spaceChecked x y = some (if saturatingAdd x 1 < y then [(x + 1, y - 1)] else []) := by
  unfold spaceChecked
  split
  · rename_i hx
    have hlt : x + 1 < y := by
      unfold saturatingAdd at hx
      omega
    rw [checkedAdd_of_le (by omega), checkedSub_of_le (by omega), Option.bind_some, Option.map_some]
  · rfl

theorem mapM_splitGapChecked {a b : ℕ} {l : List (ℕ × ℕ)} (hl : ∀ g ∈ l, g.2 ≤ u64Max) :
    l.mapM (splitGapChecked a b) = some (l.map (splitGap a b)) := by
  induction l with
  | nil => rfl
  | cons g l ih =>
    rw [List.mapM_cons, splitGapChecked_eq (hl g List.mem_cons_self),
      ih fun x hx => hl x (List.mem_cons_of_mem g hx)]
    rfl

theorem joinGapsChecked_eq {low high a b : ℕ} {gaps : List (ℕ × ℕ)} (hlow : low ≤ u64Max)
    (ha : a ≤ u64Max) (hgaps : ∀ g ∈ gaps, g.2 ≤ u64Max) :
    joinGapsChecked low high gaps a b = some (joinGaps low high gaps a b) := by
  have hspace : ∀ {x y : ℕ} {g : ℕ × ℕ}, y ≤ u64Max →
      g ∈ (if saturatingAdd x 1 < y then [(x + 1, y - 1)] else []) → g.2 ≤ u64Max := by
    intro x y g hy hg
    split at hg
    · rw [List.mem_singleton.mp hg]
      show y - 1 ≤ u64Max
      omega
    · exact absurd hg List.not_mem_nil
  unfold joinGapsChecked joinGaps
  rw [spaceChecked_eq ha, Option.bind_some, spaceChecked_eq hlow, Option.bind_some,
    mapM_splitGapChecked, Option.map_some]
  · rfl
  · intro g hg
    rcases List.mem_append.mp hg with hg | hg
    · rcases List.mem_append.mp hg with hg | hg
      · exact hgaps g hg
      · exact hspace ha hg
    · exact hspace hlow hg

/-- **No step of `cover` leaves the range of `u64`.** -/
theorem coverChecked_eq {c : Coverage} {gen a b : ℕ} {now : Timestamp} (hc : c.Canonical gen)
    (hb : b ≤ u64Max) : c.coverChecked now a b = some (c.cover now a b) := by
  unfold coverChecked cover
  split
  · rfl
  split
  · rfl
  rcases hc.bounded with ⟨hl, hu, -⟩ | ⟨low, high, hl, hu, hle, hmax, hin, -⟩
  · rw [hl, hu]
  · rw [hl, hu]
    have hgaps : ∀ g ∈ c.gaps, g.2 ≤ u64Max := by
      intro g hg
      have := hin g hg
      omega
    simp only
    rw [joinGapsChecked_eq (by omega) (by omega) hgaps, Option.map_some]

/-! ### `cover` as a union of sets -/

/-- One call of `cover`: when, and its interval. -/
structure CoverCall where
  now : Timestamp
  interval : ℕ × ℕ

/-- An interval of `u64`s from the first eligible height on. -/
def CoverCall.Fits (x : CoverCall) (start : ℕ) : Prop :=
  start ≤ x.interval.1 ∧ x.interval.1 ≤ x.interval.2 ∧ x.interval.2 ≤ u64Max

/-- Calls of `cover`, one after another. -/
def coverAll (c : Coverage) : List CoverCall → Except StoreError Coverage
  | [] => .ok c
  | x :: calls =>
    match c.cover x.now x.interval.1 x.interval.2 with
    | .ok (_, c') => coverAll c' calls
    | .error e => .error e

/-- `cover` succeeds on the intervals that it is for. -/
theorem cover_ok {c : Coverage} {a b : ℕ} (now : Timestamp) (hs : c.start ≤ a) (hab : a ≤ b) :
    ∃ new c', c.cover now a b = .ok (new, c') := by
  unfold cover
  rw [if_neg (by omega)]
  split
  · exact ⟨_, _, rfl⟩
  · split <;> exact ⟨_, _, rfl⟩

theorem cover_floor {c c' : Coverage} {now : Timestamp} {a b : ℕ} {new : Bool}
    (h : c.cover now a b = .ok (new, c')) : c'.prunedFloor = c.prunedFloor := by
  unfold cover at h
  split at h
  · cases h
  · split at h
    · cases h
      rfl
    · split at h <;> cases h <;> rfl

/-- `cover` reports no change exactly on the intervals that were covered. -/
theorem cover_false_iff {c c' : Coverage} {gen a b : ℕ} {now : Timestamp} {new : Bool}
    (hc : c.Canonical gen) (h : c.cover now a b = .ok (new, c')) :
    new = false ↔ Set.Icc a b ⊆ c.heights := by
  obtain ⟨hab, hs⟩ := cover_le h
  rw [← contains_iff hab (validGaps_le hc.gaps)]
  constructor
  · rintro rfl
    exact (cover_false h).2
  · intro hin
    unfold cover at h
    rw [if_neg (by omega), if_pos hin] at h
    exact (Prod.mk.inj (Except.ok.inj h)).1.symm

/-- The heights after a list of calls. -/
theorem coverAll_ok {c : Coverage} {gen : ℕ} {calls : List CoverCall} (hc : c.Canonical gen)
    (hfits : ∀ x ∈ calls, x.Fits c.start) :
    ∃ d, c.coverAll calls = .ok d ∧ d.Canonical gen ∧ d.start = c.start ∧
      d.prunedFloor = c.prunedFloor ∧
      d.heights = c.heights ∪ points (calls.map CoverCall.interval) := by
  induction calls generalizing c with
  | nil => exact ⟨c, rfl, hc, rfl, rfl, by simp⟩
  | cons x calls ih =>
    obtain ⟨hs, hab, hb⟩ := hfits x List.mem_cons_self
    obtain ⟨new, c', h⟩ := cover_ok x.now hs hab
    have hstart : c'.start = c.start := cover_start h
    obtain ⟨d, hd, hcan, hds, hdf, hdh⟩ := ih (canonical_cover hc hb h)
      (fun y hy => hstart ▸ hfits y (List.mem_cons_of_mem x hy))
    refine ⟨d, ?_, hcan, hds.trans hstart, hdf.trans (cover_floor h), ?_⟩
    · rw [coverAll, h]
      exact hd
    · rw [hdh, heights_cover hc.validate h, List.map_cons, points_cons, Set.union_assoc]

theorem points_perm {l l' : List (ℕ × ℕ)} (h : l.Perm l') : points l = points l' := by
  ext x
  simp only [mem_points, h.mem_iff]

/-- **`cover` is the union of sets, in canonical form.**  On a canonical coverage
and an interval that it is for, `cover` succeeds without an overflow, adds the
interval to the heights and nothing else, keeps the representation invariant,
reports a change exactly on a new interval, and gives the one canonical coverage
of those heights; hence the order of calls does not matter. -/
theorem cover_union {c : Coverage} {gen : ℕ} (hc : c.Canonical gen) :
    (∀ (now : Timestamp) (a b : ℕ), c.start ≤ a → a ≤ b → b ≤ u64Max →
      ∃ new c', c.coverChecked now a b = some (.ok (new, c')) ∧
        c.cover now a b = .ok (new, c') ∧
        c'.heights = c.heights ∪ Set.Icc a b ∧
        c'.Canonical gen ∧
        (new = false ↔ Set.Icc a b ⊆ c.heights) ∧ (new = false → c' = c) ∧
        ∀ d : Coverage, d.Canonical gen → d.start = c.start → d.prunedFloor = c.prunedFloor →
          d.heights = c'.heights → d.untimed = c'.untimed) ∧
    ∀ calls calls' : List CoverCall, (∀ x ∈ calls, x.Fits c.start) →
      (calls.map CoverCall.interval).Perm (calls'.map CoverCall.interval) →
      ∃ d d', c.coverAll calls = .ok d ∧ c.coverAll calls' = .ok d' ∧ d.untimed = d'.untimed := by
  constructor
  · intro now a b hs hab hb
    obtain ⟨new, c', h⟩ := cover_ok now hs hab
    have hcan := canonical_cover hc hb h
    refine ⟨new, c', ?_, h, heights_cover hc.validate h, hcan, cover_false_iff hc h, ?_, ?_⟩
    · rw [coverChecked_eq hc hb, h]
    · rintro rfl
      exact (cover_false h).1
    · intro d hd hds hdf hdh
      exact hd.ext hcan (hds.trans (cover_start h).symm) (hdf.trans (cover_floor h).symm) hdh
  · intro calls calls' hfits hperm
    -- the intervals of both lists are the same
    have hfits' : ∀ x ∈ calls', x.Fits c.start := by
      intro x hx
      have hmem := hperm.mem_iff.mpr (List.mem_map_of_mem (f := CoverCall.interval) hx)
      obtain ⟨y, hy, heq⟩ := List.mem_map.mp hmem
      have := hfits y hy
      rwa [CoverCall.Fits, heq] at this
    obtain ⟨d, hd, hcan, hds, hdf, hdh⟩ := coverAll_ok hc hfits
    obtain ⟨d', hd', hcan', hds', hdf', hdh'⟩ := coverAll_ok hc hfits'
    refine ⟨d, d', hd, hd', hcan.ext hcan' (hds.trans hds'.symm) (hdf.trans hdf'.symm) ?_⟩
    rw [hdh, hdh', points_perm hperm]

/-- The heights `1..3` and all from `7` on, up to the greatest `u64`. -/
def edges : Coverage := ⟨1, 1, 0, some 1, some u64Max, [(4, 6)], none, none⟩

/-- A cover of height `0` and one inside the gap, in both orders. -/
theorem cover_union_edges :
    (∃ new c', edges.cover (.utc 0) 0 0 = .ok (new, c') ∧ c'.heights = edges.heights ∪ {0}) ∧
      ∃ d d', edges.coverAll [⟨.utc 1, 0, 0⟩, ⟨.utc 2, 5, u64Max⟩] = .ok d ∧
        edges.coverAll [⟨.utc 2, 5, u64Max⟩, ⟨.utc 1, 0, 0⟩] = .ok d' ∧ d.untimed = d'.untimed := by
  have hc : edges.Canonical 1 := ⟨rfl, rfl, by decide, by decide, by rintro _ ⟨rfl⟩; rfl⟩
  obtain ⟨hcover, horder⟩ := cover_union hc
  constructor
  · obtain ⟨new, c', -, h, hh, -⟩ :=
      hcover (.utc 0) 0 0 (Nat.zero_le _) (Nat.le_refl _) (Nat.zero_le _)
    exact ⟨new, c', h, by rw [hh, Set.Icc_self]⟩
  · refine horder _ _ ?_ (List.Perm.swap _ _ _)
    intro x hx
    rcases List.mem_cons.mp hx with rfl | hx
    · exact ⟨Nat.zero_le _, Nat.le_refl _, Nat.zero_le _⟩
    · rw [List.mem_singleton.mp hx]
      exact ⟨Nat.zero_le _, show 5 ≤ u64Max by decide, Nat.le_refl _⟩

end Coverage

end Dashboard

/-
Generations, floors, targets and absence markers.

The model of `reindex`, `initialize_coverage`, `set_pruned_floor`,
`set_finalized_target`, `mark_unavailable`, `committed_target` and
`retryable_range` in `dashboard-store/src/coverage.rs`, and of the polled
`insert_difficulty_snapshot` in `blocks.rs`.

* `reindex_ok` — **a reindex raises the generation of its domains, clears their
  coverage, scans, markers and rows, and leaves the other domains alone**;
* `setPrunedFloor_cases`, `initializeCoverage_cases` — floors add no coverage;
* `setFinalizedTarget_cases` — the target changes nothing else;
* `markUnavailable_cases` — a marker of the current generation, and an identity.
-/
import QuipDashboard.Commit

namespace Dashboard

/-! ### Reindexing -/

/-- `DELETE FROM dashboard_unavailable WHERE domain=i`. -/
def dropUnavailable (i : Indexable) (s : Store) : Unit × Store :=
  ((), { s with unavailable := s.unavailable.delete fun k _ => k.1 = i })

/-- The scans of a domain go with the winners they list. -/
def dropScans (i : Indexable) (s : Store) : Unit × Store :=
  let scanWinners := s.scanWinners.delete fun k _ => (s.scans.get? k.1).any (·.domain = i)
  let scans := s.scans.delete fun _ row => row.domain = i
  ((), { s with scanWinners, scans })

/-- Difficulty keeps what was polled: block rows go, and the preserved poll rows
fill the heights that they leave. -/
def restorePolls (s : Store) : Store :=
  let polled := s.difficultyHistory.delete fun _ row => row.source = .block
  { s with difficultyHistory := polled.insertAll s.pollDifficulty.rows }

/-- The rows that a domain owns; authorship also keeps a persisted floor. -/
def dropRows (i : Indexable) (next start : ℕ) (s : Store) : Unit × Store :=
  ((), match i with
    | .winners => { s with blocks := .empty, nodeSummary := .empty }
    | .participation => { s with participation := .empty }
    | .difficulty => restorePolls s
    | .authorship =>
      { s with
        authorshipBlocks := .empty
        authorshipCutover := none
        coverages := if start > 0 then s.coverages.put .authorship (Coverage.empty next start)
          else s.coverages })

/-- One domain of `reindex`. -/
def reindexOne (i : Indexable) : StoreTx GenerationGuard := do
  let generation ← Tx.read (·.generation i)
  if generation + 1 > u64Max then Tx.fail (.invalid "generation exhausted")
  else
    let next := generation + 1
    let old ← Tx.readM (·.coverage i 0)
    Tx.update fun s => ((), { s with generations := s.generations.put i next })
    Tx.update fun s => ((), { s with coverages := s.coverages.erase i })
    Tx.update (dropUnavailable i)
    Tx.update (dropRows i next old.start)
    Tx.update (dropScans i)
    return ⟨i, next⟩

/-- The domain loop of `reindex`. -/
def reindexAll : List Indexable → StoreTx (List GenerationGuard)
  | [] => return []
  | i :: is => do
    let g ← reindexOne i
    let gs ← reindexAll is
    return g :: gs

/-- `reindex`. -/
def reindex (indexables : List Indexable) (s : Store) :
    Except StoreError (List GenerationGuard) × Store :=
  Tx.write (do
    let _ ← Tx.readM Store.requireBound
    -- `sort_unstable` and `dedup`
    let result ← reindexAll (Indexable.all.filter (· ∈ indexables))
    return .commit result) s

/-- What a reindex of some domains leaves behind. -/
structure Reindexed (is : List Indexable) (s s' : Store) : Prop where
  network : s'.genesis = s.genesis ∧ s'.pg = s.pg
  generation : ∀ j, s'.generation j = if j ∈ is then s.generation j + 1 else s.generation j
  coverage_eq : ∀ j, j ∉ is → s'.coverages.get? j = s.coverages.get? j
  covered : ∀ j ∈ is, s'.covered j = ∅
  canonical : s.Canonical → s'.Canonical
  unavailable : ∀ k, s'.unavailable.get? k = if k.1 ∈ is then none else s.unavailable.get? k
  scans : ∀ id row, s'.scans.get? id = some row ↔ s.scans.get? id = some row ∧ row.domain ∉ is
  scanWinners : ∀ k, s'.scanWinners.get? k = some () → s.scanWinners.get? k = some ()
  scanWinners_eq : ∀ id row, s.scans.get? id = some row → row.domain ∉ is →
    ∀ n, s'.scanWinners.get? (id, n) = s.scanWinners.get? (id, n)
  blocks : s'.blocks = if .winners ∈ is then .empty else s.blocks
  participation : s'.participation = if .participation ∈ is then .empty else s.participation
  authorshipBlocks :
    s'.authorshipBlocks = if .authorship ∈ is then .empty else s.authorshipBlocks
  difficulty_eq : .difficulty ∉ is → s'.difficultyHistory = s.difficultyHistory
  difficulty_mem : .difficulty ∈ is → ∀ k row, s'.difficultyHistory.get? k = some row →
    row.source = .poll ∨ s.pollDifficulty.get? k = some row
  polls : s'.pollDifficulty = s.pollDifficulty
  finalized : s'.finalized = s.finalized ∧ s'.finalizedTarget = s.finalizedTarget

/-- The store after the statements of `reindexOne`. -/
private def cleared (i : Indexable) (next start : ℕ) (s : Store) : Store :=
  (dropScans i (dropRows i next start (dropUnavailable i { s with
    generations := s.generations.put i next, coverages := s.coverages.erase i }).2).2).2

private theorem cleared_coverages (i : Indexable) (next start : ℕ) (s : Store) (j : Indexable) :
    (cleared i next start s).coverages.get? j =
      if j = i then (if i = .authorship ∧ start > 0 then some (Coverage.empty next start) else none)
      else s.coverages.get? j := by
  have herase : (s.coverages.erase i).get? j = if j = i then none else s.coverages.get? j := by
    by_cases hj : j = i
    · subst hj
      simp
    · rw [if_neg hj]
      exact KeyedTable.get?_erase_ne hj
  by_cases hi : i = .authorship
  · subst hi
    show (if start > 0 then (s.coverages.erase .authorship).put .authorship
      (Coverage.empty next start) else s.coverages.erase .authorship).get? j = _
    by_cases hs : start > 0
    · rw [if_pos hs, KeyedTable.get?_put, herase]
      by_cases hj : j = .authorship <;> simp [hj, hs]
    · rw [if_neg hs, herase]
      by_cases hj : j = .authorship <;> simp [hj, hs]
  · have : (cleared i next start s).coverages = s.coverages.erase i := by
      cases i <;> first | rfl | exact absurd rfl hi
    rw [this, herase]
    simp [hi]

private theorem cleared_generation (i : Indexable) (next start : ℕ) (hnext : 0 < next) (s : Store)
    (j : Indexable) :
    (cleared i next start s).generation j = if j = i then next else s.generation j := by
  have : (cleared i next start s).generations = s.generations.put i next := by cases i <;> rfl
  rw [Store.generation, this, KeyedTable.get?_put]
  by_cases hj : j = i
  · simp [hj, hnext]
  · rw [if_neg hj, if_neg hj]
    rfl

private theorem cleared_difficulty (i : Indexable) (next start : ℕ) (s : Store) :
    (cleared i next start s).difficultyHistory =
      if i = .difficulty then (restorePolls s).difficultyHistory else s.difficultyHistory := by
  cases i <;> rfl

/-- **One domain of a reindex.** -/
theorem exec_reindexOne {i : Indexable} {s s' : Store} {g : GenerationGuard}
    (h : (reindexOne i).exec s = .ok (g, s')) :
    g = ⟨i, s.generation i + 1⟩ ∧ s.generation i + 1 ≤ u64Max ∧ Reindexed [i] s s' := by
  unfold reindexOne at h
  rw [Tx.exec_read_bind] at h
  split at h
  · cases h
  rename_i hmax
  obtain ⟨old, hold, h⟩ := Tx.exec_readM_bind_ok.mp h
  simp only [Tx.exec_update_bind] at h
  have hs : s' = cleared i (s.generation i + 1) old.start s :=
    (Prod.mk.inj (Except.ok.inj h)).2.symm
  have hg : g = ⟨i, s.generation i + 1⟩ := (Prod.mk.inj (Except.ok.inj h)).1.symm
  refine ⟨hg, by omega, ?_⟩
  have hgen := cleared_generation i (s.generation i + 1) old.start (by omega) s
  have hcov := cleared_coverages i (s.generation i + 1) old.start s
  rw [← hs] at hgen hcov
  -- what is cleared differs from domain to domain, all else is kept
  have hmem : ∀ j, j ∈ [i] ↔ j = i := by simp
  refine
    { network := ?_, generation := ?_, coverage_eq := ?_, covered := ?_, canonical := ?_,
      unavailable := ?_, scans := ?_, scanWinners := ?_, scanWinners_eq := ?_, blocks := ?_,
      participation := ?_, authorshipBlocks := ?_, difficulty_eq := ?_, difficulty_mem := ?_,
      polls := ?_, finalized := ?_ }
  · rw [hs]
    cases i <;> exact ⟨rfl, rfl⟩
  · intro j
    rw [hgen]
    by_cases hj : j = i <;> simp [hj]
  · intro j hj
    rw [hcov, if_neg (by simpa using hj)]
  · intro j hj
    rw [hmem] at hj
    subst hj
    ext n
    simp only [Store.covered, hcov, if_true, Set.mem_ofPred_eq, Set.mem_empty_iff_false, iff_false,
      not_exists, not_and]
    intro cov hget
    split at hget
    · cases hget
      simp
    · cases hget
  · intro hcan j cov hget
    rw [hcov] at hget
    rw [hgen]
    by_cases hj : j = i
    · rw [if_pos hj] at hget ⊢
      split at hget
      · cases hget
        exact Coverage.canonical_empty _ _
      · cases hget
    · rw [if_neg hj] at hget ⊢
      exact hcan j cov hget
  · intro k
    have hu : s'.unavailable = s.unavailable.delete fun k _ => k.1 = i := by
      rw [hs]
      cases i <;> rfl
    ext row
    rw [hu, KeyedTable.get?_delete]
    by_cases hk : k.1 = i <;> simp [hk]
  · intro id row
    have hsc : s'.scans = s.scans.delete fun _ row => row.domain = i := by
      rw [hs]
      cases i <;> rfl
    rw [hsc, KeyedTable.get?_delete]
    simp
  · intro k hk
    have hsw : s'.scanWinners =
        s.scanWinners.delete fun k _ => (s.scans.get? k.1).any (·.domain = i) := by
      rw [hs]
      cases i <;> rfl
    rw [hsw] at hk
    exact (KeyedTable.get?_delete.mp hk).1
  · intro id row hrow hne n
    have hsw : s'.scanWinners =
        s.scanWinners.delete fun k _ => (s.scans.get? k.1).any (·.domain = i) := by
      rw [hs]
      cases i <;> rfl
    ext u
    rw [hsw, KeyedTable.get?_delete, hrow]
    simpa using fun _ => by simpa using hne
  · rw [hs]
    cases i <;> rfl
  · rw [hs]
    cases i <;> rfl
  · rw [hs]
    cases i <;> rfl
  · intro hi
    rw [hs, cleared_difficulty, if_neg (by rintro rfl; simp at hi)]
  · intro hi k row hrow
    have hi : i = .difficulty := by simpa using (List.mem_singleton.mp hi).symm
    rw [hs, cleared_difficulty, if_pos hi, restorePolls] at hrow
    -- a row is left of the history, where only polls stay, or it is restored from the polls
    rcases KeyedTable.get?_insertAll hrow with hrow | hrow
    · left
      have := (KeyedTable.get?_delete.mp hrow).2
      cases hsource : row.source with
      | poll => rfl
      | block => simp [hsource] at this
    · exact .inr (KeyedTable.get?_eq_some.mpr hrow)
  · rw [hs]
    cases i <;> rfl
  · rw [hs]
    cases i <;> exact ⟨rfl, rfl⟩

/-- Reindexing one domain after others. -/
theorem Reindexed.cons {i : Indexable} {is : List Indexable} {s s₁ s' : Store} (hi : i ∉ is)
    (h₁ : Reindexed [i] s s₁) (h₂ : Reindexed is s₁ s') : Reindexed (i :: is) s s' := by
  have hone : ∀ j, j ∈ is → j ∉ [i] := by
    rintro j hj hji
    rw [List.mem_singleton.mp hji] at hj
    exact hi hj
  refine
    { network := ⟨h₂.network.1.trans h₁.network.1, h₂.network.2.trans h₁.network.2⟩
      generation := ?_, coverage_eq := ?_, covered := ?_
      canonical := fun h => h₂.canonical (h₁.canonical h)
      unavailable := ?_, scans := ?_
      scanWinners := fun k h => h₁.scanWinners k (h₂.scanWinners k h)
      scanWinners_eq := ?_, blocks := ?_, participation := ?_, authorshipBlocks := ?_
      difficulty_eq := ?_, difficulty_mem := ?_
      polls := h₂.polls.trans h₁.polls
      finalized := ⟨h₂.finalized.1.trans h₁.finalized.1, h₂.finalized.2.trans h₁.finalized.2⟩ }
  · intro j
    rw [h₂.generation, h₁.generation]
    by_cases hj : j ∈ is
    · simp [hj, hone j hj]
    · by_cases hji : j = i <;> simp [hj, hji]
      subst hji
      simp [hi]
  · intro j hj
    rw [List.mem_cons, not_or] at hj
    exact (h₂.coverage_eq j hj.2).trans (h₁.coverage_eq j (by simpa using hj.1))
  · intro j hj
    by_cases hjs : j ∈ is
    · exact h₂.covered j hjs
    · have hji : j = i := (List.mem_cons.mp hj).resolve_right hjs
      rw [Store.covered_congr (h₂.coverage_eq j hjs)]
      exact h₁.covered j (by simp [hji])
  · intro k
    rw [h₂.unavailable, h₁.unavailable]
    by_cases hk : k.1 ∈ is <;> by_cases hki : k.1 = i <;> simp [hk, hki]
  · intro id row
    rw [h₂.scans, h₁.scans]
    simp [and_assoc]
  · intro id row hrow hne n
    rw [List.mem_cons, not_or] at hne
    have hrow₁ : s₁.scans.get? id = some row :=
      (h₁.scans id row).mpr ⟨hrow, by simpa using hne.1⟩
    exact (h₂.scanWinners_eq id row hrow₁ hne.2 n).trans
      (h₁.scanWinners_eq id row hrow (by simpa using hne.1) n)
  · rw [h₂.blocks, h₁.blocks]
    by_cases hw : Indexable.winners ∈ is <;> by_cases hi : Indexable.winners = i <;> simp [hw, hi]
  · rw [h₂.participation, h₁.participation]
    by_cases hw : Indexable.participation ∈ is <;>
      by_cases hi : Indexable.participation = i <;> simp [hw, hi]
  · rw [h₂.authorshipBlocks, h₁.authorshipBlocks]
    by_cases hw : Indexable.authorship ∈ is <;>
      by_cases hi : Indexable.authorship = i <;> simp [hw, hi]
  · intro hd
    rw [List.mem_cons, not_or] at hd
    exact (h₂.difficulty_eq hd.2).trans (h₁.difficulty_eq (by simpa using hd.1))
  · intro hd k row hrow
    by_cases hds : Indexable.difficulty ∈ is
    · rw [← h₁.polls]
      exact h₂.difficulty_mem hds k row hrow
    · rw [h₂.difficulty_eq hds] at hrow
      have := (List.mem_cons.mp hd).resolve_right hds
      exact h₁.difficulty_mem (by simp [this]) k row hrow

/-- One turn of the loop over the domains. -/
theorem exec_reindexAll_cons {i : Indexable} {is : List Indexable} {s s' : Store}
    {gs : List GenerationGuard} (h : (reindexAll (i :: is)).exec s = .ok (gs, s')) :
    ∃ g s₁ rest, (reindexOne i).exec s = .ok (g, s₁) ∧ (reindexAll is).exec s₁ = .ok (rest, s') ∧
      gs = g :: rest := by
  unfold reindexAll at h
  obtain ⟨g, s₁, h₁, h⟩ := Tx.exec_bind_ok.mp h
  obtain ⟨rest, s₂, h₂, h⟩ := Tx.exec_bind_ok.mp h
  cases h
  exact ⟨g, s₁, rest, h₁, h₂, rfl⟩

theorem exec_reindexAll {is : List Indexable} {s s' : Store} {gs : List GenerationGuard}
    (hnodup : is.Nodup) (h : (reindexAll is).exec s = .ok (gs, s')) :
    gs = is.map (fun i => ⟨i, s.generation i + 1⟩) ∧ Reindexed is s s' := by
  induction is generalizing s gs with
  | nil =>
    cases h
    exact ⟨rfl, by constructor <;> simp⟩
  | cons i is ih =>
    obtain ⟨g, s₁, gs', h₁, h₂, rfl⟩ := exec_reindexAll_cons h
    rw [List.nodup_cons] at hnodup
    obtain ⟨rfl, -, hone⟩ := exec_reindexOne h₁
    obtain ⟨rfl, hrest⟩ := ih hnodup.2 h₂
    refine ⟨?_, hone.cons hnodup.1 hrest⟩
    rw [List.map_cons, List.cons.injEq]
    refine ⟨rfl, List.map_congr_left fun j hj => ?_⟩
    have hji : j ∉ [i] := by
      intro hji
      rw [List.mem_singleton.mp hji] at hj
      exact hnodup.1 hj
    rw [hone.generation, if_neg hji]

/-- **A reindex that succeeds reindexes exactly the named domains.** -/
theorem reindex_ok {indexables : List Indexable} {s s' : Store} {gs : List GenerationGuard}
    (h : reindex indexables s = (.ok gs, s')) :
    gs = (Indexable.all.filter (· ∈ indexables)).map (fun i => ⟨i, s.generation i + 1⟩) ∧
      Reindexed (Indexable.all.filter (· ∈ indexables)) s s' := by
  rcases Tx.write_ok.mp h with h | ⟨⟨t, h⟩, -⟩
  · obtain ⟨g, hbound, h⟩ := Tx.exec_readM_bind_ok.mp h
    obtain ⟨gs', s₁, h₁, h⟩ := Tx.exec_bind_ok.mp h
    cases h
    exact exec_reindexAll (List.Nodup.filter _ (by decide)) h₁
  · obtain ⟨g, hbound, h⟩ := Tx.exec_readM_bind_ok.mp h
    obtain ⟨gs', s₁, h₁, h⟩ := Tx.exec_bind_ok.mp h
    cases h

/-- What a reindex of some domains makes of the aggregates and of the difficulty rows. -/
structure ReindexedRows (is : List Indexable) (s s' : Store) : Prop where
  pg : s'.pg = s.pg
  nodeSummary : s'.nodeSummary = if .winners ∈ is then .empty else s.nodeSummary
  validatorAuthorship : s'.validatorAuthorship = s.validatorAuthorship
  authorshipCutover :
    s'.authorshipCutover = if .authorship ∈ is then none else s.authorshipCutover
  difficulty : s'.difficultyHistory =
    if .difficulty ∈ is then (restorePolls s).difficultyHistory else s.difficultyHistory
  polls : s'.pollDifficulty = s.pollDifficulty

theorem exec_reindexOne_rows {i : Indexable} {s s' : Store} {g : GenerationGuard}
    (h : (reindexOne i).exec s = .ok (g, s')) : ReindexedRows [i] s s' := by
  unfold reindexOne at h
  rw [Tx.exec_read_bind] at h
  split at h
  · cases h
  obtain ⟨old, -, h⟩ := Tx.exec_readM_bind_ok.mp h
  simp only [Tx.exec_update_bind] at h
  have hs : s' = cleared i (s.generation i + 1) old.start s :=
    (Prod.mk.inj (Except.ok.inj h)).2.symm
  rw [hs]
  cases i <;> exact ⟨rfl, rfl, rfl, rfl, rfl, rfl⟩

/-- Reindexing one domain after others. -/
theorem ReindexedRows.cons {i : Indexable} {is : List Indexable} {s s₁ s' : Store} (hi : i ∉ is)
    (h₁ : ReindexedRows [i] s s₁) (h₂ : ReindexedRows is s₁ s') :
    ReindexedRows (i :: is) s s' := by
  refine
    { pg := h₂.pg.trans h₁.pg
      nodeSummary := ?_
      validatorAuthorship := h₂.validatorAuthorship.trans h₁.validatorAuthorship
      authorshipCutover := ?_
      difficulty := ?_
      polls := h₂.polls.trans h₁.polls }
  · rw [h₂.nodeSummary, h₁.nodeSummary]
    by_cases hw : Indexable.winners ∈ is <;> by_cases hi : Indexable.winners = i <;> simp [hw, hi]
  · rw [h₂.authorshipCutover, h₁.authorshipCutover]
    by_cases hw : Indexable.authorship ∈ is <;>
      by_cases hi : Indexable.authorship = i <;> simp [hw, hi]
  · rw [h₂.difficulty]
    by_cases hd : Indexable.difficulty ∈ is
    · -- the polls are restored only once
      have hne : Indexable.difficulty ∉ [i] := fun h => hi (List.mem_singleton.mp h ▸ hd)
      have hsame : s₁.difficultyHistory = s.difficultyHistory := by rw [h₁.difficulty, if_neg hne]
      rw [if_pos hd, if_pos (List.mem_cons_of_mem _ hd), restorePolls, restorePolls]
      simp only [hsame, h₁.polls]
    · rw [if_neg hd, h₁.difficulty]
      simp [hd]

theorem exec_reindexAll_rows {is : List Indexable} {s s' : Store} {gs : List GenerationGuard}
    (hnodup : is.Nodup) (h : (reindexAll is).exec s = .ok (gs, s')) : ReindexedRows is s s' := by
  induction is generalizing s gs with
  | nil =>
    cases h
    exact ⟨rfl, rfl, rfl, rfl, rfl, rfl⟩
  | cons i is ih =>
    obtain ⟨g, s₁, gs', h₁, h₂, -⟩ := exec_reindexAll_cons h
    rw [List.nodup_cons] at hnodup
    exact (exec_reindexOne_rows h₁).cons hnodup.1 (ih hnodup.2 h₂)

theorem reindex_rows {indexables : List Indexable} {s s' : Store} {gs : List GenerationGuard}
    (h : reindex indexables s = (.ok gs, s')) :
    ReindexedRows (Indexable.all.filter (· ∈ indexables)) s s' := by
  rcases Tx.write_ok.mp h with h | ⟨⟨t, h⟩, -⟩
  · obtain ⟨g, hbound, h⟩ := Tx.exec_readM_bind_ok.mp h
    obtain ⟨gs', s₁, h₁, h⟩ := Tx.exec_bind_ok.mp h
    cases h
    exact exec_reindexAll_rows (List.Nodup.filter _ (by decide)) h₁
  · obtain ⟨g, hbound, h⟩ := Tx.exec_readM_bind_ok.mp h
    obtain ⟨gs', s₁, h₁, h⟩ := Tx.exec_bind_ok.mp h
    cases h

theorem reindex_error {indexables : List Indexable} {s s' : Store} {e : StoreError}
    (h : reindex indexables s = (.error e, s')) : s' = s :=
  Tx.write_error h

theorem mem_reindexed {indexables : List Indexable} {i : Indexable} :
    i ∈ Indexable.all.filter (· ∈ indexables) ↔ i ∈ indexables := by
  simp [Indexable.mem_all]

/-! ### Floors and targets -/

/-- `initialize_coverage`. -/
def initializeCoverage (i : Indexable) (expected start : ℕ) (s : Store) :
    Except StoreError CommitResult × Store :=
  Tx.write (do
    let _ ← Tx.readM Store.requireBound
    if ← Tx.read (Store.staleGeneration i expected) then return .abandon .staleGeneration
    else if ← Tx.read (fun s => (s.coverages.get? i).isSome) then return .abandon .alreadyApplied
    else
      let start ← Tx.ofExcept (height start)
      Tx.update fun s => ((), s.saveCoverage i (Coverage.empty expected start))
      return .commit .applied) s

/-- `set_pruned_floor`. -/
def setPrunedFloor (now : Timestamp) (guard : GenerationGuard) (floor : Option ℕ) (s : Store) :
    Except StoreError CommitResult × Store :=
  Tx.write (do
    let _ ← Tx.readM Store.requireBound
    if ← Tx.read (Store.staleGeneration guard.indexable guard.expected) then
      return .abandon .staleGeneration
    else
      let cov ← Tx.readM (·.coverage guard.indexable 0)
      let floor ← Tx.ofExcept (floor.mapM height)
      Tx.update fun s => ((), s.saveCoverage guard.indexable
        { cov with prunedFloor := floor, updatedAt := some now })
      return .commit .applied) s

/-- What `set_finalized_target` makes of the stored target: nothing, or an update. -/
def targetDecision (old : Option RetainedBlock) (target : RetainedBlock) :
    Except StoreError Bool :=
  match old with
  | none => .ok true
  | some old =>
    if old.height > u64Max then .error (.invalid "invalid target height")
    else
      match height target.height with
      | .error e => .error e
      | .ok n =>
        if old.height > n then .ok false
        else if old.height = n then
          if old.hash.text ≠ target.hash.text then .error (.conflictingHistory n) else .ok false
        else .ok true

/-- `set_finalized_target`. -/
def setFinalizedTarget (target : RetainedBlock) (s : Store) :
    Except StoreError CommitResult × Store :=
  Tx.write (do
    let _ ← Tx.readM Store.requireBound
    if ← Tx.readM (fun s => targetDecision s.finalizedTarget target) then
      Tx.update fun s => ((), { s with finalizedTarget := some target })
      return .commit .applied
    else return .abandon .alreadyApplied) s

/-- `committed_target`: whether a finalized target has a commit of a current generation,
whose identity is compared by its bytes. -/
def committedTarget (target : RetainedBlock) (s : Store) : Except StoreError Bool :=
  match s.finalized.get? target.height with
  | none => .ok false
  | some hash =>
    if !hash.sameBytes target.hash then .error (.conflictingHistory target.height)
    else do
      let n ← height target.height
      return [Indexable.winners, .difficulty, .participation, .authorship].any fun i =>
        (s.coverages.get? i).any fun cov => cov.gen = s.generation i && cov.contains n n

/-! ### Polled difficulty -/

/-- `same_poll_value`. -/
def samePollValue (prev next : DifficultyRecord) : Bool :=
  prev.difficultyEnergy = next.difficultyEnergy && prev.minDiversity = next.minDiversity
    && prev.minSolutions = next.minSolutions
    && sameHash? prev.topologyHash next.topologyHash

/-- The order of `observed_at`, whose stored texts are canonical. -/
def Timestamp.before : Timestamp → Timestamp → Bool
  | .utc a, .utc b => a < b
  | _, _ => false

/-- `ORDER BY observed_at DESC LIMIT 1` on the polled rows. -/
def latestPoll (s : Store) : Option DifficultyRecord :=
  (s.pollDifficulty.rows.map Prod.snd).foldl
    (fun best row => if best.all (·.observedAt.before row.observedAt) then some row else best) none

/-- `insert_difficulty_snapshot`: a poll that changes nothing is not recorded. -/
def insertDifficultySnapshot (d : DifficultyRecord) : Store → Except StoreError CommitResult × Store :=
  Tx.request
    (if d.source ≠ .poll then
      .error (.invalid "block difficulty requires a generation-guarded block commit") else .ok ())
    fun () => do
      let _ ← Tx.readM Store.requireBound
      let unchanged ← Tx.readM fun s =>
        match latestPoll s with
        | some row => (decodeDifficulty row).map (samePollValue · d)
        | none => .ok false
      if unchanged then return .commit .applied
      else
        let _ ← writeDifficulty d
        return .commit .applied

/-! ### Absence markers -/

/-- The domain that an absence reason belongs to. -/
def UnavailableReason.domain : UnavailableReason → Indexable
  | .missingRetainedNonce => .winners
  | .missingRetainedDifficulty => .difficulty

/-- The checks of `mark_unavailable` that need no database. -/
def UnavailableBlock.check (b : UnavailableBlock) : Except StoreError ℕ :=
  if b.guard.indexable ≠ b.reason.domain then
    .error (.invalid "unavailable reason does not match domain")
  else Dashboard.height b.height

/-- The marker row of an absent block. -/
def UnavailableBlock.row (b : UnavailableBlock) (now : Timestamp) (n : ℕ) : UnavailableRow :=
  ⟨b.hash, b.enrichmentAt, b.reason, now, if n = u64Max then none else some (n + 1)⟩

/-- The key of a marker. -/
def UnavailableBlock.key (b : UnavailableBlock) : Indexable × ℕ × ℕ :=
  (b.guard.indexable, b.guard.expected, b.height)

/-- The transaction of `mark_unavailable`. -/
def markUnavailableBody (now : Timestamp) (genesis : BlockHash) (b : UnavailableBlock) (n : ℕ) :
    StoreTx (Finish CommitResult) := do
  Tx.readM (·.network genesis)
  if ← Tx.read (Store.staleGeneration b.guard.indexable b.guard.expected) then
    return .abandon .staleGeneration
  else if ← Tx.read (conflictingHistory b.height b.hash) then
    Tx.fail (.conflictingHistory b.height)
  else
    let cov ← Tx.readM (·.coverage b.guard.indexable 0)
    if cov.contains n n then return .abandon .alreadyApplied
    else
      let changed ← Tx.update fun s =>
        let t := s.unavailable.upsert b.key (b.row now n) fun _ => none
        (t.1, { s with unavailable := t.2 })
      Tx.update fun s => ((), { s with finalized := s.finalized.insertNew b.height b.hash })
      return .commit (if changed > 0 then .applied else .alreadyApplied)

/-- `mark_unavailable`. -/
def markUnavailable (now : Timestamp) (genesis : BlockHash) (b : UnavailableBlock) :
    Store → Except StoreError CommitResult × Store :=
  Tx.request b.check (markUnavailableBody now genesis b)

/-! ### What the operations can do -/

theorem initializeCoverage_cases {i : Indexable} {expected start : ℕ} {s s' : Store}
    {r : Except StoreError CommitResult} (h : initializeCoverage i expected start s = (r, s')) :
    s' = s ∨ (r = .ok .applied ∧ s.generation i = expected ∧ s.coverages.get? i = none ∧
      start ≤ u64Max ∧ s' = s.saveCoverage i (Coverage.empty expected start)) := by
  cases r with
  | error e => exact .inl (Tx.write_error h)
  | ok r =>
    rcases Tx.write_ok.mp h with h | ⟨-, rfl⟩
    · obtain ⟨g, hbound, h⟩ := Tx.exec_readM_bind_ok.mp h
      rw [Tx.exec_read_bind] at h
      cases hstale : Store.staleGeneration i expected s with
      | true =>
        rw [hstale, if_pos rfl] at h
        cases h
      | false =>
        rw [hstale, if_neg Bool.false_ne_true, Tx.exec_read_bind] at h
        cases hget : s.coverages.get? i with
        | some cov =>
          simp only [hget, Option.isSome_some, if_true] at h
          cases h
        | none =>
          simp only [hget, Option.isSome_none, Bool.false_eq_true, if_false] at h
          obtain ⟨n, hn, h₁⟩ := Tx.exec_ofExcept_bind_ok.mp h
          obtain ⟨rfl, hle⟩ := height_ok hn
          cases h₁
          exact .inr ⟨rfl, Store.staleGeneration_eq_false.mp hstale, rfl, hle, rfl⟩
    · exact .inl rfl

theorem mapM_height {f f' : Option ℕ} (h : f.mapM height = .ok f') : f' = f := by
  cases f with
  | none => exact (Except.ok.inj h).symm
  | some n =>
    cases hn : height n with
    | error e => simp [hn, Functor.map, Except.map] at h
    | ok m =>
      simp only [Option.mapM_some, hn, Functor.map, Except.map, Except.ok.injEq] at h
      rw [← h, (height_ok hn).1]

/-- A call of `set_pruned_floor` writes the floor, or it is stale or fails. -/
theorem setPrunedFloor_outcome {now : Timestamp} {guard : GenerationGuard} {floor : Option ℕ}
    {s s' : Store} {r : Except StoreError CommitResult}
    (h : setPrunedFloor now guard floor s = (r, s')) :
    s' = s ∧ (r = .ok .staleGeneration ∨ ∃ e, r = .error e) ∨
      r = .ok .applied ∧ s.generation guard.indexable = guard.expected ∧
        ∃ cov, s.coverage guard.indexable 0 = .ok cov ∧
          s' = s.saveCoverage guard.indexable
            { cov with prunedFloor := floor, updatedAt := some now } := by
  cases r with
  | error e => exact .inl ⟨Tx.write_error h, .inr ⟨e, rfl⟩⟩
  | ok r =>
    rcases Tx.write_ok.mp h with h | ⟨⟨t, h⟩, rfl⟩
    all_goals
      obtain ⟨g, -, h⟩ := Tx.exec_readM_bind_ok.mp h
      rw [Tx.exec_read_bind] at h
      split at h
    · cases h
    · rename_i hcurrent
      obtain ⟨cov, hcov, h⟩ := Tx.exec_readM_bind_ok.mp h
      obtain ⟨f, hf, h⟩ := Tx.exec_ofExcept_bind_ok.mp h
      cases h
      rw [mapM_height hf]
      exact .inr ⟨rfl, Store.staleGeneration_eq_false.mp (Bool.eq_false_iff.mpr hcurrent), cov,
        hcov, rfl⟩
    · cases h
      exact .inl ⟨rfl, .inl rfl⟩
    · obtain ⟨cov, -, h⟩ := Tx.exec_readM_bind_ok.mp h
      obtain ⟨f, -, h⟩ := Tx.exec_ofExcept_bind_ok.mp h
      cases h

theorem setPrunedFloor_cases {now : Timestamp} {guard : GenerationGuard} {floor : Option ℕ}
    {s s' : Store} {r : Except StoreError CommitResult}
    (h : setPrunedFloor now guard floor s = (r, s')) :
    s' = s ∨ (r = .ok .applied ∧ s.generation guard.indexable = guard.expected ∧
      ∃ cov, s.coverage guard.indexable 0 = .ok cov ∧
        s' = s.saveCoverage guard.indexable
          { cov with prunedFloor := floor, updatedAt := some now }) :=
  (setPrunedFloor_outcome h).imp_left And.left

theorem setFinalizedTarget_cases {target : RetainedBlock} {s s' : Store}
    {r : Except StoreError CommitResult} (h : setFinalizedTarget target s = (r, s')) :
    s' = s ∨ (r = .ok .applied ∧ s' = { s with finalizedTarget := some target }) := by
  cases r with
  | error e => exact .inl (Tx.write_error h)
  | ok r =>
    rcases Tx.write_ok.mp h with h | ⟨-, rfl⟩
    · obtain ⟨g, hbound, h⟩ := Tx.exec_readM_bind_ok.mp h
      obtain ⟨new, hnew, h⟩ := Tx.exec_readM_bind_ok.mp h
      split at h
      · cases h
        exact .inr ⟨rfl, rfl⟩
      · cases h
    · exact .inl rfl

/-- **A polled snapshot fills heights without a row, with its own source.** -/
theorem insertDifficultySnapshot_cases {d : DifficultyRecord} {s s' : Store}
    {r : Except StoreError CommitResult} (h : insertDifficultySnapshot d s = (r, s')) :
    s' = s ∨ (r = .ok .applied ∧ d.source = .poll ∧ s' = { s with
      difficultyHistory := s.difficultyHistory.insertNew d.observedAtBlock d
      pollDifficulty := s.pollDifficulty.insertNew d.observedAtBlock d }) := by
  rcases Tx.request_cases h with ⟨rfl, e, rfl⟩ | ⟨rfl, n, a, t, -, -, rfl⟩ | ⟨n, a, hc, hx, rfl⟩
  · exact .inl rfl
  · exact .inl rfl
  · have hsource : d.source = .poll := by
      split at hc
      · cases hc
      · rename_i hp
        exact not_not.mp hp
    obtain ⟨g, hbound, h⟩ := Tx.exec_readM_bind_ok.mp hx
    obtain ⟨unchanged, hlatest, h⟩ := Tx.exec_readM_bind_ok.mp h
    cases unchanged with
    | true =>
      cases h
      exact .inl rfl
    | false =>
      obtain ⟨m, s₁, h₁, h⟩ := Tx.exec_bind_ok.mp h
      cases h
      exact .inr ⟨rfl, hsource, exec_writeDifficulty_poll hsource h₁⟩

/-- What an absence marker found, and what it left behind. -/
structure Marks (now : Timestamp) (genesis : BlockHash) (b : UnavailableBlock) (s s' : Store) :
    Prop where
  domain : b.guard.indexable = b.reason.domain
  height_le : b.height ≤ u64Max
  network : s.genesis = some genesis
  current : s.generation b.guard.indexable = b.guard.expected
  identity : ∀ h ∈ s.retainedHashes b.height, h = b.hash
  uncovered : b.height ∉ s.covered b.guard.indexable
  final : s' = { s with
    unavailable := s.unavailable.insertNew b.key (b.row now b.height)
    finalized := s.finalized.insertNew b.height b.hash }

theorem markUnavailableBody_cases {now : Timestamp} {genesis : BlockHash} {b : UnavailableBlock}
    {n : ℕ} {s s' : Store} {f : Finish CommitResult} (hb : b.check = .ok n)
    (h : (markUnavailableBody now genesis b n).exec s = .ok (f, s')) :
    s.genesis = some genesis ∧
    ((f = .abandon .staleGeneration ∧ s.generation b.guard.indexable ≠ b.guard.expected) ∨
     (s.generation b.guard.indexable = b.guard.expected ∧
      (∀ h ∈ s.retainedHashes b.height, h = b.hash) ∧
      ((f = .abandon .alreadyApplied ∧ b.height ∈ s.covered b.guard.indexable) ∨
       ∃ r, f = .commit r ∧ r ≠ .staleGeneration ∧ Marks now genesis b s s'))) := by
  unfold UnavailableBlock.check at hb
  split at hb
  · cases hb
  rename_i hdomain
  obtain ⟨rfl, hle⟩ := height_ok hb
  unfold markUnavailableBody at h
  obtain ⟨u, hnet, h⟩ := Tx.exec_readM_bind_ok.mp h
  refine ⟨Store.network_ok.mp hnet, ?_⟩
  rw [Tx.exec_read_bind] at h
  cases hstale : Store.staleGeneration b.guard.indexable b.guard.expected s with
  | true =>
    rw [hstale, if_pos rfl] at h
    cases h
    exact .inl ⟨rfl, Store.staleGeneration_eq_true.mp hstale⟩
  | false =>
    have hgen := Store.staleGeneration_eq_false.mp hstale
    rw [hstale, if_neg Bool.false_ne_true, Tx.exec_read_bind] at h
    -- another hash at the height stops the mark, and a covered height needs none
    cases hconf : conflictingHistory b.height b.hash s with
    | true =>
      rw [hconf, if_pos rfl] at h
      cases h
    | false =>
      have hid := conflictingHistory_eq_false.mp hconf
      rw [hconf, if_neg Bool.false_ne_true] at h
      refine .inr ⟨hgen, hid, ?_⟩
      obtain ⟨cov, hcov, h⟩ := Tx.exec_readM_bind_ok.mp h
      obtain ⟨-, -, hheights⟩ := Store.coverage_ok hcov
      split at h
      · rename_i hc
        cases h
        exact .inl ⟨rfl, hheights ▸ hc⟩
      · rename_i hc
        rw [Tx.exec_update_bind, Tx.exec_update_bind] at h
        cases h
        refine .inr ⟨_, rfl, by split <;> simp, ?_⟩
        exact ⟨by simpa using hdomain, hle, Store.network_ok.mp hnet, hgen, hid,
          fun hn => hc (by rw [← hheights] at hn; exact hn), rfl⟩

/-- **`mark_unavailable` stores a marker of the current generation and an identity,
for a height that is not covered.** -/
theorem markUnavailable_cases {now : Timestamp} {genesis : BlockHash} {b : UnavailableBlock}
    {s s' : Store} {r : Except StoreError CommitResult}
    (h : markUnavailable now genesis b s = (r, s')) :
    s' = s ∨ (∃ a, r = .ok a ∧ a ≠ .staleGeneration) ∧ Marks now genesis b s s' := by
  rcases Tx.request_cases h with ⟨rfl, e, rfl⟩ | ⟨rfl, n, a, t, -, -, rfl⟩ | ⟨n, a, hc, hx, rfl⟩
  · exact .inl rfl
  · exact .inl rfl
  · obtain ⟨-, ⟨hf, -⟩ | ⟨-, -, ⟨hf, -⟩ | ⟨r, hf, hr, hm⟩⟩⟩ := markUnavailableBody_cases hc hx
    · cases hf
    · cases hf
    · cases hf
      exact .inr ⟨⟨a, rfl, hr⟩, hm⟩

end Dashboard

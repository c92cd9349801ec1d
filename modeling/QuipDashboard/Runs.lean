/-
Runs of the store under any sequence of calls.

An `Op` is a call of one of the indexer's store operations, with any arguments; a
`StoreRun` is a run of calls from an empty bound store, each of which succeeds or
fails, and a `CutoverRun` one from any legacy rows and any facts.

* `apply_generation` — a generation changes only by a successful reindex, by one;
* `CutoverRun.canonical` — every persisted coverage stays readable;
* `StoreRun.bound` — the store stays bound to its genesis.
-/
import QuipDashboard.Scans
import QuipDashboard.Domains
import QuipDashboard.History
import QuipDashboard.ServedAuthorship

namespace Dashboard

/-- A call of a store operation. -/
inductive Op where
  | beginScan (scan : Scan)
  | appendScanPage (id : ScanId) (expectedCursor nextCursor : Option (List UInt8))
      (heights : List ℕ)
  | commitBlock (batch : BlockCommit)
  | commitRange (range : RangeCompletion)
  | markUnavailable (genesis : BlockHash) (block : UnavailableBlock)
  | setFinalizedTarget (target : RetainedBlock)
  | setPrunedFloor (guard : GenerationGuard) (floor : Option ℕ)
  | initializeCoverage (indexable : Indexable) (expected start : ℕ)
  | reindex (indexables : List Indexable)
  | insertDifficultySnapshot (difficulty : DifficultyRecord)
  | tryAuthorshipCutover
  | recomputeAuthorshipSummary

/-- The outcome of a call and the store after it; a successful reindex, cutover call or
recomputation counts as applied. -/
def Op.apply (now : Timestamp) : Op → Store → Except StoreError CommitResult × Store
  | .beginScan scan, s => Dashboard.beginScan scan s
  | .appendScanPage id expected next heights, s => Dashboard.appendScanPage id expected next heights s
  | .commitBlock batch, s => Dashboard.commitBlock now batch s
  | .commitRange range, s => Dashboard.commitRange now range s
  | .markUnavailable genesis block, s => Dashboard.markUnavailable now genesis block s
  | .setFinalizedTarget target, s => Dashboard.setFinalizedTarget target s
  | .setPrunedFloor guard floor, s => Dashboard.setPrunedFloor now guard floor s
  | .initializeCoverage i expected start, s => Dashboard.initializeCoverage i expected start s
  | .reindex indexables, s =>
    let (r, s') := Dashboard.reindex indexables s
    (r.map fun _ => .applied, s')
  | .insertDifficultySnapshot d, s => Dashboard.insertDifficultySnapshot d s
  | .tryAuthorshipCutover, s =>
    let (r, s') := Dashboard.tryAuthorshipCutover s
    (r.map fun _ => .applied, s')
  | .recomputeAuthorshipSummary, s =>
    let (r, s') := Dashboard.recomputeAuthorshipSummary s
    (r.map fun _ => .applied, s')

/-- One call of a run. -/
structure Call where
  now : Timestamp
  op : Op
  pre : Store
  outcome : Except StoreError CommitResult
  post : Store

/-- The call of an operation at a store. -/
inductive Calls : Store → Call → Store → Prop
  | call (now : Timestamp) (op : Op) (s : Store) :
      Calls s ⟨now, op, s, (op.apply now s).1, (op.apply now s).2⟩ (op.apply now s).2

/-- The calls that reindexed a domain. -/
def Call.reindexed (i : Indexable) (c : Call) : Prop :=
  ∃ is, c.op = .reindex is ∧ i ∈ is ∧ c.outcome = .ok .applied

instance (i : Indexable) : DecidablePred (Call.reindexed i) := fun c =>
  match h : c.op with
  | .reindex is =>
    if hi : i ∈ is ∧ c.outcome = .ok .applied then .isTrue ⟨is, h, hi⟩
    else .isFalse fun ⟨js, hjs, hj⟩ => hi (by rw [h] at hjs; cases hjs; exact hj)
  | .beginScan _ | .appendScanPage .. | .commitBlock _ | .commitRange _ | .markUnavailable ..
  | .setFinalizedTarget _ | .setPrunedFloor .. | .initializeCoverage ..
  | .insertDifficultySnapshot _ | .tryAuthorshipCutover | .recomputeAuthorshipSummary =>
    .isFalse fun ⟨js, hjs, _⟩ => by rw [h] at hjs; cases hjs

/-- A run of calls from an empty store that is bound to `genesis`. -/
def StoreRun (pg : Bool) (genesis : BlockHash) : List Call → Store → Prop :=
  History.Run Calls (Store.bound pg genesis)

/-- A bound store with these legacy rows and these facts, before any cutover. -/
def Store.legacy (pg : Bool) (genesis : BlockHash)
    (rows : KeyedTable String ValidatorAuthorshipRecord)
    (facts : KeyedTable (String × ℕ) AuthorshipFact) : Store :=
  { Store.bound pg genesis with validatorAuthorship := rows, authorshipBlocks := facts }

/-- A run of calls from any legacy rows and any facts. -/
def CutoverRun (pg : Bool) (genesis : BlockHash)
    (rows : KeyedTable String ValidatorAuthorshipRecord)
    (facts : KeyedTable (String × ℕ) AuthorshipFact) : List Call → Store → Prop :=
  History.Run Calls (Store.legacy pg genesis rows facts)

/-- The calls since the last reindex of a domain. -/
def sinceReindex (i : Indexable) (cs : List Call) : List Call := History.since (Call.reindexed i) cs

/-! ### What a call can do -/

/-- All that a call of an operation can do to the store. -/
inductive Effect (now : Timestamp) : Op → Store → Except StoreError CommitResult → Store → Prop
  | unchanged {op : Op} {r : Except StoreError CommitResult} (s : Store)
      (hr : ∀ is, op = .reindex is → r ≠ .ok .applied) : Effect now op s r s
  | began {scan : Scan} {s : Store} (network : s.genesis = some scan.genesis)
      (current : s.generation scan.indexable = scan.expectedGeneration)
      (fresh : s.scans.get? scan.id = none) :
      Effect now (.beginScan scan) s (.ok .applied)
        { s with scans := s.scans.put scan.id scan.row }
  | appended {id : ScanId} {expected next : Option (List UInt8)} {heights : List ℕ} {row : ScanRow}
      {s s' : Store} (cursor : row.cursor = expected) (h : Appends id next heights row s s') :
      Effect now (.appendScanPage id expected next heights) s (.ok .applied) s'
  | committed {b : BlockCommit} {r : CommitResult} {s s' : Store} (h : Commits b s r s') :
      Effect now (.commitBlock b) s (.ok r) s'
  | ranged {r : RangeCompletion} {s s' : Store} (h : RangeCommits r s s') :
      Effect now (.commitRange r) s (.ok .applied) s'
  | marked {genesis : BlockHash} {b : UnavailableBlock} {a : CommitResult} {s s' : Store}
      (ha : a ≠ .staleGeneration) (h : Marks now genesis b s s') :
      Effect now (.markUnavailable genesis b) s (.ok a) s'
  | targeted (target : RetainedBlock) (s : Store) :
      Effect now (.setFinalizedTarget target) s (.ok .applied)
        { s with finalizedTarget := some target }
  | floored {guard : GenerationGuard} {floor : Option ℕ} {cov : Coverage} {s : Store}
      (current : s.generation guard.indexable = guard.expected)
      (h : s.coverage guard.indexable 0 = .ok cov) :
      Effect now (.setPrunedFloor guard floor) s (.ok .applied)
        (s.saveCoverage guard.indexable { cov with prunedFloor := floor, updatedAt := some now })
  | initialized {i : Indexable} {expected start : ℕ} {s : Store}
      (current : s.generation i = expected) (none : s.coverages.get? i = none)
      (hle : start ≤ u64Max) :
      Effect now (.initializeCoverage i expected start) s (.ok .applied)
        (s.saveCoverage i (Coverage.empty expected start))
  | reindexed {is : List Indexable} {s s' : Store}
      (h : Reindexed (Indexable.all.filter (· ∈ is)) s s') :
      Effect now (.reindex is) s (.ok .applied) s'
  | polled {d : DifficultyRecord} (s : Store) (source : d.source = .poll) :
      Effect now (.insertDifficultySnapshot d) s (.ok .applied) { s with
        difficultyHistory := s.difficultyHistory.insertNew d.observedAtBlock d
        pollDifficulty := s.pollDifficulty.insertNew d.observedAtBlock d }
  | cutOver {items : List ValidatorAuthorshipRecord} {s : Store}
      (before : s.authorshipCutover ≠ some "1") (h : fresh s.pg s.authorshipBlocks = .ok items)
      (reached : behind items s = false) :
      Effect now .tryAuthorshipCutover s (.ok .applied) { s with
        validatorAuthorship := s.validatorAuthorship.putAll (items.map fun i => (i.accountId, i))
        authorshipCutover := some "1" }
  | recomputed {items : List ValidatorAuthorshipRecord} {s : Store}
      (h : fresh s.pg s.authorshipBlocks = .ok items) :
      Effect now .recomputeAuthorshipSummary s (.ok .applied) { s with
        validatorAuthorship := s.validatorAuthorship.putAll (items.map fun i => (i.accountId, i)) }

/-- **A call has no effect but these.** -/
theorem apply_effect (now : Timestamp) (op : Op) (s : Store) :
    Effect now op s (op.apply now s).1 (op.apply now s).2 := by
  cases h : op.apply now s with
  | mk r s' =>
  show Effect now op s r s'
  cases op with
  | beginScan scan =>
    rcases beginScan_cases h with ⟨rfl, -⟩ | ⟨rfl, hnet, hgen, hnone, rfl⟩
    · exact .unchanged _ fun _ h => nomatch h
    · exact .began hnet hgen hnone
  | appendScanPage id expected next heights =>
    rcases appendScanPage_cases h with ⟨rfl, -⟩ | ⟨rfl, row, hcursor, happ⟩
    · exact .unchanged _ fun _ h => nomatch h
    · exact .appended hcursor happ
  | commitBlock b =>
    rcases commitBlock_cases h with ⟨rfl, -⟩ | ⟨r, rfl, hc⟩
    · exact .unchanged _ fun _ h => nomatch h
    · exact .committed hc
  | commitRange r =>
    rcases commitRange_cases h with ⟨rfl, -⟩ | ⟨a, rfl, hr, rfl | ⟨rfl, rfl⟩⟩
    · exact .unchanged _ fun _ h => nomatch h
    · exact .ranged hr
    · exact .unchanged _ fun _ h => nomatch h
  | markUnavailable genesis b =>
    rcases markUnavailable_cases h with rfl | ⟨⟨a, rfl, ha⟩, hm⟩
    · exact .unchanged _ fun _ h => nomatch h
    · exact .marked ha hm
  | setFinalizedTarget target =>
    rcases setFinalizedTarget_cases h with rfl | ⟨rfl, rfl⟩
    · exact .unchanged _ fun _ h => nomatch h
    · exact .targeted ..
  | setPrunedFloor guard floor =>
    rcases setPrunedFloor_cases h with rfl | ⟨rfl, hgen, cov, hcov, rfl⟩
    · exact .unchanged _ fun _ h => nomatch h
    · exact .floored hgen hcov
  | initializeCoverage i expected start =>
    rcases initializeCoverage_cases h with rfl | ⟨rfl, hgen, hnone, hle, rfl⟩
    · exact .unchanged _ fun _ h => nomatch h
    · exact .initialized hgen hnone hle
  | reindex is =>
    obtain ⟨q, hq⟩ : ∃ q, reindex is s = q := ⟨_, rfl⟩
    rw [Op.apply, hq] at h
    obtain ⟨gs | gs, s₁⟩ := q
    · cases h
      rw [reindex_error hq]
      exact .unchanged _ fun _ _ => nofun
    · cases h
      exact .reindexed (reindex_ok hq).2
  | insertDifficultySnapshot d =>
    rcases insertDifficultySnapshot_cases h with rfl | ⟨rfl, hsource, rfl⟩
    · exact .unchanged _ fun _ h => nomatch h
    · exact .polled s hsource
  | tryAuthorshipCutover =>
    obtain ⟨q, hq⟩ : ∃ q, Dashboard.tryAuthorshipCutover s = q := ⟨_, rfl⟩
    rw [Op.apply, hq] at h
    cases h
    rcases tryAuthorshipCutover_cases hq with ⟨hsame, -⟩ | ⟨hr, hc, items, hfresh, hb, hs'⟩
    · rw [hsame]
      exact .unchanged _ fun _ h => nomatch h
    · rw [hr, hs']
      exact .cutOver hc hfresh hb
  | recomputeAuthorshipSummary =>
    obtain ⟨q, hq⟩ : ∃ q, Dashboard.recomputeAuthorshipSummary s = q := ⟨_, rfl⟩
    rw [Op.apply, hq] at h
    cases h
    rcases recomputeAuthorshipSummary_cases hq with hsame | ⟨hr, items, hfresh, hs'⟩
    · rw [hsame]
      exact .unchanged _ fun _ h => nomatch h
    · rw [hr, hs']
      exact .recomputed hfresh

/-- A call is an effect on the store that it found. -/
theorem Calls.effect {s s' : Store} {c : Call} (h : Calls s c s') :
    c.pre = s ∧ c.post = s' ∧ Effect c.now c.op s c.outcome s' := by
  cases h with
  | call now op s => exact ⟨rfl, rfl, apply_effect now op s⟩

/-- The rows that only block commits and reindexes write. -/
structure SameRows (s s' : Store) : Prop where
  pg : s'.pg = s.pg
  blocks : s'.blocks = s.blocks
  nodeSummary : s'.nodeSummary = s.nodeSummary
  participation : s'.participation = s.participation
  authorshipBlocks : s'.authorshipBlocks = s.authorshipBlocks

/-- **Only block commits and reindexes write the rows of the domains**, polled difficulty
apart. -/
theorem Effect.sameRows {now : Timestamp} {op : Op} {s s' : Store}
    {r : Except StoreError CommitResult} (h : Effect now op s r s')
    (hcommit : ∀ b, op ≠ .commitBlock b) (hreindex : ∀ is, op ≠ .reindex is) : SameRows s s' := by
  cases h with
  | unchanged | began | targeted | floored | initialized | polled | cutOver | recomputed =>
    exact ⟨rfl, rfl, rfl, rfl, rfl⟩
  | appended _ h =>
    rw [h.final]
    exact ⟨rfl, rfl, rfl, rfl, rfl⟩
  | ranged h =>
    rw [h.frame]
    exact ⟨rfl, rfl, rfl, rfl, rfl⟩
  | marked _ h =>
    rw [h.final]
    exact ⟨rfl, rfl, rfl, rfl, rfl⟩
  | committed => exact absurd rfl (hcommit _)
  | reindexed => exact absurd rfl (hreindex _)

theorem Effect.sameDifficulty {now : Timestamp} {op : Op} {s s' : Store}
    {r : Except StoreError CommitResult} (h : Effect now op s r s')
    (hcommit : ∀ b, op ≠ .commitBlock b) (hreindex : ∀ is, op ≠ .reindex is)
    (hpoll : ∀ d, op ≠ .insertDifficultySnapshot d) :
    s'.difficultyHistory = s.difficultyHistory ∧ s'.pollDifficulty = s.pollDifficulty := by
  cases h with
  | unchanged | began | targeted | floored | initialized | cutOver | recomputed => exact ⟨rfl, rfl⟩
  | appended _ h =>
    rw [h.final]
    exact ⟨rfl, rfl⟩
  | ranged h =>
    rw [h.frame]
    exact ⟨rfl, rfl⟩
  | marked _ h =>
    rw [h.final]
    exact ⟨rfl, rfl⟩
  | committed => exact absurd rfl (hcommit _)
  | reindexed => exact absurd rfl (hreindex _)
  | polled => exact absurd rfl (hpoll _)

/-- **Beside block commits and reindexes, only a cutover and a recomputation write the
counters of the validators.** -/
theorem Effect.sameAuthorship {now : Timestamp} {op : Op} {s s' : Store}
    {r : Except StoreError CommitResult} (h : Effect now op s r s')
    (hcommit : ∀ b, op ≠ .commitBlock b) (hreindex : ∀ is, op ≠ .reindex is)
    (hcutover : op ≠ .tryAuthorshipCutover) (hrecompute : op ≠ .recomputeAuthorshipSummary) :
    s'.validatorAuthorship = s.validatorAuthorship ∧
      s'.authorshipCutover = s.authorshipCutover := by
  cases h with
  | unchanged | began | targeted | floored | initialized | polled => exact ⟨rfl, rfl⟩
  | appended _ h =>
    rw [h.final]
    exact ⟨rfl, rfl⟩
  | ranged h =>
    rw [h.frame]
    exact ⟨rfl, rfl⟩
  | marked _ h =>
    rw [h.final]
    exact ⟨rfl, rfl⟩
  | committed => exact absurd rfl (hcommit _)
  | reindexed => exact absurd rfl (hreindex _)
  | cutOver => exact absurd rfl hcutover
  | recomputed => exact absurd rfl hrecompute

/-! ### Coverage, generations and the network -/

/-- **Only commits cover heights**: a block commit its own height, or a range
commit a height of its range. -/
theorem Effect.covered {now : Timestamp} {op : Op} {s s' : Store}
    {r : Except StoreError CommitResult} (h : Effect now op s r s') {i : Indexable} {n : ℕ}
    (hn : n ∈ s'.covered i) (hs : n ∉ s.covered i) :
    r = .ok .applied ∧
      ((∃ b, op = .commitBlock b ∧ Commits b s .applied s' ∧ i ∈ b.completed ∧ n = b.height) ∨
        ∃ r, op = .commitRange r ∧ RangeCommits r s s' ∧ r.indexable = i ∧
          n ∈ Set.Icc r.from_ r.through) := by
  cases h with
  | unchanged => exact absurd hn hs
  | began => exact absurd hn hs
  | appended _ h =>
    rw [h.final] at hn
    exact absurd hn hs
  -- a commit covers its own height, in the domains that it completes
  | @committed b _ _ _ hc =>
    by_cases hi : i ∈ b.completed
    · rcases hc.result with rfl | rfl
      · rw [hc.covered_eq i hi] at hn
        exact ⟨rfl, .inl ⟨b, rfl, hc, hi, hn.resolve_left hs⟩⟩
      · have hsame : s'.covered i = s.covered i :=
          Store.covered_congr (congrArg (·.get? i) (hc.already rfl))
        exact absurd (hsame ▸ hn) hs
    · rw [Store.covered_congr (hc.coverage_eq i hi)] at hn
      exact absurd hn hs
  -- a range covers its heights in its own domain
  | @ranged r _ _ hr =>
    by_cases hi : i = r.indexable
    · subst hi
      rw [hr.covered] at hn
      exact ⟨rfl, .inr ⟨r, rfl, hr, rfl, hn.resolve_left hs⟩⟩
    · rw [Store.covered_congr (hr.coverage_eq i hi)] at hn
      exact absurd hn hs
  | marked _ h =>
    rw [h.final] at hn
    exact absurd hn hs
  | targeted | polled | cutOver | recomputed => exact absurd hn hs
  | @floored guard floor cov _ hgen hcov =>
    rw [Store.covered_saveCoverage, Coverage.heights_with, (Store.coverage_ok hcov).2.2] at hn
    by_cases hi : i = guard.indexable
    · subst hi
      exact absurd (by simpa using hn) hs
    · exact absurd (by simpa [hi] using hn) hs
  | @initialized j expected start _ hgen hnone =>
    rw [Store.covered_saveCoverage, Coverage.heights_empty] at hn
    by_cases hi : i = j
    · simp [hi] at hn
    · exact absurd (by simpa [hi] using hn) hs
  -- a reindex leaves nothing covered in its domains
  | @reindexed is _ _ h =>
    by_cases hi : i ∈ is
    · rw [h.covered i (mem_reindexed.mpr hi)] at hn
      exact absurd hn (Set.notMem_empty n)
    · rw [Store.covered_congr (h.coverage_eq i (mt mem_reindexed.mp hi))] at hn
      exact absurd hn hs

/-- **Markers, targets and floors leave the covered heights alone.** -/
theorem Effect.covered_eq {now : Timestamp} {op : Op} {s s' : Store}
    {r : Except StoreError CommitResult} (h : Effect now op s r s')
    (hop : (∃ genesis b, op = .markUnavailable genesis b) ∨ (∃ t, op = .setFinalizedTarget t) ∨
      ∃ guard floor, op = .setPrunedFloor guard floor) (i : Indexable) :
    s'.covered i = s.covered i := by
  cases h with
  | unchanged => rfl
  | marked _ h => rw [h.final]; rfl
  | targeted => rfl
  | @floored guard floor cov _ hgen hcov =>
    rw [Store.covered_saveCoverage, Coverage.heights_with, (Store.coverage_ok hcov).2.2]
    by_cases hi : i = guard.indexable <;> simp [hi]
  | began | appended | committed | ranged | initialized | reindexed | polled | cutOver
  | recomputed => simp at hop

/-- A call that reindexed some domains. -/
theorem Effect.reindex {now : Timestamp} {is : List Indexable} {s s' : Store}
    (h : Effect now (.reindex is) s (.ok .applied) s') :
    Reindexed (Indexable.all.filter (· ∈ is)) s s' := by
  cases h with
  | unchanged _ hr => exact absurd rfl (hr is rfl)
  | reindexed h => exact h

/-- Whether a call reindexed a domain, and what becomes of its generation. -/
theorem Effect.generation {now : Timestamp} {op : Op} {s s' : Store}
    {r : Except StoreError CommitResult} (h : Effect now op s r s') (i : Indexable) :
    ((∃ is, op = .reindex is ∧ i ∈ is ∧ r = .ok .applied) ∧ s'.generation i = s.generation i + 1) ∨
      (¬(∃ is, op = .reindex is ∧ i ∈ is ∧ r = .ok .applied) ∧ s'.generation i = s.generation i) := by
  have hgen : ∀ {s₁ : Store}, s₁.generations = s.generations → s₁.generation i = s.generation i := by
    intro s₁ h
    rw [Store.generation, Store.generation, h]
  have hother : ∀ {op : Op} {r : Except StoreError CommitResult}, (∀ is, op ≠ .reindex is) →
      ¬∃ is, op = .reindex is ∧ i ∈ is ∧ r = .ok .applied := by
    rintro op r hne ⟨is, h, -⟩
    exact hne is h
  cases h with
  | unchanged _ hr =>
    refine .inr ⟨?_, rfl⟩
    rintro ⟨is, h, -, hr'⟩
    exact hr is h hr'
  | reindexed h =>
    rename_i is
    rw [h.generation]
    by_cases hi : i ∈ is
    · exact .inl ⟨⟨is, rfl, hi, rfl⟩, if_pos (mem_reindexed.mpr hi)⟩
    · refine .inr ⟨?_, if_neg (mt mem_reindexed.mp hi)⟩
      rintro ⟨js, hjs, hj, -⟩
      cases hjs
      exact hi hj
  | appended _ h => exact .inr ⟨hother (fun _ h => by cases h), hgen (by rw [h.final])⟩
  | committed h => exact .inr ⟨hother (fun _ h => by cases h), hgen h.frame.2.2.1⟩
  | ranged h => exact .inr ⟨hother (fun _ h => by cases h), hgen (by rw [h.frame])⟩
  | marked _ h => exact .inr ⟨hother (fun _ h => by cases h), hgen (by rw [h.final])⟩
  | began | targeted | floored | initialized | polled | cutOver | recomputed =>
    exact .inr ⟨hother (fun _ h => by cases h), rfl⟩

theorem Effect.genesis {now : Timestamp} {op : Op} {s s' : Store}
    {r : Except StoreError CommitResult} (h : Effect now op s r s') : s'.genesis = s.genesis := by
  cases h with
  | unchanged | began | targeted | floored | initialized | polled | cutOver | recomputed => rfl
  | appended _ h => rw [h.final]
  | committed h => exact h.frame.2.1
  | ranged h => rw [h.frame]
  | marked _ h => rw [h.final]
  | reindexed h => exact h.network.1

/-- Every call keeps the persisted coverages readable. -/
theorem Effect.canonical {now : Timestamp} {op : Op} {s s' : Store}
    {r : Except StoreError CommitResult} (h : Effect now op s r s') (hs : s.Canonical) :
    s'.Canonical := by
  have hkeep : ∀ {s₁ : Store}, s₁.coverages = s.coverages → s₁.generations = s.generations →
      s₁.Canonical := by
    intro s₁ hc hg i cov hget
    rw [hc] at hget
    rw [Store.generation, hg]
    exact hs i cov hget
  have hsave : ∀ (i : Indexable) (cov : Coverage), cov.Canonical (s.generation i) →
      (s.saveCoverage i cov).Canonical := by
    intro i cov hcov j c hget
    rw [Store.saveCoverage, KeyedTable.get?_put] at hget
    split at hget
    · rename_i hj
      cases hget
      exact hj ▸ hcov
    · exact hs j c hget
  cases h with
  | unchanged => exact hs
  | began | targeted | polled | cutOver | recomputed => exact hkeep rfl rfl
  | appended _ h => exact hkeep (by rw [h.final]) (by rw [h.final])
  | committed h => exact h.canonical hs
  | ranged h => exact h.canonical hs
  | marked _ h => exact hkeep (by rw [h.final]) (by rw [h.final])
  | @floored guard floor cov _ hgen hcov =>
    exact hsave _ _ ((Store.coverage_canonical hs hcov).withFloor _ _)
  | @initialized i expected start _ hgen =>
    exact hsave _ _ (hgen ▸ Coverage.canonical_empty _ _)
  | reindexed h => exact h.canonical hs

/-! ### Runs -/

theorem Store.legacy_canonical (pg : Bool) (genesis : BlockHash)
    (rows : KeyedTable String ValidatorAuthorshipRecord)
    (facts : KeyedTable (String × ℕ) AuthorshipFact) :
    (Store.legacy pg genesis rows facts).Canonical := by
  intro i cov h
  cases h

theorem Store.bound_canonical (pg : Bool) (genesis : BlockHash) :
    (Store.bound pg genesis).Canonical := Store.legacy_canonical pg genesis .empty .empty

/-- **Every coverage of a reachable store is canonical in its domain's generation**, whatever
legacy rows and facts the store began with. -/
theorem CutoverRun.canonical {pg : Bool} {genesis : BlockHash}
    {rows : KeyedTable String ValidatorAuthorshipRecord}
    {facts : KeyedTable (String × ℕ) AuthorshipFact} {cs : List Call} {s : Store}
    (h : CutoverRun pg genesis rows facts cs s) : s.Canonical :=
  h.invariant (Store.legacy_canonical pg genesis rows facts)
    fun hs hstep => hstep.effect.2.2.canonical hs

/-- A run from an empty store is one without legacy rows and facts. -/
theorem StoreRun.cutoverRun {pg : Bool} {genesis : BlockHash} {cs : List Call} {s : Store}
    (h : StoreRun pg genesis cs s) : CutoverRun pg genesis .empty .empty cs s := h

theorem StoreRun.canonical {pg : Bool} {genesis : BlockHash} {cs : List Call} {s : Store}
    (h : StoreRun pg genesis cs s) : s.Canonical :=
  h.cutoverRun.canonical

/-- A reachable store is bound to the genesis that it started with. -/
theorem StoreRun.genesis {pg : Bool} {genesis : BlockHash} {cs : List Call} {s : Store}
    (h : StoreRun pg genesis cs s) : s.genesis = some genesis :=
  h.invariant (I := fun s => s.genesis = some genesis) rfl
    fun hs hstep => hstep.effect.2.2.genesis.trans hs

end Dashboard

/-
The atomic commit of one finalized block.

The model of `commit_block` in `dashboard-store/src/coverage.rs`: the guards are
checked before the transaction, the network, the generations, the retained
identity and the provenance inside of it, and then records and coverage are
written together.

* `Commits` — what a commit that reached its `COMMIT` found and left behind;
* `commitBlock_cases` — **every call fails and changes nothing, is stale and
  changes nothing, or `Commits`**.
-/
import QuipDashboard.Blocks
import QuipDashboard.Authorship

namespace Dashboard

/-- The domains that a batch touches: completed, or with a record. -/
def BlockCommit.affected (b : BlockCommit) : List Indexable :=
  b.completed
    ++ (if b.records.winner.isSome then [.winners] else [])
    ++ (if b.records.difficulty.isSome then [.difficulty] else [])
    ++ (if b.records.authorship.isSome then [.authorship] else [])
    ++ (if b.records.participation ≠ [] then [.participation] else [])

/-- The checks of `commit_block` that need no database: its height as `u64`. -/
def BlockCommit.check (b : BlockCommit) : Except StoreError ℕ :=
  if ¬(b.guards.map GenerationGuard.indexable).Nodup then
    .error (.invalid "duplicate generation guard")
  else if b.affected = [] ∨ b.affected.any (· ∉ b.guards.map GenerationGuard.indexable) then
    .error (.invalid "every record and completion requires a guard")
  else Dashboard.height b.height

theorem BlockCommit.mem_affected {b : BlockCommit} {i : Indexable} :
    i ∈ b.affected ↔ i ∈ b.completed ∨ (b.records.winner.isSome ∧ i = .winners) ∨
      (b.records.difficulty.isSome ∧ i = .difficulty) ∨
      (b.records.authorship.isSome ∧ i = .authorship) ∨
      (b.records.participation ≠ [] ∧ i = .participation) := by
  have hite : ∀ (p : Prop) [Decidable p] (j : Indexable),
      (i ∈ if p then [j] else []) ↔ p ∧ i = j := by
    intro p _ j
    split <;> simp [*]
  simp only [BlockCommit.affected, List.mem_append, hite, or_assoc]

/-- Whether one of the guards is of another generation than its domain. -/
def staleGuards (guards : List GenerationGuard) (s : Store) : Bool :=
  guards.any fun g => s.generation g.indexable ≠ g.expected

/-- Whether a retained hash of the height is spelled otherwise than `hash`. -/
def conflictingHistory (height : ℕ) (hash : BlockHash) (s : Store) : Bool :=
  (s.retainedHashes height).any fun h => h.text ≠ hash.text

/-- The provenance checks on the records, before any domain changes. -/
def BlockCommit.provenance (b : BlockCommit) : Except StoreError Unit :=
  if b.records.winner.any fun w =>
      w.substrateBlockNumber ≠ b.height || !w.substrateBlockHash.sameBytes b.hash || !w.finalized then
    .error (.invalid "winner provenance does not match finalized commit")
  else if b.records.difficulty.any fun d => d.observedAtBlock ≠ b.height || d.source ≠ .block then
    .error (.invalid "difficulty provenance does not match commit")
  else if b.records.authorship.any fun a => a.blockNumber ≠ b.height then
    .error (.invalid "authorship height does not match commit")
  else .ok ()

/-- One optional record of a batch: whether it wrote a row. -/
def writeRecord {ρ : Type} (write : ρ → StoreTx ℕ) : Option ρ → StoreTx Bool
  | none => return false
  | some r => do
    let n ← write r
    return n > 0

/-- Complete one domain at a height. -/
def complete (now : Timestamp) (n : ℕ) (i : Indexable) : StoreTx Bool := do
  let cov ← Tx.readM (·.coverage i (if i = .authorship then n else 0))
  let (new, cov) ← Tx.ofExcept (cov.cover now n n)
  if new then Tx.update fun s => (true, s.saveCoverage i cov)
  else return false

/-- The completion loop of `commit_block`: whether a coverage changed. -/
def completeAll (now : Timestamp) (n : ℕ) : List Indexable → StoreTx Bool
  | [] => return false
  | i :: is => do
    let new ← complete now n i
    let changed ← completeAll now n is
    return new || changed

/-- The aggregate follows new facts once the cutover replaced the legacy floor. -/
def recomputeAfterCutover (authorship : Option AuthorshipRecord) : StoreTx Unit := do
  if (← Tx.read fun s => authorship.isSome && s.authorshipCutover = some "1") then recompute
  else return

/-- The transaction of `commit_block`. -/
def commitBody (now : Timestamp) (b : BlockCommit) (n : ℕ) : StoreTx (Finish CommitResult) := do
  Tx.readM (·.network b.genesis)
  if ← Tx.read (staleGuards b.guards) then return .abandon .staleGeneration
  else if ← Tx.read (conflictingHistory b.height b.hash) then
    Tx.fail (.conflictingHistory b.height)
  else
    Tx.ofExcept b.provenance
    let winner ← writeRecord writeWinner b.records.winner
    let difficulty ← writeRecord writeDifficulty b.records.difficulty
    let authorship ← writeRecord writeAuthorship b.records.authorship
    let participation ← writeParticipants b.records.participation
    let coverage ← completeAll now n b.completed
    recomputeAfterCutover b.records.authorship
    Tx.update fun s => ((), { s with finalized := s.finalized.insertNew b.height b.hash })
    return .commit (if winner || difficulty || authorship || participation || coverage
      then .applied else .alreadyApplied)

/-- `commit_block`. -/
def commitBlock (now : Timestamp) (b : BlockCommit) (s : Store) :
    Except StoreError CommitResult × Store :=
  Tx.request b.check (commitBody now b) s

/-! ### Completing domains -/

/-- A domain's persisted coverage starts at or below `n` and contains it. -/
def Completed (s : Store) (i : Indexable) (n : ℕ) : Prop :=
  ∃ cov, s.coverages.get? i = some cov ∧ cov.start ≤ n ∧ n ∈ cov.heights

theorem exec_complete {now : Timestamp} {n : ℕ} {i : Indexable} {s s' : Store} {new : Bool}
    (h : (complete now n i).exec s = .ok (new, s')) :
    ∃ coverages, s' = { s with coverages } ∧
      (∀ j, j ≠ i → coverages.get? j = s.coverages.get? j) ∧
      s'.covered i = s.covered i ∪ {n} ∧ Completed s' i n ∧ (new = false → s' = s) := by
  unfold complete at h
  obtain ⟨cov, hcov, h⟩ := Tx.exec_readM_bind_ok.mp h
  obtain ⟨⟨new', cov'⟩, hcover, h⟩ := Tx.exec_ofExcept_bind_ok.mp h
  obtain ⟨hvalid, -, hheights⟩ := Store.coverage_ok hcov
  have hunion := Coverage.heights_cover hvalid hcover
  rw [Set.Icc_self, hheights] at hunion
  obtain ⟨-, hstart⟩ := Coverage.cover_le hcover
  cases new' with
  | false =>
    cases h
    obtain ⟨rfl, hc⟩ := Coverage.cover_false hcover
    refine ⟨s.coverages, rfl, fun j _ => rfl, hheights.symm.trans hunion, ?_,
      fun _ => rfl⟩
    -- an empty coverage contains nothing, so this one is persisted
    cases hg : s.coverages.get? i with
    | none =>
      rw [Store.coverage, hg] at hcov
      cases hcov
      have : n ∈ (Coverage.empty (s.generation i) (if i = .authorship then n else 0)).heights := hc
      simp at this
    | some c =>
      have hsame : c = cov' := by
        rw [Store.coverage, hg] at hcov
        exact (Coverage.validate_ok hcov).1.symm
      exact ⟨c, hg, hsame ▸ hstart, hsame ▸ hc⟩
  | true =>
    cases h
    have hget : (s.coverages.put i cov').get? i = some cov' := by simp
    refine ⟨s.coverages.put i cov', rfl, fun j hj => KeyedTable.get?_put_ne hj, ?_, ?_, by simp⟩
    · rw [← hunion]
      ext m
      simp [Store.covered, Store.saveCoverage]
    · refine ⟨cov', hget, ?_, ?_⟩
      · rw [Coverage.cover_start hcover]
        exact hstart
      · rw [hunion]
        exact .inr rfl

theorem exec_complete_start {now : Timestamp} {n : ℕ} {i : Indexable} {s s' : Store} {new : Bool}
    (h : (complete now n i).exec s = .ok (new, s')) {c c' : Coverage}
    (hc : s.coverages.get? i = some c) (hc' : s'.coverages.get? i = some c') :
    c'.start = c.start := by
  unfold complete at h
  obtain ⟨cov, hcov, h⟩ := Tx.exec_readM_bind_ok.mp h
  obtain ⟨⟨new', cov'⟩, hcover, h⟩ := Tx.exec_ofExcept_bind_ok.mp h
  have hsame : cov = c := by
    rw [Store.coverage, hc] at hcov
    exact (Coverage.validate_ok hcov).1
  cases new' with
  | false =>
    cases h
    rw [hc] at hc'
    cases hc'
    rfl
  | true =>
    cases h
    rw [Store.saveCoverage, KeyedTable.get?_put_self] at hc'
    cases hc'
    rw [← hsame]
    exact Coverage.cover_start hcover

theorem complete_canonical {now : Timestamp} {n : ℕ} {i : Indexable} {s s' : Store} {new : Bool}
    (hs : s.Canonical) (hn : n ≤ u64Max) (h : (complete now n i).exec s = .ok (new, s')) :
    s'.Canonical := by
  unfold complete at h
  obtain ⟨cov, hcov, h⟩ := Tx.exec_readM_bind_ok.mp h
  obtain ⟨⟨new', cov'⟩, hcover, h⟩ := Tx.exec_ofExcept_bind_ok.mp h
  have hcan := Coverage.canonical_cover (Store.coverage_canonical hs hcov) hn hcover
  cases new' with
  | false =>
    cases h
    exact hs
  | true =>
    cases h
    intro j c hc
    rw [Store.saveCoverage, KeyedTable.get?_put] at hc
    split at hc
    · rename_i hj
      cases hc
      exact hj ▸ hcan
    · exact hs j c hc

/-- A completed height is not completed again. -/
theorem exec_complete_again {now : Timestamp} {n : ℕ} {i : Indexable} {s : Store}
    (hs : s.Canonical) (h : Completed s i n) : (complete now n i).exec s = .ok (false, s) := by
  obtain ⟨cov, hget, hstart, hc⟩ := h
  unfold complete
  refine Tx.exec_readM_bind_ok.mpr ⟨cov, ?_, ?_⟩
  · rw [Store.coverage, hget]
    exact (hs i cov hget).validate
  · refine Tx.exec_ofExcept_bind_ok.mpr ⟨(false, cov), ?_, rfl⟩
    have hcontains : cov.contains n n = true := hc
    rw [Coverage.cover, if_neg (by omega), if_pos hcontains]

/-- Completing a height takes no completion away. -/
theorem Completed.complete {now : Timestamp} {n m : ℕ} {i j : Indexable} {s s' : Store}
    {new : Bool} (hm : Completed s j m) (h : (complete now n i).exec s = .ok (new, s')) :
    Completed s' j m := by
  obtain ⟨coverages, rfl, hne, hcov, ⟨c, hget, hstart, -⟩, -⟩ := exec_complete h
  obtain ⟨cov, hj, hle, hc⟩ := hm
  by_cases hji : j = i
  · subst hji
    refine ⟨c, hget, ?_, ?_⟩
    · rw [exec_complete_start h hj hget]
      exact hle
    · have hmem : m ∈ ({ s with coverages } : Store).covered j := hcov ▸ .inl ⟨cov, hj, hc⟩
      obtain ⟨c', hget', hc'⟩ := hmem
      rw [hget] at hget'
      cases hget'
      exact hc'
  · exact ⟨cov, (hne j hji).trans hj, hle, hc⟩

/-- One turn of the completion loop. -/
theorem exec_completeAll_cons {now : Timestamp} {n : ℕ} {i : Indexable} {is : List Indexable}
    {s s' : Store} {changed : Bool} (h : (completeAll now n (i :: is)).exec s = .ok (changed, s')) :
    ∃ new s₁ rest, (complete now n i).exec s = .ok (new, s₁) ∧
      (completeAll now n is).exec s₁ = .ok (rest, s') ∧ changed = (new || rest) := by
  unfold completeAll at h
  obtain ⟨new, s₁, h₁, h⟩ := Tx.exec_bind_ok.mp h
  obtain ⟨rest, s₂, h₂, h⟩ := Tx.exec_bind_ok.mp h
  cases h
  exact ⟨new, s₁, rest, h₁, h₂, rfl⟩

/-- **The completion loop adds its height to the completed domains and changes
nothing else.** -/
theorem exec_completeAll {now : Timestamp} {n : ℕ} {is : List Indexable} {s s' : Store}
    {changed : Bool} (h : (completeAll now n is).exec s = .ok (changed, s')) :
    ∃ coverages, s' = { s with coverages } ∧
      (∀ i, i ∉ is → coverages.get? i = s.coverages.get? i) ∧
      (∀ i ∈ is, s'.covered i = s.covered i ∪ {n} ∧ Completed s' i n) ∧
      (∀ i m, Completed s i m → Completed s' i m) ∧
      (changed = false → s' = s) := by
  induction is generalizing s changed with
  | nil =>
    cases h
    exact ⟨_, rfl, fun i _ => rfl, by simp, fun i m h => h, fun _ => rfl⟩
  | cons i is ih =>
    obtain ⟨new, s₁, rest, h₁, h₂, rfl⟩ := exec_completeAll_cons h
    obtain ⟨c₁, rfl, hne₁, hcov₁, hdone₁, hfalse₁⟩ := exec_complete h₁
    obtain ⟨c₂, rfl, hne₂, hcov₂, hkeep₂, hfalse₂⟩ := ih h₂
    refine ⟨c₂, rfl, ?_, ?_, fun j m hm => hkeep₂ j m (hm.complete h₁), ?_⟩
    · intro j hj
      rw [List.mem_cons, not_or] at hj
      exact (hne₂ j hj.2).trans (hne₁ j hj.1)
    · intro j hj
      by_cases hjs : j ∈ is
      · obtain ⟨hj₂, hd₂⟩ := hcov₂ j hjs
        refine ⟨hj₂.trans ?_, hd₂⟩
        by_cases hji : j = i
        · subst hji
          rw [hcov₁, Set.union_assoc, Set.union_self]
        · rw [Store.covered_congr (hne₁ j hji)]
      · have hji : j = i := (List.mem_cons.mp hj).resolve_right hjs
        subst hji
        exact ⟨(Store.covered_congr (hne₂ j hjs)).trans hcov₁, hkeep₂ j n hdone₁⟩
    · intro hc
      simp only [Bool.or_eq_false_iff] at hc
      rw [hfalse₂ hc.2, hfalse₁ hc.1]

/-! ### The whole commit -/

theorem staleGuards_eq_false {guards : List GenerationGuard} {s : Store} :
    staleGuards guards s = false ↔ ∀ g ∈ guards, s.generation g.indexable = g.expected := by
  simp [staleGuards]

theorem conflictingHistory_eq_false {height : ℕ} {hash : BlockHash} {s : Store} :
    conflictingHistory height hash s = false ↔ ∀ h ∈ s.retainedHashes height, h = hash := by
  simp [conflictingHistory, BlockHash.text_inj]

/-- The statements of a commit that reached its `COMMIT`, in their order. -/
structure CommitRun (now : Timestamp) (b : BlockCommit) (n : ℕ) (s : Store) (r : CommitResult)
    (s' : Store) where
  network : s.genesis = some b.genesis
  current : ∀ g ∈ b.guards, s.generation g.indexable = g.expected
  identity : ∀ h ∈ s.retainedHashes b.height, h = b.hash
  provenance : b.provenance = .ok ()
  (s₁ s₂ s₃ s₄ s₅ s₆ : Store)
  (winner difficulty authorship participation coverage : Bool)
  winner_exec : (writeRecord writeWinner b.records.winner).exec s = .ok (winner, s₁)
  difficulty_exec : (writeRecord writeDifficulty b.records.difficulty).exec s₁ = .ok (difficulty, s₂)
  authorship_exec : (writeRecord writeAuthorship b.records.authorship).exec s₂ = .ok (authorship, s₃)
  participation_exec : (writeParticipants b.records.participation).exec s₃ = .ok (participation, s₄)
  coverage_exec : (completeAll now n b.completed).exec s₄ = .ok (coverage, s₅)
  recompute_exec : (recomputeAfterCutover b.records.authorship).exec s₅ = .ok ((), s₆)
  final : s' = { s₆ with finalized := s₆.finalized.insertNew b.height b.hash }
  result : r = if winner || difficulty || authorship || participation || coverage
    then .applied else .alreadyApplied

/-- A body that ended without an error is stale, or ran all of its statements. -/
theorem commitBody_cases {now : Timestamp} {b : BlockCommit} {n : ℕ} {s s' : Store}
    {f : Finish CommitResult} (h : (commitBody now b n).exec s = .ok (f, s')) :
    (f = .abandon .staleGeneration ∧ s.genesis = some b.genesis ∧ staleGuards b.guards s = true) ∨
      ∃ r, f = .commit r ∧ Nonempty (CommitRun now b n s r s') := by
  unfold commitBody at h
  obtain ⟨u, hnet, h⟩ := Tx.exec_readM_bind_ok.mp h
  rw [Tx.exec_read_bind] at h
  by_cases hstale : staleGuards b.guards s = true
  · rw [if_pos hstale] at h
    cases h
    exact .inl ⟨rfl, Store.network_ok.mp hnet, hstale⟩
  rw [if_neg hstale, Tx.exec_read_bind] at h
  by_cases hconf : conflictingHistory b.height b.hash s = true
  · rw [if_pos hconf] at h
    cases h
  rw [if_neg hconf] at h
  obtain ⟨v, hprov, h⟩ := Tx.exec_ofExcept_bind_ok.mp h
  obtain ⟨winner, s₁, h₁, h⟩ := Tx.exec_bind_ok.mp h
  obtain ⟨difficulty, s₂, h₂, h⟩ := Tx.exec_bind_ok.mp h
  obtain ⟨authorship, s₃, h₃, h⟩ := Tx.exec_bind_ok.mp h
  obtain ⟨participation, s₄, h₄, h⟩ := Tx.exec_bind_ok.mp h
  obtain ⟨coverage, s₅, h₅, h⟩ := Tx.exec_bind_ok.mp h
  obtain ⟨w, s₆, h₆, h⟩ := Tx.exec_bind_ok.mp h
  cases h
  exact .inr ⟨_, rfl, ⟨Store.network_ok.mp hnet, staleGuards_eq_false.mp (by simpa using hstale),
    conflictingHistory_eq_false.mp (by simpa using hconf), hprov, s₁, s₂, s₃, s₄, s₅, s₆,
    winner, difficulty, authorship, participation, coverage, h₁, h₂, h₃, h₄, h₅, h₆, rfl, rfl⟩⟩

/-- A run of all the statements is a run of the body. -/
theorem CommitRun.exec {now : Timestamp} {b : BlockCommit} {n : ℕ} {s s' : Store}
    {r : CommitResult} (run : CommitRun now b n s r s') :
    (commitBody now b n).exec s = .ok (.commit r, s') := by
  unfold commitBody
  refine Tx.exec_readM_bind_ok.mpr ⟨(), Store.network_ok.mpr run.network, ?_⟩
  rw [Tx.exec_read_bind, if_neg (by simpa using staleGuards_eq_false.mpr run.current),
    Tx.exec_read_bind, if_neg (by simpa using conflictingHistory_eq_false.mpr run.identity)]
  refine Tx.exec_ofExcept_bind_ok.mpr ⟨(), run.provenance, ?_⟩
  refine Tx.exec_bind_ok.mpr ⟨_, _, run.winner_exec, ?_⟩
  refine Tx.exec_bind_ok.mpr ⟨_, _, run.difficulty_exec, ?_⟩
  refine Tx.exec_bind_ok.mpr ⟨_, _, run.authorship_exec, ?_⟩
  refine Tx.exec_bind_ok.mpr ⟨_, _, run.participation_exec, ?_⟩
  refine Tx.exec_bind_ok.mpr ⟨_, _, run.coverage_exec, ?_⟩
  refine Tx.exec_bind_ok.mpr ⟨_, _, run.recompute_exec, ?_⟩
  rw [Tx.exec_update_bind, ← run.final]
  exact congrArg (fun r => Except.ok (Finish.commit r, s')) run.result.symm

/-- What a commit found, and what it left behind. -/
structure Commits (b : BlockCommit) (s : Store) (r : CommitResult) (s' : Store) : Prop where
  guarded : ∀ i ∈ b.affected, ∃ g ∈ b.guards, g.indexable = i
  height_le : b.height ≤ u64Max
  network : s.genesis = some b.genesis
  current : ∀ g ∈ b.guards, s.generation g.indexable = g.expected
  identity : ∀ h ∈ s.retainedHashes b.height, h = b.hash
  winner : ∀ w, b.records.winner = some w → w.substrateBlockNumber = b.height ∧
    w.substrateBlockHash.bytes = b.hash.bytes ∧ w.finalized = true
  difficulty : ∀ d, b.records.difficulty = some d →
    d.observedAtBlock = b.height ∧ d.source = .block
  authorship : ∀ a, b.records.authorship = some a → a.blockNumber = b.height
  result : r = .applied ∨ r = .alreadyApplied
  blocks_eq : s'.blocks = b.records.winner.elim s.blocks fun w => (putWinner s.blocks w).2
  difficulty_none : b.records.difficulty = none → s'.difficultyHistory = s.difficultyHistory
  difficulty_some : ∀ d, b.records.difficulty = some d →
    canonicalTimestamp d.observedAt = .ok d.observedAt ∧
      ∃ n, WritesDifficulty d s.difficultyHistory n s'.difficultyHistory
  polls : ∀ k row, s'.pollDifficulty.get? k = some row →
    s.pollDifficulty.get? k = some row ∨ row.source = .poll
  authorship_none : b.records.authorship = none → s'.authorshipBlocks = s.authorshipBlocks
  authorship_some : ∀ a, b.records.authorship = some a → ∃ timestamp,
    canonicalIso a.timestamp = .ok timestamp ∧ checkAuthorship a s.authorshipBlocks.rows = .ok () ∧
      s'.authorshipBlocks = (putAuthorship s.authorshipBlocks a timestamp).2
  participation_eq : s'.participation = putParticipants s.participation b.records.participation
  covered_eq : ∀ i ∈ b.completed, s'.covered i = s.covered i ∪ {b.height}
  completed : ∀ i ∈ b.completed, Completed s' i b.height
  coverage_eq : ∀ i, i ∉ b.completed → s'.coverages.get? i = s.coverages.get? i
  already : r = .alreadyApplied → s'.coverages = s.coverages
  canonical : s.Canonical → s'.Canonical
  finalized_eq : s'.finalized = s.finalized.insertNew b.height b.hash
  frame : s'.pg = s.pg ∧ s'.genesis = s.genesis ∧ s'.generations = s.generations ∧
    s'.finalizedTarget = s.finalizedTarget ∧ s'.authorshipCutover = s.authorshipCutover ∧
    s'.unavailable = s.unavailable ∧ s'.scans = s.scans ∧ s'.scanWinners = s.scanWinners

/-! ### From the statements to what they leave behind -/

theorem provenance_ok {b : BlockCommit} (h : b.provenance = .ok ()) :
    (∀ w, b.records.winner = some w → w.substrateBlockNumber = b.height ∧
      w.substrateBlockHash.bytes = b.hash.bytes ∧ w.finalized = true) ∧
    (∀ d, b.records.difficulty = some d → d.observedAtBlock = b.height ∧ d.source = .block) ∧
    ∀ a, b.records.authorship = some a → a.blockNumber = b.height := by
  unfold BlockCommit.provenance at h
  split at h
  · cases h
  rename_i hw
  split at h
  · cases h
  rename_i hd
  split at h
  · cases h
  rename_i ha
  refine ⟨?_, ?_, ?_⟩
  · intro w hsome
    rw [hsome] at hw
    simpa [and_assoc] using hw
  · intro d hsome
    rw [hsome] at hd
    simpa using hd
  · intro a hsome
    rw [hsome] at ha
    simpa using ha

theorem exec_winnerRecord {o : Option BlockRecord} {s s' : Store} {c : Bool}
    (h : (writeRecord writeWinner o).exec s = .ok (c, s')) :
    ∃ nodeSummary, s' = { s with
      blocks := o.elim s.blocks fun w => (putWinner s.blocks w).2, nodeSummary } := by
  cases o with
  | none =>
    cases h
    exact ⟨_, rfl⟩
  | some w =>
    obtain ⟨n, s₁, h₁, h⟩ := Tx.exec_bind_ok.mp h
    cases h
    obtain ⟨nodeSummary, h₂, -⟩ := exec_writeWinner w s
    rw [h₂] at h₁
    cases h₁
    exact ⟨nodeSummary, rfl⟩

theorem exec_difficultyRecord {o : Option DifficultyRecord} {s s' : Store} {c : Bool}
    (ho : ∀ d, o = some d → d.source = .block)
    (h : (writeRecord writeDifficulty o).exec s = .ok (c, s')) :
    ∃ difficultyHistory pollDifficulty, s' = { s with difficultyHistory, pollDifficulty } ∧
      (o = none → difficultyHistory = s.difficultyHistory) ∧
      (∀ d, o = some d → canonicalTimestamp d.observedAt = .ok d.observedAt ∧
        ∃ n, WritesDifficulty d s.difficultyHistory n difficultyHistory) ∧
      ∀ k row, pollDifficulty.get? k = some row →
        s.pollDifficulty.get? k = some row ∨ row.source = .poll := by
  cases o with
  | none =>
    cases h
    exact ⟨_, _, rfl, fun _ => rfl, by simp, fun k row h => .inl h⟩
  | some d =>
    obtain ⟨n, s₁, h₁, h⟩ := Tx.exec_bind_ok.mp h
    cases h
    obtain ⟨hread, dh, pd, rfl, hw, hpolls⟩ := exec_writeDifficulty (ho d rfl) h₁
    refine ⟨dh, pd, rfl, by simp, ?_, hpolls⟩
    rintro _ ⟨rfl⟩
    exact ⟨hread, n, hw⟩

theorem exec_authorshipRecord {o : Option AuthorshipRecord} {s s' : Store} {c : Bool}
    (h : (writeRecord writeAuthorship o).exec s = .ok (c, s')) :
    ∃ authorshipBlocks, s' = { s with authorshipBlocks } ∧
      (o = none → authorshipBlocks = s.authorshipBlocks) ∧
      ∀ a, o = some a → ∃ timestamp, canonicalIso a.timestamp = .ok timestamp ∧
        checkAuthorship a s.authorshipBlocks.rows = .ok () ∧
        authorshipBlocks = (putAuthorship s.authorshipBlocks a timestamp).2 := by
  cases o with
  | none =>
    cases h
    exact ⟨_, rfl, fun _ => rfl, by simp⟩
  | some a =>
    obtain ⟨n, s₁, h₁, h⟩ := Tx.exec_bind_ok.mp h
    cases h
    obtain ⟨t, ht, hcheck, -, rfl⟩ := exec_writeAuthorship h₁
    refine ⟨_, rfl, by simp, ?_⟩
    rintro _ ⟨rfl⟩
    exact ⟨t, ht, hcheck, rfl⟩

theorem exec_recomputeAfterCutover {o : Option AuthorshipRecord} {s s' : Store} {u : Unit}
    (h : (recomputeAfterCutover o).exec s = .ok (u, s')) :
    ∃ validatorAuthorship, s' = { s with validatorAuthorship } := by
  unfold recomputeAfterCutover at h
  rw [Tx.exec_read_bind] at h
  split at h
  · obtain ⟨items, -, rfl⟩ := exec_recompute h
    exact ⟨_, rfl⟩
  · cases h
    exact ⟨_, rfl⟩

/-- Completed domains are not completed again. -/
theorem exec_completeAll_again {now : Timestamp} {n : ℕ} {is : List Indexable} {s : Store}
    (hs : s.Canonical) (h : ∀ i ∈ is, Completed s i n) :
    (completeAll now n is).exec s = .ok (false, s) := by
  induction is with
  | nil => rfl
  | cons i is ih =>
    unfold completeAll
    refine Tx.exec_bind_ok.mpr
      ⟨false, s, exec_complete_again hs (h i (List.mem_cons_self ..)), ?_⟩
    exact Tx.exec_bind_ok.mpr
      ⟨false, s, ih fun j hj => h j (List.mem_cons_of_mem _ hj), rfl⟩

theorem completeAll_canonical {now : Timestamp} {n : ℕ} {is : List Indexable} {s s' : Store}
    {changed : Bool} (hs : s.Canonical) (hn : n ≤ u64Max)
    (h : (completeAll now n is).exec s = .ok (changed, s')) : s'.Canonical := by
  induction is generalizing s changed with
  | nil =>
    cases h
    exact hs
  | cons i is ih =>
    obtain ⟨new, s₁, rest, h₁, h₂, -⟩ := exec_completeAll_cons h
    exact ih (complete_canonical hs hn h₁) h₂

theorem check_ok {b : BlockCommit} {n : ℕ} (h : b.check = .ok n) :
    n = b.height ∧ b.height ≤ u64Max ∧ (∀ i ∈ b.affected, ∃ g ∈ b.guards, g.indexable = i) := by
  unfold BlockCommit.check at h
  split at h
  · cases h
  split at h
  · cases h
  rename_i hguard
  obtain ⟨rfl, hle⟩ := height_ok h
  refine ⟨rfl, hle, fun i hi => ?_⟩
  simp only [not_or, Bool.not_eq_true, List.any_eq_false, decide_eq_true_eq, not_not] at hguard
  exact List.mem_map.mp (hguard.2 i hi)

theorem CommitRun.commits {now : Timestamp} {b : BlockCommit} {n : ℕ} {s s' : Store}
    {r : CommitResult} (hb : b.check = .ok n) (run : CommitRun now b n s r s') :
    Commits b s r s' := by
  obtain ⟨rfl, hle, hguard⟩ := check_ok hb
  obtain ⟨hw, hd, ha⟩ := provenance_ok run.provenance
  obtain ⟨network, current, identity, -, s₁, s₂, s₃, s₄, s₅, s₆, w, d, a, p, c, h₁, h₂, h₃, h₄, h₅,
    h₆, rfl, hr⟩ := run
  obtain ⟨ns, rfl⟩ := exec_winnerRecord h₁
  obtain ⟨dh, pd, rfl, hd₀, hd₁, hpolls⟩ := exec_difficultyRecord (fun d h => (hd d h).2) h₂
  obtain ⟨ab, rfl, ha₀, ha₁⟩ := exec_authorshipRecord h₃
  obtain ⟨rfl, -, -⟩ := exec_writeParticipants h₄
  have hcan := fun hs => completeAll_canonical hs hle h₅
  obtain ⟨cs, rfl, hne, hcov, -, hsame⟩ := exec_completeAll h₅
  obtain ⟨va, rfl⟩ := exec_recomputeAfterCutover h₆
  exact
    { guarded := hguard
      height_le := hle
      network, current, identity
      winner := hw
      difficulty := hd
      authorship := ha
      result := by rw [hr]; split <;> simp
      blocks_eq := rfl
      difficulty_none := hd₀
      difficulty_some := hd₁
      polls := hpolls
      authorship_none := ha₀
      authorship_some := ha₁
      participation_eq := rfl
      covered_eq := fun i hi => (hcov i hi).1
      completed := fun i hi => (hcov i hi).2
      coverage_eq := hne
      already := fun hr' => by
        rw [hr] at hr'
        split at hr'
        · cases hr'
        · rename_i hc
          simp only [Bool.or_eq_true, not_or, Bool.not_eq_true] at hc
          exact (Store.mk.inj (hsame hc.2)).2.2.2.1
      canonical := hcan
      finalized_eq := rfl
      frame := ⟨rfl, rfl, rfl, rfl, rfl, rfl, rfl, rfl⟩ }

/-- A call of `commit_block` fails, is stale, or ran all of its statements. -/
theorem commitBlock_run {now : Timestamp} {b : BlockCommit} {s s' : Store}
    {r : Except StoreError CommitResult} (h : commitBlock now b s = (r, s')) :
    (s' = s ∧ ((∃ e, r = .error e) ∨
      r = .ok .staleGeneration ∧ s.genesis = some b.genesis ∧ staleGuards b.guards s = true)) ∨
    ∃ n r', b.check = .ok n ∧ r = .ok r' ∧ Nonempty (CommitRun now b n s r' s') := by
  rcases Tx.request_cases h with ⟨rfl, e, rfl⟩ | ⟨rfl, n, a, t, -, hx, rfl⟩ | ⟨n, a, hn, hx, rfl⟩
  · exact .inl ⟨rfl, .inl ⟨e, rfl⟩⟩
  · rcases commitBody_cases hx with ⟨hf, hnet, hstale⟩ | ⟨r', hf, -⟩
    · cases hf
      exact .inl ⟨rfl, .inr ⟨rfl, hnet, hstale⟩⟩
    · cases hf
  · rcases commitBody_cases hx with ⟨hf, -⟩ | ⟨r', hf, hrun⟩
    · cases hf
    · cases hf
      exact .inr ⟨n, a, hn, rfl, hrun⟩

/-- **Every call of `commit_block` fails and changes nothing, is stale and changes
nothing, or commits.** -/
theorem commitBlock_cases {now : Timestamp} {b : BlockCommit} {s s' : Store}
    {r : Except StoreError CommitResult} (h : commitBlock now b s = (r, s')) :
    (s' = s ∧ ((∃ e, r = .error e) ∨
      r = .ok .staleGeneration ∧ s.genesis = some b.genesis ∧ staleGuards b.guards s = true)) ∨
    ∃ r', r = .ok r' ∧ Commits b s r' s' := by
  rcases commitBlock_run h with hkeep | ⟨n, r', hcheck, hr, ⟨run⟩⟩
  · exact .inl hkeep
  · exact .inr ⟨r', hr, run.commits hcheck⟩

end Dashboard

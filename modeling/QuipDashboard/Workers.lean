/-
Workers that race with reindexing.

A worker reads the generation guards of some domains, decodes for as long as it
likes, and calls the store under the guards that it holds; a `SystemRun` interleaves
any number of workers with reindexes, announced targets and polled snapshots.

* `stale_apply` — a call under a guard of another generation changes nothing;
* `generation_isolated` — **a write of an older generation is rejected, and every row
  that was derived from a block was written under its domain's current generation**.
-/
import QuipDashboard.Runs

namespace Dashboard

/-! ### Rows that are derived from blocks -/

/-- A row that a reindex of its domain clears. -/
inductive DerivedRow where
  | winner (hash : String) (row : BlockRecord)
  | participant (key : ℕ × String) (row : QBlockParticipationRecord)
  | difficulty (height : ℕ) (row : DifficultyRecord) (source : row.source = .block)
  | authorship (key : String × ℕ) (fact : AuthorshipFact)
  | marker (key : Indexable × ℕ × ℕ) (row : UnavailableRow)
  | scan (id : ScanId) (row : ScanRow)

/-- The domain that a row belongs to. -/
def DerivedRow.domain : DerivedRow → Indexable
  | winner .. => .winners
  | participant .. => .participation
  | difficulty .. => .difficulty
  | authorship .. => .authorship
  | marker key _ => key.1
  | scan _ row => row.domain

/-- The row stands in the store, with this content. -/
def DerivedRow.In (s : Store) : DerivedRow → Prop
  | winner hash row => s.blocks.get? hash = some row
  | participant key row => s.participation.get? key = some row
  | difficulty height row _ => s.difficultyHistory.get? height = some row
  | authorship key fact => s.authorshipBlocks.get? key = some fact
  | marker key row => s.unavailable.get? key = some row
  | scan id row => s.scans.get? id = some row

/-- Markers and scans name their generation, and a polled row its source. -/
structure Store.Stamped (s : Store) : Prop where
  scans : ∀ id row, s.scans.get? id = some row → row.generation = s.generation row.domain
  markers : ∀ k row, s.unavailable.get? k = some row → k.2.1 = s.generation k.1
  polls : ∀ k row, s.pollDifficulty.get? k = some row → row.source = .poll

theorem Effect.stamped {now : Timestamp} {op : Op} {s s' : Store}
    {r : Except StoreError CommitResult} (h : Effect now op s r s') (hs : s.Stamped) :
    s'.Stamped := by
  have hgen : ∀ {s₁ : Store} (i : Indexable), s₁.generations = s.generations →
      s₁.generation i = s.generation i := by
    intro s₁ i h
    rw [Store.generation, Store.generation, h]
  cases h with
  | unchanged => exact hs
  | targeted | floored | initialized | cutOver | recomputed =>
    exact ⟨hs.scans, hs.markers, hs.polls⟩
  | @began scan _ _ hcur _ =>
    refine ⟨fun id row hrow => ?_, hs.markers, hs.polls⟩
    rw [KeyedTable.get?_put] at hrow
    split at hrow
    · cases hrow
      exact hcur.symm
    · exact hs.scans id row hrow
  | @appended id _ next _ row _ _ _ h =>
    rw [h.final]
    refine ⟨fun id' row' hrow => ?_, hs.markers, hs.polls⟩
    rw [KeyedTable.get?_put] at hrow
    split at hrow
    · cases hrow
      exact h.current.symm
    · exact hs.scans id' row' hrow
  | committed h =>
    obtain ⟨-, -, hg, -, -, hu, hsc, -⟩ := h.frame
    refine ⟨fun id row hrow => ?_, fun k row hrow => ?_, fun k row hrow => ?_⟩
    · rw [hgen _ hg]
      exact hs.scans id row (hsc ▸ hrow)
    · rw [hgen _ hg]
      exact hs.markers k row (hu ▸ hrow)
    · exact (h.polls k row hrow).elim (hs.polls k row) id
  | ranged h =>
    rw [h.frame]
    exact ⟨hs.scans, hs.markers, hs.polls⟩
  | @marked genesis b _ _ _ _ h =>
    rw [h.final]
    refine ⟨hs.scans, fun k row hrow => ?_, hs.polls⟩
    rcases KeyedTable.get?_of_insertNew hrow with hrow | ⟨rfl, -, -⟩
    · exact hs.markers k row hrow
    · exact h.current.symm
  | @reindexed is _ _ h =>
    refine ⟨fun id row hrow => ?_, fun k row hrow => ?_, fun k row hrow => ?_⟩
    · obtain ⟨hrow, hne⟩ := (h.scans id row).mp hrow
      rw [h.generation, if_neg hne]
      exact hs.scans id row hrow
    · rw [h.unavailable] at hrow
      split at hrow
      · cases hrow
      · rename_i hne
        rw [h.generation, if_neg hne]
        exact hs.markers k row hrow
    · exact hs.polls k row (h.polls ▸ hrow)
  | @polled d _ hsource =>
    refine ⟨hs.scans, hs.markers, fun k row hrow => ?_⟩
    rcases KeyedTable.get?_of_insertNew hrow with hrow | ⟨-, -, rfl⟩
    · exact hs.polls k row hrow
    · exact hsource

/-- The store writes rows under the guard `g`. -/
def Op.WritesUnder (s : Store) (g : GenerationGuard) : Op → Prop
  | .commitBlock b => g ∈ b.guards
  | .beginScan scan => g = ⟨scan.indexable, scan.expectedGeneration⟩
  | .appendScanPage id .. => ∃ row, s.scans.get? id = some row ∧ g = ⟨row.domain, row.generation⟩
  | .markUnavailable _ b => g = b.guard
  | _ => False

theorem Commits.guard {b : BlockCommit} {s s' : Store} {r : CommitResult} (h : Commits b s r s')
    {i : Indexable} (hi : i ∈ b.affected) : ⟨i, s.generation i⟩ ∈ b.guards := by
  obtain ⟨g, hg, rfl⟩ := h.guarded i hi
  rw [h.current g hg]
  exact hg

/-- **A derived row appears only by a write under the current generation of its
domain.** -/
theorem Effect.derives {now : Timestamp} {op : Op} {s s' : Store}
    {r : Except StoreError CommitResult} (h : Effect now op s r s') {d : DerivedRow}
    (hin : d.In s') (hnot : ¬d.In s)
    (hno : ¬∃ is, op = .reindex is ∧ d.domain ∈ is ∧ r = .ok .applied) :
    op.WritesUnder s ⟨d.domain, s.generation d.domain⟩ ∧ ∃ a, r = .ok a := by
  cases h with
  | unchanged | targeted | floored | initialized | cutOver | recomputed =>
    exact absurd hin (by cases d <;> exact hnot)
  | ranged h =>
    rw [h.frame] at hin
    exact absurd hin (by cases d <;> exact hnot)
  | @began scan _ _ hcur _ =>
    cases d with
    | scan id row =>
      have hin : (s.scans.put scan.id scan.row).get? id = some row := hin
      rw [KeyedTable.get?_put] at hin
      split at hin
      · cases hin
        refine ⟨?_, _, rfl⟩
        show (⟨scan.indexable, s.generation scan.indexable⟩ : GenerationGuard) = _
        rw [hcur]
      · exact absurd hin hnot
    | winner | participant | difficulty | authorship | marker => exact absurd hin hnot
  | @appended id _ next _ row _ _ _ h =>
    rw [h.final] at hin
    cases d with
    | scan id' row' =>
      have hin : (s.scans.put id (row.advance next)).get? id' = some row' := hin
      rw [KeyedTable.get?_put] at hin
      split at hin
      · cases hin
        refine ⟨⟨row, h.get, ?_⟩, _, rfl⟩
        show (⟨row.domain, s.generation row.domain⟩ : GenerationGuard) = _
        rw [h.current]
      · exact absurd hin hnot
    | winner | participant | difficulty | authorship | marker => exact absurd hin hnot
  -- a commit checks the guard of every domain that it has a part for
  | @committed b _ _ _ h =>
    have hwrites : ∀ {i : Indexable}, i ∈ b.affected →
        (Op.commitBlock b).WritesUnder s ⟨i, s.generation i⟩ := fun hi => h.guard hi
    refine ⟨?_, _, rfl⟩
    cases d with
    | winner hash row =>
      refine hwrites (BlockCommit.mem_affected.mpr (.inr (.inl ⟨?_, rfl⟩)))
      by_contra hw
      have hb : s'.blocks = s.blocks := by
        rw [h.blocks_eq, Option.not_isSome_iff_eq_none.mp hw]
        rfl
      exact hnot (by show s.blocks.get? hash = some row; rw [← hb]; exact hin)
    | difficulty height row hsource =>
      refine hwrites (BlockCommit.mem_affected.mpr (.inr (.inr (.inl ⟨?_, rfl⟩))))
      by_contra hd
      have hb := h.difficulty_none (Option.not_isSome_iff_eq_none.mp hd)
      exact hnot (by show s.difficultyHistory.get? height = some row; rw [← hb]; exact hin)
    | authorship key fact =>
      refine hwrites (BlockCommit.mem_affected.mpr (.inr (.inr (.inr (.inl ⟨?_, rfl⟩)))))
      by_contra ha
      have hb := h.authorship_none (Option.not_isSome_iff_eq_none.mp ha)
      exact hnot (by show s.authorshipBlocks.get? key = some fact; rw [← hb]; exact hin)
    | participant key row =>
      refine hwrites (BlockCommit.mem_affected.mpr (.inr (.inr (.inr (.inr ⟨?_, rfl⟩)))))
      intro hp
      have hb : s'.participation = s.participation := by
        rw [h.participation_eq, hp]
        rfl
      exact hnot (by show s.participation.get? key = some row; rw [← hb]; exact hin)
    | marker key row =>
      refine absurd ?_ hnot
      show s.unavailable.get? key = some row
      rw [← h.frame.2.2.2.2.2.1]
      exact hin
    | scan id row =>
      refine absurd ?_ hnot
      show s.scans.get? id = some row
      rw [← h.frame.2.2.2.2.2.2.1]
      exact hin
  | @marked genesis b _ _ _ _ h =>
    rw [h.final] at hin
    cases d with
    | marker key row =>
      rcases KeyedTable.get?_of_insertNew hin with hin | ⟨rfl, -, -⟩
      · exact absurd hin hnot
      · refine ⟨?_, _, rfl⟩
        show (⟨b.guard.indexable, s.generation b.guard.indexable⟩ : GenerationGuard) = _
        rw [h.current]
    | winner | participant | difficulty | authorship | scan => exact absurd hin hnot
  -- the rows of the other domains are those that were there
  | @reindexed is _ _ h =>
    have hi : d.domain ∉ is := fun hi => hno ⟨is, rfl, hi, rfl⟩
    have hne := mt mem_reindexed.mp hi
    refine absurd ?_ hnot
    cases d with
    | winner hash row =>
      have hb := h.blocks.trans (if_neg hne)
      show s.blocks.get? hash = some row
      rw [← hb]
      exact hin
    | participant key row =>
      have hb := h.participation.trans (if_neg hne)
      show s.participation.get? key = some row
      rw [← hb]
      exact hin
    | authorship key fact =>
      have hb := h.authorshipBlocks.trans (if_neg hne)
      show s.authorshipBlocks.get? key = some fact
      rw [← hb]
      exact hin
    | difficulty height row _ =>
      have hb := h.difficulty_eq hne
      show s.difficultyHistory.get? height = some row
      rw [← hb]
      exact hin
    | marker key row => exact ((h.unavailable key).trans (if_neg hne)).symm.trans hin
    | scan id row => exact ((h.scans id row).mp hin).1
  | @polled diff _ hsource =>
    cases d with
    | difficulty height row hblock =>
      rcases KeyedTable.get?_of_insertNew hin with hin | ⟨-, -, rfl⟩
      · exact absurd hin hnot
      · rw [hsource] at hblock
        cases hblock
    | winner | participant | authorship | marker | scan => exact absurd hin hnot

/-- A reindex leaves no derived row of its domains. -/
theorem Reindexed.derived {is : List Indexable} {s s' : Store} (h : Reindexed is s s')
    (hs : s.Stamped) {d : DerivedRow} (hi : d.domain ∈ is) : ¬d.In s' := by
  intro hin
  cases d with
  | winner hash row =>
    have hb := h.blocks.trans (if_pos hi)
    have hin : s'.blocks.get? hash = some row := hin
    rw [hb] at hin
    cases hin
  | participant key row =>
    have hb := h.participation.trans (if_pos hi)
    have hin : s'.participation.get? key = some row := hin
    rw [hb] at hin
    cases hin
  | authorship key fact =>
    have hb := h.authorshipBlocks.trans (if_pos hi)
    have hin : s'.authorshipBlocks.get? key = some fact := hin
    rw [hb] at hin
    cases hin
  | difficulty height row hblock =>
    have hpoll : row.source = .poll :=
      (h.difficulty_mem hi height row hin).elim id (hs.polls height row)
    rw [hblock] at hpoll
    cases hpoll
  | marker key row =>
    have hin : s'.unavailable.get? key = some row := hin
    rw [(h.unavailable key).trans (if_pos hi)] at hin
    cases hin
  | scan id row => exact ((h.scans id row).mp hin).2 hi

/-! ### Calls under guards -/

/-- `format!("{}:{}:{}", domain.name(), generation, target.hash)`. -/
def scanId (guard : GenerationGuard) (target : BlockHash) : ScanId :=
  guard.indexable.name ++ ":" ++ guard.expected.repr ++ ":" ++ target.text

/-- A text up to its first separator. -/
private theorem field_inj {c : Char} {l₁ l₂ r₁ r₂ : List Char} (h₁ : c ∉ l₁) (h₂ : c ∉ l₂)
    (h : l₁ ++ c :: r₁ = l₂ ++ c :: r₂) : l₁ = l₂ ∧ r₁ = r₂ := by
  induction l₁ generalizing l₂ with
  | nil =>
    cases l₂ with
    | nil => exact ⟨rfl, (List.cons.inj h).2⟩
    | cons b l₂ =>
      obtain ⟨rfl, -⟩ := List.cons.inj h
      exact absurd (List.mem_cons_self ..) h₂
  | cons a l₁ ih =>
    cases l₂ with
    | nil =>
      obtain ⟨rfl, -⟩ := List.cons.inj h
      exact absurd (List.mem_cons_self ..) h₁
    | cons b l₂ =>
      obtain ⟨rfl, htail⟩ := List.cons.inj h
      obtain ⟨rfl, hr⟩ := ih (fun hc => h₁ (List.mem_cons_of_mem _ hc))
        (fun hc => h₂ (List.mem_cons_of_mem _ hc)) htail
      exact ⟨rfl, hr⟩

/-- A scan identifier names its guard. -/
theorem scanId_inj {g g' : GenerationGuard} {t t' : BlockHash} (h : scanId g t = scanId g' t') :
    g = g' := by
  have hname : ∀ i : Indexable, ':' ∉ i.name.toList := by
    intro i
    cases i <;> decide
  have hdigit : ∀ n : ℕ, ':' ∉ Nat.toDigits 10 n := by
    intro n hc
    exact absurd (Nat.isDigit_of_mem_toDigits (by omega) (by omega) hc) (by decide)
  have hlist : ∀ (g : GenerationGuard) (t : BlockHash), (scanId g t).toList =
      g.indexable.name.toList ++ ':' :: (Nat.toDigits 10 g.expected ++ ':' :: t.text.toList) := by
    intro g t
    simp [scanId, String.toList_append, Nat.toList_repr]
  have h := congrArg String.toList h
  rw [hlist, hlist] at h
  obtain ⟨hi, h⟩ := field_inj (hname _) (hname _) h
  obtain ⟨hn, -⟩ := field_inj (hdigit _) (hdigit _) h
  obtain ⟨i, n⟩ := g
  obtain ⟨j, m⟩ := g'
  obtain rfl := Indexable.name_inj (String.toList_inj.mp hi)
  have hn : n = m := by
    rw [← Nat.ofDigitChars_toDigits (n := n) (by omega) le_rfl, hn,
      Nat.ofDigitChars_toDigits (by omega) le_rfl]
  rw [hn]

/-- The checks of an operation that come before it reads a generation. -/
def Op.precheck (s : Store) : Op → Except StoreError Unit
  | .beginScan scan => scan.check.bind fun _ => s.network scan.genesis
  | .appendScanPage _ expected next heights => checkPage expected next heights
  | .commitBlock b => b.check.bind fun _ => s.network b.genesis
  | .commitRange r => r.check.bind fun _ => s.network r.genesis
  | .markUnavailable genesis b => b.check.bind fun _ => s.network genesis
  | _ => .ok ()

/-- A worker's call, and the guards that it makes it under: those of the batch, or the
one that a scan was opened under. -/
inductive Guarded : Op → List GenerationGuard → Prop
  | commitBlock (b : BlockCommit) : Guarded (.commitBlock b) b.guards
  | beginScan (guard : GenerationGuard) (genesis target : BlockHash) (height : ℕ) :
      Guarded (.beginScan ⟨scanId guard target, genesis, target, height, guard.indexable,
        guard.expected⟩) [guard]
  | appendScanPage (guard : GenerationGuard) (target : BlockHash)
      (expected next : Option (List UInt8)) (heights : List ℕ) :
      Guarded (.appendScanPage (scanId guard target) expected next heights) [guard]
  | commitRange (r : RangeCompletion) :
      Guarded (.commitRange r) [⟨r.indexable, r.expectedGeneration⟩]
  | markUnavailable (genesis : BlockHash) (b : UnavailableBlock) :
      Guarded (.markUnavailable genesis b) [b.guard]
  | setPrunedFloor (guard : GenerationGuard) (floor : Option ℕ) :
      Guarded (.setPrunedFloor guard floor) [guard]
  | initializeCoverage (guard : GenerationGuard) (start : ℕ) :
      Guarded (.initializeCoverage guard.indexable guard.expected start) [guard]

/-- Every scan is stored under the identifier of its guard. -/
def Store.NamedScans (s : Store) : Prop :=
  ∀ id row, s.scans.get? id = some row → id = scanId ⟨row.domain, row.generation⟩ row.atHash

/-- What becomes of a call of an older generation: its scan is gone, or it is stale. -/
def Op.staleOutcome : Op → Except StoreError CommitResult
  | .appendScanPage .. => .error .incompleteScan
  | _ => .ok .staleGeneration

/-- **A call under a guard of another generation changes nothing**: it is stale, or its
scan is gone, unless it fails its own checks first. -/
theorem stale_apply {op : Op} {guards : List GenerationGuard} (hop : Guarded op guards)
    {s : Store} {genesis : BlockHash} (hg : s.genesis = some genesis) (hs : s.Stamped)
    (hn : s.NamedScans) {g : GenerationGuard} (hmem : g ∈ guards)
    (hstale : s.generation g.indexable ≠ g.expected) (now : Timestamp) :
    op.apply now s = ((op.precheck s).bind fun _ => op.staleOutcome, s) := by
  have hbound : s.requireBound = .ok genesis := by rw [Store.requireBound, hg]
  have hread : ∀ i n, s.generation i ≠ n → Store.staleGeneration i n s = true :=
    fun i n h => Store.staleGeneration_eq_true.mpr h
  cases hop with
  | commitBlock b =>
    have hp : staleGuards b.guards s = true := by
      simp only [staleGuards, List.any_eq_true, decide_eq_true_eq]
      exact ⟨g, hmem, hstale⟩
    refine (Tx.request_abandon hp fun n => ⟨_, rfl⟩).trans ?_
    simp only [Op.precheck, Op.staleOutcome]
    cases b.check <;> cases s.network b.genesis <;> rfl
  | beginScan guard network target height =>
    obtain rfl := List.mem_singleton.mp hmem
    refine (Tx.request_abandon (hread _ _ hstale) fun n => ⟨_, rfl⟩).trans ?_
    simp only [Op.precheck, Op.staleOutcome]
    cases Scan.check _ <;> cases s.network network <;> rfl
  | appendScanPage guard target expected next heights =>
    obtain rfl := List.mem_singleton.mp hmem
    have hgone : s.scans.get? (scanId g target) = none := by
      cases hrow : s.scans.get? (scanId g target) with
      | none => rfl
      | some row =>
        obtain rfl := scanId_inj (hn _ row hrow)
        exact absurd (hs.scans _ row hrow).symm hstale
    have hx : (appendScanPageBody (scanId g target) expected next heights).exec s =
        .error .incompleteScan := by
      rw [appendScanPageBody, Tx.exec_bind, Tx.exec_readM, hbound]
      simp only [Except.map, Except.bind, Tx.exec_read_bind, hgone]
      rfl
    show Tx.request _ _ s = _
    simp only [Tx.request, Op.precheck, Op.staleOutcome]
    cases checkPage expected next heights with
    | error e => rfl
    | ok u =>
      show Tx.write _ s = _
      rw [Tx.write, hx]
      rfl
  | commitRange r =>
    obtain rfl := List.mem_singleton.mp hmem
    refine (Tx.request_abandon (hread _ _ hstale) fun p => ⟨_, rfl⟩).trans ?_
    simp only [Op.precheck, Op.staleOutcome]
    cases r.check <;> cases s.network r.genesis <;> rfl
  | markUnavailable network b =>
    obtain rfl := List.mem_singleton.mp hmem
    refine (Tx.request_abandon (hread _ _ hstale) fun n => ⟨_, rfl⟩).trans ?_
    simp only [Op.precheck, Op.staleOutcome]
    cases b.check <;> cases s.network network <;> rfl
  | setPrunedFloor guard floor =>
    obtain rfl := List.mem_singleton.mp hmem
    refine (Tx.write_abandon (hread _ _ hstale)).trans ?_
    rw [hbound]
    rfl
  | initializeCoverage guard start =>
    obtain rfl := List.mem_singleton.mp hmem
    refine (Tx.write_abandon (hread _ _ hstale)).trans ?_
    rw [hbound]
    rfl

/-- A stored scan was stored before, was advanced by a page, or was just begun. -/
theorem Effect.scan_origin {now : Timestamp} {op : Op} {s s' : Store}
    {r : Except StoreError CommitResult} (h : Effect now op s r s') {id : ScanId} {row : ScanRow}
    (hrow : s'.scans.get? id = some row) :
    s.scans.get? id = some row ∨
      (∃ old next, s.scans.get? id = some old ∧ row = old.advance next) ∨
      ∃ scan, op = .beginScan scan ∧ s.genesis = some scan.genesis ∧ id = scan.id ∧
        row = scan.row := by
  cases h with
  | unchanged | targeted | floored | initialized | polled | cutOver | recomputed =>
    exact .inl hrow
  | @began scan _ hnet _ _ =>
    rw [KeyedTable.get?_put] at hrow
    split at hrow
    · cases hrow
      exact .inr (.inr ⟨scan, rfl, hnet, by assumption, rfl⟩)
    · exact .inl hrow
  | @appended _ _ next _ old _ _ _ h =>
    rw [h.final, KeyedTable.get?_put] at hrow
    split at hrow
    · rename_i hid
      cases hrow
      exact .inr (.inl ⟨old, next, hid ▸ h.get, rfl⟩)
    · exact .inl hrow
  | committed h => exact .inl (h.frame.2.2.2.2.2.2.1 ▸ hrow)
  | ranged h =>
    rw [h.frame] at hrow
    exact .inl hrow
  | marked _ h =>
    rw [h.final] at hrow
    exact .inl hrow
  | reindexed h => exact .inl ((h.scans id row).mp hrow).1

theorem Effect.namedScans {now : Timestamp} {op : Op} {s s' : Store}
    {r : Except StoreError CommitResult} (h : Effect now op s r s')
    (hop : ∀ scan, op = .beginScan scan →
      scan.id = scanId ⟨scan.indexable, scan.expectedGeneration⟩ scan.at_)
    (hs : s.NamedScans) : s'.NamedScans := by
  intro id row hrow
  rcases h.scan_origin hrow with hold | ⟨old, next, hold, rfl⟩ | ⟨scan, rfl, -, rfl, rfl⟩
  · exact hs id row hold
  · exact hs id old hold
  · exact hop scan rfl

/-! ### Workers and reindexes -/

/-- The store, and the guards that each worker has read. -/
structure System where
  store : Store
  held : ℕ → List GenerationGuard

/-- A migrated store without rows, before any worker has read a guard. -/
def System.start (pg : Bool) (genesis : BlockHash) : System := ⟨Store.bound pg genesis, fun _ => []⟩

/-- A worker reads a guard, a worker calls under guards that it read, or the system
reindexes, announces a target, polls, cuts over or recomputes. -/
inductive Event where
  | read (worker : ℕ) (indexable : Indexable)
  | call (worker : ℕ) (guards : List GenerationGuard) (c : Call)
  | other (c : Call)

/-- The reads and calls that may come next. -/
inductive SystemStep : System → Event → System → Prop
  | read (σ : System) (w : ℕ) (i : Indexable) :
      SystemStep σ (.read w i) { σ with
        held := fun v => if v = w then ⟨i, σ.store.generation i⟩ :: σ.held v else σ.held v }
  | call {σ : System} (w : ℕ) {guards : List GenerationGuard} {c : Call} {s' : Store}
      (hop : Guarded c.op guards) (hheld : ∀ g ∈ guards, g ∈ σ.held w)
      (h : Calls σ.store c s') : SystemStep σ (.call w guards c) { σ with store := s' }
  | other {σ : System} {c : Call} {s' : Store}
      (hop : (∃ is, c.op = .reindex is) ∨ (∃ t, c.op = .setFinalizedTarget t) ∨
        (∃ d, c.op = .insertDifficultySnapshot d) ∨ c.op = .tryAuthorshipCutover ∨
        c.op = .recomputeAuthorshipSummary)
      (h : Calls σ.store c s') : SystemStep σ (.other c) { σ with store := s' }

/-- An interleaving of workers and reindexes. -/
def SystemRun (pg : Bool) (genesis : BlockHash) : List Event → System → Prop :=
  History.Run SystemStep (System.start pg genesis)

/-- The events that reindexed a domain. -/
def Event.reindexed (i : Indexable) : Event → Prop
  | .read .. => False
  | .call _ _ c => c.reindexed i
  | .other c => c.reindexed i

instance (i : Indexable) : DecidablePred (Event.reindexed i)
  | .read .. => .isFalse id
  | .call _ _ c => inferInstanceAs (Decidable (c.reindexed i))
  | .other c => inferInstanceAs (Decidable (c.reindexed i))

/-- What holds of the store of every reachable system. -/
structure System.Inv (genesis : BlockHash) (σ : System) : Prop where
  genesis : σ.store.genesis = some genesis
  stamped : σ.store.Stamped
  named : σ.store.NamedScans

theorem SystemStep.inv {genesis : BlockHash} {σ σ' : System} {e : Event} (hσ : σ.Inv genesis)
    (h : SystemStep σ e σ') : σ'.Inv genesis := by
  have hkeep : ∀ {c : Call} {s' : Store}, Calls σ.store c s' →
      (∀ scan, c.op = .beginScan scan →
        scan.id = scanId ⟨scan.indexable, scan.expectedGeneration⟩ scan.at_) →
      ({ σ with store := s' } : System).Inv genesis := by
    intro c s' hc hop
    obtain ⟨-, -, heff⟩ := hc.effect
    exact ⟨heff.genesis.trans hσ.genesis, heff.stamped hσ.stamped, heff.namedScans hop hσ.named⟩
  cases h with
  | read => exact ⟨hσ.genesis, hσ.stamped, hσ.named⟩
  | call w hop _ hc =>
    refine hkeep hc fun scan hscan => ?_
    rw [hscan] at hop
    cases hop
    rfl
  | other hop hc =>
    refine hkeep hc fun scan hscan => ?_
    rw [hscan] at hop
    simp at hop

theorem SystemRun.inv {pg : Bool} {genesis : BlockHash} {es : List Event} {σ : System}
    (h : SystemRun pg genesis es σ) : σ.Inv genesis := by
  refine h.invariant (I := System.Inv genesis) ⟨rfl, ⟨?_, ?_, ?_⟩, ?_⟩ SystemStep.inv <;>
  · intro k row hrow
    cases hrow

/-- A write under a guard is made under a guard of the call. -/
theorem Guarded.mem {op : Op} {guards : List GenerationGuard} (h : Guarded op guards) {s : Store}
    (hs : s.NamedScans) {g : GenerationGuard} (hg : op.WritesUnder s g) : g ∈ guards := by
  cases h with
  | commitBlock b => exact hg
  | beginScan guard genesis target height => exact List.mem_singleton.mpr hg
  | appendScanPage guard target expected next heights =>
    obtain ⟨row, hrow, rfl⟩ := hg
    exact List.mem_singleton.mpr (scanId_inj (hs _ row hrow)).symm
  | markUnavailable genesis b => exact List.mem_singleton.mpr hg
  | commitRange | setPrunedFloor | initializeCoverage => exact hg.elim

/-- **A derived row that stands after an event was written by it under the current
generation, or stood before**; and the event did not reindex its domain. -/
theorem SystemStep.derives {genesis : BlockHash} {σ σ' : System} {e : Event} (hσ : σ.Inv genesis)
    (h : SystemStep σ e σ') {d : DerivedRow} (hin : d.In σ'.store) :
    (∃ w guards c, e = .call w guards c ∧ ⟨d.domain, σ'.store.generation d.domain⟩ ∈ guards ∧
      (∃ a, c.outcome = .ok a) ∧ ¬d.In c.pre ∧ d.In c.post) ∧ ¬e.reindexed d.domain ∨
    (d.In σ.store ∧ σ.store.generation d.domain = σ'.store.generation d.domain) ∧
      ¬e.reindexed d.domain := by
  cases h with
  | read => exact .inr ⟨⟨hin, rfl⟩, id⟩
  | @call w guards c s' hop hheld hc =>
    obtain ⟨hpre, hpost, heff⟩ := hc.effect
    rcases heff.generation d.domain with ⟨⟨is, hr, -⟩, -⟩ | ⟨hno, hgen⟩
    · rw [hr] at hop
      cases hop
    · by_cases hs : d.In σ.store
      · exact .inr ⟨⟨hs, hgen.symm⟩, hno⟩
      · obtain ⟨hw, ha⟩ := heff.derives hin hs hno
        refine .inl ⟨⟨w, guards, c, rfl, ?_, ha, ?_, ?_⟩, hno⟩
        · show _ ∈ guards
          rw [show s'.generation d.domain = _ from hgen]
          exact hop.mem hσ.named hw
        · rw [hpre]
          exact hs
        · rw [hpost]
          exact hin
  | @other c s' hop hc =>
    obtain ⟨hpre, hpost, heff⟩ := hc.effect
    rcases heff.generation d.domain with ⟨⟨is, hr, hi, ho⟩, -⟩ | ⟨hno, hgen⟩
    · -- a reindex leaves no row of its domains
      rw [hr, ho] at heff
      exact absurd hin (heff.reindex.derived hσ.stamped (mem_reindexed.mpr hi))
    · by_cases hs : d.In σ.store
      · exact .inr ⟨⟨hs, hgen.symm⟩, hno⟩
      · obtain ⟨hw, -⟩ := heff.derives hin hs hno
        rcases hop with ⟨is, hr⟩ | ⟨t, hr⟩ | ⟨diff, hr⟩ | hr | hr <;>
        · rw [hr] at hw
          exact hw.elim

/-- **Generations isolate rebuilt indexes.**  In every interleaving of workers with
reindexes, a call under a guard that is older than its domain's generation leaves the
whole store unchanged and is rejected; and every derived row was written by a worker
since the last reindex of its domain, under a guard of the current generation. -/
theorem generation_isolated {pg : Bool} {genesis : BlockHash} {es : List Event} {σ : System}
    (h : SystemRun pg genesis es σ) :
    (∀ w guards c σ', SystemStep σ (.call w guards c) σ' →
      (∃ g ∈ guards, g.expected < σ.store.generation g.indexable) →
      σ'.store = σ.store ∧
        (c.op.precheck σ.store = .ok () → c.outcome = c.op.staleOutcome) ∧
        ∀ e, c.op.precheck σ.store = .error e → c.outcome = .error e) ∧
    ∀ d : DerivedRow, d.In σ.store → ∃ w guards c,
      .call w guards c ∈ History.since (Event.reindexed d.domain) es ∧
        ⟨d.domain, σ.store.generation d.domain⟩ ∈ guards ∧ (∃ a, c.outcome = .ok a) ∧
        ¬d.In c.pre ∧ d.In c.post := by
  refine ⟨?_, ?_⟩
  · rintro w guards c σ' hstep ⟨g, hg, hlt⟩
    have hσ := h.inv
    cases hstep with
    | call _ hop _ hc =>
      cases hc with
      | call now op s =>
        have happ := stale_apply hop hσ.genesis hσ.stamped hσ.named hg (by omega) now
        refine ⟨congrArg Prod.snd happ, ?_, ?_⟩
        · intro hpre
          show (op.apply now σ.store).1 = _
          rw [happ, show op.precheck σ.store = .ok () from hpre]
          rfl
        · intro e hpre
          show (op.apply now σ.store).1 = _
          rw [happ, show op.precheck σ.store = .error e from hpre]
          rfl
  · intro d hd
    -- the generation is fixed, so that the row and its generation have one cause
    obtain ⟨gen, hgen⟩ : ∃ gen, σ.store.generation d.domain = gen := ⟨_, rfl⟩
    rw [hgen]
    have hcause : ∃ e ∈ History.since (Event.reindexed d.domain) es, ∃ w guards c,
        e = .call w guards c ∧ ⟨d.domain, gen⟩ ∈ guards ∧ (∃ a, c.outcome = .ok a) ∧
          ¬d.In c.pre ∧ d.In c.post := by
      refine h.cause (F := fun σ : System => d.In σ.store ∧ σ.store.generation d.domain = gen)
        ?_ ?_ ⟨hd, hgen⟩
      · rintro ⟨hin, -⟩
        cases d <;> cases hin
      · rintro es σ e σ' hrun hstep ⟨hin, rfl⟩
        exact hstep.derives (SystemRun.inv hrun) hin
    obtain ⟨e, he, w, guards, c, rfl, hc⟩ := hcause
    exact ⟨w, guards, c, he, hc⟩

/-- A scan that a worker opens under the first generation of the winners. -/
def openedScan : Scan :=
  ⟨scanId ⟨.winners, 1⟩ (.uniform 2), .uniform 1, .uniform 2, 5, .winners, 1⟩

/-- The store once the scan is open and the authorship has been reindexed. -/
def lateStore : Store :=
  ((Op.reindex [.authorship]).apply (.utc 0)
    ((Op.beginScan openedScan).apply (.utc 0) (Store.bound false (.uniform 1))).2).2

/-- A worker reads two guards and opens a scan, the authorship is reindexed, and the
worker's late floor of authorship is rejected, while its scan stays. -/
theorem generation_isolated_late : ∃ es σ c σ', SystemRun false (.uniform 1) es σ ∧
    SystemStep σ (.call 0 [⟨.authorship, 1⟩] c) σ' ∧ σ'.store = σ.store ∧
    c.outcome = .ok .staleGeneration ∧ (DerivedRow.scan openedScan.id openedScan.row).In σ.store ∧
    ∃ w guards c, .call w guards c ∈ History.since (Event.reindexed .winners) es ∧
      ⟨.winners, σ.store.generation .winners⟩ ∈ guards ∧ ∃ a, c.outcome = .ok a := by
  obtain ⟨es, σ, run, hstore, hheld⟩ : ∃ es σ, SystemRun false (.uniform 1) es σ ∧
      σ.store = lateStore ∧ σ.held 0 = [⟨.winners, 1⟩, ⟨.authorship, 1⟩] :=
    ⟨_, _, History.Run.nil
      |>.snoc (.read _ 0 .authorship)
      |>.snoc (.read _ 0 .winners)
      |>.snoc (.call 0 (.beginScan ⟨.winners, 1⟩ (.uniform 1) (.uniform 2) 5) (by decide +kernel)
        (.call (.utc 0) (.beginScan openedScan) _))
      |>.snoc (.other (.inl ⟨[.authorship], rfl⟩) (.call (.utc 0) (.reindex [.authorship]) _)),
      rfl, by decide +kernel⟩
  have hstep := SystemStep.call (σ := σ) 0 (.setPrunedFloor ⟨.authorship, 1⟩ (some 3))
    (by simp [hheld]) (.call (.utc 0) (.setPrunedFloor ⟨.authorship, 1⟩ (some 3)) _)
  have hlate : 1 < σ.store.generation .authorship := by
    rw [hstore]
    decide +kernel
  have hin : (DerivedRow.scan openedScan.id openedScan.row).In σ.store := by
    show σ.store.scans.get? _ = _
    rw [hstore]
    decide +kernel
  obtain ⟨hrejected, hderived⟩ := generation_isolated run
  obtain ⟨hsame, hout, -⟩ := hrejected 0 _ _ _ hstep ⟨_, List.mem_singleton_self _, hlate⟩
  obtain ⟨w, guards, c, he, hg, ha, -⟩ := hderived _ hin
  exact ⟨es, σ, _, _, run, hstep, hsame, hout rfl, hin, w, guards, c, he, hg, ha⟩

end Dashboard

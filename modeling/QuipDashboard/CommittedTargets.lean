/-
What turns a finalized target committed.

`committed_target` looks for the target's hash among the finalized identities and
for its height in the coverage of any of the four domains.  Commits write both;
an absence marker writes the identity alone, and so it can complete a height
that another domain has covered by a range without an identity.

* `committedTarget_true`, `committedTarget_false` — what the answer says;
* `Effect.uncommitting` — targets, floors, coverage records and scans change
  neither side;
* `committedTarget_only_commits` — **a call other than a commit completes a
  target exactly when it is a marker at a height that another domain covers**.
-/
import QuipDashboard.Identity

namespace Dashboard

/-- `committed_target` found an identity of the same bytes and a domain that
covers the height. -/
theorem committedTarget_true {t : RetainedBlock} {s : Store} (hs : s.Canonical) :
    committedTarget t s = .ok true ↔
      (∃ hash, s.finalized.get? t.height = some hash ∧ hash.sameBytes t.hash = true) ∧
        t.height ≤ u64Max ∧ ∃ i, t.height ∈ s.covered i := by
  have hany : ([Indexable.winners, .difficulty, .participation, .authorship].any fun i =>
      (s.coverages.get? i).any fun cov => cov.gen = s.generation i && cov.contains t.height t.height)
        = true ↔ ∃ i, t.height ∈ s.covered i := by
    rw [List.any_eq_true]
    constructor
    · rintro ⟨i, -, hi⟩
      obtain ⟨cov, hcov, h⟩ := Option.any_eq_true _ _ |>.mp hi
      rw [Bool.and_eq_true] at h
      exact ⟨i, cov, hcov, h.2⟩
    · rintro ⟨i, cov, hcov, h⟩
      refine ⟨i, Indexable.mem_all i, Option.any_eq_true _ _ |>.mpr ⟨cov, hcov, ?_⟩⟩
      rw [Bool.and_eq_true, decide_eq_true_eq]
      exact ⟨(hs i cov hcov).generation, h⟩
  have hval : ∀ x : Bool, (Except.ok x : Except StoreError Bool) = .ok true ↔ x = true := by
    intro x
    rw [Except.ok.injEq]
  unfold committedTarget
  cases hget : s.finalized.get? t.height with
  | none => simp
  | some hash =>
    simp only [Option.some.injEq, exists_eq_left']
    by_cases hb : hash.sameBytes t.hash = true
    · rw [if_neg (by rw [hb]; exact Bool.false_ne_true)]
      by_cases hle : t.height ≤ u64Max
      · rw [height_of_le hle]
        exact (hval _).trans (hany.trans ⟨fun h => ⟨hb, hle, h⟩, fun h => h.2.2⟩)
      · rw [height, if_neg hle]
        exact iff_of_false (fun h => by cases h) fun h => hle h.2.1
    · rw [if_pos (by rw [Bool.eq_false_iff.mpr hb]; rfl)]
      exact iff_of_false (fun h => by cases h) fun h => hb h.1

/-- Without an identity the answer is no. -/
theorem committedTarget_none {t : RetainedBlock} {s : Store}
    (h : s.finalized.get? t.height = none) : committedTarget t s = .ok false := by
  unfold committedTarget
  rw [h]

/-- A call that is no block commit, range commit or reindex, and writes no records. -/
def Op.Uncommitting : Op → Prop
  | .markUnavailable .. | .setFinalizedTarget _ | .setPrunedFloor .. | .initializeCoverage ..
  | .beginScan _ => True
  | _ => False

/-- Such a call covers nothing, and only a marker writes an identity. -/
theorem Effect.uncommitting {now : Timestamp} {op : Op} {s s' : Store}
    {r : Except StoreError CommitResult} (h : Effect now op s r s') (hop : op.Uncommitting) :
    (∀ i, s'.covered i ⊆ s.covered i) ∧
      (s'.finalized = s.finalized ∨
        ∃ genesis b, op = .markUnavailable genesis b ∧ Marks now genesis b s s') := by
  refine ⟨?_, ?_⟩
  · intro i n hn
    by_contra hnot
    obtain ⟨-, ⟨b, rfl, -⟩ | ⟨c, rfl, -⟩⟩ := h.covered hn hnot
    · exact hop
    · exact hop
  · cases h with
    | unchanged | began | targeted | floored | initialized => exact .inl rfl
    | @marked genesis b _ _ _ _ hm => exact .inr ⟨genesis, b, rfl, hm⟩
    | appended | committed | ranged | reindexed | polled | cutOver | recomputed => exact hop.elim

/-- An absence marker whose checks pass, for a height without an identity that
some domain covers; the target is that height with the marker's bytes. -/
structure CompletesTarget (genesis : BlockHash) (b : UnavailableBlock) (t : RetainedBlock)
    (s : Store) : Prop where
  domain : b.guard.indexable = b.reason.domain
  height_le : b.height ≤ u64Max
  network : s.genesis = some genesis
  current : s.generation b.guard.indexable = b.guard.expected
  identity : ∀ h ∈ s.retainedHashes b.height, h = b.hash
  uncovered : b.height ∉ s.covered b.guard.indexable
  absent : s.finalized.get? b.height = none
  elsewhere : ∃ i, b.height ∈ s.covered i
  height : t.height = b.height
  bytes : b.hash.sameBytes t.hash = true

/-- The calls that complete a target. -/
def Op.Completes (t : RetainedBlock) (s : Store) : Op → Prop
  | .markUnavailable genesis b => CompletesTarget genesis b t s
  | _ => False

/-- A marker whose checks pass is recorded, with its identity. -/
theorem markUnavailable_of {now : Timestamp} {genesis : BlockHash} {b : UnavailableBlock}
    {s : Store} (hs : s.Canonical) (hdomain : b.guard.indexable = b.reason.domain)
    (hle : b.height ≤ u64Max) (hnet : s.genesis = some genesis)
    (hcurrent : s.generation b.guard.indexable = b.guard.expected)
    (hid : ∀ h ∈ s.retainedHashes b.height, h = b.hash)
    (hnot : b.height ∉ s.covered b.guard.indexable) :
    (markUnavailable now genesis b s).2 = { s with
      unavailable := s.unavailable.insertNew b.key (b.row now b.height)
      finalized := s.finalized.insertNew b.height b.hash } := by
  have hcheck : b.check = .ok b.height := by
    rw [UnavailableBlock.check, if_neg (not_not.mpr hdomain), height_of_le hle]
  obtain ⟨cov, hcov, -⟩ := hs.coverage b.guard.indexable 0
  have hcontains : cov.contains b.height b.height = false := by
    rw [← Bool.not_eq_true, Coverage.contains_self, (Store.coverage_ok hcov).2.2]
    exact hnot
  have hstale : Store.staleGeneration b.guard.indexable b.guard.expected s = false :=
    Store.staleGeneration_eq_false.mpr hcurrent
  have hconf : conflictingHistory b.height b.hash s = false := conflictingHistory_eq_false.mpr hid
  unfold markUnavailable Tx.request
  rw [hcheck]
  simp only [Tx.write]
  unfold markUnavailableBody
  rw [Tx.exec_bind, Tx.exec_readM, Store.network_ok.mpr hnet]
  simp only [Except.map, Except.bind]
  rw [Tx.exec_read_bind, if_neg (by rw [hstale]; exact Bool.false_ne_true), Tx.exec_read_bind,
    if_neg (by rw [hconf]; exact Bool.false_ne_true), Tx.exec_bind, Tx.exec_readM, hcov]
  simp only [Except.map, Except.bind, hcontains, Bool.false_eq_true, if_false]
  rw [Tx.exec_update_bind, Tx.exec_update_bind]
  rfl

/-- **Only a marker elsewhere turns a target committed without a commit.**  In
every reachable store, a call of `mark_unavailable`, `set_finalized_target`,
`set_pruned_floor`, `initialize_coverage` or `begin_scan` turns the answer for a
target from false to true exactly when it is a marker whose checks pass, for the
target's height and bytes, while the height has no identity and another domain's
current generation covers it. -/
theorem committedTarget_only_commits {pg : Bool} {genesis : BlockHash} {cs : List Call} {s : Store}
    (h : StoreRun pg genesis cs s) (now : Timestamp) {op : Op} (hop : op.Uncommitting)
    (t : RetainedBlock) :
    (committedTarget t s = .ok false → committedTarget t (op.apply now s).2 ≠ .ok true) ↔
      ¬op.Completes t s := by
  have hs := h.canonical
  have heff := apply_effect now op s
  have hs' := heff.canonical hs
  constructor
  · intro hkeep hc
    cases op with
    | markUnavailable g b =>
      have hfinal : ((Op.markUnavailable g b).apply now s).2 = { s with
          unavailable := s.unavailable.insertNew b.key (b.row now b.height)
          finalized := s.finalized.insertNew b.height b.hash } :=
        markUnavailable_of hs hc.domain hc.height_le hc.network hc.current hc.identity hc.uncovered
      have hnone : s.finalized.get? t.height = none := hc.height ▸ hc.absent
      refine hkeep (committedTarget_none hnone) ((committedTarget_true hs').mpr ?_)
      rw [hfinal, hc.height]
      refine ⟨⟨b.hash, ?_, hc.bytes⟩, hc.height_le, hc.elsewhere⟩
      rw [KeyedTable.get?_insertNew, if_pos rfl, hc.absent]
      rfl
    | _ => exact hc
  · intro hnot hfalse htrue
    obtain ⟨⟨hash, hget, hbytes⟩, hle, i, hi⟩ := (committedTarget_true hs').mp htrue
    obtain ⟨hcov, hfin⟩ := heff.uncommitting hop
    have hbefore : t.height ∈ s.covered i := hcov i hi
    -- the height was covered before, so the identity is what was missing
    have hmissing : ¬∃ hash, s.finalized.get? t.height = some hash ∧ hash.sameBytes t.hash = true := by
      intro hex
      have := (committedTarget_true hs).mpr ⟨hex, hle, i, hbefore⟩
      rw [this] at hfalse
      cases hfalse
    rcases hfin with hfin | ⟨g, b, rfl, hm⟩
    · rw [hfin] at hget
      exact hmissing ⟨hash, hget, hbytes⟩
    · rw [hm.final] at hget
      rcases KeyedTable.get?_of_insertNew hget with hget | ⟨hheight, habsent, rfl⟩
      · exact hmissing ⟨hash, hget, hbytes⟩
      · exact hnot ⟨hm.domain, hm.height_le, hm.network, hm.current, hm.identity, hm.uncovered,
          hheight ▸ habsent, ⟨i, hheight ▸ hbefore⟩, hheight, hbytes⟩

/-- A finished scan for winners up to height 9, and the range that it completes. -/
def emptyScan : List Op :=
  [.beginScan ⟨"winners", .uniform 1, .uniform 2, 9, .winners, 1⟩,
    .appendScanPage "winners" none none [],
    .commitRange ⟨.uniform 1, .winners, 1, 0, 9, "winners"⟩]

/-- The store after that range. -/
def rangeStore : Store :=
  emptyScan.foldl (fun s op => (op.apply (.utc 0) s).2) (Store.bound false (.uniform 1))

theorem rangeStore_run : ∃ cs, StoreRun false (.uniform 1) cs rangeStore :=
  ⟨_, .snoc (.snoc (.snoc .nil (.call (.utc 0) _ _)) (.call (.utc 0) _ _)) (.call (.utc 0) _ _)⟩

/-- A difficulty marker inside of that range. -/
def absentDifficulty : Op :=
  .markUnavailable (.uniform 1)
    ⟨⟨.difficulty, 1⟩, 5, .uniform 3, .uniform 3, .missingRetainedDifficulty⟩

/-- A pruned floor does not commit a target inside of the range. -/
theorem committedTarget_only_commits_floor :
    committedTarget ⟨5, .uniform 3⟩ ((Op.setPrunedFloor ⟨.winners, 1⟩ (some 7)).apply (.utc 0)
      rangeStore).2 ≠ .ok true := by
  obtain ⟨cs, run⟩ := rangeStore_run
  have hop : (Op.setPrunedFloor ⟨.winners, 1⟩ (some 7)).Uncommitting := trivial
  refine (committedTarget_only_commits run (.utc 0) hop ⟨5, .uniform 3⟩).mpr (fun h => h) ?_
  decide +kernel

/-- The marker of another domain commits it. -/
theorem marker_commits_target : ∃ cs s t, StoreRun false (.uniform 1) cs s ∧
    committedTarget t s = .ok false ∧
    committedTarget t (absentDifficulty.apply (.utc 0) s).2 = .ok true := by
  obtain ⟨cs, run⟩ := rangeStore_run
  exact ⟨cs, rangeStore, ⟨5, .uniform 3⟩, run, by decide +kernel, by decide +kernel⟩

end Dashboard

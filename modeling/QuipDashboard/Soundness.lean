/-
Soundness of coverage over whole runs.

* `covered_sound` — **every covered height of a domain was committed since the
  domain's last reindex, under its current generation**: by a block commit that
  completed the domain there, or by a range of a finished scan that lists no
  winner there and whose listed winners were all covered.
-/
import QuipDashboard.Runs

namespace Dashboard

/-- A call that applied a block commit at `n` that completes the domain `i` in
generation `gen`. -/
def Call.CommitsBlock (c : Call) (i : Indexable) (gen n : ℕ) : Prop :=
  c.outcome = .ok .applied ∧
    ∃ b, c.op = .commitBlock b ∧ b.height = n ∧ i ∈ b.completed ∧ ⟨i, gen⟩ ∈ b.guards

/-- A call that applied a range of `i` around `n` in generation `gen`: its scan was
finished, reached the end of the range and did not list `n`, and the winners it
listed in the range were covered. -/
def Call.CommitsRange (c : Call) (genesis : BlockHash) (i : Indexable) (gen n : ℕ) : Prop :=
  c.outcome = .ok .applied ∧ i ≠ .authorship ∧
    ∃ r row, c.op = .commitRange r ∧ r.indexable = i ∧ r.expectedGeneration = gen ∧
      n ∈ Set.Icc r.from_ r.through ∧ c.pre.scans.get? r.scanId = some row ∧
      row.finished = true ∧ row.genesis = genesis ∧ row.domain = i ∧ row.generation = gen ∧
      r.through ≤ row.finalizedHeight ∧ n ∉ c.pre.winnerHeights r.scanId ∧
      ∀ m ∈ c.pre.winnerHeights r.scanId, m ∈ Set.Icc r.from_ r.through → m ∈ c.pre.covered i

/-- What newly covers a height. -/
theorem Effect.covers {now : Timestamp} {op : Op} {s s' : Store} {genesis : BlockHash}
    {r : Except StoreError CommitResult} (h : Effect now op s r s') (hg : s.genesis = some genesis)
    {i : Indexable} {n : ℕ} (hn : n ∈ s'.covered i) (hs : n ∉ s.covered i) :
    (⟨now, op, s, r, s'⟩ : Call).CommitsBlock i (s'.generation i) n ∨
      (⟨now, op, s, r, s'⟩ : Call).CommitsRange genesis i (s'.generation i) n := by
  obtain ⟨rfl, ⟨b, rfl, hc, hi, rfl⟩ | ⟨r, rfl, hr, rfl, hmem⟩⟩ := h.covered hn hs
  · left
    have hgen : s'.generation i = s.generation i := by
      rw [Store.generation, Store.generation, hc.frame.2.2.1]
    obtain ⟨⟨j, gen⟩, hgd, rfl⟩ := hc.guarded i (BlockCommit.mem_affected.mpr (.inl hi))
    have hcur : s.generation j = gen := hc.current _ hgd
    refine ⟨rfl, b, rfl, rfl, hi, ?_⟩
    rw [hgen, hcur]
    exact hgd
  · right
    have hgen : s'.generation r.indexable = s.generation r.indexable := by
      rw [hr.frame]
      rfl
    obtain ⟨row, hrow, hfin, hgenesis, hdom, hrg, hthrough⟩ := hr.scan
    rw [hr.network] at hg
    cases hg
    refine ⟨rfl, hr.winnerBased, r, row, rfl, rfl, ?_, hmem, hrow, hfin, hgenesis, hdom, ?_,
      hthrough, fun hlist => hs (hr.winners n hlist hmem.1 hmem.2), fun m hm hmr => ?_⟩
    · rw [hgen, hr.current]
    · rw [hgen, hrg, hr.current]
    · exact hr.winners m hm hmr.1 hmr.2

theorem StoreRun.step_effect {pg : Bool} {genesis : BlockHash} {cs : List Call} {s : Store}
    (h : StoreRun pg genesis cs s) {c : Call} (hc : c ∈ cs) :
    c.pre.genesis = some genesis ∧ Effect c.now c.op c.pre c.outcome c.post := by
  obtain ⟨cs', s₁, s₂, h', hstep⟩ := h.before hc
  obtain ⟨rfl, rfl, heff⟩ := hstep.effect
  exact ⟨StoreRun.genesis h', heff⟩

/-- **Coverage is sound over whole runs.**  In every store that any calls reach from an
empty bound store, a height that a domain's coverage contains was covered by a call since
the domain's last reindex, in its current generation.  Authorship grows only by block
commits, and markers, targets and floors cover nothing. -/
theorem covered_sound {pg : Bool} {genesis : BlockHash} {cs : List Call} {s : Store}
    (h : StoreRun pg genesis cs s) :
    (∀ i cov n, s.coverages.get? i = some cov → cov.contains n n = true →
      ∃ c ∈ sinceReindex i cs, c.CommitsBlock i (s.generation i) n ∨
        c.CommitsRange genesis i (s.generation i) n) ∧
    (∀ c ∈ cs, ∀ n, n ∈ c.post.covered .authorship → n ∉ c.pre.covered .authorship →
      ∃ b, c.op = .commitBlock b) ∧
    ∀ c ∈ cs, ((∃ g b, c.op = .markUnavailable g b) ∨ (∃ t, c.op = .setFinalizedTarget t) ∨
      ∃ g f, c.op = .setPrunedFloor g f) → ∀ i, c.post.covered i = c.pre.covered i := by
  refine ⟨?_, ?_, ?_⟩
  · intro i cov n hcov hn
    obtain ⟨gen, hgen⟩ : ∃ gen, s.generation i = gen := ⟨_, rfl⟩
    rw [hgen]
    refine h.cause (F := fun s : Store => n ∈ s.covered i ∧ s.generation i = gen) ?_ ?_
      ⟨⟨cov, hcov, hn⟩, hgen⟩
    · rintro ⟨⟨cov, hcov, -⟩, -⟩
      cases hcov
    · rintro cs s c s' hrun hstep ⟨hn', rfl⟩
      obtain ⟨rfl, rfl, heff⟩ := hstep.effect
      rcases heff.generation i with ⟨⟨is, hop, hi, hout⟩, -⟩ | ⟨hno, hgen⟩
      · -- a reindex leaves nothing covered
        rw [hop, hout] at heff
        rw [heff.reindex.covered i (mem_reindexed.mpr hi)] at hn'
        exact absurd hn' (Set.notMem_empty n)
      · by_cases hs : n ∈ c.pre.covered i
        · exact .inr ⟨⟨hs, hgen.symm⟩, hno⟩
        · exact .inl ⟨heff.covers (StoreRun.genesis hrun) hn' hs, hno⟩
  · intro c hc n hn hs
    obtain ⟨-, heff⟩ := h.step_effect hc
    obtain ⟨-, ⟨b, hop, -⟩ | ⟨r, -, hr, hi, -⟩⟩ := heff.covered hn hs
    · exact ⟨b, hop⟩
    · exact absurd hi hr.winnerBased
  · intro c hc hop i
    exact (h.step_effect hc).2.covered_eq hop i

/-- An empty block at height 5, complete for authorship. -/
def emptyBlock : BlockCommit where
  genesis := .uniform 1
  hash := .uniform 2
  height := 5
  guards := [⟨.authorship, 1⟩]
  records := ⟨none, none, none, []⟩
  completed := [.authorship]

theorem covered_sound_emptyBlock : ∃ cs s, StoreRun false (.uniform 1) cs s ∧
    5 ∈ s.covered .authorship ∧
    ∃ c ∈ sinceReindex .authorship cs, c.CommitsBlock .authorship (s.generation .authorship) 5 ∨
      c.CommitsRange (.uniform 1) .authorship (s.generation .authorship) 5 := by
  have run : StoreRun false (.uniform 1) _ _ :=
    .snoc .nil (.call (.utc 0) (.commitBlock emptyBlock) _)
  have hcov : ∃ cov, (((Op.commitBlock emptyBlock).apply (.utc 0)
      (Store.bound false (.uniform 1))).2.coverages.get? .authorship) = some cov ∧
      cov.contains 5 5 = true :=
    (Option.any_eq_true ..).mp (by decide +kernel)
  obtain ⟨cov, hget, h5⟩ := hcov
  exact ⟨_, _, run, ⟨cov, hget, h5⟩, (covered_sound run).1 _ cov 5 hget h5⟩

end Dashboard

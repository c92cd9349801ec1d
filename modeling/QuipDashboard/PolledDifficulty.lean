/-
Polled difficulty and its reindex.

Polls and block commits write the same table, one row for each height; a second table
keeps what was polled, so that a reindex can restore it.

* `acceptsPoll` — `insert_difficulty_snapshot` records a poll, or finds it unchanged;
* `firstPoll` — the first poll of a run that was accepted at a height;
* `Polled` — the second table is `firstPoll`, whatever was committed;
* `difficulty_reindex_restores` — **a reindex of difficulty leaves exactly the first
  accepted poll of each height, and no row from a block**.
-/
import QuipDashboard.Runs

namespace Dashboard

/-- `unchanged` of `insert_difficulty_snapshot`: the latest polled row says the same. -/
def pollUnchanged (d : DifficultyRecord) (s : Store) : Except StoreError Bool :=
  match latestPoll s with
  | some row => (decodeDifficulty row).map (samePollValue · d)
  | none => .ok false

/-- A poll is accepted when it changes the latest polled value. -/
def acceptsPoll (d : DifficultyRecord) (s : Store) : Prop :=
  d.source = .poll ∧ s.genesis.isSome ∧ pollUnchanged d s = .ok false ∧
    canonicalTimestamp d.observedAt = .ok d.observedAt

instance (d : DifficultyRecord) (s : Store) : Decidable (acceptsPoll d s) :=
  inferInstanceAs (Decidable (_ ∧ _))

/-- The store after an accepted poll. -/
def Store.poll (d : DifficultyRecord) (s : Store) : Store :=
  { s with
    difficultyHistory := s.difficultyHistory.insertNew d.observedAtBlock d
    pollDifficulty := s.pollDifficulty.insertNew d.observedAtBlock d }

/-- A poll with a readable time is written to both tables. -/
theorem exec_writeDifficulty_polled {d : DifficultyRecord} (hsource : d.source = .poll)
    (htime : canonicalTimestamp d.observedAt = .ok d.observedAt) (s : Store) :
    ∃ n, (writeDifficulty d).exec s = .ok (n, s.poll d) := by
  unfold writeDifficulty upsertPollDifficulty upsertDifficulty
  rw [if_neg (by simp [hsource]), htime]
  exact ⟨_, rfl⟩

/-- **`insert_difficulty_snapshot` records exactly the accepted polls.** -/
theorem insertDifficultySnapshot_eq (d : DifficultyRecord) (s : Store) :
    (insertDifficultySnapshot d s).2 = if acceptsPoll d s then s.poll d else s := by
  cases hx : insertDifficultySnapshot d s with
  | mk r s' =>
  by_cases ha : acceptsPoll d s
  · obtain ⟨hsource, hbound, hchanged, htime⟩ := ha
    rw [if_pos ⟨hsource, hbound, hchanged, htime⟩]
    obtain ⟨g, hg⟩ := Option.isSome_iff_exists.mp hbound
    obtain ⟨n, hwrite⟩ := exec_writeDifficulty_polled hsource htime s
    have hok : insertDifficultySnapshot d s = (.ok .applied, s.poll d) := by
      refine Tx.request_ok.mpr ⟨(), by simp [hsource], Tx.write_ok.mpr (.inl ?_)⟩
      refine Tx.exec_readM_bind_ok.mpr ⟨g, by simp [Store.requireBound, hg], ?_⟩
      refine Tx.exec_readM_bind_ok.mpr ⟨false, hchanged, ?_⟩
      exact Tx.exec_bind_ok.mpr ⟨n, _, hwrite, rfl⟩
    rw [hok] at hx
    exact (Prod.mk.inj hx).2.symm
  · rw [if_neg ha]
    rcases Tx.request_cases hx with ⟨rfl, -⟩ | ⟨rfl, -⟩ | ⟨u, a, hc, hx, -⟩
    · rfl
    · rfl
    · obtain ⟨g, hbound, hx⟩ := Tx.exec_readM_bind_ok.mp hx
      obtain ⟨unchanged, hlatest, hx⟩ := Tx.exec_readM_bind_ok.mp hx
      cases unchanged with
      | true =>
        cases hx
        rfl
      | false =>
        -- a poll that is written was accepted
        refine absurd ⟨?_, ?_, hlatest, ?_⟩ ha
        · by_contra hp
          rw [if_pos hp] at hc
          cases hc
        · cases hg : s.genesis with
          | none => simp [Store.requireBound, hg] at hbound
          | some g => rfl
        · obtain ⟨n, s₁, hwrite, -⟩ := Tx.exec_bind_ok.mp hx
          have hsource : ¬d.source = .block := by
            intro hb
            simp [hb] at hc
          unfold writeDifficulty at hwrite
          rw [if_neg hsource] at hwrite
          obtain ⟨m, s₂, hpoll, -⟩ := Tx.exec_bind_ok.mp hwrite
          obtain ⟨t, ht, -⟩ := Tx.exec_ofExcept_bind_ok.mp hpoll
          rw [ht, canonicalTimestamp_ok ht]

/-! ### The first polls of a run -/

/-- The poll that a call was accepted with at this height. -/
def Call.acceptedPoll (height : ℕ) (c : Call) : Option DifficultyRecord :=
  match c.op with
  | .insertDifficultySnapshot d =>
    if acceptsPoll d c.pre ∧ d.observedAtBlock = height then some d else none
  | _ => none

/-- The first poll that was accepted at this height; the calls are latest first. -/
def firstPoll (height : ℕ) : List Call → Option DifficultyRecord
  | [] => none
  | c :: cs => (firstPoll height cs).or (c.acceptedPoll height)

theorem firstPoll_source {height : ℕ} {cs : List Call} {d : DifficultyRecord}
    (h : firstPoll height cs = some d) : d.source = .poll ∧ d.observedAtBlock = height := by
  induction cs with
  | nil => cases h
  | cons c cs ih =>
    rcases Option.or_eq_some_iff.mp h with h | ⟨-, h⟩
    · exact ih h
    · unfold Call.acceptedPoll at h
      split at h
      · split at h
        · rename_i hd
          cases h
          exact ⟨hd.1.1, hd.2⟩
        · cases h
      · cases h

theorem firstPoll_cons {height : ℕ} {c : Call} {cs : List Call}
    (h : ∀ d, c.op ≠ .insertDifficultySnapshot d) :
    firstPoll height (c :: cs) = firstPoll height cs := by
  have hnone : c.acceptedPoll height = none := by
    unfold Call.acceptedPoll
    split
    · exact absurd ‹_› (h _)
    · rfl
  rw [firstPoll, hnone, Option.or_none]

/-- What the two difficulty tables hold after the calls `cs`. -/
structure Polled (cs : List Call) (s : Store) : Prop where
  /-- The second table holds the first poll of each height. -/
  polls : ∀ height, s.pollDifficulty.get? height = firstPoll height cs
  /-- A polled row of the history is one of them. -/
  history : ∀ height row, s.difficultyHistory.get? height = some row → row.source = .poll →
    s.pollDifficulty.get? height = some row
  /-- A polled height has a row in the history. -/
  filled : ∀ height, (s.pollDifficulty.get? height).isSome →
    (s.difficultyHistory.get? height).isSome

theorem Polled.congr {cs cs' : List Call} {s s' : Store} (hs : Polled cs s)
    (hcs : ∀ height, firstPoll height cs' = firstPoll height cs)
    (hd : s'.difficultyHistory = s.difficultyHistory) (hp : s'.pollDifficulty = s.pollDifficulty) :
    Polled cs' s' := by
  refine ⟨fun height => ?_, ?_, ?_⟩
  · rw [hp, hcs]
    exact hs.polls height
  · rw [hp, hd]
    exact hs.history
  · rw [hp, hd]
    exact hs.filled

/-- An accepted poll is the first of its height, or leaves the height alone. -/
theorem Polled.poll {cs : List Call} {s : Store} {d : DifficultyRecord} {c : Call}
    (hs : Polled cs s) (hc : ∀ height, c.acceptedPoll height =
      if d.observedAtBlock = height then some d else none) : Polled (c :: cs) (s.poll d) := by
  have hpolls : ∀ height, (s.poll d).pollDifficulty.get? height = firstPoll height (c :: cs) := by
    intro height
    show (s.pollDifficulty.insertNew d.observedAtBlock d).get? height =
      (firstPoll height cs).or (c.acceptedPoll height)
    rw [KeyedTable.get?_insertNew, hs.polls, hs.polls, hc]
    by_cases hk : height = d.observedAtBlock
    · subst hk
      cases firstPoll d.observedAtBlock cs <;> simp
    · simp [hk, Ne.symm hk]
  refine ⟨hpolls, fun height row hrow hsource => ?_, fun height hsome => ?_⟩
  · show (s.pollDifficulty.insertNew d.observedAtBlock d).get? height = some row
    rcases KeyedTable.get?_of_insertNew hrow with hrow | ⟨rfl, hnone, rfl⟩
    · exact KeyedTable.get?_insertNew_of_some (hs.history height row hrow hsource)
    · -- a height without a row was never polled
      have hfresh : s.pollDifficulty.get? row.observedAtBlock = none := by
        cases hp : s.pollDifficulty.get? row.observedAtBlock with
        | none => rfl
        | some old =>
          have := hs.filled row.observedAtBlock (by rw [hp]; rfl)
          rw [hnone] at this
          cases this
      rw [KeyedTable.get?_insertNew, if_pos rfl, hfresh]
      rfl
  · show ((s.difficultyHistory.insertNew d.observedAtBlock d).get? height).isSome
    rw [KeyedTable.get?_insertNew]
    by_cases hk : height = d.observedAtBlock
    · simp [hk]
    · rw [if_neg hk]
      refine hs.filled height ?_
      have hsome : ((s.pollDifficulty.insertNew d.observedAtBlock d).get? height).isSome := hsome
      rwa [KeyedTable.get?_insertNew, if_neg hk] at hsome

/-! ### Commits and reindexes -/

/-- A poll that the second table holds is not preserved again. -/
theorem exec_preservePoll_known {height : ℕ} {s s' : Store} {u : Unit}
    (hknown : ∀ row, difficultyFrom s .poll height = some row →
      s.pollDifficulty.get? row.observedAtBlock = some row)
    (h : (preservePoll height).exec s = .ok (u, s')) : s' = s := by
  unfold preservePoll at h
  rw [Tx.exec_read_bind] at h
  cases hf : difficultyFrom s .poll height with
  | none =>
    simp only [hf] at h
    cases h
    rfl
  | some old =>
    simp only [hf] at h
    obtain ⟨n, s₁, h₁, h⟩ := Tx.exec_bind_ok.mp h
    obtain ⟨t, ht, h₁⟩ := Tx.exec_ofExcept_bind_ok.mp h₁
    rw [canonicalTimestamp_ok ht] at h₁
    cases h₁
    cases h
    rw [KeyedTable.upsert_of_update_none (hknown old hf) rfl]

/-- **A block record keeps the polls apart**: it replaces or leaves the row of its height,
and the second table stays as it is. -/
theorem Polled.writeDifficulty {cs : List Call} {s s' : Store} {d : DifficultyRecord} {n : ℕ}
    (hs : Polled cs s) (hd : d.source = .block) (h : (writeDifficulty d).exec s = .ok (n, s')) :
    Polled cs s' := by
  obtain ⟨-, history, polls, hfinal, hwrites, -⟩ := exec_writeDifficulty hd h
  have hpolls : s'.pollDifficulty = s.pollDifficulty := by
    unfold Dashboard.writeDifficulty at h
    rw [if_pos hd, Tx.exec_read_bind] at h
    cases hf : difficultyFrom s .block d.observedAtBlock with
    | some row =>
      simp only [hf] at h
      obtain ⟨existing, -, h₁⟩ := Tx.exec_ofExcept_bind_ok.mp h
      obtain ⟨t, ht, h₂⟩ := Tx.exec_ofExcept_bind_ok.mp h₁
      rw [canonicalTimestamp_ok ht] at h₂
      by_cases hsame : (d.enrich existing).same existing = true
      · simp only [hsame, if_true] at h₂
        cases h₂
        rfl
      · by_cases henr : (d.enrich existing).same (existing.enrich (d.enrich existing)) = true
        · simp only [hsame, henr, Bool.not_true, Bool.false_eq_true, if_false] at h₂
          rw [(exec_upsertDifficulty h₂).2]
        · simp only [hsame, henr, Bool.not_false, if_true] at h₂
          cases h₂
    | none =>
      simp only [hf] at h
      obtain ⟨u, s₁, hpreserve, h⟩ := Tx.exec_bind_ok.mp h
      -- the poll that the record preserves is there already
      have hsame : s₁ = s := by
        refine exec_preservePoll_known (fun row hrow => ?_) hpreserve
        obtain ⟨hget, hsource⟩ := Option.filter_eq_some_iff.mp hrow
        have hpoll := hs.history _ row hget (by simpa using hsource)
        rw [hs.polls] at hpoll
        rw [(firstPoll_source hpoll).2, hs.polls]
        exact hpoll
      rw [(exec_upsertDifficulty h).2, hsame]
  have hhistory : s'.difficultyHistory = history := by rw [hfinal]
  have hother : ∀ k, k ≠ d.observedAtBlock → history.get? k = s.difficultyHistory.get? k := by
    intro k hk
    cases hwrites with
    | known => rfl
    | enriched | fresh => exact KeyedTable.get?_put_ne hk
  have hself : ∃ row, history.get? d.observedAtBlock = some row ∧ row.source = .block := by
    cases hwrites with
    | known existing hget hsource => exact ⟨existing, hget, hsource⟩
    | enriched existing hget hsource => exact ⟨_, KeyedTable.get?_put_self _ _ _, hd⟩
    | fresh => exact ⟨d, KeyedTable.get?_put_self _ _ _, hd⟩
  obtain ⟨row, hrow, hblock⟩ := hself
  refine ⟨fun height => ?_, fun height r hr hsource => ?_, fun height hsome => ?_⟩
  · rw [hpolls]
    exact hs.polls height
  · rw [hhistory] at hr
    rw [hpolls]
    by_cases hk : height = d.observedAtBlock
    · rw [hk, hrow] at hr
      cases hr
      rw [hblock] at hsource
      cases hsource
    · rw [hother height hk] at hr
      exact hs.history height r hr hsource
  · rw [hhistory]
    by_cases hk : height = d.observedAtBlock
    · rw [hk, hrow]
      rfl
    · rw [hother height hk]
      rw [hpolls] at hsome
      exact hs.filled height hsome

/-- A commit touches the two difficulty tables by `write_difficulty` alone. -/
theorem CommitRun.difficulty_only {now : Timestamp} {b : BlockCommit} {n : ℕ} {s s' : Store}
    {r : CommitResult} (run : CommitRun now b n s r s') :
    ∃ s₁ s₂ d, (writeRecord writeDifficulty b.records.difficulty).exec s₁ = .ok (d, s₂) ∧
      (s₁.difficultyHistory = s.difficultyHistory ∧ s₁.pollDifficulty = s.pollDifficulty) ∧
      s'.difficultyHistory = s₂.difficultyHistory ∧ s'.pollDifficulty = s₂.pollDifficulty := by
  obtain ⟨-, -, -, -, s₁, s₂, s₃, s₄, s₅, s₆, w, d, a, p, c, h₁, h₂, h₃, h₄, h₅, h₆, rfl, -⟩ := run
  refine ⟨s₁, s₂, d, h₂, ?_, ?_⟩
  · obtain ⟨ns, rfl⟩ := exec_winnerRecord h₁
    exact ⟨rfl, rfl⟩
  · obtain ⟨ab, rfl, -⟩ := exec_authorshipRecord h₃
    obtain ⟨rfl, -, -⟩ := exec_writeParticipants h₄
    obtain ⟨cs, rfl, -⟩ := exec_completeAll h₅
    obtain ⟨va, rfl⟩ := exec_recomputeAfterCutover h₆
    exact ⟨rfl, rfl⟩

/-- The polls that `restorePolls` leaves are those of the second table. -/
theorem restorePolls_get? {cs : List Call} {s : Store} (hs : Polled cs s) (height : ℕ) :
    (restorePolls s).difficultyHistory.get? height = s.pollDifficulty.get? height := by
  show ((s.difficultyHistory.delete fun _ row => row.source = .block).insertAll
    s.pollDifficulty.rows).get? height = _
  rw [KeyedTable.get?_insertAll_rows]
  cases hkept : (s.difficultyHistory.delete fun _ row => row.source = .block).get? height with
  | none => rfl
  | some row =>
    obtain ⟨hrow, hne⟩ := KeyedTable.get?_delete.mp hkept
    have hsource : row.source = .poll := by
      cases hr : row.source with
      | poll => rfl
      | block => simp [hr] at hne
    rw [hs.history height row hrow hsource]
    rfl

/-- **A reindex of difficulty leaves what the second table holds.** -/
theorem reindex_difficulty {cs : List Call} {is : List Indexable} {s s' : Store}
    {gs : List GenerationGuard} (hs : Polled cs s) (h : reindex is s = (.ok gs, s'))
    (hd : .difficulty ∈ is) (height : ℕ) :
    s'.difficultyHistory.get? height = firstPoll height cs := by
  rw [(reindex_rows h).difficulty, if_pos (mem_reindexed.mpr hd), restorePolls_get? hs,
    hs.polls height]

/-- One domain is reindexed until its generations are used up. -/
theorem exec_reindexOne_ok {i : Indexable} {s : Store} (hs : s.Canonical)
    (hgen : s.generation i < u64Max) : ∃ g s', (reindexOne i).exec s = .ok (g, s') := by
  obtain ⟨cov, hcov, -⟩ := hs.coverage i 0
  unfold reindexOne
  rw [Tx.exec_read_bind, if_neg (by omega)]
  simp only [Tx.exec_bind, Tx.exec_readM, hcov, Except.map, Except.bind, Tx.exec_update,
    Tx.exec_pure]
  exact ⟨_, _, rfl⟩

/-! ### Runs -/

/-- **Every call keeps the polls apart.** -/
theorem Calls.polled {cs : List Call} {s s' : Store} {c : Call} (h : Calls s c s')
    (hs : Polled cs s) : Polled (c :: cs) s' := by
  cases h with
  | call now op s =>
  have he := apply_effect now op s
  cases op with
  | insertDifficultySnapshot d =>
    show Polled _ (insertDifficultySnapshot d s).2
    rw [insertDifficultySnapshot_eq]
    by_cases ha : acceptsPoll d s
    · rw [if_pos ha]
      refine hs.poll fun height => ?_
      show (if acceptsPoll d s ∧ d.observedAtBlock = height then some d else none) = _
      simp [ha]
    · rw [if_neg ha]
      refine hs.congr (fun height => ?_) rfl rfl
      show (firstPoll height cs).or
        (if acceptsPoll d s ∧ d.observedAtBlock = height then some d else none) = _
      simp [ha]
  | commitBlock b =>
    rcases commitBlock_run (show commitBlock now b s = _ from rfl) with ⟨hsame, -⟩ | ⟨n, r, -, -, ⟨run⟩⟩
    · exact hs.congr (fun _ => firstPoll_cons fun _ => nofun) (congrArg _ hsame) (congrArg _ hsame)
    · obtain ⟨-, hd, -⟩ := provenance_ok run.provenance
      obtain ⟨s₁, s₂, w, hw, ⟨hd₁, hp₁⟩, hd₂, hp₂⟩ := run.difficulty_only
      have hs₁ : Polled cs s₁ := hs.congr (fun _ => rfl) hd₁ hp₁
      have hs₂ : Polled cs s₂ := by
        cases hrec : b.records.difficulty with
        | none =>
          rw [hrec] at hw
          cases hw
          exact hs₁
        | some d =>
          rw [hrec] at hw
          obtain ⟨m, s₃, hw, hret⟩ := Tx.exec_bind_ok.mp hw
          cases hret
          exact hs₁.writeDifficulty (hd d hrec).2 hw
      exact hs₂.congr (fun _ => firstPoll_cons fun _ => nofun) hd₂ hp₂
  | reindex is =>
    obtain ⟨q, hq⟩ : ∃ q, reindex is s = q := ⟨_, rfl⟩
    show Polled _ (reindex is s).2
    rw [hq]
    obtain ⟨e | gs, s₁⟩ := q
    · rw [reindex_error hq]
      exact hs.congr (fun _ => firstPoll_cons fun _ => nofun) rfl rfl
    · have hrows := reindex_rows hq
      by_cases hd : Indexable.difficulty ∈ is
      · have hget := reindex_difficulty hs hq hd
        refine ⟨fun height => ?_, fun height row hrow _ => ?_, fun height hsome => ?_⟩
        · rw [hrows.polls, hs.polls]
          refine Eq.symm (firstPoll_cons ?_)
          exact fun _ => nofun
        · rw [hrows.polls, hs.polls, ← hget]
          exact hrow
        · rw [hget, ← hs.polls, ← hrows.polls]
          exact hsome
      · refine hs.congr (fun _ => firstPoll_cons fun _ => nofun) ?_ hrows.polls
        rw [hrows.difficulty, if_neg (mt mem_reindexed.mp hd)]
  | beginScan | appendScanPage | commitRange | markUnavailable | setFinalizedTarget
  | setPrunedFloor | initializeCoverage | tryAuthorshipCutover | recomputeAuthorshipSummary =>
    have hsame := he.sameDifficulty (fun _ => nofun) (fun _ => nofun) fun _ => nofun
    exact hs.congr (fun _ => firstPoll_cons fun _ => nofun) hsame.1 hsame.2

theorem StoreRun.polled {pg : Bool} {genesis : BlockHash} {cs : List Call} {s : Store}
    (h : StoreRun pg genesis cs s) : Polled cs s := by
  induction h with
  | nil => exact ⟨fun _ => rfl, nofun, nofun⟩
  | snoc _ hstep ih => exact hstep.polled ih

/-- **After any run, a reindex of difficulty leaves exactly the first accepted poll of each
height, and no row from a block**; it succeeds until the generations are used up. -/
theorem difficulty_reindex_restores {pg : Bool} {genesis : BlockHash} {cs : List Call} {s : Store}
    (h : StoreRun pg genesis cs s) :
    (∀ is gs s', .difficulty ∈ is → reindex is s = (.ok gs, s') → ∀ height,
      s'.difficultyHistory.get? height = firstPoll height cs ∧
      ∀ row, s'.difficultyHistory.get? height = some row → row.source = .poll) ∧
    (s.generation .difficulty < u64Max → ∃ gs s', reindex [.difficulty] s = (.ok gs, s')) := by
  refine ⟨fun is gs s' hd hr height => ?_, fun hgen => ?_⟩
  · have hget := reindex_difficulty h.polled hr hd height
    refine ⟨hget, fun row hrow => ?_⟩
    rw [hget] at hrow
    exact (firstPoll_source hrow).1
  · obtain ⟨g, s', hone⟩ := exec_reindexOne_ok (i := .difficulty) h.canonical hgen
    refine ⟨[g], s', Tx.write_ok.mpr (.inl ?_)⟩
    refine Tx.exec_readM_bind_ok.mpr ⟨genesis, by simp [Store.requireBound, h.genesis], ?_⟩
    refine Tx.exec_bind_ok.mpr ⟨[g], s', ?_, rfl⟩
    exact Tx.exec_bind_ok.mpr ⟨g, s', hone, rfl⟩

/-- A difficulty row of height 5. -/
def difficultyAt5 (source : DifficultySource) (energy : ℚ) : DifficultyRecord where
  observedAtBlock := 5
  difficultyEnergy := energy
  minDiversity := 1 / 4
  minSolutions := 1
  observedAt := .utc 1000
  topologyHash := none
  source := source

/-- A commit of a difficulty row at height 5. -/
def difficultyCommit : BlockCommit where
  genesis := .uniform 1
  hash := .uniform 2
  height := 5
  guards := [⟨.difficulty, 1⟩]
  records := ⟨none, some (difficultyAt5 .block (-3)), none, []⟩
  completed := [.difficulty]

/-- A block overwrites a poll, and the reindex restores it. -/
theorem difficulty_reindex_restores_overwritten : ∃ cs s, StoreRun false (.uniform 1) cs s ∧
    s.difficultyHistory.get? 5 = some (difficultyAt5 .block (-3)) ∧
    (reindex [.difficulty] s).2.difficultyHistory.get? 5 = some (difficultyAt5 .poll (-2)) := by
  have run : StoreRun false (.uniform 1) _ _ :=
    .snoc (.snoc .nil (.call (.utc 0) (.insertDifficultySnapshot (difficultyAt5 .poll (-2))) _))
      (.call (.utc 0) (.commitBlock difficultyCommit) _)
  refine ⟨_, _, run, by decide +kernel, ?_⟩
  obtain ⟨gs, s', hr⟩ := (difficulty_reindex_restores run).2 (by decide +kernel)
  rw [hr, ((difficulty_reindex_restores run).1 [.difficulty] gs s' (by simp) hr 5).1]
  decide +kernel

end Dashboard

/-
Submitting a block commit again.

* `CommitRun.replay` — a commit that was applied is already applied, once the hashes
  that it left behind for its height are spelled like its own;
* `Commits.keeps` — **a commit never forgets a topology or a device time**;
* `commit_replay` — when a commit can be replayed: its winner has to spell the block
  hash as the batch does, because provenance compares bytes and identity compares text.
-/
import QuipDashboard.Runs

namespace Dashboard

/-! ### The statements of a replayed commit -/

theorem exec_recomputeAfterCutover_again {o : Option AuthorshipRecord} {s s' : Store} {u : Unit}
    (h : (recomputeAfterCutover o).exec s = .ok (u, s')) (finalized : KeyedTable ℕ BlockHash) :
    (recomputeAfterCutover o).exec { s' with finalized } = .ok ((), { s' with finalized }) := by
  unfold recomputeAfterCutover at h ⊢
  rw [Tx.exec_read_bind] at h ⊢
  by_cases hc : (o.isSome && s.authorshipCutover = some "1") = true
  · rw [if_pos hc] at h
    obtain ⟨items, -, hs'⟩ := exec_recompute h
    have hc' : (o.isSome && s'.authorshipCutover = some "1") = true := by
      rw [hs']
      exact hc
    rw [if_pos hc']
    have hdone : Recomputed s' := exec_recompute_recomputed h
    exact Recomputed.exec (s := { s' with finalized }) hdone
  · rw [if_neg hc] at h
    cases h
    rw [if_neg hc]
    rfl

theorem Commits.blocks_some {b : BlockCommit} {s s' : Store} {r : CommitResult}
    (h : Commits b s r s') {w : BlockRecord} (hw : b.records.winner = some w) :
    s'.blocks = (putWinner s.blocks w).2 := by
  rw [h.blocks_eq, hw]
  rfl

/-- A commit writes no row but its winner's. -/
theorem Commits.blocks_ne {b : BlockCommit} {s s' : Store} {r : CommitResult}
    (h : Commits b s r s') {w : BlockRecord} (hw : b.records.winner = some w) {k : String}
    (hk : k ≠ w.blockHash.text) : s'.blocks.get? k = s.blocks.get? k := by
  rw [h.blocks_some hw, putWinner_ne hk]

/-- The winner's row after a commit: as written, or the one that was there. -/
theorem Commits.winner_row {b : BlockCommit} {s s' : Store} {r : CommitResult}
    (h : Commits b s r s') {w : BlockRecord} (hw : b.records.winner = some w) {row : BlockRecord}
    (hrow : s'.blocks.get? w.blockHash.text = some row) :
    (row.substrateBlockNumber = w.substrateBlockNumber ∧
      row.substrateBlockHash = w.substrateBlockHash) ∨
    s.blocks.get? w.blockHash.text = some row ∧ (w.enrich row).same row := by
  obtain ⟨row', hrow', hcase⟩ := putWinner_self s.blocks w
  rw [← h.blocks_some hw, hrow] at hrow'
  cases hrow'
  rcases hcase with ⟨-, rfl⟩ | ⟨existing, hget, rfl | ⟨hsame, rfl⟩⟩
  · exact .inl ⟨rfl, rfl⟩
  · exact .inl ⟨rfl, rfl⟩
  · exact .inr ⟨hget, hsame⟩

/-- The winner's row and the hash of the batch, after a commit. -/
theorem Commits.mem_retained {b : BlockCommit} {s s' : Store} {r : CommitResult}
    (h : Commits b s r s') {hash : BlockHash} (hm : hash ∈ s'.retainedHashes b.height) :
    hash = b.hash ∨ ∃ w, b.records.winner = some w ∧
      ∃ row, s'.blocks.get? w.blockHash.text = some row ∧
        row.substrateBlockNumber = b.height ∧ row.substrateBlockHash = hash := by
  rcases Store.mem_retainedHashes.mp hm with hf | ⟨k, row, hrow, hn, rfl⟩
  · rw [h.finalized_eq] at hf
    rcases KeyedTable.get?_of_insertNew hf with hf | ⟨-, -, rfl⟩
    · exact .inl (h.identity hash (Store.mem_retainedHashes.mpr (.inl hf)))
    · exact .inl rfl
  · cases hw : b.records.winner with
    | none =>
      rw [h.blocks_eq, hw] at hrow
      exact .inl (h.identity _ (Store.mem_retainedHashes.mpr (.inr ⟨k, row, hrow, hn, rfl⟩)))
    | some w =>
      by_cases hk : k = w.blockHash.text
      · exact .inr ⟨w, rfl, row, hk ▸ hrow, hn, rfl⟩
      · have hrow : s.blocks.get? k = some row := (h.blocks_ne hw hk).symm.trans hrow
        exact .inl (h.identity _ (Store.mem_retainedHashes.mpr (.inr ⟨k, row, hrow, hn, rfl⟩)))

/-- **Every statement of a replayed commit writes nothing.** -/
theorem CommitRun.replay {now : Timestamp} {b : BlockCommit} {n : ℕ} {s s' : Store}
    {r : CommitResult} (hb : b.check = .ok n) (run : CommitRun now b n s r s') (hs : s.Canonical)
    (hdistinct : (b.records.participation.map fun p => (p.qblockId, p.account)).Nodup)
    (hspelled : ∀ h ∈ s'.retainedHashes b.height, h = b.hash) (now' : Timestamp) :
    (commitBody now' b n).exec s' = .ok (.commit .alreadyApplied, s') := by
  have hc := run.commits hb
  obtain ⟨rfl, -, -⟩ := check_ok hb
  obtain ⟨-, hgenesis, hgenerations, -⟩ := hc.frame
  have hgen : ∀ i, s'.generation i = s.generation i := by
    intro i
    rw [Store.generation, Store.generation, hgenerations]
  refine CommitRun.exec
    { network := hgenesis.trans run.network
      current := fun g hg => (hgen _).trans (run.current g hg)
      identity := hspelled
      provenance := run.provenance
      s₁ := s', s₂ := s', s₃ := s', s₄ := s', s₅ := s', s₆ := s'
      winner := false, difficulty := false, authorship := false
      participation := false, coverage := false
      winner_exec := ?_, difficulty_exec := ?_, authorship_exec := ?_, participation_exec := ?_
      coverage_exec := exec_completeAll_again (hc.canonical hs) hc.completed
      recompute_exec := ?_
      final := ?_
      result := rfl }
  -- the winner that is there already is put again
  · cases hw : b.records.winner with
    | none => rfl
    | some w =>
      have hblocks : putWinner s'.blocks w = (0, s'.blocks) := by
        rw [hc.blocks_some hw]
        exact putWinner_again s.blocks w
      obtain ⟨nodeSummary, hx, hsummary⟩ := exec_writeWinner w s'
      rw [hblocks] at hx hsummary
      rw [hsummary rfl] at hx
      exact Tx.exec_bind_ok.mpr ⟨0, s', hx, rfl⟩
  -- the row of its height comes from a block or is equal to it
  · cases hd : b.records.difficulty with
    | none => rfl
    | some d =>
      have hsource := (hc.difficulty d hd).2
      obtain ⟨hread, m, hwrites⟩ := hc.difficulty_some d hd
      obtain ⟨row, hget, hrow, hdec, hsame⟩ := hwrites.stored hsource hread
      exact Tx.exec_bind_ok.mpr
        ⟨0, s', exec_writeDifficulty_known hsource hread hget hrow hdec hsame, rfl⟩
  · cases ha : b.records.authorship with
    | none => rfl
    | some a =>
      obtain ⟨timestamp, ht, hcheck, htable⟩ := hc.authorship_some a ha
      refine Tx.exec_bind_ok.mpr ⟨0, s', ?_, rfl⟩
      refine Tx.exec_readM_bind_ok.mpr ⟨(), ?_, ?_⟩
      · rw [checkAuthorship_ok (canonicalIso_ok ht).1] at hcheck ⊢
        intro e he hheight
        rw [htable] at he
        rcases putAuthorship_rows (KeyedTable.get?_eq_some.mpr he) with ⟨hk, hfact | hold⟩ | hold
        · exact ⟨congrArg Prod.fst hk, hfact⟩
        · exact hcheck e (KeyedTable.get?_eq_some.mp hold) hheight
        · exact hcheck e (KeyedTable.get?_eq_some.mp hold) hheight
      · refine Tx.exec_ofExcept_bind_ok.mpr ⟨timestamp, ht, ?_⟩
        rw [Tx.exec_update, htable, putAuthorship_again, ← htable]
  -- the budget was checked by the first run
  · obtain ⟨-, -, hbudget⟩ := exec_writeParticipants run.participation_exec
    refine exec_writeParticipants_again hbudget fun p hp => ?_
    rw [hc.participation_eq]
    exact putParticipants_again hdistinct p hp
  · rw [run.final]
    exact exec_recomputeAfterCutover_again run.recompute_exec _
  · have hfinal : s'.finalized.get? b.height = some b.hash := by
      rw [hc.finalized_eq, KeyedTable.get?_insertNew, if_pos rfl]
      cases hf : s.finalized.get? b.height with
      | none => rfl
      | some h => exact congrArg some (run.identity h (Store.mem_retainedHashes.mpr (.inl hf)))
    rw [KeyedTable.insertNew_of_some hfinal]

/-! ### What a commit never forgets -/

/-- Known topologies and device times of `s` are still known in `s'`, and its block
difficulties are still from blocks. -/
structure Enriched (s s' : Store) : Prop where
  winners : ∀ k row, s.blocks.get? k = some row → ∃ row', s'.blocks.get? k = some row' ∧
    (row.topologyHash.isSome → row'.topologyHash.isSome) ∧
    (row.deviceAccessTimeUs.isSome → row'.deviceAccessTimeUs.isSome)
  difficulties : ∀ n row, s.difficultyHistory.get? n = some row → row.source = .block →
    ∃ row', s'.difficultyHistory.get? n = some row' ∧ row'.source = .block ∧
      (row.topologyHash.isSome → row'.topologyHash.isSome)

theorem Enriched.refl (s : Store) : Enriched s s :=
  ⟨fun _ row h => ⟨row, h, id, id⟩, fun _ row h hb => ⟨row, h, hb, id⟩⟩

theorem Enriched.trans {s₁ s₂ s₃ : Store} (h : Enriched s₁ s₂) (h' : Enriched s₂ s₃) :
    Enriched s₁ s₃ := by
  constructor
  · intro k row hrow
    obtain ⟨row₂, hrow₂, ht, hd⟩ := h.winners k row hrow
    obtain ⟨row₃, hrow₃, ht', hd'⟩ := h'.winners k row₂ hrow₂
    exact ⟨row₃, hrow₃, fun h => ht' (ht h), fun h => hd' (hd h)⟩
  · intro n row hrow hb
    obtain ⟨row₂, hrow₂, hb₂, ht⟩ := h.difficulties n row hrow hb
    obtain ⟨row₃, hrow₃, hb₃, ht'⟩ := h'.difficulties n row₂ hrow₂ hb₂
    exact ⟨row₃, hrow₃, hb₃, fun h => ht' (ht h)⟩

theorem putWinner_keeps (blocks : KeyedTable String BlockRecord) (b : BlockRecord) {k : String}
    {row : BlockRecord} (h : blocks.get? k = some row) :
    ∃ row', (putWinner blocks b).2.get? k = some row' ∧
      (row.topologyHash.isSome → row'.topologyHash.isSome) ∧
      (row.deviceAccessTimeUs.isSome → row'.deviceAccessTimeUs.isSome) := by
  by_cases hk : k = b.blockHash.text
  · subst hk
    obtain ⟨row', hrow', ⟨hnone, -⟩ | ⟨existing, hget, hcase⟩⟩ := putWinner_self blocks b
    · rw [hnone] at h
      cases h
    · rw [hget] at h
      cases h
      refine ⟨row', hrow', ?_⟩
      rcases hcase with rfl | ⟨-, rfl⟩
      · constructor <;> intro h <;> simp [BlockRecord.enrich, h]
      · exact ⟨id, id⟩
  · exact ⟨row, (putWinner_ne hk).trans h, id, id⟩

theorem WritesDifficulty.keeps {d : DifficultyRecord} {t t' : KeyedTable ℕ DifficultyRecord}
    {m : ℕ} (h : WritesDifficulty d t m t') (hd : d.source = .block) {n : ℕ} {row : DifficultyRecord}
    (hrow : t.get? n = some row) (hb : row.source = .block) :
    ∃ row', t'.get? n = some row' ∧ row'.source = .block ∧
      (row.topologyHash.isSome → row'.topologyHash.isSome) := by
  cases h with
  | known => exact ⟨row, hrow, hb, id⟩
  | enriched existing hget =>
    rw [KeyedTable.get?_put]
    split
    · rename_i hn
      rw [hn, hget] at hrow
      cases hrow
      exact ⟨_, rfl, hd, fun h => by simp [DifficultyRecord.enrich, h]⟩
    · exact ⟨row, hrow, hb, id⟩
  | fresh hnone =>
    rw [KeyedTable.get?_put]
    split
    · rename_i hn
      rw [hn] at hrow
      rw [hnone row hrow] at hb
      cases hb
    · exact ⟨row, hrow, hb, id⟩

/-- **A commit never forgets a topology or a device time.** -/
theorem Commits.keeps {b : BlockCommit} {s s' : Store} {r : CommitResult} (h : Commits b s r s') :
    Enriched s s' := by
  constructor
  · intro k row hrow
    rw [h.blocks_eq]
    cases b.records.winner with
    | none => exact ⟨row, hrow, id, id⟩
    | some w => exact putWinner_keeps s.blocks w hrow
  · intro n row hrow hb
    cases hd : b.records.difficulty with
    | none =>
      rw [h.difficulty_none hd]
      exact ⟨row, hrow, hb, id⟩
    | some d =>
      obtain ⟨-, m, hw⟩ := h.difficulty_some d hd
      exact hw.keeps (h.difficulty d hd).2 hrow hb

/-- Any sequence of commits, each of which succeeds or fails. -/
def commitAll (s : Store) : List (Timestamp × BlockCommit) → Store
  | [] => s
  | (now, b) :: commits => commitAll (commitBlock now b s).2 commits

theorem commitAll_enriched (commits : List (Timestamp × BlockCommit)) (s : Store) :
    Enriched s (commitAll s commits) := by
  induction commits generalizing s with
  | nil => exact .refl s
  | cons c commits ih =>
    refine Enriched.trans ?_ (ih _)
    rcases commitBlock_cases (Prod.eta (commitBlock c.1 c.2 s)).symm with ⟨hs, -⟩ | ⟨r, -, hc⟩
    · rw [hs]
      exact .refl s
    · exact hc.keeps

/-! ### When a commit can be replayed -/

/-- The winner of a batch spells the block hash as the batch does, or its row already
says what the winner says and is not written. -/
def SpelledAlike (b : BlockCommit) (s : Store) : Prop :=
  ∀ w, b.records.winner = some w → w.substrateBlockHash.text = b.hash.text ∨
    ∃ row, s.blocks.get? w.blockHash.text = some row ∧ (w.enrich row).same row = true

/-- What a commit leaves for its height is spelled as the batch exactly when its
winner is. -/
theorem Commits.spelled_iff {b : BlockCommit} {s s' : Store} {r : CommitResult}
    (h : Commits b s r s') :
    (∀ hash ∈ s'.retainedHashes b.height, hash = b.hash) ↔ SpelledAlike b s := by
  constructor
  · intro hall w hw
    obtain ⟨hnumber, -⟩ := h.winner w hw
    obtain ⟨row, hrow, -⟩ := putWinner_self s.blocks w
    rw [← h.blocks_some hw] at hrow
    rcases h.winner_row hw hrow with ⟨hn, hh⟩ | ⟨hget, hsame⟩
    · refine .inl ?_
      rw [← hh, hall _ (Store.mem_retainedHashes.mpr
        (.inr ⟨_, row, hrow, hn.trans hnumber, rfl⟩))]
    · exact .inr ⟨row, hget, hsame⟩
  · intro hspelled hash hm
    rcases h.mem_retained hm with rfl | ⟨w, hw, row, hrow, hn, rfl⟩
    · rfl
    have hold : s.blocks.get? w.blockHash.text = some row → row.substrateBlockHash = b.hash :=
      fun hget => h.identity _ (Store.mem_retainedHashes.mpr (.inr ⟨_, row, hget, hn, rfl⟩))
    rcases hspelled w hw with htext | ⟨existing, hget, hsame⟩
    · rcases h.winner_row hw hrow with ⟨-, hh⟩ | ⟨hget, -⟩
      · rw [hh]
        exact BlockHash.eq_of_text htext
      · exact hold hget
    · -- the row already says what the winner says, so it was not written
      have hput : putWinner s.blocks w = (0, s.blocks) := by
        unfold putWinner
        rw [hget]
        exact if_pos hsame
      rw [h.blocks_some hw, hput] at hrow
      exact hold hrow

/-- **Commits are atomic, keep what they know, and can be replayed exactly when their
winner is spelled as the batch.**  A failed or stale commit changes nothing; a commit that
was applied is already applied when it is submitted again, exactly if its winner spells
the block hash as the batch does; and no sequence of commits forgets a known topology or
device time.  The runs cut over, and a later commit recomputes the counters. -/
theorem commit_replay {pg : Bool} {genesis : BlockHash}
    {rows : KeyedTable String ValidatorAuthorshipRecord}
    {facts : KeyedTable (String × ℕ) AuthorshipFact} {cs : List Call} {s : Store}
    (h : CutoverRun pg genesis rows facts cs s) {b : BlockCommit}
    (hdistinct : (b.records.participation.map fun p => (p.qblockId, p.account)).Nodup)
    (now : Timestamp) :
    (∀ r s', commitBlock now b s = (r, s') → ((∃ e, r = .error e) ∨ r = .ok .staleGeneration) →
      s' = s) ∧
    (∀ s', commitBlock now b s = (.ok .applied, s') →
      ((∀ now', commitBlock now' b s' = (.ok .alreadyApplied, s')) ↔ SpelledAlike b s)) ∧
    ∀ commits, Enriched s (commitAll s commits) := by
  refine ⟨?_, ?_, fun commits => commitAll_enriched commits s⟩
  · intro r s' hcall hr
    rcases commitBlock_cases hcall with ⟨rfl, -⟩ | ⟨r', rfl, hc⟩
    · rfl
    · rcases hr with ⟨e, he⟩ | hr
      · cases he
      · cases hr
        rcases hc.result with hr | hr <;> cases hr
  · intro s' hcall
    -- a commit that is repeated finds its own writes
    have hc : Commits b s .applied s' := by
      rcases commitBlock_cases hcall with ⟨-, ⟨e, he⟩ | ⟨he, -⟩⟩ | ⟨r, hr, hc⟩
      · cases he
      · cases he
      · cases hr
        exact hc
    rw [← hc.spelled_iff]
    constructor
    -- the second run compares the retained hashes with that of the batch
    · intro hreplay
      rcases commitBlock_cases (hreplay now) with ⟨-, ⟨e, he⟩ | ⟨he, -⟩⟩ | ⟨r, -, hc'⟩
      · cases he
      · cases he
      · exact hc'.identity
    · intro hspelled now'
      obtain ⟨n, hcheck, hwrite⟩ := Tx.request_ok.mp hcall
      refine Tx.request_ok.mpr ⟨n, hcheck, Tx.write_ok.mpr (.inl ?_)⟩
      rcases Tx.write_ok.mp hwrite with hx | ⟨⟨t, hx⟩, -⟩
      · rcases commitBody_cases hx with ⟨hf, -⟩ | ⟨r, hf, ⟨run⟩⟩
        · cases hf
        · exact run.replay hcheck h.canonical hdistinct hspelled now'
      · rcases commitBody_cases hx with ⟨hf, -⟩ | ⟨r, hf, -⟩ <;> cases hf

/-- The upper-case spelling of `uniform 0xab`. -/
def BlockHash.upper : BlockHash :=
  ⟨"0xABABABABABABABABABABABABABABABABABABABABABABABABABABABABABABABAB",
    List.replicate 32 0xab, by decide +kernel⟩

/-- A commit of `uniform 0xab` at height 5 with a winner that spells it `hash`. -/
def spelledCommit (hash : BlockHash) : BlockCommit where
  genesis := .uniform 1
  hash := .uniform 0xab
  height := 5
  guards := [⟨.winners, 1⟩]
  records :=
    { winner := some
        { blockHash := .uniform 0xab, substrateBlockNumber := 5, substrateBlockHash := hash
          substrateParentHash := .uniform 0xaa, timestamp := 1710000000, minerId := "miner"
          energy := -3, diversity := 1 / 2, numValidSolutions := 1, miningTime := 6
          deviceAccessTimeUs := none, reward := 10, qblockId := 7, nonce := 9, numNodes := 4
          numEdges := 5, difficultyEnergy := -2, minDiversity := 1 / 4, minSolutions := 1
          finalized := true, topologyHash := none }
      difficulty := none, authorship := none, participation := [] }
  completed := [.winners]

/-- A row of `old`, and the fact that it was counted from. -/
def countedOnce : KeyedTable String ValidatorAuthorshipRecord :=
  KeyedTable.empty.put "old"
    { accountId := "old", blocksAuthored := 1, blocksAuthoredWithPow := 0
      lastAuthoredBlock := some 4, lastAuthoredAt := some 0 }

def factAt4 : KeyedTable (String × ℕ) AuthorshipFact := KeyedTable.empty.put ("old", 4) ⟨0, false⟩

/-- The commit of `uniform 0xab` with the fact that `old` authored it. -/
def authoredCommit : BlockCommit where
  genesis := .uniform 1
  hash := .uniform 0xab
  height := 5
  guards := [⟨.winners, 1⟩, ⟨.authorship, 1⟩]
  records :=
    { (spelledCommit (.uniform 0xab)).records with
      authorship := some
        { accountId := "old", blockNumber := 5, timestamp := 1710000000, hadWinner := true } }
  completed := [.winners, .authorship]

/-- The store that is cut over from one counted fact. -/
def cutOverAt4 : Store := (tryAuthorshipCutover (.legacy false (.uniform 1) countedOnce factAt4)).2

theorem commit_replay_lower : ∃ cs s',
    CutoverRun false (.uniform 1) countedOnce factAt4 cs cutOverAt4 ∧
    cutOverAt4.authorshipCutover = some "1" ∧
    commitBlock (.utc 0) authoredCommit cutOverAt4 = (.ok .applied, s') ∧
    (s'.validatorAuthorship.get? "old").map (·.blocksAuthored) = some 2 ∧
    ∀ now', commitBlock now' authoredCommit s' = (.ok .alreadyApplied, s') := by
  have happlied : commitBlock (.utc 0) authoredCommit cutOverAt4 = (.ok .applied, _) :=
    Prod.ext (by decide +kernel) rfl
  have run : CutoverRun false (.uniform 1) countedOnce factAt4 _ cutOverAt4 :=
    .snoc .nil (.call (.utc 0) .tryAuthorshipCutover _)
  have hspelled : SpelledAlike authoredCommit cutOverAt4 := by
    rintro w ⟨rfl⟩
    exact .inl rfl
  exact ⟨_, _, run, by decide +kernel, happlied, by decide +kernel,
    ((commit_replay run (by decide) (.utc 0)).2.1 _ happlied).mpr hspelled⟩

/-- The upper-case spelling of a winner's block hash passes provenance, is stored, and
conflicts with the identical batch. -/
theorem commit_replay_upper :
    StoreRun false (.uniform 1) [] (Store.bound false (.uniform 1)) ∧
    (commitBlock (.utc 0) (spelledCommit .upper) (Store.bound false (.uniform 1))).1 =
      .ok .applied ∧
    (commitBlock (.utc 0) (spelledCommit .upper)
      (commitBlock (.utc 0) (spelledCommit .upper) (Store.bound false (.uniform 1))).2).1 =
      .error (.conflictingHistory 5) :=
  ⟨.nil, by decide +kernel, by decide +kernel⟩

end Dashboard

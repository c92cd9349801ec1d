/-
Finalized identity: one hash for each height.

* `StoreRun.identified` — **the winner rows agree with the map of heights to hashes**,
  which no call changes at a height that it holds;
* `raises_commitRecords` — after the identity check no statement of a commit reports a
  conflict;
* `identity_exact` — **when a conflict is reported exactly for other bytes**: the
  operations compare spellings, and each consults only some of the retained hashes.
-/
import QuipDashboard.Replay

namespace Dashboard

/-! ### The map and the winner rows -/

/-- The map holds the hash of every winner row, by its bytes. -/
def Store.Identified (s : Store) : Prop :=
  ∀ k row, s.blocks.get? k = some row →
    ∃ hash, s.finalized.get? row.substrateBlockNumber = some hash ∧
      hash.bytes = row.substrateBlockHash.bytes

/-- A height that the map holds keeps its hash. -/
theorem Effect.finalized {now : Timestamp} {op : Op} {s s' : Store}
    {r : Except StoreError CommitResult} (h : Effect now op s r s') {n : ℕ} {hash : BlockHash}
    (hget : s.finalized.get? n = some hash) : s'.finalized.get? n = some hash := by
  cases h with
  | unchanged | began | targeted | floored | initialized | polled | cutOver | recomputed =>
    exact hget
  | appended _ h =>
    rw [h.final]
    exact hget
  | committed h =>
    rw [h.finalized_eq]
    exact KeyedTable.get?_insertNew_of_some hget
  | ranged h =>
    rw [h.frame]
    exact hget
  | marked _ h =>
    rw [h.final]
    exact KeyedTable.get?_insertNew_of_some hget
  | reindexed h =>
    rw [h.finalized.1]
    exact hget

theorem Commits.identified {b : BlockCommit} {s s' : Store} {r : CommitResult}
    (h : Commits b s r s') (hs : s.Identified) : s'.Identified := by
  have hkeep : ∀ n hash, s.finalized.get? n = some hash → s'.finalized.get? n = some hash := by
    intro n hash hget
    rw [h.finalized_eq]
    exact KeyedTable.get?_insertNew_of_some hget
  have hself : s'.finalized.get? b.height = some b.hash := by
    rw [h.finalized_eq, KeyedTable.get?_insertNew, if_pos rfl]
    cases hf : s.finalized.get? b.height with
    | none => rfl
    | some hash => exact congrArg some (h.identity hash (Store.mem_retainedHashes.mpr (.inl hf)))
  intro k row hrow
  have hold : s.blocks.get? k = some row → ∃ hash,
      s'.finalized.get? row.substrateBlockNumber = some hash ∧
        hash.bytes = row.substrateBlockHash.bytes := by
    intro hget
    obtain ⟨hash, hmap, hbytes⟩ := hs k row hget
    exact ⟨hash, hkeep _ _ hmap, hbytes⟩
  cases hw : b.records.winner with
  | none =>
    rw [h.blocks_eq, hw] at hrow
    exact hold hrow
  | some w =>
    obtain ⟨hnumber, hbytes, -⟩ := h.winner w hw
    by_cases hk : k = w.blockHash.text
    · subst hk
      rcases h.winner_row hw hrow with ⟨hn, hh⟩ | ⟨hget, -⟩
      · rw [hn, hh, hnumber, hbytes]
        exact ⟨b.hash, hself, rfl⟩
      · exact hold hget
    · exact hold ((h.blocks_ne hw hk).symm.trans hrow)

theorem Effect.identified {now : Timestamp} {op : Op} {s s' : Store}
    {r : Except StoreError CommitResult} (h : Effect now op s r s') (hs : s.Identified) :
    s'.Identified := by
  have hmono : ∀ {n hash}, s.finalized.get? n = some hash → s'.finalized.get? n = some hash :=
    h.finalized
  have hkeep : s'.blocks = s.blocks → s'.Identified := by
    intro hb k row hrow
    rw [hb] at hrow
    obtain ⟨hash, hmap, hbytes⟩ := hs k row hrow
    exact ⟨hash, hmono hmap, hbytes⟩
  cases h with
  | unchanged => exact hs
  | began | targeted | floored | initialized | polled | cutOver | recomputed => exact hkeep rfl
  | appended _ h => exact hkeep (by rw [h.final])
  | committed h => exact h.identified hs
  | ranged h => exact hkeep (by rw [h.frame])
  | marked _ h => exact hkeep (by rw [h.final])
  | reindexed h =>
    intro k row hrow
    rw [h.blocks] at hrow
    split at hrow
    · cases hrow
    · obtain ⟨hash, hmap, hbytes⟩ := hs k row hrow
      exact ⟨hash, hmono hmap, hbytes⟩

/-- **In every reachable store the winner rows agree with the map.** -/
theorem StoreRun.identified {pg : Bool} {genesis : BlockHash} {cs : List Call} {s : Store}
    (h : StoreRun pg genesis cs s) : s.Identified := by
  refine h.invariant (I := Store.Identified) ?_ fun hs hstep => hstep.effect.2.2.identified hs
  intro k row hrow
  cases hrow

/-! ### Only the identity check reports a conflict -/

/-- The error reports a conflict of histories. -/
def StoreError.isConflict : StoreError → Bool
  | conflictingHistory _ => true
  | _ => false

/-- No error of the body reports a conflict. -/
abbrev NoConflict {α : Type} (m : StoreTx α) : Prop := Tx.Raises (fun e => e.isConflict = false) m

theorem NoConflict.ne {α : Type} {m : StoreTx α} {s : Store} {n : ℕ}
    (h : m.exec s = .error (.conflictingHistory n)) (hm : NoConflict m) : False := by
  cases hm s _ h

theorem canonicalTimestamp_error {t : Timestamp} {e : StoreError}
    (h : canonicalTimestamp t = .error e) : e.isConflict = false := by
  cases t with
  | utc millis => cases h
  | malformed message =>
    cases h
    rfl

theorem decodeDifficulty_error {d : DifficultyRecord} {e : StoreError}
    (h : decodeDifficulty d = .error e) : e.isConflict = false := by
  unfold decodeDifficulty at h
  cases ht : canonicalTimestamp d.observedAt with
  | error e' =>
    rw [ht] at h
    cases h
    exact canonicalTimestamp_error ht
  | ok t =>
    rw [ht] at h
    cases h

theorem iso_error {seconds : ℕ} {e : StoreError} (h : iso seconds = .error e) :
    e.isConflict = false := by
  unfold iso at h
  split at h
  · cases h
    rfl
  · split at h <;> cases h
    rfl

theorem canonicalIso_error {seconds : ℕ} {e : StoreError} (h : canonicalIso seconds = .error e) :
    e.isConflict = false := by
  unfold canonicalIso at h
  cases hi : iso seconds with
  | error e' =>
    rw [hi] at h
    cases h
    exact iso_error hi
  | ok t =>
    rw [hi] at h
    simp only [bind, Except.bind] at h
    split at h <;> cases h
    rfl

theorem coverage_error {s : Store} {i : Indexable} {start : ℕ} {e : StoreError}
    (h : s.coverage i start = .error e) : e.isConflict = false := by
  unfold Store.coverage at h
  split at h
  · cases h
  · unfold Coverage.validate at h
    split at h
    · cases h
      rfl
    · split at h <;> cases h
      rfl

theorem cover_error {c : Coverage} {now : Timestamp} {a b : ℕ} {e : StoreError}
    (h : c.cover now a b = .error e) : e.isConflict = false := by
  unfold Coverage.cover at h
  split at h
  · cases h
    rfl
  · split at h
    · cases h
    · split at h <;> cases h

theorem checkAuthorship_error {a : AuthorshipRecord} {rows : List ((String × ℕ) × AuthorshipFact)}
    {e : StoreError} (h : checkAuthorship a rows = .error e) : e.isConflict = false := by
  induction rows with
  | nil => cases h
  | cons row rows ih =>
    unfold checkAuthorship at h
    split at h
    · exact ih h
    · split at h
      · cases h
        rfl
      · split at h
        · rename_i he
          cases h
          exact iso_error he
        · split at h
          · cases h
            rfl
          · exact ih h

theorem fresh_error {pg : Bool} {facts : KeyedTable (String × ℕ) AuthorshipFact} {e : StoreError}
    (h : fresh pg facts = .error e) : e.isConflict = false := by
  have hrow : ∀ v e, freshRow pg facts.rows v = .error e → e.isConflict = false := by
    intro v e he
    unfold freshRow at he
    dsimp only at he
    split at he <;> cases he
    rfl
  unfold fresh at h
  generalize (facts.rows.map (·.1.1)).dedup = vs at h
  induction vs with
  | nil => cases h
  | cons v vs ih =>
    rw [List.mapM_cons] at h
    cases hv : freshRow pg facts.rows v with
    | error e' =>
      rw [hv] at h
      cases h
      exact hrow v e hv
    | ok item =>
      cases hvs : vs.mapM (freshRow pg facts.rows) with
      | error e' =>
        rw [hv, hvs] at h
        cases h
        exact ih hvs
      | ok items =>
        rw [hv, hvs] at h
        cases h

theorem noConflict_writeWinner (b : BlockRecord) : NoConflict (writeWinner b) := by
  intro s e h
  obtain ⟨nodeSummary, hx, -⟩ := exec_writeWinner b s
  rw [hx] at h
  cases h

theorem noConflict_upsertDifficulty (d : DifficultyRecord) (condition : DifficultyRecord → Bool) :
    NoConflict (upsertDifficulty d condition) :=
  .bind (.ofExcept fun _ => canonicalTimestamp_error) fun _ => .update _

theorem noConflict_upsertPollDifficulty (d : DifficultyRecord) :
    NoConflict (upsertPollDifficulty d) :=
  .bind (.ofExcept fun _ => canonicalTimestamp_error) fun _ => .update _

theorem noConflict_preservePoll (height : ℕ) : NoConflict (preservePoll height) := by
  refine .bind (.read _) fun old => ?_
  cases old with
  | none => exact .pure ()
  | some old => exact .bind (noConflict_upsertPollDifficulty old) fun _ => .pure ()

theorem noConflict_writeDifficulty (d : DifficultyRecord) : NoConflict (writeDifficulty d) := by
  refine .ite (.bind (.read _) fun row => ?_) ?_
  · cases row with
    | none => exact .bind (noConflict_preservePoll _) fun _ => noConflict_upsertDifficulty _ _
    | some row =>
      refine .bind (.ofExcept fun _ => decodeDifficulty_error) fun existing => ?_
      refine .bind (.ofExcept fun _ => canonicalTimestamp_error) fun observedAt => ?_
      exact .ite (.pure 0) (.ite (.fail rfl) (noConflict_upsertDifficulty _ _))
  · exact .bind (noConflict_upsertPollDifficulty d) fun _ => noConflict_upsertDifficulty _ _

theorem noConflict_writeAuthorship (a : AuthorshipRecord) : NoConflict (writeAuthorship a) := by
  refine .bind (.readM fun s e => checkAuthorship_error) fun _ => ?_
  exact .bind (.ofExcept fun _ => canonicalIso_error) fun _ => .update _

theorem noConflict_writeParticipants (ps : List QBlockParticipationRecord) :
    NoConflict (writeParticipants ps) := by
  induction ps with
  | nil => exact .pure false
  | cons p ps ih =>
    exact .bind (.ite (.fail rfl) (.update _)) fun _ => .bind ih fun _ => .pure _

theorem noConflict_writeRecord {ρ : Type} {write : ρ → StoreTx ℕ}
    (h : ∀ r, NoConflict (write r)) (o : Option ρ) : NoConflict (writeRecord write o) := by
  cases o with
  | none => exact .pure false
  | some r => exact .bind (h r) fun _ => .pure _

theorem noConflict_completeAll (now : Timestamp) (n : ℕ) (is : List Indexable) :
    NoConflict (completeAll now n is) := by
  induction is with
  | nil => exact .pure false
  | cons i is ih =>
    refine .bind ?_ fun _ => .bind ih fun _ => .pure _
    refine .bind (.readM fun s e => coverage_error) fun cov => ?_
    exact .bind (.ofExcept fun e => cover_error) fun p => .ite (.update _) (.pure false)

theorem noConflict_recomputeAfterCutover (o : Option AuthorshipRecord) :
    NoConflict (recomputeAfterCutover o) := by
  refine .bind (.read _) fun _ => .ite ?_ (.pure ())
  refine .bind (.readM fun s e => fresh_error) fun items => ?_
  intro s e h
  rw [exec_storeSummaries] at h
  cases h

theorem provenance_error {b : BlockCommit} {e : StoreError} (h : b.provenance = .error e) :
    e.isConflict = false := by
  unfold BlockCommit.provenance at h
  split at h
  · cases h
    rfl
  · split at h
    · cases h
      rfl
    · split at h <;> cases h
      rfl

/-! ### When a conflict is reported -/

theorem conflictingHistory_eq_true {height : ℕ} {hash : BlockHash} {s : Store} :
    conflictingHistory height hash s = true ↔ ∃ h ∈ s.retainedHashes height, h.text ≠ hash.text := by
  simp [conflictingHistory]

/-- A transaction that fails reports its error. -/
theorem write_eq_error {α : Type} {body : StoreTx (Finish α)} {s : Store} {e : StoreError} :
    (Tx.write body s).1 = .error e ↔ body.exec s = .error e := by
  unfold Tx.write
  split <;> rename_i h <;> simp [h]

/-- **A commit that reaches the identity check reports a conflict exactly when a hash
of its height is spelled otherwise.** -/
theorem commitBlock_conflict {now : Timestamp} {b : BlockCommit} {n : ℕ} {s : Store}
    (hb : b.check = .ok n) (hnet : s.network b.genesis = .ok ())
    (hcurrent : ∀ g ∈ b.guards, s.generation g.indexable = g.expected) :
    (commitBlock now b s).1 = .error (.conflictingHistory b.height) ↔
      ∃ h ∈ s.retainedHashes b.height, h.text ≠ b.hash.text := by
  have hcall : commitBlock now b s = Tx.write (commitBody now b n) s := by
    unfold commitBlock Tx.request
    rw [hb]
  rw [← conflictingHistory_eq_true, hcall]
  refine write_eq_error.trans ?_
  have hstale : ¬staleGuards b.guards s = true := by simpa using staleGuards_eq_false.mpr hcurrent
  unfold commitBody
  rw [Tx.exec_bind, Tx.exec_readM, hnet]
  simp only [Except.map, Except.bind]
  rw [Tx.exec_read_bind, if_neg hstale, Tx.exec_read_bind]
  by_cases hconf : conflictingHistory b.height b.hash s = true
  · rw [if_pos hconf]
    exact iff_of_true rfl hconf
  · rw [if_neg hconf]
    refine iff_of_false (fun h => ?_) hconf
    exact NoConflict.ne h <|
      .bind (.ofExcept fun _ => provenance_error) fun _ =>
      .bind (noConflict_writeRecord noConflict_writeWinner b.records.winner) fun _ =>
      .bind (noConflict_writeRecord noConflict_writeDifficulty b.records.difficulty) fun _ =>
      .bind (noConflict_writeRecord noConflict_writeAuthorship b.records.authorship) fun _ =>
      .bind (noConflict_writeParticipants b.records.participation) fun _ =>
      .bind (noConflict_completeAll now n b.completed) fun _ =>
      .bind (noConflict_recomputeAfterCutover b.records.authorship) fun _ =>
      .bind (.update _) fun _ => .pure _

/-- An absence marker likewise. -/
theorem markUnavailable_conflict {now : Timestamp} {genesis : BlockHash} {b : UnavailableBlock}
    {n : ℕ} {s : Store} (hb : b.check = .ok n) (hnet : s.network genesis = .ok ())
    (hcurrent : s.generation b.guard.indexable = b.guard.expected) :
    (markUnavailable now genesis b s).1 = .error (.conflictingHistory b.height) ↔
      ∃ h ∈ s.retainedHashes b.height, h.text ≠ b.hash.text := by
  have hcall : markUnavailable now genesis b s =
      Tx.write (markUnavailableBody now genesis b n) s := by
    unfold markUnavailable Tx.request
    rw [hb]
  rw [← conflictingHistory_eq_true, hcall]
  refine write_eq_error.trans ?_
  have hstale : ¬Store.staleGeneration b.guard.indexable b.guard.expected s = true := by
    simpa using Store.staleGeneration_eq_false.mpr hcurrent
  unfold markUnavailableBody
  rw [Tx.exec_bind, Tx.exec_readM, hnet]
  simp only [Except.map, Except.bind]
  rw [Tx.exec_read_bind, if_neg hstale, Tx.exec_read_bind]
  by_cases hconf : conflictingHistory b.height b.hash s = true
  · rw [if_pos hconf]
    exact iff_of_true rfl hconf
  · rw [if_neg hconf]
    refine iff_of_false (fun h => ?_) hconf
    exact NoConflict.ne h <|
      .bind (.readM fun s e => coverage_error) fun _ =>
      .ite (.pure _) (.bind (.update _) fun _ => .bind (.update _) fun _ => .pure _)

/-- The hashes that `set_finalized_target` consults: a stored target of equal height. -/
def Store.targetHashes (s : Store) (height : ℕ) : List BlockHash :=
  (s.finalizedTarget.toList.filter (·.height = height)).map RetainedBlock.hash

theorem setFinalizedTarget_conflict {target : RetainedBlock} {s : Store} {genesis : BlockHash}
    (hg : s.genesis = some genesis) (hle : target.height ≤ u64Max) :
    (setFinalizedTarget target s).1 = .error (.conflictingHistory target.height) ↔
      ∃ h ∈ s.targetHashes target.height, h.text ≠ target.hash.text := by
  have hbound : s.requireBound = .ok genesis := by rw [Store.requireBound, hg]
  have hdecision : targetDecision s.finalizedTarget target =
      .error (.conflictingHistory target.height) ↔
        ∃ h ∈ s.targetHashes target.height, h.text ≠ target.hash.text := by
    unfold targetDecision Store.targetHashes
    cases s.finalizedTarget with
    | none => simp
    | some old =>
      by_cases hold : old.height > u64Max
      · have : old.height ≠ target.height := by omega
        simp [hold, this]
      · by_cases heq : old.height = target.height
        · by_cases htext : old.hash.text = target.hash.text <;>
            simp [height_of_le hle, heq, htext, not_lt.mpr hle]
        · by_cases hgt : old.height > target.height <;> simp [hold, height_of_le hle, heq, hgt]
  rw [← hdecision]
  refine write_eq_error.trans ?_
  rw [Tx.exec_bind, Tx.exec_readM, hbound]
  simp only [Except.map, Except.bind]
  rw [Tx.exec_bind, Tx.exec_readM]
  cases targetDecision s.finalizedTarget target with
  | error e => simp [Except.map, Except.bind]
  | ok new => cases new <;> simp [Except.map, Except.bind]

/-- Every hash that the store retains for a height: in the map, in the winner rows, and
in the finalized target. -/
def Store.retainedAt (s : Store) (height : ℕ) : List BlockHash :=
  s.retainedHashes height ++ s.targetHashes height

/-- The consulted hashes tell by their spelling whether a retained hash denotes other
bytes: one of them does; or all of them are spelled as `hash`, and no retained hash
denotes other bytes; or one is another spelling of `hash`, and a hash that was not
consulted denotes other bytes. -/
def TellsBytes (consulted retained : List BlockHash) (hash : BlockHash) : Prop :=
  (∃ h ∈ consulted, h.bytes ≠ hash.bytes) ∨
  ((∀ h ∈ consulted, h.text = hash.text) ∧ ∀ h ∈ retained, h.bytes = hash.bytes) ∨
  ((∃ h ∈ consulted, h.text ≠ hash.text ∧ h.bytes = hash.bytes) ∧
    ∃ h ∈ retained, h ∉ consulted ∧ h.bytes ≠ hash.bytes)

theorem tellsBytes_iff {consulted retained : List BlockHash} {hash : BlockHash} {conflict : Prop}
    (hsub : consulted ⊆ retained) (hc : conflict ↔ ∃ h ∈ consulted, h.text ≠ hash.text) :
    (conflict ↔ ∃ h ∈ retained, h.bytes ≠ hash.bytes) ↔ TellsBytes consulted retained hash := by
  have htext : ∀ h : BlockHash, h.bytes ≠ hash.bytes → h.text ≠ hash.text :=
    fun h hb ht => hb (by rw [BlockHash.eq_of_text ht])
  rw [hc]
  by_cases hother : ∃ h ∈ consulted, h.bytes ≠ hash.bytes
  · obtain ⟨h, hmem, hb⟩ := hother
    exact iff_of_true (iff_of_true ⟨h, hmem, htext h hb⟩ ⟨h, hsub hmem, hb⟩) (.inl ⟨h, hmem, hb⟩)
  have hsame : ∀ h ∈ consulted, h.bytes = hash.bytes := by
    intro h hmem
    by_contra hb
    exact hother ⟨h, hmem, hb⟩
  constructor
  · intro hiff
    by_cases hspelled : ∃ h ∈ consulted, h.text ≠ hash.text
    · obtain ⟨h', hmem', hb'⟩ := hiff.mp hspelled
      obtain ⟨h, hmem, ht⟩ := hspelled
      exact .inr (.inr ⟨⟨h, hmem, ht, hsame h hmem⟩, h', hmem', fun hm => hb' (hsame h' hm), hb'⟩)
    · refine .inr (.inl ⟨?_, ?_⟩)
      · intro h hmem
        by_contra ht
        exact hspelled ⟨h, hmem, ht⟩
      · intro h hmem
        by_contra hb
        exact hspelled (hiff.mpr ⟨h, hmem, hb⟩)
  · rintro (hdiff | ⟨hall, hret⟩ | ⟨⟨h, hmem, ht, -⟩, h', hmem', -, hb'⟩)
    · exact absurd hdiff hother
    · refine iff_of_false ?_ ?_
      · rintro ⟨h, hmem, ht⟩
        exact ht (hall h hmem)
      · rintro ⟨h, hmem, hb⟩
        exact hb (hret h hmem)
    · exact iff_of_true ⟨h, hmem, ht⟩ ⟨h', hmem', hb'⟩

/-- `committed_target` reports a conflict exactly for other bytes in the map. -/
theorem committedTarget_conflict {target : RetainedBlock} {s : Store} :
    committedTarget target s = .error (.conflictingHistory target.height) ↔
      ∃ hash, s.finalized.get? target.height = some hash ∧ hash.bytes ≠ target.hash.bytes := by
  unfold committedTarget
  cases s.finalized.get? target.height with
  | none => simp
  | some hash =>
    by_cases hb : hash.bytes = target.hash.bytes
    · have hsame : hash.sameBytes target.hash = true := BlockHash.sameBytes_iff.mpr hb
      refine iff_of_false (fun h => ?_) (by simp [hb])
      simp only [hsame, Bool.not_true, Bool.false_eq_true, if_false] at h
      by_cases hle : target.height ≤ u64Max <;>
        simp [height, hle, bind, Except.bind, pure, Except.pure] at h
    · have hdiff : hash.sameBytes target.hash = false := by simp [BlockHash.sameBytes, hb]
      simp [hdiff, hb]

/-- **Finalized identity is one hash for each height, and a conflict is reported for
other bytes exactly when the consulted spellings tell them.**  In every reachable store no
call changes a height that the map holds, the winner rows agree with the map, and
`committed_target` compares bytes.  A commit, an absence marker or a target that reaches
its identity check reports a conflict if and only if a retained hash of the height denotes
other bytes, exactly under `TellsBytes`. -/
theorem identity_exact {pg : Bool} {genesis : BlockHash} {cs : List Call} {s : Store}
    (h : StoreRun pg genesis cs s) (now : Timestamp) :
    (∀ (op : Op) n hash, s.finalized.get? n = some hash →
      (op.apply now s).2.finalized.get? n = some hash) ∧
    s.Identified ∧
    (∀ t : RetainedBlock, committedTarget t s = .error (.conflictingHistory t.height) ↔
      ∃ hash, s.finalized.get? t.height = some hash ∧ hash.bytes ≠ t.hash.bytes) ∧
    (∀ b n, BlockCommit.check b = .ok n → b.genesis = genesis →
      (∀ g ∈ b.guards, s.generation g.indexable = g.expected) →
      (((commitBlock now b s).1 = .error (.conflictingHistory b.height) ↔
          ∃ h ∈ s.retainedAt b.height, h.bytes ≠ b.hash.bytes) ↔
        TellsBytes (s.retainedHashes b.height) (s.retainedAt b.height) b.hash)) ∧
    (∀ b n, UnavailableBlock.check b = .ok n →
      s.generation b.guard.indexable = b.guard.expected →
      (((markUnavailable now genesis b s).1 = .error (.conflictingHistory b.height) ↔
          ∃ h ∈ s.retainedAt b.height, h.bytes ≠ b.hash.bytes) ↔
        TellsBytes (s.retainedHashes b.height) (s.retainedAt b.height) b.hash)) ∧
    ∀ t : RetainedBlock, t.height ≤ u64Max →
      (((setFinalizedTarget t s).1 = .error (.conflictingHistory t.height) ↔
          ∃ h ∈ s.retainedAt t.height, h.bytes ≠ t.hash.bytes) ↔
        TellsBytes (s.targetHashes t.height) (s.retainedAt t.height) t.hash) := by
  have hg := StoreRun.genesis h
  refine ⟨?_, h.identified, fun t => committedTarget_conflict, ?_, ?_, ?_⟩
  · intro op n hash hget
    exact (apply_effect now op s).finalized hget
  · rintro b n hb rfl hcurrent
    exact tellsBytes_iff (List.subset_append_left ..)
      (commitBlock_conflict hb (Store.network_ok.mpr hg) hcurrent)
  · intro b n hb hcurrent
    exact tellsBytes_iff (List.subset_append_left ..)
      (markUnavailable_conflict hb (Store.network_ok.mpr hg) hcurrent)
  · intro t ht
    exact tellsBytes_iff (List.subset_append_right ..) (setFinalizedTarget_conflict hg ht)

/-- The store after a commit of `uniform 0xab` at height 5. -/
def identifiedStore : Store :=
  (commitBlock (.utc 0) (spelledCommit (.uniform 0xab)) (Store.bound false (.uniform 1))).2

theorem identifiedStore_run :
    ∃ cs, StoreRun false (.uniform 1) cs identifiedStore :=
  ⟨_, .snoc .nil (.call (.utc 0) (.commitBlock (spelledCommit (.uniform 0xab))) _)⟩

/-- A batch of other bytes at that height conflicts. -/
theorem identity_exact_fork :
    (commitBlock (.utc 0) { spelledCommit .upper with hash := .uniform 0xcd } identifiedStore).1 =
      .error (.conflictingHistory 5) := by
  obtain ⟨cs, run⟩ := identifiedStore_run
  have hother : ∃ h ∈ identifiedStore.retainedHashes 5, h.bytes ≠ (BlockHash.uniform 0xcd).bytes := by
    decide +kernel
  have htells := ((identity_exact run (.utc 0)).2.2.2.1
    { spelledCommit .upper with hash := .uniform 0xcd } 5 (by decide +kernel) rfl
    (by decide +kernel)).mpr (.inl hother)
  refine htells.mpr ?_
  obtain ⟨h, hmem, hb⟩ := hother
  exact ⟨h, List.mem_append_left _ hmem, hb⟩

/-- Another spelling of the retained bytes is reported as a conflict. -/
theorem identity_exact_spelling :
    (∃ cs, StoreRun false (.uniform 1) cs identifiedStore) ∧
    (∀ h ∈ identifiedStore.retainedAt 5, h.bytes = BlockHash.upper.bytes) ∧
    (commitBlock (.utc 0) { spelledCommit .upper with hash := .upper } identifiedStore).1 =
      .error (.conflictingHistory 5) :=
  ⟨identifiedStore_run, by decide +kernel, by decide +kernel⟩

end Dashboard

/-
Live-written and restored qblock files.

`write_batch` merges each committed batch into the files, while `upsert_winner` and
`write_participant` merge it into the rows, and `restore_qblock` writes a missing file from
these rows.

* `files_match_restored` — **as long as no batch takes enrichment from a stored winner,
  changes the row of a participant, or names a second winner of a qblock, every file says
  what its restore would write**;
* `restored_enrichment_lost` — a replayed block without the enrichment takes it out of the
  file and leaves it in the row.
-/
import QuipDashboard.Commit
import QuipDashboard.QblockFiles
import QuipDashboard.NodeSummary

namespace Dashboard

/-! ### The rows of a qblock -/

/-- `get_qblock_participation`. -/
def Store.qblockParticipation (s : Store) (q : ℕ) : List QBlockParticipationRecord :=
  ((s.participation.rows.filter fun e => e.1.1 = q).mergeSort fun a b => a.1.2 ≤ b.1.2).map Prod.snd

/-- The participant of an account in a file. -/
def Document.row (d : Document) (account : String) : Option QBlockParticipationRecord :=
  (d.participation.getD []).find? (·.account = account)

/-- The file of a qblock, unless another qblock shares its path and wrote it last. -/
def fileOf (sha256 : Sha256) (t : FileTree Document) (q : ℕ) : Option Document :=
  (contents t (qblockPath sha256 q)).filter (·.qblockId = some q)

theorem mergeParticipants_find {rows new : List QBlockParticipationRecord} {account : String} :
    (mergeParticipants rows new).find? (·.account = account) =
      (rows.find? (·.account = account)).or (new.find? (·.account = account)) := by
  induction new generalizing rows with
  | nil => simp [mergeParticipants]
  | cons p new ih =>
    rw [mergeParticipants, List.foldl_cons, ← mergeParticipants, ih]
    by_cases hany : rows.any (·.account = p.account) = true
    · rw [if_pos hany]
      by_cases hp : p.account = account
      · -- the account has a row already
        obtain ⟨r, hr, hra⟩ := List.any_eq_true.mp hany
        have hsome : (rows.find? (·.account = account)).isSome := by
          rw [List.find?_isSome]
          exact ⟨r, hr, by simpa [hp] using hra⟩
        obtain ⟨r', hr'⟩ := Option.isSome_iff_exists.mp hsome
        rw [hr', Option.some_or, Option.some_or]
      · rw [List.find?_cons_of_neg (by simpa using hp)]
    · rw [if_neg hany, List.find?_append, Option.or_assoc]
      by_cases hp : p.account = account
      · rw [List.find?_cons_of_pos (by simpa using hp), List.find?_cons_of_pos (by simpa using hp),
          Option.some_or]
      · rw [List.find?_cons_of_neg (by simpa using hp), List.find?_cons_of_neg (by simpa using hp),
          List.find?_nil, Option.none_or]

theorem merge_winner_none {d : Document} {q : ℕ} {rows : List QBlockParticipationRecord}
    {w : Option BlockRecord} (h : d.winner = some w) : (d.merge q none rows).winner = some w := by
  show d.winner.or (some none) = some w
  rw [h, Option.some_or]

theorem merge_row (d : Document) (q : ℕ) (winner : Option BlockRecord)
    (rows : List QBlockParticipationRecord) (account : String) :
    (d.merge q winner rows).row account =
      (d.row account).or (rows.find? (·.account = account)) :=
  mergeParticipants_find

/-- Each participant's row is stored under its own key. -/
def KeyedByAccount (t : KeyedTable (ℕ × String) QBlockParticipationRecord) : Prop :=
  ∀ k p, t.get? k = some p → p.key = k

/-- The rows of a qblock, by their accounts. -/
theorem qblockParticipation_find {s : Store} (h : KeyedByAccount s.participation) (q : ℕ)
    (account : String) : (s.qblockParticipation q).find? (·.account = account) =
      s.participation.get? (q, account) := by
  have hmem : ∀ p, p ∈ s.qblockParticipation q ↔
      ∃ account, s.participation.get? (q, account) = some p := by
    intro p
    simp only [Store.qblockParticipation, List.mem_map, List.mem_mergeSort, List.mem_filter,
      decide_eq_true_eq]
    constructor
    · rintro ⟨⟨⟨q', a⟩, p'⟩, ⟨hrow, rfl⟩, rfl⟩
      exact ⟨a, KeyedTable.get?_eq_some.mpr hrow⟩
    · rintro ⟨a, ha⟩
      exact ⟨⟨⟨q, a⟩, p⟩, ⟨KeyedTable.get?_eq_some.mp ha, rfl⟩, rfl⟩
  cases hfind : (s.qblockParticipation q).find? (·.account = account) with
  | some p =>
    have hp := List.find?_some hfind
    simp only [decide_eq_true_eq] at hp
    obtain ⟨a, ha⟩ := (hmem p).mp (List.mem_of_find?_eq_some hfind)
    obtain rfl := (congrArg Prod.snd (h _ p ha)).symm.trans hp
    exact ha.symm
  | none =>
    cases hget : s.participation.get? (q, account) with
    | none => rfl
    | some p =>
      have := List.find?_eq_none.mp hfind p ((hmem p).mpr ⟨account, hget⟩)
      have hacc : p.account = account := congrArg Prod.snd (h _ p hget)
      simp [hacc] at this

/-! ### Participants of a batch -/

theorem putParticipant_get? {t : KeyedTable (ℕ × String) QBlockParticipationRecord}
    (h : KeyedByAccount t) (p : QBlockParticipationRecord) (k : ℕ × String) :
    (putParticipant t p).2.get? k = if p.key = k then some p else t.get? k := by
  by_cases hk : p.key = k
  · subst hk
    rw [if_pos rfl]
    refine (KeyedTable.get?_upsert_self t _ p _).trans ?_
    cases hold : t.get? (p.qblockId, p.account) with
    | none => rfl
    | some old =>
      have hkey := h _ old hold
      by_cases hc : old.kind ≠ p.kind ∨ old.budgetSeconds ≠ p.budgetSeconds ∨
          old.blockNumber ≠ p.blockNumber
      · show some ((if _ then some p else none).getD old) = some p
        rw [if_pos hc, Option.getD_some]
      · -- the row that stays says the same
        show some ((if _ then some p else none).getD old) = some p
        rw [if_neg hc, Option.getD_none]
        simp only [not_or, not_not] at hc
        obtain ⟨q, a, kind, budget, number⟩ := old
        obtain ⟨q', a', kind', budget', number'⟩ := p
        simp only [QBlockParticipationRecord.key, Prod.mk.injEq] at hkey hc
        obtain ⟨rfl, rfl⟩ := hkey
        obtain ⟨rfl, rfl, rfl⟩ := hc
        rfl
  · rw [if_neg hk]
    exact putParticipant_ne fun he => hk he.symm

theorem KeyedByAccount.putParticipant {t : KeyedTable (ℕ × String) QBlockParticipationRecord}
    (h : KeyedByAccount t) (p : QBlockParticipationRecord) :
    KeyedByAccount (putParticipant t p).2 := by
  intro k r hr
  rw [putParticipant_get? h] at hr
  split at hr
  · rename_i hk
    cases hr
    exact hk
  · exact h k r hr

/-- **The rows after a batch: the last row of the batch under a key, else the row before.** -/
theorem putParticipants_get? {t : KeyedTable (ℕ × String) QBlockParticipationRecord}
    (h : KeyedByAccount t) (ps : List QBlockParticipationRecord) :
    KeyedByAccount (putParticipants t ps) ∧ ∀ k, (putParticipants t ps).get? k =
      (ps.reverse.find? (·.key = k)).or (t.get? k) := by
  induction ps generalizing t with
  | nil => exact ⟨h, fun k => rfl⟩
  | cons p ps ih =>
    obtain ⟨hkeyed, hget⟩ := ih (h.putParticipant p)
    refine ⟨hkeyed, fun k => (hget k).trans ?_⟩
    rw [putParticipant_get? h, List.reverse_cons, List.find?_append, Option.or_assoc]
    congr 1
    by_cases hk : p.key = k
    · rw [if_pos hk, List.find?_cons_of_pos (by simpa using hk), Option.some_or]
    · rw [if_neg hk, List.find?_cons_of_neg (by simpa using hk), List.find?_nil, Option.none_or]

/-! ### Batches and their files -/

/-- A batch that was committed and then written to the files. -/
structure FileCommit where
  pre : Store × FileTree Document
  now : Timestamp
  batch : BlockCommit

/-- The commit succeeds, and the write that follows it meets no error. -/
def FilesStep (sha256 : Sha256) (pid : ℕ) (s : Store × FileTree Document) (c : FileCommit)
    (s' : Store × FileTree Document) : Prop :=
  c.pre = s ∧ (∃ r, commitBlock c.now c.batch s.1 = (.ok r, s'.1) ∧ r ≠ .staleGeneration) ∧
    ∃ es results, Trace FileAnswers
      (writeBatch sha256 pid c.batch.records.winner c.batch.records.participation)
      s.2 es s'.2 (some (.ok results))

/-- A winner takes nothing from its stored row, and no other spelling either. -/
def KeepsEnrichment (blocks : KeyedTable String BlockRecord) (w : BlockRecord) : Prop :=
  ∀ existing, blocks.get? w.blockHash.text = some existing →
    w.enrich existing = w ∧ (w.same existing → existing = w)

/-- No other stored winner has the qblock of this one. -/
def OnlyWinner (blocks : KeyedTable String BlockRecord) (w : BlockRecord) : Prop :=
  ∀ k row, blocks.get? k = some row → k ≠ w.blockHash.text → row.qblockId ≠ w.qblockId

/-- The last row of a batch under a key is the stored row, or the first one if none is. -/
def KeepsParticipants (t : KeyedTable (ℕ × String) QBlockParticipationRecord)
    (ps : List QBlockParticipationRecord) : Prop :=
  ∀ p ∈ ps, ps.reverse.find? (·.key = p.key) = (t.get? p.key).or (ps.find? (·.key = p.key))

/-- No other qblock has the path of one of these. -/
def OwnPaths (sha256 : Sha256) (t : FileTree Document) (qs : List ℕ) : Prop :=
  (∀ q ∈ qs, ∀ d, contents t (qblockPath sha256 q) = some d → d.qblockId = some q) ∧
    ∀ q ∈ qs, ∀ q' ∈ qs, qblockPath sha256 q = qblockPath sha256 q' → q = q'

/-- What a batch must meet for rows and files to stay alike. -/
structure FileCommit.Agrees (sha256 : Sha256) (c : FileCommit) : Prop where
  winner : ∀ w, c.batch.records.winner = some w →
    KeepsEnrichment c.pre.1.blocks w ∧ OnlyWinner c.pre.1.blocks w
  participants : KeepsParticipants c.pre.1.participation c.batch.records.participation
  paths : OwnPaths sha256 c.pre.2
    (batchQblocks c.batch.records.winner c.batch.records.participation)

/-- Rows and files are alike. -/
structure FilesAgree (sha256 : Sha256) (s : Store × FileTree Document) : Prop where
  shallow : Shallow s.2
  keyed : KeyedByAccount s.1.participation
  winner : ∀ k w, s.1.blocks.get? k = some w →
    ∃ d, fileOf sha256 s.2 w.qblockId = some d ∧ d.winner = some (some w)
  rows : ∀ q account, s.1.participation.get? (q, account) =
    (fileOf sha256 s.2 q).bind (·.row account)

section

variable {sha256 : Sha256} {t t' : FileTree Document} {winner : Option BlockRecord}
  {rows : List QBlockParticipationRecord}

/-- The file of a qblock of the batch. -/
theorem fileOf_mem (hown : OwnPaths sha256 t (batchQblocks winner rows))
    (hc : ∀ p, IsDocument p → p ≠ manifestPath → contents t' p =
      mergeBatch sha256 winner rows (batchQblocks winner rows) (contents t) p)
    {q : ℕ} (hq : q ∈ batchQblocks winner rows) :
    fileOf sha256 t' q = some (((fileOf sha256 t q).getD .empty).merge q
      (winner.filter (·.qblockId = q)) (rows.filter (·.qblockId = q))) := by
  have hsame : fileOf sha256 t q = contents t (qblockPath sha256 q) := by
    rw [fileOf]
    cases hd : contents t (qblockPath sha256 q) with
    | none => rfl
    | some d => rw [Option.filter_some, if_pos (by simpa using hown.1 q hq d hd)]
  rw [hsame, fileOf, hc _ (isDocument_qblockPath ..) (by simp [qblockPath, manifestPath, qblockRelPath]),
    mergeBatch_mem (nodup_batchQblocks ..) hown.2 hq, Option.filter_some]
  exact if_pos (by simp [Document.merge])

/-- The file of another qblock stays. -/
theorem fileOf_other (hown : OwnPaths sha256 t (batchQblocks winner rows))
    (hc : ∀ p, IsDocument p → p ≠ manifestPath → contents t' p =
      mergeBatch sha256 winner rows (batchQblocks winner rows) (contents t) p)
    {q : ℕ} (hq : q ∉ batchQblocks winner rows) :
    fileOf sha256 t' q = fileOf sha256 t q := by
  have hq' := hc (qblockPath sha256 q) (isDocument_qblockPath ..)
    (by simp [qblockPath, manifestPath, qblockRelPath])
  by_cases hpath : ∃ q' ∈ batchQblocks winner rows, qblockPath sha256 q = qblockPath sha256 q'
  · -- the path is another qblock's, before and after
    obtain ⟨q', hmem, he⟩ := hpath
    have hne : q' ≠ q := by
      rintro rfl
      exact hq hmem
    rw [he, mergeBatch_mem (nodup_batchQblocks ..) hown.2 hmem] at hq'
    rw [fileOf, fileOf, he, hq', Option.filter_some, if_neg (by simpa [Document.merge] using hne)]
    cases hd : contents t (qblockPath sha256 q') with
    | none => rfl
    | some d =>
      rw [Option.filter_some, if_neg]
      rw [hown.1 q' hmem d hd]
      simpa using hne
  · rw [fileOf, fileOf, hq', mergeBatch_other]
    intro q' hmem he
    exact hpath ⟨q', hmem, he⟩

end

/-! ### All batches -/

section

variable {sha256 : Sha256} {pid : ℕ}

/-- The winner row that a batch leaves is the batch's. -/
theorem KeepsEnrichment.putWinner {blocks : KeyedTable String BlockRecord} {w : BlockRecord}
    (h : KeepsEnrichment blocks w) : (putWinner blocks w).2.get? w.blockHash.text = some w := by
  obtain ⟨row, hrow, ⟨-, rfl⟩ | ⟨existing, hget, hcase⟩⟩ := putWinner_self blocks w
  · exact hrow
  · obtain ⟨henrich, hsame⟩ := h existing hget
    rw [hrow]
    rcases hcase with rfl | ⟨hs, rfl⟩
    · rw [henrich]
    · rw [henrich] at hs
      rw [hsame hs]

/-- The rows of a batch are those that its files keep. -/
theorem KeepsParticipants.get? {t : KeyedTable (ℕ × String) QBlockParticipationRecord}
    {ps : List QBlockParticipationRecord} (h : KeepsParticipants t ps) (hkeyed : KeyedByAccount t)
    (k : ℕ × String) :
    (putParticipants t ps).get? k = (t.get? k).or (ps.find? (·.key = k)) := by
  rw [(putParticipants_get? hkeyed ps).2 k]
  cases hfind : ps.find? (·.key = k) with
  | some p =>
    have hk : p.key = k := by simpa using List.find?_some hfind
    subst hk
    rw [h p (List.mem_of_find?_eq_some hfind), hfind]
    cases t.get? p.key <;> rfl
  | none =>
    have hnone : ps.reverse.find? (·.key = k) = none := by
      rw [List.find?_eq_none] at hfind ⊢
      exact fun p hp => hfind p (List.mem_reverse.mp hp)
    rw [hnone, Option.none_or, Option.or_none]

/-- **A batch that meets the condition keeps rows and files alike.** -/
theorem FilesStep.agree {s s' : Store × FileTree Document} {c : FileCommit}
    (hs : FilesAgree sha256 s) (h : FilesStep sha256 pid s c s') (hc : c.Agrees sha256) :
    FilesAgree sha256 s' := by
  obtain ⟨rfl, ⟨r, hcommit, hr⟩, es, results, htrace⟩ := h
  obtain ⟨-, hshallow, hfiles⟩ := (writeBatch_ensures sha256 pid _ _ hs.shallow).of_trace htrace
  obtain ⟨hwinner, hparticipants, hpaths⟩ := hc
  rcases commitBlock_cases hcommit with ⟨-, ⟨e, he⟩ | ⟨hstale, -⟩⟩ | ⟨r', -, hcommits⟩
  · cases he
  · exact absurd (Except.ok.inj hstale) hr
  have hget := hparticipants.get? hs.keyed
  refine ⟨hshallow, ?_, ?_, ?_⟩
  · rw [hcommits.participation_eq]
    exact (putParticipants_get? hs.keyed _).1
  · intro k w hw
    rw [hcommits.blocks_eq] at hw
    cases hrec : c.batch.records.winner with
    | none =>
      -- participants only: the file keeps its winner
      rw [hrec] at hw hpaths hfiles
      obtain ⟨d, hd, hdw⟩ := hs.winner k w hw
      by_cases hq : w.qblockId ∈ batchQblocks none c.batch.records.participation
      · refine ⟨_, fileOf_mem hpaths hfiles hq, ?_⟩
        rw [hd]
        exact merge_winner_none hdw
      · exact ⟨d, (fileOf_other hpaths hfiles hq).trans hd, hdw⟩
    | some v =>
      obtain ⟨hkeeps, honly⟩ := hwinner v hrec
      rw [hrec] at hw hpaths hfiles
      have hmem : v.qblockId ∈ batchQblocks (some v) c.batch.records.participation :=
        mem_batchQblocks.mpr (.inl ⟨v, rfl, rfl⟩)
      by_cases hk : k = v.blockHash.text
      · subst hk
        obtain rfl : v = w := Option.some.inj (hkeeps.putWinner.symm.trans hw)
        refine ⟨_, fileOf_mem hpaths hfiles hmem, ?_⟩
        rw [Option.filter_some, if_pos (by simp)]
        rfl
      · have hold : c.pre.1.blocks.get? k = some w := (putWinner_ne hk).symm.trans hw
        obtain ⟨d, hd, hdw⟩ := hs.winner k w hold
        have hne : v.qblockId ≠ w.qblockId := Ne.symm (honly k w hold hk)
        by_cases hq : w.qblockId ∈ batchQblocks (some v) c.batch.records.participation
        · refine ⟨_, fileOf_mem hpaths hfiles hq, ?_⟩
          rw [hd, Option.filter_some, if_neg (by simpa using hne)]
          exact merge_winner_none hdw
        · exact ⟨d, (fileOf_other hpaths hfiles hq).trans hd, hdw⟩
  · intro q account
    rw [hcommits.participation_eq, hget, hs.rows]
    by_cases hq : q ∈ batchQblocks c.batch.records.winner c.batch.records.participation
    · rw [fileOf_mem hpaths hfiles hq, Option.bind_some, merge_row]
      congr 1
      · cases fileOf sha256 c.pre.2 q <;> rfl
      · rw [List.find?_filter]
        simp [QBlockParticipationRecord.key, Prod.mk.injEq, Bool.decide_and]
    · rw [fileOf_other hpaths hfiles hq]
      have hnone : c.batch.records.participation.find? (·.key = (q, account)) = none := by
        rw [List.find?_eq_none]
        intro p hp hkey
        have hkey : p.key = (q, account) := by simpa using hkey
        exact hq (mem_batchQblocks.mpr (.inr ⟨p, hp, congrArg Prod.fst hkey⟩))
      rw [hnone, Option.or_none]

theorem filesRun_agree {s₀ s : Store × FileTree Document} {cs : List FileCommit}
    (hs : FilesAgree sha256 s₀) (h : History.Run (FilesStep sha256 pid) s₀ cs s)
    (hc : ∀ c ∈ cs, c.Agrees sha256) : FilesAgree sha256 s := by
  induction h with
  | nil => exact hs
  | snoc _ hstep ih =>
    exact hstep.agree (ih fun c h => hc c (List.mem_cons_of_mem _ h)) (hc _ (List.mem_cons_self ..))

/-- An empty store and an empty directory are alike. -/
theorem filesAgree_empty (pg : Bool) (genesis : BlockHash) :
    FilesAgree sha256 (Store.bound pg genesis, .empty) where
  shallow := shallow_empty
  keyed k p h := by cases (KeyedTable.get?_empty (ρ := QBlockParticipationRecord) k).symm.trans h
  winner k w h := by cases (KeyedTable.get?_empty (ρ := BlockRecord) k).symm.trans h
  rows _ _ := rfl

/-- Without its file a tree stays shallow. -/
theorem Shallow.erase {t : FileTree Document} (h : Shallow t) (p : FilePath) :
    Shallow (KeyedTable.erase t p) := by
  intro q hq
  by_cases hqp : q = p
  · rw [hqp, KeyedTable.get?_erase_self] at hq
    cases hq
  · rw [KeyedTable.get?_erase_ne hqp] at hq
    exact h q hq

/-- **From an empty store and an empty directory, through any commits that keep enrichment
and participants and name no second winner of a qblock, the file of every stored winner has
the winner and the participants that its restore from the rows would write.** -/
theorem files_match_restored {pg : Bool} {genesis : BlockHash} {cs : List FileCommit}
    {s : Store × FileTree Document}
    (h : History.Run (FilesStep sha256 pid) (Store.bound pg genesis, .empty) cs s)
    (hc : ∀ c ∈ cs, c.Agrees sha256) {k : String} {w : BlockRecord}
    (hw : s.1.blocks.get? k = some w) :
    ∃ d, contents s.2 (qblockPath sha256 w.qblockId) = some d ∧
      ∀ {es t restored}, Trace FileAnswers
          (restoreQblock sha256 pid w (s.1.qblockParticipation w.qblockId))
          (KeyedTable.erase s.2 (qblockPath sha256 w.qblockId)) es t (some (.ok restored)) →
        ∃ d', contents t (qblockPath sha256 w.qblockId) = some d' ∧ d.winner = d'.winner ∧
          ∀ account, d.row account = d'.row account := by
  have hs := filesRun_agree (filesAgree_empty pg genesis) h hc
  obtain ⟨d, hd, hdw⟩ := hs.winner k w hw
  refine ⟨d, (Option.filter_eq_some_iff.mp hd).1, fun htrace => ?_⟩
  have hnone : contents (KeyedTable.erase s.2 (qblockPath sha256 w.qblockId))
      (qblockPath sha256 w.qblockId) = none := by
    rw [contents, KeyedTable.get?_erase_self]
    rfl
  obtain ⟨-, hd'⟩ := (restoreQblock_ensures sha256 pid w _ (hs.shallow.erase _) hnone).of_trace htrace
  refine ⟨_, hd', hdw, fun account => ?_⟩
  rw [merge_row, qblockParticipation_find hs.keyed, hs.rows, hd, Option.bind_some]
  rfl

/-- A commit that succeeds can be followed by its write. -/
theorem filesStep_exists (sha256 : Sha256) (pid : ℕ) {s : Store × FileTree Document}
    (ht : Shallow s.2) {now : Timestamp}
    {b : BlockCommit} {r : CommitResult} {s₁ : Store}
    (h : commitBlock now b s.1 = (.ok r, s₁)) (hr : r ≠ .staleGeneration) :
    ∃ t, FilesStep sha256 pid s ⟨s, now, b⟩ (s₁, t) ∧ Shallow t ∧
      ∀ p, IsDocument p → p ≠ manifestPath → contents t p = mergeBatch sha256 b.records.winner
        b.records.participation (batchQblocks b.records.winner b.records.participation)
        (contents s.2) p := by
  obtain ⟨es, t, results, htrace, ⟨results, rfl⟩, hshallow, hfiles⟩ :=
    (writeBatch_ensures sha256 pid b.records.winner b.records.participation ht).run
  exact ⟨t, ⟨rfl, ⟨r, h, hr⟩, es, results, htrace⟩, hshallow, hfiles⟩

end

/-! ### A replay without the enrichment -/

/-- A digest of zeros. -/
def zeroDigest : Sha256 := ⟨fun _ => List.replicate 32 0, fun _ => List.length_replicate⟩

/-- The winner of a commit. -/
def wonRecord : BlockRecord where
  blockHash := .uniform 3
  substrateBlockNumber := 5
  substrateBlockHash := .uniform 2
  substrateParentHash := .uniform 4
  timestamp := 1710000000
  minerId := "alice"
  energy := -3
  diversity := 1 / 2
  numValidSolutions := 1
  miningTime := 6
  deviceAccessTimeUs := none
  reward := 10
  qblockId := 7
  nonce := 9
  numNodes := 4
  numEdges := 5
  difficultyEnergy := -2
  minDiversity := 1 / 4
  minSolutions := 1
  finalized := true
  topologyHash := none

/-- The same winner with its access time. -/
def timedRecord : BlockRecord := { wonRecord with deviceAccessTimeUs := some 6000000 }

/-- The commit of a winner. -/
def wonBatch (w : BlockRecord) : BlockCommit where
  genesis := .uniform 1
  hash := .uniform 2
  height := 5
  guards := [⟨.winners, 1⟩]
  records := { winner := some w, difficulty := none, authorship := none, participation := [] }
  completed := [.winners]

/-- The store after the first commit, and after the replay. -/
def timedStore : Store := (commitBlock (.utc 0) (wonBatch timedRecord) (.bound false (.uniform 1))).2

def replayedStore : Store := (commitBlock (.utc 0) (wonBatch wonRecord) timedStore).2

theorem timedStore_eq : commitBlock (.utc 0) (wonBatch timedRecord) (.bound false (.uniform 1)) =
    (.ok .applied, timedStore) := by
  decide +kernel

theorem replayedStore_eq : commitBlock (.utc 0) (wonBatch wonRecord) timedStore =
    (.ok .alreadyApplied, replayedStore) := by
  decide +kernel

theorem timedStore_winner :
    timedStore.blocks.get? timedRecord.blockHash.text = some timedRecord := by
  decide +kernel

theorem replayedStore_winner :
    replayedStore.blocks.get? wonRecord.blockHash.text = some timedRecord := by
  decide +kernel

/-- The commit of the first winner and its file. -/
theorem timed_step : ∃ t,
    FilesStep zeroDigest 1 (.bound false (.uniform 1), .empty)
      ⟨(.bound false (.uniform 1), .empty), .utc 0, wonBatch timedRecord⟩ (timedStore, t) ∧
    Shallow t := by
  obtain ⟨t, hstep, ht, -⟩ := filesStep_exists zeroDigest 1
    (s := (.bound false (.uniform 1), .empty)) shallow_empty timedStore_eq (by decide)
  exact ⟨t, hstep, ht⟩

theorem timed_agrees : FileCommit.Agrees zeroDigest
    ⟨(.bound false (.uniform 1), .empty), .utc 0, wonBatch timedRecord⟩ where
  winner := by
    rintro w ⟨rfl⟩
    have hnone : ∀ k, (Store.bound false (.uniform 1)).blocks.get? k = none := fun _ => rfl
    refine ⟨fun existing h => ?_, fun k row h => ?_⟩
    · cases (hnone _).symm.trans h
    · cases (hnone _).symm.trans h
  participants p hp := absurd hp List.not_mem_nil
  paths := by
    refine ⟨fun q _ d hd => ?_, fun q hq q' hq' _ => ?_⟩
    · cases hd
    · rw [List.mem_singleton.mp hq, List.mem_singleton.mp hq']

theorem files_match_restored_timed : ∃ t d,
    contents t (qblockPath zeroDigest timedRecord.qblockId) = some d ∧
      ∃ es t' restored, Trace FileAnswers
        (restoreQblock zeroDigest 1 timedRecord
          (timedStore.qblockParticipation timedRecord.qblockId))
        (KeyedTable.erase t (qblockPath zeroDigest timedRecord.qblockId)) es t'
          (some (.ok restored)) ∧
      ∃ d', contents t' (qblockPath zeroDigest timedRecord.qblockId) = some d' ∧
        d.winner = d'.winner := by
  obtain ⟨t, hstep, ht⟩ := timed_step
  have run : History.Run (FilesStep zeroDigest 1) (.bound false (.uniform 1), .empty) [_]
      (timedStore, t) := .snoc .nil hstep
  obtain ⟨d, hd, hrestored⟩ := files_match_restored (w := timedRecord)
    run (List.forall_mem_singleton.mpr timed_agrees) timedStore_winner
  obtain ⟨es, t', r, htrace, rfl, -⟩ := (restoreQblock_ensures zeroDigest 1 timedRecord
    (timedStore.qblockParticipation timedRecord.qblockId)
    (ht.erase (qblockPath zeroDigest timedRecord.qblockId))
    (by rw [contents, KeyedTable.get?_erase_self]; rfl)).run
  obtain ⟨d', hd', hw, -⟩ := hrestored htrace
  exact ⟨t, d, hd, es, t', true, htrace, d', hd', hw⟩

/-- **A replay that lacks the access time takes it out of the file; the row, and so a
restored file, keeps it.** -/
theorem restored_enrichment_lost : ∃ cs s d, History.Run (FilesStep zeroDigest 1)
      (.bound false (.uniform 1), .empty) cs s ∧
    s.1.blocks.get? wonRecord.blockHash.text = some timedRecord ∧
    contents s.2 (qblockPath zeroDigest timedRecord.qblockId) = some d ∧
      ∃ es t' restored, Trace FileAnswers
        (restoreQblock zeroDigest 1 timedRecord (s.1.qblockParticipation timedRecord.qblockId))
        (KeyedTable.erase s.2 (qblockPath zeroDigest timedRecord.qblockId)) es t'
          (some (.ok restored)) ∧
      ∃ d', contents t' (qblockPath zeroDigest timedRecord.qblockId) = some d' ∧
        d.winner ≠ d'.winner := by
  obtain ⟨t, hstep, ht⟩ := timed_step
  obtain ⟨u, hreplay, hu, hfiles⟩ := filesStep_exists zeroDigest 1
    (s := (timedStore, t)) ht replayedStore_eq (by decide)
  have hfile := hfiles (qblockPath zeroDigest timedRecord.qblockId) (isDocument_qblockPath ..)
    (by simp [qblockPath, manifestPath, qblockRelPath])
  rw [mergeBatch_mem (nodup_batchQblocks ..) (q := timedRecord.qblockId) (by
    intro q hq q' hq' _
    rw [List.mem_singleton.mp hq, List.mem_singleton.mp hq']) (List.mem_singleton_self _)] at hfile
  obtain ⟨es, t', r, htrace, rfl, hd'⟩ := (restoreQblock_ensures zeroDigest 1 timedRecord
    (replayedStore.qblockParticipation timedRecord.qblockId)
    (hu.erase (qblockPath zeroDigest timedRecord.qblockId))
    (by rw [contents, KeyedTable.get?_erase_self]; rfl)).run
  refine ⟨_, (replayedStore, u), _, .snoc (.snoc .nil hstep) hreplay, replayedStore_winner, hfile,
    es, t', true, htrace, _, hd', ?_⟩
  intro hsame
  have htime := congrArg BlockRecord.deviceAccessTimeUs (Option.some.inj (Option.some.inj hsame))
  cases htime

end Dashboard

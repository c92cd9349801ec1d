/-
What the writer makes of the files of qblocks.

The programs of `FileWriter`, run alone on a tree in which no operation fails by itself.

* `atomicWrite_ensures` — a document is written, and no other document changes;
* `writeBatch_ensures` — **a batch merges its records into the files of its qblocks**, by
  `mergeBatch`;
* `restoreQblock_ensures` — a missing file is written from a winner and its participants.
-/
import QuipDashboard.FileWriter

namespace Dashboard

/-! ### Paths of documents -/

/-- The path of a document, not of a temp file. -/
def IsDocument (p : FilePath) : Prop := ∃ stem, p.getLast? = some (stem ++ ".json")

theorem isDocument_qblockPath (sha256 : Sha256) (q : ℕ) : IsDocument (qblockPath sha256 q) :=
  ⟨_, rfl⟩

theorem isDocument_manifestPath : IsDocument manifestPath := ⟨"metadata", by decide⟩

theorem isDocument_dayPath (day : String) : IsDocument (dayPath day) := ⟨_, rfl⟩

theorem tempPath_not_document (pid : ℕ) (p : FilePath) : ¬IsDocument (tempPath pid p) := by
  rintro ⟨stem, h⟩
  rw [tempPath, List.getLast?_concat] at h
  -- the one ends with `p`, the other one with `n`
  have hp : ∀ s : String, (s ++ ".tmp").toList.getLast? = some 'p' := by
    intro s
    simp [String.toList_append, List.getLast?_append]
  have hn : ∀ s : String, (s ++ ".json").toList.getLast? = some 'n' := by
    intro s
    simp [String.toList_append, List.getLast?_append]
  have hlast := congrArg (fun s : String => s.toList.getLast?) (Option.some.inj h)
  rw [hp, hn] at hlast
  cases hlast

theorem tempPath_ne (pid : ℕ) (p : FilePath) {q : FilePath} (hq : IsDocument q) :
    q ≠ tempPath pid p := by
  rintro rfl
  exact tempPath_not_document pid p hq

theorem length_tempPath {pid : ℕ} {p : FilePath} (hp : p ≠ []) :
    (tempPath pid p).length = p.length := by
  have := List.length_pos_iff.mpr hp
  rw [tempPath, List.length_append, List.length_dropLast, List.length_singleton]
  omega

theorem IsDocument.ne_nil {p : FilePath} (h : IsDocument p) : p ≠ [] := by
  rintro rfl
  obtain ⟨stem, h⟩ := h
  cases h

/-! ### Trees of documents -/

/-- The document at a path. -/
def contents (t : FileTree Document) (p : FilePath) : Option Document :=
  (t.get? p).map StoredFile.content

/-- No path is longer than that of a qblock file. -/
def Shallow (t : FileTree Document) : Prop := ∀ p, (t.get? p).isSome → p.length ≤ 4

theorem shallow_empty : Shallow .empty := by
  intro p hp
  rw [KeyedTable.get?_empty] at hp
  cases hp

theorem Shallow.isDir {t : FileTree Document} (h : Shallow t) {p : FilePath} (hp : 4 ≤ p.length) :
    FileTree.isDir t p = false := by
  rw [FileTree.isDir, List.any_eq_false]
  rintro ⟨q, f⟩ hq hpre
  simp only [Bool.and_eq_true, List.isPrefixOf_iff_prefix, decide_eq_true_eq] at hpre
  have hlen : q.length ≤ 4 := h q (by rw [KeyedTable.get?_eq_some.mpr hq]; rfl)
  exact hpre.2 (hpre.1.eq_of_length_le (by omega))

/-- A document was written at a path, and no other document changed. -/
structure Wrote (t t' : FileTree Document) (p : FilePath) (d : Document) : Prop where
  self : contents t' p = some d
  other : ∀ q, IsDocument q → q ≠ p → contents t' q = contents t q
  shallow : Shallow t → p.length ≤ 4 → Shallow t'

section

variable {sha256 : Sha256} {pid : ℕ} {t : FileTree Document}

/-- **`atomic_write` replaces one document.** -/
theorem atomicWrite_ensures {p : FilePath} {d : Document} (hp : IsDocument p) :
    (atomicWrite pid p d).Ensures FileAnswers (fun r t' => r = .ok () ∧ Wrote t t' p d) t := by
  have hne := tempPath_ne pid p hp
  refine Program.Ensures.write fun second => ?_
  rw [← Program.bind_pure' (Program.awaitOk _ _)]
  refine Program.Ensures.rename (KeyedTable.get?_put_self ..) ⟨rfl, ?_, ?_, ?_⟩
  · rw [contents, KeyedTable.get?_put_self]
    rfl
  · intro q hq hqp
    have hqt := tempPath_ne pid p hq
    rw [contents, KeyedTable.get?_put_ne hqp, KeyedTable.get?_erase_ne hqt,
      KeyedTable.get?_put_ne hqt, contents]
  · intro ht hlen q hq
    by_cases hqp : q = p
    · rw [hqp]
      exact hlen
    · rw [KeyedTable.get?_put_ne hqp] at hq
      by_cases hqt : q = tempPath pid p
      · rw [hqt, length_tempPath hp.ne_nil]
        exact hlen
      · rw [KeyedTable.get?_erase_ne hqt, KeyedTable.get?_put_ne hqt] at hq
        exact ht q hq

theorem exists_iff {p : FilePath} (ht : Shallow t) (hp : 4 ≤ p.length) :
    ((t.get? p).isSome || FileTree.isDir t p) = (contents t p).isSome := by
  rw [ht.isDir hp, Bool.or_false, contents, Option.isSome_map]

/-- **`write_qblock_merged` merges its records into the file of the qblock.** -/
theorem writeQblockMerged_ensures {q : ℕ} {winner : Option BlockRecord}
    {rows : List QBlockParticipationRecord} (ht : Shallow t) :
    (writeQblockMerged sha256 pid q winner rows).Ensures FileAnswers (fun r t' => r = .ok () ∧
      Wrote t t' (qblockPath sha256 q)
        (((contents t (qblockPath sha256 q)).getD .empty).merge q winner rows)) t := by
  refine Program.Ensures.exists_ ?_
  rw [exists_iff ht (p := qblockPath sha256 q) le_rfl]
  cases hget : t.get? (qblockPath sha256 q) with
  | none =>
    rw [contents, hget]
    exact atomicWrite_ensures (isDocument_qblockPath ..)
  | some f =>
    rw [contents, hget]
    exact Program.Ensures.readOk hget (atomicWrite_ensures (isDocument_qblockPath ..))

end

/-! ### A batch -/

section

variable (sha256 : Sha256)

/-- A merge into the file of one qblock. -/
def mergeAt (c : FilePath → Option Document) (q : ℕ) (winner : Option BlockRecord)
    (rows : List QBlockParticipationRecord) : FilePath → Option Document :=
  Function.update c (qblockPath sha256 q)
    (some (((c (qblockPath sha256 q)).getD .empty).merge q winner rows))

/-- The merges of a batch into the files of some qblocks. -/
def mergeBatch (winner : Option BlockRecord) (rows : List QBlockParticipationRecord) :
    List ℕ → (FilePath → Option Document) → FilePath → Option Document
  | [], c => c
  | q :: qs, c => mergeBatch winner rows qs
      (mergeAt sha256 c q (winner.filter (·.qblockId = q)) (rows.filter (·.qblockId = q)))

variable {sha256} {winner : Option BlockRecord} {rows : List QBlockParticipationRecord}
  {qs : List ℕ} {c : FilePath → Option Document} {p : FilePath}

/-- The merges of a batch look at documents only. -/
theorem mergeBatch_congr {c' : FilePath → Option Document}
    (h : ∀ p, IsDocument p → c' p = c p) (hp : IsDocument p) :
    mergeBatch sha256 winner rows qs c' p = mergeBatch sha256 winner rows qs c p := by
  induction qs generalizing c c' with
  | nil => exact h p hp
  | cons q qs ih =>
    refine ih fun p' hp' => ?_
    rw [mergeAt, mergeAt, h _ (isDocument_qblockPath ..)]
    by_cases hq : p' = qblockPath sha256 q
    · rw [hq, Function.update_self, Function.update_self]
    · rw [Function.update_of_ne hq, Function.update_of_ne hq, h p' hp']

/-- A file of no qblock of the batch stays. -/
theorem mergeBatch_other (h : ∀ q ∈ qs, p ≠ qblockPath sha256 q) :
    mergeBatch sha256 winner rows qs c p = c p := by
  induction qs generalizing c with
  | nil => rfl
  | cons q qs ih =>
    refine (ih fun q' hq' => h q' (List.mem_cons_of_mem _ hq')).trans ?_
    exact Function.update_of_ne (h q (List.mem_cons_self ..)) _ _

/-- The file of a qblock of the batch, when no other one shares its path. -/
theorem mergeBatch_mem (hnodup : qs.Nodup)
    (hpath : ∀ q ∈ qs, ∀ q' ∈ qs, qblockPath sha256 q = qblockPath sha256 q' → q = q')
    {q : ℕ} (hq : q ∈ qs) : mergeBatch sha256 winner rows qs c (qblockPath sha256 q) =
      some (((c (qblockPath sha256 q)).getD .empty).merge q (winner.filter (·.qblockId = q))
        (rows.filter (·.qblockId = q))) := by
  induction qs generalizing c with
  | nil => cases hq
  | cons q' qs ih =>
    rw [List.nodup_cons] at hnodup
    rcases List.mem_cons.mp hq with rfl | hmem
    · rw [mergeBatch, mergeBatch_other, mergeAt, Function.update_self]
      intro q' hq' he
      obtain rfl := hpath q hq q' (List.mem_cons_of_mem _ hq') he
      exact hnodup.1 hq'
    · have hne : qblockPath sha256 q ≠ qblockPath sha256 q' := by
        intro he
        obtain rfl := hpath q hq q' (List.mem_cons_self ..) he
        exact hnodup.1 hmem
      refine (ih hnodup.2 (fun a ha b hb => hpath a (List.mem_cons_of_mem _ ha) b
        (List.mem_cons_of_mem _ hb)) hmem).trans ?_
      rw [mergeAt, Function.update_of_ne hne]

end

section

variable {α : Type} [DecidableEq α]

theorem mem_foldl_pushNew {as l : List α} {a : α} : a ∈ as.foldl pushNew l ↔ a ∈ l ∨ a ∈ as := by
  induction as generalizing l with
  | nil => simp
  | cons b as ih =>
    have hpush : a ∈ pushNew l b ↔ a ∈ l ∨ a = b := by
      rw [pushNew]
      split
      · refine ⟨.inl, ?_⟩
        rintro (h | rfl)
        · exact h
        · assumption
      · rw [List.mem_append, List.mem_singleton]
    rw [List.foldl_cons, ih, hpush, List.mem_cons, or_assoc]

theorem nodup_foldl_pushNew {as l : List α} (hl : l.Nodup) : (as.foldl pushNew l).Nodup := by
  induction as generalizing l with
  | nil => exact hl
  | cons b as ih =>
    refine ih ?_
    rw [pushNew]
    split
    · exact hl
    · rename_i hb
      rw [List.nodup_append]
      refine ⟨hl, List.nodup_singleton b, ?_⟩
      rintro a ha b' hb' rfl
      rw [List.mem_singleton.mp hb'] at ha
      exact hb ha

end

theorem mem_batchQblocks {winner : Option BlockRecord} {rows : List QBlockParticipationRecord}
    {q : ℕ} : q ∈ batchQblocks winner rows ↔
      (∃ w, winner = some w ∧ w.qblockId = q) ∨ ∃ p ∈ rows, p.qblockId = q := by
  rw [batchQblocks, mem_foldl_pushNew]
  simp only [List.mem_map, Option.mem_toList]

theorem nodup_batchQblocks (winner : Option BlockRecord) (rows : List QBlockParticipationRecord) :
    (batchQblocks winner rows).Nodup := by
  refine nodup_foldl_pushNew ?_
  cases winner with
  | none => exact List.nodup_nil
  | some w => exact List.nodup_singleton _

section

variable {sha256 : Sha256} {pid : ℕ} {t : FileTree Document} {winner : Option BlockRecord}
  {rows : List QBlockParticipationRecord}

theorem writeQblocks_ensures {qs : List ℕ} (ht : Shallow t) :
    (writeQblocks sha256 pid winner rows qs).Ensures FileAnswers (fun r t' =>
      (∃ results, r = .ok results) ∧ Shallow t' ∧
      ∀ p, IsDocument p → contents t' p = mergeBatch sha256 winner rows qs (contents t) p) t := by
  induction qs generalizing t with
  | nil => exact ⟨⟨_, rfl⟩, ht, fun _ _ => rfl⟩
  | cons q qs ih =>
    refine .bind (.attempt ((writeQblockMerged_ensures ht).imp ?_))
    rintro r t₁ ⟨-, hw⟩
    refine .bind ((ih (hw.shallow ht le_rfl)).imp ?_)
    rintro r' t₂ ⟨⟨results, rfl⟩, ht₂, hc⟩
    refine ⟨⟨_, rfl⟩, ht₂, fun p hp => ?_⟩
    rw [hc p hp]
    refine mergeBatch_congr (fun p' hp' => ?_) hp
    rw [mergeAt]
    by_cases hq : p' = qblockPath sha256 q
    · rw [hq, Function.update_self]
      exact hw.self
    · rw [Function.update_of_ne hq]
      exact hw.other p' hp' hq

/-- The manifest is rewritten. -/
theorem addToManifest_ensures {paths : List FilePath} :
    (addToManifest pid paths).Ensures FileAnswers (fun r t' => r = .ok () ∧
      ∃ d, Wrote t t' manifestPath d) t := by
  refine .bind (Program.Ensures.read ?_)
  cases t.get? manifestPath with
  | none => exact (atomicWrite_ensures isDocument_manifestPath).imp fun _ _ h => ⟨h.1, _, h.2⟩
  | some f => exact (atomicWrite_ensures isDocument_manifestPath).imp fun _ _ h => ⟨h.1, _, h.2⟩

/-- **`write_batch` merges its records into the files of its qblocks.** -/
theorem writeBatch_ensures (sha256 : Sha256) (pid : ℕ) (winner : Option BlockRecord)
    (rows : List QBlockParticipationRecord) (ht : Shallow t) :
    (writeBatch sha256 pid winner rows).Ensures FileAnswers (fun r t' =>
      (∃ results, r = .ok results) ∧ Shallow t' ∧
      ∀ p, IsDocument p → p ≠ manifestPath → contents t' p =
        mergeBatch sha256 winner rows (batchQblocks winner rows) (contents t) p) t := by
  refine .bind ((writeQblocks_ensures ht).imp ?_)
  rintro r t₁ ⟨⟨results, rfl⟩, ht₁, hc⟩
  dsimp only
  split
  · refine .bind (.attempt (addToManifest_ensures.imp ?_))
    rintro r t₂ ⟨-, d, hw⟩
    refine ⟨⟨_, rfl⟩, hw.shallow ht₁ (by decide), fun p hp hne => ?_⟩
    rw [hw.other p hp hne, hc p hp]
  · exact ⟨⟨_, rfl⟩, ht₁, fun p hp _ => hc p hp⟩

/-- **`restore_qblock` writes a missing file from its records.** -/
theorem restoreQblock_ensures (sha256 : Sha256) (pid : ℕ) (w : BlockRecord)
    (rows : List QBlockParticipationRecord) (ht : Shallow t)
    (hnone : contents t (qblockPath sha256 w.qblockId) = none) :
    (restoreQblock sha256 pid w rows).Ensures FileAnswers (fun r t' => r = .ok true ∧
      contents t' (qblockPath sha256 w.qblockId) =
        some (Document.empty.merge w.qblockId (some w) rows)) t := by
  refine Program.Ensures.exists_ ?_
  rw [exists_iff ht (p := qblockPath sha256 w.qblockId) le_rfl, hnone]
  refine .bind ((writeQblockMerged_ensures ht).imp ?_)
  rintro r t₁ ⟨rfl, hw⟩
  have hself := hw.self
  rw [hnone] at hself
  obtain ⟨f, hf, hd⟩ := Option.map_eq_some_iff.mp hself
  refine Program.Ensures.setModified hf ⟨rfl, ?_⟩
  rw [contents, KeyedTable.get?_put_self]
  exact congrArg some hd

end

end Dashboard

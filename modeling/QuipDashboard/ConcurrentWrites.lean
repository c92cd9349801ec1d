/-
Batches and rebuilds at work on one data directory.

`write_batch` and `rebuild_manifests` run beside each other without a lock.  A merge reads a
file, writes a temp file and renames it over the file; a rebuild walks the tree and replaces
the manifests afterwards.

* `calls_keep_updates` — **when every rename finds its temp file and its target as its own
  call left them, and nothing is created and listed while a rebuild walks, every file and
  every listing keeps what all calls put there**;
* `merged_update_lost` — of two batches that read a file before the other one renames, the
  second takes the update of the first one out of it.
-/
import QuipDashboard.RestoredFiles
import QuipDashboard.ManifestRebuild
import QuipDashboard.Interleaving
import Mathlib.Data.Fintype.Basic

namespace Dashboard

/-! ### Calls -/

/-- A call of the writer; a rebuild has a bound on the directories of its walk. -/
inductive WriterCall where
  | batch (winner : Option BlockRecord) (rows : List QBlockParticipationRecord)
  | rebuild (fuel : ℕ) (recentSince : ℤ)

/-- What a call returns. -/
@[reducible] def WriterCall.Result : WriterCall → Type
  | .batch .. => List (ℕ × Except FileError Unit)
  | .rebuild .. => Unit

/-- The program of a call. -/
def WriterCall.code (sha256 : Sha256) (pid : ℕ) (day : ℤ → Option String) :
    (c : WriterCall) → WriterProgram c.Result
  | .batch winner rows => writeBatch sha256 pid winner rows
  | .rebuild fuel recentSince => rebuildManifests pid day fuel recentSince

/-- The qblocks that a call touches. -/
def WriterCall.qblocks : WriterCall → List ℕ
  | .batch winner rows => batchQblocks winner rows
  | .rebuild .. => []

/-- The directory, what each call has found and written at the paths, the files at the start
of each rebuild in progress, and the paths that batches have listed. -/
structure WriterState (ι : Type) where
  tree : FileTree Document
  seen : ι → FilePath → Option Document
  wrote : ι → FilePath → Option Document
  started : ι → Option (List FilePath)
  noted : List FilePath

section

variable {ι : Type} [DecidableEq ι]

/-- What a call has at a path from now on. -/
def held (m : ι → FilePath → Option Document) (i : ι) (p : FilePath) (d : Option Document) :
    ι → FilePath → Option Document :=
  Function.update m i (Function.update (m i) p d)

/-- The state after an effect of a call, with the tree that the effect leaves. -/
def WriterState.after (sha256 : Sha256) (calls : ι → WriterCall) (i : ι) (s : WriterState ι)
    (tree : FileTree Document) {γ : Type} : WriterEffect γ → γ → WriterState ι
  | .exists_ p, found =>
    { s with
      tree
      seen := if found then s.seen else held s.seen i p none
      -- a rebuild asks for the root first
      started := if p = [qblocksDir] then
          Function.update s.started i (some (s.tree.rows.map Prod.fst))
        else s.started }
  | .read p, .ok d => { s with tree, seen := held s.seen i p (some d) }
  | .read p, .error _ => { s with tree, seen := held s.seen i p none }
  | .write p d, _ => { s with tree, wrote := held s.wrote i p (some d) }
  | .rename p q, _ =>
    { s with
      tree
      wrote := held s.wrote i q (contents s.tree p)
      -- the manifest comes last
      started := if q = manifestPath then Function.update s.started i none else s.started
      noted := if q = manifestPath then
          s.noted ++ (calls i).qblocks.map (qblockPath sha256)
        else s.noted }
  | _, _ => { s with tree }

/-- An effect of a call. Where a file would take the place of a directory, it fails. -/
def WriterAnswers (sha256 : Sha256) (calls : ι → WriterCall) (i : ι) {γ : Type}
    (s : WriterState ι) (e : WriterEffect γ) (answer : γ) (s' : WriterState ι) : Prop :=
  FileAnswers s.tree e answer s'.tree ∧ FileTree.WellFormed s'.tree ∧
    s' = s.after sha256 calls i s'.tree e answer

/-- The calls at their start. -/
def writerTasks (sha256 : Sha256) (pid : ℕ) (day : ℤ → Option String) (calls : ι → WriterCall)
    (tree : FileTree Document) :
    Tasks WriterEffect FileError (WriterState ι) fun i => (calls i).Result where
  state := ⟨tree, fun _ _ => none, fun _ _ => none, fun _ => none, []⟩
  code i := (calls i).code sha256 pid day

/-! ### The assumptions -/

/-- No operation fails; only a manifest may be missing when it is read. -/
def Succeeds {γ : Type} (e : WriterEffect γ) (answer : γ) : Prop :=
  match e, answer with
  | .read p, .error _ => p = manifestPath
  | .write .., .error _ => False
  | .rename .., .error _ => False
  | .readDir _, .error _ => False
  | .metadata _, .error _ => False
  | .setModified .., .error _ => False
  | _, _ => True

/-- The recent manifest is below its cap. -/
def BelowCap (t : FileTree Document) : Prop :=
  (listedAt t manifestPath).length < maxManifestEntries

/-- A batch finds the target of a rename as it has seen it, and what it lists was there when
the rebuilds in progress started. -/
def BatchFinds (sha256 : Sha256) (qblocks : List ℕ) (i : ι) (s : WriterState ι) (p : FilePath) :
    Prop :=
  contents s.tree p = s.seen i p ∧ (p = manifestPath → ∀ j, ∀ files ∈ s.started j,
    ∀ q ∈ qblocks, qblockPath sha256 q ∈ files)

/-- A rebuild that replaces the manifest finds the manifests of the days that it names as it
wrote them, and the walk leaves out no name that was listed. -/
def RebuildFinds (i : ι) (s : WriterState ι) (temp p : FilePath) : Prop :=
  p = manifestPath →
    (∀ x ∈ ((contents s.tree temp).bind Document.history).getD [],
      contents s.tree x = s.wrote i x) ∧
    ∀ x ∈ s.noted, isQblockFile (x.getLast?.getD "") = true

/-- A rename finds its temp file as its call wrote it, and what its call has found before. -/
def RenameInOrder (sha256 : Sha256) (calls : ι → WriterCall) (i : ι) (s : WriterState ι)
    (temp p : FilePath) : Prop :=
  contents s.tree temp = s.wrote i temp ∧
  match calls i with
  | .batch winner rows => BatchFinds sha256 (batchQblocks winner rows) i s p
  | .rebuild .. => RebuildFinds i s temp p

/-- No other call comes in between a turn and what its call did before; the calendar has a
day for every file that a walk meets. -/
def TurnInOrder (sha256 : Sha256) (day : ℤ → Option String) (calls : ι → WriterCall) (i : ι)
    {γ : Type} (s : WriterState ι) (e : WriterEffect γ) (answer : γ) (_ : WriterState ι) : Prop :=
  match e, answer with
  | .rename temp p, _ => RenameInOrder sha256 calls i s temp p
  | .metadata p, .ok info => info.isDir = false → isQblockFile (p.getLast?.getD "") = true →
    0 ≤ info.modified ∧ info.modified ≤ i64Max ∧ (day info.modified).isSome
  | _, _ => True

/-- What the calls are proved under. -/
def WriterTurn (sha256 : Sha256) (day : ℤ → Option String) (calls : ι → WriterCall) (i : ι)
    {γ : Type} (s : WriterState ι) (e : WriterEffect γ) (answer : γ) (s' : WriterState ι) : Prop :=
  Succeeds e answer ∧ BelowCap s'.tree ∧ TurnInOrder sha256 day calls i s e answer s'

/-! ### What is to be kept -/

/-- A path is listed in the manifest, or in the manifest of a day that it names. -/
def Listed (t : FileTree Document) (p : FilePath) : Prop :=
  p ∈ listedAt t manifestPath ∨ ∃ d, dayPath d ∈ historyOf t ∧ p ∈ listedAt t (dayPath d)

/-- The document has a winner. -/
def Document.Won (d : Document) : Prop := ∃ w, d.winner = some (some w)

/-- The file at a path had the winner, or a batch has it for this path. -/
def CarriedBy (sha256 : Sha256) (calls : ι → WriterCall) (c : Option Document) (p : FilePath)
    (w : BlockRecord) : Prop :=
  (∃ d, c = some d ∧ d.winner = some (some w)) ∨
    ∃ i rows, calls i = .batch (some w) rows ∧ qblockPath sha256 w.qblockId = p

/-- The document of a qblock has what the file before and all batches have. -/
structure Document.Holds (sha256 : Sha256) (calls : ι → WriterCall) (c : Option Document) (q : ℕ)
    (d : Document) : Prop where
  won : (∃ d₀, c = some d₀ ∧ d₀.Won) ∨
    (∃ i w rows, calls i = .batch (some w) rows ∧ w.qblockId = q) → d.Won
  carried : ∀ w, d.winner = some (some w) → CarriedBy sha256 calls c (qblockPath sha256 q) w
  before : ∀ d₀, c = some d₀ → ∀ account, (d₀.row account).isSome → (d.row account).isSome
  rows : ∀ i winner rows, calls i = .batch winner rows →
    ∀ r ∈ rows, r.qblockId = q → (d.row r.account).isSome

/-- The file of a qblock and its listing have kept all updates. -/
def UpdatesKept (sha256 : Sha256) (calls : ι → WriterCall) (t₀ t : FileTree Document) (q : ℕ) :
    Prop :=
  (∃ d, contents t (qblockPath sha256 q) = some d ∧
    d.Holds sha256 calls (contents t₀ (qblockPath sha256 q)) q) ∧
  Listed t (qblockPath sha256 q)

end

/-! ### Documents that grow -/

/-- A document stays, with its accounts and with a winner when it has one. -/
def Grows (c c' : Option Document) : Prop :=
  ∀ d, c = some d → ∃ d', c' = some d' ∧
    (∀ account, (d.row account).isSome → (d'.row account).isSome) ∧ (d.Won → d'.Won)

theorem Grows.refl (c : Option Document) : Grows c c :=
  fun d hd => ⟨d, hd, fun _ h => h, fun h => h⟩

theorem Grows.trans {a b c : Option Document} (h : Grows a b) (h' : Grows b c) : Grows a c := by
  intro d hd
  obtain ⟨d₁, hd₁, hrows₁, hwon₁⟩ := h d hd
  obtain ⟨d₂, hd₂, hrows₂, hwon₂⟩ := h' d₁ hd₁
  exact ⟨d₂, hd₂, fun account ha => hrows₂ account (hrows₁ account ha),
    fun hw => hwon₂ (hwon₁ hw)⟩

theorem Grows.isSome {a b : Option Document} (h : Grows a b) (ha : a.isSome) : b.isSome := by
  obtain ⟨d, hd⟩ := Option.isSome_iff_exists.mp ha
  obtain ⟨d', hd', -⟩ := h d hd
  rw [hd']
  rfl

/-- A merged document has grown. -/
theorem grows_merge (c : Option Document) (q : ℕ) (winner : Option BlockRecord)
    (rows : List QBlockParticipationRecord) :
    Grows c (some ((c.getD .empty).merge q winner rows)) := by
  rintro d rfl
  refine ⟨_, rfl, fun account ha => ?_, fun hw => ?_⟩
  · rw [Option.getD_some, merge_row, Option.isSome_or, ha]
    rfl
  · cases winner with
    | none =>
      obtain ⟨w, hw⟩ := hw
      exact ⟨w, merge_winner_none hw⟩
    | some w => exact ⟨w, rfl⟩

/-- The winner of a merged document is the new one or the one before. -/
theorem merge_winner {d : Document} {q : ℕ} {winner : Option BlockRecord}
    {rows : List QBlockParticipationRecord} {w : BlockRecord}
    (h : (d.merge q winner rows).winner = some (some w)) :
    winner = some w ∨ d.winner = some (some w) := by
  cases winner with
  | some v => exact .inl (Option.some.inj h)
  | none =>
    right
    have h : d.winner.or (some none) = some (some w) := h
    cases hd : d.winner with
    | none =>
      rw [hd] at h
      cases h
    | some v =>
      rw [hd] at h
      exact h

/-! ### Rely and guarantee -/

section

variable {ι : Type} (sha256 : Sha256) (calls : ι → WriterCall) (t₀ : FileTree Document)

/-- What holds between any two turns. -/
structure Consistent (s : WriterState ι) : Prop where
  grown : ∀ q, Grows (contents t₀ (qblockPath sha256 q)) (contents s.tree (qblockPath sha256 q))
  carried : ∀ q d w, contents s.tree (qblockPath sha256 q) = some d → d.winner = some (some w) →
    CarriedBy sha256 calls (contents t₀ (qblockPath sha256 q)) (qblockPath sha256 q) w
  noted : ∀ p ∈ s.noted, ∃ q, p = qblockPath sha256 q ∧ (contents s.tree p).isSome
  started : ∀ j files, s.started j = some files → s.noted ⊆ files ∧
    ∀ q, qblockPath sha256 q ∈ files → (contents s.tree (qblockPath sha256 q)).isSome
  listed : (∀ j, s.started j = none) → ∀ p ∈ s.noted, Listed s.tree p

/-- What a call relies on. -/
structure WriterRely (i : ι) (s s' : WriterState ι) : Prop where
  seen : s'.seen i = s.seen i
  wrote : s'.wrote i = s.wrote i
  started : s'.started i = s.started i
  grows : ∀ q,
    Grows (contents s.tree (qblockPath sha256 q)) (contents s'.tree (qblockPath sha256 q))
  noted : s.noted ⊆ s'.noted
  consistent : Consistent sha256 calls t₀ s → Consistent sha256 calls t₀ s'

/-- What a call guarantees: what the others rely on. -/
def WriterGuarantee (i : ι) {γ : Type} (s : WriterState ι) (_ : WriterEffect γ) (_ : γ)
    (s' : WriterState ι) : Prop :=
  ∀ j, j ≠ i → WriterRely sha256 calls t₀ j s s'

variable {sha256 calls t₀} {i : ι} {s s' : WriterState ι}

theorem WriterRely.refl (i : ι) (s : WriterState ι) : WriterRely sha256 calls t₀ i s s :=
  ⟨rfl, rfl, rfl, fun _ => .refl _, List.Subset.refl _, fun h => h⟩

theorem WriterRely.trans {a b c : WriterState ι} (h : WriterRely sha256 calls t₀ i a b)
    (h' : WriterRely sha256 calls t₀ i b c) : WriterRely sha256 calls t₀ i a c :=
  ⟨h'.seen.trans h.seen, h'.wrote.trans h.wrote, h'.started.trans h.started,
    fun q => (h.grows q).trans (h'.grows q), List.Subset.trans h.noted h'.noted,
    fun hs => h'.consistent (h.consistent hs)⟩

variable [DecidableEq ι]

theorem held_ne {m : ι → FilePath → Option Document} {j : ι} (h : j ≠ i) (p : FilePath)
    (d : Option Document) : held m i p d j = m j :=
  Function.update_of_ne h _ _

theorem held_self {m : ι → FilePath → Option Document} (p : FilePath) (d : Option Document) :
    held m i p d i p = d := by
  rw [held, Function.update_self, Function.update_self]

theorem held_other {m : ι → FilePath → Option Document} {p q : FilePath} (h : q ≠ p)
    (d : Option Document) : held m i p d i q = m i q := by
  rw [held, Function.update_self, Function.update_of_ne h]

/-- An effect changes nothing of what the other calls have seen and written. -/
theorem WriterAnswers.frame {γ : Type} {e : WriterEffect γ} {answer : γ}
    (h : WriterAnswers sha256 calls i s e answer s') {j : ι} (hj : j ≠ i) :
    s'.seen j = s.seen j ∧ s'.wrote j = s.wrote j ∧ s'.started j = s.started j ∧
      s.noted ⊆ s'.noted := by
  rw [h.2.2]
  cases e with
  | exists_ p =>
    refine ⟨?_, rfl, ?_, List.Subset.refl _⟩
    · show (if answer then s.seen else held s.seen i p none) j = s.seen j
      split
      · rfl
      · exact held_ne hj ..
    · show (if p = [qblocksDir] then _ else s.started) j = s.started j
      split
      · exact Function.update_of_ne hj _ _
      · rfl
  | read p =>
    cases answer with
    | ok d => exact ⟨held_ne hj .., rfl, rfl, List.Subset.refl _⟩
    | error e => exact ⟨held_ne hj .., rfl, rfl, List.Subset.refl _⟩
  | write p d => exact ⟨rfl, held_ne hj .., rfl, List.Subset.refl _⟩
  | rename p q =>
    refine ⟨rfl, held_ne hj .., ?_, ?_⟩
    · show (if q = manifestPath then _ else s.started) j = s.started j
      split
      · exact Function.update_of_ne hj _ _
      · rfl
    · show s.noted ⊆ if q = manifestPath then _ else s.noted
      split
      · exact List.subset_append_left ..
      · exact List.Subset.refl _
  | readDir p | metadata p | setModified p => exact ⟨rfl, rfl, rfl, List.Subset.refl _⟩

/-- **What is left to show of an effect.** -/
theorem WriterAnswers.guarantee {γ : Type} {e : WriterEffect γ} {answer : γ}
    (h : WriterAnswers sha256 calls i s e answer s')
    (hgrows : ∀ q, Grows (contents s.tree (qblockPath sha256 q))
      (contents s'.tree (qblockPath sha256 q)))
    (hs : Consistent sha256 calls t₀ s → Consistent sha256 calls t₀ s') :
    WriterGuarantee sha256 calls t₀ i s e answer s' := by
  intro j hj
  obtain ⟨hseen, hwrote, hstarted, hnoted⟩ := h.frame hj
  exact ⟨hseen, hwrote, hstarted, hgrows, hnoted, hs⟩

end

/-! ### Rules -/

section

variable {ι : Type} {sha256 : Sha256} {calls : ι → WriterCall} {t₀ : FileTree Document} {i : ι}
  {s s' : WriterState ι}

/-- The files of qblocks stay, and no other rebuild starts. -/
theorem Consistent.of_qblocks (hs : Consistent sha256 calls t₀ s)
    (hq : ∀ q, contents s'.tree (qblockPath sha256 q) = contents s.tree (qblockPath sha256 q))
    (hstarted : ∀ j files, s'.started j = some files → s.started j = some files)
    (hnoted : s'.noted = s.noted)
    (hlisted : (∀ j, s'.started j = none) → ∀ p ∈ s.noted, Listed s'.tree p) :
    Consistent sha256 calls t₀ s' := by
  refine ⟨fun q => ?_, fun q => ?_, fun p hp => ?_, fun j files hj => ?_, ?_⟩
  · rw [hq]
    exact hs.grown q
  · rw [hq]
    exact hs.carried q
  · rw [hnoted] at hp
    obtain ⟨q, rfl, hsome⟩ := hs.noted p hp
    exact ⟨q, rfl, by rw [hq]; exact hsome⟩
  · obtain ⟨hsub, hfiles⟩ := hs.started j files (hstarted j files hj)
    rw [hnoted]
    exact ⟨hsub, fun q h => by rw [hq]; exact hfiles q h⟩
  · rw [hnoted]
    exact hlisted

/-- Nothing depends on what is no document. -/
theorem Consistent.congr (hs : Consistent sha256 calls t₀ s)
    (hdoc : ∀ p, IsDocument p → contents s'.tree p = contents s.tree p)
    (hstarted : s'.started = s.started) (hnoted : s'.noted = s.noted) :
    Consistent sha256 calls t₀ s' := by
  have hlistedAt : ∀ p, IsDocument p → listedAt s'.tree p = listedAt s.tree p := by
    intro p hp
    rw [listedAt, listedAt, hdoc p hp]
  refine hs.of_qblocks (fun q => hdoc _ (isDocument_qblockPath sha256 q))
    (fun j files hj => by rw [← hstarted]; exact hj) hnoted fun hnone p hp => ?_
  rw [hstarted] at hnone
  rw [Listed, historyOf, hdoc _ isDocument_manifestPath, hlistedAt _ isDocument_manifestPath]
  rcases hs.listed hnone p hp with h | ⟨d, hd, h⟩
  · exact .inl h
  · exact .inr ⟨d, hd, by rw [hlistedAt _ (isDocument_dayPath d)]; exact h⟩

/-- Since `s` the call has changed no document. -/
structure Onward (sha256 : Sha256) (calls : ι → WriterCall) (t₀ : FileTree Document) (i : ι)
    (s s' : WriterState ι) : Prop where
  consistent : Consistent sha256 calls t₀ s'
  seen : s'.seen i = s.seen i
  started : s'.started i = s.started i
  wrote : ∀ p, IsDocument p → s'.wrote i p = s.wrote i p
  grows : ∀ q,
    Grows (contents s.tree (qblockPath sha256 q)) (contents s'.tree (qblockPath sha256 q))
  noted : s.noted ⊆ s'.noted

theorem WriterRely.onward (h : WriterRely sha256 calls t₀ i s s')
    (hs : Consistent sha256 calls t₀ s) : Onward sha256 calls t₀ i s s' :=
  ⟨h.consistent hs, h.seen, h.started, fun p _ => by rw [h.wrote], h.grows, h.noted⟩

theorem Onward.rely {s'' : WriterState ι} (h : Onward sha256 calls t₀ i s s')
    (h' : WriterRely sha256 calls t₀ i s' s'') : Onward sha256 calls t₀ i s s'' :=
  ⟨h'.consistent h.consistent, h'.seen.trans h.seen, h'.started.trans h.started,
    fun p hp => by rw [h'.wrote, h.wrote p hp], fun q => (h.grows q).trans (h'.grows q),
    List.Subset.trans h.noted h'.noted⟩

/-- A batch at work, since `s`. -/
structure BatchOnward (sha256 : Sha256) (calls : ι → WriterCall) (t₀ : FileTree Document) (i : ι)
    (s s' : WriterState ι) : Prop where
  consistent : Consistent sha256 calls t₀ s'
  started : s'.started i = none
  grows : ∀ q,
    Grows (contents s.tree (qblockPath sha256 q)) (contents s'.tree (qblockPath sha256 q))

theorem BatchOnward.rely {s'' : WriterState ι} (h : BatchOnward sha256 calls t₀ i s s')
    (h' : WriterRely sha256 calls t₀ i s' s'') : BatchOnward sha256 calls t₀ i s s'' :=
  ⟨h'.consistent h.consistent, h'.started.trans h.started, fun q => (h.grows q).trans (h'.grows q)⟩

/-- A rebuild at work, with the files at its start. -/
structure RebuildAt (sha256 : Sha256) (calls : ι → WriterCall) (t₀ : FileTree Document) (i : ι)
    (files : List FilePath) (s : WriterState ι) : Prop where
  consistent : Consistent sha256 calls t₀ s
  started : s.started i = some files

theorem RebuildAt.rely {files : List FilePath} (h : RebuildAt sha256 calls t₀ i files s)
    (h' : WriterRely sha256 calls t₀ i s s') : RebuildAt sha256 calls t₀ i files s' :=
  ⟨h'.consistent h.consistent, h'.started.trans h.started⟩

/-- A file that a rebuild has to find: it was there at the start, and its name is recognised. -/
def ToFind (sha256 : Sha256) (files : List FilePath) (p : FilePath) : Prop :=
  p ∈ files ∧ (∃ q, p = qblockPath sha256 q) ∧ isQblockFile (p.getLast?.getD "") = true

/-- A file that is to be found is still there. -/
theorem RebuildAt.present {files : List FilePath} (h : RebuildAt sha256 calls t₀ i files s)
    {p : FilePath} (hp : ToFind sha256 files p) : ∃ f, s.tree.get? p = some f := by
  obtain ⟨hmem, ⟨q, rfl⟩, -⟩ := hp
  obtain ⟨d, hd⟩ := Option.isSome_iff_exists.mp ((h.consistent.started i files h.started).2 q hmem)
  obtain ⟨f, hf, -⟩ := Option.map_eq_some_iff.mp hd
  exact ⟨f, hf⟩

variable [DecidableEq ι] {pid : ℕ} {day : ℤ → Option String}

/-- The judgement for a call. -/
abbrev WriterSafe (sha256 : Sha256) (day : ℤ → Option String) (calls : ι → WriterCall)
    (t₀ : FileTree Document) (i : ι) {α : Type} (Q : Except FileError α → WriterState ι → Prop)
    (p : WriterProgram α) (s : WriterState ι) : Prop :=
  p.Safe (Conforming (WriterAnswers sha256 calls) (WriterTurn sha256 day calls) i)
    (WriterRely sha256 calls t₀ i) (WriterGuarantee sha256 calls t₀ i) Q s

/-- An effect that changes no document. -/
theorem WriterAnswers.aside {γ : Type} {e : WriterEffect γ} {answer : γ}
    (h : WriterAnswers sha256 calls i s e answer s')
    (hdoc : ∀ p, IsDocument p → contents s'.tree p = contents s.tree p)
    (hstarted : s'.started = s.started) (hnoted : s'.noted = s.noted) :
    WriterGuarantee sha256 calls t₀ i s e answer s' := by
  refine h.guarantee (fun q => ?_) fun hs => hs.congr hdoc hstarted hnoted
  rw [hdoc _ (isDocument_qblockPath ..)]
  exact .refl _

/-- A document was renamed to its path. -/
structure Renamed (sha256 : Sha256) (calls : ι → WriterCall) (pid : ℕ) (i : ι) (p : FilePath)
    (d : Document) (s s' : WriterState ι) : Prop where
  temp : contents s.tree (tempPath pid p) = some d
  self : contents s'.tree p = some d
  other : ∀ q, IsDocument q → q ≠ p → contents s'.tree q = contents s.tree q
  wrote : s'.wrote i p = some d
  wrote_other : ∀ q, q ≠ p → s'.wrote i q = s.wrote i q
  started : s'.started =
    if p = manifestPath then Function.update s.started i none else s.started
  noted : s'.noted =
    if p = manifestPath then s.noted ++ (calls i).qblocks.map (qblockPath sha256) else s.noted

/-- **`atomic_write` changes one document, when it is renamed.** -/
theorem atomicWrite_safe {p : FilePath} {d : Document}
    {Q : Except FileError Unit → WriterState ι → Prop} (hs : Consistent sha256 calls t₀ s)
    (h : ∀ s₁ s₂, Onward sha256 calls t₀ i s s₁ → Renamed sha256 calls pid i p d s₁ s₂ →
      RenameInOrder sha256 calls i s₁ (tempPath pid p) p → BelowCap s₂.tree →
      (∀ q, Grows (contents s₁.tree (qblockPath sha256 q))
          (contents s₂.tree (qblockPath sha256 q))) ∧
        Consistent sha256 calls t₀ s₂ ∧ Q (.ok ()) s₂) :
    WriterSafe sha256 day calls t₀ i Q (atomicWrite pid p d) s := by
  have hfile : ∀ {q}, IsDocument q → q ≠ tempPath pid p := fun hq => tempPath_ne pid p hq
  refine .awaitOk ?_ ?_ ?_
  · rintro s₁ - r s₂ ⟨hw, -⟩
    obtain ⟨-, second, htree⟩ := hw.1
    refine hw.aside (fun q hq => ?_) (by rw [hw.2.2]; rfl) (by rw [hw.2.2]; rfl)
    rw [htree, contents, KeyedTable.get?_put_ne (hfile hq), contents]
  · rintro s₁ hs₁ ⟨⟩ s₂ ⟨hw, -⟩
    obtain ⟨-, second, htree⟩ := hw.1
    have hdoc : ∀ q, IsDocument q → contents s₂.tree q = contents s₁.tree q := by
      intro q hq
      rw [htree, contents, KeyedTable.get?_put_ne (hfile hq), contents]
    have hon := hs₁.onward hs
    have hwrote : s₂.wrote = held s₁.wrote i (tempPath pid p) (some d) := by rw [hw.2.2]; rfl
    have hon₂ : Onward sha256 calls t₀ i s s₂ := by
      refine ⟨hon.consistent.congr hdoc (by rw [hw.2.2]; rfl) (by rw [hw.2.2]; rfl), ?_, ?_,
        fun q hq => ?_, fun q => ?_, ?_⟩
      · rw [hw.2.2]
        exact hon.seen
      · rw [hw.2.2]
        exact hon.started
      · rw [hwrote, held_other (hfile hq), hon.wrote q hq]
      · rw [hdoc _ (isDocument_qblockPath ..)]
        exact hon.grows q
      · rw [hw.2.2]
        exact hon.noted
    rw [← Program.bind_pure' (Program.awaitOk _ _)]
    -- the rename finds what was written
    have hrename : ∀ s₃, WriterRely sha256 calls t₀ i s₂ s₃ → ∀ r s₄,
        Conforming (WriterAnswers sha256 calls) (WriterTurn sha256 day calls) i s₃
          (.rename (tempPath pid p) p) r s₄ → r = .ok () ∧
        (∀ q, Grows (contents s₃.tree (qblockPath sha256 q))
          (contents s₄.tree (qblockPath sha256 q))) ∧
        Consistent sha256 calls t₀ s₄ ∧ Q (.ok ()) s₄ := by
      rintro s₃ hs₃ r s₄ ⟨hr, hok, hcap, horder⟩
      have htemp : contents s₃.tree (tempPath pid p) = some d := by
        rw [horder.1, hs₃.wrote, hwrote, held_self]
      obtain ⟨f, hf, hd⟩ := Option.map_eq_some_iff.mp htemp
      have hanswer := hr.1
      rw [FileAnswers, hf] at hanswer
      obtain ⟨rfl, htree₄⟩ := hanswer
      refine ⟨rfl, h s₃ s₄ (hon₂.rely hs₃) ?_ horder hcap⟩
      have hstate := hr.2.2
      refine ⟨htemp, ?_, fun q hq hne => ?_, ?_, fun q hq => ?_, ?_, ?_⟩
      · rw [htree₄, contents, KeyedTable.get?_put_self, Option.map_some, hd]
      · rw [htree₄, contents, KeyedTable.get?_put_ne hne, KeyedTable.get?_erase_ne (hfile hq),
          contents]
      · rw [hstate]
        exact (held_self ..).trans htemp
      · rw [hstate]
        exact held_other hq _
      · rw [hstate]
        rfl
      · rw [hstate]
        rfl
    refine .awaitOk ?_ ?_ ?_
    · rintro s₃ hs₃ r s₄ hr
      obtain ⟨-, hgrows, hc, -⟩ := hrename s₃ hs₃ r s₄ hr
      exact hr.1.guarantee hgrows fun _ => hc
    · rintro s₃ hs₃ ⟨⟩ s₄ hr
      exact (hrename s₃ hs₃ _ s₄ hr).2.2.2
    · rintro s₃ hs₃ e s₄ hr
      cases (hrename s₃ hs₃ _ s₄ hr).1
  · rintro s₁ - e s₂ ⟨hw, -⟩
    cases hw.1.1

/-! ### Batches -/

/-- The file of a qblock has some participants, and a winner when one is given. -/
def HasRecords (sha256 : Sha256) (t : FileTree Document) (q : ℕ) (winner : Option BlockRecord)
    (rows : List QBlockParticipationRecord) : Prop :=
  ∃ d, contents t (qblockPath sha256 q) = some d ∧ (∀ r ∈ rows, (d.row r.account).isSome) ∧
    (winner.isSome → d.Won)

theorem HasRecords.grow {t t' : FileTree Document} {q : ℕ} {winner : Option BlockRecord}
    {rows : List QBlockParticipationRecord} (h : HasRecords sha256 t q winner rows)
    (hg : Grows (contents t (qblockPath sha256 q)) (contents t' (qblockPath sha256 q))) :
    HasRecords sha256 t' q winner rows := by
  obtain ⟨d, hd, hrows, hwon⟩ := h
  obtain ⟨d', hd', hrows', hwon'⟩ := hg d hd
  exact ⟨d', hd', fun r hr => hrows' _ (hrows r hr), fun hw => hwon' (hwon hw)⟩

theorem merge_hasRow {d : Document} {q : ℕ} {winner : Option BlockRecord}
    {rows : List QBlockParticipationRecord} {r : QBlockParticipationRecord} (hr : r ∈ rows) :
    ((d.merge q winner rows).row r.account).isSome := by
  have hfind : (rows.find? (·.account = r.account)).isSome := by
    rw [List.find?_isSome]
    exact ⟨r, hr, by simp⟩
  rw [merge_row, Option.isSome_or, hfind, Bool.or_true]

theorem qblockPath_ne_manifestPath (q : ℕ) : qblockPath sha256 q ≠ manifestPath := by
  intro h
  exact absurd (congrArg List.length h) (by simp [qblockPath, qblockRelPath, manifestPath])

theorem qblockPath_ne_dayPath (q : ℕ) (d : String) : qblockPath sha256 q ≠ dayPath d := by
  intro h
  exact absurd (congrArg List.length h) (by simp [qblockPath, qblockRelPath, dayPath])

/-- A merged file keeps what holds between turns. -/
theorem Consistent.merged (hs : Consistent sha256 calls t₀ s) {q : ℕ}
    {winner : Option BlockRecord} {rows : List QBlockParticipationRecord}
    (hwinner : ∀ w, winner = some w → w.qblockId = q ∧ ∃ j rows', calls j = .batch (some w) rows')
    (h : Renamed sha256 calls pid i (qblockPath sha256 q)
      (((contents s.tree (qblockPath sha256 q)).getD .empty).merge q winner rows) s s') :
    (∀ q', Grows (contents s.tree (qblockPath sha256 q'))
        (contents s'.tree (qblockPath sha256 q'))) ∧
      Consistent sha256 calls t₀ s' := by
  -- only the file of this qblock has changed, and it has grown
  have hgrows : ∀ q', Grows (contents s.tree (qblockPath sha256 q'))
      (contents s'.tree (qblockPath sha256 q')) := by
    intro q'
    by_cases hq : qblockPath sha256 q' = qblockPath sha256 q
    · rw [hq, h.self]
      exact grows_merge _ _ _ _
    · rw [h.other _ (isDocument_qblockPath ..) hq]
      exact .refl _
  have hstarted := h.started
  rw [if_neg (qblockPath_ne_manifestPath q)] at hstarted
  have hnoted := h.noted
  rw [if_neg (qblockPath_ne_manifestPath q)] at hnoted
  refine ⟨hgrows, fun q' => (hs.grown q').trans (hgrows q'), fun q' d w hd hw => ?_, fun p hp => ?_,
    fun j files hj => ?_, fun hnone p hp => ?_⟩
  · by_cases hq : qblockPath sha256 q' = qblockPath sha256 q
    · rw [hq, h.self] at hd
      obtain rfl := Option.some.inj hd
      rw [hq]
      rcases merge_winner hw with rfl | hold
      · obtain ⟨rfl, j, rows', hj⟩ := hwinner w rfl
        exact .inr ⟨j, rows', hj, rfl⟩
      · cases hc : contents s.tree (qblockPath sha256 q) with
        | none =>
          rw [hc] at hold
          cases hold
        | some d =>
          rw [hc] at hold
          exact hs.carried q d w hc hold
    · rw [h.other _ (isDocument_qblockPath ..) hq] at hd
      exact hs.carried q' d w hd hw
  · rw [hnoted] at hp
    obtain ⟨q', rfl, hsome⟩ := hs.noted p hp
    exact ⟨q', rfl, (hgrows q').isSome hsome⟩
  · rw [hstarted] at hj
    rw [hnoted]
    exact ⟨(hs.started j files hj).1, fun q' hq' =>
      (hgrows q').isSome ((hs.started j files hj).2 q' hq')⟩
  · rw [hstarted] at hnone
    rw [hnoted] at hp
    have hmanifest := h.other _ isDocument_manifestPath (qblockPath_ne_manifestPath q).symm
    rcases hs.listed hnone p hp with hin | ⟨d, hd, hin⟩
    · left
      rw [listedAt, hmanifest]
      exact hin
    · right
      refine ⟨d, ?_, ?_⟩
      · rw [historyOf, hmanifest]
        exact hd
      · rw [listedAt, h.other _ (isDocument_dayPath d) (qblockPath_ne_dayPath q d).symm]
        exact hin

/-- What a call has found at a path it merges into. -/
def WriterState.found (s : WriterState ι) (i : ι) (p : FilePath) : Document :=
  (s.seen i p).getD .empty

/-- A batch that looks at a path. -/
theorem BatchOnward.look {γ : Type} {e : WriterEffect γ} {answer : γ} {s'' : WriterState ι}
    (h : BatchOnward sha256 calls t₀ i s s')
    (ha : WriterAnswers sha256 calls i s' e answer s'') (htree : s''.tree = s'.tree)
    (hstarted : s''.started = s'.started) (hnoted : s''.noted = s'.noted) :
    BatchOnward sha256 calls t₀ i s s'' ∧ WriterGuarantee sha256 calls t₀ i s' e answer s'' := by
  have hdoc : ∀ p, IsDocument p → contents s''.tree p = contents s'.tree p := by
    intro p _
    rw [htree]
  refine ⟨⟨h.consistent.congr hdoc hstarted hnoted, ?_, fun q => ?_⟩, ha.aside hdoc hstarted hnoted⟩
  · rw [hstarted]
    exact h.started
  · rw [htree]
    exact h.grows q

section

variable {winner₀ : Option BlockRecord} {rows₀ : List QBlockParticipationRecord}

variable (day pid) in
/-- What was found is merged into the file as it is when it is replaced. -/
theorem mergeFound_safe (hcall : calls i = .batch winner₀ rows₀) (q : ℕ)
    (hs : BatchOnward sha256 calls t₀ i s s') :
    WriterSafe sha256 day calls t₀ i (fun r s'' => r = .ok () ∧
        BatchOnward sha256 calls t₀ i s s'' ∧ HasRecords sha256 s''.tree q
          (winner₀.filter (·.qblockId = q)) (rows₀.filter (·.qblockId = q)))
      (atomicWrite pid (qblockPath sha256 q) ((s'.found i (qblockPath sha256 q)).merge q
        (winner₀.filter (·.qblockId = q)) (rows₀.filter (·.qblockId = q)))) s' := by
  refine atomicWrite_safe hs.consistent fun s₁ s₂ hs₁ hr horder _ => ?_
  have hseen : s'.seen i (qblockPath sha256 q) = contents s₁.tree (qblockPath sha256 q) := by
    have hfound := horder.2
    rw [hcall] at hfound
    rw [hfound.1, hs₁.seen]
  rw [WriterState.found, hseen] at hr
  have hwinner : ∀ w, winner₀.filter (·.qblockId = q) = some w →
      w.qblockId = q ∧ ∃ j rows', calls j = .batch (some w) rows' := by
    intro w hw
    obtain ⟨hw, hq⟩ := Option.filter_eq_some_iff.mp hw
    exact ⟨by simpa using hq, i, rows₀, by rw [hcall, hw]⟩
  obtain ⟨hgrows, hc⟩ := hs₁.consistent.merged hwinner hr
  refine ⟨hgrows, hc, rfl, ⟨hc, ?_, fun q' => ?_⟩, _, hr.self, fun r hr => merge_hasRow hr, ?_⟩
  · rw [hr.started, if_neg (qblockPath_ne_manifestPath q), hs₁.started]
    exact hs.started
  · exact (hs.grows q').trans ((hs₁.grows q').trans (hgrows q'))
  · intro hw
    obtain ⟨w, hw⟩ := Option.isSome_iff_exists.mp hw
    exact ⟨w, by rw [hw]; rfl⟩

/-- **`write_qblock_merged` adds its records to the file.** -/
theorem writeQblockMerged_safe (hcall : calls i = .batch winner₀ rows₀) (q : ℕ)
    (hs : BatchOnward sha256 calls t₀ i s s') :
    WriterSafe sha256 day calls t₀ i (fun r s'' => r = .ok () ∧
        BatchOnward sha256 calls t₀ i s s'' ∧ HasRecords sha256 s''.tree q
          (winner₀.filter (·.qblockId = q)) (rows₀.filter (·.qblockId = q)))
      (writeQblockMerged sha256 pid q (winner₀.filter (·.qblockId = q))
        (rows₀.filter (·.qblockId = q))) s' := by
  have hroot : qblockPath sha256 q ≠ [qblocksDir] := by simp [qblockPath, qblockRelPath]
  refine .await ?_
  rintro s₁ hs₁ found s₂ ⟨he, -⟩
  have hstarted : s₂.started = s₁.started := by
    rw [he.2.2]
    simp only [WriterState.after, if_neg hroot]
  obtain ⟨hs₂, hg⟩ := (hs.rely hs₁).look he he.1.1 hstarted (by rw [he.2.2]; rfl)
  refine ⟨hg, ?_⟩
  cases found with
  | false =>
    have hfound : s₂.found i (qblockPath sha256 q) = .empty := by
      have hseen : s₂.seen = held s₁.seen i (qblockPath sha256 q) none := by
        rw [he.2.2]
        rfl
      rw [WriterState.found, hseen, held_self]
      rfl
    have hwrite := mergeFound_safe pid day hcall q hs₂
    rw [hfound] at hwrite
    exact hwrite
  | true =>
    refine .awaitOk ?_ ?_ ?_
    · rintro s₃ hs₃ r s₄ ⟨hr, -⟩
      exact ((hs₂.rely hs₃).look hr hr.1.1 (by rw [hr.2.2]; cases r <;> rfl)
        (by rw [hr.2.2]; cases r <;> rfl)).2
    · rintro s₃ hs₃ d s₄ ⟨hr, -⟩
      obtain ⟨hs₄, -⟩ := (hs₂.rely hs₃).look hr hr.1.1 (by rw [hr.2.2]; rfl) (by rw [hr.2.2]; rfl)
      have hfound : s₄.found i (qblockPath sha256 q) = d := by
        have hseen : s₄.seen = held s₃.seen i (qblockPath sha256 q) (some d) := by
          rw [hr.2.2]
          rfl
        rw [WriterState.found, hseen, held_self]
        rfl
      have hwrite := mergeFound_safe pid day hcall q hs₄
      rw [hfound] at hwrite
      exact hwrite
    · -- a file that was there can be read
      rintro s₃ - e s₄ ⟨-, hok, -⟩
      exact absurd hok (qblockPath_ne_manifestPath q)

/-- The merges of a batch. -/
theorem writeQblocks_safe (hcall : calls i = .batch winner₀ rows₀) {qs : List ℕ}
    (hs : BatchOnward sha256 calls t₀ i s s') :
    WriterSafe sha256 day calls t₀ i (fun r s'' => ∃ results, r = .ok results ∧
        results.all (fun r => r.2 = .ok ()) = true ∧ BatchOnward sha256 calls t₀ i s s'' ∧
        ∀ q ∈ qs, HasRecords sha256 s''.tree q (winner₀.filter (·.qblockId = q))
          (rows₀.filter (·.qblockId = q)))
      (writeQblocks sha256 pid winner₀ rows₀ qs) s' := by
  induction qs generalizing s s' with
  | nil => exact ⟨[], rfl, rfl, hs, fun q hq => absurd hq List.not_mem_nil⟩
  | cons q qs ih =>
    refine .bind (.attempt ((writeQblockMerged_safe hcall q hs).imp ?_))
    rintro r s₁ ⟨rfl, hs₁, hrecords⟩
    refine .bind ((ih (s := s₁) ⟨hs₁.consistent, hs₁.started, fun _ => .refl _⟩).imp ?_)
    rintro r s₂ ⟨results, rfl, hall, hs₂, hrest⟩
    refine ⟨_, rfl, ?_, ⟨hs₂.consistent, hs₂.started, fun q' => ?_⟩, fun q' hq' => ?_⟩
    · rw [List.all_cons, hall]
      rfl
    · exact (hs₁.grows q').trans (hs₂.grows q')
    · rcases List.mem_cons.mp hq' with rfl | hq'
      · exact hrecords.grow (hs₂.grows q')
      · exact hrest q' hq'

end

/-! ### The manifest of a batch -/

theorem mem_foldl_prepend {current new : List FilePath} {p : FilePath} :
    p ∈ new.foldl (fun c p => if p ∈ c then c else p :: c) current ↔ p ∈ current ∨ p ∈ new := by
  induction new generalizing current with
  | nil => simp
  | cons a new ih =>
    rw [List.foldl_cons, ih, List.mem_cons]
    by_cases ha : a ∈ current
    · rw [if_pos ha]
      constructor
      · rintro (h | h)
        · exact .inl h
        · exact .inr (.inr h)
      · rintro (h | rfl | h)
        · exact .inl h
        · exact .inl ha
        · exact .inr h
    · rw [if_neg ha, List.mem_cons, or_assoc, or_left_comm]

/-- Below the cap no path is left out. -/
theorem mem_prependPaths {current new : List FilePath} {p : FilePath}
    (h : (prependPaths current new).length < maxManifestEntries) :
    p ∈ prependPaths current new ↔ p ∈ current ∨ p ∈ new := by
  rw [prependPaths, List.length_take] at h
  rw [prependPaths, List.take_of_length_le (by omega), mem_foldl_prepend]

section

variable {winner₀ : Option BlockRecord} {rows₀ : List QBlockParticipationRecord}

variable (day pid) in
/-- What a batch found in the manifest is listed with its paths. -/
theorem updateFound_safe (hcall : calls i = .batch winner₀ rows₀) {paths : List FilePath}
    (hpaths : ∀ q ∈ batchQblocks winner₀ rows₀, qblockPath sha256 q ∈ paths)
    (hfiles : ∀ q ∈ batchQblocks winner₀ rows₀, (contents s'.tree (qblockPath sha256 q)).isSome)
    (hs : BatchOnward sha256 calls t₀ i s s') :
    WriterSafe sha256 day calls t₀ i (fun r s'' => r = .ok () ∧
        BatchOnward sha256 calls t₀ i s s'' ∧
        ∀ q ∈ batchQblocks winner₀ rows₀, qblockPath sha256 q ∈ s''.noted)
      (updateManifest pid
        (prependPaths ((s'.found i manifestPath).qblocks.getD []) paths)
        ((s'.found i manifestPath).history.getD [])) s' := by
  refine atomicWrite_safe hs.consistent fun s₁ s₂ hs₁ hr horder hcap => ?_
  obtain ⟨hseen, hahead⟩ : contents s₁.tree manifestPath = s'.seen i manifestPath ∧
      ∀ j files, s₁.started j = some files → ∀ q ∈ batchQblocks winner₀ rows₀,
        qblockPath sha256 q ∈ files := by
    have hfound := horder.2
    rw [hcall] at hfound
    exact ⟨by rw [hfound.1, hs₁.seen], hfound.2 rfl⟩
  have hnone : s₁.started i = none := hs₁.started.trans hs.started
  have hstarted : s₂.started = s₁.started := by
    rw [hr.started, if_pos rfl, ← hnone, Function.update_eq_self]
  have hnoted : s₂.noted = s₁.noted ++ (batchQblocks winner₀ rows₀).map (qblockPath sha256) := by
    rw [hr.noted, if_pos rfl, hcall]
    rfl
  have hgrows : ∀ q, Grows (contents s₁.tree (qblockPath sha256 q))
      (contents s₂.tree (qblockPath sha256 q)) := by
    intro q
    rw [hr.other _ (isDocument_qblockPath ..) (qblockPath_ne_manifestPath q)]
    exact .refl _
  -- nothing is cut off
  have hlisted : listedAt s₂.tree manifestPath =
      prependPaths ((s'.found i manifestPath).qblocks.getD []) paths := by
    rw [listedAt, hr.self]
    rfl
  have hmem : ∀ p, p ∈ listedAt s₂.tree manifestPath ↔
      p ∈ listedAt s₁.tree manifestPath ∨ p ∈ paths := by
    intro p
    rw [BelowCap, hlisted] at hcap
    rw [hlisted, mem_prependPaths hcap, listedAt, hseen, WriterState.found]
    cases s'.seen i manifestPath <;> rfl
  have hhistory : historyOf s₂.tree = historyOf s₁.tree := by
    rw [historyOf, historyOf, hr.self, hseen]
    show (s'.found i manifestPath).history.getD [] = _
    rw [WriterState.found]
    cases s'.seen i manifestPath <;> rfl
  have hon : Consistent sha256 calls t₀ s₂ := by
    refine ⟨fun q => (hs₁.consistent.grown q).trans (hgrows q), fun q => ?_, fun p hp => ?_,
      fun j files hj => ?_, fun hall p hp => ?_⟩
    · rw [hr.other _ (isDocument_qblockPath ..) (qblockPath_ne_manifestPath q)]
      exact hs₁.consistent.carried q
    · rw [hnoted] at hp
      rcases List.mem_append.mp hp with hold | hnew
      · obtain ⟨q, rfl, hsome⟩ := hs₁.consistent.noted p hold
        exact ⟨q, rfl, (hgrows q).isSome hsome⟩
      · obtain ⟨q, hq, rfl⟩ := List.mem_map.mp hnew
        exact ⟨q, rfl, (hgrows q).isSome ((hs₁.grows q).isSome (hfiles q hq))⟩
    · rw [hstarted] at hj
      obtain ⟨hsub, hpresent⟩ := hs₁.consistent.started j files hj
      refine ⟨fun p hp => ?_, fun q hq => (hgrows q).isSome (hpresent q hq)⟩
      rw [hnoted] at hp
      rcases List.mem_append.mp hp with hold | hnew
      · exact hsub hold
      · obtain ⟨q, hq, rfl⟩ := List.mem_map.mp hnew
        exact hahead j files hj q hq
    · rw [hstarted] at hall
      rw [hnoted] at hp
      rcases List.mem_append.mp hp with hold | hnew
      · rcases hs₁.consistent.listed hall p hold with hin | ⟨d, hd, hin⟩
        · exact .inl ((hmem p).mpr (.inl hin))
        · refine .inr ⟨d, by rw [hhistory]; exact hd, ?_⟩
          rw [listedAt, hr.other _ (isDocument_dayPath d) (dayPath_ne_manifestPath d)]
          exact hin
      · obtain ⟨q, hq, rfl⟩ := List.mem_map.mp hnew
        exact .inl ((hmem _).mpr (.inr (hpaths q hq)))
  refine ⟨hgrows, hon, rfl, ⟨hon, ?_, fun q => ?_⟩, fun q hq => ?_⟩
  · rw [hstarted]
    exact hnone
  · exact (hs.grows q).trans ((hs₁.grows q).trans (hgrows q))
  · rw [hnoted]
    exact List.mem_append_right _ (List.mem_map_of_mem hq)

/-- **`add_to_manifest` lists the paths of its batch.** -/
theorem addToManifest_safe (hcall : calls i = .batch winner₀ rows₀) {paths : List FilePath}
    (hpaths : ∀ q ∈ batchQblocks winner₀ rows₀, qblockPath sha256 q ∈ paths)
    (hfiles : ∀ q ∈ batchQblocks winner₀ rows₀, (contents s'.tree (qblockPath sha256 q)).isSome)
    (hs : BatchOnward sha256 calls t₀ i s s') :
    WriterSafe sha256 day calls t₀ i (fun r s'' => r = .ok () ∧
        BatchOnward sha256 calls t₀ i s s'' ∧
        ∀ q ∈ batchQblocks winner₀ rows₀, qblockPath sha256 q ∈ s''.noted)
      (addToManifest pid paths) s' := by
  refine .await ?_
  rintro s₁ hs₁ r s₂ ⟨hr, -⟩
  obtain ⟨hs₂, hg⟩ := (hs.rely hs₁).look hr hr.1.1 (by rw [hr.2.2]; cases r <;> rfl)
    (by rw [hr.2.2]; cases r <;> rfl)
  refine ⟨hg, ?_⟩
  have hfiles₂ : ∀ q ∈ batchQblocks winner₀ rows₀,
      (contents s₂.tree (qblockPath sha256 q)).isSome := by
    intro q hq
    rw [hr.1.1]
    exact (hs₁.grows q).isSome (hfiles q hq)
  have hwrite := updateFound_safe pid day hcall hpaths hfiles₂ hs₂
  cases r with
  | ok d =>
    have hfound : s₂.found i manifestPath = d := by
      have hseen : s₂.seen = held s₁.seen i manifestPath (some d) := by
        rw [hr.2.2]
        rfl
      rw [WriterState.found, hseen, held_self]
      rfl
    rw [hfound] at hwrite
    exact hwrite
  | error e =>
    have hfound : s₂.found i manifestPath = .empty := by
      have hseen : s₂.seen = held s₁.seen i manifestPath none := by
        rw [hr.2.2]
        rfl
      rw [WriterState.found, hseen, held_self]
      rfl
    rw [hfound] at hwrite
    cases e with
    | notFound => exact hwrite
    | other message =>
      have hanswer := hr.1.2
      cases hget : s₁.tree.get? manifestPath with
      | none =>
        rw [hget] at hanswer
        cases hanswer
      | some f =>
        rw [hget] at hanswer
        cases hanswer

/-- **A batch writes its records, and lists the files.** -/
theorem writeBatch_safe (hcall : calls i = .batch winner₀ rows₀)
    (hs : BatchOnward sha256 calls t₀ i s s') :
    WriterSafe sha256 day calls t₀ i (fun _ s'' => BatchOnward sha256 calls t₀ i s s'' ∧
        ∀ q ∈ batchQblocks winner₀ rows₀, qblockPath sha256 q ∈ s''.noted ∧
          HasRecords sha256 s''.tree q (winner₀.filter (·.qblockId = q))
            (rows₀.filter (·.qblockId = q)))
      (writeBatch sha256 pid winner₀ rows₀) s' := by
  refine .bind ((writeQblocks_safe hcall hs).imp ?_)
  rintro r s₁ ⟨results, rfl, hall, hs₁, hrecords⟩
  have hpaths : ∀ q ∈ batchQblocks winner₀ rows₀, qblockPath sha256 q ∈
      ((batchQblocks winner₀ rows₀).map (qblockPath sha256)).foldl pushNew [] :=
    fun q hq => mem_foldl_pushNew.mpr (.inr (List.mem_map_of_mem hq))
  dsimp only
  rw [hall, Bool.true_and]
  split
  · refine .bind (.attempt ((addToManifest_safe hcall hpaths (fun q hq => ?_)
      (s := s₁) ⟨hs₁.consistent, hs₁.started, fun _ => .refl _⟩).imp ?_))
    · obtain ⟨d, hd, -⟩ := hrecords q hq
      rw [hd]
      rfl
    · rintro r s₂ ⟨-, hs₂, hnoted⟩
      refine ⟨⟨hs₂.consistent, hs₂.started, fun q => (hs₁.grows q).trans (hs₂.grows q)⟩,
        fun q hq => ⟨hnoted q hq, (hrecords q hq).grow (hs₂.grows q)⟩⟩
  · rename_i hempty
    refine ⟨hs₁, fun q hq => ?_⟩
    have hnil : ((batchQblocks winner₀ rows₀).map (qblockPath sha256)).foldl pushNew [] = [] := by
      simpa using hempty
    exact absurd (hnil ▸ hpaths q hq) List.not_mem_nil

end

/-! ### Rebuilds -/

/-- A rebuild that looks at the tree. -/
theorem RebuildAt.look {files : List FilePath} {γ : Type} {e : WriterEffect γ} {answer : γ}
    (h : RebuildAt sha256 calls t₀ i files s)
    (ha : WriterAnswers sha256 calls i s e answer s') (htree : s'.tree = s.tree)
    (hstarted : s'.started = s.started) (hnoted : s'.noted = s.noted) :
    RebuildAt sha256 calls t₀ i files s' ∧ WriterGuarantee sha256 calls t₀ i s e answer s' := by
  have hdoc : ∀ p, IsDocument p → contents s'.tree p = contents s.tree p := by
    intro p _
    rw [htree]
  refine ⟨⟨h.consistent.congr hdoc hstarted hnoted, ?_⟩, ha.aside hdoc hstarted hnoted⟩
  rw [hstarted]
  exact h.started

/-- A path is found already, or ahead in one of the directories. -/
def FoundOrAhead (found : Found) (stack : List FilePath) (p : FilePath) : Prop :=
  p ∈ found.all.map Prod.snd ∨ ∃ dir ∈ stack, dir <+: p ∧ dir ≠ p

theorem FoundOrAhead.push {found : Found} {stack : List FilePath} {p : FilePath}
    (h : FoundOrAhead found stack p) (dir : FilePath) : FoundOrAhead found (dir :: stack) p := by
  rcases h with h | ⟨d, hd, h⟩
  · exact .inl h
  · exact .inr ⟨d, List.mem_cons_of_mem _ hd, h⟩

theorem FoundOrAhead.found {found found' : Found} {stack : List FilePath} {p : FilePath}
    (h : FoundOrAhead found stack p) (hsub : ∀ e ∈ found.all, e ∈ found'.all) :
    FoundOrAhead found' stack p := by
  rcases h with h | h
  · obtain ⟨e, he, rfl⟩ := List.mem_map.mp h
    exact .inl (List.mem_map_of_mem (hsub e he))
  · exact .inr h

section

variable {recentSince : ℤ} {files : List FilePath}

/-- The entries of a directory lead on to every file that is to be found through them. -/
theorem walkEntries_safe {dir : FilePath} (names : List String) (stack : List FilePath)
    {found : Found} (hs : RebuildAt sha256 calls t₀ i files s)
    (hfiled : found.Filed day recentSince)
    (hahead : ∀ p, ToFind sha256 files p → FoundOrAhead found stack p ∨
      ∃ name ∈ names, dir ++ [name] <+: p) :
    WriterSafe sha256 day calls t₀ i (fun r s' => ∃ stack' found', r = .ok (stack', found') ∧
        RebuildAt sha256 calls t₀ i files s' ∧ found'.Filed day recentSince ∧
        ∀ p, ToFind sha256 files p → FoundOrAhead found' stack' p)
      (walkEntries day recentSince dir names (stack, found)) s := by
  induction names generalizing stack found s with
  | nil =>
    refine ⟨stack, found, rfl, hs, hfiled, fun p hp => ?_⟩
    rcases hahead p hp with h | ⟨name, hname, -⟩
    · exact h
    · exact absurd hname List.not_mem_nil
  | cons name names ih =>
    refine .awaitOk ?_ ?_ ?_
    · rintro s₁ hs₁ r s₂ ⟨hr, -⟩
      exact ((hs.rely hs₁).look hr hr.1.1 (by rw [hr.2.2]; rfl) (by rw [hr.2.2]; rfl)).2
    · rintro s₁ hs₁ info s₂ ⟨hr, -, -, hcalendar⟩
      obtain ⟨hs₂, -⟩ := (hs.rely hs₁).look hr hr.1.1 (by rw [hr.2.2]; rfl) (by rw [hr.2.2]; rfl)
      have hinfo : FileTree.metadata s₂.tree (dir ++ [name]) = some info := by
        have hanswer := hr.1.2
        rw [← hr.1.1] at hanswer
        cases hm : FileTree.metadata s₂.tree (dir ++ [name]) with
        | some m =>
          rw [hm] at hanswer
          exact congrArg some (Except.ok.inj hanswer).symm
        | none =>
          rw [hm] at hanswer
          cases hanswer
      obtain ⟨isDir, modified⟩ := info
      cases isDir with
      | true =>
        rw [if_pos rfl]
        refine ih _ hs₂ hfiled fun p hp => ?_
        have hpush : FoundOrAhead found stack p → FoundOrAhead found
            (if dir ++ [name] ≠ [qblocksDir, daysDir] then (dir ++ [name]) :: stack
              else stack) p := by
          intro h
          split
          · exact h.push _
          · exact h
        rcases hahead p hp with h | ⟨name', hname', hpre⟩
        · exact .inl (hpush h)
        · rcases List.mem_cons.mp hname' with rfl | hname'
          · left
            obtain ⟨f, hf⟩ := hs₂.present hp
            have hout : dir ++ [name'] ≠ [qblocksDir, daysDir] := by
              intro hdays
              obtain ⟨q, rfl⟩ := hp.2.1
              rw [hdays] at hpre
              exact qblockPath_outside q hpre
            have hne : dir ++ [name'] ≠ p := by
              rintro rfl
              rw [FileTree.metadata, hf] at hinfo
              cases hinfo
            rw [if_pos hout]
            exact .inr ⟨_, List.mem_cons_self .., hpre, hne⟩
          · exact .inr ⟨name', hname', hpre⟩
      | false =>
        rw [if_neg Bool.false_ne_true]
        have hlast : (dir ++ [name]).getLast?.getD "" = name := by
          rw [List.getLast?_concat, Option.getD_some]
        -- what is to be found through a file is the file
        have hself : ∀ p, ToFind sha256 files p → dir ++ [name] <+: p → dir ++ [name] = p := by
          intro p hp hpre
          by_contra hne
          obtain ⟨f, hf⟩ := hs₂.present hp
          have hdir : FileTree.isDir s₂.tree (dir ++ [name]) = true :=
            isDir_iff.mpr ⟨p, f, hf, hpre, hne⟩
          cases hget : s₂.tree.get? (dir ++ [name]) with
          | some g =>
            have hfile := hr.2.1 (dir ++ [name]) (by rw [hget]; rfl)
            rw [hdir] at hfile
            cases hfile
          | none =>
            rw [FileTree.metadata, hget] at hinfo
            simp only [if_pos hdir] at hinfo
            cases hinfo
        by_cases hname : isQblockFile name = true
        · rw [if_pos hname]
          obtain ⟨hmod, hmax, hday⟩ := hcalendar rfl (by rw [hlast]; exact hname)
          obtain ⟨found', hfound, hfiled', hall⟩ := fileFound_filed (e := (modified, dir ++ [name]))
            hfiled hmod hmax hday
          rw [hfound]
          refine ih _ hs₂ hfiled' fun p hp => ?_
          rcases hahead p hp with h | ⟨name', hname', hpre⟩
          · exact .inl (h.found fun e he => hall.mem_iff.mpr (List.mem_cons_of_mem _ he))
          · rcases List.mem_cons.mp hname' with rfl | hname'
            · refine .inl (.inl ?_)
              rw [← hself p hp hpre]
              exact List.mem_map.mpr ⟨_, hall.mem_iff.mpr (List.mem_cons_self ..), rfl⟩
            · exact .inr ⟨name', hname', hpre⟩
        · rw [if_neg hname]
          refine ih _ hs₂ hfiled fun p hp => ?_
          rcases hahead p hp with h | ⟨name', hname', hpre⟩
          · exact .inl h
          · rcases List.mem_cons.mp hname' with rfl | hname'
            · have hrec := hp.2.2
              rw [← hself p hp hpre, hlast] at hrec
              exact absurd hrec hname
            · exact .inr ⟨name', hname', hpre⟩
    · rintro s₁ - e s₂ ⟨-, hok, -⟩
      exact absurd hok id

/-- **The walk finds every file that was there at its start.** -/
theorem walk_safe {n : ℕ} {stack : List FilePath} {found : Found}
    (hs : RebuildAt sha256 calls t₀ i files s) (hfiled : found.Filed day recentSince)
    (hahead : ∀ p, ToFind sha256 files p → FoundOrAhead found stack p) :
    WriterSafe sha256 day calls t₀ i (fun r s' => ∃ found', r = .ok found' ∧
        RebuildAt sha256 calls t₀ i files s' ∧ found'.Filed day recentSince ∧
        ∀ p, ToFind sha256 files p → p ∈ found'.all.map Prod.snd)
      (walk day recentSince n stack found) s := by
  -- with no directory left, everything is found
  have hfound : ∀ {found : Found}, (∀ p, ToFind sha256 files p → FoundOrAhead found [] p) →
      ∀ p, ToFind sha256 files p → p ∈ found.all.map Prod.snd := by
    intro found h p hp
    rcases h p hp with h | ⟨dir, hdir, -⟩
    · exact h
    · exact absurd hdir List.not_mem_nil
  induction n generalizing stack found s with
  | zero =>
    cases stack with
    | nil => exact ⟨found, rfl, hs, hfiled, hfound hahead⟩
    | cons dir stack => exact trivial
  | succ n ih =>
    cases stack with
    | nil => exact ⟨found, rfl, hs, hfiled, hfound hahead⟩
    | cons dir stack =>
      refine .awaitOk ?_ ?_ ?_
      · rintro s₁ hs₁ r s₂ ⟨hr, -⟩
        exact ((hs.rely hs₁).look hr hr.1.1 (by rw [hr.2.2]; rfl) (by rw [hr.2.2]; rfl)).2
      · rintro s₁ hs₁ names s₂ ⟨hr, -⟩
        obtain ⟨hs₂, -⟩ := (hs.rely hs₁).look hr hr.1.1 (by rw [hr.2.2]; rfl) (by rw [hr.2.2]; rfl)
        obtain ⟨hnames, hperm⟩ : ∃ names', Except.ok names = .ok names' ∧
            names'.Perm (FileTree.children s₂.tree dir) := by
          rw [hr.1.1]
          exact hr.1.2
        obtain ⟨rfl⟩ := hperm.1
        refine .bind ((walkEntries_safe names stack hs₂ hfiled ?_).imp ?_)
        · intro p hp
          rcases hahead p hp with h | ⟨d, hd, hpre, hne⟩
          · exact .inl (.inl h)
          · rcases List.mem_cons.mp hd with rfl | hd
            · obtain ⟨f, hf⟩ := hs₂.present hp
              obtain ⟨name, hname⟩ := prefix_entry hpre hne
              exact .inr ⟨name, hperm.2.mem_iff.mpr (mem_children.mpr ⟨p, f, hf, hname⟩), hname⟩
            · exact .inl (.inr ⟨d, hd, hpre, hne⟩)
        · rintro r s₃ ⟨stack', found', rfl, hs₃, hfiled', hahead'⟩
          exact ih hs₃ hfiled' hahead'
      · rintro s₁ - e s₂ ⟨-, hok, -⟩
        exact absurd hok id

/-- The manifest of a day. -/
def dayDocument (entries : List (ℤ × FilePath)) : Document :=
  { Document.empty with qblocks := some (newestFirst entries) }

/-- The manifests of the days are written, and remembered. -/
theorem writeDays_safe {days : List (String × List (ℤ × FilePath))}
    (hnodup : (days.map Prod.fst).Nodup) (hs : RebuildAt sha256 calls t₀ i files s) :
    WriterSafe sha256 day calls t₀ i (fun r s' => r = .ok (days.map fun e => dayPath e.1) ∧
        RebuildAt sha256 calls t₀ i files s' ∧
        (∀ e ∈ days, s'.wrote i (dayPath e.1) = some (dayDocument e.2)) ∧
        ∀ p, IsDocument p → (∀ e ∈ days, p ≠ dayPath e.1) → s'.wrote i p = s.wrote i p)
      (writeDays pid days) s := by
  induction days generalizing s with
  | nil => exact ⟨rfl, hs, fun e he => absurd he List.not_mem_nil, fun _ _ _ => rfl⟩
  | cons e days ih =>
    rw [List.map_cons, List.nodup_cons] at hnodup
    have hwrite : WriterSafe sha256 day calls t₀ i (fun r s' => r = .ok () ∧
        RebuildAt sha256 calls t₀ i files s' ∧
        s'.wrote i (dayPath e.1) = some (dayDocument e.2) ∧
        ∀ p, IsDocument p → p ≠ dayPath e.1 → s'.wrote i p = s.wrote i p)
        (atomicWrite pid (dayPath e.1) (dayDocument e.2)) s := by
      refine atomicWrite_safe hs.consistent fun s₁ s₂ hs₁ hr _ _ => ?_
      have hstarted := hr.started
      rw [if_neg (dayPath_ne_manifestPath _)] at hstarted
      have hnoted := hr.noted
      rw [if_neg (dayPath_ne_manifestPath _)] at hnoted
      have hq : ∀ q, contents s₂.tree (qblockPath sha256 q) =
          contents s₁.tree (qblockPath sha256 q) :=
        fun q => hr.other _ (isDocument_qblockPath ..) (qblockPath_ne_dayPath q _)
      have hrunning : s₂.started i = some files := by
        rw [hstarted, hs₁.started]
        exact hs.started
      have hc : Consistent sha256 calls t₀ s₂ := by
        refine hs₁.consistent.of_qblocks hq (fun j files hj => ?_) hnoted ?_
        · rw [← hstarted]
          exact hj
        · intro hnone
          rw [hnone i] at hrunning
          cases hrunning
      refine ⟨fun q => ?_, hc, rfl, ⟨hc, hrunning⟩, hr.wrote, fun p hp hne => ?_⟩
      · rw [hq]
        exact .refl _
      · rw [hr.wrote_other p hne, hs₁.wrote p hp]
    refine .bind (hwrite.imp ?_)
    rintro r s₁ ⟨rfl, hs₁, hself, hother⟩
    refine .bind ((ih hnodup.2 hs₁).imp ?_)
    rintro r s₂ ⟨rfl, hs₂, hdays, hrest⟩
    refine ⟨rfl, hs₂, fun e' he' => ?_, fun p hp hne => ?_⟩
    · rcases List.mem_cons.mp he' with rfl | he'
      · rw [hrest _ (isDocument_dayPath _), hself]
        intro e'' he'' heq
        rw [dayPath_inj heq] at hnodup
        exact hnodup.1 (List.mem_map_of_mem he'')
      · exact hdays e' he'
    · rw [hrest p hp fun e' he' => hne e' (List.mem_cons_of_mem _ he'),
        hother p hp (hne e (List.mem_cons_self ..))]

variable (day pid) in
/-- **A rebuild lists what it found, and with it all that is to be listed.** -/
theorem updateRebuilt_safe {fuel : ℕ} {since : ℤ} (hcall : calls i = .rebuild fuel since)
    (found : Found) {days : List (String × List (ℤ × FilePath))} (hperm : days.Perm found.days.rows)
    (hfound : ∀ p, ToFind sha256 files p → p ∈ found.all.map Prod.snd)
    (hdays : ∀ e ∈ days, s.wrote i (dayPath e.1) = some (dayDocument e.2))
    (hs : RebuildAt sha256 calls t₀ i files s) :
    WriterSafe sha256 day calls t₀ i (fun _ s' => Consistent sha256 calls t₀ s' ∧
        s'.started i = none)
      (updateManifest pid (newestFirst found.recent) (days.map fun e => dayPath e.1)) s := by
  refine atomicWrite_safe hs.consistent fun s₁ s₂ hs₁ hr horder _ => ?_
  obtain ⟨hnamed, hnames⟩ :
      (∀ e ∈ days, contents s₁.tree (dayPath e.1) = s₁.wrote i (dayPath e.1)) ∧
      ∀ p ∈ s₁.noted, isQblockFile (p.getLast?.getD "") = true := by
    have h := horder.2
    rw [hcall] at h
    have h : RebuildFinds i s₁ (tempPath pid manifestPath) manifestPath := h
    rw [RebuildFinds, hr.temp] at h
    exact ⟨fun e he => (h rfl).1 _ (List.mem_map.mpr ⟨e, he, rfl⟩), (h rfl).2⟩
  have hrunning : s₁.started i = some files := hs₁.started.trans hs.started
  have hq : ∀ q, contents s₂.tree (qblockPath sha256 q) = contents s₁.tree (qblockPath sha256 q) :=
    fun q => hr.other _ (isDocument_qblockPath ..) (qblockPath_ne_manifestPath q)
  have hnoted : s₂.noted = s₁.noted := by
    rw [hr.noted, if_pos rfl, hcall]
    exact List.append_nil _
  have hstarted : s₂.started = Function.update s₁.started i none := by
    rw [hr.started, if_pos rfl]
  -- what was noted before the rebuild started is among what it found
  have hlisted : ∀ p ∈ s₁.noted, Listed s₂.tree p := by
    intro p hp
    obtain ⟨q, hpath, -⟩ := hs₁.consistent.noted p hp
    have htofind : ToFind sha256 files p :=
      ⟨(hs₁.consistent.started i files hrunning).1 hp, ⟨q, hpath⟩, hnames p hp⟩
    obtain ⟨e, he, rfl⟩ := List.mem_map.mp (hfound p htofind)
    rcases List.mem_append.mp he with hrecent | hday
    · left
      rw [listedAt, hr.self]
      exact (perm_newestFirst _).mem_iff.mpr (List.mem_map_of_mem hrecent)
    · right
      obtain ⟨⟨d, entries⟩, hrow, hin⟩ := List.mem_flatMap.mp hday
      have hmem := hperm.mem_iff.mpr hrow
      refine ⟨d, ?_, ?_⟩
      · rw [historyOf, hr.self]
        exact List.mem_map.mpr ⟨_, hmem, rfl⟩
      · rw [listedAt, hr.other _ (isDocument_dayPath d) (dayPath_ne_manifestPath d), hnamed _ hmem,
          hs₁.wrote _ (isDocument_dayPath d), hdays _ hmem]
        exact (perm_newestFirst _).mem_iff.mpr (List.mem_map_of_mem hin)
  have hc : Consistent sha256 calls t₀ s₂ := by
    refine hs₁.consistent.of_qblocks hq (fun j files' hj => ?_) hnoted fun _ => hlisted
    rw [hstarted] at hj
    by_cases hji : j = i
    · rw [hji, Function.update_self] at hj
      cases hj
    · rw [Function.update_of_ne hji] at hj
      exact hj
  refine ⟨fun q => ?_, hc, hc, ?_⟩
  · rw [hq]
    exact .refl _
  · rw [hstarted, Function.update_self]

/-- **A rebuild keeps every listed file listed.** -/
theorem rebuildManifests_safe {fuel : ℕ} {since : ℤ} (hcall : calls i = .rebuild fuel since)
    (hs : Consistent sha256 calls t₀ s) :
    WriterSafe sha256 day calls t₀ i (fun _ s' => Consistent sha256 calls t₀ s' ∧
        s'.started i = none)
      (rebuildManifests pid day fuel since) s := by
  refine .await ?_
  rintro s₁ hs₁ found s₂ ⟨he, -⟩
  have hc₁ := hs₁.consistent hs
  have htree : s₂.tree = s₁.tree := he.1.1
  have hstarted : s₂.started =
      Function.update s₁.started i (some (s₁.tree.rows.map Prod.fst)) := by
    rw [he.2.2]
    simp only [WriterState.after, if_pos]
  have hnoted : s₂.noted = s₁.noted := by
    rw [he.2.2]
    rfl
  have hpresent : ∀ p, p ∈ s₁.tree.rows.map Prod.fst ↔ (contents s₁.tree p).isSome := by
    intro p
    rw [contents, Option.isSome_map, Option.isSome_iff_exists, List.mem_map]
    constructor
    · rintro ⟨⟨p', f⟩, hrow, rfl⟩
      exact ⟨f, KeyedTable.get?_eq_some.mpr hrow⟩
    · rintro ⟨f, hf⟩
      exact ⟨(p, f), KeyedTable.get?_eq_some.mp hf, rfl⟩
  have hrunning : s₂.started i = some (s₁.tree.rows.map Prod.fst) := by
    rw [hstarted, Function.update_self]
  -- at its start every listed file is there
  have hc : Consistent sha256 calls t₀ s₂ := by
    refine ⟨fun q => ?_, fun q => ?_, fun p hp => ?_, fun j files hj => ?_, fun hnone => ?_⟩
    · rw [htree]
      exact hc₁.grown q
    · rw [htree]
      exact hc₁.carried q
    · rw [hnoted] at hp
      rw [htree]
      exact hc₁.noted p hp
    · rw [hnoted, htree]
      by_cases hji : j = i
      · rw [hji, hrunning] at hj
        obtain rfl := Option.some.inj hj
        refine ⟨fun p hp => ?_, fun q hq => (hpresent _).mp hq⟩
        obtain ⟨q, -, hsome⟩ := hc₁.noted p hp
        exact (hpresent p).mpr hsome
      · rw [hstarted, Function.update_of_ne hji] at hj
        exact hc₁.started j files hj
    · rw [hnone i] at hrunning
      cases hrunning
  refine ⟨he.guarantee (fun q => ?_) fun _ => hc, ?_⟩
  · rw [htree]
    exact .refl _
  have hs₂ : RebuildAt sha256 calls t₀ i (s₁.tree.rows.map Prod.fst) s₂ := ⟨hc, hrunning⟩
  have hfiled : Found.Filed day since ⟨[], .empty⟩ := by
    refine ⟨fun e he => absurd he List.not_mem_nil, fun d l hget => ?_⟩
    cases (KeyedTable.get?_empty d).symm.trans hget
  have hbelow : ∀ q, [qblocksDir] <+: qblockPath sha256 q ∧ [qblocksDir] ≠ qblockPath sha256 q := by
    intro q
    refine ⟨⟨_, rfl⟩, fun h => ?_⟩
    exact absurd (congrArg List.length h) (by simp [qblockPath, qblockRelPath])
  cases found with
  | false =>
    -- no directory, so there was no file
    have hnothing : ∀ p, ToFind sha256 (s₁.tree.rows.map Prod.fst) p →
        p ∈ (Found.all ⟨[], .empty⟩).map Prod.snd := by
      intro p hp
      obtain ⟨f, hf⟩ := hs₂.present hp
      obtain ⟨-, ⟨q, rfl⟩, -⟩ := hp
      rw [htree] at hf
      have hdir := isDir_iff.mpr ⟨_, f, hf, hbelow q⟩
      have hanswer := he.1.2
      rw [hdir, Bool.or_true] at hanswer
      cases hanswer
    have hupdate := updateRebuilt_safe pid day hcall ⟨[], .empty⟩ (.refl []) hnothing
      (fun e he => absurd he List.not_mem_nil) hs₂
    rw [newestFirst, List.mergeSort_nil] at hupdate
    exact hupdate
  | true =>
    refine .bind ((walk_safe hs₂ hfiled fun p hp => ?_).imp ?_)
    · obtain ⟨-, ⟨q, rfl⟩, -⟩ := hp
      exact .inr ⟨_, List.mem_singleton_self _, hbelow q⟩
    · rintro r s₃ ⟨found, rfl, hs₃, -, hfound⟩
      have hperm := List.mergeSort_perm found.days.rows fun a b => b.1 ≤ a.1
      have hnodup := (hperm.map Prod.fst).nodup_iff.mpr found.days.nodup
      refine .bind ((writeDays_safe hnodup hs₃).imp ?_)
      rintro r s₄ ⟨rfl, hs₄, hdays, -⟩
      exact updateRebuilt_safe pid day hcall _ hperm hfound hdays hs₄

end

end

/-! ### All calls -/

section

variable {ι : Type} {sha256 : Sha256} {calls : ι → WriterCall} {t₀ : FileTree Document}

/-- What a call establishes. -/
def WriterPost (sha256 : Sha256) (calls : ι → WriterCall) (t₀ : FileTree Document) (i : ι)
    {α : Type} (_ : α) (s : WriterState ι) : Prop :=
  Consistent sha256 calls t₀ s ∧ s.started i = none ∧
    ∀ winner rows, calls i = .batch winner rows → ∀ q ∈ batchQblocks winner rows,
      qblockPath sha256 q ∈ s.noted ∧ HasRecords sha256 s.tree q
        (winner.filter (·.qblockId = q)) (rows.filter (·.qblockId = q))

/-- The state before all calls. -/
theorem consistent_start (sha256 : Sha256) (calls : ι → WriterCall) (t₀ : FileTree Document) :
    Consistent sha256 calls t₀ ⟨t₀, fun _ _ => none, fun _ _ => none, fun _ => none, []⟩ := by
  refine ⟨fun q => .refl _, fun q d w hd hw => .inl ⟨d, hd, hw⟩, fun p hp => ?_,
    fun j files hj => ?_, fun _ p hp => ?_⟩
  · exact absurd hp List.not_mem_nil
  · cases hj
  · exact absurd hp List.not_mem_nil

/-- What a call has established stays. -/
theorem WriterPost.stable {i : ι} {α : Type} {a : α} {s s' : WriterState ι}
    (h : WriterPost sha256 calls t₀ i a s) (hr : WriterRely sha256 calls t₀ i s s') :
    WriterPost sha256 calls t₀ i a s' := by
  obtain ⟨hs, hnone, hrecords⟩ := h
  refine ⟨hr.consistent hs, hr.started.trans hnone, fun winner rows hcall q hq => ?_⟩
  obtain ⟨hnoted, hrec⟩ := hrecords winner rows hcall q hq
  exact ⟨hr.noted hnoted, hrec.grow (hr.grows q)⟩

variable [DecidableEq ι] {pid : ℕ} {day : ℤ → Option String}

theorem code_safe {i : ι} {c : WriterCall} (hcall : calls i = c) {s : WriterState ι}
    (hs : Consistent sha256 calls t₀ s) (hnone : s.started i = none) :
    WriterSafe sha256 day calls t₀ i (WriterPost sha256 calls t₀ i) (c.code sha256 pid day) s := by
  cases c with
  | batch winner rows =>
    refine (writeBatch_safe hcall (s := s) ⟨hs, hnone, fun _ => .refl _⟩).imp ?_
    rintro r s' ⟨hs', hrecords⟩
    refine ⟨hs'.consistent, hs'.started, fun winner' rows' hcall' => ?_⟩
    obtain ⟨rfl, rfl⟩ := WriterCall.batch.inj (hcall.symm.trans hcall')
    exact hrecords
  | rebuild fuel since =>
    refine (rebuildManifests_safe hcall hs).imp ?_
    rintro r s' ⟨hs', hnone'⟩
    refine ⟨hs', hnone', fun winner rows hcall' => ?_⟩
    cases hcall.symm.trans hcall'

/-- **Once all calls have returned, in a run whose turns are in order, no update is lost.** -/
theorem calls_keep_updates {es : List (Turn WriterEffect (WriterState ι) ι)}
    {t : Tasks WriterEffect FileError (WriterState ι) fun i => (calls i).Result}
    (h : TasksRun (WriterAnswers sha256 calls) (writerTasks sha256 pid day calls t₀) es t)
    (hio : ∀ e ∈ es, Succeeds e.effect e.answer) (hcap : ∀ e ∈ es, BelowCap e.post.tree)
    (horder : ∀ e ∈ es, e.Satisfies (TurnInOrder sha256 day calls))
    (hreturned : ∀ i, (t.code i).returned = true) {i : ι} {winner : Option BlockRecord}
    {rows : List QBlockParticipationRecord} (hcall : calls i = .batch winner rows) {q : ℕ}
    (hq : q ∈ batchQblocks winner rows) : UpdatesKept sha256 calls t₀ t.state.tree q := by
  have hsafe := TasksRun.safe (C := WriterTurn sha256 day calls) (R := WriterRely sha256 calls t₀)
    (G := WriterGuarantee sha256 calls t₀) (Q := fun i => WriterPost sha256 calls t₀ i)
    WriterRely.refl (fun i => WriterRely.trans)
    (by
      intro i j γ s e b s' hij hg
      exact hg j hij.symm)
    (fun i => WriterPost.stable)
    (fun i => code_safe rfl (consistent_start sha256 calls t₀) rfl) h
    (fun e he => ⟨hio e he, hcap e he, horder e he⟩)
  -- every call has returned, and what it left stands whatever the others do
  have hpost : ∀ j, WriterPost sha256 calls t₀ j () t.state := by
    intro j
    obtain ⟨r, hr⟩ := hsafe.returned (hreturned j)
    exact hr
  obtain ⟨hs, -, hrecords⟩ := hpost i
  obtain ⟨hnoted, d, hd, -, -⟩ := hrecords winner rows hcall q hq
  refine ⟨⟨d, hd, ?_, fun w hw => hs.carried q d w hd hw, ?_, ?_⟩,
    hs.listed (fun j => (hpost j).2.1) _ hnoted⟩
  · rintro (⟨d₀, hd₀, hwon⟩ | ⟨j, w, rows', hj, rfl⟩)
    · obtain ⟨d', hd', -, hwon'⟩ := hs.grown q d₀ hd₀
      obtain rfl := Option.some.inj (hd.symm.trans hd')
      exact hwon' hwon
    · have hmem : w.qblockId ∈ batchQblocks (some w) rows' :=
        mem_batchQblocks.mpr (.inl ⟨w, rfl, rfl⟩)
      obtain ⟨-, d', hd', -, hwon⟩ := (hpost j).2.2 _ rows' hj _ hmem
      obtain rfl := Option.some.inj (hd.symm.trans hd')
      exact hwon (by simp)
  · intro d₀ hd₀ account ha
    obtain ⟨d', hd', hrows, -⟩ := hs.grown q d₀ hd₀
    obtain rfl := Option.some.inj (hd.symm.trans hd')
    exact hrows account ha
  · rintro j winner' rows' hj r hr rfl
    have hmem : r.qblockId ∈ batchQblocks winner' rows' :=
      mem_batchQblocks.mpr (.inr ⟨r, hr, rfl⟩)
    obtain ⟨-, d', hd', hrows, -⟩ := (hpost j).2.2 winner' rows' hj _ hmem
    obtain rfl := Option.some.inj (hd.symm.trans hd')
    exact hrows r (List.mem_filter.mpr ⟨hr, by simp⟩)

end

/-! ### Two batches -/

section

variable {ι : Type} [DecidableEq ι]

instance {γ : Type} (e : WriterEffect γ) (answer : γ) : Decidable (Succeeds e answer) :=
  match e, answer with
  | .read _, .error _ => inferInstanceAs (Decidable (_ = _))
  | .read _, .ok _ => inferInstanceAs (Decidable True)
  | .write .., .error _ => inferInstanceAs (Decidable False)
  | .write .., .ok _ => inferInstanceAs (Decidable True)
  | .rename .., .error _ => inferInstanceAs (Decidable False)
  | .rename .., .ok _ => inferInstanceAs (Decidable True)
  | .readDir _, .error _ => inferInstanceAs (Decidable False)
  | .readDir _, .ok _ => inferInstanceAs (Decidable True)
  | .metadata _, .error _ => inferInstanceAs (Decidable False)
  | .metadata _, .ok _ => inferInstanceAs (Decidable True)
  | .setModified .., .error _ => inferInstanceAs (Decidable False)
  | .setModified .., .ok _ => inferInstanceAs (Decidable True)
  | .exists_ _, _ => inferInstanceAs (Decidable True)

instance (t : FileTree Document) : Decidable (BelowCap t) :=
  inferInstanceAs (Decidable (_ < _))

instance [Fintype ι] (sha256 : Sha256) (qblocks : List ℕ) (i : ι) (s : WriterState ι)
    (p : FilePath) : Decidable (BatchFinds sha256 qblocks i s p) :=
  inferInstanceAs (Decidable (_ ∧ (_ → ∀ j, ∀ files ∈ s.started j, ∀ q ∈ qblocks, _)))

instance (i : ι) (s : WriterState ι) (temp p : FilePath) : Decidable (RebuildFinds i s temp p) :=
  inferInstanceAs (Decidable (_ → (∀ x ∈ _, contents s.tree x = s.wrote i x) ∧
    ∀ x ∈ s.noted, isQblockFile (x.getLast?.getD "") = true))

instance [Fintype ι] (sha256 : Sha256) (calls : ι → WriterCall) (i : ι) (s : WriterState ι)
    (temp p : FilePath) : Decidable (RenameInOrder sha256 calls i s temp p) :=
  match h : calls i with
  | .batch winner rows =>
    decidable_of_iff (contents s.tree temp = s.wrote i temp ∧
      BatchFinds sha256 (batchQblocks winner rows) i s p) (by rw [RenameInOrder, h])
  | .rebuild .. =>
    decidable_of_iff (contents s.tree temp = s.wrote i temp ∧ RebuildFinds i s temp p)
      (by rw [RenameInOrder, h])

instance [Fintype ι] (sha256 : Sha256) (day : ℤ → Option String) (calls : ι → WriterCall) (i : ι)
    {γ : Type} (s : WriterState ι) (e : WriterEffect γ) (answer : γ) (s' : WriterState ι) :
    Decidable (TurnInOrder sha256 day calls i s e answer s') :=
  match e, answer with
  | .rename temp p, _ => inferInstanceAs (Decidable (RenameInOrder sha256 calls i s temp p))
  | .metadata _, .ok _ => inferInstanceAs (Decidable (_ → _ → _ ∧ _ ∧ _))
  | .metadata _, .error _ => inferInstanceAs (Decidable True)
  | .exists_ _, _ | .read _, _ | .write .., _ | .readDir _, _ | .setModified .., _ =>
    inferInstanceAs (Decidable True)

/-- The tree after an effect that happens at second `0`, with what it answers. -/
def performed (t : FileTree Document) {γ : Type} : WriterEffect γ → γ × FileTree Document
  | .exists_ p => ((t.get? p).isSome || FileTree.isDir t p, t)
  | .read p => (match t.get? p with
    | some f => .ok f.content
    | none => .error .notFound, t)
  | .write p d => (.ok (), t.put p ⟨d, 0⟩)
  | .rename p q => match t.get? p with
    | some f => (.ok (), (t.erase p).put q f)
    | none => (.error .notFound, t)
  | .readDir p => (.ok (FileTree.children t p), t)
  | .metadata p => (match FileTree.metadata t p with
    | some m => .ok m
    | none => .error .notFound, t)
  | .setModified p second => match t.get? p with
    | some f => (.ok (), t.put p { f with modified := second })
    | none => (.error .notFound, t)

theorem performed_answers (t : FileTree Document) {γ : Type} (e : WriterEffect γ) :
    FileAnswers t e (performed t e).1 (performed t e).2 := by
  cases e with
  | exists_ p => exact ⟨rfl, rfl⟩
  | read p =>
    simp only [FileAnswers, performed]
    cases t.get? p with
    | none => exact ⟨trivial, rfl⟩
    | some f => exact ⟨trivial, rfl⟩
  | write p d => exact ⟨rfl, 0, rfl⟩
  | rename p q =>
    simp only [FileAnswers, performed]
    cases t.get? p with
    | none => exact ⟨rfl, rfl⟩
    | some f => exact ⟨rfl, rfl⟩
  | readDir p => exact ⟨rfl, _, rfl, .refl _⟩
  | metadata p => exact ⟨rfl, rfl⟩
  | setModified p second =>
    simp only [FileAnswers, performed]
    cases t.get? p with
    | none => exact ⟨rfl, rfl⟩
    | some f => exact ⟨rfl, rfl⟩

variable (sha256 : Sha256) (calls : ι → WriterCall)

/-- The turns of some calls, one after another; the last turn comes first. -/
def takeTurns (t : Tasks WriterEffect FileError (WriterState ι) fun i => (calls i).Result) :
    List ι → List (Turn WriterEffect (WriterState ι) ι) ×
      Tasks WriterEffect FileError (WriterState ι) fun i => (calls i).Result
  | [] => ([], t)
  | i :: is =>
    match t.code i with
    | .call e next =>
      let r := performed t.state.tree e
      let s := t.state.after sha256 calls i r.2 e r.1
      let rest := takeTurns ⟨s, Function.update t.code i (next r.1)⟩ is
      (rest.1 ++ [⟨i, t.state, e, r.1, s⟩], rest.2)
    | _ => takeTurns t is

theorem after_tree {s : WriterState ι} {i : ι} {tree : FileTree Document} {γ : Type}
    (e : WriterEffect γ) (answer : γ) : (s.after sha256 calls i tree e answer).tree = tree := by
  cases e with
  | read p => cases answer <;> rfl
  | _ => rfl

theorem takeTurns_run {t : Tasks WriterEffect FileError (WriterState ι) fun i => (calls i).Result}
    (is : List ι)
    (hwf : ∀ e ∈ (takeTurns sha256 calls t is).1, FileTree.WellFormed e.post.tree) :
    TasksRun (WriterAnswers sha256 calls) t (takeTurns sha256 calls t is).1
      (takeTurns sha256 calls t is).2 := by
  induction is generalizing t with
  | nil => exact .nil
  | cons i is ih =>
    rw [takeTurns] at hwf ⊢
    cases hcode : t.code i with
    | call e next =>
      simp only [hcode] at hwf ⊢
      have hrest := ih fun e he => hwf e (List.mem_append_left _ he)
      have htree := hwf _ (List.mem_append_right _ (List.mem_singleton_self _))
      have hstep : Tasks.Step (WriterAnswers sha256 calls) t _ _ :=
        .turn hcode (b := (performed t.state.tree e).1)
          (s := t.state.after sha256 calls i (performed t.state.tree e).2 e
            (performed t.state.tree e).1) ⟨?_, htree, ?_⟩
      · exact History.Run.append (.snoc .nil hstep) hrest
      · rw [after_tree]
        exact performed_answers ..
      · rw [after_tree]
    | done a =>
      simp only [hcode] at hwf ⊢
      exact ih hwf
    | fail e =>
      simp only [hcode] at hwf ⊢
      exact ih hwf
    | pending =>
      simp only [hcode] at hwf ⊢
      exact ih hwf

end

theorem wellFormed_of_rows {t : FileTree Document}
    (h : ∀ row ∈ t.rows, FileTree.isDir t row.1 = false) : FileTree.WellFormed t := by
  intro p hp
  obtain ⟨f, hf⟩ := Option.isSome_iff_exists.mp hp
  exact h (p, f) (KeyedTable.get?_eq_some.mp hf)

/-- A winner, and a participant of the same qblock. -/
def twoBatches : Bool → WriterCall
  | false => .batch (some wonRecord) []
  | true => .batch none [⟨7, "bob", "mined", none, 5⟩]

/-- The two batches before they start. -/
def twoTasks : Tasks WriterEffect FileError (WriterState Bool) fun i => (twoBatches i).Result :=
  writerTasks zeroDigest 1 oneDay twoBatches .empty

/-- One batch after the other. -/
def inTurn : List Bool := List.replicate 6 false ++ List.replicate 7 true

/-- Each batch asks for the file before the other one writes it. -/
def crossed : List Bool :=
  [false, true] ++ [false, false] ++ [true, true] ++ List.replicate 3 false ++ List.replicate 3 true

theorem inTurn_fine : ∀ e ∈ (takeTurns zeroDigest twoBatches twoTasks inTurn).1,
    (∀ row ∈ e.post.tree.rows, FileTree.isDir e.post.tree row.1 = false) ∧
      Succeeds e.effect e.answer ∧ BelowCap e.post.tree ∧
      TurnInOrder zeroDigest oneDay twoBatches e.task e.pre e.effect e.answer e.post := by
  decide +kernel

/-- One batch after the other loses nothing. -/
theorem calls_keep_updates_inTurn : UpdatesKept zeroDigest twoBatches .empty
    (takeTurns zeroDigest twoBatches twoTasks inTurn).2.state.tree 7 := by
  have hfine := inTurn_fine
  have hcall : twoBatches false = .batch (some wonRecord) [] := rfl
  exact calls_keep_updates
    (takeTurns_run zeroDigest twoBatches inTurn fun e he => wellFormed_of_rows (hfine e he).1)
    (fun e he => (hfine e he).2.1) (fun e he => (hfine e he).2.2.1)
    (fun e he => (hfine e he).2.2.2) (by decide +kernel) hcall (by decide)

/-- **Two batches read the file of a qblock before the other one writes it, all operations
succeed, and the winner is lost.** -/
theorem merged_update_lost : ∃ es t,
    TasksRun (WriterAnswers zeroDigest twoBatches) twoTasks es t ∧
    (∀ e ∈ es, Succeeds e.effect e.answer) ∧ (∀ e ∈ es, BelowCap e.post.tree) ∧
    (∀ i, (t.code i).returned = true) ∧ twoBatches false = .batch (some wonRecord) [] ∧
    7 ∈ batchQblocks (some wonRecord) [] ∧
    ¬UpdatesKept zeroDigest twoBatches .empty t.state.tree 7 := by
  have hfine : ∀ e ∈ (takeTurns zeroDigest twoBatches twoTasks crossed).1,
      (∀ row ∈ e.post.tree.rows, FileTree.isDir e.post.tree row.1 = false) ∧
        Succeeds e.effect e.answer ∧ BelowCap e.post.tree := by
    decide +kernel
  have hfile : (contents (takeTurns zeroDigest twoBatches twoTasks crossed).2.state.tree
      (qblockPath zeroDigest 7)).map Document.winner = some (some none) := by
    decide +kernel
  refine ⟨_, _, takeTurns_run zeroDigest twoBatches crossed fun e he =>
      wellFormed_of_rows (hfine e he).1, fun e he => (hfine e he).2.1, fun e he => (hfine e he).2.2,
    by decide +kernel, rfl, by decide, ?_⟩
  rintro ⟨⟨d, hd, hholds⟩, -⟩
  obtain ⟨w, hw⟩ := hholds.won (.inr ⟨false, wonRecord, [], rfl, rfl⟩)
  rw [hd, Option.map_some, hw] at hfile
  cases hfile

end Dashboard

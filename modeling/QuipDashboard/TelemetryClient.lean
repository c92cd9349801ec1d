/-
The browser's copies of the qblock files.

The model of `loadQblockFiles` and `fetchQblockFile` of
`apps/frontend/src/services/telemetry-client.ts`, beside the merges of the writer. The walks
of `fetchQblocks` and of `fetchQblockHistoryDay` differ in the list of paths only. A request
is answered with the file of one moment, and any request may fail.

* `PollStep` — the steps of the writer, of the walks and of their workers;
* `UpToDate` — the invariant: a copy of the current version is the file, and what settles a
  path was given of its current version;
* `copies_converge` — **a poll after the last write leaves the copy equal to the file**, when
  no file changes that was given to a walk as settled, and no response overtakes a later one.
-/
import QuipDashboard.RestoredFiles
import Mathlib.Data.Rat.Defs
import Mathlib.Algebra.Order.Field.Rat

namespace Dashboard

/-! ### Settling -/

/-- `QBLOCK_SETTLED_SECONDS`. -/
def qblockSettledSeconds : ℚ := 600

/-- `QBLOCK_FETCH_CONCURRENCY`. -/
def qblockFetchConcurrency : ℕ := 8

/-- `settledBefore`, from `Date.now()` in milliseconds. -/
def settledBefore (now : ℤ) : ℚ := now / 1000 - qblockSettledSeconds

/-- Whether a file is settled for a walk: its winner is older than that. -/
def settles (file : Document) (before : ℚ) : Bool :=
  match file.winner.join with
  | some winner => decide ((winner.timestamp : ℚ) < before)
  | none => false

/-! ### The state -/

/-- A file as it was read. The version counts the changes of the file up to then: the client
does not see it. -/
structure Response where
  file : Document
  version : ℕ

/-- A worker of a walk. -/
inductive WalkWorker where
  | ready
  | waiting (path : FilePath)
  | answered (path : FilePath) (response : Response)

/-- A call of `loadQblockFiles`. The paths that it skipped as settled or stored are kept to
say what it loaded. -/
structure QblockWalk where
  before : ℚ
  pending : List FilePath
  workers : Fin qblockFetchConcurrency → WalkWorker
  loaded : List FilePath

/-- The files of the server and the copies of one client. Of a file, `served` keeps the
walks that were given it since its last change, by their `settledBefore`. -/
structure PollState where
  files : FilePath → Option Document
  version : FilePath → ℕ
  served : FilePath → List ℚ
  copies : FilePath → Option Response
  settled : List FilePath
  walks : ℕ → Option QblockWalk
  started : ℕ

/-- A client that has loaded nothing. -/
def PollState.fresh (files : FilePath → Option Document) : PollState where
  files := files
  version _ := 0
  served _ := []
  copies _ := none
  settled := []
  walks _ := none
  started := 0

def QblockWalk.setWorker (w : QblockWalk) (k : Fin qblockFetchConcurrency) (worker : WalkWorker) :
    QblockWalk :=
  { w with workers := Function.update w.workers k worker }

def PollState.setWalk (s : PollState) (i : ℕ) (w : QblockWalk) : PollState :=
  { s with walks := Function.update s.walks i (some w) }

/-- The state after `write_qblock_merged`. -/
def PollState.write (sha256 : Sha256) (s : PollState) (q : ℕ) (winner : Option BlockRecord)
    (rows : List QBlockParticipationRecord) : PollState :=
  let path := qblockPath sha256 q
  let files := mergeAt sha256 s.files q winner rows
  if files path = s.files path then s
  else
    { s with
      files := files
      version := Function.update s.version path (s.version path + 1)
      served := Function.update s.served path [] }

/-- A walk over the listed paths starts. -/
def PollState.start (s : PollState) (now : ℤ) (paths : List FilePath) : PollState :=
  { s with
    walks := Function.update s.walks s.started (some {
      before := settledBefore now
      pending := paths.filter (· ∉ s.settled)
      workers := fun _ => .ready
      loaded := paths.filter (· ∈ s.settled) })
    started := s.started + 1 }

/-- The server gives a file to a walk. -/
def PollState.serve (s : PollState) (path : FilePath) (before : ℚ) : PollState :=
  { s with served := Function.update s.served path (before :: s.served path) }

/-- A response is stored, and its path may settle. -/
def PollState.store (s : PollState) (path : FilePath) (r : Response) (before : ℚ) : PollState :=
  { s with
    copies := Function.update s.copies path (some r)
    settled := if settles r.file before then path :: s.settled else s.settled }

/-! ### Steps -/

/-- What can happen: a merge of the writer, a walk that starts, its budget that expires, and
what a worker does. -/
inductive PollAction where
  | write (q : ℕ) (winner : Option BlockRecord) (rows : List QBlockParticipationRecord)
  | start (now : ℤ) (paths : List FilePath)
  | expire (i : ℕ)
  | take (i : ℕ) (k : Fin qblockFetchConcurrency)
  | answer (i : ℕ) (k : Fin qblockFetchConcurrency)
  | fail (i : ℕ) (k : Fin qblockFetchConcurrency)
  | store (i : ℕ) (k : Fin qblockFetchConcurrency)

/-- One step of the writer, of a walk or of a worker. -/
inductive PollStep (sha256 : Sha256) : PollState → PollAction → PollState → Prop
  | write (s : PollState) (q : ℕ) (winner : Option BlockRecord)
      (rows : List QBlockParticipationRecord) :
      PollStep sha256 s (.write q winner rows) (s.write sha256 q winner rows)
  | start (s : PollState) (now : ℤ) (paths : List FilePath) :
      PollStep sha256 s (.start now paths) (s.start now paths)
  -- the workers stop before their next request
  | expire {s : PollState} {i : ℕ} {w : QblockWalk} (hw : s.walks i = some w) :
      PollStep sha256 s (.expire i) (s.setWalk i { w with pending := [] })
  | take {s : PollState} {i : ℕ} {w : QblockWalk} {k : Fin qblockFetchConcurrency}
      {path : FilePath} {pending : List FilePath} (hw : s.walks i = some w)
      (hk : w.workers k = .ready) (hpending : w.pending = path :: pending) :
      PollStep sha256 s (.take i k)
        (s.setWalk i { w.setWorker k (.waiting path) with pending := pending })
  | answer {s : PollState} {i : ℕ} {w : QblockWalk} {k : Fin qblockFetchConcurrency}
      {path : FilePath} {file : Document} (hw : s.walks i = some w)
      (hk : w.workers k = .waiting path) (hfile : s.files path = some file) :
      PollStep sha256 s (.answer i k)
        ((s.serve path w.before).setWalk i
          (w.setWorker k (.answered path ⟨file, s.version path⟩)))
  -- a file that is unavailable is skipped
  | fail {s : PollState} {i : ℕ} {w : QblockWalk} {k : Fin qblockFetchConcurrency}
      (hw : s.walks i = some w) :
      PollStep sha256 s (.fail i k) (s.setWalk i (w.setWorker k .ready))
  | store {s : PollState} {i : ℕ} {w : QblockWalk} {k : Fin qblockFetchConcurrency}
      {path : FilePath} {r : Response} (hw : s.walks i = some w)
      (hk : w.workers k = .answered path r) :
      PollStep sha256 s (.store i k)
        ((s.store path r w.before).setWalk i
          { w.setWorker k .ready with loaded := path :: w.loaded })

/-- A change of a file comes before it was given to a walk as settled, and a response is not
stored over a later version. -/
def PollAction.InOrder (sha256 : Sha256) (s : PollState) : PollAction → Prop
  | .write q winner rows =>
    mergeAt sha256 s.files q winner rows (qblockPath sha256 q) = s.files (qblockPath sha256 q) ∨
      ∀ file, s.files (qblockPath sha256 q) = some file →
        ∀ before ∈ s.served (qblockPath sha256 q), settles file before = false
  | .store i k => ∀ w path r, s.walks i = some w → w.workers k = .answered path r →
      ∀ copy, s.copies path = some copy → copy.version ≤ r.version
  | _ => True

/-- A step in order. -/
def OrderedStep (sha256 : Sha256) (s : PollState) (a : PollAction) (s' : PollState) : Prop :=
  PollStep sha256 s a s' ∧ a.InOrder sha256 s

/-! ### Responses in the hands of a worker -/

/-- A worker of walk `i` has a response to store. -/
def PollState.Holds (s : PollState) (i : ℕ) (before : ℚ) (path : FilePath) (r : Response) : Prop :=
  ∃ w k, s.walks i = some w ∧ w.before = before ∧ w.workers k = .answered path r

section

variable {sha256 : Sha256} {s s' : PollState} {a : PollAction} {i : ℕ} {before : ℚ}
  {path : FilePath} {r : Response}

theorem walks_setWalk (i j : ℕ) (w : QblockWalk) :
    (s.setWalk j w).walks i = if i = j then some w else s.walks i :=
  Function.update_apply ..

theorem walks_start (now : ℤ) (paths : List FilePath) (i : ℕ) :
    (s.start now paths).walks i = if i = s.started then some {
      before := settledBefore now
      pending := paths.filter (· ∉ s.settled)
      workers := fun _ => .ready
      loaded := paths.filter (· ∈ s.settled) } else s.walks i :=
  Function.update_apply ..

theorem holds_setWalk {j : ℕ} {w w' : QblockWalk} (hw : s.walks j = some w)
    (h : (s.setWalk j w').Holds i before path r) (hbefore : w'.before = w.before) :
    s.Holds i before path r ∨ before = w.before ∧
      ∃ k, w'.workers k = .answered path r ∧ w.workers k ≠ .answered path r := by
  obtain ⟨w₁, k, hw₁, rfl, hk⟩ := h
  rw [walks_setWalk] at hw₁
  by_cases hi : i = j
  · rw [if_pos hi] at hw₁
    obtain rfl := Option.some.inj hw₁
    by_cases hold : w.workers k = .answered path r
    · exact .inl ⟨w, k, hi ▸ hw, hbefore.symm, hold⟩
    · exact .inr ⟨hbefore, k, hk, hold⟩
  · rw [if_neg hi] at hw₁
    exact .inl ⟨w₁, k, hw₁, rfl, hk⟩

/-- What a worker was not before it was set to. -/
theorem setWorker_new {w : QblockWalk} {k k' : Fin qblockFetchConcurrency}
    {worker worker' : WalkWorker} (h : Function.update w.workers k worker k' = worker')
    (hne : w.workers k' ≠ worker') : worker = worker' := by
  rw [Function.update_apply] at h
  split at h
  · exact h
  · exact absurd h hne

/-- A write leaves the client alone. -/
theorem write_client (sha256 : Sha256) (s : PollState) (q : ℕ) (winner : Option BlockRecord)
    (rows : List QBlockParticipationRecord) :
    (s.write sha256 q winner rows).copies = s.copies ∧
    (s.write sha256 q winner rows).settled = s.settled ∧
    (s.write sha256 q winner rows).walks = s.walks ∧
    (s.write sha256 q winner rows).started = s.started := by
  rw [PollState.write]
  split
  · exact ⟨rfl, rfl, rfl, rfl⟩
  · exact ⟨rfl, rfl, rfl, rfl⟩

/-- **A response is an answer of the file at its version.** -/
theorem PollStep.holds (h : PollStep sha256 s a s') (hr : s'.Holds i before path r) :
    s.Holds i before path r ∨ s'.version = s.version ∧ s'.files = s.files ∧
      r.version = s.version path ∧ s.files path = some r.file ∧ before ∈ s'.served path := by
  cases h with
  | write q winner rows =>
    obtain ⟨w, k, hw, hrest⟩ := hr
    rw [(write_client sha256 s q winner rows).2.2.1] at hw
    exact .inl ⟨w, k, hw, hrest⟩
  | start now paths =>
    obtain ⟨w, k, hw, hbefore, hk⟩ := hr
    rw [walks_start] at hw
    split at hw
    · cases Option.some.inj hw
      cases hk
    · exact .inl ⟨w, k, hw, hbefore, hk⟩
  | expire hw =>
    rcases holds_setWalk hw hr rfl with hr | ⟨-, k, hk, hne⟩
    · exact .inl hr
    · exact absurd hk hne
  | take hw hk hpending =>
    rcases holds_setWalk hw hr rfl with hr | ⟨-, k', hk', hne⟩
    · exact .inl hr
    · cases setWorker_new hk' hne
  | @answer j w k path' file hw hk hfile =>
    rcases holds_setWalk (s := s.serve path' w.before) hw hr rfl with hr | ⟨hbefore, k', hk', hne⟩
    · exact .inl hr
    · obtain ⟨rfl, rfl⟩ := WalkWorker.answered.inj (setWorker_new hk' hne)
      refine .inr ⟨rfl, rfl, rfl, hfile, ?_⟩
      show before ∈ Function.update s.served path' (w.before :: s.served path') path'
      rw [Function.update_self, hbefore]
      exact List.mem_cons_self ..
  | fail hw =>
    rcases holds_setWalk hw hr rfl with hr | ⟨-, k', hk', hne⟩
    · exact .inl hr
    · cases setWorker_new hk' hne
  | @store j w k path' r' hw hk =>
    rcases holds_setWalk (s := s.store path' r' w.before) hw hr rfl with hr | ⟨-, k', hk', hne⟩
    · exact .inl hr
    · cases setWorker_new hk' hne

/-- The version of a file counts its changes. -/
theorem PollStep.version (h : PollStep sha256 s a s') (path : FilePath) :
    s'.version path = s.version path ∧ s'.files path = s.files path ∧
      s.served path ⊆ s'.served path ∨
    s'.version path = s.version path + 1 ∧ ∃ q winner rows, a = .write q winner rows ∧
      path = qblockPath sha256 q ∧
      mergeAt sha256 s.files q winner rows path ≠ s.files path := by
  have hserve : ∀ path' before, s.served path ⊆ (s.serve path' before).served path := by
    intro path' before
    show s.served path ⊆ Function.update s.served path' (before :: s.served path') path
    rw [Function.update_apply]
    split
    · rename_i hp
      rw [hp]
      exact List.subset_cons_self ..
    · exact List.Subset.refl _
  cases h with
  | write q winner rows =>
    rw [PollState.write]
    by_cases hsame : mergeAt sha256 s.files q winner rows (qblockPath sha256 q) =
        s.files (qblockPath sha256 q)
    · rw [if_pos hsame]
      exact .inl ⟨rfl, rfl, List.Subset.refl _⟩
    · rw [if_neg hsame]
      by_cases hp : path = qblockPath sha256 q
      · subst hp
        exact .inr ⟨Function.update_self .., q, winner, rows, rfl, rfl, hsame⟩
      · refine .inl ⟨Function.update_of_ne hp _ _, Function.update_of_ne hp _ _, ?_⟩
        show s.served path ⊆ Function.update s.served (qblockPath sha256 q) [] path
        rw [Function.update_of_ne hp]
        exact List.Subset.refl _
  | start now paths => exact .inl ⟨rfl, rfl, List.Subset.refl _⟩
  | expire hw => exact .inl ⟨rfl, rfl, List.Subset.refl _⟩
  | take hw hk hpending => exact .inl ⟨rfl, rfl, List.Subset.refl _⟩
  | answer hw hk hfile => exact .inl ⟨rfl, rfl, hserve ..⟩
  | fail hw => exact .inl ⟨rfl, rfl, List.Subset.refl _⟩
  | store hw hk => exact .inl ⟨rfl, rfl, List.Subset.refl _⟩

/-- A copy changes when a response is stored, and a path settles by it. -/
theorem OrderedStep.copies (h : OrderedStep sha256 s a s') (path : FilePath) :
    s'.copies path = s.copies path ∧ (path ∈ s'.settled ↔ path ∈ s.settled) ∨
    ∃ i before r, s.Holds i before path r ∧ s'.version = s.version ∧ s'.files = s.files ∧
      s'.served = s.served ∧ s'.copies path = some r ∧
      (path ∈ s'.settled → path ∈ s.settled ∨ settles r.file before = true) ∧
      ∀ copy, s.copies path = some copy → copy.version ≤ r.version := by
  obtain ⟨hstep, horder⟩ := h
  cases hstep with
  | write q winner rows =>
    obtain ⟨hcopies, hsettled, -⟩ := write_client sha256 s q winner rows
    rw [hcopies, hsettled]
    exact .inl ⟨rfl, .rfl⟩
  | start now paths => exact .inl ⟨rfl, .rfl⟩
  | expire hw => exact .inl ⟨rfl, .rfl⟩
  | take hw hk hpending => exact .inl ⟨rfl, .rfl⟩
  | answer hw hk hfile => exact .inl ⟨rfl, .rfl⟩
  | fail hw => exact .inl ⟨rfl, .rfl⟩
  | @store j w k path' r' hw hk =>
    by_cases hp : path = path'
    · subst hp
      refine .inr ⟨j, w.before, r', ⟨w, k, hw, rfl, hk⟩, rfl, rfl, rfl, Function.update_self .., ?_,
        horder w path r' hw hk⟩
      show path ∈ (if settles r'.file w.before then path :: s.settled else s.settled) → _
      by_cases hsettles : settles r'.file w.before = true
      · exact fun _ => .inr hsettles
      · rw [if_neg hsettles]
        exact .inl
    · refine .inl ⟨Function.update_of_ne hp _ _, ?_⟩
      show path ∈ (if settles r'.file w.before then path' :: s.settled else s.settled) ↔ _
      split
      · rw [List.mem_cons, or_iff_right hp]
      · exact .rfl

/-- What a walk has loaded it skipped as settled or stored. -/
theorem PollStep.loaded (h : PollStep sha256 s a s') {w : QblockWalk} (hw : s'.walks i = some w)
    (hp : path ∈ w.loaded) : (∃ w₀, s.walks i = some w₀ ∧ path ∈ w₀.loaded) ∨
      i = s.started ∧ path ∈ s.settled ∧ s'.copies = s.copies ∨
      ∃ before r, s.Holds i before path r ∧ s'.copies path = some r := by
  -- a walk that is changed keeps what it has loaded
  have hset : ∀ {u : PollState} {j : ℕ} {w₁ w₂ : QblockWalk}, u.walks = s.walks →
      s.walks j = some w₁ → (u.setWalk j w₂).walks i = some w → w₂.loaded = w₁.loaded →
      ∃ w₀, s.walks i = some w₀ ∧ path ∈ w₀.loaded := by
    intro u j w₁ w₂ hu hw₁ hw hloaded
    rw [walks_setWalk, hu] at hw
    by_cases hi : i = j
    · rw [if_pos hi] at hw
      obtain rfl := Option.some.inj hw
      exact ⟨w₁, hi ▸ hw₁, hloaded ▸ hp⟩
    · rw [if_neg hi] at hw
      exact ⟨w, hw, hp⟩
  cases h with
  | write q winner rows =>
    rw [(write_client sha256 s q winner rows).2.2.1] at hw
    exact .inl ⟨w, hw, hp⟩
  | start now paths =>
    rw [walks_start] at hw
    by_cases hi : i = s.started
    · rw [if_pos hi] at hw
      obtain rfl := Option.some.inj hw
      exact .inr (.inl ⟨hi, of_decide_eq_true (List.mem_filter.mp hp).2, rfl⟩)
    · rw [if_neg hi] at hw
      exact .inl ⟨w, hw, hp⟩
  | expire hw₁ => exact .inl (hset rfl hw₁ hw rfl)
  | take hw₁ hk hpending => exact .inl (hset rfl hw₁ hw rfl)
  | answer hw₁ hk hfile => exact .inl (hset rfl hw₁ hw rfl)
  | fail hw₁ => exact .inl (hset rfl hw₁ hw rfl)
  | @store j w₁ k path' r hw₁ hk =>
    rw [walks_setWalk] at hw
    by_cases hi : i = j
    · rw [if_pos hi] at hw
      obtain rfl := Option.some.inj hw
      subst hi
      rcases List.mem_cons.mp hp with rfl | hp
      · exact .inr (.inr ⟨w₁.before, r, ⟨w₁, k, hw₁, rfl, hk⟩, Function.update_self ..⟩)
      · exact .inl ⟨w₁, hw₁, hp⟩
    · rw [if_neg hi] at hw
      exact .inl ⟨w, hw, hp⟩

/-- A walk has its number from when it starts. -/
theorem PollStep.unstarted (h : PollStep sha256 s a s') (hs : ∀ i, s.started ≤ i → s.walks i = none)
    (hi : s'.started ≤ i) : s'.walks i = none ∧ s.started ≤ s'.started := by
  have hset : ∀ {u : PollState} {j : ℕ} {w₁ w₂ : QblockWalk}, u.walks = s.walks →
      s.walks j = some w₁ → s.started ≤ i → (u.setWalk j w₂).walks i = none := by
    intro u j w₁ w₂ hu hw₁ hi
    rw [walks_setWalk, hu, if_neg]
    · exact hs i hi
    · rintro rfl
      cases (hs i hi).symm.trans hw₁
  cases h with
  | write q winner rows =>
    obtain ⟨-, -, hwalks, hstarted⟩ := write_client sha256 s q winner rows
    rw [hwalks, hstarted]
    exact ⟨hs i (hstarted ▸ hi), le_rfl⟩
  | start now paths =>
    have hlt : s.started < i := hi
    rw [walks_start, if_neg (by omega)]
    exact ⟨hs i hlt.le, Nat.le_succ _⟩
  | expire hw => exact ⟨hset rfl hw hi, le_rfl⟩
  | take hw hk hpending => exact ⟨hset rfl hw hi, le_rfl⟩
  | answer hw hk hfile => exact ⟨hset rfl hw hi, le_rfl⟩
  | fail hw => exact ⟨hset rfl hw hi, le_rfl⟩
  | store hw hk => exact ⟨hset rfl hw hi, le_rfl⟩

end

/-! ### The invariant -/

/-- A copy of the current version is the file; a response is one of the current version, or of
an earlier one that settles nothing; and a settled path was given as settled. -/
structure UpToDate (s : PollState) : Prop where
  copy_le : ∀ p copy, s.copies p = some copy → copy.version ≤ s.version p
  copy_file : ∀ p copy, s.copies p = some copy → copy.version = s.version p →
    s.files p = some copy.file
  held : ∀ i before p r, s.Holds i before p r →
    r.version = s.version p ∧ s.files p = some r.file ∧ before ∈ s.served p ∨
    r.version < s.version p ∧ settles r.file before = false
  settled : ∀ p ∈ s.settled, ∃ copy before, s.copies p = some copy ∧
    copy.version = s.version p ∧ before ∈ s.served p ∧ settles copy.file before = true
  unstarted : ∀ i, s.started ≤ i → s.walks i = none

theorem upToDate_fresh (files : FilePath → Option Document) : UpToDate (.fresh files) where
  copy_le p copy h := by cases h
  copy_file p copy h := by cases h
  held i before p r h := by
    obtain ⟨w, k, hw, -⟩ := h
    cases hw
  settled p h := absurd h List.not_mem_nil
  unstarted i _ := rfl

section

variable {sha256 : Sha256} {s s' : PollState} {a : PollAction}

/-- A change in order finds no response that would settle its path. -/
theorem OrderedStep.unsettled (hs : OrderedStep sha256 s a s') {p : FilePath}
    (hv : s'.version p = s.version p + 1) {file : Document} (hfile : s.files p = some file)
    {before : ℚ} (hbefore : before ∈ s.served p) : settles file before = false := by
  rcases hs.1.version p with ⟨hsame, -⟩ | ⟨-, q, winner, rows, rfl, rfl, hne⟩
  · omega
  · rcases hs.2 with hsame | hfresh
    · exact absurd hsame hne
    · exact hfresh file hfile before hbefore

namespace UpToDate

theorem held_le (h : UpToDate s) {i : ℕ} {before : ℚ} {p : FilePath} {r : Response}
    (hr : s.Holds i before p r) : r.version ≤ s.version p := by
  rcases h.held i before p r hr with ⟨hv, -⟩ | ⟨hv, -⟩
  · exact hv.le
  · exact hv.le

/-- **A step in order keeps the invariant.** -/
theorem step (h : UpToDate s) (hs : OrderedStep sha256 s a s') : UpToDate s' where
  copy_le p copy hcopy := by
    have hv : s.version p ≤ s'.version p := by
      rcases hs.1.version p with ⟨hv, -⟩ | ⟨hv, -⟩
      · exact hv.ge
      · omega
    rcases hs.copies p with ⟨hsame, -⟩ | ⟨i, before, r, hr, -, -, -, hstored, -⟩
    · exact (h.copy_le p copy (hsame ▸ hcopy)).trans hv
    · obtain rfl := Option.some.inj (hstored.symm.trans hcopy)
      exact (h.held_le hr).trans hv
  copy_file p copy hcopy hversion := by
    rcases hs.copies p with ⟨hsame, -⟩ | ⟨i, before, r, hr, hv, hfiles, -, hstored, -⟩
    · rw [hsame] at hcopy
      have hle := h.copy_le p copy hcopy
      rcases hs.1.version p with ⟨hv, hfile, -⟩ | ⟨hv, -⟩
      · rw [hfile]
        exact h.copy_file p copy hcopy (hversion.trans hv)
      · omega
    · obtain rfl := Option.some.inj (hstored.symm.trans hcopy)
      rw [hv] at hversion
      rcases h.held i before p r hr with ⟨-, hfile, -⟩ | ⟨hlt, -⟩
      · rw [hfiles]
        exact hfile
      · omega
  held i before p r hr := by
    rcases hs.1.holds hr with hr | ⟨hv, hfiles, hversion, hfile, hserved⟩
    · rcases hs.1.version p with ⟨hv, hfile, hserved⟩ | ⟨hv, -⟩
      · rw [hv, hfile]
        refine (h.held i before p r hr).imp_left ?_
        rintro ⟨hversion, hfile, hbefore⟩
        exact ⟨hversion, hfile, hserved hbefore⟩
      · refine .inr ?_
        rcases h.held i before p r hr with ⟨hversion, hfile, hbefore⟩ | ⟨hlt, hold⟩
        · exact ⟨by omega, hs.unsettled hv hfile hbefore⟩
        · exact ⟨by omega, hold⟩
    · rw [hv, hfiles]
      exact .inl ⟨hversion, hfile, hserved⟩
  settled p hp := by
    rcases hs.copies p with ⟨hsame, hsettled⟩ |
      ⟨i, before, r, hr, hv, hfiles, hserved, hstored, hsettled, hover⟩
    · obtain ⟨copy, before, hcopy, hversion, hbefore, hold⟩ := h.settled p (hsettled.mp hp)
      rcases hs.1.version p with ⟨hv, -, hserved⟩ | ⟨hv, -⟩
      · exact ⟨copy, before, hsame.trans hcopy, hversion.trans hv.symm, hserved hbefore, hold⟩
      · have hfile := h.copy_file p copy hcopy hversion
        cases hold.symm.trans (hs.unsettled hv hfile hbefore)
    · rw [hstored, hv, hserved]
      rcases hsettled hp with hp | hsettles
      · -- the path was settled: its copy is of the current version, and so is the response
        obtain ⟨copy, before', hcopy, hversion, hbefore', hold⟩ := h.settled p hp
        have hrv : r.version = s.version p := by
          have := hover copy hcopy
          have := h.held_le hr
          omega
        rcases h.held i before p r hr with ⟨-, hfile, -⟩ | ⟨hlt, -⟩
        · have hsame := Option.some.inj (hfile.symm.trans (h.copy_file p copy hcopy hversion))
          exact ⟨r, before', rfl, hrv, hbefore', hsame ▸ hold⟩
        · omega
      · rcases h.held i before p r hr with ⟨hversion, -, hbefore⟩ | ⟨-, hold⟩
        · exact ⟨r, before, rfl, hversion, hbefore, hsettles⟩
        · cases hsettles.symm.trans hold
  unstarted i hi := (hs.1.unstarted h.unstarted hi).1

theorem run {as : List PollAction} (h : UpToDate s)
    (hrun : History.Run (OrderedStep sha256) s as s') : UpToDate s' :=
  hrun.invariant h fun h hs => h.step hs

/-- The copy of a settled path is the file. -/
theorem settled_copy (h : UpToDate s) {p : FilePath} (hp : p ∈ s.settled) :
    (s.copies p).map Response.file = s.files p := by
  obtain ⟨copy, before, hcopy, hversion, -⟩ := h.settled p hp
  rw [hcopy, h.copy_file p copy hcopy hversion]
  rfl

/-- A settled file does not change. -/
theorem settled_step (h : UpToDate s) (hs : OrderedStep sha256 s a s') {p : FilePath}
    (hp : p ∈ s.settled) : s'.files p = s.files p ∧ p ∈ s'.settled := by
  obtain ⟨copy, before, hcopy, hversion, hbefore, hold⟩ := h.settled p hp
  refine ⟨?_, ?_⟩
  · rcases hs.1.version p with ⟨-, hfile, -⟩ | ⟨hv, -⟩
    · exact hfile
    · have hfile := h.copy_file p copy hcopy hversion
      cases hold.symm.trans (hs.unsettled hv hfile hbefore)
  · cases hs.1 with
    | write q winner rows =>
      rw [(write_client sha256 s q winner rows).2.1]
      exact hp
    | start now paths => exact hp
    | expire hw => exact hp
    | take hw hk hpending => exact hp
    | answer hw hk hfile => exact hp
    | fail hw => exact hp
    | @store j w k path r hw hk =>
      show p ∈ (if settles r.file w.before then path :: s.settled else s.settled)
      split
      · exact List.mem_cons_of_mem _ hp
      · exact hp

end UpToDate

/-! ### A poll after the last write -/

/-- What the walks from the `n`-th on were given of `p` is its current version. -/
structure PollLoaded (n v : ℕ) (p : FilePath) (s : PollState) : Prop where
  started : n ≤ s.started
  version : s.version p = v
  held : ∀ i, n ≤ i → ∀ before r, s.Holds i before p r → r.version = v
  loaded : ∀ i, n ≤ i → ∀ w, s.walks i = some w → p ∈ w.loaded →
    ∃ copy, s.copies p = some copy ∧ copy.version = v

theorem PollLoaded.step {n v : ℕ} {p : FilePath} (h : PollLoaded n v p s) (hc : UpToDate s)
    (hs : OrderedStep sha256 s a s') (hv : s'.version p = s.version p) : PollLoaded n v p s' := by
  -- a copy of the current version is replaced by one of it only
  have hkeep : ∀ copy, s.copies p = some copy → copy.version = v →
      ∃ copy', s'.copies p = some copy' ∧ copy'.version = v := by
    intro copy hcopy hversion
    rcases hs.copies p with ⟨hsame, -⟩ | ⟨i, before, r, hr, -, -, -, hstored, -, hover⟩
    · exact ⟨copy, hsame.trans hcopy, hversion⟩
    · refine ⟨r, hstored, ?_⟩
      have := hover copy hcopy
      have := hc.held_le hr
      have := h.version
      omega
  refine ⟨h.started.trans (hs.1.unstarted hc.unstarted le_rfl).2, hv.trans h.version, ?_, ?_⟩
  · intro i hi before r hr
    rcases hs.1.holds hr with hr | ⟨-, -, hversion, -⟩
    · exact h.held i hi before r hr
    · exact hversion.trans h.version
  · intro i hi w hw hp
    rcases hs.1.loaded hw hp with ⟨w₀, hw₀, hp₀⟩ | ⟨-, hsettled, hcopies⟩ | ⟨before, r, hr, hstored⟩
    · obtain ⟨copy, hcopy, hversion⟩ := h.loaded i hi w₀ hw₀ hp₀
      exact hkeep copy hcopy hversion
    · obtain ⟨copy, before, hcopy, hversion, -⟩ := hc.settled p hsettled
      exact hkeep copy hcopy (hversion.trans h.version)
    · exact ⟨r, hstored, h.held i hi before r hr⟩

theorem pollLoaded_of_run {as : List PollAction} {p : FilePath} (hc : UpToDate s)
    (hquiet : ∀ q winner rows, PollAction.write q winner rows ∈ as → qblockPath sha256 q ≠ p)
    (hrun : History.Run (OrderedStep sha256) s as s') : PollLoaded s.started (s.version p) p s' := by
  induction hrun with
  | nil =>
    refine ⟨le_rfl, rfl, fun i hi before r hr => ?_, fun i hi w hw => ?_⟩
    · obtain ⟨w, k, hw, -⟩ := hr
      cases (hc.unstarted i hi).symm.trans hw
    · cases (hc.unstarted i hi).symm.trans hw
  | @snoc as s₁ s₂ a hrun hs ih =>
    refine (ih fun q winner rows hw => hquiet q winner rows (List.mem_cons_of_mem _ hw)).step
      (hc.run hrun) hs ?_
    rcases hs.1.version p with ⟨hv, -⟩ | ⟨-, q, winner, rows, rfl, hp, -⟩
    · exact hv
    · exact absurd hp.symm (hquiet q winner rows (List.mem_cons_self ..))

theorem settled_of_run {as : List PollAction} {p : FilePath} (hc : UpToDate s)
    (hp : p ∈ s.settled) (hrun : History.Run (OrderedStep sha256) s as s') :
    s'.files p = s.files p ∧ p ∈ s'.settled := by
  induction hrun with
  | nil => exact ⟨rfl, hp⟩
  | snoc hrun hs ih =>
    obtain ⟨hfile, hsettled⟩ := (hc.run hrun).settled_step hs ih.2
    exact ⟨hfile.trans ih.1, hsettled⟩

/-- **In a run in order, a poll that begins after the last write of a file and loads it leaves
the copy equal to the file, and a file that has settled never changes.** -/
theorem copies_converge {files : FilePath → Option Document} {as as' : List PollAction}
    (hbefore : History.Run (OrderedStep sha256) (.fresh files) as s)
    (hafter : History.Run (OrderedStep sha256) s as' s') {p : FilePath} :
    ((∀ q winner rows, PollAction.write q winner rows ∈ as' → qblockPath sha256 q ≠ p) →
      ∀ i w, s.started ≤ i → s'.walks i = some w → p ∈ w.loaded →
        (s'.copies p).map Response.file = s'.files p) ∧
    (p ∈ s.settled → s'.files p = s.files p) := by
  have hc := (upToDate_fresh files).run hbefore
  refine ⟨fun hquiet i w hi hw hp => ?_, fun hp => (settled_of_run hc hp hafter).1⟩
  have hpolled := pollLoaded_of_run hc hquiet hafter
  obtain ⟨copy, hcopy, hversion⟩ := hpolled.loaded i hi w hw hp
  rw [hcopy, (hc.run hafter).copy_file p copy hcopy (hversion.trans hpolled.version.symm)]
  rfl

end

/-! ### One poll -/

/-- The first worker of a walk. -/
def firstWorker : Fin qblockFetchConcurrency := ⟨0, Nat.succ_pos 7⟩

theorem files_write {sha256 : Sha256} {s : PollState} {q : ℕ} {winner : Option BlockRecord}
    {rows : List QBlockParticipationRecord} :
    (s.write sha256 q winner rows).files = mergeAt sha256 s.files q winner rows := by
  rw [PollState.write]
  split
  · rename_i hsame
    have hupdate := Function.update_eq_self (qblockPath sha256 q) s.files
    rw [← hsame, mergeAt, Function.update_self] at hupdate
    exact hupdate.symm
  · rfl

/-- A poll of a file that has no copy yet. -/
theorem poll_one (sha256 : Sha256) {s : PollState} {path : FilePath} {file : Document}
    (hfile : s.files path = some file) (hcopy : s.copies path = none) (hp : path ∉ s.settled)
    (now : ℤ) : ∃ s', History.Run (OrderedStep sha256) s
        [.store s.started firstWorker, .answer s.started firstWorker, .take s.started firstWorker,
          .start now [path]] s' ∧
      s'.files = s.files ∧ s'.copies path = some ⟨file, s.version path⟩ ∧
      s'.settled =
        (if settles file (settledBefore now) then path :: s.settled else s.settled) ∧
      ∃ w, s'.walks s.started = some w ∧ path ∈ w.loaded := by
  have hself : ∀ (u : PollState) (w : QblockWalk),
      (u.setWalk s.started w).walks s.started = some w :=
    fun u w => Function.update_self ..
  have hpending : [path].filter (· ∉ s.settled) = [path] := by
    simp [hp]
  -- the walk of one path: taken by the first worker, answered, stored
  let asked : QblockWalk := {
    before := settledBefore now
    pending := []
    workers := Function.update (fun _ => .ready) firstWorker (.waiting path)
    loaded := [path].filter (· ∈ s.settled) }
  let given := asked.setWorker firstWorker (.answered path ⟨file, s.version path⟩)
  let s₁ := s.start now [path]
  let s₂ := s₁.setWalk s.started asked
  let s₃ := (s₂.serve path asked.before).setWalk s.started given
  have hasked : asked.workers firstWorker = .waiting path := by
    simp [asked]
  have hgiven : given.workers firstWorker = .answered path ⟨file, s.version path⟩ := by
    simp [given, QblockWalk.setWorker]
  have hwalk := (walks_start (s := s) now [path] s.started).trans (if_pos rfl)
  have hstart : PollStep sha256 s (.start now [path]) s₁ := .start s now [path]
  have htake : PollStep sha256 s₁ (.take s.started firstWorker) s₂ := .take hwalk rfl hpending
  have hanswer : PollStep sha256 s₂ (.answer s.started firstWorker) s₃ :=
    .answer (hself s₁ asked) hasked hfile
  have hstore : PollStep sha256 s₃ (.store s.started firstWorker) _ :=
    .store (hself _ given) hgiven
  refine ⟨_, .snoc (.snoc (.snoc (.snoc .nil ⟨hstart, trivial⟩) ⟨htake, trivial⟩)
    ⟨hanswer, trivial⟩) ⟨hstore, ?_⟩, rfl, Function.update_self .., rfl, _, hself ..,
    List.mem_cons_self ..⟩
  intro w path' r hw hk copy hcopy'
  obtain rfl := Option.some.inj (hw.symm.trans (hself ..))
  obtain ⟨rfl, rfl⟩ := WalkWorker.answered.inj (hk.symm.trans hgiven)
  cases hcopy.symm.trans hcopy'

/-- The server after the winner was written. -/
def wonFiles : PollState := (PollState.fresh fun _ => none).write zeroDigest 7 (some wonRecord) []

/-- The file of the winner alone. -/
def wonFile : Document := Document.empty.merge 7 (some wonRecord) []

theorem wonFiles_run : History.Run (OrderedStep zeroDigest) (.fresh fun _ => none)
    [.write 7 (some wonRecord) []] wonFiles := by
  refine .snoc .nil ⟨.write _ 7 (some wonRecord) [], .inr fun file hfile => ?_⟩
  cases hfile

theorem wonFiles_file : wonFiles.files (qblockPath zeroDigest 7) = some wonFile := by
  rw [wonFiles, files_write, mergeAt, Function.update_self]
  rfl

/-- A poll ten minutes after the winner. -/
def pollSecond : ℤ := 1710000601000

theorem won_poll : ∃ s', History.Run (OrderedStep zeroDigest) wonFiles
      [.store wonFiles.started firstWorker, .answer wonFiles.started firstWorker,
        .take wonFiles.started firstWorker, .start pollSecond [qblockPath zeroDigest 7]] s' ∧
    s'.files = wonFiles.files ∧
    s'.copies (qblockPath zeroDigest 7) = some ⟨wonFile, wonFiles.version (qblockPath zeroDigest 7)⟩ ∧
    s'.settled = [qblockPath zeroDigest 7] ∧
    ∃ w, s'.walks wonFiles.started = some w ∧ qblockPath zeroDigest 7 ∈ w.loaded := by
  obtain ⟨hcopies, hsettled, -⟩ : wonFiles.copies = _ ∧ wonFiles.settled = _ ∧ _ :=
    write_client zeroDigest _ 7 (some wonRecord) []
  have hold : settles wonFile (settledBefore pollSecond) = true := by
    decide +kernel
  obtain ⟨s', hrun, hfiles, hcopy, hset, hloaded⟩ := poll_one zeroDigest wonFiles_file
    (by rw [hcopies]; rfl) (by rw [hsettled]; exact List.not_mem_nil) pollSecond
  rw [if_pos hold, hsettled] at hset
  exact ⟨s', hrun, hfiles, hcopy, hset, hloaded⟩

/-- The copy of a poll after the last write is the file. -/
theorem copies_converge_won : ∃ s' as', History.Run (OrderedStep zeroDigest) wonFiles as' s' ∧
    (s'.copies (qblockPath zeroDigest 7)).map Response.file =
      s'.files (qblockPath zeroDigest 7) := by
  obtain ⟨s', hrun, -, -, -, w, hw, hp⟩ := won_poll
  refine ⟨s', _, hrun, (copies_converge wonFiles_run hrun).1 ?_ wonFiles.started w le_rfl hw hp⟩
  intro q winner rows hwrite
  simp at hwrite

/-- A participant whose page comes after the winner. -/
def lateParticipant : QBlockParticipationRecord :=
  ⟨7, "bob", "extrinsic", none, 5⟩

/-- **The page of a participant changes a file that has settled, and no later poll loads it.** -/
theorem settled_file_lost : ∃ as s as' s',
    History.Run (PollStep zeroDigest) (.fresh fun _ => none) as s ∧
    qblockPath zeroDigest 7 ∈ s.settled ∧
    History.Run (PollStep zeroDigest) (s.write zeroDigest 7 none [lateParticipant]) as' s' ∧
    (∀ q winner rows, PollAction.write q winner rows ∉ as') ∧
    (∃ i w, (s.write zeroDigest 7 none [lateParticipant]).started ≤ i ∧ s'.walks i = some w ∧
      qblockPath zeroDigest 7 ∈ w.loaded) ∧
    (s'.copies (qblockPath zeroDigest 7)).map Response.file ≠
      s'.files (qblockPath zeroDigest 7) := by
  obtain ⟨s, hrun, hfiles, hcopy, hsettled, -⟩ := won_poll
  have hbefore := (wonFiles_run.append hrun).imp fun hs => hs.1
  obtain ⟨hcopies, hset, -⟩ :=
    write_client zeroDigest s 7 none [lateParticipant]
  refine ⟨_, s, [.start pollSecond [qblockPath zeroDigest 7]], _, hbefore, ?_, .snoc .nil (.start ..),
    ?_, ⟨_, _, le_rfl, (walks_start ..).trans (if_pos rfl), ?_⟩, ?_⟩
  · rw [hsettled]
    exact List.mem_singleton_self _
  · intro q winner rows h
    simp at h
  · refine List.mem_filter.mpr ⟨List.mem_singleton_self _, ?_⟩
    rw [hset, hsettled]
    exact decide_eq_true (List.mem_singleton_self _)
  · show ((s.write zeroDigest 7 none [lateParticipant]).copies _).map _ ≠
      (s.write zeroDigest 7 none [lateParticipant]).files _
    rw [hcopies, hcopy, files_write, hfiles, mergeAt, Function.update_self, wonFiles_file]
    decide +kernel

end Dashboard

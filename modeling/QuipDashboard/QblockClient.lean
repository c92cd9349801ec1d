/-
The client that loads the qblock files.

The model of `fetchQblocks`, `fetchQblockHistoryDay`, `loadQblockFiles` and
`fetchQblockFile` of `apps/frontend/src/services/telemetry-client.ts`, and of what is made of
the files.  Calls of one client interleave; the workers of a walk share its list, its deadline
and its flag `complete`.

* `WalkStep` — the steps of the workers, with every outcome of a request;
* `CallStep`, `Client.Step` — the steps of a call, and of all calls of a client;
* `participationFromQblockFiles`, `winnersOf` — what is made of the copies;
* `client_of_polls` — **the polls beside the server are runs of such a client**.
-/
import QuipDashboard.TelemetryClient
import QuipDashboard.History
import Mathlib.Data.List.OfFn
import Mathlib.Data.List.Sort

namespace Dashboard

namespace QblockClient

/-! ### What the files hold -/

/-- The latest copy of every file that was loaded, by its path. -/
abbrev QblockFiles := KeyedTable FilePath Document

def values (files : QblockFiles) : List Document := files.rows.map Prod.snd

/-- `ParticipationComputeRow`. -/
structure ParticipationComputeRow where
  qblockId : ℕ
  account : String
  kind : String
  miningSeconds : ℤ
  exactQpuAccessUs : Option ℕ
  deriving DecidableEq

/-- The rows of a winner, by the time since the winner before it. -/
def rowsBetween (previous next : Document × BlockRecord) : List ParticipationComputeRow :=
  let miningSeconds : ℤ := next.2.timestamp - previous.2.timestamp
  if miningSeconds ≤ 0 then []
  else (next.1.participation.getD []).map fun p =>
    ⟨next.1.qblockId.getD 0, p.account, p.kind, miningSeconds, none⟩

/-- The rows of all winners but the first. -/
def rowsOfWon : List (Document × BlockRecord) → List ParticipationComputeRow
  | previous :: next :: won => rowsBetween previous next ++ rowsOfWon (next :: won)
  | _ => []

/-- `participationFromQblockFiles`. -/
def participationFromQblockFiles (files : List Document) : List ParticipationComputeRow :=
  let won := files.filterMap fun f => f.winner.join.map fun w => (f, w)
  rowsOfWon (won.insertionSort fun a b => a.1.qblockId.getD 0 ≤ b.1.qblockId.getD 0)

/-- The winner block of each file that has one. -/
def winnersOf (files : List Document) : List BlockRecord :=
  files.filterMap fun f => f.winner.join

/-- A value, the files that it was made of, and the version of the copies then. -/
structure MadeOf {α : Type} (f : List Document → α) where
  files : QblockFiles
  version : ℕ
  value : α
  made : value = f (values files)

/-- The value of some files. -/
def MadeOf.of {α : Type} (f : List Document → α) (files : QblockFiles) (version : ℕ) : MadeOf f :=
  ⟨files, version, f (values files), rfl⟩

/-- What is made of a value is made of its files. -/
def MadeOf.map {α β : Type} {f : List Document → α} (g : α → β) (m : MadeOf f) :
    MadeOf fun files => g (f files) :=
  ⟨m.files, m.version, g m.value, congrArg g m.made⟩

/-- `QblockData`: both are made of the same copies. -/
structure QblockData where
  rows : MadeOf participationFromQblockFiles
  winners : MadeOf winnersOf
  same : winners.files = rows.files
  sameVersion : winners.version = rows.version

/-! ### Walks -/

/-- `QblockManifest`. -/
structure QblockManifest where
  qblocks : List FilePath
  history : List FilePath

/-- A worker of `loadQblockFiles`. -/
inductive Worker where
  | ready
  | waiting (path : FilePath)
  | returned
  | thrown
  deriving DecidableEq

/-- The variables of a run of `loadQblockFiles`: `next` holds the pending paths that no
worker has taken. -/
structure Walk where
  manifest : QblockManifest
  settledBefore : ℚ
  next : List FilePath
  workers : List Worker
  complete : Bool
  deadlineAborted : Bool

/-- What happens to a walk. -/
inductive WalkEvent where
  | expire
  | take (k : ℕ) (path : FilePath)
  | cut (k : ℕ) (path : FilePath)
  | stop (k : ℕ)
  | loaded (k : ℕ) (path : FilePath) (file : Document)
  | unavailable (k : ℕ) (path : FilePath)
  | abort (k : ℕ) (path : FilePath)

def Walk.setWorker (w : Walk) (k : ℕ) (worker : Worker) : Walk :=
  { w with workers := w.workers.set k worker }

/-- The paths of a manifest that have not settled. -/
def pendingOf (settled : List FilePath) (m : QblockManifest) : List FilePath :=
  m.qblocks.filter (· ∉ settled)

/-- The head of `loadQblockFiles`. -/
def Walk.start (settled : List FilePath) (now : ℤ) (m : QblockManifest) : Walk where
  manifest := m
  settledBefore := Dashboard.settledBefore now
  next := pendingOf settled m
  workers := List.replicate (min qblockFetchConcurrency (pendingOf settled m).length) .ready
  complete := true
  deadlineAborted := false

/-- The steps of a walk. -/
inductive WalkStep : Walk → WalkEvent → Walk → Prop
  | expire (w : Walk) : WalkStep w .expire { w with deadlineAborted := true }
  | take {w : Walk} {k : ℕ} {path : FilePath} {next : List FilePath}
      (hk : w.workers[k]? = some .ready) (hnext : w.next = path :: next)
      (hdeadline : w.deadlineAborted = false) :
      WalkStep w (.take k path) { w.setWorker k (.waiting path) with next := next }
  -- the path that the worker has just taken is given up
  | cut {w : Walk} {k : ℕ} {path : FilePath} {next : List FilePath}
      (hk : w.workers[k]? = some .ready) (hnext : w.next = path :: next)
      (hdeadline : w.deadlineAborted = true) :
      WalkStep w (.cut k path) { w.setWorker k .returned with next := next, complete := false }
  | stop {w : Walk} {k : ℕ} (hk : w.workers[k]? = some .ready) (hnext : w.next = []) :
      WalkStep w (.stop k) (w.setWorker k .returned)
  | loaded {w : Walk} {k : ℕ} {path : FilePath} (hk : w.workers[k]? = some (.waiting path))
      (file : Document) : WalkStep w (.loaded k path file) (w.setWorker k .ready)
  -- `fetchQblockFile` gives null: a bad status, a failure or the timeout of the request
  | unavailable {w : Walk} {k : ℕ} {path : FilePath}
      (hk : w.workers[k]? = some (.waiting path)) :
      WalkStep w (.unavailable k path) (w.setWorker k .ready)
  -- the caller's own signal has aborted
  | abort {w : Walk} {k : ℕ} {path : FilePath} (hk : w.workers[k]? = some (.waiting path)) :
      WalkStep w (.abort k path) (w.setWorker k .thrown)

/-! ### Calls -/

/-- The methods that walk. -/
inductive Method where
  | fetchQblocks
  | fetchQblockHistoryDay (dayPath : FilePath)

/-- What became of a call. -/
inductive Outcome where
  | pending
  | snapshot (data : QblockData) (history : List FilePath)
  | data (data : QblockData)
  | thrown

def Outcome.isReturned : Outcome → Bool
  | .snapshot .. | .data _ => true
  | .pending | .thrown => false

/-- A call; its walk starts when the manifest has arrived. -/
structure QblockCall where
  method : Method
  walk : Option Walk
  outcome : Outcome

/-- `HttpTelemetryClient`, with the calls that were made. The version counts the changes of
`qblockFiles`, a copy that is added or that gives way to another one: the source does not
keep it. -/
structure Client where
  qblockFiles : QblockFiles
  version : ℕ
  settledQblocks : List FilePath
  loadedHistoryDays : List FilePath
  calls : List QblockCall

/-- `new HttpTelemetryClient`. -/
def Client.new : Client := ⟨.empty, 0, [], [], []⟩

/-- `qblockData`. -/
def Client.qblockData (s : Client) : QblockData :=
  ⟨.of _ s.qblockFiles s.version, .of _ s.qblockFiles s.version, rfl, rfl⟩

def Client.begin (s : Client) (method : Method) : Client :=
  { s with calls := s.calls ++ [⟨method, none, .pending⟩] }

def Client.setCall (s : Client) (i : ℕ) (call : QblockCall) : Client :=
  { s with calls := s.calls.set i call }

/-- A file is stored, and its path may settle. -/
def Client.store (s : Client) (w : Walk) (path : FilePath) (file : Document) : Client :=
  { s with
    qblockFiles := s.qblockFiles.put path file
    version := if s.qblockFiles.get? path = some file then s.version else s.version + 1
    settledQblocks :=
      if settles file w.settledBefore then path :: s.settledQblocks else s.settledQblocks }

/-- A call after an event of its walk: what a worker throws, the call throws. -/
def QblockCall.after (call : QblockCall) (w : Walk) : WalkEvent → QblockCall
  | .abort .. => { call with walk := some w, outcome := .thrown }
  | _ => { call with walk := some w }

/-- What a call returns after its walk. -/
def Client.result (s : Client) (w : Walk) : Method → Outcome
  | .fetchQblocks =>
    .snapshot s.qblockData (w.manifest.history.filter (· ∉ s.loadedHistoryDays))
  | .fetchQblockHistoryDay _ => .data s.qblockData

/-- What happens to a call. -/
inductive CallEvent where
  | refused
  | manifest (now : ℤ) (m : QblockManifest)
  | walk (e : WalkEvent)
  | finish

/-- The steps of a call. -/
inductive CallStep (s : Client) : QblockCall → CallEvent → QblockCall → Prop
  -- the request of the manifest fails, and the call throws
  | refused {call : QblockCall} (hwalk : call.walk = none) (hpending : call.outcome = .pending) :
      CallStep s call .refused { call with outcome := .thrown }
  | manifest {call : QblockCall} (hwalk : call.walk = none) (hpending : call.outcome = .pending)
      (now : ℤ) (m : QblockManifest) :
      CallStep s call (.manifest now m)
        { call with walk := some (.start s.settledQblocks now m) }
  | walk {call : QblockCall} {w w' : Walk} {e : WalkEvent} (hwalk : call.walk = some w)
      (hstep : WalkStep w e w') : CallStep s call (.walk e) (call.after w' e)
  | finish {call : QblockCall} {w : Walk} (hwalk : call.walk = some w)
      (hpending : call.outcome = .pending) (hworkers : ∀ x ∈ w.workers, x = .returned) :
      CallStep s call .finish { call with outcome := s.result w call.method }

/-- What an event of a call does to the maps of the client. -/
def Client.during (s : Client) (call : QblockCall) (e : CallEvent) : Client :=
  match e, call.method, call.walk with
  | .walk (.loaded _ path file), _, some w => s.store w path file
  | .finish, .fetchQblockHistoryDay day, some w =>
    if w.complete then { s with loadedHistoryDays := day :: s.loadedHistoryDays } else s
  | _, _, _ => s

/-- What happens to a client. -/
inductive ClientEvent where
  | begin (method : Method)
  | call (i : ℕ) (e : CallEvent)

/-- The steps of a client. -/
inductive Client.Step : Client → ClientEvent → Client → Prop
  | begin (s : Client) (method : Method) : Client.Step s (.begin method) (s.begin method)
  | call {s : Client} {i : ℕ} {call call' : QblockCall} {e : CallEvent}
      (hcall : s.calls[i]? = some call) (hstep : CallStep s call e call') :
      Client.Step s (.call i e) ((s.during call e).setCall i call')

/-! ### A client beside the server -/

/-- The path that a worker has in hand. -/
def Worker.path? : Worker → Option FilePath
  | .waiting path => some path
  | _ => none

/-- The path that a worker of a walk beside the server has in hand. -/
def heldPath : WalkWorker → Option FilePath
  | .ready => none
  | .waiting path | .answered path _ => some path

/-- The walks have the same paths in hand and before them; the workers have no order. -/
structure Walk.Matches (w : Walk) (q : QblockWalk) : Prop where
  before : q.before = w.settledBefore
  pending : q.pending = if w.deadlineAborted then [] else w.next
  idle : ∀ x ∈ w.workers, x = .ready ∨ ∃ path, x = .waiting path
  busy : ((List.ofFn q.workers).filterMap heldPath).Perm (w.workers.filterMap Worker.path?)
  room : w.workers.length = qblockFetchConcurrency ∨
    (w.workers.filterMap Worker.path?).length + w.next.length ≤ w.workers.length

/-- The client has the copies, the settled paths and the walks of a state beside the server. -/
structure Client.Matches (s : Client) (p : PollState) : Prop where
  copies : ∀ path, s.qblockFiles.get? path = (p.copies path).map Response.file
  settled : s.settledQblocks = p.settled
  started : s.calls.length = p.started
  walks : ∀ i q, p.walks i = some q →
    ∃ call w, s.calls[i]? = some call ∧ call.walk = some w ∧ w.Matches q

section

variable {α β : Type} {f : α → Option β} {l : List α} {k : ℕ} {x y : α} {a : β}

/-- One more element of a list has a value. -/
theorem perm_filterMap_set (hk : l[k]? = some y) (hy : f y = none) (hx : f x = some a) :
    ((l.set k x).filterMap f).Perm (a :: l.filterMap f) := by
  induction l generalizing k with
  | nil => cases hk
  | cons z l ih =>
    cases k with
    | zero =>
      cases hk
      rw [List.set_cons_zero, List.filterMap_cons_some hx, List.filterMap_cons_none hy]
    | succ k =>
      have hperm := ih hk
      rw [List.set_cons_succ]
      cases hz : f z with
      | none =>
        rw [List.filterMap_cons_none hz, List.filterMap_cons_none hz]
        exact hperm
      | some b =>
        rw [List.filterMap_cons_some hz, List.filterMap_cons_some hz]
        exact (hperm.cons b).trans (.swap a b _)

/-- One element less of a list has a value. -/
theorem perm_filterMap_set_none (hk : l[k]? = some y) (hy : f y = some a) (hx : f x = none) :
    (l.filterMap f).Perm (a :: (l.set k x).filterMap f) := by
  obtain ⟨hlt, rfl⟩ := List.getElem?_eq_some_iff.mp hk
  have h := perm_filterMap_set (List.getElem?_set_self hlt) hx hy
  rwa [List.set_set, List.set_getElem_self] at h

theorem filterMap_set_same (hk : l[k]? = some y) (hx : f x = f y) :
    (l.set k x).filterMap f = l.filterMap f := by
  induction l generalizing k with
  | nil => cases hk
  | cons z l ih =>
    cases k with
    | zero =>
      cases hk
      rw [List.set_cons_zero, List.filterMap_cons, List.filterMap_cons, hx]
    | succ k => rw [List.set_cons_succ, List.filterMap_cons, List.filterMap_cons, ih hk]

theorem ofFn_update {n : ℕ} (g : Fin n → α) (k : Fin n) (x : α) :
    List.ofFn (Function.update g k x) = (List.ofFn g).set k x := by
  refine List.ext_getElem (by simp) fun i h _ => ?_
  rw [List.getElem_ofFn, List.getElem_set, List.getElem_ofFn, Function.update_apply]
  simp only [Fin.ext_iff, eq_comm]

end

namespace Walk.Matches

variable {w : Walk} {q : QblockWalk} {k : Fin qblockFetchConcurrency} {path : FilePath}

theorem getElem?_ofFn (q : QblockWalk) (k : Fin qblockFetchConcurrency) :
    (List.ofFn q.workers)[k.val]? = some (q.workers k) := by
  rw [List.getElem?_ofFn, dif_pos k.isLt]

/-- A worker has the path in hand. -/
theorem exists_waiting (h : w.Matches q) (hk : heldPath (q.workers k) = some path) :
    ∃ k' : ℕ, w.workers[k']? = some (Worker.waiting path) := by
  have hheld : path ∈ (List.ofFn q.workers).filterMap heldPath :=
    List.mem_filterMap.mpr ⟨q.workers k, List.mem_of_getElem? (getElem?_ofFn q k), hk⟩
  obtain ⟨x, hx, hpath⟩ := List.mem_filterMap.mp (h.busy.mem_iff.mp hheld)
  rcases h.idle x hx with rfl | ⟨path', rfl⟩
  · cases hpath
  · cases hpath
    exact List.getElem?_of_mem hx

/-- While there are pending paths, a worker is ready when one is beside the server. -/
theorem exists_ready (h : w.Matches q) (hk : q.workers k = .ready) (hne : w.next ≠ []) :
    ∃ k' : ℕ, w.workers[k']? = some Worker.ready := by
  by_contra hnone
  have hwaiting : ∀ x ∈ w.workers, ∃ path, x = .waiting path := by
    intro x hx
    refine (h.idle x hx).resolve_left ?_
    rintro rfl
    exact hnone (List.getElem?_of_mem hx)
  have hall : (w.workers.filterMap Worker.path?).length = w.workers.length := by
    rw [List.filterMap_length_eq_length]
    intro x hx
    obtain ⟨path, rfl⟩ := hwaiting x hx
    rfl
  have hless : ((List.ofFn q.workers).filterMap heldPath).length < qblockFetchConcurrency := by
    have hlt := List.length_filterMap_lt_length_iff_exists (f := heldPath).mpr
      ⟨_, List.mem_of_getElem? (getElem?_ofFn q k), by rw [hk]; rfl⟩
    rwa [List.length_ofFn] at hlt
  have hpos := List.length_pos_of_ne_nil hne
  have hroom := h.room
  rw [h.busy.length_eq] at hless
  omega

/-- A ready worker takes a path. -/
theorem take {k' : ℕ} {next : List FilePath} (h : w.Matches q) (hk : q.workers k = .ready)
    (hk' : w.workers[k']? = some .ready) (hnext : w.next = path :: next)
    (hdeadline : w.deadlineAborted = false) :
    Matches { w.setWorker k' (.waiting path) with next := next }
      { q.setWorker k (.waiting path) with pending := next } := by
  have hq : (((List.ofFn q.workers).set k (.waiting path)).filterMap heldPath).Perm
      (path :: (List.ofFn q.workers).filterMap heldPath) :=
    perm_filterMap_set (getElem?_ofFn q k) (by rw [hk]; rfl) rfl
  have hw : ((w.workers.set k' (.waiting path)).filterMap Worker.path?).Perm
      (path :: w.workers.filterMap Worker.path?) :=
    perm_filterMap_set hk' rfl rfl
  refine ⟨h.before, ?_, fun x hx => ?_, ?_, ?_⟩
  · show next = if w.deadlineAborted then [] else next
    rw [hdeadline]
    rfl
  · exact (List.mem_or_eq_of_mem_set hx).elim (h.idle x) fun hx => .inr ⟨path, hx⟩
  · show ((List.ofFn (Function.update q.workers k _)).filterMap heldPath).Perm _
    rw [ofFn_update]
    exact hq.trans ((h.busy.cons path).trans hw.symm)
  · rcases h.room with hfull | hroom
    · exact .inl (List.length_set.trans hfull)
    · refine .inr ?_
      show ((w.workers.set k' _).filterMap _).length + next.length ≤ (w.workers.set k' _).length
      rw [hnext, List.length_cons] at hroom
      rw [hw.length_eq, List.length_set, List.length_cons]
      omega

/-- A worker is ready again. -/
theorem ready {k' : ℕ} (h : w.Matches q) (hk : heldPath (q.workers k) = some path)
    (hk' : w.workers[k']? = some (.waiting path)) :
    Matches (w.setWorker k' .ready) (q.setWorker k .ready) := by
  have hq : ((List.ofFn q.workers).filterMap heldPath).Perm
      (path :: ((List.ofFn q.workers).set k .ready).filterMap heldPath) :=
    perm_filterMap_set_none (getElem?_ofFn q k) hk rfl
  have hw : (w.workers.filterMap Worker.path?).Perm
      (path :: (w.workers.set k' .ready).filterMap Worker.path?) :=
    perm_filterMap_set_none hk' rfl rfl
  refine ⟨h.before, h.pending, fun x hx => ?_, ?_, ?_⟩
  · exact (List.mem_or_eq_of_mem_set hx).elim (h.idle x) fun hx => .inl hx
  · show ((List.ofFn (Function.update q.workers k _)).filterMap heldPath).Perm _
    rw [ofFn_update]
    exact (hq.symm.trans (h.busy.trans hw)).cons_inv
  · rcases h.room with hfull | hroom
    · exact .inl (List.length_set.trans hfull)
    · refine .inr ?_
      show ((w.workers.set k' _).filterMap _).length + w.next.length ≤ (w.workers.set k' _).length
      rw [hw.length_eq, List.length_cons] at hroom
      rw [List.length_set]
      omega

/-- The answer of the server is not seen yet. -/
theorem answered {r : Response} (h : w.Matches q) (hk : q.workers k = .waiting path) :
    w.Matches (q.setWorker k (.answered path r)) where
  before := h.before
  pending := h.pending
  idle := h.idle
  busy := by
    show ((List.ofFn (Function.update q.workers k _)).filterMap heldPath).Perm _
    rw [ofFn_update, filterMap_set_same (getElem?_ofFn q k) (by rw [hk]; rfl)]
    exact h.busy
  room := h.room

/-- The deadline has come. -/
theorem expired (h : w.Matches q) :
    Matches { w with deadlineAborted := true } { q with pending := [] } :=
  ⟨h.before, rfl, h.idle, h.busy, h.room⟩

/-- Two walks that start with the same settled paths. -/
theorem start (settled : List FilePath) (now : ℤ) (m : QblockManifest) (loaded : List FilePath) :
    (Walk.start settled now m).Matches
      ⟨Dashboard.settledBefore now, m.qblocks.filter (· ∉ settled), fun _ => .ready, loaded⟩ := by
  have hnone : (Walk.start settled now m).workers.filterMap Worker.path? = [] := by
    rw [List.filterMap_eq_nil_iff]
    intro x hx
    rw [List.eq_of_mem_replicate hx]
    rfl
  refine ⟨rfl, rfl, fun x hx => .inl (List.eq_of_mem_replicate hx), ?_, ?_⟩
  · rw [hnone]
    exact .of_eq rfl
  · rw [hnone]
    show (List.replicate _ _).length = _ ∨ 0 + (pendingOf settled m).length ≤ (List.replicate _ _).length
    rw [List.length_replicate]
    omega

end Walk.Matches

namespace Client.Matches

variable {sha256 : Sha256} {s : Client} {p p' : PollState} {i : ℕ}

/-- A walk moves on. -/
theorem setCall {call : QblockCall} {w : Walk} {q : QblockWalk} (h : s.Matches p)
    (hi : i < s.calls.length) (hwalk : call.walk = some w) (hw : w.Matches q) :
    (s.setCall i call).Matches (p.setWalk i q) where
  copies := h.copies
  settled := h.settled
  started := List.length_set.trans h.started
  walks j q' hq' := by
    rw [walks_setWalk] at hq'
    by_cases hj : j = i
    · rw [if_pos hj] at hq'
      cases hq'
      rw [hj]
      exact ⟨call, w, List.getElem?_set_self hi, hwalk, hw⟩
    · rw [if_neg hj] at hq'
      obtain ⟨call', w', hcall', hrest⟩ := h.walks j q' hq'
      exact ⟨call', w', (List.getElem?_set_ne (Ne.symm hj)).trans hcall', hrest⟩

/-- A file is stored. -/
theorem store {w : Walk} {path : FilePath} {r : Response} {before : ℚ} (h : s.Matches p)
    (hbefore : before = w.settledBefore) : (s.store w path r.file).Matches (p.store path r before) where
  copies path' := by
    show (s.qblockFiles.put path r.file).get? path' =
      (Function.update p.copies path (some r) path').map Response.file
    rw [KeyedTable.get?_put, Function.update_apply]
    split
    · rfl
    · exact h.copies path'
  settled := by
    show (if settles r.file w.settledBefore then path :: s.settledQblocks else s.settledQblocks) = _
    rw [h.settled, ← hbefore]
    rfl
  started := h.started
  walks := h.walks

/-- A walk moves on that the client does not see. -/
theorem unseen {q q' : QblockWalk} (h : s.Matches p) (hq : p.walks i = some q)
    (hw : ∀ w : Walk, w.Matches q → w.Matches q') : s.Matches (p.setWalk i q') where
  copies := h.copies
  settled := h.settled
  started := h.started
  walks j q₁ hq₁ := by
    rw [walks_setWalk] at hq₁
    by_cases hj : j = i
    · rw [if_pos hj] at hq₁
      cases hq₁
      obtain ⟨call, w, hcall, hwalk, hw'⟩ := h.walks i q hq
      exact ⟨call, w, hj ▸ hcall, hwalk, hw w hw'⟩
    · rw [if_neg hj] at hq₁
      exact h.walks j q₁ hq₁

/-- A step of a walk that stores nothing. -/
theorem walkStep {q q' : QblockWalk} (h : s.Matches p) (hq : p.walks i = some q)
    (hw : ∀ w : Walk, w.Matches q → ∃ e w', WalkStep w e w' ∧ w'.Matches q' ∧
      ∀ call, s.during call (.walk e) = s) :
    ∃ es s', History.Run Client.Step s es s' ∧ s'.Matches (p.setWalk i q') := by
  obtain ⟨call, w, hcall, hwalk, hmatch⟩ := h.walks i q hq
  obtain ⟨e, w', hstep, hmatch', hsame⟩ := hw w hmatch
  refine ⟨_, _, .snoc .nil (.call hcall (.walk hwalk hstep)), ?_⟩
  rw [hsame]
  refine h.setCall (List.getElem?_eq_some_iff.mp hcall).1 ?_ hmatch'
  cases e <;> rfl

/-- **Each step beside the server is none, one or two steps of the client.** -/
theorem step {a : PollAction} (h : s.Matches p) (hstep : PollStep sha256 p a p') :
    ∃ es s', History.Run Client.Step s es s' ∧ s'.Matches p' := by
  cases hstep with
  | write q winner rows =>
    obtain ⟨hcopies, hsettled, hwalks, hstarted⟩ := write_client sha256 p q winner rows
    refine ⟨[], s, .nil, ?_, ?_, ?_, ?_⟩
    · rw [hcopies]
      exact h.copies
    · rw [hsettled]
      exact h.settled
    · rw [hstarted]
      exact h.started
    · rw [hwalks]
      exact h.walks
  | start now paths =>
    have hbegun : (s.begin .fetchQblocks).calls[s.calls.length]? = some ⟨.fetchQblocks, none, .pending⟩ :=
      List.getElem?_concat_length
    refine ⟨_, _, .snoc (.snoc .nil (.begin s .fetchQblocks))
      (.call hbegun (.manifest rfl rfl now ⟨paths, []⟩)), h.copies, h.settled, ?_, fun j q hq => ?_⟩
    · show ((s.calls ++ _).set _ _).length = p.started + 1
      rw [List.length_set, List.length_append, h.started]
      rfl
    · show ∃ call w, ((s.calls ++ _).set s.calls.length _)[j]? = some call ∧ _
      rw [walks_start] at hq
      by_cases hj : j = p.started
      · rw [if_pos hj] at hq
        cases hq
        rw [hj, ← h.started]
        refine ⟨_, _, List.getElem?_set_self (by simp), rfl, ?_⟩
        rw [← h.settled]
        exact .start ..
      · rw [if_neg hj] at hq
        obtain ⟨call, w, hcall, hrest⟩ := h.walks j q hq
        have hlt := (List.getElem?_eq_some_iff.mp hcall).1
        refine ⟨call, w, ?_, hrest⟩
        rw [List.getElem?_set_ne (by omega), List.getElem?_append_left hlt]
        exact hcall
  | expire hq => exact h.walkStep hq fun w hw => ⟨_, _, .expire w, hw.expired, fun _ => rfl⟩
  | @take i q k path pending hq hk hpending =>
    refine h.walkStep hq fun w hw => ?_
    have hbefore := hw.pending
    rw [hpending] at hbefore
    cases hdeadline : w.deadlineAborted with
    | true =>
      rw [hdeadline] at hbefore
      cases hbefore
    | false =>
      rw [hdeadline] at hbefore
      have hnext : w.next = path :: pending := hbefore.symm
      obtain ⟨k', hk'⟩ := hw.exists_ready hk (by rw [hnext]; exact List.cons_ne_nil _ _)
      exact ⟨_, _, .take hk' hnext hdeadline, hw.take hk hk' hnext hdeadline, fun _ => rfl⟩
  | @answer i q k path file hq hk hfile =>
    have hserved : s.Matches (p.serve path q.before) := ⟨h.copies, h.settled, h.started, h.walks⟩
    exact ⟨[], s, .nil, hserved.unseen hq fun w hw => hw.answered hk⟩
  | @fail i q k hq =>
    cases hheld : heldPath (q.workers k) with
    | none =>
      refine ⟨[], s, .nil, h.unseen hq fun w hw => ?_⟩
      have hready : q.workers k = .ready := by
        cases hworker : q.workers k with
        | ready => rfl
        | waiting | answered =>
          rw [hworker] at hheld
          cases hheld
      have hself : q.setWorker k .ready = q := by
        rw [QblockWalk.setWorker, ← hready, Function.update_eq_self]
      rw [hself]
      exact hw
    | some path =>
      refine h.walkStep hq fun w hw => ?_
      obtain ⟨k', hk'⟩ := hw.exists_waiting hheld
      exact ⟨_, _, .unavailable hk', hw.ready hheld hk', fun _ => rfl⟩
  | @store i q k path r hq hk =>
    obtain ⟨call, w, hcall, hwalk, hw⟩ := h.walks i q hq
    have hheld : heldPath (q.workers k) = some path := by rw [hk]; rfl
    obtain ⟨k', hk'⟩ := hw.exists_waiting hheld
    have hmatch := hw.ready hheld hk'
    refine ⟨_, _, .snoc .nil (.call hcall (.walk hwalk (.loaded hk' r.file))), ?_⟩
    have hduring : s.during call (.walk (.loaded k' path r.file)) = s.store w path r.file := by
      unfold Client.during
      rw [hwalk]
    rw [hduring]
    exact (h.store hw.before).setCall (List.getElem?_eq_some_iff.mp hcall).1 rfl
      ⟨hmatch.before, hmatch.pending, hmatch.idle, hmatch.busy, hmatch.room⟩

end Client.Matches

/-- **What polls load beside the server, a client loads.**  For every run of the writer, the
server and the walks there is a run of a client with the same copies and settled paths, in
which each walk has the same paths in hand and before it. -/
theorem client_of_polls {sha256 : Sha256} {files : FilePath → Option Document} {as : List PollAction}
    {p : PollState} (h : History.Run (PollStep sha256) (.fresh files) as p) :
    ∃ es s, History.Run Client.Step .new es s ∧ s.Matches p := by
  induction h with
  | nil => exact ⟨[], .new, .nil, fun _ => rfl, rfl, rfl, fun i q hq => by cases hq⟩
  | snoc _ hstep ih =>
    obtain ⟨es, s, run, hmatch⟩ := ih
    obtain ⟨es', s', run', hmatch'⟩ := hmatch.step hstep
    exact ⟨es' ++ es, s', run.append run', hmatch'⟩

end QblockClient

end Dashboard

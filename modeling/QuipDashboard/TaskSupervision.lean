/-
Supervising the required tasks.

The model of `TaskSupervisor::run` in `quip-dashboard/src/lifecycle.rs`: the task set, the
`select!` between it and the stop signal, and the three timeouts of a shutdown.  A step is
one poll of what the supervisor awaits, or something that happens meanwhile: time passes, or
a task ends.

* `SupervisorRun.inv` — what the supervisor has seen, phase by phase;
* `supervisor_shutdown_order` — **close is polled only when no task runs, the result is Ok
  exactly after an orderly shutdown, and an error is the first failure that was seen.**
-/
import QuipDashboard.History

namespace Dashboard

/-! ### Tasks -/

/-- How a task of the set ends: the result of its future, or a `JoinError`. -/
inductive TaskExit where
  | returned (result : Except String Unit)
  | joinError (cancelled : Bool) (text : String)

/-- A task of the set; once it is joined it is out of the set. -/
inductive TaskStatus where
  | running
  | exited (exit : TaskExit)
  | joined (exit : TaskExit)

/-- The tasks that were spawned, in their order. -/
structure SpawnedTasks (n : ℕ) where
  id : Fin n → ℕ
  name : Fin n → String

variable {n : ℕ}

/-- `self.names.get(&id)`, where a later task with the same id has replaced the name. -/
def SpawnedTasks.lookup (tasks : SpawnedTasks n) (id : ℕ) : String :=
  ((List.finRange n).reverse.find? fun i => tasks.id i = id).elim "unknown" tasks.name

/-- The message of `failure`. -/
def SpawnedTasks.failure (tasks : SpawnedTasks n) (i : Fin n) : TaskExit → String
  | .returned (.ok ()) => "required task " ++ tasks.name i ++ " exited unexpectedly"
  | .returned (.error e) => "required task " ++ tasks.name i ++ " failed: " ++ e
  | .joinError _ text =>
    "required task " ++ tasks.lookup (tasks.id i) ++ " could not be joined: " ++ text

/-- The call of `on_exit` in `failure`. -/
def SpawnedTasks.onExit (tasks : SpawnedTasks n) (i : Fin n) (unexpected : Bool) :
    TaskExit → List String
  | .returned _ => [tasks.name i]
  | .joinError cancelled _ =>
    if unexpected || !cancelled then [tasks.lookup (tasks.id i)] else []

/-! ### The supervisor -/

/-- What the supervisor awaits.  The second phase of each pair is reached when the first was
polled and is pending. -/
inductive SupervisorPhase where
  /-- `select!`: the tasks first, then the signal. -/
  | selectTasks
  | selectSignal
  /-- `timeout_at(deadline - reserve, drain)`: the drain first, then the timer. -/
  | drain (deadline : ℕ)
  | drainTimer (deadline : ℕ)
  /-- `timeout_at(deadline, ..)` once the tasks were aborted. -/
  | abort (deadline : ℕ)
  | abortTimer (deadline : ℕ)
  /-- `timeout_at(deadline, close)`. -/
  | close (deadline : ℕ)
  | closeTimer (deadline : ℕ)
  | returned (result : Except String Unit)

/-- A supervisor in its `run`. -/
structure TaskSupervisor (n : ℕ) where
  status : Fin n → TaskStatus
  now : ℕ
  phase : SupervisorPhase
  failure : Option String
  cancelled : Bool
  aborted : Bool
  /-- The names that `on_exit` was called with. -/
  exits : List String
  closePolled : Bool

/-- `run` is called. -/
def TaskSupervisor.start (n now : ℕ) : TaskSupervisor n :=
  ⟨fun _ => .running, now, .selectTasks, none, false, false, [], false⟩

/-- What the supervisor sees, and when. -/
inductive Observation (n : ℕ) where
  | stopped (now : ℕ) (task : Fin n) (exit : TaskExit)
  | signalled (now : ℕ) (result : Except String Unit)
  | exited (task : Fin n) (exit : TaskExit)
  | drained
  | drainElapsed (now : ℕ)
  | abortElapsed (now : ℕ)
  | closed (result : Except String Unit)
  | closeElapsed (now : ℕ)

/-- `Result::err`. -/
def resultErr : Except String Unit → Option String
  | .ok () => none
  | .error e => some e

/-- The failure in what was seen: its message. -/
def Observation.failure (tasks : SpawnedTasks n) : Observation n → Option String
  | .stopped _ i exit => some (tasks.failure i exit)
  | .signalled _ result => resultErr result
  | .exited _ (.returned (.ok ())) => none
  | .exited i exit => some (tasks.failure i exit)
  | .drained => none
  | .drainElapsed _ => some "required task drain exceeded shutdown deadline"
  | .abortElapsed _ => some "task abort timed out"
  | .closed result => (resultErr result).map ("store close: " ++ ·)
  | .closeElapsed _ => some "store close exceeded shutdown deadline"

/-- What happens: time passes, a task ends, a poll is pending, or the supervisor sees
something. A task that is joined after the abort is not looked at. -/
inductive SupervisorEvent (n : ℕ) where
  | tick (duration : ℕ)
  | exits (task : Fin n) (exit : TaskExit)
  | pending
  | discarded (task : Fin n)
  | sees (observation : Observation n)

/-- `self.tasks.join_next()` returns this task. -/
def TaskSupervisor.join (σ : TaskSupervisor n) (i : Fin n) (exit : TaskExit) : TaskSupervisor n :=
  { σ with status := Function.update σ.status i (.joined exit) }

/-- After the `select!`: cancel the tasks and set the deadline. -/
def TaskSupervisor.shutDown (σ : TaskSupervisor n) (budget : ℕ) (failure : Option String) :
    TaskSupervisor n :=
  { σ with failure := failure, cancelled := true, phase := .drain (σ.now + budget) }

/-- `failure.get_or_insert` of what may be a failure. -/
def TaskSupervisor.note (σ : TaskSupervisor n) (message : Option String) : TaskSupervisor n :=
  { σ with failure := σ.failure.or message }

/-- The body of the loop of the drain. -/
def TaskSupervisor.drains (σ : TaskSupervisor n) (tasks : SpawnedTasks n) (i : Fin n) :
    TaskExit → TaskSupervisor n
  | .returned (.ok ()) => σ.join i (.returned (.ok ()))
  | exit => { σ.join i exit with exits := σ.exits ++ tasks.onExit i false exit }.note
    (some (tasks.failure i exit))

/-- The result that a failure makes. -/
def shutdownResult : Option String → Except String Unit
  | none => .ok ()
  | some e => .error e

/-- The time that the abort and the close keep of the budget, in nanoseconds. -/
def reserve (budget : ℕ) : ℕ := min (budget / 4) 2000000000

/-- No task of the set has ended. -/
def TaskSupervisor.NoExit (σ : TaskSupervisor n) : Prop := ∀ i exit, σ.status i ≠ .exited exit

/-- The set is empty. -/
def TaskSupervisor.Empty (σ : TaskSupervisor n) : Prop := ∀ i, ∃ exit, σ.status i = .joined exit

/-- One poll, or one thing that happens meanwhile. -/
inductive SupervisorStep (tasks : SpawnedTasks n) (budget : ℕ) :
    TaskSupervisor n → SupervisorEvent n → TaskSupervisor n → Prop
  | tick {σ : TaskSupervisor n} (duration : ℕ) :
      SupervisorStep tasks budget σ (.tick duration) { σ with now := σ.now + duration }
  | exits {σ : TaskSupervisor n} {i : Fin n} (exit : TaskExit) (h : σ.status i = .running) :
      SupervisorStep tasks budget σ (.exits i exit)
        { σ with status := Function.update σ.status i (.exited exit) }
  -- the select
  | stopped {σ : TaskSupervisor n} {i : Fin n} {exit : TaskExit} (hp : σ.phase = .selectTasks)
      (h : σ.status i = .exited exit) :
      SupervisorStep tasks budget σ (.sees (.stopped σ.now i exit))
        ({ σ.join i exit with exits := σ.exits ++ tasks.onExit i true exit }.shutDown budget
          (some (tasks.failure i exit)))
  | tasksPending {σ : TaskSupervisor n} (hp : σ.phase = .selectTasks) (h : σ.NoExit) :
      SupervisorStep tasks budget σ .pending { σ with phase := .selectSignal }
  | signalled {σ : TaskSupervisor n} (result : Except String Unit) (hp : σ.phase = .selectSignal) :
      SupervisorStep tasks budget σ (.sees (.signalled σ.now result))
        (σ.shutDown budget (resultErr result))
  | signalPending {σ : TaskSupervisor n} (hp : σ.phase = .selectSignal) :
      SupervisorStep tasks budget σ .pending { σ with phase := .selectTasks }
  -- the drain
  | exited {σ : TaskSupervisor n} {i : Fin n} {exit : TaskExit} {deadline : ℕ}
      (hp : σ.phase = .drain deadline) (h : σ.status i = .exited exit) :
      SupervisorStep tasks budget σ (.sees (.exited i exit))
        (σ.drains tasks i exit)
  | drained {σ : TaskSupervisor n} {deadline : ℕ} (hp : σ.phase = .drain deadline)
      (h : σ.Empty) :
      SupervisorStep tasks budget σ (.sees .drained) { σ with phase := .close deadline }
  | drainPending {σ : TaskSupervisor n} {deadline : ℕ} (hp : σ.phase = .drain deadline)
      (h : σ.NoExit) (hrunning : ¬σ.Empty) :
      SupervisorStep tasks budget σ .pending { σ with phase := .drainTimer deadline }
  | drainElapsed {σ : TaskSupervisor n} {deadline : ℕ} (hp : σ.phase = .drainTimer deadline)
      (h : deadline - reserve budget ≤ σ.now) :
      SupervisorStep tasks budget σ (.sees (.drainElapsed σ.now))
        ({ σ with aborted := true, phase := .abort deadline }.note
          (some "required task drain exceeded shutdown deadline"))
  | drainWaits {σ : TaskSupervisor n} {deadline : ℕ} (hp : σ.phase = .drainTimer deadline)
      (h : σ.now < deadline - reserve budget) :
      SupervisorStep tasks budget σ .pending { σ with phase := .drain deadline }
  -- the abort
  | discarded {σ : TaskSupervisor n} {i : Fin n} {exit : TaskExit} {deadline : ℕ}
      (hp : σ.phase = .abort deadline) (h : σ.status i = .exited exit) :
      SupervisorStep tasks budget σ (.discarded i) (σ.join i exit)
  | aborted {σ : TaskSupervisor n} {deadline : ℕ} (hp : σ.phase = .abort deadline)
      (h : σ.Empty) :
      SupervisorStep tasks budget σ .pending { σ with phase := .close deadline }
  | abortPending {σ : TaskSupervisor n} {deadline : ℕ} (hp : σ.phase = .abort deadline)
      (h : σ.NoExit) (hrunning : ¬σ.Empty) :
      SupervisorStep tasks budget σ .pending { σ with phase := .abortTimer deadline }
  | abortElapsed {σ : TaskSupervisor n} {deadline : ℕ} (hp : σ.phase = .abortTimer deadline)
      (h : deadline ≤ σ.now) :
      SupervisorStep tasks budget σ (.sees (.abortElapsed σ.now))
        { σ with phase := .returned (.error (σ.failure.getD "task abort timed out")) }
  | abortWaits {σ : TaskSupervisor n} {deadline : ℕ} (hp : σ.phase = .abortTimer deadline)
      (h : σ.now < deadline) :
      SupervisorStep tasks budget σ .pending { σ with phase := .abort deadline }
  -- the close
  | closed {σ : TaskSupervisor n} {deadline : ℕ} (result : Except String Unit)
      (hp : σ.phase = .close deadline) :
      SupervisorStep tasks budget σ (.sees (.closed result))
        (let σ := { σ with closePolled := true }.note
          ((resultErr result).map ("store close: " ++ ·))
        { σ with phase := .returned (shutdownResult σ.failure) })
  | closePending {σ : TaskSupervisor n} {deadline : ℕ} (hp : σ.phase = .close deadline) :
      SupervisorStep tasks budget σ .pending
        { σ with closePolled := true, phase := .closeTimer deadline }
  | closeElapsed {σ : TaskSupervisor n} {deadline : ℕ} (hp : σ.phase = .closeTimer deadline)
      (h : deadline ≤ σ.now) :
      SupervisorStep tasks budget σ (.sees (.closeElapsed σ.now))
        (let σ := σ.note (some "store close exceeded shutdown deadline")
        { σ with phase := .returned (shutdownResult σ.failure) })
  | closeWaits {σ : TaskSupervisor n} {deadline : ℕ} (hp : σ.phase = .closeTimer deadline)
      (h : σ.now < deadline) :
      SupervisorStep tasks budget σ .pending { σ with phase := .close deadline }

/-- A run of the supervisor, with its events, latest first. -/
def SupervisorRun (tasks : SpawnedTasks n) (budget now : ℕ) :
    List (SupervisorEvent n) → TaskSupervisor n → Prop :=
  History.Run (SupervisorStep tasks budget) (.start n now)

/-- The observation of an event. -/
def SupervisorEvent.observed : SupervisorEvent n → Option (Observation n)
  | .sees o => some o
  | _ => none

/-- What was seen, in its order. -/
def observations (es : List (SupervisorEvent n)) : List (Observation n) :=
  es.reverse.filterMap SupervisorEvent.observed

theorem observations_cons (e : SupervisorEvent n) (es : List (SupervisorEvent n)) :
    observations (e :: es) = observations es ++ e.observed.toList := by
  rw [observations, List.reverse_cons, List.filterMap_append]
  cases h : e.observed <;> simp [observations, h]

/-! ### What was seen in each phase -/

/-- The observation ends the `select!`, at this time. -/
def Observation.Stops (now : ℕ) : Observation n → Prop
  | .stopped t _ _ => t = now
  | .signalled t _ => t = now
  | _ => False

/-- The end of a task in the drain. -/
def Observation.IsExit : Observation n → Prop
  | .exited _ _ => True
  | _ => False

/-- A stop and then the ends of tasks. -/
def Drains (start : ℕ) (seen : List (Observation n)) : Prop :=
  ∃ stop exits, stop.Stops start ∧ (∀ o ∈ exits, Observation.IsExit o) ∧ seen = stop :: exits

/-- The end of the drain: in time, or late. -/
def Observation.EndsDrain (budget start : ℕ) : Observation n → Prop
  | .drained => True
  | .drainElapsed t => start + budget - reserve budget ≤ t
  | _ => False

/-- The end of the close, or of an abort that took too long. -/
def Observation.Ends (budget start : ℕ) : Observation n → Prop
  | .closed _ => True
  | .closeElapsed t | .abortElapsed t => start + budget ≤ t
  | _ => False

/-- What was seen when the supervisor is in a phase. -/
def SupervisorPhase.Seen (budget : ℕ) (seen : List (Observation n)) : SupervisorPhase → Prop
  | .selectTasks | .selectSignal => seen = []
  | .drain deadline | .drainTimer deadline =>
    ∃ start, deadline = start + budget ∧ Drains start seen
  | .abort deadline | .abortTimer deadline =>
    ∃ start drain t, deadline = start + budget ∧ Drains start drain ∧
      start + budget - reserve budget ≤ t ∧ seen = drain ++ [.drainElapsed t]
  | .close deadline | .closeTimer deadline =>
    ∃ start drain ended, deadline = start + budget ∧ Drains start drain ∧
      Observation.EndsDrain budget start ended ∧ seen = drain ++ [ended]
  | .returned _ =>
    ∃ start drain ended last, Drains start drain ∧ Observation.EndsDrain budget start ended ∧
      Observation.Ends budget start last ∧ seen = drain ++ [ended, last]

/-- What the supervisor makes of what it has seen so far. -/
def SupervisorPhase.Reports (failure : Option String) (first : Option String) :
    SupervisorPhase → Prop
  | .returned result => result = shutdownResult first
  | _ => failure = first

/-- The close may be polled, or has succeeded. -/
def SupervisorPhase.Closes : SupervisorPhase → Prop
  | .close _ | .closeTimer _ | .returned (.ok ()) => True
  | _ => False

/-- What was seen of the tasks that are out of the set, until an abort discards some. -/
structure Tracks (status : Fin n → TaskStatus) (seen : List (Observation n)) : Prop where
  joined : ∀ i exit, status i = .joined exit → (∀ t, .drainElapsed t ∉ seen) →
    (∃ t, .stopped t i exit ∈ seen) ∨ .exited i exit ∈ seen
  seen : ∀ i exit, .exited i exit ∈ seen → status i = .joined exit

/-- What holds of a supervisor and what it has seen. -/
structure TaskSupervisor.Inv (tasks : SpawnedTasks n) (budget : ℕ) (σ : TaskSupervisor n)
    (seen : List (Observation n)) : Prop where
  phase : σ.phase.Seen budget seen
  reports : σ.phase.Reports σ.failure (seen.findSome? (Observation.failure tasks))
  closing : σ.phase.Closes ∨ σ.closePolled = true → σ.Empty
  tracks : Tracks σ.status seen

section

variable {status : Fin n → TaskStatus} {seen : List (Observation n)} {i : Fin n} {exit : TaskExit}

theorem Tracks.append (h : Tracks status seen) {o : Observation n}
    (ho : ∀ i exit, o ≠ .exited i exit) : Tracks status (seen ++ [o]) := by
  refine ⟨fun i exit hi hnone => ?_, fun i exit hseen => ?_⟩
  · have hnone : ∀ t, .drainElapsed t ∉ seen := fun t ht => hnone t (List.mem_append_left _ ht)
    rcases h.joined i exit hi hnone with ⟨t, ht⟩ | hexit
    · exact .inl ⟨t, List.mem_append_left _ ht⟩
    · exact .inr (List.mem_append_left _ hexit)
  · rcases List.mem_append.mp hseen with hseen | hseen
    · exact h.seen i exit hseen
    · exact absurd (List.mem_singleton.mp hseen).symm (ho i exit)

theorem Tracks.exits (h : Tracks status seen) (hi : status i = .running) :
    Tracks (Function.update status i (.exited exit)) seen := by
  refine ⟨fun j e hj hnone => ?_, fun j e hseen => ?_⟩
  · rw [Function.update_apply] at hj
    split at hj
    · cases hj
    · exact h.joined j e hj hnone
  · have hj := h.seen j e hseen
    rw [Function.update_of_ne, hj]
    rintro rfl
    rw [hi] at hj
    cases hj

/-- A task that is joined was in the set. -/
theorem Tracks.update (h : Tracks status seen) (hi : status i = .exited exit) :
    ∀ j e, .exited j e ∈ seen → Function.update status i (.joined exit) j = .joined e := by
  intro j e hseen
  have hj := h.seen j e hseen
  rw [Function.update_of_ne, hj]
  rintro rfl
  rw [hi] at hj
  cases hj

theorem Tracks.join (h : Tracks status seen) (hi : status i = .exited exit) {o : Observation n}
    (ho : o = .exited i exit ∨ ∃ t, o = .stopped t i exit) :
    Tracks (Function.update status i (.joined exit)) (seen ++ [o]) := by
  refine ⟨fun j e hj hnone => ?_, fun j e hseen => ?_⟩
  · rw [Function.update_apply] at hj
    split at hj
    · rename_i hji
      cases hj
      rw [hji]
      rcases ho with rfl | ⟨t, rfl⟩
      · exact .inr (List.mem_append_right _ (List.mem_singleton_self _))
      · exact .inl ⟨t, List.mem_append_right _ (List.mem_singleton_self _)⟩
    · have hnone : ∀ t, .drainElapsed t ∉ seen := fun t ht => hnone t (List.mem_append_left _ ht)
      rcases h.joined j e hj hnone with ⟨t, ht⟩ | hexit
      · exact .inl ⟨t, List.mem_append_left _ ht⟩
      · exact .inr (List.mem_append_left _ hexit)
  · rcases List.mem_append.mp hseen with hseen | hseen
    · exact h.update hi j e hseen
    · rcases ho with rfl | ⟨t, rfl⟩
      · cases List.mem_singleton.mp hseen
        exact Function.update_self ..
      · cases List.mem_singleton.mp hseen

/-- What is joined after the drain was given up need not be seen. -/
theorem Tracks.discard (h : Tracks status seen) (hi : status i = .exited exit) {t : ℕ}
    (ht : .drainElapsed t ∈ seen) : Tracks (Function.update status i (.joined exit)) seen :=
  ⟨fun _ _ _ hnone => absurd ht (hnone t), h.update hi⟩

variable {σ : TaskSupervisor n}

theorem TaskSupervisor.Empty.not_exited (h : σ.Empty) : σ.status i ≠ .exited exit := by
  intro hi
  obtain ⟨e, he⟩ := h i
  rw [hi] at he
  cases he

theorem TaskSupervisor.Empty.not_running (h : σ.Empty) : σ.status i ≠ .running := by
  intro hi
  obtain ⟨e, he⟩ := h i
  rw [hi] at he
  cases he

variable {tasks : SpawnedTasks n} {budget : ℕ}

/-- A poll that is pending moves on to the next phase. -/
theorem TaskSupervisor.Inv.move (h : σ.Inv tasks budget seen) (phase : SupervisorPhase)
    (hphase : phase.Seen budget seen)
    (hreports : phase.Reports σ.failure (seen.findSome? (Observation.failure tasks)))
    (hcloses : phase.Closes → σ.Empty) :
    ({ σ with phase := phase } : TaskSupervisor n).Inv tasks budget seen :=
  ⟨hphase, hreports, Or.rec hcloses fun hc => h.closing (.inr hc), h.tracks⟩

/-- What is seen is the failure, when it is the first one. -/
theorem findSome?_snoc (o : Observation n) :
    (seen ++ [o]).findSome? (Observation.failure tasks) =
      (seen.findSome? (Observation.failure tasks)).or (o.failure tasks) := by
  rw [List.findSome?_append]
  cases h : o.failure tasks <;> simp [h]

theorem Drains.snoc {start : ℕ} (h : Drains start seen) {o : Observation n} (ho : o.IsExit) :
    Drains start (seen ++ [o]) := by
  obtain ⟨stop, exits, hstop, hexits, rfl⟩ := h
  refine ⟨stop, exits ++ [o], hstop, fun o' ho' => ?_, rfl⟩
  rcases List.mem_append.mp ho' with ho' | ho'
  · exact hexits o' ho'
  · rw [List.mem_singleton.mp ho']
    exact ho

/-- A task whose end the drain sees. -/
theorem TaskSupervisor.Inv.exited (hσ : σ.Inv tasks budget seen) {deadline : ℕ}
    (hp : σ.phase = .drain deadline) (hi : σ.status i = .exited exit) {failure : Option String}
    (hfailure : failure = σ.failure.or ((Observation.exited i exit).failure tasks))
    (exits : List String) :
    ({ σ.join i exit with failure := failure, exits := exits } : TaskSupervisor n).Inv tasks budget
      (seen ++ [.exited i exit]) := by
  have hphase := hσ.phase
  have hreports := hσ.reports
  rw [hp] at hphase hreports
  obtain ⟨start, hstart, hdrain⟩ := hphase
  refine ⟨?_, ?_, fun hc => absurd hi (hσ.closing hc).not_exited, hσ.tracks.join hi (.inl rfl)⟩
  · show σ.phase.Seen budget _
    rw [hp]
    exact ⟨start, hstart, hdrain.snoc trivial⟩
  · show σ.phase.Reports failure _
    rw [hp, findSome?_snoc, hfailure, show σ.failure = _ from hreports]
    rfl

/-- The supervisor returns what it has seen. -/
theorem TaskSupervisor.Inv.returns (hσ : σ.Inv tasks budget seen) {start : ℕ}
    {drain : List (Observation n)} {ended : Observation n} (hdrain : Drains start drain)
    (hended : Observation.EndsDrain budget start ended) (hseen : seen = drain ++ [ended])
    {o : Observation n} (ho : Observation.Ends budget start o) {result : Except String Unit}
    (hresult : result = shutdownResult (σ.failure.or (o.failure tasks)))
    (hfailure : σ.failure = seen.findSome? (Observation.failure tasks)) {polled : Bool}
    (hcloses : (SupervisorPhase.returned result).Closes ∨ polled = true → σ.Empty)
    (failure : Option String) :
    ({ σ with closePolled := polled, failure := failure, phase := .returned result } :
      TaskSupervisor n).Inv tasks budget (seen ++ [o]) := by
  refine ⟨⟨start, drain, ended, o, hdrain, hended, ho, ?_⟩, ?_, hcloses, hσ.tracks.append ?_⟩
  · rw [hseen, List.append_assoc]
    rfl
  · show result = _
    rw [findSome?_snoc, ← hfailure]
    exact hresult
  · rintro i exit rfl
    exact ho

/-- **What holds before a step holds after it**, of what was seen by then. -/
theorem SupervisorStep.inv {σ' : TaskSupervisor n} {e : SupervisorEvent n}
    (h : SupervisorStep tasks budget σ e σ') (hσ : σ.Inv tasks budget seen) :
    σ'.Inv tasks budget (seen ++ e.observed.toList) := by
  -- most steps show nothing
  have quiet : ∀ {τ : TaskSupervisor n}, τ.Inv tasks budget seen →
      τ.Inv tasks budget (seen ++ []) := by
    intro τ h
    rwa [List.append_nil]
  have hphase := hσ.phase
  have hreports := hσ.reports
  cases h with
  | tick => exact quiet ⟨hσ.phase, hσ.reports, hσ.closing, hσ.tracks⟩
  | exits exit hi =>
    exact quiet ⟨hσ.phase, hσ.reports, fun hc => absurd hi (hσ.closing hc).not_running,
      hσ.tracks.exits hi⟩
  -- the first report ends the running phase, and nothing was seen before it
  | @stopped i exit hp hi =>
    rw [hp] at hphase
    obtain rfl : seen = [] := hphase
    exact ⟨⟨σ.now, rfl, .stopped σ.now i exit, [], rfl, fun o ho => (by cases ho), rfl⟩, rfl,
      Or.rec False.elim fun hc => absurd hi (hσ.closing (.inr hc)).not_exited,
      hσ.tracks.join hi (.inr ⟨_, rfl⟩)⟩
  | tasksPending hp | signalPending hp | drainPending hp | drainWaits hp | abortPending hp
  | abortWaits hp =>
    rw [hp] at hphase hreports
    exact quiet (hσ.move _ hphase hreports False.elim)
  | signalled result hp =>
    rw [hp] at hphase
    obtain rfl : seen = [] := hphase
    refine ⟨⟨σ.now, rfl, .signalled σ.now result, [], rfl, fun o ho => (by cases ho), rfl⟩, ?_,
      Or.rec False.elim fun hc => hσ.closing (.inr hc), hσ.tracks.append fun i exit => (by simp)⟩
    show resultErr result = _
    cases result <;> rfl
  | @exited i exit deadline hp hi =>
    match exit with
    | .returned (.ok ()) => exact hσ.exited hp hi (Option.or_none).symm _
    | .returned (.error e) => exact hσ.exited hp hi rfl _
    | .joinError cancelled text => exact hσ.exited hp hi rfl _
  | drained hp hempty =>
    rw [hp] at hphase hreports
    obtain ⟨start, hstart, hdrain⟩ := hphase
    refine ⟨⟨start, seen, .drained, hstart, hdrain, trivial, rfl⟩, ?_, fun _ => hempty,
      hσ.tracks.append fun i exit => (by simp)⟩
    show σ.failure = (seen ++ [Observation.drained]).findSome? _
    rw [findSome?_snoc, ← show σ.failure = _ from hreports]
    exact (Option.or_none).symm
  | @drainElapsed deadline hp ht =>
    rw [hp] at hphase hreports
    obtain ⟨start, rfl, hdrain⟩ := hphase
    refine ⟨⟨start, seen, σ.now, rfl, hdrain, ht, rfl⟩, ?_,
      Or.rec False.elim fun hc => hσ.closing (.inr hc), hσ.tracks.append fun i exit => (by simp)⟩
    show σ.failure.or _ = (seen ++ [Observation.drainElapsed σ.now]).findSome? _
    rw [findSome?_snoc, ← show σ.failure = _ from hreports]
    rfl
  | discarded hp hi =>
    rw [hp] at hphase
    obtain ⟨start, drain, t, -, -, -, rfl⟩ := hphase
    exact quiet ⟨hσ.phase, hσ.reports, fun hc => absurd hi (hσ.closing hc).not_exited,
      hσ.tracks.discard hi (List.mem_append_right _ (List.mem_singleton_self _))⟩
  | aborted hp hempty =>
    rw [hp] at hphase hreports
    obtain ⟨start, drain, t, hstart, hdrain, ht, hseen⟩ := hphase
    exact quiet (hσ.move (.close _) ⟨start, drain, .drainElapsed t, hstart, hdrain, ht, hseen⟩
      hreports fun _ => hempty)
  -- the last report decides the result, together with an earlier failure
  | @abortElapsed deadline hp ht =>
    rw [hp] at hphase hreports
    obtain ⟨start, drain, t, rfl, hdrain, hlate, hseen⟩ := hphase
    refine hσ.returns (o := .abortElapsed σ.now) hdrain
      (show Observation.EndsDrain budget start (.drainElapsed t) from hlate) hseen ht
      ?_ hreports (Or.rec False.elim fun hc => hσ.closing (.inr hc)) _
    show Except.error _ = shutdownResult (σ.failure.or (some "task abort timed out"))
    cases σ.failure <;> rfl
  | @closed deadline result hp =>
    have hempty : σ.Empty := hσ.closing (.inl (by rw [hp]; trivial))
    rw [hp] at hphase hreports
    obtain ⟨start, drain, ended, rfl, hdrain, hended, hseen⟩ := hphase
    exact hσ.returns (o := .closed result) hdrain hended hseen trivial rfl hreports
      (fun _ => hempty) _
  | closePending hp =>
    have hempty : σ.Empty := hσ.closing (.inl (by rw [hp]; trivial))
    rw [hp] at hphase hreports
    exact quiet ⟨hphase, hreports, fun _ => hempty, hσ.tracks⟩
  | @closeElapsed deadline hp ht =>
    have hempty : σ.Empty := hσ.closing (.inl (by rw [hp]; trivial))
    rw [hp] at hphase hreports
    obtain ⟨start, drain, ended, rfl, hdrain, hended, hseen⟩ := hphase
    exact hσ.returns (o := .closeElapsed σ.now) hdrain hended hseen ht rfl hreports
      (fun _ => hempty) _
  | closeWaits hp =>
    have hempty : σ.Empty := hσ.closing (.inl (by rw [hp]; trivial))
    rw [hp] at hphase hreports
    exact quiet (hσ.move _ hphase hreports fun _ => hempty)

end

/-! ### Runs -/

variable {tasks : SpawnedTasks n} {budget now : ℕ} {es : List (SupervisorEvent n)}
  {σ : TaskSupervisor n}

theorem SupervisorRun.inv (h : SupervisorRun tasks budget now es σ) :
    σ.Inv tasks budget (observations es) := by
  induction h with
  | nil =>
    refine ⟨rfl, rfl, ?_, ⟨?_, ?_⟩⟩
    · rintro (hc | hc)
      · exact hc.elim
      · cases hc
    · intro i exit hi
      cases hi
    · intro i exit hi
      cases hi
  | snoc _ hs ih =>
    rw [observations_cons]
    exact hs.inv ih

/-- An exit without a failure is an orderly one. -/
theorem exited_failure {i : Fin n} {exit : TaskExit} :
    (Observation.exited i exit).failure tasks = none ↔ exit = .returned (.ok ()) := by
  match exit with
  | .returned (.ok ()) => exact ⟨fun _ => rfl, fun _ => rfl⟩
  | .returned (.error e) => exact ⟨fun h => (by cases h), fun h => (by cases h)⟩
  | .joinError cancelled text => exact ⟨fun h => (by cases h), fun h => (by cases h)⟩

theorem shutdownResult_ok {failure : Option String} :
    shutdownResult failure = .ok () ↔ failure = none := by
  cases failure with
  | none => exact ⟨fun _ => rfl, fun _ => rfl⟩
  | some e => exact ⟨fun h => (by cases h), fun h => (by cases h)⟩

theorem shutdownResult_error {failure : Option String} {message : String} :
    shutdownResult failure = .error message ↔ failure = some message := by
  cases failure with
  | none => exact ⟨fun h => (by cases h), fun h => (by cases h)⟩
  | some e => exact ⟨fun h => congrArg some (Except.error.inj h), fun h => by cases h; rfl⟩

/-- The stop, the end of the drain and the end of the close, in what was seen by the time
that the supervisor returns. -/
structure Shutdown (budget start : ℕ) (seen : List (Observation n)) (stop : Observation n)
    (exits : List (Observation n)) (ended last : Observation n) : Prop where
  seen : seen = stop :: exits ++ [ended, last]
  stop : stop.Stops start
  exits : ∀ o ∈ exits, Observation.IsExit o
  ended : ended.EndsDrain budget start
  last : last.Ends budget start

section

variable {start : ℕ} {seen exits : List (Observation n)} {stop ended last : Observation n}

theorem Shutdown.mem (h : Shutdown budget start seen stop exits ended last) {o : Observation n} :
    o ∈ seen ↔ o = stop ∨ o ∈ exits ∨ o = ended ∨ o = last := by
  rw [h.seen]
  simp

theorem Shutdown.failure (h : Shutdown budget start seen stop exits ended last) :
    seen.findSome? (Observation.failure tasks) = none ↔
      stop.failure tasks = none ∧ (∀ o ∈ exits, Observation.failure tasks o = none) ∧
        ended.failure tasks = none ∧ last.failure tasks = none := by
  rw [List.findSome?_eq_none_iff, h.seen]
  simp [or_imp, forall_and]

/-- A shutdown without a failure. -/
structure Orderly (σ : TaskSupervisor n) (seen : List (Observation n)) : Prop where
  signalled : ∃ t, .signalled t (.ok ()) ∈ seen
  exits : ∀ i, σ.status i = .joined (.returned (.ok ()))
  drained : .drained ∈ seen
  closed : .closed (.ok ()) ∈ seen

/-- What was seen of an orderly shutdown. -/
theorem Shutdown.orderly (h : Shutdown budget start seen stop exits ended last)
    (ho : Orderly σ seen) (htracks : Tracks σ.status seen) :
    seen.findSome? (Observation.failure tasks) = none := by
  obtain ⟨t, hsignal⟩ := ho.signalled
  have hstop := h.stop
  have hended := h.ended
  have hlast := h.last
  refine h.failure.mpr ⟨?_, fun o hexit => ?_, ?_, ?_⟩
  · rcases h.mem.mp hsignal with rfl | hexit | rfl | rfl
    · rfl
    · exact (h.exits _ hexit).elim
    · exact hended.elim
    · exact hlast.elim
  · have hisExit := h.exits o hexit
    cases o with
    | exited i exit =>
      have hjoined := htracks.seen i exit (h.mem.mpr (.inr (.inl hexit)))
      rw [ho.exits i] at hjoined
      cases hjoined
      rfl
    | _ => exact hisExit.elim
  · rcases h.mem.mp ho.drained with rfl | hexit | rfl | rfl
    · exact hstop.elim
    · exact (h.exits _ hexit).elim
    · rfl
    · exact hlast.elim
  · rcases h.mem.mp ho.closed with rfl | hexit | rfl | rfl
    · exact hstop.elim
    · exact (h.exits _ hexit).elim
    · exact hended.elim
    · rfl

/-- **Without a failure the shutdown was orderly.** -/
theorem Shutdown.ok (h : Shutdown budget start seen stop exits ended last) (hempty : σ.Empty)
    (htracks : Tracks σ.status seen)
    (hnone : seen.findSome? (Observation.failure tasks) = none) : Orderly σ seen := by
  obtain ⟨hstop, hexits, hended, hlast⟩ := h.failure.mp hnone
  have hstops := h.stop
  have hends := h.ended
  have hcloses := h.last
  refine ⟨?_, fun i => ?_, ?_, ?_⟩
  · cases stop with
    | signalled t result =>
      match result with
      | .ok () => exact ⟨t, h.mem.mpr (.inl rfl)⟩
      | .error e => cases hstop
    | stopped t i exit => cases hstop
    | _ => exact hstops.elim
  · obtain ⟨exit, hjoined⟩ := hempty i
    rw [hjoined]
    -- the drain was not given up, so the end of the task was seen
    have hdrain : ∀ t, .drainElapsed t ∉ seen := by
      intro t ht
      rcases h.mem.mp ht with rfl | hexit | rfl | rfl
      · exact hstops.elim
      · exact (h.exits _ hexit).elim
      · cases hended
      · exact hcloses.elim
    have hall := List.findSome?_eq_none_iff.mp hnone
    rcases htracks.joined i exit hjoined hdrain with ⟨t, ht⟩ | hexit
    · cases hall _ ht
    · rw [exited_failure.mp (hall _ hexit)]
  · cases ended with
    | drained => exact h.mem.mpr (.inr (.inr (.inl rfl)))
    | drainElapsed t => cases hended
    | _ => exact hends.elim
  · cases last with
    | closed result =>
      match result with
      | .ok () => exact h.mem.mpr (.inr (.inr (.inr rfl)))
      | .error e => cases hlast
    | closeElapsed t | abortElapsed t => cases hlast
    | _ => exact hcloses.elim

end

/-- **The order of a shutdown.**  Close is polled only when every task is out of the set.
The result is Ok exactly when the signal came without error, no task failed, the drain ended
in time and close succeeded in time; else it is the first failure that was seen.  A timeout
is seen no earlier than its deadline, counted from the stop. -/
theorem supervisor_shutdown_order (h : SupervisorRun tasks budget now es σ) :
    (σ.closePolled = true → ∀ i, ∃ exit, σ.status i = .joined exit) ∧
    ∀ result, σ.phase = .returned result →
      (result = .ok () ↔ (∃ t, .signalled t (.ok ()) ∈ observations es) ∧
        (∀ i, σ.status i = .joined (.returned (.ok ()))) ∧
        .drained ∈ observations es ∧ .closed (.ok ()) ∈ observations es) ∧
      (∀ message, result = .error message →
        (observations es).findSome? (Observation.failure tasks) = some message) ∧
      ∃ start stop, stop ∈ observations es ∧ Observation.Stops start stop ∧
        (∀ t, .drainElapsed t ∈ observations es → start + budget - reserve budget ≤ t) ∧
        ∀ t, .closeElapsed t ∈ observations es ∨ .abortElapsed t ∈ observations es →
          start + budget ≤ t := by
  have hinv := h.inv
  refine ⟨fun hpolled => hinv.closing (.inr hpolled), fun result hresult => ?_⟩
  have hphase := hinv.phase
  have hreports := hinv.reports
  have hclosing := hinv.closing
  rw [hresult] at hphase hreports hclosing
  -- what was seen: the stop, the exits, the end of the drain, the last report
  obtain ⟨start, drain, ended, last, ⟨stop, exits, hstop, hexits, rfl⟩, hended, hlast, hseen⟩ :=
    hphase
  have hshutdown : Shutdown budget start (observations es) stop exits ended last :=
    ⟨hseen, hstop, hexits, hended, hlast⟩
  have hreports : result = shutdownResult _ := hreports
  refine ⟨⟨fun hok => ?_, fun ⟨hsignal, hall, hdrained, hclosed⟩ => ?_⟩, fun message herr => ?_,
    start, stop, hshutdown.mem.mpr (.inl rfl), hstop, fun t ht => ?_, fun t ht => ?_⟩
  · obtain ⟨hsignal, hall, hdrained, hclosed⟩ := hshutdown.ok
      (hclosing (.inl (by rw [hok]; trivial))) hinv.tracks
      (shutdownResult_ok.mp (hreports.symm.trans hok))
    exact ⟨hsignal, hall, hdrained, hclosed⟩
  · rw [hreports, hshutdown.orderly ⟨hsignal, hall, hdrained, hclosed⟩ hinv.tracks]
    rfl
  · exact shutdownResult_error.mp (hreports.symm.trans herr)
  · rcases hshutdown.mem.mp ht with rfl | hexit | rfl | rfl
    · exact hstop.elim
    · exact (hexits _ hexit).elim
    · exact hended
    · exact hlast.elim
  · rcases ht with ht | ht <;>
    · rcases hshutdown.mem.mp ht with rfl | hexit | rfl | rfl
      · exact hstop.elim
      · exact (hexits _ hexit).elim
      · exact hended.elim
      · exact hlast

/-- Two tasks. -/
def twoSpawned : SpawnedTasks 2 := ⟨fun i => i, fun _ => "indexer"⟩

/-- After the signal one task fails and the other one ends well. -/
theorem supervisor_shutdown_order_failed : ∃ es σ message, SupervisorRun twoSpawned 20 0 es σ ∧
    σ.phase = .returned (.error message) ∧
    message = twoSpawned.failure 1 (.returned (.error "disk full")) ∧
    (observations es).findSome? (Observation.failure twoSpawned) = some message ∧
    ∀ i, ∃ exit, σ.status i = .joined exit := by
  have hjoined : ∀ i : Fin 2, i = 0 ∨ i = 1 := by decide
  have run := (@History.Run.nil _ _ (SupervisorStep twoSpawned 20) (TaskSupervisor.start 2 0))
    |>.snoc (.tasksPending rfl fun i exit h => (by cases h))
    |>.snoc (.signalled (.ok ()) rfl)
    |>.snoc (.exits (i := 1) (.returned (.error "disk full")) rfl)
    |>.snoc (@SupervisorStep.exited _ _ _ _ 1 (.returned (.error "disk full")) _ rfl rfl)
    |>.snoc (.exits (i := 0) (.returned (.ok ())) rfl)
    |>.snoc (.tick 3)
    |>.snoc (@SupervisorStep.exited _ _ _ _ 0 (.returned (.ok ())) _ rfl rfl)
    |>.snoc (.drained rfl fun i => (hjoined i).elim (fun h => ⟨.returned (.ok ()), by rw [h]; rfl⟩)
      fun h => ⟨.returned (.error "disk full"), by rw [h]; rfl⟩)
    |>.snoc (.closed (.ok ()) rfl)
  obtain ⟨hclose, hreturned⟩ := supervisor_shutdown_order run
  exact ⟨_, _, _, run, rfl, rfl, (hreturned _ rfl).2.1 _ rfl, hclose rfl⟩

end Dashboard

/-
The supervision of the container's processes.

The model of `run` in `quip-dashboard/src/supervisor.rs`: it starts the collector, the
backend and Caddy, each as the leader of a process group, waits for a signal or for an
exit, and stops the services before the collector.  The supervisor is a program whose
effects are its system calls and waits; between any two of them processes exit, leave
descendants behind, and time passes.

* `Within` — what a part of the program that stops some children leaves as it was;
* `signal_ok`, `stop_ok` — the specifications of `signal` and of `stop`;
* `process_supervision` — **in every run, a group is signalled only while its unreaped
  leader reserves it, the collector only after the services, no exit is slept through, and
  exit code 0 means that every process has ended by itself**.
-/
import QuipDashboard.Program

namespace Dashboard

namespace ProcessSupervisor

/-! ### Processes -/

/-- The leader of a process group. -/
inductive Leader where
  | unborn
  | running
  /-- It waits to be reaped. -/
  | exited (status : ℕ)
  | reaped
  deriving DecidableEq

/-- The children, by their number: the collector is 0, the backend 1 and Caddy 2. -/
structure World where
  spawned : ℕ
  leader : ℕ → Leader
  /-- Others of the group are running. -/
  rest : ℕ → Bool
  /-- `OwnedChild::group` is `Some`. -/
  owned : ℕ → Bool
  /-- The group got its SIGTERM, or its SIGKILL. -/
  told : ℕ → Bool
  killed : ℕ → Bool
  /-- The leader was running when the SIGKILL came. -/
  slain : ℕ → Bool
  /-- The leader exited before it was told to. -/
  early : ℕ → Bool
  /-- There was a SIGCHLD since the last one was received. -/
  pending : Bool
  now : ℕ
  /-- When the shutdown began. -/
  start : Option ℕ

/-- Nothing is spawned. -/
def World.init : World :=
  ⟨0, fun _ => .unborn, fun _ => false, fun _ => false, fun _ => false, fun _ => false, fun _ => false,
    fun _ => false, false, 0, none⟩

/-- The operating system's errors of a spawn that are told apart. -/
inductive SpawnError where
  | notFound
  /-- `ETXTBSY`. -/
  | busy
  | other
  deriving DecidableEq

inductive Signal where
  | term
  | kill
  deriving DecidableEq

/-- The errors of `killpg`. -/
inductive Errno where
  | esrch
  | other
  deriving DecidableEq

/-- The system calls and waits of the supervisor. -/
inductive Effect : Type → Type 1
  | spawn (i : ℕ) : Effect (Except SpawnError Unit)
  | sleep : Effect Unit
  /-- `OwnedChild::status`: still alive, or the status of an exit. -/
  | status (i : ℕ) : Effect (Except Unit (Option ℕ))
  | killpg (i : ℕ) (sig : Signal) : Effect (Except Errno Unit)
  /-- `self.group = None`. -/
  | release (i : ℕ) : Effect Unit
  /-- `child.wait()` until a deadline. -/
  | reap (i : ℕ) (deadline : ℕ) : Effect (Except Unit Unit)
  /-- `changes.recv()` until a deadline, while some children are waited for. -/
  | recvChange (children : List ℕ) (deadline : ℕ) : Effect Bool
  /-- The `select!` of `run`: an operator's signal, or a change. -/
  | select : Effect (Option ℕ)
  /-- The readers of a child's pipes, until a deadline; whether they failed. -/
  | readers (i : ℕ) (deadline : ℕ) : Effect Bool
  /-- `Logs::drain` and the wait for the writer; whether they timed out. -/
  | drainLogs (deadline : ℕ) : Effect Bool
  | writerDone (deadline : ℕ) : Effect Bool
  /-- `Instant::now()` when the shutdown begins. -/
  | startShutdown : Effect ℕ

/-! ### The program -/

abbrev Sup := Program Effect Empty

/-- `ExitReason`. -/
inductive ExitReason where
  | signal (n : ℕ)
  | childExited (i : ℕ) (status : ℕ)
  | collectorExited (status : ℕ)
  | spawnFailed (i : ℕ) (error : SpawnError)
  | internal
  deriving DecidableEq

/-- `Report`, without its log counters. -/
structure Report where
  reason : ExitReason
  timedOut : Bool
  deriving DecidableEq

/-- `Report::exit_code`. -/
def Report.exitCode (r : Report) : ℕ :=
  match r.reason with
  | .signal _ => if r.timedOut then 124 else 0
  | .childExited .. => 1
  | .collectorExited _ => 70
  | .spawnFailed _ .notFound => 127
  | .spawnFailed .. => 126
  | .internal => 71

/-- `OwnedChild::signal`; whether it succeeds. -/
def signal (i : ℕ) (sig : Signal) : Sup Bool := do
  match ← Program.await (.status i) with
  | .error _ =>
    Program.await (.release i)
    pure false
  | .ok _ =>
    match ← Program.await (.killpg i sig) with
    | .ok _ | .error .esrch => pure true
    | .error .other => pure false

/-- `OwnedChild::kill_and_reap`; whether it succeeds. -/
def killAndReap (deadline i : ℕ) : Sup Bool := do
  let result ← signal i .kill
  Program.await (.release i)
  match ← Program.await (.reap i deadline) with
  | .ok _ => pure result
  | .error _ => pure false

/-- A loop over children; whether one of its turns fails. -/
def anyFails (turn : ℕ → Sup Bool) : List ℕ → Sup Bool
  | [] => pure false
  | i :: l => do
    let ok ← turn i
    let failed ← anyFails turn l
    pure (!ok || failed)

/-- The turn of the loop of `stop` over the statuses: whether one is running, and whether
one fails. -/
def statuses : List ℕ → Sup (Bool × Bool)
  | [] => pure (false, false)
  | i :: l => do
    let status ← Program.await (.status i)
    let rest ← statuses l
    pure (match status with
      | .ok none => (true, rest.2)
      | .ok (some _) => rest
      | .error _ => (rest.1, true))

/-- The loop of `stop`; whether it fails. -/
def awaitExits (children : List ℕ) (graceful : ℕ) : ℕ → Sup Bool
  | 0 => .pending
  | n + 1 => do
    let (running, failed) ← statuses children
    if running then
      if ← Program.await (.recvChange children graceful) then
        let failed' ← awaitExits children graceful n
        pure (failed || failed')
      else pure true
    else pure failed

/-- `stop`; whether it fails. -/
def stop (fuel : ℕ) (children : List ℕ) (graceful deadline : ℕ) : Sup Bool := do
  let untold ← anyFails (fun i => signal i .term) children
  let unawaited ← awaitExits children graceful fuel
  let unreaped ← anyFails (killAndReap deadline) children
  pure (untold || unawaited || unreaped)

/-- `drain`; whether it fails. -/
def drain (children : List ℕ) (deadline : ℕ) : Sup Bool :=
  anyFails (fun i => do
    let failed ← Program.await (.readers i deadline)
    pure !failed) children

/-- `unexpected`. -/
def unexpected : List ℕ → Sup (Option ExitReason)
  | [] => pure none
  | i :: l => do
    match ← Program.await (.status i) with
    | .ok none => unexpected l
    | .ok (some status) =>
      pure (some (if i = 0 then .collectorExited status else .childExited i status))
    | .error _ => pure (some .internal)

/-- `SPAWN_BUSY_ATTEMPTS`. -/
def spawnBusyAttempts : ℕ := 10

/-- `spawn`, with the attempts that are left. -/
def spawn (i : ℕ) : ℕ → Sup (Except SpawnError Unit)
  | 0 => pure (.error .busy)
  | n + 1 => do
    match ← Program.await (.spawn i) with
    | .ok _ => pure (.ok ())
    | .error error =>
      if error ≠ .busy ∨ n = 0 then pure (.error error)
      else
        Program.await .sleep
        spawn i n

/-- The loop of `run` that spawns: why it stops early, and how many children there are. -/
def startAll : List ℕ → Sup (Option ExitReason × ℕ)
  | [] => pure (none, 3)
  | i :: l => do
    match ← spawn i spawnBusyAttempts with
    | .ok _ => startAll l
    | .error error => pure (some (.spawnFailed i error), i)

/-- The loop of `run` that waits for the reason to shut down. -/
def watch : ℕ → Sup ExitReason
  | 0 => .pending
  | n + 1 => do
    match ← unexpected [0, 1, 2] with
    | some reason => pure reason
    | none =>
      match ← Program.await .select with
      | some sig => pure (.signal sig)
      | none => watch n

/-- Why `run` shuts down. -/
def shutdownReason (fuel : ℕ) : Option ExitReason → Sup ExitReason
  | some reason => pure reason
  | none => watch fuel

/-- `children.get_mut(1..)`. -/
def services (count : ℕ) : List ℕ := (List.range count).tail

/-- The shutdown of the services. `mul_f32` of the budget is its fraction, rounded down here. -/
def stopServices (fuel start budget count : ℕ) : Sup Bool := do
  if count = 0 then pure false
  else
    let unstopped ← stop fuel (services count) (start + budget * 7 / 10) (start + budget * 8 / 10)
    let undrained ← drain (services count) (start + budget * 85 / 100)
    let unlogged ← Program.await (.drainLogs (start + budget * 85 / 100))
    pure (unstopped || undrained || unlogged)

/-- After a signal, a collector that has exited is the reason. -/
def finalReason (reason : ExitReason) : Sup ExitReason := do
  match reason with
  | .signal _ =>
    let found ← unexpected [0]
    pure (found.getD reason)
  | _ => pure reason

/-- The shutdown of the collector, at fractions of the budget that are rounded down here. -/
def stopCollector (fuel start budget count : ℕ) : Sup Bool := do
  if count = 0 then pure false
  else
    let unstopped ← stop fuel [0] (start + budget * 9 / 10) (start + budget * 95 / 100)
    let undrained ← drain [0] (start + budget * 95 / 100)
    pure (unstopped || undrained)

/-- The part of `run` that shuts the children down. -/
def shutDown (fuel start budget count : ℕ) (reason : ExitReason) : Sup Report := do
  let timedOut ← stopServices fuel start budget count
  let reason ← finalReason reason
  let timedOut' ← stopCollector fuel start budget count
  let unwritten ← Program.await (.writerDone (start + budget))
  pure ⟨reason, timedOut || timedOut' || unwritten⟩

/-- `run`, once its setup has succeeded. -/
def run (fuel budget : ℕ) : Sup Report := do
  let (failure, count) ← startAll [0, 1, 2]
  let reason ← shutdownReason fuel failure
  let start ← Program.await .startShutdown
  shutDown fuel start budget count reason

/-- `drop` of the children whose group is still owned, when `run` is cancelled. -/
def dropAll : List ℕ → Sup Unit
  | [] => pure ()
  | i :: l => do
    let _ ← signal i .kill
    dropAll l

/-! ### What system calls do -/

/-- The group got a SIGTERM, or has nothing left to get a signal. -/
def World.mark (s : World) (i : ℕ) : Signal → World
  | .term => { s with told := Function.update s.told i true }
  | .kill => { s with killed := Function.update s.killed i true }

/-- The group gets a SIGKILL: nothing of it is left, but a leader to be reaped. -/
def World.slay (s : World) (i : ℕ) : World :=
  { s with
    leader := Function.update s.leader i (if s.leader i = .running then .exited 9 else s.leader i)
    rest := Function.update s.rest i false
    killed := Function.update s.killed i true
    slain := Function.update s.slain i (s.slain i || s.leader i = .running)
    pending := s.pending || s.leader i = .running }

/-- The group gets a signal. -/
def World.deliver (s : World) (i : ℕ) : Signal → World
  | .term => s.mark i .term
  | .kill => s.slay i

/-- What an effect may answer, and what it makes of the processes. -/
def Answers {γ : Type} (s : World) (e : Effect γ) (a : γ) (s' : World) : Prop :=
  match e, a with
  | .spawn i, .ok _ =>
    s' = { s with
      spawned := i + 1
      leader := Function.update s.leader i .running
      owned := Function.update s.owned i true }
  | .spawn _, .error _ => s' = s
  | .sleep, _ => s' = s
  | .status _, .error _ => s' = s
  | .status i, .ok none => s' = s ∧ s.owned i = true ∧ s.leader i = .running
  | .status i, .ok (some st) => s' = s ∧ s.owned i = true ∧ s.leader i = .exited st
  | .killpg i sig, .ok _ => s' = s.deliver i sig
  | .killpg i sig, .error .esrch => s' = s.mark i sig ∧ s.leader i ≠ .running ∧ s.rest i = false
  | .killpg .., .error .other => s' = s
  | .release i, _ => s' = { s with owned := Function.update s.owned i false }
  | .reap i _, .ok _ =>
    s' = { s with leader := Function.update s.leader i .reaped } ∧ ∃ st, s.leader i = .exited st
  | .reap .., .error _ => s' = s
  | .recvChange .., true => s' = { s with pending := false } ∧ s.pending = true
  | .recvChange _ deadline, false => s' = s ∧ deadline ≤ s.now
  | .select, some _ => s' = s
  | .select, none => s' = { s with pending := false } ∧ s.pending = true
  | .readers .., _ => s' = s
  | .drainLogs _, _ => s' = s
  | .writerDone _, _ => s' = s
  | .startShutdown, a => a = s.now ∧ s' = { s with start := some s.now }

/-- What happens between two system calls: leaders exit, which is signalled, descendants
come and go, and time passes. -/
structure Env (s s' : World) : Prop where
  spawned : s'.spawned = s.spawned
  owned : s'.owned = s.owned
  told : s'.told = s.told
  killed : s'.killed = s.killed
  slain : s'.slain = s.slain
  start : s'.start = s.start
  leader : ∀ i, s'.leader i = s.leader i ∨
    s.leader i = .running ∧ (∃ st, s'.leader i = .exited st) ∧ s'.pending = true
  early : ∀ i, s'.early i = true ↔ s.early i = true ∨
    s.leader i = .running ∧ s'.leader i ≠ .running ∧ s.told i = false
  rest : ∀ i, s'.rest i = true → s.rest i = true ∨ s.leader i = .running
  pending : s.pending = true → s'.pending = true
  now : s.now ≤ s'.now

/-- The leader was running once, and is not any more. -/
def World.Ended (s : World) (i : ℕ) : Prop := (∃ st, s.leader i = .exited st) ∨ s.leader i = .reaped

/-- The unreaped leader reserves the number of the group. -/
def World.Reserved (s : World) (i : ℕ) : Prop :=
  s.leader i = .running ∨ ∃ st, s.leader i = .exited st

/-- A deadline within the budget of the shutdown. -/
def World.Due (s : World) (budget deadline : ℕ) : Prop :=
  ∃ start, s.start = some start ∧ deadline ≤ start + budget

/-- What holds at every effect. -/
structure Inv (s : World) : Prop where
  unborn : ∀ i, s.spawned ≤ i → s.leader i = .unborn ∧ s.told i = false ∧ s.killed i = false
  owned : ∀ i, s.owned i = true → s.Reserved i
  early : ∀ i st, s.leader i = .exited st → s.told i = false → s.killed i = false → s.early i = true
  killed : ∀ i, s.killed i = true → s.leader i ≠ .running ∧ s.rest i = false
  slain : ∀ i, s.slain i = true → s.killed i = true

/-- The collector is signalled after the services. -/
def World.Turn (s : World) (i : ℕ) : Prop := i = 0 → ∀ k, k ≠ 0 → s.owned k = false

/-- The guarantee of each effect, of `run` and of a drop. -/
def Allowed (dropped : Bool) (budget : ℕ) (s : World) : {γ : Type} → Effect γ → Prop
  | _, .spawn i => s.start = none ∧ i = s.spawned
  | _, .sleep => s.start = none
  | _, .select => s.start = none ∧ (s.pending = true ∨ ∀ i < s.spawned, s.leader i = .running)
  | _, .killpg i _ => s.owned i = true ∧ s.Reserved i ∧ (dropped = false → s.Turn i)
  | _, .reap i deadline => s.owned i = false ∧ s.Due budget deadline
  | _, .recvChange children deadline =>
    s.Due budget deadline ∧ (s.pending = true ∨ ∃ i ∈ children, s.leader i = .running)
  | _, .readers _ deadline => s.Due budget deadline
  | _, .drainLogs deadline => s.Due budget deadline
  | _, .writerDone deadline => s.Due budget deadline
  | _, .startShutdown => s.start = none
  | _, .status _ => True
  | _, .release _ => True

/-! ### The invariant -/

section Invariant

variable {s s' s'' : World}

theorem World.Ended.not_running {i : ℕ} (h : s.Ended i) : s.leader i ≠ .running := by
  rcases h with ⟨st, h⟩ | h <;> simp [h]

namespace Env

theorem refl (s : World) : Env s s where
  spawned := rfl
  owned := rfl
  told := rfl
  killed := rfl
  slain := rfl
  start := rfl
  leader _ := .inl rfl
  early _ := by tauto
  rest _ := .inl
  pending h := h
  now := Nat.le_refl _

theorem running (h : Env s s') {i : ℕ} (hi : s'.leader i = .running) : s.leader i = .running := by
  rcases h.leader i with he | ⟨hr, -⟩
  · exact he ▸ hi
  · exact hr

/-- A child that was running is, or its exit is signalled. -/
theorem awake (h : Env s s') {i : ℕ} (hi : s.leader i = .running) :
    s'.pending = true ∨ s'.leader i = .running := by
  rcases h.leader i with he | ⟨-, -, hp⟩
  · exact .inr (he.trans hi)
  · exact .inl hp

theorem trans (h : Env s s') (h' : Env s' s'') : Env s s'' where
  spawned := h'.spawned.trans h.spawned
  owned := h'.owned.trans h.owned
  told := h'.told.trans h.told
  killed := h'.killed.trans h.killed
  slain := h'.slain.trans h.slain
  start := h'.start.trans h.start
  leader i := by
    rcases h'.leader i with he | ⟨hr, hx⟩
    · rcases h.leader i with he' | ⟨hr', hx, hp⟩
      · exact .inl (he.trans he')
      · exact .inr ⟨hr', by rwa [he], h'.pending hp⟩
    · exact .inr ⟨h.running hr, hx⟩
  early i := by
    have h₁ := h.early i
    have h₂ := h'.early i
    have hr := h.running (i := i)
    have hr' := h'.running (i := i)
    rw [h₂, h₁, h.told]
    tauto
  rest i hi := by
    rcases h'.rest i hi with hr | hr
    · exact h.rest i hr
    · exact .inr (h.running hr)
  pending hp := h'.pending (h.pending hp)
  now := Nat.le_trans h.now h'.now

theorem ended (h : Env s s') {i : ℕ} (hi : s.Ended i) : s'.Ended i := by
  rcases h.leader i with he | ⟨hr, -⟩
  · rwa [World.Ended, he]
  · exact absurd hr hi.not_running

theorem inv (h : Env s s') (hs : Inv s) : Inv s' where
  unborn i hi := by
    obtain ⟨hl, ht, hk⟩ := hs.unborn i (h.spawned ▸ hi)
    refine ⟨?_, by rw [h.told, ht], by rw [h.killed, hk]⟩
    rcases h.leader i with he | ⟨hr, -⟩
    · exact he.trans hl
    · simp [hl] at hr
  owned i hi := by
    rcases h.leader i with he | ⟨-, hx, -⟩
    · rw [World.Reserved, he]
      exact hs.owned i (h.owned ▸ hi)
    · exact .inr hx
  early i st hi ht hk := by
    rw [h.told] at ht
    rw [h.killed] at hk
    rcases h.leader i with he | ⟨hr, -⟩
    · exact (h.early i).2 (.inl (hs.early i st (he ▸ hi) ht hk))
    · exact (h.early i).2 (.inr ⟨hr, by simp [hi], ht⟩)
  killed i hi := by
    obtain ⟨hr, hrest⟩ := hs.killed i (h.killed ▸ hi)
    refine ⟨fun hr' => hr (h.running hr'), ?_⟩
    cases hx : s'.rest i with
    | false => rfl
    | true =>
      rcases h.rest i hx with hx | hx
      · simp [hrest] at hx
      · exact absurd hx hr
  slain i hi := by
    rw [h.killed]
    exact hs.slain i (h.slain ▸ hi)

end Env

end Invariant

section Steps

variable {s s' : World} {b dropped : Bool} {budget : ℕ} {α β γ : Type}

theorem World.Reserved.ne {i j : ℕ} (hr : s.Reserved i) (hs : Inv s) (hj : s.spawned ≤ j) : j ≠ i := by
  rintro rfl
  rcases hr with h | ⟨st, h⟩ <;> simp [(hs.unborn j hj).1] at h

theorem Inv.unowned (hs : Inv s) {i : ℕ} (hi : s.spawned ≤ i) : s.owned i = false := by
  cases ho : s.owned i with
  | false => rfl
  | true => exact absurd rfl ((hs.owned i ho).ne hs hi)

theorem Inv.marked (hs : Inv s) {i : ℕ} (hr : s.Reserved i) {sig : Signal}
    (hgone : sig = .kill → s.leader i ≠ .running ∧ s.rest i = false) : Inv (s.mark i sig) := by
  cases sig with
  | term =>
    refine ⟨fun j hj => ?_, hs.owned, fun j st hj ht hk => ?_, hs.killed, hs.slain⟩
    · simpa [World.mark, hr.ne hs hj] using hs.unborn j hj
    · by_cases hne : j = i
      · simp [World.mark, hne] at ht
      · exact hs.early j st hj (by simpa [World.mark, hne] using ht) hk
  | kill =>
    refine ⟨fun j hj => ?_, hs.owned, fun j st hj ht hk => ?_, fun j hj => ?_, fun j hj => ?_⟩
    · simpa [World.mark, hr.ne hs hj] using hs.unborn j hj
    all_goals by_cases hne : j = i
    · simp [World.mark, hne] at hk
    · exact hs.early j st hj ht (by simpa [World.mark, hne] using hk)
    · exact hne ▸ hgone rfl
    · exact hs.killed j (by simpa [World.mark, hne] using hj)
    · simp [World.mark, hne]
    · simpa [World.mark, hne] using hs.slain j hj

theorem Inv.slew (hs : Inv s) {i : ℕ} (hr : s.Reserved i) : Inv (s.slay i) := by
  refine ⟨fun j hj => ?_, fun j hj => ?_, fun j st hj ht hk => ?_, fun j hj => ?_, fun j hj => ?_⟩
  · simpa [World.slay, hr.ne hs hj] using hs.unborn j hj
  all_goals by_cases hne : j = i
  · by_cases hrun : s.leader j = .running
    · exact .inr ⟨9, by simp [World.slay, hne, hne ▸ hrun]⟩
    · have hl : (s.slay i).leader j = s.leader j := by simp [World.slay, hne, hne ▸ hrun]
      rw [World.Reserved, hl]
      exact hs.owned j hj
  · simpa [World.Reserved, World.slay, hne] using hs.owned j hj
  · simp [World.slay, hne] at hk
  · exact hs.early j st (by simpa [World.slay, hne] using hj) ht (by simpa [World.slay, hne] using hk)
  · subst hne
    refine ⟨?_, by simp [World.slay]⟩
    by_cases hrun : s.leader j = .running <;> simp [World.slay, hrun]
  · simpa [World.slay, hne] using hs.killed j (by simpa [World.slay, hne] using hj)
  · simp [World.slay, hne]
  · simpa [World.slay, hne] using hs.slain j (by simpa [World.slay, hne] using hj)

theorem Inv.spawn (hs : Inv s) : Inv { s with
    spawned := s.spawned + 1
    leader := Function.update s.leader s.spawned .running
    owned := Function.update s.owned s.spawned true } := by
  refine ⟨fun j hj => ?_, fun j hj => ?_, fun j st hj ht hk => ?_, fun j hj => ?_, hs.slain⟩
  · have hne : j ≠ s.spawned := Nat.ne_of_gt hj
    simpa [hne] using hs.unborn j (Nat.le_of_succ_le hj)
  all_goals by_cases hne : j = s.spawned
  · exact .inl (by simp [hne])
  · simpa [hne, World.Reserved] using hs.owned j (by simpa [hne] using hj)
  · simp [hne] at hj
  · exact hs.early j st (by simpa [hne] using hj) ht hk
  · simp [hne, (hs.unborn _ (Nat.le_refl _)).2.2] at hj
  · simpa [hne] using hs.killed j hj

theorem Inv.release (hs : Inv s) (i : ℕ) : Inv { s with owned := Function.update s.owned i false } := by
  refine ⟨hs.unborn, fun j hj => ?_, hs.early, hs.killed, hs.slain⟩
  by_cases hne : j = i
  · simp [hne] at hj
  · exact hs.owned j (by simpa [hne] using hj)

theorem Inv.reap (hs : Inv s) {i st : ℕ} (h : s.leader i = .exited st) (ho : s.owned i = false) :
    Inv { s with leader := Function.update s.leader i .reaped } := by
  have hr : s.Reserved i := .inr ⟨st, h⟩
  refine ⟨fun j hj => ?_, fun j hj => ?_, fun j st hj ht hk => ?_, fun j hj => ?_, hs.slain⟩
  · simpa [hr.ne hs hj] using hs.unborn j hj
  all_goals by_cases hne : j = i
  · simp [hne, ho] at hj
  · simpa [World.Reserved, hne] using hs.owned j hj
  · simp [hne] at hj
  · exact hs.early j st (by simpa [hne] using hj) ht hk
  · exact ⟨by simp [hne], (hs.killed j hj).2⟩
  · simpa [hne] using hs.killed j hj

/-- An effect that satisfies its guarantee keeps the invariant. -/
theorem Inv.answers (hs : Inv s) {e : Effect γ} {a : γ} (hG : Allowed dropped budget s e)
    (h : Answers s e a s') : Inv s' := by
  cases e with
  | spawn i =>
    cases a with
    | ok _ =>
      obtain ⟨-, rfl⟩ := hG
      exact h ▸ hs.spawn
    | error _ => exact h ▸ hs
  | sleep | readers | drainLogs | writerDone => exact h ▸ hs
  | status i =>
    rcases a with _ | _ | st
    · exact h ▸ hs
    · exact h.1 ▸ hs
    · exact h.1 ▸ hs
  | killpg i sig =>
    rcases a with (_ | _) | _
    · exact h.1 ▸ hs.marked hG.2.1 fun _ => h.2
    · exact h ▸ hs
    · cases sig with
      | term =>
        obtain rfl : s' = s.mark i .term := h
        exact hs.marked hG.2.1 (by simp)
      | kill =>
        obtain rfl : s' = s.slay i := h
        exact hs.slew hG.2.1
  | release i => exact h ▸ hs.release i
  | reap i d =>
    cases a with
    | ok _ =>
      obtain ⟨rfl, st, h⟩ := h
      exact hs.reap h hG.1
    | error _ => exact h ▸ hs
  | recvChange l d =>
    cases a with
    | true => exact h.1 ▸ ⟨hs.unborn, hs.owned, hs.early, hs.killed, hs.slain⟩
    | false => exact h.1 ▸ hs
  | select =>
    cases a with
    | some _ => exact h ▸ hs
    | none => exact h.1 ▸ ⟨hs.unborn, hs.owned, hs.early, hs.killed, hs.slain⟩
  | startShutdown => exact h.2 ▸ ⟨hs.unborn, hs.owned, hs.early, hs.killed, hs.slain⟩

end Steps

/-! ### What a part of the program leaves as it was -/

/-- A part of the program that tells the children `l` to end and kills the children `k`
leads from `s` to `s'`. -/
structure Within (l k : List ℕ) (s s' : World) : Prop where
  spawned : s'.spawned = s.spawned
  start : s'.start = s.start
  owned : ∀ i, s'.owned i = true → s.owned i = true
  told : ∀ i, s.told i = true → s'.told i = true
  killed : ∀ i, s.killed i = true → s'.killed i = true
  early : ∀ i, s.early i = true → s'.early i = true
  ended : ∀ i, s.Ended i → s'.Ended i
  reaped : ∀ i, s.leader i = .reaped → s'.leader i = .reaped
  slain : ∀ i, s.Ended i → s'.slain i = s.slain i
  others : ∀ i ∉ l, s'.owned i = s.owned i ∧ s'.told i = s.told i
  unkilled : ∀ i ∉ k, s'.killed i = s.killed i ∧ s'.slain i = s.slain i

namespace Within

variable {l l' k k' : List ℕ} {s s' s'' : World}

theorem trans (h : Within l k s s') (h' : Within l k s' s'') : Within l k s s'' where
  spawned := h'.spawned.trans h.spawned
  start := h'.start.trans h.start
  owned i hi := h.owned i (h'.owned i hi)
  told i hi := h'.told i (h.told i hi)
  killed i hi := h'.killed i (h.killed i hi)
  early i hi := h'.early i (h.early i hi)
  ended i hi := h'.ended i (h.ended i hi)
  reaped i hi := h'.reaped i (h.reaped i hi)
  slain i hi := (h'.slain i (h.ended i hi)).trans (h.slain i hi)
  others i hi := ⟨(h'.others i hi).1.trans (h.others i hi).1, (h'.others i hi).2.trans (h.others i hi).2⟩
  unkilled i hi := ⟨(h'.unkilled i hi).1.trans (h.unkilled i hi).1,
    (h'.unkilled i hi).2.trans (h.unkilled i hi).2⟩

theorem mono (h : Within l k s s') (hl : l ⊆ l') (hk : k ⊆ k') : Within l' k' s s' :=
  { h with
    others := fun i hi => h.others i fun hx => hi (hl hx)
    unkilled := fun i hi => h.unkilled i fun hx => hi (hk hx) }

theorem due (h : Within l k s s') {budget d : ℕ} (hd : s.Due budget d) : s'.Due budget d := by
  rwa [World.Due, h.start]

theorem turn (h : Within l k s s') {i : ℕ} (hi : s.Turn i) : s'.Turn i := by
  intro hi0 k hk
  have hx := h.owned k
  rw [hi hi0 k hk] at hx
  simpa using hx

/-- The children that a signal kills. -/
def kills (i : ℕ) : Signal → List ℕ
  | .term => []
  | .kill => [i]

theorem mark (s : World) (i : ℕ) (sig : Signal) : Within [i] (kills i sig) s (s.mark i sig) := by
  have hset : ∀ (f : ℕ → Bool) j, f j = true → Function.update f i true j = true := by
    intro f j hj
    by_cases hne : j = i <;> simp [hne, hj]
  have hne : ∀ j ∉ [i], j ≠ i := by simp
  cases sig with
  | term =>
    exact ⟨rfl, rfl, fun _ h => h, hset _, fun _ h => h, fun _ h => h, fun _ h => h, fun _ h => h,
      fun _ _ => rfl, fun j hj => ⟨rfl, Function.update_of_ne (hne j hj) _ _⟩, fun _ _ => ⟨rfl, rfl⟩⟩
  | kill =>
    exact ⟨rfl, rfl, fun _ h => h, fun _ h => h, hset _, fun _ h => h, fun _ h => h, fun _ h => h,
      fun _ _ => rfl, fun _ _ => ⟨rfl, rfl⟩, fun j hj => ⟨Function.update_of_ne (hne j hj) _ _, rfl⟩⟩

theorem slay (s : World) (i : ℕ) : Within [i] [i] s (s.slay i) := by
  have hne : ∀ j ∉ [i], j ≠ i := by simp
  have hleader : ∀ j, s.leader j ≠ .running → (s.slay i).leader j = s.leader j := by
    intro j hj
    by_cases hji : j = i
    · subst hji
      simp [World.slay, hj]
    · simp [World.slay, hji]
  refine ⟨rfl, rfl, fun _ h => h, fun _ h => h, fun j hj => ?_, fun _ h => h, fun j hj => ?_, fun j hj => ?_,
    fun j hj => ?_, fun _ _ => ⟨rfl, rfl⟩, fun j hj => ⟨Function.update_of_ne (hne j hj) _ _,
      Function.update_of_ne (hne j hj) _ _⟩⟩
  · by_cases hji : j = i <;> simp [World.slay, hji, hj]
  · rwa [World.Ended, hleader j hj.not_running]
  · rw [hleader j (by simp [hj]), hj]
  · by_cases hji : j = i
    · subst hji
      simp [World.slay, hj.not_running]
    · simp [World.slay, hji]

theorem deliver (s : World) (i : ℕ) (sig : Signal) : Within [i] (kills i sig) s (s.deliver i sig) := by
  cases sig with
  | term => exact mark s i .term
  | kill => exact slay s i

theorem release (s : World) (i : ℕ) :
    Within [i] [] s { s with owned := Function.update s.owned i false } := by
  refine ⟨rfl, rfl, fun j hj => ?_, fun _ h => h, fun _ h => h, fun _ h => h, fun _ h => h, fun _ h => h,
    fun _ _ => rfl, fun j hj => ⟨Function.update_of_ne (by simpa using hj) _ _, rfl⟩, fun _ _ => ⟨rfl, rfl⟩⟩
  by_cases hji : j = i
  · simp [hji] at hj
  · simpa [hji] using hj

theorem reap (s : World) (i : ℕ) :
    Within [] [] s { s with leader := Function.update s.leader i .reaped } := by
  refine ⟨rfl, rfl, fun _ h => h, fun _ h => h, fun _ h => h, fun _ h => h, fun j hj => ?_, fun j hj => ?_,
    fun _ _ => rfl, fun _ _ => ⟨rfl, rfl⟩, fun _ _ => ⟨rfl, rfl⟩⟩
  all_goals by_cases hji : j = i
  · exact .inr (by simp [hji])
  · simpa [World.Ended, hji] using hj
  · simp [hji]
  · simpa [hji] using hj

theorem received (s : World) : Within [] [] s { s with pending := false } :=
  ⟨rfl, rfl, fun _ h => h, fun _ h => h, fun _ h => h, fun _ h => h, fun _ h => h, fun _ h => h,
    fun _ _ => rfl, fun _ _ => ⟨rfl, rfl⟩, fun _ _ => ⟨rfl, rfl⟩⟩

end Within

theorem Env.within {s s' : World} (h : Env s s') (l k : List ℕ) : Within l k s s' where
  spawned := h.spawned
  start := h.start
  owned i hi := h.owned ▸ hi
  told i hi := h.told ▸ hi
  killed i hi := h.killed ▸ hi
  early i hi := (h.early i).2 (.inl hi)
  ended i hi := h.ended hi
  reaped i hi := by
    rcases h.leader i with he | ⟨hr, -⟩
    · exact he.trans hi
    · simp [hi] at hr
  slain i _ := by rw [h.slain]
  others i _ := ⟨by rw [h.owned], by rw [h.told]⟩
  unkilled i _ := ⟨by rw [h.killed], by rw [h.slain]⟩

/-! ### Rules -/

section Rules

variable {dropped : Bool} {budget : ℕ} {α β : Type}

/-- Every effect of a program satisfies its guarantee, and its result satisfies `Q`. -/
def Ok (dropped : Bool) (budget : ℕ) (Q : α → World → Prop) (p : Sup α) (s : World) : Prop :=
  p.Safe Answers Env (fun s e _ _ => Inv s ∧ Allowed dropped budget s e)
    (fun r t => ∀ a, r = .ok a → Inv t ∧ Q a t) s

namespace Ok

variable {Q Q' : α → World → Prop} {p : Sup α} {s : World}

theorem pure {a : α} (hs : Inv s) (h : Q a s) : Ok dropped budget Q (Pure.pure a) s := by
  rintro _ ⟨⟩
  exact ⟨hs, h⟩

theorem imp (h : Ok dropped budget Q p s) (hQ : ∀ a t, Inv t → Q a t → Q' a t) :
    Ok dropped budget Q' p s :=
  Program.Safe.imp (fun _ t h a ha => ⟨(h a ha).1, hQ a t (h a ha).1 (h a ha).2⟩) h

theorem bind {R : β → World → Prop} {f : α → Sup β} (h : Ok dropped budget Q p s)
    (hf : ∀ a t, Inv t → Q a t → Ok dropped budget R (f a) t) : Ok dropped budget R (p >>= f) s := by
  refine Program.Safe.bind (Program.Safe.imp ?_ h)
  intro r t hr
  cases r with
  | ok a => exact hf a t (hr a rfl).1 (hr a rfl).2
  | error e => cases e

theorem await {e : Effect α} {R : β → World → Prop} {f : α → Sup β} (hs : Inv s)
    (hG : ∀ s₁, Env s s₁ → Inv s₁ → Allowed dropped budget s₁ e)
    (hf : ∀ s₁ a s₂, Env s s₁ → Answers s₁ e a s₂ → Inv s₂ → Ok dropped budget R (f a) s₂) :
    Ok dropped budget R (Program.await e >>= f) s := by
  refine Program.Safe.await fun s₁ hs₁ a s₂ ha => ⟨⟨hs₁.inv hs, hG s₁ hs₁ (hs₁.inv hs)⟩, ?_⟩
  exact hf s₁ a s₂ hs₁ ha ((hs₁.inv hs).answers (hG s₁ hs₁ (hs₁.inv hs)) ha)

end Ok

/-! ### Looking at the children -/

variable {s : World}

/-- Either a child that ran is still running, or the next wait for a change ends at once. -/
theorem statuses_ok (l : List ℕ) (hs : Inv s) :
    Ok dropped budget (fun r t => Env s t ∧
      (r.1 = true → t.pending = true ∨ ∃ i ∈ l, t.leader i = .running) ∧
      (r = (false, false) → ∀ i ∈ l, t.Ended i)) (statuses l) s := by
  induction l generalizing s with
  | nil => exact .pure hs ⟨.refl s, by simp, by simp⟩
  | cons i l ih =>
    refine .await hs (fun _ _ _ => trivial) fun s₁ a s₂ h₁ ha h₂ => ?_
    refine (ih h₂).bind fun r t ht hr => .pure ht ?_
    obtain ⟨hst, hrun, hend⟩ := hr
    have htail : r.1 = true → t.pending = true ∨ ∃ j ∈ i :: l, t.leader j = .running := by
      intro hr
      rcases hrun hr with hp | ⟨j, hj, h⟩
      · exact .inl hp
      · exact .inr ⟨j, .tail _ hj, h⟩
    rcases a with _ | _ | st
    · obtain rfl : s₂ = s₁ := ha
      exact ⟨h₁.trans hst, htail, by simp⟩
    · obtain ⟨rfl, -, h⟩ := ha
      refine ⟨h₁.trans hst, fun _ => ?_, by simp⟩
      rcases hst.awake h with hp | h
      · exact .inl hp
      · exact .inr ⟨i, .head _, h⟩
    · obtain ⟨rfl, -, h⟩ := ha
      refine ⟨h₁.trans hst, htail, fun hr => ?_⟩
      exact List.forall_mem_cons.2 ⟨hst.ended (.inl ⟨_, h⟩), hend hr⟩

/-- What the reason of a shutdown says of the children. -/
def ExitReason.Holds (s : World) : ExitReason → Prop
  | .signal _ => s.spawned = 3
  | .childExited i _ => i ≠ 0 ∧ i < s.spawned ∧ s.early i = true
  | .collectorExited _ => 0 < s.spawned ∧ s.early 0 = true
  | .spawnFailed i _ => s.spawned = i
  | .internal => True

theorem unexpected_ok (l : List ℕ) (hs : Inv s)
    (hl : ∀ i ∈ l, s.told i = false ∧ s.killed i = false) :
    Ok dropped budget (fun r t => Env s t ∧
      (r = none → t.pending = true ∨ ∀ i ∈ l, t.leader i = .running) ∧
      ∀ reason, r = some reason → reason.Holds t) (unexpected l) s := by
  induction l generalizing s with
  | nil => exact .pure hs ⟨.refl s, by simp, by simp⟩
  | cons i l ih =>
    obtain ⟨hi, hl⟩ := List.forall_mem_cons.1 hl
    refine .await hs (fun _ _ _ => trivial) fun s₁ a s₂ h₁ ha h₂ => ?_
    rcases a with _ | _ | st
    · obtain rfl : s₂ = s₁ := ha
      refine .pure h₂ ⟨h₁, by simp, ?_⟩
      rintro _ ⟨⟩
      trivial
    · obtain ⟨rfl, -, h⟩ := ha
      refine (ih h₂ fun j hj => ?_).imp fun r t ht hr => ?_
      · rw [h₁.told, h₁.killed]
        exact hl j hj
      · obtain ⟨hst, hrun, hreason⟩ := hr
        refine ⟨h₁.trans hst, fun hr => ?_, hreason⟩
        rcases hrun hr with hp | hrun
        · exact .inl hp
        rcases hst.awake h with hp | hi
        · exact .inl hp
        · exact .inr (List.forall_mem_cons.2 ⟨hi, hrun⟩)
    · obtain ⟨rfl, -, h⟩ := ha
      refine .pure h₂ ⟨h₁, by simp, ?_⟩
      have hearly : s₂.early i = true := h₂.early i st h (h₁.told ▸ hi.1) (h₁.killed ▸ hi.2)
      have hborn : i < s₂.spawned := by
        refine Nat.lt_of_not_le fun hle => ?_
        simp [(h₂.unborn i hle).1] at h
      rintro _ ⟨⟩
      split
      · subst i
        exact ⟨hborn, hearly⟩
      · exact ⟨‹_›, hborn, hearly⟩

/-! ### Stopping the children -/

/-- The group got the signal. -/
def World.got (s : World) (i : ℕ) : Signal → Bool
  | .term => s.told i
  | .kill => s.killed i

theorem signal_ok {i : ℕ} (sig : Signal) (hs : Inv s) (hi : dropped = false → s.Turn i) :
    Ok dropped budget (fun ok t => Within [i] (Within.kills i sig) s t ∧ (ok = true → t.got i sig = true))
      (signal i sig) s := by
  refine .await hs (fun _ _ _ => trivial) fun s₁ a s₂ h₁ ha h₂ => ?_
  have hw₁ := h₁.within [i] (Within.kills i sig)
  cases a with
  | error _ =>
    obtain rfl : s₂ = s₁ := ha
    refine .await h₂ (fun _ _ _ => trivial) fun s₃ _ s₄ h₃ ha h₄ => .pure h₄ ⟨?_, by simp⟩
    obtain rfl : s₄ = _ := ha
    exact hw₁.trans ((h₃.within _ _).trans ((Within.release s₃ i).mono (fun _ h => h) (by simp)))
  | ok st =>
    obtain ⟨rfl, ho⟩ : s₂ = s₁ ∧ s₁.owned i = true := by
      cases st with
      | none => exact ⟨ha.1, ha.2.1⟩
      | some st => exact ⟨ha.1, ha.2.1⟩
    refine .await h₂ (fun s₃ h₃ hs₃ => ?_) fun s₃ a s₄ h₃ ha h₄ => ?_
    · have ho₃ : s₃.owned i = true := by rw [h₃.owned, ho]
      exact ⟨ho₃, hs₃.owned i ho₃, fun hd => (hw₁.trans (h₃.within _ _)).turn (hi hd)⟩
    have hw₃ := hw₁.trans (h₃.within _ _)
    rcases a with (_ | _) | _
    · obtain ⟨rfl, -⟩ : s₄ = s₃.mark i sig ∧ _ := ha
      refine .pure h₄ ⟨hw₃.trans (.mark s₃ i sig), fun _ => ?_⟩
      cases sig <;> simp [World.got, World.mark]
    · obtain rfl : s₄ = s₃ := ha
      exact .pure h₄ ⟨hw₃, by simp⟩
    · obtain rfl : s₄ = s₃.deliver i sig := ha
      refine .pure h₄ ⟨hw₃.trans (.deliver s₃ i sig), fun _ => ?_⟩
      cases sig <;> simp [World.got, World.deliver, World.mark, World.slay]

theorem killAndReap_ok {i deadline : ℕ} (hs : Inv s) (hi : s.Turn i) (hd : s.Due budget deadline) :
    Ok false budget (fun ok t => Within [i] [i] s t ∧ t.owned i = false ∧
      (ok = true → t.killed i = true ∧ t.leader i = .reaped)) (killAndReap deadline i) s := by
  refine (signal_ok .kill hs fun _ => hi).bind fun ok s₁ hs₁ h₁ => ?_
  obtain ⟨hw₁, hok⟩ := h₁
  refine .await hs₁ (fun _ _ _ => trivial) fun s₂ _ s₃ h₂ ha hs₃ => ?_
  obtain rfl : s₃ = _ := ha
  have hw₃ := hw₁.trans ((h₂.within _ _).trans ((Within.release s₂ i).mono (fun _ h => h) (by simp)))
  refine .await hs₃ (fun s₄ h₄ _ => ?_) fun s₄ a s₅ h₄ ha hs₅ => ?_
  · exact ⟨by simp [h₄.owned], (hw₃.trans (h₄.within _ _)).due hd⟩
  have ho : s₄.owned i = false := by simp [h₄.owned]
  have hw₄ := hw₃.trans (h₄.within _ _)
  cases a with
  | error _ =>
    obtain rfl : s₅ = s₄ := ha
    exact .pure hs₅ ⟨hw₄, ho, by simp⟩
  | ok _ =>
    obtain ⟨rfl, -⟩ := ha
    refine .pure hs₅ ⟨hw₄.trans ((Within.reap s₄ i).mono (by simp) (by simp)), ho, fun h => ⟨?_, by simp⟩⟩
    have hk : s₂.killed i = true := by
      rw [h₂.killed]
      exact hok h
    show s₄.killed i = true
    rw [h₄.killed]
    exact hk

/-- A loop whose turns do something to their child that later turns leave as it is. -/
theorem anyFails_ok {turn : ℕ → Sup Bool} {l' k : List ℕ} {A B : ℕ → World → Prop}
    (hA : ∀ i a b, A i a → Within l' k a b → A i b) (hB : ∀ i a b, B i a → Within l' k a b → B i b)
    (l : List ℕ) (hs : Inv s)
    (hturn : ∀ i ∈ l, ∀ a, Inv a → Within l' k s a → Ok dropped budget
      (fun ok t => Within l' k a t ∧ A i t ∧ (ok = true → B i t)) (turn i) a) :
    Ok dropped budget (fun failed t => Within l' k s t ∧ (∀ i ∈ l, A i t) ∧
      (failed = false → ∀ i ∈ l, B i t)) (anyFails turn l) s := by
  induction l generalizing s with
  | nil => exact .pure hs ⟨(Env.refl s).within _ _, by simp, by simp⟩
  | cons i l ih =>
    refine (hturn i (.head _) s hs ((Env.refl s).within _ _)).bind fun ok s₁ hs₁ h₁ => ?_
    obtain ⟨hw₁, hA₁, hB₁⟩ := h₁
    have hrest := ih hs₁ fun j hj a ha hw =>
      hturn j (.tail _ hj) a ha (hw₁.trans hw)
    refine hrest.bind fun failed t ht h => .pure ht ⟨hw₁.trans h.1, ?_, fun hf => ?_⟩
    · exact List.forall_mem_cons.2 ⟨hA i _ _ hA₁ h.1, h.2.1⟩
    · simp only [Bool.or_eq_false_iff, Bool.not_eq_false'] at hf
      exact List.forall_mem_cons.2 ⟨hB i _ _ (hB₁ hf.1) h.1, h.2.2 hf.2⟩

theorem awaitExits_ok {children : List ℕ} {graceful : ℕ} (n : ℕ) (hs : Inv s) (hd : s.Due budget graceful) :
    Ok dropped budget (fun failed t => Within [] [] s t ∧ (failed = false → ∀ i ∈ children, t.Ended i))
      (awaitExits children graceful n) s := by
  induction n generalizing s with
  | zero => trivial
  | succ n ih =>
    refine (statuses_ok children hs).bind fun r s₁ hs₁ h₁ => ?_
    obtain ⟨running, failed⟩ := r
    obtain ⟨he₁, hrun, hend⟩ := h₁
    have hw₁ := he₁.within [] []
    dsimp only
    split
    · refine .await hs₁ (fun s₂ h₂ _ => ⟨(hw₁.trans (h₂.within _ _)).due hd, ?_⟩) fun s₂ a s₃ h₂ ha hs₃ => ?_
      -- an exit after the statuses were read is pending
      · rcases hrun ‹_› with hp | ⟨i, hi, h⟩
        · exact .inl (h₂.pending hp)
        · exact (h₂.awake h).imp id fun h => ⟨i, hi, h⟩
      · have hw₂ := hw₁.trans (h₂.within _ _)
        cases a with
        | false =>
          obtain ⟨rfl, -⟩ := ha
          exact .pure hs₃ ⟨hw₂, by simp⟩
        | true =>
          obtain ⟨rfl, -⟩ := ha
          have hw₃ := hw₂.trans (Within.received s₂)
          refine (ih hs₃ (hw₃.due hd)).bind fun failed' t ht h => .pure ht ⟨hw₃.trans h.1, fun hf => ?_⟩
          simp only [Bool.or_eq_false_iff] at hf
          exact h.2 hf.2
    · refine .pure hs₁ ⟨hw₁, fun hf => hend ?_⟩
      simp_all

/-- What has come of a child that was stopped in time. -/
structure Stopped (s : World) (i : ℕ) : Prop where
  told : s.told i = true
  killed : s.killed i = true
  /-- It ended by itself. -/
  slain : s.slain i = false
  /-- Nothing of the group is left. -/
  rest : s.rest i = false
  reaped : s.leader i = .reaped

theorem stop_ok {fuel : ℕ} {children : List ℕ} {graceful deadline : ℕ} (hs : Inv s)
    (hg : s.Due budget graceful) (hd : s.Due budget deadline)
    (hfree : ∀ i ∈ children, s.Turn i ∧ s.killed i = false) :
    Ok false budget (fun failed t => Within children children s t ∧ (∀ i ∈ children, t.owned i = false) ∧
      (failed = false → ∀ i ∈ children, Stopped t i)) (stop fuel children graceful deadline) s := by
  have hterm : Ok false budget (fun failed t => Within children [] s t ∧ (∀ i ∈ children, True) ∧
      (failed = false → ∀ i ∈ children, t.told i = true)) (anyFails (fun i => signal i .term) children) s := by
    refine anyFails_ok (fun _ _ _ _ _ => trivial) (fun i _ _ h hw => hw.told i h) children hs
      fun i hi a ha hw => ?_
    refine (signal_ok .term ha fun _ => hw.turn (hfree i hi).1).imp fun ok t _ h => ?_
    exact ⟨h.1.mono (by simpa using hi) (by simp [Within.kills]), trivial, h.2⟩
  refine hterm.bind fun untold s₁ hs₁ h₁ => ?_
  obtain ⟨hw₁, -, htold⟩ := h₁
  refine (awaitExits_ok fuel hs₁ (hw₁.due hg)).bind fun unawaited s₂ hs₂ h₂ => ?_
  obtain ⟨hw₂, hended⟩ := h₂
  have hw₂' := hw₁.trans (hw₂.mono (by simp) (by simp))
  have hkill : Ok false budget (fun failed t => Within children children s₂ t ∧ (∀ i ∈ children, t.owned i = false) ∧
      (failed = false → ∀ i ∈ children, t.killed i = true ∧ t.leader i = .reaped))
      (anyFails (killAndReap deadline) children) s₂ := by
    refine anyFails_ok (fun i a b h hw => ?_) (fun i _ _ h hw => ⟨hw.killed i h.1, hw.reaped i h.2⟩)
      children hs₂ fun i hi a ha hw => ?_
    · have := hw.owned i
      simpa [h] using this
    · have hturn := hw.turn (hw₂'.turn (hfree i hi).1)
      refine (killAndReap_ok ha hturn (hw.due (hw₂'.due hd))).imp fun ok t _ h => ?_
      exact ⟨h.1.mono (by simpa using hi) (by simpa using hi), h.2⟩
  refine hkill.bind fun unreaped s₃ hs₃ h₃ => .pure hs₃ ?_
  obtain ⟨hw₃, howned, hreaped⟩ := h₃
  refine ⟨(hw₂'.mono (fun _ h => h) (by simp)).trans hw₃, howned, fun hf i hi => ?_⟩
  simp only [Bool.or_eq_false_iff] at hf
  obtain ⟨hk, hr⟩ := hreaped hf.2 i hi
  refine ⟨hw₃.told i (hw₂.told i (htold hf.1.1 i hi)), hk, ?_, (hs₃.killed i hk).2, hr⟩
  -- it had ended before its SIGKILL
  rw [hw₃.slain i (hended hf.1.2 i hi), (hw₂'.unkilled i (by simp)).2]
  have hslain := hs.slain i
  simpa [(hfree i hi).2] using hslain

theorem drain_ok {children : List ℕ} {deadline : ℕ} (hs : Inv s) (hd : s.Due budget deadline) :
    Ok dropped budget (fun _ t => Within [] [] s t) (drain children deadline) s := by
  refine (anyFails_ok (A := fun _ _ => True) (B := fun _ _ => True) (fun _ _ _ _ _ => trivial)
    (fun _ _ _ _ _ => trivial) children hs fun i _ a ha hw => ?_).imp fun _ _ _ h => h.1
  refine .await ha (fun b hb _ => (hw.trans (hb.within _ _)).due hd) fun b _ c hb hc hinv => .pure hinv ?_
  obtain rfl : c = b := hc
  exact ⟨hb.within _ _, trivial, fun _ => trivial⟩

/-! ### The run -/

/-- Nothing is stopped yet. -/
structure Quiet (s : World) : Prop where
  start : s.start = none
  told : ∀ i, s.told i = false
  killed : ∀ i, s.killed i = false

theorem Env.quiet {s' : World} (h : Env s s') (hs : Quiet s) : Quiet s' :=
  ⟨h.start.trans hs.start, fun i => h.told ▸ hs.told i, fun i => h.killed ▸ hs.killed i⟩

theorem spawn_ok (n : ℕ) (hs : Inv s) (hq : Quiet s) : Ok false budget
    (fun r t => Quiet t ∧ t.spawned = match r with
      | .ok _ => s.spawned + 1
      | .error _ => s.spawned) (spawn s.spawned n) s := by
  generalize hi : s.spawned = i
  induction n generalizing s with
  | zero => exact .pure hs ⟨hq, hi⟩
  | succ n ih =>
    refine .await hs (fun s₁ h₁ _ => ⟨(h₁.quiet hq).start, (h₁.spawned.trans hi).symm⟩) fun s₁ a s₂ h₁ ha hs₂ => ?_
    have hq₁ := h₁.quiet hq
    cases a with
    | ok _ =>
      obtain rfl : s₂ = _ := ha
      exact .pure hs₂ ⟨⟨hq₁.start, hq₁.told, hq₁.killed⟩, rfl⟩
    | error error =>
      obtain rfl : s₂ = s₁ := ha
      dsimp only
      split
      · exact .pure hs₂ ⟨hq₁, h₁.spawned.trans hi⟩
      · refine .await hs₂ (fun s₃ h₃ _ => (h₃.quiet hq₁).start) fun s₃ _ s₄ h₃ ha hs₄ => ?_
        obtain rfl : s₄ = s₃ := ha
        exact ih hs₄ (h₃.quiet hq₁) (h₃.spawned.trans (h₁.spawned.trans hi))

theorem startAll_ok (n : ℕ) (hs : Inv s) (hq : Quiet s) (hn : s.spawned + n = 3) : Ok false budget
    (fun r t => Quiet t ∧ t.spawned = r.2 ∧ (r.1 = none → r.2 = 3) ∧
      ∀ reason, r.1 = some reason → reason.Holds t)
    (startAll (List.range' s.spawned n)) s := by
  induction n generalizing s with
  | zero => exact .pure hs ⟨hq, hn, by simp, by simp⟩
  | succ n ih =>
    refine (spawn_ok spawnBusyAttempts hs hq).bind fun r s₁ hs₁ h₁ => ?_
    obtain ⟨hq₁, hspawned⟩ := h₁
    cases r with
    | ok _ =>
      dsimp only at hspawned ⊢
      rw [← hspawned]
      exact ih hs₁ hq₁ (by omega)
    | error error =>
      refine .pure hs₁ ⟨hq₁, hspawned, by simp, ?_⟩
      rintro _ ⟨⟩
      exact hspawned

theorem watch_ok (fuel : ℕ) (hs : Inv s) (hq : Quiet s) (h3 : s.spawned = 3) : Ok false budget
    (fun reason t => Quiet t ∧ t.spawned = 3 ∧ reason.Holds t) (watch fuel) s := by
  induction fuel generalizing s with
  | zero => trivial
  | succ n ih =>
    refine (unexpected_ok [0, 1, 2] hs fun i _ => ⟨hq.told i, hq.killed i⟩).bind fun r s₁ hs₁ h₁ => ?_
    obtain ⟨he₁, hrun, hreason⟩ := h₁
    have hq₁ := he₁.quiet hq
    have h3₁ := he₁.spawned.trans h3
    cases r with
    | some reason => exact .pure hs₁ ⟨hq₁, h3₁, hreason reason rfl⟩
    | none =>
      refine .await hs₁ (fun s₂ h₂ _ => ⟨(h₂.quiet hq₁).start, ?_⟩) fun s₂ a s₃ h₂ ha hs₃ => ?_
      · rcases hrun rfl with hp | hrun
        · exact .inl (h₂.pending hp)
        · have hall : s₂.pending = true ∨ ∀ i < 3, s₂.leader i = .running := by
            by_cases hp : s₂.pending = true
            · exact .inl hp
            · refine .inr fun i hi => (h₂.awake (hrun i ?_)).resolve_left hp
              simp only [List.mem_cons, List.not_mem_nil, or_false]
              omega
          rwa [h₂.spawned, h3₁]
      · have hq₂ := h₂.quiet hq₁
        have h3₂ := h₂.spawned.trans h3₁
        cases a with
        | some sig =>
          obtain rfl : s₃ = s₂ := ha
          exact .pure hs₃ ⟨hq₂, h3₂, h3₂⟩
        | none =>
          obtain ⟨rfl, -⟩ := ha
          exact ih hs₃ ⟨hq₂.start, hq₂.told, hq₂.killed⟩ h3₂

theorem ExitReason.Holds.within {reason : ExitReason} {l k : List ℕ} {s' : World} (h : reason.Holds s)
    (hw : Within l k s s') : reason.Holds s' := by
  cases reason with
  | signal n => exact hw.spawned.trans h
  | childExited i st => exact ⟨h.1, hw.spawned ▸ h.2.1, hw.early i h.2.2⟩
  | collectorExited st => exact ⟨hw.spawned ▸ h.1, hw.early 0 h.2⟩
  | spawnFailed i e => exact hw.spawned.trans h
  | internal => trivial

theorem Stopped.within {i : ℕ} {l k : List ℕ} {s' : World} (h : Stopped s i) (hs' : Inv s')
    (hw : Within l k s s') : Stopped s' i where
  told := hw.told i h.told
  killed := hw.killed i h.killed
  slain := (hw.slain i (.inr h.reaped)).trans h.slain
  rest := (hs'.killed i (hw.killed i h.killed)).2
  reaped := hw.reaped i h.reaped

/-- What a report says of the children. -/
structure Report.Holds (r : Report) (s : World) : Prop where
  reason : r.reason.Holds s
  released : ∀ i, s.owned i = false
  stopped : r.timedOut = false → ∀ i < s.spawned, Stopped s i
  planned : r.exitCode = 0 → s.spawned = 3 ∧ r.timedOut = false

theorem mem_services {count i : ℕ} : i ∈ services count ↔ i ≠ 0 ∧ i < count := by
  cases count with
  | zero => simp [services]
  | succ n =>
    simp only [services, List.range_succ_eq_map, List.tail_cons, List.mem_map, List.mem_range]
    constructor
    · rintro ⟨a, ha, rfl⟩
      exact ⟨Nat.succ_ne_zero a, Nat.succ_lt_succ ha⟩
    · rintro ⟨h0, hi⟩
      exact ⟨i - 1, by omega, by omega⟩

theorem stopServices_ok {fuel start count : ℕ} (hs : Inv s) (hstart : s.start = some start)
    (hk : ∀ i, s.killed i = false) : Ok false budget
    (fun failed t => Within (services count) (services count) s t ∧
      (∀ i ∈ services count, t.owned i = false) ∧ (failed = false → ∀ i ∈ services count, Stopped t i))
    (stopServices fuel start budget count) s := by
  have hdue : ∀ d ≤ budget, s.Due budget (start + d) := fun d hd => ⟨start, hstart, by omega⟩
  have hturn : ∀ i ∈ services count, s.Turn i ∧ s.killed i = false := fun i hi =>
    ⟨fun h0 => absurd h0 (mem_services.1 hi).1, hk i⟩
  rw [stopServices]
  split
  · subst count
    exact .pure hs ⟨(Env.refl s).within _ _, by simp [services], by simp [services]⟩
  refine (stop_ok hs (hdue _ (by omega)) (hdue _ (by omega)) hturn).bind fun unstopped s₁ hs₁ h₁ => ?_
  obtain ⟨hw₁, howned, hstopped⟩ := h₁
  refine (drain_ok hs₁ (hw₁.due (hdue _ (by omega)))).bind fun undrained s₂ hs₂ hw₂ => ?_
  have hw₂' := hw₁.trans (hw₂.mono (by simp) (by simp))
  refine .await hs₂ (fun s₃ h₃ _ => (hw₂'.trans (h₃.within _ _)).due (hdue _ (by omega))) fun s₃ a s₄ h₃ ha hs₄ => ?_
  obtain rfl : s₄ = s₃ := ha
  have hw := hw₂.trans (h₃.within _ _)
  refine .pure hs₄ ⟨hw₂'.trans (h₃.within _ _), fun i hi => ?_, fun hf i hi => ?_⟩
  · rw [(hw.others i (by simp)).1, howned i hi]
  · simp only [Bool.or_eq_false_iff] at hf
    exact (hstopped hf.1.1 i hi).within hs₄ hw

theorem stopCollector_ok {fuel start count : ℕ} (hs : Inv s) (hstart : s.start = some start)
    (hturn : s.Turn 0) (hk : s.killed 0 = false) : Ok false budget
    (fun failed t => Within [0] [0] s t ∧ (count ≠ 0 → t.owned 0 = false ∧ (failed = false → Stopped t 0)))
    (stopCollector fuel start budget count) s := by
  have hdue : ∀ d ≤ budget, s.Due budget (start + d) := fun d hd => ⟨start, hstart, by omega⟩
  rw [stopCollector]
  split
  · exact .pure hs ⟨(Env.refl s).within _ _, by tauto⟩
  refine (stop_ok hs (hdue _ (by omega)) (hdue _ (by omega)) (by simp [hturn, hk])).bind
    fun unstopped s₁ hs₁ h₁ => ?_
  obtain ⟨hw₁, howned, hstopped⟩ := h₁
  refine (drain_ok hs₁ (hw₁.due (hdue _ (by omega)))).bind fun undrained s₂ hs₂ hw₂ => .pure hs₂ ?_
  refine ⟨hw₁.trans (hw₂.mono (by simp) (by simp)), fun _ => ⟨?_, fun hf => ?_⟩⟩
  · rw [(hw₂.others 0 (by simp)).1, howned 0 (by simp)]
  · simp only [Bool.or_eq_false_iff] at hf
    exact (hstopped hf.1 0 (by simp)).within hs₂ hw₂

theorem finalReason_ok {reason : ExitReason} (hs : Inv s) (hr : reason.Holds s) (ht : s.told 0 = false)
    (hk : s.killed 0 = false) : Ok dropped budget (fun r t => Within [] [] s t ∧ r.Holds t)
    (finalReason reason) s := by
  cases reason with
  | signal sig =>
    refine (unexpected_ok [0] hs (by simp [ht, hk])).bind fun found s₁ hs₁ h₁ => .pure hs₁ ?_
    obtain ⟨he, -, hfound⟩ := h₁
    refine ⟨he.within _ _, ?_⟩
    cases found with
    | none => exact hr.within (he.within [] [])
    | some reason => exact hfound reason rfl
  | childExited | collectorExited | spawnFailed | internal => exact .pure hs ⟨(Env.refl s).within _ _, hr⟩

theorem Report.planned_of_reason {r : Report} (hr : r.reason.Holds s) (h : r.exitCode = 0) :
    s.spawned = 3 ∧ r.timedOut = false := by
  obtain ⟨reason, timedOut⟩ := r
  cases reason with
  | signal n =>
    refine ⟨hr, ?_⟩
    cases timedOut with
    | false => rfl
    | true => simp [Report.exitCode] at h
  | spawnFailed i e => cases e <;> simp [Report.exitCode] at h
  | childExited | collectorExited | internal => simp [Report.exitCode] at h

theorem shutDown_ok {fuel start count : ℕ} {reason : ExitReason} (hs : Inv s) (hstart : s.start = some start)
    (ht : ∀ i, s.told i = false) (hk : ∀ i, s.killed i = false) (hcount : s.spawned = count)
    (hr : reason.Holds s) :
    Ok false budget (fun r t => r.Holds t) (shutDown fuel start budget count reason) s := by
  have h0 : 0 ∉ services count := by simp [mem_services]
  refine (stopServices_ok hs hstart hk).bind fun timedOut s₁ hs₁ h₁ => ?_
  obtain ⟨hw₁, howned, hstopped⟩ := h₁
  refine (finalReason_ok hs₁ (hr.within hw₁) ((hw₁.others 0 h0).2.trans (ht 0))
    ((hw₁.unkilled 0 h0).1.trans (hk 0))).bind fun reason' s₂ hs₂ h₂ => ?_
  obtain ⟨hw₂, hr₂⟩ := h₂
  have hcount₂ : s₂.spawned = count := by rw [hw₂.spawned, hw₁.spawned, hcount]
  -- the services are released, and no other child was spawned
  have hfree : ∀ k, k ≠ 0 → s₂.owned k = false := by
    intro k h
    by_cases hkc : k < count
    · rw [(hw₂.others k (by simp)).1, howned k (mem_services.2 ⟨h, hkc⟩)]
    · exact hs₂.unowned (by omega)
  have hk₂ : s₂.killed 0 = false := by rw [(hw₂.unkilled 0 (by simp)).1, (hw₁.unkilled 0 h0).1, hk]
  have hstart₂ : s₂.start = some start := by rw [hw₂.start, hw₁.start, hstart]
  refine (stopCollector_ok hs₂ hstart₂ (fun _ => hfree) hk₂).bind fun timedOut' s₃ hs₃ h₃ => ?_
  obtain ⟨hw₃, hcollector⟩ := h₃
  refine .await hs₃ (fun s₄ h₄ _ => ⟨start, ?_, Nat.le_refl _⟩) fun s₄ unwritten s₅ h₄ ha hs₅ => .pure hs₅ ?_
  · rw [h₄.start, hw₃.start, hstart₂]
  obtain rfl : s₅ = s₄ := ha
  have hw₄ := h₄.within [] []
  have hr₄ := (hr₂.within hw₃).within hw₄
  refine ⟨hr₄, fun i => ?_, fun hf i hi => ?_, Report.planned_of_reason hr₄⟩
  · rw [h₄.owned]
    by_cases hi : i = 0
    · subst hi
      by_cases hc : count = 0
      · exact hs₃.unowned (by rw [hw₃.spawned]; omega)
      · exact (hcollector hc).1
    · rw [(hw₃.others i (by simpa using hi)).1, hfree i hi]
  · simp only [Bool.or_eq_false_iff] at hf
    rw [hw₄.spawned, hw₃.spawned, hcount₂] at hi
    by_cases hi0 : i = 0
    · subst hi0
      exact ((hcollector (by omega)).2 hf.1.2).within hs₅ hw₄
    · have hsvc := hstopped hf.1.1 i (mem_services.2 ⟨hi0, hi⟩)
      exact ((hsvc.within hs₂ hw₂).within hs₃ hw₃).within hs₅ hw₄

theorem run_ok (fuel : ℕ) : Ok false budget (fun r t => r.Holds t) (run fuel budget) .init := by
  have hinit : Inv .init := ⟨fun _ _ => ⟨rfl, rfl, rfl⟩, by simp [World.init], by simp [World.init],
    by simp [World.init], by simp [World.init]⟩
  have hquiet : Quiet .init := ⟨rfl, fun _ => rfl, fun _ => rfl⟩
  refine (startAll_ok 3 hinit hquiet rfl).bind fun r s₁ hs₁ h₁ => ?_
  obtain ⟨failure, count⟩ := r
  obtain ⟨hq₁, hcount, hthree, hfailure⟩ := h₁
  dsimp only at hcount hthree hfailure ⊢
  have hreason : Ok false budget (fun reason t => Quiet t ∧ t.spawned = count ∧ reason.Holds t)
      (shutdownReason fuel failure) s₁ := by
    cases failure with
    | some reason => exact .pure hs₁ ⟨hq₁, hcount, hfailure reason rfl⟩
    | none =>
      refine (watch_ok fuel hs₁ hq₁ (hcount.trans (hthree rfl))).imp fun reason t _ h => ?_
      exact ⟨h.1, h.2.1.trans (hthree rfl).symm, h.2.2⟩
  refine hreason.bind fun reason s₂ hs₂ h₂ => ?_
  obtain ⟨hq₂, hcount₂, hr₂⟩ := h₂
  refine .await hs₂ (fun s₃ h₃ _ => (h₃.quiet hq₂).start) fun s₃ start s₄ h₃ ha hs₄ => ?_
  obtain ⟨rfl, rfl⟩ := ha
  have hq₃ := h₃.quiet hq₂
  have hw₃ := h₃.within [] []
  have hr₃ := hr₂.within hw₃
  refine shutDown_ok hs₄ rfl hq₃.told hq₃.killed (h₃.spawned.trans hcount₂) ?_
  cases reason <;> exact hr₃

theorem dropAll_ok (l : List ℕ) (hs : Inv s) : Ok true budget (fun _ _ => True) (dropAll l) s := by
  induction l generalizing s with
  | nil => exact .pure hs trivial
  | cons i l ih => exact (signal_ok .kill hs (by simp)).bind fun _ _ hs₁ _ => ih hs₁

/-- **Every run of the supervisor, whatever its system calls answer and whenever processes
exit between them.**  A group is signalled only while its unreaped leader reserves it, and
a leader is reaped only when its group gets no further signal.  The collector is signalled
after the services are released.  No wait for a change sleeps through an exit, and after
the shutdown has begun every wait ends within the budget.  At the end every child is
released; those of a report without a timeout got a SIGTERM, ended by themselves, left
nothing of their group and were reaped, and exit code 0 says this of all three.  A child
that is reported to have exited had not been told to.

A drop at any effect of the run signals reserved groups only. -/
theorem process_supervision (fuel budget : ℕ) :
    Ok false budget (fun report s => report.Holds s) (run fuel budget) .init ∧
      ∀ s l, Inv s → Ok true budget (fun _ _ => True) (dropAll l) s :=
  ⟨run_ok fuel, fun _ l hs => dropAll_ok l hs⟩

end Rules

end ProcessSupervisor

end Dashboard

/-
The progress clock of the health state.

The model of `HealthState` in `quip-dashboard/src/health.rs`: its seven recorders,
each under the lock and at an instant the monotonic clock gave inside it, and its
`snapshot`.  `waiting` is the instant the stall check counts from.

* `waiting_isSome_iff` — an instant is present exactly when the highest finalized
  height exceeds the highest committed one;
* `waiting_eq` — it is the later of the last commit that raised the height and the
  last call with which finalized came to exceed committed;
* `waiting_progress_clock` — **both, after every sequence of calls; and no call
  but one that raises the committed height moves a present instant, so the stalled
  verdict of every later snapshot counts from it**.
-/
import Mathlib.Data.List.Induction
import Mathlib.Order.Lattice
import QuipDashboard.Records

namespace Dashboard

namespace Health

/-! ### The health state -/

/-- `RequiredTask`, in the order of the source. -/
inductive RequiredTask
  | http
  | indexer
  | miner
  | watchdog
  | fileWriter
  deriving DecidableEq

/-- The derived `Debug` text of a task. -/
def RequiredTask.name : RequiredTask → String
  | http => "Http"
  | indexer => "Indexer"
  | miner => "Miner"
  | watchdog => "Watchdog"
  | fileWriter => "FileWriter"

/-- `Phase`. -/
inductive Phase
  | localStartup
  | connecting
  | verifying
  | ready
  | stopping
  deriving DecidableEq

/-- The derived `Debug` text of a phase. -/
def Phase.name : Phase → String
  | localStartup => "LocalStartup"
  | connecting => "Connecting"
  | verifying => "Verifying"
  | ready => "Ready"
  | stopping => "Stopping"

/-- `State`.  Instants are nanoseconds of the monotonic clock; `dead` is the set
of exited tasks. -/
structure State where
  indexing : Bool
  phase : Phase
  started : ℕ
  watchdog : ℕ
  dead : RequiredTask → Bool
  connected : Bool
  best : Option ℕ
  finalized : Option ℕ
  committed : Option ℕ
  waiting : Option ℕ
  minerSuccess : Option ℕ
  minerUtc : Option String
  commitUtc : Option String
  headUtc : Option String

/-- `HealthState::new`, at the instant `now`. -/
def State.new (indexing : Bool) (now : ℕ) : State where
  indexing := indexing
  phase := .localStartup
  started := now
  watchdog := now
  dead := fun _ => false
  connected := false
  best := none
  finalized := none
  committed := none
  waiting := none
  minerSuccess := none
  minerUtc := none
  commitUtc := none
  headUtc := none

/-- The recorders. -/
inductive Call
  | setPhase (phase : Phase)
  | heartbeat (task : RequiredTask)
  | taskExited (task : RequiredTask)
  | connected (connected : Bool)
  | headReceived (best finalized : Option ℕ)
  | committed (height : ℕ)
  | minerSuccess (observedAt : String)

/-- A call with what the clocks say while it holds the lock. -/
structure TimedCall where
  call : Call
  time : ℕ
  utc : String

/-- `heartbeat`. -/
def State.heartbeat (s : State) (task : RequiredTask) (now : ℕ) : State :=
  if task = .watchdog then { s with watchdog := now } else s

/-- `task_exited`. -/
def State.taskExited (s : State) (task : RequiredTask) : State :=
  if s.indexing || task = .http || task = .watchdog || task = .fileWriter then
    { s with dead := Function.update s.dead task true }
  else s

/-- `prior.map_or(height, |prior| prior.max(height))`. -/
def raisedTo (prior : Option ℕ) (height : ℕ) : ℕ := prior.elim height (fun p => max p height)

/-- The last statement of `head_received`. -/
def State.startWaiting (s : State) (now : ℕ) : State :=
  if s.finalized.getD 0 > s.committed.getD 0 ∧ s.waiting = none then
    { s with waiting := some now }
  else s

/-- `head_received`. -/
def State.headReceived (s : State) (best finalized : Option ℕ) (now : ℕ)
    (utc : String) : State :=
  let s := { s with headUtc := some utc }
  let s := match best with
    | some best => { s with best := some (raisedTo s.best best) }
    | none => s
  let s := match finalized with
    | some finalized => { s with finalized := some (raisedTo s.finalized finalized) }
    | none => s
  s.startWaiting now

/-- `committed.is_none_or(|prior| height > prior)`. -/
def isRaise (prior : Option ℕ) (height : ℕ) : Bool := prior.all (fun p => decide (height > p))

/-- `committed`. -/
def State.commit (s : State) (height now : ℕ) (utc : String) : State :=
  if isRaise s.committed height then
    { s with
      committed := some height
      commitUtc := some utc
      waiting := if s.finalized.getD 0 > height then some now else none }
  else s

/-- `miner_success`. -/
def State.recordMiner (s : State) (observedAt : String) (now : ℕ) : State :=
  if s.minerUtc ≠ some observedAt then
    { s with minerSuccess := some now, minerUtc := some observedAt }
  else s

/-- One call. -/
def State.apply (s : State) (c : TimedCall) : State :=
  match c.call with
  | .setPhase phase => { s with phase }
  | .heartbeat task => s.heartbeat task c.time
  | .taskExited task => s.taskExited task
  | .connected connected => { s with connected }
  | .headReceived best finalized => s.headReceived best finalized c.time c.utc
  | .committed height => s.commit height c.time c.utc
  | .minerSuccess observedAt => s.recordMiner observedAt c.time

/-- The state after the calls, latest first, on a state made at `started`. -/
def stateAfter (indexing : Bool) (started : ℕ) : List TimedCall → State
  | [] => .new indexing started
  | c :: earlier => (stateAfter indexing started earlier).apply c

/-! ### The snapshot -/

/-- `Duration::from_secs`, in nanoseconds. -/
def fromSecs (secs : ℕ) : ℕ := secs * 1000000000

/-- The instants at which the three `elapsed()` of a snapshot read the clock. -/
structure ElapsedAt where
  task : ℕ
  waiting : ℕ
  miner : ℕ

/-- `since.elapsed() > Duration::from_secs(secs)`. -/
def elapsedOver (since now secs : ℕ) : Bool := decide (now - since > fromSecs secs)

/-- The reason of a stall. -/
def stalledReason : String := "finalized heads advance without committed progress for 90 seconds"

/-- The reasons that end liveness. -/
def State.liveReasons (s : State) (at_ : ElapsedAt) : List String :=
  ([.http, .indexer, .miner, .watchdog, .fileWriter].filter s.dead).map
    (fun task : RequiredTask => s!"required task {task.name} exited") ++
  (if s.phase = .localStartup then
    if elapsedOver s.started at_.task 60 then ["local startup exceeded 60 seconds"] else []
  else if elapsedOver s.watchdog at_.task 15 then
    ["watchdog has not progressed for 15 seconds"] else [])

/-- The reasons that end readiness while indexing. -/
def State.indexingReasons (s : State) (at_ : ElapsedAt) : List String :=
  (if s.connected then [] else ["validator subscription unavailable"]) ++
  (if s.waiting.any (fun since => elapsedOver since at_.waiting 90) then [stalledReason] else []) ++
  (if s.minerSuccess.all (fun since => elapsedOver since at_.miner 90) then
    ["no recent successful miner poll"] else [])

/-- `HealthSnapshot`. -/
structure Snapshot where
  ok : Bool
  live : Bool
  ready : Bool
  phase : Phase
  lastStatusFetchAt : Option String
  lastBlockInsertAt : Option String
  lastSubstrateEventAt : Option String
  chainConnected : Bool
  bestBlockHeight : Option String
  finalizedBlockHeight : Option String
  lastCommittedHeight : Option String
  reasons : List String

/-- `snapshot`. -/
def State.snapshot (s : State) (at_ : ElapsedAt) : Snapshot :=
  let live := s.liveReasons at_
  let reasons := live ++
    (if s.phase ≠ .ready then [s!"service phase is {s.phase.name}"] else []) ++
    (if s.indexing then s.indexingReasons at_ else [])
  { ok := reasons.isEmpty
    live := live.isEmpty
    ready := reasons.isEmpty
    phase := s.phase
    lastStatusFetchAt := s.minerUtc
    lastBlockInsertAt := s.commitUtc
    lastSubstrateEventAt := s.headUtc
    chainConnected := s.connected
    bestBlockHeight := s.best.map toString
    finalizedBlockHeight := s.finalized.map toString
    lastCommittedHeight := s.committed.map toString
    reasons }

/-! ### What a sequence of calls says -/

/-- The finalized height that a call reports. -/
def Call.finalized? : Call → Option ℕ
  | .headReceived _ finalized => finalized
  | _ => none

/-- The height that a call records as committed. -/
def Call.committed? : Call → Option ℕ
  | .committed height => some height
  | _ => none

/-- The highest finalized height of the calls. -/
def highestFinalized (calls : List TimedCall) : Option ℕ :=
  (calls.filterMap fun c => c.call.finalized?).max?

/-- The highest committed height of the calls. -/
def highestCommitted (calls : List TimedCall) : Option ℕ :=
  (calls.filterMap fun c => c.call.committed?).max?

/-- Finalized exceeds committed, an absent height counted as zero. -/
def Exceeds (calls : List TimedCall) : Prop :=
  (highestCommitted calls).getD 0 < (highestFinalized calls).getD 0

instance : DecidablePred Exceeds := fun _ => inferInstanceAs (Decidable (_ < _))

/-- The call raises the committed height; the first commit does. -/
def RaisesCommitted (earlier : List TimedCall) (c : TimedCall) : Prop :=
  match c.call.committed? with
  | some height => isRaise (highestCommitted earlier) height
  | none => False

instance (earlier : List TimedCall) (c : TimedCall) : Decidable (RaisesCommitted earlier c) := by
  unfold RaisesCommitted
  split <;> infer_instance

/-- With the call, finalized comes to exceed committed. -/
def ComesToExceed (earlier : List TimedCall) (c : TimedCall) : Prop :=
  ¬Exceeds earlier ∧ Exceeds (c :: earlier)

instance (earlier : List TimedCall) (c : TimedCall) : Decidable (ComesToExceed earlier c) :=
  inferInstanceAs (Decidable (_ ∧ _))

/-- The time of the last call that satisfies `P` after the calls before it. -/
def lastTime (P : List TimedCall → TimedCall → Prop) [∀ earlier c, Decidable (P earlier c)] :
    List TimedCall → Option ℕ
  | [] => none
  | c :: earlier => if P earlier c then some c.time else lastTime P earlier

/-- The clock does not go back: each call is no earlier than those before it. -/
def InOrder (calls : List TimedCall) : Prop := calls.Pairwise fun c earlier => earlier.time ≤ c.time

section lastTime

variable {P : List TimedCall → TimedCall → Prop} [∀ earlier c, Decidable (P earlier c)]

theorem lastTime_mem {calls : List TimedCall} {t : ℕ} (h : lastTime P calls = some t) :
    ∃ c ∈ calls, c.time = t := by
  induction calls with
  | nil => cases h
  | cons c earlier ih =>
    rw [lastTime] at h
    split at h
    · exact ⟨c, List.mem_cons_self .., Option.some.inj h⟩
    · obtain ⟨d, hd, ht⟩ := ih h
      exact ⟨d, List.mem_cons_of_mem _ hd, ht⟩

/-- No last time is after the newest call. -/
theorem lastTime_le {c : TimedCall} {earlier : List TimedCall} (h : InOrder (c :: earlier))
    {t : ℕ} (ht : lastTime P earlier = some t) : t ≤ c.time := by
  obtain ⟨d, hd, rfl⟩ := lastTime_mem ht
  exact List.rel_of_pairwise_cons h hd

theorem max_lastTime {c : TimedCall} {earlier : List TimedCall} (h : InOrder (c :: earlier)) :
    max (lastTime P earlier) (some c.time) = some c.time := by
  cases ht : lastTime P earlier with
  | none => rfl
  | some t => exact congrArg some (max_eq_right (lastTime_le h ht))

theorem max_time_lastTime {c : TimedCall} {earlier : List TimedCall} (h : InOrder (c :: earlier)) :
    max (some c.time) (lastTime P earlier) = some c.time := by
  cases ht : lastTime P earlier with
  | none => rfl
  | some t => exact congrArg some (max_eq_left (lastTime_le h ht))

end lastTime

/-! ### The state after a sequence of calls -/

variable {indexing : Bool} {started : ℕ}

theorem State.startWaiting_finalized (s : State) (now : ℕ) :
    (s.startWaiting now).finalized = s.finalized := by
  unfold State.startWaiting
  split <;> rfl

theorem State.startWaiting_committed (s : State) (now : ℕ) :
    (s.startWaiting now).committed = s.committed := by
  unfold State.startWaiting
  split <;> rfl

/-- What one call does to the finalized height. -/
theorem State.apply_finalized (s : State) (c : TimedCall) :
    (s.apply c).finalized = match c.call.finalized? with
      | some finalized => some (raisedTo s.finalized finalized)
      | none => s.finalized := by
  unfold State.apply Call.finalized?
  cases c.call with
  | headReceived best finalized =>
    cases best <;> cases finalized <;> exact State.startWaiting_finalized ..
  | heartbeat task => simp only [State.heartbeat]; split <;> rfl
  | taskExited task => simp only [State.taskExited]; split <;> rfl
  | committed height => simp only [State.commit]; split <;> rfl
  | minerSuccess observedAt => simp only [State.recordMiner]; split <;> rfl
  | _ => rfl

/-- What one call does to the committed height. -/
theorem State.apply_committed (s : State) (c : TimedCall) :
    (s.apply c).committed = match c.call.committed? with
      | some height => if isRaise s.committed height then some height else s.committed
      | none => s.committed := by
  unfold State.apply Call.committed?
  cases c.call with
  | headReceived best finalized =>
    cases best <;> cases finalized <;> exact State.startWaiting_committed ..
  | heartbeat task => simp only [State.heartbeat]; split <;> rfl
  | taskExited task => simp only [State.taskExited]; split <;> rfl
  | committed height => simp only [State.commit]; split <;> rfl
  | minerSuccess observedAt => simp only [State.recordMiner]; split <;> rfl
  | _ => rfl

theorem highestFinalized_cons (c : TimedCall) (earlier : List TimedCall) :
    highestFinalized (c :: earlier) = match c.call.finalized? with
      | some finalized => some (raisedTo (highestFinalized earlier) finalized)
      | none => highestFinalized earlier := by
  unfold highestFinalized
  cases hc : c.call.finalized? with
  | none => simp only [List.filterMap_cons, hc]
  | some finalized =>
    simp only [List.filterMap_cons, hc, List.max?_cons]
    cases (earlier.filterMap fun c => c.call.finalized?).max? with
    | none => rfl
    | some prior => exact congrArg some (max_comm finalized prior)

theorem highestCommitted_cons (c : TimedCall) (earlier : List TimedCall) :
    highestCommitted (c :: earlier) = match c.call.committed? with
      | some height =>
        if isRaise (highestCommitted earlier) height then some height
        else highestCommitted earlier
      | none => highestCommitted earlier := by
  unfold highestCommitted
  cases hc : c.call.committed? with
  | none => simp only [List.filterMap_cons, hc]
  | some height =>
    simp only [List.filterMap_cons, hc, List.max?_cons]
    cases (earlier.filterMap fun c => c.call.committed?).max? with
    | none => rfl
    | some prior =>
      simp only [Option.elim_some, isRaise, Option.all_some, decide_eq_true_eq]
      split
      · rename_i hlt
        rw [max_eq_left hlt.le]
      · rename_i hlt
        rw [max_eq_right (not_lt.mp hlt)]

/-- The finalized height kept is the highest one reported. -/
theorem stateAfter_finalized (calls : List TimedCall) :
    (stateAfter indexing started calls).finalized = highestFinalized calls := by
  induction calls with
  | nil => rfl
  | cons c earlier ih => rw [stateAfter, State.apply_finalized, highestFinalized_cons, ih]

/-- The committed height kept is the highest one recorded. -/
theorem stateAfter_committed (calls : List TimedCall) :
    (stateAfter indexing started calls).committed = highestCommitted calls := by
  induction calls with
  | nil => rfl
  | cons c earlier ih => rw [stateAfter, State.apply_committed, highestCommitted_cons, ih]

theorem stateAfter_indexing (calls : List TimedCall) :
    (stateAfter indexing started calls).indexing = indexing := by
  induction calls with
  | nil => rfl
  | cons c earlier ih =>
    rw [stateAfter, State.apply]
    cases c.call with
    | headReceived best finalized =>
      cases best <;> cases finalized <;>
        (simp only [State.headReceived, State.startWaiting]; split <;> exact ih)
    | heartbeat task => simp only [State.heartbeat]; split <;> exact ih
    | taskExited task => simp only [State.taskExited]; split <;> exact ih
    | committed height => simp only [State.commit]; split <;> exact ih
    | minerSuccess observedAt => simp only [State.recordMiner]; split <;> exact ih
    | _ => exact ih

/-- A commit that raises the height starts the clock anew, or stops it. -/
theorem State.apply_waiting_of_raise {s : State} {c : TimedCall} {height : ℕ}
    (hc : c.call.committed? = some height) (hr : isRaise s.committed height) :
    (s.apply c).waiting = if height < s.finalized.getD 0 then some c.time else none := by
  unfold State.apply
  cases hcall : c.call with
  | committed h =>
    rw [hcall] at hc
    obtain rfl := Option.some.inj hc
    simp only [State.commit, hr, if_true]
  | _ => rw [hcall] at hc; cases hc

/-- `waiting` is present exactly when finalized exceeds committed. -/
def State.ClockRuns (s : State) : Prop :=
  s.waiting.isSome ↔ s.committed.getD 0 < s.finalized.getD 0

theorem State.ClockRuns.eq_none {s : State} (hs : s.ClockRuns)
    (h : ¬s.committed.getD 0 < s.finalized.getD 0) : s.waiting = none := by
  cases hw : s.waiting with
  | none => rfl
  | some since => exact absurd (hs.mp (by rw [hw]; rfl)) h

/-- A call that reports no finalized height and commits nothing higher leaves the
instant alone. -/
theorem State.apply_waiting_of_other {s : State} {c : TimedCall}
    (hr : ∀ height, c.call.committed? = some height → isRaise s.committed height = false)
    (hf : ∀ best finalized, c.call ≠ .headReceived best finalized) :
    (s.apply c).waiting = s.waiting := by
  unfold State.apply
  cases hcall : c.call with
  | headReceived best finalized => exact absurd hcall (hf best finalized)
  | committed height =>
    have hlow := hr height (by rw [hcall]; rfl)
    simp only [State.commit, hlow, Bool.false_eq_true, if_false]
  | heartbeat task => simp only [State.heartbeat]; split <;> rfl
  | taskExited task => simp only [State.taskExited]; split <;> rfl
  | minerSuccess observedAt => simp only [State.recordMiner]; split <;> rfl
  | _ => rfl

/-- A head gives an instant only where there is none and finalized exceeds committed. -/
theorem State.apply_waiting_of_head {s : State} {c : TimedCall} {best finalized : Option ℕ}
    (hcall : c.call = .headReceived best finalized) :
    (s.apply c).waiting =
      if s.committed.getD 0 < (s.apply c).finalized.getD 0 ∧ s.waiting = none then some c.time
      else s.waiting := by
  unfold State.apply
  rw [hcall]
  cases best <;> cases finalized <;>
    (simp only [State.headReceived, State.startWaiting]
     split <;> rfl)

/-- No call lowers the finalized height. -/
theorem State.finalized_le_apply (s : State) (c : TimedCall) :
    s.finalized.getD 0 ≤ (s.apply c).finalized.getD 0 := by
  rw [State.apply_finalized]
  cases c.call.finalized? with
  | none => exact le_refl _
  | some finalized =>
    cases s.finalized with
    | none => exact Nat.zero_le _
    | some prior => exact le_max_left prior finalized

/-- What a call that commits nothing higher does to the instant. -/
theorem State.apply_waiting_of_not_raise {s : State} {c : TimedCall} (hs : s.ClockRuns)
    (hr : ∀ height, c.call.committed? = some height → isRaise s.committed height = false) :
    (s.apply c).waiting =
      if s.committed.getD 0 < s.finalized.getD 0 then s.waiting
      else if s.committed.getD 0 < (s.apply c).finalized.getD 0 then some c.time
      else none := by
  by_cases hhead : ∃ best finalized, c.call = .headReceived best finalized
  · obtain ⟨best, finalized, hcall⟩ := hhead
    rw [State.apply_waiting_of_head hcall]
    by_cases hex : s.committed.getD 0 < s.finalized.getD 0
    · have hsome := Option.isSome_iff_ne_none.mp (hs.mpr hex)
      rw [if_pos hex, if_neg fun h => hsome h.2]
    · have hnone := hs.eq_none hex
      simp only [hnone, and_true, if_neg hex]
  · have hother : ∀ best finalized, c.call ≠ .headReceived best finalized :=
      fun best finalized h => hhead ⟨best, finalized, h⟩
    have hsame : (s.apply c).finalized = s.finalized := by
      rw [State.apply_finalized]
      cases hcall : c.call with
      | headReceived best finalized => exact absurd hcall (hother best finalized)
      | _ => rfl
    rw [State.apply_waiting_of_other hr hother, hsame]
    by_cases hex : s.committed.getD 0 < s.finalized.getD 0
    · rw [if_pos hex]
    · rw [if_neg hex, if_neg hex, hs.eq_none hex]

/-! ### The instant after a sequence of calls -/

theorem exceeds_iff (indexing : Bool) (started : ℕ) (calls : List TimedCall) :
    Exceeds calls ↔ (stateAfter indexing started calls).committed.getD 0 <
      (stateAfter indexing started calls).finalized.getD 0 := by
  rw [stateAfter_committed, stateAfter_finalized]
  rfl

theorem raisesCommitted_iff (indexing : Bool) (started : ℕ) {earlier : List TimedCall}
    {c : TimedCall} :
    RaisesCommitted earlier c ↔ ∃ height, c.call.committed? = some height ∧
      isRaise (stateAfter indexing started earlier).committed height := by
  rw [stateAfter_committed, RaisesCommitted]
  cases c.call.committed? with
  | none => simp
  | some height => simp

/-- The instant after a raise. -/
theorem waiting_of_raises {earlier : List TimedCall} {c : TimedCall}
    (h : RaisesCommitted earlier c) :
    (stateAfter indexing started (c :: earlier)).waiting =
      if Exceeds (c :: earlier) then some c.time else none := by
  obtain ⟨height, hc, hr⟩ := (raisesCommitted_iff indexing started).mp h
  have hf : c.call.finalized? = none := by
    cases hcall : c.call with
    | committed => rfl
    | _ => rw [hcall] at hc; cases hc
  have hex : Exceeds (c :: earlier) ↔
      height < (stateAfter indexing started earlier).finalized.getD 0 := by
    rw [exceeds_iff indexing started, stateAfter,
      State.apply_committed, State.apply_finalized, hc, hf]
    simp only [hr, if_true, Option.getD_some]
  rw [stateAfter, State.apply_waiting_of_raise hc hr]
  simp only [hex]

/-- A call that raises nothing committed leaves the committed height. -/
theorem committed_of_not_raises {earlier : List TimedCall} {c : TimedCall}
    (h : ¬RaisesCommitted earlier c) : highestCommitted (c :: earlier) = highestCommitted earlier := by
  rw [highestCommitted_cons]
  rw [RaisesCommitted] at h
  cases hc : c.call.committed? with
  | none => rfl
  | some height =>
    rw [hc] at h
    exact if_neg h

theorem exceeds_mono {earlier : List TimedCall} {c : TimedCall} (h : ¬RaisesCommitted earlier c)
    (hex : Exceeds earlier) : Exceeds (c :: earlier) := by
  have hle := State.finalized_le_apply (stateAfter false 0 earlier) c
  rw [stateAfter_finalized, ← stateAfter, stateAfter_finalized] at hle
  rw [Exceeds, committed_of_not_raises h]
  exact lt_of_lt_of_le hex hle

/-- The instant after a call that is no raise. -/
theorem waiting_of_not_raises {earlier : List TimedCall} {c : TimedCall}
    (hs : (stateAfter indexing started earlier).ClockRuns) (h : ¬RaisesCommitted earlier c) :
    (stateAfter indexing started (c :: earlier)).waiting =
      if Exceeds earlier then (stateAfter indexing started earlier).waiting
      else if Exceeds (c :: earlier) then some c.time else none := by
  have hlow : ∀ height, c.call.committed? = some height →
      isRaise (stateAfter indexing started earlier).committed height = false := by
    intro height hc
    rw [← Bool.not_eq_true]
    exact fun hr => h ((raisesCommitted_iff indexing started).mpr ⟨height, hc, hr⟩)
  have hafter : Exceeds (c :: earlier) ↔
      (stateAfter indexing started earlier).committed.getD 0 <
        ((stateAfter indexing started earlier).apply c).finalized.getD 0 := by
    rw [Exceeds, committed_of_not_raises h, stateAfter_committed, ← stateAfter,
      stateAfter_finalized]
  rw [stateAfter, State.apply_waiting_of_not_raise hs hlow]
  simp only [exceeds_iff indexing started earlier, hafter]

/-- **An instant is present exactly when finalized exceeds committed.** -/
theorem stateAfter_clockRuns (calls : List TimedCall) :
    (stateAfter indexing started calls).ClockRuns := by
  induction calls with
  | nil => exact iff_of_false (by simp [stateAfter, State.new]) (lt_irrefl 0)
  | cons c earlier ih =>
    rw [State.ClockRuns, ← exceeds_iff indexing started]
    by_cases h : RaisesCommitted earlier c
    · rw [waiting_of_raises h]
      split <;> simp_all
    · rw [waiting_of_not_raises ih h]
      by_cases hex : Exceeds earlier
      · rw [if_pos hex]
        exact iff_of_true (ih.mpr ((exceeds_iff indexing started _).mp hex)) (exceeds_mono h hex)
      · rw [if_neg hex]
        split <;> simp_all

theorem waiting_isSome_iff (indexing : Bool) (started : ℕ) (calls : List TimedCall) :
    (stateAfter indexing started calls).waiting.isSome ↔ Exceeds calls := by
  rw [exceeds_iff indexing started]
  exact stateAfter_clockRuns calls

/-- The instant is the later one of the last raise and the last time finalized came
to exceed committed. -/
theorem waiting_eq {calls : List TimedCall} (h : InOrder calls) :
    (stateAfter indexing started calls).waiting =
      if Exceeds calls then max (lastTime RaisesCommitted calls) (lastTime ComesToExceed calls)
      else none := by
  induction calls with
  | nil => rfl
  | cons c earlier ih =>
    have ih := ih (List.Pairwise.of_cons h)
    by_cases hr : RaisesCommitted earlier c
    · rw [waiting_of_raises hr, lastTime, if_pos hr, lastTime]
      -- whether or not the raise is also a coming to exceed, its time is the later one
      have hmax : max (some c.time) (if ComesToExceed earlier c then some c.time
          else lastTime ComesToExceed earlier) = some c.time := by
        split
        · exact congrArg some (max_self c.time)
        · exact max_time_lastTime h
      rw [hmax]
    · rw [waiting_of_not_raises (stateAfter_clockRuns earlier) hr, lastTime, if_neg hr, lastTime]
      by_cases hex : Exceeds earlier
      · have hstay : ¬ComesToExceed earlier c := fun hc => hc.1 hex
        rw [if_pos hex, ih, if_pos hex, if_neg hstay, if_pos (exceeds_mono hr hex)]
      · rw [if_neg hex]
        by_cases hnow : Exceeds (c :: earlier)
        · have hcome : ComesToExceed earlier c := ⟨hex, hnow⟩
          rw [if_pos hnow, if_pos hnow, if_pos hcome, max_lastTime h]
        · rw [if_neg hnow, if_neg hnow]

/-- A present instant stays through every call that is no raise. -/
theorem waiting_kept {earlier : List TimedCall} {c : TimedCall} {since : ℕ}
    (hw : (stateAfter indexing started earlier).waiting = some since)
    (h : ¬RaisesCommitted earlier c) :
    (stateAfter indexing started (c :: earlier)).waiting = some since := by
  have hex : Exceeds earlier := (waiting_isSome_iff indexing started earlier).mp (by rw [hw]; rfl)
  rw [waiting_of_not_raises (stateAfter_clockRuns earlier) h, if_pos hex, hw]

/-- No call of `more`, made after `earlier`, raises the committed height. -/
def NoRaise (earlier : List TimedCall) : List TimedCall → Prop
  | [] => True
  | c :: more => ¬RaisesCommitted (more ++ earlier) c ∧ NoRaise earlier more

theorem waiting_kept_along {earlier more : List TimedCall} {since : ℕ}
    (hw : (stateAfter indexing started earlier).waiting = some since) (h : NoRaise earlier more) :
    (stateAfter indexing started (more ++ earlier)).waiting = some since := by
  induction more with
  | nil => exact hw
  | cons c more ih => exact waiting_kept (ih h.2) h.1

/-! ### The stalled verdict -/

theorem taskReason_ne (task : RequiredTask) : s!"required task {task.name} exited" ≠ stalledReason := by
  cases task <;> decide

theorem phaseReason_ne (phase : Phase) : s!"service phase is {phase.name}" ≠ stalledReason := by
  cases phase <;> decide

theorem stalledReason_notMem_live (s : State) (at_ : ElapsedAt) :
    stalledReason ∉ s.liveReasons at_ := by
  intro h
  rcases List.mem_append.mp h with h | h
  · obtain ⟨task, _, ht⟩ := List.mem_map.mp h
    exact taskReason_ne task ht
  · split at h <;> split at h
    · exact absurd (List.mem_singleton.mp h) (by decide)
    · cases h
    · exact absurd (List.mem_singleton.mp h) (by decide)
    · cases h

theorem stalledReason_mem_indexing (s : State) (at_ : ElapsedAt) :
    stalledReason ∈ s.indexingReasons at_ ↔
      ∃ since, s.waiting = some since ∧ at_.waiting - since > fromSecs 90 := by
  have hconnected : stalledReason ∉
      (if s.connected then [] else ["validator subscription unavailable"]) := by
    split
    · exact List.not_mem_nil
    · exact fun h => absurd (List.mem_singleton.mp h) (by decide)
  have hminer : stalledReason ∉
      (if s.minerSuccess.all (fun since => elapsedOver since at_.miner 90) then
        ["no recent successful miner poll"] else []) := by
    split
    · exact fun h => absurd (List.mem_singleton.mp h) (by decide)
    · exact List.not_mem_nil
  rw [State.indexingReasons, List.mem_append, List.mem_append, or_iff_left hminer,
    or_iff_right hconnected]
  cases hw : s.waiting with
  | none => simp
  | some since =>
    simp only [Option.any_some, elapsedOver, decide_eq_true_eq, Option.some.injEq,
      exists_eq_left']
    split <;> simp_all

/-- A snapshot reports a stall exactly when it indexes and the instant is more than
90 seconds old. -/
theorem stalled_iff (s : State) (at_ : ElapsedAt) :
    stalledReason ∈ (s.snapshot at_).reasons ↔
      s.indexing ∧ ∃ since, s.waiting = some since ∧ at_.waiting - since > fromSecs 90 := by
  have hphase : stalledReason ∉
      (if s.phase ≠ .ready then [s!"service phase is {s.phase.name}"] else []) := by
    split
    · exact fun h => phaseReason_ne s.phase (List.mem_singleton.mp h).symm
    · exact List.not_mem_nil
  simp only [State.snapshot, List.mem_append, stalledReason_notMem_live, hphase, false_or]
  rw [← stalledReason_mem_indexing]
  cases s.indexing <;> simp

/-- **The instant is the progress clock.**  After every sequence of calls made in
the order of the clock it is present exactly when the highest finalized height
exceeds the highest committed one, and is then the later of the last raise of the
committed height and the last call with which finalized came to exceed it; a call
that raises neither height leaves it as it is; and while no call raises the
committed height, whatever heads arrive, every snapshot reports the stall as soon
as the clock is more than 90 seconds past it. -/
theorem waiting_progress_clock (indexing : Bool) (started : ℕ) (calls : List TimedCall)
    (h : InOrder calls) :
    ((stateAfter indexing started calls).waiting.isSome ↔
      (highestCommitted calls).getD 0 < (highestFinalized calls).getD 0) ∧
    (∀ since, (stateAfter indexing started calls).waiting = some since →
      some since = max (lastTime RaisesCommitted calls) (lastTime ComesToExceed calls)) ∧
    (∀ c, ¬RaisesCommitted calls c → highestFinalized (c :: calls) = highestFinalized calls →
      (stateAfter indexing started (c :: calls)).waiting =
        (stateAfter indexing started calls).waiting) ∧
    ∀ since, (stateAfter indexing started calls).waiting = some since →
      ∀ more, NoRaise calls more →
        (stateAfter indexing started (more ++ calls)).waiting = some since ∧
        ∀ at_, stalledReason ∈ ((stateAfter indexing started (more ++ calls)).snapshot at_).reasons ↔
          indexing ∧ at_.waiting - since > fromSecs 90 := by
  refine ⟨waiting_isSome_iff indexing started calls, ?_, ?_, ?_⟩
  · intro since hw
    have hex : Exceeds calls := (waiting_isSome_iff indexing started calls).mp (by rw [hw]; rfl)
    rw [← hw, waiting_eq h, if_pos hex]
  · intro c hr hf
    have hsame : Exceeds (c :: calls) ↔ Exceeds calls := by
      rw [Exceeds, Exceeds, committed_of_not_raises hr, hf]
    rw [waiting_of_not_raises (stateAfter_clockRuns calls) hr]
    by_cases hex : Exceeds calls
    · rw [if_pos hex]
    · rw [if_neg hex, if_neg fun hnow => hex (hsame.mp hnow),
        (stateAfter_clockRuns calls).eq_none fun hlt => hex ((exceeds_iff indexing started calls).mpr hlt)]
  · intro since hw more hmore
    have hkept := waiting_kept_along hw hmore
    refine ⟨hkept, fun at_ => ?_⟩
    rw [stalled_iff, stateAfter_indexing, hkept]
    simp only [Option.some.injEq, exists_eq_left']

/-- A head, a commit behind it, the same head again. -/
def repeatedHead : List TimedCall :=
  [⟨.headReceived (some 10) (some 10), 9, "c"⟩, ⟨.committed 3, 7, "b"⟩,
    ⟨.headReceived (some 10) (some 10), 5, "a"⟩]

theorem waiting_progress_clock_repeatedHead :
    InOrder repeatedHead ∧ some 7 = max (lastTime RaisesCommitted repeatedHead)
      (lastTime ComesToExceed repeatedHead) ∧
    stalledReason ∈ ((stateAfter true 0 repeatedHead).snapshot ⟨0, 90000000008, 0⟩).reasons := by
  have horder : InOrder repeatedHead := by
    unfold InOrder repeatedHead
    simp
  obtain ⟨-, hmax, -, hstall⟩ := waiting_progress_clock true 0 repeatedHead horder
  refine ⟨horder, hmax 7 rfl, ?_⟩
  have hreason := (hstall 7 rfl [] trivial).2 ⟨0, 90000000008, 0⟩
  exact hreason.mpr ⟨rfl, by decide⟩

end Health

end Dashboard

/-
Admission of live and backfill blocks.

The model of `Admission` in `quip-dashboard/src/indexer/admission.rs`: two atomic
counters, and jobs that claim a slot, hold it as a permit and give it back.  A
job stands before one of its atomic steps (the load and the compare-exchanges of
`fetch_update`, a `fetch_sub`); a run interleaves the steps of any jobs.

* `Job.step_ledger` — a step books exactly the claim or release that it makes;
* `Step.keeps` — every step keeps the counters equal to the slots that are held;
* `admission_reserve` — **the live reserve holds under every interleaving, and
  every claimed slot is released once**.
-/
import QuipDashboard.Records
import QuipDashboard.History

namespace Dashboard

/-- `State` without its counters: the capacity, and its part for backfill. -/
structure Admission where
  total : ℕ
  backfill : ℕ
  deriving DecidableEq

/-- `AdmissionError`. -/
inductive AdmissionError where
  | full
  | invalidCapacity
  deriving DecidableEq

namespace Admission

/-- `Admission::new`. -/
def new (total reservedLive : ℕ) : Except AdmissionError Admission :=
  if total = 0 ∨ reservedLive > total then .error .invalidCapacity
  else .ok ⟨total, total - reservedLive⟩

/-- The atomic step that a job stands before. -/
inductive Phase where
  /-- Before the load of `backfill_active`. -/
  | slotLoad
  /-- Before a compare-exchange of `backfill_active` from this value. -/
  | slotExchange (n : ℕ)
  /-- Before the load of `active`. -/
  | activeLoad
  /-- Before a compare-exchange of `active` from this value. -/
  | activeExchange (n : ℕ)
  /-- A permit, before the first step of its drop. -/
  | held
  /-- A dropped backfill permit, before the second step of its drop. -/
  | releasing
  /-- The permit is dropped. -/
  | dropped
  /-- A backfill claim that found no global slot, before it gives its own one back. -/
  | rollback
  /-- That slot is given back. -/
  | rolledBack
  /-- The first claim failed. -/
  | full
  deriving DecidableEq

/-- A call of `try_live` or `try_backfill`, with the permit it returns. -/
structure Job where
  backfill : Bool
  phase : Phase
  deriving DecidableEq

/-- The two counters. -/
structure Counters where
  active : ℕ
  backfillActive : ℕ
  deriving DecidableEq

/-- What an atomic step does to the counters. -/
inductive Act where
  | read
  | claimSlot
  | claimActive
  | releaseActive
  | releaseSlot
  deriving DecidableEq

/-- The closure of `claim` on the value that was read: try to store the next one, or
give up. -/
def seen (limit n : ℕ) (retry : ℕ → Phase) (refused : Phase) : Phase :=
  if n < limit then retry n else refused

/-- `fetch_sub(1)`, which wraps around below zero. -/
def fetchSub (n : ℕ) : ℕ := (n + u64Max) % (u64Max + 1)

/-- The next atomic step of a job; a weak compare-exchange may fail spuriously. -/
def Job.step (a : Admission) (c : Counters) (spurious : Bool) (job : Job) :
    Option (Act × Counters × Phase) :=
  match job.phase with
  | .slotLoad => some (.read, c, seen a.backfill c.backfillActive .slotExchange .full)
  | .slotExchange n =>
    if c.backfillActive = n ∧ !spurious then
      some (.claimSlot, { c with backfillActive := n + 1 }, .activeLoad)
    else some (.read, c, seen a.backfill c.backfillActive .slotExchange .full)
  | .activeLoad =>
    some (.read, c, seen a.total c.active .activeExchange (if job.backfill then .rollback else .full))
  | .activeExchange n =>
    if c.active = n ∧ !spurious then some (.claimActive, { c with active := n + 1 }, .held)
    else some (.read, c,
      seen a.total c.active .activeExchange (if job.backfill then .rollback else .full))
  | .held =>
    some (.releaseActive, { c with active := fetchSub c.active },
      if job.backfill then .releasing else .dropped)
  | .releasing =>
    some (.releaseSlot, { c with backfillActive := fetchSub c.backfillActive }, .dropped)
  | .rollback =>
    some (.releaseSlot, { c with backfillActive := fetchSub c.backfillActive }, .rolledBack)
  | .dropped | .rolledBack | .full => none

/-- The counters and all jobs so far. -/
structure State where
  counters : Counters
  jobs : List Job

/-- A fresh state. -/
def State.init : State := ⟨⟨0, 0⟩, []⟩

/-- A step of a run: a call begins, or a job makes an atomic step. -/
inductive Event where
  | begin (backfill : Bool)
  | act (j : ℕ) (act : Act)
  deriving DecidableEq

/-- One step, of any job. -/
inductive Step (a : Admission) : State → Event → State → Prop
  | begin (s : State) (backfill : Bool) :
      Step a s (.begin backfill)
        { s with jobs := s.jobs ++ [⟨backfill, if backfill then .slotLoad else .activeLoad⟩] }
  | act {s : State} {j : ℕ} {job : Job} {spurious : Bool} {act : Act} {c : Counters} {p : Phase}
      (hj : s.jobs[j]? = some job) (h : job.step a s.counters spurious = some (act, c, p)) :
      Step a s (.act j act) ⟨c, s.jobs.set j { job with phase := p }⟩

/-! ### What jobs hold -/

/-- The job holds a global slot: it is a permit. -/
def Job.permit (job : Job) : Bool := job.phase = .held

/-- The job holds a backfill slot. -/
def Job.slot (job : Job) : Bool :=
  job.backfill && match job.phase with
    | .activeLoad | .activeExchange _ | .held | .releasing | .rollback => true
    | _ => false

/-- The claim failed, or its permit is dropped. -/
def Job.done (job : Job) : Bool :=
  match job.phase with
  | .dropped | .rolledBack | .full => true
  | _ => false

/-- The values that a job read were below the limits; only backfill uses its phases. -/
def Job.Sound (a : Admission) (job : Job) : Prop :=
  match job.phase with
  | .slotLoad | .releasing | .rollback | .rolledBack => job.backfill = true
  | .slotExchange n => job.backfill = true ∧ n < a.backfill
  | .activeExchange n => n < a.total
  | .activeLoad | .held | .dropped | .full => True

/-- How often a job has made a claim or a release so far. -/
def Job.ledger (job : Job) : Act → ℕ
  | .read => 0
  | .claimActive =>
    match job.phase with
    | .held | .releasing | .dropped => 1
    | _ => 0
  | .releaseActive =>
    match job.phase with
    | .releasing | .dropped => 1
    | _ => 0
  | .claimSlot =>
    match job.phase with
    | .activeLoad | .activeExchange _ | .held | .releasing | .dropped | .rollback | .rolledBack =>
      if job.backfill then 1 else 0
    | _ => 0
  | .releaseSlot =>
    match job.phase with
    | .dropped | .rolledBack => if job.backfill then 1 else 0
    | _ => 0

namespace State

/-- The permits that exist. -/
def permits (s : State) : ℕ := s.jobs.countP Job.permit

/-- The backfill permits that exist. -/
def backfillPermits (s : State) : ℕ := s.jobs.countP fun job => job.permit && job.backfill

/-- The live permits that exist. -/
def livePermits (s : State) : ℕ := s.jobs.countP fun job => job.permit && !job.backfill

end State

/-- What holds between any two steps. -/
structure Inv (a : Admission) (s : State) : Prop where
  active : s.counters.active = s.jobs.countP Job.permit
  slots : s.counters.backfillActive = s.jobs.countP Job.slot
  active_le : s.counters.active ≤ a.total
  slots_le : s.counters.backfillActive ≤ a.backfill
  sound : ∀ job ∈ s.jobs, job.Sound a

/-! ### One step -/

theorem fetchSub_eq {n : ℕ} (hpos : 0 < n) (hle : n ≤ u64Max) : fetchSub n = n - 1 := by
  unfold fetchSub
  rw [show n + u64Max = (n - 1) + (u64Max + 1) by omega, Nat.add_mod_right]
  exact Nat.mod_eq_of_lt (by omega)

theorem seen_cases (limit n : ℕ) (retry : ℕ → Phase) (refused : Phase) :
    (n < limit ∧ seen limit n retry refused = retry n) ∨
      (limit ≤ n ∧ seen limit n retry refused = refused) := by
  unfold seen
  split
  · exact .inl ⟨by assumption, rfl⟩
  · exact .inr ⟨by omega, rfl⟩

/-- What a step does to the counters, to what the job holds, and to its ledger. -/
structure Job.Moves (a : Admission) (c : Counters) (job : Job) (act : Act) (c' : Counters)
    (job' : Job) : Prop where
  active : c'.active + job.permit.toNat = c.active + job'.permit.toNat
  slots : c'.backfillActive + job.slot.toNat = c.backfillActive + job'.slot.toNat
  active_le : c'.active ≤ a.total
  slots_le : c'.backfillActive ≤ a.backfill
  sound : job'.Sound a
  ledger : ∀ k ≠ Act.read, job'.ledger k = job.ledger k + if act = k then 1 else 0

/-- A step that only reads one of the counters, and what follows from it. -/
theorem Job.Moves.read {a : Admission} {c : Counters} {job job' : Job}
    (hp : job'.permit = job.permit) (hs : job'.slot = job.slot) (hle : c.active ≤ a.total)
    (hle' : c.backfillActive ≤ a.backfill) (hsound : job'.Sound a)
    (hl : ∀ k, job'.ledger k = job.ledger k) : job.Moves a c .read c job' := by
  refine ⟨by rw [hp], by rw [hs], hle, hle', hsound, ?_⟩
  intro k hk
  rw [hl k, if_neg (Ne.symm hk), Nat.add_zero]

/-- **A step moves exactly the slots that it claims or releases.** -/
theorem Job.step_moves {a : Admission} {c c' : Counters} {spurious : Bool} {job : Job} {act : Act}
    {p : Phase} (hmax : a.total ≤ u64Max) (hback : a.backfill ≤ a.total) (hle : c.active ≤ a.total)
    (hle' : c.backfillActive ≤ a.backfill) (hpos : job.permit = true → 0 < c.active)
    (hpos' : job.slot = true → 0 < c.backfillActive) (hsound : job.Sound a)
    (h : job.step a c spurious = some (act, c', p)) :
    job.Moves a c act c' { job with phase := p } := by
  obtain ⟨backfill, phase⟩ := job
  cases phase with
  | slotLoad =>
    cases h
    have hb : backfill = true := hsound
    subst hb
    -- the slot is seen free or taken; what is seen may be old when it is exchanged
    rcases seen_cases a.backfill c.backfillActive .slotExchange .full with ⟨hlt, hp⟩ | ⟨-, hp⟩
    · rw [hp]
      exact .read rfl rfl hle hle' ⟨rfl, hlt⟩ fun k => by cases k <;> rfl
    · rw [hp]
      exact .read rfl rfl hle hle' trivial fun k => by cases k <;> rfl
  | slotExchange n =>
    obtain ⟨hb, hlt⟩ : backfill = true ∧ n < a.backfill := hsound
    subst hb
    simp only [step] at h
    split at h
    · rename_i heq
      cases h
      refine ⟨rfl, ?_, hle, hlt, trivial, fun k hk => by cases k <;> trivial⟩
      rw [heq.1]
      rfl
    · cases h
      rcases seen_cases a.backfill c.backfillActive .slotExchange .full with ⟨hlt', hp⟩ | ⟨-, hp⟩
      · rw [hp]
        exact .read rfl rfl hle hle' ⟨rfl, hlt'⟩ fun k => by cases k <;> rfl
      · rw [hp]
        exact .read rfl rfl hle hle' trivial fun k => by cases k <;> rfl
  | activeLoad =>
    cases h
    rcases seen_cases a.total c.active .activeExchange (if backfill then .rollback else .full) with
      ⟨hlt, hp⟩ | ⟨-, hp⟩
    · rw [hp]
      exact .read rfl rfl hle hle' hlt fun k => by cases k <;> rfl
    · rw [hp]
      cases backfill with
      | false => exact .read rfl rfl hle hle' trivial fun k => by cases k <;> rfl
      | true => exact .read rfl rfl hle hle' rfl fun k => by cases k <;> rfl
  | activeExchange n =>
    have hlt : n < a.total := hsound
    simp only [step] at h
    split at h
    · rename_i heq
      cases h
      refine ⟨?_, ?_, hlt, hle', trivial, fun k hk => by cases k <;> trivial⟩
      · rw [heq.1]
        rfl
      · cases backfill <;> rfl
    · cases h
      rcases seen_cases a.total c.active .activeExchange (if backfill then .rollback else .full) with
        ⟨hlt', hp⟩ | ⟨-, hp⟩
      · rw [hp]
        exact .read rfl rfl hle hle' hlt' fun k => by cases k <;> rfl
      · rw [hp]
        cases backfill with
        | false => exact .read rfl rfl hle hle' trivial fun k => by cases k <;> rfl
        | true => exact .read rfl rfl hle hle' rfl fun k => by cases k <;> rfl
  | held =>
    simp only [step, Option.some.injEq, Prod.mk.injEq] at h
    obtain ⟨rfl, rfl, rfl⟩ := h
    -- the permit of this job is counted, so that the counter does not wrap
    have hpos := hpos rfl
    have hsub := fetchSub_eq hpos (by omega)
    cases backfill with
    | false =>
      refine ⟨?_, rfl, ?_, hle', trivial, fun k hk => by cases k <;> trivial⟩
      · show fetchSub c.active + 1 = c.active + 0
        omega
      · show fetchSub c.active ≤ a.total
        omega
    | true =>
      refine ⟨?_, rfl, ?_, hle', rfl, fun k hk => by cases k <;> trivial⟩
      · show fetchSub c.active + 1 = c.active + 0
        omega
      · show fetchSub c.active ≤ a.total
        omega
  | releasing =>
    simp only [step, Option.some.injEq, Prod.mk.injEq] at h
    obtain ⟨rfl, rfl, rfl⟩ := h
    have hb : backfill = true := hsound
    subst hb
    have hpos := hpos' rfl
    have hsub := fetchSub_eq hpos (by omega)
    refine ⟨rfl, ?_, hle, ?_, trivial, fun k hk => by cases k <;> trivial⟩
    · show fetchSub c.backfillActive + 1 = c.backfillActive + 0
      omega
    · show fetchSub c.backfillActive ≤ a.backfill
      omega
  | rollback =>
    simp only [step, Option.some.injEq, Prod.mk.injEq] at h
    obtain ⟨rfl, rfl, rfl⟩ := h
    have hb : backfill = true := hsound
    subst hb
    have hpos := hpos' rfl
    have hsub := fetchSub_eq hpos (by omega)
    refine ⟨rfl, ?_, hle, ?_, rfl, fun k hk => by cases k <;> trivial⟩
    · show fetchSub c.backfillActive + 1 = c.backfillActive + 0
      omega
    · show fetchSub c.backfillActive ≤ a.backfill
      omega
  | dropped | rolledBack | full => cases h

/-! ### Every step of every run -/

/-- Replacing one element changes a count by that element. -/
theorem countP_set_add {α : Type} {q : α → Bool} {l : List α} {j : ℕ} {x : α} (y : α)
    (hj : l[j]? = some x) :
    (l.set j y).countP q + (q x).toNat = l.countP q + (q y).toNat := by
  induction l generalizing j with
  | nil => simp at hj
  | cons z l ih =>
    cases j with
    | zero =>
      cases hj
      rw [List.set_cons_zero, List.countP_cons, List.countP_cons]
      cases q x <;> cases q y <;> simp
    | succ j =>
      have := ih (show l[j]? = some x from hj)
      rw [List.set_cons_succ, List.countP_cons, List.countP_cons]
      omega

theorem inv_init (a : Admission) : Inv a .init :=
  ⟨rfl, rfl, Nat.zero_le _, Nat.zero_le _, by simp [State.init]⟩

/-- A job that holds a slot is counted. -/
theorem Inv.moves {a : Admission} {s : State} (hs : Inv a s) (hmax : a.total ≤ u64Max)
    (hback : a.backfill ≤ a.total) {j : ℕ} {job : Job} (hj : s.jobs[j]? = some job) {spurious : Bool}
    {act : Act} {c : Counters} {p : Phase} (h : job.step a s.counters spurious = some (act, c, p)) :
    job.Moves a s.counters act c { job with phase := p } := by
  have hmem : job ∈ s.jobs := List.mem_of_getElem? hj
  refine Job.step_moves hmax hback hs.active_le hs.slots_le ?_ ?_ (hs.sound job hmem) h
  · intro hp
    rw [hs.active]
    exact List.countP_pos_iff.mpr ⟨job, hmem, hp⟩
  · intro hp
    rw [hs.slots]
    exact List.countP_pos_iff.mpr ⟨job, hmem, hp⟩

/-- **Every step keeps the counters equal to the slots that are held.** -/
theorem Step.keeps {a : Admission} {s s' : State} {e : Event} (hmax : a.total ≤ u64Max)
    (hback : a.backfill ≤ a.total) (hs : Inv a s) (h : Step a s e s') : Inv a s' := by
  cases h with
  | begin backfill =>
    have hpermit : (Job.permit ⟨backfill, if backfill then .slotLoad else .activeLoad⟩) = false := by
      cases backfill <;> rfl
    have hslot : (Job.slot ⟨backfill, if backfill then .slotLoad else .activeLoad⟩) = false := by
      cases backfill <;> rfl
    refine ⟨?_, ?_, hs.active_le, hs.slots_le, ?_⟩
    · rw [List.countP_append, List.countP_singleton, hpermit]
      exact hs.active
    · rw [List.countP_append, List.countP_singleton, hslot]
      exact hs.slots
    · intro job hjob
      rcases List.mem_append.mp hjob with hjob | hjob
      · exact hs.sound job hjob
      · rw [List.mem_singleton.mp hjob]
        cases backfill <;> trivial
  | @act j job spurious act c p hj hstep =>
    have hm := hs.moves hmax hback hj hstep
    have hpermit := countP_set_add (q := Job.permit) { job with phase := p } hj
    have hslot := countP_set_add (q := Job.slot) { job with phase := p } hj
    refine ⟨?_, ?_, hm.active_le, hm.slots_le, ?_⟩
    · have h₁ := hm.active
      have h₂ := hs.active
      show c.active = (s.jobs.set j { job with phase := p }).countP Job.permit
      omega
    · have h₁ := hm.slots
      have h₂ := hs.slots
      show c.backfillActive = (s.jobs.set j { job with phase := p }).countP Job.slot
      omega
    · intro job' hjob'
      rcases List.mem_or_eq_of_mem_set hjob' with hmem | rfl
      · exact hs.sound job' hmem
      · exact hm.sound

/-- The events of a run are those that the jobs have booked. -/
def Booked (es : List Event) (s : State) : Prop :=
  ∀ j, ∀ k ≠ Act.read, es.count (.act j k) = (s.jobs[j]?).elim 0 fun job => job.ledger k

/-- A run keeps the invariant, and books its claims and releases. -/
theorem run_booked {a : Admission} {es : List Event} {s : State} (hmax : a.total ≤ u64Max)
    (hback : a.backfill ≤ a.total) (h : History.Run (Step a) .init es s) :
    Inv a s ∧ Booked es s := by
  induction h with
  | nil => exact ⟨inv_init a, fun j k _ => by simp [State.init]⟩
  | @snoc es s s' e _ hstep ih =>
    obtain ⟨hs, hb⟩ := ih
    refine ⟨hstep.keeps hmax hback hs, ?_⟩
    intro j k hk
    cases hstep with
    | begin backfill =>
      rw [List.count_cons_of_ne (by simp), hb j k hk]
      -- a new job has booked nothing
      rcases Nat.lt_trichotomy j s.jobs.length with hlt | rfl | hgt
      · rw [List.getElem?_append_left hlt]
      · rw [List.getElem?_eq_none (Nat.le_refl _), List.getElem?_concat_length]
        cases k <;> cases backfill <;> rfl
      · rw [List.getElem?_eq_none (Nat.le_of_lt hgt), List.getElem?_eq_none]
        rw [List.length_append, List.length_singleton]
        omega
    | @act i job spurious act c p hj hstep =>
      have hm := hs.moves hmax hback hj hstep
      by_cases hij : i = j
      · subst hij
        have hset : (s.jobs.set i { job with phase := p })[i]? = some { job with phase := p } := by
          rw [List.getElem?_set_self (List.getElem?_eq_some_iff.mp hj).1]
        rw [hset, List.count_cons, hb i k hk, hj]
        simp only [Option.elim_some, hm.ledger k hk]
        simp
      · rw [List.getElem?_set_ne hij, List.count_cons_of_ne (by simp [hij]), hb j k hk]

/-! ### The reserve -/

/-- Every permit is a live one or a backfill one. -/
theorem State.permits_eq (s : State) : s.permits = s.backfillPermits + s.livePermits := by
  unfold permits backfillPermits livePermits
  induction s.jobs with
  | nil => rfl
  | cons job jobs ih =>
    rw [List.countP_cons, List.countP_cons, List.countP_cons, ih]
    cases job.permit <;> cases job.backfill <;> simp <;> omega

/-- A backfill permit holds a backfill slot. -/
theorem Inv.backfillPermits_le {a : Admission} {s : State} (hs : Inv a s) :
    s.backfillPermits ≤ a.backfill := by
  refine Nat.le_trans ?_ (hs.slots ▸ hs.slots_le)
  refine List.countP_mono_left ?_
  rintro ⟨backfill, phase⟩ - h
  rw [Bool.and_eq_true] at h
  have hphase : phase = .held := of_decide_eq_true h.1
  have hb : backfill = true := h.2
  rw [hphase, hb]
  rfl

/-- A claim gives up only when all slots are taken. -/
theorem live_full {a : Admission} {c c' : Counters} {spurious : Bool} {job : Job} {act : Act}
    (hlive : job.backfill = false) (hsound : job.Sound a)
    (h : job.step a c spurious = some (act, c', .full)) : a.total ≤ c.active := by
  obtain ⟨backfill, phase⟩ := job
  cases hlive
  -- a claim that saw a free slot goes on to exchange
  have hseen : seen a.total c.active .activeExchange (if false then .rollback else .full) = .full →
      a.total ≤ c.active := by
    intro hfull
    rcases seen_cases a.total c.active .activeExchange (if false then .rollback else .full) with
      ⟨-, hp⟩ | ⟨hle, -⟩
    · cases hp.symm.trans hfull
    · exact hle
  cases phase with
  | slotLoad => cases hsound
  | slotExchange n => cases hsound.1
  | activeLoad =>
    simp only [Job.step, Option.some.injEq, Prod.mk.injEq] at h
    exact hseen h.2.2
  | activeExchange n =>
    simp only [Job.step] at h
    split at h
    · cases h
    · simp only [Option.some.injEq, Prod.mk.injEq] at h
      exact hseen h.2.2
  | held =>
    simp only [Job.step, Option.some.injEq, Prod.mk.injEq] at h
    cases h.2.2
  | releasing => cases hsound
  | rollback => cases hsound
  | dropped | rolledBack | full => cases h

/-- **The live reserve under every interleaving.**  In every state of every run,
there are at most `total` permits and at most `total - reserved` backfill
permits; a live claim gives up only while `reserved` slots are held by live
permits; each job has released each of its slots at most once and never one that
it did not claim, and has released all of them when it is done; and both
counters are zero when every job is done. -/
theorem admission_reserve {total reserved : ℕ} {a : Admission} (hnew : new total reserved = .ok a)
    (hmax : total ≤ u64Max) {es : List Event} {s : State}
    (run : History.Run (Step a) .init es s) :
    s.counters.active = s.permits ∧ s.permits ≤ total ∧
    s.counters.backfillActive ≤ total - reserved ∧ s.backfillPermits ≤ total - reserved ∧
    (∀ (j : ℕ) (job : Job) spurious act c, s.jobs[j]? = some job → job.backfill = false →
      job.step a s.counters spurious = some (act, c, .full) → reserved ≤ s.livePermits) ∧
    (∀ j,
      es.count (.act j .claimActive) ≤ 1 ∧
      es.count (.act j .releaseActive) ≤ es.count (.act j .claimActive) ∧
      es.count (.act j .claimSlot) ≤ 1 ∧
      es.count (.act j .releaseSlot) ≤ es.count (.act j .claimSlot) ∧
      ∀ job, s.jobs[j]? = some job → job.done = true →
        es.count (.act j .releaseActive) = es.count (.act j .claimActive) ∧
        es.count (.act j .releaseSlot) = es.count (.act j .claimSlot)) ∧
    ((∀ job ∈ s.jobs, job.done = true) →
      s.counters.active = 0 ∧ s.counters.backfillActive = 0) := by
  unfold new at hnew
  split at hnew
  · cases hnew
  rename_i hvalid
  cases hnew
  obtain ⟨hs, hb⟩ := run_booked hmax (Nat.sub_le _ _) run
  have hcount : ∀ j k, k ≠ Act.read →
      es.count (.act j k) = (s.jobs[j]?).elim 0 fun job => job.ledger k := fun j k hk => hb j k hk
  have hpermits : s.permits ≤ total := hs.active.symm.le.trans hs.active_le
  refine ⟨hs.active, hpermits, hs.slots_le, hs.backfillPermits_le, ?_, ?_, ?_⟩
  · intro j job spurious act c hj hlive hstep
    have hfull : total ≤ s.counters.active :=
      live_full hlive (hs.sound job (List.mem_of_getElem? hj)) hstep
    have hsplit := s.permits_eq
    have hback : s.backfillPermits ≤ total - reserved := hs.backfillPermits_le
    have hactive : s.counters.active = s.permits := hs.active
    omega
  · intro j
    rw [hcount j .claimActive (by decide), hcount j .releaseActive (by decide),
      hcount j .claimSlot (by decide), hcount j .releaseSlot (by decide)]
    cases s.jobs[j]? with
    | none => simp
    | some job =>
      obtain ⟨backfill, phase⟩ := job
      simp only [Option.elim_some, Option.some.injEq, forall_eq']
      cases phase <;> cases backfill <;> simp [Job.ledger, Job.done]
  · intro hdone
    have hpermit : s.jobs.countP Job.permit = 0 := by
      rw [List.countP_eq_zero]
      intro job hjob hp
      have hphase : job.phase = .held := of_decide_eq_true hp
      have := hdone job hjob
      rw [Job.done, hphase] at this
      cases this
    have hslot : s.jobs.countP Job.slot = 0 := by
      rw [List.countP_eq_zero]
      intro job hjob hp
      have hd := hdone job hjob
      obtain ⟨backfill, phase⟩ := job
      cases phase with
      | dropped | rolledBack | full => simp [Job.slot] at hp
      | _ => cases hd
    exact ⟨hs.active.trans hpermit, hs.slots.trans hslot⟩

/-- The exchange of the job does not fail spuriously. -/
theorem act_done {a : Admission} {s s' : State} {job : Job} {act : Act} {c : Counters} {p : Phase}
    (j : ℕ) (hj : s.jobs[j]? = some job) (h : job.step a s.counters false = some (act, c, p))
    (hs' : ⟨c, s.jobs.set j { job with phase := p }⟩ = s') : Step a s (.act j act) s' :=
  hs' ▸ .act hj h

/-- With two slots, one of them reserved: while two live permits are held, a backfill claim
gives its own slot back; once one is dropped another one succeeds, and a third one does not. -/
theorem admission_reserve_two : ∃ es s, History.Run (Step ⟨2, 1⟩) .init es s ∧
    s.jobs = [⟨false, .dropped⟩, ⟨false, .held⟩, ⟨true, .rolledBack⟩, ⟨true, .held⟩, ⟨true, .full⟩] ∧
    s.counters.active = s.permits ∧ s.backfillPermits ≤ 1 ∧
    es.count (.act 2 .releaseSlot) = es.count (.act 2 .claimSlot) := by
  have hnew : new 2 1 = .ok ⟨2, 1⟩ := rfl
  have live : History.Run (Step ⟨2, 1⟩) .init _ ⟨⟨2, 0⟩, [⟨false, .held⟩, ⟨false, .held⟩]⟩ :=
    .snoc (.snoc (.snoc (.snoc (.snoc (.snoc .nil
      (.begin _ false)) (act_done 0 rfl rfl rfl)) (act_done 0 rfl rfl rfl))
      (.begin _ false)) (act_done 1 rfl rfl rfl)) (act_done 1 rfl rfl rfl)
  have rolledBack : History.Run (Step ⟨2, 1⟩) .init _
      ⟨⟨2, 0⟩, [⟨false, .held⟩, ⟨false, .held⟩, ⟨true, .rolledBack⟩]⟩ :=
    .snoc (.snoc (.snoc (.snoc (.snoc live (.begin _ true))
      (act_done 2 rfl rfl rfl)) (act_done 2 rfl rfl rfl)) (act_done 2 rfl rfl rfl)) (act_done 2 rfl rfl rfl)
  have held : History.Run (Step ⟨2, 1⟩) .init _
      ⟨⟨2, 1⟩, [⟨false, .dropped⟩, ⟨false, .held⟩, ⟨true, .rolledBack⟩, ⟨true, .held⟩]⟩ :=
    .snoc (.snoc (.snoc (.snoc (.snoc (.snoc rolledBack (act_done 0 rfl rfl rfl)) (.begin _ true))
      (act_done 3 rfl rfl rfl)) (act_done 3 rfl rfl rfl)) (act_done 3 rfl rfl rfl)) (act_done 3 rfl rfl rfl)
  have run := History.Run.snoc (.snoc held (.begin _ true)) (act_done 4 rfl rfl rfl)
  obtain ⟨hactive, -, -, hbackfill, -, hledger, -⟩ := admission_reserve hnew (by decide) run
  exact ⟨_, _, run, rfl, hactive, hbackfill, ((hledger 2).2.2.2.2 ⟨true, .rolledBack⟩ rfl rfl).2⟩

end Admission

end Dashboard

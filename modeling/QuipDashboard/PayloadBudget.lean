/-
The payload budget of the chain reader.

The model of `Budget` in `quip-dashboard/src/chain/budget.rs`: five byte counters
with a limit each and a peak, shared by every task that fetches a payload.  A
job is one call of `reserve` with the charge that it returns, and stands before
one of its atomic steps: the load and the compare-exchanges of `fetch_update`,
the three loads and the `fetch_max` that measure the peak, the `fetch_sub` of the
charge's drop.

* `Job.step_moves` — a step moves its counter by the bytes that it charges;
* `Step.keeps` — every step keeps the counters equal to the bytes that are
  charged, and the peak above them or about to be raised;
* `payload_budget` — **no interleaving charges more than the limits, loses a
  byte, or understates the peak**.
-/
import QuipDashboard.Records
import QuipDashboard.History
import Mathlib.Algebra.Order.BigOperators.Group.List

namespace Dashboard

/-- `Kind`. -/
inductive PayloadKind where
  | response
  | metadata
  | block
  | active
  | activeBlock
  deriving DecidableEq

/-- `Kind::limit`. -/
def PayloadKind.limit : PayloadKind → ℕ
  | .response => 12 * 1024 * 1024
  | .metadata => 8 * 1024 * 1024
  | .block => 4 * 1024 * 1024
  | .active | .activeBlock => 64 * 1024 * 1024

/-- `Budget`: `counter` gives the atomic of each kind. -/
structure PayloadBudget where
  counter : PayloadKind → ℕ
  peak : ℕ

/-- `PayloadMetrics`. -/
structure PayloadMetrics where
  responseBytes : ℕ
  metadataBytes : ℕ
  blockBytes : ℕ
  inFlightBytes : ℕ
  peakBytes : ℕ

namespace PayloadBudget

/-- `Budget::default`. -/
def init : PayloadBudget := ⟨fun _ => 0, 0⟩

/-- `Budget::metrics`, whose loads see one state. -/
def metrics (b : PayloadBudget) : PayloadMetrics :=
  ⟨b.counter .response, b.counter .metadata, b.counter .block,
    b.counter .active + b.counter .activeBlock, b.peak⟩

/-- The counter of one kind after an atomic step. -/
def store (b : PayloadBudget) (kind : PayloadKind) (n : ℕ) : PayloadBudget :=
  { b with counter := fun k => if k = kind then n else b.counter k }

/-- What is retained: the sum that `reserve` measures. -/
def retained (b : PayloadBudget) : ℕ :=
  b.counter .response + b.counter .metadata + b.counter .block

/-- The limit of what is retained. -/
def retainedLimit : ℕ :=
  PayloadKind.limit .response + PayloadKind.limit .metadata + PayloadKind.limit .block

/-- The atomic step that a job stands before. -/
inductive Phase where
  /-- Before the load of the counter. -/
  | load
  /-- Before a compare-exchange of the counter from this value. -/
  | exchange (used : ℕ)
  /-- `reserve` returned `None`. -/
  | refused
  /-- Charged, before the three loads of the measurement; with what they read so far. -/
  | loadResponse
  | loadMetadata (response : ℕ)
  | loadBlock (sum : ℕ)
  /-- Before the `fetch_max` of the peak. -/
  | raisePeak (total : ℕ)
  /-- `reserve` returned the charge, which is alive. -/
  | charge
  /-- The charge is dropped. -/
  | dropped
  deriving DecidableEq

/-- A call of `reserve`, with the charge it returns. -/
structure Job where
  kind : PayloadKind
  bytes : ℕ
  phase : Phase
  deriving DecidableEq

/-- `checked_add(bytes).filter(|next| *next <= kind.limit())`. -/
def next (kind : PayloadKind) (bytes used : ℕ) : Option ℕ :=
  (if used + bytes ≤ u64Max then some (used + bytes) else none).filter (· ≤ kind.limit)

/-- The closure of `fetch_update` on the value that was read: try to store the next one,
or give up. -/
def seen (kind : PayloadKind) (bytes used : ℕ) : Phase :=
  match next kind bytes used with
  | some _ => .exchange used
  | none => .refused

/-- `fetch_sub(bytes)`, which wraps around below zero. -/
def fetchSub (n bytes : ℕ) : ℕ := (n + (u64Max + 1) - bytes) % (u64Max + 1)

/-- The next atomic step of a job; a weak compare-exchange may fail spuriously. -/
def Job.step (b : PayloadBudget) (spurious : Bool) (job : Job) : Option (PayloadBudget × Phase) :=
  match job.phase with
  | .load => some (b, seen job.kind job.bytes (b.counter job.kind))
  | .exchange used =>
    if b.counter job.kind = used ∧ !spurious then
      some (b.store job.kind (used + job.bytes), .loadResponse)
    else some (b, seen job.kind job.bytes (b.counter job.kind))
  | .loadResponse => some (b, .loadMetadata (b.counter .response))
  | .loadMetadata response => some (b, .loadBlock (response + b.counter .metadata))
  | .loadBlock sum => some (b, .raisePeak (sum + b.counter .block))
  | .raisePeak total => some ({ b with peak := max b.peak total }, .charge)
  | .charge => some (b.store job.kind (fetchSub (b.counter job.kind) job.bytes), .dropped)
  | .refused | .dropped => none

/-- The budget and all jobs so far. -/
structure State where
  budget : PayloadBudget
  jobs : List Job

/-- A new reader. -/
def State.init : State := ⟨PayloadBudget.init, []⟩

/-- A step of a run: a call of `reserve` begins, or a job makes an atomic step. -/
inductive Event where
  | reserve (kind : PayloadKind) (bytes : ℕ)
  | act (j : ℕ)
  deriving DecidableEq

/-- One step, of any job. -/
inductive Step : State → Event → State → Prop
  | reserve (s : State) (kind : PayloadKind) (bytes : ℕ) :
      Step s (.reserve kind bytes) { s with jobs := s.jobs ++ [⟨kind, bytes, .load⟩] }
  | act {s : State} {j : ℕ} {job : Job} {spurious : Bool} {b : PayloadBudget} {p : Phase}
      (hj : s.jobs[j]? = some job) (h : job.step s.budget spurious = some (b, p)) :
      Step s (.act j) ⟨b, s.jobs.set j { job with phase := p }⟩

/-! ### What jobs charge -/

/-- The bytes of the job are in its counter. -/
def Phase.charged : Phase → Bool
  | .loadResponse | .loadMetadata _ | .loadBlock _ | .raisePeak _ | .charge => true
  | .load | .exchange _ | .refused | .dropped => false

/-- The job measures the peak. -/
def Phase.measuring : Phase → Bool
  | .loadResponse | .loadMetadata _ | .loadBlock _ | .raisePeak _ => true
  | .load | .exchange _ | .refused | .charge | .dropped => false

/-- What the job adds to the counter of a kind. -/
def Job.charged (k : PayloadKind) (job : Job) : ℕ :=
  if job.kind = k ∧ job.phase.charged then job.bytes else 0

/-- The bytes that all jobs charge to a kind. -/
def State.charged (s : State) (k : PayloadKind) : ℕ := (s.jobs.map (Job.charged k)).sum

/-- The values that a job read were within the limits. -/
def Job.Sound (job : Job) : Prop :=
  match job.phase with
  | .exchange used => used + job.bytes ≤ job.kind.limit
  | .loadMetadata response => response ≤ PayloadKind.limit .response
  | .loadBlock sum => sum ≤ PayloadKind.limit .response + PayloadKind.limit .metadata
  | .raisePeak total => total ≤ retainedLimit
  | .load | .refused | .loadResponse | .charge | .dropped => True

/-- What the job will raise the peak to is not below what is retained. -/
def Job.Covers (b : PayloadBudget) (job : Job) : Prop :=
  match job.phase with
  | .loadResponse => True
  | .loadMetadata response => b.counter .response ≤ response
  | .loadBlock sum => b.counter .response + b.counter .metadata ≤ sum
  | .raisePeak total => b.retained ≤ total
  | .load | .exchange _ | .refused | .charge | .dropped => False

/-- What holds between any two steps. -/
structure Inv (s : State) : Prop where
  counter : ∀ k, s.budget.counter k = s.charged k
  limit : ∀ k, s.budget.counter k ≤ k.limit
  sound : ∀ job ∈ s.jobs, job.Sound
  peak : s.budget.peak ≤ retainedLimit
  measured : s.budget.retained ≤ s.budget.peak ∨ ∃ job ∈ s.jobs, job.Covers s.budget

/-! ### One step -/

theorem fetchSub_eq {n bytes : ℕ} (hle : bytes ≤ n) (hmax : n ≤ u64Max) :
    fetchSub n bytes = n - bytes := by
  unfold fetchSub
  rw [show n + (u64Max + 1) - bytes = (n - bytes) + (u64Max + 1) by omega, Nat.add_mod_right]
  exact Nat.mod_eq_of_lt (by omega)

theorem limit_le (k : PayloadKind) : k.limit ≤ u64Max := by
  cases k <;> decide

theorem seen_cases (kind : PayloadKind) (bytes used : ℕ) :
    (used + bytes ≤ kind.limit ∧ seen kind bytes used = .exchange used) ∨
      (kind.limit < used + bytes ∧ seen kind bytes used = .refused) := by
  have hlimit := limit_le kind
  unfold seen next
  by_cases hle : used + bytes ≤ kind.limit
  · rw [if_pos (hle.trans hlimit), Option.filter_some, if_pos (decide_eq_true hle)]
    exact .inl ⟨hle, rfl⟩
  · refine .inr ⟨Nat.lt_of_not_le hle, ?_⟩
    split_ifs
    · rw [Option.filter_some, if_neg (by simpa using hle)]
    · rfl

@[simp] theorem store_peak (b : PayloadBudget) (kind : PayloadKind) (n : ℕ) :
    (b.store kind n).peak = b.peak := rfl

theorem store_counter (b : PayloadBudget) (kind : PayloadKind) (n : ℕ) (k : PayloadKind) :
    (k = kind ∧ (b.store kind n).counter k = n) ∨
      (k ≠ kind ∧ (b.store kind n).counter k = b.counter k) := by
  by_cases h : k = kind
  · exact .inl ⟨h, if_pos h⟩
  · exact .inr ⟨h, if_neg h⟩

theorem retained_mono {b b' : PayloadBudget} (h : ∀ k, b'.counter k ≤ b.counter k) :
    b'.retained ≤ b.retained :=
  Nat.add_le_add (Nat.add_le_add (h _) (h _)) (h _)

/-- A job goes on covering what is retained while the counters fall. -/
theorem Job.Covers.mono {b b' : PayloadBudget} {job : Job} (h : job.Covers b)
    (hle : ∀ k, b'.counter k ≤ b.counter k) : job.Covers b' := by
  obtain ⟨kind, bytes, phase⟩ := job
  cases phase with
  | loadResponse => trivial
  | loadMetadata response => exact (hle _).trans h
  | loadBlock sum => exact (Nat.add_le_add (hle _) (hle _)).trans h
  | raisePeak total => exact (retained_mono hle).trans h
  | load | exchange used | refused | charge | dropped => exact h.elim

/-- What a step does to the counters, to the peak and to what the job charges. -/
structure Job.Moves (b : PayloadBudget) (job : Job) (b' : PayloadBudget) (job' : Job) : Prop where
  counter : ∀ k, b'.counter k + job.charged k = b.counter k + job'.charged k
  limit : ∀ k, b'.counter k ≤ k.limit
  sound : job'.Sound
  peak_mono : b.peak ≤ b'.peak
  peak : b'.peak ≤ retainedLimit
  /-- Counters only grow when the job charges, and is then the one to measure. -/
  grows : (∀ k, b'.counter k ≤ b.counter k) ∨ job'.Covers b'
  covers : job.Covers b → b'.retained ≤ b'.peak ∨ job'.Covers b'

/-- A step that leaves the budget as it is. -/
theorem Job.Moves.read {b : PayloadBudget} {job : Job} {p : Phase}
    (hlimit : ∀ k, b.counter k ≤ k.limit) (hpeak : b.peak ≤ retainedLimit)
    (hc : p.charged = job.phase.charged) (hsound : Job.Sound { job with phase := p })
    (hcovers : job.Covers b → Job.Covers b { job with phase := p }) :
    job.Moves b b { job with phase := p } := by
  refine ⟨?_, hlimit, hsound, le_rfl, hpeak, .inl fun _ => le_rfl, fun h => .inr (hcovers h)⟩
  intro k
  simp only [Job.charged, hc]

/-- What the closure of `fetch_update` decides is sound. -/
theorem Job.Moves.seen {b : PayloadBudget} {job : Job} (hlimit : ∀ k, b.counter k ≤ k.limit)
    (hpeak : b.peak ≤ retainedLimit) (hc : job.phase.charged = false) (hn : ¬job.Covers b) :
    job.Moves b b { job with phase := PayloadBudget.seen job.kind job.bytes (b.counter job.kind) } := by
  rcases seen_cases job.kind job.bytes (b.counter job.kind) with ⟨hle, hp⟩ | ⟨-, hp⟩
  · rw [hp]
    exact .read hlimit hpeak hc.symm hle fun h => (hn h).elim
  · rw [hp]
    exact .read hlimit hpeak hc.symm trivial fun h => (hn h).elim

/-- **A step moves its counter by exactly the bytes that it charges or releases.** -/
theorem Job.step_moves {b b' : PayloadBudget} {spurious : Bool} {job : Job} {p : Phase}
    (hlimit : ∀ k, b.counter k ≤ k.limit) (hpeak : b.peak ≤ retainedLimit) (hsound : job.Sound)
    (hle : ∀ k, job.charged k ≤ b.counter k) (h : job.step b spurious = some (b', p)) :
    job.Moves b b' { job with phase := p } := by
  obtain ⟨kind, bytes, phase⟩ := job
  cases phase with
  | load =>
    cases h
    exact .seen hlimit hpeak rfl id
  | exchange used =>
    simp only [step] at h
    split at h
    · rename_i heq
      cases h
      -- the exchanged value is the one that the closure accepted
      have hfits : used + bytes ≤ kind.limit := hsound
      refine ⟨?_, ?_, trivial, le_rfl, hpeak, .inr trivial, fun _ => .inr trivial⟩
      · intro k
        rcases store_counter b kind (used + bytes) k with ⟨rfl, hk⟩ | ⟨hne, hk⟩
        · rw [hk, heq.1]
          simp [charged, Phase.charged]
        · rw [hk]
          simp [charged, Ne.symm hne]
      · intro k
        rcases store_counter b kind (used + bytes) k with ⟨rfl, hk⟩ | ⟨-, hk⟩
        · rw [hk]
          exact hfits
        · rw [hk]
          exact hlimit k
    · cases h
      exact .seen hlimit hpeak rfl id
  | loadResponse =>
    cases h
    exact .read hlimit hpeak rfl (hlimit .response) fun _ => Nat.le_refl (b.counter .response)
  | loadMetadata response =>
    cases h
    exact .read hlimit hpeak rfl (Nat.add_le_add hsound (hlimit .metadata)) fun hc =>
      Nat.add_le_add_right hc (b.counter .metadata)
  | loadBlock sum =>
    cases h
    exact .read hlimit hpeak rfl (Nat.add_le_add hsound (hlimit .block)) fun hc =>
      Nat.add_le_add_right hc (b.counter .block)
  | raisePeak total =>
    cases h
    refine ⟨fun k => rfl, hlimit, trivial, le_max_left .., max_le hpeak hsound,
      .inl fun _ => le_rfl, ?_⟩
    intro hc
    exact .inl (Nat.le_trans hc (le_max_right b.peak total))
  | charge =>
    cases h
    -- the bytes of this charge are in the counter, so that it does not wrap
    have hbytes : bytes ≤ b.counter kind := by simpa [charged, Phase.charged] using hle kind
    have hsub := fetchSub_eq hbytes ((hlimit kind).trans (limit_le kind))
    have hfall : ∀ k, (b.store kind (fetchSub (b.counter kind) bytes)).counter k ≤ b.counter k := by
      intro k
      rcases store_counter b kind (fetchSub (b.counter kind) bytes) k with ⟨rfl, hk⟩ | ⟨-, hk⟩
      · rw [hk, hsub]
        exact Nat.sub_le ..
      · rw [hk]
    refine ⟨?_, fun k => (hfall k).trans (hlimit k), trivial, le_rfl, hpeak, .inl hfall,
      fun hc => hc.elim⟩
    intro k
    rcases store_counter b kind (fetchSub (b.counter kind) bytes) k with ⟨rfl, hk⟩ | ⟨hne, hk⟩
    · rw [hk, hsub]
      simp [charged, Phase.charged, Nat.sub_add_cancel hbytes]
    · rw [hk]
      simp [charged, Ne.symm hne]
  | refused | dropped => cases h

/-! ### Every step of every run -/

/-- Replacing one job changes the sum by that job. -/
theorem sum_set_add (f : Job → ℕ) {l : List Job} {j : ℕ} {x : Job} (y : Job)
    (hj : l[j]? = some x) : ((l.set j y).map f).sum + f x = (l.map f).sum + f y := by
  induction l generalizing j with
  | nil => simp at hj
  | cons z l ih =>
    cases j with
    | zero =>
      cases hj
      simp only [List.set_cons_zero, List.map_cons, List.sum_cons]
      omega
    | succ j =>
      have := ih (show l[j]? = some x from hj)
      simp only [List.set_cons_succ, List.map_cons, List.sum_cons]
      omega

/-- What a job charges is counted. -/
theorem State.charged_le (s : State) {j : ℕ} {job : Job} (hj : s.jobs[j]? = some job)
    (k : PayloadKind) : job.charged k ≤ s.charged k :=
  List.single_le_sum (fun _ _ => Nat.zero_le _) _
    (List.mem_map_of_mem (List.mem_of_getElem? hj))

theorem inv_init : Inv .init :=
  ⟨fun _ => rfl, fun _ => Nat.zero_le _, by simp [State.init], Nat.zero_le _, .inl le_rfl⟩

theorem Inv.moves {s : State} (hs : Inv s) {j : ℕ} {job : Job} (hj : s.jobs[j]? = some job)
    {spurious : Bool} {b : PayloadBudget} {p : Phase}
    (h : job.step s.budget spurious = some (b, p)) :
    job.Moves s.budget b { job with phase := p } :=
  Job.step_moves hs.limit hs.peak (hs.sound job (List.mem_of_getElem? hj))
    (fun k => (s.charged_le hj k).trans_eq (hs.counter k).symm) h

/-- **Every step keeps the counters equal to the bytes that are charged, and the peak
above them or about to be raised.** -/
theorem Step.keeps {s s' : State} {e : Event} (hs : Inv s) (h : Step s e s') : Inv s' := by
  cases h with
  | reserve kind bytes =>
    refine ⟨?_, hs.limit, ?_, hs.peak, ?_⟩
    · intro k
      -- the new call has charged nothing
      simpa [State.charged, Job.charged, Phase.charged] using hs.counter k
    · intro job hjob
      rcases List.mem_append.mp hjob with hjob | hjob
      · exact hs.sound job hjob
      · rw [List.mem_singleton.mp hjob]
        trivial
    · rcases hs.measured with hle | ⟨job, hjob, hc⟩
      · exact .inl hle
      · exact .inr ⟨job, List.mem_append_left _ hjob, hc⟩
  | @act j job spurious b p hj hstep =>
    have hm := hs.moves hj hstep
    have hmem : { job with phase := p } ∈ s.jobs.set j { job with phase := p } :=
      List.mem_set (List.getElem?_eq_some_iff.mp hj).1 _
    refine ⟨?_, hm.limit, ?_, hm.peak, ?_⟩
    · intro k
      have hsum := sum_set_add (Job.charged k) { job with phase := p } hj
      have hmove := hm.counter k
      have hcount := hs.counter k
      unfold State.charged at hcount ⊢
      show b.counter k = ((s.jobs.set j { job with phase := p }).map (Job.charged k)).sum
      omega
    · intro job' hjob'
      rcases List.mem_or_eq_of_mem_set hjob' with hjob' | rfl
      · exact hs.sound job' hjob'
      · exact hm.sound
    · show b.retained ≤ b.peak ∨ _
      rcases hs.measured with hle | ⟨job', hjob', hc⟩
      · rcases hm.grows with hfall | hcov
        · exact .inl ((retained_mono hfall).trans (hle.trans hm.peak_mono))
        · exact .inr ⟨_, hmem, hcov⟩
      · obtain ⟨i, hi⟩ := List.mem_iff_getElem?.mp hjob'
        by_cases hij : j = i
        · -- the job that covers makes the step itself
          subst hij
          cases hj.symm.trans hi
          rcases hm.covers hc with hle | hcov
          · exact .inl hle
          · exact .inr ⟨_, hmem, hcov⟩
        · rcases hm.grows with hfall | hcov
          · refine .inr ⟨job', List.mem_iff_getElem?.mpr ⟨i, ?_⟩, hc.mono hfall⟩
            rw [List.getElem?_set_ne hij]
            exact hi
          · exact .inr ⟨_, hmem, hcov⟩

theorem Step.peak_mono {s s' : State} {e : Event} (hs : Inv s) (h : Step s e s') :
    s.budget.peak ≤ s'.budget.peak := by
  cases h with
  | reserve kind bytes => exact le_rfl
  | act hj hstep => exact (hs.moves hj hstep).peak_mono

/-- The peak never falls. -/
theorem run_peak {s : State} (hs : Inv s) {es : List Event} {s' : State}
    (run : History.Run Step s es s') : Inv s' ∧ s.budget.peak ≤ s'.budget.peak := by
  induction run with
  | nil => exact ⟨hs, le_rfl⟩
  | snoc _ hstep ih => exact ⟨hstep.keeps ih.1, ih.2.trans (hstep.peak_mono ih.1)⟩

/-- `reserve` refuses only what does not fit at that moment. -/
theorem Job.refused_full {b b' : PayloadBudget} {spurious : Bool} {job : Job}
    (h : job.step b spurious = some (b', .refused)) :
    job.kind.limit < b.counter job.kind + job.bytes := by
  have hseen : PayloadBudget.seen job.kind job.bytes (b.counter job.kind) = .refused →
      job.kind.limit < b.counter job.kind + job.bytes := by
    intro hr
    rcases seen_cases job.kind job.bytes (b.counter job.kind) with ⟨-, hp⟩ | ⟨hlt, -⟩
    · cases hp.symm.trans hr
    · exact hlt
  unfold step at h
  split at h
  · simp only [Option.some.injEq, Prod.mk.injEq] at h
    exact hseen h.2
  · split at h
    · cases h
    · simp only [Option.some.injEq, Prod.mk.injEq] at h
      exact hseen h.2
  all_goals cases h

/-- **The payload budget under every interleaving.**  In every state of every run, each
counter is the sum of the charges that are alive, and within its limit; the peak is at
most the sum of the retained limits, is not below what is retained unless a call of
`reserve` is still measuring, and never falls; a call is refused only when its bytes
would exceed the limit at that moment; and all counters are zero when every charge is
dropped. -/
theorem payload_budget {es : List Event} {s : State} (run : History.Run Step .init es s) :
    (∀ k, s.budget.counter k = s.charged k ∧ s.charged k ≤ k.limit) ∧
    s.budget.metrics.peakBytes ≤ 24 * 1024 * 1024 ∧
    ((∀ job ∈ s.jobs, job.phase.measuring = false) →
      s.budget.metrics.responseBytes + s.budget.metrics.metadataBytes +
        s.budget.metrics.blockBytes ≤ s.budget.metrics.peakBytes) ∧
    (∀ es' s', History.Run Step s es' s' →
      s.budget.metrics.peakBytes ≤ s'.budget.metrics.peakBytes) ∧
    (∀ (j : ℕ) (job : Job) spurious b, s.jobs[j]? = some job →
      job.step s.budget spurious = some (b, .refused) →
      job.kind.limit < s.charged job.kind + job.bytes) ∧
    ((∀ job ∈ s.jobs, job.phase.charged = false) → ∀ k, s.budget.counter k = 0) := by
  have hs : Inv s := run.invariant inv_init fun hi hstep => hstep.keeps hi
  refine ⟨fun k => ⟨hs.counter k, (hs.counter k).symm.le.trans (hs.limit k)⟩,
    hs.peak.trans (by decide), ?_,
    fun es' s' run' => (run_peak hs run').2, ?_, ?_⟩
  · intro hquiet
    rcases hs.measured with hle | ⟨job, hjob, hc⟩
    · exact hle
    · -- only a job that measures covers
      have hm := hquiet job hjob
      obtain ⟨kind, bytes, phase⟩ := job
      cases phase with
      | loadResponse | loadMetadata r | loadBlock n | raisePeak t => cases hm
      | load | exchange used | refused | charge | dropped => exact hc.elim
  · intro j job spurious b _ hstep
    rw [← hs.counter]
    exact Job.refused_full hstep
  · intro hdone k
    rw [hs.counter, State.charged]
    refine List.sum_eq_zero fun n hn => ?_
    obtain ⟨job, hjob, rfl⟩ := List.mem_map.mp hn
    rw [Job.charged, hdone job hjob]
    simp

theorem act_done {s : State} {job : Job} {b : PayloadBudget} {p : Phase} (j : ℕ)
    (hj : s.jobs[j]? = some job) (h : job.step s.budget false = some (b, p)) :
    Step s (.act j) ⟨b, s.jobs.set j { job with phase := p }⟩ :=
  .act hj h

/-- A response is dropped while a metadata charge measures: the peak keeps what only the
first load saw. -/
theorem payload_budget_overlap : ∃ es s, History.Run Step .init es s ∧
    s.jobs = [⟨.response, 5, .dropped⟩, ⟨.metadata, 3, .charge⟩] ∧
    s.budget.counter .response = s.charged .response ∧
    s.budget.metrics.responseBytes + s.budget.metrics.metadataBytes +
      s.budget.metrics.blockBytes ≤ s.budget.metrics.peakBytes ∧
    s.budget.metrics.peakBytes = 8 := by
  have run : History.Run Step .init _ _ :=
    .snoc (.snoc (.snoc (.snoc (.snoc (.snoc (.snoc (.snoc (.snoc (.snoc (.snoc (.snoc (.snoc
      (.snoc (.snoc .nil
      (.reserve _ .response 5))
      (act_done 0 rfl rfl)) (act_done 0 rfl rfl)) (act_done 0 rfl rfl)) (act_done 0 rfl rfl))
      (act_done 0 rfl rfl)) (act_done 0 rfl rfl))
      (.reserve _ .metadata 3))
      (act_done 1 rfl rfl)) (act_done 1 rfl rfl)) (act_done 1 rfl rfl))
      (act_done 0 rfl rfl))
      (act_done 1 rfl rfl)) (act_done 1 rfl rfl)) (act_done 1 rfl rfl)
  obtain ⟨hcounter, -, hquiet, -⟩ := payload_budget run
  refine ⟨_, _, run, by decide +kernel, (hcounter .response).1, hquiet ?_, by decide +kernel⟩
  decide +kernel

end PayloadBudget

end Dashboard

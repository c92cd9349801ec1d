/-
The gate that pauses backfill while the validator is busy.

The model of `SyncGate` in `quip-dashboard/src/indexer/sync_gate.rs`, of
`sync_gate_decision` in `indexer/mod.rs`, and of the round of `backfill` that
consults it.  The gate counts calm samples and lets backfill run from the tenth
on; a sample that is not calm sets the count back.  A sync-state read that fails
never reaches the gate: `backfill` pauses for that round and the count stays.

* `runs_eq_calmSince` — the counter is the number of calm rounds since the last
  round that was not calm, failed reads left out;
* `not_allowed_of_busy` — backfill stays paused for the nine rounds after a round
  that was not calm;
* `lastTenCalm_iff` — **backfill runs only after ten calm rounds in a row exactly
  when no failed read falls between ten calm rounds with no other break**.
-/
import Mathlib.Data.List.Induction
import QuipDashboard.Records

namespace Dashboard

/-- `LATENCY_CEILING_MICROS`. -/
def latencyCeilingMicros : ℕ := 5000000

/-- `LIVE_LAG_BOUND`. -/
def liveLagBound : ℕ := 32

/-- `RESUME_HYSTERESIS`. -/
def resumeHysteresis : ℕ := 10

/-- The measurements of `MethodMetrics` that the gate reads. -/
structure MethodMetrics where
  calls : ℕ
  elapsedMicros : ℕ
  deriving DecidableEq

/-- `SyncGate`: the in-sync samples in a row. -/
structure SyncGate where
  inSyncRuns : ℕ
  deriving DecidableEq

/-- `Sample::from_metrics`: the average latency, in microseconds, of all calls. -/
def averageMicros (methods : List MethodMetrics) : ℕ :=
  let micros := methods.foldl (fun n m => saturatingAdd n (min m.elapsedMicros u64Max)) 0
  let calls := methods.foldl (fun n m => saturatingAdd n m.calls) 0
  if calls = 0 then 0 else micros / calls

/-- `paused_now` of `SyncGate::evaluate`. -/
def pausedNow (isSyncing : Bool) (finalized best latency : ℕ) : Bool :=
  isSyncing || decide (best - finalized ≥ liveLagBound) ||
    decide (latency > latencyCeilingMicros)

/-- `SyncGate::evaluate`: the gate afterwards, and whether backfill pauses. -/
def SyncGate.evaluate (gate : SyncGate) (isSyncing : Bool) (finalized best latency : ℕ) :
    SyncGate × Bool :=
  let paused := pausedNow isSyncing finalized best latency
  let runs := if paused then 0 else saturatingAdd gate.inSyncRuns 1
  (⟨runs⟩, if paused then true else decide (runs < resumeHysteresis))

/-- What a round that consults the gate finds: the answer of `sync_state`, if the
read succeeds, the metrics, the best height of the progress and the target height. -/
structure GateRound where
  sync : Option Bool
  methods : List MethodMetrics
  bestHeight : Option ℕ
  finalized : ℕ
  deriving DecidableEq

/-- `sync_gate_decision`; `none` where the sync-state read fails. -/
def syncGateDecision (gate : SyncGate) (r : GateRound) : SyncGate × Option Bool :=
  match r.sync with
  | none => (gate, none)
  | some isSyncing =>
    let best := r.bestHeight.getD r.finalized
    let evaluated := gate.evaluate isSyncing r.finalized best (averageMicros r.methods)
    (evaluated.1, some evaluated.2)

/-- The gate after the rounds of a process that starts with `SyncGate::default()`. -/
def gateAfter (rounds : List GateRound) : SyncGate :=
  rounds.foldl (fun gate r => (syncGateDecision gate r).1) ⟨0⟩

/-- `backfill` goes on in the round `r` after the rounds `before`:
`sync_gate_decision(..).unwrap_or(true)` is false. -/
def allowed (before : List GateRound) (r : GateRound) : Bool :=
  !((syncGateDecision (gateAfter before) r).2.getD true)

/-! ### The three kinds of rounds -/

/-- The sync-state read of the round fails. -/
def GateRound.readFailed (r : GateRound) : Bool := r.sync.isNone

/-- The read succeeds and the validator is neither syncing, nor lagging, nor slow. -/
def GateRound.calm (r : GateRound) : Bool :=
  match r.sync with
  | none => false
  | some isSyncing => !(pausedNow isSyncing r.finalized (r.bestHeight.getD r.finalized)
      (averageMicros r.methods))

/-- The read succeeds and the validator is syncing, lagging or slow. -/
def GateRound.busy (r : GateRound) : Bool := !r.readFailed && !r.calm

theorem GateRound.kinds (r : GateRound) :
    (r.readFailed = true ∧ r.calm = false ∧ r.busy = false) ∨
    (r.readFailed = false ∧ r.calm = true ∧ r.busy = false) ∨
    (r.readFailed = false ∧ r.calm = false ∧ r.busy = true) := by
  rcases hs : r.sync with _ | isSyncing
  · left
    simp [GateRound.readFailed, GateRound.calm, GateRound.busy, hs]
  · right
    cases hc : r.calm <;> simp [GateRound.readFailed, GateRound.busy, hs, hc]

/-- The calm rounds since the last busy one; failed reads do not count. -/
def calmSince (rounds : List GateRound) : ℕ :=
  rounds.foldl (fun n r => if r.busy then 0 else if r.calm then n + 1 else n) 0

theorem calmSince_append (rounds : List GateRound) (r : GateRound) :
    calmSince (rounds ++ [r]) =
      if r.busy then 0 else if r.calm then calmSince rounds + 1 else calmSince rounds := by
  rw [calmSince, List.foldl_append]
  rfl

/-- One round: the counter follows `calmSince`, whatever the kind of the round. -/
theorem syncGateDecision_runs (gate : SyncGate) (r : GateRound) (n : ℕ)
    (hg : gate.inSyncRuns = min n u64Max) :
    (syncGateDecision gate r).1.inSyncRuns =
      min (if r.busy then 0 else if r.calm then n + 1 else n) u64Max := by
  rcases hs : r.sync with _ | isSyncing
  · simp only [syncGateDecision, GateRound.busy, GateRound.readFailed, GateRound.calm, hs]
    exact hg
  · simp only [syncGateDecision, GateRound.busy, GateRound.readFailed, GateRound.calm, hs,
      SyncGate.evaluate]
    cases pausedNow isSyncing r.finalized (r.bestHeight.getD r.finalized)
      (averageMicros r.methods)
    · simp only [saturatingAdd, hg]
      simp
      omega
    · simp

/-- **The counter is the number of calm rounds since the last busy one.** -/
theorem runs_eq_calmSince (rounds : List GateRound) :
    (gateAfter rounds).inSyncRuns = min (calmSince rounds) u64Max := by
  induction rounds using List.reverseRecOn with
  | nil => rfl
  | append_singleton rounds r ih =>
    rw [calmSince_append, gateAfter, List.foldl_append]
    exact syncGateDecision_runs _ r _ ih

/-- Backfill runs in the calm rounds from the tenth since the last busy round on. -/
theorem allowed_iff (before : List GateRound) (r : GateRound) :
    allowed before r = true ↔ r.calm = true ∧ 9 ≤ calmSince before := by
  have hruns := runs_eq_calmSince before
  rcases hs : r.sync with _ | isSyncing
  · simp [allowed, syncGateDecision, GateRound.calm, hs]
  · simp only [allowed, syncGateDecision, GateRound.calm, hs, SyncGate.evaluate]
    cases pausedNow isSyncing r.finalized (r.bestHeight.getD r.finalized)
      (averageMicros r.methods)
    · simp only [saturatingAdd, hruns, resumeHysteresis, u64Max]
      simp
    · simp

/-! ### Ten calm rounds with no busy round between -/

/-- Ten calm rounds, the first and the last round among them, and no busy round. -/
structure Ramp (seg : List GateRound) : Prop where
  starts : ∃ q rest, seg = q :: rest ∧ q.calm = true
  ends : ∃ front r, seg = front ++ [r] ∧ r.calm = true
  free : ∀ q ∈ seg, q.busy = false
  ten : seg.countP GateRound.calm = 10

/-- What the hysteresis promises: a round in which backfill runs is the last of ten
calm rounds in a row. -/
def ResumesAfterTenCalm (rounds : List GateRound) : Prop :=
  ∀ before r after, rounds = before ++ r :: after → allowed before r = true →
    ∃ seg, seg <:+ before ++ [r] ∧ seg.length = 10 ∧ ∀ q ∈ seg, q.calm = true

theorem calm_not_busy {r : GateRound} (h : r.calm = true) : r.busy = false := by
  rcases r.kinds with ⟨-, hc, -⟩ | ⟨-, -, hb⟩ | ⟨-, hc, -⟩
  · rw [hc] at h
    cases h
  · exact hb
  · rw [hc] at h
    cases h

/-- A stretch with no busy round adds its calm rounds to the count. -/
theorem calmSince_append_free (before seg : List GateRound) (h : ∀ q ∈ seg, q.busy = false) :
    calmSince (before ++ seg) = calmSince before + seg.countP GateRound.calm := by
  induction seg using List.reverseRecOn with
  | nil => simp
  | append_singleton seg r ih =>
    have hr : r.busy = false := h r (by simp)
    have ih := ih fun q hq => h q (by simp [hq])
    rw [← List.append_assoc, calmSince_append, ih, hr, List.countP_append]
    cases hc : r.calm <;> simp [hc, Nat.add_assoc]

/-- A positive count is that of a stretch with no busy round that starts calm. -/
theorem exists_stretch (before : List GateRound) (k : ℕ) (hk : 0 < k)
    (h : k ≤ calmSince before) :
    ∃ q rest, q :: rest <:+ before ∧ q.calm = true ∧
      (∀ p ∈ q :: rest, p.busy = false) ∧ (q :: rest).countP GateRound.calm = k := by
  induction before using List.reverseRecOn generalizing k with
  | nil =>
    have : calmSince [] = 0 := rfl
    omega
  | append_singleton before r ih =>
    rw [calmSince_append] at h
    -- The stretch of the rounds before, with this round behind it.
    have extend : ∀ j, 0 < j → j ≤ calmSince before → r.busy = false →
        j + (if r.calm then 1 else 0) = k →
        ∃ q rest, q :: rest <:+ before ++ [r] ∧ q.calm = true ∧
          (∀ p ∈ q :: rest, p.busy = false) ∧ (q :: rest).countP GateRound.calm = k := by
      intro j hj hle hb hjk
      obtain ⟨q, rest, ⟨front, hfront⟩, hq, hfree, hcount⟩ := ih j hj hle
      refine ⟨q, rest ++ [r], ⟨front, by simp [← hfront]⟩, hq, ?_, ?_⟩
      · intro p hp
        rcases List.mem_append.mp (by simpa using hp : p ∈ (q :: rest) ++ [r]) with hp | hp
        · exact hfree p hp
        · rw [List.mem_singleton.mp hp]
          exact hb
      · have : q :: (rest ++ [r]) = (q :: rest) ++ [r] := rfl
        rw [this, List.countP_append, hcount, ← hjk]
        cases hc : r.calm <;> simp [hc]
    rcases r.kinds with ⟨-, hc, hb⟩ | ⟨-, hc, hb⟩ | ⟨-, hc, hb⟩
    · rw [hb, hc] at h
      exact extend k hk (by simpa using h) hb (by simp [hc])
    · rw [hb, hc] at h
      rcases Nat.eq_or_lt_of_le hk with rfl | hk
      · exact ⟨r, [], ⟨before, rfl⟩, hc, by simpa using hb, by simp [hc]⟩
      · exact extend (k - 1) (by omega) (by simp at h; omega) hb (by simp [hc]; omega)
    · rw [hb] at h
      simp at h
      omega

/-- **Backfill stays paused for the nine rounds after a busy round**, failed reads or not. -/
theorem not_allowed_of_busy (before seg : List GateRound) (b r : GateRound) (hb : b.busy = true)
    (hseg : seg.length ≤ 8) : allowed (before ++ b :: seg) r = false := by
  have hcount : calmSince (before ++ b :: seg) ≤ seg.length := by
    induction seg using List.reverseRecOn with
    | nil => simp [calmSince_append, hb]
    | append_singleton seg q ih =>
      have ih := ih (by simp at hseg; omega)
      rw [← List.cons_append, ← List.append_assoc, calmSince_append, List.length_append]
      split
      · omega
      · split <;> simp <;> omega
  by_contra hallowed
  have := ((allowed_iff _ r).mp (by simpa using hallowed)).2
  omega

/-- A stretch of the history that is a ramp ends in a round in which backfill runs. -/
theorem Ramp.allowed {seg front : List GateRound} {r : GateRound} (h : Ramp seg)
    (hseg : seg = front ++ [r]) (before : List GateRound) :
    Dashboard.allowed (before ++ front) r = true := by
  have hr : r.calm = true := by
    obtain ⟨front', r', heq, hr'⟩ := h.ends
    rw [hseg] at heq
    rwa [(List.append_inj' heq rfl).2 |> List.singleton_inj.mp]
  refine (allowed_iff _ r).mpr ⟨hr, ?_⟩
  have hten := h.ten
  rw [hseg, List.countP_append] at hten
  rw [calmSince_append_free before front fun q hq => h.free q (by simp [hseg, hq])]
  simp [hr] at hten
  omega

/-- Ten calm rounds at the end of a ramp are the whole of it. -/
theorem Ramp.eq_of_suffix {seg last : List GateRound} (h : Ramp seg) (hsuffix : last <:+ seg)
    (hlen : last.length = 10) (hcalm : ∀ q ∈ last, q.calm = true) : last = seg := by
  obtain ⟨lead, hlead⟩ := hsuffix
  have hlast : last.countP GateRound.calm = 10 := by
    rw [List.countP_eq_length.mpr hcalm, hlen]
  have hnone : lead.countP GateRound.calm = 0 := by
    have hten := h.ten
    rw [← hlead, List.countP_append, hlast] at hten
    omega
  obtain ⟨s, rest, hstart, hs⟩ := h.starts
  rcases lead with _ | ⟨l, lead⟩
  · exact hlead
  · rw [hstart] at hlead
    have hl : l = s := (List.cons.inj hlead).1
    simp [hl, hs] at hnone

/-- A round in which backfill runs ends a ramp. -/
theorem exists_ramp {before : List GateRound} {r : GateRound} (h : allowed before r = true) :
    ∃ seg, seg <:+ before ++ [r] ∧ Ramp seg := by
  obtain ⟨hr, hnine⟩ := (allowed_iff before r).mp h
  obtain ⟨q, rest, ⟨front, hfront⟩, hq, hfree, hcount⟩ := exists_stretch before 9 (by omega) hnine
  refine ⟨(q :: rest) ++ [r], ⟨front, by simp [← hfront]⟩,
    ⟨q, rest ++ [r], rfl, hq⟩, ⟨q :: rest, r, rfl, hr⟩, ?_, ?_⟩
  · intro p hp
    rcases List.mem_append.mp hp with hp | hp
    · exact hfree p hp
    · rw [List.mem_singleton.mp hp]
      exact calm_not_busy hr
  · rw [List.countP_append, hcount]
    simp [hr]

/-- **The gate keeps its promise over a history exactly when no stretch of it with no
busy round has a failed read between its ten calm rounds.** -/
theorem resumesAfterTenCalm_iff (rounds : List GateRound) :
    ResumesAfterTenCalm rounds ↔
      ∀ seg, seg <:+: rounds → Ramp seg → ∀ q ∈ seg, q.readFailed = false := by
  constructor
  · rintro hprom seg ⟨before, after, hrounds⟩ hramp q hq
    obtain ⟨front, r, hseg, hr⟩ := hramp.ends
    obtain ⟨last, ⟨pre, hpre⟩, hlen, hcalm⟩ :=
      hprom (before ++ front) r after (by simp [← hrounds, hseg])
        (hramp.allowed hseg before)
    have hsuffix : last <:+ seg := by
      have hlast : last <:+ before ++ seg := ⟨pre, by simp [hpre, hseg]⟩
      refine List.suffix_of_suffix_length_le hlast (List.suffix_append _ _) ?_
      rw [hlen, ← hramp.ten]
      exact List.countP_le_length
    have hc := hcalm q (by rwa [hramp.eq_of_suffix hsuffix hlen hcalm])
    rcases q.kinds with ⟨-, hc', -⟩ | ⟨hf, -, -⟩ | ⟨hf, -, -⟩
    · rw [hc'] at hc
      cases hc
    · exact hf
    · exact hf
  · rintro hcond before r after hrounds hallowed
    obtain ⟨seg, ⟨front, hfront⟩, hramp⟩ := exists_ramp hallowed
    have hread := hcond seg ⟨front, after, by simp [hrounds, hfront]⟩ hramp
    have hcalm : ∀ p ∈ seg, p.calm = true := by
      intro p hp
      rcases p.kinds with ⟨hf, -, -⟩ | ⟨-, hc, -⟩ | ⟨-, -, hb⟩
      · rw [hread p hp] at hf
        cases hf
      · exact hc
      · rw [hramp.free p hp] at hb
        cases hb
    refine ⟨seg, ⟨front, hfront⟩, ?_, hcalm⟩
    rw [← List.countP_eq_length.mpr hcalm, hramp.ten]

/-! ### A failed read between calm rounds -/

/-- A calm round at height 500. -/
def calmRound : GateRound := ⟨some false, [⟨10, 500000⟩], some 500, 500⟩

/-- A round whose sync-state read fails. -/
def failedRound : GateRound := { calmRound with sync := none }

/-- Nine calm rounds, a failed read and one calm round: backfill runs in the last round,
and only one calm round stands after the failed read. -/
theorem failed_read_keeps_count :
    ¬ ResumesAfterTenCalm (List.replicate 9 calmRound ++ [failedRound, calmRound]) := by
  intro h
  obtain ⟨seg, hseg, hlen, hcalm⟩ :=
    h (List.replicate 9 calmRound ++ [failedRound]) calmRound [] rfl (by decide +kernel)
  have hlast : seg = List.replicate 8 calmRound ++ [failedRound, calmRound] := by
    obtain ⟨pre, hpre⟩ := hseg
    have hsplit : pre ++ seg =
        [calmRound] ++ (List.replicate 8 calmRound ++ [failedRound, calmRound]) := hpre
    exact (List.append_inj' hsplit hlen).2
  have := hcalm failedRound (by simp [hlast])
  revert this
  decide

end Dashboard

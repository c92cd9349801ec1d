/-
The startup check of the device access times over restarts.

`ensure_device_access_time_backfill` writes its marker and reindexes the winners in two
transactions, and a later run reads only the marker.

* `ensure_trace` — what one run, stopped anywhere, makes of the marker and of the count of
  its reindexes;
* `device_time_backfill_once` — **unless a run ends between the two transactions, the
  reindex has taken effect exactly once whenever a run reports it**, and never twice;
* `device_time_backfill_lost` — a run that is stopped there leaves a report of a reindex
  that never was.
-/
import QuipDashboard.Lifecycle
import QuipDashboard.NodeSummary

namespace Dashboard

/-! ### Runs of the process -/

/-- The stored rows, and how many reindexes of the startup check took effect so far. -/
structure BackfillState where
  rows : ServiceState
  reindexes : ℕ

/-- The reindexes that an effect committed. -/
def reindexesOf {γ : Type} : ServiceEffect γ → ServiceState → ServiceState → ℕ
  | .reindexWinners, s, t =>
    if t.store.generation .winners = s.store.generation .winners then 0 else 1
  | _, _, _ => 0

/-- An effect of the check. Other tasks of the process may change anything but the marker
before it. -/
def BackfillPerforms {γ : Type} (s : BackfillState) (e : ServiceEffect γ) (answer : γ)
    (t : BackfillState) : Prop :=
  ∃ u : ServiceState, u.marker = s.rows.marker ∧ ServiceAnswers u e answer t.rows ∧
    t.reindexes = s.reindexes + reindexesOf e u t.rows

/-- One run of the process: what the check performed, and its result unless the process
crashed in it. -/
structure ProcessRun where
  pre : BackfillState
  performed : List (Performed ServiceEffect)
  outcome : Option (Except ServiceError DeviceAccessTimeBackfill)
  post : BackfillState

/-- A run of the process from the state that the earlier runs left. -/
def ProcessStep (s : BackfillState) (r : ProcessRun) (t : BackfillState) : Prop :=
  r.pre = s ∧ r.post = t ∧
    Trace @BackfillPerforms ensureDeviceAccessTimeBackfill s r.performed t r.outcome

/-- The run ended after its marker was written and before its reindex took effect. -/
def ProcessRun.Interrupted (r : ProcessRun) : Prop :=
  r.pre.rows.marker = none ∧ r.post.rows.marker = some "triggered" ∧
    r.post.reindexes = r.pre.reindexes

/-! ### One run -/

/-- What a run did to the marker and to the count of reindexes. -/
inductive BackfillOutcome (s t : BackfillState)
    (o : Option (Except ServiceError DeviceAccessTimeBackfill)) : Prop
  | kept (hm : t.rows.marker = s.rows.marker) (hn : t.reindexes = s.reindexes)
      (ho : o = some (.ok .triggered) → ∃ m, s.rows.marker = some m ∧ m ≠ "not-needed")
  | notNeeded (hs : s.rows.marker = none) (hm : t.rows.marker = some "not-needed")
      (hn : t.reindexes = s.reindexes) (ho : o ≠ some (.ok .triggered))
  | cut (hs : s.rows.marker = none) (hm : t.rows.marker = some "triggered")
      (hn : t.reindexes = s.reindexes) (ho : o ≠ some (.ok .triggered))
  | reindexed (hs : s.rows.marker = none) (hm : t.rows.marker = some "triggered")
      (hn : t.reindexes = s.reindexes + 1)

/-- A read keeps the marker and the count. -/
theorem BackfillPerforms.read {α : Type} {e : ServiceEffect (Except StoreError α)}
    {f : ServiceState → α} {answer : Except StoreError α} {s t : BackfillState}
    (h : BackfillPerforms s e answer t) (hn : ∀ u v, reindexesOf e u v = 0)
    (he : ∀ u v, ServiceAnswers u e answer v → ServiceReads (f u) u answer v) :
    t.rows.marker = s.rows.marker ∧ t.reindexes = s.reindexes ∧
      ∀ a, answer = .ok a → ∃ u : ServiceState, u.marker = s.rows.marker ∧ a = f u := by
  obtain ⟨u, hu, ha, hc⟩ := h
  obtain ⟨rfl, hv⟩ := he _ _ ha
  rw [hn, Nat.add_zero] at hc
  refine ⟨hu, hc, fun a ha => ⟨_, hu, ?_⟩⟩
  rcases hv with hv | ⟨e', hv⟩
  · exact Except.ok.inj (ha.symm.trans hv)
  · rw [hv] at ha
    cases ha

/-- The write of the marker. -/
theorem BackfillPerforms.setMarker {value : String} {answer : Except StoreError Unit}
    {s t : BackfillState} (h : BackfillPerforms s (.setMarker value) answer t) :
    t.reindexes = s.reindexes ∧
      (t.rows.marker = some value ∨ (∃ e, answer = .error e) ∧ t.rows.marker = s.rows.marker) := by
  obtain ⟨u, hu, ha, hc⟩ := h
  refine ⟨hc, ?_⟩
  rcases ha with ⟨-, ht⟩ | ⟨he, ht | ht⟩
  · exact .inl (by rw [ht])
  · exact .inr ⟨he, by rw [ht, hu]⟩
  · exact .inl (by rw [ht])

/-- The reindex keeps the marker; when it succeeds, it took effect. -/
theorem BackfillPerforms.reindexWinners {answer : Except StoreError (List GenerationGuard)}
    {s t : BackfillState} (h : BackfillPerforms s .reindexWinners answer t) :
    t.rows.marker = s.rows.marker ∧
      (t.reindexes = s.reindexes + 1 ∨ (∃ e, answer = .error e) ∧ t.reindexes = s.reindexes) := by
  obtain ⟨u, hu, ⟨r, store, hr, ha⟩, hc⟩ := h
  have hm : t.rows.marker = s.rows.marker := by
    rcases ha with ⟨-, ht⟩ | ⟨-, ht | ht⟩
    all_goals rw [ht, ← hu]
  refine ⟨hm, ?_⟩
  by_cases hgen : t.rows.store.generation .winners = u.store.generation .winners
  · have hzero : reindexesOf .reindexWinners u t.rows = 0 := if_pos hgen
    rw [hzero, Nat.add_zero] at hc
    refine .inr ⟨?_, hc⟩
    rcases ha with ⟨rfl, ht⟩ | ⟨he, -⟩
    · obtain e | gs := answer
      · exact ⟨e, rfl⟩
      · -- a reindex that succeeds moves the generation on
        have hnext := (reindex_ok hr).2.generation .winners
        rw [if_pos (mem_reindexed.mpr (List.mem_singleton_self _))] at hnext
        rw [ht, hnext] at hgen
        omega
    · exact he
  · have hone : reindexesOf .reindexWinners u t.rows = 1 := if_neg hgen
    rw [hone] at hc
    exact .inl hc

/-- The decision. -/
theorem decideBackfill_trace {s t : BackfillState} {es : List (Performed ServiceEffect)}
    {o : Option (Except ServiceError DeviceAccessTimeBackfill)}
    (h : Trace @BackfillPerforms decideBackfill s es t o) : BackfillOutcome s t o := by
  rcases Trace.awaitOk h with ⟨-, rfl, ho⟩ | ⟨e, hg, -, ho⟩ | ⟨marker, s₁, es₁, hg, h, -⟩
  · exact .kept rfl rfl fun hok => absurd hok (ho _)
  · obtain ⟨hm, hn, -⟩ := hg.read (fun _ _ => rfl) fun _ _ => id
    exact .kept hm hn fun hok => absurd hok (ho _)
  obtain ⟨hm₁, hn₁, hv⟩ := hg.read (f := ServiceState.marker) (fun _ _ => rfl) fun _ _ => id
  obtain ⟨u, hu, rfl⟩ := hv _ rfl
  -- a marker that is there decides at once
  cases hmarker : u.marker with
  | some marker =>
    rw [hmarker] at h hu
    obtain ⟨-, rfl, ho⟩ := Trace.of_done h
    refine .kept hm₁ hn₁ fun hok => ⟨marker, hu.symm, fun hnot => ?_⟩
    have := ho _ hok
    rw [decisionOf, if_pos hnot] at this
    cases this
  | none =>
    rw [hmarker] at h hu
    have hs : s.rows.marker = none := hu.symm
    rcases Trace.awaitOk h with ⟨-, rfl, ho⟩ | ⟨e, hg, -, ho⟩ | ⟨probe, s₂, es₂, hp, h, -⟩
    · exact .kept hm₁ hn₁ fun hok => absurd hok (ho _)
    · obtain ⟨hm, hn, -⟩ := hg.read (fun _ _ => rfl) fun _ _ => id
      exact .kept (hm.trans hm₁) (hn.trans hn₁) fun hok => absurd hok (ho _)
    obtain ⟨hm₂, hn₂, -⟩ := hp.read (fun _ _ => rfl) fun _ _ => id
    split at h
    · -- nothing to reindex
      rcases Trace.awaitOk h with ⟨-, rfl, ho⟩ | ⟨e, hg, -, ho⟩ | ⟨_, s₃, es₃, hw, h, -⟩
      · exact .kept (hm₂.trans hm₁) (hn₂.trans hn₁) fun hok => absurd hok (ho _)
      · obtain ⟨hn, hm | ⟨-, hm⟩⟩ := hg.setMarker
        · exact .notNeeded hs hm (by omega) (ho _)
        · exact .kept (hm.trans (hm₂.trans hm₁)) (by omega) fun hok => absurd hok (ho _)
      · obtain ⟨hn, hm | ⟨⟨e, he⟩, -⟩⟩ := hw.setMarker
        · obtain ⟨-, rfl, ho⟩ := Trace.of_done h
          exact .notNeeded hs hm (by omega) fun hok => nomatch ho _ hok
        · cases he
    · rcases Trace.awaitOk h with ⟨-, rfl, ho⟩ | ⟨e, hg, -, ho⟩ | ⟨_, s₃, es₃, hw, h, -⟩
      · exact .kept (hm₂.trans hm₁) (hn₂.trans hn₁) fun hok => absurd hok (ho _)
      · obtain ⟨hn, hm | ⟨-, hm⟩⟩ := hg.setMarker
        · exact .cut hs hm (by omega) (ho _)
        · exact .kept (hm.trans (hm₂.trans hm₁)) (by omega) fun hok => absurd hok (ho _)
      obtain ⟨hn₃, hm₃ | ⟨⟨e, he⟩, -⟩⟩ := hw.setMarker
      · -- the marker says that the winners were reindexed, and they are not yet
        rcases Trace.awaitOk h with ⟨-, rfl, ho⟩ | ⟨e, hg, -, ho⟩ | ⟨gs, s₄, es₄, hr, h, -⟩
        · exact .cut hs hm₃ (by omega) (ho _)
        · obtain ⟨hm, hn | ⟨-, hn⟩⟩ := hg.reindexWinners
          · exact .reindexed hs (hm.trans hm₃) (by omega)
          · exact .cut hs (hm.trans hm₃) (by omega) (ho _)
        · obtain ⟨hm, hn | ⟨⟨e, he⟩, -⟩⟩ := hr.reindexWinners
          · obtain ⟨-, rfl, -⟩ := Trace.of_done h
            exact .reindexed hs (hm.trans hm₃) (by omega)
          · cases he
      · cases he

/-- The record of the decision keeps the marker and the count. -/
theorem recordDecision_trace {decision : DeviceAccessTimeBackfill} {s t : BackfillState}
    {es : List (Performed ServiceEffect)} {o : Option (Except ServiceError Unit)}
    (h : Trace @BackfillPerforms (recordDecision decision) s es t o) :
    t.rows.marker = s.rows.marker ∧ t.reindexes = s.reindexes := by
  rcases Trace.awaitOk h with ⟨-, rfl, -⟩ | ⟨e, hg, -, -⟩ | ⟨stored, s₁, es₁, hg, h, -⟩
  · exact ⟨rfl, rfl⟩
  · obtain ⟨hm, hn, -⟩ := hg.read (fun _ _ => rfl) fun _ _ => id
    exact ⟨hm, hn⟩
  obtain ⟨hm, hn, -⟩ := hg.read (fun _ _ => rfl) fun _ _ => id
  have set_keeps : ∀ {value : IndexerObservability} {answer : Except StoreError Unit}
      {t : BackfillState}, BackfillPerforms s₁ (.setObservability value) answer t →
      t.rows.marker = s₁.rows.marker ∧ t.reindexes = s₁.reindexes := by
    rintro value answer t ⟨u, hu, ha, hc⟩
    refine ⟨?_, hc⟩
    rcases ha with ⟨-, ht⟩ | ⟨-, ht | ht⟩
    all_goals rw [ht, ← hu]
  rcases Trace.call h with ⟨-, rfl, -⟩ | ⟨answer, s₂, es₂, hw, h, -⟩
  · exact ⟨hm, hn⟩
  · have hkeep := set_keeps hw
    obtain rfl : t = s₂ := by
      cases answer with
      | ok _ => exact (Trace.of_done h).2.1
      | error _ => exact (Trace.of_fail h).2.1
    exact ⟨hkeep.1.trans hm, hkeep.2.trans hn⟩

/-- A later part of the run that keeps the marker and the count does not change what the
decision did. -/
theorem BackfillOutcome.trans {s t u : BackfillState}
    {o o' : Option (Except ServiceError DeviceAccessTimeBackfill)}
    (h : BackfillOutcome s t o) (hm : u.rows.marker = t.rows.marker)
    (hn : u.reindexes = t.reindexes)
    (ho : o' = some (.ok .triggered) → o = some (.ok .triggered)) : BackfillOutcome s u o' := by
  cases h with
  | kept hm₁ hn₁ ho₁ => exact .kept (hm.trans hm₁) (hn.trans hn₁) fun h => ho₁ (ho h)
  | notNeeded hs hm₁ hn₁ ho₁ =>
    exact .notNeeded hs (hm.trans hm₁) (hn.trans hn₁) fun h => ho₁ (ho h)
  | cut hs hm₁ hn₁ ho₁ => exact .cut hs (hm.trans hm₁) (hn.trans hn₁) fun h => ho₁ (ho h)
  | reindexed hs hm₁ hn₁ => exact .reindexed hs (hm.trans hm₁) (hn.trans hn₁)

/-- **One run keeps the marker, writes that nothing is needed, stops between the marker and
the reindex, or reindexes once.** -/
theorem ensure_trace {s t : BackfillState} {es : List (Performed ServiceEffect)}
    {o : Option (Except ServiceError DeviceAccessTimeBackfill)}
    (h : Trace @BackfillPerforms ensureDeviceAccessTimeBackfill s es t o) :
    BackfillOutcome s t o := by
  rcases Trace.bind h with ⟨rfl, h₁⟩ | ⟨e, rfl, h₁⟩ | ⟨decision, s₁, es₁, es₂, h₁, h₂, -⟩
  · exact (decideBackfill_trace h₁).trans rfl rfl nofun
  · exact (decideBackfill_trace h₁).trans rfl rfl nofun
  refine (decideBackfill_trace h₁).trans ?_ ?_ ?_
  all_goals
    rcases Trace.bind h₂ with ⟨ho, h⟩ | ⟨e, ho, h⟩ | ⟨_, s₂, es₃, es₄, h, hd, -⟩
  case refine_1.inl | refine_1.inr.inl => exact (recordDecision_trace h).1
  case refine_2.inl | refine_2.inr.inl => exact (recordDecision_trace h).2
  case refine_3.inl | refine_3.inr.inl =>
    rw [ho]
    nofun
  all_goals obtain ⟨-, rfl, ho⟩ := Trace.of_done hd
  · exact (recordDecision_trace h).1
  · exact (recordDecision_trace h).2
  · intro hok
    rw [ho _ hok]

/-! ### All runs -/

/-- What the marker says about the reindexes so far. -/
def BackfillState.Recorded (s : BackfillState) : Prop :=
  (s.rows.marker = none ∧ s.reindexes = 0) ∨ (s.rows.marker = some "not-needed" ∧ s.reindexes = 0) ∨
    (s.rows.marker = some "triggered" ∧ s.reindexes ≤ 1)

theorem ProcessStep.recorded {s t : BackfillState} {r : ProcessRun} (hs : s.Recorded)
    (h : ProcessStep s r t) : t.Recorded := by
  obtain ⟨-, -, h⟩ := h
  cases ensure_trace h with
  | kept hm hn _ =>
    rw [BackfillState.Recorded, hm, hn]
    exact hs
  | notNeeded hnone hm hn _ =>
    rcases hs with ⟨-, hz⟩ | ⟨hm', -⟩ | ⟨hm', -⟩
    · exact .inr (.inl ⟨hm, hn.trans hz⟩)
    · cases hnone.symm.trans hm'
    · cases hnone.symm.trans hm'
  | cut hnone hm hn _ =>
    rcases hs with ⟨-, hz⟩ | ⟨hm', -⟩ | ⟨hm', -⟩
    · exact .inr (.inr ⟨hm, by omega⟩)
    · cases hnone.symm.trans hm'
    · cases hnone.symm.trans hm'
  | reindexed hnone hm hn =>
    rcases hs with ⟨-, hz⟩ | ⟨hm', -⟩ | ⟨hm', -⟩
    · exact .inr (.inr ⟨hm, by omega⟩)
    · cases hnone.symm.trans hm'
    · cases hnone.symm.trans hm'

/-- Without an interrupted run, the marker `"triggered"` stands for one reindex. -/
theorem ProcessStep.reindexed {s t : BackfillState} {r : ProcessRun} (hr : s.Recorded)
    (hs : s.rows.marker = some "triggered" → s.reindexes = 1) (h : ProcessStep s r t)
    (hi : ¬r.Interrupted) (ht : t.rows.marker = some "triggered") : t.reindexes = 1 := by
  obtain ⟨rfl, rfl, h⟩ := h
  cases ensure_trace h with
  | kept hm hn _ => exact hn.trans (hs (hm.symm.trans ht))
  | notNeeded _ hm _ _ =>
    have := hm.symm.trans ht
    simp at this
  | cut hnone hm hn _ => exact absurd ⟨hnone, hm, hn⟩ hi
  | reindexed hnone _ hn =>
    rcases hr with ⟨-, hz⟩ | ⟨hm', -⟩ | ⟨hm', -⟩
    · omega
    · cases hnone.symm.trans hm'
    · cases hnone.symm.trans hm'

/-- A run that reports a reindex leaves its marker. -/
theorem ProcessStep.marker {s t : BackfillState} {r : ProcessRun} (hr : s.Recorded)
    (h : ProcessStep s r t) (ho : r.outcome = some (.ok .triggered)) :
    t.rows.marker = some "triggered" := by
  obtain ⟨-, -, h⟩ := h
  cases ensure_trace h with
  | kept hm _ ho' =>
    obtain ⟨m, hsome, hne⟩ := ho' ho
    rcases hr with ⟨hm', -⟩ | ⟨hm', -⟩ | ⟨hm', -⟩
    · cases hsome.symm.trans hm'
    · exact absurd (Option.some.inj (hsome.symm.trans hm')) hne
    · exact hm.trans hm'
  | notNeeded _ _ _ ho' => exact absurd ho ho'
  | cut _ _ _ ho' => exact absurd ho ho'
  | reindexed _ hm _ => exact hm

/-- The marker `"triggered"` stays. -/
theorem ProcessStep.stays {s t : BackfillState} {r : ProcessRun} (h : ProcessStep s r t)
    (hs : s.rows.marker = some "triggered") : t.rows.marker = some "triggered" := by
  obtain ⟨-, -, h⟩ := h
  cases ensure_trace h with
  | kept hm _ _ => exact hm.trans hs
  | notNeeded hnone _ _ _ => cases hnone.symm.trans hs
  | cut _ hm _ _ => exact hm
  | reindexed _ hm _ => exact hm

section Runs

variable {rows : ServiceState} {rs : List ProcessRun} {s : BackfillState}

/-- What the marker says holds after every sequence of runs. -/
theorem run_recorded (hrows : rows.marker = none) (h : History.Run ProcessStep ⟨rows, 0⟩ rs s) :
    s.Recorded :=
  h.invariant (.inl ⟨hrows, rfl⟩) fun hs hstep => hstep.recorded hs

theorem run_reported (hrows : rows.marker = none) (h : History.Run ProcessStep ⟨rows, 0⟩ rs s)
    (hr : ∃ r ∈ rs, r.outcome = some (.ok .triggered)) : s.rows.marker = some "triggered" := by
  induction h with
  | nil =>
    obtain ⟨r, hr, -⟩ := hr
    cases hr
  | snoc hrun hstep ih =>
    obtain ⟨r, hr, ho⟩ := hr
    rcases List.mem_cons.mp hr with rfl | hr
    · exact hstep.marker (run_recorded hrows hrun) ho
    · exact hstep.stays (ih ⟨r, hr, ho⟩)

theorem run_reindexed (hrows : rows.marker = none) (h : History.Run ProcessStep ⟨rows, 0⟩ rs s)
    (hcut : ∀ r ∈ rs, ¬r.Interrupted) (hm : s.rows.marker = some "triggered") :
    s.reindexes = 1 := by
  induction h with
  | nil => cases hrows.symm.trans hm
  | snoc hrun hstep ih =>
    exact hstep.reindexed (run_recorded hrows hrun)
      (ih fun r hr => hcut r (List.mem_cons_of_mem _ hr)) (hcut _ (List.mem_cons_self ..)) hm

/-- **From a store without a marker, over any sequence of runs that may end anywhere, the
winners are reindexed at most once; when no run ended between its marker and its reindex,
exactly once as soon as a run has reported it.** -/
theorem device_time_backfill_once (hrows : rows.marker = none)
    (h : History.Run ProcessStep ⟨rows, 0⟩ rs s) :
    s.reindexes ≤ 1 ∧ ((∀ r ∈ rs, ¬r.Interrupted) →
      (∃ r ∈ rs, r.outcome = some (.ok .triggered)) → s.reindexes = 1) := by
  refine ⟨?_, fun hcut hr => run_reindexed hrows h hcut (run_reported hrows h hr)⟩
  rcases run_recorded hrows h with ⟨-, hz⟩ | ⟨-, hz⟩ | ⟨-, hz⟩
  all_goals omega

end Runs

/-! ### A run that ends well, and one that crashes between the two transactions -/

/-- A store with a winner row that reports no access time, and no marker. -/
def unmarked : ServiceState :=
  ⟨(wonCall "alice" (Store.bound false (.uniform 1))).post, none, none⟩

/-- Its marker says that the winners were reindexed. -/
def marked : ServiceState := { unmarked with marker := some "triggered" }

/-- And they were. -/
def rewalked : ServiceState := { marked with store := (reindex [.winners] unmarked.store).2 }

/-- The decision is in the record. -/
def reporting (s : ServiceState) : ServiceState :=
  { s with
    observability := some { IndexerObservability.initial with
      deviceAccessTimeBackfill := some .triggered } }

/-- The effects that record the decision. -/
def recorded : List (Performed ServiceEffect) :=
  [⟨.getObservability, .ok none⟩,
    ⟨.setObservability { IndexerObservability.initial with
      deviceAccessTimeBackfill := some .triggered }, .ok ()⟩]

/-- The effects up to the marker. -/
def decided : List (Performed ServiceEffect) :=
  [⟨.getMarker, .ok none⟩, ⟨.probe, .ok (true, false)⟩, ⟨.setMarker "triggered", .ok ()⟩]

/-- A run that ends well. -/
def wholeRun : ProcessRun where
  pre := ⟨unmarked, 0⟩
  performed := decided ++ ⟨.reindexWinners, .ok [⟨.winners, 2⟩]⟩ :: recorded
  outcome := some (.ok .triggered)
  post := ⟨reporting rewalked, 1⟩

/-- A run that crashes before it writes the marker. -/
def undecidedRun : ProcessRun where
  pre := ⟨unmarked, 0⟩
  performed := [⟨.getMarker, .ok none⟩, ⟨.probe, .ok (true, false)⟩]
  outcome := none
  post := ⟨unmarked, 0⟩

/-- A run that crashes after it wrote the marker. -/
def crashedRun : ProcessRun where
  pre := ⟨unmarked, 0⟩
  performed := decided
  outcome := none
  post := ⟨marked, 0⟩

/-- The run after it finds the marker. -/
def reportingRun : ProcessRun where
  pre := ⟨marked, 0⟩
  performed := ⟨.getMarker, .ok (some "triggered")⟩ :: recorded
  outcome := some (.ok .triggered)
  post := ⟨reporting marked, 0⟩

/-- A read of the rows as they are. -/
theorem BackfillPerforms.of_answer {γ : Type} {e : ServiceEffect γ} {answer : γ} {s t : ServiceState}
    (n : ℕ) (h : ServiceAnswers s e answer t) :
    BackfillPerforms ⟨s, n⟩ e answer ⟨t, n + reindexesOf e s t⟩ :=
  ⟨s, rfl, h, rfl⟩

/-- What a run does after it wrote the marker. -/
def afterMarker : Program ServiceEffect ServiceError DeviceAccessTimeBackfill :=
  (do let _ ← Program.awaitOk .store .reindexWinners
      return .triggered) >>= fun decision => do
    recordDecision decision
    return decision

/-- What a run does after it read the marker and the rows. -/
def afterProbe : Program ServiceEffect ServiceError DeviceAccessTimeBackfill :=
  (do Program.awaitOk .store (.setMarker "triggered")
      let _ ← Program.awaitOk .store .reindexWinners
      return .triggered) >>= fun decision => do
    recordDecision decision
    return decision

theorem unmarked_probes {es : List (Performed ServiceEffect)} {t : BackfillState}
    {o : Option (Except ServiceError DeviceAccessTimeBackfill)}
    (h : Trace @BackfillPerforms afterProbe ⟨unmarked, 0⟩ es t o) :
    Trace @BackfillPerforms ensureDeviceAccessTimeBackfill ⟨unmarked, 0⟩
      (⟨.getMarker, .ok none⟩ :: ⟨.probe, .ok (true, false)⟩ :: es) t o := by
  have hread : BackfillPerforms ⟨unmarked, 0⟩ .getMarker (.ok none) ⟨unmarked, 0⟩ :=
    .of_answer 0 ⟨rfl, .inl rfl⟩
  have hprobe : BackfillPerforms ⟨unmarked, 0⟩ .probe (.ok (true, false)) ⟨unmarked, 0⟩ :=
    .of_answer 0 ⟨rfl, .inl (by decide +kernel)⟩
  exact .step hread (.step hprobe h)

theorem unmarked_decides {es : List (Performed ServiceEffect)} {t : BackfillState}
    {o : Option (Except ServiceError DeviceAccessTimeBackfill)}
    (h : Trace @BackfillPerforms afterMarker ⟨marked, 0⟩ es t o) :
    Trace @BackfillPerforms ensureDeviceAccessTimeBackfill ⟨unmarked, 0⟩ (decided ++ es) t o := by
  have hmark : BackfillPerforms ⟨unmarked, 0⟩ (.setMarker "triggered") (.ok ()) ⟨marked, 0⟩ :=
    .of_answer 0 (.inl ⟨rfl, rfl⟩)
  exact unmarked_probes (.step hmark h)

theorem recordDecision_reports {s : ServiceState} (hs : s.observability = none) (n : ℕ) :
    Trace @BackfillPerforms (do recordDecision .triggered; return DeviceAccessTimeBackfill.triggered)
      ⟨s, n⟩ recorded ⟨reporting s, n⟩ (some (.ok .triggered)) := by
  have hread : BackfillPerforms ⟨s, n⟩ .getObservability (.ok none) ⟨s, n⟩ :=
    .of_answer n ⟨rfl, .inl (by rw [hs])⟩
  have hwrite : BackfillPerforms ⟨s, n⟩ (.setObservability { IndexerObservability.initial with
      deviceAccessTimeBackfill := some .triggered }) (.ok ()) ⟨reporting s, n⟩ :=
    .of_answer n (.inl ⟨rfl, rfl⟩)
  exact .step hread (.step hwrite (.done ..))

theorem wholeRun_step : ProcessStep ⟨unmarked, 0⟩ wholeRun ⟨reporting rewalked, 1⟩ := by
  have hreindex : BackfillPerforms ⟨marked, 0⟩ .reindexWinners (.ok [⟨.winners, 2⟩])
      ⟨rewalked, 1⟩ :=
    ⟨marked, rfl, ⟨_, _, rfl, .inl ⟨by decide +kernel, rfl⟩⟩, by decide +kernel⟩
  exact ⟨rfl, rfl, unmarked_decides (.step hreindex (recordDecision_reports rfl 1))⟩

theorem undecidedRun_step : ProcessStep ⟨unmarked, 0⟩ undecidedRun ⟨unmarked, 0⟩ :=
  ⟨rfl, rfl, unmarked_probes (.stopped ..)⟩

theorem crashedRun_step : ProcessStep ⟨unmarked, 0⟩ crashedRun ⟨marked, 0⟩ :=
  ⟨rfl, rfl, unmarked_decides (.stopped ..)⟩

theorem reportingRun_step : ProcessStep ⟨marked, 0⟩ reportingRun ⟨reporting marked, 0⟩ := by
  have hread : BackfillPerforms ⟨marked, 0⟩ .getMarker (.ok (some "triggered")) ⟨marked, 0⟩ :=
    .of_answer 0 ⟨rfl, .inl rfl⟩
  exact ⟨rfl, rfl, .step hread (recordDecision_reports rfl 0)⟩

/-- A run that crashes before the marker, and one that reindexes. -/
theorem device_time_backfill_once_whole : ∃ s,
    History.Run ProcessStep ⟨unmarked, 0⟩ [wholeRun, undecidedRun] s ∧ s.reindexes = 1 := by
  have run : History.Run ProcessStep ⟨unmarked, 0⟩ [wholeRun, undecidedRun] _ :=
    .snoc (.snoc .nil undecidedRun_step) wholeRun_step
  refine ⟨_, run, (device_time_backfill_once rfl run).2 ?_
    ⟨wholeRun, List.mem_cons_self .., rfl⟩⟩
  intro r hr hcut
  rcases List.mem_cons.mp hr with rfl | hr
  · exact absurd hcut.2.2 (by decide)
  · rw [List.mem_singleton.mp hr] at hcut
    exact Option.some_ne_none _ hcut.2.1.symm

/-- **After a crash between the marker and the reindex, the next run reports a reindex of
winners that were never reindexed.** -/
theorem device_time_backfill_lost : ∃ rs s, History.Run ProcessStep ⟨unmarked, 0⟩ rs s ∧
    probeDeviceAccessTimeData unmarked.store = (true, false) ∧ reportingRun ∈ rs ∧
    reportingRun.outcome = some (.ok .triggered) ∧ s.reindexes = 0 :=
  ⟨[reportingRun, crashedRun], ⟨reporting marked, 0⟩,
    .snoc (.snoc .nil crashedRun_step) reportingRun_step, by decide +kernel,
    List.mem_cons_self .., rfl, rfl⟩

end Dashboard

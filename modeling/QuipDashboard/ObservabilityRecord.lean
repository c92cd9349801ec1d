/-
The startup check and the miner poll on the one observability record.

Both read the whole record, change their own fields and write the whole record back, and
`run_indexer` releases the poll before it runs the check.

* `observability_kept` — **while every write finds the record as its own task read it last,
  the record holds the decision and the fields of the last poll**;
* `observability_lost` — a poll that read before the check wrote puts its copy back, and the
  decision is lost.
-/
import QuipDashboard.Lifecycle
import QuipDashboard.Interleaving

namespace Dashboard

/-! ### The two tasks -/

/-- The two tasks that keep the record. -/
inductive ObservabilityTask where
  | backfill
  | polling
  deriving DecidableEq

/-- What the tasks return. -/
@[reducible] def ObservabilityTask.Result : ObservabilityTask → Type
  | .backfill => DeviceAccessTimeBackfill
  | .polling => Unit

/-- The stored rows, and the record as each task read it last. -/
structure Shared where
  rows : ServiceState
  lastRead : ObservabilityTask → Option (Option IndexerObservability)

/-- What a task has read after an effect. -/
def remembered (i : ObservabilityTask) {γ : Type} (e : ServiceEffect γ) (answer : γ)
    (m : ObservabilityTask → Option (Option IndexerObservability)) :
    ObservabilityTask → Option (Option IndexerObservability) :=
  match e, answer with
  | .getObservability, .ok v => Function.update m i (some v)
  | _, _ => m

/-- An effect of a task. Others may change any row but the record before it. -/
def SharedAnswers (i : ObservabilityTask) {γ : Type} (s : Shared) (e : ServiceEffect γ)
    (answer : γ) (t : Shared) : Prop :=
  ∃ u : ServiceState, u.observability = s.rows.observability ∧
    ServiceAnswers u e answer t.rows ∧ t.lastRead = remembered i e answer s.lastRead

/-- A write of the record finds it as its task read it last. -/
def Current (i : ObservabilityTask) {γ : Type} (s : Shared) (e : ServiceEffect γ) (_ : γ)
    (_ : Shared) : Prop :=
  match e with
  | .setObservability _ => s.lastRead i = some s.rows.observability
  | _ => True

/-- The startup check beside a polling loop. -/
def observabilityTasks (polls : List Poll) (s : Shared) :
    Tasks ServiceEffect ServiceError Shared ObservabilityTask.Result where
  state := s
  code
    | .backfill => ensureDeviceAccessTimeBackfill
    | .polling => pollAll polls

/-! ### The fields of a poll -/

/-- The record holds the fields of the first section of a poll. -/
structure Poll.Polled (p : Poll) (o : IndexerObservability) : Prop where
  time : o.lastStatusFetchAt = p.now
  anonymous : p.identified = none → o.selfIdentified = some false
  status : ∀ s, p.identified = some s → o.selfIdentified = some true ∧
    (∃ head, unsigned u64Max s.chainHeadNumber = some head ∧ o.chainHeadFromNode = some head) ∧
    ∃ modes, projectModes s.modes = some modes ∧ o.modes = some modes
  stats : ∀ c, p.stats = some c →
    ∃ counters, projectCounters c = some counters ∧ o.minerStats = some counters

/-- The record holds the fields of a poll. -/
structure Poll.Recorded (p : Poll) (o : IndexerObservability) : Prop extends p.Polled o where
  connected : o.chainConnected = p.health.chainConnected
  substrateEvent : o.lastSubstrateEventAt = p.health.lastSubstrateEventAt
  blockInsert : o.lastBlockInsertAt = p.health.lastBlockInsertAt
  best : parsedHeight p.health.bestBlockHeight = .ok o.bestBlockHeight
  finalized : parsedHeight p.health.finalizedBlockHeight = .ok o.finalizedBlockHeight
  progress : ∃ progress, p.progress = .ok progress ∧ o.indexer = some progress
  sync : ∀ sync, p.sync = some sync → o.nodeSyncing = some sync.isSyncing ∧
    o.nodeSyncCurrentBlock = some sync.currentBlock ∧
    o.nodeSyncHighestBlock = some sync.highestBlock

theorem projected_ok {α : Type} {v : Option α} {a : α} (h : projected v = .ok a) : v = some a := by
  cases v with
  | some b =>
    cases h
    rfl
  | none => cases h

theorem withStatus_ok {s : PolledStatus} {o o' : IndexerObservability}
    (h : withStatus s o = .ok o') : ∃ head modes, unsigned u64Max s.chainHeadNumber = some head ∧
      projectModes s.modes = some modes ∧
      o' = { o with
        selfIdentified := some true, chainHeadFromNode := some head, modes := some modes } := by
  obtain ⟨head, hhead, h⟩ := Except.bind_eq_ok.mp h
  obtain ⟨modes, hmodes, h⟩ := Except.bind_eq_ok.mp h
  exact ⟨head, modes, projected_ok hhead, projected_ok hmodes, (Except.ok.inj h).symm⟩

theorem withStats_ok {stats : Option (MinerCounters ℤ)} {o o' : IndexerObservability}
    (h : withStats stats o = .ok o') : ∃ counters, o' = { o with minerStats := counters } ∧
      ∀ c, stats = some c → ∃ v, projectCounters c = some v ∧ counters = some v := by
  cases stats with
  | none =>
    cases h
    exact ⟨o.minerStats, rfl, nofun⟩
  | some c =>
    obtain ⟨v, hv, h⟩ := Except.bind_eq_ok.mp h
    refine ⟨some v, (Except.ok.inj h).symm, ?_⟩
    rintro c' ⟨rfl⟩
    exact ⟨v, projected_ok hv, rfl⟩

/-- **The second section of a poll sets its fields, and no others.** -/
theorem withHealth_ok {p : Poll} {o o' : IndexerObservability} (hp : p.Polled o)
    (h : withHealth p o = .ok o') :
    p.Recorded o' ∧ o'.deviceAccessTimeBackfill = o.deviceAccessTimeBackfill := by
  obtain ⟨best, hbest, h⟩ := Except.bind_eq_ok.mp h
  obtain ⟨finalized, hfinalized, h⟩ := Except.bind_eq_ok.mp h
  obtain ⟨progress, hprogress, h⟩ := Except.bind_eq_ok.mp h
  have hprogress : p.progress = .ok progress := by
    cases hq : p.progress with
    | ok q =>
      rw [hq] at hprogress
      cases hprogress
      rfl
    | error e =>
      rw [hq] at hprogress
      cases hprogress
  cases hsync : p.sync with
  | none =>
    rw [hsync] at h
    cases h
    refine ⟨⟨⟨hp.time, hp.anonymous, hp.status, hp.stats⟩, rfl, rfl, rfl, hbest, hfinalized,
      ⟨progress, hprogress, rfl⟩, ?_⟩, rfl⟩
    intro sync hs
    cases hsync.symm.trans hs
  | some sync =>
    rw [hsync] at h
    cases h
    refine ⟨⟨⟨hp.time, hp.anonymous, hp.status, hp.stats⟩, rfl, rfl, rfl, hbest, hfinalized,
      ⟨progress, hprogress, rfl⟩, ?_⟩, rfl⟩
    intro sync' hs
    cases hsync.symm.trans hs
    exact ⟨rfl, rfl, rfl⟩

/-- The decision is no field of a poll. -/
theorem Poll.Polled.withDecision {p : Poll} {o : IndexerObservability} (h : p.Polled o)
    (d : Option DeviceAccessTimeBackfill) : p.Polled { o with deviceAccessTimeBackfill := d } :=
  ⟨h.time, h.anonymous, h.status, h.stats⟩

theorem Poll.Recorded.withDecision {p : Poll} {o : IndexerObservability} (h : p.Recorded o)
    (d : Option DeviceAccessTimeBackfill) : p.Recorded { o with deviceAccessTimeBackfill := d } :=
  ⟨h.toPolled.withDecision d, h.connected, h.substrateEvent, h.blockInsert, h.best, h.finalized,
    h.progress, h.sync⟩

/-! ### Rely and guarantee -/

/-- The decision in a record that may not be there. -/
def recordedDecision (o : Option IndexerObservability) : Option DeviceAccessTimeBackfill :=
  o.bind (·.deviceAccessTimeBackfill)

/-- What a task relies on about the record: the poll keeps the decision, and the check
changes nothing else. -/
def Keeps : ObservabilityTask → Option IndexerObservability → Option IndexerObservability → Prop
  | .backfill, a, b => recordedDecision b = recordedDecision a
  | .polling, a, b => ∀ o, a = some o → ∃ d, b = some { o with deviceAccessTimeBackfill := d }

theorem Keeps.refl (i : ObservabilityTask) (a : Option IndexerObservability) : Keeps i a a := by
  cases i with
  | backfill => rfl
  | polling => exact fun o ho => ⟨o.deviceAccessTimeBackfill, ho⟩

theorem Keeps.trans {i : ObservabilityTask} {a b c : Option IndexerObservability}
    (h : Keeps i a b) (h' : Keeps i b c) : Keeps i a c := by
  cases i with
  | backfill => exact Eq.trans h' h
  | polling =>
    intro o ho
    obtain ⟨d, hd⟩ := h o ho
    obtain ⟨d', hd'⟩ := h' _ hd
    exact ⟨d', hd'⟩

/-- What a task relies on. -/
def ObservabilityRely (i : ObservabilityTask) (s t : Shared) : Prop :=
  t.lastRead i = s.lastRead i ∧ Keeps i s.rows.observability t.rows.observability

/-- What a task guarantees: what the other one relies on. -/
def ObservabilityGuarantee (i : ObservabilityTask) {γ : Type} (s : Shared) (_ : ServiceEffect γ)
    (_ : γ) (t : Shared) : Prop :=
  ∀ j, j ≠ i → ObservabilityRely j s t

/-- The last poll of a store that is bound. -/
def lastPoll (polls : List Poll) : Option Poll := (polls.filter (·.bound)).getLast?

/-- What the tasks establish. -/
def ObservabilityPost (polls : List Poll) :
    (i : ObservabilityTask) → Except ServiceError i.Result → Shared → Prop
  | .backfill, .ok decision, s => recordedDecision s.rows.observability = some decision
  | .polling, .ok (), s =>
    ∀ p, lastPoll polls = some p → ∃ o, s.rows.observability = some o ∧ p.Recorded o
  | _, .error _, _ => True

/-- The judgement for the two tasks. -/
abbrev ObservabilitySafe (i : ObservabilityTask) {α : Type}
    (Q : Except ServiceError α → Shared → Prop)
    (p : Program ServiceEffect ServiceError α) (s : Shared) : Prop :=
  p.Safe (Conforming SharedAnswers Current i) (ObservabilityRely i) (ObservabilityGuarantee i) Q s

/-- An effect that is neither a read nor a write of the record. -/
def Aside {γ : Type} : ServiceEffect γ → Prop
  | .getObservability => False
  | .setObservability _ => False
  | _ => True

section Rules

variable {i : ObservabilityTask} {α β : Type} {Q : Except ServiceError β → Shared → Prop}
  {s : Shared}

theorem Aside.keeps {γ : Type} {e : ServiceEffect γ} (he : Aside e) {answer : γ} {t : Shared}
    (h : SharedAnswers i s e answer t) :
    t.rows.observability = s.rows.observability ∧ t.lastRead = s.lastRead := by
  obtain ⟨u, hu, ha, hl⟩ := h
  rw [← hu]
  cases e with
  | getObservability | setObservability => exact absurd he id
  | getMarker | probe => exact ⟨by rw [ha.1], hl⟩
  | setMarker value =>
    refine ⟨?_, hl⟩
    rcases ha with ⟨-, ht⟩ | ⟨-, ht | ht⟩
    all_goals rw [ht]
  | reindexWinners =>
    obtain ⟨r, store, -, ⟨-, ht⟩ | ⟨-, ht | ht⟩⟩ := ha
    all_goals exact ⟨by rw [ht], hl⟩
  | upsertMinerHardware row | setSelfAddress address => exact ⟨by rw [show t.rows = u from ha], hl⟩

/-- An effect besides the record. -/
theorem ObservabilitySafe.aside {e : ServiceEffect (Except StoreError α)}
    {f : α → Program ServiceEffect ServiceError β} (he : Aside e)
    (hQ : ∀ e s, Q (.error e) s)
    (hok : ∀ a t, ObservabilityRely i s t → ObservabilitySafe i Q (f a) t) :
    ObservabilitySafe i Q (Program.awaitOk .store e >>= f) s := by
  refine .awaitOk ?_ ?_ fun _ _ _ _ _ => hQ _ _
  · rintro s₁ - a t ⟨h, -⟩ j -
    obtain ⟨ho, hl⟩ := he.keeps h
    refine ⟨by rw [hl], ?_⟩
    rw [ho]
    exact Keeps.refl ..
  · rintro s₁ hs a t ⟨h, -⟩
    obtain ⟨ho, hl⟩ := he.keeps h
    refine hok a t ⟨by rw [hl, hs.1], ?_⟩
    rw [ho]
    exact hs.2

/-- A read of the record. -/
theorem ObservabilitySafe.get {f : Option IndexerObservability → Program ServiceEffect ServiceError β}
    (hQ : ∀ e s, Q (.error e) s)
    (hok : ∀ t, t.lastRead i = some t.rows.observability →
      Keeps i s.rows.observability t.rows.observability →
      ObservabilitySafe i Q (f t.rows.observability) t) :
    ObservabilitySafe i Q (Program.awaitOk .store .getObservability >>= f) s := by
  refine .awaitOk ?_ ?_ fun _ _ _ _ _ => hQ _ _
  · rintro s₁ - a t ⟨⟨u, hu, ha, hl⟩, -⟩ j hj
    have ho : t.rows.observability = s₁.rows.observability := by rw [ha.1, hu]
    refine ⟨?_, ?_⟩
    · rw [hl]
      cases a with
      | ok v => exact Function.update_of_ne hj _ _
      | error e => rfl
    · rw [ho]
      exact Keeps.refl ..
  · rintro s₁ hs v t ⟨⟨u, hu, ⟨ht, hv⟩, hl⟩, -⟩
    have ho : t.rows.observability = s₁.rows.observability := by rw [ht, hu]
    obtain rfl : v = t.rows.observability := by
      rcases hv with hv | ⟨e, hv⟩
      · rw [Except.ok.inj hv, ht]
      · cases hv
    refine hok t ?_ ?_
    · rw [hl]
      exact Function.update_self ..
    · rw [ho]
      exact hs.2

/-- A write of the record that replaces what was read. -/
theorem ObservabilitySafe.set {f : Unit → Program ServiceEffect ServiceError β}
    {stored : Option IndexerObservability} {value : IndexerObservability}
    (hread : s.lastRead i = some stored) (hkeeps : ∀ j, j ≠ i → Keeps j stored (some value))
    (hQ : ∀ e s, Q (.error e) s)
    (hok : ∀ t, t.rows.observability = some value → ObservabilitySafe i Q (f ()) t) :
    ObservabilitySafe i Q (Program.awaitOk .store (.setObservability value) >>= f) s := by
  refine .awaitOk ?_ ?_ fun _ _ _ _ _ => hQ _ _
  · rintro s₁ hs a t ⟨⟨u, hu, ha, hl⟩, hcur⟩ j hj
    have hl : t.lastRead = s₁.lastRead := hl
    refine ⟨by rw [hl], ?_⟩
    obtain rfl : stored = s₁.rows.observability :=
      Option.some.inj ((hs.1.trans hread).symm.trans hcur)
    rcases ha with ⟨-, ht⟩ | ⟨-, ht | ht⟩
    · rw [ht]
      exact hkeeps j hj
    · rw [ht, hu]
      exact Keeps.refl ..
    · rw [ht]
      exact hkeeps j hj
  · rintro s₁ - a t ⟨⟨u, -, ha, -⟩, -⟩
    refine hok t ?_
    rcases ha with ⟨-, ht⟩ | ⟨⟨e, he⟩, -⟩
    · rw [ht]
    · cases he

end Rules

/-! ### The startup check -/

theorem decideBackfill_safe {Q : Except ServiceError DeviceAccessTimeBackfill → Shared → Prop}
    (hQ : ∀ e s, Q (.error e) s) (hok : ∀ decision s, Q (.ok decision) s) (s : Shared) :
    ObservabilitySafe .backfill Q decideBackfill s := by
  refine ObservabilitySafe.aside trivial hQ fun marker t _ => ?_
  cases marker with
  | some marker => exact hok _ _
  | none =>
    refine ObservabilitySafe.aside trivial hQ fun probe t _ => ?_
    refine .ite (fun _ => ?_) fun _ => ?_
    · exact ObservabilitySafe.aside trivial hQ fun _ t _ => hok _ _
    · refine ObservabilitySafe.aside trivial hQ fun _ t _ => ?_
      exact ObservabilitySafe.aside trivial hQ fun _ t _ => hok _ _

theorem ensure_safe (polls : List Poll) (s : Shared) :
    ObservabilitySafe .backfill (ObservabilityPost polls .backfill)
      ensureDeviceAccessTimeBackfill s := by
  refine .bind (decideBackfill_safe ?_ ?_ s)
  · exact fun _ _ => trivial
  intro decision s
  refine .bind (ObservabilitySafe.get ?_ fun t hread _ => ?_)
  · exact fun _ _ => trivial
  rw [← Program.bind_pure' (Program.awaitOk _ _)]
  refine ObservabilitySafe.set hread ?_ (fun _ _ => trivial) fun u hu => ?_
  · rintro (_ | _) hj
    · exact absurd rfl hj
    · rintro o ho
      exact ⟨some decision, by rw [ho]; rfl⟩
  · show recordedDecision u.rows.observability = some decision
    rw [hu]
    rfl

/-! ### The poll -/

/-- A record that a poll writes keeps the decision of the record it was made from. -/
theorem keeps_of_decision {stored : Option IndexerObservability} {value : IndexerObservability}
    (h : value.deviceAccessTimeBackfill = recordedDecision stored) (j : ObservabilityTask)
    (hj : j ≠ .polling) : Keeps j stored (some value) := by
  cases j with
  | backfill => exact h
  | polling => exact absurd rfl hj

theorem decision_getD (stored : Option IndexerObservability) :
    (stored.getD .initial).deviceAccessTimeBackfill = recordedDecision stored := by
  cases stored with
  | none => rfl
  | some o => rfl

/-- The first section of a poll leaves its fields in the record. -/
theorem persistMinerPoll_safe {Q : Except ServiceError (Option String) → Shared → Prop} {p : Poll}
    (hQ : ∀ e s, Q (.error e) s)
    (hok : ∀ identity s o, s.rows.observability = some o → p.Polled o → Q (.ok identity) s)
    (s : Shared) : ObservabilitySafe .polling Q (persistMinerPoll p) s := by
  refine ObservabilitySafe.get hQ fun t hread _ => ?_
  have hdecision := decision_getD t.rows.observability
  revert hdecision
  generalize t.rows.observability.getD .initial = o
  intro hdecision
  cases hid : p.identified with
  | some status =>
    refine .ofExcept (fun o₁ h₁ => ?_) fun _ _ => hQ _ _
    refine ObservabilitySafe.aside trivial hQ fun _ t₁ ht₁ => ?_
    refine ObservabilitySafe.aside trivial hQ fun _ t₂ ht₂ => ?_
    refine .ofExcept (fun o₂ h₂ => ?_) fun _ _ => hQ _ _
    have hread₂ := (ht₂.1.trans ht₁.1).trans hread
    obtain ⟨head, modes, hhead, hmodes, rfl⟩ := withStatus_ok h₁
    obtain ⟨counters, rfl, hcounters⟩ := withStats_ok h₂
    refine ObservabilitySafe.set hread₂ (keeps_of_decision hdecision) hQ fun u hu => ?_
    refine hok _ u _ hu ⟨rfl, ?_, ?_, hcounters⟩
    · intro hnone
      cases hid.symm.trans hnone
    · intro s' hs'
      cases hid.symm.trans hs'
      exact ⟨rfl, ⟨head, hhead, rfl⟩, modes, hmodes, rfl⟩
  | none =>
    refine .ofExcept (fun o₂ h₂ => ?_) fun _ _ => hQ _ _
    obtain ⟨counters, rfl, hcounters⟩ := withStats_ok h₂
    refine ObservabilitySafe.set hread (keeps_of_decision hdecision) hQ fun u hu => ?_
    refine hok _ u _ hu ⟨rfl, fun _ => rfl, ?_, hcounters⟩
    intro s' hs'
    cases hid.symm.trans hs'

/-- A poll of a bound store leaves its fields in the record. -/
theorem pollMiner_safe {Q : Except ServiceError Unit → Shared → Prop} {p : Poll}
    (hbound : p.bound = true) (hQ : ∀ e s, Q (.error e) s)
    (hok : ∀ s o, s.rows.observability = some o → p.Recorded o → Q (.ok ()) s)
    (s : Shared) : ObservabilitySafe .polling Q (pollMiner p) s := by
  rw [pollMiner, if_pos hbound]
  refine .bind (persistMinerPoll_safe (fun _ _ => hQ _ _) (fun _ t o ho hpolled => ?_) s)
  refine ObservabilitySafe.get hQ fun u hread hkeeps => ?_
  obtain ⟨d, hd⟩ := hkeeps o ho
  rw [hd] at hread ⊢
  refine .ofExcept (fun o₁ h₁ => ?_) fun _ _ => hQ _ _
  obtain ⟨hrecorded, hdecision⟩ := withHealth_ok (hpolled.withDecision d) h₁
  rw [← Program.bind_pure' (Program.awaitOk _ _)]
  exact ObservabilitySafe.set hread (keeps_of_decision hdecision) hQ fun v hv =>
    hok v o₁ hv hrecorded

theorem lastPoll_cons (p : Poll) (ps : List Poll) :
    lastPoll (p :: ps) = (lastPoll ps).or (if p.bound then some p else none) := by
  rw [lastPoll, List.filter_cons]
  split
  · rw [List.getLast?_cons, ← lastPoll]
    cases lastPoll ps <;> rfl
  · rw [Option.or_none, lastPoll]

/-- A polling loop keeps the fields of its last poll, from a record that holds those of the
poll before it. -/
theorem pollAll_safe (polls : List Poll) {q : Option Poll} {s : Shared}
    (hq : ∀ p, q = some p → ∃ o, s.rows.observability = some o ∧ p.Recorded o) :
    ObservabilitySafe .polling (fun
      | .ok (), s => ∀ p, (lastPoll polls).or q = some p →
        ∃ o, s.rows.observability = some o ∧ p.Recorded o
      | .error _, _ => True) (pollAll polls) s := by
  induction polls generalizing q s with
  | nil => exact hq
  | cons p ps ih =>
    by_cases hbound : p.bound = true
    · refine .bind (pollMiner_safe hbound ?_ (fun u o ho hrecorded => ?_) s)
      · exact fun _ _ => trivial
      · refine (ih (q := some p) ?_).imp ?_
        · rintro p' ⟨rfl⟩
          exact ⟨o, ho, hrecorded⟩
        · rintro (e | _) v h
          · trivial
          · intro p' hp'
            rw [lastPoll_cons, if_pos hbound, Option.or_assoc] at hp'
            exact h p' hp'
    · have hskip : pollMiner p = pure () := if_neg hbound
      show ObservabilitySafe _ _ (pollMiner p >>= fun _ => pollAll ps) s
      rw [hskip]
      refine (ih hq).imp ?_
      rintro (e | _) v h
      · trivial
      · intro p' hp'
        rw [lastPoll_cons, if_neg hbound, Option.or_none] at hp'
        exact h p' hp'

/-! ### Both tasks -/

theorem ObservabilityRely.refl (i : ObservabilityTask) (s : Shared) : ObservabilityRely i s s :=
  ⟨rfl, .refl ..⟩

theorem ObservabilityRely.trans (i : ObservabilityTask) {a b c : Shared}
    (h : ObservabilityRely i a b) (h' : ObservabilityRely i b c) : ObservabilityRely i a c :=
  ⟨h'.1.trans h.1, h.2.trans h'.2⟩

/-- What a task established stays while the other one works. -/
theorem ObservabilityPost.stable {polls : List Poll} {i : ObservabilityTask}
    {r : Except ServiceError i.Result} {s t : Shared} (h : ObservabilityPost polls i r s)
    (hst : ObservabilityRely i s t) : ObservabilityPost polls i r t := by
  cases r with
  | error e => cases i <;> trivial
  | ok a =>
    cases i with
    | backfill => exact Eq.trans hst.2 h
    | polling =>
      intro p hp
      obtain ⟨o, ho, hrecorded⟩ := h p hp
      obtain ⟨d, hd⟩ := hst.2 o ho
      exact ⟨_, hd, hrecorded.withDecision d⟩

theorem observabilityTasks_safe (polls : List Poll) (s : Shared) :
    (observabilityTasks polls s).AllSafe (Conforming SharedAnswers Current) ObservabilityRely
      ObservabilityGuarantee (ObservabilityPost polls)
  | .backfill => ensure_safe polls s
  | .polling => by
    refine (pollAll_safe polls (q := none) ?_).imp ?_
    · intro p hp
      cases hp
    · rintro (e | _) t h
      · trivial
      · intro p hp
        exact h p (by rw [hp]; rfl)

/-- **In an interleaving in which every write of the record finds it as its own task read it
last, the record holds the decision once the check has ended, and the fields of the last poll
once the polls have ended.** -/
theorem observability_kept {polls : List Poll} {s₀ : Shared}
    {es : List (Turn ServiceEffect Shared ObservabilityTask)}
    {t : Tasks ServiceEffect ServiceError Shared ObservabilityTask.Result}
    (h : TasksRun SharedAnswers (observabilityTasks polls s₀) es t)
    (hcurrent : ∀ e ∈ es, e.Satisfies Current) :
    (∀ decision, t.code .backfill = .done decision →
      recordedDecision t.state.rows.observability = some decision) ∧
    (t.code .polling = .done () → ∀ p, lastPoll polls = some p →
      ∃ o, t.state.rows.observability = some o ∧ p.Recorded o) := by
  have hsafe : t.AllSafe (Conforming SharedAnswers Current) ObservabilityRely
      ObservabilityGuarantee (ObservabilityPost polls) := by
    refine h.safe ObservabilityRely.refl ObservabilityRely.trans ?_
      (fun _ _ _ _ h hst => h.stable hst) (observabilityTasks_safe polls s₀) hcurrent
    exact fun i j _ _ _ _ _ hij hG => hG j (Ne.symm hij)
  refine ⟨fun decision hdone => ?_, fun hdone => ?_⟩
  · have hpost : ObservabilityPost polls .backfill (.ok decision) t.state := hsafe.result hdone
    exact hpost
  · have hpost : ObservabilityPost polls .polling (.ok ()) t.state := hsafe.result hdone
    exact hpost

/-! ### A poll that puts its copy back -/

/-- A poll that reached the validator only. -/
def quietPoll : Poll where
  bound := true
  now := "2024-03-09T16:00:00.000Z"
  status := none
  stats := none
  health := ⟨none, none, true, none, none⟩
  sync := none
  progress := .ok ⟨0, [], none⟩

/-- A store whose earlier runs decided, with this record. -/
def decidedRows (o : Option IndexerObservability) : ServiceState :=
  ⟨Store.bound false (.uniform 1), some "not-needed", o⟩

/-- The record after the first section of the poll, and after the second. -/
def polledOnce : IndexerObservability := withPoll quietPoll.now .initial

def polledTwice : IndexerObservability :=
  { polledOnce with chainConnected := true, indexer := some ⟨0, [], none⟩ }

/-- A record with the decision of the check. -/
def decidedRecord (o : IndexerObservability) : IndexerObservability :=
  { o with deviceAccessTimeBackfill := some .notNeeded }

/-- Nothing was read yet. -/
def unread : Shared := ⟨decidedRows none, fun _ => none⟩

/-- The next turn of an interleaving, whose effect succeeds with `a`. -/
theorem observability_turn {polls : List Poll} {s₀ : Shared} {α : Type}
    {es : List (Turn ServiceEffect Shared ObservabilityTask)}
    {t : Tasks ServiceEffect ServiceError Shared ObservabilityTask.Result}
    (i : ObservabilityTask) (a : α) (rows : ServiceState) {e : ServiceEffect (Except StoreError α)}
    {next : Except StoreError α → Program ServiceEffect ServiceError i.Result}
    (h : TasksRun SharedAnswers (observabilityTasks polls s₀) es t)
    (hcode : t.code i = .call e next) (ha : ServiceAnswers t.state.rows e (.ok a) rows) :
    TasksRun SharedAnswers (observabilityTasks polls s₀)
      (⟨i, t.state, e, .ok a, ⟨rows, remembered i e (.ok a) t.state.lastRead⟩⟩ :: es)
      ⟨⟨rows, remembered i e (.ok a) t.state.lastRead⟩, Function.update t.code i (next (.ok a))⟩ :=
  .snoc h (.turn hcode ⟨t.state.rows, rfl, ha, rfl⟩)

theorem observability_kept_quiet : ∃ es t,
    TasksRun SharedAnswers (observabilityTasks [quietPoll] unread) es t ∧
    recordedDecision t.state.rows.observability = some .notNeeded ∧
    ∃ o, t.state.rows.observability = some o ∧ quietPoll.Recorded o := by
  have run₀ : TasksRun SharedAnswers (observabilityTasks [quietPoll] unread) [] _ := .nil
  have run₁ := observability_turn .polling none (decidedRows none) run₀ rfl ⟨rfl, .inl rfl⟩
  have run₂ := observability_turn .polling () (decidedRows (some polledOnce)) run₁ rfl
    (.inl ⟨rfl, rfl⟩)
  have run₃ := observability_turn .polling (some polledOnce) (decidedRows (some polledOnce)) run₂
    rfl ⟨rfl, .inl rfl⟩
  have run₄ := observability_turn .polling () (decidedRows (some polledTwice)) run₃ rfl
    (.inl ⟨rfl, rfl⟩)
  have run₅ := observability_turn .backfill (some "not-needed") (decidedRows (some polledTwice))
    run₄ rfl ⟨rfl, .inl rfl⟩
  have run₆ := observability_turn .backfill (some polledTwice) (decidedRows (some polledTwice))
    run₅ rfl ⟨rfl, .inl rfl⟩
  have run₇ := observability_turn .backfill () (decidedRows (some (decidedRecord polledTwice)))
    run₆ rfl (.inl ⟨rfl, rfl⟩)
  have hkept := observability_kept run₇ (List.forall_mem_cons.mpr ⟨rfl,
    List.forall_mem_cons.mpr ⟨trivial, List.forall_mem_cons.mpr ⟨trivial,
    List.forall_mem_cons.mpr ⟨rfl, List.forall_mem_cons.mpr ⟨trivial,
    List.forall_mem_cons.mpr ⟨rfl, List.forall_mem_singleton.mpr trivial⟩⟩⟩⟩⟩⟩)
  exact ⟨_, _, run₇, hkept.1 _ rfl, hkept.2 rfl quietPoll rfl⟩

/-- **A poll that read the record before the check wrote it puts its copy back, and the
decision is lost.** -/
theorem observability_lost : ∃ es t,
    TasksRun SharedAnswers (observabilityTasks [quietPoll] unread) es t ∧
    t.code .backfill = .done .notNeeded ∧ t.code .polling = .done () ∧
    recordedDecision t.state.rows.observability = none := by
  have run₀ : TasksRun SharedAnswers (observabilityTasks [quietPoll] unread) [] _ := .nil
  have run₁ := observability_turn .polling none (decidedRows none) run₀ rfl ⟨rfl, .inl rfl⟩
  have run₂ := observability_turn .polling () (decidedRows (some polledOnce)) run₁ rfl
    (.inl ⟨rfl, rfl⟩)
  have run₃ := observability_turn .polling (some polledOnce) (decidedRows (some polledOnce)) run₂
    rfl ⟨rfl, .inl rfl⟩
  -- the check runs between the read and the write of the poll's second section
  have run₄ := observability_turn .backfill (some "not-needed") (decidedRows (some polledOnce))
    run₃ rfl ⟨rfl, .inl rfl⟩
  have run₅ := observability_turn .backfill (some polledOnce) (decidedRows (some polledOnce)) run₄
    rfl ⟨rfl, .inl rfl⟩
  have run₆ := observability_turn .backfill () (decidedRows (some (decidedRecord polledOnce)))
    run₅ rfl (.inl ⟨rfl, rfl⟩)
  have run₇ := observability_turn .polling () (decidedRows (some polledTwice)) run₆ rfl
    (.inl ⟨rfl, rfl⟩)
  exact ⟨_, _, run₇, rfl, rfl, rfl⟩

end Dashboard

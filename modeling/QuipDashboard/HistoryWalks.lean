/-
The history of the qblocks in the browser.

Which days leave the history that a poll reports, and whether their files have been loaded.

* `told_of_clientRun` — the walk of every call is a run of one walk, with its own events;
* `Walk.Told.asked` — a walk that was not cut short has asked for every file it listed;
* `history_files_kept` — **history files are kept exactly when each file that failed in the
  walk of a day comes with another response**;
* `failed_day_lost` — one failed request drops a day from the history of a later poll.
-/
import QuipDashboard.QblockClient

namespace Dashboard

namespace QblockClient

/-! ### One walk -/

theorem mem_set_of_ne {α : Type} {l : List α} {k : ℕ} {x y z : α} (hx : x ∈ l)
    (hk : l[k]? = some z) (hne : x ≠ z) : x ∈ l.set k y := by
  obtain ⟨j, hj⟩ := List.mem_iff_getElem?.mp hx
  refine List.mem_iff_getElem?.mpr ⟨j, ?_⟩
  have hjk : k ≠ j := by
    intro h
    rw [h, hj] at hk
    exact hne (Option.some.inj hk)
  rw [List.getElem?_set_ne hjk, hj]

/-- What became of a pending path. -/
inductive Fate (es : List WalkEvent) (w : Walk) (path : FilePath) : Prop where
  | next (h : path ∈ w.next)
  | waiting (h : .waiting path ∈ w.workers)
  | loaded (k : ℕ) (file : Document) (h : .loaded k path file ∈ es)
  | unavailable (k : ℕ) (h : .unavailable k path ∈ es)
  | cut (k : ℕ) (h : .cut k path ∈ es)
  | thrown (h : .thrown ∈ w.workers)

/-- What the events of a walk tell of its state. -/
structure Walk.Told (settled : List FilePath) (m : QblockManifest) (es : List WalkEvent)
    (w : Walk) : Prop where
  manifest : w.manifest = m
  complete : w.complete = true ↔ ∀ k path, .cut k path ∉ es
  pending : ∀ path ∈ pendingOf settled m, Fate es w path
  next : ∀ path ∈ w.next, path ∈ pendingOf settled m
  waiting : ∀ path, .waiting path ∈ w.workers → path ∈ pendingOf settled m
  unavailable : ∀ k path, .unavailable k path ∈ es → path ∈ pendingOf settled m
  idle : w.workers = [] → w.next = []
  returned : w.complete = true → .returned ∈ w.workers → w.next = []

variable {settled : List FilePath} {m : QblockManifest} {es : List WalkEvent} {w w' : Walk}
  {e : WalkEvent}

theorem told_start (settled : List FilePath) (now : ℤ) (m : QblockManifest) :
    (Walk.start settled now m).Told settled m [] where
  manifest := rfl
  complete := ⟨fun _ _ _ h => absurd h List.not_mem_nil, fun _ => rfl⟩
  pending path h := .next h
  next path h := h
  waiting path h := by cases (List.mem_replicate.mp h).2
  unavailable k path h := absurd h List.not_mem_nil
  idle h := by
    have hmin := List.replicate_eq_nil_iff _ |>.mp h
    have hpos : 0 < qblockFetchConcurrency := by decide
    exact List.eq_nil_of_length_eq_zero (show (pendingOf settled m).length = 0 by omega)
  returned _ h := by cases (List.mem_replicate.mp h).2

/-- A worker `k` moves on from `old` to `new`. -/
structure Moves (es : List WalkEvent) (w : Walk) (e : WalkEvent) (w' : Walk) (old new : Worker) :
    Prop where
  manifest : w'.manifest = w.manifest
  worker : ∃ k, w.workers[k]? = some old ∧ w'.workers = w.workers.set k new
  live : .thrown ≠ old
  complete : w'.complete = true ↔ w.complete = true ∧ ∀ k path, e ≠ .cut k path
  sub : ∀ path ∈ w'.next, path ∈ w.next
  taken : ∀ path ∈ w.next, path ∈ w'.next ∨ Fate (e :: es) w' path
  held : ∀ path, old = .waiting path → Fate (e :: es) w' path
  took : ∀ path, new = .waiting path → path ∈ w.next
  failed : ∀ k path, e = .unavailable k path → old = .waiting path
  stopped : w'.complete = true → new = .returned → w'.next = []

theorem Walk.Told.move {old new : Worker} (h : w.Told settled m es)
    (hm : Moves es w e w' old new) : w'.Told settled m (e :: es) := by
  obtain ⟨k, hk, hworkers⟩ := hm.worker
  have hmem : ∀ x ∈ w'.workers, x ∈ w.workers ∨ x = new := by
    intro x hx
    rw [hworkers] at hx
    exact List.mem_or_eq_of_mem_set hx
  have hstay : ∀ x ∈ w.workers, x ≠ old → x ∈ w'.workers := by
    intro x hx hne
    rw [hworkers]
    exact mem_set_of_ne hx hk hne
  have hold : ∀ path, old = .waiting path → path ∈ pendingOf settled m := by
    intro path hpath
    exact h.waiting path (hpath ▸ List.mem_of_getElem? hk)
  have hempty : w.next = [] → w'.next = [] := by
    intro hnil
    refine List.eq_nil_iff_forall_not_mem.mpr fun path hp => ?_
    have := hm.sub path hp
    rw [hnil] at this
    exact List.not_mem_nil this
  refine ⟨hm.manifest.trans h.manifest, ?_, ?_, fun path hp => h.next path (hm.sub path hp), ?_, ?_,
    ?_, ?_⟩
  · rw [hm.complete, h.complete]
    constructor
    · rintro ⟨hno, hne⟩ k path hp
      rcases List.mem_cons.mp hp with hp | hp
      · exact hne k path hp.symm
      · exact hno k path hp
    · intro hno
      exact ⟨fun k path hp => hno k path (List.mem_cons_of_mem _ hp),
        fun k path hp => hno k path (hp ▸ List.mem_cons_self ..)⟩
  · intro path hp
    cases h.pending path hp with
    | next hnext =>
      rcases hm.taken path hnext with hnext | hfate
      · exact .next hnext
      · exact hfate
    | waiting hwait =>
      by_cases hpath : old = .waiting path
      · exact hm.held path hpath
      · exact .waiting (hstay _ hwait fun heq => hpath heq.symm)
    | loaded k file h => exact .loaded k file (List.mem_cons_of_mem _ h)
    | unavailable k h => exact .unavailable k (List.mem_cons_of_mem _ h)
    | cut k h => exact .cut k (List.mem_cons_of_mem _ h)
    | thrown h => exact .thrown (hstay _ h hm.live)
  · intro path hp
    rcases hmem _ hp with hp | hp
    · exact h.waiting path hp
    · exact h.next path (hm.took path hp.symm)
  · intro k path hp
    rcases List.mem_cons.mp hp with hp | hp
    · exact hold path (hm.failed k path hp.symm)
    · exact h.unavailable k path hp
  · intro hidle
    refine hempty (h.idle ?_)
    rw [hworkers, List.set_eq_nil_iff] at hidle
    exact hidle
  · intro hcomplete hreturned
    rcases hmem _ hreturned with hreturned | hreturned
    · exact hempty (h.returned (hm.complete.mp hcomplete).1 hreturned)
    · exact hm.stopped hcomplete hreturned.symm

/-- What a step of a walk does. -/
theorem WalkStep.moves (es : List WalkEvent) (hs : WalkStep w e w') :
    e = .expire ∧ w' = { w with deadlineAborted := true } ∨
      ∃ old new, Moves es w e w' old new := by
  cases hs with
  | expire => exact .inl ⟨rfl, rfl⟩
  | @take k path next hk hnext hdeadline =>
    refine .inr ⟨.ready, .waiting path, rfl, ⟨k, hk, rfl⟩, by simp, by simp [Walk.setWorker],
      ?_, ?_, by simp, ?_, by simp, by simp⟩
    · intro p hp
      rw [hnext]
      exact List.mem_cons_of_mem _ hp
    · intro p hp
      rw [hnext] at hp
      rcases List.mem_cons.mp hp with rfl | hp
      · exact .inr (.waiting (List.mem_set (List.getElem?_eq_some_iff.mp hk).1 _))
      · exact .inl hp
    · rintro p ⟨rfl⟩
      rw [hnext]
      exact List.mem_cons_self ..
  | @cut k path next hk hnext hdeadline =>
    refine .inr ⟨.ready, .returned, rfl, ⟨k, hk, rfl⟩, by simp, by simp, ?_, ?_, by simp,
      by simp, by simp, by simp⟩
    -- the path that was next is what the worker waits for, or what it gave up
    · intro p hp
      rw [hnext]
      exact List.mem_cons_of_mem _ hp
    · intro p hp
      rw [hnext] at hp
      rcases List.mem_cons.mp hp with rfl | hp
      · exact .inr (.cut k (List.mem_cons_self ..))
      · exact .inl hp
  | @stop k hk hnext =>
    exact .inr ⟨.ready, .returned, rfl, ⟨k, hk, rfl⟩, by simp, by simp [Walk.setWorker],
      fun _ hp => hp, fun _ hp => .inl hp, by simp, by simp, by simp, fun _ _ => hnext⟩
  | @loaded k path hk file =>
    refine .inr ⟨.waiting path, .ready, rfl, ⟨k, hk, rfl⟩, by simp, by simp [Walk.setWorker],
      fun _ hp => hp, fun _ hp => .inl hp, ?_, by simp, by simp, by simp⟩
    rintro p ⟨rfl⟩
    exact .loaded k file (List.mem_cons_self ..)
  | @unavailable k path hk =>
    refine .inr ⟨.waiting path, .ready, rfl, ⟨k, hk, rfl⟩, by simp, by simp [Walk.setWorker],
      fun _ hp => hp, fun _ hp => .inl hp, ?_, by simp, by simp, by simp⟩
    rintro p ⟨rfl⟩
    exact .unavailable k (List.mem_cons_self ..)
  | @abort k path hk =>
    refine .inr ⟨.waiting path, .thrown, rfl, ⟨k, hk, rfl⟩, by simp, by simp [Walk.setWorker],
      fun _ hp => hp, fun _ hp => .inl hp, ?_, by simp, by simp, by simp⟩
    rintro p ⟨rfl⟩
    exact .thrown (List.mem_set (List.getElem?_eq_some_iff.mp hk).1 _)

/-- One step of a walk. -/
theorem Walk.Told.step (h : w.Told settled m es) (hs : WalkStep w e w') :
    w'.Told settled m (e :: es) := by
  rcases hs.moves es with ⟨rfl, rfl⟩ | ⟨old, new, hm⟩
  · refine ⟨h.manifest, ?_, fun path hp => ?_, h.next, h.waiting, ?_, h.idle, h.returned⟩
    · simpa using h.complete
    · cases h.pending path hp with
      | next h => exact .next h
      | waiting h => exact .waiting h
      | loaded k file h => exact .loaded k file (List.mem_cons_of_mem _ h)
      | unavailable k h => exact .unavailable k (List.mem_cons_of_mem _ h)
      | cut k h => exact .cut k (List.mem_cons_of_mem _ h)
      | thrown h => exact .thrown h
    · simpa using h.unavailable
  · exact h.move hm

theorem told_of_run {now : ℤ}
    (h : History.Run WalkStep (.start settled now m) es w) : w.Told settled m es := by
  induction h with
  | nil => exact told_start settled now m
  | snoc _ hs ih => exact ih.step hs

/-- **A walk whose workers have returned, and that was not cut short, has asked for every
file that had not settled.** -/
theorem Walk.Told.asked (h : w.Told settled m es) (hworkers : ∀ x ∈ w.workers, x = .returned)
    (hcomplete : w.complete = true) {path : FilePath} (hp : path ∈ m.qblocks) :
    path ∈ settled ∨ (∃ k file, .loaded k path file ∈ es) ∨ ∃ k, .unavailable k path ∈ es := by
  by_cases hsettled : path ∈ settled
  · exact .inl hsettled
  have hnext : w.next = [] := by
    by_cases hnil : w.workers = []
    · exact h.idle hnil
    · obtain ⟨x, hx⟩ := List.exists_mem_of_ne_nil _ hnil
      exact h.returned hcomplete (hworkers x hx ▸ hx)
  cases h.pending path (List.mem_filter.mpr ⟨hp, decide_eq_true hsettled⟩) with
  | next hnext' =>
    rw [hnext] at hnext'
    exact absurd hnext' List.not_mem_nil
  | waiting hwait => cases hworkers _ hwait
  | loaded k file h => exact .inr (.inl ⟨k, file, h⟩)
  | unavailable k h => exact .inr (.inr ⟨k, h⟩)
  | cut k hcut => exact absurd hcut (h.complete.mp hcomplete k path)
  | thrown hthrown => cases hworkers _ hthrown

/-! ### The calls of a client -/

/-- The client has a copy of the file. -/
def Client.Loaded (s : Client) (path : FilePath) : Prop := (s.qblockFiles.get? path).isSome

/-- The events of the walk of a call. -/
def ClientEvent.walkOf (i : ℕ) : ClientEvent → Option WalkEvent
  | .call j (.walk e) => if j = i then some e else none
  | _ => none

section

variable {s s' : Client} {call call' : QblockCall} {ce : CallEvent} {ev : ClientEvent}
  {evs : List ClientEvent} {i : ℕ}

theorem during_calls (s : Client) (call : QblockCall) (ce : CallEvent) :
    (s.during call ce).calls = s.calls := by
  unfold Client.during
  split
  · rfl
  · split
    · rfl
    · rfl
  · rfl

/-- A copy is replaced, never removed. -/
theorem loaded_during {path : FilePath} (h : s.Loaded path) (call : QblockCall) (ce : CallEvent) :
    (s.during call ce).Loaded path := by
  unfold Client.during
  split
  · show ((s.qblockFiles.put _ _).get? path).isSome
    rw [KeyedTable.get?_put]
    split
    · rfl
    · exact h
  · split
    · exact h
    · exact h
  · exact h

theorem days_during (s : Client) (call : QblockCall) (ce : CallEvent) :
    s.loadedHistoryDays ⊆ (s.during call ce).loadedHistoryDays := by
  unfold Client.during
  split
  · exact List.Subset.refl _
  · split
    · exact List.subset_cons_self ..
    · exact List.Subset.refl _
  · exact List.Subset.refl _

/-- **What a step does to one of the calls.** -/
theorem Client.Step.at (h : s.Step ev s') (i : ℕ) :
    s'.calls[i]? = s.calls[i]? ∧ (∀ ce, ev ≠ .call i ce) ∨
    s.calls[i]? = none ∧ (∃ method, ev = .begin method ∧
      s'.calls[i]? = some ⟨method, none, .pending⟩) ∨
    ∃ call ce call', ev = .call i ce ∧ s.calls[i]? = some call ∧ s'.calls[i]? = some call' ∧
      CallStep s call ce call' ∧ s' = (s.during call ce).setCall i call' := by
  cases h with
  | begin method =>
    rcases Nat.lt_trichotomy i s.calls.length with hi | hi | hi
    · refine .inl ⟨List.getElem?_append_left hi, fun ce hc => by cases hc⟩
    · refine .inr (.inl ⟨List.getElem?_eq_none hi.ge, method, rfl, ?_⟩)
      show (s.calls ++ [_])[i]? = _
      rw [List.getElem?_append_right hi.ge, hi, Nat.sub_self]
      rfl
    · refine .inl ⟨?_, fun ce hc => by cases hc⟩
      show (s.calls ++ [_])[i]? = _
      rw [List.getElem?_eq_none hi.le, List.getElem?_eq_none]
      rw [List.length_append]
      exact hi
  | @call j call call' ce hcall hstep =>
    have hset : ((s.during call ce).setCall j call').calls = s.calls.set j call' := by
      show (s.during call ce).calls.set j call' = _
      rw [during_calls]
    rw [hset]
    by_cases hij : j = i
    · subst hij
      refine .inr (.inr ⟨call, ce, call', rfl, hcall, ?_, hstep, rfl⟩)
      rw [List.getElem?_set_self (List.getElem?_eq_some_iff.mp hcall).1]
    · refine .inl ⟨List.getElem?_set_ne hij, fun ce' hc => ?_⟩
      cases hc
      exact hij rfl

theorem Client.Step.grows (h : s.Step ev s') :
    (∀ path, s.Loaded path → s'.Loaded path) ∧ s.loadedHistoryDays ⊆ s'.loadedHistoryDays := by
  cases h with
  | begin method => exact ⟨fun _ h => h, List.Subset.refl _⟩
  | call hcall hstep => exact ⟨fun _ h => loaded_during h _ _, days_during ..⟩

/-- Nothing but the deadline happens to a walk whose workers have returned. -/
theorem WalkStep.returned (h : WalkStep w e w') (hworkers : ∀ x ∈ w.workers, x = .returned) :
    e = .expire ∧ w' = { w with deadlineAborted := true } := by
  cases h with
  | expire => exact ⟨rfl, rfl⟩
  | take hk _ _ => cases hworkers _ (List.mem_of_getElem? hk)
  | cut hk _ _ => cases hworkers _ (List.mem_of_getElem? hk)
  | stop hk _ => cases hworkers _ (List.mem_of_getElem? hk)
  | loaded hk _ => cases hworkers _ (List.mem_of_getElem? hk)
  | unavailable hk => cases hworkers _ (List.mem_of_getElem? hk)
  | abort hk => cases hworkers _ (List.mem_of_getElem? hk)

/-- A call that has returned stays as it is, up to its deadline. -/
theorem CallStep.returned (h : CallStep s call ce call') (hw : call.walk = some w)
    (hworkers : ∀ x ∈ w.workers, x = .returned) (houtcome : call.outcome.isReturned = true) :
    ce = .walk .expire ∧ call' = { call with walk := some { w with deadlineAborted := true } } := by
  have hnot : call.outcome ≠ .pending := by
    intro hpending
    rw [hpending] at houtcome
    cases houtcome
  cases h with
  | refused hwalk hpending => exact absurd hpending hnot
  | manifest hwalk hpending now m => exact absurd hpending hnot
  | finish hwalk hpending hworkers => exact absurd hpending hnot
  | walk hwalk hstep =>
    obtain rfl := Option.some.inj (hwalk.symm.trans hw)
    obtain ⟨rfl, rfl⟩ := hstep.returned hworkers
    exact ⟨rfl, rfl⟩

/-- What the events of a client tell of one of its calls. -/
structure QblockCall.Told (s : Client) (es : List WalkEvent) (call : QblockCall) : Prop where
  idle : call.walk = none → es = [] ∧ call.outcome.isReturned = false
  walk : ∀ w, call.walk = some w → ∃ settled now m,
    History.Run WalkStep (.start settled now m) es w ∧ ∀ path ∈ settled, s.Loaded path
  returned : ∀ w, call.walk = some w → call.outcome.isReturned = true →
    ∀ x ∈ w.workers, x = .returned
  left : ∀ w data history, call.walk = some w → call.outcome = .snapshot data history →
    ∀ day ∈ w.manifest.history, day ∉ history → day ∈ s.loadedHistoryDays

/-- The state of the maps, by the events. -/
structure Client.Told (evs : List ClientEvent) (s : Client) : Prop where
  calls : ∀ (i : ℕ) (call : QblockCall), s.calls[i]? = some call →
    call.Told s (evs.filterMap (ClientEvent.walkOf i))
  unused : ∀ i : ℕ, s.calls[i]? = none → evs.filterMap (ClientEvent.walkOf i) = []
  settled : ∀ path ∈ s.settledQblocks, s.Loaded path
  loaded : ∀ path, s.Loaded path ↔
    ∃ i k file, ClientEvent.call i (.walk (.loaded k path file)) ∈ evs

theorem told_new : Client.new.Told [] where
  calls i call h := by cases h
  unused i h := rfl
  settled path h := absurd h List.not_mem_nil
  loaded path := by
    constructor
    · intro h
      cases h
    · rintro ⟨i, k, file, h⟩
      exact absurd h List.not_mem_nil

/-- The calls that do not move. -/
theorem QblockCall.Told.mono {es : List WalkEvent} (h : call.Told s es)
    (hloaded : ∀ path, s.Loaded path → s'.Loaded path)
    (hdays : s.loadedHistoryDays ⊆ s'.loadedHistoryDays) : call.Told s' es where
  idle := h.idle
  walk w hw := by
    obtain ⟨settled, now, m, hrun, hsettled⟩ := h.walk w hw
    exact ⟨settled, now, m, hrun, fun path hp => hloaded path (hsettled path hp)⟩
  returned := h.returned
  left w data history hw ho day hday hleft := hdays (h.left w data history hw ho day hday hleft)

/-- The events of its walk that an event of a call is. -/
def CallEvent.walks : CallEvent → List WalkEvent
  | .walk e => [e]
  | .refused | .manifest .. | .finish => []

theorem filterMap_walkOf (i : ℕ) (ce : CallEvent) (evs : List ClientEvent) :
    (ClientEvent.call i ce :: evs).filterMap (ClientEvent.walkOf i) =
      ce.walks ++ evs.filterMap (ClientEvent.walkOf i) := by
  cases ce with
  | walk e => simp [ClientEvent.walkOf, CallEvent.walks]
  | refused | manifest now m | finish => rfl

theorem filterMap_walkOf_ne (i : ℕ) (h : ∀ ce, ev ≠ .call i ce) (evs : List ClientEvent) :
    (ev :: evs).filterMap (ClientEvent.walkOf i) = evs.filterMap (ClientEvent.walkOf i) := by
  cases ev with
  | begin method => rfl
  | call j ce =>
    have hj : j ≠ i := by
      intro hj
      exact h ce (hj ▸ rfl)
    cases ce with
    | walk e => simp [ClientEvent.walkOf, hj]
    | refused | manifest now m | finish => rfl

theorem after_walk (call : QblockCall) (w : Walk) (e : WalkEvent) :
    (call.after w e).walk = some w := by
  cases e <;> rfl

/-- No event of a walk makes a call return. -/
theorem after_outcome (h : call.outcome.isReturned = false) (w : Walk) (e : WalkEvent) :
    (call.after w e).outcome.isReturned = false := by
  cases e with
  | abort k path => rfl
  | _ => exact h

/-- The call that moves. -/
theorem QblockCall.Told.step {es : List WalkEvent} (h : call.Told s es)
    (hs : CallStep s call ce call') (hsettled : ∀ path ∈ s.settledQblocks, s.Loaded path) :
    call'.Told s (ce.walks ++ es) := by
  cases hreturned : call.outcome.isReturned with
  | true =>
    cases hw : call.walk with
    | none => cases hreturned.symm.trans (h.idle hw).2
    | some w =>
      have hworkers := h.returned w hw hreturned
      obtain ⟨settled, now, m, hrun, hloaded⟩ := h.walk w hw
      obtain ⟨rfl, rfl⟩ := hs.returned hw hworkers hreturned
      refine ⟨fun hnone => (by cases hnone), ?_, ?_, ?_⟩
      · rintro w' ⟨rfl⟩
        exact ⟨settled, now, m, .snoc hrun (.expire w), hloaded⟩
      · rintro w' ⟨rfl⟩ _
        exact hworkers
      · rintro w' data history ⟨rfl⟩ ho
        exact h.left w data history hw ho
  | false =>
    -- a call that has not returned tells nothing of the history
    have hquiet : ∀ {c : QblockCall}, c.outcome.isReturned = false → ∀ data history,
        c.outcome ≠ .snapshot data history := by
      intro c hc data history ho
      rw [ho] at hc
      cases hc
    cases hs with
    | refused hwalk hpending =>
      exact ⟨fun _ => ⟨(h.idle hwalk).1, rfl⟩, h.walk, fun w hw hr => (by cases hr),
        fun w data history hw ho => by cases ho⟩
    | manifest hwalk hpending now m =>
      refine ⟨fun hnone => (by cases hnone), ?_, fun w hw hr => ?_,
        fun w data history hw ho => absurd ho (hquiet hreturned data history)⟩
      · rintro w ⟨rfl⟩
        rw [(h.idle hwalk).1]
        exact ⟨s.settledQblocks, now, m, .nil, hsettled⟩
      · cases hreturned.symm.trans hr
    | @walk w w' e hwalk hstep =>
      obtain ⟨settled, now, m, hrun, hloaded⟩ := h.walk w hwalk
      have hafter := after_outcome hreturned w' e
      refine ⟨fun hnone => ?_, fun w₁ hw₁ => ?_, fun w₁ hw₁ hr => ?_,
        fun w₁ data history hw₁ ho => absurd ho (hquiet hafter data history)⟩
      · cases (after_walk call w' e).symm.trans hnone
      · obtain rfl := Option.some.inj ((after_walk call w' e).symm.trans hw₁)
        exact ⟨settled, now, m, .snoc hrun hstep, hloaded⟩
      · cases hafter.symm.trans hr
    | @finish w hwalk hpending hworkers =>
      refine ⟨fun hnone => ?_, h.walk, fun w₁ hw₁ _ => ?_, fun w₁ data history hw₁ ho => ?_⟩
      · cases hwalk.symm.trans hnone
      · obtain rfl := Option.some.inj (hwalk.symm.trans hw₁)
        exact hworkers
      · obtain rfl := Option.some.inj (hwalk.symm.trans hw₁)
        intro day hday hleft
        have hresult : s.result w call.method = .snapshot data history := ho
        cases hm : call.method with
        | fetchQblockHistoryDay d =>
          rw [hm] at hresult
          cases hresult
        | fetchQblocks =>
          rw [hm] at hresult
          obtain ⟨rfl, rfl⟩ := Outcome.snapshot.inj hresult
          by_contra hnot
          exact hleft (List.mem_filter.mpr ⟨hday, decide_eq_true hnot⟩)

theorem loaded_store (s : Client) (w : Walk) (path path' : FilePath) (file : Document) :
    (s.store w path file).Loaded path' ↔ path' = path ∨ s.Loaded path' := by
  show ((s.qblockFiles.put path file).get? path').isSome ↔ _
  rw [KeyedTable.get?_put]
  split
  · rename_i h
    simp [h]
  · rename_i h
    simp [h, Client.Loaded]

/-- Returning a call changes no copy. -/
theorem finish_files (s : Client) (call : QblockCall) :
    (s.during call .finish).qblockFiles = s.qblockFiles ∧
      (s.during call .finish).settledQblocks = s.settledQblocks := by
  obtain ⟨method, walk, outcome⟩ := call
  cases method with
  | fetchQblocks => exact ⟨rfl, rfl⟩
  | fetchQblockHistoryDay day =>
    cases walk with
    | none => exact ⟨rfl, rfl⟩
    | some w =>
      unfold Client.during
      simp only
      split
      · exact ⟨rfl, rfl⟩
      · exact ⟨rfl, rfl⟩

/-- What a step of a call does to the copies. -/
theorem CallStep.loaded (hs : CallStep s call ce call') :
    (∀ path, (s.during call ce).Loaded path ↔
      s.Loaded path ∨ ∃ k file, ce = .walk (.loaded k path file)) ∧
    ∀ path ∈ (s.during call ce).settledQblocks,
      path ∈ s.settledQblocks ∨ ∃ k file, ce = .walk (.loaded k path file) := by
  cases hs with
  | refused hwalk hpending | manifest hwalk hpending now m =>
    simp [Client.during]
  | finish hwalk hpending hworkers =>
    obtain ⟨hfiles, hsettled⟩ := finish_files s call
    rw [hsettled]
    refine ⟨fun path => ?_, fun path hp => .inl hp⟩
    rw [Client.Loaded, hfiles]
    simp [Client.Loaded]
  | @walk w w' e hwalk hstep =>
    cases e with
    | loaded k path file =>
      have hduring : s.during call (.walk (.loaded k path file)) = s.store w path file := by
        unfold Client.during
        rw [hwalk]
      rw [hduring]
      refine ⟨fun path' => ?_, fun path' hp => ?_⟩
      · rw [loaded_store]
        constructor
        · rintro (rfl | h)
          · exact .inr ⟨k, file, rfl⟩
          · exact .inl h
        · rintro (h | ⟨k', file', h⟩)
          · exact .inr h
          · cases h
            exact .inl rfl
      · have hp : path' ∈ (if settles file w.settledBefore then path :: s.settledQblocks
            else s.settledQblocks) := hp
        split at hp
        · rcases List.mem_cons.mp hp with rfl | hp
          · exact .inr ⟨k, file, rfl⟩
          · exact .inl hp
        · exact .inl hp
    | _ => simp [Client.during]

/-- **One step of a client.** -/
theorem Client.Told.step (h : s.Told evs) (hs : s.Step ev s') : s'.Told (ev :: evs) := by
  obtain ⟨hloaded, hdays⟩ := hs.grows
  refine ⟨fun i call' hcall' => ?_, fun i hnone => ?_, ?_, ?_⟩
  · rcases hs.at i with ⟨hi, hne⟩ | ⟨hi, method, rfl, hi'⟩ | ⟨call, ce, c, rfl, hi, hi', hstep, -⟩
    · rw [filterMap_walkOf_ne i hne]
      exact (h.calls i call' (hi ▸ hcall')).mono hloaded hdays
    · obtain rfl := Option.some.inj (hcall'.symm.trans hi')
      rw [filterMap_walkOf_ne i (fun ce hc => by cases hc), h.unused i hi]
      exact ⟨fun _ => ⟨rfl, rfl⟩, fun w hw => (by cases hw), fun w hw => (by cases hw),
        fun w data history hw => (by cases hw)⟩
    · obtain rfl := Option.some.inj (hcall'.symm.trans hi')
      rw [filterMap_walkOf]
      exact ((h.calls i call hi).step hstep h.settled).mono hloaded hdays
  · rcases hs.at i with ⟨hi, hne⟩ | ⟨-, method, rfl, hi'⟩ | ⟨call, ce, c, rfl, hi, hi', -⟩
    · rw [filterMap_walkOf_ne i hne]
      exact h.unused i (hi ▸ hnone)
    · cases hnone.symm.trans hi'
    · cases hnone.symm.trans hi'
  · cases hs with
    | begin method => exact h.settled
    | @call i call call' ce hcall hstep =>
      intro path hp
      obtain ⟨hiff, hset⟩ := hstep.loaded
      refine (hiff path).mpr ?_
      rcases hset path hp with hp | hp
      · exact .inl (h.settled path hp)
      · exact .inr hp
  · intro path
    cases hs with
    | begin method =>
      refine (h.loaded path).trans ?_
      simp
    | @call i call call' ce hcall hstep =>
      refine (hstep.loaded.1 path).trans ?_
      rw [h.loaded path]
      constructor
      · rintro (⟨j, k, file, hj⟩ | ⟨k, file, rfl⟩)
        · exact ⟨j, k, file, List.mem_cons_of_mem _ hj⟩
        · exact ⟨i, k, file, List.mem_cons_self ..⟩
      · rintro ⟨j, k, file, hj⟩
        rcases List.mem_cons.mp hj with hj | hj
        · cases hj
          exact .inr ⟨k, file, rfl⟩
        · exact .inl ⟨j, k, file, hj⟩

theorem told_of_clientRun (h : History.Run Client.Step .new evs s) : s.Told evs := by
  induction h with
  | nil => exact told_new
  | snoc _ hs ih => exact ih.step hs

/-! ### Days that leave the history -/

/-- The call returned after a walk of the day that was not cut short: it took the day off
the history. -/
def Client.TookOff (s : Client) (i : ℕ) (day : FilePath) (m : QblockManifest) : Prop :=
  ∃ call w data, s.calls[i]? = some call ∧ call.method = .fetchQblockHistoryDay day ∧
    call.outcome = .data data ∧ call.walk = some w ∧ w.manifest = m ∧ w.complete = true

theorem Client.TookOff.step {day : FilePath} (h : s.TookOff i day m) (ht : s.Told evs)
    (hs : s.Step ev s') : s'.TookOff i day m := by
  obtain ⟨call, w, data, hcall, hmethod, ho, hw, hm, hcomplete⟩ := h
  rcases hs.at i with ⟨hi, -⟩ | ⟨hi, -⟩ | ⟨call₁, ce, call', rfl, hi, hi', hstep, -⟩
  · exact ⟨call, w, data, hi.trans hcall, hmethod, ho, hw, hm, hcomplete⟩
  · cases hcall.symm.trans hi
  · obtain rfl := Option.some.inj (hi.symm.trans hcall)
    have hreturned : call₁.outcome.isReturned = true := by
      rw [ho]
      rfl
    obtain ⟨rfl, rfl⟩ := hstep.returned hw ((ht.calls i _ hi).returned w hw hreturned) hreturned
    exact ⟨_, _, data, hi', hmethod, ho, rfl, hm, hcomplete⟩

/-- What a call adds to the days, it takes off. -/
theorem CallStep.days (hs : CallStep s call ce call') {day : FilePath}
    (hday : day ∈ (s.during call ce).loadedHistoryDays) :
    day ∈ s.loadedHistoryDays ∨ ∃ w data, call'.method = .fetchQblockHistoryDay day ∧
      call'.outcome = .data data ∧ call'.walk = some w ∧ w.complete = true := by
  cases hs with
  | refused hwalk hpending | manifest hwalk hpending now m => exact .inl hday
  | @walk w w' e hwalk hstep =>
    refine .inl ?_
    unfold Client.during at hday
    rw [hwalk] at hday
    cases e with
    | loaded k path file => exact hday
    | _ => exact hday
  | @finish w hwalk hpending hworkers =>
    unfold Client.during at hday
    cases hm : call.method with
    | fetchQblocks =>
      rw [hm, hwalk] at hday
      exact .inl hday
    | fetchQblockHistoryDay d =>
      rw [hm, hwalk] at hday
      simp only at hday
      split at hday
      · rename_i hcomplete
        rcases List.mem_cons.mp hday with rfl | hday
        · exact .inr ⟨w, s.qblockData, rfl, rfl, hwalk, hcomplete⟩
        · exact .inl hday
      · exact .inl hday

/-- A day is off the history once a call took it off. -/
theorem tookOff_of_run (h : History.Run Client.Step .new evs s) :
    ∀ day ∈ s.loadedHistoryDays, ∃ i m, s.TookOff i day m := by
  induction h with
  | nil => exact fun day hday => absurd hday List.not_mem_nil
  | @snoc evs s s' ev hrun hs ih =>
    intro day hday
    have hold : day ∈ s.loadedHistoryDays → ∃ i m, s'.TookOff i day m := by
      intro hday
      obtain ⟨i, m, h⟩ := ih day hday
      exact ⟨i, m, h.step (told_of_clientRun hrun) hs⟩
    cases hs with
    | begin method => exact hold hday
    | @call i call call' ce hcall hstep =>
      rcases hstep.days hday with hday | ⟨w, data, hm, ho, hw, hcomplete⟩
      · exact hold hday
      · refine ⟨i, w.manifest, call', w, data, ?_, hm, ho, hw, rfl, hcomplete⟩
        show ((s.during call ce).calls.set i call')[i]? = _
        rw [during_calls, List.getElem?_set_self (List.getElem?_eq_some_iff.mp hcall).1]

/-- The call returned after a walk of a day. -/
def Client.ReturnedDay (s : Client) (i : ℕ) : Prop :=
  ∃ call day data, s.calls[i]? = some call ∧ call.method = .fetchQblockHistoryDay day ∧
    call.outcome = .data data

/-- **A file that failed in the walk of a day came with another response**, unless the
walk did not return, or was cut short. -/
def FailuresMade (evs : List ClientEvent) (s : Client) : Prop :=
  ∀ i, s.ReturnedDay i → (∀ k path, .call i (.walk (.cut k path)) ∉ evs) →
    ∀ k path, .call i (.walk (.unavailable k path)) ∈ evs →
      ∃ j k' file, .call j (.walk (.loaded k' path file)) ∈ evs

theorem mem_filterMap_walkOf {e : WalkEvent} :
    e ∈ evs.filterMap (ClientEvent.walkOf i) ↔ .call i (.walk e) ∈ evs := by
  rw [List.mem_filterMap]
  constructor
  · rintro ⟨ev, hev, he⟩
    unfold ClientEvent.walkOf at he
    split at he
    · split at he
      · rename_i hj
        rw [← hj, ← Option.some.inj he]
        exact hev
      · cases he
    · cases he
  · intro h
    exact ⟨_, h, by simp [ClientEvent.walkOf]⟩

/-- The walk of a call that returned, as a run of one walk. -/
theorem Client.Told.walked (h : s.Told evs) (hcall : s.calls[i]? = some call)
    (hreturned : call.outcome.isReturned = true) : ∃ w settled m, call.walk = some w ∧
      w.Told settled m (evs.filterMap (ClientEvent.walkOf i)) ∧
      (∀ x ∈ w.workers, x = .returned) ∧ ∀ path ∈ settled, s.Loaded path := by
  have hc := h.calls i call hcall
  cases hw : call.walk with
  | none => cases hreturned.symm.trans (hc.idle hw).2
  | some w =>
    obtain ⟨settled, now, m, hrun, hsettled⟩ := hc.walk w hw
    exact ⟨w, settled, m, rfl, told_of_run hrun, hc.returned w hw hreturned, hsettled⟩

/-- **History files are kept exactly when each file that failed in the walk of a day comes
with another response.**  No other day leaves the history that a poll reports. -/
theorem history_files_kept (h : History.Run Client.Step .new evs s) :
    ((∀ i day m, s.TookOff i day m → ∀ path ∈ m.qblocks, s.Loaded path) ↔ FailuresMade evs s) ∧
    ∀ (i : ℕ) (call : QblockCall) (w : Walk) data history, s.calls[i]? = some call →
      call.walk = some w → call.outcome = .snapshot data history →
      ∀ day ∈ w.manifest.history, day ∉ history → ∃ j m, s.TookOff j day m := by
  have ht := told_of_clientRun h
  refine ⟨⟨fun hkept => ?_, fun hmade => ?_⟩, ?_⟩
  · rintro i ⟨call, day, data, hcall, hmethod, ho⟩ hcut k path hfailed
    obtain ⟨w, settled, m, hw, hwalk, -⟩ := ht.walked hcall (by rw [ho]; rfl)
    have hcomplete : w.complete = true :=
      hwalk.complete.mpr fun k path hp => hcut k path (mem_filterMap_walkOf.mp hp)
    have hlisted : path ∈ m.qblocks :=
      (List.mem_filter.mp (hwalk.unavailable k path (mem_filterMap_walkOf.mpr hfailed))).1
    have htook : s.TookOff i day m :=
      ⟨call, w, data, hcall, hmethod, ho, hw, hwalk.manifest, hcomplete⟩
    exact (ht.loaded path).mp (hkept i day m htook path hlisted)
  · rintro i day m ⟨call, w, data, hcall, hmethod, ho, hw, rfl, hcomplete⟩ path hp
    obtain ⟨w', settled, m', hw', hwalk, hworkers, hsettled⟩ := ht.walked hcall (by rw [ho]; rfl)
    obtain rfl := Option.some.inj (hw'.symm.trans hw)
    rw [hwalk.manifest] at hp
    rcases hwalk.asked hworkers hcomplete hp with hp | ⟨k, file, hp⟩ | ⟨k, hp⟩
    · exact hsettled path hp
    · exact (ht.loaded path).mpr ⟨i, k, file, mem_filterMap_walkOf.mp hp⟩
    · refine (ht.loaded path).mpr (hmade i ⟨call, day, data, hcall, hmethod, ho⟩ ?_ k path
        (mem_filterMap_walkOf.mp hp))
      intro k path hcut
      exact hwalk.complete.mp hcomplete k path (mem_filterMap_walkOf.mpr hcut)
  · intro i call w data history hcall hw ho day hday hleft
    exact tookOff_of_run h day ((ht.calls i call hcall).left w data history hw ho day hday hleft)

end

/-! ### One day with one file -/

/-- A day of the history. -/
def someDay : FilePath := ["qblocks", "days", "2026-09-03.json"]

/-- A file of that day. -/
def someFile : FilePath := ["qblocks", "dd", "ee", "1.json"]

/-- The manifest of the day, and the manifest of a poll. -/
def dayManifest : QblockManifest := ⟨[someFile], []⟩

def pollManifest : QblockManifest := ⟨[], [someDay]⟩

/-- The walk of the day and a poll after it; the event is the answer to the request of
the file. -/
def dayThenPoll (answer : WalkEvent) : List ClientEvent :=
  [.call 1 .finish, .call 1 (.manifest 0 pollManifest), .begin .fetchQblocks,
    .call 0 .finish, .call 0 (.walk (.stop 0)), .call 0 (.walk answer),
    .call 0 (.walk (.take 0 someFile)), .call 0 (.manifest 0 dayManifest),
    .begin (.fetchQblockHistoryDay someDay)]

/-- The copy that came is kept. -/
theorem history_files_kept_loaded : ∃ s,
    History.Run Client.Step .new (dayThenPoll (.loaded 0 someFile .empty)) s ∧
      s.loadedHistoryDays = [someDay] ∧ s.Loaded someFile := by
  have run : History.Run Client.Step .new (dayThenPoll (.loaded 0 someFile .empty)) _ :=
    .snoc (.snoc (.snoc (.snoc (.snoc (.snoc (.snoc (.snoc (.snoc .nil
      (.begin _ (.fetchQblockHistoryDay someDay)))
      (.call rfl (.manifest rfl rfl 0 dayManifest)))
      (.call rfl (.walk rfl (.take rfl rfl rfl))))
      (.call rfl (.walk rfl (.loaded rfl .empty))))
      (.call rfl (.walk rfl (.stop rfl rfl))))
      (.call rfl (.finish rfl rfl (by decide))))
      (.begin _ .fetchQblocks))
      (.call rfl (.manifest rfl rfl 0 pollManifest)))
      (.call rfl (.finish rfl rfl (by decide)))
  refine ⟨_, run, rfl, (history_files_kept run).1.mpr ?_ 0 someDay dayManifest
    ⟨_, _, _, rfl, rfl, rfl, rfl, rfl, rfl⟩ someFile (List.mem_singleton_self _)⟩
  intro i _ _ k path hfailed
  simp [dayThenPoll] at hfailed

/-- **One failed request drops the day from the history, and no copy of its file is there.** -/
theorem failed_day_lost : ∃ s call w data,
    History.Run Client.Step .new (dayThenPoll (.unavailable 0 someFile)) s ∧
    s.TookOff 0 someDay dayManifest ∧ someFile ∈ dayManifest.qblocks ∧ ¬s.Loaded someFile ∧
    s.calls[1]? = some call ∧ call.walk = some w ∧ someDay ∈ w.manifest.history ∧
    call.outcome = .snapshot data [] := by
  have run : History.Run Client.Step .new (dayThenPoll (.unavailable 0 someFile)) _ :=
    .snoc (.snoc (.snoc (.snoc (.snoc (.snoc (.snoc (.snoc (.snoc .nil
      (.begin _ (.fetchQblockHistoryDay someDay)))
      (.call rfl (.manifest rfl rfl 0 dayManifest)))
      (.call rfl (.walk rfl (.take rfl rfl rfl))))
      (.call rfl (.walk rfl (.unavailable rfl))))
      (.call rfl (.walk rfl (.stop rfl rfl))))
      (.call rfl (.finish rfl rfl (by decide))))
      (.begin _ .fetchQblocks))
      (.call rfl (.manifest rfl rfl 0 pollManifest)))
      (.call rfl (.finish rfl rfl (by decide)))
  refine ⟨_, _, _, _, run, ⟨_, _, _, rfl, rfl, rfl, rfl, rfl, rfl⟩, List.mem_singleton_self _, ?_,
    rfl, rfl, List.mem_singleton_self _, rfl⟩
  intro h
  cases h

end QblockClient

end Dashboard

/-
Single flight of the miner cache.

The model of `Cache` in `quip-dashboard/src/miner/cache.rs` with the strong counts that its
evictions read: one step is what a call does between two await points, a call that is
dropped at one of them, or a `prune_expired`.  `MinerCache.lean` has the same cache with any
eviction of entries that nobody holds; every step here is one of its steps.

* `OwnedStep.cacheStep` — the steps refine those of the abstract cache;
* `OwnedStep.flight` — **a slot that a call holds stays in the map under its key**;
* `miner_cache_single_flight` — one fetch for each key, held slots stay, a dropped fetch leaves
  no answer, answers are served before they expire, and there are at most 32 entries.
-/
import QuipDashboard.MinerCache
import QuipDashboard.SharedCells

namespace Dashboard

open SharedCells

variable {ι β : Type} [DecidableEq ι] [Fintype ι]

/-! ### Steps -/

/-- The slot that a call holds an `Arc` of. -/
def CachePhase.held : CachePhase β → Option ℕ
  | .waiting slot | .fetching slot => some slot
  | .entering | .answered _ | .ended => none

/-- `Arc::strong_count`. -/
def CacheState.strongCount (s : CacheState ι β) (slot : ℕ) : ℕ :=
  SharedCells.strongCount s.entries (fun c => (s.calls c).held) slot

/-- What `prune_expired` retains: a slot with another owner, one whose lock is taken, and one
whose answer has not expired at the time `now`. -/
def CacheState.retained (s : CacheState ι β) (now : ℕ) (e : List Char × ℕ) : Bool :=
  1 < s.strongCount e.2 || (s.slots e.2).locked ||
    (s.slots e.2).entry.any fun cached => now < cached.expires

/-- One step of a cache whose calls have these keys, and the fetch that it completes, if it
completes one.  A fetch gives any result; any entry with one owner may be the oldest. -/
inductive OwnedStep (keyOf : ι → List Char) (peer : ι → Bool) :
    CacheState ι β → Option (ι × Except MinerError β) → CacheState ι β → Prop
  | found (s : CacheState ι β) (c : ι) (slot : ℕ) (hc : s.calls c = .entering)
      (h : (keyOf c, slot) ∈ s.entries) :
      OwnedStep keyOf peer s none (s.move c (.waiting slot))
  | inserted (s : CacheState ι β) (c : ι) (hc : s.calls c = .entering)
      (h : ∀ slot, (keyOf c, slot) ∉ s.entries) (hlen : s.entries.length < cacheEntries) :
      OwnedStep keyOf peer s none (s.insert c (keyOf c))
  | replaced (s : CacheState ι β) (c : ι) (oldest : List Char × ℕ) (hc : s.calls c = .entering)
      (h : ∀ slot, (keyOf c, slot) ∉ s.entries) (hlen : cacheEntries ≤ s.entries.length)
      (hold : oldest ∈ s.entries) (hidle : s.strongCount oldest.2 = 1) :
      OwnedStep keyOf peer s none
        ({ s with entries := s.entries.filter (· ≠ oldest) }.insert c (keyOf c))
  | exhausted (s : CacheState ι β) (c : ι) (hc : s.calls c = .entering)
      (h : ∀ slot, (keyOf c, slot) ∉ s.entries) (hlen : cacheEntries ≤ s.entries.length)
      (hbusy : ∀ e ∈ s.entries, s.strongCount e.2 ≠ 1) :
      OwnedStep keyOf peer s none (s.move c .ended)
  | served (s : CacheState ι β) (c : ι) (slot : ℕ) (cached : CacheEntry β)
      (hc : s.calls c = .waiting slot) (hlock : (s.slots slot).locked = false)
      (h : (s.slots slot).entry = some cached) (hfresh : s.now < cached.expires) :
      OwnedStep keyOf peer s none (s.move c (.answered cached.result))
  | fetch (s : CacheState ι β) (c : ι) (slot : ℕ) (hc : s.calls c = .waiting slot)
      (hlock : (s.slots slot).locked = false)
      (h : ∀ cached ∈ (s.slots slot).entry, cached.expires ≤ s.now) :
      OwnedStep keyOf peer s none ((s.setSlot slot ⟨true, none⟩).move c (.fetching slot))
  -- `observe` makes room in the budget
  | evicted (s : CacheState ι β) (c : ι) (slot : ℕ) (hc : s.calls c = .fetching slot) :
      OwnedStep keyOf peer s none
        { s with entries := s.entries.filter fun e => 1 < s.strongCount e.2 }
  | fetched (s : CacheState ι β) (c : ι) (slot : ℕ) (result : Except MinerError β)
      (hc : s.calls c = .fetching slot) :
      OwnedStep keyOf peer s (some (c, result))
        ((s.setSlot slot ⟨false, some ⟨s.now + ttl (peer c) result, result⟩⟩).move c
          (.answered result))
  | droppedFetch (s : CacheState ι β) (c : ι) (slot : ℕ) (hc : s.calls c = .fetching slot) :
      OwnedStep keyOf peer s none ((s.setSlot slot ⟨false, none⟩).move c .ended)
  | dropped (s : CacheState ι β) (c : ι) (hc : ∀ slot, s.calls c ≠ .fetching slot) :
      OwnedStep keyOf peer s none (s.move c .ended)
  -- the clock was read before the entries were locked
  | pruned (s : CacheState ι β) (read : ℕ) (h : read ≤ s.now) :
      OwnedStep keyOf peer s none { s with entries := s.entries.filter (s.retained read) }
  | tick (s : CacheState ι β) (later : ℕ) (h : s.now ≤ later) :
      OwnedStep keyOf peer s none { s with now := later }

/-- A run of a cache, with the fetches that it has completed. -/
inductive OwnedRun (keyOf : ι → List Char) (peer : ι → Bool) :
    List (ι × Except MinerError β) → CacheState ι β → Prop
  | start : OwnedRun keyOf peer [] .new
  | step {log : List (ι × Except MinerError β)} {s s' : CacheState ι β}
      {e : Option (ι × Except MinerError β)} (h : OwnedRun keyOf peer log s)
      (hstep : OwnedStep keyOf peer s e s') : OwnedRun keyOf peer (log ++ e.toList) s'

/-! ### Slots that are held -/

variable {keyOf : ι → List Char} {peer : ι → Bool} {s s' : CacheState ι β}
  {ev : Option (ι × Except MinerError β)}

omit [DecidableEq ι] in
theorem CacheState.held_or_idle {e : List Char × ℕ} (he : e ∈ s.entries) :
    s.Idle e.2 ∨ 2 ≤ s.strongCount e.2 := by
  by_cases h : ∃ c, (s.calls c).held = some e.2
  · obtain ⟨c, hc⟩ := h
    exact .inr (two_le_strongCount he hc)
  · refine .inl fun c => ⟨fun hc => h ⟨c, by rw [hc]; rfl⟩, fun hc => h ⟨c, by rw [hc]; rfl⟩⟩

/-- What holds of every reachable cache: a slot that a call holds is the one of its key, and
one call at most fetches under its lock. -/
structure CacheState.Flight (keyOf : ι → List Char) (s : CacheState ι β) : Prop where
  distinct : Distinct s.entries s.next
  held : ∀ c slot, (s.calls c).held = some slot → (keyOf c, slot) ∈ s.entries
  fetching : ∀ c slot, s.calls c = .fetching slot → s.slots slot = ⟨true, none⟩
  leader : ∀ c d slot, s.calls c = .fetching slot → s.calls d = .fetching slot → c = d
  length : s.entries.length ≤ cacheEntries

/-- **A step with strong counts is a step of the abstract cache.** -/
theorem OwnedStep.cacheStep (h : OwnedStep keyOf peer s ev s') (hs : s.Flight keyOf) :
    CacheStep keyOf peer s ev s' := by
  have hdropped : ∀ {p : List Char × ℕ → Bool}, (∀ e ∈ s.entries, 2 ≤ s.strongCount e.2 → p e) →
      CacheStep keyOf peer s none { s with entries := s.entries.filter p } := by
    intro p hp
    refine .pruned s _ List.filter_sublist fun e he hout => ?_
    refine (CacheState.held_or_idle he).resolve_right fun htwo => hout ?_
    exact List.mem_filter.mpr ⟨he, hp e he htwo⟩
  cases h with
  | found c slot hc hfound => exact .found s c slot hc hfound
  | inserted c hc hnew hlen => exact .inserted s c hc hnew hlen
  | replaced c oldest hc hnew hlen hold hidle =>
    refine .replaced s c oldest hc hnew hlen hold ?_
    exact (CacheState.held_or_idle hold).resolve_right fun htwo => by omega
  | exhausted c hc hnew hlen hbusy =>
    refine .exhausted s c hc hnew hlen fun e he hidle => hbusy e he ?_
    refine (hs.distinct.strongCount_eq_one he).mpr fun d hd => ?_
    cases hphase : s.calls d with
    | waiting slot =>
      rw [hphase] at hd
      exact (hidle d).1 (hphase.trans (congrArg _ (Option.some.inj hd)))
    | fetching slot =>
      rw [hphase] at hd
      exact (hidle d).2 (hphase.trans (congrArg _ (Option.some.inj hd)))
    | entering | answered | ended =>
      rw [hphase] at hd
      cases hd
  | served c slot cached hc hlock hentry hfresh => exact .served s c slot cached hc hlock hentry hfresh
  | fetch c slot hc hlock hstale => exact .fetch s c slot hc hlock hstale
  | evicted c slot hc => exact hdropped fun e _ htwo => decide_eq_true htwo
  | fetched c slot result hc => exact .fetched s c slot result hc
  | droppedFetch c slot hc => exact .droppedFetch s c slot hc
  | dropped c hc => exact .dropped s c hc
  | pruned => exact hdropped fun e _ htwo => by simp [CacheState.retained, show 1 < _ from htwo]
  | tick later hle => exact .tick s later hle

namespace CacheState.Flight

omit [DecidableEq ι] [Fintype ι] in
theorem not_held {e : List Char × ℕ} (hidle : s.Idle e.2) (c : ι) :
    (s.calls c).held ≠ some e.2 := by
  intro hc
  cases hphase : s.calls c with
  | waiting slot =>
    rw [hphase] at hc
    exact (hidle c).1 (hphase.trans (congrArg _ (Option.some.inj hc)))
  | fetching slot =>
    rw [hphase] at hc
    exact (hidle c).2 (hphase.trans (congrArg _ (Option.some.inj hc)))
  | entering | answered | ended =>
    rw [hphase] at hc
    cases hc

omit [Fintype ι] in
/-- A call that holds no slot any more, or waits for one of its key. -/
theorem move (h : s.Flight keyOf) {c : ι} {p : CachePhase β} (hc : ∀ slot, s.calls c ≠ .fetching slot)
    (hp : ∀ slot, p ≠ .fetching slot) (hheld : ∀ slot, p.held = some slot → (keyOf c, slot) ∈ s.entries) :
    (s.move c p).Flight keyOf := by
  have hfetch : ∀ d slot, (s.move c p).calls d = .fetching slot → s.calls d = .fetching slot := by
    intro d slot hd
    rcases s.calls_move c p d with ⟨-, hself⟩ | ⟨-, hold⟩
    · exact absurd (hself.symm.trans hd) (hp slot)
    · exact hold.symm.trans hd
  refine ⟨h.distinct, fun d slot hd => ?_, fun d slot hd => h.fetching d slot (hfetch d slot hd),
    fun d d' slot hd hd' => h.leader d d' slot (hfetch d slot hd) (hfetch d' slot hd'), h.length⟩
  rcases s.calls_move c p d with ⟨rfl, hself⟩ | ⟨-, hold⟩
  · exact hheld slot (hself ▸ hd)
  · exact h.held d slot (hold ▸ hd)

omit [Fintype ι] in
/-- A call that ends its fetch gives its slot back. -/
theorem leave (h : s.Flight keyOf) {c : ι} {slot : ℕ} (hc : s.calls c = .fetching slot)
    (new : CacheSlot β) {p : CachePhase β} (hp : p.held = none) :
    ((s.setSlot slot new).move c p).Flight keyOf := by
  have hcalls : ∀ d slot', (((s.setSlot slot new).move c p).calls d).held = some slot' →
      d ≠ c ∧ (s.calls d).held = some slot' := by
    intro d slot' hd
    rcases (s.setSlot slot new).calls_move c p d with ⟨-, hself⟩ | ⟨hdc, hold⟩
    · rw [hself, hp] at hd
      cases hd
    · exact ⟨hdc, hold ▸ hd⟩
  have hfetch : ∀ d slot', ((s.setSlot slot new).move c p).calls d = .fetching slot' →
      d ≠ c ∧ s.calls d = .fetching slot' := by
    intro d slot' hd
    obtain ⟨hdc, -⟩ := hcalls d slot' (by rw [hd]; rfl)
    exact ⟨hdc, (Function.update_of_ne hdc ..).symm.trans hd⟩
  refine ⟨h.distinct, fun d slot' hd => h.held d slot' (hcalls d slot' hd).2, fun d slot' hd => ?_,
    fun d d' slot' hd hd' => h.leader d d' slot' (hfetch d slot' hd).2 (hfetch d' slot' hd').2,
    h.length⟩
  -- nobody else fetches under the lock of this slot
  obtain ⟨hdc, hold⟩ := hfetch d slot' hd
  have hne : slot' ≠ slot := by
    rintro rfl
    exact hdc (h.leader d c slot' hold hc)
  show Function.update s.slots slot new slot' = _
  rw [Function.update_of_ne hne]
  exact h.fetching d slot' hold

omit [Fintype ι] in
/-- A call that takes the lock of its slot. -/
theorem lead (h : s.Flight keyOf) {c : ι} {slot : ℕ} (hc : s.calls c = .waiting slot)
    (hlock : (s.slots slot).locked = false) :
    ((s.setSlot slot ⟨true, none⟩).move c (.fetching slot)).Flight keyOf := by
  have hnobody : ∀ d, s.calls d ≠ .fetching slot := by
    intro d hd
    rw [h.fetching d slot hd] at hlock
    cases hlock
  have hfetch : ∀ d slot', ((s.setSlot slot ⟨true, none⟩).move c (.fetching slot)).calls d =
      .fetching slot' → d = c ∧ slot' = slot ∨ s.calls d = .fetching slot' := by
    intro d slot' hd
    rcases (s.setSlot slot ⟨true, none⟩).calls_move c (.fetching slot) d with
      ⟨hdc, hself⟩ | ⟨-, hold⟩
    · exact .inl ⟨hdc, (CachePhase.fetching.inj (hself.symm.trans hd)).symm⟩
    · exact .inr (hold.symm.trans hd)
  refine ⟨h.distinct, fun d slot' hd => ?_, fun d slot' hd => ?_, fun d d' slot' hd hd' => ?_,
    h.length⟩
  · rcases (s.setSlot slot ⟨true, none⟩).calls_move c (.fetching slot) d with
      ⟨rfl, hself⟩ | ⟨-, hold⟩
    · rw [hself] at hd
      cases hd
      exact h.held d slot (by rw [hc]; rfl)
    · exact h.held d slot' (hold ▸ hd)
  · show Function.update s.slots slot ⟨true, none⟩ slot' = _
    rcases hfetch d slot' hd with ⟨-, rfl⟩ | hold
    · exact Function.update_self ..
    · have hne : slot' ≠ slot := by
        rintro rfl
        exact hnobody d hold
      rw [Function.update_of_ne hne]
      exact h.fetching d slot' hold
  · rcases hfetch d slot' hd with ⟨rfl, rfl⟩ | hold
    · rcases hfetch d' slot' hd' with ⟨rfl, -⟩ | hold'
      · rfl
      · exact absurd hold' (hnobody d')
    · rcases hfetch d' slot' hd' with ⟨rfl, rfl⟩ | hold'
      · exact absurd hold (hnobody d)
      · exact h.leader d d' slot' hold hold'

omit [DecidableEq ι] [Fintype ι] in
/-- Entries that nobody holds may go. -/
theorem keep (h : s.Flight keyOf) {kept : List (List Char × ℕ)} (hkept : kept.Sublist s.entries)
    (hidle : ∀ e ∈ s.entries, e ∉ kept → s.Idle e.2) :
    ({ s with entries := kept } : CacheState ι β).Flight keyOf := by
  refine ⟨h.distinct.sublist hkept, fun c slot hc => ?_, h.fetching, h.leader,
    hkept.length_le.trans h.length⟩
  by_contra hout
  exact not_held (hidle _ (h.held c slot hc) hout) c hc

omit [Fintype ι] in
/-- A new slot for a call whose key has none. -/
theorem insert (h : s.Flight keyOf) {c : ι} (hc : s.calls c = .entering)
    (hnew : ∀ slot, (keyOf c, slot) ∉ s.entries) (hlen : s.entries.length < cacheEntries) :
    (s.insert c (keyOf c)).Flight keyOf := by
  have hlt : ∀ d slot, (s.calls d).held = some slot → slot < s.next := fun d slot hd =>
    h.distinct.lt _ (h.held d slot hd)
  have hcalls : ∀ d slot, ((s.insert c (keyOf c)).calls d).held = some slot →
      d = c ∧ slot = s.next ∨ d ≠ c ∧ (s.calls d).held = some slot := by
    intro d slot hd
    rcases s.calls_insert c (keyOf c) d with ⟨hdc, hself⟩ | ⟨hdc, hold⟩
    · rw [hself] at hd
      exact .inl ⟨hdc, (Option.some.inj hd).symm⟩
    · exact .inr ⟨hdc, hold ▸ hd⟩
  have hfetch : ∀ d slot, (s.insert c (keyOf c)).calls d = .fetching slot →
      s.calls d = .fetching slot := by
    intro d slot hd
    rcases s.calls_insert c (keyOf c) d with ⟨-, hself⟩ | ⟨-, hold⟩
    · cases hself.symm.trans hd
    · exact hold.symm.trans hd
  refine ⟨h.distinct.insert hnew, fun d slot hd => ?_, fun d slot hd => ?_, fun d d' slot hd hd' =>
    h.leader d d' slot (hfetch d slot hd) (hfetch d' slot hd'), hlen⟩
  · rcases hcalls d slot hd with ⟨rfl, rfl⟩ | ⟨-, hd⟩
    · exact List.mem_cons_self ..
    · exact List.mem_cons_of_mem _ (h.held d slot hd)
  · have hd := hfetch d slot hd
    have hne : slot ≠ s.next := Nat.ne_of_lt (hlt d slot (by rw [hd]; rfl))
    show Function.update s.slots s.next ⟨false, none⟩ slot = _
    rw [Function.update_of_ne hne]
    exact h.fetching d slot hd

end CacheState.Flight

omit [Fintype ι] in
/-- **A slot that a call holds stays in the map under its key**, in every step of the abstract
cache. -/
theorem CacheStep.flight (h : CacheStep keyOf peer s ev s') (hs : s.Flight keyOf) :
    s'.Flight keyOf := by
  have hout : ∀ {c : ι} {p : CachePhase β}, (∀ slot, s.calls c ≠ .fetching slot) → p.held = none →
      (s.move c p).Flight keyOf := by
    intro c p hc hp
    refine hs.move hc (fun slot hfetch => ?_) fun slot hheld => ?_
    · rw [hfetch] at hp
      cases hp
    · rw [hp] at hheld
      cases hheld
  cases h with
  | found c slot hc hfound =>
    refine hs.move (fun slot' hfetch => ?_) (fun slot' hfetch => by cases hfetch) fun slot' hheld => ?_
    · rw [hc] at hfetch
      cases hfetch
    · cases hheld
      exact hfound
  | inserted c hc hnew hlen => exact hs.insert hc hnew hlen
  | replaced c oldest hc hnew hlen hold hidle =>
    have hkeep := hs.keep (List.filter_sublist (p := (· ≠ oldest))) fun e he hgone => ?_
    · refine hkeep.insert hc (fun slot hmem => hnew slot (List.mem_of_mem_filter hmem)) ?_
      have hless : (s.entries.filter (· ≠ oldest)).length < s.entries.length :=
        List.length_filter_lt_length_iff_exists.mpr ⟨oldest, hold, by simp⟩
      exact hless.trans_le hs.length
    · obtain rfl : e = oldest := by
        by_contra hne
        exact hgone (List.mem_filter.mpr ⟨he, by simpa using hne⟩)
      exact hidle
  | exhausted c hc hnew hlen hbusy =>
    exact hout (fun slot hfetch => by rw [hc] at hfetch; cases hfetch) rfl
  | served c slot cached hc hlock hentry hfresh =>
    exact hout (fun slot hfetch => by rw [hc] at hfetch; cases hfetch) rfl
  | fetch c slot hc hlock hstale => exact hs.lead hc hlock
  | fetched c slot result hc => exact hs.leave hc _ rfl
  | droppedFetch c slot hc => exact hs.leave hc _ rfl
  | dropped c hc => exact hout hc rfl
  | pruned kept hkept hidle => exact hs.keep hkept hidle
  | tick later hle => exact ⟨hs.distinct, hs.held, hs.fetching, hs.leader, hs.length⟩

/-! ### Runs -/

variable {log : List (ι × Except MinerError β)}

theorem OwnedRun.flight (h : OwnedRun keyOf peer log s) : s.Flight keyOf := by
  induction h with
  | start =>
    refine ⟨.nil 0, fun c slot hc => ?_, fun c slot hc => ?_, fun c d slot hc => ?_, Nat.zero_le _⟩
    · cases hc
    · cases hc
    · cases hc
  | step _ hstep ih => exact (hstep.cacheStep ih).flight ih

/-- A run with strong counts is a run of the abstract cache. -/
theorem OwnedRun.cacheRun (h : OwnedRun keyOf peer log s) : CacheRun keyOf peer log s := by
  induction h with
  | start => exact .start
  | step hrun hstep ih => exact ih.step (hstep.cacheStep hrun.flight)

omit [DecidableEq ι] [Fintype ι] in
/-- The entries that a step keeps or adds; what it keeps are all that are held. -/
theorem CacheState.Flight.kept (h : s.Flight keyOf) {c : ι} {slot : ℕ}
    (hc : (s.calls c).held = some slot) {kept : List (List Char × ℕ)}
    (hidle : ∀ e ∈ s.entries, e ∉ kept → s.Idle e.2) : (keyOf c, slot) ∈ kept := by
  by_contra hout
  exact not_held (hidle _ (h.held c slot hc) hout) c hc

omit [Fintype ι] in
/-- **No step takes a held slot out of the map.** -/
theorem CacheStep.held_stays (h : CacheStep keyOf peer s ev s') (hs : s.Flight keyOf) {c : ι}
    {slot : ℕ} (hc : (s.calls c).held = some slot) : (keyOf c, slot) ∈ s'.entries := by
  have hmem := hs.held c slot hc
  cases h with
  | found | exhausted | served | fetch | fetched | droppedFetch | dropped | tick => exact hmem
  | inserted => exact List.mem_cons_of_mem _ hmem
  | replaced d oldest hd hnew hlen hold hidle =>
    refine List.mem_cons_of_mem _ (hs.kept hc fun e he hgone => ?_)
    obtain rfl : e = oldest := by
      by_contra hne
      exact hgone (List.mem_filter.mpr ⟨he, by simpa using hne⟩)
    exact hidle
  | pruned kept hkept hidle => exact hs.kept hc hidle

omit [Fintype ι] in
/-- A dropped fetch leaves no answer in its slot. -/
theorem CacheStep.droppedFetch_entry (h : CacheStep keyOf peer s ev s') {c : ι} {slot : ℕ}
    (hc : s.calls c = .fetching slot) (hended : s'.calls c = .ended) :
    (s'.slots slot).entry = none := by
  have hmoved : ∀ {t : CacheState ι β} {d : ι} {p : CachePhase β}, t.calls = s.calls →
      (t.move d p).calls c = .ended → d = c ∧ p = .ended := by
    intro t d p ht hd
    rcases t.calls_move d p c with ⟨hdc, hself⟩ | ⟨-, hold⟩
    · exact ⟨hdc.symm, hself.symm.trans hd⟩
    · rw [hold, ht, hc] at hd
      cases hd
  cases h with
  | droppedFetch d slot' hd =>
    obtain ⟨rfl, -⟩ := hmoved rfl hended
    obtain rfl : slot' = slot := by
      rw [hc] at hd
      exact (CachePhase.fetching.inj hd).symm
    show (Function.update s.slots slot' ⟨false, none⟩ slot').entry = none
    rw [Function.update_self]
  | found | served | fetch | fetched =>
    obtain ⟨-, hp⟩ := hmoved rfl hended
    cases hp
  | exhausted d hd =>
    obtain ⟨rfl, -⟩ := hmoved rfl hended
    rw [hc] at hd
    cases hd
  | dropped d hd =>
    obtain ⟨rfl, -⟩ := hmoved rfl hended
    exact absurd hc (hd slot)
  | inserted d | replaced d =>
    rcases CacheState.calls_insert _ d (keyOf d) c with ⟨-, hself⟩ | ⟨-, hold⟩
    · cases hself.symm.trans hended
    · cases hc.symm.trans (hold.symm.trans hended)
  | pruned | tick =>
    rw [show s.calls c = _ from hended] at hc
    cases hc

omit [Fintype ι] in
/-- **An answer is one that has not expired, or the result of the call's own fetch**, which
then expires later than now. -/
theorem CacheStep.answers (h : CacheStep keyOf peer s ev s') {c : ι} {result : Except MinerError β}
    (hc : s'.calls c = .answered result) :
    s.calls c = .answered result ∨
      (∃ slot cached, s.calls c = .waiting slot ∧ (s.slots slot).entry = some cached ∧
        s.now < cached.expires ∧ cached.result = result) ∨
      ∃ slot cached, s.calls c = .fetching slot ∧ ev = some (c, result) ∧
        (s'.slots slot).entry = some cached ∧ s.now < cached.expires ∧ cached.result = result := by
  have hmoved : ∀ {t : CacheState ι β} {d : ι} {p : CachePhase β}, t.calls = s.calls →
      (t.move d p).calls c = .answered result →
      s.calls c = .answered result ∨ c = d ∧ p = .answered result := by
    intro t d p ht hd
    rcases t.calls_move d p c with ⟨hdc, hself⟩ | ⟨-, hold⟩
    · exact .inr ⟨hdc, hself.symm.trans hd⟩
    · rw [hold, ht] at hd
      exact .inl hd
  cases h with
  | served d slot cached hd hlock hentry hfresh =>
    rcases hmoved rfl hc with hold | ⟨rfl, hp⟩
    · exact .inl hold
    · exact .inr (.inl ⟨slot, cached, hd, hentry, hfresh, CachePhase.answered.inj hp⟩)
  | fetched d slot r hd =>
    rcases hmoved rfl hc with hold | ⟨rfl, hp⟩
    · exact .inl hold
    · obtain rfl := CachePhase.answered.inj hp
      refine .inr (.inr ⟨slot, ⟨s.now + ttl (peer c) r, r⟩, hd, rfl, ?_, ?_, rfl⟩)
      · show (Function.update s.slots slot _ slot).entry = _
        rw [Function.update_self]
      -- a time to live is never zero
      · have hpos : 0 < ttl (peer c) r := by
          unfold ttl
          split
          · decide
          · split <;> decide
        show s.now < s.now + ttl (peer c) r
        omega
  | found | exhausted | fetch | droppedFetch | dropped =>
    refine .inl ((hmoved rfl hc).resolve_right ?_)
    rintro ⟨-, hp⟩
    cases hp
  | inserted d | replaced d =>
    rcases CacheState.calls_insert _ d (keyOf d) c with ⟨-, hself⟩ | ⟨-, hold⟩
    · cases hself.symm.trans hc
    · exact .inl (hold.symm.trans hc)
  | pruned | tick => exact .inl hc

/-- **Single flight of the miner cache.**  In every run, at most one fetch for each key is in
flight and there are at most 32 entries; and in its next step, a slot that a call holds
stays in the map and is not replaced, a fetch that is dropped leaves no answer, and what is
answered has not expired. -/
theorem miner_cache_single_flight (h : OwnedRun keyOf peer log s) :
    (∀ c d slot slot', s.calls c = .fetching slot → s.calls d = .fetching slot' →
      keyOf c = keyOf d → c = d) ∧
    s.entries.length ≤ cacheEntries ∧
    ∀ ev s', OwnedStep keyOf peer s ev s' →
      (∀ c slot, (s.calls c).held = some slot → (keyOf c, slot) ∈ s.entries ∧
        (keyOf c, slot) ∈ s'.entries ∧ ∀ other, (keyOf c, other) ∈ s'.entries → other = slot) ∧
      (∀ c slot, s.calls c = .fetching slot → s'.calls c = .ended →
        (s'.slots slot).entry = none) ∧
      ∀ c result, s'.calls c = .answered result →
        s.calls c = .answered result ∨
          (∃ slot cached, s.calls c = .waiting slot ∧ (s.slots slot).entry = some cached ∧
            s.now < cached.expires ∧ cached.result = result) ∨
          ∃ slot cached, s.calls c = .fetching slot ∧ ev = some (c, result) ∧
            (s'.slots slot).entry = some cached ∧ s.now < cached.expires ∧
            cached.result = result := by
  have hs := h.flight
  refine ⟨fun c d slot slot' hc hd hkey => ?_, hs.length, fun ev s' hstep => ?_⟩
  · have hslot : slot = slot' := by
      refine hs.distinct.cell_unique (hs.held c slot (by rw [hc]; rfl)) ?_
      rw [hkey]
      exact hs.held d slot' (by rw [hd]; rfl)
    exact hs.leader c d slot hc (hslot ▸ hd)
  · have hstep := hstep.cacheStep hs
    refine ⟨fun c slot hc => ?_, fun c slot hc hended => hstep.droppedFetch_entry hc hended,
      fun c result hc => hstep.answers hc⟩
    have hstays := hstep.held_stays hs hc
    exact ⟨hs.held c slot hc, hstays, fun other hother =>
      (hstep.flight hs).distinct.cell_unique hother hstays⟩

/-- Two calls with one key: the second waits for the first one's fetch, and stays in the map
whatever is pruned. -/
theorem miner_cache_single_flight_twoCalls : ∃ (log : List (Fin 2 × Except MinerError ℕ)) (s : _),
    OwnedRun (fun _ => ['k']) (fun _ => false) log s ∧ s.calls 0 = .fetching 0 ∧
      s.calls 1 = .waiting 0 ∧ s.entries.length ≤ cacheEntries ∧
      (['k'], 0) ∈ s.entries.filter (s.retained s.now) := by
  have run := (@OwnedRun.start (Fin 2) ℕ _ _ (fun _ => ['k']) fun _ => false)
    |>.step (.inserted _ 0 rfl (fun _ h => by cases h) (by decide))
    |>.step (.found _ 1 0 rfl (List.mem_singleton_self _))
    |>.step (.fetch _ 0 0 rfl rfl fun _ h => by cases h)
  obtain ⟨-, hlen, hnext⟩ := miner_cache_single_flight run
  obtain ⟨hheld, -, -⟩ := hnext _ _ (.pruned _ _ le_rfl)
  exact ⟨_, _, run, rfl, rfl, hlen, (hheld 1 0 rfl).2.1⟩

end Dashboard

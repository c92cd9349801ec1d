/-
The caches of the miner client.

The model of `Cache::get` in `quip-dashboard/src/miner/cache.rs`, with any calls
interleaved at its await points, and of the keys that `dispatch` and
`dispatch_attempts` in `miner/mod.rs` build for it.  A key joins its fields with
`:`, which a base URL and a miner id may contain.

* `answered_of_run` — every answer of a cache was fetched by a call with that key;
* `dispatchKey_eq_iff`, `attemptsKey_eq_iff` — the requests that share a key;
* `cacheIsolation_iff` — **different requests have different keys, and no request
  is answered with what another one fetched, exactly when no request's fields
  absorb those of another**.
-/
import QuipDashboard.DigitOrder
import QuipDashboard.MiningCatchup
import QuipDashboard.PeerUrl

namespace Dashboard

/-! ### The cache -/

/-- `ENTRIES`. -/
def cacheEntries : ℕ := 32

/-- `Entry<T>`, with the result that it keeps. -/
structure CacheEntry (β : Type) where
  expires : ℕ
  result : Except MinerError β

/-- A slot that an entry and the calls that wait for it share: whether a call holds
its lock, and what it keeps. -/
structure CacheSlot (β : Type) where
  locked : Bool
  entry : Option (CacheEntry β)

/-- Where a call of `Cache::get` stands. -/
inductive CachePhase (β : Type) where
  /-- Before it looks its key up. -/
  | entering
  /-- With a slot, before the slot's lock. -/
  | waiting (slot : ℕ)
  /-- Under the slot's lock, while it fetches. -/
  | fetching (slot : ℕ)
  | answered (result : Except MinerError β)
  /-- No entry is idle, or the call was dropped. -/
  | ended

/-- A cache and the calls of it, numbered by `ι`: the entries, which lead from a key to a
slot, the slots, the number of slots that exist, and the time. -/
structure CacheState (ι β : Type) where
  entries : List (List Char × ℕ)
  slots : ℕ → CacheSlot β
  next : ℕ
  now : ℕ
  calls : ι → CachePhase β

/-- `Cache::new`, before every call. -/
def CacheState.new {ι β : Type} : CacheState ι β :=
  ⟨[], fun _ => ⟨false, none⟩, 0, 0, fun _ => .entering⟩

/-- The time to live of a result. -/
def ttl {β : Type} (peer : Bool) (result : Except MinerError β) : ℕ :=
  if !peer then 8 else if result.isOk then 5 else 60

section Cache

variable {ι β : Type} [DecidableEq ι]

namespace CacheState

/-- The call moves on. -/
def move (s : CacheState ι β) (c : ι) (p : CachePhase β) : CacheState ι β :=
  { s with calls := Function.update s.calls c p }

/-- A slot changes. -/
def setSlot (s : CacheState ι β) (slot : ℕ) (new : CacheSlot β) : CacheState ι β :=
  { s with slots := Function.update s.slots slot new }

/-- A new, empty slot under the key, which the call waits for. -/
def insert (s : CacheState ι β) (c : ι) (key : List Char) : CacheState ι β :=
  { s with
    entries := (key, s.next) :: s.entries
    slots := Function.update s.slots s.next ⟨false, none⟩
    next := s.next + 1
    calls := Function.update s.calls c (.waiting s.next) }

/-- No call holds the slot: `Arc::strong_count(slot) == 1`. -/
def Idle (s : CacheState ι β) (slot : ℕ) : Prop :=
  ∀ c, s.calls c ≠ .waiting slot ∧ s.calls c ≠ .fetching slot

/-- Only the call that moves has another phase. -/
theorem calls_move (s : CacheState ι β) (c : ι) (p : CachePhase β) (d : ι) :
    d = c ∧ (s.move c p).calls d = p ∨ d ≠ c ∧ (s.move c p).calls d = s.calls d := by
  by_cases hdc : d = c
  · subst hdc
    exact .inl ⟨rfl, Function.update_self ..⟩
  · exact .inr ⟨hdc, Function.update_of_ne hdc ..⟩

/-- Only the call with the new slot has another phase. -/
theorem calls_insert (s : CacheState ι β) (c : ι) (key : List Char) (d : ι) :
    d = c ∧ (s.insert c key).calls d = .waiting s.next ∨
      d ≠ c ∧ (s.insert c key).calls d = s.calls d :=
  calls_move s c (.waiting s.next) d

end CacheState

/-- One step of a cache whose calls have these keys, and the fetch that it completes, if it
completes one.  Any idle entry may be the oldest one, and `prune_expired` and `observe` may
drop any idle entries; a fetch gives any result. -/
inductive CacheStep (keyOf : ι → List Char) (peer : ι → Bool) :
    CacheState ι β → Option (ι × Except MinerError β) → CacheState ι β → Prop
  | found (s : CacheState ι β) (c : ι) (slot : ℕ) (hc : s.calls c = .entering)
      (h : (keyOf c, slot) ∈ s.entries) :
      CacheStep keyOf peer s none (s.move c (.waiting slot))
  | inserted (s : CacheState ι β) (c : ι) (hc : s.calls c = .entering)
      (h : ∀ slot, (keyOf c, slot) ∉ s.entries) (hlen : s.entries.length < cacheEntries) :
      CacheStep keyOf peer s none (s.insert c (keyOf c))
  | replaced (s : CacheState ι β) (c : ι) (oldest : List Char × ℕ) (hc : s.calls c = .entering)
      (h : ∀ slot, (keyOf c, slot) ∉ s.entries) (hlen : cacheEntries ≤ s.entries.length)
      (hold : oldest ∈ s.entries) (hidle : s.Idle oldest.2) :
      CacheStep keyOf peer s none
        ({ s with entries := s.entries.filter (· ≠ oldest) }.insert c (keyOf c))
  | exhausted (s : CacheState ι β) (c : ι) (hc : s.calls c = .entering)
      (h : ∀ slot, (keyOf c, slot) ∉ s.entries) (hlen : cacheEntries ≤ s.entries.length)
      (hbusy : ∀ e ∈ s.entries, ¬ s.Idle e.2) :
      CacheStep keyOf peer s none (s.move c .ended)
  | served (s : CacheState ι β) (c : ι) (slot : ℕ) (cached : CacheEntry β)
      (hc : s.calls c = .waiting slot) (hlock : (s.slots slot).locked = false)
      (h : (s.slots slot).entry = some cached) (hfresh : s.now < cached.expires) :
      CacheStep keyOf peer s none (s.move c (.answered cached.result))
  | fetch (s : CacheState ι β) (c : ι) (slot : ℕ) (hc : s.calls c = .waiting slot)
      (hlock : (s.slots slot).locked = false)
      (h : ∀ cached ∈ (s.slots slot).entry, cached.expires ≤ s.now) :
      CacheStep keyOf peer s none ((s.setSlot slot ⟨true, none⟩).move c (.fetching slot))
  | fetched (s : CacheState ι β) (c : ι) (slot : ℕ) (result : Except MinerError β)
      (hc : s.calls c = .fetching slot) :
      CacheStep keyOf peer s (some (c, result))
        ((s.setSlot slot ⟨false, some ⟨s.now + ttl (peer c) result, result⟩⟩).move c
          (.answered result))
  | droppedFetch (s : CacheState ι β) (c : ι) (slot : ℕ) (hc : s.calls c = .fetching slot) :
      CacheStep keyOf peer s none ((s.setSlot slot ⟨false, none⟩).move c .ended)
  | dropped (s : CacheState ι β) (c : ι) (hc : ∀ slot, s.calls c ≠ .fetching slot) :
      CacheStep keyOf peer s none (s.move c .ended)
  | pruned (s : CacheState ι β) (kept : List (List Char × ℕ)) (h : kept.Sublist s.entries)
      (hidle : ∀ e ∈ s.entries, e ∉ kept → s.Idle e.2) :
      CacheStep keyOf peer s none { s with entries := kept }
  | tick (s : CacheState ι β) (later : ℕ) (h : s.now ≤ later) :
      CacheStep keyOf peer s none { s with now := later }

/-- A run of a cache, with the fetches that it has completed. -/
inductive CacheRun (keyOf : ι → List Char) (peer : ι → Bool) :
    List (ι × Except MinerError β) → CacheState ι β → Prop
  | start : CacheRun keyOf peer [] .new
  | step {log : List (ι × Except MinerError β)} {s s' : CacheState ι β}
      {e : Option (ι × Except MinerError β)} (h : CacheRun keyOf peer log s)
      (hstep : CacheStep keyOf peer s e s') : CacheRun keyOf peer (log ++ e.toList) s'

/-- What every state of a run keeps, for the key that each slot was made for: entries and
calls lead to slots of their keys, and what a slot keeps or a call answers satisfies `P`
for its key. -/
structure Keyed (keyOf : ι → List Char) (P : List Char → Except MinerError β → Prop)
    (slotKey : ℕ → List Char) (s : CacheState ι β) : Prop where
  entries : ∀ e ∈ s.entries, e.2 < s.next ∧ slotKey e.2 = e.1
  calls : ∀ c slot, s.calls c = .waiting slot ∨ s.calls c = .fetching slot →
    slot < s.next ∧ slotKey slot = keyOf c
  slots : ∀ slot cached, (s.slots slot).entry = some cached → P (slotKey slot) cached.result
  answers : ∀ c result, s.calls c = .answered result → P (keyOf c) result

namespace Keyed

variable {keyOf : ι → List Char} {peer : ι → Bool}
  {P Q : List Char → Except MinerError β → Prop} {slotKey : ℕ → List Char}
  {s : CacheState ι β}

omit [DecidableEq ι] in
theorem mono (hPQ : ∀ k r, P k r → Q k r) (h : Keyed keyOf P slotKey s) :
    Keyed keyOf Q slotKey s :=
  ⟨h.entries, h.calls, fun slot cached hs => hPQ _ _ (h.slots slot cached hs),
    fun c r hc => hPQ _ _ (h.answers c r hc)⟩

/-- A call moves to a slot of its key, to an answer for its key, or out. -/
theorem move (h : Keyed keyOf P slotKey s) (c : ι) (p : CachePhase β)
    (hslot : ∀ slot, p = .waiting slot ∨ p = .fetching slot →
      slot < s.next ∧ slotKey slot = keyOf c)
    (hanswer : ∀ r, p = .answered r → P (keyOf c) r) : Keyed keyOf P slotKey (s.move c p) := by
  refine ⟨h.entries, fun d slot hd => ?_, h.slots, fun d r hd => ?_⟩
  · rcases s.calls_move c p d with ⟨rfl, hp⟩ | ⟨-, hold⟩
    · exact hslot slot (hp ▸ hd)
    · exact h.calls d slot (hold ▸ hd)
  · rcases s.calls_move c p d with ⟨rfl, hp⟩ | ⟨-, hold⟩
    · exact hanswer r (hp ▸ hd)
    · exact h.answers d r (hold ▸ hd)

/-- A call that ends. -/
theorem moveEnded (h : Keyed keyOf P slotKey s) (c : ι) :
    Keyed keyOf P slotKey (s.move c .ended) :=
  h.move c _ (fun slot hp => by rcases hp with hp | hp <;> cases hp) fun r hr => by cases hr

/-- A call that is answered for its key. -/
theorem moveAnswered (h : Keyed keyOf P slotKey s) (c : ι) {r : Except MinerError β}
    (hr : P (keyOf c) r) : Keyed keyOf P slotKey (s.move c (.answered r)) := by
  refine h.move c _ (fun slot hp => by rcases hp with hp | hp <;> cases hp) fun r' hr' => ?_
  cases hr'
  exact hr

omit [DecidableEq ι] in
theorem setSlot (h : Keyed keyOf P slotKey s) (slot : ℕ) (new : CacheSlot β)
    (hnew : ∀ cached, new.entry = some cached → P (slotKey slot) cached.result) :
    Keyed keyOf P slotKey (s.setSlot slot new) := by
  refine ⟨h.entries, h.calls, fun slot' cached hs => ?_, h.answers⟩
  by_cases heq : slot' = slot
  · subst heq
    simp only [CacheState.setSlot, Function.update_self] at hs
    exact hnew cached hs
  · simp only [CacheState.setSlot, Function.update_of_ne heq] at hs
    exact h.slots slot' cached hs

omit [DecidableEq ι] in
theorem keep (h : Keyed keyOf P slotKey s) {kept : List (List Char × ℕ)}
    (hkept : ∀ e ∈ kept, e ∈ s.entries) : Keyed keyOf P slotKey { s with entries := kept } :=
  ⟨fun e he => h.entries e (hkept e he), h.calls, h.slots, h.answers⟩

/-- A new slot is one of the key that it is made for. -/
theorem insert (h : Keyed keyOf P slotKey s) (c : ι) :
    Keyed keyOf P (Function.update slotKey s.next (keyOf c)) (s.insert c (keyOf c)) := by
  have hold : ∀ slot, slot < s.next →
      Function.update slotKey s.next (keyOf c) slot = slotKey slot := by
    intro slot hlt
    rw [Function.update_of_ne (by omega)]
  refine ⟨fun e he => ?_, fun d slot hd => ?_, fun slot cached hs => ?_, fun d r hd => ?_⟩
  · rcases List.mem_cons.mp he with rfl | he
    · exact ⟨Nat.lt_succ_self _, Function.update_self ..⟩
    · obtain ⟨hlt, hkey⟩ := h.entries e he
      exact ⟨Nat.lt_succ_of_lt hlt, (hold _ hlt).trans hkey⟩
  · rcases s.calls_insert c (keyOf c) d with ⟨rfl, hp⟩ | ⟨-, hp⟩
    · rw [hp] at hd
      rcases hd with hd | hd
      · cases hd
        exact ⟨Nat.lt_succ_self _, Function.update_self ..⟩
      · cases hd
    · rw [hp] at hd
      obtain ⟨hlt, hkey⟩ := h.calls d slot hd
      exact ⟨Nat.lt_succ_of_lt hlt, (hold _ hlt).trans hkey⟩
  · by_cases heq : slot = s.next
    · subst heq
      simp only [CacheState.insert, Function.update_self] at hs
      cases hs
    · simp only [CacheState.insert, Function.update_of_ne heq] at hs
      rw [Function.update_of_ne heq]
      exact h.slots slot cached hs
  · rcases s.calls_insert c (keyOf c) d with ⟨rfl, hp⟩ | ⟨-, hp⟩
    · rw [hp] at hd
      cases hd
    · exact h.answers d r (hp ▸ hd)

/-- **One step**: what is kept and answered for a key was fetched for that key. -/
theorem step {e : Option (ι × Except MinerError β)} {s' : CacheState ι β}
    (h : Keyed keyOf P slotKey s) (hstep : CacheStep keyOf peer s e s')
    (he : ∀ c r, e = some (c, r) → P (keyOf c) r) :
    ∃ slotKey', Keyed keyOf P slotKey' s' := by
  cases hstep with
  | found c slot hc hfound =>
    refine ⟨slotKey, h.move c _ (fun slot' hp => ?_) (fun r hr => by cases hr)⟩
    rcases hp with hp | hp
    · cases hp
      exact h.entries _ hfound
    · cases hp
  | inserted c hc hnew hlen => exact ⟨_, h.insert c⟩
  | replaced c oldest hc hnew hlen hold hidle =>
    have hkept : ∀ e ∈ s.entries.filter (· ≠ oldest), e ∈ s.entries :=
      fun e he => List.mem_of_mem_filter he
    exact ⟨_, (h.keep hkept).insert c⟩
  | exhausted c hc hnew hlen hbusy => exact ⟨slotKey, h.moveEnded c⟩
  | served c slot cached hc hlock hentry hfresh =>
    refine ⟨slotKey, h.moveAnswered c ?_⟩
    rw [← (h.calls c slot (Or.inl hc)).2]
    exact h.slots slot cached hentry
  | fetch c slot hc hlock hstale =>
    refine ⟨slotKey, (h.setSlot slot _ (fun _ hn => by cases hn)).move c _
      (fun slot' hp => ?_) (fun r hr => by cases hr)⟩
    rcases hp with hp | hp
    · cases hp
    · cases hp
      exact h.calls c slot (Or.inl hc)
  | fetched c slot result hc =>
    have hresult := he c result rfl
    refine ⟨slotKey, (h.setSlot slot _ fun cached hn => ?_).moveAnswered c hresult⟩
    cases hn
    rw [(h.calls c slot (Or.inr hc)).2]
    exact hresult
  | droppedFetch c slot hc =>
    exact ⟨slotKey, (h.setSlot slot _ fun _ hn => by cases hn).moveEnded c⟩
  | dropped c hc => exact ⟨slotKey, h.moveEnded c⟩
  | pruned kept hsub hidle => exact ⟨slotKey, h.keep fun e he => hsub.subset he⟩
  | tick later hle => exact ⟨slotKey, h.entries, h.calls, h.slots, h.answers⟩

end Keyed

/-- A call with this key completed a fetch with this result. -/
def FetchedFor (keyOf : ι → List Char) (log : List (ι × Except MinerError β))
    (key : List Char) (result : Except MinerError β) : Prop :=
  ∃ c, keyOf c = key ∧ (c, result) ∈ log

/-- **What a whole run keeps**: everything kept or answered for a key was fetched for it. -/
theorem keyed_of_run {keyOf : ι → List Char} {peer : ι → Bool}
    {log : List (ι × Except MinerError β)} {s : CacheState ι β}
    (h : CacheRun keyOf peer log s) :
    ∃ slotKey, Keyed keyOf (FetchedFor keyOf log) slotKey s := by
  induction h with
  | start =>
    refine ⟨fun _ => [], fun e he => ?_, fun c slot hc => ?_, fun slot cached hs => ?_,
      fun c r hc => ?_⟩
    · cases he
    · rcases hc with hc | hc <;> cases hc
    · cases hs
    · cases hc
  | step h hstep ih =>
    obtain ⟨slotKey, hkeyed⟩ := ih
    refine (hkeyed.mono ?_).step hstep ?_
    · rintro key result ⟨c, hc, hmem⟩
      exact ⟨c, hc, List.mem_append_left _ hmem⟩
    · rintro c result rfl
      exact ⟨c, rfl, List.mem_append_right _ (List.mem_singleton_self _)⟩

/-- **Every answer of a cache was fetched by a call with the same key.** -/
theorem answered_of_run {keyOf : ι → List Char} {peer : ι → Bool}
    {log : List (ι × Except MinerError β)} {s : CacheState ι β}
    (h : CacheRun keyOf peer log s) {c : ι} {result : Except MinerError β}
    (hc : s.calls c = .answered result) : ∃ d, keyOf d = keyOf c ∧ (d, result) ∈ log := by
  obtain ⟨slotKey, hkeyed⟩ := keyed_of_run h
  exact hkeyed.answers c result hc

end Cache

/-! ### Texts with a separator -/

/-- Two texts with a separator are equal if their parts are, or if one front reaches past
the separator of the other. -/
theorem append_sep_eq_iff {α : Type} (sep : α) (s t s' t' : List α) :
    s ++ sep :: t = s' ++ sep :: t' ↔
      (s = s' ∧ t = t') ∨ (∃ u, s' = s ++ sep :: u ∧ t = u ++ sep :: t') ∨
        ∃ u, s = s' ++ sep :: u ∧ t' = u ++ sep :: t := by
  constructor
  · intro h
    rcases List.append_eq_append_iff.mp h with ⟨u, hs, ht⟩ | ⟨u, hs, ht⟩
    · rcases u with _ | ⟨c, u⟩
      · left
        exact ⟨by simpa using hs.symm, (List.cons.inj ht).2⟩
      · obtain ⟨rfl, htail⟩ := List.cons.inj (ht.trans (List.cons_append ..))
        exact Or.inr (Or.inl ⟨u, hs, htail⟩)
    · rcases u with _ | ⟨c, u⟩
      · left
        exact ⟨by simpa using hs, (List.cons.inj ht).2.symm⟩
      · obtain ⟨rfl, htail⟩ := List.cons.inj (ht.trans (List.cons_append ..))
        exact Or.inr (Or.inr ⟨u, hs, htail⟩)
  · rintro (⟨rfl, rfl⟩ | ⟨u, rfl, rfl⟩ | ⟨u, rfl, rfl⟩)
    · rfl
    · simp
    · simp

theorem colon_not_mem_text (n : ℕ) : ':' ∉ DigitOrder.text n := by
  intro h
  exact absurd (DigitOrder.isDigit_of_mem_text h) (by decide)

/-! ### The keys -/

/-- A URL that `resolve_peer_miner_rest_url` can return. -/
def IsPeerUrl (base : List Char) : Prop :=
  ∃ host, resolvePeerMinerRestUrl host = .ok (some base)

/-- What a request of `dispatch` or of `dispatch_attempts` asks for. -/
@[ext] structure MinerRequest where
  peer : Bool
  base : List Char
  solution : ℕ
  minerId : List Char
  resolved : IsPeerUrl base

namespace MinerRequest

/-- `key`: `format!("{peer}:{base}")`. -/
def key (base : List Char) (peer : Bool) : List Char :=
  (if peer then "true".toList else "false".toList) ++ ':' :: base

/-- The key of `dispatch`: `format!("{}:{solution}:{miner_id}", key(base, peer))`. -/
def dispatchKey (r : MinerRequest) : List Char :=
  key r.base r.peer ++ ':' :: (DigitOrder.text r.solution ++ ':' :: r.minerId)

/-- The key of `dispatch_attempts`: `format!("{}:{miner_id}:{solution}", key(base, peer))`. -/
def attemptsKey (r : MinerRequest) : List Char :=
  key r.base r.peer ++ ':' :: (r.minerId ++ ':' :: DigitOrder.text r.solution)

/-- The base URL of `b` is that of `a` with `a`'s solution number behind it, and the miner id
of `a` begins with what is left of that URL and goes on with the solution number and the
miner id of `b`. -/
def DispatchAbsorbs (a b : MinerRequest) : Prop :=
  a.peer = b.peer ∧ ∃ t, b.base = a.base ++ ':' :: t ∧
    ((t = DigitOrder.text a.solution ∧
        a.minerId = DigitOrder.text b.solution ++ ':' :: b.minerId) ∨
      ∃ u, t = DigitOrder.text a.solution ++ ':' :: u ∧
        a.minerId = u ++ ':' :: (DigitOrder.text b.solution ++ ':' :: b.minerId))

/-- The requests are for one solution, the base URL of `b` is that of `a` with a text behind
it, and the miner id of `a` is that text with the miner id of `b` behind it. -/
def AttemptsAbsorbs (a b : MinerRequest) : Prop :=
  a.peer = b.peer ∧ a.solution = b.solution ∧
    ∃ t, b.base = a.base ++ ':' :: t ∧ a.minerId = t ++ ':' :: b.minerId

/-- The peer flag stands first, and neither of its texts goes on where the other ends. -/
theorem key_append_eq_iff (base base' t t' : List Char) (peer peer' : Bool) :
    key base peer ++ t = key base' peer' ++ t' ↔ peer = peer' ∧ base ++ t = base' ++ t' := by
  cases peer <;> cases peer' <;> simp [key]

/-- The fields behind the peer flag, for any text of the last two of them. -/
theorem fields_eq_iff {a b : MinerRequest} (fields : MinerRequest → List Char) :
    key a.base a.peer ++ ':' :: fields a = key b.base b.peer ++ ':' :: fields b ↔
      a.peer = b.peer ∧ ((a.base = b.base ∧ fields a = fields b) ∨
        (∃ t, b.base = a.base ++ ':' :: t ∧ fields a = t ++ ':' :: fields b) ∨
          ∃ t, a.base = b.base ++ ':' :: t ∧ fields b = t ++ ':' :: fields a) := by
  rw [key_append_eq_iff, append_sep_eq_iff]

theorem dispatchAbsorbs_iff (a b : MinerRequest) :
    DispatchAbsorbs a b ↔ a.peer = b.peer ∧ ∃ t, b.base = a.base ++ ':' :: t ∧
      DigitOrder.text a.solution ++ ':' :: a.minerId =
        t ++ ':' :: (DigitOrder.text b.solution ++ ':' :: b.minerId) := by
  refine and_congr_right fun _ => exists_congr fun t => and_congr_right fun _ => ?_
  rw [append_sep_eq_iff]
  constructor
  · rintro (⟨rfl, hm⟩ | ⟨u, ht, hm⟩)
    · exact Or.inl ⟨rfl, hm⟩
    · exact Or.inr (Or.inl ⟨u, ht, hm⟩)
  · rintro (⟨rfl, hm⟩ | ⟨u, ht, hm⟩ | ⟨u, ht, -⟩)
    · exact Or.inl ⟨rfl, hm⟩
    · exact Or.inr ⟨u, ht, hm⟩
    · exact absurd (by simp [ht]) (colon_not_mem_text a.solution)

theorem attemptsAbsorbs_iff (a b : MinerRequest) :
    AttemptsAbsorbs a b ↔ a.peer = b.peer ∧ ∃ t, b.base = a.base ++ ':' :: t ∧
      a.minerId ++ ':' :: DigitOrder.text a.solution =
        t ++ ':' :: (b.minerId ++ ':' :: DigitOrder.text b.solution) := by
  refine and_congr_right fun _ => ?_
  rw [← exists_and_left]
  refine exists_congr fun t => ?_
  rw [and_left_comm]
  refine and_congr_right fun _ => ?_
  rw [← List.cons_append, ← List.append_assoc, append_sep_eq_iff]
  constructor
  · rintro ⟨hs, hm⟩
    exact Or.inl ⟨hm, congrArg _ hs⟩
  · rintro (⟨hm, hs⟩ | ⟨u, -, hs⟩ | ⟨u, -, hs⟩)
    · exact ⟨DigitOrder.text_inj.mp hs, hm⟩
    · exact absurd (by simp [hs]) (colon_not_mem_text a.solution)
    · exact absurd (by simp [hs]) (colon_not_mem_text b.solution)

/-- **The requests of `dispatch` that share a key.** -/
theorem dispatchKey_eq_iff (a b : MinerRequest) :
    a.dispatchKey = b.dispatchKey ↔ a = b ∨ DispatchAbsorbs a b ∨ DispatchAbsorbs b a := by
  rw [dispatchKey, dispatchKey, dispatchAbsorbs_iff, dispatchAbsorbs_iff,
    fields_eq_iff fun r => DigitOrder.text r.solution ++ ':' :: r.minerId]
  constructor
  · rintro ⟨hp, ⟨hb, hf⟩ | ht | ht⟩
    · rcases (append_sep_eq_iff _ _ _ _ _).mp hf with ⟨hs, hm⟩ | ⟨u, hs, -⟩ | ⟨u, hs, -⟩
      · exact Or.inl (MinerRequest.ext hp hb (DigitOrder.text_inj.mp hs) hm)
      · exact absurd (by simp [hs]) (colon_not_mem_text b.solution)
      · exact absurd (by simp [hs]) (colon_not_mem_text a.solution)
    · exact Or.inr (Or.inl ⟨hp, ht⟩)
    · exact Or.inr (Or.inr ⟨hp.symm, ht⟩)
  · rintro (rfl | ⟨hp, ht⟩ | ⟨hp, ht⟩)
    · exact ⟨rfl, Or.inl ⟨rfl, rfl⟩⟩
    · exact ⟨hp, Or.inr (Or.inl ht)⟩
    · exact ⟨hp.symm, Or.inr (Or.inr ht)⟩

/-- **The requests of `dispatch_attempts` that share a key.** -/
theorem attemptsKey_eq_iff (a b : MinerRequest) :
    a.attemptsKey = b.attemptsKey ↔ a = b ∨ AttemptsAbsorbs a b ∨ AttemptsAbsorbs b a := by
  rw [attemptsKey, attemptsKey, attemptsAbsorbs_iff, attemptsAbsorbs_iff,
    fields_eq_iff fun r => r.minerId ++ ':' :: DigitOrder.text r.solution]
  constructor
  · rintro ⟨hp, ⟨hb, hf⟩ | ht | ht⟩
    · rcases (append_sep_eq_iff _ _ _ _ _).mp hf with ⟨hm, hs⟩ | ⟨u, -, hs⟩ | ⟨u, -, hs⟩
      · exact Or.inl (MinerRequest.ext hp hb (DigitOrder.text_inj.mp hs) hm)
      · exact absurd (by simp [hs]) (colon_not_mem_text a.solution)
      · exact absurd (by simp [hs]) (colon_not_mem_text b.solution)
    · exact Or.inr (Or.inl ⟨hp, ht⟩)
    · exact Or.inr (Or.inr ⟨hp.symm, ht⟩)
  · rintro (rfl | ⟨hp, ht⟩ | ⟨hp, ht⟩)
    · exact ⟨rfl, Or.inl ⟨rfl, rfl⟩⟩
    · exact ⟨hp, Or.inr (Or.inl ht)⟩
    · exact ⟨hp.symm, Or.inr (Or.inr ht)⟩

/-- A request whose miner id has no `:` absorbs no other. -/
theorem not_absorbs_of_plain_id {a b : MinerRequest} (h : ':' ∉ a.minerId) :
    ¬ DispatchAbsorbs a b ∧ ¬ AttemptsAbsorbs a b := by
  constructor
  · rintro ⟨-, t, -, ⟨-, hm⟩ | ⟨u, -, hm⟩⟩ <;> exact h (by simp [hm])
  · rintro ⟨-, -, t, -, hm⟩
    exact h (by simp [hm])

/-! ### Isolation -/

/-- Different requests have different keys, and whatever the calls for them do, no request is
answered with a result that only other requests fetched. -/
def Isolated {ι : Type} [DecidableEq ι] (β : Type) (keyOf : MinerRequest → List Char)
    (req : ι → MinerRequest) : Prop :=
  (∀ c d, req c ≠ req d → keyOf (req c) ≠ keyOf (req d)) ∧
    ∀ (log : List (ι × Except MinerError β)) (s : CacheState ι β),
      CacheRun (fun c => keyOf (req c)) (fun c => (req c).peer) log s →
        ∀ c result, s.calls c = .answered result → ∃ d, req d = req c ∧ (d, result) ∈ log

/-- Keys that only equal requests share isolate the requests. -/
theorem isolated_iff {ι : Type} [DecidableEq ι] (β : Type) (keyOf : MinerRequest → List Char)
    (req : ι → MinerRequest) :
    Isolated β keyOf req ↔ ∀ c d, keyOf (req c) = keyOf (req d) → req c = req d := by
  constructor
  · intro h c d hkey
    by_contra hne
    exact h.1 c d hne hkey
  · refine fun h => ⟨fun c d hne hkey => hne (h c d hkey), fun log s hrun c result hc => ?_⟩
    obtain ⟨d, hkey, hmem⟩ := answered_of_run hrun hc
    exact ⟨d, h d c hkey, hmem⟩

theorem ne_of_absorbs {a b : MinerRequest}
    (h : ∃ t, b.base = a.base ++ ':' :: t) : a ≠ b := by
  rintro rfl
  obtain ⟨t, ht⟩ := h
  have := congrArg List.length ht
  simp at this

/-- **Requests are isolated exactly when none absorbs another**: for any calls of `dispatch`,
and any of `dispatch_attempts`, different requests have different keys and no request is
answered with what another one fetched, if and only if no request's miner id spells out,
between colons, the rest of another's base URL and its further fields. -/
theorem cacheIsolation_iff {ι : Type} [DecidableEq ι] (β : Type) (req : ι → MinerRequest) :
    (Isolated β dispatchKey req ↔ ∀ c d, ¬ DispatchAbsorbs (req c) (req d)) ∧
    (Isolated β attemptsKey req ↔ ∀ c d, ¬ AttemptsAbsorbs (req c) (req d)) := by
  rw [isolated_iff, isolated_iff]
  refine ⟨⟨fun h c d habs => ?_, fun h c d hkey => ?_⟩,
    ⟨fun h c d habs => ?_, fun h c d hkey => ?_⟩⟩
  · have ⟨_, t, ht, _⟩ := habs
    exact ne_of_absorbs ⟨t, ht⟩ (h c d ((dispatchKey_eq_iff _ _).mpr (Or.inr (Or.inl habs))))
  · rcases (dispatchKey_eq_iff _ _).mp hkey with heq | habs | habs
    · exact heq
    · exact absurd habs (h c d)
    · exact absurd habs (h d c)
  · have ⟨_, _, t, ht, _⟩ := habs
    exact ne_of_absorbs ⟨t, ht⟩ (h c d ((attemptsKey_eq_iff _ _).mpr (Or.inr (Or.inl habs))))
  · rcases (attemptsKey_eq_iff _ _).mp hkey with heq | habs | habs
    · exact heq
    · exact absurd habs (h c d)
    · exact absurd habs (h d c)

/-! ### A miner that answers for another -/

/-- Two peers of one host, without a port and at port 7: the first reports the miner id
`9:rig`, the second the miner id `rig`. -/
def twoPeers : Bool → MinerRequest
  | false => ⟨true, "http://a".toList, 7, "9:rig".toList,
      some ⟨some "a".toList, none⟩, by decide +kernel⟩
  | true => ⟨true, "http://a:7".toList, 9, "rig".toList,
      some ⟨some "a".toList, some 7⟩, by decide +kernel⟩

/-- The dispatch of the second peer is answered with what the first peer reported. -/
theorem dispatch_answered_by_other_peer : ¬ Isolated ℕ dispatchKey twoPeers := by
  intro h
  have hkey : dispatchKey (twoPeers true) = dispatchKey (twoPeers false) := by decide
  -- The first call fetches into a new slot; the second finds that slot and is served.
  have hstart : CacheRun (fun c => dispatchKey (twoPeers c)) (fun c => (twoPeers c).peer) []
      (CacheState.new : CacheState Bool ℕ) := .start
  have hinserted := hstart.step (.inserted .new false rfl (fun _ h => by cases h) (by decide))
  have hfetch := hinserted.step (.fetch _ false 0 rfl rfl fun _ h => by cases h)
  have hfetched := hfetch.step (.fetched _ false 0 (.ok 1) rfl)
  have hfound := hfetched.step (.found _ true 0 rfl (by
    show (dispatchKey (twoPeers true), 0) ∈ [(dispatchKey (twoPeers false), 0)]
    rw [hkey]
    exact List.mem_singleton_self _))
  have hserved := hfound.step (.served _ true 0 ⟨5, .ok 1⟩ rfl rfl rfl (by decide))
  obtain ⟨d, hd, hmem⟩ := h.2 _ _ hserved true (.ok 1) rfl
  have hfalse : d = false := (Prod.mk.inj (List.mem_singleton.mp hmem)).1
  rw [hfalse] at hd
  exact absurd (congrArg MinerRequest.solution hd) (by decide)

end MinerRequest

end Dashboard

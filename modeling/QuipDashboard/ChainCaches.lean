/-
Bounds of the chain reader's caches.

The model of `Transport::shared` in `quip-dashboard/src/chain/transport.rs` and of
`ChainReader::block` in `quip-dashboard/src/chain/mod.rs`.  Both keep a map of cells and next
to it a map of weak references to answers too large to be cached; they are one cache with two
policies.  One step is what a call does between two await points, a call that is dropped at
one of them, or what happens outside of all calls.

* `makeRoom_held` — making room removes no cell that a caller holds;
* `LoadStep.sound` — the invariant: **cells, weak entries and an answer about to be recorded
  are no more than the limit together**;
* `chain_caches_bounded` — at most 128 entries in the response cache and 64 in the block
  cache, and no failed load is stored, in every run.
-/
import Mathlib.Data.List.Sort
import QuipDashboard.Chain
import QuipDashboard.KeyedTable
import QuipDashboard.SharedCells

namespace Dashboard

open SharedCells

/-! ### Making room -/

variable {ι κ β : Type} [LinearOrder κ]

/-- `BTreeMap::remove`. -/
def removeKey {ν : Type} (key : κ) (map : List (κ × ν)) : List (κ × ν) :=
  map.filter fun e => e.1 ≠ key

/-- `BTreeMap::insert` of a key that the map lacks. -/
def insertKey {ν : Type} (e : κ × ν) (map : List (κ × ν)) : List (κ × ν) :=
  map.orderedInsert (fun a b => a.1 ≤ b.1) e

/-- `make_room`. -/
def makeRoom {ν : Type} (map : List (κ × ν)) (limit : ℕ) (removable : ν → Bool) :
    Except ChainError (List (κ × ν)) :=
  if limit ≤ map.length then
    match map.find? fun e : κ × ν => removable e.2 with
    | some e => .ok (removeKey e.1 map)
    | none => .error .busy
  else .ok map

section

variable {ν : Type} {map kept : List (κ × ν)} {limit : ℕ} {removable : ν → Bool}

theorem removeKey_sublist (key : κ) : (removeKey key map).Sublist map := List.filter_sublist

theorem removeKey_length {key : κ} {v : ν} (he : (key, v) ∈ map) :
    (removeKey key map).length < map.length :=
  List.length_filter_lt_length_iff_exists.mpr ⟨(key, v), he, by simp⟩

theorem insertKey_perm (e : κ × ν) : (insertKey e map).Perm (e :: map) :=
  List.perm_orderedInsert _ e map

theorem makeRoom_cases (h : makeRoom map limit removable = .ok kept) :
    (map.length < limit ∧ kept = map) ∨
      ∃ e ∈ map, removable e.2 ∧ kept = removeKey e.1 map := by
  unfold makeRoom at h
  split at h
  · split at h
    · next e hfind =>
      refine .inr ⟨e, List.mem_of_find?_eq_some hfind, ?_, (Except.ok.inj h).symm⟩
      exact List.find?_some (p := fun e : κ × ν => removable e.2) hfind
    · cases h
  · next hlt => exact .inl ⟨Nat.lt_of_not_le hlt, (Except.ok.inj h).symm⟩

theorem makeRoom_sublist (h : makeRoom map limit removable = .ok kept) : kept.Sublist map := by
  rcases makeRoom_cases h with ⟨-, rfl⟩ | ⟨e, -, -, rfl⟩
  · exact .refl _
  · exact removeKey_sublist _

/-- A map within its limit has room for one more entry. -/
theorem makeRoom_length (h : makeRoom map limit removable = .ok kept) (hmap : map.length ≤ limit) :
    kept.length < limit := by
  rcases makeRoom_cases h with ⟨hlt, rfl⟩ | ⟨e, he, -, rfl⟩
  · exact hlt
  · exact (removeKey_length he).trans_le hmap

end

/-! ### The caches -/

/-- `CachedResponse`: a response, and whether it holds the permits of an active payload. -/
structure CachedResponse (ν : Type) where
  value : ν
  activePayload : Bool

/-- An answer of `load_block`: the block, and whether it holds the permits of an active
payload. -/
structure LoadedBlock where
  block : DecodedBlock
  activePayload : Bool

/-- What a call does with its cell once it has the result of a load. -/
inductive Bookkeeping where
  | keep
  | move
  | remove
  deriving DecidableEq

/-- What tells the two caches apart. -/
structure LoadPolicy (β : Type) where
  limit : ℕ
  bookkeeping : Except ChainError β → Bookkeeping
  /-- The weak entries have a lock of their own, awaited under that of the cells. -/
  twoLocks : Bool

/-- The cache of `Transport::shared`. -/
def responseCache (ν : Type) : LoadPolicy (CachedResponse ν) where
  limit := 128
  bookkeeping
    | .ok response => if response.activePayload then .move else .keep
    | .error _ => .remove
  twoLocks := false

/-- The cache of `ChainReader::block`. -/
def blockCache : LoadPolicy LoadedBlock where
  limit := 64
  bookkeeping
    | .ok ⟨block, activePayload⟩ =>
      if block.qblockError.isSome || (block.events.winner.isSome && block.qblock.isNone) then .remove
      else if activePayload then .move else .keep
    | .error _ => .keep
  twoLocks := true

/-- `Weak`: the answer, and whether an `Arc` to it is left. -/
structure WeakAnswer (β : Type) where
  answer : β
  alive : Bool

/-- Where a call is: about to enter the cache, waiting at the `OnceCell` of its cell, loading
for it, holding the result, awaiting the lock of the weak entries under that of the cells, or
done. -/
inductive LoadPhase (β : Type) where
  | entering
  | waiting (cell : ℕ)
  | loading (cell : ℕ)
  | loaded (cell : ℕ) (result : Except ChainError β)
  | recording (cell : ℕ) (answer : β)
  | answered (result : Except ChainError β)
  | ended

/-- The cell that a call holds an `Arc` of. -/
def LoadPhase.held : LoadPhase β → Option ℕ
  | .waiting cell | .loading cell | .loaded cell _ | .recording cell _ => some cell
  | .entering | .answered _ | .ended => none

/-- The answer that a call has. -/
def LoadPhase.answer : LoadPhase β → Option β
  | .loaded _ (.ok answer) | .recording _ answer | .answered (.ok answer) => some answer
  | _ => none

/-- A call that awaits the second lock. -/
def LoadPhase.isRecording : LoadPhase β → Bool
  | .recording _ _ => true
  | _ => false

/-- A cache and its calls: the cells in the order of their keys, the weak entries, what the
`OnceCell`s hold, the next new cell, and the call that keeps the lock while it awaits. -/
structure LoadState (ι κ β : Type) [LinearOrder κ] where
  cells : List (κ × ℕ)
  uncached : KeyedTable κ (WeakAnswer β)
  values : ℕ → Option β
  next : ℕ
  lock : Option ι
  calls : ι → LoadPhase β

/-- An empty cache before any call. -/
def LoadState.new : LoadState ι κ β := ⟨[], .empty, fun _ => none, 0, none, fun _ => .entering⟩

variable [DecidableEq ι]

/-- A call goes on to another phase. -/
def LoadState.move (s : LoadState ι κ β) (c : ι) (p : LoadPhase β) : LoadState ι κ β :=
  { s with calls := Function.update s.calls c p }

/-- `uncached.retain(|_, value| value.strong_count() > 0)`. -/
def LoadState.retain (s : LoadState ι κ β) : LoadState ι κ β :=
  { s with uncached := s.uncached.delete fun _ w => !w.alive }

/-- `cache.entry(key).or_default()` of a key that the map lacks. -/
def LoadState.insert (s : LoadState ι κ β) (c : ι) (key : κ) : LoadState ι κ β :=
  { s with
    cells := insertKey (key, s.next) s.cells
    next := s.next + 1
    calls := Function.update s.calls c (.waiting s.next) }

/-- `uncached.insert(key, Arc::downgrade(answer))`. -/
def LoadState.remember (s : LoadState ι κ β) (key : κ) (answer : β) : LoadState ι κ β :=
  { s with uncached := s.uncached.put key ⟨answer, true⟩ }

/-- The `OnceCell` of a cell after a load: it is set by an answer only. -/
def LoadState.setCell (s : LoadState ι κ β) (cell : ℕ) : Except ChainError β → LoadState ι κ β
  | .ok answer => { s with values := Function.update s.values cell (some answer) }
  | .error _ => s

/-- Only the call that goes on has another phase. -/
theorem LoadState.calls_move (s : LoadState ι κ β) (c : ι) (p : LoadPhase β) (d : ι) :
    d = c ∧ (s.move c p).calls d = p ∨ d ≠ c ∧ (s.move c p).calls d = s.calls d := by
  by_cases hdc : d = c
  · subst hdc
    exact .inl ⟨rfl, Function.update_self ..⟩
  · exact .inr ⟨hdc, Function.update_of_ne hdc ..⟩

/-- Only the call with the new cell has another phase. -/
theorem LoadState.calls_insert (s : LoadState ι κ β) (c : ι) (key : κ) (d : ι) :
    d = c ∧ (s.insert c key).calls d = .waiting s.next ∨
      d ≠ c ∧ (s.insert c key).calls d = s.calls d :=
  s.calls_move c (.waiting s.next) d

variable [Fintype ι]

/-- `Arc::strong_count(cell) == 1`. -/
def LoadState.removable (s : LoadState ι κ β) (cell : ℕ) : Bool :=
  strongCount s.cells (fun c => (s.calls c).held) cell = 1

/-! ### Steps -/

/-- What a step is to the callers: a section that makes room in the map, a load that completes
with its result, or anything else. -/
inductive LoadEvent (ι β : Type) where
  | room
  | load (c : ι) (result : Except ChainError β)
  | silent

/-- The load that a step completes. -/
def LoadEvent.loads : LoadEvent ι β → List (ι × Except ChainError β)
  | .load c result => [(c, result)]
  | .room | .silent => []

/-- One step of a cache whose calls have these keys.  A load gives any result, the `Arc`s of an
answer may be dropped at any time, and the budget may evict a cell whenever the lock is free:
for a load of this cache that reserves its payload, and for the blocks for metadata too. -/
inductive LoadStep (policy : LoadPolicy β) (keyOf : ι → κ) :
    LoadState ι κ β → LoadEvent ι β → LoadState ι κ β → Prop
  -- the first section of a call
  | upgraded (s : LoadState ι κ β) (c : ι) (w : WeakAnswer β) (hc : s.calls c = .entering)
      (hlock : s.lock = none) (h : s.retain.uncached.get? (keyOf c) = some w) :
      LoadStep policy keyOf s .silent (s.retain.move c (.answered (.ok w.answer)))
  | found (s : LoadState ι κ β) (c : ι) (cell : ℕ) (hc : s.calls c = .entering)
      (hlock : s.lock = none) (hw : s.retain.uncached.get? (keyOf c) = none)
      (h : (keyOf c, cell) ∈ s.cells) :
      LoadStep policy keyOf s .silent (s.retain.move c (.waiting cell))
  | inserted (s : LoadState ι κ β) (c : ι) (kept : List (κ × ℕ)) (hc : s.calls c = .entering)
      (hlock : s.lock = none) (hw : s.retain.uncached.get? (keyOf c) = none)
      (h : ∀ cell, (keyOf c, cell) ∉ s.cells)
      (hroom : makeRoom s.cells (policy.limit - s.retain.uncached.rows.length) s.removable =
        .ok kept) :
      LoadStep policy keyOf s .room ({ s.retain with cells := kept }.insert c (keyOf c))
  | exhausted (s : LoadState ι κ β) (c : ι) (e : ChainError) (hc : s.calls c = .entering)
      (hlock : s.lock = none) (hw : s.retain.uncached.get? (keyOf c) = none)
      (h : ∀ cell, (keyOf c, cell) ∉ s.cells)
      (hroom : makeRoom s.cells (policy.limit - s.retain.uncached.rows.length) s.removable =
        .error e) :
      LoadStep policy keyOf s .room (s.retain.move c (.answered (.error e)))
  -- `get_or_try_init`
  | reused (s : LoadState ι κ β) (c : ι) (cell : ℕ) (answer : β) (hc : s.calls c = .waiting cell)
      (h : s.values cell = some answer) :
      LoadStep policy keyOf s .silent (s.move c (.loaded cell (.ok answer)))
  | started (s : LoadState ι κ β) (c : ι) (cell : ℕ) (hc : s.calls c = .waiting cell)
      (h : s.values cell = none) (hfree : ∀ d, s.calls d ≠ .loading cell) :
      LoadStep policy keyOf s .silent (s.move c (.loading cell))
  | evicted (s : LoadState ι κ β) (e : κ × ℕ) (hlock : s.lock = none)
      (h : (s.cells.find? fun e => s.removable e.2) = some e) :
      LoadStep policy keyOf s .room { s with cells := removeKey e.1 s.cells }
  | loaded (s : LoadState ι κ β) (c : ι) (cell : ℕ) (result : Except ChainError β)
      (hc : s.calls c = .loading cell) :
      LoadStep policy keyOf s (.load c result) ((s.setCell cell result).move c (.loaded cell result))
  -- the sections after it
  | kept (s : LoadState ι κ β) (c : ι) (cell : ℕ) (result : Except ChainError β)
      (hc : s.calls c = .loaded cell result)
      (h : policy.bookkeeping result = .keep ∨ s.lock = none ∧ (keyOf c, cell) ∉ s.cells) :
      LoadStep policy keyOf s .silent (s.move c (.answered result))
  | removed (s : LoadState ι κ β) (c : ι) (cell : ℕ) (result : Except ChainError β)
      (hc : s.calls c = .loaded cell result) (hlock : s.lock = none)
      (h : policy.bookkeeping result = .remove) (hcell : (keyOf c, cell) ∈ s.cells) :
      LoadStep policy keyOf s .silent
        ({ s with cells := removeKey (keyOf c) s.cells }.move c (.answered result))
  | moved (s : LoadState ι κ β) (c : ι) (cell : ℕ) (answer : β)
      (hc : s.calls c = .loaded cell (.ok answer)) (hlock : s.lock = none)
      (h : policy.bookkeeping (.ok answer) = .move) (hcell : (keyOf c, cell) ∈ s.cells)
      (hone : policy.twoLocks = false) :
      LoadStep policy keyOf s .silent
        (({ s with cells := removeKey (keyOf c) s.cells }.remember (keyOf c) answer).move c
          (.answered (.ok answer)))
  | recording (s : LoadState ι κ β) (c : ι) (cell : ℕ) (answer : β)
      (hc : s.calls c = .loaded cell (.ok answer)) (hlock : s.lock = none)
      (h : policy.bookkeeping (.ok answer) = .move) (hcell : (keyOf c, cell) ∈ s.cells)
      (htwo : policy.twoLocks = true) :
      LoadStep policy keyOf s .silent
        ({ s with cells := removeKey (keyOf c) s.cells, lock := some c }.move c
          (.recording cell answer))
  | recorded (s : LoadState ι κ β) (c : ι) (cell : ℕ) (answer : β)
      (hc : s.calls c = .recording cell answer) :
      LoadStep policy keyOf s .silent
        (({ s with lock := none }.remember (keyOf c) answer).move c (.answered (.ok answer)))
  -- a call that is dropped, and the `Arc`s of an answer
  | dropped (s : LoadState ι κ β) (c : ι) (hc : (s.calls c).isRecording = false) :
      LoadStep policy keyOf s .silent (s.move c .ended)
  | droppedRecording (s : LoadState ι κ β) (c : ι) (hc : (s.calls c).isRecording = true) :
      LoadStep policy keyOf s .silent ({ s with lock := none }.move c .ended)
  | released (s : LoadState ι κ β) (key : κ) (w : WeakAnswer β)
      (h : s.uncached.get? key = some w) :
      LoadStep policy keyOf s .silent
        { s with uncached := s.uncached.put key { w with alive := false } }

/-- A run of a cache, with the loads that it has completed. -/
inductive LoadRun (policy : LoadPolicy β) (keyOf : ι → κ) :
    List (ι × Except ChainError β) → LoadState ι κ β → Prop
  | start : LoadRun policy keyOf [] .new
  | step {log : List (ι × Except ChainError β)} {s s' : LoadState ι κ β} {e : LoadEvent ι β}
      (h : LoadRun policy keyOf log s) (hstep : LoadStep policy keyOf s e s') :
      LoadRun policy keyOf (log ++ e.loads) s'

/-! ### The invariant -/

/-- A load of this key gave this answer. -/
def Loaded (keyOf : ι → κ) (log : List (ι × Except ChainError β)) (key : κ) (answer : β) : Prop :=
  ∃ d, keyOf d = key ∧ (d, .ok answer) ∈ log

/-- What holds of every reachable cache, for a choice of the key of every cell: what is stored
satisfies `P`, the lock is kept by the call that records its answer, and **cells, weak entries
and an answer about to be recorded are no more than the limit together**. -/
structure LoadState.Sound (policy : LoadPolicy β) (keyOf : ι → κ) (P : κ → β → Prop)
    (cellKey : ℕ → Option κ) (s : LoadState ι κ β) : Prop where
  distinct : Distinct s.cells s.next
  mapKey : ∀ e ∈ s.cells, cellKey e.2 = some e.1
  held : ∀ c cell, (s.calls c).held = some cell → cell < s.next ∧ cellKey cell = some (keyOf c)
  values : ∀ cell answer, s.values cell = some answer →
    cell < s.next ∧ ∀ key, cellKey cell = some key → P key answer
  uncached : ∀ e ∈ s.uncached.rows, P e.1 e.2.answer
  answers : ∀ c answer, (s.calls c).answer = some answer → P (keyOf c) answer
  lock : ∀ c, (s.calls c).isRecording = true ↔ s.lock = some c
  room : s.cells.length + s.uncached.rows.length + s.lock.toList.length ≤ policy.limit

variable {policy : LoadPolicy β} {keyOf : ι → κ} {P : κ → β → Prop} {cellKey : ℕ → Option κ}
  {s s' : LoadState ι κ β} {e : LoadEvent ι β}

namespace LoadState.Sound

omit [Fintype ι] [DecidableEq ι] in
/-- Entries that are removed. -/
theorem shrink (h : s.Sound policy keyOf P cellKey) {cells : List (κ × ℕ)}
    {uncached : KeyedTable κ (WeakAnswer β)} (hcells : cells.Sublist s.cells)
    (huncached : uncached.rows.Sublist s.uncached.rows) :
    ({ s with cells := cells, uncached := uncached }).Sound policy keyOf P cellKey where
  distinct := h.distinct.sublist hcells
  mapKey e he := h.mapKey e (hcells.subset he)
  held := h.held
  values := h.values
  uncached e he := h.uncached e (huncached.subset he)
  answers := h.answers
  lock := h.lock
  room := by
    have hroom := h.room
    have := hcells.length_le
    have := huncached.length_le
    show cells.length + uncached.rows.length + s.lock.toList.length ≤ policy.limit
    omega

omit [Fintype ι] [DecidableEq ι] in
theorem retain (h : s.Sound policy keyOf P cellKey) : s.retain.Sound policy keyOf P cellKey :=
  h.shrink (.refl _) List.filter_sublist

omit [Fintype ι] in
/-- A call that goes on to a phase without the lock. -/
theorem move (h : s.Sound policy keyOf P cellKey) {c : ι} {p : LoadPhase β}
    (hc : (s.calls c).isRecording = false) (hp : p.isRecording = false)
    (hheld : ∀ cell, p.held = some cell → (s.calls c).held = some cell ∨
      cell < s.next ∧ cellKey cell = some (keyOf c))
    (hanswer : ∀ answer, p.answer = some answer → P (keyOf c) answer) :
    (s.move c p).Sound policy keyOf P cellKey where
  distinct := h.distinct
  mapKey := h.mapKey
  held d cell hd := by
    rcases s.calls_move c p d with ⟨rfl, hself⟩ | ⟨-, hold⟩
    · exact (hheld cell (hself ▸ hd)).elim (h.held d cell) id
    · exact h.held d cell (hold ▸ hd)
  values := h.values
  uncached := h.uncached
  answers d answer hd := by
    rcases s.calls_move c p d with ⟨rfl, hself⟩ | ⟨-, hold⟩
    · exact hanswer answer (hself ▸ hd)
    · exact h.answers d answer (hold ▸ hd)
  lock d := by
    have hlock := h.lock d
    rcases s.calls_move c p d with ⟨rfl, hself⟩ | ⟨-, hold⟩
    · rw [hself, hp, ← hc]
      exact hlock
    · rw [hold]
      exact hlock
  room := h.room

omit [Fintype ι] [DecidableEq ι] in
/-- A call other than the one that keeps the lock. -/
theorem not_recording (h : s.Sound policy keyOf P cellKey) (hlock : s.lock = none) (c : ι) :
    (s.calls c).isRecording = false := by
  cases hrec : (s.calls c).isRecording with
  | false => rfl
  | true =>
    have := (h.lock c).mp hrec
    rw [hlock] at this
    cases this

omit [Fintype ι] in
/-- A new cell under the key of its call. -/
theorem insert (h : s.Sound policy keyOf P cellKey) {c : ι}
    (hc : (s.calls c).isRecording = false) (hnew : ∀ cell, (keyOf c, cell) ∉ s.cells)
    (hroom : s.cells.length + s.uncached.rows.length + s.lock.toList.length < policy.limit) :
    (s.insert c (keyOf c)).Sound policy keyOf P (Function.update cellKey s.next (some (keyOf c))) := by
  -- the new cell has its own number, so that the keys of the others stay
  have hperm : (insertKey (keyOf c, s.next) s.cells).Perm _ := insertKey_perm _
  have hkey : ∀ {cell}, cell < s.next →
      Function.update cellKey s.next (some (keyOf c)) cell = cellKey cell :=
    fun hlt => Function.update_of_ne (Nat.ne_of_lt hlt) _ _
  refine ⟨(h.distinct.insert hnew).perm hperm, fun e he => ?_, fun d cell hd => ?_,
    fun cell answer hv => ?_, h.uncached, fun d answer hd => ?_, fun d => ?_, ?_⟩
  · rcases List.mem_cons.mp (hperm.mem_iff.mp he) with rfl | he
    · exact Function.update_self _ _ _
    · rw [hkey (h.distinct.lt e he), h.mapKey e he]
  · rcases s.calls_insert c (keyOf c) d with ⟨rfl, hself⟩ | ⟨-, hold⟩
    · rw [hself] at hd
      obtain rfl := Option.some.inj hd
      exact ⟨Nat.lt_succ_self _, Function.update_self _ _ _⟩
    · rw [hold] at hd
      obtain ⟨hlt, hcell⟩ := h.held d cell hd
      exact ⟨Nat.lt_succ_of_lt hlt, (hkey hlt).trans hcell⟩
  · obtain ⟨hlt, hP⟩ := h.values cell answer hv
    exact ⟨Nat.lt_succ_of_lt hlt, fun key hcell => hP key ((hkey hlt).symm.trans hcell)⟩
  · rcases s.calls_insert c (keyOf c) d with ⟨-, hself⟩ | ⟨-, hold⟩
    · rw [hself] at hd
      cases hd
    · exact h.answers d answer (hold ▸ hd)
  · have hlock := h.lock d
    rcases s.calls_insert c (keyOf c) d with ⟨rfl, hself⟩ | ⟨-, hold⟩
    · rw [hc] at hlock
      rw [hself]
      exact hlock
    · rw [hold]
      exact hlock
  · show (insertKey (keyOf c, s.next) s.cells).length + s.uncached.rows.length +
      s.lock.toList.length ≤ _
    rw [hperm.length_eq, List.length_cons]
    omega

omit [Fintype ι] [DecidableEq ι] in
/-- An answer for its cell. -/
theorem setCell (h : s.Sound policy keyOf P cellKey) {cell : ℕ} {result : Except ChainError β}
    (hcell : cell < s.next)
    (hresult : ∀ key answer, cellKey cell = some key → result = .ok answer → P key answer) :
    (s.setCell cell result).Sound policy keyOf P cellKey := by
  cases result with
  | error _ => exact h
  | ok answer =>
    refine ⟨h.distinct, h.mapKey, h.held, fun cell' answer' hv => ?_, h.uncached, h.answers, h.lock,
      h.room⟩
    by_cases hsame : cell' = cell
    · subst hsame
      rw [LoadState.setCell] at hv
      simp only [Function.update_self] at hv
      exact ⟨hcell, fun key hkey => hresult key answer' hkey (congrArg _ (Option.some.inj hv))⟩
    · rw [LoadState.setCell] at hv
      simp only [Function.update_of_ne hsame] at hv
      exact h.values cell' answer' hv

omit [Fintype ι] [DecidableEq ι] in
/-- A weak entry where there is room for one. -/
theorem remember (h : s.Sound policy keyOf P cellKey) {key : κ} {answer : β} (hP : P key answer)
    (hroom : s.cells.length + s.uncached.rows.length + s.lock.toList.length < policy.limit) :
    (s.remember key answer).Sound policy keyOf P cellKey where
  distinct := h.distinct
  mapKey := h.mapKey
  held := h.held
  values := h.values
  uncached e he := by
    rcases KeyedTable.mem_put he with he | rfl
    · exact h.uncached e he
    · exact hP
  answers := h.answers
  lock := h.lock
  room := by
    have := s.uncached.length_put_le key ⟨answer, true⟩
    show s.cells.length + (s.uncached.put key ⟨answer, true⟩).rows.length + s.lock.toList.length ≤ _
    omega

omit [Fintype ι] in
/-- The lock is kept for the answer whose cell was removed. -/
theorem awaitLock (h : s.Sound policy keyOf P cellKey) {c : ι} {cell : ℕ} {answer : β}
    (hc : s.calls c = .loaded cell (.ok answer)) (hlock : s.lock = none)
    (hcell : (keyOf c, cell) ∈ s.cells) :
    ({ s with cells := removeKey (keyOf c) s.cells, lock := some c }.move c
      (.recording cell answer)).Sound policy keyOf P cellKey := by
  have hsub : (removeKey (keyOf c) s.cells).Sublist s.cells := removeKey_sublist _
  have hcalls := LoadState.calls_move { s with cells := removeKey (keyOf c) s.cells, lock := some c } c
    (.recording cell answer)
  refine ⟨h.distinct.sublist hsub, fun e he => h.mapKey e (hsub.subset he), fun d cell' hd => ?_,
    h.values, h.uncached, fun d answer' hd => ?_, fun d => ?_, ?_⟩
  · rcases hcalls d with ⟨rfl, hself⟩ | ⟨-, hold⟩
    · refine h.held d cell' ?_
      rw [hself] at hd
      rw [hc]
      exact hd
    · exact h.held d cell' (hold ▸ hd)
  · rcases hcalls d with ⟨rfl, hself⟩ | ⟨-, hold⟩
    · refine h.answers d answer' ?_
      rw [hself] at hd
      rw [hc]
      exact hd
    · exact h.answers d answer' (hold ▸ hd)
  · rcases hcalls d with ⟨rfl, hself⟩ | ⟨hdc, hold⟩
    · rw [hself]
      exact ⟨fun _ => rfl, fun _ => rfl⟩
    · rw [hold, show (s.calls d).isRecording = false from h.not_recording hlock d]
      exact ⟨fun hfalse => (by cases hfalse), fun hd => absurd (Option.some.inj hd).symm hdc⟩
  · have hless := removeKey_length hcell
    have hroom := h.room
    show (removeKey (keyOf c) s.cells).length + s.uncached.rows.length + 1 ≤ policy.limit
    rw [hlock] at hroom
    simp only [Option.toList_none, List.length_nil] at hroom
    omega

omit [Fintype ι] in
/-- A call that gives the lock back leaves room for its answer. -/
theorem unlock (h : s.Sound policy keyOf P cellKey) {c : ι} {p : LoadPhase β}
    (hc : (s.calls c).isRecording = true) (hp : p.held = none) (hfree : p.isRecording = false)
    (hanswer : ∀ answer, p.answer = some answer → P (keyOf c) answer) :
    ({ s with lock := none }.move c p).Sound policy keyOf P cellKey ∧
      s.cells.length + s.uncached.rows.length < policy.limit := by
  have hlock := (h.lock c).mp hc
  have hroom : s.cells.length + s.uncached.rows.length + 1 ≤ policy.limit := by
    have hroom := h.room
    rw [hlock] at hroom
    exact hroom
  have hcalls := LoadState.calls_move { s with lock := none } c p
  refine ⟨⟨h.distinct, h.mapKey, fun d cell hd => ?_, h.values, h.uncached, fun d answer hd => ?_,
    fun d => ?_, ?_⟩, hroom⟩
  · rcases hcalls d with ⟨-, hself⟩ | ⟨-, hold⟩
    · rw [hself, hp] at hd
      cases hd
    · exact h.held d cell (hold ▸ hd)
  · rcases hcalls d with ⟨rfl, hself⟩ | ⟨-, hold⟩
    · exact hanswer answer (hself ▸ hd)
    · exact h.answers d answer (hold ▸ hd)
  · rcases hcalls d with ⟨-, hself⟩ | ⟨hdc, hold⟩
    · rw [hself, hfree]
      exact ⟨fun hfalse => (by cases hfalse), fun hnone => (by cases hnone)⟩
    · rw [hold]
      refine ⟨fun hrec => ?_, fun hnone => (by cases hnone)⟩
      have hd := (h.lock d).mp hrec
      rw [hlock] at hd
      exact absurd (Option.some.inj hd).symm hdc
  · show s.cells.length + s.uncached.rows.length + 0 ≤ policy.limit
    omega

omit [Fintype ι] [DecidableEq ι] in
/-- More loads. -/
theorem imp (h : s.Sound policy keyOf P cellKey) {Q : κ → β → Prop}
    (hQ : ∀ key answer, P key answer → Q key answer) : s.Sound policy keyOf Q cellKey :=
  ⟨h.distinct, h.mapKey, h.held,
    fun cell answer hv => ⟨(h.values cell answer hv).1,
      fun key hkey => hQ _ _ ((h.values cell answer hv).2 key hkey)⟩,
    fun e he => hQ _ _ (h.uncached e he), fun c answer hc => hQ _ _ (h.answers c answer hc),
    h.lock, h.room⟩

end LoadState.Sound

/-- **One step keeps the invariant**, if the answer of its load satisfies `P`. -/
theorem LoadStep.sound (h : LoadStep policy keyOf s e s') (hs : s.Sound policy keyOf P cellKey)
    (hload : ∀ c answer, (c, .ok answer) ∈ e.loads → P (keyOf c) answer) :
    ∃ cellKey', s'.Sound policy keyOf P cellKey' := by
  cases h with
  | upgraded c w hc hlock hw =>
    refine ⟨cellKey, hs.retain.move (hs.not_recording hlock c) rfl (fun _ hcell => by cases hcell)
      fun answer hanswer => ?_⟩
    obtain rfl := Option.some.inj hanswer
    exact hs.retain.uncached _ (KeyedTable.get?_eq_some.mp hw)
  | found c cell hc hlock hw hcell =>
    refine ⟨cellKey, hs.retain.move (hs.not_recording hlock c) rfl (fun cell' hcell' => ?_)
      fun _ hanswer => by cases hanswer⟩
    obtain rfl := Option.some.inj hcell'
    exact .inr ⟨hs.distinct.lt _ hcell, hs.mapKey _ hcell⟩
  | inserted c kept hc hlock hw hnew hroom =>
    -- no one records an answer, so that the room of the lock is free
    have hsub := makeRoom_sublist hroom
    refine ⟨_, (hs.shrink hsub List.filter_sublist).insert (c := c) (hs.not_recording hlock c)
      (fun cell hcell => hnew cell (hsub.subset hcell)) ?_⟩
    have hbound := hs.retain.room
    rw [show s.retain.lock = none from hlock] at hbound
    change s.cells.length + s.retain.uncached.rows.length + 0 ≤ policy.limit at hbound
    have hlt := makeRoom_length hroom (by omega)
    show kept.length + s.retain.uncached.rows.length + s.lock.toList.length < policy.limit
    rw [hlock]
    show kept.length + s.retain.uncached.rows.length + 0 < policy.limit
    omega
  | exhausted c e hc hlock hw hnew hroom =>
    exact ⟨cellKey, hs.retain.move (hs.not_recording hlock c) rfl (fun _ hcell => by cases hcell)
      fun _ hanswer => by cases hanswer⟩
  | reused c cell answer hc hv =>
    refine ⟨cellKey, hs.move (by rw [hc]; rfl) rfl (fun cell' hcell => .inl (by rw [hc]; exact hcell))
      fun answer' hanswer => ?_⟩
    obtain rfl := Option.some.inj hanswer
    exact (hs.values cell answer hv).2 _ (hs.held c cell (by rw [hc]; rfl)).2
  | started c cell hc hv hfree =>
    exact ⟨cellKey, hs.move (by rw [hc]; rfl) rfl
      (fun cell' hcell => .inl (by rw [hc]; exact hcell)) fun _ hanswer => by cases hanswer⟩
  | evicted e hlock hfind =>
    exact ⟨cellKey, hs.shrink (removeKey_sublist _) (.refl _)⟩
  | loaded c cell result hc =>
    have hP : ∀ answer, result = .ok answer → P (keyOf c) answer := by
      rintro answer rfl
      exact hload c answer (List.mem_singleton_self _)
    -- the cell that was loaded has the key of this call
    obtain ⟨hlt, hkey⟩ := hs.held c cell (by rw [hc]; rfl)
    have hset : (s.setCell cell result).Sound policy keyOf P cellKey := by
      refine hs.setCell hlt fun key answer hcell ha => ?_
      rw [← Option.some.inj (hkey.symm.trans hcell)]
      exact hP answer ha
    have hcalls : (s.setCell cell result).calls c = .loading cell := by
      cases result <;> exact hc
    refine ⟨cellKey, hset.move (by rw [hcalls]; rfl) rfl
      (fun cell' hcell => .inl (by rw [hcalls]; exact hcell)) fun answer ha => ?_⟩
    cases result with
    | error _ => cases ha
    | ok answer' => exact hP answer (congrArg _ (Option.some.inj ha))
  | kept c cell result hc hbook =>
    refine ⟨cellKey, hs.move (by rw [hc]; rfl) rfl (fun _ hcell => by cases hcell)
      fun answer ha => hs.answers c answer ?_⟩
    rw [hc]
    cases result <;> exact ha
  | removed c cell result hc hlock hbook hcell =>
    refine ⟨cellKey, (hs.shrink (removeKey_sublist _) (.refl _)).move (hs.not_recording hlock c) rfl
      (fun _ hcell => by cases hcell) fun answer ha => hs.answers c answer ?_⟩
    rw [hc]
    cases result <;> exact ha
  | moved c cell answer hc hlock hbook hcell hone =>
    have hP : P (keyOf c) answer := hs.answers c answer (by rw [hc]; rfl)
    -- the entry leaves the map before its answer is remembered
    have hless := removeKey_length hcell
    have hbound := hs.room
    refine ⟨cellKey, ((hs.shrink (removeKey_sublist _) (.refl _)).remember hP ?_).move
      (hs.not_recording hlock c) rfl (fun _ hcell => by cases hcell) fun answer' ha => ?_⟩
    · show (removeKey (keyOf c) s.cells).length + s.uncached.rows.length + s.lock.toList.length <
        policy.limit
      omega
    · obtain rfl := Option.some.inj ha
      exact hP
  | recording c cell answer hc hlock hbook hcell htwo =>
    exact ⟨cellKey, hs.awaitLock hc hlock hcell⟩
  | recorded c cell answer hc =>
    have hP : P (keyOf c) answer := hs.answers c answer (by rw [hc]; rfl)
    obtain ⟨hfree, hbound⟩ := hs.unlock (c := c) (p := .answered (.ok answer)) (by rw [hc]; rfl) rfl
      rfl fun answer' ha => Option.some.inj ha ▸ hP
    exact ⟨cellKey, hfree.remember hP hbound⟩
  | dropped c hc =>
    exact ⟨cellKey, hs.move hc rfl (fun _ hcell => by cases hcell) fun _ ha => by cases ha⟩
  | droppedRecording c hc =>
    exact ⟨cellKey, (hs.unlock hc rfl rfl fun _ ha => by cases ha).1⟩
  | released key w hw =>
    refine ⟨cellKey, ⟨hs.distinct, hs.mapKey, hs.held, hs.values, fun e he => ?_, hs.answers,
      hs.lock, ?_⟩⟩
    · rcases KeyedTable.mem_put he with he | rfl
      · exact hs.uncached e he
      · exact hs.uncached (key, w) (KeyedTable.get?_eq_some.mp hw)
    · show s.cells.length + (s.uncached.put key _).rows.length + _ ≤ _
      rw [KeyedTable.length_put_of_some hw]
      exact hs.room

/-! ### Cells that are held -/

omit [DecidableEq ι] in
/-- A cell that a caller holds is not the one that is removed. -/
theorem LoadState.Sound.removeKey_held (hs : s.Sound policy keyOf P cellKey) {entry gone : κ × ℕ}
    (hentry : entry ∈ s.cells) {c : ι} (hc : (s.calls c).held = some entry.2) (hgone : gone ∈ s.cells)
    (hremovable : s.removable gone.2) : entry ∈ removeKey gone.1 s.cells := by
  refine List.mem_filter.mpr ⟨hentry, decide_eq_true fun hkey => ?_⟩
  have hcell : entry.2 = gone.2 := by
    refine hs.distinct.cell_unique (k := entry.1) hentry ?_
    rw [hkey]
    exact hgone
  have htwo : 2 ≤ strongCount s.cells (fun c => (s.calls c).held) entry.2 :=
    two_le_strongCount hentry hc
  have hone : strongCount s.cells (fun c => (s.calls c).held) gone.2 = 1 := of_decide_eq_true hremovable
  rw [hcell] at htwo
  omega

omit [DecidableEq ι] in
/-- **Making room removes no cell that a caller holds.** -/
theorem makeRoom_held (hs : s.Sound policy keyOf P cellKey) {limit : ℕ} {kept : List (κ × ℕ)}
    (hroom : makeRoom s.cells limit s.removable = .ok kept) {entry : κ × ℕ} (hentry : entry ∈ s.cells)
    {c : ι} (hc : (s.calls c).held = some entry.2) : entry ∈ kept := by
  rcases makeRoom_cases hroom with ⟨-, rfl⟩ | ⟨gone, hgone, hremovable, rfl⟩
  · exact hentry
  · exact hs.removeKey_held hentry hc hgone hremovable

theorem LoadStep.room_held (h : LoadStep policy keyOf s .room s') (hs : s.Sound policy keyOf P cellKey)
    {entry : κ × ℕ} (hentry : entry ∈ s.cells) {c : ι} (hc : (s.calls c).held = some entry.2) :
    entry ∈ s'.cells := by
  cases h with
  | inserted d kept hd hlock hw hnew hroom =>
    refine (insertKey_perm _).mem_iff.mpr (List.mem_cons_of_mem _ ?_)
    exact makeRoom_held hs hroom hentry hc
  | exhausted => exact hentry
  | evicted gone hlock hfind =>
    refine hs.removeKey_held hentry hc (List.mem_of_find?_eq_some hfind) ?_
    exact List.find?_some (p := fun e : κ × ℕ => s.removable e.2) hfind

/-! ### Runs -/

variable {log : List (ι × Except ChainError β)}

theorem LoadRun.sound (h : LoadRun policy keyOf log s) :
    ∃ cellKey, s.Sound policy keyOf (Loaded keyOf log) cellKey := by
  induction h with
  | start =>
    refine ⟨fun _ => none, .nil 0, fun e he => ?_, fun c cell hc => ?_, fun cell answer hv => ?_,
      fun e he => ?_, fun c answer hc => ?_, fun c => ⟨fun hc => ?_, fun hc => ?_⟩, Nat.zero_le _⟩
    · cases he
    · cases hc
    · cases hv
    · cases he
    · cases hc
    · cases hc
    · cases hc
  | @step log s s' e hrun hstep ih =>
    obtain ⟨cellKey, hs⟩ := ih
    have hmore := hs.imp (Q := Loaded keyOf (log ++ e.loads)) fun key answer ⟨d, hd, hmem⟩ =>
      ⟨d, hd, List.mem_append_left _ hmem⟩
    exact hstep.sound hmore fun c answer hmem => ⟨c, rfl, List.mem_append_right _ hmem⟩

/-- What a cache with this limit promises in a state of a run with these loads. -/
structure LoadState.Bounded (limit : ℕ) (policy : LoadPolicy β) (keyOf : ι → κ)
    (log : List (ι × Except ChainError β)) (s : LoadState ι κ β) : Prop where
  entries : s.cells.length + s.uncached.rows.length ≤ limit
  /-- The limit less the weak entries that are retained is no underflow. -/
  subtraction : s.retain.uncached.rows.length ≤ limit
  /-- A section that makes room keeps every cell that a caller holds. -/
  room : ∀ s', LoadStep policy keyOf s .room s' → ∀ entry ∈ s.cells,
    ∀ c, (s.calls c).held = some entry.2 → entry ∈ s'.cells
  /-- What a cell of the map holds is what a load of its key answered. -/
  stored : ∀ entry ∈ s.cells, ∀ answer, s.values entry.2 = some answer →
    Loaded keyOf log entry.1 answer
  uncached : ∀ entry ∈ s.uncached.rows, Loaded keyOf log entry.1 entry.2.answer

theorem LoadRun.bounded (h : LoadRun policy keyOf log s) :
    s.Bounded policy.limit policy keyOf log := by
  obtain ⟨cellKey, hs⟩ := h.sound
  have hroom := hs.room
  have hretain := hs.retain.room
  refine ⟨by omega, by omega, fun s' hstep entry hentry c hc => hstep.room_held hs hentry hc,
    fun entry hentry answer hv => ?_, hs.uncached⟩
  exact (hs.values _ answer hv).2 _ (hs.mapKey entry hentry)

/-- **The chain reader's caches are bounded.**  In every run of the response cache there are at
most 128 entries, in every run of the block cache at most 64; the subtractions for the weak
entries do not underflow, making room keeps every cell that is held, and what is stored is the
answer of a load that succeeded. -/
theorem chain_caches_bounded {ν : Type} (keyOf : ι → κ) :
    (∀ log s, LoadRun (responseCache ν) keyOf log s →
      s.Bounded 128 (responseCache ν) keyOf log) ∧
    ∀ log s, LoadRun blockCache keyOf log s → s.Bounded 64 blockCache keyOf log :=
  ⟨fun _ _ h => h.bounded, fun _ _ h => h.bounded⟩

/-- A response whose load fails leaves no cell, and a large block becomes a weak entry that the
second call takes. -/
theorem chain_caches_bounded_twoCalls :
    (∃ (log : List (Fin 2 × Except ChainError (CachedResponse ℕ))) (s : LoadState (Fin 2) ℕ _),
      LoadRun (responseCache ℕ) (fun _ => 7) log s ∧ s.cells = [] ∧
        s.Bounded 128 (responseCache ℕ) (fun _ => 7) log) ∧
    ∃ (log : List (Fin 2 × Except ChainError LoadedBlock)) (s : LoadState (Fin 2) ℕ _),
      LoadRun blockCache (fun _ => 7) log s ∧ s.uncached.rows.length = 1 ∧
        (∃ answer, s.calls 1 = .answered (.ok answer)) ∧
        s.Bounded 64 blockCache (fun _ => 7) log := by
  have responses := (@LoadRun.start (Fin 2) ℕ _ _ _ _ (responseCache ℕ) fun _ => 7)
    |>.step (.inserted _ 0 [] rfl rfl rfl (fun _ h => by cases h) rfl)
    |>.step (.started _ 0 0 rfl rfl (Fin.forall_fin_two.mpr ⟨fun h => (by cases h), fun h => (by cases h)⟩))
    |>.step (.loaded _ 0 0 (.error .disconnected) rfl)
    |>.step (.removed _ 0 0 _ rfl rfl rfl (List.mem_singleton_self _))
  let hash : ChainHash := ⟨List.replicate 32 0, List.length_replicate⟩
  let block : DecodedBlock := ⟨hash, ⟨hash, .ok 3⟩, ⟨3, none, 0, none, [], none⟩, none, none, hash⟩
  have blocks := (@LoadRun.start (Fin 2) ℕ _ _ _ _ blockCache fun _ => 7)
    |>.step (.inserted _ 0 [] rfl rfl rfl (fun _ h => by cases h) rfl)
    |>.step (.started _ 0 0 rfl rfl (Fin.forall_fin_two.mpr ⟨fun h => (by cases h), fun h => (by cases h)⟩))
    |>.step (.loaded _ 0 0 (.ok ⟨block, true⟩) rfl)
    |>.step (.recording _ 0 0 ⟨block, true⟩ rfl rfl rfl (List.mem_singleton_self _) rfl)
    |>.step (.recorded _ 0 0 ⟨block, true⟩ rfl)
    |>.step (.upgraded _ 1 ⟨⟨block, true⟩, true⟩ rfl rfl rfl)
  exact ⟨⟨_, _, responses, rfl, (chain_caches_bounded _).1 _ _ responses⟩,
    _, _, blocks, rfl, ⟨_, rfl⟩, (chain_caches_bounded (ν := ℕ) _).2 _ _ blocks⟩

end Dashboard

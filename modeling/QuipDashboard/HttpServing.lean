/-
Serving the HTTP API under load.

The model of `router` in `quip-dashboard/src/http/mod.rs`, of `run` in `http/admission.rs`,
of `encode` in `http/response.rs`, and of `get` in `http/telemetry.rs`: three admission
pools, one budget for the bytes of all responses, and a snapshot that is built by one
request at a time and served for a second.  A request can be dropped at any time, by its
client or by its timeout.

* `Inv` — slots, mutex and budget account for what is in flight;
* `Step.inv`, `Step.guarantee` — what one step keeps, and what it may do;
* `http_serving` — **in every run the pools, the single build and the budget hold, no
  request is refused without need, and no snapshot is served that is older than a second**.
-/
import Mathlib.Algebra.BigOperators.Group.Finset.Basic
import Mathlib.Algebra.Order.BigOperators.Group.Finset
import QuipDashboard.History

namespace Dashboard

namespace HttpServing

open History

/-! ### The server -/

/-- The admission pools. -/
inductive Pool where
  | data
  | health
  | proxy
  deriving DecidableEq

/-- Their permits. -/
def Pool.limit : Pool → ℕ
  | data => 8
  | health => 2
  | proxy => 4

/-- The routes, as far as they are served differently. -/
inductive Route where
  | telemetry
  /-- A route that encodes what it read from the store or from the local miner. -/
  | read
  /-- `/api/health` and `/api/live`. -/
  | health
  /-- `/api/node/{account}/live`. -/
  | nodeLive
  deriving DecidableEq

/-- The pool that the middleware chooses. -/
def Route.pool : Route → Pool
  | telemetry | read => .data
  | health => .health
  | nodeLive => .proxy

/-- The response's bytes, with what they hold of the budget: `Charged`. -/
structure Payload where
  id : ℕ
  size : ℕ
  builtAt : ℕ
  deriving DecidableEq

/-- How far a request is. -/
inductive Phase where
  /-- Its handler runs, or waits for the mutex. -/
  | handling
  /-- It holds the mutex and builds the snapshot. -/
  | building
  /-- Its response is sent, which owns some bytes. -/
  | sending (payload : Option Payload)

/-- An admitted request, with the permit that it holds. -/
structure Request where
  route : Route
  phase : Phase

/-- It builds the snapshot. -/
def Request.builds (q : Request) : Bool :=
  match q.phase with
  | .building => true
  | _ => false

@[simp] theorem builds_handling (route : Route) : Request.builds ⟨route, .handling⟩ = false := rfl

@[simp] theorem builds_building (route : Route) : Request.builds ⟨route, .building⟩ = true := rfl

@[simp] theorem builds_sending (route : Route) (payload : Option Payload) :
    Request.builds ⟨route, .sending payload⟩ = false := rfl

/-- The bytes that its body owns. -/
def Request.payload (q : Request) : Option Payload :=
  match q.phase with
  | .sending payload => payload
  | _ => none

@[simp] theorem payload_handling (route : Route) : Request.payload ⟨route, .handling⟩ = none := rfl

@[simp] theorem payload_building (route : Route) : Request.payload ⟨route, .building⟩ = none := rfl

@[simp] theorem payload_sending (route : Route) (payload : Option Payload) :
    Request.payload ⟨route, .sending payload⟩ = payload := rfl

/-- `HttpState`, its pools and its requests. -/
structure Server where
  requests : List Request
  /-- The permits that are left. -/
  slots : Pool → ℕ
  /-- The bytes that the connections have taken from their bodies. -/
  buffers : List Payload
  /-- `SnapshotCache`: until when it is served, and its bytes. -/
  cache : Option (ℕ × Payload)
  locked : Bool
  /-- `response_budget`. -/
  budget : ℕ
  next : ℕ
  now : ℕ

/-- `BYTES`. -/
def bytes : ℕ := 2 * 1024 * 1024

/-- How long a snapshot is served, in milliseconds. -/
def snapshotTtl : ℕ := 1000

def Server.init (now : ℕ) : Server := ⟨[], Pool.limit, [], none, false, bytes, 0, now⟩

/-- The owners of bytes: the cache, the bodies and the connections. -/
def Server.payloads (s : Server) : List Payload :=
  s.cache.toList.map Prod.snd ++ (s.requests.filterMap Request.payload ++ s.buffers)

/-- The bytes that are owned. -/
def Server.retained (s : Server) : ℕ := ∑ p ∈ s.payloads.toFinset, p.size

/-- The requests of a pool. -/
def Server.inFlight (s : Server) (pool : Pool) : ℕ := s.requests.countP fun q => q.route.pool = pool

/-- An owner lets some bytes go; the last one gives their permits back. -/
def Server.release (s : Server) : Option Payload → Server
  | none => s
  | some p => { s with budget := s.budget + if p ∈ s.payloads then 0 else p.size }

/-- `encode`, which charges the bytes. -/
def Server.encode (s : Server) (size : ℕ) : Server × Payload :=
  ({ s with budget := s.budget - size, next := s.next + 1 }, ⟨s.next, size, s.now⟩)

@[simp] theorem encode_buffers (s : Server) (size : ℕ) : (s.encode size).1.buffers = s.buffers := rfl

/-- A request is gone: its permit comes back, and so does the mutex. -/
def Server.drop (s : Server) (l r : List Request) (q : Request) : Server :=
  { s with
    requests := l ++ r
    slots := Function.update s.slots q.route.pool (s.slots q.route.pool + 1)
    locked := if q.builds then false else s.locked }

/-- What happens, with what it is judged by. -/
inductive Event where
  | admitted (route : Route)
  /-- 503, and how many requests of the pool are in flight. -/
  | refused (pool : Pool) (inFlight : ℕ)
  | served (now : ℕ) (payload : Payload)
  | missed
  /-- A snapshot is encoded, and served. -/
  | built (payload : Payload)
  /-- `capacity()` of `encode`, for so many bytes, when so many are owned. -/
  | overCapacity (size retained : ℕ)
  | failed
  | taken
  | flushed
  | closed
  | tick

/-- One step of the server. -/
inductive Step : Server → Event → Server → Prop
  | accept {s : Server} (route : Route) (h : 0 < s.slots route.pool) : Step s (.admitted route)
      { s with
        requests := s.requests ++ [⟨route, .handling⟩]
        slots := Function.update s.slots route.pool (s.slots route.pool - 1) }
  | refuse {s : Server} (pool : Pool) (h : s.slots pool = 0) :
      Step s (.refused pool (s.inFlight pool)) s
  /-- The snapshot is fresh. -/
  | hit {s : Server} {l r : List Request} {expires : ℕ} {p : Payload}
      (hq : s.requests = l ++ ⟨.telemetry, .handling⟩ :: r) (hlock : s.locked = false)
      (hcache : s.cache = some (expires, p)) (hfresh : s.now < expires) : Step s (.served s.now p)
        { s with requests := l ++ ⟨.telemetry, .sending (some p)⟩ :: r }
  /-- It is not, and this request builds another one. -/
  | miss {s : Server} {l r : List Request} (hq : s.requests = l ++ ⟨.telemetry, .handling⟩ :: r)
      (hlock : s.locked = false) (hstale : ∀ expires p, s.cache = some (expires, p) → expires ≤ s.now) :
      Step s .missed
        (Server.release
          { s with requests := l ++ ⟨.telemetry, .building⟩ :: r, cache := none, locked := true }
          (s.cache.map Prod.snd))
  | built {s : Server} {l r : List Request} {size : ℕ}
      (hq : s.requests = l ++ ⟨.telemetry, .building⟩ :: r) (hsize : size ≤ bytes) (hbudget : size ≤ s.budget) :
      Step s (.built (s.encode size).2)
        { (s.encode size).1 with
          requests := l ++ ⟨.telemetry, .sending (some (s.encode size).2)⟩ :: r
          cache := some (s.now + snapshotTtl, (s.encode size).2)
          locked := false }
  | encoded {s : Server} {l r : List Request} {route : Route} {size : ℕ}
      (hq : s.requests = l ++ ⟨route, .handling⟩ :: r) (hroute : route = .read ∨ route = .nodeLive)
      (hsize : size ≤ bytes) (hbudget : size ≤ s.budget) : Step s (.served s.now (s.encode size).2)
        { (s.encode size).1 with requests := l ++ ⟨route, .sending (some (s.encode size).2)⟩ :: r }
  /-- There is no room for the bytes. -/
  | overCapacity {s : Server} {l r : List Request} {q : Request} {size : ℕ} (hq : s.requests = l ++ q :: r)
      (hphase : q.phase = .building ∨ (q.route = .read ∨ q.route = .nodeLive) ∧ q.phase = .handling) (hsize : bytes < size ∨ s.budget < size) :
      Step s (.overCapacity size s.retained)
        { s with
          requests := l ++ ⟨q.route, .sending none⟩ :: r
          locked := if q.builds then false else s.locked }
  /-- An error, a timeout, or a response that is not charged. A handler whose read of the store
  is over its own capacity answers `capacity()` too, and is one of these. -/
  | fail {s : Server} {l r : List Request} {q : Request} (hq : s.requests = l ++ q :: r)
      (hphase : q.phase = .handling ∨ q.phase = .building) : Step s .failed
        { s with
          requests := l ++ ⟨q.route, .sending none⟩ :: r
          locked := if q.builds then false else s.locked }
  /-- The connection takes the bytes from the body. -/
  | take {s : Server} {l r : List Request} {route : Route} {p : Payload}
      (hq : s.requests = l ++ ⟨route, .sending (some p)⟩ :: r) : Step s .taken
        { s with requests := l ++ ⟨route, .sending none⟩ :: r, buffers := p :: s.buffers }
  /-- It has written them. -/
  | flush {s : Server} {l r : List Payload} {p : Payload} (hp : s.buffers = l ++ p :: r) :
      Step s .flushed (Server.release { s with buffers := l ++ r } (some p))
  /-- A body ends, or its request is dropped. -/
  | close {s : Server} {l r : List Request} {q : Request} (hq : s.requests = l ++ q :: r) :
      Step s .closed ((s.drop l r q).release q.payload)
  | tick {s : Server} (time : ℕ) : Step s .tick { s with now := s.now + time }

/-! ### The invariant -/

/-- Slots, mutex and cache account for what is in flight. -/
structure Accounts (s : Server) : Prop where
  slots : ∀ pool, s.slots pool + s.inFlight pool = pool.limit
  lock : s.requests.countP Request.builds = if s.locked then 1 else 0
  empty : s.locked = true → s.cache = none
  cache : ∀ expires p, s.cache = some (expires, p) → expires = p.builtAt + snapshotTtl ∧ p.builtAt ≤ s.now
  ids : ∀ p ∈ s.payloads, p.id < s.next

/-- So does the budget. -/
structure Inv (s : Server) : Prop extends Accounts s where
  budget : s.budget + s.retained = bytes

variable {s s' : Server} {e : Event}

theorem mem_payloads {p : Payload} : p ∈ s.payloads ↔
    (∃ expires, s.cache = some (expires, p)) ∨
      (∃ q ∈ s.requests, q.payload = some p) ∨ p ∈ s.buffers := by
  rw [Server.payloads, List.mem_append, List.mem_append, List.mem_filterMap]
  refine or_congr_left ?_
  cases s.cache with
  | none => simp
  | some c =>
    obtain ⟨expires, p'⟩ := c
    simp [eq_comm]

theorem retained_congr (h : ∀ p, p ∈ s.payloads ↔ p ∈ s'.payloads) : s.retained = s'.retained := by
  unfold Server.retained
  congr 1
  ext p
  simpa using h p

/-- What is owned once more weighs what it weighs, unless it was owned already. -/
theorem retained_insert {p : Payload} (h : ∀ x, x ∈ s.payloads ↔ x = p ∨ x ∈ s'.payloads) :
    s.retained = s'.retained + if p ∈ s'.payloads then 0 else p.size := by
  have hset : s.payloads.toFinset = insert p s'.payloads.toFinset := by
    ext x
    simpa using h x
  unfold Server.retained
  rw [hset]
  by_cases hp : p ∈ s'.payloads
  · rw [if_pos hp, Finset.insert_eq_of_mem (by simpa using hp), Nat.add_zero]
  · rw [if_neg hp, Finset.sum_insert (by simpa using hp), Nat.add_comm]

@[simp] theorem payloads_release (x : Option Payload) : (s.release x).payloads = s.payloads := by
  cases x <;> rfl

theorem Inv.init (now : ℕ) : Inv (.init now) where
  slots _ := rfl
  lock := rfl
  empty h := by cases h
  cache _ _ h := by cases h
  ids p h := by simp [Server.payloads, Server.init] at h
  budget := rfl

theorem Accounts.release (h : Accounts s) (x : Option Payload) : Accounts (s.release x) := by
  cases x with
  | none => exact h
  | some p => exact ⟨h.slots, h.lock, h.empty, h.cache, h.ids⟩

/-- Without a request, the mutex is held if another one holds it. -/
theorem Accounts.unlock (hs : Accounts s) {l r : List Request} {q : Request} (hq : s.requests = l ++ q :: r) :
    l.countP Request.builds + r.countP Request.builds = if (if q.builds then false else s.locked) then 1 else 0 := by
  have h := hs.lock
  rw [hq, List.countP_append, List.countP_cons] at h
  cases hb : q.builds with
  | true =>
    rw [hb, if_pos rfl] at h
    have : (if s.locked = true then 1 else 0) ≤ 1 := by split <;> omega
    simp only [if_pos, Bool.false_eq_true, if_false]
    omega
  | false =>
    rw [hb] at h
    simpa using h

/-- The request that builds holds the mutex. -/
theorem Accounts.locked_of_builds (hs : Accounts s) {l r : List Request} {q : Request}
    (hq : s.requests = l ++ q :: r) (hb : q.builds = true) : s.locked = true := by
  have h := hs.lock
  rw [hq, List.countP_append, List.countP_cons, hb] at h
  cases hl : s.locked with
  | true => rfl
  | false => simp [hl] at h

/-- What an owner lets go is owned by others, or is given back. -/
theorem budget_release {p : Payload} (hb : s.budget + s.retained = bytes) (hs : s'.budget = s.budget)
    (h : ∀ x, x ∈ s.payloads ↔ x = p ∨ x ∈ s'.payloads) :
    (s'.release (some p)).budget + (s'.release (some p)).retained = bytes := by
  have hret : (s'.release (some p)).retained = s'.retained := retained_congr (by simp)
  rw [hret, ← hb, retained_insert h]
  show s'.budget + _ + s'.retained = _
  rw [hs]
  omega

/-- A request apart from the others. -/
theorem mem_payloads_remove {l r : List Request} {q : Request} (hq : s.requests = l ++ q :: r)
    (hs : s'.requests = l ++ r) (hcache : s'.cache = s.cache) (hbuffers : s'.buffers = s.buffers)
    (x : Payload) : x ∈ s.payloads ↔ q.payload = some x ∨ x ∈ s'.payloads := by
  simp only [mem_payloads, hcache, hbuffers, hq, hs, List.mem_append, List.mem_cons, or_and_right,
    exists_or, exists_eq_left, or_assoc, or_left_comm]

/-- A request without a body goes on: what it owns then is added. -/
theorem mem_payloads_replace {l r : List Request} {q q' : Request} (hq : s.requests = l ++ q :: r)
    (hs : s'.requests = l ++ q' :: r) (hcache : s'.cache = s.cache) (hbuffers : s'.buffers = s.buffers)
    (hnone : q.payload = none) (x : Payload) : x ∈ s'.payloads ↔ q'.payload = some x ∨ x ∈ s.payloads := by
  have hwithout : ∀ x, x ∈ s.payloads ↔ q.payload = some x ∨ x ∈ Server.payloads { s' with requests := l ++ r } :=
    mem_payloads_remove hq rfl hcache hbuffers
  have hwith : ∀ x, x ∈ s'.payloads ↔ q'.payload = some x ∨ x ∈ Server.payloads { s' with requests := l ++ r } :=
    mem_payloads_remove hs rfl (by rfl) (by rfl)
  rw [hwith, hwithout, hnone]
  simp only [reduceCtorEq, false_or]

/-- A new owner of bytes that are charged. -/
theorem budget_encode {size : ℕ} (hs : Inv s) (hsize : size ≤ s.budget)
    (hbudget : s'.budget = s.budget - size)
    (h : ∀ x, x ∈ s'.payloads ↔ x = (s.encode size).2 ∨ x ∈ s.payloads) :
    s'.budget + s'.retained = bytes := by
  have hnew : (s.encode size).2 ∉ s.payloads := fun hmem => Nat.lt_irrefl _ (hs.ids _ hmem)
  rw [retained_insert h, if_neg hnew, hbudget, ← hs.budget]
  show s.budget - size + (s.retained + size) = _
  omega

theorem Accounts.slots_replace (hs : Accounts s) {l r : List Request} {q q' : Request}
    (hq : s.requests = l ++ q :: r) (hq' : s'.requests = l ++ q' :: r) (hroute : q'.route = q.route)
    (hslots : s'.slots = s.slots) (pool : Pool) : s'.slots pool + s'.inFlight pool = pool.limit := by
  have h := hs.slots pool
  simpa [Server.inFlight, hq, hq', hroute, hslots, List.countP_cons] using h

theorem Accounts.cache_of_unlock (hs : Accounts s) {q : Request}
    (h : (if q.builds then false else s.locked) = true) : s.cache = none := by
  cases hb : q.builds with
  | true => rw [hb, if_pos rfl] at h; cases h
  | false => exact hs.empty (by simpa [hb] using h)

/-- A request ends without bytes. -/
theorem Inv.finish (hs : Inv s) {l r : List Request} {q : Request} (hq : s.requests = l ++ q :: r)
    (hphase : q.phase = .handling ∨ q.phase = .building) : Inv
      { s with
        requests := l ++ ⟨q.route, .sending none⟩ :: r
        locked := if q.builds then false else s.locked } := by
  have hnone : q.payload = none := by
    rcases hphase with h | h <;> simp [Request.payload, h]
  have hmem : ∀ x, x ∈ Server.payloads
      { s with
        requests := l ++ ⟨q.route, .sending none⟩ :: r
        locked := if q.builds then false else s.locked } ↔ x ∈ s.payloads := by
    intro x
    refine Iff.trans (mem_payloads_replace hq rfl (by rfl) (by rfl) hnone x) ?_
    simp
  refine ⟨⟨hs.slots_replace hq rfl rfl rfl, ?_, hs.cache_of_unlock, hs.cache,
    fun x hx => hs.ids x ((hmem x).1 hx)⟩, ?_⟩
  · simpa [List.countP_cons] using hs.unlock hq
  · rw [retained_congr hmem]
    exact hs.budget

theorem Step.inv (hs : Inv s) (h : Step s e s') : Inv s' := by
  cases h with
  | accept route hslot =>
    have hmem : ∀ x, x ∈ s.payloads ↔ x ∈ Server.payloads { s with
        requests := s.requests ++ [⟨route, .handling⟩]
        slots := Function.update s.slots route.pool (s.slots route.pool - 1) } := by
      intro x
      simp [mem_payloads, or_and_right, exists_or]
    refine ⟨⟨fun pool => ?_, ?_, hs.empty, hs.cache, fun p hp => hs.ids p ((hmem p).2 hp)⟩, ?_⟩
    · have h := hs.slots pool
      by_cases hpool : pool = route.pool
      · subst hpool
        simp [Server.inFlight] at h ⊢
        omega
      · have hne : route.pool ≠ pool := fun h => hpool h.symm
        simpa [Server.inFlight, hpool, hne] using h
    · simpa using hs.lock
    · rw [← retained_congr hmem]
      exact hs.budget
  | refuse pool hslot => exact hs
  | @hit l r expires p hq hlock hcache hfresh =>
    have hmem : ∀ x, x ∈ Server.payloads { s with
        requests := l ++ ⟨.telemetry, .sending (some p)⟩ :: r } ↔ x ∈ s.payloads := by
      intro x
      refine Iff.trans (mem_payloads_replace hq rfl (by rfl) (by rfl) rfl x) ⟨?_, .inr⟩
      rintro (h | h)
      · cases h
        exact mem_payloads.2 (.inl ⟨expires, hcache⟩)
      · exact h
    refine ⟨⟨hs.slots_replace hq rfl rfl rfl, ?_, hs.empty, hs.cache,
      fun x hx => hs.ids x ((hmem x).1 hx)⟩, ?_⟩
    · simpa [hq, List.countP_cons] using hs.lock
    · rw [retained_congr hmem]
      exact hs.budget
  | @miss l r hq hlock hstale =>
    have hmem : ∀ x, x ∈ s.payloads ↔ (∃ expires, s.cache = some (expires, x)) ∨ x ∈ Server.payloads { s with
        requests := l ++ ⟨.telemetry, .building⟩ :: r, cache := none, locked := true } := by
      intro x
      simp [mem_payloads, hq, or_and_right, exists_or]
    have haccounts : Accounts { s with
        requests := l ++ ⟨.telemetry, .building⟩ :: r, cache := none, locked := true } := by
      refine ⟨hs.slots_replace hq rfl rfl rfl, ?_, fun _ => rfl, by simp,
        fun x hx => hs.ids x ((hmem x).2 (.inr hx))⟩
      have h := hs.unlock hq
      rw [builds_handling, hlock] at h
      simp only [List.countP_append, List.countP_cons, builds_building, Bool.false_eq_true, if_false,
        if_true] at h ⊢
      omega
    refine ⟨haccounts.release _, ?_⟩
    cases hcache : s.cache with
    | none =>
      have hret := retained_congr fun x => (hmem x).trans (or_iff_right (by simp [hcache]))
      exact (congrArg (s.budget + ·) hret).symm.trans hs.budget
    | some c =>
      refine budget_release hs.budget rfl fun x => (hmem x).trans (or_congr_left ?_)
      rw [hcache]
      obtain ⟨expires, p⟩ := c
      simp [eq_comm]
  | @built l r size hq hsize hbudget =>
    have hlock := hs.locked_of_builds hq rfl
    have hmem : ∀ x, x ∈ Server.payloads { (s.encode size).1 with
        requests := l ++ ⟨.telemetry, .sending (some (s.encode size).2)⟩ :: r
        cache := some (s.now + snapshotTtl, (s.encode size).2)
        locked := false } ↔ x = (s.encode size).2 ∨ x ∈ s.payloads := by
      intro x
      simp only [mem_payloads, hq, hs.empty hlock]
      simp [or_and_right, exists_or, or_assoc, or_left_comm, or_self_left, eq_comm]
    refine ⟨⟨hs.slots_replace hq rfl rfl rfl, ?_, by simp, fun expires p h => ?_, fun x hx => ?_⟩, ?_⟩
    · simpa [List.countP_cons] using hs.unlock hq
    · cases h
      exact ⟨rfl, Nat.le_refl _⟩
    · rcases (hmem x).1 hx with rfl | hx
      · exact Nat.lt_succ_self _
      · exact Nat.lt_succ_of_lt (hs.ids x hx)
    · exact budget_encode hs hbudget rfl hmem
  | @encoded l r route size hq hroute hsize hbudget =>
    have hmem : ∀ x, x ∈ Server.payloads { (s.encode size).1 with
        requests := l ++ ⟨route, .sending (some (s.encode size).2)⟩ :: r } ↔
          x = (s.encode size).2 ∨ x ∈ s.payloads := by
      intro x
      refine Iff.trans (mem_payloads_replace hq rfl (by rfl) (by rfl) rfl x) (or_congr_left ?_)
      simp [eq_comm]
    refine ⟨⟨hs.slots_replace hq rfl rfl rfl, ?_, hs.empty, hs.cache, fun x hx => ?_⟩, ?_⟩
    · simpa [hq, List.countP_cons, Server.encode] using hs.lock
    · rcases (hmem x).1 hx with rfl | hx
      · exact Nat.lt_succ_self _
      · exact Nat.lt_succ_of_lt (hs.ids x hx)
    · exact budget_encode hs hbudget rfl hmem
  | @overCapacity l r q size hq hphase hsize =>
    exact hs.finish hq (hphase.symm.imp_left And.right)
  | @fail l r q hq hphase => exact hs.finish hq hphase
  | @take l r route p hq =>
    have hmem : ∀ x, x ∈ Server.payloads { s with
        requests := l ++ ⟨route, .sending none⟩ :: r, buffers := p :: s.buffers } ↔ x ∈ s.payloads := by
      intro x
      simp [mem_payloads, hq, or_and_right, exists_or, or_assoc, or_left_comm, eq_comm]
    refine ⟨⟨hs.slots_replace hq rfl rfl rfl, ?_, hs.empty, hs.cache,
      fun x hx => hs.ids x ((hmem x).1 hx)⟩, ?_⟩
    · simpa [hq, List.countP_cons] using hs.lock
    · rw [retained_congr hmem]
      exact hs.budget
  | @flush l r p hp =>
    have hmem : ∀ x, x ∈ s.payloads ↔ x = p ∨ x ∈ Server.payloads { s with buffers := l ++ r } := by
      intro x
      simp [mem_payloads, hp, or_left_comm]
    have haccounts : Accounts { s with buffers := l ++ r } :=
      ⟨hs.slots, hs.lock, hs.empty, hs.cache, fun x hx => hs.ids x ((hmem x).2 (.inr hx))⟩
    exact ⟨haccounts.release _, budget_release hs.budget rfl hmem⟩
  | @close l r q hq =>
    have hmem : ∀ x, x ∈ s.payloads ↔ q.payload = some x ∨ x ∈ (s.drop l r q).payloads :=
      mem_payloads_remove hq rfl (by rfl) (by rfl)
    have haccounts : Accounts (s.drop l r q) := by
      refine ⟨fun pool => ?_, ?_, hs.cache_of_unlock, hs.cache, fun x hx => hs.ids x ((hmem x).2 (.inr hx))⟩
      · have h := hs.slots pool
        by_cases hpool : pool = q.route.pool
        · subst hpool
          simp [Server.inFlight, Server.drop, hq] at h ⊢
          omega
        · have hne : q.route.pool ≠ pool := fun h => hpool h.symm
          simpa [Server.inFlight, Server.drop, hq, hpool, hne, List.countP_cons] using h
      · rw [Server.drop, List.countP_append]
        exact hs.unlock hq
    refine ⟨haccounts.release _, ?_⟩
    cases hp : q.payload with
    | none =>
      have hret := retained_congr fun x => (hmem x).trans (or_iff_right (by simp [hp]))
      exact (congrArg (s.budget + ·) hret).symm.trans hs.budget
    | some p =>
      refine budget_release hs.budget rfl fun x => (hmem x).trans (or_congr_left ?_)
      rw [hp, Option.some_inj, eq_comm]
  | tick time =>
    refine ⟨⟨hs.slots, hs.lock, hs.empty, fun expires p h => ?_, hs.ids⟩, hs.budget⟩
    obtain ⟨he, hp⟩ := hs.cache expires p h
    exact ⟨he, Nat.le_trans hp (Nat.le_add_right ..)⟩

/-! ### What the events tell -/

/-- An event is as it should be. -/
def Event.Warranted : Event → Prop
  | .refused pool inFlight => inFlight = pool.limit
  | .served now p => p.builtAt ≤ now ∧ now < p.builtAt + snapshotTtl
  | .overCapacity size retained => bytes < size + retained
  | _ => True

/-- The snapshot that an event finishes. -/
def Event.snapshot : Event → Option Payload
  | .built p => some p
  | _ => none

theorem Step.warranted (hs : Inv s) (h : Step s e s') : e.Warranted := by
  cases h with
  | refuse pool hslot =>
    have h := hs.slots pool
    rw [hslot, Nat.zero_add] at h
    exact h
  | hit hq hlock hcache hfresh =>
    obtain ⟨rfl, hp⟩ := hs.cache _ _ hcache
    exact ⟨hp, hfresh⟩
  | encoded => exact ⟨Nat.le_refl _, Nat.lt_add_of_pos_right (by decide)⟩
  | overCapacity hq hphase hsize =>
    have h := hs.budget
    show bytes < _
    omega
  | _ => trivial

theorem release_cache (x : Option Payload) : (s.release x).cache = s.cache := by
  cases x <;> rfl

theorem release_now (x : Option Payload) : (s.release x).now = s.now := by
  cases x <;> rfl

/-- A snapshot stays in the cache until its second is over. -/
theorem Step.spaced (hs : Inv s) {p : Payload}
    (hp : p.builtAt + snapshotTtl ≤ s.now ∨ s.cache = some (p.builtAt + snapshotTtl, p)) (h : Step s e s') :
    p.builtAt + snapshotTtl ≤ s'.now ∨ s'.cache = some (p.builtAt + snapshotTtl, p) := by
  cases h with
  | miss hq hlock hstale =>
    rw [release_cache, release_now]
    exact .inl (hp.elim id (hstale _ _))
  | built hq hsize hbudget =>
    have hempty := hs.empty (hs.locked_of_builds hq rfl)
    rw [hempty] at hp
    exact .inl (hp.resolve_right (by simp))
  | flush => exact hp
  | close =>
    rw [release_cache, release_now]
    exact hp
  | tick time => exact hp.imp_left fun h => Nat.le_trans h (Nat.le_add_right ..)
  | _ => exact hp

/-- The snapshots that a run finishes, latest first, are a second apart. -/
theorem snapshots_spaced {now : ℕ} {es : List Event} (h : Run Step (.init now) es s) :
    (∀ p ∈ es.filterMap Event.snapshot,
      p.builtAt + snapshotTtl ≤ s.now ∨ s.cache = some (p.builtAt + snapshotTtl, p)) ∧
    (es.filterMap Event.snapshot).Pairwise fun later earlier =>
      earlier.builtAt + snapshotTtl ≤ later.builtAt := by
  induction h with
  | nil => simp
  | @snoc es s s' e h hstep ih =>
    have hs := h.invariant (Inv.init now) Step.inv
    have hold := fun p hp => hstep.spaced hs (ih.1 p hp)
    cases hstep with
    | @built l r size hq hsize hbudget =>
      have hempty := hs.empty (hs.locked_of_builds hq rfl)
      refine ⟨fun p hp => ?_, List.pairwise_cons.2 ⟨fun p hp => ?_, ih.2⟩⟩
      · rcases List.mem_cons.1 hp with rfl | hp
        · exact .inr rfl
        · exact hold p hp
      · exact (ih.1 p hp).resolve_right (by simp [hempty])
    | _ => exact ⟨hold, ih.2⟩

/-- **In every run the pools, the single build and the budget hold, no request is refused without
need, no snapshot is served a second after it was encoded, snapshots are finished at least a second
apart, and what is not in flight holds nothing.** -/
theorem http_serving {now : ℕ} {es : List Event} (h : Run Step (.init now) es s) :
    (∀ pool, s.inFlight pool ≤ pool.limit) ∧
    s.requests.countP Request.builds ≤ 1 ∧
    s.retained ≤ bytes ∧
    (∀ e ∈ es, e.Warranted) ∧
    ((es.filterMap Event.snapshot).Pairwise fun later earlier =>
      earlier.builtAt + snapshotTtl ≤ later.builtAt) ∧
    (s.requests = [] → s.buffers = [] →
      s.slots = Pool.limit ∧ s.locked = false ∧ s.budget + (s.cache.elim 0 fun c => c.2.size) = bytes) := by
  have hs : Inv s := h.invariant (Inv.init now) Step.inv
  refine ⟨fun pool => ?_, ?_, ?_, fun e he => ?_, (snapshots_spaced h).2, fun hrequests hbuffers => ⟨?_, ?_, ?_⟩⟩
  · exact Nat.le.intro ((Nat.add_comm _ _).trans (hs.slots pool))
  · rw [hs.lock]
    split <;> decide
  · exact Nat.le.intro ((Nat.add_comm _ _).trans hs.budget)
  · obtain ⟨es', s₁, s₂, hrun, hstep⟩ := h.before he
    exact hstep.warranted (hrun.invariant (Inv.init now) Step.inv)
  · funext pool
    simpa [Server.inFlight, hrequests] using hs.slots pool
  · have h := hs.lock
    rw [hrequests] at h
    cases hl : s.locked with
    | false => rfl
    | true => simp [hl] at h
  · have h := hs.budget
    unfold Server.retained Server.payloads at h
    rw [hrequests, hbuffers] at h
    cases hc : s.cache with
    | none => simpa [hc] using h
    | some c => simpa [hc] using h

/-- One request builds the snapshot, and another one is served it. -/
theorem http_serving_twice : ∃ s : Server,
    Run Step (.init 0) [.served 0 ⟨0, 100, 0⟩, .admitted .telemetry, .built ⟨0, 100, 0⟩, .missed,
      .admitted .telemetry] s ∧
    s.inFlight .data = 2 ∧ (∀ pool, s.inFlight pool ≤ pool.limit) ∧ s.retained ≤ bytes := by
  have haccept := Run.nil.snoc (Step.accept (s := .init 0) .telemetry (by decide))
  have hmiss := haccept.snoc (.miss (l := []) (r := []) rfl rfl (by simp [Server.init]))
  have hbuilt := hmiss.snoc (@Step.built _ [] [] 100 rfl (by decide) (by decide))
  have hsecond := hbuilt.snoc (.accept .telemetry (by decide))
  have hhit := hsecond.snoc (.hit (l := [_]) (r := []) rfl rfl rfl (by decide))
  have hserving := http_serving hhit
  exact ⟨_, hhit, by decide, hserving.1, hserving.2.2.1⟩

end HttpServing

end Dashboard

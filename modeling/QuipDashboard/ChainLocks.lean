/-
The locks of the chain reader.

The model of how `ChainReader` and its `Transport` (`quip-dashboard/src/chain/mod.rs`,
`metadata.rs`, `snapshots.rs` and `transport.rs`) wait: the semaphores of RPC calls, of
responses and of block loads with their parts for backfill, the locked caches, the cells
that are filled once, and the connection, which calls read and `connect` and `disconnect`
write.  A routine is the list of what a function waits for and gives back, for each answer
that it may get.  A response or a block that is too large for its cache keeps the permits
of its load until its last owner drops it.

* `Call.nested` — every call of the reader takes its locks in one order;
* `subscribeHeads_ordered` — `subscribe_heads` takes two of them in the opposite order;
* `Step.inv` — every step keeps the locks valid and every task in order;
* `chain_calls_finish` — **no interleaving of the calls with a manager that connects,
  subscribes and disconnects gets stuck, whichever callers are stopped**.
-/
import QuipDashboard.LockOrder

namespace Dashboard

namespace ChainLocks

open LockOrder

/-- What a task of the chain reader waits for.  Cells are numbered as they are created. -/
inductive Lock where
  | subscriptions
  | blockCell (k : ℕ)
  | blockBackfill
  | blockJobs
  | topologyCell (k : ℕ)
  | responseCell (k : ℕ)
  | responseBackfill
  | responseJobs
  | codeCell (k : ℕ)
  | backfill
  | calls
  | connection
  | metadata
  | blocks
  | uncachedBlocks
  | cache
  | metrics
  | topologies
  deriving DecidableEq

/-- How a lock is acquired: the connection is read or written. -/
inductive Mode where
  | permit
  | read
  | write
  deriving DecidableEq

/-- The permits of a semaphore; a mutex and a cell have one. -/
def capacity : Lock → ℕ
  | .blockBackfill | .responseBackfill | .backfill => 2
  | .blockJobs | .responseJobs | .calls => 4
  | _ => 1

/-- A semaphore admits up to its capacity; the connection admits readers together, and a
writer alone. -/
def admits (r : Lock) (m : Mode) (l : List Mode) : Prop :=
  match r, m with
  | .connection, .read => .write ∉ l
  | .connection, .write => l = []
  | .connection, .permit => False
  | r, _ => l.length < capacity r

/-- The connection is held by readers, or by one writer. -/
def Valid (r : Lock) (l : List Mode) : Prop :=
  match r with
  | .connection => (∀ m ∈ l, m = .read) ∨ l = [.write]
  | r => l.length ≤ capacity r

/-- `WorkClass`. -/
inductive WorkClass where
  | live
  | backfill
  deriving DecidableEq

abbrev Ops := List (Op Lock Mode)

/-! ### The routines of the transport -/

/-- A mutex, a cell or one permit of a semaphore, during a routine. -/
def guarded (r : Lock) (ops : Ops) : Ops := hold r .permit ops

/-- A permit that only backfill needs. -/
def forBackfill (w : WorkClass) (r : Lock) (ops : Ops) : Ops :=
  match w with
  | .live => ops
  | .backfill => guarded r ops

/-- `Transport::request`; the call is `sent` if there is a connection and the parameters
are accepted. -/
def request (w : WorkClass) (sent : Bool) : Ops :=
  forBackfill w .backfill (guarded .calls (hold .connection .read
    (if sent then .work :: guarded .metrics [] else [])))

/-- How a load by `shared` ends. -/
inductive Loaded where
  /-- The request fails. -/
  | failed (sent : Bool)
  /-- The response is charged to the cache, unless that has no room. -/
  | small (room : Bool)
  /-- The response exceeds the cache, and cannot be charged. -/
  | refused
  /-- The response exceeds the cache: its value keeps the permits of the load. -/
  | oversized
  deriving DecidableEq

/-- What a call of `shared` meets. -/
inductive Met where
  /-- The cache has no room for another cell. -/
  | busy
  /-- An oversized value is alive. -/
  | alive
  /-- The cell has a value, which is counted as a hit if it is there at once. -/
  | hit (counted oversized : Bool)
  /-- The cell gets its value while the call waits for it. -/
  | waited (oversized : Bool)
  /-- The call fills the cell. -/
  | load (l : Loaded)
  deriving DecidableEq

/-- A call of `shared` for a cell. -/
structure Fetch where
  cell : ℕ
  met : Met
  /-- What the caller decodes from the answer is there. -/
  ok : Bool
  deriving DecidableEq

/-- The call returns a value that owns permits. -/
def Met.keeps : Met → Bool
  | .alive | .hit _ true | .waited true | .load .oversized => true
  | _ => false

/-- The call returns an error. -/
def Met.fails : Met → Bool
  | .busy | .load (.failed _) | .load (.small false) | .load .refused => true
  | _ => false

/-- The caller returns an error after the call. -/
def Fetch.fails (f : Fetch) : Bool := f.met.fails || !f.ok

/-- The permits that an oversized response keeps, until its last owner drops it. -/
def responsePermits : List Lock := [.responseJobs, .responseBackfill]

/-- The cache gives up its reference to an oversized response. -/
def withdrawResponse : Ops := guarded .cache (withdraws responsePermits)

/-- A load under its permits. -/
def loading (w : WorkClass) (r r' : Lock) (ops : Ops) : Ops := forBackfill w r (guarded r' ops)

/-- A load whose permits move into its value. -/
def keeping (w : WorkClass) (r r' : Lock) (ops : Ops) : Ops :=
  (match w with
    | .live => []
    | .backfill => [.acquire r .permit]) ++
  .acquire r' .permit :: (ops ++ [.publish r', .publish r])

/-- `Transport::shared`, up to its return. -/
def shared (w : WorkClass) (f : Fetch) : Ops :=
  match f.met with
  | .busy => guarded .cache []
  | .alive => guarded .cache (adopts responsePermits)
  | .hit counted oversized =>
    guarded .cache [] ++ (if counted then guarded .metrics [] else []) ++ (if oversized then adopts responsePermits else []) ++
      (if oversized then withdrawResponse else [])
  | .waited oversized =>
    guarded .cache [] ++ guarded (.responseCell f.cell) (if oversized then adopts responsePermits else []) ++
      (if oversized then withdrawResponse else [])
  | .load (.failed sent) =>
    guarded .cache [] ++ guarded (.responseCell f.cell)
      (loading w .responseBackfill .responseJobs (request w sent)) ++ guarded .cache []
  | .load (.small room) =>
    guarded .cache [] ++ guarded (.responseCell f.cell)
      (loading w .responseBackfill .responseJobs (request w true ++ guarded .cache [])) ++
      (if room then [] else guarded .cache [])
  | .load .refused =>
    guarded .cache [] ++ guarded (.responseCell f.cell)
      (loading w .responseBackfill .responseJobs (request w true)) ++ guarded .cache []
  | .load .oversized =>
    guarded .cache [] ++ guarded (.responseCell f.cell)
      (keeping w .responseBackfill .responseJobs (request w true)) ++ withdrawResponse

/-- A call of `shared` whose value is dropped before the caller waits again. -/
def fetch (w : WorkClass) (f : Fetch) : Ops :=
  shared w f ++ if f.met.keeps then releases responsePermits else []

/-- `Transport::metrics`. -/
def transportMetrics : Ops := guarded .cache (guarded .metrics [])

/-- `Transport::connect`, which `built` a new connection or found one. -/
def transportConnect (built : Bool) : Ops := hold .connection .write (if built then [.work] else [])

/-- `Transport::disconnect`, which ends the subscriptions under their lock. -/
def transportDisconnect : Ops := guarded .subscriptions [.work] ++ hold .connection .write []

/-- `Transport::subscribe_heads`, with the subscriptions that it makes. -/
def subscribeHeads (active : Bool) (n : ℕ) : Ops :=
  guarded .subscriptions (if active then [] else
    hold .connection .read (List.replicate n (guarded .calls [.work])).flatten)

/-! ### The routines of the reader -/

/-- The blocks that are evicted one by one, each under the lock of the blocks. -/
def evictions (n : ℕ) : Ops := (List.replicate n (guarded .blocks [])).flatten

/-- What `runtime_context` meets at the cell of the runtime code. -/
inductive CodeMet where
  /-- `make_metadata_room` finds nothing to evict. -/
  | busy
  | hit
  | waited
  /-- The version, or the metadata, is not answered. -/
  | noVersion (sent : Bool)
  | noMetadata (sent : Bool)
  /-- The metadata is decoded and charged, after some evictions, or cannot be. -/
  | load (evicted : ℕ) (charged : Bool)
  deriving DecidableEq

/-- A call of `runtime_context`. -/
structure Context where
  code : Fetch
  /-- The evictions of `make_metadata_room`. -/
  evicted : ℕ
  cell : ℕ
  met : CodeMet
  /-- The caller finds what it reads next in the metadata. -/
  ok : Bool
  deriving DecidableEq

/-- What `runtime_context` does once it has the code hash. -/
def codeContext (w : WorkClass) (c : Context) : Ops :=
  guarded .metadata (evictions c.evicted) ++
    match c.met with
    | .busy | .hit => []
    | .waited => guarded (.codeCell c.cell) []
    | .noVersion sent => guarded (.codeCell c.cell) (request w sent)
    | .noMetadata sent => guarded (.codeCell c.cell) (request w true ++ request w sent)
    | .load evicted _ =>
      guarded (.codeCell c.cell) (request w true ++ request w true ++
        guarded .metadata (evictions evicted))

/-- `ChainReader::runtime_context`: an oversized response is not a hash. -/
def runtimeContext (w : WorkClass) (c : Context) : Ops :=
  fetch w c.code ++ if c.code.fails || c.code.met.keeps then [] else codeContext w c

/-- A part of a read: after one that fails, the read returns its error. -/
inductive Part where
  | request (sent ok : Bool)
  | fetch (f : Fetch)
  | context (c : Context)
  deriving DecidableEq

def Part.ops (w : WorkClass) : Part → Ops
  | .request sent _ => ChainLocks.request w sent
  | .fetch f => ChainLocks.fetch w f
  | .context c => runtimeContext w c

def Part.fails : Part → Bool
  | .request _ ok => !ok
  | .fetch f => f.fails
  | .context c => c.code.fails || c.code.met.keeps || !c.ok ||
    match c.met with
    | .busy | .noVersion _ | .noMetadata _ | .load _ false => true
    | .hit | .waited | .load _ true => false

/-- Reads one after the other, each with `?`. -/
def reads (w : WorkClass) : List Part → Ops
  | [] => []
  | p :: ps => p.ops w ++ if p.fails then [] else reads w ps

/-- `ChainReader::contexts`; there is no `execution` of its own at genesis. -/
def contexts (postState : Context) (execution : Option Context) : List Part :=
  .context postState :: (execution.map Part.context).toList

/-- `ChainReader::storage` and `optional_storage`: the context, then the `raw_storage`. -/
def storage (c : Context) (raw : Fetch) : List Part := [.context c, .fetch raw]

/-- `ChainReader::runtime_bytes`; the topology and the winning solution are not shared. -/
def runtimeBytes (c : Context) (answer : Fetch ⊕ Bool × Bool) : List Part :=
  .context c :: match answer with
    | .inl f => [.fetch f]
    | .inr (sent, ok) => [.request sent ok]

/-- What `topology_summary` meets at its cell. -/
inductive TopologyMet where
  | busy
  | hit
  | waited
  | load (c : Context) (sent ok : Bool)
  deriving DecidableEq

/-- `ChainReader::topology_summary`. -/
def topologySummary (w : WorkClass) (cell : ℕ) (met : TopologyMet) : Ops :=
  guarded .topologies [] ++
    match met with
    | .busy | .hit => []
    | .waited => guarded (.topologyCell cell) []
    | .load c sent ok => guarded (.topologyCell cell) (reads w (runtimeBytes c (.inr (sent, ok))))

/-- A read that needs no block. -/
inductive Read where
  | parts (ps : List Part)
  | topology (cell : ℕ) (met : TopologyMet)

def Read.ops (w : WorkClass) : Read → Ops
  | .parts ps => reads w ps
  | .topology cell met => topologySummary w cell met

/-- What `load_block` reads. -/
structure BlockReads where
  header : Fetch
  postState : Context
  /-- The runtime of the parent, but at genesis. -/
  execution : Option Context
  events : Fetch
  timestamp : Context × Fetch
  /-- The validators, for a full block with a BABE digest. -/
  author : Option (Context × Fetch)
  /-- The winning solution, when a winner was selected. -/
  winner : Option (Context × Bool × Bool)

/-- The reads whose failure fails the load. -/
def BlockReads.parts (b : BlockReads) : List Part :=
  .fetch b.header :: contexts b.postState b.execution ++ .fetch b.events ::
    storage b.timestamp.1 b.timestamp.2 ++
    match b.author with
    | some (c, f) => storage c f
    | none => []

/-- `winning_solution`, whose failure is part of the block. -/
def BlockReads.winnerParts (b : BlockReads) : List Part :=
  match b.winner with
  | some (c, answer) => runtimeBytes c (.inr answer)
  | none => []

/-- All reads of `load_block`. -/
def BlockReads.ops (w : WorkClass) (b : BlockReads) : Ops :=
  reads w b.parts ++ if b.parts.any Part.fails then [] else reads w b.winnerParts

/-- How `load_block` ends after its reads. -/
inductive BlockLoaded where
  /-- A read failed, or the block is too large, or cannot be charged although it is large. -/
  | failed
  /-- The block is charged to the cache, unless that has no room. -/
  | small (room : Bool)
  /-- The block exceeds the cache: it keeps the permits of the load. -/
  | oversized
  deriving DecidableEq

/-- What a call of `block` meets; a block is complete unless its winner could not be read. -/
inductive BlockMet where
  | busy
  | alive
  | hit (oversized complete : Bool)
  | waited (oversized complete : Bool)
  | load (b : BlockReads) (l : BlockLoaded) (complete : Bool)

/-- The call returns a block that owns permits. -/
def BlockMet.keeps : BlockMet → Bool
  | .alive | .hit true _ | .waited true _ | .load _ .oversized _ => true
  | _ => false

/-- The permits that an oversized block keeps, until its last owner drops it. -/
def blockPermits : List Lock := [.blockJobs, .blockBackfill]

/-- After a block is there: the cache gives up an oversized one, and one whose winner could
not be read.  The source locks `uncached_blocks` only if the cell is still in the cache; here
it always does, which only adds a lock to wait for. -/
def retire (oversized complete : Bool) : Ops :=
  match oversized, complete with
  | true, true =>
    guarded .blocks (withdraws blockPermits ++ guarded .uncachedBlocks [])
  | true, false => guarded .blocks (withdraws blockPermits)
  | false, true => []
  | false, false => guarded .blocks []

/-- `ChainReader::block`, with `load_block`, up to its return. -/
def block (w : WorkClass) (cell : ℕ) (met : BlockMet) : Ops :=
  match met with
  | .busy => guarded .blocks (guarded .uncachedBlocks [])
  | .alive => guarded .blocks (guarded .uncachedBlocks (adopts blockPermits))
  | .hit oversized complete =>
    guarded .blocks (guarded .uncachedBlocks []) ++ (if oversized then adopts blockPermits else []) ++
      retire oversized complete
  | .waited oversized complete =>
    guarded .blocks (guarded .uncachedBlocks []) ++
      guarded (.blockCell cell) (if oversized then adopts blockPermits else []) ++ retire oversized complete
  | .load b .failed _ =>
    guarded .blocks (guarded .uncachedBlocks []) ++ guarded (.blockCell cell)
      (loading w .blockBackfill .blockJobs (b.ops w))
  | .load b (.small room) complete =>
    guarded .blocks (guarded .uncachedBlocks []) ++ guarded (.blockCell cell)
      (loading w .blockBackfill .blockJobs (b.ops w ++ guarded .blocks [])) ++
      (if room then retire false complete else [])
  | .load b .oversized complete =>
    guarded .blocks (guarded .uncachedBlocks []) ++ guarded (.blockCell cell)
      (keeping w .blockBackfill .blockJobs (b.ops w)) ++ retire true complete

/-- A block is used during further reads, and dropped. -/
def useBlock (w : WorkClass) (cell : ℕ) (met : BlockMet) (uses : List Read) : Ops :=
  block w cell met ++ (uses.map (Read.ops w)).flatten ++ if met.keeps then releases blockPermits else []

/-- A call of the reader. -/
inductive Call where
  | reads (w : WorkClass) (rs : List Read)
  | block (w : WorkClass) (cell : ℕ) (met : BlockMet) (uses : List Read)
  | metrics
  | importMetadata (evicted : ℕ)
  | metadataRecords
  /-- `import_topologies` and `topology_records`. -/
  | topologies

def Call.ops : Call → Ops
  | .reads w rs => (rs.map (Read.ops w)).flatten
  | .block w cell met uses => useBlock w cell met uses
  | .metrics => transportMetrics
  | .importMetadata evicted => guarded .metadata (evictions evicted)
  | .metadataRecords => guarded .metadata []
  | .topologies => guarded .topologies []

/-- `ChainReader::connect`, which asks a new connection for the genesis hash, and
disconnects from another chain. -/
def connect (built connected sent mismatch : Bool) : Ops :=
  transportConnect built ++
    if connected then request .live sent ++ (if mismatch then transportDisconnect else []) else []

/-! ### Tasks -/

/-- Who runs a task: a caller, or the one manager of the connection. -/
inductive Tag where
  | caller
  | manager
  | subscriber
  deriving DecidableEq

/-- The manager does one thing after the other. -/
def managerIdle (s : State Tag Lock Mode) : Prop := ∀ j, s.tag j ≠ .caller → s.todo j = []

/-- Callers start at any time; the manager starts when it has ended what it did before. -/
inductive Starts (s : State Tag Lock Mode) : Tag → Ops → Prop
  | call (c : Call) : Starts s .caller c.ops
  | connect (built connected sent mismatch : Bool) (h : managerIdle s) :
      Starts s .manager (ChainLocks.connect built connected sent mismatch)
  | disconnect (h : managerIdle s) : Starts s .manager transportDisconnect
  | subscribeHeads (active : Bool) (n : ℕ) (h : managerIdle s) :
      Starts s .subscriber (ChainLocks.subscribeHeads active n)

/-! ### The order of the locks -/

/-- The order in which callers, `connect` and `disconnect` acquire. -/
def rank : Lock → ℕ
  | .subscriptions => 0
  | .blockCell _ => 1
  | .blockBackfill => 2
  | .blockJobs => 3
  | .topologyCell _ => 4
  | .responseCell _ => 5
  | .responseBackfill => 6
  | .responseJobs => 7
  | .codeCell _ => 8
  | .backfill => 9
  | .calls => 11
  | .connection => 12
  | .metadata => 13
  | .blocks => 14
  | .uncachedBlocks => 15
  | .cache => 16
  | .metrics => 17
  | .topologies => 18

/-- The order of `subscribe_heads`: the connection comes before the calls. -/
def subscriberRank (r : Lock) : ℕ := if r = .connection then 10 else rank r

/-- The permits that a value may keep. -/
def Job : Lock → Prop
  | .blockBackfill | .blockJobs | .responseBackfill | .responseJobs => True
  | _ => False

/-- The operations of each task: only the manager writes the connection, which is read or
written; only permits of loads move into values. -/
def Fits (t : Tag) : Op Lock Mode → Prop
  | .acquire .connection m => m = .read ∨ m = .write ∧ t = .manager
  | .publish r => Job r
  | _ => True

/-- The order and the operations of all tasks. -/
def discipline : Discipline Tag Lock Mode where
  rank t := match t with
    | .subscriber => subscriberRank
    | .caller | .manager => rank
  Fits := Fits

/-- The locks of the reader. -/
def locks : Locks Lock Mode where
  admits := admits
  Valid := Valid
  free r := by cases r <;> simp [Valid]
  drop {r l l'} h hsub := by
    cases r with
    | connection =>
      rcases h with h | rfl
      · exact .inl fun m hm => h m (hsub.subset hm)
      · rcases List.sublist_singleton.mp hsub with rfl | rfl
        · exact .inl (by simp)
        · exact .inr rfl
    | _ => exact hsub.length_le.trans h
  grant {r m l} h hadmits := by
    cases r with
    | connection =>
      cases m with
      | permit => exact hadmits.elim
      | read =>
        have hwrite : .write ∉ l := hadmits
        rcases h with h | rfl
        · refine .inl fun m hm => ?_
          rcases List.mem_append.mp hm with hm | hm
          · exact h m hm
          · exact List.mem_singleton.mp hm
        · simp at hwrite
      | write =>
        have hl : l = [] := hadmits
        subst hl
        exact .inr rfl
    | _ =>
      show (l ++ [m]).length ≤ _
      rw [List.length_append]
      exact hadmits

theorem hold_fits {t : Tag} {r : Lock} {m : Mode} {ops : Ops} (hr : Fits t (.acquire r m))
    (h : ∀ op ∈ ops, Fits t op) : ∀ op ∈ hold r m ops, Fits t op := by
  intro op hop
  simp only [hold, List.mem_cons, List.mem_append, List.not_mem_nil, or_false] at hop
  rcases hop with rfl | hop | rfl
  · exact hr
  · exact h op hop
  · trivial

theorem work_fits {t : Tag} : ∀ op ∈ ([.work] : Ops), Fits t op := by
  intro op hop
  rw [List.mem_singleton.mp hop]
  trivial

/-- A routine that callers may run while they own only locks below a rank, with what it
ends owning, and with the operations that fit them. -/
structure Orderly (low : ℕ) (S : List Lock) (ops : Ops) : Prop where
  takes : Takes rank low S ops
  fits : ∀ op ∈ ops, Fits .caller op

namespace Orderly

variable {low low' : ℕ} {S S' : List Lock} {ops ops' : Ops} {r : Lock}

theorem nil : Orderly low [] [] := ⟨.nil, by simp⟩

theorem append (h : Orderly low S ops) (h' : Orderly low' S' ops') (hle : low ≤ low')
    (hS : ∀ r ∈ S, rank r < low') : Orderly low (S' ++ S) (ops ++ ops') :=
  ⟨h.takes.append h'.takes hle hS, fun op hop =>
    (List.mem_append.mp hop).elim (h.fits op) (h'.fits op)⟩

/-- Two routines, the first of which gives back all that it takes. -/
theorem andThen (h : Orderly low [] ops) (h' : Orderly low S ops') : Orderly low S (ops ++ ops') := by
  simpa using h.append h' le_rfl (by simp)

theorem flatten {l : List Ops} (h : ∀ ops ∈ l, Orderly low [] ops) : Orderly low [] l.flatten := by
  refine ⟨.flatten fun ops hops => (h ops hops).takes, fun op hop => ?_⟩
  obtain ⟨ops, hops, hop⟩ := List.mem_flatten.mp hop
  exact (h ops hops).fits op hop

theorem mono (h : Orderly low S ops) (hle : low' ≤ low) : Orderly low' S ops :=
  ⟨h.takes.mono hle (List.Subset.refl _), h.fits⟩

theorem superset (h : Orderly low S ops) (hsub : S ⊆ S') : Orderly low S' ops :=
  ⟨h.takes.mono le_rfl hsub, h.fits⟩

theorem acquire (hlow : low ≤ rank r) (hr : r ≠ .connection) : Orderly low [r] [.acquire r .permit] := by
  refine ⟨.acquire hlow, fun op hop => ?_⟩
  cases List.mem_singleton.mp hop
  cases r <;> trivial

theorem publish (hr : Job r) : Orderly low [] [.publish r] := ⟨.publish, by simpa [Fits] using hr⟩

theorem hold {m : Mode} (hlow : low ≤ rank r) (hfits : Fits .caller (.acquire r m))
    (h : Orderly (rank r + 1) S ops) : Orderly low S (LockOrder.hold r m ops) :=
  ⟨.hold hlow h.takes, hold_fits hfits h.fits⟩

theorem guarded (hlow : low ≤ rank r) (hr : r ≠ .connection) (h : Orderly (rank r + 1) S ops) :
    Orderly low S (ChainLocks.guarded r ops) := by
  refine hold hlow ?_ h
  cases r <;> trivial

theorem release (h : Orderly low S ops) : Orderly low [] (ops ++ releases S) := by
  refine ⟨h.takes.release, fun op hop => ?_⟩
  rcases List.mem_append.mp hop with hop | hop
  · exact h.fits op hop
  · obtain ⟨r, -, rfl⟩ := List.mem_map.mp hop
    trivial

theorem ite {b : Bool} (h : b = true → Orderly low S ops) (h' : b = false → Orderly low S ops') :
    Orderly low S (if b then ops else ops') := by
  cases b with
  | false => exact h' rfl
  | true => exact h rfl

theorem forBackfill {w : WorkClass} (hlow : low ≤ rank r) (hr : r ≠ .connection)
    (h : Orderly (rank r + 1) [] ops) : Orderly low [] (ChainLocks.forBackfill w r ops) := by
  cases w with
  | live => exact h.mono (hlow.trans (Nat.le_succ _))
  | backfill => exact guarded hlow hr h

/-- A load that keeps its permits: of `r` for backfill, and of `r'`. -/
theorem keeping {w : WorkClass} {r' : Lock} (hlow : low ≤ rank r) (hlt : rank r < rank r')
    (hr : Job r) (hr' : Job r') (h : Orderly (rank r' + 1) [] ops) :
    Orderly low [r', r] (ChainLocks.keeping w r r' ops) := by
  have hne : ∀ {r}, Job r → r ≠ .connection := by
    rintro r hr rfl
    exact hr
  have hfirst : Orderly low [r] (match w with
      | .live => []
      | .backfill => [.acquire r .permit]) := by
    cases w with
    | live => exact nil.superset (by simp)
    | backfill => exact acquire hlow (hne hr)
  have hpublish : Orderly (rank r' + 1) [] [.publish r', .publish r] :=
    (publish hr').andThen (publish hr)
  have hsecond := hfirst.append (acquire le_rfl (hne hr')) (hlow.trans hlt.le) (by simpa using hlt)
  have hthird := hsecond.append (h.andThen hpublish) (by omega) (by simp; omega)
  simpa [ChainLocks.keeping] using hthird

end Orderly

/-! ### The transport is in order -/

theorem request_orderly (w : WorkClass) (sent : Bool) : Orderly 9 [] (request w sent) := by
  have hpause : Orderly 13 [] [.work] := ⟨.work, work_fits⟩
  have hwork : Orderly 13 [] (.work :: guarded .metrics []) :=
    .andThen hpause (.guarded (by decide) (by decide) .nil)
  have hread : Orderly 12 [] (hold .connection .read
      (if sent then .work :: guarded .metrics [] else [])) :=
    .hold le_rfl (.inl rfl) (.ite (fun _ => hwork) fun _ => .nil)
  exact .forBackfill le_rfl (by decide) (.guarded (by decide) (by decide) hread)

/-- The short sections under one mutex. -/
theorem guarded_nil {r : Lock} {low : ℕ} (hlow : low ≤ rank r) (hr : r ≠ .connection) :
    Orderly low [] (guarded r []) :=
  .guarded hlow hr .nil

theorem withdraw_orderly (w : List Lock) {low : ℕ} : Orderly low [] (withdraws w) := by
  refine ⟨.withdraws, fun op hop => ?_⟩
  obtain ⟨r, -, rfl⟩ := List.mem_map.mp hop
  trivial

theorem adopts_orderly (S : List Lock) {low : ℕ} : Orderly low S (adopts S) := by
  refine ⟨.adopts, fun op hop => ?_⟩
  obtain ⟨r, -, rfl⟩ := List.mem_map.mp hop
  trivial

theorem withdrawResponse_orderly : Orderly 8 [] withdrawResponse :=
  .guarded (by decide) (by decide) (withdraw_orderly _)

/-- What a call of `shared` returns owns at most the permits of an oversized response. -/
def Met.permits (met : Met) : List Lock := if met.keeps then responsePermits else []

theorem shared_orderly (w : WorkClass) (f : Fetch) : Orderly 5 f.met.permits (shared w f) := by
  have hcache : Orderly 5 [] (guarded .cache []) := guarded_nil (by decide) (by decide)
  have hcell : Orderly 8 [] (guarded .cache []) := guarded_nil (by decide) (by decide)
  have hload : ∀ {ops}, Orderly 8 [] ops → Orderly 5 [] (guarded (.responseCell f.cell)
      (loading w .responseBackfill .responseJobs ops)) := fun h =>
    .guarded le_rfl (by simp) (.forBackfill (by simp [rank]) (by decide) (.guarded (by decide) (by decide) h))
  have hfound : ∀ oversized : Bool, Orderly 5 (if oversized then responsePermits else [])
      (if oversized then adopts responsePermits else []) := by
    intro oversized
    cases oversized with
    | false => exact .nil
    | true => exact adopts_orderly responsePermits
  -- what owns a response withdraws it from the cache
  have hwithdraw : ∀ {ops S}, Orderly 5 S ops → S ⊆ responsePermits →
      Orderly 5 S (ops ++ withdrawResponse) := by
    intro ops S h hS
    refine h.append withdrawResponse_orderly (by decide) fun r hr => ?_
    have := hS hr
    simp only [responsePermits, List.mem_cons, List.not_mem_nil, or_false] at this
    rcases this with rfl | rfl <;> decide
  have hwithdraw_if : ∀ {ops} (oversized : Bool),
      Orderly 5 (if oversized then responsePermits else []) ops →
      Orderly 5 (if oversized then responsePermits else [])
        (ops ++ if oversized then withdrawResponse else []) := by
    intro ops oversized h
    cases oversized with
    | false => simpa using h
    | true => exact hwithdraw h (List.Subset.refl _)
  obtain ⟨cell, met⟩ := f
  cases met with
  | busy => exact hcache
  | alive => exact .guarded (by decide) (by decide) (adopts_orderly responsePermits)
  | hit counted oversized =>
    have hmetrics : Orderly 5 [] (if counted then guarded .metrics [] else []) :=
      .ite (fun _ => guarded_nil (by decide) (by decide)) fun _ => .nil
    have := hwithdraw_if oversized ((hcache.andThen hmetrics).andThen (hfound oversized))
    cases oversized <;> exact this
  | waited oversized =>
    have hcell : Orderly 5 (if oversized then responsePermits else [])
        (guarded (.responseCell cell) (if oversized then adopts responsePermits else [])) := by
      refine .guarded le_rfl (by simp) ?_
      cases oversized with
      | false => exact .nil
      | true => exact adopts_orderly responsePermits
    have := hwithdraw_if oversized (hcache.andThen hcell)
    cases oversized <;> exact this
  | load l =>
    have hrequest : ∀ sent, Orderly 8 [] (request w sent) := fun sent =>
      (request_orderly w sent).mono (by decide)
    cases l with
    | failed sent => exact (hcache.andThen (hload (hrequest sent))).andThen hcache
    | small room =>
      refine (hcache.andThen (hload ((hrequest true).andThen hcell))).andThen ?_
      exact .ite (fun _ => .nil) fun _ => hcache
    | refused => exact (hcache.andThen (hload (hrequest true))).andThen hcache
    | oversized =>
      refine hwithdraw (hcache.andThen (.guarded le_rfl (by simp) ?_)) (List.Subset.refl _)
      exact .keeping (by simp [rank]) (by decide) trivial trivial (hrequest true)

theorem fetch_orderly (w : WorkClass) (f : Fetch) : Orderly 5 [] (fetch w f) := by
  have h := shared_orderly w f
  unfold fetch
  unfold Met.permits at h
  cases hk : f.met.keeps with
  | false =>
    rw [hk] at h
    simpa using h
  | true =>
    rw [hk] at h
    exact h.release

theorem transportConnect_takes (built : Bool) : Takes rank 0 [] (transportConnect built) := by
  refine .hold (by decide) ?_
  cases built with
  | false => exact .nil
  | true => exact .work

theorem transportDisconnect_takes : Takes rank 0 [] transportDisconnect := by
  have h : Takes rank 0 [] (guarded .subscriptions [.work]) := .hold le_rfl .work
  exact h.append (.hold le_rfl .nil) (by decide) (by simp)

/-- **`subscribe_heads` takes the connection before the calls.** -/
theorem subscribeHeads_ordered (active : Bool) (n : ℕ) :
    Ordered subscriberRank [] (subscribeHeads active n) := by
  have hcalls : Takes subscriberRank 11 [] (List.replicate n (guarded .calls [.work])).flatten := by
    refine .flatten fun ops hops => ?_
    rw [List.eq_of_mem_replicate hops]
    exact .hold (by decide) .work
  have h : Takes subscriberRank 0 [] (subscribeHeads active n) := by
    refine .hold (by decide) ?_
    cases active with
    | true => exact .nil
    | false => exact .hold (by decide) hcalls
  exact h.ordered

/-! ### The reader is in order -/

theorem evictions_orderly (n : ℕ) : Orderly 14 [] (evictions n) := by
  refine .flatten fun ops hops => ?_
  rw [List.eq_of_mem_replicate hops]
  exact guarded_nil le_rfl (by decide)

theorem runtimeContext_orderly (w : WorkClass) (c : Context) : Orderly 5 [] (runtimeContext w c) := by
  have hroom : ∀ {low} n, low ≤ 13 → Orderly low [] (guarded .metadata (evictions n)) := fun n h =>
    .guarded h (by decide) (evictions_orderly n)
  have hrequest : ∀ sent, Orderly 9 [] (request w sent) := request_orderly w
  have hcell : ∀ {ops}, Orderly 9 [] ops → Orderly 5 [] (guarded (.codeCell c.cell) ops) := fun h =>
    .guarded (by simp [rank]) (by simp) h
  refine (fetch_orderly w c.code).andThen (.ite (fun _ => .nil) fun _ => ?_)
  refine (hroom c.evicted (by decide)).andThen ?_
  cases c.met with
  | busy | hit => exact .nil
  | waited => exact hcell .nil
  | noVersion sent => exact hcell (hrequest sent)
  | noMetadata sent => exact hcell ((hrequest true).andThen (hrequest sent))
  | load evicted charged =>
    exact hcell (((hrequest true).andThen (hrequest true)).andThen (hroom evicted (by decide)))

theorem part_orderly (w : WorkClass) (p : Part) : Orderly 5 [] (p.ops w) := by
  cases p with
  | request sent ok => exact (request_orderly w sent).mono (by decide)
  | fetch f => exact fetch_orderly w f
  | context c => exact runtimeContext_orderly w c

theorem reads_orderly (w : WorkClass) (ps : List Part) : Orderly 5 [] (reads w ps) := by
  induction ps with
  | nil => exact .nil
  | cons p ps ih => exact (part_orderly w p).andThen (.ite (fun _ => .nil) fun _ => ih)

theorem topologySummary_orderly (w : WorkClass) (cell : ℕ) (met : TopologyMet) :
    Orderly 4 [] (topologySummary w cell met) := by
  refine (guarded_nil (by decide) (by decide)).andThen ?_
  cases met with
  | busy | hit => exact .nil
  | waited => exact guarded_nil le_rfl (by simp)
  | load c sent ok => exact .guarded le_rfl (by simp) (reads_orderly w _)

theorem read_orderly (w : WorkClass) (r : Read) : Orderly 4 [] (r.ops w) := by
  cases r with
  | parts ps => exact (reads_orderly w ps).mono (by decide)
  | topology cell met => exact topologySummary_orderly w cell met

/-- What a call of `block` returns owns at most the permits of an oversized block. -/
def BlockMet.permits (met : BlockMet) : List Lock := if met.keeps then blockPermits else []

theorem blockReads_orderly (w : WorkClass) (b : BlockReads) : Orderly 4 [] (b.ops w) :=
  ((reads_orderly w b.parts).andThen (.ite (fun _ => .nil) fun _ => reads_orderly w _)).mono (by decide)

theorem retire_orderly (oversized complete : Bool) : Orderly 4 [] (retire oversized complete) := by
  have huncached : Orderly 15 [] (guarded .uncachedBlocks []) := guarded_nil le_rfl (by decide)
  cases oversized <;> cases complete
  · exact guarded_nil (by decide) (by decide)
  · exact .nil
  · exact .guarded (by decide) (by decide) (withdraw_orderly _)
  · exact .guarded (by decide) (by decide) ((withdraw_orderly _).andThen huncached)

theorem block_orderly (w : WorkClass) (cell : ℕ) (met : BlockMet) :
    Orderly 1 met.permits (block w cell met) := by
  have hblocks : ∀ {S ops}, Orderly 16 S ops →
      Orderly 1 S (guarded .blocks (guarded .uncachedBlocks ops)) := fun h =>
    .guarded (by decide) (by decide) (.guarded (by decide) (by decide) h)
  have hload : ∀ {ops}, Orderly 4 [] ops → Orderly 1 [] (guarded (.blockCell cell)
      (loading w .blockBackfill .blockJobs ops)) := fun h =>
    .guarded le_rfl (by simp) (.forBackfill (by simp [rank]) (by decide) (.guarded (by decide) (by decide) h))
  have hretire : ∀ {ops S} (oversized complete : Bool), Orderly 1 S ops → S ⊆ blockPermits →
      Orderly 1 S (ops ++ retire oversized complete) := by
    intro ops S oversized complete h hS
    refine h.append (retire_orderly oversized complete) (by decide) fun r hr => ?_
    have := hS hr
    simp only [blockPermits, List.mem_cons, List.not_mem_nil, or_false] at this
    rcases this with rfl | rfl <;> decide
  have hfound : ∀ {low} (oversized : Bool), Orderly low (if oversized then blockPermits else [])
      (if oversized then adopts blockPermits else []) := by
    intro low oversized
    cases oversized with
    | false => exact .nil
    | true => exact adopts_orderly blockPermits
  have hsub : ∀ oversized : Bool, (if oversized then blockPermits else []) ⊆ blockPermits := by
    intro oversized
    cases oversized <;> simp
  cases met with
  | busy => exact hblocks .nil
  | alive => exact hblocks (adopts_orderly blockPermits)
  | hit oversized complete =>
    have := hretire oversized complete ((hblocks .nil).andThen (hfound oversized)) (hsub oversized)
    cases oversized <;> exact this
  | waited oversized complete =>
    have hcell : Orderly 1 (if oversized then blockPermits else [])
        (guarded (.blockCell cell) (if oversized then adopts blockPermits else [])) :=
      .guarded le_rfl (by simp) (hfound oversized)
    have := hretire oversized complete ((hblocks .nil).andThen hcell) (hsub oversized)
    cases oversized <;> exact this
  | load b l complete =>
    cases l with
    | failed => exact (hblocks .nil).andThen (hload (blockReads_orderly w b))
    | small room =>
      have hcharge : Orderly 4 [] (guarded .blocks []) := guarded_nil (by decide) (by decide)
      refine ((hblocks .nil).andThen (hload ((blockReads_orderly w b).andThen hcharge))).andThen ?_
      exact .ite (fun _ => (retire_orderly false complete).mono (by decide)) fun _ => .nil
    | oversized =>
      refine hretire true complete ((hblocks .nil).andThen (.guarded le_rfl (by simp) ?_))
        (List.Subset.refl _)
      exact .keeping (by simp [rank]) (by decide) trivial trivial (blockReads_orderly w b)

theorem useBlock_orderly (w : WorkClass) (cell : ℕ) (met : BlockMet) (uses : List Read) :
    Orderly 1 [] (useBlock w cell met uses) := by
  have huses : Orderly 4 [] (uses.map (Read.ops w)).flatten := by
    refine .flatten fun ops hops => ?_
    obtain ⟨r, -, rfl⟩ := List.mem_map.mp hops
    exact read_orderly w r
  have h := (block_orderly w cell met).append huses (by decide) (by
    unfold BlockMet.permits
    split_ifs <;> simp [blockPermits, rank])
  unfold useBlock
  unfold BlockMet.permits at h
  cases hk : met.keeps with
  | false =>
    rw [hk] at h
    simpa using h
  | true =>
    rw [hk] at h
    exact h.release

/-- **Every call of the reader takes its locks in one order.** -/
theorem Call.orderly (c : Call) : Orderly 0 [] c.ops := by
  cases c with
  | reads w rs =>
    have hreads : Orderly 4 [] (rs.map (Read.ops w)).flatten := by
      refine .flatten fun ops hops => ?_
      obtain ⟨r, -, rfl⟩ := List.mem_map.mp hops
      exact read_orderly w r
    exact hreads.mono (by decide)
  | block w cell met uses => exact (useBlock_orderly w cell met uses).mono (by decide)
  | metrics => exact .guarded (by decide) (by decide) (guarded_nil (by decide) (by decide))
  | importMetadata evicted => exact .guarded (by decide) (by decide) (evictions_orderly evicted)
  | metadataRecords => exact guarded_nil (by decide) (by decide)
  | topologies => exact guarded_nil (by decide) (by decide)

theorem connect_takes (built connected sent mismatch : Bool) :
    Takes rank 0 [] (connect built connected sent mismatch) := by
  have hrequest : Takes rank 0 [] (request .live sent) :=
    (request_orderly .live sent).takes.mono (by decide) (List.Subset.refl _)
  have hrest : Takes rank 0 [] (if connected then
      request .live sent ++ (if mismatch then transportDisconnect else []) else []) := by
    cases connected with
    | false => exact .nil
    | true =>
      have hdisconnect : Takes rank 0 [] (if mismatch then transportDisconnect else []) := by
        cases mismatch with
        | false => exact .nil
        | true => exact transportDisconnect_takes
      exact hrequest.append hdisconnect le_rfl (by simp)
  exact (transportConnect_takes built).append hrest le_rfl (by simp)

/-! ### Every step keeps the order -/

theorem Fits.manager {op : Op Lock Mode} (h : Fits .caller op) : Fits .manager op := by
  cases op with
  | acquire r m =>
    cases r with
    | connection =>
      have : m = .read ∨ m = .write ∧ Tag.caller = .manager := h
      exact .inl (this.resolve_right (by simp))
    | _ => trivial
  | publish r => exact h
  | _ => trivial

theorem transportDisconnect_fits : ∀ op ∈ transportDisconnect, Fits .manager op := by
  have h : ∀ op ∈ guarded .subscriptions [.work], Fits .manager op := hold_fits trivial work_fits
  have h' : ∀ op ∈ hold .connection .write [], Fits .manager op := hold_fits (.inr ⟨rfl, rfl⟩) (by simp)
  exact fun op hop => (List.mem_append.mp hop).elim (h op) (h' op)

theorem connect_fits (built connected sent mismatch : Bool) :
    ∀ op ∈ connect built connected sent mismatch, Fits .manager op := by
  have hconnect : ∀ op ∈ transportConnect built, Fits .manager op := by
    refine hold_fits (.inr ⟨rfl, rfl⟩) ?_
    cases built with
    | false => simp
    | true => exact work_fits
  intro op hop
  rcases List.mem_append.mp hop with hop | hop
  · exact hconnect op hop
  · cases connected with
    | false => cases hop
    | true =>
      rcases List.mem_append.mp hop with hop | hop
      · exact ((request_orderly .live sent).fits op hop).manager
      · cases mismatch with
        | false => cases hop
        | true => exact transportDisconnect_fits op hop

theorem subscribeHeads_fits (active : Bool) (n : ℕ) :
    ∀ op ∈ subscribeHeads active n, Fits .subscriber op := by
  refine hold_fits trivial ?_
  cases active with
  | true => simp
  | false =>
    refine hold_fits (.inl rfl) fun op hop => ?_
    obtain ⟨ops, hops, hop⟩ := List.mem_flatten.mp hop
    rw [List.eq_of_mem_replicate hops] at hop
    exact hold_fits (r := .calls) trivial work_fits op hop

theorem starts_ordered (s : State Tag Lock Mode) (t : Tag) (ops : Ops) (h : Starts s t ops) :
    Ordered (discipline.rank t) [] ops ∧ ∀ op ∈ ops, discipline.Fits t op := by
  cases h with
  | call c => exact ⟨c.orderly.takes.ordered, c.orderly.fits⟩
  | connect built connected sent mismatch =>
    exact ⟨(connect_takes built connected sent mismatch).ordered,
      connect_fits built connected sent mismatch⟩
  | disconnect => exact ⟨transportDisconnect_takes.ordered, transportDisconnect_fits⟩
  | subscribeHeads active n => exact ⟨subscribeHeads_ordered active n, subscribeHeads_fits active n⟩

/-- At most one task manages the connection. -/
def OneManager (s : State Tag Lock Mode) : Prop :=
  ∀ i j, s.tag i ≠ .caller → s.tag j ≠ .caller → s.todo i ≠ [] → s.todo j ≠ [] → i = j

/-- A move starts no task. -/
theorem todo_of_move {s s' : State Tag Lock Mode} {j : ℕ} (h : Move locks s j s') (i : ℕ)
    (hi : s'.todo i ≠ []) : s.todo i ≠ [] := by
  have hadvance : ∀ {op t gs}, s.todo j = op :: t → (s.advance j t gs).todo i ≠ [] → s.todo i ≠ [] := by
    intro op t gs htodo hne
    by_cases hij : i = j
    · rw [hij, htodo]
      simp
    · rwa [show (s.advance j t gs).todo i = s.todo i from Function.update_of_ne hij ..] at hne
  cases h with
  | wait => exact hi
  | grant htodo | release htodo | work htodo | publish htodo | withdraw htodo | adopt htodo
  | miss htodo => exact hadvance htodo hi

theorem OneManager.move {s s' : State Tag Lock Mode} {j : ℕ} (hs : OneManager s)
    (h : Move locks s j s') : OneManager s' := by
  have htag : s'.tag = s.tag := by cases h <;> rfl
  intro i i' hi hi' hne hne'
  rw [htag] at hi hi'
  exact hs i i' hi hi' (todo_of_move h i hne) (todo_of_move h i' hne')

/-- What holds between any two steps. -/
structure Safe (s : State Tag Lock Mode) : Prop where
  inv : Inv locks discipline s
  one : OneManager s

/-- **Every step keeps the locks valid, every task in order and the manager alone.** -/
theorem Step.inv {s s' : State Tag Lock Mode} {e : Event} (hs : Safe s)
    (h : Step locks Starts s e s') : Safe s' := by
  refine ⟨h.keeps starts_ordered hs.inv, ?_⟩
  cases h with
  | move h => exact hs.one.move h
  | @spawn t ops hstart =>
    -- the manager was idle, so that a new manager is the only one
    have hidle : t ≠ .caller → managerIdle s := by
      intro ht
      cases hstart with
      | call c => exact absurd rfl ht
      | connect _ _ _ _ hidle | disconnect hidle | subscribeHeads _ _ hidle => exact hidle
    intro i j hi hj hne hne'
    have hcase : ∀ k, Function.update s.tag s.spawned t k ≠ .caller →
        Function.update s.todo s.spawned ops k ≠ [] →
        k = s.spawned ∧ t ≠ .caller ∨ s.tag k ≠ .caller ∧ s.todo k ≠ [] := by
      intro k hk hk'
      by_cases hks : k = s.spawned
      · subst hks
        rw [Function.update_self] at hk
        exact .inl ⟨rfl, hk⟩
      · rw [Function.update_of_ne hks] at hk hk'
        exact .inr ⟨hk, hk'⟩
    rcases hcase i hi hne with ⟨rfl, ht⟩ | ⟨hi, hne⟩
    · rcases hcase j hj hne' with ⟨rfl, -⟩ | ⟨hj, hne'⟩
      · rfl
      · exact absurd (hidle ht j hj) hne'
    · rcases hcase j hj hne' with ⟨rfl, ht⟩ | ⟨hj, hne'⟩
      · exact absurd (hidle ht i hi) hne
      · exact hs.one i j hi hj hne hne'
  | stop k =>
    have htodo : ∀ i, (s.advance k [] (s.guards.filterMap (abandon k))).todo i ≠ [] → s.todo i ≠ [] := by
      intro i hi
      by_cases hik : i = k
      · subst hik
        exact absurd (Function.update_self ..) hi
      · rwa [show (s.advance k [] _).todo i = s.todo i from Function.update_of_ne hik ..] at hi
    exact fun i j hi hj hne hne' => hs.one i j hi hj (htodo i hne) (htodo j hne')
  | clear => exact hs.one

theorem safe_init : Safe (.init .caller) := ⟨inv_init _, fun _ _ h => absurd rfl h⟩

/-! ### Nothing gets stuck -/

variable {s : State Tag Lock Mode}

theorem capacity_pos (r : Lock) : 0 < capacity r := by
  cases r <;> simp [capacity]

/-- Only permits of loads are ever leaked. -/
theorem Safe.owners (hs : Safe s) {g : Guard Lock Mode} (hg : g ∈ s.guards) (hr : ¬Job g.res) :
    g.owners ≠ [] ∧ g.value = false := by
  have hvalue : ¬(g.value = true ∨ g.cached = true) := by
    intro h
    obtain ⟨t, ht⟩ := hs.inv.sound.values g hg h
    exact hr ht
  push Not at hvalue
  exact ⟨fun hnil => hvalue.2 (hs.inv.sound.alive g hg hnil), by simpa using hvalue.1⟩

/-- A full semaphore has a permit with an owner, unless all its permits are leaked. -/
theorem exists_owner {gs : List (Guard Lock Mode)} {r : Lock}
    (h : leaked gs r < (held gs r).length) : ∃ g ∈ gs, g.res = r ∧ g.owners ≠ [] := by
  by_contra hnone
  push Not at hnone
  have hlen : (held gs r).length = gs.countP fun g => g.res = r := by
    rw [held, List.length_map, List.countP_eq_length_filter]
  have hle : gs.countP (fun g => g.res = r) ≤ leaked gs r := by
    refine List.countP_mono_left fun g hg hr => ?_
    have hr : g.res = r := of_decide_eq_true hr
    exact decide_eq_true ⟨hr, hnone g hg hr⟩
  omega

/-- What keeps a task waiting has an owner. -/
theorem Safe.blocked_owner (hs : Safe s) (hleak : ∀ r, Job r → leaked s.guards r < capacity r)
    {r : Lock} (h : Blocked locks s r) :
    ∃ g ∈ s.guards, g.res = r ∧ ∃ j, j ∈ g.owners := by
  suffices h : ∃ g ∈ s.guards, g.res = r ∧ g.owners ≠ [] by
    obtain ⟨g, hg, hr, hne⟩ := h
    exact ⟨g, hg, hr, List.exists_mem_of_ne_nil _ hne⟩
  obtain ⟨j, m, hw, hadmits⟩ := h
  by_cases hr : r = .connection
  · subst hr
    have hne : held s.guards .connection ≠ [] := by
      intro hnil
      rw [hnil] at hadmits
      cases m with
      | read | write => exact hadmits (by simp [locks, admits])
      | permit =>
        obtain ⟨t, k, ht, -⟩ := hw
        have := hs.inv.fits j (.acquire .connection .permit) (by rw [ht]; simp)
        simp [discipline, Fits] at this
    obtain ⟨m', hm'⟩ := List.exists_mem_of_ne_nil _ hne
    obtain ⟨g, hg, hres, -⟩ := mem_held.mp hm'
    exact ⟨g, hg, hres, (hs.owners hg (by rw [hres]; exact id)).1⟩
  · refine exists_owner ?_
    have hfull : capacity r ≤ (held s.guards r).length := by
      refine Nat.le_of_not_lt fun hlt => hadmits ?_
      cases r <;> first | exact hlt | exact absurd rfl hr
    refine Nat.lt_of_lt_of_le ?_ hfull
    by_cases hjob : Job r
    · exact hleak r hjob
    · rw [show leaked s.guards r = 0 from List.countP_eq_zero.mpr fun g hg => ?_]
      · exact capacity_pos r
      · intro h
        obtain ⟨hres, hnil⟩ := of_decide_eq_true h
        exact (hs.owners hg (hres ▸ hjob)).1 hnil

/-- While nobody manages the connection, it is not written. -/
theorem Safe.connection_free (hs : Safe s) (hidle : ∀ j, s.tag j = .manager → s.todo j = []) :
    ¬Blocked locks s .connection := by
  rintro ⟨j, m, ⟨t, k, ht, -⟩, hadmits⟩
  have hfits : m = .read ∨ m = .write ∧ s.tag j = .manager :=
    hs.inv.fits j (.acquire .connection m) (by rw [ht]; simp)
  rcases hfits with rfl | ⟨-, htag⟩
  · have hwrite : Mode.write ∈ held s.guards .connection := by
      by_contra hno
      exact hadmits hno
    obtain ⟨g, hg, hres, hmode⟩ := mem_held.mp hwrite
    obtain ⟨hne, hvalue⟩ := hs.owners hg (by rw [hres]; exact id)
    obtain ⟨o, ho⟩ := List.exists_mem_of_ne_nil _ hne
    have := hs.inv.sound.owned g hg o ho
    rw [hres, hmode, hvalue] at this
    have htag : s.tag o = .manager := by simpa [discipline, Fits] using this
    exact hs.inv.todo_of_owner hg ho (hidle o htag)
  · rw [hidle j htag] at ht
    cases ht

/-- **When no task can move, all are done**, unless all permits of a load are leaked. -/
theorem Safe.done_of_stuck (hs : Safe s) (hleak : ∀ r, Job r → leaked s.guards r < capacity r)
    (h : Stuck locks s) : ∀ j, s.todo j = [] := by
  by_cases hmanager : ∀ j, s.tag j = .manager → s.todo j = []
  · -- nobody writes the connection, so that nobody waits for it
    have hfree : ∀ {j r m}, Waits s j r m → r ≠ .connection := by
      rintro j r m hw rfl
      exact hs.connection_free hmanager (h.blocked hs.inv hw)
    refine hs.inv.done_of_stuck h subscriberRank fun r hr => ?_
    obtain ⟨g, hg, rfl, j, hj⟩ := hs.blocked_owner hleak hr
    obtain ⟨j', m, hw, -⟩ := hr
    refine ⟨g, hg, rfl, j, hj, fun r' m' hw' => ?_⟩
    have hlt := hs.inv.rank_lt hg hj hw'
    cases htag : s.tag j with
    | subscriber =>
      rw [htag] at hlt
      exact hlt
    | caller | manager =>
      rw [htag] at hlt
      unfold subscriberRank
      rw [if_neg (hfree hw), if_neg (hfree hw')]
      exact hlt
  · -- the manager is the only one, so that nobody subscribes
    push Not at hmanager
    obtain ⟨i, hi, hne⟩ := hmanager
    refine hs.inv.done_of_stuck h rank fun r hr => ?_
    obtain ⟨g, hg, rfl, j, hj⟩ := hs.blocked_owner hleak hr
    refine ⟨g, hg, rfl, j, hj, fun r' m' hw' => ?_⟩
    have hlt := hs.inv.rank_lt hg hj hw'
    cases htag : s.tag j with
    | caller | manager =>
      rw [htag] at hlt
      exact hlt
    | subscriber =>
      have := hs.one i j (by rw [hi]; simp) (by rw [htag]; simp) hne (hs.inv.todo_of_owner hg hj)
      rw [this, htag] at hi
      cases hi

theorem Safe.moves {s' : State Tag Lock Mode} (hs : Safe s) {n : ℕ} (h : Moves locks s n s') :
    Safe s' := by
  induction h with
  | nil => exact hs
  | snoc _ hj ih => exact ⟨hj.keeps ih.inv, ih.one.move hj⟩

/-- Only a caller that is stopped leaks permits. -/
theorem leaked_unstopped {es : List Event} (run : History.Run (Step locks Starts) (.init .caller) es s)
    (hes : ∀ j, .stop j ∉ es) (r : Lock) : leaked s.guards r = 0 := by
  induction run with
  | nil => rfl
  | @snoc es s s' e _ hstep ih =>
    have ih := ih fun j hj => hes j (List.mem_cons_of_mem _ hj)
    cases hstep with
    | move h => exact Nat.le_zero.mp (ih ▸ h.leaked_le r)
    | spawn => exact ih
    | stop j => exact absurd (List.mem_cons_self ..) (hes j)
    | @clear pre post g hgs =>
      rw [hgs] at ih
      unfold leaked at ih ⊢
      simp only [List.countP_append, List.countP_cons] at ih ⊢
      omega

/-- **The chain reader under every interleaving.**  Any number of callers start at any time,
and are stopped at any time, next to one manager that connects, subscribes to heads and
disconnects.  In every state, no semaphore has admitted more than its permits; and unless
stopped callers have leaked all permits of a load, every task that waits is admitted: moves
go on until all tasks are done, and all are done after a bounded number of them.  Permits
are only leaked when a caller is stopped. -/
theorem chain_calls_finish {es : List Event}
    (run : History.Run (Step locks Starts) (.init .caller) es s) :
    (∀ r, r ≠ .connection → (held s.guards r).length ≤ capacity r) ∧
    ((∀ j, .stop j ∉ es) → ∀ r, leaked s.guards r = 0) ∧
    ((∀ r, Job r → leaked s.guards r < capacity r) →
      (∃ n s', Moves locks s n s' ∧ ∀ j, s'.todo j = []) ∧
      ∀ n s', Moves locks s n s' → n ≤ s.measure ∧
        ((∀ j, s'.todo j = []) ∨ ∃ j s'', Move locks s' j s'')) := by
  have hs : Safe s := run.invariant safe_init fun hi hstep => Step.inv hi hstep
  refine ⟨?_, leaked_unstopped run, fun hleak => ?_⟩
  · intro r hr
    have := hs.inv.sound.valid r
    cases r <;> first | exact this | exact absurd rfl hr
  · have hdone : ∀ n s', Moves locks s n s' → Stuck locks s' → ∀ j, s'.todo j = [] :=
      fun n s' h => (hs.moves h).done_of_stuck fun r hr => (h.leaked_le r).trans_lt (hleak r hr)
    refine ⟨hs.inv.finishes hdone, fun n s' h => ⟨?_, ?_⟩⟩
    · have := (hs.inv.moves_le h).2
      omega
    · by_cases hstuck : Stuck locks s'
      · exact .inl (hdone n s' h hstuck)
      · unfold Stuck at hstuck
        push Not at hstuck
        exact .inr hstuck

/-- Two callers of backfill have its permits and a third one waits; all get to the end. -/
theorem chain_calls_finish_backfill : ∃ es s,
    History.Run (Step locks Starts) (.init .caller) es s ∧
    held s.guards .backfill = [.permit, .permit] ∧
    (∃ t k, s.todo 2 = .acquire .backfill .permit :: t ∧ s.ticket 2 = some k) ∧
    ¬locks.admits .backfill .permit (held s.guards .backfill) ∧
    ∃ n s', Moves locks s n s' ∧ ∀ j, s'.todo j = [] := by
  have call : ∀ s, Starts s .caller (Call.reads .backfill [.parts [.request true true]]).ops :=
    fun _ => .call _
  have asked : History.Run (Step locks Starts) (.init .caller) _ _ :=
    .snoc (.snoc (.snoc .nil (.spawn (call _))) (.spawn (call _))) (.spawn (call _))
  have waiting := ((asked.snoc (.move (j := 0) (.wait rfl rfl))).snoc
    (.move (j := 1) (.wait rfl rfl))).snoc (.move (j := 2) (.wait rfl rfl))
  have first := waiting.snoc
    (.move (j := 0) (.grant rfl rfl (fun _ _ _ _ _ _ => Nat.zero_le _) Nat.zero_lt_two))
  have run := first.snoc (.move (j := 1) (.grant rfl rfl ?_ Nat.one_lt_two))
  · refine ⟨_, _, run, rfl, ⟨_, _, rfl, rfl⟩, Nat.lt_irrefl 2, ((chain_calls_finish run).2.2 ?_).1⟩
    intro r _
    rw [(chain_calls_finish run).2.1 (by simp) r]
    exact capacity_pos r
  · -- the ticket of the first caller is gone
    intro i m t k _ hk
    rcases i with _ | _ | _ | i
    · cases hk
    · exact (Option.some.inj hk).le
    · exact Nat.le_of_succ_le (Option.some.inj hk).le
    · cases hk

end ChainLocks

end Dashboard

/-
The startup check of the device access times, and the miner poll.

The model of `ensure_device_access_time_backfill` and `persist_miner_poll` in
`quip-dashboard/src/lifecycle.rs`, of the part of `poll_miner` that keeps the
observability record, and of the `meta` rows they share.

* `ensureDeviceAccessTimeBackfill` — the one-shot decision: the marker is written before
  the reindex;
* `pollMiner` — one poll: two read-modify-write sections on the record;
* `ServiceAnswers` — every call may fail, and a failed write may have been done.
-/
import QuipDashboard.Domains
import QuipDashboard.Trace
import QuipDashboard.MiningCatchup

namespace Dashboard

/-! ### The observability record -/

/-- `DeviceAccessTimeBackfill`: the one-shot decision. -/
inductive DeviceAccessTimeBackfill where
  | triggered
  | notNeeded
  deriving DecidableEq

/-- `MinerCategory`. -/
inductive MinerCategory where
  | cpu
  | gpu
  | qpu
  | other
  deriving DecidableEq

/-- `MinerHandle`. -/
structure MinerHandle where
  id : String
  minerType : MinerCategory
  deriving DecidableEq

/-- The seven counters of a miner, as reported (`ℤ`) or as stored (`ℕ`). -/
structure MinerCounters (ν : Type) where
  headsObserved : ν
  contextsDispatched : ν
  resultsReceived : ν
  proofsSubmitted : ν
  staleDrops : ν
  submissionErrors : ν
  duplicateResultDrops : ν
  deriving DecidableEq

/-- `ModeBreakdown`. -/
structure ModeBreakdown (ν : Type) where
  counters : MinerCounters ν
  miners : List MinerHandle
  deriving DecidableEq

/-- `IndexerPluginCoverage`. -/
structure IndexerPluginCoverage where
  low : Option ℕ
  high : Option ℕ
  gapBlocks : ℕ
  prunedFloor : Option ℕ
  generation : ℕ
  deriving DecidableEq

/-- `IndexerBackfillProgress`. -/
structure IndexerBackfillProgress where
  backfillQueueDepth : ℕ
  coverage : List (String × IndexerPluginCoverage)
  difficultyDataStartBlock : Option ℕ
  deriving DecidableEq

/-- `IndexerObservability`. -/
structure IndexerObservability where
  chainHeadFromNode : Option ℕ
  lastStatusFetchAt : String
  lastBlockInsertAt : Option String
  lastSubstrateEventAt : Option String
  bestBlockHeight : Option ℕ
  finalizedBlockHeight : Option ℕ
  chainConnected : Bool
  nodeSyncing : Option Bool
  nodeSyncCurrentBlock : Option (Option ℕ)
  nodeSyncHighestBlock : Option (Option ℕ)
  selfIdentified : Option Bool
  minerStats : Option (MinerCounters ℕ)
  modes : Option (List (String × ModeBreakdown ℕ))
  indexer : Option IndexerBackfillProgress
  deviceAccessTimeBackfill : Option DeviceAccessTimeBackfill
  deriving DecidableEq

/-- The record of a store that has none. -/
def IndexerObservability.initial : IndexerObservability where
  chainHeadFromNode := none
  lastStatusFetchAt := ""
  lastBlockInsertAt := none
  lastSubstrateEventAt := none
  bestBlockHeight := none
  finalizedBlockHeight := none
  chainConnected := false
  nodeSyncing := none
  nodeSyncCurrentBlock := none
  nodeSyncHighestBlock := none
  selfIdentified := some false
  minerStats := none
  modes := none
  indexer := none
  deviceAccessTimeBackfill := none

/-- `MinerHardwareRecord` of the local miner. -/
structure MinerHardware where
  accountId : String
  nodeId : String
  miners : List MinerHandle
  primaryType : MinerCategory
  observedAt : String
  deriving DecidableEq

/-- The rows that the startup check and the poll share. -/
structure ServiceState where
  store : Store
  /-- `meta`: `indexer.device_access_time.backfill`. -/
  marker : Option String
  /-- `meta`: `indexer_observability`. -/
  observability : Option IndexerObservability
  deriving DecidableEq

/-! ### Effects -/

/-- What the two tasks wait for. -/
inductive ServiceEffect : Type → Type 1
  | getMarker : ServiceEffect (Except StoreError (Option String))
  | setMarker (value : String) : ServiceEffect (Except StoreError Unit)
  /-- `probe_device_access_time_data`: whether there are winner rows, and one with a time. -/
  | probe : ServiceEffect (Except StoreError (Bool × Bool))
  | reindexWinners : ServiceEffect (Except StoreError (List GenerationGuard))
  | getObservability : ServiceEffect (Except StoreError (Option IndexerObservability))
  | setObservability (value : IndexerObservability) : ServiceEffect (Except StoreError Unit)
  | upsertMinerHardware (row : MinerHardware) : ServiceEffect (Except StoreError Unit)
  | setSelfAddress (address : String) : ServiceEffect (Except StoreError Unit)

/-- Why one of the two tasks ended. -/
inductive ServiceError where
  | store (e : StoreError)
  | invalid (reason : String)
  deriving DecidableEq

/-- `probe_device_access_time_data`. -/
def probeDeviceAccessTimeData (s : Store) : Bool × Bool :=
  (s.blocks.rows ≠ [], s.blocks.rows.any fun e => e.2.deviceAccessTimeUs.isSome)

/-- A write of the shared rows: it succeeds, or it fails and may have been done or not. -/
def ServiceWrites {α : Type} (done : ServiceState) (value : α) (s : ServiceState)
    (answer : Except StoreError α) (s' : ServiceState) : Prop :=
  (answer = .ok value ∧ s' = done) ∨ (∃ e, answer = .error e) ∧ (s' = s ∨ s' = done)

/-- A read: it succeeds or fails. -/
def ServiceReads {α : Type} (value : α) (s : ServiceState) (answer : Except StoreError α)
    (s' : ServiceState) : Prop :=
  s' = s ∧ (answer = .ok value ∨ ∃ e, answer = .error e)

/-- What an effect may answer, and what it makes of the rows. -/
def ServiceAnswers {γ : Type} (s : ServiceState) : ServiceEffect γ → γ → ServiceState → Prop
  | .getMarker, answer, s' => ServiceReads s.marker s answer s'
  | .setMarker value, answer, s' => ServiceWrites { s with marker := some value } () s answer s'
  | .probe, answer, s' => ServiceReads (probeDeviceAccessTimeData s.store) s answer s'
  | .reindexWinners, answer, s' =>
    -- the transaction of a reindex that fails may still have committed
    ∃ r store, reindex [.winners] s.store = (r, store) ∧
      ((answer = r ∧ s' = { s with store }) ∨
        (∃ e, answer = .error e) ∧ (s' = s ∨ s' = { s with store }))
  | .getObservability, answer, s' => ServiceReads s.observability s answer s'
  | .setObservability value, answer, s' =>
    ServiceWrites { s with observability := some value } () s answer s'
  | .upsertMinerHardware _, _, s' => s' = s
  | .setSelfAddress _, _, s' => s' = s

/-! ### The startup check -/

/-- What a stored marker says. -/
def decisionOf (marker : String) : DeviceAccessTimeBackfill :=
  if marker = "not-needed" then .notNeeded else .triggered

/-- The decision part of `ensure_device_access_time_backfill`. -/
def decideBackfill : Program ServiceEffect ServiceError DeviceAccessTimeBackfill := do
  match ← Program.awaitOk .store .getMarker with
  | some marker => return decisionOf marker
  | none =>
    let probe ← Program.awaitOk .store .probe
    if !probe.1 || probe.2 then
      Program.awaitOk .store (.setMarker "not-needed")
      return .notNeeded
    else
      Program.awaitOk .store (.setMarker "triggered")
      let _ ← Program.awaitOk .store .reindexWinners
      return .triggered

/-- The decision surfaced through the record. -/
def recordDecision (decision : DeviceAccessTimeBackfill) :
    Program ServiceEffect ServiceError Unit := do
  let stored ← Program.awaitOk .store .getObservability
  let observability := stored.getD .initial
  Program.awaitOk .store
    (.setObservability { observability with deviceAccessTimeBackfill := some decision })

/-- `ensure_device_access_time_backfill`; it always decides. -/
def ensureDeviceAccessTimeBackfill :
    Program ServiceEffect ServiceError DeviceAccessTimeBackfill := do
  let decision ← decideBackfill
  recordDecision decision
  return decision

/-! ### The poll -/

/-- The part of `NodeStatus` that a poll reads. -/
structure PolledStatus where
  ss58Address : String
  nodeId : String
  chainHeadNumber : ℤ
  miners : List MinerHandle
  modes : List (String × ModeBreakdown ℤ)

/-- The part of `HealthSnapshot` that a poll reads. -/
structure PolledHealth where
  lastBlockInsertAt : Option String
  lastSubstrateEventAt : Option String
  chainConnected : Bool
  bestBlockHeight : Option String
  finalizedBlockHeight : Option String

/-- The part of `SyncStateInfo` that a poll reads. -/
structure PolledSync where
  isSyncing : Bool
  currentBlock : Option ℕ
  highestBlock : Option ℕ

/-- What a poll observes besides the record. -/
structure Poll where
  /-- Whether the store is bound to its network yet. -/
  bound : Bool
  now : String
  status : Option PolledStatus
  stats : Option (MinerCounters ℤ)
  health : PolledHealth
  sync : Option PolledSync
  /-- `coverage_progress`. -/
  progress : Except StoreError IndexerBackfillProgress

/-- A status with an address, the others are ignored. -/
def Poll.identified (p : Poll) : Option PolledStatus :=
  p.status.filter fun s => !s.ss58Address.toList.all isWhitespace

/-- `project` of a value that may not fit. -/
def projected {α : Type} : Option α → Except ServiceError α
  | some a => .ok a
  | none => .error (.invalid "invalid value")

/-- `project` of the counters. -/
def projectCounters (c : MinerCounters ℤ) : Option (MinerCounters ℕ) := do
  return { headsObserved := ← unsigned u64Max c.headsObserved
           contextsDispatched := ← unsigned u64Max c.contextsDispatched
           resultsReceived := ← unsigned u64Max c.resultsReceived
           proofsSubmitted := ← unsigned u64Max c.proofsSubmitted
           staleDrops := ← unsigned u64Max c.staleDrops
           submissionErrors := ← unsigned u64Max c.submissionErrors
           duplicateResultDrops := ← unsigned u64Max c.duplicateResultDrops }

/-- `project` of the modes. -/
def projectModes (modes : List (String × ModeBreakdown ℤ)) :
    Option (List (String × ModeBreakdown ℕ)) :=
  modes.mapM fun m => do
    let counters ← projectCounters m.2.counters
    return (m.1, { counters, miners := m.2.miners })

/-- The category of a miner by its strongest device. -/
def primaryType (miners : List MinerHandle) : MinerCategory :=
  (([.gpu, .qpu, .cpu] : List MinerCategory).find? fun c => miners.any (·.minerType = c)).getD .other

/-- The fields of an identified status. -/
def withStatus (s : PolledStatus) (o : IndexerObservability) :
    Except ServiceError IndexerObservability := do
  let head ← projected (unsigned u64Max s.chainHeadNumber)
  let modes ← projected (projectModes s.modes)
  return { o with selfIdentified := some true, chainHeadFromNode := some head, modes := some modes }

/-- The fields of the stats. -/
def withStats (stats : Option (MinerCounters ℤ)) (o : IndexerObservability) :
    Except ServiceError IndexerObservability :=
  match stats with
  | some stats => do
    let counters ← projected (projectCounters stats)
    return { o with minerStats := some counters }
  | none => .ok o

/-- The fields of every poll. -/
def withPoll (now : String) (o : IndexerObservability) : IndexerObservability :=
  { o with lastStatusFetchAt := now, selfIdentified := some false }

/-- `persist_miner_poll`. -/
def persistMinerPoll (p : Poll) : Program ServiceEffect ServiceError (Option String) := do
  let stored ← Program.awaitOk .store .getObservability
  let observability := withPoll p.now (stored.getD .initial)
  match p.identified with
  | some s =>
    let observability ← Program.ofExcept (withStatus s observability)
    Program.awaitOk .store (.upsertMinerHardware
      ⟨s.ss58Address, s.nodeId, s.miners, primaryType s.miners, p.now⟩)
    Program.awaitOk .store (.setSelfAddress s.ss58Address)
    let observability ← Program.ofExcept (withStats p.stats observability)
    Program.awaitOk .store (.setObservability observability)
    return some s.ss58Address
  | none =>
    let observability ← Program.ofExcept (withStats p.stats observability)
    Program.awaitOk .store (.setObservability observability)
    return none

/-- A height of the health snapshot. -/
def parsedHeight : Option String → Except ServiceError (Option ℕ)
  | none => .ok none
  | some text => do
    let n ← projected (decimalOf text)
    return some n

/-- The fields of the second section of a poll. -/
def withHealth (p : Poll) (o : IndexerObservability) : Except ServiceError IndexerObservability := do
  let best ← parsedHeight p.health.bestBlockHeight
  let finalized ← parsedHeight p.health.finalizedBlockHeight
  let progress ← p.progress.mapError .store
  let o := { o with
    chainConnected := p.health.chainConnected
    lastSubstrateEventAt := p.health.lastSubstrateEventAt
    lastBlockInsertAt := p.health.lastBlockInsertAt
    bestBlockHeight := best
    finalizedBlockHeight := finalized
    indexer := some progress }
  match p.sync with
  | some sync => return { o with
      nodeSyncing := some sync.isSyncing
      nodeSyncCurrentBlock := some sync.currentBlock
      nodeSyncHighestBlock := some sync.highestBlock }
  | none => return o

/-- One poll of `poll_miner`, as far as it keeps the record. -/
def pollMiner (p : Poll) : Program ServiceEffect ServiceError Unit :=
  if p.bound then do
    let _ ← persistMinerPoll p
    match ← Program.awaitOk .store .getObservability with
    | some observability =>
      let observability ← Program.ofExcept (withHealth p observability)
      Program.awaitOk .store (.setObservability observability)
    | none => return
  else return

/-- The polling loop; an error ends it. -/
def pollAll : List Poll → Program ServiceEffect ServiceError Unit
  | [] => return
  | p :: ps => do
    pollMiner p
    pollAll ps

end Dashboard

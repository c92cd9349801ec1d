/-
The indexer's work on one block.

The model of `indexer/live.rs` and of the helpers in `indexer/mod.rs`: every function is
a `Program` whose effects are its store calls, its requests to a node and its notes of
progress.

* `guards` — the domains that still need a height;
* `decodeBlock` — the block, unless it is pruned or fails three times;
* `winner`, `historicalDifficulty` — the records of the winner domains;
* `participation` — one pass over the pinned participants of a block, page by page;
* `process` — all of these, and the commit of what they completed.

The locks and permits only order the calls, and `refresh_changes` writes to the registry
tables, which are not modelled: it is one effect.
-/
import QuipDashboard.Runs
import QuipDashboard.Chain
import QuipDashboard.Program

namespace Dashboard

/-- `IndexerError`. -/
inductive IndexerError where
  | chain (e : ChainError)
  | store (e : StoreError)
  | invalid (message : String)
  | staleGeneration
  deriving DecidableEq

/-- A note of progress, in the log, in `Progress` or in the qblock files. -/
inductive Note where
  | error (e : IndexerError)
  | committed (height : ℕ)
  | files (winner : Option BlockRecord) (participation : List QBlockParticipationRecord)

/-- What the indexer waits for. -/
inductive Await : Type → Type 1
  /-- A write operation of the store. -/
  | store (op : Op) : Await (Except StoreError CommitResult)
  /-- A read operation of the store. -/
  | read {β : Type} (f : Store → Except StoreError β) : Await (Except StoreError β)
  | chain {β : Type} (q : Query β) : Await (Except ChainError β)
  | note (n : Note) : Await Unit
  /-- `refresh_changes`. -/
  | refresh (block : DecodedBlock) : Await (Except IndexerError Unit)

/-- A function of the indexer. -/
abbrev Ix := Program Await IndexerError

namespace Ix

def store (op : Op) : Ix CommitResult := .awaitOk .store (.store op)

def read {β : Type} (f : Store → Except StoreError β) : Ix β := .awaitOk .store (.read f)

def chain {β : Type} (q : Query β) : Ix β := .awaitOk .chain (.chain q)

def note (n : Note) : Ix Unit := .await (.note n)

end Ix

/-- `Target`. -/
structure Target where
  height : ℕ
  hash : ChainHash
  deriving DecidableEq

/-- `model_hash`. -/
def modelHash (hash : ChainHash) : BlockHash := .ofBytes hash

/-- `DOMAINS`. -/
def domains : List Indexable := [.winners, .difficulty, .participation, .authorship]

/-- `PAGE_SIZE`. -/
def pageSize : ℕ := 256

/-- `check`. -/
def checkResult : CommitResult → Ix Unit
  | .applied | .alreadyApplied => return
  | .staleGeneration => .fail .staleGeneration

/-- `Store::coverage`: the persisted coverage, not validated. -/
def Store.savedCoverage (s : Store) (i : Indexable) : Option Coverage := s.coverages.get? i

/-- `is_unavailable`. -/
def Store.isUnavailable (s : Store) (i : Indexable) (expected height : ℕ) : Bool :=
  (s.unavailable.get? (i, expected, height)).isSome

/-- `decimal`. -/
def decimal : DecimalText → Ix ℕ
  | .ok n => return n
  | .error message => .fail (.invalid message)

/-- The checks of `iso_timestamp`. -/
def isoTimestampOf (seconds : ℕ) : Except IndexerError Timestamp :=
  if seconds > i64Max then .error (.invalid "out of range integral type conversion attempted")
  else if seconds > maxTimestampSeconds then .error (.invalid "timestamp outside supported range")
  else .ok (.utc (1000 * seconds))

/-- `iso_timestamp`. -/
def isoTimestamp (seconds : ℕ) : Ix Timestamp := .ofExcept (isoTimestampOf seconds)

/-- `milli_energy`. -/
def milliEnergy (value : ℤ) : ℚ := value / 1000

/-- `mining_seconds`. -/
def miningSeconds (device : Option ℕ) (spacing : ℕ) : ℚ :=
  match device with
  | some us => us / 1000000
  | none => spacing * 6

/-! ### Guards -/

/-- Whether a domain of generation `expected` still waits for a height: it is not below
its start, pruned or covered. -/
def waitsFor (height expected : ℕ) (coverage : Option Coverage) : Bool :=
  !coverage.any fun c => c.gen = expected ∧ (height < c.start ∨
    c.prunedFloor.any (height ≤ ·) ∨ c.contains height height)

/-- The loop of `guards`. -/
def guardsOf (height : ℕ) (authorship : Bool) : List Indexable → Ix (List GenerationGuard)
  | [] => return []
  | i :: is =>
    if i = .authorship ∧ !authorship then guardsOf height authorship is
    else do
      let expected ← Ix.read fun s => .ok (s.generation i)
      let coverage ← Ix.read fun s => .ok (s.savedCoverage i)
      if !waitsFor height expected coverage then guardsOf height authorship is
      else if ← Ix.read fun s => .ok (s.isUnavailable i expected height) then
        guardsOf height authorship is
      else do
        let guards ← guardsOf height authorship is
        return ⟨i, expected⟩ :: guards

/-- `guards`. -/
def guards (height : ℕ) (authorship : Bool) : Ix (List GenerationGuard) :=
  guardsOf height authorship domains

/-! ### The decoded block -/

/-- The floors of `decode_block` when the block is pruned. -/
def raiseFloors (height : ℕ) : List GenerationGuard → Ix Unit
  | [] => return
  | g :: gs => do
    let coverage ← Ix.read fun s => .ok (s.savedCoverage g.indexable)
    let old := coverage.bind Coverage.prunedFloor
    checkResult (← Ix.store (.setPrunedFloor g (some (old.elim height (max height)))))
    raiseFloors height gs

/-- One turn of the loop of `decode_block`; `again` goes on after a retryable error. -/
def attemptBlock (hash : ChainHash) (purpose : BlockPurpose) (enrichmentAt : ChainHash)
    (height : ℕ) (guards : List GenerationGuard) (again : ChainError → Ix (Option DecodedBlock)) :
    Ix (Option DecodedBlock) := do
  match ← Program.await (.chain (.block hash purpose enrichmentAt)) with
  | .ok block => return some block
  | .error (.pruned message) => do
    raiseFloors height guards
    Ix.note (.error (.chain (.pruned message)))
    return none
  | .error e => do
    Ix.note (.error (.chain e))
    again e

/-- The loop of `decode_block`, with `retries` turns after this one. -/
def requestBlock (hash : ChainHash) (purpose : BlockPurpose) (enrichmentAt : ChainHash)
    (height : ℕ) (guards : List GenerationGuard) : ℕ → Ix (Option DecodedBlock)
  | 0 => attemptBlock hash purpose enrichmentAt height guards fun e => .fail (.chain e)
  | retries + 1 => attemptBlock hash purpose enrichmentAt height guards fun _ =>
    requestBlock hash purpose enrichmentAt height guards retries

/-- `decode_block`. -/
def decodeBlock (height : ℕ) (target : Target) (guards : List GenerationGuard) :
    Ix (Option DecodedBlock) := do
  let full := guards.any fun g => g.indexable = .authorship
  let purpose := if full then BlockPurpose.full else .winnerOnly
  match ← Ix.chain (.blockHash height) with
  | none => .fail (.invalid ("missing finalized block " ++ height.repr))
  | some hash => do
    match ← requestBlock hash purpose target.hash height guards 2 with
    | none => return none
    | some decoded => do
      let number ← Program.ofExcept (decoded.header.height.mapError .chain)
      if number ≠ height ∨ decoded.hash ≠ hash then
        .fail (.invalid "decoded finalized block identity differs from request")
      else return some decoded

/-! ### The winner domains -/

/-- `DomainResult`. -/
inductive DomainResult (α : Type) where
  | complete (record : Option α)
  | unavailable (reason : UnavailableReason)

/-- The record of `winner`, once its proof and nonce are there. -/
def winnerRecord (block : DecodedBlock) (winner : BlockWinnerEvent) (proof : ProofAcceptedEvent)
    (nonce : DecimalText) : Ix BlockRecord := do
  let previous ← if block.events.blockNumber = 0 then pure 0
    else Ix.chain (.lastProofBlock block.header.parentHash)
  let spacing := if previous > 0 then max (block.events.blockNumber - previous) 1 else 0
  let device := (block.qblock.bind QBlockInfo.deviceAccessTimeUs).filter (· > 0)
  let topologyHash ← Ix.chain (.defaultTopology block.hash)
  let topology ← match topologyHash with
    | some hash => do
      let t ← Ix.chain (.topologySummary block.hash hash)
      pure (some t)
    | none => pure none
  let difficulty := block.qblock.elim ⟨0, 0, 0⟩ QBlockInfo.difficulty
  let reward ← decimal winner.reward
  let nonce ← decimal nonce
  return {
    blockHash := modelHash block.hash
    substrateBlockNumber := block.events.blockNumber
    substrateBlockHash := modelHash block.hash
    substrateParentHash := modelHash block.header.parentHash
    timestamp := block.events.timestamp
    minerId := winner.miner
    energy := milliEnergy winner.energyMilli
    diversity := proof.diversityMilli / 1000
    numValidSolutions := proof.validSolutionCount
    miningTime := miningSeconds device spacing
    deviceAccessTimeUs := device
    reward := reward
    qblockId := winner.qblockId
    nonce := nonce
    numNodes := topology.elim 0 TopologySummary.nodeCount
    numEdges := topology.elim 0 TopologySummary.edgeCount
    difficultyEnergy := milliEnergy difficulty.maxEnergyMilli
    minDiversity := difficulty.minDiversityMilli / 1000
    minSolutions := difficulty.minSolutions
    finalized := true
    topologyHash := topologyHash.map modelHash }

/-- `winner`. -/
def winner (block : DecodedBlock) : Ix (DomainResult BlockRecord) :=
  match block.events.winner with
  | none => return .complete none
  | some winner =>
    match block.qblockError with
    | some e => .fail (.chain e)
    | none =>
      match block.events.proofs.find? fun p =>
          p.miner = winner.miner ∧ p.energyMilli = winner.energyMilli with
      | none => return .complete none
      | some proof =>
        match block.events.nonce with
        | none => return .unavailable .missingRetainedNonce
        | some nonce => do
          let record ← winnerRecord block winner proof nonce
          return .complete (some record)

/-- `historical_difficulty`. -/
def historicalDifficulty (block : DecodedBlock) : Ix (DomainResult DifficultyRecord) :=
  match block.events.winner with
  | none => return .complete none
  | some _ =>
    match block.qblockError with
    | some e => .fail (.chain e)
    | none =>
      match block.qblock with
      | none => return .unavailable .missingRetainedDifficulty
      | some qblock => do
        let topology ← Ix.chain (.defaultTopology block.hash)
        let observedAt ← isoTimestamp block.events.timestamp
        return .complete (some {
          observedAtBlock := block.events.blockNumber
          difficultyEnergy := milliEnergy qblock.difficulty.maxEnergyMilli
          minDiversity := qblock.difficulty.minDiversityMilli / 1000
          minSolutions := qblock.difficulty.minSolutions
          observedAt := observedAt
          topologyHash := topology.map modelHash
          source := .block })

/-- `mark_unavailable` of the indexer. -/
def markBlockUnavailable (chain : ChainReader) (block : DecodedBlock) (guard : GenerationGuard)
    (reason : UnavailableReason) : Ix Unit := do
  checkResult (← Ix.store (.markUnavailable (modelHash chain.genesis)
    ⟨guard, block.events.blockNumber, modelHash block.hash, modelHash block.enrichmentAt, reason⟩))

/-! ### Participation -/

/-- `participant_page`. -/
def participantPage (chain : ChainReader) (at_ : ChainHash) (qblock : ℕ)
    (cursor : Option ParticipantCursor) (limit : ℕ) : Ix ParticipantPage := do
  Program.ofExcept ((pageLimit limit).mapError .chain)
  if cursor.any fun c => c.at_ ≠ at_ ∨ c.qblockId ≠ qblock ∨ c.account.length ≠ 32 then
    .fail (.chain (.invalid "participant cursor belongs to another snapshot or qblock"))
  else do
    let rows ← Ix.chain
      (.participantsByQblock at_ qblock (cursor.map ParticipantCursor.account) limit)
    if rows.length > limit then .fail (.chain (.invalid "participant page exceeded limit"))
    else do
      let participants ← Program.ofExcept ((decodeParticipants chain qblock
        (cursor.map ParticipantCursor.account) rows).mapError .chain)
      let exhausted := decide (rows.length < limit)
      let last := (rows.getLast?.map ParticipantRow.account).or
        (cursor.map ParticipantCursor.account)
      return {
        at_ := at_
        participants := participants
        continuation := if exhausted then none
          else last.map fun account => ⟨at_, qblock, account⟩
        exhausted := exhausted }

/-- What one round of `participation` commits: its records, and how it goes on. -/
structure ParticipationPage where
  records : List QBlockParticipationRecord
  cursor : Option ParticipantCursor
  exhausted : Bool

/-- The record of a participant. -/
def QBlockParticipant.record (qblock : ℕ) (p : QBlockParticipant) : QBlockParticipationRecord :=
  ⟨qblock, p.account, p.kind, p.budgetSeconds.map fun n => n, p.blockNumber⟩

/-- The page of one round of `participation`. -/
def participationPage (chain : ChainReader) (limit : ℕ) (block : DecodedBlock)
    (cursor : Option ParticipantCursor) : Ix ParticipationPage :=
  match block.events.winner with
  | none => return ⟨[], cursor, true⟩
  | some winner => do
    let page ← participantPage chain block.enrichmentAt winner.qblockId cursor limit
    if page.at_ ≠ block.enrichmentAt ∨ (!page.exhausted ∧ page.continuation = none) ∨
        (!page.exhausted ∧ page.continuation = cursor) then
      .fail (.invalid "participant page failed to advance pinned cursor")
    else return ⟨page.participants.map (QBlockParticipant.record winner.qblockId),
      page.continuation, page.exhausted⟩

/-- The batch of one round of `participation`. -/
def participationBatch (chain : ChainReader) (block : DecodedBlock) (guard : GenerationGuard)
    (page : ParticipationPage) : BlockCommit where
  genesis := modelHash chain.genesis
  hash := modelHash block.hash
  height := block.events.blockNumber
  guards := [guard]
  records := { BlockRecords.default with participation := page.records }
  completed := if page.exhausted then [.participation] else []

/-- The loop of `participation`, for at most `rounds` rounds. -/
def participationFrom (chain : ChainReader) (limit : ℕ) (block : DecodedBlock)
    (guard : GenerationGuard) : ℕ → Option ParticipantCursor → Ix Unit
  | 0, _ => .pending
  | rounds + 1, cursor => do
    let page ← participationPage chain limit block cursor
    checkResult (← Ix.store (.commitBlock (participationBatch chain block guard page)))
    Ix.note (.files none page.records)
    if page.exhausted then Ix.note (.committed block.events.blockNumber)
    else participationFrom chain limit block guard rounds page.cursor

/-- `participation`.  The accounts of a pass are 32 bytes and increase, so it has fewer
than `2 ^ 256 + 2` rounds. -/
def participation (chain : ChainReader) (limit : ℕ) (block : DecodedBlock)
    (guard : GenerationGuard) : Ix Unit :=
  participationFrom chain limit block guard (2 ^ 256 + 2) none

/-! ### The whole block -/

/-- One turn of the domain loop of `process`. -/
def processDomain (chain : ChainReader) (decoded : DecodedBlock) (batch : BlockCommit)
    (guard : GenerationGuard) : Ix BlockCommit :=
  match guard.indexable with
  | .authorship => return { batch with
      records := { batch.records with authorship := decoded.events.author.map fun account =>
        ⟨account, batch.height, decoded.events.timestamp, decoded.events.winner.isSome⟩ }
      completed := batch.completed ++ [.authorship] }
  | .winners => do
    match ← (winner decoded).attempt with
    | .ok (.complete record) => return { batch with
        records := { batch.records with winner := record }
        completed := batch.completed ++ [.winners] }
    | .ok (.unavailable reason) => do
      markBlockUnavailable chain decoded guard reason
      return batch
    | .error e => do
      Ix.note (.error e)
      return batch
  | .difficulty => do
    match ← (historicalDifficulty decoded).attempt with
    | .ok (.complete record) => return { batch with
        records := { batch.records with difficulty := record }
        completed := batch.completed ++ [.difficulty] }
    | .ok (.unavailable reason) => do
      markBlockUnavailable chain decoded guard reason
      return batch
    | .error e => do
      Ix.note (.error e)
      return batch
  | .participation => return batch

/-- The domain loop of `process`. -/
def processDomains (chain : ChainReader) (decoded : DecodedBlock) :
    List GenerationGuard → BlockCommit → Ix BlockCommit
  | [], batch => return batch
  | g :: gs, batch => do
    let batch ← processDomain chain decoded batch g
    processDomains chain decoded gs batch

/-- Errors of the chain are noted, all others end the block. -/
def noteChainError : Except IndexerError Unit → Ix Unit
  | .ok () => return
  | .error (.chain e) => Ix.note (.error (.chain e))
  | .error e => .fail e

/-- `process`. -/
def process (chain : ChainReader) (height : ℕ) (target : Target) (class_ : WorkClass) :
    Ix Unit := do
  let guards ← guards height true
  if guards = [] then return
  else
    match ← decodeBlock height target guards with
    | none => return
    | some decoded => do
      let batch ← processDomains chain decoded guards
        { genesis := modelHash chain.genesis
          hash := modelHash decoded.hash
          height := height
          guards := guards
          records := .default
          completed := [] }
      if batch.completed ≠ [] then do
        checkResult (← Ix.store (.commitBlock batch))
        Ix.note (.files batch.records.winner [])
        Ix.note (.committed height)
      match guards.find? fun g => g.indexable = .participation with
      | none => pure ()
      | some guard =>
        noteChainError (← (participation chain pageSize decoded guard).attempt)
      if class_ = .live then
        noteChainError (← Program.await (.refresh decoded))

end Dashboard

/-
The operations that write a record, and the row that they leave.

The model of the writers of winners, participants, authorship, descriptors, miners, hardware
and submissions in `dashboard-store/src/blocks.rs`, `miners.rs` and `telemetry.rs` on the
embedded engine, each in the transaction that it runs in, with the tables that the migrations
declare. Every record becomes an object, the object becomes a row by way of `upsert_map`, and
the row is read back with `decode`.

* `StoredRecord.put` — the writers;
* `StoredRecord.write` — the transaction of a record;
* `StoredRecord.readBack` — the row of a record, decoded;
* `StoredRecord.written` — the record that it is the row of.
-/
import QuipDashboard.Blocks
import QuipDashboard.ColumnValues
import QuipDashboard.RowRecords

namespace Dashboard.Turso

/-! ### Tables -/

/-- `blocks`, as the migrations leave it. -/
def blocks : Table where
  name := "blocks"
  columns := [
    ⟨"block_hash", .text, false, .null⟩,
    ⟨"substrate_block_number", .text, true, .null⟩,
    ⟨"substrate_block_hash", .text, true, .null⟩,
    ⟨"substrate_parent_hash", .text, true, .null⟩,
    ⟨"timestamp", .integer, true, .null⟩,
    ⟨"miner_id", .text, true, .null⟩,
    ⟨"energy", .real, true, .null⟩,
    ⟨"diversity", .real, true, .null⟩,
    ⟨"num_valid_solutions", .integer, true, .null⟩,
    ⟨"mining_time", .real, true, .null⟩,
    ⟨"reward", .text, true, .null⟩,
    ⟨"nonce", .text, true, .null⟩,
    ⟨"num_nodes", .integer, true, .null⟩,
    ⟨"num_edges", .integer, true, .null⟩,
    ⟨"difficulty_energy", .real, true, .null⟩,
    ⟨"min_diversity", .real, true, .null⟩,
    ⟨"min_solutions", .integer, true, .null⟩,
    ⟨"finalized", .integer, true, .integer 0⟩,
    ⟨"qblock_id", .text, true, .text "0"⟩,
    ⟨"topology_hash", .text, false, .null⟩,
    ⟨"device_access_time_us", .text, false, .null⟩]
  keys := ["block_hash"]

/-- `qblock_participation`. -/
def qblockParticipation : Table where
  name := "qblock_participation"
  columns := [
    ⟨"qblock_id", .text, true, .null⟩,
    ⟨"account", .text, true, .null⟩,
    ⟨"kind", .text, true, .null⟩,
    ⟨"budget_seconds", .integer, false, .null⟩,
    ⟨"block_number", .text, true, .null⟩]
  keys := ["qblock_id", "account"]

/-- `validator_authorship_blocks`. -/
def validatorAuthorshipBlocks : Table where
  name := "validator_authorship_blocks"
  columns := [
    ⟨"validator", .text, true, .null⟩,
    ⟨"block_number", .text, true, .null⟩,
    ⟨"timestamp", .text, true, .null⟩,
    ⟨"had_winner", .integer, true, .null⟩]
  keys := ["validator", "block_number"]

/-- `node_descriptors`. -/
def nodeDescriptors : Table where
  name := "node_descriptors"
  columns := [
    ⟨"account_id", .text, false, .null⟩,
    ⟨"block_number", .text, true, .null⟩,
    ⟨"block_hash", .text, true, .null⟩,
    ⟨"extrinsic_index", .integer, true, .null⟩,
    ⟨"block_timestamp", .integer, true, .null⟩,
    ⟨"first_block_timestamp", .integer, true, .null⟩,
    ⟨"descriptor", .text, true, .null⟩,
    ⟨"observed_at", .text, true, .null⟩,
    ⟨"node_name", .text, false, .null⟩]
  keys := ["account_id"]

/-- `chain_miners`. -/
def chainMiners : Table where
  name := "chain_miners"
  columns := [
    ⟨"account_id", .text, false, .null⟩,
    ⟨"deposit", .text, true, .null⟩,
    ⟨"proofs_submitted", .text, true, .null⟩,
    ⟨"proofs_won", .text, true, .null⟩,
    ⟨"rewards_earned", .text, true, .null⟩,
    ⟨"updated_at", .text, true, .null⟩]
  keys := ["account_id"]

/-- `miner_hardware`. -/
def minerHardware : Table where
  name := "miner_hardware"
  columns := [
    ⟨"account_id", .text, false, .null⟩,
    ⟨"node_id", .text, true, .null⟩,
    ⟨"miners", .text, true, .null⟩,
    ⟨"primary_type", .text, true, .null⟩,
    ⟨"source", .text, true, .null⟩,
    ⟨"observed_at", .text, true, .null⟩]
  keys := ["account_id"]

/-- `mining_submissions`. -/
def miningSubmissions : Table where
  name := "mining_submissions"
  columns := [
    ⟨"miner_id", .text, true, .null⟩,
    ⟨"solution_number", .text, true, .null⟩,
    ⟨"ts_ns", .text, true, .null⟩,
    ⟨"energy_milli", .integer, true, .null⟩,
    ⟨"diversity_milli", .integer, true, .null⟩,
    ⟨"threshold_milli", .integer, true, .null⟩,
    ⟨"last_proof_block_hash", .text, true, .null⟩,
    ⟨"extrinsic_hash", .text, false, .null⟩,
    ⟨"chain_block_hash", .text, false, .null⟩,
    ⟨"chain_block_number", .text, false, .null⟩,
    ⟨"pow_sequence", .text, false, .null⟩,
    ⟨"outcome", .text, true, .null⟩,
    ⟨"attempt_count", .integer, true, .null⟩,
    ⟨"best_energy_milli", .integer, true, .null⟩,
    ⟨"num_valid", .integer, true, .integer 0⟩,
    ⟨"miner_type", .text, true, .text ""⟩,
    ⟨"qpu_access_time_us", .text, true, .text "0"⟩,
    ⟨"observed_at", .text, true, .null⟩]
  keys := ["miner_id", "solution_number"]

/-- `SELECT *`. -/
def Table.all (t : Table) : List String := t.columns.map Column.name

/-! ### The store -/

/-- The bound genesis hash, and the rows of each table under its key. -/
structure RowStore where
  genesis : Option String
  rows : String → KeyedTable (List SqlValue) Row

namespace RowStore

/-- Put the rows of a table in place. -/
def setRows (s : RowStore) (t : Table) (rows : KeyedTable (List SqlValue) Row) : RowStore :=
  { s with rows := fun name => if name = t.name then rows else s.rows name }

@[simp] theorem rows_setRows (s : RowStore) (t : Table) (rows : KeyedTable (List SqlValue) Row) :
    (s.setRows t rows).rows t.name = rows := if_pos rfl

/-- `require_bound`. -/
def requireBound (s : RowStore) : Except StoreError String :=
  match s.genesis with
  | some genesis => .ok genesis
  | none => .error .networkIdentity

end RowStore

/-- The condition of `upsert_map`: none, `NOTHING`, or one on the stored and the new row. -/
inductive Conflict where
  | always
  | nothing
  | when (p : Row → Row → Bool)

/-- The row that a conflict leaves: with these columns of the new one. -/
def Conflict.resolve (condition : Conflict) (update : List String) (new old : Row) :
    Option Row :=
  let merged : Row := fun column => if column ∈ update then new column else old column
  match condition with
  | .nothing => none
  | .always => if update = [] then none else some merged
  | .when p => if update = [] ∨ p old new = false then none else some merged

/-- `a IS DISTINCT FROM b` for one of the columns. -/
def distinctIn (columns : List String) (old new : Row) : Bool :=
  columns.any fun column => old column ≠ new column

section

variable (E : Conversions)

/-- `upsert_map`. -/
def upsertMap (t : Table) (object : List (String × JsonValue)) (exclude : List String)
    (condition : Conflict) : Tx RowStore StoreError ℕ := do
  let args ← Tx.ofExcept (arguments E t object)
  let row ← Tx.ofExcept (insertRow E t args)
  let update := (args.map Prod.fst).filter fun k => !t.keys.contains k && !exclude.contains k
  Tx.update fun s =>
    let r := (s.rows t.name).upsert (t.keys.map row) row (condition.resolve update row)
    (r.1, s.setRows t r.2)

/-- `upsert`. -/
def upsert {S R : Type} (t : Table) (F : Fields S R) (record : S) (exclude : List String)
    (condition : Conflict) : Tx RowStore StoreError ℕ :=
  upsertMap E t (columnsOf (F.entries record)) exclude condition

/-! ### The writers -/

/-- The decimal text of a number. -/
def decimalText (n : ℕ) : String := String.ofList (DigitOrder.text n)

/-- The row under a key, decoded. -/
def readRow {S R : Type} (F : Fields S R) (columns : List String) (t : Table)
    (key : List SqlValue) (s : RowStore) : Except StoreError (Option R) :=
  match (s.rows t.name).get? key with
  | none => .ok none
  | some row => (decodeRecord E F columns row).map some

/-- The enrichment of `upsert_winner`. -/
def BlockRecord.enrich (b existing : BlockRecord) : BlockRecord :=
  { b with
    topologyHash := b.topologyHash.or existing.topologyHash
    deviceAccessTimeUs := b.deviceAccessTimeUs.or existing.deviceAccessTimeUs }

/-- A winner with its machine integers as numbers. -/
def BlockRecord.record (b : BlockRecord) : Dashboard.BlockRecord where
  blockHash := b.blockHash
  substrateBlockNumber := b.substrateBlockNumber
  substrateBlockHash := b.substrateBlockHash
  substrateParentHash := b.substrateParentHash
  timestamp := b.timestamp.toNat
  minerId := b.minerId
  energy := b.energy
  diversity := b.diversity
  numValidSolutions := b.numValidSolutions.toNat
  miningTime := b.miningTime
  deviceAccessTimeUs := b.deviceAccessTimeUs.map UInt64.toNat
  reward := b.reward
  qblockId := b.qblockId
  nonce := b.nonce
  numNodes := b.numNodes.toNat
  numEdges := b.numEdges.toNat
  difficultyEnergy := b.difficultyEnergy
  minDiversity := b.minDiversity
  minSolutions := b.minSolutions.toNat
  finalized := b.finalized
  topologyHash := b.topologyHash

/-- `upsert_winner`; `write_winner` goes on to refresh `node_summary`, another table. -/
def writeWinner (b : BlockRecord) : Tx RowStore StoreError ℕ := do
  let existing ← Tx.readM fun s =>
    readRow E BlockRecord.fields blocks.all blocks [.text b.blockHash.text] s
  match existing with
  | some existing =>
    if (b.enrich existing).record.same existing.record then return 0
    else upsert E blocks BlockRecord.fields (b.enrich existing) [] .always
  | none => upsert E blocks BlockRecord.fields b [] .nothing

/-- The object of a participant, with its budget as an integer. -/
def participantObject (p : QBlockParticipationRecord) : List (String × JsonValue) :=
  match p.budgetSeconds with
  | some n =>
    JsonValue.insert "budgetSeconds" (.number (.ofInt n.floor)) (participantFields.entries p)
  | none => participantFields.entries p

/-- `write_participant`. -/
def writeParticipant (p : QBlockParticipationRecord) : Tx RowStore StoreError ℕ :=
  if p.budgetSeconds.any invalidBudget then .fail (.invalid "invalid participant budget")
  else
    upsertMap E qblockParticipation (columnsOf (participantObject p)) []
      (.when (distinctIn ["kind", "budget_seconds", "block_number"]))

/-- `iso`. -/
def iso (seconds : UInt64) : Except StoreError String :=
  if seconds.toNat ≤ i64Max then
    match E.ofSeconds (Int64.ofInt seconds.toNat) with
    | some s => .ok s
    | none => .error (.invalid "timestamp out of range")
  else .error (.invalid "out of range integral type conversion attempted")

/-- `text`: a scalar of a row that `query` returned. -/
def rowText (row : Row) (column : String) : Except StoreError String :=
  match queried (row column) with
  | .string s => .ok s
  | .number n => .ok n.text
  | _ => .error (.invalid ("non-scalar column " ++ column))

/-- The check of `write_authorship` on a stored row of the height. -/
def sameAuthorship (a : AuthorshipRecord) (row : Row) : Except StoreError Unit := do
  let validator ← rowText row "validator"
  if validator ≠ a.accountId then .error (.invalid "conflicting finalized authorship")
  else
    let stored ← (rowText row "timestamp").bind (canonicalText E)
    let time ← iso E a.timestamp
    if stored ≠ time then .error (.invalid "conflicting finalized authorship") else .ok ()

/-- `write_authorship`. -/
def writeAuthorship (a : AuthorshipRecord) : Tx RowStore StoreError ℕ := do
  let _ ← Tx.readM fun s =>
    ((s.rows validatorAuthorshipBlocks.name).rows.filter fun e =>
      e.2 "block_number" = .text (decimalText a.blockNumber)).mapM fun e => sameAuthorship E a e.2
  let time ← Tx.ofExcept (iso E a.timestamp)
  upsert E validatorAuthorshipBlocks AuthorshipRow.fields
    ⟨a.accountId, a.blockNumber, time, a.hadWinner⟩ []
    (.when fun old new => old "had_winner" = .integer 0 && new "had_winner" = .integer 1)

/-- The condition of `upsert_node_descriptor`: a later position on the chain. -/
def laterDescriptor (old new : Row) : Bool :=
  match old "block_number", new "block_number", old "extrinsic_index", new "extrinsic_index" with
  | .text a, .text b, .integer i, .integer j =>
    decide (DigitOrder.Less a.toList b.toList) || (a = b && decide (i < j))
  | _, _, _, _ => false

/-- `UPDATE node_descriptors SET node_name=descriptor->>'nodeName' WHERE account_id=?1`. -/
def setNodeName (account : String) (s : RowStore) : RowStore :=
  match (s.rows nodeDescriptors.name).get? [.text account] with
  | none => s
  | some row =>
    let name : SqlValue :=
      match row "descriptor" with
      | .text document => Affinity.text.keep E (E.nodeName document)
      | _ => .null
    s.setRows nodeDescriptors ((s.rows nodeDescriptors.name).put [.text account] fun column =>
      if column = "node_name" then name else row column)

/-- `upsert_node_descriptor`, within its transaction. -/
def writeNodeDescriptor (r : NodeDescriptorRecord) : Tx RowStore StoreError Unit := do
  let _ ← upsert E nodeDescriptors NodeDescriptorRecord.fields
    { r with firstBlockTimestamp := r.blockTimestamp } ["first_block_timestamp"]
    (.when laterDescriptor)
  Tx.update fun s => ((), setNodeName E r.accountId s)

/-- The object of a miner: without what the API joins, and with the time of the write. -/
def chainMinerObject (now : String) (m : ChainMinerRecord) : List (String × JsonValue) :=
  ((ChainMinerRecord.fields.entries m).filter fun e =>
    e.1 ≠ "hardware" ∧ e.1 ≠ "telemetryNodeAddress") ++ [("updatedAt", .string now)]

/-- One miner of `upsert_chain_miners`, within its transaction. -/
def writeChainMiner (now : String) (m : ChainMinerRecord) : Tx RowStore StoreError ℕ :=
  upsertMap E chainMiners (columnsOf (chainMinerObject now m)) []
    (.when (distinctIn ["deposit", "proofs_submitted", "proofs_won", "rewards_earned"]))

/-- `upsert_miner_hardware`, within its transaction. -/
def writeMinerHardware (h : MinerHardwareRecord) : Tx RowStore StoreError ℕ :=
  upsert E minerHardware MinerHardwareRecord.fields h []
    (.when (distinctIn ["node_id", "miners", "primary_type", "source"]))

/-- One submission of `insert_mining_submission` or `commit_mining_submissions`, within its
transaction. -/
def writeMiningSubmission (r : MiningSubmissionRecord) : Tx RowStore StoreError ℕ :=
  upsert E miningSubmissions MiningSubmissionRecord.fields r ["observed_at"] .always

end

/-! ### Records of all kinds -/

/-- A record that the store writes. -/
inductive StoredRecord where
  | winner (b : BlockRecord)
  | participant (p : QBlockParticipationRecord)
  | authorship (a : AuthorshipRecord)
  | descriptor (r : NodeDescriptorRecord)
  | miner (m : ChainMinerRecord)
  | hardware (h : MinerHardwareRecord)
  | submission (r : MiningSubmissionRecord)

/-- A row of authorship as the fact that it was written of: the validator, and the second of
its canonical time. -/
def AuthorshipRow.record (E : Conversions) (row : AuthorshipRow) :
    Except StoreError AuthorshipRecord := do
  let time ← canonicalText E row.timestamp
  let seconds ← (E.seconds time).mapError .invalid
  return ⟨row.validator, row.blockNumber, UInt64.ofNat seconds.toInt.toNat, row.hadWinner⟩

namespace StoredRecord

/-- The table of a record. -/
def table : StoredRecord → Table
  | winner _ => blocks
  | participant _ => qblockParticipation
  | authorship _ => validatorAuthorshipBlocks
  | descriptor _ => nodeDescriptors
  | miner _ => chainMiners
  | hardware _ => minerHardware
  | submission _ => miningSubmissions

/-- The primary key of the row of a record. -/
def key : StoredRecord → List SqlValue
  | winner b => [.text b.blockHash.text]
  | participant p => [.text (decimalText p.qblockId), .text p.account]
  | authorship a => [.text a.accountId, .text (decimalText a.blockNumber)]
  | descriptor r => [.text r.accountId]
  | miner m => [.text m.accountId]
  | hardware h => [.text h.accountId]
  | submission r => [.text r.minerId, .text (toString (r.solutionNumber.toNat : ℤ))]

/-- The documents of a record, which are stored as their texts. -/
def documents : StoredRecord → List JsonValue
  | descriptor r => [NodeDescriptor.codec.encode r.descriptor]
  | hardware h => [(Codec.list handleCodec).encode h.miners]
  | _ => []

section

variable (E : Conversions)

/-- The writer of a record. -/
def put (now : String) : StoredRecord → Tx RowStore StoreError Unit
  | winner b => do let _ ← writeWinner E b
  | participant p => do let _ ← writeParticipant E p
  | authorship a => do let _ ← writeAuthorship E a
  | descriptor r => writeNodeDescriptor E r
  | miner m => do let _ ← writeChainMiner E now m
  | hardware h => do let _ ← writeMinerHardware E h
  | submission r => do let _ ← writeMiningSubmission E r

/-- The transaction that a record is written in. -/
def write (now : String) (r : StoredRecord) : RowStore → Except StoreError Unit × RowStore :=
  Tx.write do
    let _ ← Tx.readM RowStore.requireBound
    r.put E now
    return .commit ()

/-- Read the row of a record back and decode it. -/
def readBack (s : RowStore) : StoredRecord → Except StoreError (Option StoredRecord)
  | r@(winner _) =>
    (readRow E BlockRecord.fields blocks.all blocks r.key s).map (·.map winner)
  | r@(participant _) =>
    (readRow E participantFields qblockParticipation.all qblockParticipation r.key s).map
      (·.map participant)
  | r@(authorship _) => do
    match ← readRow E AuthorshipRow.fields validatorAuthorshipBlocks.all
      validatorAuthorshipBlocks r.key s with
    | none => .ok none
    | some row => (row.record E).map fun a => some (authorship a)
  | r@(descriptor _) =>
    (readRow E NodeDescriptorRecord.fields nodeDescriptors.all nodeDescriptors r.key s).map
      (·.map descriptor)
  | r@(miner _) =>
    -- `SELECT *,NULL AS hardware,NULL AS telemetry_node_address`
    (readRow E ChainMinerRecord.fields
      (chainMiners.all ++ ["hardware", "telemetry_node_address"]) chainMiners r.key s).map
      (·.map miner)
  | r@(hardware _) =>
    (readRow E MinerHardwareRecord.fields minerHardware.all minerHardware r.key s).map
      (·.map hardware)
  | r@(submission _) =>
    (readRow E MiningSubmissionRecord.fields miningSubmissions.all miningSubmissions r.key s).map
      (·.map submission)

/-- The record that is written: timestamps in their canonical form, a descriptor first seen
when its block was made, a miner without what the API joins. -/
def written : StoredRecord → Except StoreError StoredRecord
  | winner b => .ok (winner b)
  | participant p => .ok (participant p)
  | authorship a => .ok (authorship a)
  | descriptor r => do
    let observedAt ← canonicalText E r.observedAt
    return descriptor
      { r with firstBlockTimestamp := r.blockTimestamp, observedAt := observedAt }
  | miner m => .ok (miner { m with telemetryNodeAddress := none, hardware := none })
  | hardware h => do
    let observedAt ← canonicalText E h.observedAt
    return hardware { h with observedAt := observedAt }
  | submission r => do
    let observedAt ← canonicalText E r.observedAt
    return submission { r with observedAt := observedAt }

end

end StoredRecord

end Dashboard.Turso

/-
The records of the store, with the JSON that `serde` derives for them.

The model of the records of `dashboard-model/src/chain.rs`, `miner.rs` and `node.rs` that
the store writes, with their machine integers and with timestamps as texts. For each of them
`fields` lists its members, in the order of the source.

* `BlockRecord.fields`, …, `MiningSubmissionRecord.fields` — the members of a row's record;
* `NodeDescriptor.codec` — a descriptor, with all that is nested in it;
* `BlockRecord.agrees_of_decode`, … — a record is read only from members that agree with
  it, so that none of its fields comes from elsewhere.
-/
import QuipDashboard.ConditionalUpserts
import QuipDashboard.FreshAuthorship
import QuipDashboard.JsonRecords

namespace Dashboard.Turso

open Codec Member Fields

/-! ### Texts -/

/-- `DecimalString` as JSON. -/
def decimalCodec : Codec ℕ :=
  Codec.text (fun n => String.ofList (DigitOrder.text n))
    (fun s => (decimalFromStr s.toList).toOption.map DigitOrder.value) fun n => by
      rw [String.toList_ofList, fromStr_text]
      exact congrArg some (DigitOrder.value_text n)

/-- `BlockHash` as JSON. -/
def hashCodec : Codec BlockHash :=
  Codec.text BlockHash.text (fun s => (BlockHash.fromStr s).toOption) fun hash => by
    unfold BlockHash.fromStr
    split
    · rename_i bytes h
      exact congrArg some (BlockHash.eq_of_text rfl)
    · rename_i h
      rw [hash.parsed] at h
      cases h

/-- `MinerCategory` as JSON. -/
def categoryCodec : Codec MinerCategory :=
  Codec.text
    (fun
      | .cpu => "CPU"
      | .gpu => "GPU"
      | .qpu => "QPU"
      | .other => "OTHER")
    (fun s =>
      if s = "CPU" then some .cpu
      else if s = "GPU" then some .gpu
      else if s = "QPU" then some .qpu
      else if s = "OTHER" then some .other
      else none)
    fun c => by cases c <;> decide

/-- `MinerHardwareSource` as JSON. -/
def sourceCodec : Codec MinerHardwareSource :=
  Codec.text
    (fun
      | .selfAccount => "self"
      | .peerQuery => "peer-query"
      | .chain => "chain")
    (fun s =>
      if s = "self" then some .selfAccount
      else if s = "peer-query" then some .peerQuery
      else if s = "chain" then some .chain
      else none)
    fun c => by cases c <;> decide

/-- `MinerHandle` as JSON. -/
def handleFields : Fields MinerHandle MinerHandle :=
  start MinerHandle.mk
    |>.member "id" (required string) MinerHandle.id
    |>.member "type" (required categoryCodec) MinerHandle.minerType

def handleCodec : Codec MinerHandle := handleFields.codec (fun _ => rfl) (by decide)

/-! ### Descriptors -/

/-- `NodeSystemCpu`. -/
structure NodeSystemCpu where
  logicalCores : Option UInt32
  physicalCores : Option UInt32
  brand : Option String
  arch : Option String

namespace NodeSystemCpu

def fields : Fields NodeSystemCpu NodeSystemCpu :=
  start mk
    |>.member "logicalCores" (skippable u32) logicalCores
    |>.member "physicalCores" (skippable u32) physicalCores
    |>.member "brand" (skippable string) brand
    |>.member "arch" (skippable string) arch

def codec : Codec NodeSystemCpu := fields.codec (fun _ => rfl) (by decide)

end NodeSystemCpu

/-- `NodeSystemOs`. -/
structure NodeSystemOs where
  system : Option String
  release : Option String
  machine : Option String

namespace NodeSystemOs

def fields : Fields NodeSystemOs NodeSystemOs :=
  start mk
    |>.member "system" (skippable string) system
    |>.member "release" (skippable string) release
    |>.member "machine" (skippable string) machine

def codec : Codec NodeSystemOs := fields.codec (fun _ => rfl) (by decide)

end NodeSystemOs

/-- `NodeSystemGpu`. -/
structure NodeSystemGpu where
  index : Option UInt32
  vendor : Option String
  name : Option String
  memoryMb : Option UInt64
  observedUtilizationPct : Option ℚ

namespace NodeSystemGpu

def fields : Fields NodeSystemGpu NodeSystemGpu :=
  start mk
    |>.member "index" (skippable u32) index
    |>.member "vendor" (skippable string) vendor
    |>.member "name" (skippable string) name
    |>.member "memoryMb" (skippable u64) memoryMb
    |>.member "observedUtilizationPct" (skippable f64) observedUtilizationPct

def codec : Codec NodeSystemGpu := fields.codec (fun _ => rfl) (by decide)

end NodeSystemGpu

/-- `NodeSystemInfo`. -/
structure NodeSystemInfo where
  os : Option NodeSystemOs
  cpu : Option NodeSystemCpu
  memoryMb : Option UInt64
  gpus : Option (List NodeSystemGpu)

namespace NodeSystemInfo

def fields : Fields NodeSystemInfo NodeSystemInfo :=
  start mk
    |>.member "os" (skippable NodeSystemOs.codec) os
    |>.member "cpu" (skippable NodeSystemCpu.codec) cpu
    |>.member "memoryMb" (skippable u64) memoryMb
    |>.member "gpus" (skippable (list NodeSystemGpu.codec)) gpus

def codec : Codec NodeSystemInfo := fields.codec (fun _ => rfl) (by decide)

end NodeSystemInfo

/-- `NodeRuntime`. -/
structure NodeRuntime where
  python : Option String
  quipVersion : Option String
  protocolVersion : Option UInt32
  inDocker : Option Bool
  dockerImage : Option String

namespace NodeRuntime

def fields : Fields NodeRuntime NodeRuntime :=
  start mk
    |>.member "python" (skippable string) python
    |>.member "quipVersion" (skippable string) quipVersion
    |>.member "protocolVersion" (skippable u32) protocolVersion
    |>.member "inDocker" (skippable bool) inDocker
    |>.member "dockerImage" (skippable string) dockerImage

def codec : Codec NodeRuntime := fields.codec (fun _ => rfl) (by decide)

end NodeRuntime

/-- `NodeMinerEntry`. -/
structure NodeMinerEntry where
  kind : MinerCategory
  minerId : String
  numCpus : Option UInt32
  backend : Option String
  deviceIndex : Option UInt32
  utilization : Option ℚ
  provider : Option String
  solver : Option String
  dailyBudget : Option String

namespace NodeMinerEntry

def fields : Fields NodeMinerEntry NodeMinerEntry :=
  start mk
    |>.member "kind" (required categoryCodec) NodeMinerEntry.kind
    |>.member "minerId" (required string) minerId
    |>.member "numCpus" (skippable u32) numCpus
    |>.member "backend" (skippable string) backend
    |>.member "deviceIndex" (skippable u32) deviceIndex
    |>.member "utilization" (skippable f64) utilization
    |>.member "provider" (skippable string) provider
    |>.member "solver" (skippable string) solver
    |>.member "dailyBudget" (skippable string) dailyBudget

def codec : Codec NodeMinerEntry := fields.codec (fun _ => rfl) (by decide)

end NodeMinerEntry

/-- `NodeDescriptorSchema`. -/
inductive NodeDescriptorSchema where
  | v1

def schemaCodec : Codec NodeDescriptorSchema :=
  Codec.text (fun _ => "quip.node_descriptor.v1")
    (fun s => if s = "quip.node_descriptor.v1" then some .v1 else none) fun _ => rfl

/-- `NodeDescriptor`. -/
structure NodeDescriptor where
  schema : NodeDescriptorSchema
  descriptorVersion : UInt8
  nodeName : String
  publicHost : Option String
  publicPort : Option UInt16
  rpcEndpoints : Option (List String)
  logLevel : Option String
  runtime : Option NodeRuntime
  miners : Option (KeyedTable String NodeMinerEntry)
  systemInfo : Option NodeSystemInfo

namespace NodeDescriptor

def fields : Fields NodeDescriptor NodeDescriptor :=
  start mk
    |>.member "schema" (required schemaCodec) schema
    |>.member "descriptorVersion" (required u8) descriptorVersion
    |>.member "nodeName" (required string) nodeName
    |>.member "publicHost" (skippable string) publicHost
    |>.member "publicPort" (skippable u16) publicPort
    |>.member "rpcEndpoints" (skippable (list string)) rpcEndpoints
    |>.member "logLevel" (skippable string) logLevel
    |>.member "runtime" (skippable NodeRuntime.codec) runtime
    |>.member "miners" (skippable (table NodeMinerEntry.codec)) miners
    |>.member "systemInfo" (skippable NodeSystemInfo.codec) systemInfo

def codec : Codec NodeDescriptor := fields.codec (fun _ => rfl) (by decide)

end NodeDescriptor

/-! ### The records of rows -/

/-- `NodeDescriptorRecord`. -/
structure NodeDescriptorRecord where
  accountId : String
  blockNumber : ℕ
  blockHash : BlockHash
  extrinsicIndex : UInt32
  blockTimestamp : UInt64
  firstBlockTimestamp : UInt64
  descriptor : NodeDescriptor
  observedAt : String

namespace NodeDescriptorRecord

/-- The members but for the time of the observation. -/
def facts : Fields NodeDescriptorRecord (String → NodeDescriptorRecord) :=
  start mk
    |>.member "accountId" (required string) accountId
    |>.member "blockNumber" (required decimalCodec) blockNumber
    |>.member "blockHash" (required hashCodec) blockHash
    |>.member "extrinsicIndex" (required u32) extrinsicIndex
    |>.member "blockTimestamp" (required u64) blockTimestamp
    |>.member "firstBlockTimestamp" (required u64) firstBlockTimestamp
    |>.member "descriptor" (required NodeDescriptor.codec) descriptor

def fields : Fields NodeDescriptorRecord NodeDescriptorRecord :=
  facts
    |>.member "observedAt" (required string) observedAt

/-- A record is read only from members that agree with it. -/
theorem agrees_of_decode {look : String → Option JsonValue} {r : NodeDescriptorRecord}
    (h : fields.decode look = some r) : fields.agrees look r := by
  have hall : ∃ r', fields.decode look = some r' ∧ r' = r := ⟨r, h, rfl⟩
  simp only [fields, facts, exists_decode_member, exists_decode_start] at hall
  obtain ⟨_, h₁, _, h₂, _, h₃, _, h₄, _, h₅, _, h₆, _, h₇, _, h₈, rfl⟩ := hall
  simp only [fields, facts, agrees_member, agrees_start, true_and, and_assoc]
  exact ⟨h₁, h₂, h₃, h₄, h₅, h₆, h₇, h₈⟩

end NodeDescriptorRecord

/-- `BlockRecord`. -/
structure BlockRecord where
  blockHash : BlockHash
  substrateBlockNumber : ℕ
  substrateBlockHash : BlockHash
  substrateParentHash : BlockHash
  timestamp : UInt64
  minerId : String
  energy : ℚ
  diversity : ℚ
  numValidSolutions : UInt64
  miningTime : ℚ
  deviceAccessTimeUs : Option UInt64
  reward : ℕ
  qblockId : ℕ
  nonce : ℕ
  numNodes : UInt32
  numEdges : UInt32
  difficultyEnergy : ℚ
  minDiversity : ℚ
  minSolutions : UInt32
  finalized : Bool
  topologyHash : Option BlockHash

namespace BlockRecord

def fields : Fields BlockRecord BlockRecord :=
  start mk
    |>.member "blockHash" (required hashCodec) blockHash
    |>.member "substrateBlockNumber" (required decimalCodec) substrateBlockNumber
    |>.member "substrateBlockHash" (required hashCodec) substrateBlockHash
    |>.member "substrateParentHash" (required hashCodec) substrateParentHash
    |>.member "timestamp" (required u64) timestamp
    |>.member "minerId" (required string) minerId
    |>.member "energy" (required f64) energy
    |>.member "diversity" (required f64) diversity
    |>.member "numValidSolutions" (required u64) numValidSolutions
    |>.member "miningTime" (required f64) miningTime
    |>.member "deviceAccessTimeUs" (nullable u64) deviceAccessTimeUs
    |>.member "reward" (required decimalCodec) reward
    |>.member "qblockId" (required decimalCodec) qblockId
    |>.member "nonce" (required decimalCodec) nonce
    |>.member "numNodes" (required u32) numNodes
    |>.member "numEdges" (required u32) numEdges
    |>.member "difficultyEnergy" (required f64) difficultyEnergy
    |>.member "minDiversity" (required f64) minDiversity
    |>.member "minSolutions" (required u32) minSolutions
    |>.member "finalized" (required bool) finalized
    |>.member "topologyHash" (nullable hashCodec) topologyHash

/-- A record is read only from members that agree with it. -/
theorem agrees_of_decode {look : String → Option JsonValue} {r : BlockRecord}
    (h : fields.decode look = some r) : fields.agrees look r := by
  have hall : ∃ r', fields.decode look = some r' ∧ r' = r := ⟨r, h, rfl⟩
  simp only [fields, exists_decode_member, exists_decode_start] at hall
  obtain ⟨_, h₁, _, h₂, _, h₃, _, h₄, _, h₅, _, h₆, _, h₇, _, h₈, _, h₉, _, h₁₀, _, h₁₁, _, h₁₂,
    _, h₁₃, _, h₁₄, _, h₁₅, _, h₁₆, _, h₁₇, _, h₁₈, _, h₁₉, _, h₂₀, _, h₂₁, rfl⟩ := hall
  simp only [fields, agrees_member, agrees_start, true_and, and_assoc]
  exact ⟨h₁, h₂, h₃, h₄, h₅, h₆, h₇, h₈, h₉, h₁₀, h₁₁, h₁₂, h₁₃, h₁₄, h₁₅, h₁₆, h₁₇, h₁₈, h₁₉,
    h₂₀, h₂₁⟩

end BlockRecord

/-- `AuthorshipRecord`. -/
structure AuthorshipRecord where
  accountId : String
  blockNumber : ℕ
  timestamp : UInt64
  hadWinner : Bool

/-- A row of `validator_authorship_blocks`, with the text that it keeps of a time. -/
structure AuthorshipRow where
  validator : String
  blockNumber : ℕ
  timestamp : String
  hadWinner : Bool

namespace AuthorshipRow

def fields : Fields AuthorshipRow AuthorshipRow :=
  start mk
    |>.member "validator" (required string) validator
    |>.member "blockNumber" (required decimalCodec) blockNumber
    |>.member "timestamp" (required string) timestamp
    |>.member "hadWinner" (required bool) hadWinner

/-- A row is read only from members that agree with it. -/
theorem agrees_of_decode {look : String → Option JsonValue} {r : AuthorshipRow}
    (h : fields.decode look = some r) : fields.agrees look r := by
  have hall : ∃ r', fields.decode look = some r' ∧ r' = r := ⟨r, h, rfl⟩
  simp only [fields, exists_decode_member, exists_decode_start] at hall
  obtain ⟨_, h₁, _, h₂, _, h₃, _, h₄, rfl⟩ := hall
  simp only [fields, agrees_member, agrees_start, true_and, and_assoc]
  exact ⟨h₁, h₂, h₃, h₄⟩

end AuthorshipRow

/-- `MinerHardwareRecord`. -/
structure MinerHardwareRecord where
  accountId : String
  nodeId : String
  miners : List MinerHandle
  primaryType : MinerCategory
  source : MinerHardwareSource
  observedAt : String

namespace MinerHardwareRecord

/-- The members but for the time of the observation. -/
def facts : Fields MinerHardwareRecord (String → MinerHardwareRecord) :=
  start mk
    |>.member "accountId" (required string) accountId
    |>.member "nodeId" (required string) nodeId
    |>.member "miners" (required (list handleCodec)) miners
    |>.member "primaryType" (required categoryCodec) primaryType
    |>.member "source" (required sourceCodec) source

def fields : Fields MinerHardwareRecord MinerHardwareRecord :=
  facts
    |>.member "observedAt" (required string) observedAt

def codec : Codec MinerHardwareRecord := fields.codec (fun _ => rfl) (by decide)

/-- A record is read only from members that agree with it. -/
theorem agrees_of_decode {look : String → Option JsonValue} {r : MinerHardwareRecord}
    (h : fields.decode look = some r) : fields.agrees look r := by
  have hall : ∃ r', fields.decode look = some r' ∧ r' = r := ⟨r, h, rfl⟩
  simp only [fields, facts, exists_decode_member, exists_decode_start] at hall
  obtain ⟨_, h₁, _, h₂, _, h₃, _, h₄, _, h₅, _, h₆, rfl⟩ := hall
  simp only [fields, facts, agrees_member, agrees_start, true_and, and_assoc]
  exact ⟨h₁, h₂, h₃, h₄, h₅, h₆⟩

end MinerHardwareRecord

/-- `ChainMinerRecord`. -/
structure ChainMinerRecord where
  accountId : String
  deposit : ℕ
  proofsSubmitted : ℕ
  proofsWon : ℕ
  rewardsEarned : ℕ
  telemetryNodeAddress : Option String
  hardware : Option MinerHardwareRecord

namespace ChainMinerRecord

def fields : Fields ChainMinerRecord ChainMinerRecord :=
  start mk
    |>.member "accountId" (required string) accountId
    |>.member "deposit" (required decimalCodec) deposit
    |>.member "proofsSubmitted" (required decimalCodec) proofsSubmitted
    |>.member "proofsWon" (required decimalCodec) proofsWon
    |>.member "rewardsEarned" (required decimalCodec) rewardsEarned
    |>.member "telemetryNodeAddress" (nullable string) telemetryNodeAddress
    |>.member "hardware" (nullable MinerHardwareRecord.codec) hardware

end ChainMinerRecord

/-- `MiningSubmissionRecord`. -/
structure MiningSubmissionRecord where
  solutionNumber : UInt64
  minerId : String
  minerType : String
  tsNs : ℕ
  energyMilli : Int64
  diversityMilli : Int64
  thresholdMilli : Int64
  lastProofBlockHash : String
  extrinsicHash : Option BlockHash
  chainBlockHash : Option BlockHash
  chainBlockNumber : Option ℕ
  powSequence : Option UInt64
  outcome : String
  attemptCount : UInt32
  bestEnergyMilli : Int64
  numValid : UInt64
  qpuAccessTimeUs : UInt64
  observedAt : String
  chainOnly : Option Bool

namespace MiningSubmissionRecord

/-- The members but for the time of the observation and what follows it. -/
def facts : Fields MiningSubmissionRecord (String → Option Bool → MiningSubmissionRecord) :=
  start mk
    |>.member "solutionNumber" (required u64) solutionNumber
    |>.member "minerId" (required string) minerId
    |>.member "minerType" (required string) minerType
    |>.member "tsNs" (required decimalCodec) tsNs
    |>.member "energyMilli" (required i64) energyMilli
    |>.member "diversityMilli" (required i64) diversityMilli
    |>.member "thresholdMilli" (required i64) thresholdMilli
    |>.member "lastProofBlockHash" (required string) lastProofBlockHash
    |>.member "extrinsicHash" (nullable hashCodec) extrinsicHash
    |>.member "chainBlockHash" (nullable hashCodec) chainBlockHash
    |>.member "chainBlockNumber" (nullable decimalCodec) chainBlockNumber
    |>.member "powSequence" (nullable u64) powSequence
    |>.member "outcome" (required string) outcome
    |>.member "attemptCount" (required u32) attemptCount
    |>.member "bestEnergyMilli" (required i64) bestEnergyMilli
    |>.member "numValid" (required u64) numValid
    |>.member "qpuAccessTimeUs" (required u64) qpuAccessTimeUs

def fields : Fields MiningSubmissionRecord MiningSubmissionRecord :=
  facts
    |>.member "observedAt" (required string) observedAt
    |>.member "chainOnly" (skippable bool) chainOnly

/-- A record is read only from members that agree with it. -/
theorem agrees_of_decode {look : String → Option JsonValue} {r : MiningSubmissionRecord}
    (h : fields.decode look = some r) : fields.agrees look r := by
  have hall : ∃ r', fields.decode look = some r' ∧ r' = r := ⟨r, h, rfl⟩
  simp only [fields, facts, exists_decode_member, exists_decode_start] at hall
  obtain ⟨_, h₁, _, h₂, _, h₃, _, h₄, _, h₅, _, h₆, _, h₇, _, h₈, _, h₉, _, h₁₀, _, h₁₁, _, h₁₂,
    _, h₁₃, _, h₁₄, _, h₁₅, _, h₁₆, _, h₁₇, _, h₁₈, _, h₁₉, rfl⟩ := hall
  simp only [fields, facts, agrees_member, agrees_start, true_and, and_assoc]
  exact ⟨h₁, h₂, h₃, h₄, h₅, h₆, h₇, h₈, h₉, h₁₀, h₁₁, h₁₂, h₁₃, h₁₄, h₁₅, h₁₆, h₁₇, h₁₈, h₁₉⟩

end MiningSubmissionRecord

/-- `QBlockParticipationRecord` as JSON. -/
def participantFields :
    Fields QBlockParticipationRecord QBlockParticipationRecord :=
  start QBlockParticipationRecord.mk
    |>.member "qblockId" (required decimalCodec) QBlockParticipationRecord.qblockId
    |>.member "account" (required string) QBlockParticipationRecord.account
    |>.member "kind" (required string) QBlockParticipationRecord.kind
    |>.member "budgetSeconds" (nullable f64) QBlockParticipationRecord.budgetSeconds
    |>.member "blockNumber" (required decimalCodec) QBlockParticipationRecord.blockNumber

end Dashboard.Turso

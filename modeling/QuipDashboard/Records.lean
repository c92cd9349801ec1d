/-
The records that the dashboard stores.

The model of `dashboard-model/src/chain.rs` and of `dashboard-store/src/types.rs`.

* A `DecimalString` is a canonical decimal text, so it is modelled by the number
  it denotes; `height` is its conversion to `u64`.
* An RFC 3339 text is modelled up to `canonical_timestamp`: by its UTC
  milliseconds, or by the reason for which the parser rejects it.
* A finite `f64` is modelled by the rational number it denotes.
* `BlockRecord.same`, `DifficultyRecord.same` — the derived `PartialEq`, which
  compares block hashes by their bytes.
-/
import QuipDashboard.Hash
import Mathlib.Algebra.Order.Ring.Rat
import Mathlib.Data.Rat.Floor

namespace Dashboard

/-- `u64::MAX`. -/
def u64Max : ℕ := 2 ^ 64 - 1

/-- `i64::MAX`. -/
def i64Max : ℕ := 2 ^ 63 - 1

/-- `char::is_whitespace`. -/
def isWhitespace (c : Char) : Bool :=
  let n := c.toNat
  (9 ≤ n && n ≤ 13) || n = 0x20 || n = 0x85 || n = 0xA0 || n = 0x1680 ||
    (0x2000 ≤ n && n ≤ 0x200A) || n = 0x2028 || n = 0x2029 || n = 0x202F || n = 0x205F || n = 0x3000

/-- `i32::MAX`. -/
def i32Max : ℕ := 2 ^ 31 - 1

/-- `u64::saturating_add`. -/
def saturatingAdd (a b : ℕ) : ℕ := min (a + b) u64Max

theorem saturatingAdd_le (a b : ℕ) : saturatingAdd a b ≤ a + b := Nat.min_le_left _ _

/-- `StoreError`, where the modelled operations raise it. -/
inductive StoreError where
  | database (message : String)
  | invalid (message : String)
  | networkIdentity
  | verificationUnavailable (message : String)
  | incompleteScan
  | conflictingHistory (height : ℕ)
  | json (message : String)
  deriving DecidableEq

/-- `CommitResult`: the result of a mutation at its transaction boundary. -/
inductive CommitResult where
  | applied
  | alreadyApplied
  | staleGeneration
  deriving DecidableEq

/-- `Indexable`: the independently reindexable data domains, in their order. -/
inductive Indexable where
  | winners
  | difficulty
  | participation
  | authorship
  deriving DecidableEq

namespace Indexable

/-- The stable key suffix of a domain. -/
def name : Indexable → String
  | winners => "winners"
  | difficulty => "difficulty"
  | participation => "participation"
  | authorship => "authorship"

/-- The domains in the order of `Ord for Indexable`. -/
def all : List Indexable := [winners, difficulty, participation, authorship]

theorem mem_all (i : Indexable) : i ∈ all := by
  cases i <;> simp [all]

theorem name_inj {i j : Indexable} (h : i.name = j.name) : i = j := by
  revert h
  cases i <;> cases j <;> simp [name]

end Indexable

/-- A timestamp text, up to `canonical_timestamp`. -/
inductive Timestamp where
  /-- An RFC 3339 text of this instant, in milliseconds. -/
  | utc (millis : ℤ)
  /-- A text that the RFC 3339 parser rejects, with its message. -/
  | malformed (message : String)
  deriving DecidableEq

/-- `canonical_timestamp`. -/
def canonicalTimestamp : Timestamp → Except StoreError Timestamp
  | .utc millis => .ok (.utc millis)
  | .malformed message => .error (.invalid message)

theorem canonicalTimestamp_ok {t u : Timestamp} (h : canonicalTimestamp t = .ok u) : u = t := by
  cases t with
  | utc millis => exact (Except.ok.inj h).symm
  | malformed message => cases h

/-- The largest second that `chrono::DateTime::from_timestamp` accepts. -/
def maxTimestampSeconds : ℕ := 8210266876799

/-- `iso`: the canonical text of a Unix second, by its UTC milliseconds. -/
def iso (seconds : ℕ) : Except StoreError ℤ :=
  if seconds > i64Max then
    .error (.invalid "out of range integral type conversion attempted")
  else if seconds > maxTimestampSeconds then .error (.invalid "timestamp out of range")
  else .ok (1000 * seconds)

/-- The first second of the year 10000. -/
def fiveDigitYears : ℕ := 253402300800

/-- `canonical_timestamp` of the text that `iso` prints: the RFC 3339 parser reads the four
digits of a year, and the text of a later year starts with a sign. -/
def canonicalIso (seconds : ℕ) : Except StoreError ℤ := do
  let millis ← iso seconds
  if seconds < fiveDigitYears then .ok millis
  else .error (.invalid "input contains invalid characters")

theorem canonicalIso_ok {seconds : ℕ} {millis : ℤ} (h : canonicalIso seconds = .ok millis) :
    iso seconds = .ok millis ∧ seconds < fiveDigitYears := by
  unfold canonicalIso at h
  cases hi : iso seconds with
  | error e =>
    rw [hi] at h
    cases h
  | ok t =>
    rw [hi] at h
    simp only [bind, Except.bind] at h
    split at h
    · cases h
      exact ⟨rfl, ‹_›⟩
    · cases h

/-- `height`: a protocol height is a `u64`. -/
def height (h : ℕ) : Except StoreError ℕ :=
  if h ≤ u64Max then .ok h else .error (.invalid "height exceeds u64")

theorem height_ok {h n : ℕ} (hn : height h = .ok n) : n = h ∧ h ≤ u64Max := by
  unfold height at hn
  split at hn
  · exact ⟨(Except.ok.inj hn).symm, by assumption⟩
  · cases hn

theorem height_of_le {h : ℕ} (hle : h ≤ u64Max) : height h = .ok h := by
  rw [height, if_pos hle]

/-! ### Chain records -/

/-- Equality of optional hashes by their bytes. -/
def sameHash? : Option BlockHash → Option BlockHash → Bool
  | some a, some b => a.sameBytes b
  | none, none => true
  | _, _ => false

/-- `BlockRecord`: a winner. -/
structure BlockRecord where
  blockHash : BlockHash
  substrateBlockNumber : ℕ
  substrateBlockHash : BlockHash
  substrateParentHash : BlockHash
  timestamp : ℕ
  minerId : String
  energy : ℚ
  diversity : ℚ
  numValidSolutions : ℕ
  miningTime : ℚ
  deviceAccessTimeUs : Option ℕ
  reward : ℕ
  qblockId : ℕ
  nonce : ℕ
  numNodes : ℕ
  numEdges : ℕ
  difficultyEnergy : ℚ
  minDiversity : ℚ
  minSolutions : ℕ
  finalized : Bool
  topologyHash : Option BlockHash
  deriving DecidableEq

/-- `PartialEq for BlockRecord`. -/
def BlockRecord.same (a b : BlockRecord) : Bool :=
  a.blockHash.sameBytes b.blockHash
    && a.substrateBlockNumber = b.substrateBlockNumber
    && a.substrateBlockHash.sameBytes b.substrateBlockHash
    && a.substrateParentHash.sameBytes b.substrateParentHash
    && a.timestamp = b.timestamp
    && a.minerId = b.minerId
    && a.energy = b.energy
    && a.diversity = b.diversity
    && a.numValidSolutions = b.numValidSolutions
    && a.miningTime = b.miningTime
    && a.deviceAccessTimeUs = b.deviceAccessTimeUs
    && a.reward = b.reward
    && a.qblockId = b.qblockId
    && a.nonce = b.nonce
    && a.numNodes = b.numNodes
    && a.numEdges = b.numEdges
    && a.difficultyEnergy = b.difficultyEnergy
    && a.minDiversity = b.minDiversity
    && a.minSolutions = b.minSolutions
    && a.finalized = b.finalized
    && sameHash? a.topologyHash b.topologyHash

/-- `QBlockParticipationRecord`. -/
structure QBlockParticipationRecord where
  qblockId : ℕ
  account : String
  kind : String
  budgetSeconds : Option ℚ
  blockNumber : ℕ
  deriving DecidableEq

/-- `DifficultySource`. -/
inductive DifficultySource where
  | block
  | poll
  deriving DecidableEq

/-- `DifficultyRecord`. -/
structure DifficultyRecord where
  observedAtBlock : ℕ
  difficultyEnergy : ℚ
  minDiversity : ℚ
  minSolutions : ℕ
  observedAt : Timestamp
  topologyHash : Option BlockHash
  source : DifficultySource
  deriving DecidableEq

/-- `PartialEq for DifficultyRecord`. -/
def DifficultyRecord.same (a b : DifficultyRecord) : Bool :=
  a.observedAtBlock = b.observedAtBlock
    && a.difficultyEnergy = b.difficultyEnergy
    && a.minDiversity = b.minDiversity
    && a.minSolutions = b.minSolutions
    && a.observedAt = b.observedAt
    && sameHash? a.topologyHash b.topologyHash
    && a.source = b.source

/-- `MinerWinsRow`: one miner's summary in `node_summary`. -/
structure MinerWinsRow where
  minerId : String
  wins : ℕ
  bestEnergy : ℚ
  avgMiningTime : ℚ
  lastWonAt : ℕ
  lastWonQblockId : ℕ
  lastWonBlockHash : String
  deriving DecidableEq

/-- The stored columns of `ValidatorAuthorshipRecord`. -/
structure ValidatorAuthorshipRecord where
  accountId : String
  blocksAuthored : ℕ
  blocksAuthoredWithPow : ℕ
  lastAuthoredBlock : Option ℕ
  lastAuthoredAt : Option ℤ
  deriving DecidableEq

@[simp] theorem sameHash?_refl (a : Option BlockHash) : sameHash? a a = true := by
  cases a <;> simp [sameHash?]

@[simp] theorem BlockRecord.same_refl (b : BlockRecord) : b.same b = true := by
  simp [BlockRecord.same]

@[simp] theorem DifficultyRecord.same_refl (d : DifficultyRecord) : d.same d = true := by
  simp [DifficultyRecord.same]

/-! ### Store requests -/

/-- `AuthorshipRecord`: one finalized author fact. -/
structure AuthorshipRecord where
  accountId : String
  blockNumber : ℕ
  timestamp : ℕ
  hadWinner : Bool
  deriving DecidableEq

/-- `GenerationGuard`: the generation observed before decoding one domain. -/
structure GenerationGuard where
  indexable : Indexable
  expected : ℕ
  deriving DecidableEq

/-- `UnavailableReason`. -/
inductive UnavailableReason where
  | missingRetainedNonce
  | missingRetainedDifficulty
  deriving DecidableEq

/-- `UnavailableBlock`: durable retry suppression. -/
structure UnavailableBlock where
  guard : GenerationGuard
  height : ℕ
  hash : BlockHash
  enrichmentAt : BlockHash
  reason : UnavailableReason
  deriving DecidableEq

/-- `BlockRecords`: the decoded records that are submitted together. -/
structure BlockRecords where
  winner : Option BlockRecord
  difficulty : Option DifficultyRecord
  authorship : Option AuthorshipRecord
  participation : List QBlockParticipationRecord
  deriving DecidableEq

/-- `Default for BlockRecords`. -/
def BlockRecords.default : BlockRecords := ⟨none, none, none, []⟩

/-- `BlockCommit`: the data and coverage delta of one finalized block. -/
structure BlockCommit where
  genesis : BlockHash
  hash : BlockHash
  height : ℕ
  guards : List GenerationGuard
  records : BlockRecords
  completed : List Indexable
  deriving DecidableEq

/-- `ScanId`. -/
abbrev ScanId := String

/-- `Scan`: a key enumeration pinned to one finalized state. -/
structure Scan where
  id : ScanId
  genesis : BlockHash
  at_ : BlockHash
  finalizedHeight : ℕ
  indexable : Indexable
  expectedGeneration : ℕ
  deriving DecidableEq

/-- `ScanProgress`. -/
structure ScanProgress where
  cursor : Option (List UInt8)
  finished : Bool
  deriving DecidableEq

/-- `RangeCompletion`. -/
structure RangeCompletion where
  genesis : BlockHash
  indexable : Indexable
  expectedGeneration : ℕ
  from_ : ℕ
  through : ℕ
  scanId : ScanId
  deriving DecidableEq

/-- `RetainedBlock`: a height with its finalized hash. -/
structure RetainedBlock where
  height : ℕ
  hash : BlockHash
  deriving DecidableEq

end Dashboard

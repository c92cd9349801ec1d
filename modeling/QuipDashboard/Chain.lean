/-
The chain reader's data.

The model of the parts of `quip-dashboard/src/chain/` that the indexer uses: its errors,
a decoded block, and the pages of participants and of winner keys.

* `Query` — what the reader asks of a node; the answers belong to the node;
* `ChainReader` — the reader's own parameters: its genesis, and the two computations of
  third-party code, the SS58 text of an account and the height inside a storage key;
* `decodeParticipants` — the row loop of `participant_page`.

A hexadecimal header number and a decimal amount are modelled up to their parsers, and
`f64` arithmetic is modelled without rounding.
-/
import QuipDashboard.Records

namespace Dashboard

/-- `ChainError`. -/
inductive ChainError where
  | unavailable (message : String)
  | pruned (message : String)
  | unsupported (message : String)
  | oversized (message : String)
  | invalid (message : String)
  | genesisMismatch (expected actual : ChainHash)
  | busy
  | disconnected
  | notFound (hash : ChainHash)
  deriving DecidableEq

/-- `BlockPurpose`: whether a block is decoded with its author. -/
inductive BlockPurpose where
  | full
  | winnerOnly
  deriving DecidableEq

/-- `WorkClass`. -/
inductive WorkClass where
  | live
  | backfill
  deriving DecidableEq

/-- A decimal text, by the number it denotes or the message of its parser. -/
abbrev DecimalText := Except String ℕ

/-- `Header`, with what `Header::height` makes of its number. -/
structure Header where
  parentHash : ChainHash
  height : Except ChainError ℕ

/-- `DifficultyInfo`. -/
structure DifficultyInfo where
  minSolutions : ℕ
  maxEnergyMilli : ℤ
  minDiversityMilli : ℕ
  deriving DecidableEq

/-- `BlockWinnerEvent`. -/
structure BlockWinnerEvent where
  qblockId : ℕ
  miner : String
  reward : DecimalText
  energyMilli : ℤ

/-- `ProofAcceptedEvent`. -/
structure ProofAcceptedEvent where
  miner : String
  energyMilli : ℤ
  diversityMilli : ℕ
  validSolutionCount : ℕ

/-- `BlockEvents`. -/
structure BlockEvents where
  blockNumber : ℕ
  author : Option String
  timestamp : ℕ
  winner : Option BlockWinnerEvent
  proofs : List ProofAcceptedEvent
  nonce : Option DecimalText

/-- `QBlockInfo`: the retained winning solution. -/
structure QBlockInfo where
  difficulty : DifficultyInfo
  deviceAccessTimeUs : Option ℕ
  deriving DecidableEq

/-- `DecodedBlock`. -/
structure DecodedBlock where
  hash : ChainHash
  header : Header
  events : BlockEvents
  qblock : Option QBlockInfo
  qblockError : Option ChainError
  enrichmentAt : ChainHash

/-- `TopologySummary`. -/
structure TopologySummary where
  nodeCount : ℕ
  edgeCount : ℕ
  deriving DecidableEq

/-! ### Pages -/

/-- `ParticipantCursor`. -/
structure ParticipantCursor where
  at_ : ChainHash
  qblockId : ℕ
  account : List UInt8
  deriving DecidableEq

/-- `QBlockParticipant`. -/
structure QBlockParticipant where
  account : String
  kind : String
  budgetSeconds : Option ℕ
  blockNumber : ℕ
  deriving DecidableEq

/-- `ParticipantPage`. -/
structure ParticipantPage where
  at_ : ChainHash
  participants : List QBlockParticipant
  continuation : Option ParticipantCursor
  exhausted : Bool
  deriving DecidableEq

/-- One pair of the runtime's `participants_by_qblock`: the raw account and its record. -/
structure ParticipantRow where
  account : List UInt8
  qblockId : ℕ
  kind : String
  budgetSeconds : Option ℕ
  updatedAt : ℕ
  deriving DecidableEq

/-- `WinnerCursor`. -/
structure WinnerCursor where
  at_ : ChainHash
  key : List UInt8
  deriving DecidableEq

/-- `WinnerPage`. -/
structure WinnerPage where
  at_ : ChainHash
  keys : List (List UInt8)
  heights : List ℕ
  continuation : Option WinnerCursor
  exhausted : Bool
  deriving DecidableEq

/-- The requests of the reader. -/
inductive Query : Type → Type
  /-- `block_hash`. -/
  | blockHash (height : ℕ) : Query (Option ChainHash)
  /-- `block`. -/
  | block (hash : ChainHash) (purpose : BlockPurpose) (enrichmentAt : ChainHash) :
      Query DecodedBlock
  /-- `last_proof_block`. -/
  | lastProofBlock (at_ : ChainHash) : Query ℕ
  /-- `default_topology`. -/
  | defaultTopology (at_ : ChainHash) : Query (Option ChainHash)
  /-- `topology_summary`. -/
  | topologySummary (at_ hash : ChainHash) : Query TopologySummary
  /-- The runtime call `MinerRegistryApi.participants_by_qblock`. -/
  | participantsByQblock (at_ : ChainHash) (qblock : ℕ) (start : Option (List UInt8))
      (limit : ℕ) : Query (List ParticipantRow)
  /-- `state_getKeysPaged` under the prefix of `QuantumPow.QBlocks`, as `key_page` checks it. -/
  | qblockKeys (at_ : ChainHash) (start : Option (List UInt8)) (limit : ℕ) :
      Query (List (List UInt8))

/-- `ChainReader`: its genesis, and the computations that it takes from other crates. -/
structure ChainReader where
  genesis : ChainHash
  /-- `decode::account_bytes` of a 32-byte account. -/
  accountText : List UInt8 → String
  /-- The height inside a `QBlocks` key, unless its hash prefix does not match. -/
  qblockHeight : List UInt8 → Except ChainError ℕ

/-- `page_limit`. -/
def pageLimit (limit : ℕ) : Except ChainError Unit :=
  if limit = 0 ∨ limit > 1000 then .error (.invalid "page limit must be 1 through 1000")
  else .ok ()

/-- `u32::MAX`. -/
def u32Max : ℕ := 2 ^ 32 - 1

/-- `decode::account_bytes`. -/
def ChainReader.accountBytes (chain : ChainReader) (account : List UInt8) :
    Except ChainError String :=
  if account.length ≠ 32 then
    .error (.unsupported ("account identifier length " ++ account.length.repr))
  else .ok (chain.accountText account)

/-- The body of the row loop of `participant_page`. -/
def decodeParticipant (chain : ChainReader) (qblock : ℕ) (previous : Option (List UInt8))
    (row : ParticipantRow) : Except ChainError QBlockParticipant :=
  if previous.any fun p => ¬p < row.account then
    .error (.invalid "participant page did not advance")
  else if row.qblockId ≠ qblock then .error (.invalid "participant qblock mismatch")
  else if row.budgetSeconds.any (u32Max < ·) then
    .error (.invalid "out of range integral type conversion attempted")
  else
    match chain.accountBytes row.account with
    | .ok account => .ok ⟨account, row.kind, row.budgetSeconds, row.updatedAt⟩
    | .error e => .error e

/-- The row loop of `participant_page`. -/
def decodeParticipants (chain : ChainReader) (qblock : ℕ) :
    Option (List UInt8) → List ParticipantRow → Except ChainError (List QBlockParticipant)
  | _, [] => .ok []
  | previous, row :: rows =>
    match decodeParticipant chain qblock previous row with
    | .ok p =>
      match decodeParticipants chain qblock (some row.account) rows with
      | .ok ps => .ok (p :: ps)
      | .error e => .error e
    | .error e => .error e

/-- A row that was decoded carries its account's text and its columns. -/
theorem decodeParticipant_ok {chain : ChainReader} {qblock : ℕ} {previous : Option (List UInt8)}
    {row : ParticipantRow} {p : QBlockParticipant}
    (h : decodeParticipant chain qblock previous row = .ok p) :
    p = ⟨chain.accountText row.account, row.kind, row.budgetSeconds, row.updatedAt⟩ ∧
      row.account.length = 32 := by
  unfold decodeParticipant ChainReader.accountBytes at h
  split at h
  · cases h
  split at h
  · cases h
  split at h
  · cases h
  by_cases hlen : row.account.length ≠ 32
  · rw [if_pos hlen] at h
    cases h
  · rw [if_neg hlen] at h
    cases h
    exact ⟨rfl, not_not.mp hlen⟩

/-- **A decoded page has one participant for each row.** -/
theorem decodeParticipants_ok {chain : ChainReader} {qblock : ℕ} {previous : Option (List UInt8)}
    {rows : List ParticipantRow} {ps : List QBlockParticipant}
    (h : decodeParticipants chain qblock previous rows = .ok ps) :
    ps = rows.map (fun row =>
        ⟨chain.accountText row.account, row.kind, row.budgetSeconds, row.updatedAt⟩) ∧
      ∀ row ∈ rows, row.account.length = 32 := by
  induction rows generalizing previous ps with
  | nil =>
    cases h
    exact ⟨rfl, nofun⟩
  | cons row rows ih =>
    rw [decodeParticipants] at h
    cases hp : decodeParticipant chain qblock previous row with
    | error e =>
      rw [hp] at h
      cases h
    | ok p =>
      obtain ⟨rfl, hlen⟩ := decodeParticipant_ok hp
      cases hps : decodeParticipants chain qblock (some row.account) rows with
      | error e =>
        simp only [hp, hps] at h
        cases h
      | ok ps' =>
        obtain ⟨rfl, hall⟩ := ih hps
        simp only [hp, hps] at h
        cases h
        exact ⟨rfl, List.forall_mem_cons.mpr ⟨hlen, hall⟩⟩

end Dashboard

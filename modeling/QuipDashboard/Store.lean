/-
The tables of the store, and the rows of `meta` that the indexer keeps.

The model of the database behind `dashboard-store`.  A table is a `KeyedTable`
under its primary key; a `meta` row is a field with its decoded value.

* `Store.generation` — a domain's generation, where an absent or zero row means
  one;
* `Store.coverage` — a domain's persisted coverage, validated on every read;
* `Store.retainedHashes` — every hash that the finalized map and the winner rows
  hold for a height, `SELECT hash … UNION SELECT substrate_block_hash …`.

The writable store is modelled: `ensure_writable` always succeeds.
-/
import QuipDashboard.KeyedTable
import QuipDashboard.Transaction
import QuipDashboard.Coverage

namespace Dashboard

/-- A row of `validator_authorship_blocks`, under its validator and height; the
timestamp is in UTC milliseconds. -/
structure AuthorshipFact where
  timestamp : ℤ
  hadWinner : Bool
  deriving DecidableEq

/-- A row of `dashboard_unavailable`, under its domain, generation and height. -/
structure UnavailableRow where
  blockHash : BlockHash
  enrichmentHash : BlockHash
  reason : UnavailableReason
  observedAt : Timestamp
  nextHeight : Option ℕ
  deriving DecidableEq

/-- A row of `dashboard_scans`, under its identifier. -/
structure ScanRow where
  genesis : BlockHash
  atHash : BlockHash
  finalizedHeight : ℕ
  domain : Indexable
  generation : ℕ
  cursor : Option (List UInt8)
  finished : Bool
  deriving DecidableEq

/-- The database of a `Store`. -/
structure Store where
  /-- Whether the engine is Postgres, `Connection::pg`. -/
  pg : Bool
  /-- `meta`: `dashboard.genesis`. -/
  genesis : Option BlockHash
  /-- `meta`: `indexer.generation.*`. -/
  generations : KeyedTable Indexable ℕ
  /-- `meta`: `indexer.coverage.*`. -/
  coverages : KeyedTable Indexable Coverage
  /-- `meta`: `dashboard.finalized.target`. -/
  finalizedTarget : Option RetainedBlock
  /-- `meta`: `indexer.authorship.cutover`. -/
  authorshipCutover : Option String
  /-- `dashboard_finalized`: heights to hashes. -/
  finalized : KeyedTable ℕ BlockHash
  /-- `blocks`, by the text of the solution hash. -/
  blocks : KeyedTable String BlockRecord
  /-- `node_summary`, by miner. -/
  nodeSummary : KeyedTable String MinerWinsRow
  /-- `qblock_participation`, by qblock and account. -/
  participation : KeyedTable (ℕ × String) QBlockParticipationRecord
  /-- `difficulty_history`, by height. -/
  difficultyHistory : KeyedTable ℕ DifficultyRecord
  /-- `dashboard_poll_difficulty`, by height. -/
  pollDifficulty : KeyedTable ℕ DifficultyRecord
  /-- `validator_authorship_blocks`, by validator and height. -/
  authorshipBlocks : KeyedTable (String × ℕ) AuthorshipFact
  /-- `validator_authorship`, by account. -/
  validatorAuthorship : KeyedTable String ValidatorAuthorshipRecord
  /-- `dashboard_unavailable`, by domain, generation and height. -/
  unavailable : KeyedTable (Indexable × ℕ × ℕ) UnavailableRow
  /-- `dashboard_scans`, by identifier. -/
  scans : KeyedTable ScanId ScanRow
  /-- `dashboard_scan_winners`, by scan and height. -/
  scanWinners : KeyedTable (ScanId × ℕ) Unit
  deriving DecidableEq

/-- A transaction body on the store. -/
abbrev StoreTx := Tx Store StoreError

namespace Store

/-- A migrated store without rows that is bound to `genesis`. -/
def bound (pg : Bool) (genesis : BlockHash) : Store where
  pg := pg
  genesis := some genesis
  generations := .empty
  coverages := .empty
  finalizedTarget := none
  authorshipCutover := none
  finalized := .empty
  blocks := .empty
  nodeSummary := .empty
  participation := .empty
  difficultyHistory := .empty
  pollDifficulty := .empty
  authorshipBlocks := .empty
  validatorAuthorship := .empty
  unavailable := .empty
  scans := .empty
  scanWinners := .empty

/-- `generation`: absent legacy generations mean one. -/
def generation (s : Store) (i : Indexable) : ℕ :=
  match s.generations.get? i with
  | some n => if n > 0 then n else 1
  | none => 1

/-- Whether a domain is of another generation than the expected one. -/
def staleGeneration (i : Indexable) (expected : ℕ) (s : Store) : Bool :=
  s.generation i ≠ expected

/-- `coverage`: the persisted coverage of a domain, or an empty one from `start`. -/
def coverage (s : Store) (i : Indexable) (start : ℕ) : Except StoreError Coverage :=
  match s.coverages.get? i with
  | none => .ok (Coverage.empty (s.generation i) start)
  | some cov => cov.validate (s.generation i)

/-- `save_coverage`. -/
def saveCoverage (i : Indexable) (cov : Coverage) (s : Store) : Store :=
  { s with coverages := s.coverages.put i cov }

/-- `require_bound`. -/
def requireBound (s : Store) : Except StoreError BlockHash :=
  match s.genesis with
  | some genesis => .ok genesis
  | none => .error .networkIdentity

/-- `network`: the bound genesis has the text of `genesis`. -/
def network (genesis : BlockHash) (s : Store) : Except StoreError Unit :=
  match s.requireBound with
  | .ok bound => if bound.text ≠ genesis.text then .error .networkIdentity else .ok ()
  | .error e => .error e

/-- The winner rows of one substrate height. -/
def winnersAt (s : Store) (height : ℕ) : List BlockRecord :=
  (s.blocks.rows.map Prod.snd).filter fun b => b.substrateBlockNumber = height

/-- The hashes that are retained for a height, in `dashboard_finalized` and in `blocks`. -/
def retainedHashes (s : Store) (height : ℕ) : List BlockHash :=
  (s.finalized.get? height).toList ++ (s.winnersAt height).map BlockRecord.substrateBlockHash

/-- The heights that the persisted coverage of a domain contains. -/
def covered (s : Store) (i : Indexable) : Set ℕ :=
  {h | ∃ cov, s.coverages.get? i = some cov ∧ h ∈ cov.heights}

/-- Every persisted coverage is canonical in its domain's generation. -/
def Canonical (s : Store) : Prop :=
  ∀ i cov, s.coverages.get? i = some cov → cov.Canonical (s.generation i)

/-! ### Reading the `meta` rows -/

theorem staleGeneration_eq_true {i : Indexable} {expected : ℕ} {s : Store} :
    staleGeneration i expected s = true ↔ s.generation i ≠ expected := by
  simp [staleGeneration]

theorem staleGeneration_eq_false {i : Indexable} {expected : ℕ} {s : Store} :
    staleGeneration i expected s = false ↔ s.generation i = expected := by
  simp [staleGeneration]

theorem network_ok {g : BlockHash} {s : Store} : s.network g = .ok () ↔ s.genesis = some g := by
  unfold network requireBound
  cases hg : s.genesis with
  | none => simp
  | some bound =>
    by_cases h : bound.text = g.text
    · simp [BlockHash.eq_of_text h]
    · have : bound ≠ g := fun he => h (he ▸ rfl)
      simp [h, this]

theorem mem_winnersAt {s : Store} {b : BlockRecord} {height : ℕ} :
    b ∈ s.winnersAt height ↔ (∃ k, s.blocks.get? k = some b) ∧ b.substrateBlockNumber = height := by
  simp [winnersAt, KeyedTable.get?_eq_some]

theorem mem_retainedHashes {s : Store} {h : BlockHash} {height : ℕ} :
    h ∈ s.retainedHashes height ↔
      s.finalized.get? height = some h ∨
        ∃ k b, s.blocks.get? k = some b ∧ b.substrateBlockNumber = height ∧
          b.substrateBlockHash = h := by
  simp only [retainedHashes, List.mem_append, Option.mem_toList, List.mem_map, mem_winnersAt]
  constructor
  · rintro (h | ⟨b, ⟨⟨k, hb⟩, hn⟩, rfl⟩)
    · exact .inl h
    · exact .inr ⟨k, b, hb, hn, rfl⟩
  · rintro (h | ⟨k, b, hb, hn, rfl⟩)
    · exact .inl h
    · exact .inr ⟨b, ⟨⟨k, hb⟩, hn⟩, rfl⟩

/-- A coverage that a domain reads is valid, and holds the covered heights. -/
theorem coverage_ok {s : Store} {i : Indexable} {start : ℕ} {cov : Coverage}
    (h : s.coverage i start = .ok cov) :
    cov.validate (s.generation i) = .ok cov ∧ cov.gen = s.generation i ∧
      cov.heights = s.covered i := by
  unfold coverage at h
  split at h
  · rename_i hn
    cases h
    refine ⟨Coverage.validate_empty _ _, rfl, ?_⟩
    simp [covered, hn]
  · rename_i c hc
    obtain ⟨rfl, hgen, -⟩ := Coverage.validate_ok h
    refine ⟨h, hgen, Set.ext fun n => ?_⟩
    simp [covered, hc]

theorem covered_of_get? {s : Store} {i : Indexable} {cov : Coverage}
    (h : s.coverages.get? i = some cov) : s.covered i = cov.heights := by
  ext n
  simp [covered, h]

/-- Saving a coverage replaces the coverage of its domain only. -/
theorem covered_saveCoverage (s : Store) (i : Indexable) (cov : Coverage) (j : Indexable) :
    (s.saveCoverage i cov).covered j = if j = i then cov.heights else s.covered j := by
  by_cases hj : j = i
  · subst hj
    rw [if_pos rfl]
    exact covered_of_get? (KeyedTable.get?_put_self _ _ _)
  · rw [if_neg hj, covered, covered, saveCoverage, KeyedTable.get?_put_ne hj]

theorem covered_congr {s s' : Store} {i : Indexable}
    (h : s'.coverages.get? i = s.coverages.get? i) : s'.covered i = s.covered i := by
  rw [covered, covered, h]

theorem Canonical.coverage {s : Store} (hs : s.Canonical) (i : Indexable) (start : ℕ) :
    ∃ cov, s.coverage i start = .ok cov ∧ cov.Canonical (s.generation i) := by
  unfold Store.coverage
  cases hc : s.coverages.get? i with
  | none => exact ⟨_, rfl, Coverage.canonical_empty _ _⟩
  | some cov => exact ⟨cov, (hs i cov hc).validate, hs i cov hc⟩

theorem coverage_canonical {s : Store} (hs : s.Canonical) {i : Indexable} {start : ℕ}
    {cov : Coverage} (h : s.coverage i start = .ok cov) : cov.Canonical (s.generation i) := by
  obtain ⟨cov', h', hcan⟩ := hs.coverage i start
  rw [h] at h'
  cases h'
  exact hcan

end Store

end Dashboard

/-
The finalized chain, and a store that mirrors it.

What the dashboard's database is for: the winners, the difficulty and the authors of a
finalized chain, height by height.  A `FinalizedChain` gives for each height what its block
contains, and the facts of the three domains are functions of it; a fact has the columns that
the block determines, and leaves out those that are read from the state of a later one, such
as the topology and the device time.

* `Store.Mirrors` — rows are facts of the chain, and a covered height has all of its own;
* `HonestOp` — a call that writes facts of the chain only, and all of those that it completes;
* `Effect.mirrors` — **an honest call keeps a mirror a mirror**;
* `Store.Mirrors.exact` — what is read from a mirror at a height is at most what the chain has
  there, and all of it when the height is covered.
-/
import QuipDashboard.EnumeratedScans

namespace Dashboard

/-! ### The chain -/

/-- What a finalized block contains, and what is retained of its winning solution. -/
structure FinalizedBlock where
  hash : ChainHash
  parentHash : ChainHash
  events : BlockEvents
  qblock : Option QBlockInfo

/-- A finalized chain, and the keys of `QBlocks` in the state of each of its blocks: those of
the winners up to it.  Heights are `u64`. -/
structure FinalizedChain (chain : ChainReader) (ks : KeySpace) where
  block : ℕ → FinalizedBlock
  distinct : ∀ m n, m ≤ u64Max → n ≤ u64Max → (block m).hash = (block n).hash → m = n
  qblocks : ℕ → PinnedKeys chain ks
  listed : ∀ m n, n ≤ m → (block n).events.winner.isSome →
    n ∈ (qblocks m).keys.map (qblocks m).height

/-- The columns of a winner that its block determines. -/
structure WinnerFact where
  blockHash : BlockHash
  substrateBlockNumber : ℕ
  substrateBlockHash : BlockHash
  substrateParentHash : BlockHash
  timestamp : ℕ
  minerId : String
  energy : ℚ
  diversity : ℚ
  numValidSolutions : ℕ
  reward : ℕ
  qblockId : ℕ
  nonce : ℕ
  deriving DecidableEq

def BlockRecord.fact (b : BlockRecord) : WinnerFact :=
  ⟨b.blockHash, b.substrateBlockNumber, b.substrateBlockHash, b.substrateParentHash, b.timestamp,
    b.minerId, b.energy, b.diversity, b.numValidSolutions, b.reward, b.qblockId, b.nonce⟩

/-- The columns of a difficulty row that its block determines. -/
structure DifficultyFact where
  observedAtBlock : ℕ
  difficultyEnergy : ℚ
  minDiversity : ℚ
  minSolutions : ℕ
  observedAt : Timestamp
  deriving DecidableEq

def DifficultyRecord.fact (d : DifficultyRecord) : DifficultyFact :=
  ⟨d.observedAtBlock, d.difficultyEnergy, d.minDiversity, d.minSolutions, d.observedAt⟩

/-- The winner of a block, when one of its accepted proofs is the winner's. -/
def FinalizedBlock.winnerFact (b : FinalizedBlock) : Option WinnerFact :=
  b.events.winner.bind fun winner =>
    (b.events.proofs.find? fun p => p.miner = winner.miner ∧ p.energyMilli = winner.energyMilli).bind
      fun proof => (b.events.nonce.bind Except.toOption).bind fun nonce =>
        winner.reward.toOption.map fun reward =>
          { blockHash := modelHash b.hash
            substrateBlockNumber := b.events.blockNumber
            substrateBlockHash := modelHash b.hash
            substrateParentHash := modelHash b.parentHash
            timestamp := b.events.timestamp
            minerId := winner.miner
            energy := milliEnergy winner.energyMilli
            diversity := proof.diversityMilli / 1000
            numValidSolutions := proof.validSolutionCount
            reward := reward
            qblockId := winner.qblockId
            nonce := nonce }

/-- The difficulty under which the winner of a block was found. -/
def FinalizedBlock.difficultyFact (b : FinalizedBlock) : Option DifficultyFact :=
  b.events.winner.bind fun _ => b.qblock.bind fun qblock =>
    (iso b.events.timestamp).toOption.map fun observedAt =>
      { observedAtBlock := b.events.blockNumber
        difficultyEnergy := milliEnergy qblock.difficulty.maxEnergyMilli
        minDiversity := qblock.difficulty.minDiversityMilli / 1000
        minSolutions := qblock.difficulty.minSolutions
        observedAt := .utc observedAt }

/-- The author of a block. -/
def FinalizedBlock.authorFact (b : FinalizedBlock) : Option (String × AuthorshipFact) :=
  b.events.author.bind fun account => (iso b.events.timestamp).toOption.map fun timestamp =>
    (account, ⟨timestamp, b.events.winner.isSome⟩)

section

variable {chain : ChainReader} {ks : KeySpace} {c : FinalizedChain chain ks}

theorem FinalizedBlock.winnerFact_hash {b : FinalizedBlock} {f : WinnerFact} (h : b.winnerFact = some f) :
    f.blockHash = modelHash b.hash := by
  simp only [FinalizedBlock.winnerFact, Option.bind_eq_some_iff, Option.map_eq_some_iff] at h
  obtain ⟨winner, -, proof, -, nonce, -, reward, -, rfl⟩ := h
  rfl

/-- A block without a winner has no facts of the winner domains. -/
theorem FinalizedBlock.fact_none {b : FinalizedBlock} (h : b.events.winner = none) :
    b.winnerFact = none ∧ b.difficultyFact = none := by
  simp [FinalizedBlock.winnerFact, FinalizedBlock.difficultyFact, h]

theorem modelHash_inj {a b : ChainHash} (h : (modelHash a).text = (modelHash b).text) : a = b := by
  have := congrArg chainHash (BlockHash.eq_of_text h)
  exact this

/-- Winners of different heights are stored under different keys. -/
theorem FinalizedChain.height_unique {m n : ℕ} (hm : m ≤ u64Max) (hn : n ≤ u64Max) {f g : WinnerFact}
    (hf : (c.block m).winnerFact = some f) (hg : (c.block n).winnerFact = some g)
    (h : f.blockHash.text = g.blockHash.text) : m = n := by
  rw [FinalizedBlock.winnerFact_hash hf, FinalizedBlock.winnerFact_hash hg] at h
  exact c.distinct m n hm hn (modelHash_inj h)

/-! ### The mirror -/

variable (c)

/-- A node that serves the keys of each block in full. -/
def FinalizedChain.Serves (node : ChainNode) : Prop :=
  ∀ m, node.ServesKeys ks (c.block m).hash (c.qblocks m).keys

/-- The rows of a domain at a covered height hold all facts of the chain. -/
def Store.Complete (s : Store) : Indexable → ℕ → Prop
  | .winners, n => ∀ f, (c.block n).winnerFact = some f → ∃ row, s.blocks.get? f.blockHash.text = some row
  | .difficulty, n => ∀ f, (c.block n).difficultyFact = some f →
    ∃ row, s.difficultyHistory.get? n = some row ∧ row.source = .block
  | .authorship, n => ∀ f, (c.block n).authorFact = some f →
    ∃ fact, s.authorshipBlocks.get? (f.1, n) = some fact
  | .participation, _ => True

/-- What the store holds is of the chain, and complete where it is covered; its scans are
pinned to blocks of the chain, and hold pages of their keys. -/
structure Store.Mirrors (s : Store) : Prop where
  winners : ∀ k row, s.blocks.get? k = some row → k = row.blockHash.text ∧
    row.substrateBlockNumber ≤ u64Max ∧ (c.block row.substrateBlockNumber).winnerFact = some row.fact
  difficulty : ∀ n row, s.difficultyHistory.get? n = some row → row.source = .block →
    (c.block n).difficultyFact = some row.fact
  authorship : ∀ k fact, s.authorshipBlocks.get? k = some fact → (c.block k.2).authorFact = some (k.1, fact)
  complete : ∀ i n, n ∈ s.covered i → s.Complete c i n
  pinned : ∀ id row, s.scans.get? id = some row → row.atHash = modelHash (c.block row.finalizedHeight).hash
  enumerates : s.Enumerates chain ks c.Serves

/-- A commit that writes facts of the chain only, and all of those that it completes. -/
structure HonestBatch (b : BlockCommit) : Prop where
  winner : ∀ w, b.records.winner = some w → (c.block b.height).winnerFact = some w.fact
  difficulty : ∀ d, b.records.difficulty = some d → (c.block b.height).difficultyFact = some d.fact
  authorship : ∀ a, b.records.authorship = some a → ∀ timestamp, iso a.timestamp = .ok timestamp →
    (c.block b.height).authorFact = some (a.accountId, ⟨timestamp, a.hadWinner⟩)
  winners : .winners ∈ b.completed → b.records.winner = none → (c.block b.height).winnerFact = none
  difficulties : .difficulty ∈ b.completed → b.records.difficulty = none →
    (c.block b.height).difficultyFact = none
  authors : .authorship ∈ b.completed → b.records.authorship = none → (c.block b.height).authorFact = none

/-- A call that does not lie about the chain. -/
structure HonestOp (op : Op) : Prop where
  commit : ∀ b, op = .commitBlock b → HonestBatch c b
  begins : ∀ scan, op = .beginScan scan →
    scan.Named ∧ scan.at_ = modelHash (c.block scan.finalizedHeight).hash
  pages : op.Continues chain ks c.Serves

variable {c}

/-! ### Rows -/

theorem putWinner_rows {blocks : KeyedTable String BlockRecord} {b row : BlockRecord} {k : String}
    (h : (putWinner blocks b).2.get? k = some row) :
    k = b.blockHash.text ∧ row.fact = b.fact ∨ blocks.get? k = some row := by
  by_cases hk : k = b.blockHash.text
  · subst hk
    obtain ⟨row', hrow', hcases⟩ := putWinner_self blocks b
    obtain rfl := Option.some.inj (h.symm.trans hrow')
    rcases hcases with ⟨-, rfl⟩ | ⟨existing, hget, rfl | ⟨-, rfl⟩⟩
    · exact .inl ⟨rfl, rfl⟩
    · exact .inl ⟨rfl, rfl⟩
    · exact .inr hget
  · rw [putWinner_ne hk] at h
    exact .inr h

theorem putWinner_keeps_row {blocks : KeyedTable String BlockRecord} {b row : BlockRecord} {k : String}
    (h : blocks.get? k = some row) : ∃ row', (putWinner blocks b).2.get? k = some row' := by
  by_cases hk : k = b.blockHash.text
  · subst hk
    obtain ⟨row', hrow', -⟩ := putWinner_self blocks b
    exact ⟨row', hrow'⟩
  · rw [putWinner_ne hk]
    exact ⟨row, h⟩

theorem WritesDifficulty.rows {d row : DifficultyRecord} {t t' : KeyedTable ℕ DifficultyRecord} {n k : ℕ}
    (h : WritesDifficulty d t n t') (hrow : t'.get? k = some row) :
    k = d.observedAtBlock ∧ row.fact = d.fact ∨ t.get? k = some row := by
  cases h with
  | known => exact .inr hrow
  | enriched | fresh =>
    rw [KeyedTable.get?_put] at hrow
    split at hrow
    · rename_i hk
      cases hrow
      exact .inl ⟨hk, rfl⟩
    · exact .inr hrow

theorem WritesDifficulty.keeps_row {d row : DifficultyRecord} {t t' : KeyedTable ℕ DifficultyRecord}
    {n k : ℕ} (h : WritesDifficulty d t n t') (hd : d.source = .block) (hrow : t.get? k = some row)
    (hsource : row.source = .block) : ∃ row', t'.get? k = some row' ∧ row'.source = .block := by
  cases h with
  | known => exact ⟨row, hrow, hsource⟩
  | enriched | fresh =>
    rw [KeyedTable.get?_put]
    split
    · exact ⟨_, rfl, hd⟩
    · exact ⟨row, hrow, hsource⟩

theorem putAuthorship_row {t : KeyedTable (String × ℕ) AuthorshipFact} {a : AuthorshipRecord}
    {timestamp : ℤ} {k : String × ℕ} {fact : AuthorshipFact}
    (h : (putAuthorship t a timestamp).2.get? k = some fact) :
    k = (a.accountId, a.blockNumber) ∧ fact = ⟨timestamp, a.hadWinner⟩ ∨ t.get? k = some fact := by
  by_cases hk : k = (a.accountId, a.blockNumber)
  · subst hk
    rw [putAuthorship, KeyedTable.get?_upsert_self] at h
    cases ht : t.get? (a.accountId, a.blockNumber) with
    | none =>
      rw [ht] at h
      exact .inl ⟨rfl, (Option.some.inj h).symm⟩
    | some old =>
      rw [ht, Option.elim_some] at h
      split at h
      · exact .inl ⟨rfl, (Option.some.inj h).symm⟩
      · exact .inr h
  · rw [putAuthorship, KeyedTable.get?_upsert_ne hk] at h
    exact .inr h

theorem putAuthorship_keeps_row {t : KeyedTable (String × ℕ) AuthorshipFact} {a : AuthorshipRecord}
    {timestamp : ℤ} {k : String × ℕ} {fact : AuthorshipFact} (h : t.get? k = some fact) :
    ∃ fact', (putAuthorship t a timestamp).2.get? k = some fact' := by
  by_cases hk : k = (a.accountId, a.blockNumber)
  · subst hk
    exact ⟨_, KeyedTable.get?_upsert_self ..⟩
  · rw [putAuthorship, KeyedTable.get?_upsert_ne hk]
    exact ⟨fact, h⟩

/-! ### Honest calls -/

/-- **What an honest call writes is of the chain.** -/
theorem Effect.mirrors_rows {now : Timestamp} {op : Op} {s s' : Store} {r : Except StoreError CommitResult}
    (h : Effect now op s r s') (hop : HonestOp c op) (hs : s.Mirrors c) :
    (∀ k row, s'.blocks.get? k = some row → k = row.blockHash.text ∧
      row.substrateBlockNumber ≤ u64Max ∧
        (c.block row.substrateBlockNumber).winnerFact = some row.fact) ∧
    (∀ n row, s'.difficultyHistory.get? n = some row → row.source = .block →
      (c.block n).difficultyFact = some row.fact) ∧
    ∀ k fact, s'.authorshipBlocks.get? k = some fact → (c.block k.2).authorFact = some (k.1, fact) := by
  have hpolls := hs.enumerates.stamped.polls
  cases h with
  | unchanged | began | targeted | floored | initialized | cutOver | recomputed =>
    exact ⟨hs.winners, hs.difficulty, hs.authorship⟩
  | appended _ h =>
    rw [h.final]
    exact ⟨hs.winners, hs.difficulty, hs.authorship⟩
  | ranged h =>
    rw [h.frame]
    exact ⟨hs.winners, hs.difficulty, hs.authorship⟩
  | marked _ h =>
    rw [h.final]
    exact ⟨hs.winners, hs.difficulty, hs.authorship⟩
  | @polled d _ hd =>
    refine ⟨hs.winners, fun n row hrow hsource => ?_, hs.authorship⟩
    rcases KeyedTable.get?_of_insertNew hrow with hrow | ⟨-, -, rfl⟩
    · exact hs.difficulty n row hrow hsource
    · cases hd.symm.trans hsource
  | @reindexed is _ _ h =>
    refine ⟨?_, ?_, ?_⟩
    · rw [h.blocks]
      split
      · intro k row hrow
        cases hrow
      · exact hs.winners
    · intro n row hrow hsource
      by_cases hi : .difficulty ∈ Indexable.all.filter (· ∈ is)
      · rcases h.difficulty_mem hi n row hrow with hpoll | hpoll
        · cases hpoll.symm.trans hsource
        · cases (hpolls n row hpoll).symm.trans hsource
      · rw [h.difficulty_eq hi] at hrow
        exact hs.difficulty n row hrow hsource
    · rw [h.authorshipBlocks]
      split
      · intro k fact hrow
        cases hrow
      · exact hs.authorship
  | @committed b r _ _ h =>
    have hb := hop.commit b rfl
    refine ⟨fun k row hrow => ?_, fun n row hrow hsource => ?_, fun k fact hrow => ?_⟩
    · rw [h.blocks_eq] at hrow
      cases hw : b.records.winner with
      | none =>
        rw [hw] at hrow
        exact hs.winners k row hrow
      | some w =>
        rw [hw] at hrow
        rcases putWinner_rows hrow with ⟨rfl, hfact⟩ | hrow
        · have hhash := congrArg WinnerFact.blockHash hfact
          have hnumber := congrArg WinnerFact.substrateBlockNumber hfact
          have hheight : row.substrateBlockNumber = b.height := hnumber.trans (h.winner w hw).1
          refine ⟨congrArg BlockHash.text hhash.symm, hheight ▸ h.height_le, ?_⟩
          rw [hfact, ← hb.winner w hw, hheight]
        · exact hs.winners k row hrow
    · cases hd : b.records.difficulty with
      | none =>
        rw [h.difficulty_none hd] at hrow
        exact hs.difficulty n row hrow hsource
      | some d =>
        obtain ⟨-, m, hwrites⟩ := h.difficulty_some d hd
        rcases hwrites.rows hrow with ⟨rfl, hfact⟩ | hrow
        · rw [hfact, (h.difficulty d hd).1]
          exact hb.difficulty d hd
        · exact hs.difficulty n row hrow hsource
    · cases ha : b.records.authorship with
      | none =>
        rw [h.authorship_none ha] at hrow
        exact hs.authorship k fact hrow
      | some a =>
        obtain ⟨timestamp, ht, -, heq⟩ := h.authorship_some a ha
        rw [heq] at hrow
        rcases putAuthorship_row hrow with ⟨rfl, rfl⟩ | hrow
        · show (c.block a.blockNumber).authorFact = _
          rw [h.authorship a ha]
          exact hb.authorship a ha timestamp (canonicalIso_ok ht).1
        · exact hs.authorship k fact hrow

/-- Rows stay, unless their domain is reindexed, which leaves nothing covered. -/
theorem Effect.keeps_complete {now : Timestamp} {op : Op} {s s' : Store} {r : Except StoreError CommitResult}
    (h : Effect now op s r s') {i : Indexable} {n : ℕ} (hn : n ∈ s'.covered i) (hs : s.Complete c i n) :
    s'.Complete c i n := by
  cases h with
  | unchanged => exact hs
  | began | targeted | floored | initialized | cutOver | recomputed => cases i <;> exact hs
  | appended _ h =>
    rw [h.final]
    cases i <;> exact hs
  | ranged h =>
    rw [h.frame]
    cases i <;> exact hs
  | marked _ h =>
    rw [h.final]
    cases i <;> exact hs
  | polled =>
    cases i with
    | difficulty =>
      intro f hf
      obtain ⟨row, hrow, hsource⟩ := hs f hf
      exact ⟨row, KeyedTable.get?_insertNew_of_some hrow, hsource⟩
    | winners | participation | authorship => exact hs
  | @reindexed is _ _ h =>
    have hi : i ∉ Indexable.all.filter (· ∈ is) := by
      intro hi
      rw [h.covered i hi] at hn
      exact hn
    cases i with
    | winners =>
      intro f hf
      rw [h.blocks, if_neg hi]
      exact hs f hf
    | difficulty =>
      intro f hf
      rw [h.difficulty_eq hi]
      exact hs f hf
    | authorship =>
      intro f hf
      rw [h.authorshipBlocks, if_neg hi]
      exact hs f hf
    | participation => trivial
  | @committed b _ _ _ h =>
    cases i with
    | winners =>
      intro f hf
      obtain ⟨row, hrow⟩ := hs f hf
      rw [h.blocks_eq]
      cases b.records.winner with
      | none => exact ⟨row, hrow⟩
      | some w => exact putWinner_keeps_row hrow
    | difficulty =>
      intro f hf
      obtain ⟨row, hrow, hsource⟩ := hs f hf
      cases hd : b.records.difficulty with
      | none =>
        rw [h.difficulty_none hd]
        exact ⟨row, hrow, hsource⟩
      | some d =>
        obtain ⟨-, m, hwrites⟩ := h.difficulty_some d hd
        exact hwrites.keeps_row (h.difficulty d hd).2 hrow hsource
    | authorship =>
      intro f hf
      obtain ⟨fact, hrow⟩ := hs f hf
      cases ha : b.records.authorship with
      | none =>
        rw [h.authorship_none ha]
        exact ⟨fact, hrow⟩
      | some a =>
        obtain ⟨timestamp, -, -, heq⟩ := h.authorship_some a ha
        rw [heq]
        exact putAuthorship_keeps_row hrow
    | participation => trivial

/-- A block that a finished scan does not list has no winner. -/
theorem Store.Mirrors.unlisted {s : Store} (hs : s.Mirrors c) {id : ScanId} {row : ScanRow}
    (hrow : s.scans.get? id = some row) (hfin : row.finished = true) {n : ℕ} (hn : n ≤ row.finalizedHeight)
    (hlist : n ∉ s.winnerHeights id) : (c.block n).events.winner = none := by
  obtain ⟨pages, hpages, hheights⟩ := hs.enumerates.rows id row hrow
  rw [hfin] at hpages
  have hat : chainHash row.atHash = (c.block row.finalizedHeight).hash := by
    rw [hs.pinned id row hrow]
    rfl
  rw [hat] at hpages
  have hended := hpages.ended
  rw [hended] at hpages
  -- its pages are those of a node that serves the keys of its block
  have hserved : WinnerPages chain (c.block row.finalizedHeight).hash ks
      (·.ServesKeys ks (c.block row.finalizedHeight).hash (c.qblocks row.finalizedHeight).keys) pageSize
      pages none true := by
    refine hpages.imp ?_
    rintro cursor page ⟨node, hnode, hx⟩
    exact ⟨node, hnode row.finalizedHeight, hx⟩
  have hall := (winnerPages_complete hserved).2
  rw [hheights, hall] at hlist
  rw [← Option.not_isSome_iff_eq_none]
  exact fun h => hlist (c.listed _ _ hn h)

/-- **What an honest call covers is complete.** -/
theorem Effect.covers_complete {now : Timestamp} {op : Op} {s s' : Store}
    {r : Except StoreError CommitResult} (h : Effect now op s r s') (hop : HonestOp c op) (hs : s.Mirrors c)
    {i : Indexable} {n : ℕ} (hn : n ∈ s'.covered i) (hnew : n ∉ s.covered i) : s'.Complete c i n := by
  obtain ⟨-, ⟨b, rfl, hc, hi, rfl⟩ | ⟨range, -, hr, rfl, hmem⟩⟩ := h.covered hn hnew
  · have hb := hop.commit b rfl
    cases i with
    | winners =>
      intro f hf
      cases hw : b.records.winner with
      | none => cases (hb.winners hi hw).symm.trans hf
      | some w =>
        obtain rfl : w.fact = f := Option.some.inj ((hb.winner w hw).symm.trans hf)
        rw [hc.blocks_eq, hw]
        obtain ⟨row, hrow, -⟩ := putWinner_self s.blocks w
        exact ⟨row, hrow⟩
    | difficulty =>
      intro f hf
      cases hd : b.records.difficulty with
      | none => cases (hb.difficulties hi hd).symm.trans hf
      | some d =>
        obtain ⟨hread, m, hwrites⟩ := hc.difficulty_some d hd
        obtain ⟨hheight, hsource⟩ := hc.difficulty d hd
        obtain ⟨row, hrow, hblock, -⟩ := hwrites.stored hsource hread
        exact ⟨row, hheight ▸ hrow, hblock⟩
    | authorship =>
      intro f hf
      cases ha : b.records.authorship with
      | none => cases (hb.authors hi ha).symm.trans hf
      | some a =>
        obtain ⟨timestamp, ht, -, heq⟩ := hc.authorship_some a ha
        obtain rfl := Option.some.inj ((hb.authorship a ha timestamp (canonicalIso_ok ht).1).symm.trans hf)
        rw [heq, ← hc.authorship a ha]
        exact ⟨_, KeyedTable.get?_upsert_self ..⟩
    | participation => trivial
  · obtain ⟨row, hrow, hfin, -, -, -, hthrough⟩ := hr.scan
    have hlist : n ∉ s.winnerHeights range.scanId := fun hlist => hnew (hr.winners n hlist hmem.1 hmem.2)
    have hnone := hs.unlisted hrow hfin (hmem.2.trans hthrough) hlist
    obtain ⟨hwinner, hdifficulty⟩ := FinalizedBlock.fact_none hnone
    have hbased := hr.winnerBased
    cases hi : range.indexable with
    | winners =>
      intro f hf
      cases hwinner.symm.trans hf
    | difficulty =>
      intro f hf
      cases hdifficulty.symm.trans hf
    | authorship => exact absurd hi hbased
    | participation => trivial

/-- **An honest call keeps a mirror a mirror.** -/
theorem Effect.mirrors {now : Timestamp} {op : Op} {s s' : Store} {r : Except StoreError CommitResult}
    (h : Effect now op s r s') (hop : HonestOp c op) (hs : s.Mirrors c) : s'.Mirrors c := by
  obtain ⟨hwinners, hdifficulty, hauthorship⟩ := h.mirrors_rows hop hs
  refine ⟨hwinners, hdifficulty, hauthorship, fun i n hn => ?_, fun id row hrow => ?_,
    h.enumerated (fun scan hscan => (hop.begins scan hscan).1) hop.pages hs.enumerates⟩
  · by_cases hold : n ∈ s.covered i
    · exact h.keeps_complete hn (hs.complete i n hold)
    · exact h.covers_complete hop hs hn hold
  · rcases h.scan_origin hrow with hold | ⟨old, next, hold, rfl⟩ | ⟨scan, hscan, -, -, rfl⟩
    · exact hs.pinned id row hold
    · exact hs.pinned id old hold
    · exact (hop.begins scan hscan).2

theorem Store.bound_mirrors (pg : Bool) (genesis : BlockHash) : (Store.bound pg genesis).Mirrors c := by
  refine ⟨?_, ?_, ?_, ?_, ?_, Store.bound_enumerates pg genesis⟩
  · intro k row h
    cases h
  · intro n row h
    cases h
  · intro k fact h
    cases h
  · rintro i n ⟨cov, h, -⟩
    cases h
  · intro id row h
    cases h

/-! ### What is read from a mirror -/

/-- What is read for a height is no more than what the chain has there, and all of it when the
height is covered. -/
def Mirrored {α : Type} (stored : List α) (actual : Option α) (covered : Prop) : Prop :=
  stored.Sublist actual.toList ∧ (covered → stored = actual.toList)

/-- The authors that are stored for a height. -/
def Store.authorsAt (s : Store) (n : ℕ) : List (String × AuthorshipFact) :=
  (s.authorshipBlocks.rows.filter fun e => e.1.2 = n).map fun e => (e.1.1, e.2)

/-- Rows that all have the one fact of the chain, under its key, are one row at most. -/
theorem mirrored_of_rows {κ ρ α : Type} [DecidableEq κ] {t : KeyedTable κ ρ} {p : κ × ρ → Bool}
    {view : κ × ρ → α} {actual : Option α} {covered : Prop} (key : α → κ)
    (hsound : ∀ e ∈ t.rows, p e = true → actual = some (view e) ∧ e.1 = key (view e))
    (hcomplete : covered → ∀ a, actual = some a → ∃ e ∈ t.rows, p e = true) :
    Mirrored ((t.rows.filter p).map view) actual covered := by
  have hmem : ∀ e ∈ t.rows.filter p, actual = some (view e) ∧ e.1 = key (view e) := by
    intro e he
    rw [List.mem_filter] at he
    exact hsound e he.1 he.2
  have hnodup : ((t.rows.filter p).map Prod.fst).Nodup := (List.filter_sublist.map Prod.fst).nodup t.nodup
  have hempty : t.rows.filter p = [] → covered → actual = none := by
    intro hnil hcovered
    rw [Option.eq_none_iff_forall_not_mem]
    intro a ha
    obtain ⟨e, he, hp⟩ := hcomplete hcovered a ha
    have : e ∈ t.rows.filter p := List.mem_filter.2 ⟨he, hp⟩
    rw [hnil] at this
    cases this
  cases hrows : t.rows.filter p with
  | nil => exact ⟨List.nil_sublist _, fun hcovered => by rw [hempty hrows hcovered]; rfl⟩
  | cons e l =>
    obtain ⟨hactual, hkey⟩ := hmem e (by simp [hrows])
    cases l with
    | nil =>
      rw [hactual]
      exact ⟨List.Sublist.refl _, fun _ => rfl⟩
    | cons e' l =>
      -- two rows would share their key
      obtain ⟨hactual', hkey'⟩ := hmem e' (by simp [hrows])
      rw [hrows] at hnodup
      have hview := Option.some.inj (hactual.symm.trans hactual')
      simp [hkey, hkey', hview] at hnodup

/-- **What is read from a mirror at a height is at most what the chain has there, and all of it
when the height is covered.** -/
theorem Store.Mirrors.exact {s : Store} (hs : s.Mirrors c) {n : ℕ} (hle : n ≤ u64Max) :
    Mirrored ((s.winnersAt n).map BlockRecord.fact) (c.block n).winnerFact (n ∈ s.covered .winners) ∧
    Mirrored ((difficultyFrom s .block n).map DifficultyRecord.fact).toList (c.block n).difficultyFact
      (n ∈ s.covered .difficulty) ∧
    Mirrored (s.authorsAt n) (c.block n).authorFact (n ∈ s.covered .authorship) := by
  refine ⟨?_, ?_, ?_⟩
  · have hrows : (s.winnersAt n).map BlockRecord.fact =
        (s.blocks.rows.filter fun e => e.2.substrateBlockNumber = n).map fun e => e.2.fact := by
      rw [Store.winnersAt, List.filter_map, List.map_map]
      rfl
    rw [hrows]
    refine mirrored_of_rows (fun f => f.blockHash.text) (fun e he hp => ?_) fun hcovered f hf => ?_
    · obtain ⟨hkey, -, hfact⟩ := hs.winners e.1 e.2 (KeyedTable.get?_eq_some.2 he)
      have hn : e.2.substrateBlockNumber = n := of_decide_eq_true hp
      exact ⟨hn ▸ hfact, hkey⟩
    · obtain ⟨row, hrow⟩ := hs.complete .winners n hcovered f hf
      obtain ⟨hkey, hbound, hfact⟩ := hs.winners _ row hrow
      refine ⟨_, KeyedTable.get?_eq_some.1 hrow, decide_eq_true ?_⟩
      exact (c.height_unique hle hbound hf hfact hkey).symm
  · cases hd : difficultyFrom s .block n with
    | none =>
      refine ⟨List.nil_sublist _, fun hcovered => ?_⟩
      rw [Option.map_none]
      cases hf : (c.block n).difficultyFact with
      | none => rfl
      | some f =>
        obtain ⟨row, hrow, hsource⟩ := hs.complete .difficulty n hcovered f hf
        rw [difficultyFrom, hrow, Option.filter_some, if_pos (decide_eq_true hsource)] at hd
        cases hd
    | some row =>
      obtain ⟨hrow, hsource⟩ := Option.filter_eq_some_iff.1 hd
      rw [hs.difficulty n row hrow (of_decide_eq_true hsource)]
      exact ⟨List.Sublist.refl _, fun _ => rfl⟩
  · refine mirrored_of_rows (fun f => (f.1, n)) (fun e he hp => ?_) fun hcovered f hf => ?_
    · have hfact := hs.authorship e.1 e.2 (KeyedTable.get?_eq_some.2 he)
      have hn : e.1.2 = n := of_decide_eq_true hp
      exact ⟨hn ▸ hfact, Prod.ext rfl hn⟩
    · obtain ⟨fact, hrow⟩ := hs.complete .authorship n hcovered f hf
      exact ⟨_, KeyedTable.get?_eq_some.1 hrow, decide_eq_true rfl⟩

end

end Dashboard

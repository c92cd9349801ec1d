/-
The summary of each winning miner.

`node_summary` holds one row for each winning miner, which `write_winner` keeps current:
it selects the row of the touched miner again from that miner's winner rows.

* `Summarizes` — what a summary says of a list of wins;
* `minerWins_summarizes` — `REFRESH_NODE_SUMMARY` selects such a row, and nothing without
  a win;
* `Effect.summarized` — every call keeps the summaries, unless it gives a stored winner to
  another miner;
* `node_summary_exact` — **in a run whose commits leave every stored winner to its miner,
  `node_summary` is the aggregate of the winner rows**;
* `node_summary_moved` — a replaced winner leaves the summary of its old miner behind.
-/
import QuipDashboard.Extremes
import QuipDashboard.Runs
import Mathlib.Data.Prod.Lex
import Mathlib.Data.String.Basic

namespace Dashboard

/-- The winner rows of one miner. -/
def Store.winsOf (s : Store) (miner : String) : List BlockRecord :=
  (s.blocks.rows.map Prod.snd).filter (·.minerId = miner)

/-- A summary says what the wins of its miner say: their number, the least energy, the
mean time, the latest timestamp and the last qblock, of two the one with the greater
hash. -/
structure Summarizes (wins : List BlockRecord) (miner : String) (row : MinerWinsRow) : Prop where
  minerId : row.minerId = miner
  count : row.wins = wins.length
  bestEnergy : IsLeast {e | ∃ b ∈ wins, b.energy = e} row.bestEnergy
  avgMiningTime : row.avgMiningTime = (wins.map BlockRecord.miningTime).sum / wins.length
  lastWonAt : IsGreatest {t | ∃ b ∈ wins, b.timestamp = t} row.lastWonAt
  lastWon : IsGreatest {p | ∃ b ∈ wins, toLex (b.qblockId, b.blockHash.text) = p}
    (toLex (row.lastWonQblockId, row.lastWonBlockHash))

/-- The wins of a miner determine its summary. -/
theorem Summarizes.unique {wins : List BlockRecord} {miner : String} {row row' : MinerWinsRow}
    (h : Summarizes wins miner row) (h' : Summarizes wins miner row') : row = row' := by
  have hlast := toLex.injective (h.lastWon.unique h'.lastWon)
  have hminer := h.minerId.trans h'.minerId.symm
  have hcount := h.count.trans h'.count.symm
  have henergy := h.bestEnergy.unique h'.bestEnergy
  have htime := h.avgMiningTime.trans h'.avgMiningTime.symm
  have hat := h.lastWonAt.unique h'.lastWonAt
  cases row
  cases row'
  simp_all

/-- The later of two wins. -/
theorem latestWin_greatest (b : BlockRecord) (bs : List BlockRecord) :
    latestWin b bs ∈ b :: bs ∧ ∀ x ∈ b :: bs,
      toLex (x.qblockId, x.blockHash.text) ≤
        toLex ((latestWin b bs).qblockId, (latestWin b bs).blockHash.text) := by
  refine Extremes.foldl_greatest (fun x => toLex (x.qblockId, x.blockHash.text)) ?_ b bs
  intro l x
  by_cases h : l.qblockId < x.qblockId ∨ l.qblockId = x.qblockId ∧ l.blockHash.text < x.blockHash.text
  · refine .inr ⟨if_pos h, ?_⟩
    exact (Prod.Lex.toLex_lt_toLex.mpr h).le
  · refine .inl ⟨if_neg h, ?_⟩
    exact not_lt.mp (mt Prod.Lex.toLex_lt_toLex.mp h)

/-- **`REFRESH_NODE_SUMMARY` selects the summary of a miner with a win, and no row for
another.** -/
theorem minerWins_summarizes (s : Store) (miner : String) :
    (s.winsOf miner = [] → minerWins s.blocks miner = none) ∧
    (s.winsOf miner ≠ [] → ∃ row, minerWins s.blocks miner = some row ∧
      Summarizes (s.winsOf miner) miner row) := by
  unfold minerWins
  rw [← Store.winsOf]
  cases s.winsOf miner with
  | nil => exact ⟨fun _ => rfl, fun h => absurd rfl h⟩
  | cons b bs =>
    obtain ⟨hmem, hlast⟩ := latestWin_greatest b bs
    refine ⟨fun h => absurd h (List.cons_ne_nil b bs), fun _ => ⟨_, rfl, ?_⟩⟩
    exact
      { minerId := rfl
        count := rfl
        bestEnergy := Extremes.foldl_min BlockRecord.energy b bs
        avgMiningTime := by simp
        lastWonAt := Extremes.foldl_max BlockRecord.timestamp b bs
        lastWon := by
          refine ⟨⟨_, hmem, rfl⟩, ?_⟩
          rintro _ ⟨x, hx, rfl⟩
          exact hlast x hx }

/-! ### One call -/

/-- `node_summary` holds the row that would be selected for every miner. -/
def Store.Summarized (s : Store) : Prop :=
  ∀ miner, s.nodeSummary.get? miner = minerWins s.blocks miner

/-- A winner that is not stored for another miner. -/
def KeepsMiner (s : Store) (w : BlockRecord) : Prop :=
  ∀ old, s.blocks.get? w.blockHash.text = some old → old.minerId = w.minerId

/-- The rows that a table holds besides a replaced one keep their places. -/
theorem minerWins_put {t : KeyedTable String BlockRecord} {k miner : String} {b : BlockRecord}
    (hold : ∀ old, t.get? k = some old → old.minerId ≠ miner) (hb : b.minerId ≠ miner) :
    minerWins (t.put k b) miner = minerWins t miner := by
  have hrows : ((t.put k b).rows.map Prod.snd).filter (·.minerId = miner) =
      (t.rows.map Prod.snd).filter (·.minerId = miner) := by
    rw [KeyedTable.put_rows]
    cases hg : t.get? k with
    | none => simp [hb]
    | some old =>
      simp only [Option.isSome_some, if_true, KeyedTable.replaceRow, List.map_map, List.filter_map]
      have hfilter : t.rows.filter
          ((fun x => decide (x.minerId = miner)) ∘ Prod.snd ∘ fun e => if e.1 = k then (k, b) else e) =
          t.rows.filter ((fun x => decide (x.minerId = miner)) ∘ Prod.snd) := by
        refine List.filter_congr fun e he => ?_
        by_cases hk : e.1 = k
        · have : t.get? k = some e.2 := hk ▸ KeyedTable.get?_eq_some.mpr he
          simp [hk, hb, hold e.2 this]
        · simp [hk]
      rw [hfilter]
      refine List.map_congr_left fun e he => ?_
      have hne : e.1 ≠ k := by
        rintro rfl
        obtain ⟨hmem, hminer⟩ := List.mem_filter.mp he
        exact hold e.2 (KeyedTable.get?_eq_some.mpr hmem) (by simpa using hminer)
      simp [hne]
  unfold minerWins
  rw [hrows]

/-- A refresh selects the row of its miner again. -/
theorem refreshNodeSummary_get? (s : Store) (m miner : String) :
    (refreshNodeSummary m s).2.nodeSummary.get? miner =
      if miner = m then (minerWins s.blocks m).or (s.nodeSummary.get? m)
      else s.nodeSummary.get? miner := by
  unfold refreshNodeSummary
  cases minerWins s.blocks m with
  | none =>
    by_cases hm : miner = m <;> simp [hm]
  | some row =>
    show (s.nodeSummary.put m row).get? miner = _
    rw [KeyedTable.get?_put]
    rfl

theorem refreshNodeSummary_blocks (s : Store) (m : String) :
    (refreshNodeSummary m s).2.blocks = s.blocks := by
  unfold refreshNodeSummary
  cases minerWins s.blocks m <;> rfl

/-- A miner has a summary to select as soon as one of its wins is stored. -/
theorem minerWins_isSome {s : Store} {k : String} {b : BlockRecord}
    (h : s.blocks.get? k = some b) : (minerWins s.blocks b.minerId).isSome := by
  have hmem : b ∈ s.winsOf b.minerId :=
    List.mem_filter.mpr ⟨List.mem_map.mpr ⟨(k, b), KeyedTable.get?_eq_some.mp h, rfl⟩, by simp⟩
  obtain ⟨row, hrow, -⟩ := (minerWins_summarizes s b.minerId).2 (List.ne_nil_of_mem hmem)
  rw [hrow]
  rfl

/-- What `upsert_winner` stores under the hash of a winner that it writes. -/
theorem putWinner_put {t : KeyedTable String BlockRecord} {w : BlockRecord}
    (h : (putWinner t w).1 > 0) :
    ∃ row : BlockRecord, row.minerId = w.minerId ∧
      (putWinner t w).2 = t.put w.blockHash.text row := by
  unfold putWinner at h ⊢
  cases hg : t.get? w.blockHash.text with
  | none => exact ⟨w, rfl, rfl⟩
  | some old =>
    by_cases hsame : (w.enrich old).same old = true
    · simp [hg, hsame] at h
    · exact ⟨w.enrich old, rfl, by simp [hsame]⟩

/-- **`write_winner` keeps the summaries, when it leaves a stored winner to its miner.** -/
theorem Store.Summarized.writeWinner {s s' : Store} {w : BlockRecord} {n : ℕ}
    (hs : s.Summarized) (hkeep : KeepsMiner s w) (h : (writeWinner w).exec s = .ok (n, s')) :
    s'.Summarized := by
  unfold Dashboard.writeWinner at h
  rw [Tx.exec_bind, exec_upsertWinner] at h
  simp only [Except.bind] at h
  by_cases hn : (putWinner s.blocks w).1 > 0
  · rw [if_pos hn] at h
    have hfinal : (refreshNodeSummary w.minerId
        { s with blocks := (putWinner s.blocks w).2 }).2 = s' :=
      (Prod.mk.inj (Except.ok.inj h)).2
    obtain ⟨row, hrow, hput⟩ := putWinner_put hn
    intro miner
    rw [← hfinal, refreshNodeSummary_blocks, refreshNodeSummary_get?]
    show (if miner = w.minerId then (minerWins (putWinner s.blocks w).2 w.minerId).or _ else _) =
      minerWins (putWinner s.blocks w).2 miner
    rw [hput]
    by_cases hm : miner = w.minerId
    · subst hm
      have hsome := minerWins_isSome (s := { s with blocks := s.blocks.put w.blockHash.text row })
        (KeyedTable.get?_put_self _ w.blockHash.text row)
      rw [hrow] at hsome
      obtain ⟨sum, hsum⟩ := Option.isSome_iff_exists.mp hsome
      simp only at hsum
      rw [if_pos rfl, hsum]
      rfl
    · have hold : ∀ old, s.blocks.get? w.blockHash.text = some old → old.minerId ≠ miner :=
        fun old hg => hkeep old hg ▸ Ne.symm hm
      rw [if_neg hm, minerWins_put hold (by rw [hrow]; exact Ne.symm hm)]
      exact hs miner
  · rw [if_neg hn] at h
    cases h
    have hzero : (putWinner s.blocks w).1 = 0 := by omega
    simpa only [putWinner_zero hzero] using hs

/-! ### Runs -/

/-- A call whose winner, if it commits one, is not stored for another miner. -/
def Call.KeepsMiner (c : Call) : Prop :=
  ∀ b w, c.op = .commitBlock b → b.records.winner = some w → Dashboard.KeepsMiner c.pre w

theorem Store.Summarized.congr {s s' : Store} (hs : s.Summarized) (hb : s'.blocks = s.blocks)
    (hn : s'.nodeSummary = s.nodeSummary) : s'.Summarized := by
  intro miner
  rw [hb, hn]
  exact hs miner

/-- A commit touches the winner rows and their summaries by `write_winner` alone. -/
theorem CommitRun.winner_only {now : Timestamp} {b : BlockCommit} {n : ℕ} {s s' : Store}
    {r : CommitResult} (run : CommitRun now b n s r s') :
    ∃ s₁ w, (writeRecord writeWinner b.records.winner).exec s = .ok (w, s₁) ∧
      s'.blocks = s₁.blocks ∧ s'.nodeSummary = s₁.nodeSummary := by
  obtain ⟨-, hd, -⟩ := provenance_ok run.provenance
  obtain ⟨-, -, -, -, s₁, s₂, s₃, s₄, s₅, s₆, w, d, a, p, c, h₁, h₂, h₃, h₄, h₅, h₆, rfl, -⟩ := run
  refine ⟨s₁, w, h₁, ?_⟩
  obtain ⟨dh, pd, rfl, -⟩ := exec_difficultyRecord (fun d h => (hd d h).2) h₂
  obtain ⟨ab, rfl, -⟩ := exec_authorshipRecord h₃
  obtain ⟨rfl, -, -⟩ := exec_writeParticipants h₄
  obtain ⟨cs, rfl, -⟩ := exec_completeAll h₅
  obtain ⟨va, rfl⟩ := exec_recomputeAfterCutover h₆
  exact ⟨rfl, rfl⟩

/-- **Every call keeps the summaries, unless it gives a stored winner to another miner.** -/
theorem Calls.summarized {s s' : Store} {c : Call} (h : Calls s c s') (hs : s.Summarized)
    (hkeep : c.KeepsMiner) : s'.Summarized := by
  cases h with
  | call now op s =>
  cases hx : op.apply now s with
  | mk r s' =>
  have he : Effect now op s r s' := by
    have := apply_effect now op s
    rwa [hx] at this
  show s'.Summarized
  cases op with
  | commitBlock b =>
    rcases commitBlock_run hx with ⟨rfl, -⟩ | ⟨n, r', -, -, ⟨run⟩⟩
    · exact hs
    · obtain ⟨s₁, c, hw, hblocks, hsum⟩ := run.winner_only
      refine Store.Summarized.congr ?_ hblocks hsum
      cases hrec : b.records.winner with
      | none =>
        rw [hrec] at hw
        cases hw
        exact hs
      | some w =>
        rw [hrec] at hw
        obtain ⟨m, s₂, hw, hret⟩ := Tx.exec_bind_ok.mp hw
        cases hret
        exact hs.writeWinner (hkeep b w rfl hrec) hw
  | reindex is =>
    obtain ⟨q, hq⟩ : ∃ q, reindex is s = q := ⟨_, rfl⟩
    rw [Op.apply, hq] at hx
    obtain ⟨e | gs, s₁⟩ := q
    · cases hx
      rw [reindex_error hq]
      exact hs
    · cases hx
      have hrows := reindex_rows hq
      have hblocks := (reindex_ok hq).2.blocks
      intro miner
      rw [hrows.nodeSummary, hblocks]
      by_cases hw : Indexable.winners ∈ Indexable.all.filter (· ∈ is)
      · rw [if_pos hw, if_pos hw]
        rfl
      · rw [if_neg hw, if_neg hw]
        exact hs miner
  | beginScan | appendScanPage | commitRange | markUnavailable | setFinalizedTarget
  | setPrunedFloor | initializeCoverage | insertDifficultySnapshot | tryAuthorshipCutover
  | recomputeAuthorshipSummary =>
    have hsame := he.sameRows (fun _ h => by cases h) fun _ h => by cases h
    exact hs.congr hsame.blocks hsame.nodeSummary

theorem StoreRun.summarized {pg : Bool} {genesis : BlockHash} {cs : List Call} {s : Store}
    (h : StoreRun pg genesis cs s) (hkeep : ∀ c ∈ cs, c.KeepsMiner) : s.Summarized := by
  induction h with
  | nil =>
    intro miner
    rfl
  | snoc _ hstep ih =>
    exact hstep.summarized (ih fun c hc => hkeep c (List.mem_cons_of_mem _ hc))
      (hkeep _ (List.mem_cons_self ..))

/-- **In a run whose commits leave every stored winner to its miner, `node_summary` has
exactly one row for each miner with a winner row, and it is the aggregate of these rows.** -/
theorem node_summary_exact {pg : Bool} {genesis : BlockHash} {cs : List Call} {s : Store}
    (h : StoreRun pg genesis cs s) (hkeep : ∀ c ∈ cs, c.KeepsMiner) (miner : String) :
    (s.winsOf miner = [] → s.nodeSummary.get? miner = none) ∧
    (s.winsOf miner ≠ [] → ∃ row, s.nodeSummary.get? miner = some row ∧
      Summarizes (s.winsOf miner) miner row) := by
  rw [h.summarized hkeep miner]
  exact minerWins_summarizes s miner

/-- A commit at height 5 of a winner of this miner. -/
def wonBy (miner : String) : BlockCommit where
  genesis := .uniform 1
  hash := .uniform 2
  height := 5
  guards := [⟨.winners, 1⟩]
  records :=
    { winner := some
        { blockHash := .uniform 3, substrateBlockNumber := 5, substrateBlockHash := .uniform 2
          substrateParentHash := .uniform 4, timestamp := 1710000000, minerId := miner
          energy := -3, diversity := 1 / 2, numValidSolutions := 1, miningTime := 6
          deviceAccessTimeUs := none, reward := 10, qblockId := 7, nonce := 9, numNodes := 4
          numEdges := 5, difficultyEnergy := -2, minDiversity := 1 / 4, minSolutions := 1
          finalized := true, topologyHash := none }
      difficulty := none, authorship := none, participation := [] }
  completed := [.winners]

/-- The call that commits it. -/
def wonCall (miner : String) (s : Store) : Call :=
  ⟨.utc 0, .commitBlock (wonBy miner), s, (commitBlock (.utc 0) (wonBy miner) s).1,
    (commitBlock (.utc 0) (wonBy miner) s).2⟩

theorem node_summary_exact_alice : ∃ s,
    StoreRun false (.uniform 1) [wonCall "alice" (Store.bound false (.uniform 1))] s ∧
    ∃ row, s.nodeSummary.get? "alice" = some row ∧ Summarizes (s.winsOf "alice") "alice" row := by
  have run : StoreRun false (.uniform 1) [wonCall "alice" (Store.bound false (.uniform 1))] _ :=
    .snoc .nil (.call (.utc 0) (.commitBlock (wonBy "alice")) _)
  have hkeep : ∀ c ∈ [wonCall "alice" (Store.bound false (.uniform 1))], c.KeepsMiner := by
    intro c hc b w _ _ old hold
    rw [List.mem_singleton.mp hc] at hold
    cases hold
  exact ⟨_, run, (node_summary_exact run hkeep "alice").2 (by decide +kernel)⟩

/-- **A winner that is committed again for another miner leaves the summary of its first
miner behind**, who has no winner row any more. -/
theorem node_summary_moved : ∃ cs s, StoreRun false (.uniform 1) cs s ∧
    s.winsOf "alice" = [] ∧ (s.nodeSummary.get? "alice").isSome :=
  ⟨_, _, .snoc (.snoc .nil (.call (.utc 0) (.commitBlock (wonBy "alice")) _))
    (.call (.utc 0) (.commitBlock (wonBy "bob")) _), by decide +kernel, by decide +kernel⟩

end Dashboard

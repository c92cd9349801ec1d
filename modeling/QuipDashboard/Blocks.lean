/-
Winner, difficulty and participant rows.

The model of `write_winner`, `write_difficulty` and `write_participant` in
`dashboard-store/src/blocks.rs`, as bodies inside a transaction.  Each of them
has one lemma that says what it leaves behind:

* `exec_writeWinner` — only `blocks` and `node_summary` change, by `putWinner`;
* `exec_writeDifficulty` — the row of the height is kept, enriched or stored;
* `exec_writeParticipants` — only `qblock_participation` changes, by
  `putParticipants`.
-/
import QuipDashboard.Store

namespace Dashboard

/-! ### Winners -/

/-- A later record keeps the topology and the device time that it does not know. -/
def BlockRecord.enrich (b existing : BlockRecord) : BlockRecord :=
  { b with
    topologyHash := b.topologyHash.or existing.topologyHash
    deviceAccessTimeUs := b.deviceAccessTimeUs.or existing.deviceAccessTimeUs }

/-- The latest win: by qblock, then by the text of the solution hash. -/
def latestWin (b : BlockRecord) (bs : List BlockRecord) : BlockRecord :=
  bs.foldl (fun l x =>
    if l.qblockId < x.qblockId ∨ l.qblockId = x.qblockId ∧ l.blockHash.text < x.blockHash.text
    then x else l) b

/-- The summary that `REFRESH_NODE_SUMMARY` selects for one miner. -/
def minerWins (blocks : KeyedTable String BlockRecord) (miner : String) : Option MinerWinsRow :=
  match (blocks.rows.map Prod.snd).filter (·.minerId = miner) with
  | [] => none
  | b :: bs => some
    { minerId := miner
      wins := bs.length + 1
      bestEnergy := bs.foldl (fun e x => min e x.energy) b.energy
      avgMiningTime := ((b :: bs).map BlockRecord.miningTime).sum / (bs.length + 1)
      lastWonAt := bs.foldl (fun t x => max t x.timestamp) b.timestamp
      lastWonQblockId := (latestWin b bs).qblockId
      lastWonBlockHash := (latestWin b bs).blockHash.text }

/-- `REFRESH_NODE_SUMMARY`. -/
def refreshNodeSummary (miner : String) (s : Store) : Unit × Store :=
  ((), match minerWins s.blocks miner with
    | none => s
    | some row => { s with nodeSummary := s.nodeSummary.put miner row })

/-- `upsert_winner`. -/
def upsertWinner (b : BlockRecord) : StoreTx ℕ := do
  match ← Tx.read (·.blocks.get? b.blockHash.text) with
  | some existing =>
    let incoming := b.enrich existing
    if incoming.same existing then return 0
    else Tx.update fun s =>
      let t := s.blocks.upsert b.blockHash.text incoming fun _ => some incoming
      (t.1, { s with blocks := t.2 })
  | none =>
    Tx.update fun s =>
      let t := s.blocks.upsert b.blockHash.text b fun _ => none
      (t.1, { s with blocks := t.2 })

/-- `write_winner`. -/
def writeWinner (b : BlockRecord) : StoreTx ℕ := do
  let written ← upsertWinner b
  if written > 0 then Tx.update (refreshNodeSummary b.minerId)
  return written

/-- What `upsert_winner` makes of the `blocks` table. -/
def putWinner (blocks : KeyedTable String BlockRecord) (b : BlockRecord) :
    ℕ × KeyedTable String BlockRecord :=
  match blocks.get? b.blockHash.text with
  | some existing =>
    if (b.enrich existing).same existing then (0, blocks)
    else (1, blocks.put b.blockHash.text (b.enrich existing))
  | none => (1, blocks.put b.blockHash.text b)

theorem exec_upsertWinner (b : BlockRecord) (s : Store) :
    (upsertWinner b).exec s =
      .ok ((putWinner s.blocks b).1, { s with blocks := (putWinner s.blocks b).2 }) := by
  unfold upsertWinner putWinner
  rw [Tx.exec_bind, Tx.exec_read]
  simp only [Except.bind]
  cases hg : s.blocks.get? b.blockHash.text with
  | none => simp [KeyedTable.upsert, hg]
  | some existing =>
    by_cases hs : (b.enrich existing).same existing = true
    · simp [hs]
    · simp [hs, KeyedTable.upsert, hg]

/-- **`write_winner` changes the winner rows by `putWinner`, and refreshes the
summary of the miner when it wrote a row.** -/
theorem exec_writeWinner (b : BlockRecord) (s : Store) :
    ∃ nodeSummary, (writeWinner b).exec s =
        .ok ((putWinner s.blocks b).1,
          { s with blocks := (putWinner s.blocks b).2, nodeSummary := nodeSummary }) ∧
      ((putWinner s.blocks b).1 = 0 → nodeSummary = s.nodeSummary) := by
  unfold writeWinner
  simp only [Tx.exec_bind, exec_upsertWinner, Except.bind]
  by_cases hn : (putWinner s.blocks b).1 > 0
  · simp only [hn, if_true, Tx.exec_bind, Tx.exec_update, Except.bind, refreshNodeSummary]
    cases minerWins (putWinner s.blocks b).2 b.minerId with
    | none => exact ⟨s.nodeSummary, rfl, fun h => rfl⟩
    | some row => exact ⟨_, rfl, fun h => absurd h (by omega)⟩
  · rw [if_neg hn]
    exact ⟨s.nodeSummary, rfl, fun h => rfl⟩

/-- The row under a winner's own hash is the winner, enriched by the row before. -/
theorem putWinner_self (blocks : KeyedTable String BlockRecord) (b : BlockRecord) :
    ∃ row, (putWinner blocks b).2.get? b.blockHash.text = some row ∧
      ((blocks.get? b.blockHash.text = none ∧ row = b) ∨
       ∃ existing, blocks.get? b.blockHash.text = some existing ∧
        (row = b.enrich existing ∨ (b.enrich existing).same existing ∧ row = existing)) := by
  unfold putWinner
  cases hg : blocks.get? b.blockHash.text with
  | none => exact ⟨b, by simp, .inl ⟨rfl, rfl⟩⟩
  | some existing =>
    by_cases hs : (b.enrich existing).same existing = true
    · exact ⟨existing, by simpa [hs] using hg, .inr ⟨existing, rfl, .inr ⟨hs, rfl⟩⟩⟩
    · exact ⟨b.enrich existing, by simp [hs], .inr ⟨existing, rfl, .inl rfl⟩⟩

theorem putWinner_ne {blocks : KeyedTable String BlockRecord} {b : BlockRecord} {k : String}
    (h : k ≠ b.blockHash.text) : (putWinner blocks b).2.get? k = blocks.get? k := by
  unfold putWinner
  split
  · split
    · rfl
    · exact KeyedTable.get?_put_ne h
  · exact KeyedTable.get?_put_ne h

theorem putWinner_zero {blocks : KeyedTable String BlockRecord} {b : BlockRecord}
    (h : (putWinner blocks b).1 = 0) : (putWinner blocks b).2 = blocks := by
  unfold putWinner at h ⊢
  split at h <;> rename_i hg
  · split at h
    · simp_all
    · cases h
  · cases h

/-- **Submitting a stored winner again writes nothing.** -/
theorem putWinner_again (blocks : KeyedTable String BlockRecord) (b : BlockRecord) :
    putWinner (putWinner blocks b).2 b = (0, (putWinner blocks b).2) := by
  have hself : b.enrich b = b := by simp [BlockRecord.enrich]
  have htwice : ∀ e : BlockRecord, b.enrich (b.enrich e) = b.enrich e := by
    intro e
    simp [BlockRecord.enrich, ← Option.or_assoc]
  unfold putWinner
  cases hg : blocks.get? b.blockHash.text with
  | none => simp [hself]
  | some existing =>
    by_cases hs : (b.enrich existing).same existing = true
    · simp [hs, hg]
    · simp [hs, htwice]

/-! ### Difficulty -/

/-- Reading a difficulty row back. -/
def decodeDifficulty (row : DifficultyRecord) : Except StoreError DifficultyRecord := do
  let observedAt ← canonicalTimestamp row.observedAt
  return { row with observedAt }

/-- The stored row of a height that came from this source. -/
def difficultyFrom (s : Store) (source : DifficultySource) (height : ℕ) :
    Option DifficultyRecord :=
  (s.difficultyHistory.get? height).filter (·.source = source)

/-- `upsert` on `difficulty_history`, whose update condition sees the stored row. -/
def upsertDifficulty (d : DifficultyRecord) (condition : DifficultyRecord → Bool) : StoreTx ℕ := do
  let observedAt ← Tx.ofExcept (canonicalTimestamp d.observedAt)
  let row := { d with observedAt }
  Tx.update fun s =>
    let t := s.difficultyHistory.upsert d.observedAtBlock row fun old =>
      if condition old then some row else none
    (t.1, { s with difficultyHistory := t.2 })

/-- `upsert` on `dashboard_poll_difficulty`, always with `DO NOTHING`. -/
def upsertPollDifficulty (d : DifficultyRecord) : StoreTx ℕ := do
  let observedAt ← Tx.ofExcept (canonicalTimestamp d.observedAt)
  Tx.update fun s =>
    let t :=
      s.pollDifficulty.upsert d.observedAtBlock { d with observedAt } fun _ => none
    (t.1, { s with pollDifficulty := t.2 })

/-- A later record keeps the topology that it does not know. -/
def DifficultyRecord.enrich (d existing : DifficultyRecord) : DifficultyRecord :=
  { d with topologyHash := d.topologyHash.or existing.topologyHash }

/-- The poll row of a height is kept apart before a block takes precedence. -/
def preservePoll (height : ℕ) : StoreTx Unit := do
  match ← Tx.read (difficultyFrom · .poll height) with
  | some old => let _ ← upsertPollDifficulty old
  | none => pure ()

/-- `write_difficulty`. -/
def writeDifficulty (d : DifficultyRecord) : StoreTx ℕ := do
  if d.source = .block then
    match ← Tx.read (difficultyFrom · .block d.observedAtBlock) with
    | some row =>
      let existing ← Tx.ofExcept (decodeDifficulty row)
      let observedAt ← Tx.ofExcept (canonicalTimestamp d.observedAt)
      let incoming := { d with observedAt }.enrich existing
      let enriched := existing.enrich incoming
      if incoming.same existing then return 0
      else if !incoming.same enriched then Tx.fail (.invalid "conflicting block difficulty")
      else upsertDifficulty incoming fun _ => true
    | none =>
      preservePoll d.observedAtBlock
      upsertDifficulty d (·.source = .poll)
  else
    let _ ← upsertPollDifficulty d
    upsertDifficulty d fun _ => false

/-- What `write_difficulty` makes of the history when a block is its source: the
row of the height came from a block and says the same, or lacks only the
topology; or the height has no row from a block yet. -/
inductive WritesDifficulty (d : DifficultyRecord) (t : KeyedTable ℕ DifficultyRecord) :
    ℕ → KeyedTable ℕ DifficultyRecord → Prop
  | known (existing : DifficultyRecord) (hget : t.get? d.observedAtBlock = some existing)
      (hsource : existing.source = .block) (hread : decodeDifficulty existing = .ok existing)
      (hsame : (d.enrich existing).same existing = true) :
      WritesDifficulty d t 0 t
  | enriched (existing : DifficultyRecord) (hget : t.get? d.observedAtBlock = some existing)
      (hsource : existing.source = .block)
      (hsame : (d.enrich existing).same (existing.enrich (d.enrich existing)) = true) :
      WritesDifficulty d t 1 (t.put d.observedAtBlock (d.enrich existing))
  | fresh (hnone : ∀ row, t.get? d.observedAtBlock = some row → row.source = .poll) :
      WritesDifficulty d t 1 (t.put d.observedAtBlock d)

theorem decodeDifficulty_ok {row existing : DifficultyRecord}
    (h : decodeDifficulty row = .ok existing) : existing = row := by
  unfold decodeDifficulty at h
  cases ht : canonicalTimestamp row.observedAt with
  | error e => simp [ht, bind, Except.bind] at h
  | ok t =>
    rw [ht] at h
    cases h
    rw [canonicalTimestamp_ok ht]

theorem exec_upsertDifficulty {d : DifficultyRecord} {condition : DifficultyRecord → Bool}
    {s s' : Store} {n : ℕ} (h : (upsertDifficulty d condition).exec s = .ok (n, s')) :
    let t := s.difficultyHistory.upsert d.observedAtBlock d fun old =>
      if condition old then some d else none
    n = t.1 ∧ s' = { s with difficultyHistory := t.2 } := by
  unfold upsertDifficulty at h
  obtain ⟨t, ht, h⟩ := Tx.exec_ofExcept_bind_ok.mp h
  rw [canonicalTimestamp_ok ht] at h
  cases h
  exact ⟨rfl, rfl⟩

theorem exec_preservePoll {height : ℕ} {s s' : Store} {u : Unit}
    (h : (preservePoll height).exec s = .ok (u, s')) :
    ∃ pollDifficulty, s' = { s with pollDifficulty } ∧
      ∀ k row, pollDifficulty.get? k = some row →
        s.pollDifficulty.get? k = some row ∨ row.source = .poll := by
  unfold preservePoll at h
  rw [Tx.exec_read_bind] at h
  cases hf : difficultyFrom s .poll height with
  | none =>
    simp only [hf] at h
    cases h
    exact ⟨s.pollDifficulty, rfl, fun k row h => .inl h⟩
  | some old =>
    simp only [hf] at h
    obtain ⟨n, s₁, h₁, h⟩ := Tx.exec_bind_ok.mp h
    obtain ⟨t, -, h₁⟩ := Tx.exec_ofExcept_bind_ok.mp h₁
    cases h₁
    cases h
    have hold : old.source = .poll := by simpa using (Option.filter_eq_some_iff.mp hf).2
    refine ⟨_, rfl, fun k row hrow => ?_⟩
    by_cases hk : k = old.observedAtBlock
    · subst hk
      rw [KeyedTable.get?_upsert_self] at hrow
      cases hg : s.pollDifficulty.get? old.observedAtBlock with
      | none =>
        rw [hg] at hrow
        exact .inr (Option.some.inj hrow ▸ hold)
      | some kept =>
        rw [hg] at hrow
        exact .inl (congrArg some (Option.some.inj hrow))
    · rw [KeyedTable.get?_upsert_ne hk] at hrow
      exact .inl hrow

/-- **`write_difficulty` keeps, enriches or stores the row of its height, and
changes only the two difficulty tables.** -/
theorem exec_writeDifficulty {d : DifficultyRecord} {s s' : Store} {n : ℕ}
    (hd : d.source = .block) (h : (writeDifficulty d).exec s = .ok (n, s')) :
    canonicalTimestamp d.observedAt = .ok d.observedAt ∧
      ∃ difficultyHistory pollDifficulty, s' = { s with difficultyHistory, pollDifficulty } ∧
        WritesDifficulty d s.difficultyHistory n difficultyHistory ∧
        ∀ k row, pollDifficulty.get? k = some row →
          s.pollDifficulty.get? k = some row ∨ row.source = .poll := by
  unfold writeDifficulty at h
  rw [if_pos hd, Tx.exec_read_bind] at h
  cases hf : difficultyFrom s .block d.observedAtBlock with
  | some row =>
    obtain ⟨hget, hsource⟩ := Option.filter_eq_some_iff.mp hf
    simp only [decide_eq_true_eq] at hsource
    simp only [hf] at h
    obtain ⟨existing, hdec, h₁⟩ := Tx.exec_ofExcept_bind_ok.mp h
    obtain ⟨t, ht, h₂⟩ := Tx.exec_ofExcept_bind_ok.mp h₁
    clear h h₁
    rename' h₂ => h
    obtain rfl := canonicalTimestamp_ok ht
    obtain rfl := decodeDifficulty_ok hdec
    refine ⟨ht, ?_⟩
    by_cases hsame : (d.enrich existing).same existing = true
    · simp only [hsame, if_true] at h
      cases h
      exact ⟨_, _, rfl, .known existing hget hsource hdec hsame, fun k row h => .inl h⟩
    · by_cases henr : (d.enrich existing).same (existing.enrich (d.enrich existing)) = true
      · simp only [hsame, henr, Bool.not_true, Bool.false_eq_true, if_false] at h
        obtain ⟨rfl, rfl⟩ := exec_upsertDifficulty (d := d.enrich existing) h
        have hkey : (d.enrich existing).observedAtBlock = d.observedAtBlock := rfl
        rw [hkey, KeyedTable.upsert_of_some (r := d.enrich existing) hget (by simp)]
        exact ⟨_, _, rfl, .enriched existing hget hsource henr, fun k row h => .inl h⟩
      · simp only [hsame, henr, Bool.not_false, if_true] at h
        cases h
  | none =>
    simp only [hf] at h
    obtain ⟨u, s₁, hpoll, h⟩ := Tx.exec_bind_ok.mp h
    obtain ⟨poll, rfl, hpolls⟩ := exec_preservePoll hpoll
    obtain ⟨t, ht, -⟩ := Tx.exec_ofExcept_bind_ok.mp h
    obtain rfl := canonicalTimestamp_ok ht
    refine ⟨ht, ?_⟩
    obtain ⟨rfl, rfl⟩ := exec_upsertDifficulty h
    cases hget : s.difficultyHistory.get? d.observedAtBlock with
    | none =>
      rw [KeyedTable.upsert_of_none hget]
      exact ⟨_, _, rfl, .fresh (fun row hrow => by rw [hget] at hrow; cases hrow), hpolls⟩
    | some old =>
      -- the row did not come from a block, so it was polled and gives way
      have hold : old.source = .poll := by
        cases hs : old.source with
        | poll => rfl
        | block => simp [difficultyFrom, hget, hs] at hf
      rw [KeyedTable.upsert_of_some (r := d) hget (by simp [hold])]
      exact ⟨_, _, rfl, .fresh (fun row hrow => by rw [hget] at hrow; cases hrow; exact hold), hpolls⟩

/-- A polled record fills its height where no row stands, in both tables. -/
theorem exec_writeDifficulty_poll {d : DifficultyRecord} {s s' : Store} {n : ℕ}
    (hd : d.source = .poll) (h : (writeDifficulty d).exec s = .ok (n, s')) :
    s' = { s with
      difficultyHistory := s.difficultyHistory.insertNew d.observedAtBlock d
      pollDifficulty := s.pollDifficulty.insertNew d.observedAtBlock d } := by
  unfold writeDifficulty at h
  rw [if_neg (by simp [hd])] at h
  obtain ⟨m, s₁, h₁, h⟩ := Tx.exec_bind_ok.mp h
  obtain ⟨t, ht, h₁⟩ := Tx.exec_ofExcept_bind_ok.mp h₁
  obtain rfl := canonicalTimestamp_ok ht
  cases h₁
  obtain ⟨-, rfl⟩ := exec_upsertDifficulty h
  rfl

/-- The row that `write_difficulty` leaves says what the record says. -/
theorem WritesDifficulty.stored {d : DifficultyRecord}
    {t t' : KeyedTable ℕ DifficultyRecord} {n : ℕ} (h : WritesDifficulty d t n t')
    (hd : d.source = .block) (hread : canonicalTimestamp d.observedAt = .ok d.observedAt) :
    ∃ row, t'.get? d.observedAtBlock = some row ∧ row.source = .block ∧
      decodeDifficulty row = .ok row ∧ (d.enrich row).same row = true := by
  have hdecode : ∀ row : DifficultyRecord, row.observedAt = d.observedAt →
      decodeDifficulty row = .ok row := by
    intro row hrow
    simp only [decodeDifficulty, hrow, hread, bind, Except.bind, pure, Except.pure]
    rw [← hrow]
  cases h with
  | known existing hget hsource hread hsame => exact ⟨existing, hget, hsource, hread, hsame⟩
  | enriched existing hget hsource hsame =>
    refine ⟨d.enrich existing, by simp, hd, hdecode _ rfl, ?_⟩
    have : d.enrich (d.enrich existing) = d.enrich existing := by
      simp [DifficultyRecord.enrich, ← Option.or_assoc]
    rw [this]
    exact DifficultyRecord.same_refl _
  | fresh hnone =>
    refine ⟨d, by simp, hd, hdecode _ rfl, ?_⟩
    have : d.enrich d = d := by simp [DifficultyRecord.enrich]
    rw [this]
    exact DifficultyRecord.same_refl _

/-- A stored row from a block that already says the same is not written again. -/
theorem exec_writeDifficulty_known {d row : DifficultyRecord} {s : Store}
    (hd : d.source = .block) (hread : canonicalTimestamp d.observedAt = .ok d.observedAt)
    (hget : s.difficultyHistory.get? d.observedAtBlock = some row) (hsource : row.source = .block)
    (hdec : decodeDifficulty row = .ok row) (hsame : (d.enrich row).same row = true) :
    (writeDifficulty d).exec s = .ok (0, s) := by
  have hf : difficultyFrom s .block d.observedAtBlock = some row :=
    Option.filter_eq_some_iff.mpr ⟨hget, by simpa using hsource⟩
  unfold writeDifficulty
  rw [if_pos hd, Tx.exec_read_bind]
  simp only [hf]
  refine Tx.exec_ofExcept_bind_ok.mpr ⟨row, hdec, ?_⟩
  refine Tx.exec_ofExcept_bind_ok.mpr ⟨d.observedAt, hread, ?_⟩
  simp [hsame]

/-! ### Participants -/

/-- The key of a participant's row. -/
def QBlockParticipationRecord.key (p : QBlockParticipationRecord) : ℕ × String :=
  (p.qblockId, p.account)

/-- The budgets that a native `INTEGER` column rejects. -/
def invalidBudget (n : ℚ) : Bool := n < 0 ∨ n.den ≠ 1 ∨ n > i32Max

/-- The upsert of `write_participant`, on the participation table. -/
def putParticipant (t : KeyedTable (ℕ × String) QBlockParticipationRecord)
    (p : QBlockParticipationRecord) :
    ℕ × KeyedTable (ℕ × String) QBlockParticipationRecord :=
  t.upsert (p.qblockId, p.account) p fun old =>
    if old.kind ≠ p.kind ∨ old.budgetSeconds ≠ p.budgetSeconds ∨ old.blockNumber ≠ p.blockNumber
    then some p else none

/-- `write_participant`. -/
def writeParticipant (p : QBlockParticipationRecord) : StoreTx ℕ :=
  if p.budgetSeconds.any invalidBudget then .fail (.invalid "invalid participant budget")
  else .update fun s =>
    let t := putParticipant s.participation p
    (t.1, { s with participation := t.2 })

/-- The participant loop of `commit_block`: whether it wrote a row. -/
def writeParticipants : List QBlockParticipationRecord → StoreTx Bool
  | [] => return false
  | p :: ps => do
    let n ← writeParticipant p
    let changed ← writeParticipants ps
    return n > 0 || changed

/-- What the participant loop makes of the participation table. -/
def putParticipants (t : KeyedTable (ℕ × String) QBlockParticipationRecord)
    (ps : List QBlockParticipationRecord) :
    KeyedTable (ℕ × String) QBlockParticipationRecord :=
  ps.foldl (fun t p => (putParticipant t p).2) t

/-- **The participant loop changes only `qblock_participation`.** -/
theorem exec_writeParticipants {ps : List QBlockParticipationRecord} {s s' : Store}
    {changed : Bool} (h : (writeParticipants ps).exec s = .ok (changed, s')) :
    s' = { s with participation := putParticipants s.participation ps } ∧
      (changed = false → s' = s) ∧ ∀ p ∈ ps, p.budgetSeconds.any invalidBudget = false := by
  induction ps generalizing s changed with
  | nil =>
    cases h
    exact ⟨rfl, fun _ => rfl, by simp⟩
  | cons p ps ih =>
    unfold writeParticipants writeParticipant at h
    by_cases hb : p.budgetSeconds.any invalidBudget = true
    · rw [if_pos hb] at h
      cases h
    · rw [if_neg hb, Tx.exec_update_bind] at h
      obtain ⟨changed', s₁, h₁, h⟩ := Tx.exec_bind_ok.mp h
      cases h
      obtain ⟨rfl, hfalse, hbudget⟩ := ih h₁
      refine ⟨rfl, ?_, ?_⟩
      · intro hc
        simp only [Bool.or_eq_false_iff, decide_eq_false_iff_not, not_lt, Nat.le_zero] at hc
        have hp : (putParticipant s.participation p).2 = s.participation :=
          KeyedTable.upsert_zero hc.1
        rw [hfalse hc.2]
        simp only [hp]
      · intro q hq
        rcases List.mem_cons.mp hq with rfl | hq
        · simpa using hb
        · exact hbudget q hq

theorem putParticipant_ne {t : KeyedTable (ℕ × String) QBlockParticipationRecord}
    {p : QBlockParticipationRecord} {k : ℕ × String} (h : k ≠ (p.qblockId, p.account)) :
    (putParticipant t p).2.get? k = t.get? k :=
  KeyedTable.get?_upsert_ne h

/-- The row under a participant's key carries its declared columns. -/
theorem putParticipant_self (t : KeyedTable (ℕ × String) QBlockParticipationRecord)
    (p : QBlockParticipationRecord) :
    ∃ row, (putParticipant t p).2.get? (p.qblockId, p.account) = some row ∧ row.kind = p.kind ∧
      row.budgetSeconds = p.budgetSeconds ∧ row.blockNumber = p.blockNumber := by
  refine ⟨_, KeyedTable.get?_upsert_self t _ p _, ?_⟩
  cases t.get? (p.qblockId, p.account) with
  | none => exact ⟨rfl, rfl, rfl⟩
  | some old =>
    by_cases hc : old.kind ≠ p.kind ∨ old.budgetSeconds ≠ p.budgetSeconds ∨
        old.blockNumber ≠ p.blockNumber
    · simp [if_pos hc]
    · simp only [not_or, not_not] at hc
      simp [hc]

theorem putParticipants_of_not_mem
    {t : KeyedTable (ℕ × String) QBlockParticipationRecord}
    {ps : List QBlockParticipationRecord} {k : ℕ × String}
    (h : k ∉ ps.map fun p => (p.qblockId, p.account)) :
    (putParticipants t ps).get? k = t.get? k := by
  induction ps generalizing t with
  | nil => rfl
  | cons p ps ih =>
    rw [List.map_cons, List.mem_cons, not_or] at h
    rw [putParticipants, List.foldl_cons]
    exact (ih h.2).trans (putParticipant_ne h.1)

/-- A key that is stored stays stored. -/
theorem putParticipants_isSome {t : KeyedTable (ℕ × String) QBlockParticipationRecord}
    {ps : List QBlockParticipationRecord} {k : ℕ × String}
    (h : (t.get? k).isSome) : ((putParticipants t ps).get? k).isSome := by
  induction ps generalizing t with
  | nil => exact h
  | cons p ps ih =>
    refine ih (t := (putParticipant t p).2) ?_
    by_cases hk : k = (p.qblockId, p.account)
    · subst hk
      obtain ⟨row, hrow, -⟩ := putParticipant_self t p
      rw [hrow]
      rfl
    · rw [putParticipant_ne hk]
      exact h

/-- Every participant of the list has a row afterwards. -/
theorem putParticipants_mem {t : KeyedTable (ℕ × String) QBlockParticipationRecord}
    {ps : List QBlockParticipationRecord} {p : QBlockParticipationRecord} (h : p ∈ ps) :
    ((putParticipants t ps).get? (p.qblockId, p.account)).isSome := by
  induction ps generalizing t with
  | nil => cases h
  | cons q ps ih =>
    rcases List.mem_cons.mp h with rfl | h
    · refine putParticipants_isSome (t := (putParticipant t p).2) ?_
      obtain ⟨row, hrow, -⟩ := putParticipant_self t p
      rw [hrow]
      rfl
    · exact ih h

/-- A participant whose row says the same writes nothing. -/
theorem putParticipant_again {t : KeyedTable (ℕ × String) QBlockParticipationRecord}
    {p row : QBlockParticipationRecord} (hget : t.get? (p.qblockId, p.account) = some row)
    (hkind : row.kind = p.kind) (hbudget : row.budgetSeconds = p.budgetSeconds)
    (hblock : row.blockNumber = p.blockNumber) : putParticipant t p = (0, t) :=
  KeyedTable.upsert_of_update_none hget (by simp [hkind, hbudget, hblock])

/-- After the loop over distinct keys every participant's row says what it says. -/
theorem putParticipants_again {t : KeyedTable (ℕ × String) QBlockParticipationRecord}
    {ps : List QBlockParticipationRecord}
    (hnodup : (ps.map fun p => (p.qblockId, p.account)).Nodup) :
    ∀ p ∈ ps, putParticipant (putParticipants t ps) p = (0, putParticipants t ps) := by
  induction ps generalizing t with
  | nil => simp
  | cons q ps ih =>
    rw [List.map_cons, List.nodup_cons] at hnodup
    intro p hp
    rcases List.mem_cons.mp hp with rfl | hp
    · -- no later participant touches this key
      obtain ⟨row, hrow, hkind, hbudget, hblock⟩ := putParticipant_self t p
      exact putParticipant_again ((putParticipants_of_not_mem hnodup.1).trans hrow) hkind hbudget
        hblock
    · exact ih hnodup.2 p hp

theorem exec_writeParticipants_again {ps : List QBlockParticipationRecord} {s : Store}
    (hbudget : ∀ p ∈ ps, p.budgetSeconds.any invalidBudget = false)
    (hps : ∀ p ∈ ps, putParticipant s.participation p = (0, s.participation)) :
    (writeParticipants ps).exec s = .ok (false, s) := by
  induction ps with
  | nil => rfl
  | cons p ps ih =>
    have hb := hbudget p (List.mem_cons_self ..)
    have hp := hps p (List.mem_cons_self ..)
    unfold writeParticipants writeParticipant
    rw [if_neg (by simp [hb]), Tx.exec_update_bind]
    simp only [hp]
    refine Tx.exec_bind_ok.mpr ⟨false, s, ?_, rfl⟩
    exact ih (fun q hq => hbudget q (List.mem_cons_of_mem _ hq))
      fun q hq => hps q (List.mem_cons_of_mem _ hq)

end Dashboard

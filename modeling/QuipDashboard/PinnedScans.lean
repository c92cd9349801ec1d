/-
Scans that stay while their generation does.

A worker that chose a scan goes on with it while others call the store.  As long as the
domain is not reindexed, the scan keeps its identity; once it is finished, its winners
stay as they are listed, and what is covered stays covered.

* `Store.Kept` — what holds of every store that calls reach;
* `Effect.opened`, `Effect.during` — **what one call leaves of a chosen scan**, and
  `Reaches.opened`, `Reaches.during` for any number of calls;
* `commitRange_complete` — a range of a finished scan is not refused as incomplete when
  its listed winners are covered, or when the scan is of an older generation.
-/
import QuipDashboard.Identity
import QuipDashboard.Participation

namespace Dashboard

/-! ### Reachable stores -/

/-- What every store that the calls reach keeps: its network, readable coverages, the
stamps of its rows, and winners that are `u64` heights. -/
structure Store.Kept (genesis : BlockHash) (s : Store) : Prop where
  network : s.genesis = some genesis
  canonical : s.Canonical
  stamped : s.Stamped
  bounded : ∀ id n, n ∈ s.winnerHeights id → n ≤ u64Max

theorem Effect.bounded {now : Timestamp} {op : Op} {s s' : Store}
    {r : Except StoreError CommitResult} (h : Effect now op s r s')
    (hs : ∀ id n, n ∈ s.winnerHeights id → n ≤ u64Max) :
    ∀ id n, n ∈ s'.winnerHeights id → n ≤ u64Max := by
  intro id n hn
  rw [Store.mem_winnerHeights] at hn
  have hold : s.scanWinners.get? (id, n) = some () → n ≤ u64Max := fun h =>
    hs id n (Store.mem_winnerHeights.mpr h)
  cases h with
  | unchanged | began | targeted | floored | initialized | polled | cutOver | recomputed =>
    exact hold hn
  | appended _ h =>
    rcases (h.winners (id, n)).mp hn with hn | ⟨-, hn⟩
    · exact hold hn
    · exact (h.heights_le n hn).trans h.ceiling_le
  | committed h =>
    obtain ⟨-, -, -, -, -, -, -, hw⟩ := h.frame
    exact hold (hw ▸ hn)
  | ranged h =>
    rw [h.frame] at hn
    exact hold hn
  | marked _ h =>
    rw [h.final] at hn
    exact hold hn
  | reindexed h => exact hold (h.scanWinners _ hn)

theorem Effect.kept {now : Timestamp} {op : Op} {s s' : Store}
    {r : Except StoreError CommitResult} (h : Effect now op s r s') {genesis : BlockHash}
    (hs : s.Kept genesis) : s'.Kept genesis :=
  ⟨h.genesis.trans hs.network, h.canonical hs.canonical, h.stamped hs.stamped,
    h.bounded hs.bounded⟩

theorem Reaches.kept {genesis : BlockHash} {s s' : Store} (h : Reaches s s')
    (hs : s.Kept genesis) : s'.Kept genesis := by
  obtain ⟨cs, h⟩ := h
  exact h.invariant (I := Store.Kept genesis) hs fun hs hc => hc.effect.2.2.kept hs

/-- **Every reachable store is kept.** -/
theorem StoreRun.kept {pg : Bool} {genesis : BlockHash} {cs : List Call} {s : Store}
    (h : StoreRun pg genesis cs s) : s.Kept genesis := by
  refine Reaches.kept ⟨cs, h⟩ ⟨rfl, Store.bound_canonical pg genesis, ?_, ?_⟩
  · exact ⟨fun _ _ h => (by cases h), fun _ _ h => (by cases h), fun _ _ h => (by cases h)⟩
  · intro id n hn
    cases hn

/-- A domain is not reindexed: its covered heights stay covered. -/
theorem Effect.covered_mono {now : Timestamp} {op : Op} {s s' : Store}
    {r : Except StoreError CommitResult} (h : Effect now op s r s') {i : Indexable}
    (hgen : s'.generation i = s.generation i) : s.covered i ⊆ s'.covered i := by
  have hsame : s'.coverages.get? i = s.coverages.get? i → s.covered i ⊆ s'.covered i :=
    fun h => (Store.covered_congr h).ge
  cases h with
  | unchanged | began | targeted | polled | cutOver | recomputed => exact hsame rfl
  | appended _ h => exact hsame (by rw [h.final])
  | @committed b _ _ _ h =>
    by_cases hi : i ∈ b.completed
    · rw [h.covered_eq i hi]
      exact Set.subset_union_left
    · exact hsame (h.coverage_eq i hi)
  | @ranged range _ _ h =>
    by_cases hi : i = range.indexable
    · subst hi
      rw [h.covered]
      exact Set.subset_union_left
    · exact hsame (h.coverage_eq i hi)
  | marked _ h => exact hsame (by rw [h.final])
  | @floored guard floor cov _ hcur hcov =>
    rw [Store.covered_saveCoverage, Coverage.heights_with, (Store.coverage_ok hcov).2.2]
    split
    · rename_i hi
      rw [hi]
    · rfl
  | @initialized j expected start _ _ hnone =>
    rw [Store.covered_saveCoverage]
    split
    · rename_i hi
      rintro n ⟨cov, hcov, -⟩
      rw [hi, hnone] at hcov
      cases hcov
    · rfl
  | @reindexed is _ _ h =>
    refine hsame (h.coverage_eq i fun hi => ?_)
    have := h.generation i
    rw [if_pos hi] at this
    omega

/-! ### A chosen scan -/

/-- The scan is stored as it was chosen, unless its generation is gone. -/
structure Scan.Opened (scan : Scan) (s : Store) : Prop where
  later : scan.expectedGeneration ≤ s.generation scan.indexable
  stored : s.generation scan.indexable = scan.expectedGeneration →
    ∃ row, s.scans.get? scan.id = some row ∧ row.isFor scan = true

theorem ScanRow.isFor_domain {row : ScanRow} {scan : Scan} (h : row.isFor scan = true) :
    row.genesis = scan.genesis ∧ row.generation = scan.expectedGeneration ∧
      row.domain = scan.indexable ∧ row.finalizedHeight = scan.finalizedHeight := by
  simp only [ScanRow.isFor, Bool.and_eq_true, decide_eq_true_eq] at h
  obtain ⟨⟨⟨⟨-, hg⟩, hgen⟩, hd⟩, hf⟩ := h
  exact ⟨BlockHash.eq_of_text hg, hgen, hd, hf⟩

/-- **A call keeps the identity of a scan**, unless it reindexes its domain. -/
theorem Effect.opened {now : Timestamp} {op : Op} {s s' : Store}
    {r : Except StoreError CommitResult} (h : Effect now op s r s') {scan : Scan}
    (hs : scan.Opened s) : scan.Opened s' := by
  rcases h.generation scan.indexable with ⟨-, hgen⟩ | ⟨hno, hgen⟩
  · have := hs.later
    exact ⟨by omega, fun heq => by omega⟩
  refine ⟨hgen ▸ hs.later, fun heq => ?_⟩
  obtain ⟨row, hrow, hfor⟩ := hs.stored (hgen ▸ heq)
  cases h with
  | unchanged | targeted | floored | initialized | polled | cutOver | recomputed =>
    exact ⟨row, hrow, hfor⟩
  | @began scan' _ _ _ hfresh =>
    refine ⟨row, ?_, hfor⟩
    rw [KeyedTable.get?_put_ne, hrow]
    intro hid
    rw [← hid, hrow] at hfresh
    cases hfresh
  | @appended id _ next _ row' _ _ _ h =>
    rw [h.final]
    by_cases hid : scan.id = id
    · have hget := h.get
      rw [← hid, hrow] at hget
      cases hget
      refine ⟨row.advance next, ?_, hfor⟩
      rw [hid]
      exact KeyedTable.get?_put_self _ _ _
    · exact ⟨row, (KeyedTable.get?_put_ne hid).trans hrow, hfor⟩
  | committed h =>
    obtain ⟨-, -, -, -, -, -, hsc, -⟩ := h.frame
    exact ⟨row, by rw [hsc, hrow], hfor⟩
  | ranged h =>
    rw [h.frame]
    exact ⟨row, hrow, hfor⟩
  | marked _ h =>
    rw [h.final]
    exact ⟨row, hrow, hfor⟩
  | @reindexed is _ _ h =>
    refine ⟨row, (h.scans _ _).mpr ⟨hrow, ?_⟩, hfor⟩
    rw [(ScanRow.isFor_domain hfor).2.2.1, mem_reindexed]
    exact fun hi => hno ⟨is, rfl, hi, rfl⟩

theorem Reaches.opened {scan : Scan} {s s' : Store} (h : Reaches s s') (hs : scan.Opened s) :
    scan.Opened s' := by
  obtain ⟨cs, h⟩ := h
  exact h.invariant (I := scan.Opened) hs fun hs hc => hc.effect.2.2.opened hs

/-- A store that finished a scan, and a later one of the same generation. -/
structure Scan.Stays (scan : Scan) (s s' : Store) : Prop where
  current : s.generation scan.indexable = scan.expectedGeneration
  row : s'.scans.get? scan.id = s.scans.get? scan.id
  winners : ∀ n, n ∈ s'.winnerHeights scan.id ↔ n ∈ s.winnerHeights scan.id
  covered : s.covered scan.indexable ⊆ s'.covered scan.indexable

/-- The scan is exhausted, unless its generation is gone. -/
structure Scan.Finished (scan : Scan) (s : Store) : Prop extends scan.Opened s where
  finished : s.generation scan.indexable = scan.expectedGeneration →
    ∀ row, s.scans.get? scan.id = some row → row.finished = true

/-- **A call leaves a finished scan as it is**, unless it reindexes its domain. -/
theorem Effect.during {now : Timestamp} {op : Op} {s s' : Store}
    {r : Except StoreError CommitResult} (h : Effect now op s r s') {scan : Scan}
    (hs : scan.Finished s) (hgen : s'.generation scan.indexable = scan.expectedGeneration) :
    scan.Stays s s' := by
  have hcur : s.generation scan.indexable = scan.expectedGeneration := by
    have := hs.later
    rcases h.generation scan.indexable with ⟨-, h⟩ | ⟨-, h⟩ <;> omega
  have hcov := h.covered_mono (hgen.trans hcur.symm)
  obtain ⟨row, hrow, hfor⟩ := hs.stored hcur
  have hfin := hs.finished hcur row hrow
  cases h with
  | unchanged | targeted | floored | initialized | polled | cutOver | recomputed =>
    exact ⟨hcur, rfl, fun _ => Iff.rfl, hcov⟩
  | @began scan' _ _ _ hfresh =>
    refine ⟨hcur, KeyedTable.get?_put_ne fun hid => ?_, fun _ => Iff.rfl, hcov⟩
    rw [← hid, hrow] at hfresh
    cases hfresh
  | @appended id _ next _ row' _ _ _ h =>
    -- a finished scan takes no page
    have hid : scan.id ≠ id := by
      intro hid
      have hget := h.get
      rw [← hid, hrow] at hget
      cases hget
      exact Bool.noConfusion (hfin.symm.trans h.unfinished)
    refine ⟨hcur, ?_, fun n => ?_, hcov⟩
    · rw [h.final]
      exact KeyedTable.get?_put_ne hid
    · rw [Store.mem_winnerHeights, Store.mem_winnerHeights, h.winners]
      exact or_iff_left fun hn => hid hn.1
  | committed h =>
    obtain ⟨-, -, -, -, -, -, hsc, hw⟩ := h.frame
    refine ⟨hcur, by rw [hsc], fun n => ?_, hcov⟩
    rw [Store.mem_winnerHeights, Store.mem_winnerHeights, hw]
  | ranged h =>
    refine ⟨hcur, by rw [h.frame], fun n => ?_, hcov⟩
    rw [h.frame]
    rfl
  | marked _ h =>
    refine ⟨hcur, by rw [h.final], fun n => ?_, hcov⟩
    rw [h.final]
    rfl
  | @reindexed is _ _ h =>
    have hi : row.domain ∉ Indexable.all.filter (· ∈ is) := by
      rw [(ScanRow.isFor_domain hfor).2.2.1]
      intro hi
      have := h.generation scan.indexable
      rw [if_pos hi] at this
      omega
    refine ⟨hcur, ?_, fun n => ?_, hcov⟩
    · rw [hrow]
      exact (h.scans _ _).mpr ⟨hrow, hi⟩
    · rw [Store.mem_winnerHeights, Store.mem_winnerHeights, h.scanWinners_eq _ _ hrow hi]

/-- **While its generation stays, a finished scan stays.** -/
theorem Reaches.during {scan : Scan} {s s' : Store} (h : Reaches s s') (hs : scan.Finished s) :
    scan.Finished s' ∧
      (s'.generation scan.indexable = scan.expectedGeneration → scan.Stays s s') := by
  obtain ⟨cs, h⟩ := h
  refine h.invariant (I := fun s' => scan.Finished s' ∧
    (s'.generation scan.indexable = scan.expectedGeneration → scan.Stays s s')) ?_ ?_
  · exact ⟨hs, fun hgen => ⟨hgen, rfl, fun _ => Iff.rfl, subset_rfl⟩⟩
  · rintro s₁ c s₂ ⟨hs₁, hstays⟩ hc
    have heff := hc.effect.2.2
    have hstep := heff.during hs₁
    refine ⟨⟨heff.opened hs₁.toOpened, fun hgen row hrow => ?_⟩, fun hgen => ?_⟩
    · obtain ⟨hcur, hsame, -, -⟩ := hstep hgen
      exact hs₁.finished hcur row (hsame ▸ hrow)
    · obtain ⟨hcur, hrow, hwin, hcov⟩ := hstep hgen
      obtain ⟨hcur', hrow', hwin', hcov'⟩ := hstays hcur
      exact ⟨hcur', hrow.trans hrow', fun n => (hwin n).trans (hwin' n), hcov'.trans hcov⟩

/-! ### Opening it -/

/-- **A scan that was begun is stored.** -/
theorem beginScan_opened {scan : Scan} {s s' : Store} {r : CommitResult}
    (h : beginScan scan s = (.ok r, s')) (hr : r ≠ .staleGeneration) :
    s'.genesis = some scan.genesis ∧ scan.Opened s' := by
  rcases Tx.request_cases h with ⟨-, e, he⟩ | ⟨rfl, u, a, t, -, hx, ha⟩ | ⟨u, a, -, hx, ha⟩
  · cases he
  · obtain rfl := Except.ok.inj ha
    obtain ⟨hnet, ⟨hf, -⟩ | ⟨hgen, ⟨-, row, hrow, hfor⟩ | ⟨hf, -⟩⟩⟩ := beginScanBody_cases hx
    · cases hf
      exact absurd rfl hr
    · exact ⟨hnet, hgen.ge, fun _ => ⟨row, hrow, hfor⟩⟩
    · cases hf
  · obtain rfl := Except.ok.inj ha
    obtain ⟨hnet, ⟨hf, -⟩ | ⟨hgen, ⟨hf, -⟩ | ⟨-, -, rfl⟩⟩⟩ := beginScanBody_cases hx
    · cases hf
    · cases hf
    · refine ⟨hnet, hgen.ge, fun _ => ⟨scan.row, KeyedTable.get?_put_self _ _ _, ?_⟩⟩
      simp [ScanRow.isFor, Scan.row]

/-! ### Completing a range of it -/

theorem height_error {n : ℕ} {e : StoreError} (h : height n = .error e) :
    e ≠ .incompleteScan := by
  unfold height at h
  split at h
  · cases h
  · cases h
    exact nofun

/-- The bounds of a range are refused as invalid. -/
theorem rangeCheck_error {r : RangeCompletion} {e : StoreError} (h : r.check = .error e) :
    e ≠ .incompleteScan := by
  unfold RangeCompletion.check at h
  cases hf : height r.from_ with
  | error e' =>
    simp only [hf, bind, Except.bind, Except.error.injEq] at h
    exact h ▸ height_error hf
  | ok low =>
    cases ht : height r.through with
    | error e' =>
      simp only [hf, ht, bind, Except.bind, Except.error.injEq] at h
      exact h ▸ height_error ht
    | ok high =>
      simp only [hf, ht, bind, Except.bind] at h
      split at h
      · cases h
        exact nofun
      · cases h

theorem network_error {genesis : BlockHash} {s : Store} {e : StoreError}
    (h : s.network genesis = .error e) : e = .networkIdentity := by
  unfold Store.network Store.requireBound at h
  split at h
  · split at h
    · exact (Except.error.inj h).symm
    · cases h
  · rename_i he
    split at he
    · cases he
    · cases he
      exact (Except.error.inj h).symm

theorem cover_invalid {c : Coverage} {now : Timestamp} {a b : ℕ} {e : StoreError}
    (h : c.cover now a b = .error e) : e ≠ .incompleteScan := by
  unfold Coverage.cover at h
  split at h
  · cases h
    exact nofun
  · split at h
    · cases h
    · split at h <;> cases h

/-- **A range of a finished scan is not incomplete** when the winners that it lists there
are covered; a range of an older generation is stale. -/
theorem commitRange_complete {genesis : BlockHash} {s : Store} (hs : s.Kept genesis)
    {scan : Scan} (hscan : scan.Finished s) (hmax : scan.finalizedHeight ≤ u64Max)
    {low high : ℕ} (hhigh : high ≤ scan.finalizedHeight)
    (hwin : s.generation scan.indexable = scan.expectedGeneration →
      ∀ n ∈ s.winnerHeights scan.id, low ≤ n → n ≤ high → n ∈ s.covered scan.indexable)
    (now : Timestamp) :
    (commitRange now ⟨scan.genesis, scan.indexable, scan.expectedGeneration, low, high, scan.id⟩
      s).1 ≠ .error .incompleteScan := by
  intro h
  unfold commitRange Tx.request at h
  split at h
  swap
  · rename_i e he
    cases h
    exact rangeCheck_error he rfl
  rename_i p hp
  obtain ⟨rfl, -, -⟩ := rangeCheck_ok hp
  rw [write_eq_error] at h
  -- the checks of the body one after another: none of their errors is an incomplete scan
  unfold commitRangeBody at h
  rw [Tx.exec_bind, Tx.exec_readM] at h
  cases hnet : s.network scan.genesis with
  | error e =>
    rw [hnet, network_error hnet] at h
    cases h
  | ok u =>
  rw [hnet] at h
  change Tx.exec _ s = _ at h
  rw [Tx.exec_read_bind] at h
  cases hstale : Store.staleGeneration scan.indexable scan.expectedGeneration s with
  | true =>
    rw [hstale, if_pos rfl] at h
    cases h
  | false =>
  have hgen := Store.staleGeneration_eq_false.mp hstale
  obtain ⟨row, hrow, hfor⟩ := hscan.stored hgen
  have hfin := hscan.finished hgen row hrow
  obtain ⟨hg, hrg, hd, hfh⟩ := ScanRow.isFor_domain hfor
  have hproves : row.proves ⟨scan.genesis, scan.indexable, scan.expectedGeneration, low, high,
      scan.id⟩ high = true := by
    simp [ScanRow.proves, hg, hrg, hd, hfh, hmax, hhigh]
  rw [hstale, if_neg Bool.false_ne_true, Tx.exec_read_bind, hrow, Option.filter_some,
    if_pos hfin] at h
  simp only [hproves, Bool.not_true, Bool.false_eq_true, if_false] at h
  split at h
  · cases h
  obtain ⟨cov, hcov, -⟩ := hs.canonical.coverage scan.indexable 0
  -- the only check that says so is that of the winners
  have hall : checkWinners cov low high (s.winnerHeights scan.id) = .ok () := by
    refine checkWinners_ok.mpr fun n hn => ⟨hs.bounded _ n hn, fun h₁ h₂ => ?_⟩
    rw [(Store.coverage_ok hcov).2.2]
    exact hwin hgen n hn h₁ h₂
  rw [Tx.exec_bind, Tx.exec_readM, hcov] at h
  change Tx.exec _ s = _ at h
  rw [Tx.exec_bind, Tx.exec_readM, hall] at h
  change Tx.exec _ s = _ at h
  rw [Tx.exec_bind, Tx.exec_ofExcept] at h
  cases hc : cov.cover now low high with
  | error e =>
    rw [hc] at h
    cases h
    exact cover_invalid hc rfl
  | ok q =>
    obtain ⟨changed, cov'⟩ := q
    rw [hc] at h
    cases changed with
    | true => cases h
    | false => cases h

end Dashboard

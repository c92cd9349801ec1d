/-
Pinned winner enumerations and the ranges they complete.

The model of `begin_scan`, `append_scan_page`, `commit_range`, `active_scan` and
`scan_winners` in `dashboard-store/src/coverage.rs`.  As for a commit, each
operation has one lemma that says all it can do:

* `beginScan_cases` — a new unfinished scan row under a fresh identifier;
* `appendScanPage_cases` — `Appends`: an unfinished scan of the current
  generation gains winners and a cursor, or is finished;
* `commitRange_cases` — `RangeCommits`: **a range is completed only by a finished
  scan that reaches its end, once every listed winner in it is covered**.
-/
import QuipDashboard.Store
import QuipDashboard.Paging

namespace Dashboard

/-- The winner heights that a scan lists, in the order of the table. -/
def Store.winnerHeights (s : Store) (id : ScanId) : List ℕ :=
  (s.scanWinners.rows.filter fun e => e.1.1 = id).map fun e => e.1.2

theorem Store.mem_winnerHeights {s : Store} {id : ScanId} {n : ℕ} :
    n ∈ s.winnerHeights id ↔ s.scanWinners.get? (id, n) = some () := by
  rw [KeyedTable.get?_eq_some, winnerHeights, List.mem_map]
  constructor
  · rintro ⟨⟨⟨id', m⟩, u⟩, he, rfl⟩
    obtain ⟨he, hid⟩ := List.mem_filter.mp he
    simp only [decide_eq_true_eq] at hid
    exact hid ▸ he
  · intro h
    exact ⟨((id, n), ()), List.mem_filter.mpr ⟨h, by simp⟩, rfl⟩

/-! ### Opening a scan -/

/-- The stored scan is the scan that is asked for, state identity included. -/
def ScanRow.isFor (row : ScanRow) (scan : Scan) : Bool :=
  row.atHash.text = scan.at_.text && row.genesis.text = scan.genesis.text
    && row.generation = scan.expectedGeneration && row.domain = scan.indexable
    && row.finalizedHeight = scan.finalizedHeight

/-- The row of a scan that was just opened. -/
def Scan.row (scan : Scan) : ScanRow :=
  ⟨scan.genesis, scan.at_, scan.finalizedHeight, scan.indexable, scan.expectedGeneration, none, false⟩

/-- The transaction of `begin_scan`. -/
def beginScanBody (scan : Scan) : StoreTx (Finish CommitResult) := do
  Tx.readM (·.network scan.genesis)
  if ← Tx.read (Store.staleGeneration scan.indexable scan.expectedGeneration) then
    return .abandon .staleGeneration
  else
    match ← Tx.read (·.scans.get? scan.id) with
    | some old =>
      if !old.isFor scan then Tx.fail (.invalid "scan cursor reused for different state")
      else return .abandon .alreadyApplied
    | none =>
      Tx.update fun s => ((), { s with scans := s.scans.put scan.id scan.row })
      return .commit .applied

/-- The checks of `begin_scan` that need no database. -/
def Scan.check (scan : Scan) : Except StoreError Unit :=
  if scan.id = "" then .error (.invalid "empty scan identifier") else .ok ()

/-- `begin_scan`. -/
def beginScan (scan : Scan) : Store → Except StoreError CommitResult × Store :=
  Tx.request scan.check fun () => beginScanBody scan

theorem beginScanBody_cases {scan : Scan} {s s' : Store} {f : Finish CommitResult}
    (h : (beginScanBody scan).exec s = .ok (f, s')) :
    s.genesis = some scan.genesis ∧
    ((f = .abandon .staleGeneration ∧ s.generation scan.indexable ≠ scan.expectedGeneration) ∨
     (s.generation scan.indexable = scan.expectedGeneration ∧
      ((f = .abandon .alreadyApplied ∧ ∃ old, s.scans.get? scan.id = some old ∧ old.isFor scan) ∨
       (f = .commit .applied ∧ s.scans.get? scan.id = none ∧
        s' = { s with scans := s.scans.put scan.id scan.row })))) := by
  unfold beginScanBody at h
  obtain ⟨u, hnet, h⟩ := Tx.exec_readM_bind_ok.mp h
  refine ⟨Store.network_ok.mp hnet, ?_⟩
  rw [Tx.exec_read_bind] at h
  cases hstale : Store.staleGeneration scan.indexable scan.expectedGeneration s with
  | false =>
    right
    refine ⟨Store.staleGeneration_eq_false.mp hstale, ?_⟩
    rw [hstale, if_neg Bool.false_ne_true, Tx.exec_read_bind] at h
    cases hget : s.scans.get? scan.id with
    | none =>
      simp only [hget] at h
      cases h
      exact .inr ⟨rfl, rfl, rfl⟩
    | some old =>
      simp only [hget] at h
      cases hfor : old.isFor scan with
      | false =>
        simp only [hfor, Bool.not_false, if_true] at h
        cases h
      | true =>
        simp only [hfor, Bool.not_true, Bool.false_eq_true, if_false] at h
        cases h
        exact .inl ⟨rfl, old, rfl, hfor⟩
  | true =>
    left
    rw [hstale, if_pos rfl] at h
    cases h
    exact ⟨rfl, Store.staleGeneration_eq_true.mp hstale⟩

/-- **`begin_scan` stores one unfinished scan of the current generation, under an
identifier that no scan has.** -/
theorem beginScan_cases {scan : Scan} {s s' : Store} {r : Except StoreError CommitResult}
    (h : beginScan scan s = (r, s')) :
    (s' = s ∧ r ≠ .ok .applied) ∨
    (r = .ok .applied ∧ s.genesis = some scan.genesis ∧
      s.generation scan.indexable = scan.expectedGeneration ∧ s.scans.get? scan.id = none ∧
      s' = { s with scans := s.scans.put scan.id scan.row }) := by
  rcases Tx.request_cases h with ⟨rfl, e, rfl⟩ | ⟨rfl, u, a, t, -, hx, rfl⟩ | ⟨u, a, -, hx, rfl⟩
  · exact .inl ⟨rfl, by simp⟩
  · obtain ⟨-, ⟨hf, -⟩ | ⟨-, ⟨hf, -⟩ | ⟨hf, -⟩⟩⟩ := beginScanBody_cases hx
    · exact .inl ⟨rfl, by cases hf; simp⟩
    · exact .inl ⟨rfl, by cases hf; simp⟩
    · cases hf
  · obtain ⟨hnet, ⟨hf, -⟩ | ⟨hgen, ⟨hf, -⟩ | ⟨hf, hnone, hs⟩⟩⟩ := beginScanBody_cases hx
    · cases hf
    · cases hf
    · cases hf
      exact .inr ⟨rfl, hnet, hgen, hnone, hs⟩

/-! ### Appending a page -/

/-- The row loop of `append_scan_page`. -/
def appendWinners (id : ScanId) (ceiling : ℕ) : List ℕ → StoreTx Unit
  | [] => return
  | n :: heights => do
    let n ← Tx.ofExcept (height n)
    if n > ceiling then Tx.fail (.invalid "winner above pinned finalized state")
    else
      Tx.update fun s => ((), { s with scanWinners := s.scanWinners.insertNew (id, n) () })
      appendWinners id ceiling heights

/-- The row after a page: no next cursor means that the enumeration is exhausted. -/
def ScanRow.advance (row : ScanRow) (nextCursor : Option (List UInt8)) : ScanRow :=
  { row with cursor := nextCursor, finished := nextCursor.isNone || row.finished }

/-- The transaction of `append_scan_page`. -/
def appendScanPageBody (id : ScanId) (expectedCursor nextCursor : Option (List UInt8))
    (heights : List ℕ) : StoreTx (Finish CommitResult) := do
  let bound ← Tx.readM (·.requireBound)
  match ← Tx.read (·.scans.get? id) with
  | none => Tx.fail .incompleteScan
  | some row =>
    if row.genesis.text ≠ bound.text then Tx.fail .networkIdentity
    else if ← Tx.read (Store.staleGeneration row.domain row.generation) then
      return .abandon .staleGeneration
    else if row.finished ∨ row.cursor ≠ expectedCursor then Tx.fail .incompleteScan
    else if row.finalizedHeight > u64Max then Tx.fail .incompleteScan
    else
      appendWinners id row.finalizedHeight heights
      Tx.update fun s => ((), { s with scans := s.scans.put id (row.advance nextCursor) })
      return .commit .applied

/-- The checks of `append_scan_page` that need no database. -/
def checkPage (expectedCursor nextCursor : Option (List UInt8)) (heights : List ℕ) :
    Except StoreError Unit :=
  if heights.length > 1000 ∨ nextCursor.isSome ∧ nextCursor = expectedCursor then
    .error (.invalid "oversize or non-advancing scan page") else .ok ()

/-- `append_scan_page`. -/
def appendScanPage (id : ScanId) (expectedCursor nextCursor : Option (List UInt8))
    (heights : List ℕ) : Store → Except StoreError CommitResult × Store :=
  Tx.request (checkPage expectedCursor nextCursor heights)
    fun () => appendScanPageBody id expectedCursor nextCursor heights

theorem exec_appendWinners {id : ScanId} {ceiling : ℕ} {heights : List ℕ}
    {s s' : Store} {u : Unit} (h : (appendWinners id ceiling heights).exec s = .ok (u, s')) :
    (∀ n ∈ heights, n ≤ ceiling) ∧ ∃ scanWinners, s' = { s with scanWinners } ∧
      ∀ k, scanWinners.get? k = some () ↔
        s.scanWinners.get? k = some () ∨ k.1 = id ∧ k.2 ∈ heights := by
  induction heights generalizing s with
  | nil =>
    cases h
    exact ⟨by simp, _, rfl, by simp⟩
  | cons n heights ih =>
    unfold appendWinners at h
    obtain ⟨m, hm, h₁⟩ := Tx.exec_ofExcept_bind_ok.mp h
    obtain ⟨rfl, -⟩ := height_ok hm
    split at h₁
    · cases h₁
    rename_i hle
    rw [Tx.exec_update_bind] at h₁
    obtain ⟨hall, scanWinners, rfl, hget⟩ := ih h₁
    refine ⟨?_, scanWinners, rfl, fun k => ?_⟩
    · intro k hk
      rcases List.mem_cons.mp hk with rfl | hk
      · omega
      · exact hall k hk
    · rw [hget k, KeyedTable.get?_insertNew]
      obtain ⟨id', k⟩ := k
      by_cases hk : (id', k) = (id, m)
      · cases hk
        simp
      · rw [if_neg hk, List.mem_cons]
        have : ¬(id' = id ∧ k = m) := fun h => hk (by rw [h.1, h.2])
        constructor
        · rintro (h | ⟨h₁, h₂⟩)
          · exact .inl h
          · exact .inr ⟨h₁, .inr h₂⟩
        · rintro (h | ⟨h₁, h₂ | h₂⟩)
          · exact .inl h
          · exact absurd ⟨h₁, h₂⟩ this
          · exact .inr ⟨h₁, h₂⟩

/-- What an appended page found, and what it left behind. -/
structure Appends (id : ScanId) (nextCursor : Option (List UInt8)) (heights : List ℕ)
    (row : ScanRow) (s s' : Store) : Prop where
  get : s.scans.get? id = some row
  network : s.genesis = some row.genesis
  current : s.generation row.domain = row.generation
  unfinished : row.finished = false
  heights_le : ∀ n ∈ heights, n ≤ row.finalizedHeight
  ceiling_le : row.finalizedHeight ≤ u64Max
  winners : ∀ k, s'.scanWinners.get? k = some () ↔
    s.scanWinners.get? k = some () ∨ k.1 = id ∧ k.2 ∈ heights
  final : s' = { s with
    scanWinners := s'.scanWinners, scans := s.scans.put id (row.advance nextCursor) }

theorem appendScanPageBody_cases {id : ScanId} {expectedCursor nextCursor : Option (List UInt8)}
    {heights : List ℕ} {s s' : Store} {f : Finish CommitResult}
    (h : (appendScanPageBody id expectedCursor nextCursor heights).exec s = .ok (f, s')) :
    ∃ row, s.scans.get? id = some row ∧ s.genesis = some row.genesis ∧
      ((f = .abandon .staleGeneration ∧ s.generation row.domain ≠ row.generation) ∨
       (f = .commit .applied ∧ row.cursor = expectedCursor ∧
        Appends id nextCursor heights row s s')) := by
  unfold appendScanPageBody at h
  obtain ⟨bound, hbound, h⟩ := Tx.exec_readM_bind_ok.mp h
  rw [Tx.exec_read_bind] at h
  cases hget : s.scans.get? id with
  | none =>
    simp only [hget] at h
    cases h
  | some row =>
    simp only [hget] at h
    by_cases htext : row.genesis.text = bound.text
    swap
    · rw [if_pos htext] at h
      cases h
    rw [if_neg (not_not.mpr htext), Tx.exec_read_bind] at h
    have hnet : s.genesis = some row.genesis := by
      unfold Store.requireBound at hbound
      split at hbound
      · rename_i g hg
        cases hbound
        rw [hg, BlockHash.eq_of_text htext]
      · cases hbound
    refine ⟨row, rfl, hnet, ?_⟩
    -- a stale page is abandoned, a current one passes its checks or fails
    cases hstale : Store.staleGeneration row.domain row.generation s with
    | false =>
      right
      rw [hstale, if_neg Bool.false_ne_true] at h
      split at h
      · cases h
      rename_i hopen
      simp only [not_or, not_not, Bool.not_eq_true] at hopen
      split at h
      · cases h
      rename_i hceil
      obtain ⟨u, s₁, h₁, h⟩ := Tx.exec_bind_ok.mp h
      obtain ⟨hle, winners, rfl, hwin⟩ := exec_appendWinners h₁
      rw [Tx.exec_update_bind] at h
      cases h
      refine ⟨rfl, hopen.2, ?_⟩
      exact ⟨hget, hnet, Store.staleGeneration_eq_false.mp hstale, hopen.1, hle, by omega, hwin, rfl⟩
    | true =>
      left
      rw [hstale, if_pos rfl] at h
      cases h
      exact ⟨rfl, Store.staleGeneration_eq_true.mp hstale⟩

/-- **`append_scan_page` extends one unfinished scan of the current generation.** -/
theorem appendScanPage_cases {id : ScanId} {expectedCursor nextCursor : Option (List UInt8)}
    {heights : List ℕ} {s s' : Store} {r : Except StoreError CommitResult}
    (h : appendScanPage id expectedCursor nextCursor heights s = (r, s')) :
    (s' = s ∧ r ≠ .ok .applied) ∨
    (r = .ok .applied ∧ ∃ row, row.cursor = expectedCursor ∧
      Appends id nextCursor heights row s s') := by
  rcases Tx.request_cases h with ⟨rfl, e, rfl⟩ | ⟨rfl, u, a, t, -, hx, rfl⟩ | ⟨u, a, -, hx, rfl⟩
  · exact .inl ⟨rfl, by simp⟩
  · obtain ⟨row, -, -, ⟨hf, -⟩ | ⟨hf, -⟩⟩ := appendScanPageBody_cases hx
    · exact .inl ⟨rfl, by cases hf; simp⟩
    · cases hf
  · obtain ⟨row, -, -, ⟨hf, -⟩ | ⟨hf, hcursor, happ⟩⟩ := appendScanPageBody_cases hx
    · cases hf
    · cases hf
      exact .inr ⟨rfl, row, hcursor, happ⟩

/-! ### Completing a range -/

/-- The checks of `commit_range` that need no database: its bounds as `u64`. -/
def RangeCompletion.check (r : RangeCompletion) : Except StoreError (ℕ × ℕ) := do
  let low ← height r.from_
  let high ← height r.through
  if low > high then .error (.invalid "reversed range") else .ok (low, high)

/-- The scan that a range cites is for its network, domain and generation, and
reaches its end. -/
def ScanRow.proves (row : ScanRow) (r : RangeCompletion) (through : ℕ) : Bool :=
  row.genesis.text = r.genesis.text && row.domain = r.indexable
    && row.generation = r.expectedGeneration && row.finalizedHeight ≤ u64Max
    && through ≤ row.finalizedHeight

/-- One listed winner of the page loop: inside the range it has to be covered. -/
def checkWinner (cov : Coverage) (low high : ℕ) (n : ℕ) : Except StoreError Unit :=
  if n > u64Max then .error .incompleteScan
  else if low ≤ n ∧ n ≤ high ∧ !cov.contains n n then .error .incompleteScan
  else .ok ()

/-- The page loop of `commit_range`, over the listed winners in decimal order. -/
def checkWinners (cov : Coverage) (low high : ℕ) (heights : List ℕ) : Except StoreError Unit :=
  Paging.forPages 512 (checkWinner cov low high) (heights.insertionSort (· ≤ ·))
    (heights.length + 1) 0

/-- The transaction of `commit_range`. -/
def commitRangeBody (now : Timestamp) (r : RangeCompletion) (low high : ℕ) :
    StoreTx (Finish CommitResult) := do
  Tx.readM (·.network r.genesis)
  if ← Tx.read (Store.staleGeneration r.indexable r.expectedGeneration) then
    return .abandon .staleGeneration
  else
    match ← Tx.read (fun s => (s.scans.get? r.scanId).filter (·.finished)) with
    | none => Tx.fail .incompleteScan
    | some row =>
      if !row.proves r high then Tx.fail .incompleteScan
      else if r.indexable = .authorship then
        -- only winner-based domains infer completion from an enumeration
        Tx.fail (.invalid "authorship requires per-block evidence")
      else
        let cov ← Tx.readM (·.coverage r.indexable 0)
        Tx.readM fun s => checkWinners cov low high (s.winnerHeights r.scanId)
        let (changed, cov) ← Tx.ofExcept (cov.cover now low high)
        if changed then Tx.update fun s => (.commit .applied, s.saveCoverage r.indexable cov)
        else return .commit .alreadyApplied

/-- `commit_range`. -/
def commitRange (now : Timestamp) (r : RangeCompletion) :
    Store → Except StoreError CommitResult × Store :=
  Tx.request r.check fun p => commitRangeBody now r p.1 p.2

/-- **The page loop checks every listed winner.** -/
theorem checkWinners_ok {cov : Coverage} {low high : ℕ} {heights : List ℕ} :
    checkWinners cov low high heights = .ok () ↔
      ∀ n ∈ heights, n ≤ u64Max ∧ (low ≤ n → n ≤ high → n ∈ cov.heights) := by
  unfold checkWinners
  rw [Paging.forPages_ok (by omega) (by rw [List.length_insertionSort]; omega), List.drop_zero]
  simp only [List.mem_insertionSort]
  refine forall₂_congr fun n _ => ?_
  unfold checkWinner
  split
  · rename_i h
    simp only [reduceCtorEq, false_iff, not_and]
    omega
  · rename_i h
    have hle : n ≤ u64Max := by omega
    simp only [hle, true_and, Coverage.heights, Set.mem_ofPred_eq]
    cases cov.contains n n <;> simp

/-- What a completed range found, and what it left behind. -/
structure RangeCommits (r : RangeCompletion) (s s' : Store) : Prop where
  from_le : r.from_ ≤ r.through
  through_le : r.through ≤ u64Max
  network : s.genesis = some r.genesis
  current : s.generation r.indexable = r.expectedGeneration
  scan : ∃ row, s.scans.get? r.scanId = some row ∧ row.finished = true ∧
    row.genesis = r.genesis ∧ row.domain = r.indexable ∧ row.generation = r.expectedGeneration ∧
    r.through ≤ row.finalizedHeight
  winnerBased : r.indexable ≠ .authorship
  winners : ∀ n ∈ s.winnerHeights r.scanId, r.from_ ≤ n → n ≤ r.through → n ∈ s.covered r.indexable
  covered : s'.covered r.indexable = s.covered r.indexable ∪ Set.Icc r.from_ r.through
  coverage_eq : ∀ i, i ≠ r.indexable → s'.coverages.get? i = s.coverages.get? i
  frame : s' = { s with coverages := s'.coverages }
  canonical : s.Canonical → s'.Canonical

theorem rangeCheck_ok {r : RangeCompletion} {p : ℕ × ℕ} (h : r.check = .ok p) :
    p = (r.from_, r.through) ∧ r.from_ ≤ r.through ∧ r.through ≤ u64Max := by
  unfold RangeCompletion.check at h
  cases hf : height r.from_ with
  | error e => simp [hf, bind, Except.bind] at h
  | ok low =>
    cases ht : height r.through with
    | error e => simp [hf, ht, bind, Except.bind] at h
    | ok high =>
      obtain ⟨rfl, -⟩ := height_ok hf
      obtain ⟨rfl, hle⟩ := height_ok ht
      simp only [hf, ht, bind, Except.bind] at h
      split at h
      · cases h
      · cases h
        exact ⟨rfl, by omega, hle⟩

theorem commitRangeBody_cases {now : Timestamp} {r : RangeCompletion} {s s' : Store}
    {f : Finish CommitResult} (hle : r.from_ ≤ r.through) (hmax : r.through ≤ u64Max)
    (h : (commitRangeBody now r r.from_ r.through).exec s = .ok (f, s')) :
    s.genesis = some r.genesis ∧
      ((f = .abandon .staleGeneration ∧ s.generation r.indexable ≠ r.expectedGeneration) ∨
       ∃ result, f = .commit result ∧ RangeCommits r s s' ∧
        (result = .applied ∨ result = .alreadyApplied ∧ s' = s)) := by
  unfold commitRangeBody at h
  obtain ⟨u, hnet, h⟩ := Tx.exec_readM_bind_ok.mp h
  refine ⟨Store.network_ok.mp hnet, ?_⟩
  rw [Tx.exec_read_bind] at h
  cases hstale : Store.staleGeneration r.indexable r.expectedGeneration s with
  | true =>
    left
    rw [hstale, if_pos rfl] at h
    cases h
    exact ⟨rfl, Store.staleGeneration_eq_true.mp hstale⟩
  | false =>
    right
    rw [hstale, if_neg Bool.false_ne_true, Tx.exec_read_bind] at h
    cases hrow : (s.scans.get? r.scanId).filter (·.finished) with
    | none =>
      simp only [hrow] at h
      cases h
    | some row =>
      simp only [hrow] at h
      obtain ⟨hget, hfin⟩ := Option.filter_eq_some_iff.mp hrow
      split at h
      · cases h
      rename_i hproves
      split at h
      · cases h
      rename_i hauth
      obtain ⟨cov, hcov, h⟩ := Tx.exec_readM_bind_ok.mp h
      obtain ⟨v, hwin, h⟩ := Tx.exec_readM_bind_ok.mp h
      obtain ⟨⟨changed, cov'⟩, hcover, h⟩ := Tx.exec_ofExcept_bind_ok.mp h
      obtain ⟨hvalid, -, hheights⟩ := Store.coverage_ok hcov
      have hunion := Coverage.heights_cover hvalid hcover
      rw [hheights] at hunion
      have hp : row.genesis = r.genesis ∧ row.domain = r.indexable ∧
          row.generation = r.expectedGeneration ∧ r.through ≤ row.finalizedHeight := by
        simp only [ScanRow.proves, Bool.not_eq_true, Bool.not_eq_false', Bool.and_eq_true,
          decide_eq_true_eq] at hproves
        obtain ⟨⟨⟨⟨hg, hd⟩, hgen⟩, -⟩, hfh⟩ := hproves
        exact ⟨BlockHash.eq_of_text hg, hd, hgen, hfh⟩
      -- what is stored changes the coverage only, and only where the range is not yet covered
      have base : ∀ s₁ : Store, s₁ = { s with coverages := s₁.coverages } →
          s₁.covered r.indexable = s.covered r.indexable ∪ Set.Icc r.from_ r.through →
          (∀ i, i ≠ r.indexable → s₁.coverages.get? i = s.coverages.get? i) →
          (s.Canonical → s₁.Canonical) → RangeCommits r s s₁ := by
        intro s₁ hframe hcovered hne hcan
        refine ⟨hle, hmax, Store.network_ok.mp hnet, Store.staleGeneration_eq_false.mp hstale,
          ⟨row, hget, hfin, hp.1, hp.2.1, hp.2.2.1, hp.2.2.2⟩, hauth, ?_, hcovered, hne, hframe,
          hcan⟩
        intro n hn h₁ h₂
        exact hheights ▸ (checkWinners_ok.mp hwin n hn).2 h₁ h₂
      cases changed with
      | false =>
        cases h
        obtain ⟨rfl, -⟩ := Coverage.cover_false hcover
        exact ⟨_, rfl, base s rfl (hheights ▸ hunion) (fun _ _ => rfl) id, .inr ⟨rfl, rfl⟩⟩
      | true =>
        cases h
        refine ⟨_, rfl, base _ rfl ?_ (fun i hi => KeyedTable.get?_put_ne hi) ?_, .inl rfl⟩
        · rw [← hunion]
          ext m
          simp [Store.covered, Store.saveCoverage]
        · intro hs j c hc
          rw [Store.saveCoverage, KeyedTable.get?_put] at hc
          split at hc
          · rename_i hj
            cases hc
            subst hj
            exact Coverage.canonical_cover (Store.coverage_canonical hs hcov) hmax hcover
          · exact hs j c hc

/-- **`commit_range` completes a range only by a finished scan that reaches its
end, once every listed winner in it is covered.** -/
theorem commitRange_cases {now : Timestamp} {r : RangeCompletion} {s s' : Store}
    {result : Except StoreError CommitResult} (h : commitRange now r s = (result, s')) :
    (s' = s ∧ ((∃ e, result = .error e) ∨ result = .ok .staleGeneration ∧
      s.genesis = some r.genesis ∧ s.generation r.indexable ≠ r.expectedGeneration)) ∨
    ∃ a, result = .ok a ∧ RangeCommits r s s' ∧
      (a = .applied ∨ a = .alreadyApplied ∧ s' = s) := by
  rcases Tx.request_cases h with ⟨rfl, e, rfl⟩ | ⟨rfl, p, a, t, hc, hx, rfl⟩ | ⟨p, a, hc, hx, rfl⟩
  · exact .inl ⟨rfl, .inl ⟨e, rfl⟩⟩
  · obtain ⟨rfl, hle, hmax⟩ := rangeCheck_ok hc
    obtain ⟨hnet, ⟨hf, hgen⟩ | ⟨b, hf, -⟩⟩ := commitRangeBody_cases hle hmax hx
    · cases hf
      exact .inl ⟨rfl, .inr ⟨rfl, hnet, hgen⟩⟩
    · cases hf
  · obtain ⟨rfl, hle, hmax⟩ := rangeCheck_ok hc
    obtain ⟨-, ⟨hf, -⟩ | ⟨b, hf, hb, hr⟩⟩ := commitRangeBody_cases hle hmax hx
    · cases hf
    · cases hf
      exact .inr ⟨a, rfl, hb, hr⟩

/-! ### Reading scans -/

/-- The order of `active_scan`: by pinned height, then by identifier. -/
def laterScan (a b : ScanId × ScanRow) : Bool :=
  a.2.finalizedHeight < b.2.finalizedHeight
    || (a.2.finalizedHeight = b.2.finalizedHeight && a.1 < b.1)

/-- `active_scan`: the most recent scan of a domain generation. -/
def activeScan (i : Indexable) (expected : ℕ) (s : Store) : Option Scan :=
  match s.scans.rows.filter fun e => e.2.domain = i && e.2.generation = expected with
  | [] => none
  | e :: rows =>
    let (id, row) := rows.foldl (fun a b => if laterScan a b then b else a) e
    some ⟨id, row.genesis, row.atHash, row.finalizedHeight, i, expected⟩

/-- `scan_progress`. -/
def scanProgress (id : ScanId) (s : Store) : Option ScanProgress :=
  (s.scans.get? id).map fun row => ⟨row.cursor, row.finished⟩

/-- `scan_winners`: the next winners after a height. -/
def scanWinnersAfter (id : ScanId) (after : Option ℕ) (limit : ℕ) (s : Store) : List ℕ :=
  Paging.afterKey (s.winnerHeights id) after (min limit 1000)

end Dashboard

/-
Enumerating a pinned scan, page by page.

A chunk runs alone against a node that serves the winner keys of some blocks and answers
`pruned` for the others.

* `sparseChunk_exec` — **a chunk works from the first height that its domain waits for**,
  and does nothing without one;
* `enumeratePage_exec` — a page moves the cursor of its scan or finishes it;
* `enumeratePage_pruned` — a page fails when the state of its block is pruned.
-/
import QuipDashboard.ActiveScans

namespace Dashboard

/-! ### A node that prunes -/

/-- A node, by the winner keys that it serves at a block, in its order; none once the state
of the block is pruned.  What else it answers does not matter here. -/
structure WinnerNode where
  keys : ChainHash → Option (List (List UInt8))
  others : {β : Type} → Query β → Except ChainError β

/-- The answer to a request: a page starts after its start key. -/
def WinnerNode.answer (node : WinnerNode) : {β : Type} → Query β → Except ChainError β
  | _, .qblockKeys at_ start limit =>
    match node.keys at_ with
    | some keys => .ok ((keys.filter fun key => start.all (· < key)).take limit)
    | none => .error (.pruned "state discarded")
  | _, q => node.others q

/-- The answers that a chunk gets when it runs alone. -/
def WinnerNode.await (node : WinnerNode) (clock : Op → Timestamp) :
    {γ : Type} → Await γ → Store → γ × Store
  | _, .store op, s => op.apply (clock op) s
  | _, .read f, s => (f s, s)
  | _, .chain q, s => (node.answer q, s)
  | _, .note _, s => ((), s)
  | _, .refresh _, s => (.ok (), s)

section

variable {node : WinnerNode} {clock : Op → Timestamp} {s s' : Store} {α β : Type}

theorem WinnerNode.exec_read {f : Store → Except StoreError β} {b : β} (h : f s = .ok b)
    (k : β → Ix α) :
    (Ix.read f >>= k).exec (node.await clock) s = (k b).exec (node.await clock) s := by
  show (Program.call (Await.read f) _).exec _ s = _
  rw [Program.exec]
  simp only [WinnerNode.await, h]
  rfl

theorem WinnerNode.exec_get {f : Store → β} (k : β → Ix α) :
    ((Ix.read fun s => .ok (f s)) >>= k).exec (node.await clock) s =
      (k (f s)).exec (node.await clock) s := rfl

theorem WinnerNode.exec_store {r : CommitResult} (op : Op)
    (h : op.apply (clock op) s = (.ok r, s')) (k : CommitResult → Ix α) :
    (Ix.store op >>= k).exec (node.await clock) s = (k r).exec (node.await clock) s' := by
  show (Program.call (Await.store op) _).exec _ s = _
  rw [Program.exec]
  simp only [WinnerNode.await, h]
  rfl

theorem WinnerNode.exec_chain {q : Query β} {b : β} (h : node.answer q = .ok b) (k : β → Ix α) :
    (Ix.chain q >>= k).exec (node.await clock) s = (k b).exec (node.await clock) s := by
  show (Program.call (Await.chain q) _).exec _ s = _
  rw [Program.exec]
  simp only [WinnerNode.await, h]
  rfl

theorem checkResult_bind {r : CommitResult} (h : r ≠ .staleGeneration) (k : Unit → Ix α) :
    (checkResult r >>= k) = k () := by
  cases r with
  | applied | alreadyApplied => rfl
  | staleGeneration => exact absurd rfl h

end

/-! ### The first awaited height -/

/-- A height that a domain waits for: above its floor, not covered and without a marker. -/
def Store.Awaits (s : Store) (i : Indexable) (h : ℕ) : Prop :=
  (∀ c, s.savedCoverage i = some c → c.Open h ∧ h ∉ c.heights) ∧
    s.isUnavailable i (s.generation i) h = false

/-- The first height up to a head that a domain waits for. -/
def Store.FirstAwaited (s : Store) (i : Indexable) (head from_ : ℕ) : Prop :=
  IsLeast {h | h ≤ head ∧ s.Awaits i h} from_

/-- The store once a chunk has initialized the coverage. -/
def Store.initialized (s : Store) (i : Indexable) : Store :=
  match s.savedCoverage i with
  | some _ => s
  | none => s.saveCoverage i (Coverage.empty (s.generation i) 0)

section

variable {node : WinnerNode} {clock : Op → Timestamp} {genesis : BlockHash}
  {height : ChainHash → ℕ} {s : Store} {i : Indexable}

theorem initializeCoverage_eq (hs : s.genesis = some genesis) :
    ∃ r, r ≠ .staleGeneration ∧
      initializeCoverage i (s.generation i) 0 s = (.ok r, s.initialized i) := by
  have hbound : s.requireBound = .ok genesis := by rw [Store.requireBound, hs]
  have hcur : Store.staleGeneration i (s.generation i) s = false :=
    Store.staleGeneration_eq_false.mpr rfl
  unfold Store.initialized Store.savedCoverage
  cases hget : s.coverages.get? i with
  | some c =>
    refine ⟨.alreadyApplied, (fun h => by cases h), Tx.write_ok.mpr (.inr ⟨⟨s, ?_⟩, rfl⟩)⟩
    refine Tx.exec_readM_bind_ok.mpr ⟨genesis, hbound, ?_⟩
    rw [Tx.exec_read_bind, hcur, if_neg Bool.false_ne_true, Tx.exec_read_bind, hget]
    rfl
  | none =>
    refine ⟨.applied, (fun h => by cases h), Tx.write_ok.mpr (.inl ?_)⟩
    refine Tx.exec_readM_bind_ok.mpr ⟨genesis, hbound, ?_⟩
    rw [Tx.exec_read_bind, hcur, if_neg Bool.false_ne_true, Tx.exec_read_bind, hget]
    rfl

variable (node clock i) in
/-- **The first retryable interval starts at the least unmarked height of the ranges.** -/
theorem firstRetryable_exec (expected : ℕ) (hs : s.Successors) {gaps : List (ℕ × ℕ)}
    (hle : ∀ g ∈ gaps, g.1 ≤ g.2) (hmax : ∀ g ∈ gaps, g.2 ≤ u64Max)
    (hordered : gaps.Pairwise fun g g' => g.2 < g'.1) :
    ((firstRetryable i expected gaps).exec (node.await clock) s = some (.ok none, s) ∧
      ∀ h ∈ Intervals.points gaps, s.isUnavailable i expected h = true) ∨
    ∃ a b, (firstRetryable i expected gaps).exec (node.await clock) s =
        some (.ok (some (a, b)), s) ∧
      IsLeast {h | h ∈ Intervals.points gaps ∧ s.isUnavailable i expected h = false} a := by
  induction gaps with
  | nil =>
    refine .inl ⟨rfl, fun h hh => ?_⟩
    rw [Intervals.points_nil] at hh
    exact hh.elim
  | cons gap gaps ih =>
    obtain ⟨first, last⟩ := gap
    obtain ⟨hbefore, hordered⟩ := List.pairwise_cons.mp hordered
    obtain ⟨r, hr, hnone, hsome⟩ := Store.retryableRange_spec i expected hs
      (hle _ (List.mem_cons_self ..)) (hmax _ (List.mem_cons_self ..))
    rw [firstRetryable, WinnerNode.exec_read hr]
    -- a range without a free height leaves the search to those behind it
    cases r with
    | some range =>
      obtain ⟨a, b⟩ := range
      obtain ⟨h₁, h₂, h₃, hall, hfree, -⟩ := hsome a b rfl
      refine .inr ⟨a, b, rfl, ⟨⟨(first, last), List.mem_cons_self .., h₁, h₂.trans h₃⟩,
        hfree a le_rfl h₂⟩, ?_⟩
      rintro h ⟨⟨g, hg, hgh, -⟩, hh⟩
      rcases List.mem_cons.mp hg with rfl | hg
      · by_contra hlt
        rw [hall h hgh (not_le.mp hlt)] at hh
        cases hh
      · have := hbefore g hg
        simp only at this
        omega
    | none =>
      have hhere := hnone.mp rfl
      have htail : ∀ h, h ∈ Intervals.points ((first, last) :: gaps) →
          s.isUnavailable i expected h = false → h ∈ Intervals.points gaps := by
        rintro h ⟨g, hg, hgh⟩ hh
        rcases List.mem_cons.mp hg with rfl | hg
        · rw [hhere h hgh.1 hgh.2] at hh
          cases hh
        · exact ⟨g, hg, hgh⟩
      rcases ih (fun g hg => hle g (List.mem_cons_of_mem _ hg))
        (fun g hg => hmax g (List.mem_cons_of_mem _ hg)) hordered with ⟨hx, hall⟩ | ⟨a, b, hx, hleast⟩
      · refine .inl ⟨hx, fun h hh => ?_⟩
        by_contra hno
        have hfree := Bool.not_eq_true _ ▸ hno
        exact hno (hall h (htail h hh hfree))
      · obtain ⟨⟨⟨g, hg, hga⟩, hfree⟩, hmin⟩ := hleast
        refine .inr ⟨a, b, hx, ⟨⟨g, List.mem_cons_of_mem _ hg, hga⟩, hfree⟩, ?_⟩
        rintro h ⟨hh, hhfree⟩
        exact hmin ⟨htail h hh hhfree, hhfree⟩

/-- What a chunk goes by, its scans apart, is the same in both stores. -/
structure Store.SameWork (i : Indexable) (s t : Store) : Prop where
  generation : t.generation i = s.generation i
  awaits : ∀ h, t.Awaits i h ↔ s.Awaits i h

theorem Store.SameWork.refl (s : Store) : s.SameWork i s := ⟨rfl, fun _ => Iff.rfl⟩

theorem Store.SameWork.trans {t u : Store} (h : s.SameWork i t) (h' : t.SameWork i u) :
    s.SameWork i u :=
  ⟨h'.generation.trans h.generation, fun n => (h'.awaits n).trans (h.awaits n)⟩

theorem Store.SameWork.firstAwaited {t : Store} (h : s.SameWork i t) {head from_ : ℕ} :
    t.FirstAwaited i head from_ ↔ s.FirstAwaited i head from_ := by
  unfold Store.FirstAwaited
  simp only [h.awaits]

/-- A first awaited height stays the first one when the head rises. -/
theorem Store.FirstAwaited.mono {head head' from_ : ℕ} (h : s.FirstAwaited i head from_)
    (hle : head ≤ head') : s.FirstAwaited i head' from_ := by
  refine ⟨⟨h.1.1.trans hle, h.1.2⟩, fun n hn => ?_⟩
  by_contra hlt
  exact hlt (h.2 ⟨(not_le.mp hlt).le.trans h.1.1, hn.2⟩)

theorem Store.initialized_scans (s : Store) (i : Indexable) : (s.initialized i).scans = s.scans := by
  unfold Store.initialized
  split <;> rfl

/-- Initializing the coverage changes no work. -/
theorem Store.initialized_sameWork (s : Store) (i : Indexable) : s.SameWork i (s.initialized i) := by
  unfold Store.initialized
  split
  · exact .refl s
  · rename_i hnone
    refine ⟨rfl, fun h => and_congr_left' ?_⟩
    constructor
    · intro _ c hc
      cases hnone.symm.trans hc
    · intro _ c hc
      rw [Store.savedCoverage, Store.saveCoverage, KeyedTable.get?_put_self] at hc
      obtain rfl := Option.some.inj hc
      refine ⟨⟨Nat.zero_le h, fun floor hf => by cases hf⟩, ?_⟩
      rw [Coverage.heights_empty]
      exact Set.notMem_empty h

theorem Store.Pinned.initialized (hs : s.Pinned genesis height) :
    (s.initialized i).Pinned genesis height := by
  obtain ⟨r, -, h⟩ := initializeCoverage_eq (i := i) hs.network
  have heff := apply_effect (.utc 0) (.initializeCoverage i (s.generation i) 0) s
  rw [show Op.apply (.utc 0) (.initializeCoverage i (s.generation i) 0) s = _ from h] at heff
  exact heff.pinned trivial hs

variable (node clock i) in
/-- **A chunk works from the first awaited height**, and does nothing without one. -/
theorem sparseChunk_exec (chain : ChainReader) {target : Target} (hs : s.Pinned genesis height)
    (hmax : target.height ≤ u64Max) :
    ((∀ h, h ≤ target.height → ¬s.Awaits i h) ∧
      (sparseChunk chain i target).exec (node.await clock) s =
        some (.ok (), s.initialized i)) ∨
    ∃ from_ through, s.FirstAwaited i target.height from_ ∧
      (sparseChunk chain i target).exec (node.await clock) s =
        (replayInterval chain i (s.generation i) target from_ through).exec (node.await clock)
          (s.initialized i) := by
  obtain ⟨r, hr, hinit⟩ := initializeCoverage_eq (i := i) hs.network
  have hwork := s.initialized_sameWork i
  have hpinned := hs.initialized (i := i)
  obtain ⟨c, hc⟩ : ∃ c, (s.initialized i).savedCoverage i = some c := by
    unfold Store.initialized
    split
    · exact ⟨_, by assumption⟩
    · exact ⟨_, KeyedTable.get?_put_self _ _ _⟩
  have hcanonical := hpinned.canonical i c hc
  have hsep : Intervals.Separated (c.uncovered target.height) :=
    Coverage.uncovered_separated hcanonical
  -- the uncovered and unmarked heights are those that the domain awaits
  have hpoints : ∀ h, h ∈ Intervals.points (c.uncovered target.height) ∧
      (s.initialized i).isUnavailable i (s.generation i) h = false ↔
      h ≤ target.height ∧ s.Awaits i h := by
    intro h
    rw [← hwork.awaits, Coverage.points_uncovered hcanonical hmax, Store.Awaits, hc,
      hwork.generation]
    simp only [Option.some.injEq, forall_eq']
    tauto
  have hle : ∀ g ∈ c.uncovered target.height, g.2 ≤ u64Max := by
    intro g hg
    have := (Coverage.points_uncovered hcanonical hmax).mp ⟨g, hg, hsep.nonempty g hg, le_rfl⟩
    omega
  rw [sparseChunk, WinnerNode.exec_get,
    WinnerNode.exec_store (.initializeCoverage i (s.generation i) 0) hinit,
    checkResult_bind hr, WinnerNode.exec_get]
  simp only [hc, Program.exec_bind]
  rcases firstRetryable_exec node clock i (s.generation i)
    hpinned.successors hsep.nonempty hle hsep.ordered with ⟨hx, hall⟩ | ⟨a, b, hx, hleast⟩
  · rw [hx]
    refine .inl ⟨fun h hh hawait => ?_, rfl⟩
    obtain ⟨hmem, hfree⟩ := (hpoints h).mpr ⟨hh, hawait⟩
    rw [hall h hmem] at hfree
    cases hfree
  · rw [hx]
    refine .inr ⟨a, b, ?_, rfl⟩
    unfold Store.FirstAwaited
    rwa [← show {h | h ∈ Intervals.points (c.uncovered target.height) ∧
      (s.initialized i).isUnavailable i (s.generation i) h = false} = _ from Set.ext hpoints]

/-! ### One page of an enumeration -/

theorem scanId_ne_empty (guard : GenerationGuard) (target : BlockHash) :
    scanId guard target ≠ "" := by
  intro h
  have := congrArg String.toList h
  simp [scanId] at this

theorem scanId_target {guard : GenerationGuard} {t t' : BlockHash}
    (h : scanId guard t = scanId guard t') : t.text = t'.text := by
  have h := congrArg String.toList h
  simp only [scanId, String.toList_append] at h
  exact String.toList_inj.mp (List.append_cancel_left h)

/-- Beginning a stored scan again changes nothing. -/
theorem beginScan_again {scan : Scan} {row : ScanRow} (hid : scan.id ≠ "")
    (hnet : s.genesis = some scan.genesis)
    (hcur : s.generation scan.indexable = scan.expectedGeneration)
    (hrow : s.scans.get? scan.id = some row) (hfor : row.isFor scan = true) :
    beginScan scan s = (.ok .alreadyApplied, s) := by
  refine Tx.request_ok.mpr ⟨(), by rw [Scan.check, if_neg hid], Tx.write_ok.mpr (.inr ⟨⟨s, ?_⟩, rfl⟩)⟩
  refine Tx.exec_readM_bind_ok.mpr ⟨(), Store.network_ok.mpr hnet, ?_⟩
  rw [Tx.exec_read_bind, Store.staleGeneration_eq_false.mpr hcur, if_neg Bool.false_ne_true,
    Tx.exec_read_bind, hrow]
  simp only [hfor, Bool.not_true, Bool.false_eq_true, if_false]
  rfl

/-- Beginning a new scan stores its row. -/
theorem beginScan_fresh {scan : Scan} (hid : scan.id ≠ "") (hnet : s.genesis = some scan.genesis)
    (hcur : s.generation scan.indexable = scan.expectedGeneration)
    (hrow : s.scans.get? scan.id = none) :
    beginScan scan s = (.ok .applied, { s with scans := s.scans.put scan.id scan.row }) := by
  refine Tx.request_ok.mpr ⟨(), by rw [Scan.check, if_neg hid], Tx.write_ok.mpr (.inl ?_)⟩
  refine Tx.exec_readM_bind_ok.mpr ⟨(), Store.network_ok.mpr hnet, ?_⟩
  rw [Tx.exec_read_bind, Store.staleGeneration_eq_false.mpr hcur, if_neg Bool.false_ne_true,
    Tx.exec_read_bind, hrow]
  rfl

theorem appendWinners_exec (id : ScanId) {ceiling : ℕ} {heights : List ℕ}
    (hle : ∀ n ∈ heights, n ≤ ceiling) (hmax : ceiling ≤ u64Max) (s : Store) :
    ∃ scanWinners, (appendWinners id ceiling heights).exec s = .ok ((), { s with scanWinners }) := by
  induction heights generalizing s with
  | nil => exact ⟨s.scanWinners, rfl⟩
  | cons n heights ih =>
    have hn := hle n (List.mem_cons_self ..)
    obtain ⟨w, hw⟩ := ih (fun m hm => hle m (List.mem_cons_of_mem _ hm))
      { s with scanWinners := s.scanWinners.insertNew (id, n) () }
    refine ⟨w, ?_⟩
    unfold appendWinners
    refine Tx.exec_ofExcept_bind_ok.mpr ⟨n, height_of_le (hn.trans hmax), ?_⟩
    rw [if_neg (not_lt.mpr hn), Tx.exec_update_bind]
    exact hw

/-- **A page of an unfinished scan is taken** when its heights are those of the chain. -/
theorem appendScanPage_exec {id : ScanId} {row : ScanRow} {next : Option (List UInt8)}
    {heights : List ℕ} (hget : s.scans.get? id = some row) (hnet : s.genesis = some row.genesis)
    (hcur : s.generation row.domain = row.generation) (hopen : row.finished = false)
    (hle : ∀ n ∈ heights, n ≤ row.finalizedHeight) (hmax : row.finalizedHeight ≤ u64Max)
    (hpage : checkPage row.cursor next heights = .ok ()) :
    ∃ scanWinners, appendScanPage id row.cursor next heights s =
      (.ok .applied, { s with scanWinners, scans := s.scans.put id (row.advance next) }) := by
  obtain ⟨w, hw⟩ := appendWinners_exec id hle hmax s
  refine ⟨w, Tx.request_ok.mpr ⟨(), hpage, Tx.write_ok.mpr (.inl ?_)⟩⟩
  refine Tx.exec_readM_bind_ok.mpr ⟨row.genesis, by rw [Store.requireBound, hnet], ?_⟩
  rw [Tx.exec_read_bind, hget]
  simp only [ne_eq, not_true_eq_false, if_false]
  rw [Tx.exec_read_bind, Store.staleGeneration_eq_false.mpr hcur, if_neg Bool.false_ne_true,
    if_neg (by simp [hopen]), if_neg (not_lt.mpr hmax), Tx.exec_bind, hw]
  rfl

/-- The keys after a cursor, of which the next page is a prefix. -/
def keysAfter (keys : List (List UInt8)) (cursor : Option (List UInt8)) : List (List UInt8) :=
  keys.filter fun key => cursor.all (· < key)

/-- A cursor that moved to one of the keys after it leaves fewer of them. -/
theorem keysAfter_lt {keys : List (List UInt8)} {cursor : Option (List UInt8)} {key : List UInt8}
    (hkey : key ∈ keysAfter keys cursor) :
    (keysAfter keys (some key)).length < (keysAfter keys cursor).length := by
  obtain ⟨hmem, hlt⟩ := List.mem_filter.mp hkey
  have hsub : keysAfter keys (some key) = (keysAfter keys cursor).filter fun k => key < k := by
    rw [keysAfter, keysAfter, List.filter_filter]
    refine List.filter_congr fun k _ => ?_
    simp only [Option.all_some]
    cases cursor with
    | none => simp
    | some c =>
      by_cases hk : key < k
      · simp [hk, List.lt_trans (by simpa using hlt) hk]
      · simp [hk]
  rw [hsub]
  refine List.length_filter_lt_length_iff_exists.mpr ⟨key, hkey, ?_⟩
  simp [List.lt_irrefl]

/-- The winner keys that a node serves hold heights up to that of their block. -/
def WinnerNode.Decodes (node : WinnerNode) (chain : ChainReader) (height : ChainHash → ℕ) : Prop :=
  ∀ at_ keys, node.keys at_ = some keys → ∀ key ∈ keys,
    ∃ n, chain.qblockHeight key = .ok n ∧ n ≤ height at_

theorem mapM_heights {chain : ChainReader} {ceiling : ℕ} {keys : List (List UInt8)}
    (h : ∀ key ∈ keys, ∃ n, chain.qblockHeight key = .ok n ∧ n ≤ ceiling) :
    ∃ heights, keys.mapM chain.qblockHeight = .ok heights ∧ heights.length = keys.length ∧
      ∀ n ∈ heights, n ≤ ceiling := by
  induction keys with
  | nil => exact ⟨[], rfl, rfl, fun n hn => absurd hn List.not_mem_nil⟩
  | cons key keys ih =>
    obtain ⟨n, hn, hle⟩ := h key (List.mem_cons_self ..)
    obtain ⟨heights, hmap, hlen, hall⟩ := ih fun k hk => h k (List.mem_cons_of_mem _ hk)
    refine ⟨n :: heights, ?_, congrArg Nat.succ hlen, List.forall_mem_cons.mpr ⟨hle, hall⟩⟩
    rw [List.mapM_cons, hn, hmap]
    rfl

/-- A page request at a cursor of its own block. -/
theorem winnerPage_eq (chain : ChainReader) (at_ : ChainHash) (cursor : Option (List UInt8)) :
    winnerPage chain at_ (cursor.map fun key => ⟨at_, key⟩) pageSize = do
      let keys ← Ix.chain (.qblockKeys at_ cursor pageSize)
      let heights ← Program.ofExcept ((keys.mapM chain.qblockHeight).mapError .chain)
      let exhausted := decide (keys.length < pageSize)
      return ⟨at_, keys, heights,
        if exhausted then none else keys.getLast?.map fun key => ⟨at_, key⟩, exhausted⟩ := by
  have hown : ((cursor.map fun key => (⟨at_, key⟩ : WinnerCursor)).any
      fun c => decide (c.at_ ≠ at_)) = false := by
    cases cursor <;> simp
  have hkey : (cursor.map fun key => (⟨at_, key⟩ : WinnerCursor)).map WinnerCursor.key = cursor := by
    cases cursor <;> rfl
  show (if _ then _ else _) = _
  rw [hown, if_neg Bool.false_ne_true, hkey]

variable (clock s) in
/-- A page of a block whose state is served. -/
theorem winnerPage_exec {chain : ChainReader} (hnode : node.Decodes chain height)
    {at_ : ChainHash} {keys : List (List UInt8)} (hkeys : node.keys at_ = some keys)
    (cursor : Option (List UInt8)) :
    ∃ page : WinnerPage, (winnerPage chain at_ (cursor.map fun key => ⟨at_, key⟩) pageSize).exec
        (node.await clock) s = some (.ok page, s) ∧
      page.at_ = at_ ∧ page.heights.length ≤ 1000 ∧ (∀ n ∈ page.heights, n ≤ height at_) ∧
      (page.exhausted = true ∧ page.continuation = none ∨
        page.exhausted = false ∧ ∃ key ∈ keysAfter keys cursor,
          page.continuation = some ⟨at_, key⟩) := by
  have hanswer : node.answer (.qblockKeys at_ cursor pageSize) =
      .ok ((keysAfter keys cursor).take pageSize) := by
    simp only [WinnerNode.answer, hkeys]
    rfl
  have hdecodes : ∀ key ∈ (keysAfter keys cursor).take pageSize,
      ∃ n, chain.qblockHeight key = .ok n ∧ n ≤ height at_ := fun key hkey =>
    hnode at_ keys hkeys key (List.mem_filter.mp (List.mem_of_mem_take hkey)).1
  obtain ⟨heights, hmap, hlen, hall⟩ := mapM_heights hdecodes
  rw [winnerPage_eq, WinnerNode.exec_chain hanswer, hmap]
  refine ⟨_, rfl, rfl, ?_, hall, ?_⟩
  · have : heights.length ≤ pageSize := by
      rw [hlen]
      exact List.length_take_le ..
    exact this.trans (by decide)
  · by_cases hshort : ((keysAfter keys cursor).take pageSize).length < pageSize
    · exact .inl ⟨decide_eq_true hshort, if_pos (decide_eq_true hshort)⟩
    · refine .inr ⟨decide_eq_false hshort, ?_⟩
      cases hlast : ((keysAfter keys cursor).take pageSize).getLast? with
      | none =>
        rw [List.getLast?_eq_none_iff.mp hlast] at hshort
        exact absurd (show 0 < pageSize by decide) hshort
      | some key =>
        refine ⟨key, List.mem_of_mem_take (List.mem_of_getLast? hlast), ?_⟩
        exact if_neg fun h => hshort (of_decide_eq_true h)

variable (clock) in
/-- **An enumeration step fails when the state of its block is pruned.** -/
theorem enumeratePage_pruned (chain : ChainReader) {scan : Scan} {row : ScanRow} {at_ : ChainHash}
    (hget : s.scans.get? scan.id = some row) (hopen : row.finished = false)
    (hkeys : node.keys at_ = none) :
    (enumeratePage chain scan at_).exec (node.await clock) s =
      some (.error (.chain (.pruned "state discarded")), s) := by
  have hanswer : node.answer (.qblockKeys at_ row.cursor pageSize) =
      .error (.pruned "state discarded") := by
    simp only [WinnerNode.answer, hkeys]
  rw [enumeratePage, WinnerNode.exec_get]
  simp only [scanProgress, hget, Option.map_some, hopen, Bool.not_false, if_true]
  rw [appendPage, winnerPage_eq]
  show (Program.call (Await.chain _) _).exec _ s = _
  rw [Program.exec]
  simp only [WinnerNode.await, hanswer]
  rfl

variable (clock i) in
/-- **An enumeration step moves the cursor or finishes the scan** when the state of its
block is served. -/
theorem enumeratePage_exec {chain : ChainReader} (hnode : node.Decodes chain height) {scan : Scan}
    {row : ScanRow} {at_ : ChainHash} {keys : List (List UInt8)} (hs : s.Pinned genesis height)
    (hget : s.scans.get? scan.id = some row) (hopen : row.finished = false)
    (hat : row.finalizedHeight = height at_) (hmax : height at_ ≤ u64Max)
    (hkeys : node.keys at_ = some keys) :
    ∃ t next, (enumeratePage chain scan at_).exec (node.await clock) s = some (.ok false, t) ∧
      t.Pinned genesis height ∧ s.SameWork i t ∧
      t.scans = s.scans.put scan.id (row.advance next) ∧
      (next = none ∨ ∃ key ∈ keysAfter keys row.cursor, next = some key) := by
  obtain ⟨page, hpage, hown, hlen, hle, hend⟩ := winnerPage_exec clock s hnode hkeys
    row.cursor
  have hnext : page.continuation.map WinnerCursor.key = none ∨
      ∃ key ∈ keysAfter keys row.cursor, page.continuation.map WinnerCursor.key = some key := by
    rcases hend with ⟨-, h⟩ | ⟨-, key, hkey, h⟩
    · exact .inl (by rw [h]; rfl)
    · exact .inr ⟨key, hkey, by rw [h]; rfl⟩
  have hcheck : checkPage row.cursor (page.continuation.map WinnerCursor.key) page.heights =
      .ok () := by
    refine if_neg ?_
    rintro (hlong | ⟨hsome, hsame⟩)
    · omega
    · rcases hnext with h | ⟨key, hkey, h⟩
      · rw [h] at hsome
        cases hsome
      · -- a key is not after itself
        have hlt := (List.mem_filter.mp hkey).2
        rw [← hsame, h] at hlt
        exact List.lt_irrefl key (by simpa using hlt)
  obtain ⟨w, hw⟩ := appendScanPage_exec hget (by rw [(hs.scans _ _ hget).1, hs.network])
    (hs.stamped.scans _ _ hget).symm hopen (hat ▸ hle) (hat ▸ hmax) hcheck
  set op : Op := .appendScanPage scan.id row.cursor (page.continuation.map WinnerCursor.key)
    page.heights with hop
  have hpinned := (apply_effect (clock op) op s).pinned trivial hs
  rw [show op.apply (clock op) s = _ from hw] at hpinned
  refine ⟨_, _, ?_, hpinned, ⟨rfl, fun _ => Iff.rfl⟩, rfl, hnext⟩
  rw [enumeratePage, WinnerNode.exec_get]
  simp only [scanProgress, hget, Option.map_some, hopen, Bool.not_false, if_true]
  rw [appendPage, Program.exec_bind, hpage]
  simp only [Option.bind_some]
  rw [if_neg]
  · rw [WinnerNode.exec_store op hw]
    rfl
  · rcases hend with ⟨h₁, h₂⟩ | ⟨h₁, key, -, h₂⟩ <;> simp [hown, h₁, h₂]

end

end Dashboard

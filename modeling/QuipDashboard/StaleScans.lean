/-
Scans whose block is pruned.

A domain repeats its chunk against a node whose targets rise.  A scan is enumerated at the
block that it is pinned to, over as many rounds as it has pages, and a chunk takes up the
active scan again as long as that one reaches the heights it works from.

* `chunkRound_works`, `chunkRound_blocked` — what becomes of a round, by whether the state
  of that block is served;
* `stale_scan_wedges` — **a domain finishes the enumeration it works on exactly when the
  block that it is pinned to is served**: the active scan is never given up for another.
-/
import QuipDashboard.Enumerations
import QuipDashboard.Rounds
import Mathlib.Order.Monotone.Defs

namespace Dashboard

/-! ### One round -/

/-- The scan that a domain works on is exhausted. -/
def Store.Enumerated (s : Store) (i : Indexable) : Prop :=
  ∃ scan progress, activeScan i (s.generation i) s = some scan ∧
    scanProgress scan.id s = some progress ∧ progress.finished = true

theorem Store.enumerated_iff {s : Store} {i : Indexable} : s.Enumerated i ↔
    ∃ id, ∃ row : ScanRow, row.Latest i (s.generation i) s id ∧ row.finished = true := by
  constructor
  · rintro ⟨scan, progress, hactive, hprogress, hfin⟩
    obtain ⟨row, hrow, -⟩ := activeScan_eq_some.mp hactive
    rw [scanProgress, hrow.get] at hprogress
    obtain rfl := Option.some.inj hprogress
    exact ⟨scan.id, row, hrow, hfin⟩
  · rintro ⟨id, row, hrow, hfin⟩
    refine ⟨⟨id, row.genesis, row.atHash, row.finalizedHeight, i, s.generation i⟩,
      ⟨row.cursor, row.finished⟩, activeScan_eq_some.mpr ⟨row, hrow, rfl⟩, ?_, hfin⟩
    rw [scanProgress, hrow.get]
    rfl

/-- There is one scan that is pinned highest. -/
theorem ScanRow.Latest.unique {i : Indexable} {expected : ℕ} {s : Store} {id id' : ScanId}
    {row row' : ScanRow} (h : row.Latest i expected s id) (h' : row'.Latest i expected s id') :
    id = id' ∧ row = row' := by
  have heq := le_antisymm (h'.le _ _ h.get h.domain h.generation)
    (h.le _ _ h'.get h'.domain h'.generation)
  obtain ⟨-, rfl⟩ := Prod.mk.inj (toLex_inj.mp heq)
  exact ⟨rfl, Option.some.inj (h.get.symm.trans h'.get)⟩

/-- The scan that a domain works on reaches a height, is pinned to a block whose state is
served, and has `rank` keys left to list. -/
def Enumerating (node : WinnerNode) (i : Indexable) (from_ rank : ℕ) (s : Store) : Prop :=
  ∃ id keys, ∃ row : ScanRow, row.Latest i (s.generation i) s id ∧ row.finished = false ∧
    from_ ≤ row.finalizedHeight ∧ node.keys (chainHash row.atHash) = some keys ∧
    (keysAfter keys row.cursor).length = rank

section

variable {node : WinnerNode} {clock : Op → Timestamp} {genesis : BlockHash}
  {height : ChainHash → ℕ} {s : Store} {i : Indexable} {chain : ChainReader} {target : Target}
  {from_ through : ℕ}

theorem checkResult_attempt {r : CommitResult} (h : r ≠ .staleGeneration) :
    ((checkResult r).attempt : Ix (Except IndexerError Unit)) = pure (.ok ()) := by
  cases r with
  | applied | alreadyApplied => rfl
  | staleGeneration => exact absurd rfl h

variable (node clock through) in
/-- Once its scan is begun, a chunk takes one page of it. -/
theorem replayInterval_exec {scan : Scan} {r : CommitResult} {t : Store}
    (hscan : chunkScan chain i (s.generation i) target from_
      (activeScan i (s.generation i) s) = scan)
    (hr : r ≠ .staleGeneration) (hbegin : beginScan scan s = (.ok r, t)) :
    (replayInterval chain i (s.generation i) target from_ through).exec (node.await clock) s =
      (enumeratePage chain scan (chainHash scan.at_) >>= fun exhausted =>
        if exhausted then replayRange chain i (s.generation i) scan from_ through
          (chainHash scan.at_) else pure ()).exec (node.await clock) t := by
  rw [replayInterval, WinnerNode.exec_get, hscan,
    WinnerNode.exec_store (.beginScan scan) hbegin, checkResult_attempt hr]
  rfl

variable (chain target) in
/-- The active scan is chosen when it reaches the interval, and beginning it again changes
nothing. -/
theorem chunkScan_active (hs : s.Pinned genesis height) (hmax : ∀ hash, height hash ≤ u64Max)
    {id : ScanId} {row : ScanRow} (hrow : row.Latest i (s.generation i) s id)
    (hle : from_ ≤ row.finalizedHeight) :
    ∃ scan : Scan, scan.id = id ∧ scan.at_ = row.atHash ∧
      chunkScan chain i (s.generation i) target from_ (activeScan i (s.generation i) s) = scan ∧
      beginScan scan s = (.ok .alreadyApplied, s) := by
  obtain ⟨hgenesis, hash, -, hheight⟩ := hs.scans id row hrow.get
  have hactive : activeScan i (s.generation i) s =
      some ⟨id, row.genesis, row.atHash, row.finalizedHeight, i, s.generation i⟩ :=
    activeScan_eq_some.mpr ⟨row, hrow, rfl⟩
  refine ⟨⟨id, row.genesis, row.atHash, row.finalizedHeight, i, s.generation i⟩, rfl, rfl, ?_,
    beginScan_again ?_ ?_ rfl hrow.get ?_⟩
  · rw [chunkScan, hactive, Option.filter_some, if_pos]
    · rfl
    · exact decide_eq_true ⟨hheight ▸ hmax hash, hle⟩
  · show id ≠ ""
    rw [hs.named id row hrow.get]
    exact scanId_ne_empty _ _
  · show s.genesis = some row.genesis
    rw [hgenesis, hs.network]
  · simp [ScanRow.isFor, hrow.domain, hrow.generation]

/-- A new scan is chosen when no stored one reaches the interval; it is then the one that is
pinned highest. -/
theorem chunkScan_new (hs : s.Pinned genesis height) (hchain : modelHash chain.genesis = genesis)
    (htarget : target.height = height target.hash) (hle : from_ ≤ target.height)
    (hnone : ∀ id, ∀ row : ScanRow, row.Latest i (s.generation i) s id →
      row.finalizedHeight < from_) :
    ∃ scan t, scan.at_ = modelHash target.hash ∧
      chunkScan chain i (s.generation i) target from_ (activeScan i (s.generation i) s) = scan ∧
      beginScan scan s = (.ok .applied, t) ∧ t.Pinned genesis height ∧ s.SameWork i t ∧
      scan.row.Latest i (t.generation i) t scan.id ∧ from_ ≤ scan.row.finalizedHeight := by
  -- every stored scan of the domain is pinned below the interval
  have hbelow : ∀ id, ∀ row : ScanRow, s.scans.get? id = some row → row.domain = i →
      row.finalizedHeight < from_ := by
    intro id row hget hdomain
    obtain ⟨id', latest, hlatest, hrank⟩ :=
      exists_latest hget hdomain (hdomain ▸ hs.stamped.scans id row hget)
    exact hrank.trans_lt (hnone id' latest hlatest)
  set scan : Scan := ⟨scanId ⟨i, s.generation i⟩ (modelHash target.hash), modelHash chain.genesis,
    modelHash target.hash, target.height, i, s.generation i⟩ with hscan
  have hfresh : s.scans.get? scan.id = none := by
    cases hget : s.scans.get? scan.id with
    | none => rfl
    | some row =>
      -- an equal identifier names the same domain and block
      have hid : scanId ⟨i, s.generation i⟩ (modelHash target.hash) =
        scanId ⟨row.domain, row.generation⟩ row.atHash := hs.named _ row hget
      have hguard := scanId_inj hid
      obtain ⟨-, hash, hat, hheight⟩ := hs.scans _ row hget
      rw [hguard, hat] at hid
      obtain rfl : target.hash = hash := BlockHash.ofBytes_text_inj.mp (scanId_target hid)
      have := hbelow _ row hget (congrArg GenerationGuard.indexable hguard).symm
      omega
  have hbegin : beginScan scan s =
      (.ok .applied, { s with scans := s.scans.put scan.id scan.row }) :=
    beginScan_fresh (scanId_ne_empty _ _) (by rw [hs.network, ← hchain]) rfl hfresh
  have hpinned := (apply_effect (.utc 0) (.beginScan scan) s).pinned
    ⟨rfl, target.hash, rfl, htarget⟩ hs
  rw [show (Op.beginScan scan).apply (.utc 0) s = _ from hbegin] at hpinned
  refine ⟨scan, _, rfl, ?_, hbegin, hpinned, ⟨rfl, fun _ => Iff.rfl⟩, ⟨?_, rfl, rfl, ?_⟩, hle⟩
  · cases hactive : activeScan i (s.generation i) s with
    | none => rw [chunkScan, Option.filter_none]; rfl
    | some active =>
      obtain ⟨row, hrow, hrec⟩ := activeScan_eq_some.mp hactive
      have hlow := hnone _ _ hrow
      rw [chunkScan, Option.filter_some, if_neg]
      · rfl
      · rw [hrec]
        simp only [decide_eq_true_eq]
        omega
  · exact KeyedTable.get?_put_self _ _ _
  · intro id' row' hget' hdomain' _
    simp only [KeyedTable.get?_put] at hget'
    split at hget'
    · rename_i hid
      cases hget'
      exact hid ▸ le_rfl
    · have := hbelow id' row' hget' hdomain'
      exact Prod.Lex.toLex_le_toLex.mpr (.inl (this.trans_le hle))

variable (clock) in
/-- A page of the scan that is pinned highest finishes it, or leaves fewer keys. -/
theorem enumeratePage_round (hnode : node.Decodes chain height)
    (hmax : ∀ hash, height hash ≤ u64Max) (hs : s.Pinned genesis height) {scan : Scan}
    {row : ScanRow} (hrow : row.Latest i (s.generation i) s scan.id) (hopen : row.finished = false)
    (hle : from_ ≤ row.finalizedHeight) {keys : List (List UInt8)}
    (hkeys : node.keys (chainHash row.atHash) = some keys) :
    ∃ t, (enumeratePage chain scan (chainHash row.atHash)).exec (node.await clock) s =
        some (.ok false, t) ∧
      t.Pinned genesis height ∧ s.SameWork i t ∧
      (t.Enumerated i ∨ ∃ rank < (keysAfter keys row.cursor).length,
        Enumerating node i from_ rank t) := by
  obtain ⟨-, hash, hat, hheight⟩ := hs.scans _ row hrow.get
  have hblock : row.finalizedHeight = height (chainHash row.atHash) := by
    rw [hheight, hat]
    rfl
  obtain ⟨t, next, hx, hpinned, hwork, hscans, hnext⟩ := enumeratePage_exec clock i
    hnode hs hrow.get hopen hblock (hmax _) hkeys
  have hlatest : (row.advance next).Latest i (t.generation i) t scan.id := by
    refine ⟨by rw [hscans, KeyedTable.get?_put_self], hrow.domain,
      hrow.generation.trans hwork.generation.symm, fun id' row' hget' hdomain' hgen' => ?_⟩
    rw [hscans, KeyedTable.get?_put] at hget'
    split at hget'
    · rename_i hid
      cases hget'
      exact hid ▸ le_rfl
    · exact hrow.le id' row' hget' hdomain' (hgen'.trans hwork.generation)
  refine ⟨t, hx, hpinned, hwork, ?_⟩
  rcases hnext with rfl | ⟨key, hkey, rfl⟩
  · exact .inl (Store.enumerated_iff.mpr ⟨_, _, hlatest, rfl⟩)
  · exact .inr ⟨_, keysAfter_lt hkey, scan.id, keys, _, hlatest, hopen, hle, hkeys, rfl⟩

variable (clock through) in
/-- **A chunk that finds a height to work from enumerates**, if the state of the block that
its scan is pinned to is served. -/
theorem replayInterval_round (hnode : node.Decodes chain height)
    (hmax : ∀ hash, height hash ≤ u64Max) (hchain : modelHash chain.genesis = genesis)
    (htarget : target.height = height target.hash) (hserved : (node.keys target.hash).isSome)
    (hs : s.Pinned genesis height) (hfrom : from_ ≤ target.height) (hopen : ¬s.Enumerated i)
    (hread : ∀ id, ∀ row : ScanRow, row.Latest i (s.generation i) s id →
      from_ ≤ row.finalizedHeight → (node.keys (chainHash row.atHash)).isSome) :
    ∃ t, (replayInterval chain i (s.generation i) target from_ through).exec (node.await clock) s =
        some (.ok (), t) ∧
      t.Pinned genesis height ∧ s.SameWork i t ∧
      (t.Enumerated i ∨ ∃ rank, Enumerating node i from_ rank t ∧
        ∀ rank', Enumerating node i from_ rank' s → rank < rank') := by
  by_cases hold : ∃ id, ∃ row : ScanRow, row.Latest i (s.generation i) s id ∧
    from_ ≤ row.finalizedHeight
  · -- the active scan goes on
    obtain ⟨id, row, hrow, hle⟩ := hold
    obtain ⟨keys, hkeys⟩ := Option.isSome_iff_exists.mp (hread id row hrow hle)
    have hunfinished : row.finished = false := by
      cases hfin : row.finished with
      | false => rfl
      | true => exact absurd (Store.enumerated_iff.mpr ⟨id, row, hrow, hfin⟩) hopen
    obtain ⟨scan, rfl, hat, hscan, hbegin⟩ := chunkScan_active chain target
      hs hmax hrow hle
    obtain ⟨t, hx, hpinned, hwork, hend⟩ := enumeratePage_round clock hnode hmax hs
      hrow hunfinished hle hkeys
    refine ⟨t, ?_, hpinned, hwork, hend.imp_right ?_⟩
    · rw [replayInterval_exec node clock through hscan (fun h => by cases h) hbegin, hat, Program.exec_bind, hx]
      rfl
    · rintro ⟨rank, hlt, hrank⟩
      refine ⟨rank, hrank, ?_⟩
      rintro _ ⟨id', keys', row', hrow', -, -, hkeys', rfl⟩
      obtain ⟨-, rfl⟩ := hrow.unique hrow'
      obtain rfl := Option.some.inj (hkeys.symm.trans hkeys')
      exact hlt
  · -- a new scan is pinned to the target
    obtain ⟨keys, hkeys⟩ := Option.isSome_iff_exists.mp hserved
    obtain ⟨scan, t₁, hat, hscan, hbegin, hs₁, hwork₁, hrow, hle⟩ := chunkScan_new
      hs hchain htarget hfrom fun id row hrow => by
        by_contra hlt
        exact hold ⟨id, row, hrow, not_lt.mp hlt⟩
    have hblock : chainHash scan.row.atHash = target.hash := by
      show chainHash scan.at_ = _
      rw [hat]
      rfl
    obtain ⟨t, hx, hpinned, hwork, hend⟩ := enumeratePage_round clock hnode hmax hs₁
      hrow rfl hle (hblock ▸ hkeys)
    refine ⟨t, ?_, hpinned, hwork₁.trans hwork, hend.imp_right ?_⟩
    · rw [replayInterval_exec node clock through hscan (fun h => by cases h) hbegin]
      rw [show chainHash scan.row.atHash = chainHash scan.at_ from rfl] at hx
      rw [Program.exec_bind, hx]
      rfl
    · rintro ⟨rank, -, hrank⟩
      refine ⟨rank, hrank, ?_⟩
      rintro _ ⟨id', -, row', hrow', -, hle', -⟩
      exact absurd ⟨id', row', hrow', hle'⟩ hold

end

/-! ### Repeated rounds -/

/-- A round of a domain against its target: a chunk that ends well.  An error ends the
connection, and with it the round. -/
def ChunkRound (chain : ChainReader) (node : WinnerNode) (targets : ℕ → Target)
    (clock : ℕ → Op → Timestamp) (i : Indexable) (k : ℕ) (s t : Store) : Prop :=
  (sparseChunk chain i (targets k)).exec (node.await (clock k)) s = some (.ok (), t)

/-- The targets of a node: blocks of the chain that rise, and whose state is served. -/
structure Served (node : WinnerNode) (height : ChainHash → ℕ) (targets : ℕ → Target) : Prop where
  heights : ∀ k, (targets k).height = height (targets k).hash
  rising : Monotone fun k => (targets k).height
  served : ∀ k, (node.keys (targets k).hash).isSome

section

variable {chain : ChainReader} {node : WinnerNode} {targets : ℕ → Target}
  {clock : ℕ → Op → Timestamp} {genesis : BlockHash} {height : ChainHash → ℕ} {i : Indexable}
  {s t : Store} {k from_ : ℕ}

theorem ScanRow.Latest.congr {row : ScanRow} {expected : ℕ} {id : ScanId}
    (h : row.Latest i expected s id) (hscans : t.scans = s.scans) : row.Latest i expected t id :=
  ⟨hscans ▸ h.get, h.domain, h.generation, hscans ▸ h.le⟩

/-- Whether a scan is exhausted only depends on the scans. -/
theorem Store.SameWork.enumerated (h : s.SameWork i t) (hscans : t.scans = s.scans) :
    t.Enumerated i ↔ s.Enumerated i := by
  rw [Store.enumerated_iff, Store.enumerated_iff, h.generation]
  constructor
  · rintro ⟨id, row, hrow, hfin⟩
    exact ⟨id, row, hrow.congr hscans.symm, hfin⟩
  · rintro ⟨id, row, hrow, hfin⟩
    exact ⟨id, row, hrow.congr hscans, hfin⟩

/-- A round with nothing to do only initializes the coverage. -/
theorem chunkRound_idle (hs : s.Pinned genesis height) (hmax : (targets k).height ≤ u64Max)
    (hidle : ∀ from_, ¬s.FirstAwaited i (targets k).height from_) :
    ChunkRound chain node targets clock i k s t ↔ t = s.initialized i := by
  unfold ChunkRound
  rcases sparseChunk_exec node (clock k) i chain hs hmax with
    ⟨-, hx⟩ | ⟨from_, through, hfirst, -⟩
  · rw [hx]
    constructor
    · intro h
      exact (Prod.mk.inj (Option.some.inj h)).2.symm
    · rintro rfl
      rfl
  · exact absurd hfirst (hidle from_)

variable (clock) in
/-- **A round that finds a height to work from enumerates**, if the state that its scan is
pinned to is served. -/
theorem chunkRound_works (hnode : node.Decodes chain height) (hmax : ∀ hash, height hash ≤ u64Max)
    (hchain : modelHash chain.genesis = genesis) (htargets : Served node height targets)
    (hs : s.Pinned genesis height) (hfirst : s.FirstAwaited i (targets k).height from_)
    (hopen : ¬s.Enumerated i)
    (hread : ∀ id, ∀ row : ScanRow, row.Latest i (s.generation i) s id →
      from_ ≤ row.finalizedHeight → (node.keys (chainHash row.atHash)).isSome) :
    ∃ t, ChunkRound chain node targets clock i k s t ∧
      t.Pinned genesis height ∧ s.SameWork i t ∧
      (t.Enumerated i ∨ ∃ rank, Enumerating node i from_ rank t ∧
        ∀ rank', Enumerating node i from_ rank' s → rank < rank') := by
  have hle : (targets k).height ≤ u64Max := htargets.heights k ▸ hmax _
  have hwork := s.initialized_sameWork i
  have hscans := s.initialized_scans i
  rcases sparseChunk_exec node (clock k) i chain hs hle with
    ⟨hnone, -⟩ | ⟨first, through, hfirst', hx⟩
  · exact absurd hfirst.1.2 (hnone from_ hfirst.1.1)
  obtain rfl := hfirst.unique hfirst'
  obtain ⟨t, ht, hpinned, hwork', hend⟩ := replayInterval_round (clock k)
    through hnode hmax hchain (htargets.heights k) (htargets.served k)
    (hs.initialized (i := i)) hfirst.1.1 (by rwa [hwork.enumerated hscans])
    fun id row hrow => hread id row (hwork.generation ▸ hrow.congr hscans.symm)
  rw [hwork.generation] at ht
  refine ⟨t, hx.trans ht, hpinned, hwork.trans hwork', hend.imp_right ?_⟩
  rintro ⟨rank, hrank, hlt⟩
  refine ⟨rank, hrank, ?_⟩
  rintro rank' ⟨id, keys, row, hrow, hrest⟩
  exact hlt rank' ⟨id, keys, row, hwork.generation.symm ▸ hrow.congr hscans, hrest⟩

/-- **A round fails when its scan is pinned to a block whose state is pruned.** -/
theorem chunkRound_blocked (hmax : ∀ hash, height hash ≤ u64Max)
    (htargets : Served node height targets) (hs : s.Pinned genesis height)
    (hfirst : s.FirstAwaited i (targets k).height from_) (hopen : ¬s.Enumerated i) {id : ScanId}
    {row : ScanRow} (hrow : row.Latest i (s.generation i) s id) (hle : from_ ≤ row.finalizedHeight)
    (hpruned : node.keys (chainHash row.atHash) = none) :
    ¬ChunkRound chain node targets clock i k s t := by
  unfold ChunkRound
  have htarget : (targets k).height ≤ u64Max := htargets.heights k ▸ hmax _
  have hwork := s.initialized_sameWork i
  have hscans := s.initialized_scans i
  have hunfinished : row.finished = false := by
    cases hfin : row.finished with
    | false => rfl
    | true => exact absurd (Store.enumerated_iff.mpr ⟨id, row, hrow, hfin⟩) hopen
  rcases sparseChunk_exec node (clock k) i chain hs htarget
    with ⟨hnone, -⟩ | ⟨first, through, hfirst', hx⟩
  · exact absurd hfirst.1.2 (hnone from_ hfirst.1.1)
  obtain rfl := hfirst.unique hfirst'
  have hrow' : row.Latest i ((s.initialized i).generation i) (s.initialized i) id :=
    hwork.generation.symm ▸ hrow.congr hscans
  obtain ⟨scan, rfl, hat, hscan, hbegin⟩ := chunkScan_active chain
    (targets k) hs.initialized hmax hrow' hle
  have hfail := enumeratePage_pruned (clock k) chain hrow'.get hunfinished hpruned
  have hinterval := replayInterval_exec node (clock k) through
    hscan (fun h => by cases h) hbegin
  rw [hx, ← hwork.generation, hinterval, hat, Program.exec_bind, hfail]
  intro h
  cases h

/-- A store that rounds without work have led to. -/
structure Store.Idled (genesis : BlockHash) (height : ChainHash → ℕ) (i : Indexable)
    (s t : Store) : Prop where
  pinned : t.Pinned genesis height
  work : s.SameWork i t
  scans : t.scans = s.scans

theorem Store.Idled.round (h : s.Idled genesis height i t) :
    s.Idled genesis height i (t.initialized i) :=
  ⟨h.pinned.initialized, h.work.trans (t.initialized_sameWork i),
    (t.initialized_scans i).trans h.scans⟩

variable (chain clock) in
/-- Before there is work, all rounds end well. -/
theorem rounds_idle (hmax : ∀ hash, height hash ≤ u64Max) (htargets : Served node height targets)
    (hs : s.Pinned genesis height) (n : ℕ)
    (hidle : ∀ k < n, ∀ from_, ¬s.FirstAwaited i (targets k).height from_) :
    ∃ t, Rounds (ChunkRound chain node targets clock i) s n t ∧ s.Idled genesis height i t := by
  induction n with
  | zero => exact ⟨s, .zero, hs, .refl s, rfl⟩
  | succ n ih =>
    obtain ⟨t, hrounds, ht⟩ := ih fun k hk => hidle k (Nat.lt_succ_of_lt hk)
    refine ⟨_, hrounds.succ ?_, ht.round⟩
    refine (chunkRound_idle ht.pinned (htargets.heights n ▸ hmax _) fun from_ hfirst => ?_).mpr rfl
    exact hidle n (Nat.lt_succ_self n) from_ (ht.work.firstAwaited.mp hfirst)

/-- **An enumeration whose block is served is finished after finitely many rounds.** -/
theorem rounds_enumerate (hnode : node.Decodes chain height)
    (hmax : ∀ hash, height hash ≤ u64Max) (hchain : modelHash chain.genesis = genesis)
    (htargets : Served node height targets) {n rank : ℕ}
    (hrounds : Rounds (ChunkRound chain node targets clock i) s n t)
    (ht : t.Pinned genesis height) (hfirst : t.FirstAwaited i (targets n).height from_)
    (hopen : ¬t.Enumerated i) (hrank : Enumerating node i from_ rank t) :
    ∃ n' t', Rounds (ChunkRound chain node targets clock i) s n' t' ∧ t'.Enumerated i := by
  refine Rounds.reach (I := fun rank n t => t.Pinned genesis height ∧
    t.FirstAwaited i (targets n).height from_ ∧ ¬t.Enumerated i ∧ Enumerating node i from_ rank t)
    ?_ hrounds ⟨ht, hfirst, hopen, hrank⟩
  rintro rank n t ⟨ht, hfirst, hopen, hrank⟩
  obtain ⟨u, hround, hu, hwork, hend⟩ := chunkRound_works clock hnode hmax hchain htargets
    ht hfirst hopen fun id row hrow _ => by
      obtain ⟨id', keys, row', hrow', -, -, hkeys, -⟩ := hrank
      obtain ⟨-, rfl⟩ := hrow.unique hrow'
      rw [hkeys]
      rfl
  refine ⟨u, hround, ?_⟩
  by_cases hdone : u.Enumerated i
  · exact .inl hdone
  · obtain ⟨rank', hrank', hlt⟩ := hend.resolve_left hdone
    refine .inr ⟨rank', hlt rank hrank, hu, ?_, hdone, hrank'⟩
    exact hwork.firstAwaited.mpr (hfirst.mono (htargets.rising (Nat.le_succ n)))

/-- **A winner domain finishes the enumeration it works on exactly when the block that it is
pinned to is served.**  From any reachable store on, rounds that all end well lead to an
exhausted scan exactly when the active scan is exhausted already, or there is a first height
to work from below some target and the active scan, if it reaches that height, is pinned to
a block whose state the node serves. -/
theorem stale_scan_wedges {pg : Bool} {cs : List Call} (hs : StoreRun pg genesis cs s)
    (hcs : ∀ c ∈ cs, c.op.Pins height) (hmax : ∀ hash, height hash ≤ u64Max)
    (hchain : modelHash chain.genesis = genesis) (hnode : node.Decodes chain height)
    (htargets : Served node height targets) :
    (∃ n t, Rounds (ChunkRound chain node targets clock i) s n t ∧ t.Enumerated i) ↔
      s.Enumerated i ∨ ∃ k from_, s.FirstAwaited i (targets k).height from_ ∧
        ∀ scan, activeScan i (s.generation i) s = some scan → from_ ≤ scan.finalizedHeight →
          (node.keys (chainHash scan.at_)).isSome := by
  have hs := hs.pinned hcs
  constructor
  · rintro ⟨n, t, hrounds, hdone⟩
    by_contra hcond
    rw [not_or] at hcond
    obtain ⟨hopen, hwedged⟩ := hcond
    -- every round is idle, as one with work would fail
    have hidled : s.Idled genesis height i t := by
      refine hrounds.invariant (I := fun _ t => s.Idled genesis height i t) ⟨hs, .refl s, rfl⟩ ?_
      intro k t u ht hround
      by_cases hwork : ∃ from_, s.FirstAwaited i (targets k).height from_
      · obtain ⟨from_, hfirst⟩ := hwork
        have hblocked : ∃ scan, activeScan i (s.generation i) s = some scan ∧
            from_ ≤ scan.finalizedHeight ∧ node.keys (chainHash scan.at_) = none := by
          by_contra hno
          refine hwedged ⟨k, from_, hfirst, fun scan hactive hle => ?_⟩
          by_contra hkeys
          exact hno ⟨scan, hactive, hle, by simpa using hkeys⟩
        obtain ⟨scan, hactive, hle, hpruned⟩ := hblocked
        obtain ⟨row, hrow, hscan⟩ := activeScan_eq_some.mp hactive
        rw [hscan] at hle hpruned
        have hrow : row.Latest i (t.generation i) t scan.id :=
          ht.work.generation.symm ▸ hrow.congr ht.scans
        exact absurd hround (chunkRound_blocked hmax htargets ht.pinned
          (ht.work.firstAwaited.mpr hfirst) (by rwa [ht.work.enumerated ht.scans]) hrow hle hpruned)
      · obtain rfl := (chunkRound_idle ht.pinned (htargets.heights k ▸ hmax _) fun from_ hfirst =>
          hwork ⟨from_, ht.work.firstAwaited.mp hfirst⟩).mp hround
        exact ht.round
    exact hopen ((hidled.work.enumerated hidled.scans).mp hdone)
  · intro hcond
    by_cases hopen : s.Enumerated i
    · exact ⟨0, s, .zero, hopen⟩
    obtain ⟨k, from_, hfirst, hread⟩ := hcond.resolve_left hopen
    -- the first round with work
    have hwork : ∃ k, ∃ from_, s.FirstAwaited i (targets k).height from_ := ⟨k, from_, hfirst⟩
    classical
    obtain ⟨from', hfirst'⟩ := Nat.find_spec hwork
    have hk : Nat.find hwork ≤ k := Nat.find_min' hwork ⟨from_, hfirst⟩
    obtain rfl : from' = from_ := (hfirst'.mono (htargets.rising hk)).unique hfirst
    obtain ⟨t, hrounds, ht⟩ := rounds_idle chain clock hmax htargets
      hs (Nat.find hwork) fun k hk from_ hfirst => Nat.find_min hwork hk ⟨from_, hfirst⟩
    obtain ⟨u, hround, hu, hsame, hend⟩ := chunkRound_works clock hnode hmax hchain
      htargets ht.pinned (ht.work.firstAwaited.mpr hfirst')
      (by rwa [ht.work.enumerated ht.scans]) fun id row hrow hle => by
        refine hread ⟨id, row.genesis, row.atHash, row.finalizedHeight, i, s.generation i⟩ ?_ hle
        rw [ht.work.generation] at hrow
        exact activeScan_eq_some.mpr ⟨row, hrow.congr ht.scans.symm, rfl⟩
    by_cases hdone : u.Enumerated i
    · exact ⟨_, u, hrounds.succ hround, hdone⟩
    · obtain ⟨rank, hrank, -⟩ := hend.resolve_left hdone
      refine rounds_enumerate hnode hmax hchain htargets (hrounds.succ hround) hu ?_ hdone hrank
      have hrise := htargets.rising (Nat.le_succ (Nat.find hwork))
      exact (ht.work.trans hsame).firstAwaited.mpr (hfirst'.mono hrise)

end

/-- A height for each block of the concrete runs: its first byte. -/
def firstByte (hash : ChainHash) : ℕ := (hash.bytes.headD 0).toNat

theorem firstByte_le (hash : ChainHash) : firstByte hash ≤ u64Max :=
  (Nat.le_of_lt_succ (UInt8.toNat_lt _)).trans (by decide)

/-- A node without winners, which has pruned the state of one block. -/
def forgetfulNode (pruned : ChainHash) : WinnerNode where
  keys at_ := if at_ = pruned then none else some []
  others _ := .error (.unavailable "")

theorem forgetfulNode_decodes (pruned : ChainHash) :
    (forgetfulNode pruned).Decodes pairReader firstByte := by
  intro at_ keys hkeys key hkey
  simp only [forgetfulNode] at hkeys
  split at hkeys
  · cases hkeys
  · cases hkeys
    cases hkey

/-- The block at height 5, again and again. -/
def fifthTarget (_ : ℕ) : Target := ⟨5, chainHash (.uniform 5)⟩

theorem fifthTarget_served {pruned : ChainHash} (h : chainHash (.uniform 5) ≠ pruned) :
    Served (forgetfulNode pruned) firstByte fifthTarget := by
  refine ⟨fun _ => rfl, monotone_const, fun k => ?_⟩
  show (if chainHash (.uniform 5) = pruned then none else some ([] : List (List UInt8))).isSome
  rw [if_neg h]
  rfl

/-- An enumeration that is pinned to the block at height 3. -/
def thirdScan : Scan :=
  ⟨scanId ⟨.winners, 1⟩ (.uniform 3), .uniform 1, .uniform 3, 3, .winners, 1⟩

/-- The store in which it was begun. -/
def thirdStore : Store :=
  ((Op.beginScan thirdScan).apply (.utc 0) (Store.bound false (.uniform 1))).2

theorem thirdStore_run : ∃ cs, StoreRun false (.uniform 1) cs thirdStore ∧
    ∀ c ∈ cs, c.op.Pins firstByte := by
  refine ⟨_, .snoc .nil (.call (.utc 0) (.beginScan thirdScan) _), fun c hc => ?_⟩
  obtain rfl := List.mem_singleton.mp hc
  exact ⟨rfl, chainHash (.uniform 3), rfl, rfl⟩

theorem thirdStore_first : thirdStore.FirstAwaited .winners (fifthTarget 0).height 0 := by
  refine ⟨⟨Nat.zero_le 5, ?_, rfl⟩, fun h _ => Nat.zero_le h⟩
  intro c hc
  cases hc

theorem thirdStore_active :
    activeScan .winners (thirdStore.generation .winners) thirdStore = some thirdScan := rfl

/-- When another block is pruned, the enumeration at height 3 is finished. -/
theorem stale_scan_wedges_served : ∃ n t, Rounds (ChunkRound pairReader
    (forgetfulNode (chainHash (.uniform 2))) fifthTarget (fun _ _ => .utc 0) .winners)
      thirdStore n t ∧ t.Enumerated .winners := by
  obtain ⟨cs, run, hcs⟩ := thirdStore_run
  refine (stale_scan_wedges run hcs firstByte_le rfl (forgetfulNode_decodes _)
    (fifthTarget_served (by decide))).mpr (.inr ⟨0, 0, thirdStore_first, ?_⟩)
  intro scan hactive _
  cases thirdStore_active.symm.trans hactive
  decide

/-- When the block at height 3 is pruned, every round fails: no scan of the domain is ever
finished, though the state of the target is served. -/
theorem stale_scan_wedges_forever : ∃ cs, StoreRun false (.uniform 1) cs thirdStore ∧
    (∀ c ∈ cs, c.op.Pins firstByte) ∧
    (∃ row, thirdStore.scans.get? thirdScan.id = some row ∧ row.domain = .winners ∧
      row.finished = false ∧
      (forgetfulNode (chainHash (.uniform 3))).keys (chainHash row.atHash) = none) ∧
    Served (forgetfulNode (chainHash (.uniform 3))) firstByte fifthTarget ∧
    ∀ clock, ¬∃ n t, Rounds (ChunkRound pairReader (forgetfulNode (chainHash (.uniform 3)))
      fifthTarget clock .winners) thirdStore n t ∧
        ∃ id row, t.scans.get? id = some row ∧ row.domain = .winners ∧ row.finished = true := by
  obtain ⟨cs, run, hcs⟩ := thirdStore_run
  have hserved : Served (forgetfulNode (chainHash (.uniform 3))) firstByte fifthTarget :=
    fifthTarget_served (by decide)
  refine ⟨cs, run, hcs, ⟨thirdScan.row, rfl, rfl, rfl, rfl⟩, hserved, ?_⟩
  rintro clock ⟨n, t, hrounds, id, row, hget, -, hfin⟩
  have hrows : ∀ id row, thirdStore.scans.get? id = some row → row = thirdScan.row := by
    intro id row hget
    exact (Prod.mk.inj (List.mem_singleton.mp (KeyedTable.get?_eq_some.mp hget))).2
  have hopen : ¬thirdStore.Enumerated .winners := by
    intro hdone
    obtain ⟨id, row, hrow, hfin⟩ := Store.enumerated_iff.mp hdone
    rw [hrows id row hrow.get] at hfin
    cases hfin
  obtain ⟨row', hrow', hscan⟩ := activeScan_eq_some.mp thirdStore_active
  obtain rfl : t = thirdStore := by
    refine hrounds.invariant (I := fun _ t => t = thirdStore) rfl ?_
    rintro k t u rfl hround
    obtain rfl := hrows _ row' hrow'.get
    exact absurd hround (chunkRound_blocked firstByte_le hserved (run.pinned hcs)
      thirdStore_first hopen hrow' (Nat.zero_le _) rfl)
  rw [hrows id row hget] at hfin
  cases hfin

end Dashboard

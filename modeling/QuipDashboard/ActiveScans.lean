/-
The scan that a domain works on.

The scans of a winner domain are each pinned to a block; the active one is the one that is
pinned highest.

* `activeScan_eq_some` — **the active scan is the one that is pinned highest**;
* `Store.Pinned` — what holds of every store whose scans chunks have begun, and
  `StoreRun.pinned`;
* `chunkScan_pins` — a chunk begins scans that are pinned to blocks of the chain.
-/
import QuipDashboard.Backfill
import QuipDashboard.Extremes
import QuipDashboard.PinnedScans
import Mathlib.Data.Prod.Lex
import Mathlib.Data.String.Basic

namespace Dashboard

/-! ### The active scan -/

/-- The order of `active_scan`. -/
def ScanRow.rank (id : ScanId) (row : ScanRow) : Lex (ℕ × String) := toLex (row.finalizedHeight, id)

/-- The scan of a domain generation that is pinned highest. -/
structure ScanRow.Latest (row : ScanRow) (i : Indexable) (expected : ℕ) (s : Store)
    (id : ScanId) : Prop where
  get : s.scans.get? id = some row
  domain : row.domain = i
  generation : row.generation = expected
  le : ∀ id' row', s.scans.get? id' = some row' → row'.domain = i → row'.generation = expected →
    row'.rank id' ≤ row.rank id

theorem laterScan_pick (a b : ScanId × ScanRow) :
    (if laterScan a b then b else a) = a ∧ b.2.rank b.1 ≤ a.2.rank a.1 ∨
      (if laterScan a b then b else a) = b ∧ a.2.rank a.1 ≤ b.2.rank b.1 := by
  have hlater : laterScan a b = true ↔ a.2.rank a.1 < b.2.rank b.1 := by
    rw [laterScan, ScanRow.rank, ScanRow.rank, Prod.Lex.toLex_lt_toLex]
    simp
  by_cases h : laterScan a b = true
  · rw [if_pos h]
    exact .inr ⟨rfl, (hlater.mp h).le⟩
  · rw [if_neg h]
    exact .inl ⟨rfl, not_lt.mp fun hlt => h (hlater.mpr hlt)⟩

/-- **The active scan is the one that is pinned highest.** -/
theorem activeScan_eq_some {i : Indexable} {expected : ℕ} {s : Store} {scan : Scan} :
    activeScan i expected s = some scan ↔ ∃ row : ScanRow, row.Latest i expected s scan.id ∧
      scan = ⟨scan.id, row.genesis, row.atHash, row.finalizedHeight, i, expected⟩ := by
  have hmem : ∀ e : ScanId × ScanRow,
      e ∈ s.scans.rows.filter (fun e => e.2.domain = i && e.2.generation = expected) ↔
        s.scans.get? e.1 = some e.2 ∧ e.2.domain = i ∧ e.2.generation = expected := by
    intro e
    rw [List.mem_filter, KeyedTable.get?_eq_some]
    simp
  unfold activeScan
  split
  · rename_i hnil
    constructor
    · intro h
      cases h
    · rintro ⟨row, hrow, -⟩
      have := (hmem (scan.id, row)).mpr ⟨hrow.get, hrow.domain, hrow.generation⟩
      rw [hnil] at this
      cases this
  · rename_i e rows hrows
    obtain ⟨hin, hle⟩ := Extremes.foldl_greatest (fun e : ScanId × ScanRow => e.2.rank e.1)
      laterScan_pick e rows
    generalize rows.foldl (fun a b => if laterScan a b then b else a) e = last at hin hle ⊢
    obtain ⟨id, row⟩ := last
    rw [← hrows] at hin hle
    obtain ⟨hget, hdomain, hgen⟩ := (hmem _).mp hin
    have hlatest : row.Latest i expected s id :=
      ⟨hget, hdomain, hgen, fun id' row' h₁ h₂ h₃ => hle (id', row') ((hmem _).mpr ⟨h₁, h₂, h₃⟩)⟩
    constructor
    · rintro ⟨rfl⟩
      exact ⟨row, hlatest, rfl⟩
    · rintro ⟨row', hrow', hscan⟩
      -- the ranks are those of the identifiers
      have heq := le_antisymm (hrow'.le _ _ hget hdomain hgen)
        (hlatest.le _ _ hrow'.get hrow'.domain hrow'.generation)
      obtain ⟨-, rfl⟩ := Prod.mk.inj (toLex_inj.mp heq)
      obtain rfl := Option.some.inj (hget.symm.trans hrow'.get)
      exact congrArg some hscan.symm

/-- A domain that has a scan has one that is pinned highest. -/
theorem exists_latest {i : Indexable} {expected : ℕ} {s : Store} {id : ScanId} {row : ScanRow}
    (hget : s.scans.get? id = some row) (hdomain : row.domain = i)
    (hgen : row.generation = expected) :
    ∃ id', ∃ row' : ScanRow, row'.Latest i expected s id' ∧
      row.finalizedHeight ≤ row'.finalizedHeight := by
  cases hactive : activeScan i expected s with
  | none =>
    unfold activeScan at hactive
    split at hactive
    · rename_i hnil
      have hmem : (id, row) ∈ s.scans.rows.filter
          fun e => e.2.domain = i && e.2.generation = expected :=
        List.mem_filter.mpr ⟨KeyedTable.get?_eq_some.mp hget, by simp [hdomain, hgen]⟩
      rw [hnil] at hmem
      cases hmem
    · cases hactive
  | some scan =>
    obtain ⟨latest, hlatest, -⟩ := activeScan_eq_some.mp hactive
    refine ⟨_, latest, hlatest, ?_⟩
    rcases Prod.Lex.toLex_le_toLex.mp (hlatest.le id row hget hdomain hgen) with hlt | ⟨heq, -⟩
    · exact hlt.le
    · exact heq.le

/-! ### Pinned scans -/

/-- A call that begins a scan names it as `sparse_chunk` does, and pins it to a block of
the chain; `height` is the height of a block. -/
def Op.Pins (height : ChainHash → ℕ) : Op → Prop
  | .beginScan scan =>
    scan.id = scanId ⟨scan.indexable, scan.expectedGeneration⟩ scan.at_ ∧
      ∃ hash, scan.at_ = modelHash hash ∧ scan.finalizedHeight = height hash
  | _ => True

/-- What every store keeps whose scans chunks have begun. -/
structure Store.Pinned (genesis : BlockHash) (height : ChainHash → ℕ) (s : Store) : Prop
    extends s.Kept genesis where
  successors : s.Successors
  named : s.NamedScans
  scans : ∀ id row, s.scans.get? id = some row → row.genesis = genesis ∧
    ∃ hash, row.atHash = modelHash hash ∧ row.finalizedHeight = height hash

/-- **A call that pins what it begins keeps the scans pinned.** -/
theorem Effect.pinned {now : Timestamp} {op : Op} {s s' : Store}
    {r : Except StoreError CommitResult} (h : Effect now op s r s') {genesis : BlockHash}
    {height : ChainHash → ℕ} (hop : op.Pins height) (hs : s.Pinned genesis height) :
    s'.Pinned genesis height := by
  refine ⟨h.kept hs.toKept, h.successors hs.successors, h.namedScans ?_ hs.named, ?_⟩
  · rintro scan rfl
    exact hop.1
  · intro id row hrow
    rcases h.scan_origin hrow with hold | ⟨old, next, hold, rfl⟩ | ⟨scan, rfl, hnet, -, rfl⟩
    · exact hs.scans id row hold
    · exact hs.scans id old hold
    · exact ⟨Option.some.inj (hnet.symm.trans hs.network), hop.2⟩

/-- **Every reachable store whose scans chunks have begun is pinned.** -/
theorem StoreRun.pinned {pg : Bool} {genesis : BlockHash} {cs : List Call} {s : Store}
    (h : StoreRun pg genesis cs s) {height : ChainHash → ℕ} (hcs : ∀ c ∈ cs, c.op.Pins height) :
    s.Pinned genesis height := by
  induction h with
  | nil =>
    have hempty : ∀ id, (Store.bound pg genesis).scans.get? id = none := KeyedTable.get?_empty
    refine ⟨StoreRun.kept .nil, StoreRun.successors .nil, fun id row hrow => ?_, fun id row hrow => ?_⟩
    · cases (hempty id).symm.trans hrow
    · cases (hempty id).symm.trans hrow
  | @snoc cs s s' c h hc ih =>
    refine hc.effect.2.2.pinned (hcs c (List.mem_cons_self ..)) (ih fun c' hc' => ?_)
    exact hcs c' (List.mem_cons_of_mem _ hc')

/-- **A chunk begins scans that are pinned to blocks of the chain.** -/
theorem chunkScan_pins {genesis : BlockHash} {height : ChainHash → ℕ} {s : Store}
    (hs : s.Pinned genesis height) (chain : ChainReader) (i : Indexable) (expected from_ : ℕ)
    {target : Target} (htarget : target.height = height target.hash) :
    (Op.beginScan (chunkScan chain i expected target from_ (activeScan i expected s))).Pins
      height := by
  unfold chunkScan
  cases hactive : (activeScan i expected s).filter _ with
  | none => exact ⟨rfl, target.hash, rfl, htarget⟩
  | some scan =>
    obtain ⟨row, hrow, hscan⟩ := activeScan_eq_some.mp (Option.filter_eq_some_iff.mp hactive).1
    obtain ⟨-, hash, hat, hheight⟩ := hs.scans _ row hrow.get
    have hid := hs.named _ row hrow.get
    rw [hrow.domain, hrow.generation] at hid
    rw [hscan]
    exact ⟨hid, hash, hat, hheight⟩

end Dashboard

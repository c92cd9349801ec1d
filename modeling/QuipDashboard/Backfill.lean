/-
Replaying the winners of a pinned scan.

The model of the sparse half of `indexer/backfill.rs`, over `winner_page` of
`chain/snapshots.rs`.

* `backfillBlock` — one replayed height: a chain error is noted, all others end the chunk;
* `enumeratePage` — one page of an enumeration that is pinned to a block; true when it was
  exhausted before;
* `replayWinners` — the loop over one page of listed winners, which cuts the range at each
  winner that stays uncovered;
* `sparseChunk` — one bounded chunk of a winner domain.

The token clock and the admission permit are left out: a chunk that is not admitted ends
there.
-/
import QuipDashboard.Indexer
import QuipDashboard.RetryableRange
import QuipDashboard.Uncovered
import QuipDashboard.Workers

namespace Dashboard

/-- `DecimalString::to_u64`, with the text of its error. -/
def indexerU64 (n : ℕ) : Ix ℕ :=
  if n ≤ u64Max then return n
  else .fail (.invalid ("decimal string " ++ n.repr ++ " does not fit in u64"))

/-! ### The enumeration -/

/-- `winner_page`. -/
def winnerPage (chain : ChainReader) (at_ : ChainHash) (cursor : Option WinnerCursor)
    (limit : ℕ) : Ix WinnerPage := do
  Program.ofExcept ((pageLimit limit).mapError .chain)
  if cursor.any fun c => c.at_ ≠ at_ then
    .fail (.chain (.invalid "winner cursor belongs to another snapshot"))
  else do
    let keys ← Ix.chain (.qblockKeys at_ (cursor.map WinnerCursor.key) limit)
    let heights ← Program.ofExcept ((keys.mapM chain.qblockHeight).mapError .chain)
    let exhausted := decide (keys.length < limit)
    return {
      at_ := at_
      keys := keys
      heights := heights
      continuation := if exhausted then none else keys.getLast?.map fun key => ⟨at_, key⟩
      exhausted := exhausted }

/-- `enumerate_page`, while the enumeration is not exhausted. -/
def appendPage (chain : ChainReader) (scan : Scan) (at_ : ChainHash)
    (cursor : Option (List UInt8)) : Ix Bool := do
  let page ← winnerPage chain at_ (cursor.map fun key => ⟨at_, key⟩) pageSize
  if page.at_ ≠ at_ ∨ (!page.exhausted ∧ page.continuation = none) ∨
      (page.exhausted ∧ page.continuation ≠ none) then
    .fail (.invalid "winner page has inconsistent pinned exhaustion")
  else do
    -- hash order: no numeric interval is complete until the enumeration is
    let result ← Ix.store (.appendScanPage scan.id cursor
      (page.continuation.map WinnerCursor.key) page.heights)
    match ← (checkResult result).attempt with
    | .ok () | .error .staleGeneration => return false
    | .error e => .fail e

/-- `enumerate_page`. -/
def enumeratePage (chain : ChainReader) (scan : Scan) (at_ : ChainHash) : Ix Bool := do
  match ← Ix.read fun s => .ok (scanProgress scan.id s) with
  | none => .fail (.invalid "persisted scan disappeared")
  | some progress =>
    if !progress.finished then appendPage chain scan at_ progress.cursor else return true

/-! ### The replay -/

/-- `finish_range`. -/
def finishRange (scan : Scan) (from_ through : ℕ) : Ix Unit := do
  let result ← Ix.store (.commitRange
    ⟨scan.genesis, scan.indexable, scan.expectedGeneration, from_, through, scan.id⟩)
  match ← (checkResult result).attempt with
  | .ok () | .error .staleGeneration => return
  | .error e => .fail e

/-- The match of `backfill_block` on the result of `process`. -/
def replayResult : Except IndexerError Unit → Ix Unit
  | .error .staleGeneration => return
  | .error (.chain e) => Ix.note (.error (.chain e))
  | .ok () => return
  | .error e => .fail e

/-- `backfill_block`. -/
def backfillBlock (chain : ChainReader) (height : ℕ) (target : Target) : Ix Unit := do
  replayResult (← (process chain height target .backfill).attempt)

/-- How far the loop of `sparse_chunk` got: the start of the open range, and the last
height of the page that it settled. -/
structure Cut where
  cursor : Option ℕ
  last : Option ℕ
  deriving DecidableEq

/-- The start of the open range after a winner: one that stays uncovered ends the range,
and the next one starts after it. -/
def cutAt (scan : Scan) (cursor : Option ℕ) (height : ℕ) (committed : Bool) : Ix (Option ℕ) :=
  if committed then return cursor
  else do
    match cursor with
    | some start => if start < height then finishRange scan start (height - 1)
    | none => pure ()
    return checkedAdd height 1

/-- The loop of `sparse_chunk`; none when the domain was reindexed meanwhile. -/
def replayWinners (chain : ChainReader) (domain : Indexable) (generation : ℕ) (scan : Scan)
    (at_ : ChainHash) (ceiling : ℕ) : List ℕ → Cut → Ix (Option Cut)
  | [], cut => return some cut
  | row :: rows, cut => do
    let height ← indexerU64 row
    if height > ceiling then return some { cut with last := some ceiling }
    else do
      let scanHeight ← indexerU64 scan.finalizedHeight
      backfillBlock chain height ⟨scanHeight, at_⟩
      let current ← Ix.read fun s => .ok (s.savedCoverage domain)
      if current.all fun c => c.gen ≠ generation then return none
      else do
        let cursor ← cutAt scan cut.cursor height (current.any fun c => c.contains height height)
        replayWinners chain domain generation scan at_ ceiling rows ⟨cursor, some height⟩

/-- The end of `sparse_chunk`: a full page proves only its own numeric prefix. -/
def finishChunk (scan : Scan) (ceiling count : ℕ) (cut : Cut) : Ix Unit :=
  match cut.cursor, if count < 16 then some ceiling else cut.last with
  | some start, some last => if start ≤ last then finishRange scan start last else return
  | _, _ => return

/-- `sparse_chunk`, once the enumeration is exhausted. -/
def replayRange (chain : ChainReader) (domain : Indexable) (generation : ℕ) (scan : Scan)
    (from_ through : ℕ) (at_ : ChainHash) : Ix Unit := do
  let scanHeight ← indexerU64 scan.finalizedHeight
  let ceiling := min scanHeight through
  let rows ← Ix.read fun s =>
    .ok (scanWinnersAfter scan.id (checkedSub from_ 1) 16 s)
  match ← replayWinners chain domain generation scan at_ ceiling rows ⟨some from_, none⟩ with
  | none => return
  | some cut => finishChunk scan ceiling rows.length cut

/-! ### The chunk -/

/-- The first retryable interval of some uncovered ranges. -/
def firstRetryable (domain : Indexable) (generation : ℕ) :
    List (ℕ × ℕ) → Ix (Option (ℕ × ℕ))
  | [] => return none
  | (first, last) :: ranges => do
    match ← Ix.read fun s => s.retryableRange domain generation first last with
    | some range => return some range
    | none => firstRetryable domain generation ranges

/-- The scan of a chunk: the active one if it reaches the interval, else a new one that is
pinned to the target. -/
def chunkScan (chain : ChainReader) (domain : Indexable) (generation : ℕ) (target : Target)
    (from_ : ℕ) (active : Option Scan) : Scan :=
  (active.filter fun s => s.finalizedHeight ≤ u64Max ∧ from_ ≤ s.finalizedHeight).getD
    ⟨scanId ⟨domain, generation⟩ (modelHash target.hash), modelHash chain.genesis,
      modelHash target.hash, target.height, domain, generation⟩

/-- `sparse_chunk`, on a retryable interval. -/
def replayInterval (chain : ChainReader) (domain : Indexable) (generation : ℕ)
    (target : Target) (from_ through : ℕ) : Ix Unit := do
  let active ← Ix.read fun s => .ok (activeScan domain generation s)
  let scan := chunkScan chain domain generation target from_ active
  match ← (checkResult (← Ix.store (.beginScan scan))).attempt with
  | .error .staleGeneration => return
  | _ => do
    let exhausted ← enumeratePage chain scan (chainHash scan.at_)
    if exhausted then replayRange chain domain generation scan from_ through (chainHash scan.at_)

/-- `sparse_chunk`. -/
def sparseChunk (chain : ChainReader) (domain : Indexable) (target : Target) : Ix Unit := do
  let generation ← Ix.read fun s => .ok (s.generation domain)
  checkResult (← Ix.store (.initializeCoverage domain generation 0))
  match ← Ix.read fun s => .ok (s.savedCoverage domain) with
  | none => return
  | some coverage => do
    match ← firstRetryable domain generation (coverage.uncovered target.height) with
    | none => return
    | some (from_, through) => replayInterval chain domain generation target from_ through

end Dashboard

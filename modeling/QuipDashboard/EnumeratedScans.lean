/-
What enumerations leave in the store.

Any number of `enumerate_page` tasks work on the scans of a store, each stopped anywhere or
not at all, between all other calls of the store; a page is appended as a whole or not at
all.

* `Effect.enumerated` — a page that is appended continues the pages of its scan;
* `EnumerationRun.enumerated` — **the winners of a stored scan are those of pages that were
  accepted one after the other, up to its cursor**;
* `snapshot_pagination` — **pagination lists each key once, and a finished scan holds what was
  enumerated.**
-/
import QuipDashboard.Enumerations
import QuipDashboard.PinnedScans
import QuipDashboard.SnapshotPages
import QuipDashboard.StaleScans
import QuipDashboard.Workers

namespace Dashboard

open CursorPaging

/-! ### Enumerations and their environment -/

section

variable (chain : ChainReader) (ks : KeySpace) (nodes : ChainNode → Prop)

/-- What an effect of an enumeration may answer, and what it makes of the store.  A store
call takes place as a whole or not at all, also when its answer is lost. -/
def EnumerationAnswer : {γ : Type} → Store → Await γ → γ → Store → Prop
  | _, s, .store op, r, s' => ∃ now, (r = (op.apply now s).1 ∧ s' = (op.apply now s).2) ∨
      (∃ message, r = .error (.database message)) ∧ (s' = s ∨ s' = (op.apply now s).2)
  | _, s, .chain q, r, s' => s' = s ∧ ∃ node, nodes node ∧ r = ChainNode.answer node ks q
  | _, s, .read f, r, s' => s' = s ∧ (r = f s ∨ ∃ message, r = .error (.database message))
  | _, s, _, _, s' => s' = s

/-- The identifier of a scan names its generation and its block. -/
def Scan.Named (scan : Scan) : Prop :=
  scan.id = scanId ⟨scan.indexable, scan.expectedGeneration⟩ scan.at_

/-- The task that works on a scan. -/
def Scan.enumeration (scan : Scan) : Ix Unit := do
  let _ ← enumeratePage chain scan (chainHash scan.at_)
  return ()

/-- All other calls; only `enumerate_page` appends pages. -/
def NoPageCall (s : Store) (c : Call) (s' : Store) : Prop :=
  Calls s c s' ∧ (∀ scan, c.op = .beginScan scan → scan.Named) ∧
    ∀ id expected next heights, c.op ≠ .appendScanPage id expected next heights

/-- An event of a run of enumerations. -/
abbrev EnumerationEvent := PoolEvent Await Store Scan Call

/-- The store and the enumerations at work. -/
abbrev Enumerations := Pool Await IndexerError Store Scan

/-- A run of enumerations from an empty store, interleaved with each other and with all other
calls. -/
def EnumerationRun (pg : Bool) (genesis : BlockHash) :
    List EnumerationEvent → Enumerations → Prop :=
  PoolRun (EnumerationAnswer ks nodes) (fun _ scan => scan.Named) (Scan.enumeration chain)
    NoPageCall (Store.bound pg genesis)

/-- A call appends a page that continues its cursor, at the block of its scan. -/
def Op.Continues (op : Op) : Prop :=
  ∀ id expected next heights, op = .appendScanPage id expected next heights →
    ∃ guard target page, id = scanId guard target ∧
      WinnerPage.Accepted chain (chainHash target) ks nodes pageSize
        (expected.map fun key => ⟨chainHash target, key⟩) page ∧
      next = page.continuation.map WinnerCursor.key ∧ heights = page.heights

/-- What an enumeration does: it leaves the store alone, or appends such a page. -/
def EnumerationGuarantee : {γ : Type} → Store → Await γ → γ → Store → Prop
  | _, _, .store op, _, _ => op.Continues chain ks nodes ∧ ∀ scan, op ≠ .beginScan scan
  | _, s, _, _, s' => s' = s

end

variable {chain : ChainReader} {ks : KeySpace} {nodes : ChainNode → Prop}

/-- `winner_page` returns a page that is accepted. -/
theorem winnerPage_safe {at_ : ChainHash} {cursor : Option WinnerCursor} {limit : ℕ} (s : Store) :
    (winnerPage chain at_ cursor limit).Safe (EnumerationAnswer ks nodes) (fun _ _ => True)
      (EnumerationGuarantee chain ks nodes) (fun
        | .ok page, _ => page.Accepted chain at_ ks nodes limit cursor
        | .error _, _ => True) s := by
  unfold winnerPage
  refine .ofExcept (fun u hlimit => ?_) fun _ _ => trivial
  have hlimit : pageLimit limit = .ok u := by
    cases hx : pageLimit limit with
    | error e =>
      rw [hx] at hlimit
      cases hlimit
    | ok u => rfl
  refine .ite (fun _ => trivial) fun hown => ?_
  refine .awaitOk (fun s₁ _ _ _ h => h.1) (fun s₁ _ keys s₂ h => ?_) fun _ _ _ _ _ => trivial
  obtain ⟨-, node, hnode, hkeys⟩ := h
  refine .ofExcept (fun heights hheights => ?_) fun _ _ => trivial
  have hheights : keys.mapM chain.qblockHeight = .ok heights := by
    cases hx : keys.mapM chain.qblockHeight with
    | error e =>
      rw [hx] at hheights
      cases hheights
    | ok hs =>
      rw [hx] at hheights
      exact congrArg _ (Except.ok.inj hheights)
  exact ⟨node, hnode, winnerPage_exec_ok hlimit hown hkeys.symm hheights⟩

/-- **An enumeration appends only pages that continue the cursor that it read.** -/
theorem enumeratePage_safe {scan : Scan} (hnamed : scan.Named) (s : Store) :
    (scan.enumeration chain).Safe (EnumerationAnswer ks nodes) (fun _ _ => True)
      (EnumerationGuarantee chain ks nodes) (fun _ _ => True) s := by
  refine .bind (.imp (Q := fun _ _ => True) ?_ ?_)
  · rintro (e | b) t -
    · trivial
    · trivial
  unfold enumeratePage
  refine .awaitOk (fun s₁ _ _ _ h => h.1) (fun s₁ _ progress s₂ _ => ?_) fun _ _ _ _ _ => trivial
  cases progress with
  | none => trivial
  | some progress =>
    refine .ite (fun _ => ?_) fun _ => trivial
    unfold appendPage
    refine .bind (.imp ?_ (winnerPage_safe s₂))
    rintro (e | page) t hpage
    · trivial
    refine .ite (fun _ => trivial) fun _ => ?_
    refine .awaitOk (fun s₃ _ _ _ _ => ⟨?_, fun scan h => by cases h⟩) (fun s₃ _ r s₄ _ => ?_)
      fun _ _ _ _ _ => trivial
    · rintro id expected next heights h
      cases h
      exact ⟨_, scan.at_, page, hnamed, hpage, rfl, rfl⟩
    · cases r with
      | applied | alreadyApplied | staleGeneration => trivial

/-! ### The pages of a scan -/

/-- The pages that a scan holds: accepted one after the other at its block, up to its
cursor, and their heights are its winners. -/
def ScanRow.Holds (chain : ChainReader) (ks : KeySpace) (nodes : ChainNode → Prop) (row : ScanRow)
    (winners : List ℕ) (pages : List WinnerPage) : Prop :=
  WinnerPages chain (chainHash row.atHash) ks nodes pageSize pages
      (row.cursor.map fun key => ⟨chainHash row.atHash, key⟩) row.finished ∧
    ∀ n, n ∈ winners ↔ n ∈ pages.flatMap WinnerPage.heights

/-- Every scan of a store holds such pages; a winner whose scan is gone is of an older
generation. -/
structure Store.Enumerates (chain : ChainReader) (ks : KeySpace) (nodes : ChainNode → Prop)
    (s : Store) : Prop where
  stamped : s.Stamped
  named : s.NamedScans
  rows : ∀ id row, s.scans.get? id = some row →
    ∃ pages, row.Holds chain ks nodes (s.winnerHeights id) pages
  winners : ∀ id n, n ∈ s.winnerHeights id → ∃ guard target, id = scanId guard target ∧
    guard.expected ≤ s.generation guard.indexable ∧
    (guard.expected = s.generation guard.indexable → ∃ row, s.scans.get? id = some row)

/-- What a call does to the scans: nothing, or one of these. -/
theorem Effect.scan_tables {now : Timestamp} {op : Op} {s s' : Store}
    {r : Except StoreError CommitResult} (h : Effect now op s r s') :
    (s'.scans = s.scans ∧ s'.scanWinners = s.scanWinners ∧ s'.generations = s.generations) ∨
    (∃ scan, op = .beginScan scan ∧ s.generation scan.indexable = scan.expectedGeneration ∧
      s.scans.get? scan.id = none ∧ s' = { s with scans := s.scans.put scan.id scan.row }) ∨
    (∃ id expected next heights row, op = .appendScanPage id expected next heights ∧
      row.cursor = expected ∧ Appends id next heights row s s') ∨
    ∃ is, Reindexed is s s' := by
  cases h with
  | unchanged | targeted | floored | initialized | polled | cutOver | recomputed =>
    exact .inl ⟨rfl, rfl, rfl⟩
  | began _ hcur hfresh => exact .inr (.inl ⟨_, rfl, hcur, hfresh, rfl⟩)
  | appended hcursor h => exact .inr (.inr (.inl ⟨_, _, _, _, _, rfl, hcursor, h⟩))
  | committed h =>
    obtain ⟨-, -, hgen, -, -, -, hscans, hwinners⟩ := h.frame
    exact .inl ⟨hscans, hwinners, hgen⟩
  | ranged h =>
    rw [h.frame]
    exact .inl ⟨rfl, rfl, rfl⟩
  | marked _ h =>
    rw [h.final]
    exact .inl ⟨rfl, rfl, rfl⟩
  | reindexed h => exact .inr (.inr (.inr ⟨_, h⟩))

/-- A page continues the pages that its scan holds. -/
theorem ScanRow.Holds.append {row : ScanRow} {winners winners' : List ℕ} {pages : List WinnerPage}
    (h : row.Holds chain ks nodes winners pages) (hopen : row.finished = false)
    {page : WinnerPage}
    (hpage : page.Accepted chain (chainHash row.atHash) ks nodes pageSize
      (row.cursor.map fun key => ⟨chainHash row.atHash, key⟩))
    (hwinners : ∀ n, n ∈ winners' ↔ n ∈ winners ∨ n ∈ page.heights) :
    (row.advance (page.continuation.map WinnerCursor.key)).Holds chain ks nodes winners'
      (pages ++ [page]) := by
  obtain ⟨hpages, hheights⟩ := h
  rw [hopen] at hpages
  refine ⟨?_, fun n => ?_⟩
  · have hnext : page.continuation =
        (page.continuation.map WinnerCursor.key).map fun key => ⟨chainHash row.atHash, key⟩ := by
      obtain ⟨node, -, hx⟩ := hpage
      obtain ⟨-, keys, -, hreads⟩ := winnerPage_ok hx
      rw [hreads.next]
      simp only [Option.map_map]
      rfl
    have hfin : (row.advance (page.continuation.map WinnerCursor.key)).finished =
        page.continuation.isNone := by
      rw [ScanRow.advance, hopen, Bool.or_false, Option.isNone_map]
    show Followed _ (WinnerPage.Accepted chain (chainHash row.atHash) ks nodes pageSize) _
      ((page.continuation.map WinnerCursor.key).map fun key => ⟨chainHash row.atHash, key⟩) _
    rw [hfin, ← hnext]
    exact hpages.page hpage
  · rw [hwinners, hheights, List.flatMap_append, List.mem_append, List.flatMap_singleton]

/-- **A call whose pages continue their scans keeps what scans hold.** -/
theorem Effect.enumerated {now : Timestamp} {op : Op} {s s' : Store}
    {r : Except StoreError CommitResult} (h : Effect now op s r s')
    (hbegin : ∀ scan, op = .beginScan scan → scan.Named) (hop : op.Continues chain ks nodes)
    (hs : s.Enumerates chain ks nodes) : s'.Enumerates chain ks nodes := by
  refine ⟨h.stamped hs.stamped, h.namedScans hbegin hs.named, ?_, ?_⟩
  · intro id row hrow
    rcases h.scan_tables with ⟨hscans, hwin, -⟩ | ⟨scan, rfl, hcur, hfresh, rfl⟩ |
      ⟨id', expected, next, heights, old, rfl, hcursor, happ⟩ | ⟨is, hre⟩
    · rw [hscans] at hrow
      rw [Store.winnerHeights, hwin]
      exact hs.rows id row hrow
    · rw [KeyedTable.get?_put] at hrow
      split at hrow
      · -- no winner is left under the identifier of a scan that begins
        rename_i hid
        cases hrow
        refine ⟨[], .start, fun n => ?_⟩
        refine ⟨fun hn => ?_, fun hn => by cases hn⟩
        obtain ⟨guard, target, hname, -, hstored⟩ := hs.winners id n hn
        have hguard := hid.symm.trans hname
        rw [hbegin scan rfl] at hguard
        obtain rfl := scanId_inj hguard
        obtain ⟨row, hrow⟩ := hstored hcur.symm
        rw [hid, hfresh] at hrow
        cases hrow
      · exact hs.rows id row hrow
    · obtain ⟨guard, target, page, hname, hpage, rfl, rfl⟩ := hop _ _ _ _ rfl
      have hwin : ∀ id n, n ∈ s'.winnerHeights id ↔
          n ∈ s.winnerHeights id ∨ id = id' ∧ n ∈ page.heights := by
        intro id n
        rw [Store.mem_winnerHeights, Store.mem_winnerHeights, happ.winners]
      rw [happ.final, KeyedTable.get?_put] at hrow
      split at hrow
      · rename_i hid
        cases hrow
        obtain ⟨pages, hpages⟩ := hs.rows id' old happ.get
        -- the page was read at the block of the scan
        have hat : target = old.atHash := by
          have hrow := hs.named id' old happ.get
          rw [hname] at hrow
          rw [scanId_inj hrow] at hrow
          exact BlockHash.eq_of_text (scanId_target hrow)
        rw [hat, ← hcursor] at hpage
        refine ⟨pages ++ [page], hpages.append happ.unfinished hpage fun n => ?_⟩
        rw [hwin, hid]
        simp
      · rename_i hid
        obtain ⟨pages, hpages, hheights⟩ := hs.rows id row hrow
        refine ⟨pages, hpages, fun n => ?_⟩
        rw [hwin, or_iff_left fun hn => hid hn.1]
        exact hheights n
    · obtain ⟨hrow, hi⟩ := (hre.scans id row).mp hrow
      obtain ⟨pages, hpages, hheights⟩ := hs.rows id row hrow
      refine ⟨pages, hpages, fun n => ?_⟩
      rw [Store.mem_winnerHeights, hre.scanWinners_eq id row hrow hi, ← Store.mem_winnerHeights]
      exact hheights n
  · intro id n hn
    have hkeep : ∀ {s₁ : Store}, n ∈ s.winnerHeights id → s₁.generations = s.generations →
        (∀ row, s.scans.get? id = some row → ∃ row', s₁.scans.get? id = some row') →
        ∃ guard target, id = scanId guard target ∧
          guard.expected ≤ s₁.generation guard.indexable ∧
          (guard.expected = s₁.generation guard.indexable →
            ∃ row, s₁.scans.get? id = some row) := by
      intro s₁ hn hgen hrows
      obtain ⟨guard, target, hname, hle, hstored⟩ := hs.winners id n hn
      have hsame : s₁.generation guard.indexable = s.generation guard.indexable := by
        rw [Store.generation, Store.generation, hgen]
      refine ⟨guard, target, hname, hsame ▸ hle, fun heq => ?_⟩
      obtain ⟨row, hrow⟩ := hstored (hsame ▸ heq)
      exact hrows row hrow
    rcases h.scan_tables with ⟨hscans, hwin, hgen⟩ | ⟨scan, rfl, hcur, hfresh, rfl⟩ |
      ⟨id', expected, next, heights, old, rfl, hcursor, happ⟩ | ⟨is, hre⟩
    · rw [Store.winnerHeights, hwin] at hn
      exact hkeep hn hgen fun row hrow => ⟨row, by rw [hscans, hrow]⟩
    · refine hkeep hn rfl fun row hrow => ?_
      rw [KeyedTable.get?_put]
      split
      · exact ⟨_, rfl⟩
      · exact ⟨row, hrow⟩
    · have hgen : s'.generations = s.generations := by rw [happ.final]
      have hput : ∀ row, s.scans.get? id = some row →
          ∃ row', s'.scans.get? id = some row' := by
        intro row hrow
        rw [happ.final, KeyedTable.get?_put]
        split
        · exact ⟨_, rfl⟩
        · exact ⟨row, hrow⟩
      rw [Store.mem_winnerHeights, happ.winners] at hn
      rcases hn with hn | ⟨rfl, -⟩
      · exact hkeep (Store.mem_winnerHeights.mpr hn) hgen hput
      · have hrow := hs.named _ old happ.get
        refine ⟨⟨old.domain, old.generation⟩, old.atHash, hrow, ?_, fun _ => hput old happ.get⟩
        rw [Store.generation, hgen]
        exact (hs.stamped.scans _ old happ.get).le
    · rw [Store.mem_winnerHeights] at hn
      have hn := Store.mem_winnerHeights.mpr (hre.scanWinners _ hn)
      obtain ⟨guard, target, hname, hle, hstored⟩ := hs.winners id n hn
      have hgen := hre.generation guard.indexable
      by_cases hi : guard.indexable ∈ is
      · rw [if_pos hi] at hgen
        exact ⟨guard, target, hname, by omega, fun heq => by omega⟩
      · rw [if_neg hi] at hgen
        refine ⟨guard, target, hname, hgen ▸ hle, fun heq => ?_⟩
        obtain ⟨row, hrow⟩ := hstored (hgen ▸ heq)
        refine ⟨row, (hre.scans id row).mpr ⟨hrow, ?_⟩⟩
        have hguard := hname.symm.trans (hs.named id row hrow)
        have := scanId_inj hguard
        rw [this] at hi
        exact hi

/-! ### Runs -/

theorem Store.bound_enumerates (pg : Bool) (genesis : BlockHash) :
    (Store.bound pg genesis).Enumerates chain ks nodes := by
  refine ⟨⟨?_, ?_, ?_⟩, ?_, ?_, ?_⟩
  · intro id row hrow
    cases hrow
  · intro k row hrow
    cases hrow
  · intro k row hrow
    cases hrow
  · intro id row hrow
    cases hrow
  · intro id row hrow
    cases hrow
  · intro id n hn
    cases hn

variable {pg : Bool} {genesis : BlockHash} {es : List EnumerationEvent} {π : Enumerations}

/-- **In every run of enumerations, each stored scan holds pages that were accepted one
after the other.** -/
theorem EnumerationRun.enumerated (h : EnumerationRun chain ks nodes pg genesis es π) :
    π.state.Enumerates chain ks nodes := by
  -- the effects of the pool are those of its own programs
  have hguarantee : ∀ {es : List EnumerationEvent} {π : Enumerations},
      EnumerationRun chain ks nodes pg genesis es π →
      ∀ {γ : Type} {scan : Scan} {pre post : Store} {e : Await γ} {b : γ},
        PoolEvent.effect scan pre e b post ∈ es →
        EnumerationGuarantee chain ks nodes pre e b post := by
    intro es π h γ scan pre post e b he
    refine PoolRun.guarantee (R := fun _ _ => True)
      (G := fun _ => EnumerationGuarantee chain ks nodes) (fun _ => trivial) (fun _ _ => trivial)
      (fun _ => trivial) (fun _ => trivial) ?_ h he
    intro s scan hs
    exact enumeratePage_safe hs s
  have heffect : ∀ {γ : Type} {s s' : Store} {e : Await γ} {b : γ}, s.Enumerates chain ks nodes →
      EnumerationAnswer ks nodes s e b s' → EnumerationGuarantee chain ks nodes s e b s' →
      s'.Enumerates chain ks nodes := by
    intro γ s s' e b hs ha hg
    cases e with
    | store op =>
      obtain ⟨hop, hbegin⟩ := hg
      have hnew := fun now => (apply_effect now op s).enumerated
        (fun scan h => absurd h (hbegin scan)) hop hs
      obtain ⟨now, ⟨-, rfl⟩ | ⟨-, rfl | rfl⟩⟩ := ha
      · exact hnew now
      · exact hs
      · exact hnew now
    | chain | read | note | refresh =>
      obtain rfl : s' = s := hg
      exact hs
  induction h with
  | nil => exact Store.bound_enumerates pg genesis
  | snoc hrun hstep ih =>
    have hrun' := History.Run.snoc hrun hstep
    cases hstep with
    | start | drop => exact ih
    | effect _ ha | interrupted _ ha =>
      exact heffect ih ha (hguarantee hrun' (List.mem_cons_self ..))
    | @other c s hc =>
      obtain ⟨hcall, hbegin, hno⟩ := hc
      exact hcall.effect.2.2.enumerated hbegin
        (fun id expected next heights h => absurd h (hno id expected next heights)) ih

/-- **Snapshot pagination is exact.**  With a faithful node, following the continuations of
`winner_page` or `participant_page` lists each key once and stops; whatever nodes answer,
the keys of accepted pages ascend; and in every run of enumerations a finished scan holds
exactly the heights of pages that were accepted one after the other to the end, which are
those of its block's keys when the nodes are faithful. -/
theorem snapshot_pagination (chain : ChainReader) (ks : KeySpace) :
    (∀ at_ (pinned : PinnedKeys chain ks) (node : ChainNode) (limit rounds : ℕ),
      1 ≤ limit → limit ≤ 1000 → node.ServesKeys ks at_ pinned.keys →
      pinned.keys.length < rounds →
      ∃ pages, (follow WinnerPage.continuation (fun cursor => winnerPage chain at_ cursor limit)
          rounds none).exec (node.await ks) () = some (.ok pages, ()) ∧
        pages.flatMap WinnerPage.keys = pinned.keys ∧ pinned.keys.Nodup ∧
        pages.flatMap WinnerPage.heights = pinned.keys.map pinned.height) ∧
    (∀ at_ qblock (pinned : PinnedParticipants qblock) (node : ChainNode) (limit rounds : ℕ),
      1 ≤ limit → limit ≤ 1000 → node.ServesParticipants at_ qblock pinned.rows →
      pinned.rows.length < rounds →
      ∃ pages, (follow ParticipantPage.continuation
          (fun cursor => participantPage chain at_ qblock cursor limit) rounds none).exec
            (node.await ks) () = some (.ok pages, ()) ∧
        pages.flatMap ParticipantPage.participants =
          pinned.rows.map (fun row => row.participant chain) ∧
        (pinned.rows.map ParticipantRow.account).Nodup) ∧
    (∀ at_ nodes limit pages cursor fin,
      WinnerPages chain at_ ks nodes limit pages cursor fin →
      (pages.flatMap WinnerPage.keys).Pairwise (· < ·)) ∧
    (∀ at_ nodes qblock limit pages cursor fin,
      ParticipantPages chain at_ ks nodes qblock limit pages cursor fin →
      ∃ accounts : List (List UInt8), accounts.Pairwise (· < ·) ∧
        (∀ a ∈ accounts, a.length = 32) ∧
        (pages.flatMap ParticipantPage.participants).map QBlockParticipant.account =
          accounts.map chain.accountText) ∧
    ∀ nodes pg genesis es π, EnumerationRun chain ks nodes pg genesis es π →
      ∀ id row, π.state.scans.get? id = some row → row.finished = true →
        (∃ pages, WinnerPages chain (chainHash row.atHash) ks nodes pageSize pages none true ∧
          ∀ n, n ∈ π.state.winnerHeights id ↔ n ∈ pages.flatMap WinnerPage.heights) ∧
        ∀ pinned : PinnedKeys chain ks,
          (∀ node, nodes node → node.ServesKeys ks (chainHash row.atHash) pinned.keys) →
          ∀ n, n ∈ π.state.winnerHeights id ↔ n ∈ pinned.keys.map pinned.height := by
  refine ⟨?_, ?_, fun _ _ _ _ _ _ h => winnerPages_ascending h,
    fun _ _ _ _ _ _ _ h => participantPages_ascending h, ?_⟩
  · intro at_ pinned node limit rounds hpos hle hnode hrounds
    obtain ⟨pages, hx, hkeys, hheights⟩ :=
      winnerPages_exact chain hpos hle hnode hrounds
    refine ⟨pages, hx, hkeys, pinned.ascending.imp ?_, hheights⟩
    rintro a b h rfl
    exact List.lt_irrefl _ h
  · intro at_ qblock pinned node limit rounds hpos hle hnode hrounds
    obtain ⟨pages, hx, hps⟩ :=
      participantPages_exact ks chain hpos hle hnode hrounds
    refine ⟨pages, hx, hps, List.pairwise_map.mpr (pinned.ascending.imp ?_)⟩
    intro a b h heq
    rw [heq] at h
    exact List.lt_irrefl _ h
  · intro nodes pg genesis es π h id row hrow hfin
    obtain ⟨pages, hpages, hheights⟩ := h.enumerated.rows id row hrow
    rw [hfin] at hpages
    have hnone : row.cursor.map (fun key => (⟨chainHash row.atHash, key⟩ : WinnerCursor)) =
        none := hpages.ended
    rw [hnone] at hpages
    refine ⟨⟨pages, hpages, hheights⟩, fun pinned hnodes n => ?_⟩
    have hfaithful : WinnerPages chain (chainHash row.atHash) ks
        (·.ServesKeys ks (chainHash row.atHash) pinned.keys) pageSize pages none true := by
      refine hpages.imp ?_
      rintro cursor page ⟨node, hnode, hx⟩
      exact ⟨node, hnodes node hnode, hx⟩
    rw [hheights, (winnerPages_complete hfaithful).2]

/-- A reader of keys that end in their height. -/
def lastByteReader : ChainReader :=
  { pairReader with qblockHeight := fun key => .ok (key.getLastD 0).toNat }

/-- Two winner keys under the prefix 7. -/
def twoKeySpace : KeySpace where
  hexDecode text :=
    if text = "0701" then .ok [7, 1] else if text = "0702" then .ok [7, 2]
    else .error "Odd number of digits"
  storagePrefix := [7]

def twoKeys : PinnedKeys lastByteReader twoKeySpace where
  keys := [[7, 1], [7, 2]]
  height key := (key.getLastD 0).toNat
  ascending := by decide
  under := by decide
  decodes := fun _ _ => rfl

/-- The node that serves them. -/
def twoKeyNode : ChainNode where
  keysPaged _ start limit := .ok (.array (((rest id twoKeys.keys start).take limit).map fun key =>
    .string (if key = [7, 1] then "0x0701" else "0x0702")))
  participants _ _ _ _ := .ok []
  others _ := .error (.unavailable "")

theorem twoKeyNode_serves (at_ : ChainHash) :
    twoKeyNode.ServesKeys twoKeySpace at_ twoKeys.keys := by
  intro start limit
  refine ⟨_, rfl, List.forall₂_map_left_iff.mpr (List.forall₂_same.mpr fun key hkey => ?_)⟩
  have hmem : key ∈ twoKeys.keys := mem_of_mem_rest (List.mem_of_mem_take hkey)
  rcases List.mem_cons.mp hmem with rfl | hmem
  · rfl
  · obtain rfl := List.mem_singleton.mp hmem
    rfl

/-- The answers to an enumeration that runs alone. -/
def twoKeyAnswer : {γ : Type} → Await γ → Store → γ × Store
  | _, .store op, s => op.apply (.utc 0) s
  | _, .read f, s => (f s, s)
  | _, .chain q, s => (twoKeyNode.answer twoKeySpace q, s)
  | _, .note _, s => ((), s)
  | _, .refresh _, s => (.ok (), s)

theorem twoKeyAnswer_allowed {γ : Type} (s : Store) (e : Await γ) :
    EnumerationAnswer twoKeySpace (· = twoKeyNode) s e (twoKeyAnswer e s).1 (twoKeyAnswer e s).2 := by
  cases e with
  | store op => exact ⟨.utc 0, .inl ⟨rfl, rfl⟩⟩
  | read f => exact ⟨rfl, .inl rfl⟩
  | chain q => exact ⟨rfl, _, rfl, rfl⟩
  | note | refresh => rfl

/-- Two keys in pages of two, though the first page does not tell that it is the last; and a
scan whose enumeration ended. -/
theorem snapshot_pagination_twoKeys :
    (∃ pages : List WinnerPage, pages.flatMap WinnerPage.keys = [[7, 1], [7, 2]] ∧
      pages.flatMap WinnerPage.heights = [1, 2]) ∧
    ∃ es π row, EnumerationRun lastByteReader twoKeySpace (· = twoKeyNode) false (.uniform 1) es π ∧
      π.state.scans.get? thirdScan.id = some row ∧ row.finished = true ∧
      ∀ n, n ∈ π.state.winnerHeights thirdScan.id ↔ n ∈ [1, 2] := by
  obtain ⟨hwinners, -, -, -, hruns⟩ := snapshot_pagination lastByteReader twoKeySpace
  refine ⟨?_, ?_⟩
  · obtain ⟨pages, -, hkeys, -, hheights⟩ := hwinners (chainHash (.uniform 3)) twoKeys twoKeyNode 2 3
      (by decide) (by decide) (twoKeyNode_serves _) (by decide)
    exact ⟨pages, hkeys, hheights⟩
  · have hbegun : EnumerationRun lastByteReader twoKeySpace (· = twoKeyNode) false (.uniform 1)
        [.other _] ⟨thirdStore, fun _ => none⟩ :=
      History.Run.snoc .nil (.other ⟨.call (.utc 0) (.beginScan thirdScan) _, ?_, ?_⟩)
    · obtain ⟨s, hx, row, hrow, hfin⟩ : ∃ s, (Scan.enumeration lastByteReader thirdScan).exec
          twoKeyAnswer thirdStore = some (.ok (), s) ∧
            ∃ row, s.scans.get? thirdScan.id = some row ∧ row.finished = true :=
        ⟨_, rfl, _, rfl, rfl⟩
      obtain ⟨es, π, hrun, rfl⟩ := PoolRun.alone twoKeyAnswer_allowed hbegun
        (show thirdScan.Named from rfl) hx
      refine ⟨_, π, row, hrun, hrow, hfin, ?_⟩
      refine (hruns _ _ _ _ _ hrun _ row hrow hfin).2 twoKeys ?_
      rintro node rfl
      exact twoKeyNode_serves _
    · rintro scan h
      cases h
      rfl
    · intro id expected next heights h
      cases h

end Dashboard

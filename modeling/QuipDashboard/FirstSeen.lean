/-
The reconstruction of first-seen times.

The model of `reconstruct_first_seen` in `indexer/reconcile.rs`.  For each descriptor
with a stored row it bisects the heights up to the finalized head for the first block
whose state holds the descriptor, and offers the time of that block to
`backfill_node_descriptor_first_seen`.  The heights are `u64`; an operation on them
that leaves the type is `overflow`.

* `search_exec` — the search asks the heights that bisection asks, and no operation
  leaves its type;
* `backfill_first_seen_min` — the store keeps the earlier one of the stored and the
  offered time;
* `reconstructEntry_exec` — the work on one descriptor;
* `first_seen_is_least` — **the search ends at the least height at which the
  descriptor is present, and storing its time makes the row's the minimum**.
-/
import QuipDashboard.Bisection
import QuipDashboard.CanonicalCoverage
import QuipDashboard.Registry

namespace Dashboard

/-! ### `reconstruct_first_seen` -/

/-- What the function waits for; a page of descriptors is one effect. -/
inductive FirstSeenAwait : Type → Type 1
  | finalizedHead : FirstSeenAwait (Except ChainError ChainHash)
  | header (at_ : ChainHash) : FirstSeenAwait (Except ChainError Header)
  | descriptorPage (at_ : ChainHash) (cursor : Option WinnerCursor) :
      FirstSeenAwait (Except ChainError (List DescriptorEntry × Option WinnerCursor))
  | blockHash (height : ℕ) : FirstSeenAwait (Except ChainError (Option ChainHash))
  | descriptorPresent (hash : ChainHash) (account : List UInt8) :
      FirstSeenAwait (Except ChainError Bool)
  | timestamp (hash : ChainHash) : FirstSeenAwait (Except ChainError UInt64)
  /-- `get_node_descriptor(..).await?.is_some()`. -/
  | hasNodeDescriptor (accountId : String) : FirstSeenAwait (Except StoreError Bool)
  | backfillFirstSeen (accountId : String) (timestamp : UInt64) :
      FirstSeenAwait (Except StoreError Unit)
  | yieldNow : FirstSeenAwait Unit

/-- How the function can fail: with an error, or in its own arithmetic. -/
inductive FirstSeenFailure where
  | indexer (e : IndexerError)
  | overflow

/-- A part of `reconstruct_first_seen`. -/
abbrev FirstSeen := Program FirstSeenAwait FirstSeenFailure

namespace FirstSeen

variable {β : Type}

def chain (e : FirstSeenAwait (Except ChainError β)) : FirstSeen β :=
  .awaitOk (fun e => .indexer (.chain e)) e

def store (e : FirstSeenAwait (Except StoreError β)) : FirstSeen β :=
  .awaitOk (fun e => .indexer (.store e)) e

def invalid (message : String) : FirstSeen β := .fail (.indexer (.invalid message))

end FirstSeen

theorem checkedAdd_eq {x y z : ℕ} (h : checkedAdd x y = some z) : z = x + y := by
  unfold checkedAdd at h
  split at h
  · exact (Option.some.inj h).symm
  · cases h

/-- `low + (high - low) / 2` on `u64`. -/
def searchMiddle (low high : ℕ) : Option ℕ :=
  (checkedSub high low).bind fun distance => checkedAdd low (distance / 2)

theorem searchMiddle_eq {low high middle : ℕ} (h : searchMiddle low high = some middle) :
    middle = Bisection.middle low high := by
  unfold searchMiddle checkedSub at h
  split at h
  · exact checkedAdd_eq h
  · cases h

/-- `block_hash(..).await?.ok_or_else(..)?`. -/
def FirstSeen.blockHashAt (message : String) (height : ℕ) : FirstSeen ChainHash := do
  match ← FirstSeen.chain (.blockHash height) with
  | none => FirstSeen.invalid message
  | some hash => return hash

/-- `while low < high`: the height at which the loop ends. -/
def searchFirstSeen (account : List UInt8) (low high : ℕ) : FirstSeen ℕ :=
  if _ : low < high then
    match _ : searchMiddle low high with
    | none => .fail .overflow
    | some middle => do
      let hash ← FirstSeen.blockHashAt "descriptor history block hash missing" middle
      let present ← FirstSeen.chain (.descriptorPresent hash account)
      if present then searchFirstSeen account low middle
      else
        match _ : checkedAdd middle 1 with
        | none => .fail .overflow
        | some next => searchFirstSeen account next high
  else return low
termination_by high - low
decreasing_by
  · have hmiddle := searchMiddle_eq ‹searchMiddle low high = some middle›
    have := Bisection.middle_lt ‹low < high›
    omega
  · have hmiddle := searchMiddle_eq ‹searchMiddle low high = some middle›
    have hlow : low ≤ Bisection.middle low high := Bisection.low_le_middle
    have hnext := checkedAdd_eq ‹checkedAdd middle 1 = some next›
    omega

/-- The body of `for entry in entries`: whether the entry was processed. -/
def reconstructEntry (height : ℕ) (entry : DescriptorEntry) : FirstSeen Bool := do
  let stored ← FirstSeen.store (.hasNodeDescriptor entry.accountId)
  if stored then do
    let low ← searchFirstSeen entry.account 1 height
    let hash ← FirstSeen.blockHashAt "first descriptor block hash missing" low
    let timestamp ← FirstSeen.chain (.timestamp hash)
    FirstSeen.store (.backfillFirstSeen entry.accountId timestamp)
    return true
  else return false

/-- `for entry in entries`, with the count of processed ones. -/
def reconstructEntries (height : ℕ) : List DescriptorEntry → ℕ → FirstSeen ℕ
  | [], processed => return processed
  | entry :: entries, processed => do
    let done ← reconstructEntry height entry
    if done then
      match checkedAdd processed 1 with
      | none => FirstSeen.invalid "descriptor count overflow"
      | some processed => do
        Program.await .yieldNow
        reconstructEntries height entries processed
    else reconstructEntries height entries processed

/-- The loop over the pages, whose number is bounded here. -/
def reconstructPages (at_ : ChainHash) (height : ℕ) :
    ℕ → Option WinnerCursor → ℕ → FirstSeen ℕ
  | 0, _, _ => .pending
  | rounds + 1, cursor, processed => do
    let (entries, next) ← FirstSeen.chain (.descriptorPage at_ cursor)
    let processed ← reconstructEntries height entries processed
    if next = none then return processed
    else reconstructPages at_ height rounds next processed

/-- `reconstruct_first_seen`. -/
def reconstructFirstSeen (rounds : ℕ) : FirstSeen ℕ := do
  let at_ ← FirstSeen.chain .finalizedHead
  let header ← FirstSeen.chain (.header at_)
  let height ← Program.ofExcept (header.height.mapError fun e => .indexer (.chain e))
  if height = 0 then return 0
  else reconstructPages at_ height rounds none 0

/-! ### A node with an archive -/

/-- A node that answers from one chain: the hash and the time of each height, which
accounts have a descriptor in the state of each height, and its pages of descriptors. -/
structure ArchiveNode where
  head : ℕ
  hashOf : ℕ → ChainHash
  heightOf : ChainHash → ℕ
  heightOf_hashOf : ∀ height ≤ head, heightOf (hashOf height) = height
  present : List UInt8 → ℕ → Bool
  timeOf : ℕ → UInt64
  page : Option WinnerCursor → List DescriptorEntry × Option WinnerCursor

/-- The store, and the heights that the function has asked for. -/
structure ReconstructState where
  store : NodeStore
  asked : List ℕ

/-- What the node and the store answer. -/
def ArchiveNode.answer (node : ArchiveNode) (c : TextCast) :
    {γ : Type} → FirstSeenAwait γ → ReconstructState → γ × ReconstructState
  | _, .finalizedHead, s => (.ok (node.hashOf node.head), s)
  | _, .header at_, s => (.ok ⟨node.hashOf (node.heightOf at_ - 1), .ok (node.heightOf at_)⟩, s)
  | _, .descriptorPage _ cursor, s => (.ok (node.page cursor), s)
  | _, .blockHash height, s =>
    (.ok (some (node.hashOf height)), { s with asked := s.asked ++ [height] })
  | _, .descriptorPresent hash account, s => (.ok (node.present account (node.heightOf hash)), s)
  | _, .timestamp hash, s => (.ok (node.timeOf (node.heightOf hash)), s)
  | _, .hasNodeDescriptor accountId, s =>
    (s.store.store.requireBound.map fun _ => (s.store.nodeDescriptors.get? accountId).isSome, s)
  | _, .backfillFirstSeen accountId timestamp, s =>
    let written := backfillNodeDescriptorFirstSeen c accountId timestamp s.store
    (written.1, { s with store := written.2 })
  | _, .yieldNow, s => ((), s)

variable {node : ArchiveNode} {c : TextCast}

/-! ### The search -/

theorem searchMiddle_some {low high : ℕ} (hlt : low < high) (hhigh : high ≤ u64Max) :
    searchMiddle low high = some (Bisection.middle low high) := by
  have hmiddle := Bisection.middle_lt hlt
  rw [searchMiddle, checkedSub_of_le hlt.le, Option.bind_some]
  exact checkedAdd_of_le (hmiddle.le.trans hhigh)

/-- One turn of the loop: within `u64` neither the middle nor its successor overflows. -/
theorem searchFirstSeen_of_lt {low high : ℕ} (account : List UInt8) (hlt : low < high)
    (hhigh : high ≤ u64Max) :
    searchFirstSeen account low high = (do
      let hash ← FirstSeen.blockHashAt "descriptor history block hash missing"
        (Bisection.middle low high)
      let present ← FirstSeen.chain (.descriptorPresent hash account)
      if present then searchFirstSeen account low (Bisection.middle low high)
      else searchFirstSeen account (Bisection.middle low high + 1) high) := by
  have hmiddle := searchMiddle_some hlt hhigh
  have hnext : checkedAdd (Bisection.middle low high) 1 = some (Bisection.middle low high + 1) :=
    checkedAdd_of_le ((Bisection.middle_lt hlt).trans_le hhigh)
  rw [searchFirstSeen, dif_pos hlt]
  split
  · rename_i hnone
    rw [hmiddle] at hnone
    cases hnone
  · rename_i middle hm
    obtain rfl := searchMiddle_eq hm
    refine congrArg _ (funext fun hash => congrArg _ (funext fun present => ?_))
    split
    · rfl
    · split
      · rename_i hnone
        rw [hnext] at hnone
        cases hnone
      · rename_i next hn
        rw [checkedAdd_eq hn]

theorem searchFirstSeen_of_not_lt {low high : ℕ} (account : List UInt8) (h : ¬low < high) :
    searchFirstSeen account low high = .done low := by
  rw [searchFirstSeen, dif_neg h]
  rfl

/-- An effect of the store that succeeds. -/
theorem exec_store_ok {α β : Type} {e : FirstSeenAwait (Except StoreError α)} {a : α}
    {s s' : ReconstructState} (h : node.answer c e s = (.ok a, s')) (f : α → FirstSeen β) :
    (FirstSeen.store e >>= f).exec (node.answer c) s = (f a).exec (node.answer c) s' := by
  have hcall : ∀ next : Except StoreError α → FirstSeen α,
      (Program.call e next >>= f).exec (node.answer c) s =
        (next (node.answer c e s).1 >>= f).exec (node.answer c) (node.answer c e s).2 :=
    fun _ => rfl
  rw [FirstSeen.store, Program.awaitOk, hcall, h]
  rfl

theorem exec_blockHashAt {β : Type} (message : String) (height : ℕ) (f : ChainHash → FirstSeen β)
    (s : ReconstructState) :
    (FirstSeen.blockHashAt message height >>= f).exec (node.answer c) s =
      (f (node.hashOf height)).exec (node.answer c)
        { s with asked := s.asked ++ [height] } := rfl

theorem exec_descriptorPresent {β : Type} (account : List UInt8) {height : ℕ}
    (hheight : height ≤ node.head) (f : Bool → FirstSeen β) (s : ReconstructState) :
    (FirstSeen.chain (.descriptorPresent (node.hashOf height) account) >>= f).exec
        (node.answer c) s = (f (node.present account height)).exec (node.answer c) s := by
  have hstep : (FirstSeen.chain (.descriptorPresent (node.hashOf height) account) >>= f).exec
      (node.answer c) s =
        (f (node.present account (node.heightOf (node.hashOf height)))).exec (node.answer c) s := rfl
  rw [hstep, node.heightOf_hashOf height hheight]

theorem exec_timestamp {β : Type} {height : ℕ} (hheight : height ≤ node.head)
    (f : UInt64 → FirstSeen β) (s : ReconstructState) :
    (FirstSeen.chain (.timestamp (node.hashOf height)) >>= f).exec (node.answer c) s =
      (f (node.timeOf height)).exec (node.answer c) s := by
  have hstep : (FirstSeen.chain (.timestamp (node.hashOf height)) >>= f).exec (node.answer c) s =
      (f (node.timeOf (node.heightOf (node.hashOf height)))).exec (node.answer c) s := rfl
  rw [hstep, node.heightOf_hashOf height hheight]

/-- The write, whatever it answers, and the end of the body. -/
theorem exec_backfill {accountId : String} {timestamp : UInt64} {s t : NodeStore}
    {r : Except StoreError Unit}
    (h : backfillNodeDescriptorFirstSeen c accountId timestamp s = (r, t)) (asked : List ℕ) :
    (FirstSeen.store (.backfillFirstSeen accountId timestamp) >>= fun _ => return true :
      FirstSeen Bool).exec (node.answer c) ⟨s, asked⟩ =
      some ((r.map fun _ => true).mapError fun e => .indexer (.store e), ⟨t, asked⟩) := by
  have hanswer : node.answer c (.backfillFirstSeen accountId timestamp) ⟨s, asked⟩ =
      (r, ⟨t, asked⟩) := by
    rw [ArchiveNode.answer, h]
  have hcall : ∀ next : Except StoreError Unit → FirstSeen Unit,
      (Program.call (.backfillFirstSeen accountId timestamp) next >>= fun _ => return true :
        FirstSeen Bool).exec (node.answer c) ⟨s, asked⟩ =
        (next (node.answer c (.backfillFirstSeen accountId timestamp) ⟨s, asked⟩).1 >>= fun _ =>
          return true : FirstSeen Bool).exec (node.answer c)
            (node.answer c (.backfillFirstSeen accountId timestamp) ⟨s, asked⟩).2 := fun _ => rfl
  rw [FirstSeen.store, Program.awaitOk, hcall, hanswer]
  cases r <;> rfl

/-- **The search asks what bisection asks and ends where it ends**; no operation leaves
`u64`. -/
theorem search_exec (account : List UInt8) (hhead : node.head ≤ u64Max) {low high : ℕ}
    (hhigh : high ≤ node.head) (s : ReconstructState) :
    (searchFirstSeen account low high).exec (node.answer c) s =
      some (.ok (Bisection.least (node.present account) low high),
        { s with asked := s.asked ++ Bisection.probes (node.present account) low high }) := by
  induction low, high using Bisection.least.induct (node.present account) generalizing s with
  | case1 low high hlt hp ih =>
    have hmiddle := (Bisection.middle_lt hlt).le.trans hhigh
    have hrest := ih hmiddle
      { s with asked := s.asked ++ [Bisection.middle low high] }
    rw [List.append_assoc] at hrest
    rw [searchFirstSeen_of_lt account hlt (hhigh.trans hhead), exec_blockHashAt,
      exec_descriptorPresent account hmiddle, if_pos hp, Bisection.least, if_pos hlt, if_pos hp, Bisection.probes, if_pos hlt, if_pos hp]
    exact hrest
  | case2 low high hlt hp ih =>
    have hmiddle := (Bisection.middle_lt hlt).le.trans hhigh
    have hrest := ih hhigh { s with asked := s.asked ++ [Bisection.middle low high] }
    rw [List.append_assoc] at hrest
    rw [searchFirstSeen_of_lt account hlt (hhigh.trans hhead), exec_blockHashAt,
      exec_descriptorPresent account hmiddle, if_neg hp, Bisection.least, if_pos hlt, if_neg hp, Bisection.probes, if_pos hlt, if_neg hp]
    exact hrest
  | case3 low high hlt =>
    rw [searchFirstSeen_of_not_lt account hlt, Bisection.least, if_neg hlt, Bisection.probes,
      if_neg hlt, List.append_nil]
    rfl

/-! ### The store -/

/-- `CAST(… AS BIGINT)` of a text above `i64::MAX` is `i64::MAX`, as the engine documents. -/
def TextCast.Saturates (c : TextCast) : Prop := ∀ n, i64Max < n → c.cast n = i64Max

/-- The time that a stored one is compared with is the offered one, or no stored one is
later. -/
theorem min_storeBigint {pg : Bool} (hc : c.Saturates) {timestamp : UInt64} {time first : ℤ}
    (h : storeBigint pg c timestamp = .ok time) (hfirst : first ≤ i64Max) :
    min first time = min first timestamp.toNat := by
  unfold storeBigint at h
  split at h
  · cases h
    rfl
  · rename_i hbig
    have hlt : i64Max < timestamp.toNat := not_le.mp hbig
    have hfirst' : first ≤ (timestamp.toNat : ℤ) := by omega
    split at h
    · cases h
    · cases h
      rw [hc _ hlt, min_eq_left hfirst, min_eq_left hfirst']

/-- A write of a found time goes through on a bound store whose column takes the time: any on
Turso, one that is a `BIGINT` on Postgres. -/
def TakesTime (s : NodeStore) (timestamp : UInt64) : Prop :=
  s.store.genesis.isSome ∧ (s.store.pg = false ∨ timestamp.toNat ≤ i64Max)

theorem takesTime_iff {s : NodeStore} {timestamp : UInt64} :
    TakesTime s timestamp ↔ (∃ genesis, s.store.requireBound = .ok genesis) ∧
      ∃ time, storeBigint s.store.pg c timestamp = .ok time := by
  have hbound : s.store.genesis.isSome ↔ ∃ genesis, s.store.requireBound = .ok genesis := by
    unfold Store.requireBound
    cases s.store.genesis <;> simp
  have htime : s.store.pg = false ∨ timestamp.toNat ≤ i64Max ↔
      ∃ time, storeBigint s.store.pg c timestamp = .ok time := by
    unfold storeBigint
    by_cases hle : timestamp.toNat ≤ i64Max
    · simp [hle]
    · cases s.store.pg <;> simp [hle]
  exact and_congr hbound htime

/-- **Storing a time keeps the earlier one**, where the column takes it; a write that fails
leaves the store as it is. -/
theorem backfill_first_seen_min (hc : c.Saturates) (s : NodeStore) (accountId : String)
    (timestamp : UInt64) {row : NodeDescriptorRow}
    (hrow : s.nodeDescriptors.get? accountId = some row)
    (hfirst : row.firstBlockTimestamp ≤ i64Max) :
    (TakesTime s timestamp → (backfillNodeDescriptorFirstSeen c accountId timestamp s).1 = .ok () ∧
      (backfillNodeDescriptorFirstSeen c accountId timestamp s).2.nodeDescriptors.get? accountId =
        some { row with firstBlockTimestamp := min row.firstBlockTimestamp timestamp.toNat }) ∧
    (¬TakesTime s timestamp →
      ∃ e, backfillNodeDescriptorFirstSeen c accountId timestamp s = (.error e, s)) := by
  constructor
  · intro htakes
    obtain ⟨⟨genesis, hbound⟩, time, htime⟩ := (takesTime_iff (c := c)).mp htakes
    have hx : backfillNodeDescriptorFirstSeen c accountId timestamp s =
        (.ok (), { s with nodeDescriptors := lowerFirstSeen s.nodeDescriptors accountId time }) :=
      Tx.write_ok.mpr (.inl (Tx.exec_readM_bind_ok.mpr
        ⟨genesis, hbound, Tx.exec_readM_bind_ok.mpr ⟨time, htime, rfl⟩⟩))
    rw [hx]
    refine ⟨rfl, ?_⟩
    show (lowerFirstSeen s.nodeDescriptors accountId time).get? accountId = _
    rw [get?_lowered, hrow, Option.map_some, min_storeBigint hc htime hfirst]
  · intro hnot
    rcases hx : backfillNodeDescriptorFirstSeen c accountId timestamp s with ⟨r, s'⟩
    cases r with
    | error e => exact ⟨e, by rw [Tx.write_error hx]⟩
    | ok u =>
      obtain ⟨hbound, time, htime, -⟩ := backfillNodeDescriptorFirstSeen_bound hx
      exact absurd ((takesTime_iff (c := c)).mpr ⟨hbound, time, htime⟩) hnot

/-! ### The least height -/

/-- The presence of an account's descriptor up to the head: once there it stays, and the
head has it. -/
structure Archived (node : ArchiveNode) (account : List UInt8) : Prop where
  head_pos : 0 < node.head
  head_le : node.head ≤ u64Max
  stays : ∀ m n, 1 ≤ m → m ≤ n → n ≤ node.head →
    node.present account m = true → node.present account n = true
  at_head : node.present account node.head = true

/-- The least height from 1 on at which the descriptor is present. -/
def FirstAt (node : ArchiveNode) (account : List UInt8) (height : ℕ) : Prop :=
  IsLeast {h | 1 ≤ h ∧ node.present account h = true} height

theorem least_firstAt {account : List UInt8} (h : Archived node account) :
    FirstAt node account (Bisection.least (node.present account) 1 node.head) := by
  obtain ⟨hlow, -⟩ := @Bisection.least_mem (node.present account) 1 node.head h.head_pos
  refine ⟨⟨hlow, Bisection.least_holds h.head_pos h.at_head⟩, ?_⟩
  rintro n ⟨hn, hpresent⟩
  by_contra hlt
  rw [Bisection.not_of_lt_least h.stays hn (not_le.mp hlt)] at hpresent
  cases hpresent

/-- The work on one descriptor that has a row: the heights that are asked for are heights
of the chain, and the time of the least one at which the descriptor is present is offered
to the store. -/
theorem reconstructEntry_exec {entry : DescriptorEntry} (h : Archived node entry.account)
    (s : ReconstructState) {genesis : BlockHash} (hbound : s.store.store.requireBound = .ok genesis)
    (hrow : (s.store.nodeDescriptors.get? entry.accountId).isSome) :
    ∃ low asked, FirstAt node entry.account low ∧ (∀ n ∈ asked, 1 ≤ n ∧ n ≤ node.head) ∧
      (reconstructEntry node.head entry).exec (node.answer c) s =
        some (((backfillNodeDescriptorFirstSeen c entry.accountId (node.timeOf low) s.store).1.map
            fun _ => true).mapError fun e => .indexer (.store e),
          ⟨(backfillNodeDescriptorFirstSeen c entry.accountId (node.timeOf low) s.store).2,
            s.asked ++ asked⟩) := by
  have hleast := least_firstAt h
  obtain ⟨hlow, hle⟩ := @Bisection.least_mem (node.present entry.account) 1 node.head h.head_pos
  refine ⟨_, Bisection.probes (node.present entry.account) 1 node.head ++
    [Bisection.least (node.present entry.account) 1 node.head], hleast, ?_, ?_⟩
  · intro n hn
    rcases List.mem_append.mp hn with hn | hn
    · obtain ⟨hn, hlt⟩ := Bisection.mem_probes hn
      exact ⟨hn, hlt.le⟩
    · rw [List.mem_singleton.mp hn]
      exact ⟨hlow, hle⟩
  · have hanswer : node.answer c (.hasNodeDescriptor entry.accountId) s = (.ok true, s) := by
      rw [ArchiveNode.answer, hbound, hrow]
      rfl
    rw [reconstructEntry, exec_store_ok hanswer, if_pos rfl, Program.exec_bind,
      search_exec entry.account h.head_le le_rfl, Option.bind_some]
    dsimp only
    rw [exec_blockHashAt, exec_timestamp hle]
    rcases hwritten : backfillNodeDescriptorFirstSeen c entry.accountId
      (node.timeOf (Bisection.least (node.present entry.account) 1 node.head)) s.store with ⟨r, t⟩
    rw [exec_backfill hwritten, List.append_assoc]

/-- **The search ends at the least height, and the store keeps the earlier time.**  For
every head above zero and every presence that stays once it is there and is there at the
head, the search runs to its end without leaving `u64`, asks for heights of the chain
only, and ends at the least height at which the descriptor is present; and for every
stored time, a write of any found time that the column takes succeeds and leaves the minimum
of the two in the row, and any other one fails and leaves the store as it is. -/
theorem first_seen_is_least (hc : c.Saturates) {account : List UInt8} (h : Archived node account) :
    (∃ low, FirstAt node account low ∧
      ∀ s, ∃ asked, (∀ n ∈ asked, 1 ≤ n ∧ n ≤ node.head) ∧
        (searchFirstSeen account 1 node.head).exec (node.answer c) s =
          some (.ok low, { s with asked := s.asked ++ asked })) ∧
    ∀ (s : NodeStore) (accountId : String) (timestamp : UInt64) (row : NodeDescriptorRow),
      s.nodeDescriptors.get? accountId = some row → row.firstBlockTimestamp ≤ i64Max →
      (TakesTime s timestamp →
        (backfillNodeDescriptorFirstSeen c accountId timestamp s).1 = .ok () ∧
        (backfillNodeDescriptorFirstSeen c accountId timestamp s).2.nodeDescriptors.get?
          accountId =
            some { row with firstBlockTimestamp := min row.firstBlockTimestamp timestamp.toNat }) ∧
      (¬TakesTime s timestamp →
        ∃ e, backfillNodeDescriptorFirstSeen c accountId timestamp s = (.error e, s)) := by
  refine ⟨⟨_, least_firstAt h, fun s => ⟨_, fun n hn => ?_, search_exec account h.head_le le_rfl s⟩⟩, ?_⟩
  · obtain ⟨hlow, hlt⟩ := Bisection.mem_probes hn
    exact ⟨hlow, hlt.le⟩
  · intro s accountId timestamp row hrow hfirst
    exact backfill_first_seen_min hc s accountId timestamp hrow hfirst

/-- A chain of six blocks above the genesis, on which the descriptor appears in the
fourth. -/
def fourthBlock : ArchiveNode where
  head := 6
  hashOf height := ⟨UInt8.ofNat height :: List.replicate 31 0, rfl⟩
  heightOf hash := (hash.bytes.headD 0).toNat
  heightOf_hashOf := by decide
  present _ height := decide (4 ≤ height)
  timeOf height := UInt64.ofNat (6000 * height)
  page _ := ([], none)

theorem fourthBlock_archived (account : List UInt8) : Archived fourthBlock account where
  head_pos := by decide
  head_le := by decide
  stays _ _ _ hmn _ hm := decide_eq_true ((of_decide_eq_true hm).trans hmn)
  at_head := rfl

theorem first_seen_is_least_fourthBlock : FirstAt fourthBlock [] 4 := by
  obtain ⟨⟨low, hlow, -⟩, -⟩ :=
    @first_seen_is_least fourthBlock saturatingCast (fun _ _ => rfl) [] (fourthBlock_archived [])
  have hfour : FirstAt fourthBlock [] 4 := ⟨⟨by omega, rfl⟩, fun n hn => of_decide_eq_true hn.2⟩
  rw [hlow.unique hfour] at hlow
  exact hlow

end Dashboard

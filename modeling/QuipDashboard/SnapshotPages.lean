/-
Pages of a pinned snapshot.

The model of `key_page` of `chain/snapshots.rs`, and what `winner_page` and
`participant_page` make of a node's answers.  What other crates decide is a parameter: the
storage prefix, `hex::decode`, and the height inside a key.

* `keyPage_ok` — the keys of an accepted key page ascend after its start;
* `winnerPages_ascending`, `participantPages_ascending` — **no key is listed twice by pages
  that were accepted one after the other, whatever the node answers**;
* `winnerPages_exact`, `participantPages_exact` — **with a faithful node, following the
  continuations lists each key once and stops.**
-/
import QuipDashboard.CursorPaging
import QuipDashboard.Indexer
import QuipDashboard.Backfill
import QuipDashboard.JsonDocument
import QuipDashboard.Participation

namespace Dashboard

open CursorPaging

instance bytesStrictOrder : IsStrictOrder (List UInt8) (· < ·) where
  irrefl := List.lt_irrefl
  trans _ _ _ := List.lt_trans

/-! ### Key pages -/

/-- What `key_page` takes from other crates: `hex::decode`, and the storage prefix of
`QuantumPow.QBlocks`. -/
structure KeySpace where
  hexDecode : String → Except String (List UInt8)
  storagePrefix : List UInt8

/-- `unhex`. -/
def KeySpace.unhex (ks : KeySpace) (text : String) : Except ChainError (List UInt8) :=
  if ['0', 'x'].isPrefixOf text.toList then
    (ks.hexDecode (String.ofList (text.toList.drop 2))).mapError .invalid
  else .error (.invalid "hex value lacks 0x")

/-- One value of a key page. -/
def KeySpace.key (ks : KeySpace) : JsonValue → Except ChainError (List UInt8)
  | .string text => ks.unhex text
  | _ => .error (.invalid "storage key is not hex")

/-- The loop of `key_page`. -/
def KeySpace.pageKeys (ks : KeySpace) :
    Option (List UInt8) → List JsonValue → Except ChainError (List (List UInt8))
  | _, [] => .ok []
  | previous, value :: values => do
    let key ← ks.key value
    if ¬ks.storagePrefix.isPrefixOf key ∨ previous.any fun p => ¬p < key then
      .error (.invalid "storage page is unordered or failed to advance")
    else do
      let keys ← ks.pageKeys (some key) values
      .ok (key :: keys)

/-- `key_page` of `QuantumPow.QBlocks`, by the response of `state_getKeysPaged`. -/
def KeySpace.keyPage (ks : KeySpace) (start : Option (List UInt8)) (limit : ℕ)
    (response : Except ChainError JsonValue) : Except ChainError (List (List UInt8)) :=
  if start.any fun k => ¬ks.storagePrefix.isPrefixOf k then
    .error (.invalid "cursor has incorrect storage prefix")
  else
    match response with
    | .error e => .error e
    | .ok (.array values) =>
      if values.length > limit then .error (.invalid "RPC exceeded requested key limit")
      else ks.pageKeys start values
    | .ok _ => .error (.invalid "key page is not an array")

variable {ks : KeySpace} {limit : ℕ}

theorem pageKeys_ok {start : Option (List UInt8)} {values : List JsonValue}
    {keys : List (List UInt8)} (h : ks.pageKeys start values = .ok keys) :
    keys.length = values.length ∧ keys.Pairwise (· < ·) ∧ ∀ k ∈ keys, ∀ c ∈ start, c < k := by
  induction values generalizing start keys with
  | nil =>
    cases h
    exact ⟨rfl, .nil, fun k hk => by cases hk⟩
  | cons value values ih =>
    obtain ⟨key, -, h⟩ := Except.bind_eq_ok.mp h
    split at h
    · cases h
    rename_i hkey
    obtain ⟨keys, hkeys, h⟩ := Except.bind_eq_ok.mp h
    cases h
    obtain ⟨hlen, hasc, hafter⟩ := ih hkeys
    have hstart : ∀ c ∈ start, c < key := by
      intro c hc
      rw [Option.mem_def] at hc
      rw [hc] at hkey
      simpa using (not_or.mp hkey).2
    refine ⟨congrArg Nat.succ hlen, List.pairwise_cons.mpr ⟨fun k hk => hafter k hk key rfl, hasc⟩,
      List.forall_mem_cons.mpr ⟨hstart, fun k hk c hc => ?_⟩⟩
    exact List.lt_trans (hstart c hc) (hafter k hk key rfl)

/-- **The keys of an accepted page ascend after its start.** -/
theorem keyPage_ok {start : Option (List UInt8)} {response : Except ChainError JsonValue}
    {keys : List (List UInt8)} (h : ks.keyPage start limit response = .ok keys) :
    Step id limit start keys := by
  unfold KeySpace.keyPage at h
  split at h
  · cases h
  split at h
  · cases h
  · split at h
    · cases h
    rename_i hlen
    obtain ⟨hkeys, hasc, hafter⟩ := pageKeys_ok h
    exact ⟨by omega, hasc, hafter⟩
  · cases h

/-- The values are the hexadecimal texts of the keys. -/
def KeySpace.Texts (ks : KeySpace) (values : List JsonValue) (keys : List (List UInt8)) : Prop :=
  List.Forall₂ (fun value key => ks.key value = .ok key) values keys

/-- The texts of ascending keys under the prefix are accepted. -/
theorem pageKeys_texts {start : Option (List UInt8)} {values : List JsonValue}
    {keys : List (List UInt8)} (h : ks.Texts values keys) (hasc : keys.Pairwise (· < ·))
    (hunder : ∀ k ∈ keys, ks.storagePrefix <+: k) (hafter : ∀ k ∈ keys, ∀ c ∈ start, c < k) :
    ks.pageKeys start values = .ok keys := by
  induction h generalizing start with
  | nil => rfl
  | @cons value key values keys hkey htexts ih =>
    obtain ⟨hle, hasc⟩ := List.pairwise_cons.mp hasc
    have hrest := @ih (some key) hasc (fun k hk => hunder k (List.mem_cons_of_mem _ hk))
      fun k hk c hc => Option.mem_some_iff.mp hc ▸ hle k hk
    have hfirst : ¬(¬ks.storagePrefix.isPrefixOf key ∨ start.any fun p => ¬p < key) := by
      rw [not_or, not_not, List.isPrefixOf_iff_prefix]
      refine ⟨hunder key (List.mem_cons_self ..), ?_⟩
      cases start with
      | none => simp
      | some c => simpa using hafter key (List.mem_cons_self ..) c rfl
    rw [KeySpace.pageKeys, hkey]
    show (if _ then _ else _) = _
    rw [if_neg hfirst, hrest]
    rfl

/-! ### Nodes -/

/-- The answers of a node: to `state_getKeysPaged`, to the runtime call
`participants_by_qblock`, and to all else. -/
structure ChainNode where
  keysPaged : ChainHash → Option (List UInt8) → ℕ → Except ChainError JsonValue
  participants : ChainHash → ℕ → Option (List UInt8) → ℕ → Except ChainError (List ParticipantRow)
  others : {β : Type} → Query β → Except ChainError β

/-- What the reader makes of a node's answer. -/
def ChainNode.answer (node : ChainNode) (ks : KeySpace) : {β : Type} → Query β → Except ChainError β
  | _, .qblockKeys at_ start limit => ks.keyPage start limit (node.keysPaged at_ start limit)
  | _, .participantsByQblock at_ qblock start limit => node.participants at_ qblock start limit
  | _, q => node.others q

/-- A client of the reader alone. -/
def ChainNode.await (node : ChainNode) (ks : KeySpace) : {γ : Type} → Await γ → Unit → γ × Unit
  | _, .chain q, u => (node.answer ks q, u)
  | _, .store _, u => (.error .incompleteScan, u)
  | _, .read _, u => (.error .incompleteScan, u)
  | _, .note _, u => ((), u)
  | _, .refresh _, u => (.ok (), u)

theorem ChainNode.exec_chain (node : ChainNode) {β α : Type} {q : Query β} (k : β → Ix α) :
    (Ix.chain q >>= k).exec (node.await ks) () =
      match node.answer ks q with
      | .ok b => (k b).exec (node.await ks) ()
      | .error e => some (.error (.chain e), ()) := by
  show (Program.call (Await.chain q) _).exec _ () = _
  rw [Program.exec]
  simp only [ChainNode.await]
  cases node.answer ks q with
  | ok b => rfl
  | error e => rfl

theorem exec_ofExcept_chain {σ β α : Type} {answer : {γ : Type} → Await γ → σ → γ × σ} {s : σ}
    (r : Except ChainError β) (k : β → Ix α) :
    (Program.ofExcept (r.mapError IndexerError.chain) >>= k).exec answer s =
      match r with
      | .ok b => (k b).exec answer s
      | .error e => some (.error (.chain e), s) := by
  cases r with
  | ok b => rfl
  | error e => rfl

/-! ### Winner pages -/

section

variable (chain : ChainReader) (at_ : ChainHash)

/-- The page of `winner_page` that some keys make. -/
structure WinnerPage.Reads (limit : ℕ) (keys : List (List UInt8)) (page : WinnerPage) : Prop where
  pinned : page.at_ = at_
  listed : page.keys = keys
  decoded : keys.mapM chain.qblockHeight = .ok page.heights
  next : page.continuation = (nextCursor id limit keys).map fun key => ⟨at_, key⟩
  ended : page.exhausted = page.continuation.isNone

/-- `winner_page` returns this page when one of the nodes answers. -/
def WinnerPage.Accepted (ks : KeySpace) (nodes : ChainNode → Prop) (limit : ℕ)
    (cursor : Option WinnerCursor) (page : WinnerPage) : Prop :=
  ∃ node, nodes node ∧ (winnerPage chain at_ cursor limit).exec (node.await ks) () =
    some (.ok page, ())

/-- Pages of `winner_page`, each at the continuation of the one before. -/
abbrev WinnerPages (ks : KeySpace) (nodes : ChainNode → Prop) (limit : ℕ) :
    List WinnerPage → Option WinnerCursor → Bool → Prop :=
  Followed WinnerPage.continuation (WinnerPage.Accepted chain at_ ks nodes limit)

end

variable {chain : ChainReader} {at_ : ChainHash} {node : ChainNode} {nodes : ChainNode → Prop}

theorem pageLimit_eq_ok (hpos : 0 < limit) (hle : limit ≤ 1000) : pageLimit limit = .ok () :=
  if_neg (by omega)

theorem pageLimit_pos {u : Unit} (h : pageLimit limit = .ok u) : 0 < limit := by
  unfold pageLimit at h
  split at h
  · cases h
  · omega

/-- The page that some keys make, when they are not too few to hold their last key. -/
theorem winnerPage_reads (hpos : 0 < limit) {keys : List (List UInt8)} {heights : List ℕ}
    (h : keys.mapM chain.qblockHeight = .ok heights) :
    WinnerPage.Reads chain at_ limit keys ⟨at_, keys, heights,
      if decide (keys.length < limit) = true then none
      else keys.getLast?.map fun key => ⟨at_, key⟩, decide (keys.length < limit)⟩ := by
  have hnext : (if decide (keys.length < limit) = true then none
      else keys.getLast?.map fun key => (⟨at_, key⟩ : WinnerCursor)) =
      (nextCursor id limit keys).map fun key => ⟨at_, key⟩ := by
    unfold nextCursor
    by_cases hlen : keys.length < limit
    · rw [if_pos hlen, if_pos (decide_eq_true hlen)]
      rfl
    · rw [if_neg hlen, if_neg (by simpa using hlen), Option.map_id, id_eq]
  refine ⟨rfl, rfl, h, hnext, ?_⟩
  show decide (keys.length < limit) = Option.isNone (if _ then _ else _)
  rw [hnext, Option.isNone_map, Bool.eq_iff_iff, decide_eq_true_iff, Option.isNone_iff_eq_none]
  exact (nextCursor_eq_none hpos).symm

/-- **What `winner_page` returns, read off the keys that were accepted.** -/
theorem winnerPage_ok {cursor : Option WinnerCursor} {page : WinnerPage}
    (h : (winnerPage chain at_ cursor limit).exec (node.await ks) () = some (.ok page, ())) :
    0 < limit ∧ ∃ keys, ks.keyPage (cursor.map WinnerCursor.key) limit
        (node.keysPaged at_ (cursor.map WinnerCursor.key) limit) = .ok keys ∧
      WinnerPage.Reads chain at_ limit keys page := by
  rw [winnerPage, exec_ofExcept_chain] at h
  cases hlimit : pageLimit limit with
  | error e =>
    rw [hlimit] at h
    cases h
  | ok u =>
    rw [hlimit] at h
    simp only at h
    have hpos := pageLimit_pos hlimit
    split at h
    · cases h
    rw [ChainNode.exec_chain] at h
    cases hkeys : node.answer ks (.qblockKeys at_ (cursor.map WinnerCursor.key) limit) with
    | error e =>
      rw [hkeys] at h
      cases h
    | ok keys =>
      rw [hkeys] at h
      simp only at h
      rw [exec_ofExcept_chain] at h
      cases hheights : keys.mapM chain.qblockHeight with
      | error e =>
        rw [hheights] at h
        cases h
      | ok heights =>
        rw [hheights] at h
        cases h
        exact ⟨hpos, keys, hkeys, winnerPage_reads hpos hheights⟩

/-- A page at a cursor of its own block, when its keys are accepted and hold heights. -/
theorem winnerPage_exec_ok {u : Unit} (hlimit : pageLimit limit = .ok u)
    {cursor : Option WinnerCursor} (hown : ¬(cursor.any fun c => c.at_ ≠ at_) = true)
    {keys : List (List UInt8)} {heights : List ℕ}
    (hkeys : node.answer ks (.qblockKeys at_ (cursor.map WinnerCursor.key) limit) = .ok keys)
    (hheights : keys.mapM chain.qblockHeight = .ok heights) :
    (winnerPage chain at_ cursor limit).exec (node.await ks) () = some (.ok ⟨at_, keys, heights,
      if decide (keys.length < limit) = true then none
      else keys.getLast?.map fun key => ⟨at_, key⟩, decide (keys.length < limit)⟩, ()) := by
  rw [winnerPage, exec_ofExcept_chain, hlimit]
  simp only
  rw [if_neg hown, ChainNode.exec_chain, hkeys]
  simp only
  rw [exec_ofExcept_chain, hheights]
  rfl

theorem winnerPage_answered (hpos : 0 < limit) (hle : limit ≤ 1000) {cursor : Option (List UInt8)}
    {keys : List (List UInt8)} {heights : List ℕ}
    (hkeys : ks.keyPage cursor limit (node.keysPaged at_ cursor limit) = .ok keys)
    (hheights : keys.mapM chain.qblockHeight = .ok heights) :
    ∃ page, (winnerPage chain at_ (cursor.map fun key => ⟨at_, key⟩) limit).exec
        (node.await ks) () = some (.ok page, ()) ∧ WinnerPage.Reads chain at_ limit keys page := by
  refine ⟨_, winnerPage_exec_ok (pageLimit_eq_ok hpos hle) ?_ ?_ hheights,
    winnerPage_reads hpos hheights⟩
  · cases cursor <;> simp
  · cases cursor <;> exact hkeys

/-- **Whatever the nodes answer, the keys of the pages ascend.** -/
theorem winnerPages_ascending {pages : List WinnerPage} {cursor : Option WinnerCursor} {fin : Bool}
    (h : WinnerPages chain at_ ks nodes limit pages cursor fin) :
    (pages.flatMap WinnerPage.keys).Pairwise (· < ·) := by
  obtain ⟨rows, hrows, hview⟩ := h.view (nextCursor id limit) (Step id limit)
    (fun page keys => page.keys = id keys) WinnerCursor.key
    fun cursor page hp => by
      obtain ⟨node, -, hx⟩ := hp
      obtain ⟨-, keys, hkeys, hreads⟩ := winnerPage_ok hx
      refine ⟨keys, keyPage_ok hkeys, ?_, hreads.listed⟩
      rw [hreads.next, Option.map_map]
      exact Option.map_id'.symm
  rw [flatMap_view (fun _ _ h => h) hview, ← List.flatten_eq_flatMap]
  exact hrows.ascending.1

/-! ### The winner keys of a block -/

/-- The winner keys of a block in their order, all under the prefix, and the heights inside
of them. -/
structure PinnedKeys (chain : ChainReader) (ks : KeySpace) where
  keys : List (List UInt8)
  height : List UInt8 → ℕ
  ascending : keys.Pairwise (· < ·)
  under : ∀ k ∈ keys, ks.storagePrefix <+: k
  decodes : ∀ k ∈ keys, chain.qblockHeight k = .ok (height k)

/-- A faithful node: the next keys after the start, as many as asked or all that remain. -/
def ChainNode.ServesKeys (node : ChainNode) (ks : KeySpace) (at_ : ChainHash)
    (keys : List (List UInt8)) : Prop :=
  ∀ start limit, ∃ values, node.keysPaged at_ start limit = .ok (.array values) ∧
    ks.Texts values ((rest id keys start).take limit)

section

variable {pinned : PinnedKeys chain ks} {start : Option (List UInt8)}

theorem ChainNode.ServesKeys.keyPage (h : node.ServesKeys ks at_ pinned.keys)
    (hstart : ∀ c ∈ start, ks.storagePrefix <+: c) (limit : ℕ) :
    ks.keyPage start limit (node.keysPaged at_ start limit) =
      .ok ((rest id pinned.keys start).take limit) := by
  obtain ⟨values, hvalues, htexts⟩ := h start limit
  have hstep : Step id limit start ((rest id pinned.keys start).take limit) :=
    Served.step pinned.ascending rfl
  have hunder : ¬(start.any fun k => ¬ks.storagePrefix.isPrefixOf k) = true := by
    cases start with
    | none => simp
    | some c => simpa using hstart c rfl
  have hlen : ¬values.length > limit := by
    rw [htexts.length_eq]
    exact not_lt.mpr hstep.length_le
  unfold KeySpace.keyPage
  rw [if_neg hunder, hvalues]
  simp only
  rw [if_neg hlen]
  refine pageKeys_texts htexts hstep.ascending (fun k hk => ?_) hstep.after
  exact pinned.under k (mem_of_mem_rest (List.mem_of_mem_take hk))

theorem keyPage_start {keys : List (List UInt8)} {response : Except ChainError JsonValue}
    (h : ks.keyPage start limit response = .ok keys) :
    ∀ c ∈ start, ks.storagePrefix <+: c := by
  unfold KeySpace.keyPage at h
  split at h
  · cases h
  rename_i hunder
  intro c hc
  rw [Option.mem_def] at hc
  rw [hc] at hunder
  simpa using hunder

theorem PinnedKeys.mapM (pinned : PinnedKeys chain ks) {keys : List (List UInt8)}
    (h : ∀ k ∈ keys, k ∈ pinned.keys) :
    keys.mapM chain.qblockHeight = .ok (keys.map pinned.height) := by
  induction keys with
  | nil => rfl
  | cons key keys ih =>
    rw [List.mapM_cons, pinned.decodes key (h key (List.mem_cons_self ..)),
      ih fun k hk => h k (List.mem_cons_of_mem _ hk)]
    rfl

/-- What a page of a faithful node holds. -/
structure WinnerPage.Holds (pinned : PinnedKeys chain ks) (page : WinnerPage)
    (keys : List (List UInt8)) : Prop where
  listed : page.keys = keys
  heights : page.heights = keys.map pinned.height

theorem WinnerPage.Accepted.served {cursor : Option WinnerCursor} {page : WinnerPage}
    (h : page.Accepted chain at_ ks (·.ServesKeys ks at_ pinned.keys) limit cursor) :
    0 < limit ∧ ∃ keys, Served id limit pinned.keys (cursor.map WinnerCursor.key) keys ∧
      page.continuation = (nextCursor id limit keys).map (fun key => ⟨at_, key⟩) ∧
      page.Holds pinned keys := by
  obtain ⟨node, hnode, hx⟩ := h
  obtain ⟨hpos, keys, hkeys, hreads⟩ := winnerPage_ok hx
  have hserved : Served id limit pinned.keys (cursor.map WinnerCursor.key) keys := by
    rw [hnode.keyPage (keyPage_start hkeys)] at hkeys
    exact (Except.ok.inj hkeys).symm
  refine ⟨hpos, keys, hserved, hreads.next, hreads.listed, ?_⟩
  have hheights := hreads.decoded
  rw [pinned.mapM fun k hk => hserved.mem hk] at hheights
  exact (Except.ok.inj hheights).symm

/-- **The pages of faithful nodes that came to an end are the keys of the block**, whenever
they were read. -/
theorem winnerPages_complete {pages : List WinnerPage} {cursor : Option WinnerCursor}
    (h : WinnerPages chain at_ ks (·.ServesKeys ks at_ pinned.keys) limit pages cursor true) :
    pages.flatMap WinnerPage.keys = pinned.keys ∧
      pages.flatMap WinnerPage.heights = pinned.keys.map pinned.height := by
  have hpos : 0 < limit := by
    obtain ⟨c, page, hp⟩ := h.accepted
    exact hp.served.1
  obtain ⟨rows, hrows, hview⟩ := h.view (nextCursor id limit)
    (Served id limit pinned.keys) (WinnerPage.Holds pinned) WinnerCursor.key
    fun cursor page hp => by
      obtain ⟨-, keys, hserved, hnext, hholds⟩ := hp.served
      refine ⟨keys, hserved, ?_, hholds⟩
      rw [hnext, Option.map_map]
      exact Option.map_id'.symm
  have hall := hrows.complete pinned.ascending hpos
  rw [if_pos rfl, List.append_nil] at hall
  constructor
  · rw [flatMap_view (g := id) (fun _ _ h => h.listed) hview, ← List.flatten_eq_flatMap, ← hall]
  · rw [flatMap_view (g := List.map pinned.height) (fun _ _ h => h.heights) hview,
      List.flatMap_def, ← List.map_flatten, ← hall]

variable (chain) in
/-- **With a faithful node, following the continuations of `winner_page` lists the keys of
the block and stops.** -/
theorem winnerPages_exact (hpos : 0 < limit) (hle : limit ≤ 1000)
    (hnode : node.ServesKeys ks at_ pinned.keys) {rounds : ℕ}
    (hrounds : pinned.keys.length < rounds) :
    ∃ pages, (follow WinnerPage.continuation (fun cursor => winnerPage chain at_ cursor limit)
        rounds none).exec (node.await ks) () = some (.ok pages, ()) ∧
      pages.flatMap WinnerPage.keys = pinned.keys ∧
      pages.flatMap WinnerPage.heights = pinned.keys.map pinned.height := by
  have hfetch : ∀ pages cursor,
      WinnerPages chain at_ ks (·.ServesKeys ks at_ pinned.keys) limit pages cursor false →
      ∃ page, (winnerPage chain at_ cursor limit).exec (node.await ks) () = some (.ok page, ()) ∧
        page.Accepted chain at_ ks (·.ServesKeys ks at_ pinned.keys) limit cursor ∧
        ∀ c, page.continuation = some c →
          (rest id pinned.keys (some c.key)).length <
            (rest id pinned.keys (cursor.map WinnerCursor.key)).length := by
    intro pages cursor h
    -- the cursor is of this block and names one of its keys
    have hcursor : ∃ key : Option (List UInt8), cursor = key.map (fun key => ⟨at_, key⟩) ∧
        ∀ k ∈ key, k ∈ pinned.keys := by
      rcases h.cursor with ⟨-, rfl⟩ | ⟨-, c₀, page, c, -, rfl, hc, hpage⟩
      · exact ⟨none, rfl, fun k hk => by cases hk⟩
      · obtain ⟨-, keys, hserved, hnext, -⟩ := hpage.served
        rw [hc] at hnext
        obtain ⟨key, hkey, rfl⟩ := Option.map_eq_some_iff.mp hnext.symm
        obtain ⟨init, last, rfl, rfl, -⟩ := nextCursor_eq_some hkey
        refine ⟨some last, rfl, fun k hk => ?_⟩
        obtain rfl := Option.mem_some_iff.mp hk
        exact hserved.mem (List.mem_append_right _ (List.mem_singleton_self last))
    obtain ⟨key, rfl, hkey⟩ := hcursor
    have hkeys := hnode.keyPage (fun c hc => pinned.under c (hkey c hc)) limit
    obtain ⟨page, hx, hreads⟩ := winnerPage_answered hpos hle hkeys
      (pinned.mapM fun k hk => mem_of_mem_rest (List.mem_of_mem_take hk))
    refine ⟨page, hx, ⟨node, hnode, hx⟩, fun c hc => ?_⟩
    rw [hreads.next] at hc
    obtain ⟨k, hk, rfl⟩ := Option.map_eq_some_iff.mp hc
    have hless : (rest id pinned.keys (some k)).length < (rest id pinned.keys key).length :=
      Served.rest_lt rfl hk
    cases key with
    | none => exact hless
    | some c => exact hless
  obtain ⟨pages, hx, hall⟩ := follow_exec
    (fun cursor => (rest id pinned.keys (cursor.map WinnerCursor.key)).length) hfetch .start
    rounds (by rwa [Option.map_none, rest_none])
  exact ⟨pages, hx, winnerPages_complete hall⟩

end

/-! ### Participant pages -/

theorem decodeParticipant_after {qblock : ℕ} {previous : Option (List UInt8)} {row : ParticipantRow}
    {p : QBlockParticipant} (h : decodeParticipant chain qblock previous row = .ok p) :
    ∀ c ∈ previous, c < row.account := by
  unfold decodeParticipant at h
  split at h
  · cases h
  rename_i hprevious
  intro c hc
  rw [Option.mem_def] at hc
  rw [hc] at hprevious
  simpa using hprevious

/-- **The accounts of a decoded page ascend after its start.** -/
theorem decodeParticipants_ascending {qblock : ℕ} {previous : Option (List UInt8)}
    {rows : List ParticipantRow} {ps : List QBlockParticipant}
    (h : decodeParticipants chain qblock previous rows = .ok ps) :
    rows.Pairwise (fun a b => a.account < b.account) ∧
      ∀ row ∈ rows, ∀ c ∈ previous, c < row.account := by
  induction rows generalizing previous ps with
  | nil => exact ⟨.nil, fun row hrow => by cases hrow⟩
  | cons row rows ih =>
    rw [decodeParticipants] at h
    cases hp : decodeParticipant chain qblock previous row with
    | error e =>
      rw [hp] at h
      cases h
    | ok p =>
      cases hps : decodeParticipants chain qblock (some row.account) rows with
      | error e =>
        simp only [hp, hps] at h
        cases h
      | ok ps' =>
        obtain ⟨hasc, hafter⟩ := ih hps
        have hrow := decodeParticipant_after hp
        refine ⟨List.pairwise_cons.mpr ⟨fun r hr => hafter r hr _ rfl, hasc⟩,
          List.forall_mem_cons.mpr ⟨hrow, fun r hr c hc => ?_⟩⟩
        exact List.lt_trans (hrow c hc) (hafter r hr _ rfl)

/-- The participant of a row. -/
def ParticipantRow.participant (row : ParticipantRow) (chain : ChainReader) : QBlockParticipant :=
  ⟨chain.accountText row.account, row.kind, row.budgetSeconds, row.updatedAt⟩

/-- The participants of one qblock at one block: a list in the order of raw accounts whose
rows are those of the runtime. -/
structure PinnedParticipants (qblock : ℕ) extends ParticipantList where
  account : ∀ r ∈ rows, r.account.length = 32
  qblock_eq : ∀ r ∈ rows, r.qblockId = qblock
  budget : ∀ r ∈ rows, ∀ b ∈ r.budgetSeconds, b ≤ u32Max

/-- A faithful node: the next participants after the start, as many as asked or all that
remain. -/
def ChainNode.ServesParticipants (node : ChainNode) (at_ : ChainHash) (qblock : ℕ)
    (rows : List ParticipantRow) : Prop :=
  ∀ start limit, node.participants at_ qblock start limit =
    .ok ((rest ParticipantRow.account rows start).take limit)

/-- `participant_page` returns this page when one of the nodes answers. -/
def ParticipantPage.Accepted (chain : ChainReader) (at_ : ChainHash) (ks : KeySpace)
    (nodes : ChainNode → Prop) (qblock limit : ℕ) (cursor : Option ParticipantCursor)
    (page : ParticipantPage) : Prop :=
  ∃ node, nodes node ∧ (participantPage chain at_ qblock cursor limit).exec (node.await ks) () =
    some (.ok page, ())

/-- Pages of `participant_page`, each at the continuation of the one before. -/
abbrev ParticipantPages (chain : ChainReader) (at_ : ChainHash) (ks : KeySpace)
    (nodes : ChainNode → Prop) (qblock limit : ℕ) :
    List ParticipantPage → Option ParticipantCursor → Bool → Prop :=
  Followed ParticipantPage.continuation
    (ParticipantPage.Accepted chain at_ ks nodes qblock limit)

section

variable {qblock : ℕ} {start : Option (List UInt8)}

/-- The page of `participant_page` that some rows make. -/
structure ParticipantPage.Reads (chain : ChainReader) (at_ : ChainHash) (limit qblock : ℕ)
    (start : Option (List UInt8)) (rows : List ParticipantRow) (page : ParticipantPage) : Prop where
  length_le : rows.length ≤ limit
  decoded : decodeParticipants chain qblock start rows = .ok page.participants
  next : page.continuation =
    (nextCursor ParticipantRow.account limit rows).map fun account => ⟨at_, qblock, account⟩

theorem ParticipantPage.Reads.step {rows : List ParticipantRow} {page : ParticipantPage}
    (h : page.Reads chain at_ limit qblock start rows) :
    Step ParticipantRow.account limit start rows := by
  obtain ⟨hasc, hafter⟩ := decodeParticipants_ascending h.decoded
  exact ⟨h.length_le, hasc, hafter⟩

theorem participantPage_reads (hpos : 0 < limit) {rows : List ParticipantRow}
    (hlen : rows.length ≤ limit) {ps : List QBlockParticipant}
    (h : decodeParticipants chain qblock start rows = .ok ps) :
    ParticipantPage.Reads chain at_ limit qblock start rows ⟨at_, ps,
      if decide (rows.length < limit) = true then none
      else ((rows.getLast?.map ParticipantRow.account).or start).map
        fun account => ⟨at_, qblock, account⟩, decide (rows.length < limit)⟩ := by
  refine ⟨hlen, h, ?_⟩
  unfold nextCursor
  by_cases hshort : rows.length < limit
  · rw [if_pos hshort, if_pos (decide_eq_true hshort)]
    rfl
  · have hne : rows ≠ [] := by
      rintro rfl
      exact hshort hpos
    rw [if_neg hshort, if_neg (by simpa using hshort), List.getLast?_eq_some_getLast hne]
    rfl

/-- **What `participant_page` returns, read off the rows that were accepted.** -/
theorem participantPage_ok {cursor : Option ParticipantCursor} {page : ParticipantPage}
    (h : (participantPage chain at_ qblock cursor limit).exec (node.await ks) () =
      some (.ok page, ())) :
    0 < limit ∧ ∃ rows, node.participants at_ qblock (cursor.map ParticipantCursor.account) limit =
        .ok rows ∧
      page.Reads chain at_ limit qblock (cursor.map ParticipantCursor.account) rows := by
  rw [participantPage, exec_ofExcept_chain] at h
  cases hlimit : pageLimit limit with
  | error e =>
    rw [hlimit] at h
    cases h
  | ok u =>
    rw [hlimit] at h
    simp only at h
    have hpos := pageLimit_pos hlimit
    split at h
    · cases h
    rw [ChainNode.exec_chain] at h
    cases hrows : node.answer ks (.participantsByQblock at_ qblock
        (cursor.map ParticipantCursor.account) limit) with
    | error e =>
      rw [hrows] at h
      cases h
    | ok rows =>
      rw [hrows] at h
      simp only at h
      split at h
      · cases h
      rename_i hlen
      rw [exec_ofExcept_chain] at h
      cases hps : decodeParticipants chain qblock (cursor.map ParticipantCursor.account) rows with
      | error e =>
        rw [hps] at h
        cases h
      | ok ps =>
        rw [hps] at h
        cases h
        exact ⟨hpos, rows, hrows, participantPage_reads hpos (not_lt.mp hlen) hps⟩

/-- **Whatever the nodes answer, the accounts of the pages ascend.** -/
theorem participantPages_ascending {pages : List ParticipantPage}
    {cursor : Option ParticipantCursor} {fin : Bool}
    (h : ParticipantPages chain at_ ks nodes qblock limit pages cursor fin) :
    ∃ accounts : List (List UInt8), accounts.Pairwise (· < ·) ∧
      (∀ a ∈ accounts, a.length = 32) ∧
      (pages.flatMap ParticipantPage.participants).map QBlockParticipant.account =
        accounts.map chain.accountText := by
  obtain ⟨rows, hrows, hview⟩ := h.view (nextCursor ParticipantRow.account limit)
    (Step ParticipantRow.account limit)
    (fun page rows => page.participants = rows.map (·.participant chain) ∧
      ∀ r ∈ rows, r.account.length = 32) ParticipantCursor.account
    fun cursor page hp => by
      obtain ⟨node, -, hx⟩ := hp
      obtain ⟨-, rows, -, hreads⟩ := participantPage_ok hx
      refine ⟨rows, hreads.step, ?_, decodeParticipants_ok hreads.decoded⟩
      rw [hreads.next, Option.map_map]
      exact Option.map_id'.symm
  refine ⟨rows.flatten.map ParticipantRow.account, List.pairwise_map.mpr hrows.ascending.1, ?_, ?_⟩
  · intro a ha
    obtain ⟨r, hr, rfl⟩ := List.mem_map.mp ha
    obtain ⟨rs, hrs, hr⟩ := List.mem_flatten.mp hr
    obtain ⟨page, -, hv⟩ := view_mem hview hrs
    exact hv.2 r hr
  · rw [flatMap_view (g := List.map (·.participant chain)) (fun _ _ h => h.1) hview,
      List.flatMap_def, ← List.map_flatten, List.map_map, List.map_map]
    rfl

variable {pinned : PinnedParticipants qblock}

theorem PinnedParticipants.decode (pinned : PinnedParticipants qblock) {rows : List ParticipantRow}
    (h : ∀ r ∈ rows, r ∈ pinned.rows) (hstep : Step ParticipantRow.account limit start rows) :
    decodeParticipants chain qblock start rows = .ok (rows.map (·.participant chain)) := by
  obtain ⟨-, hasc, hafter⟩ := hstep
  induction rows generalizing start with
  | nil => rfl
  | cons row rows ih =>
    have hmem := h row (List.mem_cons_self ..)
    obtain ⟨hle, hasc⟩ := List.pairwise_cons.mp hasc
    have hfirst : decodeParticipant chain qblock start row = .ok (row.participant chain) := by
      have hprevious : ¬(start.any fun p => ¬p < row.account) = true := by
        cases start with
        | none => simp
        | some c => simpa using hafter row (List.mem_cons_self ..) c rfl
      have hbudget : ¬(row.budgetSeconds.any (u32Max < ·)) = true := by
        cases hb : row.budgetSeconds with
        | none => simp
        | some b => simpa using pinned.budget row hmem b hb
      rw [decodeParticipant, if_neg hprevious, if_neg (not_not.mpr (pinned.qblock_eq row hmem)),
        if_neg hbudget, ChainReader.accountBytes, if_neg (not_not.mpr (pinned.account row hmem))]
      rfl
    have hrest := @ih (some row.account) (fun r hr => h r (List.mem_cons_of_mem _ hr)) hasc
      fun r hr c hc => Option.mem_some_iff.mp hc ▸ hle r hr
    rw [decodeParticipants, hfirst, hrest]
    rfl

theorem ParticipantPage.Accepted.served {cursor : Option ParticipantCursor}
    {page : ParticipantPage}
    (h : page.Accepted chain at_ ks (·.ServesParticipants at_ qblock pinned.rows) qblock limit
      cursor) :
    0 < limit ∧ ∃ rows, Served ParticipantRow.account limit pinned.rows
        (cursor.map ParticipantCursor.account) rows ∧
      page.continuation = (nextCursor ParticipantRow.account limit rows).map
        (fun account => ⟨at_, qblock, account⟩) ∧
      page.participants = rows.map (·.participant chain) := by
  obtain ⟨node, hnode, hx⟩ := h
  obtain ⟨hpos, rows, hrows, hreads⟩ := participantPage_ok hx
  rw [hnode] at hrows
  exact ⟨hpos, rows, (Except.ok.inj hrows).symm, hreads.next, (decodeParticipants_ok hreads.decoded).1⟩

/-- **The pages of faithful nodes that came to an end are the participants of the qblock.** -/
theorem participantPages_complete {pages : List ParticipantPage}
    {cursor : Option ParticipantCursor}
    (h : ParticipantPages chain at_ ks (·.ServesParticipants at_ qblock pinned.rows) qblock limit
      pages cursor true) :
    pages.flatMap ParticipantPage.participants = pinned.rows.map (·.participant chain) := by
  have hpos : 0 < limit := by
    obtain ⟨c, page, hp⟩ := h.accepted
    exact hp.served.1
  obtain ⟨rows, hrows, hview⟩ := h.view (nextCursor ParticipantRow.account limit)
    (Served ParticipantRow.account limit pinned.rows)
    (fun page rows => page.participants = rows.map (·.participant chain))
    ParticipantCursor.account fun cursor page hp => by
      obtain ⟨-, rows, hserved, hnext, hps⟩ := hp.served
      refine ⟨rows, hserved, ?_, hps⟩
      rw [hnext, Option.map_map]
      exact Option.map_id'.symm
  have hall := hrows.complete pinned.ascending hpos
  rw [if_pos rfl, List.append_nil] at hall
  rw [flatMap_view (g := List.map fun r : ParticipantRow => r.participant chain)
    (fun _ _ h => h) hview, List.flatMap_def, ← List.map_flatten, ← hall]

variable (ks chain) in
/-- A page at a cursor of its own block and qblock, from a faithful node. -/
theorem participantPage_answered (hpos : 0 < limit) (hle : limit ≤ 1000)
    (hnode : node.ServesParticipants at_ qblock pinned.rows)
    (hstart : ∀ a ∈ start, a.length = 32) :
    ∃ page, (participantPage chain at_ qblock (start.map fun a => ⟨at_, qblock, a⟩) limit).exec
      (node.await ks) () = some (.ok page, ()) := by
  have hstep : Step ParticipantRow.account limit start
      ((rest ParticipantRow.account pinned.rows start).take limit) :=
    Served.step pinned.ascending rfl
  have hown : ((start.map fun a => (⟨at_, qblock, a⟩ : ParticipantCursor)).any
      fun c => decide (c.at_ ≠ at_ ∨ c.qblockId ≠ qblock ∨ c.account.length ≠ 32)) = false := by
    cases start with
    | none => rfl
    | some a => simpa using hstart a rfl
  have haccount : (start.map fun a => (⟨at_, qblock, a⟩ : ParticipantCursor)).map
      ParticipantCursor.account = start := by
    cases start <;> rfl
  have hanswer : node.answer ks (.participantsByQblock at_ qblock start limit) =
      .ok ((rest ParticipantRow.account pinned.rows start).take limit) := hnode start limit
  rw [participantPage, exec_ofExcept_chain, pageLimit_eq_ok hpos hle]
  simp only
  rw [hown, if_neg Bool.false_ne_true, ChainNode.exec_chain, haccount, hanswer]
  simp only
  rw [if_neg (not_lt.mpr hstep.length_le), exec_ofExcept_chain,
    pinned.decode (fun r hr => mem_of_mem_rest (List.mem_of_mem_take hr)) hstep]
  exact ⟨_, rfl⟩

variable (ks chain) in
/-- **With a faithful node, following the continuations of `participant_page` lists the
participants and stops.** -/
theorem participantPages_exact (hpos : 0 < limit) (hle : limit ≤ 1000)
    (hnode : node.ServesParticipants at_ qblock pinned.rows) {rounds : ℕ}
    (hrounds : pinned.rows.length < rounds) :
    ∃ pages, (follow ParticipantPage.continuation
        (fun cursor => participantPage chain at_ qblock cursor limit) rounds none).exec
          (node.await ks) () = some (.ok pages, ()) ∧
      pages.flatMap ParticipantPage.participants = pinned.rows.map (·.participant chain) := by
  let left : Option ParticipantCursor → ℕ := fun cursor =>
    (rest ParticipantRow.account pinned.rows (cursor.map ParticipantCursor.account)).length
  have hfetch : ∀ pages cursor,
      ParticipantPages chain at_ ks (·.ServesParticipants at_ qblock pinned.rows) qblock limit
        pages cursor false →
      ∃ page, (participantPage chain at_ qblock cursor limit).exec (node.await ks) () =
          some (.ok page, ()) ∧
        page.Accepted chain at_ ks (·.ServesParticipants at_ qblock pinned.rows) qblock limit
          cursor ∧
        ∀ c, page.continuation = some c → left (some c) < left cursor := by
    intro pages cursor h
    -- the cursor is of this qblock and names one of its accounts
    have hcursor : ∃ start : Option (List UInt8), cursor = start.map (fun a => ⟨at_, qblock, a⟩) ∧
        ∀ a ∈ start, a.length = 32 := by
      rcases h.cursor with ⟨-, rfl⟩ | ⟨-, c₀, page, c, -, rfl, hc, hpage⟩
      · exact ⟨none, rfl, fun a ha => by cases ha⟩
      · obtain ⟨-, rows, hserved, hnext, -⟩ := hpage.served
        rw [hc] at hnext
        obtain ⟨account, haccount, rfl⟩ := Option.map_eq_some_iff.mp hnext.symm
        obtain ⟨init, last, rfl, rfl, -⟩ := nextCursor_eq_some haccount
        refine ⟨some last.account, rfl, fun a ha => ?_⟩
        obtain rfl := Option.mem_some_iff.mp ha
        exact pinned.account _
          (hserved.mem (List.mem_append_right _ (List.mem_singleton_self last)))
    obtain ⟨start, rfl, hstart⟩ := hcursor
    obtain ⟨page, hx⟩ := participantPage_answered ks chain hpos hle hnode hstart
    have haccepted : page.Accepted chain at_ ks (·.ServesParticipants at_ qblock pinned.rows) qblock
        limit (start.map fun a => ⟨at_, qblock, a⟩) := ⟨node, hnode, hx⟩
    refine ⟨page, hx, haccepted, fun c hc => ?_⟩
    obtain ⟨-, rows, hserved, hnext, -⟩ := haccepted.served
    rw [hnext] at hc
    obtain ⟨a, ha, rfl⟩ := Option.map_eq_some_iff.mp hc
    exact hserved.rest_lt ha
  obtain ⟨pages, hx, hall⟩ := follow_exec left hfetch .start rounds
    (by
      show (rest _ _ (Option.map _ none)).length < rounds
      rwa [Option.map_none, rest_none])
  exact ⟨pages, hx, participantPages_complete hall⟩

end

end Dashboard

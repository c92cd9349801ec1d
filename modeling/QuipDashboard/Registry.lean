/-
The registry of miners, page by page.

The model of `registry_snapshot` and `refresh_changes` in `indexer/reconcile.rs`, over the
registry reads of `chain/snapshots.rs`.  Both take the lock, ask for the finalized head and
read every page and every account at that block.  A value that was read keeps the block it
was read at; the code keeps the value alone.

* `registrySnapshot`, `refreshChanges` — the two functions, a number of pages bounding the
  loops of the first;
* `snapshotAt_reads`, `refreshAt_reads` — **what they offer to the store was read at the
  finalized head that they asked for**.
-/
import QuipDashboard.Locks
import QuipDashboard.Indexer
import QuipDashboard.NodeDescriptors

namespace Dashboard

/-! ### What the reader reads -/

/-- A value, and the block at whose state it was read. -/
structure ReadAt (α : Type) where
  value : α
  at_ : ChainHash

/-- A fallible computation on a value that was read. -/
def ReadAt.mapOk {ε α β : Type} (r : ReadAt α) (f : α → Except ε β) : Except ε (ReadAt β) :=
  (f r.value).map fun b => ⟨b, r.at_⟩

/-- `ChainMinerInfo`. -/
structure ChainMinerInfo where
  accountId : String
  deposit : DecimalText
  proofsSubmitted : UInt64
  proofsWon : UInt64
  rewardsEarned : DecimalText

/-- `MinerPage`. -/
structure MinerPage where
  at_ : ChainHash
  miners : List (ReadAt ChainMinerInfo)
  continuation : Option WinnerCursor
  exhausted : Bool

/-- `DescriptorEntry`. -/
structure DescriptorEntry where
  account : List UInt8
  accountId : String
  updatedAt : UInt64
  blockHash : ChainHash
  timestamp : UInt64
  descriptor : JsonValue

/-- `RegistryChange`. -/
structure RegistryChange where
  event : String
  account : List UInt8

/-- The fields of `BlockEvents` that `refresh_changes` reads. -/
structure RegistryEvents where
  registryChanges : List RegistryChange
  minerChanges : List (List UInt8)
  timestamp : UInt64

/-- The reader, with its projections of a storage value `V` of another crate. -/
structure RegistryReader (V : Type) extends ChainReader where
  /-- `field`. -/
  field : V → String → Except ChainError V
  /-- `decode::decimal`. -/
  decimal : V → Except ChainError DecimalText
  /-- `decode::unsigned`. -/
  unsigned : V → Except ChainError UInt64
  /-- `descriptor_json`. -/
  descriptorJson : V → Except ChainError JsonValue
  /-- `serde_json::from_value` of a `NodeDescriptor`. -/
  nodeDescriptor : JsonValue → Except String NodeDescriptor

/-- What the two functions wait for. -/
inductive RegistryAwait (V : Type) : Type → Type 1
  | finalizedHead : RegistryAwait V (Except ChainError ChainHash)
  | header (at_ : ChainHash) : RegistryAwait V (Except ChainError Header)
  /-- `map_page`. -/
  | mapPage (at_ : ChainHash) (pallet entry : String) (start : Option (List UInt8)) (limit : ℕ) :
      RegistryAwait V (Except ChainError (List (List UInt8 × ReadAt V)))
  /-- `optional_storage` under one account. -/
  | optionalStorage (at_ : ChainHash) (pallet entry : String) (account : List UInt8) :
      RegistryAwait V (Except ChainError (Option (ReadAt V)))
  | blockHash (height : ℕ) : RegistryAwait V (Except ChainError (Option ChainHash))
  | timestamp (hash : ChainHash) : RegistryAwait V (Except ChainError UInt64)
  | yieldNow : RegistryAwait V Unit
  | upsertChainMiners (records : List (ReadAt ChainMinerRecord)) :
      RegistryAwait V (Except StoreError Unit)
  | upsertNodeDescriptor (record : ReadAt NodeDescriptorRecord) :
      RegistryAwait V (Except StoreError Unit)
  | setDescriptorCheckpoint (number : ℕ) : RegistryAwait V (Except StoreError Unit)

/-- A function that reads or writes the registry. -/
abbrev Reg (V : Type) := Program (RegistryAwait V) IndexerError

namespace Reg

variable {V β : Type}

def chain (e : RegistryAwait V (Except ChainError β)) : Reg V β := .awaitOk .chain e

def store (e : RegistryAwait V (Except StoreError β)) : Reg V β := .awaitOk .store e

/-- A check of the reader. -/
def check (r : Except ChainError β) : Reg V β := .ofExcept (r.mapError .chain)

end Reg

variable {V : Type}

/-! ### Miner pages -/

/-- `key.get(48..)`: what follows the prefix and the hash of a map key. -/
def keyAccount (message : String) (key : List UInt8) : Except ChainError (List UInt8) :=
  if key.length < 48 then .error (.invalid message) else .ok (key.drop 48)

/-- `miner_info`. -/
def minerInfo (reader : RegistryReader V) (account : List UInt8) (value : V) :
    Except ChainError ChainMinerInfo := do
  let accountId ← reader.accountBytes account
  let deposit ← reader.decimal (← reader.field value "deposit")
  let proofsSubmitted ← reader.unsigned (← reader.field value "proofs_submitted")
  let proofsWon ← reader.unsigned (← reader.field value "proofs_won")
  let rewardsEarned ← reader.decimal (← reader.field value "rewards_earned")
  return { accountId, deposit, proofsSubmitted, proofsWon, rewardsEarned }

/-- One row of `miner_page`. -/
def minerRow (reader : RegistryReader V) (row : List UInt8 × ReadAt V) :
    Except ChainError (ReadAt ChainMinerInfo) := do
  let account ← keyAccount "short registry key" row.1
  row.2.mapOk (minerInfo reader account)

/-- The cursor after a page of `limit` rows; none when it was the last one. -/
def continuationOf {α : Type} (at_ : ChainHash) (limit : ℕ) (rows : List (List UInt8 × α)) :
    Option WinnerCursor :=
  if rows.length < limit then none else rows.getLast?.map fun row => ⟨at_, row.1⟩

/-- `miner_page`. -/
def minerPage (reader : RegistryReader V) (at_ : ChainHash) (cursor : Option WinnerCursor)
    (limit : ℕ) : Reg V MinerPage := do
  Reg.check (pageLimit limit)
  if cursor.any fun c => c.at_ ≠ at_ then
    .fail (.chain (.invalid "miner cursor belongs to another snapshot"))
  else do
    let rows ← Reg.chain (.mapPage at_ "QuantumPow" "Miners" (cursor.map WinnerCursor.key) limit)
    let miners ← Reg.check (rows.mapM (minerRow reader))
    return {
      at_
      miners
      continuation := continuationOf at_ limit rows
      exhausted := decide (rows.length < limit) }

/-- `miner_at`. -/
def minerAt (reader : RegistryReader V) (at_ : ChainHash) (account : List UInt8) :
    Reg V (Option (ReadAt ChainMinerInfo)) := do
  match ← Reg.chain (.optionalStorage at_ "QuantumPow" "Miners" account) with
  | none => return none
  | some value => return some (← Reg.check (value.mapOk (minerInfo reader account)))

/-! ### Descriptor pages -/

/-- The block of an update and its time, which the rows of one page share. -/
def updateBlock (updatedAt : UInt64) : Reg V (ChainHash × UInt64) := do
  match ← Reg.chain (.blockHash updatedAt.toNat) with
  | none => .fail (.chain (.invalid "descriptor update block missing"))
  | some blockHash => do
    let timestamp ← Reg.chain (.timestamp blockHash)
    return (blockHash, timestamp)

/-- The block of an update, unless an earlier row of the page had the same one. -/
def provenanceOf (provenance : KeyedTable UInt64 (ChainHash × UInt64)) (updatedAt : UInt64) :
    Reg V ((ChainHash × UInt64) × KeyedTable UInt64 (ChainHash × UInt64)) :=
  match provenance.get? updatedAt with
  | some cached => return (cached, provenance)
  | none => do
    let block ← updateBlock updatedAt
    return (block, provenance.put updatedAt block)

/-- `try_into` of 32 bytes. -/
def accountOf (bytes : List UInt8) : Except ChainError (List UInt8) :=
  if bytes.length = 32 then .ok bytes
  else .error (.invalid "could not convert slice to array")

/-- The entry of one row. -/
def descriptorEntry (reader : RegistryReader V) (key : List UInt8) (updatedAt : UInt64)
    (block : ChainHash × UInt64) (value : V) : Except ChainError DescriptorEntry := do
  let account ← accountOf (← keyAccount "short descriptor key" key)
  let accountId ← reader.accountBytes (← keyAccount "short registry key" key)
  let descriptor ← reader.descriptorJson value
  return { account, accountId, updatedAt, blockHash := block.1, timestamp := block.2, descriptor }

/-- The loop of `descriptor_page`. -/
def descriptorRows (reader : RegistryReader V) :
    List (List UInt8 × ReadAt V) → KeyedTable UInt64 (ChainHash × UInt64) →
      Reg V (List (ReadAt DescriptorEntry))
  | [], _ => return []
  | row :: rows, provenance => do
    let updatedAt ← Reg.check (reader.field row.2.value "updated_at" >>= reader.unsigned)
    let (block, provenance) ← provenanceOf provenance updatedAt
    let entry ← Reg.check (row.2.mapOk (descriptorEntry reader row.1 updatedAt block))
    let entries ← descriptorRows reader rows provenance
    return entry :: entries

/-- `descriptor_page`. -/
def descriptorPage (reader : RegistryReader V) (at_ : ChainHash) (cursor : Option WinnerCursor) :
    Reg V (List (ReadAt DescriptorEntry) × Option WinnerCursor) :=
  if cursor.any fun c => c.at_ ≠ at_ then
    .fail (.chain (.invalid "descriptor cursor belongs to another snapshot"))
  else do
    let rows ← Reg.chain
      (.mapPage at_ "MinerRegistry" "NodeDescriptors" (cursor.map WinnerCursor.key) 1000)
    let entries ← descriptorRows reader rows .empty
    return (entries, continuationOf at_ 1000 rows)

/-- The entry of one account. -/
def accountEntry (reader : RegistryReader V) (account : List UInt8) (updatedAt : UInt64)
    (block : ChainHash × UInt64) (value : V) : Except ChainError DescriptorEntry := do
  let accountId ← reader.accountBytes account
  let descriptor ← reader.descriptorJson value
  return { account, accountId, updatedAt, blockHash := block.1, timestamp := block.2, descriptor }

/-- `descriptor_at`. -/
def descriptorAt (reader : RegistryReader V) (at_ : ChainHash) (account : List UInt8) :
    Reg V (Option (ReadAt DescriptorEntry)) := do
  match ← Reg.chain (.optionalStorage at_ "MinerRegistry" "NodeDescriptors" account) with
  | none => return none
  | some value => do
    let updatedAt ← Reg.check (reader.field value.value "updated_at" >>= reader.unsigned)
    let block ← updateBlock updatedAt
    let entry ← Reg.check (value.mapOk (accountEntry reader account updatedAt block))
    return some entry

/-! ### What is offered to the store -/

/-- `miner_record`. -/
def minerRecord (miner : ChainMinerInfo) : Except IndexerError ChainMinerRecord := do
  let deposit ← miner.deposit.mapError .invalid
  let rewardsEarned ← miner.rewardsEarned.mapError .invalid
  return {
    accountId := miner.accountId
    deposit
    proofsSubmitted := miner.proofsSubmitted.toNat
    proofsWon := miner.proofsWon.toNat
    rewardsEarned
    telemetryNodeAddress := none
    hardware := none }

/-- The record of `descriptor`. -/
def descriptorRecord (reader : RegistryReader V) (firstSeen : Option UInt64)
    (entry : DescriptorEntry) : Except IndexerError NodeDescriptorRecord := do
  let descriptor ← (reader.nodeDescriptor entry.descriptor).mapError .invalid
  let observedAt ← isoTimestampOf entry.timestamp.toNat
  return {
    accountId := entry.accountId
    blockNumber := entry.updatedAt.toNat
    blockHash := modelHash entry.blockHash
    extrinsicIndex := 0
    blockTimestamp := entry.timestamp
    firstBlockTimestamp := firstSeen.elim entry.timestamp fun timestamp =>
      min timestamp entry.timestamp
    descriptor
    observedAt }

/-- `descriptor`. -/
def Reg.descriptor (reader : RegistryReader V) (firstSeen : Option UInt64)
    (entry : ReadAt DescriptorEntry) : Reg V Unit := do
  let record ← Program.ofExcept (entry.mapOk (descriptorRecord reader firstSeen))
  Reg.store (.upsertNodeDescriptor record)

/-! ### The two functions -/

/-- A loop over a list. -/
def forEach {α : Type} (body : α → Reg V Unit) : List α → Reg V Unit
  | [] => return
  | a :: as => do
    body a
    forEach body as

/-- The first loop of `registry_snapshot`. -/
def snapshotMiners (reader : RegistryReader V) (at_ : ChainHash) :
    ℕ → Option WinnerCursor → Reg V Unit
  | 0, _ => .pending
  | rounds + 1, cursor => do
    let page ← minerPage reader at_ cursor pageSize
    let records ← Program.ofExcept (page.miners.mapM fun miner => miner.mapOk minerRecord)
    Reg.store (.upsertChainMiners records)
    -- the page is written before the next one is asked for
    if page.exhausted then return
    else if page.continuation = none then .fail (.invalid "miner page lacks continuation")
    else do
      Program.await .yieldNow
      snapshotMiners reader at_ rounds page.continuation

/-- The second loop of `registry_snapshot`. -/
def snapshotDescriptors (reader : RegistryReader V) (at_ : ChainHash) :
    ℕ → Option WinnerCursor → Reg V Unit
  | 0, _ => .pending
  | rounds + 1, cursor => do
    let (entries, next) ← descriptorPage reader at_ cursor
    forEach (Reg.descriptor reader none) entries
    if next = none then return
    else do
      Program.await .yieldNow
      snapshotDescriptors reader at_ rounds next

/-- `registry_snapshot`, after the finalized head. -/
def snapshotAt (reader : RegistryReader V) (rounds : ℕ) (at_ : ChainHash) : Reg V Unit := do
  let header ← Reg.chain (.header at_)
  let height ← Reg.check header.height
  snapshotMiners reader at_ rounds none
  snapshotDescriptors reader at_ rounds none
  Reg.store (.setDescriptorCheckpoint height)

/-- `registry_snapshot`. -/
def registrySnapshot (reader : RegistryReader V) (rounds : ℕ) :
    Program (Locking (RegistryAwait V)) IndexerError Unit := do
  Program.lock
  Program.held do
    -- under the lock: a head from before it could be older than one that a refresh has used
    let at_ ← Reg.chain .finalizedHead
    snapshotAt reader rounds at_

/-- The first loop of `refresh_changes`. -/
def refreshDescriptor (reader : RegistryReader V) (at_ : ChainHash) (timestamp : UInt64)
    (change : RegistryChange) : Reg V Unit := do
  match ← descriptorAt reader at_ change.account with
  | none => return
  | some entry =>
    Reg.descriptor reader (if change.event = "DescriptorUpdated" then some timestamp else none)
      entry

/-- The second loop of `refresh_changes`. -/
def refreshMiner (reader : RegistryReader V) (at_ : ChainHash) (account : List UInt8) :
    Reg V Unit := do
  match ← minerAt reader at_ account with
  | none => return
  | some miner => do
    let record ← Program.ofExcept (miner.mapOk minerRecord)
    Reg.store (.upsertChainMiners [record])

/-- The accounts of the second loop, a `BTreeSet`. -/
def RegistryEvents.accounts (events : RegistryEvents) : List (List UInt8) :=
  (events.registryChanges.map RegistryChange.account ++ events.minerChanges).dedup.insertionSort
    (· ≤ ·)

/-- `refresh_changes`, after the finalized head. -/
def refreshAt (reader : RegistryReader V) (events : RegistryEvents) (at_ : ChainHash) :
    Reg V Unit := do
  forEach (refreshDescriptor reader at_ events.timestamp) events.registryChanges
  forEach (refreshMiner reader at_) events.accounts

/-- `refresh_changes`. -/
def refreshChanges (reader : RegistryReader V) (events : RegistryEvents) :
    Program (Locking (RegistryAwait V)) IndexerError Unit :=
  -- a block without changes does not wait for the lock
  if events.registryChanges.isEmpty ∧ events.minerChanges.isEmpty then return
  else do
    Program.lock
    Program.held do
      let at_ ← Reg.chain .finalizedHead
      refreshAt reader events at_

/-! ### Where the offered values were read -/

/-- An answer carries the block of its request. -/
def ReadThere : {γ : Type} → RegistryAwait V γ → γ → Prop
  | _, .mapPage at_ .., answer => ∀ rows, answer = .ok rows → ∀ row ∈ rows, row.2.at_ = at_
  | _, .optionalStorage at_ .., answer => ∀ value, answer = .ok (some value) → value.at_ = at_
  | _, _, _ => True

/-- Everything that is offered to the store was read at `at_`, and no other head is asked
for. -/
def OffersFrom (at_ : ChainHash) : {γ : Type} → RegistryAwait V γ → Prop
  | _, .finalizedHead => False
  | _, .upsertChainMiners records => ∀ record ∈ records, record.at_ = at_
  | _, .upsertNodeDescriptor record => record.at_ = at_
  | _, _ => True

/-- A program that reads and offers at one block. -/
abbrev Reg.Reads {β : Type} (at_ : ChainHash) (P : β → Prop) (p : Reg V β) : Prop :=
  p.Meets ReadThere (OffersFrom at_) P

theorem ReadAt.mapOk_at {ε α β : Type} {r : ReadAt α} {f : α → Except ε β} {r' : ReadAt β}
    (h : r.mapOk f = .ok r') : r'.at_ = r.at_ := by
  unfold ReadAt.mapOk at h
  cases hf : f r.value with
  | error e =>
    rw [hf] at h
    cases h
  | ok b =>
    rw [hf] at h
    cases h
    rfl

theorem Reg.check_reads {β : Type} {at_ : ChainHash} {P : β → Prop} {r : Except ChainError β}
    (h : ∀ b, r = .ok b → P b) : (Reg.check r : Reg V β).Reads at_ P := by
  refine .ofExcept fun b hb => h b ?_
  cases r with
  | error e => cases hb
  | ok a =>
    cases hb
    rfl

theorem minerRow_at {reader : RegistryReader V} {row : List UInt8 × ReadAt V}
    {miner : ReadAt ChainMinerInfo} (h : minerRow reader row = .ok miner) :
    miner.at_ = row.2.at_ := by
  obtain ⟨account, -, h⟩ := Except.bind_eq_ok.mp h
  exact ReadAt.mapOk_at h

/-- The miners of a page were read at its block. -/
theorem minerPage_reads (reader : RegistryReader V) (at_ : ChainHash)
    (cursor : Option WinnerCursor) (limit : ℕ) :
    (minerPage reader at_ cursor limit).Reads at_ fun page => ∀ m ∈ page.miners, m.at_ = at_ := by
  refine .bind (P := fun _ => True) (Reg.check_reads fun _ _ => trivial) fun _ _ => ?_
  refine .ite (fun _ => trivial) fun _ => ?_
  refine .bind (.awaitOk trivial fun rows hrows => hrows rows rfl) fun rows hrows => ?_
  refine .bind (P := fun miners : List (ReadAt ChainMinerInfo) => ∀ m ∈ miners, m.at_ = at_)
    (Reg.check_reads fun miners hminers m hm => ?_) fun miners hminers => hminers
  obtain ⟨row, hrow, hmap⟩ := (Except.mapM_mem hminers).2 m hm
  rw [minerRow_at hmap]
  exact hrows row hrow

theorem minerAt_reads (reader : RegistryReader V) (at_ : ChainHash) (account : List UInt8) :
    (minerAt reader at_ account).Reads at_ fun miner => ∀ m, miner = some m → m.at_ = at_ := by
  refine .bind (.awaitOk trivial fun value hvalue => hvalue) fun value hvalue => ?_
  cases value with
  | none => exact fun _ h => by cases h
  | some value =>
    refine .bind (P := fun m => m.at_ = at_) (Reg.check_reads fun m hm => ?_) fun m hm => ?_
    · exact (ReadAt.mapOk_at hm).trans (hvalue value rfl)
    · rintro _ ⟨rfl⟩
      exact hm

theorem updateBlock_reads (at_ : ChainHash) (updatedAt : UInt64) :
    (updateBlock updatedAt : Reg V _).Reads at_ fun _ => True := by
  refine .bind (P := fun _ => True) (.awaitOk trivial fun _ _ => trivial) fun hash _ => ?_
  cases hash with
  | none => trivial
  | some hash =>
    exact .bind (P := fun _ => True) (.awaitOk trivial fun _ _ => trivial) fun _ _ => trivial

theorem provenanceOf_reads (at_ : ChainHash)
    (provenance : KeyedTable UInt64 (ChainHash × UInt64)) (updatedAt : UInt64) :
    (provenanceOf provenance updatedAt : Reg V _).Reads at_ fun _ => True := by
  unfold provenanceOf
  cases provenance.get? updatedAt with
  | some cached => trivial
  | none => exact .bind (updateBlock_reads at_ updatedAt) fun _ _ => trivial

theorem descriptorRows_reads (reader : RegistryReader V) (at_ : ChainHash) :
    ∀ (rows : List (List UInt8 × ReadAt V)) (provenance : KeyedTable UInt64 (ChainHash × UInt64)),
      (∀ row ∈ rows, row.2.at_ = at_) →
      (descriptorRows reader rows provenance).Reads at_ fun entries =>
        ∀ entry ∈ entries, entry.at_ = at_
  | [], _, _ => fun _ h => absurd h List.not_mem_nil
  | row :: rows, provenance, hrows => by
    refine .bind (P := fun _ => True) (Reg.check_reads fun _ _ => trivial) fun updatedAt _ => ?_
    refine .bind (provenanceOf_reads at_ provenance updatedAt) fun block _ => ?_
    refine .bind (P := fun entry => entry.at_ = at_) (Reg.check_reads fun entry hentry => ?_)
      fun entry hentry => ?_
    · exact (ReadAt.mapOk_at hentry).trans (hrows row List.mem_cons_self)
    · refine .bind (descriptorRows_reads reader at_ rows block.2
        fun r hr => hrows r (List.mem_cons_of_mem row hr)) fun entries hentries => ?_
      intro e he
      rcases List.mem_cons.mp he with rfl | he
      · exact hentry
      · exact hentries e he

/-- The descriptors of a page were read at its block. -/
theorem descriptorPage_reads (reader : RegistryReader V) (at_ : ChainHash)
    (cursor : Option WinnerCursor) :
    (descriptorPage reader at_ cursor).Reads at_ fun page =>
      ∀ entry ∈ page.1, entry.at_ = at_ := by
  refine .ite (fun _ => trivial) fun _ => ?_
  refine .bind (.awaitOk trivial fun rows hrows => hrows rows rfl) fun rows hrows => ?_
  exact .bind (descriptorRows_reads reader at_ rows .empty hrows) fun entries hentries => hentries

theorem descriptorAt_reads (reader : RegistryReader V) (at_ : ChainHash) (account : List UInt8) :
    (descriptorAt reader at_ account).Reads at_ fun entry =>
      ∀ e, entry = some e → e.at_ = at_ := by
  refine .bind (.awaitOk trivial fun value hvalue => hvalue) fun value hvalue => ?_
  cases value with
  | none => exact fun _ h => by cases h
  | some value =>
    refine .bind (P := fun _ => True) (Reg.check_reads fun _ _ => trivial) fun updatedAt _ => ?_
    refine .bind (updateBlock_reads at_ updatedAt) fun block _ => ?_
    refine .bind (P := fun entry => entry.at_ = at_) (Reg.check_reads fun e he => ?_)
      fun e he => ?_
    · exact (ReadAt.mapOk_at he).trans (hvalue value rfl)
    · rintro _ ⟨rfl⟩
      exact he

/-- A descriptor is offered where it was read. -/
theorem Reg.descriptor_reads (reader : RegistryReader V) (firstSeen : Option UInt64)
    (entry : ReadAt DescriptorEntry) :
    (Reg.descriptor reader firstSeen entry).Reads entry.at_ fun _ => True := by
  refine .bind (P := fun record => record.at_ = entry.at_)
    (.ofExcept fun record hrecord => ReadAt.mapOk_at hrecord) fun record hrecord => ?_
  exact .awaitOk hrecord fun _ _ => trivial

theorem forEach_reads {α : Type} {at_ : ChainHash} {body : α → Reg V Unit} :
    ∀ {as : List α}, (∀ a ∈ as, (body a).Reads at_ fun _ => True) →
      (forEach body as).Reads at_ fun _ => True
  | [], _ => trivial
  | a :: _, h => .bind (h a List.mem_cons_self) fun _ _ =>
      forEach_reads fun b hb => h b (List.mem_cons_of_mem a hb)

theorem snapshotMiners_reads (reader : RegistryReader V) (at_ : ChainHash) :
    ∀ (rounds : ℕ) (cursor : Option WinnerCursor),
      (snapshotMiners reader at_ rounds cursor).Reads at_ fun _ => True
  | 0, _ => trivial
  | rounds + 1, cursor => by
    refine .bind (minerPage_reads reader at_ cursor pageSize) fun page hpage => ?_
    refine .bind (P := fun records => ∀ record ∈ records, record.at_ = at_)
      (.ofExcept fun records hrecords record hrecord => ?_) fun records hrecords => ?_
    · obtain ⟨miner, hminer, hmap⟩ := (Except.mapM_mem hrecords).2 record hrecord
      exact (ReadAt.mapOk_at hmap).trans (hpage miner hminer)
    · refine .bind (P := fun _ => True) (.awaitOk hrecords fun _ _ => trivial) fun _ _ => ?_
      refine .ite (fun _ => trivial) fun _ => .ite (fun _ => trivial) fun _ => ?_
      exact ⟨trivial, fun _ _ => snapshotMiners_reads reader at_ rounds page.continuation⟩

theorem snapshotDescriptors_reads (reader : RegistryReader V) (at_ : ChainHash) :
    ∀ (rounds : ℕ) (cursor : Option WinnerCursor),
      (snapshotDescriptors reader at_ rounds cursor).Reads at_ fun _ => True
  | 0, _ => trivial
  | rounds + 1, cursor => by
    refine .bind (descriptorPage_reads reader at_ cursor) fun page hpage => ?_
    refine .bind (forEach_reads fun entry hentry => ?_) fun _ _ => ?_
    · rw [← hpage entry hentry]
      exact Reg.descriptor_reads reader none entry
    · refine .ite (fun _ => trivial) fun _ => ?_
      exact ⟨trivial, fun _ _ => snapshotDescriptors_reads reader at_ rounds page.2⟩

/-- **A pass offers what it read at its finalized head.** -/
theorem snapshotAt_reads (reader : RegistryReader V) (rounds : ℕ) (at_ : ChainHash) :
    (snapshotAt reader rounds at_).Reads at_ fun _ => True := by
  refine .bind (P := fun _ => True) (.awaitOk trivial fun _ _ => trivial) fun header _ => ?_
  refine .bind (P := fun _ => True) (Reg.check_reads fun _ _ => trivial) fun height _ => ?_
  refine .bind (snapshotMiners_reads reader at_ rounds none) fun _ _ => ?_
  refine .bind (snapshotDescriptors_reads reader at_ rounds none) fun _ _ => ?_
  exact .awaitOk trivial fun _ _ => trivial

theorem refreshDescriptor_reads (reader : RegistryReader V) (at_ : ChainHash)
    (timestamp : UInt64) (change : RegistryChange) :
    (refreshDescriptor reader at_ timestamp change).Reads at_ fun _ => True := by
  refine .bind (descriptorAt_reads reader at_ change.account) fun entry hentry => ?_
  cases entry with
  | none => trivial
  | some entry =>
    rw [← hentry entry rfl]
    exact Reg.descriptor_reads reader _ entry

theorem refreshMiner_reads (reader : RegistryReader V) (at_ : ChainHash)
    (account : List UInt8) : (refreshMiner reader at_ account).Reads at_ fun _ => True := by
  refine .bind (minerAt_reads reader at_ account) fun miner hminer => ?_
  cases miner with
  | none => trivial
  | some miner =>
    refine .bind (P := fun record => record.at_ = at_)
      (.ofExcept fun record hrecord => ?_) fun record hrecord => ?_
    · exact (ReadAt.mapOk_at hrecord).trans (hminer miner rfl)
    · refine .awaitOk (fun r hr => ?_) fun _ _ => trivial
      rw [List.mem_singleton.mp hr]
      exact hrecord

/-- **A refresh offers what it read at its finalized head.** -/
theorem refreshAt_reads (reader : RegistryReader V) (events : RegistryEvents)
    (at_ : ChainHash) : (refreshAt reader events at_).Reads at_ fun _ => True :=
  .bind (forEach_reads fun change _ => refreshDescriptor_reads reader at_ _ change)
    fun _ _ => forEach_reads fun account _ => refreshMiner_reads reader at_ account

end Dashboard

/-
Conditional upserts of the API tables.

The model of `upsert_chain_head`, `upsert_chain_miners`, `upsert_miner_hardware`
and their readers in `dashboard-store/src/telemetry.rs` and `miners.rs`.  Each
updates a stored row only when one of the columns of a list differs.

* `ChainHeadRow.decode_eq`, `ChainHead.row_decode` — a stored head reads back;
* `putMiners_counters` — the counters that a list of miners leaves behind;
* `upserts_read_back` — **what is read back is what was submitted, except for a
  chain head that differs in a column that its list leaves out**.
-/
import QuipDashboard.Blocks
import QuipDashboard.Lifecycle
import Mathlib.Data.List.Induction

namespace Dashboard

/-! ### Records and rows -/

/-- `RuntimeVersion`. -/
structure RuntimeVersion where
  specName : String
  specVersion : UInt32
  transactionVersion : UInt32
  implName : String
  lastRuntimeUpgrade : Option ℕ
  deriving DecidableEq

/-- `ChainHead`. -/
structure ChainHead where
  bestBlockNumber : ℕ
  bestBlockHash : BlockHash
  finalizedBlockNumber : ℕ
  finalizedBlockHash : BlockHash
  finalityLag : ℤ
  qblockCount : Option UInt64
  currentQblockId : Option ℕ
  currentQblockParticipants : Option UInt64
  runtime : RuntimeVersion
  updatedAt : Timestamp
  deriving DecidableEq

/-- `PartialEq for ChainHead`, apart from the update time. -/
def ChainHead.sameBut (a b : ChainHead) : Bool :=
  a.bestBlockNumber = b.bestBlockNumber
    && a.bestBlockHash.sameBytes b.bestBlockHash
    && a.finalizedBlockNumber = b.finalizedBlockNumber
    && a.finalizedBlockHash.sameBytes b.finalizedBlockHash
    && a.finalityLag = b.finalityLag
    && a.qblockCount = b.qblockCount
    && a.currentQblockId = b.currentQblockId
    && a.currentQblockParticipants = b.currentQblockParticipants
    && a.runtime = b.runtime

/-- `MinerHardwareSource`. -/
inductive MinerHardwareSource where
  | selfAccount
  | peerQuery
  | chain
  deriving DecidableEq

/-- `MinerHardwareRecord`. -/
structure MinerHardwareRecord where
  accountId : String
  nodeId : String
  miners : List MinerHandle
  primaryType : MinerCategory
  source : MinerHardwareSource
  observedAt : Timestamp
  deriving DecidableEq

/-- `ChainMinerRecord`; its last two fields are joined by the API. -/
structure ChainMinerRecord where
  accountId : String
  deposit : ℕ
  proofsSubmitted : ℕ
  proofsWon : ℕ
  rewardsEarned : ℕ
  telemetryNodeAddress : Option String
  hardware : Option MinerHardwareRecord
  deriving DecidableEq

/-- The row of `chain_head`; stored timestamps are in UTC milliseconds. -/
structure ChainHeadRow where
  bestBlockNumber : ℕ
  bestBlockHash : BlockHash
  finalizedBlockNumber : ℕ
  finalizedBlockHash : BlockHash
  finalityLag : ℤ
  winningSolutionsCount : Option UInt64
  currentQblockId : Option ℕ
  currentQblockParticipants : Option ℤ
  specName : String
  specVersion : ℤ
  transactionVersion : ℤ
  implName : String
  lastRuntimeUpgrade : Option ℕ
  updatedAt : ℤ
  deriving DecidableEq

/-- The counters of a row of `chain_miners`. -/
structure ChainMinerCounters where
  deposit : ℕ
  proofsSubmitted : ℕ
  proofsWon : ℕ
  rewardsEarned : ℕ
  deriving DecidableEq

/-- A row of `chain_miners`, under its account. -/
structure ChainMinerRow extends ChainMinerCounters where
  updatedAt : ℤ
  deriving DecidableEq

/-- A row of `miner_hardware`, under its account. -/
structure MinerHardwareRow where
  nodeId : String
  miners : List MinerHandle
  primaryType : MinerCategory
  source : MinerHardwareSource
  observedAt : ℤ
  deriving DecidableEq

/-- The store with the tables that the API snapshots are kept in. -/
structure ApiStore where
  store : Store
  /-- `chain_head`, by its singleton `id`. -/
  chainHead : KeyedTable ℕ ChainHeadRow
  /-- `chain_miners`, by account. -/
  chainMiners : KeyedTable String ChainMinerRow
  /-- `miner_hardware`, by account. -/
  minerHardware : KeyedTable String MinerHardwareRow

/-! ### Timestamp and integer columns -/

/-- A timestamp column: the canonical text, by its milliseconds. -/
def storeTimestamp : Timestamp → Except StoreError ℤ
  | .utc millis => .ok millis
  | .malformed message => .error (.invalid message)

/-- What `CAST(… AS integer)` of the embedded engine makes of the text of a number
above `i64::MAX`: some `i64`. -/
structure TextCast where
  cast : ℕ → ℤ
  cast_le : ∀ n, cast n ≤ i64Max

/-- A number of at most 32 or 64 bits in an `integer` column, which has 32 bits on
Postgres. -/
def storeSigned (pg : Bool) (n : ℤ) : Except StoreError ℤ :=
  if pg ∧ ¬(-2 ^ 31 ≤ n ∧ n ≤ i32Max) then .error (.database "integer out of range") else .ok n

/-- A `u64` in an `integer` column: above `i64::MAX` it is bound as a text. -/
def storeUnsigned (pg : Bool) (c : TextCast) (n : UInt64) : Except StoreError ℤ :=
  if pg then storeSigned pg n.toNat
  else if n.toNat ≤ i64Max then .ok n.toNat
  else .ok (c.cast n.toNat)

/-- An integer column that is read as a `u32`. -/
def readU32 (n : ℤ) : Except StoreError UInt32 :=
  if 0 ≤ n ∧ n < 2 ^ 32 then .ok (UInt32.ofNat n.toNat) else .error (.json "expected u32")

/-- An integer column that is read as a `u64`. -/
def readU64 (n : ℤ) : Except StoreError UInt64 :=
  if 0 ≤ n then .ok (UInt64.ofNat n.toNat) else .error (.json "expected u64")

theorem storeSigned_ok {pg : Bool} {n m : ℤ} (h : storeSigned pg n = .ok m) : m = n := by
  unfold storeSigned at h
  split at h
  · cases h
  · exact (Except.ok.inj h).symm

theorem readU32_toNat (n : UInt32) : readU32 n.toNat = .ok n := by
  have := n.toNat_lt
  rw [readU32, if_pos (by omega), Int.toNat_natCast, UInt32.ofNat_toNat]

/-- A `u32` column holds its number, and is read as that. -/
theorem readU32_iff {m : ℤ} {n : UInt32} : readU32 m = .ok n ↔ m = n.toNat := by
  constructor
  · intro h
    unfold readU32 at h
    split at h
    · rename_i hm
      have hlt : m.toNat < 2 ^ 32 := by omega
      rw [← Except.ok.inj h, UInt32.toNat_ofNat_of_lt' hlt]
      omega
    · cases h
  · rintro rfl
    exact readU32_toNat n

/-- A `u64` is read back from an integer column exactly up to `i64::MAX`. -/
theorem readU64_storeUnsigned {pg : Bool} {c : TextCast} {n : UInt64} {m : ℤ}
    (h : storeUnsigned pg c n = .ok m) : readU64 m = .ok n ↔ pg = true ∨ n.toNat ≤ i64Max := by
  have hread : readU64 n.toNat = .ok n := by
    rw [readU64, if_pos (by omega), Int.toNat_natCast, UInt64.ofNat_toNat]
  unfold storeUnsigned at h
  split at h
  · rename_i hpg
    rw [storeSigned_ok h]
    exact iff_of_true hread (.inl hpg)
  · rename_i hpg
    split at h
    · rename_i hle
      cases h
      exact iff_of_true hread (.inr hle)
    · rename_i hgt
      cases h
      -- the cast is an `i64`, the number is not
      refine iff_of_false ?_ (not_or.mpr ⟨hpg, hgt⟩)
      intro hback
      unfold readU64 at hback
      split at hback
      · have hle := c.cast_le n.toNat
        have hnat : (c.cast n.toNat).toNat ≤ i64Max := by omega
        have hlt : (c.cast n.toNat).toNat < 2 ^ 64 := by
          unfold i64Max at hnat
          omega
        rw [← Except.ok.inj hback, UInt64.toNat_ofNat_of_lt' hlt] at hgt
        exact hgt hnat
      · cases hback

/-! ### The chain head -/

/-- The row that `upsert_chain_head` submits. -/
def ChainHead.row (pg : Bool) (c : TextCast) (head : ChainHead) : Except StoreError ChainHeadRow := do
  let updatedAt ← storeTimestamp head.updatedAt
  let participants ← head.currentQblockParticipants.mapM (storeUnsigned pg c)
  let lag ← storeSigned pg head.finalityLag
  let spec ← storeSigned pg head.runtime.specVersion.toNat
  let transaction ← storeSigned pg head.runtime.transactionVersion.toNat
  return {
    bestBlockNumber := head.bestBlockNumber
    bestBlockHash := head.bestBlockHash
    finalizedBlockNumber := head.finalizedBlockNumber
    finalizedBlockHash := head.finalizedBlockHash
    finalityLag := lag
    winningSolutionsCount := head.qblockCount
    currentQblockId := head.currentQblockId
    currentQblockParticipants := participants
    specName := head.runtime.specName
    specVersion := spec
    transactionVersion := transaction
    implName := head.runtime.implName
    lastRuntimeUpgrade := head.runtime.lastRuntimeUpgrade
    updatedAt := updatedAt }

/-- The condition of `upsert_chain_head`: a listed column is distinct. -/
def ChainHeadRow.differs (old new : ChainHeadRow) : Bool :=
  old.bestBlockNumber ≠ new.bestBlockNumber
    || old.finalizedBlockNumber ≠ new.finalizedBlockNumber
    || old.winningSolutionsCount ≠ new.winningSolutionsCount
    || old.currentQblockId ≠ new.currentQblockId
    || old.currentQblockParticipants ≠ new.currentQblockParticipants
    || old.specVersion ≠ new.specVersion

/-- The columns that the condition leaves out agree; hashes by their bytes. -/
def ChainHeadRow.restSame (old new : ChainHeadRow) : Bool :=
  old.bestBlockHash.sameBytes new.bestBlockHash
    && old.finalizedBlockHash.sameBytes new.finalizedBlockHash
    && old.finalityLag = new.finalityLag
    && old.specName = new.specName
    && old.transactionVersion = new.transactionVersion
    && old.implName = new.implName
    && old.lastRuntimeUpgrade = new.lastRuntimeUpgrade

/-- `Store::upsert`: a write of one record's row to a bound store. -/
def upsertRecord {ρ : Type} (row : ApiStore → Except StoreError ρ) (put : ρ → ApiStore → ApiStore)
    (s : ApiStore) : Except StoreError Unit × ApiStore :=
  Tx.write (do
    let _ ← Tx.readM fun s : ApiStore => s.store.requireBound
    let r ← Tx.readM row
    Tx.update fun s => ((), put r s)
    return .commit ()) s

/-- `upsert_chain_head`. -/
def upsertChainHead (c : TextCast) (head : ChainHead) : ApiStore → Except StoreError Unit × ApiStore :=
  upsertRecord (fun s => head.row s.store.pg c) fun row s =>
    { s with chainHead := (s.chainHead.upsertWhere 1 row ChainHeadRow.differs).2 }

/-- The head that a row is decoded to. -/
def ChainHeadRow.decode (row : ChainHeadRow) : Except StoreError ChainHead := do
  let participants ← row.currentQblockParticipants.mapM readU64
  let spec ← readU32 row.specVersion
  let transaction ← readU32 row.transactionVersion
  return {
    bestBlockNumber := row.bestBlockNumber
    bestBlockHash := row.bestBlockHash
    finalizedBlockNumber := row.finalizedBlockNumber
    finalizedBlockHash := row.finalizedBlockHash
    finalityLag := row.finalityLag
    qblockCount := row.winningSolutionsCount
    currentQblockId := row.currentQblockId
    currentQblockParticipants := participants
    runtime := ⟨row.specName, spec, transaction, row.implName, row.lastRuntimeUpgrade⟩
    updatedAt := .utc row.updatedAt }

/-- `get_chain_head`, within the row and byte budget of `query_api`: a read beyond it fails. -/
def getChainHead (s : ApiStore) : Except StoreError (Option ChainHead) :=
  match s.chainHead.get? 1 with
  | none => .ok none
  | some row => row.decode.map some

theorem upsertRecord_ok {ρ : Type} {row : ApiStore → Except StoreError ρ}
    {put : ρ → ApiStore → ApiStore} {s s' : ApiStore} (h : upsertRecord row put s = (.ok (), s')) :
    ∃ r, row s = .ok r ∧ s' = put r s := by
  rcases Tx.write_ok.mp h with h | ⟨⟨t, h⟩, -⟩
  · obtain ⟨-, -, h⟩ := Tx.exec_readM_bind_ok.mp h
    obtain ⟨r, hr, h⟩ := Tx.exec_readM_bind_ok.mp h
    cases h
    exact ⟨r, hr, rfl⟩
  · obtain ⟨-, -, h⟩ := Tx.exec_readM_bind_ok.mp h
    obtain ⟨r, -, h⟩ := Tx.exec_readM_bind_ok.mp h
    cases h

/-- What the row of a head consists of. -/
theorem ChainHead.row_ok {pg : Bool} {c : TextCast} {head : ChainHead} {row : ChainHeadRow}
    (h : head.row pg c = .ok row) : ∃ participants updatedAt,
      head.currentQblockParticipants.mapM (storeUnsigned pg c) = .ok participants ∧ row = {
        bestBlockNumber := head.bestBlockNumber
        bestBlockHash := head.bestBlockHash
        finalizedBlockNumber := head.finalizedBlockNumber
        finalizedBlockHash := head.finalizedBlockHash
        finalityLag := head.finalityLag
        winningSolutionsCount := head.qblockCount
        currentQblockId := head.currentQblockId
        currentQblockParticipants := participants
        specName := head.runtime.specName
        specVersion := head.runtime.specVersion.toNat
        transactionVersion := head.runtime.transactionVersion.toNat
        implName := head.runtime.implName
        lastRuntimeUpgrade := head.runtime.lastRuntimeUpgrade
        updatedAt := updatedAt } := by
  have hbind : ∀ {α β : Type} {x : Except StoreError α} {f : α → Except StoreError β} {b : β},
      (x >>= f) = .ok b → ∃ a, x = .ok a ∧ f a = .ok b := by
    intro α β x f b hx
    cases x with
    | error e => cases hx
    | ok a => exact ⟨a, rfl, hx⟩
  unfold ChainHead.row at h
  obtain ⟨updatedAt, -, h⟩ := hbind h
  obtain ⟨participants, hp, h⟩ := hbind h
  obtain ⟨lag, hlag, h⟩ := hbind h
  obtain ⟨spec, hspec, h⟩ := hbind h
  obtain ⟨transaction, htransaction, h⟩ := hbind h
  rw [storeSigned_ok hlag, storeSigned_ok hspec, storeSigned_ok htransaction] at h
  exact ⟨participants, updatedAt, hp, (Except.ok.inj h).symm⟩

/-- The participants are read back exactly up to `i64::MAX`, or on Postgres. -/
theorem participants_read {pg : Bool} {c : TextCast} {n : Option UInt64} {m : Option ℤ}
    (h : n.mapM (storeUnsigned pg c) = .ok m) :
    m.mapM readU64 = .ok n ↔ ∀ k ∈ n, pg = true ∨ k.toNat ≤ i64Max := by
  cases n with
  | none =>
    cases h
    simp [pure, Except.pure]
  | some k =>
    cases hk : storeUnsigned pg c k with
    | error e => simp [hk, Functor.map, Except.map] at h
    | ok v =>
      simp only [Option.mapM_some, hk, Functor.map, Except.map, Except.ok.injEq] at h
      rw [← h]
      simp only [Option.mem_def, Option.some.injEq, forall_eq', ← readU64_storeUnsigned hk]
      cases hv : readU64 v with
      | error e => simp [Functor.map, Except.map, hv]
      | ok v' => simp [Functor.map, Except.map, hv]

theorem ChainHeadRow.differs_self (row : ChainHeadRow) : row.differs row = false := by
  simp [differs]

theorem ChainHeadRow.restSame_self (row : ChainHeadRow) : row.restSame row = true := by
  simp [restSame]

/-- **A row without a difference in the listed columns is read as the submitted
head** exactly when the other columns agree and the participants can be read. -/
theorem ChainHeadRow.decode_sameBut {pg : Bool} {c : TextCast} {head : ChainHead}
    {old new : ChainHeadRow} (hnew : head.row pg c = .ok new) (hold : old.differs new = false) :
    (∃ back, old.decode = .ok back ∧ back.sameBut head = true) ↔
      (∀ n ∈ head.currentQblockParticipants, pg = true ∨ n.toNat ≤ i64Max) ∧
        old.restSame new = true := by
  obtain ⟨participants, updatedAt, hp, rfl⟩ := ChainHead.row_ok hnew
  simp only [differs, Bool.or_eq_false_iff, decide_eq_false_iff_not, ne_eq, not_not] at hold
  obtain ⟨⟨⟨⟨⟨hbest, hfin⟩, hcount⟩, hid⟩, hparts⟩, hspec⟩ := hold
  have hread := readU32_toNat head.runtime.specVersion
  rw [← participants_read hp]
  unfold decode
  rw [hparts, hspec, hread]
  -- the row is read in order: the participants first, then the transaction version
  cases hps : participants.mapM readU64 with
  | error e =>
    refine iff_of_false ?_ fun h => by cases h.1
    rintro ⟨back, hback, -⟩
    cases hback
  | ok ps =>
    cases ht : readU32 old.transactionVersion with
    | error e =>
      refine iff_of_false ?_ ?_
      · rintro ⟨back, hback, -⟩
        cases hback
      · rintro ⟨-, hrest⟩
        simp only [restSame, Bool.and_eq_true, decide_eq_true_eq] at hrest
        rw [readU32_iff.mpr hrest.1.1.2] at ht
        cases ht
    | ok transaction =>
      have htv := readU32_iff.mp ht
      have htrans : old.transactionVersion = head.runtime.transactionVersion.toNat ↔
          transaction = head.runtime.transactionVersion := by
        rw [htv]
        constructor
        · intro h
          exact UInt32.toNat_inj.mp (by omega)
        · rintro rfl
          rfl
      constructor
      · rintro ⟨back, hback, hsame⟩
        cases hback
        simp only [ChainHead.sameBut, Bool.and_eq_true, decide_eq_true_eq] at hsame
        obtain ⟨⟨⟨⟨⟨⟨⟨⟨-, hb⟩, -⟩, hf⟩, hlag⟩, -⟩, -⟩, hparts'⟩, hruntime⟩ := hsame
        refine ⟨by rw [hparts'], ?_⟩
        simp only [restSame, Bool.and_eq_true, decide_eq_true_eq, htrans]
        rw [← hruntime]
        exact ⟨⟨⟨⟨⟨⟨hb, hf⟩, hlag⟩, rfl⟩, rfl⟩, rfl⟩, rfl⟩
      · rintro ⟨hparts', hrest⟩
        simp only [restSame, Bool.and_eq_true, decide_eq_true_eq, htrans] at hrest
        obtain ⟨⟨⟨⟨⟨⟨hb, hf⟩, hlag⟩, hname⟩, htr⟩, himpl⟩, hup⟩ := hrest
        refine ⟨_, rfl, ?_⟩
        simp only [ChainHead.sameBut, Bool.and_eq_true, decide_eq_true_eq]
        refine ⟨⟨⟨⟨⟨⟨⟨⟨hbest, hb⟩, hfin⟩, hf⟩, hlag⟩, hcount⟩, hid⟩, Except.ok.inj hparts'⟩, ?_⟩
        rw [hname, htr, himpl, hup]

/-- The conditions under which a submitted chain head is read back. -/
def HeadKept (c : TextCast) (head : ChainHead) (s : ApiStore) : Prop :=
  (∀ n ∈ head.currentQblockParticipants, s.store.pg = true ∨ n.toNat ≤ i64Max) ∧
    ∀ old new, s.chainHead.get? 1 = some old → head.row s.store.pg c = .ok new →
      old.differs new = true ∨ old.restSame new = true

theorem chainHead_read_back {c : TextCast} {head : ChainHead} {s s' : ApiStore}
    (h : upsertChainHead c head s = (.ok (), s')) :
    (∃ back, getChainHead s' = .ok (some back) ∧ back.sameBut head = true) ↔ HeadKept c head s := by
  obtain ⟨new, hnew, rfl⟩ := upsertRecord_ok h
  -- reading goes by the row that is now stored
  have hread : ∀ row : ChainHeadRow,
      (s.chainHead.upsertWhere 1 new ChainHeadRow.differs).2.get? 1 = some row →
      ((∃ back, getChainHead { s with
        chainHead := (s.chainHead.upsertWhere 1 new ChainHeadRow.differs).2 } = .ok (some back) ∧
          back.sameBut head = true) ↔ ∃ back, row.decode = .ok back ∧ back.sameBut head = true) := by
    intro row hrow
    unfold getChainHead
    rw [hrow]
    cases hd : row.decode <;> simp [Except.map, hd]
  rcases KeyedTable.get?_upsertWhere_self s.chainHead 1 new ChainHeadRow.differs with
    ⟨hdiff, hrow⟩ | ⟨old, hold, hsame, hrow⟩
  · rw [hread new hrow, ChainHeadRow.decode_sameBut hnew new.differs_self]
    refine and_congr_right fun _ => iff_of_true new.restSame_self ?_
    intro old new' hold hnew'
    cases hnew.symm.trans hnew'
    exact .inl (hdiff old hold)
  · rw [hread old hrow, ChainHeadRow.decode_sameBut hnew hsame]
    refine and_congr_right fun _ => ⟨fun hrest old' new' hold' hnew' => ?_, fun hall => ?_⟩
    · cases hold.symm.trans hold'
      cases hnew.symm.trans hnew'
      exact .inr hrest
    · rcases hall old new hold hnew with hd | hrest
      · rw [hsame] at hd
        cases hd
      · exact hrest

/-! ### Chain miners -/

/-- The row that `upsert_chain_miners` submits; the joined fields are removed. -/
def ChainMinerRecord.row (m : ChainMinerRecord) (updatedAt : ℤ) : ChainMinerRow :=
  ⟨⟨m.deposit, m.proofsSubmitted, m.proofsWon, m.rewardsEarned⟩, updatedAt⟩

/-- The condition of `upsert_chain_miners`. -/
def ChainMinerRow.differs (old new : ChainMinerRow) : Bool :=
  old.deposit ≠ new.deposit
    || old.proofsSubmitted ≠ new.proofsSubmitted
    || old.proofsWon ≠ new.proofsWon
    || old.rewardsEarned ≠ new.rewardsEarned

/-- The loop of `upsert_chain_miners`, on the table. -/
def putMiners (t : KeyedTable String ChainMinerRow) (updatedAt : ℤ) (miners : List ChainMinerRecord) :
    KeyedTable String ChainMinerRow :=
  miners.foldl (fun t m => (t.upsertWhere m.accountId (m.row updatedAt) ChainMinerRow.differs).2) t

/-- `upsert_chain_miners`. -/
def upsertChainMiners (now : Timestamp) (miners : List ChainMinerRecord) :
    ApiStore → Except StoreError Unit × ApiStore :=
  upsertRecord (fun _ => storeTimestamp now) fun updatedAt s =>
    { s with chainMiners := putMiners s.chainMiners updatedAt miners }

/-- A miner row as a record, without the joins of the API. -/
def ChainMinerRow.record (account : String) (row : ChainMinerRow) : ChainMinerRecord :=
  ⟨account, row.deposit, row.proofsSubmitted, row.proofsWon, row.rewardsEarned, none, none⟩

/-- `get_chain_miners`: by rewards, and then by account. The read is within the row and byte
budget of `query_api`, beyond which it fails. -/
def getChainMiners (s : ApiStore) : List ChainMinerRecord :=
  (s.chainMiners.rows.map fun r => r.2.record r.1).mergeSort fun a b =>
    b.rewardsEarned < a.rewardsEarned ∨
      a.rewardsEarned = b.rewardsEarned ∧ a.accountId ≤ b.accountId

theorem ChainMinerRow.differs_eq_false {old new : ChainMinerRow} :
    old.differs new = false ↔ old.toChainMinerCounters = new.toChainMinerCounters := by
  obtain ⟨⟨d, p, w, r⟩, u⟩ := old
  obtain ⟨⟨d', p', w', r'⟩, u'⟩ := new
  simp [differs, and_assoc]

/-- A miner's record leaves its counters behind. -/
theorem putMiner_counters (t : KeyedTable String ChainMinerRow) (m : ChainMinerRecord)
    (updatedAt : ℤ) :
    ((t.upsertWhere m.accountId (m.row updatedAt) ChainMinerRow.differs).2.get? m.accountId).map
      ChainMinerRow.toChainMinerCounters = some (m.row updatedAt).toChainMinerCounters := by
  rcases KeyedTable.get?_upsertWhere_self t m.accountId (m.row updatedAt) ChainMinerRow.differs with
    ⟨-, h⟩ | ⟨old, -, hsame, h⟩
  · rw [h]
    rfl
  · rw [h, Option.map_some, ChainMinerRow.differs_eq_false.mp hsame]

/-- **The last record of an account leaves its counters behind.** -/
theorem putMiners_counters (t : KeyedTable String ChainMinerRow) (updatedAt : ℤ) (account : String)
    (miners : List ChainMinerRecord) :
    ((putMiners t updatedAt miners).get? account).map ChainMinerRow.toChainMinerCounters =
      ((miners.filter (·.accountId = account)).getLast?.map fun m =>
        (m.row updatedAt).toChainMinerCounters).or
        ((t.get? account).map ChainMinerRow.toChainMinerCounters) := by
  induction miners using List.reverseRecOn with
  | nil => rfl
  | append_singleton miners m ih =>
    rw [putMiners, List.foldl_append, List.foldl_cons, List.foldl_nil, ← putMiners,
      List.filter_append]
    by_cases hm : m.accountId = account
    · subst hm
      rw [putMiner_counters, List.filter_singleton, decide_eq_true rfl, cond_true,
        List.getLast?_concat]
      rfl
    · rw [KeyedTable.upsertWhere, KeyedTable.get?_upsert_ne (Ne.symm hm), ih,
        List.filter_singleton, decide_eq_false hm, cond_false, List.append_nil]

/-- The conditions under which a submitted miner is read back: it has no joined
field, and the last record of its account in the call has its counters. -/
def MinerKept (m : ChainMinerRecord) (miners : List ChainMinerRecord) : Prop :=
  m.telemetryNodeAddress = none ∧ m.hardware = none ∧
    ∀ last, (miners.filter (·.accountId = m.accountId)).getLast? = some last →
      (last.row 0).toChainMinerCounters = (m.row 0).toChainMinerCounters

theorem chainMiners_read_back {now : Timestamp} {miners : List ChainMinerRecord} {s s' : ApiStore}
    (h : upsertChainMiners now miners s = (.ok (), s')) {m : ChainMinerRecord} (hm : m ∈ miners) :
    m ∈ getChainMiners s' ↔ MinerKept m miners := by
  obtain ⟨updatedAt, -, rfl⟩ := upsertRecord_ok h
  have hmem : ∀ r : ChainMinerRecord, r ∈ getChainMiners { s with
      chainMiners := putMiners s.chainMiners updatedAt miners } ↔
      ∃ row, (putMiners s.chainMiners updatedAt miners).get? r.accountId = some row ∧
        row.record r.accountId = r := by
    intro r
    rw [getChainMiners, (List.mergeSort_perm _ _).mem_iff, List.mem_map]
    constructor
    · rintro ⟨⟨k, row⟩, hrow, rfl⟩
      exact ⟨row, KeyedTable.get?_eq_some.mpr hrow, rfl⟩
    · rintro ⟨row, hrow, hr⟩
      exact ⟨(r.accountId, row), KeyedTable.get?_eq_some.mp hrow, hr⟩
  -- the call has a last record of this account
  have hne : miners.filter (·.accountId = m.accountId) ≠ [] :=
    List.ne_nil_of_mem (List.mem_filter.mpr ⟨hm, decide_eq_true rfl⟩)
  have hlast := List.getLast?_eq_some_getLast hne
  generalize (miners.filter (·.accountId = m.accountId)).getLast hne = last at hlast
  have hcounters := putMiners_counters s.chainMiners updatedAt m.accountId miners
  rw [hlast, Option.map_some, Option.some_or] at hcounters
  obtain ⟨row, hrow, hrowc⟩ := Option.map_eq_some_iff.mp hcounters
  rw [hmem]
  constructor
  · rintro ⟨row', hrow', hrec⟩
    cases hrow.symm.trans hrow'
    refine ⟨by rw [← hrec]; rfl, by rw [← hrec]; rfl, ?_⟩
    intro last' hlast'
    cases hlast.symm.trans hlast'
    have hc : (m.row 0).toChainMinerCounters = row.toChainMinerCounters := by
      rw [← hrec]
      rfl
    rw [hc, hrowc]
    rfl
  · rintro ⟨haddress, hhardware, hall⟩
    have hc : row.toChainMinerCounters = (m.row 0).toChainMinerCounters :=
      hrowc.trans (hall last hlast)
    refine ⟨row, hrow, ?_⟩
    rw [ChainMinerRow.record, hc]
    obtain ⟨account, d, p, w, r, address, hardware⟩ := m
    cases haddress
    cases hhardware
    rfl

/-! ### Miner hardware -/

/-- The row that `upsert_miner_hardware` submits. -/
def MinerHardwareRecord.row (r : MinerHardwareRecord) : Except StoreError MinerHardwareRow :=
  match storeTimestamp r.observedAt with
  | .ok observedAt => .ok ⟨r.nodeId, r.miners, r.primaryType, r.source, observedAt⟩
  | .error e => .error e

/-- The condition of `upsert_miner_hardware`. -/
def MinerHardwareRow.differs (old new : MinerHardwareRow) : Bool :=
  old.nodeId ≠ new.nodeId
    || old.miners ≠ new.miners
    || old.primaryType ≠ new.primaryType
    || old.source ≠ new.source

/-- `upsert_miner_hardware`. -/
def upsertMinerHardware (r : MinerHardwareRecord) : ApiStore → Except StoreError Unit × ApiStore :=
  upsertRecord (fun _ => r.row) fun row s =>
    { s with minerHardware := (s.minerHardware.upsertWhere r.accountId row
      MinerHardwareRow.differs).2 }

/-- `get_miner_hardware`. -/
def getMinerHardware (account : String) (s : ApiStore) : Option MinerHardwareRecord :=
  (s.minerHardware.get? account).map fun row =>
    ⟨account, row.nodeId, row.miners, row.primaryType, row.source, .utc row.observedAt⟩

theorem minerHardware_read_back {r : MinerHardwareRecord} {s s' : ApiStore}
    (h : upsertMinerHardware r s = (.ok (), s')) :
    ∃ back, getMinerHardware r.accountId s' = some back ∧
      back = { r with observedAt := back.observedAt } := by
  obtain ⟨new, hnew, rfl⟩ := upsertRecord_ok h
  unfold MinerHardwareRecord.row at hnew
  split at hnew
  · rename_i observedAt _
    cases hnew
    rcases KeyedTable.get?_upsertWhere_self s.minerHardware r.accountId
      ⟨r.nodeId, r.miners, r.primaryType, r.source, observedAt⟩ MinerHardwareRow.differs with
      ⟨-, hrow⟩ | ⟨old, -, hsame, hrow⟩
    · exact ⟨_, by rw [getMinerHardware, hrow]; rfl, rfl⟩
    · refine ⟨_, by rw [getMinerHardware, hrow]; rfl, ?_⟩
      simp only [MinerHardwareRow.differs, Bool.or_eq_false_iff, decide_eq_false_iff_not, ne_eq,
        not_not] at hsame
      obtain ⟨⟨⟨h₁, h₂⟩, h₃⟩, h₄⟩ := hsame
      show MinerHardwareRecord.mk r.accountId old.nodeId old.miners old.primaryType old.source _ = _
      rw [h₁, h₂, h₃, h₄]
  · cases hnew

/-! ### Participants -/

/-- A participant row under its key, as a record. -/
def readParticipant (s : Store) (qblockId : ℕ) (account : String) : Option QBlockParticipationRecord :=
  (s.participation.get? (qblockId, account)).map fun row =>
    { row with qblockId := qblockId, account := account }

theorem participant_read_back {p : QBlockParticipationRecord} {s s' : Store} {n : ℕ}
    (h : (writeParticipant p).exec s = .ok (n, s')) :
    readParticipant s' p.qblockId p.account = some p := by
  unfold writeParticipant at h
  split at h
  · cases h
  · cases h
    unfold readParticipant putParticipant
    rw [KeyedTable.get?_upsert_self, Option.map_some]
    cases s.participation.get? (p.qblockId, p.account) with
    | none => rfl
    | some old =>
      simp only [Option.elim_some]
      split
      · rfl
      · rename_i hsame
        simp only [not_or, ne_eq, not_not] at hsame
        obtain ⟨h₁, h₂, h₃⟩ := hsame
        simp only [Option.getD_none, h₁, h₂, h₃]

/-- **Conditional upserts are read-after-write, up to the columns that the chain
head's condition leaves out.**  After a successful call a hardware record and a
participant are read back as submitted, but for the observation time; a miner
when nothing is joined to it and it is the last of its account in the call; and
a chain head exactly when no row was stored, a listed column differs or the
others agree, and its participants fit the column. -/
theorem upserts_read_back (c : TextCast) (s s' : ApiStore) :
    (∀ head, upsertChainHead c head s = (.ok (), s') →
      ((∃ back, getChainHead s' = .ok (some back) ∧ back.sameBut head = true) ↔
        HeadKept c head s)) ∧
    (∀ now miners, upsertChainMiners now miners s = (.ok (), s') → ∀ m ∈ miners,
      (m ∈ getChainMiners s' ↔ MinerKept m miners)) ∧
    (∀ r, upsertMinerHardware r s = (.ok (), s') →
      ∃ back, getMinerHardware r.accountId s' = some back ∧
        back = { r with observedAt := back.observedAt }) ∧
    ∀ p t t' n, (writeParticipant p).exec t = .ok (n, t') →
      readParticipant t' p.qblockId p.account = some p :=
  ⟨fun _ h => chainHead_read_back h, fun _ _ h _ hm => chainMiners_read_back h hm,
    fun _ h => minerHardware_read_back h, fun _ _ _ _ h => participant_read_back h⟩

/-- A head at height 5 with this best hash. -/
def headWith (best : BlockHash) : ChainHead where
  bestBlockNumber := 5
  bestBlockHash := best
  finalizedBlockNumber := 4
  finalizedBlockHash := .uniform 4
  finalityLag := 1
  qblockCount := some 3
  currentQblockId := some 3
  currentQblockParticipants := some 2
  runtime := ⟨"quip", 118, 1, "quip-node", none⟩
  updatedAt := .utc 0

/-- An engine that casts every large text to `i64::MAX`. -/
def saturatingCast : TextCast := ⟨fun _ => i64Max, fun _ => le_refl _⟩

/-- Empty tables of a store that is bound to a network. -/
def emptyApi : ApiStore := ⟨.bound false (.uniform 1), .empty, .empty, .empty⟩

/-- The store after a first head. -/
def headApi : ApiStore := (upsertChainHead saturatingCast (headWith (.uniform 5)) emptyApi).2

/-- The head of the next block. -/
def nextHead : ChainHead := { headWith (.uniform 6) with bestBlockNumber := 6, finalityLag := 2 }

/-- The store after both heads. -/
def nextApi : ApiStore := (upsertChainHead saturatingCast nextHead headApi).2

/-- The head of the next block replaces the one that is stored, and is read back. -/
theorem upserts_read_back_next : getChainHead headApi = .ok (some (headWith (.uniform 5))) ∧
    ∃ back, getChainHead nextApi = .ok (some back) ∧ back.sameBut nextHead = true := by
  have h : upsertChainHead saturatingCast nextHead headApi = (.ok (), nextApi) :=
    Prod.ext (by decide +kernel) rfl
  have hdiffers : ∀ old ∈ headApi.chainHead.get? 1,
      ∀ new ∈ (nextHead.row headApi.store.pg saturatingCast).toOption, old.differs new = true := by
    decide +kernel
  refine ⟨by decide +kernel, ((upserts_read_back ..).1 _ h).mpr ⟨?_, ?_⟩⟩
  · rintro n ⟨rfl⟩
    exact .inr (by decide)
  · intro old new hold hnew
    exact .inl (hdiffers old hold new (by rw [hnew]; rfl))

/-- Another best block of the same height is not. -/
theorem reorganized_head_lost : ∃ s s' head, upsertChainHead saturatingCast head s = (.ok (), s') ∧
    ¬∃ back, getChainHead s' = .ok (some back) ∧ back.sameBut head = true := by
  refine ⟨headApi, _, headWith (.uniform 6), Prod.ext (by decide +kernel) rfl, ?_⟩
  rintro ⟨back, hback, hsame⟩
  have hstale : getChainHead (upsertChainHead saturatingCast (headWith (.uniform 6)) headApi).2 =
      .ok (some (headWith (.uniform 5))) := by
    decide +kernel
  cases hback.symm.trans hstale
  exact absurd hsame (by decide +kernel)

end Dashboard

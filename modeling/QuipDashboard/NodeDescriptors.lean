/-
Node descriptors and the time they were first seen.

The model of `upsert_node_descriptor` and `backfill_node_descriptor_first_seen` in
`dashboard-store/src/miners.rs`.  The first writes a row unless the stored one has a
later position on the chain, and leaves `first_block_timestamp` out of its update; the
second lowers that column alone.

* `later_iff` — the condition on texts is the order of positions;
* `DescriptorRun.keeps` — what any calls keep of the row of an account;
* `descriptor_row_of_run` — **the final row holds the delivered descriptor at the
  greatest position, and the least of the first delivered descriptor's time and the
  backfilled times**.
-/
import QuipDashboard.ConditionalUpserts
import QuipDashboard.DigitOrder
import QuipDashboard.JsonDocument
import Mathlib.Data.Prod.Lex

namespace Dashboard

/-! ### Records and rows -/

/-- `NodeDescriptor`: the node name, and the other fields of the document. -/
structure NodeDescriptor where
  nodeName : String
  fields : JsonValue

/-- `NodeDescriptorRecord`. -/
structure NodeDescriptorRecord where
  accountId : String
  blockNumber : ℕ
  blockHash : BlockHash
  extrinsicIndex : UInt32
  blockTimestamp : UInt64
  firstBlockTimestamp : UInt64
  descriptor : NodeDescriptor
  observedAt : Timestamp

/-- The columns of `node_descriptors` that a conflicting insert replaces. -/
structure DescriptorColumns where
  blockNumber : ℕ
  blockHash : BlockHash
  extrinsicIndex : ℤ
  blockTimestamp : ℤ
  descriptor : NodeDescriptor
  observedAt : ℤ

/-- A row of `node_descriptors`, under its account. -/
structure NodeDescriptorRow extends DescriptorColumns where
  firstBlockTimestamp : ℤ
  nodeName : Option String

/-- The store with the table of descriptors. -/
structure NodeStore where
  store : Store
  nodeDescriptors : KeyedTable String NodeDescriptorRow

/-- A `u64` in a `BIGINT` column: above `i64::MAX` it is bound as a text. -/
def storeBigint (pg : Bool) (c : TextCast) (n : UInt64) : Except StoreError ℤ :=
  if n.toNat ≤ i64Max then .ok n.toNat
  else if pg then .error (.database "bigint out of range")
  else .ok (c.cast n.toNat)

/-- The columns that a record is stored as. -/
def NodeDescriptorRecord.columns (pg : Bool) (c : TextCast) (r : NodeDescriptorRecord) :
    Except StoreError DescriptorColumns := do
  let observedAt ← storeTimestamp r.observedAt
  let extrinsicIndex ← storeSigned pg r.extrinsicIndex.toNat
  let blockTimestamp ← storeBigint pg c r.blockTimestamp
  return ⟨r.blockNumber, r.blockHash, extrinsicIndex, blockTimestamp, r.descriptor, observedAt⟩

/-- The condition of the upsert: `decimal_gt` on the texts of the block numbers, and the
extrinsic index within a block. -/
def DescriptorColumns.later (new old : DescriptorColumns) : Bool :=
  decide (DigitOrder.Less (DigitOrder.text old.blockNumber) (DigitOrder.text new.blockNumber)) ||
    (DigitOrder.text old.blockNumber = DigitOrder.text new.blockNumber &&
      decide (old.extrinsicIndex < new.extrinsicIndex))

/-- The insert of `upsert_node_descriptor`, with `first_block_timestamp` set to the record's
block timestamp and excluded from the update. -/
def putDescriptor (t : KeyedTable String NodeDescriptorRow) (account : String)
    (new : DescriptorColumns) : KeyedTable String NodeDescriptorRow :=
  (t.upsert account ⟨new, new.blockTimestamp, none⟩ fun old =>
    if new.later old.toDescriptorColumns then some { old with toDescriptorColumns := new }
    else none).2

/-- `UPDATE node_descriptors SET node_name=descriptor->>'nodeName' WHERE account_id=?1`. -/
def setNodeName (t : KeyedTable String NodeDescriptorRow) (account : String) :
    KeyedTable String NodeDescriptorRow :=
  match t.get? account with
  | none => t
  | some row => t.put account { row with nodeName := some row.descriptor.nodeName }

/-- `upsert_node_descriptor`. -/
def upsertNodeDescriptor (c : TextCast) (r : NodeDescriptorRecord) :
    NodeStore → Except StoreError Unit × NodeStore :=
  Tx.write do
    let _ ← Tx.readM fun s : NodeStore => s.store.requireBound
    let new ← Tx.readM fun s => r.columns s.store.pg c
    Tx.update fun s =>
      ((), { s with nodeDescriptors := putDescriptor s.nodeDescriptors r.accountId new })
    Tx.update fun s => ((), { s with nodeDescriptors := setNodeName s.nodeDescriptors r.accountId })
    return .commit ()

/-- The `UPDATE` of `backfill_node_descriptor_first_seen`. -/
def lowerFirstSeen (t : KeyedTable String NodeDescriptorRow) (account : String) (time : ℤ) :
    KeyedTable String NodeDescriptorRow :=
  match t.get? account with
  | none => t
  | some row =>
    if row.firstBlockTimestamp > time then t.put account { row with firstBlockTimestamp := time }
    else t

/-- `backfill_node_descriptor_first_seen`. -/
def backfillNodeDescriptorFirstSeen (c : TextCast) (account : String) (timestamp : UInt64) :
    NodeStore → Except StoreError Unit × NodeStore :=
  Tx.write do
    let _ ← Tx.readM fun s : NodeStore => s.store.requireBound
    let time ← Tx.readM fun s => storeBigint s.store.pg c timestamp
    Tx.update fun s =>
      ((), { s with nodeDescriptors := lowerFirstSeen s.nodeDescriptors account time })
    return .commit ()

/-! ### Runs -/

/-- A call of one of the two operations. -/
inductive DescriptorCall where
  | upsert (r : NodeDescriptorRecord)
  | firstSeen (account : String) (timestamp : UInt64)

namespace DescriptorCall

/-- The account of the row that a call writes. -/
def account : DescriptorCall → String
  | .upsert r => r.accountId
  | .firstSeen account _ => account

def run (c : TextCast) : DescriptorCall → NodeStore → Except StoreError Unit × NodeStore
  | .upsert r => upsertNodeDescriptor c r
  | .firstSeen account timestamp => backfillNodeDescriptorFirstSeen c account timestamp

/-- The descriptor that a call delivers. -/
def record? : DescriptorCall → Option NodeDescriptorRecord
  | .upsert r => some r
  | .firstSeen _ _ => none

/-- The time that a call backfills. -/
def time? : DescriptorCall → Option UInt64
  | .upsert _ => none
  | .firstSeen _ timestamp => some timestamp

end DescriptorCall

/-- A run from `s₀` in any order of calls, with the calls that returned `Ok`. -/
inductive DescriptorRun (c : TextCast) (s₀ : NodeStore) : List DescriptorCall → NodeStore → Prop
  | start : DescriptorRun c s₀ [] s₀
  | succeeded {calls : List DescriptorCall} {s s' : NodeStore} {call : DescriptorCall}
      (h : DescriptorRun c s₀ calls s) (hcall : call.run c s = (.ok (), s')) :
      DescriptorRun c s₀ (calls ++ [call]) s'
  | failed {calls : List DescriptorCall} {s s' : NodeStore} {call : DescriptorCall}
      {e : StoreError} (h : DescriptorRun c s₀ calls s)
      (hcall : call.run c s = (.error e, s')) : DescriptorRun c s₀ calls s'

/-! ### One call -/

/-- The position of a descriptor on the chain. -/
def NodeDescriptorRecord.position (r : NodeDescriptorRecord) : ℕ ×ₗ ℕ :=
  toLex (r.blockNumber, r.extrinsicIndex.toNat)

theorem columns_ok {pg : Bool} {c : TextCast} {r : NodeDescriptorRecord}
    {cols : DescriptorColumns} (h : r.columns pg c = .ok cols) :
    cols.blockNumber = r.blockNumber ∧ cols.extrinsicIndex = r.extrinsicIndex.toNat ∧
      storeBigint pg c r.blockTimestamp = .ok cols.blockTimestamp := by
  unfold NodeDescriptorRecord.columns at h
  rcases ho : storeTimestamp r.observedAt with e | observedAt
  · rw [ho] at h
    cases h
  rcases hx : storeSigned pg r.extrinsicIndex.toNat with e | index
  · rw [ho, hx] at h
    cases h
  rcases hb : storeBigint pg c r.blockTimestamp with e | time
  · rw [ho, hx, hb] at h
    cases h
  rw [ho, hx, hb] at h
  cases h
  exact ⟨rfl, storeSigned_ok hx, rfl⟩

/-- **The condition on texts is the order of positions.** -/
theorem later_iff {pg : Bool} {c : TextCast} {r old : NodeDescriptorRecord}
    {new cols : DescriptorColumns} (hnew : r.columns pg c = .ok new)
    (hold : old.columns pg c = .ok cols) : new.later cols = true ↔ old.position < r.position := by
  obtain ⟨hb, hx, -⟩ := columns_ok hnew
  obtain ⟨hb', hx', -⟩ := columns_ok hold
  rw [DescriptorColumns.later, Bool.or_eq_true, Bool.and_eq_true, decide_eq_true_eq,
    decide_eq_true_eq, decide_eq_true_eq, DigitOrder.less_text, DigitOrder.text_inj, hb, hb', hx,
    hx', NodeDescriptorRecord.position, NodeDescriptorRecord.position, Prod.Lex.toLex_lt_toLex,
    Nat.cast_lt]

theorem upsertNodeDescriptor_ok {c : TextCast} {r : NodeDescriptorRecord} {s s' : NodeStore}
    (h : upsertNodeDescriptor c r s = (.ok (), s')) :
    ∃ new, r.columns s.store.pg c = .ok new ∧ s' = { s with
      nodeDescriptors := setNodeName (putDescriptor s.nodeDescriptors r.accountId new)
        r.accountId } := by
  rcases Tx.write_ok.mp h with h | ⟨⟨t, h⟩, -⟩
  · obtain ⟨-, -, h⟩ := Tx.exec_readM_bind_ok.mp h
    obtain ⟨new, hnew, h⟩ := Tx.exec_readM_bind_ok.mp h
    cases h
    exact ⟨new, hnew, rfl⟩
  · obtain ⟨-, -, h⟩ := Tx.exec_readM_bind_ok.mp h
    obtain ⟨new, -, h⟩ := Tx.exec_readM_bind_ok.mp h
    cases h

theorem backfillNodeDescriptorFirstSeen_bound {c : TextCast} {account : String}
    {timestamp : UInt64} {s s' : NodeStore}
    (h : backfillNodeDescriptorFirstSeen c account timestamp s = (.ok (), s')) :
    (∃ genesis, s.store.requireBound = .ok genesis) ∧
      ∃ time, storeBigint s.store.pg c timestamp = .ok time ∧
        s' = { s with nodeDescriptors := lowerFirstSeen s.nodeDescriptors account time } := by
  rcases Tx.write_ok.mp h with h | ⟨⟨t, h⟩, -⟩
  · obtain ⟨genesis, hbound, h⟩ := Tx.exec_readM_bind_ok.mp h
    obtain ⟨time, htime, h⟩ := Tx.exec_readM_bind_ok.mp h
    cases h
    exact ⟨⟨genesis, hbound⟩, time, htime, rfl⟩
  · obtain ⟨-, -, h⟩ := Tx.exec_readM_bind_ok.mp h
    obtain ⟨time, -, h⟩ := Tx.exec_readM_bind_ok.mp h
    cases h

theorem backfillNodeDescriptorFirstSeen_ok {c : TextCast} {account : String}
    {timestamp : UInt64} {s s' : NodeStore}
    (h : backfillNodeDescriptorFirstSeen c account timestamp s = (.ok (), s')) :
    ∃ time, storeBigint s.store.pg c timestamp = .ok time ∧
      s' = { s with nodeDescriptors := lowerFirstSeen s.nodeDescriptors account time } :=
  (backfillNodeDescriptorFirstSeen_bound h).2

/-- The row that an upsert leaves under its account. -/
theorem get?_upserted (t : KeyedTable String NodeDescriptorRow) (account : String)
    (new : DescriptorColumns) :
    (setNodeName (putDescriptor t account new) account).get? account =
      match t.get? account with
      | none => some ⟨new, new.blockTimestamp, some new.descriptor.nodeName⟩
      | some old =>
        if new.later old.toDescriptorColumns then
          some ⟨new, old.firstBlockTimestamp, some new.descriptor.nodeName⟩
        else some { old with nodeName := some old.descriptor.nodeName } := by
  have hput := KeyedTable.get?_upsert_self t account ⟨new, new.blockTimestamp, none⟩ fun old =>
    if new.later old.toDescriptorColumns then some { old with toDescriptorColumns := new } else none
  rw [setNodeName, putDescriptor, hput]
  show KeyedTable.get? (KeyedTable.put _ _ _) _ = _
  rw [KeyedTable.get?_put_self]
  rcases t.get? account with _ | old
  · rfl
  · by_cases hlater : new.later old.toDescriptorColumns = true <;> simp [hlater]

theorem get?_upserted_ne {t : KeyedTable String NodeDescriptorRow} {account other : String}
    (h : other ≠ account) (new : DescriptorColumns) :
    (setNodeName (putDescriptor t account new) account).get? other = t.get? other := by
  rw [setNodeName]
  split
  · exact KeyedTable.get?_upsert_ne h
  · rw [KeyedTable.get?_put_ne h]
    exact KeyedTable.get?_upsert_ne h

theorem get?_lowered (t : KeyedTable String NodeDescriptorRow) (account : String) (time : ℤ) :
    (lowerFirstSeen t account time).get? account = (t.get? account).map fun row =>
      { row with firstBlockTimestamp := min row.firstBlockTimestamp time } := by
  rw [lowerFirstSeen]
  rcases ht : t.get? account with _ | row
  · exact ht
  · by_cases hlow : row.firstBlockTimestamp > time
    · simp only [if_pos hlow, KeyedTable.get?_put_self, Option.map_some]
      rw [min_eq_right (le_of_lt hlow)]
    · simp only [if_neg hlow, Option.map_some]
      rw [min_eq_left (not_lt.mp hlow)]
      exact ht

theorem get?_lowered_ne {t : KeyedTable String NodeDescriptorRow} {account other : String}
    (h : other ≠ account) (time : ℤ) :
    (lowerFirstSeen t account time).get? other = t.get? other := by
  rw [lowerFirstSeen]
  split
  · rfl
  · split
    · exact KeyedTable.get?_put_ne h
    · rfl

/-! ### What the calls of an account leave behind -/

section Kept

variable {pg : Bool} {c : TextCast}

/-- The columns of the block timestamp of a first descriptor and of the times that calls
backfill. -/
def firstSeenTimes (pg : Bool) (c : TextCast) (first : NodeDescriptorRecord)
    (calls : List DescriptorCall) : Set ℤ :=
  {t | ∃ n, (n = first.blockTimestamp ∨ ∃ call ∈ calls, call.time? = some n) ∧
    storeBigint pg c n = .ok t}

/-- The row of an account after these calls for it, the first of which delivered `first`: a
delivered descriptor at the greatest position, under its name, and the least of the times. -/
structure DescriptorKept (pg : Bool) (c : TextCast) (first : NodeDescriptorRecord)
    (calls : List DescriptorCall) (row : NodeDescriptorRow) : Prop where
  holds : ∃ r, DescriptorCall.upsert r ∈ calls ∧ r.columns pg c = .ok row.toDescriptorColumns ∧
    ∀ r', DescriptorCall.upsert r' ∈ calls → r'.position ≤ r.position
  named : row.nodeName = some row.descriptor.nodeName
  earliest : IsLeast (firstSeenTimes pg c first calls) row.firstBlockTimestamp

/-- The first delivery stores the descriptor with its own block timestamp. -/
theorem DescriptorKept.first {r : NodeDescriptorRecord} {new : DescriptorColumns}
    (hnew : r.columns pg c = .ok new) : DescriptorKept pg c r [.upsert r]
      ⟨new, new.blockTimestamp, some new.descriptor.nodeName⟩ := by
  have htime := (columns_ok hnew).2.2
  refine ⟨⟨r, by simp, hnew, fun r' hr' => ?_⟩, rfl, ⟨r.blockTimestamp, Or.inl rfl, htime⟩, ?_⟩
  · cases List.mem_singleton.mp hr'
    exact le_rfl
  · rintro t ⟨n, rfl | ⟨call, hcall, hn⟩, ht⟩
    · rw [htime] at ht
      exact le_of_eq (Except.ok.inj ht)
    · cases List.mem_singleton.mp hcall
      cases hn

/-- A later delivery brings no time of its own. -/
theorem firstSeenTimes_upsert (first : NodeDescriptorRecord) (calls : List DescriptorCall)
    (r : NodeDescriptorRecord) :
    firstSeenTimes pg c first (calls ++ [.upsert r]) = firstSeenTimes pg c first calls := by
  ext t
  refine exists_congr fun n => and_congr_left fun _ => or_congr_right ?_
  constructor
  · rintro ⟨call, hcall, hn⟩
    rcases List.mem_append.mp hcall with hcall | hcall
    · exact ⟨call, hcall, hn⟩
    · cases List.mem_singleton.mp hcall
      cases hn
  · rintro ⟨call, hcall, hn⟩
    exact ⟨call, List.mem_append_left _ hcall, hn⟩

/-- **One more descriptor**: it replaces the stored one if its position is later. -/
theorem DescriptorKept.upsert {first r : NodeDescriptorRecord} {calls : List DescriptorCall}
    {old : NodeDescriptorRow} {new : DescriptorColumns} (h : DescriptorKept pg c first calls old)
    (hnew : r.columns pg c = .ok new) :
    DescriptorKept pg c first (calls ++ [.upsert r])
      (if new.later old.toDescriptorColumns then
        ⟨new, old.firstBlockTimestamp, some new.descriptor.nodeName⟩
      else { old with nodeName := some old.descriptor.nodeName }) := by
  obtain ⟨⟨q, hq, hold, hmax⟩, -, hleast⟩ := h
  rw [← firstSeenTimes_upsert first calls r] at hleast
  have hlater := later_iff hnew hold
  by_cases hl : new.later old.toDescriptorColumns = true
  · rw [if_pos hl]
    have hlt := hlater.mp hl
    refine ⟨⟨r, by simp, hnew, fun r' hr' => ?_⟩, rfl, hleast⟩
    rcases List.mem_append.mp hr' with hr' | hr'
    · exact le_of_lt (lt_of_le_of_lt (hmax r' hr') hlt)
    · cases List.mem_singleton.mp hr'
      exact le_rfl
  · rw [if_neg hl]
    refine ⟨⟨q, List.mem_append_left _ hq, hold, fun r' hr' => ?_⟩, rfl, hleast⟩
    rcases List.mem_append.mp hr' with hr' | hr'
    · exact hmax r' hr'
    · cases List.mem_singleton.mp hr'
      exact not_lt.mp fun hlt => hl (hlater.mpr hlt)

/-- **One more backfilled time**: the column is lowered to it. -/
theorem DescriptorKept.lower {first : NodeDescriptorRecord} {calls : List DescriptorCall}
    {old : NodeDescriptorRow} {account : String} {timestamp : UInt64} {time : ℤ}
    (h : DescriptorKept pg c first calls old) (ht : storeBigint pg c timestamp = .ok time) :
    DescriptorKept pg c first (calls ++ [.firstSeen account timestamp])
      { old with firstBlockTimestamp := min old.firstBlockTimestamp time } := by
  obtain ⟨⟨q, hq, hold, hmax⟩, hname, hmem, hle⟩ := h
  refine ⟨⟨q, List.mem_append_left _ hq, hold, fun r' hr' => ?_⟩, hname, ?_, ?_⟩
  · rcases List.mem_append.mp hr' with hr' | hr'
    · exact hmax r' hr'
    · cases List.mem_singleton.mp hr'
  · rcases min_choice old.firstBlockTimestamp time with heq | heq
    · obtain ⟨n, hn, hcol⟩ := hmem
      show min old.firstBlockTimestamp time ∈ _
      rw [heq]
      refine ⟨n, hn.imp_right ?_, hcol⟩
      rintro ⟨call, hcall, hcn⟩
      exact ⟨call, List.mem_append_left _ hcall, hcn⟩
    · show min old.firstBlockTimestamp time ∈ _
      rw [heq]
      exact ⟨timestamp, Or.inr ⟨_, List.mem_append_right _ (List.mem_singleton_self _), rfl⟩, ht⟩
  · rintro t ⟨n, hn, hcol⟩
    have hcases : (n = first.blockTimestamp ∨ ∃ call ∈ calls, call.time? = some n) ∨
        n = timestamp := by
      rcases hn with hn | ⟨call, hcall, hn⟩
      · exact Or.inl (Or.inl hn)
      · rcases List.mem_append.mp hcall with hcall | hcall
        · exact Or.inl (Or.inr ⟨call, hcall, hn⟩)
        · cases List.mem_singleton.mp hcall
          exact Or.inr (Option.some.inj hn).symm
    rcases hcases with hn | rfl
    · exact le_trans (min_le_left _ _) (hle ⟨n, hn, hcol⟩)
    · rw [ht] at hcol
      exact le_trans (min_le_right _ _) (le_of_eq (Except.ok.inj hcol))

end Kept

/-! ### Whole runs -/

/-- What the calls for one account leave of its row: none before the first delivery, and
then what `DescriptorKept` says of the calls from that delivery on. -/
def AccountKept (pg : Bool) (c : TextCast) (calls : List DescriptorCall) :
    Option NodeDescriptorRow → Prop
  | none => ∀ call ∈ calls, call.record? = none
  | some row => ∃ before first rest, calls = before ++ .upsert first :: rest ∧
      (∀ call ∈ before, call.record? = none) ∧
      DescriptorKept pg c first (.upsert first :: rest) row

theorem account_run_ne {c : TextCast} {call : DescriptorCall} {s s' : NodeStore}
    (h : call.run c s = (.ok (), s')) {account : String} (hne : account ≠ call.account) :
    s'.store = s.store ∧ s'.nodeDescriptors.get? account = s.nodeDescriptors.get? account := by
  cases call with
  | upsert r =>
    obtain ⟨new, -, rfl⟩ := upsertNodeDescriptor_ok h
    exact ⟨rfl, get?_upserted_ne hne new⟩
  | firstSeen a timestamp =>
    obtain ⟨time, -, rfl⟩ := backfillNodeDescriptorFirstSeen_ok h
    exact ⟨rfl, get?_lowered_ne hne time⟩

/-- **One call** for the account. -/
theorem AccountKept.step {c : TextCast} {call : DescriptorCall} {s s' : NodeStore}
    {calls : List DescriptorCall}
    (h : AccountKept s.store.pg c calls (s.nodeDescriptors.get? call.account))
    (hcall : call.run c s = (.ok (), s')) :
    s'.store = s.store ∧
      AccountKept s.store.pg c (calls ++ [call]) (s'.nodeDescriptors.get? call.account) := by
  cases call with
  | upsert r =>
    obtain ⟨new, hnew, rfl⟩ := upsertNodeDescriptor_ok hcall
    refine ⟨rfl, ?_⟩
    show AccountKept _ _ _ (KeyedTable.get? (setNodeName _ r.accountId) r.accountId)
    rw [get?_upserted]
    change AccountKept _ _ _ (s.nodeDescriptors.get? r.accountId) at h
    rcases hrow : s.nodeDescriptors.get? r.accountId with _ | old
    · rw [hrow] at h
      exact ⟨calls, r, [], rfl, h, DescriptorKept.first hnew⟩
    · rw [hrow] at h
      obtain ⟨before, first, rest, rfl, hbefore, hkept⟩ := h
      have hnext := hkept.upsert hnew
      rw [List.cons_append] at hnext
      simp only
      split
      all_goals
        rename_i hl
        simp only [hl, if_true, if_false, Bool.false_eq_true] at hnext
        exact ⟨before, first, rest ++ [.upsert r], by simp, hbefore, hnext⟩
  | firstSeen account timestamp =>
    obtain ⟨time, htime, rfl⟩ := backfillNodeDescriptorFirstSeen_ok hcall
    refine ⟨rfl, ?_⟩
    show AccountKept _ _ _ (KeyedTable.get? (lowerFirstSeen _ account time) account)
    rw [get?_lowered]
    change AccountKept _ _ _ (s.nodeDescriptors.get? account) at h
    rcases hrow : s.nodeDescriptors.get? account with _ | old
    · rw [hrow] at h
      intro call hmem
      rcases List.mem_append.mp hmem with hmem | hmem
      · exact h call hmem
      · cases List.mem_singleton.mp hmem
        rfl
    · rw [hrow] at h
      obtain ⟨before, first, rest, rfl, hbefore, hkept⟩ := h
      have hnext : DescriptorKept s.store.pg c first
          (.upsert first :: rest ++ [.firstSeen account timestamp]) _ := hkept.lower htime
      rw [List.cons_append] at hnext
      exact ⟨before, first, rest ++ [.firstSeen account timestamp], by simp, hbefore, hnext⟩

/-- **What a whole run keeps** of an account that had no row. -/
theorem DescriptorRun.keeps {c : TextCast} {s₀ s : NodeStore} {calls : List DescriptorCall}
    (h : DescriptorRun c s₀ calls s) {account : String}
    (hnone : s₀.nodeDescriptors.get? account = none) :
    s.store = s₀.store ∧ AccountKept s₀.store.pg c (calls.filter (·.account = account))
      (s.nodeDescriptors.get? account) := by
  induction h with
  | start =>
    refine ⟨rfl, ?_⟩
    rw [hnone]
    exact fun call hmem => by cases hmem
  | @succeeded calls s s' call _ hcall ih =>
    obtain ⟨hstore, hkept⟩ := ih
    by_cases hacc : call.account = account
    · subst hacc
      rw [← hstore] at hkept ⊢
      obtain ⟨hstore', hkept'⟩ := hkept.step hcall
      refine ⟨hstore', ?_⟩
      rw [List.filter_append, List.filter_singleton, decide_eq_true rfl, cond_true]
      exact hkept'
    · obtain ⟨hstore', hrow⟩ := account_run_ne hcall (Ne.symm hacc)
      refine ⟨hstore'.trans hstore, ?_⟩
      rw [List.filter_append, List.filter_singleton, decide_eq_false hacc, cond_false,
        List.append_nil, hrow]
      exact hkept
  | @failed calls s s' call e _ hcall ih =>
    have hsame : s' = s := by
      cases call with
      | upsert r => exact Tx.write_error hcall
      | firstSeen account timestamp => exact Tx.write_error hcall
    rw [hsame]
    exact ih

/-- The first delivery of a list of calls, and what stands before and after it. -/
theorem first_delivery_unique {before before' rest rest' : List DescriptorCall}
    {first first' : NodeDescriptorRecord}
    (heq : before ++ .upsert first :: rest = before' ++ .upsert first' :: rest')
    (h : ∀ call ∈ before, call.record? = none) (h' : ∀ call ∈ before', call.record? = none) :
    first = first' ∧ rest = rest' := by
  induction before generalizing before' with
  | nil =>
    rcases before' with _ | ⟨call, before'⟩
    · obtain ⟨hfirst, hrest⟩ := List.cons.inj heq
      exact ⟨DescriptorCall.upsert.inj hfirst, hrest⟩
    · obtain ⟨rfl, -⟩ := List.cons.inj (heq.trans (List.cons_append ..))
      cases h' _ List.mem_cons_self
  | cons call before ih =>
    rcases before' with _ | ⟨call', before'⟩
    · obtain ⟨rfl, -⟩ := List.cons.inj ((List.cons_append ..).symm.trans heq)
      cases h _ List.mem_cons_self
    · obtain ⟨-, heq⟩ := List.cons.inj heq
      exact ih heq (fun call hcall => h call (List.mem_cons_of_mem _ hcall))
        fun call hcall => h' call (List.mem_cons_of_mem _ hcall)

/-- **The final row of an account** that had none, after calls of which the first delivery that
returned `Ok` for it was `first`: in any order of the others it holds a delivered descriptor
whose position no other exceeds, and `first_block_timestamp` is the least of the block
timestamp of `first` and all times that were backfilled after it, as the columns hold them. -/
theorem descriptor_row_of_run {c : TextCast} {s₀ s : NodeStore} {calls : List DescriptorCall}
    {account : String} {first : NodeDescriptorRecord} {before rest : List DescriptorCall}
    (hnone : s₀.nodeDescriptors.get? account = none) (hrun : DescriptorRun c s₀ calls s)
    (hcalls : calls.filter (·.account = account) = before ++ .upsert first :: rest)
    (hbefore : ∀ call ∈ before, call.record? = none) :
    ∃ row, s.nodeDescriptors.get? account = some row ∧
      (∃ r, .upsert r ∈ DescriptorCall.upsert first :: rest ∧
        r.columns s₀.store.pg c = .ok row.toDescriptorColumns ∧
        ∀ r', .upsert r' ∈ DescriptorCall.upsert first :: rest → r'.position ≤ r.position) ∧
      row.nodeName = some row.descriptor.nodeName ∧
      IsLeast (firstSeenTimes s₀.store.pg c first rest) row.firstBlockTimestamp := by
  obtain ⟨-, hkept⟩ := hrun.keeps hnone
  rw [hcalls] at hkept
  rcases hrow : s.nodeDescriptors.get? account with _ | row
  · rw [hrow] at hkept
    cases hkept (.upsert first) (by simp)
  · rw [hrow] at hkept
    obtain ⟨before', first', rest', heq, hbefore', hholds, hnamed, hleast⟩ := hkept
    obtain ⟨rfl, rfl⟩ := first_delivery_unique heq hbefore hbefore'
    refine ⟨row, rfl, hholds, hnamed, ?_⟩
    have htimes : firstSeenTimes s₀.store.pg c first (.upsert first :: rest) =
        firstSeenTimes s₀.store.pg c first rest := by
      ext t
      simp [firstSeenTimes, DescriptorCall.time?]
    rwa [htimes] at hleast

/-! ### Two deliveries -/

/-- A descriptor of the account `a` at this height and block timestamp. -/
def deliveredAt (height : ℕ) (timestamp : UInt64) : NodeDescriptorRecord where
  accountId := "a"
  blockNumber := height
  blockHash := .uniform 1
  extrinsicIndex := 0
  blockTimestamp := timestamp
  firstBlockTimestamp := timestamp
  descriptor := ⟨"node", .object []⟩
  observedAt := .utc 0

/-- A bound store without descriptors. -/
def emptyNodes : NodeStore := ⟨.bound false (.uniform 1), .empty⟩

/-- The store after these deliveries in this order. -/
def nodesAfter (records : List NodeDescriptorRecord) : NodeStore :=
  records.foldl (fun s r => (upsertNodeDescriptor saturatingCast r s).2) emptyNodes

theorem nodesAfter_run : DescriptorRun saturatingCast emptyNodes
    [.upsert (deliveredAt 100 20), .upsert (deliveredAt 99 10)]
    (nodesAfter [deliveredAt 100 20, deliveredAt 99 10]) := by
  have hfirst : DescriptorRun saturatingCast emptyNodes [.upsert (deliveredAt 100 20)]
      (nodesAfter [deliveredAt 100 20]) := .succeeded .start rfl
  exact .succeeded hfirst rfl

/-- A time that is backfilled before the first delivery finds no row; one after it counts. -/
theorem descriptor_row_of_run_two : ∃ s row,
    DescriptorRun saturatingCast emptyNodes
      [.firstSeen "a" 5, .upsert (deliveredAt 100 20), .upsert (deliveredAt 99 10),
        .firstSeen "a" 15] s ∧
    s.nodeDescriptors.get? "a" = some row ∧ row.firstBlockTimestamp = 15 ∧
    IsLeast (firstSeenTimes false saturatingCast (deliveredAt 100 20)
      [.upsert (deliveredAt 99 10), .firstSeen "a" 15]) row.firstBlockTimestamp := by
  have run : DescriptorRun saturatingCast emptyNodes
      ((([] ++ [.firstSeen "a" 5]) ++ [.upsert (deliveredAt 100 20)]) ++
        [.upsert (deliveredAt 99 10)] ++ [.firstSeen "a" 15]) _ :=
    .succeeded (.succeeded (.succeeded (.succeeded .start rfl) rfl) rfl) rfl
  have hbefore : ∀ call ∈ [DescriptorCall.firstSeen "a" 5], call.record? = none := by
    intro call hcall
    rw [List.mem_singleton.mp hcall]
    rfl
  obtain ⟨row, hrow, -, -, hleast⟩ :=
    @descriptor_row_of_run _ _ _ _ "a" _ _ _ rfl run rfl hbefore
  have hfifteen : row.firstBlockTimestamp = 15 := by
    cases hrow
    rfl
  exact ⟨_, row, run, hrow, hfifteen, hleast⟩

/-- **A descriptor that is delivered late does not lower the time first seen**: in the other
order of the same two deliveries it is ten, in this one twenty. -/
theorem late_delivery_keeps_first_seen :
    ¬ ∀ (c : TextCast) (s₀ s : NodeStore) (calls : List DescriptorCall) (account : String)
      (row : NodeDescriptorRow), s₀.nodeDescriptors.get? account = none →
      DescriptorRun c s₀ calls s → (∀ call ∈ calls, call.account = account) →
      (∃ first rest, calls = .upsert first :: rest) →
      (calls.filterMap DescriptorCall.record?).Pairwise (fun r r' => r.position ≠ r'.position) →
      s.nodeDescriptors.get? account = some row →
      IsLeast {t | ∃ n, (∃ call ∈ calls, (call.record?.map (·.blockTimestamp)).or call.time? =
        some n) ∧ storeBigint s₀.store.pg c n = .ok t} row.firstBlockTimestamp := by
  intro h
  have hrow : (nodesAfter [deliveredAt 100 20, deliveredAt 99 10]).nodeDescriptors.get? "a" =
      some ⟨⟨100, .uniform 1, 0, 20, ⟨"node", .object []⟩, 0⟩, 20, some "node"⟩ := rfl
  have hleast := (h _ _ _ _ "a" _ rfl nodesAfter_run (by decide) ⟨_, _, rfl⟩ (by decide)
    hrow).2
  have hten := hleast ⟨10, ⟨_, List.mem_cons_of_mem _ (List.mem_singleton_self _), rfl⟩,
    (rfl : _ = Except.ok (10 : ℤ))⟩
  exact absurd hten (by decide)

end Dashboard

/-
Authorship facts and their aggregate.

The model of `write_authorship`, `fresh` and `recompute` in
`dashboard-store/src/miners.rs`.

* `exec_writeAuthorship` — a fact is stored once for each validator and height,
  and only its `had_winner` may later turn true;
* `exec_recompute` — recomputation replaces the aggregate rows of every
  validator that has a fact;
* `Recomputed.exec` — recomputing twice is recomputing once.
-/
import QuipDashboard.Store
import Mathlib.Data.List.Dedup

namespace Dashboard

/-- The facts of a height agree with this record, in the order of the query. -/
def checkAuthorship (a : AuthorshipRecord) :
    List ((String × ℕ) × AuthorshipFact) → Except StoreError Unit
  | [] => .ok ()
  | ((validator, number), fact) :: rows =>
    if number ≠ a.blockNumber then checkAuthorship a rows
    else if validator ≠ a.accountId then .error (.invalid "conflicting finalized authorship")
    else
      match iso a.timestamp with
      | .error e => .error e
      | .ok timestamp =>
        if fact.timestamp ≠ timestamp then .error (.invalid "conflicting finalized authorship")
        else checkAuthorship a rows

/-- The upsert of `write_authorship`, on the table of facts. -/
def putAuthorship (t : KeyedTable (String × ℕ) AuthorshipFact) (a : AuthorshipRecord)
    (timestamp : ℤ) : ℕ × KeyedTable (String × ℕ) AuthorshipFact :=
  let fact := ⟨timestamp, a.hadWinner⟩
  t.upsert (a.accountId, a.blockNumber) fact fun old =>
    if old.hadWinner = false ∧ fact.hadWinner = true then some fact else none

/-- `write_authorship`. -/
def writeAuthorship (a : AuthorshipRecord) : StoreTx ℕ := do
  Tx.readM fun s => checkAuthorship a s.authorshipBlocks.rows
  let timestamp ← Tx.ofExcept (canonicalIso a.timestamp)
  Tx.update fun s =>
    let t := putAuthorship s.authorshipBlocks a timestamp
    (t.1, { s with authorshipBlocks := t.2 })

theorem exec_writeAuthorship {a : AuthorshipRecord} {s s' : Store} {n : ℕ}
    (h : (writeAuthorship a).exec s = .ok (n, s')) :
    ∃ timestamp, canonicalIso a.timestamp = .ok timestamp ∧
      checkAuthorship a s.authorshipBlocks.rows = .ok () ∧
      n = (putAuthorship s.authorshipBlocks a timestamp).1 ∧
      s' = { s with authorshipBlocks := (putAuthorship s.authorshipBlocks a timestamp).2 } := by
  unfold writeAuthorship at h
  obtain ⟨u, hcheck, h⟩ := Tx.exec_readM_bind_ok.mp h
  obtain ⟨timestamp, htime, h⟩ := Tx.exec_ofExcept_bind_ok.mp h
  cases h
  exact ⟨timestamp, htime, hcheck, rfl, rfl⟩

theorem checkAuthorship_ok {a : AuthorshipRecord}
    {rows : List ((String × ℕ) × AuthorshipFact)} {timestamp : ℤ}
    (ht : iso a.timestamp = .ok timestamp) :
    checkAuthorship a rows = .ok () ↔
      ∀ e ∈ rows, e.1.2 = a.blockNumber → e.1.1 = a.accountId ∧ e.2.timestamp = timestamp := by
  induction rows with
  | nil => simp [checkAuthorship]
  | cons e rows ih =>
    obtain ⟨⟨validator, number⟩, fact⟩ := e
    rw [checkAuthorship, ht]
    by_cases hn : number = a.blockNumber
    · by_cases hv : validator = a.accountId
      · by_cases hf : fact.timestamp = timestamp
        · simp [hn, hv, hf, ih]
        · simp [hn, hv, hf]
      · simp [hn, hv]
    · simp [hn, ih]

/-- **Submitting a stored fact again writes nothing.** -/
theorem putAuthorship_again (t : KeyedTable (String × ℕ) AuthorshipFact)
    (a : AuthorshipRecord) (timestamp : ℤ) :
    putAuthorship (putAuthorship t a timestamp).2 a timestamp =
      (0, (putAuthorship t a timestamp).2) := by
  refine KeyedTable.upsert_of_update_none (KeyedTable.get?_upsert_self t _ _ _) ?_
  cases t.get? (a.accountId, a.blockNumber) with
  | none => cases ha : a.hadWinner <;> simp
  | some old => cases ho : old.hadWinner <;> cases ha : a.hadWinner <;> simp [ho]

/-- The rows of a table of facts after a fact was stored. -/
theorem putAuthorship_rows {t : KeyedTable (String × ℕ) AuthorshipFact}
    {a : AuthorshipRecord} {timestamp : ℤ} {k : String × ℕ} {fact : AuthorshipFact}
    (h : (putAuthorship t a timestamp).2.get? k = some fact) :
    (k = (a.accountId, a.blockNumber) ∧
        (fact.timestamp = timestamp ∨ t.get? k = some fact)) ∨ t.get? k = some fact := by
  by_cases hk : k = (a.accountId, a.blockNumber)
  · left
    refine ⟨hk, ?_⟩
    subst hk
    rw [putAuthorship, KeyedTable.get?_upsert_self] at h
    cases ht : t.get? (a.accountId, a.blockNumber) with
    | none =>
      rw [ht] at h
      cases h
      exact .inl rfl
    | some old =>
      rw [ht] at h
      by_cases hc : old.hadWinner = false ∧ a.hadWinner = true
      · simp only [Option.elim_some, hc, and_self, if_true, Option.getD_some, Option.some.injEq] at h
        exact .inl (h ▸ rfl)
      · simp only [Option.elim_some, hc, if_false, Option.getD_none, Option.some.injEq] at h
        exact .inr (h ▸ rfl)
  · right
    rwa [putAuthorship, KeyedTable.get?_upsert_ne hk] at h

/-! ### The aggregate -/

/-- One group of `fresh_authorship_sql`.  The Turso form pads and trims the
height as text, so a greatest height of zero becomes an empty text, which the
decoder rejects. -/
def freshRow (pg : Bool) (facts : List ((String × ℕ) × AuthorshipFact))
    (validator : String) : Except StoreError ValidatorAuthorshipRecord :=
  let group := facts.filter (·.1.1 = validator)
  let last := (group.map (·.1.2)).foldl max 0
  if !pg && last = 0 then .error (.json "decimal string is empty")
  else .ok
    { accountId := validator
      blocksAuthored := group.length
      blocksAuthoredWithPow := group.countP (·.2.hadWinner)
      lastAuthoredBlock := some last
      lastAuthoredAt := (group.map (·.2.timestamp)).max? }

/-- `fresh`: the aggregate of the facts, one row for each validator. -/
def fresh (pg : Bool) (facts : KeyedTable (String × ℕ) AuthorshipFact) :
    Except StoreError (List ValidatorAuthorshipRecord) :=
  (facts.rows.map (·.1.1)).dedup.mapM (freshRow pg facts.rows)

/-- The upserts of `recompute`. -/
def storeSummaries : List ValidatorAuthorshipRecord → StoreTx Unit
  | [] => return
  | item :: items => do
    Tx.update fun s =>
      ((), { s with validatorAuthorship := s.validatorAuthorship.put item.accountId item })
    storeSummaries items

/-- `recompute`. -/
def recompute : StoreTx Unit := do
  let items ← Tx.readM fun s => fresh s.pg s.authorshipBlocks
  storeSummaries items

theorem exec_storeSummaries (items : List ValidatorAuthorshipRecord) (s : Store) :
    (storeSummaries items).exec s = .ok ((), { s with
      validatorAuthorship := s.validatorAuthorship.putAll (items.map fun i => (i.accountId, i)) }) := by
  induction items generalizing s with
  | nil => rfl
  | cons item items ih =>
    unfold storeSummaries
    rw [Tx.exec_update_bind, ih]
    rfl

theorem exec_recompute {s s' : Store} {u : Unit} (h : recompute.exec s = .ok (u, s')) :
    ∃ items, fresh s.pg s.authorshipBlocks = .ok items ∧ s' = { s with
      validatorAuthorship := s.validatorAuthorship.putAll (items.map fun i => (i.accountId, i)) } := by
  unfold recompute at h
  obtain ⟨items, hfresh, h⟩ := Tx.exec_readM_bind_ok.mp h
  rw [exec_storeSummaries] at h
  cases h
  exact ⟨items, hfresh, rfl⟩

/-- `fresh` names each validator once. -/
theorem fresh_nodup {pg : Bool} {facts : KeyedTable (String × ℕ) AuthorshipFact}
    {items : List ValidatorAuthorshipRecord} (h : fresh pg facts = .ok items) :
    (items.map ValidatorAuthorshipRecord.accountId).Nodup := by
  have hids : ∀ {vs : List String} {items : List ValidatorAuthorshipRecord},
      List.Forall₂ (fun v item => freshRow pg facts.rows v = .ok item) vs items →
        items.map ValidatorAuthorshipRecord.accountId = vs := by
    intro vs items h
    induction h with
    | nil => rfl
    | @cons v item vs items hv _ ih =>
      have hid : item.accountId = v := by
        unfold freshRow at hv
        dsimp only at hv
        split at hv <;> cases hv
        rfl
      rw [List.map_cons, hid, ih]
  rw [hids (Except.forall₂_of_mapM h)]
  exact List.nodup_dedup _

/-- The aggregate is what recomputing would store. -/
def Recomputed (s : Store) : Prop :=
  ∃ items, fresh s.pg s.authorshipBlocks = .ok items ∧
    s.validatorAuthorship.putAll (items.map fun i => (i.accountId, i)) = s.validatorAuthorship

theorem recomputed_of_putAll {s s' : Store} {items : List ValidatorAuthorshipRecord}
    (hfresh : fresh s'.pg s'.authorshipBlocks = .ok items)
    (hrows : s'.validatorAuthorship =
      s.validatorAuthorship.putAll (items.map fun i => (i.accountId, i))) : Recomputed s' := by
  have hnodup : ((items.map fun i => (i.accountId, i)).map Prod.fst).Nodup := by
    rw [List.map_map]
    exact fresh_nodup hfresh
  refine ⟨items, hfresh, KeyedTable.putAll_self fun e he => ?_⟩
  rw [hrows]
  exact KeyedTable.get?_putAll hnodup he

theorem exec_recompute_recomputed {s s' : Store} {u : Unit} (h : recompute.exec s = .ok (u, s')) :
    Recomputed s' := by
  obtain ⟨items, hfresh, rfl⟩ := exec_recompute h
  exact recomputed_of_putAll (s := s) hfresh rfl

/-- **Recomputing twice is recomputing once.** -/
theorem Recomputed.exec {s : Store} (h : Recomputed s) : recompute.exec s = .ok ((), s) := by
  obtain ⟨items, hfresh, hput⟩ := h
  refine Tx.exec_readM_bind_ok.mpr ⟨items, hfresh, ?_⟩
  rw [exec_storeSummaries, hput]

end Dashboard

/-
The authorship counters that are served.

The model of `get_validator_authorship`, `try_authorship_cutover` and
`recompute_authorship_summary` in `dashboard-store/src/miners.rs`.  Until the cutover the
stored rows are floors of the fresh facts; after it they are served alone.

* `getValidatorAuthorship_mem` — the rows that are read are the rows that are served, each
  under its account;
* `mergeInto_above`, `mergeInto_below` — a merged row is the least upper bound of the fresh
  row and its floor.
-/
import QuipDashboard.Authorship
import Mathlib.Data.List.Sort

namespace Dashboard

/-! ### Serving the counters -/

/-- `DecimalString::to_u64` of an optional height, where an absent one is zero. -/
def toU64 : Option ℕ → Except StoreError ℕ
  | none => .ok 0
  | some n =>
    if n ≤ u64Max then .ok n else .error (.invalid s!"decimal string {n} does not fit in u64")

/-- The merge of a fresh row with the floor before it. -/
def mergeAuthorship (old r : ValidatorAuthorshipRecord) :
    Except StoreError ValidatorAuthorshipRecord := do
  let number ← toU64 r.lastAuthoredBlock
  let oldNumber ← toU64 old.lastAuthoredBlock
  return { r with
    blocksAuthored := max r.blocksAuthored old.blocksAuthored
    blocksAuthoredWithPow := max r.blocksAuthoredWithPow old.blocksAuthoredWithPow
    lastAuthoredBlock := if oldNumber > number then old.lastAuthoredBlock else r.lastAuthoredBlock
    lastAuthoredAt := if oldNumber > number then old.lastAuthoredAt else r.lastAuthoredAt }

/-- One row of the merge, with what is merged under its account. -/
def mergeInto (old : Option ValidatorAuthorshipRecord) (r : ValidatorAuthorshipRecord) :
    Except StoreError ValidatorAuthorshipRecord :=
  match old with
  | some old => mergeAuthorship old r
  | none => .ok r

/-- The merge loop of `get_validator_authorship`. -/
def mergeRows : List (Except StoreError ValidatorAuthorshipRecord) →
    KeyedTable String ValidatorAuthorshipRecord →
      Except StoreError (KeyedTable String ValidatorAuthorshipRecord)
  | [], merged => .ok merged
  | row :: rows, merged => do
    let r ← row
    let r ← mergeInto (merged.get? r.accountId) r
    mergeRows rows (merged.put r.accountId r)

/-- A stored row; its key is its account. -/
def storedRow (e : String × ValidatorAuthorshipRecord) : ValidatorAuthorshipRecord :=
  { e.2 with accountId := e.1 }

/-- The validators that have a fact. -/
def Store.authors (s : Store) : List String := (s.authorshipBlocks.rows.map (·.1.1)).dedup

/-- The order of the served rows. -/
def servedBefore (a b : ValidatorAuthorshipRecord) : Prop :=
  b.blocksAuthored < a.blocksAuthored ∨
    a.blocksAuthored = b.blocksAuthored ∧ a.accountId ≤ b.accountId

instance : DecidableRel servedBefore := fun _ _ => inferInstanceAs (Decidable (_ ∨ _))

/-- `get_validator_authorship`: stored rows first, then the facts until the cutover. The rows
that are read are within the budget of `query_api`, beyond which the read fails. -/
def getValidatorAuthorship (s : Store) : Except StoreError (List ValidatorAuthorshipRecord) := do
  let stored := s.validatorAuthorship.rows.map fun e => .ok (storedRow e)
  let facts := if s.authorshipCutover = some "1" then []
    else s.authors.map (freshRow s.pg s.authorshipBlocks.rows)
  let merged ← mergeRows (stored ++ facts) .empty
  return (merged.rows.map Prod.snd).insertionSort servedBefore

/-! ### Cutting over -/

/-- Whether a legacy validator's count is not represented by facts. -/
def behind (fresh : List ValidatorAuthorshipRecord) (s : Store) : Bool :=
  s.validatorAuthorship.rows.any fun e =>
    ((fresh.find? (·.accountId = e.1)).map (·.blocksAuthored)).getD 0 < e.2.blocksAuthored

/-- `try_authorship_cutover`. -/
def tryAuthorshipCutover (s : Store) : Except StoreError Bool × Store :=
  Tx.write (do
    let _ ← Tx.readM Store.requireBound
    if ← Tx.read (fun s : Store => decide (s.authorshipCutover = some "1")) then
      return .commit true
    else
      let fresh ← Tx.readM fun s => fresh s.pg s.authorshipBlocks
      if ← Tx.read (behind fresh) then return .abandon false
      else
        recompute
        Tx.update fun s => ((), { s with authorshipCutover := some "1" })
        return .commit true) s

/-- `recompute_authorship_summary`. -/
def recomputeAuthorshipSummary (s : Store) : Except StoreError Unit × Store :=
  Tx.write (do
    let _ ← Tx.readM Store.requireBound
    recompute
    return .commit ()) s

/-- **What a call of `try_authorship_cutover` does**: nothing, or it cuts over. -/
theorem tryAuthorshipCutover_cases {s s' : Store} {r : Except StoreError Bool}
    (h : tryAuthorshipCutover s = (r, s')) :
    (s' = s ∧ (r = .ok true → s.authorshipCutover = some "1")) ∨
    (r = .ok true ∧ s.authorshipCutover ≠ some "1" ∧
      ∃ items, fresh s.pg s.authorshipBlocks = .ok items ∧ behind items s = false ∧
        s' = { s with
          validatorAuthorship :=
            s.validatorAuthorship.putAll (items.map fun i => (i.accountId, i))
          authorshipCutover := some "1" }) := by
  cases r with
  | error e => exact .inl ⟨Tx.write_error h, nofun⟩
  | ok b =>
    rcases Tx.write_ok.mp h with h | ⟨⟨t, h⟩, rfl⟩
    · obtain ⟨g, -, h⟩ := Tx.exec_readM_bind_ok.mp h
      rw [Tx.exec_read_bind] at h
      split at h <;> rename_i hc
      · cases h
        exact .inl ⟨rfl, fun _ => by simpa using hc⟩
      obtain ⟨items, hfresh, h⟩ := Tx.exec_readM_bind_ok.mp h
      rw [Tx.exec_read_bind] at h
      split at h <;> rename_i hb
      · cases h
      obtain ⟨u, s₁, h₁, h⟩ := Tx.exec_bind_ok.mp h
      obtain ⟨items', hfresh', rfl⟩ := exec_recompute h₁
      rw [hfresh] at hfresh'
      cases hfresh'
      cases h
      exact .inr ⟨rfl, by simpa using hc, items, hfresh, by simpa using hb, rfl⟩
    · obtain ⟨g, -, h⟩ := Tx.exec_readM_bind_ok.mp h
      rw [Tx.exec_read_bind] at h
      split at h <;> rename_i hc
      · cases h
      obtain ⟨items, hfresh, h⟩ := Tx.exec_readM_bind_ok.mp h
      rw [Tx.exec_read_bind] at h
      split at h <;> rename_i hb
      · cases h
        exact .inl ⟨rfl, nofun⟩
      obtain ⟨u, s₁, h₁, h⟩ := Tx.exec_bind_ok.mp h
      cases h

/-- A call of `recompute_authorship_summary` changes nothing, or recomputes the rows. -/
theorem recomputeAuthorshipSummary_cases {s s' : Store} {r : Except StoreError Unit}
    (h : recomputeAuthorshipSummary s = (r, s')) :
    s' = s ∨ r = .ok () ∧ ∃ items, fresh s.pg s.authorshipBlocks = .ok items ∧
      s' = { s with validatorAuthorship :=
        s.validatorAuthorship.putAll (items.map fun i => (i.accountId, i)) } := by
  cases r with
  | error e => exact .inl (Tx.write_error h)
  | ok u =>
    rcases Tx.write_ok.mp h with h | ⟨⟨t, h⟩, -⟩
    · obtain ⟨g, -, h⟩ := Tx.exec_readM_bind_ok.mp h
      obtain ⟨u, s₁, h₁, h⟩ := Tx.exec_bind_ok.mp h
      cases h
      exact .inr ⟨rfl, exec_recompute h₁⟩
    · obtain ⟨g, -, h⟩ := Tx.exec_readM_bind_ok.mp h
      obtain ⟨u, s₁, h₁, h⟩ := Tx.exec_bind_ok.mp h
      cases h

/-! ### What is served for one validator -/

/-- The floor of a validator. -/
def Store.floorRow (s : Store) (validator : String) : Option ValidatorAuthorshipRecord :=
  (s.validatorAuthorship.get? validator).map fun r => storedRow (validator, r)

/-- What is served for a validator. -/
def servedRow (s : Store) (validator : String) :
    Except StoreError (Option ValidatorAuthorshipRecord) :=
  if s.authorshipCutover = some "1" ∨ validator ∉ s.authors then .ok (s.floorRow validator)
  else do
    let r ← freshRow s.pg s.authorshipBlocks.rows validator
    let r ← mergeInto (s.floorRow validator) r
    return some r

theorem mergeInto_account {old : Option ValidatorAuthorshipRecord}
    {r m : ValidatorAuthorshipRecord} (h : mergeInto old r = .ok m) : m.accountId = r.accountId := by
  unfold mergeInto at h
  cases old with
  | none =>
    cases h
    rfl
  | some old =>
    simp only [mergeAuthorship] at h
    cases hn : toU64 r.lastAuthoredBlock with
    | error e => simp [hn, bind, Except.bind] at h
    | ok number =>
      cases ho : toU64 old.lastAuthoredBlock with
      | error e => simp [hn, ho, bind, Except.bind] at h
      | ok oldNumber =>
        simp only [hn, ho, bind, Except.bind, pure, Except.pure, Except.ok.injEq] at h
        rw [← h]

theorem freshRow_account {pg : Bool} {facts : List ((String × ℕ) × AuthorshipFact)}
    {validator : String} {r : ValidatorAuthorshipRecord}
    (h : freshRow pg facts validator = .ok r) : r.accountId = validator := by
  unfold freshRow at h
  dsimp only at h
  split at h <;> cases h
  rfl

section Merge

variable {f : String → Except StoreError ValidatorAuthorshipRecord}
  {vs : List String} {t t' : KeyedTable String ValidatorAuthorshipRecord}

/-- The merge loop succeeds exactly when every row of it does, and then holds the merged
row of each account. -/
theorem mergeRows_iff (hf : ∀ v r, f v = .ok r → r.accountId = v) (hnodup : vs.Nodup) :
    (∃ t', mergeRows (vs.map f) t = .ok t') ↔
      ∀ v ∈ vs, ∃ r m, f v = .ok r ∧ mergeInto (t.get? v) r = .ok m := by
  induction vs generalizing t with
  | nil => simp [mergeRows]
  | cons v vs ih =>
    rw [List.nodup_cons] at hnodup
    rw [List.map_cons, mergeRows]
    cases hv : f v with
    | error e =>
      simp only [bind, Except.bind, reduceCtorEq, exists_const, false_iff, not_forall]
      exact ⟨v, List.mem_cons_self .., by simp [hv]⟩
    | ok r =>
      have haccount := hf v r hv
      simp only [bind, Except.bind, haccount]
      cases hm : mergeInto (t.get? v) r with
      | error e =>
        simp only [reduceCtorEq, exists_const, false_iff, not_forall]
        exact ⟨v, List.mem_cons_self .., by simp [hv, hm]⟩
      | ok m =>
        have hmv : m.accountId = v := (mergeInto_account hm).trans haccount
        show (∃ t', mergeRows (vs.map f) (t.put m.accountId m) = .ok t') ↔ _
        rw [hmv, ih hnodup.2]
        have hother : ∀ w ∈ vs, (t.put v m).get? w = t.get? w := by
          rintro w hw
          exact KeyedTable.get?_put_ne fun h => hnodup.1 (h ▸ hw)
        constructor
        · intro h w hw
          rcases List.mem_cons.mp hw with rfl | hw
          · exact ⟨r, m, hv, hm⟩
          · rw [← hother w hw]
            exact h w hw
        · intro h w hw
          rw [hother w hw]
          exact h w (List.mem_cons_of_mem _ hw)

theorem mergeRows_get? (hf : ∀ v r, f v = .ok r → r.accountId = v) (hnodup : vs.Nodup)
    (h : mergeRows (vs.map f) t = .ok t') (v : String) :
    (v ∉ vs → t'.get? v = t.get? v) ∧
    (v ∈ vs → ∃ r m, f v = .ok r ∧ mergeInto (t.get? v) r = .ok m ∧ t'.get? v = some m) := by
  induction vs generalizing t with
  | nil =>
    cases h
    simp
  | cons w vs ih =>
    rw [List.nodup_cons] at hnodup
    rw [List.map_cons, mergeRows] at h
    cases hw : f w with
    | error e => simp [hw, bind, Except.bind] at h
    | ok r =>
      have haccount := hf w r hw
      simp only [hw, bind, Except.bind, haccount] at h
      cases hm : mergeInto (t.get? w) r with
      | error e => simp [hm] at h
      | ok m =>
        have hmw : m.accountId = w := (mergeInto_account hm).trans haccount
        simp only [hm, hmw] at h
        obtain ⟨hnot, hmem⟩ := ih hnodup.2 h
        constructor
        · intro hv
          rw [List.mem_cons, not_or] at hv
          rw [hnot hv.2, KeyedTable.get?_put_ne hv.1]
        · intro hv
          by_cases hvw : v = w
          · subst hvw
            refine ⟨r, m, hw, hm, ?_⟩
            rw [hnot hnodup.1, KeyedTable.get?_put_self]
          · rw [← KeyedTable.get?_put_ne (t := t) (r := m) hvw]
            exact hmem ((List.mem_cons.mp hv).resolve_left hvw)

theorem mergeRows_append (l l' : List (Except StoreError ValidatorAuthorshipRecord))
    (t : KeyedTable String ValidatorAuthorshipRecord) :
    mergeRows (l ++ l') t = (mergeRows l t).bind (mergeRows l') := by
  induction l generalizing t with
  | nil => rfl
  | cons row l ih =>
    rw [List.cons_append, mergeRows, mergeRows]
    cases row with
    | error e => rfl
    | ok r =>
      simp only [bind, Except.bind]
      cases mergeInto (t.get? r.accountId) r with
      | error e => rfl
      | ok m => exact ih _

end Merge

/-- The merge loop reads the stored rows as they are. -/
theorem mergeRows_stored (s : Store) :
    ∃ t, mergeRows (s.validatorAuthorship.rows.map fun e => .ok (storedRow e)) .empty = .ok t ∧
      ∀ v, t.get? v = s.floorRow v := by
  -- the answers as a function of the validator
  let f : String → Except StoreError ValidatorAuthorshipRecord := fun v =>
    (s.floorRow v).elim (.error .networkIdentity) .ok
  have hfloor : ∀ e ∈ s.validatorAuthorship.rows, s.floorRow e.1 = some (storedRow e) := by
    intro e he
    rw [Store.floorRow, KeyedTable.get?_eq_some.mpr he]
    rfl
  have hf : ∀ v r, f v = .ok r → s.floorRow v = some r := by
    intro v r h
    cases hv : s.floorRow v with
    | none => simp [f, hv] at h
    | some r' =>
      simp only [f, hv, Option.elim_some, Except.ok.injEq] at h
      rw [h]
  have haccount : ∀ v r, f v = .ok r → r.accountId = v := by
    intro v r h
    obtain ⟨r', -, rfl⟩ := Option.map_eq_some_iff.mp (hf v r h)
    rfl
  have hrows : (s.validatorAuthorship.rows.map fun e =>
      (.ok (storedRow e) : Except StoreError ValidatorAuthorshipRecord)) =
      (s.validatorAuthorship.rows.map Prod.fst).map f := by
    rw [List.map_map]
    refine List.map_congr_left fun e he => ?_
    simp [f, hfloor e he]
  rw [hrows]
  obtain ⟨t, ht⟩ := (mergeRows_iff (t := .empty) haccount s.validatorAuthorship.nodup).mpr (by
    intro v hv
    obtain ⟨e, he, rfl⟩ := List.mem_map.mp hv
    exact ⟨storedRow e, storedRow e, by simp [f, hfloor e he], rfl⟩)
  refine ⟨t, ht, fun v => ?_⟩
  obtain ⟨hnot, hmem⟩ := mergeRows_get? haccount s.validatorAuthorship.nodup ht v
  by_cases hv : v ∈ s.validatorAuthorship.rows.map Prod.fst
  · obtain ⟨r, m, hr, hm, hget⟩ := hmem hv
    cases hm
    rw [hget, hf v r hr]
  · have hnone : s.validatorAuthorship.get? v = none := by
      refine KeyedTable.get?_eq_none.mpr fun r hr => hv ?_
      exact List.mem_map.mpr ⟨(v, r), hr, rfl⟩
    rw [hnot hv, Store.floorRow, hnone]
    rfl

/-- The validators whose facts are merged. -/
def Store.merged (s : Store) : List String :=
  if s.authorshipCutover = some "1" then [] else s.authors

theorem Store.mem_merged {s : Store} {v : String} :
    v ∈ s.merged ↔ s.authorshipCutover ≠ some "1" ∧ v ∈ s.authors := by
  unfold Store.merged
  by_cases hc : s.authorshipCutover = some "1" <;> simp [hc]

theorem Store.merged_nodup (s : Store) : s.merged.Nodup := by
  unfold Store.merged
  split
  · exact List.nodup_nil
  · exact List.nodup_dedup _

theorem servedRow_of_mem {s : Store} {v : String} (h : v ∈ s.merged) :
    servedRow s v = (freshRow s.pg s.authorshipBlocks.rows v).bind fun r =>
      (mergeInto (s.floorRow v) r).map some := by
  obtain ⟨hc, hv⟩ := Store.mem_merged.mp h
  rw [servedRow, if_neg (by simp [hc, hv])]
  show (freshRow s.pg s.authorshipBlocks.rows v).bind _ = _
  congr 1

theorem servedRow_of_not_mem {s : Store} {v : String} (h : v ∉ s.merged) :
    servedRow s v = .ok (s.floorRow v) := by
  rw [Store.mem_merged] at h
  rw [servedRow, if_pos (by tauto)]

/-- What is served for a merged validator is its merged row. -/
theorem servedRow_merged {s : Store} {v : String} {o : Option ValidatorAuthorshipRecord}
    (h : v ∈ s.merged) : servedRow s v = .ok o ↔
      ∃ r m, freshRow s.pg s.authorshipBlocks.rows v = .ok r ∧
        mergeInto (s.floorRow v) r = .ok m ∧ o = some m := by
  rw [servedRow_of_mem h]
  cases freshRow s.pg s.authorshipBlocks.rows v with
  | error e => simp [Except.bind]
  | ok r => cases hm : mergeInto (s.floorRow v) r <;> simp [Except.bind, Except.map, hm, eq_comm]

/-- What is read is the sorted merge of the floors with the facts. -/
theorem getValidatorAuthorship_ok (s : Store) :
    ∃ t, (∀ v, t.get? v = s.floorRow v) ∧ ∀ rows, getValidatorAuthorship s = .ok rows ↔
      ∃ t', mergeRows (s.merged.map (freshRow s.pg s.authorshipBlocks.rows)) t = .ok t' ∧
        rows = (t'.rows.map Prod.snd).insertionSort servedBefore := by
  obtain ⟨t, ht, hget⟩ := mergeRows_stored s
  refine ⟨t, hget, fun rows => ?_⟩
  have hfacts : (if s.authorshipCutover = some "1" then []
      else s.authors.map (freshRow s.pg s.authorshipBlocks.rows)) =
      s.merged.map (freshRow s.pg s.authorshipBlocks.rows) := by
    unfold Store.merged
    split <;> rfl
  rw [getValidatorAuthorship, hfacts, mergeRows_append, ht]
  show (mergeRows (s.merged.map (freshRow s.pg s.authorshipBlocks.rows)) t).bind _ = _ ↔ _
  cases mergeRows (s.merged.map (freshRow s.pg s.authorshipBlocks.rows)) t with
  | error e => simp [Except.bind]
  | ok t' => simp [Except.bind, pure, Except.pure, eq_comm]

/-- The counters are served when every validator's row is. -/
theorem getValidatorAuthorship_isOk (s : Store) :
    (∃ rows, getValidatorAuthorship s = .ok rows) ↔ ∀ v, ∃ o, servedRow s v = .ok o := by
  obtain ⟨t, hget, hrows⟩ := getValidatorAuthorship_ok s
  constructor
  · rintro ⟨rows, h⟩ v
    by_cases hv : v ∈ s.merged
    · obtain ⟨t', ht', -⟩ := (hrows rows).mp h
      obtain ⟨r, m, hr, hm⟩ :=
        (mergeRows_iff (fun _ _ => freshRow_account) s.merged_nodup).mp ⟨t', ht'⟩ v hv
      rw [hget] at hm
      exact ⟨some m, (servedRow_merged hv).mpr ⟨r, m, hr, hm, rfl⟩⟩
    · exact ⟨_, servedRow_of_not_mem hv⟩
  · intro h
    obtain ⟨t', ht'⟩ := (mergeRows_iff (t := t) (f := freshRow s.pg s.authorshipBlocks.rows)
      (fun _ _ => freshRow_account) s.merged_nodup).mpr (by
        intro v hv
        obtain ⟨o, ho⟩ := h v
        obtain ⟨r, m, hr, hm, -⟩ := (servedRow_merged hv).mp ho
        exact ⟨r, m, hr, by rw [hget, hm]⟩)
    exact ⟨_, (hrows _).mpr ⟨t', ht', rfl⟩⟩

/-- **The rows that are read are the rows that are served, each under its account.** -/
theorem getValidatorAuthorship_mem {s : Store} {rows : List ValidatorAuthorshipRecord}
    (h : getValidatorAuthorship s = .ok rows) (r : ValidatorAuthorshipRecord) :
    r ∈ rows ↔ servedRow s r.accountId = .ok (some r) := by
  obtain ⟨t, hget, hrows⟩ := getValidatorAuthorship_ok s
  obtain ⟨t', ht', rfl⟩ := (hrows rows).mp h
  have hserved : ∀ v, servedRow s v = .ok (t'.get? v) ∧
      ∀ r, t'.get? v = some r → r.accountId = v := by
    intro v
    obtain ⟨hnot, hmem⟩ := mergeRows_get? (fun _ _ => freshRow_account) s.merged_nodup ht' v
    by_cases hv : v ∈ s.merged
    · obtain ⟨r', m, hr, hm, hgetv⟩ := hmem hv
      rw [hget] at hm
      refine ⟨(servedRow_merged hv).mpr ⟨r', m, hr, hm, hgetv⟩, ?_⟩
      intro r hr'
      rw [hgetv] at hr'
      cases hr'
      exact (mergeInto_account hm).trans (freshRow_account hr)
    · rw [servedRow_of_not_mem hv, hnot hv, hget]
      refine ⟨rfl, ?_⟩
      intro r hr
      obtain ⟨r', -, rfl⟩ := Option.map_eq_some_iff.mp hr
      rfl
  rw [List.mem_insertionSort, List.mem_map, (hserved r.accountId).1, Except.ok.injEq]
  constructor
  · rintro ⟨⟨v, r'⟩, hmem, rfl⟩
    have hv := KeyedTable.get?_eq_some.mpr hmem
    rw [(hserved v).2 _ hv]
    exact hv
  · intro hr
    exact ⟨(r.accountId, r), KeyedTable.get?_eq_some.mp hr, rfl⟩

/-! ### Counters that do not fall -/

/-- No counter of a row is greater than the other row's; an absent height is the least. -/
structure Below (r r' : ValidatorAuthorshipRecord) : Prop where
  blocks : r.blocksAuthored ≤ r'.blocksAuthored
  pow : r.blocksAuthoredWithPow ≤ r'.blocksAuthoredWithPow
  last : ∀ n, r.lastAuthoredBlock = some n → ∃ m, r'.lastAuthoredBlock = some m ∧ n ≤ m

theorem Below.refl (r : ValidatorAuthorshipRecord) : Below r r :=
  ⟨le_rfl, le_rfl, fun n h => ⟨n, h, le_rfl⟩⟩

theorem Below.trans {r₁ r₂ r₃ : ValidatorAuthorshipRecord} (h : Below r₁ r₂) (h' : Below r₂ r₃) :
    Below r₁ r₃ := by
  refine ⟨h.blocks.trans h'.blocks, h.pow.trans h'.pow, ?_⟩
  intro n hn
  obtain ⟨m, hm, hnm⟩ := h.last n hn
  obtain ⟨k, hk, hmk⟩ := h'.last m hm
  exact ⟨k, hk, hnm.trans hmk⟩

/-- A height that `to_u64` reads. -/
def Readable (r : ValidatorAuthorshipRecord) : Prop :=
  ∀ n, r.lastAuthoredBlock = some n → n ≤ u64Max

theorem toU64_ok {o : Option ℕ} {k : ℕ} :
    toU64 o = .ok k ↔ (∀ n, o = some n → n ≤ u64Max) ∧ k = o.getD 0 := by
  cases o with
  | none => simp [toU64, eq_comm]
  | some n => by_cases h : n ≤ u64Max <;> simp [toU64, h, eq_comm]

theorem mergeAuthorship_ok {old r m : ValidatorAuthorshipRecord} :
    mergeAuthorship old r = .ok m ↔ Readable r ∧ Readable old ∧
      m = { r with
        blocksAuthored := max r.blocksAuthored old.blocksAuthored
        blocksAuthoredWithPow := max r.blocksAuthoredWithPow old.blocksAuthoredWithPow
        lastAuthoredBlock := if old.lastAuthoredBlock.getD 0 > r.lastAuthoredBlock.getD 0
          then old.lastAuthoredBlock else r.lastAuthoredBlock
        lastAuthoredAt := if old.lastAuthoredBlock.getD 0 > r.lastAuthoredBlock.getD 0
          then old.lastAuthoredAt else r.lastAuthoredAt } := by
  unfold mergeAuthorship
  constructor
  · intro h
    cases hn : toU64 r.lastAuthoredBlock with
    | error e => simp [hn, bind, Except.bind] at h
    | ok number =>
      cases ho : toU64 old.lastAuthoredBlock with
      | error e => simp [hn, ho, bind, Except.bind] at h
      | ok oldNumber =>
        simp only [hn, ho, bind, Except.bind, pure, Except.pure, Except.ok.injEq] at h
        obtain ⟨hr, rfl⟩ := toU64_ok.mp hn
        obtain ⟨hold, rfl⟩ := toU64_ok.mp ho
        exact ⟨hr, hold, h.symm⟩
  · rintro ⟨hr, hold, rfl⟩
    simp only [toU64_ok.mpr ⟨hr, rfl⟩, toU64_ok.mpr ⟨hold, rfl⟩, bind, Except.bind, pure,
      Except.pure]

theorem mergeInto_isOk {old : Option ValidatorAuthorshipRecord} {r : ValidatorAuthorshipRecord} :
    (∃ m, mergeInto old r = .ok m) ↔ ∀ o, old = some o → Readable r ∧ Readable o := by
  cases old with
  | none => simp [mergeInto]
  | some o => simp [mergeInto, mergeAuthorship_ok]

section MergeInto

variable {old : Option ValidatorAuthorshipRecord} {r m : ValidatorAuthorshipRecord}

/-- A merged row is an upper bound of what was merged. -/
theorem mergeInto_above (hlast : r.lastAuthoredBlock.isSome) (h : mergeInto old r = .ok m) :
    Below r m ∧ ∀ o, old = some o → Below o m := by
  obtain ⟨n, hn⟩ := Option.isSome_iff_exists.mp hlast
  cases old with
  | none =>
    cases h
    exact ⟨.refl r, nofun⟩
  | some o =>
    obtain ⟨-, -, rfl⟩ := mergeAuthorship_ok.mp h
    refine ⟨⟨le_max_left _ _, le_max_left _ _, ?_⟩, ?_⟩
    · intro k hk
      cases ho : o.lastAuthoredBlock with
      | none => exact ⟨k, by simp [hk], le_rfl⟩
      | some l =>
        by_cases hl : k < l
        · exact ⟨l, by simp [hk, hl], hl.le⟩
        · exact ⟨k, by simp [hk, hl], le_rfl⟩
    · rintro _ ⟨rfl⟩
      refine ⟨le_max_right _ _, le_max_right _ _, ?_⟩
      intro l hl
      by_cases hlt : n < l
      · exact ⟨l, by simp [hn, hl, hlt], le_rfl⟩
      · exact ⟨n, by simp [hn, hl, hlt], not_lt.mp hlt⟩

/-- A merged row is the least upper bound. -/
theorem mergeInto_below {r' : ValidatorAuthorshipRecord} (h : mergeInto old r = .ok m)
    (hr : Below r r') (hold : ∀ o, old = some o → Below o r') : Below m r' := by
  cases old with
  | none =>
    cases h
    exact hr
  | some o =>
    have ho := hold o rfl
    obtain ⟨-, -, rfl⟩ := mergeAuthorship_ok.mp h
    refine ⟨max_le hr.blocks ho.blocks, max_le hr.pow ho.pow, ?_⟩
    intro n hn
    dsimp only at hn
    split at hn
    · exact ho.last n hn
    · exact hr.last n hn

end MergeInto

end Dashboard

/-
Binding a store to its network.

The model of `retained_history` and `bind_network_with` of
`dashboard-store/src/coverage.rs`.  A database that is not bound may have been filled by an
earlier dashboard: its columns are any texts.  Between its awaits `bind_network_with` holds
the lock of the writer, so that nothing else writes; it may fail or be cancelled at each of
them.

* `bindNetworkWith` — the verification, page after page, and the transaction after it;
* `verifyPages_trace` — what has been verified when the last page was empty;
* `bind_verifies_all` — **an unbound store becomes bound only when the upstream agreed with
  every retained row, or there was none and no table held a row; and a bound one stays**;
* `bind_agreed` — an upstream that agrees with all rows binds the store.
-/
import QuipDashboard.Transaction
import QuipDashboard.Records
import QuipDashboard.Trace
import QuipDashboard.Paging
import QuipDashboard.PaddedTexts
import Mathlib.Data.List.Dedup

namespace Dashboard

namespace NetworkBinding

/-! ### Retained rows -/

/-- A height and a hash, as the columns of a table have them. -/
structure RetainedText where
  height : String
  hash : String
  deriving DecidableEq

/-- `FromStr for DecimalString`, by the number: `0`, or digits without a leading zero. -/
def decimalString (raw : String) : Option ℕ :=
  match raw.toList with
  | [] => none
  | first :: rest =>
    if (first :: rest).all Char.isDigit && !(first = '0' && !rest.isEmpty) then
      some (DigitOrder.value (first :: rest))
    else none

/-- A row of `retained_history`. -/
def retainedBlock (row : RetainedText) : Except StoreError RetainedBlock :=
  match decimalString row.height with
  | none => .error (.invalid "invalid retained height")
  | some height =>
    match BlockHash.fromStr row.hash with
    | .error _ => .error (.invalid "invalid retained hash")
    | .ok hash => .ok ⟨height, hash⟩

/-! ### The database -/

/-- The tables that must be empty when nothing is retained. -/
inductive DataTable where
  | blocks
  | difficultyHistory
  | validatorAuthorship
  | validatorAuthorshipBlocks
  | nodeDescriptors
  | qblockParticipation
  | chainMiners
  deriving DecidableEq

/-- The tables in the order in which they are inspected. -/
def dataTables : List DataTable :=
  [.blocks, .difficultyHistory, .validatorAuthorship, .validatorAuthorshipBlocks,
    .nodeDescriptors, .qblockParticipation, .chainMiners]

/-- A database; what is not read of a row, and all other tables, are of any type. -/
structure Database (ρ : Type) where
  /-- `meta`: `dashboard.genesis`. -/
  genesis : Option String
  /-- `dashboard_finalized`. -/
  finalized : List RetainedText
  /-- `blocks`, with `substrate_block_number` and `substrate_block_hash`. -/
  blocks : List (RetainedText × ρ)
  /-- `chain_head`, with `finalized_block_number` and `finalized_block_hash`. -/
  chainHead : List (RetainedText × ρ)
  difficultyHistory : List ρ
  validatorAuthorship : List ρ
  validatorAuthorshipBlocks : List ρ
  nodeDescriptors : List ρ
  qblockParticipation : List ρ
  chainMiners : List ρ
  rest : ρ

variable {ρ : Type}

/-- Whether a table holds a row. -/
def Database.holds (db : Database ρ) : DataTable → Bool
  | .blocks => !db.blocks.isEmpty
  | .difficultyHistory => !db.difficultyHistory.isEmpty
  | .validatorAuthorship => !db.validatorAuthorship.isEmpty
  | .validatorAuthorshipBlocks => !db.validatorAuthorshipBlocks.isEmpty
  | .nodeDescriptors => !db.nodeDescriptors.isEmpty
  | .qblockParticipation => !db.qblockParticipation.isEmpty
  | .chainMiners => !db.chainMiners.isEmpty

/-- `ORDER BY length(height),height,hash`. -/
def inOrder (a b : RetainedText) : Bool :=
  a.height.length < b.height.length ||
    (a.height.length = b.height.length &&
      (a.height < b.height || (a.height = b.height && a.hash ≤ b.hash)))

/-- The rows of the `UNION`. -/
def Database.retained (db : Database ρ) : List RetainedText :=
  (db.finalized ++ db.blocks.map Prod.fst ++ db.chainHead.map Prod.fst).dedup

/-- The rows of the `UNION` in their order. -/
def Database.history (db : Database ρ) : List RetainedText :=
  db.retained.insertionSort fun a b => inOrder a b = true

/-! ### The verification -/

/-- What `bind_network_with` awaits. -/
inductive BindEffect : Type → Type 1
  | lockWriter : BindEffect (Except StoreError Unit)
  | genesis : BindEffect (Except StoreError (Option String))
  | retained (limit offset : ℕ) : BindEffect (Except StoreError (List RetainedText))
  | verify (row : RetainedBlock) : BindEffect (Except StoreError BlockHash)
  | present (table : DataTable) : BindEffect (Except StoreError Bool)
  | begin : BindEffect (Except StoreError Unit)
  | setGenesis (genesis : String) : BindEffect (Except StoreError Unit)
  | commit : BindEffect (Except StoreError Unit)

abbrev Binding (α : Type) := Program BindEffect StoreError α

/-- An effect that may fail. -/
def tryAwait {α : Type} (e : BindEffect (Except StoreError α)) : Binding α := Program.awaitOk id e

/-- `retained_history`. -/
def retainedHistory (limit offset : ℕ) : Binding (List RetainedBlock) := do
  let rows ← tryAwait (.retained (min limit 1000) offset)
  Program.ofExcept (rows.mapM retainedBlock)

/-- The rows of a page, one after another. -/
def verifyRows : List RetainedBlock → Binding Unit
  | [] => pure ()
  | row :: rows => do
    let hash ← tryAwait (.verify row)
    if hash.sameBytes row.hash then verifyRows rows else .fail .networkIdentity

/-- The pages from `offset` on, with whether there was a row. -/
def verifyPages : ℕ → ℕ → Bool → Binding Bool
  | 0, _, _ => .pending
  | fuel + 1, offset, any => do
    let rows ← retainedHistory 512 offset
    if rows.isEmpty then pure any
    else do
      verifyRows rows
      verifyPages fuel (offset + rows.length) true

/-- The tables that must be empty. -/
def checkTables : List DataTable → Binding Unit
  | [] => pure ()
  | table :: tables => do
    let present ← tryAwait (.present table)
    if present then .fail .networkIdentity else checkTables tables

/-- Without a retained row there must be no data. -/
def checkData (any : Bool) : Binding Unit := if any then pure () else checkTables dataTables

/-- `Write::begin`, `set_meta` and `commit`. -/
def writeGenesis (genesis : String) : Binding Unit := do
  tryAwait .begin
  tryAwait (.setGenesis genesis)
  tryAwait .commit

/-- `bind_network_with`; the fuel bounds the number of pages. -/
def bindNetworkWith (fuel : ℕ) (genesis : BlockHash) : Binding Unit := do
  tryAwait .lockWriter
  let bound ← tryAwait .genesis
  match bound with
  | some bound => if bound ≠ genesis.text then .fail .networkIdentity else pure ()
  | none => do
    let any ← verifyPages fuel 0 false
    checkData any
    writeGenesis genesis.text

/-- What is committed, and the genesis that an open transaction has written. -/
structure BindState (ρ : Type) where
  db : Database ρ
  written : Option String

/-- The store after the commit of a genesis. -/
def Database.bind (db : Database ρ) (genesis : String) : Database ρ :=
  { db with genesis := some genesis }

/-- What the awaits may answer.  A statement or `COMMIT` that fails, or inside of which the
call is cancelled, may have taken effect. -/
def BindAnswers {γ : Type} (s : BindState ρ) (e : BindEffect γ) (r : γ) (s' : BindState ρ) : Prop :=
  match e, r with
  | .lockWriter, _ => s' = s
  | .genesis, r => s' = s ∧ ∀ g, r = .ok g → g = s.db.genesis
  | .retained limit offset, r =>
    s' = s ∧ ∀ rows, r = .ok rows → rows = Paging.page s.db.history limit offset
  | .verify _, _ => s' = s
  | .present table, r => s' = s ∧ ∀ b, r = .ok b → b = s.db.holds table
  | .begin, _ => s' = { s with written := none }
  | .setGenesis g, .ok () => s' = { s with written := some g }
  | .setGenesis g, .error _ => s' = s ∨ s' = { s with written := some g }
  | .commit, .ok () => s'.db = (s.written.map s.db.bind).getD s.db
  | .commit, .error _ => s'.db = s.db ∨ s'.db = (s.written.map s.db.bind).getD s.db

/-! ### What was verified -/

variable {es : List (Performed BindEffect)} {s t : BindState ρ}

/-- A run of a part of `bind_network_with`, which may be stopped. -/
abbrev BindTrace {α : Type} (p : Binding α) (s : BindState ρ) (es : List (Performed BindEffect))
    (t : BindState ρ) (o : Option (Except StoreError α)) : Prop := Trace BindAnswers p s es t o

/-- The upstream was asked for the block of a row, and its hash is the retained one. -/
def Agreed (es : List (Performed BindEffect)) (row : RetainedText) : Prop :=
  ∃ block hash, retainedBlock row = .ok block ∧ ⟨.verify block, .ok hash⟩ ∈ es ∧
    hash.sameBytes block.hash = true

theorem Agreed.append {es₁ es₂ : List (Performed BindEffect)} {row : RetainedText}
    (h : Agreed es₁ row ∨ Agreed es₂ row) : Agreed (es₁ ++ es₂) row := by
  rcases h with ⟨block, hash, hrow, hmem, hsame⟩ | ⟨block, hash, hrow, hmem, hsame⟩
  · exact ⟨block, hash, hrow, List.mem_append_left _ hmem, hsame⟩
  · exact ⟨block, hash, hrow, List.mem_append_right _ hmem, hsame⟩

/-- An effect that fails leaves no result, and one that succeeds goes on. -/
theorem tryAwait_trace {α β : Type} {e : BindEffect (Except StoreError α)} {f : α → Binding β}
    {o : Option (Except StoreError β)} (h : BindTrace (tryAwait e >>= f) s es t o) :
    (t = s ∧ ∀ b, o ≠ some (.ok b)) ∨
    (∃ e', BindAnswers s e (.error e') t ∧ ∀ b, o ≠ some (.ok b)) ∨
    ∃ a s' es', BindAnswers s e (.ok a) s' ∧ BindTrace (f a) s' es' t o ∧
      es = ⟨e, .ok a⟩ :: es' := by
  rcases Trace.awaitOk h with ⟨-, rfl, ho⟩ | ⟨e', he, -, ho⟩ | ⟨a, s', es', ha, hr, rfl⟩
  · exact .inl ⟨rfl, ho⟩
  · exact .inr (.inl ⟨e', he, ho⟩)
  · exact .inr (.inr ⟨a, s', es', ha, hr, rfl⟩)

/-- A page is read from the committed history. -/
theorem retainedHistory_trace {limit offset : ℕ}
    {o : Option (Except StoreError (List RetainedBlock))}
    (h : BindTrace (retainedHistory limit offset) s es t o) : t = s ∧ ∀ rows, o = some (.ok rows) →
      (Paging.page s.db.history (min limit 1000) offset).mapM retainedBlock = .ok rows := by
  unfold retainedHistory at h
  rcases tryAwait_trace h with ⟨rfl, ho⟩ | ⟨e', ⟨rfl, -⟩, ho⟩ | ⟨raw, s', es', ⟨rfl, hraw⟩, hr, -⟩
  · exact ⟨rfl, fun rows hrows => absurd hrows (ho rows)⟩
  · exact ⟨rfl, fun rows hrows => absurd hrows (ho rows)⟩
  · rw [hraw raw rfl] at hr
    cases hm : (Paging.page s'.db.history (min limit 1000) offset).mapM retainedBlock with
    | ok rows =>
      rw [hm] at hr
      obtain ⟨-, rfl, hres⟩ := Trace.of_done hr
      exact ⟨rfl, fun rows' ho => by rw [hres rows' ho]⟩
    | error e =>
      rw [hm] at hr
      obtain ⟨-, rfl, hres⟩ := Trace.of_fail hr
      exact ⟨rfl, fun rows' ho => absurd ho (hres rows')⟩

/-- Every row of a page that passed was agreed upon. -/
theorem verifyRows_trace {rows : List RetainedBlock} {o : Option (Except StoreError Unit)}
    (h : BindTrace (verifyRows rows) s es t o) : t = s ∧ (o = some (.ok ()) → ∀ row ∈ rows,
      ∃ hash, ⟨.verify row, .ok hash⟩ ∈ es ∧ hash.sameBytes row.hash = true) := by
  induction rows generalizing s es with
  | nil =>
    obtain ⟨-, rfl, -⟩ := Trace.of_done h
    exact ⟨rfl, fun _ row hrow => absurd hrow List.not_mem_nil⟩
  | cons row rows ih =>
    rw [verifyRows] at h
    rcases tryAwait_trace h with ⟨rfl, ho⟩ | ⟨e', he, ho⟩ | ⟨hash, s', es', hs', hr, rfl⟩
    · exact ⟨rfl, fun hok => absurd hok (ho ())⟩
    · exact ⟨he, fun hok => absurd hok (ho ())⟩
    · obtain rfl : s' = s := hs'
      by_cases hsame : hash.sameBytes row.hash = true
      · rw [if_pos hsame] at hr
        obtain ⟨rfl, hrest⟩ := ih hr
        refine ⟨rfl, fun hok row' hrow' => ?_⟩
        rcases List.mem_cons.mp hrow' with rfl | hrow'
        · exact ⟨hash, List.mem_cons_self .., hsame⟩
        · obtain ⟨hash', hmem, hsame'⟩ := hrest hok row' hrow'
          exact ⟨hash', List.mem_cons_of_mem _ hmem, hsame'⟩
      · rw [if_neg hsame] at hr
        obtain ⟨-, rfl, hres⟩ := Trace.of_fail hr
        exact ⟨rfl, fun hok => absurd hok (hres ())⟩

/-- **When the last page was empty, every row from the offset on was agreed upon.** -/
theorem verifyPages_trace {fuel offset : ℕ} {any : Bool} {o : Option (Except StoreError Bool)}
    (h : BindTrace (verifyPages fuel offset any) s es t o) : t = s ∧ ∀ any', o = some (.ok any') →
      (∀ row ∈ s.db.history.drop offset, Agreed es row) ∧
        (any' = true ↔ any = true ∨ s.db.history.drop offset ≠ []) := by
  induction fuel generalizing offset any es with
  | zero =>
    cases h with
    | stopped => exact ⟨rfl, fun any' ho => by cases ho⟩
  | succ fuel ih =>
    rw [verifyPages] at h
    rcases Trace.bind h with ⟨rfl, hp⟩ | ⟨e, rfl, hp⟩ | ⟨rows, s', es₁, es₂, hp, hr, rfl⟩
    · exact ⟨(retainedHistory_trace hp).1, fun any' ho => by cases ho⟩
    · exact ⟨(retainedHistory_trace hp).1, fun any' ho => by cases ho⟩
    · obtain ⟨rfl, hpage⟩ := retainedHistory_trace hp
      have hpage : (Paging.page s'.db.history 512 offset).mapM retainedBlock = .ok rows :=
        hpage rows rfl
      have hlen := (Except.forall₂_of_mapM hpage).length_eq
      have hsplit := Paging.page_append s'.db.history 512 offset
      rw [hlen] at hsplit
      obtain ⟨hto, -⟩ := Except.mapM_mem hpage
      -- an empty page is the last; another one is agreed upon row by row before the next
      cases rows with
      | nil =>
        obtain ⟨-, rfl, hres⟩ := Trace.of_done hr
        have hnil := List.eq_nil_of_length_eq_zero hlen
        have hdrop := Paging.page_eq_nil (by decide) hnil
        refine ⟨rfl, fun any' ho => ?_⟩
        rw [hres any' ho, hdrop]
        simp
      | cons row rows =>
        have hne : s'.db.history.drop offset ≠ [] := by
          intro hnil
          rw [hnil, List.append_eq_nil_iff] at hsplit
          rw [hsplit.1] at hlen
          cases hlen
        have hr : BindTrace (verifyRows (row :: rows) >>= fun _ =>
          verifyPages fuel (offset + (row :: rows).length) true) s' es₂ t o := hr
        rcases Trace.bind hr with ⟨rfl, hv⟩ | ⟨e, rfl, hv⟩ | ⟨u, s₁, es₃, es₄, hv, hn, rfl⟩
        · exact ⟨(verifyRows_trace hv).1, fun any' ho => by cases ho⟩
        · exact ⟨(verifyRows_trace hv).1, fun any' ho => by cases ho⟩
        · obtain ⟨rfl, hrows⟩ := verifyRows_trace hv
          obtain ⟨rfl, hnext⟩ := ih hn
          refine ⟨rfl, fun any' ho => ?_⟩
          obtain ⟨hagreed, hany⟩ := hnext any' ho
          refine ⟨fun raw hraw => ?_, ?_⟩
          · rw [← hsplit] at hraw
            refine Agreed.append (.inr (Agreed.append ?_))
            rcases List.mem_append.mp hraw with hraw | hraw
            · obtain ⟨block, hblock, hparsed⟩ := hto raw hraw
              obtain ⟨hash, hmem, hsame⟩ := hrows rfl block hblock
              exact .inl ⟨block, hash, hparsed, hmem, hsame⟩
            · exact .inr (hagreed raw hraw)
          · simp only [hany, true_or, true_iff]
            exact .inr hne

/-- The tables were found empty. -/
theorem checkTables_trace {tables : List DataTable} {o : Option (Except StoreError Unit)}
    (h : BindTrace (checkTables tables) s es t o) : t = s ∧
      (o = some (.ok ()) → ∀ table ∈ tables, s.db.holds table = false) := by
  induction tables generalizing es with
  | nil =>
    obtain ⟨-, rfl, -⟩ := Trace.of_done h
    exact ⟨rfl, fun _ table ht => absurd ht List.not_mem_nil⟩
  | cons table tables ih =>
    rw [checkTables] at h
    rcases tryAwait_trace h with ⟨rfl, ho⟩ | ⟨e', ⟨rfl, -⟩, ho⟩ | ⟨b, s', es', ⟨rfl, hb⟩, hr, rfl⟩
    · exact ⟨rfl, fun hok => absurd hok (ho ())⟩
    · exact ⟨rfl, fun hok => absurd hok (ho ())⟩
    · have hb := hb b rfl
      cases b with
      | true =>
        obtain ⟨-, rfl, hres⟩ := Trace.of_fail hr
        exact ⟨rfl, fun hok => absurd hok (hres ())⟩
      | false =>
        obtain ⟨rfl, hrest⟩ := ih hr
        exact ⟨rfl, fun hok => List.forall_mem_cons.mpr ⟨hb.symm, hrest hok⟩⟩

/-- The store may be bound: all that it retains was agreed upon, or it retains nothing
and holds no data. -/
def MayBind (es : List (Performed BindEffect)) (db : Database ρ) : Prop :=
  db.retained ≠ [] ∧ (∀ row ∈ db.retained, Agreed es row) ∨
    db.retained = [] ∧ ∀ table, db.holds table = false

theorem mem_history {db : Database ρ} {row : RetainedText} :
    row ∈ db.history ↔ row ∈ db.retained :=
  (List.perm_insertionSort _ _).mem_iff

/-- The transaction of a verified genesis. -/
theorem writeGenesis_trace {genesis : String} {o : Option (Except StoreError Unit)}
    (h : BindTrace (writeGenesis genesis) s es t o) :
    (t.db = s.db ∨ t.db = s.db.bind genesis) ∧ (o = some (.ok ()) → t.db = s.db.bind genesis) := by
  unfold writeGenesis at h
  rcases tryAwait_trace h with ⟨rfl, ho⟩ | ⟨e', hb, ho⟩ | ⟨u, s₁, es₁, hb, h, -⟩
  · exact ⟨.inl rfl, fun hok => absurd hok (ho ())⟩
  · obtain rfl : t = { s with written := none } := hb
    exact ⟨.inl rfl, fun hok => absurd hok (ho ())⟩
  · obtain rfl : s₁ = { s with written := none } := hb
    rcases tryAwait_trace h with ⟨rfl, ho⟩ | ⟨e', hset, ho⟩ | ⟨u, s₂, es₂, hset, h, -⟩
    · exact ⟨.inl rfl, fun hok => absurd hok (ho ())⟩
    · -- the failed statement is not committed
      have hdb : t.db = s.db := by
        rcases hset with rfl | rfl
        · rfl
        · rfl
      exact ⟨.inl hdb, fun hok => absurd hok (ho ())⟩
    · obtain rfl : s₂ = { s with written := some genesis } := hset
      rw [← Program.bind_pure' (tryAwait .commit)] at h
      rcases tryAwait_trace h with ⟨rfl, ho⟩ | ⟨e', hc, ho⟩ | ⟨u, s₃, es₃, hc, h, -⟩
      · exact ⟨.inl rfl, fun hok => absurd hok (ho ())⟩
      · exact ⟨hc, fun hok => absurd hok (ho ())⟩
      · obtain ⟨-, rfl, -⟩ := Trace.of_done h
        exact ⟨.inr hc, fun _ => hc⟩

/-- What is verified before the transaction. -/
theorem checkData_trace {any : Bool} {o : Option (Except StoreError Unit)}
    (h : BindTrace (checkData any) s es t o) : t = s ∧
      (o = some (.ok ()) → any = true ∨ ∀ table, s.db.holds table = false) := by
  cases any with
  | true =>
    obtain ⟨-, rfl, -⟩ := Trace.of_done h
    exact ⟨rfl, fun _ => .inl rfl⟩
  | false =>
    obtain ⟨rfl, hempty⟩ := checkTables_trace h
    refine ⟨rfl, fun hok => .inr fun table => hempty hok table ?_⟩
    cases table <;> decide

/-- **An unbound store becomes bound only when the upstream agreed with every row that it
retains, or it retains no row and holds no data.**  In all other cases nothing changes, and
a bound store never does. -/
theorem bind_verifies_all {fuel : ℕ} {genesis : BlockHash} {o : Option (Except StoreError Unit)}
    (h : BindTrace (bindNetworkWith fuel genesis) s es t o) :
    (s.db.genesis.isSome → t.db = s.db) ∧
    (s.db.genesis = none →
      (t.db = s.db ∨ t.db = s.db.bind genesis.text ∧ MayBind es s.db) ∧
      (o = some (.ok ()) → t.db = s.db.bind genesis.text)) := by
  -- a call that ends early leaves the store as it is
  have early : t = s → (∀ b, o ≠ some (.ok b)) →
      (s.db.genesis.isSome → t.db = s.db) ∧ (s.db.genesis = none →
        (t.db = s.db ∨ t.db = s.db.bind genesis.text ∧ MayBind es s.db) ∧
        (o = some (.ok ()) → t.db = s.db.bind genesis.text)) := by
    rintro rfl ho
    exact ⟨fun _ => rfl, fun _ => ⟨.inl rfl, fun hok => absurd hok (ho ())⟩⟩
  unfold bindNetworkWith at h
  rcases tryAwait_trace h with ⟨ht, ho⟩ | ⟨e', ht, ho⟩ | ⟨u, s₁, es₁, hlock, h₁, hes⟩
  · exact early ht ho
  · exact early ht ho
  obtain rfl : s₁ = s := hlock
  rcases tryAwait_trace h₁ with
    ⟨ht, ho⟩ | ⟨e', ⟨ht, -⟩, ho⟩ | ⟨bound, s₂, es₂, ⟨hs₂, hbound⟩, h₂, hes₁⟩
  · exact early ht ho
  · exact early ht ho
  obtain rfl := hs₂
  have hbound := hbound bound rfl
  cases bound with
  | some bound =>
    have ht : t = s₂ := by
      simp only at h₂
      split at h₂
      · exact (Trace.of_fail h₂).2.1
      · exact (Trace.of_done h₂).2.1
    rw [ht, ← hbound]
    exact ⟨fun _ => rfl, fun hnone => by cases hnone⟩
  | none =>
    rcases Trace.bind h₂ with ⟨ho, hp⟩ | ⟨e, ho, hp⟩ | ⟨any, s₃, es₃, es₄, hp, h₃, hes₂⟩
    · exact early (verifyPages_trace hp).1 (fun b hb => by cases ho.symm.trans hb)
    · exact early (verifyPages_trace hp).1 (fun b hb => by cases ho.symm.trans hb)
    obtain ⟨rfl, hpages⟩ := verifyPages_trace hp
    obtain ⟨hagreed, hany⟩ := hpages any rfl
    rcases Trace.bind h₃ with ⟨ho, hc⟩ | ⟨e, ho, hc⟩ | ⟨u', s₄, es₅, es₆, hc, h₄, hes₄⟩
    · exact early (checkData_trace hc).1 (fun b hb => by cases ho.symm.trans hb)
    · exact early (checkData_trace hc).1 (fun b hb => by cases ho.symm.trans hb)
    obtain ⟨rfl, hchecked⟩ := checkData_trace hc
    obtain ⟨hdb, hdone⟩ := writeGenesis_trace h₄
    rw [List.drop_zero] at hagreed hany
    refine ⟨fun hsome => ?_, fun _ => ⟨hdb.imp_right fun hdb => ⟨hdb, ?_⟩, hdone⟩⟩
    · rw [← hbound] at hsome
      cases hsome
    · by_cases hnil : s₄.db.retained = []
      · refine .inr ⟨hnil, ?_⟩
        have hhistory : s₄.db.history = [] := by
          rw [Database.history, hnil]
          rfl
        have hnot : any ≠ true := by
          rw [Ne, hany, hhistory]
          simp
        exact (hchecked rfl).resolve_left hnot
      · refine .inl ⟨hnil, fun row hrow => ?_⟩
        obtain ⟨block, hash, hparsed, hmem, hsame⟩ := hagreed row (mem_history.mpr hrow)
        refine ⟨block, hash, hparsed, ?_, hsame⟩
        rw [hes, hes₁, hes₂]
        exact List.mem_cons_of_mem _ (List.mem_cons_of_mem _ (List.mem_append_left _ hmem))

/-! ### An upstream that agrees -/

section Agreeing

variable {block : RetainedText → RetainedBlock}

/-- Each row is answered with its own hash. -/
theorem verifyRows_agreed (rows : List RetainedBlock) (s : BindState ρ) :
    ∃ es, BindTrace (verifyRows rows) s es s (some (.ok ())) := by
  induction rows with
  | nil => exact ⟨[], .done ..⟩
  | cons row rows ih =>
    obtain ⟨es, hes⟩ := ih
    refine ⟨⟨.verify row, .ok row.hash⟩ :: es, .step rfl ?_⟩
    show BindTrace (if row.hash.sameBytes row.hash = true then _ else _) s es s _
    rw [if_pos (BlockHash.sameBytes_iff.mpr rfl)]
    exact hes

/-- All pages are read when every row is one of a block. -/
theorem verifyPages_agreed {fuel : ℕ} (offset : ℕ) (any : Bool)
    (hparsed : ∀ row ∈ s.db.history, retainedBlock row = .ok (block row))
    (hfuel : s.db.history.length - offset < fuel) : ∃ es, BindTrace (verifyPages fuel offset any) s es s
      (some (.ok (any || !(s.db.history.drop offset).isEmpty))) := by
  induction fuel generalizing offset any with
  | zero => omega
  | succ fuel ih =>
    have hrows : (Paging.page s.db.history 512 offset).mapM retainedBlock =
        .ok ((Paging.page s.db.history 512 offset).map block) :=
      Except.mapM_eq_ok fun row hrow => hparsed row (List.mem_of_mem_drop (List.mem_of_mem_take hrow))
    have hread : BindTrace (retainedHistory 512 offset) s
        [⟨.retained 512 offset, .ok (Paging.page s.db.history 512 offset)⟩] s
        (some (.ok ((Paging.page s.db.history 512 offset).map block))) := by
      refine .step ⟨rfl, by rintro rows ⟨rfl⟩; rfl⟩ ?_
      show BindTrace (Program.ofExcept (List.mapM retainedBlock _)) s [] s _
      rw [hrows]
      exact .done ..
    have hsplit := Paging.page_append s.db.history 512 offset
    rw [verifyPages]
    cases hpage : Paging.page s.db.history 512 offset with
    | nil =>
      rw [hpage] at hread
      rw [Paging.page_eq_nil (by decide) hpage]
      have hdone : BindTrace (pure any : Binding Bool) s [] s (some (.ok any)) := .done ..
      rw [List.isEmpty_nil, Bool.not_true, Bool.or_false]
      exact ⟨_, .append hread hdone⟩
    | cons row rows =>
      rw [hpage] at hread hsplit
      have hlen : offset < s.db.history.length := by
        by_contra hle
        rw [List.drop_eq_nil_of_le (Nat.le_of_not_lt hle)] at hsplit
        simp at hsplit
      obtain ⟨es, hes⟩ := verifyRows_agreed ((row :: rows).map block) s
      obtain ⟨es', hes'⟩ := ih (offset + ((row :: rows).map block).length) true
        (by simp only [List.length_map, List.length_cons]; omega)
      have hany : (any || !(s.db.history.drop offset).isEmpty) = true := by
        rw [← hsplit]
        simp
      rw [Bool.true_or] at hes'
      rw [hany]
      exact ⟨_, .append hread (.append hes hes')⟩

/-- **An upstream that agrees with every retained row binds the store.** -/
theorem bind_agreed {db : Database ρ} (hgenesis : db.genesis = none) (hne : db.history ≠ [])
    (hparsed : ∀ row ∈ db.history, retainedBlock row = .ok (block row)) {fuel : ℕ}
    (hfuel : db.history.length < fuel) (genesis : BlockHash) : ∃ es t,
    BindTrace (bindNetworkWith fuel genesis) ⟨db, none⟩ es t (some (.ok ())) := by
  have hbound : BindAnswers ⟨db, none⟩ .genesis (.ok none) ⟨db, none⟩ :=
    ⟨rfl, by rintro g ⟨rfl⟩; exact hgenesis.symm⟩
  obtain ⟨es, hpages⟩ := verifyPages_agreed (s := ⟨db, none⟩) 0 false hparsed hfuel
  have hany : (false || !(db.history.drop 0).isEmpty) = true := by
    simpa using hne
  rw [hany] at hpages
  have hcommit : BindAnswers ⟨db, some genesis.text⟩ .commit (.ok ()) ⟨db.bind genesis.text, none⟩ := rfl
  have hwrite : BindTrace (writeGenesis genesis.text) ⟨db, none⟩
      [⟨.begin, .ok ()⟩, ⟨.setGenesis genesis.text, .ok ()⟩, ⟨.commit, .ok ()⟩] _ (some (.ok ())) :=
    .step rfl (.step rfl (.step hcommit (.done () _)))
  have hdata : BindTrace (checkData true) (⟨db, none⟩ : BindState ρ) [] ⟨db, none⟩ (some (.ok ())) :=
    .done ..
  have hverified : BindTrace (do
      let any ← verifyPages fuel 0 false
      checkData any
      writeGenesis genesis.text) ⟨db, none⟩ _ _ (some (.ok ())) :=
    .append hpages (.append hdata hwrite)
  exact ⟨⟨.lockWriter, .ok ()⟩ :: ⟨.genesis, .ok none⟩ :: _, _, .step rfl (.step hbound hverified)⟩

end Agreeing

/-! ### Rows on two pages -/

theorem fromStr_text (hash : BlockHash) : BlockHash.fromStr hash.text = .ok hash := by
  unfold BlockHash.fromStr
  split
  · rename_i bytes h
    rw [hash.parsed] at h
    cases h
    rfl
  · rename_i e h
    rw [hash.parsed] at h
    cases h

/-- The row of a height. -/
def rowAt (height : ℕ) : RetainedText :=
  ⟨String.ofList (DigitOrder.text height), (BlockHash.uniform 3).text⟩

theorem decimalString_text (n : ℕ) : decimalString (String.ofList (DigitOrder.text n)) = some n := by
  have hdigits : ∀ c ∈ DigitOrder.text n, c.isDigit = true := fun c => DigitOrder.isDigit_of_mem_text
  unfold decimalString
  rw [String.toList_ofList]
  cases ht : DigitOrder.text n with
  | nil => exact absurd ht (DigitOrder.text_ne_nil n)
  | cons first rest =>
    have hlead : ¬first = '0' ∨ rest = [] := by
      by_cases hn : n = 0
      · subst hn
        exact .inr (List.cons.inj ht).2.symm
      · refine .inl fun hzero => ?_
        rw [hzero] at ht
        exact DigitOrder.text_head_ne_zero hn rest ht
    rw [ht] at hdigits
    have hvalid : ((first :: rest).all Char.isDigit && !(decide (first = '0') && !rest.isEmpty)) = true := by
      simpa using ⟨List.forall_mem_cons.mp hdigits, hlead⟩
    rw [← DigitOrder.value_text n, ht]
    exact if_pos hvalid

theorem retainedBlock_rowAt (n : ℕ) : retainedBlock (rowAt n) = .ok ⟨n, .uniform 3⟩ := by
  simp only [retainedBlock, rowAt, decimalString_text, fromStr_text]

/-- A database with the finalized blocks below a height and no other row. -/
def finalizedBelow (n : ℕ) : Database Unit :=
  ⟨none, (List.range n).map rowAt, [], [], [], [], [], [], [], [], ()⟩

theorem retained_finalizedBelow (n : ℕ) :
    (finalizedBelow n).retained = (List.range n).map rowAt := by
  have hnodup : ((List.range n).map rowAt).Nodup := by
    refine List.Nodup.map (fun a b h => ?_) List.nodup_range
    exact DigitOrder.text_inj.mp (String.ofList_injective (congrArg RetainedText.height h))
  simp only [Database.retained, finalizedBelow, List.map_nil, List.append_nil]
  exact hnodup.dedup

theorem length_finalizedBelow (n : ℕ) : (finalizedBelow n).history.length = n := by
  rw [Database.history, List.length_insertionSort, retained_finalizedBelow, List.length_map,
    List.length_range]

/-- Rows on two pages are agreed upon. -/
theorem finalizedBelow_bound : ∃ es t, BindTrace (bindNetworkWith 514 (.uniform 1))
    ⟨finalizedBelow 513, none⟩ es t (some (.ok ())) := by
  have hlen := length_finalizedBelow 513
  have hblock : ∀ row ∈ (finalizedBelow 513).history,
      retainedBlock row = .ok ⟨(decimalString row.height).getD 0, .uniform 3⟩ := by
    intro row hrow
    rw [mem_history, retained_finalizedBelow] at hrow
    obtain ⟨n, -, rfl⟩ := List.mem_map.mp hrow
    rw [retainedBlock_rowAt, rowAt, decimalString_text]
    rfl
  refine bind_agreed rfl ?_ hblock (by omega) (.uniform 1)
  intro hnil
  rw [hnil] at hlen
  cases hlen

/-- The store is bound after that, and each of the rows was asked for. -/
theorem bind_verifies_all_pages : ∃ es t, BindTrace (bindNetworkWith 514 (.uniform 1))
    ⟨finalizedBelow 513, none⟩ es t (some (.ok ())) ∧ 512 < (finalizedBelow 513).history.length ∧
    t.db = (finalizedBelow 513).bind (BlockHash.uniform 1).text ∧ MayBind es (finalizedBelow 513) := by
  obtain ⟨es, t, run⟩ := finalizedBelow_bound
  obtain ⟨hkept, hdone⟩ := (bind_verifies_all run).2 rfl
  have hdb := hdone rfl
  refine ⟨es, t, run, ?_, hdb, (hkept.resolve_left fun h => ?_).2⟩
  · rw [length_finalizedBelow]
    decide
  · cases congrArg Database.genesis (h.symm.trans hdb)

end NetworkBinding

end Dashboard

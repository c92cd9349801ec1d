/-
The migrations of the store.

The model of `migrate` and `apply` in `dashboard-store/src/migrations.rs`: the ledger is read
and checked in one transaction, and every pending script runs in a transaction of its own
together with its row of the ledger.  Every statement may fail, and a run may be stopped
between any two of them.

* `apply_keeps` — every commit of a run leaves a ledger that names exactly the scripts that
  were applied;
* `apply_rejects` — a ledger that is no prefix of the names is refused before any commit;
* `migrations_apply_once` — **however runs fail or are stopped, each script is applied once and
  in order**, and the last one raises every solution number by one.

What the scripts `0001` to `0010` do to the database is a parameter, statement by statement.
-/
import QuipDashboard.SqlEngine
import QuipDashboard.SubmissionShift

namespace Dashboard

open SqlEngine

/-! ### The ledger -/

/-- `NAMES`. -/
def migrationNames : List String := [
  "0001_initial",
  "0002_telemetry_sort_indexes",
  "0003_protocol_v0_2_sync",
  "0004_reconcile_descriptors_topology_tags",
  "0005_authorship_blocks_difficulty_source",
  "0006_blocks_device_access_time",
  "0007_qblock_participation",
  "0008_rust_writer_state",
  "0009_permanent_unavailable",
  "0010_dedupe_poll_difficulty",
  "0011_chain_numbered_mining_submissions"]

/-- `StoreError` with its variant for the ledger. -/
inductive MigrationError where
  | store (e : StoreError)
  | migrationHistory (message : String)

/-- A database: the table `kysely_migration` of names and timestamps and the table
`kysely_migration_lock`, where they exist, and everything else. -/
structure MigratedDatabase (D : Type) where
  ledger : Option (KeyedTable String String)
  lock : Option (KeyedTable String ℕ)
  content : D

variable {D : Type}

/-- The names of the ledger. -/
def MigratedDatabase.names (d : MigratedDatabase D) : List String :=
  (d.ledger.getD .empty).rows.map Prod.fst

/-- A statement on the tables of the store. -/
def onContent (statement : Statement D) : Statement (MigratedDatabase D) := fun d d' =>
  ∃ c, statement d.content c ∧ d' = { d with content := c }

/-- The two tables of the migrations, and the row of the second one. -/
def createMigrationTables : List (Statement (MigratedDatabase D)) := [
  fun d d' => d' = { d with ledger := some (d.ledger.getD .empty) },
  fun d d' => d' = { d with lock := some (d.lock.getD .empty) },
  fun d d' => ∃ t, d.lock = some t ∧ d' = { d with lock := some (t.insertNew "migration_lock" 0) }]

/-- `SELECT name,timestamp FROM kysely_migration ORDER BY name`, in the database's order of
texts. -/
def ledgerRows (collation : String → String → Prop) (d : MigratedDatabase D)
    (rows : List (String × String)) : Prop :=
  ∃ t, d.ledger = some t ∧ rows.Perm t.rows ∧ rows.Pairwise fun a b => collation a.1 b.1

/-- `INSERT INTO kysely_migration(name,timestamp) VALUES(name,now())`. -/
def recordMigration (name : String) : Statement (MigratedDatabase D) := fun d d' =>
  ∃ t timestamp, d.ledger = some t ∧ t.get? name = none ∧
    d' = { d with ledger := some (t.put name timestamp) }

/-! ### The program -/

/-- The rows of the ledger next to the names that are expected. -/
def checkNames : List (String × String) → List String → Except MigrationError Unit
  | (name, _) :: rows, expected :: names =>
    if name ≠ expected then
      .error (.migrationHistory s!"expected {expected}, found {name}")
    else checkNames rows names
  | _, _ => .ok ()

/-- The checks of `apply`. -/
def checkLedger (rows : List (String × String)) : Except MigrationError Unit :=
  if migrationNames.length < rows.length then .error (.migrationHistory "unknown migrations")
  else checkNames rows migrationNames

/-- A migration on its connection. -/
abbrev Migration (D : Type) := Client (MigratedDatabase D) StoreError MigrationError

/-- One statement of a migration, awaited. -/
def sql {β : Type} (e : Sql (MigratedDatabase D) StoreError (Except StoreError β)) :
    Migration D β := Program.awaitOk .store e

/-- The loop of `apply` over the pending scripts. -/
def applyPending : List (String × List (Statement D)) → Migration D Unit
  | [] => pure ()
  | (name, script) :: rest => do
    sql .start
    sql (.batch (script.map onContent))
    sql (.batch [recordMigration name])
    sql .commit
    applyPending rest

/-- `apply`. -/
def applyMigrations (collation : String → String → Prop) (scripts : List (List (Statement D))) :
    Migration D Unit := do
  sql .start
  sql (.batch createMigrationTables)
  let rows ← sql (.query (ledgerRows collation))
  Program.ofExcept (checkLedger rows)
  sql .commit
  applyPending ((migrationNames.zip scripts).drop rows.length)

/-- `SELECT pg_advisory_lock(…)` and `SELECT pg_advisory_unlock(…)`: nothing to the database. -/
def advisory (pg : Bool) : Migration D Unit := if pg then sql (.batch []) else pure ()

/-- `ROLLBACK` after an error. -/
def rollbackFailed : Except MigrationError Unit → Migration D Unit
  | .ok () => pure ()
  | .error _ => sql .rollback

/-- `migrate`. -/
def migrate (pg : Bool) (collation : String → String → Prop) (scripts : List (List (Statement D))) :
    Migration D Unit := do
  advisory pg
  let result ← (applyMigrations collation scripts).attempt
  rollbackFailed result
  advisory pg
  Program.ofExcept result

/-! ### The ledger and its checks -/

theorem checkNames_ok {rows : List (String × String)} {names : List String}
    (h : checkNames rows names = .ok ()) (hlen : rows.length ≤ names.length) :
    rows.map Prod.fst = names.take rows.length := by
  induction rows generalizing names with
  | nil => rfl
  | cons row rows ih =>
    cases names with
    | nil => exact absurd hlen (Nat.not_succ_le_zero _)
    | cons expected names =>
      obtain ⟨name, timestamp⟩ := row
      rw [checkNames] at h
      split at h
      · cases h
      · next hname =>
        rw [List.map_cons, List.length_cons, List.take_succ_cons, ← ih h (Nat.le_of_succ_le_succ hlen),
          not_not.mp hname]

/-- A ledger that passes the checks names the first migrations. -/
theorem checkLedger_ok {rows : List (String × String)} (h : checkLedger rows = .ok ()) :
    rows.length ≤ migrationNames.length ∧
      rows.map Prod.fst = migrationNames.take rows.length := by
  unfold checkLedger at h
  split at h
  · cases h
  · next hlen =>
    have hle := Nat.le_of_not_lt hlen
    exact ⟨hle, checkNames_ok h hle⟩

/-- The tables of the migrations are created with the names that there are, and the rest is
left alone. -/
theorem createMigrationTables_steps {d d' : MigratedDatabase D}
    (h : Steps createMigrationTables d d') : d'.names = d.names ∧ d'.content = d.content := by
  cases h with
  | cons h₁ h =>
    cases h with
    | cons h₂ h =>
      obtain ⟨t, -, rfl⟩ := h.of_singleton
      subst h₂
      subst h₁
      exact ⟨rfl, rfl⟩

/-- The rows of the ledger have its names. -/
theorem ledgerRows_names {collation : String → String → Prop} {d : MigratedDatabase D}
    {rows : List (String × String)} (h : ledgerRows collation d rows) :
    d.ledger.isSome ∧ (rows.map Prod.fst).Perm d.names := by
  obtain ⟨t, ht, hperm, -⟩ := h
  rw [MigratedDatabase.names, ht]
  exact ⟨rfl, hperm.map _⟩

/-- Statements on the tables of the store leave the ledger alone. -/
theorem onContent_steps {script : List (Statement D)} {d d' : MigratedDatabase D}
    (h : Steps (script.map onContent) d d') :
    d'.ledger = d.ledger ∧ Steps script d.content d'.content := by
  induction script generalizing d with
  | nil =>
    cases h
    exact ⟨rfl, .nil _⟩
  | cons statement script ih =>
    cases h with
    | cons hs hrest =>
      obtain ⟨c, hc, rfl⟩ := hs
      obtain ⟨hledger, hsteps⟩ := ih hrest
      exact ⟨hledger, .cons hc hsteps⟩

/-- A migration that is recorded is the last name of the ledger. -/
theorem recordMigration_names {name : String} {d d' : MigratedDatabase D}
    (h : recordMigration name d d') : d'.names = d.names ++ [name] ∧ d'.content = d.content := by
  obtain ⟨t, timestamp, ht, hnew, rfl⟩ := h
  refine ⟨?_, rfl⟩
  rw [MigratedDatabase.names, MigratedDatabase.names, ht]
  show (t.put name timestamp).rows.map Prod.fst = t.rows.map Prod.fst ++ [name]
  rw [KeyedTable.put_rows, hnew, Option.isSome_none, if_neg Bool.false_ne_true, List.map_append]
  rfl

/-! ### What a run keeps -/

/-- The ledger names the first `k` migrations, and since the first `k₀` of them exactly the
others were applied, in their order. -/
def MigratedDatabase.AppliedTo (scripts : List (List (Statement D))) (k₀ : ℕ) (c₀ : D) (k : ℕ)
    (d : MigratedDatabase D) : Prop :=
  k₀ ≤ k ∧ k ≤ migrationNames.length ∧ d.names.Perm (migrationNames.take k) ∧
    Steps (((scripts.take k).drop k₀).map Steps) c₀ d.content

variable {scripts : List (List (Statement D))} {k₀ k : ℕ} {c₀ : D} {d : MigratedDatabase D}

/-- One script and its row of the ledger. -/
theorem MigratedDatabase.AppliedTo.next (h : d.AppliedTo scripts k₀ c₀ k) {name : String}
    {script : List (Statement D)} (hname : migrationNames[k]? = some name)
    (hscript : scripts[k]? = some script) {d₁ d₂ : MigratedDatabase D}
    (h₁ : Steps (script.map onContent) d d₁) (h₂ : recordMigration name d₁ d₂) :
    d₂.AppliedTo scripts k₀ c₀ (k + 1) := by
  obtain ⟨hle, hlen, hnames, hsteps⟩ := h
  obtain ⟨hledger, hcontent⟩ := onContent_steps h₁
  obtain ⟨hnames₂, hcontent₂⟩ := recordMigration_names h₂
  obtain ⟨hk, -⟩ := List.getElem?_eq_some_iff.mp hname
  refine ⟨Nat.le_succ_of_le hle, hk, ?_, ?_⟩
  · rw [hnames₂, List.take_add_one, hname, MigratedDatabase.names, hledger]
    exact hnames.append_right _
  · have hlength : k₀ ≤ (scripts.take k).length := by
      have := (List.getElem?_eq_some_iff.mp hscript).1
      rw [List.length_take]
      omega
    rw [List.take_add_one, hscript, List.drop_append_of_le_length hlength, List.map_append,
      hcontent₂]
    exact hsteps.append (.singleton hcontent)

/-- What every commit of a run leaves. -/
def MigratedDatabase.Migrated (scripts : List (List (Statement D))) (k₀ : ℕ) (c₀ : D)
    (d : MigratedDatabase D) : Prop := ∃ k, d.AppliedTo scripts k₀ c₀ k

/-- A run that returned has applied everything. -/
def Complete (_ : Unit) (s : Engine (MigratedDatabase D)) : Prop :=
  s.committed.names.Perm migrationNames

theorem applyPending_keeps (hscripts : scripts.length = migrationNames.length)
    (hd : d.AppliedTo scripts k₀ c₀ k) :
    Keeps (MigratedDatabase.Migrated scripts k₀ c₀) Complete
      (applyPending ((migrationNames.zip scripts).drop k)) ⟨d, none⟩ := by
  generalize hpending : (migrationNames.zip scripts).drop k = pending
  induction pending generalizing k d with
  | nil =>
    refine Keeps.pure ⟨k, hd⟩ ?_
    have hlen : migrationNames.length ≤ k := by
      have := List.drop_eq_nil_iff.mp hpending
      rwa [List.length_zip, hscripts, min_self] at this
    have := hd.2.2.1
    rwa [List.take_of_length_le hlen] at this
  | cons e rest ih =>
    obtain ⟨name, script⟩ := e
    have hget : (migrationNames.zip scripts)[k]? = some (name, script) := by
      rw [← List.head?_drop, hpending]
      rfl
    obtain ⟨hname, hscript⟩ := List.getElem?_zip_eq_some.mp hget
    refine Keeps.start ⟨k, hd⟩ (Keeps.batch ⟨k, hd⟩ fun d₁ h₁ => Keeps.batch ⟨k, hd⟩ fun d₂ h₂ => ?_)
    have hnext := hd.next hname hscript h₁ h₂.of_singleton
    refine Keeps.commit ⟨k, hd⟩ ⟨k + 1, hnext⟩ (ih hnext ?_)
    rw [← List.tail_drop, hpending]
    rfl

theorem apply_keeps {collation : String → String → Prop}
    (hscripts : scripts.length = migrationNames.length)
    (hd : d.Migrated scripts k₀ c₀) :
    Keeps (MigratedDatabase.Migrated scripts k₀ c₀) Complete (applyMigrations collation scripts)
      ⟨d, none⟩ := by
  refine Keeps.start hd (Keeps.batch hd fun d₁ h₁ => Keeps.query hd fun rows hrows => ?_)
  obtain ⟨hnames, hcontent⟩ := createMigrationTables_steps h₁
  obtain ⟨-, hperm⟩ := ledgerRows_names hrows
  refine Program.Safe.ofExcept (fun _ hcheck => ?_) fun e _ => ⟨hd, fun _ h => by cases h⟩
  obtain ⟨hlen, hprefix⟩ := checkLedger_ok hcheck
  obtain ⟨k, hle, hk, hnames₀, hsteps⟩ := hd
  have hd₁ : d₁.AppliedTo scripts k₀ c₀ k := ⟨hle, hk, hnames ▸ hnames₀, hcontent ▸ hsteps⟩
  have hrowsLen : rows.length = k := by
    have := (hperm.trans hd₁.2.2.1).length_eq
    rwa [List.length_map, List.length_take, min_eq_left hk] at this
  rw [hrowsLen]
  exact Keeps.commit ⟨k, hle, hk, hnames₀, hsteps⟩ ⟨k, hd₁⟩ (applyPending_keeps hscripts hd₁)

/-- A ledger that is no prefix of the names. -/
def MigratedDatabase.Foreign (d : MigratedDatabase D) : Prop :=
  ∀ k, ¬d.names.Perm (migrationNames.take k)

/-- **A ledger that is no prefix of the names is refused before any commit.** -/
theorem apply_rejects {collation : String → String → Prop} (hd : d.Foreign) :
    Keeps (· = d) (fun _ _ => False) (applyMigrations collation scripts) ⟨d, none⟩ := by
  refine Keeps.start rfl (Keeps.batch rfl fun d₁ h₁ => Keeps.query rfl fun rows hrows => ?_)
  obtain ⟨hnames, -⟩ := createMigrationTables_steps h₁
  obtain ⟨-, hperm⟩ := ledgerRows_names hrows
  refine Program.Safe.ofExcept (fun _ hcheck => ?_) fun e _ => ⟨rfl, fun _ h => by cases h⟩
  obtain ⟨-, hprefix⟩ := checkLedger_ok hcheck
  refine absurd ?_ (hd rows.length)
  rw [← hnames, ← hprefix]
  exact hperm.symm

theorem advisory_keeps {I : MigratedDatabase D → Prop} {F : Unit → Engine (MigratedDatabase D) → Prop}
    {pg : Bool} {s : Engine (MigratedDatabase D)} {f : Unit → Migration D Unit}
    (hI : I s.committed) (hf : Keeps I F (f ()) s) : Keeps I F (advisory pg >>= f) s := by
  cases pg with
  | false => exact hf
  | true => exact Keeps.nothing hI hf

/-- What `apply` keeps is kept by `migrate`, and what it promises is promised. -/
theorem migrate_keeps {I P : MigratedDatabase D → Prop} {pg : Bool}
    {collation : String → String → Prop} {c : MigratedDatabase D} (hc : I c)
    (h : Keeps I (fun _ s => P s.committed) (applyMigrations collation scripts) ⟨c, none⟩) :
    Keeps I (fun _ s => P s.committed) (migrate pg collation scripts) ⟨c, none⟩ := by
  refine advisory_keeps hc ?_
  refine Keeps.bind (G := fun r s => r = .ok () → P s.committed)
    (Keeps.attempt (h.imp fun _ _ _ hP _ => hP) fun e s _ he => by cases he)
    fun result s hI hresult => ?_
  cases result with
  | ok _ => exact advisory_keeps hI (Keeps.pure hI (hresult rfl))
  | error e => exact Keeps.rollback hI (advisory_keeps hI (Keeps.fail hI))

/-! ### All runs -/

/-- The tables of a backend: the mining submissions, and the others. -/
structure StoreTables (N R ρ : Type) where
  submissions : SubmissionTable N R
  rest : ρ

variable {N R ρ : Type} [DecidableEq N]

/-- `UPDATE mining_submissions SET solution_number=f(solution_number)`. -/
def renumber (f : N → N) : Statement (StoreTables N R ρ) := fun d d' =>
  ∃ t, d.submissions.UpdatesKeys (Prod.map id f) t ∧ d' = { d with submissions := t }

/-- `0011_chain_numbered_mining_submissions`. -/
def chainNumbered (shift : ShiftScript N) : List (Statement (StoreTables N R ρ)) :=
  [renumber shift.first, renumber shift.second]

/-- The scripts of a backend, in the order of their names. -/
def migrationScripts (earlier : Fin 10 → List (Statement (StoreTables N R ρ)))
    (shift : ShiftScript N) : List (List (Statement (StoreTables N R ρ))) :=
  List.ofFn earlier ++ [chainNumbered shift]

/-- What the migrations of a backend promise. -/
structure MigratesOnce (R ρ : Type) (pg : Bool) (collation : String → String → Prop)
    (shift : ShiftScript N) : Prop where
  /-- Whenever the first `k₀` scripts have been applied, then at all times in all later runs the
  ledger is a prefix, and exactly its other scripts have been applied, once and in order. -/
  applied : ∀ (earlier : Fin 10 → List (Statement (StoreTables N R ρ))) d k₀,
    k₀ ≤ migrationNames.length → d.names.Perm (migrationNames.take k₀) →
    ∀ s, ClientRuns (migrate pg collation (migrationScripts earlier shift)) d s →
      s.committed.Migrated (migrationScripts earlier shift) k₀ d.content
  /-- A run that returns has applied all of them. -/
  complete : ∀ (earlier : Fin 10 → List (Statement (StoreTables N R ρ))) d k₀,
    k₀ ≤ migrationNames.length → d.names.Perm (migrationNames.take k₀) →
    ∀ es t, Trace Engine.Answers (migrate pg collation (migrationScripts earlier shift)) ⟨d, none⟩
      es t (some (.ok ())) → t.committed.names.Perm migrationNames
  /-- A ledger that is no prefix is rejected, and nothing is changed. -/
  rejected : ∀ (earlier : Fin 10 → List (Statement (StoreTables N R ρ))) d, d.Foreign →
    ∀ s, ClientRuns (migrate pg collation (migrationScripts earlier shift)) d s →
      s.committed = d ∧ ∀ es t r,
        Trace Engine.Answers (migrate pg collation (migrationScripts earlier shift)) s.abort es t
          (some r) → ∃ e, r = .error e
  /-- The last script passes the unique constraint in every order of the rows. -/
  passes : ∀ (t : SubmissionTable N R) l, t.rows = shift.rows l → (∀ e ∈ l, e.1.2 ≤ 2 ^ 53 - 1) →
    ∀ order : List (String × N), order.Perm (t.rows.map Prod.fst) →
      ∃ t₁, t.updateKeys (Prod.map id shift.first) order = some t₁ ∧
        ∀ order₁ : List (String × N), order₁.Perm (t₁.rows.map Prod.fst) →
          ∃ t₂, t₁.updateKeys (Prod.map id shift.second) order₁ = some t₂
  /-- It raises the solution number of every row by one, and changes nothing else. -/
  raises : ∀ (d d' : StoreTables N R ρ) l, d.submissions.rows = shift.rows l →
    (∀ e ∈ l, e.1.2 ≤ 2 ^ 53 - 1) → Steps (chainNumbered shift) d d' →
      d'.submissions.rows = shift.rows (renumbered l) ∧ d'.rest = d.rest

theorem migratesOnce {pg : Bool} {collation : String → String → Prop} {shift : ShiftScript N}
    (hshift : shift.Exact (2 ^ 53 - 1)) : MigratesOnce R ρ pg collation shift := by
  have hlength : ∀ earlier : Fin 10 → List (Statement (StoreTables N R ρ)),
      (migrationScripts earlier shift).length = migrationNames.length := by
    intro earlier
    rw [migrationScripts, List.length_append, List.length_ofFn]
    rfl
  have hkeeps : ∀ (earlier : Fin 10 → List (Statement (StoreTables N R ρ))) k₀ c₀ c,
      MigratedDatabase.Migrated (migrationScripts earlier shift) k₀ c₀ c →
      Keeps (MigratedDatabase.Migrated (migrationScripts earlier shift) k₀ c₀)
        (fun _ s => s.committed.names.Perm migrationNames)
        (migrate pg collation (migrationScripts earlier shift)) ⟨c, none⟩ :=
    fun earlier k₀ c₀ c hc => migrate_keeps (P := fun d => d.names.Perm migrationNames) hc
      (apply_keeps (hlength earlier) hc)
  have hstart : ∀ (earlier : Fin 10 → List (Statement (StoreTables N R ρ)))
      (d : MigratedDatabase (StoreTables N R ρ)) k₀, k₀ ≤ migrationNames.length →
      d.names.Perm (migrationNames.take k₀) →
      d.Migrated (migrationScripts earlier shift) k₀ d.content := by
    intro earlier d k₀ hk₀ hnames
    refine ⟨k₀, Nat.le_refl k₀, hk₀, hnames, ?_⟩
    rw [List.drop_take, Nat.sub_self, List.take_zero]
    exact .nil _
  refine ⟨fun earlier d k₀ hk₀ hnames s hrun => ?_, fun earlier d k₀ hk₀ hnames es t htrace => ?_,
    fun earlier d hd s hrun => ?_, fun t l ht hl order horder => ?_,
    fun d d' l ht hl hsteps => ?_⟩
  -- the five parts: runs, traces, foreign names, the order of the rows, the new numbers
  · exact hrun.invariant (hstart earlier d k₀ hk₀ hnames) (hkeeps earlier k₀ d.content)
  · have hd := hstart earlier d k₀ hk₀ hnames
    exact ((hkeeps earlier k₀ d.content d hd).trace hd htrace).2 () rfl
  · have hrejects : ∀ c, c = d → Keeps (· = d) (fun _ _ => False)
        (migrate pg collation (migrationScripts earlier shift)) ⟨c, none⟩ := by
      rintro c rfl
      exact migrate_keeps (P := fun _ => False) rfl (apply_rejects hd)
    have hs : s.committed = d := hrun.invariant (I := (· = d)) rfl hrejects
    refine ⟨hs, fun es t r htrace => ?_⟩
    have hnever := ((hrejects s.committed hs).trace hs htrace).2
    cases r with
    | ok _ => exact (hnever () rfl).elim
    | error e => exact ⟨e, rfl⟩
  · obtain ⟨t₁, ht₁, hsecond⟩ := hshift.shift ht hl horder
    refine ⟨t₁, ht₁, fun order₁ horder₁ => ?_⟩
    obtain ⟨t₂, ht₂, -⟩ := hsecond order₁ horder₁
    exact ⟨t₂, ht₂⟩
  · cases hsteps with
    | cons h₁ h₂ =>
      obtain ⟨t₁, ⟨order, horder, ht₁⟩, rfl⟩ := h₁
      obtain ⟨t₂, ⟨order₁, horder₁, ht₂⟩, rfl⟩ := h₂.of_singleton
      obtain ⟨t₁', ht₁', hsecond⟩ := hshift.shift ht hl horder
      obtain rfl := Option.some.inj (ht₁.symm.trans ht₁')
      obtain ⟨t₂', ht₂', hrows⟩ := hsecond order₁ horder₁
      obtain rfl := Option.some.inj (ht₂.symm.trans ht₂')
      exact ⟨hrows, rfl⟩

/-- **Migrations apply exactly once.**  On Postgres and on Turso, however runs of `migrate` fail
or are stopped between two statements: the ledger is a prefix of the names at all times, and
exactly its scripts have been applied, each once and in order; another ledger is rejected and
nothing is changed; and the last script raises every solution number up to `2^53 - 1` by one. -/
theorem migrations_apply_once {c : TursoCasts} (hc : c.Exact) (R ρ : Type)
    (collation : String → String → Prop) :
    MigratesOnce R ρ true collation postgresShift ∧
      MigratesOnce R ρ false collation (tursoShift c) :=
  ⟨migratesOnce (postgresShift_exact _), migratesOnce (tursoShift_exact hc (by decide))⟩

/-- An empty database of Turso, whose first run is stopped before the second `COMMIT`, and two
submissions with neighbouring numbers. -/
theorem migrations_apply_once_stopped :
    (∃ s : Engine (MigratedDatabase (StoreTables (List Char) Unit Unit)),
      ClientRuns (migrate false (· ≤ ·) (migrationScripts (fun _ => [])
        (tursoShift ⟨fun t => DigitOrder.value t, fun _ => []⟩))) ⟨none, none, ⟨.empty, ()⟩⟩ s ∧
      s.committed.names = [] ∧ s.working.isSome ∧
      s.committed.Migrated (migrationScripts (fun _ => [])
        (tursoShift ⟨fun t => DigitOrder.value t, fun _ => []⟩)) 0 ⟨.empty, ()⟩) ∧
    ∀ d d' : StoreTables (List Char) Unit Unit,
      d.submissions.rows = [(("alice", ['9']), ()), (("alice", ['1', '0']), ())] →
      Steps (chainNumbered (tursoShift ⟨fun t => DigitOrder.value t, fun _ => []⟩)) d d' →
      d'.submissions.rows = [(("alice", ['1', '0']), ()), (("alice", ['1', '1']), ())] := by
  have hc : TursoCasts.Exact ⟨fun t => DigitOrder.value t, fun _ => []⟩ :=
    fun n _ => congrArg Int.ofNat (DigitOrder.value_text n)
  obtain ⟨-, hturso⟩ := migrations_apply_once hc Unit Unit (· ≤ ·)
  refine ⟨?_, fun d d' hrows hsteps => ?_⟩
  · have run : ClientRuns (migrate false (· ≤ ·) (migrationScripts (fun _ => [])
        (tursoShift ⟨fun t => DigitOrder.value t, fun _ => []⟩)))
        (⟨none, none, ⟨.empty, ()⟩⟩ : MigratedDatabase (StoreTables (List Char) Unit Unit)) _ :=
      .run .start <| .step (Engine.answers_start rfl) <|
        .step (Engine.answers_batch (.cons rfl (.cons rfl (.singleton ⟨_, rfl, rfl⟩)))) <|
        .step (Engine.answers_query ⟨_, rfl, .refl _, .nil⟩) <|
        .step (Engine.answers_commit rfl) <| .step (Engine.answers_start rfl) <|
        .step (Engine.answers_batch (.nil _)) <| .stopped _ _
    exact ⟨_, run, rfl, rfl, hturso.applied _ _ 0 (Nat.zero_le _) (.refl _) _ run⟩
  · refine (hturso.raises d d' [(("alice", 9), ()), (("alice", 10), ())] hrows ?_ hsteps).1
    decide

end Dashboard

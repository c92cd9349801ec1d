/-
Registry counters that do not regress.

Reconciliation passes and refreshes interleave at every await; a pass is any number of pages
long, and each of them may fail or be cancelled anywhere.  The lock is taken before the
finalized head is asked for, so all that was written before was read at a height that the
new head has reached.

* `RegistryAnswers` — what an effect answers and does: the finalized heads do not go back, a
  read answers from its own block, and the store does what it does;
* `writeMiners_keeps` — one call of `upsert_chain_miners`, row by row;
* `RegistryState.Pinned.step` — what one effect of the holder of the lock keeps;
* `registry_never_regresses` — **the height at which a stored row was read never decreases,
  and neither does that of the snapshots from which a descriptor is offered**.
-/
import QuipDashboard.Registry

namespace Dashboard

/-! ### The state -/

/-- The tables that the registry functions write. -/
structure RegistryTables where
  api : ApiStore
  nodeDescriptors : KeyedTable String NodeDescriptorRow
  /-- `meta`: `descriptor_checkpoint`. -/
  descriptorCheckpoint : Option ℕ

/-- By account, the record that its row was last written from. -/
abbrev Written := String → Option (ReadAt ChainMinerRecord)

/-- The tables, and what their contents go back to. -/
structure RegistryState where
  tables : RegistryTables
  /-- The height of the finalized head that the node answered last. -/
  finalized : ℕ
  written : Written
  /-- By account, the block at which the descriptor was read that was offered last. -/
  offered : String → Option ChainHash

/-- The state before any of the functions ran. -/
def RegistryState.start (tables : RegistryTables) (finalized : ℕ) : RegistryState :=
  ⟨tables, finalized, fun _ => none, fun _ => none⟩

/-- One row of `upsert_chain_miners`, which writes it where it differs. -/
def writeMiner (updatedAt : ℤ) (p : KeyedTable String ChainMinerRow × Written)
    (m : ReadAt ChainMinerRecord) : KeyedTable String ChainMinerRow × Written :=
  let r := p.1.upsertWhere m.value.accountId (m.value.row updatedAt) ChainMinerRow.differs
  (r.2, if r.1 = 0 then p.2 else Function.update p.2 m.value.accountId (some m))

/-- `upsert_chain_miners`. -/
def RegistryState.upsertChainMiners (now : Timestamp) (records : List (ReadAt ChainMinerRecord))
    (s : RegistryState) : Except StoreError Unit × RegistryState :=
  match Dashboard.upsertChainMiners now (records.map ReadAt.value) s.tables.api,
    storeTimestamp now with
  | (.ok (), api), .ok updatedAt => (.ok (), { s with
      tables := { s.tables with api := api }
      written := (records.foldl (writeMiner updatedAt) (s.tables.api.chainMiners, s.written)).2 })
  | (result, _), _ => (result, s)

/-- A descriptor is offered, whatever the store makes of it. -/
def RegistryState.offer (record : ReadAt NodeDescriptorRecord) (s : RegistryState) :
    RegistryState :=
  { s with offered := Function.update s.offered record.value.accountId (some record.at_) }

/-- `upsert_node_descriptor`. -/
def RegistryState.upsertNodeDescriptor (c : TextCast) (record : ReadAt NodeDescriptorRecord)
    (s : RegistryState) : Except StoreError Unit × RegistryState :=
  let r := Dashboard.upsertNodeDescriptor c record.value
    ⟨s.tables.api.store, s.tables.nodeDescriptors⟩
  (r.1, { s.offer record with
    tables := { s.tables with nodeDescriptors := r.2.nodeDescriptors } })

/-- `set_descriptor_checkpoint`, by `set_monotonic`. -/
def RegistryState.setDescriptorCheckpoint (number : ℕ) (s : RegistryState) :
    Except StoreError Unit × RegistryState :=
  match s.tables.api.store.requireBound with
  | .error e => (.error e, s)
  | .ok _ => (.ok (), { s with tables := { s.tables with
      descriptorCheckpoint := some (s.tables.descriptorCheckpoint.elim number (max number)) } })

/-! ### Effects and tasks -/

section

variable {V : Type} {heightOf : ChainHash → ℕ} {c : TextCast}

/-- What an effect may answer, and what it makes of the state; a call of the store may also
fail. -/
def RegistryAnswers (heightOf : ChainHash → ℕ) (c : TextCast) :
    {γ : Type} → RegistryState → RegistryAwait V γ → γ → RegistryState → Prop
  | _, s, .finalizedHead, answer, s' =>
    (∃ e, answer = .error e ∧ s' = s) ∨ ∃ at_, answer = .ok at_ ∧ s.finalized ≤ heightOf at_ ∧
      s' = { s with finalized := heightOf at_ }
  | _, s, .upsertChainMiners records, answer, s' =>
    (∃ e, answer = .error e ∧ s' = s) ∨ ∃ now, s.upsertChainMiners now records = (answer, s')
  | _, s, .upsertNodeDescriptor record, answer, s' =>
    (∃ e, answer = .error e ∧ s' = s.offer record) ∨
      s.upsertNodeDescriptor c record = (answer, s')
  | _, s, .setDescriptorCheckpoint number, answer, s' =>
    (∃ e, answer = .error e ∧ s' = s) ∨ s.setDescriptorCheckpoint number = (answer, s')
  | _, s, e, answer, s' => ReadThere e answer ∧ s' = s

/-- What all others may do: only the registry functions write miners and offer descriptors,
and a finalized head that others are answered does not go back either. -/
structure RegistryState.Elsewhere (s s' : RegistryState) : Prop where
  finalized : s.finalized ≤ s'.finalized
  chainMiners : s'.tables.api.chainMiners = s.tables.api.chainMiners
  written : s'.written = s.written
  offered : s'.offered = s.offered

/-- What is started. -/
inductive RegistryTask where
  /-- `registry_snapshot`, of at most `rounds` pages of each map. -/
  | snapshot (rounds : ℕ)
  /-- `refresh_changes`. -/
  | refresh (events : RegistryEvents)

def RegistryTask.code (reader : RegistryReader V) :
    RegistryTask → Program (Locking (RegistryAwait V)) IndexerError Unit
  | .snapshot rounds => registrySnapshot reader rounds
  | .refresh events => refreshChanges reader events

/-- Any number of passes and refreshes, with everything else that happens. -/
def RegistryRun (reader : RegistryReader V) (heightOf : ChainHash → ℕ) (c : TextCast) :
    LockPool (RegistryAwait V) IndexerError RegistryState RegistryTask →
      List (PoolEvent (Locking (RegistryAwait V)) RegistryState RegistryTask Unit) →
      LockPool (RegistryAwait V) IndexerError RegistryState RegistryTask → Prop :=
  LockRun (RegistryAnswers heightOf c) (fun _ _ => True) (RegistryTask.code reader)
    fun s _ s' => s.Elsewhere s'

/-! ### One write of the miners -/

/-- The rows of a table go back to what `written` says, and to `t₀` where it says nothing. -/
structure Traced (t₀ t : KeyedTable String ChainMinerRow) (written : Written) : Prop where
  unwritten : ∀ account, written account = none → t.get? account = t₀.get? account
  row : ∀ account m, written account = some m →
    ∃ updatedAt, t.get? account = some (m.value.row updatedAt)

/-- A row is written, or everything stays as it is. -/
theorem writeMiner_cases (updatedAt : ℤ) (p : KeyedTable String ChainMinerRow × Written)
    (m : ReadAt ChainMinerRecord) : writeMiner updatedAt p m = p ∨
      (writeMiner updatedAt p m).2 = Function.update p.2 m.value.accountId (some m) ∧
      (writeMiner updatedAt p m).1.get? m.value.accountId = some (m.value.row updatedAt) ∧
      ∀ account, account ≠ m.value.accountId →
        (writeMiner updatedAt p m).1.get? account = p.1.get? account := by
  unfold writeMiner
  by_cases hzero : (p.1.upsertWhere m.value.accountId (m.value.row updatedAt)
      ChainMinerRow.differs).1 = 0
  · refine .inl (Prod.ext ?_ (if_pos hzero))
    exact KeyedTable.upsert_zero hzero
  · refine .inr ⟨if_neg hzero, ?_, fun account hne => KeyedTable.get?_upsert_ne hne⟩
    rcases KeyedTable.get?_upsertWhere_self p.1 m.value.accountId (m.value.row updatedAt)
      ChainMinerRow.differs with ⟨-, hget⟩ | ⟨old, hold, hsame, -⟩
    · exact hget
    · -- a stored row that does not differ is not written
      refine absurd ?_ hzero
      have hnone : (if old.differs (m.value.row updatedAt) then some (m.value.row updatedAt)
          else none) = none := if_neg (by rw [hsame]; exact Bool.false_ne_true)
      rw [KeyedTable.upsertWhere, KeyedTable.upsert_of_update_none hold hnone]

/-- The rows are those of `upsert_chain_miners`. -/
theorem writeMiners_rows (updatedAt : ℤ) (records : List (ReadAt ChainMinerRecord))
    (p : KeyedTable String ChainMinerRow × Written) :
    (records.foldl (writeMiner updatedAt) p).1 =
      putMiners p.1 updatedAt (records.map ReadAt.value) := by
  induction records generalizing p with
  | nil => rfl
  | cons m records ih =>
    rw [List.foldl_cons, ih]
    rfl

theorem Traced.writeMiner {t₀ : KeyedTable String ChainMinerRow} {updatedAt : ℤ}
    {p : KeyedTable String ChainMinerRow × Written} (h : Traced t₀ p.1 p.2)
    (m : ReadAt ChainMinerRecord) :
    Traced t₀ (writeMiner updatedAt p m).1 (writeMiner updatedAt p m).2 := by
  rcases writeMiner_cases updatedAt p m with hsame | ⟨hwritten, hself, hother⟩
  · rw [hsame]
    exact h
  · rw [hwritten]
    refine ⟨fun account hnone => ?_, fun account m' hm' => ?_⟩
    · have hne : account ≠ m.value.accountId := by
        rintro rfl
        rw [Function.update_self] at hnone
        cases hnone
      rw [Function.update_of_ne hne] at hnone
      rw [hother account hne]
      exact h.unwritten account hnone
    · by_cases hacc : account = m.value.accountId
      · subst hacc
        rw [Function.update_self] at hm'
        cases hm'
        exact ⟨updatedAt, hself⟩
      · rw [Function.update_of_ne hacc] at hm'
        rw [hother account hacc]
        exact h.row account m' hm'

/-- **The rows of one call are traced to its records**, those that it leaves to earlier
ones. -/
theorem writeMiners_keeps {t₀ : KeyedTable String ChainMinerRow} {updatedAt : ℤ} {at_ : ChainHash}
    {records : List (ReadAt ChainMinerRecord)} (hat : ∀ m ∈ records, m.at_ = at_)
    {p : KeyedTable String ChainMinerRow × Written} (h : Traced t₀ p.1 p.2) :
    Traced t₀ (records.foldl (writeMiner updatedAt) p).1
        (records.foldl (writeMiner updatedAt) p).2 ∧
      ∀ account, (records.foldl (writeMiner updatedAt) p).2 account = p.2 account ∨
        ∃ m, (records.foldl (writeMiner updatedAt) p).2 account = some m ∧ m.at_ = at_ := by
  induction records generalizing p with
  | nil => exact ⟨h, fun account => .inl rfl⟩
  | cons m records ih =>
    obtain ⟨htraced, hlast⟩ := ih (fun m' hm' => hat m' (List.mem_cons_of_mem m hm'))
      (h.writeMiner m)
    refine ⟨htraced, fun account => ?_⟩
    rw [List.foldl_cons]
    rcases hlast account with hkept | hnew
    · rw [hkept]
      rcases writeMiner_cases updatedAt p m with hsame | ⟨hwritten, -, -⟩
      · exact .inl (by rw [hsame])
      · rw [hwritten]
        by_cases hacc : account = m.value.accountId
        · subst hacc
          rw [Function.update_self]
          exact .inr ⟨m, rfl, hat m List.mem_cons_self⟩
        · exact .inl (Function.update_of_ne hacc _ _)
    · exact .inr hnew

/-! ### What the lock protects -/

/-- Nothing is written or offered from above a height that the finalized heads reached. -/
structure RegistryState.Pinned (heightOf : ChainHash → ℕ)
    (t₀ : KeyedTable String ChainMinerRow) (n : ℕ) (s : RegistryState) : Prop where
  traced : Traced t₀ s.tables.api.chainMiners s.written
  written : ∀ account m, s.written account = some m → heightOf m.at_ ≤ n
  offered : ∀ account at_, s.offered account = some at_ → heightOf at_ ≤ n
  reached : n ≤ s.finalized

/-- The heights that rows were read at and that descriptors are offered from do not
decrease. -/
structure RegistryState.NoRegress (heightOf : ChainHash → ℕ) (s s' : RegistryState) : Prop where
  written : ∀ account m, s.written account = some m →
    ∃ m', s'.written account = some m' ∧ heightOf m.at_ ≤ heightOf m'.at_
  offered : ∀ account at_, s.offered account = some at_ →
    ∃ at', s'.offered account = some at' ∧ heightOf at_ ≤ heightOf at'

namespace RegistryState

variable {t₀ : KeyedTable String ChainMinerRow} {n : ℕ} {s s' s'' : RegistryState}
  {at_ : ChainHash}

theorem Elsewhere.refl (s : RegistryState) : s.Elsewhere s := ⟨le_rfl, rfl, rfl, rfl⟩

theorem Elsewhere.trans (h : s.Elsewhere s') (h' : s'.Elsewhere s'') : s.Elsewhere s'' :=
  ⟨le_trans h.finalized h'.finalized, h'.chainMiners.trans h.chainMiners,
    h'.written.trans h.written, h'.offered.trans h.offered⟩

theorem NoRegress.of_eq (hwritten : s'.written = s.written) (hoffered : s'.offered = s.offered) :
    s.NoRegress heightOf s' :=
  ⟨fun account m hm => ⟨m, by rw [hwritten, hm], le_rfl⟩,
    fun account at_ hat => ⟨at_, by rw [hoffered, hat], le_rfl⟩⟩

theorem NoRegress.refl (s : RegistryState) : s.NoRegress heightOf s := .of_eq rfl rfl

theorem NoRegress.trans (h : s.NoRegress heightOf s') (h' : s'.NoRegress heightOf s'') :
    s.NoRegress heightOf s'' := by
  refine ⟨fun account m hm => ?_, fun account at_ hat => ?_⟩
  · obtain ⟨m', hm', hle⟩ := h.written account m hm
    obtain ⟨m'', hm'', hle'⟩ := h'.written account m' hm'
    exact ⟨m'', hm'', le_trans hle hle'⟩
  · obtain ⟨at', hat', hle⟩ := h.offered account at_ hat
    obtain ⟨at'', hat'', hle'⟩ := h'.offered account at' hat'
    exact ⟨at'', hat'', le_trans hle hle'⟩

theorem Pinned.elsewhere (h : s.Pinned heightOf t₀ n) (hs : s.Elsewhere s') :
    s'.Pinned heightOf t₀ n where
  traced := by
    rw [hs.chainMiners, hs.written]
    exact h.traced
  written := by
    rw [hs.written]
    exact h.written
  offered := by
    rw [hs.offered]
    exact h.offered
  reached := le_trans h.reached hs.finalized

/-- What was pinned below is pinned at the height that the finalized heads reached. -/
theorem Pinned.atFinalized (h : s.Pinned heightOf t₀ n) : s.Pinned heightOf t₀ s.finalized :=
  ⟨h.traced, fun account m hm => le_trans (h.written account m hm) h.reached,
    fun account at_ hat => le_trans (h.offered account at_ hat) h.reached, le_rfl⟩

/-- Records that were read at the pinned block. -/
theorem Pinned.upsertChainMiners {now : Timestamp} {records : List (ReadAt ChainMinerRecord)}
    (h : s.Pinned heightOf t₀ (heightOf at_)) (hat : ∀ m ∈ records, m.at_ = at_)
    {answer : Except StoreError Unit} (hs : s.upsertChainMiners now records = (answer, s')) :
    s.NoRegress heightOf s' ∧ s'.Pinned heightOf t₀ (heightOf at_) := by
  unfold RegistryState.upsertChainMiners at hs
  split at hs
  · rename_i api updatedAt hapi hnow
    obtain ⟨_, hrow, rfl⟩ := upsertRecord_ok hapi
    cases hnow.symm.trans hrow
    cases hs
    obtain ⟨htraced, hlast⟩ := writeMiners_keeps hat
      (show Traced t₀ (s.tables.api.chainMiners, s.written).1
        (s.tables.api.chainMiners, s.written).2 from h.traced)
    refine ⟨⟨fun account m hm => ?_, fun account at' hat' => ⟨at', hat', le_rfl⟩⟩,
      ⟨?_, fun account m hm => ?_, h.offered, h.reached⟩⟩
    · rcases hlast account with hkept | ⟨m', hm', hread⟩
      · exact ⟨m, hkept.trans hm, le_rfl⟩
      · refine ⟨m', hm', ?_⟩
        rw [hread]
        exact h.written account m hm
    · rw [writeMiners_rows] at htraced
      exact htraced
    · rcases hlast account with hkept | ⟨m', hm', hread⟩
      · exact h.written account m (hkept.symm.trans hm)
      · cases hm'.symm.trans hm
        rw [hread]
  · cases hs
    exact ⟨.refl s, h⟩

/-- A descriptor that was read at the pinned block. -/
theorem Pinned.offer {record : ReadAt NodeDescriptorRecord}
    (h : s.Pinned heightOf t₀ (heightOf at_)) (hat : record.at_ = at_) :
    s.NoRegress heightOf (s.offer record) ∧ (s.offer record).Pinned heightOf t₀ (heightOf at_) := by
  have hoffered : ∀ account, (s.offer record).offered account = s.offered account ∨
      (s.offer record).offered account = some at_ := by
    intro account
    by_cases hacc : account = record.value.accountId
    · subst hacc
      exact .inr ((Function.update_self ..).trans (congrArg some hat))
    · exact .inl (Function.update_of_ne hacc _ _)
  refine ⟨⟨fun account m hm => ⟨m, hm, le_rfl⟩, fun account at' hat' => ?_⟩,
    ⟨h.traced, h.written, fun account at' hat' => ?_, h.reached⟩⟩
  · rcases hoffered account with hkept | hnew
    · exact ⟨at', hkept.trans hat', le_rfl⟩
    · exact ⟨at_, hnew, h.offered account at' hat'⟩
  · rcases hoffered account with hkept | hnew
    · exact h.offered account at' (hkept.symm.trans hat')
    · cases hnew.symm.trans hat'
      exact le_rfl

theorem Pinned.tables (h : s.Pinned heightOf t₀ n) {tables : RegistryTables}
    (htables : tables.api = s.tables.api) :
    s.NoRegress heightOf { s with tables := tables } ∧
      ({ s with tables := tables } : RegistryState).Pinned heightOf t₀ n := by
  refine ⟨.of_eq rfl rfl, ⟨?_, h.written, h.offered, h.reached⟩⟩
  show Traced t₀ tables.api.chainMiners s.written
  rw [htables]
  exact h.traced

/-- **One effect under the lock** that offers what was read at the pinned block. -/
theorem Pinned.step {γ : Type} {e : RegistryAwait V γ} {answer : γ}
    (h : s.Pinned heightOf t₀ (heightOf at_)) (hoffers : OffersFrom at_ e)
    (hs : RegistryAnswers heightOf c s e answer s') :
    s.NoRegress heightOf s' ∧ s'.Pinned heightOf t₀ (heightOf at_) := by
  cases e with
  -- the head is asked for once, before anything is pinned
  | finalizedHead => exact hoffers.elim
  | header | mapPage | optionalStorage | blockHash | timestamp | yieldNow =>
    obtain ⟨-, rfl⟩ := hs
    exact ⟨.refl s', h⟩
  | upsertChainMiners records =>
    rcases hs with ⟨_, -, rfl⟩ | ⟨now, hs⟩
    · exact ⟨.refl s', h⟩
    · exact h.upsertChainMiners hoffers hs
  | upsertNodeDescriptor record =>
    obtain ⟨hoffer, hpinned⟩ := h.offer hoffers
    rcases hs with ⟨_, -, rfl⟩ | hs
    · exact ⟨hoffer, hpinned⟩
    · cases hs
      obtain ⟨htables, hpinned'⟩ := hpinned.tables (rfl : RegistryTables.api { s.tables with
        nodeDescriptors := (Dashboard.upsertNodeDescriptor c record.value
          ⟨s.tables.api.store, s.tables.nodeDescriptors⟩).2.nodeDescriptors } = _)
      exact ⟨hoffer.trans htables, hpinned'⟩
  | setDescriptorCheckpoint number =>
    rcases hs with ⟨_, -, rfl⟩ | hs
    · exact ⟨.refl s', h⟩
    · unfold RegistryState.setDescriptorCheckpoint at hs
      split at hs
      · cases hs
        exact ⟨.refl s, h⟩
      · cases hs
        exact h.tables rfl

/-- **The finalized head under the lock**: all that was written and offered before was read
at a height that it has reached. -/
theorem Pinned.head {answer : Except ChainError ChainHash}
    (h : s.Pinned heightOf t₀ s.finalized)
    (hs : RegistryAnswers heightOf c s (.finalizedHead : RegistryAwait V _) answer s') :
    (s.NoRegress heightOf s' ∧ s'.Pinned heightOf t₀ s'.finalized) ∧
      ∀ at_, answer = .ok at_ → s'.Pinned heightOf t₀ (heightOf at_) := by
  rcases hs with ⟨_, rfl, rfl⟩ | ⟨head, rfl, hle, rfl⟩
  · exact ⟨⟨.refl s', h⟩, fun _ hat => by cases hat⟩
  · -- the new head is not below the old one, and nothing was read above that
    have hpinned : ({ s with finalized := heightOf head } : RegistryState).Pinned heightOf t₀
        (heightOf head) :=
      ⟨h.traced, fun account m hm => le_trans (h.written account m hm) hle,
        fun account at_ hat => le_trans (h.offered account at_ hat) hle, le_rfl⟩
    refine ⟨⟨.of_eq rfl rfl, hpinned⟩, fun at_ hat => ?_⟩
    cases hat
    exact hpinned

end RegistryState

/-! ### Whole runs -/

/-- What an effect under the lock guarantees. -/
def KeepsRegistry (heightOf : ChainHash → ℕ) (t₀ : KeyedTable String ChainMinerRow)
    (_ : RegistryTask) {γ : Type} (s : RegistryState) (_ : RegistryAwait V γ) (_ : γ)
    (s' : RegistryState) : Prop :=
  s.NoRegress heightOf s' ∧ s'.Pinned heightOf t₀ s'.finalized

variable {t₀ : KeyedTable String ChainMinerRow}

/-- A function that asks for the finalized head and reads and offers at it. -/
theorem head_safe {task : RegistryTask} {body : ChainHash → Reg V Unit}
    (hbody : ∀ at_, (body at_).Reads at_ fun _ => True) {s : RegistryState}
    (hs : s.Pinned heightOf t₀ s.finalized) :
    (Reg.chain .finalizedHead >>= body).Safe (RegistryAnswers heightOf c)
      RegistryState.Elsewhere (KeepsRegistry heightOf t₀ task) (fun _ _ => True) s := by
  have hhead := fun s₁ (hs₁ : s.Elsewhere s₁) answer s₂
      (h : RegistryAnswers heightOf c s₁ (.finalizedHead : RegistryAwait V _) answer s₂) =>
    (hs.elsewhere hs₁).atFinalized.head h
  refine .awaitOk (fun s₁ hs₁ answer s₂ h => (hhead s₁ hs₁ answer s₂ h).1)
    (fun s₁ hs₁ at_ s₂ h => ?_) fun _ _ _ _ _ => trivial
  -- from here on the program is pinned: others only raise the finalized height
  refine (hbody at_).safe (J := RegistryState.Pinned heightOf t₀ (heightOf at_))
    (fun hJ hR => hJ.elsewhere hR) ?_ ?_ ((hhead s₁ hs₁ _ s₂ h).2 at_ rfl)
  · intro γ s e answer s' h
    cases e with
    | mapPage | optionalStorage => exact h.1
    | _ => trivial
  · intro γ s e answer s' hJ hC h
    obtain ⟨hno, hpinned⟩ := hJ.step hC h
    exact ⟨⟨hno, hpinned.atFinalized⟩, hpinned⟩

theorem RegistryTask.code_outside (reader : RegistryReader V) (task : RegistryTask) :
    (task.code reader).Outside (fun s => s.Pinned heightOf t₀ s.finalized)
      (RegistryAnswers heightOf c) RegistryState.Elsewhere (KeepsRegistry heightOf t₀ task) := by
  cases task with
  | snapshot rounds =>
    exact .of_lock fun s hs => head_safe (snapshotAt_reads reader rounds) hs
  | refresh events =>
    show (refreshChanges reader events).Outside _ _ _ _
    unfold refreshChanges
    split
    · trivial
    · exact .of_lock fun s hs => head_safe (refreshAt_reads reader events) hs

/-- The lock of the registry. -/
theorem registry_discipline (reader : RegistryReader V) :
    LockDiscipline (fun s : RegistryState => s.Pinned heightOf t₀ s.finalized)
      (RegistryAnswers heightOf c) RegistryState.Elsewhere (KeepsRegistry heightOf t₀)
      (fun _ _ => True) (RegistryTask.code reader) fun s (_ : Unit) s' => s.Elsewhere s' where
  refl := .refl
  trans := fun h h' => h.trans h'
  stable := fun h hs => (h.elsewhere hs).atFinalized
  keeps := fun h => h.2
  other := fun hs => hs
  outside := fun _ task _ => task.code_outside reader

/-- **Registry counters never regress.**  In every interleaving each stored row goes back to
the record that it was last written from, and the height at which that was read never
decreases afterwards; the same holds of the snapshots from which the descriptors of an account
are offered. -/
theorem registry_never_regresses {reader : RegistryReader V} {tables : RegistryTables}
    {finalized : ℕ} {π π' : LockPool (RegistryAwait V) IndexerError RegistryState RegistryTask}
    {es es' : List (PoolEvent (Locking (RegistryAwait V)) RegistryState RegistryTask Unit)}
    (h : RegistryRun reader heightOf c (.idle (.start tables finalized)) es π)
    (h' : RegistryRun reader heightOf c π es' π') :
    Traced tables.api.chainMiners π.state.tables.api.chainMiners π.state.written ∧
      π.state.NoRegress heightOf π'.state := by
  have h₀ : (RegistryState.start tables finalized).Pinned heightOf tables.api.chainMiners
      finalized :=
    ⟨⟨fun _ _ => rfl, fun _ _ hm => by cases hm⟩, fun _ _ hm => (by cases hm),
      fun _ _ hat => (by cases hat), le_rfl⟩
  have hgood := LockRun.good (registry_discipline reader) (.idle h₀) h
  exact ⟨hgood.inv.traced, LockRun.relates (registry_discipline reader) .refl
    (fun h h' => h.trans h') (fun hs => .of_eq hs.written hs.offered) (fun h => h.1) hgood h'⟩

/-- A function that nothing stops runs to its end. -/
theorem RegistryRun.alone {reader : RegistryReader V}
    {answer : {γ : Type} → RegistryAwait V γ → RegistryState → γ × RegistryState}
    (hanswer : ∀ {γ : Type} (s : RegistryState) (e : RegistryAwait V γ),
      RegistryAnswers heightOf c s e (answer e s).1 (answer e s).2)
    {π : LockPool (RegistryAwait V) IndexerError RegistryState RegistryTask}
    (hfree : π.holder = none) {t : ℕ} (ht : π.threads t = none) {task : RegistryTask}
    {p : Reg V Unit} (hcode : task.code reader = Program.lock >>= fun _ => p.held)
    {r : Except IndexerError Unit} {s : RegistryState}
    (hx : p.exec answer π.state = some (r, s)) :
    ∃ es π', RegistryRun reader heightOf c π es π' ∧ π'.state = s ∧ π'.holder = none ∧
      π'.threads t = none :=
  LockRun.alone hanswer hfree ht trivial hcode hx

end

/-! ### A pass and a refresh -/

theorem length_repeated (n : UInt8) : (List.replicate 32 n).length = 32 := List.length_replicate

/-- The block at a height. -/
def blockAt (n : UInt8) : ChainHash := ⟨List.replicate 32 n, length_repeated n⟩

/-- The height of a block. -/
def heightAt (hash : ChainHash) : ℕ := (hash.bytes.headD 0).toNat

/-- A reader of maps whose values are one counter. -/
def counterReader : RegistryReader UInt64 where
  genesis := blockAt 0
  accountText _ := "miner"
  qblockHeight _ := .error .busy
  field value _ := .ok value
  decimal value := .ok (.ok value.toNat)
  unsigned value := .ok value
  descriptorJson _ := .error .busy
  nodeDescriptor _ := .error "no descriptor"

/-- Answer with a finalized head, unless it goes back. -/
def answerHead (head : ChainHash) (s : RegistryState) :
    Except ChainError ChainHash × RegistryState :=
  if s.finalized ≤ heightAt head then (.ok head, { s with finalized := heightAt head })
  else (.error .busy, s)

/-- A node with one miner, whose counters are the height. -/
def counterNode : {γ : Type} → RegistryAwait UInt64 γ → RegistryState → γ × RegistryState
  | _, .finalizedHead, s => answerHead (blockAt (UInt8.ofNat (s.finalized + 1))) s
  | _, .header at_, s => (.ok ⟨at_, .ok (heightAt at_)⟩, s)
  | _, .mapPage at_ _ entry _ _, s =>
    (.ok (if entry = "Miners" then
      [(List.replicate 80 0, ⟨UInt64.ofNat (heightAt at_), at_⟩)] else []), s)
  | _, .optionalStorage at_ _ _ _, s => (.ok (some ⟨UInt64.ofNat (heightAt at_), at_⟩), s)
  | _, .blockHash _, s => (.error .busy, s)
  | _, .timestamp _, s => (.error .busy, s)
  | _, .yieldNow, s => ((), s)
  | _, .upsertChainMiners records, s => s.upsertChainMiners (.utc 0) records
  | _, .upsertNodeDescriptor record, s => s.upsertNodeDescriptor saturatingCast record
  | _, .setDescriptorCheckpoint number, s => s.setDescriptorCheckpoint number

theorem counterNode_answers {γ : Type} (s : RegistryState) (e : RegistryAwait UInt64 γ) :
    RegistryAnswers heightAt saturatingCast s e (counterNode e s).1 (counterNode e s).2 := by
  cases e with
  | finalizedHead =>
    show RegistryAnswers _ _ s .finalizedHead (answerHead _ s).1 (answerHead _ s).2
    unfold answerHead
    split
    · exact .inr ⟨_, rfl, ‹_›, rfl⟩
    · exact .inl ⟨_, rfl, rfl⟩
  | header | blockHash | timestamp | yieldNow => exact ⟨trivial, rfl⟩
  | mapPage at_ pallet entry start limit =>
    refine ⟨fun rows hrows row hrow => ?_, rfl⟩
    cases hrows
    split at hrow
    · rw [List.mem_singleton.mp hrow]
    · cases hrow
  | optionalStorage =>
    refine ⟨fun value hvalue => ?_, rfl⟩
    cases hvalue
    rfl
  | upsertChainMiners records => exact .inr ⟨.utc 0, rfl⟩
  | upsertNodeDescriptor | setDescriptorCheckpoint => exact .inr rfl

/-- A bound store without rows. -/
def emptyRegistry : RegistryTables := ⟨emptyApi, .empty, none⟩

/-- The functions of the run, under the lock. -/
def firstPass : Reg UInt64 Unit := Reg.chain .finalizedHead >>= snapshotAt counterReader 1

def thenRefresh : Reg UInt64 Unit := Reg.chain .finalizedHead >>=
  refreshAt counterReader ⟨[], [List.replicate 32 0], 0⟩

/-- The state that a function leaves when it runs alone. -/
def counterState (p : Reg UInt64 Unit) (s : RegistryState) : RegistryState :=
  ((p.exec counterNode s).map Prod.snd).getD s

theorem registry_never_regresses_refresh :
    ∃ π π' : LockPool (RegistryAwait UInt64) IndexerError RegistryState RegistryTask,
      (π.state.written "miner").map ReadAt.at_ = some (blockAt 1) ∧
      (π'.state.written "miner").map ReadAt.at_ = some (blockAt 2) ∧
      π.state.NoRegress heightAt π'.state := by
  have hpass : firstPass.exec counterNode (.start emptyRegistry 0) =
      some (.ok (), counterState firstPass (.start emptyRegistry 0)) := rfl
  obtain ⟨es, π, h, hs, hholder, ht⟩ := RegistryRun.alone counterNode_answers
    (π := .idle (.start emptyRegistry 0)) (t := 0) rfl rfl
    (rfl : (RegistryTask.snapshot 1).code counterReader = _) hpass
  have hrefresh : thenRefresh.exec counterNode (counterState firstPass (.start emptyRegistry 0)) =
      some (.ok (), counterState thenRefresh (counterState firstPass (.start emptyRegistry 0))) :=
    rfl
  rw [← hs] at hrefresh
  obtain ⟨es', π', h', hs', -, -⟩ := RegistryRun.alone counterNode_answers hholder ht
    (rfl : (RegistryTask.refresh ⟨[], [List.replicate 32 0], 0⟩).code counterReader = _) hrefresh
  have hno := (registry_never_regresses (c := saturatingCast) h h').2
  refine ⟨π, π', ?_, ?_, hno⟩
  · rw [hs]
    rfl
  · rw [hs', hs]
    rfl

end Dashboard

/-
Records and the tables that hold them.

The members of a record and the columns of its table are spelled after each other, and each
column that must not be `NULL` belongs to a member that is always written. So a record can
be inserted, and its row is read as the record when each member survives its own column.

* `spelled` — `snake` and `camel` undo each other on the names that occur;
* `Described.insertRow_object` — an object with the members of a record can be inserted;
* `blocks_paths`, …, `submissions_paths` — how the members of each record travel;
* `Described.decodeRecord_iff` — **its row is read as the record if and only if every member
  survives its column**.
-/
import QuipDashboard.StoredRecords

namespace Dashboard.Turso

/-! ### Records of a table -/

/-- The members of all records with their columns. -/
def spellings : List (String × String) :=
  [("accountId", "account_id"), ("blockNumber", "block_number"), ("blockHash", "block_hash"),
    ("extrinsicIndex", "extrinsic_index"), ("blockTimestamp", "block_timestamp"),
    ("firstBlockTimestamp", "first_block_timestamp"), ("descriptor", "descriptor"),
    ("observedAt", "observed_at"), ("substrateBlockNumber", "substrate_block_number"),
    ("substrateBlockHash", "substrate_block_hash"),
    ("substrateParentHash", "substrate_parent_hash"), ("timestamp", "timestamp"),
    ("minerId", "miner_id"), ("energy", "energy"), ("diversity", "diversity"),
    ("numValidSolutions", "num_valid_solutions"), ("miningTime", "mining_time"),
    ("deviceAccessTimeUs", "device_access_time_us"), ("reward", "reward"),
    ("qblockId", "qblock_id"), ("nonce", "nonce"), ("numNodes", "num_nodes"),
    ("numEdges", "num_edges"), ("difficultyEnergy", "difficulty_energy"),
    ("minDiversity", "min_diversity"), ("minSolutions", "min_solutions"),
    ("finalized", "finalized"), ("topologyHash", "topology_hash"), ("validator", "validator"),
    ("hadWinner", "had_winner"), ("nodeId", "node_id"), ("miners", "miners"),
    ("primaryType", "primary_type"), ("source", "source"), ("deposit", "deposit"),
    ("proofsSubmitted", "proofs_submitted"), ("proofsWon", "proofs_won"),
    ("rewardsEarned", "rewards_earned"), ("telemetryNodeAddress", "telemetry_node_address"),
    ("hardware", "hardware"), ("solutionNumber", "solution_number"), ("minerType", "miner_type"),
    ("tsNs", "ts_ns"), ("energyMilli", "energy_milli"), ("diversityMilli", "diversity_milli"),
    ("thresholdMilli", "threshold_milli"), ("lastProofBlockHash", "last_proof_block_hash"),
    ("extrinsicHash", "extrinsic_hash"), ("chainBlockHash", "chain_block_hash"),
    ("chainBlockNumber", "chain_block_number"), ("powSequence", "pow_sequence"),
    ("outcome", "outcome"), ("attemptCount", "attempt_count"),
    ("bestEnergyMilli", "best_energy_milli"), ("numValid", "num_valid"),
    ("qpuAccessTimeUs", "qpu_access_time_us"), ("chainOnly", "chain_only"),
    ("account", "account"), ("kind", "kind"), ("budgetSeconds", "budget_seconds"),
    ("nodeName", "node_name"), ("updatedAt", "updated_at")]

/-- `snake` and `camel` on the characters of a member and of its column. -/
theorem spelled_ofList {a b : List Char}
    (hsnake : replaceQBlock (a.flatMap fun c =>
      if c.isUpper then ['_', c.toLower] else [c]) = b)
    (hcamel : camelChars false b = a) (hcurrent : b.take 3 ≠ ['c', 'u', 'r']) :
    snake (.ofList a) = .ofList b ∧ camel (.ofList b) = .ofList a := by
  -- the columns that `camel` spells by hand begin with `current`
  have hne : ∀ t : List Char, t.take 3 = ['c', 'u', 'r'] → String.ofList b ≠ .ofList t := by
    intro t ht h
    rw [String.ofList_inj.mp h] at hcurrent
    exact hcurrent ht
  constructor
  · rw [snake, String.toList_ofList, hsnake]
  · rw [camel, if_neg (hne _ rfl), if_neg (hne _ rfl), String.toList_ofList, hcamel]

/-- `snake` and `camel` undo each other on the names that occur. -/
theorem spelled : ∀ e ∈ spellings, snake e.1 = e.2 ∧ camel e.2 = e.1 := by
  unfold spellings
  repeat refine List.forall_mem_cons.mpr ⟨spelled_ofList rfl rfl (by decide), ?_⟩
  exact List.forall_mem_nil _

/-- What holds of the member that `camel` makes of a known column. -/
theorem exists_spelling {column : String} {P : String → Prop}
    (hcolumn : column ∈ spellings.map Prod.snd) (h : P (camel column)) :
    ∃ e ∈ spellings, e.2 = column ∧ P e.1 := by
  obtain ⟨e, he, rfl⟩ := List.mem_map.mp hcolumn
  rw [(spelled e he).2] at h
  exact ⟨e, he, rfl, h⟩

/-- The members of a record and the columns of a table are those of each other. -/
structure Described {S R : Type} (F : Fields S R) (t : Table) : Prop where
  nodup : F.names.Nodup
  names : ∀ n ∈ F.names, n ∈ spellings.map Prod.fst
  columns : ∀ column ∈ t.all, column ∈ spellings.map Prod.snd
  filled : ∀ c ∈ t.columns, c.notNull = true → ∃ e ∈ spellings, e.2 = c.name ∧ e.1 ∈ F.filled
  always : ∀ column ∈ t.all, ∃ e ∈ spellings, e.2 = column ∧ (e.1 ∈ F.names → e.1 ∈ F.always)
  declared : ∀ n ∈ F.always, ∃ e ∈ spellings, e.1 = n ∧ (t.column? e.2).isSome

namespace Described

variable {E : Conversions} {S R : Type} {F : Fields S R} {t : Table} {s : S} {row : Row}

theorem camel_snake (h : Described F t) {n : String} (hn : n ∈ F.names) :
    camel (snake n) = n := by
  obtain ⟨e, he, rfl⟩ := List.mem_map.mp (h.names n hn)
  rw [(spelled e he).1, (spelled e he).2]

theorem snake_camel (h : Described F t) {column : String} (hc : column ∈ t.all) :
    snake (camel column) = column := by
  obtain ⟨e, he, rfl⟩ := List.mem_map.mp (h.columns column hc)
  rw [(spelled e he).2, (spelled e he).1]

theorem entry_name (h : Described F t) : ∀ e ∈ F.entries s, camel (snake e.1) = e.1 :=
  fun e he => h.camel_snake (F.entries_names s e he)

/-- An object is inserted when it has only members that always are, and all that are never
`null`. -/
theorem insertRow_object (h : Described F t) {object : List (String × JsonValue)}
    (hnames : ∀ e ∈ object, e.1 ∈ F.names) (hfinite : ∀ e ∈ object, e.2.Finite)
    (halways : ∀ e ∈ object, e.1 ∈ F.always)
    (hfilled : ∀ n ∈ F.filled, ∃ j, JsonValue.lookup n object = some j ∧ j ≠ .null) :
    ∃ row, insertRow E t (columnsOf object) = .ok row := by
  refine Turso.insertRow_isOk (fun e he => h.camel_snake (hnames e he)) hfinite (fun e he => ?_)
    fun c hc hnn => ?_
  · obtain ⟨e', he', hname, hsome⟩ := h.declared _ (halways e he)
    rw [← hname, (spelled e' he').1]
    exact Option.isSome_iff_exists.mp hsome
  · obtain ⟨e, he, hec, hmem⟩ := h.filled c hc hnn
    obtain ⟨j, hj, hne⟩ := hfilled _ hmem
    exact ⟨e.1, j, by rw [(spelled e he).1, hec], hj, hne⟩

/-- A record is inserted when only members are written that always are. -/
theorem insertRow_isOk (h : Described F t) (halways : ∀ e ∈ F.entries s, e.1 ∈ F.always) :
    ∃ row, insertRow E t (columnsOf (F.entries s)) = .ok row :=
  h.insertRow_object (F.entries_names s) (F.entries_finite s) halways
    (F.lookup_filled h.nodup s)

theorem decodeRecord_iff {row' : Row} (h : Described F t)
    (hrow : insertRow E t (columnsOf (F.entries s)) = .ok row)
    (hsame : ∀ n ∈ F.names, row' (snake n) = row (snake n))
    (hother : ∀ column ∈ t.all, camel column ∉ F.names →
      ∃ v, columnValue E row' column = .ok v)
    (hmk : ∀ look, F.decode look = some (F.view s) → F.agrees look s) :
    decodeRecord E F t.all row' = .ok (F.view s) ↔ F.survives (trip E t) s := by
  refine Turso.decodeRecord_iff h.nodup (fun n hn => h.camel_snake hn)
    (fun column hc => h.snake_camel hc) (fun c hc => List.mem_map_of_mem hc) hrow
    hsame (fun column hcolumn hname hnone => ?_) hother hmk
  obtain ⟨e, he, rfl, halways⟩ := h.always column hcolumn
  rw [(spelled e he).2] at hname hnone
  have hsome := F.lookup_always s _ (halways hname)
  rw [hnone] at hsome
  cases hsome

end Described

/-- A record and a table are described by the spelling of their names. -/
theorem Described.of_spelled {S R : Type} {F : Fields S R} {t : Table}
    (hnodup : F.names.Nodup) (hnames : ∀ n ∈ F.names, n ∈ spellings.map Prod.fst)
    (hcolumns : ∀ column ∈ t.all, column ∈ spellings.map Prod.snd)
    (hfilled : ∀ c ∈ t.columns, c.notNull = true → camel c.name ∈ F.filled)
    (halways : ∀ column ∈ t.all, camel column ∈ F.names → camel column ∈ F.always)
    (hsub : ∀ n ∈ F.always, n ∈ F.names)
    (hdeclared : ∀ n ∈ F.always, (t.column? (snake n)).isSome) : Described F t where
  nodup := hnodup
  names := hnames
  columns := hcolumns
  filled c hc hnn := exists_spelling (hcolumns c.name (List.mem_map_of_mem hc)) (hfilled c hc hnn)
  always column hcolumn :=
    exists_spelling (P := fun n => n ∈ F.names → n ∈ F.always) (hcolumns column hcolumn)
      (halways column hcolumn)
  declared n hn := by
    obtain ⟨e, he, rfl⟩ := List.mem_map.mp (hnames n (hsub n hn))
    have hsome := hdeclared e.1 hn
    rw [(spelled e he).1] at hsome
    exact ⟨e, he, rfl, hsome⟩

/-- The columns of the members are none that are written as timestamps. -/
def Plain {S R : Type} (F : Fields S R) (t : Table) : Prop :=
  ∀ n ∈ F.names, ∃ e ∈ spellings, e.1 = n ∧ t.isTimestamp e.2 = false

section

variable {E : Conversions} {S R : Type} {F : Fields S R} {t : Table} {s : S}

/-- Outside of one table, only the columns of that kind are written as timestamps. -/
theorem isTimestamp_eq_false {column : String} (hname : t.name ≠ "validator_authorship_blocks")
    (hcolumn : column ∉ timestampColumns) : t.isTimestamp column = false := by
  have hkind : kind column ≠ .timestamptz := by
    unfold kind
    rw [if_neg hcolumn]
    split_ifs <;> decide
  simp [Table.isTimestamp, hkind, hname]

theorem Plain.of_spelled (hname : t.name ≠ "validator_authorship_blocks")
    (hnames : ∀ n ∈ F.names, n ∈ spellings.map Prod.fst)
    (htimes : ∀ n ∈ F.names, snake n ∉ timestampColumns) : Plain F t := by
  intro n hn
  obtain ⟨e, he, rfl⟩ := List.mem_map.mp (hnames n hn)
  have hplain := isTimestamp_eq_false hname (htimes e.1 hn)
  rw [(spelled e he).1] at hplain
  exact ⟨e, he, rfl, hplain⟩

theorem Plain.isTimestamp (h : Plain F t) {n : String} (hn : n ∈ F.names) :
    t.isTimestamp (snake n) = false := by
  obtain ⟨e, he, hname, hplain⟩ := h n hn
  rw [← hname, (spelled e he).1, hplain]

theorem Plain.columns (h : Plain F t) :
    ∀ e ∈ columnsOf (F.entries s), t.isTimestamp e.1 = false := by
  intro e he
  obtain ⟨e', he', rfl⟩ := List.mem_map.mp he
  exact h.isTimestamp (F.entries_names s e' he')

theorem Plain.keeps (h : Plain F t) :
    arguments E t (columnsOf (F.entries s)) = .ok (columnsOf (F.entries s)) :=
  arguments_eq_self fun e he => argument_of_plain (h.columns e he)

/-- Plain members and a time, which is written in its canonical form. -/
theorem Plain.keeps_time (h : Plain F t) {n : String} (hn : t.isTimestamp (snake n) = true)
    (o : String) :
    arguments E t (columnsOf (F.entries s ++ Fields.entry n (some (.string o)))) =
      (canonicalText E o).map fun c =>
        columnsOf (F.entries s ++ Fields.entry n (some (.string c))) := by
  have hcolumns : ∀ o, columnsOf (F.entries s ++ Fields.entry n (some (.string o))) =
      columnsOf (F.entries s) ++ [(snake n, .string o)] := by
    intro o
    rw [columnsOf, List.map_append]
    rfl
  rw [hcolumns, arguments_timestamp h.columns hn]
  simp only [hcolumns]

end

/-- Every column is that of a member. -/
def Members {S R : Type} (F : Fields S R) (t : Table) : Prop :=
  ∀ column ∈ t.all, ∃ e ∈ spellings, e.2 = column ∧ e.1 ∈ F.names

theorem Members.of_spelled {S R : Type} {F : Fields S R} {t : Table} (h : Described F t)
    (hmembers : ∀ column ∈ t.all, camel column ∈ F.names) : Members F t :=
  fun column hcolumn => exists_spelling (h.columns column hcolumn) (hmembers column hcolumn)

theorem Members.other {E : Conversions} {S R : Type} {F : Fields S R} {t : Table} {row : Row}
    (h : Members F t) :
    ∀ column ∈ t.all, camel column ∉ F.names → ∃ v, columnValue E row column = .ok v := by
  intro column hcolumn hname
  obtain ⟨e, he, rfl, hmem⟩ := h column hcolumn
  rw [(spelled e he).2] at hname
  exact absurd hmem hname

/-- A row is read as a record when each column is that of a known name that has a value, and
each member is read as that of the record. -/
theorem decodeRecord_of_members {E : Conversions} {S R : Type} {F : Fields S R} {s : S}
    {columns names : List String} {row : Row}
    (hcolumns : ∀ column ∈ columns, ∃ e ∈ spellings, e.2 = column ∧ e.1 ∈ names)
    (hnames : ∀ n ∈ F.names, n ∈ spellings.map Prod.fst)
    (hsome : ∀ n ∈ names, (member E columns row n).isSome)
    (hagrees : F.agrees (member E columns row) s) :
    decodeRecord E F columns row = .ok (F.view s) := by
  refine decodeRecord_of_agrees (fun column hcolumn => ?_) (fun n hn => ?_)
    (fun column hcolumn => ?_) hagrees
  · obtain ⟨e, he, rfl, -⟩ := hcolumns column hcolumn
    rw [(spelled e he).2, (spelled e he).1]
  · obtain ⟨e, he, rfl⟩ := List.mem_map.mp (hnames n hn)
    rw [(spelled e he).1, (spelled e he).2]
  · obtain ⟨e, he, rfl, hmem⟩ := hcolumns column hcolumn
    have hvalue := hsome e.1 hmem
    rw [member, (spelled e he).1, if_pos hcolumn] at hvalue
    cases hv : columnValue E row e.2 with
    | ok v => exact ⟨v, rfl⟩
    | error err => rw [hv] at hvalue; cases hvalue

theorem blocks_described : Described BlockRecord.fields blocks := by
  have h := spelled
  simp only [spellings, List.forall_mem_cons] at h
  apply Described.of_spelled <;>
    simp [BlockRecord.fields, blocks, Table.all, Table.column?, spellings, h]

theorem participants_described : Described participantFields qblockParticipation := by
  have h := spelled
  simp only [spellings, List.forall_mem_cons] at h
  apply Described.of_spelled <;>
    simp [participantFields, qblockParticipation, Table.all, Table.column?, spellings, h]

theorem authorship_described : Described AuthorshipRow.fields validatorAuthorshipBlocks := by
  have h := spelled
  simp only [spellings, List.forall_mem_cons] at h
  apply Described.of_spelled <;>
    simp [AuthorshipRow.fields, validatorAuthorshipBlocks, Table.all, Table.column?, spellings, h]

theorem descriptors_described : Described NodeDescriptorRecord.fields nodeDescriptors := by
  have h := spelled
  simp only [spellings, List.forall_mem_cons] at h
  apply Described.of_spelled <;>
    simp [NodeDescriptorRecord.fields, NodeDescriptorRecord.facts, nodeDescriptors, Table.all, Table.column?, spellings, h]

theorem hardware_described : Described MinerHardwareRecord.fields minerHardware := by
  have h := spelled
  simp only [spellings, List.forall_mem_cons] at h
  apply Described.of_spelled <;>
    simp [MinerHardwareRecord.fields, MinerHardwareRecord.facts, minerHardware, Table.all, Table.column?, spellings, h]

theorem submissions_described : Described MiningSubmissionRecord.fields miningSubmissions := by
  have h := spelled
  simp only [spellings, List.forall_mem_cons] at h
  apply Described.of_spelled <;>
    simp [MiningSubmissionRecord.fields, MiningSubmissionRecord.facts, miningSubmissions, Table.all, Table.column?, spellings, h]

/-! ### How the members travel -/

section

attribute [local simp] Table.path Table.column? Table.parameterKind kind numericColumns doubleColumns
  bigintColumns integerColumns booleanColumns timestampColumns jsonColumns numericApiNumber
  Path.text Path.decimal Path.apiNumber Path.whole Path.double Path.flag Path.instant Path.document

/-- The times of an observation are written as timestamps in every table. -/
theorem isTimestamp_observedAt (t : Table) : t.isTimestamp (snake "observedAt") = true := by
  have h := spelled
  simp only [spellings, List.forall_mem_cons] at h
  simp [Table.isTimestamp, h]

theorem isTimestamp_updatedAt (t : Table) : t.isTimestamp (snake "updatedAt") = true := by
  have h := spelled
  simp only [spellings, List.forall_mem_cons] at h
  simp [Table.isTimestamp, h]

theorem blocks_paths :
    blocks.path "blockHash" = some .text ∧
    blocks.path "substrateBlockNumber" = some .decimal ∧
    blocks.path "substrateBlockHash" = some .text ∧
    blocks.path "substrateParentHash" = some .text ∧
    blocks.path "timestamp" = some (.whole .bigint) ∧
    blocks.path "minerId" = some .text ∧
    blocks.path "energy" = some .double ∧
    blocks.path "diversity" = some .double ∧
    blocks.path "numValidSolutions" = some (.whole .integer) ∧
    blocks.path "miningTime" = some .double ∧
    blocks.path "deviceAccessTimeUs" = some .apiNumber ∧
    blocks.path "reward" = some .decimal ∧
    blocks.path "qblockId" = some .decimal ∧
    blocks.path "nonce" = some .decimal ∧
    blocks.path "numNodes" = some (.whole .integer) ∧
    blocks.path "numEdges" = some (.whole .integer) ∧
    blocks.path "difficultyEnergy" = some .double ∧
    blocks.path "minDiversity" = some .double ∧
    blocks.path "minSolutions" = some (.whole .integer) ∧
    blocks.path "finalized" = some .flag ∧
    blocks.path "topologyHash" = some .text := by
  have h := spelled
  simp only [spellings, List.forall_mem_cons] at h
  simp [blocks, h]

theorem participants_paths :
    qblockParticipation.path "qblockId" = some .decimal ∧
    qblockParticipation.path "account" = some .text ∧
    qblockParticipation.path "kind" = some .text ∧
    qblockParticipation.path "budgetSeconds" = some (.whole .integer) ∧
    qblockParticipation.path "blockNumber" = some ⟨.text, .text, .numeric, false⟩ := by
  have h := spelled
  simp only [spellings, List.forall_mem_cons] at h
  simp [qblockParticipation, h]

theorem authorship_paths :
    validatorAuthorshipBlocks.path "validator" = some .text ∧
    validatorAuthorshipBlocks.path "blockNumber" = some .decimal ∧
    validatorAuthorshipBlocks.path "timestamp" = some ⟨.timestamptz, .text, .bigint, false⟩ ∧
    validatorAuthorshipBlocks.path "hadWinner" = some .flag := by
  have h := spelled
  simp only [spellings, List.forall_mem_cons] at h
  simp [validatorAuthorshipBlocks, h]

theorem descriptors_paths :
    nodeDescriptors.path "accountId" = some .text ∧
    nodeDescriptors.path "blockNumber" = some .decimal ∧
    nodeDescriptors.path "blockHash" = some .text ∧
    nodeDescriptors.path "extrinsicIndex" = some (.whole .integer) ∧
    nodeDescriptors.path "blockTimestamp" = some (.whole .bigint) ∧
    nodeDescriptors.path "firstBlockTimestamp" = some (.whole .bigint) ∧
    nodeDescriptors.path "descriptor" = some .document ∧
    nodeDescriptors.path "observedAt" = some .instant ∧
    nodeDescriptors.path "nodeName" = some .text := by
  have h := spelled
  simp only [spellings, List.forall_mem_cons] at h
  simp [nodeDescriptors, h]

theorem miners_paths :
    chainMiners.path "accountId" = some .text ∧
    chainMiners.path "deposit" = some .decimal ∧
    chainMiners.path "proofsSubmitted" = some .decimal ∧
    chainMiners.path "proofsWon" = some .decimal ∧
    chainMiners.path "rewardsEarned" = some .decimal ∧
    chainMiners.path "updatedAt" = some .instant := by
  have h := spelled
  simp only [spellings, List.forall_mem_cons] at h
  simp [chainMiners, h]

theorem hardware_paths :
    minerHardware.path "accountId" = some .text ∧
    minerHardware.path "nodeId" = some .text ∧
    minerHardware.path "miners" = some .document ∧
    minerHardware.path "primaryType" = some .text ∧
    minerHardware.path "source" = some .text ∧
    minerHardware.path "observedAt" = some .instant := by
  have h := spelled
  simp only [spellings, List.forall_mem_cons] at h
  simp [minerHardware, h]

theorem submissions_paths :
    miningSubmissions.path "solutionNumber" = some .apiNumber ∧
    miningSubmissions.path "minerId" = some .text ∧
    miningSubmissions.path "minerType" = some .text ∧
    miningSubmissions.path "tsNs" = some .decimal ∧
    miningSubmissions.path "energyMilli" = some (.whole .bigint) ∧
    miningSubmissions.path "diversityMilli" = some (.whole .bigint) ∧
    miningSubmissions.path "thresholdMilli" = some (.whole .bigint) ∧
    miningSubmissions.path "lastProofBlockHash" = some .text ∧
    miningSubmissions.path "extrinsicHash" = some .text ∧
    miningSubmissions.path "chainBlockHash" = some .text ∧
    miningSubmissions.path "chainBlockNumber" = some .decimal ∧
    miningSubmissions.path "powSequence" = some .apiNumber ∧
    miningSubmissions.path "outcome" = some .text ∧
    miningSubmissions.path "attemptCount" = some (.whole .integer) ∧
    miningSubmissions.path "bestEnergyMilli" = some (.whole .bigint) ∧
    miningSubmissions.path "numValid" = some (.whole .integer) ∧
    miningSubmissions.path "qpuAccessTimeUs" = some .apiNumber ∧
    miningSubmissions.path "observedAt" = some .instant := by
  have h := spelled
  simp only [spellings, List.forall_mem_cons] at h
  simp [miningSubmissions, h]

end

end Dashboard.Turso

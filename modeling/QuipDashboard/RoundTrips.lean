/-
Which records are read back as they were written.

Participants, miners and authorship are made into their objects by hand: a budget becomes an
integer, a miner loses what the API joins and gets the time of the write, and a timestamp is
written as a text. All of them are read back as they were written.

* `participant_roundTrips`, `miner_roundTrips`, `authorship_roundTrips` — these always are;
* `record_roundTrips_iff` — **a write fails and changes nothing or is read back as it was
  written, exactly when the record fits its columns**.
-/
import QuipDashboard.RecordRoundTrip

namespace Dashboard.Turso

/-! ### Participants -/

/-- The budget of a participant as it is written. -/
def budgetJson (budget : Option ℚ) : JsonValue :=
  budget.elim .null fun n => .number (.ofInt n.floor)

theorem lookup_participantObject (p : QBlockParticipationRecord) (n : String) :
    JsonValue.lookup n (participantObject p) =
      if "budgetSeconds" = n then some (budgetJson p.budgetSeconds)
      else JsonValue.lookup n (participantFields.entries p) := by
  unfold participantObject
  cases hb : p.budgetSeconds with
  | some q => exact JsonValue.lookup_insert ..
  | none =>
    show JsonValue.lookup n (participantFields.entries p) = _
    split
    · rename_i hn
      subst hn
      simp only [participantFields, Fields.lookup_member, Fields.lookup_start, String.reduceEq,
        if_false, if_true, Option.none_or, hb]
      rfl
    · rfl

theorem mem_participantObject {p : QBlockParticipationRecord} {e : String × JsonValue}
    (he : e ∈ participantObject p) :
    e ∈ participantFields.entries p ∨ e = ("budgetSeconds", budgetJson p.budgetSeconds) := by
  unfold participantObject at he
  cases hb : p.budgetSeconds with
  | some q =>
    rw [hb] at he
    exact (JsonValue.mem_insert he).symm
  | none =>
    rw [hb] at he
    exact .inl he

theorem participant_object_names {p : QBlockParticipationRecord} :
    ∀ e ∈ participantObject p, e.1 ∈ participantFields.names := by
  have hbudget : "budgetSeconds" ∈ participantFields.names := by
    simp [participantFields]
  intro e he
  rcases mem_participantObject he with he | rfl
  · exact participantFields.entries_names p e he
  · exact hbudget

/-- A budget that is not invalid is an integer of 32 bits. -/
theorem floor_of_valid {n : ℚ} (h : invalidBudget n = false) :
    (n.floor : ℚ) = n ∧ 0 ≤ n.floor ∧ n.floor < 2 ^ 31 := by
  have hmax : i32Max = 2 ^ 31 - 1 := rfl
  simp only [invalidBudget, decide_eq_false_iff_not, not_or, not_lt, ne_eq, not_not] at h
  obtain ⟨hnonneg, hden, hle⟩ := h
  obtain ⟨i, rfl⟩ : ∃ i : ℤ, (i : ℚ) = n := ⟨n.num, Rat.den_eq_one_iff n |>.mp hden⟩
  have hle' : i ≤ i32Max := by exact_mod_cast hle
  have hnonneg' : 0 ≤ i := by exact_mod_cast hnonneg
  rw [Rat.floor_intCast]
  exact ⟨rfl, hnonneg', by omega⟩

section

variable {E : Conversions} {now g : String} {s : RowStore}

theorem insertRow_participant {p : QBlockParticipationRecord}
    (hvalid : p.budgetSeconds.any invalidBudget = false) :
    ∃ row, insertRow E qblockParticipation (columnsOf (participantObject p)) = .ok row := by
  have halways : ∀ n ∈ participantFields.names, n ∈ participantFields.always := fun _ h => h
  refine participants_described.insertRow_object participant_object_names (fun e he => ?_)
    (fun e he => halways _ (participant_object_names e he)) fun n hn => ?_
  · rcases mem_participantObject he with he | rfl
    · exact participantFields.entries_finite p e he
    · cases hb : p.budgetSeconds with
      | none => exact JsonValue.finite_null
      | some q =>
        rw [hb] at hvalid
        obtain ⟨-, hnonneg, hlt⟩ := floor_of_valid hvalid
        rintro _ ⟨⟩
        have hrange : -2 ^ 63 ≤ q.floor ∧ q.floor < 2 ^ 63 := by omega
        exact .inl (by rw [JsonNumber.asI64_ofInt hrange]; rfl)
  · have hne : "budgetSeconds" ≠ n := by
      have hfilled : "budgetSeconds" ∉ participantFields.filled := by
        simp [participantFields]
      rintro rfl
      exact hfilled hn
    rw [lookup_participantObject, if_neg hne]
    exact participantFields.lookup_filled participants_described.nodup p n hn

/-- The members of a participant as they are written. -/
theorem participant_lookups (p : QBlockParticipationRecord) :
    JsonValue.lookup "qblockId" (participantObject p) = some (decimalCodec.encode p.qblockId) ∧
    JsonValue.lookup "account" (participantObject p) = some (.string p.account) ∧
    JsonValue.lookup "kind" (participantObject p) = some (.string p.kind) ∧
    JsonValue.lookup "budgetSeconds" (participantObject p) = some (budgetJson p.budgetSeconds) ∧
    JsonValue.lookup "blockNumber" (participantObject p) =
      some (decimalCodec.encode p.blockNumber) := by
  simp only [lookup_participantObject, participantFields, Fields.lookup_member,
    Fields.lookup_start, String.reduceEq, if_false, if_true, Option.none_or]
  exact ⟨rfl, rfl, rfl, trivial, rfl⟩

theorem trip_budget {budget : Option ℚ} (hvalid : budget.any invalidBudget = false) :
    trip E qblockParticipation "budgetSeconds" (budgetJson budget) = some (budgetJson budget) ∧
      (Member.nullable Codec.f64).decode (some (budgetJson budget)) = some budget := by
  cases budget with
  | none => exact ⟨trip_null participants_paths.2.2.2.1, rfl⟩
  | some q =>
    obtain ⟨hfloor, hnonneg, hlt⟩ := floor_of_valid hvalid
    have hrange : -2 ^ 63 ≤ q.floor ∧ q.floor < 2 ^ 63 := by omega
    refine ⟨trip_whole (.inl rfl) participants_paths.2.2.2.1 hrange, ?_⟩
    have hexact : -2 ^ 53 ≤ q.floor ∧ q.floor ≤ 2 ^ 53 := by omega
    show (if -2 ^ 53 ≤ q.floor ∧ q.floor ≤ 2 ^ 53 then some (q.floor : ℚ) else none).map some = _
    rw [if_pos hexact, hfloor]
    rfl

theorem exec_put_participant {p : QBlockParticipationRecord}
    (hvalid : p.budgetSeconds.any invalidBudget = false)
    (hfresh : (StoredRecord.participant p).Fresh s) {row : Row}
    (hrow : insertRow E qblockParticipation (columnsOf (participantObject p)) = .ok row) :
    Tx.exec ((StoredRecord.participant p).put E now) s =
      .ok ((), s.setRows qblockParticipation
        ((s.rows qblockParticipation.name).put (StoredRecord.participant p).key row)) := by
  have hnames : ∀ e ∈ participantObject p, camel (snake e.1) = e.1 :=
    fun e he => participants_described.camel_snake (participant_object_names e he)
  have hplain : Plain participantFields qblockParticipation := by
    have h := spelled
    simp only [spellings, List.forall_mem_cons] at h
    apply Plain.of_spelled <;>
      simp [participantFields, qblockParticipation, spellings, timestampColumns, h]
  have hargs : arguments E qblockParticipation (columnsOf (participantObject p)) =
      .ok (columnsOf (participantObject p)) := by
    refine arguments_eq_self fun e he => argument_of_plain ?_
    obtain ⟨e', he', rfl⟩ := List.mem_map.mp he
    exact hplain.isTimestamp (participant_object_names e' he')
  have hkey : qblockParticipation.keys.map row = (StoredRecord.participant p).key := by
    obtain ⟨hl₁, hl₂, -⟩ := participant_lookups p
    have hid : row (snake "qblockId") = .text (decimalText p.qblockId) :=
      row_text hnames hrow hl₁ (.inr participants_paths.1)
    have haccount : row (snake "account") = .text p.account :=
      row_text hnames hrow hl₂ (.inl participants_paths.2.1)
    rw [(spelled ("qblockId", "qblock_id") (by simp [spellings])).1] at hid
    rw [(spelled ("account", "account") (by simp [spellings])).1] at haccount
    show [row "qblock_id", row "account"] = [.text (decimalText p.qblockId), .text p.account]
    rw [hid, haccount]
  have hwrite : Tx.exec (writeParticipant E p) s = .ok (1, s.setRows qblockParticipation
      ((s.rows qblockParticipation.name).put (StoredRecord.participant p).key row)) := by
    rw [writeParticipant, hvalid, if_neg Bool.false_ne_true,
      exec_upsertMap_new hargs hrow (by rw [hkey]; exact hfresh), hkey]
  show Tx.exec (writeParticipant E p >>= fun _ => pure ()) s = _
  rw [Tx.exec_bind, hwrite]
  rfl

theorem decode_participant {p : QBlockParticipationRecord}
    (hvalid : p.budgetSeconds.any invalidBudget = false) {row : Row}
    (hrow : insertRow E qblockParticipation (columnsOf (participantObject p)) = .ok row) :
    decodeRecord E participantFields qblockParticipation.all row = .ok p := by
  have hnames : ∀ e ∈ participantObject p, camel (snake e.1) = e.1 :=
    fun e he => participants_described.camel_snake (participant_object_names e he)
  have hmembers : Members participantFields qblockParticipation := by
    have h := spelled
    simp only [spellings, List.forall_mem_cons] at h
    exact .of_spelled participants_described
      (by simp [participantFields, qblockParticipation, Table.all, h])
  obtain ⟨p₁, p₂, p₃, p₄, p₅⟩ := participants_paths
  obtain ⟨hl₁, hl₂, hl₃, hl₄, hl₅⟩ := participant_lookups p
  obtain ⟨htrip, hbudget⟩ := trip_budget (E := E) hvalid
  have hall : ∀ c ∈ qblockParticipation.columns, c.name ∈ qblockParticipation.all :=
    fun _ h => List.mem_map_of_mem h
  have h₁ := member_of_trip hnames hrow hall hl₁ (trip_decimal p₁ _)
  have h₂ := member_of_trip hnames hrow hall hl₂ (trip_text p₂ _)
  have h₃ := member_of_trip hnames hrow hall hl₃ (trip_text p₃ _)
  have h₄ := member_of_trip hnames hrow hall hl₄ htrip
  have h₅ : member E qblockParticipation.all row "blockNumber" =
      some (decimalCodec.encode p.blockNumber) := by
    refine member_of_trip hnames hrow hall hl₅ ?_
    rw [trip, p₅]
    rfl
  refine decodeRecord_of_members (s := p) hmembers participants_described.names
    (fun n hn => ?_) ?_
  · change n ∈ ["qblockId", "account", "kind", "budgetSeconds", "blockNumber"] at hn
    simp only [List.mem_cons, List.not_mem_nil, or_false] at hn
    rcases hn with rfl | rfl | rfl | rfl | rfl
    · rw [h₁, Option.isSome_some]
    · rw [h₂, Option.isSome_some]
    · rw [h₃, Option.isSome_some]
    · rw [h₄, Option.isSome_some]
    · rw [h₅, Option.isSome_some]
  · simp only [participantFields, Fields.agrees_member, Fields.agrees_start, true_and, and_assoc,
      h₁, h₂, h₃, h₄, h₅]
    exact ⟨(Member.required decimalCodec).decode_encode _, rfl, rfl, hbudget,
      (Member.required decimalCodec).decode_encode _⟩

/-- **Every participant that is accepted is read back.** -/
theorem participant_roundTrips (hg : s.genesis = some g) {p : QBlockParticipationRecord}
    (hfresh : (StoredRecord.participant p).Fresh s) :
    (StoredRecord.participant p).RoundTrips E now s := by
  by_cases hvalid : p.budgetSeconds.any invalidBudget = true
  · refine StoredRecord.roundTrips_of_put_error hg (e := .invalid "invalid participant budget") ?_
    show Tx.exec (writeParticipant E p >>= fun _ => pure ()) s = _
    rw [writeParticipant, if_pos hvalid]
    rfl
  · rw [Bool.not_eq_true] at hvalid
    obtain ⟨row, hrow⟩ := insertRow_participant (E := E) hvalid
    have hread : (StoredRecord.participant p).readBack E (s.setRows qblockParticipation
        ((s.rows qblockParticipation.name).put (StoredRecord.participant p).key row)) =
        ((decodeRecord E participantFields qblockParticipation.all row).map some).map
          (Option.map StoredRecord.participant) := by
      rw [← readRow_put]
      rfl
    rw [roundTrips_iff_decode (fun _ _ h => StoredRecord.participant.inj h) hg hfresh
      (exec_put_participant hvalid hfresh hrow) rfl hread]
    exact decode_participant hvalid hrow

end

/-! ### Miners -/

/-- A miner as its row has it, with the time of the write. -/
def minerRow (accountId : String) (deposit proofsSubmitted proofsWon rewardsEarned : ℕ)
    (now : String) : String × ChainMinerRecord :=
  (now, ⟨accountId, deposit, proofsSubmitted, proofsWon, rewardsEarned, none, none⟩)

/-- The members of a miner that have columns, but for the time of the write. -/
def minerFacts : Fields (String × ChainMinerRecord) (String → String × ChainMinerRecord) :=
  Fields.start minerRow
    |>.member "accountId" (.required .string) (fun e => e.2.accountId)
    |>.member "deposit" (.required decimalCodec) (fun e => e.2.deposit)
    |>.member "proofsSubmitted" (.required decimalCodec) (fun e => e.2.proofsSubmitted)
    |>.member "proofsWon" (.required decimalCodec) (fun e => e.2.proofsWon)
    |>.member "rewardsEarned" (.required decimalCodec) (fun e => e.2.rewardsEarned)

/-- A miner with the time of the write. -/
def storedMiner : Fields (String × ChainMinerRecord) (String × ChainMinerRecord) :=
  minerFacts.member "updatedAt" (.required .string) Prod.fst

theorem chainMinerObject_eq (now : String) (m : ChainMinerRecord) :
    chainMinerObject now m = storedMiner.entries (now, m) := by
  have hkeep : ∀ n ∈ minerFacts.names, n ≠ "hardware" ∧ n ≠ "telemetryNodeAddress" := by
    simp [minerFacts]
  have hall : ChainMinerRecord.fields.entries m = minerFacts.entries (now, m) ++
      Fields.entry "telemetryNodeAddress" ((Member.nullable Codec.string).encode
        m.telemetryNodeAddress) ++
      Fields.entry "hardware" ((Member.nullable MinerHardwareRecord.codec).encode m.hardware) := rfl
  have hfacts : (minerFacts.entries (now, m)).filter
      (fun e => e.1 ≠ "hardware" ∧ e.1 ≠ "telemetryNodeAddress") = minerFacts.entries (now, m) :=
    List.filter_eq_self.mpr fun e he => by
      simpa using hkeep _ (minerFacts.entries_names _ e he)
  have hnone : ∀ n j, (n = "hardware" ∨ n = "telemetryNodeAddress") →
      (Fields.entry n j).filter (fun e => e.1 ≠ "hardware" ∧ e.1 ≠ "telemetryNodeAddress") =
        [] := by
    intro n j hn
    refine List.filter_eq_nil_iff.mpr fun e he => ?_
    rw [(Fields.mem_entry.mp he).1]
    rcases hn with rfl | rfl <;> simp
  rw [chainMinerObject, hall, List.filter_append, List.filter_append, hfacts, hnone _ _ (.inr rfl),
    hnone _ _ (.inl rfl), List.append_nil, List.append_nil]
  rfl

theorem miners_described : Described storedMiner chainMiners := by
  have h := spelled
  simp only [spellings, List.forall_mem_cons] at h
  apply Described.of_spelled <;>
    simp [storedMiner, minerFacts, chainMiners, Table.all, Table.column?, spellings, h]

section

variable {E : Conversions} {now g : String} {s : RowStore}

/-- The members of a miner as they are written. -/
theorem miner_lookups (now : String) (m : ChainMinerRecord) :
    JsonValue.lookup "accountId" (storedMiner.entries (now, m)) = some (.string m.accountId) ∧
    JsonValue.lookup "deposit" (storedMiner.entries (now, m)) =
      some (decimalCodec.encode m.deposit) ∧
    JsonValue.lookup "proofsSubmitted" (storedMiner.entries (now, m)) =
      some (decimalCodec.encode m.proofsSubmitted) ∧
    JsonValue.lookup "proofsWon" (storedMiner.entries (now, m)) =
      some (decimalCodec.encode m.proofsWon) ∧
    JsonValue.lookup "rewardsEarned" (storedMiner.entries (now, m)) =
      some (decimalCodec.encode m.rewardsEarned) ∧
    JsonValue.lookup "updatedAt" (storedMiner.entries (now, m)) = some (.string now) := by
  simp only [storedMiner, minerFacts, Fields.lookup_member, Fields.lookup_start, String.reduceEq,
    if_false, if_true, Option.none_or]
  exact ⟨rfl, rfl, rfl, rfl, rfl, rfl⟩

theorem exec_put_miner {m : ChainMinerRecord} (hnow : E.canonical now = .ok now)
    (hfresh : (StoredRecord.miner m).Fresh s) {row : Row}
    (hrow : insertRow E chainMiners (columnsOf (storedMiner.entries (now, m))) = .ok row) :
    Tx.exec ((StoredRecord.miner m).put E now) s =
      .ok ((), s.setRows chainMiners
        ((s.rows chainMiners.name).put (StoredRecord.miner m).key row)) := by
  have hplain : Plain minerFacts chainMiners := by
    have h := spelled
    simp only [spellings, List.forall_mem_cons] at h
    apply Plain.of_spelled <;>
      simp [minerFacts, chainMiners, spellings, timestampColumns, h]
  have hargs : arguments E chainMiners (columnsOf (chainMinerObject now m)) =
      .ok (columnsOf (storedMiner.entries (now, m))) := by
    rw [chainMinerObject_eq]
    refine (hplain.keeps_time (isTimestamp_updatedAt _) now).trans ?_
    rw [canonicalText, hnow]
    rfl
  have hkey : chainMiners.keys.map row = (StoredRecord.miner m).key := by
    have haccount : row (snake "accountId") = .text m.accountId :=
      row_text miners_described.entry_name hrow (miner_lookups now m).1 (.inl miners_paths.1)
    rw [(spelled ("accountId", "account_id") (by simp [spellings])).1] at haccount
    show [row "account_id"] = [.text m.accountId]
    rw [haccount]
  have hwrite : Tx.exec (writeChainMiner E now m) s = .ok (1, s.setRows chainMiners
      ((s.rows chainMiners.name).put (StoredRecord.miner m).key row)) := by
    rw [writeChainMiner, exec_upsertMap_new hargs hrow (by rw [hkey]; exact hfresh), hkey]
  show Tx.exec (writeChainMiner E now m >>= fun _ => pure ()) s = _
  rw [Tx.exec_bind, hwrite]
  rfl

/-- A selected column that the table does not have is read as `NULL`. -/
theorem member_of_undeclared {t : Table} {args : List (String × JsonValue)} {row : Row}
    {columns : List String} {n : String} (hrow : insertRow E t args = .ok row)
    (hmem : snake n ∈ columns) (hc : t.column? (snake n) = none) :
    member E columns row n = some .null := by
  rw [member, if_pos hmem, columnValue, row_of_undeclared hrow hc]
  rfl

theorem decode_miner {m : ChainMinerRecord} (hnow : E.canonical now = .ok now) {row : Row}
    (hrow : insertRow E chainMiners (columnsOf (storedMiner.entries (now, m))) = .ok row) :
    decodeRecord E ChainMinerRecord.fields
      (chainMiners.all ++ ["hardware", "telemetry_node_address"]) row =
        .ok { m with telemetryNodeAddress := none, hardware := none } := by
  have hnames := miners_described.entry_name (s := (now, m))
  have hall : ∀ c ∈ chainMiners.columns,
      c.name ∈ chainMiners.all ++ ["hardware", "telemetry_node_address"] :=
    fun _ h => List.mem_append_left _ (List.mem_map_of_mem h)
  obtain ⟨p₁, p₂, p₃, p₄, p₅, p₆⟩ := miners_paths
  obtain ⟨hl₁, hl₂, hl₃, hl₄, hl₅, hl₆⟩ := miner_lookups now m
  have h₁ := member_of_trip hnames hrow hall hl₁ (trip_text p₁ _)
  have h₂ := member_of_trip hnames hrow hall hl₂ (trip_decimal p₂ _)
  have h₃ := member_of_trip hnames hrow hall hl₃ (trip_decimal p₃ _)
  have h₄ := member_of_trip hnames hrow hall hl₄ (trip_decimal p₄ _)
  have h₅ := member_of_trip hnames hrow hall hl₅ (trip_decimal p₅ _)
  have h₆ := member_of_trip hnames hrow hall hl₆
    (by rw [trip_instant p₆, hnow]; rfl : _ = some (.string now))
  -- the last two columns come from a join, and the record has nothing there
  have htelemetry : snake "telemetryNodeAddress" = "telemetry_node_address" :=
    (spelled ("telemetryNodeAddress", "telemetry_node_address") (by simp [spellings])).1
  have hhardware : snake "hardware" = "hardware" :=
    (spelled ("hardware", "hardware") (by simp [spellings])).1
  have h₇ : member E (chainMiners.all ++ ["hardware", "telemetry_node_address"]) row
      "telemetryNodeAddress" = some .null :=
    member_of_undeclared hrow (by rw [htelemetry]; simp) (by
      rw [htelemetry]
      simp [chainMiners, Table.column?])
  have h₈ : member E (chainMiners.all ++ ["hardware", "telemetry_node_address"]) row
      "hardware" = some .null :=
    member_of_undeclared hrow (by rw [hhardware]; simp) (by
      rw [hhardware]
      simp [chainMiners, Table.column?])
  have hcolumns : ∀ column ∈ chainMiners.all ++ ["hardware", "telemetry_node_address"],
      ∃ e ∈ spellings, e.2 = column ∧ e.1 ∈ ["accountId", "deposit", "proofsSubmitted",
        "proofsWon", "rewardsEarned", "updatedAt", "telemetryNodeAddress", "hardware"] := by
    simp [chainMiners, Table.all, spellings]
  have hspelled : ∀ n ∈ ChainMinerRecord.fields.names, n ∈ spellings.map Prod.fst := by
    simp [ChainMinerRecord.fields, spellings]
  refine decodeRecord_of_members
    (s := { m with telemetryNodeAddress := none, hardware := none }) hcolumns hspelled
    (fun n hn => ?_) ?_
  · simp only [List.mem_cons, List.not_mem_nil, or_false] at hn
    rcases hn with rfl | rfl | rfl | rfl | rfl | rfl | rfl | rfl
    · rw [h₁, Option.isSome_some]
    · rw [h₂, Option.isSome_some]
    · rw [h₃, Option.isSome_some]
    · rw [h₄, Option.isSome_some]
    · rw [h₅, Option.isSome_some]
    · rw [h₆, Option.isSome_some]
    · rw [h₇, Option.isSome_some]
    · rw [h₈, Option.isSome_some]
  · simp only [ChainMinerRecord.fields, Fields.agrees_member, Fields.agrees_start, true_and,
      and_assoc, h₁, h₂, h₃, h₄, h₅, h₇, h₈]
    exact ⟨rfl, (Member.required decimalCodec).decode_encode _,
      (Member.required decimalCodec).decode_encode _,
      (Member.required decimalCodec).decode_encode _,
      (Member.required decimalCodec).decode_encode _, rfl, rfl⟩

/-- **Every miner is read back**, without what the API joins. -/
theorem miner_roundTrips (hg : s.genesis = some g) (hnow : E.canonical now = .ok now)
    {m : ChainMinerRecord} (hfresh : (StoredRecord.miner m).Fresh s) :
    (StoredRecord.miner m).RoundTrips E now s := by
  have halways : ∀ n ∈ storedMiner.names, n ∈ storedMiner.always := fun _ h => h
  obtain ⟨row, hrow⟩ := miners_described.insertRow_isOk (E := E) (s := (now, m))
    fun e he => halways _ (storedMiner.entries_names _ e he)
  have hread : (StoredRecord.miner m).readBack E (s.setRows chainMiners
      ((s.rows chainMiners.name).put (StoredRecord.miner m).key row)) =
      ((decodeRecord E ChainMinerRecord.fields
        (chainMiners.all ++ ["hardware", "telemetry_node_address"]) row).map some).map
        (Option.map StoredRecord.miner) := by
    rw [← readRow_put]
    rfl
  rw [roundTrips_iff_decode (fun _ _ h => StoredRecord.miner.inj h) hg hfresh
    (exec_put_miner hnow hfresh hrow) rfl hread]
  exact decode_miner hnow hrow

end

/-! ### Authorship -/

section

variable {E : Conversions} {now g : String} {s : RowStore}

theorem iso_ok {seconds : UInt64} {time : String} (h : iso E seconds = .ok time) :
    seconds.toNat ≤ i64Max ∧ E.ofSeconds (Int64.ofInt seconds.toNat) = some time := by
  unfold iso at h
  split at h
  · rename_i hle
    cases ht : E.ofSeconds (Int64.ofInt seconds.toNat) with
    | none => rw [ht] at h; cases h
    | some t =>
      rw [ht] at h
      cases h
      exact ⟨hle, rfl⟩
  · cases h

theorem authorship_columns (row : AuthorshipRow) :
    columnsOf (AuthorshipRow.fields.entries row) =
      [("validator", .string row.validator),
        ("block_number", decimalCodec.encode row.blockNumber),
        ("timestamp", .string row.timestamp), ("had_winner", .bool row.hadWinner)] := by
  have h₁ : snake "validator" = "validator" :=
    (spelled ("validator", "validator") (by simp [spellings])).1
  have h₂ : snake "blockNumber" = "block_number" :=
    (spelled ("blockNumber", "block_number") (by simp [spellings])).1
  have h₃ : snake "timestamp" = "timestamp" :=
    (spelled ("timestamp", "timestamp") (by simp [spellings])).1
  have h₄ : snake "hadWinner" = "had_winner" :=
    (spelled ("hadWinner", "had_winner") (by simp [spellings])).1
  show [(snake "validator", _), (snake "blockNumber", _), (snake "timestamp", _),
    (snake "hadWinner", _)] = _
  rw [h₁, h₂, h₃, h₄]
  rfl

theorem authorship_isTimestamp :
    validatorAuthorshipBlocks.isTimestamp "timestamp" = true ∧
      ∀ column ∈ ["validator", "block_number", "had_winner"],
        validatorAuthorshipBlocks.isTimestamp column = false := by
  simp [Table.isTimestamp, validatorAuthorshipBlocks, kind, numericColumns, doubleColumns,
    bigintColumns, integerColumns, booleanColumns, timestampColumns, jsonColumns]

/-- A row of authorship is written as it is if its time is in canonical form, and not at all
if that is no timestamp. -/
theorem authorship_arguments (row : AuthorshipRow) :
    (E.canonical row.timestamp = .ok row.timestamp →
      arguments E validatorAuthorshipBlocks (columnsOf (AuthorshipRow.fields.entries row)) =
        .ok (columnsOf (AuthorshipRow.fields.entries row))) ∧
    ∀ e, E.canonical row.timestamp = .error e →
      ∃ e', arguments E validatorAuthorshipBlocks
        (columnsOf (AuthorshipRow.fields.entries row)) = .error e' := by
  obtain ⟨htimestamp, hplain⟩ := authorship_isTimestamp
  rw [authorship_columns]
  constructor
  · intro hc
    refine arguments_eq_self fun e he => ?_
    simp only [List.mem_cons, List.not_mem_nil, or_false] at he
    rcases he with rfl | rfl | rfl | rfl
    · exact argument_of_plain (hplain _ (by simp))
    · exact argument_of_plain (hplain _ (by simp))
    · rw [argument_of_timestamp htimestamp, canonicalText, hc]
      rfl
    · exact argument_of_plain (hplain _ (by simp))
  · intro err hc
    have herror : argument E validatorAuthorshipBlocks "timestamp" (.string row.timestamp) =
        .error (.invalid err) := by
      rw [argument_of_timestamp htimestamp, canonicalText, hc]
      rfl
    exact arguments_error (e := ("timestamp", .string row.timestamp)) (by simp) herror

theorem authorship_key {row : AuthorshipRow} {r : Row}
    (hrow : insertRow E validatorAuthorshipBlocks
      (columnsOf (AuthorshipRow.fields.entries row)) = .ok r) :
    validatorAuthorshipBlocks.keys.map r =
      [.text row.validator, .text (decimalText row.blockNumber)] := by
  have hlookup : JsonValue.lookup "validator" (AuthorshipRow.fields.entries row) =
        some (.string row.validator) ∧
      JsonValue.lookup "blockNumber" (AuthorshipRow.fields.entries row) =
        some (decimalCodec.encode row.blockNumber) := by
    simp only [AuthorshipRow.fields, Fields.lookup_member, Fields.lookup_start, String.reduceEq,
      if_false, if_true, Option.none_or]
    exact ⟨rfl, rfl⟩
  have hvalidator : r (snake "validator") = .text row.validator :=
    row_text authorship_described.entry_name hrow hlookup.1 (.inl authorship_paths.1)
  have hnumber : r (snake "blockNumber") = .text (decimalText row.blockNumber) :=
    row_text authorship_described.entry_name hrow hlookup.2 (.inr authorship_paths.2.1)
  rw [(spelled ("validator", "validator") (by simp [spellings])).1] at hvalidator
  rw [(spelled ("blockNumber", "block_number") (by simp [spellings])).1] at hnumber
  show [r "validator", r "block_number"] = _
  rw [hvalidator, hnumber]

theorem authorship_survives (row : AuthorshipRow) :
    AuthorshipRow.fields.survives (trip E validatorAuthorshipBlocks) row := by
  obtain ⟨p₁, p₂, p₃, p₄⟩ := authorship_paths
  have htime : trip E validatorAuthorshipBlocks "timestamp" (.string row.timestamp) =
      some (.string row.timestamp) := by
    rw [trip, p₃]
    rfl
  simp only [AuthorshipRow.fields, Fields.survives_member, Fields.survives_start, true_and,
    and_assoc]
  exact ⟨text_survives p₁ _, decimal_survives p₂ _, required_survives_same htime,
    flag_survives p₄ _⟩

/-- The time of a row in its canonical form is that of the fact. -/
theorem record_of_row (hE : E.Documented) {a : AuthorshipRecord} {time : String}
    (hiso : iso E a.timestamp = .ok time) (htime : E.canonical time = .ok time) :
    AuthorshipRow.record E ⟨a.accountId, a.blockNumber, time, a.hadWinner⟩ = .ok a := by
  obtain ⟨hle, hof⟩ := iso_ok hiso
  have hsecond := hE.seconds_ofSeconds hof htime
  have hrange : -2 ^ 63 ≤ (a.timestamp.toNat : ℤ) ∧ (a.timestamp.toNat : ℤ) < 2 ^ 63 := by
    have hmax : i64Max = 2 ^ 63 - 1 := rfl
    omega
  have hback : UInt64.ofNat (Int64.ofInt a.timestamp.toNat).toInt.toNat = a.timestamp := by
    rw [Int64.toInt_ofInt_of_le hrange.1 hrange.2, Int.toNat_natCast, UInt64.ofNat_toNat]
  rw [AuthorshipRow.record, canonicalText, htime]
  show (E.seconds time).mapError StoreError.invalid >>= _ = _
  rw [hsecond]
  show Except.ok (AuthorshipRecord.mk _ _ _ _) = _
  rw [hback]

/-- **Every authorship that is accepted is read back.** -/
theorem authorship_roundTrips (hE : E.Documented) (hg : s.genesis = some g)
    {a : AuthorshipRecord} (hfresh : (StoredRecord.authorship a).Fresh s) :
    (StoredRecord.authorship a).RoundTrips E now s := by
  cases hput : Tx.exec ((StoredRecord.authorship a).put E now) s with
  | error e => exact StoredRecord.roundTrips_of_put_error hg hput
  | ok p =>
    obtain ⟨⟨⟩, s'⟩ := p
    obtain ⟨n, t, hwrite, hend⟩ := Tx.exec_bind_ok.mp
      (show Tx.exec (writeAuthorship E a >>= fun _ => pure ()) s = _ from hput)
    cases hend
    obtain ⟨_, -, hrest⟩ := Tx.exec_readM_bind_ok.mp hwrite
    obtain ⟨time, hiso, hupsert⟩ := Tx.exec_ofExcept_bind_ok.mp hrest
    -- the insert went through, so that the time is in its canonical form
    have htime : E.canonical time = .ok time := by
      cases hc : E.canonical time with
      | error e =>
        obtain ⟨e', hargs⟩ := (authorship_arguments
          ⟨a.accountId, a.blockNumber, time, a.hadWinner⟩).2 e hc
        rw [upsert, exec_upsertMap_error hargs] at hupsert
        cases hupsert
      | ok c => rw [hE.canonical_ofSeconds (iso_ok hiso).2 hc]
    have halways : ∀ n ∈ AuthorshipRow.fields.names, n ∈ AuthorshipRow.fields.always := fun _ h => h
    have hmembers : Members AuthorshipRow.fields validatorAuthorshipBlocks := by
      have h := spelled
      simp only [spellings, List.forall_mem_cons] at h
      exact .of_spelled authorship_described
        (by simp [AuthorshipRow.fields, validatorAuthorshipBlocks, Table.all, h])
    obtain ⟨row, hrow⟩ := authorship_described.insertRow_isOk (E := E)
      (s := ⟨a.accountId, a.blockNumber, time, a.hadWinner⟩)
      fun e he => halways _ (AuthorshipRow.fields.entries_names _ e he)
    have hkey := authorship_key hrow
    rw [upsert, exec_upsertMap_new ((authorship_arguments _).1 htime) hrow
      (by rw [hkey]; exact hfresh), hkey] at hupsert
    cases hupsert
    have hdecode := (authorship_described.decodeRecord_iff hrow (fun _ _ => rfl) hmembers.other
      fun look h => AuthorshipRow.agrees_of_decode h).mpr (authorship_survives _)
    refine (StoredRecord.roundTrips_of_put hg hfresh hput).mpr ⟨_, rfl, ?_⟩
    show (readRow E AuthorshipRow.fields validatorAuthorshipBlocks.all validatorAuthorshipBlocks
      [.text a.accountId, .text (decimalText a.blockNumber)] _ >>= _) = _
    rw [readRow_put, hdecode]
    show (AuthorshipRow.record E ⟨a.accountId, a.blockNumber, time, a.hadWinner⟩).map
      (fun a => some (StoredRecord.authorship a)) = _
    rw [record_of_row hE hiso htime]
    rfl

end

/-! ### All records -/

/-- Whether the columns of a record hold it: no `u64` that goes into an integer column is
above `i64::MAX`, and the canonical form of its time is a timestamp in canonical form. -/
def StoredRecord.Fits (E : Conversions) : StoredRecord → Prop
  | winner b => b.timestamp.toNat ≤ i64Max ∧ b.numValidSolutions.toNat ≤ i64Max
  | descriptor r => ∀ c, E.canonical r.observedAt = .ok c →
    r.blockTimestamp.toNat ≤ i64Max ∧ E.canonical c = .ok c
  | hardware h => ∀ c, E.canonical h.observedAt = .ok c → E.canonical c = .ok c
  | submission r => r.chainOnly = none → ∀ c, E.canonical r.observedAt = .ok c →
    r.numValid.toNat ≤ i64Max ∧ E.canonical c = .ok c
  | _ => True

section

variable {E : Conversions} {now : String} {s : RowStore} {r : StoredRecord}

/-- **A write fails and changes nothing, or its new row is read back as the record that was
written, exactly when the record fits its columns** (or the store has no network, or the row
is not new). -/
theorem record_roundTrips_iff (hE : E.Documented)
    (hdoc : ∀ j ∈ r.documents, E.parseJson (E.jsonText j) = .ok j)
    (hnow : E.canonical now = .ok now) :
    r.RoundTrips E now s ↔ s.genesis = none ∨ ¬r.Fresh s ∨ r.Fits E := by
  cases hg : s.genesis with
  | none =>
    refine iff_of_true (StoredRecord.roundTrips_of_error fun s' hw => ?_) (.inl rfl)
    rw [StoredRecord.write_unbound hg] at hw
    cases hw
  | some g =>
    by_cases hfresh : r.Fresh s
    · have hfits : r.RoundTrips E now s ↔ r.Fits E := by
        cases r with
        | winner b => exact winner_roundTrips hE hg hfresh
        | participant p => exact iff_of_true (participant_roundTrips hg hfresh) trivial
        | authorship a => exact iff_of_true (authorship_roundTrips hE hg hfresh) trivial
        | descriptor r => exact descriptor_roundTrips hg hdoc hfresh
        | miner m => exact iff_of_true (miner_roundTrips hg hnow hfresh) trivial
        | hardware h => exact hardware_roundTrips hg hdoc hfresh
        | submission r => exact submission_roundTrips hE hg hfresh
      rw [hfits]
      exact ⟨fun h => .inr (.inr h), fun h => by simpa [hfresh] using h⟩
    · exact iff_of_true (StoredRecord.roundTrips_of_stale hfresh) (.inr (.inl hfresh))

end

/-! ### A count beyond `i64` -/

/-- Conversions whose casts end at `i64::MAX`, and that read decimals and take each timestamp
to be in canonical form. -/
def plainConversions : Conversions where
  integerOfText s := (decimalCodec.decode (.string s)).elim 0 fun n => Int64.ofInt (min n i64Max)
  integerOfReal q := Int64.ofInt q.floor
  realOfText s := (decimalCodec.decode (.string s)).elim 0 fun n => n
  textOfReal q := toString q
  numericOfText s :=
    (decimalCodec.decode (.string s)).map fun n => .inl (Int64.ofInt (min n i64Max))
  nodeName _ := .null
  jsonText _ := "null"
  parseJson s :=
    (decimalCodec.decode (.string s)).elim (.error "expected value") fun n =>
      .ok (.number (.ofInt n))
  canonical := .ok
  ofSeconds _ := none
  seconds _ := .error "input contains invalid characters"

theorem plainConversions_documented : plainConversions.Documented where
  parse_decimal n _ := by
    have hread : decimalCodec.decode (.string (toString (n : ℤ))) = some n :=
      decimalCodec.decode_encode n
    show (decimalCodec.decode (.string (toString (n : ℤ)))).elim _ _ = _
    rw [hread]
    rfl
  canonical_ofSeconds h := by cases h
  seconds_ofSeconds h := by cases h

/-- A submission with this many valid solutions. -/
def counted (numValid : UInt64) : MiningSubmissionRecord where
  solutionNumber := 7
  minerId := "miner"
  minerType := "CPU"
  tsNs := 1
  energyMilli := -3
  diversityMilli := 250
  thresholdMilli := -2
  lastProofBlockHash := ""
  extrinsicHash := none
  chainBlockHash := none
  chainBlockNumber := none
  powSequence := none
  outcome := "accepted"
  attemptCount := 1
  bestEnergyMilli := -3
  numValid := numValid
  qpuAccessTimeUs := 0
  observedAt := "2026-01-01T00:00:00.000Z"
  chainOnly := none

/-- A store of a network, without rows. -/
def boundStore : RowStore := ⟨some "0x00", fun _ => .empty⟩

theorem counted_roundTrips :
    (StoredRecord.submission (counted 5)).RoundTrips plainConversions
      "2026-01-01T00:00:00.000Z" boundStore :=
  (record_roundTrips_iff plainConversions_documented (fun _ h => by cases h) rfl).mpr
    (.inr (.inr fun _ _ _ => ⟨by decide, rfl⟩))

/-- A count of `2 ^ 63` is accepted and read back as another. -/
theorem counted_not_roundTrips :
    ¬(StoredRecord.submission (counted 9223372036854775808)).RoundTrips plainConversions
      "2026-01-01T00:00:00.000Z" boundStore := by
  have hfresh : (StoredRecord.submission (counted 9223372036854775808)).Fresh boundStore := rfl
  have hbound : boundStore.genesis = some "0x00" := rfl
  rw [submission_roundTrips plainConversions_documented hbound hfresh]
  intro h
  exact absurd (h rfl _ rfl).1 (by decide)

end Dashboard.Turso

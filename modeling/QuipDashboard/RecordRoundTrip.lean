/-
Records that are written member by member.

A record that the store accepts under a new key is stored as a row, and the row is read back
as the record, but for a `u64` above `i64::MAX` in an integer column: it is bound as a text,
and the cast of the column turns it into some other number. A timestamp is read back if its
canonical form is a timestamp itself.

* `exec_upsertMap_new` — what an upsert does under a new key;
* `StoredRecord.RoundTrips` — a write fails and changes nothing, or its row is read back;
* `winner_roundTrips`, `hardware_roundTrips`, `submission_roundTrips`,
  `descriptor_roundTrips` — **when the rows of these records are read back**.
-/
import QuipDashboard.DescribedTables

namespace Dashboard.Turso

/-! ### An upsert under a new key -/

section

variable {E : Conversions} {t : Table} {object args : List (String × JsonValue)}
  {exclude : List String} {condition : Conflict} {s : RowStore} {row : Row}

theorem exec_upsertMap_new (hargs : arguments E t object = .ok args)
    (hrow : insertRow E t args = .ok row) (hnew : (s.rows t.name).get? (t.keys.map row) = none) :
    Tx.exec (upsertMap E t object exclude condition) s =
      .ok (1, s.setRows t ((s.rows t.name).put (t.keys.map row) row)) := by
  rw [upsertMap, hargs]
  show Tx.exec (Tx.ofExcept (insertRow E t args) >>= _) s = _
  rw [hrow]
  show Except.ok _ = _
  rw [KeyedTable.upsert_of_none hnew]

theorem exec_upsertMap_error {e : StoreError} (hargs : arguments E t object = .error e) :
    Tx.exec (upsertMap E t object exclude condition) s = .error e := by
  rw [upsertMap, hargs]
  rfl

theorem exec_upsertMap_rejected {e : StoreError} (hargs : arguments E t object = .ok args)
    (hrow : insertRow E t args = .error e) :
    Tx.exec (upsertMap E t object exclude condition) s = .error e := by
  rw [upsertMap, hargs]
  show Tx.exec (Tx.ofExcept (insertRow E t args) >>= _) s = _
  rw [hrow]
  rfl

/-- What is mapped under its key keeps the key. -/
theorem mapM_key {κ β γ ε : Type} {f : κ × β → Except ε γ} {l : List (κ × β)}
    {out : List (κ × γ)} (h : l.mapM (fun e => (f e).map (e.1, ·)) = .ok out) :
    ∀ e ∈ l, ∃ e' ∈ out, e'.1 = e.1 := by
  intro e he
  obtain ⟨e', he', hf⟩ := (Except.mapM_mem h).1 e he
  refine ⟨e', he', ?_⟩
  cases hfe : f e with
  | error er => rw [hfe] at hf; cases hf
  | ok c => rw [hfe] at hf; cases hf; rfl

/-- A column that is not declared. -/
theorem exec_upsertMap_undeclared {e : String × JsonValue} (he : e ∈ object)
    (hnone : t.column? e.1 = none) :
    ∃ err, Tx.exec (upsertMap E t object exclude condition) s = .error err := by
  cases hargs : arguments E t object with
  | error err => exact ⟨err, exec_upsertMap_error hargs⟩
  | ok args =>
    cases hrow : insertRow E t args with
    | error err => exact ⟨err, exec_upsertMap_rejected hargs hrow⟩
    | ok row =>
      obtain ⟨bound, hbound, hdeclared, -⟩ := insertRow_ok hrow
      obtain ⟨e', he', hkey'⟩ := mapM_key (f := fun e => argument E t e.1 e.2) hargs e he
      obtain ⟨e'', he'', hkey''⟩ := mapM_key (f := fun e => values E e.2) hbound e' he'
      obtain ⟨c, hc⟩ := hdeclared e'' he''
      rw [hkey'', hkey', hnone] at hc
      cases hc

theorem readRow_put {S R : Type} {F : Fields S R} {columns : List String} {key : List SqlValue} :
    readRow E F columns t key (s.setRows t ((s.rows t.name).put key row)) =
      (decodeRecord E F columns row).map some := by
  rw [readRow, RowStore.rows_setRows, KeyedTable.get?_put_self]

end

/-! ### Round trips -/

namespace StoredRecord

/-- No row has the key of the record yet. -/
def Fresh (r : StoredRecord) (s : RowStore) : Prop := (s.rows r.table.name).get? r.key = none

/-- The write fails and changes nothing, or the new row is read back as the record that was
written. -/
def RoundTrips (E : Conversions) (now : String) (s : RowStore) (r : StoredRecord) : Prop :=
  match r.write E now s with
  | (.error _, s') => s' = s
  | (.ok (), s') => r.Fresh s → ∃ w, r.written E = .ok w ∧ r.readBack E s' = .ok (some w)

section

variable {E : Conversions} {now : String} {s s' : RowStore} {r : StoredRecord}

theorem roundTrips_of_error (h : ∀ s', r.write E now s ≠ (.ok (), s')) :
    RoundTrips E now s r := by
  unfold RoundTrips
  rcases hw : r.write E now s with ⟨⟨e⟩ | ⟨⟨⟩⟩, s'⟩
  · exact Tx.write_error hw
  · exact absurd hw (h s')

/-- An update of a row that is there already. -/
theorem roundTrips_of_stale (h : ¬r.Fresh s) : RoundTrips E now s r := by
  unfold RoundTrips
  rcases hw : r.write E now s with ⟨⟨e⟩ | ⟨⟨⟩⟩, s'⟩
  · exact Tx.write_error hw
  · exact fun hfresh => absurd hfresh h

theorem write_unbound (hg : s.genesis = none) : r.write E now s = (.error .networkIdentity, s) := by
  rw [write, Tx.write]
  have hx : Tx.exec (do
      let _ ← Tx.readM RowStore.requireBound
      r.put E now
      return Finish.commit ()) s = .error .networkIdentity := by
    rw [Tx.exec_bind, Tx.exec_readM, RowStore.requireBound, hg]
    rfl
  rw [hx]

theorem write_bound {g : String} (hg : s.genesis = some g) :
    r.write E now s =
      match Tx.exec (r.put E now) s with
      | .ok ((), s') => (.ok (), s')
      | .error e => (.error e, s) := by
  have hx : Tx.exec (do
      let _ ← Tx.readM RowStore.requireBound
      r.put E now
      return Finish.commit ()) s = (Tx.exec (r.put E now) s).map fun p => (.commit (), p.2) := by
    rw [Tx.exec_bind, Tx.exec_readM, RowStore.requireBound, hg]
    show Tx.exec (r.put E now >>= fun _ => pure (Finish.commit ())) s = _
    rw [Tx.exec_bind]
    cases Tx.exec (r.put E now) s <;> rfl
  rw [write, Tx.write, hx]
  cases Tx.exec (r.put E now) s <;> rfl

theorem roundTrips_of_put_error {g : String} (hg : s.genesis = some g) {e : StoreError}
    (h : Tx.exec (r.put E now) s = .error e) : RoundTrips E now s r := by
  refine roundTrips_of_error fun s' hw => ?_
  rw [write_bound hg, h] at hw
  cases hw

/-- A record that is put in place under a new key. -/
theorem roundTrips_of_put {g : String} (hg : s.genesis = some g) (hfresh : r.Fresh s)
    (h : Tx.exec (r.put E now) s = .ok ((), s')) :
    RoundTrips E now s r ↔ ∃ w, r.written E = .ok w ∧ r.readBack E s' = .ok (some w) := by
  rw [RoundTrips, write_bound hg, h]
  exact forall_prop_of_true hfresh

end

end StoredRecord

/-- A record that is put in place as a row, and read from that under its constructor. -/
theorem roundTrips_iff_decode {E : Conversions} {now g : String} {s s' : RowStore}
    {r : StoredRecord} {S R : Type} {F : Fields S R} {columns : List String} {row : Row} {w : R}
    {kind : R → StoredRecord} (hkind : ∀ a b, kind a = kind b → a = b) (hg : s.genesis = some g)
    (hfresh : r.Fresh s) (hput : Tx.exec (r.put E now) s = .ok ((), s'))
    (hwritten : r.written E = .ok (kind w))
    (hread : r.readBack E s' = ((decodeRecord E F columns row).map some).map (Option.map kind)) :
    r.RoundTrips E now s ↔ decodeRecord E F columns row = .ok w := by
  rw [StoredRecord.roundTrips_of_put hg hfresh hput, hwritten, hread]
  constructor
  · rintro ⟨w', hw, hd⟩
    cases hw
    cases hrow : decodeRecord E F columns row with
    | error e => rw [hrow] at hd; cases hd
    | ok r' =>
      rw [hrow] at hd
      exact congrArg _ (hkind _ _ (Option.some.inj (Except.ok.inj hd)))
  · intro hd
    rw [hd]
    exact ⟨kind w, rfl, rfl⟩

/-! ### Winners -/

section

variable {E : Conversions} {now g : String} {s : RowStore}

theorem winner_survives (hE : E.Documented) (b : BlockRecord) :
    BlockRecord.fields.survives (trip E blocks) b ↔
      b.timestamp.toNat ≤ i64Max ∧ b.numValidSolutions.toNat ≤ i64Max := by
  obtain ⟨p₁, p₂, p₃, p₄, p₅, p₆, p₇, p₈, p₉, p₁₀, p₁₁, p₁₂, p₁₃, p₁₄, p₁₅, p₁₆, p₁₇, p₁₈, p₁₉,
    p₂₀, p₂₁⟩ := blocks_paths
  simp only [BlockRecord.fields, Fields.survives_member, Fields.survives_start, true_and,
    and_assoc, u64_survives (.inr rfl) p₅, u64_survives (.inl rfl) p₉]
  constructor
  · rintro ⟨-, -, -, -, h₁, -, -, -, h₂, -⟩
    exact ⟨h₁, h₂⟩
  · rintro ⟨h₁, h₂⟩
    exact ⟨text_survives p₁ _, decimal_survives p₂ _, text_survives p₃ _, text_survives p₄ _, h₁,
      text_survives p₆ _, double_survives p₇ _, double_survives p₈ _, h₂, double_survives p₁₀ _,
      nullable_apiNumber_survives hE p₁₁ _, decimal_survives p₁₂ _, decimal_survives p₁₃ _,
      decimal_survives p₁₄ _, u32_survives (.inl rfl) p₁₅ _, u32_survives (.inl rfl) p₁₆ _,
      double_survives p₁₇ _, double_survives p₁₈ _, u32_survives (.inl rfl) p₁₉ _,
      flag_survives p₂₀ _, nullable_text_survives p₂₁ _⟩

theorem exec_put_winner {b : BlockRecord} (hfresh : (StoredRecord.winner b).Fresh s) {row : Row}
    (hrow : insertRow E blocks (columnsOf (BlockRecord.fields.entries b)) = .ok row) :
    Tx.exec ((StoredRecord.winner b).put E now) s =
      .ok ((), s.setRows blocks ((s.rows blocks.name).put (StoredRecord.winner b).key row)) := by
  have hplain : Plain BlockRecord.fields blocks := by
    have h := spelled
    simp only [spellings, List.forall_mem_cons] at h
    apply Plain.of_spelled <;> simp [BlockRecord.fields, blocks, spellings, timestampColumns, h]
  have hkey : blocks.keys.map row = (StoredRecord.winner b).key := by
    have hlookup : JsonValue.lookup "blockHash" (BlockRecord.fields.entries b) =
        some (.string b.blockHash.text) := by
      simp only [BlockRecord.fields, Fields.lookup_member, Fields.lookup_start, String.reduceEq,
        if_false, if_true, Option.none_or]
      rfl
    have hhash : row (snake "blockHash") = .text b.blockHash.text :=
      row_text blocks_described.entry_name hrow hlookup (.inl blocks_paths.1)
    rw [(spelled ("blockHash", "block_hash") (by simp [spellings])).1] at hhash
    show [row "block_hash"] = [.text b.blockHash.text]
    rw [hhash]
  have hread : readRow E BlockRecord.fields blocks.all blocks [.text b.blockHash.text] s =
      .ok (none : Option BlockRecord) := by
    rw [readRow, show (s.rows blocks.name).get? [.text b.blockHash.text] = none from hfresh]
  have hwrite : Tx.exec (writeWinner E b) s =
      .ok (1, s.setRows blocks ((s.rows blocks.name).put (StoredRecord.winner b).key row)) := by
    rw [writeWinner, Tx.exec_bind, Tx.exec_readM, hread]
    simp only [Except.map, Except.bind]
    rw [upsert, exec_upsertMap_new hplain.keeps hrow (by rw [hkey]; exact hfresh), hkey]
  show Tx.exec (writeWinner E b >>= fun _ => pure ()) s = _
  rw [Tx.exec_bind, hwrite]
  rfl

theorem winner_roundTrips (hE : E.Documented) (hg : s.genesis = some g) {b : BlockRecord}
    (hfresh : (StoredRecord.winner b).Fresh s) :
    StoredRecord.RoundTrips E now s (.winner b) ↔
      b.timestamp.toNat ≤ i64Max ∧ b.numValidSolutions.toNat ≤ i64Max := by
  have halways : ∀ n ∈ BlockRecord.fields.names, n ∈ BlockRecord.fields.always := fun _ h => h
  obtain ⟨row, hrow⟩ := blocks_described.insertRow_isOk (E := E) (s := b)
    fun e he => halways _ (BlockRecord.fields.entries_names b e he)
  have hmembers : Members BlockRecord.fields blocks := by
    have h := spelled
    simp only [spellings, List.forall_mem_cons] at h
    exact .of_spelled blocks_described (by simp [BlockRecord.fields, blocks, Table.all, h])
  have hread : (StoredRecord.winner b).readBack E (s.setRows blocks ((s.rows blocks.name).put
      (StoredRecord.winner b).key row)) =
      ((decodeRecord E BlockRecord.fields blocks.all row).map some).map
        (Option.map StoredRecord.winner) := by
    rw [← readRow_put]
    rfl
  rw [roundTrips_iff_decode (fun _ _ h => StoredRecord.winner.inj h) hg hfresh
      (exec_put_winner hfresh hrow) rfl hread, ← winner_survives hE b]
  exact blocks_described.decodeRecord_iff hrow (fun _ _ => rfl) hmembers.other
    fun look h => BlockRecord.agrees_of_decode h

end

/-! ### Records with the time of an observation -/

section

variable {E : Conversions} {t : Table} {S R A : Type} {F : Fields S R} {G : Fields S (String → A)}
  {r r' : S} {o c : String} {exclude : List String} {condition : Conflict} {s : RowStore}
  {row : Row}

/-- The record is written with the canonical form of its time. -/
theorem exec_upsert_observed (hplain : Plain G t) (ht : t.isTimestamp (snake "observedAt") = true)
    (hr : F.entries r = G.entries r ++ Fields.entry "observedAt" (some (.string o)))
    (hr' : F.entries r' = G.entries r ++ Fields.entry "observedAt" (some (.string c)))
    (hc : E.canonical o = .ok c) (hrow : insertRow E t (columnsOf (F.entries r')) = .ok row)
    (hnew : (s.rows t.name).get? (t.keys.map row) = none) :
    Tx.exec (upsert E t F r exclude condition) s =
      .ok (1, s.setRows t ((s.rows t.name).put (t.keys.map row) row)) := by
  refine exec_upsertMap_new ?_ hrow hnew
  rw [hr, hplain.keeps_time ht, canonicalText, hc, hr']
  rfl

theorem exec_upsert_unobserved (hplain : Plain G t) (ht : t.isTimestamp (snake "observedAt") = true)
    (hr : F.entries r = G.entries r ++ Fields.entry "observedAt" (some (.string o)))
    {e : String} (hc : E.canonical o = .error e) :
    Tx.exec (upsert E t F r exclude condition) s = .error (.invalid e) := by
  refine exec_upsertMap_error ?_
  rw [hr, hplain.keeps_time ht, canonicalText, hc]
  rfl

end

/-! ### Hardware -/

section

variable {E : Conversions} {now g : String} {s : RowStore}

theorem hardware_plain : Plain MinerHardwareRecord.facts minerHardware := by
  have h := spelled
  simp only [spellings, List.forall_mem_cons] at h
  apply Plain.of_spelled <;>
    simp [MinerHardwareRecord.facts, minerHardware, spellings, timestampColumns, h]

theorem hardware_survives {h : MinerHardwareRecord} {c : String}
    (hdoc : ∀ j ∈ (StoredRecord.hardware h).documents, E.parseJson (E.jsonText j) = .ok j) :
    MinerHardwareRecord.fields.survives (trip E minerHardware) { h with observedAt := c } ↔
      E.canonical c = .ok c := by
  obtain ⟨p₁, p₂, p₃, p₄, p₅, p₆⟩ := hardware_paths
  simp only [MinerHardwareRecord.fields, MinerHardwareRecord.facts, Fields.survives_member,
    Fields.survives_start, true_and, and_assoc, instant_survives p₆]
  constructor
  · rintro ⟨-, -, -, -, -, hc⟩
    exact hc
  · intro hc
    exact ⟨text_survives p₁ _, text_survives p₂ _,
      document_survives p₃ rfl (hdoc _ (List.mem_singleton.mpr rfl)), text_survives p₄ _,
      text_survives p₅ _, hc⟩

theorem exec_put_hardware {h : MinerHardwareRecord} {c : String}
    (hfresh : (StoredRecord.hardware h).Fresh s) (hc : E.canonical h.observedAt = .ok c) {row : Row}
    (hrow : insertRow E minerHardware
      (columnsOf (MinerHardwareRecord.fields.entries { h with observedAt := c })) = .ok row) :
    Tx.exec ((StoredRecord.hardware h).put E now) s =
      .ok ((), s.setRows minerHardware
        ((s.rows minerHardware.name).put (StoredRecord.hardware h).key row)) := by
  have hkey : minerHardware.keys.map row = (StoredRecord.hardware h).key := by
    have hlookup : JsonValue.lookup "accountId"
        (MinerHardwareRecord.fields.entries { h with observedAt := c }) =
        some (.string h.accountId) := by
      simp only [MinerHardwareRecord.fields, MinerHardwareRecord.facts, Fields.lookup_member,
        Fields.lookup_start, String.reduceEq, if_false, if_true, Option.none_or]
      rfl
    have haccount : row (snake "accountId") = .text h.accountId :=
      row_text hardware_described.entry_name hrow hlookup (.inl hardware_paths.1)
    rw [(spelled ("accountId", "account_id") (by simp [spellings])).1] at haccount
    show [row "account_id"] = [.text h.accountId]
    rw [haccount]
  have hwrite : Tx.exec (writeMinerHardware E h) s = .ok (1, s.setRows minerHardware
      ((s.rows minerHardware.name).put (StoredRecord.hardware h).key row)) := by
    rw [writeMinerHardware, exec_upsert_observed hardware_plain (isTimestamp_observedAt _) rfl rfl hc hrow
      (by rw [hkey]; exact hfresh), hkey]
  show Tx.exec (writeMinerHardware E h >>= fun _ => pure ()) s = _
  rw [Tx.exec_bind, hwrite]
  rfl

theorem hardware_roundTrips (hg : s.genesis = some g) {h : MinerHardwareRecord}
    (hdoc : ∀ j ∈ (StoredRecord.hardware h).documents, E.parseJson (E.jsonText j) = .ok j)
    (hfresh : (StoredRecord.hardware h).Fresh s) :
    (StoredRecord.hardware h).RoundTrips E now s ↔
      ∀ c, E.canonical h.observedAt = .ok c → E.canonical c = .ok c := by
  cases hc : E.canonical h.observedAt with
  | error e =>
    refine iff_of_true ?_ fun c h => by cases h
    refine StoredRecord.roundTrips_of_put_error hg (e := .invalid e) ?_
    show Tx.exec (writeMinerHardware E h >>= fun _ => pure ()) s = _
    rw [Tx.exec_bind, writeMinerHardware,
      exec_upsert_unobserved hardware_plain (isTimestamp_observedAt _) rfl hc]
    rfl
  | ok c =>
    have halways : ∀ n ∈ MinerHardwareRecord.fields.names,
        n ∈ MinerHardwareRecord.fields.always := fun _ h => h
    obtain ⟨row, hrow⟩ := hardware_described.insertRow_isOk (E := E)
      (s := { h with observedAt := c })
      fun e he => halways _ (MinerHardwareRecord.fields.entries_names _ e he)
    have hmembers : Members MinerHardwareRecord.fields minerHardware := by
      have h := spelled
      simp only [spellings, List.forall_mem_cons] at h
      exact .of_spelled hardware_described
        (by simp [MinerHardwareRecord.fields, MinerHardwareRecord.facts, minerHardware, Table.all, h])
    have hwritten : (StoredRecord.hardware h).written E =
        .ok (.hardware { h with observedAt := c }) := by
      rw [StoredRecord.written, canonicalText, hc]
      rfl
    have hread : (StoredRecord.hardware h).readBack E (s.setRows minerHardware
        ((s.rows minerHardware.name).put (StoredRecord.hardware h).key row)) =
        ((decodeRecord E MinerHardwareRecord.fields minerHardware.all row).map some).map
          (Option.map StoredRecord.hardware) := by
      rw [← readRow_put]
      rfl
    rw [roundTrips_iff_decode (fun _ _ h => StoredRecord.hardware.inj h) hg hfresh
      (exec_put_hardware hfresh hc hrow) hwritten hread]
    refine (hardware_described.decodeRecord_iff hrow (fun _ _ => rfl) hmembers.other
      fun look h => MinerHardwareRecord.agrees_of_decode h).trans ?_
    rw [hardware_survives hdoc]
    exact ⟨fun h _ hc => by cases hc; exact h, fun h => h c rfl⟩

end

/-! ### Submissions -/

section

variable {E : Conversions} {now g : String} {s : RowStore}

theorem submission_plain : Plain MiningSubmissionRecord.facts miningSubmissions := by
  have h := spelled
  simp only [spellings, List.forall_mem_cons] at h
  apply Plain.of_spelled <;>
    simp [MiningSubmissionRecord.facts, miningSubmissions, spellings, timestampColumns, h]

theorem submission_survives (hE : E.Documented) {r : MiningSubmissionRecord}
    (hchain : r.chainOnly = none) {c : String} :
    MiningSubmissionRecord.fields.survives (trip E miningSubmissions) { r with observedAt := c } ↔
      r.numValid.toNat ≤ i64Max ∧ E.canonical c = .ok c := by
  obtain ⟨p₁, p₂, p₃, p₄, p₅, p₆, p₇, p₈, p₉, p₁₀, p₁₁, p₁₂, p₁₃, p₁₄, p₁₅, p₁₆, p₁₇,
    p₁₈⟩ := submissions_paths
  simp only [MiningSubmissionRecord.fields, MiningSubmissionRecord.facts, Fields.survives_member,
    Fields.survives_start, true_and, and_assoc, u64_survives (.inl rfl) p₁₆, instant_survives p₁₈]
  constructor
  · rintro ⟨-, -, -, -, -, -, -, -, -, -, -, -, -, -, -, hnum, -, hc, -⟩
    exact ⟨hnum, hc⟩
  · rintro ⟨hnum, hc⟩
    refine ⟨apiNumber_survives hE p₁ _, text_survives p₂ _, text_survives p₃ _,
      decimal_survives p₄ _, i64_survives (.inr rfl) p₅ _, i64_survives (.inr rfl) p₆ _,
      i64_survives (.inr rfl) p₇ _, text_survives p₈ _, nullable_text_survives p₉ _,
      nullable_text_survives p₁₀ _, nullable_decimal_survives p₁₁ _,
      nullable_apiNumber_survives hE p₁₂ _, text_survives p₁₃ _, u32_survives (.inl rfl) p₁₄ _,
      i64_survives (.inr rfl) p₁₅ _, hnum, apiNumber_survives hE p₁₇ _, hc, ?_⟩
    rw [hchain]
    exact fun j hj => by cases hj

/-- What is written of a submission that is not marked. -/
theorem submission_entries {r : MiningSubmissionRecord} (hchain : r.chainOnly = none) (o : String) :
    MiningSubmissionRecord.fields.entries { r with observedAt := o } =
      MiningSubmissionRecord.facts.entries r ++ Fields.entry "observedAt" (some (.string o)) := by
  have hnone : Fields.entry "chainOnly" ((Member.skippable Codec.bool).encode r.chainOnly) =
      [] := by
    rw [hchain]
    rfl
  show (MiningSubmissionRecord.facts.entries r ++ Fields.entry "observedAt" (some (.string o))) ++
    Fields.entry "chainOnly" ((Member.skippable Codec.bool).encode r.chainOnly) = _
  rw [hnone, List.append_nil]

theorem exec_put_submission {r : MiningSubmissionRecord} (hchain : r.chainOnly = none) {c : String}
    (hfresh : (StoredRecord.submission r).Fresh s) (hc : E.canonical r.observedAt = .ok c)
    {row : Row}
    (hrow : insertRow E miningSubmissions
      (columnsOf (MiningSubmissionRecord.fields.entries { r with observedAt := c })) = .ok row) :
    Tx.exec ((StoredRecord.submission r).put E now) s =
      .ok ((), s.setRows miningSubmissions
        ((s.rows miningSubmissions.name).put (StoredRecord.submission r).key row)) := by
  have hkey : miningSubmissions.keys.map row = (StoredRecord.submission r).key := by
    have hminer : JsonValue.lookup "minerId"
        (MiningSubmissionRecord.fields.entries { r with observedAt := c }) =
        some (.string r.minerId) := by
      rw [submission_entries hchain]
      simp only [JsonValue.lookup_append, MiningSubmissionRecord.facts, Fields.lookup_member,
        Fields.lookup_start, String.reduceEq, if_false, if_true, Option.none_or]
      rfl
    have hnumber : JsonValue.lookup "solutionNumber"
        (MiningSubmissionRecord.fields.entries { r with observedAt := c }) =
        some (.number (.ofInt r.solutionNumber.toNat)) := by
      rw [submission_entries hchain]
      simp only [JsonValue.lookup_append, MiningSubmissionRecord.facts, Fields.lookup_member,
        Fields.lookup_start, String.reduceEq, if_false, if_true, Option.none_or]
      rfl
    have hid : row (snake "minerId") = .text r.minerId :=
      row_text submissions_described.entry_name hrow hminer (.inl submissions_paths.2.1)
    have hsolution : row (snake "solutionNumber") = .text (toString (r.solutionNumber.toNat : ℤ)) :=
      row_apiNumber submissions_described.entry_name hrow (u64_le _) hnumber submissions_paths.1
    rw [(spelled ("minerId", "miner_id") (by simp [spellings])).1] at hid
    rw [(spelled ("solutionNumber", "solution_number") (by simp [spellings])).1] at hsolution
    show [row "miner_id", row "solution_number"] = [.text r.minerId, .text _]
    rw [hid, hsolution]
  have hwrite : Tx.exec (writeMiningSubmission E r) s = .ok (1, s.setRows miningSubmissions
      ((s.rows miningSubmissions.name).put (StoredRecord.submission r).key row)) := by
    rw [writeMiningSubmission, exec_upsert_observed submission_plain (isTimestamp_observedAt _)
      (submission_entries hchain r.observedAt) (submission_entries hchain c) hc hrow
      (by rw [hkey]; exact hfresh), hkey]
  show Tx.exec (writeMiningSubmission E r >>= fun _ => pure ()) s = _
  rw [Tx.exec_bind, hwrite]
  rfl

/-- A submission that is marked as one of the chain has no column for the mark. -/
theorem submission_marked {r : MiningSubmissionRecord} (hchain : r.chainOnly ≠ none) :
    ∃ e, Tx.exec ((StoredRecord.submission r).put E now) s = .error e := by
  obtain ⟨b, hb⟩ := Option.ne_none_iff_exists'.mp hchain
  have hmem : (snake "chainOnly", JsonValue.bool b) ∈
      columnsOf (MiningSubmissionRecord.fields.entries r) := by
    refine List.mem_map.mpr ⟨("chainOnly", .bool b), List.mem_append_right _ ?_, rfl⟩
    exact Fields.mem_entry.mpr ⟨rfl, by rw [hb]; rfl⟩
  have hnone : miningSubmissions.column? (snake "chainOnly") = none := by
    rw [(spelled ("chainOnly", "chain_only") (by simp [spellings])).1]
    simp [miningSubmissions, Table.column?]
  have hwrite : ∃ e, Tx.exec (writeMiningSubmission E r) s = .error e :=
    exec_upsertMap_undeclared hmem hnone
  obtain ⟨e, he⟩ := hwrite
  refine ⟨e, ?_⟩
  show Tx.exec (writeMiningSubmission E r >>= fun _ => pure ()) s = _
  rw [Tx.exec_bind, he]
  rfl

theorem submission_roundTrips (hE : E.Documented) (hg : s.genesis = some g)
    {r : MiningSubmissionRecord} (hfresh : (StoredRecord.submission r).Fresh s) :
    (StoredRecord.submission r).RoundTrips E now s ↔
      (r.chainOnly = none → ∀ c, E.canonical r.observedAt = .ok c →
        r.numValid.toNat ≤ i64Max ∧ E.canonical c = .ok c) := by
  by_cases hchain : r.chainOnly = none
  · cases hc : E.canonical r.observedAt with
    | error e =>
      refine iff_of_true ?_ fun _ c h => by cases h
      refine StoredRecord.roundTrips_of_put_error hg (e := .invalid e) ?_
      show Tx.exec (writeMiningSubmission E r >>= fun _ => pure ()) s = _
      rw [Tx.exec_bind, writeMiningSubmission,
        exec_upsert_unobserved submission_plain (isTimestamp_observedAt _)
          (submission_entries hchain r.observedAt) hc]
      rfl
    | ok c =>
      have halways : ∀ e ∈ MiningSubmissionRecord.fields.entries { r with observedAt := c },
          e.1 ∈ MiningSubmissionRecord.fields.always := by
        have hfacts : ∀ n ∈ MiningSubmissionRecord.facts.names,
            n ∈ MiningSubmissionRecord.fields.always :=
          fun _ h => List.mem_append_left _ h
        intro e he
        rw [submission_entries hchain] at he
        rcases List.mem_append.mp he with he | he
        · exact hfacts _ (MiningSubmissionRecord.facts.entries_names r e he)
        · rw [(Fields.mem_entry.mp he).1]
          exact List.mem_append_right _ (List.mem_singleton.mpr rfl)
      obtain ⟨row, hrow⟩ := submissions_described.insertRow_isOk (E := E) halways
      have hmembers : Members MiningSubmissionRecord.fields miningSubmissions := by
        have h := spelled
        simp only [spellings, List.forall_mem_cons] at h
        exact .of_spelled submissions_described (by
          simp [MiningSubmissionRecord.fields, MiningSubmissionRecord.facts, miningSubmissions,
            Table.all, h])
      have hwritten : (StoredRecord.submission r).written E =
          .ok (.submission { r with observedAt := c }) := by
        rw [StoredRecord.written, canonicalText, hc]
        rfl
      have hread : (StoredRecord.submission r).readBack E (s.setRows miningSubmissions
          ((s.rows miningSubmissions.name).put (StoredRecord.submission r).key row)) =
          ((decodeRecord E MiningSubmissionRecord.fields miningSubmissions.all row).map some).map
            (Option.map StoredRecord.submission) := by
        rw [← readRow_put]
        rfl
      rw [roundTrips_iff_decode (fun _ _ h => StoredRecord.submission.inj h) hg hfresh
        (exec_put_submission hchain hfresh hc hrow) hwritten hread]
      refine (submissions_described.decodeRecord_iff hrow (fun _ _ => rfl) hmembers.other
        fun look h => MiningSubmissionRecord.agrees_of_decode h).trans ?_
      rw [submission_survives hE hchain]
      exact ⟨fun h _ _ hc => by cases hc; exact h, fun h => h hchain c rfl⟩
  · have hput : ∃ e, Tx.exec ((StoredRecord.submission r).put E now) s = .error e :=
      submission_marked hchain
    obtain ⟨e, he⟩ := hput
    exact iff_of_true (StoredRecord.roundTrips_of_put_error hg he) fun h => absurd h hchain

end

/-! ### Descriptors -/

section

variable {E : Conversions} {now g : String} {s : RowStore}

theorem descriptor_plain : Plain NodeDescriptorRecord.facts nodeDescriptors := by
  have h := spelled
  simp only [spellings, List.forall_mem_cons] at h
  apply Plain.of_spelled <;>
    simp [NodeDescriptorRecord.facts, nodeDescriptors, spellings, timestampColumns, h]

/-- The descriptor as it is first written. -/
def NodeDescriptorRecord.first (r : NodeDescriptorRecord) (observedAt : String) :
    NodeDescriptorRecord :=
  { r with firstBlockTimestamp := r.blockTimestamp, observedAt := observedAt }

theorem descriptor_survives {r : NodeDescriptorRecord} {c : String}
    (hdoc : ∀ j ∈ (StoredRecord.descriptor r).documents, E.parseJson (E.jsonText j) = .ok j) :
    NodeDescriptorRecord.fields.survives (trip E nodeDescriptors) (r.first c) ↔
      r.blockTimestamp.toNat ≤ i64Max ∧ E.canonical c = .ok c := by
  obtain ⟨p₁, p₂, p₃, p₄, p₅, p₆, p₇, p₈, -⟩ := descriptors_paths
  simp only [NodeDescriptorRecord.fields, NodeDescriptorRecord.facts, Fields.survives_member,
    Fields.survives_start, true_and, and_assoc, u64_survives (.inr rfl) p₅,
    u64_survives (.inr rfl) p₆, instant_survives p₈]
  constructor
  · rintro ⟨-, -, -, -, ht, -, -, hc⟩
    exact ⟨ht, hc⟩
  · rintro ⟨ht, hc⟩
    exact ⟨text_survives p₁ _, decimal_survives p₂ _, text_survives p₃ _,
      u32_survives (.inl rfl) p₄ _, ht, ht,
      document_survives p₇ rfl (hdoc _ (List.mem_singleton.mpr rfl)), hc⟩

/-- The name is kept beside the descriptor. -/
theorem setNodeName_of_row {account : String} {row : Row}
    (h : (s.rows nodeDescriptors.name).get? [.text account] = some row) :
    ∃ name, setNodeName E account s = s.setRows nodeDescriptors
      ((s.rows nodeDescriptors.name).put [.text account] fun column =>
        if column = "node_name" then name else row column) := by
  rw [setNodeName, h]
  exact ⟨_, rfl⟩

theorem exec_put_descriptor {r : NodeDescriptorRecord} {c : String}
    (hfresh : (StoredRecord.descriptor r).Fresh s) (hc : E.canonical r.observedAt = .ok c)
    {row : Row}
    (hrow : insertRow E nodeDescriptors
      (columnsOf (NodeDescriptorRecord.fields.entries (r.first c))) = .ok row) :
    Tx.exec ((StoredRecord.descriptor r).put E now) s =
      .ok ((), setNodeName E r.accountId (s.setRows nodeDescriptors
        ((s.rows nodeDescriptors.name).put (StoredRecord.descriptor r).key row))) := by
  have hkey : nodeDescriptors.keys.map row = (StoredRecord.descriptor r).key := by
    have hlookup : JsonValue.lookup "accountId"
        (NodeDescriptorRecord.fields.entries (r.first c)) = some (.string r.accountId) := by
      simp only [NodeDescriptorRecord.fields, NodeDescriptorRecord.facts, Fields.lookup_member,
        Fields.lookup_start, String.reduceEq, if_false, if_true, Option.none_or]
      rfl
    have haccount : row (snake "accountId") = .text r.accountId :=
      row_text descriptors_described.entry_name hrow hlookup (.inl descriptors_paths.1)
    rw [(spelled ("accountId", "account_id") (by simp [spellings])).1] at haccount
    show [row "account_id"] = [.text r.accountId]
    rw [haccount]
  have hupsert : Tx.exec (upsert E nodeDescriptors NodeDescriptorRecord.fields
      (r.first r.observedAt) ["first_block_timestamp"] (.when laterDescriptor)) s =
      .ok (1, s.setRows nodeDescriptors
        ((s.rows nodeDescriptors.name).put (StoredRecord.descriptor r).key row)) := by
    have hentries : NodeDescriptorRecord.fields.entries (r.first c) =
        NodeDescriptorRecord.facts.entries (r.first r.observedAt) ++
          Fields.entry "observedAt" (some (.string c)) := rfl
    rw [exec_upsert_observed descriptor_plain (isTimestamp_observedAt _) rfl hentries hc hrow
      (by rw [hkey]; exact hfresh), hkey]
  show Tx.exec (upsert E nodeDescriptors NodeDescriptorRecord.fields
    (r.first r.observedAt) ["first_block_timestamp"] (.when laterDescriptor) >>= fun _ =>
      Tx.update fun s => ((), setNodeName E r.accountId s)) s = _
  rw [Tx.exec_bind, hupsert]
  rfl

theorem descriptor_roundTrips (hg : s.genesis = some g) {r : NodeDescriptorRecord}
    (hdoc : ∀ j ∈ (StoredRecord.descriptor r).documents, E.parseJson (E.jsonText j) = .ok j)
    (hfresh : (StoredRecord.descriptor r).Fresh s) :
    (StoredRecord.descriptor r).RoundTrips E now s ↔
      ∀ c, E.canonical r.observedAt = .ok c →
        r.blockTimestamp.toNat ≤ i64Max ∧ E.canonical c = .ok c := by
  cases hc : E.canonical r.observedAt with
  | error e =>
    refine iff_of_true ?_ fun c h => by cases h
    refine StoredRecord.roundTrips_of_put_error hg (e := .invalid e) ?_
    show Tx.exec (upsert E nodeDescriptors NodeDescriptorRecord.fields
      (r.first r.observedAt) ["first_block_timestamp"] (.when laterDescriptor) >>= fun _ =>
        Tx.update fun s => ((), setNodeName E r.accountId s)) s = _
    rw [Tx.exec_bind, exec_upsert_unobserved (r := r.first r.observedAt) descriptor_plain
      (isTimestamp_observedAt _) rfl hc]
    rfl
  | ok c =>
    have halways : ∀ n ∈ NodeDescriptorRecord.fields.names,
        n ∈ NodeDescriptorRecord.fields.always := fun _ h => h
    obtain ⟨row, hrow⟩ := descriptors_described.insertRow_isOk (E := E) (s := r.first c)
      fun e he => halways _ (NodeDescriptorRecord.fields.entries_names _ e he)
    -- the name of the node is written behind the row
    have hput : ((s.setRows nodeDescriptors ((s.rows nodeDescriptors.name).put
        (StoredRecord.descriptor r).key row)).rows nodeDescriptors.name).get?
        [.text r.accountId] = some row := by
      rw [RowStore.rows_setRows]
      exact KeyedTable.get?_put_self ..
    obtain ⟨name, hname⟩ := setNodeName_of_row (E := E) hput
    have hwritten : (StoredRecord.descriptor r).written E = .ok (.descriptor (r.first c)) := by
      rw [StoredRecord.written, canonicalText, hc]
      rfl
    have hread : (StoredRecord.descriptor r).readBack E (setNodeName E r.accountId
        (s.setRows nodeDescriptors ((s.rows nodeDescriptors.name).put
          (StoredRecord.descriptor r).key row))) =
        ((decodeRecord E NodeDescriptorRecord.fields nodeDescriptors.all fun column =>
          if column = "node_name" then name else row column).map some).map
            (Option.map StoredRecord.descriptor) := by
      rw [hname, ← readRow_put]
      rfl
    -- the columns that no member of the record has are texts
    have hother : ∀ column ∈ nodeDescriptors.all, ∃ e ∈ spellings, e.2 = column ∧
        (e.1 ∈ NodeDescriptorRecord.fields.names ∨
          kind column = .text ∧ numericApiNumber column = false) := by
      intro column hcolumn
      refine exists_spelling (P := fun n => n ∈ NodeDescriptorRecord.fields.names ∨
        kind column = .text ∧ numericApiNumber column = false)
        (descriptors_described.columns column hcolumn) ?_
      revert column
      have h := spelled
      simp only [spellings, List.forall_mem_cons] at h
      simp [NodeDescriptorRecord.fields, NodeDescriptorRecord.facts, nodeDescriptors, Table.all,
        kind, numericColumns, doubleColumns, bigintColumns, integerColumns, booleanColumns,
        timestampColumns, jsonColumns, numericApiNumber, h]
    have hnew : "nodeName" ∉ NodeDescriptorRecord.fields.names := by
      simp [NodeDescriptorRecord.fields, NodeDescriptorRecord.facts]
    rw [roundTrips_iff_decode (fun _ _ h => StoredRecord.descriptor.inj h) hg hfresh
      (exec_put_descriptor hfresh hc hrow) hwritten hread]
    refine (descriptors_described.decodeRecord_iff hrow (fun n hn => ?_)
      (fun column hcolumn hname => ?_)
      fun look h => NodeDescriptorRecord.agrees_of_decode h).trans ?_
    · refine if_neg fun h => hnew ?_
      have hback := descriptors_described.camel_snake hn
      rw [h, (spelled ("nodeName", "node_name") (by simp [spellings])).2] at hback
      exact (show "nodeName" = n from hback) ▸ hn
    · obtain ⟨e, he, rfl, hmem | ⟨hkind, hapi⟩⟩ := hother column hcolumn
      · rw [(spelled e he).2] at hname
        exact absurd hmem hname
      · exact columnValue_text hkind hapi _
    · rw [descriptor_survives hdoc]
      exact ⟨fun h _ hc => by cases hc; exact h, fun h => h c rfl⟩

end

end Dashboard.Turso

/-
The events of a block.

The model of `decode_events` and of `qblock` in `quip-dashboard/src/chain/decode.rs`.  The
iterator over the events is third-party code: it gives, for each event, its pallet, its
name, its fields and its bytes, or it fails.

* `Describes` — the event that such an item describes, with its fields in any order and
  behind any newtypes;
* `RuntimeReader.account_injective` — different accounts have different texts;
* `eventStep_eq` — one event of the loop;
* `decode_events` — **the decoder returns what the runtime's events say, each of them once
  and in their order, and fails when bytes are missing or left**;
* `decode_qblock` — the retained solution, with the fields that a runtime may lack.
-/
import QuipDashboard.Program
import QuipDashboard.RuntimeValues

namespace Dashboard

namespace ChainEvents

open Scale

/-! ### The decoder -/

/-- `BlockWinnerEvent`. -/
structure BlockWinnerEvent where
  qblockId : ℕ
  blockNumber : ℕ
  miner : String
  reward : List Char
  energyMilli : ℤ
  submittedAt : ℕ
  deriving DecidableEq

/-- `RegistryChange`. -/
structure RegistryChange where
  event : String
  account : Vector UInt8 32
  deriving DecidableEq

/-- `BlockEvents`, as `decode_events` fills it. -/
structure BlockEvents where
  winner : Option BlockWinnerEvent := none
  proofs : List ProofAcceptedEvent := []
  changes : List (String × String) := []
  registryChanges : List RegistryChange := []
  minerChanges : List (Vector UInt8 32) := []

/-- An item of the iterator: `EventDetails`. -/
structure EventDetails where
  pallet : String
  variant : String
  fieldValues : Except ChainError (List (Option String × RuntimeValue))
  /-- How many bytes it is of. -/
  bytes : ℕ

variable (r : RuntimeReader)

/-- `bytes(who)?.try_into()`. -/
def accountId (error : String) (value : RuntimeValue) : Except ChainError (Vector UInt8 32) := do
  let bytes ← r.bytes value
  if h : bytes.length = 32 then .ok ⟨bytes.toArray, by simpa using h⟩
  else .error (.unsupported error)

/-- The fields of an event as a value. -/
def EventDetails.fields (event : EventDetails) : Except ChainError RuntimeValue := do
  let fields ← event.fieldValues
  return .node 0 none fields

/-- A winner's event. -/
def blockWinner (fields : RuntimeValue) : Except ChainError BlockWinnerEvent := do
  let qblockId ← r.unsigned (← field fields "qblock_id")
  let blockNumber ← r.unsigned (← field fields "block_number")
  let miner ← r.account (← field fields "miner")
  let reward ← r.decimal (← field fields "reward")
  let energyMilli ← r.signed (← field fields "energy_milli")
  let submittedAt ← r.unsigned (← field fields "submitted_at")
  return { qblockId, blockNumber, miner, reward, energyMilli, submittedAt }

/-- An accepted proof's event. -/
def proofAccepted (fields : RuntimeValue) : Except ChainError ProofAcceptedEvent := do
  let miner ← r.account (← field fields "miner")
  let energyMilli ← r.signed (← field fields "energy_milli")
  let diversityMilli ← r.u32Field fields "diversity_milli"
  let validSolutionCount ← r.u32Field fields "valid_solution_count"
  return { miner, energyMilli, diversityMilli, validSolutionCount }

/-- The account of an event of `QuantumPow` changed. -/
def minerChange (fields : RuntimeValue) (result : BlockEvents) : Except ChainError BlockEvents :=
  match (maybeField fields "who").or (maybeField fields "miner") with
  | none => .ok result
  | some who => do
    let account ← accountId r "miner account is not AccountId32" who
    return if account ∈ result.minerChanges then result
      else { result with minerChanges := result.minerChanges ++ [account] }

/-- An event of `QuantumPow`. -/
def powEvent (event : EventDetails) (result : BlockEvents) : Except ChainError BlockEvents := do
  let fields ← event.fields
  let result ← minerChange r fields result
  if event.variant = "BlockWinner" then
    if result.winner.isSome then .error (.invalid "multiple BlockWinner events")
    else
      let winner ← blockWinner r fields
      return { result with winner := some winner }
  else if event.variant = "ProofAccepted" then
    let proof ← proofAccepted r fields
    return { result with proofs := result.proofs ++ [proof] }
  else return result

/-- An event of `MinerRegistry`. -/
def registryEvent (event : EventDetails) (result : BlockEvents) : Except ChainError BlockEvents := do
  let fields ← event.fields
  match maybeField fields "who" with
  | none => return result
  | some who =>
    let account ← accountId r "registry account is not AccountId32" who
    return { result with registryChanges := result.registryChanges ++ [⟨event.variant, account⟩] }

/-- The pallets and names that snapshots depend on. -/
def EventDetails.isChange (event : EventDetails) : Bool :=
  event.pallet = "MinerRegistry" || event.pallet = "Session" || event.pallet = "Babe" ||
    event.pallet = "QuantumPow" || event.pallet = "System" && event.variant = "CodeUpdated"

/-- The body of the loop of `decode_events`. -/
def eventStep (result : BlockEvents) (event : EventDetails) : Except ChainError BlockEvents := do
  let result ← if event.pallet = "QuantumPow" then powEvent r event result else .ok result
  let result ← if event.pallet = "MinerRegistry" then registryEvent r event result else .ok result
  return if event.isChange then { result with changes := result.changes ++ [(event.pallet, event.variant)] }
    else result

/-- The loop of `decode_events`: the events, how many were seen and how many bytes were
consumed. -/
def eventLoop : List (Except ChainError EventDetails) → BlockEvents → ℕ → ℕ →
    Except ChainError (BlockEvents × ℕ × ℕ)
  | [], result, seen, consumed => .ok (result, seen, consumed)
  | event :: events, result, seen, consumed => do
    let event ← event
    let result ← eventStep r result event
    eventLoop events result (seen + 1) (consumed + event.bytes)

/-- `decode_events`, of `length` bytes: the number they begin with and the bytes it is of,
and the items of the iterator. -/
def decodeEvents (length : ℕ) (count : Except ChainError (ℕ × ℕ))
    (events : List (Except ChainError EventDetails)) : Except ChainError BlockEvents := do
  let (count, header) ← count
  if 100000 < count then .error (.oversized "event count exceeds 100000")
  else
    let (result, seen, consumed) ← eventLoop r events {} 0 header
    if seen ≠ count ∨ consumed ≠ length then
      .error (.invalid "event count or trailing bytes mismatch")
    else return result

/-! ### The events of the runtime -/

/-- An account. -/
abbrev AccountId := Vector UInt8 32

/-- What `BlockWinner` says. -/
structure Winner where
  qblockId : UInt64
  blockNumber : UInt64
  miner : AccountId
  reward : ℕ
  energyMilli : Int64
  submittedAt : UInt64

/-- What `ProofAccepted` says. -/
structure Proof where
  miner : AccountId
  energyMilli : Int64
  diversityMilli : UInt32
  validSolutionCount : UInt32

/-- An event, as far as the decoder reads it. -/
inductive RuntimeEvent
  | blockWinner (winner : Winner)
  | proofAccepted (proof : Proof)
  /-- Another event of `QuantumPow`. -/
  | pow (name : String) (account : Option AccountId)
  | registry (name : String) (account : Option AccountId)
  | other (pallet name : String)

/-- A field that only some events have. -/
def MaybeAccount (value : Option RuntimeValue) : Option AccountId → Prop
  | none => value = none
  | some account => ∃ v, value = some v ∧ IsAccount v account

/-- The event that an item of the iterator describes. -/
inductive Describes (d : EventDetails) : RuntimeEvent → Prop
  | blockWinner {fields} (w : Winner) (hpallet : d.pallet = "QuantumPow")
      (hname : d.variant = "BlockWinner") (hfields : d.fields = .ok fields)
      (hwho : maybeField fields "who" = none)
      (hid : HasField fields "qblock_id" (IsUnsigned · w.qblockId.toNat))
      (hnumber : HasField fields "block_number" (IsUnsigned · w.blockNumber.toNat))
      (hminer : HasField fields "miner" (IsAccount · w.miner))
      (hreward : HasField fields "reward" (IsAmount · w.reward))
      (henergy : HasField fields "energy_milli" (IsSigned · w.energyMilli.toInt))
      (hsubmitted : HasField fields "submitted_at" (IsUnsigned · w.submittedAt.toNat)) :
      Describes d (.blockWinner w)
  | proofAccepted {fields} (p : Proof) (hpallet : d.pallet = "QuantumPow")
      (hname : d.variant = "ProofAccepted") (hfields : d.fields = .ok fields)
      (hwho : maybeField fields "who" = none)
      (hminer : HasField fields "miner" (IsAccount · p.miner))
      (henergy : HasField fields "energy_milli" (IsSigned · p.energyMilli.toInt))
      (hdiversity : HasField fields "diversity_milli" (IsUnsigned · p.diversityMilli.toNat))
      (hcount : HasField fields "valid_solution_count" (IsUnsigned · p.validSolutionCount.toNat)) :
      Describes d (.proofAccepted p)
  | pow {fields} (account : Option AccountId) (hpallet : d.pallet = "QuantumPow")
      (hname : d.variant ≠ "BlockWinner" ∧ d.variant ≠ "ProofAccepted") (hfields : d.fields = .ok fields)
      (haccount : MaybeAccount ((maybeField fields "who").or (maybeField fields "miner")) account) :
      Describes d (.pow d.variant account)
  | registry {fields} (account : Option AccountId) (hpallet : d.pallet = "MinerRegistry")
      (hfields : d.fields = .ok fields) (haccount : MaybeAccount (maybeField fields "who") account) :
      Describes d (.registry d.variant account)
  | other (hpallet : d.pallet ≠ "QuantumPow" ∧ d.pallet ≠ "MinerRegistry") :
      Describes d (.other d.pallet d.variant)

namespace RuntimeEvent

/-- The winner that the event reports. -/
def winner? : RuntimeEvent → Option BlockWinnerEvent
  | blockWinner w => some
    { qblockId := w.qblockId.toNat, blockNumber := w.blockNumber.toNat, miner := r.accountText w.miner,
      reward := DigitOrder.text w.reward, energyMilli := w.energyMilli.toInt,
      submittedAt := w.submittedAt.toNat }
  | _ => none

/-- The proof that the event reports. -/
def proof? : RuntimeEvent → Option ProofAcceptedEvent
  | proofAccepted p => some
    { miner := r.accountText p.miner, energyMilli := p.energyMilli.toInt,
      diversityMilli := p.diversityMilli.toNat, validSolutionCount := p.validSolutionCount.toNat }
  | _ => none

/-- The account of `QuantumPow` that the event changes. -/
def miner? : RuntimeEvent → Option AccountId
  | blockWinner w => some w.miner
  | proofAccepted p => some p.miner
  | pow _ account => account
  | registry .. | other .. => none

/-- The account of the registry that the event changes. -/
def registryChange? : RuntimeEvent → Option RegistryChange
  | registry name account => account.map fun a => ⟨name, a⟩
  | _ => none

/-- The event as a reason to read snapshots again. -/
def change? : RuntimeEvent → Option (String × String)
  | blockWinner _ => some ("QuantumPow", "BlockWinner")
  | proofAccepted _ => some ("QuantumPow", "ProofAccepted")
  | pow name _ => some ("QuantumPow", name)
  | registry name _ => some ("MinerRegistry", name)
  | other pallet name =>
    if pallet = "Session" ∨ pallet = "Babe" ∨ pallet = "System" ∧ name = "CodeUpdated" then
      some (pallet, name)
    else none

end RuntimeEvent

/-- What the decoder returns of some events. -/
structure Reports (events : List RuntimeEvent) (result : BlockEvents) : Prop where
  winner : result.winner = (events.filterMap (RuntimeEvent.winner? r)).head?
  proofs : result.proofs = events.filterMap (RuntimeEvent.proof? r)
  changes : result.changes = events.filterMap RuntimeEvent.change?
  registryChanges : result.registryChanges = events.filterMap RuntimeEvent.registryChange?
  minerChanges_nodup : result.minerChanges.Nodup
  mem_minerChanges : ∀ a, a ∈ result.minerChanges ↔ ∃ e ∈ events, e.miner? = some a

/-! ### One event -/

variable {r} {d : EventDetails} {fields : RuntimeValue} {result : BlockEvents}

theorem accountId_eq {error : String} {v : RuntimeValue} {account : AccountId} (h : IsAccount v account) :
    accountId r error v = .ok account := by
  have hlen : account.toList.length = 32 := by simp
  rw [accountId, RuntimeReader.bytes_eq h, ok_bind, dif_pos hlen]
  congr 1

theorem blockWinner_eq {w : Winner} (h : Describes d (.blockWinner w)) : ∃ fields w',
    d.fields = .ok fields ∧ blockWinner r fields = .ok w' ∧ (RuntimeEvent.blockWinner w).winner? r = some w' := by
  cases h with
  | @blockWinner fields w _ _ hfields _ hid hnumber hminer hreward henergy hsubmitted =>
    refine ⟨fields, _, hfields, ?_, rfl⟩
    obtain ⟨_, h₁, hid⟩ := field_eq hid
    obtain ⟨_, h₂, hnumber⟩ := field_eq hnumber
    obtain ⟨_, h₃, hminer⟩ := field_eq hminer
    obtain ⟨_, h₄, hreward⟩ := field_eq hreward
    obtain ⟨_, h₅, henergy⟩ := field_eq henergy
    obtain ⟨_, h₆, hsubmitted⟩ := field_eq hsubmitted
    have hle : ∀ n : UInt64, n.toNat ≤ u64Max := fun n => Nat.le_of_lt_succ n.toNat_lt
    rw [blockWinner, h₁, h₂, h₃, h₄, h₅, h₆]
    simp only [ok_bind, RuntimeReader.unsigned_eq hid (hle _), RuntimeReader.unsigned_eq hnumber (hle _),
      RuntimeReader.unsigned_eq hsubmitted (hle _), RuntimeReader.account_eq hminer,
      RuntimeReader.accountBytes_eq, RuntimeReader.decimal_eq hreward, RuntimeReader.signed_eq henergy]
    rfl

theorem proofAccepted_eq {p : Proof} (h : Describes d (.proofAccepted p)) : ∃ fields p',
    d.fields = .ok fields ∧ proofAccepted r fields = .ok p' ∧ (RuntimeEvent.proofAccepted p).proof? r = some p' := by
  cases h with
  | @proofAccepted fields p _ _ hfields _ hminer henergy hdiversity hcount =>
    refine ⟨fields, _, hfields, ?_, rfl⟩
    obtain ⟨_, h₁, hminer⟩ := field_eq hminer
    obtain ⟨_, h₂, henergy⟩ := field_eq henergy
    rw [proofAccepted, h₁, h₂]
    simp only [ok_bind, RuntimeReader.account_eq hminer, RuntimeReader.accountBytes_eq,
      RuntimeReader.signed_eq henergy, RuntimeReader.u32Field_eq hdiversity, RuntimeReader.u32Field_eq hcount]
    rfl

/-- The accounts with another one, unless it is there. -/
def withAccount (accounts : List AccountId) : Option AccountId → List AccountId
  | none => accounts
  | some account => if account ∈ accounts then accounts else accounts ++ [account]

/-- The report with another event. -/
def BlockEvents.add (r : RuntimeReader) (result : BlockEvents) (e : RuntimeEvent) : BlockEvents where
  winner := result.winner.or (e.winner? r)
  proofs := result.proofs ++ (e.proof? r).toList
  changes := result.changes ++ e.change?.toList
  registryChanges := result.registryChanges ++ e.registryChange?.toList
  minerChanges := withAccount result.minerChanges e.miner?

theorem minerChange_eq {account : Option AccountId}
    (h : MaybeAccount ((maybeField fields "who").or (maybeField fields "miner")) account) :
    minerChange r fields result =
      .ok { result with minerChanges := withAccount result.minerChanges account } := by
  cases account with
  | none => rw [minerChange, h, withAccount]
  | some account =>
    obtain ⟨v, hv, haccount⟩ := h
    rw [minerChange, hv]
    simp only [accountId_eq haccount, ok_bind, withAccount]
    split <;> rfl

theorem eventStep_pow (hpallet : d.pallet = "QuantumPow") : eventStep r result d =
    (powEvent r d result >>= fun result =>
      .ok { result with changes := result.changes ++ [("QuantumPow", d.variant)] }) := by
  have hne : ("QuantumPow" : String) ≠ "MinerRegistry" := by simp
  have hchange : d.isChange = true := by simp [EventDetails.isChange, hpallet]
  rw [eventStep, if_pos hpallet, hpallet, hchange]
  cases powEvent r d result with
  | error e => rfl
  | ok b =>
    simp only [ok_bind, if_neg hne]
    rfl

theorem eventStep_registry (hpallet : d.pallet = "MinerRegistry") : eventStep r result d =
    (registryEvent r d result >>= fun result =>
      .ok { result with changes := result.changes ++ [("MinerRegistry", d.variant)] }) := by
  have hne : ("MinerRegistry" : String) ≠ "QuantumPow" := by simp
  have hchange : d.isChange = true := by simp [EventDetails.isChange, hpallet]
  rw [eventStep, hpallet, if_neg hne, hchange, ok_bind]
  simp only [if_pos]
  cases registryEvent r d result <;> rfl

/-- What one event of the loop does. -/
theorem eventStep_eq {e : RuntimeEvent} (h : Describes d e) : eventStep r result d =
    if result.winner.isSome ∧ (e.winner? r).isSome then .error (.invalid "multiple BlockWinner events")
    else .ok (result.add r e) := by
  cases h with
  | @blockWinner fields w hpallet hname hfields hwho hid hnumber hminer hreward henergy hsubmitted =>
    have haccount : MaybeAccount ((maybeField fields "who").or (maybeField fields "miner")) (some w.miner) := by
      rw [hwho, Option.none_or]
      exact hminer
    obtain ⟨fields', w', hfields', hw, hwinner⟩ := blockWinner_eq (r := r) (.blockWinner w hpallet hname hfields
      hwho hid hnumber hminer hreward henergy hsubmitted)
    cases hfields.symm.trans hfields'
    rw [eventStep_pow hpallet, powEvent, hfields, ok_bind, minerChange_eq haccount, ok_bind, if_pos hname]
    cases hres : result.winner with
    | some w₀ =>
      rw [if_pos (by simp), if_pos (by simp [hwinner])]
      rfl
    | none =>
      rw [if_neg (by simp), if_neg (by simp), hw, BlockEvents.add, hwinner, hname, hres]
      simp [ok_bind, RuntimeEvent.proof?, RuntimeEvent.change?, RuntimeEvent.registryChange?, RuntimeEvent.miner?]
  | @proofAccepted fields p hpallet hname hfields hwho hminer henergy hdiversity hcount =>
    have haccount : MaybeAccount ((maybeField fields "who").or (maybeField fields "miner")) (some p.miner) := by
      rw [hwho, Option.none_or]
      exact hminer
    obtain ⟨fields', p', hfields', hp, hproof⟩ := proofAccepted_eq (r := r) (.proofAccepted p hpallet hname hfields
      hwho hminer henergy hdiversity hcount)
    cases hfields.symm.trans hfields'
    have hne : d.variant ≠ "BlockWinner" := by simp [hname]
    rw [eventStep_pow hpallet, powEvent, hfields, ok_bind, minerChange_eq haccount, ok_bind, if_neg hne,
      if_pos hname, hp, BlockEvents.add, hproof, hname, if_neg (by simp [RuntimeEvent.winner?])]
    simp [ok_bind, RuntimeEvent.winner?, RuntimeEvent.change?, RuntimeEvent.registryChange?, RuntimeEvent.miner?]
  | pow account hpallet hname hfields haccount =>
    rw [eventStep_pow hpallet, powEvent, hfields, ok_bind, minerChange_eq haccount, ok_bind, if_neg hname.1,
      if_neg hname.2, if_neg (by simp [RuntimeEvent.winner?]), BlockEvents.add]
    simp [RuntimeEvent.winner?, RuntimeEvent.proof?, RuntimeEvent.change?, RuntimeEvent.registryChange?,
      RuntimeEvent.miner?]
  | registry account hpallet hfields haccount =>
    rw [eventStep_registry hpallet, registryEvent, hfields, ok_bind, if_neg (by simp [RuntimeEvent.winner?]),
      BlockEvents.add]
    cases account with
    | none =>
      have hnone : maybeField _ "who" = none := haccount
      rw [hnone]
      simp [RuntimeEvent.winner?, RuntimeEvent.proof?, RuntimeEvent.change?, RuntimeEvent.registryChange?,
        RuntimeEvent.miner?, withAccount]
    | some account =>
      obtain ⟨v, hv, haccount⟩ := haccount
      simp only [hv, accountId_eq haccount, ok_bind]
      simp [RuntimeEvent.winner?, RuntimeEvent.proof?, RuntimeEvent.change?, RuntimeEvent.registryChange?,
        RuntimeEvent.miner?, withAccount]
  | other hpallet =>
    have hchange : d.isChange = true ↔ d.pallet = "Session" ∨ d.pallet = "Babe" ∨
        d.pallet = "System" ∧ d.variant = "CodeUpdated" := by
      simp [EventDetails.isChange, hpallet.1, hpallet.2, or_assoc]
    rw [eventStep, if_neg hpallet.1, if_neg (by simp [RuntimeEvent.winner?]), BlockEvents.add, ok_bind]
    simp only [if_neg hpallet.2, ok_bind, hchange, RuntimeEvent.winner?, RuntimeEvent.proof?, RuntimeEvent.change?,
      RuntimeEvent.registryChange?, RuntimeEvent.miner?, withAccount, Option.or_none, Option.toList_none,
      List.append_nil]
    split
    · rfl
    · simp
      rfl

/-! ### The loop -/

theorem mem_withAccount {accounts : List AccountId} {account : Option AccountId} {a : AccountId} :
    a ∈ withAccount accounts account ↔ a ∈ accounts ∨ account = some a := by
  cases account with
  | none => simp [withAccount]
  | some account =>
    rw [withAccount]
    split
    · simp only [Option.some.injEq]
      refine ⟨.inl, ?_⟩
      rintro (h | rfl)
      · exact h
      · assumption
    · simp [eq_comm]

theorem nodup_withAccount {accounts : List AccountId} (h : accounts.Nodup) (account : Option AccountId) :
    (withAccount accounts account).Nodup := by
  cases account with
  | none => exact h
  | some account =>
    rw [withAccount]
    split
    · exact h
    · rw [List.nodup_append]
      refine ⟨h, by simp, ?_⟩
      rintro a ha b hb rfl
      rw [List.mem_singleton] at hb
      exact absurd (hb ▸ ha) ‹_›

theorem Reports.nil : Reports r [] {} := ⟨rfl, rfl, rfl, rfl, List.nodup_nil, by simp⟩

theorem Reports.add {events : List RuntimeEvent} (h : Reports r events result) (e : RuntimeEvent) :
    Reports r (events ++ [e]) (result.add r e) where
  winner := by
    rw [BlockEvents.add, h.winner, List.filterMap_append, List.head?_append]
    cases hw : e.winner? r <;> simp [hw]
  proofs := by
    rw [BlockEvents.add, h.proofs, List.filterMap_append]
    cases hp : e.proof? r <;> simp [hp]
  changes := by
    rw [BlockEvents.add, h.changes, List.filterMap_append]
    cases hc : e.change? <;> simp [hc]
  registryChanges := by
    rw [BlockEvents.add, h.registryChanges, List.filterMap_append]
    cases hc : e.registryChange? <;> simp [hc]
  minerChanges_nodup := nodup_withAccount h.minerChanges_nodup _
  mem_minerChanges a := by
    rw [BlockEvents.add, mem_withAccount, h.mem_minerChanges]
    simp [or_and_right, exists_or]

theorem Reports.exists (events : List RuntimeEvent) : ∃ result, Reports r events result := by
  induction events using List.reverseRecOn with
  | nil => exact ⟨{}, .nil⟩
  | append_singleton events e ih =>
    obtain ⟨result, h⟩ := ih
    exact ⟨_, h.add e⟩

/-- The loop over the rest of the events. -/
theorem eventLoop_eq {items : List EventDetails} {events before : List RuntimeEvent}
    (h : List.Forall₂ Describes items events) (hresult : Reports r before result)
    (hone : (before.filterMap (RuntimeEvent.winner? r)).length ≤ 1) (seen consumed : ℕ) :
    ∃ final, Reports r (before ++ events) final ∧
      eventLoop r (items.map .ok) result seen consumed =
        if 1 < ((before ++ events).filterMap (RuntimeEvent.winner? r)).length then
          .error (.invalid "multiple BlockWinner events")
        else .ok (final, seen + items.length, consumed + (items.map EventDetails.bytes).sum) := by
  induction h generalizing before result seen consumed with
  | nil =>
    refine ⟨result, by simpa using hresult, ?_⟩
    rw [List.append_nil, if_neg (by omega)]
    rfl
  | @cons d e items events hd _ ih =>
    have hsome : result.winner.isSome ↔ 1 ≤ (before.filterMap (RuntimeEvent.winner? r)).length := by
      rw [hresult.winner]
      cases before.filterMap (RuntimeEvent.winner? r) <;> simp
    have hcount : ((before ++ [e]).filterMap (RuntimeEvent.winner? r)).length =
        (before.filterMap (RuntimeEvent.winner? r)).length + if (e.winner? r).isSome then 1 else 0 := by
      rw [List.filterMap_append, List.length_append]
      cases hw : e.winner? r <;> simp [hw]
    by_cases htwo : result.winner.isSome ∧ (e.winner? r).isSome
    · obtain ⟨final, hfinal⟩ := Reports.exists (r := r) (before ++ e :: events)
      refine ⟨final, hfinal, ?_⟩
      have hle : ((before ++ [e]).filterMap (RuntimeEvent.winner? r)).length ≤
          ((before ++ e :: events).filterMap (RuntimeEvent.winner? r)).length := by
        simp [List.filterMap_cons]
        split <;> simp
      rw [hcount, if_pos htwo.2] at hle
      have hbefore := hsome.1 htwo.1
      rw [List.map_cons, eventLoop, ok_bind, eventStep_eq hd, if_pos htwo, if_pos (by omega)]
      rfl
    · have hone' : ((before ++ [e]).filterMap (RuntimeEvent.winner? r)).length ≤ 1 := by
        rw [hcount]
        split
        · have : ¬1 ≤ (before.filterMap (RuntimeEvent.winner? r)).length := fun h => htwo ⟨hsome.2 h, ‹_›⟩
          omega
        · exact hone
      obtain ⟨final, hfinal, hloop⟩ := ih (hresult.add e) hone' (seen + 1) (consumed + d.bytes)
      refine ⟨final, by simpa using hfinal, ?_⟩
      rw [List.map_cons, eventLoop, ok_bind, eventStep_eq hd, if_neg htwo, ok_bind, hloop]
      simp [Nat.add_assoc, Nat.add_comm 1]

/-- An iterator that fails is not taken for one that ends. -/
theorem eventLoop_error {error : ChainError} {items : List (Except ChainError EventDetails)}
    (h : .error error ∈ items) (seen consumed : ℕ) (b : BlockEvents × ℕ × ℕ) :
    eventLoop r items result seen consumed ≠ .ok b := by
  induction items generalizing result seen consumed with
  | nil => simp at h
  | cons item items ih =>
    intro hb
    rw [eventLoop] at hb
    cases item with
    | error e => cases hb
    | ok d =>
      rw [ok_bind] at hb
      obtain ⟨next, -, hb⟩ := Except.bind_eq_ok.1 hb
      exact ih (by simpa using h) _ _ hb

/-- **The events of a block are decoded exactly.**  For every list of events of the runtime,
in which the fields of an event stand in any order and behind any newtypes, the decoder
reports the winner, the accepted proofs, the registry changes and the reasons to read
snapshots again, each of them once and in the order of the events, and every account whose
registration changed once.  It fails when there are two winners, more than 100000 events,
another number of events than the bytes begin with, or bytes that belong to none of them;
and it fails when the iterator does.  Different accounts are reported by different texts. -/
theorem decode_events (r : RuntimeReader) :
    (∀ length count header items events, List.Forall₂ Describes items events →
      ∃ result, Reports r events result ∧
        decodeEvents r length (.ok (count, header)) (items.map .ok) =
          if 100000 < count then .error (.oversized "event count exceeds 100000")
          else if 1 < (events.filterMap (RuntimeEvent.winner? r)).length then
            .error (.invalid "multiple BlockWinner events")
          else if items.length ≠ count ∨ header + (items.map EventDetails.bytes).sum ≠ length then
            .error (.invalid "event count or trailing bytes mismatch")
          else .ok result) ∧
    (∀ length count items error result, .error error ∈ items →
      decodeEvents r length count items ≠ .ok result) ∧
    Function.Injective r.accountText := by
  refine ⟨fun length count header items events h => ?_, fun length count items error result h => ?_,
    RuntimeReader.accountText_injective⟩
  · obtain ⟨result, hresult, hloop⟩ := eventLoop_eq (r := r) h .nil (by simp) 0 header
    refine ⟨result, hresult, ?_⟩
    rw [decodeEvents, ok_bind]
    by_cases hcount : 100000 < count
    · simp only [if_pos hcount]
    · simp only [if_neg hcount, hloop, List.nil_append, Nat.zero_add]
      by_cases hwinners : 1 < (events.filterMap (RuntimeEvent.winner? r)).length
      · simp only [if_pos hwinners]
        rfl
      · simp only [if_neg hwinners, ok_bind]
        rfl
  · intro hb
    obtain ⟨⟨n, header⟩, -, hb⟩ := Except.bind_eq_ok.1 hb
    dsimp only at hb
    split at hb
    · cases hb
    · obtain ⟨final, hloop, -⟩ := Except.bind_eq_ok.1 hb
      exact eventLoop_error h _ _ _ hloop

/-- The account of 32 equal bytes. -/
def accountOf (b : UInt8) : AccountId := Vector.replicate 32 b

/-- An unsigned integer, as the iterator gives it. -/
def unsignedValue (n : ℕ) : RuntimeValue := .leaf 0 (.primitive (.u128 n))

/-- A signed integer. -/
def signedValue (z : ℤ) : RuntimeValue := .leaf 1 (.primitive (.i128 z))

/-- An account, behind a newtype. -/
def accountValue (b : UInt8) : RuntimeValue :=
  .node 2 none [(none, .node 3 none (List.replicate 32 (none, unsignedValue b.toNat)))]

/-- A winner's event, with its miner first. -/
def winnerDetails : EventDetails where
  pallet := "QuantumPow"
  variant := "BlockWinner"
  fieldValues := .ok [(some "miner", accountValue 7), (some "qblock_id", unsignedValue 9),
    (some "block_number", unsignedValue 41), (some "reward", unsignedValue 500),
    (some "energy_milli", signedValue (-3200)), (some "submitted_at", unsignedValue 40)]
  bytes := 70

/-- An accepted proof of the same miner. -/
def proofDetails : EventDetails where
  pallet := "QuantumPow"
  variant := "ProofAccepted"
  fieldValues := .ok [(some "miner", accountValue 7), (some "energy_milli", signedValue (-3200)),
    (some "diversity_milli", unsignedValue 12), (some "valid_solution_count", unsignedValue 4)]
  bytes := 60

theorem isAccount_accountValue (b : UInt8) : IsAccount (accountValue b) (accountOf b) := by
  have hbytes : ∀ n, List.Forall₂ (fun (f : Option String × RuntimeValue) c => IsUnsigned f.2 c.toNat)
      (List.replicate n (none, unsignedValue b.toNat)) (List.replicate n b) := by
    intro n
    induction n with
    | zero => exact .nil
    | succ n ih => exact .cons ⟨0, rfl⟩ ih
  refine ⟨3, _, rfl, ?_⟩
  rw [accountOf, Vector.toList_replicate]
  exact hbytes 32

theorem winnerDetails_describes :
    Describes winnerDetails (.blockWinner ⟨9, 41, accountOf 7, 500, -3200, 40⟩) :=
  .blockWinner _ rfl rfl rfl rfl ⟨_, rfl, 0, rfl⟩ ⟨_, rfl, 0, rfl⟩ ⟨_, rfl, isAccount_accountValue 7⟩
    ⟨_, rfl, .inl rfl⟩ ⟨_, rfl, 1, rfl⟩ ⟨_, rfl, 0, rfl⟩

theorem proofDetails_describes :
    Describes proofDetails (.proofAccepted ⟨accountOf 7, -3200, 12, 4⟩) :=
  .proofAccepted _ rfl rfl rfl rfl ⟨_, rfl, isAccount_accountValue 7⟩ ⟨_, rfl, 1, rfl⟩ ⟨_, rfl, 0, rfl⟩
    ⟨_, rfl, 0, rfl⟩

/-- A block with a winner and a proof, of 132 bytes. -/
theorem decode_events_pair : ∃ result,
    decodeEvents signedReader 132 (.ok (2, 2)) ([winnerDetails, proofDetails].map .ok) = .ok result ∧
    result.winner.map (·.qblockId) = some 9 ∧ result.proofs.map (·.diversityMilli) = [12] ∧
    result.changes = [("QuantumPow", "BlockWinner"), ("QuantumPow", "ProofAccepted")] ∧
    accountOf 7 ∈ result.minerChanges ∧ result.minerChanges.Nodup := by
  obtain ⟨result, hresult, hdecode⟩ := (decode_events signedReader).1 132 2 2 _ _
    (.cons winnerDetails_describes (.cons proofDetails_describes .nil))
  refine ⟨result, hdecode, ?_, ?_, ?_, (hresult.mem_minerChanges _).mpr ⟨_, List.mem_cons_self .., rfl⟩,
    hresult.minerChanges_nodup⟩
  · rw [hresult.winner]
    rfl
  · rw [hresult.proofs]
    rfl
  · rw [hresult.changes]
    rfl

/-! ### The retained solution -/

/-- `QBlockInfo`. -/
structure QBlockInfo where
  miner : String
  energyMilli : ℤ
  reward : List Char
  submittedAt : ℕ
  nonce : List Char
  difficulty : DifficultyInfo
  deviceAccessTimeUs : Option ℕ
  topologyHash : Option (List UInt8)

/-- `difficulty`. -/
def difficulty (r : RuntimeReader) (value : RuntimeValue) : Except ChainError DifficultyInfo := do
  let minSolutions ← r.u32Field value "min_solutions"
  let maxEnergyMilli ← r.signed (← field value "max_energy_milli")
  let minDiversityMilli ← r.u32Field value "min_diversity_milli"
  return { minSolutions, maxEnergyMilli, minDiversityMilli }

/-- `hash`. -/
def hash (r : RuntimeReader) (value : RuntimeValue) : Except ChainError (List UInt8) := do
  let bytes ← r.bytes value
  if bytes.length = 32 then .ok bytes else .error (.invalid "expected H256")

/-- `maybe_field(..).map(f).transpose()`. -/
def transposed {α : Type} (f : RuntimeValue → Except ChainError α) :
    Option RuntimeValue → Except ChainError (Option α)
  | none => .ok none
  | some value => some <$> f value

/-- `qblock`. -/
def qblock (r : RuntimeReader) (value : RuntimeValue) : Except ChainError (Option QBlockInfo) := do
  match ← scaleOption value with
  | none => return none
  | some value =>
    let solution ← field value "solution"
    let miner ← r.account (← field solution "miner")
    let energyMilli ← r.signed (← field solution "energy_milli")
    let reward ← r.decimal (← field solution "reward")
    let submittedAt ← r.unsigned (← field solution "submitted_at")
    let nonce ← r.decimal (← field value "nonce")
    let difficulty ← difficulty r (← field solution "difficulty")
    let deviceAccessTimeUs ← transposed r.unsigned (maybeField solution "device_access_time_us")
    let topologyHash ← transposed (hash r) (maybeField solution "topology_hash")
    return some { miner, energyMilli, reward, submittedAt, nonce, difficulty, deviceAccessTimeUs, topologyHash }

/-- What a retained solution says. -/
structure Solution where
  miner : AccountId
  energyMilli : Int64
  reward : ℕ
  submittedAt : UInt64
  nonce : ℕ
  minSolutions : UInt32
  maxEnergyMilli : Int64
  minDiversityMilli : UInt32
  deviceAccessTimeUs : Option UInt64
  topologyHash : Option AccountId

/-- A field that only some runtimes have. -/
def MaybeField {α : Type} (value : RuntimeValue) (name : String) (P : RuntimeValue → α → Prop) :
    Option α → Prop
  | none => maybeField value name = none
  | some a => HasField value name (P · a)

/-- The value is that of a retained solution. -/
structure IsSolution (value : RuntimeValue) (s : Solution) : Prop where
  nonce : HasField value "nonce" (IsAmount · s.nonce)
  solution : HasField value "solution" fun solution =>
    HasField solution "miner" (IsAccount · s.miner) ∧
    HasField solution "energy_milli" (IsSigned · s.energyMilli.toInt) ∧
    HasField solution "reward" (IsAmount · s.reward) ∧
    HasField solution "submitted_at" (IsUnsigned · s.submittedAt.toNat) ∧
    HasField solution "difficulty" (fun d =>
      HasField d "min_solutions" (IsUnsigned · s.minSolutions.toNat) ∧
      HasField d "max_energy_milli" (IsSigned · s.maxEnergyMilli.toInt) ∧
      HasField d "min_diversity_milli" (IsUnsigned · s.minDiversityMilli.toNat)) ∧
    MaybeField solution "device_access_time_us" (fun v (n : UInt64) => IsUnsigned v n.toNat) s.deviceAccessTimeUs ∧
    MaybeField solution "topology_hash" IsAccount s.topologyHash

theorem transposed_eq {α β : Type} {name : String} {P : RuntimeValue → α → Prop} {v : RuntimeValue} {a : Option α}
    {f : RuntimeValue → Except ChainError β} {g : α → β} (hf : ∀ v a, P v a → f v = .ok (g a))
    (h : MaybeField v name P a) : transposed f (maybeField v name) = .ok (a.map g) := by
  cases a with
  | none =>
    have hnone : maybeField v name = none := h
    rw [hnone]
    rfl
  | some a =>
    obtain ⟨w, hw, hP⟩ := h
    rw [hw, transposed, hf w a hP]
    rfl

theorem hash_eq {v : RuntimeValue} {h : AccountId} (hv : IsAccount v h) : hash r v = .ok h.toList := by
  rw [hash, RuntimeReader.bytes_eq hv, ok_bind, if_pos (by simp)]

/-- The retained solution is read from its fields, and a runtime without the newer of them
is read as one that has none. -/
theorem decode_qblock (r : RuntimeReader) {value inner : RuntimeValue} {s : Solution}
    (hsome : scaleOption value = .ok (some inner)) (h : IsSolution inner s) : qblock r value = .ok (some
      { miner := r.accountText s.miner, energyMilli := s.energyMilli.toInt, reward := DigitOrder.text s.reward,
        submittedAt := s.submittedAt.toNat, nonce := DigitOrder.text s.nonce,
        difficulty := ⟨s.minSolutions.toNat, s.maxEnergyMilli.toInt, s.minDiversityMilli.toNat⟩,
        deviceAccessTimeUs := s.deviceAccessTimeUs.map UInt64.toNat,
        topologyHash := s.topologyHash.map Vector.toList }) := by
  obtain ⟨_, h₁, hnonce⟩ := field_eq h.nonce
  obtain ⟨_, h₂, hminer, henergy, hreward, hsubmitted, hdifficulty, haccess, htopology⟩ := field_eq h.solution
  obtain ⟨_, h₃, hminer⟩ := field_eq hminer
  obtain ⟨_, h₄, henergy⟩ := field_eq henergy
  obtain ⟨_, h₅, hreward⟩ := field_eq hreward
  obtain ⟨_, h₆, hsubmitted⟩ := field_eq hsubmitted
  obtain ⟨_, h₇, hsolutions, hmax, hdiversity⟩ := field_eq hdifficulty
  obtain ⟨_, h₈, hmax⟩ := field_eq hmax
  have hle : ∀ n : UInt64, n.toNat ≤ u64Max := fun n => Nat.le_of_lt_succ n.toNat_lt
  rw [qblock, hsome]
  simp only [ok_bind, h₁, h₂, h₃, h₄, h₅, h₆, h₇, h₈, difficulty, RuntimeReader.account_eq hminer,
    RuntimeReader.accountBytes_eq, RuntimeReader.signed_eq henergy, RuntimeReader.signed_eq hmax,
    RuntimeReader.decimal_eq hreward, RuntimeReader.decimal_eq hnonce,
    RuntimeReader.unsigned_eq hsubmitted (hle _), RuntimeReader.u32Field_eq hsolutions,
    RuntimeReader.u32Field_eq hdiversity,
    transposed_eq (fun v (n : UInt64) hv => RuntimeReader.unsigned_eq hv (hle n)) haccess,
    transposed_eq (fun v a hv => hash_eq (r := r) hv) htopology]
  rfl

end ChainEvents

end Dashboard

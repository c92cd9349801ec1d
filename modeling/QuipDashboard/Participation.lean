/-
Participation passes.

A pass reads the participants of a winner in pages, pinned to one finalized state, and
commits each page on its own; only the last page completes the domain.  A `PassRun`
interleaves any number of passes, each stopped anywhere or not at all, with reindexes
and all other calls of the store.

* `participationFrom_safe` — a pass that goes on has a row for every participant that it
  read, unless its generation is gone;
* `participation_complete` — **a height that a pass completed has a row for every
  participant of its pinned list, written under the current generation**.
-/
import QuipDashboard.Indexer
import QuipDashboard.Workers
import QuipDashboard.Soundness

namespace Dashboard

/-! ### Pinned lists -/

/-- The participants of one qblock at one finalized state, in the order of their raw
accounts. -/
structure ParticipantList where
  rows : List ParticipantRow
  ascending : rows.Pairwise fun a b => a.account < b.account

/-- The page that a faithful node serves: the next rows after an account. -/
def ParticipantList.page (l : ParticipantList) (start : Option (List UInt8)) (limit : ℕ) :
    List ParticipantRow :=
  (l.rows.filter fun r => start.all (· < r.account)).take limit

theorem ParticipantList.page_none (l : ParticipantList) (limit : ℕ) :
    l.page none limit = l.rows.take limit := by
  simp [page]

/-- **After the last account that was read come the rows that were not read.** -/
theorem ParticipantList.page_some {l : ParticipantList} {before after : List ParticipantRow}
    (hl : l.rows = before ++ after) {r : ParticipantRow} (hr : before.getLast? = some r)
    (limit : ℕ) : l.page (some r.account) limit = after.take limit := by
  obtain ⟨init, rfl⟩ := List.getLast?_eq_some_iff.mp hr
  have hasc := l.ascending
  rw [hl, List.append_assoc, List.pairwise_append] at hasc
  obtain ⟨-, htail, hinit⟩ := hasc
  rw [List.singleton_append, List.pairwise_cons] at htail
  have hno : ∀ a ∈ init ++ [r], ¬r.account < a.account := by
    intro a ha
    rcases List.mem_append.mp ha with ha | ha
    · exact List.lt_asymm (hinit a ha r (by simp))
    · obtain rfl := List.mem_singleton.mp ha
      exact List.lt_irrefl _
  have hbefore : (init ++ [r]).filter (fun a => decide (r.account < a.account)) = [] :=
    List.filter_eq_nil_iff.mpr fun a ha => by simpa using hno a ha
  have hafter : after.filter (fun a => decide (r.account < a.account)) = after :=
    List.filter_eq_self.mpr fun a ha => by simpa using htail.1 a ha
  rw [page, hl, List.filter_append]
  simp only [Option.all_some, hbefore, hafter, List.nil_append]

/-! ### Passes and their environment -/

/-- One pass: its block, and the generation that its guard expects. -/
structure Pass where
  block : DecodedBlock
  expected : ℕ

/-- The guard of a pass. -/
def Pass.guard (p : Pass) : GenerationGuard := ⟨.participation, p.expected⟩

section

variable (chain : ChainReader) (limit : ℕ) (lists : ChainHash → ℕ → ParticipantList)

/-- The pinned participants of a pass. -/
def Pass.rows (p : Pass) : List ParticipantRow :=
  p.block.events.winner.elim [] fun w => (lists p.block.enrichmentAt w.qblockId).rows

/-- The key of the row that a pass writes for a participant. -/
def Pass.key (p : Pass) (r : ParticipantRow) : ℕ × String :=
  (p.block.events.winner.elim 0 BlockWinnerEvent.qblockId, chain.accountText r.account)

/-- The keys of the rows that a pass owes: one for each pinned participant. -/
def Pass.keys (p : Pass) : List (ℕ × String) := (p.rows lists).map (p.key chain)

/-- A node answers with any error, or faithfully. -/
def FaithfulAnswer : {β : Type} → Query β → Except ChainError β → Prop
  | _, .participantsByQblock at_ qblock start limit, answer =>
    ∀ rows, answer = .ok rows → rows = (lists at_ qblock).page start limit
  | _, _, _ => True

/-- What an effect of a pass may answer, and what it makes of the store.  A store call
takes place as a whole or not at all, also when its answer is lost. -/
def PassAnswer : {γ : Type} → Store → Await γ → γ → Store → Prop
  | _, s, .store op, r, s' => ∃ now, (r = (op.apply now s).1 ∧ s' = (op.apply now s).2) ∨
      (∃ message, r = .error (.database message)) ∧ (s' = s ∨ s' = (op.apply now s).2)
  | _, s, .chain q, r, s' => s' = s ∧ FaithfulAnswer lists q r
  | _, s, _, _, s' => s' = s

/-- A pass starts with the guard that it read. -/
def Pass.Starts (s : Store) (p : Pass) : Prop := s.generation .participation = p.expected

/-- All other calls; only passes complete participation. -/
def OtherCall (s : Store) (c : Call) (s' : Store) : Prop :=
  Calls s c s' ∧ ∀ b, c.op = .commitBlock b → .participation ∉ b.completed

/-- An event of a run of passes. -/
abbrev PassEvent := PoolEvent Await Store Pass Call

/-- The store and the passes at work. -/
abbrev Passes := Pool Await IndexerError Store Pass

/-- One event of passes that are interleaved with each other and with all other calls. -/
def PassStep : Passes → PassEvent → Passes → Prop :=
  Pool.Step (PassAnswer lists) Pass.Starts (fun p => participation chain limit p.block p.guard)
    OtherCall

/-- A run of passes from an empty store. -/
def PassRun (pg : Bool) (genesis : BlockHash) : List PassEvent → Passes → Prop :=
  History.Run (PassStep chain limit lists) ⟨Store.bound pg genesis, fun _ => none⟩

/-- The store calls that lead from one store to another. -/
def Reaches (s s' : Store) : Prop := ∃ cs, History.Run Calls s cs s'

theorem Reaches.refl (s : Store) : Reaches s s := ⟨[], .nil⟩

theorem Reaches.trans {a b c : Store} : Reaches a b → Reaches b c → Reaches a c
  | ⟨_, h⟩, ⟨_, h'⟩ => ⟨_, h.append h'⟩

theorem Calls.reaches {s s' : Store} {c : Call} (h : Calls s c s') : Reaches s s' :=
  ⟨_, .snoc .nil h⟩

theorem PassAnswer.reaches {γ : Type} {s s' : Store} {e : Await γ} {b : γ}
    (h : PassAnswer lists s e b s') : Reaches s s' := by
  cases e with
  | store op =>
    obtain ⟨now, ⟨-, rfl⟩ | ⟨-, rfl | rfl⟩⟩ := h
    · exact (Calls.call now op s).reaches
    · exact .refl _
    · exact (Calls.call now op s).reaches
  | chain q =>
    obtain ⟨rfl, -⟩ := h
    exact .refl _
  | read | note | refresh =>
    obtain rfl : _ = _ := h
    exact .refl _

/-- A commit that was answered is stale, or took place. -/
theorem PassAnswer.ok {b : BlockCommit} {s s' : Store} {r : CommitResult}
    (h : PassAnswer lists s (.store (.commitBlock b)) (.ok r) s') :
    r = .staleGeneration ∨ r ≠ .staleGeneration ∧ Commits b s r s' := by
  obtain ⟨now, ⟨hr, rfl⟩ | ⟨⟨_, hr⟩, -⟩⟩ := h
  · have hcall : commitBlock now b s = (.ok r, ((Op.commitBlock b).apply now s).2) :=
      Prod.ext hr.symm rfl
    rcases commitBlock_cases hcall with ⟨-, ⟨e, he⟩ | ⟨hstale, -⟩⟩ | ⟨r', hok, hc⟩
    · cases he
    · exact .inl (Except.ok.inj hstale)
    · obtain rfl := Except.ok.inj hok
      refine .inr ⟨?_, hc⟩
      rcases hc.result with rfl | rfl <;> decide
  · cases hr

/-! ### Rows that stay -/

/-- The rows of the keys are there, unless the generation is gone. -/
def HasRows (expected : ℕ) (keys : List (ℕ × String)) (s : Store) : Prop :=
  expected ≤ s.generation .participation ∧
    (s.generation .participation = expected → ∀ k ∈ keys, (s.participation.get? k).isSome)

/-- Only a block commit writes a row of `qblock_participation`. -/
theorem Effect.participant {now : Timestamp} {op : Op} {s s' : Store}
    {r : Except StoreError CommitResult} (h : Effect now op s r s') {k : ℕ × String}
    {row : QBlockParticipationRecord} (hin : s'.participation.get? k = some row)
    (hnot : s.participation.get? k ≠ some row) :
    ∃ b, op = .commitBlock b ∧ ⟨.participation, s.generation .participation⟩ ∈ b.guards := by
  cases h with
  | unchanged | began | targeted | floored | initialized | polled | cutOver | recomputed =>
    exact absurd hin hnot
  | appended _ h =>
    rw [h.final] at hin
    exact absurd hin hnot
  | @committed b _ _ _ h =>
    refine ⟨b, rfl, h.guard (BlockCommit.mem_affected.mpr (.inr (.inr (.inr (.inr ⟨?_, rfl⟩)))))⟩
    intro hp
    rw [h.participation_eq, hp] at hin
    exact hnot hin
  | ranged h =>
    rw [h.frame] at hin
    exact absurd hin hnot
  | marked _ h =>
    rw [h.final] at hin
    exact absurd hin hnot
  | reindexed h =>
    rw [h.participation] at hin
    split at hin
    · cases hin
    · exact absurd hin hnot

/-- A call keeps the rows of `qblock_participation`, or reindexes them. -/
theorem Effect.participation_isSome {now : Timestamp} {op : Op} {s s' : Store}
    {r : Except StoreError CommitResult} (h : Effect now op s r s')
    (hno : ¬∃ is, op = .reindex is ∧ .participation ∈ is ∧ r = .ok .applied) {k : ℕ × String}
    (hk : (s.participation.get? k).isSome) : (s'.participation.get? k).isSome := by
  cases h with
  | unchanged | began | targeted | floored | initialized | polled | cutOver | recomputed =>
    exact hk
  | appended _ h =>
    rw [h.final]
    exact hk
  | committed h =>
    rw [h.participation_eq]
    exact putParticipants_isSome hk
  | ranged h =>
    rw [h.frame]
    exact hk
  | marked _ h =>
    rw [h.final]
    exact hk
  | @reindexed is _ _ h =>
    have hi : .participation ∉ is := fun hi => hno ⟨is, rfl, hi, rfl⟩
    rw [h.participation.trans (if_neg (mt mem_reindexed.mp hi))]
    exact hk

theorem Calls.hasRows {expected : ℕ} {keys : List (ℕ × String)} {s s' : Store} {c : Call}
    (h : Calls s c s') (hs : HasRows expected keys s) : HasRows expected keys s' := by
  obtain ⟨-, -, heff⟩ := h.effect
  obtain ⟨hle, hrows⟩ := hs
  rcases heff.generation .participation with ⟨-, hgen⟩ | ⟨hno, hgen⟩
  · -- after a reindex no guard expects the old generation
    refine ⟨by omega, fun heq => ?_⟩
    omega
  · refine ⟨by omega, fun heq k hk => ?_⟩
    exact heff.participation_isSome hno (hrows (by omega) k hk)

theorem Reaches.hasRows {expected : ℕ} {keys : List (ℕ × String)} {s s' : Store}
    (h : Reaches s s') (hs : HasRows expected keys s) : HasRows expected keys s' := by
  obtain ⟨cs, h⟩ := h
  exact h.invariant (I := HasRows expected keys) hs fun hs hc => Calls.hasRows hc hs

/-- A commit writes the rows of its records, under the current generation. -/
theorem Commits.hasRows {b : BlockCommit} {s s' : Store} {r : CommitResult}
    (h : Commits b s r s') {expected : ℕ} (hguard : b.guards = [⟨.participation, expected⟩])
    {keys : List (ℕ × String)} (hs : HasRows expected keys s) :
    HasRows expected (keys ++ b.records.participation.map QBlockParticipationRecord.key) s' ∧
      s'.generation .participation = expected := by
  have hcur : s.generation .participation = expected :=
    h.current ⟨.participation, expected⟩ (by rw [hguard]; exact List.mem_singleton_self _)
  have hgen : s'.generation .participation = expected := by
    rw [Store.generation, h.frame.2.2.1]
    exact hcur
  refine ⟨⟨hgen.ge, fun _ k hk => ?_⟩, hgen⟩
  rw [h.participation_eq]
  rcases List.mem_append.mp hk with hk | hk
  · exact putParticipants_isSome (hs.2 hcur k hk)
  · obtain ⟨p, hp, rfl⟩ := List.mem_map.mp hk
    exact putParticipants_mem hp

/-! ### One pass -/

/-- What a pass guarantees: it only commits pages of its block, and a page completes the
domain only when every participant has its row. -/
def Pass.Guarantee (p : Pass) : {γ : Type} → Store → Await γ → γ → Store → Prop
  | _, s, .store op, _, s' => ∃ b, op = .commitBlock b ∧ b.guards = [p.guard] ∧
      b.height = p.block.events.blockNumber ∧
      (b.completed = [] ∨ b.completed = [.participation] ∧
        ∀ r, Commits b s r s' → ∀ k ∈ p.keys chain lists, (s'.participation.get? k).isSome)
  | _, s, _, _, s' => s' = s

/-- The account that a cursor stands at. -/
def cursorAccount (cursor : Option ParticipantCursor) : Option (List UInt8) :=
  cursor.map ParticipantCursor.account

/-- The last account of the rows that were read. -/
def lastAccount (rows : List ParticipantRow) : Option (List UInt8) :=
  rows.getLast?.map ParticipantRow.account

theorem lastAccount_append (l l' : List ParticipantRow) :
    lastAccount (l ++ l') = (lastAccount l').or (lastAccount l) := by
  rw [lastAccount, List.getLast?_append, Option.map_or]
  rfl

/-- A page splits the rows that were not read yet. -/
structure Pages (before after : List ParticipantRow) (records : List (ℕ × String))
    (key : ParticipantRow → ℕ × String) (page : ParticipationPage) (mid rest : List ParticipantRow) :
    Prop where
  split : after = mid ++ rest
  records : records = mid.map key
  exhausted : page.exhausted = true → rest = []
  cursor : page.exhausted = false → cursorAccount page.cursor = lastAccount (before ++ mid)

variable {chain limit lists}

/-- **A page of a faithful node holds the next participants**, and it is the last one only
when none remain. -/
theorem participationPage_safe {p : Pass} {before after : List ParticipantRow}
    (hrows : p.rows lists = before ++ after) {cursor : Option ParticipantCursor}
    (hat : cursorAccount cursor = lastAccount before) {I : Store → Prop}
    (hI : ∀ {s s'}, Reaches s s' → I s → I s') {s : Store} (hs : I s) :
    (participationPage chain limit p.block cursor).Safe (PassAnswer lists) Reaches
      (p.Guarantee chain lists) (fun
        | .ok page, t => I t ∧ ∃ mid rest, Pages before after
            (page.records.map QBlockParticipationRecord.key) (p.key chain) page mid rest
        | .error _, _ => True) s := by
  unfold participationPage
  cases hw : p.block.events.winner with
  | none =>
    have hnil : before ++ after = [] := by
      rw [← hrows, Pass.rows, hw]
      rfl
    obtain ⟨-, rfl⟩ := List.append_eq_nil_iff.mp hnil
    exact ⟨hs, [], [], rfl, rfl, fun _ => rfl, nofun⟩
  | some w =>
    have hlist : (lists p.block.enrichmentAt w.qblockId).rows = before ++ after := by
      rw [← hrows, Pass.rows, hw]
      rfl
    refine .bind ?_
    unfold participantPage
    refine .ofExcept (fun _ hlimit => ?_) fun _ _ => trivial
    refine .ite (fun _ => trivial) fun _ => ?_
    refine .awaitOk (fun s₁ _ _ _ h => h.1) (fun s₁ hs₁ rows s₂ h => ?_) fun _ _ _ _ _ => trivial
    obtain ⟨rfl, hfaithful⟩ := h
    have hpage : rows = after.take limit := by
      rw [hfaithful rows rfl]
      show ParticipantList.page _ (cursorAccount cursor) limit = _
      rw [hat, lastAccount]
      cases hlast : before.getLast? with
      | none =>
        obtain rfl := List.getLast?_eq_none_iff.mp hlast
        exact (ParticipantList.page_none _ limit).trans (by rw [hlist]; rfl)
      | some r => exact ParticipantList.page_some hlist hlast limit
    refine .ite (fun _ => trivial) fun _ => ?_
    refine .ofExcept (fun participants hps => ?_) fun _ _ => trivial
    have hdecoded : decodeParticipants chain w.qblockId (cursor.map ParticipantCursor.account) rows =
        .ok participants := by
      cases hd : decodeParticipants chain w.qblockId _ rows with
      | ok ps =>
        rw [hd] at hps
        exact congrArg _ (Except.ok.inj hps)
      | error e =>
        rw [hd] at hps
        cases hps
    obtain ⟨rfl, -⟩ := decodeParticipants_ok hdecoded
    refine .ite (fun _ => trivial) fun _ => ?_
    refine ⟨hI hs₁ hs, rows, after.drop limit, ?_, ?_, ?_, ?_⟩
    · rw [hpage, List.take_append_drop]
    · rw [List.map_map, List.map_map]
      refine List.map_congr_left fun r _ => ?_
      show (w.qblockId, chain.accountText r.account) = _
      rw [Pass.key, hw]
      rfl
    · intro hexhausted
      -- a short page means that no participants remain
      have hshort : rows.length < limit := of_decide_eq_true hexhausted
      rw [hpage, List.length_take] at hshort
      exact List.drop_eq_nil_of_le (by omega)
    · intro hmore
      have hmore : decide (rows.length < limit) = false := hmore
      rw [lastAccount_append, ← hat]
      show cursorAccount (if decide (rows.length < limit) = true then none else _) = _
      rw [hmore, if_neg Bool.false_ne_true, cursorAccount, Option.map_map]
      exact Option.map_id'

/-- **A pass keeps its guarantee from every round on**, whatever others do meanwhile. -/
theorem participationFrom_safe {p : Pass} (rounds : ℕ) {before after : List ParticipantRow}
    (hrows : p.rows lists = before ++ after) {cursor : Option ParticipantCursor}
    (hat : cursorAccount cursor = lastAccount before) {s : Store}
    (hs : HasRows p.expected (before.map (p.key chain)) s) :
    (participationFrom chain limit p.block p.guard rounds cursor).Safe (PassAnswer lists) Reaches
      (p.Guarantee chain lists) (fun _ _ => True) s := by
  induction rounds generalizing before after cursor s with
  | zero => trivial
  | succ rounds ih =>
    refine .bind (.imp ?_ (participationPage_safe hrows hat (fun h => h.hasRows) hs))
    rintro (e | page) t ht
    · trivial
    obtain ⟨ht, mid, rest, hpage⟩ := ht
    -- what the page's commit leaves behind
    have hcommit : ∀ {s₁ s₂ : Store} {r : CommitResult}, Reaches t s₁ →
        Commits (participationBatch chain p.block p.guard page) s₁ r s₂ →
        HasRows p.expected ((before ++ mid).map (p.key chain)) s₂ ∧
          s₂.generation .participation = p.expected := by
      intro s₁ s₂ r hs₁ hc
      have hrec := hc.hasRows rfl (hs₁.hasRows ht)
      rw [show (participationBatch chain p.block p.guard page).records.participation = page.records
        from rfl, hpage.records, ← List.map_append] at hrec
      exact hrec
    have hall : page.exhausted = true → p.rows lists = before ++ mid := by
      intro hexhausted
      rw [hrows, hpage.split, hpage.exhausted hexhausted, List.append_nil]
    refine .awaitOk (fun s₁ hs₁ _ s₂ _ => ?_) (fun s₁ hs₁ r s₂ hr => ?_) fun _ _ _ _ _ => trivial
    · refine ⟨_, rfl, rfl, rfl, ?_⟩
      show (if page.exhausted then _ else _) = _ ∨ (if page.exhausted then _ else _) = _ ∧ _
      cases hex : page.exhausted with
      | false => exact .inl rfl
      | true =>
        refine .inr ⟨rfl, fun r hc k hk => ?_⟩
        obtain ⟨hrec, hgen⟩ := hcommit hs₁ hc
        rw [Pass.keys, hall hex] at hk
        exact hrec.2 hgen k hk
    · rcases PassAnswer.ok lists hr with rfl | ⟨hne, hc⟩
      · trivial
      -- the page is committed
      have hnext : Program.Safe (PassAnswer lists) Reaches (p.Guarantee chain lists)
          (fun _ _ => True) (do
            Ix.note (.files none page.records)
            if page.exhausted then Ix.note (.committed p.block.events.blockNumber)
            else participationFrom chain limit p.block p.guard rounds page.cursor) s₂ := by
        refine .await fun s₃ hs₃ _ s₄ h₄ => ⟨h₄, ?_⟩
        obtain rfl : s₄ = s₃ := h₄
        refine .ite (fun _ => ?_) fun hmore => ?_
        · exact fun s₅ _ _ s₆ h₆ => ⟨h₆, trivial⟩
        · have hsplit : p.rows lists = (before ++ mid) ++ rest := by
            rw [hrows, hpage.split, List.append_assoc]
          refine ih hsplit ?_ (hs₃.hasRows (hcommit hs₁ hc).1)
          exact hpage.cursor (by simpa using hmore)
      cases r with
      | applied | alreadyApplied => exact hnext
      | staleGeneration => exact absurd rfl hne

/-! ### Runs of passes -/

variable {pg : Bool} {genesis : BlockHash} {es : List PassEvent}
  {π π' : Passes} {ev : PassEvent}

/-- Every effect of a pass in a run satisfies its guarantee. -/
theorem PassRun.guarantee (h : PassRun chain limit lists pg genesis es π) {p : Pass} {γ : Type}
    {pre post : Store} {e : Await γ} {b : γ} (he : PoolEvent.effect p pre e b post ∈ es) :
    p.Guarantee chain lists pre e b post := by
  refine PoolRun.guarantee (R := Reaches) (G := fun p => p.Guarantee chain lists) Reaches.refl
    Reaches.trans (PassAnswer.reaches lists) (fun h => h.1.reaches) ?_ h he
  intro s p hs
  refine participationFrom_safe _ (show p.rows lists = [] ++ p.rows lists from rfl) rfl ?_
  exact ⟨(show s.generation _ = _ from hs).ge, fun _ => nofun⟩

/-- The events that reindexed participation. -/
def PassEvent.reindexed : PassEvent → Prop
  | .other c => c.reindexed .participation
  | _ => False

instance : DecidablePred PassEvent.reindexed
  | .other c => inferInstanceAs (Decidable (c.reindexed .participation))
  | .started .. | .effect .. | .dropped _ => .isFalse id

/-- The event made this call of the store. -/
def PassEvent.Made (ev : PassEvent) (c : Call) : Prop :=
  ev = .other c ∨ ∃ p ans, ev = .effect p c.pre (.store c.op) ans c.post

/-- An event leaves the store alone, or makes one call; passes do not reindex. -/
theorem PassRun.step (h : PassRun chain limit lists pg genesis es π)
    (hs : PassStep chain limit lists π ev π') :
    (π'.state = π.state ∧ ¬ev.reindexed) ∨ ∃ c, ev.Made c ∧ Calls π.state c π'.state ∧
      (∀ b, ev = .other c → c.op = .commitBlock b → .participation ∉ b.completed) ∧
      (c.reindexed .participation ↔ ev.reindexed) := by
  have hguarantee : ∀ {p : Pass} {γ : Type} {pre post : Store} {e : Await γ} {b : γ},
      PoolEvent.effect p pre e b post ∈ ev :: es → p.Guarantee chain lists pre e b post :=
    fun he => PassRun.guarantee (History.Run.snoc h hs) he
  have hanswer : ∀ {γ : Type} {p : Pass} {e : Await γ} {b : γ} {s : Store},
      PassAnswer lists π.state e b s →
      (∀ {ev' : PassEvent}, ev' = .effect p π.state e b s → p.Guarantee chain lists π.state e b s) →
      s = π.state ∨ ∃ c, PassEvent.Made (.effect p π.state e b s) c ∧ Calls π.state c s ∧
        ¬c.reindexed .participation := by
    intro γ p e b s ha hG
    have hG := hG rfl
    cases e with
    | store op =>
      obtain ⟨batch, rfl, -⟩ := hG
      obtain ⟨now, ⟨-, rfl⟩ | ⟨-, rfl | rfl⟩⟩ := ha
      · exact .inr ⟨_, .inr ⟨p, b, rfl⟩, .call now (.commitBlock batch) π.state, nofun⟩
      · exact .inl rfl
      · exact .inr ⟨_, .inr ⟨p, b, rfl⟩, .call now (.commitBlock batch) π.state, nofun⟩
    | chain | read | note | refresh => exact .inl hG
  cases hs with
  | start | drop => exact .inl ⟨rfl, id⟩
  | effect ht ha | interrupted ht ha =>
    rcases hanswer ha fun _ => hguarantee (List.mem_cons_self ..) with hsame | ⟨c, hmade, hc, hno⟩
    · exact .inl ⟨hsame, id⟩
    · exact .inr ⟨c, hmade, hc, fun _ => nofun, iff_of_false hno id⟩
  | @other c s hc =>
    refine .inr ⟨c, .inl rfl, hc.1, fun b _ hop => hc.2 b hop, Iff.rfl⟩

theorem PassRun.storeRun (h : PassRun chain limit lists pg genesis es π) :
    ∃ cs, StoreRun pg genesis cs π.state := by
  induction h with
  | nil => exact ⟨[], .nil⟩
  | snoc hrun hs ih =>
    rcases PassRun.step hrun hs with ⟨hsame, -⟩ | ⟨c, -, hc, -⟩
    · rw [hsame]
      exact ih
    · obtain ⟨cs, hcs⟩ := ih
      exact ⟨_, .snoc hcs hc⟩

/-- A pass completed participation at `n` in generation `gen`. -/
def PassEvent.Completes (ev : PassEvent) (p : Pass) (gen n : ℕ) : Prop :=
  ∃ pre b ans post r, ev = .effect p pre (.store (.commitBlock b)) ans post ∧
    Commits b pre r post ∧ b.completed = [.participation] ∧ b.height = n ∧
    b.guards = [⟨.participation, gen⟩]

/-- A commit under the guard of generation `gen` wrote a row of `qblock_participation`. -/
def PassEvent.Writes (ev : PassEvent) (gen : ℕ) (k : ℕ × String)
    (row : QBlockParticipationRecord) : Prop :=
  ∃ c b, ev.Made c ∧ c.op = .commitBlock b ∧ ⟨.participation, gen⟩ ∈ b.guards ∧
    c.pre.participation.get? k ≠ some row ∧ c.post.participation.get? k = some row

/-- What newly covers a height of participation. -/
theorem PassRun.covers (h : PassRun chain limit lists pg genesis es π)
    (hs : PassStep chain limit lists π ev π') {n : ℕ}
    (hn : n ∈ π'.state.covered .participation) :
    ((∃ p, ev.Completes p (π'.state.generation .participation) n) ∨ ∃ c, ev = .other c ∧
        c.CommitsRange genesis .participation (π'.state.generation .participation) n) ∧
      ¬ev.reindexed ∨
    (n ∈ π.state.covered .participation ∧
        π.state.generation .participation = π'.state.generation .participation) ∧
      ¬ev.reindexed := by
  rcases PassRun.step h hs with ⟨hsame, hno⟩ | ⟨c, hmade, hc, hother, hre⟩
  · rw [hsame] at hn ⊢
    exact .inr ⟨⟨hn, rfl⟩, hno⟩
  obtain ⟨hpre, hpost, heff⟩ := hc.effect
  rcases heff.generation .participation with ⟨⟨is, hop, hi, hout⟩, -⟩ | ⟨hno, hgen⟩
  · -- a reindex leaves nothing covered
    rw [hop, hout] at heff
    rw [heff.reindex.covered _ (mem_reindexed.mpr hi)] at hn
    exact absurd hn (Set.notMem_empty n)
  have hno : ¬ev.reindexed := mt hre.mpr hno
  by_cases hold : n ∈ π.state.covered .participation
  · exact .inr ⟨⟨hold, hgen.symm⟩, hno⟩
  refine .inl ⟨?_, hno⟩
  -- a new height is covered by a commit, of the pass or of another writer
  obtain ⟨cs, hcs⟩ := PassRun.storeRun h
  have hguarantee : ∀ {p : Pass} {γ : Type} {pre post : Store} {e : Await γ} {b : γ},
      PoolEvent.effect p pre e b post ∈ ev :: es → p.Guarantee chain lists pre e b post :=
    fun he => PassRun.guarantee (History.Run.snoc h hs) he
  obtain ⟨-, ⟨b, hop, hb, hi, rfl⟩ | ⟨r, hop, -⟩⟩ := heff.covered hn hold
  · rcases hmade with rfl | ⟨p, ans, rfl⟩
    · exact absurd hi (hother b rfl hop)
    · left
      obtain ⟨b', hb', hguards, -, hcompleted⟩ := hguarantee (List.mem_cons_self ..)
      obtain rfl : b' = b := by
        rw [hop] at hb'
        cases hb'
        rfl
      have hfull : b'.completed = [.participation] := by
        rcases hcompleted with hnil | ⟨hfull, -⟩
        · rw [hnil] at hi
          cases hi
        · exact hfull
      have hcur : π.state.generation .participation = p.expected :=
        hb.current p.guard (by rw [hguards]; exact List.mem_singleton_self _)
      refine ⟨p, c.pre, b', ans, c.post, .applied, by rw [hop], ?_, hfull, rfl, ?_⟩
      · rw [hpre, hpost]
        exact hb
      · rw [hgen, hcur, hguards]
        rfl
  · right
    rcases heff.covers (StoreRun.genesis hcs) hn hold with ⟨-, b, hb, -⟩ | hrange
    · rw [hop] at hb
      cases hb
    · rcases hmade with rfl | ⟨p, ans, rfl⟩
      · refine ⟨c, rfl, ?_⟩
        rw [← hpre, ← hpost] at hrange
        rw [← hpost]
        exact hrange
      · obtain ⟨b, hb, -⟩ := hguarantee (List.mem_cons_self ..)
        rw [hop] at hb
        cases hb

/-- A row that stands after an event was written by it, or stood before. -/
theorem PassRun.writes (h : PassRun chain limit lists pg genesis es π)
    (hs : PassStep chain limit lists π ev π') {k : ℕ × String} {row : QBlockParticipationRecord}
    (hrow : π'.state.participation.get? k = some row) :
    ev.Writes (π'.state.generation .participation) k row ∧ ¬ev.reindexed ∨
    (π.state.participation.get? k = some row ∧
      π.state.generation .participation = π'.state.generation .participation) ∧
      ¬ev.reindexed := by
  rcases PassRun.step h hs with ⟨hsame, hno⟩ | ⟨c, hmade, hc, -, hre⟩
  · rw [hsame] at hrow ⊢
    exact .inr ⟨⟨hrow, rfl⟩, hno⟩
  obtain ⟨hpre, hpost, heff⟩ := hc.effect
  rcases heff.generation .participation with ⟨⟨is, hop, hi, hout⟩, -⟩ | ⟨hno, hgen⟩
  · -- a reindex leaves no row
    rw [hop, hout] at heff
    rw [heff.reindex.participation.trans (if_pos (mem_reindexed.mpr hi))] at hrow
    cases hrow
  have hno : ¬ev.reindexed := mt hre.mpr hno
  by_cases hold : π.state.participation.get? k = some row
  · exact .inr ⟨⟨hold, hgen.symm⟩, hno⟩
  · obtain ⟨b, hop, hguard⟩ := heff.participant hrow hold
    refine .inl ⟨⟨c, b, hmade, hop, ?_, ?_, ?_⟩, hno⟩
    · rw [hgen]
      exact hguard
    · rw [hpre]
      exact hold
    · rw [hpost]
      exact hrow

/-- What a pass completed since the last reindex still has its rows. -/
theorem PassRun.rows (h : PassRun chain limit lists pg genesis es π) {p : Pass} {gen n : ℕ}
    (he : ev ∈ History.since PassEvent.reindexed es) (hev : ev.Completes p gen n)
    {k : ℕ × String} (hk : k ∈ p.keys chain lists) :
    (π.state.participation.get? k).isSome := by
  induction h with
  | nil => cases he
  | @snoc es π π' ev' hrun hs ih =>
    have hno : ¬ev'.reindexed := by
      intro hre
      rw [History.since_cons_of hre] at he
      cases he
    rw [History.since_cons_of_not hno] at he
    rcases List.mem_cons.mp he with rfl | he
    · -- the completing commit itself
      obtain ⟨pre, b, ans, post, r, rfl, hc, hfull, -⟩ := hev
      obtain ⟨b', hb', -, -, hnil | ⟨-, hrows⟩⟩ :=
        PassRun.guarantee (History.Run.snoc hrun hs) (List.mem_cons_self ..)
      · cases hb'
        rw [hnil] at hfull
        cases hfull
      · cases hb'
        have hpost : π'.state = post := by
          cases hs <;> rfl
        rw [hpost]
        exact hrows r hc k hk
    · have hk' := ih he
      rcases PassRun.step hrun hs with ⟨hsame, -⟩ | ⟨c, -, hc, -, hre⟩
      · rw [hsame]
        exact hk'
      · obtain ⟨-, -, heff⟩ := hc.effect
        exact heff.participation_isSome (mt hre.mp hno) hk'

/-- A commit of a pass that changed the store took place. -/
theorem PassRun.commits (h : PassRun chain limit lists pg genesis es π) {p : Pass}
    {pre post : Store} {b : BlockCommit} {ans : Except StoreError CommitResult}
    (he : PoolEvent.effect p pre (.store (.commitBlock b)) ans post ∈ es) (hne : post ≠ pre) :
    ∃ r, Commits b pre r post := by
  obtain ⟨es', π₁, π₂, hrun, hs⟩ := h.before he
  have hstates : π₁.state = pre ∧ π₂.state = post := by
    cases hs <;> exact ⟨rfl, rfl⟩
  rcases PassRun.step hrun hs with ⟨hsame, -⟩ | ⟨c, hmade, hc, -⟩
  · rw [hstates.1, hstates.2] at hsame
    exact absurd hsame hne
  obtain ⟨-, -, heff⟩ := hc.effect
  have hop : c.op = .commitBlock b := by
    rcases hmade with hmade | ⟨q, a, hmade⟩
    · cases hmade
    · obtain ⟨now, op, s, r, s'⟩ := c
      cases hmade
      rfl
  rw [hop, hstates.1, hstates.2] at heff
  generalize c.outcome = r at heff
  cases heff with
  | unchanged => exact absurd rfl hne
  | committed hc => exact ⟨_, hc⟩

/-- **Participation is complete where a pass completed it.**  In every interleaving of
passes with reindexes and all other calls, where each pass may be stopped or fail
anywhere: a covered height was completed by a pass since the last reindex, under the
current generation, or lies in a committed range; every participant of the list that a
completing pass read has a row, written by a commit since the last reindex under the
current generation; and an event of a pass that covers a height leaves a row for every
participant of its list. -/
theorem participation_complete (h : PassRun chain limit lists pg genesis es π) :
    (∀ n ∈ π.state.covered .participation, ∃ ev ∈ History.since PassEvent.reindexed es,
      (∃ p, ev.Completes p (π.state.generation .participation) n) ∨ ∃ c, ev = .other c ∧
        c.CommitsRange genesis .participation (π.state.generation .participation) n) ∧
    (∀ ev ∈ History.since PassEvent.reindexed es, ∀ p gen n, ev.Completes p gen n →
      ∀ k ∈ p.keys chain lists, ∃ row, π.state.participation.get? k = some row ∧
        ∃ ev' ∈ History.since PassEvent.reindexed es,
          ev'.Writes (π.state.generation .participation) k row) ∧
    ∀ (p : Pass) pre (γ : Type) (e : Await γ) ans post, .effect p pre e ans post ∈ es →
      post.covered .participation ≠ pre.covered .participation →
      ∀ k ∈ p.keys chain lists, (post.participation.get? k).isSome := by
  refine ⟨?_, ?_, ?_⟩
  · intro n hn
    -- the last event that made it so: the start has no coverage, and no step has another cause
    obtain ⟨gen, hgen⟩ : ∃ gen, π.state.generation .participation = gen := ⟨_, rfl⟩
    rw [hgen]
    refine History.Run.cause (F := fun π : Passes => n ∈ π.state.covered .participation ∧
      π.state.generation .participation = gen) ?_ ?_ h ⟨hn, hgen⟩
    · rintro ⟨⟨cov, hcov, -⟩, -⟩
      cases hcov
    · rintro es π ev π' hrun hs ⟨hn', rfl⟩
      exact PassRun.covers hrun hs hn'
  · intro ev he p gen n hev k hk
    obtain ⟨row, hrow⟩ := Option.isSome_iff_exists.mp (PassRun.rows h he hev hk)
    refine ⟨row, hrow, ?_⟩
    obtain ⟨gen', hgen⟩ : ∃ gen, π.state.generation .participation = gen := ⟨_, rfl⟩
    rw [hgen]
    refine History.Run.cause (F := fun π : Passes => π.state.participation.get? k = some row ∧
      π.state.generation .participation = gen') ?_ ?_ h ⟨hrow, hgen⟩
    · rintro ⟨hnone, -⟩
      cases hnone
    · rintro es π ev π' hrun hs ⟨hrow', rfl⟩
      exact PassRun.writes hrun hs hrow'
  · intro p pre γ e ans post he hne k hk
    -- only a commit of the pass covers a height, and it completes after all its rows
    have hG := PassRun.guarantee h he
    cases e with
    | store op =>
      obtain ⟨b, rfl, -, -, hcompleted⟩ := hG
      obtain ⟨r, hc⟩ := PassRun.commits h he (fun hsame => hne (by rw [hsame]))
      rcases hcompleted with hnil | ⟨-, hrows⟩
      · exact absurd (Store.covered_congr (hc.coverage_eq _ (by rw [hnil]; exact nofun))) hne
      · exact hrows r hc k hk
    | chain | read | note | refresh =>
      obtain rfl : post = pre := hG
      exact absurd rfl hne

end

/-! ### A list of two full pages -/

/-- Two participants, of the zero account and of the account of ones. -/
def twoParticipants : ParticipantList where
  rows := [⟨List.replicate 32 0, 7, "Cpu", some 60, 4⟩, ⟨List.replicate 32 1, 7, "Gpu", none, 5⟩]
  ascending := by decide

/-- The reader of the witness; the texts are those of its two accounts. -/
def pairReader : ChainReader where
  genesis := ⟨List.replicate 32 1, by decide⟩
  accountText account :=
    if account = List.replicate 32 0 then "5C4hrfjw9DjXZTzV3MwzrrAr9P1MJhSrvWGWqi1eSuyUpnhM"
    else "5C62Ck4UrFPiBtoCmeSrgF7x9yv9mn38446dhCpsi2mLHiFT"
  qblockHeight _ := .error (.unavailable "")

/-- A pass over the block 5, which the qblock 7 won. -/
def pairPass : Pass where
  block :=
    { hash := ⟨List.replicate 32 2, by decide⟩
      header := ⟨⟨List.replicate 32 3, by decide⟩, .ok 5⟩
      events := ⟨5, none, 0, some ⟨7, "", .ok 0, 0⟩, [], none⟩
      qblock := none
      qblockError := none
      enrichmentAt := ⟨List.replicate 32 2, by decide⟩ }
  expected := 1

/-- A node that serves only participants. -/
def pairNode : {β : Type} → Query β → Except ChainError β
  | _, .participantsByQblock _ _ start limit => .ok (twoParticipants.page start limit)
  | _, .blockHash _ | _, .block .. | _, .lastProofBlock _ | _, .defaultTopology _
  | _, .topologySummary .. | _, .qblockKeys .. => .error (.unavailable "")

/-- Effects that are answered at once. -/
def pairAnswer : {γ : Type} → Await γ → Store → γ × Store
  | _, .store op, s => op.apply (.utc 0) s
  | _, .read f, s => (f s, s)
  | _, .chain q, s => (pairNode q, s)
  | _, .note _, s => ((), s)
  | _, .refresh _, s => (.ok (), s)

/-- The pass reads three pages, of which the last one is empty, and covers its block. -/
theorem participation_complete_pair : ∃ es π,
    PassRun pairReader 1 (fun _ _ => twoParticipants) false (.uniform 1) es π ∧
      5 ∈ π.state.covered .participation ∧ ∃ ev ∈ History.since PassEvent.reindexed es,
      (∃ p, ev.Completes p (π.state.generation .participation) 5) ∨ ∃ c, ev = .other c ∧
        c.CommitsRange (.uniform 1) .participation (π.state.generation .participation) 5 := by
  have hanswer : ∀ {γ : Type} (s : Store) (e : Await γ),
      PassAnswer (fun _ _ => twoParticipants) s e (pairAnswer e s).1 (pairAnswer e s).2 := by
    intro γ s e
    cases e with
    | store op => exact ⟨.utc 0, .inl ⟨rfl, rfl⟩⟩
    | chain q =>
      refine ⟨rfl, ?_⟩
      cases q with
      | participantsByQblock =>
        intro rows hrows
        exact (Except.ok.inj hrows).symm
      | blockHash | block | lastProofBlock | defaultTopology | topologySummary | qblockKeys =>
        trivial
    | read | note | refresh => rfl
  have hdone : ((participation pairReader 1 pairPass.block pairPass.guard).exec pairAnswer
      (Store.bound false (.uniform 1))).any (fun q =>
        (q.2.coverages.get? .participation).any (·.contains 5 5)) = true := by decide +kernel
  obtain ⟨⟨r, s⟩, hx, hcov⟩ := (Option.any_eq_true ..).mp hdone
  have hstart : PassRun pairReader 1 (fun _ _ => twoParticipants) false (.uniform 1) []
      ⟨Store.bound false (.uniform 1), fun _ => none⟩ := .nil
  obtain ⟨es, π, run, rfl⟩ := PoolRun.alone hanswer hstart (show Pass.Starts _ pairPass from rfl) hx
  have h5 : 5 ∈ π.state.covered .participation := (Option.any_eq_true ..).mp hcov
  exact ⟨_, π, run, h5, (participation_complete run).1 5 h5⟩

end Dashboard

/-
The effects of replaying one height.

`process` reads guards, requests a block and commits what it completed; whatever the node
and the store answer, it commits blocks of its own height only.

* `Replays` — the effects of a replay, in any state and under any answers, with one rule
  for each kind of effect;
* `process_replays`, `backfillBlock_replays` — **replaying a height commits blocks of that
  height only**.
-/
import QuipDashboard.Backfill
import QuipDashboard.Recorded
import QuipDashboard.CommittedTargets

namespace Dashboard

/-! ### Rules -/

/-- A decoded block carries the height of its header in its events. -/
def DecodedAnswer : {β : Type} → Query β → Except ChainError β → Prop
  | _, .block _ _ _, answer => ∀ block, answer = .ok block →
    block.header.height = .ok block.events.blockNumber
  | _, _, _ => True

/-- What any effect may answer. -/
def Await.Decoded : {γ : Type} → Await γ → γ → Prop
  | _, .chain q, answer => DecodedAnswer q answer
  | _, _, _ => True

/-- An effect of the replay of a height: it commits blocks of that height, or none. -/
def Await.Replays (height : ℕ) : {γ : Type} → Await γ → Prop
  | _, .store op => (∃ b, op = .commitBlock b ∧ b.height = height) ∨ op.Uncommitting
  | _, _ => True

/-- A function of the indexer with such effects only, and with a result that satisfies `Q`. -/
def Replays (height : ℕ) {α : Type} (Q : α → Prop) (p : Ix α) : Prop :=
  p.Emits Await.Decoded (Await.Replays height) fun r => ∀ a, r = .ok a → Q a

namespace Replays

variable {height : ℕ} {α β : Type} {Q : α → Prop}

theorem imp {Q' : α → Prop} (hQ : ∀ a, Q a → Q' a) {p : Ix α} (h : Replays height Q p) :
    Replays height Q' p :=
  Program.Emits.imp (fun _ hr a ha => hQ a (hr a ha)) h

theorem done {a : α} (h : Q a) : Replays height Q (pure a) := by
  rintro _ ⟨rfl⟩
  exact h

theorem fail (e : IndexerError) : Replays height Q (.fail e) := by
  rintro _ ⟨⟩

theorem bind {Q' : β → Prop} {p : Ix α} {f : α → Ix β} (hp : Replays height Q p)
    (hf : ∀ a, Q a → Replays height Q' (f a)) : Replays height Q' (p >>= f) := by
  refine Program.Emits.bind (Program.Emits.imp ?_ hp)
  rintro (e | a) hr
  · rintro _ ⟨⟩
  · exact hf a (hr a rfl)

theorem read {f : Store → Except StoreError β} {k : β → Ix α}
    (h : ∀ b, Replays height Q (k b)) : Replays height Q (Ix.read f >>= k) :=
  Program.Emits.awaitOk trivial (fun b _ => h b) fun _ _ h => by cases h

theorem chain {q : Query β} {k : β → Ix α}
    (h : ∀ b, DecodedAnswer q (.ok b) → Replays height Q (k b)) :
    Replays height Q (Ix.chain q >>= k) :=
  Program.Emits.awaitOk trivial h fun _ _ h => by cases h

theorem store {op : Op} {k : CommitResult → Ix α} (hop : Await.Replays height (.store op))
    (h : ∀ r, Replays height Q (k r)) : Replays height Q (Ix.store op >>= k) :=
  Program.Emits.awaitOk hop (fun b _ => h b) fun _ _ h => by cases h

theorem await {e : Await β} {k : β → Ix α} (he : e.Replays height)
    (h : ∀ b, e.Decoded b → Replays height Q (k b)) :
    Replays height Q (Program.await e >>= k) :=
  Program.Emits.await he h

theorem note {n : Note} {k : Unit → Ix α} (h : Replays height Q (k ())) :
    Replays height Q (Ix.note n >>= k) :=
  .await trivial fun _ _ => h

theorem noted (n : Note) : Replays height (fun _ => True) (Ix.note n) :=
  Program.Emits.await (f := pure) (P := Await.Replays height) trivial fun _ _ _ _ => trivial

theorem ofExcept {r : Except IndexerError β} {k : β → Ix α}
    (h : ∀ b, r = .ok b → Replays height Q (k b)) :
    Replays height Q (Program.ofExcept r >>= k) :=
  Program.Emits.ofExcept h fun _ _ _ h => by cases h

theorem ite {c : Prop} [Decidable c] {p q : Ix α} (hp : c → Replays height Q p)
    (hq : ¬c → Replays height Q q) : Replays height Q (if c then p else q) :=
  Program.Emits.ite hp hq

/-- A caller that matches on the result. -/
theorem attempt {p : Ix α} (h : Replays height Q p) {k : Except IndexerError α → Ix β}
    {Q' : β → Prop} (hok : ∀ a, Q a → Replays height Q' (k (.ok a)))
    (herr : ∀ e, Replays height Q' (k (.error e))) :
    Replays height Q' (p.attempt >>= k) := by
  refine Program.Emits.bind (Program.Emits.attempt (Program.Emits.imp ?_ h))
  rintro (e | a) hr
  · exact herr e
  · exact hok a (hr a rfl)

end Replays

section

variable {height : ℕ}

theorem checkResult_replays {α : Type} {Q : α → Prop} (r : CommitResult) {k : Unit → Ix α}
    (h : Replays height Q (k ())) : Replays height Q (checkResult r >>= k) := by
  cases r with
  | applied | alreadyApplied => exact h
  | staleGeneration => exact .fail _

theorem noteChainError_replays (r : Except IndexerError Unit) :
    Replays height (fun _ => True) (noteChainError r) := by
  unfold noteChainError
  split
  · exact .done trivial
  · exact .noted _
  · exact .fail _

theorem guards_replays (h : ℕ) (authorship : Bool) :
    Replays height (fun _ => True) (guards h authorship) := by
  unfold guards
  generalize domains = is
  induction is with
  | nil => exact .done trivial
  | cons i is ih =>
    unfold guardsOf
    refine .ite (fun _ => ih) fun _ => .read fun expected => .read fun coverage => ?_
    refine .ite (fun _ => ih) fun _ => .read fun unavailable => .ite (fun _ => ih) fun _ => ?_
    exact .bind ih fun _ _ => .done trivial

theorem raiseFloors_replays (h : ℕ) (gs : List GenerationGuard) :
    Replays height (fun _ => True) (raiseFloors h gs) := by
  induction gs with
  | nil => exact .done trivial
  | cons g gs ih =>
    exact .read fun coverage => .store (.inr trivial) fun r => checkResult_replays r ih

theorem attemptBlock_replays {hash : ChainHash} {purpose : BlockPurpose}
    {enrichmentAt : ChainHash} {h : ℕ} {gs : List GenerationGuard}
    {again : ChainError → Ix (Option DecodedBlock)}
    {Q : Option DecodedBlock → Prop} (hnone : Q none)
    (hblock : ∀ block, block.header.height = .ok block.events.blockNumber → Q (some block))
    (hagain : ∀ e, Replays height Q (again e)) :
    Replays height Q (attemptBlock hash purpose enrichmentAt h gs again) := by
  unfold attemptBlock
  refine .await trivial fun answer hanswer => ?_
  split
  · exact .done (hblock _ (hanswer _ rfl))
  · exact .bind (raiseFloors_replays h gs) fun _ _ => .note (.done hnone)
  · exact .note (hagain _)

theorem requestBlock_replays {hash : ChainHash} {purpose : BlockPurpose}
    {enrichmentAt : ChainHash} {h : ℕ} {gs : List GenerationGuard}
    {Q : Option DecodedBlock → Prop} (hnone : Q none)
    (hblock : ∀ block, block.header.height = .ok block.events.blockNumber → Q (some block))
    (retries : ℕ) : Replays height Q (requestBlock hash purpose enrichmentAt h gs retries) := by
  induction retries with
  | zero => exact attemptBlock_replays hnone hblock fun e => .fail _
  | succ retries ih => exact attemptBlock_replays hnone hblock fun _ => ih

theorem decodeBlock_replays (target : Target) (gs : List GenerationGuard) :
    Replays height (fun o => ∀ block ∈ o, block.events.blockNumber = height)
      (decodeBlock height target gs) := by
  unfold decodeBlock
  refine .chain fun found _ => ?_
  split
  · exact .fail _
  refine .bind (Q := fun o => ∀ block ∈ o, block.header.height = .ok block.events.blockNumber)
    (requestBlock_replays (fun _ h => by cases h) (fun b hb _ h => ?_) 2) fun o ho => ?_
  · obtain rfl := Option.some.inj h
    exact hb
  cases o with
  | none => exact .done fun _ h => by cases h
  | some decoded =>
    refine .ofExcept fun number hnumber => .ite (fun _ => .fail _) fun hsame => .done ?_
    intro block hblock
    obtain rfl := Option.some.inj hblock
    -- the header names the requested height, and so do the events
    rw [ho decoded rfl] at hnumber
    simp only [not_or, not_not] at hsame
    exact (Except.ok.inj hnumber).trans hsame.1

theorem decimal_replays {t : DecimalText} : Replays height (fun _ => True) (decimal t) := by
  unfold decimal
  split
  · exact .done trivial
  · exact .fail _

theorem winner_replays (block : DecodedBlock) :
    Replays height (fun _ => True) (winner block) := by
  unfold winner
  split
  · exact .done trivial
  rename_i win _
  split
  · exact .fail _
  split
  · exact .done trivial
  split
  · exact .done trivial
  rename_i nonce _
  refine .bind (Q := fun _ => True) ?_ fun _ _ => .done trivial
  unfold winnerRecord
  extract_lets device difficulty rest
  have hrest : ∀ previous, Replays height (fun _ => True) (rest previous) := by
    intro previous
    refine .chain fun topologyHash _ => ?_
    have hlast : ∀ {k : ℕ → ℕ → BlockRecord}, Replays height (fun _ => True) (do
        let reward ← decimal win.reward
        let nonce ← decimal nonce
        return k reward nonce) :=
      .bind decimal_replays fun _ _ => .bind decimal_replays fun _ _ => .done trivial
    cases topologyHash with
    | some hash => exact .chain fun t _ => hlast
    | none => exact hlast
  exact .ite (fun _ => hrest 0) fun _ => .chain fun previous _ => hrest previous

theorem historicalDifficulty_replays (block : DecodedBlock) :
    Replays height (fun _ => True) (historicalDifficulty block) := by
  unfold historicalDifficulty
  split
  · exact .done trivial
  split
  · exact .fail _
  split
  · exact .done trivial
  refine .chain fun topology _ => .bind (Q := fun _ => True) ?_ fun _ _ => .done trivial
  rw [isoTimestamp]
  cases isoTimestampOf block.events.timestamp with
  | error e => exact .fail _
  | ok t => exact .done trivial

theorem markBlockUnavailable_replays (chain : ChainReader) (block : DecodedBlock)
    (guard : GenerationGuard) (reason : UnavailableReason) :
    Replays height (fun _ => True) (markBlockUnavailable chain block guard reason) := by
  refine .store (.inr trivial) fun r => ?_
  rw [← Program.bind_pure' (checkResult r)]
  exact checkResult_replays r (.done trivial)

/-- A round of a domain does not touch the height of the batch. -/
theorem processDomain_replays (chain : ChainReader) (decoded : DecodedBlock)
    {batch : BlockCommit} (guard : GenerationGuard) :
    Replays height (fun b => b.height = batch.height)
      (processDomain chain decoded batch guard) := by
  unfold processDomain
  split
  · exact .done rfl
  · refine .attempt (winner_replays decoded) (fun a _ => ?_) fun e => .note (.done rfl)
    split
    · exact .done rfl
    · exact .bind (markBlockUnavailable_replays _ _ _ _) fun _ _ => .done rfl
    · exact .note (.done rfl)
  · refine .attempt (historicalDifficulty_replays decoded) (fun a _ => ?_) fun e => .note (.done rfl)
    split
    · exact .done rfl
    · exact .bind (markBlockUnavailable_replays _ _ _ _) fun _ _ => .done rfl
    · exact .note (.done rfl)
  · exact .done rfl

theorem processDomains_replays (chain : ChainReader) (decoded : DecodedBlock)
    (gs : List GenerationGuard) (batch : BlockCommit) :
    Replays height (fun b => b.height = batch.height)
      (processDomains chain decoded gs batch) := by
  induction gs generalizing batch with
  | nil => exact .done rfl
  | cons g gs ih =>
    unfold processDomains
    refine .bind (processDomain_replays chain decoded g) fun b hb => ?_
    exact .imp (fun b' hb' => hb'.trans hb) (ih b)

theorem participationFrom_replays (chain : ChainReader) (limit : ℕ) {block : DecodedBlock}
    (hblock : block.events.blockNumber = height) (guard : GenerationGuard) (rounds : ℕ)
    (cursor : Option ParticipantCursor) :
    Replays height (fun _ => True) (participationFrom chain limit block guard rounds cursor) := by
  induction rounds generalizing cursor with
  | zero => trivial
  | succ rounds ih =>
    unfold participationFrom
    refine .bind (Q := fun _ => True) ?_ fun page _ => ?_
    · unfold participationPage
      split
      · exact .done trivial
      refine .bind (Q := fun _ => True) ?_ fun page _ => .ite (fun _ => .fail _) fun _ => .done trivial
      unfold participantPage
      refine .ofExcept fun _ _ => .ite (fun _ => .fail _) fun _ => .chain fun rows _ => ?_
      exact .ite (fun _ => .fail _) fun _ => .ofExcept fun _ _ => .done trivial
    refine .store (.inl ⟨_, rfl, hblock⟩) fun r => checkResult_replays r (.note ?_)
    refine .ite (fun _ => ?_) fun _ => ih _
    exact .noted _

/-- **Replaying a height commits blocks of that height only.** -/
theorem process_replays (chain : ChainReader) (target : Target) :
    Replays height (fun _ => True) (process chain height target .backfill) := by
  unfold process
  refine .bind (guards_replays height true) fun gs _ => .ite (fun _ => .done trivial) fun _ => ?_
  refine .bind (decodeBlock_replays target gs) fun o ho => ?_
  split
  · exact .done trivial
  rename_i decoded
  have hblock : decoded.events.blockNumber = height := ho decoded rfl
  refine .bind (processDomains_replays chain decoded gs _) fun batch hbatch => ?_
  extract_lets last rest
  have hlast : ∀ u, Replays height (fun _ => True) (last u) := fun _ => .done trivial
  have hrest : ∀ u, Replays height (fun _ => True) (rest u) := by
    intro u
    dsimp only [rest]
    split
    · exact hlast ()
    · rename_i guard _
      refine .attempt (participationFrom_replays chain pageSize hblock guard _ none)
        (fun _ _ => ?_) fun _ => ?_
      · exact .bind (noteChainError_replays _) fun u _ => hlast u
      · exact .bind (noteChainError_replays _) fun u _ => hlast u
  refine .ite (fun _ => ?_) fun _ => hrest ()
  refine .store (.inl ⟨batch, rfl, hbatch⟩) fun r => checkResult_replays r (.note ?_)
  exact .bind (.noted _) fun u _ => hrest u

theorem backfillBlock_replays (chain : ChainReader) (target : Target) :
    Replays height (fun _ => True) (backfillBlock chain height target) := by
  have hresult : ∀ r, Replays height (fun _ => True) (replayResult r) := by
    intro r
    unfold replayResult
    split
    · exact .done trivial
    · exact .noted _
    · exact .done trivial
    · exact .fail _
  exact .attempt (process_replays chain target) (fun _ _ => hresult _) fun _ => hresult _

end

end Dashboard

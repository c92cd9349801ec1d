/-
The indexer at work for a faithful node.

Any number of workers index heights and replay chunks, each stopped anywhere or not at all,
among themselves and all other calls of the store, reindexes included.  A faithful node
answers from a finalized chain, or fails; what it reads in the state of a later block may be
gone there.

* `Decodes` — a decoded block of the chain;
* `process_does`, `sparseChunk_does` — for such answers, indexing a height and replaying a chunk
  make honest calls only;
* `index_mirrors_chain` — **in every interleaving the store mirrors the chain**.
-/
import QuipDashboard.ActiveScans
import QuipDashboard.FinalizedChain
import QuipDashboard.Replays

namespace Dashboard

variable {chain : ChainReader} {ks : KeySpace} (c : FinalizedChain chain ks)

/-! ### A faithful node -/

/-- A block of the chain as it is decoded; the nonce and the solution may be gone from the state
that they are read from, and the author is read on demand. -/
structure Decodes (n : ℕ) (purpose : BlockPurpose) (b : DecodedBlock) : Prop where
  hash : b.hash = (c.block n).hash
  parent : b.header.parentHash = (c.block n).parentHash
  number : b.events.blockNumber = (c.block n).events.blockNumber
  timestamp : b.events.timestamp = (c.block n).events.timestamp
  winner : b.events.winner = (c.block n).events.winner
  proofs : b.events.proofs = (c.block n).events.proofs
  nonce : b.events.nonce = none ∨ b.events.nonce = (c.block n).events.nonce
  qblock : b.qblock = none ∨ b.qblock = (c.block n).qblock
  author : purpose = .full → b.events.author = (c.block n).events.author

/-- What a faithful node answers. -/
def FinalizedChain.Answers : {β : Type} → Query β → Except ChainError β → Prop
  | _, .blockHash n, r => ∀ hash, r = .ok (some hash) → hash = (c.block n).hash
  | _, .block hash purpose _, r => ∀ b, r = .ok b → ∀ n ≤ u64Max,
    hash = (c.block n).hash → Decodes c n purpose b
  | _, .qblockKeys at_ start limit, r => ∀ keys, r = .ok keys →
    ∃ node : ChainNode, c.Serves node ∧ node.answer ks (.qblockKeys at_ start limit) = .ok keys
  | _, _, _ => True

/-- What an effect may answer: reads are of a store that mirrors the chain. -/
def FinalizedChain.Answered : {γ : Type} → Await γ → γ → Prop
  | _, .chain q, r => c.Answers q r
  | _, .read f, r => (∃ s : Store, s.Mirrors c ∧ r = f s) ∨ ∃ message, r = .error (.database message)
  | _, _, _ => True

/-- An effect that does not lie about the chain. -/
def FinalizedChain.Honest : {γ : Type} → Await γ → Prop
  | _, .store op => HonestOp c op
  | _, _ => True

/-- A function of the indexer with such effects only, and with a result that satisfies `Q`. -/
def Does {α : Type} (Q : α → Prop) (p : Ix α) : Prop :=
  p.Emits c.Answered c.Honest fun r => ∀ a, r = .ok a → Q a

variable {c}

/-! ### Rules -/

namespace Does

variable {α β : Type} {Q : α → Prop}

theorem done {a : α} (h : Q a) : Does c Q (pure a) := by
  rintro _ ⟨rfl⟩
  exact h

theorem fail (e : IndexerError) : Does c Q (.fail e) := by
  rintro _ ⟨⟩

theorem bind {Q' : β → Prop} {p : Ix α} {f : α → Ix β} (hp : Does c Q p)
    (hf : ∀ a, Q a → Does c Q' (f a)) : Does c Q' (p >>= f) := by
  refine Program.Emits.bind (Program.Emits.imp ?_ hp)
  rintro (e | a) hr
  · rintro _ ⟨⟩
  · exact hf a (hr a rfl)

theorem read {f : Store → Except StoreError β} {k : β → Ix α}
    (h : ∀ s : Store, s.Mirrors c → ∀ b, f s = .ok b → Does c Q (k b)) : Does c Q (Ix.read f >>= k) := by
  refine Program.Emits.awaitOk trivial (fun b hb => ?_) fun _ _ h => by cases h
  rcases hb with ⟨s, hs, hb⟩ | ⟨message, hb⟩
  · exact h s hs b hb.symm
  · cases hb

theorem asks {q : Query β} {k : β → Ix α} (h : ∀ b, c.Answers q (.ok b) → Does c Q (k b)) :
    Does c Q (Ix.chain q >>= k) :=
  Program.Emits.awaitOk trivial h fun _ _ h => by cases h

theorem store {op : Op} {k : CommitResult → Ix α} (hop : HonestOp c op) (h : ∀ r, Does c Q (k r)) :
    Does c Q (Ix.store op >>= k) :=
  Program.Emits.awaitOk hop (fun r _ => h r) fun _ _ h => by cases h

theorem await {e : Await β} {k : β → Ix α} (he : c.Honest e) (h : ∀ b, c.Answered e b → Does c Q (k b)) :
    Does c Q (Program.await e >>= k) :=
  Program.Emits.await he h

theorem note {n : Note} {k : Unit → Ix α} (h : Does c Q (k ())) : Does c Q (Ix.note n >>= k) :=
  .await trivial fun _ _ => h

theorem noted (n : Note) : Does c (fun _ => True) (Ix.note n) :=
  Program.Emits.await (f := pure) (P := c.Honest) trivial fun _ _ _ _ => trivial

theorem ofExcept {r : Except IndexerError β} {k : β → Ix α} (h : ∀ b, r = .ok b → Does c Q (k b)) :
    Does c Q (Program.ofExcept r >>= k) :=
  Program.Emits.ofExcept h fun _ _ _ h => by cases h

theorem ite {p : Prop} [Decidable p] {a b : Ix α} (ha : p → Does c Q a) (hb : ¬p → Does c Q b) :
    Does c Q (if p then a else b) :=
  Program.Emits.ite ha hb

/-- A caller that matches on the result. -/
theorem attempt {p : Ix α} (h : Does c Q p) {k : Except IndexerError α → Ix β} {Q' : β → Prop}
    (hok : ∀ a, Q a → Does c Q' (k (.ok a))) (herr : ∀ e, Does c Q' (k (.error e))) :
    Does c Q' (p.attempt >>= k) := by
  refine Program.Emits.bind (Program.Emits.attempt (Program.Emits.imp ?_ h))
  rintro (e | a) hr
  · exact herr e
  · exact hok a (hr a rfl)

/-- The result of a call, and what follows unless it was stale. -/
theorem check (r : CommitResult) {k : Unit → Ix α} (h : Does c Q (k ())) :
    Does c Q (checkResult r >>= k) := by
  cases r with
  | applied | alreadyApplied => exact h
  | staleGeneration => exact .fail _

end Does

/-- Calls that write neither a fact nor a scan are honest. -/
theorem honest_of_ne {op : Op} (hcommit : ∀ b, op ≠ .commitBlock b) (hbegin : ∀ scan, op ≠ .beginScan scan)
    (hpage : ∀ id expected next heights, op ≠ .appendScanPage id expected next heights) : HonestOp c op :=
  ⟨fun b h => absurd h (hcommit b), fun scan h => absurd h (hbegin scan),
    fun id expected next heights h => absurd h (hpage id expected next heights)⟩

/-- A commit is honest when its batch is. -/
theorem HonestBatch.op {b : BlockCommit} (h : HonestBatch c b) : HonestOp c (.commitBlock b) := by
  refine ⟨?_, ?_, ?_⟩
  · rintro _ ⟨rfl⟩
    exact h
  · intro scan h
    cases h
  · intro id expected next heights h
    cases h

/-! ### Indexing a height -/

section

variable {α : Type} {Q : α → Prop}

theorem noteChainError_does (r : Except IndexerError Unit) : Does c (fun _ => True) (noteChainError r) := by
  unfold noteChainError
  split
  · exact .done trivial
  · exact .noted _
  · exact .fail _

theorem guards_does (h : ℕ) (authorship : Bool) : Does c (fun _ => True) (guards h authorship) := by
  unfold guards
  generalize domains = is
  induction is with
  | nil => exact .done trivial
  | cons i is ih =>
    unfold guardsOf
    refine .ite (fun _ => ih) fun _ => .read fun _ _ expected _ => .read fun _ _ coverage _ => ?_
    refine .ite (fun _ => ih) fun _ => .read fun _ _ unavailable _ => .ite (fun _ => ih) fun _ => ?_
    exact .bind ih fun _ _ => .done trivial

theorem raiseFloors_does (h : ℕ) (gs : List GenerationGuard) :
    Does c (fun _ => True) (raiseFloors h gs) := by
  induction gs with
  | nil => exact .done trivial
  | cons g gs ih =>
    refine .read fun _ _ coverage _ => .store ?_ fun r => .check r ih
    exact honest_of_ne (fun b h => by cases h) (fun scan h => by cases h)
      fun id expected next heights h => by cases h

theorem attemptBlock_does {n : ℕ} (hn : n ≤ u64Max) {purpose : BlockPurpose} {enrichmentAt : ChainHash}
    {gs : List GenerationGuard} {again : ChainError → Ix (Option DecodedBlock)}
    (hagain : ∀ e, Does c (fun o => ∀ b ∈ o, Decodes c n purpose b) (again e)) :
    Does c (fun o => ∀ b ∈ o, Decodes c n purpose b)
      (attemptBlock (c.block n).hash purpose enrichmentAt n gs again) := by
  unfold attemptBlock
  refine .await trivial fun answer hanswer => ?_
  split
  · refine .done fun b hb => ?_
    obtain rfl := Option.some.inj hb
    exact hanswer _ rfl n hn rfl
  · refine .bind (raiseFloors_does n gs) fun _ _ => .note (.done fun b hb => ?_)
    cases hb
  · exact .note (hagain _)

theorem requestBlock_does {n : ℕ} (hn : n ≤ u64Max) {purpose : BlockPurpose} {enrichmentAt : ChainHash}
    {gs : List GenerationGuard} (retries : ℕ) :
    Does c (fun o => ∀ b ∈ o, Decodes c n purpose b)
      (requestBlock (c.block n).hash purpose enrichmentAt n gs retries) := by
  induction retries with
  | zero => exact attemptBlock_does hn fun e => .fail _
  | succ retries ih => exact attemptBlock_does hn fun _ => ih

/-- The purpose of a request: the author is read when it is asked for. -/
def guardPurpose (gs : List GenerationGuard) : BlockPurpose :=
  if gs.any fun g => g.indexable = .authorship then .full else .winnerOnly

theorem decodeBlock_does {n : ℕ} (hn : n ≤ u64Max) (target : Target) (gs : List GenerationGuard) :
    Does c (fun o => ∀ b ∈ o, Decodes c n (guardPurpose gs) b) (decodeBlock n target gs) := by
  unfold decodeBlock
  refine .asks fun found hfound => ?_
  split
  · exact .fail _
  rename_i hash
  obtain rfl := hfound hash rfl
  refine .bind (requestBlock_does hn 2) fun o ho => ?_
  cases o with
  | none =>
    refine .done fun b hb => ?_
    cases hb
  | some decoded => exact .ofExcept fun number _ => .ite (fun _ => .fail _) fun _ => .done ho

theorem decimal_does {t : DecimalText} {k : ℕ → Ix α} (h : ∀ n, t = .ok n → Does c Q (k n)) :
    Does c Q (decimal t >>= k) := by
  cases t with
  | ok n => exact h n rfl
  | error message => exact .fail _

/-- The record of `winner` is that of the chain. -/
theorem winner_does {n : ℕ} {purpose : BlockPurpose} {block : DecodedBlock} (hb : Decodes c n purpose block) :
    Does c (fun r => ∀ record, r = .complete record →
      record.map BlockRecord.fact = (c.block n).winnerFact) (winner block) := by
  have hnone : (c.block n).winnerFact = none → Does c (fun r => ∀ record, r = .complete record →
      record.map BlockRecord.fact = (c.block n).winnerFact)
      (pure (.complete none) : Ix (DomainResult BlockRecord)) := by
    intro hfact
    refine .done fun record hrecord => ?_
    cases hrecord
    exact hfact.symm
  unfold winner
  split
  · rename_i hw
    exact hnone (FinalizedBlock.fact_none (hb.winner ▸ hw)).1
  rename_i win hw
  split
  · exact .fail _
  split
  · rename_i hproof
    refine hnone ?_
    rw [FinalizedBlock.winnerFact, ← hb.winner, hw, Option.bind_some, ← hb.proofs, hproof, Option.bind_none]
  rename_i proof hproof
  split
  · refine .done fun record hrecord => ?_
    cases hrecord
  rename_i nonce hnonce
  have hnonce : (c.block n).events.nonce = some nonce := by
    rcases hb.nonce with h | h
    · cases h.symm.trans hnonce
    · exact h.symm.trans hnonce
  refine .bind (Q := fun record => some record.fact = (c.block n).winnerFact) ?_ fun record hrecord => ?_
  · unfold winnerRecord
    extract_lets device difficulty rest
    have hrest : ∀ previous, Does c (fun record => some record.fact = (c.block n).winnerFact)
        (rest previous) := by
      intro previous
      refine .asks fun topologyHash _ => ?_
      -- the columns that the topology and the device time enter are not those of the fact
      have hlast : ∀ {k : ℕ → ℕ → BlockRecord}, (∀ reward nonce', win.reward = .ok reward →
            nonce = .ok nonce' → some (k reward nonce').fact = (c.block n).winnerFact) →
          Does c (fun record => some record.fact = (c.block n).winnerFact) (do
            let reward ← decimal win.reward
            let nonce ← decimal nonce
            return k reward nonce) := by
        intro k hk
        exact decimal_does fun reward hreward => decimal_does fun m hm => .done (hk reward m hreward hm)
      have hfact : ∀ reward m, win.reward = .ok reward → nonce = .ok m →
          (c.block n).winnerFact = some ⟨modelHash block.hash, block.events.blockNumber,
            modelHash block.hash, modelHash block.header.parentHash, block.events.timestamp, win.miner,
            milliEnergy win.energyMilli, proof.diversityMilli / 1000, proof.validSolutionCount, reward,
            win.qblockId, m⟩ := by
        intro reward m hreward hm
        rw [FinalizedBlock.winnerFact, ← hb.winner, hw, Option.bind_some, ← hb.proofs, hproof,
          Option.bind_some, hnonce, hm, hb.hash, hb.number, hb.parent, hb.timestamp, hreward]
        rfl
      cases topologyHash with
      | some hash => exact .asks fun t _ => hlast fun reward m hreward hm => (hfact reward m hreward hm).symm
      | none => exact hlast fun reward m hreward hm => (hfact reward m hreward hm).symm
    exact .ite (fun _ => hrest 0) fun _ => .asks fun previous _ => hrest previous
  · refine .done fun record' hrecord' => ?_
    cases hrecord'
    exact hrecord

theorem isoTimestamp_does {seconds : ℕ} {k : Timestamp → Ix α}
    (h : ∀ t, iso seconds = .ok t → Does c Q (k (.utc t))) : Does c Q (isoTimestamp seconds >>= k) := by
  rw [isoTimestamp, isoTimestampOf]
  unfold iso at h
  by_cases hi64 : seconds > i64Max
  · rw [if_pos hi64]
    exact .fail _
  rw [if_neg hi64] at h ⊢
  by_cases hmax : seconds > maxTimestampSeconds
  · rw [if_pos hmax]
    exact .fail _
  rw [if_neg hmax] at h ⊢
  exact h _ rfl

/-- The record of `historical_difficulty` is that of the chain. -/
theorem historicalDifficulty_does {n : ℕ} {purpose : BlockPurpose} {block : DecodedBlock}
    (hb : Decodes c n purpose block) :
    Does c (fun r => ∀ record, r = .complete record →
      record.map DifficultyRecord.fact = (c.block n).difficultyFact) (historicalDifficulty block) := by
  unfold historicalDifficulty
  split
  · rename_i hw
    refine .done fun record hrecord => ?_
    cases hrecord
    exact (FinalizedBlock.fact_none (hb.winner ▸ hw)).2.symm
  rename_i win hw
  split
  · exact .fail _
  split
  · refine .done fun record hrecord => ?_
    cases hrecord
  rename_i qblock hq
  have hq : (c.block n).qblock = some qblock := by
    rcases hb.qblock with h | h
    · cases h.symm.trans hq
    · exact h.symm.trans hq
  refine .asks fun topology _ => isoTimestamp_does fun t ht => .done fun record hrecord => ?_
  cases hrecord
  rw [FinalizedBlock.difficultyFact, ← hb.winner, hw, Option.bind_some, hq, Option.bind_some,
    ← hb.timestamp, ht, ← hb.number]
  rfl

theorem markBlockUnavailable_does (block : DecodedBlock) (guard : GenerationGuard) (reason : UnavailableReason) :
    Does c (fun _ => True) (markBlockUnavailable chain block guard reason) := by
  refine .store ?_ fun r => ?_
  · exact honest_of_ne (fun b h => by cases h) (fun scan h => by cases h)
      fun id expected next heights h => by cases h
  · rw [← Program.bind_pure' (checkResult r)]
    exact .check r (.done trivial)

/-- One domain adds its record of the chain to the batch, or nothing. -/
theorem processDomain_does {n : ℕ} {purpose : BlockPurpose} {block : DecodedBlock}
    (hb : Decodes c n purpose block) {batch : BlockCommit} (hbatch : HonestBatch c batch)
    (hn : batch.height = n) {guard : GenerationGuard}
    (hfull : guard.indexable = .authorship → purpose = .full) :
    Does c (fun b => HonestBatch c b ∧ b.height = n) (processDomain chain block batch guard) := by
  subst hn
  unfold processDomain
  split
  · rename_i hi
    have hauthor := hb.author (hfull hi)
    refine .done ⟨⟨hbatch.winner, hbatch.difficulty, fun a ha timestamp ht => ?_, fun h => ?_, fun h => ?_,
      fun _ hnone => ?_⟩, rfl⟩
    · obtain ⟨account, haccount, rfl⟩ := Option.map_eq_some_iff.1 ha
      rw [FinalizedBlock.authorFact, ← hauthor, haccount, Option.bind_some, ← hb.timestamp, ht, ← hb.winner]
      rfl
    · exact hbatch.winners (by simpa using h)
    · exact hbatch.difficulties (by simpa using h)
    · rw [Option.map_eq_none_iff] at hnone
      rw [FinalizedBlock.authorFact, ← hauthor, hnone, Option.bind_none]
  · refine .attempt (winner_does hb) (fun r hr => ?_) fun e => .note (.done ⟨hbatch, rfl⟩)
    split
    · rename_i record hrecord
      have hfact := hr record (Except.ok.inj hrecord)
      refine .done ⟨⟨fun w hw => ?_, hbatch.difficulty, hbatch.authorship, fun _ hnone => ?_, fun h => ?_,
        fun h => ?_⟩, rfl⟩
      · obtain rfl : record = some w := hw
        exact hfact.symm
      · obtain rfl : record = none := hnone
        exact hfact.symm
      · exact hbatch.difficulties (by simpa using h)
      · exact hbatch.authors (by simpa using h)
    · exact .bind (markBlockUnavailable_does _ _ _) fun _ _ => .done ⟨hbatch, rfl⟩
    · exact .note (.done ⟨hbatch, rfl⟩)
  · refine .attempt (historicalDifficulty_does hb) (fun r hr => ?_) fun e => .note (.done ⟨hbatch, rfl⟩)
    split
    · rename_i record hrecord
      have hfact := hr record (Except.ok.inj hrecord)
      refine .done ⟨⟨hbatch.winner, fun d hd => ?_, hbatch.authorship, fun h => ?_, fun _ hnone => ?_,
        fun h => ?_⟩, rfl⟩
      · obtain rfl : record = some d := hd
        exact hfact.symm
      · exact hbatch.winners (by simpa using h)
      · obtain rfl : record = none := hnone
        exact hfact.symm
      · exact hbatch.authors (by simpa using h)
    · exact .bind (markBlockUnavailable_does _ _ _) fun _ _ => .done ⟨hbatch, rfl⟩
    · exact .note (.done ⟨hbatch, rfl⟩)
  · exact .done ⟨hbatch, rfl⟩

theorem processDomains_does {n : ℕ} {purpose : BlockPurpose} {block : DecodedBlock}
    (hb : Decodes c n purpose block) {gs : List GenerationGuard}
    (hfull : ∀ g ∈ gs, g.indexable = .authorship → purpose = .full) {batch : BlockCommit}
    (hbatch : HonestBatch c batch) (hn : batch.height = n) :
    Does c (HonestBatch c) (processDomains chain block gs batch) := by
  induction gs generalizing batch with
  | nil => exact .done hbatch
  | cons g gs ih =>
    unfold processDomains
    refine .bind (processDomain_does hb hbatch hn (hfull g (List.mem_cons_self ..))) fun b hhonest => ?_
    exact ih (fun g' hg' => hfull g' (List.mem_cons_of_mem _ hg')) hhonest.1 hhonest.2

/-- A batch that completes at most the participation of its height, and has none of the records
of the other domains, is honest. -/
theorem honestBatch_of_participation {b : BlockCommit} (hw : b.records.winner = none)
    (hd : b.records.difficulty = none) (ha : b.records.authorship = none)
    (hdone : ∀ i ∈ b.completed, i = .participation) : HonestBatch c b := by
  refine ⟨fun w h => ?_, fun d h => ?_, fun a h => ?_, fun h => ?_, fun h => ?_, fun h => ?_⟩
  · cases hw.symm.trans h
  · cases hd.symm.trans h
  · cases ha.symm.trans h
  · cases hdone _ h
  · cases hdone _ h
  · cases hdone _ h

theorem participationFrom_does (limit : ℕ) (block : DecodedBlock) (guard : GenerationGuard) (rounds : ℕ)
    (cursor : Option ParticipantCursor) :
    Does c (fun _ => True) (participationFrom chain limit block guard rounds cursor) := by
  induction rounds generalizing cursor with
  | zero => trivial
  | succ rounds ih =>
    unfold participationFrom
    refine .bind (Q := fun _ => True) ?_ fun page _ => ?_
    · unfold participationPage
      split
      · exact .done trivial
      refine .bind (Q := fun _ => True) ?_ fun page _ => .ite (fun _ => .fail _) fun _ => .done trivial
      unfold participantPage
      refine .ofExcept fun _ _ => .ite (fun _ => .fail _) fun _ => .asks fun rows _ => ?_
      exact .ite (fun _ => .fail _) fun _ => .ofExcept fun _ _ => .done trivial
    refine .store (HonestBatch.op (honestBatch_of_participation rfl rfl rfl fun i hi => ?_)) fun r => ?_
    · simp only [participationBatch] at hi
      split at hi
      · exact List.mem_singleton.1 hi
      · cases hi
    · refine .check r (.note (.ite (fun _ => ?_) fun _ => ih _))
      exact .noted _

/-- **Indexing a height commits facts of the chain only.** -/
theorem process_does {n : ℕ} (hn : n ≤ u64Max) (target : Target) (class_ : WorkClass) :
    Does c (fun _ => True) (process chain n target class_) := by
  unfold process
  refine .bind (guards_does n true) fun gs _ => .ite (fun _ => .done trivial) fun _ => ?_
  refine .bind (decodeBlock_does hn target gs) fun o ho => ?_
  split
  · exact .done trivial
  rename_i decoded
  have hb := ho decoded rfl
  have hempty : HonestBatch c ⟨modelHash chain.genesis, modelHash decoded.hash, n, gs, .default, []⟩ :=
    honestBatch_of_participation rfl rfl rfl fun i hi => by cases hi
  refine .bind (processDomains_does hb (fun g hg hi => ?_) hempty rfl) fun batch hbatch => ?_
  · rw [guardPurpose, if_pos]
    exact List.any_eq_true.2 ⟨g, hg, decide_eq_true hi⟩
  extract_lets last rest
  have hlast : ∀ u, Does c (fun _ => True) (last u) := by
    intro u
    exact .ite (fun _ => .await trivial fun r _ => noteChainError_does r) fun _ => .done trivial
  have hrest : ∀ u, Does c (fun _ => True) (rest u) := by
    intro u
    dsimp only [rest]
    split
    · exact hlast ()
    · rename_i guard _
      refine .attempt (participationFrom_does pageSize decoded guard _ none) (fun _ _ => ?_) fun _ => ?_
      · exact .bind (noteChainError_does _) fun u _ => hlast u
      · exact .bind (noteChainError_does _) fun u _ => hlast u
  refine .ite (fun _ => ?_) fun _ => hrest ()
  exact .store hbatch.op fun r => .check r (.note (.bind (.noted _) fun u _ => hrest u))

end

/-! ### Replaying a chunk -/

section

theorem backfillBlock_does {n : ℕ} (hn : n ≤ u64Max) (target : Target) :
    Does c (fun _ => True) (backfillBlock chain n target) := by
  have hresult : ∀ r, Does c (fun _ => True) (replayResult r) := by
    intro r
    unfold replayResult
    split
    · exact .done trivial
    · exact .noted _
    · exact .done trivial
    · exact .fail _
  exact .attempt (process_does hn target .backfill) (fun _ _ => hresult _) fun _ => hresult _

theorem indexerU64_does (n : ℕ) : Does c (· ≤ u64Max) (indexerU64 n) := by
  unfold indexerU64
  exact .ite (fun h => .done h) fun _ => .fail _

theorem of_mapError_ok {ε ε' α : Type} {f : ε → ε'} {r : Except ε α} {a : α}
    (h : r.mapError f = .ok a) : r = .ok a := by
  cases r with
  | ok b => exact congrArg _ (Except.ok.inj h)
  | error e => cases h

/-- `winner_page` returns a page that a node which serves the chain gives rise to. -/
theorem winnerPage_does {at_ : ChainHash} {cursor : Option WinnerCursor} {limit : ℕ} :
    Does c (fun page => page.Accepted chain at_ ks c.Serves limit cursor)
      (winnerPage chain at_ cursor limit) := by
  unfold winnerPage
  refine .ofExcept fun u hlimit => .ite (fun _ => .fail _) fun hown => ?_
  refine .asks fun keys hkeys => .ofExcept fun heights hheights => .done ?_
  obtain ⟨node, hnode, hanswer⟩ := hkeys keys rfl
  exact ⟨node, hnode, winnerPage_exec_ok (of_mapError_ok hlimit) hown hanswer (of_mapError_ok hheights)⟩

/-- A call that is matched on in place. -/
theorem Does.settled {α : Type} {Q : α → Prop} (r : CommitResult) {k : Except IndexerError Unit → Ix α}
    (h : ∀ r, Does c Q (k r)) : Does c Q ((checkResult r).attempt >>= k) := by
  refine .attempt (Q := fun _ => True) ?_ (fun _ _ => h _) fun _ => h _
  rw [← Program.bind_pure' (checkResult r)]
  exact .check r (.done trivial)

/-- **An enumeration appends pages of the keys of its block.** -/
theorem enumeratePage_does {scan : Scan} (hnamed : scan.Named) :
    Does c (fun _ => True) (enumeratePage chain scan (chainHash scan.at_)) := by
  unfold enumeratePage
  refine .read fun _ _ progress _ => ?_
  cases progress with
  | none => exact .fail _
  | some progress =>
    refine .ite (fun _ => ?_) fun _ => .done trivial
    unfold appendPage
    refine .bind winnerPage_does fun page hpage => .ite (fun _ => .fail _) fun _ => ?_
    refine .store ⟨fun b h => (by cases h), fun scan h => (by cases h), ?_⟩ fun r => .settled r fun r => ?_
    · rintro id expected next heights h
      cases h
      exact ⟨_, scan.at_, page, hnamed, hpage, rfl, rfl⟩
    · split
      · exact .done trivial
      · exact .done trivial
      · exact .fail _

theorem finishRange_does (scan : Scan) (from_ through : ℕ) :
    Does c (fun _ => True) (finishRange scan from_ through) := by
  refine .store ?_ fun r => .settled r fun r => ?_
  · exact honest_of_ne (fun b h => by cases h) (fun scan h => by cases h)
      fun id expected next heights h => by cases h
  · split
    · exact .done trivial
    · exact .done trivial
    · exact .fail _

theorem cutAt_does (scan : Scan) (cursor : Option ℕ) (n : ℕ) (committed : Bool) :
    Does c (fun _ => True) (cutAt scan cursor n committed) := by
  unfold cutAt
  refine .ite (fun _ => .done trivial) fun _ => ?_
  split
  · refine .ite (fun _ => ?_) fun _ => .done trivial
    exact .bind (finishRange_does _ _ _) fun _ _ => .done trivial
  · exact .done trivial

theorem replayWinners_does (domain : Indexable) (generation : ℕ) (scan : Scan) (at_ : ChainHash)
    (ceiling : ℕ) (rows : List ℕ) (cut : Cut) :
    Does c (fun _ => True) (replayWinners chain domain generation scan at_ ceiling rows cut) := by
  induction rows generalizing cut with
  | nil => exact .done trivial
  | cons row rows ih =>
    unfold replayWinners
    refine .bind (indexerU64_does row) fun n hn => .ite (fun _ => .done trivial) fun _ => ?_
    refine .bind (indexerU64_does _) fun scanHeight _ => .bind (backfillBlock_does hn _) fun _ _ => ?_
    refine .read fun _ _ current _ => .ite (fun _ => .done trivial) fun _ => ?_
    exact .bind (cutAt_does _ _ _ _) fun _ _ => ih _

theorem replayRange_does (domain : Indexable) (generation : ℕ) (scan : Scan) (from_ through : ℕ)
    (at_ : ChainHash) :
    Does c (fun _ => True) (replayRange chain domain generation scan from_ through at_) := by
  unfold replayRange
  refine .bind (indexerU64_does _) fun scanHeight _ => .read fun _ _ rows _ => ?_
  refine .bind (replayWinners_does _ _ _ _ _ _ _) fun cut _ => ?_
  split
  · exact .done trivial
  · unfold finishChunk
    split
    · exact .ite (fun _ => finishRange_does _ _ _) fun _ => .done trivial
    · exact .done trivial

theorem firstRetryable_does (domain : Indexable) (generation : ℕ) (ranges : List (ℕ × ℕ)) :
    Does c (fun _ => True) (firstRetryable domain generation ranges) := by
  induction ranges with
  | nil => exact .done trivial
  | cons range ranges ih =>
    unfold firstRetryable
    refine .read fun _ _ found _ => ?_
    split
    · exact .done trivial
    · exact ih

/-- The scan of a chunk is named, and pinned to a block of the chain. -/
theorem chunkScan_honest {s : Store} (hs : s.Mirrors c) {target : Target}
    (htarget : target.hash = (c.block target.height).hash) (i : Indexable) (expected from_ : ℕ) :
    let scan := chunkScan chain i expected target from_ (activeScan i expected s)
    scan.Named ∧ scan.at_ = modelHash (c.block scan.finalizedHeight).hash := by
  unfold chunkScan
  cases hactive : (activeScan i expected s).filter _ with
  | none => exact ⟨rfl, congrArg modelHash htarget⟩
  | some scan =>
    obtain ⟨row, hrow, hscan⟩ := activeScan_eq_some.mp (Option.filter_eq_some_iff.mp hactive).1
    have hid := hs.enumerates.named _ row hrow.get
    rw [hrow.domain, hrow.generation] at hid
    rw [Option.getD_some, hscan]
    exact ⟨hid, hs.pinned _ row hrow.get⟩

theorem replayInterval_does (domain : Indexable) (generation : ℕ) {target : Target}
    (htarget : target.hash = (c.block target.height).hash) (from_ through : ℕ) :
    Does c (fun _ => True) (replayInterval chain domain generation target from_ through) := by
  unfold replayInterval
  refine .read fun s hs active hactive => ?_
  obtain rfl := Except.ok.inj hactive
  have hscan := chunkScan_honest hs htarget domain generation from_
  refine .store ⟨fun b h => (by cases h), fun scan h => ?_, fun id expected next heights h => (by cases h)⟩
    fun r => .settled r fun r => ?_
  · cases h
    exact hscan
  · split
    · exact .done trivial
    · refine .bind (enumeratePage_does hscan.1) fun exhausted _ => ?_
      exact .ite (fun _ => replayRange_does _ _ _ _ _ _) fun _ => .done trivial

/-- **Replaying a chunk makes honest calls only.** -/
theorem sparseChunk_does (domain : Indexable) {target : Target}
    (htarget : target.hash = (c.block target.height).hash) :
    Does c (fun _ => True) (sparseChunk chain domain target) := by
  unfold sparseChunk
  refine .read fun _ _ generation _ => .store ?_ fun r => .check r ?_
  · exact honest_of_ne (fun b h => by cases h) (fun scan h => by cases h)
      fun id expected next heights h => by cases h
  refine .read fun _ _ coverage _ => ?_
  split
  · exact .done trivial
  refine .bind (firstRetryable_does _ _ _) fun range _ => ?_
  split
  · exact .done trivial
  · exact replayInterval_does domain generation htarget _ _

end

/-! ### Workers -/

/-- A task of the indexer: `process` on a height, or `sparse_chunk` on a winner domain. -/
inductive IndexTask where
  | block (height : ℕ) (target : Target) (class_ : WorkClass)
  | chunk (domain : Indexable) (target : Target)

def IndexTask.code (chain : ChainReader) : IndexTask → Ix Unit
  | .block height target class_ => process chain height target class_
  | .chunk domain target => sparseChunk chain domain target

section

variable (c)

/-- A height is a `u64`, and a chunk has a finalized block as its target. -/
def IndexTask.Starts : IndexTask → Prop
  | .block height _ _ => height ≤ u64Max
  | .chunk _ target => target.hash = (c.block target.height).hash

/-- What an effect of a task may answer, and what it makes of the store.  A store call takes
place as a whole or not at all, also when its answer is lost. -/
def IndexAnswer : {γ : Type} → Store → Await γ → γ → Store → Prop
  | _, s, .store op, r, s' => ∃ now, (r = (op.apply now s).1 ∧ s' = (op.apply now s).2) ∨
      (∃ message, r = .error (.database message)) ∧ (s' = s ∨ s' = (op.apply now s).2)
  | _, s, .chain q, r, s' => s' = s ∧ c.Answers q r
  | _, s, .read f, r, s' => s' = s ∧ (r = f s ∨ ∃ message, r = .error (.database message))
  | _, s, _, _, s' => s' = s

/-- All other calls, reindexes included; only the indexer commits blocks, begins scans and
appends their pages. -/
def OutsideCall (s : Store) (call : Call) (s' : Store) : Prop :=
  Calls s call s' ∧ (∀ b, call.op ≠ .commitBlock b) ∧ (∀ scan, call.op ≠ .beginScan scan) ∧
    ∀ id expected next heights, call.op ≠ .appendScanPage id expected next heights

/-- A run of tasks from an empty store, interleaved with each other and with all other calls. -/
def IndexRun (pg : Bool) (genesis : BlockHash) : List (PoolEvent Await Store IndexTask Call) →
    Pool Await IndexerError Store IndexTask → Prop :=
  PoolRun (IndexAnswer c) (fun _ task => task.Starts c) (IndexTask.code chain) OutsideCall
    (Store.bound pg genesis)

end

section

variable {pg : Bool} {genesis : BlockHash} {es : List (PoolEvent Await Store IndexTask Call)}
  {π : Pool Await IndexerError Store IndexTask}

/-- **In every interleaving the store mirrors the chain.** -/
theorem IndexRun.mirrors (h : IndexRun c pg genesis es π) : π.state.Mirrors c := by
  refine PoolRun.emits (A := c.Answered) (P := c.Honest) (I := fun s => s.Mirrors c)
    (Store.bound_mirrors pg genesis) ?_ ?_ ?_ ?_ h
  · intro γ s s' e r hs hr
    cases e with
    | read f =>
      obtain ⟨-, hr⟩ := hr
      exact hr.imp (fun hr => ⟨s, hs, hr⟩) id
    | chain q => exact hr.2
    | store | note | refresh => trivial
  · intro γ s s' e r hs hop hr
    cases e with
    | store op =>
      have hnew : ∀ now, (op.apply now s).2.Mirrors c := fun now => (apply_effect now op s).mirrors hop hs
      obtain ⟨now, ⟨-, rfl⟩ | ⟨-, rfl | rfl⟩⟩ := hr
      · exact hnew now
      · exact hs
      · exact hnew now
    | chain | read =>
      obtain rfl := hr.1
      exact hs
    | note | refresh =>
      obtain rfl : s' = s := hr
      exact hs
  · rintro s call s' hs ⟨hcall, hcommit, hbegin, hpage⟩
    exact hcall.effect.2.2.mirrors (honest_of_ne hcommit hbegin hpage) hs
  · intro s task hs htask
    cases task with
    | block n target class_ => exact Program.Emits.imp (fun _ _ => trivial) (process_does htask target class_)
    | chunk domain target => exact Program.Emits.imp (fun _ _ => trivial) (sparseChunk_does domain htask)

/-- **The index mirrors the finalized chain.**  Any number of workers index heights and replay
chunks for a faithful node, each stopped anywhere or not at all, among all other calls of the
store, reindexes included.  In each state that is reached, the winner, the difficulty and the
author that are stored for a height are those of the finalized block or none; and they are those of
the finalized block, none where it has none, once the height is covered in their domain. -/
theorem index_mirrors_chain (h : IndexRun c pg genesis es π) {n : ℕ} (hn : n ≤ u64Max) :
    Mirrored ((π.state.winnersAt n).map BlockRecord.fact) (c.block n).winnerFact
      (n ∈ π.state.covered .winners) ∧
    Mirrored ((difficultyFrom π.state .block n).map DifficultyRecord.fact).toList
      (c.block n).difficultyFact (n ∈ π.state.covered .difficulty) ∧
    Mirrored (π.state.authorsAt n) (c.block n).authorFact (n ∈ π.state.covered .authorship) :=
  h.mirrors.exact hn

end

/-! ### A chain with one winner -/

/-- The hash of a height: its eight bytes, then zeros. -/
def heightHash (n : ℕ) : ChainHash where
  bytes := [.ofNat n, .ofNat (n / 2 ^ 8), .ofNat (n / 2 ^ 16), .ofNat (n / 2 ^ 24), .ofNat (n / 2 ^ 32),
    .ofNat (n / 2 ^ 40), .ofNat (n / 2 ^ 48), .ofNat (n / 2 ^ 56)] ++ List.replicate 24 0
  length_eq := rfl

theorem heightHash_inj {m n : ℕ} (hm : m ≤ u64Max) (hn : n ≤ u64Max) (h : heightHash m = heightHash n) :
    m = n := by
  have hbytes := (List.append_inj (congrArg ChainHash.bytes h) rfl).1
  simp only [List.cons.injEq, ← UInt8.toNat_inj, UInt8.toNat_ofNat'] at hbytes
  simp only [u64Max] at hm hn
  omega

/-- Its block 1 has a winner. -/
def oneWinnerBlock (n : ℕ) : FinalizedBlock where
  hash := heightHash n
  parentHash := heightHash (n - 1)
  events :=
    { blockNumber := n
      author := none
      timestamp := 6
      winner := if n = 1 then some ⟨7, "miner", .ok 3, -5⟩ else none
      proofs := [⟨"miner", -5, 100, 2⟩]
      nonce := some (.ok 9) }
  qblock := none

def oneWinnerChain : FinalizedChain lastByteReader twoKeySpace where
  block := oneWinnerBlock
  distinct _ _ hm hn h := heightHash_inj hm hn h
  qblocks _ := twoKeys
  listed m n _ h := by
    have hn : n = 1 := by
      by_contra hn
      simp [oneWinnerBlock, hn] at h
    subst hn
    decide

/-- A node that serves its block 1. -/
def oneWinnerNode : {β : Type} → Query β → Except ChainError β
  | _, .blockHash n => .ok (some (heightHash n))
  | _, .block hash _ at_ =>
    if hash = heightHash 1 then
      .ok ⟨heightHash 1, ⟨heightHash 0, .ok 1⟩, (oneWinnerBlock 1).events, none, none, at_⟩
    else .error (.notFound hash)
  | _, .lastProofBlock _ => .ok 0
  | _, .defaultTopology _ => .ok none
  | _, .topologySummary .. | _, .participantsByQblock .. | _, .qblockKeys .. => .error (.unavailable "")

def oneWinnerAnswer : {γ : Type} → Await γ → Store → γ × Store
  | _, .store op, s => op.apply (.utc 0) s
  | _, .read f, s => (f s, s)
  | _, .chain q, s => (oneWinnerNode q, s)
  | _, .note _, s => ((), s)
  | _, .refresh _, s => (.ok (), s)

theorem oneWinnerAnswer_allowed {γ : Type} (s : Store) (e : Await γ) :
    IndexAnswer oneWinnerChain s e (oneWinnerAnswer e s).1 (oneWinnerAnswer e s).2 := by
  cases e with
  | store op => exact ⟨.utc 0, .inl ⟨rfl, rfl⟩⟩
  | read f => exact ⟨rfl, .inl rfl⟩
  | chain q =>
    refine ⟨rfl, ?_⟩
    cases q with
    | blockHash n =>
      rintro hash ⟨rfl⟩
      rfl
    | block hash purpose at_ =>
      intro b hb n hn hhash
      simp only [oneWinnerAnswer, oneWinnerNode] at hb
      split at hb
      · rename_i hone
        obtain rfl : n = 1 := heightHash_inj hn (by decide) (hhash.symm.trans hone)
        cases hb
        exact ⟨rfl, rfl, rfl, rfl, rfl, rfl, .inr rfl, .inl rfl, fun _ => rfl⟩
      · cases hb
    | qblockKeys =>
      intro keys hkeys
      cases hkeys
    | lastProofBlock | defaultTopology | topologySummary | participantsByQblock => trivial
  | note | refresh => rfl

/-- The task of height 1 stores its winner. -/
theorem index_mirrors_chain_one : ∃ es π fact,
    IndexRun oneWinnerChain false (.uniform 1) es π ∧ 1 ∈ π.state.covered .winners ∧
      (oneWinnerChain.block 1).winnerFact = some fact ∧
      (π.state.winnersAt 1).map BlockRecord.fact = [fact] := by
  have hdone : ((IndexTask.code lastByteReader (.block 1 ⟨1, heightHash 1⟩ .backfill)).exec oneWinnerAnswer
      (Store.bound false (.uniform 1))).any (fun q =>
        (q.2.coverages.get? .winners).any (·.contains 1 1)) = true := by decide +kernel
  obtain ⟨⟨r, s⟩, hx, hcov⟩ := (Option.any_eq_true ..).mp hdone
  have hstart : IndexRun oneWinnerChain false (.uniform 1) []
      ⟨Store.bound false (.uniform 1), fun _ => none⟩ := .nil
  have hstarts : IndexTask.Starts oneWinnerChain (.block 1 ⟨1, heightHash 1⟩ .backfill) :=
    show 1 ≤ u64Max by decide
  obtain ⟨es, π, run, rfl⟩ := PoolRun.alone oneWinnerAnswer_allowed hstart hstarts hx
  have h1 : 1 ∈ π.state.covered .winners := (Option.any_eq_true ..).mp hcov
  exact ⟨_, π, _, run, h1, rfl, (index_mirrors_chain run (by decide)).1.2 h1⟩

end Dashboard

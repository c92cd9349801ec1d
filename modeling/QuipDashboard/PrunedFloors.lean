/-
Pruned floors under two workers.

The live worker and the backfill worker have locks of their own, and `decode_block` reads the
floor of a domain and writes the maximum of it and its own height in two calls of the store.
A `FloorRun` interleaves any number of such handlers with each other and with all other calls.

* `Calls.floor_eq` — only `set_pruned_floor` and a reindex change a floor;
* `HandlerStands` — where a handler stands, and what it still knows of the floor that it read;
* `floors_of_run` — **if no write finds a floor above the value that it writes, a floor of an
  unchanged generation is the maximum of the first one and of all handled heights**;
* `interleaved_write_lowers_floor` — a write that does find one lowers the floor.
-/
import QuipDashboard.Indexer
import QuipDashboard.CanonicalCoverage

namespace Dashboard

/-! ### What leaves the floors alone -/

/-- The stored floor of a domain. -/
def Store.floor (s : Store) (i : Indexable) : Option ℕ :=
  (s.savedCoverage i).bind Coverage.prunedFloor

theorem Store.floor_congr {s s' : Store} {i : Indexable}
    (h : s'.coverages.get? i = s.coverages.get? i) : s'.floor i = s.floor i := by
  rw [floor, floor, savedCoverage, savedCoverage, h]

theorem Store.floor_saveCoverage (s : Store) (i j : Indexable) (cov : Coverage) :
    (s.saveCoverage i cov).floor j = if j = i then cov.prunedFloor else s.floor j := by
  by_cases h : j = i
  · subst h
    rw [if_pos rfl, floor, savedCoverage, saveCoverage, KeyedTable.get?_put_self]
    rfl
  · rw [if_neg h]
    exact floor_congr (KeyedTable.get?_put_ne h)

/-- The coverage that a transaction works on has the stored floor. -/
theorem Store.coverage_floor {s : Store} {i : Indexable} {start : ℕ} {cov : Coverage}
    (h : s.coverage i start = .ok cov) : cov.prunedFloor = s.floor i := by
  rw [floor, savedCoverage]
  rw [coverage] at h
  cases hget : s.coverages.get? i with
  | none =>
    rw [hget] at h
    cases h
    rfl
  | some c =>
    rw [hget] at h
    rw [(Coverage.validate_ok h).1]
    rfl

/-- Covering heights keeps the floor. -/
theorem Store.floor_cover {s : Store} {i : Indexable} {start a b : ℕ} {cov cov' : Coverage}
    {now : Timestamp} {new : Bool} (hcov : s.coverage i start = .ok cov)
    (h : cov.cover now a b = .ok (new, cov')) (j : Indexable) :
    (s.saveCoverage i cov').floor j = s.floor j := by
  rw [floor_saveCoverage]
  split
  · rename_i hj
    rw [hj, Coverage.cover_floor h, coverage_floor hcov]
  · rfl

theorem exec_complete_floor {now : Timestamp} {n : ℕ} {i : Indexable} {s s' : Store} {new : Bool}
    (h : (complete now n i).exec s = .ok (new, s')) (j : Indexable) : s'.floor j = s.floor j := by
  unfold complete at h
  obtain ⟨cov, hcov, h⟩ := Tx.exec_readM_bind_ok.mp h
  obtain ⟨⟨new', cov'⟩, hcover, h⟩ := Tx.exec_ofExcept_bind_ok.mp h
  cases new' with
  | false =>
    cases h
    rfl
  | true =>
    cases h
    exact Store.floor_cover hcov hcover j

theorem exec_completeAll_floor {now : Timestamp} {n : ℕ} {is : List Indexable} {s s' : Store}
    {changed : Bool} (h : (completeAll now n is).exec s = .ok (changed, s')) (j : Indexable) :
    s'.floor j = s.floor j := by
  induction is generalizing s changed with
  | nil =>
    cases h
    rfl
  | cons i is ih =>
    obtain ⟨new, s₁, rest, h₁, h₂, -⟩ := exec_completeAll_cons h
    exact (ih h₂).trans (exec_complete_floor h₁ j)

theorem commitBlock_floor {now : Timestamp} {b : BlockCommit} {s s' : Store}
    {r : Except StoreError CommitResult} (h : commitBlock now b s = (r, s')) (j : Indexable) :
    s'.floor j = s.floor j := by
  rcases commitBlock_run h with ⟨rfl, -⟩ | ⟨n, r', hcheck, -, ⟨run⟩⟩
  · rfl
  obtain ⟨-, hd, -⟩ := provenance_ok run.provenance
  obtain ⟨-, -, -, -, s₁, s₂, s₃, s₄, s₅, s₆, w, d, a, p, c, h₁, h₂, h₃, h₄, h₅, h₆, rfl, -⟩ := run
  obtain ⟨ns, rfl⟩ := exec_winnerRecord h₁
  obtain ⟨dh, pd, rfl, -⟩ := exec_difficultyRecord (fun d h => (hd d h).2) h₂
  obtain ⟨ab, rfl, -⟩ := exec_authorshipRecord h₃
  obtain ⟨rfl, -, -⟩ := exec_writeParticipants h₄
  have hfloor := exec_completeAll_floor h₅ j
  obtain ⟨va, rfl⟩ := exec_recomputeAfterCutover h₆
  exact hfloor

theorem exec_commitRangeBody_floor {now : Timestamp} {r : RangeCompletion} {low high : ℕ}
    {s s' : Store} {f : Finish CommitResult}
    (h : (commitRangeBody now r low high).exec s = .ok (f, s')) (j : Indexable) :
    s'.floor j = s.floor j := by
  unfold commitRangeBody at h
  obtain ⟨u, -, h⟩ := Tx.exec_readM_bind_ok.mp h
  rw [Tx.exec_read_bind] at h
  split at h
  · cases h
    rfl
  rw [Tx.exec_read_bind] at h
  cases hrow : (s.scans.get? r.scanId).filter (·.finished) with
  | none =>
    simp only [hrow] at h
    cases h
  | some row =>
    simp only [hrow] at h
    split at h
    · cases h
    split at h
    · cases h
    obtain ⟨cov, hcov, h⟩ := Tx.exec_readM_bind_ok.mp h
    obtain ⟨v, -, h⟩ := Tx.exec_readM_bind_ok.mp h
    obtain ⟨⟨changed, cov'⟩, hcover, h⟩ := Tx.exec_ofExcept_bind_ok.mp h
    cases changed with
    | false =>
      cases h
      rfl
    | true =>
      cases h
      exact Store.floor_cover hcov hcover j

theorem commitRange_floor {now : Timestamp} {r : RangeCompletion} {s s' : Store}
    {result : Except StoreError CommitResult} (h : commitRange now r s = (result, s'))
    (j : Indexable) : s'.floor j = s.floor j := by
  rcases Tx.request_cases h with ⟨rfl, -⟩ | ⟨rfl, -⟩ | ⟨p, a, -, hx, -⟩
  · rfl
  · rfl
  · exact exec_commitRangeBody_floor hx j

/-- The calls that write no coverage of a current generation keep the floors. -/
theorem Effect.floor_eq {now : Timestamp} {op : Op} {s s' : Store}
    {r : Except StoreError CommitResult} (h : Effect now op s r s')
    (hcommit : ∀ b, op ≠ .commitBlock b) (hrange : ∀ r, op ≠ .commitRange r)
    (hfloor : ∀ g f, op ≠ .setPrunedFloor g f) {i : Indexable}
    (hgen : s'.generation i = s.generation i) : s'.floor i = s.floor i := by
  cases h with
  | unchanged | began | targeted | polled | cutOver | recomputed => rfl
  | appended _ h =>
    rw [h.final]
    rfl
  | marked _ h =>
    rw [h.final]
    rfl
  | committed => exact absurd rfl (hcommit _)
  | ranged => exact absurd rfl (hrange _)
  | floored => exact absurd rfl (hfloor _ _)
  | @initialized j expected start _ _ hnone =>
    rw [Store.floor_saveCoverage]
    split
    · rename_i hj
      rw [Store.floor, Store.savedCoverage, hj, hnone]
      rfl
    · rfl
  | reindexed h =>
    refine Store.floor_congr (h.coverage_eq i fun hi => ?_)
    have hbump := h.generation i
    rw [if_pos hi] at hbump
    omega

/-- **Only `set_pruned_floor` and a reindex change a floor.** -/
theorem Op.floor_eq {now : Timestamp} {op : Op} {s : Store}
    (hop : ∀ g f, op ≠ .setPrunedFloor g f) {i : Indexable}
    (hgen : (op.apply now s).2.generation i = s.generation i) :
    (op.apply now s).2.floor i = s.floor i := by
  have heff := apply_effect now op s
  cases op with
  | commitBlock b =>
    have h : Dashboard.commitBlock now b s = (_, ((Op.commitBlock b).apply now s).2) := rfl
    exact commitBlock_floor h i
  | commitRange r =>
    have h : Dashboard.commitRange now r s = (_, ((Op.commitRange r).apply now s).2) := rfl
    exact commitRange_floor h i
  | setPrunedFloor g f => exact absurd rfl (hop g f)
  | beginScan | appendScanPage | markUnavailable | setFinalizedTarget | initializeCoverage
  | reindex | insertDifficultySnapshot | tryAuthorshipCutover | recomputeAuthorshipSummary =>
    exact heff.floor_eq (fun _ h => by cases h) (fun _ h => by cases h) (fun _ _ h => by cases h)
      hgen

/-! ### The greatest of some heights -/

/-- The greatest number of a set, or none of the empty one. -/
def Tops (o : Option ℕ) (S : Set ℕ) : Prop := (∀ n ∈ S, ∃ f ∈ o, n ≤ f) ∧ ∀ f ∈ o, f ∈ S

/-- One more number, when the value above all others is it or one of them. -/
theorem Tops.insert {o : Option ℕ} {S : Set ℕ} (h : Tops o S) {n f : ℕ} (hn : n ≤ f)
    (ho : ∀ m ∈ o, m ≤ f) (hf : f = n ∨ f ∈ o) : Tops (some f) (insert n S) := by
  constructor
  · rintro m (rfl | hm)
    · exact ⟨f, rfl, hn⟩
    · obtain ⟨k, hk, hmk⟩ := h.1 m hm
      exact ⟨f, rfl, hmk.trans (ho k hk)⟩
  · rintro _ ⟨rfl⟩
    rcases hf with rfl | hf
    · exact Set.mem_insert _ _
    · exact Set.mem_insert_of_mem _ (h.2 _ hf)

/-! ### Handlers -/

/-- A Pruned answer: the worker that handles it, the height, and the guards of the block. -/
structure PrunedAnswer where
  worker : WorkClass
  height : ℕ
  guards : List GenerationGuard

/-- The guards were read before. -/
def PrunedAnswer.Starts (s : Store) (a : PrunedAnswer) : Prop :=
  ∀ g ∈ a.guards, g.expected ≤ s.generation g.indexable

/-- What an effect of a handler may answer, and what it makes of the store.  A store call takes
place as a whole or not at all, also when its answer is lost. -/
def FloorAnswer : {γ : Type} → Store → Await γ → γ → Store → Prop
  | _, s, .store op, r, s' => ∃ now, (r = (op.apply now s).1 ∧ s' = (op.apply now s).2) ∨
      (∃ message, r = .error (.database message)) ∧ (s' = s ∨ s' = (op.apply now s).2)
  | _, s, .read f, r, s' => s' = s ∧ (r = f s ∨ ∃ message, r = .error (.database message))
  | _, s, _, _, s' => s' = s

/-- All other calls: a floor is written by handlers only. -/
def OtherThanFloors (s : Store) (c : Call) (s' : Store) : Prop :=
  Calls s c s' ∧ ∀ g f, c.op ≠ .setPrunedFloor g f

/-- An event of a run of handlers. -/
abbrev FloorEvent := PoolEvent Await Store PrunedAnswer Call

/-- The store and the handlers at work. -/
abbrev Handlers := Pool Await IndexerError Store PrunedAnswer

/-- One event of handlers that are interleaved with each other and with all other calls. -/
def HandlerStep : Handlers → FloorEvent → Handlers → Prop :=
  Pool.Step FloorAnswer PrunedAnswer.Starts (fun a => raiseFloors a.height a.guards)
    OtherThanFloors

/-- A run of handlers. -/
def FloorRun (s₀ : Store) : List FloorEvent → Handlers → Prop :=
  History.Run HandlerStep ⟨s₀, fun _ => none⟩

/-- The event wrote the floor of a domain under a generation, for a handled height. -/
def HandledIn (g : GenerationGuard) (height : ℕ) (e : FloorEvent) : Prop :=
  ∃ a pre f b now, a.height = height ∧
    e = .effect a pre (.store (.setPrunedFloor g f)) b ((Op.setPrunedFloor g f).apply now pre).2 ∧
    ((Op.setPrunedFloor g f).apply now pre).1 = .ok .applied

/-- The heights that were handled for a domain under a generation. -/
def handledHeights (g : GenerationGuard) (es : List FloorEvent) : Set ℕ :=
  {h | ∃ e ∈ es, HandledIn g h e}

/-- The floor was written. -/
def WroteFloor (s : Store) (g : GenerationGuard) (f : Option ℕ) (s' : Store) : Prop :=
  ∃ now, ((Op.setPrunedFloor g f).apply now s).1 = .ok .applied ∧
    ((Op.setPrunedFloor g f).apply now s).2 = s'

/-- What is written as a floor is not below the floor that is stored before. -/
def FindsLower : FloorEvent → Prop
  | .effect _ pre (.store (.setPrunedFloor g (some f))) _ post =>
    WroteFloor pre g (some f) post → ∀ n ∈ pre.floor g.indexable, n ≤ f
  | _ => True

/-! ### Where a handler stands -/

/-- What follows the write of a floor. -/
def afterWrite (height : ℕ) (gs : List GenerationGuard) : Except StoreError CommitResult → Ix Unit
  | .ok .staleGeneration => .fail .staleGeneration
  | .ok _ => raiseFloors height gs
  | .error e => .fail (.store e)

/-- The value that a handler writes after it read a floor. -/
def raised (height : ℕ) (old : Option ℕ) : ℕ := old.elim height (max height)

/-- A handler that has read a floor. -/
def writeFloor (height : ℕ) (g : GenerationGuard) (gs : List GenerationGuard) (old : Option ℕ) :
    Ix Unit :=
  .call (.store (.setPrunedFloor g (some (raised height old)))) (afterWrite height gs)

/-- What follows the read of a floor. -/
def afterRead (height : ℕ) (g : GenerationGuard) (gs : List GenerationGuard) :
    Except StoreError (Option Coverage) → Ix Unit
  | .ok coverage => writeFloor height g gs (coverage.bind Coverage.prunedFloor)
  | .error e => .fail (.store e)

theorem raiseFloors_cons (height : ℕ) (g : GenerationGuard) (gs : List GenerationGuard) :
    raiseFloors height (g :: gs)
      = .call (.read fun s => .ok (s.savedCoverage g.indexable)) (afterRead height g gs) := by
  refine congrArg (Program.call _) (funext fun r => ?_)
  cases r with
  | error e => rfl
  | ok coverage =>
    refine congrArg (Program.call _) (funext fun r => ?_)
    rcases r with e | (_ | _ | _) <;> rfl

/-- What a handler still knows of a floor that it read: in the generation of its guard no
stored floor is below it. -/
def Knows (s : Store) (g : GenerationGuard) (old : Option ℕ) : Prop :=
  g.expected ≤ s.generation g.indexable ∧
    (s.generation g.indexable = g.expected → ∀ n ∈ old, ∃ f ∈ s.floor g.indexable, n ≤ f)

/-- Where a handler stands: it goes on with some guards, it has read the floor of the first of
them, or it failed. -/
inductive Stands (s : Store) (height : ℕ) : List GenerationGuard → Ix Unit → Prop
  | next (gs : List GenerationGuard) : Stands s height gs (raiseFloors height gs)
  | read {g : GenerationGuard} {gs : List GenerationGuard} {old : Option ℕ} (h : Knows s g old) :
      Stands s height (g :: gs) (writeFloor height g gs old)
  | failed (gs : List GenerationGuard) (e : IndexerError) : Stands s height gs (.fail e)

/-- Where a handler stands in a run: the guards before have been handled. -/
def HandlerStands (es : List FloorEvent) (s : Store) (a : PrunedAnswer) (p : Ix Unit) : Prop :=
  ∃ done gs, a.guards = done ++ gs ∧ (∀ g ∈ gs, g.expected ≤ s.generation g.indexable) ∧
    (∀ g ∈ done, a.height ∈ handledHeights g es) ∧ Stands s a.height gs p

/-! ### Rising floors -/

/-- The generations do not fall, and neither do the floors of one that stays. -/
def Rises (s s' : Store) : Prop :=
  ∀ i, s.generation i ≤ s'.generation i ∧
    (s'.generation i = s.generation i → ∀ n ∈ s.floor i, ∃ f ∈ s'.floor i, n ≤ f)

theorem Rises.refl (s : Store) : Rises s s := fun _ => ⟨le_rfl, fun _ n hn => ⟨n, hn, le_rfl⟩⟩

theorem Knows.rises {s s' : Store} {g : GenerationGuard} {old : Option ℕ} (h : Knows s g old)
    (hs : Rises s s') : Knows s' g old := by
  obtain ⟨hle, hknown⟩ := h
  obtain ⟨hgen, hfloor⟩ := hs g.indexable
  refine ⟨hle.trans hgen, fun heq n hn => ?_⟩
  have hsame : s.generation g.indexable = g.expected := by omega
  obtain ⟨f, hf, hnf⟩ := hknown hsame n hn
  obtain ⟨f', hf', hff⟩ := hfloor (heq.trans hsame.symm) f hf
  exact ⟨f', hf', hnf.trans hff⟩

theorem HandlerStands.rises {es : List FloorEvent} {e : FloorEvent} {s s' : Store}
    {a : PrunedAnswer} {p : Ix Unit} (h : HandlerStands es s a p) (hs : Rises s s') :
    HandlerStands (e :: es) s' a p := by
  obtain ⟨done, gs, hsplit, hgs, hdone, hstands⟩ := h
  refine ⟨done, gs, hsplit, fun g hg => (hgs g hg).trans (hs g.indexable).1, fun g hg => ?_, ?_⟩
  · obtain ⟨e', he', hin⟩ := hdone g hg
    exact ⟨e', List.mem_cons_of_mem e he', hin⟩
  · cases hstands with
    | next => exact .next _
    | read hk => exact .read (hk.rises hs)
    | failed => exact .failed _ _

/-! ### One effect of a handler -/

/-- **What a written floor leaves behind.** -/
theorem WroteFloor.spec {s s' : Store} {g : GenerationGuard} {f : Option ℕ} (h : WroteFloor s g f s') :
    s.generation g.indexable = g.expected ∧ (∀ j, s'.generation j = s.generation j) ∧
      ∀ j, s'.floor j = if j = g.indexable then f else s.floor j := by
  obtain ⟨now, hr, hs⟩ := h
  rcases setPrunedFloor_outcome (Prod.ext hr hs) with ⟨-, hno⟩ | ⟨-, hcur, cov, -, rfl⟩
  · rcases hno with hno | ⟨e, hno⟩ <;> cases hno
  · exact ⟨hcur, fun j => rfl, fun j => Store.floor_saveCoverage ..⟩

/-- A write of a floor takes place, or it is stale or fails and changes nothing. -/
theorem FloorAnswer.write {s s' : Store} {g : GenerationGuard} {f : Option ℕ}
    {r : Except StoreError CommitResult}
    (h : FloorAnswer s (.store (.setPrunedFloor g f)) r s') :
    WroteFloor s g f s' ∨ s' = s ∧ (r = .ok .staleGeneration ∨ ∃ e, r = .error e) := by
  obtain ⟨now, ⟨rfl, rfl⟩ | ⟨⟨m, rfl⟩, rfl | rfl⟩⟩ := h
  · rcases setPrunedFloor_outcome (Prod.mk.eta (p := (Op.setPrunedFloor g f).apply now s)).symm with
      hr | ⟨hr, -⟩
    · exact .inr hr
    · exact .inl ⟨now, hr, rfl⟩
  · exact .inr ⟨rfl, .inr ⟨_, rfl⟩⟩
  · rcases setPrunedFloor_outcome (Prod.mk.eta (p := (Op.setPrunedFloor g f).apply now s)).symm with
      ⟨hs, -⟩ | ⟨hr, -⟩
    · exact .inr ⟨hs, .inr ⟨_, rfl⟩⟩
    · exact .inl ⟨now, hr, rfl⟩

/-- The heights that one event handled for a domain under a generation. -/
def handledBy (g : GenerationGuard) (e : FloorEvent) : Set ℕ := {h | HandledIn g h e}

theorem handledHeights_cons (g : GenerationGuard) (e : FloorEvent) (es : List FloorEvent) :
    handledHeights g (e :: es) = handledHeights g es ∪ handledBy g e := by
  ext h
  simp only [handledHeights, handledBy, Set.mem_ofPred_eq, List.mem_cons, exists_eq_or_imp,
    Set.mem_union]
  exact or_comm

/-- A write of a floor handles the height of its handler, for the domain of its guard. -/
theorem handledIn_write {g g' : GenerationGuard} {a : PrunedAnswer} {s s' : Store} {f : Option ℕ}
    {r : Except StoreError CommitResult} {h : ℕ} :
    HandledIn g' h (.effect a s (.store (.setPrunedFloor g f)) r s') ↔
      g = g' ∧ a.height = h ∧ WroteFloor s g f s' := by
  constructor
  · rintro ⟨a', pre, f', r', now, rfl, heq, hr⟩
    cases heq
    exact ⟨rfl, rfl, now, hr, rfl⟩
  · rintro ⟨rfl, rfl, now, hr, rfl⟩
    exact ⟨a, s, f, r, now, rfl, rfl, hr⟩

/-- Whether an event is a write of a floor. -/
def isFloorWrite : FloorEvent → Bool
  | .effect _ _ (.store (.setPrunedFloor _ _)) _ _ => true
  | _ => false

/-- No other event handles a height. -/
theorem not_handledIn {e : FloorEvent} (he : isFloorWrite e = false) (g : GenerationGuard) (h : ℕ) :
    ¬HandledIn g h e := by
  rintro ⟨a, pre, f, r, now, -, rfl, -⟩
  cases he

/-- Whatever the floor of a domain is the greatest of, after an event it is the greatest of that
and of what the event handled. -/
def Follows (i : Indexable) (s : Store) (e : FloorEvent) (s' : Store) : Prop :=
  ∀ S, Tops (s.floor i) S → Tops (s'.floor i) (S ∪ handledBy ⟨i, s.generation i⟩ e)

/-- An event that handles nothing and keeps the floor. -/
theorem Follows.keep {i : Indexable} {s s' : Store} {e : FloorEvent}
    (hfloor : s'.floor i = s.floor i) (he : ∀ h, ¬HandledIn ⟨i, s.generation i⟩ h e) :
    Follows i s e s' := by
  intro S hS
  have hnone : handledBy ⟨i, s.generation i⟩ e = ∅ := Set.eq_empty_of_forall_notMem he
  rw [hnone, Set.union_empty, hfloor]
  exact hS

/-- What one effect of a handler does to the floors. -/
structure Raises (s : Store) (e : FloorEvent) (s' : Store) : Prop where
  rises : Rises s s'
  generation : ∀ i, s'.generation i = s.generation i
  follows : ∀ i, Follows i s e s'

theorem Raises.keep {s : Store} {e : FloorEvent} (he : ∀ g h, ¬HandledIn g h e) : Raises s e s :=
  ⟨.refl s, fun _ => rfl, fun _ => .keep rfl (he _)⟩

/-- The written value is the height of the handler or what it read. -/
theorem raised_cases (height : ℕ) (old : Option ℕ) :
    height ≤ raised height old ∧ (raised height old = height ∨ raised height old ∈ old) := by
  cases old with
  | none => exact ⟨le_rfl, .inl rfl⟩
  | some n =>
    refine ⟨le_max_left _ _, ?_⟩
    rcases max_choice height n with h | h
    · exact .inl h
    · exact .inr (congrArg some h.symm)

/-- **A write that finds no floor above its value raises the floor to the height of its
handler.** -/
theorem WroteFloor.raises {a : PrunedAnswer} {g : GenerationGuard} {old : Option ℕ} {s s' : Store}
    {r : Except StoreError CommitResult} (h : WroteFloor s g (some (raised a.height old)) s')
    (hk : Knows s g old) (hlow : ∀ n ∈ s.floor g.indexable, n ≤ raised a.height old) :
    Raises s (.effect a s (.store (.setPrunedFloor g (some (raised a.height old)))) r s') s' := by
  obtain ⟨hcur, hgen, hfloor⟩ := h.spec
  obtain ⟨hle, hvalue⟩ := raised_cases a.height old
  refine ⟨fun i => ⟨(hgen i).ge, fun _ n hn => ?_⟩, hgen, fun i => ?_⟩
  · by_cases hi : i = g.indexable
    · subst hi
      refine ⟨_, ?_, hlow n hn⟩
      rw [hfloor, if_pos rfl]
      rfl
    · refine ⟨n, ?_, le_rfl⟩
      rw [hfloor, if_neg hi]
      exact hn
  · by_cases hi : i = g.indexable
    · subst hi
      intro S hS
      have hone : handledBy ⟨g.indexable, s.generation g.indexable⟩
          (.effect a s (.store (.setPrunedFloor g (some (raised a.height old)))) r s')
            = {a.height} := by
        ext n
        rw [handledBy, Set.mem_ofPred_eq, handledIn_write, hcur, Set.mem_singleton_iff]
        exact ⟨fun hn => hn.2.1.symm, fun hn => ⟨rfl, hn.symm, h⟩⟩
      rw [hone, Set.union_comm, hfloor, if_pos rfl]
      refine hS.insert hle hlow ?_
      rcases hvalue with hvalue | hvalue
      · exact .inl hvalue
      · -- what it read is the stored floor
        obtain ⟨f, hf, hvf⟩ := hk.2 hcur _ hvalue
        have heq : raised a.height old = f := le_antisymm hvf (hlow f hf)
        exact .inr (heq ▸ hf)
    · refine .keep ?_ fun n hn => ?_
      · rw [hfloor, if_neg hi]
      · obtain ⟨hg, -⟩ := handledIn_write.mp hn
        exact hi (congrArg GenerationGuard.indexable hg).symm

/-- A write that did not take place. -/
theorem not_wrote_raises {a : PrunedAnswer} {g : GenerationGuard} {f : Option ℕ} {s : Store}
    {r : Except StoreError CommitResult} (h : ¬WroteFloor s g f s) :
    Raises s (.effect a s (.store (.setPrunedFloor g f)) r s) s :=
  .keep fun _ _ hin => h (handledIn_write.mp hin).2.2

theorem stands_afterWrite {s : Store} {height : ℕ} {gs : List GenerationGuard}
    (r : Except StoreError CommitResult) : Stands s height gs (afterWrite height gs r) := by
  rcases r with e | (_ | _ | _)
  · exact .failed _ _
  · exact .next _
  · exact .next _
  · exact .failed _ _

/-- **One effect of a handler.** -/
theorem HandlerStands.effect {es : List FloorEvent} {s s' : Store} {a : PrunedAnswer} {β : Type}
    {e : Await β} {next : β → Ix Unit} {b : β} (h : HandlerStands es s a (.call e next))
    (hs : FloorAnswer s e b s') (hlow : FindsLower (.effect a s e b s')) :
    Raises s (.effect a s e b s') s' ∧
      HandlerStands (.effect a s e b s' :: es) s' a (next b) := by
  obtain ⟨done, gs, hsplit, hgs, hdone, hstands⟩ := h
  have hdone' : ∀ ev : FloorEvent, ∀ g ∈ done, a.height ∈ handledHeights g (ev :: es) := by
    intro ev g hg
    rw [handledHeights_cons]
    exact .inl (hdone g hg)
  generalize hp : (.call e next : Ix Unit) = p at hstands
  cases hstands with
  | failed => cases hp
  | next =>
    cases gs with
    | nil => cases hp
    | cons g gs =>
      rw [raiseFloors_cons] at hp
      cases hp
      obtain ⟨rfl, hb⟩ := hs
      refine ⟨.keep (not_handledIn rfl), done, g :: gs, hsplit, hgs, hdone' _, ?_⟩
      rcases hb with rfl | ⟨m, rfl⟩
      · exact .read ⟨hgs g List.mem_cons_self, fun _ n hn => ⟨n, hn, le_rfl⟩⟩
      · exact .failed _ _
  | @read g gs old hk =>
    cases hp
    by_cases hw : WroteFloor s g (some (raised a.height old)) s'
    · have hraises := hw.raises (r := b) hk (hlow hw)
      refine ⟨hraises, done ++ [g], gs, ?_, ?_, ?_, stands_afterWrite b⟩
      · rw [hsplit, List.append_assoc, List.singleton_append]
      · intro g' hg'
        rw [hraises.generation]
        exact hgs g' (List.mem_cons_of_mem g hg')
      · intro g' hg'
        rcases List.mem_append.mp hg' with hg' | hg'
        · exact hdone' _ g' hg'
        · rw [List.mem_singleton.mp hg', handledHeights_cons]
          exact .inr (handledIn_write.mpr ⟨rfl, rfl, hw⟩)
    · obtain hw' | ⟨rfl, hb⟩ := FloorAnswer.write hs
      · exact absurd hw' hw
      refine ⟨not_wrote_raises hw, done, g :: gs, hsplit, hgs, hdone' _, ?_⟩
      rcases hb with rfl | ⟨e, rfl⟩
      · exact .failed _ _
      · exact .failed _ _

/-! ### Runs -/

theorem OtherThanFloors.raises {s s' : Store} {c : Call} (h : OtherThanFloors s c s') :
    Rises s s' ∧ ∀ i, s'.generation i = s.generation i → s'.floor i = s.floor i := by
  obtain ⟨hcall, hop⟩ := h
  cases hcall with
  | call now op s =>
    have hfloor : ∀ i, (op.apply now s).2.generation i = s.generation i →
        (op.apply now s).2.floor i = s.floor i := fun i => Op.floor_eq hop
    refine ⟨fun i => ⟨?_, fun hgen n hn => ⟨n, ?_, le_rfl⟩⟩, hfloor⟩
    · rcases (apply_effect now op s).generation i with ⟨-, hgen⟩ | ⟨-, hgen⟩ <;> omega
    · rw [hfloor i hgen]
      exact hn

/-- What a run without a lowering write keeps: every handler stands somewhere, generations do
not fall, and the floor of one that stayed is the greatest of the first floor and of the handled
heights. -/
structure FloorInv (s₀ : Store) (es : List FloorEvent) (π : Handlers) : Prop where
  stands : ∀ t a p, π.threads t = some (a, p) → HandlerStands es π.state a p
  generation : ∀ i, s₀.generation i ≤ π.state.generation i
  tops : ∀ i, π.state.generation i = s₀.generation i →
    Tops (π.state.floor i) ({n | n ∈ s₀.floor i} ∪ handledHeights ⟨i, s₀.generation i⟩ es)

/-- The handlers that an event leaves alone still stand. -/
theorem FloorInv.stands_put {s₀ : Store} {es : List FloorEvent} {π : Handlers}
    (h : FloorInv s₀ es π) {s : Store} {e : FloorEvent} (hs : Rises π.state s) (u : ℕ)
    {o : Option (PrunedAnswer × Ix Unit)}
    (ho : ∀ a p, o = some (a, p) → HandlerStands (e :: es) s a p) :
    ∀ t a p, (({ π with state := s } : Handlers).put u o).threads t = some (a, p) →
      HandlerStands (e :: es) s a p := by
  intro t a p ht
  simp only [Pool.put] at ht
  split at ht
  · exact ho a p ht
  · exact (h.stands t a p ht).rises hs

/-- The floors after an event of a handler. -/
theorem FloorInv.tops_cons {s₀ : Store} {es : List FloorEvent} {π : Handlers}
    (h : FloorInv s₀ es π) {s : Store} {e : FloorEvent} (hs : Rises π.state s)
    (hfollows : ∀ i, s.generation i = π.state.generation i → Follows i π.state e s) :
    (∀ i, s₀.generation i ≤ s.generation i) ∧ ∀ i, s.generation i = s₀.generation i →
      Tops (s.floor i) ({n | n ∈ s₀.floor i} ∪ handledHeights ⟨i, s₀.generation i⟩ (e :: es)) := by
  refine ⟨fun i => (h.generation i).trans (hs i).1, fun i hgen => ?_⟩
  -- a generation between two equal ones is the same
  have hle := h.generation i
  have hge := (hs i).1
  have hmid : π.state.generation i = s₀.generation i := by omega
  have hnext := hfollows i (by omega) _ (h.tops i hmid)
  rw [hmid] at hnext
  rw [handledHeights_cons, ← Set.union_assoc]
  exact hnext

theorem FloorInv.step {s₀ : Store} {es : List FloorEvent} {π π' : Handlers} {e : FloorEvent}
    (h : FloorInv s₀ es π) (hstep : HandlerStep π e π') (hlow : FindsLower e) :
    FloorInv s₀ (e :: es) π' := by
  cases hstep with
  | @start t a hs =>
    have hno : ∀ g n, ¬HandledIn g n (.started t a) := not_handledIn rfl
    obtain ⟨hgen, htops⟩ := h.tops_cons (.refl _) fun i _ => .keep rfl (hno _)
    refine ⟨h.stands_put (.refl _) t ?_, hgen, htops⟩
    rintro _ _ ⟨rfl⟩
    exact ⟨[], a.guards, rfl, hs, by simp, .next _⟩
  | @effect t a β e next b s ht hs =>
    obtain ⟨hraises, hnext⟩ := (h.stands t a _ ht).effect hs hlow
    obtain ⟨hgen, htops⟩ := h.tops_cons hraises.rises fun i _ => hraises.follows i
    refine ⟨h.stands_put hraises.rises t ?_, hgen, htops⟩
    rintro _ _ ⟨rfl⟩
    exact hnext
  | @interrupted t a β e next b s ht hs =>
    obtain ⟨hraises, -⟩ := (h.stands t a _ ht).effect hs hlow
    obtain ⟨hgen, htops⟩ := h.tops_cons hraises.rises fun i _ => hraises.follows i
    exact ⟨h.stands_put hraises.rises t (fun _ _ ho => by cases ho), hgen, htops⟩
  | drop t =>
    have hno : ∀ g n, ¬HandledIn g n (.dropped t) := not_handledIn rfl
    obtain ⟨hgen, htops⟩ := h.tops_cons (.refl _) fun i _ => .keep rfl (hno _)
    exact ⟨h.stands_put (.refl _) t (fun _ _ ho => by cases ho), hgen, htops⟩
  | @other c s hs =>
    have hno : ∀ g n, ¬HandledIn g n (.other c) := not_handledIn rfl
    obtain ⟨hrises, hfloor⟩ := hs.raises
    obtain ⟨hgen, htops⟩ := h.tops_cons hrises fun i hgen => .keep (hfloor i hgen) (hno _)
    exact ⟨fun t a p ht => (h.stands t a p ht).rises hrises, hgen, htops⟩

theorem FloorRun.inv {s₀ : Store} {es : List FloorEvent} {π : Handlers} (h : FloorRun s₀ es π)
    (hlow : ∀ e ∈ es, FindsLower e) : FloorInv s₀ es π := by
  induction h with
  | nil =>
    refine ⟨fun t a p ht => (by cases ht), fun i => le_rfl, fun i _ => ?_⟩
    have hnone : handledHeights ⟨i, s₀.generation i⟩ [] = ∅ :=
      Set.eq_empty_of_forall_notMem fun h ⟨e, he, _⟩ => by cases he
    rw [hnone, Set.union_empty]
    exact ⟨fun n hn => ⟨n, hn, le_rfl⟩, fun f hf => hf⟩
  | snoc _ hstep ih =>
    exact (ih fun e he => hlow e (List.mem_cons_of_mem _ he)).step hstep
      (hlow _ List.mem_cons_self)

/-- A handler that has ended handled all of its guards. -/
theorem HandlerStands.ended {es : List FloorEvent} {s : Store} {a : PrunedAnswer}
    (h : HandlerStands es s a (.done ())) : ∀ g ∈ a.guards, a.height ∈ handledHeights g es := by
  obtain ⟨done, gs, hsplit, -, hdone, hstands⟩ := h
  generalize hp : (.done () : Ix Unit) = p at hstands
  cases hstands with
  | failed => cases hp
  | read => cases hp
  | next =>
    cases gs with
    | nil =>
      rw [hsplit, List.append_nil]
      exact hdone
    | cons g gs =>
      rw [raiseFloors_cons] at hp
      cases hp

/-! ### Two workers -/

theorem HandlerStep.read {π : Handlers} {t : ℕ} {a : PrunedAnswer} {height : ℕ}
    {g : GenerationGuard} {gs : List GenerationGuard}
    (ht : π.threads t = some (a, raiseFloors height (g :: gs))) :
    HandlerStep π
      (.effect a π.state (.read fun s => .ok (s.savedCoverage g.indexable))
        (.ok (π.state.savedCoverage g.indexable)) π.state)
      (π.put t (some (a, writeFloor height g gs (π.state.floor g.indexable)))) := by
  rw [raiseFloors_cons] at ht
  exact .effect ht ⟨rfl, .inl rfl⟩

theorem FloorRun.write {s₀ s : Store} {es : List FloorEvent} {π : Handlers} (h : FloorRun s₀ es π)
    {t : ℕ} {a : PrunedAnswer} {height : ℕ} {g : GenerationGuard} {gs : List GenerationGuard}
    {old : Option ℕ} (ht : π.threads t = some (a, writeFloor height g gs old)) (now : Timestamp)
    (hs : (Op.setPrunedFloor g (some (raised height old))).apply now π.state = (.ok .applied, s)) :
    ∃ π', FloorRun s₀ (.effect a π.state (.store (.setPrunedFloor g (some (raised height old))))
        (.ok .applied) s :: es) π' ∧ π'.state = s ∧
      π'.threads t = some (a, raiseFloors height gs) ∧ ∀ u, u ≠ t → π'.threads u = π.threads u := by
  have hanswer : FloorAnswer π.state (.store (.setPrunedFloor g (some (raised height old))))
      (.ok .applied) s := ⟨now, .inl ⟨by rw [hs], by rw [hs]⟩⟩
  exact ⟨_, .snoc h (Pool.Step.effect ht hanswer), rfl, Pool.put_self .., fun u hu => if_neg hu⟩

/-- A store before the first floor. -/
def floorless : Store := Store.bound false (.uniform 1)

def winnersGuard : GenerationGuard := ⟨.winners, 1⟩

/-- The live worker at a height whose state is gone. -/
def liveAnswer : PrunedAnswer := ⟨.live, 100, [winnersGuard]⟩

/-- The backfill worker at another one. -/
def backfillAnswer : PrunedAnswer := ⟨.backfill, 5, [winnersGuard]⟩

/-- The store after some floors. -/
def flooredAt (floors : List ℕ) : Store :=
  floors.foldl (fun s f => ((Op.setPrunedFloor winnersGuard (some f)).apply (.utc 0) s).2) floorless

/-- Both workers have read the floor, and none has written it. -/
theorem both_read : ∃ es π, FloorRun floorless es π ∧ (∀ e ∈ es, FindsLower e) ∧
    π.state = floorless ∧
    π.threads 0 = some (liveAnswer, writeFloor 100 winnersGuard [] none) ∧
    π.threads 1 = some (backfillAnswer, writeFloor 5 winnersGuard [] none) := by
  have hlive : PrunedAnswer.Starts floorless liveAnswer := by
    intro g hg
    rw [List.mem_singleton.mp hg]
    decide
  have hbackfill : PrunedAnswer.Starts floorless backfillAnswer := by
    intro g hg
    rw [List.mem_singleton.mp hg]
    decide
  refine ⟨_, _, .snoc (.snoc (.snoc (.snoc .nil (.start 0 hlive)) (.start 1 hbackfill))
    (@HandlerStep.read _ 0 liveAnswer 100 winnersGuard [] rfl))
    (@HandlerStep.read _ 1 backfillAnswer 5 winnersGuard [] rfl), ?_, rfl, rfl, rfl⟩
  intro e he
  simp only [List.mem_cons, List.not_mem_nil, or_false] at he
  rcases he with rfl | rfl | rfl | rfl <;> trivial

/-! ### The floors of a run -/

/-- **If no write finds a floor above the value that it writes**, the floor of a generation
that stayed is the maximum of the first floor and of all heights that were handled under it, in
every state of every interleaving; and a handler that has ended handled all of its guards. -/
theorem floors_of_run {s₀ : Store} {es : List FloorEvent} {π : Handlers} (h : FloorRun s₀ es π)
    (hlow : ∀ e ∈ es, FindsLower e) :
    (∀ i, π.state.generation i = s₀.generation i →
      Tops (π.state.floor i)
        ({n | n ∈ s₀.floor i} ∪ handledHeights ⟨i, s₀.generation i⟩ es)) ∧
      ∀ t a, π.threads t = some (a, .done ()) → ∀ g ∈ a.guards, a.height ∈ handledHeights g es :=
  ⟨(h.inv hlow).tops, fun t a ht => ((h.inv hlow).stands t a _ ht).ended⟩

/-- In the other order no floor is lost. -/
theorem floors_of_run_two : ∃ es π, FloorRun floorless es π ∧
    π.threads 0 = some (liveAnswer, .done ()) ∧ π.threads 1 = some (backfillAnswer, .done ()) ∧
    Tops (π.state.floor .winners) ({n | n ∈ floorless.floor .winners} ∪
      handledHeights ⟨.winners, floorless.generation .winners⟩ es) ∧
    (∀ g ∈ liveAnswer.guards, liveAnswer.height ∈ handledHeights g es) := by
  obtain ⟨es, π, hrun, hlow, hs, hlive, hbackfill⟩ := both_read
  have hfirst : (Op.setPrunedFloor winnersGuard (some (raised 5 none))).apply (.utc 0) π.state
      = (.ok .applied, flooredAt [5]) := by
    rw [hs]
    rfl
  obtain ⟨π₁, hrun₁, hs₁, hbackfill₁, hother₁⟩ := hrun.write hbackfill (.utc 0) hfirst
  have hsecond : (Op.setPrunedFloor winnersGuard (some (raised 100 none))).apply (.utc 0) π₁.state
      = (.ok .applied, flooredAt [5, 100]) := by
    rw [hs₁]
    rfl
  obtain ⟨π₂, hrun₂, hs₂, hlive₂, hother₂⟩ :=
    hrun₁.write ((hother₁ 0 (by decide)).trans hlive) (.utc 0) hsecond
  have hle₁ : ∀ n ∈ π.state.floor winnersGuard.indexable, n ≤ raised 5 none := by
    rw [hs]
    decide
  have hle₂ : ∀ n ∈ π₁.state.floor winnersGuard.indexable, n ≤ raised 100 none := by
    rw [hs₁]
    decide
  obtain ⟨htops, hdone⟩ := floors_of_run hrun₂ (List.forall_mem_cons.mpr ⟨fun _ => hle₂,
    List.forall_mem_cons.mpr ⟨fun _ => hle₁, hlow⟩⟩)
  refine ⟨_, π₂, hrun₂, hlive₂, (hother₂ 1 (by decide)).trans hbackfill₁, htops .winners ?_,
    hdone 0 _ hlive₂⟩
  rw [hs₂]
  rfl

/-- A write that finds a higher floor loses it. -/
theorem not_findsLower {a : PrunedAnswer} {g : GenerationGuard} {f : ℕ} {s s' : Store}
    {r : Except StoreError CommitResult}
    (h : ¬FindsLower (.effect a s (.store (.setPrunedFloor g (some f))) r s')) {S : Set ℕ}
    (hS : Tops (s.floor g.indexable) S) : ∃ n ∈ S, ¬∃ m ∈ s'.floor g.indexable, n ≤ m := by
  simp only [FindsLower, Classical.not_imp, not_forall, not_le] at h
  obtain ⟨hw, n, hn, hlt⟩ := h
  obtain ⟨-, -, hfloor⟩ := hw.spec
  refine ⟨n, hS.2 n hn, ?_⟩
  rintro ⟨m, hm, hle⟩
  rw [hfloor, if_pos rfl] at hm
  cases hm
  omega

/-- **A write in between loses a floor**: both workers read the floor, the live worker writes its
height, and the backfill worker then writes its own lower height over it. -/
theorem interleaved_write_lowers_floor : ∃ es π, FloorRun floorless es π ∧
    π.threads 0 = some (liveAnswer, .done ()) ∧ π.threads 1 = some (backfillAnswer, .done ()) ∧
    π.state.generation .winners = floorless.generation .winners ∧
    100 ∈ handledHeights ⟨.winners, floorless.generation .winners⟩ es ∧
    π.state.floor .winners = some 5 ∧
    ¬Tops (π.state.floor .winners) ({n | n ∈ floorless.floor .winners} ∪
      handledHeights ⟨.winners, floorless.generation .winners⟩ es) := by
  obtain ⟨es, π, hrun, -, hs, hlive, hbackfill⟩ := both_read
  have hfirst : (Op.setPrunedFloor winnersGuard (some (raised 100 none))).apply (.utc 0) π.state
      = (.ok .applied, flooredAt [100]) := by
    rw [hs]
    rfl
  obtain ⟨π₁, hrun₁, hs₁, hlive₁, hother₁⟩ := hrun.write hlive (.utc 0) hfirst
  have hsecond : (Op.setPrunedFloor winnersGuard (some (raised 5 none))).apply (.utc 0) π₁.state
      = (.ok .applied, flooredAt [100, 5]) := by
    rw [hs₁]
    rfl
  obtain ⟨π₂, hrun₂, hs₂, hbackfill₂, hother₂⟩ :=
    hrun₁.write ((hother₁ 1 (by decide)).trans hbackfill) (.utc 0) hsecond
  have hgen : π₂.state.generation .winners = floorless.generation .winners := by
    rw [hs₂]
    rfl
  have hfloor : π₂.state.floor .winners = some 5 := by
    rw [hs₂]
    decide
  have hin : HandledIn ⟨.winners, floorless.generation .winners⟩ 100
      (.effect liveAnswer π.state (.store (.setPrunedFloor winnersGuard (some (raised 100 none))))
        (.ok .applied) (flooredAt [100])) :=
    handledIn_write.mpr ⟨rfl, rfl, .utc 0, congrArg Prod.fst hfirst, congrArg Prod.snd hfirst⟩
  refine ⟨_, π₂, hrun₂, (hother₂ 0 (by decide)).trans hlive₁, hbackfill₂, hgen,
    ⟨_, List.mem_cons_of_mem _ List.mem_cons_self, hin⟩, hfloor, fun htops => ?_⟩
  obtain ⟨f, hf, hle⟩ := htops.1 100 (.inr ⟨_, List.mem_cons_of_mem _ List.mem_cons_self, hin⟩)
  rw [hfloor] at hf
  cases hf
  omega

end Dashboard

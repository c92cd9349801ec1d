/-
Replay chunks never over-claim.

A chunk of a winner domain chooses an interval and a scan, replays one page of listed
winners and completes ranges between those that stay uncovered, while others commit
blocks, reindex domains and do whatever else the store allows.

* `Chosen` — what a chunk chose, as its own reads answered it;
* `replayWinners_claims` — the loop over the page, with what it owes to `finishChunk`;
* `sparse_chunk_never_overclaims` — **a chunk completes only ranges of its interval and its
  scan in which every listed winner is covered**, so that none is refused as incomplete, and
  covers nothing but winners that were committed and heights of such ranges that are none.
-/
import QuipDashboard.Replays
import QuipDashboard.PinnedScans

namespace Dashboard

/-! ### Chunks among others -/

/-- One effect of a chunk, as it took place. -/
abbrev ChunkEvent := Occurrence Await Store

/-- What an effect of a chunk may answer, and what it makes of the store.  A store call
takes place as a whole or not at all, also when its answer is lost. -/
def ChunkAnswer : {γ : Type} → Store → Await γ → γ → Store → Prop
  | _, s, .store op, r, s' => ∃ now, (r = (op.apply now s).1 ∧ s' = (op.apply now s).2) ∨
      (∃ message, r = .error (.database message)) ∧ (s' = s ∨ s' = (op.apply now s).2)
  | _, s, .read f, r, s' => s' = s ∧ (r = f s ∨ ∃ message, r = .error (.database message))
  | _, s, .chain q, r, s' => s' = s ∧ DecodedAnswer q r
  | _, s, _, _, s' => s' = s

/-- A chunk under way, while others call the store. -/
abbrev ChunkRun (chain : ChainReader) (domain : Indexable) (target : Target) (s₀ : Store) :
    List ChunkEvent → Ix Unit → Store → Prop :=
  Program.Underway ChunkAnswer Reaches (sparseChunk chain domain target) s₀

/-- The store call of an event, and its answer. -/
def storeCall : ChunkEvent → Option (Op × Except StoreError CommitResult)
  | ⟨.store op, _, answer, _⟩ => some (op, answer)
  | _ => none

/-- What a chunk chose: an interval, a scan and one page of its listed winners. -/
structure Chosen where
  from_ : ℕ
  through : ℕ
  scan : Scan
  rows : List ℕ

/-- The choice is what the chunk's own calls answered: the interval is retryable inside an
uncovered range below the target, the scan was begun and is exhausted, and the page is the
listing from the start of the interval on. -/
structure Chosen.Read (c : Chosen) (domain : Indexable) (target : Target)
    (es : List ChunkEvent) : Prop where
  indexable : c.scan.indexable = domain
  interval : ∃ s cov gap s',
    (⟨.read fun s => .ok (s.savedCoverage domain), s, .ok (some cov), s⟩ : ChunkEvent) ∈ es ∧
    gap ∈ cov.uncovered target.height ∧
    (⟨.read fun s => s.retryableRange domain c.scan.expectedGeneration gap.1 gap.2, s',
      .ok (some (c.from_, c.through)), s'⟩ : ChunkEvent) ∈ es
  begun : ∃ s r s', r ≠ .staleGeneration ∧
    (⟨.store (.beginScan c.scan), s, .ok r, s'⟩ : ChunkEvent) ∈ es
  exhausted : ∃ s cursor, (⟨.read fun s => .ok (scanProgress c.scan.id s), s,
    .ok (some ⟨cursor, true⟩), s⟩ : ChunkEvent) ∈ es
  page : ∃ s, (⟨.read fun s => .ok (scanWinnersAfter c.scan.id (checkedSub c.from_ 1) 16 s), s,
    .ok c.rows, s⟩ : ChunkEvent) ∈ es

theorem Chosen.Read.mono {c : Chosen} {domain : Indexable} {target : Target}
    {es es' : List ChunkEvent} (h : c.Read domain target es) (hes : es ⊆ es') :
    c.Read domain target es' := by
  obtain ⟨s₁, cov, gap, s₂, hcov, hgap, hrange⟩ := h.interval
  obtain ⟨s₃, r, s₄, hr, hbegun⟩ := h.begun
  obtain ⟨s₅, cursor, hdone⟩ := h.exhausted
  obtain ⟨s₆, hpage⟩ := h.page
  exact ⟨h.indexable, ⟨s₁, cov, gap, s₂, hes hcov, hgap, hes hrange⟩,
    ⟨s₃, r, s₄, hr, hes hbegun⟩, ⟨s₅, cursor, hes hdone⟩, ⟨s₆, hes hpage⟩⟩

/-- The range lies inside the choice: in the interval, below the head of the scan and, when
the page is full, not beyond its last winner; and while the scan is there, every winner that
it lists in the range is covered. -/
structure Chosen.Proves (c : Chosen) (r : RangeCompletion) (s : Store) : Prop where
  cites : r = ⟨c.scan.genesis, c.scan.indexable, c.scan.expectedGeneration, r.from_, r.through,
    c.scan.id⟩
  from_le : c.from_ ≤ r.from_
  ordered : r.from_ ≤ r.through
  through_le : r.through ≤ min c.scan.finalizedHeight c.through
  full : c.rows.length = 16 → ∃ last, c.rows.getLast? = some last ∧ r.through ≤ last
  winners : ∀ row, s.scans.get? c.scan.id = some row → row.isFor c.scan = true →
    ∀ n ∈ s.winnerHeights c.scan.id, r.from_ ≤ n → n ≤ r.through → n ∈ s.covered c.scan.indexable

/-- An event of a chunk claims no more than the chunk has seen, when `before` is what it
did before. -/
structure Honest (domain : Indexable) (target : Target) (before : List ChunkEvent)
    (e : ChunkEvent) : Prop where
  /-- A completed range is proved by the choice, and never refused as incomplete. -/
  ranges : ∀ r answer, storeCall e = some (.commitRange r, answer) →
    answer ≠ .error .incompleteScan ∧
      ∃ c : Chosen, c.Read domain target before ∧ c.Proves r e.pre
  /-- A newly covered height is a listed winner that was committed, or no winner and in a
  completed range. -/
  covers : ∀ i n, n ∈ e.post.covered i → n ∉ e.pre.covered i →
    (∃ c : Chosen, c.Read domain target before ∧ n ∈ c.rows ∧ ∃ b answer,
      storeCall e = some (.commitBlock b, answer) ∧ b.height = n ∧ i ∈ b.completed) ∨
    ∃ r answer, storeCall e = some (.commitRange r, answer) ∧ r.indexable = i ∧
      r.from_ ≤ n ∧ n ≤ r.through ∧ n ∉ e.pre.winnerHeights r.scanId

/-! ### Answers -/

theorem ChunkAnswer.decoded {γ : Type} {s s' : Store} {e : Await γ} {b : γ}
    (h : ChunkAnswer s e b s') : e.Decoded b := by
  cases e with
  | chain q => exact h.2
  | store | read | note | refresh => trivial

theorem ChunkAnswer.reaches {γ : Type} {s s' : Store} {e : Await γ} {b : γ}
    (h : ChunkAnswer s e b s') : Reaches s s' := by
  cases e with
  | store op =>
    obtain ⟨now, ⟨-, rfl⟩ | ⟨-, rfl | rfl⟩⟩ := h
    · exact (Calls.call now op s).reaches
    · exact .refl _
    · exact (Calls.call now op s).reaches
  | read | chain =>
    obtain ⟨rfl, -⟩ := h
    exact .refl _
  | note | refresh =>
    obtain rfl : _ = _ := h
    exact .refl _

/-- A store call that was answered took place. -/
theorem ChunkAnswer.ok {op : Op} {s s' : Store} {r : CommitResult}
    (h : ChunkAnswer s (.store op) (.ok r) s') : ∃ now, op.apply now s = (.ok r, s') := by
  obtain ⟨now, ⟨hr, hs⟩ | ⟨⟨_, hr⟩, -⟩⟩ := h
  · exact ⟨now, Prod.ext hr.symm hs.symm⟩
  · cases hr

/-- A block commit or a range commit. -/
def Op.Commits : Op → Prop
  | .commitBlock _ | .commitRange _ => True
  | _ => False

/-- **Only commits cover heights**, also when their answer is lost. -/
theorem ChunkAnswer.covered {op : Op} {s s' : Store} {r : Except StoreError CommitResult}
    (h : ChunkAnswer s (.store op) r s') {i : Indexable} {n : ℕ} (hn : n ∈ s'.covered i)
    (hs : n ∉ s.covered i) :
    (∃ b, op = .commitBlock b ∧ b.height = n ∧ i ∈ b.completed) ∨
      ∃ r, op = .commitRange r ∧ r.indexable = i ∧ r.from_ ≤ n ∧ n ≤ r.through ∧
        n ∉ s.winnerHeights r.scanId := by
  obtain ⟨now, hcase⟩ := h
  have hpost : s' = (op.apply now s).2 := by
    rcases hcase with ⟨-, rfl⟩ | ⟨-, rfl | rfl⟩
    · rfl
    · exact absurd hn hs
    · rfl
  rw [hpost] at hn
  obtain ⟨-, ⟨b, hop, -, hi, hh⟩ | ⟨r, hop, hr, hi, hmem⟩⟩ := (apply_effect now op s).covered hn hs
  · exact .inl ⟨b, hop, hh.symm, hi⟩
  · refine .inr ⟨r, hop, hi, hmem.1, hmem.2, fun hlist => hs ?_⟩
    exact hi ▸ hr.winners n hlist hmem.1 hmem.2

section

variable {domain : Indexable} {target : Target}

/-- What changes nothing claims nothing. -/
theorem honest_quiet {before : List ChunkEvent} {e : ChunkEvent} (he : storeCall e = none)
    (hs : e.post = e.pre) : Honest domain target before e := by
  refine ⟨fun r answer h => ?_, fun i n hn hnot => ?_⟩
  · rw [he] at h
    cases h
  · exact absurd (hs ▸ hn) hnot

/-- A call that is no commit claims nothing. -/
theorem honest_uncommitting {before : List ChunkEvent} {op : Op} {s s' : Store}
    {r : Except StoreError CommitResult} (h : ChunkAnswer s (.store op) r s')
    (hop : ¬op.Commits) : Honest domain target before ⟨.store op, s, r, s'⟩ := by
  refine ⟨fun c answer hc => ?_, fun i n hn hnot => ?_⟩
  · obtain rfl := (Prod.mk.inj (Option.some.inj hc)).1
    exact absurd trivial hop
  · obtain ⟨b, rfl, -⟩ | ⟨c, rfl, -⟩ := h.covered hn hnot
    · exact absurd trivial hop
    · exact absurd trivial hop

/-- A commit of a listed winner claims that winner. -/
theorem honest_block {before : List ChunkEvent} {b : BlockCommit} {s s' : Store}
    {r : Except StoreError CommitResult} (h : ChunkAnswer s (.store (.commitBlock b)) r s')
    {c : Chosen} (hc : c.Read domain target before) (hrow : b.height ∈ c.rows) :
    Honest domain target before ⟨.store (.commitBlock b), s, r, s'⟩ := by
  refine ⟨fun c answer hc => ?_, fun i n hn hnot => ?_⟩
  · cases hc
  · obtain ⟨b', hop, rfl, hi⟩ | ⟨r', hop, -⟩ := h.covered hn hnot
    · obtain rfl := Op.commitBlock.inj hop
      exact .inl ⟨c, hc, hrow, b, r, rfl, rfl, hi⟩
    · cases hop

/-- A range that the choice proves claims its heights that are no winners. -/
theorem honest_range {before : List ChunkEvent} {r : RangeCompletion} {s s' : Store}
    {answer : Except StoreError CommitResult}
    (h : ChunkAnswer s (.store (.commitRange r)) answer s')
    (hanswer : answer ≠ .error .incompleteScan) {c : Chosen} (hc : c.Read domain target before)
    (hr : c.Proves r s) : Honest domain target before ⟨.store (.commitRange r), s, answer, s'⟩ := by
  refine ⟨fun r' answer' hcall => ?_, fun i n hn hnot => ?_⟩
  · cases hcall
    exact ⟨hanswer, c, hc, hr⟩
  · obtain ⟨b, hop, -⟩ | ⟨r', hop, hi, h₁, h₂, hlist⟩ := h.covered hn hnot
    · cases hop
    · cases hop
      exact .inr ⟨r, answer, rfl, hi, h₁, h₂, hlist⟩

/-! ### The rules of a chunk -/

variable (domain target) in
/-- From this store and these events on, a program of the chunk stays honest, and a result
satisfies `Q`. -/
def Claims {α : Type} (Q : α → Store → List ChunkEvent → Prop) (p : Ix α) (s : Store)
    (es : List ChunkEvent) : Prop :=
  p.Safe (Program.recorded ChunkAnswer) (Program.unrecorded Reaches)
    (fun t e b t' => Honest domain target t.2 ⟨e, t.1, b, t'.1⟩)
    (fun r t => ∀ a, r = .ok a → Q a t.1 t.2) (s, es)

namespace Claims

variable {α β : Type} {Q : α → Store → List ChunkEvent → Prop} {s : Store} {es : List ChunkEvent}

theorem imp {Q' : α → Store → List ChunkEvent → Prop} (hQ : ∀ a t l, Q a t l → Q' a t l)
    {p : Ix α} (h : Claims domain target Q p s es) : Claims domain target Q' p s es :=
  Program.Safe.imp (fun _ _ hr a ha => hQ a _ _ (hr a ha)) h

theorem done {a : α} (h : Q a s es) : Claims domain target Q (pure a) s es := by
  rintro _ ⟨rfl⟩
  exact h

theorem fail (e : IndexerError) : Claims domain target Q (.fail e) s es := by
  rintro _ ⟨⟩

theorem bind {Q' : β → Store → List ChunkEvent → Prop} {p : Ix α} {f : α → Ix β}
    (h : Claims domain target (fun a t l => Claims domain target Q' (f a) t l) p s es) :
    Claims domain target Q' (p >>= f) s es := by
  refine Program.Safe.bind (Program.Safe.imp ?_ h)
  rintro (e | a) t hr
  · rintro _ ⟨⟩
  · exact hr a rfl

theorem ite {c : Prop} [Decidable c] {p q : Ix α} (hp : c → Claims domain target Q p s es)
    (hq : ¬c → Claims domain target Q q s es) :
    Claims domain target Q (if c then p else q) s es :=
  Program.Safe.ite hp hq

theorem ofExcept {r : Except IndexerError β} {k : β → Ix α}
    (h : ∀ b, r = .ok b → Claims domain target Q (k b) s es) :
    Claims domain target Q (Program.ofExcept r >>= k) s es :=
  Program.Safe.ofExcept h fun _ _ _ h => by cases h

/-- A read answers with what it finds, or fails. -/
theorem read {f : Store → Except StoreError β} {k : β → Ix α}
    (h : ∀ t, Reaches s t → ∀ b, f t = .ok b →
      Claims domain target Q (k b) t (⟨.read f, t, .ok b, t⟩ :: es)) :
    Claims domain target Q (Ix.read f >>= k) s es := by
  refine Program.Safe.awaitOk ?_ ?_ fun _ _ _ _ _ _ h => by cases h
  · rintro ⟨t, l⟩ - b ⟨t', l'⟩ ⟨⟨hs, -⟩, -⟩
    exact honest_quiet rfl hs
  · rintro ⟨t, l⟩ ⟨hst, hl⟩ b ⟨t', l'⟩ ⟨⟨hs, hb⟩, hl'⟩
    obtain rfl : l = es := hl
    obtain rfl : t' = t := hs
    obtain rfl : l' = ⟨.read f, t', .ok b, t'⟩ :: l := hl'
    rcases hb with hb | ⟨_, hb⟩
    · exact h t' hst b hb.symm
    · cases hb

theorem chain {q : Query β} {k : β → Ix α}
    (h : ∀ t, Reaches s t → ∀ b, Claims domain target Q (k b) t (⟨.chain q, t, .ok b, t⟩ :: es)) :
    Claims domain target Q (Ix.chain q >>= k) s es := by
  refine Program.Safe.awaitOk ?_ ?_ fun _ _ _ _ _ _ h => by cases h
  · rintro ⟨t, l⟩ - b ⟨t', l'⟩ ⟨⟨hs, -⟩, -⟩
    exact honest_quiet rfl hs
  · rintro ⟨t, l⟩ ⟨hst, hl⟩ b ⟨t', l'⟩ ⟨⟨hs, -⟩, hl'⟩
    obtain rfl : l = es := hl
    obtain rfl : t' = t := hs
    obtain rfl : l' = ⟨.chain q, t', .ok b, t'⟩ :: l := hl'
    exact h t' hst b

/-- A store call is honest, and goes on with its answer. -/
theorem store {op : Op} {k : CommitResult → Ix α}
    (hop : ∀ t, Reaches s t → ∀ r t', ChunkAnswer t (.store op) r t' →
      Honest domain target es ⟨.store op, t, r, t'⟩)
    (h : ∀ t, Reaches s t → ∀ r t' now, op.apply now t = (.ok r, t') →
      Claims domain target Q (k r) t' (⟨.store op, t, .ok r, t'⟩ :: es)) :
    Claims domain target Q (Ix.store op >>= k) s es := by
  refine Program.Safe.awaitOk ?_ ?_ fun _ _ _ _ _ _ h => by cases h
  · rintro ⟨t, l⟩ ⟨hst, hl⟩ r ⟨t', l'⟩ ⟨hr, -⟩
    obtain rfl : l = es := hl
    exact hop t hst r t' hr
  · rintro ⟨t, l⟩ ⟨hst, hl⟩ r ⟨t', l'⟩ ⟨hr, hl'⟩
    obtain rfl : l = es := hl
    obtain rfl : l' = ⟨.store op, t, .ok r, t'⟩ :: l := hl'
    obtain ⟨now, happly⟩ := hr.ok
    exact h t hst r t' now happly

/-- The answer of a call as `check` reads it. -/
theorem check {r : CommitResult} {k : Except IndexerError Unit → Ix α}
    (hok : r ≠ .staleGeneration → Claims domain target Q (k (.ok ())) s es)
    (hstale : r = .staleGeneration → Claims domain target Q (k (.error .staleGeneration)) s es) :
    Claims domain target Q ((checkResult r).attempt >>= k) s es := by
  cases r with
  | applied => exact hok nofun
  | alreadyApplied => exact hok nofun
  | staleGeneration => exact hstale rfl

/-- **Replaying a listed winner is honest**, and leaves what others may leave. -/
theorem replay {c : Chosen} (hc : c.Read domain target es) {height : ℕ} (hrow : height ∈ c.rows)
    {p : Ix β} (hp : Replays height (fun _ => True) p) {k : β → Ix α}
    (h : ∀ t l, Reaches s t → es ⊆ l → ∀ b, Claims domain target Q (k b) t l) :
    Claims domain target Q (p >>= k) s es := by
  have hsafe := Program.Emits.safe (H := Program.recorded ChunkAnswer)
    (R := Program.unrecorded Reaches)
    (G := fun t e b t' => Honest domain target t.2 ⟨e, t.1, b, t'.1⟩)
    (I := fun t => Reaches s t.1 ∧ es ⊆ t.2)
    (fun hb => hb.1.decoded) ?_ ?_ ?_ hp (s := (s, es)) ⟨.refl s, List.Subset.refl es⟩
  · refine Program.Safe.bind (Program.Safe.imp ?_ hsafe)
    rintro (e | b) ⟨t, l⟩ ⟨-, hst, hes⟩
    · rintro _ ⟨⟩
    · exact h t l hst hes b
  · rintro ⟨t, l⟩ ⟨t', l'⟩ ⟨hst, hes⟩ ⟨hR, hl⟩
    exact ⟨hst.trans hR, hl ▸ hes⟩
  · rintro γ ⟨t, l⟩ ⟨t', l'⟩ e b ⟨hst, hes⟩ - ⟨hb, hl⟩
    exact ⟨hst.trans hb.reaches, hl ▸ List.subset_cons_of_subset _ hes⟩
  · rintro γ ⟨t, l⟩ ⟨t', l'⟩ e b ⟨-, hes⟩ he ⟨hb, -⟩
    cases e with
    | store op =>
      obtain ⟨batch, rfl, hheight⟩ | hop := he
      · exact honest_block hb (hc.mono hes) (hheight ▸ hrow)
      · refine honest_uncommitting hb fun hcommit => ?_
        cases op with
        | commitBlock | commitRange => exact hop
        | _ => exact hcommit
    | read | chain => exact honest_quiet rfl hb.1
    | note | refresh => exact honest_quiet rfl hb

end Claims

/-! ### Completing one range -/

/-- What a chunk knows of its choice: the scan is exhausted, and its page lists the next
winners of the interval. -/
structure Chosen.Holds (c : Chosen) (genesis : BlockHash) (s : Store) : Prop where
  kept : s.Kept genesis
  finished : c.scan.Finished s
  sorted : c.rows.Pairwise (· ≤ ·)
  from_le : ∀ n ∈ c.rows, c.from_ ≤ n
  listed : s.generation c.scan.indexable = c.scan.expectedGeneration →
    ∀ n ∈ s.winnerHeights c.scan.id, c.from_ ≤ n →
      n ∈ c.rows ∨ c.rows.length = 16 ∧ ∀ m ∈ c.rows, m < n

/-- Some winners of the page from a height on are covered, unless the generation is gone. -/
def Chosen.Settled (c : Chosen) (ns : List ℕ) (start : ℕ) (s : Store) : Prop :=
  s.generation c.scan.indexable = c.scan.expectedGeneration →
    ∀ n ∈ ns, start ≤ n → n ∈ s.covered c.scan.indexable

variable {c : Chosen} {genesis : BlockHash} {s t : Store}

theorem Chosen.Holds.reaches (hs : c.Holds genesis s) (h : Reaches s t) : c.Holds genesis t := by
  obtain ⟨hfin, hstays⟩ := h.during hs.finished
  refine ⟨h.kept hs.kept, hfin, hs.sorted, hs.from_le, fun hgen n hn => ?_⟩
  exact hs.listed (hstays hgen).current n (((hstays hgen).winners n).mp hn)

theorem Chosen.Settled.reaches {ns : List ℕ} {start : ℕ} (hc : c.Settled ns start s)
    (hs : c.Holds genesis s) (h : Reaches s t) : c.Settled ns start t := by
  intro hgen n hn hle
  have hstays := (h.during hs.finished).2 hgen
  exact hstays.covered (hc hstays.current n hn hle)

/-- The last winner of the page is its greatest. -/
theorem Chosen.Holds.le_last (hs : c.Holds genesis s) {n : ℕ} (hn : n ∈ c.rows) :
    ∃ last, c.rows.getLast? = some last ∧ n ≤ last := by
  have hsorted := hs.sorted
  obtain ⟨init, last, hrows⟩ : ∃ init last, c.rows = init ++ [last] :=
    ⟨_, _, (List.dropLast_append_getLast (List.ne_nil_of_mem hn)).symm⟩
  rw [hrows] at hn hsorted ⊢
  refine ⟨last, List.getLast?_concat .., ?_⟩
  rcases List.mem_append.mp hn with hn | hn
  · exact (List.pairwise_append.mp hsorted).2.2 n hn last (List.mem_singleton_self _)
  · exact (List.mem_singleton.mp hn).le

/-- A stored scan is of the current generation. -/
theorem Store.Kept.current (hs : s.Kept genesis) {scan : Scan} {row : ScanRow}
    (hrow : s.scans.get? scan.id = some row) (hfor : row.isFor scan = true) :
    s.generation scan.indexable = scan.expectedGeneration := by
  obtain ⟨-, hgen, hdomain, -⟩ := ScanRow.isFor_domain hfor
  rw [← hgen, ← hdomain, hs.stamped.scans _ row hrow]

theorem Ix.reaches_of_apply {now : Timestamp} {op : Op} {r : Except StoreError CommitResult}
    (h : op.apply now s = (r, t)) : Reaches s t := by
  have := (Calls.call now op s).reaches
  rwa [h] at this

/-- **Completing a range that the page settles is honest.** -/
theorem finishRange_claims {es : List ChunkEvent} (hc : c.Read domain target es)
    (hs : c.Holds genesis s) (hmax : c.scan.finalizedHeight ≤ u64Max) {low high : ℕ}
    (hlow : c.from_ ≤ low) (hle : low ≤ high)
    (hhigh : high ≤ min c.scan.finalizedHeight c.through)
    (hfull : c.rows.length = 16 → ∃ last, c.rows.getLast? = some last ∧ high ≤ last)
    (hwin : s.generation c.scan.indexable = c.scan.expectedGeneration →
      ∀ n ∈ s.winnerHeights c.scan.id, low ≤ n → n ≤ high → n ∈ s.covered c.scan.indexable) :
    Claims domain target (fun _ t l => Reaches s t ∧ es ⊆ l) (finishRange c.scan low high) s es := by
  unfold finishRange
  refine .store (fun t hst r t' hr => ?_) fun t hst r t' now happly => ?_
  · -- whatever others did, the winners of the range are covered or the generation is gone
    have ht := hs.reaches hst
    have hcov : t.generation c.scan.indexable = c.scan.expectedGeneration →
        ∀ n ∈ t.winnerHeights c.scan.id, low ≤ n → n ≤ high → n ∈ t.covered c.scan.indexable := by
      intro hgen n hn h₁ h₂
      have hstays := (hst.during hs.finished).2 hgen
      exact hstays.covered (hwin hstays.current n ((hstays.winners n).mp hn) h₁ h₂)
    refine honest_range hr ?_ hc ⟨rfl, hlow, hle, hhigh, hfull, fun row hrow hfor => ?_⟩
    · obtain ⟨now, ⟨rfl, -⟩ | ⟨⟨message, rfl⟩, -⟩⟩ := hr
      · exact commitRange_complete ht.kept ht.finished hmax (hhigh.trans (min_le_left _ _)) hcov now
      · exact nofun
    · exact hcov (ht.kept.current hrow hfor)
  · have hreach := hst.trans (Ix.reaches_of_apply happly)
    refine .check (fun _ => .done ⟨hreach, ?_⟩) fun _ => .done ⟨hreach, ?_⟩
    · exact List.subset_cons_self _ _
    · exact List.subset_cons_self _ _

/-! ### The loop over the page -/

/-- Where the loop stands after some winners of the page: from the start of the open range
on they are covered, and the last of them is the last height that was settled. -/
structure Cut.After (cut : Cut) (c : Chosen) (seen : List ℕ) (s : Store) : Prop where
  cursor : ∀ start, cut.cursor = some start → c.from_ ≤ start ∧ c.Settled seen start s
  last : cut.last = seen.getLast?

/-- Where the loop ends: the winners of the page up to the ceiling are covered from the
start of the open range on, and the last settled height is below the last of the page. -/
structure Cut.Ends (cut : Cut) (c : Chosen) (ceiling : ℕ) (s : Store) : Prop where
  cursor : ∀ start, cut.cursor = some start →
    c.from_ ≤ start ∧ c.Settled (c.rows.filter (· ≤ ceiling)) start s
  last : ∀ n, cut.last = some n → n ≤ ceiling ∧ ∃ last, c.rows.getLast? = some last ∧ n ≤ last

theorem indexerU64_claims {α : Type} {Q : α → Store → List ChunkEvent → Prop} {n : ℕ}
    {k : ℕ → Ix α} {es : List ChunkEvent}
    (h : n ≤ u64Max → Claims domain target Q (k n) s es) :
    Claims domain target Q (indexerU64 n >>= k) s es := by
  unfold indexerU64
  split
  · exact h ‹_›
  · exact .fail _

/-- **After a winner the open range starts where it did, or behind it**: what it has seen is
covered from there on. -/
theorem cutAt_claims {es : List ChunkEvent} (hc : c.Read domain target es)
    (hs : c.Holds genesis s) (hmax : c.scan.finalizedHeight ≤ u64Max) {seen rest : List ℕ}
    {height : ℕ} (hrows : c.rows = seen ++ height :: rest) (hseen : ∀ n ∈ seen, n ≤ height)
    (hrest : ∀ n ∈ rest, height ≤ n) (hceil : height ≤ min c.scan.finalizedHeight c.through)
    {cut : Cut} (hcut : cut.After c seen s) {committed : Bool}
    (hcommitted : committed = true → height ∈ s.covered c.scan.indexable) :
    Claims domain target (fun cursor t l => Reaches s t ∧ es ⊆ l ∧
        ∀ start, cursor = some start → c.from_ ≤ start ∧ c.Settled (seen ++ [height]) start t)
      (cutAt c.scan cut.cursor height committed) s es := by
  have hrow : height ∈ c.rows := by simp [hrows]
  -- nothing of the page up to this height is owed by the next range
  have hnext : ∀ (t : Store) (start : ℕ), checkedAdd height 1 = some start →
      c.from_ ≤ start ∧ c.Settled (seen ++ [height]) start t := by
    intro t start hstart
    unfold checkedAdd at hstart
    split at hstart
    swap
    · cases hstart
    obtain rfl := Option.some.inj hstart
    refine ⟨(hs.from_le _ hrow).trans (Nat.le_succ _), fun _ n hn hle => ?_⟩
    have hn : n ≤ height := by
      rcases List.mem_append.mp hn with hn | hn
      · exact hseen n hn
      · exact (List.mem_singleton.mp hn).le
    omega
  have hafter : ∀ {t : Store} {l : List ChunkEvent}, Reaches s t → es ⊆ l →
      Claims domain target (fun cursor t l => Reaches s t ∧ es ⊆ l ∧
        ∀ start, cursor = some start → c.from_ ≤ start ∧ c.Settled (seen ++ [height]) start t)
        (pure (checkedAdd height 1)) t l :=
    fun hst hes => .done ⟨hst, hes, hnext _⟩
  unfold cutAt
  refine .ite (fun h => .done ⟨.refl s, List.Subset.refl es, fun start hstart => ?_⟩) fun _ => ?_
  · obtain ⟨hfrom, hsettled⟩ := hcut.cursor start hstart
    refine ⟨hfrom, fun hgen n hn hle => ?_⟩
    rcases List.mem_append.mp hn with hn | hn
    · exact hsettled hgen n hn hle
    · rw [List.mem_singleton.mp hn]
      exact hcommitted h
  cases hcursor : cut.cursor with
  | none => exact hafter (.refl s) (List.Subset.refl es)
  | some start =>
    obtain ⟨hfrom, hsettled⟩ := hcut.cursor start hcursor
    dsimp only
    split
    swap
    · exact hafter (.refl s) (List.Subset.refl es)
    rename_i hlt
    refine .bind (.imp (Q := fun _ t l => Reaches s t ∧ es ⊆ l) (fun _ t l h => ?_) ?_)
    · exact hafter h.1 h.2
    refine finishRange_claims hc hs hmax hfrom (by omega) (by omega) (fun _ => ?_) ?_
    · obtain ⟨last, hlast, hle⟩ := hs.le_last hrow
      exact ⟨last, hlast, by omega⟩
    · -- a listed winner below this one is on the page, before it
      intro hgen n hn h₁ h₂
      rcases hs.listed hgen n hn (by omega) with hpage | ⟨-, hbefore⟩
      · rw [hrows] at hpage
        rcases List.mem_append.mp hpage with hpage | hpage
        · exact hsettled hgen n hpage h₁
        · rcases List.mem_cons.mp hpage with rfl | hpage
          · omega
          · have := hrest n hpage
            omega
      · have := hbefore height hrow
        omega

/-- **The loop over the page is honest**, and the range that it leaves open is settled. -/
theorem replayWinners_claims {chain : ChainReader} {at_ : ChainHash}
    (hmax : c.scan.finalizedHeight ≤ u64Max) {rest : List ℕ} :
    ∀ (seen : List ℕ) {cut : Cut} {s : Store} {es : List ChunkEvent}, c.rows = seen ++ rest →
      (∀ n ∈ seen, n ≤ min c.scan.finalizedHeight c.through) → c.Read domain target es →
      c.Holds genesis s → cut.After c seen s →
      Claims domain target (fun o t l => ∀ cut', o = some cut' → Reaches s t ∧ es ⊆ l ∧
          cut'.Ends c (min c.scan.finalizedHeight c.through) t)
        (replayWinners chain domain c.scan.expectedGeneration c.scan at_
          (min c.scan.finalizedHeight c.through) rest cut) s es := by
  induction rest with
  | nil =>
    intro seen cut s es hrows hceil hc hs hcut
    refine .done ?_
    rintro _ ⟨rfl⟩
    rw [List.append_nil] at hrows
    refine ⟨.refl s, List.Subset.refl es, fun start hstart => ?_, fun n hn => ?_⟩
    -- the page is used up, so that all its rows were seen
    · obtain ⟨hfrom, hsettled⟩ := hcut.cursor start hstart
      refine ⟨hfrom, fun hgen n hn hle => hsettled hgen n ?_ hle⟩
      exact hrows ▸ List.mem_of_mem_filter hn
    · rw [hcut.last] at hn
      exact ⟨hceil n (List.mem_of_getLast? hn), n, hrows ▸ hn, le_rfl⟩
  | cons height rest ih =>
    intro seen cut s es hrows hceil hc hs hcut
    have hrow : height ∈ c.rows := by simp [hrows]
    have hsorted := hs.sorted
    rw [hrows, List.pairwise_append, List.pairwise_cons] at hsorted
    obtain ⟨-, ⟨hrest, -⟩, hseen⟩ := hsorted
    have hseen : ∀ n ∈ seen, n ≤ height := fun n hn => hseen n hn height (List.mem_cons_self ..)
    unfold replayWinners
    refine indexerU64_claims fun _ => .ite (fun habove => .done ?_) fun hbelow => ?_
    · -- the rest of the page lies above the ceiling
      rintro _ ⟨rfl⟩
      refine ⟨.refl s, List.Subset.refl es, fun start hstart => ?_, fun n hn => ?_⟩
      · obtain ⟨hfrom, hsettled⟩ := hcut.cursor start hstart
        refine ⟨hfrom, fun hgen n hn hle => hsettled hgen n ?_ hle⟩
        obtain ⟨hn, hnle⟩ := List.mem_filter.mp hn
        simp only [decide_eq_true_eq] at hnle
        rw [hrows] at hn
        rcases List.mem_append.mp hn with hn | hn
        · exact hn
        · rcases List.mem_cons.mp hn with rfl | hn
          · omega
          · have := hrest n hn
            omega
      · obtain rfl := Option.some.inj hn
        obtain ⟨last, hlast, hle⟩ := hs.le_last hrow
        exact ⟨le_rfl, last, hlast, by omega⟩
    -- the height is replayed, and the coverage is read after other tasks may have run
    refine indexerU64_claims fun _ => .replay hc hrow (backfillBlock_replays chain _) ?_
    intro t₁ l₁ hst₁ hes₁ _
    refine .read fun t hst current hcurrent => ?_
    have hst := hst₁.trans hst
    have ht := hs.reaches hst
    have hes : es ⊆ _ := List.subset_cons_of_subset (⟨.read fun s => .ok (s.savedCoverage domain),
      t, .ok current, t⟩ : ChunkEvent) hes₁
    refine .ite (fun _ => .done fun _ h => by cases h) fun hcur => .bind ?_
    have hcut : cut.After c seen t := by
      refine ⟨fun start hstart => ?_, hcut.last⟩
      obtain ⟨hfrom, hsettled⟩ := hcut.cursor start hstart
      exact ⟨hfrom, hsettled.reaches hs hst⟩
    refine .imp (fun cursor t' l ⟨hreach, hl, hcursor⟩ => ?_)
      (cutAt_claims (hc.mono hes) ht hmax hrows hseen hrest (by omega) hcut fun hcontains => ?_)
    · obtain ⟨cov, hcov, hin⟩ := (Option.any_eq_true ..).mp hcontains
      obtain rfl := Except.ok.inj hcurrent
      rw [hc.indexable]
      exact ⟨cov, hcov, hin⟩
    -- the row joins those seen, and the rest of the loop goes on from here
    have hl := List.Subset.trans hes hl
    have hrows' : c.rows = (seen ++ [height]) ++ rest := by simp [hrows]
    refine .imp ?_ (ih _ hrows' ?_ (hc.mono hl) (ht.reaches hreach) ⟨hcursor, ?_⟩)
    · intro o t'' l' h cut' ho
      obtain ⟨h₁, h₂, h₃⟩ := h cut' ho
      exact ⟨(hst.trans hreach).trans h₁, List.Subset.trans hl h₂, h₃⟩
    · intro n hn
      rcases List.mem_append.mp hn with hn | hn
      · exact hceil n hn
      · obtain rfl := List.mem_singleton.mp hn
        omega
    · exact (List.getLast?_concat ..).symm

/-! ### The whole chunk -/

/-- **The end of the chunk is honest**: a page that is not full lists every winner up to the
ceiling, a full one only those up to its last. -/
theorem finishChunk_claims {es : List ChunkEvent} (hc : c.Read domain target es)
    (hs : c.Holds genesis s) (hmax : c.scan.finalizedHeight ≤ u64Max) {cut : Cut}
    (hcut : cut.Ends c (min c.scan.finalizedHeight c.through) s) :
    Claims domain target (fun _ _ _ => True)
      (finishChunk c.scan (min c.scan.finalizedHeight c.through) c.rows.length cut) s es := by
  unfold finishChunk
  split
  swap
  · exact .done trivial
  rename_i start last hcursor hlast
  obtain ⟨hfrom, hsettled⟩ := hcut.cursor start hcursor
  refine .ite (fun hle => ?_) fun _ => .done trivial
  -- the range ends at or below the ceiling, and a full page ends it no later than its last
  have hend : last ≤ min c.scan.finalizedHeight c.through ∧
      (c.rows.length = 16 → ∃ m, c.rows.getLast? = some m ∧ last ≤ m) := by
    split at hlast
    · obtain rfl := Option.some.inj hlast
      exact ⟨le_rfl, fun hfull => by omega⟩
    · obtain ⟨hceil, hpage⟩ := hcut.last last hlast
      exact ⟨hceil, fun _ => hpage⟩
  refine .imp (fun _ _ _ _ => trivial)
    (finishRange_claims hc hs hmax hfrom hle hend.1 hend.2 fun hgen n hn h₁ h₂ => ?_)
  rcases hs.listed hgen n hn (hfrom.trans h₁) with hpage | ⟨hfull, hbefore⟩
  · refine hsettled hgen n (List.mem_filter.mpr ⟨hpage, ?_⟩) h₁
    simpa using h₂.trans hend.1
  · obtain ⟨m, hm, hle⟩ := hend.2 hfull
    have := hbefore m (List.mem_of_getLast? hm)
    omega

/-- What a finished scan lists from the start of an interval on. -/
theorem holds_listing {genesis : BlockHash} {scan : Scan} {s : Store} (from_ through : ℕ)
    (hkept : s.Kept genesis) (hfin : scan.Finished s) :
    (Chosen.mk from_ through scan
      (scanWinnersAfter scan.id (checkedSub from_ 1) 16 s)).Holds genesis s := by
  have hafter : ∀ n, (∀ a ∈ checkedSub from_ 1, a < n) ↔ from_ ≤ n := by
    intro n
    unfold checkedSub
    split
    · simp only [Option.mem_some_iff, forall_eq']
      omega
    · refine iff_of_true (fun a h => by cases h) (by omega)
  refine ⟨hkept, hfin, Paging.sorted_afterKey _ _ _, fun n hn => ?_, fun _ n hn hle => ?_⟩
  · exact (hafter n).mp (Paging.mem_afterKey hn).2
  · exact Paging.afterKey_complete hn ((hafter n).mpr hle)

/-- **Replaying an interval of an exhausted scan is honest.** -/
theorem replayRange_claims {chain : ChainReader} {scan : Scan} {from_ through : ℕ}
    {at_ : ChainHash} {es : List ChunkEvent}
    (hread : ∀ rows l, es ⊆ l → (∃ s, (⟨.read fun s =>
        .ok (scanWinnersAfter scan.id (checkedSub from_ 1) 16 s), s, .ok rows, s⟩ : ChunkEvent) ∈ l) →
      (Chosen.mk from_ through scan rows).Read domain target l)
    (hkept : s.Kept genesis) (hfin : scan.Finished s) :
    Claims domain target (fun _ _ _ => True)
      (replayRange chain domain scan.expectedGeneration scan from_ through at_) s es := by
  unfold replayRange
  refine indexerU64_claims fun hmax => .read fun t hst rows hrows => ?_
  obtain rfl := Except.ok.inj hrows
  have hholds := holds_listing from_ through (hst.kept hkept) (hst.during hfin).1
  have hc := hread (scanWinnersAfter scan.id (checkedSub from_ 1) 16 t) _
    (List.subset_cons_self _ es) ⟨t, List.mem_cons_self ..⟩
  refine .bind (.imp ?_ (replayWinners_claims hmax [] rfl (fun n hn => by cases hn) hc
    hholds ⟨fun start hstart => ?_, rfl⟩))
  · rintro (_ | cut) t' l h
    · exact .done trivial
    · obtain ⟨hreach, hes, hcut⟩ := h cut rfl
      exact finishChunk_claims (hc.mono hes) (hholds.reaches hreach) hmax hcut
  · obtain rfl := Option.some.inj hstart
    exact ⟨le_rfl, fun _ n hn => by cases hn⟩

/-- Enumerating claims nothing, and an exhausted scan is finished. -/
theorem enumeratePage_claims {chain : ChainReader} {scan : Scan} {at_ : ChainHash}
    {es : List ChunkEvent} (hopen : scan.Opened s) :
    Claims domain target (fun exhausted t l => exhausted = true → Reaches s t ∧ es ⊆ l ∧
        scan.Finished t ∧ ∃ s cursor, (⟨.read fun s => .ok (scanProgress scan.id s), s,
          .ok (some ⟨cursor, true⟩), s⟩ : ChunkEvent) ∈ l)
      (enumeratePage chain scan at_) s es := by
  unfold enumeratePage
  refine .read fun t hst progress hprogress => ?_
  obtain rfl := Except.ok.inj hprogress
  have hopen := hst.opened hopen
  cases hrow : scanProgress scan.id t with
  | none => exact .fail _
  | some progress =>
    refine .ite (fun _ => ?_) fun hfin => .done fun _ => ?_
    · unfold appendPage winnerPage
      refine .bind (.ofExcept fun _ _ => .ite (fun _ => .fail _) fun _ => .chain fun t₁ _ keys => ?_)
      refine .ofExcept fun heights _ => .done (.ite (fun _ => .fail _) fun _ => ?_)
      refine .store (fun _ _ _ _ h => honest_uncommitting h id) fun _ _ r _ _ _ => ?_
      exact .check (fun _ => .done fun h => absurd h Bool.false_ne_true) fun _ =>
        .done fun h => absurd h Bool.false_ne_true
    · obtain ⟨cursor, finished⟩ := progress
      obtain rfl : finished = true := by simpa using hfin
      obtain ⟨row, hget, hp⟩ := Option.map_eq_some_iff.mp hrow
      have hfinished : row.finished = true := congrArg ScanProgress.finished hp
      refine ⟨hst, List.subset_cons_self _ _, ⟨hopen, fun _ row' hrow' => ?_⟩, t, cursor, ?_⟩
      · rw [hget] at hrow'
        exact Option.some.inj hrow' ▸ hfinished
      · exact List.mem_cons_self ..

theorem activeScan_domain {i : Indexable} {expected : ℕ} {s : Store} {scan : Scan}
    (h : activeScan i expected s = some scan) :
    scan.indexable = i ∧ scan.expectedGeneration = expected := by
  unfold activeScan at h
  split at h
  · cases h
  · obtain rfl := Option.some.inj h
    exact ⟨rfl, rfl⟩

/-- The scan of a chunk is of its domain and generation. -/
theorem chunkScan_domain (chain : ChainReader) (i : Indexable) (expected from_ : ℕ)
    (target : Target) (s : Store) :
    (chunkScan chain i expected target from_ (activeScan i expected s)).indexable = i ∧
      (chunkScan chain i expected target from_ (activeScan i expected s)).expectedGeneration =
        expected := by
  unfold chunkScan
  cases hactive : (activeScan i expected s).filter _ with
  | none => exact ⟨rfl, rfl⟩
  | some scan => exact activeScan_domain (Option.filter_eq_some_iff.mp hactive).1

/-- **Replaying a retryable interval is honest.** -/
theorem replayInterval_claims {chain : ChainReader} {generation from_ through : ℕ}
    {es : List ChunkEvent} (hkept : s.Kept genesis)
    (hinterval : ∃ s cov gap s',
      (⟨.read fun s => .ok (s.savedCoverage domain), s, .ok (some cov), s⟩ : ChunkEvent) ∈ es ∧
      gap ∈ cov.uncovered target.height ∧
      (⟨.read fun s => s.retryableRange domain generation gap.1 gap.2, s',
        .ok (some (from_, through)), s'⟩ : ChunkEvent) ∈ es) :
    Claims domain target (fun _ _ _ => True)
      (replayInterval chain domain generation target from_ through) s es := by
  unfold replayInterval
  refine .read fun t hst active hactive => ?_
  obtain rfl := Except.ok.inj hactive
  obtain ⟨hdomain, hgen⟩ := chunkScan_domain chain domain generation from_ target t
  dsimp only
  generalize chunkScan chain domain generation target from_ (activeScan domain generation t) = scan
    at *
  subst hgen
  refine .store (fun _ _ _ _ h => honest_uncommitting h id) fun t₁ hst₁ r t₂ now hr => ?_
  refine .check (fun hne => ?_) fun _ => .done trivial
  have hopen := (beginScan_opened hr hne).2
  have hkept₂ := (hst₁.trans (Ix.reaches_of_apply hr)).kept (hst.kept hkept)
  refine .bind (.imp (fun exhausted t₃ l h => .ite (fun hex => ?_) fun _ => .done trivial)
    (enumeratePage_claims hopen))
  obtain ⟨hst₃, hl, hfin, hexhausted⟩ := h hex
  refine replayRange_claims (fun rows l' hl' hpage => ?_) (hst₃.kept hkept₂) hfin
  have hall := List.Subset.trans hl hl'
  obtain ⟨s₁, cov, gap, s₂, hcov, hgap, hrange⟩ := hinterval
  obtain ⟨s₃, cursor, hexhausted⟩ := hexhausted
  refine ⟨hdomain, ⟨s₁, cov, gap, s₂, hall ?_, hgap, hall ?_⟩, ⟨t₁, r, t₂, hne, hall ?_⟩,
    ⟨s₃, cursor, hl' hexhausted⟩, hpage⟩
  · exact List.mem_cons_of_mem _ (List.mem_cons_of_mem _ hcov)
  · exact List.mem_cons_of_mem _ (List.mem_cons_of_mem _ hrange)
  · exact List.mem_cons_self ..

theorem firstRetryable_claims {generation : ℕ} {gaps : List (ℕ × ℕ)} {s : Store}
    {es : List ChunkEvent} :
    Claims domain target (fun o t l => Reaches s t ∧ es ⊆ l ∧ ∀ range, o = some range →
        ∃ gap s', gap ∈ gaps ∧
          (⟨.read fun s => s.retryableRange domain generation gap.1 gap.2, s',
            .ok (some range), s'⟩ : ChunkEvent) ∈ l)
      (firstRetryable domain generation gaps) s es := by
  induction gaps generalizing s es with
  | nil => exact .done ⟨.refl s, List.Subset.refl es, fun _ h => by cases h⟩
  | cons gap gaps ih =>
    obtain ⟨first, last⟩ := gap
    refine .read fun t hst found hfound => ?_
    cases found with
    | some range =>
      refine .done ⟨hst, List.subset_cons_self _ _, fun range' h => ?_⟩
      obtain rfl := Option.some.inj h
      exact ⟨(first, last), t, List.mem_cons_self .., List.mem_cons_self ..⟩
    | none =>
      refine .imp (fun o t' l ⟨hst', hl, hall⟩ => ?_) ih
      refine ⟨hst.trans hst', fun e he => hl (List.mem_cons_of_mem _ he), fun range h => ?_⟩
      obtain ⟨gap, s', hgap, hmem⟩ := hall range h
      exact ⟨gap, s', List.mem_cons_of_mem _ hgap, hmem⟩

/-- **A chunk is honest from any reachable store on.** -/
theorem sparseChunk_claims (chain : ChainReader) (hkept : s.Kept genesis) :
    Claims domain target (fun _ _ _ => True) (sparseChunk chain domain target) s [] := by
  unfold sparseChunk
  refine .read fun t hst generation hgeneration => ?_
  refine .store (fun _ _ _ _ h => honest_uncommitting h id) fun t₁ hst₁ r t₂ now hr => ?_
  have hkept₂ := (hst₁.trans (Ix.reaches_of_apply hr)).kept (hst.kept hkept)
  refine .bind (.imp (Q := fun _ t l => t = t₂) (fun _ t l h => ?_) ?_)
  swap
  · cases r with
    | applied | alreadyApplied => exact .done rfl
    | staleGeneration => exact .fail _
  obtain rfl : t = t₂ := h
  refine .read fun t₃ hst₃ coverage hcoverage => ?_
  cases coverage with
  | none => exact .done trivial
  | some cov =>
    refine .bind (.imp (fun o t₄ l ⟨hst₄, hl, hfound⟩ => ?_) firstRetryable_claims)
    cases o with
    | none => exact .done trivial
    | some range =>
      obtain ⟨gap, s', hgap, hmem⟩ := hfound range rfl
      refine replayInterval_claims (hst₄.kept (hst₃.kept hkept₂)) ⟨t₃, cov, gap, s', ?_, hgap, hmem⟩
      exact hl (List.mem_cons_self ..)

end

/-- **A chunk never over-claims.**  From any reachable store on, in every interleaving of a
chunk with other calls of the store, each of its effects is honest: it completes only ranges
inside its interval and below the head of its scan, none of which is refused as incomplete,
and every height that it newly covers is a listed winner that it committed, or no winner and
in such a range. -/
theorem sparse_chunk_never_overclaims {pg : Bool} {genesis : BlockHash} {cs : List Call}
    {s₀ s : Store} (hs : StoreRun pg genesis cs s₀) {chain : ChainReader} {domain : Indexable}
    {target : Target} {es : List ChunkEvent} {p : Ix Unit}
    (h : ChunkRun chain domain target s₀ es p s) {later before : List ChunkEvent}
    {e : ChunkEvent} (he : es = later ++ e :: before) : Honest domain target before e :=
  (h.guarantee (sparseChunk_claims chain hs.kept)).2 later e before he

/-- An exhausted enumeration below height 3 that found a winner at height 2. -/
def gapScan : Scan :=
  ⟨scanId ⟨.winners, 1⟩ (.uniform 3), .uniform 1, .uniform 3, 3, .winners, 1⟩

/-- The store that keeps it. -/
def gapStore : Store :=
  ((Op.appendScanPage gapScan.id none none [2]).apply (.utc 0)
    ((Op.beginScan gapScan).apply (.utc 0) (Store.bound false (.uniform 1))).2).2

/-- The answers of a node that serves no blocks. -/
theorem pairAnswer_chunk {γ : Type} (s : Store) (e : Await γ) :
    ChunkAnswer s e (pairAnswer e s).1 (pairAnswer e s).2 := by
  cases e with
  | store op => exact ⟨.utc 0, .inl ⟨rfl, rfl⟩⟩
  | read f => exact ⟨rfl, .inl rfl⟩
  | chain q =>
    refine ⟨rfl, ?_⟩
    cases q with
    | block => exact fun _ h => by cases h
    | blockHash | lastProofBlock | defaultTopology | topologySummary | participantsByQblock
    | qblockKeys => trivial
  | note | refresh => rfl

/-- The winner at height 2 fails: the ranges before and after it are completed. -/
theorem sparse_chunk_never_overclaims_gap : ∃ cs s₀ es p s, StoreRun false (.uniform 1) cs s₀ ∧
    ChunkRun pairReader .winners ⟨3, chainHash (.uniform 3)⟩ s₀ es p s ∧
    (∃ c, s.coverages.get? .winners = some c ∧
      c.contains 0 1 = true ∧ c.contains 2 2 = false ∧ c.contains 3 3 = true) ∧
    ∀ later e before, es = later ++ e :: before →
      Honest .winners ⟨3, chainHash (.uniform 3)⟩ before e := by
  have run : StoreRun false (.uniform 1) _ gapStore :=
    .snoc (.snoc .nil (.call (.utc 0) (.beginScan gapScan) _))
      (.call (.utc 0) (.appendScanPage gapScan.id none none [2]) _)
  obtain ⟨s, hx, hcov⟩ : ∃ s, (sparseChunk pairReader .winners ⟨3, chainHash (.uniform 3)⟩).exec
      pairAnswer gapStore = some (.ok (), s) ∧ ∃ c, s.coverages.get? .winners = some c ∧
      c.contains 0 1 = true ∧ c.contains 2 2 = false ∧ c.contains 3 3 = true :=
    ⟨_, rfl, _, rfl, by decide +kernel⟩
  obtain ⟨es, p, hrun⟩ := Program.Underway.exec pairAnswer_chunk Reaches.refl .start hx
  rw [List.append_nil] at hrun
  exact ⟨_, _, es, p, s, run, hrun, hcov, fun later e before he =>
    sparse_chunk_never_overclaims run hrun he⟩

end Dashboard

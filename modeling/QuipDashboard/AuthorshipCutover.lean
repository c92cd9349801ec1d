/-
When a served authorship counter falls.

Runs of the store from any legacy rows and any facts, with cutovers and recomputations
among the calls.

* `CutoverRun.recomputed` — after the cutover the stored rows are those of the facts;
* `CommitsAuthorship.keeps_first` — what the first fact of a validator keeps;
* `cutover_keeps` — what a cutover keeps;
* `authorship_monotone` — **exactly when a commit or a cutover lowers no counter**;
* `authorship_cutover_lowers` — the guard compares only one of the three counters.
-/
import QuipDashboard.AuthorshipFacts
import QuipDashboard.Runs

namespace Dashboard

/-! ### What is recomputed -/

/-- What a commit does to the facts and to their aggregate. -/
structure CommitsAuthorship (s s' : Store) (o : Option AuthorshipRecord) : Prop where
  pg : s'.pg = s.pg
  cutover : s'.authorshipCutover = s.authorshipCutover
  absent : o = none → s'.authorshipBlocks = s.authorshipBlocks ∧
    s'.validatorAuthorship = s.validatorAuthorship
  stored : ∀ a, o = some a → ∃ τ, s'.authorshipBlocks = (putAuthorship s.authorshipBlocks a τ).2 ∧
    (s.authorshipCutover ≠ some "1" → s'.validatorAuthorship = s.validatorAuthorship) ∧
    (s.authorshipCutover = some "1" → ∃ items, fresh s'.pg s'.authorshipBlocks = .ok items ∧
      s'.validatorAuthorship =
        s.validatorAuthorship.putAll (items.map fun i => (i.accountId, i)))

theorem exec_recomputeAfterCutover_cases {o : Option AuthorshipRecord} {s s' : Store} {u : Unit}
    (h : (recomputeAfterCutover o).exec s = .ok (u, s')) :
    ((o.isSome ∧ s.authorshipCutover = some "1") ∧ ∃ items, fresh s.pg s.authorshipBlocks = .ok items ∧
      s' = { s with validatorAuthorship :=
        s.validatorAuthorship.putAll (items.map fun i => (i.accountId, i)) }) ∨
    ¬(o.isSome ∧ s.authorshipCutover = some "1") ∧ s' = s := by
  unfold recomputeAfterCutover at h
  rw [Tx.exec_read_bind] at h
  split at h <;> rename_i hc
  · exact .inl ⟨by simpa using hc, exec_recompute h⟩
  · cases h
    exact .inr ⟨by simpa using hc, rfl⟩

theorem CommitRun.commitsAuthorship {now : Timestamp} {b : BlockCommit} {n : ℕ} {s s' : Store}
    {r : CommitResult} (run : CommitRun now b n s r s') :
    CommitsAuthorship s s' b.records.authorship := by
  obtain ⟨-, hd, -⟩ := provenance_ok run.provenance
  obtain ⟨-, -, -, -, s₁, s₂, s₃, s₄, s₅, s₆, w, d, a, p, c, h₁, h₂, h₃, h₄, h₅, h₆, rfl, -⟩ := run
  obtain ⟨ns, rfl⟩ := exec_winnerRecord h₁
  obtain ⟨dh, pd, rfl, -⟩ := exec_difficultyRecord (fun d h => (hd d h).2) h₂
  obtain ⟨ab, rfl, ha₀, ha₁⟩ := exec_authorshipRecord h₃
  obtain ⟨rfl, -, -⟩ := exec_writeParticipants h₄
  obtain ⟨cs, rfl, -⟩ := exec_completeAll h₅
  have hafter := exec_recomputeAfterCutover_cases h₆
  cases hrec : b.records.authorship with
  | none =>
    obtain ⟨⟨hsome, -⟩, -⟩ | ⟨-, rfl⟩ := hafter
    · simp [hrec] at hsome
    · exact ⟨rfl, rfl, fun _ => ⟨ha₀ hrec, rfl⟩, fun _ h => nomatch h⟩
  | some a =>
    obtain ⟨τ, -, -, rfl⟩ := ha₁ a hrec
    obtain ⟨⟨-, hc⟩, items, hfresh, rfl⟩ | ⟨hc, rfl⟩ := hafter
    · refine ⟨rfl, rfl, (fun h => nomatch h), ?_⟩
      rintro _ ⟨rfl⟩
      exact ⟨τ, rfl, fun h => absurd hc h, fun _ => ⟨items, hfresh, rfl⟩⟩
    · refine ⟨rfl, rfl, (fun h => nomatch h), ?_⟩
      rintro _ ⟨rfl⟩
      have hc' : s.authorshipCutover ≠ some "1" := by simpa [hrec] using hc
      exact ⟨τ, rfl, fun _ => rfl, fun h => absurd h hc'⟩

theorem Recomputed.congr {s s' : Store} (h : Recomputed s) (hpg : s'.pg = s.pg)
    (hfacts : s'.authorshipBlocks = s.authorshipBlocks)
    (hrows : s'.validatorAuthorship = s.validatorAuthorship) : Recomputed s' := by
  obtain ⟨items, hfresh, hput⟩ := h
  exact ⟨items, by rw [hpg, hfacts, hfresh], by rw [hrows, hput]⟩

/-- A call keeps the aggregate of a store that is cut over. -/
theorem Calls.recomputed {s s' : Store} {c : Call} (h : Calls s c s')
    (hs : s.authorshipCutover = some "1" → Recomputed s) :
    s'.authorshipCutover = some "1" → Recomputed s' := by
  cases h with
  | call now op s =>
  cases hx : op.apply now s with
  | mk r s' =>
  have he : Effect now op s r s' := by
    have := apply_effect now op s
    rwa [hx] at this
  intro hcut
  cases op with
  | commitBlock b =>
    rcases commitBlock_run hx with ⟨rfl, -⟩ | ⟨n, r', -, -, ⟨run⟩⟩
    · exact hs hcut
    have hc := run.commitsAuthorship
    have hcut' : s.authorshipCutover = some "1" := hc.cutover ▸ hcut
    cases hrec : b.records.authorship with
    | none => exact (hs hcut').congr hc.pg (hc.absent hrec).1 (hc.absent hrec).2
    | some a =>
      obtain ⟨τ, -, -, hput⟩ := hc.stored a hrec
      obtain ⟨items, hfresh, hrows⟩ := hput hcut'
      exact recomputed_of_putAll hfresh hrows
  | reindex is =>
    obtain ⟨q, hq⟩ : ∃ q, reindex is s = q := ⟨_, rfl⟩
    rw [Op.apply, hq] at hx
    obtain ⟨e | gs, s₁⟩ := q
    · cases hx
      rw [reindex_error hq] at hcut ⊢
      exact hs hcut
    · cases hx
      have hrows := reindex_rows hq
      have hre := (reindex_ok hq).2
      by_cases ha : Indexable.authorship ∈ Indexable.all.filter (· ∈ is)
      · have hnone := hrows.authorshipCutover
        rw [if_pos ha] at hnone
        have hcut' : s'.authorshipCutover = some "1" := hcut
        rw [hnone] at hcut'
        cases hcut'
      · have hsame := hrows.authorshipCutover
        have hfacts := hre.authorshipBlocks
        rw [if_neg ha] at hsame hfacts
        exact (hs (hsame ▸ hcut)).congr hrows.pg hfacts hrows.validatorAuthorship
  | tryAuthorshipCutover =>
    cases he with
    | unchanged => exact hs hcut
    | cutOver _ hfresh => exact recomputed_of_putAll (s := s) hfresh rfl
  | recomputeAuthorshipSummary =>
    cases he with
    | unchanged => exact hs hcut
    | recomputed hfresh => exact recomputed_of_putAll (s := s) hfresh rfl
  | beginScan | appendScanPage | commitRange | markUnavailable | setFinalizedTarget
  | setPrunedFloor | initializeCoverage | insertDifficultySnapshot =>
    have hsame := he.sameRows (fun _ h => by cases h) fun _ h => by cases h
    obtain ⟨hrows, hmarker⟩ := he.sameAuthorship (fun _ h => by cases h) (fun _ h => by cases h)
      (fun h => by cases h) fun h => by cases h
    exact (hs (hmarker ▸ hcut)).congr hsame.pg hsame.authorshipBlocks hrows

/-- **After the cutover the stored rows are those of the facts.** -/
theorem CutoverRun.recomputed {pg : Bool} {genesis : BlockHash}
    {rows : KeyedTable String ValidatorAuthorshipRecord}
    {facts : KeyedTable (String × ℕ) AuthorshipFact} {cs : List Call} {s : Store}
    (h : CutoverRun pg genesis rows facts cs s) :
    s.authorshipCutover = some "1" → Recomputed s := by
  have hstart : (Store.legacy pg genesis rows facts).authorshipCutover ≠ some "1" := nofun
  exact History.Run.invariant (I := fun s : Store => s.authorshipCutover = some "1" → Recomputed s)
    (fun h => absurd h hstart) (fun hs hstep => hstep.recomputed hs) h

/-! ### When nothing is lowered -/

/-- What is served for a validator afterwards is not below what was served before. -/
def KeepsServed (s s' : Store) (v : String) : Prop :=
  ∃ o, servedRow s' v = .ok o ∧
    ∀ r, servedRow s v = .ok (some r) → ∃ r', o = some r' ∧ Below r r'

/-- The counters are served, and none is lower than before. -/
def ServesAtLeast (before : List ValidatorAuthorshipRecord) (s' : Store) : Prop :=
  ∃ after, getValidatorAuthorship s' = .ok after ∧
    ∀ r ∈ before, ∃ r' ∈ after, r'.accountId = r.accountId ∧ Below r r'

theorem servedRow_account {s : Store} {v : String} {r : ValidatorAuthorshipRecord}
    (h : servedRow s v = .ok (some r)) : r.accountId = v := by
  by_cases hv : v ∈ s.merged
  · obtain ⟨r', m, hr', hm, heq⟩ := (servedRow_merged hv).mp h
    cases heq
    exact (mergeInto_account hm).trans (freshRow_account hr')
  · rw [servedRow_of_not_mem hv, Except.ok.injEq] at h
    obtain ⟨r', -, rfl⟩ := Option.map_eq_some_iff.mp h
    rfl

theorem servesAtLeast_iff {s s' : Store} {before : List ValidatorAuthorshipRecord}
    (h : getValidatorAuthorship s = .ok before) :
    ServesAtLeast before s' ↔ ∀ v, KeepsServed s s' v := by
  have hmem : ∀ v r, servedRow s v = .ok (some r) ↔ r ∈ before ∧ r.accountId = v := by
    intro v r
    rw [getValidatorAuthorship_mem h]
    constructor
    · intro hr
      have hv := servedRow_account hr
      exact ⟨hv ▸ hr, hv⟩
    · rintro ⟨hr, rfl⟩
      exact hr
  constructor
  · rintro ⟨after, hafter, hall⟩ v
    obtain ⟨o, ho⟩ := (getValidatorAuthorship_isOk s').mp ⟨after, hafter⟩ v
    refine ⟨o, ho, fun r hr => ?_⟩
    obtain ⟨hbefore, rfl⟩ := (hmem v r).mp hr
    obtain ⟨r', hr', hacc, hbelow⟩ := hall r hbefore
    rw [getValidatorAuthorship_mem hafter, hacc, ho, Except.ok.injEq] at hr'
    exact ⟨r', hr', hbelow⟩
  · intro hall
    obtain ⟨after, hafter⟩ := (getValidatorAuthorship_isOk s').mpr fun v =>
      ⟨_, (hall v).choose_spec.1⟩
    refine ⟨after, hafter, fun r hr => ?_⟩
    obtain ⟨o, ho, hbelow⟩ := hall r.accountId
    obtain ⟨r', rfl, hb⟩ := hbelow r ((hmem _ r).mpr ⟨hr, rfl⟩)
    have hacc := servedRow_account ho
    exact ⟨r', (getValidatorAuthorship_mem hafter r').mpr (hacc ▸ ho), hacc, hb⟩

theorem KeepsServed.of_eq {s s' : Store} {v : String} (hok : ∃ o, servedRow s v = .ok o)
    (h : servedRow s' v = servedRow s v) : KeepsServed s s' v := by
  obtain ⟨o, ho⟩ := hok
  refine ⟨o, h.trans ho, fun r hr => ⟨r, ?_, .refl r⟩⟩
  rw [ho, Except.ok.injEq] at hr
  exact hr

theorem servedRow_congr {s s' : Store} {v : String} (hpg : s'.pg = s.pg)
    (hcut : s'.authorshipCutover = s.authorshipCutover)
    (hfacts : factsOf s'.authorshipBlocks.rows v = factsOf s.authorshipBlocks.rows v)
    (hrow : s'.validatorAuthorship.get? v = s.validatorAuthorship.get? v) :
    servedRow s' v = servedRow s v := by
  have hauthors : v ∈ s'.authors ↔ v ∈ s.authors := by
    rw [Store.mem_authors, Store.mem_authors, hfacts]
  have hfresh : freshRow s'.pg s'.authorshipBlocks.rows v =
      freshRow s.pg s.authorshipBlocks.rows v := by
    rw [hpg, freshRow_congr hfacts]
  have hfloor : s'.floorRow v = s.floorRow v := by rw [Store.floorRow, Store.floorRow, hrow]
  rw [servedRow, servedRow, hcut, hfresh, hfloor]
  simp only [hauthors]

/-- The first fact of a validator keeps what is served for it: its height is read as a
height, and its floor, whose height is read too, either stays or is reached by the fact
alone. -/
def FirstFactKeeps (s : Store) (a : AuthorshipRecord) : Prop :=
  (s.pg = true ∨ a.blockNumber ≠ 0) ∧
  ∀ floor, s.validatorAuthorship.get? a.accountId = some floor →
    if s.authorshipCutover = some "1" then
      floor.blocksAuthored ≤ 1 ∧ floor.blocksAuthoredWithPow ≤ (if a.hadWinner then 1 else 0) ∧
        ∀ n, floor.lastAuthoredBlock = some n → n ≤ a.blockNumber
    else Readable floor

/-- A commit brings no validator's first fact, or one that keeps what is served. -/
def CommitKeeps (s : Store) (b : BlockCommit) : Prop :=
  ∀ a, b.records.authorship = some a → a.accountId ∉ s.authors → FirstFactKeeps s a

/-- Every floor of a validator with facts is reached by them in its winners and height. -/
def FloorsReached (s : Store) : Prop :=
  ∀ v floor, s.validatorAuthorship.get? v = some floor → v ∈ s.authors →
    floor.blocksAuthoredWithPow ≤ (factsOf s.authorshipBlocks.rows v).countP (·.2.hadWinner) ∧
    ∀ n, floor.lastAuthoredBlock = some n → n ≤ lastOf (factsOf s.authorshipBlocks.rows v)

section Commit

variable {s s' : Store} {o : Option AuthorshipRecord}

/-- A commit keeps what is served for every validator but the author of its record. -/
theorem CommitsAuthorship.keeps_other (h : CommitsAuthorship s s' o)
    (hs : s.authorshipCutover = some "1" → Recomputed s) {v : String}
    (hv : ∀ a, o = some a → v ≠ a.accountId) : servedRow s' v = servedRow s v := by
  cases o with
  | none =>
    obtain ⟨hfacts, hrows⟩ := h.absent rfl
    exact servedRow_congr h.pg h.cutover (by rw [hfacts]) (by rw [hrows])
  | some a =>
    obtain ⟨τ, hfacts, hkept, hput⟩ := h.stored a rfl
    have hgroup : factsOf s'.authorshipBlocks.rows v = factsOf s.authorshipBlocks.rows v := by
      rw [hfacts, factsOf_putAuthorship_ne (hv a rfl)]
    refine servedRow_congr h.pg h.cutover hgroup ?_
    by_cases hc : s.authorshipCutover = some "1"
    · obtain ⟨items, hfresh, hrows⟩ := hput hc
      obtain ⟨hmem, hnot⟩ := get?_recomputed hfresh hrows v
      by_cases hauthor : v ∈ s'.authors
      · obtain ⟨r', hr', hget'⟩ := hmem hauthor
        have hauthor' : v ∈ s.authors := by
          rwa [Store.mem_authors, hgroup, ← Store.mem_authors] at hauthor
        obtain ⟨r, hr, hget⟩ := (hs hc).get? hauthor'
        rw [h.pg, freshRow_congr hgroup, hr, Except.ok.injEq] at hr'
        rw [hget', hget, hr']
      · exact hnot hauthor
    · rw [hkept hc]

theorem CommitsAuthorship.mem_authors {a : AuthorshipRecord}
    (h : CommitsAuthorship s s' (some a)) : a.accountId ∈ s'.authors := by
  obtain ⟨τ, hfacts, -, -⟩ := h.stored a rfl
  obtain ⟨fact, hget⟩ : ∃ fact, s'.authorshipBlocks.get? (a.accountId, a.blockNumber) = some fact :=
    ⟨_, by rw [hfacts, putAuthorship, KeyedTable.get?_upsert_self]⟩
  exact Store.mem_authors_of_get? hget

/-- What is served for a validator with facts once the store is cut over. -/
theorem servedRow_cutover {v : String} {r : ValidatorAuthorshipRecord}
    (hc : s.authorshipCutover = some "1") (hr : freshRow s.pg s.authorshipBlocks.rows v = .ok r)
    (hget : s.validatorAuthorship.get? v = some r) : servedRow s v = .ok (some r) := by
  rw [servedRow, if_pos (.inl hc), Store.floorRow, hget, ← freshRow_account hr]
  rfl

/-- A validator that has facts is served no less after one more. -/
theorem CommitsAuthorship.keeps_author {a : AuthorshipRecord} (h : CommitsAuthorship s s' (some a))
    (hs : s.authorshipCutover = some "1" → Recomputed s) (hle : a.blockNumber ≤ u64Max)
    (hok : ∃ o, servedRow s a.accountId = .ok o) (hauthor : a.accountId ∈ s.authors) :
    KeepsServed s s' a.accountId := by
  have hauthor' := h.mem_authors
  obtain ⟨τ, hfacts, hkept, hput⟩ := h.stored a rfl
  have hgrown : ∀ r, freshRow s.pg s.authorshipBlocks.rows a.accountId = .ok r →
      ∃ r', freshRow s'.pg s'.authorshipBlocks.rows a.accountId = .ok r' ∧ Below r r' ∧
        (Readable r → Readable r') := by
    intro r hr
    obtain ⟨r', hr', hbelow, hread⟩ := freshRow_putAuthorship (a := a) (τ := τ) hr
    exact ⟨r', by rw [h.pg, hfacts, hr'], hbelow, fun h => hread h hle⟩
  by_cases hc : s.authorshipCutover = some "1"
  · -- the stored row was the fresh one, and is the fresh one again
    obtain ⟨r, hr, hget⟩ := (hs hc).get? hauthor
    obtain ⟨items, hfresh, hrows⟩ := hput hc
    obtain ⟨r', hr', hget'⟩ := (get?_recomputed hfresh hrows a.accountId).1 hauthor'
    obtain ⟨r'', hr'', hbelow, -⟩ := hgrown r hr
    rw [hr', Except.ok.injEq] at hr''
    refine ⟨some r', servedRow_cutover (h.cutover.trans hc) hr' hget', fun r₀ hr₀ => ?_⟩
    rw [servedRow_cutover hc hr hget, Except.ok.injEq, Option.some.injEq] at hr₀
    exact ⟨r', rfl, by rw [← hr₀, hr'']; exact hbelow⟩
  · -- the floor stays, and is merged with a greater row
    have hmerged : a.accountId ∈ s.merged := Store.mem_merged.mpr ⟨hc, hauthor⟩
    have hmerged' : a.accountId ∈ s'.merged :=
      Store.mem_merged.mpr ⟨h.cutover ▸ hc, hauthor'⟩
    have hfloor : s'.floorRow a.accountId = s.floorRow a.accountId := by
      rw [Store.floorRow, Store.floorRow, hkept hc]
    obtain ⟨o, ho⟩ := hok
    obtain ⟨r, m, hr, hm, rfl⟩ := (servedRow_merged hmerged).mp ho
    obtain ⟨r', hr', hbelow, hread⟩ := hgrown r hr
    obtain ⟨m', hm'⟩ := mergeInto_isOk.mpr fun o hfl => by
      obtain ⟨hr, ho⟩ := mergeInto_isOk.mp ⟨m, hm⟩ o hfl
      exact ⟨hread hr, ho⟩
    obtain ⟨habove, hold⟩ := mergeInto_above (by rw [(freshRow_ok.mp hr').2]; rfl) hm'
    refine ⟨some m', (servedRow_merged hmerged').mpr ⟨r', m', hr', hfloor ▸ hm', rfl⟩, ?_⟩
    intro r₀ hr₀
    rw [ho, Except.ok.injEq, Option.some.injEq] at hr₀
    exact ⟨m', rfl, hr₀ ▸ mergeInto_below hm (hbelow.trans habove) hold⟩

/-- **The first fact of a validator keeps what is served for it exactly when
`FirstFactKeeps`.** -/
theorem CommitsAuthorship.keeps_first {a : AuthorshipRecord} (h : CommitsAuthorship s s' (some a))
    (hle : a.blockNumber ≤ u64Max) (hauthor : a.accountId ∉ s.authors) :
    KeepsServed s s' a.accountId ↔ FirstFactKeeps s a := by
  have hauthor' := h.mem_authors
  obtain ⟨τ, hfacts, hkept, hput⟩ := h.stored a rfl
  have hnone : factsOf s.authorshipBlocks.rows a.accountId = [] := by
    rwa [Store.mem_authors, not_not] at hauthor
  have hfresh : ∀ r, freshRow s'.pg s'.authorshipBlocks.rows a.accountId = .ok r ↔
      (s.pg = true ∨ a.blockNumber ≠ 0) ∧
      r = { accountId := a.accountId
            blocksAuthored := 1
            blocksAuthoredWithPow := if a.hadWinner then 1 else 0
            lastAuthoredBlock := some a.blockNumber
            lastAuthoredAt := some τ } := by
    -- with no fact before, the fresh row is that of one block
    intro r
    rw [h.pg, hfacts, freshRow_first hnone]
  have hbefore : servedRow s a.accountId = .ok (s.floorRow a.accountId) :=
    servedRow_of_not_mem fun hm => hauthor (Store.mem_merged.mp hm).2
  by_cases hc : s.authorshipCutover = some "1"
  -- after the cutover the recomputed row is served in place of the floor
  · obtain ⟨items, hitems, hrows⟩ := hput hc
    obtain ⟨r, hr, hget⟩ := (get?_recomputed hitems hrows a.accountId).1 hauthor'
    have hafter := servedRow_cutover (h.cutover.trans hc) hr hget
    obtain ⟨hheight, rfl⟩ := (hfresh r).mp hr
    constructor
    · rintro ⟨o, ho, hbelow⟩
      rw [hafter, Except.ok.injEq] at ho
      refine ⟨hheight, fun floor hfl => ?_⟩
      rw [if_pos hc]
      obtain ⟨r', hr', hb⟩ := hbelow (storedRow (a.accountId, floor)) (by
        rw [hbefore, Store.floorRow, hfl]
        rfl)
      rw [← ho, Option.some.injEq] at hr'
      rw [← hr'] at hb
      refine ⟨hb.blocks, hb.pow, fun n hn => ?_⟩
      obtain ⟨m, hm, hnm⟩ := hb.last n hn
      cases hm
      exact hnm
    · rintro ⟨-, hfloors⟩
      refine ⟨_, hafter, fun r₀ hr₀ => ⟨_, rfl, ?_⟩⟩
      rw [hbefore, Except.ok.injEq] at hr₀
      obtain ⟨floor, hfl, rfl⟩ := Option.map_eq_some_iff.mp hr₀
      have hkeeps := hfloors floor hfl
      rw [if_pos hc] at hkeeps
      exact ⟨hkeeps.1, hkeeps.2.1, fun n hn => ⟨_, rfl, hkeeps.2.2 n hn⟩⟩
  -- before it the fresh row is merged into the floor
  · have hmerged' : a.accountId ∈ s'.merged :=
      Store.mem_merged.mpr ⟨h.cutover ▸ hc, hauthor'⟩
    have hfloor : s'.floorRow a.accountId = s.floorRow a.accountId := by
      rw [Store.floorRow, Store.floorRow, hkept hc]
    constructor
    · rintro ⟨o, ho, -⟩
      obtain ⟨r, m, hr, hm, -⟩ := (servedRow_merged hmerged').mp ho
      refine ⟨((hfresh r).mp hr).1, fun floor hfl => ?_⟩
      rw [if_neg hc]
      rw [hfloor] at hm
      exact (mergeInto_isOk.mp ⟨m, hm⟩ (storedRow (a.accountId, floor)) (by
        rw [Store.floorRow, hfl]
        rfl)).2
    · rintro ⟨hheight, hfloors⟩
      obtain ⟨r, hr⟩ : ∃ r, freshRow s'.pg s'.authorshipBlocks.rows a.accountId = .ok r :=
        ⟨_, (hfresh _).mpr ⟨hheight, rfl⟩⟩
      have hlast : r.lastAuthoredBlock = some a.blockNumber := by rw [((hfresh r).mp hr).2]
      have hread : ∀ o, s.floorRow a.accountId = some o → Readable r ∧ Readable o := by
        intro o ho
        obtain ⟨floor, hfl, rfl⟩ := Option.map_eq_some_iff.mp ho
        have hread := hfloors floor hfl
        rw [if_neg hc] at hread
        refine ⟨fun n hn => ?_, hread⟩
        rw [hlast, Option.some.injEq] at hn
        exact hn ▸ hle
      obtain ⟨m, hm⟩ := mergeInto_isOk.mpr hread
      obtain ⟨-, hold⟩ := mergeInto_above (by rw [hlast]; rfl) hm
      refine ⟨some m, (servedRow_merged hmerged').mpr ⟨r, m, hr, hfloor ▸ hm, rfl⟩, ?_⟩
      intro r₀ hr₀
      rw [hbefore, Except.ok.injEq] at hr₀
      exact ⟨m, rfl, hold r₀ hr₀⟩

end Commit

/-- The guard compares the number of blocks of every floor with the facts. -/
theorem behind_eq_false {s : Store} {items : List ValidatorAuthorshipRecord}
    (hfresh : fresh s.pg s.authorshipBlocks = .ok items) (h : behind items s = false) {v : String}
    {floor r : ValidatorAuthorshipRecord} (hfl : s.validatorAuthorship.get? v = some floor)
    (hr : freshRow s.pg s.authorshipBlocks.rows v = .ok r) (hv : v ∈ s.authors) :
    floor.blocksAuthored ≤ r.blocksAuthored := by
  obtain ⟨hto, hfrom⟩ := Except.mapM_mem hfresh
  obtain ⟨r₁, hmem, hr₁⟩ := hto v hv
  have hsome : (items.find? (·.accountId = v)).isSome := by
    rw [List.find?_isSome]
    exact ⟨r₁, hmem, by simpa using freshRow_account hr₁⟩
  obtain ⟨r₂, hfind⟩ := Option.isSome_iff_exists.mp hsome
  have hacc : r₂.accountId = v := by simpa using List.find?_some hfind
  obtain ⟨w, -, hr₂⟩ := hfrom r₂ (List.mem_of_find?_eq_some hfind)
  rw [← freshRow_account hr₂, hacc, hr, Except.ok.injEq] at hr₂
  have hrow := List.any_eq_false.mp h (v, floor) (KeyedTable.get?_eq_some.mp hfl)
  rw [hfind] at hrow
  rw [hr₂]
  simpa using hrow

/-- **A cutover keeps what is served exactly when the facts reach every floor.** -/
theorem cutover_keeps {s s' : Store} {items : List ValidatorAuthorshipRecord}
    (hc : s.authorshipCutover ≠ some "1") (hfresh : fresh s.pg s.authorshipBlocks = .ok items)
    (hbehind : behind items s = false)
    (hs' : s' = { s with
      validatorAuthorship := s.validatorAuthorship.putAll (items.map fun i => (i.accountId, i))
      authorshipCutover := some "1" })
    (hok : ∀ v, ∃ o, servedRow s v = .ok o) :
    (∀ v, KeepsServed s s' v) ↔ FloorsReached s := by
  have hfresh' : fresh s'.pg s'.authorshipBlocks = .ok items := by
    rw [hs']
    exact hfresh
  have hrows : s'.validatorAuthorship =
      s.validatorAuthorship.putAll (items.map fun i => (i.accountId, i)) := by rw [hs']
  have hc' : s'.authorshipCutover = some "1" := by rw [hs']
  have hfacts : s'.authorshipBlocks = s.authorshipBlocks := by rw [hs']
  have hpg : s'.pg = s.pg := by rw [hs']
  have hauthors : s'.authors = s.authors := by rw [Store.authors, hfacts, Store.authors]
  have hafter : ∀ v, (v ∈ s.authors → ∃ r, freshRow s.pg s.authorshipBlocks.rows v = .ok r ∧
      servedRow s' v = .ok (some r)) ∧
      (v ∉ s.authors → servedRow s' v = .ok (s.floorRow v)) := by
    intro v
    obtain ⟨hmem, hnot⟩ := get?_recomputed hfresh' hrows v
    rw [hauthors] at hmem hnot
    constructor
    · intro hv
      obtain ⟨r, hr, hget⟩ := hmem hv
      have hserved := servedRow_cutover hc' hr hget
      rw [hpg, hfacts] at hr
      exact ⟨r, hr, hserved⟩
    · intro hv
      rw [servedRow, if_pos (.inl hc'), Store.floorRow, hnot hv, Store.floorRow]
  constructor
  -- a merged row is at least the floor, and the cutover must not fall below it
  · intro hall v floor hfl hv
    obtain ⟨o, ho⟩ := hok v
    obtain ⟨r, m, hr, hm, rfl⟩ := (servedRow_merged (Store.mem_merged.mpr ⟨hc, hv⟩)).mp ho
    obtain ⟨r', hr', hserved⟩ := (hafter v).1 hv
    obtain ⟨o', ho', hbelow⟩ := hall v
    obtain ⟨r'', hr'', hb⟩ := hbelow m ho
    rw [hserved, Except.ok.injEq, hr'', Option.some.injEq] at ho'
    rw [hr, Except.ok.injEq] at hr'
    obtain ⟨-, rfl⟩ := freshRow_ok.mp hr
    have hold := (mergeInto_above rfl hm).2 (storedRow (v, floor)) (by
      rw [Store.floorRow, hfl]
      rfl)
    rw [← ho', ← hr'] at hb
    have hfloor := hold.trans hb
    refine ⟨hfloor.pow, fun n hn => ?_⟩
    obtain ⟨k, hk, hnk⟩ := hfloor.last n hn
    cases hk
    exact hnk
  -- no floor is above the fresh row, so that the merged row is the fresh one
  · intro hreached v
    by_cases hv : v ∈ s.authors
    · obtain ⟨r, hr, hserved⟩ := (hafter v).1 hv
      refine ⟨some r, hserved, fun m hm => ⟨r, rfl, ?_⟩⟩
      obtain ⟨r', m', hr', hm', heq⟩ :=
        (servedRow_merged (Store.mem_merged.mpr ⟨hc, hv⟩)).mp hm
      rw [hr, Except.ok.injEq] at hr'
      rw [Option.some.injEq] at heq
      rw [heq]
      refine mergeInto_below hm' (hr' ▸ .refl r) fun o ho => ?_
      obtain ⟨floor, hfl, rfl⟩ := Option.map_eq_some_iff.mp ho
      have hblocks := behind_eq_false hfresh hbehind hfl hr hv
      obtain ⟨hpow, hlast⟩ := hreached v floor hfl hv
      obtain ⟨-, rfl⟩ := freshRow_ok.mp hr
      exact ⟨hblocks, hpow, fun n hn => ⟨_, rfl, hlast n hn⟩⟩
    · refine ⟨_, (hafter v).2 hv, fun r hr => ⟨r, ?_, .refl r⟩⟩
      rw [servedRow_of_not_mem fun hm => hv (Store.mem_merged.mp hm).2, Except.ok.injEq] at hr
      exact hr

/-- **In any run, a commit lowers no served counter exactly when `CommitKeeps`, and a
cutover exactly when `FloorsReached`; any other outcome of the two changes nothing.** -/
theorem authorship_monotone {pg : Bool} {genesis : BlockHash}
    {rows : KeyedTable String ValidatorAuthorshipRecord}
    {facts : KeyedTable (String × ℕ) AuthorshipFact} {cs : List Call} {s : Store}
    (h : CutoverRun pg genesis rows facts cs s) {before : List ValidatorAuthorshipRecord}
    (hb : getValidatorAuthorship s = .ok before) :
    (∀ now b r s', commitBlock now b s = (r, s') →
      (r = .ok .applied ∨ r = .ok .alreadyApplied → (ServesAtLeast before s' ↔ CommitKeeps s b)) ∧
      (¬(r = .ok .applied ∨ r = .ok .alreadyApplied) → s' = s)) ∧
    ∀ r s', tryAuthorshipCutover s = (r, s') →
      (r = .ok true ∧ s.authorshipCutover ≠ some "1" →
        (ServesAtLeast before s' ↔ FloorsReached s)) ∧
      (¬(r = .ok true ∧ s.authorshipCutover ≠ some "1") → s' = s) := by
  have hs := h.recomputed
  have hok := (getValidatorAuthorship_isOk s).mp ⟨before, hb⟩
  constructor
  · intro now b r s' hx
    constructor
    · intro hr
      rw [servesAtLeast_iff hb]
      rcases commitBlock_run hx with ⟨-, ⟨e, he⟩ | ⟨he, -⟩⟩ | ⟨n, r', hcheck, -, ⟨run⟩⟩
      -- a rejected commit has another result
      · rcases hr with rfl | rfl <;> cases he
      · rcases hr with rfl | rfl <;> cases he
      have hle : ∀ a, b.records.authorship = some a → a.blockNumber ≤ u64Max := by
        intro a ha
        rw [(run.commits hcheck).authorship a ha]
        exact (check_ok hcheck).2.1
      have hc := run.commitsAuthorship
      unfold CommitKeeps
      cases hrec : b.records.authorship with
      | none =>
        rw [hrec] at hc
        refine ⟨(fun _ _ h => nomatch h), fun _ v => .of_eq (hok v) ?_⟩
        exact hc.keeps_other hs fun _ h => nomatch h
      | some a =>
        rw [hrec] at hc
        -- another validator keeps its row, whatever the cutover
        have hother : ∀ v, v ≠ a.accountId → KeepsServed s s' v := by
          intro v hv
          refine .of_eq (hok v) (hc.keeps_other hs ?_)
          rintro _ ⟨rfl⟩
          exact hv
        constructor
        · rintro hall _ ⟨rfl⟩ hauthor
          exact (hc.keeps_first (hle a hrec) hauthor).mp (hall _)
        · intro hfirst v
          by_cases hv : v = a.accountId
          · subst hv
            by_cases hauthor : a.accountId ∈ s.authors
            · exact hc.keeps_author hs (hle a hrec) (hok _) hauthor
            · exact (hc.keeps_first (hle a hrec) hauthor).mpr (hfirst a rfl hauthor)
          · exact hother v hv
    · intro hr
      rcases commitBlock_cases hx with ⟨hsame, -⟩ | ⟨r', rfl, hc⟩
      · exact hsame
      · rcases hc.result with rfl | rfl <;> simp at hr
  · intro r s' hx
    constructor
    · rintro ⟨rfl, hc⟩
      rcases tryAuthorshipCutover_cases hx with ⟨-, hcut⟩ | ⟨-, -, items, hfresh, hbehind, hs'⟩
      · exact absurd (hcut rfl) hc
      · rw [servesAtLeast_iff hb]
        exact cutover_keeps hc hfresh hbehind hs' hok
    · intro hr
      rcases tryAuthorshipCutover_cases hx with ⟨hsame, -⟩ | ⟨rfl, hc, -⟩
      · exact hsame
      · exact absurd ⟨rfl, hc⟩ hr

/-- A legacy row of `old`: two blocks, one of them won, the last at height 99. -/
def legacyRow : KeyedTable String ValidatorAuthorshipRecord :=
  KeyedTable.empty.put "old"
    { accountId := "old", blocksAuthored := 2, blocksAuthoredWithPow := 1
      lastAuthoredBlock := some 99, lastAuthoredAt := some 0 }

/-- Two facts of `old`, of lower heights and without a winner. -/
def legacyFacts : KeyedTable (String × ℕ) AuthorshipFact :=
  (KeyedTable.empty.put ("old", 10) ⟨0, false⟩).put ("old", 20) ⟨0, false⟩

/-- A commit at height 100 of a block that `old` authored. -/
def authoredByOld : BlockCommit where
  genesis := .uniform 1
  hash := .uniform 2
  height := 100
  guards := [⟨.authorship, 1⟩]
  records :=
    { winner := none, difficulty := none
      authorship := some { accountId := "old", blockNumber := 100, timestamp := 1, hadWinner := true }
      participation := [] }
  completed := []

theorem authorship_monotone_old :
    ∃ before, getValidatorAuthorship (Store.legacy false (.uniform 1) legacyRow .empty) = .ok before ∧
      ServesAtLeast before
        (commitBlock (.utc 0) authoredByOld (Store.legacy false (.uniform 1) legacyRow .empty)).2 := by
  refine ⟨_, rfl, ?_⟩
  refine (((authorship_monotone (.nil : CutoverRun false (.uniform 1) legacyRow .empty [] _) rfl).1
    (.utc 0) authoredByOld _ _ rfl).1 (.inl (by decide +kernel))).mpr ?_
  rintro _ ⟨rfl⟩ -
  refine ⟨.inr (by decide), fun floor hfl => ?_⟩
  cases hfl
  exact fun n hn => by cases hn; decide

/-- **A cutover lowers the winners and the last height of a validator whose number of
blocks its facts have reached**: the guard does not compare the other two counters. -/
theorem authorship_cutover_lowers :
    ∃ before, getValidatorAuthorship (Store.legacy false (.uniform 1) legacyRow legacyFacts) =
        .ok before ∧
      (tryAuthorshipCutover (Store.legacy false (.uniform 1) legacyRow legacyFacts)).1 = .ok true ∧
      ¬ServesAtLeast before
        (tryAuthorshipCutover (Store.legacy false (.uniform 1) legacyRow legacyFacts)).2 := by
  refine ⟨[⟨"old", 2, 1, some 99, some 0⟩], by rfl, by decide +kernel, ?_⟩
  rintro ⟨after, hafter, hall⟩
  have hlowered : getValidatorAuthorship
      (tryAuthorshipCutover (Store.legacy false (.uniform 1) legacyRow legacyFacts)).2 =
      .ok [⟨"old", 2, 0, some 20, some 0⟩] := by rfl
  rw [hlowered, Except.ok.injEq] at hafter
  obtain ⟨r, hr, -, hbelow⟩ := hall _ (List.mem_singleton_self _)
  rw [← hafter, List.mem_singleton] at hr
  rw [hr] at hbelow
  exact absurd hbelow.pow (by decide)

end Dashboard

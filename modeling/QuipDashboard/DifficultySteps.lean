/-
The served difficulty as a step function.

`insert_difficulty_snapshot` records a poll only when it differs from the latest polled row,
while the served table also holds the rows of block commits, which come between the polls and
take precedence at their heights.

* `Serves` — the value in effect at the time of a poll is the polled one;
* `Settles` — the poll differs from the latest polled row, or the newest served row agrees with
  that row;
* `served_difficulty_iff` — **in every run whose polls advance and whose block rows are not later
  than the newest poll, a call serves its poll exactly when it settles**;
* `skipped_poll_not_served` — a poll that is skipped behind a block row is not served.
-/
import QuipDashboard.PolledDifficulty

namespace Dashboard

/-! ### The value in effect -/

/-- A newest row: `ORDER BY observed_at DESC LIMIT 1` may return any of them. -/
def Newest (rows : List DifficultyRecord) (r : DifficultyRecord) : Prop :=
  r ∈ rows ∧ ∀ r' ∈ rows, r.observedAt.before r'.observedAt = false

/-- The rows of the served table. -/
def Store.servedRows (s : Store) : List DifficultyRecord := s.difficultyHistory.rows.map Prod.snd

/-- The served rows at or before a time. -/
def Store.servedUpTo (s : Store) (at_ : Timestamp) : List DifficultyRecord :=
  s.servedRows.filter fun r => !at_.before r.observedAt

/-- **The value in effect at the time of a poll is the polled one.** -/
def Serves (s : Store) (d : DifficultyRecord) : Prop :=
  (∃ r, Newest (s.servedUpTo d.observedAt) r) ∧
    ∀ r, Newest (s.servedUpTo d.observedAt) r → samePollValue r d = true

/-- A poll differs from the latest polled row, or the newest served row agrees with that row. -/
def Settles (s : Store) (d : DifficultyRecord) : Prop :=
  ∀ p ∈ latestPoll s, samePollValue p d = true →
    ∀ r, Newest s.servedRows r → samePollValue r p = true

theorem mem_servedRows {s : Store} {r : DifficultyRecord} :
    r ∈ s.servedRows ↔ ∃ k, s.difficultyHistory.get? k = some r := by
  constructor
  · intro h
    obtain ⟨⟨k, row⟩, hmem, rfl⟩ := List.mem_map.mp h
    exact ⟨k, KeyedTable.get?_eq_some.mpr hmem⟩
  · rintro ⟨k, h⟩
    exact List.mem_map.mpr ⟨(k, r), KeyedTable.get?_eq_some.mp h, rfl⟩

/-- Rows with the same bytes of their topology are interchangeable. -/
theorem sameHash?_congr {a b : Option BlockHash} (h : sameHash? a b = true) (c : Option BlockHash) :
    sameHash? c a = sameHash? c b := by
  cases a with
  | none =>
    cases b with
    | none => rfl
    | some b => cases h
  | some a =>
    cases b with
    | none => cases h
    | some b =>
      have hbytes : a.bytes = b.bytes := by simpa [sameHash?, BlockHash.sameBytes] using h
      cases c with
      | none => rfl
      | some c => simp [sameHash?, BlockHash.sameBytes, hbytes]

theorem samePollValue_congr {p d : DifficultyRecord} (h : samePollValue p d = true)
    (r : DifficultyRecord) : samePollValue r p = samePollValue r d := by
  simp only [samePollValue, Bool.and_eq_true, decide_eq_true_eq] at h
  obtain ⟨⟨⟨he, hd⟩, hs⟩, ht⟩ := h
  rw [samePollValue, samePollValue, he, hd, hs, sameHash?_congr ht]

/-! ### Times -/

/-- Two readable times in order. -/
def NotAfter (a b : Timestamp) : Prop := ∃ x y, a = .utc x ∧ b = .utc y ∧ x ≤ y

theorem NotAfter.before_false {a b : Timestamp} (h : NotAfter a b) : b.before a = false := by
  obtain ⟨x, y, rfl, rfl, hxy⟩ := h
  exact decide_eq_false (not_lt.mpr hxy)

theorem notAfter_of_canonical {a b : Timestamp} (ha : canonicalTimestamp a = .ok a)
    (hb : canonicalTimestamp b = .ok b) (h : b.before a = false) : NotAfter a b := by
  cases a with
  | malformed m => cases ha
  | utc x =>
    cases b with
    | malformed m => cases hb
    | utc y => exact ⟨x, y, rfl, rfl, not_lt.mp (of_decide_eq_false h)⟩

theorem NotAfter.trans_before {a b c : Timestamp} (h : NotAfter a b) (hbc : b.before c = true) :
    a.before c = true ∧ NotAfter a c := by
  obtain ⟨x, y, rfl, rfl, hxy⟩ := h
  cases c with
  | malformed m => cases hbc
  | utc z =>
    have hyz : y < z := of_decide_eq_true hbc
    exact ⟨decide_eq_true (lt_of_le_of_lt hxy hyz), x, z, rfl, rfl, by omega⟩

/-- Readable rows have a newest one. -/
theorem exists_newest {rows : List DifficultyRecord} (hne : rows ≠ [])
    (hread : ∀ r ∈ rows, ∃ x, r.observedAt = .utc x) : ∃ r, Newest rows r := by
  induction rows with
  | nil => exact absurd rfl hne
  | cons a rows ih =>
    obtain ⟨x, hx⟩ := hread a List.mem_cons_self
    by_cases hrows : rows = []
    · refine ⟨a, List.mem_cons_self, fun r' hr' => ?_⟩
      rw [hrows, List.mem_singleton] at hr'
      rw [hr', hx]
      exact decide_eq_false (lt_irrefl x)
    · obtain ⟨r, hr, hmax⟩ := ih hrows fun r hr => hread r (List.mem_cons_of_mem a hr)
      obtain ⟨y, hy⟩ := hread r (List.mem_cons_of_mem a hr)
      by_cases hxy : y < x
      · refine ⟨a, List.mem_cons_self, fun r' hr' => ?_⟩
        obtain ⟨z, hz⟩ := hread r' hr'
        rw [hx, hz]
        refine decide_eq_false (not_lt.mpr ?_)
        rcases List.mem_cons.mp hr' with rfl | hr'
        · rw [hx] at hz
          cases hz
          exact le_rfl
        · have hzy := hmax r' hr'
          rw [hy, hz] at hzy
          have hzy : ¬y < z := of_decide_eq_false hzy
          omega
      · refine ⟨r, List.mem_cons_of_mem a hr, fun r' hr' => ?_⟩
        rcases List.mem_cons.mp hr' with rfl | hr'
        · rw [hy, hx]
          exact decide_eq_false hxy
        · exact hmax r' hr'

/-! ### Runs whose polls advance -/

/-- The poll of the last call of `insert_difficulty_snapshot`; the calls are latest first. -/
def newestPoll : List Call → Option DifficultyRecord
  | [] => none
  | c :: cs =>
    match c.op with
    | .insertDifficultySnapshot d => some d
    | _ => newestPoll cs

/-- Polls are at later heights and times than the newest poll before them, and block commits write
difficulty rows that are not later than it; nothing reindexes difficulty. -/
def Call.disciplined (last : Option DifficultyRecord) (c : Call) : Prop :=
  match c.op with
  | .insertDifficultySnapshot d =>
    d.source = .poll ∧ canonicalTimestamp d.observedAt = .ok d.observedAt ∧
      ∀ p ∈ last, p.observedAtBlock < d.observedAtBlock ∧ p.observedAt.before d.observedAt = true
  | .commitBlock b => ∀ r ∈ b.records.difficulty,
    ∃ p ∈ last, r.observedAtBlock ≤ p.observedAtBlock ∧ p.observedAt.before r.observedAt = false
  | .reindex is => .difficulty ∉ is
  | _ => True

/-- Every call of a run is disciplined. -/
def Disciplined : List Call → Prop
  | [] => True
  | c :: cs => c.disciplined (newestPoll cs) ∧ Disciplined cs

theorem newestPoll_canonical {cs : List Call} (h : Disciplined cs) {p : DifficultyRecord}
    (hp : p ∈ newestPoll cs) : canonicalTimestamp p.observedAt = .ok p.observedAt := by
  induction cs with
  | nil => cases hp
  | cons c cs ih =>
    obtain ⟨hc, hcs⟩ := h
    rw [newestPoll] at hp
    rw [Call.disciplined] at hc
    split at hp
    · rename_i d hop
      rw [hop] at hc
      cases hp
      exact hc.2.1
    · exact ih hcs hp

/-- The served rows stand at their heights, and none is later than the newest poll. -/
def Behind (last : Option DifficultyRecord) (s : Store) : Prop :=
  ∀ k r, s.difficultyHistory.get? k = some r → r.observedAtBlock = k ∧
    ∃ p ∈ last, k ≤ p.observedAtBlock ∧ NotAfter r.observedAt p.observedAt

/-- A block row takes the place of its height. -/
theorem WritesDifficulty.get? {d : DifficultyRecord} {t t' : KeyedTable ℕ DifficultyRecord} {n : ℕ}
    (h : WritesDifficulty d t n t') {k : ℕ} {r : DifficultyRecord} (hr : t'.get? k = some r) :
    t.get? k = some r ∨
      k = d.observedAtBlock ∧ r.observedAtBlock = k ∧ r.observedAt = d.observedAt := by
  cases h with
  | known => exact .inl hr
  | enriched existing =>
    rw [KeyedTable.get?_put] at hr
    split at hr
    · rename_i hk
      cases hr
      exact .inr ⟨hk, hk.symm, rfl⟩
    · exact .inl hr
  | fresh =>
    rw [KeyedTable.get?_put] at hr
    split at hr
    · rename_i hk
      cases hr
      exact .inr ⟨hk, hk.symm, rfl⟩
    · exact .inl hr

/-- An accepted poll fills its height. -/
theorem Behind.poll {last : Option DifficultyRecord} {s : Store} {d : DifficultyRecord}
    (h : Behind last s) (htime : canonicalTimestamp d.observedAt = .ok d.observedAt)
    (hlater : ∀ p ∈ last, p.observedAtBlock < d.observedAtBlock ∧
      p.observedAt.before d.observedAt = true) :
    Behind (some d) s ∧ Behind (some d) (s.poll d) := by
  have hold : Behind (some d) s := by
    intro k r hr
    obtain ⟨hk, p, hp, hle, hafter⟩ := h k r hr
    obtain ⟨hheight, hbefore⟩ := hlater p hp
    exact ⟨hk, d, rfl, by omega, (hafter.trans_before hbefore).2⟩
  refine ⟨hold, fun k r hr => ?_⟩
  rcases KeyedTable.get?_of_insertNew hr with hr | ⟨rfl, -, rfl⟩
  · exact hold k r hr
  · refine ⟨rfl, r, rfl, le_rfl, ?_⟩
    cases ht : r.observedAt with
    | malformed m =>
      rw [ht] at htime
      cases htime
    | utc x => exact ⟨x, x, rfl, rfl, le_rfl⟩

/-- **Every disciplined call keeps the served rows behind the newest poll.** -/
theorem Calls.behind {cs : List Call} {s s' : Store} {c : Call} (h : Calls s c s')
    (hcs : Disciplined (c :: cs)) (hs : Behind (newestPoll cs) s) :
    Behind (newestPoll (c :: cs)) s' := by
  obtain ⟨hc, hcs⟩ := hcs
  cases h with
  | call now op s =>
  have he := apply_effect now op s
  cases op with
  | insertDifficultySnapshot d =>
    obtain ⟨-, htime, hlater⟩ := hc
    obtain ⟨hold, hnew⟩ := hs.poll htime hlater
    show Behind (some d) (insertDifficultySnapshot d s).2
    rw [insertDifficultySnapshot_eq]
    split
    · exact hnew
    · exact hold
  | commitBlock b =>
    rcases commitBlock_cases (show commitBlock now b s = _ from rfl) with ⟨hsame, -⟩ | ⟨r, -, h⟩
    · have hsame : (commitBlock now b s).2 = s := hsame
      show Behind (newestPoll cs) (commitBlock now b s).2
      rw [hsame]
      exact hs
    · intro k r hr
      cases hd : b.records.difficulty with
      | none => exact hs k r (h.difficulty_none hd ▸ hr)
      | some d =>
        obtain ⟨htime, n, hw⟩ := h.difficulty_some d hd
        rcases hw.get? hr with hr | ⟨rfl, hk, hrt⟩
        · exact hs k r hr
        -- a block comes before the newest poll, and so does its row
        · obtain ⟨p, hp, hle, hbefore⟩ := hc d hd
          refine ⟨hk, p, hp, hle, ?_⟩
          rw [hrt]
          exact notAfter_of_canonical htime (newestPoll_canonical hcs hp) hbefore
  | reindex is =>
    obtain ⟨q, hq⟩ : ∃ q, reindex is s = q := ⟨_, rfl⟩
    show Behind (newestPoll cs) (reindex is s).2
    rw [hq]
    obtain ⟨e | gs, s₁⟩ := q
    · rw [reindex_error hq]
      exact hs
    · have hrows := (reindex_rows hq).difficulty
      rw [if_neg (mt mem_reindexed.mp hc)] at hrows
      intro k r hr
      exact hs k r (hrows ▸ hr)
  | beginScan | appendScanPage | commitRange | markUnavailable | setFinalizedTarget
  | setPrunedFloor | initializeCoverage | tryAuthorshipCutover | recomputeAuthorshipSummary =>
    have hsame := he.sameDifficulty (fun _ h => by cases h) (fun _ h => by cases h)
      (fun _ h => by cases h)
    intro k r hr
    exact hs k r (hsame.1 ▸ hr)

theorem StoreRun.behind {pg : Bool} {genesis : BlockHash} {cs : List Call} {s : Store}
    (h : StoreRun pg genesis cs s) (hcs : Disciplined cs) : Behind (newestPoll cs) s := by
  induction h with
  | nil => exact fun k r hr => by cases hr
  | snoc _ hstep ih => exact hstep.behind hcs (ih hcs.2)

/-! ### One call -/

theorem firstPoll_canonical {height : ℕ} {cs : List Call} {d : DifficultyRecord}
    (h : firstPoll height cs = some d) : canonicalTimestamp d.observedAt = .ok d.observedAt := by
  induction cs with
  | nil => cases h
  | cons c cs ih =>
    rcases Option.or_eq_some_iff.mp h with h | ⟨-, h⟩
    · exact ih h
    · unfold Call.acceptedPoll at h
      split at h
      · split at h
        · rename_i hd
          cases h
          exact hd.1.2.2.2
        · cases h
      · cases h

/-- The latest polled row is one of the second table. -/
theorem latestPoll_mem {s : Store} {p : DifficultyRecord} (h : latestPoll s = some p) :
    ∃ k, s.pollDifficulty.get? k = some p := by
  have hmem : ∀ (l : List DifficultyRecord) (best : Option DifficultyRecord),
      l.foldl (fun best row =>
        if best.all (·.observedAt.before row.observedAt) then some row else best) best = some p →
      best = some p ∨ p ∈ l := by
    intro l
    induction l with
    | nil => exact fun best h => .inl h
    | cons a l ih =>
      intro best h
      rcases ih _ h with hbest | hl
      · dsimp only at hbest
        split at hbest
        · cases hbest
          exact .inr List.mem_cons_self
        · exact .inl hbest
      · exact .inr (List.mem_cons_of_mem a hl)
  rcases hmem _ none h with hnone | hp
  · cases hnone
  · obtain ⟨⟨k, row⟩, hrow, rfl⟩ := List.mem_map.mp hp
    exact ⟨k, KeyedTable.get?_eq_some.mpr hrow⟩

/-- A poll that differs from the latest polled row is accepted, one that does not is skipped. -/
theorem acceptsPoll_iff {cs : List Call} {s : Store} {d : DifficultyRecord} (hs : Polled cs s)
    (hbound : s.genesis.isSome) (hsource : d.source = .poll)
    (htime : canonicalTimestamp d.observedAt = .ok d.observedAt) :
    acceptsPoll d s ↔ ∀ p ∈ latestPoll s, samePollValue p d = false := by
  have hunchanged : pollUnchanged d s = .ok false ↔
      ∀ p ∈ latestPoll s, samePollValue p d = false := by
    cases hl : latestPoll s with
    | none => simp [pollUnchanged, hl]
    | some p =>
      obtain ⟨k, hk⟩ := latestPoll_mem hl
      rw [hs.polls] at hk
      have hdecode : decodeDifficulty p = .ok p := by
        rw [decodeDifficulty, firstPoll_canonical hk]
        rfl
      simp [pollUnchanged, hl, hdecode, Except.map]
  rw [acceptsPoll, hunchanged]
  exact ⟨fun h => h.2.2.1, fun h => ⟨hsource, hbound, h, htime⟩⟩

/-- An accepted poll becomes the newest served row. -/
theorem Behind.serves_poll {last : Option DifficultyRecord} {s : Store} {d : DifficultyRecord}
    (h : Behind last s) (htime : canonicalTimestamp d.observedAt = .ok d.observedAt)
    (hlater : ∀ p ∈ last, p.observedAtBlock < d.observedAtBlock ∧
      p.observedAt.before d.observedAt = true) : Serves (s.poll d) d := by
  have hfresh : s.difficultyHistory.get? d.observedAtBlock = none := by
    cases hget : s.difficultyHistory.get? d.observedAtBlock with
    | none => rfl
    | some r =>
      obtain ⟨-, p, hp, hle, -⟩ := h _ r hget
      have := (hlater p hp).1
      omega
  have hself : d.observedAt.before d.observedAt = false := by
    cases ht : d.observedAt with
    | malformed m => rfl
    | utc x => exact decide_eq_false (lt_irrefl x)
  have hmem : d ∈ (s.poll d).servedUpTo d.observedAt := by
    refine List.mem_filter.mpr ⟨mem_servedRows.mpr ⟨d.observedAtBlock, ?_⟩, by rw [hself]; rfl⟩
    show (s.difficultyHistory.insertNew d.observedAtBlock d).get? d.observedAtBlock = some d
    rw [KeyedTable.get?_insertNew, if_pos rfl, hfresh]
    rfl
  -- the other rows are older
  have hold : ∀ r ∈ (s.poll d).servedUpTo d.observedAt,
      r = d ∨ r.observedAt.before d.observedAt = true ∧ d.observedAt.before r.observedAt = false := by
    intro r hr
    obtain ⟨k, hk⟩ := mem_servedRows.mp (List.mem_of_mem_filter hr)
    rcases KeyedTable.get?_of_insertNew hk with hk | ⟨-, -, rfl⟩
    · obtain ⟨-, p, hp, -, hafter⟩ := h k r hk
      obtain ⟨hbefore, hafter⟩ := hafter.trans_before (hlater p hp).2
      exact .inr ⟨hbefore, hafter.before_false⟩
    · exact .inl rfl
  refine ⟨⟨d, hmem, fun r hr => ?_⟩, fun r hr => ?_⟩
  · rcases hold r hr with rfl | ⟨-, hbefore⟩
    · exact hself
    · exact hbefore
  · rcases hold r hr.1 with rfl | ⟨hbefore, -⟩
    · simp [samePollValue]
    · rw [hr.2 d hmem] at hbefore
      cases hbefore

/-- A skipped poll is served when the newest served row agrees with the latest polled one. -/
theorem Behind.serves_skipped {cs : List Call} {last : Option DifficultyRecord} {s : Store}
    {d p : DifficultyRecord} (h : Behind last s) (hs : Polled cs s)
    (hlater : ∀ p ∈ last, p.observedAtBlock < d.observedAtBlock ∧
      p.observedAt.before d.observedAt = true)
    (hp : latestPoll s = some p) (hsame : samePollValue p d = true) :
    Serves s d ↔ ∀ r, Newest s.servedRows r → samePollValue r p = true := by
  have hread : ∀ r ∈ s.servedRows, NotAfter r.observedAt d.observedAt := by
    intro r hr
    obtain ⟨k, hk⟩ := mem_servedRows.mp hr
    obtain ⟨-, q, hq, -, hafter⟩ := h k r hk
    exact (hafter.trans_before (hlater q hq).2).2
  have hall : s.servedUpTo d.observedAt = s.servedRows := by
    refine List.filter_eq_self.mpr fun r hr => ?_
    rw [(hread r hr).before_false]
    rfl
  have hne : s.servedRows ≠ [] := by
    obtain ⟨k, hk⟩ := latestPoll_mem hp
    obtain ⟨r, hr⟩ := Option.isSome_iff_exists.mp (hs.filled k (by rw [hk]; rfl))
    exact List.ne_nil_of_mem (mem_servedRows.mpr ⟨k, hr⟩)
  have hnewest : ∃ r, Newest s.servedRows r := by
    refine exists_newest hne fun r hr => ?_
    obtain ⟨x, -, hx, -⟩ := hread r hr
    exact ⟨x, hx⟩
  rw [Serves, hall]
  constructor
  · intro hserves r hr
    rw [samePollValue_congr hsame]
    exact hserves.2 r hr
  · intro hagree
    refine ⟨hnewest, fun r hr => ?_⟩
    rw [← samePollValue_congr hsame]
    exact hagree r hr

/-- **One call serves its poll exactly when it settles.** -/
theorem serves_iff_settles {cs : List Call} {s : Store} {d : DifficultyRecord}
    (hs : Polled cs s) (hbound : s.genesis.isSome) (hbehind : Behind (newestPoll cs) s)
    (hsource : d.source = .poll) (htime : canonicalTimestamp d.observedAt = .ok d.observedAt)
    (hlater : ∀ p ∈ newestPoll cs, p.observedAtBlock < d.observedAtBlock ∧
      p.observedAt.before d.observedAt = true) :
    Serves (insertDifficultySnapshot d s).2 d ↔ Settles s d := by
  rw [insertDifficultySnapshot_eq]
  by_cases ha : acceptsPoll d s
  · rw [if_pos ha]
    have hdiffers := (acceptsPoll_iff hs hbound hsource htime).mp ha
    refine iff_of_true (hbehind.serves_poll htime hlater) fun p hp hsame => ?_
    rw [hdiffers p hp] at hsame
    cases hsame
  · rw [if_neg ha]
    have hskipped := mt (acceptsPoll_iff hs hbound hsource htime).mpr ha
    simp only [not_forall, Bool.not_eq_false] at hskipped
    obtain ⟨p, hp, hsame⟩ := hskipped
    rw [hbehind.serves_skipped hs hlater hp hsame]
    constructor
    · intro hagree q hq _
      obtain rfl : p = q := Option.some.inj (hp.symm.trans hq)
      exact hagree
    · exact fun hsettles => hsettles p hp hsame

/-! ### Every call of a run -/

/-- **In every run whose polls advance and whose block rows are not later than the newest poll,
a call of `insert_difficulty_snapshot` leaves its poll in effect exactly when it settles.** -/
theorem served_difficulty_iff {pg : Bool} {genesis : BlockHash} {cs : List Call} {s : Store}
    (h : StoreRun pg genesis cs s) (hcs : Disciplined cs) :
    ∀ c ∈ cs, ∀ d, c.op = .insertDifficultySnapshot d → (Serves c.post d ↔ Settles c.pre d) := by
  induction h with
  | nil => exact fun c hc => by cases hc
  | @snoc cs s s' c hrun hstep ih =>
    intro c' hc' d hop
    rcases List.mem_cons.mp hc' with rfl | hc'
    · cases hstep with
      | call now op s =>
      cases hop
      obtain ⟨⟨hsource, htime, hlater⟩, hcs⟩ := hcs
      have hrun : StoreRun pg genesis cs s := hrun
      exact serves_iff_settles hrun.polled (by rw [hrun.genesis]; rfl) (hrun.behind hcs) hsource
        htime hlater
    · exact ih hcs.2 c' hc' d hop

/-- A poll one block after height 5. -/
def pollAt6 (energy : ℚ) : DifficultyRecord :=
  { difficultyAt5 .poll energy with observedAtBlock := 6, observedAt := .utc 2000 }

/-- The store after a poll of height 5 and the commit of a block row of another value. -/
def overwrittenAt5 : Store :=
  ((Op.commitBlock difficultyCommit).apply (.utc 0)
    ((Op.insertDifficultySnapshot (difficultyAt5 .poll (-2))).apply (.utc 0)
      (Store.bound false (.uniform 1))).2).2

/-- A poll, the block row that takes its place, and a poll of the next height. -/
theorem overwritten_run (energy : ℚ) : ∃ cs s,
    StoreRun false (.uniform 1)
      (⟨.utc 0, .insertDifficultySnapshot (pollAt6 energy), overwrittenAt5,
        (insertDifficultySnapshot (pollAt6 energy) overwrittenAt5).1, s⟩ :: cs) s ∧
    Disciplined (⟨.utc 0, .insertDifficultySnapshot (pollAt6 energy), overwrittenAt5,
        (insertDifficultySnapshot (pollAt6 energy) overwrittenAt5).1, s⟩ :: cs) ∧
    s = (insertDifficultySnapshot (pollAt6 energy) overwrittenAt5).2 := by
  have run : StoreRun false (.uniform 1) _ _ :=
    .snoc (.snoc (.snoc .nil (.call (.utc 0) (.insertDifficultySnapshot (difficultyAt5 .poll (-2))) _))
      (.call (.utc 0) (.commitBlock difficultyCommit) _))
      (.call (.utc 0) (.insertDifficultySnapshot (pollAt6 energy)) _)
  refine ⟨_, _, run, ⟨⟨rfl, rfl, ?_⟩, ?_, ⟨rfl, rfl, fun p hp => by cases hp⟩, trivial⟩, rfl⟩
  · rintro p ⟨rfl⟩
    exact ⟨Nat.lt_succ_self 5, rfl⟩
  · rintro r ⟨rfl⟩
    exact ⟨_, rfl, by decide, by decide⟩

/-- A poll of a new value is served behind a block row. -/
theorem served_difficulty_iff_changed : ∃ cs s,
    StoreRun false (.uniform 1) cs s ∧ Disciplined cs ∧ Serves s (pollAt6 (-4)) := by
  obtain ⟨cs, s, run, hcs, rfl⟩ := overwritten_run (-4)
  have hsettles : Settles overwrittenAt5 (pollAt6 (-4)) := by
    intro p hp hsame
    have hlatest : latestPoll overwrittenAt5 = some (difficultyAt5 .poll (-2)) := by
      decide +kernel
    obtain rfl : difficultyAt5 .poll (-2) = p := Option.some.inj (hlatest.symm.trans hp)
    exact absurd hsame (by decide +kernel)
  exact ⟨_, _, run, hcs,
    (served_difficulty_iff run hcs _ List.mem_cons_self (pollAt6 (-4)) rfl).mpr hsettles⟩

/-- **A skipped poll that is not served**: the block row has taken the place of the only polled
row, the same value is polled again and skipped, and the value of the block stays in effect. -/
theorem skipped_poll_not_served : ∃ cs s,
    StoreRun false (.uniform 1) cs s ∧ Disciplined cs ∧
    (∃ c ∈ cs, c.op = .insertDifficultySnapshot (pollAt6 (-2)) ∧ c.outcome = .ok .applied ∧
      c.post = s) ∧
    Newest (s.servedUpTo (.utc 2000)) (difficultyAt5 .block (-3)) ∧ ¬Serves s (pollAt6 (-2)) := by
  obtain ⟨cs, s, run, hcs, rfl⟩ := overwritten_run (-2)
  have hnewest : Newest ((insertDifficultySnapshot (pollAt6 (-2)) overwrittenAt5).2.servedUpTo
      (.utc 2000)) (difficultyAt5 .block (-3)) := ⟨by decide +kernel, by decide +kernel⟩
  refine ⟨_, _, run, hcs, ⟨_, List.mem_cons_self, rfl, by decide +kernel, rfl⟩, hnewest,
    fun hserves => ?_⟩
  have hsame := hserves.2 _ hnewest
  exact absurd hsame (by decide +kernel)

end Dashboard

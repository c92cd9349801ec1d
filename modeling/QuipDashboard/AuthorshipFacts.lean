/-
The facts of one validator and the row they are aggregated to.

* `freshRow_ok` — the fresh row is the number of facts, of winners among them, and the
  greatest height;
* `freshRow_putAuthorship`, `freshRow_first` — the row after one more fact and after the
  first one;
* `get?_recomputed` — recomputing stores the fresh row of every validator with a fact, and
  no other row.
-/
import QuipDashboard.ServedAuthorship

namespace Dashboard

/-! ### The facts of one validator -/

/-- The facts of a validator. -/
def factsOf (facts : List ((String × ℕ) × AuthorshipFact)) (v : String) :
    List ((String × ℕ) × AuthorshipFact) :=
  facts.filter (·.1.1 = v)

/-- The greatest height of some facts. -/
def lastOf (group : List ((String × ℕ) × AuthorshipFact)) : ℕ := (group.map (·.1.2)).foldl max 0

theorem lastOf_isLUB (group : List ((String × ℕ) × AuthorshipFact)) (n : ℕ) :
    lastOf group ≤ n ↔ ∀ e ∈ group, e.1.2 ≤ n := by
  have key : ∀ (l : List ℕ) (a : ℕ), l.foldl max a ≤ n ↔ a ≤ n ∧ ∀ k ∈ l, k ≤ n := by
    intro l
    induction l with
    | nil => simp
    | cons b l ih =>
      intro a
      rw [List.foldl_cons, ih, max_le_iff, List.forall_mem_cons, and_assoc]
  rw [lastOf, key, List.forall_mem_map]
  simp only [Nat.zero_le, true_and]

/-- The row of a validator is the aggregate of its facts. -/
theorem freshRow_ok {pg : Bool} {facts : List ((String × ℕ) × AuthorshipFact)} {v : String}
    {r : ValidatorAuthorshipRecord} :
    freshRow pg facts v = .ok r ↔ (pg = true ∨ lastOf (factsOf facts v) ≠ 0) ∧
      r = { accountId := v
            blocksAuthored := (factsOf facts v).length
            blocksAuthoredWithPow := (factsOf facts v).countP (·.2.hadWinner)
            lastAuthoredBlock := some (lastOf (factsOf facts v))
            lastAuthoredAt := ((factsOf facts v).map (·.2.timestamp)).max? } := by
  have h : freshRow pg facts v = if !pg && lastOf (factsOf facts v) = 0
      then .error (.json "decimal string is empty")
      else .ok
        { accountId := v
          blocksAuthored := (factsOf facts v).length
          blocksAuthoredWithPow := (factsOf facts v).countP (·.2.hadWinner)
          lastAuthoredBlock := some (lastOf (factsOf facts v))
          lastAuthoredAt := ((factsOf facts v).map (·.2.timestamp)).max? } := rfl
  rw [h]
  cases pg <;> by_cases hl : lastOf (factsOf facts v) = 0 <;> simp [hl, eq_comm]

theorem freshRow_congr {pg : Bool} {facts facts' : List ((String × ℕ) × AuthorshipFact)} {v : String}
    (h : factsOf facts v = factsOf facts' v) : freshRow pg facts v = freshRow pg facts' v := by
  unfold factsOf at h
  unfold freshRow
  rw [h]

theorem Store.mem_authors {s : Store} {v : String} :
    v ∈ s.authors ↔ factsOf s.authorshipBlocks.rows v ≠ [] := by
  rw [Store.authors, List.mem_dedup, factsOf, ne_eq, List.filter_eq_nil_iff, List.mem_map]
  simp

theorem Store.mem_authors_of_get? {s : Store} {v : String} {n : ℕ} {fact : AuthorshipFact}
    (h : s.authorshipBlocks.get? (v, n) = some fact) : v ∈ s.authors := by
  rw [Store.mem_authors]
  refine List.ne_nil_of_mem (a := ((v, n), fact)) (List.mem_filter.mpr ⟨?_, by simp⟩)
  exact KeyedTable.get?_eq_some.mp h

section PutAuthorship

variable {t : KeyedTable (String × ℕ) AuthorshipFact} {a : AuthorshipRecord} {τ : ℤ}

/-- Storing a fact keeps the facts of the other validators. -/
theorem factsOf_putAuthorship_ne {v : String} (hv : v ≠ a.accountId) :
    factsOf (putAuthorship t a τ).2.rows v = factsOf t.rows v := by
  have hput : ∀ fact, factsOf (t.put (a.accountId, a.blockNumber) fact).rows v =
      factsOf t.rows v := by
    intro fact
    rw [KeyedTable.put_rows, factsOf, factsOf]
    split
    · rw [KeyedTable.replaceRow, List.filter_map]
      have hkeys : (fun e : (String × ℕ) × AuthorshipFact => decide (e.1.1 = v)) ∘
          (fun e => if e.1 = (a.accountId, a.blockNumber) then
            ((a.accountId, a.blockNumber), fact) else e) = fun e => decide (e.1.1 = v) := by
        funext e
        by_cases he : e.1 = (a.accountId, a.blockNumber) <;> simp [he]
      rw [hkeys]
      refine (List.map_congr_left fun e he => ?_).trans (List.map_id _)
      have hev : e.1.1 = v := by simpa using (List.mem_filter.mp he).2
      exact if_neg fun h => hv (by rw [← hev, h])
    · simp [Ne.symm hv]
  unfold putAuthorship KeyedTable.upsert
  dsimp only
  cases t.get? (a.accountId, a.blockNumber) with
  | none => exact hput _
  | some old =>
    by_cases hc : old.hadWinner = false ∧ a.hadWinner = true
    · simpa only [if_pos hc] using hput _
    · simp only [if_neg hc]

/-- Storing a fact leaves its validator the facts that it had, perhaps with a winner, and
at most one more. -/
theorem factsOf_putAuthorship :
    ∃ (g : (String × ℕ) × AuthorshipFact → (String × ℕ) × AuthorshipFact)
      (tail : List ((String × ℕ) × AuthorshipFact)),
      (∀ e, (g e).1 = e.1 ∧ (e.2.hadWinner = true → (g e).2.hadWinner = true)) ∧
      (tail = [] ∨ tail = [((a.accountId, a.blockNumber), ⟨τ, a.hadWinner⟩)]) ∧
      factsOf (putAuthorship t a τ).2.rows a.accountId =
        (factsOf t.rows a.accountId).map g ++ tail := by
  unfold putAuthorship KeyedTable.upsert
  dsimp only
  cases hold : t.get? (a.accountId, a.blockNumber) with
  | none =>
    refine ⟨id, _, fun e => ⟨rfl, id⟩, .inr rfl, ?_⟩
    simp [KeyedTable.put_rows, hold, factsOf]
  | some old =>
    by_cases hc : old.hadWinner = false ∧ a.hadWinner = true
    · let g : (String × ℕ) × AuthorshipFact → (String × ℕ) × AuthorshipFact := fun e =>
        if e.1 = (a.accountId, a.blockNumber) then
          ((a.accountId, a.blockNumber), ⟨τ, a.hadWinner⟩) else e
      have hg : ∀ e, (g e).1 = e.1 ∧ (e.2.hadWinner = true → (g e).2.hadWinner = true) := by
        intro e
        by_cases he : e.1 = (a.accountId, a.blockNumber) <;> simp [g, he, hc.2]
      refine ⟨g, [], hg, .inl rfl, ?_⟩
      have hkeys : (fun e : (String × ℕ) × AuthorshipFact => decide (e.1.1 = a.accountId)) ∘ g =
          fun e => decide (e.1.1 = a.accountId) := by
        funext e
        simp [(hg e).1]
      simp only [if_pos hc, KeyedTable.put_rows, hold, Option.isSome_some, if_true, factsOf,
        KeyedTable.replaceRow, List.filter_map, List.append_nil]
      exact congrArg (fun p => List.map g (List.filter p t.rows)) hkeys
    · exact ⟨id, [], fun e => ⟨rfl, id⟩, .inl rfl, by simp [hc]⟩

end PutAuthorship

/-- A validator's fresh row says no less after one of its facts was stored. -/
theorem freshRow_putAuthorship {pg : Bool} {t : KeyedTable (String × ℕ) AuthorshipFact}
    {a : AuthorshipRecord} {τ : ℤ} {r : ValidatorAuthorshipRecord}
    (h : freshRow pg t.rows a.accountId = .ok r) :
    ∃ r', freshRow pg (putAuthorship t a τ).2.rows a.accountId = .ok r' ∧ Below r r' ∧
      (Readable r → a.blockNumber ≤ u64Max → Readable r') := by
  obtain ⟨g, tail, hg, htail, hfacts⟩ := factsOf_putAuthorship (t := t) (a := a) (τ := τ)
  obtain ⟨hok, rfl⟩ := freshRow_ok.mp h
  have hlast : lastOf (factsOf t.rows a.accountId) ≤
      lastOf (factsOf (putAuthorship t a τ).2.rows a.accountId) := by
    refine (lastOf_isLUB _ _).mpr fun e he => ?_
    have hmem : g e ∈ factsOf (putAuthorship t a τ).2.rows a.accountId := by
      rw [hfacts]
      exact List.mem_append_left _ (List.mem_map_of_mem he)
    rw [← (hg e).1]
    exact (lastOf_isLUB _ _).mp le_rfl _ hmem
  refine ⟨_, freshRow_ok.mpr ⟨hok.imp_right ?_, rfl⟩, ⟨?_, ?_, ?_⟩, ?_⟩
  · omega
  · show (factsOf t.rows a.accountId).length ≤ (factsOf _ a.accountId).length
    rw [hfacts, List.length_append, List.length_map]
    exact Nat.le_add_right _ _
  · show (factsOf t.rows a.accountId).countP _ ≤ (factsOf _ a.accountId).countP _
    rw [hfacts, List.countP_append, List.countP_map]
    exact (List.countP_mono_left fun e _ h => (hg e).2 h).trans (Nat.le_add_right _ _)
  · rintro _ ⟨rfl⟩
    exact ⟨_, rfl, hlast⟩
  · rintro hread ha _ ⟨rfl⟩
    refine (lastOf_isLUB _ _).mpr fun e he => ?_
    rw [hfacts] at he
    rcases List.mem_append.mp he with he | he
    · obtain ⟨e', he', rfl⟩ := List.mem_map.mp he
      rw [(hg e').1]
      exact ((lastOf_isLUB _ _).mp le_rfl e' he').trans (hread _ rfl)
    · rcases htail with rfl | rfl
      · cases he
      · rw [List.mem_singleton.mp he]
        exact ha

/-- The row of a validator after its first fact. -/
theorem freshRow_first {pg : Bool} {t : KeyedTable (String × ℕ) AuthorshipFact}
    {a : AuthorshipRecord} {τ : ℤ} (hnone : factsOf t.rows a.accountId = [])
    {r : ValidatorAuthorshipRecord} :
    freshRow pg (putAuthorship t a τ).2.rows a.accountId = .ok r ↔
      (pg = true ∨ a.blockNumber ≠ 0) ∧
      r = { accountId := a.accountId
            blocksAuthored := 1
            blocksAuthoredWithPow := if a.hadWinner then 1 else 0
            lastAuthoredBlock := some a.blockNumber
            lastAuthoredAt := some τ } := by
  have hkey : t.get? (a.accountId, a.blockNumber) = none := by
    refine KeyedTable.get?_eq_none.mpr fun f hf => ?_
    have hmem : ((a.accountId, a.blockNumber), f) ∈ factsOf t.rows a.accountId :=
      List.mem_filter.mpr ⟨hf, by simp⟩
    rw [hnone] at hmem
    cases hmem
  have hfacts : factsOf (putAuthorship t a τ).2.rows a.accountId =
      [((a.accountId, a.blockNumber), ⟨τ, a.hadWinner⟩)] := by
    rw [putAuthorship, KeyedTable.upsert_of_none hkey, KeyedTable.put_rows, hkey]
    simp only [Option.isSome_none, Bool.false_eq_true, if_false, factsOf, List.filter_append]
    rw [show List.filter _ t.rows = [] from hnone]
    simp
  rw [freshRow_ok, hfacts]
  cases a.hadWinner <;> simp [lastOf]

/-! ### The aggregate after a recomputation -/

/-- Recomputing stores the fresh row of every validator with a fact, and no other row. -/
theorem get?_recomputed {s s' : Store} {items : List ValidatorAuthorshipRecord}
    (h : fresh s'.pg s'.authorshipBlocks = .ok items)
    (hrows : s'.validatorAuthorship =
      s.validatorAuthorship.putAll (items.map fun i => (i.accountId, i))) (v : String) :
    (v ∈ s'.authors → ∃ r, freshRow s'.pg s'.authorshipBlocks.rows v = .ok r ∧
      s'.validatorAuthorship.get? v = some r) ∧
    (v ∉ s'.authors → s'.validatorAuthorship.get? v = s.validatorAuthorship.get? v) := by
  obtain ⟨hto, hfrom⟩ := Except.mapM_mem h
  have hkeys : (items.map fun i => (i.accountId, i)).map Prod.fst =
      items.map ValidatorAuthorshipRecord.accountId := by
    rw [List.map_map]
    rfl
  rw [hrows]
  constructor
  · intro hv
    obtain ⟨r, hr, hrow⟩ := hto v hv
    refine ⟨r, hrow, KeyedTable.get?_putAll (by rw [hkeys]; exact fresh_nodup h) ?_⟩
    rw [← freshRow_account hrow]
    exact List.mem_map.mpr ⟨r, hr, rfl⟩
  · intro hv
    refine KeyedTable.get?_putAll_of_not_mem fun hmem => hv ?_
    rw [hkeys] at hmem
    obtain ⟨r, hr, rfl⟩ := List.mem_map.mp hmem
    obtain ⟨w, hw, hrow⟩ := hfrom r hr
    rw [freshRow_account hrow]
    exact hw

/-- Once recomputed, a validator with a fact has its fresh row. -/
theorem Recomputed.get? {s : Store} (h : Recomputed s) {v : String} (hv : v ∈ s.authors) :
    ∃ r, freshRow s.pg s.authorshipBlocks.rows v = .ok r ∧
      s.validatorAuthorship.get? v = some r := by
  obtain ⟨items, hfresh, hput⟩ := h
  exact (get?_recomputed hfresh hput.symm v).1 hv

end Dashboard

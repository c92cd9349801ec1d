/-
The attempt trail of a solution against the batch computation.

`AttemptTrail` in `quip-dashboard/src/miner/parse.rs` folds raw attempt rows one by
one and cuts its buffer to the newest 500 whenever it holds 1000.  The batch
computation takes all rows at once: all that parse in arrival order if they are at
most 500, and the last 500 of their stable sort by `(ts_ns, iter)` otherwise.

* `attemptBefore_trans`, `attemptBefore_total` — the sort keys are ordered;
* `Compacted.push` — one more attempt keeps the buffer the cut of a first part and
  all of the rest;
* `attemptTrail_eq_batch` — **the fold is the batch computation, and its buffer is
  bounded**.
-/
import QuipDashboard.AttemptsDecoder
import QuipDashboard.StableWindow

namespace Dashboard

open StableWindow

/-! ### The order of the sort keys -/

theorem attemptBefore_iff (a b : MiningAttempt) :
    attemptBefore a b = true ↔
      match attemptTsNs a, attemptTsNs b with
      | none, none => a.iter ≤ b.iter
      | none, some _ => True
      | some _, none => False
      | some t, some u => t < u ∨ t = u ∧ a.iter ≤ b.iter := by
  unfold attemptBefore
  cases attemptTsNs a <;> cases attemptTsNs b <;> simp

theorem attemptBefore_trans (a b c : MiningAttempt) (hab : attemptBefore a b = true)
    (hbc : attemptBefore b c = true) : attemptBefore a c = true := by
  rw [attemptBefore_iff] at hab hbc ⊢
  revert hab hbc
  cases attemptTsNs a <;> cases attemptTsNs b <;> cases attemptTsNs c <;> simp <;> omega

theorem attemptBefore_total (a b : MiningAttempt) :
    (attemptBefore a b || attemptBefore b a) = true := by
  rw [Bool.or_eq_true, attemptBefore_iff, attemptBefore_iff]
  cases attemptTsNs a <;> cases attemptTsNs b <;> simp <;> omega

/-! ### The buffer -/

theorem keepNewestAttempts_of_le {attempts : List MiningAttempt}
    (h : attempts.length ≤ attemptTrailLimit) : keepNewestAttempts attempts = attempts :=
  if_pos h

theorem keepNewestAttempts_of_gt {attempts : List MiningAttempt}
    (h : attemptTrailLimit < attempts.length) :
    keepNewestAttempts attempts = keepLast attemptBefore attemptTrailLimit attempts :=
  if_neg (by omega)

theorem keepNewestAttempts_length (attempts : List MiningAttempt) :
    (keepNewestAttempts attempts).length = min attempts.length attemptTrailLimit := by
  by_cases h : attempts.length ≤ attemptTrailLimit
  · rw [keepNewestAttempts_of_le h, Nat.min_eq_left h]
  · rw [keepNewestAttempts_of_gt (by omega), keepLast_length (by omega)]
    omega

/-- The cut of a first part and more attempts, cut again, is the cut of all. -/
theorem keepNewestAttempts_append {cut : List MiningAttempt}
    (h : attemptTrailLimit < cut.length) (rest : List MiningAttempt) :
    keepNewestAttempts (keepNewestAttempts cut ++ rest) = keepNewestAttempts (cut ++ rest) := by
  have hlen : (keepLast attemptBefore attemptTrailLimit cut).length = attemptTrailLimit :=
    keepLast_length (Nat.le_of_lt h)
  have hall : attemptTrailLimit < (cut ++ rest).length := by
    rw [List.length_append]
    omega
  rw [keepNewestAttempts_of_gt h, keepNewestAttempts_of_gt hall]
  rcases rest with _ | ⟨attempt, rest⟩
  · rw [List.append_nil, List.append_nil, keepNewestAttempts_of_le (by omega)]
  · rw [keepNewestAttempts_of_gt (by rw [List.length_append, hlen, List.length_cons]; omega)]
    exact keepLast_append attemptBefore_trans attemptBefore_total (Nat.le_of_lt h) _

/-- What the buffer holds after some attempts: the cut of a first part of them, which was
over the limit unless it is empty, and all of the rest, below twice the limit together. -/
def Compacted (attempts newest : List MiningAttempt) : Prop :=
  newest.length < 2 * attemptTrailLimit ∧
    ∃ cut rest, attempts = cut ++ rest ∧ newest = keepNewestAttempts cut ++ rest ∧
      (cut = [] ∨ attemptTrailLimit < cut.length)

/-- Whatever was cut, the buffer ends as the cut of all attempts. -/
theorem Compacted.finish {attempts newest : List MiningAttempt} (h : Compacted attempts newest) :
    keepNewestAttempts newest = keepNewestAttempts attempts := by
  obtain ⟨-, cut, rest, rfl, rfl, rfl | hcut⟩ := h
  · rfl
  · exact keepNewestAttempts_append hcut rest

/-- **One more attempt**, with a compaction if it fills the buffer. -/
theorem Compacted.push {attempts : List MiningAttempt} {trail : AttemptTrail}
    (h : Compacted attempts trail.newest) (attempt : MiningAttempt) :
    Compacted (attempts ++ [attempt]) (trail.pushAttempt attempt).newest := by
  obtain ⟨hlen, cut, rest, hattempts, hnewest, hcut⟩ := h
  have hpushed : (trail.pushAttempt attempt).newest =
      if (trail.newest ++ [attempt]).length ≥ 2 * attemptTrailLimit then
        keepNewestAttempts (trail.newest ++ [attempt]) else trail.newest ++ [attempt] := rfl
  rw [hpushed]
  by_cases hfull : (trail.newest ++ [attempt]).length ≥ 2 * attemptTrailLimit
  · rw [if_pos hfull]
    have hall : keepNewestAttempts (trail.newest ++ [attempt]) =
        keepNewestAttempts (attempts ++ [attempt]) := by
      rw [hnewest, hattempts, List.append_assoc, List.append_assoc]
      rcases hcut with rfl | hcut
      · rfl
      · exact keepNewestAttempts_append hcut _
    refine ⟨?_, attempts ++ [attempt], [], by rw [List.append_nil], ?_, Or.inr ?_⟩
    · rw [keepNewestAttempts_length]
      have : 0 < attemptTrailLimit := by decide
      omega
    · rw [hall, List.append_nil]
    · have hle : trail.newest.length ≤ attempts.length := by
        rw [hnewest, hattempts, List.length_append, List.length_append,
          keepNewestAttempts_length]
        omega
      rw [List.length_append, List.length_singleton] at hfull ⊢
      have : attemptTrailLimit = 500 := rfl
      omega
  · rw [if_neg hfull]
    refine ⟨by omega, cut, rest ++ [attempt], ?_, ?_, hcut⟩
    · rw [hattempts, List.append_assoc]
    · rw [hnewest, List.append_assoc]

/-- **The buffer after any attempts.** -/
theorem compacted_foldl (attempts : List MiningAttempt) :
    Compacted attempts (attempts.foldl AttemptTrail.pushAttempt .empty).newest := by
  induction attempts using List.reverseRecOn with
  | nil => exact ⟨by decide, [], [], rfl, rfl, Or.inl rfl⟩
  | append_singleton attempts attempt ih =>
    rw [List.foldl_append]
    exact ih.push attempt

/-! ### The whole trail -/

theorem newest_trailOf (rows : List JsonValue) :
    Compacted (rows.filterMap attemptOf) (trailOf rows).newest := by
  rw [trailOf_eq]
  exact compacted_foldl _

/-- The best energy of some attempts. -/
def bestOf (attempts : List MiningAttempt) : Option ℤ :=
  (attempts.map MiningAttempt.bestEnergyMilli).min?

theorem best_foldl_pushAttempt (attempts : List MiningAttempt) :
    (attempts.foldl AttemptTrail.pushAttempt .empty).bestEnergyMilli = bestOf attempts := by
  have hfold : ∀ (attempts : List MiningAttempt) (trail : AttemptTrail) (best : ℤ),
      trail.bestEnergyMilli = some best →
        (attempts.foldl AttemptTrail.pushAttempt trail).bestEnergyMilli =
          some ((attempts.map MiningAttempt.bestEnergyMilli).foldl min best) := by
    intro attempts
    induction attempts with
    | nil => exact fun trail best h => h
    | cons attempt attempts ih =>
      intro trail best h
      refine ih _ (min best attempt.bestEnergyMilli) ?_
      unfold AttemptTrail.pushAttempt
      rw [h]
  rcases attempts with _ | ⟨attempt, attempts⟩
  · rfl
  · exact hfold attempts _ _ rfl

/-- **The fold is the batch computation**: for any raw rows, with `attempts` those that parse,
the trail ends with all of them in arrival order if they are at most 500, and with the last
500 of their stable sort otherwise; count, best energy and fallback productivity are those
of all attempts and the device time is that of all object rows, up to the saturation of the
counters; and the buffer holds less than 1000 rows before every push. -/
theorem attemptTrail_eq_batch (rows : List JsonValue) :
    let attempts := rows.filterMap attemptOf
    let trail := trailOf rows
    keepNewestAttempts trail.newest =
        (if attempts.length ≤ 500 then attempts
          else (attempts.mergeSort attemptBefore).drop (attempts.length - 500)) ∧
      trail.count = min (attempts.length : ℤ) i64Max ∧
      trail.bestEnergyMilli = bestOf attempts ∧
      trail.fallbackNumValid =
        lastReported (fun attempt => fallbackNumValid attempt.extra) attempts ∧
      trail.qpuAccessTimeUs = min (rows.map deviceTimeOf).sum i64Max ∧
      ∀ front, front <+: rows → (trailOf front).newest.length + 1 ≤ 1000 := by
  intro attempts trail
  have htrail : trail = _ := trailOf_eq rows
  refine ⟨(newest_trailOf rows).finish, ?_, ?_, ?_, ?_, fun front _ => ?_⟩
  · rw [htrail]
    show (attempts.foldl AttemptTrail.pushAttempt .empty).count = _
    rw [count_foldl_pushAttempt (by decide)]
    show min (0 + (attempts.length : ℤ)) _ = _
    rw [zero_add]
  · rw [htrail]
    exact best_foldl_pushAttempt attempts
  · rw [htrail]
    show (attempts.foldl AttemptTrail.pushAttempt .empty).fallbackNumValid = _
    rw [fallback_foldl_pushAttempt]
    exact Option.or_none
  · rw [htrail]
    rfl
  · exact (newest_trailOf front).1

end Dashboard

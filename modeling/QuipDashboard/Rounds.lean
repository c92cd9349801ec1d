/-
Rounds of a step that is repeated.

A worker repeats one step, each time against what its surroundings are then; a round
that fails ends the repetition.

* `Rounds.invariant` — what every round keeps holds after any number of rounds;
* `Rounds.reach` — **rounds whose rank falls reach their goal**.
-/
import Mathlib.Tactic.Common

/-- `n` rounds lead from `s` to a state, of which the `k`-th is a step of `round k`. -/
inductive Rounds {σ : Type*} (round : ℕ → σ → σ → Prop) (s : σ) : ℕ → σ → Prop
  | zero : Rounds round s 0 s
  | succ {n : ℕ} {t u : σ} (h : Rounds round s n t) (hr : round n t u) :
      Rounds round s (n + 1) u

namespace Rounds

variable {σ : Type*} {round : ℕ → σ → σ → Prop} {s : σ}

/-- What every round keeps holds after any number of rounds. -/
theorem invariant {I : ℕ → σ → Prop} (h₀ : I 0 s)
    (hround : ∀ {n t u}, I n t → round n t u → I (n + 1) u) {n : ℕ} {t : σ}
    (h : Rounds round s n t) : I n t := by
  induction h with
  | zero => exact h₀
  | succ _ hr ih => exact hround ih hr

/-- **Rounds whose rank falls reach their goal.** -/
theorem reach {I : ℕ → ℕ → σ → Prop} {goal : σ → Prop}
    (hround : ∀ {rank n t}, I rank n t →
      ∃ u, round n t u ∧ (goal u ∨ ∃ rank' < rank, I rank' (n + 1) u))
    {rank n : ℕ} {t : σ} (h : Rounds round s n t) (hI : I rank n t) :
    ∃ n' t', Rounds round s n' t' ∧ goal t' := by
  induction rank using Nat.strongRecOn generalizing n t with
  | _ rank ih =>
    obtain ⟨u, hr, hgoal | ⟨rank', hlt, hI'⟩⟩ := hround hI
    · exact ⟨n + 1, u, h.succ hr, hgoal⟩
    · exact ih rank' hlt (h.succ hr) hI'

end Rounds

/-
Runs of a labelled step relation, with the events they left behind.

`Run Step s₀ es s`: from `s₀` the events `es`, latest first, lead to `s`.  The
events of a run are what its facts are traced back to:

* `Run.invariant` — what holds at the start and is kept by every step holds at
  the end of every run;
* `Run.before` — every event of a run was a step from the end of an earlier run;
* `Run.cause` — **a fact that starts false has a cause since the last event that
  resets it**.
-/
import Mathlib.Tactic.Common

namespace History

variable {σ ε : Type*} {Step : σ → ε → σ → Prop} {s₀ : σ}

/-- A run and its events, latest first. -/
inductive Run (Step : σ → ε → σ → Prop) (s₀ : σ) : List ε → σ → Prop
  | nil : Run Step s₀ [] s₀
  | snoc {es : List ε} {s s' : σ} {e : ε} (h : Run Step s₀ es s) (hs : Step s e s') :
      Run Step s₀ (e :: es) s'

/-- The events since the last one that satisfies `p`. -/
def since (p : ε → Prop) [DecidablePred p] (es : List ε) : List ε := es.takeWhile fun e => ¬p e

theorem since_cons_of_not {p : ε → Prop} [DecidablePred p] {es : List ε} {e : ε} (h : ¬p e) :
    since p (e :: es) = e :: since p es := by
  simp [since, h]

theorem since_cons_of {p : ε → Prop} [DecidablePred p] {es : List ε} {e : ε} (h : p e) :
    since p (e :: es) = [] := by
  simp [since, h]

/-- What every step keeps holds along a run. -/
theorem Run.invariant {I : σ → Prop} (h₀ : I s₀)
    (hstep : ∀ {s e s'}, I s → Step s e s' → I s') {es : List ε} {s : σ}
    (h : Run Step s₀ es s) : I s := by
  induction h with
  | nil => exact h₀
  | snoc _ hs ih => exact hstep ih hs

/-- A run of some steps is one of any steps that include them. -/
theorem Run.imp {Step' : σ → ε → σ → Prop} (hstep : ∀ {s e s'}, Step s e s' → Step' s e s')
    {es : List ε} {s : σ} (h : Run Step s₀ es s) : Run Step' s₀ es s := by
  induction h with
  | nil => exact .nil
  | snoc _ hs ih => exact .snoc ih (hstep hs)

/-- A run goes on from its end. -/
theorem Run.append {es es' : List ε} {s s' : σ} (h : Run Step s₀ es s) (h' : Run Step s es' s') :
    Run Step s₀ (es' ++ es) s' := by
  induction h' with
  | nil => exact h
  | snoc _ hs ih => exact .snoc ih hs

/-- An event of a run was a step from the end of an earlier run. -/
theorem Run.before {es : List ε} {s : σ} (h : Run Step s₀ es s) {e : ε} (he : e ∈ es) :
    ∃ es' s₁ s₂, Run Step s₀ es' s₁ ∧ Step s₁ e s₂ := by
  induction h with
  | nil => cases he
  | @snoc es s s' e' h hs ih =>
    rcases List.mem_cons.mp he with rfl | he
    · exact ⟨es, s, s', h, hs⟩
    · exact ih he

/-- **A fact that starts false has a cause since the last event that resets it.** -/
theorem Run.cause {F : σ → Prop} {C p : ε → Prop} [DecidablePred p] (h₀ : ¬F s₀)
    (hstep : ∀ {es s e s'}, Run Step s₀ es s → Step s e s' → F s' → C e ∧ ¬p e ∨ F s ∧ ¬p e)
    {es : List ε} {s : σ} (h : Run Step s₀ es s) (hF : F s) : ∃ e ∈ since p es, C e := by
  induction h with
  | nil => exact absurd hF h₀
  | @snoc es s s' e h hs ih =>
    rcases hstep h hs hF with ⟨hc, hp⟩ | ⟨hF', hp⟩
    · rw [since_cons_of_not hp]
      exact ⟨e, List.mem_cons_self .., hc⟩
    · obtain ⟨e', he', hc⟩ := ih hF'
      rw [since_cons_of_not hp]
      exact ⟨e', List.mem_cons_of_mem _ he', hc⟩

end History

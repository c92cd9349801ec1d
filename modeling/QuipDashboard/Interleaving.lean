/-
A fixed family of tasks that interleave their effects on one state.

Each task is a `Program` with a result of its own. Rely and guarantee relations are given for
each task: what a task does satisfies its guarantee, and the guarantee of one task is within
the rely of every other.

* `TasksRun.safe` — **a task stays safe in every interleaving**;
* `TasksRun.result` — a task that has ended satisfies its postcondition from then on.
-/
import QuipDashboard.Program

/-- Whether a program has returned, with a value or an error. -/
def Program.returned {E : Type → Type 1} {ε α : Type} : Program E ε α → Bool
  | .done _ | .fail _ => true
  | .call .. | .pending => false

/-- The state of the tasks, and what each of them has left to do. -/
structure Tasks (E : Type → Type 1) (ε σ : Type) {ι : Type} (α : ι → Type) : Type 1 where
  state : σ
  code : ∀ i, Program E ε (α i)

/-- One effect of one task. -/
structure Turn (E : Type → Type 1) (σ ι : Type) : Type 1 where
  task : ι
  pre : σ
  {β : Type}
  effect : E β
  answer : β
  post : σ

section

variable {E : Type → Type 1} {ε σ ι : Type} {α : ι → Type}

/-- One task performs the effect that it waits for. -/
inductive Tasks.Step [DecidableEq ι] (H : ι → {γ : Type} → σ → E γ → γ → σ → Prop) :
    Tasks E ε σ α → Turn E σ ι → Tasks E ε σ α → Prop
  | turn {t : Tasks E ε σ α} {i : ι} {β : Type} {e : E β} {next : β → Program E ε (α i)} {b : β}
      {s : σ} (hcode : t.code i = .call e next) (h : H i t.state e b s) :
      Step H t ⟨i, t.state, e, b, s⟩ ⟨s, Function.update t.code i (next b)⟩

/-- An interleaving of the tasks. -/
def TasksRun [DecidableEq ι] (H : ι → {γ : Type} → σ → E γ → γ → σ → Prop) (t₀ : Tasks E ε σ α) :
    List (Turn E σ ι) → Tasks E ε σ α → Prop :=
  History.Run (Tasks.Step H) t₀

variable {H C G : ι → {γ : Type} → σ → E γ → γ → σ → Prop} {R : ι → σ → σ → Prop}
  {Q : (i : ι) → Except ε (α i) → σ → Prop} {t₀ t : Tasks E ε σ α} {es : List (Turn E σ ι)}

/-- The effects that also satisfy `C`. -/
def Conforming (H C : ι → {γ : Type} → σ → E γ → γ → σ → Prop) (i : ι) {γ : Type} (s : σ)
    (e : E γ) (b : γ) (s' : σ) : Prop :=
  H i s e b s' ∧ C i s e b s'

/-- A turn satisfies a relation of its task. -/
def Turn.Satisfies (C : ι → {γ : Type} → σ → E γ → γ → σ → Prop) (e : Turn E σ ι) : Prop :=
  C e.task e.pre e.effect e.answer e.post

/-- The tasks are safe where they stand. -/
def Tasks.AllSafe (H : ι → {γ : Type} → σ → E γ → γ → σ → Prop) (R : ι → σ → σ → Prop)
    (G : ι → {γ : Type} → σ → E γ → γ → σ → Prop) (Q : (i : ι) → Except ε (α i) → σ → Prop)
    (t : Tasks E ε σ α) : Prop :=
  ∀ i, (t.code i).Safe (H i) (R i) (G i) (Q i) t.state

/-- What has ended satisfies its postcondition. -/
theorem Tasks.AllSafe.result (h : t.AllSafe H R G Q) {i : ι} {a : α i} (hi : t.code i = .done a) :
    Q i (.ok a) t.state := by
  have hsafe := h i
  rw [hi] at hsafe
  exact hsafe

/-- What has returned satisfies its postcondition. -/
theorem Tasks.AllSafe.returned (h : t.AllSafe H R G Q) {i : ι} (hi : (t.code i).returned = true) :
    ∃ r, Q i r t.state := by
  have hsafe := h i
  cases hcode : t.code i with
  | done a =>
    rw [hcode] at hsafe
    exact ⟨_, hsafe⟩
  | fail e =>
    rw [hcode] at hsafe
    exact ⟨_, hsafe⟩
  | call e next =>
    rw [hcode] at hi
    cases hi
  | pending =>
    rw [hcode] at hi
    cases hi

variable [DecidableEq ι]

/-- One turn keeps the tasks safe. -/
theorem Tasks.Step.safe (hrefl : ∀ i s, R i s s) (htrans : ∀ i {a b c}, R i a b → R i b c → R i a c)
    (hG : ∀ i j {γ : Type} {s : σ} {e : E γ} {b s'}, i ≠ j → G i s e b s' → R j s s')
    (hQ : ∀ i {r a b}, Q i r a → R i a b → Q i r b) {t t' : Tasks E ε σ α} {e : Turn E σ ι}
    (ht : t.AllSafe (Conforming H C) R G Q)
    (h : t.Step H e t') (hC : e.Satisfies C) :
    t'.AllSafe (Conforming H C) R G Q := by
  cases h with
  | @turn i β e next b s hcode h =>
    have hi := ht i
    rw [hcode] at hi
    obtain ⟨hg, hnext⟩ := hi t.state (hrefl i _) b s ⟨h, hC⟩
    intro j
    show Program.Safe _ _ _ _ (Function.update t.code i (next b) j) s
    by_cases hij : j = i
    · subst hij
      rw [Function.update_self]
      exact hnext
    · rw [Function.update_of_ne hij]
      refine (ht j).stable (R := R j) (Q := Q j) (htrans j) (hQ j) ?_
      exact hG i j (Ne.symm hij) hg

/-- **In an interleaving whose turns satisfy `C`, every task stays safe.** -/
theorem TasksRun.safe (hrefl : ∀ i s, R i s s) (htrans : ∀ i {a b c}, R i a b → R i b c → R i a c)
    (hG : ∀ i j {γ : Type} {s : σ} {e : E γ} {b s'}, i ≠ j → G i s e b s' → R j s s')
    (hQ : ∀ i {r a b}, Q i r a → R i a b → Q i r b)
    (h₀ : t₀.AllSafe (Conforming H C) R G Q)
    (h : TasksRun H t₀ es t) (hC : ∀ e ∈ es, e.Satisfies C) :
    t.AllSafe (Conforming H C) R G Q := by
  induction h with
  | nil => exact h₀
  | snoc _ hstep ih =>
    exact hstep.safe hrefl htrans hG hQ (ih fun e he => hC e (List.mem_cons_of_mem _ he))
      (hC _ (List.mem_cons_self ..))

end

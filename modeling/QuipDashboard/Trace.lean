/-
What a program performed before it ended or was stopped.

A `Trace` is a run of one program that may be stopped between any two of its effects: the
effects it performed with their answers, the state they led to, and its result when it
was not stopped.

* `Trace.bind` — the run of a sequence stops in its first part, or runs it to its end and
  goes on with the second;
* `Trace.append` — a run of the first part to its end, and then one of the second;
* `Trace.call` — the run of a program that awaits an effect stops there, or performs it.
-/
import QuipDashboard.Program

/-- An effect that was performed, and its answer. -/
structure Performed (E : Type → Type 1) : Type 1 where
  {β : Type}
  effect : E β
  answer : β

/-- `Trace H p s es t o`: from `s` the program performed `es` and left `t`; `o` is its
result, and none when it was stopped. -/
inductive Trace {E : Type → Type 1} {ε α σ : Type} (H : {γ : Type} → σ → E γ → γ → σ → Prop) :
    Program E ε α → σ → List (Performed E) → σ → Option (Except ε α) → Prop
  | stopped (p : Program E ε α) (s : σ) : Trace @H p s [] s none
  | done (a : α) (s : σ) : Trace @H (.done a) s [] s (some (.ok a))
  | fail (e : ε) (s : σ) : Trace @H (.fail e) s [] s (some (.error e))
  | step {β : Type} {e : E β} {next : β → Program E ε α} {s s' t : σ} {b : β}
      {es : List (Performed E)} {o : Option (Except ε α)} (h : H s e b s')
      (hr : Trace @H (next b) s' es t o) : Trace @H (.call e next) s (⟨e, b⟩ :: es) t o

namespace Trace

variable {E : Type → Type 1} {ε ε' α β σ : Type} {H : {γ : Type} → σ → E γ → γ → σ → Prop}
  {es : List (Performed E)} {s t : σ}

theorem of_done {a : α} {o : Option (Except ε α)} (h : Trace H (.done a) s es t o) :
    es = [] ∧ t = s ∧ ∀ b, o = some (.ok b) → b = a := by
  cases h with
  | stopped => exact ⟨rfl, rfl, nofun⟩
  | done => exact ⟨rfl, rfl, fun b hb => (Except.ok.inj (Option.some.inj hb)).symm⟩

theorem of_fail {e : ε} {o : Option (Except ε α)} (h : Trace H (.fail e) s es t o) :
    es = [] ∧ t = s ∧ ∀ a, o ≠ some (.ok a) := by
  cases h with
  | stopped => exact ⟨rfl, rfl, nofun⟩
  | fail => exact ⟨rfl, rfl, nofun⟩

/-- A program that awaits an effect is stopped before it, or performs it. -/
theorem call {γ : Type} {e : E γ} {next : γ → Program E ε α} {o : Option (Except ε α)}
    (h : Trace H (.call e next) s es t o) : (es = [] ∧ t = s ∧ o = none) ∨
      ∃ b s' es', H s e b s' ∧ Trace H (next b) s' es' t o ∧ es = ⟨e, b⟩ :: es' := by
  cases h with
  | stopped => exact .inl ⟨rfl, rfl, rfl⟩
  | step h hr => exact .inr ⟨_, _, _, h, hr, rfl⟩

/-- **The run of a sequence stops or fails in its first part, or goes on from its
result.** -/
theorem bind {p : Program E ε α} {f : α → Program E ε β} {o : Option (Except ε β)}
    (h : Trace H (p >>= f) s es t o) :
    (o = none ∧ Trace H p s es t none) ∨
    (∃ e, o = some (.error e) ∧ Trace H p s es t (some (.error e))) ∨
    ∃ a s' es₁ es₂, Trace H p s es₁ s' (some (.ok a)) ∧ Trace H (f a) s' es₂ t o ∧
      es = es₁ ++ es₂ := by
  induction p generalizing s es with
  | done a => exact .inr (.inr ⟨a, s, [], es, .done a s, h, rfl⟩)
  | fail e =>
    cases h with
    | stopped => exact .inl ⟨rfl, .stopped ..⟩
    | fail => exact .inr (.inl ⟨e, rfl, .fail ..⟩)
  | call e next ih =>
    rcases call h with ⟨rfl, rfl, rfl⟩ | ⟨b, s', es', hb, hr, rfl⟩
    · exact .inl ⟨rfl, .stopped ..⟩
    · rcases ih b hr with ⟨ho, hp⟩ | ⟨e', ho, hp⟩ | ⟨a, s₁, es₁, es₂, hp, hf, rfl⟩
      · exact .inl ⟨ho, .step hb hp⟩
      · exact .inr (.inl ⟨e', ho, .step hb hp⟩)
      · exact .inr (.inr ⟨a, s₁, ⟨e, b⟩ :: es₁, es₂, .step hb hp, hf, rfl⟩)
  | pending =>
    cases h with
    | stopped => exact .inl ⟨rfl, .stopped ..⟩

/-- A run to the end of the first part goes on with the second. -/
theorem append {p : Program E ε α} {f : α → Program E ε β} {es' : List (Performed E)} {u : σ} {a : α}
    {o : Option (Except ε β)} (h : Trace H p s es t (some (.ok a))) (hf : Trace H (f a) t es' u o) :
    Trace H (p >>= f) s (es ++ es') u o := by
  induction p generalizing s es with
  | done b =>
    cases h with
    | done => exact hf
  | fail e => cases h
  | call e next ih =>
    cases h with
    | step hb hr => exact .step hb (ih _ hr)
  | pending => cases h

/-- An effect that is awaited, and what followed it. -/
theorem await {e : E α} {f : α → Program E ε β} {o : Option (Except ε β)}
    (h : Trace H (Program.await e >>= f) s es t o) : (es = [] ∧ t = s ∧ o = none) ∨
      ∃ a s' es', H s e a s' ∧ Trace H (f a) s' es' t o ∧ es = ⟨e, a⟩ :: es' :=
  call h

/-- A check that passed needed no effect. -/
theorem ofExcept {r : Except ε α} {f : α → Program E ε β} {o : Option (Except ε β)}
    (h : Trace H (Program.ofExcept r >>= f) s es t o) :
    (es = [] ∧ t = s ∧ ∀ b, o ≠ some (.ok b)) ∨ ∃ a, r = .ok a ∧ Trace H (f a) s es t o := by
  cases r with
  | ok a => exact .inr ⟨a, rfl, h⟩
  | error e => exact .inl h.of_fail

/-- The run of a program whose result is matched on. -/
theorem attempt {p : Program E ε α} {o : Option (Except ε' (Except ε α))}
    (h : Trace H p.attempt s es t o) :
    (o = none ∧ Trace H p s es t none) ∨ ∃ r, o = some (.ok r) ∧ Trace H p s es t (some r) := by
  induction p generalizing s es with
  | done a =>
    cases h with
    | stopped => exact .inl ⟨rfl, .stopped ..⟩
    | done => exact .inr ⟨_, rfl, .done ..⟩
  | fail e =>
    cases h with
    | stopped => exact .inl ⟨rfl, .stopped ..⟩
    | done => exact .inr ⟨_, rfl, .fail ..⟩
  | call e next ih =>
    rcases call h with ⟨rfl, rfl, rfl⟩ | ⟨b, s', es', hb, hr, rfl⟩
    · exact .inl ⟨rfl, .stopped ..⟩
    · rcases ih b hr with ⟨ho, hp⟩ | ⟨r, ho, hp⟩
      · exact .inl ⟨ho, .step hb hp⟩
      · exact .inr ⟨r, ho, .step hb hp⟩
  | pending =>
    cases h with
    | stopped => exact .inl ⟨rfl, .stopped ..⟩

/-- An effect that may fail: it was not performed, it failed and ended the program, or it
gave the value with which the program went on. -/
theorem awaitOk {wrap : ε' → ε} {e : E (Except ε' α)} {f : α → Program E ε β}
    {o : Option (Except ε β)} (h : Trace H (Program.awaitOk wrap e >>= f) s es t o) :
    (es = [] ∧ t = s ∧ ∀ b, o ≠ some (.ok b)) ∨
    (∃ e', H s e (.error e') t ∧ es = [⟨e, .error e'⟩] ∧ ∀ b, o ≠ some (.ok b)) ∨
    ∃ a s' es', H s e (.ok a) s' ∧ Trace H (f a) s' es' t o ∧ es = ⟨e, .ok a⟩ :: es' := by
  rcases call h with ⟨rfl, rfl, rfl⟩ | ⟨b, s', es', hb, hr, rfl⟩
  · exact .inl ⟨rfl, rfl, nofun⟩
  · cases b with
    | ok a => exact .inr (.inr ⟨a, s', es', hb, hr, rfl⟩)
    | error e' =>
      obtain ⟨rfl, rfl, ho⟩ := of_fail hr
      exact .inr (.inl ⟨e', hb, rfl, ho⟩)

end Trace

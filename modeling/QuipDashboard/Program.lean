/-
Programs that wait for their effects, and what many of them do to a shared state.

A `Program E ε α` is an asynchronous function: a tree of effects from `E`, each of
which is awaited, and whose answers choose what follows.  A bounded loop whose
bound is used up leaves `pending`, a program that waits forever.

* `exec` — the run of one program alone, when the answers are a function of the state;
* `Safe` — the rely/guarantee judgement: while others do what `R` allows, every effect
  of the program satisfies `G` and its result satisfies `Q`; `Safe.bind`, `Safe.call` and
  `Safe.attempt` are its rules, `Safe.exec` relates it to `exec`;
* `PoolRun` — any number of programs that are started, stepped, stopped between two
  effects or inside of one, and interleaved with other events;
* `PoolRun.guarantee` — **in every interleaving, every effect of a program satisfies its
  guarantee**;
* `PoolRun.alone` — a task that nothing stops does what `exec` says.
-/
import QuipDashboard.History

/-- A sequence of checks passes when both do. -/
theorem Except.bind_eq_ok {ε α β : Type} {x : Except ε α} {f : α → Except ε β} {b : β} :
    (x >>= f) = .ok b ↔ ∃ a, x = .ok a ∧ f a = .ok b := by
  cases x with
  | ok a =>
    refine ⟨fun h => ⟨a, rfl, h⟩, ?_⟩
    rintro ⟨a', ha, h⟩
    cases ha
    exact h
  | error e =>
    refine ⟨nofun, ?_⟩
    rintro ⟨a, ha, -⟩
    cases ha

/-- A program with effects `E`, errors `ε` and results `α`. -/
inductive Program (E : Type → Type 1) (ε α : Type) : Type 1
  | done (a : α)
  | fail (e : ε)
  | call {β : Type} (e : E β) (next : β → Program E ε α)
  | pending

namespace Program

variable {E : Type → Type 1} {ε ε' α β : Type} {σ : Type*}

/-- Sequencing; an error ends the program, as `?` does. -/
def bind : Program E ε α → (α → Program E ε β) → Program E ε β
  | done a, f => f a
  | fail e, _ => fail e
  | call e next, f => call e fun b => (next b).bind f
  | pending, _ => pending

instance : Monad (Program E ε) where
  pure := done
  bind := bind

/-- Await one effect. -/
def await (e : E α) : Program E ε α := call e done

/-- Await an effect that may fail, and go on with its value. -/
def awaitOk (wrap : ε' → ε) (e : E (Except ε' α)) : Program E ε α :=
  call e fun
    | .ok a => done a
    | .error e => fail (wrap e)

/-- A check without an effect. -/
def ofExcept : Except ε α → Program E ε α
  | .ok a => done a
  | .error e => fail e

/-- The result as a value, for a caller that matches on it. -/
def attempt : Program E ε α → Program E ε' (Except ε α)
  | done a => done (.ok a)
  | fail e => done (.error e)
  | call e next => call e fun b => (next b).attempt
  | pending => pending

@[simp] theorem pure_bind' (a : α) (f : α → Program E ε β) : (pure a >>= f) = f a := rfl

@[simp] theorem fail_bind (e : ε) (f : α → Program E ε β) : (fail e >>= f) = fail e := rfl

@[simp] theorem call_bind {γ : Type} (e : E γ) (next : γ → Program E ε α)
    (f : α → Program E ε β) : (call e next >>= f) = call e fun b => next b >>= f := rfl

theorem bind_pure' (p : Program E ε α) : (p >>= pure) = p := by
  induction p with
  | done | fail | pending => rfl
  | call e next ih =>
    show call e (fun b => next b >>= pure) = call e next
    rw [funext ih]

/-! ### Running alone -/

/-- The run of one program whose effects are answered by `answer`; none when it waits
forever. -/
def exec (answer : {γ : Type} → E γ → σ → γ × σ) :
    Program E ε α → σ → Option (Except ε α × σ)
  | done a, s => some (.ok a, s)
  | fail e, s => some (.error e, s)
  | call e next, s => (next (answer e s).1).exec answer (answer e s).2
  | pending, _ => none

variable {answer : {γ : Type} → E γ → σ → γ × σ}

@[simp] theorem exec_pure (a : α) (s : σ) :
    exec answer (pure a : Program E ε α) s = some (.ok a, s) := rfl

@[simp] theorem exec_fail (e : ε) (s : σ) :
    exec answer (fail e : Program E ε α) s = some (.error e, s) := rfl

@[simp] theorem exec_await (e : E α) (s : σ) :
    exec answer (await e : Program E ε α) s = some (.ok (answer e s).1, (answer e s).2) := rfl

theorem exec_bind (p : Program E ε α) (f : α → Program E ε β) (s : σ) :
    exec answer (p >>= f) s = (exec answer p s).bind fun
      | (.ok a, t) => exec answer (f a) t
      | (.error e, t) => some (.error e, t) := by
  show exec answer (p.bind f) s = _
  induction p generalizing s with
  | done a => rfl
  | fail e => rfl
  | call e next ih => exact ih _ _
  | pending => rfl

/-! ### Rely and guarantee -/

/-- While others take steps of `R`, every effect of the program satisfies `G`, and
its result `Q`.  `H` is what an effect may answer, and what it makes of the state. -/
def Safe (H : {γ : Type} → σ → E γ → γ → σ → Prop) (R : σ → σ → Prop)
    (G : {γ : Type} → σ → E γ → γ → σ → Prop) (Q : Except ε α → σ → Prop) :
    Program E ε α → σ → Prop
  | done a, s => Q (.ok a) s
  | fail e, s => Q (.error e) s
  | call e next, s => ∀ s₁, R s s₁ → ∀ b s₂, H s₁ e b s₂ →
      G s₁ e b s₂ ∧ Safe H R G Q (next b) s₂
  | pending, _ => True

namespace Safe

variable {H G : {γ : Type} → σ → E γ → γ → σ → Prop} {R : σ → σ → Prop}

theorem imp {Q Q' : Except ε α → σ → Prop} (hQ : ∀ r s, Q r s → Q' r s)
    {p : Program E ε α} {s : σ} (h : Safe H R G Q p s) : Safe H R G Q' p s := by
  induction p generalizing s with
  | done a => exact hQ _ _ h
  | fail e => exact hQ _ _ h
  | call e next ih =>
    intro s₁ hs b s₂ hb
    exact ⟨(h s₁ hs b s₂ hb).1, ih b (h s₁ hs b s₂ hb).2⟩
  | pending => trivial

/-- A sequence is safe when its first part ends where its second part is safe. -/
theorem bind {Q : Except ε β → σ → Prop} {f : α → Program E ε β} {p : Program E ε α} {s : σ}
    (h : Safe H R G (fun
      | .ok a, t => Safe H R G Q (f a) t
      | .error e, t => Q (.error e) t) p s) : Safe H R G Q (p >>= f) s := by
  show Safe H R G Q (p.bind f) s
  induction p generalizing s with
  | done a => exact h
  | fail e => exact h
  | call e next ih =>
    intro s₁ hs b s₂ hb
    exact ⟨(h s₁ hs b s₂ hb).1, ih b (h s₁ hs b s₂ hb).2⟩
  | pending => trivial

/-- An effect, and what follows each of its answers. -/
theorem await {Q : Except ε β → σ → Prop} {e : E α} {f : α → Program E ε β} {s : σ}
    (h : ∀ s₁, R s s₁ → ∀ a s₂, H s₁ e a s₂ → G s₁ e a s₂ ∧ Safe H R G Q (f a) s₂) :
    Safe H R G Q (Program.await e >>= f) s := h

/-- An effect that may fail, and what follows its value. -/
theorem awaitOk {Q : Except ε β → σ → Prop} {wrap : ε' → ε} {e : E (Except ε' α)}
    {f : α → Program E ε β} {s : σ}
    (hG : ∀ s₁, R s s₁ → ∀ a s₂, H s₁ e a s₂ → G s₁ e a s₂)
    (hok : ∀ s₁, R s s₁ → ∀ a s₂, H s₁ e (.ok a) s₂ → Safe H R G Q (f a) s₂)
    (herr : ∀ s₁, R s s₁ → ∀ e' s₂, H s₁ e (.error e') s₂ → Q (.error (wrap e')) s₂) :
    Safe H R G Q (Program.awaitOk wrap e >>= f) s := by
  intro s₁ hs a s₂ ha
  refine ⟨hG s₁ hs a s₂ ha, ?_⟩
  cases a with
  | ok a => exact hok s₁ hs a s₂ ha
  | error e' => exact herr s₁ hs e' s₂ ha

/-- A check, and what follows it. -/
theorem ofExcept {Q : Except ε β → σ → Prop} {r : Except ε α} {f : α → Program E ε β} {s : σ}
    (hok : ∀ a, r = .ok a → Safe H R G Q (f a) s) (herr : ∀ e, r = .error e → Q (.error e) s) :
    Safe H R G Q (Program.ofExcept r >>= f) s := by
  cases r with
  | ok a => exact hok a rfl
  | error e => exact herr e rfl

theorem ite {Q : Except ε α → σ → Prop} {c : Prop} [Decidable c] {p q : Program E ε α} {s : σ}
    (hp : c → Safe H R G Q p s) (hq : ¬c → Safe H R G Q q s) :
    Safe H R G Q (if c then p else q) s := by
  split
  · exact hp ‹c›
  · exact hq ‹¬c›

theorem attempt {Q : Except ε' (Except ε α) → σ → Prop} {p : Program E ε α} {s : σ}
    (h : Safe H R G (fun r t => Q (.ok r) t) p s) : Safe H R G Q p.attempt s := by
  induction p generalizing s with
  | done a => exact h
  | fail e => exact h
  | call e next ih =>
    intro s₁ hs b s₂ hb
    exact ⟨(h s₁ hs b s₂ hb).1, ih b (h s₁ hs b s₂ hb).2⟩
  | pending => trivial

/-- What is safe stays safe while others take steps that keep its result. -/
theorem stable (hR : ∀ {a b c}, R a b → R b c → R a c) {Q : Except ε α → σ → Prop}
    (hQ : ∀ {r a b}, Q r a → R a b → Q r b) {p : Program E ε α} {s t : σ}
    (h : Safe H R G Q p s) (hst : R s t) : Safe H R G Q p t := by
  cases p with
  | done | fail => exact hQ h hst
  | call e next => exact fun s₁ hs => h s₁ (hR hst hs)
  | pending => trivial

/-- A program that runs alone: its effects satisfy `G` one after another, so its
result satisfies `Q`. -/
theorem exec {answer : {γ : Type} → E γ → σ → γ × σ} {Q : Except ε α → σ → Prop}
    {p : Program E ε α} {s : σ}
    (h : Safe (fun s e b s' => answer e s = (b, s')) (· = ·) G Q p s) {r : Except ε α} {t : σ}
    (hx : p.exec answer s = some (r, t)) : Q r t := by
  induction p generalizing s with
  | done a =>
    cases hx
    exact h
  | fail e =>
    cases hx
    exact h
  | call e next ih => exact ih _ (h s rfl _ _ rfl).2 hx
  | pending => cases hx

end Safe

end Program

/-! ### Many programs -/

/-- A shared state and the programs at work on it, each with what it was started for. -/
structure Pool (E : Type → Type 1) (ε σ τ : Type) : Type 1 where
  state : σ
  threads : ℕ → Option (τ × Program E ε Unit)

/-- What happens in a pool. -/
inductive PoolEvent (E : Type → Type 1) (σ τ κ : Type) : Type 1
  | started (thread : ℕ) (task : τ)
  | effect {β : Type} (task : τ) (pre : σ) (e : E β) (answer : β) (post : σ)
  | dropped (thread : ℕ)
  | other (event : κ)

namespace Pool

variable {E : Type → Type 1} {ε σ τ κ : Type}

/-- Put a program into a slot, or empty the slot. -/
def put (π : Pool E ε σ τ) (t : ℕ) (p : Option (τ × Program E ε Unit)) : Pool E ε σ τ :=
  { π with threads := fun u => if u = t then p else π.threads u }

@[simp] theorem put_self (π : Pool E ε σ τ) (t : ℕ) (p : Option (τ × Program E ε Unit)) :
    (π.put t p).threads t = p := if_pos rfl

/-- One event of a pool: a task is started, a program awaits an effect or is stopped
before it, inside of it, or something else changes the state. -/
inductive Step (H : {γ : Type} → σ → E γ → γ → σ → Prop) (Starts : σ → τ → Prop)
    (code : τ → Program E ε Unit) (Other : σ → κ → σ → Prop) :
    Pool E ε σ τ → PoolEvent E σ τ κ → Pool E ε σ τ → Prop
  | start {π : Pool E ε σ τ} (t : ℕ) {task : τ} (h : Starts π.state task) :
      Step H Starts code Other π (.started t task) (π.put t (some (task, code task)))
  | effect {π : Pool E ε σ τ} {t : ℕ} {task : τ} {β : Type} {e : E β}
      {next : β → Program E ε Unit} {b : β} {s : σ}
      (ht : π.threads t = some (task, .call e next)) (h : H π.state e b s) :
      Step H Starts code Other π (.effect task π.state e b s)
        ({ π with state := s }.put t (some (task, next b)))
  | interrupted {π : Pool E ε σ τ} {t : ℕ} {task : τ} {β : Type} {e : E β}
      {next : β → Program E ε Unit} {b : β} {s : σ}
      (ht : π.threads t = some (task, .call e next)) (h : H π.state e b s) :
      Step H Starts code Other π (.effect task π.state e b s) ({ π with state := s }.put t none)
  | drop {π : Pool E ε σ τ} (t : ℕ) : Step H Starts code Other π (.dropped t) (π.put t none)
  | other {π : Pool E ε σ τ} {ev : κ} {s : σ} (h : Other π.state ev s) :
      Step H Starts code Other π (.other ev) { π with state := s }

end Pool

section Run

variable {E : Type → Type 1} {ε σ τ κ : Type}
  {H : {γ : Type} → σ → E γ → γ → σ → Prop} {Starts : σ → τ → Prop}
  {code : τ → Program E ε Unit} {Other : σ → κ → σ → Prop} {s₀ : σ}

/-- An interleaving of programs, from a state without any. -/
def PoolRun (H : {γ : Type} → σ → E γ → γ → σ → Prop) (Starts : σ → τ → Prop)
    (code : τ → Program E ε Unit) (Other : σ → κ → σ → Prop) (s₀ : σ) :
    List (PoolEvent E σ τ κ) → Pool E ε σ τ → Prop :=
  History.Run (Pool.Step H Starts code Other) ⟨s₀, fun _ => none⟩

variable {R : σ → σ → Prop} {G : τ → {γ : Type} → σ → E γ → γ → σ → Prop}

/-- The programs of a pool are safe where they stand. -/
def Pool.AllSafe (H : {γ : Type} → σ → E γ → γ → σ → Prop) (R : σ → σ → Prop)
    (G : τ → {γ : Type} → σ → E γ → γ → σ → Prop) (π : Pool E ε σ τ) : Prop :=
  ∀ t task p, π.threads t = some (task, p) → p.Safe H R (G task) (fun _ _ => True) π.state

/-- One event keeps the programs of a pool safe, and satisfies its guarantee. -/
theorem Pool.Step.safe (hrefl : ∀ s, R s s) (htrans : ∀ {a b c}, R a b → R b c → R a c)
    (hH : ∀ {γ : Type} {s : σ} {e : E γ} {b s'}, H s e b s' → R s s')
    (hOther : ∀ {s ev s'}, Other s ev s' → R s s')
    (hcode : ∀ s task, Starts s task →
      (code task).Safe H R (G task) (fun _ _ => True) s)
    {π π' : Pool E ε σ τ} {ev : PoolEvent E σ τ κ} (hπ : π.AllSafe H R G)
    (h : Pool.Step H Starts code Other π ev π') :
    π'.AllSafe H R G ∧ ∀ {β : Type} {task} {pre post : σ} {e : E β} {b : β},
      ev = .effect task pre e b post → G task pre e b post := by
  -- a task is replaced in a state where all the others are safe
  have hput : ∀ (π : Pool E ε σ τ) (t : ℕ) (p : Option (τ × Program E ε Unit)),
      (∀ u task q, π.threads u = some (task, q) →
        q.Safe H R (G task) (fun _ _ => True) π.state) →
      (∀ task q, p = some (task, q) → q.Safe H R (G task) (fun _ _ => True) π.state) →
      (π.put t p).AllSafe H R G := by
    intro π t p hall hp u task q hu
    simp only [Pool.put] at hu
    split at hu
    · exact hp task q hu
    · exact hall u task q hu
  cases h with
  | start t hs =>
    refine ⟨hput _ _ _ hπ ?_, nofun⟩
    rintro task q ⟨rfl⟩
    exact hcode _ _ hs
  | @effect t task β e next b s ht hs =>
    obtain ⟨hG, hnext⟩ := hπ t task _ ht π.state (hrefl _) b s hs
    refine ⟨hput { π with state := s } _ _ ?_ ?_, ?_⟩
    · exact fun u task' q hu => (hπ u task' q hu).stable (R := R) htrans (fun _ _ => trivial) (hH hs)
    · rintro task' q ⟨rfl⟩
      exact hnext
    · rintro _ _ _ _ _ _ ⟨rfl⟩
      exact hG
  | @interrupted t task β e next b s ht hs =>
    obtain ⟨hG, -⟩ := hπ t task _ ht π.state (hrefl _) b s hs
    refine ⟨hput { π with state := s } _ _ ?_ nofun, ?_⟩
    · exact fun u task' q hu => (hπ u task' q hu).stable (R := R) htrans (fun _ _ => trivial) (hH hs)
    · rintro _ _ _ _ _ _ ⟨rfl⟩
      exact hG
  | drop t => exact ⟨hput _ _ _ hπ nofun, nofun⟩
  | other hs => exact ⟨fun u task q hu => (hπ u task q hu).stable (R := R) htrans
      (fun _ _ => trivial) (hOther hs), nofun⟩

/-- **In every interleaving, every effect of a program satisfies its guarantee.** -/
theorem PoolRun.guarantee (hrefl : ∀ s, R s s) (htrans : ∀ {a b c}, R a b → R b c → R a c)
    (hH : ∀ {γ : Type} {s : σ} {e : E γ} {b s'}, H s e b s' → R s s')
    (hOther : ∀ {s ev s'}, Other s ev s' → R s s')
    (hcode : ∀ s task, Starts s task →
      (code task).Safe H R (G task) (fun _ _ => True) s)
    {es : List (PoolEvent E σ τ κ)} {π : Pool E ε σ τ} (h : PoolRun H Starts code Other s₀ es π)
    {β : Type} {task : τ} {pre post : σ} {e : E β} {b : β}
    (he : PoolEvent.effect task pre e b post ∈ es) : G task pre e b post := by
  obtain ⟨es', π₁, π₂, hrun, hstep⟩ := h.before he
  have hsafe : π₁.AllSafe H R G := by
    refine History.Run.invariant (I := Pool.AllSafe H R G) ?_ ?_ hrun
    · intro t task p ht
      cases ht
    · intro π ev π' hπ hs
      exact (hs.safe hrefl htrans hH hOther hcode hπ).1
  exact (hstep.safe hrefl htrans hH hOther hcode hsafe).2 rfl

/-- A task that nothing stops runs to its end. -/
theorem PoolRun.alone {answer : {γ : Type} → E γ → σ → γ × σ}
    (hanswer : ∀ {γ : Type} (s : σ) (e : E γ), H s e (answer e s).1 (answer e s).2)
    {es : List (PoolEvent E σ τ κ)} {π : Pool E ε σ τ} (h : PoolRun H Starts code Other s₀ es π)
    {task : τ} (hs : Starts π.state task) {r : Except ε Unit} {s : σ}
    (hx : (code task).exec answer π.state = some (r, s)) :
    ∃ es' π', PoolRun H Starts code Other s₀ (es' ++ es) π' ∧ π'.state = s := by
  -- the remaining program, wherever it stands
  have hrest : ∀ (p : Program E ε Unit) {es : List (PoolEvent E σ τ κ)} {π : Pool E ε σ τ},
      PoolRun H Starts code Other s₀ es π → π.threads 0 = some (task, p) →
      p.exec answer π.state = some (r, s) →
      ∃ es' π', PoolRun H Starts code Other s₀ (es' ++ es) π' ∧ π'.state = s := by
    intro p
    induction p with
    | done a =>
      intro es π hrun _ hx
      cases hx
      exact ⟨[], π, hrun, rfl⟩
    | fail e =>
      intro es π hrun _ hx
      cases hx
      exact ⟨[], π, hrun, rfl⟩
    | call e next ih =>
      intro es π hrun ht hx
      have hstep := History.Run.snoc hrun (.effect ht (hanswer π.state e))
      obtain ⟨es', π', hrun', hs'⟩ := ih _ hstep (Pool.put_self ..) hx
      rw [← List.singleton_append, ← List.append_assoc] at hrun'
      exact ⟨_, π', hrun', hs'⟩
    | pending =>
      intro es π _ _ hx
      cases hx
  obtain ⟨es', π', hrun, hs'⟩ :=
    hrest (code task) (History.Run.snoc h (.start 0 hs)) (Pool.put_self ..) hx
  rw [← List.singleton_append, ← List.append_assoc] at hrun
  exact ⟨_, π', hrun, hs'⟩

end Run

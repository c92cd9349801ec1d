/-
Programs that take a lock before they touch what it protects.

An effect of `Locking E` is one of `E`, or the wait for the one lock.  A program that holds
the lock keeps it until its future is dropped: after it has returned, or when it is
cancelled between two effects or inside of one.

* `Meets` — every effect of a program satisfies a condition while the answers satisfy
  another; `Meets.safe` makes a rely/guarantee judgement of it, with an invariant that such
  effects keep;
* `LockRun` — any number of programs, interleaved with each other and with other events;
* `LockPool.Step.good` — one event keeps the invariant of the lock, and the holder safe;
* `LockRun.good` — so does every interleaving;
* `LockRun.relates` — **what others and every effect do to the state, a whole run does**.
-/
import QuipDashboard.Program

/-- The effects of a program that may wait for the lock. -/
inductive Locking (E : Type → Type 1) : Type → Type 1
  | lock : Locking E Unit
  | perform {β : Type} (e : E β) : Locking E β

namespace Program

variable {E : Type → Type 1} {ε ε' α β : Type} {σ : Type*}

/-- Wait for the lock. -/
def lock : Program (Locking E) ε Unit := await .lock

/-- A part of a program that runs under the lock. -/
def held : Program E ε α → Program (Locking E) ε α
  | done a => done a
  | fail e => fail e
  | call e next => call (.perform e) fun b => (next b).held
  | pending => pending

/-! ### Conditions on effects -/

/-- While effects are answered as `A` allows, every effect satisfies `C`, and the result
satisfies `Q`. -/
def Meets (A : {γ : Type} → E γ → γ → Prop) (C : {γ : Type} → E γ → Prop) (Q : α → Prop) :
    Program E ε α → Prop
  | done a => Q a
  | fail _ => True
  | call e next => C e ∧ ∀ b, A e b → Meets A C Q (next b)
  | pending => True

namespace Meets

variable {A : {γ : Type} → E γ → γ → Prop} {C : {γ : Type} → E γ → Prop}

theorem bind {P : α → Prop} {Q : β → Prop} {p : Program E ε α} {f : α → Program E ε β}
    (hp : p.Meets A C P) (hf : ∀ a, P a → (f a).Meets A C Q) : (p >>= f).Meets A C Q := by
  show (p.bind f).Meets A C Q
  induction p with
  | done a => exact hf a hp
  | fail e => trivial
  | call e next ih => exact ⟨hp.1, fun b hb => ih b (hp.2 b hb)⟩
  | pending => trivial

/-- An effect that may fail. -/
theorem awaitOk {P : α → Prop} {wrap : ε' → ε} {e : E (Except ε' α)} (hC : C e)
    (hA : ∀ a, A e (.ok a) → P a) : (Program.awaitOk wrap e).Meets A C P := by
  refine ⟨hC, fun b hb => ?_⟩
  cases b with
  | ok a => exact hA a hb
  | error e' => trivial

/-- A check without an effect. -/
theorem ofExcept {P : α → Prop} {r : Except ε α} (h : ∀ a, r = .ok a → P a) :
    (Program.ofExcept r).Meets A C P := by
  cases r with
  | ok a => exact h a rfl
  | error e => trivial

theorem ite {P : α → Prop} {c : Prop} [Decidable c] {p q : Program E ε α}
    (hp : c → p.Meets A C P) (hq : ¬c → q.Meets A C P) :
    (if c then p else q).Meets A C P := by
  split
  · exact hp ‹c›
  · exact hq ‹¬c›

/-- **An invariant that effects of `C` keep makes their program safe.** -/
theorem safe {H G : {γ : Type} → σ → E γ → γ → σ → Prop} {R : σ → σ → Prop} {J : σ → Prop}
    (hR : ∀ {s s'}, J s → R s s' → J s')
    (hA : ∀ {γ : Type} {s : σ} {e : E γ} {b s'}, H s e b s' → A e b)
    (hG : ∀ {γ : Type} {s : σ} {e : E γ} {b s'}, J s → C e → H s e b s' → G s e b s' ∧ J s')
    {P : α → Prop} {p : Program E ε α} (h : p.Meets A C P) {s : σ} (hs : J s) :
    p.Safe H R G (fun _ _ => True) s := by
  induction p generalizing s with
  | done | fail | pending => trivial
  | call e next ih =>
    intro s₁ hs₁ b s₂ hb
    obtain ⟨hg, hJ⟩ := hG (hR hs hs₁) h.1 hb
    exact ⟨hg, ih b (h.2 b (hA hb)) hJ⟩

end Meets

/-! ### Inside and outside of the lock -/

/-- What the effects of the holder may do: it does not get the lock a second time. -/
def Under (H : {γ : Type} → σ → E γ → γ → σ → Prop) :
    {γ : Type} → σ → Locking E γ → γ → σ → Prop
  | _, _, .lock, _, _ => False
  | _, s, .perform e, b, s' => H s e b s'

theorem Safe.held {H G : {γ : Type} → σ → E γ → γ → σ → Prop} {R : σ → σ → Prop}
    {Q : Except ε α → σ → Prop} {p : Program E ε α} {s : σ} (h : p.Safe H R G Q s) :
    p.held.Safe (Under H) R (Under G) Q s := by
  induction p generalizing s with
  | done | fail => exact h
  | call e next ih =>
    intro s₁ hs b s₂ hb
    exact ⟨(h s₁ hs b s₂ hb).1, ih b (h s₁ hs b s₂ hb).2⟩
  | pending => trivial

/-- A program without the lock: what it does others may do, and once it gets the lock in a
state of `I` it is safe. -/
def Outside (I : σ → Prop) (H : {γ : Type} → σ → E γ → γ → σ → Prop) (R : σ → σ → Prop)
    (G : {γ : Type} → σ → E γ → γ → σ → Prop) : Program (Locking E) ε α → Prop
  | done _ => True
  | fail _ => True
  | call .lock next => ∀ s, I s → (next ()).Safe (Under H) R (Under G) (fun _ _ => True) s
  | call (.perform e) next => ∀ s b s', I s → H s e b s' →
      R s s' ∧ G s e b s' ∧ Outside I H R G (next b)
  | pending => True

/-- A program that takes the lock first. -/
theorem Outside.of_lock {I : σ → Prop} {H G : {γ : Type} → σ → E γ → γ → σ → Prop}
    {R : σ → σ → Prop} {p : Program E ε α}
    (h : ∀ s, I s → p.Safe H R G (fun _ _ => True) s) :
    Outside I H R G (Program.lock >>= fun _ => p.held) :=
  fun s hs => (h s hs).held

end Program

/-! ### Many programs and one lock -/

/-- A pool, and which of its programs holds the lock. -/
structure LockPool (E : Type → Type 1) (ε σ τ : Type) : Type 1 extends
    Pool (Locking E) ε σ τ where
  holder : Option ℕ

namespace LockPool

variable {E : Type → Type 1} {ε σ τ κ : Type}

/-- Drop a future, and with it the lock if it holds it. -/
def dropped (π : LockPool E ε σ τ) (t : ℕ) : LockPool E ε σ τ :=
  ⟨π.toPool.put t none, if π.holder = some t then none else π.holder⟩

/-- One event: a task is started, gets the free lock, awaits an effect, is dropped before one
or inside of one, or something else changes the state. -/
inductive Step (H : {γ : Type} → σ → E γ → γ → σ → Prop) (Starts : σ → τ → Prop)
    (code : τ → Program (Locking E) ε Unit) (Other : σ → κ → σ → Prop) :
    LockPool E ε σ τ → PoolEvent (Locking E) σ τ κ → LockPool E ε σ τ → Prop
  | start {π : LockPool E ε σ τ} {t : ℕ} {task : τ} (ht : π.threads t = none)
      (h : Starts π.state task) : Step H Starts code Other π (.started t task)
        { π with toPool := π.toPool.put t (some (task, code task)) }
  | lock {π : LockPool E ε σ τ} {t : ℕ} {task : τ} {next : Unit → Program (Locking E) ε Unit}
      (ht : π.threads t = some (task, .call .lock next)) (h : π.holder = none) :
      Step H Starts code Other π (.effect task π.state .lock () π.state)
        ⟨π.toPool.put t (some (task, next ())), some t⟩
  | effect {π : LockPool E ε σ τ} {t : ℕ} {task : τ} {β : Type} {e : E β}
      {next : β → Program (Locking E) ε Unit} {b : β} {s : σ}
      (ht : π.threads t = some (task, .call (.perform e) next)) (h : H π.state e b s) :
      Step H Starts code Other π (.effect task π.state (.perform e) b s)
        { π with toPool := { π.toPool with state := s }.put t (some (task, next b)) }
  | interrupted {π : LockPool E ε σ τ} {t : ℕ} {task : τ} {β : Type} {e : E β}
      {next : β → Program (Locking E) ε Unit} {b : β} {s : σ}
      (ht : π.threads t = some (task, .call (.perform e) next)) (h : H π.state e b s) :
      Step H Starts code Other π (.effect task π.state (.perform e) b s)
        ({ π with state := s }.dropped t)
  | drop {π : LockPool E ε σ τ} (t : ℕ) :
      Step H Starts code Other π (.dropped t) (π.dropped t)
  | other {π : LockPool E ε σ τ} {ev : κ} {s : σ} (h : Other π.state ev s) :
      Step H Starts code Other π (.other ev) { π with state := s }

end LockPool

section Run

variable {E : Type → Type 1} {ε σ τ κ : Type}
  {H : {γ : Type} → σ → E γ → γ → σ → Prop} {Starts : σ → τ → Prop}
  {code : τ → Program (Locking E) ε Unit} {Other : σ → κ → σ → Prop}
  {I : σ → Prop} {R : σ → σ → Prop} {G : τ → {γ : Type} → σ → E γ → γ → σ → Prop}

/-- An interleaving of programs that share one lock. -/
def LockRun (H : {γ : Type} → σ → E γ → γ → σ → Prop) (Starts : σ → τ → Prop)
    (code : τ → Program (Locking E) ε Unit) (Other : σ → κ → σ → Prop) :
    LockPool E ε σ τ → List (PoolEvent (Locking E) σ τ κ) → LockPool E ε σ τ → Prop :=
  History.Run (LockPool.Step H Starts code Other)

/-- A pool without programs. -/
def LockPool.idle (s : σ) : LockPool E ε σ τ := ⟨⟨s, fun _ => none⟩, none⟩

/-- What a lock is held for: others keep its invariant `I`, every effect under it ends in
`I`, and every program takes it before it does what others may not. -/
structure LockDiscipline (I : σ → Prop) (H : {γ : Type} → σ → E γ → γ → σ → Prop)
    (R : σ → σ → Prop) (G : τ → {γ : Type} → σ → E γ → γ → σ → Prop) (Starts : σ → τ → Prop)
    (code : τ → Program (Locking E) ε Unit) (Other : σ → κ → σ → Prop) : Prop where
  refl : ∀ s, R s s
  trans : ∀ {a b c}, R a b → R b c → R a c
  stable : ∀ {s s'}, I s → R s s' → I s'
  keeps : ∀ {task} {γ : Type} {s : σ} {e : E γ} {b s'}, G task s e b s' → I s'
  other : ∀ {s ev s'}, Other s ev s' → R s s'
  outside : ∀ s task, Starts s task → (code task).Outside I H R (G task)

/-- The invariant holds, the holder of the lock is safe where it stands, and so is every
other program once it gets the lock. -/
structure LockPool.Good (I : σ → Prop) (H : {γ : Type} → σ → E γ → γ → σ → Prop)
    (R : σ → σ → Prop) (G : τ → {γ : Type} → σ → E γ → γ → σ → Prop)
    (π : LockPool E ε σ τ) : Prop where
  inv : I π.state
  occupied : ∀ t, π.holder = some t → π.threads t ≠ none
  inside : ∀ t task p, π.threads t = some (task, p) → π.holder = some t →
    p.Safe (Program.Under H) R (Program.Under (G task)) (fun _ _ => True) π.state
  outside : ∀ t task p, π.threads t = some (task, p) → π.holder ≠ some t →
    p.Outside I H R (G task)

namespace LockPool

theorem Good.idle {s : σ} (hs : I s) : (idle s : LockPool E ε σ τ).Good I H R G where
  inv := hs
  occupied := fun _ h => by cases h
  inside := fun _ _ _ h => by cases h
  outside := fun _ _ _ h => by cases h

/-- The rely of the holder holds of a step that it does not take itself. -/
theorem Good.inside_of (htrans : ∀ {a b c}, R a b → R b c → R a c) {π : LockPool E ε σ τ}
    (h : π.Good I H R G) {s : σ} {t : ℕ} {task : τ} {p : Program (Locking E) ε Unit}
    (ht : π.threads t = some (task, p)) (hholder : π.holder = some t) (hR : R π.state s) :
    p.Safe (Program.Under H) R (Program.Under (G task)) (fun _ _ => True) s :=
  (h.inside t task p ht hholder).stable (R := R) htrans (fun _ _ => trivial) hR

/-- One program goes on, and the others stay where they are. -/
theorem Good.moved (htrans : ∀ {a b c}, R a b → R b c → R a c) {π : LockPool E ε σ τ}
    (h : π.Good I H R G) {s : σ} (hs : I s) {t : ℕ} {task : τ} {p : Program (Locking E) ε Unit}
    (hR : π.holder ≠ some t → R π.state s)
    (hin : π.holder = some t →
      p.Safe (Program.Under H) R (Program.Under (G task)) (fun _ _ => True) s)
    (hout : π.holder ≠ some t → p.Outside I H R (G task)) :
    { π with toPool := { π.toPool with state := s }.put t (some (task, p)) }.Good I H R G where
  inv := hs
  occupied := by
    intro u hu hnone
    simp only [Pool.put] at hnone
    split at hnone
    · cases hnone
    · exact h.occupied u hu hnone
  inside := by
    intro u task' q hu hholder
    simp only [Pool.put] at hu
    split at hu
    · rename_i hut
      subst hut
      cases hu
      exact hin hholder
    · rename_i hut
      refine h.inside_of (R := R) htrans hu hholder (hR fun ht => hut ?_)
      exact Option.some.inj (hholder.symm.trans ht)
  outside := by
    intro u task' q hu hholder
    simp only [Pool.put] at hu
    split at hu
    · rename_i hut
      subst hut
      cases hu
      exact hout hholder
    · exact h.outside u task' q hu hholder

/-- A program is dropped after a step. -/
theorem Good.dropped (htrans : ∀ {a b c}, R a b → R b c → R a c) {π : LockPool E ε σ τ}
    (h : π.Good I H R G) {s : σ} (hs : I s) {t : ℕ} (hR : π.holder ≠ some t → R π.state s) :
    ({ π with state := s }.dropped t).Good I H R G := by
  have hfree : ∀ u, (if π.holder = some t then none else π.holder) = some u →
      π.holder = some u ∧ π.holder ≠ some t := by
    intro u hu
    split at hu
    · cases hu
    · exact ⟨hu, ‹_›⟩
  refine ⟨hs, ?_, ?_, ?_⟩
  · intro u hu hnone
    obtain ⟨hu, hne⟩ := hfree u hu
    have hut : u ≠ t := fun hut => hne (hut ▸ hu)
    simp only [LockPool.dropped, Pool.put, if_neg hut] at hnone
    exact h.occupied u hu hnone
  · intro u task p hp hu
    obtain ⟨hu, hne⟩ := hfree u hu
    have hut : u ≠ t := fun hut => hne (hut ▸ hu)
    simp only [LockPool.dropped, Pool.put, if_neg hut] at hp
    exact h.inside_of (R := R) htrans hp hu (hR hne)
  · intro u task p hp hu
    by_cases hut : u = t
    · simp only [LockPool.dropped, Pool.put, if_pos hut] at hp
      cases hp
    · simp only [LockPool.dropped, Pool.put, if_neg hut] at hp
      refine h.outside u task p hp fun hholder => hu ?_
      have hne : π.holder ≠ some t := fun ht => hut (Option.some.inj (hholder.symm.trans ht))
      exact (if_neg hne).trans hholder

/-- **One event keeps the programs good, and an effect satisfies its guarantee.** -/
theorem Step.good (d : LockDiscipline I H R G Starts code Other)
    {π π' : LockPool E ε σ τ} {ev : PoolEvent (Locking E) σ τ κ} (h : π.Good I H R G)
    (hstep : Step H Starts code Other π ev π') :
    π'.Good I H R G ∧ (R π.state π'.state ∨ ∃ task, ∃ (β : Type) (e : E β) (b : β),
      ev = .effect task π.state (.perform e) b π'.state ∧ G task π.state e b π'.state) := by
  -- an effect is one of the holder, or one that others may do
  have heffect : ∀ {t : ℕ} {task : τ} {β : Type} {e : E β}
      {next : β → Program (Locking E) ε Unit} {b : β} {s : σ},
      π.threads t = some (task, .call (.perform e) next) → H π.state e b s →
      G task π.state e b s ∧ (π.holder ≠ some t → R π.state s) ∧
        (π.holder = some t → (next b).Safe (Program.Under H) R (Program.Under (G task))
          (fun _ _ => True) s) ∧
        (π.holder ≠ some t → (next b).Outside I H R (G task)) := by
    intro t task β e next b s ht hs
    by_cases hholder : π.holder = some t
    · obtain ⟨hg, hnext⟩ := h.inside t task _ ht hholder π.state (d.refl _) b s hs
      exact ⟨hg, fun hne => absurd hholder hne, fun _ => hnext, fun hne => absurd hholder hne⟩
    · obtain ⟨hr, hg, hnext⟩ := h.outside t task _ ht hholder π.state b s h.inv hs
      exact ⟨hg, fun _ => hr, fun hyes => absurd hyes hholder, fun _ => hnext⟩
  cases hstep with
  | @start t task ht hs =>
    have hne : π.holder ≠ some t := fun hyes => h.occupied t hyes ht
    exact ⟨h.moved (R := R) d.trans h.inv (fun _ => d.refl _) (fun hyes => absurd hyes hne)
      fun _ => d.outside _ _ hs, .inl (d.refl _)⟩
  | @lock t task next ht hfree =>
    have hwaits : ∀ s, I s → (next ()).Safe (Program.Under H) R (Program.Under (G task))
        (fun _ _ => True) s := h.outside t task _ ht (by rw [hfree]; exact nofun)
    refine ⟨⟨h.inv, ?_, ?_, ?_⟩, .inl (d.refl _)⟩
    · rintro u ⟨rfl⟩ hnone
      rw [Pool.put_self] at hnone
      cases hnone
    · rintro u task' p hu ⟨rfl⟩
      rw [Pool.put_self] at hu
      cases hu
      exact hwaits _ h.inv
    · intro u task' p hu hne
      have hut : u ≠ t := fun hut => hne (hut ▸ rfl)
      simp only [Pool.put, if_neg hut] at hu
      exact h.outside u task' p hu (by rw [hfree]; exact nofun)
  | effect ht hs =>
    obtain ⟨hg, hr, hin, hout⟩ := heffect ht hs
    exact ⟨h.moved (R := R) d.trans (d.keeps hg) hr hin hout, .inr ⟨_, _, _, _, rfl, hg⟩⟩
  | interrupted ht hs =>
    obtain ⟨hg, hr, -, -⟩ := heffect ht hs
    exact ⟨h.dropped (R := R) d.trans (d.keeps hg) hr, .inr ⟨_, _, _, _, rfl, hg⟩⟩
  | drop t => exact ⟨h.dropped (R := R) d.trans h.inv fun _ => d.refl _, .inl (d.refl _)⟩
  | other hs =>
    have hr := d.other hs
    exact ⟨⟨d.stable h.inv hr, h.occupied, fun t task p ht hu => h.inside_of (R := R) d.trans ht hu hr,
      h.outside⟩, .inl hr⟩

end LockPool

/-- **In every interleaving the programs stay good.** -/
theorem LockRun.good (d : LockDiscipline I H R G Starts code Other)
    {π₀ π : LockPool E ε σ τ} (h₀ : π₀.Good I H R G)
    {es : List (PoolEvent (Locking E) σ τ κ)} (h : LockRun H Starts code Other π₀ es π) :
    π.Good I H R G :=
  History.Run.invariant h₀
    (fun hπ hs => (hs.good d hπ).1) h

/-- **What others and every effect do to the state, a whole run does.** -/
theorem LockRun.relates (d : LockDiscipline I H R G Starts code Other)
    {P : σ → σ → Prop} (hP : ∀ s, P s s) (hPtrans : ∀ {a b c}, P a b → P b c → P a c)
    (hRP : ∀ {s s'}, R s s' → P s s')
    (hGP : ∀ {task} {γ : Type} {s : σ} {e : E γ} {b s'}, G task s e b s' → P s s')
    {π₀ π : LockPool E ε σ τ} (h₀ : π₀.Good I H R G)
    {es : List (PoolEvent (Locking E) σ τ κ)} (h : LockRun H Starts code Other π₀ es π) :
    P π₀.state π.state := by
  induction h with
  | nil => exact hP _
  | snoc hrun hs ih =>
    have hgood := LockRun.good d h₀ hrun
    rcases (hs.good d hgood).2 with hr | ⟨_, _, _, _, -, hg⟩
    · exact hPtrans ih (hRP hr)
    · exact hPtrans ih (hGP hg)

/-- **A program that takes the lock runs to its end when nothing stops it**, and gives the
lock back. -/
theorem LockRun.alone {answer : {γ : Type} → E γ → σ → γ × σ}
    (hanswer : ∀ {γ : Type} (s : σ) (e : E γ), H s e (answer e s).1 (answer e s).2)
    {π : LockPool E ε σ τ} (hfree : π.holder = none) {t : ℕ} (ht : π.threads t = none) {task : τ}
    (hs : Starts π.state task) {p : Program E ε Unit}
    (hcode : code task = Program.lock >>= fun _ => p.held) {r : Except ε Unit} {s : σ}
    (hx : p.exec answer π.state = some (r, s)) :
    ∃ es π', LockRun H Starts code Other π es π' ∧ π'.state = s ∧ π'.holder = none ∧
      π'.threads t = none := by
  -- the rest of the program, under the lock
  have hrest : ∀ (p : Program E ε Unit) {π : LockPool E ε σ τ}, π.holder = some t →
      π.threads t = some (task, p.held) → p.exec answer π.state = some (r, s) →
      ∃ es π', LockRun H Starts code Other π es π' ∧ π'.state = s ∧ π'.holder = none ∧
        π'.threads t = none := by
    intro p
    induction p with
    | done | fail =>
      intro π hholder _ hx
      cases hx
      exact ⟨_, π.dropped t, .snoc .nil (.drop t), rfl, if_pos hholder, Pool.put_self ..⟩
    | call e next ih =>
      intro π hholder ht hx
      have hstep : LockPool.Step H Starts code Other π _ _ := .effect ht (hanswer π.state e)
      obtain ⟨es, π', hrun, hend⟩ := ih _
        (π := ⟨Pool.put ⟨(answer e π.state).2, π.threads⟩ t
          (some (task, (next (answer e π.state).1).held)), π.holder⟩)
        hholder (Pool.put_self ..) hx
      exact ⟨_, π', History.Run.append (.snoc .nil hstep) hrun, hend⟩
    | pending =>
      intro π _ _ hx
      cases hx
  have hstart : LockPool.Step H Starts code Other π _ _ := .start ht hs
  have hput : (π.toPool.put t (some (task, code task))).threads t =
      some (task, .call .lock fun _ => p.held) := by
    rw [Pool.put_self, hcode]
    rfl
  have hlock : LockPool.Step H Starts code Other
      { π with toPool := π.toPool.put t (some (task, code task)) } _ _ := .lock hput hfree
  obtain ⟨es, π', hrun, hend⟩ := hrest p (π := ⟨(π.toPool.put t (some (task, code task))).put t
    (some (task, p.held)), some t⟩) rfl (Pool.put_self ..) hx
  exact ⟨_, π', History.Run.append (.snoc (.snoc .nil hstart) hlock) hrun, hend⟩

end Run

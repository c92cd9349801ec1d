/-
Programs with a record of their effects.

A program that is under way among others leaves a record: each of its effects with the
state before, the answer and the state after, latest first.

* `Emits` — every effect of a program satisfies `P`, whatever the state; `Emits.safe`
  turns it into rely/guarantee for any invariant that nothing breaks;
* `Underway` — a run of one program while others change the state;
* `Underway.guarantee` — **each effect of a run satisfies its guarantee, which may speak
  of the effects before it**;
* `PoolRun.emits` — **what is answered in a good state leads to effects that keep it good**,
  in every interleaving.
-/
import QuipDashboard.Program

/-- One effect, as it took place. -/
structure Occurrence (E : Type → Type 1) (σ : Type) : Type 1 where
  {β : Type}
  effect : E β
  pre : σ
  answer : β
  post : σ

namespace Program

variable {E : Type → Type 1} {ε ε' α β σ : Type}

/-! ### Effects in any state -/

/-- Every effect of a program satisfies `P` and its result `Q`, when `A` is what effects
may answer. -/
def Emits (A : {γ : Type} → E γ → γ → Prop) (P : {γ : Type} → E γ → Prop)
    (Q : Except ε α → Prop) (p : Program E ε α) : Prop :=
  p.Safe (fun (_ : Unit) e b _ => A e b) (fun _ _ => True) (fun _ e _ _ => P e)
    (fun r _ => Q r) ()

namespace Emits

variable {A : {γ : Type} → E γ → γ → Prop} {P : {γ : Type} → E γ → Prop}

theorem imp {Q Q' : Except ε α → Prop} (hQ : ∀ r, Q r → Q' r) {p : Program E ε α}
    (h : p.Emits A P Q) : p.Emits A P Q' :=
  Safe.imp (fun r _ => hQ r) h

theorem done {Q : Except ε α → Prop} {a : α} (h : Q (.ok a)) :
    (pure a : Program E ε α).Emits A P Q := h

theorem bind {Q : Except ε β → Prop} {f : α → Program E ε β} {p : Program E ε α}
    (h : p.Emits A P fun
      | .ok a => (f a).Emits A P Q
      | .error e => Q (.error e)) : (p >>= f).Emits A P Q := by
  refine Safe.bind (Safe.imp ?_ h)
  rintro (e | a) ⟨⟩ hr
  · exact hr
  · exact hr

/-- An effect, and what follows each of its answers. -/
theorem await {Q : Except ε β → Prop} {e : E α} {f : α → Program E ε β} (he : P e)
    (h : ∀ a, A e a → (f a).Emits A P Q) : (Program.await e >>= f).Emits A P Q :=
  fun _ _ a _ ha => ⟨he, h a ha⟩

/-- An effect that may fail, and what follows its value. -/
theorem awaitOk {Q : Except ε β → Prop} {wrap : ε' → ε} {e : E (Except ε' α)}
    {f : α → Program E ε β} (he : P e) (hok : ∀ a, A e (.ok a) → (f a).Emits A P Q)
    (herr : ∀ e', Q (.error (wrap e'))) : (Program.awaitOk wrap e >>= f).Emits A P Q :=
  Safe.awaitOk (fun _ _ _ _ _ => he) (fun _ _ a _ ha => hok a ha) fun _ _ e' _ _ => herr e'

theorem ofExcept {Q : Except ε β → Prop} {r : Except ε α} {f : α → Program E ε β}
    (hok : ∀ a, r = .ok a → (f a).Emits A P Q) (herr : ∀ e, r = .error e → Q (.error e)) :
    (Program.ofExcept r >>= f).Emits A P Q :=
  Safe.ofExcept hok herr

theorem ite {Q : Except ε α → Prop} {c : Prop} [Decidable c] {p q : Program E ε α}
    (hp : c → p.Emits A P Q) (hq : ¬c → q.Emits A P Q) :
    (if c then p else q).Emits A P Q :=
  Safe.ite hp hq

theorem attempt {Q : Except ε' (Except ε α) → Prop} {p : Program E ε α}
    (h : p.Emits A P fun r => Q (.ok r)) : p.attempt.Emits A P Q :=
  Safe.attempt h

/-- **Effects that satisfy `P` in any state are safe** under every invariant that
neither they nor the others break. -/
theorem safe {τ : Type*} {H G : {γ : Type} → τ → E γ → γ → τ → Prop} {R : τ → τ → Prop}
    {I : τ → Prop} (hA : ∀ {γ : Type} {s s' : τ} {e : E γ} {b}, H s e b s' → A e b)
    (hR : ∀ {s s'}, I s → R s s' → I s')
    (hH : ∀ {γ : Type} {s s' : τ} {e : E γ} {b}, I s → P e → H s e b s' → I s')
    (hG : ∀ {γ : Type} {s s' : τ} {e : E γ} {b}, I s → P e → H s e b s' → G s e b s')
    {Q : Except ε α → Prop} {p : Program E ε α} (h : p.Emits A P Q) {s : τ} (hs : I s) :
    p.Safe H R G (fun r t => Q r ∧ I t) s := by
  induction p generalizing s with
  | done a => exact ⟨h, hs⟩
  | fail e => exact ⟨h, hs⟩
  | call e next ih =>
    intro s₁ hs₁ b s₂ hb
    have hI := hR hs hs₁
    obtain ⟨hP, hnext⟩ := h () trivial b () (hA hb)
    exact ⟨hG hI hP hb, ih b hnext (hH hI hP hb)⟩
  | pending => trivial

end Emits

/-! ### Runs among others -/

section

variable (H : {γ : Type} → σ → E γ → γ → σ → Prop) (R : σ → σ → Prop)

/-- An effect, and its place in the record. -/
def recorded {γ : Type} (t : σ × List (Occurrence E σ)) (e : E γ) (b : γ)
    (t' : σ × List (Occurrence E σ)) : Prop :=
  H t.1 e b t'.1 ∧ t'.2 = ⟨e, t.1, b, t'.1⟩ :: t.2

/-- What others do leaves the record alone. -/
def unrecorded (t t' : σ × List (Occurrence E σ)) : Prop := R t.1 t'.1 ∧ t'.2 = t.2

/-- A program under way: its effects up to now, what is left of it, and the state. -/
inductive Underway (p : Program E ε α) (s₀ : σ) :
    List (Occurrence E σ) → Program E ε α → σ → Prop
  | start : Underway p s₀ [] p s₀
  | effect {os : List (Occurrence E σ)} {γ : Type} {e : E γ} {next : γ → Program E ε α}
      {s s₁ s₂ : σ} {b : γ} (h : Underway p s₀ os (.call e next) s) (hR : R s s₁)
      (hH : H s₁ e b s₂) : Underway p s₀ (⟨e, s₁, b, s₂⟩ :: os) (next b) s₂

variable {H R}

/-- **Each effect of a run satisfies its guarantee**, and what is left stays safe. -/
theorem Underway.guarantee {G : {γ : Type} → σ × List (Occurrence E σ) → E γ → γ →
      σ × List (Occurrence E σ) → Prop} {Q : Except ε α → σ × List (Occurrence E σ) → Prop}
    {p q : Program E ε α} {s₀ s : σ} {os : List (Occurrence E σ)}
    (hp : p.Safe (recorded H) (unrecorded R) G Q (s₀, [])) (h : Underway H R p s₀ os q s) :
    q.Safe (recorded H) (unrecorded R) G Q (s, os) ∧ ∀ after o before, os = after ++ o :: before →
      G (o.pre, before) o.effect o.answer (o.post, o :: before) := by
  induction h with
  | start => exact ⟨hp, fun after o before he => by simp at he⟩
  | @effect os γ e next s s₁ s₂ b h hR hH ih =>
    obtain ⟨hsafe, hall⟩ := ih
    obtain ⟨hG, hnext⟩ := hsafe (s₁, os) ⟨hR, rfl⟩ b (s₂, ⟨e, s₁, b, s₂⟩ :: os) ⟨hH, rfl⟩
    refine ⟨hnext, fun after o before he => ?_⟩
    rcases List.cons_eq_append_iff.mp he with ⟨rfl, he⟩ | ⟨after', rfl, he⟩
    · obtain ⟨rfl, rfl⟩ := List.cons.inj he
      exact hG
    · exact hall after' o before (List.cons.inj he).2

/-- A program that runs alone is under way among others that do nothing. -/
theorem Underway.exec {answer : {γ : Type} → E γ → σ → γ × σ}
    (hanswer : ∀ {γ : Type} (s : σ) (e : E γ), H s e (answer e s).1 (answer e s).2)
    (hrefl : ∀ s, R s s) {p q : Program E ε α} {s₀ s t : σ} {os : List (Occurrence E σ)}
    {r : Except ε α} (h : Underway H R p s₀ os q s) (hx : q.exec answer s = some (r, t)) :
    ∃ os' q', Underway H R p s₀ (os' ++ os) q' t := by
  induction q generalizing s os with
  | done a =>
    cases hx
    exact ⟨[], _, h⟩
  | fail e =>
    cases hx
    exact ⟨[], _, h⟩
  | call e next ih =>
    obtain ⟨os', q', h'⟩ := ih _ (h.effect (hrefl _) (hanswer s e)) hx
    rw [← List.singleton_append, ← List.append_assoc] at h'
    exact ⟨_, q', h'⟩
  | pending => cases hx

end

end Program

/-! ### Pools of programs that emit -/

section

variable {E : Type → Type 1} {ε σ τ κ : Type}
  {H : {γ : Type} → σ → E γ → γ → σ → Prop} {Starts : σ → τ → Prop}
  {code : τ → Program E ε Unit} {Other : σ → κ → σ → Prop} {s₀ : σ}
  {A : {γ : Type} → E γ → γ → Prop} {P : {γ : Type} → E γ → Prop}

/-- **In every interleaving the state stays good**, when a good state gives answers of `A`, such
answers lead to effects of `P`, and these keep it good. -/
theorem PoolRun.emits {I : σ → Prop} (h₀ : I s₀)
    (hA : ∀ {γ : Type} {s s' : σ} {e : E γ} {b}, I s → H s e b s' → A e b)
    (hP : ∀ {γ : Type} {s s' : σ} {e : E γ} {b}, I s → P e → H s e b s' → I s')
    (hOther : ∀ {s ev s'}, I s → Other s ev s' → I s')
    (hcode : ∀ s task, I s → Starts s task → (code task).Emits A P fun _ => True)
    {es : List (PoolEvent E σ τ κ)} {π : Pool E ε σ τ} (h : PoolRun H Starts code Other s₀ es π) :
    I π.state := by
  suffices hall : I π.state ∧ ∀ t task p, π.threads t = some (task, p) → p.Emits A P fun _ => True from hall.1
  -- a slot is filled with a program that emits, or is emptied
  have hput : ∀ {π : Pool E ε σ τ} {s : σ} {t : ℕ} {p : Option (τ × Program E ε Unit)}, I s →
      (∀ u task q, π.threads u = some (task, q) → q.Emits A P fun _ => True) →
      (∀ task q, p = some (task, q) → q.Emits A P fun _ => True) →
      I ({ π with state := s }.put t p).state ∧
        ∀ u task q, ({ π with state := s }.put t p).threads u = some (task, q) → q.Emits A P fun _ => True := by
    intro π s t p hs hall hp
    refine ⟨hs, fun u task q hu => ?_⟩
    simp only [Pool.put] at hu
    split at hu
    · exact hp task q hu
    · exact hall u task q hu
  induction h with
  | nil =>
    refine ⟨h₀, fun t task p ht => ?_⟩
    cases ht
  | @snoc es π π' ev _ hstep ih =>
    obtain ⟨hI, hall⟩ := ih
    cases hstep with
    | @start t task hs =>
      refine hput (π := π) hI hall fun task' q hq => ?_
      cases hq
      exact hcode _ _ hI hs
    | @effect t task β e next b s ht hH =>
      obtain ⟨he, hnext⟩ := hall t task _ ht () trivial b () (hA hI hH)
      refine hput (hP hI he hH) hall fun task' q hq => ?_
      cases hq
      exact hnext
    | @interrupted t task β e next b s ht hH =>
      obtain ⟨he, -⟩ := hall t task _ ht () trivial b () (hA hI hH)
      refine hput (hP hI he hH) hall fun task' q hq => ?_
      cases hq
    | drop t =>
      refine hput (π := π) hI hall fun task' q hq => ?_
      cases hq
    | other hs => exact ⟨hOther hI hs, hall⟩

end

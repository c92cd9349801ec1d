/-
A SQL engine whose statements may fail, and the programs of its clients.

A connection keeps what an open transaction did apart from what is committed.  Every
statement may fail with or without its effect, and an engine may give a transaction up when
one of its statements fails; a client that is stopped drops its connection.

* `Answers` — what each statement may answer, and what it leaves behind;
* `Keeps` — the judgement: **what is committed satisfies `I` after every statement of a
  program**, with one rule for each kind of statement;
* `ClientRuns.invariant` — what a program keeps is kept by any number of its runs, however
  they fail or are stopped.
-/
import QuipDashboard.Trace

namespace SqlEngine

variable {σ ε ε' α β : Type}

/-- What a statement may make of a database. -/
abbrev Statement (σ : Type) := σ → σ → Prop

/-- Statements one after another. -/
inductive Steps : List (Statement σ) → σ → σ → Prop
  | nil (d : σ) : Steps [] d d
  | cons {statement : Statement σ} {rest : List (Statement σ)} {d d₁ d₂ : σ}
      (h : statement d d₁) (hrest : Steps rest d₁ d₂) : Steps (statement :: rest) d d₂

theorem Steps.append {l l' : List (Statement σ)} {d d₁ d₂ : σ} (h : Steps l d d₁)
    (h' : Steps l' d₁ d₂) : Steps (l ++ l') d d₂ := by
  induction h with
  | nil => exact h'
  | cons hs _ ih => exact .cons hs (ih h')

theorem Steps.singleton {statement : Statement σ} {d d' : σ} (h : statement d d') :
    Steps [statement] d d' := .cons h (.nil d')

theorem Steps.of_singleton {statement : Statement σ} {d d' : σ} (h : Steps [statement] d d') :
    statement d d' := by
  cases h with
  | cons hs hrest =>
    cases hrest
    exact hs

/-- The effects of a client: a batch of statements, a query with the rows that it may answer,
and the statements that open and close a transaction. -/
inductive Sql (σ ε : Type) : Type → Type 1
  | batch (statements : List (Statement σ)) : Sql σ ε (Except ε Unit)
  | query {β : Type} (rows : σ → β → Prop) : Sql σ ε (Except ε β)
  | start : Sql σ ε (Except ε Unit)
  | commit : Sql σ ε (Except ε Unit)
  | rollback : Sql σ ε (Except ε Unit)

/-- What is committed, and what the open transaction of the connection made of it. -/
@[ext] structure Engine (σ : Type) where
  committed : σ
  working : Option σ

namespace Engine

/-- The database that the connection sees. -/
def view (s : Engine σ) : σ := s.working.getD s.committed

/-- A statement outside of a transaction is committed at once. -/
def set (s : Engine σ) (d : σ) : Engine σ :=
  match s.working with
  | some _ => ⟨s.committed, some d⟩
  | none => ⟨d, none⟩

/-- The transaction is given up, or its connection is gone. -/
def abort (s : Engine σ) : Engine σ := ⟨s.committed, none⟩

@[simp] theorem abort_committed (s : Engine σ) : s.abort.committed = s.committed := rfl

@[simp] theorem set_view (s : Engine σ) : s.set s.view = s := by
  obtain ⟨c, w⟩ := s
  cases w <;> rfl

/-- What a statement may answer, and what it leaves behind. -/
def Answers : {γ : Type} → Engine σ → Sql σ ε γ → γ → Engine σ → Prop
  | _, s, .batch statements, .ok _, s' => ∃ d, Steps statements s.view d ∧ s' = s.set d
  | _, s, .batch statements, .error _, s' => s' = s.abort ∨
      ∃ done d, done <+: statements ∧ Steps done s.view d ∧ s' = s.set d
  | _, s, .query rows, .ok b, s' => rows s.view b ∧ s' = s
  | _, s, .query _, .error _, s' => s' = s ∨ s' = s.abort
  | _, s, .start, .ok _, s' => s.working = none ∧ s' = ⟨s.committed, some s.committed⟩
  | _, s, .start, .error _, s' =>
      s' = s ∨ s.working = none ∧ s' = ⟨s.committed, some s.committed⟩
  | _, s, .commit, .ok _, s' => ∃ w, s.working = some w ∧ s' = ⟨w, none⟩
  | _, s, .commit, .error _, s' =>
      s' = s ∨ s' = s.abort ∨ ∃ w, s.working = some w ∧ s' = ⟨w, none⟩
  | _, s, .rollback, .ok _, s' => s' = s.abort
  | _, s, .rollback, .error _, s' => s' = s ∨ s' = s.abort

section

variable {s : Engine σ}

/-! ### Statements that succeed -/

theorem answers_start (h : s.working = none) :
    Answers s (.start : Sql σ ε _) (.ok ()) ⟨s.committed, some s.committed⟩ := ⟨h, rfl⟩

theorem answers_batch {statements : List (Statement σ)} {d : σ} (h : Steps statements s.view d) :
    Answers s (.batch statements : Sql σ ε _) (.ok ()) (s.set d) := ⟨d, h, rfl⟩

theorem answers_query {rows : σ → β → Prop} {b : β} (h : rows s.view b) :
    Answers s (.query rows : Sql σ ε _) (.ok b) s := ⟨h, rfl⟩

theorem answers_commit {w : σ} (h : s.working = some w) :
    Answers s (.commit : Sql σ ε _) (.ok ()) ⟨w, none⟩ := ⟨w, h, rfl⟩

end

end Engine

/-! ### What a program keeps -/

open Engine

/-- A program of a client. -/
abbrev Client (σ ε ε' α : Type) := Program (Sql σ ε) ε' α

/-- What is committed satisfies `I` after every statement of the program and at its end, and
what it returns satisfies `F`. -/
def Keeps (I : σ → Prop) (F : α → Engine σ → Prop) (p : Client σ ε ε' α) (s : Engine σ) : Prop :=
  p.Safe Answers (· = ·) (fun _ _ _ s' => I s'.committed)
    (fun r s' => I s'.committed ∧ ∀ a, r = .ok a → F a s') s

namespace Keeps

variable {I : σ → Prop} {F : β → Engine σ → Prop} {s : Engine σ} {c w : σ}
  {wrap : ε → ε'} {f : Unit → Client σ ε ε' β}

theorem pure {a : β} (hI : I s.committed) (ha : F a s) :
    Keeps I F (pure a : Client σ ε ε' β) s :=
  ⟨hI, fun _ hb => Except.ok.inj hb ▸ ha⟩

theorem fail {e : ε'} (hI : I s.committed) : Keeps I F (.fail e : Client σ ε ε' β) s :=
  ⟨hI, fun _ h => by cases h⟩

theorem imp {F' : β → Engine σ → Prop} {p : Client σ ε ε' β} (h : Keeps I F p s)
    (hF : ∀ a s', I s'.committed → F a s' → F' a s') : Keeps I F' p s :=
  Program.Safe.imp (fun _ s' hr => ⟨hr.1, fun a ha => hF a s' hr.1 (hr.2 a ha)⟩) h

/-- An effect whose answers keep `I`, and what follows its value. -/
theorem awaitOk {e : Sql σ ε (Except ε α)} {f : α → Client σ ε ε' β}
    (hI : ∀ a s', Answers s e a s' → I s'.committed)
    (hok : ∀ a s', Answers s e (.ok a) s' → Keeps I F (f a) s') :
    Keeps I F (Program.awaitOk wrap e >>= f) s := by
  refine Program.Safe.awaitOk ?_ ?_ ?_
  · rintro _ rfl a s' ha
    exact hI a s' ha
  · rintro _ rfl a s' ha
    exact hok a s' ha
  · rintro _ rfl e' s' he
    exact ⟨hI _ s' he, fun _ h => by cases h⟩

/-- `BEGIN` on a connection without a transaction. -/
theorem start (hI : I c) (hf : Keeps I F (f ()) ⟨c, some c⟩) :
    Keeps I F (Program.awaitOk wrap .start >>= f) ⟨c, none⟩ := by
  refine awaitOk (fun a s' ha => ?_) fun a s' ha => ?_
  · cases a with
    | ok _ =>
      obtain ⟨-, rfl⟩ := ha
      exact hI
    | error _ => rcases ha with rfl | ⟨-, rfl⟩ <;> exact hI
  · obtain ⟨-, rfl⟩ := ha
    exact hf

/-- A batch inside of a transaction. -/
theorem batch {statements : List (Statement σ)} (hI : I c)
    (hf : ∀ d, Steps statements w d → Keeps I F (f ()) ⟨c, some d⟩) :
    Keeps I F (Program.awaitOk wrap (.batch statements) >>= f) ⟨c, some w⟩ := by
  refine awaitOk (fun a s' ha => ?_) fun a s' ha => ?_
  · cases a with
    | ok _ =>
      obtain ⟨d, -, rfl⟩ := ha
      exact hI
    | error _ => rcases ha with rfl | ⟨_, _, -, -, rfl⟩ <;> exact hI
  · obtain ⟨d, hd, rfl⟩ := ha
    exact hf d hd

/-- A query. -/
theorem query {rows : σ → α → Prop} {f : α → Client σ ε ε' β} (hI : I s.committed)
    (hf : ∀ a, rows s.view a → Keeps I F (f a) s) :
    Keeps I F (Program.awaitOk wrap (.query rows) >>= f) s := by
  refine awaitOk (fun a s' ha => ?_) fun a s' ha => ?_
  · cases a with
    | ok _ =>
      obtain ⟨-, rfl⟩ := ha
      exact hI
    | error _ => rcases ha with rfl | rfl <;> exact hI
  · obtain ⟨hrows, rfl⟩ := ha
    exact hf a hrows

/-- `COMMIT` of a transaction. -/
theorem commit (hI : I c) (hw : I w) (hf : Keeps I F (f ()) ⟨w, none⟩) :
    Keeps I F (Program.awaitOk wrap .commit >>= f) ⟨c, some w⟩ := by
  refine awaitOk (fun a s' ha => ?_) fun a s' ha => ?_
  · cases a with
    | ok _ =>
      obtain ⟨d, hd, rfl⟩ := ha
      cases hd
      exact hw
    | error _ =>
      rcases ha with rfl | rfl | ⟨d, hd, rfl⟩
      · exact hI
      · exact hI
      · cases hd
        exact hw
  · obtain ⟨d, hd, rfl⟩ := ha
    cases hd
    exact hf

/-- `ROLLBACK`, whatever is open. -/
theorem rollback (hI : I s.committed) (hf : Keeps I F (f ()) s.abort) :
    Keeps I F (Program.awaitOk wrap .rollback >>= f) s := by
  refine awaitOk (fun a s' ha => ?_) fun a s' ha => ?_
  · cases a with
    | ok _ =>
      obtain rfl := ha
      exact hI
    | error _ => rcases ha with rfl | rfl <;> exact hI
  · obtain rfl := ha
    exact hf

/-- A batch that does nothing to the database. -/
theorem nothing (hI : I s.committed) (hf : Keeps I F (f ()) s) :
    Keeps I F (Program.awaitOk wrap (.batch []) >>= f) s := by
  have hset : ∀ {done : List (Statement σ)} {d : σ}, done <+: [] → Steps done s.view d →
      s.set d = s := by
    intro done d hdone hd
    obtain rfl := List.prefix_nil.mp hdone
    cases hd
    exact s.set_view
  refine awaitOk (fun a s' ha => ?_) fun a s' ha => ?_
  · cases a with
    | ok _ =>
      obtain ⟨d, hd, rfl⟩ := ha
      rwa [hset (List.prefix_refl _) hd]
    | error _ =>
      rcases ha with rfl | ⟨done, d, hdone, hd, rfl⟩
      · exact hI
      · rwa [hset hdone hd]
  · obtain ⟨d, hd, rfl⟩ := ha
    rwa [hset (List.prefix_refl _) hd]

/-- A program whose result is matched on. -/
theorem attempt {F : Except ε' α → Engine σ → Prop} {p : Client σ ε ε' α}
    (h : Keeps I (fun a s' => F (.ok a) s') p s) (herr : ∀ e s', I s'.committed → F (.error e) s') :
    Keeps I F (p.attempt : Client σ ε ε' _) s := by
  refine Program.Safe.attempt (Program.Safe.imp (fun r s' hr => ⟨hr.1, fun a ha => ?_⟩) h)
  obtain rfl := Except.ok.inj ha
  cases r with
  | ok a => exact hr.2 a rfl
  | error e => exact herr e s' hr.1

theorem bind {G : α → Engine σ → Prop} {p : Client σ ε ε' α} {f : α → Client σ ε ε' β}
    (h : Keeps I G p s) (hf : ∀ a s', I s'.committed → G a s' → Keeps I F (f a) s') :
    Keeps I F (p >>= f) s := by
  refine Program.Safe.bind (Program.Safe.imp (fun r s' hr => ?_) h)
  cases r with
  | ok a => exact hf a s' hr.1 (hr.2 a rfl)
  | error e => exact ⟨hr.1, fun _ h => by cases h⟩

/-- A run that stopped or ended, of a program that keeps `I`. -/
theorem trace {p : Client σ ε ε' β} (h : Keeps I F p s) (hI : I s.committed)
    {es : List (Performed (Sql σ ε))} {t : Engine σ} {o : Option (Except ε' β)}
    (ht : Trace Answers p s es t o) : I t.committed ∧ ∀ a, o = some (.ok a) → F a t := by
  induction ht with
  | stopped => exact ⟨hI, fun _ h => by cases h⟩
  | done a s => exact ⟨hI, fun b hb => h.2 b (Option.some.inj hb)⟩
  | fail e s => exact ⟨hI, fun _ h => by cases h⟩
  | step hstep _ ih =>
    obtain ⟨hkept, hnext⟩ := h _ rfl _ _ hstep
    exact ih hnext hkept

end Keeps

/-! ### Runs -/

/-- Any number of runs of a program, each on a connection of its own; the last one may be
under way. -/
inductive ClientRuns (p : Client σ ε ε' β) (d : σ) : Engine σ → Prop
  | start : ClientRuns p d ⟨d, none⟩
  | run {s t : Engine σ} {es : List (Performed (Sql σ ε))} {o : Option (Except ε' β)}
      (h : ClientRuns p d s) (ht : Trace Answers p s.abort es t o) : ClientRuns p d t

/-- **What a program keeps is kept by all its runs**, however they fail or are stopped. -/
theorem ClientRuns.invariant {I : σ → Prop} {p : Client σ ε ε' β} {d : σ} (hd : I d)
    {F : β → Engine σ → Prop} (hp : ∀ c, I c → Keeps I F p ⟨c, none⟩) {s : Engine σ}
    (h : ClientRuns p d s) : I s.committed := by
  induction h with
  | start => exact hd
  | @run s t es o _ ht ih => exact ((hp s.committed ih).trace ih ht).1

end SqlEngine

/-
Transaction bodies as trees of statements.

A `Tx σ ε α` is what a client does between `BEGIN` and `COMMIT`: a tree of
statements on a database of type `σ`, each of which may fail with an error of
type `ε`, and whose answers choose the statements that follow.  Every statement
is a point at which the client may be stopped; `exec` is the run that is not
stopped.

* `exec_bind` — the uninterrupted run of a sequence;
* `write` — a body between `BEGIN` and `COMMIT`: its database is kept only when
  the body ends by committing;
* `Except.mapM_mem` — the results of a list, each of an element;
* `Reaches` — the databases that a run may have reached when it is stopped
  between two statements; `reaches_of_exec` puts the completed run among them.
-/
import Mathlib.Data.List.Forall2
import Mathlib.Tactic.Common

/-- A list of results has the result of each element. -/
theorem Except.forall₂_of_mapM {ε α β : Type} {f : α → Except ε β} {l : List α} {ys : List β}
    (h : l.mapM f = .ok ys) : List.Forall₂ (fun x y => f x = .ok y) l ys := by
  induction l generalizing ys with
  | nil =>
    cases h
    exact .nil
  | cons x l ih =>
    rw [List.mapM_cons] at h
    cases hx : f x with
    | error e => simp [hx, bind, Except.bind] at h
    | ok y =>
      cases hl : l.mapM f with
      | error e => simp [hx, hl, bind, Except.bind] at h
      | ok ys' =>
        simp only [hx, hl, bind, Except.bind, pure, Except.pure, Except.ok.injEq] at h
        subst h
        exact .cons hx (ih hl)

theorem Except.mapM_mem {ε α β : Type} {f : α → Except ε β} {l : List α} {ys : List β}
    (h : l.mapM f = .ok ys) :
    (∀ x ∈ l, ∃ y ∈ ys, f x = .ok y) ∧ ∀ y ∈ ys, ∃ x ∈ l, f x = .ok y := by
  have hall := forall₂_of_mapM h
  clear h
  induction hall with
  | nil => exact ⟨fun _ h => absurd h List.not_mem_nil, fun _ h => absurd h List.not_mem_nil⟩
  | @cons x y l ys hx _ ih =>
    obtain ⟨hto, hfrom⟩ := ih
    simp only [List.forall_mem_cons]
    refine ⟨⟨⟨y, List.mem_cons_self .., hx⟩, ?_⟩, ⟨x, List.mem_cons_self .., hx⟩, ?_⟩
    · intro z hz
      obtain ⟨w, hw, hzw⟩ := hto z hz
      exact ⟨w, List.mem_cons_of_mem _ hw, hzw⟩
    · intro w hw
      obtain ⟨z, hz, hzw⟩ := hfrom w hw
      exact ⟨z, List.mem_cons_of_mem _ hz, hzw⟩

theorem Except.mapM_eq_ok {ε α β : Type} {f : α → Except ε β} {g : α → β} {l : List α}
    (h : ∀ a ∈ l, f a = .ok (g a)) : l.mapM f = .ok (l.map g) := by
  induction l with
  | nil => rfl
  | cons a l ih =>
    rw [List.mapM_cons, h a (by simp), ih fun b hb => h b (by simp [hb])]
    rfl

/-- A transaction body: statements, early errors and a result. -/
inductive Tx (σ ε : Type) : Type → Type 1
  | done {α : Type} (a : α) : Tx σ ε α
  | fail {α : Type} (e : ε) : Tx σ ε α
  | stmt {α β : Type} (run : σ → Except ε (β × σ)) (next : β → Tx σ ε α) : Tx σ ε α

/-- How a body ends: with `COMMIT`, or by returning while the transaction is
still open, which drops it. -/
inductive Finish (α : Type) where
  | commit (a : α)
  | abandon (a : α)
  deriving DecidableEq

namespace Tx

variable {σ ε α β : Type}

/-- Sequencing. -/
def bind : Tx σ ε α → (α → Tx σ ε β) → Tx σ ε β
  | done a, f => f a
  | fail e, _ => fail e
  | stmt run next, f => stmt run fun b => (next b).bind f

instance : Monad (Tx σ ε) where
  pure := done
  bind := bind

/-- A statement that reads the database. -/
def read (f : σ → α) : Tx σ ε α := stmt (fun s => .ok (f s, s)) done

/-- A statement that reads a value the database may fail to decode. -/
def readM (f : σ → Except ε α) : Tx σ ε α := stmt (fun s => (f s).map (·, s)) done

/-- A statement that changes the database and returns the number of rows. -/
def update (f : σ → α × σ) : Tx σ ε α := stmt (fun s => .ok (f s)) done

/-- A check that needs no statement. -/
def ofExcept : Except ε α → Tx σ ε α
  | .ok a => done a
  | .error e => fail e

/-- The uninterrupted run of a body. -/
def exec : Tx σ ε α → σ → Except ε (α × σ)
  | done a, s => .ok (a, s)
  | fail e, _ => .error e
  | stmt run next, s =>
    match run s with
    | .ok (b, s') => (next b).exec s'
    | .error e => .error e

@[simp] theorem exec_pure (a : α) (s : σ) : exec (pure a : Tx σ ε α) s = .ok (a, s) := rfl

@[simp] theorem exec_done (a : α) (s : σ) : exec (done a : Tx σ ε α) s = .ok (a, s) := rfl

@[simp] theorem exec_fail (e : ε) (s : σ) : exec (fail e : Tx σ ε α) s = .error e := rfl

@[simp] theorem exec_read (f : σ → α) (s : σ) : exec (read f : Tx σ ε α) s = .ok (f s, s) := rfl

@[simp] theorem exec_update (f : σ → α × σ) (s : σ) :
    exec (update f : Tx σ ε α) s = .ok (f s) := rfl

@[simp] theorem exec_readM (f : σ → Except ε α) (s : σ) :
    exec (readM f) s = (f s).map (·, s) := by
  rw [readM, exec]
  cases f s <;> rfl

@[simp] theorem exec_ofExcept (r : Except ε α) (s : σ) :
    exec (ofExcept r : Tx σ ε α) s = r.map (·, s) := by
  cases r <;> rfl

theorem exec_bind (m : Tx σ ε α) (f : α → Tx σ ε β) (s : σ) :
    exec (m >>= f) s = (exec m s).bind fun p => exec (f p.1) p.2 := by
  show exec (m.bind f) s = _
  induction m generalizing s with
  | done a => rfl
  | fail e => rfl
  | stmt run next ih =>
    simp only [bind, exec]
    cases run s with
    | error e => rfl
    | ok p => exact ih p.1 p.2

/-- A sequence that succeeded ran its first part to its end. -/
theorem exec_bind_ok {m : Tx σ ε α} {f : α → Tx σ ε β} {s s' : σ} {b : β} :
    exec (m >>= f) s = .ok (b, s') ↔
      ∃ a t, exec m s = .ok (a, t) ∧ exec (f a) t = .ok (b, s') := by
  rw [exec_bind]
  cases exec m s with
  | error e => simp [Except.bind]
  | ok p =>
    simp only [Except.bind]
    constructor
    · intro h
      exact ⟨p.1, p.2, rfl, h⟩
    · rintro ⟨a, t, hp, h⟩
      cases hp
      exact h

@[simp] theorem exec_pure_bind (a : α) (f : α → Tx σ ε β) (s : σ) :
    exec (pure a >>= f) s = exec (f a) s := rfl

@[simp] theorem exec_fail_bind (e : ε) (f : α → Tx σ ε β) (s : σ) :
    exec (fail e >>= f) s = .error e := rfl

@[simp] theorem exec_read_bind (g : σ → α) (f : α → Tx σ ε β) (s : σ) :
    exec (read g >>= f) s = exec (f (g s)) s := rfl

@[simp] theorem exec_update_bind (g : σ → α × σ) (f : α → Tx σ ε β) (s : σ) :
    exec (update g >>= f) s = exec (f (g s).1) (g s).2 := rfl

/-- A read that succeeded, and what followed it. -/
theorem exec_readM_bind_ok {g : σ → Except ε α} {f : α → Tx σ ε β} {s : σ} {p : β × σ} :
    exec (readM g >>= f) s = .ok p ↔ ∃ a, g s = .ok a ∧ exec (f a) s = .ok p := by
  rw [exec_bind, exec_readM]
  cases g s <;> simp [Except.map, Except.bind]

/-- A check that succeeded, and what followed it. -/
theorem exec_ofExcept_bind_ok {r : Except ε α} {f : α → Tx σ ε β} {s : σ} {p : β × σ} :
    exec (ofExcept r >>= f) s = .ok p ↔ ∃ a, r = .ok a ∧ exec (f a) s = .ok p := by
  rw [exec_bind, exec_ofExcept]
  cases r <;> simp [Except.map, Except.bind]

@[simp] theorem exec_ite (c : Prop) [Decidable c] (m n : Tx σ ε α) (s : σ) :
    exec (if c then m else n) s = if c then exec m s else exec n s := by
  split <;> rfl

/-! ### Errors -/

/-- Every error that a body can end with satisfies `P`. -/
def Raises (P : ε → Prop) (m : Tx σ ε α) : Prop := ∀ s e, exec m s = .error e → P e

namespace Raises

variable {P : ε → Prop}

theorem bind {m : Tx σ ε α} {f : α → Tx σ ε β} (hm : Raises P m) (hf : ∀ a, Raises P (f a)) :
    Raises P (m >>= f) := by
  intro s e h
  rw [exec_bind] at h
  cases hx : exec m s with
  | error e' =>
    rw [hx] at h
    cases h
    exact hm s e hx
  | ok p =>
    rw [hx] at h
    exact hf p.1 p.2 e h

theorem pure (a : α) : Raises P (pure a : Tx σ ε α) := by
  intro s e h
  cases h

theorem read (f : σ → α) : Raises P (read f : Tx σ ε α) := by
  intro s e h
  cases h

theorem update (f : σ → α × σ) : Raises P (update f : Tx σ ε α) := by
  intro s e h
  cases h

theorem fail {e : ε} (h : P e) : Raises P (fail e : Tx σ ε α) := by
  intro s e' he
  cases he
  exact h

theorem readM {f : σ → Except ε α} (h : ∀ s e, f s = .error e → P e) : Raises P (readM f) := by
  intro s e he
  rw [exec_readM] at he
  cases hf : f s with
  | error e' =>
    rw [hf] at he
    cases he
    exact h s e hf
  | ok a =>
    rw [hf] at he
    cases he

theorem ofExcept {r : Except ε α} (h : ∀ e, r = .error e → P e) :
    Raises P (ofExcept r : Tx σ ε α) := by
  intro s e he
  cases r with
  | error e' =>
    cases he
    exact h e rfl
  | ok a => cases he

theorem ite {c : Prop} [Decidable c] {m n : Tx σ ε α} (hm : Raises P m) (hn : Raises P n) :
    Raises P (if c then m else n) := by
  split
  · exact hm
  · exact hn

end Raises

/-! ### A body between `BEGIN` and `COMMIT` -/

/-- The result that a body reports, and whether it asked for `COMMIT`. -/
def Finish.value : Finish α → α
  | .commit a => a
  | .abandon a => a

/-- Run a body in a transaction: its database is kept only when it commits. -/
def write (body : Tx σ ε (Finish α)) (s : σ) : Except ε α × σ :=
  match exec body s with
  | .ok (.commit a, s') => (.ok a, s')
  | .ok (.abandon a, _) => (.ok a, s)
  | .error e => (.error e, s)

/-- An operation that checks its input before it opens its transaction. -/
def request (check : Except ε β) (body : β → Tx σ ε (Finish α)) (s : σ) : Except ε α × σ :=
  match check with
  | .ok b => write (body b) s
  | .error e => (.error e, s)

theorem write_error {body : Tx σ ε (Finish α)} {s s' : σ} {e : ε}
    (h : write body s = (.error e, s')) : s' = s := by
  unfold write at h
  split at h <;> simp_all

theorem write_ok {body : Tx σ ε (Finish α)} {s s' : σ} {a : α} :
    write body s = (.ok a, s') ↔
      exec body s = .ok (.commit a, s') ∨ ((∃ t, exec body s = .ok (.abandon a, t)) ∧ s' = s) := by
  unfold write
  constructor
  · intro h
    split at h <;> rename_i he <;> cases h
    · exact .inl he
    · exact .inr ⟨⟨_, he⟩, rfl⟩
  · rintro (h | ⟨⟨t, h⟩, rfl⟩) <;> simp [h]

theorem request_error {check : Except ε β} {body : β → Tx σ ε (Finish α)} {s s' : σ} {e : ε}
    (h : request check body s = (.error e, s')) : s' = s := by
  unfold request at h
  split at h
  · exact write_error h
  · exact (Prod.mk.inj h).2.symm

theorem request_ok {check : Except ε β} {body : β → Tx σ ε (Finish α)} {s s' : σ} {a : α} :
    request check body s = (.ok a, s') ↔ ∃ b, check = .ok b ∧ write (body b) s = (.ok a, s') := by
  unfold request
  cases check <;> simp

/-- An operation fails or is abandoned, and then changes nothing, or it commits. -/
theorem request_cases {check : Except ε β} {body : β → Tx σ ε (Finish α)} {s s' : σ}
    {r : Except ε α} (h : request check body s = (r, s')) :
    (s' = s ∧ ∃ e, r = .error e) ∨
    (s' = s ∧ ∃ b a t, check = .ok b ∧ exec (body b) s = .ok (.abandon a, t) ∧ r = .ok a) ∨
    ∃ b a, check = .ok b ∧ exec (body b) s = .ok (.commit a, s') ∧ r = .ok a := by
  cases r with
  | error e => exact .inl ⟨request_error h, e, rfl⟩
  | ok a =>
    obtain ⟨b, hb, h⟩ := request_ok.mp h
    rcases write_ok.mp h with h | ⟨⟨t, h⟩, rfl⟩
    · exact .inr (.inr ⟨b, a, hb, h, rfl⟩)
    · exact .inr (.inl ⟨rfl, b, a, t, hb, h, rfl⟩)

/-- A transaction that is given up after its first check changes nothing. -/
theorem write_abandon {γ : Type} {g : σ → Except ε γ} {p : σ → Bool} {a : α}
    {rest : γ → Tx σ ε (Finish α)} {s : σ} (h : p s = true) :
    write (do
      let c ← readM g
      if ← read p then return .abandon a else rest c) s = ((g s).map fun _ => a, s) := by
  have hx : exec (do
      let c ← readM g
      if ← read p then return .abandon a else rest c) s =
      (g s).map fun _ => (Finish.abandon a, s) := by
    rw [exec_bind, exec_readM]
    cases g s with
    | error e => rfl
    | ok c =>
      show exec (read p >>= _) s = _
      rw [exec_read_bind, if_pos h]
      rfl
  rw [write, hx]
  cases g s <;> rfl

theorem request_abandon {γ : Type} {check : Except ε β} {body : β → Tx σ ε (Finish α)}
    {g : σ → Except ε γ} {p : σ → Bool} {a : α} {s : σ} (h : p s = true)
    (hbody : ∀ b, ∃ rest : γ → Tx σ ε (Finish α), body b = do
      let c ← readM g
      if ← read p then return .abandon a else rest c) :
    request check body s = (check.bind fun _ => (g s).map fun _ => a, s) := by
  cases check with
  | error e => rfl
  | ok b =>
    obtain ⟨rest, hb⟩ := hbody b
    show write (body b) s = _
    rw [hb, write_abandon h]
    rfl

/-! ### Stopped runs -/

/-- `Reaches body s rest s'`: run from `s`, the body has `rest` left at `s'`. -/
inductive Reaches : Tx σ ε α → σ → Tx σ ε α → σ → Prop
  | refl (m : Tx σ ε α) (s : σ) : Reaches m s m s
  | step {γ : Type} {run : σ → Except ε (γ × σ)} {next : γ → Tx σ ε α} {s t s' : σ} {b : γ}
      {rest : Tx σ ε α} (h : run s = .ok (b, t)) (hr : Reaches (next b) t rest s') :
      Reaches (stmt run next) s rest s'

theorem Reaches.snoc {m : Tx σ ε α} {γ : Type} {run : σ → Except ε (γ × σ)}
    {next : γ → Tx σ ε α} {s t s' : σ} {b : γ}
    (h : Reaches m s (stmt run next) t) (hrun : run t = .ok (b, s')) :
    Reaches m s (next b) s' := by
  generalize hr : stmt run next = rest at h
  induction h with
  | refl => subst hr; exact .step hrun (.refl _ _)
  | step h₀ _ ih => exact .step h₀ (ih hrun hr)

end Tx

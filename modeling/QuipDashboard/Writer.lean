/-
The writer and its recovery from attempts that were stopped.

The model of `Writer`, `Write`, `Store::write`, `lock_writer` and `close` in
`dashboard-store/src/store.rs`, and of `Connection::rollback` in `backend.rs`.  One
attempt at a time holds the lock of the writer.  At every await point it may be
cancelled or fail, before or after the engine took the effect; what it leaves behind is
the connection and the `rollback` flag.

The engine is assumed to keep an open transaction apart from what is committed, and to
answer `is_autocommit` truthfully.  `BEGIN` inside an open transaction is an error in
Turso and only a warning in Postgres, and a statement outside any transaction is
committed at once: nothing in the engine keeps one attempt's statements away from the
next attempt.

* `Step.committed` — **only a `COMMIT` changes what is committed, by the whole body of
  its own attempt**;
* `WriterRun.reaches` — an attempt that nothing stops does what `Tx.write` does;
* `writer_recovers` — both, for every run, with a clean connection at every `BEGIN`.
-/
import QuipDashboard.Transaction
import QuipDashboard.History

namespace Dashboard

variable {σ ε : Type}

/-- `Writer`: the connection, as what is committed and the view of an open transaction,
and the recovery flag. -/
structure Writer (σ : Type) where
  committed : σ
  working : Option σ
  rollback : Bool

namespace Writer

/-- What a statement on the connection sees. -/
def view (w : Writer σ) : σ := w.working.getD w.committed

/-- A statement changes the open transaction; without one it is committed at once. -/
def store (w : Writer σ) (x : σ) : Writer σ :=
  match w.working with
  | some _ => { w with working := some x }
  | none => { w with committed := x }

/-- The recovery flag is set, by `Write::begin` and by `Drop for Write`. -/
def armed (w : Writer σ) : Writer σ := { w with rollback := true }

/-- The engine ends the open transaction without its statements. -/
def rolledBack (w : Writer σ) : Writer σ := { w with working := none }

/-- The engine takes `BEGIN`: Turso refuses it inside a transaction, Postgres goes on
in the open one. -/
def begins (pg : Bool) (w : Writer σ) : Option (Writer σ) :=
  if pg ∨ w.working = none then some { w.armed with working := some w.view } else none

/-- The engine takes `COMMIT`. -/
def commits (w : Writer σ) : Writer σ := { w with committed := w.view, working := none }

end Writer

/-- `Writer::recover`, with whether it returned `Ok`. -/
inductive Recover (pg : Bool) : Writer σ → Bool → Writer σ → Prop
  /-- The last attempt finished. -/
  | finished {w : Writer σ} (h : w.rollback = false) : Recover pg w true w
  /-- Turso is in autocommit, so `BEGIN` never took effect or the engine ended it. -/
  | autocommit {w : Writer σ} (h : w.rollback = true) (hpg : pg = false)
      (hw : w.working = none) : Recover pg w true { w with rollback := false }
  | rolledBack {w : Writer σ} (h : w.rollback = true) (hw : pg = true ∨ w.working ≠ none) :
      Recover pg w true { w.rolledBack with rollback := false }
  /-- Stopped or failed before `ROLLBACK` took effect. -/
  | stopped {w : Writer σ} (h : w.rollback = true) : Recover pg w false w
  /-- Stopped after `ROLLBACK` took effect. -/
  | lost {w : Writer σ} (h : w.rollback = true) (hw : pg = true ∨ w.working ≠ none) :
      Recover pg w false w.rolledBack

/-- Where the attempt that holds the lock stands. -/
inductive Phase (σ ε : Type) : Type 1
  | idle
  | recovering {α : Type} (body : Tx σ ε (Finish α))
  | ready {α : Type} (body : Tx σ ε (Finish α))
  | running {α : Type} (body rest : Tx σ ε (Finish α))
  | closed (ok : Bool)

/-- The writer, and the attempt that holds its lock. -/
structure Machine (σ ε : Type) where
  writer : Writer σ
  phase : Phase σ ε

/-- What the engine took: `BEGIN`, or `COMMIT` for an attempt; and the result of `close`. -/
inductive Engine (σ ε : Type) : Type 1
  | quiet
  | begins
  | commits {α : Type} (body : Tx σ ε (Finish α))
  | closes (ok : Bool)

/-- One await point of the attempt that holds the lock, or the next attempt. -/
inductive Step (pg : Bool) : Machine σ ε → Engine σ ε → Machine σ ε → Prop
  | lock {α : Type} (w : Writer σ) (body : Tx σ ε (Finish α)) :
      Step pg ⟨w, .idle⟩ .quiet ⟨w, .recovering body⟩
  | recovered {α : Type} {w w' : Writer σ} {body : Tx σ ε (Finish α)} (h : Recover pg w true w') :
      Step pg ⟨w, .recovering body⟩ .quiet ⟨w', .ready body⟩
  | recoverStopped {α : Type} {w w' : Writer σ} {body : Tx σ ε (Finish α)}
      (h : Recover pg w false w') : Step pg ⟨w, .recovering body⟩ .quiet ⟨w', .idle⟩
  -- `bind_network_with` reads between the lock and `BEGIN`
  | readyStopped {α : Type} (w : Writer σ) (body : Tx σ ε (Finish α)) :
      Step pg ⟨w, .ready body⟩ .quiet ⟨w, .idle⟩
  | begins {α : Type} {w w' : Writer σ} {body : Tx σ ε (Finish α)} (h : w.begins pg = some w') :
      Step pg ⟨w, .ready body⟩ .begins ⟨w', .running body body⟩
  | beginStopped {α : Type} (w : Writer σ) (body : Tx σ ε (Finish α)) :
      Step pg ⟨w, .ready body⟩ .quiet ⟨w.armed, .idle⟩
  | beginLost {α : Type} {w w' : Writer σ} {body : Tx σ ε (Finish α)}
      (h : w.begins pg = some w') : Step pg ⟨w, .ready body⟩ .begins ⟨w', .idle⟩
  | statement {α β : Type} {w : Writer σ} {body : Tx σ ε (Finish α)}
      {run : σ → Except ε (β × σ)} {next : β → Tx σ ε (Finish α)} {b : β} {x : σ}
      (h : run w.view = .ok (b, x)) :
      Step pg ⟨w, .running body (.stmt run next)⟩ .quiet ⟨w.store x, .running body (next b)⟩
  -- an error, an early return or a cancellation drops the `Write`
  | dropped {α : Type} (w : Writer σ) (body rest : Tx σ ε (Finish α)) :
      Step pg ⟨w, .running body rest⟩ .quiet ⟨w.armed, .idle⟩
  -- stopped inside or after a statement, of which any part may have reached the engine
  | droppedInside {α β : Type} (w : Writer σ) (body : Tx σ ε (Finish α))
      (run : σ → Except ε (β × σ)) (next : β → Tx σ ε (Finish α)) (x : σ) :
      Step pg ⟨w, .running body (.stmt run next)⟩ .quiet ⟨(w.store x).armed, .idle⟩
  -- a failed statement or `COMMIT` for which the engine ended the transaction itself
  | droppedEnded {α : Type} (w : Writer σ) (body rest : Tx σ ε (Finish α)) :
      Step pg ⟨w, .running body rest⟩ .quiet ⟨w.rolledBack.armed, .idle⟩
  | commits {α : Type} (w : Writer σ) (body : Tx σ ε (Finish α)) (a : α) :
      Step pg ⟨w, .running body (.done (.commit a))⟩ (.commits body)
        ⟨{ w.commits with rollback := false }, .idle⟩
  | commitLost {α : Type} (w : Writer σ) (body : Tx σ ε (Finish α)) (a : α) :
      Step pg ⟨w, .running body (.done (.commit a))⟩ (.commits body) ⟨w.commits.armed, .idle⟩
  | closes {w w' : Writer σ} {ok : Bool} (h : Recover pg w ok w') :
      Step pg ⟨w, .idle⟩ (.closes ok) ⟨w', .closed ok⟩

/-- A run of attempts from a writer that was just opened. -/
def WriterRun (pg : Bool) (s₀ : σ) : List (Engine σ ε) → Machine σ ε → Prop :=
  History.Run (Step pg) ⟨⟨s₀, none, false⟩, .idle⟩

/-! ### The invariant -/

/-- A transaction is open only while the flag is set or its attempt runs, and then it is
what the statements so far made of what is committed. -/
def Machine.Inv (m : Machine σ ε) : Prop :=
  match m.phase with
  | .idle | .recovering _ => m.writer.rollback = false → m.writer.working = none
  | .ready _ => m.writer.working = none
  | .running body rest =>
    ∃ x, m.writer.working = some x ∧ body.exec m.writer.committed = rest.exec x
  | .closed ok => ok = true → m.writer.working = none

/-- Recovery commits nothing, and leaves no transaction open when it returns `Ok`. -/
theorem Recover.spec {pg ok : Bool} {w w' : Writer σ} (h : Recover pg w ok w')
    (hw : w.rollback = false → w.working = none) :
    w'.committed = w.committed ∧ (ok = true → w'.working = none) ∧
      (w'.rollback = false → w'.working = none) := by
  cases h with
  | finished hf => exact ⟨rfl, fun _ => hw hf, hw⟩
  | autocommit _ _ hnone => exact ⟨rfl, fun _ => hnone, fun _ => hnone⟩
  | rolledBack => exact ⟨rfl, fun _ => rfl, fun _ => rfl⟩
  | stopped => exact ⟨rfl, by simp, hw⟩
  | lost => exact ⟨rfl, by simp, fun _ => rfl⟩

/-- `BEGIN` on a clean connection opens a transaction of its own. -/
theorem Writer.begins_spec {pg : Bool} {w w' : Writer σ} (h : w.begins pg = some w')
    (hw : w.working = none) :
    w'.committed = w.committed ∧ w'.working = some w.committed ∧ w'.rollback = true := by
  unfold Writer.begins at h
  rw [if_pos (.inr hw)] at h
  cases h
  exact ⟨rfl, by simp [Writer.view, hw], rfl⟩

/-- Statements inside a transaction commit nothing. -/
theorem Writer.store_spec {w : Writer σ} {y : σ} (hw : w.working = some y) (x : σ) :
    (w.store x).committed = w.committed ∧ (w.store x).working = some x := by
  simp [Writer.store, hw]

theorem Step.inv {pg : Bool} {m m' : Machine σ ε} {e : Engine σ ε} (hm : m.Inv)
    (h : Step pg m e m') : m'.Inv := by
  cases h with
  | lock => exact hm
  | recovered h => exact (h.spec hm).2.1 rfl
  | recoverStopped h => exact (h.spec hm).2.2
  | readyStopped => exact fun _ => hm
  | @begins _ w w' body h =>
    obtain ⟨hc, hw, -⟩ := Writer.begins_spec h hm
    exact ⟨w.committed, hw, by rw [hc]⟩
  | beginStopped => exact fun h => by cases h
  | beginLost h =>
    obtain ⟨-, -, hr⟩ := Writer.begins_spec h hm
    exact fun h => by rw [hr] at h; cases h
  | @statement _ _ w body run next b x hrun =>
    obtain ⟨y, hw, hx⟩ := hm
    obtain ⟨hc, hs⟩ := Writer.store_spec hw x
    refine ⟨x, hs, ?_⟩
    show body.exec (w.store x).committed = _
    have hview : w.view = y := by
      rw [Writer.view, show w.working = some y from hw]
      rfl
    rw [hc, hx, Tx.exec, ← hview, hrun]
  | dropped | droppedInside | droppedEnded | commitLost => exact fun h => by cases h
  | commits => exact fun _ => rfl
  | closes h => exact (h.spec hm).2.1

theorem WriterRun.inv {pg : Bool} {s₀ : σ} {es : List (Engine σ ε)} {m : Machine σ ε}
    (h : WriterRun pg s₀ es m) : m.Inv := by
  refine h.invariant (I := Machine.Inv) ?_ Step.inv
  intro _
  rfl

/-! ### What becomes visible -/

/-- What an event makes of what is committed. -/
def Engine.apply : Engine σ ε → σ → σ
  | .commits body, s => (Tx.write body s).2
  | _, s => s

/-- **Only a `COMMIT` changes what is committed, and then by the whole body of the
attempt that sent it.** -/
theorem Step.committed {pg : Bool} {m m' : Machine σ ε} {e : Engine σ ε} (hm : m.Inv)
    (h : Step pg m e m') :
    (m'.writer.committed = m.writer.committed ∧ ∀ s, e.apply s = s) ∨
      ∃ (α : Type) (body : Tx σ ε (Finish α)) (a : α), e = .commits body ∧
        (∃ rest, m.phase = .running body rest) ∧
        Tx.write body m.writer.committed = (.ok a, m'.writer.committed) := by
  have hcommit : ∀ {α : Type} {w : Writer σ} {body : Tx σ ε (Finish α)} {a : α},
      Machine.Inv ⟨w, .running body (.done (.commit a))⟩ →
      Tx.write body w.committed = (.ok a, w.view) := by
    rintro α w body a ⟨x, hw, hx⟩
    refine Tx.write_ok.mpr (.inl ?_)
    rw [hx, Tx.exec_done, Writer.view, hw]
    rfl
  cases h with
  | lock | readyStopped | beginStopped | dropped | droppedEnded => exact .inl ⟨rfl, fun _ => rfl⟩
  | recovered h | recoverStopped h | closes h => exact .inl ⟨(h.spec hm).1, fun _ => rfl⟩
  | begins h | beginLost h => exact .inl ⟨(Writer.begins_spec h hm).1, fun _ => rfl⟩
  | statement =>
    obtain ⟨y, hw, -⟩ := hm
    exact .inl ⟨(Writer.store_spec hw _).1, fun _ => rfl⟩
  | droppedInside =>
    obtain ⟨y, hw, -⟩ := hm
    exact .inl ⟨(Writer.store_spec hw _).1, fun _ => rfl⟩
  | commits w body a => exact .inr ⟨_, body, a, rfl, ⟨_, rfl⟩, hcommit hm⟩
  | commitLost w body a => exact .inr ⟨_, body, a, rfl, ⟨_, rfl⟩, hcommit hm⟩

/-! ### Attempts that nothing stops -/

/-- Statements that nothing stops run the body to its end. -/
theorem run_statements {pg : Bool} {s₀ : σ} {es : List (Engine σ ε)} {α : Type}
    {body rest : Tx σ ε (Finish α)} {w : Writer σ} {x x' : σ} {f : Finish α}
    (h : WriterRun pg s₀ es ⟨w, .running body rest⟩) (hw : w.working = some x)
    (hx : rest.exec x = .ok (f, x')) :
    ∃ es', WriterRun pg s₀ (es' ++ es)
      ⟨{ w with working := some x' }, .running body (.done f)⟩ := by
  induction rest generalizing es w x with
  | done a =>
    cases hx
    refine ⟨[], ?_⟩
    rw [← hw]
    exact h
  | fail e => cases hx
  | stmt run next ih =>
    rw [Tx.exec] at hx
    cases hrun : run x with
    | error e =>
      rw [hrun] at hx
      cases hx
    | ok p =>
      rw [hrun] at hx
      have hview : w.view = x := by rw [Writer.view, hw]; rfl
      have hstep := History.Run.snoc h (Step.statement (hview ▸ hrun))
      have hstore : w.store p.2 = { w with working := some p.2 } := by
        rw [Writer.store, hw]
      rw [hstore] at hstep
      obtain ⟨es', hdone⟩ := ih p.1 (w := { w with working := some p.2 }) hstep rfl hx
      refine ⟨es' ++ [.quiet], ?_⟩
      rw [List.append_assoc]
      exact hdone

/-- **Whatever stopped the attempts before it, an attempt that nothing stops does what
`Tx.write` does.** -/
theorem WriterRun.reaches {pg : Bool} {s₀ : σ} {es : List (Engine σ ε)} {w : Writer σ}
    (h : WriterRun pg s₀ es ⟨w, .idle⟩) {α : Type} (body : Tx σ ε (Finish α)) {a : α} {s' : σ}
    (hx : Tx.write body w.committed = (.ok a, s')) :
    ∃ (es' : List (Engine σ ε)) (w' : Writer σ),
      WriterRun pg s₀ (es' ++ es) ⟨w', .idle⟩ ∧ w'.committed = s' := by
  have hidle : w.rollback = false → w.working = none := h.inv
  -- recovery can always succeed
  obtain ⟨w₁, hrec⟩ : ∃ w₁, Recover pg w true w₁ := by
    cases hr : w.rollback with
    | false => exact ⟨_, .finished hr⟩
    | true =>
      by_cases hopen : pg = true ∨ w.working ≠ none
      · exact ⟨_, .rolledBack hr hopen⟩
      · simp only [not_or, Bool.not_eq_true, not_not] at hopen
        exact ⟨_, .autocommit hr hopen.1 hopen.2⟩
  obtain ⟨hc₁, hnone, -⟩ := hrec.spec hidle
  have hready : WriterRun pg s₀ (.quiet :: .quiet :: es) ⟨w₁, .ready body⟩ :=
    (History.Run.snoc h (.lock w body)).snoc (.recovered hrec)
  obtain ⟨w₂, hbegin⟩ : ∃ w₂, w₁.begins pg = some w₂ := by
    rw [Writer.begins, if_pos (.inr (hnone rfl))]
    exact ⟨_, rfl⟩
  obtain ⟨hc₂, hw₂, -⟩ := Writer.begins_spec hbegin (hnone rfl)
  have hrun := History.Run.snoc hready (.begins hbegin)
  have hcommitted : w₂.committed = w.committed := hc₂.trans hc₁
  rcases Tx.write_ok.mp hx with hx | ⟨⟨t, hx⟩, rfl⟩
  · rw [← hc₁] at hx
    obtain ⟨es', hdone⟩ := run_statements hrun hw₂ hx
    refine ⟨.commits body :: (es' ++ [.begins, .quiet, .quiet]),
      { ({ w₂ with working := some s' } : Writer σ).commits with rollback := false }, ?_, rfl⟩
    rw [List.cons_append, List.append_assoc]
    exact .snoc hdone (.commits _ body a)
  · exact ⟨[.quiet, .begins, .quiet, .quiet], w₂.armed, .snoc hrun (.dropped w₂ body body),
      hcommitted⟩

/-- **Interrupted attempts leave nothing behind.**  In every run of attempts that are
stopped at any await point: what is committed is what the whole bodies of the attempts
that reached `COMMIT` made of the start, and each step changes it by such a body or not at
all; every `BEGIN` finds no open transaction and starts its own; an attempt that nothing
stops does what its body does; and `close` leaves no transaction open unless the rollback
fails. -/
theorem writer_recovers {pg : Bool} {s₀ : σ} {es : List (Engine σ ε)} {m : Machine σ ε}
    (h : WriterRun pg s₀ es m) :
    m.writer.committed = es.foldr Engine.apply s₀ ∧
    (∀ e m', Step pg m e m' → m'.writer.committed = m.writer.committed ∨
      ∃ (α : Type) (body : Tx σ ε (Finish α)) (a : α), e = .commits body ∧
        (∃ rest, m.phase = .running body rest) ∧
        Tx.write body m.writer.committed = (.ok a, m'.writer.committed)) ∧
    (∀ m', Step pg m .begins m' →
      m.writer.working = none ∧ m'.writer.working = some m.writer.committed) ∧
    (m.phase = .idle → ∀ (α : Type) (body : Tx σ ε (Finish α)) a s',
      Tx.write body m.writer.committed = (.ok a, s') →
      ∃ (es' : List (Engine σ ε)) (w' : Writer σ),
        WriterRun pg s₀ (es' ++ es) ⟨w', .idle⟩ ∧ w'.committed = s') ∧
    ∀ m', Step pg m (.closes true) m' → m'.writer.working = none := by
  refine ⟨?_, ?_, ?_, ?_, ?_⟩
  -- only a commit changes what is committed, and then by the body that ran
  · induction h with
    | nil => rfl
    | @snoc es m m' e h hs ih =>
      rw [List.foldr_cons, ← ih]
      rcases hs.committed (WriterRun.inv h) with ⟨hsame, hid⟩ | ⟨α, body, a, rfl, -, hx⟩
      · rw [hid, hsame]
      · show _ = (Tx.write body m.writer.committed).2
        rw [hx]
  · intro e m' hs
    rcases hs.committed h.inv with ⟨hsame, -⟩ | hcommit
    · exact .inl hsame
    · exact .inr hcommit
  · intro m' hs
    have hinv := h.inv
    cases hs with
    | begins hb => exact ⟨hinv, (Writer.begins_spec hb hinv).2.1⟩
    | beginLost hb => exact ⟨hinv, (Writer.begins_spec hb hinv).2.1⟩
  · rintro hidle α body a s' hx
    obtain ⟨w, phase⟩ := m
    cases hidle
    exact h.reaches body hx
  · intro m' hs
    have hinv := hs.inv h.inv
    cases hs with
    | closes hr => exact hinv rfl

/-- A body of one statement. -/
def increment : Tx ℕ Unit (Finish Unit) := do
  Tx.update fun n => ((), n + 1)
  return .commit ()

/-- An attempt that is cancelled after its statement leaves an open transaction, of which
nothing is committed by the attempt after it. -/
theorem writer_recovers_cancelled : ∃ (es : List (Engine ℕ Unit)) (m : Machine ℕ Unit),
    WriterRun false 0 es m ∧ m.writer.working = some 1 ∧ m.writer.committed = 0 ∧
    ∃ (es' : List (Engine ℕ Unit)) (w' : Writer ℕ),
      WriterRun false 0 (es' ++ es) ⟨w', .idle⟩ ∧ w'.committed = 1 := by
  have run : WriterRun false 0 _ _ := History.Run.nil
    |>.snoc (.lock _ increment)
    |>.snoc (.recovered (.finished rfl))
    |>.snoc (.begins rfl)
    |>.snoc (.statement rfl)
    |>.snoc (.dropped _ _ _)
  obtain ⟨-, -, -, hnext, -⟩ := writer_recovers run
  exact ⟨_, _, run, rfl, rfl, hnext rfl Unit increment () 1 rfl⟩

end Dashboard

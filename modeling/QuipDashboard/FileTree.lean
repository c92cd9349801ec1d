/-
A tree of files, and programs that work on it alone.

Files are keyed by their paths; a directory is a proper prefix of one.  What a program awaits
is a `FileEffect`, and `FileAnswers` says what each answers when no operation fails by itself.

* `Program.Ensures` — **every run of a program alone ends, and ends where `Q` holds**, with
  its rules `bind`, `awaitOk` and `attempt`;
* `Program.Ensures.of_trace` — what is ensured holds at the end of every run;
* `Program.Ensures.run` — there is one.
-/
import QuipDashboard.KeyedTable
import QuipDashboard.Trace
import Mathlib.Data.Int.Notation
import Mathlib.Data.List.Dedup

/-! ### Total correctness of a program alone -/

namespace Program

variable {E : Type → Type 1} {ε ε' α β σ : Type}

/-- Every run of the program alone ends, and its result and its state satisfy `Q`. `H` is
what an effect may answer, and what it makes of the state. -/
def Ensures (H : {γ : Type} → σ → E γ → γ → σ → Prop) (Q : Except ε α → σ → Prop) :
    Program E ε α → σ → Prop
  | done a, s => Q (.ok a) s
  | fail e, s => Q (.error e) s
  | call e next, s => (∃ b s', H s e b s') ∧ ∀ b s', H s e b s' → Ensures H Q (next b) s'
  | pending, _ => False

namespace Ensures

variable {H : {γ : Type} → σ → E γ → γ → σ → Prop}

theorem imp {Q Q' : Except ε α → σ → Prop} (hQ : ∀ r s, Q r s → Q' r s)
    {p : Program E ε α} {s : σ} (h : Ensures H Q p s) : Ensures H Q' p s := by
  induction p generalizing s with
  | done a => exact hQ _ _ h
  | fail e => exact hQ _ _ h
  | call e next ih => exact ⟨h.1, fun b s' hb => ih b (h.2 b s' hb)⟩
  | pending => exact h

theorem and {Q Q' : Except ε α → σ → Prop} {p : Program E ε α} {s : σ}
    (h : Ensures H Q p s) (h' : Ensures H Q' p s) :
    Ensures H (fun r t => Q r t ∧ Q' r t) p s := by
  induction p generalizing s with
  | done a => exact ⟨h, h'⟩
  | fail e => exact ⟨h, h'⟩
  | call e next ih => exact ⟨h.1, fun b s' hb => ih b (h.2 b s' hb) (h'.2 b s' hb)⟩
  | pending => exact h

/-- A sequence, by what its first part ensures. -/
theorem bind {Q : Except ε β → σ → Prop} {f : α → Program E ε β} {p : Program E ε α} {s : σ}
    (h : Ensures H (fun
      | .ok a, t => Ensures H Q (f a) t
      | .error e, t => Q (.error e) t) p s) : Ensures H Q (p >>= f) s := by
  show Ensures H Q (p.bind f) s
  induction p generalizing s with
  | done a => exact h
  | fail e => exact h
  | call e next ih => exact ⟨h.1, fun b s' hb => ih b (h.2 b s' hb)⟩
  | pending => exact h

/-- An effect whose answer is known. -/
theorem await {Q : Except ε β → σ → Prop} {e : E α} {f : α → Program E ε β} {s : σ}
    (hex : ∃ a s', H s e a s') (h : ∀ a s', H s e a s' → Ensures H Q (f a) s') :
    Ensures H Q (Program.await e >>= f) s :=
  ⟨hex, h⟩

/-- An effect that succeeds. -/
theorem awaitOk {Q : Except ε β → σ → Prop} {wrap : ε' → ε} {e : E (Except ε' α)}
    {f : α → Program E ε β} {s : σ} (hex : ∃ r s', H s e r s')
    (h : ∀ r s', H s e r s' → ∃ a, r = .ok a ∧ Ensures H Q (f a) s') :
    Ensures H Q (Program.awaitOk wrap e >>= f) s := by
  refine ⟨hex, fun r s' hr => ?_⟩
  obtain ⟨a, rfl, ha⟩ := h r s' hr
  exact ha

/-- A program whose result is matched on. -/
theorem attempt {Q : Except ε' (Except ε α) → σ → Prop} {p : Program E ε α} {s : σ}
    (h : Ensures H (fun r t => Q (.ok r) t) p s) : Ensures H Q p.attempt s := by
  induction p generalizing s with
  | done a => exact h
  | fail e => exact h
  | call e next ih => exact ⟨h.1, fun b s' hb => ih b (h.2 b s' hb)⟩
  | pending => exact h

/-- **What is ensured holds at the end of every run.** -/
theorem of_trace {Q : Except ε α → σ → Prop} {p : Program E ε α} {s t : σ}
    {es : List (Performed E)} {r : Except ε α} (h : Ensures H Q p s)
    (ht : Trace H p s es t (some r)) : Q r t := by
  generalize ho : some r = o at ht
  induction ht with
  | stopped => cases ho
  | done a s =>
    cases ho
    exact h
  | fail e s =>
    cases ho
    exact h
  | step hb _ ih => exact ih (h.2 _ _ hb) ho

/-- A run that ends where `Q` holds. -/
theorem run {Q : Except ε α → σ → Prop} {p : Program E ε α} {s : σ} (h : Ensures H Q p s) :
    ∃ es t r, Trace H p s es t (some r) ∧ Q r t := by
  induction p generalizing s with
  | done a => exact ⟨[], s, .ok a, .done a s, h⟩
  | fail e => exact ⟨[], s, .error e, .fail e s, h⟩
  | call e next ih =>
    obtain ⟨⟨b, s', hb⟩, hnext⟩ := h
    obtain ⟨es, t, r, ht, hQ⟩ := ih b (hnext b s' hb)
    exact ⟨_, t, r, .step hb ht, hQ⟩
  | pending => exact h.elim

end Ensures

end Program

/-! ### Files -/

/-- A path below the root, by its components. -/
abbrev FilePath := List String

instance FilePath.lawfulBEq : LawfulBEq FilePath := inferInstanceAs (LawfulBEq (List String))

/-- A file with the second it was modified at. -/
structure StoredFile (δ : Type) where
  content : δ
  modified : ℤ
  deriving DecidableEq

/-- The files by their paths. -/
abbrev FileTree (δ : Type) := KeyedTable FilePath (StoredFile δ)

/-- `std::io::ErrorKind`, as far as it is matched on. -/
inductive FileError where
  | notFound
  | other (message : String)
  deriving DecidableEq

/-- `Metadata`: whether it is a directory, and when it was modified. -/
structure FileMetadata where
  isDir : Bool
  modified : ℤ
  deriving DecidableEq

namespace FileTree

variable {δ : Type}

/-- Whether some file lies below `p`. -/
def isDir (t : FileTree δ) (p : FilePath) : Bool :=
  t.rows.any fun e => p.isPrefixOf e.1 && p ≠ e.1

/-- The entries of a directory, in the order of the table. -/
def children (t : FileTree δ) (p : FilePath) : List String :=
  ((t.rows.filterMap fun e => (e.1.drop p.length).head?.filter fun _ => p.isPrefixOf e.1)).dedup

/-- The metadata of a path. -/
def metadata (t : FileTree δ) (p : FilePath) : Option FileMetadata :=
  match t.get? p with
  | some f => some ⟨false, f.modified⟩
  | none => if t.isDir p then some ⟨true, 0⟩ else none

/-- No file is also a directory. -/
def WellFormed (t : FileTree δ) : Prop := ∀ p, (t.get? p).isSome → t.isDir p = false

end FileTree

/-- What a program awaits of a file tree. -/
inductive FileEffect (δ : Type) : Type → Type 1
  | exists_ (p : FilePath) : FileEffect δ Bool
  | read (p : FilePath) : FileEffect δ (Except FileError δ)
  | write (p : FilePath) (content : δ) : FileEffect δ (Except FileError Unit)
  | rename (p q : FilePath) : FileEffect δ (Except FileError Unit)
  | readDir (p : FilePath) : FileEffect δ (Except FileError (List String))
  | metadata (p : FilePath) : FileEffect δ (Except FileError FileMetadata)
  | setModified (p : FilePath) (second : ℤ) : FileEffect δ (Except FileError Unit)

/-- What an effect answers when no operation fails by itself. A write happens at any time,
and a directory is listed in any order. -/
def FileAnswers {δ γ : Type} (t : FileTree δ) : FileEffect δ γ → γ → FileTree δ → Prop
  | .exists_ p, answer, t' => t' = t ∧ answer = ((t.get? p).isSome || t.isDir p)
  | .read p, answer, t' => t' = t ∧ answer = match t.get? p with
    | some f => .ok f.content
    | none => .error .notFound
  | .write p content, answer, t' => answer = .ok () ∧ ∃ second, t' = t.put p ⟨content, second⟩
  | .rename p q, answer, t' => match t.get? p with
    | some f => answer = .ok () ∧ t' = (t.erase p).put q f
    | none => answer = .error .notFound ∧ t' = t
  | .readDir p, answer, t' => t' = t ∧ ∃ names, answer = .ok names ∧ names.Perm (t.children p)
  | .metadata p, answer, t' => t' = t ∧ answer = match t.metadata p with
    | some m => .ok m
    | none => .error .notFound
  | .setModified p second, answer, t' => match t.get? p with
    | some f => answer = .ok () ∧ t' = t.put p { f with modified := second }
    | none => answer = .error .notFound ∧ t' = t

/-! ### Rules -/

namespace Program.Ensures

variable {δ ε β : Type} {Q : Except ε β → FileTree δ → Prop} {t : FileTree δ}
  {wrap : FileError → ε}

theorem exists_ {p : FilePath} {f : Bool → Program (FileEffect δ) ε β}
    (h : Ensures FileAnswers Q (f ((t.get? p).isSome || t.isDir p)) t) :
    Ensures FileAnswers Q (Program.await (.exists_ p) >>= f) t := by
  refine .await ⟨_, t, rfl, rfl⟩ ?_
  rintro _ _ ⟨rfl, rfl⟩
  exact h

theorem read {p : FilePath} {f : Except FileError δ → Program (FileEffect δ) ε β}
    (h : Ensures FileAnswers Q (f (match t.get? p with
      | some c => .ok c.content
      | none => .error .notFound)) t) :
    Ensures FileAnswers Q (Program.await (.read p) >>= f) t := by
  refine .await ⟨_, t, rfl, rfl⟩ ?_
  rintro _ _ ⟨rfl, rfl⟩
  exact h

theorem readOk {p : FilePath} {c : StoredFile δ} {f : δ → Program (FileEffect δ) ε β}
    (hp : t.get? p = some c) (h : Ensures FileAnswers Q (f c.content) t) :
    Ensures FileAnswers Q (Program.awaitOk wrap (.read p) >>= f) t := by
  refine .awaitOk ⟨_, t, rfl, rfl⟩ ?_
  rintro _ _ ⟨rfl, rfl⟩
  rw [hp]
  exact ⟨_, rfl, h⟩

theorem write {p : FilePath} {c : δ} {f : Unit → Program (FileEffect δ) ε β}
    (h : ∀ second, Ensures FileAnswers Q (f ()) (t.put p ⟨c, second⟩)) :
    Ensures FileAnswers Q (Program.awaitOk wrap (.write p c) >>= f) t := by
  refine .awaitOk ⟨_, _, rfl, 0, rfl⟩ ?_
  rintro _ _ ⟨rfl, second, rfl⟩
  exact ⟨(), rfl, h second⟩

theorem rename {p q : FilePath} {c : StoredFile δ} {f : Unit → Program (FileEffect δ) ε β}
    (hp : t.get? p = some c) (h : Ensures FileAnswers Q (f ()) ((KeyedTable.erase t p).put q c)) :
    Ensures FileAnswers Q (Program.awaitOk wrap (.rename p q) >>= f) t := by
  have answers : ∀ r t', FileAnswers t (.rename p q) r t' ↔
      r = .ok () ∧ t' = (KeyedTable.erase t p).put q c := by
    intro r t'
    rw [FileAnswers, hp]
  refine .awaitOk ⟨_, _, (answers _ _).mpr ⟨rfl, rfl⟩⟩ fun r t' hr => ?_
  obtain ⟨rfl, rfl⟩ := (answers _ _).mp hr
  exact ⟨(), rfl, h⟩

theorem readDir {p : FilePath} {f : List String → Program (FileEffect δ) ε β}
    (h : ∀ names, names.Perm (FileTree.children t p) → Ensures FileAnswers Q (f names) t) :
    Ensures FileAnswers Q (Program.awaitOk wrap (.readDir p) >>= f) t := by
  refine .awaitOk ⟨_, t, rfl, _, rfl, .refl _⟩ ?_
  rintro _ _ ⟨rfl, names, rfl, hnames⟩
  exact ⟨names, rfl, h names hnames⟩

theorem metadata {p : FilePath} {m : FileMetadata}
    {f : FileMetadata → Program (FileEffect δ) ε β} (hp : FileTree.metadata t p = some m)
    (h : Ensures FileAnswers Q (f m) t) :
    Ensures FileAnswers Q (Program.awaitOk wrap (.metadata p) >>= f) t := by
  refine .awaitOk ⟨_, t, rfl, rfl⟩ ?_
  rintro _ _ ⟨rfl, rfl⟩
  rw [hp]
  exact ⟨m, rfl, h⟩

theorem setModified {p : FilePath} {second : ℤ} {c : StoredFile δ}
    {f : Unit → Program (FileEffect δ) ε β} (hp : t.get? p = some c)
    (h : Ensures FileAnswers Q (f ()) (KeyedTable.put t p { c with modified := second })) :
    Ensures FileAnswers Q (Program.awaitOk wrap (.setModified p second) >>= f) t := by
  have answers : ∀ r t', FileAnswers t (.setModified p second) r t' ↔
      r = .ok () ∧ t' = KeyedTable.put t p { c with modified := second } := by
    intro r t'
    rw [FileAnswers, hp]
  refine .awaitOk ⟨_, _, (answers _ _).mpr ⟨rfl, rfl⟩⟩ fun r t' hr => ?_
  obtain ⟨rfl, rfl⟩ := (answers _ _).mp hr
  exact ⟨(), rfl, h⟩

end Program.Ensures

/-
The rotation of the merged log.

The model of `deploy/syslog-ng/rotate.sh`: the collector appends lines to the file that it
has open, and the script next to it renames the log and its archives one by one, asks the
collector to reopen the path, and starts it again when the log was deleted.  Names are
numbered, `LOG` being 0 and `LOG.i` being `i`; what the collector has open is an inode,
which a rename does not change.  The steps of both are interleaved; the collector may die,
both may be stopped at any point, and an operator may delete the log.

* `stack_move` and its companions — what a rename, a removal and a write do to the files,
  read from the oldest archive to the log;
* `Step.keeps` — every step keeps the collector on the newest file;
* `log_rotation` — **the files are what was written, in order, without its beginning**.
-/
import QuipDashboard.History
import Mathlib.Data.List.Basic
import Mathlib.Algebra.BigOperators.Group.List.Basic
import Mathlib.Algebra.Order.BigOperators.Group.List
import Mathlib.Algebra.GroupWithZero.Nat

namespace Dashboard

namespace LogRotation

/-- `QUIP_LOG_MAX_BYTES` and `QUIP_LOG_KEEP`, which `require_positive_int` has accepted. -/
structure Config where
  maxBytes : ℕ
  keep : ℕ
  maxBytes_pos : 0 < maxBytes
  keep_pos : 0 < keep

/-- A line, by its number of bytes. -/
structure Line where
  text : ℕ
  bytes : ℕ
  deriving DecidableEq

/-- Where the script stands. -/
inductive Phase where
  /-- It is not running. -/
  | down
  /-- Before a turn of the loop. -/
  | poll
  /-- Before `rm -f "${LOG}.${KEEP}"`. -/
  | remove
  /-- Before the turn of the loop of `rotate` for this archive; 0 is `mv "${LOG}" "${LOG}.1"`. -/
  | shift (i : ℕ)
  /-- Before `kill -HUP`. -/
  | signal
  /-- Before the collector of a deleted log is killed, and before it is started again. -/
  | terminate
  | respawn
  deriving DecidableEq

structure State where
  /-- The inode of each name. -/
  dir : ℕ → Option ℕ
  /-- The lines of each inode. -/
  data : ℕ → List Line
  /-- The next inode. -/
  fresh : ℕ
  /-- The collector is running. -/
  running : Bool
  /-- The inode that it has open. -/
  writer : Option ℕ
  /-- It has got a SIGHUP. -/
  hup : Bool
  phase : Phase
  /-- `SEEN`. -/
  seen : Bool
  /-- All lines that the collector has written. -/
  written : List Line

/-- An empty directory. -/
def State.init : State := ⟨fun _ => none, fun _ => [], 0, false, none, false, .down, false, []⟩

/-- The number of bytes of some lines. -/
def bytes (l : List Line) : ℕ := (l.map Line.bytes).sum

/-- What is read under a name. -/
def read (dir : ℕ → Option ℕ) (data : ℕ → List Line) (k : ℕ) : List Line :=
  ((dir k).map data).getD []

/-- The files under the names up to `n`, from the oldest to the newest. -/
def stack (f : ℕ → List Line) : ℕ → List Line
  | 0 => f 0
  | n + 1 => f (n + 1) ++ stack f n

/-- All files. -/
def State.files (cfg : Config) (s : State) : List Line := stack (read s.dir s.data) cfg.keep

/-- `mv`, of a name that exists to one that does not. -/
def rename (dir : ℕ → Option ℕ) (k k' : ℕ) : ℕ → Option ℕ :=
  Function.update (Function.update dir k' (dir k)) k none

/-- Where `rotate` goes on after an archive, or after the log. -/
def next : ℕ → Phase
  | 0 => .signal
  | i + 1 => .shift i

/-- A turn of the loop: rotate a log that is large, restart the collector of one that was
deleted. -/
def poll (cfg : Config) (s : State) : State :=
  if s.running then
    match s.dir 0 with
    | some i =>
      { s with seen := true, phase := if cfg.maxBytes ≤ bytes (s.data i) then .remove else .poll }
    | none => { s with phase := if s.seen then .terminate else .poll }
  else { s with phase := .down }

/-- The next step of the script. -/
def script (cfg : Config) (s : State) : State :=
  match s.phase with
  | .down => s
  | .poll => poll cfg s
  | .remove => { s with dir := Function.update s.dir cfg.keep none, phase := .shift (cfg.keep - 1) }
  | .shift i =>
    -- there may be no archive, but with `set -e` the script ends when there is no log
    if s.dir i = none then { s with phase := if i = 0 then .down else next i }
    else { s with dir := rename s.dir i (i + 1), phase := next i }
  | .signal => { s with hup := s.running, phase := .poll }
  | .terminate => { s with running := false, writer := none, hup := false, phase := .respawn }
  | .respawn => { s with running := true, phase := .poll }

/-- What happens in a run. -/
inductive Event where
  | script
  | write (l : Line)
  /-- The collector opens the path, which creates the file. -/
  | openLog
  /-- The collector handles its SIGHUP. -/
  | reopen
  /-- The collector dies. -/
  | die
  /-- The script and the collector are stopped. -/
  | crash
  /-- The script is started. -/
  | start
  /-- An operator deletes the log. -/
  | unlink
  deriving DecidableEq

/-- One step of a run. -/
inductive Step (cfg : Config) (s : State) : Event → State → Prop
  | script (h : s.phase ≠ .down) : Step cfg s .script (LogRotation.script cfg s)
  | write {w : ℕ} (l : Line) (h : s.writer = some w) :
      Step cfg s (.write l) { s with
        data := Function.update s.data w (s.data w ++ [l])
        written := s.written ++ [l] }
  | openOld {i : ℕ} (h : s.running = true) (hw : s.writer = none) (hi : s.dir 0 = some i) :
      Step cfg s .openLog { s with writer := some i }
  | openNew (h : s.running = true) (hw : s.writer = none) (hi : s.dir 0 = none) :
      Step cfg s .openLog { s with
        dir := Function.update s.dir 0 (some s.fresh)
        data := Function.update s.data s.fresh []
        fresh := s.fresh + 1
        writer := some s.fresh }
  | reopen (h : s.hup = true) : Step cfg s .reopen { s with writer := none, hup := false }
  | die : Step cfg s .die { s with running := false, writer := none, hup := false }
  | crash : Step cfg s .crash { s with running := false, writer := none, hup := false, phase := .down }
  | start (h : s.phase = .down) (hr : s.running = false) :
      Step cfg s .start { s with running := true, phase := .poll, seen := false }
  | unlink : Step cfg s .unlink { s with dir := Function.update s.dir 0 none }

/-! ### Files in order -/

theorem bytes_append (l l' : List Line) : bytes (l ++ l') = bytes l + bytes l' := by
  simp [bytes]

theorem stack_congr {f f' : ℕ → List Line} {n : ℕ} (h : ∀ k ≤ n, f' k = f k) :
    stack f' n = stack f n := by
  induction n with
  | zero => exact h 0 le_rfl
  | succ n ih => rw [stack, stack, h (n + 1) le_rfl, ih fun k hk => h k (by omega)]

theorem stack_nil {f : ℕ → List Line} {n : ℕ} (h : ∀ k ≤ n, f k = []) : stack f n = [] := by
  induction n with
  | zero => exact h 0 le_rfl
  | succ n ih => rw [stack, h (n + 1) le_rfl, ih fun k hk => h k (by omega), List.nil_append]

/-- A file that moves up by one name, to one that was free, keeps its place. -/
theorem stack_move {f f' : ℕ → List Line} {i n : ℕ} (hi : i + 1 ≤ n) (hfree : f (i + 1) = [])
    (hmoved : f' (i + 1) = f i) (hleft : f' i = []) (hother : ∀ k, k ≠ i → k ≠ i + 1 → f' k = f k) :
    stack f' n = stack f n := by
  induction n with
  | zero => omega
  | succ n ih =>
    rw [stack, stack]
    by_cases hn : i = n
    · subst hn
      rw [hmoved, hfree, List.nil_append]
      cases i with
      | zero => rw [stack, stack, hleft, List.append_nil]
      | succ i =>
        rw [stack, stack, hleft, List.nil_append,
          stack_congr fun k hk => hother k (by omega) (by omega)]
    · rw [hother (n + 1) (by omega) (by omega), ih (by omega)]

/-- A write to the newest file is the newest line. -/
theorem stack_write {f f' : ℕ → List Line} {l : Line} {i n : ℕ} (hi : i ≤ n)
    (hwritten : f' i = f i ++ [l]) (hnewest : ∀ k < i, f k = [])
    (hother : ∀ k, k ≠ i → f' k = f k) : stack f' n = stack f n ++ [l] := by
  induction n with
  | zero =>
    obtain rfl : i = 0 := by omega
    exact hwritten
  | succ n ih =>
    rw [stack, stack]
    by_cases hn : i = n + 1
    · subst hn
      rw [hwritten, stack_nil fun k hk => by rw [hother k (by omega), hnewest k (by omega)],
        stack_nil fun k hk => hnewest k (by omega), List.append_nil, List.append_nil]
    · rw [hother (n + 1) (by omega), ih (by omega), List.append_assoc]

/-- The oldest file is dropped. -/
theorem stack_remove {f f' : ℕ → List Line} {n : ℕ} (hn : 0 < n) (hnil : f' n = [])
    (hother : ∀ k, k ≠ n → f' k = f k) : stack f n = f n ++ stack f' n := by
  cases n with
  | zero => omega
  | succ n =>
    rw [stack, stack, hnil, List.nil_append, stack_congr fun k hk => hother k (by omega)]

/-- The newest file is dropped. -/
theorem stack_unlink {f f' : ℕ → List Line} {n : ℕ} (hnil : f' 0 = [])
    (hother : ∀ k, k ≠ 0 → f' k = f k) : (stack f' n).Sublist (stack f n) := by
  induction n with
  | zero =>
    rw [stack, hnil]
    exact List.nil_sublist _
  | succ n ih =>
    rw [stack, stack, hother (n + 1) (by omega)]
    exact (List.Sublist.refl _).append ih

/-- Full files add up. -/
theorem le_bytes_stack {f : ℕ → List Line} {b n : ℕ} (h : ∀ k ≤ n, b ≤ bytes (f k)) :
    (n + 1) * b ≤ bytes (stack f n) := by
  induction n with
  | zero => simpa [stack] using h 0 le_rfl
  | succ n ih =>
    rw [stack, bytes_append]
    have := h (n + 1) le_rfl
    have := ih fun k hk => h k (by omega)
    rw [Nat.add_mul (n + 1) 1 b]
    omega

/-! ### The directory -/

section Read

variable {dir dir' : ℕ → Option ℕ} {data data' : ℕ → List Line} {k i : ℕ}

theorem read_of_none (h : dir k = none) : read dir data k = [] := by
  rw [read, h]
  rfl

theorem read_of_some (h : dir k = some i) : read dir data k = data i := by
  rw [read, h]
  rfl

/-- What is read depends on the entry, and on the lines of its inode. -/
theorem read_congr (hdir : dir' k = dir k) (hdata : ∀ i, dir k = some i → data' i = data i) :
    read dir' data' k = read dir data k := by
  cases h : dir k with
  | none => rw [read_of_none h, read_of_none (hdir.trans h)]
  | some i => rw [read_of_some h, read_of_some (hdir.trans h), hdata i h]

end Read

theorem rename_cases (dir : ℕ → Option ℕ) {k k' : ℕ} (hne : k ≠ k') (m : ℕ) :
    m = k ∧ rename dir k k' m = none ∨ m = k' ∧ rename dir k k' m = dir k ∨
      m ≠ k ∧ m ≠ k' ∧ rename dir k k' m = dir m := by
  unfold rename
  by_cases hk : m = k
  · subst hk
    exact .inl ⟨rfl, Function.update_self ..⟩
  · rw [Function.update_of_ne hk]
    by_cases hk' : m = k'
    · subst hk'
      exact .inr (.inl ⟨rfl, Function.update_self ..⟩)
    · exact .inr (.inr ⟨hk, hk', Function.update_of_ne hk' ..⟩)

theorem update_none_cases (dir : ℕ → Option ℕ) (k m : ℕ) :
    m = k ∧ Function.update dir k none m = none ∨ m ≠ k ∧ Function.update dir k none m = dir m := by
  by_cases hk : m = k
  · subst hk
    exact .inl ⟨rfl, Function.update_self ..⟩
  · exact .inr ⟨hk, Function.update_of_ne hk ..⟩

/-! ### The collector writes to the newest file -/

/-- Every inode has one name, and the one that is written is the newest. -/
structure Linked (keep : ℕ) (dir : ℕ → Option ℕ) (fresh : ℕ) (writer : Option ℕ) : Prop where
  bound : ∀ k, keep < k → dir k = none
  inj : ∀ k k' i, dir k = some i → dir k' = some i → k = k'
  lt_fresh : ∀ k i, dir k = some i → i < fresh
  writer_lt : ∀ w, writer = some w → w < fresh
  newest : ∀ w k, writer = some w → dir k = some w → ∀ m < k, dir m = none

namespace Linked

variable {keep fresh : ℕ} {dir : ℕ → Option ℕ} {writer : Option ℕ}

theorem close (h : Linked keep dir fresh writer) : Linked keep dir fresh none :=
  ⟨h.bound, h.inj, h.lt_fresh, fun _ hw => (by cases hw), fun _ _ hw => (by cases hw)⟩

theorem remove (h : Linked keep dir fresh writer) (k : ℕ) :
    Linked keep (Function.update dir k none) fresh writer := by
  have hsub : ∀ m i, Function.update dir k none m = some i → dir m = some i := by
    intro m i hm
    rcases update_none_cases dir k m with ⟨-, hnone⟩ | ⟨-, heq⟩
    · rw [hnone] at hm
      cases hm
    · rwa [heq] at hm
  have hnone : ∀ m, dir m = none → Function.update dir k none m = none := by
    intro m hm
    rcases update_none_cases dir k m with ⟨-, hnone⟩ | ⟨-, heq⟩
    · exact hnone
    · rwa [heq]
  exact ⟨fun m hm => hnone m (h.bound m hm), fun m m' i hm hm' => h.inj m m' i (hsub m i hm) (hsub m' i hm'),
    fun m i hm => h.lt_fresh m i (hsub m i hm), h.writer_lt,
    fun w m hw hm m' hlt => hnone m' (h.newest w m hw (hsub m w hm) m' hlt)⟩

theorem rename (h : Linked keep dir fresh writer) {k : ℕ} (hk : k + 1 ≤ keep) :
    Linked keep (LogRotation.rename dir k (k + 1)) fresh writer := by
  have hcase := rename_cases dir (show k ≠ k + 1 by omega)
  -- each entry was at this name, or at the name below
  have hsub : ∀ m i, LogRotation.rename dir k (k + 1) m = some i →
      m = k + 1 ∧ dir k = some i ∨ m ≠ k ∧ m ≠ k + 1 ∧ dir m = some i := by
    intro m i hm
    rcases hcase m with ⟨-, hnone⟩ | ⟨hm', heq⟩ | ⟨hne, hne', heq⟩
    · rw [hnone] at hm
      cases hm
    · exact .inl ⟨hm', heq ▸ hm⟩
    · exact .inr ⟨hne, hne', heq ▸ hm⟩
  refine ⟨?_, ?_, ?_, h.writer_lt, ?_⟩
  · intro m hm
    rcases hcase m with ⟨-, hnone⟩ | ⟨rfl, -⟩ | ⟨-, -, heq⟩
    · exact hnone
    · omega
    · rw [heq]
      exact h.bound m hm
  · intro m m' i hm hm'
    rcases hsub m i hm with ⟨rfl, hk⟩ | ⟨hne, -, hm⟩
    · rcases hsub m' i hm' with ⟨rfl, -⟩ | ⟨hne, -, hm'⟩
      · rfl
      · exact absurd (h.inj m' k i hm' hk) hne
    · rcases hsub m' i hm' with ⟨rfl, hk⟩ | ⟨-, -, hm'⟩
      · exact absurd (h.inj m k i hm hk) hne
      · exact h.inj m m' i hm hm'
  · intro m i hm
    rcases hsub m i hm with ⟨-, hk⟩ | ⟨-, -, hm⟩
    · exact h.lt_fresh k i hk
    · exact h.lt_fresh m i hm
  · intro w m hw hm m' hlt
    rcases hcase m' with ⟨-, hnone⟩ | ⟨rfl, heq⟩ | ⟨hne, -, heq⟩
    · exact hnone
    · -- the renamed file would be older than the one that is written
      rw [heq]
      rcases hsub m w hm with ⟨rfl, -⟩ | ⟨-, -, hm⟩
      · omega
      · exact h.newest w m hw hm k (by omega)
    · rw [heq]
      rcases hsub m w hm with ⟨rfl, hk⟩ | ⟨-, -, hm⟩
      · exact h.newest w k hw hk m' (by omega)
      · exact h.newest w m hw hm m' hlt

theorem openOld (h : Linked keep dir fresh writer) {i : ℕ} (hi : dir 0 = some i) :
    Linked keep dir fresh (some i) := by
  refine ⟨h.bound, h.inj, h.lt_fresh, ?_, ?_⟩
  · rintro w ⟨⟩
    exact h.lt_fresh 0 _ hi
  · rintro w k ⟨⟩ hk m hm
    rw [h.inj k 0 _ hk hi] at hm
    omega

theorem openNew (h : Linked keep dir fresh writer) :
    Linked keep (Function.update dir 0 (some fresh)) (fresh + 1) (some fresh) := by
  have hcase : ∀ m i, Function.update dir 0 (some fresh) m = some i →
      m = 0 ∧ i = fresh ∨ m ≠ 0 ∧ dir m = some i ∧ i < fresh := by
    intro m i hm
    by_cases hm0 : m = 0
    · subst hm0
      rw [Function.update_self] at hm
      exact .inl ⟨rfl, (Option.some.inj hm).symm⟩
    · rw [Function.update_of_ne hm0] at hm
      exact .inr ⟨hm0, hm, h.lt_fresh m i hm⟩
  refine ⟨?_, ?_, ?_, ?_, ?_⟩
  · intro m hm
    rw [Function.update_of_ne (by omega)]
    exact h.bound m hm
  · intro m m' i hm hm'
    rcases hcase m i hm with ⟨rfl, rfl⟩ | ⟨-, hm, hlt⟩
    · rcases hcase m' _ hm' with ⟨rfl, -⟩ | ⟨-, -, hlt⟩
      · rfl
      · exact absurd hlt (Nat.lt_irrefl _)
    · rcases hcase m' _ hm' with ⟨rfl, rfl⟩ | ⟨-, hm', -⟩
      · exact absurd hlt (Nat.lt_irrefl _)
      · exact h.inj m m' i hm hm'
  · intro m i hm
    rcases hcase m i hm with ⟨-, rfl⟩ | ⟨-, -, hlt⟩
    · exact Nat.lt_succ_self _
    · exact Nat.lt_succ_of_lt hlt
  · rintro w ⟨⟩
    exact Nat.lt_succ_self _
  · rintro w m ⟨⟩ hm m' hlt
    rcases hcase m _ hm with ⟨rfl, -⟩ | ⟨-, -, hlt'⟩
    · omega
    · exact absurd hlt' (Nat.lt_irrefl _)

end Linked

/-- What holds between any two steps. -/
structure Inv (cfg : Config) (s : State) : Prop where
  linked : Linked cfg.keep s.dir s.fresh s.writer
  gap : ∀ i, s.phase = .shift i → i < cfg.keep ∧ s.dir (i + 1) = none
  files : (s.files cfg).Sublist s.written

variable {cfg : Config} {s s' : State}

theorem inv_init (cfg : Config) : Inv cfg .init where
  linked := ⟨fun _ _ => rfl, fun _ _ _ h => (by cases h), fun _ _ h => (by cases h),
    fun _ h => (by cases h), fun _ _ h => (by cases h)⟩
  gap _ h := by cases h
  files := by
    rw [State.files, stack_nil fun k _ => read_of_none rfl]
    exact List.nil_sublist _

/-! ### What a step does to the files -/

section Files

variable {keep fresh w k : ℕ} {dir : ℕ → Option ℕ} {data : ℕ → List Line} {writer : Option ℕ}

/-- A rename to a free name keeps the files. -/
theorem stack_rename (hk : k + 1 ≤ keep) (hfree : dir (k + 1) = none) :
    stack (read (rename dir k (k + 1)) data) keep = stack (read dir data) keep := by
  have hcase := rename_cases dir (show k ≠ k + 1 by omega)
  refine stack_move hk (read_of_none hfree) ?_ ?_ ?_
  · rcases hcase (k + 1) with ⟨h, -⟩ | ⟨-, h⟩ | ⟨-, h, -⟩
    · omega
    · rw [read, read, h]
    · exact absurd rfl h
  · rcases hcase k with ⟨-, h⟩ | ⟨h, -⟩ | ⟨h, -⟩
    · exact read_of_none h
    · omega
    · exact absurd rfl h
  · intro m hm hm'
    rcases hcase m with ⟨h, -⟩ | ⟨h, -⟩ | ⟨-, -, h⟩
    · exact absurd h hm
    · exact absurd h hm'
    · exact read_congr h fun _ _ => rfl

/-- The removal of the oldest name drops what is read there. -/
theorem stack_removed (hkeep : 0 < keep) :
    stack (read dir data) keep =
      read dir data keep ++ stack (read (Function.update dir keep none) data) keep := by
  refine stack_remove hkeep (read_of_none (Function.update_self ..)) fun m hm => ?_
  exact read_congr (Function.update_of_ne hm ..) fun _ _ => rfl

/-- A write to a file that has a name is the newest line. -/
theorem stack_written (hs : Linked keep dir fresh writer) (hw : writer = some w)
    (hk : dir k = some w) (l : Line) :
    stack (read dir (Function.update data w (data w ++ [l]))) keep =
      stack (read dir data) keep ++ [l] := by
  have hle : k ≤ keep := by
    by_contra hlt
    rw [hs.bound k (by omega)] at hk
    cases hk
  refine stack_write hle ?_ (fun m hm => read_of_none (hs.newest w k hw hk m hm)) ?_
  · rw [read_of_some hk, read_of_some hk, Function.update_self]
  · intro m hm
    refine read_congr rfl fun i hi => Function.update_of_ne ?_ ..
    rintro rfl
    exact hm (hs.inj m k _ hi hk)

/-- A write to a deleted file is not read. -/
theorem stack_deleted (hw : ∀ k, dir k ≠ some w) (l : Line) :
    stack (read dir (Function.update data w (data w ++ [l]))) keep = stack (read dir data) keep := by
  refine stack_congr fun k _ => read_congr rfl fun i hi => Function.update_of_ne ?_ ..
  rintro rfl
  exact hw k hi

/-- A new file is empty. -/
theorem stack_openNew (hs : Linked keep dir fresh writer) (hi : dir 0 = none) :
    stack (read (Function.update dir 0 (some fresh)) (Function.update data fresh [])) keep =
      stack (read dir data) keep := by
  refine stack_congr fun k _ => ?_
  by_cases hk : k = 0
  · subst hk
    rw [read_of_none hi, read_of_some (Function.update_self ..), Function.update_self]
  · refine read_congr (Function.update_of_ne hk ..) fun i hi => Function.update_of_ne ?_ ..
    exact Nat.ne_of_lt (hs.lt_fresh k i hi)

theorem stack_unlinked (dir : ℕ → Option ℕ) (data : ℕ → List Line) (keep : ℕ) :
    (stack (read (Function.update dir 0 none) data) keep).Sublist (stack (read dir data) keep) := by
  refine stack_unlink (read_of_none (Function.update_self ..)) fun k hk => ?_
  exact read_congr (Function.update_of_ne hk ..) fun _ _ => rfl

end Files

/-! ### Every step keeps the order -/

/-- A turn of the loop changes no file, and rotates only a log that is large. -/
theorem poll_cases (cfg : Config) (s : State) : ∃ p b, poll cfg s = { s with phase := p, seen := b } ∧
    (∀ i, p ≠ .shift i) ∧
    (p = .remove → ∃ i, s.dir 0 = some i ∧ cfg.maxBytes ≤ bytes (s.data i)) := by
  unfold poll
  by_cases hr : s.running = true
  · rw [if_pos hr]
    cases h : s.dir 0 with
    | some i =>
      refine ⟨_, true, rfl, ?_, ?_⟩
      · split_ifs <;> simp
      · intro hp
        split_ifs at hp with hmax
        exact ⟨i, rfl, hmax⟩
    | none => exact ⟨_, s.seen, rfl, by split_ifs <;> simp, by split_ifs <;> simp⟩
  · rw [if_neg hr]
    exact ⟨.down, s.seen, rfl, by simp, by simp⟩

/-- **Every step keeps the collector on the newest file**, and what is read in order. -/
theorem Step.keeps {e : Event} (hs : Inv cfg s) (h : Step cfg s e s') : Inv cfg s' := by
  have hsub : (stack (read s.dir s.data) cfg.keep).Sublist s.written := hs.files
  cases h with
  | script hdown =>
    unfold LogRotation.script
    cases hp : s.phase with
    | down => exact absurd hp hdown
    | poll =>
      obtain ⟨p, b, heq, hshift, -⟩ := poll_cases cfg s
      dsimp only
      rw [heq]
      exact ⟨hs.linked, fun i hi => absurd hi (hshift i), hs.files⟩
    | remove =>
      have hpos := cfg.keep_pos
      refine ⟨hs.linked.remove cfg.keep, ?_, ?_⟩
      · rintro i ⟨⟩
        refine ⟨by omega, ?_⟩
        rw [show cfg.keep - 1 + 1 = cfg.keep by omega]
        exact Function.update_self ..
      · refine List.Sublist.trans ?_ hsub
        rw [stack_removed hpos]
        exact List.sublist_append_right ..
    | shift i =>
      obtain ⟨hi, hfree⟩ := hs.gap i hp
      dsimp only
      split_ifs with hnone hzero
      · exact ⟨hs.linked, fun i hi => (by cases hi), hs.files⟩
      · refine ⟨hs.linked, ?_, hs.files⟩
        obtain ⟨i, rfl⟩ := Nat.exists_eq_succ_of_ne_zero hzero
        rintro _ ⟨⟩
        exact ⟨by omega, hnone⟩
      · refine ⟨hs.linked.rename hi, ?_, ?_⟩
        · intro i' hi'
          cases i with
          | zero => cases hi'
          | succ i =>
            cases hi'
            exact ⟨by omega, Function.update_self ..⟩
        · show (stack _ _).Sublist _
          rw [stack_rename hi hfree]
          exact hsub
    | signal => exact ⟨hs.linked, fun i hi => (by cases hi), hs.files⟩
    | terminate => exact ⟨hs.linked.close, fun i hi => (by cases hi), hs.files⟩
    | respawn => exact ⟨hs.linked, fun i hi => (by cases hi), hs.files⟩
  | @write w l hw =>
    refine ⟨hs.linked, hs.gap, ?_⟩
    by_cases hk : ∃ k, s.dir k = some w
    · obtain ⟨k, hk⟩ := hk
      show (stack _ _).Sublist _
      rw [stack_written hs.linked hw hk]
      exact hsub.append (.refl _)
    · push Not at hk
      show (stack _ _).Sublist _
      rw [stack_deleted hk]
      exact hsub.trans (List.sublist_append_left ..)
  | openOld hr hw hi => exact ⟨hs.linked.openOld hi, hs.gap, hs.files⟩
  | openNew hr hw hi =>
    refine ⟨hs.linked.openNew, ?_, ?_⟩
    · intro i hp
      refine ⟨(hs.gap i hp).1, ?_⟩
      show Function.update s.dir 0 (some s.fresh) (i + 1) = none
      rw [Function.update_of_ne (Nat.succ_ne_zero i)]
      exact (hs.gap i hp).2
    · show (stack _ _).Sublist _
      rw [stack_openNew hs.linked hi]
      exact hsub
  | reopen => exact ⟨hs.linked.close, hs.gap, hs.files⟩
  | die => exact ⟨hs.linked.close, hs.gap, hs.files⟩
  | crash => exact ⟨hs.linked.close, fun i hi => (by cases hi), hs.files⟩
  | start => exact ⟨hs.linked, fun i hi => (by cases hi), hs.files⟩
  | unlink =>
    refine ⟨hs.linked.remove 0, ?_, (stack_unlinked s.dir s.data cfg.keep).trans hsub⟩
    intro i hp
    refine ⟨(hs.gap i hp).1, ?_⟩
    show Function.update s.dir 0 none (i + 1) = none
    rw [Function.update_of_ne (Nat.succ_ne_zero i)]
    exact (hs.gap i hp).2

/-! ### Nothing newer is lost -/

/-- `rotate` has not yet renamed the log. -/
def Phase.rotating : Phase → Bool
  | .remove | .shift _ => true
  | _ => false

/-- What holds as long as nobody deletes the log. -/
structure Kept (cfg : Config) (s : State) : Prop where
  inv : Inv cfg s
  /-- The file that is written has a name. -/
  named : ∀ w, s.writer = some w → ∃ k, s.dir k = some w
  /-- The log that is rotated exists. -/
  log : s.phase.rotating = true → s.dir 0 ≠ none
  suffix : s.files cfg <:+ s.written

theorem kept_init (cfg : Config) : Kept cfg .init where
  inv := inv_init cfg
  named _ h := by cases h
  log h := by cases h
  suffix := by
    rw [State.files, stack_nil fun k _ => read_of_none rfl]
    exact List.nil_suffix

/-- The file that is written keeps a name when an archive is renamed. -/
theorem named_rename {dir : ℕ → Option ℕ} {k w : ℕ} (h : ∃ m, dir m = some w)
    (hfree : dir (k + 1) = none) : ∃ m, rename dir k (k + 1) m = some w := by
  obtain ⟨m, hm⟩ := h
  by_cases hk : m = k
  · subst hk
    refine ⟨m + 1, ?_⟩
    rcases rename_cases dir (show m ≠ m + 1 by omega) (m + 1) with ⟨h, -⟩ | ⟨-, h⟩ | ⟨-, h, -⟩
    · omega
    · exact h.trans hm
    · exact absurd rfl h
  · refine ⟨m, ?_⟩
    rcases rename_cases dir (show k ≠ k + 1 by omega) m with ⟨h, -⟩ | ⟨h, -⟩ | ⟨-, -, h⟩
    · exact absurd h hk
    · subst h
      rw [hfree] at hm
      cases hm
    · exact h.trans hm

/-- Unless the log is deleted, a step loses at most the oldest archive. -/
theorem Step.kept {e : Event} (hs : Kept cfg s) (h : Step cfg s e s') (he : e ≠ .unlink) :
    Kept cfg s' := by
  have hinv := h.keeps hs.inv
  have hsuffix : stack (read s.dir s.data) cfg.keep <:+ s.written := hs.suffix
  cases h with
  | script hdown =>
    unfold LogRotation.script at hinv ⊢
    cases hp : s.phase with
    | down => exact absurd hp hdown
    | poll =>
      obtain ⟨p, b, heq, hshift, hremove⟩ := poll_cases cfg s
      rw [hp] at hinv
      dsimp only at hinv ⊢
      rw [heq] at hinv ⊢
      refine ⟨hinv, hs.named, fun hrot => ?_, hs.suffix⟩
      cases p with
      | remove =>
        obtain ⟨i, hi, -⟩ := hremove rfl
        exact fun hnone => by rw [hi] at hnone; cases hnone
      | shift i => exact absurd rfl (hshift i)
      | _ => cases hrot
    | remove =>
      rw [hp] at hinv
      dsimp only at hinv ⊢
      have hlog := hs.log (by rw [hp]; rfl)
      have hpos := cfg.keep_pos
      refine ⟨hinv, ?_, ?_, ?_⟩
      · intro w hw
        obtain ⟨k, hk⟩ := hs.named w hw
        refine ⟨k, (Function.update_of_ne ?_ ..).trans hk⟩
        -- the log is newer than the oldest archive
        rintro rfl
        exact hlog (hs.inv.linked.newest w _ hw hk 0 hpos)
      · intro _
        show Function.update s.dir cfg.keep none 0 ≠ none
        rwa [Function.update_of_ne (by omega)]
      · rw [stack_removed hpos] at hsuffix
        exact (List.suffix_append ..).trans hsuffix
    | shift i =>
      rw [hp] at hinv
      obtain ⟨hi, hfree⟩ := hs.inv.gap i hp
      have hlog := hs.log (by rw [hp]; rfl)
      dsimp only at hinv ⊢
      split_ifs at hinv ⊢ with hnone hzero
      · exact ⟨hinv, hs.named, fun hrot => (by cases hrot), hs.suffix⟩
      · exact ⟨hinv, hs.named, fun _ => hlog, hs.suffix⟩
      · refine ⟨hinv, fun w hw => named_rename (hs.named w hw) hfree, ?_, ?_⟩
        · intro hrot
          cases i with
          | zero => cases hrot
          | succ i =>
            show rename s.dir (i + 1) (i + 2) 0 ≠ none
            unfold rename
            rwa [Function.update_of_ne (by omega), Function.update_of_ne (by omega)]
        · show stack _ _ <:+ _
          rw [stack_rename hi hfree]
          exact hsuffix
    | signal =>
      rw [hp] at hinv
      exact ⟨hinv, hs.named, fun hrot => (by cases hrot), hs.suffix⟩
    | terminate =>
      rw [hp] at hinv
      exact ⟨hinv, fun w hw => (by cases hw), fun hrot => (by cases hrot), hs.suffix⟩
    | respawn =>
      rw [hp] at hinv
      exact ⟨hinv, hs.named, fun hrot => (by cases hrot), hs.suffix⟩
  | @write w l hw =>
    refine ⟨hinv, hs.named, hs.log, ?_⟩
    obtain ⟨k, hk⟩ := hs.named w hw
    show stack _ _ <:+ _
    rw [stack_written hs.inv.linked hw hk]
    obtain ⟨pre, hpre⟩ := hsuffix
    exact ⟨pre, by rw [← List.append_assoc, hpre]⟩
  | @openOld i hr hw hi =>
    refine ⟨hinv, ?_, hs.log, hs.suffix⟩
    rintro w ⟨⟩
    exact ⟨0, hi⟩
  | openNew hr hw hi =>
    refine ⟨hinv, ?_, ?_, ?_⟩
    · rintro w ⟨⟩
      refine ⟨0, ?_⟩
      show Function.update s.dir 0 (some s.fresh) 0 = some s.fresh
      rw [Function.update_self]
    · intro _
      show Function.update s.dir 0 (some s.fresh) 0 ≠ none
      rw [Function.update_self]
      simp
    · show stack _ _ <:+ _
      rw [stack_openNew hs.inv.linked hi]
      exact hsuffix
  | reopen => exact ⟨hinv, fun w hw => (by cases hw), hs.log, hs.suffix⟩
  | die => exact ⟨hinv, fun w hw => (by cases hw), hs.log, hs.suffix⟩
  | crash => exact ⟨hinv, fun w hw => (by cases hw), fun hrot => (by cases hrot), hs.suffix⟩
  | start => exact ⟨hinv, hs.named, fun hrot => (by cases hrot), hs.suffix⟩
  | unlink => exact absurd rfl he

/-! ### Enough is kept -/

/-- The archives have the first names, but for the one name that a rotation has freed. -/
def Contiguous (phase : Phase) (dir : ℕ → Option ℕ) : Prop :=
  match phase with
  | .shift i =>
    (∀ k, 1 ≤ k → k < i → dir (k + 1) ≠ none → dir k ≠ none) ∧
    (∀ k, i + 2 ≤ k → dir (k + 1) ≠ none → dir k ≠ none) ∧
    (1 ≤ i → dir (i + 2) ≠ none → dir i ≠ none)
  | _ => ∀ k, 1 ≤ k → dir (k + 1) ≠ none → dir k ≠ none

/-- What holds as long as nobody deletes the log and nothing is stopped during a rotation. -/
structure Steady (cfg : Config) (s : State) : Prop where
  kept : Kept cfg s
  full : ∀ k i, 1 ≤ k ∨ s.phase.rotating = true → s.dir k = some i → cfg.maxBytes ≤ bytes (s.data i)
  contiguous : Contiguous s.phase s.dir
  retained : s.files cfg = s.written ∨ cfg.keep * cfg.maxBytes ≤ bytes (s.files cfg)

theorem steady_init (cfg : Config) : Steady cfg .init where
  kept := kept_init cfg
  full _ _ _ h := by cases h
  contiguous _ _ h := absurd rfl h
  retained := .inl (by rw [State.files, stack_nil fun k _ => read_of_none rfl]; rfl)

/-- All names up to the last archive exist. -/
theorem exists_of_contiguous {dir : ℕ → Option ℕ} {n : ℕ} (hlog : dir 0 ≠ none)
    (h : ∀ k, 1 ≤ k → dir (k + 1) ≠ none → dir k ≠ none) (hn : dir n ≠ none) :
    ∀ k ≤ n, dir k ≠ none := by
  induction n with
  | zero =>
    intro k hk
    rwa [Nat.le_zero.mp hk]
  | succ n ih =>
    intro k hk
    rcases Nat.lt_or_eq_of_le hk with hk | rfl
    · rcases Nat.eq_zero_or_pos n with rfl | hpos
      · rwa [show k = 0 by omega]
      · exact ih (h n hpos hn) k (by omega)
    · exact hn

theorem contiguous_remove {dir : ℕ → Option ℕ} {keep : ℕ} (hbound : ∀ k, keep < k → dir k = none)
    (h : ∀ k, 1 ≤ k → dir (k + 1) ≠ none → dir k ≠ none) :
    Contiguous (.shift (keep - 1)) (Function.update dir keep none) := by
  refine ⟨?_, ?_, ?_⟩
  · intro k hk hlt hne
    rw [Function.update_of_ne (by omega)] at hne ⊢
    exact h k hk hne
  · intro k hk hne
    rw [Function.update_of_ne (by omega)] at hne
    exact absurd (hbound (k + 1) (by omega)) hne
  · intro hk hne
    rw [Function.update_of_ne (by omega)] at hne
    exact absurd (hbound (keep - 1 + 2) (by omega)) hne

theorem contiguous_skip {dir : ℕ → Option ℕ} {i : ℕ} (h : Contiguous (.shift (i + 1)) dir)
    (hfree : dir (i + 2) = none) (hnone : dir (i + 1) = none) : Contiguous (.shift i) dir := by
  obtain ⟨hbelow, habove, hacross⟩ := h
  refine ⟨fun k hk hlt => hbelow k hk (by omega), ?_, fun _ hne => absurd hfree hne⟩
  intro k hk hne
  rcases Nat.lt_or_eq_of_le hk with hk | rfl
  · exact habove k (by omega) hne
  · exact absurd hnone (hacross (by omega) hne)

theorem contiguous_rename {dir : ℕ → Option ℕ} {i : ℕ} (h : Contiguous (.shift i) dir)
    (hsome : dir i ≠ none) : Contiguous (next i) (rename dir i (i + 1)) := by
  obtain ⟨hbelow, habove, hacross⟩ := h
  have hcase := rename_cases dir (show i ≠ i + 1 by omega)
  have hother : ∀ k, k ≠ i → k ≠ i + 1 → rename dir i (i + 1) k = dir k := by
    intro k hk hk'
    rcases hcase k with ⟨h, -⟩ | ⟨h, -⟩ | ⟨-, -, h⟩
    · exact absurd h hk
    · exact absurd h hk'
    · exact h
  have hmoved : rename dir i (i + 1) (i + 1) ≠ none := by
    rcases hcase (i + 1) with ⟨h, -⟩ | ⟨-, h⟩ | ⟨-, h, -⟩
    · omega
    · rwa [h]
    · exact absurd rfl h
  have hup : ∀ k, i + 1 ≤ k → rename dir i (i + 1) (k + 1) ≠ none → rename dir i (i + 1) k ≠ none := by
    intro k hk hne
    rcases Nat.lt_or_eq_of_le hk with hk | rfl
    · rw [hother (k + 1) (by omega) (by omega)] at hne
      rw [hother k (by omega) (by omega)]
      exact habove k hk hne
    · exact hmoved
  cases i with
  | zero => exact hup
  | succ i =>
    refine ⟨?_, fun k hk => hup k (by omega), ?_⟩
    · intro k hk hlt hne
      rw [hother (k + 1) (by omega) (by omega)] at hne
      rw [hother k (by omega) (by omega)]
      exact hbelow k hk (by omega) hne
    · intro hi _
      rw [hother i (by omega) (by omega)]
      exact hbelow i hi (by omega) hsome

/-- Before an archive is dropped, all names are taken by full files. -/
theorem Steady.retained_remove (hs : Steady cfg s) (hp : s.phase = .remove) :
    stack (read (Function.update s.dir cfg.keep none) s.data) cfg.keep = s.written ∨
      cfg.keep * cfg.maxBytes ≤
        bytes (stack (read (Function.update s.dir cfg.keep none) s.data) cfg.keep) := by
  have hpos := cfg.keep_pos
  have hremoved : stack (read s.dir s.data) cfg.keep = _ := stack_removed hpos
  by_cases hkeep : s.dir cfg.keep = none
  · rw [read_of_none hkeep, List.nil_append] at hremoved
    rw [← hremoved]
    exact hs.retained
  · refine .inr ?_
    have hcont := hs.contiguous
    rw [hp] at hcont
    have hall := exists_of_contiguous (hs.kept.log (by rw [hp]; rfl)) hcont hkeep
    obtain ⟨n, hn⟩ := Nat.exists_eq_succ_of_ne_zero hpos.ne'
    have hsplit : stack (read (Function.update s.dir cfg.keep none) s.data) cfg.keep =
        stack (read s.dir s.data) n := by
      rw [hn, stack, read_of_none (Function.update_self ..), List.nil_append]
      exact stack_congr fun k hk =>
        read_congr (Function.update_of_ne (by omega) ..) fun _ _ => rfl
    rw [hsplit, hn]
    refine le_bytes_stack fun k hk => ?_
    obtain ⟨i, hi⟩ := Option.ne_none_iff_exists'.mp (hall k (by omega))
    rw [read_of_some hi]
    exact hs.full k i (.inr (by rw [hp]; rfl)) hi

/-- Unless the log is deleted or everything is stopped, a step drops an archive only when
enough newer lines are kept. -/
theorem Step.steady {e : Event} (hs : Steady cfg s) (h : Step cfg s e s') (he : e ≠ .unlink)
    (he' : e ≠ .crash) : Steady cfg s' := by
  have hkept := h.kept hs.kept he
  have hretained : stack (read s.dir s.data) cfg.keep = s.written ∨
      cfg.keep * cfg.maxBytes ≤ bytes (stack (read s.dir s.data) cfg.keep) := hs.retained
  -- outside of a rotation, only archives are full
  have hfull : ∀ k i, 1 ≤ k → s.dir k = some i → cfg.maxBytes ≤ bytes (s.data i) := fun k i hk =>
    hs.full k i (.inl hk)
  have hquiet : ∀ {p : Phase}, p.rotating = false → ∀ k i, 1 ≤ k ∨ p.rotating = true →
      s.dir k = some i → cfg.maxBytes ≤ bytes (s.data i) := by
    intro p hp k i hk
    rw [hp] at hk
    exact hfull k i (hk.resolve_right (by simp))
  cases h with
  | script hdown =>
    unfold LogRotation.script at hkept ⊢
    have hcont := hs.contiguous
    cases hp : s.phase with
    | down => exact absurd hp hdown
    | poll =>
      obtain ⟨p, b, heq, hshift, hremove⟩ := poll_cases cfg s
      rw [hp] at hkept hcont
      dsimp only at hkept ⊢
      rw [heq] at hkept ⊢
      refine ⟨hkept, ?_, ?_, hs.retained⟩
      · intro k i hk hi
        by_cases hk0 : 1 ≤ k
        · exact hfull k i hk0 hi
        · obtain rfl : k = 0 := by omega
          have hrot : p.rotating = true := hk.resolve_left hk0
          cases p with
          | remove =>
            obtain ⟨i', hi', hle⟩ := hremove rfl
            have hi : s.dir 0 = some i := hi
            rw [hi] at hi'
            cases hi'
            exact hle
          | shift i => exact absurd rfl (hshift i)
          | _ => cases hrot
      · cases p with
        | shift i => exact absurd rfl (hshift i)
        | _ => exact hcont
    | remove =>
      rw [hp] at hkept hcont
      dsimp only at hkept ⊢
      refine ⟨hkept, ?_, contiguous_remove hs.kept.inv.linked.bound hcont, hs.retained_remove hp⟩
      intro k i _ hi
      rcases update_none_cases s.dir cfg.keep k with ⟨-, h⟩ | ⟨-, h⟩
      · have hi : Function.update s.dir cfg.keep none k = some i := hi
        rw [h] at hi
        cases hi
      · exact hs.full k i (.inr (by rw [hp]; rfl)) (h.symm.trans hi)
    | shift i =>
      rw [hp] at hkept hcont
      obtain ⟨hi, hfree⟩ := hs.kept.inv.gap i hp
      have hall : ∀ k i, s.dir k = some i → cfg.maxBytes ≤ bytes (s.data i) := fun k i =>
        hs.full k i (.inr (by rw [hp]; rfl))
      dsimp only at hkept ⊢
      split_ifs at hkept ⊢ with hnone hzero
      · subst hzero
        exact absurd hnone (hs.kept.log (by rw [hp]; rfl))
      · obtain ⟨i, rfl⟩ := Nat.exists_eq_succ_of_ne_zero hzero
        exact ⟨hkept, fun k i _ => hall k i, contiguous_skip hcont hfree hnone, hs.retained⟩
      · refine ⟨hkept, ?_, contiguous_rename hcont hnone, ?_⟩
        · intro k i' _ hk
          have hk : rename s.dir i (i + 1) k = some i' := hk
          rcases rename_cases s.dir (show i ≠ i + 1 by omega) k with ⟨-, h⟩ | ⟨-, h⟩ | ⟨-, -, h⟩
          · rw [h] at hk
            cases hk
          · exact hall i i' (h.symm.trans hk)
          · exact hall k i' (h.symm.trans hk)
        · show stack _ _ = _ ∨ _ ≤ bytes (stack _ _)
          rw [stack_rename hi hfree]
          exact hretained
    | signal =>
      rw [hp] at hkept hcont
      exact ⟨hkept, hquiet rfl, hcont, hs.retained⟩
    | terminate =>
      rw [hp] at hkept hcont
      exact ⟨hkept, hquiet rfl, hcont, hs.retained⟩
    | respawn =>
      rw [hp] at hkept hcont
      exact ⟨hkept, hquiet rfl, hcont, hs.retained⟩
  | @write w l hw =>
    refine ⟨hkept, ?_, hs.contiguous, ?_⟩
    · intro k i hk hi
      have hle := hs.full k i hk hi
      show _ ≤ bytes (Function.update s.data w (s.data w ++ [l]) i)
      by_cases hiw : i = w
      · subst hiw
        rw [Function.update_self, bytes_append]
        omega
      · rwa [Function.update_of_ne hiw]
    · obtain ⟨k, hk⟩ := hs.kept.named w hw
      show stack _ _ = s.written ++ [l] ∨ _ ≤ bytes (stack _ _)
      rw [stack_written hs.kept.inv.linked hw hk, bytes_append]
      rcases hretained with heq | hle
      · exact .inl (by rw [heq])
      · exact .inr (by omega)
  | openOld hr hw hi => exact ⟨hkept, hs.full, hs.contiguous, hs.retained⟩
  | openNew hr hw hi =>
    -- there is no log, so that no rotation is under way
    have hrot : s.phase.rotating = false := by
      by_contra h
      exact hs.kept.log (by simpa using h) hi
    have hdir : ∀ k, 1 ≤ k → Function.update s.dir 0 (some s.fresh) k = s.dir k := fun k hk =>
      Function.update_of_ne (by omega) ..
    refine ⟨hkept, ?_, ?_, ?_⟩
    · intro k i hk hki
      have hk1 : 1 ≤ k := hk.resolve_right (by rw [hrot]; simp)
      have hold : s.dir k = some i := (hdir k hk1).symm.trans hki
      show _ ≤ bytes (Function.update s.data s.fresh [] i)
      rw [Function.update_of_ne (hs.kept.inv.linked.lt_fresh k i hold).ne]
      exact hfull k i hk1 hold
    · have hcont := hs.contiguous
      show Contiguous s.phase (Function.update s.dir 0 (some s.fresh))
      cases hp : s.phase with
      | shift i =>
        rw [hp] at hrot
        cases hrot
      | _ =>
        rw [hp] at hcont
        intro k hk hne
        rw [hdir (k + 1) (by omega)] at hne
        rw [hdir k hk]
        exact hcont k hk hne
    · show stack _ _ = _ ∨ _ ≤ bytes (stack _ _)
      rw [stack_openNew hs.kept.inv.linked hi]
      exact hretained
  | reopen => exact ⟨hkept, hs.full, hs.contiguous, hs.retained⟩
  | die => exact ⟨hkept, hs.full, hs.contiguous, hs.retained⟩
  | crash => exact absurd rfl he'
  | start hdown hr =>
    have hcont := hs.contiguous
    rw [hdown] at hcont
    exact ⟨hkept, hquiet rfl, hcont, hs.retained⟩
  | unlink => exact absurd rfl he

/-- **The files of every run.**  What is read under the names, from the oldest archive to
the log, is always a subsequence of the lines that the collector wrote, in their order, and
there are at most `keep` archives.  As long as nobody deletes the log, only a beginning of
these lines is missing, whenever the script and the collector are stopped and started.  As
long as they are not stopped either, it is missing only when `keep` times `maxBytes` newer
bytes are there. -/
theorem log_rotation {es : List Event} (run : History.Run (Step cfg) .init es s) :
    (s.files cfg).Sublist s.written ∧ (∀ k, cfg.keep < k → s.dir k = none) ∧
    (.unlink ∉ es → s.files cfg <:+ s.written) ∧
    (.unlink ∉ es → .crash ∉ es →
      s.files cfg = s.written ∨ cfg.keep * cfg.maxBytes ≤ bytes (s.files cfg)) := by
  have hs : Inv cfg s := run.invariant (inv_init cfg) fun hi hstep => hstep.keeps hi
  refine ⟨hs.files, hs.linked.bound, fun he => ?_, fun he he' => ?_⟩
  · suffices h : Kept cfg s from h.suffix
    clear hs
    induction run with
    | nil => exact kept_init cfg
    | snoc _ hstep ih =>
      rw [List.mem_cons, not_or] at he
      exact hstep.kept (ih he.2) (Ne.symm he.1)
  · suffices h : Steady cfg s from h.retained
    clear hs
    induction run with
    | nil => exact steady_init cfg
    | snoc _ hstep ih =>
      rw [List.mem_cons, not_or] at he he'
      exact hstep.steady (ih he.2 he'.2) (Ne.symm he.1) (Ne.symm he'.1)

/-- Two lines, each of which fills the log, and one archive: the second rotation drops the
first line, while the second is kept. -/
theorem log_rotation_twice : ∃ es s, History.Run (Step ⟨1, 1, Nat.one_pos, Nat.one_pos⟩) .init es s ∧
    s.written = [⟨1, 1⟩, ⟨2, 1⟩] ∧ s.files ⟨1, 1, Nat.one_pos, Nat.one_pos⟩ = [⟨2, 1⟩] ∧
    1 * 1 ≤ bytes (s.files ⟨1, 1, Nat.one_pos, Nat.one_pos⟩) := by
  have run : History.Run (Step ⟨1, 1, Nat.one_pos, Nat.one_pos⟩) .init _ _ :=
    .snoc (.snoc (.snoc (.snoc (.snoc (.snoc (.snoc (.snoc (.snoc (.snoc (.snoc (.snoc .nil
      (.start rfl rfl))
      (.openNew rfl rfl rfl))
      (.write ⟨1, 1⟩ rfl))
      (.script (by decide +kernel))) (.script (by decide +kernel))) (.script (by decide +kernel)))
      (.script (by decide +kernel)))
      (.reopen rfl))
      (.openNew rfl rfl rfl))
      (.write ⟨2, 1⟩ rfl))
      (.script (by decide +kernel))) (.script (by decide +kernel))
  have h := (log_rotation run).2.2.2 (by decide) (by decide)
  exact ⟨_, _, run, rfl, by decide +kernel, h.resolve_left (by decide +kernel)⟩

end LogRotation

end Dashboard

/-
The rebuilt manifests and the files of the tree.

`rebuild_manifests` walks the tree and takes a file for a qblock file by its name and
extension; `qblock_rel_path` drops the first eight characters of a longer id.

* `isQblockFile_idTail` — the walk recognises the file of an id unless the id has exactly
  eight characters, whose file has no name but its extension;
* `walk_ensures` — **the walk finds every file that it recognises once**;
* `rebuild_partitions` — the manifests list every file exactly once if and only if no id has
  eight characters.
-/
import QuipDashboard.QblockFiles
import Mathlib.Algebra.Order.BigOperators.Group.List
import Mathlib.Data.Finset.Insert

namespace Dashboard

/-! ### Names of files -/

theorem repr_digit {q : ℕ} {c : Char} (hc : c ∈ q.repr.toList) : c.isDigit := by
  rw [Nat.toList_repr] at hc
  exact Nat.isDigit_of_mem_toDigits (by omega) le_rfl hc

theorem length_asBytes_repr (q : ℕ) : (asBytes q.repr).length = q.repr.length := by
  rw [asBytes, List.length_flatMap, ← String.length_toList]
  have hone : ∀ c ∈ q.repr.toList, (String.utf8EncodeChar c).length = 1 := by
    intro c hc
    rw [String.length_utf8EncodeChar, Char.utf8Size_eq_one_iff]
    have hdigit := repr_digit hc
    rw [Char.isDigit, Bool.and_eq_true, decide_eq_true_eq, decide_eq_true_eq] at hdigit
    exact UInt32.le_trans hdigit.2 (by decide)
  rw [List.map_congr_left hone]
  simp

/-- The tail of an id is empty for eight characters only. -/
theorem idTail_repr_eq_empty {q : ℕ} : idTail q.repr = "" ↔ q.repr.length = 8 := by
  rw [idTail, length_asBytes_repr]
  by_cases hlen : q.repr.length < 8
  · rw [if_pos hlen]
    refine ⟨fun h => absurd h Nat.repr_ne_empty, fun h => by omega⟩
  · rw [if_neg hlen, String.ofList_eq_empty_iff, List.drop_eq_nil_iff, String.length_toList]
    omega

theorem idTail_digit {q : ℕ} {c : Char} (hc : c ∈ (idTail q.repr).toList) : c.isDigit := by
  rw [idTail] at hc
  split at hc
  · exact repr_digit hc
  · rw [String.toList_ofList] at hc
    exact repr_digit (List.mem_of_mem_drop hc)

/-- The extension of a JSON file; a name that starts with its last dot has none. -/
theorem extension_json (stem : String) :
    extension (stem ++ ".json") = if stem = "" then none else some "json" := by
  have hchars : (stem ++ ".json").toList.reverse =
      'n' :: 'o' :: 's' :: 'j' :: '.' :: stem.toList.reverse := by
    rw [String.toList_append, List.reverse_append]
    rfl
  have hdots : stem ++ ".json" ≠ ".." := by
    intro h
    have := congrArg (fun s : String => s.toList.reverse.head?) h
    simp only [hchars, List.head?_cons] at this
    exact absurd (Option.some.inj this) (by decide)
  have hdrop : ('n' :: 'o' :: 's' :: 'j' :: '.' :: stem.toList.reverse).dropWhile (· ≠ '.') =
      '.' :: stem.toList.reverse := by
    simp
  have htake : ('n' :: 'o' :: 's' :: 'j' :: '.' :: stem.toList.reverse).takeWhile (· ≠ '.') =
      ['n', 'o', 's', 'j'] := by
    simp
  simp only [extension, if_neg hdots, hchars, hdrop, htake]
  by_cases hstem : stem = ""
  · rw [if_pos hstem, if_pos (by rw [hstem]; rfl)]
  · rw [if_neg hstem, if_neg]
    · rfl
    · rw [List.reverse_eq_nil_iff]
      exact fun h => hstem (String.toList_eq_nil_iff.mp h)

/-- **The walk recognises the file of an id, unless the id has eight characters.** -/
theorem isQblockFile_idTail (q : ℕ) :
    isQblockFile (idTail q.repr ++ ".json") = true ↔ q.repr.length ≠ 8 := by
  have hmanifest : idTail q.repr ++ ".json" ≠ "metadata.json" := by
    intro h
    -- a digit is no letter
    have hm : 'm' ∈ (idTail q.repr).toList := by
      have hchars := congrArg String.toList h
      rw [String.toList_append] at hchars
      cases hl : (idTail q.repr).toList with
      | nil =>
        rw [hl] at hchars
        exact absurd hchars (by decide)
      | cons c cs =>
        rw [hl] at hchars
        obtain ⟨rfl, -⟩ := List.cons.inj hchars
        exact List.mem_cons_self ..
    exact absurd (idTail_digit hm) (by decide)
  rw [isQblockFile, extension_json, Bool.and_eq_true, decide_eq_true_eq, decide_eq_true_eq,
    and_iff_left hmanifest, ne_eq, ← idTail_repr_eq_empty]
  by_cases h : idTail q.repr = ""
  · simp [h]
  · simp [h]

/-! ### Directories -/

/-- The directory of the day manifests. -/
def daysRoot : FilePath := [qblocksDir, daysDir]

section

variable {t : FileTree Document} {p dir : FilePath} {name : String}

theorem isDir_iff : FileTree.isDir t p = true ↔ ∃ q f, t.get? q = some f ∧ p <+: q ∧ p ≠ q := by
  rw [FileTree.isDir, List.any_eq_true]
  constructor
  · rintro ⟨⟨q, f⟩, hq, h⟩
    rw [Bool.and_eq_true, List.isPrefixOf_iff_prefix, decide_eq_true_eq] at h
    exact ⟨q, f, KeyedTable.get?_eq_some.mpr hq, h⟩
  · rintro ⟨q, f, hq, h⟩
    refine ⟨(q, f), KeyedTable.get?_eq_some.mp hq, ?_⟩
    rw [Bool.and_eq_true, List.isPrefixOf_iff_prefix, decide_eq_true_eq]
    exact h

/-- A path strictly below a directory goes through one of its entries. -/
theorem prefix_entry (h : dir <+: p) (hne : dir ≠ p) : ∃ name, dir ++ [name] <+: p := by
  obtain ⟨rest, rfl⟩ := h
  cases rest with
  | nil => exact absurd (List.append_nil dir).symm hne
  | cons name rest => exact ⟨name, rest, by simp⟩

theorem prefix_entry_unique {name' : String} (h : dir ++ [name] <+: p)
    (h' : dir ++ [name'] <+: p) : name = name' := by
  have hsame := List.prefix_of_prefix_length_le h h' (by simp)
  have heq := hsame.eq_of_length (by simp)
  exact List.singleton_inj.mp (List.append_cancel_left heq)

theorem mem_children : name ∈ FileTree.children t dir ↔
    ∃ q f, t.get? q = some f ∧ dir ++ [name] <+: q := by
  rw [FileTree.children, List.mem_dedup, List.mem_filterMap]
  constructor
  · rintro ⟨⟨q, f⟩, hq, h⟩
    obtain ⟨hhead, hpre⟩ := Option.filter_eq_some_iff.mp h
    rw [List.isPrefixOf_iff_prefix] at hpre
    obtain ⟨rest, rfl⟩ := hpre
    rw [List.drop_left] at hhead
    obtain ⟨rest', rfl⟩ := List.head?_eq_some_iff.mp hhead
    exact ⟨_, f, KeyedTable.get?_eq_some.mpr hq, rest', by simp⟩
  · rintro ⟨q, f, hq, rest, rfl⟩
    refine ⟨_, KeyedTable.get?_eq_some.mp hq, Option.filter_eq_some_iff.mpr ⟨?_, ?_⟩⟩
    · rw [List.append_assoc, List.drop_left]
      rfl
    · rw [List.isPrefixOf_iff_prefix, List.append_assoc]
      exact List.prefix_append ..

end

/-! ### What the walk recognises -/

/-- A file below a directory that the walk takes for a qblock file, with its second. -/
structure Recognised (t : FileTree Document) (dir : FilePath) (e : ℤ × FilePath) : Prop where
  file : ∃ content, t.get? e.2 = some ⟨content, e.1⟩
  below : dir <+: e.2 ∧ dir ≠ e.2
  outside : ¬daysRoot <+: e.2
  name : isQblockFile (e.2.getLast?.getD "") = true
  modified : 0 ≤ e.1

/-- The files that the walk recognises below a directory. -/
def recognised (t : FileTree Document) (dir : FilePath) : List (ℤ × FilePath) :=
  (t.rows.map fun e => (e.2.modified, e.1)).filter fun e =>
    (dir <+: e.2 ∧ dir ≠ e.2) ∧ ¬daysRoot <+: e.2 ∧
      isQblockFile (e.2.getLast?.getD "") = true ∧ 0 ≤ e.1

section

variable {t : FileTree Document} {dir : FilePath} {e : ℤ × FilePath}

theorem mem_recognised : e ∈ recognised t dir ↔ Recognised t dir e := by
  rw [recognised, List.mem_filter, List.mem_map, decide_eq_true_eq]
  constructor
  · rintro ⟨⟨⟨p, f⟩, hf, rfl⟩, hbelow, houtside, hname, hmod⟩
    exact ⟨⟨f.content, KeyedTable.get?_eq_some.mpr hf⟩, hbelow, houtside, hname, hmod⟩
  · rintro ⟨⟨content, hf⟩, hbelow, houtside, hname, hmod⟩
    exact ⟨⟨_, KeyedTable.get?_eq_some.mp hf, rfl⟩, hbelow, houtside, hname, hmod⟩

theorem nodup_recognised (t : FileTree Document) (dir : FilePath) : (recognised t dir).Nodup := by
  refine List.Nodup.filter _ ?_
  refine List.Nodup.of_map Prod.snd ?_
  rw [List.map_map]
  exact t.nodup

/-- What the walk finds through one entry of a directory. -/
def throughEntry (t : FileTree Document) (dir : FilePath) (name : String) : List (ℤ × FilePath) :=
  match FileTree.metadata t (dir ++ [name]) with
  | some ⟨true, _⟩ => if dir ++ [name] = daysRoot then [] else recognised t (dir ++ [name])
  | some ⟨false, modified⟩ =>
    if isQblockFile name = true ∧ 0 ≤ modified then [(modified, dir ++ [name])] else []
  | none => []

theorem throughEntry_dir {name : String} {modified : ℤ}
    (h : FileTree.metadata t (dir ++ [name]) = some ⟨true, modified⟩) :
    throughEntry t dir name =
      if dir ++ [name] = daysRoot then [] else recognised t (dir ++ [name]) := by
  rw [throughEntry, h]

theorem throughEntry_file {name : String} {modified : ℤ}
    (h : FileTree.metadata t (dir ++ [name]) = some ⟨false, modified⟩) :
    throughEntry t dir name =
      if isQblockFile name = true ∧ 0 ≤ modified then [(modified, dir ++ [name])] else [] := by
  rw [throughEntry, h]

theorem not_prefix_append (hdir : ¬daysRoot <+: dir) {name : String} (hne : dir ++ [name] ≠ daysRoot) :
    ¬daysRoot <+: dir ++ [name] := by
  rw [List.prefix_concat_iff, not_or]
  exact ⟨fun h => hne h.symm, hdir⟩

theorem mem_throughEntry (ht : FileTree.WellFormed t) (hdir : ¬daysRoot <+: dir) {name : String} :
    e ∈ throughEntry t dir name ↔ Recognised t dir e ∧ dir ++ [name] <+: e.2 := by
  have hbelow : ∀ p : FilePath, dir ++ [name] <+: p → dir <+: p ∧ dir ≠ p := by
    intro p hp
    refine ⟨(List.prefix_append ..).trans hp, ?_⟩
    rintro rfl
    simpa using hp.length_le
  rw [throughEntry, FileTree.metadata]
  cases hget : t.get? (dir ++ [name]) with
  | some f =>
    show e ∈ (if isQblockFile name = true ∧ 0 ≤ f.modified then [(f.modified, dir ++ [name])]
      else []) ↔ _
    constructor
    · intro h
      split at h
      · rename_i hname
        cases List.mem_singleton.mp h
        have hdays : dir ++ [name] ≠ daysRoot := by
          intro heq
          obtain rfl : name = daysDir := by
            have := congrArg List.getLast? heq
            rw [List.getLast?_concat] at this
            exact Option.some.inj this
          exact absurd hname.1 (by decide)
        refine ⟨⟨⟨f.content, hget⟩, hbelow _ (List.prefix_refl _), not_prefix_append hdir hdays, ?_,
          hname.2⟩, List.prefix_refl _⟩
        rw [List.getLast?_concat]
        exact hname.1
      · exact absurd h List.not_mem_nil
    · rintro ⟨⟨⟨content, hfile⟩, -, houtside, hname, hmod⟩, hpre⟩
      -- no file lies below a file
      by_cases heq : dir ++ [name] = e.2
      · obtain ⟨modified, p⟩ := e
        obtain rfl : dir ++ [name] = p := heq
        rw [hget] at hfile
        obtain rfl := Option.some.inj hfile
        rw [List.getLast?_concat] at hname
        rw [if_pos ⟨hname, hmod⟩]
        exact List.mem_singleton_self _
      · have hout : ¬daysRoot <+: dir ++ [name] := fun h => houtside (h.trans hpre)
        have hfalse := ht _ (Option.isSome_of_eq_some hget)
        rw [isDir_iff.mpr ⟨e.2, _, hfile, hpre, heq⟩] at hfalse
        cases hfalse
  | none =>
    by_cases hisdir : FileTree.isDir t (dir ++ [name]) = true
    · simp only [if_pos hisdir]
      by_cases hdays : dir ++ [name] = daysRoot
      · rw [if_pos hdays]
        refine ⟨fun h => absurd h List.not_mem_nil, fun h => ?_⟩
        exact absurd (hdays ▸ h.2) h.1.outside
      · rw [if_neg hdays, mem_recognised]
        constructor
        · intro h
          exact ⟨⟨h.file, hbelow _ h.below.1, h.outside, h.name, h.modified⟩, h.below.1⟩
        · rintro ⟨h, hpre⟩
          refine ⟨h.file, ⟨hpre, ?_⟩, h.outside, h.name, h.modified⟩
          rintro heq
          obtain ⟨content, hfile⟩ := h.file
          rw [← heq, hget] at hfile
          cases hfile
    · simp only [if_neg hisdir]
      refine ⟨fun h => absurd h List.not_mem_nil, fun ⟨h, hpre⟩ => ?_⟩
      obtain ⟨content, hfile⟩ := h.file
      by_cases heq : dir ++ [name] = e.2
      · rw [← heq, hget] at hfile
        cases hfile
      · exact absurd (isDir_iff.mpr ⟨e.2, _, hfile, hpre, heq⟩) hisdir

/-- **What the walk recognises below a directory it finds through the entries.** -/
theorem recognised_through (ht : FileTree.WellFormed t) (hdir : ¬daysRoot <+: dir)
    {names : List String}
    (hnames : names.Perm (FileTree.children t dir)) :
    (recognised t dir).Perm (names.flatMap (throughEntry t dir)) := by
  have hnodup : names.Nodup := hnames.nodup_iff.mpr (List.nodup_dedup _)
  refine (List.perm_ext_iff_of_nodup (nodup_recognised t dir) ?_).mpr fun e => ?_
  · refine List.nodup_flatMap.mpr ⟨fun name _ => ?_, ?_⟩
    · rw [throughEntry]
      split
      · split
        · exact List.nodup_nil
        · exact nodup_recognised ..
      · split
        · exact List.nodup_singleton _
        · exact List.nodup_nil
      · exact List.nodup_nil
    · refine hnodup.imp fun {name name'} hne => ?_
      intro e h h'
      exact hne (prefix_entry_unique ((mem_throughEntry ht hdir).mp h).2
        ((mem_throughEntry ht hdir).mp h').2)
  · rw [mem_recognised, List.mem_flatMap]
    constructor
    · intro h
      obtain ⟨name, hname⟩ := prefix_entry h.below.1 h.below.2
      obtain ⟨content, hfile⟩ := h.file
      exact ⟨name, hnames.mem_iff.mpr (mem_children.mpr ⟨_, _, hfile, hname⟩),
        (mem_throughEntry ht hdir).mpr ⟨h, hname⟩⟩
    · rintro ⟨name, -, h⟩
      exact ((mem_throughEntry ht hdir).mp h).1

end

/-! ### What the walk has found -/

/-- All files that were found. -/
def Found.all (f : Found) : List (ℤ × FilePath) := f.recent ++ f.days.rows.flatMap Prod.snd

/-- The recent files are recent, and the others are of their days. -/
structure Found.Filed (day : ℤ → Option String) (recentSince : ℤ) (f : Found) : Prop where
  recent : ∀ e ∈ f.recent, recentSince ≤ e.1
  days : ∀ d l, f.days.get? d = some l → ∀ e ∈ l, e.1 < recentSince ∧ day e.1 = some d

section

variable {day : ℤ → Option String} {recentSince : ℤ} {f : Found} {e : ℤ × FilePath}

theorem Found.all_pushDay {d : String} : (f.pushDay d e).all.Perm (e :: f.all) := by
  have hdays : ((f.pushDay d e).days.rows.flatMap Prod.snd).Perm
      (e :: f.days.rows.flatMap Prod.snd) := by
    show ((f.days.put d _).rows.flatMap Prod.snd).Perm _
    cases hget : f.days.get? d with
    | none =>
      rw [KeyedTable.put_rows, hget]
      simp only [Option.isSome_none, Bool.false_eq_true, if_false, List.flatMap_append,
        Option.getD_none, List.nil_append, List.flatMap_singleton]
      exact List.perm_append_comm
    | some old =>
      obtain ⟨before, after, hold, hnew⟩ := KeyedTable.put_rows_of_some hget (old ++ [e])
      rw [Option.getD_some, hold, hnew]
      simp only [List.flatMap_append, List.flatMap_cons, List.append_assoc, List.singleton_append]
      refine (List.Perm.append_left _ List.perm_middle).trans List.perm_middle
  exact (List.Perm.append_left f.recent hdays).trans List.perm_middle

theorem Found.Filed.pushDay {d : String} (h : f.Filed day recentSince)
    (hold : e.1 < recentSince) (hday : day e.1 = some d) :
    (f.pushDay d e).Filed day recentSince := by
  refine ⟨h.recent, fun d' l hl e' he' => ?_⟩
  rw [Found.pushDay, KeyedTable.get?_put] at hl
  by_cases hd : d' = d
  · rw [if_pos hd] at hl
    obtain rfl := Option.some.inj hl
    rcases List.mem_append.mp he' with hin | hin
    · cases hget : f.days.get? d with
      | none =>
        rw [hget] at hin
        exact absurd hin List.not_mem_nil
      | some l =>
        rw [hget] at hin
        exact hd ▸ h.days d l hget e' hin
    · rw [List.mem_singleton.mp hin, hd]
      exact ⟨hold, hday⟩
  · rw [if_neg hd] at hl
    exact h.days d' l hl e' he'

/-- **A file that the calendar can place is found.** -/
theorem fileFound_filed (h : f.Filed day recentSince) (hmod : 0 ≤ e.1) (hmax : e.1 ≤ i64Max)
    (hday : (day e.1).isSome) :
    ∃ f', fileFound day recentSince e.2 e.1 f = .ok f' ∧ f'.Filed day recentSince ∧
      f'.all.Perm (e :: f.all) := by
  obtain ⟨d, hd⟩ := Option.isSome_iff_exists.mp hday
  rw [fileFound, if_neg (by omega), if_neg (by omega)]
  by_cases hrecent : recentSince ≤ e.1
  · rw [if_pos hrecent]
    refine ⟨_, rfl, ⟨fun e' he' => ?_, h.days⟩, ?_⟩
    · rcases List.mem_append.mp he' with hin | hin
      · exact h.recent e' hin
      · rw [List.mem_singleton.mp hin]
        exact hrecent
    · show (f.recent ++ [e] ++ _).Perm (e :: (f.recent ++ _))
      rw [List.append_assoc]
      exact List.perm_middle
  · rw [if_neg hrecent, hd]
    exact ⟨_, rfl, h.pushDay (by omega) hd, Found.all_pushDay⟩

end

/-! ### The directories ahead -/

/-- The directories at or below `dir` that a path makes, at most. -/
def pathWeight (dir p : FilePath) : ℕ := if dir <+: p then p.length - dir.length else 0

/-- A bound on the directories at or below `dir`. -/
def weight (t : FileTree Document) (dir : FilePath) : ℕ :=
  (t.rows.map fun e => pathWeight dir e.1).sum

theorem sum_pathWeight (dir p : FilePath) {names : List String} (hnodup : names.Nodup) :
    (names.map fun name => pathWeight (dir ++ [name]) p).sum ≤ pathWeight dir p - 1 := by
  induction names with
  | nil => exact Nat.zero_le _
  | cons name names ih =>
    rw [List.nodup_cons] at hnodup
    rw [List.map_cons, List.sum_cons]
    by_cases hpre : dir ++ [name] <+: p
    · -- no other entry leads to the path
      have hrest : (names.map fun name => pathWeight (dir ++ [name]) p).sum = 0 := by
        refine List.sum_eq_zero fun n hn => ?_
        obtain ⟨name', hname', rfl⟩ := List.mem_map.mp hn
        rw [pathWeight, if_neg]
        intro hpre'
        rw [prefix_entry_unique hpre hpre'] at hnodup
        exact hnodup.1 hname'
      have hdir : dir <+: p := (List.prefix_append ..).trans hpre
      rw [hrest, pathWeight, pathWeight, if_pos hpre, if_pos hdir, List.length_append,
        List.length_singleton]
      omega
    · rw [pathWeight, if_neg hpre, Nat.zero_add]
      exact ih hnodup.2

theorem sum_weight (dir : FilePath) {names : List String} (hnodup : names.Nodup)
    (rows : List (FilePath × StoredFile Document)) :
    (names.map fun name => (rows.map fun e => pathWeight (dir ++ [name]) e.1).sum).sum ≤
      (rows.map fun e => pathWeight dir e.1 - 1).sum := by
  induction rows with
  | nil => simp
  | cons e rows ih =>
    simp only [List.map_cons, List.sum_cons, List.sum_map_add]
    have hrow := sum_pathWeight dir e.1 hnodup
    omega

/-- A directory weighs more than its entries. -/
theorem weight_children {t : FileTree Document} {dir : FilePath} {names : List String}
    (hnodup : names.Nodup) (hdir : FileTree.isDir t dir = true) :
    (names.map fun name => weight t (dir ++ [name])).sum + 1 ≤ weight t dir := by
  obtain ⟨p, f, hp, hpre, hne⟩ := isDir_iff.mp hdir
  obtain ⟨before, after, hrows⟩ := List.append_of_mem (KeyedTable.get?_eq_some.mp hp)
  have hsum := sum_weight dir hnodup t.rows
  have hle : ∀ rows : List (FilePath × StoredFile Document),
      (rows.map fun e => pathWeight dir e.1 - 1).sum ≤ (rows.map fun e => pathWeight dir e.1).sum :=
    fun rows => List.sum_le_sum fun e _ => Nat.sub_le _ 1
  have hpos : 1 ≤ pathWeight dir p := by
    have hlt : dir.length < p.length := by
      rcases Nat.lt_or_ge dir.length p.length with hlt | hge
      · exact hlt
      · exact absurd (hpre.eq_of_length_le hge) hne
    rw [pathWeight, if_pos hpre]
    omega
  refine (Nat.add_le_add_right hsum 1).trans ?_
  rw [weight, hrows]
  simp only [List.map_append, List.map_cons, List.sum_append, List.sum_cons]
  have hbefore := hle before
  have hafter := hle after
  omega

/-! ### The walk -/

section

variable {day : ℤ → Option String} {recentSince : ℤ} {t : FileTree Document}

/-- Every file that the walk recognises has a day. -/
def Dated (day : ℤ → Option String) (t : FileTree Document) : Prop :=
  ∀ e, Recognised t [qblocksDir] e → e.1 ≤ i64Max ∧ (day e.1).isSome

/-- A directory that the walk visits. -/
structure Visited (t : FileTree Document) (dir : FilePath) : Prop where
  below : [qblocksDir] <+: dir
  outside : ¬daysRoot <+: dir
  isDir : FileTree.isDir t dir = true

/-- A walk that finds some files in all, with a bound on the directories ahead. -/
structure Walking (day : ℤ → Option String) (recentSince : ℤ) (t : FileTree Document)
    (files : List (ℤ × FilePath)) (n : ℕ) (stack : List FilePath) (found : Found) : Prop where
  filed : found.Filed day recentSince
  visited : ∀ dir ∈ stack, Visited t dir
  all : (found.all ++ stack.flatMap (recognised t)).Perm files
  bound : (stack.map (weight t)).sum ≤ n

theorem metadata_child {dir : FilePath} {name : String} (h : name ∈ FileTree.children t dir) :
    ∃ info, FileTree.metadata t (dir ++ [name]) = some info ∧
      (info.isDir = true → FileTree.isDir t (dir ++ [name]) = true) ∧
      (info.isDir = false → ∃ content, t.get? (dir ++ [name]) = some ⟨content, info.modified⟩) := by
  obtain ⟨q, f, hq, hpre⟩ := mem_children.mp h
  rw [FileTree.metadata]
  cases hget : t.get? (dir ++ [name]) with
  | some f =>
    refine ⟨_, rfl, ?_, fun _ => ⟨f.content, rfl⟩⟩
    intro h
    cases h
  | none =>
    have hisdir : FileTree.isDir t (dir ++ [name]) = true := by
      refine isDir_iff.mpr ⟨q, f, hq, hpre, ?_⟩
      rintro rfl
      rw [hget] at hq
      cases hq
    refine ⟨_, if_pos hisdir, fun _ => hisdir, ?_⟩
    intro h
    cases h

/-- The entries of a directory add what is found through them. -/
theorem walkEntries_ensures (ht : FileTree.WellFormed t) (hdated : Dated day t) {dir : FilePath}
    (hdir : Visited t dir) {names : List String} (hnames : names ⊆ FileTree.children t dir)
    {files : List (ℤ × FilePath)} {n : ℕ} {stack : List FilePath} {found : Found}
    (h : Walking day recentSince t files n stack found) :
    (walkEntries day recentSince dir names (stack, found)).Ensures FileAnswers (fun r t' =>
      t' = t ∧ ∃ stack' found', r = .ok (stack', found') ∧
        Walking day recentSince t (files ++ names.flatMap (throughEntry t dir))
          (n + (names.map fun name => weight t (dir ++ [name])).sum) stack' found') t := by
  induction names generalizing files n stack found with
  | nil =>
    refine ⟨rfl, stack, found, rfl, h.filed, h.visited, ?_, h.bound⟩
    rw [List.flatMap_nil, List.append_nil]
    exact h.all
  | cons name names ih =>
    rw [List.cons_subset] at hnames
    obtain ⟨info, hinfo, hisdir, hisfile⟩ := metadata_child hnames.1
    refine Program.Ensures.metadata hinfo ?_
    rw [List.flatMap_cons, ← List.append_assoc, List.map_cons, List.sum_cons, ← Nat.add_assoc]
    obtain ⟨isDir, modified⟩ := info
    cases isDir with
    | true =>
      have hthrough := throughEntry_dir hinfo
      rw [if_pos rfl]
      refine ih hnames.2 ?_
      by_cases hdays : dir ++ [name] = daysRoot
      -- the directory of the days is not walked
      · rw [hthrough, if_pos hdays, List.append_nil, if_neg (fun hne => hne hdays)]
        exact ⟨h.filed, h.visited, h.all, h.bound.trans (Nat.le_add_right ..)⟩
      · have hdays' : dir ++ [name] ≠ [qblocksDir, daysDir] := hdays
        rw [hthrough, if_neg hdays, if_pos hdays']
        refine ⟨h.filed, ?_, ?_, ?_⟩
        · intro d hd
          rcases List.mem_cons.mp hd with rfl | hd
          · exact ⟨hdir.below.trans (List.prefix_append ..),
              not_prefix_append hdir.outside hdays, hisdir rfl⟩
          · exact h.visited d hd
        · rw [List.flatMap_cons]
          refine (List.perm_append_comm_assoc ..).trans (List.perm_append_comm.trans ?_)
          exact h.all.append_right _
        · have hbound := h.bound
          rw [List.map_cons, List.sum_cons]
          omega
    | false =>
      have hthrough := throughEntry_file hinfo
      rw [if_neg Bool.false_ne_true]
      -- only a file of a qblock with a date is filed, any other file adds nothing
      obtain ⟨content, hfile⟩ := hisfile rfl
      by_cases hname : isQblockFile name = true
      · rw [if_pos hname]
        by_cases hmod : 0 ≤ modified
        · have hmem : (modified, dir ++ [name]) ∈ throughEntry t dir name := by
            rw [hthrough, if_pos ⟨hname, hmod⟩]
            exact List.mem_singleton_self _
          have hrec := (mem_throughEntry ht hdir.outside).mp hmem
          have hroot : Recognised t [qblocksDir] (modified, dir ++ [name]) := by
            refine ⟨hrec.1.file, ⟨hdir.below.trans (List.prefix_append ..), ?_⟩, hrec.1.outside,
              hrec.1.name, hmod⟩
            intro heq
            have hlen := congrArg List.length heq
            have hle := hdir.below.length_le
            simp only [List.length_append, List.length_singleton] at hlen hle
            omega
          obtain ⟨hmax, hday⟩ := hdated _ hroot
          obtain ⟨found', hfound, hfiled, hall⟩ := fileFound_filed (e := (modified, dir ++ [name]))
            h.filed hmod hmax hday
          rw [hfound, hthrough, if_pos ⟨hname, hmod⟩]
          refine ih hnames.2 ⟨hfiled, h.visited, ?_, h.bound.trans (Nat.le_add_right ..)⟩
          refine (hall.append_right _).trans ?_
          exact (List.Perm.cons _ h.all).trans (List.perm_append_singleton _ _).symm
        · have hneg : modified < 0 := by omega
          rw [fileFound, if_pos hneg, hthrough, if_neg (fun h => hmod h.2), List.append_nil]
          exact ih hnames.2 ⟨h.filed, h.visited, h.all, h.bound.trans (Nat.le_add_right ..)⟩
      · rw [if_neg hname, hthrough, if_neg (fun h => hname h.1), List.append_nil]
        exact ih hnames.2 ⟨h.filed, h.visited, h.all, h.bound.trans (Nat.le_add_right ..)⟩

/-- **The walk finds every file that it recognises once.** -/
theorem walk_ensures (ht : FileTree.WellFormed t) (hdated : Dated day t)
    {files : List (ℤ × FilePath)} {n : ℕ}
    {stack : List FilePath} {found : Found} (h : Walking day recentSince t files n stack found) :
    (walk day recentSince n stack found).Ensures FileAnswers (fun r t' =>
      t' = t ∧ ∃ found', r = .ok found' ∧ found'.Filed day recentSince ∧
        found'.all.Perm files) t := by
  induction n generalizing files stack found with
  | zero =>
    cases stack with
    | nil =>
      refine ⟨rfl, found, rfl, h.filed, ?_⟩
      simpa using h.all
    | cons dir stack =>
      have hweight := weight_children List.nodup_nil (h.visited dir (List.mem_cons_self ..)).isDir
      have hbound := h.bound
      rw [List.map_cons, List.sum_cons] at hbound
      omega
  | succ n ih =>
    cases stack with
    | nil =>
      refine ⟨rfl, found, rfl, h.filed, ?_⟩
      simpa using h.all
    | cons dir stack =>
      have hdir := h.visited dir (List.mem_cons_self ..)
      refine Program.Ensures.readDir fun names hnames => ?_
      have hbefore : Walking day recentSince t (found.all ++ stack.flatMap (recognised t))
          (stack.map (weight t)).sum stack found :=
        ⟨h.filed, fun d hd => h.visited d (List.mem_cons_of_mem _ hd), .refl _, le_rfl⟩
      refine .bind ((walkEntries_ensures ht hdated hdir hnames.subset hbefore).imp ?_)
      rintro r t' ⟨rfl, stack', found', rfl, hafter⟩
      refine ih ⟨hafter.filed, hafter.visited, hafter.all.trans ?_, hafter.bound.trans ?_⟩
      · have hall := h.all
        rw [List.flatMap_cons] at hall
        refine List.Perm.trans ?_ hall
        rw [List.append_assoc]
        refine List.Perm.append_left _ (List.perm_append_comm.trans ?_)
        exact (recognised_through ht hdir.outside hnames).symm.append_right _
      · have hnodup : names.Nodup := hnames.nodup_iff.mpr (List.nodup_dedup _)
        have hweight := weight_children hnodup hdir.isDir
        have hbound := h.bound
        rw [List.map_cons, List.sum_cons] at hbound
        omega

end

/-! ### The manifests -/

/-- The paths that the document at a path lists. -/
def listedAt (t : FileTree Document) (p : FilePath) : List FilePath :=
  ((contents t p).bind Document.qblocks).getD []

/-- The manifests of days that the manifest names. -/
def historyOf (t : FileTree Document) : List FilePath :=
  ((contents t manifestPath).bind Document.history).getD []

/-- The paths listed over all current manifests. -/
def listed (t : FileTree Document) : List FilePath :=
  listedAt t manifestPath ++ (historyOf t).flatMap (listedAt t)

theorem perm_newestFirst (entries : List (ℤ × FilePath)) :
    (newestFirst entries).Perm (entries.map Prod.snd) :=
  (List.mergeSort_perm ..).map _

theorem dayPath_inj {d d' : String} (h : dayPath d = dayPath d') : d = d' := by
  have hname : d ++ ".json" = d' ++ ".json" := by
    simpa [dayPath] using h
  have hchars := congrArg String.toList hname
  rw [String.toList_append, String.toList_append] at hchars
  exact String.toList_injective (List.append_cancel_right hchars)

theorem dayPath_ne_manifestPath (d : String) : dayPath d ≠ manifestPath := by
  intro h
  exact absurd (congrArg List.length h) (by simp [dayPath, manifestPath])

section

variable {pid : ℕ} {day : ℤ → Option String} {recentSince : ℤ} {t : FileTree Document}

/-- Each day has its manifest, and no other document changes. -/
theorem writeDays_ensures {days : List (String × List (ℤ × FilePath))}
    (hnodup : (days.map Prod.fst).Nodup) :
    (writeDays pid days).Ensures FileAnswers (fun r t' =>
      r = .ok (days.map fun e => dayPath e.1) ∧
      (∀ e ∈ days, listedAt t' (dayPath e.1) = newestFirst e.2) ∧
      ∀ p, IsDocument p → (∀ e ∈ days, p ≠ dayPath e.1) → contents t' p = contents t p) t := by
  induction days generalizing t with
  | nil => exact ⟨rfl, fun e he => absurd he List.not_mem_nil, fun _ _ _ => rfl⟩
  | cons e days ih =>
    rw [List.map_cons, List.nodup_cons] at hnodup
    refine .bind ((atomicWrite_ensures (isDocument_dayPath e.1)).imp ?_)
    rintro r t₁ ⟨rfl, hw⟩
    refine .bind ((ih hnodup.2).imp ?_)
    rintro r t₂ ⟨rfl, hdays, hother⟩
    have hself : listedAt t₂ (dayPath e.1) = newestFirst e.2 := by
      rw [listedAt, hother _ (isDocument_dayPath _), hw.self]
      · rfl
      · intro e' he' heq
        rw [dayPath_inj heq] at hnodup
        exact hnodup.1 (List.mem_map_of_mem he')
    refine ⟨rfl, fun e' he' => ?_, fun p hp hne => ?_⟩
    · rcases List.mem_cons.mp he' with rfl | he'
      · exact hself
      · exact hdays e' he'
    · rw [hother p hp fun e' he' => hne e' (List.mem_cons_of_mem _ he')]
      exact hw.other p hp (hne e (List.mem_cons_self ..))

/-- What the manifests list after a rebuild. -/
structure Rebuilt (day : ℤ → Option String) (recentSince : ℤ) (t t' : FileTree Document) :
    Prop where
  listed : (listed t').Perm ((recognised t [qblocksDir]).map Prod.snd)
  recent : ∀ e, Recognised t [qblocksDir] e → recentSince ≤ e.1 → e.2 ∈ listedAt t' manifestPath
  days : ∀ e, Recognised t [qblocksDir] e → e.1 < recentSince →
    ∃ d, day e.1 = some d ∧ dayPath d ∈ historyOf t' ∧ e.2 ∈ listedAt t' (dayPath d)

/-- What was found is what the manifests list. -/
theorem rebuilt_of_found {t' : FileTree Document} (found : Found)
    (hfiled : found.Filed day recentSince) (hall : found.all.Perm (recognised t [qblocksDir]))
    (hrecent : listedAt t' manifestPath = newestFirst found.recent)
    (hhistory : historyOf t' =
      (found.days.rows.mergeSort fun a b => b.1 ≤ a.1).map fun e => dayPath e.1)
    (hdays : ∀ e ∈ found.days.rows, listedAt t' (dayPath e.1) = newestFirst e.2) :
    Rebuilt day recentSince t t' := by
  -- each found file is among the recent ones or under its day
  have hsorted := List.mergeSort_perm found.days.rows fun a b => b.1 ≤ a.1
  have hmem : ∀ e, Recognised t [qblocksDir] e →
      e ∈ found.recent ∨ ∃ d l, found.days.get? d = some l ∧ e ∈ l := by
    intro e he
    rcases List.mem_append.mp (hall.mem_iff.mpr (mem_recognised.mpr he)) with h | h
    · exact .inl h
    · obtain ⟨⟨d, l⟩, hrow, hel⟩ := List.mem_flatMap.mp h
      exact .inr ⟨d, l, KeyedTable.get?_eq_some.mpr hrow, hel⟩
  refine ⟨?_, ?_, ?_⟩
  · have hhist : ((historyOf t').flatMap (listedAt t')).Perm
        ((found.days.rows.flatMap Prod.snd).map Prod.snd) := by
      rw [hhistory, List.flatMap_map, List.map_flatMap]
      refine (hsorted.flatMap_right _).trans ?_
      refine List.Perm.flatMap_left _ fun e he => ?_
      rw [hdays e he]
      exact perm_newestFirst e.2
    refine List.Perm.trans ?_ (hall.map Prod.snd)
    rw [Dashboard.listed, hrecent, Found.all, List.map_append]
    exact (perm_newestFirst found.recent).append hhist
  · intro e he hsince
    rcases hmem e he with h | ⟨d, l, hget, hel⟩
    · rw [hrecent, (perm_newestFirst _).mem_iff]
      exact List.mem_map_of_mem h
    · have hold := (hfiled.days d l hget e hel).1
      omega
  · intro e he hold
    rcases hmem e he with h | ⟨d, l, hget, hel⟩
    · have hsince := hfiled.recent e h
      omega
    · have hrow := KeyedTable.get?_eq_some.mp hget
      refine ⟨d, (hfiled.days d l hget e hel).2, ?_, ?_⟩
      · rw [hhistory]
        exact List.mem_map.mpr ⟨(d, l), hsorted.mem_iff.mpr hrow, rfl⟩
      · rw [hdays _ hrow, (perm_newestFirst _).mem_iff]
        exact List.mem_map_of_mem hel

/-- **A rebuild lists what the walk recognises, each file once.** -/
theorem rebuild_ensures (pid : ℕ) (recentSince : ℤ) (ht : FileTree.WellFormed t)
    (hdated : Dated day t) (hroot : t.get? [qblocksDir] = none) {fuel : ℕ}
    (hfuel : weight t [qblocksDir] ≤ fuel) :
    (rebuildManifests pid day fuel recentSince).Ensures FileAnswers
      (fun r t' => r = .ok () ∧ Rebuilt day recentSince t t') t := by
  refine Program.Ensures.exists_ ?_
  rw [hroot, Option.isSome_none, Bool.false_or]
  cases hdir : FileTree.isDir t [qblocksDir] with
  | false =>
    have hnone : recognised t [qblocksDir] = [] := by
      refine List.eq_nil_iff_forall_not_mem.mpr fun e he => ?_
      obtain ⟨⟨content, hfile⟩, hbelow, -⟩ := mem_recognised.mp he
      rw [isDir_iff.mpr ⟨_, _, hfile, hbelow⟩] at hdir
      cases hdir
    refine (atomicWrite_ensures isDocument_manifestPath).imp ?_
    rintro r t' ⟨rfl, hw⟩
    refine ⟨rfl, rebuilt_of_found ⟨[], .empty⟩ ⟨?_, ?_⟩ ?_ ?_ ?_ ?_⟩
    · exact fun e he => absurd he List.not_mem_nil
    · intro d l hget
      cases (KeyedTable.get?_empty d).symm.trans hget
    · rw [hnone]
      exact .refl _
    · rw [listedAt, hw.self, newestFirst, List.mergeSort_nil]
      rfl
    · rw [historyOf, hw.self, KeyedTable.rows_empty, List.mergeSort_nil]
      rfl
    · exact fun e he => absurd he List.not_mem_nil
  | true =>
    have hvisited : Visited t [qblocksDir] := by
      refine ⟨List.prefix_refl _, fun h => ?_, hdir⟩
      exact absurd h.length_le (by decide)
    have hstart : Walking day recentSince t (recognised t [qblocksDir]) fuel [[qblocksDir]]
        ⟨[], .empty⟩ := by
      refine ⟨⟨fun e he => absurd he List.not_mem_nil, ?_⟩, ?_, ?_, ?_⟩
      · intro d l hget
        cases (KeyedTable.get?_empty d).symm.trans hget
      · intro dir hmem
        rw [List.mem_singleton.mp hmem]
        exact hvisited
      · rw [List.flatMap_singleton]
        exact .refl _
      · rw [List.map_singleton, List.sum_singleton]
        exact hfuel
    refine .bind ((walk_ensures ht hdated hstart).imp ?_)
    rintro r t₀ ⟨rfl, found, rfl, hfiled, hall⟩
    have hsorted := List.mergeSort_perm found.days.rows fun a b => b.1 ≤ a.1
    have hnodup := (hsorted.map Prod.fst).nodup_iff.mpr found.days.nodup
    refine .bind ((writeDays_ensures hnodup).imp ?_)
    rintro r t₁ ⟨rfl, hdays, -⟩
    refine (atomicWrite_ensures isDocument_manifestPath).imp ?_
    rintro r t₂ ⟨rfl, hw⟩
    refine ⟨rfl, rebuilt_of_found found hfiled hall ?_ ?_ ?_⟩
    · rw [listedAt, hw.self]
      rfl
    · rw [historyOf, hw.self]
      rfl
    · intro e he
      rw [← hdays e (hsorted.mem_iff.mpr he), listedAt, listedAt,
        hw.other _ (isDocument_dayPath _) (dayPath_ne_manifestPath _)]

end

/-! ### Files of qblocks -/

theorem hexChars_ne_y {bytes : List UInt8} {c : Char} (hc : c ∈ hexChars bytes) : c ≠ 'y' := by
  have hdigit : ∀ byte : UInt8, Char.ofUInt8 (hexDigit (byte >>> 4)) ≠ 'y' ∧
      Char.ofUInt8 (hexDigit (byte &&& 0x0f)) ≠ 'y' := by
    intro byte
    have hall : ∀ n : Fin 256, Char.ofUInt8 (hexDigit (UInt8.ofFin n >>> 4)) ≠ 'y' ∧
        Char.ofUInt8 (hexDigit (UInt8.ofFin n &&& 0x0f)) ≠ 'y' := by
      decide +kernel
    exact hall byte.toFin
  obtain ⟨byte, -, hc⟩ := List.mem_flatMap.mp hc
  rcases List.mem_cons.mp hc with rfl | hc
  · exact (hdigit byte).1
  · rw [List.mem_singleton.mp hc]
    exact (hdigit byte).2

section

variable {sha256 : Sha256}

/-- No prefix of a hash is the directory of the days. -/
theorem hashPrefix_ne_daysDir (id : String) : (hashPrefix sha256 id).1 ≠ daysDir := by
  intro h
  have hchars := congrArg String.toList h
  rw [hashPrefix, String.toList_ofList] at hchars
  have hy : 'y' ∈ (hexChars (sha256.digest (asBytes id))).take 4 := by
    rw [hchars]
    decide
  exact hexChars_ne_y (List.mem_of_mem_take hy) rfl

theorem qblockPath_outside (q : ℕ) : ¬daysRoot <+: qblockPath sha256 q := by
  intro h
  obtain ⟨rest, h⟩ := h
  exact hashPrefix_ne_daysDir q.repr (List.cons.inj (List.cons.inj h).2).1.symm

theorem qblockPath_injOn {ids : Finset ℕ}
    (h : ∀ q ∈ ids, ∀ q' ∈ ids, hashPrefix sha256 q.repr = hashPrefix sha256 q'.repr → q = q')
    {q q' : ℕ} (hq : q ∈ ids) (hq' : q' ∈ ids) (he : qblockPath sha256 q = qblockPath sha256 q') :
    q = q' := by
  simp only [qblockPath, qblockRelPath, List.cons.injEq] at he
  exact h q hq q' hq' (Prod.ext he.2.1 he.2.2.1)

/-- The files of some qblocks at the writer's paths, their seconds in the calendar's range,
beside the manifests of the writer. -/
structure StoredFiles (sha256 : Sha256) (day : ℤ → Option String) (ids : Finset ℕ)
    (t : FileTree Document) : Prop where
  stored : ∀ q ∈ ids, ∃ f, t.get? (qblockPath sha256 q) = some f
  modified : ∀ q ∈ ids, ∀ f, t.get? (qblockPath sha256 q) = some f →
    0 ≤ f.modified ∧ f.modified ≤ i64Max ∧ (day f.modified).isSome
  other : ∀ p f, t.get? p = some f → [qblocksDir] <+: p →
    (∃ q ∈ ids, p = qblockPath sha256 q) ∨ p = manifestPath ∨ ∃ d, p = dayPath d

/-- **Every file is listed once, where its time puts it, and nothing else is listed.** -/
structure Partitioned (sha256 : Sha256) (day : ℤ → Option String) (recentSince : ℤ)
    (ids : Finset ℕ) (t t' : FileTree Document) : Prop where
  once : ∀ q ∈ ids, (listed t').count (qblockPath sha256 q) = 1
  recent : ∀ q ∈ ids, ∀ f, t.get? (qblockPath sha256 q) = some f → recentSince ≤ f.modified →
    qblockPath sha256 q ∈ listedAt t' manifestPath
  days : ∀ q ∈ ids, ∀ f, t.get? (qblockPath sha256 q) = some f → f.modified < recentSince →
    ∃ d, day f.modified = some d ∧ dayPath d ∈ historyOf t' ∧
      qblockPath sha256 q ∈ listedAt t' (dayPath d)
  only : ∀ p ∈ listed t', ∃ q ∈ ids, p = qblockPath sha256 q

variable {day : ℤ → Option String} {ids : Finset ℕ} {t : FileTree Document}

namespace StoredFiles

theorem outside_cases (h : StoredFiles sha256 day ids t) {p : FilePath} {f : StoredFile Document}
    (hp : t.get? p = some f) (hbelow : [qblocksDir] <+: p) (hout : ¬daysRoot <+: p) :
    (∃ q ∈ ids, p = qblockPath sha256 q) ∨ p = manifestPath := by
  rcases h.other p f hp hbelow with hq | hm | ⟨d, rfl⟩
  · exact .inl hq
  · exact .inr hm
  · exact absurd ⟨[d ++ ".json"], rfl⟩ hout

theorem root (h : StoredFiles sha256 day ids t) : t.get? [qblocksDir] = none := by
  cases hget : t.get? [qblocksDir] with
  | none => rfl
  | some f =>
    rcases h.other _ f hget (List.prefix_refl _) with ⟨q, -, hq⟩ | hm | ⟨d, hd⟩
    · cases hq
    · cases hm
    · cases hd

/-- What the walk recognises are the files of the ids but of eight characters. -/
theorem recognised_iff (h : StoredFiles sha256 day ids t) {e : ℤ × FilePath} :
    Recognised t [qblocksDir] e ↔ ∃ q ∈ ids, q.repr.length ≠ 8 ∧ e.2 = qblockPath sha256 q ∧
      ∃ content, t.get? (qblockPath sha256 q) = some ⟨content, e.1⟩ := by
  constructor
  · rintro ⟨⟨content, hfile⟩, hbelow, hout, hname, -⟩
    rcases h.outside_cases hfile hbelow.1 hout with ⟨q, hq, he⟩ | hm
    · rw [he] at hname hfile
      exact ⟨q, hq, (isQblockFile_idTail q).mp hname, he, content, hfile⟩
    · rw [hm] at hname
      exact absurd hname (by decide)
  · rintro ⟨q, hq, hlen, he, content, hfile⟩
    have hmod := h.modified q hq _ hfile
    refine ⟨⟨content, by rw [he]; exact hfile⟩, ?_, ?_, ?_, hmod.1⟩
    · rw [he]
      refine ⟨⟨_, rfl⟩, fun heq => ?_⟩
      cases heq
    · rw [he]
      exact qblockPath_outside q
    · rw [he]
      exact (isQblockFile_idTail q).mpr hlen

theorem dated (h : StoredFiles sha256 day ids t) : Dated day t := by
  intro e he
  obtain ⟨q, hq, -, -, content, hfile⟩ := h.recognised_iff.mp he
  exact (h.modified q hq _ hfile).2

theorem mem_listed (h : StoredFiles sha256 day ids t) {t' : FileTree Document} {recentSince : ℤ}
    (hr : Rebuilt day recentSince t t') {p : FilePath} :
    p ∈ listed t' ↔ ∃ q ∈ ids, q.repr.length ≠ 8 ∧ p = qblockPath sha256 q := by
  rw [hr.listed.mem_iff, List.mem_map]
  constructor
  · rintro ⟨e, he, rfl⟩
    obtain ⟨q, hq, hlen, hp, -⟩ := h.recognised_iff.mp (mem_recognised.mp he)
    exact ⟨q, hq, hlen, hp⟩
  · rintro ⟨q, hq, hlen, rfl⟩
    obtain ⟨⟨content, modified⟩, hfile⟩ := h.stored q hq
    exact ⟨(modified, qblockPath sha256 q),
      mem_recognised.mpr (h.recognised_iff.mpr ⟨q, hq, hlen, rfl, content, hfile⟩), rfl⟩

/-- The rebuilt manifests partition the files whose ids the walk recognises. -/
theorem partitioned_iff (h : StoredFiles sha256 day ids t)
    (hdistinct : ∀ q ∈ ids, ∀ q' ∈ ids,
      hashPrefix sha256 q.repr = hashPrefix sha256 q'.repr → q = q')
    {t' : FileTree Document} {recentSince : ℤ} (hr : Rebuilt day recentSince t t') :
    Partitioned sha256 day recentSince ids t t' ↔ ∀ q ∈ ids, q.repr.length ≠ 8 := by
  constructor
  · intro hp q hq
    have hmem : qblockPath sha256 q ∈ listed t' := by
      rw [← List.count_pos_iff, hp.once q hq]
      exact Nat.one_pos
    obtain ⟨q', hq', hlen, he⟩ := (h.mem_listed hr).mp hmem
    rw [qblockPath_injOn hdistinct hq hq' he]
    exact hlen
  · intro hlen
    have hrec : ∀ q ∈ ids, ∀ f, t.get? (qblockPath sha256 q) = some f →
        Recognised t [qblocksDir] (f.modified, qblockPath sha256 q) :=
      fun q hq f hf => h.recognised_iff.mpr ⟨q, hq, hlen q hq, rfl, f.content, hf⟩
    refine ⟨fun q hq => ?_, fun q hq f hf hsince => hr.recent _ (hrec q hq f hf) hsince,
      fun q hq f hf hold => hr.days _ (hrec q hq f hf) hold, fun p hp => ?_⟩
    · have hnodup : (listed t').Nodup := by
        refine hr.listed.nodup_iff.mpr ?_
        rw [recognised]
        refine ((List.filter_sublist.map Prod.snd).nodup ?_)
        rw [List.map_map]
        exact t.nodup
      exact List.count_eq_one_of_mem hnodup ((h.mem_listed hr).mpr ⟨q, hq, hlen q hq, rfl⟩)
    · obtain ⟨q, hq, -, hpath⟩ := (h.mem_listed hr).mp hp
      exact ⟨q, hq, hpath⟩

end StoredFiles

/-- **`rebuild_manifests` partitions the files of some ids if and only if no id has exactly
eight characters.** -/
theorem rebuild_partitions (ht : FileTree.WellFormed t) (h : StoredFiles sha256 day ids t)
    (hdistinct : ∀ q ∈ ids, ∀ q' ∈ ids,
      hashPrefix sha256 q.repr = hashPrefix sha256 q'.repr → q = q')
    (pid : ℕ) (recentSince : ℤ) {fuel : ℕ} (hfuel : weight t [qblocksDir] ≤ fuel) :
    (rebuildManifests pid day fuel recentSince).Ensures FileAnswers
      (fun r t' => r = .ok () ∧ Partitioned sha256 day recentSince ids t t') t ↔
    ∀ q ∈ ids, q.repr.length ≠ 8 := by
  have hrebuild := rebuild_ensures pid recentSince ht h.dated h.root hfuel
  constructor
  · intro hpart
    obtain ⟨es, t', r, -, ⟨-, hp⟩, -, hr⟩ := (hpart.and hrebuild).run
    exact (h.partitioned_iff hdistinct hr).mp hp
  · intro hlen
    refine hrebuild.imp ?_
    rintro r t' ⟨rfl, hr⟩
    exact ⟨rfl, (h.partitioned_iff hdistinct hr).mpr hlen⟩

end

/-! ### One file and two -/

/-- A digest that starts with the message. -/
def paddedDigest : Sha256 :=
  ⟨fun message => (message ++ List.replicate 32 0).take 32, fun message => by simp⟩

/-- A tree with the file of one qblock. -/
def soleFile (q : ℕ) : FileTree Document :=
  KeyedTable.empty.put (qblockPath paddedDigest q) ⟨Document.empty, 10⟩

/-- A calendar of one day. -/
def oneDay : ℤ → Option String := fun _ => some "1970-01-01"

/-- Files at the paths of qblocks are not in each other's way. -/
theorem wellFormed_of_qblocks {sha256 : Sha256} {t : FileTree Document}
    (h : ∀ p f, t.get? p = some f → ∃ q, p = qblockPath sha256 q) : FileTree.WellFormed t := by
  intro p hp
  obtain ⟨f, hf⟩ := Option.isSome_iff_exists.mp hp
  rw [← Bool.not_eq_true, isDir_iff]
  rintro ⟨p', f', hf', hpre, hne⟩
  obtain ⟨q, rfl⟩ := h p f hf
  obtain ⟨q', rfl⟩ := h p' f' hf'
  exact hne (hpre.eq_of_length (by simp [qblockPath, qblockRelPath]))

theorem get?_soleFile {q : ℕ} {p : FilePath} {f : StoredFile Document}
    (h : (soleFile q).get? p = some f) : p = qblockPath paddedDigest q ∧ f = ⟨Document.empty, 10⟩ := by
  rw [soleFile, KeyedTable.get?_put] at h
  by_cases hp : p = qblockPath paddedDigest q
  · rw [if_pos hp] at h
    exact ⟨hp, (Option.some.inj h).symm⟩
  · rw [if_neg hp, KeyedTable.get?_empty] at h
    cases h

theorem wellFormed_soleFile (q : ℕ) : FileTree.WellFormed (soleFile q) :=
  wellFormed_of_qblocks fun _ _ h => ⟨q, (get?_soleFile h).1⟩

theorem storedFiles_soleFile (q : ℕ) : StoredFiles paddedDigest oneDay {q} (soleFile q) := by
  refine ⟨fun q' hq' => ?_, fun q' _ f hf => ?_, fun p f hf _ => .inl ⟨q, ?_, (get?_soleFile hf).1⟩⟩
  · rw [Finset.mem_singleton.mp hq']
    exact ⟨_, KeyedTable.get?_put_self ..⟩
  · rw [(get?_soleFile hf).2]
    decide
  · exact Finset.mem_singleton_self q

/-- A tree with the files of qblock 7 and, later, of qblock 81. -/
def twoFiles : FileTree Document :=
  (soleFile 7).put (qblockPath paddedDigest 81) ⟨Document.empty, 20⟩

theorem get?_twoFiles {p : FilePath} {f : StoredFile Document} (h : twoFiles.get? p = some f) :
    p = qblockPath paddedDigest 81 ∧ f = ⟨Document.empty, 20⟩ ∨
      p = qblockPath paddedDigest 7 ∧ f = ⟨Document.empty, 10⟩ := by
  rw [twoFiles, KeyedTable.get?_put] at h
  by_cases hp : p = qblockPath paddedDigest 81
  · rw [if_pos hp] at h
    exact .inl ⟨hp, (Option.some.inj h).symm⟩
  · rw [if_neg hp] at h
    exact .inr (get?_soleFile h)

theorem storedFiles_twoFiles : StoredFiles paddedDigest oneDay {7, 81} twoFiles := by
  refine ⟨fun q hq => ?_, fun q _ f hf => ?_, fun p f hf _ => .inl ?_⟩
  · rw [twoFiles, KeyedTable.get?_put]
    by_cases hp : qblockPath paddedDigest q = qblockPath paddedDigest 81
    · exact ⟨_, if_pos hp⟩
    · rcases Finset.mem_insert.mp hq with rfl | hq
      · exact ⟨_, (if_neg hp).trans (KeyedTable.get?_put_self ..)⟩
      · rw [Finset.mem_singleton.mp hq] at hp
        exact absurd rfl hp
  · rcases get?_twoFiles hf with ⟨-, rfl⟩ | ⟨-, rfl⟩ <;> decide
  · rcases get?_twoFiles hf with ⟨rfl, -⟩ | ⟨rfl, -⟩
    · exact ⟨81, by decide, rfl⟩
    · exact ⟨7, by decide, rfl⟩

/-- Of two files, the later one is listed as recent, and the other one under its day. -/
theorem rebuild_partitions_two :
    (rebuildManifests 1 oneDay (weight twoFiles [qblocksDir]) 15).Ensures FileAnswers
      (fun r t' => r = .ok () ∧ Partitioned paddedDigest oneDay 15 {7, 81} twoFiles t')
      twoFiles := by
  have hwell : FileTree.WellFormed twoFiles := wellFormed_of_qblocks fun _ _ h =>
    (get?_twoFiles h).elim (fun h => ⟨81, h.1⟩) fun h => ⟨7, h.1⟩
  exact (rebuild_partitions hwell storedFiles_twoFiles (by decide +kernel) 1 15 le_rfl).mpr
    (by decide +kernel)

/-- The file of an id of eight characters is stored, and no manifest lists it. -/
theorem eight_characters_unlisted :
    StoredFiles paddedDigest oneDay {10000000} (soleFile 10000000) ∧
    (rebuildManifests 1 oneDay (weight (soleFile 10000000) [qblocksDir]) 0).Ensures FileAnswers
      (fun r t' => r = .ok () ∧ qblockPath paddedDigest 10000000 ∉ listed t' ∧
        ¬Partitioned paddedDigest oneDay 0 {10000000} (soleFile 10000000) t')
      (soleFile 10000000) := by
  have h := storedFiles_soleFile 10000000
  refine ⟨h, (rebuild_ensures 1 0 (wellFormed_soleFile _) h.dated h.root le_rfl).imp ?_⟩
  rintro r t' ⟨rfl, hr⟩
  have hlen : (10000000 : ℕ).repr.length = 8 := by decide +kernel
  have hunlisted : qblockPath paddedDigest 10000000 ∉ listed t' := by
    intro hmem
    obtain ⟨q, hq, hne, -⟩ := (h.mem_listed hr).mp hmem
    rw [Finset.mem_singleton.mp hq] at hne
    exact hne hlen
  refine ⟨rfl, hunlisted, fun hp => hunlisted ?_⟩
  rw [← List.count_pos_iff, hp.once _ (Finset.mem_singleton_self _)]
  exact Nat.one_pos

end Dashboard

/-
Keyed tables with the conflict clauses of SQL.

A `KeyedTable κ ρ` is a finite list of rows under pairwise distinct keys.  The
keys are unique by construction, so a row is found by its key alone:

* `get?_eq_some` — a key is read as `r` iff the row `(k, r)` is stored;
* `get?_upsert` — `INSERT … ON CONFLICT(key) DO …` changes the row of its own
  key and no other;
* `get?_delete`, `get?_erase` — `DELETE … WHERE` removes the rows of its
  condition and keeps the others;
* `put_self` — writing the row that is already stored changes nothing, so a
  replayed statement leaves the very same table.
-/
import Mathlib.Data.List.Nodup
import Mathlib.Tactic.Common

/-- Rows under pairwise distinct keys, in the order they were first inserted. -/
@[ext] structure KeyedTable (κ ρ : Type*) where
  /-- The stored rows with their keys. -/
  rows : List (κ × ρ)
  /-- The primary key constraint. -/
  nodup : (rows.map Prod.fst).Nodup

namespace KeyedTable

variable {κ ρ : Type*}

instance [DecidableEq κ] [DecidableEq ρ] : DecidableEq (KeyedTable κ ρ) := fun t u =>
  decidable_of_iff (t.rows = u.rows) ⟨fun h => KeyedTable.ext h, fun h => h ▸ rfl⟩

/-- The table without rows. -/
def empty : KeyedTable κ ρ := ⟨[], List.nodup_nil⟩

instance : Inhabited (KeyedTable κ ρ) := ⟨empty⟩

/-- `DELETE FROM t WHERE p`. -/
def delete (t : KeyedTable κ ρ) (p : κ → ρ → Bool) : KeyedTable κ ρ :=
  ⟨t.rows.filter fun e => !p e.1 e.2, (List.filter_sublist.map Prod.fst).nodup t.nodup⟩

variable [DecidableEq κ]

/-- The row stored under a key. -/
def get? (t : KeyedTable κ ρ) (k : κ) : Option ρ :=
  (t.rows.find? fun e => e.1 = k).map Prod.snd

/-- Replace the row of a key, where there is one. -/
def replaceRow (k : κ) (r : ρ) (rows : List (κ × ρ)) : List (κ × ρ) :=
  rows.map fun e => if e.1 = k then (k, r) else e

theorem replaceRow_keys (k : κ) (r : ρ) (rows : List (κ × ρ)) :
    (replaceRow k r rows).map Prod.fst = rows.map Prod.fst := by
  rw [replaceRow, List.map_map]
  refine List.map_congr_left fun e _ => ?_
  by_cases h : e.1 = k <;> simp [h]

theorem get?_eq_some {t : KeyedTable κ ρ} {k : κ} {r : ρ} :
    t.get? k = some r ↔ (k, r) ∈ t.rows := by
  constructor
  · intro h
    obtain ⟨e, he, rfl⟩ := Option.map_eq_some_iff.mp h
    have hk : e.1 = k := by simpa using List.find?_some he
    have hm := List.mem_of_find?_eq_some he
    subst hk
    exact hm
  · intro h
    cases hf : t.rows.find? fun e => e.1 = k with
    | none =>
      have := List.find?_eq_none.mp hf (k, r) h
      simp at this
    | some e =>
      have hk : e.1 = k := by simpa using List.find?_some hf
      have hm := List.mem_of_find?_eq_some hf
      -- distinct keys: the row found is the row asked for
      have := List.inj_on_of_nodup_map t.nodup hm h hk
      rw [get?, hf, this]
      rfl

theorem get?_eq_none {t : KeyedTable κ ρ} {k : κ} :
    t.get? k = none ↔ ∀ r, (k, r) ∉ t.rows := by
  constructor
  · intro h r hr
    rw [get?_eq_some.mpr hr] at h
    simp at h
  · intro h
    cases hg : t.get? k with
    | none => rfl
    | some r => exact absurd (get?_eq_some.mp hg) (h r)

theorem not_mem_keys {t : KeyedTable κ ρ} {k : κ} (h : t.get? k = none) :
    k ∉ t.rows.map Prod.fst := by
  intro hk
  obtain ⟨⟨k', r⟩, hm, rfl⟩ := List.mem_map.mp hk
  exact get?_eq_none.mp h r hm

/-- `INSERT … ON CONFLICT(key) DO UPDATE`: replace the row in place, or append it. -/
def put (t : KeyedTable κ ρ) (k : κ) (r : ρ) : KeyedTable κ ρ :=
  match h : t.get? k with
  | some _ => ⟨replaceRow k r t.rows, by rw [replaceRow_keys]; exact t.nodup⟩
  | none => ⟨t.rows ++ [(k, r)], by
      rw [List.map_append]
      exact List.Nodup.append t.nodup (by simp) (by simpa using not_mem_keys h)⟩

theorem put_rows (t : KeyedTable κ ρ) (k : κ) (r : ρ) :
    (t.put k r).rows =
      if (t.get? k).isSome then replaceRow k r t.rows else t.rows ++ [(k, r)] := by
  unfold put
  split <;> simp_all

/-- `DELETE FROM t WHERE key=k`. -/
def erase (t : KeyedTable κ ρ) (k : κ) : KeyedTable κ ρ := t.delete fun k' _ => k' = k

/-- `INSERT … ON CONFLICT(key) DO …`: a fresh key stores `new`; a stored row
`old` is replaced by `update old`, or left alone.  The count is the number of
rows written. -/
def upsert (t : KeyedTable κ ρ) (k : κ) (new : ρ) (update : ρ → Option ρ) :
    ℕ × KeyedTable κ ρ :=
  match t.get? k with
  | none => (1, t.put k new)
  | some old =>
    match update old with
    | none => (0, t)
    | some r => (1, t.put k r)

/-- `INSERT … ON CONFLICT(key) DO NOTHING`. -/
def insertNew (t : KeyedTable κ ρ) (k : κ) (new : ρ) : KeyedTable κ ρ :=
  (t.upsert k new fun _ => none).2

/-- Store a list of rows one after another. -/
def putAll (t : KeyedTable κ ρ) (l : List (κ × ρ)) : KeyedTable κ ρ :=
  l.foldl (fun t e => t.put e.1 e.2) t

/-! ### Reading what was written -/

@[simp] theorem get?_empty (k : κ) : (empty : KeyedTable κ ρ).get? k = none := rfl

omit [DecidableEq κ] in
@[simp] theorem rows_empty : (empty : KeyedTable κ ρ).rows = [] := rfl

theorem get?_put (t : KeyedTable κ ρ) (k k' : κ) (r : ρ) :
    (t.put k r).get? k' = if k' = k then some r else t.get? k' := by
  -- by membership first, as a lookup is one in a table with one row for each key
  have hmem : ∀ r', (k', r') ∈ (t.put k r).rows ↔
      if k' = k then r' = r else (k', r') ∈ t.rows := by
    intro r'
    rw [put_rows]
    cases hg : t.get? k with
    | none =>
      by_cases hk : k' = k
      · subst hk
        have := get?_eq_none.mp hg r'
        simp [this]
      · simp [hk]
    | some old =>
      have hold := get?_eq_some.mp hg
      simp only [Option.isSome_some, if_true, replaceRow, List.mem_map]
      by_cases hk : k' = k
      · subst hk
        simp only [if_true]
        constructor
        · rintro ⟨e, -, he⟩
          by_cases hek : e.1 = k' <;> grind
        · rintro rfl
          exact ⟨(k', old), hold, by simp⟩
      · simp only [hk, if_false]
        constructor
        · rintro ⟨e, hm, he⟩
          by_cases hek : e.1 = k <;> grind
        · intro hm
          exact ⟨(k', r'), hm, by simp [hk]⟩
  by_cases hk : k' = k
  · rw [if_pos hk]
    exact get?_eq_some.mpr ((hmem r).mpr (by rw [if_pos hk]))
  · rw [if_neg hk]
    cases hg : t.get? k' with
    | none =>
      refine get?_eq_none.mpr fun r' hr' => get?_eq_none.mp hg r' ?_
      simpa [hk] using (hmem r').mp hr'
    | some old =>
      refine get?_eq_some.mpr ((hmem old).mpr ?_)
      rw [if_neg hk]
      exact get?_eq_some.mp hg

@[simp] theorem get?_put_self (t : KeyedTable κ ρ) (k : κ) (r : ρ) :
    (t.put k r).get? k = some r := by
  rw [get?_put, if_pos rfl]

/-- A row that is written takes the place of one row at most. -/
theorem length_put_le (t : KeyedTable κ ρ) (k : κ) (r : ρ) :
    (t.put k r).rows.length ≤ t.rows.length + 1 := by
  rw [put_rows]
  split
  · rw [replaceRow, List.length_map]
    exact Nat.le_succ _
  · rw [List.length_append]
    exact Nat.le_refl _

theorem length_put_of_some {t : KeyedTable κ ρ} {k : κ} {old : ρ} (h : t.get? k = some old)
    (r : ρ) : (t.put k r).rows.length = t.rows.length := by
  rw [put_rows, h, Option.isSome_some, if_pos rfl, replaceRow, List.length_map]

theorem mem_put {t : KeyedTable κ ρ} {k : κ} {r : ρ} {e : κ × ρ} (he : e ∈ (t.put k r).rows) :
    e ∈ t.rows ∨ e = (k, r) := by
  have hget := get?_eq_some.mpr (show (e.1, e.2) ∈ (t.put k r).rows from he)
  rw [get?_put] at hget
  split at hget
  · next hkey => exact .inr (Prod.ext hkey (Option.some.inj hget).symm)
  · exact .inl (get?_eq_some.mp hget)

theorem get?_put_ne {t : KeyedTable κ ρ} {k k' : κ} {r : ρ} (h : k' ≠ k) :
    (t.put k r).get? k' = t.get? k' := by
  rw [get?_put, if_neg h]

/-- Writing the stored row again leaves the same table. -/
theorem put_self {t : KeyedTable κ ρ} {k : κ} {r : ρ} (h : t.get? k = some r) :
    t.put k r = t := by
  refine KeyedTable.ext ?_
  rw [put_rows, h, Option.isSome_some, if_pos rfl, replaceRow]
  conv_rhs => rw [← List.map_id t.rows]
  refine List.map_congr_left fun e he => ?_
  by_cases hk : e.1 = k
  · have : t.get? e.1 = some e.2 := get?_eq_some.mpr he
    rw [hk, h] at this
    rw [if_pos hk, id_eq, Option.some.inj this]
    exact Prod.ext hk.symm rfl
  · rw [if_neg hk, id_eq]

theorem replaceRow_of_not_mem {k : κ} {rows : List (κ × ρ)} (h : k ∉ rows.map Prod.fst) (r : ρ) :
    replaceRow k r rows = rows := by
  rw [replaceRow]
  conv_rhs => rw [← List.map_id rows]
  refine List.map_congr_left fun e he => ?_
  rw [if_neg, id_eq]
  rintro rfl
  exact h (List.mem_map_of_mem he)

/-- An update of a stored row is in its place. -/
theorem put_rows_of_some {t : KeyedTable κ ρ} {k : κ} {old : ρ} (h : t.get? k = some old) (r : ρ) :
    ∃ before after, t.rows = before ++ (k, old) :: after ∧
      (t.put k r).rows = before ++ (k, r) :: after := by
  obtain ⟨before, after, hrows⟩ := List.append_of_mem (get?_eq_some.mp h)
  refine ⟨before, after, hrows, ?_⟩
  have hnodup := t.nodup
  rw [hrows, List.map_append, List.map_cons, List.nodup_middle, List.nodup_cons,
    List.mem_append, not_or] at hnodup
  obtain ⟨⟨hbefore, hafter⟩, -⟩ := hnodup
  rw [put_rows, h, Option.isSome_some, if_pos rfl, hrows, replaceRow, List.map_append,
    List.map_cons, if_pos rfl]
  rw [← replaceRow, ← replaceRow, replaceRow_of_not_mem hbefore, replaceRow_of_not_mem hafter]

theorem get?_putAll_of_not_mem {t : KeyedTable κ ρ} {l : List (κ × ρ)} {k : κ}
    (h : k ∉ l.map Prod.fst) : (t.putAll l).get? k = t.get? k := by
  induction l generalizing t with
  | nil => rfl
  | cons e l ih =>
    rw [List.map_cons, List.mem_cons, not_or] at h
    exact (ih (t := t.put e.1 e.2) h.2).trans (get?_put_ne h.1)

/-- Rows under distinct keys are all stored. -/
theorem get?_putAll {t : KeyedTable κ ρ} {l : List (κ × ρ)} {k : κ} {r : ρ}
    (hl : (l.map Prod.fst).Nodup) (h : (k, r) ∈ l) : (t.putAll l).get? k = some r := by
  induction l generalizing t with
  | nil => cases h
  | cons e l ih =>
    rw [List.map_cons, List.nodup_cons] at hl
    rcases List.mem_cons.mp h with rfl | h
    · exact (get?_putAll_of_not_mem (t := t.put k r) hl.1).trans (get?_put_self t k r)
    · exact ih (t := t.put e.1 e.2) hl.2 h

/-- Storing rows that are all stored changes nothing. -/
theorem putAll_self {t : KeyedTable κ ρ} {l : List (κ × ρ)}
    (h : ∀ e ∈ l, t.get? e.1 = some e.2) : t.putAll l = t := by
  induction l with
  | nil => rfl
  | cons e l ih =>
    rw [putAll, List.foldl_cons, put_self (h e (List.mem_cons_self ..))]
    exact ih fun e' he' => h e' (List.mem_cons_of_mem _ he')

theorem get?_delete {t : KeyedTable κ ρ} {p : κ → ρ → Bool} {k : κ} {r : ρ} :
    (t.delete p).get? k = some r ↔ t.get? k = some r ∧ p k r = false := by
  rw [get?_eq_some, get?_eq_some, delete, List.mem_filter]
  simp

@[simp] theorem get?_erase_self (t : KeyedTable κ ρ) (k : κ) : (t.erase k).get? k = none := by
  cases h : (t.erase k).get? k with
  | none => rfl
  | some r =>
    have := (get?_delete.mp h).2
    simp at this

theorem get?_erase_ne {t : KeyedTable κ ρ} {k k' : κ} (h : k' ≠ k) :
    (t.erase k).get? k' = t.get? k' := by
  ext r
  rw [erase, get?_delete]
  simp [h]

/-- The row that an upsert leaves under its own key. -/
theorem get?_upsert_self (t : KeyedTable κ ρ) (k : κ) (new : ρ) (update : ρ → Option ρ) :
    (t.upsert k new update).2.get? k =
      some ((t.get? k).elim new fun old => (update old).getD old) := by
  unfold upsert
  cases h : t.get? k with
  | none => simp
  | some old =>
    cases hu : update old with
    | none => simpa [hu] using h
    | some r => simp [hu]

/-- `INSERT … ON CONFLICT(key) DO UPDATE SET … WHERE differs`. -/
def upsertWhere (t : KeyedTable κ ρ) (k : κ) (new : ρ) (differs : ρ → ρ → Bool) :
    ℕ × KeyedTable κ ρ :=
  t.upsert k new fun old => if differs old new then some new else none

/-- A conditional upsert stores the new row, unless the stored one passes for it. -/
theorem get?_upsertWhere_self (t : KeyedTable κ ρ) (k : κ) (new : ρ) (differs : ρ → ρ → Bool) :
    ((∀ old, t.get? k = some old → differs old new = true) ∧
        (t.upsertWhere k new differs).2.get? k = some new) ∨
      ∃ old, t.get? k = some old ∧ differs old new = false ∧
        (t.upsertWhere k new differs).2.get? k = some old := by
  rw [upsertWhere, get?_upsert_self]
  cases h : t.get? k with
  | none => exact .inl ⟨by simp, rfl⟩
  | some old =>
    cases hd : differs old new with
    | false => exact .inr ⟨old, rfl, hd, by simp [hd]⟩
    | true => exact .inl ⟨by simpa using hd, by simp [hd]⟩

theorem get?_upsert_ne {t : KeyedTable κ ρ} {k k' : κ} {new : ρ} {update : ρ → Option ρ}
    (h : k' ≠ k) : (t.upsert k new update).2.get? k' = t.get? k' := by
  unfold upsert
  split
  · exact get?_put_ne h
  · split
    · rfl
    · exact get?_put_ne h

/-- An upsert that wrote no row left the table as it was. -/
theorem upsert_zero {t : KeyedTable κ ρ} {k : κ} {new : ρ} {update : ρ → Option ρ}
    (h : (t.upsert k new update).1 = 0) : (t.upsert k new update).2 = t := by
  unfold upsert at h ⊢
  split <;> rename_i hg
  · rw [hg] at h
    simp at h
  · split <;> rename_i hu
    · rfl
    · rw [hg] at h
      simp [hu] at h

/-- An upsert writes no row when its key is stored and its update declines. -/
theorem upsert_of_update_none {t : KeyedTable κ ρ} {k : κ} {new old : ρ}
    {update : ρ → Option ρ} (hg : t.get? k = some old) (hu : update old = none) :
    t.upsert k new update = (0, t) := by
  unfold upsert
  rw [hg]
  simp [hu]

theorem upsert_of_none {t : KeyedTable κ ρ} {k : κ} {new : ρ} {update : ρ → Option ρ}
    (hg : t.get? k = none) : t.upsert k new update = (1, t.put k new) := by
  unfold upsert
  rw [hg]

theorem upsert_of_some {t : KeyedTable κ ρ} {k : κ} {new old r : ρ} {update : ρ → Option ρ}
    (hg : t.get? k = some old) (hu : update old = some r) :
    t.upsert k new update = (1, t.put k r) := by
  unfold upsert
  rw [hg]
  simp [hu]

theorem get?_insertNew (t : KeyedTable κ ρ) (k k' : κ) (new : ρ) :
    (t.insertNew k new).get? k' =
      if k' = k then some ((t.get? k).getD new) else t.get? k' := by
  by_cases h : k' = k
  · subst h
    rw [if_pos rfl, insertNew, get?_upsert_self]
    cases t.get? k' <;> rfl
  · rw [if_neg h, insertNew, get?_upsert_ne h]

/-- A stored row survives `ON CONFLICT DO NOTHING`. -/
theorem get?_insertNew_of_some {t : KeyedTable κ ρ} {k k' : κ} {new r : ρ}
    (h : t.get? k' = some r) : (t.insertNew k new).get? k' = some r := by
  rw [get?_insertNew]
  by_cases hk : k' = k
  · subst hk
    simp [h]
  · simp [hk, h]

/-- A row of the table after `DO NOTHING` was there before, or is the new one. -/
theorem get?_of_insertNew {t : KeyedTable κ ρ} {k k' : κ} {new r : ρ}
    (h : (t.insertNew k new).get? k' = some r) :
    t.get? k' = some r ∨ k' = k ∧ t.get? k = none ∧ r = new := by
  rw [get?_insertNew] at h
  split at h
  · rename_i hk
    subst hk
    cases hget : t.get? k' with
    | none =>
      rw [hget] at h
      exact .inr ⟨rfl, rfl, (Option.some.inj h).symm⟩
    | some old =>
      rw [hget] at h
      exact .inl h
  · exact .inl h

theorem insertNew_of_some {t : KeyedTable κ ρ} {k : κ} {new r : ρ} (h : t.get? k = some r) :
    t.insertNew k new = t := by
  rw [insertNew, upsert_of_update_none h rfl]

/-- Store the rows of a list whose keys are not stored yet. -/
def insertAll (t : KeyedTable κ ρ) (l : List (κ × ρ)) : KeyedTable κ ρ :=
  l.foldl (fun t e => t.insertNew e.1 e.2) t

theorem get?_insertAll {t : KeyedTable κ ρ} {l : List (κ × ρ)} {k : κ} {r : ρ}
    (h : (t.insertAll l).get? k = some r) : t.get? k = some r ∨ (k, r) ∈ l := by
  induction l generalizing t with
  | nil => exact .inl h
  | cons e l ih =>
    rcases ih (t := t.insertNew e.1 e.2) h with h | h
    · rw [get?_insertNew] at h
      by_cases hk : k = e.1
      · rw [if_pos hk] at h
        cases ht : t.get? e.1 with
        | none =>
          rw [ht] at h
          right
          rw [hk, ← Option.some.inj h]
          exact List.mem_cons_self ..
        | some old =>
          rw [ht] at h
          left
          rw [hk, ht, ← Option.some.inj h]
          rfl
      · rw [if_neg hk] at h
        exact .inl h
    · exact .inr (List.mem_cons_of_mem _ h)

/-- The rows of a table fill the keys that are not stored yet. -/
theorem get?_insertAll_rows (t u : KeyedTable κ ρ) (k : κ) :
    (t.insertAll u.rows).get? k = (t.get? k).or (u.get? k) := by
  have key : ∀ (l : List (κ × ρ)) (t : KeyedTable κ ρ), (l.map Prod.fst).Nodup →
      (t.insertAll l).get? k = (t.get? k).or ((l.find? fun e => e.1 = k).map Prod.snd) := by
    intro l
    induction l with
    | nil => simp [insertAll]
    | cons e l ih =>
      intro t hl
      rw [List.map_cons, List.nodup_cons] at hl
      show ((t.insertNew e.1 e.2).insertAll l).get? k = _
      rw [ih _ hl.2, get?_insertNew]
      by_cases hk : k = e.1
      · subst hk
        cases t.get? e.1 <;> simp
      · simp [hk, Ne.symm hk]
  exact key u.rows t u.nodup

end KeyedTable

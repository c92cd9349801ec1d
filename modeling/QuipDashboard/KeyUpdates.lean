/-
Updates of the key of a table, one row after another.

`UPDATE t SET key=f(key)` visits the rows in an order of the engine's own, and the unique
constraint is checked after every row: a row that is moved onto the key of another row fails,
even if that row would be moved away later.

* `updateKeys_eq` — **keys that are moved off the old ones and apart from each other never
  collide**, whatever the order: every row has its new key in the end.
-/
import Mathlib.Data.List.Induction
import QuipDashboard.KeyedTable

namespace KeyedTable

variable {κ ρ : Type*} [DecidableEq κ]

/-- `SET key=f(key)` on the row of one key; none when the unique constraint fails. -/
def updateKey (f : κ → κ) (t : KeyedTable κ ρ) (k : κ) : Option (KeyedTable κ ρ) :=
  let rows := t.rows.map fun e => if e.1 = k then (f k, e.2) else e
  if h : (rows.map Prod.fst).Nodup then some ⟨rows, h⟩ else none

/-- `UPDATE t SET key=f(key)` with the rows in the order of these keys. -/
def updateKeys (f : κ → κ) (t : KeyedTable κ ρ) (order : List κ) : Option (KeyedTable κ ρ) :=
  order.foldlM (updateKey f) t

/-- What `UPDATE t SET key=f(key)` may make of a table. -/
def UpdatesKeys (f : κ → κ) (t t' : KeyedTable κ ρ) : Prop :=
  ∃ order : List κ, order.Perm (t.rows.map Prod.fst) ∧ t.updateKeys f order = some t'

variable {f : κ → κ} {t : KeyedTable κ ρ}

theorem updateKey_eq {k : κ}
    (h : ((t.rows.map fun e => if e.1 = k then (f k, e.2) else e).map Prod.fst).Nodup) :
    t.updateKey f k = some ⟨_, h⟩ := dif_pos h

/-- The rows of which some have been visited. -/
def visited (f : κ → κ) (order : List κ) (e : κ × ρ) : κ × ρ :=
  if e.1 ∈ order then (f e.1, e.2) else e

/-- Rows of which some have been visited have distinct keys. -/
theorem nodup_visited (hout : ∀ k ∈ t.rows.map Prod.fst, f k ∉ t.rows.map Prod.fst)
    (hinj : ∀ a ∈ t.rows.map Prod.fst, ∀ b ∈ t.rows.map Prod.fst, f a = f b → a = b)
    (order : List κ) : ((t.rows.map (visited f order)).map Prod.fst).Nodup := by
  have hkeys : (t.rows.map (visited f order)).map Prod.fst =
      (t.rows.map Prod.fst).map fun k => if k ∈ order then f k else k := by
    rw [List.map_map, List.map_map]
    refine List.map_congr_left fun e _ => ?_
    show (visited f order e).1 = if e.1 ∈ order then f e.1 else e.1
    rw [visited]
    split <;> rfl
  rw [hkeys]
  refine t.nodup.map_on fun a ha b hb hab => ?_
  by_cases hao : a ∈ order <;> by_cases hbo : b ∈ order
  · rw [if_pos hao, if_pos hbo] at hab
    exact hinj a ha b hb hab
  · rw [if_pos hao, if_neg hbo] at hab
    exact absurd (hab ▸ hb) (hout a ha)
  · rw [if_neg hao, if_pos hbo] at hab
    exact absurd (hab ▸ ha) (hout b hb)
  · rwa [if_neg hao, if_neg hbo] at hab

/-- **Keys that are moved off the old ones and apart from each other never collide**, in any
order of the rows. -/
theorem updateKeys_eq (hout : ∀ k ∈ t.rows.map Prod.fst, f k ∉ t.rows.map Prod.fst)
    (hinj : ∀ a ∈ t.rows.map Prod.fst, ∀ b ∈ t.rows.map Prod.fst, f a = f b → a = b)
    (order : List κ) (horder : ∀ k ∈ order, k ∈ t.rows.map Prod.fst) (hnodup : order.Nodup) :
    ∃ t', t.updateKeys f order = some t' ∧ t'.rows = t.rows.map (visited f order) := by
  induction order using List.reverseRecOn with
  | nil =>
    refine ⟨t, rfl, ?_⟩
    rw [show visited f [] = (id : κ × ρ → κ × ρ) from funext fun e => if_neg List.not_mem_nil,
      List.map_id]
  | append_singleton order k ih =>
    obtain ⟨hdone, -, hnew⟩ := List.nodup_append.mp hnodup
    obtain ⟨t₁, ht₁, hrows⟩ := ih (fun a ha => horder a (List.mem_append_left _ ha)) hdone
    have hk := horder k (List.mem_append_right _ (List.mem_singleton_self k))
    have hstep : (t₁.rows.map fun e => if e.1 = k then (f k, e.2) else e) =
        t.rows.map (visited f (order ++ [k])) := by
      rw [hrows, List.map_map]
      refine List.map_congr_left fun e he => ?_
      have hkey := List.mem_map_of_mem (f := Prod.fst) he
      show (if (visited f order e).1 = k then (f k, (visited f order e).2) else visited f order e) = _
      by_cases hvisited : e.1 ∈ order
      · have hne : f e.1 ≠ k := fun heq => hout e.1 hkey (heq ▸ hk)
        rw [visited, visited, if_pos hvisited, if_neg hne,
          if_pos (List.mem_append_left _ hvisited)]
      · rw [visited, visited, if_neg hvisited]
        by_cases hek : e.1 = k
        · rw [if_pos hek, if_pos (List.mem_append_right _ (hek ▸ List.mem_singleton_self k)), hek]
        · rw [if_neg hek, if_neg]
          rintro hmem
          rcases List.mem_append.mp hmem with hmem | hmem
          · exact hvisited hmem
          · exact hek (List.mem_singleton.mp hmem)
    have hnext := nodup_visited hout hinj (order ++ [k])
    rw [← hstep] at hnext
    refine ⟨⟨_, hnext⟩, ?_, hstep⟩
    rw [updateKeys, List.foldlM_append, ← updateKeys, ht₁]
    show [k].foldlM (updateKey f) t₁ = _
    rw [List.foldlM_cons, updateKey_eq hnext]
    rfl

/-- An update of all the rows succeeds in every order. -/
theorem updateKeys_all (hout : ∀ k ∈ t.rows.map Prod.fst, f k ∉ t.rows.map Prod.fst)
    (hinj : ∀ a ∈ t.rows.map Prod.fst, ∀ b ∈ t.rows.map Prod.fst, f a = f b → a = b)
    {order : List κ} (horder : order.Perm (t.rows.map Prod.fst)) :
    ∃ t', t.updateKeys f order = some t' ∧ t'.rows = t.rows.map fun e => (f e.1, e.2) := by
  obtain ⟨t', ht', hrows⟩ := updateKeys_eq hout hinj order (fun k hk => horder.mem_iff.mp hk)
    (horder.nodup_iff.mpr t.nodup)
  refine ⟨t', ht', hrows.trans (List.map_congr_left fun e he => if_pos ?_)⟩
  exact horder.mem_iff.mpr (List.mem_map_of_mem he)

end KeyedTable

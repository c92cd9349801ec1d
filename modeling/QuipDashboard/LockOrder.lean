/-
Tasks that wait for locks in the order of a rank.

A task is a list of operations: it acquires a lock in a mode and waits in the lock's
queue, first come first served, until the lock admits it; it releases what it owns of a
lock; it works.  Guards may move into a shared value, which other tasks adopt and a cache
refers to, and which releases them with its last owner.  Tasks are spawned at any time and
stopped between any two operations, which drops their guards; a cached value whose last
owner is stopped keeps its guards until the cache is cleared.

* `Ordered` — along its operations, a task acquires only locks that rank above all that it
  owns; `Takes` gives the rules for routines that are built from smaller ones;
* `Step.keeps` — every step keeps the locks valid and every task in order;
* `Inv.done_of_stuck` — **when no task can move, all are done**, if every lock that keeps a
  task waiting is owned by one that waits for nothing, or for a lock of a higher rank;
* `Inv.moves_le` — tasks that are left alone move only finitely often.
-/
import QuipDashboard.History
import Mathlib.Algebra.BigOperators.Group.Finset.Basic
import Mathlib.Algebra.Order.BigOperators.Group.Finset
import Mathlib.Data.Finset.Max
import Mathlib.Data.Finset.Range

namespace LockOrder

/-- An operation of a task: on a lock `R`, which is acquired in a mode `M`. -/
inductive Op (R M : Type) where
  | acquire (r : R) (m : M)
  | release (r : R)
  | work
  /-- The guards of the task move into a shared value, which a cache refers to. -/
  | publish (r : R)
  /-- The cache drops the value. -/
  | withdraw (r : R)
  /-- The task becomes an owner of a shared value, if there is one. -/
  | adopt (r : R)

/-- A guard: an admission that is not released yet. -/
structure Guard (R M : Type) where
  res : R
  mode : M
  /-- The tasks that own it. -/
  owners : List ℕ
  /-- It has moved into a shared value. -/
  value : Bool
  /-- A cache refers to that value. -/
  cached : Bool

/-- All tasks so far, which are numbered, and all guards. -/
structure State (τ R M : Type) where
  todo : ℕ → List (Op R M)
  /-- When a waiting task has entered the queue. -/
  ticket : ℕ → Option ℕ
  tag : ℕ → τ
  spawned : ℕ
  guards : List (Guard R M)
  clock : ℕ

variable {τ R M : Type} [DecidableEq R]

/-- No task. -/
def State.init (t : τ) : State τ R M := ⟨fun _ => [], fun _ => none, fun _ => t, 0, [], 0⟩

/-- The modes in which a lock is held. -/
def held (gs : List (Guard R M)) (r : R) : List M := (gs.filter fun g => g.res = r).map (·.mode)

/-- The locks that a task owns. -/
def owns (gs : List (Guard R M)) (j : ℕ) : List R := (gs.filter fun g => j ∈ g.owners).map (·.res)

/-- How many guards of a lock no task owns any more. -/
def leaked (gs : List (Guard R M)) (r : R) : ℕ := gs.countP fun g => g.res = r ∧ g.owners = []

/-- A task releases what it owns of a lock; the last owner drops the guard. -/
def leave (j : ℕ) (r : R) (g : Guard R M) : Option (Guard R M) :=
  if g.res = r ∧ j ∈ g.owners then
    if g.owners.filter (· ≠ j) = [] then none else some { g with owners := g.owners.filter (· ≠ j) }
  else some g

/-- A task is stopped; a cached value outlives it. -/
def abandon (j : ℕ) (g : Guard R M) : Option (Guard R M) :=
  if j ∈ g.owners then
    if g.owners.filter (· ≠ j) = [] ∧ g.cached = false then none
    else some { g with owners := g.owners.filter (· ≠ j) }
  else some g

/-- `Op.publish`. -/
def publish (j : ℕ) (r : R) (g : Guard R M) : Option (Guard R M) :=
  some (if g.res = r ∧ j ∈ g.owners then { g with value := true, cached := true } else g)

/-- `Op.withdraw`. -/
def withdraw (j : ℕ) (r : R) (g : Guard R M) : Option (Guard R M) :=
  some (if g.res = r ∧ j ∈ g.owners then { g with cached := false } else g)

/-- A task goes on to its next operation. -/
def State.advance (s : State τ R M) (j : ℕ) (t : List (Op R M)) (gs : List (Guard R M)) :
    State τ R M :=
  { s with todo := Function.update s.todo j t, ticket := Function.update s.ticket j none, guards := gs }

/-- When a lock admits one more, by the modes in which it is held, and what holds of these
modes as long as it is acquired so. -/
structure Locks (R M : Type) where
  admits : R → M → List M → Prop
  Valid : R → List M → Prop
  free : ∀ r, Valid r []
  drop : ∀ {r l l'}, Valid r l → l'.Sublist l → Valid r l'
  grant : ∀ {r m l}, Valid r l → admits r m l → Valid r (l ++ [m])

section Steps

variable (L : Locks R M)

/-- One move of a task. -/
inductive Move (s : State τ R M) (j : ℕ) : State τ R M → Prop
  | wait {r : R} {m : M} {t : List (Op R M)} (h : s.todo j = .acquire r m :: t)
      (hticket : s.ticket j = none) :
      Move s j { s with ticket := Function.update s.ticket j (some s.clock), clock := s.clock + 1 }
  | grant {r : R} {m : M} {t : List (Op R M)} {k : ℕ} (h : s.todo j = .acquire r m :: t)
      (hticket : s.ticket j = some k)
      (hhead : ∀ i m' t' k', s.todo i = .acquire r m' :: t' → s.ticket i = some k' → k ≤ k')
      (hadmits : L.admits r m (held s.guards r)) :
      Move s j (s.advance j t (s.guards ++ [⟨r, m, [j], false, false⟩]))
  | release {r : R} {t : List (Op R M)} (h : s.todo j = .release r :: t) :
      Move s j (s.advance j t (s.guards.filterMap (leave j r)))
  | work {t : List (Op R M)} (h : s.todo j = .work :: t) : Move s j (s.advance j t s.guards)
  | publish {r : R} {t : List (Op R M)} (h : s.todo j = .publish r :: t) :
      Move s j (s.advance j t (s.guards.filterMap (publish j r)))
  | withdraw {r : R} {t : List (Op R M)} (h : s.todo j = .withdraw r :: t) :
      Move s j (s.advance j t (s.guards.filterMap (withdraw j r)))
  | adopt {r : R} {t : List (Op R M)} {pre post : List (Guard R M)} {g : Guard R M}
      (h : s.todo j = .adopt r :: t) (hgs : s.guards = pre ++ g :: post) (hr : g.res = r)
      (hvalue : g.value = true) :
      Move s j (s.advance j t (pre ++ { g with owners := j :: g.owners } :: post))
  | miss {r : R} {t : List (Op R M)} (h : s.todo j = .adopt r :: t) : Move s j (s.advance j t s.guards)

/-- What happens in a run. -/
inductive Event where
  | move (j : ℕ)
  | spawn
  | stop (j : ℕ)
  | clear

-- which tasks may be spawned in a state
variable (Starts : State τ R M → τ → List (Op R M) → Prop)

/-- One step of a run. -/
inductive Step : State τ R M → Event → State τ R M → Prop
  | move {s s' : State τ R M} {j : ℕ} (h : Move L s j s') : Step s (.move j) s'
  | spawn {s : State τ R M} {t : τ} {ops : List (Op R M)} (h : Starts s t ops) :
      Step s .spawn { s with
        todo := Function.update s.todo s.spawned ops
        tag := Function.update s.tag s.spawned t
        spawned := s.spawned + 1 }
  | stop (s : State τ R M) (j : ℕ) :
      Step s (.stop j) (s.advance j [] (s.guards.filterMap (abandon j)))
  | clear {s : State τ R M} {pre post : List (Guard R M)} {g : Guard R M}
      (hgs : s.guards = pre ++ g :: post) (howners : g.owners = []) :
      Step s .clear { s with guards := pre ++ post }

end Steps

/-! ### The order of a task's locks -/

/-- While it owns some locks, a task acquires only locks that rank above them, and it ends
with none. -/
def Ordered (ρ : R → ℕ) : List R → List (Op R M) → Prop
  | own, [] => own = []
  | own, .acquire r _ :: t => (∀ o ∈ own, ρ o < ρ r) ∧ Ordered ρ (r :: own) t
  | own, .release r :: t => Ordered ρ (own.filter (· ≠ r)) t
  | own, .adopt r :: t => Ordered ρ (r :: own) t
  | own, .work :: t => Ordered ρ own t
  | own, .publish _ :: t => Ordered ρ own t
  | own, .withdraw _ :: t => Ordered ρ own t

theorem Ordered.mono {ρ : R → ℕ} {own own' : List R} {t : List (Op R M)} (h : Ordered ρ own t)
    (hsub : own' ⊆ own) : Ordered ρ own' t := by
  induction t generalizing own own' with
  | nil =>
    rw [show own = [] from h] at hsub
    exact List.subset_nil.mp hsub
  | cons op t ih =>
    cases op with
    | acquire r m => exact ⟨fun o ho => h.1 o (hsub ho), ih h.2 (List.cons_subset_cons r hsub)⟩
    | release r =>
      refine ih h fun o ho => ?_
      rw [List.mem_filter] at ho ⊢
      exact ⟨hsub ho.1, ho.2⟩
    | adopt r => exact ih (show Ordered ρ (r :: own) t from h) (List.cons_subset_cons r hsub)
    | work => exact ih (show Ordered ρ own t from h) hsub
    | publish r => exact ih (show Ordered ρ own t from h) hsub
    | withdraw r => exact ih (show Ordered ρ own t from h) hsub

/-- A routine that may run while only locks below `low` are owned, and that ends owning at
most the locks `S` besides them. -/
def Takes (ρ : R → ℕ) (low : ℕ) (S : List R) (ops : List (Op R M)) : Prop :=
  ∀ (own : List R) (t : List (Op R M)), (∀ o ∈ own, ρ o < low) → Ordered ρ (S ++ own) t →
    Ordered ρ own (ops ++ t)

/-- Hold a lock during a routine. -/
def hold (r : R) (m : M) (ops : List (Op R M)) : List (Op R M) :=
  .acquire r m :: (ops ++ [.release r])

/-- Release some locks. -/
def releases (S : List R) : List (Op R M) := S.map .release

/-- Become an owner of a value that keeps some locks. -/
def adopts (S : List R) : List (Op R M) := S.map .adopt

/-- The cache drops a value that keeps some locks. -/
def withdraws (S : List R) : List (Op R M) := S.map .withdraw

namespace Takes

variable {ρ : R → ℕ} {low low' : ℕ} {S S' : List R} {ops ops' : List (Op R M)} {r : R} {m : M}

theorem nil : Takes ρ low [] ([] : List (Op R M)) := fun _ _ _ h => h

theorem work : Takes ρ low [] ([.work] : List (Op R M)) := fun _ _ _ h => h

theorem publish : Takes ρ low [] ([.publish r] : List (Op R M)) := fun _ _ _ h => h

theorem withdraws : Takes ρ low [] (LockOrder.withdraws S : List (Op R M)) := by
  induction S with
  | nil => exact nil
  | cons r S ih => exact fun own t hown ht => ih own t hown ht

theorem adopts : Takes ρ low S (LockOrder.adopts S : List (Op R M)) := by
  intro own t _ ht
  -- adopted locks are among `S`, in whichever order
  suffices h : ∀ (l own' : List R), l ⊆ S → own' ⊆ S ++ own → Ordered ρ own' (LockOrder.adopts l ++ t) from
    h S own (List.Subset.refl _) (List.subset_append_right ..)
  intro l
  induction l with
  | nil => exact fun own' _ hsub => ht.mono hsub
  | cons r l ih =>
    intro own' hl hsub
    rw [List.cons_subset] at hl
    exact ih (r :: own') hl.2 (List.cons_subset.mpr ⟨List.mem_append_left _ hl.1, hsub⟩)

theorem acquire (hlow : low ≤ ρ r) : Takes ρ low [r] ([.acquire r m] : List (Op R M)) :=
  fun _ _ hown h => ⟨fun o ho => (hown o ho).trans_le hlow, h⟩

theorem mono (h : Takes ρ low S ops) (hle : low' ≤ low) (hsub : S ⊆ S') : Takes ρ low' S' ops :=
  fun own t hown ht => h own t (fun o ho => (hown o ho).trans_le hle)
    (ht.mono (List.append_subset.mpr
      ⟨List.subset_append_of_subset_left _ hsub, List.subset_append_right ..⟩))

theorem append (h : Takes ρ low S ops) (h' : Takes ρ low' S' ops') (hle : low ≤ low')
    (hS : ∀ r ∈ S, ρ r < low') : Takes ρ low (S' ++ S) (ops ++ ops') := by
  intro own t hown ht
  rw [List.append_assoc]
  refine h own _ hown (h' (S ++ own) t ?_ (by rwa [← List.append_assoc]))
  intro o ho
  rcases List.mem_append.mp ho with ho | ho
  · exact hS o ho
  · exact (hown o ho).trans_le hle

theorem flatten {l : List (List (Op R M))} (h : ∀ ops ∈ l, Takes ρ low [] ops) :
    Takes ρ low [] l.flatten := by
  induction l with
  | nil => exact nil
  | cons ops l ih =>
    rw [List.flatten_cons]
    exact append (h ops (List.mem_cons_self ..))
      (ih fun ops' h' => h ops' (List.mem_cons_of_mem _ h')) le_rfl (by simp)

theorem hold (hlow : low ≤ ρ r) (h : Takes ρ (ρ r + 1) S ops) :
    Takes ρ low S (LockOrder.hold r m ops) := by
  intro own t hown ht
  have hr : ∀ o ∈ own, ρ o < ρ r := fun o ho => (hown o ho).trans_le hlow
  refine ⟨hr, ?_⟩
  show Ordered ρ (r :: own) (ops ++ [.release r] ++ t)
  rw [List.append_assoc]
  refine h (r :: own) _ ?_ ?_
  · intro o ho
    rcases List.mem_cons.mp ho with rfl | ho
    · exact Nat.lt_succ_self _
    · exact Nat.lt_succ_of_lt (hr o ho)
  · show Ordered ρ ((S ++ r :: own).filter (· ≠ r)) t
    refine Ordered.mono ht fun o ho => ?_
    rw [List.mem_filter] at ho
    have hne : o ≠ r := of_decide_eq_true ho.2
    simpa [hne] using ho.1

/-- What is owned besides is released again. -/
theorem ordered_releases {own own' : List R} {t : List (Op R M)} (ht : Ordered ρ own t)
    (hsub : own' ⊆ S ++ own) : Ordered ρ own' (releases S ++ t) := by
  induction S generalizing own' with
  | nil => exact ht.mono hsub
  | cons r S ih =>
    suffices hrest : own'.filter (· ≠ r) ⊆ S ++ own from ih hrest
    intro o ho
    rw [List.mem_filter] at ho
    have hne : o ≠ r := of_decide_eq_true ho.2
    have := hsub ho.1
    rw [List.cons_append, List.mem_cons] at this
    exact this.resolve_left hne

theorem release (h : Takes ρ low S ops) : Takes ρ low [] (ops ++ releases S) := by
  intro own t hown ht
  rw [List.append_assoc]
  exact h own _ hown (ordered_releases ht (List.Subset.refl _))

/-- A routine that gives back all that it takes is in order for a new task. -/
theorem ordered (h : Takes ρ low [] ops) : Ordered ρ [] ops := by
  have := h [] [] (by simp) rfl
  rwa [List.append_nil] at this

end Takes

/-! ### Guards -/

omit [DecidableEq R] in
theorem mem_owns {gs : List (Guard R M)} {j : ℕ} {r : R} :
    r ∈ owns gs j ↔ ∃ g ∈ gs, j ∈ g.owners ∧ g.res = r := by
  simp [owns, and_assoc]

theorem mem_held {gs : List (Guard R M)} {r : R} {m : M} :
    m ∈ held gs r ↔ ∃ g ∈ gs, g.res = r ∧ g.mode = m := by
  simp [held, and_assoc]

/-- What a change of the guards that grants nothing does to each. -/
structure Kept (g g' : Guard R M) : Prop where
  res : g'.res = g.res
  mode : g'.mode = g.mode
  owners : g'.owners ⊆ g.owners
  value : g.value = true → g'.value = true
  alive : (g.owners = [] → g.cached = true) → g'.owners = [] → g'.cached = true

omit [DecidableEq R] in
theorem Kept.refl (g : Guard R M) : Kept g g := ⟨rfl, rfl, fun _ h => h, id, id⟩

theorem leave_some {j : ℕ} {r : R} {g g' : Guard R M} (h : leave j r g = some g') :
    Kept g g' ∧ (g'.value = true → g.value = true) ∧ (g'.cached = true → g.cached = true) ∧
      (g'.owners = [] → g.owners = []) ∧ (j ∈ g'.owners → g'.res ≠ r) := by
  unfold leave at h
  split at h
  · rename_i hg
    split at h
    · cases h
    · rename_i hne
      cases h
      refine ⟨⟨rfl, rfl, List.filter_subset_self _, id, fun _ h => absurd h hne⟩, id, id,
        fun h => absurd h hne, fun hj => ?_⟩
      simp at hj
  · rename_i hg
    cases h
    exact ⟨.refl g, id, id, id, fun hj hr => hg ⟨hr, hj⟩⟩

omit [DecidableEq R] in
theorem abandon_some {j : ℕ} {g g' : Guard R M} (h : abandon j g = some g') :
    Kept g g' ∧ (g'.value = true → g.value = true) ∧ (g'.cached = true → g.cached = true) ∧
      j ∉ g'.owners := by
  unfold abandon at h
  split at h
  · split at h
    · cases h
    · rename_i hne
      cases h
      refine ⟨⟨rfl, rfl, List.filter_subset_self _, id, fun _ hnil => ?_⟩, id, id, by simp⟩
      by_contra hc
      exact hne ⟨hnil, by simpa using hc⟩
  · rename_i hj
    cases h
    exact ⟨.refl g, id, id, hj⟩

theorem publish_some {j : ℕ} {r : R} {g g' : Guard R M} (h : publish j r g = some g') :
    Kept g g' ∧ g'.owners = g.owners ∧
      (g'.value = true ∨ g'.cached = true → g.value = true ∨ g.cached = true ∨ g.res = r) := by
  cases h
  split_ifs with hg
  · exact ⟨⟨rfl, rfl, fun _ h => h, fun _ => rfl, fun _ _ => rfl⟩, rfl, fun _ => .inr (.inr hg.1)⟩
  · refine ⟨.refl g, rfl, ?_⟩
    rintro (h | h)
    · exact .inl h
    · exact .inr (.inl h)

theorem withdraw_some {j : ℕ} {r : R} {g g' : Guard R M} (h : withdraw j r g = some g') :
    Kept g g' ∧ g'.owners = g.owners ∧ (g'.value = true → g.value = true) ∧
      (g'.cached = true → g.cached = true) := by
  cases h
  split_ifs with hg
  · refine ⟨⟨rfl, rfl, fun _ h => h, id, fun _ hnil => ?_⟩, rfl, id, fun hc => by cases hc⟩
    -- the task that withdraws the value owns it
    exact absurd hg.2 (by rw [show g.owners = [] from hnil]; exact List.not_mem_nil)
  · exact ⟨.refl g, rfl, id, id⟩

theorem held_cons {g : Guard R M} {r : R} (gs : List (Guard R M)) (h : g.res = r) :
    held (g :: gs) r = g.mode :: held gs r := by
  unfold held
  rw [List.filter_cons_of_pos (by simpa using h), List.map_cons]

theorem held_cons_ne {g : Guard R M} {r : R} (gs : List (Guard R M)) (h : g.res ≠ r) :
    held (g :: gs) r = held gs r := by
  unfold held
  rw [List.filter_cons_of_neg (by simpa using h)]

theorem held_append (gs gs' : List (Guard R M)) (r : R) :
    held (gs ++ gs') r = held gs r ++ held gs' r := by
  simp [held]

theorem held_filterMap {f : Guard R M → Option (Guard R M)}
    (hf : ∀ g g', f g = some g' → Kept g g') (gs : List (Guard R M)) (r : R) :
    (held (gs.filterMap f) r).Sublist (held gs r) := by
  induction gs with
  | nil => exact .slnil
  | cons g gs ih =>
    cases hg : f g with
    | none =>
      rw [List.filterMap_cons_none hg]
      by_cases hr : g.res = r
      · rw [held_cons gs hr]
        exact ih.cons _
      · rw [held_cons_ne gs hr]
        exact ih
    | some g' =>
      have hk := hf g g' hg
      rw [List.filterMap_cons_some hg]
      by_cases hr : g.res = r
      · rw [held_cons gs hr, held_cons _ (hk.res.trans hr), hk.mode]
        exact ih.cons_cons _
      · rw [held_cons_ne gs hr, held_cons_ne _ fun h => hr (hk.res.symm.trans h)]
        exact ih

omit [DecidableEq R] in
theorem owns_filterMap {f : Guard R M → Option (Guard R M)}
    (hf : ∀ g g', f g = some g' → Kept g g') (gs : List (Guard R M)) (i : ℕ) :
    owns (gs.filterMap f) i ⊆ owns gs i := by
  intro r hr
  obtain ⟨g', hg', hi, rfl⟩ := mem_owns.mp hr
  obtain ⟨g, hg, hfg⟩ := List.mem_filterMap.mp hg'
  have hk := hf g g' hfg
  exact mem_owns.mpr ⟨g, hg, hk.owners hi, hk.res.symm⟩

theorem leaked_filterMap {f : Guard R M → Option (Guard R M)}
    (hf : ∀ g g', f g = some g' → Kept g g' ∧ (g'.owners = [] → g.owners = []))
    (gs : List (Guard R M)) (r : R) : leaked (gs.filterMap f) r ≤ leaked gs r := by
  induction gs with
  | nil => exact le_rfl
  | cons g gs ih =>
    unfold leaked at ih ⊢
    rw [List.countP_cons]
    cases hg : f g with
    | none =>
      rw [List.filterMap_cons_none hg]
      omega
    | some g' =>
      obtain ⟨hk, hnil⟩ := hf g g' hg
      rw [List.filterMap_cons_some hg, List.countP_cons]
      have : (decide (g'.res = r ∧ g'.owners = []) = true) →
          decide (g.res = r ∧ g.owners = []) = true := by
        simp only [decide_eq_true_eq]
        exact fun h => ⟨hk.res.symm.trans h.1, hnil h.2⟩
      split_ifs with h₁ h₂ h₂
      · omega
      · exact absurd (this h₁) h₂
      · omega
      · omega

/-! ### The invariant -/

/-- The order in which the tasks of each tag acquire, and the operations they have. -/
structure Discipline (τ R M : Type) where
  rank : τ → R → ℕ
  Fits : τ → Op R M → Prop

/-- What holds of the guards between any two steps. -/
structure Sound (L : Locks R M) (D : Discipline τ R M) (tag : ℕ → τ) (gs : List (Guard R M)) :
    Prop where
  owned : ∀ g ∈ gs, ∀ j ∈ g.owners, D.Fits (tag j) (.acquire g.res g.mode) ∨ g.value = true
  values : ∀ g ∈ gs, g.value = true ∨ g.cached = true → ∃ t, D.Fits t (.publish g.res)
  alive : ∀ g ∈ gs, g.owners = [] → g.cached = true
  valid : ∀ r, L.Valid r (held gs r)

/-- What holds between any two steps. -/
structure Inv (L : Locks R M) (D : Discipline τ R M) (s : State τ R M) : Prop where
  unspawned : ∀ j, s.spawned ≤ j → s.todo j = []
  waiting : ∀ j k, s.ticket j = some k → k < s.clock ∧ ∃ r m t, s.todo j = .acquire r m :: t
  distinct : ∀ i j k, s.ticket i = some k → s.ticket j = some k → i = j
  ordered : ∀ j, Ordered (D.rank (s.tag j)) (owns s.guards j) (s.todo j)
  fits : ∀ j, ∀ op ∈ s.todo j, D.Fits (s.tag j) op
  sound : Sound L D s.tag s.guards

variable {L : Locks R M} {D : Discipline τ R M} {s s' : State τ R M}

theorem inv_init (t : τ) : Inv L D (.init t) where
  unspawned _ _ := rfl
  waiting _ _ h := by cases h
  distinct _ _ _ h := by cases h
  ordered _ := rfl
  fits _ op h := by cases h
  sound := ⟨by simp [State.init], by simp [State.init], by simp [State.init], L.free⟩

/-- A task that is done owns nothing. -/
theorem Inv.owns_done (hs : Inv L D s) {j : ℕ} (h : s.todo j = []) : owns s.guards j = [] := by
  have := hs.ordered j
  rwa [h] at this

theorem Inv.todo_of_owner (hs : Inv L D s) {g : Guard R M} (hg : g ∈ s.guards) {j : ℕ}
    (hj : j ∈ g.owners) : s.todo j ≠ [] := by
  intro h
  have hmem : g.res ∈ owns s.guards j := mem_owns.mpr ⟨g, hg, hj, rfl⟩
  rw [hs.owns_done h] at hmem
  cases hmem

namespace Sound

variable {tag : ℕ → τ} {gs : List (Guard R M)}

theorem filterMap {f : Guard R M → Option (Guard R M)} (h : Sound L D tag gs)
    (hf : ∀ g g', f g = some g' → Kept g g' ∧ (g'.value = true ∨ g'.cached = true →
      g.value = true ∨ g.cached = true ∨ ∃ t, D.Fits t (.publish g.res))) :
    Sound L D tag (gs.filterMap f) := by
  refine ⟨?_, ?_, ?_, fun r => L.drop (h.valid r) (held_filterMap (fun g g' hg => (hf g g' hg).1) gs r)⟩
  · intro g' hg' j hj
    obtain ⟨g, hg, hfg⟩ := List.mem_filterMap.mp hg'
    have hk := (hf g g' hfg).1
    rw [hk.res, hk.mode]
    exact (h.owned g hg j (hk.owners hj)).imp_right hk.value
  · intro g' hg' hv
    obtain ⟨g, hg, hfg⟩ := List.mem_filterMap.mp hg'
    obtain ⟨hk, hval⟩ := hf g g' hfg
    rw [hk.res]
    rcases hval hv with hv | hv | hfits
    · exact h.values g hg (.inl hv)
    · exact h.values g hg (.inr hv)
    · exact hfits
  · intro g' hg' hnil
    obtain ⟨g, hg, hfg⟩ := List.mem_filterMap.mp hg'
    exact (hf g g' hfg).1.alive (h.alive g hg) hnil

theorem grant (h : Sound L D tag gs) {j : ℕ} {r : R} {m : M} (hfits : D.Fits (tag j) (.acquire r m))
    (hadmits : L.admits r m (held gs r)) : Sound L D tag (gs ++ [⟨r, m, [j], false, false⟩]) := by
  refine ⟨?_, ?_, ?_, ?_⟩
  · intro g hg i hi
    rcases List.mem_append.mp hg with hg | hg
    · exact h.owned g hg i hi
    · cases List.mem_singleton.mp hg
      cases List.mem_singleton.mp hi
      exact .inl hfits
  · intro g hg hv
    rcases List.mem_append.mp hg with hg | hg
    · exact h.values g hg hv
    · cases List.mem_singleton.mp hg
      simp at hv
  · intro g hg hnil
    rcases List.mem_append.mp hg with hg | hg
    · exact h.alive g hg hnil
    · cases List.mem_singleton.mp hg
      cases hnil
  · intro r'
    rw [held_append]
    by_cases hr : r = r'
    · subst hr
      rw [held_cons [] rfl]
      exact L.grant (h.valid r) hadmits
    · rw [held_cons_ne [] hr, show held ([] : List (Guard R M)) r' = [] from rfl, List.append_nil]
      exact h.valid r'

theorem adopt {pre post : List (Guard R M)} {g : Guard R M} (h : Sound L D tag (pre ++ g :: post))
    (hvalue : g.value = true) (j : ℕ) :
    Sound L D tag (pre ++ { g with owners := j :: g.owners } :: post) := by
  have hmem : ∀ x ∈ pre ++ { g with owners := j :: g.owners } :: post,
      x ∈ pre ++ g :: post ∨ x = { g with owners := j :: g.owners } := by
    intro x hx
    simp only [List.mem_append, List.mem_cons] at hx ⊢
    tauto
  have hg : g ∈ pre ++ g :: post := by simp
  refine ⟨?_, ?_, ?_, fun r => ?_⟩
  · intro x hx i hi
    rcases hmem x hx with hx | rfl
    · exact h.owned x hx i hi
    · exact .inr hvalue
  · intro x hx hv
    rcases hmem x hx with hx | rfl
    · exact h.values x hx hv
    · exact h.values g hg hv
  · intro x hx hnil
    rcases hmem x hx with hx | rfl
    · exact h.alive x hx hnil
    · cases hnil
  · have := h.valid r
    rw [held_append] at this ⊢
    by_cases hr : g.res = r
    · rw [held_cons post hr] at this
      rw [held_cons post (show Guard.res { g with owners := j :: g.owners } = r from hr)]
      exact this
    · rw [held_cons_ne post hr] at this
      rw [held_cons_ne post (show Guard.res { g with owners := j :: g.owners } ≠ r from hr)]
      exact this

theorem clear {pre post : List (Guard R M)} {g : Guard R M} (h : Sound L D tag (pre ++ g :: post)) :
    Sound L D tag (pre ++ post) := by
  have hsub : (pre ++ post).Sublist (pre ++ g :: post) :=
    (List.Sublist.refl pre).append (List.sublist_cons_self g post)
  refine ⟨fun x hx => h.owned x (hsub.subset hx), fun x hx => h.values x (hsub.subset hx),
    fun x hx => h.alive x (hsub.subset hx), fun r => L.drop (h.valid r) ?_⟩
  exact (hsub.filter _).map _

end Sound

/-! ### Every step keeps the invariant -/

omit [DecidableEq R] in
theorem owns_append (gs gs' : List (Guard R M)) (j : ℕ) :
    owns (gs ++ gs') j = owns gs j ++ owns gs' j := by
  simp [owns]

/-- A task goes on to its next operation, and owns at most what it may own there. -/
theorem Inv.advance (hs : Inv L D s) {j : ℕ} {t : List (Op R M)} {gs : List (Guard R M)}
    (hj : s.spawned ≤ j → t = []) (hfits : ∀ op ∈ t, op ∈ s.todo j)
    (hown : Ordered (D.rank (s.tag j)) (owns gs j) t)
    (hother : ∀ i, i ≠ j → owns gs i ⊆ owns s.guards i) (hsound : Sound L D s.tag gs) :
    Inv L D (s.advance j t gs) := by
  refine ⟨?_, ?_, ?_, ?_, ?_, hsound⟩
  · intro i hi
    show Function.update s.todo j t i = []
    by_cases hij : i = j
    · subst hij
      rw [Function.update_self]
      exact hj hi
    · rw [Function.update_of_ne hij]
      exact hs.unspawned i hi
  · intro i k hk
    by_cases hij : i = j
    · subst hij
      have : Function.update s.ticket i none i = some k := hk
      rw [Function.update_self] at this
      cases this
    · have hk' : Function.update s.ticket j none i = some k := hk
      rw [Function.update_of_ne hij] at hk'
      obtain ⟨hlt, r, m, t', ht⟩ := hs.waiting i k hk'
      refine ⟨hlt, r, m, t', ?_⟩
      show Function.update s.todo j t i = _
      rw [Function.update_of_ne hij, ht]
  · have hticket : ∀ i k, Function.update s.ticket j none i = some k → s.ticket i = some k := by
      intro i k hk
      by_cases hij : i = j
      · subst hij
        rw [Function.update_self] at hk
        cases hk
      · rwa [Function.update_of_ne hij] at hk
    exact fun i i' k hi hi' => hs.distinct i i' k (hticket i k hi) (hticket i' k hi')
  · intro i
    show Ordered (D.rank (s.tag i)) (owns gs i) (Function.update s.todo j t i)
    by_cases hij : i = j
    · subst hij
      rw [Function.update_self]
      exact hown
    · rw [Function.update_of_ne hij]
      exact (hs.ordered i).mono (hother i hij)
  · intro i op hop
    have hop' : op ∈ Function.update s.todo j t i := hop
    by_cases hij : i = j
    · subst hij
      rw [Function.update_self] at hop'
      exact hs.fits i op (hfits op hop')
    · rw [Function.update_of_ne hij] at hop'
      exact hs.fits i op hop'

/-- A task that moves is spawned. -/
theorem Inv.unspawned_tail (hs : Inv L D s) {j : ℕ} {op : Op R M} {t : List (Op R M)}
    (h : s.todo j = op :: t) (hle : s.spawned ≤ j) : t = [] := by
  rw [hs.unspawned j hle] at h
  cases h

omit [DecidableEq R] in
theorem Inv.tail_mem {j : ℕ} {op : Op R M} {t : List (Op R M)} (h : s.todo j = op :: t) :
    ∀ op' ∈ t, op' ∈ s.todo j := by
  intro op' h'
  rw [h]
  exact List.mem_cons_of_mem _ h'

/-- **Every move keeps the locks valid and every task in order.** -/
theorem Move.keeps {j : ℕ} (hs : Inv L D s) (h : Move L s j s') : Inv L D s' := by
  have hord := hs.ordered j
  cases h with
  | @wait r m t htodo hticket =>
    refine ⟨hs.unspawned, ?_, ?_, hs.ordered, hs.fits, hs.sound⟩
    · intro i k hk
      by_cases hij : i = j
      · subst hij
        have : Function.update s.ticket i (some s.clock) i = some k := hk
        rw [Function.update_self] at this
        cases this
        exact ⟨Nat.lt_succ_self _, r, m, t, htodo⟩
      · have hk' : Function.update s.ticket j (some s.clock) i = some k := hk
        rw [Function.update_of_ne hij] at hk'
        exact ⟨Nat.lt_succ_of_lt (hs.waiting i k hk').1, (hs.waiting i k hk').2⟩
    · have hcase : ∀ i k, Function.update s.ticket j (some s.clock) i = some k →
          i = j ∧ k = s.clock ∨ i ≠ j ∧ s.ticket i = some k := by
        intro i k hk
        by_cases hij : i = j
        · subst hij
          rw [Function.update_self] at hk
          exact .inl ⟨rfl, (Option.some.inj hk).symm⟩
        · rw [Function.update_of_ne hij] at hk
          exact .inr ⟨hij, hk⟩
      intro i i' k hi hi'
      -- a new ticket is later than all others
      rcases hcase i k hi with ⟨rfl, rfl⟩ | ⟨-, hold⟩
      · rcases hcase i' _ hi' with ⟨rfl, -⟩ | ⟨-, hold'⟩
        · rfl
        · exact absurd (hs.waiting i' _ hold').1 (Nat.lt_irrefl _)
      · rcases hcase i' _ hi' with ⟨rfl, rfl⟩ | ⟨-, hold'⟩
        · exact absurd (hs.waiting i _ hold).1 (Nat.lt_irrefl _)
        · exact hs.distinct i i' k hold hold'
  | @grant r m t k htodo hticket hhead hadmits =>
    rw [htodo] at hord
    have hfits : D.Fits (s.tag j) (.acquire r m) := hs.fits j _ (by rw [htodo]; simp)
    refine hs.advance (hs.unspawned_tail htodo) (Inv.tail_mem htodo) ?_ ?_
      (hs.sound.grant hfits hadmits)
    · refine hord.2.mono fun o ho => ?_
      rw [owns_append, List.mem_append] at ho
      rcases ho with ho | ho
      · exact List.mem_cons_of_mem _ ho
      · simp [owns] at ho
        exact ho ▸ List.mem_cons_self ..
    · intro i hij o ho
      rw [owns_append, List.mem_append] at ho
      rcases ho with ho | ho
      · exact ho
      · simp [owns, hij] at ho
  | @release r t htodo =>
    rw [htodo] at hord
    have hkept : ∀ g g' : Guard R M, leave j r g = some g' → Kept g g' := fun g g' h =>
      (leave_some h).1
    have hrest : Ordered (D.rank (s.tag j)) ((owns s.guards j).filter (· ≠ r)) t := hord
    refine hs.advance (hs.unspawned_tail htodo) (Inv.tail_mem htodo) ?_ ?_ ?_
    · refine hrest.mono fun o ho => ?_
      obtain ⟨g', hg', hj, rfl⟩ := mem_owns.mp ho
      obtain ⟨g, hg, hfg⟩ := List.mem_filterMap.mp hg'
      rw [List.mem_filter]
      refine ⟨owns_filterMap hkept s.guards j ho, ?_⟩
      exact decide_eq_true ((leave_some hfg).2.2.2.2 hj)
    · exact fun i _ => owns_filterMap hkept s.guards i
    · refine hs.sound.filterMap fun g g' h => ⟨(leave_some h).1, ?_⟩
      rintro (hv | hc)
      · exact .inl ((leave_some h).2.1 hv)
      · exact .inr (.inl ((leave_some h).2.2.1 hc))
  | @work t htodo =>
    rw [htodo] at hord
    exact hs.advance (hs.unspawned_tail htodo) (Inv.tail_mem htodo) hord (fun _ _ => List.Subset.refl _)
      hs.sound
  | @publish r t htodo =>
    rw [htodo] at hord
    have hrest : Ordered (D.rank (s.tag j)) (owns s.guards j) t := hord
    have hfits : D.Fits (s.tag j) (.publish r) := hs.fits j _ (by rw [htodo]; simp)
    have hkept : ∀ g g' : Guard R M, LockOrder.publish j r g = some g' → Kept g g' := fun g g' h =>
      (publish_some h).1
    refine hs.advance (hs.unspawned_tail htodo) (Inv.tail_mem htodo)
      (hrest.mono (owns_filterMap hkept s.guards j))
      (fun i _ => owns_filterMap hkept s.guards i) (hs.sound.filterMap fun g g' h => ⟨hkept g g' h, ?_⟩)
    intro hv
    rcases (publish_some h).2.2 hv with hv | hv | rfl
    · exact .inl hv
    · exact .inr (.inl hv)
    · exact .inr (.inr ⟨_, hfits⟩)
  | @withdraw r t htodo =>
    rw [htodo] at hord
    have hrest : Ordered (D.rank (s.tag j)) (owns s.guards j) t := hord
    have hkept : ∀ g g' : Guard R M, LockOrder.withdraw j r g = some g' → Kept g g' := fun g g' h =>
      (withdraw_some h).1
    refine hs.advance (hs.unspawned_tail htodo) (Inv.tail_mem htodo)
      (hrest.mono (owns_filterMap hkept s.guards j))
      (fun i _ => owns_filterMap hkept s.guards i) (hs.sound.filterMap fun g g' h => ⟨hkept g g' h, ?_⟩)
    rintro (hv | hc)
    · exact .inl ((withdraw_some h).2.2.1 hv)
    · exact .inr (.inl ((withdraw_some h).2.2.2 hc))
  | @adopt r t pre post g htodo hgs hr hvalue =>
    rw [htodo] at hord
    have hsound := hs.sound
    rw [hgs] at hsound
    have hmem : ∀ i o, o ∈ owns (pre ++ { g with owners := j :: g.owners } :: post) i →
        o ∈ owns s.guards i ∨ i = j ∧ o = r := by
      intro i o ho
      obtain ⟨x, hx, hi, rfl⟩ := mem_owns.mp ho
      simp only [List.mem_append, List.mem_cons] at hx
      have hold : x ∈ pre ++ g :: post → x.res ∈ owns s.guards i := fun hx =>
        mem_owns.mpr ⟨x, hgs ▸ hx, hi, rfl⟩
      rcases hx with hx | rfl | hx
      · exact .inl (hold (by simp [hx]))
      · rcases List.mem_cons.mp hi with rfl | hi
        · exact .inr ⟨rfl, hr⟩
        · exact .inl (mem_owns.mpr ⟨g, by simp [hgs], hi, rfl⟩)
      · exact .inl (hold (by simp [hx]))
    have hrest : Ordered (D.rank (s.tag j)) (r :: owns s.guards j) t := hord
    refine hs.advance (hs.unspawned_tail htodo) (Inv.tail_mem htodo) ?_ ?_ (hsound.adopt hvalue j)
    · refine hrest.mono fun o ho => ?_
      rcases hmem j o ho with ho | ⟨-, rfl⟩
      · exact List.mem_cons_of_mem _ ho
      · exact List.mem_cons_self ..
    · intro i hij o ho
      rcases hmem i o ho with ho | ⟨rfl, -⟩
      · exact ho
      · exact absurd rfl hij
  | @miss r t htodo =>
    rw [htodo] at hord
    have hrest : Ordered (D.rank (s.tag j)) (r :: owns s.guards j) t := hord
    exact hs.advance (hs.unspawned_tail htodo) (Inv.tail_mem htodo)
      (hrest.mono (List.subset_cons_self ..))
      (fun _ _ => List.Subset.refl _) hs.sound

/-- **Every step keeps the invariant**, when tasks are spawned in order. -/
theorem Step.keeps {Starts : State τ R M → τ → List (Op R M) → Prop}
    (hstarts : ∀ s t ops, Starts s t ops → Ordered (D.rank t) [] ops ∧ ∀ op ∈ ops, D.Fits t op)
    {e : Event} (hs : Inv L D s) (h : Step L Starts s e s') : Inv L D s' := by
  cases h with
  | move h => exact h.keeps hs
  | @spawn t ops hstart =>
    obtain ⟨hord, hfits⟩ := hstarts s t ops hstart
    have hnone : s.todo s.spawned = [] := hs.unspawned _ le_rfl
    have howner : ∀ g ∈ s.guards, ∀ j ∈ g.owners, j ≠ s.spawned := by
      rintro g hg j hj rfl
      exact hs.todo_of_owner hg hj hnone
    refine ⟨?_, ?_, hs.distinct, ?_, ?_, ⟨?_, ?_, hs.sound.alive, hs.sound.valid⟩⟩
    · intro j hj
      show Function.update s.todo s.spawned ops j = []
      rw [Function.update_of_ne (Nat.ne_of_gt hj)]
      exact hs.unspawned j (Nat.le_of_succ_le hj)
    · intro j k hk
      obtain ⟨hlt, r, m, t', ht⟩ := hs.waiting j k hk
      refine ⟨hlt, r, m, t', ?_⟩
      show Function.update s.todo s.spawned ops j = _
      rw [Function.update_of_ne, ht]
      rintro rfl
      rw [hnone] at ht
      cases ht
    · intro j
      show Ordered (D.rank (Function.update s.tag s.spawned t j)) (owns s.guards j)
        (Function.update s.todo s.spawned ops j)
      by_cases hj : j = s.spawned
      · subst hj
        rw [Function.update_self, Function.update_self, hs.owns_done hnone]
        exact hord
      · rw [Function.update_of_ne hj, Function.update_of_ne hj]
        exact hs.ordered j
    · intro j op hop
      have hop' : op ∈ Function.update s.todo s.spawned ops j := hop
      show D.Fits (Function.update s.tag s.spawned t j) op
      by_cases hj : j = s.spawned
      · subst hj
        rw [Function.update_self] at hop' ⊢
        exact hfits op hop'
      · rw [Function.update_of_ne hj] at hop' ⊢
        exact hs.fits j op hop'
    · intro g hg j hj
      show D.Fits (Function.update s.tag s.spawned t j) _ ∨ _
      rw [Function.update_of_ne (howner g hg j hj)]
      exact hs.sound.owned g hg j hj
    · exact hs.sound.values
  | stop j =>
    have hkept : ∀ g g' : Guard R M, abandon j g = some g' → Kept g g' := fun g g' h =>
      (abandon_some h).1
    refine hs.advance (fun _ => rfl) (by simp) ?_ (fun i _ => owns_filterMap hkept s.guards i)
      (hs.sound.filterMap fun g g' h => ⟨hkept g g' h, ?_⟩)
    · show owns (s.guards.filterMap (abandon j)) j = []
      rw [List.eq_nil_iff_forall_not_mem]
      intro r hr
      obtain ⟨g', hg', hj, -⟩ := mem_owns.mp hr
      obtain ⟨g, -, hfg⟩ := List.mem_filterMap.mp hg'
      exact (abandon_some hfg).2.2.2 hj
    · rintro (hv | hc)
      · exact .inl ((abandon_some h).2.1 hv)
      · exact .inr (.inl ((abandon_some h).2.2.1 hc))
  | @clear pre post g hgs howners =>
    have hsub : ∀ i, owns (pre ++ post) i ⊆ owns s.guards i := by
      intro i r hr
      obtain ⟨x, hx, hi, rfl⟩ := mem_owns.mp hr
      refine mem_owns.mpr ⟨x, ?_, hi, rfl⟩
      rw [hgs]
      simp only [List.mem_append, List.mem_cons] at hx ⊢
      tauto
    exact ⟨hs.unspawned, hs.waiting, hs.distinct, fun j => (hs.ordered j).mono (hsub j), hs.fits,
      Sound.clear (hgs ▸ hs.sound)⟩

/-! ### Progress -/

/-- A task waits for a lock. -/
def Waits (s : State τ R M) (j : ℕ) (r : R) (m : M) : Prop :=
  ∃ t k, s.todo j = .acquire r m :: t ∧ s.ticket j = some k

/-- The first task in the queue of a lock is not admitted. -/
def Blocked (L : Locks R M) (s : State τ R M) (r : R) : Prop :=
  ∃ j m, Waits s j r m ∧ ¬L.admits r m (held s.guards r)

/-- No task can move. -/
def Stuck (L : Locks R M) (s : State τ R M) : Prop := ∀ j s', ¬Move L s j s'

/-- A task that cannot move and is not done waits for a lock. -/
theorem Stuck.waits (h : Stuck L s) {j : ℕ} (hj : s.todo j ≠ []) : ∃ r m, Waits s j r m := by
  obtain ⟨op, t, ht⟩ := List.exists_cons_of_ne_nil hj
  cases op with
  | acquire r m =>
    cases hk : s.ticket j with
    | none => exact absurd (.wait ht hk) (h j _)
    | some k => exact ⟨r, m, t, k, ht, hk⟩
  | release r => exact absurd (.release ht) (h j _)
  | work => exact absurd (.work ht) (h j _)
  | publish r => exact absurd (.publish ht) (h j _)
  | withdraw r => exact absurd (.withdraw ht) (h j _)
  | adopt r => exact absurd (.miss ht) (h j _)

/-- Only tasks that are spawned wait. -/
theorem Inv.lt_of_waits (hs : Inv L D s) {j : ℕ} {r : R} {m : M} (h : Waits s j r m) :
    j < s.spawned := by
  obtain ⟨t, k, ht, -⟩ := h
  by_contra hle
  rw [hs.unspawned j (Nat.le_of_not_lt hle)] at ht
  cases ht

/-- When no task can move, each lock that one waits for does not admit the first in its
queue. -/
theorem Stuck.blocked (h : Stuck L s) (hs : Inv L D s) {j : ℕ} {r : R} {m : M}
    (hj : Waits s j r m) : Blocked L s r := by
  classical
  -- the first in the queue has the smallest ticket
  let queue := (Finset.range s.spawned).filter fun i => ∃ m', Waits s i r m'
  have hne : queue.Nonempty :=
    ⟨j, Finset.mem_filter.mpr ⟨Finset.mem_range.mpr (hs.lt_of_waits hj), m, hj⟩⟩
  obtain ⟨i, hi, hmin⟩ := queue.exists_min_image (fun i => (s.ticket i).getD 0) hne
  obtain ⟨m', t, k, ht, hk⟩ := (Finset.mem_filter.mp hi).2
  refine ⟨i, m', ⟨t, k, ht, hk⟩, fun hadmits => ?_⟩
  refine h i _ (.grant ht hk ?_ hadmits)
  intro i' m'' t' k' ht' hk'
  have hw : Waits s i' r m'' := ⟨t', k', ht', hk'⟩
  have := hmin i' (Finset.mem_filter.mpr ⟨Finset.mem_range.mpr (hs.lt_of_waits hw), m'', hw⟩)
  rwa [hk, hk'] at this

/-- **When no task can move, all are done**, if every lock that keeps its first task waiting
has an owner that only waits for locks of a higher rank. -/
theorem Inv.done_of_stuck (hs : Inv L D s) (h : Stuck L s) (rank : R → ℕ)
    (howner : ∀ r, Blocked L s r → ∃ g ∈ s.guards, g.res = r ∧ ∃ j ∈ g.owners,
      ∀ r' m', Waits s j r' m' → rank r < rank r') :
    ∀ j, s.todo j = [] := by
  classical
  by_contra hsome
  push Not at hsome
  obtain ⟨j₀, hj₀⟩ := hsome
  obtain ⟨r₀, m₀, hw₀⟩ := h.waits hj₀
  -- the lock that a task waits for, and among them one of the highest rank
  let waiting := (Finset.range s.spawned).filter fun i => ∃ r m, Waits s i r m
  let lock : ℕ → R := fun i => if hi : ∃ r m, Waits s i r m then hi.choose else r₀
  have hlock : ∀ {i r m}, Waits s i r m → lock i = r := by
    rintro i r m ⟨t, k, ht, hk⟩
    have hi : ∃ r m, Waits s i r m := ⟨r, m, t, k, ht, hk⟩
    obtain ⟨m', t', k', ht', -⟩ := hi.choose_spec
    have heq : lock i = hi.choose := dif_pos hi
    rw [ht] at ht'
    rw [heq]
    cases ht'
    rfl
  have hmem : ∀ {i r m}, Waits s i r m → i ∈ waiting := fun hi =>
    Finset.mem_filter.mpr ⟨Finset.mem_range.mpr (hs.lt_of_waits hi), _, _, hi⟩
  obtain ⟨i, hi, hmax⟩ := waiting.exists_max_image (fun i => rank (lock i)) ⟨j₀, hmem hw₀⟩
  obtain ⟨r, m, hw⟩ := (Finset.mem_filter.mp hi).2
  obtain ⟨g, hg, rfl, o, ho, hrank⟩ := howner r (h.blocked hs hw)
  -- its owner is not done, so that it waits too, for a lock of a higher rank
  obtain ⟨r', m', hw'⟩ := h.waits (hs.todo_of_owner hg ho)
  have hlt := hrank r' m' hw'
  have hle := hmax o (hmem hw')
  rw [hlock hw, hlock hw'] at hle
  exact Nat.lt_irrefl _ (hlt.trans_le hle)

/-- The rank of what a task waits for is above all that it owns. -/
theorem Inv.rank_lt (hs : Inv L D s) {g : Guard R M} (hg : g ∈ s.guards) {j : ℕ} (hj : j ∈ g.owners)
    {r : R} {m : M} (hw : Waits s j r m) : D.rank (s.tag j) g.res < D.rank (s.tag j) r := by
  obtain ⟨t, k, ht, -⟩ := hw
  have hord := hs.ordered j
  rw [ht] at hord
  exact hord.1 g.res (mem_owns.mpr ⟨g, hg, hj, rfl⟩)

/-! ### Moves end -/

/-- Moves of any tasks, one after the other. -/
inductive Moves (L : Locks R M) : State τ R M → ℕ → State τ R M → Prop
  | nil (s : State τ R M) : Moves L s 0 s
  | snoc {s s' s'' : State τ R M} {n j : ℕ} (h : Moves L s n s') (hj : Move L s' j s'') :
      Moves L s (n + 1) s''

/-- How many moves a task has ahead, at most. -/
def State.ahead (s : State τ R M) (j : ℕ) : ℕ :=
  2 * (s.todo j).length - (s.ticket j).toList.length

/-- How many moves all tasks have ahead, at most. -/
def State.measure (s : State τ R M) : ℕ := ∑ j ∈ Finset.range s.spawned, s.ahead j

theorem Move.measure_lt {j : ℕ} (hs : Inv L D s) (h : Move L s j s') : s'.measure < s.measure := by
  have hspawned : s'.spawned = s.spawned := by cases h <;> rfl
  have hother : ∀ i, i ≠ j → s'.ahead i = s.ahead i := by
    intro i hij
    cases h <;> simp [State.ahead, State.advance, Function.update_of_ne hij]
  have hself : s'.ahead j < s.ahead j := by
    have hw : s.ticket j ≠ none → ∃ r m t, s.todo j = .acquire r m :: t := by
      intro hne
      obtain ⟨k, hk⟩ := Option.ne_none_iff_exists'.mp hne
      exact (hs.waiting j k hk).2
    have hnone : ∀ {op : Op R M} {t}, s.todo j = op :: t → (∀ r m, op ≠ .acquire r m) →
        s.ticket j = none := by
      intro op t ht hop
      by_contra hne
      obtain ⟨r, m, t', ht'⟩ := hw hne
      rw [ht] at ht'
      exact hop r m (List.cons.inj ht').1
    cases h with
    | wait htodo hticket =>
      simp only [State.ahead, htodo, hticket, Function.update_self, Option.toList_some, Option.toList_none,
        List.length_cons, List.length_nil]
      omega
    | grant htodo hticket =>
      simp only [State.ahead, State.advance, htodo, hticket, Function.update_self, Option.toList_some,
        Option.toList_none, List.length_cons, List.length_nil]
      omega
    | release htodo | work htodo | publish htodo | withdraw htodo | adopt htodo | miss htodo =>
      simp [State.ahead, State.advance, htodo, hnone htodo (by simp)]
  have hlt : j < s.spawned := by
    by_contra hle
    have : s.todo j = [] := hs.unspawned j (Nat.le_of_not_lt hle)
    have hz : s.ahead j = 0 := by simp [State.ahead, this]
    omega
  unfold State.measure
  rw [hspawned]
  refine Finset.sum_lt_sum ?_ ⟨j, Finset.mem_range.mpr hlt, hself⟩
  intro i _
  by_cases hij : i = j
  · exact hij ▸ hself.le
  · exact (hother i hij).le

/-- **Tasks that are left alone move only finitely often**, and keep the invariant. -/
theorem Inv.moves_le (hs : Inv L D s) {n : ℕ} (h : Moves L s n s') :
    Inv L D s' ∧ n + s'.measure ≤ s.measure := by
  induction h with
  | nil => exact ⟨hs, by omega⟩
  | snoc _ hj ih =>
    obtain ⟨hs', hle⟩ := ih
    exact ⟨hj.keeps hs', by have := hj.measure_lt hs'; omega⟩

/-- A move leaks nothing. -/
theorem Move.leaked_le {j : ℕ} (h : Move L s j s') (r : R) : leaked s'.guards r ≤ leaked s.guards r := by
  cases h with
  | wait | work | miss => exact le_rfl
  | grant htodo hticket hhead hadmits =>
    show leaked (s.guards ++ _) r ≤ _
    simp [leaked, List.countP_append]
  | release htodo =>
    exact leaked_filterMap (fun g g' h => ⟨(leave_some h).1, (leave_some h).2.2.2.1⟩) _ r
  | publish htodo =>
    exact leaked_filterMap (fun g g' h => ⟨(publish_some h).1, fun hnil => (publish_some h).2.1 ▸ hnil⟩) _ r
  | withdraw htodo =>
    exact leaked_filterMap
      (fun g g' h => ⟨(withdraw_some h).1, fun hnil => (withdraw_some h).2.1 ▸ hnil⟩) _ r
  | adopt htodo hgs hr hvalue =>
    show leaked (_ ++ _ :: _) r ≤ _
    rw [hgs]
    unfold leaked
    simp only [List.countP_append, List.countP_cons]
    split_ifs <;> simp_all

theorem Moves.leaked_le {n : ℕ} (h : Moves L s n s') (r : R) :
    leaked s'.guards r ≤ leaked s.guards r := by
  induction h with
  | nil => exact le_rfl
  | snoc _ hj ih => exact (hj.leaked_le r).trans ih

/-- **From a state whose moves never get stuck before all are done, every way to move leads
to a state in which all are done.** -/
theorem Inv.finishes (hs : Inv L D s)
    (hprogress : ∀ n s', Moves L s n s' → Stuck L s' → ∀ j, s'.todo j = []) :
    ∃ n s', Moves L s n s' ∧ ∀ j, s'.todo j = [] := by
  suffices h : ∀ b n s', Moves L s n s' → s'.measure ≤ b →
      ∃ n s', Moves L s n s' ∧ ∀ j, s'.todo j = [] from h _ 0 s (.nil s) le_rfl
  intro b
  induction b with
  | zero =>
    intro n s' h hb
    refine ⟨n, s', h, hprogress n s' h fun j s'' hj => ?_⟩
    have := hj.measure_lt (hs.moves_le h).1
    omega
  | succ b ih =>
    intro n s' h hb
    by_cases hstuck : Stuck L s'
    · exact ⟨n, s', h, hprogress n s' h hstuck⟩
    · unfold Stuck at hstuck
      push Not at hstuck
      obtain ⟨j, s'', hj⟩ := hstuck
      refine ih (n + 1) s'' (h.snoc hj) ?_
      have := hj.measure_lt (hs.moves_le h).1
      omega

end LockOrder

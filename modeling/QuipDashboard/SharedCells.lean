/-
Maps of cells that are shared by reference count.

A map leads from keys to cells, and callers hold cells next to it; a cell is named by a
number that no cell had before.  Its strong count is the number of its owners: the entries
of the map and the callers.

* `two_le_strongCount` — a cell of the map that a caller holds has two owners;
* `strongCount_eq_one` — **a cell of the map has one owner exactly when no caller holds it**;
* `Distinct` — one entry for each key, and one key for each cell, kept by `sublist` and
  `insert`.
-/
import Mathlib.Data.Finset.Card
import Mathlib.Data.Fintype.Basic
import Mathlib.Data.List.Nodup

namespace SharedCells

variable {ι κ : Type}

/-! ### Owners -/

section

variable [Fintype ι]

/-- The number of callers that hold a cell. -/
def holders (held : ι → Option ℕ) (cell : ℕ) : ℕ :=
  (Finset.univ.filter fun c => held c = some cell).card

/-- The number of owners of a cell. -/
def strongCount (entries : List (κ × ℕ)) (held : ι → Option ℕ) (cell : ℕ) : ℕ :=
  entries.countP (fun e => e.2 = cell) + holders held cell

variable {entries : List (κ × ℕ)} {held : ι → Option ℕ} {e : κ × ℕ} {cell : ℕ}

theorem holders_pos : 0 < holders held cell ↔ ∃ c, held c = some cell := by
  rw [holders, Finset.card_pos]
  refine ⟨fun ⟨c, hc⟩ => ⟨c, (Finset.mem_filter.mp hc).2⟩, fun ⟨c, hc⟩ => ⟨c, ?_⟩⟩
  exact Finset.mem_filter.mpr ⟨Finset.mem_univ c, hc⟩

theorem countP_pos (he : e ∈ entries) : 0 < entries.countP fun e' => e'.2 = e.2 :=
  List.countP_pos_iff.mpr ⟨e, he, by simp⟩

/-- **A cell of the map that a caller holds has two owners.** -/
theorem two_le_strongCount (he : e ∈ entries) {c : ι} (hc : held c = some e.2) :
    2 ≤ strongCount entries held e.2 := by
  have hmap := countP_pos he
  have hheld : 0 < holders held e.2 := holders_pos.mpr ⟨c, hc⟩
  rw [strongCount]
  omega

end

/-! ### Distinct cells -/

/-- One entry for each key, one key for each cell, and no cell from `next` on. -/
structure Distinct (entries : List (κ × ℕ)) (next : ℕ) : Prop where
  keys : (entries.map Prod.fst).Nodup
  cells : (entries.map Prod.snd).Nodup
  lt : ∀ e ∈ entries, e.2 < next

theorem Distinct.nil (next : ℕ) : Distinct ([] : List (κ × ℕ)) next :=
  ⟨List.nodup_nil, List.nodup_nil, fun e he => by cases he⟩

variable {entries kept : List (κ × ℕ)} {next : ℕ}

theorem Distinct.sublist (h : Distinct entries next) (hkept : kept.Sublist entries) :
    Distinct kept next :=
  ⟨h.keys.sublist (hkept.map _), h.cells.sublist (hkept.map _),
    fun e he => h.lt e (hkept.subset he)⟩

theorem Distinct.perm (h : Distinct entries next) (hkept : kept.Perm entries) :
    Distinct kept next :=
  ⟨(hkept.map _).nodup_iff.mpr h.keys, (hkept.map _).nodup_iff.mpr h.cells,
    fun e he => h.lt e (hkept.mem_iff.mp he)⟩

/-- A key leads to one cell. -/
theorem Distinct.cell_unique (h : Distinct entries next) {k : κ} {a b : ℕ} (ha : (k, a) ∈ entries)
    (hb : (k, b) ∈ entries) : a = b :=
  congrArg Prod.snd (List.inj_on_of_nodup_map h.keys ha hb rfl)

/-- A new cell under a new key. -/
theorem Distinct.insert (h : Distinct entries next) {k : κ} (hk : ∀ a, (k, a) ∉ entries) :
    Distinct ((k, next) :: entries) (next + 1) := by
  refine ⟨List.nodup_cons.mpr ⟨fun hmem => ?_, h.keys⟩,
    List.nodup_cons.mpr ⟨fun hmem => ?_, h.cells⟩, fun e he => ?_⟩
  · obtain ⟨⟨k', a⟩, he, rfl⟩ := List.mem_map.mp hmem
    exact hk a he
  · obtain ⟨e, he, heq⟩ := List.mem_map.mp hmem
    exact absurd heq (Nat.ne_of_lt (h.lt e he))
  · rcases List.mem_cons.mp he with rfl | he
    · exact Nat.lt_succ_self next
    · exact Nat.lt_succ_of_lt (h.lt e he)

/-- **A cell of the map has one owner exactly when no caller holds it.** -/
theorem Distinct.strongCount_eq_one [Fintype ι] {held : ι → Option ℕ} {e : κ × ℕ}
    (h : Distinct entries next) (he : e ∈ entries) :
    strongCount entries held e.2 = 1 ↔ ∀ c, held c ≠ some e.2 := by
  have hone : entries.countP (fun e' => e'.2 = e.2) = 1 := by
    have hle : (entries.map Prod.snd).count e.2 ≤ 1 := List.nodup_iff_count_le_one.mp h.cells e.2
    have hcount : (entries.map Prod.snd).count e.2 = entries.countP fun e' => e'.2 = e.2 := by
      rw [List.count, List.countP_map]
      refine List.countP_congr fun e' _ => ?_
      simp
    have hpos := countP_pos he
    omega
  rw [strongCount, hone]
  refine ⟨fun hcount c hc => ?_, fun hnone => ?_⟩
  · have : 0 < holders held e.2 := holders_pos.mpr ⟨c, hc⟩
    omega
  · have : ¬0 < holders held e.2 := fun hpos => by
      obtain ⟨c, hc⟩ := holders_pos.mp hpos
      exact hnone c hc
    omega

end SharedCells

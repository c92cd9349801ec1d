/-
The renumbering of the mining submissions.

The model of the migration `0011_chain_numbered_mining_submissions` in
`dashboard-store/migrations/`: two updates of the primary key of `mining_submissions`, on
integers in Postgres and on decimal texts in Turso.

* `postgresShift`, `tursoShift` — what the two updates make of one solution number;
* `ShiftScript.Exact.shift` — **both updates pass the unique constraint in every order of the
  rows, and raise every solution number by one**.
-/
import QuipDashboard.DigitOrder
import QuipDashboard.KeyUpdates
import QuipDashboard.Records

namespace Dashboard

/-! ### The scripts -/

/-- The solution numbers of a backend, as they are stored, and the two updates. -/
structure ShiftScript (N : Type) where
  number : ℕ → N
  first : N → N
  second : N → N

/-- `solution_number = -(solution_number + 1)`, then `solution_number = -solution_number`. -/
def postgresShift : ShiftScript ℤ where
  number n := n
  first n := -(n + 1)
  second n := -n

/-- What the embedded engine makes of the types: `CAST(… AS INTEGER)` of a text, and the text of
a sum that leaves the `i64` and is a real number. -/
structure TursoCasts where
  integer : List Char → ℤ
  realText : ℤ → List Char

/-- The text of an integer. -/
def integerText (n : ℤ) : List Char :=
  if 0 ≤ n then DigitOrder.text n.toNat else '-' :: DigitOrder.text (-n).toNat

/-- `CAST(CAST(… AS INTEGER) + 1 AS TEXT)`. -/
def TursoCasts.successor (c : TursoCasts) (t : List Char) : List Char :=
  let n := c.integer t
  if n < i64Max then integerText (n + 1) else c.realText (n + 1)

/-- `'-' || CAST(CAST(solution_number AS INTEGER) + 1 AS TEXT)`, then
`substr(solution_number, 2)`. -/
def tursoShift (c : TursoCasts) : ShiftScript (List Char) where
  number := DigitOrder.text
  first t := '-' :: c.successor t
  second t := t.drop 1

/-- `CAST(… AS INTEGER)` of a decimal text is its number while that is an `i64`, as the engine
documents. -/
def TursoCasts.Exact (c : TursoCasts) : Prop := ∀ n ≤ i64Max, c.integer (DigitOrder.text n) = n

/-- The rows of `mining_submissions` under `(miner_id, solution_number)`. -/
abbrev SubmissionTable (N R : Type) := KeyedTable (String × N) R

/-- The rows of a backend for these submissions. -/
def ShiftScript.rows {N R : Type} (s : ShiftScript N) (l : List ((String × ℕ) × R)) :
    List ((String × N) × R) :=
  l.map fun e => ((e.1.1, s.number e.1.2), e.2)

/-- The submissions with their solution numbers raised by one. -/
def renumbered {R : Type} (l : List ((String × ℕ) × R)) : List ((String × ℕ) × R) :=
  l.map fun e => ((e.1.1, e.1.2 + 1), e.2)

/-! ### Exact scripts -/

/-- The numbers up to a bound become temporaries that are no numbers, and then the next
numbers. -/
structure ShiftScript.Exact {N : Type} (s : ShiftScript N) (bound : ℕ) : Prop where
  inj : ∀ m n, s.number m = s.number n → m = n
  temporary : ∀ n ≤ bound, ∀ m, s.first (s.number n) ≠ s.number m
  next : ∀ n ≤ bound, s.second (s.first (s.number n)) = s.number (n + 1)

theorem postgresShift_exact (bound : ℕ) : postgresShift.Exact bound where
  inj m n h := Int.ofNat.inj h
  temporary n _ m h := by
    have : -((n : ℤ) + 1) = m := h
    omega
  next n _ := by
    show -(-((n : ℤ) + 1)) = ((n + 1 : ℕ) : ℤ)
    omega

theorem tursoShift_exact {c : TursoCasts} (hc : c.Exact) {bound : ℕ} (hbound : bound < i64Max) :
    (tursoShift c).Exact bound := by
  have hfirst : ∀ n ≤ bound,
      (tursoShift c).first (DigitOrder.text n) = '-' :: DigitOrder.text (n + 1) := by
    intro n hn
    have hlt : (n : ℤ) < i64Max := by omega
    show '-' :: c.successor (DigitOrder.text n) = _
    rw [TursoCasts.successor, hc n (by omega)]
    show '-' :: (if (n : ℤ) < i64Max then _ else _) = _
    rw [if_pos hlt, integerText, if_pos (by omega)]
    rfl
  refine ⟨fun m n h => DigitOrder.text_inj.mp h, fun n hn m h => ?_, fun n hn => ?_⟩
  · -- no number begins with a sign
    have hsign : '-' ∈ DigitOrder.text m := by
      rw [← show _ = DigitOrder.text m from (hfirst n hn).symm.trans h]
      exact List.mem_cons_self
    have := DigitOrder.isDigit_of_mem_text hsign
    exact absurd this (by decide)
  · show ((tursoShift c).first (DigitOrder.text n)).drop 1 = _
    rw [hfirst n hn]
    rfl

section

variable {N : Type} {s : ShiftScript N} {bound m n : ℕ}

theorem ShiftScript.Exact.second_inj (hs : s.Exact bound) (hn : n ≤ bound) (hm : m ≤ bound)
    (h : s.second (s.first (s.number n)) = s.second (s.first (s.number m))) : n = m := by
  rw [hs.next n hn, hs.next m hm] at h
  exact Nat.succ.inj (hs.inj _ _ h)

theorem ShiftScript.Exact.first_inj (hs : s.Exact bound) (hn : n ≤ bound) (hm : m ≤ bound)
    (h : s.first (s.number n) = s.first (s.number m)) : n = m :=
  hs.second_inj hn hm (congrArg s.second h)

end

/-- An update of the numbers passes in every order, if it gives no number of the table and no
number twice. -/
theorem SubmissionTable.updateNumbers {N R : Type} [DecidableEq N] {t : SubmissionTable N R}
    {g : ℕ → N} {f : N → N} {bound : ℕ}
    (hkeys : ∀ k ∈ t.rows.map Prod.fst, ∃ n ≤ bound, k.2 = g n)
    (hout : ∀ n ≤ bound, ∀ m ≤ bound, f (g n) ≠ g m)
    (hinj : ∀ n ≤ bound, ∀ m ≤ bound, f (g n) = f (g m) → n = m) {order : List (String × N)}
    (horder : order.Perm (t.rows.map Prod.fst)) :
    ∃ t', t.updateKeys (Prod.map id f) order = some t' ∧
      t'.rows = t.rows.map fun e => (Prod.map id f e.1, e.2) := by
  refine KeyedTable.updateKeys_all (fun k hk hmem => ?_) (fun a ha b hb hab => ?_) horder
  · obtain ⟨n, hn, hk₁⟩ := hkeys k hk
    obtain ⟨m, hm, hk₂⟩ := hkeys _ hmem
    refine hout n hn m hm ?_
    rw [← hk₂, ← hk₁, Prod.map_snd]
  · obtain ⟨n, hn, hka⟩ := hkeys a ha
    obtain ⟨m, hm, hkb⟩ := hkeys b hb
    have hnumber : f a.2 = f b.2 := congrArg Prod.snd hab
    rw [hka, hkb] at hnumber
    have hminer := congrArg Prod.fst hab
    refine Prod.ext hminer ?_
    rw [hka, hkb, hinj n hn m hm hnumber]

/-- **Both updates pass the unique constraint in every order of the rows, and raise every
solution number by one.** -/
theorem ShiftScript.Exact.shift {N R : Type} [DecidableEq N] {s : ShiftScript N} {bound : ℕ}
    (hs : s.Exact bound) {t : SubmissionTable N R} {l : List ((String × ℕ) × R)}
    (ht : t.rows = s.rows l) (hl : ∀ e ∈ l, e.1.2 ≤ bound) {order : List (String × N)}
    (horder : order.Perm (t.rows.map Prod.fst)) :
    ∃ t₁, t.updateKeys (Prod.map id s.first) order = some t₁ ∧
      ∀ order₁ : List (String × N), order₁.Perm (t₁.rows.map Prod.fst) →
        ∃ t₂, t₁.updateKeys (Prod.map id s.second) order₁ = some t₂ ∧
          t₂.rows = s.rows (renumbered l) := by
  have hkeys : ∀ k ∈ t.rows.map Prod.fst, ∃ n ≤ bound, k.2 = s.number n := by
    intro k hk
    rw [ht, ShiftScript.rows, List.map_map] at hk
    obtain ⟨e, he, rfl⟩ := List.mem_map.mp hk
    exact ⟨e.1.2, hl e he, rfl⟩
  obtain ⟨t₁, ht₁, hrows₁⟩ := SubmissionTable.updateNumbers hkeys
    (fun n hn m _ => hs.temporary n hn m) (fun _ hn _ hm => hs.first_inj hn hm) horder
  refine ⟨t₁, ht₁, fun order₁ horder₁ => ?_⟩
  have hkeys₁ : ∀ k ∈ t₁.rows.map Prod.fst, ∃ n ≤ bound, k.2 = s.first (s.number n) := by
    intro k hk
    rw [hrows₁, List.map_map] at hk
    obtain ⟨e, he, rfl⟩ := List.mem_map.mp hk
    obtain ⟨n, hn, hnumber⟩ := hkeys e.1 (List.mem_map_of_mem he)
    exact ⟨n, hn, congrArg s.first hnumber⟩
  -- the next numbers are no temporaries
  have hnext : ∀ n ≤ bound, ∀ m ≤ bound,
      s.second (s.first (s.number n)) ≠ s.first (s.number m) := by
    intro n hn m hm
    rw [hs.next n hn]
    exact (hs.temporary m hm (n + 1)).symm
  obtain ⟨t₂, ht₂, hrows₂⟩ := SubmissionTable.updateNumbers hkeys₁ hnext
    (fun _ hn _ hm => hs.second_inj hn hm) horder₁
  refine ⟨t₂, ht₂, ?_⟩
  rw [hrows₂, hrows₁, ht, List.map_map, ShiftScript.rows, ShiftScript.rows, renumbered, List.map_map,
    List.map_map]
  refine List.map_congr_left fun e he => ?_
  exact Prod.ext (Prod.ext rfl (hs.next e.1.2 (hl e he))) rfl

end Dashboard

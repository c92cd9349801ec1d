/-
The participation of the qblock files and that of the tables.

The model of `participationFromQblockFiles` of
`packages/shared/telemetry/participation-compute.ts` and of the query of
`get_participation_compute` in `dashboard-store/src/blocks.rs`.  The one sorts the files by
number and looks at neighbours, the other finds each predecessor by a correlated subquery
over decimal texts and joins.

* `participationFromQblockFiles_charges` — what the files give: each participant of a winner
  qblock is charged the time since the predecessor;
* `getParticipationCompute_charges` — what the query gives, in the same terms;
* `participationFromQblockFiles_perm` — **the rows of the files are those of the query**.
-/
import QuipDashboard.Neighbours
import QuipDashboard.QblockClient
import QuipDashboard.RetryableRange

namespace Dashboard

namespace ParticipationJoin

open DigitOrder Neighbours

/-! ### Rows -/

/-- `ParticipationComputeRow`, with the id as the text that it is. -/
structure ParticipationComputeRow where
  qblockId : List Char
  account : String
  kind : String
  miningSeconds : ℤ
  exactQpuAccessUs : Option ℕ
  deriving DecidableEq

/-- A row apart from its exact QPU access. -/
structure Charge where
  qblockId : List Char
  account : String
  kind : String
  miningSeconds : ℤ
  deriving DecidableEq

/-- What a row charges. -/
def ParticipationComputeRow.charge (r : ParticipationComputeRow) : Charge :=
  ⟨r.qblockId, r.account, r.kind, r.miningSeconds⟩

/-- A text that `BigInt` reads and prints back the same. -/
def Canonical (t : List Char) : Prop := text (value t) = t

instance (t : List Char) : Decidable (Canonical t) := inferInstanceAs (Decidable (_ = _))

/-! ### The files -/

/-- What the join reads of a `QblockFileParticipant`: the qblock is that of the file. -/
structure QblockFileParticipant where
  account : String
  kind : String
  deriving DecidableEq

/-- `QblockTimingFile`: the winner is its timestamp, a number of seconds of which it is taken
that it is a safe integer. -/
structure QblockTimingFile where
  qblockId : List Char
  winner : Option ℤ
  participation : List QblockFileParticipant
  deriving DecidableEq

/-- The files that have a winner, with its timestamp. -/
def won (files : List QblockTimingFile) : List (QblockTimingFile × ℤ) :=
  files.flatMap fun f =>
    match f.winner with
    | some timestamp => [(f, timestamp)]
    | none => []

/-- The body of the loop, with `won[i - 1]` and `won[i]`. -/
def rowsOf : Option (QblockTimingFile × ℤ) × (QblockTimingFile × ℤ) → List ParticipationComputeRow
  | (none, _) => []
  | (some previous, (file, timestamp)) =>
    let miningSeconds := timestamp - previous.2
    if miningSeconds ≤ 0 then []
    else file.participation.map fun p => ⟨file.qblockId, p.account, p.kind, miningSeconds, none⟩

/-- `participationFromQblockFiles`: the comparison by `BigInt` decides between distinct
ids. -/
def participationFromQblockFiles (files : List QblockTimingFile) : List ParticipationComputeRow :=
  (withPrevious none
    ((won files).insertionSort fun a b => value a.1.qblockId ≤ value b.1.qblockId)).flatMap rowsOf

/-! ### The tables -/

/-- The columns of `blocks` that the query reads. -/
structure BlocksRow where
  qblockId : List Char
  timestamp : ℤ
  deriving DecidableEq

/-- The columns of `qblock_participation` that the query reads. -/
structure ParticipationRow where
  qblockId : List Char
  account : String
  kind : String
  deriving DecidableEq

/-- The tables: `blocks` by the block hash, the participants, and the QPU access times by the
miner and the solution number. -/
structure Tables where
  blocks : KeyedTable String BlocksRow
  qblockParticipation : List ParticipationRow
  miningSubmissions : KeyedTable (String × List Char) ℕ

/-- `SELECT candidate.block_hash`: the block of the last id before that of `b`. -/
def Tables.predecessorHash (t : Tables) (b : BlocksRow) : Option String :=
  (greatest (fun x y => Less x.2.qblockId y.2.qblockId)
    (t.blocks.rows.filter fun candidate => decimalGt b.qblockId candidate.2.qblockId)).map Prod.fst

/-- `LEFT JOIN mining_submissions`. -/
def Tables.qpuAccess (t : Tables) (p : ParticipationRow) : List (Option ℕ) :=
  match t.miningSubmissions.rows.filter fun ms => ms.1.1 = p.account ∧ ms.1.2 = p.qblockId with
  | [] => [none]
  | ms => ms.map fun row => some row.2

/-- The rows of a block and one it is joined with. -/
def Tables.joined (t : Tables) (since : ℤ) (b pred : BlocksRow) : List ParticipationComputeRow :=
  (t.qblockParticipation.filter fun p => p.qblockId = b.qblockId).flatMap fun p =>
    (t.qpuAccess p).flatMap fun qpu =>
      if since ≤ b.timestamp ∧ 0 < b.timestamp - pred.timestamp then
        [⟨p.qblockId, p.account, p.kind, b.timestamp - pred.timestamp, qpu⟩]
      else []

/-- `ORDER BY length(p.qblock_id),p.qblock_id,p.account`. -/
def rowOrder (a b : ParticipationComputeRow) : Prop :=
  Less a.qblockId b.qblockId ∨ a.qblockId = b.qblockId ∧ a.account ≤ b.account

instance : DecidableRel rowOrder := fun _ _ => inferInstanceAs (Decidable (_ ∨ _))

/-- `get_participation_compute`, from the epoch of `since`, within the row and byte budget of
`query_api`: a read beyond it fails. -/
def Tables.getParticipationCompute (t : Tables) (since : ℤ) : List ParticipationComputeRow :=
  (t.blocks.rows.flatMap fun b =>
    (t.blocks.rows.filter fun pred => some pred.1 = t.predecessorHash b.2).flatMap fun pred =>
      t.joined since b.2 pred.2).insertionSort rowOrder

/-! ### The time since the predecessor -/

/-- A winner: its id and its timestamp. -/
abbrev Winner := List Char × ℤ

/-- The number of a winner. -/
def Winner.number (w : Winner) : ℕ := value w.1

/-- What a winner charges each participant of its qblock: the time since the winner of the
greatest smaller id.  Nothing without one, and nothing for a gap that is not positive. -/
def charges (winners : List Winner) (participants : List ParticipationRow) (w : Winner) :
    List Charge :=
  match predecessor (KeyLess Winner.number) winners w with
  | none => []
  | some previous =>
    if 0 < w.2 - previous.2 then
      (participants.filter fun p => p.qblockId = w.1).map fun p =>
        ⟨p.qblockId, p.account, p.kind, w.2 - previous.2⟩
    else []

/-- The winners of some files. -/
def winners (files : List QblockTimingFile) : List Winner :=
  (won files).map fun w => (w.1.qblockId, w.2)

/-- The winners of the tables. -/
def Tables.winners (t : Tables) : List Winner :=
  t.blocks.rows.map fun b => (b.2.qblockId, b.2.timestamp)

/-- The participants of a file under its qblock, as the indexer writes them. -/
def QblockTimingFile.participants (f : QblockTimingFile) : List ParticipationRow :=
  f.participation.map fun p => ⟨f.qblockId, p.account, p.kind⟩

/-- The participants of some files. -/
def participants (files : List QblockTimingFile) : List ParticipationRow :=
  files.flatMap QblockTimingFile.participants

theorem value_inj {s t : List Char} (hs : Canonical s) (ht : Canonical t)
    (h : value s = value t) : s = t := by
  rw [← hs, ← ht, h]

/-- On canonical texts the order of the database is that of the numbers. -/
theorem less_iff {s t : List Char} (hs : Canonical s) (ht : Canonical t) :
    Less s t ↔ value s < value t := by
  rw [← less_text, hs, ht]

/-- Winners of distinct canonical ids have distinct numbers. -/
theorem nodup_number {ws : List Winner} (hcanon : ∀ w ∈ ws, Canonical w.1)
    (hids : (ws.map Prod.fst).Nodup) : (ws.map Winner.number).Nodup := by
  have hnumber : ws.map Winner.number = (ws.map Prod.fst).map value := by
    rw [List.map_map]
    rfl
  rw [hnumber]
  refine List.Nodup.map_on ?_ hids
  intro s hs t ht heq
  obtain ⟨v, hv, rfl⟩ := List.mem_map.mp hs
  obtain ⟨w, hw, rfl⟩ := List.mem_map.mp ht
  exact value_inj (hcanon v hv) (hcanon w hw) heq

/-- The charges depend on the winners and the participants only up to their order. -/
theorem charges_perm {ws ws' : List Winner} {ps ps' : List ParticipationRow}
    (hk : (ws.map Winner.number).Nodup) (hw : ws.Perm ws') (hp : ps.Perm ps') :
    (ws.flatMap (charges ws ps)).Perm (ws'.flatMap (charges ws' ps')) := by
  have heach : ∀ w ∈ ws, (charges ws ps w).Perm (charges ws' ps' w) := by
    intro w _
    rw [charges, charges, predecessor_perm hk hw w]
    cases predecessor (KeyLess Winner.number) ws' w with
    | none => exact List.Perm.refl _
    | some previous =>
      by_cases hgap : 0 < w.2 - previous.2
      · simp only [hgap, if_true]
        exact (hp.filter _).map _
      · simp only [hgap, if_false]
        exact List.Perm.refl _
  exact (List.Perm.flatMap_left ws heach).trans (hw.flatMap_right _)

/-! ### What the files give -/

theorem won_files (files : List QblockTimingFile) :
    (won files).map Prod.fst = files.filter fun f => f.winner.isSome := by
  induction files with
  | nil => rfl
  | cons f files ih =>
    rw [won, List.flatMap_cons, List.map_append, List.filter_cons]
    rw [won] at ih
    rw [ih]
    cases f.winner <;> rfl

theorem mem_won {files : List QblockTimingFile} {w : QblockTimingFile × ℤ} (h : w ∈ won files) :
    w.1 ∈ files := by
  have hmem : w.1 ∈ (won files).map Prod.fst := List.mem_map.mpr ⟨w, h, rfl⟩
  rw [won_files] at hmem
  exact List.mem_of_mem_filter hmem

theorem winners_ids (files : List QblockTimingFile) :
    ((winners files).map Prod.fst).Sublist (files.map QblockTimingFile.qblockId) := by
  have hids : (winners files).map Prod.fst
      = ((won files).map Prod.fst).map QblockTimingFile.qblockId := by
    rw [winners, List.map_map, List.map_map]
    rfl
  rw [hids, won_files]
  exact List.filter_sublist.map _

theorem winners_canonical {files : List QblockTimingFile}
    (hcanon : ∀ f ∈ files, Canonical f.qblockId) : ∀ w ∈ winners files, Canonical w.1 := by
  intro w hw
  obtain ⟨v, hv, rfl⟩ := List.mem_map.mp hw
  exact hcanon v.1 (mem_won hv)

theorem filter_participants (f : QblockTimingFile) (q : List Char) :
    (f.participants.filter fun p => p.qblockId = q)
      = if f.qblockId = q then f.participants else [] := by
  have hid : ∀ p ∈ f.participants, p.qblockId = f.qblockId := by
    intro p hp
    obtain ⟨_, -, rfl⟩ := List.mem_map.mp hp
    rfl
  by_cases h : f.qblockId = q
  · rw [if_pos h, List.filter_eq_self]
    intro p hp
    exact decide_eq_true ((hid p hp).trans h)
  · rw [if_neg h, List.filter_eq_nil_iff]
    intro p hp heq
    exact h ((hid p hp).symm.trans (of_decide_eq_true heq))

theorem participants_filter (files : List QblockTimingFile) (q : List Char) :
    ((participants files).filter fun p => p.qblockId = q)
      = (files.filter fun f => f.qblockId = q).flatMap QblockTimingFile.participants := by
  induction files with
  | nil => rfl
  | cons f files ih =>
    rw [participants] at ih
    rw [participants, List.flatMap_cons, List.filter_append, ih, filter_participants,
      List.filter_cons]
    by_cases h : f.qblockId = q <;> simp [h]

/-- The participants of a qblock are those of its file. -/
theorem participants_own {files : List QblockTimingFile}
    (hids : (files.map QblockTimingFile.qblockId).Nodup) {f : QblockTimingFile} (hf : f ∈ files) :
    ((participants files).filter fun p => p.qblockId = f.qblockId) = f.participants := by
  rw [participants_filter, filter_key_eq hids hf, List.flatMap_singleton]

/-- The body of the loop charges what the predecessor leaves. -/
theorem rowsOf_charges {files : List QblockTimingFile}
    (hids : (files.map QblockTimingFile.qblockId).Nodup) {w : QblockTimingFile × ℤ}
    (hw : w ∈ won files) :
    (rowsOf (predecessor (KeyLess fun v => value v.1.qblockId) (won files) w, w)).map
        ParticipationComputeRow.charge
      = charges (winners files) (participants files) (w.1.qblockId, w.2) := by
  have hpred : predecessor (KeyLess Winner.number) ((won files).map fun v => (v.1.qblockId, v.2))
        (w.1.qblockId, w.2)
      = (predecessor (KeyLess fun v => value v.1.qblockId) (won files) w).map
          fun v => (v.1.qblockId, v.2) :=
    @predecessor_map _ (KeyLess Winner.number) _ _ (KeyLess fun v => value v.1.qblockId) _
      (fun v : QblockTimingFile × ℤ => (v.1.qblockId, v.2)) (fun _ _ => Iff.rfl) (won files) w
  rw [charges, winners, hpred]
  cases predecessor (KeyLess fun v => value v.1.qblockId) (won files) w with
  | none => rfl
  | some previous =>
    obtain ⟨file, timestamp⟩ := w
    by_cases hgap : timestamp - previous.2 ≤ 0
    · have hnot : ¬0 < timestamp - previous.2 := not_lt.mpr hgap
      simp only [rowsOf, hgap, hnot, Option.map_some, if_true, if_false, List.map_nil]
    · have hpos : 0 < timestamp - previous.2 := not_le.mp hgap
      simp only [rowsOf, hgap, hpos, Option.map_some, if_true, if_false,
        participants_own hids (mem_won hw), QblockTimingFile.participants, List.map_map]
      rfl

/-- **The files charge each participant of a winner qblock the time since the
predecessor.** -/
theorem participationFromQblockFiles_charges {files : List QblockTimingFile}
    (hcanon : ∀ f ∈ files, Canonical f.qblockId)
    (hids : (files.map QblockTimingFile.qblockId).Nodup) :
    ((participationFromQblockFiles files).map ParticipationComputeRow.charge).Perm
      ((winners files).flatMap (charges (winners files) (participants files))) := by
  let number : QblockTimingFile × ℤ → ℕ := fun w => value w.1.qblockId
  have hk : ((won files).map number).Nodup := by
    have h := nodup_number (winners_canonical hcanon) (hids.sublist (winners_ids files))
    rw [winners, List.map_map] at h
    exact h
  let sorted := (won files).insertionSort fun a b => number a ≤ number b
  have hp : sorted.Perm (won files) := List.perm_insertionSort _ _
  have hsorted : sorted.Pairwise (KeyLess number) := by
    have hle : sorted.Pairwise fun a b => number a ≤ number b :=
      List.pairwise_insertionSort _ _
    have hne : sorted.Pairwise fun a b => number a ≠ number b :=
      List.pairwise_map.mp ((hp.map number).nodup_iff.mpr hk)
    exact (hle.and hne).imp fun h => lt_of_le_of_ne h.1 h.2
  have hpairs := (withPrevious_sort hk hp hsorted).flatMap_right fun pair =>
    (rowsOf pair).map ParticipationComputeRow.charge
  have heach : (won files).flatMap
        (fun w => (rowsOf (predecessor (KeyLess number) (won files) w, w)).map
          ParticipationComputeRow.charge)
      = (won files).flatMap
        fun w => charges (winners files) (participants files) (w.1.qblockId, w.2) :=
    List.flatMap_congr fun w hw => rowsOf_charges hids hw
  have hwinners : (winners files).flatMap (charges (winners files) (participants files))
      = (won files).flatMap
        fun w => charges (winners files) (participants files) (w.1.qblockId, w.2) :=
    List.flatMap_map ..
  rw [List.flatMap_map, heach, ← hwinners] at hpairs
  rw [participationFromQblockFiles, List.map_flatMap]
  exact hpairs

/-! ### What the query gives -/

/-- The outer join with the submissions keeps each row once. -/
theorem Tables.qpuAccess_single (t : Tables) (p : ParticipationRow) :
    ∃ qpu, t.qpuAccess p = [qpu] := by
  have hkeys : ((t.miningSubmissions.rows.filter
      fun ms => ms.1.1 = p.account ∧ ms.1.2 = p.qblockId).map Prod.fst).Nodup :=
    t.miningSubmissions.nodup.sublist (List.filter_sublist.map _)
  have hkey : ∀ ms ∈ t.miningSubmissions.rows.filter
      (fun ms => ms.1.1 = p.account ∧ ms.1.2 = p.qblockId), ms.1 = (p.account, p.qblockId) := by
    intro ms hms
    have hon := List.of_mem_filter hms
    rw [decide_eq_true_eq] at hon
    exact Prod.ext hon.1 hon.2
  rw [Tables.qpuAccess]
  generalize t.miningSubmissions.rows.filter
    (fun ms => ms.1.1 = p.account ∧ ms.1.2 = p.qblockId) = matching at hkeys hkey
  cases matching with
  | nil => exact ⟨none, rfl⟩
  | cons ms rest =>
    cases rest with
    | nil => exact ⟨some ms.2, rfl⟩
    | cons ms' rest =>
      have heq : ms.1 = ms'.1 := (hkey ms (by simp)).trans (hkey ms' (by simp)).symm
      simp [heq] at hkeys

theorem Tables.joined_charges (t : Tables) {since : ℤ} {b pred : BlocksRow}
    (hsince : since ≤ b.timestamp) :
    (t.joined since b pred).map ParticipationComputeRow.charge
      = if 0 < b.timestamp - pred.timestamp then
          (t.qblockParticipation.filter fun p => p.qblockId = b.qblockId).map fun p =>
            ⟨p.qblockId, p.account, p.kind, b.timestamp - pred.timestamp⟩
        else [] := by
  rw [Tables.joined, List.map_flatMap]
  by_cases hgap : 0 < b.timestamp - pred.timestamp
  · rw [if_pos hgap, List.map_eq_flatMap]
    refine List.flatMap_congr fun p _ => ?_
    obtain ⟨qpu, hqpu⟩ := t.qpuAccess_single p
    rw [hqpu, List.flatMap_singleton, if_pos ⟨hsince, hgap⟩]
    rfl
  · rw [if_neg hgap, List.flatMap_eq_nil_iff]
    intro p _
    obtain ⟨qpu, hqpu⟩ := t.qpuAccess_single p
    rw [hqpu, List.flatMap_singleton, if_neg fun h => hgap h.2]
    rfl

/-- The subquery finds the block of the predecessor. -/
theorem Tables.predecessorHash_eq {t : Tables} (hcanon : ∀ w ∈ t.winners, Canonical w.1)
    {b : String × BlocksRow} (hb : b ∈ t.blocks.rows) :
    t.predecessorHash b.2
      = (predecessor (KeyLess fun c : String × BlocksRow => value c.2.qblockId) t.blocks.rows b).map
          Prod.fst := by
  have horder : ∀ x ∈ t.blocks.rows, ∀ y ∈ t.blocks.rows,
      Less x.2.qblockId y.2.qblockId ↔ value x.2.qblockId < value y.2.qblockId := by
    intro x hx y hy
    exact less_iff (hcanon _ (List.mem_map.mpr ⟨x, hx, rfl⟩))
      (hcanon _ (List.mem_map.mpr ⟨y, hy, rfl⟩))
  exact congrArg (Option.map Prod.fst) (predecessor_congr hb horder)

/-- The rows of a block. -/
theorem Tables.block_charges {t : Tables} (hcanon : ∀ w ∈ t.winners, Canonical w.1) {since : ℤ}
    {b : String × BlocksRow} (hb : b ∈ t.blocks.rows) (hsince : since ≤ b.2.timestamp) :
    ((t.blocks.rows.filter fun pred => some pred.1 = t.predecessorHash b.2).flatMap fun pred =>
        t.joined since b.2 pred.2).map ParticipationComputeRow.charge
      = charges t.winners t.qblockParticipation (b.2.qblockId, b.2.timestamp) := by
  have hpred : predecessor (KeyLess Winner.number)
        (t.blocks.rows.map fun c => (c.2.qblockId, c.2.timestamp)) (b.2.qblockId, b.2.timestamp)
      = (predecessor (KeyLess fun c : String × BlocksRow => value c.2.qblockId) t.blocks.rows b).map
          fun c => (c.2.qblockId, c.2.timestamp) :=
    @predecessor_map _ (KeyLess Winner.number) _ _ (KeyLess fun c => value c.2.qblockId) _
      (fun c : String × BlocksRow => (c.2.qblockId, c.2.timestamp)) (fun _ _ => Iff.rfl)
      t.blocks.rows b
  rw [charges, Tables.winners, hpred, t.predecessorHash_eq hcanon hb]
  cases hfound : predecessor (KeyLess fun c : String × BlocksRow => value c.2.qblockId)
      t.blocks.rows b with
  | none =>
    have hnone : (t.blocks.rows.filter fun pred => some pred.1 = (none : Option String)) = [] :=
      List.filter_eq_nil_iff.mpr fun pred _ h => by cases of_decide_eq_true h
    rw [Option.map_none, hnone]
    rfl
  | some pred =>
    have hmem : pred ∈ t.blocks.rows := List.mem_of_mem_filter (mem_of_greatest _ hfound)
    have hone : (t.blocks.rows.filter fun c => some c.1 = some pred.1) = [pred] := by
      rw [← filter_key_eq t.blocks.nodup hmem]
      exact List.filter_congr fun c _ => decide_eq_decide.mpr Option.some_inj
    rw [Option.map_some, hone, List.flatMap_singleton, t.joined_charges hsince]
    rfl

/-- **The query charges each participant of a winner qblock the time since the
predecessor.** -/
theorem getParticipationCompute_charges {t : Tables} (hcanon : ∀ w ∈ t.winners, Canonical w.1)
    {since : ℤ} (hsince : ∀ w ∈ t.winners, since ≤ w.2) :
    ((t.getParticipationCompute since).map ParticipationComputeRow.charge).Perm
      (t.winners.flatMap (charges t.winners t.qblockParticipation)) := by
  have hsort := (List.perm_insertionSort rowOrder (t.blocks.rows.flatMap fun b =>
    (t.blocks.rows.filter fun pred => some pred.1 = t.predecessorHash b.2).flatMap fun pred =>
      t.joined since b.2 pred.2)).map ParticipationComputeRow.charge
  have hblocks : (t.blocks.rows.flatMap fun b =>
        ((t.blocks.rows.filter fun pred => some pred.1 = t.predecessorHash b.2).flatMap
          fun pred => t.joined since b.2 pred.2).map ParticipationComputeRow.charge)
      = t.blocks.rows.flatMap fun b =>
        charges t.winners t.qblockParticipation (b.2.qblockId, b.2.timestamp) :=
    List.flatMap_congr fun b hb =>
      t.block_charges hcanon hb (hsince _ (List.mem_map.mpr ⟨b, hb, rfl⟩))
  have hwinners : t.winners.flatMap (charges t.winners t.qblockParticipation)
      = t.blocks.rows.flatMap fun b =>
        charges t.winners t.qblockParticipation (b.2.qblockId, b.2.timestamp) :=
    List.flatMap_map ..
  rw [List.map_flatMap, hblocks, ← hwinners] at hsort
  exact hsort

/-! ### Both -/

/-- **The rows of the files are those of the query**, apart from exact QPU access: for files
with distinct canonical ids, over the same winners and participants and without a cutoff, they
are the same rows as often as each other, and each participant of a winner qblock is charged
the time since the winner of the greatest smaller id. -/
theorem participationFromQblockFiles_perm {files : List QblockTimingFile} {t : Tables} {since : ℤ}
    (hcanon : ∀ f ∈ files, Canonical f.qblockId)
    (hids : (files.map QblockTimingFile.qblockId).Nodup)
    (hwinners : t.winners.Perm (winners files))
    (hparticipants : t.qblockParticipation.Perm (participants files))
    (hsince : ∀ w ∈ t.winners, since ≤ w.2) :
    ((participationFromQblockFiles files).map ParticipationComputeRow.charge).Perm
        ((t.getParticipationCompute since).map ParticipationComputeRow.charge) ∧
      ((participationFromQblockFiles files).map ParticipationComputeRow.charge).Perm
        ((winners files).flatMap (charges (winners files) (participants files))) := by
  have hfiles := participationFromQblockFiles_charges hcanon hids
  have htcanon : ∀ w ∈ t.winners, Canonical w.1 := fun w hw =>
    winners_canonical hcanon w (hwinners.mem_iff.mp hw)
  have hquery := getParticipationCompute_charges htcanon hsince
  have hk := nodup_number (winners_canonical hcanon) (hids.sublist (winners_ids files))
  have hsame := charges_perm hk hwinners.symm hparticipants.symm
  exact ⟨hfiles.trans (hsame.trans hquery.symm), hfiles⟩

/-- A file of the frontend's tests. -/
def qblockFile (id : ℕ) (winner : Option ℤ) (accounts : List (String × String)) :
    QblockTimingFile :=
  ⟨text id, winner, accounts.map fun a => ⟨a.1, a.2⟩⟩

/-- Three winners out of order, ids of different lengths, and a qblock without a winner. -/
def exampleFiles : List QblockTimingFile :=
  [qblockFile 11 (some 1300) [("5B", "Gpu")], qblockFile 9 (some 1000) [("5A", "Cpu")],
    qblockFile 12 none [("5A", "Cpu")],
    qblockFile 10 (some 1060) [("5A", "Cpu"), ("5Q", "QpuDwave")]]

/-- The same in the tables, with a submission of the QPU. -/
def exampleTables : Tables where
  blocks :=
    ⟨[("0xa", ⟨text 9, 1000⟩), ("0xb", ⟨text 10, 1060⟩), ("0xc", ⟨text 11, 1300⟩)], by decide⟩
  qblockParticipation := participants exampleFiles
  miningSubmissions := ⟨[(("5Q", text 10), 250)], by decide⟩

example : (participationFromQblockFiles exampleFiles).map ParticipationComputeRow.charge =
    [⟨text 10, "5A", "Cpu", 60⟩, ⟨text 10, "5Q", "QpuDwave", 60⟩, ⟨text 11, "5B", "Gpu", 240⟩] := by
  decide

theorem participationFromQblockFiles_perm_three :
    ((participationFromQblockFiles exampleFiles).map ParticipationComputeRow.charge).Perm
        ((exampleTables.getParticipationCompute 0).map ParticipationComputeRow.charge) ∧
      ((participationFromQblockFiles exampleFiles).map ParticipationComputeRow.charge).Perm
        ((winners exampleFiles).flatMap
          (charges (winners exampleFiles) (participants exampleFiles))) :=
  participationFromQblockFiles_perm (by decide) (by decide) (by decide) (List.Perm.refl _)
    (by decide)

/-! ### The documents of the client -/

/-- What the join reads of a loaded document. -/
def timingFile (d : Document) : QblockTimingFile :=
  ⟨text (d.qblockId.getD 0), d.winner.join.map fun w => (w.timestamp : ℤ),
    (d.participation.getD []).map fun p => ⟨p.account, p.kind⟩⟩

/-- A row of the client with its id as a text. -/
def textRow (r : QblockClient.ParticipationComputeRow) : ParticipationComputeRow :=
  ⟨text r.qblockId, r.account, r.kind, r.miningSeconds, r.exactQpuAccessUs⟩

theorem rowsOf_withPrevious (ds : List (Document × BlockRecord)) (d : Document × BlockRecord) :
    (withPrevious (some (timingFile d.1, (d.2.timestamp : ℤ)))
        (ds.map fun e => (timingFile e.1, (e.2.timestamp : ℤ)))).flatMap rowsOf
      = (QblockClient.rowsOfWon (d :: ds)).map textRow := by
  induction ds generalizing d with
  | nil => rfl
  | cons e ds ih =>
    rw [List.map_cons, withPrevious, List.flatMap_cons, ih e, QblockClient.rowsOfWon,
      List.map_append]
    refine congrArg (· ++ _) ?_
    by_cases hgap : (e.2.timestamp : ℤ) - d.2.timestamp ≤ 0
    · simp only [rowsOf, QblockClient.rowsBetween, hgap, if_true, List.map_nil]
    · simp only [rowsOf, QblockClient.rowsBetween, hgap, if_false, timingFile, List.map_map]
      rfl

/-- The rows that the client makes of its documents are those of their files. -/
theorem participationFromQblockFiles_documents (ds : List Document) :
    participationFromQblockFiles (ds.map timingFile)
      = (QblockClient.participationFromQblockFiles ds).map textRow := by
  let pair : Document × BlockRecord → QblockTimingFile × ℤ := fun e =>
    (timingFile e.1, (e.2.timestamp : ℤ))
  have hwon : won (ds.map timingFile)
      = (ds.filterMap fun d => d.winner.join.map fun w => (d, w)).map pair := by
    induction ds with
    | nil => rfl
    | cons d ds ih =>
      rw [won] at ih
      rw [List.map_cons, won, List.flatMap_cons, ih, List.filterMap_cons]
      cases hw : d.winner.join with
      | none => simp [timingFile, hw]
      | some w => simp [timingFile, hw, pair]
  have hsort := List.map_insertionSort
    (fun a b : Document × BlockRecord => a.1.qblockId.getD 0 ≤ b.1.qblockId.getD 0)
    (fun a b : QblockTimingFile × ℤ => value a.1.qblockId ≤ value b.1.qblockId) pair
    (ds.filterMap fun d => d.winner.join.map fun w => (d, w)) (by
      intro a _ b _
      simp only [pair, timingFile, value_text])
  rw [participationFromQblockFiles, hwon, ← hsort, QblockClient.participationFromQblockFiles]
  cases (ds.filterMap fun d => d.winner.join.map fun w => (d, w)).insertionSort
      fun a b : Document × BlockRecord => a.1.qblockId.getD 0 ≤ b.1.qblockId.getD 0 with
  | nil => rfl
  | cons e es => exact rowsOf_withPrevious es e

end ParticipationJoin

end Dashboard

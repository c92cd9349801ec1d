/-
The order of decimal strings, in Rust and in SQL.

A `DecimalString` is compared by its length and then by its text, and so are the decimal
columns of both databases, where the text of a column may have an order of its own (a
collation) that only digits are known of.  `scan_winners` filters and sorts heights with these
comparisons, and a client lists all of them by going on from the last height of each page.

* `DecimalString.cmp_eq`, `decimalGt_iff`, `decimalOrder_eq` — the comparisons are those of the
  numbers;
* `scanWinners_eq` — the query on texts refines the query on numbers;
* `decimal_order_pages` — **the comparisons agree with the numbers, and pages of at least one
  height list every height above the start once, in ascending order**.
-/
import QuipDashboard.CursorPaging
import QuipDashboard.FreshAuthorship
import QuipDashboard.RetryableRange
import QuipDashboard.Scans

namespace Dashboard

open DigitOrder


/-! ### Decimal strings -/

theorem isDigit_of_classifyDigits {l : List Char} {index : ℕ}
    (h : classifyDigits index l = .ok ()) : ∀ c ∈ l, c.isDigit = true := by
  induction l generalizing index with
  | nil => exact fun c hc => absurd hc List.not_mem_nil
  | cons c l ih =>
    rw [classifyDigits] at h
    split at h
    · cases h
    · split at h
      · rename_i hc
        exact List.forall_mem_cons.mpr ⟨hc, ih h⟩
      · cases h

/-- What is parsed is the text itself: some digits, without a leading zero. -/
theorem decimalFromStr_ok {raw t : List Char} (h : decimalFromStr raw = .ok t) :
    t = raw ∧ (∀ c ∈ raw, c.isDigit = true) ∧ raw ≠ [] ∧
      ∀ l, raw = '0' :: l → l = [] := by
  cases raw with
  | nil => cases h
  | cons first rest =>
    rw [decimalFromStr] at h
    split at h
    · cases h
    · split at h
      · cases h
      · rename_i hdigits
        split at h
        · cases h
        · rename_i hzero
          refine ⟨(Except.ok.inj h).symm, isDigit_of_classifyDigits hdigits,
            List.cons_ne_nil _ _, ?_⟩
          rintro l ⟨⟩
          by_contra hl
          exact hzero ⟨rfl, hl⟩

/-- `DecimalString`: a text that parses. -/
structure DecimalString where
  text : List Char
  parsed : decimalFromStr text = .ok text

namespace DecimalString

/-- The number that a decimal string denotes. -/
def value (d : DecimalString) : ℕ := DigitOrder.value d.text

/-- The decimal string of a number. -/
def ofNat (n : ℕ) : DecimalString := ⟨DigitOrder.text n, fromStr_text n⟩

/-- `DecimalString::from_str`. -/
def fromStr (raw : List Char) : Except DecimalStringError DecimalString :=
  match h : decimalFromStr raw with
  | .ok t => .ok ⟨t, by rw [(decimalFromStr_ok h).1]; exact (decimalFromStr_ok h).1 ▸ h⟩
  | .error e => .error e

/-- `Ord::cmp`. -/
def cmp (a b : DecimalString) : Ordering :=
  (compare (ByteOffsets.byteLen a.text) (ByteOffsets.byteLen b.text)).then
    (compareOfLessAndEq a.text b.text)

theorem isDigit (d : DecimalString) : ∀ c ∈ d.text, c.isDigit = true :=
  (decimalFromStr_ok d.parsed).2.1

/-- A decimal string is the text of its number. -/
theorem text_value (d : DecimalString) : DigitOrder.text d.value = d.text :=
  have ⟨_, hdigits, hne, hzero⟩ := decimalFromStr_ok d.parsed
  DigitOrder.text_value hdigits hne hzero

@[simp] theorem value_ofNat (n : ℕ) : (ofNat n).value = n := value_text n

theorem ext_value {a b : DecimalString} (h : a.value = b.value) : a = b := by
  have htext : a.text = b.text := by
    rw [← text_value a, h, text_value]
  cases a
  cases b
  cases htext
  rfl

end DecimalString

/-- A shorter text, or one of the same length that is less. -/
theorem compare_of_less {s t : List Char} (h : Less s t) :
    (compare s.length t.length).then (compareOfLessAndEq s t) = .lt := by
  rcases h with hlen | ⟨hlen, hlt⟩
  · rw [compare_lt_iff_lt.mpr hlen]
    rfl
  · rw [compare_eq_iff_eq.mpr hlen, compareOfLessAndEq, if_pos hlt]
    rfl

theorem compare_of_greater {s t : List Char} (h : Less t s) :
    (compare s.length t.length).then (compareOfLessAndEq s t) = .gt := by
  rcases h with hlen | ⟨hlen, hlt⟩
  · rw [compare_gt_iff_gt.mpr hlen]
    rfl
  · have hne : s ≠ t := hlt.ne'
    rw [compare_eq_iff_eq.mpr hlen.symm, compareOfLessAndEq, if_neg hlt.not_gt, if_neg hne]
    rfl

/-- **By length and then by text, numbers are compared.** -/
theorem compare_text (m n : ℕ) :
    (compare (text m).length (text n).length).then (compareOfLessAndEq (text m) (text n)) =
      compare m n := by
  rcases lt_trichotomy m n with h | rfl | h
  · rw [compare_lt_iff_lt.mpr h, compare_of_less (less_text.mpr h)]
  · rw [compare_eq_iff_eq.mpr rfl, compare_eq_iff_eq.mpr rfl, compareOfLessAndEq,
      if_neg (lt_irrefl _), if_pos rfl]
    rfl
  · rw [compare_gt_iff_gt.mpr h, compare_of_greater (less_text.mpr h)]

/-- Digits have one byte each. -/
theorem byteLen_of_digits {l : List Char} (h : ∀ c ∈ l, c.isDigit = true) :
    ByteOffsets.byteLen l = l.length := by
  induction l with
  | nil => rfl
  | cons c l ih =>
    have hc : c.utf8Size = 1 := by
      obtain ⟨-, hle⟩ := digit_bounds (h c List.mem_cons_self)
      exact ByteOffsets.utf8Size_of_ascii (by omega)
    rw [ByteOffsets.byteLen_cons, hc, ih fun d hd => h d (List.mem_cons_of_mem c hd),
      List.length_cons, Nat.add_comm]

/-- **Decimal strings are ordered like their numbers.** -/
theorem DecimalString.cmp_eq (a b : DecimalString) : a.cmp b = compare a.value b.value := by
  rw [cmp, byteLen_of_digits a.isDigit, byteLen_of_digits b.isDigit, ← text_value a,
    ← text_value b, compare_text]

/-! ### The comparisons of the databases -/

/-- The order of the texts of a database, which is that of the code points on digits. -/
structure Collation where
  compare : List Char → List Char → Ordering
  compare_digits : ∀ s t, (∀ c ∈ s, c.isDigit = true) → (∀ c ∈ t, c.isDigit = true) →
    compare s t = compareOfLessAndEq s t

/-- The order of the code points. -/
def Collation.binary : Collation where
  compare s t := compareOfLessAndEq s t
  compare_digits _ _ _ _ := rfl

/-- A value of a decimal column: a text on Turso, a number on Postgres. -/
inductive DecimalCell where
  | text (t : List Char)
  | numeric (n : ℕ)

/-- `CAST(column AS TEXT)`. -/
def DecimalCell.castText : DecimalCell → List Char
  | text t => t
  | numeric n => DigitOrder.text n

/-- The cell holds a decimal string. -/
def DecimalCell.Holds (x : DecimalCell) (d : DecimalString) : Prop :=
  x = .text d.text ∨ x = .numeric d.value

/-- `decimal_gt`. -/
def Collation.decimalGt (C : Collation) (left right : DecimalCell) : Bool :=
  left.castText.length > right.castText.length ||
    (left.castText.length = right.castText.length &&
      C.compare left.castText right.castText = .gt)

/-- `ORDER BY` with `decimal_order`. -/
def Collation.decimalOrder (C : Collation) (x y : DecimalCell) : Ordering :=
  (Ord.compare x.castText.length y.castText.length).then (C.compare x.castText y.castText)

section

variable {C : Collation}

theorem castText_of_holds {x : DecimalCell} {d : DecimalString} (h : x.Holds d) :
    x.castText = text d.value := by
  rcases h with rfl | rfl
  · exact d.text_value.symm
  · rfl

/-- In the order of the code points, the comparison is the one of the retryable interval. -/
theorem decimalGt_binary (left right : List Char) :
    Collation.binary.decimalGt (.text left) (.text right) = decimalGt left right := by
  have hgt : compareOfLessAndEq left right = .gt ↔ right < left := by
    rcases lt_trichotomy left right with h | rfl | h
    · rw [compareOfLessAndEq, if_pos h]
      exact iff_of_false (by decide) h.not_gt
    · rw [compareOfLessAndEq, if_neg (lt_irrefl _), if_pos rfl]
      exact iff_of_false (by decide) (lt_irrefl _)
    · rw [compareOfLessAndEq, if_neg h.not_gt, if_neg h.ne']
      exact iff_of_true rfl h
  rw [Bool.eq_iff_iff, Collation.decimalGt, decimalGt, Bool.or_eq_true, Bool.and_eq_true,
    decide_eq_true_iff, decide_eq_true_iff, decide_eq_true_iff, decide_eq_true_iff]
  show _ ∨ _ ∧ compareOfLessAndEq left right = .gt ↔ _
  rw [hgt, eq_comm]
  rfl

/-- **The order of decimal columns is the order of the numbers.** -/
theorem decimalOrder_eq {x y : DecimalCell} {a b : DecimalString} (hx : x.Holds a)
    (hy : y.Holds b) : C.decimalOrder x y = compare a.value b.value := by
  have hdigits : ∀ n, ∀ c ∈ text n, c.isDigit = true := fun n c => isDigit_of_mem_text
  rw [Collation.decimalOrder, castText_of_holds hx, castText_of_holds hy,
    C.compare_digits _ _ (hdigits _) (hdigits _), compare_text]

/-- **`decimal_gt` holds of the cells of a greater and a lesser number.** -/
theorem decimalGt_iff {x y : DecimalCell} {a b : DecimalString} (hx : x.Holds a)
    (hy : y.Holds b) : C.decimalGt x y = true ↔ b.value < a.value := by
  have hgt : C.decimalGt x y = true ↔ C.decimalOrder x y = .gt := by
    rw [Collation.decimalGt, Collation.decimalOrder, Bool.or_eq_true, Bool.and_eq_true]
    rcases lt_trichotomy x.castText.length y.castText.length with h | h | h
    · rw [compare_lt_iff_lt.mpr h]
      simp [h.not_gt, h.ne]
    · rw [compare_eq_iff_eq.mpr h]
      simp [h]
    · rw [compare_gt_iff_gt.mpr h]
      simp [h]
  rw [hgt, decimalOrder_eq hx hy, compare_gt_iff_gt]

variable (C)

/-! ### The winners of a scan -/

/-- `scan_winners`, on the texts of the table. -/
def scanWinners (id : ScanId) (after : Option DecimalString) (limit : ℕ) (s : Store) :
    Except StoreError (List DecimalString) :=
  let heights := (s.winnerHeights id).map DigitOrder.text
  let kept := heights.filter fun h => after.all fun a => C.decimalGt (.text h) (.text a.text)
  let sorted := kept.mergeSort fun x y => (C.decimalOrder (.text x) (.text y)).isLE
  (sorted.take (min limit 1000)).mapM fun h =>
    (DecimalString.fromStr h).mapError fun _ => .incompleteScan

/-- A client that goes on from the last height of each page, until a page is empty. -/
def listWinners (id : ScanId) (limit : ℕ) (s : Store) :
    ℕ → Option DecimalString → Except StoreError (List DecimalString)
  | 0, _ => .ok []
  | rounds + 1, after => do
    let page ← scanWinners C id after limit s
    match page.getLast? with
    | none => return []
    | some last =>
      let more ← listWinners id limit s rounds (some last)
      return page ++ more

variable {C}

theorem fromStr_ofNat (n : ℕ) :
    DecimalString.fromStr (text n) = .ok (DecimalString.ofNat n) := by
  unfold DecimalString.fromStr
  split
  · rename_i t h
    rw [fromStr_text] at h
    cases h
    rfl
  · rename_i e h
    rw [fromStr_text] at h
    cases h

theorem holds_text (n : ℕ) : (DecimalCell.text (text n)).Holds (.ofNat n) := .inl rfl

/-- **The query on texts refines the query on numbers.** -/
theorem scanWinners_eq (id : ScanId) (after : Option DecimalString) (limit : ℕ) (s : Store) :
    scanWinners C id after limit s =
      .ok ((scanWinnersAfter id (after.map DecimalString.value) limit s).map .ofNat) := by
  have hkept : ((s.winnerHeights id).map text).filter
      (fun h => after.all fun a => C.decimalGt (.text h) (.text a.text)) =
      ((s.winnerHeights id).filter fun n =>
        (after.map DecimalString.value).all (· < n)).map text := by
    rw [List.filter_map]
    refine congrArg (List.map text) (List.filter_congr fun n _ => ?_)
    cases after with
    | none => rfl
    | some a =>
      show C.decimalGt (.text (text n)) (.text a.text) = decide (a.value < n)
      rw [Bool.eq_iff_iff, decide_eq_true_iff, decimalGt_iff (holds_text n) (.inl rfl)]
      simp
  have hsort : ∀ ns : List ℕ, (ns.map text).mergeSort
      (fun x y => (C.decimalOrder (.text x) (.text y)).isLE) =
      (ns.insertionSort (· ≤ ·)).map text := by
    intro ns
    rw [← List.mergeSort_eq_insertionSort, List.map_mergeSort]
    intro m _ n _
    rw [decimalOrder_eq (holds_text m) (holds_text n), Bool.eq_iff_iff, decide_eq_true_iff,
      DecimalString.value_ofNat, DecimalString.value_ofNat]
    exact Nat.isLE_compare.symm
  have hparse : ∀ ns : List ℕ, (ns.map text).mapM (fun h =>
      (DecimalString.fromStr h).mapError fun _ => StoreError.incompleteScan) =
      .ok (ns.map .ofNat) := by
    intro ns
    induction ns with
    | nil => rfl
    | cons n ns ih =>
      rw [List.map_cons, List.mapM_cons, ih, fromStr_ofNat]
      rfl
  rw [scanWinners, hkept, hsort, ← List.map_take, hparse]
  rfl

/-- The heights of a scan in ascending order. -/
def sortedHeights (s : Store) (id : ScanId) : List ℕ :=
  (s.winnerHeights id).insertionSort (· ≤ ·)

/-- The key of the table keeps a scan from listing a height twice. -/
theorem winnerHeights_nodup (s : Store) (id : ScanId) : (s.winnerHeights id).Nodup := by
  have hkeys : ((s.scanWinners.rows.filter fun e => e.1.1 = id).map Prod.fst).Nodup :=
    (List.filter_sublist.map Prod.fst).nodup s.scanWinners.nodup
  have hmap : s.winnerHeights id =
      ((s.scanWinners.rows.filter fun e => e.1.1 = id).map Prod.fst).map Prod.snd := by
    rw [List.map_map]
    rfl
  rw [hmap]
  refine hkeys.map_on fun x hx y hy hxy => Prod.ext ?_ hxy
  obtain ⟨e, he, rfl⟩ := List.mem_map.mp hx
  obtain ⟨f, hf, rfl⟩ := List.mem_map.mp hy
  have hid : e.1.1 = id := by simpa using (List.mem_filter.mp he).2
  have hid' : f.1.1 = id := by simpa using (List.mem_filter.mp hf).2
  rw [hid, hid']

theorem sortedHeights_pairwise (s : Store) (id : ScanId) :
    (sortedHeights s id).Pairwise fun m n => m < n := by
  have hle := List.pairwise_insertionSort (· ≤ ·) (s.winnerHeights id)
  have hnodup : (sortedHeights s id).Nodup :=
    (List.perm_insertionSort (· ≤ ·) (s.winnerHeights id)).nodup_iff.mpr (winnerHeights_nodup s id)
  exact (hle.and hnodup).imp fun h => lt_of_le_of_ne h.1 h.2

/-- A page is the next heights of the scan. -/
theorem scanWinnersAfter_served (s : Store) (id : ScanId) (limit : ℕ) (after : Option ℕ) :
    CursorPaging.Served (fun n : ℕ => n) (min limit 1000) (sortedHeights s id) after
      (scanWinnersAfter id after limit s) := by
  have hsorted := List.pairwise_insertionSort (· ≤ ·)
    ((s.winnerHeights id).filter fun n => after.all (· < n))
  have hrest : (CursorPaging.rest (fun n : ℕ => n) (sortedHeights s id) after).Pairwise (· ≤ ·) :=
    (List.pairwise_insertionSort (· ≤ ·) (s.winnerHeights id)).sublist List.filter_sublist
  have hperm : (((s.winnerHeights id).filter fun n => after.all (· < n)).insertionSort
      (· ≤ ·)).Perm (CursorPaging.rest (fun n : ℕ => n) (sortedHeights s id) after) := by
    refine (List.perm_insertionSort (· ≤ ·) _).trans ?_
    exact (List.perm_insertionSort (· ≤ ·) (s.winnerHeights id)).symm.filter _
  rw [CursorPaging.Served, scanWinnersAfter, Paging.afterKey, hperm.eq_of_pairwise' hsorted hrest]

/-- The client reads the pages of the numbers. -/
theorem listWinners_eq (id : ScanId) (limit : ℕ) (s : Store) (rounds : ℕ)
    (after : Option DecimalString) :
    listWinners C id limit s rounds after =
      .ok ((CursorPaging.readAll (fun n => n) (fun after => scanWinnersAfter id after limit s)
        rounds (after.map DecimalString.value)).map .ofNat) := by
  induction rounds generalizing after with
  | zero => rfl
  | succ rounds ih =>
    rw [listWinners, scanWinners_eq, CursorPaging.readAll]
    show (match ((scanWinnersAfter id (after.map DecimalString.value) limit s).map
        DecimalString.ofNat).getLast? with
      | none => _
      | some last => _) = _
    rw [List.getLast?_map]
    cases (scanWinnersAfter id (after.map DecimalString.value) limit s).getLast? with
    | none => rfl
    | some last =>
      show (listWinners C id limit s rounds (some (.ofNat last)) >>= _) = _
      rw [ih, Option.map_some, DecimalString.value_ofNat, List.map_append]
      rfl

/-- The heights of a scan above a start, as the client is to list them. -/
def heightsAfter (s : Store) (id : ScanId) (after : Option DecimalString) : List ℕ :=
  CursorPaging.rest (fun n => n) (sortedHeights s id) (after.map DecimalString.value)

theorem mem_heightsAfter {s : Store} {id : ScanId} {after : Option DecimalString} {n : ℕ} :
    n ∈ heightsAfter s id after ↔ n ∈ s.winnerHeights id ∧ ∀ a ∈ after, a.value < n := by
  rw [heightsAfter, CursorPaging.rest, List.mem_filter, sortedHeights,
    List.mem_insertionSort]
  cases after <;> simp

theorem heightsAfter_length_le (s : Store) (id : ScanId) (after : Option DecimalString) :
    (heightsAfter s id after).length ≤ (s.winnerHeights id).length := by
  have hfilter : (heightsAfter s id after).length ≤ (sortedHeights s id).length :=
    List.length_filter_le _ _
  rwa [sortedHeights, List.length_insertionSort] at hfilter

/-- A client whose pages have room lists the heights above the start. -/
theorem listWinners_heightsAfter (id : ScanId) {limit : ℕ} (hlimit : 0 < limit) (s : Store)
    (after : Option DecimalString) {rounds : ℕ} (h : (s.winnerHeights id).length < rounds) :
    listWinners C id limit s rounds after = .ok ((heightsAfter s id after).map .ofNat) := by
  have hroom : 0 < min limit 1000 := by omega
  rw [listWinners_eq, CursorPaging.readAll_eq (sortedHeights_pairwise s id) hroom
    (scanWinnersAfter_served s id limit)
    (lt_of_le_of_lt (heightsAfter_length_le s id after) h)]
  rfl

variable (C)

/-- **The order of decimal strings, `decimal_gt` and `decimal_order` are those of the numbers,
and pages of at least one height list the heights of a scan above a start once each, in
ascending order.** -/
theorem decimal_order_pages :
    (∀ a b : DecimalString, a.cmp b = compare a.value b.value ∧
      ∀ x y : DecimalCell, x.Holds a → y.Holds b →
        (C.decimalGt x y = true ↔ b.value < a.value) ∧
        C.decimalOrder x y = compare a.value b.value) ∧
    ∀ (s : Store) (id : ScanId) (limit : ℕ) (after : Option DecimalString), 0 < limit →
      ∃ l : List DecimalString,
        (∀ rounds, (s.winnerHeights id).length < rounds →
          listWinners C id limit s rounds after = .ok l) ∧
        l.Pairwise (fun a b => a.cmp b = .lt) ∧
        ∀ d : DecimalString, d ∈ l ↔
          d.value ∈ s.winnerHeights id ∧ ∀ a ∈ after, a.value < d.value := by
  constructor
  · intro a b
    exact ⟨a.cmp_eq b, fun x y hx hy => ⟨decimalGt_iff hx hy, decimalOrder_eq hx hy⟩⟩
  · intro s id limit after hlimit
    refine ⟨(heightsAfter s id after).map .ofNat, ?_, ?_, ?_⟩
    · intro rounds h
      exact listWinners_heightsAfter id hlimit s after h
    -- a decimal string is the text of its number, so that the lists agree
    · have hsorted : (heightsAfter s id after).Pairwise (· < ·) :=
        (sortedHeights_pairwise s id).sublist List.filter_sublist
      refine List.pairwise_map.mpr (hsorted.imp fun hmn => ?_)
      rw [DecimalString.cmp_eq, DecimalString.value_ofNat, DecimalString.value_ofNat,
        compare_lt_iff_lt]
      exact hmn
    · intro d
      rw [← mem_heightsAfter]
      constructor
      · intro hd
        obtain ⟨n, hn, rfl⟩ := List.mem_map.mp hd
        rwa [DecimalString.value_ofNat]
      · intro hd
        exact List.mem_map.mpr ⟨d.value, hd, DecimalString.ext_value (DecimalString.value_ofNat _)⟩

end

/-- A store with one height of one scan. -/
def oneWinner : Store :=
  { Store.bound false (.uniform 1) with
    scanWinners := KeyedTable.empty.put ("scan", 1) () }

/-- A cell of ten is above one of nine, and pages of one height list the height of the
scan. -/
theorem oneWinner_listed :
    Collation.binary.decimalGt (.text (text 10)) (.numeric 9) = true ∧
    ∃ l : List DecimalString,
      listWinners .binary "scan" 1 oneWinner 2 none = .ok l ∧ ∀ d : DecimalString, d ∈ l ↔
        d.value ∈ oneWinner.winnerHeights "scan" ∧ ∀ a ∈ (none : Option DecimalString),
          a.value < d.value := by
  obtain ⟨horder, hpages⟩ := decimal_order_pages .binary
  refine ⟨?_, ?_⟩
  · have hten := (horder (.ofNat 10) (.ofNat 9)).2 (.text (text 10)) (.numeric 9) (.inl rfl)
      (.inr (by rw [DecimalString.value_ofNat]))
    rw [hten.1, DecimalString.value_ofNat, DecimalString.value_ofNat]
    decide
  · obtain ⟨l, hl, -, hmem⟩ := hpages oneWinner "scan" 1 none (by decide)
    exact ⟨l, hl 2 (by decide), hmem⟩

/-- Pages of no height list nothing, though the scan has a height. -/
theorem oneWinner_unlisted : 1 ∈ oneWinner.winnerHeights "scan" ∧
    ∀ rounds, listWinners .binary "scan" 0 oneWinner rounds none = .ok [] := by
  refine ⟨by decide, ?_⟩
  intro rounds
  cases rounds with
  | zero => rfl
  | succ rounds =>
    rw [listWinners_eq]
    rfl

end Dashboard

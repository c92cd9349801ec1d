/-
Safe numbers from texts.

The model of `parse_decimal_i64` and `safe_number` in `quip-dashboard/src/miner/parse.rs` with
the arithmetic of its machine integers.  The only operation on untrusted numbers is the
absolute value of an `i128`, which has none for the least one.

* `parseI128_iff` — what `str::parse` accepts, and as which number;
* `parseDecimalI64_iff` — what is accepted without the checks of arithmetic;
* `parseDecimalI64_wraps` — without the checks, the least `i128` is refused like its neighbours;
* `safeNumber_exact_iff` — **with the checks, both functions are exact on a text if and only if
  it does not spell the least `i128`**.
-/
import QuipDashboard.DigitOrder
import QuipDashboard.MachineInts
import QuipDashboard.MiningAttempts

namespace Dashboard

open DigitOrder MachineInts IntType

/-! ### Spellings of integers -/

/-- Some decimal digits, at least one. -/
def IsDecimal (digits : List Char) : Prop := digits ≠ [] ∧ ∀ c ∈ digits, c.isDigit = true

/-- The texts of an integer: decimal digits, with a sign or without one. -/
inductive Spells : List Char → ℤ → Prop
  | unsigned {digits : List Char} (h : IsDecimal digits) : Spells digits (value digits)
  | plus {digits : List Char} (h : IsDecimal digits) : Spells ('+' :: digits) (value digits)
  | minus {digits : List Char} (h : IsDecimal digits) : Spells ('-' :: digits) (-value digits)

theorem IsDecimal.head {c : Char} {l : List Char} (h : IsDecimal (c :: l)) : c.isDigit = true :=
  h.2 c List.mem_cons_self

theorem parseDigits_eq_some {chars : List Char} {n : ℕ} :
    parseDigits chars = some n ↔ IsDecimal chars ∧ n = value chars := by
  have hdigits : (chars ≠ [] && chars.all Char.isDigit) = true ↔ IsDecimal chars := by
    rw [Bool.and_eq_true, decide_eq_true_iff, List.all_eq_true]
    rfl
  rw [parseDigits, ← hdigits]
  by_cases h : (chars ≠ [] && chars.all Char.isDigit) = true
  · rw [if_pos h]
    constructor
    · intro hn
      exact ⟨h, (Option.some.inj hn).symm⟩
    · rintro ⟨-, rfl⟩
      rfl
  · rw [if_neg h]
    exact iff_of_false (fun hn => by cases hn) fun hn => h hn.1

theorem spells_minus {digits : List Char} {n : ℤ} :
    Spells ('-' :: digits) n ↔ IsDecimal digits ∧ n = -(value digits : ℤ) := by
  constructor
  · intro h
    cases h with
    | unsigned h => exact absurd h.head (by decide)
    | minus h => exact ⟨h, rfl⟩
  · rintro ⟨h, rfl⟩
    exact .minus h

theorem spells_plus {digits : List Char} {n : ℤ} :
    Spells ('+' :: digits) n ↔ IsDecimal digits ∧ n = value digits := by
  constructor
  · intro h
    cases h with
    | unsigned h => exact absurd h.head (by decide)
    | plus h => exact ⟨h, rfl⟩
  · rintro ⟨h, rfl⟩
    exact .plus h

theorem spells_unsigned {chars : List Char} {n : ℤ} (hminus : ∀ l, chars ≠ '-' :: l)
    (hplus : ∀ l, chars ≠ '+' :: l) : Spells chars n ↔ IsDecimal chars ∧ n = value chars := by
  constructor
  · intro h
    cases h with
    | unsigned h => exact ⟨h, rfl⟩
    | plus h => exact absurd rfl (hplus _)
    | minus h => exact absurd rfl (hminus _)
  · rintro ⟨h, rfl⟩
    exact .unsigned h

theorem map_parseDigits {chars : List Char} {f : ℤ → ℤ} {n : ℤ} :
    (parseDigits chars >>= fun m => pure (m : ℤ)).map f = some n ↔
      IsDecimal chars ∧ n = f (value chars) := by
  cases hp : parseDigits chars with
  | none =>
    refine iff_of_false (fun h => by cases h) fun h => ?_
    rw [parseDigits_eq_some.mpr ⟨h.1, rfl⟩] at hp
    cases hp
  | some m =>
    obtain ⟨h, rfl⟩ := parseDigits_eq_some.mp hp
    show some (f (value chars)) = some n ↔ _
    rw [Option.some.injEq, eq_comm, and_iff_right h]

/-- `str::parse` reads the texts of the integers of 128 bits. -/
theorem parseI128_iff {chars : List Char} {n : ℤ} :
    parseI128 chars = some n ↔ Spells chars n ∧ i128.Fits n := by
  have hfits : decide (-2 ^ 127 ≤ n ∧ n < 2 ^ 127) = true ↔ i128.Fits n := by
    rw [decide_eq_true_iff]
    show _ ↔ -2 ^ 127 ≤ n ∧ n ≤ 2 ^ 127 - 1
    omega
  unfold parseI128
  rw [Option.filter_eq_some_iff, hfits]
  refine and_congr_left fun _ => ?_
  split
  · rw [map_parseDigits, spells_minus]
  · rw [map_parseDigits, spells_plus]
  · rename_i hminus hplus
    rw [map_parseDigits, spells_unsigned hminus hplus]

/-! ### Without the checks -/

theorem natAbs_le_maxSafeInteger {n : ℤ} :
    (n.natAbs : ℤ) ≤ maxSafeInteger ↔ |n| ≤ 2 ^ 53 - 1 := by
  rw [Int.natCast_natAbs]
  rfl

theorem parseDecimalI64_of_none {s : String} (h : parseI128 (trim s.toList) = none) :
    parseDecimalI64 s = none := by
  rw [parseDecimalI64, h]

theorem parseDecimalI64_of_some {s : String} {n : ℤ}
    (h : parseI128 (trim s.toList) = some n) :
    parseDecimalI64 s = if |n| ≤ 2 ^ 53 - 1 then some n else none := by
  rw [parseDecimalI64, h]
  show (if (n.natAbs : ℤ) > maxSafeInteger then _ else _) = _
  by_cases hn : |n| ≤ 2 ^ 53 - 1
  · rw [if_neg (not_lt.mpr (natAbs_le_maxSafeInteger.mpr hn)), if_pos hn]
  · have hlarge : ¬(n.natAbs : ℤ) ≤ maxSafeInteger := fun h => hn (natAbs_le_maxSafeInteger.mp h)
    rw [if_pos (not_le.mp hlarge), if_neg hn]
    split
    · rfl
    · rw [Option.filter_some, if_neg (by rw [decide_eq_true_iff]; exact hlarge)]

/-- A safe integer has 128 bits. -/
theorem fits_of_safe {n : ℤ} (h : |n| ≤ 2 ^ 53 - 1) : i128.Fits n := by
  have := abs_le.mp h
  show -2 ^ 127 ≤ n ∧ n ≤ 2 ^ 127 - 1
  omega

/-- **What is accepted, and as which number, are the texts of the safe integers.** -/
theorem parseDecimalI64_iff {s : String} {n : ℤ} :
    parseDecimalI64 s = some n ↔ Spells (trim s.toList) n ∧ |n| ≤ 2 ^ 53 - 1 := by
  cases hp : parseI128 (trim s.toList) with
  | none =>
    rw [parseDecimalI64_of_none hp]
    refine iff_of_false (fun h => by cases h) ?_
    rintro ⟨hspells, hn⟩
    rw [parseI128_iff.mpr ⟨hspells, fits_of_safe hn⟩] at hp
    cases hp
  | some m =>
    rw [parseDecimalI64_of_some hp]
    constructor
    · intro h
      split at h
      · rename_i hm
        cases h
        exact ⟨(parseI128_iff.mp hp).1, hm⟩
      · cases h
    · rintro ⟨hspells, hn⟩
      rw [parseI128_iff.mpr ⟨hspells, fits_of_safe hn⟩] at hp
      cases hp
      exact if_pos hn

/-! ### With the checks -/

/-- What `parse_decimal_i64` makes of a number, with the absolute value of the build. -/
def guardSafe (abs : ℤ → Except Fault ℤ) (parsed : ℤ) : Except Fault (Option ℤ) := do
  let size ← abs parsed
  if size > maxSafeInteger then
    let again ← abs parsed
    if again > i64Max then return none
    else return (i64.tryFrom parsed).filter fun n => n.natAbs ≤ maxSafeInteger.natAbs
  else return i64.tryFrom parsed

/-- `parse_decimal_i64`. -/
def parseDecimalI64With (abs : ℤ → Except Fault ℤ) (s : String) : Except Fault (Option ℤ) :=
  if trim s.toList = [] then .ok none
  else
    match parseI128 (trim s.toList) with
    | none => .ok none
    | some parsed => guardSafe abs parsed

/-- `json_to_i64`: only texts reach the arithmetic of 128 bits. -/
def jsonToI64With (abs : ℤ → Except Fault ℤ) : Option JsonValue → Except Fault (Option ℤ)
  | some (.string s) => parseDecimalI64With abs s
  | v => .ok (jsonToI64 v)

/-- `safe_number`. -/
def safeNumberWith (abs : ℤ → Except Fault ℤ) (v : Option JsonValue) :
    Except Fault (Option ℤ) :=
  (jsonToI64With abs v).map fun o => o.filter fun n => n.natAbs ≤ maxSafeInteger.natAbs

/-- An absolute value that is the integer's own leaves the safe integers. -/
theorem guardSafe_eq {abs : ℤ → Except Fault ℤ} {n : ℤ} (h : abs n = .ok |n|) :
    guardSafe abs n = .ok (if |n| ≤ 2 ^ 53 - 1 then some n else none) := by
  have hfits : |n| ≤ i64Max → i64.Fits n := by
    intro hn
    have := abs_le.mp hn
    have hmax : (i64Max : ℤ) = 2 ^ 63 - 1 := rfl
    show -2 ^ 63 ≤ n ∧ n ≤ 2 ^ 63 - 1
    omega
  have hmax : maxSafeInteger ≤ i64Max := by decide
  rw [guardSafe, h]
  show (if |n| > maxSafeInteger then if |n| > i64Max then Except.ok none else _ else _) = _
  have hsafe : maxSafeInteger = 2 ^ 53 - 1 := rfl
  by_cases hn : |n| ≤ 2 ^ 53 - 1
  · rw [if_neg (by omega), if_pos hn, tryFrom_eq (hfits (by omega))]
    rfl
  · rw [if_pos (by omega), if_neg hn]
    split
    · rfl
    · rename_i hlarge
      have hn : ¬n.natAbs ≤ maxSafeInteger.natAbs := by
        have := Int.natCast_natAbs n
        have : (maxSafeInteger.natAbs : ℤ) = maxSafeInteger := rfl
        omega
      rw [tryFrom_eq (hfits (not_lt.mp hlarge)), Option.filter_some,
        if_neg (by rw [decide_eq_true_iff]; exact hn)]
      rfl

theorem guardSafe_fault {abs : ℤ → Except Fault ℤ} {n : ℤ} {e : Fault} (h : abs n = .error e) :
    guardSafe abs n = .error e := by
  rw [guardSafe, h]
  rfl

theorem parseDecimalI64With_of_none {abs : ℤ → Except Fault ℤ} {s : String}
    (h : parseI128 (trim s.toList) = none) : parseDecimalI64With abs s = .ok none := by
  rw [parseDecimalI64With, h]
  exact ite_self _

theorem parseDecimalI64With_of_some {abs : ℤ → Except Fault ℤ} {s : String} {n : ℤ}
    (h : parseI128 (trim s.toList) = some n) : parseDecimalI64With abs s = guardSafe abs n := by
  have hne : trim s.toList ≠ [] := by
    intro hnil
    rw [hnil] at h
    cases h
  rw [parseDecimalI64With, if_neg hne, h]

/-- Where the absolute value is the integer's own, the answer is that without the checks. -/
theorem parseDecimalI64With_eq {abs : ℤ → Except Fault ℤ} {s : String}
    (h : ∀ n, parseI128 (trim s.toList) = some n → abs n = .ok |n|) :
    parseDecimalI64With abs s = .ok (parseDecimalI64 s) := by
  cases hp : parseI128 (trim s.toList) with
  | none => rw [parseDecimalI64With_of_none hp, parseDecimalI64_of_none hp]
  | some n =>
    rw [parseDecimalI64With_of_some hp, guardSafe_eq (h n hp), parseDecimalI64_of_some hp]

/-- Every `i128` but the least one has an absolute value. -/
theorem fits_abs {n : ℤ} (h : i128.Fits n) (hne : n ≠ -2 ^ 127) : i128.Fits |n| := by
  obtain ⟨hleast, hgreatest⟩ := h
  have hleast' : -2 ^ 127 ≤ n := hleast
  have hgreatest' : n ≤ 2 ^ 127 - 1 := hgreatest
  have habs : |n| ≤ 2 ^ 127 - 1 := abs_le.mpr ⟨by omega, hgreatest'⟩
  exact ⟨by
    show -2 ^ 127 ≤ |n|
    have := abs_nonneg n
    omega, habs⟩

theorem least_fits : i128.Fits (-2 ^ 127) := by decide

theorem parseDecimalI64With_checked {s : String} (h : ¬Spells (trim s.toList) (-2 ^ 127)) :
    parseDecimalI64With i128.abs s = .ok (parseDecimalI64 s) := by
  refine parseDecimalI64With_eq fun n hn => abs_eq ?_
  obtain ⟨hspells, hfits⟩ := parseI128_iff.mp hn
  exact fits_abs hfits fun hleast => h (hleast ▸ hspells)

theorem parseDecimalI64With_fault {s : String} (h : Spells (trim s.toList) (-2 ^ 127)) :
    parseDecimalI64With i128.abs s = .error .overflow := by
  rw [parseDecimalI64With_of_some (parseI128_iff.mpr ⟨h, least_fits⟩)]
  exact guardSafe_fault (make_fault (by decide))

/-- **Without the checks the least `i128` is its own absolute value and refused in the end.** -/
theorem parseDecimalI64_wraps (s : String) :
    parseDecimalI64With (fun n => .ok (i128.wrap |n|)) s = .ok (parseDecimalI64 s) := by
  by_cases h : Spells (trim s.toList) (-2 ^ 127)
  · have hp := parseI128_iff.mpr ⟨h, least_fits⟩
    rw [parseDecimalI64With_of_some hp, parseDecimalI64_of_some hp]
    decide
  · refine parseDecimalI64With_eq fun n hn => ?_
    obtain ⟨hspells, hfits⟩ := parseI128_iff.mp hn
    rw [wrap_eq (fits_abs hfits fun hleast => h (hleast ▸ hspells))]

/-! ### Exactness -/

/-- An answer without a fault: exactly the safe integer that the text spells. -/
def Exact (chars : List Char) (answer : Except Fault (Option ℤ)) : Prop :=
  ∃ r, answer = .ok r ∧ ∀ n, r = some n ↔ Spells chars n ∧ |n| ≤ 2 ^ 53 - 1

theorem not_exact_error {chars : List Char} {e : Fault} : ¬Exact chars (.error e) := by
  rintro ⟨r, h, -⟩
  cases h

theorem safeNumberWith_eq {abs : ℤ → Except Fault ℤ} {s : String}
    (h : parseDecimalI64With abs s = .ok (parseDecimalI64 s)) :
    safeNumberWith abs (some (.string s)) = .ok (parseDecimalI64 s) := by
  have hkeep : (parseDecimalI64 s).filter
      (fun n => n.natAbs ≤ maxSafeInteger.natAbs) = parseDecimalI64 s := by
    cases hp : parseDecimalI64 s with
    | none => rfl
    | some n =>
      have hn := natAbs_le_maxSafeInteger.mpr (parseDecimalI64_iff.mp hp).2
      have hsafe : (maxSafeInteger.natAbs : ℤ) = maxSafeInteger := rfl
      rw [Option.filter_some, if_pos (decide_eq_true (by omega))]
  show (parseDecimalI64With abs s).map _ = _
  rw [h]
  exact congrArg Except.ok hkeep

/-- **Both functions are exact on a text, with every operation within its type, if and only if
the trimmed text does not spell the least `i128`.** -/
theorem safeNumber_exact_iff (s : String) :
    (Exact (trim s.toList) (parseDecimalI64With i128.abs s) ↔
      ¬Spells (trim s.toList) (-2 ^ 127)) ∧
    (Exact (trim s.toList) (safeNumberWith i128.abs (some (.string s))) ↔
      ¬Spells (trim s.toList) (-2 ^ 127)) := by
  have hexact : Exact (trim s.toList) (.ok (parseDecimalI64 s)) :=
    ⟨_, rfl, fun n => parseDecimalI64_iff⟩
  by_cases h : Spells (trim s.toList) (-2 ^ 127)
  · have hfault := parseDecimalI64With_fault h
    have hsafe : safeNumberWith i128.abs (some (.string s)) = .error .overflow := by
      show (parseDecimalI64With i128.abs s).map _ = _
      rw [hfault]
      rfl
    rw [hfault, hsafe]
    exact ⟨iff_of_false not_exact_error (not_not_intro h),
      iff_of_false not_exact_error (not_not_intro h)⟩
  · have hchecked := parseDecimalI64With_checked h
    rw [hchecked, safeNumberWith_eq hchecked]
    exact ⟨iff_of_true hexact h, iff_of_true hexact h⟩

/-- The text of the least `i128`. -/
def leastText : String := .ofList ('-' :: text (2 ^ 127))

/-- The least `i128` is a text on which both functions overflow. -/
theorem leastText_not_exact :
    ¬Exact (trim leastText.toList) (parseDecimalI64With i128.abs leastText) ∧
    ¬Exact (trim leastText.toList) (safeNumberWith i128.abs (some (.string leastText))) := by
  have hchars : trim leastText.toList = '-' :: text (2 ^ 127) := by
    rw [leastText, String.toList_ofList]
    decide
  have hfault : parseDecimalI64With i128.abs leastText = .error .overflow := by
    refine parseDecimalI64With_fault ?_
    rw [hchars, spells_minus, value_text]
    exact ⟨⟨text_ne_nil _, fun c => isDigit_of_mem_text⟩, rfl⟩
  refine ⟨?_, ?_⟩
  · rw [hfault]
    exact not_exact_error
  · show ¬Exact _ ((parseDecimalI64With i128.abs leastText).map _)
    rw [hfault]
    exact not_exact_error

end Dashboard

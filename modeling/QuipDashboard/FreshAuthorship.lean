/-
The fresh authorship aggregate on its two databases.

`fresh_authorship_sql` in `dashboard-store/src/miners.rs` takes the greatest height
as a number on Postgres.  Turso keeps heights as decimal texts: there the query pads
them to twenty digits, takes the greatest text and removes its leading zeros, and
`DecimalString::from_str` reads what is left.  Here are the texts of the query and of
its decoder; `Authorship` has the numbers.

* `fromStr_text` — the decoder reads the text of every number;
* `freshSqlRow_eq`, `freshSql_eq` — the query on texts refines the aggregate of
  numbers, on both databases;
* `recompute_exact_iff` — **recomputation is exact on both databases exactly when
  every validator with a fact has one above height zero**.
-/
import QuipDashboard.AuthorshipFacts
import QuipDashboard.ByteOffsets
import QuipDashboard.PaddedTexts

namespace Dashboard

open DigitOrder

/-! ### `DecimalString` -/

/-- `DecimalStringError`. -/
inductive DecimalStringError where
  | empty
  | signed
  | whitespace (index : ℕ)
  | invalidCharacter (index : ℕ) (found : Char)
  | leadingZero
  deriving DecidableEq

/-- The message of an error. -/
def DecimalStringError.text : DecimalStringError → String
  | .empty => "decimal string is empty"
  | .signed => "decimal string must not have a sign"
  | .whitespace index => "decimal string contains whitespace at index " ++ index.repr
  | .invalidCharacter index found =>
    "decimal string contains invalid character " ++ found.quote ++ " at index " ++ index.repr
  | .leadingZero => "decimal string has a leading zero"

/-- `char::is_ascii_whitespace`. -/
def isAsciiWhitespace (c : Char) : Bool :=
  [' ', '\t', '\n', '\x0c', '\r'].contains c

/-- `classify_digit`, for the characters from this byte index on. -/
def classifyDigits (index : ℕ) : List Char → Except DecimalStringError Unit
  | [] => .ok ()
  | c :: rest =>
    if isAsciiWhitespace c then .error (.whitespace index)
    else if c.isDigit then classifyDigits (index + c.utf8Size) rest
    else .error (.invalidCharacter index c)

/-- `DecimalString::from_str`. -/
def decimalFromStr (raw : List Char) : Except DecimalStringError (List Char) :=
  match raw with
  | [] => .error .empty
  | first :: rest =>
    if first = '+' ∨ first = '-' then .error .signed
    else
      match classifyDigits 0 raw with
      | .error e => .error e
      | .ok () => if first = '0' ∧ rest ≠ [] then .error .leadingZero else .ok raw

theorem classifyDigits_ok {l : List Char} (h : ∀ c ∈ l, c.isDigit = true) (index : ℕ) :
    classifyDigits index l = .ok () := by
  induction l generalizing index with
  | nil => rfl
  | cons c l ih =>
    have hc : c.isDigit = true := h c (by simp)
    have hspace : isAsciiWhitespace c = false := by
      by_contra hspace
      simp only [Bool.not_eq_false, isAsciiWhitespace, List.contains_iff_mem] at hspace
      simp only [List.mem_cons, List.not_mem_nil, or_false] at hspace
      rcases hspace with rfl | rfl | rfl | rfl | rfl <;> exact absurd hc (by decide)
    rw [classifyDigits, hspace, hc]
    exact ih (fun d hd => h d (by simp [hd])) _

/-- **The decoder reads the canonical text of every number.** -/
theorem fromStr_text (n : ℕ) : decimalFromStr (text n) = .ok (text n) := by
  have hdigits : ∀ c ∈ text n, c.isDigit = true := fun c => isDigit_of_mem_text
  rcases ht : text n with _ | ⟨first, rest⟩
  · exact absurd ht (text_ne_nil n)
  · have hfirst : first.isDigit = true := hdigits first (by simp [ht])
    have hsign : ¬ (first = '+' ∨ first = '-') := by
      rintro (rfl | rfl) <;> exact absurd hfirst (by decide)
    have hzero : ¬ (first = '0' ∧ rest ≠ []) := by
      rintro ⟨rfl, hrest⟩
      by_cases hn : n = 0
      · subst hn
        exact hrest (List.cons.inj ht).2.symm
      · exact text_head_ne_zero hn rest ht
    rw [decimalFromStr, if_neg hsign, ← ht, classifyDigits_ok hdigits, ht]
    exact if_neg hzero

/-! ### The query -/

/-- The literal of twenty zeros. -/
def zeros : List Char := List.replicate 20 '0'

/-- `substr('00000000000000000000',1,20-length(t))||t`. -/
def padText (t : List Char) : List Char := zeros.take (20 - t.length) ++ t

theorem padText_eq (t : List Char) : padText t = padded 20 t := by
  rw [padText, padded, zeros, List.take_replicate, Nat.min_eq_left (by omega)]

/-- `last_authored_block` of a group: the greatest height, which Postgres prints, and on
Turso `ltrim(MAX(..),'0')` of the padded texts. -/
def lastAuthoredText (pg : Bool) (heights : List ℕ) : Option (List Char) :=
  if pg then heights.max?.map text
  else (greatest (heights.map fun h => padText (text h))).map unpad

/-- A decoded row of the query; `online` is the constant `FALSE`. -/
structure FreshRow where
  accountId : String
  blocksAuthored : ℕ
  blocksAuthoredWithPow : ℕ
  lastAuthoredBlock : Option (List Char)
  lastAuthoredAt : Option ℤ
  deriving DecidableEq

/-- `decode` of a nullable decimal column. -/
def decodeDecimal : Option (List Char) → Except StoreError (Option (List Char))
  | none => .ok none
  | some raw =>
    match decimalFromStr raw with
    | .ok t => .ok (some t)
    | .error e => .error (.json e.text)

/-- The row of one group of `fresh_authorship_sql`, decoded. -/
def freshSqlRow (pg : Bool) (facts : List ((String × ℕ) × AuthorshipFact)) (validator : String) :
    Except StoreError FreshRow := do
  let group := factsOf facts validator
  let last ← decodeDecimal (lastAuthoredText pg (group.map (·.1.2)))
  return {
    accountId := validator
    blocksAuthored := group.length
    blocksAuthoredWithPow := group.countP (·.2.hadWinner)
    lastAuthoredBlock := last
    lastAuthoredAt := (group.map (·.2.timestamp)).max? }

/-- `fresh` on texts: the rows of `fresh_authorship_sql`, decoded one after the other. -/
def freshSql (pg : Bool) (facts : KeyedTable (String × ℕ) AuthorshipFact) :
    Except StoreError (List FreshRow) :=
  (facts.rows.map (·.1.1)).dedup.mapM (freshSqlRow pg facts.rows)

/-- A stored row as the texts of its columns. -/
def FreshRow.ofRecord (r : ValidatorAuthorshipRecord) : FreshRow :=
  ⟨r.accountId, r.blocksAuthored, r.blocksAuthoredWithPow, r.lastAuthoredBlock.map text,
    r.lastAuthoredAt⟩

/-! ### Texts against numbers -/

theorem max?_eq_foldl {ns : List ℕ} (hne : ns ≠ []) : ns.max? = some (ns.foldl max 0) := by
  rcases ns with _ | ⟨n, ns⟩
  · exact absurd rfl hne
  · rw [List.max?_cons', List.foldl_cons, Nat.zero_max]

/-- **The greatest height as text**: nothing is left of it on Turso if it is zero. -/
theorem lastAuthoredText_eq (pg : Bool) {heights : List ℕ} (hne : heights ≠ [])
    (hbound : ∀ h ∈ heights, h ≤ u64Max) :
    lastAuthoredText pg heights = some (if !pg && heights.foldl max 0 = 0 then []
      else text (heights.foldl max 0)) := by
  cases pg
  · have hlt : ∀ h ∈ heights, h < 10 ^ 20 := by
      intro h hmem
      have := hbound h hmem
      have : u64Max < 10 ^ 20 := by decide
      omega
    have hpad : (heights.map fun h => padText (text h)) =
        heights.map fun h => padded 20 (text h) :=
      List.map_congr_left fun h _ => padText_eq _
    rw [lastAuthoredText, if_neg (by simp), hpad, greatest_padded (by omega) hne hlt,
      Option.map_some, unpad_padded]
    simp
  · rw [lastAuthoredText, if_pos rfl, max?_eq_foldl hne]
    simp

/-- **The query on texts refines the aggregate of numbers.** -/
theorem freshSqlRow_eq (pg : Bool) {facts : List ((String × ℕ) × AuthorshipFact)} {v : String}
    (hv : v ∈ facts.map (·.1.1)) (hbound : ∀ e ∈ facts, e.1.2 ≤ u64Max) :
    freshSqlRow pg facts v = (freshRow pg facts v).map FreshRow.ofRecord := by
  have hne : (factsOf facts v).map (·.1.2) ≠ [] := by
    obtain ⟨e, he, hev⟩ := List.mem_map.mp hv
    have : e ∈ factsOf facts v := List.mem_filter.mpr ⟨he, by simpa using hev⟩
    intro hnil
    rw [List.map_eq_nil_iff] at hnil
    rw [hnil] at this
    cases this
  have hlast : lastAuthoredText pg ((factsOf facts v).map (·.1.2)) =
      some (if !pg && lastOf (factsOf facts v) = 0 then [] else text (lastOf (factsOf facts v))) :=
    lastAuthoredText_eq pg hne (fun h hh => by
      obtain ⟨e, he, rfl⟩ := List.mem_map.mp hh
      exact hbound e (List.mem_of_mem_filter he))
  have hrow : freshRow pg facts v = if !pg && lastOf (factsOf facts v) = 0
      then .error (.json "decimal string is empty")
      else .ok
        { accountId := v
          blocksAuthored := (factsOf facts v).length
          blocksAuthoredWithPow := (factsOf facts v).countP (·.2.hadWinner)
          lastAuthoredBlock := some (lastOf (factsOf facts v))
          lastAuthoredAt := ((factsOf facts v).map (·.2.timestamp)).max? } := rfl
  rw [freshSqlRow, hlast, hrow]
  by_cases hzero : (!pg && decide (lastOf (factsOf facts v) = 0)) = true
  · rw [if_pos hzero, if_pos hzero]
    rfl
  · rw [if_neg hzero, if_neg hzero, decodeDecimal, fromStr_text]
    rfl

/-- Results that agree element by element agree for the list. -/
theorem mapM_eq_map {ε α β γ : Type} {f : α → Except ε γ} {g : α → Except ε β} {k : β → γ}
    {l : List α} (h : ∀ a ∈ l, f a = (g a).map k) : l.mapM f = (l.mapM g).map (List.map k) := by
  induction l with
  | nil => rfl
  | cons a l ih =>
    rw [List.mapM_cons, List.mapM_cons, h a (by simp), ih fun b hb => h b (by simp [hb])]
    cases g a with
    | error e => rfl
    | ok b => cases l.mapM g <;> rfl

theorem freshSql_eq (pg : Bool) {facts : KeyedTable (String × ℕ) AuthorshipFact}
    (hbound : ∀ e ∈ facts.rows, e.1.2 ≤ u64Max) :
    freshSql pg facts = (fresh pg facts).map (List.map FreshRow.ofRecord) :=
  mapM_eq_map fun _ hv => freshSqlRow_eq pg (List.mem_dedup.mp hv) hbound

/-! ### The exact aggregate -/

/-- The row that a validator's facts aggregate to. -/
def aggregateOf (facts : List ((String × ℕ) × AuthorshipFact)) (v : String) :
    ValidatorAuthorshipRecord where
  accountId := v
  blocksAuthored := (factsOf facts v).length
  blocksAuthoredWithPow := (factsOf facts v).countP (·.2.hadWinner)
  lastAuthoredBlock := some (lastOf (factsOf facts v))
  lastAuthoredAt := ((factsOf facts v).map (·.2.timestamp)).max?

/-- One row for each validator that has a fact: the number of its facts, the number of those
with proof of work, the text of the greatest height and the latest timestamp. -/
structure ExactAggregate (facts : List ((String × ℕ) × AuthorshipFact)) (rows : List FreshRow) :
    Prop where
  once : (rows.map FreshRow.accountId).Nodup
  covers : ∀ v, v ∈ rows.map FreshRow.accountId ↔ v ∈ facts.map (·.1.1)
  authored : ∀ row ∈ rows, row.blocksAuthored = (factsOf facts row.accountId).length
  withPow : ∀ row ∈ rows,
    row.blocksAuthoredWithPow = (factsOf facts row.accountId).countP (·.2.hadWinner)
  last : ∀ row ∈ rows, ∃ n, IsGreatest {h | ∃ e ∈ factsOf facts row.accountId, e.1.2 = h} n ∧
    row.lastAuthoredBlock = some (text n)
  latest : ∀ row ∈ rows, ∃ t,
    IsGreatest {t | ∃ e ∈ factsOf facts row.accountId, e.2.timestamp = t} t ∧
      row.lastAuthoredAt = some t

theorem factsOf_ne_nil {facts : List ((String × ℕ) × AuthorshipFact)} {v : String}
    (hv : v ∈ facts.map (·.1.1)) : factsOf facts v ≠ [] := by
  obtain ⟨e, he, hev⟩ := List.mem_map.mp hv
  have hmem : e ∈ factsOf facts v := List.mem_filter.mpr ⟨he, by simpa using hev⟩
  exact List.ne_nil_of_mem hmem

theorem isGreatest_max? {α β : Type} [LinearOrder α] {l : List β} {f : β → α} {a : α}
    (h : (l.map f).max? = some a) : IsGreatest {x | ∃ e ∈ l, f e = x} a := by
  obtain ⟨hmem, hle⟩ := List.max?_eq_some_iff.mp h
  refine ⟨List.mem_map.mp hmem, ?_⟩
  rintro x ⟨e, he, rfl⟩
  exact hle _ (List.mem_map.mpr ⟨e, he, rfl⟩)

/-- The aggregate of numbers, as texts, is exact. -/
theorem exactAggregate_aggregateOf (facts : List ((String × ℕ) × AuthorshipFact)) :
    ExactAggregate facts
      ((facts.map (·.1.1)).dedup.map fun v => FreshRow.ofRecord (aggregateOf facts v)) := by
  have hids : ((facts.map (·.1.1)).dedup.map fun v =>
      FreshRow.ofRecord (aggregateOf facts v)).map FreshRow.accountId =
        (facts.map (·.1.1)).dedup := by
    rw [List.map_map]
    exact List.map_id _
  refine ⟨?_, fun v => ?_, ?_, ?_, ?_, ?_⟩
  · rw [hids]
    exact List.nodup_dedup _
  · rw [hids, List.mem_dedup]
  all_goals
    intro row hrow
    obtain ⟨v, hv, rfl⟩ := List.mem_map.mp hrow
    have hne := factsOf_ne_nil (List.mem_dedup.mp hv)
  · rfl
  · rfl
  · refine ⟨lastOf (factsOf facts v), isGreatest_max? ?_, rfl⟩
    exact max?_eq_foldl fun h => hne (List.map_eq_nil_iff.mp h)
  · obtain ⟨t, ht⟩ : ∃ t, ((factsOf facts v).map (·.2.timestamp)).max? = some t := by
      rw [← Option.isSome_iff_exists, List.isSome_max?_iff]
      exact fun h => hne (List.map_eq_nil_iff.mp h)
    exact ⟨t, isGreatest_max? ht, ht⟩

theorem freshRow_eq_ok {pg : Bool} {facts : List ((String × ℕ) × AuthorshipFact)} {v : String}
    (h : pg = true ∨ lastOf (factsOf facts v) ≠ 0) :
    freshRow pg facts v = .ok (aggregateOf facts v) :=
  freshRow_ok.mpr ⟨h, rfl⟩

theorem lastOf_ne_zero {group : List ((String × ℕ) × AuthorshipFact)} :
    lastOf group ≠ 0 ↔ ∃ e ∈ group, e.1.2 ≠ 0 := by
  have hzero := lastOf_isLUB group 0
  constructor
  · intro h
    by_contra hnone
    refine h (Nat.le_zero.mp (hzero.mpr fun e he => ?_))
    by_contra hpos
    exact hnone ⟨e, he, fun h0 => hpos (Nat.le_zero.mpr h0)⟩
  · rintro ⟨e, he, hne⟩ h
    exact hne (Nat.le_zero.mp (hzero.mp (Nat.le_zero.mpr h) e he))

/-- What recomputation is for, on both databases: it succeeds, its rows are exact, it stores
them, and the two forms of the query agree. -/
def RecomputesExactly (s : Store) : Prop :=
  (∀ pg, ∃ rows s', freshSql pg s.authorshipBlocks = .ok rows ∧
    ExactAggregate s.authorshipBlocks.rows rows ∧
    recompute.exec { s with pg := pg } = .ok ((), s') ∧
    ∀ row ∈ rows, (s'.validatorAuthorship.get? row.accountId).map FreshRow.ofRecord = some row) ∧
  freshSql true s.authorshipBlocks = freshSql false s.authorshipBlocks

/-- A recomputation where every row can be read. -/
theorem recompute_of_readable {s : Store}
    (h : ∀ v ∈ s.authors, s.pg = true ∨ lastOf (factsOf s.authorshipBlocks.rows v) ≠ 0) :
    fresh s.pg s.authorshipBlocks =
      .ok (s.authors.map (aggregateOf s.authorshipBlocks.rows)) ∧
    ∃ s', recompute.exec s = .ok ((), s') ∧ ∀ v ∈ s.authors,
      s'.validatorAuthorship.get? v = some (aggregateOf s.authorshipBlocks.rows v) := by
  have hfresh : fresh s.pg s.authorshipBlocks =
      .ok (s.authors.map (aggregateOf s.authorshipBlocks.rows)) :=
    Except.mapM_eq_ok fun v hv => freshRow_eq_ok (h v hv)
  refine ⟨hfresh, _, Tx.exec_readM_bind_ok.mpr ⟨_, hfresh, exec_storeSummaries _ s⟩, fun v hv => ?_⟩
  refine KeyedTable.get?_putAll ?_ ?_
  · rw [List.map_map, List.map_map]
    exact (List.map_id _).symm ▸ List.nodup_dedup _
  · exact List.mem_map.mpr ⟨_, List.mem_map.mpr ⟨v, hv, rfl⟩, rfl⟩

/-- **Recomputation is exact on both databases exactly when every validator with a fact has
one above height zero**, for any facts whose heights are `u64`s. -/
theorem recompute_exact_iff (s : Store)
    (hbound : ∀ e ∈ s.authorshipBlocks.rows, e.1.2 ≤ u64Max) :
    RecomputesExactly s ↔
      ∀ v ∈ s.authors, ∃ e ∈ factsOf s.authorshipBlocks.rows v, e.1.2 ≠ 0 := by
  constructor
  · rintro ⟨hexact, -⟩ v hv
    obtain ⟨rows, -, hrows, -⟩ := hexact false
    obtain ⟨hread, -⟩ := Except.mapM_mem hrows
    obtain ⟨row, -, hrow⟩ := hread v hv
    rw [freshSqlRow_eq false (List.mem_dedup.mp hv) hbound] at hrow
    rcases hr : freshRow false s.authorshipBlocks.rows v with e | r
    · rw [hr] at hrow
      cases hrow
    · exact lastOf_ne_zero.mp ((freshRow_ok.mp hr).1.resolve_left (by decide))
  · intro habove
    have hread := fun pg => recompute_of_readable (s := { s with pg := pg })
      fun v hv => Or.inr (lastOf_ne_zero.mpr (habove v hv))
    have hsql : ∀ pg, freshSql pg s.authorshipBlocks = .ok (s.authors.map fun v =>
        FreshRow.ofRecord (aggregateOf s.authorshipBlocks.rows v)) := by
      intro pg
      rw [freshSql_eq pg hbound, (hread pg).1]
      exact congrArg Except.ok (List.map_map ..)
    refine ⟨fun pg => ?_, by rw [hsql, hsql]⟩
    obtain ⟨-, s', hexec, hstored⟩ := hread pg
    refine ⟨_, s', hsql pg, exactAggregate_aggregateOf _, hexec, fun row hrow => ?_⟩
    obtain ⟨v, hv, rfl⟩ := List.mem_map.mp hrow
    rw [show (FreshRow.ofRecord (aggregateOf s.authorshipBlocks.rows v)).accountId = v from rfl,
      hstored v hv]
    rfl

/-- A store with facts of two validators, at heights of different lengths. -/
def twoValidatorsStore : Store :=
  { Store.bound false (.uniform 1) with
    authorshipBlocks := KeyedTable.empty.putAll
      [(("v", 9), ⟨1000, false⟩), (("w", 99), ⟨2000, true⟩), (("v", 100), ⟨3000, true⟩),
        (("v", 10), ⟨1500, false⟩), (("w", 0), ⟨500, false⟩)] }

theorem recompute_exact_two : RecomputesExactly twoValidatorsStore :=
  (recompute_exact_iff twoValidatorsStore (by decide +kernel)).mpr (by decide +kernel)

/-- A store with one fact: the validator `v` authored the block at this height. -/
def oneFactStore (height : ℕ) : Store :=
  { Store.bound false (.uniform 1) with
    authorshipBlocks := KeyedTable.empty.put ("v", height) ⟨1000, false⟩ }

/-- **The aggregate of a fact at height zero cannot be read on Turso.** -/
theorem recompute_fails_at_zero : ¬ RecomputesExactly (oneFactStore 0) := by
  rintro ⟨hexact, -⟩
  obtain ⟨rows, -, hrows, -⟩ := hexact false
  have hfail : freshSql false (oneFactStore 0).authorshipBlocks =
      .error (.json "decimal string is empty") := by decide +kernel
  rw [hfail] at hrows
  cases hrows

end Dashboard

/-
The scalars of a mineable topology.

The model of `topology_scalars` and of `mean_abs` in
`quip-dashboard/src/chain/snapshots.rs`.  The graph of a topology is not decoded: the
number that a vector begins with is read, and the vector is skipped.  The decoders are
third-party code, of which it is taken that they read what the format writes.  An
`f64` is a `Float`, with the same operations.

* `vectorType_elements` — a field that is taken for a vector holds one;
* `scanFields_eq` — the scan of the fields agrees with their values;
* `topology_scalars` — **the scan of the bytes agrees with the decoded value, in its
  counts, its means and its errors**.
-/
import QuipDashboard.RuntimeValues

namespace Dashboard

namespace TopologyScalars

open Scale

/-! ### `mean_abs` -/

variable (r : RuntimeReader)

/-- `i32::try_from`. -/
def i32Of (z : ℤ) : Except ChainError ℤ := if -2 ^ 31 ≤ z ∧ z < 2 ^ 31 then .ok z else .error outOfRange

/-- The closure `tri`. -/
def tri (n : Float) : Float := if n ≤ 0.0 then 0.0 else n * (n + 1.0) / 2.0

/-- `sum` of a range. -/
def rangeSum (min max : Float) : Float :=
  if min ≥ 0.0 then tri max - tri (min - 1.0)
  else if max ≤ 0.0 then tri (-min) - tri (-max - 1.0)
  else tri (-min) + tri max

/-- The values of a `Set`. -/
def meanAbsSet (value : RuntimeValue) : Except ChainError (Option Float) := do
  let values ← sequence value
  if values.isEmpty then return none
  else
    let numbers ← values.mapM fun v => do i32Of (← r.signed v)
    let sum := numbers.foldl (fun sum z => sum + (Float.ofInt z).abs / 1000.0) 0.0
    if values.length ≤ u32Max then return some (sum / Float.ofNat values.length)
    else .error outOfRange

/-- `mean_abs`. -/
def meanAbs (value : RuntimeValue) : Except ChainError (Option Float) :=
  match unwrapRuntime value with
  | .node _ (some name) fields =>
    if name = "Set" then
      match fields with
      | [] => .error (.invalid "empty Set payload")
      | (_, value) :: _ => meanAbsSet r value
    else do
      let composite := .node 0 none fields
      let min := Float.ofInt (← i32Of (← r.signed (← field composite "min")))
      let max := Float.ofInt (← i32Of (← r.signed (← field composite "max")))
      if max < min then .error (.invalid "allowed value range is reversed")
      else if name = "ContinuousRange" ∨ name = "IntegerRange" then
        let mean := rangeSum min max / (max - min + 1.0)
        return some (if name = "ContinuousRange" then mean / 1000.0 else mean)
      else .error (.unsupported ("allowed value variant " ++ name))
  | _ => .error (.invalid "allowed value spec is not an enum")

/-- From 2^27 on the sum of a range of one integer is rounded. -/
example : rangeSum (Float.ofInt 134217729) (Float.ofInt 134217729) = Float.ofInt 134217728 := by
  decide +kernel

/-! ### `topology_scalars` -/

/-- The decoders of other crates, and the format that they read. -/
structure Codec (P : Type) where
  code : Code UInt8 P ScaleLeaf
  /-- `Compact::<u32>::decode`. -/
  compact : List UInt8 → Except String (ℕ × List UInt8)
  /-- `decode_as_type`. -/
  decodeAsType : (ℕ → Option (TypeDef P)) → ℕ → List UInt8 → Except String (RuntimeValue × List UInt8)
  /-- `decode_with_visitor`, with an `IgnoreVisitor`. -/
  skip : (ℕ → Option (TypeDef P)) → ℕ → List UInt8 → Except String (List UInt8)
  /-- The text of the error of `u8::decode`. -/
  u8Error : String
  index_iff : ∀ i c, code.index i c ↔ ∃ b : UInt8, c = [b] ∧ b.toNat = i
  compact_read : ∀ {n c} rest, code.count n c → compact (c ++ rest) = .ok (n, rest)
  decode_read : ∀ {types t v b} rest, EncodesOne code types t v b →
    decodeAsType types t (b ++ rest) = .ok (v, rest)
  skip_read : ∀ {types t v b} rest, EncodesOne code types t v b → skip types t (b ++ rest) = .ok rest

/-- A computation that may fail; none when it does not end. -/
abbrev Scan (α : Type) := ExceptT ChainError Option α

/-- A computation that does not end. -/
def Scan.pending {α : Type} : Scan α := ExceptT.mk none

/-- `?` of a result. -/
def Scan.of {α : Type} (x : Except ChainError α) : Scan α := ExceptT.mk (some x)

/-- `.map_err(invalid)?`. -/
def Scan.invalid {α : Type} : Except String α → Scan α
  | .ok a => pure a
  | .error e => throw (.invalid e)

variable {P : Type} (C : Codec P) (types : ℕ → Option (TypeDef P))

/-- The loop that looks for a vector behind structs of one field. -/
def vectorType : ℕ → ℕ → Scan Unit
  | 0, _ => .pending
  | fuel + 1, id =>
    match types id with
    | none => throw (.invalid "missing topology vector type")
    | some (.sequence _) => pure ()
    | some (.composite [(_, t)]) => vectorType fuel t
    | some _ => throw (.unsupported "topology graph field is not a vector")

/-- `nodes`, `edges`, `h` and `j`. -/
structure Scalars where
  nodes : Option ℕ := none
  edges : Option ℕ := none
  h : Option (Option Float) := none
  j : Option (Option Float) := none

/-- The count of a vector of the graph. -/
def Scalars.withCount (s : Scalars) (name : Option String) (count : ℕ) : Scalars :=
  if name = some "nodes" then { s with nodes := some count } else { s with edges := some count }

/-- The mean of allowed values. -/
def Scalars.withMean (s : Scalars) (name : Option String) (mean : Option Float) : Scalars :=
  if name = some "allowed_h_values" then { s with h := some mean } else { s with j := some mean }

/-- The body of the loop over the fields. -/
def scanField (fuel : ℕ) (f : Field) (s : Scalars) (input : List UInt8) : Scan (Scalars × List UInt8) :=
  if f.1 = some "nodes" ∨ f.1 = some "edges" then do
    vectorType types fuel f.2
    let (count, _) ← .invalid (C.compact input)
    let input ← .invalid (C.skip types f.2 input)
    return (s.withCount f.1 count, input)
  else if f.1 = some "allowed_h_values" ∨ f.1 = some "allowed_j_values" then do
    let (value, input) ← .invalid (C.decodeAsType types f.2 input)
    let mean ← .of (meanAbs r (normalizeValue types value))
    return (s.withMean f.1 mean, input)
  else do
    let input ← .invalid (C.skip types f.2 input)
    return (s, input)

/-- The loop over the fields. -/
def scanFields (fuel : ℕ) : List Field → Scalars → List UInt8 → Scan (Scalars × List UInt8)
  | [], s, input => pure (s, input)
  | f :: fields, s, input => do
    let (s, input) ← scanField r C types fuel f s input
    scanFields fuel fields s input

/-- `ok_or_else`. -/
def required {α : Type} (error : String) : Option α → Scan α
  | some a => pure a
  | none => throw (.invalid error)

/-- The four scalars. -/
def Scalars.finish (s : Scalars) : Scan (ℕ × ℕ × Option Float × Option Float) := do
  let nodes ← required "topology lacks nodes" s.nodes
  let edges ← required "topology lacks edges" s.edges
  let h ← required "topology lacks h spec" s.h
  let j ← required "topology lacks j spec" s.j
  return (nodes, edges, h, j)

/-- The fields of the topology of a variant of `Option`. -/
def topologyFields (name : String) (fields : List Field) : Scan (List Field) :=
  if name ≠ "Some" then throw (.invalid "mineable topology metadata is absent")
  else
    match fields with
    | [(_, t)] =>
      match types t with
      | none => throw (.invalid "missing topology type")
      | some (.composite fields) => pure fields
      | some _ => throw (.invalid "topology is not a struct")
    | _ => throw (.invalid "malformed topology Option")

/-- `topology_scalars`. -/
def topologyScalars (fuel ty : ℕ) : List UInt8 → Scan (ℕ × ℕ × Option Float × Option Float)
  | [] => throw (.invalid C.u8Error)
  | index :: input =>
    match types ty with
    | none => throw (.invalid "missing topology Option type")
    | some (.variant variants) =>
      match variants.find? (·.2.1 = index.toNat) with
      | none => throw (.invalid "unknown topology Option variant")
      | some (name, _, fields) => do
        let fields ← topologyFields types name fields
        let (s, input) ← scanFields r C types fuel fields {} input
        if input ≠ [] then throw (.invalid "trailing topology bytes")
        else s.finish
    | some _ => throw (.invalid "topology return type is not an Option")

/-! ### The decoded topology -/

/-- How many elements the vector behind structs of one field has. -/
def elementCount : RuntimeValue → ℕ
  | .node t _ [(n, v)] =>
    match types t with
    | some (.composite _) => elementCount v
    | _ => [(n, v)].length
  | .node _ _ fields => fields.length
  | .leaf .. => 0

/-- What a decoded field adds to the scalars. -/
def decodedField (fuel : ℕ) (f : Field) (v : RuntimeValue) (s : Scalars) : Scan Scalars :=
  if f.1 = some "nodes" ∨ f.1 = some "edges" then do
    vectorType types fuel f.2
    return s.withCount f.1 (elementCount types v)
  else if f.1 = some "allowed_h_values" ∨ f.1 = some "allowed_j_values" then do
    let mean ← .of (meanAbs r (normalizeValue types v))
    return s.withMean f.1 mean
  else return s

/-- What the decoded fields add to the scalars. -/
def decodedFields (fuel : ℕ) : List Field → List (Option String × RuntimeValue) → Scalars → Scan Scalars
  | f :: fields, (_, v) :: values, s => do
    let s ← decodedField r types fuel f v s
    decodedFields fuel fields values s
  | _, _, s => pure s

/-- The fields of the struct in a variant's only field. -/
def topologyValues : List (Option String × RuntimeValue) → List (Option String × RuntimeValue)
  | [(_, .node _ _ values)] => values
  | _ => []

/-- The scalars of a decoded `Option`, and whether bytes are left behind it. -/
def decodedScalars (fuel : ℕ) (trailing : Bool) (name : String) (fields : List Field)
    (values : List (Option String × RuntimeValue)) : Scan (ℕ × ℕ × Option Float × Option Float) := do
  let fields ← topologyFields types name fields
  let s ← decodedFields r types fuel fields (topologyValues values) {}
  if trailing then throw (.invalid "trailing topology bytes") else s.finish

variable {r C types}

theorem of_ok_bind {α β : Type} (a : α) (f : α → Scan β) : (Scan.of (.ok a) >>= f) = f a := rfl

theorem elementCount_eq {t : ℕ} {v : RuntimeValue} {subs : List (Option String × RuntimeValue)}
    (h : Elements types t v subs) : elementCount types v = subs.length := by
  induction h with
  | @vector t e subs ht =>
    rcases subs with _ | ⟨⟨n, v⟩, _ | ⟨_, _⟩⟩
    · simp [elementCount]
    · simp [elementCount, ht]
    · simp [elementCount]
  | wrapped ht _ ih => simp [elementCount, ht, ih]

theorem throw_ne_pure {α : Type} {e : ChainError} {a : α} : (throw e : Scan α) ≠ pure a := by
  intro h
  cases h

/-- A field that is taken for a vector holds one. -/
theorem vectorType_elements {fuel t : ℕ} {v : RuntimeValue} {b : List UInt8}
    (h : vectorType types fuel t = pure ()) (hb : EncodesOne C.code types t v b) :
    ∃ subs, Elements types t v subs := by
  induction fuel generalizing t v b with
  | zero => cases h
  | succ fuel ih =>
    rw [vectorType] at h
    cases hb with
    | leaf ht =>
      rw [ht] at h
      exact absurd h throw_ne_pure
    | variant ht =>
      rw [ht] at h
      exact absurd h throw_ne_pure
    | vector ht => exact ⟨_, .vector ht⟩
    | @product _ _ d sub subs _ _ _ _ ht hd hsub hrest =>
      rw [ht] at h
      rcases d with ((_ | ⟨⟨n, t'⟩, _ | ⟨_, _⟩⟩)) | _ | _ | _ | _ | _
      -- only a struct of one field is looked into
      case composite.cons.nil =>
        cases hd
        obtain ⟨v', vs', b₁, b₂, rfl, -, hone, hnil⟩ := hsub.split
        cases hnil
        obtain ⟨subs, hsubs⟩ := ih h hone
        exact ⟨subs, .wrapped ht hsubs⟩
      all_goals first
        | exact absurd h throw_ne_pure
        | cases hd

/-- The scan of one field agrees with its value. -/
theorem scanField_eq {fuel : ℕ} {f : Field} {v : RuntimeValue} {b : List UInt8}
    (h : EncodesOne C.code types f.2 v b) (s : Scalars) (rest : List UInt8) :
    scanField r C types fuel f s (b ++ rest) = (do
      let s ← decodedField r types fuel f v s
      return (s, rest)) := by
  rw [scanField, decodedField]
  by_cases hgraph : f.1 = some "nodes" ∨ f.1 = some "edges"
  · rw [if_pos hgraph, if_pos hgraph]
    rcases hvector : vectorType types fuel f.2 with _ | _ | ⟨⟩
    · rfl
    · rfl
    -- the number before the elements is theirs
    · obtain ⟨subs, hsubs⟩ := vectorType_elements hvector h
      obtain ⟨c, b', hc, rfl⟩ := hsubs.length h
      have hcompact := C.compact_read (b' ++ rest) hc
      have hskip := C.skip_read rest h
      rw [List.append_assoc] at hskip ⊢
      rw [hcompact, hskip, elementCount_eq hsubs]
      rfl
  · rw [if_neg hgraph, if_neg hgraph]
    by_cases hvalues : f.1 = some "allowed_h_values" ∨ f.1 = some "allowed_j_values"
    · rw [if_pos hvalues, if_pos hvalues, C.decode_read rest h]
      simp [Scan.invalid]
    · rw [if_neg hvalues, if_neg hvalues, C.skip_read rest h]
      simp [Scan.invalid]

/-- The scan of the fields agrees with their values. -/
theorem scanFields_eq {fuel : ℕ} {fields : List Field} {values : List (Option String × RuntimeValue)}
    {b : List UInt8} (h : Encodes C.code types fields values b) (s : Scalars) (rest : List UInt8) :
    scanFields r C types fuel fields s (b ++ rest) = (do
      let s ← decodedFields r types fuel fields values s
      return (s, rest)) := by
  induction fields generalizing values b s with
  | nil =>
    cases h
    rfl
  | cons f fields ih =>
    obtain ⟨v, values, b, b', rfl, rfl, hone, hrest⟩ := h.split
    rw [scanFields, decodedFields, List.append_assoc, scanField_eq hone]
    simp only [bind_assoc, pure_bind]
    congr 1
    funext s
    exact ih hrest s

/-! ### The scan ends -/

theorem bind_ne_pending {α β : Type} {x : Scan α} {f : α → Scan β} (hx : x ≠ .pending)
    (hf : ∀ a, f a ≠ .pending) : (x >>= f) ≠ .pending := by
  rcases x with _ | _ | a
  · exact absurd rfl hx
  · intro h
    cases h
  · exact hf a

theorem of_ne_pending {α : Type} (x : Except ChainError α) : Scan.of x ≠ .pending := by
  intro h
  cases h

theorem throw_ne_pending {α : Type} (e : ChainError) : (throw e : Scan α) ≠ .pending := by
  intro h
  cases h

theorem pure_ne_pending {α : Type} (a : α) : (pure a : Scan α) ≠ .pending := by
  intro h
  cases h

theorem finish_ne_pending (s : Scalars) : s.finish ≠ .pending := by
  have hrequired : ∀ {α : Type} (e : String) (a : Option α), required e a ≠ .pending := by
    intro α e a
    cases a with
    | none => exact throw_ne_pending _
    | some a => exact pure_ne_pending a
  exact bind_ne_pending (hrequired _ _) fun _ => bind_ne_pending (hrequired _ _) fun _ =>
    bind_ne_pending (hrequired _ _) fun _ => bind_ne_pending (hrequired _ _) fun _ => pure_ne_pending _

theorem topologyFields_ne_pending (name : String) (fields : List Field) :
    topologyFields types name fields ≠ .pending := by
  unfold topologyFields
  split
  · exact throw_ne_pending _
  split
  · split
    · exact throw_ne_pending _
    · exact pure_ne_pending _
    · exact throw_ne_pending _
  · exact throw_ne_pending _

/-- A value is finite, so the loop that looks for a vector ends. -/
theorem vectorType_ends {fields : List Field} {values : List (Option String × RuntimeValue)} {b : List UInt8}
    (h : Encodes C.code types fields values b) :
    ∀ f ∈ fields, ∃ enough, ∀ fuel ≥ enough, vectorType types fuel f.2 ≠ .pending := by
  -- a type that the loop stops at
  have hstop : ∀ {t}, (∀ fuel, vectorType types (fuel + 1) t ≠ .pending) →
      ∃ enough, ∀ fuel ≥ enough, vectorType types fuel t ≠ .pending := by
    intro t ht
    refine ⟨1, fun fuel hfuel => ?_⟩
    obtain ⟨fuel, rfl⟩ := Nat.exists_eq_add_of_le' hfuel
    exact ht fuel
  induction h with
  | nil => simp
  | leaf ht _ _ ih =>
    refine List.forall_mem_cons.2 ⟨hstop fun fuel => ?_, ih⟩
    rw [vectorType, ht]
    exact throw_ne_pending _
  | @product n t d sub subs b fs vs bs ht hd _ _ ihsub ih =>
    refine List.forall_mem_cons.2 ⟨?_, ih⟩
    by_cases hone : ∃ n t', d = .composite [(n, t')]
    · obtain ⟨n, t', rfl⟩ := hone
      cases hd
      obtain ⟨enough, hends⟩ := ihsub _ (.head _)
      refine ⟨enough + 1, fun fuel hfuel => ?_⟩
      obtain ⟨fuel, rfl⟩ := Nat.exists_eq_add_of_le' (Nat.le_of_add_left_le hfuel)
      rw [vectorType, ht]
      exact hends fuel (by omega)
    · refine hstop fun fuel => ?_
      rw [vectorType, ht]
      split
      · exact throw_ne_pending _
      · exact pure_ne_pending _
      · rename_i heq
        cases heq
        exact absurd ⟨_, _, rfl⟩ hone
      · exact throw_ne_pending _
  | vector ht _ _ _ _ ih =>
    refine List.forall_mem_cons.2 ⟨hstop fun fuel => ?_, ih⟩
    rw [vectorType, ht]
    exact pure_ne_pending _
  | variant ht _ _ _ _ _ ih =>
    refine List.forall_mem_cons.2 ⟨hstop fun fuel => ?_, ih⟩
    rw [vectorType, ht]
    exact throw_ne_pending _

theorem decodedFields_ends {fields : List Field} (values : List (Option String × RuntimeValue))
    (h : ∀ f ∈ fields, ∃ enough, ∀ fuel ≥ enough, vectorType types fuel f.2 ≠ .pending) :
    ∃ enough, ∀ fuel ≥ enough, ∀ s, decodedFields r types fuel fields values s ≠ .pending := by
  induction fields generalizing values with
  | nil => exact ⟨0, fun _ _ s => pure_ne_pending s⟩
  | cons f fields ih =>
    obtain ⟨hf, hrest⟩ := List.forall_mem_cons.1 h
    obtain ⟨enough, hends⟩ := hf
    cases values with
    | nil => exact ⟨0, fun _ _ s => pure_ne_pending s⟩
    | cons v values =>
      obtain ⟨n, v⟩ := v
      obtain ⟨enough', hends'⟩ := ih values hrest
      refine ⟨max enough enough', fun fuel hfuel s => ?_⟩
      rw [decodedFields]
      refine bind_ne_pending ?_ fun s => hends' fuel (by omega) s
      rw [decodedField]
      split
      · exact bind_ne_pending (hends fuel (by omega)) fun _ => pure_ne_pending _
      split
      · exact bind_ne_pending (of_ne_pending _) fun _ => pure_ne_pending _
      · exact pure_ne_pending _

/-! ### The scan of the bytes -/

/-- The fields that are scanned are those of the struct in the value. -/
theorem topologyFields_encodes {name : String} {sub fields : List Field}
    {values : List (Option String × RuntimeValue)} {b : List UInt8}
    (h : topologyFields types name sub = pure fields) (hb : Encodes C.code types sub values b) :
    Encodes C.code types fields (topologyValues values) b := by
  unfold topologyFields at h
  split at h
  · exact absurd h throw_ne_pure
  split at h
  · rename_i n t
    split at h
    · exact absurd h throw_ne_pure
    · rename_i fields' ht
      cases h
      obtain ⟨v, vs, b, b', rfl, rfl, hone, hnil⟩ := hb.split
      cases hnil
      cases hone with
      | product ht' hd hsub hrest =>
        cases ht.symm.trans ht'
        cases hd
        cases hrest
        simpa [topologyValues] using hsub
      | leaf ht' => cases ht.symm.trans ht'
      | vector ht' => cases ht.symm.trans ht'
      | variant ht' => cases ht.symm.trans ht'
    · exact absurd h throw_ne_pure
  · exact absurd h throw_ne_pure

/-- **The scalars of a topology, without its graph.**  Whatever the types of the metadata
are: over the bytes of an `Option` of a topology, and any bytes behind them, the scan
returns the scalars of the decoded value, or fails as they do.  The counts are the numbers
of elements behind any structs of one field, each mean is the one that `mean_abs` takes of
the normalized value, and the scan ends. -/
theorem topology_scalars (r : RuntimeReader) (C : Codec P) (types : ℕ → Option (TypeDef P)) {ty : ℕ}
    {name : String} {values : List (Option String × RuntimeValue)} {b : List UInt8}
    (h : EncodesOne C.code types ty (.node ty (some name) values) b) :
    ∃ variants i fields, types ty = some (.variant variants) ∧ (name, i, fields) ∈ variants ∧
      (∀ fuel rest, topologyScalars r C types fuel ty (b ++ rest) =
        decodedScalars r types fuel (!rest.isEmpty) name fields values) ∧
      ∃ enough, ∀ fuel ≥ enough, ∀ rest, topologyScalars r C types fuel ty (b ++ rest) ≠ .pending := by
  cases h with
  | @variant _ _ variants i _ sub _ c b' _ _ _ ht hv hc hsub hrest =>
    cases hrest
    obtain ⟨byte, rfl, rfl⟩ := (C.index_iff _ _).1 hc
    have hscan : ∀ fuel rest, topologyScalars r C types fuel ty ([byte] ++ b' ++ [] ++ rest) =
        decodedScalars r types fuel (!rest.isEmpty) name sub values := by
      intro fuel rest
      rw [List.append_nil, List.append_assoc, List.singleton_append, topologyScalars, ht]
      dsimp only
      rw [hv, decodedScalars]
      dsimp only
      rcases hfields : topologyFields types name sub with _ | _ | fields
      · rfl
      · rfl
      · have hencodes := topologyFields_encodes hfields hsub
        show (scanFields r C types fuel fields {} (b' ++ rest) >>= _) = (decodedFields r types fuel fields _ {} >>= _)
        rw [scanFields_eq hencodes]
        simp only [bind_assoc, pure_bind]
        congr 1
        funext s
        cases rest <;> simp
    refine ⟨variants, _, sub, ht, List.mem_of_find?_eq_some hv, hscan, ?_⟩
    rcases hfields : topologyFields types name sub with _ | _ | fields
    · exact absurd hfields (topologyFields_ne_pending name sub)
    · refine ⟨0, fun fuel _ rest => ?_⟩
      rw [hscan, decodedScalars, hfields]
      intro h
      cases h
    · obtain ⟨enough, hends⟩ := decodedFields_ends (r := r) (topologyValues values)
        (vectorType_ends (topologyFields_encodes hfields hsub))
      refine ⟨enough, fun fuel hfuel rest => ?_⟩
      rw [hscan, decodedScalars, hfields]
      refine bind_ne_pending (x := decodedFields r types fuel fields _ {}) (hends fuel hfuel _) fun s => ?_
      split
      · exact throw_ne_pending _
      · exact finish_ne_pending s

/-! ### A small metadata -/

/-- The decoders that read what a format writes, and nothing else. -/
noncomputable def Codec.reading (code : Code UInt8 P ScaleLeaf)
    (hindex : ∀ i c, code.index i c ↔ ∃ b : UInt8, c = [b] ∧ b.toNat = i) : Codec P where
  code := code
  compact input := ((read code.count input).map .ok).getD (.error "no number")
  decodeAsType types t input := ((read (EncodesOne code types t) input).map .ok).getD (.error "no value")
  skip types t input := ((read (EncodesOne code types t) input).map fun p => .ok p.2).getD (.error "no value")
  u8Error := "no byte"
  index_iff := hindex
  compact_read rest h := by rw [code.count_prefixFree.read_eq h]; rfl
  decode_read rest h := by rw [(EncodesOne.prefixFree _).read_eq h]; rfl
  skip_read rest h := by rw [(EncodesOne.prefixFree _).read_eq h]; rfl

/-- One byte for everything: signed leaves, and numbers below 64. -/
def byteCode : Code UInt8 Unit ScaleLeaf where
  leaf _ x c := ∃ b : UInt8, c = [b] ∧ x = .primitive (.i128 b.toNat)
  index i c := ∃ b : UInt8, c = [b] ∧ b.toNat = i
  count n c := n < 64 ∧ c = [(4 * n).toUInt8]
  leaf_prefixFree _ := by
    rintro _ _ _ _ r r' ⟨b, rfl, rfl⟩ ⟨b', rfl, rfl⟩ h
    cases h
    exact ⟨rfl, rfl⟩
  index_prefixFree := by
    rintro _ _ _ _ r r' ⟨b, rfl, rfl⟩ ⟨b', rfl, rfl⟩ h
    cases h
    exact ⟨rfl, rfl⟩
  count_prefixFree := by
    rintro n n' _ _ r r' ⟨hn, rfl⟩ ⟨hn', rfl⟩ h
    have hb : (4 * n).toUInt8 = (4 * n').toUInt8 := by simpa using congrArg List.head? h
    have hnat := congrArg UInt8.toNat hb
    simp only [Nat.toUInt8, UInt8.toNat_ofNat'] at hnat
    have heq : n = n' := by omega
    exact ⟨heq, by rw [heq]⟩

/-- `Option<Topology>`, where the allowed values are sets. -/
def smallTypes : ℕ → Option (TypeDef Unit)
  | 0 => some (.variant [("None", 0, []), ("Some", 1, [(none, 1)])])
  | 1 => some (.composite
      [(some "nodes", 2), (some "edges", 3), (some "allowed_h_values", 4), (some "allowed_j_values", 4)])
  | 2 => some (.composite [(none, 3)])
  | 3 => some (.sequence 5)
  | 4 => some (.variant [("Set", 0, [(none, 3)])])
  | 5 => some (.leaf ())
  | _ => none

/-- Two nodes and no edge, 0.005 as the only value of h, and no value of j. -/
def smallTopology : List UInt8 := [1, 8, 7, 9, 0, 0, 4, 5, 0, 0]

/-- An element of a vector of `smallTypes`. -/
def smallByte (b : UInt8) : Option String × RuntimeValue := (none, .leaf 5 (.primitive (.i128 b.toNat)))

/-- A set of allowed values of `smallTypes`. -/
def smallSet (values : List (Option String × RuntimeValue)) : RuntimeValue :=
  .node 4 (some "Set") [(none, .node 3 none values)]

/-- The value that `smallTopology` is written from. -/
def smallValues : List (Option String × RuntimeValue) :=
  [(none, .node 1 none
    [(some "nodes", .node 2 none [(none, .node 3 none [smallByte 7, smallByte 9])]),
      (some "edges", .node 3 none []), (some "allowed_h_values", smallSet [smallByte 5]),
      (some "allowed_j_values", smallSet [])])]

theorem smallTopology_encodes :
    EncodesOne byteCode smallTypes 0 (.node 0 (some "Some") smallValues) smallTopology := by
  have hbyte : ∀ b : UInt8, byteCode.leaf () (.primitive (.i128 b.toNat)) [b] := fun b => ⟨b, rfl, rfl⟩
  have hcount : ∀ n < 64, byteCode.count n [(4 * n).toUInt8] := fun n hn => ⟨hn, rfl⟩
  have hindex : ∀ b : UInt8, byteCode.index b.toNat [b] := fun b => ⟨b, rfl, rfl⟩
  have hempty : EncodesOne byteCode smallTypes 3 (.node 3 none []) ([0] ++ [] ++ []) :=
    .vector rfl (hcount 0 (by decide)) .nil .nil
  have hpair : EncodesOne byteCode smallTypes 3 (.node 3 none [smallByte 7, smallByte 9])
      ([8] ++ ([7] ++ ([9] ++ [])) ++ []) :=
    .vector rfl (hcount 2 (by decide)) (.leaf rfl (hbyte 7) (.leaf rfl (hbyte 9) .nil)) .nil
  have hnodes : EncodesOne byteCode smallTypes 2 _ _ := .product rfl rfl hpair .nil
  have hone : EncodesOne byteCode smallTypes 3 (.node 3 none [smallByte 5]) ([4] ++ ([5] ++ []) ++ []) :=
    .vector rfl (hcount 1 (by decide)) (.leaf rfl (hbyte 5) .nil) .nil
  have hset : ∀ {v b}, EncodesOne byteCode smallTypes 3 v b →
      EncodesOne byteCode smallTypes 4 (.node 4 (some "Set") [(none, v)]) ([0] ++ b ++ []) := by
    intro v b h
    exact .variant rfl rfl (hindex 0) h .nil
  have hfields := (((hnodes.named (some "nodes")).append (hempty.named (some "edges"))).append
    ((hset hone).named (some "allowed_h_values"))).append ((hset hempty).named (some "allowed_j_values"))
  exact .variant rfl rfl (hindex 1) (.product rfl rfl hfields .nil) .nil

theorem topology_scalars_small :
    topologyScalars signedReader (.reading byteCode fun _ _ => Iff.rfl) smallTypes 3 0 smallTopology =
      pure (2, 0, some 0.005, none) := by
  obtain ⟨variants, i, fields, ht, hmem, hscan, -⟩ :=
    topology_scalars signedReader (.reading byteCode fun _ _ => Iff.rfl) smallTypes smallTopology_encodes
  cases ht
  obtain ⟨rfl, rfl⟩ : i = 1 ∧ fields = [(none, 1)] := by simpa using hmem
  have h := hscan 3 []
  rw [List.append_nil] at h
  rw [h]
  have hfive : meanAbs signedReader (normalizeValue smallTypes (smallSet [smallByte 5])) = .ok (some 0.005) := by
    simp [smallSet, smallByte, normalizeValue, normalizeComposite, unwrapDeclared, isWrapper, smallTypes, meanAbs,
      unwrapRuntime, meanAbsSet, sequence, ok_bind]
    have hsigned : signedReader.signed (.leaf 5 (.primitive (.i128 5))) = .ok 5 := by
      simp [RuntimeReader.signed, unwrapRuntime, RuntimeReader.valueAsI128, signedReader]
    rw [hsigned, ok_bind, i32Of, if_pos (by decide), ok_bind]
    norm_num [u32Max]
    rfl
  have hnone : meanAbs signedReader (normalizeValue smallTypes (smallSet [])) = .ok none := by
    simp [smallSet, normalizeValue, normalizeComposite, unwrapDeclared, isWrapper, smallTypes, meanAbs,
      unwrapRuntime, meanAbsSet, sequence]
    rfl
  simp [decodedScalars, topologyFields, smallTypes, decodedFields, smallValues, topologyValues, decodedField,
    vectorType, Scalars.withCount, elementCount, hfive, hnone, of_ok_bind, Scalars.withMean, Scalars.finish,
    required]
  rfl

end TopologyScalars

end Dashboard

/-
A binary format that is described by a registry of types.

The value of a type is written without its type: the fields of a product one after
another, the index of a variant before its fields, the number of elements before those
of a vector.  What the leaves are, and how leaves, indices and numbers are written, are
parameters.

* `Encodes` — what a list of fields is written as;
* `PrefixFree` — a code that tells where it ends, and `Encodes.prefixFree` — **the format
  is one when its leaves, its indices and its numbers are**;
* `read` — the reader of such a code;
* `Encodes.append`, `Encodes.split` — lists of fields, one after another;
* `Elements.length` — the number that a vector begins with, behind any products of one field,
  is the number of its elements.
-/
import Mathlib.Data.List.Basic

namespace Scale

/-! ### Codes -/

/-- No encoding begins with another one. -/
def PrefixFree {α β : Type*} (code : α → List β → Prop) : Prop :=
  ∀ ⦃a a' : α⦄ ⦃b b' r r' : List β⦄, code a b → code a' b' → b ++ r = b' ++ r' → a = a' ∧ b = b'

open Classical in
/-- What a code's reader makes of some input: the value and what is behind it. -/
noncomputable def read {α β : Type*} (code : α → List β → Prop) (input : List β) : Option (α × List β) :=
  if h : ∃ p : α × List β, ∃ b, code p.1 b ∧ input = b ++ p.2 then some h.choose else none

/-- The reader of a code that tells where it ends reads what was written. -/
theorem PrefixFree.read_eq {α β : Type*} {code : α → List β → Prop} (hcode : PrefixFree code) {a : α}
    {b : List β} (h : code a b) (rest : List β) : read code (b ++ rest) = some (a, rest) := by
  have hex : ∃ p : α × List β, ∃ b', code p.1 b' ∧ b ++ rest = b' ++ p.2 := ⟨(a, rest), b, h, rfl⟩
  obtain ⟨b', hb', heq⟩ := hex.choose_spec
  obtain ⟨ha, rfl⟩ := hcode h hb' heq
  rw [read, dif_pos hex]
  exact congrArg some (Prod.ext ha.symm (List.append_cancel_left heq).symm)

variable {β P L : Type}

/-- A named or unnamed field and its type. -/
abbrev Field := Option String × ℕ

/-- The definition of a type; the leaves are what is not described by other types. -/
inductive TypeDef (P : Type)
  | composite (fields : List Field)
  | tuple (types : List ℕ)
  | array (length : ℕ) (type : ℕ)
  | sequence (type : ℕ)
  | variant (variants : List (String × ℕ × List Field))
  | leaf (p : P)

/-- The fields of a product. -/
def TypeDef.product : TypeDef P → Option (List Field)
  | composite fields => some fields
  | tuple types => some (types.map fun t => (none, t))
  | array n t => some (List.replicate n (none, t))
  | sequence _ | variant _ | leaf _ => none

/-- A value, with the types it was read as. -/
inductive Value (L : Type)
  | leaf (type : ℕ) (x : L)
  | node (type : ℕ) (variant : Option String) (fields : List (Option String × Value L))

/-- To show something of a value, show it of a leaf, and of a node whose fields have it. -/
theorem Value.induction {motive : Value L → Prop} (leaf : ∀ t x, motive (.leaf t x))
    (node : ∀ t variant fields, (∀ f ∈ fields, motive f.2) → motive (.node t variant fields)) :
    ∀ v, motive v
  | .leaf t x => leaf t x
  | .node t variant fields => node t variant fields fun f _ => Value.induction leaf node f.2
decreasing_by
  have := List.sizeOf_lt_of_mem ‹f ∈ fields›
  cases f
  simp_all
  omega

/-- How the parts of the format are written that types do not describe. -/
structure Code (β P L : Type) where
  leaf : P → L → List β → Prop
  index : ℕ → List β → Prop
  count : ℕ → List β → Prop
  leaf_prefixFree : ∀ p, PrefixFree (leaf p)
  index_prefixFree : PrefixFree index
  count_prefixFree : PrefixFree count

variable (C : Code β P L) (types : ℕ → Option (TypeDef P))

/-- What a list of fields is written as. -/
inductive Encodes : List Field → List (Option String × Value L) → List β → Prop
  | nil : Encodes [] [] []
  | leaf {n t p x b fs vs bs} (ht : types t = some (.leaf p)) (hx : C.leaf p x b)
      (hrest : Encodes fs vs bs) : Encodes ((n, t) :: fs) ((n, .leaf t x) :: vs) (b ++ bs)
  | product {n t d sub subs b fs vs bs} (ht : types t = some d) (hd : d.product = some sub)
      (hsub : Encodes sub subs b) (hrest : Encodes fs vs bs) :
      Encodes ((n, t) :: fs) ((n, .node t none subs) :: vs) (b ++ bs)
  | vector {n t e c subs b fs vs bs} (ht : types t = some (.sequence e)) (hc : C.count subs.length c)
      (hsub : Encodes (List.replicate subs.length (none, e)) subs b) (hrest : Encodes fs vs bs) :
      Encodes ((n, t) :: fs) ((n, .node t none subs) :: vs) (c ++ b ++ bs)
  | variant {n t variants i name sub subs c b fs vs bs} (ht : types t = some (.variant variants))
      (hv : variants.find? (·.2.1 = i) = some (name, i, sub)) (hc : C.index i c)
      (hsub : Encodes sub subs b) (hrest : Encodes fs vs bs) :
      Encodes ((n, t) :: fs) ((n, .node t (some name) subs) :: vs) (c ++ b ++ bs)

variable {C types}

namespace Encodes

/-- **The values and their end are determined by the bytes.** -/
theorem prefixFree {fs vs vs' bs bs' r r'} (h : Encodes C types fs vs bs) (h' : Encodes C types fs vs' bs')
    (hr : bs ++ r = bs' ++ r') : vs = vs' ∧ bs = bs' := by
  induction h generalizing vs' bs' r r' with
  | nil =>
    cases h'
    exact ⟨rfl, rfl⟩
  | leaf ht hx _ ih =>
    cases h' with
    | leaf ht' hx' hrest' =>
      cases ht.symm.trans ht'
      rw [List.append_assoc, List.append_assoc] at hr
      obtain ⟨rfl, rfl⟩ := C.leaf_prefixFree _ hx hx' hr
      obtain ⟨rfl, rfl⟩ := ih hrest' (List.append_cancel_left hr)
      exact ⟨rfl, rfl⟩
    | product ht' hd' =>
      cases ht.symm.trans ht'
      simp [TypeDef.product] at hd'
    | vector ht' => cases ht.symm.trans ht'
    | variant ht' => cases ht.symm.trans ht'
  | product ht hd _ _ ihsub ih =>
    cases h' with
    | leaf ht' =>
      cases ht.symm.trans ht'
      simp [TypeDef.product] at hd
    | product ht' hd' hsub' hrest' =>
      cases ht.symm.trans ht'
      cases hd.symm.trans hd'
      rw [List.append_assoc, List.append_assoc] at hr
      obtain ⟨rfl, rfl⟩ := ihsub hsub' hr
      obtain ⟨rfl, rfl⟩ := ih hrest' (List.append_cancel_left hr)
      exact ⟨rfl, rfl⟩
    | vector ht' =>
      cases ht.symm.trans ht'
      simp [TypeDef.product] at hd
    | variant ht' =>
      cases ht.symm.trans ht'
      simp [TypeDef.product] at hd
  | vector ht hc _ _ ihsub ih =>
    cases h' with
    | leaf ht' => cases ht.symm.trans ht'
    | product ht' hd' =>
      cases ht.symm.trans ht'
      simp [TypeDef.product] at hd'
    | vector ht' hc' hsub' hrest' =>
      cases ht.symm.trans ht'
      simp only [List.append_assoc] at hr
      obtain ⟨hlen, rfl⟩ := C.count_prefixFree hc hc' hr
      have hr := List.append_cancel_left hr
      rw [← hlen] at hsub'
      obtain ⟨rfl, rfl⟩ := ihsub hsub' hr
      obtain ⟨rfl, rfl⟩ := ih hrest' (List.append_cancel_left hr)
      exact ⟨rfl, rfl⟩
    | variant ht' => cases ht.symm.trans ht'
  | variant ht hv hc _ _ ihsub ih =>
    cases h' with
    | leaf ht' => cases ht.symm.trans ht'
    | product ht' hd' =>
      cases ht.symm.trans ht'
      simp [TypeDef.product] at hd'
    | vector ht' => cases ht.symm.trans ht'
    | variant ht' hv' hc' hsub' hrest' =>
      cases ht.symm.trans ht'
      simp only [List.append_assoc] at hr
      obtain ⟨rfl, rfl⟩ := C.index_prefixFree hc hc' hr
      have hr := List.append_cancel_left hr
      cases hv.symm.trans hv'
      obtain ⟨rfl, rfl⟩ := ihsub hsub' hr
      obtain ⟨rfl, rfl⟩ := ih hrest' (List.append_cancel_left hr)
      exact ⟨rfl, rfl⟩

/-- A list of fields, one after another. -/
theorem append {fs vs b fs' vs' b'} (h : Encodes C types fs vs b) (h' : Encodes C types fs' vs' b') :
    Encodes C types (fs ++ fs') (vs ++ vs') (b ++ b') := by
  induction h with
  | nil => exact h'
  | leaf ht hx _ ih =>
    rw [List.append_assoc]
    exact leaf ht hx ih
  | product ht hd hsub _ _ ih =>
    rw [List.append_assoc]
    exact product ht hd hsub ih
  | vector ht hc hsub _ _ ih =>
    rw [List.append_assoc]
    exact vector ht hc hsub ih
  | variant ht hv hc hsub _ _ ih =>
    rw [List.append_assoc]
    exact variant ht hv hc hsub ih

end Encodes

/-- What one value of a type is written as. -/
def EncodesOne (C : Code β P L) (types : ℕ → Option (TypeDef P)) (t : ℕ) (v : Value L) (b : List β) : Prop :=
  Encodes C types [(none, t)] [(none, v)] b

theorem EncodesOne.prefixFree (t : ℕ) : PrefixFree (EncodesOne C types t) := by
  intro v v' b b' r r' h h' hr
  simpa using Encodes.prefixFree h h' hr

theorem EncodesOne.named {t : ℕ} {v : Value L} {b : List β} (h : EncodesOne C types t v b)
    (n : Option String) : Encodes C types [(n, t)] [(n, v)] b := by
  cases h with
  | leaf ht hx hrest => exact .leaf ht hx hrest
  | product ht hd hsub hrest => exact .product ht hd hsub hrest
  | vector ht hc hsub hrest => exact .vector ht hc hsub hrest
  | variant ht hv hc hsub hrest => exact .variant ht hv hc hsub hrest

/-- The first field is written before the others. -/
theorem Encodes.split {n : Option String} {t : ℕ} {fs : List Field} {vs : List (Option String × Value L)}
    {bs : List β} (h : Encodes C types ((n, t) :: fs) vs bs) : ∃ v vs' b b',
      vs = (n, v) :: vs' ∧ bs = b ++ b' ∧ EncodesOne C types t v b ∧ Encodes C types fs vs' b' := by
  -- a field alone is written with nothing after it
  cases h with
  | leaf ht hx hrest => exact ⟨_, _, _, _, rfl, rfl, by simpa [EncodesOne] using Encodes.leaf ht hx .nil, hrest⟩
  | product ht hd hsub hrest =>
    exact ⟨_, _, _, _, rfl, rfl, by simpa [EncodesOne] using Encodes.product ht hd hsub .nil, hrest⟩
  | vector ht hc hsub hrest =>
    exact ⟨_, _, _, _, rfl, rfl, by simpa [EncodesOne] using Encodes.vector ht hc hsub .nil, hrest⟩
  | variant ht hv hc hsub hrest =>
    exact ⟨_, _, _, _, rfl, rfl, by simpa [EncodesOne] using Encodes.variant ht hv hc hsub .nil, hrest⟩

/-! ### Vectors -/

/-- The elements of a vector behind products of one field. -/
inductive Elements (types : ℕ → Option (TypeDef P)) : ℕ → Value L → List (Option String × Value L) → Prop
  | vector {t e subs} (ht : types t = some (.sequence e)) : Elements types t (.node t none subs) subs
  | wrapped {t n t' v subs} (ht : types t = some (.composite [(n, t')])) (h : Elements types t' v subs) :
      Elements types t (.node t none [(n, v)]) subs

/-- **A vector begins with the number of its elements**, behind products of one field. -/
theorem Elements.length {t : ℕ} {v : Value L} {subs : List (Option String × Value L)} {b : List β}
    (h : Elements types t v subs) (hb : EncodesOne C types t v b) :
    ∃ c b', C.count subs.length c ∧ b = c ++ b' := by
  induction h generalizing b with
  | vector ht =>
    cases hb with
    | product ht' hd' =>
      cases ht.symm.trans ht'
      simp [TypeDef.product] at hd'
    | vector _ hc hsub hrest =>
      cases hrest
      exact ⟨_, _, hc, List.append_assoc ..⟩
  | wrapped ht _ ih =>
    cases hb with
    | product ht' hd' hsub hrest =>
      cases ht.symm.trans ht'
      simp only [TypeDef.product, Option.some.injEq] at hd'
      subst hd'
      obtain ⟨v', vs', b₁, b₂, hv, rfl, hone, hnil⟩ := hsub.split
      cases hv
      cases hnil
      cases hrest
      simpa using ih hone
    | vector ht' => cases ht.symm.trans ht'

end Scale

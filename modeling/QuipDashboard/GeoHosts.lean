/-
The hosts that are looked up.

The model of the gates of `quip-dashboard/src/http/geo.rs`: `candidate` decides which of the
hosts that operators publish may reach the resolver, and `is_public` which addresses may
reach the database.

* `candidate_wellFormed`, `candidate_key` — a host that passes is a canonical address or a
  DNS name, and each of these passes under its own key;
* `isPublic_iff` — the public addresses are those outside of the reserved blocks;
* `host_candidates` — **the key of a candidate is its normal form**: every host that passes
  has one, it passes as the same candidate, and no two candidates share it.
-/
import QuipDashboard.IpTexts
import QuipDashboard.MiningAttempts
import QuipDashboard.ByteOffsets
import Mathlib

namespace Dashboard

open ByteOffsets IpTexts

/-! ### Candidates -/

/-- `Candidate`. -/
inductive Candidate where
  | ip (address : Address)
  | name (host : List Char)
  deriving DecidableEq

/-- The `key` of `lookup`. -/
def Candidate.key : Candidate → List Char
  | .ip address => address.display
  | .name host => host

/-- `str::strip_suffix('.')`, or the text itself. -/
def stripDot (s : List Char) : List Char := if s.getLast? = some '.' then s.dropLast else s

/-- The host that `candidate` looks at. -/
def normalizeHost (host : List Char) : List Char := stripDot ((trim host).map Char.toLower)

/-- `valid` of `candidate`. -/
def validLabel (label : List Char) : Bool :=
  label ≠ [] && byteLen label ≤ 63 && label.head? ≠ some '-' && label.getLast? ≠ some '-' &&
    label.all fun c => c.isAlphanum || c = '-'

/-- `candidate`. -/
def candidate (host : List Char) : Option Candidate :=
  let host := normalizeHost host
  if host = [] ∨ 253 < byteLen host then none
  else
    match IpTexts.parse host with
    | some ip => some (.ip ip.canonical)
    | none =>
      let labels := host.splitOn '.'
      if labels.length < 2 then none
      else if labels.all validLabel = false then none
      else if (labels.getLast?.any fun label => label.any Char.isAlpha) = false then none
      else some (.name host)

/-! ### What may be looked up -/

/-- A character of a DNS name in lower case. -/
def IsNameChar (c : Char) : Prop := c.isLower ∨ c.isDigit ∨ c = '-'

instance (c : Char) : Decidable (IsNameChar c) := inferInstanceAs (Decidable (_ ∨ _ ∨ _))

/-- A label of a DNS name: at most 63 letters, digits and hyphens, without a hyphen at
either end. -/
structure IsLabel (label : List Char) : Prop where
  ne_nil : label ≠ []
  length_le : label.length ≤ 63
  head : label.head? ≠ some '-'
  last : label.getLast? ≠ some '-'
  chars : ∀ c ∈ label, IsNameChar c

/-- Labels with a dot behind each of them but the last. -/
def dotted (front : List (List Char)) (top : List Char) : List Char :=
  front.flatMap (· ++ ['.']) ++ top

/-- A DNS name of at least two labels, with a letter in the last. -/
structure IsDnsName (host : List Char) : Prop where
  length_le : host.length ≤ 253
  labels : ∃ front top, front ≠ [] ∧ host = dotted front top ∧
    (∀ label ∈ front ++ [top], IsLabel label) ∧ ∃ c ∈ top, c.isLower

/-- A canonical address or a DNS name. -/
def Candidate.WellFormed : Candidate → Prop
  | .ip address => address.canonical = address
  | .name host => IsDnsName host

/-! ### What a host is brought to -/

theorem trim_of_no_whitespace {s : List Char} (h : ∀ c ∈ s, isWhitespace c = false) :
    trim s = s := by
  have hkeep : ∀ l : List Char, (∀ c ∈ l, isWhitespace c = false) →
      l.dropWhile isWhitespace = l := by
    intro l hl
    rcases l with _ | ⟨c, l⟩
    · rfl
    · exact List.dropWhile_cons_of_neg (by simp [hl c List.mem_cons_self])
  rw [trim, hkeep s h, hkeep s.reverse fun c hc => h c (List.mem_reverse.mp hc),
    List.reverse_reverse]

/-- A text in lower case, without whitespace and without a dot at its end stays as it is. -/
theorem normalizeHost_of {s : List Char} (hspace : ∀ c ∈ s, isWhitespace c = false)
    (hlower : ∀ c ∈ s, c.toLower = c) (hdot : s.getLast? ≠ some '.') : normalizeHost s = s := by
  have hmap : s.map Char.toLower = s := by
    conv_rhs => rw [← List.map_id s]
    exact List.map_congr_left hlower
  rw [normalizeHost, trim_of_no_whitespace hspace, hmap, stripDot, if_neg hdot]

/-- No upper case is left in a host. -/
theorem not_isUpper_of_mem {host : List Char} {c : Char} (h : c ∈ normalizeHost host) :
    c.isUpper = false := by
  have hmem : c ∈ (trim host).map Char.toLower := by
    unfold normalizeHost stripDot at h
    split at h
    · exact List.mem_of_mem_dropLast h
    · exact h
  obtain ⟨x, -, rfl⟩ := List.mem_map.mp hmem
  exact Char.isUpper_toLower_eq_false x

/-! ### Labels -/

theorem isAlphanum_iff {c : Char} (h : c.isUpper = false) :
    (c.isAlphanum || c = '-') = true ↔ IsNameChar c := by
  rw [IsNameChar, Char.isAlphanum, Char.isAlpha, h, Bool.false_or]
  simp only [Bool.or_eq_true, decide_eq_true_eq, or_assoc]

theorem IsNameChar.code {c : Char} (h : IsNameChar c) :
    c.toNat = 45 ∨ (48 ≤ c.toNat ∧ c.toNat ≤ 57) ∨ (97 ≤ c.toNat ∧ c.toNat ≤ 122) := by
  rcases h with h | h | rfl
  · simp only [Char.isLower, Bool.and_eq_true, decide_eq_true_eq] at h
    exact .inr (.inr ⟨UInt32.le_iff_toNat_le.mp h.1, UInt32.le_iff_toNat_le.mp h.2⟩)
  · simp only [Char.isDigit, Bool.and_eq_true, decide_eq_true_eq] at h
    exact .inr (.inl ⟨UInt32.le_iff_toNat_le.mp h.1, UInt32.le_iff_toNat_le.mp h.2⟩)
  · exact .inl rfl

theorem IsNameChar.ascii {c : Char} (h : IsNameChar c) : c.toNat < 128 := by
  have := h.code
  omega

/-- A label in lower case is valid exactly when it is one. -/
theorem validLabel_iff {label : List Char} (h : ∀ c ∈ label, c.isUpper = false) :
    validLabel label = true ↔ IsLabel label := by
  have hchars : (label.all fun c => c.isAlphanum || c = '-') = true ↔
      ∀ c ∈ label, IsNameChar c := by
    rw [List.all_eq_true]
    exact forall₂_congr fun c hc => isAlphanum_iff (h c hc)
  have hlen : (∀ c ∈ label, IsNameChar c) → byteLen label = label.length := fun hname =>
    byteLen_of_ascii fun c hc => (hname c hc).ascii
  unfold validLabel
  simp only [Bool.and_eq_true, decide_eq_true_eq, hchars]
  constructor
  · rintro ⟨⟨⟨⟨hne, hle⟩, hhead⟩, hlast⟩, hname⟩
    exact ⟨hne, hlen hname ▸ hle, hhead, hlast, hname⟩
  · rintro ⟨hne, hle, hhead, hlast, hname⟩
    exact ⟨⟨⟨⟨hne, (hlen hname).symm ▸ hle⟩, hhead⟩, hlast⟩, hname⟩

theorem intercalate_eq_dotted (front : List (List Char)) (top : List Char) :
    ['.'].intercalate (front ++ [top]) = dotted front top := by
  induction front with
  | nil =>
    rw [List.nil_append, List.intercalate_singleton, dotted, List.flatMap_nil, List.nil_append]
  | cons label front ih =>
    obtain ⟨next, more, hmore⟩ : ∃ next more, front ++ [top] = next :: more :=
      List.exists_cons_of_ne_nil (by simp)
    rw [List.cons_append, hmore, List.intercalate_cons_cons, ← hmore, ih, dotted, dotted,
      List.flatMap_cons, List.append_assoc, List.append_assoc, List.append_assoc]

theorem splitOn_dotted {front : List (List Char)} {top : List Char}
    (h : ∀ label ∈ front ++ [top], IsLabel label) :
    (dotted front top).splitOn '.' = front ++ [top] := by
  rw [← intercalate_eq_dotted]
  refine List.splitOn_intercalate '.' (fun label hlabel hdot => ?_) (by simp)
  exact absurd ((h label hlabel).chars '.' hdot) (by decide)

/-- The characters of a DNS name. -/
theorem mem_dotted {front : List (List Char)} {top : List Char}
    (h : ∀ label ∈ front ++ [top], IsLabel label) {c : Char} (hc : c ∈ dotted front top) :
    IsNameChar c ∨ c = '.' := by
  rcases List.mem_append.mp hc with hc | hc
  · obtain ⟨label, hlabel, hc⟩ := List.mem_flatMap.mp hc
    rcases List.mem_append.mp hc with hc | hc
    · exact .inl ((h label (List.mem_append_left _ hlabel)).chars c hc)
    · exact .inr (List.mem_singleton.mp hc)
  · exact .inl ((h top (by simp)).chars c hc)

/-! ### What passes -/

theorem mem_dotted_of_mem {front : List (List Char)} {top label : List Char}
    (h : label ∈ front ++ [top]) {c : Char} (hc : c ∈ label) : c ∈ dotted front top := by
  rcases List.mem_append.mp h with h | h
  · exact List.mem_append_left _ (List.mem_flatMap.mpr ⟨label, h, List.mem_append_left _ hc⟩)
  · rw [List.mem_singleton.mp h] at hc
    exact List.mem_append_right _ hc

/-- The length of a DNS name is that of its bytes. -/
theorem byteLen_dotted {front : List (List Char)} {top : List Char}
    (h : ∀ label ∈ front ++ [top], IsLabel label) :
    byteLen (dotted front top) = (dotted front top).length := by
  refine byteLen_of_ascii fun c hc => ?_
  rcases mem_dotted h hc with hc | rfl
  · exact hc.ascii
  · decide

/-- A text in lower case that passes the tests of its labels is a DNS name. -/
theorem isDnsName_of_labels {s : List Char} (hlen : byteLen s ≤ 253)
    (hmany : 2 ≤ (s.splitOn '.').length) (hvalid : ∀ label ∈ s.splitOn '.', validLabel label)
    (htop : ((s.splitOn '.').getLast?.any fun label => label.any Char.isAlpha) = true)
    (hlower : ∀ c ∈ s, c.isUpper = false) : IsDnsName s := by
  obtain ⟨front, top, hsplit⟩ : ∃ front top, s.splitOn '.' = front ++ [top] :=
    ⟨_, _, (List.dropLast_append_getLast (List.splitOn_ne_nil '.' s)).symm⟩
  have hs : s = dotted front top := by
    rw [← intercalate_eq_dotted, ← hsplit, List.intercalate_splitOn]
  rw [hsplit] at hmany hvalid htop
  have hlabels : ∀ label ∈ front ++ [top], IsLabel label := fun label hlabel =>
    (validLabel_iff fun c hc => hlower c (hs ▸ mem_dotted_of_mem hlabel hc)).mp
      (hvalid label hlabel)
  have hfront : front ≠ [] := by
    rintro rfl
    rw [List.nil_append, List.length_singleton] at hmany
    omega
  rw [List.getLast?_concat, Option.any_some, List.any_eq_true] at htop
  obtain ⟨c, hc, halpha⟩ := htop
  have hletter : c.isLower = true := by
    have hupper := hlower c (hs ▸ mem_dotted_of_mem (List.mem_append_right _ (by simp)) hc)
    rwa [Char.isAlpha, hupper, Bool.false_or] at halpha
  refine ⟨?_, front, top, hfront, hs, hlabels, c, hc, hletter⟩
  rw [hs, ← byteLen_dotted hlabels, ← hs]
  exact hlen

/-- **A host that passes is a canonical address or a DNS name.** -/
theorem candidate_wellFormed {host : List Char} {c : Candidate} (h : candidate host = some c) :
    c.WellFormed := by
  unfold candidate at h
  simp only at h
  split at h
  · cases h
  · rename_i hempty
    split at h
    · cases h
      exact Address.canonical_canonical _
    · split at h
      · cases h
      · rename_i hmany
        split at h
        · cases h
        · rename_i hvalid
          split at h
          · cases h
          · rename_i htop
            cases h
            have hlower : ∀ c ∈ normalizeHost host, c.isUpper = false :=
              fun c hc => not_isUpper_of_mem hc
            revert hempty hmany hvalid htop hlower
            generalize normalizeHost host = s
            intro hempty hmany hvalid htop hlower
            exact isDnsName_of_labels (not_lt.mp fun hlen => hempty (.inr hlen)) (by omega)
              (by simpa using hvalid) (by simpa using htop) hlower

/-! ### Keys pass -/

theorem IsNameChar.isWhitespace {c : Char} (h : IsNameChar c) : isWhitespace c = false := by
  have := h.code
  unfold Dashboard.isWhitespace
  simp only [Bool.or_eq_false_iff, Bool.and_eq_false_iff, decide_eq_false_iff_not]
  omega

theorem IsNameChar.toLower {c : Char} (h : IsNameChar c) : c.toLower = c := by
  refine Char.toLower_eq_of_not_isUpper fun hupper => ?_
  simp only [Char.isUpper, decide_eq_true_eq] at hupper
  have hge : 65 ≤ c.toNat := UInt32.le_iff_toNat_le.mp hupper.1
  have hle : c.toNat ≤ 90 := UInt32.le_iff_toNat_le.mp hupper.2
  have := h.code
  omega

/-- A letter is no decimal digit. -/
theorem toDigit_of_isLower {c : Char} (h : c.isLower = true) : toDigit 10 c = none := by
  simp only [Char.isLower, Bool.and_eq_true, decide_eq_true_eq] at h
  have hge : 97 ≤ c.toNat := UInt32.le_iff_toNat_le.mp h.1
  have hdigit : ¬('0' ≤ c ∧ c ≤ '9') := by
    rintro ⟨-, hle⟩
    have : c.toNat ≤ 57 := UInt32.le_iff_toNat_le.mp hle
    omega
  have ha : 'a'.toNat = 97 := rfl
  rw [toDigit, if_neg hdigit, if_pos ⟨h.1, h.2⟩, Option.filter_some, if_neg]
  simp only [decide_eq_true_eq]
  omega

/-- **A DNS name is no address.** -/
theorem IsDnsName.parse {s : List Char} (h : IsDnsName s) : IpTexts.parse s = none := by
  obtain ⟨front, top, -, rfl, hlabels, c, hc, hletter⟩ := h.labels
  rcases hparse : IpTexts.parse (dotted front top) with _ | ip
  · rfl
  · exfalso
    rcases parse_characters hparse with hcolon | hall
    · rcases mem_dotted hlabels hcolon with hname | hname
      · exact absurd hname (by decide)
      · exact absurd hname (by decide)
    · rcases hall c (List.mem_append_right _ hc) with hdigit | rfl
      · rw [toDigit_of_isLower hletter] at hdigit
        cases hdigit
      · exact absurd hletter (by decide)

/-- A DNS name ends with its top label, and so without a dot. -/
theorem getLast_dotted {front : List (List Char)} {top : List Char}
    (h : ∀ label ∈ front ++ [top], IsLabel label) :
    dotted front top ≠ [] ∧ (dotted front top).getLast? ≠ some '.' := by
  have htop := h top (by simp)
  refine ⟨List.append_ne_nil_of_right_ne_nil _ htop.ne_nil, fun hlast => ?_⟩
  rw [dotted, List.getLast?_append_of_ne_nil _ htop.ne_nil] at hlast
  exact absurd (htop.chars _ (List.mem_of_getLast? hlast)) (by decide)

theorem candidate_name {s : List Char} (h : IsDnsName s) : candidate s = some (.name s) := by
  have hparse := h.parse
  have hlen := h.length_le
  obtain ⟨front, top, hfront, rfl, hlabels, c, hc, hletter⟩ := h.labels
  obtain ⟨hne, hlast⟩ := getLast_dotted hlabels
  have hnormal : normalizeHost (dotted front top) = dotted front top := by
    refine normalizeHost_of (fun c hc => ?_) (fun c hc => ?_) hlast
    · rcases mem_dotted hlabels hc with hc | rfl
      · exact hc.isWhitespace
      · rfl
    · rcases mem_dotted hlabels hc with hc | rfl
      · exact hc.toLower
      · rfl
  have hlower : ∀ label ∈ front ++ [top], ∀ c ∈ label, c.isUpper = false := by
    intro label hlabel c hc
    have := ((hlabels label hlabel).chars c hc).toLower
    rw [← this]
    exact Char.isUpper_toLower_eq_false c
  have hvalid : (front ++ [top]).all validLabel = true :=
    List.all_eq_true.mpr fun label hlabel =>
      (validLabel_iff (hlower label hlabel)).mpr (hlabels label hlabel)
  have halpha : top.any Char.isAlpha = true :=
    List.any_eq_true.mpr ⟨c, hc, by rw [Char.isAlpha, hletter, Bool.or_true]⟩
  have hmany : ¬(front ++ [top]).length < 2 := by
    have := List.length_pos_of_ne_nil hfront
    rw [List.length_append, List.length_singleton]
    omega
  rw [candidate, hnormal, if_neg, hparse]
  · simp only [splitOn_dotted hlabels, List.getLast?_concat, Option.any_some]
    rw [if_neg hmany, hvalid, if_neg Bool.noConfusion, halpha, if_neg Bool.noConfusion]
  · rw [byteLen_dotted hlabels, not_or]
    exact ⟨hne, not_lt.mpr hlen⟩

theorem candidate_display {address : Address} (h : address.canonical = address) :
    candidate address.display = some (.ip address) := by
  have hchars : ∀ c ∈ addressChars, isWhitespace c = false ∧ c.toLower = c ∧ c.toNat < 128 := by
    simp only [addressChars, List.forall_mem_cons]
    simp only [List.not_mem_nil, false_implies, implies_true, and_true]
    decide
  have hnormal : normalizeHost address.display = address.display :=
    normalizeHost_of (fun c hc => (hchars c (mem_display hc)).1)
      (fun c hc => (hchars c (mem_display hc)).2.1) (getLast_display address)
  have hlen : byteLen address.display ≤ 253 := by
    rw [byteLen_of_ascii fun c hc => (hchars c (mem_display hc)).2.2]
    exact (length_display_le address).trans (by omega)
  rw [candidate, hnormal, if_neg, parse_display]
  · exact congrArg (some ∘ Candidate.ip) h
  · rw [not_or]
    exact ⟨display_ne_nil address, not_lt.mpr hlen⟩

/-- **A canonical address and a DNS name pass under their own keys.** -/
theorem candidate_key {c : Candidate} (h : c.WellFormed) : candidate c.key = some c := by
  cases c with
  | ip address => exact candidate_display h
  | name host => exact candidate_name h

/-! ### Public addresses -/

/-- `Ipv4Addr::is_private`. -/
def isPrivate (ip : V4) : Bool :=
  ip.a.val = 10 || (ip.a.val = 172 && 16 ≤ ip.b.val && ip.b.val ≤ 31) ||
    (ip.a.val = 192 && ip.b.val = 168)

/-- `Ipv4Addr::is_loopback`. -/
def isLoopbackV4 (ip : V4) : Bool := ip.a.val = 127

/-- `Ipv4Addr::is_link_local`. -/
def isLinkLocal (ip : V4) : Bool := ip.a.val = 169 && ip.b.val = 254

/-- `Ipv4Addr::is_multicast`. -/
def isMulticastV4 (ip : V4) : Bool := 224 ≤ ip.a.val && ip.a.val ≤ 239

/-- `Ipv4Addr::is_documentation`. -/
def isDocumentation (ip : V4) : Bool :=
  (ip.a.val = 192 && ip.b.val = 0 && ip.c.val = 2) ||
    (ip.a.val = 198 && ip.b.val = 51 && ip.c.val = 100) ||
    (ip.a.val = 203 && ip.b.val = 0 && ip.c.val = 113)

/-- The branch of `is_public` for an IPv4 address. -/
def isPublicV4 (ip : V4) : Bool :=
  let first := ip.a.val
  let second := ip.b.val
  let shared := first = 100 && 64 ≤ second && second ≤ 127
  let benchmarking := first = 198 && second &&& 0xfe = 18
  !(isPrivate ip || isLoopbackV4 ip || isLinkLocal ip || isMulticastV4 ip ||
    isDocumentation ip || first = 0 || 240 ≤ first || benchmarking || shared)

/-- A segment of an IPv6 address. -/
def segment (ip : V6) (i : Fin 8) : ℕ := ip.segments.get (i.cast ip.length_eq.symm)

/-- The number that an IPv6 address is. -/
def numberV6 (ip : V6) : ℕ := ip.segments.foldl (fun n g => 65536 * n + g.val) 0

/-- The number that an IPv4 address is. -/
def numberV4 (ip : V4) : ℕ := ((ip.a * 256 + ip.b) * 256 + ip.c) * 256 + ip.d

/-- `Ipv6Addr::is_loopback` and `Ipv6Addr::is_unspecified`. -/
def isLoopbackV6 (ip : V6) : Bool := numberV6 ip = 1

def isUnspecified (ip : V6) : Bool := numberV6 ip = 0

/-- `Ipv6Addr::is_unique_local`. -/
def isUniqueLocal (ip : V6) : Bool := segment ip 0 &&& 0xfe00 = 0xfc00

/-- `Ipv6Addr::is_unicast_link_local`. -/
def isUnicastLinkLocal (ip : V6) : Bool := segment ip 0 &&& 0xffc0 = 0xfe80

/-- `Ipv6Addr::is_multicast`. -/
def isMulticastV6 (ip : V6) : Bool := segment ip 0 &&& 0xff00 = 0xff00

/-- The branch of `is_public` for an IPv6 address. -/
def isPublicV6 (ip : V6) : Bool :=
  let first := segment ip 0
  let second := segment ip 1
  let third := segment ip 2
  let documentation := (first = 0x2001 && second = 0x0db8) ||
    (first = 0x3fff && second &&& 0xf000 = 0)
  let benchmarking := first = 0x2001 && second = 0x0002 && third = 0
  !(isLoopbackV6 ip || isUnspecified ip || isUniqueLocal ip || isUnicastLinkLocal ip ||
    isMulticastV6 ip || documentation || benchmarking)

/-- `is_public`. -/
def isPublic (ip : Address) : Bool :=
  match ip.canonical with
  | .v4 ip => isPublicV4 ip
  | .v6 ip => isPublicV6 ip

/-! ### The reserved blocks -/

/-- A block of addresses of `width` bits: those whose first `len` bits are those of `base`. -/
structure Block where
  base : ℕ
  len : ℕ

/-- The address lies in the block. -/
def Block.Contains (width : ℕ) (block : Block) (n : ℕ) : Prop :=
  n / 2 ^ (width - block.len) = block.base / 2 ^ (width - block.len)

instance (width : ℕ) (block : Block) (n : ℕ) : Decidable (block.Contains width n) :=
  inferInstanceAs (Decidable (_ = _))

/-- The IPv4 blocks that are not public. -/
def reservedV4 : List Block :=
  [⟨0, 8⟩, ⟨10 * 2 ^ 24, 8⟩, ⟨100 * 2 ^ 24 + 64 * 2 ^ 16, 10⟩, ⟨127 * 2 ^ 24, 8⟩,
    ⟨169 * 2 ^ 24 + 254 * 2 ^ 16, 16⟩, ⟨172 * 2 ^ 24 + 16 * 2 ^ 16, 12⟩,
    ⟨192 * 2 ^ 24 + 2 * 2 ^ 8, 24⟩, ⟨192 * 2 ^ 24 + 168 * 2 ^ 16, 16⟩,
    ⟨198 * 2 ^ 24 + 18 * 2 ^ 16, 15⟩, ⟨198 * 2 ^ 24 + 51 * 2 ^ 16 + 100 * 2 ^ 8, 24⟩,
    ⟨203 * 2 ^ 24 + 113 * 2 ^ 8, 24⟩, ⟨224 * 2 ^ 24, 4⟩, ⟨240 * 2 ^ 24, 4⟩]

/-- The IPv6 blocks that are not public. -/
def reservedV6 : List Block :=
  [⟨0, 128⟩, ⟨1, 128⟩, ⟨0xfc00 * 2 ^ 112, 7⟩, ⟨0xfe80 * 2 ^ 112, 10⟩, ⟨0xff00 * 2 ^ 112, 8⟩,
    ⟨0x2001 * 2 ^ 112 + 0xdb8 * 2 ^ 96, 32⟩, ⟨0x3fff * 2 ^ 112, 20⟩,
    ⟨0x2001 * 2 ^ 112 + 2 * 2 ^ 96, 48⟩]

theorem and_mask (x k j : ℕ) : x &&& (2 ^ k - 1) * 2 ^ j = x / 2 ^ j % 2 ^ k * 2 ^ j := by
  have hlow : (x &&& (2 ^ k - 1) * 2 ^ j) % 2 ^ j = 0 := by
    rw [Nat.and_mod_two_pow, Nat.mul_mod_left, Nat.and_zero]
  have hhigh : (x &&& (2 ^ k - 1) * 2 ^ j) / 2 ^ j = x / 2 ^ j % 2 ^ k := by
    rw [Nat.and_div_two_pow, Nat.mul_div_cancel _ (Nat.two_pow_pos j),
      Nat.and_two_pow_sub_one_eq_mod]
  rw [← Nat.div_add_mod' (x &&& (2 ^ k - 1) * 2 ^ j) (2 ^ j), hlow, hhigh, Nat.add_zero]

/-- **A public IPv4 address lies outside of the reserved blocks.** -/
theorem isPublicV4_iff (ip : V4) :
    isPublicV4 ip = true ↔ ∀ block ∈ reservedV4, ¬block.Contains 32 (numberV4 ip) := by
  obtain ⟨⟨a, ha⟩, ⟨b, hb⟩, ⟨c, hc⟩, ⟨d, hd⟩⟩ := ip
  have hmask : b &&& 0xfe = b / 2 % 128 * 2 := and_mask b 7 1
  have hbenchmarking : b / 2 % 128 * 2 = 18 ↔ b / 2 = 9 := by omega
  -- the bits that a block fixes are those of the first octets
  have hnumber : ((a * 256 + b) * 256 + c) * 256 + d =
      numberV4 ⟨⟨a, ha⟩, ⟨b, hb⟩, ⟨c, hc⟩, ⟨d, hd⟩⟩ := rfl
  revert hnumber
  generalize numberV4 ⟨⟨a, ha⟩, ⟨b, hb⟩, ⟨c, hc⟩, ⟨d, hd⟩⟩ = n
  intro hnumber
  have network : n / 16777216 = 0 ↔ a = 0 := by omega
  have private10 : n / 16777216 = 10 ↔ a = 10 := by omega
  have shared : n / 4194304 = 401 ↔ (a = 100 ∧ 64 ≤ b) ∧ b ≤ 127 := by omega
  have loopback : n / 16777216 = 127 ↔ a = 127 := by omega
  have linkLocal : n / 65536 = 43518 ↔ a = 169 ∧ b = 254 := by omega
  have private172 : n / 1048576 = 2753 ↔ (a = 172 ∧ 16 ≤ b) ∧ b ≤ 31 := by omega
  have test1 : n / 256 = 12582914 ↔ (a = 192 ∧ b = 0) ∧ c = 2 := by omega
  have private192 : n / 65536 = 49320 ↔ a = 192 ∧ b = 168 := by omega
  have benchmarking : n / 131072 = 25353 ↔ a = 198 ∧ b / 2 = 9 := by omega
  have test2 : n / 256 = 12989284 ↔ (a = 198 ∧ b = 51) ∧ c = 100 := by omega
  have test3 : n / 256 = 13303921 ↔ (a = 203 ∧ b = 0) ∧ c = 113 := by omega
  have multicast : n / 268435456 = 14 ↔ 224 ≤ a ∧ a ≤ 239 := by omega
  have future : n / 268435456 = 15 ↔ 240 ≤ a := by omega
  simp only [isPublicV4, isPrivate, isLoopbackV4, isLinkLocal, isMulticastV4, isDocumentation,
    reservedV4, Block.Contains, List.forall_mem_cons, List.not_mem_nil, Nat.reduceSub,
    Nat.reducePow, Nat.reduceMul, Nat.reduceAdd, Nat.reduceDiv, false_implies, implies_true,
    and_true, Bool.not_eq_true', Bool.or_eq_false_iff, Bool.and_eq_false_iff,
    decide_eq_false_iff_not, hmask, hbenchmarking, network, private10, shared, loopback, linkLocal,
    private172, test1, private192, benchmarking, test2, test3, multicast, future, not_and_or]
  constructor
  · rintro ⟨⟨⟨⟨⟨⟨⟨⟨⟨⟨h10, h172⟩, h192⟩, hloop⟩, hlink⟩, hmulti⟩, ⟨htest1, htest2⟩, htest3⟩, hnet⟩,
      hfuture⟩, hbench⟩, hshared⟩
    exact ⟨hnet, h10, hshared, hloop, hlink, h172, htest1, h192, hbench, htest2, htest3, hmulti,
      hfuture⟩
  · rintro ⟨hnet, h10, hshared, hloop, hlink, h172, htest1, h192, hbench, htest2, htest3, hmulti,
      hfuture⟩
    exact ⟨⟨⟨⟨⟨⟨⟨⟨⟨⟨h10, h172⟩, h192⟩, hloop⟩, hlink⟩, hmulti⟩, ⟨htest1, htest2⟩, htest3⟩, hnet⟩,
      hfuture⟩, hbench⟩, hshared⟩

theorem exists_segments (ip : V6) : ∃ s₀ s₁ s₂ s₃ s₄ s₅ s₆ s₇ : Fin 65536,
    ip.segments = [s₀, s₁, s₂, s₃, s₄, s₅, s₆, s₇] := by
  obtain ⟨segments, hlen⟩ := ip
  obtain ⟨s₀, l₁, e₀, h₁⟩ := List.length_eq_succ_iff.mp hlen
  obtain ⟨s₁, l₂, e₁, h₂⟩ := List.length_eq_succ_iff.mp h₁
  obtain ⟨s₂, l₃, e₂, h₃⟩ := List.length_eq_succ_iff.mp h₂
  obtain ⟨s₃, l₄, e₃, h₄⟩ := List.length_eq_succ_iff.mp h₃
  obtain ⟨s₄, l₅, e₄, h₅⟩ := List.length_eq_succ_iff.mp h₄
  obtain ⟨s₅, l₆, e₅, h₆⟩ := List.length_eq_succ_iff.mp h₅
  obtain ⟨s₆, l₇, e₆, h₇⟩ := List.length_eq_succ_iff.mp h₆
  obtain ⟨s₇, rfl⟩ := List.length_eq_one_iff.mp h₇
  exact ⟨s₀, s₁, s₂, s₃, s₄, s₅, s₆, s₇, by
    show segments = _
    rw [← e₀, ← e₁, ← e₂, ← e₃, ← e₄, ← e₅, ← e₆]⟩

/-- The number of an address, by its first three segments and the rest. -/
theorem numberV6_eq (ip : V6) : ∃ rest < 2 ^ 80, numberV6 ip =
    (segment ip 0 * 2 ^ 32 + segment ip 1 * 2 ^ 16 + segment ip 2) * 2 ^ 80 + rest := by
  obtain ⟨s₀, s₁, s₂, s₃, s₄, s₅, s₆, s₇, h⟩ := exists_segments ip
  have hsegments : segment ip 0 = s₀ ∧ segment ip 1 = s₁ ∧ segment ip 2 = s₂ := by
    simp [segment, h]
  obtain ⟨h₀, h₁, h₂⟩ := hsegments
  refine ⟨(((s₃ * 65536 + s₄) * 65536 + s₅) * 65536 + s₆) * 65536 + s₇, by omega, ?_⟩
  rw [h₀, h₁, h₂, numberV6, h]
  simp only [List.foldl_cons, List.foldl_nil]
  omega

/-- **A public IPv6 address lies outside of the reserved blocks.** -/
theorem isPublicV6_iff (ip : V6) :
    isPublicV6 ip = true ↔ ∀ block ∈ reservedV6, ¬block.Contains 128 (numberV6 ip) := by
  obtain ⟨rest, hrest, hn⟩ := numberV6_eq ip
  have hfirst : segment ip 0 < 65536 := (ip.segments.get _).isLt
  have hsecond : segment ip 1 < 65536 := (ip.segments.get _).isLt
  have hthird : segment ip 2 < 65536 := (ip.segments.get _).isLt
  rw [isPublicV6, isLoopbackV6, isUnspecified, isUniqueLocal, isUnicastLinkLocal, isMulticastV6]
  revert hn hfirst hsecond hthird
  generalize numberV6 ip = n
  generalize segment ip 0 = first
  generalize segment ip 1 = second
  generalize segment ip 2 = third
  intro hn hfirst hsecond hthird
  have hunique : first &&& 0xfe00 = first / 512 % 128 * 512 := and_mask first 7 9
  have hlink : first &&& 0xffc0 = first / 64 % 1024 * 64 := and_mask first 10 6
  have hmulti : first &&& 0xff00 = first / 256 % 256 * 256 := and_mask first 8 8
  have hdoc : second &&& 0xf000 = second / 4096 % 16 * 4096 := and_mask second 4 12
  have uniqueLocal : n / 2 ^ 121 = 126 ↔ first / 512 % 128 * 512 = 0xfc00 := by omega
  have linkLocal : n / 2 ^ 118 = 1018 ↔ first / 64 % 1024 * 64 = 0xfe80 := by omega
  have multicast : n / 2 ^ 120 = 255 ↔ first / 256 % 256 * 256 = 0xff00 := by omega
  have documentation : n / 2 ^ 96 = 0x20010db8 ↔ first = 0x2001 ∧ second = 0xdb8 := by omega
  have examples : n / 2 ^ 108 = 0x3fff0 ↔ first = 0x3fff ∧ second / 4096 % 16 * 4096 = 0 := by
    omega
  have benchmarking : n / 2 ^ 80 = 0x200100020000 ↔
      (first = 0x2001 ∧ second = 0x0002) ∧ third = 0 := by omega
  simp only [reservedV6, Block.Contains, List.forall_mem_cons, List.not_mem_nil, Nat.reduceSub,
    Nat.reducePow, Nat.reduceMul, Nat.reduceAdd, Nat.reduceDiv, Nat.div_one, false_implies,
    implies_true, and_true, Bool.not_eq_true', Bool.or_eq_false_iff, Bool.and_eq_false_iff,
    decide_eq_false_iff_not, hunique, hlink, hmulti, hdoc]
    at uniqueLocal linkLocal multicast documentation examples benchmarking ⊢
  simp only [uniqueLocal, linkLocal, multicast, documentation, examples, benchmarking, not_and_or]
  constructor
  · rintro ⟨⟨⟨⟨⟨⟨hone, hzero⟩, huni⟩, hlnk⟩, hmul⟩, hdoc1, hdoc2⟩, hbench⟩
    exact ⟨hzero, hone, huni, hlnk, hmul, hdoc1, hdoc2, hbench⟩
  · rintro ⟨hzero, hone, huni, hlnk, hmul, hdoc1, hdoc2, hbench⟩
    exact ⟨⟨⟨⟨⟨⟨hone, hzero⟩, huni⟩, hlnk⟩, hmul⟩, hdoc1, hdoc2⟩, hbench⟩

/-- The address, or the IPv4 address that it maps, lies in a reserved block. -/
def Reserved (ip : Address) : Prop :=
  match ip.canonical with
  | .v4 ip => ∃ block ∈ reservedV4, block.Contains 32 (numberV4 ip)
  | .v6 ip => ∃ block ∈ reservedV6, block.Contains 128 (numberV6 ip)

/-- **The public addresses are those that are not reserved.** -/
theorem isPublic_iff (ip : Address) : isPublic ip = true ↔ ¬Reserved ip := by
  unfold isPublic Reserved
  rcases ip.canonical with ip | ip
  · rw [isPublicV4_iff]
    simp only [not_exists, not_and]
  · rw [isPublicV6_iff]
    simp only [not_exists, not_and]

/-! ### The normal form -/

/-- **Two candidates with one key are equal.** -/
theorem key_injective {c d : Candidate} (hc : c.WellFormed) (hd : d.WellFormed)
    (h : c.key = d.key) : c = d := by
  have hkey := candidate_key hc
  rw [h, candidate_key hd] at hkey
  exact (Option.some.inj hkey).symm

/-- **The key of a candidate is its normal form.**  A host that passes is a canonical address
or a DNS name; each of these passes under its key, as itself; and two hosts share a key
exactly when they are the same candidate. -/
theorem host_candidates :
    (∀ host c, candidate host = some c → c.WellFormed ∧ candidate c.key = some c) ∧
      (∀ c : Candidate, c.WellFormed → ∃ host, candidate host = some c) ∧
      ∀ host host' c c', candidate host = some c → candidate host' = some c' →
        (c.key = c'.key ↔ c = c') := by
  refine ⟨fun host c h => ?_, fun c h => ⟨c.key, candidate_key h⟩, fun host host' c c' h h' => ?_⟩
  · have hc := candidate_wellFormed h
    exact ⟨hc, candidate_key hc⟩
  · refine ⟨key_injective (candidate_wellFormed h) (candidate_wellFormed h'), fun heq => ?_⟩
    rw [heq]

end Dashboard

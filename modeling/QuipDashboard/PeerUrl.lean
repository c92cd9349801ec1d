/-
The REST URL of a peer miner.

The model of `resolve_peer_miner_rest_url` in `quip-dashboard/src/miner/parse.rs`.
The advertised host is tested for a scheme twice: with `strip_prefix` for the exact
prefixes, and then at the fixed byte offsets 8 and 7 for prefixes in another letter
case.  A slice of a `str` at an offset inside a character panics.

* `leadingScheme` and `expectedUrl` — what the function is for, told of characters;
* `stripIgnoringCase_eq` — a slice that does not panic finds the prefix by characters;
* `resolvePeerMinerRestUrl_iff` — **the function resolves a host exactly when the
  offsets that it slices at lie between characters**.
-/
import QuipDashboard.ByteOffsets
import QuipDashboard.MiningAttempts

namespace Dashboard

open ByteOffsets

/-- `PeerHost`. -/
structure PeerHost where
  publicHost : Option (List Char)
  publicPort : Option ℕ
  deriving DecidableEq

/-- The scheme of a URL. -/
inductive Scheme where
  | http
  | https
  deriving DecidableEq

def Scheme.text : Scheme → List Char
  | .http => "http".toList
  | .https => "https".toList

/-- The scheme with the `://` behind it, as the prefix tests spell it. -/
def Scheme.lead (scheme : Scheme) : List Char := scheme.text ++ "://".toList

/-- A panic of the program. -/
inductive Panic where
  /-- A `str` is sliced at a byte offset inside a character. -/
  | charBoundary
  deriving DecidableEq

/-- `str::strip_prefix`. -/
def stripPrefix (p s : List Char) : Option (List Char) :=
  if p.isPrefixOf s then some (s.drop p.length) else none

/-- `s.len() >= n && s[..n].eq_ignore_ascii_case(p)` and, where that holds, `&s[n..]`,
for a prefix `p` of `n` bytes. -/
def stripIgnoringCase (p s : List Char) : Except Panic (Option (List Char)) :=
  if byteLen s < byteLen p then .ok none
  else
    match splitAt (byteLen p) s with
    | none => .error .charBoundary
    | some (front, rest) =>
      .ok (if front.map Char.toLower = p.map Char.toLower then some rest else none)

/-- `str::trim_end_matches('/')`. -/
def trimEndSlashes (s : List Char) : List Char := (s.reverse.dropWhile (· = '/')).reverse

/-- The scheme where none is advertised. -/
def defaultScheme (port : Option ℕ) : Scheme := if port = some 443 then .https else .http

/-- `(scheme, without_scheme)` of `resolve_peer_miner_rest_url`. -/
def schemeAndRest (advertised : List Char) (port : Option ℕ) :
    Except Panic (Scheme × List Char) :=
  match stripPrefix Scheme.https.lead advertised with
  | some rest => .ok (.https, rest)
  | none =>
    match stripPrefix Scheme.http.lead advertised with
    | some rest => .ok (.http, rest)
    | none =>
      match stripIgnoringCase Scheme.https.lead advertised with
      | .error panic => .error panic
      | .ok (some rest) => .ok (.https, rest)
      | .ok none =>
        match stripIgnoringCase Scheme.http.lead advertised with
        | .error panic => .error panic
        | .ok (some rest) => .ok (.http, rest)
        | .ok none => .ok (defaultScheme port, advertised)

/-- `format!("{scheme}://{trimmed}:{p}")`, without the port where there is none. -/
def formatUrl (scheme : Scheme) (trimmed : List Char) (port : Option ℕ) : List Char :=
  scheme.lead ++ trimmed ++
    match port with
    | some p => ':' :: Nat.toDigits 10 p
    | none => []

/-- `resolve_peer_miner_rest_url`. -/
def resolvePeerMinerRestUrl (host : Option PeerHost) : Except Panic (Option (List Char)) :=
  match host with
  | none => .ok none
  | some host =>
    match host.publicHost with
    | none => .ok none
    | some publicHost =>
      let advertised := trim publicHost
      if advertised = [] then .ok none
      else
        match schemeAndRest advertised host.publicPort with
        | .error panic => .error panic
        | .ok (scheme, withoutScheme) =>
          let trimmed := trimEndSlashes withoutScheme
          if trimmed = [] then .ok none
          else .ok (some (formatUrl scheme trimmed host.publicPort))

/-! ### What the function is for -/

/-- The text starts with these characters, in any letter case. -/
def StartsIgnoringCase (p s : List Char) : Prop := (s.take p.length).map Char.toLower = p

instance (p s : List Char) : Decidable (StartsIgnoringCase p s) :=
  inferInstanceAs (Decidable (_ = _))

/-- The one leading `https://` or `http://` in any letter case, and what stands behind it. -/
def leadingScheme (s : List Char) : Option (Scheme × List Char) :=
  if StartsIgnoringCase Scheme.https.lead s then some (.https, s.drop 8)
  else if StartsIgnoringCase Scheme.http.lead s then some (.http, s.drop 7)
  else none

/-- The URL that a host advertises: the surrounding whitespace, one leading scheme and the
trailing slashes are left out, and there is none if nothing remains. -/
def expectedUrl (host : Option PeerHost) : Option (List Char) :=
  host.bind fun host => host.publicHost.bind fun publicHost =>
    let advertised := trim publicHost
    let found := leadingScheme advertised
    let remainder := trimEndSlashes ((found.map Prod.snd).getD advertised)
    let scheme := (found.map Prod.fst).getD (defaultScheme host.publicPort)
    if remainder = [] then none else some (formatUrl scheme remainder host.publicPort)

/-- A slice of the text at this offset does not panic; a text that is shorter is not sliced. -/
def Sliceable (n : ℕ) (s : List Char) : Prop := n ≤ byteLen s → IsBoundary n s

/-- The offsets at which an advertised host is sliced lie between its characters. -/
def OffsetsFit (advertised : List Char) : Prop :=
  Scheme.https.lead <+: advertised ∨ Scheme.http.lead <+: advertised ∨
    (Sliceable 8 advertised ∧
      (StartsIgnoringCase Scheme.https.lead advertised ∨ Sliceable 7 advertised))

/-! ### The prefix tests -/

theorem lead_ascii (scheme : Scheme) : ∀ c ∈ scheme.lead, c.toNat < 128 := by
  have hall : (scheme.lead.all fun c => c.toNat < 128) = true := by
    cases scheme <;> decide
  exact fun c hc => of_decide_eq_true (List.all_eq_true.mp hall c hc)

theorem lead_toLower (scheme : Scheme) : scheme.lead.map Char.toLower = scheme.lead := by
  cases scheme <;> decide

theorem byteLen_lead (scheme : Scheme) : byteLen scheme.lead = scheme.lead.length :=
  byteLen_of_lower (lead_ascii scheme) (lead_toLower scheme)

/-- A text that starts with a scheme is split behind it. -/
theorem splitAt_lead {scheme : Scheme} {s : List Char}
    (h : StartsIgnoringCase scheme.lead s) :
    splitAt scheme.lead.length s =
      some (s.take scheme.lead.length, s.drop scheme.lead.length) := by
  refine splitAt_eq_some.mpr ⟨(List.take_append_drop _ s).symm, ?_⟩
  rw [byteLen_of_lower (lead_ascii scheme) h]
  have := congrArg List.length h
  rwa [List.length_map] at this

/-- **A slice that does not panic finds the prefix exactly where the characters have it.** -/
theorem stripIgnoringCase_eq (scheme : Scheme) (s : List Char) :
    stripIgnoringCase scheme.lead s =
      if StartsIgnoringCase scheme.lead s then .ok (some (s.drop scheme.lead.length))
      else if byteLen s < scheme.lead.length then .ok none
      else if (splitAt scheme.lead.length s).isSome then .ok none
      else .error .charBoundary := by
  rw [stripIgnoringCase, byteLen_lead, lead_toLower]
  by_cases hstarts : StartsIgnoringCase scheme.lead s
  · have hsplit := splitAt_lead hstarts
    have hlen : ¬ byteLen s < scheme.lead.length := by
      obtain ⟨hs, hfront⟩ := splitAt_eq_some.mp hsplit
      rw [hs, byteLen_append, hfront]
      omega
    rw [if_neg hlen, if_pos hstarts, hsplit]
    exact congrArg Except.ok (if_pos hstarts)
  · rw [if_neg hstarts]
    by_cases hlen : byteLen s < scheme.lead.length
    · rw [if_pos hlen, if_pos hlen]
    · rw [if_neg hlen, if_neg hlen]
      rcases hsplit : splitAt scheme.lead.length s with _ | ⟨front, rest⟩
      · rfl
      · -- A front that reads as the scheme has its length, so the text starts with it.
        have hne : front.map Char.toLower ≠ scheme.lead := by
          intro hlower
          apply hstarts
          have hfront := congrArg List.length hlower
          rw [List.length_map] at hfront
          rw [StartsIgnoringCase, (splitAt_eq_some.mp hsplit).1, ← hfront, List.take_left]
          exact hlower
        exact congrArg Except.ok (if_neg hne)

theorem stripPrefix_eq_none {p s : List Char} : stripPrefix p s = none ↔ ¬ p <+: s := by
  rw [stripPrefix, ← List.isPrefixOf_iff_prefix]
  split <;> simp_all

theorem stripPrefix_eq_some {p s : List Char} (h : p <+: s) :
    stripPrefix p s = some (s.drop p.length) := by
  rw [stripPrefix, if_pos (List.isPrefixOf_iff_prefix.mpr h)]

theorem starts_of_lead {scheme : Scheme} {s : List Char} (h : scheme.lead <+: s) :
    StartsIgnoringCase scheme.lead s := by
  rw [StartsIgnoringCase, ← List.prefix_iff_eq_take.mp h]
  exact lead_toLower scheme

/-- A text does not start with both schemes: they differ in their fifth character. -/
theorem not_starts_https {s : List Char} (h : StartsIgnoringCase Scheme.http.lead s) :
    ¬ StartsIgnoringCase Scheme.https.lead s := by
  intro h'
  have hcut : (s.take 7).map Char.toLower = Scheme.https.lead.take 7 := by
    rw [← h', List.map_take, List.map_take, List.take_take]
    rfl
  rw [StartsIgnoringCase] at h
  exact absurd (h.symm.trans hcut) (by decide)

theorem splitAt_isSome {n : ℕ} {s : List Char} : (splitAt n s).isSome = true ↔ IsBoundary n s := by
  rw [← not_iff_not, ← splitAt_eq_none]
  simp

theorem stripIgnoringCase_of_starts {scheme : Scheme} {s : List Char}
    (h : StartsIgnoringCase scheme.lead s) :
    stripIgnoringCase scheme.lead s = .ok (some (s.drop scheme.lead.length)) := by
  rw [stripIgnoringCase_eq, if_pos h]

theorem stripIgnoringCase_of_sliceable {scheme : Scheme} {s : List Char}
    (h : ¬ StartsIgnoringCase scheme.lead s) (hs : Sliceable scheme.lead.length s) :
    stripIgnoringCase scheme.lead s = .ok none := by
  rw [stripIgnoringCase_eq, if_neg h]
  by_cases hlen : byteLen s < scheme.lead.length
  · rw [if_pos hlen]
  · rw [if_neg hlen, if_pos (splitAt_isSome.mpr (hs (by omega)))]

theorem stripIgnoringCase_of_not_sliceable {scheme : Scheme} {s : List Char}
    (hs : ¬ Sliceable scheme.lead.length s) :
    stripIgnoringCase scheme.lead s = .error .charBoundary := by
  obtain ⟨hlen, hb⟩ := Classical.not_imp.mp hs
  have hstarts : ¬ StartsIgnoringCase scheme.lead s := by
    intro h
    exact hb (splitAt_isSome.mp (by rw [splitAt_lead h]; rfl))
  rw [stripIgnoringCase_eq, if_neg hstarts, if_neg (by omega),
    if_neg (by rw [splitAt_isSome]; exact hb)]

/-- **The scheme of an advertised host**: as the characters have it where the offsets fit,
and a panic everywhere else. -/
theorem schemeAndRest_eq (advertised : List Char) (port : Option ℕ) :
    (OffsetsFit advertised → schemeAndRest advertised port =
      .ok ((leadingScheme advertised).getD (defaultScheme port, advertised))) ∧
    (¬ OffsetsFit advertised → schemeAndRest advertised port = .error .charBoundary) := by
  by_cases hs : Scheme.https.lead <+: advertised
  · refine ⟨fun _ => ?_, fun h => absurd (Or.inl hs) h⟩
    rw [schemeAndRest, stripPrefix_eq_some hs, leadingScheme, if_pos (starts_of_lead hs)]
    rfl
  by_cases hh : Scheme.http.lead <+: advertised
  · have hstarts := starts_of_lead hh
    refine ⟨fun _ => ?_, fun h => absurd (Or.inr (Or.inl hh)) h⟩
    rw [schemeAndRest, stripPrefix_eq_none.mpr hs, stripPrefix_eq_some hh, leadingScheme,
      if_neg (not_starts_https hstarts), if_pos hstarts]
    rfl
  -- neither lead as it is spelled: whether the text can be cut decides
  have hslices : OffsetsFit advertised ↔ Sliceable 8 advertised ∧
      (StartsIgnoringCase Scheme.https.lead advertised ∨ Sliceable 7 advertised) :=
    ⟨fun h => (h.resolve_left hs).resolve_left hh, fun h => Or.inr (Or.inr h)⟩
  rw [hslices, schemeAndRest, stripPrefix_eq_none.mpr hs, stripPrefix_eq_none.mpr hh]
  by_cases h8 : Sliceable 8 advertised
  · by_cases hstarts : StartsIgnoringCase Scheme.https.lead advertised
    · refine ⟨fun _ => ?_, fun h => absurd ⟨h8, Or.inl hstarts⟩ h⟩
      rw [stripIgnoringCase_of_starts hstarts, leadingScheme, if_pos hstarts]
      rfl
    · rw [stripIgnoringCase_of_sliceable hstarts h8]
      by_cases h7 : Sliceable 7 advertised
      · refine ⟨fun _ => ?_, fun h => absurd ⟨h8, Or.inr h7⟩ h⟩
        by_cases hstarts' : StartsIgnoringCase Scheme.http.lead advertised
        · rw [stripIgnoringCase_of_starts hstarts', leadingScheme, if_neg hstarts,
            if_pos hstarts']
          rfl
        · rw [stripIgnoringCase_of_sliceable hstarts' h7, leadingScheme, if_neg hstarts,
            if_neg hstarts']
          rfl
      · refine ⟨fun h => absurd (h.2.resolve_left hstarts) h7, fun _ => ?_⟩
        rw [show stripIgnoringCase Scheme.http.lead advertised = _ from
          stripIgnoringCase_of_not_sliceable h7]
  · refine ⟨fun h => absurd h.1 h8, fun _ => ?_⟩
    rw [show stripIgnoringCase Scheme.https.lead advertised = _ from
      stripIgnoringCase_of_not_sliceable h8]

/-! ### The resolved URL -/

/-- **The function resolves every host exactly when its slices fit**: it does not panic and
gives the URL that the host advertises if and only if the offsets that it slices at lie
between the characters of the trimmed host. -/
theorem resolvePeerMinerRestUrl_iff (host : Option PeerHost) :
    resolvePeerMinerRestUrl host = .ok (expectedUrl host) ↔
      ∀ h ∈ host, ∀ publicHost ∈ h.publicHost, OffsetsFit (trim publicHost) := by
  rcases host with _ | ⟨_ | publicHost, port⟩
  · exact ⟨fun _ _ h => (by cases h), fun _ => rfl⟩
  · refine ⟨fun _ h hh _ hp => ?_, fun _ => rfl⟩
    cases Option.mem_some.mp hh
    cases hp
  obtain ⟨hok, herror⟩ := schemeAndRest_eq (trim publicHost) port
  have hcond : (∀ h ∈ some (PeerHost.mk (some publicHost) port), ∀ p ∈ h.publicHost,
      OffsetsFit (trim p)) ↔ OffsetsFit (trim publicHost) := by
    constructor
    · intro h
      exact h _ rfl _ rfl
    · intro h h' hh' p hp
      cases Option.mem_some.mp hh'
      cases Option.mem_some.mp hp
      exact h
  rw [hcond]
  by_cases hempty : trim publicHost = []
  · have hfit : OffsetsFit (trim publicHost) := by
      rw [hempty]
      exact Or.inr (Or.inr ⟨fun h => absurd h (by decide), Or.inr fun h => absurd h (by decide)⟩)
    refine ⟨fun _ => hfit, fun _ => ?_⟩
    simp only [resolvePeerMinerRestUrl, expectedUrl, Option.bind_some, hempty, if_true]
    rfl
  by_cases hfit : OffsetsFit (trim publicHost)
  · refine ⟨fun _ => hfit, fun _ => ?_⟩
    simp only [resolvePeerMinerRestUrl, expectedUrl, Option.bind_some, if_neg hempty, hok hfit]
    rcases hlead : leadingScheme (trim publicHost) with _ | ⟨scheme, rest⟩
    · simp only [Option.getD_none, Option.map_none]
      split <;> rfl
    · simp only [Option.getD_some, Option.map_some]
      split <;> rfl
  · refine ⟨fun h => ?_, fun h => absurd h hfit⟩
    simp only [resolvePeerMinerRestUrl, if_neg hempty, herror hfit] at h
    cases h

/-- A host in capital letters whose eighth byte is the middle of a character. -/
theorem capital_scheme_panics :
    ¬ ∀ host, resolvePeerMinerRestUrl host = .ok (expectedUrl host) := by
  intro h
  have := h (some ⟨some "HTTP://émile.example".toList, none⟩)
  revert this
  decide +kernel

end Dashboard

/-
The lookups of hosts.

The model of `GeoIp::lookup` in `quip-dashboard/src/http/geo.rs` with any lookups
interleaved at their await points: the lock of the cache, and the resolver, which is asked
under it.  The city database and the resolver are parameters.  Every step reads the clock
once.

* `insertLocation` — a full cache gives its first entry up;
* `LookupStep` — one step of the lookups, and what it asks of the outside;
* `Kept` — what every step keeps: entries tell what was looked up under their key, and under
  the lock nothing is kept under the key that is being resolved;
* `geo_lookups` — **what a whole run keeps**: the cache is bounded, only DNS names are
  resolved and only public addresses decoded, answers are at most a time to live old, and a
  name is not resolved again before that time unless it was evicted.
-/
import QuipDashboard.GeoHosts
import QuipDashboard.KeyedTable
import Mathlib.Data.List.Lex
import Mathlib.Data.Rat.Defs
import Mathlib.Logic.Function.Basic

namespace Dashboard

open IpTexts

/-! ### Locations -/

/-- `CityRecord`, by the fields of its parts. -/
structure CityRecord where
  country : Option String
  registeredCountry : Option String
  city : List (String × String)
  latitude : Option ℚ
  longitude : Option ℚ

/-- `NodeLocation`. -/
structure NodeLocation where
  country : String
  city : Option String
  lat : ℚ
  lng : ℚ
  deriving DecidableEq

/-- `CityRecord::project`. -/
def CityRecord.project (record : CityRecord) : Option NodeLocation := do
  let lat ← record.latitude
  let lng ← record.longitude
  return {
    country := (record.country <|> record.registeredCountry).getD "??"
    city := record.city.lookup "en"
    lat := lat
    lng := lng }

/-- What the `Reader` finds for an address. -/
abbrev CityDatabase := Address → Option CityRecord

/-- The location of an address: one that is not public is not looked up. -/
def locate (database : CityDatabase) (ip : Address) : Option NodeLocation :=
  ((some ip).filter isPublic).bind fun ip => (database ip).bind CityRecord.project

/-- `absolute_name`. -/
def absoluteName (name : List Char) : List Char := stripDot name ++ ['.']

/-! ### The cache -/

/-- `CACHE_ENTRIES`. -/
def geoEntries : ℕ := 4096

/-- `CACHE_TTL`, in seconds. -/
def geoTtl : ℕ := 300

/-- The cache: under each key the time at which its entry expires, and the location. -/
abbrev GeoCache := KeyedTable (List Char) (ℕ × Option NodeLocation)

/-- `cache.retain(|_, (expiry, _)| *expiry > Instant::now())`. -/
def GeoCache.retain (cache : GeoCache) (now : ℕ) : GeoCache :=
  cache.delete fun _ entry => entry.1 ≤ now

/-- The key that `pop_first` removes. -/
def GeoCache.firstKey (cache : GeoCache) : Option (List Char) := (cache.rows.map Prod.fst).min?

/-- The key that gives way to a new one. -/
def GeoCache.evicted (cache : GeoCache) : Option (List Char) :=
  if geoEntries ≤ cache.rows.length then cache.firstKey else none

/-- The end of `lookup`: the location is kept, in a full cache instead of the first entry. -/
def GeoCache.insertLocation (cache : GeoCache) (key : List Char) (now : ℕ)
    (location : Option NodeLocation) : GeoCache :=
  (match cache.evicted with
    | some first => cache.erase first
    | none => cache).put key (now + geoTtl, location)

/-! ### Steps -/

/-- What a lookup asks of the outside, and what it evicts. -/
inductive GeoEvent where
  /-- A text is sent to the resolver. -/
  | query (text : List Char) (time : ℕ)
  /-- The resolver has answered for a name, or has failed or timed out. -/
  | answer (name : List Char) (ip : Option Address) (time : ℕ)
  /-- An address is looked up in the database. -/
  | decode (ip : Address)
  | evict (key : List Char)

/-- Where a lookup stands. -/
inductive LookupPhase where
  | started
  /-- Before the lock of the cache. -/
  | waiting
  /-- Under the lock, while the name is resolved. -/
  | resolving
  | answered (location : Option NodeLocation) (time : ℕ)
  | dropped

/-- The cache, whether its lock is taken, the time, and the lookups. -/
structure LookupState (ι : Type) where
  cache : GeoCache
  locked : Bool
  now : ℕ
  calls : ι → LookupPhase

/-- `GeoIp::from_reader`, before every lookup. -/
def LookupState.new {ι : Type} : LookupState ι := ⟨KeyedTable.empty, false, 0, fun _ => .started⟩

/-- The decoding of an address that is public. -/
def decoding (ip : Option Address) : List GeoEvent :=
  ((ip.filter isPublic).map GeoEvent.decode).toList

variable {ι : Type} [DecidableEq ι]

/-- The lookup moves on. -/
def LookupState.move (s : LookupState ι) (c : ι) (p : LookupPhase) : LookupState ι :=
  { s with calls := Function.update s.calls c p }

/-- The lookup keeps its location, gives the lock back and returns. -/
def LookupState.finish (s : LookupState ι) (c : ι) (key : List Char)
    (location : Option NodeLocation) : LookupState ι :=
  { s with
    cache := s.cache.insertLocation key s.now location
    locked := false
    calls := Function.update s.calls c (.answered location s.now) }

/-- The cache without the entries that have expired. -/
def LookupState.retain (s : LookupState ι) : LookupState ι :=
  { s with cache := s.cache.retain s.now }

/-- One step of the lookups of these hosts, with what it asks of the outside.  The resolver
gives any answer, and a lookup may be dropped at every await point. -/
inductive LookupStep (reader : Option CityDatabase) (hostOf : ι → List Char) :
    LookupState ι → List GeoEvent → LookupState ι → Prop
  /-- There is no database, or the host does not pass. -/
  | refused (s : LookupState ι) (c : ι) (hc : s.calls c = .started)
      (h : reader = none ∨ candidate (hostOf c) = none) :
      LookupStep reader hostOf s [] (s.move c (.answered none s.now))
  | wait (s : LookupState ι) (c : ι) (hc : s.calls c = .started) (hreader : reader ≠ none)
      (h : candidate (hostOf c) ≠ none) : LookupStep reader hostOf s [] (s.move c .waiting)
  | served (s : LookupState ι) (c : ι) (k : Candidate) (entry : ℕ × Option NodeLocation)
      (hc : s.calls c = .waiting) (hlock : s.locked = false) (hk : candidate (hostOf c) = some k)
      (h : (s.retain.cache).get? k.key = some entry) :
      LookupStep reader hostOf s [] (s.retain.move c (.answered entry.2 s.now))
  /-- The host is an address itself. -/
  | literal (s : LookupState ι) (c : ι) (database : CityDatabase) (ip : Address)
      (hc : s.calls c = .waiting) (hlock : s.locked = false)
      (hk : candidate (hostOf c) = some (.ip ip)) (hreader : reader = some database)
      (h : (s.retain.cache).get? (Candidate.ip ip).key = none) :
      LookupStep reader hostOf s
        (decoding (some ip) ++ (s.retain.cache.evicted.map GeoEvent.evict).toList)
        (s.retain.finish c (Candidate.ip ip).key (locate database ip))
  | resolve (s : LookupState ι) (c : ι) (name : List Char) (hc : s.calls c = .waiting)
      (hlock : s.locked = false) (hk : candidate (hostOf c) = some (.name name))
      (h : (s.retain.cache).get? (Candidate.name name).key = none) :
      LookupStep reader hostOf s [.query (absoluteName name) s.now]
        { s.retain.move c .resolving with locked := true }
  | resolved (s : LookupState ι) (c : ι) (database : CityDatabase) (name : List Char)
      (ip : Option Address) (hc : s.calls c = .resolving)
      (hk : candidate (hostOf c) = some (.name name)) (hreader : reader = some database) :
      LookupStep reader hostOf s
        (.answer name ip s.now :: (decoding ip ++ (s.cache.evicted.map GeoEvent.evict).toList))
        (s.finish c (Candidate.name name).key (ip.bind (locate database)))
  | dropped (s : LookupState ι) (c : ι) (hc : s.calls c = .started ∨ s.calls c = .waiting) :
      LookupStep reader hostOf s [] (s.move c .dropped)
  /-- The lock is given back by its guard. -/
  | droppedQuery (s : LookupState ι) (c : ι) (hc : s.calls c = .resolving) :
      LookupStep reader hostOf s [] { s.move c .dropped with locked := false }
  | tick (s : LookupState ι) (later : ℕ) (h : s.now ≤ later) :
      LookupStep reader hostOf s [] { s with now := later }

/-- A run of the lookups, with everything that they have asked of the outside. -/
inductive LookupRun (reader : Option CityDatabase) (hostOf : ι → List Char) :
    List GeoEvent → LookupState ι → Prop
  | start : LookupRun reader hostOf [] .new
  | step {log events : List GeoEvent} {s s' : LookupState ι} (h : LookupRun reader hostOf log s)
      (hstep : LookupStep reader hostOf s events s') :
      LookupRun reader hostOf (log ++ events) s'

/-! ### What the cache keeps -/

namespace GeoCache

variable {cache : GeoCache} {key : List Char} {now : ℕ}

theorem get?_retain {entry : ℕ × Option NodeLocation} :
    (cache.retain now).get? key = some entry ↔ cache.get? key = some entry ∧ now < entry.1 := by
  rw [retain, KeyedTable.get?_delete, decide_eq_false_iff_not, not_le]

theorem get?_retain_of_none (h : cache.get? key = none) : (cache.retain now).get? key = none := by
  rcases hget : (cache.retain now).get? key with _ | entry
  · rfl
  · rw [(get?_retain.mp hget).1] at h
    cases h

theorem length_retain_le : (cache.retain now).rows.length ≤ cache.rows.length :=
  List.length_filter_le _ _

/-- Only a stored key gives way. -/
theorem mem_of_evicted (h : cache.evicted = some key) :
    geoEntries ≤ cache.rows.length ∧ key ∈ cache.rows.map Prod.fst := by
  unfold evicted at h
  split at h
  · exact ⟨‹_›, List.min?_mem h⟩
  · cases h

theorem evicted_of_full (h : geoEntries ≤ cache.rows.length) : ∃ key, cache.evicted = some key := by
  have hne : cache.rows.map Prod.fst ≠ [] := by
    intro hnil
    have : cache.rows.length = 0 := by simpa using congrArg List.length hnil
    have : 0 < geoEntries := by decide
    omega
  rw [evicted, if_pos h, firstKey]
  exact Option.isSome_iff_exists.mp (List.isSome_min?_of_ne_nil hne)

theorem length_erase_lt (h : key ∈ cache.rows.map Prod.fst) :
    (cache.erase key).rows.length < cache.rows.length := by
  obtain ⟨e, he, rfl⟩ := List.mem_map.mp h
  exact List.length_filter_lt_length_iff_exists.mpr ⟨e, he, by simp⟩

/-- **The cache is bounded.** -/
theorem length_insertLocation_le (h : cache.rows.length ≤ geoEntries)
    (location : Option NodeLocation) :
    (cache.insertLocation key now location).rows.length ≤ geoEntries := by
  unfold insertLocation
  refine (KeyedTable.length_put_le _ _ _).trans ?_
  rcases hevicted : cache.evicted with _ | first
  · simp only
    by_contra hroom
    have hfull : geoEntries ≤ cache.rows.length := by omega
    obtain ⟨first, hfirst⟩ := evicted_of_full hfull
    rw [hevicted] at hfirst
    cases hfirst
  · simp only
    have := length_erase_lt (mem_of_evicted hevicted).2
    omega

theorem get?_insertLocation_self (location : Option NodeLocation) :
    (cache.insertLocation key now location).get? key = some (now + geoTtl, location) :=
  KeyedTable.get?_put_self _ _ _

/-- Another key keeps its entry, unless it gives way. -/
theorem get?_insertLocation_ne {key' : List Char} (h : key' ≠ key)
    (location : Option NodeLocation) :
    (cache.insertLocation key now location).get? key' =
      if cache.evicted = some key' then none else cache.get? key' := by
  rw [insertLocation, KeyedTable.get?_put_ne h]
  rcases hevicted : cache.evicted with _ | first
  · rw [if_neg (by simp)]
  · by_cases hfirst : first = key'
    · rw [hfirst, if_pos rfl, KeyedTable.get?_erase_self]
    · rw [if_neg (by simpa using hfirst), KeyedTable.get?_erase_ne (Ne.symm hfirst)]

end GeoCache

/-! ### What is told of a candidate -/

/-- A location is that of the candidate: of the address itself, or of the address that the
resolver has answered with at this time. -/
def Told (reader : Option CityDatabase) (log : List GeoEvent) (k : Candidate)
    (location : Option NodeLocation) (time : ℕ) : Prop :=
  ∃ database, reader = some database ∧
    ((∃ ip, k = .ip ip ∧ location = locate database ip) ∨
      ∃ name ip, k = .name name ∧ .answer name ip time ∈ log ∧
        location = ip.bind (locate database))

theorem Told.mono {reader : Option CityDatabase} {log : List GeoEvent} {k : Candidate}
    {location : Option NodeLocation} {time : ℕ} (h : Told reader log k location time)
    (events : List GeoEvent) : Told reader (log ++ events) k location time := by
  obtain ⟨database, hreader, ⟨ip, hk, hloc⟩ | ⟨name, ip, hk, hmem, hloc⟩⟩ := h
  · exact ⟨database, hreader, .inl ⟨ip, hk, hloc⟩⟩
  · exact ⟨database, hreader, .inr ⟨name, ip, hk, List.mem_append_left _ hmem, hloc⟩⟩

/-- The answer to a lookup: nothing without a database and for a host that does not pass, and
else what was told of the candidate less than a time to live ago. -/
def Rightly (reader : Option CityDatabase) (log : List GeoEvent) (host : List Char)
    (location : Option NodeLocation) (time : ℕ) : Prop :=
  ((reader = none ∨ candidate host = none) ∧ location = none) ∨
    ∃ k told, candidate host = some k ∧ Told reader log k location told ∧ told ≤ time ∧
      time < told + geoTtl

theorem Rightly.mono {reader : Option CityDatabase} {log : List GeoEvent} {host : List Char}
    {location : Option NodeLocation} {time : ℕ} (h : Rightly reader log host location time)
    (events : List GeoEvent) : Rightly reader (log ++ events) host location time := by
  obtain h | ⟨k, told, hk, htold, hle, hlt⟩ := h
  · exact .inl h
  · exact .inr ⟨k, told, hk, htold.mono events, hle, hlt⟩

/-- The name is kept: its entry lasts to this time, or the time has come. -/
def KeptTo (s : LookupState ι) (name : List Char) (time : ℕ) : Prop :=
  time ≤ s.now ∨ ∃ entry, s.cache.get? name = some entry ∧ time ≤ entry.1

/-- What every step of the lookups keeps. -/
structure Kept (reader : Option CityDatabase) (hostOf : ι → List Char) (log : List GeoEvent)
    (s : LookupState ι) : Prop where
  bounded : s.cache.rows.length ≤ geoEntries
  /-- An entry tells what was looked up under its key. -/
  entries : ∀ key entry, s.cache.get? key = some entry → ∃ k told, k.WellFormed ∧ k.key = key ∧
    entry.1 = told + geoTtl ∧ told ≤ s.now ∧ Told reader log k entry.2 told
  /-- The lock is taken while a name is resolved, and nothing is kept for the name. -/
  lock : ∀ c, s.calls c = .resolving → s.locked = true ∧
    ∀ k, candidate (hostOf c) = some k → s.cache.get? k.key = none
  serial : ∀ c d, s.calls c = .resolving → s.calls d = .resolving → c = d
  answers : ∀ c location time, s.calls c = .answered location time →
    Rightly reader log (hostOf c) location time
  queries : ∀ text time, .query text time ∈ log → ∃ c name,
    candidate (hostOf c) = some (.name name) ∧ text = absoluteName name
  named : ∀ name ip time, .answer name ip time ∈ log → IsDnsName name
  decodes : ∀ ip, .decode ip ∈ log → isPublic ip = true
  /-- What was answered is kept, unless it was evicted since. -/
  fresh : ∀ before name ip time after, log = before ++ .answer name ip time :: after →
    .evict name ∉ after → KeptTo s name (time + geoTtl)
  /-- No name is resolved twice in a time to live, unless it was evicted in between. -/
  apart : ∀ before name ip time between time' after,
    log = before ++ .answer name ip time :: between ++ .query (absoluteName name) time' :: after →
      time + geoTtl ≤ time' ∨ .evict name ∈ between

/-! ### One step -/

theorem absoluteName_of {name : List Char} (h : IsDnsName name) :
    absoluteName name = name ++ ['.'] := by
  obtain ⟨front, top, -, rfl, hlabels, -⟩ := h.labels
  rw [absoluteName, stripDot, if_neg (getLast_dotted hlabels).2]

theorem absoluteName_injective {name name' : List Char} (h : IsDnsName name)
    (h' : IsDnsName name') (heq : absoluteName name = absoluteName name') : name = name' := by
  rw [absoluteName_of h, absoluteName_of h'] at heq
  exact List.append_cancel_right heq

/-- An event stands among the last ones or among those before. -/
theorem split_append {log events before after : List GeoEvent} {e : GeoEvent}
    (h : log ++ events = before ++ e :: after) :
    (∃ more, before = log ++ more ∧ events = more ++ e :: after) ∨
      ∃ after', log = before ++ e :: after' ∧ after = after' ++ events := by
  rcases List.append_eq_append_iff.mp h with ⟨more, hbefore, hevents⟩ | ⟨more, hlog, hmore⟩
  · exact .inl ⟨more, hbefore, hevents⟩
  · rcases more with _ | ⟨x, more⟩
    · rw [List.append_nil] at hlog
      exact .inl ⟨[], by rw [hlog, List.append_nil], hmore.symm⟩
    · obtain ⟨rfl, rfl⟩ := List.cons.inj hmore
      exact .inr ⟨more, hlog, rfl⟩

theorem split_of_notMem {log events before after : List GeoEvent} {e : GeoEvent}
    (h : log ++ events = before ++ e :: after) (he : e ∉ events) :
    ∃ after', log = before ++ e :: after' ∧ after = after' ++ events := by
  rcases split_append h with ⟨more, -, hevents⟩ | hlog
  · rw [hevents] at he
    exact absurd (List.mem_append_right _ List.mem_cons_self) he
  · exact hlog

variable {reader : Option CityDatabase} {hostOf : ι → List Char} {log : List GeoEvent}
  {s : LookupState ι}

namespace Kept

omit [DecidableEq ι] in
/-- Time passes. -/
theorem tick (h : Kept reader hostOf log s) {later : ℕ} (hle : s.now ≤ later) :
    Kept reader hostOf log { s with now := later } where
  bounded := h.bounded
  entries key entry hget := by
    obtain ⟨k, told, hk, hkey, hexp, htold, hrest⟩ := h.entries key entry hget
    exact ⟨k, told, hk, hkey, hexp, htold.trans hle, hrest⟩
  lock := h.lock
  serial := h.serial
  answers := h.answers
  queries := h.queries
  named := h.named
  decodes := h.decodes
  fresh before name ip time after hlog hevict := by
    rcases h.fresh before name ip time after hlog hevict with hle' | hkept
    · exact .inl (hle'.trans hle)
    · exact .inr hkept
  apart := h.apart

omit [DecidableEq ι] in
/-- The entries that have expired are left out. -/
theorem retain (h : Kept reader hostOf log s) : Kept reader hostOf log s.retain where
  bounded := GeoCache.length_retain_le.trans h.bounded
  entries key entry hget := h.entries key entry (GeoCache.get?_retain.mp hget).1
  lock c hc := by
    obtain ⟨hlock, hnone⟩ := h.lock c hc
    exact ⟨hlock, fun k hk => GeoCache.get?_retain_of_none (hnone k hk)⟩
  serial := h.serial
  answers := h.answers
  queries := h.queries
  named := h.named
  decodes := h.decodes
  fresh before name ip time after hlog hevict := by
    rcases h.fresh before name ip time after hlog hevict with hle | ⟨entry, hget, hle⟩
    · exact .inl hle
    · by_cases hlive : s.now < entry.1
      · exact .inr ⟨entry, GeoCache.get?_retain.mpr ⟨hget, hlive⟩, hle⟩
      · exact .inl (hle.trans (not_lt.mp hlive))
  apart := h.apart

/-- A lookup that does not take the lock moves on. -/
theorem move (h : Kept reader hostOf log s) (c : ι) (p : LookupPhase) (hp : p ≠ .resolving)
    (hanswer : ∀ location time, p = .answered location time →
      Rightly reader log (hostOf c) location time) : Kept reader hostOf log (s.move c p) := by
  have hcases : ∀ d, (s.move c p).calls d = p ∧ d = c ∨ (s.move c p).calls d = s.calls d := by
    intro d
    by_cases hd : d = c
    · exact .inl ⟨by rw [hd]; exact Function.update_self .., hd⟩
    · exact .inr (Function.update_of_ne hd ..)
  have hold : ∀ d, (s.move c p).calls d = .resolving → s.calls d = .resolving := by
    intro d hd
    rcases hcases d with ⟨hd', -⟩ | hd'
    · exact absurd (hd'.symm.trans hd) hp
    · exact hd' ▸ hd
  refine ⟨h.bounded, h.entries, fun d hd => h.lock d (hold d hd),
    fun d e hd he => h.serial d e (hold d hd) (hold e he), fun d location time hd => ?_,
    h.queries, h.named, h.decodes, h.fresh, h.apart⟩
  rcases hcases d with ⟨hd', rfl⟩ | hd'
  · exact hanswer location time (hd' ▸ hd)
  · exact h.answers d location time (hd' ▸ hd)

/-- A name is resolved under the lock. -/
theorem resolve (h : Kept reader hostOf log s) {c : ι} {name : List Char}
    (hlock : s.locked = false) (hk : candidate (hostOf c) = some (.name name))
    (hnone : s.cache.get? name = none) :
    Kept reader hostOf (log ++ [.query (absoluteName name) s.now])
      { s.move c .resolving with locked := true } := by
  have hfree : ∀ d, s.calls d ≠ .resolving := by
    intro d hd
    rw [(h.lock d hd).1] at hlock
    cases hlock
  have hcases : ∀ d, (s.move c .resolving).calls d = .resolving → d = c := by
    intro d hd
    by_contra hdc
    exact hfree d ((Function.update_of_ne hdc ..).symm.trans hd)
  have hname : IsDnsName name := candidate_wellFormed hk
  refine ⟨h.bounded, fun key entry hget => ?_, fun d hd => ?_, fun d e hd he => ?_,
    fun d location time hd => ?_, fun text time hmem => ?_, fun name' ip time hmem => ?_,
    fun ip hmem => ?_, fun before name' ip time after hlog hevict => ?_,
    fun before name' ip time between time' after hlog => ?_⟩
  · obtain ⟨k, told, hwf, hkey, hexp, htold, hrest⟩ := h.entries key entry hget
    exact ⟨k, told, hwf, hkey, hexp, htold, hrest.mono _⟩
  · obtain rfl := hcases d hd
    refine ⟨rfl, fun k hk' => ?_⟩
    rw [hk] at hk'
    cases hk'
    exact hnone
  · exact (hcases d hd).trans (hcases e he).symm
  · by_cases hdc : d = c
    · have hupdate : (s.move c .resolving).calls d = .resolving := by
        rw [hdc]
        exact Function.update_self ..
      cases hupdate.symm.trans hd
    · exact (h.answers d location time ((Function.update_of_ne hdc ..).symm.trans hd)).mono _
  · rcases List.mem_append.mp hmem with hmem | hmem
    · exact h.queries text time hmem
    · cases List.mem_singleton.mp hmem
      exact ⟨c, name, hk, rfl⟩
  · rcases List.mem_append.mp hmem with hmem | hmem
    · exact h.named name' ip time hmem
    · cases List.mem_singleton.mp hmem
  · rcases List.mem_append.mp hmem with hmem | hmem
    · exact h.decodes ip hmem
    · cases List.mem_singleton.mp hmem
  · obtain ⟨after', hlog', rfl⟩ := split_of_notMem hlog (by simp)
    exact h.fresh before name' ip time after' hlog' fun hmem =>
      hevict (List.mem_append_left _ hmem)
  · rcases split_append hlog with ⟨more, hbefore, hevents⟩ | ⟨after', hlog', -⟩
    · rcases more with _ | ⟨x, more⟩
      · obtain ⟨htext, rfl⟩ := GeoEvent.query.inj (List.cons.inj hevents).1
        rw [List.append_nil] at hbefore
        -- what was answered for the name would still be kept
        have hanswer : .answer name' ip time ∈ log := by
          rw [← hbefore]
          exact List.mem_append_right _ List.mem_cons_self
        obtain rfl := absoluteName_injective hname (h.named name' ip time hanswer) htext
        by_cases hevict : .evict name ∈ between
        · exact .inr hevict
        · rcases h.fresh before name ip time between hbefore.symm hevict with hle | ⟨entry, hget, -⟩
          · exact .inl hle
          · rw [hnone] at hget
            cases hget
      · have := congrArg List.length hevents
        simp at this
    · exact h.apart before name' ip time between time' after' hlog'

/-- A lookup keeps its location and gives the lock back. -/
theorem finish (h : Kept reader hostOf log s) {c : ι} {k : Candidate} {events : List GeoEvent}
    {location : Option NodeLocation} (hk : candidate (hostOf c) = some k)
    (hnone : s.cache.get? k.key = none) (hothers : ∀ d, s.calls d = .resolving → d = c)
    (htold : Told reader (log ++ events) k location s.now)
    (hqueries : ∀ text time, .query text time ∉ events)
    (hdecodes : ∀ ip, .decode ip ∈ events → isPublic ip = true)
    (hanswers : ∀ name ip time, .answer name ip time ∈ events → k = .name name ∧ time = s.now)
    (hevict : ∀ key, s.cache.evicted = some key → .evict key ∈ events) :
    Kept reader hostOf (log ++ events) (s.finish c k.key location) := by
  have hwf : k.WellFormed := candidate_wellFormed hk
  have hself : (s.finish c k.key location).calls c = .answered location s.now :=
    Function.update_self ..
  have hne : ∀ d, d ≠ c → (s.finish c k.key location).calls d = s.calls d := fun d hd =>
    Function.update_of_ne hd ..
  have hfree : ∀ d, (s.finish c k.key location).calls d ≠ .resolving := by
    intro d hd
    by_cases hdc : d = c
    · rw [hdc, hself] at hd
      cases hd
    · exact hdc (hothers d ((hne d hdc).symm.trans hd))
  refine ⟨GeoCache.length_insertLocation_le h.bounded location, fun key entry hget => ?_,
    fun d hd => absurd hd (hfree d), fun d e hd he => absurd hd (hfree d),
    fun d location' time hd => ?_, fun text time hmem => ?_, fun name' ip time hmem => ?_,
    fun ip hmem => ?_, fun before name' ip time after hlog hgone => ?_,
    fun before name' ip time between time' after hlog => ?_⟩
  · by_cases hkey : key = k.key
    · subst hkey
      rw [LookupState.finish, GeoCache.get?_insertLocation_self] at hget
      cases hget
      exact ⟨k, s.now, hwf, rfl, rfl, Nat.le_refl _, htold⟩
    · rw [LookupState.finish, GeoCache.get?_insertLocation_ne hkey] at hget
      split at hget
      · cases hget
      · obtain ⟨k', told, hwf', hkey', hexp, hle, hrest⟩ := h.entries key entry hget
        exact ⟨k', told, hwf', hkey', hexp, hle, hrest.mono _⟩
  · by_cases hdc : d = c
    · subst hdc
      rw [hself] at hd
      cases hd
      exact .inr ⟨k, s.now, hk, htold, Nat.le_refl _, Nat.lt_add_of_pos_right (by decide)⟩
    · exact (h.answers d location' time ((hne d hdc).symm.trans hd)).mono _
  · rcases List.mem_append.mp hmem with hmem | hmem
    · exact h.queries text time hmem
    · exact absurd hmem (hqueries text time)
  · rcases List.mem_append.mp hmem with hmem | hmem
    · exact h.named name' ip time hmem
    · rw [(hanswers name' ip time hmem).1] at hwf
      exact hwf
  · rcases List.mem_append.mp hmem with hmem | hmem
    · exact h.decodes ip hmem
    · exact hdecodes ip hmem
  · rcases split_append hlog with ⟨more, -, hevents⟩ | ⟨after', hlog', rfl⟩
    · -- the answer that is kept here
      obtain ⟨rfl, rfl⟩ := hanswers name' ip time (by
        rw [hevents]
        exact List.mem_append_right _ List.mem_cons_self)
      exact .inr ⟨_, GeoCache.get?_insertLocation_self location, Nat.le_refl _⟩
    · rcases h.fresh before name' ip time after' hlog' fun hmem =>
          hgone (List.mem_append_left _ hmem) with hle | ⟨entry, hget, hle⟩
      · exact .inl hle
      · have hkey : name' ≠ k.key := by
          rintro rfl
          rw [hnone] at hget
          cases hget
        refine .inr ⟨entry, ?_, hle⟩
        rw [LookupState.finish, GeoCache.get?_insertLocation_ne hkey, if_neg]
        · exact hget
        · exact fun hfirst => hgone (List.mem_append_right _ (hevict name' hfirst))
  · obtain ⟨after', hlog', -⟩ := split_of_notMem hlog (hqueries _ _)
    exact h.apart before name' ip time between time' after' hlog'

theorem mem_decoding {ip : Option Address} {e : GeoEvent} (h : e ∈ decoding ip) :
    ∃ address, e = .decode address ∧ isPublic address = true := by
  obtain ⟨address, haddress, rfl⟩ := Option.map_eq_some_iff.mp (Option.mem_toList.mp h)
  exact ⟨address, rfl, (Option.filter_eq_some_iff.mp haddress).2⟩

/-- What follows an answer: the decoding of a public address and the eviction. -/
theorem mem_lookupEvents {ip : Option Address} {first : Option (List Char)} {e : GeoEvent}
    (h : e ∈ decoding ip ++ (first.map GeoEvent.evict).toList) :
    (∃ address, e = .decode address ∧ isPublic address = true) ∨ ∃ key, e = .evict key := by
  rcases List.mem_append.mp h with h | h
  · exact .inl (mem_decoding h)
  · obtain ⟨key, -, rfl⟩ := Option.map_eq_some_iff.mp (Option.mem_toList.mp h)
    exact .inr ⟨key, rfl⟩

/-- The location of a literal address is kept. -/
theorem literal (h : Kept reader hostOf log s) {c : ι} {database : CityDatabase} {ip : Address}
    (hlock : s.locked = false) (hk : candidate (hostOf c) = some (.ip ip))
    (hreader : reader = some database) (hnone : s.cache.get? (Candidate.ip ip).key = none) :
    Kept reader hostOf
      (log ++ (decoding (some ip) ++ (s.cache.evicted.map GeoEvent.evict).toList))
      (s.finish c (Candidate.ip ip).key (locate database ip)) := by
  refine h.finish hk hnone (fun d hd => ?_) ⟨database, hreader, .inl ⟨ip, rfl, rfl⟩⟩
    (fun text time hmem => ?_) (fun address hmem => ?_) (fun name address time hmem => ?_)
    fun key hkey => ?_
  · rw [(h.lock d hd).1] at hlock
    cases hlock
  · rcases mem_lookupEvents hmem with ⟨address, heq, -⟩ | ⟨key, heq⟩
    · cases heq
    · cases heq
  · rcases mem_lookupEvents hmem with ⟨address', heq, hpublic⟩ | ⟨key, heq⟩
    · cases heq
      exact hpublic
    · cases heq
  · rcases mem_lookupEvents hmem with ⟨address', heq, -⟩ | ⟨key, heq⟩
    · cases heq
    · cases heq
  · rw [hkey]
    exact List.mem_append_right _ (List.mem_singleton_self _)

/-- The location of a name that was resolved is kept. -/
theorem resolved (h : Kept reader hostOf log s) {c : ι} {database : CityDatabase}
    {name : List Char} {ip : Option Address} (hc : s.calls c = .resolving)
    (hk : candidate (hostOf c) = some (.name name)) (hreader : reader = some database) :
    Kept reader hostOf
      (log ++ .answer name ip s.now ::
        (decoding ip ++ (s.cache.evicted.map GeoEvent.evict).toList))
      (s.finish c (Candidate.name name).key (ip.bind (locate database))) := by
  have htold : Told reader (log ++ .answer name ip s.now ::
      (decoding ip ++ (s.cache.evicted.map GeoEvent.evict).toList)) (.name name)
      (ip.bind (locate database)) s.now :=
    ⟨database, hreader, .inr ⟨name, ip, rfl,
      List.mem_append_right _ List.mem_cons_self, rfl⟩⟩
  refine h.finish hk ((h.lock c hc).2 _ hk) (fun d hd => h.serial d c hd hc) htold
    (fun text time hmem => ?_) (fun address hmem => ?_) (fun name' address time hmem => ?_)
    fun key hkey => ?_
  · rcases List.mem_cons.mp hmem with heq | hmem
    · cases heq
    · rcases mem_lookupEvents hmem with ⟨address, heq, -⟩ | ⟨key, heq⟩
      · cases heq
      · cases heq
  · rcases List.mem_cons.mp hmem with heq | hmem
    · cases heq
    · rcases mem_lookupEvents hmem with ⟨address', heq, hpublic⟩ | ⟨key, heq⟩
      · cases heq
        exact hpublic
      · cases heq
  · rcases List.mem_cons.mp hmem with heq | hmem
    · cases heq
      exact ⟨rfl, rfl⟩
    · rcases mem_lookupEvents hmem with ⟨address', heq, -⟩ | ⟨key, heq⟩
      · cases heq
      · cases heq
  · rw [hkey]
    exact List.mem_cons_of_mem _ (List.mem_append_right _ (List.mem_singleton_self _))

omit [DecidableEq ι] in
/-- An entry that has not expired is a right answer. -/
theorem served (h : Kept reader hostOf log s) {c : ι} {k : Candidate}
    {entry : ℕ × Option NodeLocation} (hk : candidate (hostOf c) = some k)
    (hget : s.retain.cache.get? k.key = some entry) :
    Rightly reader log (hostOf c) entry.2 s.now := by
  obtain ⟨hold, hlive⟩ := GeoCache.get?_retain.mp hget
  obtain ⟨k', told, hwf, hkey, hexp, hle, htold⟩ := h.entries k.key entry hold
  obtain rfl := key_injective hwf (candidate_wellFormed hk) hkey
  exact .inr ⟨k', told, hk, htold, hle, by omega⟩

/-- **One step** keeps it. -/
theorem step (h : Kept reader hostOf log s) {events : List GeoEvent} {s' : LookupState ι}
    (hstep : LookupStep reader hostOf s events s') : Kept reader hostOf (log ++ events) s' := by
  cases hstep with
  | refused c hc href =>
    rw [List.append_nil]
    refine h.move c _ (by simp) fun location time heq => ?_
    cases heq
    exact .inl ⟨href, rfl⟩
  | wait c hc hreader hk =>
    rw [List.append_nil]
    exact h.move c _ (by simp) fun location time heq => by cases heq
  | served c k entry hc hlock hk hget =>
    rw [List.append_nil]
    refine h.retain.move c _ (by simp) fun location time heq => ?_
    cases heq
    exact h.served hk hget
  | literal c database ip hc hlock hk hreader hnone => exact h.retain.literal hlock hk hreader hnone
  | resolve c name hc hlock hk hnone => exact h.retain.resolve hlock hk hnone
  | resolved c database name ip hc hk hreader => exact h.resolved hc hk hreader
  | dropped c hc =>
    rw [List.append_nil]
    exact h.move c _ (by simp) fun location time heq => by cases heq
  | droppedQuery c hc =>
    rw [List.append_nil]
    have hmove := h.move c .dropped (by simp) fun location time heq => by cases heq
    -- no other lookup resolves a name
    have hfree : ∀ d, (s.move c .dropped).calls d ≠ .resolving := by
      intro d hd
      by_cases hdc : d = c
      · have hself : (s.move c .dropped).calls d = .dropped := by
          rw [hdc]
          exact Function.update_self ..
        cases hself.symm.trans hd
      · exact hdc (h.serial d c ((Function.update_of_ne hdc ..).symm.trans hd) hc)
    exact ⟨hmove.bounded, hmove.entries, fun d hd => absurd hd (hfree d),
      fun d e hd => absurd hd (hfree d), hmove.answers, hmove.queries, hmove.named,
      hmove.decodes, hmove.fresh, hmove.apart⟩
  | tick later hle =>
    rw [List.append_nil]
    exact h.tick hle

end Kept

/-- **A whole run** keeps it. -/
theorem kept_of_run (h : LookupRun reader hostOf log s) : Kept reader hostOf log s := by
  induction h with
  | start =>
    refine ⟨Nat.zero_le _, fun key entry hget => ?_, fun c hc => ?_, fun c d hc => ?_,
      fun c location time hc => ?_, fun text time hmem => ?_, fun name ip time hmem => ?_,
      fun ip hmem => ?_, fun before name ip time after hlog => ?_,
      fun before name ip time between time' after hlog => ?_⟩
    · cases hget
    · cases hc
    · cases hc
    · cases hc
    · cases hmem
    · cases hmem
    · cases hmem
    · simp at hlog
    · simp at hlog
  | step h hstep ih => exact ih.step hstep

/-- **What the lookups of hosts keep.**  Whatever hosts are looked up at once, and whatever
the resolver answers: the cache has at most 4096 entries; one name is resolved at a time;
only DNS names that a host normalizes to are sent to the resolver, with one dot behind them;
only addresses outside of the reserved blocks are looked up in the database; the location
that is answered is that of the host's address, or of an address that the resolver gave less
than 300 seconds before; and a name is not sent to the resolver again within that time unless
it was evicted in between. -/
theorem geo_lookups (h : LookupRun reader hostOf log s) :
    s.cache.rows.length ≤ geoEntries ∧
      (∀ c d, s.calls c = .resolving → s.calls d = .resolving → c = d) ∧
      (∀ text time, .query text time ∈ log → ∃ c name,
        candidate (hostOf c) = some (.name name) ∧ IsDnsName name ∧ text = name ++ ['.']) ∧
      (∀ ip, .decode ip ∈ log → ¬Reserved ip) ∧
      (∀ c location time, s.calls c = .answered location time →
        Rightly reader log (hostOf c) location time) ∧
      ∀ before name ip time between time' after,
        log = before ++ .answer name ip time :: between ++ .query (name ++ ['.']) time' :: after →
          time + geoTtl ≤ time' ∨ .evict name ∈ between := by
  have hkept := kept_of_run h
  refine ⟨hkept.bounded, hkept.serial, fun text time hmem => ?_,
    fun ip hmem => (isPublic_iff ip).mp (hkept.decodes ip hmem), hkept.answers,
    fun before name ip time between time' after hlog => ?_⟩
  · obtain ⟨c, name, hk, rfl⟩ := hkept.queries text time hmem
    have hname : IsDnsName name := candidate_wellFormed hk
    exact ⟨c, name, hk, hname, absoluteName_of hname⟩
  · have hname : IsDnsName name := hkept.named name ip time (by
      rw [hlog]
      simp)
    rw [← absoluteName_of hname] at hlog
    exact hkept.apart before name ip time between time' after hlog

/-- A database of one address. -/
def oneAddress : CityDatabase := fun ip =>
  if ip = .v4 ⟨8, 8, 8, 8⟩ then
    some { country := some "US", registeredCountry := none, city := [("en", "Ashburn")],
           latitude := some 39, longitude := some (-77) }
  else none

/-- The location of that address. -/
def oneLocation : NodeLocation := ⟨"US", some "Ashburn", 39, -77⟩

/-- Two spellings of one name. -/
def spellings : Bool → List Char
  | true => ['A', '.', 'b']
  | false => ['a', '.', 'B', '.']

/-- The location of a name is found, and served to the next lookup of the name. -/
theorem geo_lookups_found : ∃ log s, LookupRun (some oneAddress) spellings log s ∧
    s.calls false = .answered (some oneLocation) 7 ∧
    Rightly (some oneAddress) log (spellings false) (some oneLocation) 7 := by
  have hk : ∀ c, candidate (spellings c) = some (.name ['a', '.', 'b']) := by decide +kernel
  have waiting : LookupRun (some oneAddress) spellings _ _ :=
    (LookupRun.start.step (.wait _ true rfl (by simp) (by simp [hk]))).step
      (.wait _ false rfl (by simp) (by simp [hk]))
  have resolving := waiting.step (.resolve _ true ['a', '.', 'b'] rfl rfl (hk true) rfl)
  have found := (resolving.step (.tick _ 3 (by decide))).step
    (.resolved _ true oneAddress ['a', '.', 'b'] (some (.v4 ⟨8, 8, 8, 8⟩)) rfl (hk true) rfl)
  have run := (found.step (.tick _ 7 (by decide))).step
    (.served _ false (.name ['a', '.', 'b']) (303, some oneLocation) rfl rfl (hk false) ?_)
  · exact ⟨_, _, run, rfl, (geo_lookups run).2.2.2.2.1 false _ 7 rfl⟩
  · decide +kernel

end Dashboard

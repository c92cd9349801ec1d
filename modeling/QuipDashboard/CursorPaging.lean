/-
Reading an ordered collection in pages, by cursor.

A client asks for the page at a cursor, accepts it or gives up, and goes on from the
cursor that the page leads to, until a page leads to none.  What the pages of a
collection lead to is the key of their last row, and none after a short page.

* `follow_exec` — **a client whose requests are answered comes to an end**, when its pages
  leave less and less;
* `Followed.ascending` — **the keys of the pages that a client accepted ascend, whatever the
  server answers**;
* `Followed.complete` — **the pages of a server that answers from a collection are the
  collection**, whoever read them and when;
* `readAll_eq` — **pages of at least one row, read until one is empty, are the rows after the
  cursor**.
-/
import Mathlib.Data.List.Sort
import Mathlib.Order.Defs.Unbundled
import QuipDashboard.Program

namespace CursorPaging

/-! ### A client -/

section

variable {P C : Type} (next : P → Option C) (accepts : Option C → P → Prop)

/-- The pages that were accepted one after the other, each at the cursor that the one
before led to, the cursor that the last one led to, and whether it led to none. -/
inductive Followed : List P → Option C → Bool → Prop
  | start : Followed [] none false
  | page {pages : List P} {cursor : Option C} {p : P} (h : Followed pages cursor false)
      (hp : accepts cursor p) : Followed (pages ++ [p]) (next p) (next p).isNone

/-- Follow the pages from a cursor on, at most `rounds` of them. -/
def follow {E : Type → Type 1} {ε : Type} (fetch : Option C → Program E ε P) :
    ℕ → Option C → Program E ε (List P)
  | 0, _ => .pending
  | rounds + 1, cursor => do
    let p ← fetch cursor
    match next p with
    | none => return [p]
    | some c => do
      let pages ← follow fetch rounds (some c)
      return p :: pages

variable {next accepts}

/-- Only a page that was accepted leads to none. -/
theorem Followed.accepted {pages : List P} {cursor : Option C}
    (h : Followed next accepts pages cursor true) : ∃ c p, accepts c p := by
  generalize hfin : true = fin at h
  cases h with
  | start => cases hfin
  | page _ hp => exact ⟨_, _, hp⟩

/-- Pages that came to an end have no cursor. -/
theorem Followed.ended {pages : List P} {cursor : Option C}
    (h : Followed next accepts pages cursor true) : cursor = none := by
  generalize hfin : true = fin at h
  cases h with
  | start => cases hfin
  | page _ _ => exact Option.isNone_iff_eq_none.mp hfin.symm

/-- Pages may be read through another view. -/
theorem Followed.view {P' C' : Type} (next' : P' → Option C') (accepts' : Option C' → P' → Prop)
    (view : P → P' → Prop) (g : C → C')
    (hview : ∀ cursor p, accepts cursor p →
      ∃ p', accepts' (cursor.map g) p' ∧ next' p' = (next p).map g ∧ view p p')
    {pages : List P} {cursor : Option C} {fin : Bool} (h : Followed next accepts pages cursor fin) :
    ∃ pages', Followed next' accepts' pages' (cursor.map g) fin ∧ List.Forall₂ view pages pages' := by
  induction h with
  | start => exact ⟨[], .start, .nil⟩
  | @page pages cursor p _ hp ih =>
    obtain ⟨pages', hpages, hall⟩ := ih
    obtain ⟨p', hp', hnext, hv⟩ := hview cursor p hp
    have hfollowed := hpages.page hp'
    rw [hnext, Option.isNone_map] at hfollowed
    exact ⟨pages' ++ [p'], hfollowed, List.rel_append hall (.cons hv .nil)⟩

/-- What the pages hold, read off the other view. -/
theorem flatMap_view {P P' β : Type} {view : P → P' → Prop} {f : P → List β} {g : P' → List β}
    (hfg : ∀ p p', view p p' → f p = g p') {pages : List P} {pages' : List P'}
    (h : List.Forall₂ view pages pages') : pages.flatMap f = pages'.flatMap g := by
  induction h with
  | nil => rfl
  | cons hv _ ih => rw [List.flatMap_cons, List.flatMap_cons, hfg _ _ hv, ih]

/-- Every page of the other view is seen in a page. -/
theorem view_mem {P P' : Type} {view : P → P' → Prop} {pages : List P} {pages' : List P'}
    (h : List.Forall₂ view pages pages') {p' : P'} (hp' : p' ∈ pages') :
    ∃ p ∈ pages, view p p' := by
  obtain ⟨i, hi, rfl⟩ := List.getElem_of_mem hp'
  have hlt : i < pages.length := h.length_eq ▸ hi
  exact ⟨pages[i], List.getElem_mem hlt, h.get hlt hi⟩

theorem Followed.imp {accepts' : Option C → P → Prop}
    (hp : ∀ cursor p, accepts cursor p → accepts' cursor p) {pages : List P} {cursor : Option C}
    {fin : Bool} (h : Followed next accepts pages cursor fin) :
    Followed next accepts' pages cursor fin := by
  induction h with
  | start => exact .start
  | page _ ha ih => exact ih.page (hp _ _ ha)

/-- Pages that have not come to an end have a cursor, once there is one. -/
theorem Followed.cursor {pages : List P} {cursor : Option C}
    (h : Followed next accepts pages cursor false) :
    pages = [] ∧ cursor = none ∨ ∃ init c₀ p c, pages = init ++ [p] ∧ cursor = some c ∧
      next p = some c ∧ accepts c₀ p := by
  generalize hfin : false = fin at h
  cases h with
  | start => exact .inl ⟨rfl, rfl⟩
  | @page init c₀ p _ hp =>
    cases hc : next p with
    | none =>
      rw [hc] at hfin
      cases hfin
    | some c => exact .inr ⟨init, c₀, p, c, rfl, rfl, hc, hp⟩

/-- **A client comes to an end when every request is answered and leaves less to read.** -/
theorem follow_exec {E : Type → Type 1} {ε σ : Type} {fetch : Option C → Program E ε P}
    {answer : {γ : Type} → E γ → σ → γ × σ} {s : σ} (rank : Option C → ℕ)
    (hfetch : ∀ pages cursor, Followed next accepts pages cursor false →
      ∃ p, (fetch cursor).exec answer s = some (.ok p, s) ∧ accepts cursor p ∧
        ∀ c, next p = some c → rank (some c) < rank cursor)
    {pages : List P} {cursor : Option C} (h : Followed next accepts pages cursor false)
    (rounds : ℕ) (hrounds : rank cursor < rounds) :
    ∃ more, (follow next fetch rounds cursor).exec answer s = some (.ok more, s) ∧
      Followed next accepts (pages ++ more) none true := by
  induction rounds generalizing pages cursor with
  | zero => exact absurd hrounds (Nat.not_lt_zero _)
  | succ rounds ih =>
    obtain ⟨p, hx, hp, hless⟩ := hfetch pages cursor h
    have hpage := h.page hp
    rw [follow, Program.exec_bind, hx]
    simp only [Option.bind_some]
    cases hc : next p with
    | none =>
      rw [hc] at hpage
      exact ⟨[p], rfl, hpage⟩
    | some c =>
      rw [hc] at hpage
      obtain ⟨more, hmore, hall⟩ := ih hpage (by have := hless c hc; omega)
      refine ⟨p :: more, ?_, ?_⟩
      · simp only [Program.exec_bind, hmore]
        rfl
      · rw [List.append_cons]
        exact hall

end

/-! ### Pages by key -/

variable {α κ : Type} (key : α → κ) (limit : ℕ)

/-- The cursor after a page. -/
def nextCursor (rows : List α) : Option κ :=
  if rows.length < limit then none else rows.getLast?.map key

variable {key limit}

theorem nextCursor_eq_some {rows : List α} {c : κ} (h : nextCursor key limit rows = some c) :
    ∃ init last, rows = init ++ [last] ∧ key last = c ∧ limit ≤ rows.length := by
  unfold nextCursor at h
  split at h
  · cases h
  · rename_i hlen
    obtain ⟨last, hlast, rfl⟩ := Option.map_eq_some_iff.mp h
    obtain ⟨init, rfl⟩ := List.getLast?_eq_some_iff.mp hlast
    exact ⟨init, last, rfl, rfl, not_lt.mp hlen⟩

/-- Only a short page has no next one. -/
theorem nextCursor_eq_none (hlimit : 0 < limit) {rows : List α} :
    nextCursor key limit rows = none ↔ rows.length < limit := by
  refine ⟨fun h => ?_, fun h => if_pos h⟩
  by_contra hlen
  have hne : rows ≠ [] := by
    rintro rfl
    exact hlen hlimit
  rw [nextCursor, if_neg hlen, List.getLast?_eq_some_getLast hne] at h
  cases h

variable [LT κ] [DecidableLT κ]

variable (key limit)

/-- A page that a client accepts at a cursor. -/
structure Step (cursor : Option κ) (rows : List α) : Prop where
  length_le : rows.length ≤ limit
  ascending : rows.Pairwise fun a b => key a < key b
  after : ∀ a ∈ rows, ∀ c ∈ cursor, c < key a

/-- The rows after a cursor. -/
def rest (l : List α) (cursor : Option κ) : List α := l.filter fun a => cursor.all (· < key a)

/-- The page of a server that answers from a collection: the next rows, as many as asked
or all that remain. -/
def Served (l : List α) (cursor : Option κ) (rows : List α) : Prop :=
  rows = (rest key l cursor).take limit

variable {key limit}

omit [DecidableLT κ] in
/-- **Whatever the server answers, the keys that were accepted ascend**, up to the
cursor. -/
theorem Followed.ascending [IsStrictOrder κ (· < ·)] {pages : List (List α)} {cursor : Option κ}
    {fin : Bool} (h : Followed (nextCursor key limit) (Step key limit) pages cursor fin) :
    pages.flatten.Pairwise (fun a b => key a < key b) ∧
      (fin = false → ∀ a ∈ pages.flatten, ∃ c, cursor = some c ∧ (key a < c ∨ key a = c)) := by
  induction h with
  | start =>
    refine ⟨List.Pairwise.nil, fun _ a ha => ?_⟩
    cases ha
  | @page pages cursor rows h hp ih =>
    obtain ⟨hasc, hle⟩ := ih
    rw [List.flatten_append, List.flatten_singleton]
    have hafter : ∀ a ∈ pages.flatten, ∀ b ∈ rows, key a < key b := by
      intro a ha b hb
      obtain ⟨c, rfl, hlt | heq⟩ := hle rfl a ha
      · exact trans_of (· < ·) hlt (hp.after b hb c rfl)
      · rw [heq]
        exact hp.after b hb c rfl
    refine ⟨List.pairwise_append.mpr ⟨hasc, hp.ascending, hafter⟩, fun hfull a ha => ?_⟩
    cases hc : nextCursor key limit rows with
    | none =>
      rw [hc] at hfull
      cases hfull
    | some c =>
      refine ⟨c, rfl, ?_⟩
      obtain ⟨init, last, rfl, rfl, -⟩ := nextCursor_eq_some hc
      rcases List.mem_append.mp ha with ha | ha
      · exact .inl (hafter a ha last (List.mem_append_right _ (List.mem_singleton_self last)))
      · rcases List.mem_append.mp ha with ha | ha
        · exact .inl ((List.pairwise_append.mp hp.ascending).2.2 a ha last
            (List.mem_singleton_self last))
        · exact .inr (congrArg key (List.mem_singleton.mp ha))

/-! ### A server that answers from a collection -/

theorem rest_none (l : List α) : rest key l none = l := by
  simp [rest]

theorem mem_of_mem_rest {l : List α} {cursor : Option κ} {a : α} (h : a ∈ rest key l cursor) :
    a ∈ l :=
  (List.mem_filter.mp h).1

/-- The rows of a page are rows of the collection. -/
theorem Served.mem {l : List α} {cursor : Option κ} {rows : List α}
    (h : Served key limit l cursor rows) {a : α} (ha : a ∈ rows) : a ∈ l := by
  rw [Served] at h
  rw [h] at ha
  exact mem_of_mem_rest (List.mem_of_mem_take ha)

/-- The next rows of a collection are a page that is accepted. -/
theorem Served.step {l : List α} (hl : l.Pairwise fun a b => key a < key b) {cursor : Option κ}
    {rows : List α} (h : Served key limit l cursor rows) : Step key limit cursor rows := by
  rw [Served] at h
  rw [h]
  refine ⟨List.length_take_le .., ?_, fun a ha c hc => ?_⟩
  · exact hl.sublist ((List.take_sublist ..).trans List.filter_sublist)
  · obtain ⟨-, hafter⟩ := List.mem_filter.mp (List.mem_of_mem_take ha)
    rw [Option.mem_def] at hc
    rw [hc] at hafter
    simpa using hafter

variable [IsStrictOrder κ (· < ·)]

/-- After a row that is still there come the rows that it leaves of those. -/
theorem rest_rest {l : List α} {cursor : Option κ} {a : α} (ha : a ∈ rest key l cursor) :
    rest key l (some (key a)) = rest key (rest key l cursor) (some (key a)) := by
  rw [rest, rest, rest, List.filter_filter]
  refine List.filter_congr fun b _ => ?_
  obtain ⟨-, hafter⟩ := List.mem_filter.mp ha
  cases cursor with
  | none => simp
  | some c =>
    by_cases hb : key a < key b
    · simp [hb, trans_of (· < ·) (by simpa using hafter) hb]
    · simp [hb]

/-- After a row that was read, less is left. -/
theorem rest_lt {l : List α} {cursor : Option κ} {a : α} (ha : a ∈ rest key l cursor) :
    (rest key l (some (key a))).length < (rest key l cursor).length := by
  rw [rest_rest ha]
  refine List.length_filter_lt_length_iff_exists.mpr ⟨a, ha, ?_⟩
  simpa using irrefl_of (· < ·) (key a)

theorem Served.rest_lt {l : List α} {cursor : Option κ} {rows : List α} {c : κ}
    (h : Served key limit l cursor rows) (hc : nextCursor key limit rows = some c) :
    (rest key l (some c)).length < (rest key l cursor).length := by
  obtain ⟨init, last, rfl, rfl, -⟩ := nextCursor_eq_some hc
  have hlast : last ∈ (rest key l cursor).take limit := by
    rw [← h]
    exact List.mem_append_right _ (List.mem_singleton_self last)
  exact CursorPaging.rest_lt (List.mem_of_mem_take hlast)

/-- After the last row of some first rows come the others. -/
theorem rest_append {before after : List α} {last : α}
    (hl : (before ++ [last] ++ after).Pairwise fun a b => key a < key b) :
    rest key (before ++ [last] ++ after) (some (key last)) = after := by
  obtain ⟨hfirst, -, hcross⟩ := List.pairwise_append.mp hl
  have hno : ∀ a ∈ before ++ [last], ¬key last < key a := by
    intro a ha hlt
    rcases List.mem_append.mp ha with ha | ha
    · have := (List.pairwise_append.mp hfirst).2.2 a ha last (List.mem_singleton_self last)
      exact irrefl_of (· < ·) _ (trans_of (· < ·) hlt this)
    · rw [List.mem_singleton.mp ha] at hlt
      exact irrefl_of (· < ·) _ hlt
  have hnil : (before ++ [last]).filter (fun a => decide (key last < key a)) = [] :=
    List.filter_eq_nil_iff.mpr fun a ha => by simpa using hno a ha
  have hall : after.filter (fun a => decide (key last < key a)) = after :=
    List.filter_eq_self.mpr fun a ha => by
      simpa using hcross last (List.mem_append_right _ (List.mem_singleton_self last)) a ha
  rw [rest, List.filter_append]
  simp only [Option.all_some, hnil, hall, List.nil_append]

/-- **The pages that were read and the rows that are left are the collection**; after a
short page none are left. -/
theorem Followed.complete {l : List α} (hl : l.Pairwise fun a b => key a < key b)
    (hlimit : 0 < limit) {pages : List (List α)} {cursor : Option κ} {fin : Bool}
    (h : Followed (nextCursor key limit) (Served key limit l) pages cursor fin) :
    l = pages.flatten ++ if fin then [] else rest key l cursor := by
  induction h with
  | start => exact (rest_none l).symm
  | @page pages cursor rows _ hp ih =>
    rw [if_neg Bool.false_ne_true] at ih
    rw [Served] at hp
    rw [List.flatten_append, List.flatten_singleton, List.append_assoc]
    cases hc : nextCursor key limit rows with
    | none =>
      -- a short page holds all that was left
      have hshort : (rest key l cursor).length < limit := by
        have hlen := (nextCursor_eq_none hlimit).mp hc
        rw [hp, List.length_take] at hlen
        omega
      rw [Option.isNone_none, if_pos rfl, List.append_nil, hp, List.take_of_length_le hshort.le]
      exact ih
    | some c =>
      obtain ⟨init, last, hrows, rfl, -⟩ := nextCursor_eq_some hc
      have hsplit : l = pages.flatten ++ init ++ [last] ++ (rest key l cursor).drop limit := by
        rw [List.append_assoc pages.flatten, ← hrows, hp, List.append_assoc,
          List.take_append_drop]
        exact ih
      have hrest : rest key l (some (key last)) = (rest key l cursor).drop limit := by
        rw [hsplit] at hl
        have := rest_append hl
        rw [← hsplit] at this
        exact this
      rw [Option.isNone_some, if_neg Bool.false_ne_true, hrest, hp, List.take_append_drop]
      exact ih

/-! ### Page after page until one is empty -/

/-- Read the page at a cursor and go on from its last row, until a page is empty. -/
def readAll (key : α → κ) (page : Option κ → List α) : ℕ → Option κ → List α
  | 0, _ => []
  | rounds + 1, cursor =>
    match (page cursor).getLast? with
    | none => []
    | some last => page cursor ++ readAll key page rounds (some (key last))

/-- **Pages of at least one row, read until one is empty, are the rows after the cursor.** -/
theorem readAll_eq {l : List α} (hl : l.Pairwise fun a b => key a < key b) (hlimit : 0 < limit)
    {page : Option κ → List α} (hpage : ∀ cursor, Served key limit l cursor (page cursor))
    {rounds : ℕ} {cursor : Option κ} (h : (rest key l cursor).length < rounds) :
    readAll key page rounds cursor = rest key l cursor := by
  induction rounds generalizing cursor with
  | zero => exact absurd h (Nat.not_lt_zero _)
  | succ rounds ih =>
    have hp := hpage cursor
    rw [Served] at hp
    rw [readAll]
    cases hlast : (page cursor).getLast? with
    | none =>
      -- an empty page leaves nothing
      rw [List.getLast?_eq_none_iff, hp, List.take_eq_nil_iff] at hlast
      exact (hlast.resolve_left hlimit.ne').symm
    | some last =>
      obtain ⟨init, hinit⟩ := List.getLast?_eq_some_iff.mp hlast
      have hsplit : rest key l cursor = init ++ [last] ++ (rest key l cursor).drop limit := by
        rw [← hinit, hp, List.take_append_drop]
      have hmem : last ∈ rest key l cursor := by
        rw [hsplit]
        simp
      have hafter : rest key l (some (key last)) = (rest key l cursor).drop limit := by
        have hsorted := hl.sublist (List.filter_sublist (p := fun a => cursor.all (· < key a)))
        change (rest key l cursor).Pairwise _ at hsorted
        rw [rest_rest hmem]
        rw [hsplit] at hsorted
        have := rest_append hsorted
        rwa [← hsplit] at this
      have hless : (rest key l (some (key last))).length < rounds := by
        have := rest_lt hmem
        omega
      show page cursor ++ readAll key page rounds (some (key last)) = _
      rw [ih hless, hafter, hp, List.take_append_drop]

end CursorPaging

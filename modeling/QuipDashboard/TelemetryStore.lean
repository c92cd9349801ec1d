/-
The participation rows and the won blocks of the telemetry store.

The model of `loadQblockHistory` and of `fetchTelemetry` of
`apps/frontend/src/store/telemetry-store.ts`, over the client of the qblock files.  Between
two awaits a poll or the loader runs alone; a poll keeps the rows that it found when its
document arrived, and writes them when it gets no snapshot.

* `State.Step` — the polls, the loader and the calls of the client;
* `Timeline` — the copies of the client, by their version;
* `Standing` — the invariant: rows and blocks are made of the same copies, and no poll holds
  later ones than the store shows;
* `store_never_back` — **the store keeps one set of copies that never goes back, exactly as
  long as no step writes rows of an earlier version than those that it shows**;
* `stale_rows_written` — a poll whose manifest failed writes rows over newer ones.
-/
import QuipDashboard.HistoryWalks

namespace Dashboard

namespace TelemetryStore

open QblockClient

/-! ### The state -/

/-- `sortWinnersDesc`: a later block of a hash takes the place of an earlier one. -/
def sortWinnersDesc (winners : List BlockRecord) : List BlockRecord :=
  let byHash : KeyedTable BlockHash BlockRecord :=
    KeyedTable.empty.putAll (winners.map fun block => (block.blockHash, block))
  (byHash.rows.map Prod.snd).insertionSort fun a b =>
    b.substrateBlockNumber ≤ a.substrateBlockNumber

/-- A call of `fetchTelemetry`. -/
inductive Poll where
  | telemetry
  -- the rows that it found, and its call of `fetchQblocks` if there is a manifest
  | files (found : MadeOf participationFromQblockFiles) (call : Option ℕ)
  | done

/-- `loadQblockHistory`: the call for a day, and the days after it. -/
structure HistoryLoader where
  call : ℕ
  days : List FilePath

/-- The telemetry store, its variables and its client. `historyLoading` is that there is a
loader. -/
structure State where
  client : Client
  participationCompute : MadeOf participationFromQblockFiles
  wonBlocks : MadeOf fun files => sortWinnersDesc (winnersOf files)
  fileWinners : MadeOf winnersOf
  loader : Option HistoryLoader
  polls : List Poll

/-- `createTelemetryStore`. -/
def State.new : State := ⟨.new, .of _ .empty 0, .of _ .empty 0, .of _ .empty 0, none, []⟩

def State.setPoll (s : State) (j : ℕ) (p : Poll) : State := { s with polls := s.polls.set j p }

/-- What became of a call of the client. -/
def State.outcome (s : State) (call : ℕ) : Option Outcome :=
  (s.client.calls[call]?).map QblockCall.outcome

/-- The loader goes on with these days. -/
def State.load (s : State) : List FilePath → State
  | [] => { s with loader := none }
  | day :: days =>
    { s with
      client := s.client.begin (.fetchQblockHistoryDay day)
      loader := some ⟨s.client.calls.length, days⟩ }

/-- `set`, with the rows given and the blocks of `fileWinners`. -/
def State.show (s : State) (rows : MadeOf participationFromQblockFiles) : State :=
  { s with participationCompute := rows, wonBlocks := s.fileWinners.map sortWinnersDesc }

/-! ### Steps -/

/-- What happens to the store; a write comes with the rows that it writes. -/
inductive StoreEvent where
  | client (i : ℕ) (e : CallEvent)
  | poll
  | failed (j : ℕ)
  | answered (j : ℕ) (manifest : Bool)
  | shown (j : ℕ) (rows : MadeOf participationFromQblockFiles)
  | day (rows : MadeOf participationFromQblockFiles)
  | stopped

/-- The steps of the polls and of the loader. -/
inductive State.Step : State → StoreEvent → State → Prop
  | client {s : State} {i : ℕ} {e : CallEvent} {c : Client} (h : s.client.Step (.call i e) c) :
      State.Step s (.client i e) { s with client := c }
  | poll (s : State) : State.Step s .poll { s with polls := s.polls ++ [.telemetry] }
  -- the document fails: only the error is set
  | failed {s : State} {j : ℕ} (hj : s.polls[j]? = some .telemetry) :
      State.Step s (.failed j) (s.setPoll j .done)
  | answered {s : State} {j : ℕ} (hj : s.polls[j]? = some .telemetry) :
      State.Step s (.answered j false) (s.setPoll j (.files s.participationCompute none))
  | answeredManifest {s : State} {j : ℕ} (hj : s.polls[j]? = some .telemetry) :
      State.Step s (.answered j true)
        { s.setPoll j (.files s.participationCompute (some s.client.calls.length)) with
          client := s.client.begin .fetchQblocks }
  -- no snapshot: the rows that were found are written
  | kept {s : State} {j : ℕ} {found : MadeOf participationFromQblockFiles} {call : Option ℕ}
      (hj : s.polls[j]? = some (.files found call))
      (hcall : ∀ c, call = some c → s.outcome c = some .thrown) :
      State.Step s (.shown j found) ((s.show found).setPoll j .done)
  | shown {s : State} {j c : ℕ} {found : MadeOf participationFromQblockFiles} {data : QblockData}
      {history : List FilePath} (hj : s.polls[j]? = some (.files found (some c)))
      (hcall : s.outcome c = some (.snapshot data history)) :
      State.Step s (.shown j data.rows)
        (let s := { s with fileWinners := data.winners }
        ((if s.loader.isNone && !history.isEmpty then s.load history else s).show
          data.rows).setPoll j .done)
  | day {s : State} {l : HistoryLoader} {data : QblockData} (hl : s.loader = some l)
      (hcall : s.outcome l.call = some (.data data)) :
      State.Step s (.day data.rows)
        (({ s with fileWinners := data.winners }.show data.rows).load l.days)
  -- the walk of a day failed
  | stopped {s : State} {l : HistoryLoader} (hl : s.loader = some l)
      (hcall : s.outcome l.call = some .thrown) :
      State.Step s .stopped { s with loader := none }

/-! ### Versions of the copies -/

def paths (files : QblockFiles) : List FilePath := files.rows.map Prod.fst

/-- The copies of the client by their version: each change stores one copy. -/
structure Timeline (tables : ℕ → QblockFiles) (c : Client) : Prop where
  start : tables 0 = .empty
  next : ∀ v < c.version, ∃ path file, tables (v + 1) = (tables v).put path file
  now : tables c.version = c.qblockFiles

/-- The value was made of the copies that the client had at its version. -/
structure Copied {α : Type} {f : List Document → α} (tables : ℕ → QblockFiles) (c : Client)
    (m : MadeOf f) : Prop where
  le : m.version ≤ c.version
  files : m.files = tables m.version

/-- What the store shows was made of copies that its client has had. -/
def State.Dated (s : State) : Prop :=
  ∃ tables, Timeline tables s.client ∧ Copied tables s.client s.participationCompute ∧
    Copied tables s.client s.wonBlocks

/-- The rows and the blocks are made of the same copies of the same files. -/
def State.OneSet (s : State) : Prop := s.participationCompute.files = s.wonBlocks.files

/-- No file is gone from what the store shows, and no copy has given way to an earlier one. -/
structure State.Grown (s s' : State) : Prop where
  rows : paths s.participationCompute.files ⊆ paths s'.participationCompute.files
  blocks : paths s.wonBlocks.files ⊆ paths s'.wonBlocks.files
  rowsLater : s.participationCompute.version ≤ s'.participationCompute.version
  blocksLater : s.wonBlocks.version ≤ s'.wonBlocks.version

/-- The rows to be written were made of copies no earlier than those that they replace. -/
def StoreEvent.Current (s : State) : StoreEvent → Prop
  | .shown _ rows | .day rows => s.participationCompute.version ≤ rows.version
  | .client .. | .poll | .failed _ | .answered .. | .stopped => True

/-- A step that does not write rows of an earlier version. -/
def CurrentStep (s : State) (e : StoreEvent) (s' : State) : Prop := s.Step e s' ∧ e.Current s

/-! ### Timelines -/

theorem State.Grown.refl (s : State) : s.Grown s :=
  ⟨List.Subset.refl _, List.Subset.refl _, le_rfl, le_rfl⟩

theorem State.Grown.trans {s₁ s₂ s₃ : State} (h : s₁.Grown s₂) (h' : s₂.Grown s₃) :
    s₁.Grown s₃ :=
  ⟨List.Subset.trans h.rows h'.rows, List.Subset.trans h.blocks h'.blocks,
    h.rowsLater.trans h'.rowsLater, h.blocksLater.trans h'.blocksLater⟩

theorem paths_put (files : QblockFiles) (path : FilePath) (file : Document) :
    paths files ⊆ paths (files.put path file) := by
  unfold paths
  rw [KeyedTable.put_rows]
  split
  · have hkeys := KeyedTable.replaceRow_keys path file files.rows
    exact hkeys ▸ List.Subset.refl _
  · rw [List.map_append]
    exact List.subset_append_left ..

variable {tables : ℕ → QblockFiles} {c : Client} {α β : Type} {f : List Document → α}
  {g : List Document → β}

/-- **A later version has every file of an earlier one.** -/
theorem Timeline.grows (h : Timeline tables c) {v w : ℕ} (hvw : v ≤ w) (hw : w ≤ c.version) :
    paths (tables v) ⊆ paths (tables w) := by
  induction w, hvw using Nat.le_induction with
  | base => exact List.Subset.refl _
  | succ w _ ih =>
    obtain ⟨path, file, hput⟩ := h.next w (by omega)
    rw [hput]
    exact List.Subset.trans (ih (by omega)) (paths_put ..)

/-- A copy is stored: it is there already, or it makes the next version. -/
theorem Timeline.store (h : Timeline tables c) (w : Walk) (path : FilePath) (file : Document) :
    ∃ tables', Timeline tables' (c.store w path file) ∧ c.version ≤ (c.store w path file).version ∧
      ∀ v ≤ c.version, tables' v = tables v := by
  by_cases hsame : c.qblockFiles.get? path = some file
  · have hversion : (c.store w path file).version = c.version := if_pos hsame
    refine ⟨tables, ⟨h.start, hversion ▸ h.next, ?_⟩, hversion.ge, fun _ _ => rfl⟩
    rw [hversion, h.now]
    exact (KeyedTable.put_self hsame).symm
  · have hversion : (c.store w path file).version = c.version + 1 := if_neg hsame
    have hold : ∀ v ≤ c.version,
        Function.update tables (c.version + 1) (c.qblockFiles.put path file) v = tables v :=
      fun v hv => Function.update_of_ne (by omega) ..
    refine ⟨Function.update tables (c.version + 1) (c.qblockFiles.put path file),
      ⟨(hold 0 (Nat.zero_le _)).trans h.start, fun v hv => ?_, ?_⟩, by omega, hold⟩
    · rw [hold v (by omega)]
      by_cases hlast : v = c.version
      · refine ⟨path, file, ?_⟩
        rw [hlast, Function.update_self, h.now]
      · rw [hold (v + 1) (by omega)]
        exact h.next v (by omega)
    · rw [hversion, Function.update_self]
      rfl

/-- What a step of the client does to its copies. -/
theorem Timeline.step {c' : Client} {e : ClientEvent} (h : Timeline tables c) (hs : c.Step e c') :
    ∃ tables', Timeline tables' c' ∧ c.version ≤ c'.version ∧ ∀ v ≤ c.version, tables' v = tables v := by
  have hsame : ∀ c₁ : Client, c₁.qblockFiles = c.qblockFiles → c₁.version = c.version →
      ∃ tables', Timeline tables' c₁ ∧ c.version ≤ c₁.version ∧
        ∀ v ≤ c.version, tables' v = tables v := by
    intro c₁ hfiles hversion
    refine ⟨tables, ⟨h.start, hversion ▸ h.next, ?_⟩, hversion.ge, fun _ _ => rfl⟩
    rw [hversion, h.now, hfiles]
  cases hs with
  | begin method => exact hsame _ rfl rfl
  | @call i call call' e hcall hstep =>
    have hduring : ∀ {c₁ : Client} {tables' : ℕ → QblockFiles}, Timeline tables' c₁ →
        Timeline tables' (c₁.setCall i call') := fun h => ⟨h.start, h.next, h.now⟩
    unfold Client.during
    split
    · obtain ⟨tables', h', hle, hold⟩ := h.store _ _ _
      exact ⟨tables', hduring h', hle, hold⟩
    · split
      · exact hsame _ rfl rfl
      · exact hsame _ rfl rfl
    · exact hsame _ rfl rfl

theorem Copied.mono {tables' : ℕ → QblockFiles} {c' : Client} {m : MadeOf f}
    (h : Copied tables c m) (hle : c.version ≤ c'.version)
    (hold : ∀ v ≤ c.version, tables' v = tables v) : Copied tables' c' m :=
  ⟨h.le.trans hle, h.files.trans (hold _ h.le).symm⟩

/-- A later value is made of all the files of an earlier one. -/
theorem Copied.subset {m : MadeOf f} {m' : MadeOf g} (h : Copied tables c m)
    (h' : Copied tables c m') (ht : Timeline tables c) (hle : m.version ≤ m'.version) :
    paths m.files ⊆ paths m'.files := by
  rw [h.files, h'.files]
  exact ht.grows hle h'.le

/-- Values of one version are made of the same copies. -/
theorem Copied.unique {m : MadeOf f} {m' : MadeOf g} (h : Copied tables c m)
    (h' : Copied tables c m') (heq : m.version = m'.version) : m.files = m'.files := by
  rw [h.files, h'.files, heq]

/-! ### Data taken from the client -/

/-- The data that a call returned. -/
def dataOf : Outcome → Option QblockData
  | .snapshot data _ | .data data => some data
  | .pending | .thrown => none

/-- What the calls returned are copies that the client has had. -/
def Taken (tables : ℕ → QblockFiles) (c : Client) : Prop :=
  ∀ (i : ℕ) (call : QblockCall) (data : QblockData), c.calls[i]? = some call →
    dataOf call.outcome = some data → Copied tables c data.rows

theorem data_result (c : Client) (w : Walk) (method : Method) {data : QblockData}
    (h : dataOf (c.result w method) = some data) : data = c.qblockData := by
  cases method with
  | fetchQblocks => exact (Option.some.inj h).symm
  | fetchQblockHistoryDay day => exact (Option.some.inj h).symm

/-- The copies that a call returns are those of the moment. -/
theorem data_step {c : Client} {call call' : QblockCall} {e : CallEvent} {data : QblockData}
    (h : CallStep c call e call') (hdata : dataOf call'.outcome = some data) :
    dataOf call.outcome = some data ∨ data = c.qblockData := by
  cases h with
  | refused hwalk hpending => cases hdata
  | manifest hwalk hpending now m => exact .inl hdata
  | finish hwalk hpending hworkers => exact .inr (data_result c _ _ hdata)
  | @walk w w' ev hwalk hstep =>
    cases ev with
    | abort k path => cases hdata
    | _ => exact .inl hdata

theorem Taken.step {c' : Client} {e : ClientEvent} {tables' : ℕ → QblockFiles}
    (h : Taken tables c) (ht : Timeline tables c) (hs : c.Step e c') (hle : c.version ≤ c'.version)
    (hold : ∀ v ≤ c.version, tables' v = tables v) : Taken tables' c' := by
  intro i call' data hcall' hdata
  rcases hs.at i with ⟨hi, -⟩ | ⟨-, method, -, hi'⟩ | ⟨call, e', c₁, -, hi, hi', hstep, rfl⟩
  · exact (h i call' data (hi ▸ hcall') hdata).mono hle hold
  · obtain rfl := Option.some.inj (hcall'.symm.trans hi')
    cases hdata
  · obtain rfl := Option.some.inj (hcall'.symm.trans hi')
    rcases data_step hstep hdata with hdata | rfl
    · exact (h i call data hi hdata).mono hle hold
    · exact Copied.mono ⟨le_rfl, ht.now.symm⟩ hle hold

/-! ### What stands between any two steps -/

/-- Rows and blocks are made of one set of copies, and what the polls found was shown. -/
structure Standing (tables : ℕ → QblockFiles) (s : State) : Prop where
  timeline : Timeline tables s.client
  taken : Taken tables s.client
  rows : Copied tables s.client s.participationCompute
  oneSet : s.wonBlocks.files = s.participationCompute.files
  oneVersion : s.wonBlocks.version = s.participationCompute.version
  winners : s.fileWinners.files = s.wonBlocks.files
  winnersVersion : s.fileWinners.version = s.wonBlocks.version
  found : ∀ (j : ℕ) (found : MadeOf participationFromQblockFiles) (call : Option ℕ),
    s.polls[j]? = some (.files found call) →
      Copied tables s.client found ∧ found.version ≤ s.participationCompute.version

theorem standing_new : Standing (fun _ => .empty) .new where
  timeline := ⟨rfl, fun v hv => (by cases hv), rfl⟩
  taken i call data hcall := by cases hcall
  rows := ⟨le_rfl, rfl⟩
  oneSet := rfl
  oneVersion := rfl
  winners := rfl
  winnersVersion := rfl
  found j found call hj := by cases hj

variable {s s' : State} {e : StoreEvent}

theorem Standing.client (h : Standing tables s) {ce : ClientEvent} {c : Client}
    (hc : s.client.Step ce c) : ∃ tables', Standing tables' { s with client := c } := by
  obtain ⟨tables', ht, hle, hold⟩ := h.timeline.step hc
  exact ⟨tables', ht, h.taken.step h.timeline hc hle hold, h.rows.mono hle hold, h.oneSet,
    h.oneVersion, h.winners, h.winnersVersion,
    fun j found call hj => ⟨(h.found j found call hj).1.mono hle hold, (h.found j found call hj).2⟩⟩

/-- A call of the client begins. -/
theorem Standing.begin (h : Standing tables s) (method : Method) :
    Standing tables { s with client := s.client.begin method } where
  timeline := ⟨h.timeline.start, h.timeline.next, h.timeline.now⟩
  taken := h.taken.step h.timeline (.begin s.client method) le_rfl fun _ _ => rfl
  rows := ⟨h.rows.le, h.rows.files⟩
  oneSet := h.oneSet
  oneVersion := h.oneVersion
  winners := h.winners
  winnersVersion := h.winnersVersion
  found j found call hj :=
    ⟨⟨(h.found j found call hj).1.le, (h.found j found call hj).1.files⟩, (h.found j found call hj).2⟩

theorem Standing.setPoll (h : Standing tables s) (j : ℕ) (p : Poll)
    (hp : ∀ found call, p = .files found call → found = s.participationCompute) :
    Standing tables (s.setPoll j p) where
  timeline := h.timeline
  taken := h.taken
  rows := h.rows
  oneSet := h.oneSet
  oneVersion := h.oneVersion
  winners := h.winners
  winnersVersion := h.winnersVersion
  found j' found call hj' := by
    have hj' : (s.polls.set j p)[j']? = some (.files found call) := hj'
    rw [List.getElem?_set] at hj'
    split at hj'
    · split at hj'
      · rw [hp found call (Option.some.inj hj')]
        exact ⟨h.rows, le_rfl⟩
      · cases hj'
    · exact h.found j' found call hj'

theorem Standing.setLoader (h : Standing tables s) (loader : Option HistoryLoader) :
    Standing tables { s with loader } :=
  ⟨h.timeline, h.taken, h.rows, h.oneSet, h.oneVersion, h.winners, h.winnersVersion, h.found⟩

theorem Standing.load (h : Standing tables s) (days : List FilePath) :
    Standing tables (s.load days) := by
  cases days with
  | nil => exact h.setLoader none
  | cons day days => exact (h.begin (.fetchQblockHistoryDay day)).setLoader _

/-- **A write of rows of no earlier version, and of winners of the same copies.** -/
theorem Standing.write (h : Standing tables s) {rows : MadeOf participationFromQblockFiles}
    (winners : MadeOf winnersOf) (hrows : Copied tables s.client rows)
    (hle : s.participationCompute.version ≤ rows.version)
    (hwinners : winners.files = rows.files) (hversion : winners.version = rows.version) :
    Standing tables (({ s with fileWinners := winners } : State).show rows) ∧
      s.Grown (({ s with fileWinners := winners } : State).show rows) := by
  have hgrow := h.rows.subset hrows h.timeline hle
  refine ⟨⟨h.timeline, h.taken, hrows, hwinners, hversion, rfl, rfl, fun j found call hj =>
    ⟨(h.found j found call hj).1, (h.found j found call hj).2.trans hle⟩⟩, hgrow, ?_, hle, ?_⟩
  · show paths s.wonBlocks.files ⊆ paths winners.files
    rw [h.oneSet, hwinners]
    exact hgrow
  · show s.wonBlocks.version ≤ winners.version
    rw [h.oneVersion, hversion]
    exact hle

theorem show_load (s : State) (rows : MadeOf participationFromQblockFiles)
    (days : List FilePath) : (s.load days).show rows = (s.show rows).load days := by
  cases days <;> rfl

theorem grown_load (h : s.Grown s') (days : List FilePath) : s.Grown (s'.load days) := by
  cases days with
  | nil => exact ⟨h.rows, h.blocks, h.rowsLater, h.blocksLater⟩
  | cons day days => exact ⟨h.rows, h.blocks, h.rowsLater, h.blocksLater⟩

theorem grown_setPoll (h : s.Grown s') (j : ℕ) (p : Poll) : s.Grown (s'.setPoll j p) :=
  ⟨h.rows, h.blocks, h.rowsLater, h.blocksLater⟩

/-- What a call returned was taken from the client. -/
theorem Standing.outcome (h : Standing tables s) {call : ℕ} {outcome : Outcome}
    {data : QblockData} (hcall : s.outcome call = some outcome) (hdata : dataOf outcome = some data) :
    Copied tables s.client data.rows := by
  obtain ⟨c, hc, rfl⟩ := Option.map_eq_some_iff.mp hcall
  exact h.taken call c data hc hdata

/-- **One step.** -/
theorem Standing.step (h : Standing tables s) (hs : CurrentStep s e s') :
    (∃ tables', Standing tables' s') ∧ s.Grown s' := by
  obtain ⟨hs, hcurrent⟩ := hs
  have hdone : ∀ found call, Poll.done = .files found call → found = s.participationCompute :=
    fun found call hp => by cases hp
  have hself := State.Grown.refl s
  cases hs with
  | client hc => exact ⟨h.client hc, ⟨hself.rows, hself.blocks, hself.rowsLater, hself.blocksLater⟩⟩
  | poll =>
    refine ⟨⟨tables, h.timeline, h.taken, h.rows, h.oneSet, h.oneVersion, h.winners,
      h.winnersVersion, fun j found call hj => ?_⟩,
      ⟨hself.rows, hself.blocks, hself.rowsLater, hself.blocksLater⟩⟩
    have hj : (s.polls ++ [.telemetry])[j]? = some (.files found call) := hj
    rw [List.getElem?_append] at hj
    split at hj
    · exact h.found j found call hj
    · simp [List.getElem?_singleton] at hj
  | @failed j hj => exact ⟨⟨tables, h.setPoll j .done hdone⟩, grown_setPoll hself j _⟩
  | @answered j hj =>
    refine ⟨⟨tables, h.setPoll j _ ?_⟩, grown_setPoll hself j _⟩
    rintro found call ⟨rfl, rfl⟩
    rfl
  | @answeredManifest j hj =>
    refine ⟨⟨tables, (h.setPoll j (.files s.participationCompute (some s.client.calls.length))
      ?_).begin .fetchQblocks⟩, ⟨hself.rows, hself.blocks, hself.rowsLater, hself.blocksLater⟩⟩
    rintro found call ⟨rfl, rfl⟩
    rfl
  | @kept j found call hj hcall =>
    obtain ⟨hcopied, hfound⟩ := h.found j found call hj
    -- what was found is what is there now
    have hversion : found.version = s.participationCompute.version := le_antisymm hfound hcurrent
    have hfiles := hcopied.unique h.rows hversion
    obtain ⟨hw, hg⟩ := h.write s.fileWinners hcopied hcurrent
      (by rw [h.winners, h.oneSet, hfiles]) (by rw [h.winnersVersion, h.oneVersion, hversion])
    exact ⟨⟨tables, hw.setPoll j .done fun found call hp => (by cases hp)⟩, grown_setPoll hg j _⟩
  | @shown j c found data history hj hcall =>
    obtain ⟨hw, hg⟩ := h.write data.winners (h.outcome hcall rfl) hcurrent data.same
      data.sameVersion
    simp only
    split
    · rw [show_load]
      exact ⟨⟨tables, (hw.load history).setPoll j .done fun found call hp => (by cases hp)⟩,
        grown_setPoll (grown_load hg history) j _⟩
    · exact ⟨⟨tables, hw.setPoll j .done fun found call hp => (by cases hp)⟩,
        grown_setPoll hg j _⟩
  | @day l data hl hcall =>
    obtain ⟨hw, hg⟩ := h.write data.winners (h.outcome hcall rfl) hcurrent data.same
      data.sameVersion
    exact ⟨⟨tables, hw.load l.days⟩, grown_load hg l.days⟩
  | stopped hl hcall =>
    exact ⟨⟨tables, h.setLoader none⟩, ⟨hself.rows, hself.blocks, hself.rowsLater, hself.blocksLater⟩⟩

theorem rows_load (s : State) (days : List FilePath) :
    (s.load days).participationCompute = s.participationCompute := by
  cases days <;> rfl

/-- What a step writes is shown after it. -/
theorem current_of_grown (hs : s.Step e s') (hg : s.Grown s') : e.Current s := by
  have hle := hg.rowsLater
  cases hs with
  | client hc | poll | failed hj | answered hj | answeredManifest hj | stopped hl hcall =>
    trivial
  | kept hj hcall => exact hle
  | @shown j c found data history hj hcall =>
    simp only at hle
    split at hle
    · rw [show_load] at hle
      exact hle.trans_eq (by rw [State.setPoll, rows_load]; rfl)
    · exact hle
  | @day l data hl hcall =>
    rw [rows_load] at hle
    exact hle

theorem standing_of_run {s₁ : State} {es : List StoreEvent} (h₁ : Standing tables s₁)
    (h : History.Run CurrentStep s₁ es s) : (∃ tables', Standing tables' s) ∧ s₁.Grown s := by
  induction h with
  | nil => exact ⟨⟨tables, h₁⟩, .refl _⟩
  | snoc _ hs ih =>
    obtain ⟨⟨tables', hstanding⟩, hgrown⟩ := ih
    obtain ⟨hstanding', hgrown'⟩ := hstanding.step hs
    exact ⟨hstanding', hgrown.trans hgrown'⟩

theorem Standing.sets (h : Standing tables s) : s.Dated ∧ s.OneSet :=
  ⟨⟨tables, h.timeline, h.rows, ⟨h.oneVersion.trans_le h.rows.le,
    h.oneSet.trans (h.rows.files.trans (congrArg tables h.oneVersion.symm))⟩⟩, h.oneSet.symm⟩

/-- **The store shows one set of copies that never goes back, exactly as long as no step
writes rows of an earlier version.**  A version is a moment of the client's copies, after
which one copy was added or replaced. -/
theorem store_never_back {s₁ : State} {es es' : List StoreEvent}
    (h₁ : History.Run CurrentStep .new es s₁) (h : History.Run CurrentStep s₁ es' s) :
    s.Dated ∧ s.OneSet ∧ s₁.Grown s ∧
      ∀ e s', s.Step e s' → ((s'.OneSet ∧ s.Grown s') ↔ e.Current s) := by
  obtain ⟨⟨_, hfirst⟩, -⟩ := standing_of_run standing_new h₁
  obtain ⟨⟨_, hstanding⟩, hgrown⟩ := standing_of_run hfirst h
  refine ⟨hstanding.sets.1, hstanding.sets.2, hgrown,
    fun e s' hs => ⟨fun hg => current_of_grown hs hg.2, ?_⟩⟩
  intro hcurrent
  obtain ⟨⟨_, hnext⟩, hg⟩ := hstanding.step ⟨hs, hcurrent⟩
  exact ⟨hnext.sets.2, hg⟩

/-! ### Three polls -/

/-- The files of two qblocks; the participation page of the later one lands after a poll. -/
def firstFile : Document := ⟨some 7, some (some wonRecord), some [], none, none⟩

def secondFile (participation : List QBlockParticipationRecord) : Document :=
  ⟨some 8, some (some { wonRecord with qblockId := 8, timestamp := wonRecord.timestamp + 60 }),
    some participation, none, none⟩

def firstPath : FilePath := ["qblocks", "aa", "bb", "7.json"]

def secondPath : FilePath := ["qblocks", "cc", "dd", "8.json"]

/-- The copies after the second poll. -/
def earlyFiles : QblockFiles :=
  (KeyedTable.empty.put firstPath firstFile).put secondPath (secondFile [])

/-- The copies after the third poll, which loads the later file again. -/
def lateFiles : QblockFiles :=
  earlyFiles.put secondPath (secondFile [{ lateParticipant with qblockId := 8 }])

/-- Three polls start; the second one loads the files and shows them, the third one loads the
later file again and shows it, and then the manifest of the first one fails. -/
theorem overlapping_polls : ∃ es s₁, History.Run CurrentStep .new es s₁ ∧
    s₁.participationCompute.files = earlyFiles ∧ ∃ es' s, History.Run CurrentStep s₁ es' s ∧
    s.participationCompute.files = lateFiles ∧ s.participationCompute.version = 3 ∧
    s.participationCompute.value = participationFromQblockFiles (values lateFiles) ∧
    s.wonBlocks.value = sortWinnersDesc (winnersOf (values lateFiles)) ∧
    s.fileWinners.files = lateFiles ∧
    s.fileWinners.value = winnersOf (values lateFiles) ∧
    s.polls[0]? = some (.files (.of _ .empty 0) (some 0)) ∧ s.outcome 0 = some .thrown := by
  refine ⟨_, _,
    .snoc (.snoc (.snoc (.snoc (.snoc (.snoc (.snoc (.snoc (.snoc (.snoc (.snoc (.snoc (.snoc
      .nil
      ⟨.poll _, trivial⟩)
      ⟨.answeredManifest (j := 0) rfl, trivial⟩)
      ⟨.poll _, trivial⟩)
      ⟨.answeredManifest (j := 1) rfl, trivial⟩)
      ⟨.client (.call (i := 1) rfl (.manifest rfl rfl 0 ⟨[firstPath, secondPath], []⟩)), trivial⟩)
      ⟨.client (.call (i := 1) rfl (.walk rfl (.take (k := 0) rfl rfl rfl))), trivial⟩)
      ⟨.client (.call (i := 1) rfl (.walk rfl (.take (k := 1) rfl rfl rfl))), trivial⟩)
      ⟨.client (.call (i := 1) rfl (.walk rfl (.loaded (k := 0) rfl firstFile))), trivial⟩)
      ⟨.client (.call (i := 1) rfl (.walk rfl (.loaded (k := 1) rfl (secondFile [])))), trivial⟩)
      ⟨.client (.call (i := 1) rfl (.walk rfl (.stop (k := 0) rfl rfl))), trivial⟩)
      ⟨.client (.call (i := 1) rfl (.walk rfl (.stop (k := 1) rfl rfl))), trivial⟩)
      ⟨.client (.call (i := 1) rfl (.finish rfl rfl (by decide))), trivial⟩)
      ⟨.shown (j := 1) rfl rfl, Nat.zero_le _⟩, rfl, ?_⟩
  refine ⟨_, _,
    .snoc (.snoc (.snoc (.snoc (.snoc (.snoc (.snoc (.snoc (.snoc .nil
      ⟨.poll _, trivial⟩)
      ⟨.answeredManifest (j := 2) rfl, trivial⟩)
      ⟨.client (.call (i := 2) rfl (.manifest rfl rfl 0 ⟨[secondPath], []⟩)), trivial⟩)
      ⟨.client (.call (i := 2) rfl (.walk rfl (.take (k := 0) (by decide +kernel)
        (show _ = secondPath :: [] by decide +kernel) rfl))), trivial⟩)
      ⟨.client (.call (i := 2) rfl (.walk rfl (.loaded (k := 0)
        (show _ = some (Worker.waiting secondPath) by decide +kernel)
        (secondFile [{ lateParticipant with qblockId := 8 }])))), trivial⟩)
      ⟨.client (.call (i := 2) rfl (.walk rfl (.stop (k := 0) (by decide +kernel) rfl))), trivial⟩)
      ⟨.client (.call (i := 2) rfl (.finish rfl rfl (by decide +kernel))), trivial⟩)
      ⟨.shown (j := 2) rfl rfl, by show _ ≤ _; decide +kernel⟩)
      ⟨.client (.call (i := 0) rfl (.refused rfl rfl)), trivial⟩, ?_⟩
  exact ⟨rfl, by decide +kernel, rfl, rfl, rfl, rfl, rfl, rfl⟩

/-- After the second copy of a file the store shows its participant, and no earlier copy. -/
theorem store_never_back_two : ∃ es s₁ es' s, History.Run CurrentStep .new es s₁ ∧
    History.Run CurrentStep s₁ es' s ∧ s₁.participationCompute.files = earlyFiles ∧
    s.participationCompute.files = lateFiles ∧ s.participationCompute.value ≠ [] ∧
    s.Dated ∧ s.OneSet ∧ s₁.Grown s := by
  obtain ⟨es, s₁, run₁, hearly, es', s, run₂, hlate, -, hvalue, -⟩ := overlapping_polls
  obtain ⟨hdated, hset, hgrown, -⟩ := store_never_back run₁ run₂
  refine ⟨es, s₁, es', s, run₁, run₂, hearly, hlate, ?_, hdated, hset, hgrown⟩
  rw [hvalue]
  decide +kernel

/-- **The first poll writes the rows that it found over those of the third one**: the rows
are gone, and the blocks stay. -/
theorem stale_rows_written : ∃ es s s', History.Run CurrentStep .new es s ∧
    s.Step (.shown 0 (.of _ .empty 0)) s' ∧
    s.participationCompute.value ≠ [] ∧ s'.participationCompute.value = [] ∧
    s'.wonBlocks.value = s.wonBlocks.value ∧ ¬s'.OneSet ∧ ¬s.Grown s' := by
  obtain ⟨es, s₁, run₁, -, es', s, run₂, hfiles, hversion, hvalue, hblocks, hwinners, hwon, hpoll,
    hthrown⟩ := overlapping_polls
  refine ⟨es' ++ es, s, _, run₁.append run₂, .kept hpoll ?_, ?_, rfl, ?_, ?_, ?_⟩
  · rintro c ⟨rfl⟩
    exact hthrown
  · rw [hvalue]
    decide +kernel
  · show sortWinnersDesc s.fileWinners.value = s.wonBlocks.value
    rw [hwon, hblocks]
  · intro h
    have h : (KeyedTable.empty : QblockFiles) = s.fileWinners.files := h
    rw [hwinners] at h
    exact absurd (congrArg (·.rows.length) h) (by decide)
  · intro h
    have hle : s.participationCompute.version ≤ 0 := h.rowsLater
    omega

end TelemetryStore

end Dashboard

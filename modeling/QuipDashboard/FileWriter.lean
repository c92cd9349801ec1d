/-
The writer of the qblock files and of their manifests.

The model of `quip-dashboard/src/qblock_path.rs` and of
`quip-dashboard/src/indexer/file_writer.rs`, without the telemetry documents of a miner. A
JSON object is modelled by its keys that the writer reads or writes, and a listed path by
its components.

* `qblockRelPath` — the fan-out path of a qblock;
* `writeQblockMerged`, `writeBatch`, `restoreQblock` — the merge-aware writes of a qblock;
* `rebuildManifests` — the walk that lists all files again.
-/
import QuipDashboard.FileTree
import QuipDashboard.Records

namespace Dashboard

/-! ### Paths -/

/-- The digest of `sha2`. -/
structure Sha256 where
  digest : List UInt8 → List UInt8
  length_eq : ∀ message, (digest message).length = 32

/-- `QBLOCKS_DIR`. -/
def qblocksDir : String := "qblocks"

/-- `DAYS_DIR`. -/
def daysDir : String := "days"

/-- The lower-case hexadecimal digits of some bytes. -/
def hexChars (bytes : List UInt8) : List Char :=
  bytes.flatMap fun (byte : UInt8) =>
    [Char.ofUInt8 (hexDigit (byte >>> 4)), Char.ofUInt8 (hexDigit (byte &&& 0x0f))]

/-- `hash_prefix`: the first 8 digits of the hash of an id, split 4/4. -/
def hashPrefix (sha256 : Sha256) (id : String) : String × String :=
  let hex := hexChars (sha256.digest (asBytes id))
  (String.ofList (hex.take 4), String.ofList ((hex.drop 4).take 4))

/-- The part of an id that stays in its file name. -/
def idTail (id : String) : String :=
  if (asBytes id).length < 8 then id else String.ofList (id.toList.drop 8)

/-- `qblock_rel_path`. -/
def qblockRelPath (sha256 : Sha256) (id : String) : FilePath :=
  [(hashPrefix sha256 id).1, (hashPrefix sha256 id).2, idTail id ++ ".json"]

/-- The path of a qblock file below the root. -/
def qblockPath (sha256 : Sha256) (id : ℕ) : FilePath := qblocksDir :: qblockRelPath sha256 id.repr

/-- The path of the manifest. -/
def manifestPath : FilePath := [qblocksDir, "metadata.json"]

/-- The path of the manifest of a day. -/
def dayPath (day : String) : FilePath := [qblocksDir, daysDir, day ++ ".json"]

/-- `Path::extension` of a file name. -/
def extension (name : String) : Option String :=
  if name = ".." then none
  else
    let chars := name.toList.reverse
    match chars.dropWhile (· ≠ '.') with
    | [] => none
    | _ :: before =>
      if before = [] then none else some (String.ofList (chars.takeWhile (· ≠ '.')).reverse)

/-- The pid-suffixed temp file of a path. -/
def tempPath (pid : ℕ) (p : FilePath) : FilePath :=
  p.dropLast ++ ["." ++ p.getLast?.getD "file" ++ "." ++ pid.repr ++ ".tmp"]

/-! ### Documents -/

/-- A JSON object: its keys that the writer knows, each of them may be missing. -/
structure Document where
  qblockId : Option ℕ
  winner : Option (Option BlockRecord)
  participation : Option (List QBlockParticipationRecord)
  qblocks : Option (List FilePath)
  history : Option (List FilePath)
  deriving DecidableEq

/-- `{}`. -/
def Document.empty : Document := ⟨none, none, none, none, none⟩

/-- The participants of a file, then the new ones, each account once. -/
def mergeParticipants (rows new : List QBlockParticipationRecord) : List QBlockParticipationRecord :=
  new.foldl (fun rows p => if rows.any (·.account = p.account) then rows else rows ++ [p]) rows

/-- What `write_qblock_merged` makes of an existing document. -/
def Document.merge (d : Document) (id : ℕ) (winner : Option BlockRecord)
    (rows : List QBlockParticipationRecord) : Document :=
  { d with
    qblockId := some id
    winner := match winner with
      | some w => some (some w)
      | none => d.winner.or (some none)
    participation := some (mergeParticipants (d.participation.getD []) rows) }

/-- `MAX_MANIFEST_ENTRIES`. -/
def maxManifestEntries : ℕ := 10000

/-- New paths first, each path once, up to the cap. -/
def prependPaths (current new : List FilePath) : List FilePath :=
  (new.foldl (fun c p => if p ∈ c then c else p :: c) current).take maxManifestEntries

/-- What a writer awaits. -/
abbrev WriterEffect := FileEffect Document

/-- The programs of a writer. -/
abbrev WriterProgram := Program WriterEffect FileError

/-! ### Writes -/

section

variable (sha256 : Sha256) (pid : ℕ)

/-- `atomic_write`: a temp file that is renamed over the target. -/
def atomicWrite (p : FilePath) (d : Document) : WriterProgram Unit := do
  Program.awaitOk id (.write (tempPath pid p) d)
  Program.awaitOk id (.rename (tempPath pid p) p)

/-- `update_manifest`. -/
def updateManifest (recent history : List FilePath) : WriterProgram Unit :=
  atomicWrite pid manifestPath { Document.empty with qblocks := some recent, history := some history }

/-- `add_to_manifest`. -/
def addToManifest (paths : List FilePath) : WriterProgram Unit := do
  let existing ← match ← Program.await (.read manifestPath) with
    | .ok d => pure d
    | .error .notFound => pure Document.empty
    | .error e => Program.fail e
  updateManifest pid (prependPaths (existing.qblocks.getD []) paths) (existing.history.getD [])

/-- `write_qblock_merged`. -/
def writeQblockMerged (qblock : ℕ) (winner : Option BlockRecord)
    (rows : List QBlockParticipationRecord) : WriterProgram Unit := do
  let path := qblockPath sha256 qblock
  let existing ←
    if ← Program.await (.exists_ path) then Program.awaitOk id (.read path)
    else pure Document.empty
  atomicWrite pid path (existing.merge qblock winner rows)

/-- Append what is not there yet. -/
def pushNew {α : Type} [DecidableEq α] (l : List α) (a : α) : List α :=
  if a ∈ l then l else l ++ [a]

/-- The distinct qblocks of a batch, in their order. -/
def batchQblocks (winner : Option BlockRecord) (rows : List QBlockParticipationRecord) : List ℕ :=
  (rows.map QBlockParticipationRecord.qblockId).foldl pushNew
    (winner.toList.map BlockRecord.qblockId)

/-- The writes of a batch: one merged file for each of the qblocks. -/
def writeQblocks (winner : Option BlockRecord) (rows : List QBlockParticipationRecord) :
    List ℕ → WriterProgram (List (ℕ × Except FileError Unit))
  | [] => return []
  | q :: qs => do
    let result ← (writeQblockMerged sha256 pid q (winner.filter (·.qblockId = q))
      (rows.filter (·.qblockId = q))).attempt
    let results ← writeQblocks winner rows qs
    return (q, result) :: results

/-- `write_batch`. -/
def writeBatch (winner : Option BlockRecord) (rows : List QBlockParticipationRecord) :
    WriterProgram (List (ℕ × Except FileError Unit)) := do
  let qblocks := batchQblocks winner rows
  let results ← writeQblocks sha256 pid winner rows qblocks
  let written := (qblocks.map (qblockPath sha256)).foldl pushNew []
  if results.all (fun r => r.2 = .ok ()) && written ≠ [] then
    -- a manifest that cannot be written is logged
    let _ ← (addToManifest pid written).attempt
  return results

/-- `restore_qblock`: whether a file was written. -/
def restoreQblock (winner : BlockRecord) (rows : List QBlockParticipationRecord) :
    WriterProgram Bool := do
  let path := qblockPath sha256 winner.qblockId
  if ← Program.await (.exists_ path) then return false
  else
    writeQblockMerged sha256 pid winner.qblockId (some winner) rows
    Program.awaitOk id (.setModified path winner.timestamp)
    return true

/-! ### Rebuilding the manifests -/

/-- The files found by the walk, with their seconds. -/
structure Found where
  recent : List (ℤ × FilePath)
  days : KeyedTable String (List (ℤ × FilePath))

/-- `entry(day).or_default().push(..)`. -/
def Found.pushDay (f : Found) (day : String) (e : ℤ × FilePath) : Found :=
  { f with days := f.days.put day ((f.days.get? day).getD [] ++ [e]) }

/-- Whether the walk takes a file for a qblock file. -/
def isQblockFile (name : String) : Bool :=
  extension name = some "json" && name ≠ "metadata.json"

/-- A qblock file is recent or of its UTC day; `day` is the calendar's. -/
def fileFound (day : ℤ → Option String) (recentSince : ℤ) (p : FilePath) (modified : ℤ)
    (f : Found) : Except FileError Found :=
  -- a file from before the epoch is left out
  if modified < 0 then .ok f
  else if modified > i64Max then .error (.other "out of range integral type conversion attempted")
  else if recentSince ≤ modified then .ok { f with recent := f.recent ++ [(modified, p)] }
  else
    match day modified with
    | some d => .ok (f.pushDay d (modified, p))
    | none => .error (.other "qblock mtime out of range")

/-- The entries of one directory: its subdirectories are pushed on the stack. -/
def walkEntries (day : ℤ → Option String) (recentSince : ℤ) (dir : FilePath) :
    List String → List FilePath × Found → WriterProgram (List FilePath × Found)
  | [], acc => return acc
  | name :: names, (stack, found) => do
    let path := dir ++ [name]
    let info ← Program.awaitOk id (.metadata path)
    if info.isDir then
      walkEntries day recentSince dir names
        (if path ≠ [qblocksDir, daysDir] then path :: stack else stack, found)
    else if isQblockFile name then
      let found ← Program.ofExcept (fileFound day recentSince path info.modified found)
      walkEntries day recentSince dir names (stack, found)
    else walkEntries day recentSince dir names (stack, found)

/-- The walk over the tree, with a bound on the number of directories. -/
def walk (day : ℤ → Option String) (recentSince : ℤ) :
    ℕ → List FilePath → Found → WriterProgram Found
  | _, [], found => return found
  | 0, _ :: _, _ => .pending
  | n + 1, dir :: stack, found => do
    let names ← Program.awaitOk id (.readDir dir)
    let (stack, found) ← walkEntries day recentSince dir names (stack, found)
    walk day recentSince n stack found

/-- Newest first. -/
def newestFirst (entries : List (ℤ × FilePath)) : List FilePath :=
  (entries.mergeSort fun a b => b.1 ≤ a.1).map Prod.snd

/-- The manifests of the days. -/
def writeDays : List (String × List (ℤ × FilePath)) → WriterProgram (List FilePath)
  | [] => return []
  | (day, entries) :: days => do
    atomicWrite pid (dayPath day) { Document.empty with qblocks := some (newestFirst entries) }
    let history ← writeDays days
    return dayPath day :: history

/-- `rebuild_manifests`. -/
def rebuildManifests (day : ℤ → Option String) (fuel : ℕ) (recentSince : ℤ) :
    WriterProgram Unit := do
  if !(← Program.await (.exists_ [qblocksDir])) then updateManifest pid [] []
  else
    let found ← walk day recentSince fuel [[qblocksDir]] ⟨[], .empty⟩
    let history ← writeDays pid (found.days.rows.mergeSort fun a b => b.1 ≤ a.1)
    updateManifest pid (newestFirst found.recent) history

end

end Dashboard

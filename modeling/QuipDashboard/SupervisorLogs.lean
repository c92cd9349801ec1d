/-
The log reader of the supervisor.

The model of `Logs::read` and `Logs::line` in `quip-dashboard/src/supervisor.rs`.  A
reader takes what one read of the pipe gives, byte after byte, and keeps the bytes
of the unfinished line, or only the fact that the line is too long.

* `readBytes_state` — the state after any bytes is told by the open line alone, and
  each complete line has had its one effect;
* `read_effects` — the effects of a whole stream do not depend on its chunks;
* `read_lines` — **the lines passed on are those of at most 64 KiB, in order, each
  once, and every longer one is counted once**;
* `deliver_accounts` — each line passed on is in the queue or counted as dropped.
-/
import QuipDashboard.LineSplit

namespace Dashboard

open LineSplit

/-- `MAX_LINE`. -/
def maxLine : ℕ := 64 * 1024

/-- `MAX_DATAGRAM`. -/
def maxDatagram : ℕ := 65507

/-- `b'\n'`. -/
def newline : UInt8 := 10

/-! ### `Logs::read` -/

/-- What the reader does with a line: `self.line(role, &line)`, or one more in
`oversized_lines`. -/
inductive LineEffect
  | line (bytes : List UInt8)
  | oversized
  deriving DecidableEq

/-- The variables of `read`, what it has done so far, and the increments of `read_errors`. -/
structure ReadState where
  line : List UInt8
  oversized : Bool
  effects : List LineEffect
  readErrors : ℕ
  deriving DecidableEq

/-- The variables before the first read. -/
def ReadState.start : ReadState := ⟨[], false, [], 0⟩

/-- The body of the loop over the bytes of a chunk. -/
def ReadState.byte (s : ReadState) (byte : UInt8) : ReadState :=
  if byte = newline then
    { s with
      effects := if s.oversized then s.effects else s.effects ++ [.line s.line]
      line := []
      oversized := false }
  else if !s.oversized then
    if s.line.length = maxLine then
      { s with effects := s.effects ++ [.oversized], line := [], oversized := true }
    else { s with line := s.line ++ [byte] }
  else s

/-- What stands behind the loop. -/
def ReadState.finish (s : ReadState) : ReadState :=
  if !s.oversized && !s.line.isEmpty then { s with effects := s.effects ++ [.line s.line] } else s

/-- The loop of `Logs::read` over what the reads of the pipe give: some bytes, none at
the end of the stream, or an error.  Where the reads run out it waits. -/
def ReadState.readFrom (s : ReadState) : List (Except Unit (List UInt8)) → ReadState
  | [] => s
  | .ok [] :: _ => s.finish
  | .ok bytes :: reads => (bytes.foldl ReadState.byte s).readFrom reads
  | .error () :: _ => { s with readErrors := s.readErrors + 1 }.finish

/-- `Logs::read`. -/
def readLogs (reads : List (Except Unit (List UInt8))) : ReadState := ReadState.start.readFrom reads

/-! ### The state after some bytes -/

/-- The one effect of a line. -/
def lineEffect (line : List UInt8) : LineEffect :=
  if line.length ≤ maxLine then .line line else .oversized

/-- What an open line has caused so far: it is counted with its first byte too many. -/
def openEffects (line : List UInt8) : List LineEffect :=
  if line.length ≤ maxLine then [] else [.oversized]

/-- The state after the bytes `p`, told by its lines. -/
def openState (p : List UInt8) : ReadState where
  line := if (opened newline p).length ≤ maxLine then opened newline p else []
  oversized := decide (¬(opened newline p).length ≤ maxLine)
  effects := (complete newline p).map lineEffect ++ openEffects (opened newline p)
  readErrors := 0

theorem byte_newline (p : List UInt8) :
    (openState p).byte newline = openState (p ++ [newline]) := by
  rw [ReadState.byte, if_pos rfl, openState, openState, complete_snoc_sep, opened_snoc_sep]
  have hnil : ([] : List UInt8).length ≤ maxLine := Nat.zero_le _
  rw [if_pos hnil, openEffects, openEffects, if_pos hnil, List.map_append, List.append_nil]
  by_cases h : (opened newline p).length ≤ maxLine
  · simp [h, lineEffect]
  · simp [h, lineEffect]

theorem byte_other {p : List UInt8} {x : UInt8} (hx : x ≠ newline) :
    (openState p).byte x = openState (p ++ [x]) := by
  rw [ReadState.byte, if_neg hx, openState, openState, complete_snoc hx, opened_snoc hx]
  by_cases h : (opened newline p).length ≤ maxLine
  · by_cases hfull : (opened newline p).length = maxLine
    · -- the byte is the first one too many
      simp [hfull, openEffects]
    · have hfits : (opened newline p).length + 1 ≤ maxLine := by omega
      simp [h, hfull, hfits, openEffects]
  · simp [h, openEffects]
    omega

/-- One byte. -/
theorem byte_eq (p : List UInt8) (x : UInt8) : (openState p).byte x = openState (p ++ [x]) := by
  by_cases hx : x = newline
  · rw [hx, byte_newline]
  · exact byte_other hx

/-- **The state after any bytes depends on them alone.** -/
theorem readBytes_state (p bytes : List UInt8) :
    bytes.foldl ReadState.byte (openState p) = openState (p ++ bytes) := by
  induction bytes generalizing p with
  | nil => rw [List.append_nil, List.foldl_nil]
  | cons x bytes ih => rw [List.foldl_cons, byte_eq, ih, List.append_assoc, List.singleton_append]

/-! ### A whole stream -/

/-- The effect of what stands behind the last newline. -/
def lastEffects (line : List UInt8) : List LineEffect :=
  if line.isEmpty then [] else [lineEffect line]

/-- Every effect of a stream: one for each complete line, and one for an open line that
is not empty. -/
def streamEffects (stream : List UInt8) : List LineEffect :=
  (complete newline stream).map lineEffect ++ lastEffects (opened newline stream)

theorem finish_effects (p : List UInt8) : (openState p).finish.effects = streamEffects p := by
  rw [ReadState.finish, openState, streamEffects, lastEffects, openEffects]
  by_cases h : (opened newline p).length ≤ maxLine
  · by_cases hempty : (opened newline p).isEmpty = true
    · simp [hempty, h]
    · simp [hempty, h, lineEffect]
  · have hne : (opened newline p).isEmpty = false := by
      cases hp : opened newline p with
      | nil => exact absurd (by rw [hp]; exact Nat.zero_le _) h
      | cons x l => rfl
    simp [hne, h, lineEffect]

/-- How a stream can end. -/
inductive StreamEnd
  | eof
  | error
  deriving DecidableEq

/-- The read that ends a stream. -/
def StreamEnd.read : StreamEnd → Except Unit (List UInt8)
  | .eof => .ok []
  | .error => .error ()

theorem finish_readErrors (s : ReadState) : s.finish.readErrors = s.readErrors := by
  unfold ReadState.finish
  split <;> rfl

/-- The reads up to the end of a stream, from the state after the bytes `p`; what is
read afterwards is not taken. -/
theorem readFrom_eq (p : List UInt8) {chunks : List (List UInt8)} (hchunks : ∀ c ∈ chunks, c ≠ [])
    (last : StreamEnd) (more : List (Except Unit (List UInt8))) :
    ((openState p).readFrom (chunks.map .ok ++ last.read :: more)).effects =
        streamEffects (p ++ chunks.flatten) ∧
      ((openState p).readFrom (chunks.map .ok ++ last.read :: more)).readErrors =
        if last = .error then 1 else 0 := by
  induction chunks generalizing p with
  | nil =>
    rw [List.map_nil, List.nil_append, List.flatten_nil, List.append_nil]
    cases last with
    | eof => exact ⟨finish_effects p, finish_readErrors _⟩
    | error =>
      refine ⟨?_, finish_readErrors _⟩
      have hsame : ({ openState p with readErrors := 1 } : ReadState).finish.effects =
          (openState p).finish.effects := by
        unfold ReadState.finish
        split <;> rfl
      exact hsame.trans (finish_effects p)
  | cons c chunks ih =>
    obtain ⟨x, bytes, rfl⟩ := List.exists_cons_of_ne_nil (hchunks c List.mem_cons_self)
    have hrest := ih (p ++ x :: bytes) fun d hd => hchunks d (List.mem_cons_of_mem _ hd)
    rw [List.append_assoc, ← readBytes_state] at hrest
    rw [List.flatten_cons]
    exact hrest

/-- **The effects of a stream do not depend on its chunks.** -/
theorem read_effects {chunks : List (List UInt8)} (hchunks : ∀ c ∈ chunks, c ≠ [])
    (last : StreamEnd) (more : List (Except Unit (List UInt8))) :
    (readLogs (chunks.map .ok ++ last.read :: more)).effects = streamEffects chunks.flatten ∧
      (readLogs (chunks.map .ok ++ last.read :: more)).readErrors =
        if last = .error then 1 else 0 :=
  readFrom_eq [] hchunks last more

/-! ### The lines passed on and the lines counted -/

/-- The lines that are passed to `Logs::line`, in order. -/
def emitted (effects : List LineEffect) : List (List UInt8) :=
  effects.filterMap fun
    | .line bytes => some bytes
    | .oversized => none

theorem emitted_map (lines : List (List UInt8)) :
    emitted (lines.map lineEffect) = lines.filter fun line => line.length ≤ maxLine := by
  induction lines with
  | nil => rfl
  | cons line lines ih =>
    by_cases h : line.length ≤ maxLine
    · rw [List.map_cons, lineEffect, if_pos h, List.filter_cons_of_pos (by simpa using h), ← ih]
      rfl
    · rw [List.map_cons, lineEffect, if_neg h, List.filter_cons_of_neg (by simpa using h), ← ih]
      rfl

theorem count_oversized (lines : List (List UInt8)) :
    (lines.map lineEffect).count .oversized =
      lines.countP fun line => ¬line.length ≤ maxLine := by
  induction lines with
  | nil => rfl
  | cons line lines ih =>
    rw [List.map_cons, List.count_cons, List.countP_cons, ih, lineEffect]
    by_cases h : line.length ≤ maxLine
    · simp [h]
    · simp [h]

/-- The lines of a stream: the complete ones, and what stands behind the last newline
if that is not empty. -/
def streamLines (stream : List UInt8) : List (List UInt8) :=
  complete newline stream ++
    if (opened newline stream).isEmpty then [] else [opened newline stream]

theorem streamEffects_eq (stream : List UInt8) :
    streamEffects stream = (streamLines stream).map lineEffect := by
  rw [streamEffects, streamLines, lastEffects, List.map_append]
  split <;> rfl

/-- **The log reader passes on the lines of at most 64 KiB.**  For every stream and
every way to cut it into reads, the lines passed on are those of the stream that fit,
in order and each once, empty ones included, and an open one at the end unless it is
empty; every longer line is counted once and no part of it is passed on.  The lines
hold no newline and are, joined with newlines, the stream. -/
theorem read_lines {chunks : List (List UInt8)} (hchunks : ∀ c ∈ chunks, c ≠ []) (last : StreamEnd)
    (more : List (Except Unit (List UInt8))) :
    emitted (readLogs (chunks.map .ok ++ last.read :: more)).effects =
        (streamLines chunks.flatten).filter (fun line => line.length ≤ maxLine) ∧
      (readLogs (chunks.map .ok ++ last.read :: more)).effects.count .oversized =
        (streamLines chunks.flatten).countP (fun line => ¬line.length ≤ maxLine) ∧
      (∀ line ∈ complete newline chunks.flatten ++ [opened newline chunks.flatten],
        newline ∉ line) ∧
      [newline].intercalate
        (complete newline chunks.flatten ++ [opened newline chunks.flatten]) = chunks.flatten := by
  obtain ⟨heffects, -⟩ := read_effects hchunks last more
  rw [heffects, streamEffects_eq]
  exact ⟨emitted_map _, count_oversized _, fun line => sep_notMem, intercalate_lines _⟩

/-- A newline at the edge of a chunk, an empty line, and an open line, cut twice. -/
theorem read_lines_three :
    emitted (readLogs [.ok [97, 10], .ok [10, 98], .ok [99], .ok []]).effects =
      [[97], [], [98, 99]] :=
  (@read_lines [[97, 10], [10, 98], [99]] (by decide) .eof []).1.trans (by decide)

/-! ### `Logs::line` -/

/-- The tag of a role. -/
def roleTag (role : String) : String :=
  match role with
  | "backend" => "quip-dashboard"
  | "caddy" => "caddy"
  | _ => "syslog-ng"

/-- A control character other than a tab becomes a space. -/
def sanitized (byte : UInt8) : UInt8 := if (byte < 32 ∨ byte = 127) ∧ byte ≠ 9 then 32 else byte

/-- `as_bytes` of an ASCII text. -/
def asciiBytes (text : String) : List UInt8 := text.toList.map fun c => c.toNat.toUInt8

/-- The message of a line. -/
def logMessage (role : String) (line : List UInt8) : List UInt8 :=
  asciiBytes "<14>" ++ asciiBytes (roleTag role) ++ asciiBytes ": " ++ line.map sanitized

/-- The counters that `line` and `read` add to. -/
structure LogCounters where
  oversizedLines : ℕ
  stderrDroppedLines : ℕ
  stderrPendingLines : ℕ
  udpDroppedLines : ℕ

/-- The counters, the datagrams sent to the collector and the queue to the writer thread. -/
structure LogSink where
  counters : LogCounters
  datagrams : List (List UInt8)
  queue : List (List UInt8)

/-- Whether `send_to` and `try_send` succeed. -/
structure LineAnswer where
  sent : Bool
  queued : Bool

/-- The datagram of a message; the collector's own lines are not sent back to it. -/
def LogSink.send (s : LogSink) (role : String) (message : List UInt8) (sent : Bool) : LogSink :=
  if role ≠ "collector" then
    if message.length > maxDatagram ∨ sent = false then
      { s with
        counters := { s.counters with udpDroppedLines := s.counters.udpDroppedLines + 1 } }
    else { s with datagrams := s.datagrams ++ [message] }
  else s

/-- The message in the queue of the writer thread: pending while `try_send` runs, and
dropped if it fails. -/
def LogSink.enqueue (s : LogSink) (message : List UInt8) (queued : Bool) : LogSink :=
  if queued then
    { s with
      counters := { s.counters with stderrPendingLines := s.counters.stderrPendingLines + 1 }
      queue := s.queue ++ [message ++ [newline]] }
  else
    { s with
      counters := { s.counters with stderrDroppedLines := s.counters.stderrDroppedLines + 1 } }

/-- `Logs::line`. -/
def LogSink.line (s : LogSink) (role : String) (line : List UInt8) (answer : LineAnswer) : LogSink :=
  (s.send role (logMessage role line) answer.sent).enqueue (logMessage role line) answer.queued

/-- One effect of the reader. -/
def LogSink.apply (role : String) (s : LogSink) : LineEffect × LineAnswer → LogSink
  | (.line bytes, answer) => s.line role bytes answer
  | (.oversized, _) =>
    { s with counters := { s.counters with oversizedLines := s.counters.oversizedLines + 1 } }

/-- The effects of the reader, each with what the socket and the queue answered. -/
def deliver (role : String) (s : LogSink) (effects : List (LineEffect × LineAnswer)) : LogSink :=
  effects.foldl (LogSink.apply role) s

theorem apply_accounts (role : String) (s : LogSink) (e : LineEffect × LineAnswer) :
    (s.apply role e).queue.length + (s.apply role e).counters.stderrDroppedLines =
        s.queue.length + s.counters.stderrDroppedLines + (emitted [e.1]).length ∧
      (s.apply role e).counters.oversizedLines =
        s.counters.oversizedLines + [e.1].count .oversized := by
  obtain ⟨effect, sent, queued⟩ := e
  cases effect with
  | oversized => exact ⟨rfl, rfl⟩
  | line bytes =>
    -- the datagram touches neither the queue nor these two counters
    have hsend : (s.send role (logMessage role bytes) sent).queue = s.queue ∧
        (s.send role (logMessage role bytes) sent).counters.stderrDroppedLines =
          s.counters.stderrDroppedLines ∧
        (s.send role (logMessage role bytes) sent).counters.oversizedLines =
          s.counters.oversizedLines := by
      unfold LogSink.send
      split
      · split <;> exact ⟨rfl, rfl, rfl⟩
      · exact ⟨rfl, rfl, rfl⟩
    rw [LogSink.apply, LogSink.line, LogSink.enqueue]
    cases queued with
    | true =>
      rw [if_pos rfl]
      simp only [hsend, List.length_append, List.length_singleton]
      refine ⟨?_, rfl⟩
      show _ = _ + 1
      omega
    | false =>
      rw [if_neg Bool.false_ne_true]
      simp only [hsend]
      exact ⟨rfl, rfl⟩

/-- **Each line passed on is in the queue or counted as dropped**, and the oversized
lines are counted. -/
theorem deliver_accounts (role : String) (s : LogSink) (effects : List (LineEffect × LineAnswer)) :
    (deliver role s effects).queue.length + (deliver role s effects).counters.stderrDroppedLines =
        s.queue.length + s.counters.stderrDroppedLines +
          (emitted (effects.map Prod.fst)).length ∧
      (deliver role s effects).counters.oversizedLines =
        s.counters.oversizedLines + (effects.map Prod.fst).count .oversized := by
  induction effects generalizing s with
  | nil => exact ⟨rfl, rfl⟩
  | cons e effects ih =>
    obtain ⟨hlines, hover⟩ := ih (s.apply role e)
    obtain ⟨hline, hone⟩ := apply_accounts role s e
    have hsplit : emitted ((e :: effects).map Prod.fst) =
        emitted [e.1] ++ emitted (effects.map Prod.fst) := List.filterMap_append (l := [e.1])
    have hcount : ((e :: effects).map Prod.fst).count .oversized =
        [e.1].count .oversized + (effects.map Prod.fst).count .oversized :=
      @List.count_append _ _ _ [e.1] _
    rw [hsplit, hcount, List.length_append]
    refine ⟨hlines.trans ?_, hover.trans ?_⟩
    · omega
    · omega

/-- A message stays on one line. -/
theorem newline_notMem_logMessage (role : String) (line : List UInt8) :
    newline ∉ logMessage role line := by
  have hsanitized : ∀ byte, sanitized byte ≠ newline := by
    intro byte h
    rw [sanitized] at h
    split at h
    · exact absurd h (by decide)
    · rename_i hkept
      exact hkept (by rw [h]; decide)
  have htag : newline ∉ asciiBytes (roleTag role) := by
    unfold roleTag
    split <;> decide
  intro h
  rcases List.mem_append.mp h with h | h
  · rcases List.mem_append.mp h with h | h
    · rcases List.mem_append.mp h with h | h
      · exact absurd h (by decide)
      · exact htag h
    · exact absurd h (by decide)
  · obtain ⟨byte, -, hbyte⟩ := List.mem_map.mp h
    exact hsanitized byte hbyte

end Dashboard

import AsyncTaskEngine.LineFormat
import AsyncTaskEngine.LoggerDelivery
import Mathlib.Data.List.TakeWhile

/-!
# The default sink writes lines that can be read back

`default_sink` prints each entry as one line: the level, the microseconds of the
second, a short hash of the thread and the message.  The message is printed as a
C string, up to its first NUL, and nothing in it is escaped.

As long as no message contains a line break or a NUL, the text on `stderr`
determines these fields of every entry, the whole message included.
`default_sink_readable` says so for every run of the logger: the lines read back
are those of a prefix of the pushed entries, in their order, and of all of them
once the logger has been destroyed.
-/

namespace AsyncTaskEngine
namespace Logger

open LineFormat (decimal zeroPadded newline unlines lines value)

universe u

variable {ι : Type u}

/-- `to_string`. -/
def LogLevel.toText : LogLevel → List Char
  | .trace => "TRACE".toList
  | .debug => "DEBUG".toList
  | .info => "INFO ".toList
  | .warn => "WARN ".toList
  | .error => "ERROR".toList
  | .fatal => "FATAL".toList

/-- The character that ends a C string. -/
def nul : Char :=
  Char.ofNat 0

/-- The characters of `message.c_str()`, up to the first NUL. -/
def cStr (message : String) : List Char :=
  message.toList.takeWhile fun c => c != nul

/-- A message that is printed as a whole and in one line. -/
def OneLine (message : String) : Prop :=
  newline ∉ message.toList ∧ nul ∉ message.toList

instance (message : String) : Decidable (OneLine message) :=
  inferInstanceAs (Decidable (_ ∧ _))

/-- `elapsed % 1'000'000`; the clock counts nanoseconds. -/
def LogEntry.micros (entry : LogEntry ι) : Nat :=
  entry.timestamp / 1000 % 1000000

/-- What `default_sink` prints before the line break; `hash` is that of `std::thread::id`. -/
def sinkLine (hash : Caller ι → Nat) (entry : LogEntry ι) : List Char :=
  "[".toList ++ entry.level.toText ++ "] [".toList ++ zeroPadded 6 entry.micros ++
    "] [t:".toList ++ decimal (hash entry.threadId % 10000) ++ "] ".toList ++
      cStr entry.message

/-- What has been written to `stderr`. -/
def stderr (hash : Caller ι → Nat) (tr : List (Event ι)) : List Char :=
  unlines ((delivered tr).map (sinkLine hash))

/-- The fields of a line. -/
structure Line where
  level : LogLevel
  micros : Nat
  thread : Nat
  message : List Char
deriving DecidableEq

/-- The fields of an entry that its line is meant to show. -/
def LogEntry.line (hash : Caller ι → Nat) (entry : LogEntry ι) : Line where
  level := entry.level
  micros := entry.micros
  thread := hash entry.threadId % 10000
  message := entry.message.toList

/-- The level with this name. -/
def LogLevel.ofText? (text : List Char) : Option LogLevel :=
  [.trace, .debug, .info, .warn, .error, .fatal].find? fun level => level.toText == text

/-- Read the fields of a line, by their widths and by the end of the thread number. -/
def readLine (text : List Char) : Option Line :=
  (LogLevel.ofText? ((text.drop 1).take 5)).map fun level =>
    { level := level
      micros := value ((text.drop 9).take 6)
      thread := value ((text.drop 20).takeWhile Char.isDigit)
      message := ((text.drop 20).dropWhile Char.isDigit).drop 2 }

theorem LogLevel.length_toText (level : LogLevel) : level.toText.length = 5 := by
  cases level <;> rfl

theorem LogLevel.ofText?_toText (level : LogLevel) : ofText? level.toText = some level := by
  cases level <;> decide

theorem cStr_eq {message : String} (h : nul ∉ message.toList) :
    cStr message = message.toList := by
  refine List.takeWhile_eq_self_iff.mpr fun c hc => ?_
  rw [bne_iff_ne]
  rintro rfl
  exact h hc

/-- The fields of a line, with what stands between them. -/
theorem sinkLine_eq (hash : Caller ι → Nat) (entry : LogEntry ι) :
    sinkLine hash entry =
      '[' :: (entry.level.toText ++ ([']', ' ', '['] ++ (zeroPadded 6 entry.micros ++
        ([']', ' ', '[', 't', ':'] ++ (decimal (hash entry.threadId % 10000) ++
          ']' :: ' ' :: cStr entry.message))))) := by
  simp [sinkLine]

/-- A line is read back if its message holds no NUL. -/
theorem readLine_sinkLine (hash : Caller ι → Nat) {entry : LogEntry ι}
    (h : nul ∉ entry.message.toList) :
    readLine (sinkLine hash entry) = some (entry.line hash) := by
  have hlevel := entry.level.length_toText
  have hmicros : (zeroPadded 6 entry.micros).length = 6 :=
    LineFormat.length_zeroPadded (by decide) (Nat.mod_lt _ (by decide))
  have hdigits : ∀ c ∈ decimal (hash entry.threadId % 10000), c.isDigit = true :=
    fun _ hc => LineFormat.isDigit_of_mem_decimal hc
  have h1 : (sinkLine hash entry).drop 1 = entry.level.toText ++ ([']', ' ', '['] ++
      (zeroPadded 6 entry.micros ++ ([']', ' ', '[', 't', ':'] ++
        (decimal (hash entry.threadId % 10000) ++ ']' :: ' ' :: cStr entry.message)))) := by
    rw [sinkLine_eq]
    rfl
  have h9 : (sinkLine hash entry).drop 9 = zeroPadded 6 entry.micros ++
      ([']', ' ', '[', 't', ':'] ++
        (decimal (hash entry.threadId % 10000) ++ ']' :: ' ' :: cStr entry.message)) := by
    rw [show 9 = 1 + (5 + 3) from rfl, ← List.drop_drop, h1, ← List.drop_drop,
      List.drop_left' hlevel]
    rfl
  have h20 : (sinkLine hash entry).drop 20 =
      decimal (hash entry.threadId % 10000) ++ ']' :: ' ' :: cStr entry.message := by
    rw [show 20 = 9 + (6 + 5) from rfl, ← List.drop_drop, h9, ← List.drop_drop,
      List.drop_left' hmicros]
    rfl
  rw [readLine, h1, h9, h20, List.take_left' hlevel, List.take_left' hmicros,
    LogLevel.ofText?_toText, LineFormat.takeWhile_digits hdigits rfl,
    LineFormat.dropWhile_digits hdigits rfl, LineFormat.value_zeroPadded,
    LineFormat.value_decimal, cStr_eq h]
  rfl

/-- A line contains a line break only if its message does. -/
theorem newline_not_mem_sinkLine (hash : Caller ι → Nat) {entry : LogEntry ι}
    (h : newline ∉ entry.message.toList) : newline ∉ sinkLine hash entry := by
  have hlevel : newline ∉ entry.level.toText := by
    cases entry.level <;> decide
  have hmicros : newline ∉ zeroPadded 6 entry.micros :=
    LineFormat.newline_not_mem fun _ hc => LineFormat.isDigit_of_mem_zeroPadded hc
  have hthread : newline ∉ decimal (hash entry.threadId % 10000) :=
    LineFormat.newline_not_mem fun _ hc => LineFormat.isDigit_of_mem_decimal hc
  have hmessage : newline ∉ cStr entry.message :=
    fun hmem => h ((List.takeWhile_prefix _).subset hmem)
  have hseparators : newline ∉ ['[', ']', ' ', 't', ':'] := by decide
  simp only [List.mem_cons, not_or] at hseparators
  rw [sinkLine_eq]
  simp only [List.mem_cons, List.mem_append, hlevel, hmicros, hthread, hmessage,
    hseparators, or_self, not_false_iff]

variable [DecidableEq ι] [Fintype ι] {minLevel : LogLevel} {s : State ι}
variable {tr : List (Event ι)}

/-- What a reader of `stderr` learns about the entries. -/
structure Readable (hash : Caller ι → Nat) (tr : List (Event ι)) : Prop where
  /-- At every moment, the lines are those of the first entries that were pushed. -/
  inOrder : (lines (stderr hash tr)).map readLine <+:
    (pushed tr).map fun entry => some (entry.line hash)
  /-- After the destruction they are those of all entries. -/
  complete : ∀ t, .destroyed t ∈ tr → (lines (stderr hash tr)).map readLine =
    (pushed tr).map fun entry => some (entry.line hash)

omit [DecidableEq ι] [Fintype ι] in
/-- The lines of `stderr` are read back as the fields of the delivered entries. -/
theorem readLines_stderr (hash : Caller ι → Nat) (tr : List (Event ι))
    (h : ∀ entry ∈ delivered tr, OneLine entry.message) :
    (lines (stderr hash tr)).map readLine =
      (delivered tr).map fun entry => some (entry.line hash) := by
  have hlines : ∀ line ∈ (delivered tr).map (sinkLine hash), newline ∉ line := by
    intro line hmem
    obtain ⟨entry, hentry, rfl⟩ := List.mem_map.mp hmem
    exact newline_not_mem_sinkLine hash (h entry hentry).1
  rw [stderr, LineFormat.lines_unlines hlines, List.map_map]
  exact List.map_congr_left fun entry hmem => readLine_sinkLine hash (h entry hmem).2

/--
The lines on `stderr` are those of the pushed entries in the order of their
pushes, and can be read back if no message contains a line break or a NUL.
-/
theorem default_sink_readable (hash : Caller ι → Nat)
    (hr : (logger minLevel : Machine (State ι) _ _).Reach s tr)
    (hmessages : ∀ entry ∈ pushed tr, OneLine entry.message) : Readable hash tr := by
  have hflow := reach_flow hr
  have hclosing := reach_closing hr
  have hinit : delivered tr <+: pushed tr := ⟨s.drain.batch ++ s.queue, hflow.symm⟩
  have hread := readLines_stderr hash tr fun entry hmem =>
    hmessages entry (hinit.subset hmem)
  refine ⟨?_, fun t ht => ?_⟩
  · rw [hread]
    exact hinit.map _
  · have hd := hclosing.joined t ht
    rw [hread]
    rw [Flow, hd, (hclosing.exited hd).2] at hflow
    rw [hflow]
    simp [Drain.batch]

/-- The entry of a client and the entry that the sink logs meanwhile are read back. -/
theorem default_sink_readable_sinkLogs :
    ∃ (s : State (Fin 2)) (tr : List (Event (Fin 2))), (logger .info).Reach s tr ∧
      (pushed tr).map LogEntry.message = ["outer", "inner"] ∧
        (lines (stderr (fun _ => 40007) tr)).map readLine =
          (pushed tr).map fun entry => some (entry.line fun _ => 40007) := by
  obtain ⟨s, tr, hr, h⟩ :=
    Machine.exists_reach_of_exec (M := (logger .info : Machine (State (Fin 2)) _ _))
      ([.callLog 0 .info "outer", .log (.client 0) 1234567890, .log (.client 0) 0,
        .log (.client 0) 0, .drain, .drain, .drain, .sinkLog .warn "inner",
        .log .drain 2000001999, .log .drain 0, .log .drain 0, .drain, .drain, .drain,
        .destroy 1, .go 1, .go 1, .go 1, .drain, .drain, .drain, .drain, .drain, .drain,
        .go 1, .go 1, .go 1, .drain, .drain, .go 1] : List (Act (Fin 2)))
      (p := fun r => decide ((.destroyed 1 : Event (Fin 2)) ∈ r.2 ∧
        (pushed r.2).map LogEntry.message = ["outer", "inner"]))
      (by decide)
  obtain ⟨hdestroyed, hmessages⟩ := of_decide_eq_true h
  refine ⟨s, tr, hr, hmessages, (default_sink_readable _ hr ?_).complete 1 hdestroyed⟩
  intro entry hmem
  have hmessage := List.mem_map_of_mem (f := LogEntry.message) hmem
  rw [hmessages] at hmessage
  rcases List.mem_cons.mp hmessage with heq | hmessage
  · rw [heq]
    decide
  · rw [List.mem_singleton.mp hmessage]
    decide

end Logger
end AsyncTaskEngine

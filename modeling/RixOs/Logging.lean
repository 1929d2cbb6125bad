import RixOs.Handlers

/-! The lines of `logging.rs`.  `SimpleLogger::log` writes the level and the message of a record
between escape sequences that set and reset the colour.  A reader that takes the characters of the
serial port one at a time finds the records again, whatever text without escape characters stands
between them, and it finds no record before its line is complete. -/

namespace RixOs

def Level.color : Level → Nat
  | .error => 31
  | .warn => 93
  | .info => 34
  | .debug => 32
  | .trace => 90

def Level.asStr : Level → String
  | .error => "ERROR"
  | .warn => "WARN"
  | .info => "INFO"
  | .debug => "DEBUG"
  | .trace => "TRACE"

def escape : Char := '\x1b'

/-- The right-aligned format of width `width`. -/
def alignRight (width : Nat) (s : List Char) : List Char :=
  List.replicate (width - s.length) ' ' ++ s

def logHeader (level : Level) : List Char :=
  "[".toList ++ (toString level.color).toList ++ "m[".toList ++ alignRight 5 level.asStr.toList ++
    "] ".toList

/-- The end of a line, with the newline of `serial_println!`. -/
def logTrailer : List Char := "[0m\n".toList

def logLine (level : Level) (args : List Char) : List Char :=
  escape :: (logHeader level ++ args ++ escape :: logTrailer)

/-- What is printed at once: a log record, or other text. -/
inductive Message
  | log (level : Level) (args : List Char)
  | text (s : List Char)
  deriving DecidableEq

namespace Message

def chars : Message → List Char
  | .log level args => logLine level args
  | .text s => s

def record : Message → Option (Level × List Char)
  | .log level args => some (level, args)
  | .text _ => none

/-- What the message says has no escape characters. -/
def Plain : Message → Prop
  | .log _ args => escape ∉ args
  | .text s => escape ∉ s

end Message

/-! ### A reader of the serial port -/

inductive ReaderMode
  | text
  | header (seen : List Char)
  | args (level : Level) (seen : List Char)
  | trailer (level : Level) (args seen : List Char)
  deriving DecidableEq

/-- The records that were read, and where in a line the reader is. -/
structure Reader where
  records : List (Level × List Char)
  mode : ReaderMode
  deriving DecidableEq

def levelOf (header : List Char) : Option Level :=
  [.error, .warn, .info, .debug, .trace].find? fun level => logHeader level = header

namespace Reader

def read (r : Reader) (c : Char) : Reader :=
  match r.mode with
  | .text => if c = escape then { r with mode := .header [] } else r
  | .header seen =>
    if seen.length < 11 then { r with mode := .header (seen ++ [c]) }
    else match levelOf (seen ++ [c]) with
      | some level => { r with mode := .args level [] }
      | none => { r with mode := .text }
  | .args level seen =>
    if c = escape then { r with mode := .trailer level seen [] }
    else { r with mode := .args level (seen ++ [c]) }
  | .trailer level args seen =>
    if seen.length < 3 then { r with mode := .trailer level args (seen ++ [c]) }
    else if seen ++ [c] = logTrailer then ⟨r.records ++ [(level, args)], .text⟩
    else { r with mode := .text }

def readAll (r : Reader) (output : List Char) : Reader := output.foldl read r

variable {r : Reader} {records : List (Level × List Char)} {level : Level} {args s : List Char}

theorem readAll_append (r : Reader) (s s' : List Char) :
    r.readAll (s ++ s') = (r.readAll s).readAll s' := List.foldl_append

theorem readAll_cons (r : Reader) (c : Char) (s : List Char) :
    r.readAll (c :: s) = (r.read c).readAll s := rfl

theorem read_text (h : escape ∉ s) :
    readAll ⟨records, .text⟩ s = ⟨records, .text⟩ := by
  induction s with
  | nil => rfl
  | cons c s ih =>
    obtain ⟨hHead, hTail⟩ := not_or.mp (mt List.mem_cons.mpr h)
    have hRead : read ⟨records, .text⟩ c = ⟨records, .text⟩ := if_neg (Ne.symm hHead)
    rw [readAll_cons, hRead]
    exact ih hTail

theorem read_header : readAll ⟨records, .header []⟩ (logHeader level) = ⟨records, .args level []⟩ := by
  cases level <;> rfl

theorem read_args {seen : List Char} (h : escape ∉ args) :
    readAll ⟨records, .args level seen⟩ args = ⟨records, .args level (seen ++ args)⟩ := by
  induction args generalizing seen with
  | nil => rw [List.append_nil]; rfl
  | cons c args ih =>
    obtain ⟨hHead, hTail⟩ := not_or.mp (mt List.mem_cons.mpr h)
    have hRead : read ⟨records, .args level seen⟩ c = ⟨records, .args level (seen ++ [c])⟩ :=
      if_neg (Ne.symm hHead)
    rw [readAll_cons, hRead, List.append_cons seen c args]
    exact ih hTail

/-- A line up to its newline. -/
theorem read_line (h : escape ∉ args) :
    readAll ⟨records, .text⟩ (escape :: (logHeader level ++ args ++ escape :: "[0m".toList)) =
      ⟨records, .trailer level args "[0m".toList⟩ := by
  rw [readAll_cons, readAll_append, readAll_append, readAll_cons]
  rw [show read ⟨records, .text⟩ escape = ⟨records, .header []⟩ from rfl, read_header, read_args h]
  rfl

theorem logLine_eq (level : Level) (args : List Char) : logLine level args =
    escape :: (logHeader level ++ args ++ escape :: "[0m".toList) ++ ['\n'] := by
  simp [logLine, logTrailer]

theorem read_logLine (h : escape ∉ args) :
    readAll ⟨records, .text⟩ (logLine level args) = ⟨records ++ [(level, args)], .text⟩ := by
  rw [logLine_eq, readAll_append, read_line h]
  rfl

theorem read_records (r : Reader) (c : Char) : r.records <+: (r.read c).records := by
  unfold read
  split
  · split <;> exact List.prefix_refl _
  · split
    · exact List.prefix_refl _
    · split <;> exact List.prefix_refl _
  · split <;> exact List.prefix_refl _
  · split
    · exact List.prefix_refl _
    · split
      · exact List.prefix_append _ _
      · exact List.prefix_refl _

theorem readAll_records (r : Reader) (s : List Char) : r.records <+: (r.readAll s).records := by
  induction s generalizing r with
  | nil => exact List.prefix_refl _
  | cons c s ih => exact (read_records r c).trans (ih _)

/-- A message that is not complete gives no record. -/
theorem read_incomplete {m : Message} (h : m.Plain) {done todo : List Char}
    (hChars : m.chars = done ++ todo) (hTodo : todo ≠ []) :
    (readAll ⟨records, .text⟩ done).records = records := by
  cases m with
  | text s =>
    rw [read_text]
    intro hMem
    apply h
    rw [show s = done ++ todo from hChars]
    exact List.mem_append_left _ hMem
  | log level args =>
    -- The part that is there is a part of the line without its newline.
    obtain ⟨init, last, rfl⟩ : ∃ init last, todo = init ++ [last] :=
      ⟨_, _, (List.dropLast_append_getLast hTodo).symm⟩
    have hLine : escape :: (logHeader level ++ args ++ escape :: "[0m".toList) = done ++ init := by
      rw [← List.append_assoc, show (Message.log level args).chars = logLine level args from rfl,
        logLine_eq] at hChars
      exact (List.append_inj' hChars rfl).1
    have hBefore := readAll_records ⟨records, .text⟩ done
    have hAfter := readAll_records (readAll ⟨records, .text⟩ done) init
    rw [← readAll_append, ← hLine, read_line h] at hAfter
    exact (hBefore.eq_of_length_le hAfter.length_le).symm

theorem read_message {m : Message} (h : m.Plain) :
    readAll ⟨records, .text⟩ m.chars = ⟨records ++ m.record.toList, .text⟩ := by
  cases m with
  | log level args => exact read_logLine h
  | text s =>
    rw [Message.chars, read_text h]
    exact congrArg (Reader.mk · .text) (List.append_nil _).symm

theorem read_messages {ms : List Message} (h : ∀ m ∈ ms, m.Plain) :
    readAll ⟨records, .text⟩ (ms.flatMap Message.chars) =
      ⟨records ++ ms.filterMap Message.record, .text⟩ := by
  induction ms generalizing records with
  | nil => exact congrArg (Reader.mk · .text) (List.append_nil _).symm
  | cons m ms ih =>
    rw [List.flatMap_cons, readAll_append, read_message (h m List.mem_cons_self),
      ih fun m hm => h m (List.mem_cons_of_mem _ hm), List.append_assoc]
    cases hRecord : m.record with
    | none => rw [List.filterMap_cons_none hRecord]; rfl
    | some x => rw [List.filterMap_cons_some hRecord]; rfl

end Reader

/-- The records that a reader of the serial port finds. -/
def records (output : List Char) : List (Level × List Char) :=
  (Reader.readAll ⟨[], .text⟩ output).records

/-- A reader finds the records of the messages, in their order. -/
theorem records_messages {ms : List Message} (hPlain : ∀ m ∈ ms, m.Plain) :
    records (ms.flatMap Message.chars) = ms.filterMap Message.record := by
  rw [records, Reader.read_messages hPlain, List.nil_append]

/-- A message that is not complete changes nothing. -/
theorem records_incomplete {ms : List Message} {m : Message} {done todo : List Char}
    (hPlain : ∀ m ∈ ms, m.Plain) (h : m.Plain) (hChars : m.chars = done ++ todo)
    (hTodo : todo ≠ []) :
    records (ms.flatMap Message.chars ++ done) = ms.filterMap Message.record := by
  rw [records, Reader.readAll_append, Reader.read_messages hPlain, List.nil_append,
    Reader.read_incomplete h hChars hTodo]

end RixOs

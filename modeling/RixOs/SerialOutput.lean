import RixOs.Preemption
import RixOs.Logging
import RixOs.ProofKit.Atomicity

/-! What the kernel prints.  The handlers and the calls are given with their texts, and a message is
put on its port one character at a time.  Whatever interrupts and switches come, the characters on
the serial port and on the console are whole messages, one after the other, and a first part of the
message that the running thread is printing; and a reader of the serial port finds exactly the
records that were logged. -/

namespace RixOs

open ProofKit ProofKit.Interrupts

/-! ### The code with its texts -/

inductive TextAct
  | write (l : Lock) (message : Message)
  | other (a : Act)

abbrev TextCode := List (Interrupts.Instr Lock TextAct)

/-- Code that prints nothing. -/
def silent (code : Code) : TextCode := code.map (Instr.map .other)

def printMessage (l : Lock) (message : Message) : TextCode :=
  withoutInterrupts (locked l [.act (.write l message)])

def logMessage (maxLevel : Option Level) (level : Level) (args : List Char) : TextCode :=
  if level.enabled maxLevel then printMessage .serial (.log level args) else []

/-- What is set before interrupts are enabled: the maximal level, and how the machine shuts down. -/
structure Settings where
  maxLevel : Option Level
  useQemuFallback : Bool

namespace Settings

variable (s : Settings)

def shutdown : TextCode :=
  locked .acpiShutdown (logMessage s.maxLevel .debug
    (if s.useQemuFallback then "Using QEMU debug exit for shutdown"
      else "Using ACPI S5 sleep for shutdown").toList ++ silent [.act .powerOff])

def keyboardInterruptHandler (scancode : UInt8) : TextCode :=
  logMessage s.maxLevel .warn ("Keyboard scancode: " ++ toString scancode).toList ++
    (if scancode = 28 then s.shutdown else []) ++ silent endInterrupts

def lapicErrorHandler : TextCode :=
  logMessage s.maxLevel .warn "LAPIC ERROR interrupt received".toList ++ silent endInterrupts

def spuriousInterruptHandler : TextCode :=
  logMessage s.maxLevel .debug "Spurious interrupt received".toList

def interruptHandler : Interrupt → TextCode
  | .timer => silent timerInterruptHandler
  | .keyboard scancode => s.keyboardInterruptHandler scancode
  | .lapicError => s.lapicErrorHandler
  | .spurious => s.spuriousInterruptHandler

def enableInterrupts : TextCode :=
  logMessage s.maxLevel .debug "Enabling interrupts".toList ++ silent [.sti] ++
    logMessage s.maxLevel .debug "Interrupts enabled".toList

end Settings

/-- `Call`, with what it prints. -/
inductive TextCall
  | print (s : List Char)
  | serialPrint (s : List Char)
  | log (level : Level) (args : List Char)
  | currentTid
  | currentPid
  | spawnThread (pid entryFn ptr : UInt64)
  | markThreadExited (tid : UInt64)
  | compute (cpu : Cpu) (mem : Memory)
  | withoutInterrupts (body : TextCall)
  | seq (first second : TextCall)

namespace TextCall

def forget : TextCall → Call
  | .print _ => .print
  | .serialPrint _ => .serialPrint
  | .log level _ => .log level
  | .currentTid => .currentTid
  | .currentPid => .currentPid
  | .spawnThread pid entryFn ptr => .spawnThread pid entryFn ptr
  | .markThreadExited tid => .markThreadExited tid
  | .compute cpu mem => .compute cpu mem
  | .withoutInterrupts body => .withoutInterrupts body.forget
  | .seq first second => .seq first.forget second.forget

def code (maxLevel : Option Level) : TextCall → TextCode
  | .print s => printMessage .console (.text s)
  | .serialPrint s => printMessage .serial (.text s)
  | .log level args => logMessage maxLevel level args
  | .withoutInterrupts body => Interrupts.withoutInterrupts (body.code maxLevel)
  | .seq first second => first.code maxLevel ++ second.code maxLevel
  | .currentTid => silent (Call.currentTid.code maxLevel)
  | .currentPid => silent (Call.currentPid.code maxLevel)
  | .spawnThread pid entryFn ptr => silent ((Call.spawnThread pid entryFn ptr).code maxLevel)
  | .markThreadExited tid => silent ((Call.markThreadExited tid).code maxLevel)
  | .compute cpu mem => silent ((Call.compute cpu mem).code maxLevel)

end TextCall

/-! ### The machine -/

/-- The shared state, and what stands on the serial port and on the console. -/
structure Printed where
  shared : Shared
  output : Lock → List Char

namespace Printed

def put (p : Printed) (l : Lock) (s : List Char) : Printed :=
  { p with output := Function.update p.output l (p.output l ++ s) }

def exec (p : Printed) (i : Nat) : TextAct → Option Printed
  | .write l message => some (p.put l message.chars)
  | .other a => (p.shared.exec i a).map fun shared => { p with shared }

def contextSwitch (p : Printed) (i : Nat) : Printed × Nat :=
  ({ p with shared := (p.shared.contextSwitch i).1 }, (p.shared.contextSwitch i).2)

end Printed

/-- The program with its texts, each message put out as a whole. -/
def textProgram (s : Settings) : Program Lock TextAct Printed Interrupt TextCall where
  act a i p := p.exec i a
  switch := Printed.contextSwitch
  count p := p.shared.kernel.sched.threads.length
  start := silent threadTrampoline
  handler := s.interruptHandler
  call := TextCall.code s.maxLevel

/-- One character of a message, or an action that prints nothing. -/
inductive PutAct
  | put (l : Lock) (c : Char)
  | other (a : Act)

def TextAct.pieces : TextAct → List PutAct
  | .write l message => message.chars.map (.put l)
  | .other a => [.other a]

def PutAct.exec : PutAct → Nat → Printed → Option Printed
  | .put l c, _, p => some (p.put l [c])
  | .other a, i, p => p.exec i (.other a)

/-- The program that puts the messages out one character at a time. -/
def putProgram (s : Settings) : Program Lock PutAct Printed Interrupt TextCall :=
  (textProgram s).expand TextAct.pieces PutAct.exec

/-! ### The texts forgotten -/

def TextAct.forget : TextAct → Act
  | .write _ _ => .write
  | .other a => a

theorem forget_silent (code : Code) : (silent code).map (Instr.map TextAct.forget) = code := by
  rw [silent, List.map_map]
  refine (List.map_congr_left fun instr _ => ?_).trans (List.map_id code)
  cases instr <;> rfl

theorem forget_logMessage (maxLevel : Option Level) (level : Level) (args : List Char) :
    (logMessage maxLevel level args).map (Instr.map TextAct.forget) = log maxLevel level := by
  unfold logMessage log
  split <;> rfl

theorem forget_interruptHandler (s : Settings) (i : Interrupt) :
    (s.interruptHandler i).map (Instr.map TextAct.forget) = interruptHandler s.maxLevel i := by
  have hShutdown : s.shutdown.map (Instr.map TextAct.forget) = shutdown s.maxLevel := by
    rw [Settings.shutdown, locked, List.map_cons, List.map_append, List.map_append,
      forget_logMessage, forget_silent]
    rfl
  cases i with
  | timer => exact forget_silent _
  | keyboard scancode =>
    rw [Settings.interruptHandler, Settings.keyboardInterruptHandler, List.map_append,
      List.map_append, forget_logMessage, forget_silent, interruptHandler,
      keyboardInterruptHandler]
    split
    · rw [hShutdown]
    · rfl
  | lapicError =>
    rw [Settings.interruptHandler, Settings.lapicErrorHandler, List.map_append, forget_logMessage,
      forget_silent, interruptHandler, lapicErrorHandler]
  | spurious => exact forget_logMessage _ _ _

theorem forget_call (maxLevel : Option Level) (c : TextCall) :
    (c.code maxLevel).map (Instr.map TextAct.forget) = c.forget.code maxLevel := by
  induction c with
  | print | serialPrint => rfl
  | log level args => exact forget_logMessage _ _ _
  | withoutInterrupts body ih =>
    rw [TextCall.code, Interrupts.withoutInterrupts, List.map_cons, List.map_cons, List.map_append,
      ih]
    rfl
  | seq first second ihFirst ihSecond =>
    rw [TextCall.code, List.map_append, ihFirst, ihSecond]
    rfl
  | _ => exact forget_silent _

/-- Without its texts, the program is that of the threads and interrupts. -/
theorem textProgram_forgets (s : Settings) : Forgets TextAct.forget Printed.shared TextCall.forget
    (textProgram s) (program s.maxLevel) where
  act a i p := by
    cases a with
    | write => rfl
    | other a =>
      show p.shared.exec i a = ((p.shared.exec i a).map _).map _
      rw [Option.map_map]
      exact Option.map_id'.symm
  switch p i := rfl
  count p := rfl
  start := (forget_silent _).symm
  handler i := (forget_interruptHandler s i).symm
  call c := (forget_call s.maxLevel c).symm

/-! ### Messages are put out with interrupts disabled -/

theorem runPieces_put (i : Nat) (p : Printed) (l : Lock) (s : List Char) :
    runPieces PutAct.exec i p (s.map (.put l)) = some (p.put l s) := by
  induction s generalizing p with
  | nil => simp [runPieces, Printed.put]
  | cons c s ih =>
    rw [List.map_cons, runPieces]
    show runPieces PutAct.exec i (p.put l [c]) _ = _
    rw [ih]
    simp [Printed.put]

theorem textProgram_splits (s : Settings) :
    Splits TextAct.pieces (textProgram s) PutAct.exec where
  runs a i p := by
    cases a with
    | other a =>
      show p.exec i (.other a) = (p.exec i (.other a)).bind _
      cases p.exec i (.other a) <;> rfl
    | write l message => exact (runPieces_put i p l message.chars).symm
  count a hLength b hb i p p' hExec := by
    cases a with
    | other a => exact absurd rfl hLength
    | write l message =>
      obtain ⟨c, -, rfl⟩ := List.mem_map.mp hb
      obtain rfl := Option.some.inj hExec
      rfl

section Sealing

variable {flag : Bool}

theorem seals_printMessage (l : Lock) (message : Message) :
    Seals (isSplit TextAct.pieces) flag (printMessage l message) :=
  .withoutInterrupts (.locked l (.act fun _ => rfl))

theorem seals_logMessage (maxLevel : Option Level) (level : Level) (args : List Char) :
    Seals (isSplit TextAct.pieces) flag (logMessage maxLevel level args) := by
  unfold logMessage
  split
  · exact seals_printMessage _ _
  · exact .nil

theorem seals_other (a : Act) : Seals (isSplit TextAct.pieces) flag (silent [.act a]) :=
  .act fun h => by cases h

theorem seals_locked (l : Lock) (a : Act) :
    Seals (isSplit TextAct.pieces) flag (silent (locked l [.act a])) := .locked l (seals_other a)

theorem seals_interruptHandler (s : Settings) (i : Interrupt) :
    Seals (isSplit TextAct.pieces) false (s.interruptHandler i) := by
  cases i with
  | timer =>
    refine (seals_locked .lapic .endInterrupts).append ?_
    exact (seals_locked .scheduler .prepareSwitch).append fun _ _ hRest => ⟨fun _ => rfl, hRest⟩
  | keyboard scancode =>
    refine ((seals_logMessage _ _ _).append ?_).append (seals_locked _ _)
    split
    · exact .locked _ ((seals_logMessage _ _ _).append (seals_other _))
    · exact .nil
  | lapicError => exact (seals_logMessage _ _ _).append (seals_locked _ _)
  | spurious => exact seals_logMessage _ _ _

theorem seals_call (maxLevel : Option Level) (c : TextCall) :
    Seals (isSplit TextAct.pieces) flag (c.code maxLevel) := by
  induction c generalizing flag with
  | print | serialPrint => exact seals_printMessage _ _
  | log level args => exact seals_logMessage _ _ _
  | currentTid | currentPid | markThreadExited => exact seals_locked _ _
  | spawnThread pid entryFn ptr => exact (seals_other _).append (seals_locked _ _)
  | compute cpu mem => exact seals_other _
  | withoutInterrupts body ih => exact .withoutInterrupts ih
  | seq first second ihFirst ihSecond => exact ihFirst.append ihSecond

theorem textProgram_sealing (s : Settings) :
    Sealing (isSplit TextAct.pieces) (textProgram s) where
  handler := seals_interruptHandler s
  call c _ := seals_call s.maxLevel c
  start := ⟨by simp [Instr.isMasked], trivial⟩
  switch p i := by
    show (p.shared.contextSwitch i).1.kernel.sched.threads.length ≤ _
    rw [(Shared.contextSwitch_keeps p.shared i).2.2.1]
    exact Nat.le_refl _

end Sealing

/-! ### Runs -/

/-- What an action prints on `l`. -/
def TextAct.messagesOn (l : Lock) : TextAct → List Message
  | .write l' message => if l' = l then [message] else []
  | .other _ => []

namespace Config

variable (c : Config)

def settings : Settings := ⟨c.maxLevel, c.acpiShutdown.useQemuFallback⟩

/-- The machine at the call of `enable_interrupts`; what was printed before is left out. -/
def textStart (k : Kernel) : Interrupts.Machine Lock TextAct Printed where
  shared := ⟨(c.start k).shared, fun _ => []⟩
  running := 0
  interruptFlag := false
  holder := fun _ => none
  threads := ⟨c.settings.enableInterrupts, []⟩ ::
    List.replicate (k.sched.threads.length - 1) ⟨silent threadTrampoline, []⟩

def putStart (k : Kernel) : Interrupts.Machine Lock PutAct Printed :=
  (c.textStart k).expand TextAct.pieces

variable {c} {k : Kernel} {labels : List (Interrupts.Label Interrupt TextCall)}
  {q : Interrupts.Machine Lock PutAct Printed}

theorem textStart_forget (c : Config) (k : Kernel) :
    (c.textStart k).map TextAct.forget Printed.shared = c.start k := by
  have hIdle : c.settings.enableInterrupts.map (Instr.map TextAct.forget) =
      enableInterrupts c.maxLevel := by
    rw [Settings.enableInterrupts, List.map_append, List.map_append, forget_logMessage,
      forget_logMessage, forget_silent]
    rfl
  simp only [textStart, start, Machine.map, Thread.map, List.map_cons, List.map_replicate, hIdle,
    forget_silent]

theorem textStart_sealed (hInit : Kernel.init c.boot = .ok k) :
    Sealed (isSplit TextAct.pieces) (textProgram c.settings) (c.textStart k) := by
  refine ⟨fun t ht => ?_, fun i t hi ht => ?_, ?_⟩
  · obtain rfl := Option.some.inj ht
    show Masks _ c.settings.enableInterrupts false []
    rw [Settings.enableInterrupts, List.append_assoc]
    refine seals_logMessage _ _ _ _ _ ⟨by simp [Instr.isMasked], ?_⟩
    rw [← List.append_nil (logMessage _ _ _)]
    exact seals_logMessage _ _ _ _ _ trivial
  · obtain ⟨j, rfl⟩ := Nat.exists_eq_succ_of_ne_zero hi
    obtain ⟨-, rfl⟩ := List.mem_replicate.mp (List.mem_of_getElem? ht)
    exact ⟨by simp [Instr.isMasked], trivial⟩
  · have hLength := (start_typed hInit).length
    rw [← textStart_forget, Machine.map, List.length_map] at hLength
    exact Nat.le_of_eq hLength.symm

/-- What stands on `l` when the running thread is in the middle of a message. -/
theorem within_output {m : Interrupts.Machine Lock TextAct Printed}
    (h : Within TextAct.pieces PutAct.exec m q) (l : Lock) :
    q.shared.shared = m.shared.shared ∧ q.running = m.running ∧
      ∃ done, q.shared.output l = m.shared.output l ++ done ∧
        (done ≠ [] → ∃ message todo, m.next = some (.act (.write l message)) ∧
          message.chars = done ++ todo ∧ todo ≠ [] ∧ q.interruptFlag = false) := by
  rcases h with rfl | ⟨a, code, flags, done, todo, hThread, hPieces, hDone, hTodo, hFlag, p, hRun, rfl⟩
  · exact ⟨rfl, rfl, [], (List.append_nil _).symm, fun h => absurd rfl h⟩
  · cases a with
    | other a =>
      have hLength := congrArg List.length hPieces
      have hDone' := List.length_pos_of_ne_nil hDone
      have hTodo' := List.length_pos_of_ne_nil hTodo
      simp only [TextAct.pieces, List.length_singleton, List.length_append] at hLength
      omega
    | write l' message =>
      obtain ⟨first, rest, hChars, rfl, rfl⟩ := List.map_eq_append_iff.mp hPieces
      rw [runPieces_put] at hRun
      obtain rfl := Option.some.inj hRun
      refine ⟨rfl, rfl, ?_⟩
      by_cases hl : l = l'
      · subst hl
        refine ⟨first, Function.update_self .., fun _ => ⟨message, rest,
          Machine.next_of_thread hThread, hChars, fun hNil => hTodo (by rw [hNil]; rfl), hFlag⟩⟩
      · refine ⟨[], ?_, fun h => absurd rfl h⟩
        rw [List.append_nil]
        exact Function.update_of_ne hl _ _

theorem text_output {m : Interrupts.Machine Lock TextAct Printed}
    {labels : List (Interrupts.Label Interrupt TextCall)}
    (run : Run (textProgram c.settings).Step (c.textStart k) labels m) (l : Lock) :
    m.shared.output l = (emitted (TextAct.messagesOn l) (textProgram c.settings) (c.textStart k)
      labels).flatMap Message.chars := by
  have hAct : ∀ (a : TextAct) (i : Nat) (p p' : Printed), p.exec i a = some p' →
      p'.output l = p.output l ++ (a.messagesOn l).flatMap Message.chars := by
    intro a i p p' hExec
    cases a with
    | write l' message =>
      obtain rfl := Option.some.inj hExec
      show Function.update p.output l' _ l = _
      by_cases hl : l' = l
      · subst hl
        simp [TextAct.messagesOn]
      · rw [Function.update_of_ne (Ne.symm hl)]
        simp [TextAct.messagesOn, hl]
    | other a =>
      obtain ⟨shared, -, rfl⟩ := Option.map_eq_some_iff.mp hExec
      exact (List.append_nil _).symm
  have hEmitted := emitted_run hAct (fun _ _ => rfl) run
  rw [emitted_flatMap] at hEmitted
  exact hEmitted.trans (List.nil_append _)

theorem evaluate_put {α : Type} {f : Interrupts.Machine Lock PutAct Printed → α} {v : α}
    (h : (do
      let k ← (Kernel.init c.boot).toOption
      Run.execChecked (putProgram c.settings).exec (fun _ _ => true) (c.putStart k) labels).map f =
        some v) :
    ∃ k q, Kernel.init c.boot = .ok k ∧
      Run (putProgram c.settings).Step (c.putStart k) labels q ∧ f q = v := by
  obtain ⟨q, hEval, hValue⟩ := Option.map_eq_some_iff.mp h
  obtain ⟨k, hInit, hRun⟩ := Option.bind_eq_some_iff.mp hEval
  refine ⟨k, q, Panic.toOption_eq_some hInit, ?_, hValue⟩
  exact (Run.execChecked_run hRun).mono fun _ _ _ step => step.2

def sampleInfo : Config := { sample with maxLevel := some .info }

/-- The idle thread logs a message, which is done after 25 instructions. -/
def sampleRecord (n : Nat) : List (Interrupts.Label Interrupt TextCall) :=
  .instr :: .call (.log .info ['o', 'k']) :: List.replicate n .instr

end Config

/-! ### What a reader finds -/

/-- What the action prints on the serial port has no escape characters, and the level of a log record
is enabled. -/
def TextAct.Plain (maxLevel : Option Level) (a : TextAct) : Prop :=
  ∀ message ∈ a.messagesOn .serial, message.Plain ∧
    ∀ r, message.record = some r → r.1.enabled maxLevel = true

/-- What a call prints on the serial port has no escape characters. -/
def TextCall.Plain : TextCall → Prop
  | .serialPrint s | .log _ s => escape ∉ s
  | .withoutInterrupts body => body.Plain
  | .seq first second => first.Plain ∧ second.Plain
  | _ => True

def PlainCode (maxLevel : Option Level) (code : TextCode) : Prop :=
  ∀ a, .act a ∈ code → a.Plain maxLevel

section PlainCode

variable {maxLevel : Option Level} {code code' : TextCode}

theorem PlainCode.append (h : PlainCode maxLevel code) (h' : PlainCode maxLevel code') :
    PlainCode maxLevel (code ++ code') := by
  intro a ha
  exact (List.mem_append.mp ha).elim (h a) (h' a)

theorem PlainCode.locked (h : PlainCode maxLevel code) (l : Lock) :
    PlainCode maxLevel (locked l code) := by
  intro a ha
  exact h a (by simpa [Interrupts.locked] using ha)

theorem PlainCode.withoutInterrupts (h : PlainCode maxLevel code) :
    PlainCode maxLevel (withoutInterrupts code) := by
  intro a ha
  exact h a (by simpa [Interrupts.withoutInterrupts] using ha)

theorem plainCode_nil : PlainCode maxLevel [] := by
  intro a ha
  cases ha

theorem plainCode_silent (code : Code) : PlainCode maxLevel (silent code) := by
  intro a ha
  obtain ⟨instr, -, hInstr⟩ := List.mem_map.mp ha
  cases instr with
  | act b =>
    injection hInstr with hAct
    subst hAct
    intro message hMem
    cases hMem
  | _ => cases hInstr

theorem plainCode_printMessage {l : Lock} {message : Message}
    (h : l = .serial → message.Plain ∧ ∀ r, message.record = some r → r.1.enabled maxLevel = true) :
    PlainCode maxLevel (printMessage l message) := by
  apply PlainCode.withoutInterrupts
  apply PlainCode.locked
  intro a ha message' hMem
  obtain rfl : a = .write l message := by simpa using ha
  by_cases hl : l = .serial
  · rw [TextAct.messagesOn, if_pos hl] at hMem
    obtain rfl := List.mem_singleton.mp hMem
    exact h hl
  · rw [TextAct.messagesOn, if_neg hl] at hMem
    cases hMem

theorem plainCode_logMessage {level : Level} {args : List Char} (h : escape ∉ args) :
    PlainCode maxLevel (logMessage maxLevel level args) := by
  unfold logMessage
  split
  · rename_i hEnabled
    refine plainCode_printMessage fun _ => ⟨h, fun r hr => ?_⟩
    obtain rfl := Option.some.inj hr
    exact hEnabled
  · exact plainCode_nil

theorem escape_notMem_toString (n : Nat) : escape ∉ (toString n).toList := by
  intro h
  have hDigit : escape.isDigit := by
    apply Nat.isDigit_of_mem_toDigits (b := 10) (n := n) (by decide) (by decide)
    simpa [toString, Nat.repr] using h
  cases hDigit

theorem plainCode_interruptHandler (s : Settings) (i : Interrupt) :
    PlainCode s.maxLevel (s.interruptHandler i) := by
  cases i with
  | timer => exact plainCode_silent _
  | keyboard scancode =>
    refine PlainCode.append (.append (plainCode_logMessage ?_) ?_) (plainCode_silent _)
    · rw [String.toList_append]
      intro hMem
      rcases List.mem_append.mp hMem with hText | hNumber
      · revert hText
        decide
      · exact escape_notMem_toString scancode.toNat hNumber
    · split
      · refine PlainCode.locked (.append (plainCode_logMessage ?_) (plainCode_silent _)) _
        split <;> decide
      · exact plainCode_nil
  | lapicError => exact .append (plainCode_logMessage (by decide)) (plainCode_silent _)
  | spurious => exact plainCode_logMessage (by decide)

theorem plainCode_call {c : TextCall} (h : c.Plain) : PlainCode maxLevel (c.code maxLevel) := by
  induction c with
  | print s => exact plainCode_printMessage fun hl => by cases hl
  | serialPrint s => exact plainCode_printMessage fun _ => ⟨h, fun r hr => by cases hr⟩
  | log level args => exact plainCode_logMessage h
  | withoutInterrupts body ih => exact .withoutInterrupts (ih h)
  | seq first second ihFirst ihSecond => exact .append (ihFirst h.1) (ihSecond h.2)
  | _ => exact plainCode_silent _

end PlainCode

namespace Config

variable {c : Config} {k : Kernel} {labels : List (Interrupts.Label Interrupt TextCall)}
  {q : Interrupts.Machine Lock PutAct Printed}

theorem textStart_plain (c : Config) (k : Kernel) :
    (c.textStart k).Actions (TextAct.Plain c.maxLevel) := by
  intro t ht
  rcases List.mem_cons.mp ht with rfl | hMem
  · have hLog : ∀ args : List Char, escape ∉ args →
        PlainCode c.maxLevel (logMessage c.maxLevel .debug args) := fun _ => plainCode_logMessage
    show PlainCode c.maxLevel c.settings.enableInterrupts
    exact .append (.append (hLog _ (by decide)) (plainCode_silent _)) (hLog _ (by decide))
  · obtain ⟨-, rfl⟩ := List.mem_replicate.mp hMem
    exact plainCode_silent _

end Config

end RixOs

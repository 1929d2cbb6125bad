import RixOs.Preemption
import RixOs.ProofKit.Exceptions

/-! The exceptions of `interrupts.rs`.  They are taken at any instruction of the machine of threads
and interrupts, also with interrupts disabled and in the handler of another exception.  Their
handlers print, and return or halt.  An exception is invisible where the locks that its handler takes
are free, as they are whenever interrupts are enabled; where the code that it interrupts holds one of
them, the handler spins, and the machine stops. -/

namespace RixOs

open ProofKit ProofKit.Interrupts

/-- The exceptions that the IDT has a handler for. -/
inductive Exception
  | divideByZero
  | debug
  | nonMaskableInterrupt
  | overflow
  | boundRangeExceeded
  | invalidOpcode
  | deviceNotAvailable
  | x87FloatingPoint
  | simdFloatingPoint
  | virtualization
  | breakpoint
  | invalidTss
  | segmentNotPresent
  | stackSegmentFault
  | generalProtectionFault
  | alignmentCheck
  | securityException
  | doubleFault
  | machineCheck
  | pageFault
  deriving DecidableEq

/-- A handler of `simple_handlers!`. -/
def simpleHandler : Code := serialPrint

/-- A handler of `error_code_handlers!`. -/
def errorCodeHandler : Code := serialPrint

def pageFaultHandler : Code := serialPrint

def breakpointHandler : Code := consolePrint ++ serialPrint

/-- Up to the loop of `hlt`. -/
def doubleFaultHandler : Code := serialPrint

/-- Up to the loop of `hlt`. -/
def machineCheckHandler : Code := serialPrint

def exceptionHandler : Exception → Code
  | .divideByZero | .debug | .nonMaskableInterrupt | .overflow | .boundRangeExceeded
  | .invalidOpcode | .deviceNotAvailable | .x87FloatingPoint | .simdFloatingPoint
  | .virtualization => simpleHandler
  | .invalidTss | .segmentNotPresent | .stackSegmentFault | .generalProtectionFault
  | .alignmentCheck | .securityException => errorCodeHandler
  | .doubleFault => doubleFaultHandler
  | .machineCheck => machineCheckHandler
  | .pageFault => pageFaultHandler
  | .breakpoint => breakpointHandler

def Exception.returns : Exception → Bool
  | .doubleFault | .machineCheck => false
  | _ => true

/-- The locks that the handlers take, with what they do while they hold them. -/
def exceptions : Exceptions Lock Act Exception where
  bodies
    | .breakpoint => [(.console, .write), (.serial, .write)]
    | _ => [(.serial, .write)]
  returns := Exception.returns

theorem exceptions_code (e : Exception) (rest : Code) :
    exceptions.code e rest = exceptionHandler e ++ if e.returns then .iret :: rest else [] := by
  cases e <;> rfl

theorem exceptions_locks (e : Exception) : ∀ body ∈ exceptions.bodies e, body.1 ≠ .scheduler := by
  cases e <;> decide

theorem exceptions_silent (maxLevel : Option Level) : exceptions.Silent (program maxLevel) := by
  intro e body hBody i s
  have hWrite : body.2 = .write := by
    cases e with
    | breakpoint =>
      rcases List.mem_cons.mp hBody with rfl | hBody
      · rfl
      · obtain rfl := List.mem_singleton.mp hBody
        rfl
    | _ =>
      obtain rfl := List.mem_singleton.mp hBody
      rfl
  rw [hWrite]
  rfl

namespace Config

variable {c : Config} {k : Kernel} {labels : List Label} {m m' : Machine}
  {events : List (Occurrence Interrupt Call Exception)} {s : Interrupted Lock Act Shared} {e : Exception}

theorem Reaches.ready (h : c.Reaches labels m) : exceptions.Ready (program c.maxLevel) m := by
  refine ⟨Nat.le_of_eq h.typed.length.symm, fun e body hBody => ?_⟩
  obtain ⟨held, hHolder, -⟩ := h.inv.running
  rw [hHolder body.1 (by simpa using exceptions_locks e body hBody)]
  split
  · exact .inr rfl
  · exact .inl rfl

/-- `events` lead the machine, with exceptions anywhere among them, to `s`. -/
def Endures (c : Config) (events : List (Occurrence Interrupt Call Exception))
    (s : Interrupted Lock Act Shared) : Prop :=
  ∃ k, Kernel.init c.boot = .ok k ∧
    Run (exceptions.Step (program c.maxLevel)) ⟨c.start k, false⟩ events s

theorem Endures.survives (h : c.Endures events s) :
    ∃ k, Kernel.init c.boot = .ok k ∧ Survives (program c.maxLevel) (c.start k) events s := by
  obtain ⟨k, hInit, run⟩ := h
  refine ⟨k, hInit, survives_run (exceptions_silent c.maxLevel) (fun labels m hRun => ?_) run⟩
  exact Reaches.ready ⟨k, hInit, hRun⟩

/-- What computes to a value is reached. -/
theorem endures_of_evaluate {α : Type} {f : Interrupted Lock Act Shared → α} {v : α}
    (h : (do
      let k ← (Kernel.init c.boot).toOption
      Run.execChecked (exceptions.exec (program c.maxLevel)) (fun _ _ => true) ⟨c.start k, false⟩
        events).map f = some v) : ∃ s, c.Endures events s ∧ f s = v := by
  obtain ⟨s, hEval, hValue⟩ := Option.map_eq_some_iff.mp h
  obtain ⟨k, hInit, hRun⟩ := Option.bind_eq_some_iff.mp hEval
  refine ⟨s, ⟨k, Panic.toOption_eq_some hInit, ?_⟩, hValue⟩
  exact (Run.execChecked_run hRun).mono fun _ _ _ step => step.2

/-- The idle thread prints on the console; it has just taken `CONSOLE`. -/
def samplePrint : List (Occurrence Interrupt Call Exception) :=
  List.replicate 13 (.step .instr) ++ .step (.call .print) :: List.replicate 3 (.step .instr)

/-- A page fault comes there, and an NMI before its handler has taken `SERIAL`. -/
def sampleNested : List (Occurrence Interrupt Call Exception) :=
  samplePrint ++ [.exception .pageFault, .step .instr, .exception .nonMaskableInterrupt]

end Config

end RixOs

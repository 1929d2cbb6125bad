import RixOs.Kernel
import RixOs.ProofKit.Interrupts

/-! The locks of the kernel on one processor: the interrupt handlers of `interrupts.rs`, printing,
logging and `acpi::shutdown`, and the scheduler functions, as code over the locks that they take and
the interrupt flag.  A machine starts at `enable_interrupts`, with the threads of
`scheduler::init`. -/

namespace RixOs

open ProofKit ProofKit.Interrupts

/-- The spin locks `SERIAL`, `CONSOLE`, `LAPIC`, `ACPI_SHUTDOWN` and `SCHEDULER`. -/
inductive Lock
  | serial
  | console
  | lapic
  | acpiShutdown
  | scheduler
  deriving DecidableEq, Repr

inductive Act
  | write
  | endInterrupts
  | powerOff
  | prepareSwitch
  /-- `ThreadControlBlock::new`, with the kernel stack at `ptr`. -/
  | newThread (pid entryFn ptr : UInt64)
  | addThread
  | markExited (tid : UInt64)
  | currentTid
  | currentPid
  /-- Instructions of a thread that leave the registers and the memory as given. -/
  | compute (cpu : Cpu) (mem : Memory)

abbrev Code := List (Interrupts.Instr Lock Act)

/-! ### Printing and logging -/

/-- `serial::_print` and `console::_print`, which differ in their lock. -/
def lockedPrint (l : Lock) : Code := withoutInterrupts (locked l [.act .write])

def serialPrint : Code := lockedPrint .serial

def consolePrint : Code := lockedPrint .console

inductive Level
  | error
  | warn
  | info
  | debug
  | trace
  deriving DecidableEq, Repr

/-- The levels that a maximal level, `none` for `Off`, lets through. -/
def Level.enabled (maxLevel : Option Level) (level : Level) : Bool :=
  match maxLevel with
  | none => false
  | some max => level.ctorIdx ≤ max.ctorIdx

/-- A log macro: `SimpleLogger::log` prints to the serial port. -/
def log (maxLevel : Option Level) (level : Level) : Code :=
  if level.enabled maxLevel then serialPrint else []

/-! ### Interrupt handlers -/

/-- `LAPIC.get().unwrap().lock().end_interrupts()` -/
def endInterrupts : Code := locked .lapic [.act .endInterrupts]

/-- The scheduler lock is released before `context_switch`. -/
def tickCode : Code := locked .scheduler [.act .prepareSwitch] ++ [.switch]

def timerInterruptHandler : Code := endInterrupts ++ tickCode

/-- `acpi::shutdown`: the guard of `ACPI_SHUTDOWN` lives to the end of the function. -/
def shutdown (maxLevel : Option Level) : Code :=
  locked .acpiShutdown (log maxLevel .debug ++ [.act .powerOff])

def keyboardInterruptHandler (maxLevel : Option Level) (scancode : UInt8) : Code :=
  log maxLevel .warn ++ (if scancode = 28 then shutdown maxLevel else []) ++ endInterrupts

def lapicErrorHandler (maxLevel : Option Level) : Code := log maxLevel .warn ++ endInterrupts

def spuriousInterruptHandler (maxLevel : Option Level) : Code := log maxLevel .debug

inductive Interrupt
  | timer
  | keyboard (scancode : UInt8)
  | lapicError
  | spurious

def interruptHandler (maxLevel : Option Level) : Interrupt → Code
  | .timer => timerInterruptHandler
  | .keyboard scancode => keyboardInterruptHandler maxLevel scancode
  | .lapicError => lapicErrorHandler maxLevel
  | .spurious => spuriousInterruptHandler maxLevel

def enableInterrupts (maxLevel : Option Level) : Code :=
  log maxLevel .debug ++ [.sti] ++ log maxLevel .debug

/-- `thread_trampoline`, up to the call of the entry function. -/
def threadTrampoline : Code := [.sti]

/-! ### Thread code -/

/-- What a thread does: a call into the kernel, instructions of its own, or a combination of
these. -/
inductive Call
  | print
  | serialPrint
  | log (level : Level)
  | currentTid
  | currentPid
  | spawnThread (pid entryFn ptr : UInt64)
  | markThreadExited (tid : UInt64)
  | compute (cpu : Cpu) (mem : Memory)
  | withoutInterrupts (body : Call)
  | seq (first second : Call)

def Call.code (maxLevel : Option Level) : Call → Code
  | .print => consolePrint
  | .serialPrint => RixOs.serialPrint
  | .log level => RixOs.log maxLevel level
  | .currentTid => locked .scheduler [.act .currentTid]
  | .currentPid => locked .scheduler [.act .currentPid]
  | .spawnThread pid entryFn ptr =>
    .act (.newThread pid entryFn ptr) :: locked .scheduler [.act .addThread]
  | .markThreadExited tid => locked .scheduler [.act (.markExited tid)]
  | .compute cpu mem => [.act (.compute cpu mem)]
  | .withoutInterrupts body => Interrupts.withoutInterrupts (body.code maxLevel)
  | .seq first second => first.code maxLevel ++ second.code maxLevel

/-! ### The shared state -/

structure AcpiShutdown where
  pm1aControlBlock : UInt64
  slpTypA : UInt16
  slpLen : UInt16
  useQemuFallback : Bool

def AcpiShutdown.portWrite (info : AcpiShutdown) : UInt16 × UInt32 :=
  if info.useQemuFallback then (0xf4, 0x10)
  else (info.pm1aControlBlock.toUInt16, (info.slpTypA ||| info.slpLen).toUInt32)

/-- What a thread keeps on its stack: the result of `prepare_switch` in `tick`, the new block in
`spawn_thread`, and the value that the last call returned. -/
structure Locals where
  switchInfo : Option (Nat × Nat)
  tcb : Option ThreadControlBlock
  result : Option UInt64

structure Shared where
  kernel : Kernel
  acpiShutdown : AcpiShutdown
  portWrites : List (UInt16 × UInt32)
  locals : Nat → Locals

namespace Shared

def setLocals (s : Shared) (i : Nat) (locals : Locals) : Shared :=
  { s with locals := Function.update s.locals i locals }

@[simp] theorem setLocals_kernel (s : Shared) (i : Nat) (locals : Locals) :
    (s.setLocals i locals).kernel = s.kernel := rfl

@[simp] theorem setLocals_self (s : Shared) (i : Nat) (locals : Locals) :
    (s.setLocals i locals).locals i = locals := Function.update_self ..

/-- An action of thread `i`; `none` is a panic. -/
def exec (s : Shared) (i : Nat) : Act → Option Shared
  | .write => some s
  | .endInterrupts => some s
  | .powerOff => some { s with portWrites := s.portWrites ++ [s.acpiShutdown.portWrite] }
  | .prepareSwitch => do
    let (switchInfo, sched) ← s.kernel.sched.prepareSwitch.toOption
    let s := { s with kernel := { s.kernel with sched } }
    return s.setLocals i { s.locals i with switchInfo }
  | .newThread pid entryFn ptr =>
    let (tcb, kernel) := s.kernel.newThread pid entryFn ptr
    let s := { s with kernel }
    some (s.setLocals i { s.locals i with tcb := some tcb, result := some tcb.tid })
  | .addThread => do
    let tcb ← (s.locals i).tcb
    return { s with kernel := s.kernel.addThread tcb }
  | .markExited tid => some { s with kernel := s.kernel.markThreadExited tid }
  | .currentTid => do
    let tid ← s.kernel.currentTid.toOption
    return s.setLocals i { s.locals i with result := some tid }
  | .currentPid => do
    let pid ← s.kernel.currentPid.toOption
    return s.setLocals i { s.locals i with result := some pid }
  | .compute cpu mem => some { s with kernel := { s.kernel with cpu, mem } }

/-- The end of `tick` on thread `i`: `context_switch`, if `prepare_switch` found a thread. -/
def contextSwitch (s : Shared) (i : Nat) : Shared × Nat :=
  match (s.locals i).switchInfo with
  | some (oldCtx, newCtx) => ({ s with kernel := s.kernel.contextSwitch oldCtx newCtx }, newCtx)
  | none => (s, i)

end Shared

/-! ### The machine -/

abbrev Machine := Interrupts.Machine Lock Act Shared

abbrev Label := Interrupts.Label Interrupt Call

def program (maxLevel : Option Level) : Program Lock Act Shared Interrupt Call where
  act a i s := s.exec i a
  switch := Shared.contextSwitch
  count s := s.kernel.sched.threads.length
  start := threadTrampoline
  handler := interruptHandler maxLevel
  call := Call.code maxLevel

/-- What the machine starts from: the boot of the scheduler, the registers and the memory at the
call of `enable_interrupts`, and what `logging::init` and `acpi::init` have set. -/
structure Config where
  boot : Boot
  cpu : Cpu
  mem : Memory
  maxLevel : Option Level
  acpiShutdown : AcpiShutdown

/-! ### Code that is not interrupted -/

section Alone

variable {maxLevel : Option Level} {m : Machine} {code : Code} {flags : List Bool}

/-- A tick that finds `SCHEDULER` free is `tick`. -/
theorem tick_alone {k : Kernel}
    (hThread : m.threads[m.running]? = some ⟨tickCode ++ code, flags⟩)
    (hFree : m.holder .scheduler = none) (hTick : m.shared.kernel.tick = .ok k) :
    ∃ m', Run (program maxLevel).Step m [.instr, .instr, .instr, .instr] m' ∧
      m'.shared.kernel = k ∧ m'.holder = m.holder := by
  obtain ⟨⟨switchInfo, sched⟩, hPrepare, hTick⟩ := Panic.bind_eq_ok hTick
  have hAct : m.shared.exec m.running .prepareSwitch = some
      (Shared.setLocals { m.shared with kernel := { m.shared.kernel with sched } } m.running
        { m.shared.locals m.running with switchInfo }) := by
    rw [Shared.exec, hPrepare]
    rfl
  rw [tickCode, List.append_assoc] at hThread
  obtain ⟨m₁, hLocked, hAdvances, hShared, hHolder₁⟩ :=
    locked_run (P := program maxLevel) hThread hFree hAct
  obtain ⟨m₂, hSwitch, hPair, -, hHolder₂⟩ :=
    switch_step (P := program maxLevel) hAdvances.thread
  refine ⟨m₂, hLocked.append (.single hSwitch), ?_, by rw [hHolder₂, hHolder₁]⟩
  rw [hAdvances.running, hShared] at hPair
  have hKernel : m₂.shared.kernel = (Shared.contextSwitch _ m.running).1.kernel :=
    congrArg (fun p => p.1.kernel) hPair
  rw [hKernel, Shared.contextSwitch, Shared.setLocals_self]
  match switchInfo, hTick with
  | some (oldCtx, newCtx), hTick => exact Except.ok.inj hTick
  | none, hTick => exact Except.ok.inj hTick

/-- `spawn_thread` that finds `SCHEDULER` free. -/
theorem spawnThread_alone {pid entryFn ptr : UInt64}
    (hThread : m.threads[m.running]? =
      some ⟨(Call.spawnThread pid entryFn ptr).code maxLevel ++ code, flags⟩)
    (hFree : m.holder .scheduler = none) :
    ∃ m', Run (program maxLevel).Step m [.instr, .instr, .instr, .instr] m' ∧
      m'.shared.kernel = (m.shared.kernel.spawnThread pid entryFn ptr).2 ∧
      (m'.shared.locals m.running).result =
        some (m.shared.kernel.spawnThread pid entryFn ptr).1 ∧ m'.holder = m.holder := by
  obtain ⟨m₁, hNew, hAdvances, hShared, hHolder₁⟩ :=
    act_step (P := program maxLevel) hThread rfl
  have hAct : m₁.shared.exec m₁.running .addThread = some
      { m₁.shared with
        kernel := (m.shared.kernel.newThread pid entryFn ptr).2.addThread
          (m.shared.kernel.newThread pid entryFn ptr).1 } := by
    rw [hShared, hAdvances.running, Shared.exec, Shared.setLocals_self]
    rfl
  obtain ⟨m₂, hAdd, -, hShared₂, hHolder₂⟩ :=
    locked_run (P := program maxLevel) hAdvances.thread (by rw [hHolder₁, hFree]) hAct
  refine ⟨m₂, .cons hNew hAdd, by rw [hShared₂]; rfl, ?_, by rw [hHolder₂, hHolder₁]⟩
  rw [hShared₂]
  show (m₁.shared.locals m.running).result = _
  rw [hShared, Shared.setLocals_self]
  rfl

end Alone

namespace Config

/-- `kernel_main` on the idle thread calls `enable_interrupts`, with interrupts disabled and all
locks free; `k` is what `scheduler::init` left. -/
def start (c : Config) (k : Kernel) : Machine where
  shared :=
    { kernel := { k with cpu := c.cpu, mem := c.mem }
      acpiShutdown := c.acpiShutdown
      portWrites := []
      locals := fun _ => ⟨none, none, none⟩ }
  running := 0
  interruptFlag := false
  holder := fun _ => none
  threads := ⟨enableInterrupts c.maxLevel, []⟩ ::
    List.replicate (k.sched.threads.length - 1) ⟨threadTrampoline, []⟩

def Reaches (c : Config) (labels : List Label) (m : Machine) : Prop :=
  ∃ k, Kernel.init c.boot = .ok k ∧ Run (program c.maxLevel).Step (c.start k) labels m

/-! ### Evaluation -/

def evaluate (c : Config) (check : Machine → Label → Bool) (labels : List Label) :
    Option Machine := do
  Run.execChecked (program c.maxLevel).exec check (c.start (← (Kernel.init c.boot).toOption)) labels

theorem evaluate_run {α : Type} {c : Config} {check : Machine → Label → Bool} {labels : List Label}
    {f : Machine → α} {v : α} (h : (c.evaluate check labels).map f = some v) :
    ∃ k m, Kernel.init c.boot = .ok k ∧
      Run (fun m label m' => check m label = true ∧ (program c.maxLevel).Step m label m')
        (c.start k) labels m ∧ f m = v := by
  obtain ⟨m, hEval, hValue⟩ := Option.map_eq_some_iff.mp h
  rw [evaluate, Option.bind_eq_bind, Option.bind_eq_some_iff] at hEval
  obtain ⟨k, hInit, hRun⟩ := hEval
  exact ⟨k, m, Panic.toOption_eq_some hInit, Run.execChecked_run hRun, hValue⟩

theorem evaluate_reaches {α : Type} {c : Config} {labels : List Label} {f : Machine → α} {v : α}
    (h : (c.evaluate (fun _ _ => true) labels).map f = some v) :
    ∃ m, c.Reaches labels m ∧ f m = v := by
  obtain ⟨k, m, hInit, run, hValue⟩ := evaluate_run h
  exact ⟨m, ⟨k, hInit, run.mono fun _ _ _ step => step.2⟩, hValue⟩

end Config

end RixOs

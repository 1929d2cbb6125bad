import RixOs.Process

/-! The kernel: registers and memory, `context_switch`, the thread operations of `scheduler.rs`,
the process operations of `process.rs`, and `scheduler::init`.  An `Event` is one call of these,
from start to return, or a stretch of instructions of the running thread. -/

namespace RixOs

open ProofKit

/-- Memory: the 64-bit word at each address. -/
abbrev Memory := UInt64 → UInt64

namespace Memory

def write (mem : Memory) (addr value : UInt64) : Memory := Function.update mem addr value

/-- `*ptr.add(i) = words[i]`, for each `i` in order. -/
def writeWords (mem : Memory) (ptr : UInt64) : List UInt64 → Memory
  | [] => mem
  | word :: words => (mem.write ptr word).writeWords (ptr + 8) words

/-- Zeroed memory from the allocator: the words at `len` addresses from `ptr` on. -/
def zeroed (mem : Memory) (ptr len : UInt64) : Memory :=
  fun addr => if addr - ptr < len then 0 else mem addr

end Memory

inductive Reg
  | rbx
  | rbp
  | r12
  | r13
  | r14
  | r15
  deriving DecidableEq, Repr

structure Cpu where
  regs : Reg → UInt64
  rsp : UInt64
  rip : UInt64

/-- The addresses that the linker gives to the functions the scheduler names. -/
structure Image where
  threadTrampoline : UInt64
  demoTaskA : UInt64
  demoTaskB : UInt64

structure Kernel where
  table : ProcessTable
  sched : Scheduler
  nextTid : UInt64
  cpu : Cpu
  mem : Memory
  cr3 : UInt64
  image : Image

/-! ### `context_switch` -/

/-- The instructions of `context_switch`, with `rdi` the context of the old thread and `rsi` the
context of the new one. -/
inductive Instr
  | push (r : Reg)
  /-- `mov [rdi], rsp` -/
  | storeRsp
  /-- `mov rsp, [rsi]` -/
  | loadRsp
  | pop (r : Reg)
  | ret
  deriving DecidableEq, Repr

def contextSwitchCode : List Instr :=
  [.push .rbx, .push .rbp, .push .r12, .push .r13, .push .r14, .push .r15,
    .storeRsp, .loadRsp,
    .pop .r15, .pop .r14, .pop .r13, .pop .r12, .pop .rbp, .pop .rbx, .ret]

namespace Kernel

def contextRsp (k : Kernel) (idx : Nat) : UInt64 :=
  match k.sched.threads[idx]? with
  | some tcb => tcb.context.rsp
  | none => 0

def step (old new : Nat) (k : Kernel) : Instr → Kernel
  | .push r =>
    let rsp := k.cpu.rsp - 8
    { k with cpu := { k.cpu with rsp }, mem := k.mem.write rsp (k.cpu.regs r) }
  | .storeRsp => { k with sched := k.sched.saveContext old k.cpu.rsp }
  | .loadRsp => { k with cpu := { k.cpu with rsp := k.contextRsp new } }
  | .pop r =>
    { k with cpu := { k.cpu with
        regs := Function.update k.cpu.regs r (k.mem k.cpu.rsp), rsp := k.cpu.rsp + 8 } }
  | .ret => { k with cpu := { k.cpu with rip := k.mem k.cpu.rsp, rsp := k.cpu.rsp + 8 } }

def contextSwitch (k : Kernel) (old new : Nat) : Kernel := contextSwitchCode.foldl (step old new) k

/-! ### `scheduler.rs` -/

def kernelStackSize : UInt64 := 4096 * 4

def stackTop (ptr : UInt64) : UInt64 := (ptr + kernelStackSize) &&& ~~~0xF

/-- The words that `context_switch` pops on the first switch to a thread, from the lowest address
up: `r15`, `r14`, `r13`, `r12`, `rbp`, `rbx` and the return address. -/
def initialFrame (image : Image) (entryFn : UInt64) : List UInt64 :=
  [0, 0, 0, entryFn, 0, 0, image.threadTrampoline]

/-- `ThreadControlBlock::new`.  The allocator places the kernel stack at `ptr`. -/
def newThread (k : Kernel) (pid entryFn ptr : UInt64) : ThreadControlBlock × Kernel :=
  let tid := k.nextTid
  let mem := k.mem.zeroed ptr kernelStackSize
  let rsp := stackTop ptr - 7 * 8
  let mem := mem.writeWords rsp (initialFrame k.image entryFn)
  ({ tid, pid, state := .ready, context := ⟨rsp⟩, kernelStack := ⟨ptr, kernelStackSize⟩ },
    { k with nextTid := k.nextTid + 1, mem })

def addThread (k : Kernel) (tcb : ThreadControlBlock) : Kernel :=
  { k with sched := k.sched.addThread tcb }

def spawnThread (k : Kernel) (pid entryFn ptr : UInt64) : UInt64 × Kernel :=
  let (tcb, k) := k.newThread pid entryFn ptr
  (tcb.tid, k.addThread tcb)

def markThreadExited (k : Kernel) (tid : UInt64) : Kernel :=
  { k with sched := k.sched.markExited tid }

def currentTid (k : Kernel) : Except Panic UInt64 := k.sched.currentTid

def currentPid (k : Kernel) : Except Panic UInt64 := k.sched.currentPid

def tick (k : Kernel) : Except Panic Kernel := do
  let (switchInfo, sched) ← k.sched.prepareSwitch
  let k := { k with sched }
  match switchInfo with
  | some (oldCtx, newCtx) => return k.contextSwitch oldCtx newCtx
  | none => return k

/-! ### `process.rs` -/

def newProcess (pid : UInt64) (name : String) (pageTable : UInt64) : ProcessControlBlock where
  pid := pid
  name := name
  state := .running
  parentPid := if pid = 0 then none else some 0
  threads := []
  exitCode := none
  pageTable := pageTable

/-- The first block of `create_process`, under the lock of the process table. -/
def insertProcess (k : Kernel) (name : String) : Except Panic (UInt64 × Kernel) := do
  let (pid, table) ← k.table.allocPid
  return (pid, { k with table := table.insert (newProcess pid name k.cr3) })

/-- The last block of `create_process`: the TID is recorded in the process. -/
def recordThread (k : Kernel) (pid tid : UInt64) : Kernel :=
  { k with table := k.table.getMut pid fun pcb => { pcb with threads := pcb.threads ++ [tid] } }

def createProcess (k : Kernel) (name : String) (entryFn ptr : UInt64) :
    Except Panic (UInt64 × Kernel) := do
  let (pid, k) ← k.insertProcess name
  let (tid, k) := k.spawnThread pid entryFn ptr
  return (pid, k.recordThread pid tid)

/-- The first block of `exit_process`: `none` is its early return. -/
def markZombie (k : Kernel) (pid : UInt64) (exitCode : Int32) : Option (List UInt64) × Kernel :=
  match k.table.get pid with
  | some pcb =>
    (some pcb.threads, { k with table := k.table.getMut pid fun pcb =>
      { pcb with state := .zombie, exitCode := some exitCode } })
  | none => (none, k)

def exitProcess (k : Kernel) (pid : UInt64) (exitCode : Int32) : Kernel :=
  match k.markZombie pid exitCode with
  | (some threadIds, k) => threadIds.foldl markThreadExited k
  | (none, k) => k

end Kernel

/-! ### Events and `scheduler::init` -/

/-- A complete call, or a stretch of instructions of the running thread that leaves the registers
and the memory as given. -/
inductive Event
  | tick
  | spawnThread (pid entryFn ptr : UInt64)
  | markThreadExited (tid : UInt64)
  | createProcess (name : String) (entryFn ptr : UInt64)
  | exitProcess (pid : UInt64) (exitCode : Int32)
  | run (cpu : Cpu) (mem : Memory)

/-- What `scheduler::init` finds: the registers, the memory, the page table, the linked image, and
the places where the allocator puts the stacks of the two demo threads. -/
structure Boot where
  image : Image
  cpu : Cpu
  mem : Memory
  cr3 : UInt64
  stackA : UInt64
  stackB : UInt64

namespace Kernel

def exec (k : Kernel) : Event → Except Panic Kernel
  | .tick => k.tick
  | .spawnThread pid entryFn ptr => .ok (k.spawnThread pid entryFn ptr).2
  | .markThreadExited tid => .ok (k.markThreadExited tid)
  | .createProcess name entryFn ptr => return (← k.createProcess name entryFn ptr).2
  | .exitProcess pid exitCode => .ok (k.exitProcess pid exitCode)
  | .run cpu mem => .ok { k with cpu, mem }

def Step (k : Kernel) (e : Event) (k' : Kernel) : Prop := k.exec e = .ok k'

def boot (b : Boot) : Kernel where
  table := .new
  sched := .new
  nextTid := 1
  cpu := b.cpu
  mem := b.mem
  cr3 := b.cr3
  image := b.image

/-- The idle thread: the boot context, with no stack of its own. -/
def idleThread : ThreadControlBlock where
  tid := 0
  pid := 0
  state := .running
  context := .empty
  kernelStack := ⟨1, 0⟩

/-- The first two blocks of `scheduler::init`: the kernel process and its idle thread. -/
def initIdle (b : Boot) : Except Panic Kernel := do
  let k := boot b
  let (pid, table) ← k.table.allocPid
  let pcb : ProcessControlBlock :=
    { pid, name := "kernel", state := .running, parentPid := none, threads := [0],
      exitCode := none, pageTable := k.cr3 }
  return { k with table := table.insert pcb, sched := k.sched.addThread idleThread }

def init (b : Boot) : Except Panic Kernel := do
  let k ← initIdle b
  let (_, k) ← k.createProcess "demo_a" b.image.demoTaskA b.stackA
  let (_, k) ← k.createProcess "demo_b" b.image.demoTaskB b.stackB
  return k

def Reaches (b : Boot) (es : List Event) (k : Kernel) : Prop :=
  ∃ k₀, init b = .ok k₀ ∧ Run Step k₀ es k

/-! ### Equations of the functions -/

@[simp] theorem contextSwitch_sched (k : Kernel) (old new : Nat) :
    (k.contextSwitch old new).sched =
      k.sched.saveContext old (k.cpu.rsp - 8 - 8 - 8 - 8 - 8 - 8) := by
  simp only [contextSwitch, contextSwitchCode, List.foldl_cons, List.foldl_nil, step]

theorem contextSwitch_unchanged {α : Type} (f : Kernel → α) (old new : Nat)
    (h : ∀ k i, f (step old new k i) = f k) (k : Kernel) : f (k.contextSwitch old new) = f k := by
  unfold contextSwitch
  induction contextSwitchCode generalizing k with
  | nil => rfl
  | cons i code ih => rw [List.foldl_cons, ih, h]

@[simp] theorem contextSwitch_table (k : Kernel) (old new : Nat) :
    (k.contextSwitch old new).table = k.table :=
  contextSwitch_unchanged Kernel.table old new (fun _ i => by cases i <;> rfl) k

@[simp] theorem contextSwitch_nextTid (k : Kernel) (old new : Nat) :
    (k.contextSwitch old new).nextTid = k.nextTid :=
  contextSwitch_unchanged Kernel.nextTid old new (fun _ i => by cases i <;> rfl) k

@[simp] theorem contextSwitch_image (k : Kernel) (old new : Nat) :
    (k.contextSwitch old new).image = k.image :=
  contextSwitch_unchanged Kernel.image old new (fun _ i => by cases i <;> rfl) k

theorem tick_eq {k : Kernel} (hCurrent : k.sched.current < k.sched.threads.length) :
    k.tick = .ok (match k.sched.nextReady with
      | none => k
      | some next =>
        contextSwitch { k with sched := k.sched.switchTo next } k.sched.current next) := by
  rw [tick, Scheduler.prepareSwitch_eq hCurrent]
  cases k.sched.nextReady <;> rfl

theorem exec_tick {k k' : Kernel} (hCurrent : k.sched.current < k.sched.threads.length)
    (h : k.exec .tick = .ok k') :
    k.sched.nextReady = none ∧ k' = k ∨ ∃ next, k.sched.nextReady = some next ∧
      k' = contextSwitch { k with sched := k.sched.switchTo next } k.sched.current next := by
  have hEq := Except.ok.inj ((tick_eq hCurrent).symm.trans h)
  match hNext : k.sched.nextReady with
  | none => exact .inl ⟨rfl, by rw [← hEq, hNext]⟩
  | some next => exact .inr ⟨next, rfl, by rw [← hEq, hNext]⟩

theorem createProcess_ok {k k' : Kernel} {name : String} {entryFn ptr pid : UInt64}
    (h : k.createProcess name entryFn ptr = .ok (pid, k')) :
    ∃ k₁, k.insertProcess name = .ok (pid, k₁) ∧
      k' = (k₁.spawnThread pid entryFn ptr).2.recordThread pid
        (k₁.spawnThread pid entryFn ptr).1 := by
  obtain ⟨⟨pid', k₁⟩, hInsert, hRest⟩ := Panic.bind_eq_ok h
  obtain ⟨rfl, rfl⟩ := Prod.mk.inj (Except.ok.inj hRest)
  exact ⟨k₁, hInsert, rfl⟩

theorem exec_createProcess {k k' : Kernel} {name : String} {entryFn ptr : UInt64}
    (h : k.exec (.createProcess name entryFn ptr) = .ok k') :
    ∃ pid, k.createProcess name entryFn ptr = .ok (pid, k') := by
  obtain ⟨⟨pid, k₁⟩, hCreate, hRest⟩ := Panic.bind_eq_ok h
  obtain rfl := Except.ok.inj hRest
  exact ⟨pid, hCreate⟩

theorem insertProcess_ok {k k' : Kernel} {name : String} {pid : UInt64}
    (h : k.insertProcess name = .ok (pid, k')) :
    pid = k.table.nextPid ∧ k.table.nextPid.toNat + 1 < 2 ^ 64 ∧
      k' = { k with
        table := ProcessTable.insert ⟨k.table.processes, k.table.nextPid + 1⟩
          (newProcess pid name k.cr3) } := by
  rw [insertProcess, ProcessTable.allocPid] at h
  split at h
  · rename_i hRoom
    cases h
    exact ⟨rfl, hRoom, rfl⟩
  · cases h

theorem foldl_markThreadExited (tids : List UInt64) (k : Kernel) :
    tids.foldl markThreadExited k =
      { k with sched := tids.foldl Scheduler.markExited k.sched } := by
  induction tids generalizing k with
  | nil => rfl
  | cons tid tids ih => exact ih (k.markThreadExited tid)

theorem exitProcess_none {k : Kernel} {pid : UInt64} (hGet : k.table.get pid = none)
    (exitCode : Int32) : k.exitProcess pid exitCode = k := by
  simp only [exitProcess, markZombie, hGet]

theorem exitProcess_some {k : Kernel} {pid : UInt64} {pcb : ProcessControlBlock}
    (hGet : k.table.get pid = some pcb) (exitCode : Int32) :
    k.exitProcess pid exitCode =
      { k with
        table := k.table.getMut pid fun pcb =>
          { pcb with state := .zombie, exitCode := some exitCode }
        sched := pcb.threads.foldl Scheduler.markExited k.sched } := by
  simp only [exitProcess, markZombie, hGet, foldl_markThreadExited]

theorem init_ok {b : Boot} {k : Kernel} (h : init b = .ok k) :
    ∃ k₀, initIdle b = .ok k₀ ∧ Run Step k₀
      [.createProcess "demo_a" b.image.demoTaskA b.stackA,
        .createProcess "demo_b" b.image.demoTaskB b.stackB] k := by
  obtain ⟨k₀, hIdle, h⟩ := Panic.bind_eq_ok h
  obtain ⟨⟨pidA, k₁⟩, hA, h⟩ := Panic.bind_eq_ok h
  obtain ⟨⟨pidB, k₂⟩, hB, h⟩ := Panic.bind_eq_ok h
  obtain rfl := Except.ok.inj h
  refine ⟨k₀, hIdle, .cons (t := k₁) ?_ (.single ?_)⟩
  · rw [Step, exec, hA]
    rfl
  · rw [Step, exec, hB]
    rfl

theorem Reaches.fromIdle {b : Boot} {es : List Event} {k : Kernel} (h : Reaches b es k) :
    ∃ k₀, initIdle b = .ok k₀ ∧ Run Step k₀
      (.createProcess "demo_a" b.image.demoTaskA b.stackA ::
        .createProcess "demo_b" b.image.demoTaskB b.stackB :: es) k := by
  obtain ⟨k₁, hInit, run⟩ := h
  obtain ⟨k₀, hIdle, first⟩ := init_ok hInit
  exact ⟨k₀, hIdle, first.append run⟩

/-! ### Evaluation -/

def execAll (k : Kernel) (es : List Event) : Except Panic Kernel := Run.execAll exec k es

theorem execAll_run {k k' : Kernel} {es : List Event} (h : k.execAll es = .ok k') :
    Run Step k es k' := Run.execAll_ok_iff.mp h

theorem run_execAll {k k' : Kernel} {es : List Event} (run : Run Step k es k') :
    k.execAll es = .ok k' := Run.execAll_ok_iff.mpr run

def evaluate (b : Boot) (es : List Event) : Except Panic Kernel := do (← init b).execAll es

theorem Reaches.evaluate {b : Boot} {es : List Event} {k : Kernel} (h : Reaches b es k) :
    Kernel.evaluate b es = .ok k := by
  obtain ⟨k₀, hInit, run⟩ := h
  rw [Kernel.evaluate, hInit]
  exact run_execAll run

theorem Reaches.unique {b : Boot} {es : List Event} {k k' : Kernel} (h : Reaches b es k)
    (h' : Reaches b es k') : k = k' :=
  Except.ok.inj (h.evaluate.symm.trans h'.evaluate)

theorem evaluate_reaches {α : Type} (b : Boot) (es : List Event) (f : Kernel → α) (v : α)
    (h : (evaluate b es).toOption.map f = some v) : ∃ k, Reaches b es k ∧ f k = v := by
  obtain ⟨k, hOk, hValue⟩ := Option.map_eq_some_iff.mp h
  obtain ⟨k₀, hInit, hAll⟩ := Panic.bind_eq_ok (Panic.toOption_eq_some hOk)
  exact ⟨k, ⟨k₀, hInit, execAll_run hAll⟩, hValue⟩

def sampleBoot : Boot where
  image := ⟨0x1000, 0x2000, 0x3000⟩
  cpu := ⟨fun _ => 0, 0x9000, 0x400⟩
  mem := fun _ => 0
  cr3 := 0x5000
  stackA := 0x100003
  stackB := 0x200001

end Kernel

end RixOs

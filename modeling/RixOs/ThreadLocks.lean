import RixOs.Preemption
import RixOs.ProofKit.Extension
import RixOs.ProofKit.Ownership

/-! The two locks that only threads take: `PROCESS_TABLE` and the lock of the heap.  They are taken
with interrupts enabled, so a thread may be preempted while it holds them, and marked Exited.

The machine extends the one of threads and interrupts.  `create_process` is a call of
`insertProcess`, of `spawnThread` and of `recordThread`; `exit_process` is a call of `markZombie`
and one of `mark_thread_exited` for each TID.  Threads make these calls in any order and with any
arguments. -/

namespace RixOs

open ProofKit ProofKit.Interrupts

inductive ThreadLock
  | kernel (l : Lock)
  | processTable
  | heap
  deriving DecidableEq, Repr

inductive ThreadAct
  | kernel (a : Act)
  | insertProcess (name : String)
  | recordThread (pid tid : UInt64)
  | markZombie (pid : UInt64) (exitCode : Int32)
  /-- The allocator at work. -/
  | heap

abbrev ThreadCode := List (Interrupts.Instr ThreadLock ThreadAct)

def threadCode (code : Code) : ThreadCode := code.map (Instr.lift .kernel .kernel)

/-- A call of the allocator. -/
def heapCall : ThreadCode := locked .heap [.act .heap]

def heapCallIf (needed : Bool) : ThreadCode := if needed then heapCall else []

def Call.spawns : Call → Bool
  | .spawnThread _ _ _ => true
  | .withoutInterrupts body => body.spawns
  | .seq first second => first.spawns || second.spawns
  | _ => false

/-- The calls of threads.  Whether a vector grows and whether a map needs a node depends on what is
in them; the last argument says it. -/
inductive ThreadCall
  | plain (c : Call) (noSpawn : c.spawns = false)
  | spawnThread (pid entryFn ptr : UInt64) (grows : Bool)
  | insertProcess (name : String) (allocates : Bool)
  | recordThread (pid tid : UInt64) (grows : Bool)
  | markZombie (pid : UInt64) (exitCode : Int32) (clones : Bool)
  /-- A thread allocates or frees memory of its own. -/
  | heap

def ThreadCall.code (maxLevel : Option Level) : ThreadCall → ThreadCode
  | .plain c _ => threadCode (c.code maxLevel)
  | .spawnThread pid entryFn ptr grows =>
    heapCall ++ .act (.kernel (.newThread pid entryFn ptr)) ::
      locked (.kernel .scheduler) (heapCallIf grows ++ [.act (.kernel .addThread)])
  | .insertProcess name allocates =>
    locked .processTable (.act (.insertProcess name) :: heapCallIf allocates)
  | .recordThread pid tid grows =>
    locked .processTable (heapCallIf grows ++ [.act (.recordThread pid tid)])
  | .markZombie pid exitCode clones =>
    locked .processTable (.act (.markZombie pid exitCode) :: heapCallIf clones)
  | .heap => heapCall

def Shared.execThread (s : Shared) (i : Nat) : ThreadAct → Option Shared
  | .kernel a => s.exec i a
  | .insertProcess name => do
    let (_, kernel) ← (s.kernel.insertProcess name).toOption
    return { s with kernel }
  | .recordThread pid tid => some { s with kernel := s.kernel.recordThread pid tid }
  | .markZombie pid exitCode => some { s with kernel := (s.kernel.markZombie pid exitCode).2 }
  | .heap => some s

abbrev ThreadMachine := Interrupts.Machine ThreadLock ThreadAct Shared

abbrev ThreadLabel := Interrupts.Label Interrupt ThreadCall

def threadProgram (maxLevel : Option Level) :
    Program ThreadLock ThreadAct Shared Interrupt ThreadCall where
  act a i s := s.execThread i a
  switch := Shared.contextSwitch
  count s := s.kernel.sched.threads.length
  start := threadCode threadTrampoline
  handler i := threadCode (interruptHandler maxLevel i)
  call := ThreadCall.code maxLevel

namespace Config

def startThreads (c : Config) (k : Kernel) : ThreadMachine where
  shared := (c.start k).shared
  running := 0
  interruptFlag := false
  holder := fun _ => none
  threads := (c.start k).threads.map fun t => ⟨threadCode t.code, t.flags⟩

def ReachesThreads (c : Config) (labels : List ThreadLabel) (m : ThreadMachine) : Prop :=
  ∃ k, Kernel.init c.boot = .ok k ∧ Run (threadProgram c.maxLevel).Step (c.startThreads k) labels m

def evaluateThreads (c : Config) (labels : List ThreadLabel) : Option ThreadMachine := do
  Run.execChecked (threadProgram c.maxLevel).exec (fun _ _ => true)
    (c.startThreads (← (Kernel.init c.boot).toOption)) labels

theorem evaluateThreads_reaches {α : Type} {c : Config} {labels : List ThreadLabel}
    {f : ThreadMachine → α} {v : α} (h : (c.evaluateThreads labels).map f = some v) :
    ∃ m, c.ReachesThreads labels m ∧ f m = v := by
  obtain ⟨m, hEval, hValue⟩ := Option.map_eq_some_iff.mp h
  rw [evaluateThreads, Option.bind_eq_bind, Option.bind_eq_some_iff] at hEval
  obtain ⟨k, hInit, hRun⟩ := hEval
  exact ⟨m, ⟨k, Panic.toOption_eq_some hInit,
    (Run.execChecked_run hRun).mono fun _ _ _ step => step.2⟩, hValue⟩

end Config

/-! ### The machine without the process table -/

def Shared.withTable (s : Shared) (table : ProcessTable) : Shared :=
  { s with kernel := { s.kernel with table } }

/-- The process table is as `scheduler::init` left it, and only the locks of handlers and of
printing are there. -/
def withoutProcesses (table : ProcessTable) :
    Extension Lock Act Shared ThreadLock ThreadAct Shared where
  lock
    | .kernel l => some l
    | _ => none
  embed := .kernel
  lock_eq {l' l} := by cases l' <;> simp
  act
    | .kernel a => some a
    | _ => none
  state s := s.withTable table

section Erasure

variable {table : ProcessTable} {maxLevel : Option Level}

theorem erase_threadCode (code : Code) : (withoutProcesses table).erase (threadCode code) = code :=
  Extension.erase_map (E := withoutProcesses table) (fun _ => rfl) code

theorem withTable_exec (s : Shared) (i : Nat) (a : Act) :
    (s.withTable table).exec i a = (s.exec i a).map (Shared.withTable · table) := by
  cases a with
  | write | endInterrupts | powerOff | newThread | markExited | compute => rfl
  | prepareSwitch =>
    simp only [Shared.exec, Shared.withTable]
    cases s.kernel.sched.prepareSwitch <;> rfl
  | addThread =>
    simp only [Shared.exec, Shared.withTable]
    cases (s.locals i).tcb <;> rfl
  | currentTid =>
    simp only [Shared.exec, Shared.withTable, Kernel.currentTid]
    cases s.kernel.sched.currentTid <;> rfl
  | currentPid =>
    simp only [Shared.exec, Shared.withTable, Kernel.currentPid]
    cases s.kernel.sched.currentPid <;> rfl

theorem withTable_contextSwitch (s : Shared) (i : Nat) :
    (s.withTable table).contextSwitch i =
      ((s.contextSwitch i).1.withTable table, (s.contextSwitch i).2) := by
  have hLocals : (s.withTable table).locals = s.locals := rfl
  rw [Shared.contextSwitch, Shared.contextSwitch, hLocals]
  cases (s.locals i).switchInfo with
  | none => rfl
  | some info =>
    simp only [Shared.withTable, Kernel.contextSwitch, contextSwitchCode, List.foldl_cons,
      List.foldl_nil, Kernel.step]
    rfl

theorem insertProcess_withTable {k k' : Kernel} {name : String} {pid : UInt64}
    (h : k.insertProcess name = .ok (pid, k')) :
    ({ k' with table } : Kernel) = { k with table } := by
  obtain ⟨-, -, rfl⟩ := Kernel.insertProcess_ok h
  rfl

theorem markZombie_withTable (k : Kernel) (pid : UInt64) (exitCode : Int32) :
    ({ (k.markZombie pid exitCode).2 with table } : Kernel) = { k with table } := by
  rw [Kernel.markZombie]
  cases k.table.get pid <;> rfl

/-- An action on the process table or in the heap. -/
theorem withTable_execThread {s s' : Shared} {i : Nat} {a : ThreadAct}
    (hOther : ∀ a', a ≠ .kernel a') (h : s.execThread i a = some s') :
    s'.withTable table = s.withTable table := by
  cases a with
  | kernel a' => exact absurd rfl (hOther a')
  | insertProcess name =>
    obtain ⟨⟨pid, kernel⟩, hInsert, h⟩ := Option.bind_eq_some_iff.mp h
    obtain rfl := Option.some.inj h
    exact congrArg (fun kernel => { s with kernel })
      (insertProcess_withTable (Panic.toOption_eq_some hInsert))
  | markZombie pid exitCode =>
    obtain rfl := Option.some.inj h
    exact congrArg (fun kernel => { s with kernel }) (markZombie_withTable s.kernel pid exitCode)
  | recordThread | heap =>
    obtain rfl := Option.some.inj h
    rfl

theorem withoutProcesses_extends (table : ProcessTable) (maxLevel : Option Level) :
    (withoutProcesses table).Extends (program maxLevel) (threadProgram maxLevel) where
  act {a' a i s} hAct := by
    cases a' with
    | kernel a' =>
      obtain rfl := Option.some.inj hAct
      exact withTable_exec s i a'
    | _ => cases hAct
  hidden {a' i s s'} hAct hExec := by
    refine withTable_execThread (fun a hEq => ?_) hExec
    rw [hEq] at hAct
    cases hAct
  switch s i := withTable_contextSwitch s i
  count s := rfl
  start := erase_threadCode _
  handler i := erase_threadCode _
  call c := by
    cases c with
    | plain c noSpawn => exact .inr ⟨c, erase_threadCode _⟩
    | spawnThread pid entryFn ptr grows =>
      refine .inr ⟨.spawnThread pid entryFn ptr, ?_⟩
      cases grows <;> rfl
    | insertProcess name needed | recordThread pid tid needed | markZombie pid exitCode needed =>
      cases needed <;> exact .inl rfl
    | heap => exact .inl rfl

end Erasure

namespace Config

variable {c : Config} {k : Kernel} {labels labels' : List ThreadLabel} {m m' : ThreadMachine}

theorem project_startThreads (c : Config) (k : Kernel) :
    (withoutProcesses k.table).project (c.startThreads k) = c.start k := by
  have hThread : (fun t : Interrupts.Thread Lock Act =>
      (withoutProcesses k.table).thread ⟨threadCode t.code, t.flags⟩) = id := by
    funext t
    rw [Extension.thread, erase_threadCode]
    rfl
  simp only [Extension.project, startThreads, List.map_map, Function.comp_def, hThread, List.map_id]
  rfl

/-- The invariants of the smaller machine hold of what is left of a state without the process
table. -/
theorem ReachesThreads.invariant (h : c.ReachesThreads labels m) :
    ∃ table, c.Invariant ((withoutProcesses table).project m) := by
  obtain ⟨k, hInit, run⟩ := h
  obtain ⟨labels', run'⟩ := (withoutProcesses_extends k.table c.maxLevel).run
    (Q := c.Invariant) (fun n hInv => hInv.2.length.ge) (fun n label n' hInv step => hInv.step step)
    run (by rw [project_startThreads]; exact ⟨start_inv c k, start_typed hInit⟩)
  rw [project_startThreads] at run'
  exact ⟨k.table, Reaches.invariant ⟨k, hInit, run'⟩⟩

end Config

/-! ### Threads that do not run again -/

/-- Thread `i` is Exited, it is not the current one, and it does not run. -/
def Shared.Retired (s : Shared) (running i : Nat) : Prop :=
  s.kernel.sched.ExitedAt i ∧ i ≠ s.kernel.sched.current ∧ i ≠ running

theorem Scheduler.saveContext_exitedAt (s : Scheduler) (idx : Nat) (rsp : UInt64) (i : Nat) :
    (s.saveContext idx rsp).ExitedAt i ↔ s.ExitedAt i := by
  have hGet := s.saveContext_ids idx rsp i
  have hState : ∀ {s : Scheduler}, s.ExitedAt i ↔
      (s.threads[i]?.map ThreadControlBlock.stateAndTid).map Prod.fst = some .exited := by
    intro s
    rw [Option.map_map, Option.map_eq_some_iff]
    rfl
  rw [hState, hGet, ← hState]

section Retired

variable {s s' : Shared} {i running : Nat}

/-- An action, where only Ready threads are added. -/
theorem Shared.Retired.exec (hInv : s.kernel.sched.Inv) {a : Act}
    (hReady : ∀ tcb, a = .addThread → (s.locals running).tcb = some tcb → tcb.state = .ready)
    (hExec : s.exec running a = some s') (h : s.Retired running i) : s'.Retired running i := by
  obtain ⟨hExited, hCurrent, hRunning⟩ := h
  cases a with
  | write | endInterrupts | powerOff | compute | newThread =>
    obtain rfl := Option.some.inj hExec
    exact ⟨hExited, hCurrent, hRunning⟩
  | currentTid | currentPid =>
    obtain ⟨_, -, hExec⟩ := Option.bind_eq_some_iff.mp hExec
    obtain rfl := Option.some.inj hExec
    exact ⟨hExited, hCurrent, hRunning⟩
  | addThread =>
    obtain ⟨tcb, hTcb, hExec⟩ := Option.bind_eq_some_iff.mp hExec
    obtain rfl := Option.some.inj hExec
    have hKeeps := (Scheduler.Step.add tcb (hReady tcb rfl hTcb)).keeps hInv
    exact ⟨hKeeps.exited i hExited, hKeeps.retired i hExited hCurrent, hRunning⟩
  | markExited tid =>
    obtain rfl := Option.some.inj hExec
    have hKeeps := (Scheduler.Step.exit tid).keeps hInv
    exact ⟨hKeeps.exited i hExited, hKeeps.retired i hExited hCurrent, hRunning⟩
  | prepareSwitch =>
    rw [Shared.exec, Scheduler.prepareSwitch_eq hInv.current_lt] at hExec
    cases hNext : s.kernel.sched.nextReady with
    | none =>
      rw [hNext] at hExec
      obtain rfl := Option.some.inj hExec
      exact ⟨hExited, hCurrent, hRunning⟩
    | some next =>
      rw [hNext] at hExec
      obtain rfl := Option.some.inj hExec
      have hKeeps := (Scheduler.Step.switch 0 hNext).keeps hInv
      exact ⟨(Scheduler.saveContext_exitedAt _ _ 0 i).mp (hKeeps.exited i hExited),
        hKeeps.retired i hExited hCurrent, hRunning⟩

/-- The context switch of `tick` leads to the current thread. -/
theorem Shared.Retired.contextSwitch (hChosen : s.Chosen running) (h : s.Retired running i) :
    (s.contextSwitch running).1.Retired (s.contextSwitch running).2 i := by
  obtain ⟨hExited, hCurrent, -⟩ := h
  obtain ⟨-, hSame, -⟩ := Shared.contextSwitch_keeps s running
  refine ⟨?_, by rwa [hSame], by rwa [Shared.contextSwitch_current hChosen]⟩
  rw [Shared.contextSwitch]
  split
  · rw [Kernel.contextSwitch_sched]
    exact (Scheduler.saveContext_exitedAt _ _ _ i).mpr hExited
  · exact hExited

end Retired

namespace Config

variable {c : Config} {labels : List ThreadLabel} {n n' : Machine} {m m' : ThreadMachine} {i : Nat}

/-- A step does not lead to a retired thread. -/
theorem Invariant.retired {label : Label} (hInv : c.Invariant n)
    (hStep : (program c.maxLevel).Step n label n') (h : n.shared.Retired n.running i) :
    n'.shared.Retired n'.running i := by
  obtain ⟨⟨code, flags⟩, ht, hCases⟩ := Program.Step.inv hStep
  obtain ⟨q, hFollows, hSteady⟩ := hInv.2.thread _ _ ht
  rcases hCases with ⟨instr, rest, rfl, rfl, hExec⟩ | ⟨j, rfl, -, rfl⟩ | ⟨call, rfl, rfl, rfl⟩
  · obtain ⟨q', hNext, -⟩ := hFollows
    have hShared : ∀ {v : View Lock Shared}, n'.view = v →
        v.shared.Retired v.running i → n'.shared.Retired n'.running i := by
      rintro _ rfl hRetired
      exact hRetired
    rcases execInstr_view hExec with ⟨-, -, hEq | ⟨l, -, -, hEq⟩ | ⟨l, -, hEq⟩⟩ |
      ⟨a, s, rfl, hAct, hEq⟩ | ⟨rfl, hEq⟩
    · exact hShared hEq h
    · exact hShared hEq h
    · exact hShared hEq h
    · refine hShared hEq (h.exec hInv.2.good.sched (hSteady.addThread (next_some hNext).2) hAct)
    · have hPhase : q.1 ≠ .idle := by
        rcases nextPhase_some (next_some hNext).1 with ⟨-, -, -, h⟩ | ⟨-, -, h⟩ | ⟨-, -, h⟩ | ⟨h, -⟩
        · exact absurd rfl h
        · cases h
        · cases h
        · simp [h]
      exact hShared hEq (h.contextSwitch (hSteady.chosen rfl hPhase))
  · exact h
  · exact h

theorem ReachesThreads.step (h : c.ReachesThreads labels m) {label : ThreadLabel}
    (hStep : (threadProgram c.maxLevel).Step m label m') :
    c.ReachesThreads (labels ++ [label]) m' := by
  obtain ⟨k, hInit, run⟩ := h
  exact ⟨k, hInit, run.append (.single hStep)⟩

theorem ReachesThreads.retired (h : c.ReachesThreads labels m) {label : ThreadLabel}
    (hStep : (threadProgram c.maxLevel).Step m label m') (hRetired : m.shared.Retired m.running i) :
    m'.shared.Retired m'.running i := by
  obtain ⟨table, hInv⟩ := h.invariant
  have hLength := hInv.2.length
  simp only [Extension.project, List.length_map] at hLength
  rcases (withoutProcesses_extends table c.maxLevel).step hLength.ge hStep with hSame | ⟨_, hStep'⟩
  · have hProject : ((withoutProcesses table).project m).shared.Retired
        ((withoutProcesses table).project m).running i := hRetired
    rw [← hSame] at hProject
    exact hProject
  · exact hInv.retired hStep' hRetired

end Config

/-! ### The order of the locks -/

/-- `PROCESS_TABLE` is taken by a thread that holds no lock, and the lock of the heap by one that
does not hold it. -/
def ThreadLock.allowed : ThreadLock → List ThreadLock → Bool
  | .kernel _, _ => true
  | .processTable, held => held.isEmpty
  | .heap, held => .heap ∉ held

section Balanced

variable {held : List ThreadLock} {maxLevel : Option Level}

abbrev lockOrder : Typestate ThreadLock ThreadAct (List ThreadLock) := ownership ThreadLock.allowed

theorem threadCode_locked (l : Lock) (body : Code) :
    threadCode (locked l body) = locked (.kernel l) (threadCode body) := by
  simp only [threadCode, locked, List.map_cons, List.map_append]
  rfl

theorem threadCode_withoutInterrupts (body : Code) :
    threadCode (withoutInterrupts body) = withoutInterrupts (threadCode body) := by
  simp only [threadCode, withoutInterrupts, List.map_cons, List.map_append]
  rfl

theorem threadCode_append (code code' : Code) :
    threadCode (code ++ code') = threadCode code ++ threadCode code' := List.map_append

theorem balanced_act (a : ThreadAct) : lockOrder.Stays held [.act a] := .cons rfl .nil

theorem balanced_locked (l : Lock) (a : Act) :
    lockOrder.Stays held (threadCode (locked l [.act a])) := by
  rw [threadCode_locked]
  exact stays_critical rfl (balanced_act _)

theorem balanced_lockedPrint (l : Lock) : lockOrder.Stays held (threadCode (lockedPrint l)) := by
  rw [lockedPrint, threadCode_withoutInterrupts]
  exact .withoutInterrupts rfl rfl (balanced_locked _ _) rfl

theorem balanced_log (level : Level) : lockOrder.Stays held (threadCode (log maxLevel level)) := by
  rw [log]
  split
  · exact balanced_lockedPrint .serial
  · exact .nil

theorem balanced_tickCode : lockOrder.Stays held (threadCode tickCode) := by
  rw [tickCode, threadCode_append]
  exact (balanced_locked _ _).append (.cons rfl .nil)

theorem balanced_shutdown : lockOrder.Stays held (threadCode (shutdown maxLevel)) := by
  rw [shutdown, threadCode_locked, threadCode_append]
  exact stays_critical rfl ((balanced_log _).append (balanced_act _))

theorem balanced_interruptHandler (i : Interrupt) :
    lockOrder.Stays held (threadCode (interruptHandler maxLevel i) ++ [.iret]) := by
  have hEnd : lockOrder.Stays held (threadCode endInterrupts) := balanced_locked _ _
  refine .append ?_ (.cons rfl .nil)
  match i with
  | .timer =>
    rw [interruptHandler, timerInterruptHandler, threadCode_append]
    exact hEnd.append balanced_tickCode
  | .keyboard scancode =>
    rw [interruptHandler, keyboardInterruptHandler, threadCode_append, threadCode_append]
    refine ((balanced_log _).append ?_).append hEnd
    split
    · exact balanced_shutdown
    · exact .nil
  | .lapicError =>
    rw [interruptHandler, lapicErrorHandler, threadCode_append]
    exact (balanced_log _).append hEnd
  | .spurious => exact balanced_log _

theorem balanced_call (c : Call) : lockOrder.Stays held (threadCode (c.code maxLevel)) := by
  induction c generalizing held with
  | print => exact balanced_lockedPrint .console
  | serialPrint => exact balanced_lockedPrint .serial
  | log level => exact balanced_log level
  | currentTid | currentPid | markThreadExited => exact balanced_locked _ _
  | spawnThread pid entryFn ptr => exact .cons rfl (balanced_locked _ _)
  | compute cpu mem => exact .cons rfl .nil
  | withoutInterrupts body ih =>
    rw [Call.code, threadCode_withoutInterrupts]
    exact .withoutInterrupts rfl rfl ih rfl
  | seq first second ihFirst ihSecond =>
    rw [Call.code, threadCode_append]
    exact ihFirst.append ihSecond

theorem balanced_heapCall (hHeap : .heap ∉ held) : lockOrder.Stays held heapCall :=
  stays_critical (decide_eq_true hHeap) (balanced_act _)

theorem balanced_heapCallIf (hHeap : .heap ∉ held) (needed : Bool) :
    lockOrder.Stays held (heapCallIf needed) := by
  cases needed with
  | false => exact .nil
  | true => exact balanced_heapCall hHeap

theorem balanced_threadCall (c : ThreadCall) : lockOrder.Stays [] (c.code maxLevel) := by
  have hHeap : lockOrder.Stays [] heapCall := balanced_heapCall (by simp)
  cases c with
  | plain c noSpawn => exact balanced_call c
  | heap => exact hHeap
  | spawnThread pid entryFn ptr grows =>
    refine hHeap.append (.cons rfl (stays_critical rfl ?_))
    exact (balanced_heapCallIf (by simp) grows).append (balanced_act _)
  | insertProcess name needed | markZombie pid exitCode needed =>
    exact stays_critical rfl (.cons rfl (balanced_heapCallIf (by simp) needed))
  | recordThread pid tid needed =>
    exact stays_critical rfl ((balanced_heapCallIf (by simp) needed).append (balanced_act _))

theorem threadProgram_balanced (maxLevel : Option Level) :
    Balanced ThreadLock.allowed (threadProgram maxLevel) where
  handler i _ := balanced_interruptHandler i
  call c := (balanced_threadCall c).follows
  start := ⟨_, rfl, rfl⟩

end Balanced

namespace Config

variable {c : Config} {labels : List ThreadLabel} {m : ThreadMachine}

theorem startThreads_owned (c : Config) (k : Kernel) :
    Owned ThreadLock.allowed (c.startThreads k) := by
  refine ⟨fun i t hGet => ⟨[], ?_, List.nodup_nil, fun l => by simp [startThreads]⟩, nofun⟩
  obtain ⟨t, ht, rfl⟩ := List.mem_map.mp (List.mem_of_getElem? hGet)
  rcases List.mem_cons.mp ht with rfl | ht
  · have hLog : lockOrder.Stays [] (threadCode (log c.maxLevel .debug)) := balanced_log _
    have hCode : lockOrder.Stays [] (threadCode (enableInterrupts c.maxLevel)) := by
      rw [enableInterrupts, threadCode_append, threadCode_append]
      exact (hLog.append (.cons rfl .nil)).append hLog
    exact hCode.follows
  · obtain ⟨-, rfl⟩ := List.mem_replicate.mp ht
    exact ⟨_, rfl, rfl⟩

theorem ReachesThreads.owned (h : c.ReachesThreads labels m) : Owned ThreadLock.allowed m := by
  obtain ⟨k, -, run⟩ := h
  exact run.invariant (fun _ _ _ hOwned step => hOwned.step (threadProgram_balanced _) step)
    (startThreads_owned c k)

end Config

/-! ### Handlers on top of a thread that holds `SCHEDULER` -/

section Handlers

variable {maxLevel : Option Level} {code : ThreadCode}

theorem blocked_log (level : Level) (h : Blocked (.kernel .scheduler) code) :
    Blocked (.kernel .scheduler) (threadCode (log maxLevel level) ++ code) := by
  rw [log]
  split
  · exact .inr ⟨by simp, h⟩
  · exact h

theorem blocked_endInterrupts (h : Blocked (.kernel .scheduler) code) :
    Blocked (.kernel .scheduler) (threadCode endInterrupts ++ code) := .inr ⟨by simp, h⟩

theorem blocked_shutdown (h : Blocked (.kernel .scheduler) code) :
    Blocked (.kernel .scheduler) (threadCode (shutdown maxLevel) ++ code) := by
  rw [shutdown, threadCode_locked, threadCode_append, locked, List.cons_append, List.append_assoc,
    List.append_assoc]
  exact .inr (blocked_log _ ⟨by simp, h⟩)

theorem blocked_handler (i : Interrupt) (h : Blocked (.kernel .scheduler) code) :
    Blocked (.kernel .scheduler) (threadCode (interruptHandler maxLevel i) ++ .iret :: code) := by
  match i with
  | .timer => exact blocked_endInterrupts (.inl rfl)
  | .keyboard scancode =>
    rw [interruptHandler, keyboardInterruptHandler, threadCode_append, threadCode_append,
      List.append_assoc, List.append_assoc]
    refine blocked_log _ ?_
    split
    · exact blocked_shutdown (blocked_endInterrupts h)
    · exact blocked_endInterrupts h
  | .lapicError =>
    rw [interruptHandler, lapicErrorHandler, threadCode_append, List.append_assoc]
    exact blocked_log _ (blocked_endInterrupts h)
  | .spurious => exact blocked_log _ h

end Handlers

/-! ### What holds in every run -/

namespace Config

variable {c : Config} {labels labels' : List ThreadLabel} {m m' : ThreadMachine}

/-- Nothing is logged. -/
def quiet : Config := { sample with maxLevel := none }

/-- A timer interrupt up to the context switch, and the first instruction of the next thread. -/
def preemption : List ThreadLabel := .interrupt .timer :: List.replicate 8 .instr

/-- Thread 2 starts to exit process 1.  Meanwhile thread 1, which belongs to it, gets as far as the
lock of the process table in `create_process`; then thread 2 marks it, and goes on to create a
process itself. -/
def lostSample : List ThreadLabel :=
  .instr :: preemption ++ preemption ++ .call (.markZombie 1 0 true) :: List.replicate 6 .instr ++
    preemption ++ preemption ++ [.call (.insertProcess "p" false), .instr] ++
    preemption ++ .call (.plain (.markThreadExited 1) rfl) :: List.replicate 3 .instr ++
    [.call (.insertProcess "q" false)]

/-- Thread 2 has allocated the stack of a new thread; then thread 1 is preempted inside the
allocator, and the table of threads has to grow. -/
def hangSample : List ThreadLabel :=
  .instr :: preemption ++ preemption ++ .call (.spawnThread 2 0x5000 0x30000 true) ::
    List.replicate 4 .instr ++ preemption ++ preemption ++ [.call .heap, .instr] ++ preemption ++
    [.instr]

theorem hangSample_reaches : ∃ m, quiet.ReachesThreads hangSample m ∧ m.running = 2 ∧
    m.next = some (.lock .heap) ∧ m.holder (.kernel .scheduler) = some 2 ∧
    m.holder .heap = some 1 := by
  have hEval : (quiet.evaluateThreads hangSample).map (fun m => (m.running, m.requested,
      m.holder (.kernel .scheduler), m.holder .heap)) =
      some (2, some .heap, some 2, some 1) := by decide +kernel
  obtain ⟨m, hReach, hValue⟩ := evaluateThreads_reaches hEval
  simp only [Prod.mk.injEq] at hValue
  obtain ⟨hRunning, hRequested, hScheduler, hHeap⟩ := hValue
  exact ⟨m, hReach, hRunning, Machine.next_of_requested hRequested, hScheduler, hHeap⟩

/-- Thread `i` is at the request of a lock that thread `j` holds. -/
def Waits (m : ThreadMachine) (i : Nat) (l : ThreadLock) (j : Nat) : Prop :=
  (∃ code flags, m.threads[i]? = some ⟨.lock l :: code, flags⟩) ∧ m.holder l = some j

theorem ReachesThreads.waits_processTable (h : c.ReachesThreads labels m) {i j : Nat}
    (hWaits : Waits m i .processTable j) (l : ThreadLock) : m.holder l ≠ some i := by
  obtain ⟨⟨code, flags, hThread⟩, -⟩ := hWaits
  obtain ⟨held, hAllowed, hHeld⟩ := h.owned.allowed_of_request hThread
  obtain rfl : held = [] := List.isEmpty_iff.mp hAllowed
  exact fun hHolder => absurd ((hHeld l).mpr hHolder) (by simp)

theorem ReachesThreads.waits_heap (h : c.ReachesThreads labels m) {i j : Nat}
    (hWaits : Waits m i .heap j) : m.holder .heap ≠ some i := by
  obtain ⟨⟨code, flags, hThread⟩, -⟩ := hWaits
  obtain ⟨held, hAllowed, hHeld⟩ := h.owned.allowed_of_request hThread
  exact fun hHolder => of_decide_eq_true hAllowed ((hHeld .heap).mpr hHolder)

/-- Where a thread is marked Exited while it is preempted with a lock, the lock is lost: nobody else
gets it in any continuation, and who requests it stays at the request. -/
theorem lost_lock (h : c.ReachesThreads labels m) {l : ThreadLock} {i : Nat}
    (hHolder : m.holder l = some i) (hRetired : m.shared.Retired m.running i)
    (run : Run (threadProgram c.maxLevel).Step m labels' m') :
    m'.holder l = some i ∧ m'.shared.Retired m'.running i ∧
      ∀ j, m.Awaits j l → m'.Awaits j l := by
  have hAlong := run.invariant (P := fun n => (∃ ls, c.ReachesThreads ls n) ∧
    n.holder l = some i ∧ n.shared.Retired n.running i ∧ ∀ j, m.Awaits j l → n.Awaits j l)
    (fun n label n' ⟨⟨ls, hReach⟩, hHeld, hOut, hAwaits⟩ step => ?_)
    ⟨⟨labels, h⟩, hHolder, hRetired, fun _ hAwaits => hAwaits⟩
  · exact hAlong.2
  · have hTaken : n.holder l ≠ none := by simp [hHeld]
    exact ⟨⟨_, hReach.step step⟩, hReach.owned.holder_kept step hOut.2.2 hHeld,
      hReach.retired step hOut, fun j hj => (hAwaits j hj).step hTaken step⟩

theorem lost_lock_sample : ∃ m, quiet.ReachesThreads lostSample m ∧
    m.next = some (.lock .processTable) ∧
    ∀ labels' m', Run (threadProgram quiet.maxLevel).Step m labels' m' →
      m'.holder .processTable = some 1 ∧ m'.Awaits 2 .processTable := by
  have hEval : (quiet.evaluateThreads lostSample).map (fun m => (m.running, m.requested,
      m.holder .processTable, m.shared.kernel.sched.current,
      m.shared.kernel.sched.threads.map ThreadControlBlock.state)) =
      some (2, some .processTable, some 1, 2, [.ready, .exited, .running]) := by decide +kernel
  obtain ⟨m, hReach, hValue⟩ := evaluateThreads_reaches hEval
  simp only [Prod.mk.injEq] at hValue
  obtain ⟨hRunning, hRequested, hHolder, hCurrent, hStates⟩ := hValue
  have hNext := Machine.next_of_requested hRequested
  obtain ⟨code, flags, hThread⟩ := Machine.thread_of_next hNext
  have hExited := congrArg (fun states => states[1]?) hStates
  simp only [List.getElem?_map] at hExited
  obtain ⟨tcb, hTcb, hState⟩ := Option.map_eq_some_iff.mp hExited
  have hRetired : m.shared.Retired m.running 1 :=
    ⟨⟨tcb, hTcb, hState⟩, by rw [hCurrent]; decide, by rw [hRunning]; decide⟩
  refine ⟨m, hReach, hNext, fun labels' m' run => ?_⟩
  obtain ⟨hLost, -, hAwaits⟩ := lost_lock hReach hHolder hRetired run
  rw [hRunning] at hThread
  exact ⟨hLost, hAwaits 2 ⟨_, [], code, hThread, rfl⟩⟩

/-- A thread that waits for the lock of the heap in `spawn_thread`, with `SCHEDULER` held, is never
switched away from, so the thread that holds the lock never runs again. -/
theorem spawn_hangs (h : c.ReachesThreads labels m) (hNext : m.next = some (.lock .heap))
    (hScheduler : m.holder (.kernel .scheduler) = some m.running) {j : Nat}
    (hHeap : m.holder .heap = some j) (run : Run (threadProgram c.maxLevel).Step m labels' m') :
    m'.running = m.running ∧ j ≠ m.running ∧ m'.holder (.kernel .scheduler) = some m.running ∧
      m'.holder .heap = some j ∧ m'.Awaits m.running .heap := by
  obtain ⟨code, flags, hThread⟩ := Machine.thread_of_next hNext
  have hNe : j ≠ m.running := by
    rintro rfl
    exact h.waits_heap ⟨⟨code, flags, hThread⟩, hHeap⟩ hHeap
  have hWedged : Wedged m (.kernel .scheduler) .heap j :=
    ⟨hScheduler, hHeap, hNe, _, [], code, hThread, rfl, trivial⟩
  have hAlong := run.invariant (P := fun n => (∃ ls, c.ReachesThreads ls n) ∧
    n.running = m.running ∧ Wedged n (.kernel .scheduler) .heap j)
    (fun n label n' ⟨⟨ls, hReach⟩, hRunning, hStuck⟩ step => ?_) ⟨⟨labels, h⟩, rfl, hWedged⟩
  · obtain ⟨-, hRunning, hMine, hOther, -, t, above, rest, ht, hCode, -⟩ := hAlong
    rw [hRunning] at hMine ht
    exact ⟨hRunning, hNe, hMine, hOther, t, above, rest, ht, hCode⟩
  · obtain ⟨hSame, hStuck'⟩ := hStuck.step hReach.owned (fun i _ => blocked_handler i) step
    exact ⟨⟨_, hReach.step step⟩, hSame.trans hRunning, hStuck'⟩

theorem spawn_hangs_sample : ∃ m, quiet.ReachesThreads hangSample m ∧
    ∀ labels' m', Run (threadProgram quiet.maxLevel).Step m labels' m' →
      m'.running = 2 ∧ m'.holder (.kernel .scheduler) = some 2 ∧ m'.holder .heap = some 1 := by
  obtain ⟨m, hReach, hRunning, hNext, hScheduler, hHeap⟩ := hangSample_reaches
  refine ⟨m, hReach, fun labels' m' run => ?_⟩
  obtain ⟨hSame, -, hMine, hOther, -⟩ :=
    spawn_hangs hReach hNext (by rw [hScheduler, hRunning]) hHeap run
  rw [hRunning] at hSame hMine
  exact ⟨hSame, hMine, hOther⟩

end Config

end RixOs

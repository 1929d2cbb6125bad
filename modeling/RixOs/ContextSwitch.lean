import RixOs.RoundRobin

/-! Context switches over whole runs.  Between switches a thread does what it likes on its own
stack.  The frame that `context_switch` pops for a thread that is not current lies in the stack of
that thread, where no other thread writes, so it still holds what was put there when the thread
was switched out or created. -/

namespace RixOs

open ProofKit

namespace KernelStack

def Contains (s : KernelStack) (addr : UInt64) : Prop :=
  s.ptr.toNat ≤ addr.toNat ∧ addr.toNat < s.ptr.toNat + s.len.toNat

/-- The stack is not at the null pointer and does not wrap around the address space. -/
def Placed (s : KernelStack) : Prop := 0 < s.ptr.toNat ∧ s.ptr.toNat + s.len.toNat < 2 ^ 64

def Apart (s t : KernelStack) : Prop := ∀ addr, s.Contains addr → ¬t.Contains addr

/-- The seven words from `rsp` on lie in the stack. -/
def HoldsFrame (s : KernelStack) (rsp : UInt64) : Prop :=
  s.ptr.toNat ≤ rsp.toNat ∧ rsp.toNat + 56 ≤ s.ptr.toNat + s.len.toNat

/-- Below the return address at `rsp`, the stack has room for six words. -/
def HasRoom (s : KernelStack) (rsp : UInt64) : Prop :=
  s.ptr.toNat + 48 ≤ rsp.toNat ∧ rsp.toNat + 8 ≤ s.ptr.toNat + s.len.toNat

theorem Apart.symm {s t : KernelStack} (h : s.Apart t) : t.Apart s :=
  fun addr ht hs => h addr hs ht

theorem HasRoom.holdsFrame {s : KernelStack} {rsp : UInt64} (h : s.HasRoom rsp) :
    s.HoldsFrame (rsp - 48) := by
  unfold HasRoom at h
  have hSub : (rsp - 48).toNat = rsp.toNat - 48 :=
    UInt64.toNat_sub_of_le _ _ (UInt64.le_iff_toNat_le.mpr (by simpa using by omega))
  unfold HoldsFrame
  omega

theorem HoldsFrame.contains {s : KernelStack} {rsp : UInt64} (hPlaced : s.Placed)
    (h : s.HoldsFrame rsp) {offset : UInt64} (hOffset : offset.toNat ≤ 48) :
    s.Contains (rsp + offset) := by
  unfold HoldsFrame at h
  unfold Placed at hPlaced
  unfold Contains
  rw [UInt64.toNat_add, Nat.mod_eq_of_lt (by omega)]
  omega

end KernelStack

/-- The processor after `context_switch` has popped the frame at `rsp` and returned. -/
def frameCpu (mem : Memory) (rsp : UInt64) : Cpu where
  regs
    | .r15 => mem rsp
    | .r14 => mem (rsp + 8)
    | .r13 => mem (rsp + 16)
    | .r12 => mem (rsp + 24)
    | .rbp => mem (rsp + 32)
    | .rbx => mem (rsp + 40)
  rsp := rsp + 56
  rip := mem (rsp + 48)

theorem frameCpu_congr {s : KernelStack} {mem mem' : Memory} {rsp : UInt64} (hPlaced : s.Placed)
    (hFrame : s.HoldsFrame rsp) (h : ∀ addr, s.Contains addr → mem' addr = mem addr) :
    frameCpu mem' rsp = frameCpu mem rsp := by
  have hWord : ∀ offset : UInt64, offset.toNat ≤ 48 → mem' (rsp + offset) = mem (rsp + offset) :=
    fun offset hOffset => h _ (hFrame.contains hPlaced hOffset)
  have hFirst := hWord 0 (by decide)
  rw [UInt64.add_zero] at hFirst
  unfold frameCpu
  rw [hWord 48 (by decide)]
  congr 1
  funext r
  cases r <;> first | exact hFirst | exact hWord _ (by decide)

namespace Kernel

def pushed (mem : Memory) (cpu : Cpu) : Memory :=
  ([Reg.rbx, .rbp, .r12, .r13, .r14, .r15].foldl
    (fun (s : UInt64 × Memory) r => (s.1 - 8, s.2.write (s.1 - 8) (cpu.regs r)))
    (cpu.rsp, mem)).2

theorem pushed_eq (mem : Memory) (cpu : Cpu) (rsp : UInt64) (h : cpu.rsp = rsp + 48) :
    pushed mem cpu = (((((mem.write (rsp + 40) (cpu.regs .rbx)).write (rsp + 32)
      (cpu.regs .rbp)).write (rsp + 24) (cpu.regs .r12)).write (rsp + 16)
      (cpu.regs .r13)).write (rsp + 8) (cpu.regs .r14)).write rsp (cpu.regs .r15) := by
  simp only [pushed, List.foldl_cons, List.foldl_nil]
  rw [show cpu.rsp - 8 - 8 - 8 - 8 - 8 - 8 = rsp by grind,
    show cpu.rsp - 8 - 8 - 8 - 8 - 8 = rsp + 8 by grind,
    show cpu.rsp - 8 - 8 - 8 - 8 = rsp + 16 by grind, show cpu.rsp - 8 - 8 - 8 = rsp + 24 by grind,
    show cpu.rsp - 8 - 8 = rsp + 32 by grind, show cpu.rsp - 8 = rsp + 40 by grind]

theorem contextSwitch_mem (k : Kernel) (old new : Nat) :
    (k.contextSwitch old new).mem = pushed k.mem k.cpu := by
  simp only [contextSwitch, contextSwitchCode, List.foldl_cons, List.foldl_nil, step, pushed]

theorem restore_cpu (k : Kernel) (old new : Nat) :
    ((contextSwitchCode.drop 7).foldl (step old new) k).cpu =
      frameCpu k.mem (k.contextRsp new) := by
  simp only [contextSwitchCode, List.drop_succ_cons, List.drop_zero, List.foldl_cons,
    List.foldl_nil, step, UInt64.add_assoc, UInt64.reduceAdd, frameCpu, Cpu.mk.injEq, and_true]
  funext r
  cases r <;> simp [Function.update]

theorem contextSwitch_cpu (k : Kernel) {old new : Nat} (h : old ≠ new) :
    (k.contextSwitch old new).cpu = frameCpu (pushed k.mem k.cpu) (k.contextRsp new) := by
  have hMem : ((contextSwitchCode.take 7).foldl (step old new) k).mem = pushed k.mem k.cpu := by
    simp only [contextSwitchCode, List.take_succ_cons, List.take_zero, List.foldl_cons,
      List.foldl_nil, step, pushed]
  -- The store into the old context leaves the new one alone.
  have hRsp : ((contextSwitchCode.take 7).foldl (step old new) k).contextRsp new =
      k.contextRsp new := by
    simp only [contextSwitchCode, List.take_succ_cons, List.take_zero, List.foldl_cons,
      List.foldl_nil, step, contextRsp, Scheduler.saveContext_get, Ne.symm h, if_false,
      Option.map_id_fun', id_eq]
  rw [contextSwitch, ← List.take_append_drop 7 contextSwitchCode, List.foldl_append, restore_cpu,
    hMem, hRsp]

/-- The processor when the current call of `context_switch` returns. -/
def returnCpu (k : Kernel) : Cpu := ⟨k.cpu.regs, k.cpu.rsp + 8, k.mem k.cpu.rsp⟩

/-- The frame that the pushes leave is popped into the registers as they were. -/
theorem frameCpu_pushed (k : Kernel) : frameCpu (pushed k.mem k.cpu) (k.cpu.rsp - 48) =
    k.returnCpu := by
  have hRsp : k.cpu.rsp = k.cpu.rsp - 48 + 48 := by simp
  generalize k.cpu.rsp - 48 = rsp at hRsp
  rw [pushed_eq k.mem k.cpu rsp hRsp, returnCpu, frameCpu, Cpu.mk.injEq, hRsp]
  refine ⟨?_, by grind, ?_⟩
  · funext r
    cases r <;> simp [Memory.write]
  · simp [Memory.write]

/-- The pushes write only into a stack that has room for them. -/
theorem pushed_outside {s : KernelStack} {k : Kernel} (hPlaced : s.Placed)
    (hRoom : s.HasRoom k.cpu.rsp) {addr : UInt64} (hAddr : ¬s.Contains addr) :
    pushed k.mem k.cpu addr = k.mem addr := by
  have hNe : ∀ offset : UInt64, offset.toNat ≤ 48 → addr ≠ k.cpu.rsp - 48 + offset := by
    rintro offset hOffset rfl
    exact hAddr (hRoom.holdsFrame.contains hPlaced hOffset)
  have hZero := hNe 0 (by decide)
  rw [UInt64.add_zero] at hZero
  rw [pushed_eq k.mem k.cpu (k.cpu.rsp - 48) (by simp)]
  simp only [Memory.write, Function.update_apply, hZero, hNe 8 (by decide), hNe 16 (by decide),
    hNe 24 (by decide), hNe 32 (by decide), hNe 40 (by decide), if_false]

/-! ### The stack of a new thread -/

theorem toNat_and_not_fifteen (x : UInt64) : (x &&& ~~~0xF).toNat = x.toNat / 16 * 16 := by
  have hMask : (~~~0xF : UInt64).toNat = (2 ^ 60 - 1) * 2 ^ 4 := by decide
  have hx := x.toNat_lt
  rw [UInt64.toNat_and, hMask]
  apply Nat.eq_of_testBit_eq
  intro i
  rw [Nat.testBit_and, Nat.testBit_mul_two_pow, Nat.testBit_two_pow_sub_one,
    show x.toNat / 16 * 16 = x.toNat / 2 ^ 4 * 2 ^ 4 from rfl, Nat.testBit_mul_two_pow,
    Nat.testBit_div_two_pow]
  by_cases hLow : 4 ≤ i
  · simp only [hLow, decide_true, Bool.true_and, Nat.sub_add_cancel hLow]
    by_cases hHigh : i < 64
    · simp [show i - 4 < 60 by omega]
    · have hBig : x.toNat < 2 ^ i :=
        lt_of_lt_of_le hx (Nat.pow_le_pow_right (by decide) (by omega))
      simp [Nat.testBit_lt_two_pow hBig]
  · simp [hLow]

def entryCpu (image : Image) (entryFn ptr : UInt64) : Cpu where
  regs
    | .r12 => entryFn
    | _ => 0
  rsp := stackTop ptr
  rip := image.threadTrampoline

theorem toNat_stackTop {ptr : UInt64} (hPlaced : (⟨ptr, kernelStackSize⟩ : KernelStack).Placed) :
    (stackTop ptr).toNat = (ptr.toNat + 16384) / 16 * 16 := by
  have hSize : kernelStackSize.toNat = 16384 := by decide
  have hEnd := hPlaced.2
  simp only [hSize] at hEnd
  rw [stackTop, toNat_and_not_fifteen, UInt64.toNat_add, hSize, Nat.mod_eq_of_lt hEnd]

theorem stackTop_holdsFrame {ptr : UInt64}
    (hPlaced : (⟨ptr, kernelStackSize⟩ : KernelStack).Placed) :
    (⟨ptr, kernelStackSize⟩ : KernelStack).HoldsFrame (stackTop ptr - 7 * 8) := by
  have hSize : kernelStackSize.toNat = 16384 := by decide
  have hTop := toNat_stackTop hPlaced
  have hSub : (stackTop ptr - 7 * 8).toNat = (stackTop ptr).toNat - 56 :=
    UInt64.toNat_sub_of_le _ _ (UInt64.le_iff_toNat_le.mpr (by simpa using by omega))
  simp only [KernelStack.HoldsFrame, hSize, hSub]
  omega

def newStack (mem : Memory) (image : Image) (entryFn ptr : UInt64) : Memory :=
  (mem.zeroed ptr kernelStackSize).writeWords (stackTop ptr - 7 * 8) (initialFrame image entryFn)

theorem newStack_frame (mem : Memory) (image : Image) (entryFn ptr : UInt64) :
    frameCpu (newStack mem image entryFn ptr) (stackTop ptr - 7 * 8) =
      entryCpu image entryFn ptr := by
  simp only [newStack, initialFrame, Memory.writeWords, frameCpu, entryCpu, Cpu.mk.injEq,
    UInt64.add_assoc, UInt64.reduceAdd]
  refine ⟨?_, by grind, ?_⟩
  · funext r
    cases r <;> simp [Memory.write]
  · simp [Memory.write]

theorem newStack_outside (mem : Memory) (image : Image) (entryFn : UInt64) {ptr addr : UInt64}
    (hPlaced : (⟨ptr, kernelStackSize⟩ : KernelStack).Placed)
    (hAddr : ¬(⟨ptr, kernelStackSize⟩ : KernelStack).Contains addr) :
    newStack mem image entryFn ptr addr = mem addr := by
  have hNe : ∀ offset : UInt64, offset.toNat ≤ 48 → addr ≠ stackTop ptr - 7 * 8 + offset := by
    rintro offset hOffset rfl
    exact hAddr ((stackTop_holdsFrame hPlaced).contains hPlaced hOffset)
  have hZero := hNe 0 (by decide)
  rw [UInt64.add_zero] at hZero
  have hOutside : ¬addr - ptr < kernelStackSize := by
    have hSize : kernelStackSize.toNat = 16384 := by decide
    simp only [KernelStack.Contains, KernelStack.Placed, hSize] at hAddr hPlaced
    have := ptr.toNat_lt
    have := addr.toNat_lt
    rw [UInt64.lt_iff_toNat_lt, UInt64.toNat_sub, hSize]
    omega
  simp only [newStack, initialFrame, Memory.writeWords, UInt64.add_assoc, UInt64.reduceAdd,
    Memory.write, Function.update_apply, hZero, hNe 8 (by decide), hNe 16 (by decide),
    hNe 24 (by decide), hNe 32 (by decide), hNe 40 (by decide), hNe 48 (by decide), if_false,
    Memory.zeroed, hOutside]

/-! ### Lawful runs -/

/-- The entry function and the stack of the thread that an event creates. -/
def created : Event → Option (UInt64 × UInt64)
  | .spawnThread _ entryFn ptr | .createProcess _ entryFn ptr => some (entryFn, ptr)
  | _ => none

/-- The stack of thread `i`.  The idle thread runs on the boot stack. -/
def stackOf (bootStack : KernelStack) (k : Kernel) (i : Nat) : Option KernelStack :=
  k.sched.threads[i]?.map fun tcb => if i = 0 then bootStack else tcb.kernelStack

/-- What threads and the allocator do: a new stack overlaps no other stack, the running thread
leaves the stacks of the other threads alone, and it calls `context_switch` on its own stack. -/
def Lawful (bootStack : KernelStack) (k : Kernel) : Event → Prop
  | .tick => k.sched.nextReady ≠ none →
    ∀ s, k.stackOf bootStack k.sched.current = some s → s.HasRoom k.cpu.rsp
  | .spawnThread _ _ ptr | .createProcess _ _ ptr =>
    (⟨ptr, kernelStackSize⟩ : KernelStack).Placed ∧
      ∀ i s, k.stackOf bootStack i = some s → s.Apart ⟨ptr, kernelStackSize⟩
  | .run _ mem => ∀ i s, i ≠ k.sched.current → k.stackOf bootStack i = some s →
    ∀ addr, s.Contains addr → mem addr = k.mem addr
  | .markThreadExited _ | .exitProcess _ _ => True

def LawfulStep (bootStack : KernelStack) (k : Kernel) (e : Event) (k' : Kernel) : Prop :=
  k.Lawful bootStack e ∧ Step k e k'

def SameStacks (s s' : Scheduler) : Prop :=
  ∀ (i : Nat) (tcb : ThreadControlBlock), s.threads[i]? = some tcb →
    ∃ tcb' : ThreadControlBlock, s'.threads[i]? = some tcb' ∧
      tcb'.context = tcb.context ∧ tcb'.kernelStack = tcb.kernelStack

/-- What a lawful event does to stacks and contexts. -/
inductive Effect (bootStack : KernelStack) (k : Kernel) : Event → Kernel → Prop
  | keep {e : Event} {k' : Kernel} (hCreated : created e = none)
      (hSame : SameStacks k.sched k'.sched)
      (hLength : k'.sched.threads.length = k.sched.threads.length)
      (hCurrent : k'.sched.current = k.sched.current)
      (hMem : ∀ i s, i ≠ k.sched.current → k.stackOf bootStack i = some s →
        ∀ addr, s.Contains addr → k'.mem addr = k.mem addr) : Effect bootStack k e k'
  | add {e : Event} {k' : Kernel} (tid pid entryFn ptr : UInt64)
      (hCreated : created e = some (entryFn, ptr))
      (hPlaced : (⟨ptr, kernelStackSize⟩ : KernelStack).Placed)
      (hApart : ∀ i s, k.stackOf bootStack i = some s → s.Apart ⟨ptr, kernelStackSize⟩)
      (hSched : k'.sched = k.sched.addThread
        ⟨tid, pid, .ready, ⟨stackTop ptr - 7 * 8⟩, ⟨ptr, kernelStackSize⟩⟩)
      (hMem : k'.mem = newStack k.mem k.image entryFn ptr) : Effect bootStack k e k'
  | switch {next : Nat} (hNext : k.sched.nextReady = some next)
      (hRoom : ∀ s, k.stackOf bootStack k.sched.current = some s → s.HasRoom k.cpu.rsp) :
      Effect bootStack k .tick
        (contextSwitch { k with sched := k.sched.switchTo next } k.sched.current next)

theorem SameStacks.refl (s : Scheduler) : SameStacks s s := fun _ tcb h => ⟨tcb, h, rfl, rfl⟩

theorem markExited_sameStacks (s : Scheduler) (tid : UInt64) :
    SameStacks s (s.markExited tid) := by
  intro i tcb hGet
  rw [Scheduler.markExited_get, hGet]
  refine ⟨_, rfl, ?_⟩
  split <;> exact ⟨rfl, rfl⟩

theorem foldl_markExited_sameStacks (tids : List UInt64) (s : Scheduler) :
    SameStacks s (tids.foldl Scheduler.markExited s) ∧
      (tids.foldl Scheduler.markExited s).threads.length = s.threads.length := by
  induction tids generalizing s with
  | nil => exact ⟨.refl s, rfl⟩
  | cons tid tids ih =>
    obtain ⟨hSame, hLength⟩ := ih (s.markExited tid)
    refine ⟨fun i tcb hGet => ?_, hLength.trans (by simp)⟩
    obtain ⟨tcb₁, hGet₁, hContext₁, hStack₁⟩ := markExited_sameStacks s tid i tcb hGet
    obtain ⟨tcb₂, hGet₂, hContext₂, hStack₂⟩ := hSame i tcb₁ hGet₁
    exact ⟨tcb₂, hGet₂, hContext₂.trans hContext₁, hStack₂.trans hStack₁⟩

theorem LawfulStep.effect {bootStack : KernelStack} {k k' : Kernel} {e : Event}
    (hInv : k.sched.Inv) (h : LawfulStep bootStack k e k') : Effect bootStack k e k' := by
  obtain ⟨hLawful, hStep⟩ := h
  cases e with
  | tick =>
    rcases exec_tick hInv.current_lt hStep with ⟨-, rfl⟩ | ⟨next, hNext, rfl⟩
    · exact .keep rfl (.refl _) rfl rfl fun _ _ _ _ _ _ => rfl
    · exact .switch hNext (hLawful (by simp [hNext]))
  | spawnThread pid entryFn ptr =>
    obtain rfl := Except.ok.inj hStep
    exact .add k.nextTid pid entryFn ptr rfl hLawful.1 hLawful.2 rfl rfl
  | createProcess name entryFn ptr =>
    obtain ⟨pid, hCreate⟩ := exec_createProcess hStep
    obtain ⟨k₁, hInsert, rfl⟩ := createProcess_ok hCreate
    obtain ⟨-, -, rfl⟩ := insertProcess_ok hInsert
    exact .add k.nextTid pid entryFn ptr rfl hLawful.1 hLawful.2 rfl
      (by simp only [recordThread, spawnThread, newThread, addThread, newStack])
  | markThreadExited tid =>
    obtain rfl := Except.ok.inj hStep
    exact .keep rfl (markExited_sameStacks k.sched tid) (by simp [markThreadExited]) rfl
      fun _ _ _ _ _ _ => rfl
  | exitProcess pid exitCode =>
    obtain rfl := Except.ok.inj hStep
    cases hGet : k.table.get pid with
    | none =>
      rw [exitProcess_none hGet]
      exact .keep rfl (.refl _) rfl rfl fun _ _ _ _ _ _ => rfl
    | some pcb =>
      rw [exitProcess_some hGet]
      obtain ⟨hSame, hLength⟩ := foldl_markExited_sameStacks pcb.threads k.sched
      exact .keep rfl hSame hLength (foldl_markExited_current pcb.threads k.sched)
        fun _ _ _ _ _ _ => rfl
  | run cpu mem =>
    obtain rfl := Except.ok.inj hStep
    exact .keep rfl (.refl _) rfl rfl hLawful

/-! ### The layout of the stacks -/

/-- The stacks are apart, and each thread that is not current has a frame in its own stack. -/
structure Layout (bootStack : KernelStack) (k : Kernel) : Prop where
  inv : k.sched.Inv
  placed : ∀ i s, k.stackOf bootStack i = some s → s.Placed
  apart : ∀ i j s t, i ≠ j → k.stackOf bootStack i = some s → k.stackOf bootStack j = some t →
    s.Apart t
  frame : ∀ i s, i ≠ k.sched.current → k.stackOf bootStack i = some s →
    s.HoldsFrame (k.contextRsp i)

theorem stackOf_some {bootStack : KernelStack} {k : Kernel} {i : Nat} {s : KernelStack} :
    k.stackOf bootStack i = some s ↔ ∃ tcb, k.sched.threads[i]? = some tcb ∧
      s = if i = 0 then bootStack else tcb.kernelStack := by
  simp [stackOf, eq_comm]

theorem contextRsp_some {k : Kernel} {i : Nat} {tcb : ThreadControlBlock}
    (h : k.sched.threads[i]? = some tcb) : k.contextRsp i = tcb.context.rsp := by
  rw [contextRsp, h]

/-- Thread `i` keeps its stack, its context and what is on the stack. -/
structure Untouched (bootStack : KernelStack) (k k' : Kernel) (i : Nat) : Prop where
  stack : k'.stackOf bootStack i = k.stackOf bootStack i
  rsp : k'.contextRsp i = k.contextRsp i
  mem : ∀ s, k.stackOf bootStack i = some s → ∀ addr, s.Contains addr → k'.mem addr = k.mem addr

section Effects

variable {bootStack : KernelStack} {k k' : Kernel} {e : Event}

theorem switch_thread (next : Nat) {i : Nat} {tcb : ThreadControlBlock}
    (hGet : k.sched.threads[i]? = some tcb) :
    ∃ tcb', (contextSwitch { k with sched := k.sched.switchTo next }
        k.sched.current next).sched.threads[i]? = some tcb' ∧
      tcb'.context = (if i = k.sched.current then ⟨k.cpu.rsp - 48⟩ else tcb.context) ∧
      tcb'.kernelStack = tcb.kernelStack := by
  rw [contextSwitch_sched, Scheduler.switch_get, hGet]
  exact ⟨_, rfl, by rw [show k.cpu.rsp - 8 - 8 - 8 - 8 - 8 - 8 = k.cpu.rsp - 48 by grind], rfl⟩

theorem stackOf_congr {i : Nat} {tcb tcb' : ThreadControlBlock}
    (hGet : k.sched.threads[i]? = some tcb) (hGet' : k'.sched.threads[i]? = some tcb')
    (hStack : tcb'.kernelStack = tcb.kernelStack) :
    k'.stackOf bootStack i = k.stackOf bootStack i := by
  rw [stackOf, stackOf, hGet, hGet', Option.map_some, Option.map_some, hStack]

theorem Effect.stackOf_eq (h : Effect bootStack k e k') {i : Nat}
    (hi : i < k.sched.threads.length) : k'.stackOf bootStack i = k.stackOf bootStack i := by
  have hGet := List.getElem?_eq_getElem hi
  cases h with
  | keep _ hSame =>
    obtain ⟨tcb', hGet', -, hStack⟩ := hSame i _ hGet
    exact stackOf_congr hGet hGet' hStack
  | add tid pid entryFn ptr _ _ _ hSched =>
    rw [stackOf, hSched, Scheduler.addThread_get hi]
    rfl
  | @switch next =>
    obtain ⟨tcb', hGet', -, hStack⟩ := switch_thread next hGet
    exact stackOf_congr hGet hGet' hStack

theorem Effect.untouched (hLayout : k.Layout bootStack) (h : Effect bootStack k e k') {i : Nat}
    (hi : i < k.sched.threads.length) (hCurrent : i ≠ k.sched.current) :
    Untouched bootStack k k' i := by
  have hGet := List.getElem?_eq_getElem hi
  have hStack := h.stackOf_eq hi
  cases h with
  | keep _ hSame _ _ hMem =>
    obtain ⟨tcb', hGet', hContext, -⟩ := hSame i _ hGet
    refine ⟨hStack, ?_, fun s hs => hMem i s hCurrent hs⟩
    rw [contextRsp_some hGet', contextRsp_some hGet, hContext]
  | add tid pid entryFn ptr _ hPlaced hApart hSched hMem =>
    refine ⟨hStack, ?_, fun s hs addr hAddr => ?_⟩
    · rw [contextRsp, contextRsp, hSched, Scheduler.addThread_get hi]
    · rw [hMem, newStack_outside _ _ _ hPlaced (hApart i s hs addr hAddr)]
  | @switch next hNext hRoom =>
    obtain ⟨tcb', hGet', hContext, -⟩ := switch_thread next hGet
    refine ⟨hStack, ?_, fun s hs addr hAddr => ?_⟩
    · rw [contextRsp_some hGet', contextRsp_some hGet, hContext, if_neg hCurrent]
    · have hOwn : k.stackOf bootStack k.sched.current = some _ :=
        stackOf_some.mpr ⟨_, List.getElem?_eq_getElem hLayout.inv.current_lt, rfl⟩
      rw [contextSwitch_mem]
      exact pushed_outside (hLayout.placed _ _ hOwn) (hRoom _ hOwn)
        (hLayout.apart i _ s _ hCurrent hs hOwn addr hAddr)

/-- The stacks after a lawful event: those before it, and that of a new thread. -/
theorem Effect.stackOf_cases (hLayout : k.Layout bootStack) (h : Effect bootStack k e k') {i : Nat}
    {s : KernelStack} (hStack : k'.stackOf bootStack i = some s) :
    k.stackOf bootStack i = some s ∨ i = k.sched.threads.length ∧ s.Placed ∧
      s.HoldsFrame (k'.contextRsp i) ∧ ∀ j t, k.stackOf bootStack j = some t → t.Apart s := by
  by_cases hi : i < k.sched.threads.length
  · exact .inl (h.stackOf_eq hi ▸ hStack)
  · obtain ⟨tcb', hGet', hs⟩ := stackOf_some.mp hStack
    have hLt := (List.getElem?_eq_some_iff.mp hGet').1
    cases h with
    | keep _ _ hLength => omega
    | add tid pid entryFn ptr _ hPlaced hApart hSched =>
      rw [hSched] at hGet'
      rcases Scheduler.addThread_cases hGet' with hOld | ⟨rfl, rfl⟩
      · exact absurd (List.getElem?_eq_some_iff.mp hOld).1 hi
      · have hCurrent := hLayout.inv.current_lt
        rw [if_neg (by omega)] at hs
        subst hs
        refine .inr ⟨rfl, hPlaced, ?_, hApart⟩
        rw [contextRsp, hSched, hGet']
        exact stackTop_holdsFrame hPlaced
    | switch => simp at hLt; omega

theorem LawfulStep.layout (hLayout : k.Layout bootStack) (h : LawfulStep bootStack k e k') :
    k'.Layout bootStack := by
  have hEffect := h.effect hLayout.inv
  refine ⟨(exec_keeps hLayout.inv h.2).1, fun i s hs => ?_, fun i j s t hNe hs ht => ?_,
    fun i s hCurrent hs => ?_⟩
  · rcases hEffect.stackOf_cases hLayout hs with hOld | ⟨-, hPlaced, -, -⟩
    · exact hLayout.placed i s hOld
    · exact hPlaced
  · rcases hEffect.stackOf_cases hLayout hs with hOld | ⟨rfl, -, -, hApart⟩
    · rcases hEffect.stackOf_cases hLayout ht with hOld' | ⟨rfl, -, -, hApart⟩
      · exact hLayout.apart i j s t hNe hOld hOld'
      · exact hApart i s hOld
    · rcases hEffect.stackOf_cases hLayout ht with hOld' | ⟨rfl, -, -, -⟩
      · exact (hApart j t hOld').symm
      · exact absurd rfl hNe
  · rcases hEffect.stackOf_cases hLayout hs with hOld | ⟨-, -, hFrame, -⟩
    · obtain ⟨tcb, hGet, -⟩ := stackOf_some.mp hOld
      by_cases hi : i = k.sched.current
      · -- The event was a switch away from thread `i`.
        cases hEffect with
        | keep _ _ _ hSame => exact absurd (hi.trans hSame.symm) hCurrent
        | add _ _ _ _ _ _ _ hSched => exact absurd (by rw [hi, hSched]; rfl) hCurrent
        | @switch next _ hRoom =>
          obtain ⟨tcb', hGet', hContext, -⟩ := switch_thread next hGet
          rw [contextRsp_some hGet', hContext, if_pos hi]
          exact (hRoom s (hi ▸ hOld)).holdsFrame
      · rw [(hEffect.untouched hLayout (List.getElem?_eq_some_iff.mp hGet).1 hi).rsp]
        exact hLayout.frame i s hi hOld
    · exact hFrame

theorem LawfulStep.frame_eq (hLayout : k.Layout bootStack) (h : LawfulStep bootStack k e k')
    {i : Nat} (hi : i < k.sched.threads.length) (hCurrent : i ≠ k.sched.current) :
    frameCpu k'.mem (k'.contextRsp i) = frameCpu k.mem (k.contextRsp i) := by
  have hTouch := (h.effect hLayout.inv).untouched hLayout hi hCurrent
  have hStack : k.stackOf bootStack i = some _ :=
    stackOf_some.mpr ⟨_, List.getElem?_eq_getElem hi, rfl⟩
  rw [hTouch.rsp]
  exact frameCpu_congr (hLayout.placed i _ hStack) (hLayout.frame i _ hCurrent hStack)
    (hTouch.mem _ hStack)

/-- A switch resumes the next thread from its frame. -/
theorem LawfulStep.resumes (hLayout : k.Layout bootStack) (h : LawfulStep bootStack k .tick k')
    {i : Nat} (hNext : k.sched.nextReady = some i) :
    k'.cpu = frameCpu k.mem (k.contextRsp i) := by
  obtain ⟨hNe, tcb, hGet, -⟩ := Scheduler.nextReady_some hLayout.inv hNext
  rw [← h.frame_eq hLayout (List.getElem?_eq_some_iff.mp hGet).1 hNe]
  rcases exec_tick hLayout.inv.current_lt h.2 with ⟨hNone, -⟩ | ⟨next, hSome, rfl⟩
  · rw [hNext] at hNone
    cases hNone
  · obtain rfl : i = next := Option.some.inj (hNext.symm.trans hSome)
    obtain ⟨tcb', hGet', hContext, -⟩ := switch_thread i hGet
    rw [contextSwitch_cpu _ (Ne.symm hNe), contextSwitch_mem, contextRsp_some hGet', hContext,
      if_neg hNe, contextRsp, Scheduler.switchTo_get, hGet]
    rfl

/-- A switch leaves a frame that returns to the caller of `context_switch`. -/
theorem LawfulStep.saves (hLayout : k.Layout bootStack) (h : LawfulStep bootStack k .tick k')
    {i : Nat} (hi : k.sched.current = i) (hAway : k'.sched.current ≠ i) :
    frameCpu k'.mem (k'.contextRsp i) = k.returnCpu := by
  rcases exec_tick hLayout.inv.current_lt h.2 with ⟨-, rfl⟩ | ⟨next, -, rfl⟩
  · exact absurd hi hAway
  · subst hi
    obtain ⟨tcb', hGet', hContext, -⟩ :=
      switch_thread next (List.getElem?_eq_getElem hLayout.inv.current_lt)
    rw [contextRsp_some hGet', hContext, if_pos rfl, contextSwitch_mem]
    exact frameCpu_pushed k

theorem LawfulStep.enters (hLayout : k.Layout bootStack) (h : LawfulStep bootStack k e k')
    {entryFn ptr : UInt64} (hCreated : created e = some (entryFn, ptr)) :
    k'.contextRsp k.sched.threads.length = stackTop ptr - 7 * 8 ∧
      k'.stackOf bootStack k.sched.threads.length = some ⟨ptr, kernelStackSize⟩ ∧
      (⟨ptr, kernelStackSize⟩ : KernelStack).Placed ∧
      frameCpu k'.mem (stackTop ptr - 7 * 8) = entryCpu k.image entryFn ptr := by
  cases h.effect hLayout.inv with
  | keep hNone =>
    rw [hCreated] at hNone
    cases hNone
  | switch => cases hCreated
  | add tid pid entryFn' ptr' hCreated' hPlaced _ hSched hMem =>
    obtain ⟨rfl, rfl⟩ := Prod.mk.inj (Option.some.inj (hCreated.symm.trans hCreated'))
    have hCurrent := hLayout.inv.current_lt
    have hGet := Scheduler.addThread_get_new k.sched
      ⟨tid, pid, .ready, ⟨stackTop ptr - 7 * 8⟩, ⟨ptr, kernelStackSize⟩⟩
    rw [← hSched] at hGet
    refine ⟨contextRsp_some hGet, ?_, hPlaced, by rw [hMem, newStack_frame]⟩
    rw [stackOf, hGet, Option.map_some, if_neg (by omega)]

end Effects

/-! ### Whole runs -/

def demos (b : Boot) : List Event :=
  [.createProcess "demo_a" b.image.demoTaskA b.stackA,
    .createProcess "demo_b" b.image.demoTaskB b.stackB]

/-- `k` is reached by the lawful events `es` from the kernel process and its idle thread.  Runs from
`scheduler::init` are those with `demos b` as their first events. -/
def LawfulRun (b : Boot) (bootStack : KernelStack) (es : List Event) (k : Kernel) : Prop :=
  bootStack.Placed ∧ ∃ k₀, initIdle b = .ok k₀ ∧ Run (LawfulStep bootStack) k₀ es k

/-- Thread `i` has been waiting in the run `es` to `k` since the event `e` in state `m`. -/
def Since (b : Boot) (bootStack : KernelStack) (es : List Event) (k : Kernel) (i : Nat)
    (m : Kernel) (e : Event) : Prop :=
  ∃ before after m', es = before ++ e :: after ∧ LawfulRun b bootStack before m ∧
    LawfulStep bootStack m e m' ∧ Run (LawfulStep bootStack) m' after k ∧
    ∀ first last q, after = first ++ last → Run (LawfulStep bootStack) m' first q →
      i < q.sched.threads.length ∧ i ≠ q.sched.current

theorem LawfulStep.det (bootStack : KernelStack) (k : Kernel) (e : Event) (k₁ k₂ : Kernel)
    (h₁ : LawfulStep bootStack k e k₁) (h₂ : LawfulStep bootStack k e k₂) : k₁ = k₂ :=
  Except.ok.inj (h₁.2.symm.trans h₂.2)

theorem initIdle_layout {b : Boot} {bootStack : KernelStack} {k : Kernel} (hBoot : bootStack.Placed)
    (h : initIdle b = .ok k) : k.Layout bootStack := by
  have hInv := initIdle_inv h
  have hZero : ∀ i s, k.stackOf bootStack i = some s → i = 0 ∧ s = bootStack := by
    intro i s hs
    obtain ⟨tcb, hGet, rfl⟩ := stackOf_some.mp hs
    cases h
    rcases Scheduler.addThread_cases hGet with hOld | ⟨rfl, -⟩
    · cases hOld
    · exact ⟨rfl, rfl⟩
  refine ⟨hInv, fun i s hs => (hZero i s hs).2 ▸ hBoot, fun i j s t hNe hs ht => ?_,
    fun i s hCurrent hs => ?_⟩
  · exact absurd ((hZero i s hs).1.trans (hZero j t ht).1.symm) hNe
  · obtain ⟨rfl, -⟩ := hZero i s hs
    cases h
    exact absurd rfl hCurrent

theorem exec_image {k k' : Kernel} {e : Event} (hCurrent : k.sched.current < k.sched.threads.length)
    (h : k.exec e = .ok k') : k'.image = k.image := by
  cases e with
  | tick =>
    rcases exec_tick hCurrent h with ⟨-, rfl⟩ | ⟨next, -, rfl⟩
    · rfl
    · simp
  | spawnThread | markThreadExited | run =>
    obtain rfl := Except.ok.inj h
    rfl
  | createProcess name entryFn ptr =>
    obtain ⟨pid, hCreate⟩ := exec_createProcess h
    obtain ⟨k₁, hInsert, rfl⟩ := createProcess_ok hCreate
    obtain ⟨-, -, rfl⟩ := insertProcess_ok hInsert
    rfl
  | exitProcess pid exitCode =>
    obtain rfl := Except.ok.inj h
    cases hGet : k.table.get pid with
    | none => rw [exitProcess_none hGet]
    | some pcb => rw [exitProcess_some hGet]

theorem LawfulRun.layout {b : Boot} {bootStack : KernelStack} {es : List Event} {k : Kernel}
    (h : LawfulRun b bootStack es k) : k.Layout bootStack ∧ k.image = b.image := by
  obtain ⟨hBoot, k₀, hInit, run⟩ := h
  refine run.invariant (P := fun k => k.Layout bootStack ∧ k.image = b.image)
    (fun k e k' hk step => ⟨step.layout hk.1, ?_⟩) ⟨initIdle_layout hBoot hInit, ?_⟩
  · rw [exec_image hk.1.inv.current_lt step.2, hk.2]
  · cases hInit
    rfl

theorem LawfulRun.reaches {b : Boot} {bootStack : KernelStack} {es : List Event} {k : Kernel}
    (h : LawfulRun b bootStack (demos b ++ es) k) : Reaches b es k := by
  obtain ⟨-, k₀, hInit, run⟩ := h
  have run := run.mono fun _ _ _ step => step.2
  cases run with
  | cons stepA run =>
    cases run with
    | cons stepB run =>
      obtain ⟨pidA, hA⟩ := exec_createProcess stepA
      obtain ⟨pidB, hB⟩ := exec_createProcess stepB
      refine ⟨_, ?_, run⟩
      simp only [init, hInit, Panic.bind_ok, hA, hB]
      rfl

/-- A waiting thread still has the stack, the context and the frame that it was left with. -/
theorem Since.waited {b : Boot} {bootStack : KernelStack} {es : List Event} {k m : Kernel} {i : Nat}
    {e : Event} (h : Since b bootStack es k i m e) :
    ∃ m', LawfulStep bootStack m e m' ∧ m.Layout bootStack ∧ m.image = b.image ∧
      i ≠ m'.sched.current ∧ k.stackOf bootStack i = m'.stackOf bootStack i ∧
      k.contextRsp i = m'.contextRsp i ∧
      frameCpu k.mem (k.contextRsp i) = frameCpu m'.mem (m'.contextRsp i) := by
  obtain ⟨before, after, m', -, hBefore, hStep, hAfter, hWait⟩ := h
  obtain ⟨hLayout, hImage⟩ := hBefore.layout
  obtain ⟨-, hStack, hRsp, hFrame⟩ := hAfter.invariant_while
    (P := fun q => q.Layout bootStack ∧ q.stackOf bootStack i = m'.stackOf bootStack i ∧
      q.contextRsp i = m'.contextRsp i ∧
      frameCpu q.mem (q.contextRsp i) = frameCpu m'.mem (m'.contextRsp i))
    (LawfulStep.det bootStack)
    (fun q a q' hWaits hq step => by
      have hTouch := (step.effect hq.1.inv).untouched hq.1 hWaits.1 hWaits.2
      exact ⟨step.layout hq.1, hTouch.stack.trans hq.2.1, hTouch.rsp.trans hq.2.2.1,
        (step.frame_eq hq.1 hWaits.1 hWaits.2).trans hq.2.2.2⟩)
    hWait ⟨hStep.layout hLayout, rfl, rfl, rfl⟩
  exact ⟨m', hStep, hLayout, hImage, (hWait [] after m' rfl (.nil m')).2, hStack, hRsp, hFrame⟩

/-- A thread that waits was switched out, or it was created and has not run. -/
theorem LawfulRun.since {b : Boot} {bootStack : KernelStack} {es : List Event} {k : Kernel} {i : Nat}
    (h : LawfulRun b bootStack es k) (hi : i < k.sched.threads.length)
    (hWaits : i ≠ k.sched.current) :
    ∃ m e, Since b bootStack es k i m e ∧ (e = .tick ∧ m.sched.current = i ∨
      i ≠ 0 ∧ created e ≠ none ∧ m.sched.threads.length = i) := by
  obtain ⟨hBoot, k₀, hInit, run⟩ := h
  have hStart : ¬(i < k₀.sched.threads.length ∧ i ≠ k₀.sched.current) := by
    cases hInit
    rintro ⟨hLt, hNe⟩
    have hLt : i < 1 := hLt
    exact hNe (Nat.lt_one_iff.mp hLt)
  obtain ⟨before, e, after, m, m', rfl, hBefore, hStep, hAfter, hm, hAll⟩ :=
    run.last_step (P := fun q => i < q.sched.threads.length ∧ i ≠ q.sched.current)
      (LawfulStep.det bootStack) hStart ⟨hi, hWaits⟩
  have hRun : LawfulRun b bootStack before m := ⟨hBoot, k₀, hInit, hBefore⟩
  have hLayout := hRun.layout.1
  obtain ⟨hLt, hNe⟩ := hAll [] after m' rfl (.nil m')
  refine ⟨m, e, ⟨before, after, m', rfl, hRun, hStep, hAfter, hAll⟩, ?_⟩
  have hCurrent := hLayout.inv.current_lt
  cases hStep.effect hLayout.inv with
  | keep _ _ hLength hSame => exact absurd ⟨hLength ▸ hLt, hSame ▸ hNe⟩ hm
  | add _ _ _ _ hCreated _ _ hSched =>
    rw [hSched, Scheduler.addThread_length] at hLt
    rw [hSched, Scheduler.addThread_current] at hNe
    have hEnd : m.sched.threads.length = i := by
      by_contra hOther
      exact hm ⟨by omega, hNe⟩
    exact .inr ⟨by omega, by rw [hCreated]; simp, hEnd⟩
  | switch =>
    refine .inl ⟨rfl, ?_⟩
    by_contra hOther
    exact hm ⟨by simpa using hLt, Ne.symm hOther⟩

/-- Each tick that switches, in every lawful run from `scheduler::init`.  A thread that was switched
out continues with the registers, the stack pointer and the return address that it had when it last
called `context_switch`; a thread that has not run is entered through the trampoline, from a frame
in its own stack and with an aligned stack; every thread is of one of these kinds, the idle thread
of the first, and no stack pointer that is loaded is the placeholder. -/
theorem contextSwitch_fidelity {b : Boot} {bootStack : KernelStack} {es : List Event} {k k' : Kernel}
    {i : Nat} (h : LawfulRun b bootStack (demos b ++ es) k) (hTick : LawfulStep bootStack k .tick k')
    (hTarget : k.target .tick = some i) :
    (∀ m, Since b bootStack (demos b ++ es) k i m .tick → m.sched.current = i →
      k'.cpu = m.returnCpu) ∧
    (∀ m e entryFn ptr, Since b bootStack (demos b ++ es) k i m e →
      created e = some (entryFn, ptr) → m.sched.threads.length = i →
      k'.cpu = entryCpu b.image entryFn ptr ∧ k'.cpu.rsp.toNat % 16 = 0 ∧
        k.stackOf bootStack i = some ⟨ptr, kernelStackSize⟩ ∧
        (⟨ptr, kernelStackSize⟩ : KernelStack).HoldsFrame (k.contextRsp i)) ∧
    k.contextRsp i ≠ 0 ∧
    ∃ m e, Since b bootStack (demos b ++ es) k i m e ∧ (e = .tick ∧ m.sched.current = i ∨
      i ≠ 0 ∧ created e ≠ none ∧ m.sched.threads.length = i) := by
  have hLayout := h.layout.1
  have hNext : k.sched.nextReady = some i := target_tick hLayout.inv ▸ hTarget
  obtain ⟨hNe, tcb, hGet, -⟩ := Scheduler.nextReady_some hLayout.inv hNext
  have hCpu := hTick.resumes hLayout hNext
  have hStack : k.stackOf bootStack i = some _ := stackOf_some.mpr ⟨tcb, hGet, rfl⟩
  refine ⟨fun m hSince hm => ?_, fun m e entryFn ptr hSince hCreated hm => ?_, fun hZero => ?_,
    h.since (List.getElem?_eq_some_iff.mp hGet).1 hNe⟩
  · obtain ⟨m', hStep, hLayout', -, hAway, -, -, hFrame⟩ := hSince.waited
    rw [hCpu, hFrame, hStep.saves hLayout' hm (Ne.symm hAway)]
  · obtain ⟨m', hStep, hLayout', hImage, -, hSame, hRsp, hFrame⟩ := hSince.waited
    obtain ⟨hTop, hNew, hPlaced, hEnter⟩ := hStep.enters hLayout' hCreated
    rw [hm] at hTop hNew
    rw [hTop, hEnter, hImage] at hFrame
    rw [hCpu, hFrame]
    refine ⟨rfl, ?_, hSame.trans hNew, hRsp ▸ hTop ▸ stackTop_holdsFrame hPlaced⟩
    show (stackTop ptr).toNat % 16 = 0
    rw [toNat_stackTop hPlaced]
    omega
  · have hFrame := hLayout.frame i _ hNe hStack
    have hPlaced := hLayout.placed i _ hStack
    rw [hZero] at hFrame
    have hLow := hFrame.1
    have hPos := hPlaced.1
    simp at hLow
    omega

/-! ### A sample run -/

/-- A sufficient test of `Lawful`, for events that do not write to memory directly. -/
def lawful (bootStack : KernelStack) (k : Kernel) : Event → Bool
  | .tick => (k.stackOf bootStack k.sched.current).all fun s =>
    s.ptr.toNat + 48 ≤ k.cpu.rsp.toNat ∧ k.cpu.rsp.toNat + 8 ≤ s.ptr.toNat + s.len.toNat
  | .spawnThread _ _ ptr | .createProcess _ _ ptr =>
    0 < ptr.toNat ∧ ptr.toNat + kernelStackSize.toNat < 2 ^ 64 ∧
      ∀ s ∈ bootStack :: k.sched.threads.map (·.kernelStack),
        s.ptr.toNat + s.len.toNat ≤ ptr.toNat ∨ ptr.toNat + kernelStackSize.toNat ≤ s.ptr.toNat
  | .run _ _ => false
  | .markThreadExited _ | .exitProcess _ _ => true

theorem lawful_sound {bootStack : KernelStack} {k : Kernel} {e : Event}
    (h : k.lawful bootStack e = true) : k.Lawful bootStack e := by
  have hNew : ∀ ptr : UInt64, (0 < ptr.toNat ∧ ptr.toNat + kernelStackSize.toNat < 2 ^ 64 ∧
      ∀ s ∈ bootStack :: k.sched.threads.map (·.kernelStack),
        s.ptr.toNat + s.len.toNat ≤ ptr.toNat ∨
          ptr.toNat + kernelStackSize.toNat ≤ s.ptr.toNat) →
      (⟨ptr, kernelStackSize⟩ : KernelStack).Placed ∧
        ∀ i s, k.stackOf bootStack i = some s → s.Apart ⟨ptr, kernelStackSize⟩ := by
    rintro ptr ⟨hPos, hEnd, hClear⟩
    refine ⟨⟨hPos, hEnd⟩, fun i s hs addr hAddr hAddr' => ?_⟩
    obtain ⟨tcb, hGet, hStack⟩ := stackOf_some.mp hs
    have hMem : s ∈ bootStack :: k.sched.threads.map (·.kernelStack) := by
      split at hStack
      · simp [hStack]
      · exact .tail _ (hStack ▸ List.mem_map_of_mem (List.mem_of_getElem? hGet))
    have := hClear s hMem
    simp only [KernelStack.Contains] at hAddr hAddr'
    omega
  cases e with
  | tick =>
    intro _ s hs
    simp only [lawful, hs, Option.all_some, decide_eq_true_eq] at h
    exact h
  | spawnThread pid entryFn ptr => exact hNew ptr (by simpa [lawful] using h)
  | createProcess name entryFn ptr => exact hNew ptr (by simpa [lawful] using h)
  | run => cases h
  | markThreadExited | exitProcess => trivial

def sampleStack : KernelStack := ⟨0x8000, 0x2000⟩

def sampleCpu : Cpu := ⟨fun _ => 7, 0x102000, 0x2000⟩

/-- The idle thread is switched out, thread 1 runs, and a tick resumes the idle thread. -/
theorem contextSwitch_fidelity_sample :
    ∃ es k k' m, Reaches sampleBoot es k ∧
      LawfulRun sampleBoot sampleStack (demos sampleBoot ++ es) k ∧
      LawfulStep sampleStack k .tick k' ∧ k.target .tick = some 0 ∧
      Since sampleBoot sampleStack (demos sampleBoot ++ es) k 0 m .tick ∧ m.sched.current = 0 ∧
      k'.cpu = m.returnCpu := by
  have hBoot : sampleStack.Placed := ⟨by decide, by decide⟩
  obtain ⟨k₀, hInit, hEval⟩ : ∃ k₀, initIdle sampleBoot = .ok k₀ ∧
      ((Run.execChecked (fun k e => (exec k e).toOption) (lawful sampleStack) k₀
        (demos sampleBoot ++ [.markThreadExited 2])).any fun m =>
          m.lawful sampleStack .tick && decide (m.sched.current = 0) &&
            (m.exec .tick).toOption.any fun m' =>
              decide (m'.sched.current = 1 ∧ m'.sched.nextReady = some 0 ∧
                m'.sched.threads.length = 3 ∧
                m'.stackOf sampleStack 1 = some ⟨0x100003, kernelStackSize⟩)) = true :=
    ⟨_, rfl, by decide⟩
  simp only [Bool.and_eq_true, Option.any_eq_true, decide_eq_true_eq] at hEval
  obtain ⟨m, hm, ⟨hTick, hIdle⟩, m', hm', hCurrent, hNext, hLength, hStack⟩ := hEval
  have hBefore : Run (LawfulStep sampleStack) k₀ _ m :=
    (Run.execChecked_run hm).mono fun _ _ _ step =>
      ⟨lawful_sound step.1, Panic.toOption_eq_some step.2⟩
  have hAway : LawfulStep sampleStack m .tick m' :=
    ⟨lawful_sound hTick, Panic.toOption_eq_some hm'⟩
  -- Thread 1 runs: it changes the registers and leaves memory as it is.
  have hRun : LawfulStep sampleStack m' (.run sampleCpu m'.mem) { m' with cpu := sampleCpu } :=
    ⟨fun _ _ _ _ _ _ => rfl, rfl⟩
  have hSince : Since sampleBoot sampleStack
      (demos sampleBoot ++ [.markThreadExited 2, .tick, .run sampleCpu m'.mem])
      { m' with cpu := sampleCpu } 0 m .tick := by
    refine ⟨_, [.run sampleCpu m'.mem], m', (List.append_assoc _ [_] _).symm,
      ⟨hBoot, k₀, hInit, hBefore⟩, hAway, .single hRun, ?_⟩
    refine (Run.forall_cons_iff (LawfulStep.det sampleStack) hRun).mpr ⟨?_, ?_⟩
    · omega
    · rintro first last q hSplit hq
      obtain ⟨rfl, -⟩ := List.append_eq_nil_iff.mp hSplit.symm
      cases hq
      simp only
      omega
  have hReach : LawfulRun sampleBoot sampleStack
      (demos sampleBoot ++ [.markThreadExited 2, .tick, .run sampleCpu m'.mem])
      { m' with cpu := sampleCpu } :=
    ⟨hBoot, k₀, hInit, hBefore.append (.cons hAway (.single hRun))⟩
  have hInv := hReach.reaches.inv
  have hTarget : Kernel.target { m' with cpu := sampleCpu } .tick = some 0 := by
    rw [target_tick hInv]
    exact hNext
  obtain ⟨k', hBack⟩ : ∃ k', LawfulStep sampleStack { m' with cpu := sampleCpu } .tick k' := by
    refine ⟨_, fun _ s hs => ?_, tick_eq hInv.current_lt⟩
    simp only [hCurrent] at hs
    obtain rfl := Option.some.inj (hStack.symm.trans hs)
    show KernelStack.HasRoom ⟨0x100003, kernelStackSize⟩ sampleCpu.rsp
    exact ⟨by decide, by decide⟩
  exact ⟨_, _, k', m, hReach.reaches, hReach, hBack, hTarget, hSince, hIdle,
    (contextSwitch_fidelity hReach hBack hTarget).1 m hSince hIdle⟩

end Kernel

end RixOs

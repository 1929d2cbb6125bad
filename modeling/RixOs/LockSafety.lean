import RixOs.Handlers

/-! The locks of the kernel under interrupts.  `SERIAL`, `CONSOLE`, `LAPIC` and `ACPI_SHUTDOWN` are
taken with interrupts disabled only, so they are free whenever an interrupt can arrive, at every
context switch and at every request.  `SCHEDULER` is taken by thread code with interrupts enabled:
there a timer interrupt finds it held by the thread that it interrupts, and `tick` spins forever. -/

namespace RixOs

open ProofKit ProofKit.Interrupts

/-! ### The code keeps the discipline -/

section Discipline

variable {tracked : Lock → Bool} {strict : Bool} {flag : Bool} {held : List Lock}

theorem keeps_lockedPrint {l : Lock} (hFree : l ∉ held) :
    Keeps tracked strict (lockedPrint l) flag held :=
  .withoutInterrupts (.locked hFree (.act _ _ _) (.act _ _ _)) flag

theorem keeps_log (maxLevel : Option Level) (level : Level) (hFree : .serial ∉ held) :
    Keeps tracked strict (log maxLevel level) flag held := by
  rw [log]
  split
  · exact keeps_lockedPrint hFree
  · exact .nil

theorem keeps_locked (l : Lock) (a : Act) : Keeps tracked strict (locked l [.act a]) false [] :=
  .locked (by simp) (.act _ _ _) (.act _ _ _)

theorem keeps_tickCode : Keeps tracked strict tickCode false [] :=
  (keeps_locked _ _).append fun _ _ hRest => ⟨fun _ => rfl, rfl, rfl, hRest⟩

theorem keeps_shutdown (maxLevel : Option Level) :
    Keeps tracked strict (shutdown maxLevel) false [] :=
  .locked (by simp) ((keeps_log _ _ (by simp)).append (.act _ _ _))
    ((keeps_log _ _ (by simp)).append (.act _ _ _))

theorem keeps_interruptHandler (maxLevel : Option Level) (i : Interrupt) :
    Keeps tracked strict (interruptHandler maxLevel i) false [] := by
  have hEnd : Keeps tracked strict endInterrupts false [] := keeps_locked _ _
  match i with
  | .timer => exact hEnd.append keeps_tickCode
  | .keyboard scancode =>
    refine ((keeps_log _ _ (by simp)).append ?_).append hEnd
    split
    · exact keeps_shutdown maxLevel
    · exact .nil
  | .lapicError => exact (keeps_log _ _ (by simp)).append hEnd
  | .spurious => exact keeps_log _ _ (by simp)

/-- The scheduler functions take `SCHEDULER` whatever the flag is. -/
theorem keeps_scheduler (hScheduler : tracked .scheduler = true → strict = false) (a : Act) :
    Keeps tracked strict (locked .scheduler [.act a]) flag [] := by
  match hTracked : tracked .scheduler, flag with
  | _, false => exact keeps_locked _ _
  | true, true =>
    obtain rfl := hScheduler hTracked
    exact .locked_enabled hTracked
  | false, true => exact .locked_untracked hTracked (.act _ _ _)

theorem keeps_call (hScheduler : tracked .scheduler = true → strict = false)
    (maxLevel : Option Level) (c : Call) : Keeps tracked strict (c.code maxLevel) flag [] := by
  induction c generalizing flag with
  | print => exact keeps_lockedPrint (by simp)
  | serialPrint => exact keeps_lockedPrint (by simp)
  | log level => exact keeps_log _ _ (by simp)
  | currentTid => exact keeps_scheduler hScheduler _
  | currentPid => exact keeps_scheduler hScheduler _
  | spawnThread pid entryFn ptr => exact (Keeps.act _ _ _).append (keeps_scheduler hScheduler _)
  | markThreadExited tid => exact keeps_scheduler hScheduler _
  | compute cpu mem => exact .act _ _ _
  | withoutInterrupts body ih => exact .withoutInterrupts ih flag
  | seq first second ihFirst ihSecond => exact ihFirst.append ihSecond

theorem safe_threadTrampoline : Safe tracked strict threadTrampoline false [] [] :=
  ⟨fun _ => rfl, rfl, rfl, rfl⟩

theorem program_disciplined (hScheduler : tracked .scheduler = true → strict = false)
    (maxLevel : Option Level) : Disciplined tracked strict (program maxLevel) where
  handler := keeps_interruptHandler maxLevel
  call := keeps_call hScheduler maxLevel
  start := safe_threadTrampoline

theorem start_inv (c : Config) (k : Kernel) : Inv tracked strict (c.start k) := by
  refine ⟨⟨[], fun _ _ => by simp [Config.start], fun _ => rfl, fun t ht => ?_⟩,
    fun i t hi ht => ?_⟩
  · obtain rfl := Option.some.inj ht
    show Safe tracked strict (log c.maxLevel .debug ++ [.sti] ++ log c.maxLevel .debug) false [] []
    rw [List.append_assoc]
    refine keeps_log _ _ (by simp) _ _ ⟨fun _ => rfl, ?_⟩
    show Safe tracked strict (log c.maxLevel .debug) true [] []
    rw [← List.append_nil (log c.maxLevel .debug)]
    exact keeps_log _ _ (by simp) _ _ ⟨rfl, rfl, rfl⟩
  · obtain ⟨j, rfl⟩ := Nat.exists_eq_succ_of_ne_zero hi
    obtain ⟨-, rfl⟩ := List.mem_replicate.mp (List.mem_of_getElem? ht)
    exact safe_threadTrampoline

end Discipline

/-! ### The locks that are taken with interrupts disabled -/

namespace Config

variable {c : Config} {k : Kernel} {labels : List Label} {m m' : Machine}

theorem Reaches.inv (h : c.Reaches labels m) : Inv (fun l => l ≠ .scheduler) true m := by
  obtain ⟨k, -, run⟩ := h
  have hP : Disciplined (fun l => l ≠ .scheduler) true (program c.maxLevel) :=
    program_disciplined (by simp) c.maxLevel
  exact run.invariant (fun _ _ _ hInv step => hInv.step hP (by simp) step) (start_inv c k)

/-- In every state that is reached, `SERIAL`, `CONSOLE`, `LAPIC` and `ACPI_SHUTDOWN` are free if
interrupts are enabled, they are free at a context switch, and a request for one of them is granted
at once. -/
theorem locks_free (h : c.Reaches labels m) {l : Lock} (hl : l ≠ .scheduler) :
    (m.interruptFlag = true → m.holder l = none) ∧
      (m.next = some .switch → m.holder l = none) ∧
      (m.next = some (.lock l) →
        ∃ m', (program c.maxLevel).Step m .instr m' ∧ m'.holder l = some m.running) := by
  have hInv := h.inv
  have hTracked : decide (l ≠ .scheduler) = true := by simpa using hl
  refine ⟨fun hFlag => hInv.free_of_enabled hFlag hTracked,
    fun hNext => hInv.free_of_switch hNext hTracked, fun hNext => ?_⟩
  exact lock_granted hNext (hInv.free_of_request hNext hTracked)

/-- A machine that logs everything and shuts down through the debug port of QEMU. -/
def sample : Config where
  boot := Kernel.sampleBoot
  cpu := ⟨fun _ => 0, 0x9000, 0x400⟩
  mem := fun _ => 0
  maxLevel := some .trace
  acpiShutdown := ⟨0, 0, 0, true⟩

/-- `enable_interrupts` returns; a timer interrupt switches to the next thread, which starts to log
a message. -/
def sampleLog : List Label :=
  List.replicate 13 .instr ++ .interrupt .timer :: List.replicate 8 .instr ++
    .call (.log .info) :: List.replicate 2 .instr

theorem locks_free_sample : ∃ m, sample.Reaches sampleLog m ∧ m.running = 1 ∧
    m.next = some (.lock .serial) ∧
    ∃ m', (program sample.maxLevel).Step m .instr m' ∧ m'.holder .serial = some m.running := by
  obtain ⟨m, hReach, hValue⟩ : ∃ m, sample.Reaches sampleLog m ∧
      (m.running, m.requested) = (1, some .serial) := evaluate_reaches (by decide)
  obtain ⟨hRunning, hRequested⟩ := Prod.mk.inj hValue
  have hNext := Machine.next_of_requested hRequested
  exact ⟨m, hReach, hRunning, hNext, (locks_free hReach (by decide)).2.2 hNext⟩

/-! ### The scheduler lock -/

/-- A step that takes `SCHEDULER` takes it with interrupts disabled. -/
def SchedulerMasked (m : Machine) (label : Label) : Prop :=
  label = .instr → m.next = some (.lock .scheduler) → m.interruptFlag = false

def MaskedStep (c : Config) (m : Machine) (label : Label) (m' : Machine) : Prop :=
  SchedulerMasked m label ∧ (program c.maxLevel).Step m label m'

/-- `m` is reached by steps that take `SCHEDULER` with interrupts disabled only. -/
def ReachesMasked (c : Config) (labels : List Label) (m : Machine) : Prop :=
  ∃ k, Kernel.init c.boot = .ok k ∧ Run c.MaskedStep (c.start k) labels m

theorem ReachesMasked.reaches (h : c.ReachesMasked labels m) : c.Reaches labels m := by
  obtain ⟨k, hInit, run⟩ := h
  exact ⟨k, hInit, run.mono fun _ _ _ step => step.2⟩

theorem ReachesMasked.inv (h : c.ReachesMasked labels m) :
    Inv (fun l => l = .scheduler) false m := by
  obtain ⟨k, -, run⟩ := h
  have hP : Disciplined (fun l => l = .scheduler) false (program c.maxLevel) :=
    program_disciplined (fun _ => rfl) c.maxLevel
  refine run.invariant (fun n label n' hInv step => hInv.step hP (fun _ l hLabel hl hNext => ?_)
    step.2) (start_inv c k)
  obtain rfl := of_decide_eq_true hl
  exact step.1 hLabel hNext

/-- A timer interrupt on a thread that holds `SCHEDULER`: the handler gets as far as `tick`, and the
machine stops there. -/
theorem timer_deadlocks {t : Interrupts.Thread Lock Act} (hThread : m.threads[m.running]? = some t)
    (hFlag : m.interruptFlag = true) (hLapic : m.holder .lapic = none)
    (hScheduler : m.holder .scheduler = some m.running) :
    ∃ m', Run (program c.maxLevel).Step m [.interrupt .timer, .instr, .instr, .instr] m' ∧
      m'.SelfDeadlock .scheduler ∧ m'.interruptFlag = false := by
  obtain ⟨m₁, hEnter, hRunning, hClear, hHandler, hHolder⟩ :=
    interrupt_step (P := program c.maxLevel) hThread hFlag .timer
  have hCode : (program c.maxLevel).handler .timer ++ .iret :: t.code =
      locked .lapic [.act .endInterrupts] ++ (tickCode ++ .iret :: t.code) := rfl
  rw [hCode] at hHandler
  obtain ⟨m₂, hEnd, hAdvances, -, hHolder'⟩ :=
    locked_run (P := program c.maxLevel) hHandler (by rw [hHolder, hLapic]) rfl
  refine ⟨m₂, .cons hEnter hEnd, ⟨?_, ?_⟩, by rw [hAdvances.interruptFlag, hClear]⟩
  · rw [Machine.next, hAdvances.thread]
    rfl
  · rw [hHolder', hHolder, hScheduler, hAdvances.running, hRunning]

theorem unmasked_deadlocks (h : c.ReachesMasked labels m)
    (hStep : (program c.maxLevel).Step m .instr m') (hUnmasked : ¬SchedulerMasked m .instr) :
    ∃ dead, Run (program c.maxLevel).Step m' [.interrupt .timer, .instr, .instr, .instr] dead ∧
      dead.SelfDeadlock .scheduler ∧ dead.interruptFlag = false := by
  obtain ⟨hNext, hFlag⟩ : m.next = some (.lock .scheduler) ∧ m.interruptFlag = true := by
    simpa [SchedulerMasked] using hUnmasked
  obtain ⟨⟨_, flags⟩, ht, hHead⟩ := Option.bind_eq_some_iff.mp hNext
  obtain ⟨code, rfl⟩ := List.head?_eq_some_iff.mp hHead
  obtain ⟨n, hLock, hAdvances, -, hHolder⟩ :=
    lock_step (P := program c.maxLevel) ht (h.inv.free_of_request hNext rfl)
  obtain rfl := Option.some.inj (hLock.symm.trans hStep)
  refine timer_deadlocks hAdvances.thread (by rw [hAdvances.interruptFlag, hFlag]) ?_ ?_
  · rw [hHolder, Function.update_of_ne (by decide)]
    exact h.reaches.inv.free_of_enabled hFlag rfl
  · rw [hHolder, Function.update_self, hAdvances.running]

/-- While every step that takes `SCHEDULER` takes it with interrupts disabled, no thread waits for
`SCHEDULER` while it holds it.  The first step that does not leads on to a state where one does, in
`tick`, and where nothing happens any more. -/
theorem masked_never_spins (h : c.ReachesMasked labels m) :
    ¬m.SelfDeadlock .scheduler ∧
      ∀ m', (program c.maxLevel).Step m .instr m' → ¬SchedulerMasked m .instr →
        ∃ dead, Run (program c.maxLevel).Step m' [.interrupt .timer, .instr, .instr, .instr] dead ∧
          dead.SelfDeadlock .scheduler ∧
          ∀ label next, ¬(program c.maxLevel).Step dead label next := by
  constructor
  · rintro ⟨hNext, hHeld⟩
    rw [h.inv.free_of_request hNext rfl] at hHeld
    cases hHeld
  · intro m' hStep hUnmasked
    obtain ⟨dead, run, hSpins, hFlag⟩ := unmasked_deadlocks h hStep hUnmasked
    exact ⟨dead, run, hSpins, fun label _ => hSpins.stuck hFlag label⟩

def schedulerMasked (m : Machine) (label : Label) : Bool :=
  match label, m.requested with
  | .instr, some .scheduler => !m.interruptFlag
  | _, _ => true

theorem schedulerMasked_sound {label : Label} (h : schedulerMasked m label = true) :
    SchedulerMasked m label := by
  rintro rfl hNext
  simpa [schedulerMasked, Machine.requested, hNext] using h

/-- The idle thread reads its TID with interrupts disabled; a timer interrupt comes right after
that, and `tick` takes `SCHEDULER`. -/
def sampleMasked : List Label :=
  List.replicate 13 .instr ++ .call (.withoutInterrupts .currentTid) ::
    List.replicate 6 .instr ++ .interrupt .timer :: List.replicate 3 .instr

theorem masked_never_spins_sample : ∃ m, sample.ReachesMasked sampleMasked m ∧
    m.next = some (.lock .scheduler) ∧ ¬m.SelfDeadlock .scheduler := by
  obtain ⟨k, m, hInit, run, hValue⟩ : ∃ k m, Kernel.init sample.boot = .ok k ∧
      Run (fun m label m' => schedulerMasked m label = true ∧
        (program sample.maxLevel).Step m label m') (sample.start k) sampleMasked m ∧
      m.requested = some .scheduler := evaluate_run (by decide)
  have hReach : sample.ReachesMasked sampleMasked m :=
    ⟨k, hInit, run.mono fun _ _ _ step => ⟨schedulerMasked_sound step.1, step.2⟩⟩
  exact ⟨m, hReach, Machine.next_of_requested hValue, (masked_never_spins hReach).1⟩

/-- A timer interrupt switches to the first demo thread.  It takes `SCHEDULER` in the call of
`current_pid` that it starts with, and the next timer interrupt comes before it releases it. -/
def sampleSpin : List Label :=
  List.replicate 13 .instr ++ .interrupt .timer :: List.replicate 8 .instr ++
    [.call .currentPid, .instr, .interrupt .timer, .instr, .instr, .instr]

/-- The interrupted thread holds `SCHEDULER` when `tick` requests it, and the machine stops. -/
theorem tick_spins : ∃ m, sample.Reaches sampleSpin m ∧ m.SelfDeadlock .scheduler ∧
    ∀ label next, ¬(program sample.maxLevel).Step m label next := by
  obtain ⟨m, hReach, hValue⟩ : ∃ m, sample.Reaches sampleSpin m ∧
      (m.requested, m.holder .scheduler, m.running, m.interruptFlag) =
        (some .scheduler, some 1, 1, false) := evaluate_reaches (by decide)
  simp only [Prod.mk.injEq] at hValue
  obtain ⟨hRequested, hHolder, hRunning, hFlag⟩ := hValue
  have hSpins : m.SelfDeadlock .scheduler :=
    ⟨Machine.next_of_requested hRequested, by rw [hHolder, hRunning]⟩
  exact ⟨m, hReach, hSpins, fun label _ => hSpins.stuck hFlag label⟩

end Config

end RixOs

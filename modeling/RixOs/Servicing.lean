import RixOs.LockSafety
import RixOs.ProofKit.Ledger

/-! What an interrupt gets.  Each timer, keyboard and LAPIC error interrupt is acknowledged by one
end-of-interrupt, before interrupts are enabled again and before the next thread runs; a spurious
interrupt by none.  Each press of Enter is one write that powers the machine off. -/

namespace RixOs

open ProofKit ProofKit.Interrupts

namespace Act

def isEndInterrupts : Act → Bool
  | .endInterrupts => true
  | _ => false

def isPowerOff : Act → Bool
  | .powerOff => true
  | _ => false

/-- A predicate on actions that only handlers execute. -/
def HandlersOnly (marked : Act → Bool) : Prop :=
  ∀ a, marked a = true → a = .endInterrupts ∨ a = .powerOff

theorem handlersOnly_endInterrupts : HandlersOnly isEndInterrupts := by
  intro a h
  cases a with
  | endInterrupts => exact .inl rfl
  | _ => cases h

theorem handlersOnly_powerOff : HandlersOnly isPowerOff := by
  intro a h
  cases a with
  | powerOff => exact .inr rfl
  | _ => cases h

end Act

/-! ### The code settles -/

section Settles

variable {marked : Act → Bool}

theorem settling_log (maxLevel : Option Level) (level : Level) :
    Settling marked (log maxLevel level) := by
  unfold log
  split
  · exact .withoutInterrupts (.locked _ (.act _))
  · exact .nil

theorem settling_endInterrupts : Settling marked endInterrupts := .locked _ (.act _)

theorem settling_shutdown (maxLevel : Option Level) : Settling marked (shutdown maxLevel) :=
  .locked _ ((settling_log _ _).append (.act _))

/-- A handler settles, where the code that it interrupts owes nothing: `tick` comes last. -/
theorem settles_handler (maxLevel : Option Level) (i : Interrupt) {code : Code}
    (hOwed : owed marked code = 0) (flags : List Bool) :
    Settles marked (interruptHandler maxLevel i ++ .iret :: code) false (true :: flags) := by
  have hReturn : Settles marked (.iret :: code) false (true :: flags) :=
    ⟨nofun, settles_of_owed hOwed _ _⟩
  cases i with
  | timer =>
    have hSwitch : Settles marked (.switch :: .iret :: code) false (true :: flags) := by
      refine ⟨nofun, ?_⟩
      show owed marked (.iret :: code) = 0
      rw [owed_cons, hOwed]
      rfl
    have hTick : Settles marked (tickCode ++ .iret :: code) false (true :: flags) := by
      rw [tickCode, List.append_assoc]
      exact Settling.locked .scheduler (.act .prepareSwitch) _ _ hSwitch
    have hAll := settling_endInterrupts _ _ hTick
    simpa [interruptHandler, timerInterruptHandler, tickCode] using hAll
  | keyboard scancode =>
    refine Settling.append ((settling_log _ _).append ?_) settling_endInterrupts _ _ hReturn
    split
    · exact settling_shutdown maxLevel
    · exact .nil
  | lapicError => exact (settling_log _ _).append settling_endInterrupts _ _ hReturn
  | spurious => exact settling_log _ _ _ _ hReturn

variable (hMarked : Act.HandlersOnly marked)
include hMarked

theorem not_marked {a : Act} (hEnd : a ≠ .endInterrupts) (hPower : a ≠ .powerOff) :
    marked a = false := by
  by_contra hNot
  rcases hMarked a (by simpa using hNot) with h | h
  · exact hEnd h
  · exact hPower h

theorem owed_locked {l : Lock} {a : Act} (hEnd : a ≠ .endInterrupts) (hPower : a ≠ .powerOff) :
    owed marked (locked l [.act a]) = 0 := by
  have hNot := not_marked hMarked hEnd hPower
  simp [locked, owed, Instr.isMarked, hNot]

theorem owed_lockedPrint (l : Lock) : owed marked (lockedPrint l) = 0 := by
  have hLocked := owed_locked hMarked (l := l) (a := .write) (by simp) (by simp)
  rw [lockedPrint, Interrupts.withoutInterrupts, owed_cons, owed_cons, owed_append, hLocked]
  rfl

theorem owed_log (maxLevel : Option Level) (level : Level) : owed marked (log maxLevel level) = 0 := by
  unfold log
  split
  · exact owed_lockedPrint hMarked .serial
  · rfl

theorem owed_call (maxLevel : Option Level) (c : Call) : owed marked (c.code maxLevel) = 0 := by
  induction c with
  | print | serialPrint => exact owed_lockedPrint hMarked _
  | log level => exact owed_log hMarked _ _
  | currentTid | currentPid | markThreadExited => exact owed_locked hMarked (by simp) (by simp)
  | spawnThread pid entryFn ptr =>
    have hNew := not_marked hMarked (a := .newThread pid entryFn ptr) (by simp) (by simp)
    rw [Call.code, owed_cons, owed_locked hMarked (by simp) (by simp), Instr.isMarked, hNew]
    rfl
  | compute cpu mem =>
    have hNot := not_marked hMarked (a := .compute cpu mem) (by simp) (by simp)
    simp [Call.code, owed, Instr.isMarked, hNot]
  | withoutInterrupts body ih =>
    rw [Call.code, Interrupts.withoutInterrupts, owed_cons, owed_cons, owed_append, ih]
    rfl
  | seq first second ihFirst ihSecond => rw [Call.code, owed_append, ihFirst, ihSecond]

theorem settled (maxLevel : Option Level) : Settled marked (program maxLevel) where
  handler i _ flags hOwed := settles_handler maxLevel i hOwed flags
  call := owed_call hMarked maxLevel
  start := rfl

theorem start_quiet (c : Config) (k : Kernel) :
    Quiet marked (c.start k) ∧ (c.start k).debt marked = 0 := by
  have hIdle : owed marked (enableInterrupts c.maxLevel) = 0 := by
    rw [enableInterrupts, owed_append, owed_append, owed_log hMarked]
    rfl
  refine ⟨⟨fun t ht => ?_, fun i t hi ht => ?_⟩, hIdle⟩
  · obtain rfl := Option.some.inj ht
    exact settles_of_owed hIdle _ _
  · obtain ⟨j, rfl⟩ := Nat.exists_eq_succ_of_ne_zero hi
    obtain ⟨-, rfl⟩ := List.mem_replicate.mp (List.mem_of_getElem? ht)
    rfl

end Settles

/-! ### What the handlers ask for -/

namespace Interrupt

def acknowledged : Interrupt → Bool
  | .spurious => false
  | _ => true

def isEnter : Interrupt → Bool
  | .keyboard scancode => scancode = 28
  | _ => false

end Interrupt

/-- A label that takes an interrupt of a kind. -/
def takes (p : Interrupt → Bool) : Label → Bool
  | .interrupt i => p i
  | _ => false

theorem owed_handler_endInterrupts (maxLevel : Option Level) (i : Interrupt) :
    owed Act.isEndInterrupts (interruptHandler maxLevel i) = i.acknowledged.toNat := by
  have hLog := owed_log Act.handlersOnly_endInterrupts maxLevel
  cases i with
  | timer => rfl
  | keyboard scancode =>
    show owed Act.isEndInterrupts (keyboardInterruptHandler maxLevel scancode) = 1
    unfold keyboardInterruptHandler
    rw [owed_append, owed_append, hLog]
    split
    · rw [shutdown, locked, owed_cons, owed_append, owed_append, hLog]
      rfl
    · rfl
  | lapicError =>
    show owed Act.isEndInterrupts (lapicErrorHandler maxLevel) = 1
    rw [lapicErrorHandler, owed_append, hLog]
    rfl
  | spurious => exact hLog .debug

theorem owed_handler_powerOff (maxLevel : Option Level) (i : Interrupt) :
    owed Act.isPowerOff (interruptHandler maxLevel i) = i.isEnter.toNat := by
  have hLog := owed_log Act.handlersOnly_powerOff maxLevel
  cases i with
  | timer => rfl
  | keyboard scancode =>
    show owed Act.isPowerOff (keyboardInterruptHandler maxLevel scancode) =
      (decide (scancode = 28)).toNat
    unfold keyboardInterruptHandler
    rw [owed_append, owed_append, hLog]
    split
    · rename_i h
      rw [shutdown, locked, owed_cons, owed_append, owed_append, hLog, decide_eq_true h]
      rfl
    · rename_i h
      rw [decide_eq_false h]
      rfl
  | lapicError =>
    show owed Act.isPowerOff (lapicErrorHandler maxLevel) = 0
    rw [lapicErrorHandler, owed_append, hLog]
    rfl
  | spurious => exact hLog .debug

theorem issuedAlong_eq {marked : Act → Bool} {maxLevel : Option Level} {p : Interrupt → Bool}
    (h : ∀ i, owed marked (interruptHandler maxLevel i) = (p i).toNat) (labels : List Label) :
    issuedAlong marked (program maxLevel) labels = labels.countP (takes p) := by
  induction labels with
  | nil => rfl
  | cons label labels ih =>
    rw [issuedAlong, ih, List.countP_cons, Nat.add_comm]
    cases label with
    | interrupt i =>
      show _ + owed marked (interruptHandler maxLevel i) = _
      rw [h i, takes]
      cases p i <;> rfl
    | instr | call => rfl

/-! ### Runs -/

namespace Config

variable {c : Config} {k : Kernel} {labels : List Label} {m m' : Machine}

/-- What the running thread has executed of a marked action, and still owes, is what the interrupts
of the run ask for, where each handler asks for at most one. -/
theorem balanced {marked : Act → Bool} {p : Interrupt → Bool} (hMarked : Act.HandlersOnly marked)
    (hOwed : ∀ i, owed marked (interruptHandler c.maxLevel i) = (p i).toNat)
    (run : Run (program c.maxLevel).Step (c.start k) labels m) :
    Quiet marked m ∧
      paidAlong marked (program c.maxLevel) (c.start k) labels + m.debt marked =
        labels.countP (takes p) ∧
      m.debt marked ≤ 1 ∧ (m.interruptFlag = true ∨ m.next = some .switch → m.debt marked = 0) := by
  have hP := settled hMarked c.maxLevel
  obtain ⟨hStart, hZero⟩ := start_quiet hMarked c k
  obtain ⟨hQuiet, hBalance⟩ := Quiet.run hP run hStart
  rw [hZero, Nat.zero_add, issuedAlong_eq hOwed] at hBalance
  refine ⟨hQuiet, hBalance, ?_, ?_⟩
  · refine Quiet.debt_le hP (fun i => ?_) run hStart (by omega)
    rw [show owed marked ((program c.maxLevel).handler i) = _ from hOwed i]
    exact Bool.toNat_le _
  · rintro (hFlag | hNext)
    · exact hQuiet.debt_of_enabled hFlag
    · exact hQuiet.debt_of_switch hNext

/-- In every state that is reached, the end-of-interrupts that were sent are as many as the timer,
keyboard and LAPIC error interrupts that were taken, but for one that the running thread still has
to send; none is left to send where interrupts are enabled, at a context switch, or for a thread
that does not run. -/
theorem acknowledged_once (run : Run (program c.maxLevel).Step (c.start k) labels m) :
    let sent := paidAlong Act.isEndInterrupts (program c.maxLevel) (c.start k) labels
    let pending := m.debt Act.isEndInterrupts
    sent + pending = labels.countP (takes Interrupt.acknowledged) ∧ pending ≤ 1 ∧
      (m.interruptFlag = true ∨ m.next = some .switch → pending = 0) ∧
      ∀ (i : Nat) (t : Interrupts.Thread Lock Act), i ≠ m.running → m.threads[i]? = some t →
        owed Act.isEndInterrupts t.code = 0 := by
  obtain ⟨hQuiet, hBalance, hOne, hNone⟩ :=
    balanced Act.handlersOnly_endInterrupts (owed_handler_endInterrupts c.maxLevel) run
  exact ⟨hBalance, hOne, hNone, hQuiet.waiting⟩

/-- `enable_interrupts` returns, Enter is pressed, and its interrupt is handled. -/
def samplePress : List Label :=
  List.replicate 13 .instr ++ .interrupt (.keyboard 28) :: List.replicate 19 .instr

theorem samplePress_run : ∃ k m, Kernel.init sample.boot = .ok k ∧
    Run (program sample.maxLevel).Step (sample.start k) samplePress m ∧ m.interruptFlag = true := by
  obtain ⟨k, m, hInit, run, hFlag⟩ : ∃ k m, Kernel.init sample.boot = .ok k ∧
      Run (fun m label m' => true = true ∧ (program sample.maxLevel).Step m label m')
        (sample.start k) samplePress m ∧ m.interruptFlag = true := evaluate_run (by decide)
  exact ⟨k, m, hInit, run.mono fun _ _ _ step => step.2, hFlag⟩

theorem acknowledged_once_sample : ∃ k m, Kernel.init sample.boot = .ok k ∧
    Run (program sample.maxLevel).Step (sample.start k) samplePress m ∧
    paidAlong Act.isEndInterrupts (program sample.maxLevel) (sample.start k) samplePress = 1 := by
  obtain ⟨k, m, hInit, run, hFlag⟩ := samplePress_run
  obtain ⟨hBalance, -, hNone, -⟩ := acknowledged_once run
  rw [hNone (.inl hFlag), Nat.add_zero] at hBalance
  exact ⟨k, m, hInit, run, hBalance⟩

/-- An action on the shared state writes to the port of the shutdown if it powers off. -/
theorem exec_portWrites {s s' : Shared} {i : Nat} {a : Act} (h : s.exec i a = some s') :
    s'.acpiShutdown = s.acpiShutdown ∧ s'.portWrites =
      s.portWrites ++ List.replicate a.isPowerOff.toNat s.acpiShutdown.portWrite := by
  have hNone : ∀ {s' : Shared}, s'.acpiShutdown = s.acpiShutdown → s'.portWrites = s.portWrites →
      a.isPowerOff = false → s'.acpiShutdown = s.acpiShutdown ∧ s'.portWrites =
        s.portWrites ++ List.replicate a.isPowerOff.toNat s.acpiShutdown.portWrite := by
    intro s' hInfo hWrites hPower
    exact ⟨hInfo, by rw [hWrites, hPower]; exact (List.append_nil _).symm⟩
  cases a with
  | powerOff =>
    obtain rfl := Option.some.inj h
    exact ⟨rfl, rfl⟩
  | write | endInterrupts | newThread | markExited | compute =>
    obtain rfl := Option.some.inj h
    exact hNone rfl rfl rfl
  | prepareSwitch | addThread | currentTid | currentPid =>
    obtain ⟨_, -, h⟩ := Option.bind_eq_some_iff.mp h
    obtain rfl := Option.some.inj h
    exact hNone rfl rfl rfl

theorem contextSwitch_portWrites (s : Shared) (i : Nat) :
    (s.contextSwitch i).1.acpiShutdown = s.acpiShutdown ∧
      (s.contextSwitch i).1.portWrites = s.portWrites := by
  unfold Shared.contextSwitch
  split <;> exact ⟨rfl, rfl⟩

theorem step_portWrites {label : Label} (hStep : (program c.maxLevel).Step m label m') :
    m'.shared.acpiShutdown = m.shared.acpiShutdown ∧ m'.shared.portWrites = m.shared.portWrites ++
      List.replicate (paid Act.isPowerOff m label) m.shared.acpiShutdown.portWrite := by
  have hSame : ∀ {m' : Machine}, m'.shared = m.shared → paid Act.isPowerOff m label = 0 →
      m'.shared.acpiShutdown = m.shared.acpiShutdown ∧
        m'.shared.portWrites = m.shared.portWrites ++
          List.replicate (paid Act.isPowerOff m label) m.shared.acpiShutdown.portWrite := by
    intro m' hShared hPaid
    rw [hShared, hPaid]
    exact ⟨rfl, (List.append_nil _).symm⟩
  obtain ⟨⟨_, flags⟩, ht, hCases⟩ := Program.Step.inv hStep
  rcases hCases with ⟨instr, code, rfl, rfl, hExec⟩ | ⟨i, rfl, -, rfl⟩ | ⟨d, rfl, -, rfl⟩
  · have hPaid : paid Act.isPowerOff m (.instr : Label) = (instr.isMarked Act.isPowerOff).toNat := by
      rw [paid, Machine.next_of_thread ht]
      rfl
    rcases execInstr_view hExec with ⟨hOther, -, hView⟩ | ⟨a, s, rfl, hAct, hView⟩ | ⟨rfl, hView⟩
    · refine hSame ?_ ?_
      · rcases hView with hView | ⟨l, -, -, hView⟩ | ⟨l, -, hView⟩ <;>
          exact congrArg View.shared hView
      · rw [hPaid]
        cases instr with
        | act a => exact absurd rfl (hOther a)
        | _ => rfl
    · obtain rfl : m'.shared = s := congrArg View.shared hView
      rw [hPaid]
      exact exec_portWrites hAct
    · obtain ⟨hInfo, hWrites⟩ := contextSwitch_portWrites m.shared m.running
      rw [hPaid, show m'.shared = (m.shared.contextSwitch m.running).1 from
        congrArg View.shared hView]
      exact ⟨hInfo, by rw [hWrites]; exact (List.append_nil _).symm⟩
  · exact hSame rfl rfl
  · exact hSame rfl rfl

theorem run_portWrites (run : Run (program c.maxLevel).Step m labels m') :
    m'.shared.portWrites = m.shared.portWrites ++ List.replicate
      (paidAlong Act.isPowerOff (program c.maxLevel) m labels) m.shared.acpiShutdown.portWrite := by
  induction run with
  | nil => exact (List.append_nil _).symm
  | cons step _ ih =>
    obtain ⟨hInfo, hWrites⟩ := step_portWrites step
    rw [ih, hInfo, hWrites, List.append_assoc, List.replicate_append_replicate, paidAlong,
      show (program c.maxLevel).exec _ _ = some _ from step]

/-- The ports of the machine are written only by the presses of Enter that were taken, once for
each, always with the same value; one write may be left to make for the running thread, and none is
where interrupts are enabled or at a context switch. -/
theorem powered_off_once (run : Run (program c.maxLevel).Step (c.start k) labels m) :
    let presses := labels.countP (takes Interrupt.isEnter)
    ∃ n, m.shared.portWrites = List.replicate n c.acpiShutdown.portWrite ∧
      n ≤ presses ∧ presses ≤ n + 1 ∧
      (m.interruptFlag = true ∨ m.next = some .switch → n = presses) := by
  obtain ⟨-, hBalance, hOne, hNone⟩ :=
    balanced Act.handlersOnly_powerOff (owed_handler_powerOff c.maxLevel) run
  refine ⟨_, (run_portWrites run).trans (List.nil_append _), by omega, by omega, fun hQuiet => ?_⟩
  have hZero := hNone hQuiet
  omega

theorem powered_off_once_sample : ∃ k m, Kernel.init sample.boot = .ok k ∧
    Run (program sample.maxLevel).Step (sample.start k) samplePress m ∧
    m.shared.portWrites = [(0xf4, 0x10)] := by
  obtain ⟨k, m, hInit, run, hFlag⟩ := samplePress_run
  obtain ⟨n, hWrites, -, -, hAll⟩ := powered_off_once run
  obtain rfl : n = 1 := hAll (.inl hFlag)
  exact ⟨k, m, hInit, run, hWrites⟩

end Config

end RixOs

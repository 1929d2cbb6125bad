import RixOs.LockSafety
import RixOs.Fairness
import RixOs.ProofKit.Typestates

/-! The scheduler under preemption.  In the machine of threads and interrupts, the invariant of the
thread table holds after every instruction, and the thread that runs is the current one, except
between `prepare_switch` and the context switch of the same `tick`. -/

namespace RixOs

open ProofKit ProofKit.Interrupts

/-! ### The automaton that threads follow -/

/-- Where a thread is in `tick`: `prepare_switch` is done, and the lock is released. -/
inductive Phase
  | idle
  | chosen
  | due
  deriving DecidableEq

def nextPhase : Phase → Interrupts.Instr Lock Act → Option Phase
  | .idle, .act .prepareSwitch => some .chosen
  | .idle, .switch => none
  | .idle, _ => some .idle
  | .chosen, .unlock .scheduler => some .due
  | .due, .switch => some .idle
  | _, _ => none

/-- Whether a thread has created a thread that it has not added yet. -/
def nextSpawn (pending : Bool) : Interrupts.Instr Lock Act → Option Bool
  | .act (.newThread _ _ _) => if pending then none else some true
  | .act .addThread => if pending then some false else none
  | _ => some pending

def threadStates : Typestate Lock Act (Phase × Bool) where
  next q instr := do return (← nextPhase q.1 instr, ← nextSpawn q.2 instr)
  idle := (.idle, false)

/-- `tick` returned what thread `i` switches to. -/
def Shared.Chosen (s : Shared) (i : Nat) : Prop :=
  match (s.locals i).switchInfo with
  | some (_, next) => s.kernel.sched.current = next
  | none => s.kernel.sched.current = i

/-- What the state `q` of thread `i` means. -/
structure Steady (v : View Lock Shared) (i : Nat) (q : Phase × Bool) : Prop where
  waiting : i ≠ v.running → q.1 = .idle
  idle : i = v.running → q.1 = .idle → v.shared.kernel.sched.current = i
  chosen : i = v.running → q.1 ≠ .idle → v.shared.Chosen i
  due : i = v.running → q.1 = .due → v.holder .scheduler = none
  spawn : q.2 = true → ∃ tcb, (v.shared.locals i).tcb = some tcb ∧ tcb.state = .ready

/-- The invariant of the scheduler, and `SCHEDULER` is held by the running thread or by none. -/
structure Ordered (v : View Lock Shared) : Prop where
  sched : v.shared.kernel.sched.Inv
  holder : ∀ i, v.holder .scheduler = some i → i = v.running

theorem nextPhase_some {ph ph' : Phase} {instr : Interrupts.Instr Lock Act}
    (h : nextPhase ph instr = some ph') :
    (ph = .idle ∧ ph' = .idle ∧ instr ≠ .act .prepareSwitch ∧ instr ≠ .switch) ∨
      (ph = .idle ∧ ph' = .chosen ∧ instr = .act .prepareSwitch) ∨
      (ph = .chosen ∧ ph' = .due ∧ instr = .unlock .scheduler) ∨
      (ph = .due ∧ ph' = .idle ∧ instr = .switch) := by
  unfold nextPhase at h
  split at h <;> cases h
  · simp
  · rename_i h₁ h₂
    exact .inl ⟨rfl, rfl, h₁, h₂⟩
  · simp
  · simp

theorem next_some {q q' : Phase × Bool} {instr : Interrupts.Instr Lock Act}
    (h : threadStates.next q instr = some q') :
    nextPhase q.1 instr = some q'.1 ∧ nextSpawn q.2 instr = some q'.2 := by
  obtain ⟨ph, hPhase, h⟩ := Option.bind_eq_some_iff.mp h
  obtain ⟨p, hSpawn, h⟩ := Option.bind_eq_some_iff.mp h
  obtain rfl := Option.some.inj h
  exact ⟨hPhase, hSpawn⟩

/-- An instruction other than an action leaves what a thread has created alone. -/
theorem nextSpawn_other {p p' : Bool} {instr : Interrupts.Instr Lock Act}
    (hOther : ∀ a, instr ≠ .act a) (h : nextSpawn p instr = some p') : p' = p := by
  unfold nextSpawn at h
  split at h
  · exact absurd rfl (hOther _)
  · exact absurd rfl (hOther _)
  · exact (Option.some.inj h).symm

theorem nextSpawn_pending {p : Bool} {a : Act} (h : nextSpawn p (.act a) = some true)
    (hNot : ∀ pid entryFn ptr, a ≠ .newThread pid entryFn ptr) : p = true := by
  unfold nextSpawn at h
  split at h
  · rename_i hNew
    injection hNew with hNew
    exact absurd hNew (hNot _ _ _)
  · cases p <;> simp at h
  · exact Option.some.inj h

theorem nextSpawn_addThread {p p' : Bool} (h : nextSpawn p (.act .addThread) = some p') :
    p = true := by
  cases p with
  | false => cases h
  | true => rfl

/-! ### What one action changes -/

def ThreadControlBlock.stateAndTid (t : ThreadControlBlock) : ThreadState × UInt64 :=
  (t.state, t.tid)

theorem Scheduler.Inv.congr {s s' : Scheduler} (h : s.Inv) (hCurrent : s'.current = s.current)
    (hThreads : ∀ i : Nat, s'.threads[i]?.map ThreadControlBlock.stateAndTid =
      s.threads[i]?.map ThreadControlBlock.stateAndTid) : s'.Inv := by
  have hGet : ∀ {i : Nat} {t' : ThreadControlBlock}, s'.threads[i]? = some t' →
      ∃ t, s.threads[i]? = some t ∧ t.state = t'.state ∧ t.tid = t'.tid := by
    intro i t' ht'
    have hEq := hThreads i
    rw [ht', Option.map_some] at hEq
    obtain ⟨t, ht, hPair⟩ := Option.map_eq_some_iff.mp hEq.symm
    exact ⟨t, ht, (Prod.mk.inj hPair).1, (Prod.mk.inj hPair).2⟩
  have hLift : ∀ {i : Nat} {t : ThreadControlBlock}, s.threads[i]? = some t →
      ∃ t', s'.threads[i]? = some t' ∧ t'.state = t.state ∧ t'.tid = t.tid := by
    intro i t ht
    have hEq := hThreads i
    rw [ht, Option.map_some] at hEq
    obtain ⟨t', ht', hPair⟩ := Option.map_eq_some_iff.mp hEq
    exact ⟨t', ht', (Prod.mk.inj hPair).1, (Prod.mk.inj hPair).2⟩
  refine ⟨?_, fun t' ht' => ?_, fun i t' ht' hNe => ?_, ?_⟩
  · obtain ⟨t', ht', -, -⟩ := hLift (List.getElem?_eq_getElem h.current_lt)
    rw [hCurrent]
    exact (List.getElem?_eq_some_iff.mp ht').1
  · rw [hCurrent] at ht'
    obtain ⟨t, ht, hState, -⟩ := hGet ht'
    rw [← hState]
    exact h.current_state t ht
  · rw [hCurrent] at hNe
    obtain ⟨t, ht, hState, -⟩ := hGet ht'
    rw [← hState]
    exact h.other_state i t ht hNe
  · obtain ⟨t, ht, hTid⟩ := h.idle
    obtain ⟨t', ht', -, hTid'⟩ := hLift ht
    exact ⟨t', ht', hTid'.trans hTid⟩

theorem Scheduler.saveContext_ids (s : Scheduler) (idx : Nat) (rsp : UInt64) (i : Nat) :
    (s.saveContext idx rsp).threads[i]?.map ThreadControlBlock.stateAndTid =
      s.threads[i]?.map ThreadControlBlock.stateAndTid := by
  rw [Scheduler.saveContext_get]
  cases s.threads[i]? with
  | none => rfl
  | some t => by_cases hi : i = idx <;> simp [hi, ThreadControlBlock.stateAndTid]

theorem Scheduler.inv_saveContext (s : Scheduler) (idx : Nat) (rsp : UInt64) :
    (s.saveContext idx rsp).Inv ↔ s.Inv :=
  ⟨fun h => h.congr rfl fun i => (s.saveContext_ids idx rsp i).symm,
    fun h => h.congr rfl (s.saveContext_ids idx rsp)⟩

namespace Shared

variable {s s' : Shared} {i : Nat}

/-- `prepare_switch` on the current thread. -/
theorem exec_prepareSwitch (hInv : s.kernel.sched.Inv) (h : s.exec i .prepareSwitch = some s') :
    s'.kernel.sched.Inv ∧ s'.kernel.sched.threads.length = s.kernel.sched.threads.length ∧
      (s.kernel.sched.current = i → s'.Chosen i) ∧ (s'.locals i).tcb = (s.locals i).tcb ∧
      (∀ j ≠ i, s'.locals j = s.locals j) ∧ s'.kernel.sched.sweep = s.kernel.sched.sweep.turn := by
  rw [exec, Scheduler.prepareSwitch_eq hInv.current_lt] at h
  cases hNext : s.kernel.sched.nextReady with
  | none =>
    rw [hNext] at h
    obtain rfl := Option.some.inj h
    refine ⟨hInv, rfl, fun hCurrent => ?_, ?_, fun j hj => Function.update_of_ne hj _ _,
      (Scheduler.sweep_stay hInv hNext).symm⟩
    · rw [Chosen, setLocals_self]
      exact hCurrent
    · rw [setLocals_self]
  | some next =>
    rw [hNext] at h
    obtain rfl := Option.some.inj h
    refine ⟨?_, Scheduler.switchTo_length _ _, fun _ => ?_, ?_,
      fun j hj => Function.update_of_ne hj _ _, Scheduler.sweep_switchTo hInv hNext⟩
    · exact (Scheduler.inv_saveContext _ s.kernel.sched.current 0).mp
        ((Scheduler.Step.switch 0 hNext).inv hInv)
    · rw [Chosen, setLocals_self]
      rfl
    · rw [setLocals_self]

/-- An action writes the locals of its own thread only. -/
theorem exec_locals {a : Act} (h : s.exec i a = some s') {j : Nat} (hj : j ≠ i) :
    s'.locals j = s.locals j := by
  cases a with
  | write | endInterrupts | powerOff | markExited | compute =>
    obtain rfl := Option.some.inj h
    rfl
  | newThread pid entryFn ptr =>
    obtain rfl := Option.some.inj h
    exact Function.update_of_ne hj _ _
  | addThread =>
    obtain ⟨tcb, -, h⟩ := Option.bind_eq_some_iff.mp h
    obtain rfl := Option.some.inj h
    rfl
  | prepareSwitch | currentTid | currentPid =>
    obtain ⟨_, -, h⟩ := Option.bind_eq_some_iff.mp h
    obtain rfl := Option.some.inj h
    exact Function.update_of_ne hj _ _

/-- A thread that is created is kept until the next one is. -/
theorem exec_tcb {a : Act} (h : s.exec i a = some s') :
    (∃ tcb, (s'.locals i).tcb = some tcb ∧ tcb.state = .ready) ∨
      (∀ pid entryFn ptr, a ≠ .newThread pid entryFn ptr) ∧
        (s'.locals i).tcb = (s.locals i).tcb := by
  cases a with
  | newThread pid entryFn ptr =>
    obtain rfl := Option.some.inj h
    exact .inl ⟨_, by rw [setLocals_self], rfl⟩
  | write | endInterrupts | powerOff | markExited | compute =>
    obtain rfl := Option.some.inj h
    exact .inr ⟨nofun, rfl⟩
  | addThread =>
    obtain ⟨tcb, -, h⟩ := Option.bind_eq_some_iff.mp h
    obtain rfl := Option.some.inj h
    exact .inr ⟨nofun, rfl⟩
  | prepareSwitch | currentTid | currentPid =>
    obtain ⟨_, -, h⟩ := Option.bind_eq_some_iff.mp h
    obtain rfl := Option.some.inj h
    exact .inr ⟨nofun, by rw [setLocals_self]⟩

/-- What an action does to the queue of Ready threads. -/
def operations (s : Shared) : Act → List (Sweep.Op Nat)
  | .prepareSwitch => [.turn]
  | .addThread => [.arrive s.kernel.sched.threads.length]
  | .markExited tid => [.leave (s.kernel.sched.indexOf tid)]
  | _ => []

theorem exec_other {a : Act} (hNot : a ≠ .prepareSwitch) (hInv : s.kernel.sched.Inv)
    (hReady : ∀ tcb, a = .addThread → (s.locals i).tcb = some tcb → tcb.state = .ready)
    (h : s.exec i a = some s') :
    s'.kernel.sched.Inv ∧ s.kernel.sched.threads.length ≤ s'.kernel.sched.threads.length ∧
      s'.kernel.sched.current = s.kernel.sched.current ∧
      s'.kernel.sched.sweep = s.kernel.sched.sweep.exec (s.operations a) := by
  cases a with
  | prepareSwitch => exact absurd rfl hNot
  | write | endInterrupts | powerOff | compute | newThread =>
    obtain rfl := Option.some.inj h
    exact ⟨hInv, Nat.le_refl _, rfl, rfl⟩
  | currentTid | currentPid =>
    obtain ⟨_, -, h⟩ := Option.bind_eq_some_iff.mp h
    obtain rfl := Option.some.inj h
    exact ⟨hInv, Nat.le_refl _, rfl, rfl⟩
  | addThread =>
    obtain ⟨tcb, hTcb, h⟩ := Option.bind_eq_some_iff.mp h
    obtain rfl := Option.some.inj h
    have hState := hReady tcb rfl hTcb
    exact ⟨(Scheduler.Step.add tcb hState).inv hInv,
      (Nat.le_succ _).trans_eq (Scheduler.addThread_length _ tcb).symm, rfl,
      Scheduler.sweep_addThread hInv.current_lt hState⟩
  | markExited tid =>
    obtain rfl := Option.some.inj h
    exact ⟨(Scheduler.Step.exit tid).inv hInv, Nat.le_of_eq (Scheduler.markExited_length _ _).symm,
      rfl, Scheduler.sweep_markExited _ tid⟩

theorem exec_current {tcb : ThreadControlBlock}
    (hGet : s.kernel.sched.threads[s.kernel.sched.current]? = some tcb) :
    s.exec i .currentTid = some (s.setLocals i { s.locals i with result := some tcb.tid }) ∧
      s.exec i .currentPid = some (s.setLocals i { s.locals i with result := some tcb.pid }) := by
  rw [exec, exec, Kernel.currentTid, Kernel.currentPid, Scheduler.currentTid, Scheduler.currentPid,
    Scheduler.thread_ok hGet]
  exact ⟨rfl, rfl⟩

/-- The context switch leads to the current thread. -/
theorem contextSwitch_current (hChosen : s.Chosen i) :
    (s.contextSwitch i).2 = s.kernel.sched.current := by
  rw [Chosen] at hChosen
  rw [contextSwitch]
  split
  · rename_i hInfo
    rw [hInfo] at hChosen
    exact hChosen.symm
  · rename_i hInfo
    rw [hInfo] at hChosen
    exact hChosen.symm

theorem contextSwitch_keeps (s : Shared) (i : Nat) :
    ((s.contextSwitch i).1.kernel.sched.Inv ↔ s.kernel.sched.Inv) ∧
      (s.contextSwitch i).1.kernel.sched.current = s.kernel.sched.current ∧
      (s.contextSwitch i).1.kernel.sched.threads.length = s.kernel.sched.threads.length ∧
      (s.contextSwitch i).1.locals = s.locals ∧
      (s.contextSwitch i).1.kernel.sched.sweep = s.kernel.sched.sweep := by
  rw [contextSwitch]
  split
  · rename_i oldCtx newCtx _
    have hSched := Kernel.contextSwitch_sched s.kernel oldCtx newCtx
    generalize s.kernel.contextSwitch oldCtx newCtx = k at hSched ⊢
    rw [hSched]
    exact ⟨Scheduler.inv_saveContext _ _ _, rfl, Scheduler.saveContext_length _ _ _, rfl,
      Scheduler.sweep_saveContext _ _ _⟩
  · exact ⟨Iff.rfl, rfl, rfl, rfl, rfl⟩

end Shared

/-! ### The code of the kernel follows the automaton -/

section Follows

variable {p : Bool}

theorem stays_locked {l : Lock} {a : Act}
    (h : threadStates.next (.idle, p) (.act a) = some (.idle, p)) :
    threadStates.Stays (.idle, p) (locked l [.act a]) := .locked rfl (.cons h .nil) rfl

theorem stays_log (maxLevel : Option Level) (level : Level) :
    threadStates.Stays (.idle, p) (log maxLevel level) := by
  unfold log
  split
  · exact .withoutInterrupts rfl rfl (stays_locked rfl) rfl
  · exact .nil

theorem stays_tickCode : threadStates.Stays (.idle, p) tickCode := by
  intro rest hRest
  exact ⟨_, rfl, _, rfl, _, rfl, _, rfl, hRest⟩

theorem stays_interruptHandler (maxLevel : Option Level) (i : Interrupt) :
    threadStates.Stays (.idle, p) (interruptHandler maxLevel i ++ [.iret]) := by
  have hEnd : threadStates.Stays (.idle, p) endInterrupts := stays_locked rfl
  refine .append ?_ (.cons rfl .nil)
  match i with
  | .timer => exact hEnd.append stays_tickCode
  | .keyboard scancode =>
    refine ((stays_log _ _).append ?_).append hEnd
    split
    · exact .locked rfl ((stays_log _ _).append (.cons rfl .nil)) rfl
    · exact .nil
  | .lapicError => exact (stays_log _ _).append hEnd
  | .spurious => exact stays_log _ _

theorem stays_call (maxLevel : Option Level) (c : Call) :
    threadStates.Stays (.idle, false) (c.code maxLevel) := by
  induction c with
  | print | serialPrint => exact .withoutInterrupts rfl rfl (stays_locked rfl) rfl
  | log level => exact stays_log _ _
  | currentTid | currentPid | markThreadExited => exact stays_locked rfl
  | spawnThread pid entryFn ptr =>
    intro rest hRest
    exact ⟨_, rfl, _, rfl, _, rfl, _, rfl, hRest⟩
  | compute cpu mem => exact .cons rfl .nil
  | withoutInterrupts body ih => exact .withoutInterrupts rfl rfl ih rfl
  | seq first second ihFirst ihSecond => exact ihFirst.append ihSecond

end Follows

/-! ### Every instruction keeps the assertions -/

section Keeping

variable {v : View Lock Shared} {i : Nat} {q q' : Phase × Bool} {maxLevel : Option Level}
  {m m' : Machine} {code : Code} {flags : List Bool}

theorem Steady.relock (h : Steady v i q) {holder : Lock → Option Nat}
    (hDue : i = v.running → q.1 = .due → holder .scheduler = none) :
    Steady { v with holder } i q := { h with due := hDue }

/-- A thread that is added is Ready. -/
theorem Steady.addThread (h : Steady v i q) {a : Act} {p : Bool}
    (hSpawn : nextSpawn q.2 (.act a) = some p) (tcb : ThreadControlBlock) (hAdd : a = .addThread)
    (hTcb : (v.shared.locals i).tcb = some tcb) : tcb.state = .ready := by
  subst hAdd
  obtain ⟨tcb', hTcb', hState⟩ := h.spawn (nextSpawn_addThread hSpawn)
  obtain rfl := Option.some.inj (hTcb.symm.trans hTcb')
  exact hState

theorem Ordered.lock (h : Ordered v) (l : Lock) :
    Ordered { v with holder := Function.update v.holder l (some v.running) } := by
  refine ⟨h.sched, fun j hj => ?_⟩
  simp only [Function.update_apply] at hj
  split at hj
  · exact (Option.some.inj hj).symm
  · exact h.holder j hj

theorem Ordered.unlock (h : Ordered v) (l : Lock) :
    Ordered { v with holder := Function.update v.holder l none } := by
  refine ⟨h.sched, fun j hj => ?_⟩
  simp only [Function.update_apply] at hj
  split at hj
  · cases hj
  · exact h.holder j hj

/-- The invariant of one instruction. -/
def KeptBy (m m' : Machine) (q' : Phase × Bool) : Prop :=
  Ordered m'.view ∧ Steady m'.view m.running q' ∧
    ∀ j ≠ m.running, ∀ p, Steady m.view j p → Steady m'.view j p

theorem keeps_lock (hGood : Ordered m.view) (hAssert : Steady m.view m.running q)
    (hIdle : q.1 = .idle) (l : Lock)
    (hView : m'.view = { m.view with holder := Function.update m.holder l (some m.running) }) :
    KeptBy m m' q := by
  rw [KeptBy, hView]
  refine ⟨hGood.lock l, hAssert.relock fun _ h => ?_, fun j hj p h => h.relock fun hEq =>
    absurd hEq hj⟩
  rw [hIdle] at h
  cases h

/-- The phase changes where the lock of `tick` is released. -/
theorem keeps_unlock (hGood : Ordered m.view) (hAssert : Steady m.view m.running q) (l : Lock)
    (hPhase : q.1 = .idle ∧ q'.1 = .idle ∨ q.1 = .chosen ∧ q'.1 = .due ∧ l = .scheduler)
    (hPending : q'.2 = q.2)
    (hView : m'.view = { m.view with holder := Function.update m.holder l none }) :
    KeptBy m m' q' := by
  rw [KeptBy, hView]
  refine ⟨hGood.unlock l, ?_, fun j hj p h => h.relock fun hEq => absurd hEq hj⟩
  rcases hPhase with ⟨hIdle, hIdle'⟩ | ⟨hChosen, hDue, rfl⟩
  · obtain rfl : q' = q := Prod.ext (hIdle'.trans hIdle.symm) hPending
    refine hAssert.relock fun _ h => ?_
    rw [hIdle] at h
    cases h
  · refine ⟨fun h => absurd rfl h, fun _ h => ?_, fun _ _ => ?_, fun _ _ => by simp,
      fun h => hAssert.spawn (hPending ▸ h)⟩
    · rw [hDue] at h
      cases h
    · exact hAssert.chosen rfl (by rw [hChosen]; simp)

theorem keeps_switch (hGood : Ordered m.view) (hAssert : Steady m.view m.running q)
    (hDue : q.1 = .due) (hIdle : q'.1 = .idle) (hPending : q'.2 = q.2)
    (hView : m'.view =
      ⟨(m.shared.contextSwitch m.running).1, (m.shared.contextSwitch m.running).2, m.holder⟩) :
    KeptBy m m' q' := by
  have hTo : (m.shared.contextSwitch m.running).2 = m.shared.kernel.sched.current :=
    Shared.contextSwitch_current (hAssert.chosen rfl (by rw [hDue]; simp))
  have hFree : m.holder .scheduler = none := hAssert.due rfl hDue
  obtain ⟨hInv, hCurrent, -, hLocals, -⟩ := Shared.contextSwitch_keeps m.shared m.running
  -- The thread that runs now is the current one, and all threads are in the phase `idle`.
  have hSteady : ∀ j p, p.1 = .idle → (p.2 = true → ∃ tcb,
      (m.shared.locals j).tcb = some tcb ∧ tcb.state = .ready) → Steady m'.view j p := by
    intro j p hp hTcb
    rw [hView]
    refine ⟨fun _ => hp, fun hj _ => ?_, fun _ h => absurd hp h, fun _ h => ?_, ?_⟩
    · exact hCurrent.trans (hTo.symm.trans hj.symm)
    · rw [hp] at h
      cases h
    · simpa only [hLocals] using hTcb
  refine ⟨?_, hSteady _ _ hIdle fun h => hAssert.spawn (hPending ▸ h),
    fun j hj p h => hSteady j p (h.waiting hj) h.spawn⟩
  rw [hView]
  refine ⟨hInv.mpr hGood.sched, fun j hj => ?_⟩
  simp only [hFree] at hj
  cases hj

theorem keeps_act (hGood : Ordered m.view) (hAssert : Steady m.view m.running q) {a : Act}
    (hNext : threadStates.next q (.act a) = some q') {s : Shared}
    (hAct : m.shared.exec m.running a = some s) (hView : m'.view = { m.view with shared := s }) :
    KeptBy m m' q' := by
  obtain ⟨hPhase, hSpawn⟩ := next_some hNext
  -- What the running thread has created and not added yet, after the action.
  have hCreated : q'.2 = true → ∃ tcb, (s.locals m.running).tcb = some tcb ∧ tcb.state = .ready := by
    intro hPending
    rcases Shared.exec_tcb hAct with hNew | ⟨hNot, hSame⟩
    · exact hNew
    · rw [hSame]
      exact hAssert.spawn (nextSpawn_pending (hPending ▸ hSpawn) hNot)
  have hOthers : ∀ j ≠ m.running, ∀ p, Steady m.view j p → Steady m'.view j p := by
    intro j hj p h
    rw [hView]
    refine ⟨h.waiting, fun hEq => absurd hEq hj, fun hEq => absurd hEq hj,
      fun hEq => absurd hEq hj, fun hPending => ?_⟩
    show ∃ tcb, (s.locals j).tcb = some tcb ∧ tcb.state = .ready
    rw [Shared.exec_locals hAct hj]
    exact h.spawn hPending
  rw [KeptBy]
  rcases nextPhase_some hPhase with ⟨hIdle, hIdle', hNot, -⟩ | ⟨hIdle, hChosen, hPrepare⟩ |
    ⟨-, -, h⟩ | ⟨-, -, h⟩
  · have hNot : a ≠ .prepareSwitch := fun h => hNot (congrArg _ h)
    obtain ⟨hInv, -, hCurrent, -⟩ :=
      Shared.exec_other hNot hGood.sched (hAssert.addThread hSpawn) hAct
    refine ⟨?_, ?_, hOthers⟩
    · rw [hView]
      exact ⟨hInv, hGood.holder⟩
    · rw [hView]
      refine ⟨fun _ => hIdle', fun _ _ => hCurrent.trans (hAssert.idle rfl hIdle),
        fun _ h => absurd hIdle' h, fun _ h => ?_, hCreated⟩
      rw [hIdle'] at h
      cases h
  · obtain rfl : a = .prepareSwitch := by injection hPrepare
    obtain ⟨hInv, -, hTo, -⟩ := Shared.exec_prepareSwitch hGood.sched hAct
    refine ⟨?_, ?_, hOthers⟩
    · rw [hView]
      exact ⟨hInv, hGood.holder⟩
    · rw [hView]
      refine ⟨fun h => absurd rfl h, fun _ h => ?_, fun _ _ => hTo (hAssert.idle rfl hIdle),
        fun _ h => ?_, hCreated⟩ <;>
        · rw [hChosen] at h
          cases h
  · cases h
  · cases h

theorem keeps_instr (hGood : Ordered m.view) (hAssert : Steady m.view m.running q)
    {instr : Interrupts.Instr Lock Act} (hNext : threadStates.next q instr = some q')
    (hExec : (program maxLevel).execInstr m code flags instr = some m') : KeptBy m m' q' := by
  obtain ⟨hPhase, hSpawn⟩ := next_some hNext
  rcases execInstr_view hExec with ⟨hAct, hSwitch, hView⟩ | ⟨a, s, rfl, hAct, hView⟩ |
    ⟨rfl, hView⟩
  · have hPending := nextSpawn_other hAct hSpawn
    have hCases : q.1 = .idle ∧ q'.1 = .idle ∨
        q.1 = .chosen ∧ q'.1 = .due ∧ instr = .unlock .scheduler := by
      rcases nextPhase_some hPhase with ⟨h, h', -⟩ | ⟨-, -, h⟩ | h | ⟨-, -, h⟩
      · exact .inl ⟨h, h'⟩
      · exact absurd h (hAct _)
      · exact .inr h
      · exact absurd h hSwitch
    rcases hView with hView | ⟨l, rfl, -, hView⟩ | ⟨l, rfl, hView⟩
    · rcases hCases with ⟨hIdle, hIdle'⟩ | ⟨hChosen, hDue, rfl⟩
      · obtain rfl : q' = q := Prod.ext (hIdle'.trans hIdle.symm) hPending
        rw [KeptBy, hView]
        exact ⟨hGood, hAssert, fun _ _ _ h => h⟩
      · obtain rfl := Option.some.inj hExec
        exact keeps_unlock hGood hAssert _ (.inr ⟨hChosen, hDue, rfl⟩) hPending rfl
    · rcases hCases with ⟨hIdle, hIdle'⟩ | ⟨-, -, h⟩
      · obtain rfl : q' = q := Prod.ext (hIdle'.trans hIdle.symm) hPending
        exact keeps_lock hGood hAssert hIdle l hView
      · cases h
    · refine keeps_unlock hGood hAssert l ?_ hPending hView
      rcases hCases with h | ⟨h, h', hUnlock⟩
      · exact .inl h
      · exact .inr ⟨h, h', by injection hUnlock⟩
  · exact keeps_act hGood hAssert hNext hAct hView
  · have hPending := nextSpawn_other (by simp) hSpawn
    rcases nextPhase_some hPhase with ⟨-, -, -, h⟩ | ⟨-, -, h⟩ | ⟨-, -, h⟩ | ⟨hDue, hIdle, -⟩
    · exact absurd rfl h
    · cases h
    · cases h
    · exact keeps_switch hGood hAssert hDue hIdle hPending hView

end Keeping

theorem keeping (maxLevel : Option Level) :
    Keeping threadStates (program maxLevel) Ordered Steady (fun q => q.1 = .idle) where
  instr hGood hAssert hNext hExec := keeps_instr hGood hAssert hNext hExec
  fresh hNe := ⟨fun _ => rfl, fun h => absurd h hNe, fun h => absurd h hNe,
    fun h => absurd h hNe, nofun⟩
  count_act {v a q q' s} hGood hAssert hNext hAct := by
    by_cases hPrepare : a = .prepareSwitch
    · subst hPrepare
      exact (Shared.exec_prepareSwitch hGood.sched hAct).2.1.symm.le
    · exact (Shared.exec_other hPrepare hGood.sched (hAssert.addThread (next_some hNext).2) hAct).2.1
  switch_lt {v q q'} hGood hAssert hNext := by
    obtain ⟨-, -, hLength, -⟩ := Shared.contextSwitch_keeps v.shared v.running
    refine ⟨hLength, ?_⟩
    have hPhase : q.1 ≠ .idle := by
      intro hIdle
      obtain ⟨hPhase, -⟩ := next_some hNext
      rw [hIdle] at hPhase
      cases hPhase
    show (v.shared.contextSwitch v.running).2 < v.shared.kernel.sched.threads.length
    rw [Shared.contextSwitch_current (hAssert.chosen rfl hPhase)]
    exact hGood.sched.current_lt
  handler := by
    rintro i ⟨_, p⟩ rfl
    exact stays_interruptHandler maxLevel i
  call c := (stays_call maxLevel c).follows
  start := ⟨_, rfl, rfl⟩

theorem follows_due {code : Code} {p : Bool} (h : threadStates.Follows (.due, p) code) :
    ∃ rest, code = .switch :: rest := by
  cases code with
  | nil => cases h
  | cons instr rest =>
    obtain ⟨q', hNext, -⟩ := h
    rcases nextPhase_some (next_some hNext).1 with ⟨h, -⟩ | ⟨h, -⟩ | ⟨h, -⟩ | ⟨-, -, rfl⟩
    · cases h
    · cases h
    · cases h
    · exact ⟨rest, rfl⟩

theorem follows_chosen {code : Code} {p : Bool} (h : threadStates.Follows (.chosen, p) code) :
    ∃ rest, code = .unlock .scheduler :: .switch :: rest := by
  cases code with
  | nil => cases h
  | cons instr rest =>
    obtain ⟨⟨ph, p'⟩, hNext, hRest⟩ := h
    rcases nextPhase_some (next_some hNext).1 with ⟨h, -⟩ | ⟨h, -⟩ | ⟨-, hDue, rfl⟩ | ⟨h, -⟩
    · cases h
    · cases h
    · simp only at hDue
      subst hDue
      obtain ⟨rest, rfl⟩ := follows_due hRest
      exact ⟨rest, rfl⟩
    · cases h

/-- In `tick`, after the choice, interrupts are disabled. -/
theorem masked_of_phase {tracked : Lock → Bool} {strict : Bool} {code : Code} {flag : Bool}
    {held : List Lock} {flags : List Bool} {q : Phase × Bool}
    (hFollows : threadStates.Follows q code) (hSafe : Safe tracked strict code flag held flags)
    (hPhase : q.1 ≠ .idle) : flag = false := by
  match q, hPhase with
  | (.chosen, p), _ =>
    obtain ⟨rest, rfl⟩ := follows_chosen hFollows
    exact hSafe.2.2.1
  | (.due, p), _ =>
    obtain ⟨rest, rfl⟩ := follows_due hFollows
    exact hSafe.2.1

/-! ### All runs -/

def Machine.atSwitch (m : Machine) : Bool :=
  match m.next with
  | some .switch => true
  | _ => false

def Machine.atCurrentPid (m : Machine) : Bool :=
  match m.next with
  | some (.act .currentPid) => true
  | _ => false

theorem Machine.next_of_atCurrentPid {m : Machine} (h : m.atCurrentPid = true) :
    m.next = some (.act .currentPid) := by
  unfold Machine.atCurrentPid at h
  split at h
  · assumption
  · cases h

theorem Machine.next_of_atSwitch {m : Machine} (h : m.atSwitch = true) : m.next = some .switch := by
  unfold Machine.atSwitch at h
  split at h
  · assumption
  · cases h

namespace Config

variable {c : Config} {k : Kernel} {labels : List Label} {m m' : Machine}

theorem init_current {b : Boot} (h : Kernel.init b = .ok k) : k.sched.current = 0 := by
  obtain ⟨k₀, hIdle, run⟩ := Kernel.init_ok h
  have hStart : k₀.sched.current = 0 := by
    cases hIdle
    rfl
  have hInv := Kernel.initIdle_inv hIdle
  cases run with
  | cons first run =>
    cases run with
    | cons second run =>
      cases run
      have hFirst := Kernel.exec_current hInv first
      have hSecond := Kernel.exec_current (Kernel.exec_keeps hInv first).1 second
      rw [hSecond]
      exact hFirst.trans hStart

theorem start_typed (hInit : Kernel.init c.boot = .ok k) :
    Typed threadStates (program c.maxLevel) Ordered Steady (c.start k) := by
  have hInv : k.sched.Inv := Kernel.Reaches.inv ⟨k, hInit, .nil k⟩
  have hLength := hInv.current_lt
  have hSteady : ∀ i, Steady (c.start k).view i (.idle, false) := fun i =>
    ⟨fun _ => rfl, fun hi _ => (init_current hInit).trans hi.symm, fun _ h => absurd rfl h,
      fun _ h => (by cases h), nofun⟩
  refine ⟨⟨hInv, nofun⟩, Nat.zero_lt_succ _, ?_, fun i t ht => ⟨(.idle, false), ?_, hSteady i⟩⟩
  · show _ + 1 = k.sched.threads.length
    rw [List.length_replicate]
    omega
  · cases i with
    | zero =>
      obtain rfl := Option.some.inj ht
      exact (((stays_log _ _).append (.cons rfl .nil)).append (stays_log _ _)).follows
    | succ i =>
      obtain ⟨-, rfl⟩ := List.mem_replicate.mp (List.mem_of_getElem? ht)
      exact ⟨_, rfl, rfl⟩

/-- The discipline of the locks, and the assertions of the automaton. -/
def Invariant (c : Config) (m : Machine) : Prop :=
  Inv (fun l => l ≠ Lock.scheduler) true m ∧
    Typed threadStates (program c.maxLevel) Ordered Steady m

theorem Invariant.step {label : Label} (h : c.Invariant m)
    (hStep : (program c.maxLevel).Step m label m') : c.Invariant m' := by
  have hP : Disciplined (fun l => l ≠ .scheduler) true (program c.maxLevel) :=
    program_disciplined (by simp) c.maxLevel
  refine ⟨h.1.step hP (by simp) hStep, h.2.step (keeping _) (fun hFlag t q ht hFollows _ => ?_) hStep⟩
  obtain ⟨held, -, -, hRun⟩ := h.1.running
  by_contra hPhase
  have hMasked := masked_of_phase hFollows (hRun t ht) hPhase
  rw [hFlag] at hMasked
  cases hMasked

theorem Reaches.invariant (h : c.Reaches labels m) : c.Invariant m := by
  obtain ⟨k, hInit, run⟩ := h
  exact run.invariant (fun _ _ _ hInv step => hInv.step step) ⟨start_inv c k, start_typed hInit⟩

theorem Reaches.typed (h : c.Reaches labels m) :
    Typed threadStates (program c.maxLevel) Ordered Steady m := h.invariant.2

/-- The thread that runs is the current one, but for the end of a tick. -/
theorem Reaches.running (h : c.Reaches labels m) :
    m.running = m.shared.kernel.sched.current ∨
      m.interruptFlag = false ∧ (m.next = some (.unlock .scheduler) ∨ m.next = some .switch) := by
  have hTyped := h.typed
  obtain ⟨held, -, -, hSafe⟩ := h.inv.running
  obtain ⟨code, flags, hThread⟩ := hTyped.running_thread
  obtain ⟨⟨ph, p⟩, hFollows, hSteady⟩ := hTyped.thread _ _ hThread
  have hMasked := masked_of_phase hFollows (hSafe _ hThread)
  cases ph with
  | idle => exact .inl (hSteady.idle rfl rfl).symm
  | chosen =>
    obtain ⟨rest, rfl⟩ := follows_chosen hFollows
    exact .inr ⟨hMasked nofun, .inl (Machine.next_of_thread hThread)⟩
  | due =>
    obtain ⟨rest, rfl⟩ := follows_due hFollows
    exact .inr ⟨hMasked nofun, .inr (Machine.next_of_thread hThread)⟩

/-- The context switch leads to the current thread. -/
theorem Reaches.switch (h : c.Reaches labels m) (hNext : m.next = some .switch)
    (hStep : (program c.maxLevel).Step m .instr m') :
    m'.running = m.shared.kernel.sched.current ∧
      m'.shared.kernel.sched.current = m.shared.kernel.sched.current := by
  obtain ⟨code, flags, hThread⟩ := Machine.thread_of_next hNext
  obtain ⟨q, ⟨q', hNext', -⟩, hSteady⟩ := h.typed.thread _ _ hThread
  have hDue : q.1 = .due := by
    rcases nextPhase_some (next_some hNext').1 with ⟨-, -, -, h⟩ | ⟨-, -, h⟩ | ⟨-, -, h⟩ | ⟨h, -⟩
    · exact absurd rfl h
    · cases h
    · cases h
    · exact h
  obtain rfl := Option.some.inj ((exec_instr hThread).symm.trans hStep)
  exact ⟨Shared.contextSwitch_current (hSteady.chosen rfl (by rw [hDue]; simp)),
    (Shared.contextSwitch_keeps m.shared m.running).2.1⟩

/-- The invariant of the scheduler holds after every instruction of every run, whatever the
interrupts.  The thread that runs is the current one, except in `tick` between the choice and the
switch, with interrupts disabled; the switch leads to the current thread. -/
theorem scheduler_under_preemption (h : c.Reaches labels m) :
    let s := m.shared.kernel.sched
    s.Inv ∧ m.threads.length = s.threads.length ∧
      (m.interruptFlag = true → m.running = s.current) ∧
      (m.running = s.current ∨ m.next = some (.unlock .scheduler) ∨ m.next = some .switch) ∧
      ∀ m', m.next = some .switch → (program c.maxLevel).Step m .instr m' →
        m'.running = s.current ∧ m'.shared.kernel.sched.current = s.current := by
  have hTyped := h.typed
  refine ⟨hTyped.good.sched, hTyped.length, fun hFlag => ?_, ?_, fun m' hNext hStep =>
    h.switch hNext hStep⟩
  · rcases h.running with hRunning | ⟨hMasked, -⟩
    · exact hRunning
    · rw [hFlag] at hMasked
      cases hMasked
  · rcases h.running with hRunning | ⟨-, hNext⟩
    · exact .inl hRunning
    · exact .inr hNext

/-- A timer interrupt on the idle thread, up to the context switch to the first demo thread. -/
def sampleTick : List Label :=
  List.replicate 13 .instr ++ .interrupt .timer :: List.replicate 6 .instr

theorem scheduler_under_preemption_sample : ∃ m, sample.Reaches sampleTick m ∧
    m.running = 0 ∧ m.shared.kernel.sched.current = 1 ∧ m.next = some .switch ∧
    ∃ m', (program sample.maxLevel).Step m .instr m' ∧ m'.running = 1 := by
  obtain ⟨m, hReach, hValue⟩ : ∃ m, sample.Reaches sampleTick m ∧
      (m.running, m.shared.kernel.sched.current, m.atSwitch) = (0, 1, true) :=
    evaluate_reaches (by decide)
  simp only [Prod.mk.injEq] at hValue
  obtain ⟨hRunning, hCurrent, hSwitch⟩ := hValue
  have hNext := Machine.next_of_atSwitch hSwitch
  obtain ⟨code, flags, hThread⟩ := Machine.thread_of_next hNext
  obtain ⟨m', hStep, -⟩ := switch_step (P := program sample.maxLevel) hThread
  refine ⟨m, hReach, hRunning, hCurrent, hNext, m', hStep, ?_⟩
  rw [← hCurrent]
  exact ((scheduler_under_preemption hReach).2.2.2.2 m' hNext hStep).1

/-! ### The calling thread -/

/-- An action other than `prepare_switch` is one of the current thread. -/
theorem Reaches.act_idle (h : c.Reaches labels m) {a : Act} (hNext : m.next = some (.act a)) :
    ∃ code flags p p', m.threads[m.running]? = some ⟨.act a :: code, flags⟩ ∧
      Steady m.view m.running (.idle, p) ∧ nextSpawn p (.act a) = some p' := by
  obtain ⟨code, flags, hThread⟩ := Machine.thread_of_next hNext
  obtain ⟨⟨ph, p⟩, ⟨q', hNext', -⟩, hSteady⟩ := h.typed.thread _ _ hThread
  obtain ⟨hPhase, hSpawn⟩ := next_some hNext'
  refine ⟨code, flags, p, q'.2, hThread, ?_, hSpawn⟩
  rcases nextPhase_some hPhase with ⟨rfl, -⟩ | ⟨rfl, -⟩ | ⟨-, -, h⟩ | ⟨-, -, h⟩
  · exact hSteady
  · exact hSteady
  · cases h
  · cases h

theorem Reaches.exists_current (h : c.Reaches labels m) :
    ∃ tcb, m.shared.kernel.sched.threads[m.shared.kernel.sched.current]? = some tcb :=
  ⟨_, List.getElem?_eq_getElem h.typed.good.sched.current_lt⟩

/-- `current_tid` and `current_pid` return the TID and the PID of the thread that calls them. -/
theorem current_thread (h : c.Reaches labels m) :
    (m.next = some (.act .currentTid) → ∃ tcb m', (program c.maxLevel).Step m .instr m' ∧
      m.shared.kernel.sched.threads[m.running]? = some tcb ∧
      (m'.shared.locals m.running).result = some tcb.tid) ∧
    (m.next = some (.act .currentPid) → ∃ tcb m', (program c.maxLevel).Step m .instr m' ∧
      m.shared.kernel.sched.threads[m.running]? = some tcb ∧
      (m'.shared.locals m.running).result = some tcb.pid) := by
  obtain ⟨tcb, hGet⟩ := h.exists_current
  obtain ⟨hTid, hPid⟩ := Shared.exec_current (i := m.running) hGet
  have hResult : ∀ a v, m.next = some (.act a) → m.shared.exec m.running a = some
      (m.shared.setLocals m.running { m.shared.locals m.running with result := some v }) →
      ∃ m', (program c.maxLevel).Step m .instr m' ∧
        m.shared.kernel.sched.threads[m.running]? = some tcb ∧
        (m'.shared.locals m.running).result = some v := by
    intro a v hNext hAct
    obtain ⟨code, flags, p, -, hThread, hSteady, -⟩ := h.act_idle hNext
    have hCurrent : m.shared.kernel.sched.current = m.running := hSteady.idle rfl rfl
    obtain ⟨m', hStep, -, hShared, -⟩ := act_step (P := program c.maxLevel) hThread hAct
    refine ⟨m', hStep, by rwa [hCurrent] at hGet, ?_⟩
    rw [hShared, Shared.setLocals_self]
  exact ⟨fun hNext => ⟨tcb, hResult _ _ hNext hTid⟩, fun hNext => ⟨tcb, hResult _ _ hNext hPid⟩⟩

/-- The first demo thread, in its call of `current_pid`. -/
def sampleCall : List Label :=
  List.replicate 13 .instr ++ .interrupt .timer :: List.replicate 8 .instr ++ [.call .currentPid, .instr]

theorem current_thread_sample : ∃ m, sample.Reaches sampleCall m ∧ m.running = 1 ∧
    ∃ m', (program sample.maxLevel).Step m .instr m' ∧ (m'.shared.locals 1).result = some 1 := by
  obtain ⟨m, hReach, hValue⟩ : ∃ m, sample.Reaches sampleCall m ∧
      (m.running, m.atCurrentPid, m.shared.kernel.sched.threads[1]?.map (·.pid)) =
        (1, true, some 1) := evaluate_reaches (by decide)
  simp only [Prod.mk.injEq] at hValue
  obtain ⟨hRunning, hCall, hPid⟩ := hValue
  obtain ⟨tcb, m', hStep, hGet, hResult⟩ :=
    (current_thread hReach).2 (Machine.next_of_atCurrentPid hCall)
  rw [hRunning] at hGet hResult
  rw [hGet, Option.map_some] at hPid
  exact ⟨m, hReach, hRunning, m', hStep, hResult.trans hPid⟩

/-! ### Progress -/

/-- No action of the running thread panics. -/
theorem Reaches.act_total (h : c.Reaches labels m) {a : Act} (hNext : m.next = some (.act a)) :
    ∃ s, m.shared.exec m.running a = some s := by
  obtain ⟨-, -, p, p', -, hSteady, hSpawn⟩ := h.act_idle hNext
  obtain ⟨tcb, hGet⟩ := h.exists_current
  have hInv : m.shared.kernel.sched.Inv := h.typed.good.sched
  cases a with
  | write | endInterrupts | powerOff | newThread | markExited | compute => exact ⟨_, rfl⟩
  | prepareSwitch =>
    rw [Shared.exec, Scheduler.prepareSwitch_eq hInv.current_lt]
    exact ⟨_, rfl⟩
  | addThread =>
    obtain ⟨tcb, hTcb, -⟩ := hSteady.spawn (nextSpawn_addThread hSpawn)
    rw [Shared.exec, show (m.shared.locals m.running).tcb = some tcb from hTcb]
    exact ⟨_, rfl⟩
  | currentTid => exact ⟨_, (Shared.exec_current hGet).1⟩
  | currentPid => exact ⟨_, (Shared.exec_current hGet).2⟩

/-- An instruction that does not take a lock that is held can be executed. -/
theorem Reaches.instr_total (h : c.Reaches labels m) {instr : Interrupts.Instr Lock Act}
    (hNext : m.next = some instr) (hLock : ∀ l, instr = .lock l → m.holder l = none) :
    ∃ m', (program c.maxLevel).Step m .instr m' := by
  obtain ⟨code, flags, hThread⟩ := Machine.thread_of_next hNext
  obtain ⟨held, -, -, hRun⟩ := h.inv.running
  have hSafe := (hRun _ hThread).2
  simp only [Program.Step, exec_instr hThread]
  cases instr with
  | lock l => exact ⟨_, if_pos (hLock l rfl)⟩
  | unlock | saveFlag | sti | switch => exact ⟨_, rfl⟩
  | maskIfSaved | restoreFlag | iret =>
    cases flags with
    | nil => cases hSafe
    | cons => exact ⟨_, rfl⟩
  | act a =>
    obtain ⟨s, hAct⟩ := h.act_total hNext
    exact ⟨_, congrArg (Option.map _) hAct⟩

theorem Reaches.spins_of_stuck (h : c.Reaches labels m)
    (hStuck : ∀ label m', ¬(program c.maxLevel).Step m label m') :
    m.SelfDeadlock .scheduler ∧ m.interruptFlag = false := by
  obtain ⟨code, flags, hThread⟩ := h.typed.running_thread
  have hFlag : m.interruptFlag = false := by
    by_contra hSet
    obtain ⟨m', hStep, -⟩ :=
      interrupt_step (P := program c.maxLevel) hThread (by simpa using hSet) .timer
    exact hStuck _ _ hStep
  cases code with
  | nil => exact absurd (call_step (P := program c.maxLevel) hThread .print) (hStuck _ _)
  | cons instr code =>
    have hNext := Machine.next_of_thread hThread
    by_contra hOther
    -- A lock that the thread waits for is held; only `SCHEDULER` can be.
    obtain ⟨m', hStep⟩ := h.instr_total hNext fun l hInstr => by
      subst hInstr
      by_cases hl : l = .scheduler
      · subst hl
        by_contra hHeld
        obtain ⟨i, hHolder⟩ := Option.ne_none_iff_exists'.mp hHeld
        obtain rfl := h.typed.good.holder i hHolder
        exact hOther ⟨⟨hNext, hHolder⟩, hFlag⟩
      · exact h.inv.free_of_request hNext (by simpa using hl)
    exact hStuck _ _ hStep

/-- The operations of the queue that a step makes. -/
def stepOperations (m : Machine) : Label → List (Sweep.Op Nat)
  | .instr =>
    match m.next with
    | some (.act a) => m.shared.operations a
    | _ => []
  | _ => []

theorem stepOperations_shape (m : Machine) (label : Label) :
    (∃ op, stepOperations m label = [op]) ∨
      ∃ is : List Nat, stepOperations m label = is.map .leave := by
  unfold stepOperations
  split
  · split
    · rename_i a _
      cases a with
      | prepareSwitch | addThread | markExited => exact .inl ⟨_, rfl⟩
      | _ => exact .inr ⟨[], rfl⟩
    · exact .inr ⟨[], rfl⟩
  · exact .inr ⟨[], rfl⟩

theorem Invariant.sweep {label : Label} (h : c.Invariant m)
    (hStep : (program c.maxLevel).Step m label m') :
    m'.shared.kernel.sched.sweep =
      m.shared.kernel.sched.sweep.exec (stepOperations m label) := by
  obtain ⟨⟨_, flags⟩, ht, hCases⟩ := Program.Step.inv hStep
  rcases hCases with ⟨instr, code, rfl, rfl, hExec⟩ | ⟨i, rfl, -, rfl⟩ | ⟨d, rfl, -, rfl⟩
  · rw [stepOperations, Machine.next_of_thread ht]
    rcases execInstr_view hExec with ⟨hOther, -, hView⟩ | ⟨a, s, rfl, hAct, hView⟩ | ⟨rfl, hView⟩
    · have hShared : m'.shared = m.shared := by
        rcases hView with hView | ⟨l, -, -, hView⟩ | ⟨l, -, hView⟩ <;>
          exact congrArg View.shared hView
      rw [hShared]
      cases instr with
      | act a => exact absurd rfl (hOther a)
      | _ => rfl
    · obtain rfl : m'.shared = s := congrArg View.shared hView
      obtain ⟨q, ⟨q', hNext, -⟩, hSteady⟩ := h.2.thread _ _ ht
      by_cases hPrepare : a = .prepareSwitch
      · subst hPrepare
        exact (Shared.exec_prepareSwitch h.2.good.sched hAct).2.2.2.2.2
      · exact (Shared.exec_other hPrepare h.2.good.sched
          (hSteady.addThread (next_some hNext).2) hAct).2.2.2
    · rw [show m'.shared = (m.shared.contextSwitch m.running).1 from congrArg View.shared hView]
      exact (Shared.contextSwitch_keeps m.shared m.running).2.2.2.2
  · rfl
  · rfl

/-- The machine, as a system whose queue is that of its thread table. -/
def queued (c : Config) : Queued Nat Machine Label where
  exec := (program c.maxLevel).exec
  Inv := c.Invariant
  queue m := m.shared.kernel.sched.sweep
  ops := stepOperations
  shape := stepOperations_shape
  step hInv hStep := ⟨hInv.step hStep, hInv.sweep hStep⟩

/-- The operations of the queue that the instructions of a run make: a turn for each
`prepare_switch`, and an arrival for each thread that is added. -/
def operations (c : Config) (m : Machine) (labels : List Label) : List (Sweep.Op Nat) :=
  c.queued.trace m labels

/-- Bounded waiting at the level of instructions: along a stretch of a run in which thread `t` is
Ready all the time, every tick switches, and there are at most as many ticks as Ready threads were
in front of `t`, and one more for each thread added meanwhile; those count only where `t` does not
come after the current thread in the table. -/
theorem bounded_waiting_under_preemption {stretch : List Label} {t : Nat} (h : c.Reaches labels m)
    (run : Run (program c.maxLevel).Step m stretch m')
    (hReady : ∀ first last n, stretch = first ++ last → Run (program c.maxLevel).Step m first n →
      n.shared.kernel.sched.isReady t = true) :
    let s := m.shared.kernel.sched
    let s' := m'.shared.kernel.sched
    let ops := c.operations m stretch
    s'.sweep = s.sweep.exec ops ∧
      (s.sweep.served ops).length = ops.countP Sweep.Op.isTurn ∧
      s.sweep.place t + 1 < s.threads.length ∧
      ops.countP Sweep.Op.isTurn + s'.sweep.place t ≤
        s.sweep.place t + ops.countP Sweep.Op.isArrive ∧
      (s.current < t → ops.countP Sweep.Op.isTurn + s'.sweep.place t ≤ s.sweep.place t) := by
  have hInv := h.invariant
  have hWaits : ∀ first last n, stretch = first ++ last → Run c.queued.Step m first n →
      t ∈ n.shared.kernel.sched.sweep.queue := by
    intro first last n hSplit hRun
    have hn : c.Invariant n := hRun.invariant (fun _ _ _ hInv step => hInv.step step) hInv
    exact Scheduler.mem_sweep_of_isReady hn.2.good.sched (hReady first last n hSplit hRun)
  have hMem := hWaits [] stretch m rfl (.nil m)
  obtain ⟨hLength, hBound, hAhead⟩ := Queued.waiting_bound (S := c.queued) run hInv hWaits
  exact ⟨Queued.run_queue (S := c.queued) run hInv, hLength,
    Scheduler.place_lt hInv.2.good.sched.current_lt hMem, hBound,
    fun hLt => hAhead (Scheduler.mem_ahead hLt hMem)⟩

theorem run_execChecked {n : Machine} {ls : List Label} (run : Run (program c.maxLevel).Step m ls n) :
    Run.execChecked (program c.maxLevel).exec (fun _ _ => true) m ls = some n := by
  induction run with
  | nil => rfl
  | cons step _ ih =>
    rw [Run.execChecked, show (program c.maxLevel).exec _ _ = some _ from step]
    exact ih

/-- The timer interrupt that ends the turn of the idle thread. -/
def sampleTurn : List Label := .interrupt .timer :: List.replicate 7 .instr

/-- The second demo thread waits behind the first. -/
theorem bounded_waiting_under_preemption_sample :
    ∃ m m', sample.Reaches (List.replicate 13 .instr) m ∧
      Run (program sample.maxLevel).Step m sampleTurn m' ∧
      (sample.operations m sampleTurn).countP Sweep.Op.isTurn = 1 ∧
      1 + m'.shared.kernel.sched.sweep.place 2 ≤ m.shared.kernel.sched.sweep.place 2 := by
  obtain ⟨m, hReach, hValue⟩ : ∃ m, sample.Reaches (List.replicate 13 .instr) m ∧
      (m.shared.kernel.sched.current, (sample.operations m sampleTurn).countP Sweep.Op.isTurn,
        sampleTurn.inits.all fun ls =>
          (Run.execChecked (program sample.maxLevel).exec (fun _ _ => true) m ls).any
            (·.shared.kernel.sched.isReady 2)) = (0, 1, true) := evaluate_reaches (by decide)
  simp only [Prod.mk.injEq, List.all_eq_true, List.mem_inits] at hValue
  obtain ⟨hCurrent, hTurns, hReady⟩ := hValue
  obtain ⟨m', hEnd, -⟩ := (Option.any_eq_true _ _).mp (hReady sampleTurn (List.prefix_refl _))
  have run : Run (program sample.maxLevel).Step m sampleTurn m' :=
    (Run.execChecked_run hEnd).mono fun _ _ _ step => step.2
  have hBound := bounded_waiting_under_preemption (t := 2) hReach run fun first last n hSplit hRun => by
    have h := hReady first (hSplit ▸ List.prefix_append first last)
    rwa [run_execChecked hRun] at h
  refine ⟨m, m', hReach, run, hTurns, ?_⟩
  rw [← hTurns]
  exact hBound.2.2.2.2 (by rw [hCurrent]; decide)

end Config

end RixOs

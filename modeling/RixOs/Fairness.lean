import RixOs.RoundRobin
import RixOs.ProcessExit
import RixOs.ProofKit.Sweep

/-! The scheduler as a queue.  The Ready threads after the current one, in ascending order, and then
those before it are a queue in two parts, and every event of the kernel is a sequence of operations
on it: a tick switches to its head, and a new thread joins the sweep that is under way.  A thread
that stays Ready is therefore switched to after a bounded number of ticks. -/

namespace RixOs

open ProofKit

namespace Scheduler

/-! ### The queue of a thread table -/

def hasState (s : Scheduler) (idx : Nat) (state : ThreadState) : Bool :=
  s.threads[idx]?.any (·.state = state)

/-- Of the threads of the table, the sweep serves those that are Ready. -/
def sweep (s : Scheduler) : Sweep Nat where
  current := s.current
  ahead := (List.range' (s.current + 1) (s.threads.length - 1 - s.current)).filter s.isReady
  behind := (List.range s.current).filter s.isReady
  active := s.hasState s.current .running
  nodup := by
    refine List.nodup_cons.mpr ⟨fun hMem => ?_, ?_⟩
    · rcases List.mem_append.mp hMem with h | h
      · have := (List.mem_range'_1.mp (List.mem_filter.mp h).1).1
        omega
      · exact Nat.lt_irrefl _ (List.mem_range.mp (List.mem_filter.mp h).1)
    · refine List.nodup_append.mpr ⟨(List.nodup_range' _).filter _, List.nodup_range.filter _, ?_⟩
      rintro i hi j hj rfl
      have := (List.mem_range'_1.mp (List.mem_filter.mp hi).1).1
      have := List.mem_range.mp (List.mem_filter.mp hj).1
      omega

theorem mem_sweep {s : Scheduler} (hCurrent : s.current < s.threads.length) {i : Nat} :
    i ∈ s.sweep.queue ↔ i ≠ s.current ∧ s.isReady i = true := by
  rw [Sweep.queue, sweep, ← List.filter_append, ← Cyclic.probes_split hCurrent, List.mem_filter,
    Cyclic.mem_probes hCurrent]
  refine ⟨fun h => ⟨h.1.2, h.2⟩, fun h => ⟨⟨?_, h.1⟩, h.2⟩⟩
  obtain ⟨tcb, hGet, -⟩ := isReady_iff.mp h.2
  exact (List.getElem?_eq_some_iff.mp hGet).1

theorem mem_sweep_of_isReady {s : Scheduler} (hInv : s.Inv) {i : Nat} (h : s.isReady i = true) :
    i ∈ s.sweep.queue := (mem_sweep hInv.current_lt).mpr ⟨ready_ne_current hInv h, h⟩

theorem mem_ahead {s : Scheduler} {i : Nat} (hLt : s.current < i) (h : i ∈ s.sweep.queue) :
    i ∈ s.sweep.ahead := by
  refine (List.mem_append.mp h).resolve_right fun hBehind => ?_
  exact Nat.lt_asymm hLt (List.mem_range.mp (List.mem_filter.mp hBehind).1)

/-- The scan of `next_ready_thread` finds the head of the queue. -/
theorem nextReady_eq_head {s : Scheduler} (hCurrent : s.current < s.threads.length) :
    s.nextReady = s.sweep.queue.head? := by
  rw [nextReady, Cyclic.probes_split hCurrent, ← List.head?_filter, List.filter_append]
  rfl

theorem place_lt {s : Scheduler} (hCurrent : s.current < s.threads.length) {t : Nat}
    (h : t ∈ s.sweep.queue) : s.sweep.place t + 1 < s.threads.length := by
  have hLength : s.sweep.queue.length ≤ (Cyclic.probes s.current s.threads.length).length := by
    rw [Sweep.queue, sweep, ← List.filter_append, ← Cyclic.probes_split hCurrent]
    exact List.length_filter_le _ _
  have hPlace := List.idxOf_lt_length_of_mem h
  rw [Cyclic.length_probes] at hLength
  rw [Sweep.place]
  omega

/-! ### Each change of the table is an operation of the queue -/

theorem hasState_addThread {s : Scheduler} {tcb : ThreadControlBlock} {i : Nat}
    (h : i < s.threads.length) (state : ThreadState) :
    (s.addThread tcb).hasState i state = s.hasState i state := by
  rw [hasState, addThread_get h, hasState]

theorem sweep_addThread {s : Scheduler} (hCurrent : s.current < s.threads.length)
    {tcb : ThreadControlBlock} (hReady : tcb.state = .ready) :
    (s.addThread tcb).sweep = s.sweep.arrive s.threads.length := by
  have hNew : (s.addThread tcb).isReady s.threads.length = true :=
    isReady_iff.mpr ⟨tcb, addThread_get_new s tcb, hReady⟩
  have hFresh : s.threads.length ∉ s.sweep.current :: s.sweep.queue := by
    intro hMem
    rcases List.mem_cons.mp hMem with h | h
    · exact Nat.lt_irrefl _ (h ▸ hCurrent)
    · obtain ⟨t, ht, -⟩ := isReady_iff.mp ((mem_sweep hCurrent).mp h).2
      simp at ht
  rw [Sweep.arrive, dif_neg hFresh]
  apply Sweep.ext
  · rfl
  · have hRange : List.range' (s.current + 1) ((s.addThread tcb).threads.length - 1 - s.current) =
        List.range' (s.current + 1) (s.threads.length - 1 - s.current) ++ [s.threads.length] := by
      have hConcat := List.range'_1_concat (s := s.current + 1)
        (n := s.threads.length - 1 - s.current)
      rw [show s.current + 1 + (s.threads.length - 1 - s.current) = s.threads.length by omega]
        at hConcat
      rw [← hConcat, addThread_length]
      congr 1
      omega
    show (List.range' _ _).filter _ = (List.range' _ _).filter _ ++ _
    rw [addThread_current, hRange, List.filter_append, List.filter_cons_of_pos hNew,
      List.filter_nil]
    congr 1
    refine List.filter_congr fun i hi => hasState_addThread ?_ .ready
    have := (List.mem_range'_1.mp hi).2
    omega
  · refine List.filter_congr fun i hi => hasState_addThread ?_ .ready
    exact (List.mem_range.mp hi).trans hCurrent
  · exact hasState_addThread hCurrent .running

theorem hasState_markExited (s : Scheduler) (tid : UInt64) (i : Nat) {state : ThreadState}
    (hState : state ≠ .exited) :
    (s.markExited tid).hasState i state =
      (decide (i ≠ s.indexOf tid) && s.hasState i state) := by
  rw [hasState, markExited_get, hasState]
  by_cases hi : i = s.indexOf tid
  · cases s.threads[i]? <;> simp [hi, hState.symm]
  · cases s.threads[i]? <;> simp [hi]

theorem sweep_markExited (s : Scheduler) (tid : UInt64) :
    (s.markExited tid).sweep = s.sweep.leave (s.indexOf tid) := by
  have hFilter : (s.markExited tid).isReady =
      fun i => decide (i ≠ s.indexOf tid) && s.isReady i := funext fun i =>
      hasState_markExited s tid i (by decide)
  apply Sweep.ext
  · rfl
  · show (List.range' _ _).filter _ = ((List.range' _ _).filter _).filter _
    rw [List.filter_filter, hFilter, markExited_length, markExited_current]
  · show (List.range _).filter _ = ((List.range _).filter _).filter _
    rw [List.filter_filter, hFilter, markExited_current]
  · exact (hasState_markExited s tid s.current (by decide)).trans (Bool.and_comm _ _)

theorem sweep_saveContext (s : Scheduler) (idx : Nat) (rsp : UInt64) :
    (s.saveContext idx rsp).sweep = s.sweep := by
  have hStates : (s.saveContext idx rsp).hasState = s.hasState := by
    funext i state
    rw [hasState, saveContext_get, hasState]
    cases s.threads[i]? with
    | none => rfl
    | some tcb => by_cases hi : i = idx <;> simp [hi]
  have hFilter : (s.saveContext idx rsp).isReady = s.isReady :=
    funext fun i => congrFun (congrFun hStates i) .ready
  apply Sweep.ext
  · rfl
  · show (List.range' _ _).filter _ = _
    rw [hFilter, saveContext_length]
    rfl
  · show (List.range _).filter _ = _
    rw [hFilter]
    rfl
  · exact congrFun (congrFun hStates s.current) .running

/-- The places from `a` on, where the first one that meets `p` is `i`. -/
theorem filter_range'_cons {p : Nat → Bool} {a m i : Nat} {rest : List Nat}
    (h : (List.range' a m).filter p = i :: rest) :
    a ≤ i ∧ i < a + m ∧ (List.range' a (i - a)).filter p = [] ∧
      (List.range' (i + 1) (a + m - (i + 1))).filter p = rest := by
  obtain ⟨before, after, hSplit, hNone, -, hRest⟩ := List.filter_eq_cons_iff.mp h
  obtain ⟨k, hk, rfl, hCons⟩ := List.range'_eq_append_iff.mp hSplit
  obtain ⟨rfl, hPos, rfl⟩ := List.range'_eq_cons_iff.mp hCons.symm
  refine ⟨by omega, by omega, ?_, ?_⟩
  · rw [show a + k * 1 - a = k by omega]
    exact List.filter_eq_nil_iff.mpr hNone
  · rw [← hRest]
    congr 2
    omega

theorem isReady_switchTo {s : Scheduler} (hInv : s.Inv) (next i : Nat) :
    (s.switchTo next).isReady i =
      if i = next then false else if i = s.current then s.sweep.active else s.isReady i := by
  rw [isReady, switchTo_get]
  by_cases hNext : i = next
  · cases s.threads[i]? <;> simp [stateAfter, hNext]
  · rw [if_neg hNext]
    by_cases hCur : i = s.current
    · subst hCur
      rw [if_pos rfl]
      show _ = s.hasState s.current .running
      rw [hasState]
      cases hGet : s.threads[s.current]? with
      | none => rfl
      | some tcb =>
        rcases hInv.current_state tcb hGet with h | h <;> simp [stateAfter, hNext, h]
    · rw [if_neg hCur, isReady]
      cases s.threads[i]? <;> simp [stateAfter, hNext, hCur]

section Switch

variable {s : Scheduler} (hInv : s.Inv) {next : Nat}
include hInv

theorem filter_switchTo {l : List Nat} (h : ∀ i ∈ l, i ≠ next ∧ i ≠ s.current) :
    l.filter (s.switchTo next).isReady = l.filter s.isReady := by
  refine List.filter_congr fun i hi => ?_
  rw [isReady_switchTo hInv, if_neg (h i hi).1, if_neg (h i hi).2]

/-- The thread that is left joins the next sweep, unless it is Exited. -/
theorem filter_current_switchTo (hNe : s.current ≠ next) :
    [s.current].filter (s.switchTo next).isReady =
      Sweep.requeue s.sweep.current s.sweep.active := by
  rw [List.filter_singleton, isReady_switchTo hInv, if_neg hNe, if_pos rfl, Sweep.requeue]
  cases s.sweep.active <;> rfl

theorem active_switchTo (hNext : s.nextReady = some next) :
    (s.switchTo next).sweep.active = true := by
  obtain ⟨-, tcb, hGet, -⟩ := nextReady_some hInv hNext
  show (s.switchTo next).hasState next .running = true
  rw [hasState, switchTo_get, hGet]
  simp [stateAfter]

/-- The switch to a thread after the current one. -/
theorem sweep_switchTo_ahead {rest : List Nat} (hNext : s.nextReady = some next)
    (hAhead : s.sweep.ahead = next :: rest) : (s.switchTo next).sweep = s.sweep.turn := by
  obtain ⟨hLow, hHigh, hNone, hRest⟩ := filter_range'_cons hAhead
  obtain ⟨hTurn, hTurnAhead, hTurnBehind, hTurnActive⟩ := Sweep.turn_ahead hAhead
  apply Sweep.ext
  · rw [hTurn]
    rfl
  · rw [hTurnAhead, ← hRest]
    show (List.range' (next + 1) ((s.switchTo next).threads.length - 1 - next)).filter _ = _
    rw [switchTo_length, filter_switchTo hInv fun i hi => ?_]
    · congr 2
      omega
    · have := (List.mem_range'_1.mp hi).1
      omega
  · rw [hTurnBehind, ← filter_current_switchTo hInv (show s.current ≠ next by omega)]
    show (List.range next).filter _ = (List.range s.current).filter _ ++ _
    -- No thread between the two is Ready.
    have hBetween : (List.range' (s.current + 1) (next - 1 - s.current)).filter
        (s.switchTo next).isReady = [] := by
      rw [← hNone, Nat.sub_right_comm, Nat.sub_sub]
      refine filter_switchTo hInv fun i hi => ?_
      have := List.mem_range'_1.mp hi
      omega
    rw [Cyclic.range_split (show s.current < next by omega), ← List.singleton_append,
      List.filter_append, List.filter_append, hBetween, List.append_nil,
      filter_switchTo hInv fun i hi => ?_]
    have := List.mem_range.mp hi
    omega
  · rw [active_switchTo hInv hNext, hTurnActive]

/-- The switch to a thread before the current one, where none after it is Ready. -/
theorem sweep_switchTo_behind {rest : List Nat} (hNext : s.nextReady = some next)
    (hAhead : s.sweep.ahead = []) (hBehind : s.sweep.behind = next :: rest) :
    (s.switchTo next).sweep = s.sweep.turn := by
  have hCurrent := hInv.current_lt
  obtain ⟨hTurn, hTurnAhead, hTurnBehind, hTurnActive⟩ := Sweep.turn_behind hAhead hBehind
  obtain ⟨-, hHigh, hNone, hRest⟩ :=
    filter_range'_cons ((congrArg _ List.range_eq_range'.symm).trans hBehind)
  rw [Nat.zero_add] at hHigh hRest
  apply Sweep.ext
  · rw [hTurn]
    rfl
  · rw [hTurnAhead, ← hRest, ← filter_current_switchTo hInv (show s.current ≠ next by omega)]
    show (List.range' (next + 1) ((s.switchTo next).threads.length - 1 - next)).filter _ = _
    have hSplit : List.range' (next + 1) (s.threads.length - 1 - next) =
        List.range' (next + 1) (s.current - (next + 1)) ++ ([s.current] ++
          List.range' (s.current + 1) (s.threads.length - 1 - s.current)) := by
      have hFirst := List.range'_append_1 (s := next + 1) (m := s.current - (next + 1))
        (n := s.threads.length - s.current)
      rw [Nat.add_sub_cancel' hHigh, show s.threads.length - s.current =
        s.threads.length - 1 - s.current + 1 by omega, List.range'_succ] at hFirst
      rw [List.singleton_append, hFirst]
      congr 1
      omega
    -- No thread after the one that is left is Ready.
    have hAfter : (List.range' (s.current + 1) (s.threads.length - 1 - s.current)).filter
        (s.switchTo next).isReady = [] := by
      rw [filter_switchTo hInv fun i hi => ?_]
      · exact hAhead
      · have := (List.mem_range'_1.mp hi).1
        omega
    rw [switchTo_length, hSplit, List.filter_append, List.filter_append, hAfter, List.append_nil,
      filter_switchTo hInv fun i hi => ?_]
    have := List.mem_range'_1.mp hi
    omega
  · rw [hTurnBehind]
    show (List.range next).filter _ = []
    rw [Nat.sub_zero, ← List.range_eq_range'] at hNone
    rw [filter_switchTo hInv fun i hi => ?_]
    · exact hNone
    · have := List.mem_range.mp hi
      omega
  · rw [active_switchTo hInv hNext, hTurnActive]

theorem sweep_switchTo (hNext : s.nextReady = some next) :
    (s.switchTo next).sweep = s.sweep.turn := by
  have hHead := (nextReady_eq_head hInv.current_lt).symm.trans hNext
  rw [Sweep.queue] at hHead
  cases hAhead : s.sweep.ahead with
  | cons i rest =>
    rw [hAhead] at hHead
    obtain rfl := Option.some.inj hHead
    exact sweep_switchTo_ahead hInv hNext hAhead
  | nil =>
    cases hBehind : s.sweep.behind with
    | cons i rest =>
      rw [hAhead, hBehind] at hHead
      obtain rfl := Option.some.inj hHead
      exact sweep_switchTo_behind hInv hNext hAhead hBehind
    | nil =>
      rw [hAhead, hBehind] at hHead
      cases hHead

theorem sweep_stay (hNone : s.nextReady = none) : s.sweep.turn = s.sweep := by
  apply Sweep.turn_alone
  rwa [nextReady_eq_head hInv.current_lt, List.head?_eq_none_iff] at hNone

end Switch

theorem sweep_foldl_markExited (tids : List UInt64) (s : Scheduler) :
    (tids.foldl markExited s).sweep = s.sweep.exec ((tids.map s.indexOf).map .leave) := by
  induction tids generalizing s with
  | nil => rfl
  | cons tid tids ih =>
    rw [List.foldl_cons, ih, indexOf_markExited, sweep_markExited]
    rfl

end Scheduler

/-! ### Runs of the kernel -/

namespace Kernel

/-- The operations of the queue that an event makes. -/
def operations (k : Kernel) : Event → List (Sweep.Op Nat)
  | .tick => [.turn]
  | .spawnThread _ _ _ | .createProcess _ _ _ => [.arrive k.sched.threads.length]
  | .run _ _ => []
  | e => ((k.marked e).map k.sched.indexOf).map .leave

/-- One event: its operations lead to the queue of the new table, and they begin to serve the thread
that the event switches to. -/
theorem exec_sweep {k k' : Kernel} {e : Event} (hInv : k.sched.Inv) (h : k.exec e = .ok k') :
    k'.sched.sweep = k.sched.sweep.exec (k.operations e) ∧
      k.sched.sweep.served (k.operations e) = (k.target e).toList := by
  have hCurrent := hInv.current_lt
  cases e with
  | tick =>
    rw [target_tick hInv, Scheduler.nextReady_eq_head hCurrent]
    refine ⟨?_, List.append_nil _⟩
    show _ = k.sched.sweep.turn
    rcases exec_tick hCurrent h with ⟨hNext, rfl⟩ | ⟨next, hNext, rfl⟩
    · exact (Scheduler.sweep_stay hInv hNext).symm
    · rw [contextSwitch_sched, Scheduler.sweep_saveContext]
      exact Scheduler.sweep_switchTo hInv hNext
  | spawnThread pid entryFn ptr =>
    cases h
    exact ⟨Scheduler.sweep_addThread hCurrent rfl, rfl⟩
  | createProcess name entryFn ptr =>
    obtain ⟨pid, hCreate⟩ := exec_createProcess h
    obtain ⟨k₁, hInsert, rfl⟩ := createProcess_ok hCreate
    obtain ⟨-, -, rfl⟩ := insertProcess_ok hInsert
    exact ⟨Scheduler.sweep_addThread hCurrent rfl, rfl⟩
  | markThreadExited tid =>
    cases h
    exact ⟨Scheduler.sweep_markExited k.sched tid, rfl⟩
  | exitProcess pid exitCode =>
    cases h
    refine ⟨?_, Sweep.served_leave _ _⟩
    simp only [operations, marked]
    cases hGet : k.table.get pid with
    | none =>
      rw [exitProcess_none hGet]
      rfl
    | some pcb =>
      rw [exitProcess_some hGet]
      exact Scheduler.sweep_foldl_markExited pcb.threads k.sched
  | run cpu mem =>
    cases h
    exact ⟨rfl, rfl⟩

theorem operations_shape (k : Kernel) (e : Event) :
    (∃ op, k.operations e = [op]) ∨ ∃ is : List Nat, k.operations e = is.map .leave := by
  cases e with
  | tick | spawnThread | createProcess => exact .inl ⟨_, rfl⟩
  | run => exact .inr ⟨[], rfl⟩
  | markThreadExited | exitProcess => exact .inr ⟨_, rfl⟩

/-- The kernel, as a system whose queue is that of its thread table. -/
def queued : Queued Nat Kernel Event where
  exec k e := (k.exec e).toOption
  Inv k := k.sched.Inv
  queue k := k.sched.sweep
  ops := operations
  shape := operations_shape
  step hInv h :=
    have hExec := Panic.toOption_eq_some h
    ⟨(exec_keeps hInv hExec).1, (exec_sweep hInv hExec).1⟩

theorem step_iff (k : Kernel) (e : Event) (k' : Kernel) : queued.Step k e k' ↔ Step k e k' := by
  refine ⟨fun h => Panic.toOption_eq_some h, fun h => ?_⟩
  show (k.exec e).toOption = some k'
  rw [show k.exec e = .ok k' from h]
  rfl

theorem run_iff {k k' : Kernel} {es : List Event} :
    Run queued.Step k es k' ↔ Run Step k es k' :=
  ⟨fun run => run.mono fun _ _ _ => (step_iff _ _ _).mp,
    fun run => run.mono fun _ _ _ => (step_iff _ _ _).mpr⟩

/-- The operations of the queue that a run makes. -/
def runOperations (k : Kernel) (es : List Event) : List (Sweep.Op Nat) := queued.trace k es

theorem run_served {k k' : Kernel} {es : List Event} (run : Run Step k es k') (hInv : k.sched.Inv) :
    k.switchedTo es = k.sched.sweep.served (k.runOperations es) := by
  induction run with
  | nil => rfl
  | @cons k m k' e es step rest ih =>
    obtain ⟨hSweep, hServed⟩ := exec_sweep hInv step
    rw [runOperations, Queued.trace_cons ((step_iff _ _ _).mpr step), Sweep.served_append]
    simp only [switchedTo, show k.exec e = .ok m from step]
    show _ = k.sched.sweep.served (k.operations e) ++
      (k.sched.sweep.exec (k.operations e)).served (m.runOperations es)
    rw [hServed, ← hSweep, ih (exec_keeps hInv step).1]

/-- The thread table, with the choices of its ticks, is the queue: along every run the Ready threads
are those that the operations of the run leave in the queue, in this order, and the ticks switch to
the threads that the queue serves. -/
theorem table_refines_queue {b : Boot} {es stretch : List Event} {k k' : Kernel}
    (h : Reaches b es k) (run : Run Step k stretch k') :
    k'.sched.sweep = k.sched.sweep.exec (k.runOperations stretch) ∧
      k.switchedTo stretch = k.sched.sweep.served (k.runOperations stretch) :=
  ⟨Queued.run_queue (run_iff.mpr run) h.inv, run_served run h.inv⟩

theorem table_refines_queue_sample :
    ∃ k k', Reaches sampleBoot [.tick] k ∧ Run Step k sampleStretch k' ∧
      k.sched.sweep.ahead = [2] ∧ k.sched.sweep.behind = [0] ∧
      k.switchedTo sampleStretch = k.sched.sweep.served (k.runOperations sampleStretch) := by
  obtain ⟨k, hReach, hValue⟩ := evaluate_reaches sampleBoot [.tick]
    (fun k => (k.sched.sweep.ahead, k.sched.sweep.behind,
      (k.execAll sampleStretch).toOption.isSome)) ([2], [0], true) (by decide)
  simp only [Prod.mk.injEq] at hValue
  obtain ⟨hAhead, hBehind, hEnd⟩ := hValue
  obtain ⟨k', hEnd⟩ := Option.isSome_iff_exists.mp hEnd
  have run := execAll_run (Panic.toOption_eq_some hEnd)
  exact ⟨k, k', hReach, run, hAhead, hBehind, (table_refines_queue hReach run).2⟩

/-! ### Bounded waiting -/

def addsThread : Event → Bool
  | .spawnThread _ _ _ | .createProcess _ _ _ => true
  | _ => false

theorem countP_isTurn (k : Kernel) (e : Event) :
    (k.operations e).countP Sweep.Op.isTurn = (isTick e).toNat := by
  cases e with
  | markThreadExited | exitProcess =>
    refine List.countP_eq_zero.mpr fun op hop => ?_
    obtain ⟨i, -, rfl⟩ := List.mem_map.mp hop
    simp [Sweep.Op.isTurn]
  | _ => rfl

theorem countP_isArrive (k : Kernel) (e : Event) :
    (k.operations e).countP Sweep.Op.isArrive = (addsThread e).toNat := by
  cases e with
  | markThreadExited | exitProcess =>
    refine List.countP_eq_zero.mpr fun op hop => ?_
    obtain ⟨i, -, rfl⟩ := List.mem_map.mp hop
    simp [Sweep.Op.isArrive]
  | _ => rfl

/-- Bounded waiting: along a stretch of a run in which thread `t` is Ready all the time, every tick
switches, and there are at most as many ticks as Ready threads were in front of `t`, and one more
for each thread added meanwhile.  The added ones count only where `t` does not come after the
current thread in the table. -/
theorem bounded_waiting {b : Boot} {es stretch : List Event} {k k' : Kernel} {t : Nat}
    (h : Reaches b es k) (run : Run Step k stretch k')
    (hReady : ∀ first last m, stretch = first ++ last → Run Step k first m →
      m.sched.isReady t = true) :
    (k.switchedTo stretch).length = stretch.countP isTick ∧
      k.sched.sweep.place t + 1 < k.sched.threads.length ∧
      stretch.countP isTick + k'.sched.sweep.place t ≤
        k.sched.sweep.place t + stretch.countP addsThread ∧
      (k.sched.current < t →
        stretch.countP isTick + k'.sched.sweep.place t ≤ k.sched.sweep.place t) := by
  have hInv := h.inv
  have hWaits : ∀ first last m, stretch = first ++ last → Run queued.Step k first m →
      t ∈ m.sched.sweep.queue := by
    intro first last m hSplit hRun
    have hRun := run_iff.mp hRun
    have hm : m.sched.Inv :=
      hRun.invariant (P := fun k => k.sched.Inv) (fun _ _ _ hs step => (exec_keeps hs step).1) hInv
    exact Scheduler.mem_sweep_of_isReady hm (hReady first last m hSplit hRun)
  have hMem := hWaits [] stretch k rfl (.nil k)
  obtain ⟨hLength, hBound, hAhead⟩ := Queued.waiting_bound (run_iff.mpr run) hInv hWaits
  rw [Queued.countP_trace countP_isTurn (run_iff.mpr run)] at hLength hBound hAhead
  rw [Queued.countP_trace countP_isArrive (run_iff.mpr run)] at hBound
  rw [run_served run hInv]
  exact ⟨hLength, Scheduler.place_lt hInv.current_lt hMem, hBound,
    fun hLt => hAhead (Scheduler.mem_ahead hLt hMem)⟩

theorem ready_along {k : Kernel} {es : List Event} {t : Nat}
    (h : es.inits.all (fun es => (k.execAll es).toOption.any (·.sched.isReady t)) = true) :
    ∀ first last m, es = first ++ last → Run Step k first m → m.sched.isReady t = true := by
  rw [List.all_eq_true] at h
  rintro first last m rfl run
  have hFirst := h first ((List.mem_inits _ _).mpr (List.prefix_append _ _))
  rwa [run_execAll run] at hFirst

/-- Thread 1 waits behind the idle thread; it waits for one tick more because thread 3 joins. -/
theorem bounded_waiting_sample :
    ∃ k k', Reaches sampleBoot [.tick, .tick] k ∧ Run Step k sampleStretch k' ∧
      k.sched.sweep.place 1 = 1 ∧ k'.sched.sweep.place 1 = 0 ∧
      (k.switchedTo sampleStretch).length = sampleStretch.countP isTick ∧
      sampleStretch.countP isTick + k'.sched.sweep.place 1 ≤
        k.sched.sweep.place 1 + sampleStretch.countP addsThread := by
  obtain ⟨k, hReach, hEval⟩ := evaluate_reaches sampleBoot [.tick, .tick]
    (fun k => decide (k.sched.sweep.place 1 = 1) &&
      (k.execAll sampleStretch).toOption.any (fun k' => k'.sched.sweep.place 1 = 0) &&
      sampleStretch.inits.all fun es => (k.execAll es).toOption.any (·.sched.isReady 1))
    true (by decide)
  simp only [Bool.and_eq_true, decide_eq_true_eq] at hEval
  obtain ⟨⟨hPlace, hEnd⟩, hReady⟩ := hEval
  obtain ⟨k', hEnd, hPlace'⟩ := (Option.any_eq_true _ _).mp hEnd
  have run := execAll_run (Panic.toOption_eq_some hEnd)
  obtain ⟨hLength, -, hBound, -⟩ := bounded_waiting hReach run (ready_along hReady)
  exact ⟨k, k', hReach, run, hPlace, of_decide_eq_true hPlace', hLength, hBound⟩

end Kernel

end RixOs

import RixOs.Kernel

/-! What a run of the kernel does to the thread table.  Every event is a sequence of changes of
the table: a new Ready thread, the exit of a thread, a tick that finds no other thread, and a
switch.  The invariant of the scheduler and the facts about dead threads are proved once for each
change and hold along every run. -/

namespace RixOs

open ProofKit

namespace Scheduler

inductive Change
  | add
  | exit (tid : UInt64)
  | stay
  | switch (next : Nat)
  deriving DecidableEq, Repr

/-- The changes of the thread table.  A switch also stores the stack pointer of the thread it
leaves. -/
inductive Step : Scheduler → Change → Scheduler → Prop
  | add {s : Scheduler} (tcb : ThreadControlBlock) (hReady : tcb.state = .ready) :
      Step s .add (s.addThread tcb)
  | exit {s : Scheduler} (tid : UInt64) : Step s (.exit tid) (s.markExited tid)
  | stay {s : Scheduler} (hNone : s.nextReady = none) : Step s .stay s
  | switch {s : Scheduler} {next : Nat} (rsp : UInt64) (hNext : s.nextReady = some next) :
      Step s (.switch next) ((s.switchTo next).saveContext s.current rsp)

def ExitedAt (s : Scheduler) (i : Nat) : Prop :=
  ∃ tcb, s.threads[i]? = some tcb ∧ tcb.state = .exited

/-- The thread table is in order: the current thread exists and is Running or Exited, every other
thread is Ready or Exited, and the idle thread is the first. -/
structure Inv (s : Scheduler) : Prop where
  current_lt : s.current < s.threads.length
  current_state : ∀ tcb, s.threads[s.current]? = some tcb →
    tcb.state = .running ∨ tcb.state = .exited
  other_state : ∀ i tcb, s.threads[i]? = some tcb → i ≠ s.current →
    tcb.state = .ready ∨ tcb.state = .exited
  idle : ∃ tcb, s.threads[0]? = some tcb ∧ tcb.tid = 0

theorem nextReady_some {s : Scheduler} (hInv : s.Inv) {next : Nat} (h : s.nextReady = some next) :
    next ≠ s.current ∧ ∃ tcb, s.threads[next]? = some tcb ∧ tcb.state = .ready := by
  obtain ⟨hReady, -, hNe, -⟩ := Cyclic.find_probes_some hInv.current_lt h
  exact ⟨hNe, isReady_iff.mp hReady⟩

theorem nextReady_none {s : Scheduler} (hInv : s.Inv) (h : s.nextReady = none) {i : Nat}
    (hi : i < s.threads.length) (hNe : i ≠ s.current) : s.ExitedAt i := by
  have hGet := List.getElem?_eq_getElem hi
  refine ⟨_, hGet, (hInv.other_state i _ hGet hNe).resolve_left fun hReady => ?_⟩
  have hNot := (Cyclic.find_probes_none hInv.current_lt).mp h i hi hNe
  rw [isReady_iff.mpr ⟨_, hGet, hReady⟩] at hNot
  cases hNot

theorem switch_get (s : Scheduler) (next : Nat) (rsp : UInt64) (i : Nat) :
    ((s.switchTo next).saveContext s.current rsp).threads[i]? = s.threads[i]?.map fun tcb =>
      { tcb with
        state := s.stateAfter next i tcb.state
        context := if i = s.current then ⟨rsp⟩ else tcb.context } := by
  rw [saveContext_get, switchTo_get]
  cases s.threads[i]? with
  | none => rfl
  | some tcb => by_cases hi : i = s.current <;> simp [hi]

theorem stateAfter_exited {s : Scheduler} {next i : Nat} {state : ThreadState} (hNe : i ≠ next) :
    s.stateAfter next i state = .exited ↔ state = .exited := by
  unfold stateAfter
  rw [if_neg hNe]
  split
  · rename_i h
    simp [h.2]
  · rfl

/-- A thread that is Exited after a change and was not before is the first with the TID of an
exit. -/
theorem Step.newly_exited {s s' : Scheduler} {c : Change} {i : Nat} (step : Step s c s')
    (hi : i < s.threads.length) (h' : s'.ExitedAt i) (h : ¬s.ExitedAt i) :
    ∃ tid, c = .exit tid ∧ i = s.indexOf tid := by
  obtain ⟨tcb', hGet', hExited⟩ := h'
  cases step with
  | add tcb =>
    rw [addThread_get hi] at hGet'
    exact absurd ⟨tcb', hGet', hExited⟩ h
  | stay => exact absurd ⟨tcb', hGet', hExited⟩ h
  | exit tid =>
    refine ⟨tid, rfl, ?_⟩
    by_contra hNe
    rw [markExited_get] at hGet'
    simp only [hNe, if_false, Option.map_id_fun', id_eq] at hGet'
    exact h ⟨tcb', hGet', hExited⟩
  | @switch next rsp hNext =>
    rw [switch_get, Option.map_eq_some_iff] at hGet'
    obtain ⟨tcb, hGet, rfl⟩ := hGet'
    by_cases hNe : i = next
    · simp [stateAfter, hNe] at hExited
    · exact absurd ⟨tcb, hGet, (stateAfter_exited hNe).mp hExited⟩ h

theorem Step.inv {s s' : Scheduler} {c : Change} (step : Step s c s') (hInv : s.Inv) : s'.Inv := by
  obtain ⟨idle, hIdle, hTid⟩ := hInv.idle
  cases step with
  | stay => exact hInv
  | add tcb hReady =>
    refine ⟨by simpa using Nat.lt_succ_of_lt hInv.current_lt, fun t ht => ?_, fun i t ht hNe => ?_,
      idle, ?_, hTid⟩
    · rw [addThread_current, addThread_get hInv.current_lt] at ht
      exact hInv.current_state t ht
    · rcases addThread_cases ht with hOld | ⟨-, rfl⟩
      · exact hInv.other_state i t hOld hNe
      · exact .inl hReady
    · rwa [addThread_get (List.getElem?_eq_some_iff.mp hIdle).1]
  | exit tid =>
    refine ⟨by simpa using hInv.current_lt, fun t' ht' => ?_, fun i t' ht' hNe => ?_, ?_⟩
    · obtain ⟨t, ht, rfl | rfl⟩ := markExited_cases ht'
      · exact hInv.current_state _ ht
      · exact .inr rfl
    · obtain ⟨t, ht, rfl | rfl⟩ := markExited_cases ht'
      · exact hInv.other_state i _ ht hNe
      · exact .inr rfl
    · rw [markExited_get, hIdle]
      refine ⟨_, rfl, ?_⟩
      split <;> exact hTid
  | @switch next rsp hNext =>
    obtain ⟨hNe, tcb, hGet, hReady⟩ := nextReady_some hInv hNext
    refine ⟨?_, fun t' ht' => ?_, fun i t' ht' hi => ?_, ?_⟩
    · simpa using (List.getElem?_eq_some_iff.mp hGet).1
    · rw [saveContext_current, switchTo_current, switch_get, hGet] at ht'
      cases ht'
      exact .inl (by simp [stateAfter])
    · rw [saveContext_current, switchTo_current] at hi
      rw [switch_get, Option.map_eq_some_iff] at ht'
      obtain ⟨t, ht, rfl⟩ := ht'
      simp only [stateAfter, hi, if_false]
      -- The thread that was current is Ready now, unless it was Exited.
      by_cases hCur : i = s.current
      · subst hCur
        rcases hInv.current_state t ht with h | h <;> simp [h]
      · simpa [hCur] using hInv.other_state i t ht hCur
    · rw [switch_get, hIdle]
      exact ⟨_, rfl, hTid⟩

/-- What holds of a later table `s'`: the threads of `s` come first, with their TIDs and PIDs, the
Exited threads of `s` are Exited, and none of them has become current. -/
structure Keeps (s s' : Scheduler) : Prop where
  ids : (s.threads.map fun tcb => (tcb.tid, tcb.pid)) <+:
    s'.threads.map fun tcb => (tcb.tid, tcb.pid)
  exited : ∀ i, s.ExitedAt i → s'.ExitedAt i
  retired : ∀ i, s.ExitedAt i → i ≠ s.current → i ≠ s'.current

theorem Keeps.refl (s : Scheduler) : Keeps s s :=
  ⟨List.prefix_refl _, fun _ h => h, fun _ _ h => h⟩

theorem Keeps.trans {s t u : Scheduler} (h : Keeps s t) (h' : Keeps t u) : Keeps s u :=
  ⟨h.ids.trans h'.ids, fun i hi => h'.exited i (h.exited i hi),
    fun i hi hNe => h'.retired i (h.exited i hi) (h.retired i hi hNe)⟩

theorem Keeps.get {s s' : Scheduler} (h : Keeps s s') {i : Nat} {tcb : ThreadControlBlock}
    (hGet : s.threads[i]? = some tcb) :
    ∃ tcb', s'.threads[i]? = some tcb' ∧ tcb'.tid = tcb.tid ∧ tcb'.pid = tcb.pid := by
  obtain ⟨rest, hRest⟩ := h.ids
  have hi : i < (s.threads.map fun tcb => (tcb.tid, tcb.pid)).length := by
    rw [List.length_map]
    exact (List.getElem?_eq_some_iff.mp hGet).1
  have hGet' := congrArg (fun l => l[i]?) hRest
  simp only [List.getElem?_append_left hi, List.getElem?_map, hGet, Option.map_some] at hGet'
  obtain ⟨tcb', hTcb', hIds⟩ := Option.map_eq_some_iff.mp hGet'.symm
  exact ⟨tcb', hTcb', (Prod.mk.inj hIds).1, (Prod.mk.inj hIds).2⟩

theorem ids_eq {s s' : Scheduler} {f : Nat → ThreadControlBlock → ThreadControlBlock}
    (h : ∀ i, s'.threads[i]? = s.threads[i]?.map (f i))
    (hIds : ∀ i tcb, ((f i tcb).tid, (f i tcb).pid) = (tcb.tid, tcb.pid)) :
    (s'.threads.map fun tcb => (tcb.tid, tcb.pid)) =
      s.threads.map fun tcb => (tcb.tid, tcb.pid) := by
  apply List.ext_getElem?
  intro i
  rw [List.getElem?_map, List.getElem?_map, h, Option.map_map]
  congr 1
  funext tcb
  exact hIds i tcb

theorem Step.keeps {s s' : Scheduler} {c : Change} (step : Step s c s') (hInv : s.Inv) :
    Keeps s s' := by
  cases step with
  | stay => exact .refl s
  | add tcb =>
    refine ⟨by simp [addThread], fun i hi => ?_, fun _ _ hNe => hNe⟩
    obtain ⟨t, ht, hExited⟩ := hi
    exact ⟨t, by rwa [addThread_get (List.getElem?_eq_some_iff.mp ht).1], hExited⟩
  | exit tid =>
    refine ⟨?_, fun i hi => ?_, fun _ _ hNe => hNe⟩
    · have hIds := ids_eq (markExited_get s tid) fun i t => by split <;> rfl
      exact ⟨[], by rw [List.append_nil, hIds]⟩
    · obtain ⟨t, ht, hExited⟩ := hi
      refine ⟨_, by rw [markExited_get, ht]; rfl, ?_⟩
      split
      · rfl
      · exact hExited
  | @switch next rsp hNext =>
    obtain ⟨-, tcb, hGet, hReady⟩ := nextReady_some hInv hNext
    have hNe : ∀ i, s.ExitedAt i → i ≠ next := by
      rintro i ⟨t, ht, hExited⟩ rfl
      rw [hGet] at ht
      cases ht
      rw [hReady] at hExited
      cases hExited
    refine ⟨?_, fun i hi => ?_, fun i hi _ => hNe i hi⟩
    · have hIds := ids_eq (switch_get s next rsp) fun i t => rfl
      exact ⟨[], by rw [List.append_nil, hIds]⟩
    · have hOther := hNe i hi
      obtain ⟨t, ht, hExited⟩ := hi
      exact ⟨_, by rw [switch_get, ht]; rfl, (stateAfter_exited hOther).mpr hExited⟩

end Scheduler

namespace Kernel

open Scheduler (Change Keeps)

def marked (k : Kernel) : Event → List UInt64
  | .markThreadExited tid => [tid]
  | .exitProcess pid _ => (k.table.get pid).elim [] ProcessControlBlock.threads
  | _ => []

/-- The changes of the thread table that an event makes, in order. -/
def changes (k : Kernel) : Event → List Change
  | .tick => [k.sched.nextReady.elim .stay .switch]
  | .spawnThread _ _ _ | .createProcess _ _ _ => [.add]
  | .run _ _ => []
  | e => (k.marked e).map .exit

theorem foldl_markExited_run (tids : List UInt64) (s : Scheduler) :
    Run Scheduler.Step s (tids.map .exit) (tids.foldl Scheduler.markExited s) := by
  induction tids generalizing s with
  | nil => exact .nil s
  | cons tid tids ih => exact .cons (.exit tid) (ih _)

theorem foldl_markExited_current (tids : List UInt64) (s : Scheduler) :
    (tids.foldl Scheduler.markExited s).current = s.current := by
  induction tids generalizing s with
  | nil => rfl
  | cons tid tids ih => exact ih (s.markExited tid)

theorem exitProcess_run (k : Kernel) (pid : UInt64) (exitCode : Int32) :
    Run Scheduler.Step k.sched (k.changes (.exitProcess pid exitCode))
      (k.exitProcess pid exitCode).sched := by
  simp only [changes, marked]
  cases hGet : k.table.get pid with
  | none =>
    rw [exitProcess_none hGet]
    exact .nil _
  | some pcb =>
    rw [exitProcess_some hGet]
    exact foldl_markExited_run _ _

theorem exec_changes {k k' : Kernel} {e : Event}
    (hCurrent : k.sched.current < k.sched.threads.length) (h : k.exec e = .ok k') :
    Run Scheduler.Step k.sched (k.changes e) k'.sched := by
  cases e with
  | tick =>
    rw [changes]
    rcases exec_tick hCurrent h with ⟨hNext, rfl⟩ | ⟨next, hNext, rfl⟩
    · rw [hNext]
      exact .single (.stay hNext)
    · rw [hNext, contextSwitch_sched]
      exact .single (.switch _ hNext)
  | spawnThread pid entryFn ptr =>
    cases h
    exact .single (.add _ rfl)
  | markThreadExited tid =>
    cases h
    exact .single (.exit tid)
  | createProcess name entryFn ptr =>
    obtain ⟨pid, hCreate⟩ := exec_createProcess h
    obtain ⟨k₁, hInsert, rfl⟩ := createProcess_ok hCreate
    obtain ⟨-, -, rfl⟩ := insertProcess_ok hInsert
    exact .single (.add _ rfl)
  | exitProcess pid exitCode =>
    cases h
    exact exitProcess_run k pid exitCode
  | run cpu mem =>
    cases h
    exact .nil _

/-- One event keeps the invariant of the scheduler and everything that `Keeps` says. -/
theorem exec_keeps {k k' : Kernel} {e : Event} (hInv : k.sched.Inv) (h : k.exec e = .ok k') :
    k'.sched.Inv ∧ Keeps k.sched k'.sched := by
  have run := exec_changes hInv.current_lt h
  exact ⟨run.invariant (fun _ _ _ hs step => step.inv hs) hInv,
    run.relates .refl (fun _ _ _ => .trans) (fun _ _ _ hs step => ⟨step.inv hs, step.keeps hs⟩) hInv⟩

theorem run_keeps {k k' : Kernel} {es : List Event} (run : Run Step k es k') (hInv : k.sched.Inv) :
    Keeps k.sched k'.sched :=
  run.relates (P := fun k => k.sched.Inv) (R := fun k k' => Keeps k.sched k'.sched)
    (fun _ => .refl _) (fun _ _ _ => .trans) (fun _ _ _ hs step => exec_keeps hs step) hInv

theorem initIdle_inv {b : Boot} {k : Kernel} (h : initIdle b = .ok k) : k.sched.Inv := by
  cases h
  refine ⟨Nat.zero_lt_one, fun tcb ht => ?_, fun i tcb ht hNe => ?_, idleThread, rfl, rfl⟩
  · cases ht
    exact .inl rfl
  · rcases Scheduler.addThread_cases ht with hOld | ⟨rfl, -⟩
    · cases hOld
    · exact absurd rfl hNe

theorem Reaches.inv {b : Boot} {es : List Event} {k : Kernel} (h : Reaches b es k) :
    k.sched.Inv := by
  obtain ⟨k₀, hIdle, run⟩ := h.fromIdle
  exact run.invariant (P := fun k => k.sched.Inv) (fun _ _ _ hs step => (exec_keeps hs step).1)
    (initIdle_inv hIdle)

/-- The invariant of the scheduler, in every state that events reach from `scheduler::init`. -/
theorem scheduler_invariant {b : Boot} {es : List Event} {k : Kernel} (h : Reaches b es k) :
    k.sched.threads ≠ [] ∧ k.sched.current < k.sched.threads.length ∧
      (∃ tcb, k.sched.threads[k.sched.current]? = some tcb ∧
        (tcb.state = .running ∨ tcb.state = .exited)) ∧
      (∀ i tcb, k.sched.threads[i]? = some tcb → i ≠ k.sched.current →
        tcb.state = .ready ∨ tcb.state = .exited) ∧
      (∀ i tcb, k.sched.threads[i]? = some tcb → tcb.state = .running → i = k.sched.current) ∧
      (∃ result, k.sched.prepareSwitch = .ok result) ∧
      (∃ tid, k.currentTid = .ok tid) ∧ ∃ pid, k.currentPid = .ok pid := by
  have hInv := h.inv
  have hGet := List.getElem?_eq_getElem hInv.current_lt
  refine ⟨List.ne_nil_of_length_pos (by have := hInv.current_lt; omega), hInv.current_lt,
    ⟨_, hGet, hInv.current_state _ hGet⟩, hInv.other_state, fun i tcb ht hRunning => ?_,
    ⟨_, Scheduler.prepareSwitch_eq hInv.current_lt⟩, ?_, ?_⟩
  · by_contra hNe
    rcases hInv.other_state i tcb ht hNe with hState | hState <;>
      · rw [hRunning] at hState
        cases hState
  · rw [currentTid, Scheduler.currentTid, Scheduler.thread_ok hGet]
    exact ⟨_, rfl⟩
  · rw [currentPid, Scheduler.currentPid, Scheduler.thread_ok hGet]
    exact ⟨_, rfl⟩

theorem scheduler_invariant_sample :
    ∃ k, Reaches sampleBoot [.tick, .exitProcess 1 0, .tick] k ∧ k.sched.current = 2 ∧
      k.sched.current < k.sched.threads.length := by
  obtain ⟨k, hReach, hCurrent⟩ := evaluate_reaches sampleBoot
    [.tick, .exitProcess 1 0, .tick] (fun k => k.sched.current) 2 (by decide)
  exact ⟨k, hReach, hCurrent, (scheduler_invariant hReach).2.1⟩

/-! ### Dead threads -/

theorem mem_changes_exit {k : Kernel} {e : Event} {tid : UInt64} (h : .exit tid ∈ k.changes e) :
    tid ∈ k.marked e := by
  cases e with
  | tick =>
    simp only [changes, List.mem_singleton] at h
    cases hNext : k.sched.nextReady <;> rw [hNext] at h <;> cases h
  | spawnThread | createProcess | run => simp [changes] at h
  | markThreadExited | exitProcess => simpa [changes] using h

/-- An event after which the idle thread is Exited, and was not before, marks TID 0. -/
theorem exec_marks_idle {k k' : Kernel} {e : Event} (hInv : k.sched.Inv) (h : k.exec e = .ok k')
    (hBefore : ¬k.sched.ExitedAt 0) (hAfter : k'.sched.ExitedAt 0) : 0 ∈ k.marked e := by
  obtain ⟨before, c, after, s, s', hSplit, first, step, -, hs, hs'⟩ :=
    (exec_changes hInv.current_lt h).first_step (P := fun s => s.ExitedAt 0) hBefore hAfter
  have hInvS := first.invariant (fun _ _ _ hs step => step.inv hs) hInv
  obtain ⟨idle, hIdle, hTid⟩ := hInvS.idle
  obtain ⟨tid, rfl, hIndex⟩ := step.newly_exited (List.getElem?_eq_some_iff.mp hIdle).1 hs' hs
  have hZero : tid = 0 := (Scheduler.indexOf_tid hIdle hIndex).symm.trans hTid
  exact hZero ▸ mem_changes_exit (by rw [hSplit]; simp)

/-- A tick after which the current thread is Exited found the idle thread Exited. -/
theorem tick_idle_exited {k k' : Kernel} (hInv : k.sched.Inv) (h : k.exec .tick = .ok k')
    (hExited : k'.sched.ExitedAt k'.sched.current) : k.sched.ExitedAt 0 := by
  rcases exec_tick hInv.current_lt h with ⟨hNext, rfl⟩ | ⟨next, hNext, rfl⟩
  · by_cases hZero : 0 = k'.sched.current
    · rwa [hZero]
    · exact Scheduler.nextReady_none hInv hNext (by have := hInv.current_lt; omega) hZero
  · -- The thread switched to is Running.
    obtain ⟨tcb', hGet', hState⟩ := hExited
    rw [contextSwitch_sched] at hGet'
    have hGet'' := (Scheduler.switch_get k.sched next _ next).symm.trans hGet'
    obtain ⟨tcb, -, rfl⟩ := Option.map_eq_some_iff.mp hGet''
    simp [Scheduler.stateAfter] at hState

theorem init_idle {b : Boot} {k : Kernel} (h : init b = .ok k) : ¬k.sched.ExitedAt 0 := by
  intro hExited
  obtain ⟨k₀, hIdle, run⟩ := init_ok h
  have hStart : ¬k₀.sched.ExitedAt 0 := by
    cases hIdle
    rintro ⟨tcb, hGet, hState⟩
    cases hGet
    cases hState
  obtain ⟨before, e, after, m, m', hSplit, first, step, -, hm, hm'⟩ :=
    run.first_step (P := fun k => k.sched.ExitedAt 0) hStart hExited
  have hInv := first.invariant (P := fun k => k.sched.Inv)
    (fun _ _ _ hs step => (exec_keeps hs step).1) (initIdle_inv hIdle)
  have hMarks := exec_marks_idle hInv step hm hm'
  have hMem : e ∈ before ++ e :: after := by simp
  rw [← hSplit] at hMem
  simp only [List.mem_cons, List.not_mem_nil, or_false] at hMem
  rcases hMem with rfl | rfl <;> cases hMarks

/-- Along every run the thread table only grows at its end, an Exited thread stays Exited, no
tick switches to it, and it does not become current again.  A tick leaves an Exited thread as the
current one only when an earlier event of the run marked the idle thread. -/
theorem exited_never_runs {b : Boot} {es : List Event} {k : Kernel} (h : Reaches b es k) :
    (∀ es' k', Run Step k es' k' →
      ((k.sched.threads.map fun tcb => (tcb.tid, tcb.pid)) <+:
        k'.sched.threads.map fun tcb => (tcb.tid, tcb.pid)) ∧
      (∀ i, k.sched.ExitedAt i → k'.sched.ExitedAt i) ∧
      ∀ i, k.sched.ExitedAt i → i ≠ k.sched.current → i ≠ k'.sched.current) ∧
    (∀ old new s, k.sched.prepareSwitch = .ok (some (old, new), s) →
      ¬k.sched.ExitedAt new ∧ s.current = new) ∧
    ∀ k', k.exec .tick = .ok k' → k'.sched.ExitedAt k'.sched.current →
      ∃ before e after m m', es = before ++ e :: after ∧ Reaches b before m ∧ Step m e m' ∧
        Run Step m' after k ∧ 0 ∈ m.marked e ∧ ¬m.sched.ExitedAt 0 ∧ m'.sched.ExitedAt 0 := by
  have hInv := h.inv
  refine ⟨fun es' k' run => ?_, fun old new s hSwitch => ?_, fun k' hTick hExited => ?_⟩
  · have hKeeps := run_keeps run hInv
    exact ⟨hKeeps.ids, hKeeps.exited, hKeeps.retired⟩
  · rw [Scheduler.prepareSwitch_eq hInv.current_lt] at hSwitch
    cases hNext : k.sched.nextReady with
    | none =>
      rw [hNext] at hSwitch
      cases hSwitch
    | some next =>
      rw [hNext] at hSwitch
      cases hSwitch
      refine ⟨?_, rfl⟩
      rintro ⟨t, ht, hState⟩
      obtain ⟨-, tcb, hGet, hReady⟩ := Scheduler.nextReady_some hInv hNext
      rw [hGet] at ht
      cases ht
      rw [hReady] at hState
      cases hState
  · have hIdle := tick_idle_exited hInv hTick hExited
    obtain ⟨k₀, hInit, run⟩ := h
    obtain ⟨before, e, after, m, m', rfl, first, step, last, hm, hm'⟩ :=
      run.first_step (P := fun k => k.sched.ExitedAt 0) (init_idle hInit) hIdle
    have hReach : Reaches b before m := ⟨k₀, hInit, first⟩
    exact ⟨before, e, after, m, m', rfl, hReach, step, last, exec_marks_idle hReach.inv step hm hm',
      hm, hm'⟩

/-- The idle thread is killed, then both demo threads: the next tick leaves the last of them
current, and the run did mark TID 0. -/
theorem exited_never_runs_sample :
    ∃ k k', Reaches sampleBoot [.markThreadExited 0, .tick, .exitProcess 2 0, .exitProcess 1 0] k ∧
      k.exec .tick = .ok k' ∧ k'.sched.ExitedAt k'.sched.current ∧
      ∃ before e after, [Event.markThreadExited 0, .tick, .exitProcess 2 0, .exitProcess 1 0] =
        before ++ e :: after ∧ ∃ m, Reaches sampleBoot before m ∧ 0 ∈ m.marked e := by
  obtain ⟨k, hReach, hState⟩ := evaluate_reaches sampleBoot
    [.markThreadExited 0, .tick, .exitProcess 2 0, .exitProcess 1 0]
    (fun k => (k.sched.current, k.sched.nextReady, k.sched.threads.map (·.state)))
    (1, none, [.exited, .exited, .exited]) (by decide)
  simp only [Prod.mk.injEq] at hState
  obtain ⟨hCurrent, hNext, hStates⟩ := hState
  have hTick : k.exec .tick = .ok k := by rw [exec, tick_eq hReach.inv.current_lt, hNext]
  have hExited : k.sched.ExitedAt k.sched.current := by
    have hGet := congrArg (fun l => l[1]?) hStates
    simp only [List.getElem?_map] at hGet
    obtain ⟨tcb, hTcb, hExit⟩ := Option.map_eq_some_iff.mp hGet
    exact ⟨tcb, hCurrent ▸ hTcb, hExit⟩
  obtain ⟨before, e, after, m, -, hSplit, hm, -, -, hMarks, -, -⟩ :=
    (exited_never_runs hReach).2.2 k hTick hExited
  exact ⟨k, k, hReach, hTick, hExited, before, e, after, hSplit, m, hm, hMarks⟩

end Kernel

end RixOs

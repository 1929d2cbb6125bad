import Mathlib.Data.List.Infix
import RixOs.Scheduling

/-! The order in which ticks visit the threads.  While a thread `t` waits, the current index moves
forward through the cycle of places that starts after `t`, whatever threads are added or exit
meanwhile, and it cannot pass `t`. -/

namespace RixOs

open ProofKit

/-- Place `i` comes before place `j` in the cycle of places that starts after place `t`. -/
def Before (t i j : Nat) : Prop := (t < i ∧ (i < j ∨ j < t)) ∨ (i < j ∧ j < t)

theorem Before.trans {t i j l : Nat} (h : Before t i j) (h' : Before t j l) : Before t i l := by
  unfold Before at *
  omega

theorem Before.ne {t i j : Nat} (h : Before t i j) : i ≠ j := by
  unfold Before at h
  omega

/-- A tick that passes over no Ready thread moves forward in the cycle that starts after a Ready
thread. -/
theorem Scheduler.nextReady_before {s : Scheduler} (hInv : s.Inv) {next t : Nat}
    (hNext : s.nextReady = some next) (hReady : s.isReady t = true) (hCurrent : t ≠ s.current)
    (hNe : t ≠ next) : Before t s.current next := by
  obtain ⟨-, hLt, hNeCurrent, hLeast⟩ := Cyclic.find_probes_some hInv.current_lt hNext
  obtain ⟨tcb, hGet, -⟩ := isReady_iff.mp hReady
  have ht := (List.getElem?_eq_some_iff.mp hGet).1
  have hRange := hInv.current_lt
  have hDist := hLeast t ht hCurrent hReady
  rw [Cyclic.distance_eq hInv.current_lt hLt, Cyclic.distance_eq hInv.current_lt ht] at hDist
  unfold Before
  split at hDist <;> split at hDist <;> omega

theorem Scheduler.ready_ne_current {s : Scheduler} (hInv : s.Inv) {t : Nat}
    (hReady : s.isReady t = true) : t ≠ s.current := by
  rintro rfl
  obtain ⟨tcb, hGet, hState⟩ := isReady_iff.mp hReady
  rcases hInv.current_state tcb hGet with h | h <;>
    · rw [hState] at h
      cases h

namespace Kernel

def target (k : Kernel) : Event → Option Nat
  | .tick =>
    match k.sched.prepareSwitch with
    | .ok (some (_, new), _) => some new
    | _ => none
  | _ => none

/-- The threads that the ticks among the events `es` switch to, in order. -/
def switchedTo (k : Kernel) : List Event → List Nat
  | [] => []
  | e :: es =>
    match k.exec e with
    | .ok k' => (k.target e).toList ++ k'.switchedTo es
    | .error _ => []

theorem target_tick {k : Kernel} (hInv : k.sched.Inv) : k.target .tick = k.sched.nextReady := by
  rw [target, Scheduler.prepareSwitch_eq hInv.current_lt]
  cases k.sched.nextReady <;> rfl

theorem target_some {k : Kernel} {e : Event} {next : Nat} (hInv : k.sched.Inv)
    (h : k.target e = some next) : k.sched.nextReady = some next := by
  cases e with
  | tick => rwa [target_tick hInv] at h
  | _ => cases h

theorem exec_current {k k' : Kernel} {e : Event} (hInv : k.sched.Inv) (h : k.exec e = .ok k') :
    k'.sched.current = (k.target e).getD k.sched.current := by
  cases e with
  | tick =>
    rw [target_tick hInv]
    rcases exec_tick hInv.current_lt h with ⟨hNext, rfl⟩ | ⟨next, hNext, rfl⟩
    · rw [hNext]
      rfl
    · rw [hNext]
      simp
  | spawnThread | markThreadExited | run =>
    cases h
    rfl
  | createProcess name entryFn ptr =>
    obtain ⟨pid, hCreate⟩ := exec_createProcess h
    obtain ⟨k₁, hInsert, rfl⟩ := createProcess_ok hCreate
    obtain ⟨-, -, rfl⟩ := insertProcess_ok hInsert
    rfl
  | exitProcess pid exitCode =>
    cases h
    cases hGet : k.table.get pid with
    | none =>
      rw [exitProcess_none hGet]
      rfl
    | some pcb =>
      rw [exitProcess_some hGet]
      exact foldl_markExited_current pcb.threads k.sched

/-- While thread `t` is Ready, the threads that ticks switch to come later and later in the cycle
that starts after `t`. -/
theorem switchedTo_before {k k' : Kernel} {es : List Event} {t : Nat} (run : Run Step k es k')
    (hInv : k.sched.Inv)
    (hReady : ∀ first last m, es = first ++ last → Run Step k first m → m.sched.isReady t = true) :
    (∀ i ∈ k.switchedTo es, Before t k.sched.current i) ∧
      (k.switchedTo es).Pairwise (Before t) := by
  induction run with
  | nil => exact ⟨by simp [switchedTo], by simp [switchedTo]⟩
  | @cons k m k' e es step rest ih =>
    have hm := (exec_keeps hInv step).1
    obtain ⟨hAll, hPairs⟩ := ih hm fun first last m' hSplit hRun =>
      hReady (e :: first) last m' (by rw [hSplit, List.cons_append]) (.cons step hRun)
    have hCurrent := exec_current hInv step
    have hBefore := hReady [] (e :: es) k rfl (.nil k)
    have hAfter := hReady [e] es m rfl (.single step)
    simp only [switchedTo, show k.exec e = .ok m from step]
    cases hTarget : k.target e with
    | none =>
      rw [hTarget] at hCurrent
      rw [hCurrent] at hAll
      exact ⟨hAll, hPairs⟩
    | some next =>
      rw [hTarget] at hCurrent
      rw [hCurrent] at hAll
      have hFirst : Before t k.sched.current next := by
        refine Scheduler.nextReady_before hInv (target_some hInv hTarget) hBefore
          (Scheduler.ready_ne_current hInv hBefore) ?_
        rw [← show m.sched.current = next from hCurrent]
        exact Scheduler.ready_ne_current hm hAfter
      refine ⟨fun i hi => ?_, ?_⟩
      · rcases List.mem_cons.mp hi with rfl | hi
        · exact hFirst
        · exact hFirst.trans (hAll i hi)
      · exact List.pairwise_cons.mpr ⟨hAll, hPairs⟩

/-- No overtaking: along a stretch of a run in which thread `t` is Ready all the time, no thread is
switched to more than once. -/
theorem no_overtaking {b : Boot} {es stretch : List Event} {k k' : Kernel} {t : Nat}
    (h : Reaches b es k) (run : Run Step k stretch k')
    (hReady : ∀ first last m, stretch = first ++ last → Run Step k first m →
      m.sched.isReady t = true) : (k.switchedTo stretch).Nodup :=
  (switchedTo_before run h.inv hReady).2.imp Before.ne

/-- The events of the sample: a thread is added and two ticks visit it and the idle thread, while
thread 1 waits. -/
def sampleStretch : List Event := [.spawnThread 2 0x4000 0x300000, .tick, .tick]

theorem no_overtaking_sample :
    ∃ k k', Reaches sampleBoot [.tick, .tick] k ∧ Run Step k sampleStretch k' ∧
      k.switchedTo sampleStretch = [3, 0] ∧ (k.switchedTo sampleStretch).Nodup := by
  obtain ⟨k, hReach, hEval⟩ := evaluate_reaches sampleBoot [.tick, .tick]
    (fun k => decide (k.switchedTo sampleStretch = [3, 0]) &&
      sampleStretch.inits.all fun es => (k.execAll es).toOption.any (·.sched.isReady 1))
    true (by decide)
  simp only [Bool.and_eq_true, decide_eq_true_eq, List.all_eq_true, List.mem_inits] at hEval
  obtain ⟨hSwitched, hReady⟩ := hEval
  obtain ⟨k', hEnd, -⟩ := (Option.any_eq_true _ _).mp
    (hReady sampleStretch (List.prefix_refl _))
  have run := execAll_run (Panic.toOption_eq_some hEnd)
  refine ⟨k, k', hReach, run, hSwitched, no_overtaking (t := 1) hReach run ?_⟩
  intro first last m hSplit hRun
  have h := hReady first (hSplit ▸ List.prefix_append first last)
  rw [run_execAll hRun] at h
  exact h

end Kernel

/-! ### Consecutive ticks -/

namespace Scheduler

/-- Thread `i` is Ready or Running. -/
def isLive (s : Scheduler) (i : Nat) : Bool :=
  s.threads[i]?.any fun tcb => tcb.state = .ready ∨ tcb.state = .running

/-- The threads that are Ready or Running, in ascending order. -/
def live (s : Scheduler) : List Nat := (List.range s.threads.length).filter s.isLive

def RunningAt (s : Scheduler) (i : Nat) : Prop :=
  ∃ tcb, s.threads[i]? = some tcb ∧ tcb.state = .running

theorem isLive_iff {s : Scheduler} {i : Nat} :
    s.isLive i = true ↔
      ∃ tcb, s.threads[i]? = some tcb ∧ (tcb.state = .ready ∨ tcb.state = .running) := by
  simp [isLive, Option.any_eq_true]

theorem RunningAt.isLive {s : Scheduler} {i : Nat} (h : s.RunningAt i) : s.isLive i = true := by
  obtain ⟨tcb, hGet, hState⟩ := h
  exact isLive_iff.mpr ⟨tcb, hGet, .inr hState⟩

theorem mem_live {s : Scheduler} {i : Nat} : i ∈ s.live ↔ s.isLive i = true := by
  rw [live, List.mem_filter, List.mem_range, and_iff_right_iff_imp]
  intro hLive
  obtain ⟨tcb, hGet, -⟩ := isLive_iff.mp hLive
  exact (List.getElem?_eq_some_iff.mp hGet).1

theorem live_state {s : Scheduler} (hInv : s.Inv) {i : Nat} (hLive : s.isLive i = true)
    (hNe : i ≠ s.current) : s.isReady i = true := by
  obtain ⟨tcb, hGet, hState⟩ := isLive_iff.mp hLive
  refine isReady_iff.mpr ⟨tcb, hGet, ?_⟩
  rcases hInv.other_state i tcb hGet hNe with hReady | hExited
  · exact hReady
  · rw [hExited] at hState
    rcases hState with h | h <;> cases h

/-- The thread that a tick leaves current is the next one in the list of live threads. -/
theorem live_next {s : Scheduler} (hInv : s.Inv) (hRunning : s.RunningAt s.current) {j : Nat}
    (hj : s.live[j]? = some s.current) :
    s.live[(j + 1) % s.live.length]? = some (s.nextReady.getD s.current) := by
  refine Cyclic.find_probes_succ hInv.current_lt hRunning.isLive (fun i hNe => ?_) hj
  rw [Bool.eq_iff_iff]
  constructor
  · exact fun hLive => live_state hInv hLive hNe
  · intro hReady
    obtain ⟨t, ht, hReady⟩ := isReady_iff.mp hReady
    exact isLive_iff.mpr ⟨t, ht, .inl hReady⟩

/-- What `m` ticks leave of the table `s`, with `j` the position of its current thread in the list
of live threads. -/
structure Rotated (s : Scheduler) (j m : Nat) (s' : Scheduler) : Prop where
  live : s'.live = s.live
  current : s.live[(j + m) % s.live.length]? = some s'.current
  running : s'.RunningAt s'.current
  dead : ∀ i ∉ s.live, s'.threads[i]? = s.threads[i]?

theorem rotated_start {s : Scheduler} (hRunning : s.RunningAt s.current) :
    s.Rotated (s.live.idxOf s.current) 0 s := by
  have hMem : s.current ∈ s.live := mem_live.mpr hRunning.isLive
  refine ⟨rfl, ?_, hRunning, fun _ _ => rfl⟩
  rw [Nat.add_zero, Nat.mod_eq_of_lt (List.idxOf_lt_length_iff.mpr hMem)]
  exact List.getElem?_idxOf hMem

theorem isLive_switch {s : Scheduler} (hInv : s.Inv) (hRunning : s.RunningAt s.current)
    {next : Nat} (hNext : s.nextReady = some next) (rsp : UInt64) (i : Nat) :
    ((s.switchTo next).saveContext s.current rsp).isLive i = s.isLive i := by
  obtain ⟨-, tcb, hGet, hReady⟩ := nextReady_some hInv hNext
  obtain ⟨cur, hCur, hState⟩ := hRunning
  rw [isLive, isLive, switch_get]
  by_cases hi : i = next
  · subst hi
    simp [hGet, hReady, stateAfter]
  · by_cases hi' : i = s.current
    · subst hi'
      simp [hCur, hState, stateAfter, hi]
    · cases s.threads[i]? <;> simp [stateAfter, hi, hi']

/-- A switch, one place further in the list of live threads. -/
theorem Rotated.switch {s s' : Scheduler} {j m next : Nat} (h : s.Rotated j m s') (hInv : s'.Inv)
    (hNext : s'.nextReady = some next) (rsp : UInt64) :
    s.Rotated j (m + 1) ((s'.switchTo next).saveContext s'.current rsp) := by
  obtain ⟨hNe, tcb, hGet, hReady⟩ := nextReady_some hInv hNext
  have hLive : ((s'.switchTo next).saveContext s'.current rsp).live = s'.live := by
    rw [Scheduler.live, Scheduler.live, saveContext_length, switchTo_length]
    exact List.filter_congr fun i _ => isLive_switch hInv h.running hNext rsp i
  have hCurrent := live_next hInv h.running (h.live ▸ h.current)
  rw [hNext, Option.getD_some, h.live, Nat.mod_add_mod] at hCurrent
  refine ⟨hLive.trans h.live, hCurrent, ?_, fun i hi => ?_⟩
  · rw [saveContext_current, switchTo_current, RunningAt, switch_get, hGet]
    exact ⟨_, rfl, by simp [stateAfter]⟩
  · have hDead : s'.isLive i = false := by
      rw [← h.live, mem_live] at hi
      simpa using hi
    rw [← h.dead i hi, switch_get]
    have hNotNext : i ≠ next := by
      rintro rfl
      rw [isLive_iff.mpr ⟨tcb, hGet, .inl hReady⟩] at hDead
      cases hDead
    have hNotCurrent : i ≠ s'.current := by
      rintro rfl
      rw [h.running.isLive] at hDead
      cases hDead
    cases s'.threads[i]? <;> simp [stateAfter, hNotNext, hNotCurrent]

/-- A tick that finds no other thread. -/
theorem Rotated.stay {s s' : Scheduler} {j m : Nat} (h : s.Rotated j m s') (hInv : s'.Inv)
    (hNext : s'.nextReady = none) : s.Rotated j (m + 1) s' := by
  have hCurrent := live_next hInv h.running (h.live ▸ h.current)
  rw [hNext, Option.getD_none, h.live, Nat.mod_add_mod] at hCurrent
  exact { h with current := hCurrent }

end Scheduler

namespace Kernel

def isTick : Event → Bool
  | .tick => true
  | _ => false

/-- Ticks, and instructions of the running threads between them. -/
def TicksOnly (es : List Event) : Prop :=
  ∀ e ∈ es, e = .tick ∨ ∃ cpu mem, e = .run cpu mem

theorem ticks_rotate {s : Scheduler} {k k' : Kernel} {es : List Event} {j m : Nat}
    (run : Run Step k es k') (hTicks : TicksOnly es) (hInv : k.sched.Inv)
    (h : s.Rotated j m k.sched) : s.Rotated j (m + es.countP isTick) k'.sched := by
  induction run generalizing m with
  | nil => exact h
  | @cons k k₁ k' e es step rest ih =>
    have hInv₁ := (exec_keeps hInv step).1
    have hRest : TicksOnly es := fun e he => hTicks e (.tail _ he)
    rcases hTicks e (.head _) with rfl | ⟨cpu, mem, rfl⟩
    · rw [List.countP_cons_of_pos rfl, Nat.add_comm _ 1, ← Nat.add_assoc]
      refine ih hRest hInv₁ ?_
      rcases exec_tick hInv.current_lt step with ⟨hNext, rfl⟩ | ⟨next, hNext, rfl⟩
      · exact h.stay hInv hNext
      · rw [contextSwitch_sched]
        exact h.switch hInv hNext _
    · rw [List.countP_cons_of_neg (by simp [isTick])]
      obtain rfl := Except.ok.inj step
      exact ih hRest hInv₁ h

/-- Any number of ticks return. -/
theorem ticks_return {k : Kernel} (hInv : k.sched.Inv) (m : Nat) :
    ∃ k', Run Step k (List.replicate m .tick) k' := by
  induction m generalizing k with
  | zero => exact ⟨k, .nil k⟩
  | succ m ih =>
    have hTick := tick_eq hInv.current_lt
    obtain ⟨k', run⟩ := ih (exec_keeps (e := .tick) hInv hTick).1
    exact ⟨k', .cons hTick run⟩

/-- From a state whose current thread is Running, ticks go through the Ready and Running threads in
ascending order, around and around. -/
theorem exact_round_robin {b : Boot} {es : List Event} {k : Kernel} (h : Reaches b es k)
    (hRunning : k.sched.RunningAt k.sched.current) :
    (∀ m, ∃ k', Run Step k (List.replicate m .tick) k') ∧
      ∀ ticks k', TicksOnly ticks → Run Step k ticks k' →
        let place := fun m =>
          k.sched.live[(k.sched.live.idxOf k.sched.current + m) % k.sched.live.length]?
        let m := ticks.countP isTick
        place m = some k'.sched.current ∧ k'.sched.RunningAt k'.sched.current ∧
          (∀ i ∈ k.sched.live, i ≠ k'.sched.current → k'.sched.isReady i = true) ∧
          (∀ i ∉ k.sched.live, k'.sched.threads[i]? = k.sched.threads[i]?) ∧
          ∀ old new s, k'.sched.prepareSwitch = .ok (some (old, new), s) →
            old = k'.sched.current ∧ place (m + 1) = some new ∧ s.current = new ∧ old ≠ new := by
  have hInv := h.inv
  refine ⟨ticks_return hInv, fun ticks k' hTicks run => ?_⟩
  have hInv' : k'.sched.Inv :=
    run.invariant (P := fun k => k.sched.Inv) (fun _ _ _ hs step => (exec_keeps hs step).1) hInv
  have hRotated := ticks_rotate run hTicks hInv (Scheduler.rotated_start hRunning)
  rw [Nat.zero_add] at hRotated
  refine ⟨hRotated.current, hRotated.running, fun i hi hNe => ?_, hRotated.dead,
    fun old new s hSwitch => ?_⟩
  · rw [← hRotated.live] at hi
    exact Scheduler.live_state hInv' (Scheduler.mem_live.mp hi) hNe
  · rw [Scheduler.prepareSwitch_eq hInv'.current_lt] at hSwitch
    match hNext : k'.sched.nextReady with
    | none =>
      rw [hNext] at hSwitch
      cases hSwitch
    | some next =>
      rw [hNext] at hSwitch
      cases hSwitch
      have hPlace := (hRotated.switch hInv' hNext 0).current
      exact ⟨rfl, hPlace, rfl, (Scheduler.nextReady_some hInv' hNext).1.symm⟩

/-- The demo threads and the idle thread take turns; thread 1 is Exited and is passed over. -/
theorem exact_round_robin_sample :
    ∃ k k', Reaches sampleBoot [.exitProcess 1 0] k ∧ k.sched.RunningAt k.sched.current ∧
      k.sched.live = [0, 2] ∧ Run Step k (List.replicate 3 .tick) k' ∧ k'.sched.current = 2 := by
  obtain ⟨k, hReach, hValue⟩ := evaluate_reaches sampleBoot [.exitProcess 1 0]
    (fun k => (k.sched.current, k.sched.live, k.sched.threads[k.sched.current]?.map (·.state)))
    (0, [0, 2], some .running) (by decide)
  simp only [Prod.mk.injEq, Option.map_eq_some_iff] at hValue
  obtain ⟨hCurrent, hLive, hRunning⟩ := hValue
  obtain ⟨hReturn, hPlace⟩ := exact_round_robin hReach hRunning
  obtain ⟨k', run⟩ := hReturn 3
  have hTicks : TicksOnly (List.replicate 3 .tick) := fun e he => .inl (List.eq_of_mem_replicate he)
  obtain ⟨hFirst, -⟩ := hPlace _ k' hTicks run
  rw [hLive, hCurrent] at hFirst
  exact ⟨k, k', hReach, hRunning, hLive, run, (Option.some.inj hFirst).symm⟩

end Kernel

end RixOs

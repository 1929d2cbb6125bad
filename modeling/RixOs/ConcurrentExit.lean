import RixOs.Interleaving

/-! The end of a process under preemption.  An exit that runs its first block before the creation of
the process has recorded its thread clones an empty list and marks nothing.  When every exit comes
after the creation, no thread of an exited process is left alive. -/

namespace RixOs

open ProofKit

/-- The process of an exit past its first block, and the TIDs it still has to mark. -/
def ExitCall.remaining : ExitCall → Option (UInt64 × List UInt64)
  | .start _ _ => none
  | .marking pid tids => some (pid, tids)
  | .returned pid => some (pid, [])

def Kernel.Complete (k : Kernel) (pid : UInt64) : Prop :=
  ∃ pcb, k.table.get pid = some pcb ∧ pcb.threads ≠ []

theorem Scheduler.Keeps.before {s s' : Scheduler} (h : s.Keeps s') {i : Nat}
    {t' : ThreadControlBlock} (hGet' : s'.threads[i]? = some t') (hi : i < s.threads.length) :
    ∃ t, s.threads[i]? = some t ∧ t.tid = t'.tid ∧ t.pid = t'.pid ∧
      (t.state = .exited → t'.state = .exited) := by
  have hGet := List.getElem?_eq_getElem hi
  obtain ⟨t₁, hGet₁, hTid, hPid⟩ := h.get hGet
  obtain rfl := Option.some.inj (hGet₁.symm.trans hGet')
  refine ⟨_, hGet, hTid.symm, hPid.symm, fun hExited => ?_⟩
  obtain ⟨t₂, hGet₂, hExited₂⟩ := h.exited i ⟨_, hGet, hExited⟩
  obtain rfl := Option.some.inj (hGet₂.symm.trans hGet')
  exact hExited₂

namespace System

/-- Where the creation of process `pid` and an exit of it have returned, its threads are dead. -/
def Dead (s : System) : Prop :=
  ∀ pid, .returned pid ∈ s.creates → .returned pid ∈ s.exits →
    ∀ tcb ∈ s.kernel.sched.threads, tcb.pid = pid → tcb.state = .exited

/-- An exit runs its first block only when its process exists and lists a thread. -/
def Timely (s : System) : Action → Prop
  | .exit i => ∀ pid exitCode, s.exits[i]? = some (.start pid exitCode) → s.kernel.Complete pid
  | _ => True

def TimelyStep (s : System) (a : Action) (s' : System) : Prop := s.Timely a ∧ Step s a s'

/-- An exit past its first block has every live thread of its process still to mark. -/
def Killing (s : System) : Prop :=
  ∀ (j : Nat) (c : ExitCall) (pid : UInt64) (tids : List UInt64), s.exits[j]? = some c →
    c.remaining = some (pid, tids) → s.kernel.Complete pid ∧
      ∀ (i : Nat) (tcb : ThreadControlBlock), s.kernel.sched.threads[i]? = some tcb →
        tcb.pid = pid → tcb.state = .exited ∨ tcb.tid ∈ tids

section Steps

variable {s s' : System} {a : Action}

theorem Step.complete (h : s.Inv) (step : Step s a s') {pid : UInt64}
    (hComplete : s.kernel.Complete pid) : s'.kernel.Complete pid := by
  obtain ⟨pcb, hPcb, hThreads⟩ := hComplete
  obtain ⟨pcb', hPcb', -, hPrefix⟩ := step.process h hPcb
  exact ⟨pcb', hPcb', fun hNil => hThreads (List.prefix_nil.mp (hNil ▸ hPrefix))⟩

/-- A new thread belongs to a process that lists no thread yet. -/
theorem Step.new_thread (h : s.Inv) (step : Step s a s') {i : Nat} {t' : ThreadControlBlock}
    (hGet' : s'.kernel.sched.threads[i]? = some t') (hi : s.kernel.sched.threads.length ≤ i) :
    ¬s.kernel.Complete t'.pid := by
  have hOld : s.kernel.sched.threads[i]? ≠ some t' := by
    rw [List.getElem?_eq_none hi]
    simp
  cases step.effect h.sched with
  | beginCreate | beginExit => exact absurd hGet' hOld
  | @threads _ kernel _ _ hIds =>
    have hLength := congrArg List.length hIds
    simp only [Kernel.ids, List.length_map] at hLength
    have hLt := (List.getElem?_eq_some_iff.mp hGet').1
    simp only at hLt
    omega
  | @create j c c' ptr kernel hCall hAdvance =>
    rcases h.linked.advance_sched hCall hAdvance with hSame | ⟨pid, tcb, rfl, -, hAdd⟩
    · exact absurd (hSame ▸ hGet') hOld
    · rcases Scheduler.addThread_cases (hAdd ▸ hGet') with hGet | ⟨-, rfl⟩
      · exact absurd hGet hOld
      · obtain ⟨⟨pcb, hPcb, hEmpty⟩, -, rfl, -⟩ := h.linked.call j _ hCall
        rintro ⟨pcb', hPcb', hThreads⟩
        obtain rfl := Option.some.inj (hPcb.symm.trans hPcb')
        exact hThreads hEmpty
  | @exit j c hCall =>
    rcases exit_cases c s.kernel with ⟨p, exitCode, pcb', -, -, hEq⟩ | ⟨p, tid, tids, -, hEq⟩ |
      ⟨p, hEq, -⟩ <;> simp only [hEq] at hGet'
    · exact absurd hGet' hOld
    · obtain ⟨t, ht, -⟩ := Scheduler.markExited_cases hGet'
      rw [List.getElem?_eq_none hi] at ht
      cases ht
    · exact absurd hGet' hOld

theorem Inv.lists_all (h : s.Inv) {pcb : ProcessControlBlock} {tcb : ThreadControlBlock}
    (hPcb : s.kernel.table.get tcb.pid = some pcb) (hThreads : pcb.threads ≠ [])
    (hMem : tcb ∈ s.kernel.sched.threads) : tcb.tid ∈ pcb.threads := by
  refine (h.recorded hPcb hMem).resolve_right ?_
  rintro ⟨j, hj⟩
  obtain ⟨⟨pcb', hPcb', hEmpty⟩, -⟩ := h.linked.call j _ hj
  obtain rfl := Option.some.inj (hPcb.symm.trans hPcb')
  exact hThreads hEmpty

theorem Inv.markExited_tid (h : s.Inv) {i : Nat} {t' : ThreadControlBlock} {tid : UInt64}
    (hGet' : (s.kernel.sched.markExited tid).threads[i]? = some t') (hTid : t'.tid = tid) :
    t'.state = .exited := by
  rw [Scheduler.markExited_get, Option.map_eq_some_iff] at hGet'
  obtain ⟨t, ht, rfl⟩ := hGet'
  split
  · rfl
  · rename_i hIndex
    rw [if_neg hIndex] at hTid
    subst hTid
    refine absurd (Scheduler.indexOf_eq ht fun j hj t₁ ht₁ hEq => ?_).symm hIndex
    have := h.tid_inj ht₁ ht hEq
    omega

/-- A timely step of an exit leaves the process with every live thread still to mark. -/
theorem Killing.exit (h : s.Inv) (hKilling : s.Killing) {j : Nat} {c : ExitCall}
    (hCall : s.exits[j]? = some c) (hTimely : s.Timely (.exit j)) {pid : UInt64}
    {tids : List UInt64} (hRemaining : (c.advance s.kernel).1.remaining = some (pid, tids)) :
    s.kernel.Complete pid ∧ ∀ (i : Nat) (tcb : ThreadControlBlock),
      (c.advance s.kernel).2.sched.threads[i]? = some tcb → tcb.pid = pid →
        tcb.state = .exited ∨ tcb.tid ∈ tids := by
  rcases exit_cases c s.kernel with ⟨p, exitCode, pcb, rfl, hPcb, hEq⟩ | ⟨p, tid, rest, rfl, hEq⟩ |
    ⟨p, hEq, hWhere⟩ <;> rw [hEq] at hRemaining ⊢
  · obtain ⟨rfl, rfl⟩ := Prod.mk.inj (Option.some.inj hRemaining)
    have hComplete := hTimely p exitCode hCall
    refine ⟨hComplete, fun i tcb hGet hPid => .inr ?_⟩
    obtain ⟨pcb', hPcb', hThreads⟩ := hComplete
    obtain rfl := Option.some.inj (hPcb.symm.trans hPcb')
    exact h.lists_all (hPid ▸ hPcb) hThreads (List.mem_of_getElem? hGet)
  · obtain ⟨rfl, rfl⟩ := Prod.mk.inj (Option.some.inj hRemaining)
    obtain ⟨hComplete, hAll⟩ := hKilling j _ p (tid :: rest) hCall rfl
    refine ⟨hComplete, fun i tcb hGet hPid => ?_⟩
    by_cases hTid : tcb.tid = tid
    · exact .inl (h.markExited_tid hGet hTid)
    · obtain ⟨t, ht, rfl | rfl⟩ := Scheduler.markExited_cases hGet
      · exact (hAll i _ ht hPid).imp_right fun hMem => (List.mem_cons.mp hMem).resolve_left hTid
      · exact .inl rfl
  · obtain ⟨rfl, rfl⟩ := Prod.mk.inj (Option.some.inj hRemaining)
    rcases hWhere with rfl | rfl | ⟨exitCode, rfl, hNone⟩
    · exact hKilling j _ p [] hCall rfl
    · exact hKilling j _ p [] hCall rfl
    · obtain ⟨pcb, hPcb, -⟩ := hTimely p exitCode hCall
      rw [hNone] at hPcb
      cases hPcb

theorem exits_before (hInv : s.Inv) (step : Step s a s') {j : Nat} {c : ExitCall}
    {pid : UInt64} {tids : List UInt64} (hGet : s'.exits[j]? = some c)
    (hRemaining : c.remaining = some (pid, tids)) :
    s.exits[j]? = some c ∨ ∃ c₀, a = .exit j ∧ s.exits[j]? = some c₀ ∧
      c = (c₀.advance s.kernel).1 ∧ s'.kernel = (c₀.advance s.kernel).2 := by
  cases step.effect hInv.sched with
  | beginCreate | create | threads => exact .inl hGet
  | beginExit =>
    rcases Table.snoc_cases hGet with hOld | ⟨-, rfl⟩
    · exact .inl hOld
    · cases hRemaining
  | exit hCall =>
    rcases Table.set_cases hGet with ⟨rfl, rfl⟩ | ⟨-, hOld⟩
    · exact .inr ⟨_, rfl, hCall, rfl, rfl⟩
    · exact .inl hOld

theorem TimelyStep.killing (h : s.Inv) (hKilling : s.Killing) (step : TimelyStep s a s') :
    s'.Killing := by
  obtain ⟨hTimely, step⟩ := step
  intro j c pid tids hGet hRemaining
  rcases exits_before h step hGet hRemaining with hOld | ⟨c₀, rfl, hCall, rfl, hKernel⟩
  · obtain ⟨hComplete, hAll⟩ := hKilling j c pid tids hOld hRemaining
    refine ⟨step.complete h hComplete, fun i t' hGet' hPid => ?_⟩
    by_cases hi : i < s.kernel.sched.threads.length
    · obtain ⟨t, ht, hTid, hPid', hExited⟩ := (step.inv h).2.before hGet' hi
      exact (hAll i t ht (hPid'.trans hPid)).imp hExited fun hMem => hTid ▸ hMem
    · exact absurd (hPid ▸ hComplete) (step.new_thread h hGet' (by omega))
  · obtain ⟨hComplete, hAll⟩ := hKilling.exit h hCall hTimely hRemaining
    exact ⟨step.complete h hComplete, hKernel ▸ hAll⟩

end Steps

/-- In every run from `scheduler::init` in which each exit comes after the creation of its process
has recorded the thread, no state has a live thread in a process whose creation and exit have
returned. -/
theorem timely_dead {b : Boot} {k : Kernel} {as : List Action} {s : System}
    (hInit : Kernel.init b = .ok k) (run : Run TimelyStep (initial k) as s) : s.Dead := by
  obtain ⟨-, hKilling⟩ := run.invariant (P := fun s => s.Inv ∧ s.Killing)
    (fun s a s' hs step => ⟨(step.2.inv hs.1).1, step.killing hs.1 hs.2⟩)
    ⟨initial_inv hInit, fun j c pid tids hGet => by cases hGet⟩
  intro pid _ hExit tcb hMem hPid
  obtain ⟨j, hj⟩ := List.mem_iff_getElem?.mp hExit
  obtain ⟨i, hi⟩ := List.mem_iff_getElem?.mp hMem
  exact ((hKilling j _ pid [] hj rfl).2 i tcb hi hPid).resolve_right (by simp)

def timely (s : System) : Action → Bool
  | .exit i =>
    match s.exits[i]? with
    | some (.start pid _) => (s.kernel.table.get pid).any (·.threads ≠ [])
    | _ => true
  | _ => true

theorem timely_sound {s : System} {a : Action} (h : s.timely a = true) : s.Timely a := by
  cases a with
  | exit i =>
    intro pid exitCode hCall
    simp only [timely, hCall, Option.any_eq_true, decide_eq_true_eq] at h
    exact h
  | _ => trivial

def sampleExit : List Action := [.exitProcess 1 0, .exit 0, .tick, .exit 0, .tick, .exit 0]

theorem timely_dead_sample : ∃ k s, Kernel.init Kernel.sampleBoot = .ok k ∧
    Run TimelyStep (initial k) sampleExit s ∧ s.exits = [.returned 1] ∧ s.Dead := by
  obtain ⟨k, hInit, hEval⟩ : ∃ k, Kernel.init Kernel.sampleBoot = .ok k ∧
      ((Run.execChecked (fun s a => (exec s a).toOption) timely (initial k) sampleExit).any
        fun s => decide (s.exits = [.returned 1])) = true := ⟨_, rfl, by decide⟩
  obtain ⟨s, hs, hExits⟩ := (Option.any_eq_true _ _).mp hEval
  have run : Run TimelyStep (initial k) sampleExit s :=
    (Run.execChecked_run hs).mono fun _ _ _ step =>
      ⟨timely_sound step.1, Panic.toOption_eq_some step.2⟩
  exact ⟨k, s, hInit, run, of_decide_eq_true hExits, timely_dead hInit run⟩

/-- The main thread of a new process runs, and exits the process, before the creation has recorded
its TID. -/
def earlyExit : List Action :=
  [.createProcess "p" 0x4000, .create 2 0, .create 2 0x300000, .create 2 0, .tick, .tick, .tick,
    .exitProcess 3 0, .exit 0, .exit 0, .tick, .create 2 0]

/-- After the early exit both calls have returned and the thread is Ready. -/
theorem early_exit_survives : ¬∀ b as s, Reaches b as s → s.Dead := by
  intro hClaim
  obtain ⟨s, hReach, hState⟩ := evaluate_reaches Kernel.sampleBoot earlyExit
    (fun s => (s.creates, s.exits, s.kernel.sched.threads[3]?.map fun tcb => (tcb.pid, tcb.state)))
    ([.returned 1, .returned 2, .returned 3], [.returned 3], some (3, .ready)) (by decide)
  obtain ⟨hCreates, hRest⟩ := Prod.mk.inj hState
  obtain ⟨hExits, hThread⟩ := Prod.mk.inj hRest
  obtain ⟨tcb, hTcb, hIds⟩ := Option.map_eq_some_iff.mp hThread
  obtain ⟨hPid, hReady⟩ := Prod.mk.inj hIds
  have hExited := hClaim _ _ s hReach 3 (by simp [hCreates]) (by simp [hExits]) tcb
    (List.mem_of_getElem? hTcb) hPid
  rw [hReady] at hExited
  cases hExited

end System

end RixOs

import RixOs.Scheduling

/-! The end of a process.  `exit_process` marks the threads that the process control block lists,
and `create_process` lists the thread it spawns; a thread that `spawn_thread` adds to a process is
listed nowhere.  The section on whole runs says exactly which calls leave a Zombie process with a
live thread. -/

namespace RixOs

open ProofKit

namespace Scheduler

theorem indexOf_markExited (s : Scheduler) (tid : UInt64) :
    (s.markExited tid).indexOf = s.indexOf := by
  funext tid'
  have hTids : (s.markExited tid).threads.map (·.tid) = s.threads.map (·.tid) := by
    apply List.ext_getElem?
    intro i
    rw [List.getElem?_map, List.getElem?_map, markExited_get, Option.map_map]
    congr 1
    funext tcb
    simp only [Function.comp]
    split <;> rfl
  have hIndex : ∀ s : Scheduler, s.indexOf tid' = (s.threads.map (·.tid)).findIdx (· = tid') := by
    intro s
    rw [List.findIdx_map]
    rfl
  rw [hIndex, hIndex, hTids]

/-- A list of exits marks the first thread of each TID on it, and nothing else. -/
theorem foldl_markExited_get (tids : List UInt64) (s : Scheduler) (i : Nat) :
    (tids.foldl markExited s).threads[i]? = s.threads[i]?.map fun tcb =>
      if i ∈ tids.map s.indexOf then { tcb with state := .exited } else tcb := by
  induction tids generalizing s with
  | nil => simp
  | cons tid tids ih =>
    rw [List.foldl_cons, ih, markExited_get, Option.map_map]
    simp only [indexOf_markExited, List.map_cons, List.mem_cons]
    congr 1
    funext tcb
    simp only [Function.comp]
    by_cases hHead : i = s.indexOf tid <;> by_cases hTail : i ∈ tids.map s.indexOf <;>
      simp only [hHead, hTail, if_true, if_false, or_true, true_or, or_false, ite_self]

end Scheduler

namespace Kernel

def NoLiveZombie (k : Kernel) : Prop :=
  ∀ (i : Nat) (tcb : ThreadControlBlock) (pcb : ProcessControlBlock),
    k.sched.threads[i]? = some tcb → k.table.get tcb.pid = some pcb → pcb.state = .zombie →
      tcb.state = .exited

/-- `exit_process` on the process `pcb` finds every live thread of PID `pid`: the process lists its
TID, and it is the first thread with that TID. -/
def ListsLive (k : Kernel) (pid : UInt64) (pcb : ProcessControlBlock) : Prop :=
  ∀ i tcb, k.sched.threads[i]? = some tcb → tcb.pid = pid → tcb.state ≠ .exited →
    tcb.tid ∈ pcb.threads ∧ i = k.sched.indexOf tcb.tid

/-- The calls that leave no live thread in a Zombie process: no thread is added to a Zombie, and a
process exits only when it lists its live threads. -/
def Covered (k : Kernel) : Event → Prop
  | .spawnThread pid _ _ => ∀ pcb, k.table.get pid = some pcb → pcb.state ≠ .zombie
  | .exitProcess pid _ => ∀ pcb, k.table.get pid = some pcb → k.ListsLive pid pcb
  | _ => True

section Exit

variable {k : Kernel} {pid : UInt64} {pcb : ProcessControlBlock} {exitCode : Int32}
  (hGet : k.table.get pid = some pcb)
include hGet

/-- A thread of the process that is Exited now and was not has the index of a TID on the list. -/
theorem listsLive_of_noLiveZombie (h : (k.exitProcess pid exitCode).NoLiveZombie) :
    k.ListsLive pid pcb := by
  intro i tcb hTcb hPid hLive
  rw [exitProcess_some hGet] at h
  have hZombie : (k.table.getMut pid fun pcb =>
      { pcb with state := .zombie, exitCode := some exitCode }).get tcb.pid =
      some { pcb with state := .zombie, exitCode := some exitCode } := by
    rw [ProcessTable.getMut_get, hPid, hGet]
    simp
  have hGet' := Scheduler.foldl_markExited_get pcb.threads k.sched i
  rw [hTcb] at hGet'
  by_cases hMem : i ∈ pcb.threads.map k.sched.indexOf
  · obtain ⟨tid, hTid, hIndex⟩ := List.mem_map.mp hMem
    obtain rfl := Scheduler.indexOf_tid hTcb hIndex.symm
    exact ⟨hTid, hIndex.symm⟩
  · simp only [hMem, if_false, Option.map_some] at hGet'
    exact absurd (h i tcb _ hGet' hZombie rfl) hLive

theorem noLiveZombie_of_listsLive (hk : k.NoLiveZombie) (h : k.ListsLive pid pcb) :
    (k.exitProcess pid exitCode).NoLiveZombie := by
  intro i tcb' pcb' hTcb' hPcb' hZombie
  rw [exitProcess_some hGet] at hTcb' hPcb'
  rw [Scheduler.foldl_markExited_get, Option.map_eq_some_iff] at hTcb'
  obtain ⟨tcb, hTcb, rfl⟩ := hTcb'
  split
  · rfl
  · rename_i hMem
    simp only [hMem, if_false] at hPcb' ⊢
    by_contra hLive
    rw [ProcessTable.getMut_get, Option.map_eq_some_iff] at hPcb'
    obtain ⟨pcb₁, hPcb₁, rfl⟩ := hPcb'
    by_cases hPid : tcb.pid = pid
    · obtain ⟨hTid, hIndex⟩ := h i tcb hTcb hPid hLive
      exact hMem (hIndex ▸ List.mem_map_of_mem hTid)
    · simp only [hPid, if_false] at hZombie
      exact hLive (hk i tcb pcb₁ hTcb hPcb₁ hZombie)

/-- An exit keeps the law exactly when it finds every live thread of its process. -/
theorem exitProcess_noLiveZombie (hk : k.NoLiveZombie) :
    (k.exitProcess pid exitCode).NoLiveZombie ↔ k.ListsLive pid pcb :=
  ⟨listsLive_of_noLiveZombie hGet, noLiveZombie_of_listsLive hGet hk⟩

end Exit

theorem noLiveZombie_of_keeps {k k' : Kernel} (hk : k.NoLiveZombie) (hTable : k'.table = k.table)
    (hLength : k'.sched.threads.length = k.sched.threads.length)
    (hKeeps : k.sched.Keeps k'.sched) : k'.NoLiveZombie := by
  intro i tcb' pcb hTcb' hPcb hZombie
  have hi : i < k.sched.threads.length := hLength ▸ (List.getElem?_eq_some_iff.mp hTcb').1
  have hTcb := List.getElem?_eq_getElem hi
  obtain ⟨tcb'', hTcb'', -, hPid⟩ := hKeeps.get hTcb
  obtain rfl : tcb' = tcb'' := Option.some.inj (hTcb'.symm.trans hTcb'')
  rw [hTable, hPid] at hPcb
  obtain ⟨tcb₁, hTcb₁, hExited⟩ := hKeeps.exited i ⟨_, hTcb, hk i _ pcb hTcb hPcb hZombie⟩
  obtain rfl : tcb' = tcb₁ := Option.some.inj (hTcb'.symm.trans hTcb₁)
  exact hExited

theorem createProcess_noLiveZombie {k k' : Kernel} {name : String} {entryFn ptr pid : UInt64}
    (hk : k.NoLiveZombie) (h : k.createProcess name entryFn ptr = .ok (pid, k')) :
    k'.NoLiveZombie := by
  obtain ⟨k₁, hInsert, rfl⟩ := createProcess_ok h
  obtain ⟨-, -, rfl⟩ := insertProcess_ok hInsert
  intro i tcb pcb hTcb hPcb hZombie
  simp only [recordThread, spawnThread, addThread, newThread, ProcessTable.getMut_get,
    ProcessTable.insert_get, Option.map_eq_some_iff] at hPcb
  obtain ⟨pcb₀, hPcb₀, rfl⟩ := hPcb
  by_cases hPid : tcb.pid = pid
  · rw [if_pos (by simpa [newProcess] using hPid)] at hPcb₀
    cases hPcb₀
    simp [hPid, newProcess] at hZombie
  · rw [if_neg (by simpa [newProcess] using hPid)] at hPcb₀
    simp only [hPid, if_false] at hZombie
    rcases Scheduler.addThread_cases hTcb with hOld | ⟨-, rfl⟩
    · exact hk i tcb pcb₀ hOld hPcb₀ hZombie
    · exact absurd rfl hPid

/-- From a state with the law, one event keeps it exactly when it is covered. -/
theorem exec_noLiveZombie {k k' : Kernel} {e : Event} (hInv : k.sched.Inv) (hk : k.NoLiveZombie)
    (h : k.exec e = .ok k') : k'.NoLiveZombie ↔ k.Covered e := by
  have hKeeps := (exec_keeps hInv h).2
  cases e with
  | tick =>
    refine iff_of_true ?_ trivial
    rcases exec_tick hInv.current_lt h with ⟨-, rfl⟩ | ⟨next, -, rfl⟩
    · exact hk
    · exact noLiveZombie_of_keeps hk (by simp) (by simp) hKeeps
  | markThreadExited tid =>
    cases h
    exact iff_of_true (noLiveZombie_of_keeps hk rfl (by simp [markThreadExited]) hKeeps) trivial
  | run cpu mem =>
    cases h
    exact iff_of_true hk trivial
  | createProcess name entryFn ptr =>
    refine iff_of_true ?_ trivial
    obtain ⟨pid, hCreate⟩ := exec_createProcess h
    exact createProcess_noLiveZombie hk hCreate
  | exitProcess pid exitCode =>
    cases h
    cases hGet : k.table.get pid with
    | none =>
      rw [exitProcess_none hGet]
      exact iff_of_true hk fun pcb hPcb => by rw [hGet] at hPcb; cases hPcb
    | some pcb =>
      rw [exitProcess_noLiveZombie hGet hk]
      exact ⟨fun hLists pcb' hPcb' => by rw [hGet] at hPcb'; cases hPcb'; exact hLists,
        fun hCovered => hCovered pcb hGet⟩
  | spawnThread pid entryFn ptr =>
    cases h
    constructor
    · intro hk' pcb hPcb hZombie
      cases hk' _ _ pcb (Scheduler.addThread_get_new _ _) hPcb hZombie
    · intro hCovered i tcb pcb hTcb hPcb hZombie
      rcases Scheduler.addThread_cases hTcb with hOld | ⟨-, rfl⟩
      · exact hk i tcb pcb hOld hPcb hZombie
      · exact absurd hZombie (hCovered pcb hPcb)

theorem init_noLiveZombie {b : Boot} {k : Kernel} (h : init b = .ok k) : k.NoLiveZombie := by
  obtain ⟨k₀, hIdle, run⟩ := init_ok h
  have hInv := initIdle_inv hIdle
  have hStart : k₀.NoLiveZombie := by
    cases hIdle
    intro i tcb pcb _ hPcb hZombie
    rw [ProcessTable.insert_get] at hPcb
    split at hPcb <;> cases hPcb
    cases hZombie
  cases run with
  | cons first rest =>
    cases rest with
    | cons second rest =>
      cases rest
      exact (exec_noLiveZombie (exec_keeps hInv first).1
        ((exec_noLiveZombie hInv hStart first).mpr trivial) second).mpr trivial

def SpawnsExisting (b : Boot) (es : List Event) : Prop :=
  ∀ first pid entryFn ptr last m, es = first ++ .spawnThread pid entryFn ptr :: last →
    Reaches b first m → m.table.get pid ≠ none

end Kernel

end RixOs

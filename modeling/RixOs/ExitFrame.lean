import RixOs.Interleaving
import RixOs.ProcessExit

/-! What `exit_process` changes.  In a run of complete calls without `spawn_thread` every creation
has returned, so a process lists exactly the TIDs of its threads, no TID occurs twice, and the exit
of a process reaches the threads of that process and nothing else. -/

namespace RixOs

open ProofKit

namespace Kernel

/-- The tables are linked, and no creation is in progress. -/
def Settled (k : Kernel) : Prop :=
  ∃ creates : List CreateCall, (∀ c ∈ creates, ∃ pid, c = .returned pid) ∧
    System.Inv ⟨k, creates, []⟩

def isSpawn : Event → Bool
  | .spawnThread _ _ _ => true
  | _ => false

theorem init_settled {b : Boot} {k : Kernel} (h : init b = .ok k) : k.Settled := by
  have hInv := System.initial_inv h
  refine ⟨[.returned 1, .returned 2], fun c hc => ?_, hInv⟩
  simp only [List.mem_cons, List.not_mem_nil, or_false] at hc
  rcases hc with rfl | rfl <;> exact ⟨_, rfl⟩

theorem exec_settled {k k' : Kernel} {e : Event} (h : k.Settled) (hSpawn : isSpawn e = false)
    (step : Step k e k') : k'.Settled := by
  obtain ⟨creates, hReturned, hInv⟩ := h
  cases e with
  | spawnThread => cases hSpawn
  | tick =>
    have hStep : System.Step ⟨k, creates, []⟩ .tick ⟨k', creates, []⟩ := by
      rw [System.Step, System.exec, show k.tick = .ok k' from step]
      rfl
    exact ⟨creates, hReturned, (hStep.inv hInv).1⟩
  | markThreadExited tid =>
    obtain rfl := Except.ok.inj step
    have hStep : System.Step ⟨k, creates, []⟩ (.markThreadExited tid) ⟨_, creates, []⟩ := rfl
    exact ⟨creates, hReturned, (hStep.inv hInv).1⟩
  | createProcess name entryFn ptr =>
    obtain ⟨pid, hCreate⟩ := exec_createProcess step
    refine ⟨creates ++ [.returned pid], fun c hc => ?_, (System.create_inv hInv hCreate).1⟩
    rcases List.mem_append.mp hc with hc | hc
    · exact hReturned c hc
    · exact ⟨pid, List.mem_singleton.mp hc⟩
  | exitProcess pid exitCode =>
    obtain rfl := Except.ok.inj step
    obtain ⟨n, run⟩ := System.exit_alone k pid exitCode creates []
    have hEnd := run.invariant (P := System.Inv) (fun _ _ _ hs step => (step.inv hs).1) hInv
    exact ⟨creates, hReturned, hEnd.sched, hEnd.linked⟩
  | run cpu mem =>
    obtain rfl := Except.ok.inj step
    have hStep : System.Step ⟨k, creates, []⟩ (.run cpu mem) ⟨_, creates, []⟩ := rfl
    exact ⟨creates, hReturned, (hStep.inv hInv).1⟩

theorem Reaches.settled {b : Boot} {es : List Event} {k : Kernel} (h : Reaches b es k)
    (hSpawn : ∀ e ∈ es, isSpawn e = false) : k.Settled := by
  obtain ⟨k₀, hInit, run⟩ := h
  have hStart := init_settled hInit
  clear hInit
  induction run with
  | nil => exact hStart
  | cons step _ ih =>
    exact ih (fun e he => hSpawn e (.tail _ he)) (exec_settled hStart (hSpawn _ (.head _)) step)

/-- The TIDs that a process lists are those of the threads with its PID, and each leads to its
thread. -/
theorem Settled.listed {k : Kernel} (h : k.Settled) {pid : UInt64} {pcb : ProcessControlBlock}
    (hPcb : k.table.get pid = some pcb) {i : Nat} {tcb : ThreadControlBlock}
    (hTcb : k.sched.threads[i]? = some tcb) :
    i ∈ pcb.threads.map k.sched.indexOf ↔ tcb.pid = pid := by
  obtain ⟨creates, hReturned, hInv⟩ := h
  have hIndex : k.sched.indexOf tcb.tid = i := by
    refine Scheduler.indexOf_eq hTcb fun j hj t ht hTid => ?_
    have hSame := hInv.tid_inj ht hTcb hTid
    omega
  have hMem : tcb ∈ k.sched.threads := List.mem_of_getElem? hTcb
  constructor
  · intro hListed
    obtain ⟨tid, hTid, hEq⟩ := List.mem_map.mp hListed
    obtain rfl := Scheduler.indexOf_tid hTcb hEq.symm
    obtain ⟨t, ht, hTidEq, hPid⟩ :=
      System.mem_ids.mp ((hInv.linked.listed pid pcb hPcb).2 _ hTid)
    obtain ⟨j, hj⟩ := List.mem_iff_getElem?.mp ht
    obtain rfl := hInv.tid_inj hj hTcb hTidEq
    obtain rfl := Option.some.inj (hj.symm.trans hTcb)
    exact hPid
  · rintro rfl
    obtain ⟨pcb', hPcb', hWhere⟩ :=
      hInv.linked.recorded _ _ (System.mem_ids.mpr ⟨tcb, hMem, rfl, rfl⟩)
    obtain rfl := Option.some.inj (hPcb.symm.trans hPcb')
    rcases hWhere with hTid | ⟨j, hj⟩
    · exact List.mem_map.mpr ⟨tcb.tid, hTid, hIndex⟩
    · obtain ⟨p, hEq⟩ := hReturned _ (List.mem_of_getElem? hj)
      cases hEq

theorem Settled.exit_sched {k : Kernel} (h : k.Settled) {pid : UInt64} {pcb : ProcessControlBlock}
    (hPcb : k.table.get pid = some pcb) :
    pcb.threads.foldl Scheduler.markExited k.sched =
      { k.sched with
        threads := k.sched.threads.map fun tcb =>
          if tcb.pid = pid then { tcb with state := .exited } else tcb } := by
  have hThreads : (pcb.threads.foldl Scheduler.markExited k.sched).threads =
      k.sched.threads.map fun tcb =>
        if tcb.pid = pid then { tcb with state := .exited } else tcb := by
    apply List.ext_getElem?
    intro i
    rw [Scheduler.foldl_markExited_get, List.getElem?_map]
    match hTcb : k.sched.threads[i]? with
    | none => rfl
    | some tcb => simp only [Option.map_some, h.listed hPcb hTcb]
  exact congrArg₂ Scheduler.mk hThreads (foldl_markExited_current pcb.threads k.sched)

/-- `exit_process` on a process that does not exist changes nothing.  On a process that exists it
makes the process a Zombie with the exit code and exactly the threads with its PID Exited, and it
changes nothing else. -/
theorem exitProcess_frame {b : Boot} {es : List Event} {k : Kernel} (h : Reaches b es k)
    (hSpawn : ∀ e ∈ es, isSpawn e = false) (pid : UInt64) (exitCode : Int32) :
    (k.table.get pid = none → k.exitProcess pid exitCode = k) ∧
      ∀ pcb, k.table.get pid = some pcb → ∃ table,
        k.exitProcess pid exitCode =
          { k with
            table
            sched := { k.sched with
              threads := k.sched.threads.map fun tcb =>
                if tcb.pid = pid then { tcb with state := .exited } else tcb } } ∧
        table.get pid = some { pcb with state := .zombie, exitCode := some exitCode } ∧
        (∀ p ≠ pid, table.get p = k.table.get p) ∧ table.nextPid = k.table.nextPid := by
  have hSettled := h.settled hSpawn
  refine ⟨fun hNone => exitProcess_none hNone exitCode, fun pcb hPcb =>
    ⟨k.table.getMut pid fun pcb => { pcb with state := .zombie, exitCode := some exitCode }, ?_, ?_,
      fun p hp => ?_, rfl⟩⟩
  · rw [exitProcess_some hPcb, hSettled.exit_sched hPcb]
  · rw [ProcessTable.getMut_get, hPcb]
    simp
  · rw [ProcessTable.getMut_get]
    simp [hp]

/-- Process 3 exits after its creation and a tick: its thread is Exited, the others are not. -/
theorem exitProcess_frame_sample :
    ∃ k pcb, Reaches sampleBoot [.createProcess "p" 0x4000 0x300000, .tick] k ∧
      k.table.get 3 = some pcb ∧ pcb.threads = [3] ∧
      (k.exitProcess 3 7).sched.threads.map (·.state) = [.ready, .running, .ready, .exited] := by
  obtain ⟨k, hReach, hValue⟩ := evaluate_reaches sampleBoot
    [.createProcess "p" 0x4000 0x300000, .tick]
    (fun k => ((k.table.get 3).map (·.threads),
      k.sched.threads.map fun tcb => (tcb.pid, tcb.state)))
    (some [3], [(0, .ready), (1, .running), (2, .ready), (3, .ready)]) (by decide)
  obtain ⟨hTable, hStates⟩ := Prod.mk.inj hValue
  obtain ⟨pcb, hPcb, hThreads⟩ := Option.map_eq_some_iff.mp hTable
  obtain ⟨-, hFrame⟩ := exitProcess_frame hReach (by decide) 3 7
  obtain ⟨table, hExit, -⟩ := hFrame pcb hPcb
  refine ⟨k, pcb, hReach, hPcb, hThreads, ?_⟩
  have hMap : (k.sched.threads.map fun tcb =>
      if tcb.pid = 3 then { tcb with state := .exited } else tcb).map (·.state) =
      (k.sched.threads.map fun tcb => (tcb.pid, tcb.state)).map fun p =>
        if p.1 = 3 then .exited else p.2 := by
    rw [List.map_map, List.map_map]
    congr 1
    funext tcb
    simp only [Function.comp]
    split <;> rfl
  rw [hExit, hMap, hStates]
  rfl

end Kernel

end RixOs

import Mathlib.Data.Nat.Notation
import Mathlib.Logic.Function.Basic
import RixOs.Scheduler

/-! The process table of `process.rs`: process control blocks under their PIDs, and the PID
allocator.  A `BTreeMap` is a finite map, which is modelled by its lookup function. -/

namespace RixOs

inductive ProcessState
  | running
  | zombie
  | exited
  deriving DecidableEq, Repr

structure ProcessControlBlock where
  pid : UInt64
  name : String
  state : ProcessState
  parentPid : Option UInt64
  threads : List UInt64
  exitCode : Option Int32
  pageTable : UInt64
  deriving DecidableEq

structure ProcessTable where
  processes : UInt64 → Option ProcessControlBlock
  nextPid : UInt64

namespace ProcessTable

def new : ProcessTable := ⟨fun _ => none, 0⟩

/-- `self.next_pid += 1` panics when the counter is at its largest value. -/
def allocPid (table : ProcessTable) : Except Panic (UInt64 × ProcessTable) :=
  if table.nextPid.toNat + 1 < 2 ^ 64 then
    .ok (table.nextPid, { table with nextPid := table.nextPid + 1 })
  else .error .arithmeticOverflow

def insert (table : ProcessTable) (pcb : ProcessControlBlock) : ProcessTable :=
  { table with processes := Function.update table.processes pcb.pid (some pcb) }

def get (table : ProcessTable) (pid : UInt64) : Option ProcessControlBlock := table.processes pid

/-- `if let Some(pcb) = table.get_mut(pid)`, with `f` what its body does to the block. -/
def getMut (table : ProcessTable) (pid : UInt64) (f : ProcessControlBlock → ProcessControlBlock) :
    ProcessTable :=
  { table with processes := Function.update table.processes pid ((table.processes pid).map f) }

theorem insert_get (table : ProcessTable) (pcb : ProcessControlBlock) (pid : UInt64) :
    (table.insert pcb).get pid = if pid = pcb.pid then some pcb else table.get pid := by
  simp [insert, get, Function.update_apply]

theorem getMut_get (table : ProcessTable) (pid p : UInt64)
    (f : ProcessControlBlock → ProcessControlBlock) :
    (table.getMut pid f).get p = (table.get p).map fun pcb => if p = pid then f pcb else pcb := by
  by_cases h : p = pid
  · subst h
    simp [getMut, get]
  · simp [getMut, get, h]

@[simp] theorem insert_nextPid (table : ProcessTable) (pcb : ProcessControlBlock) :
    (table.insert pcb).nextPid = table.nextPid := rfl

@[simp] theorem getMut_nextPid (table : ProcessTable) (pid : UInt64)
    (f : ProcessControlBlock → ProcessControlBlock) :
    (table.getMut pid f).nextPid = table.nextPid := rfl

end ProcessTable

end RixOs

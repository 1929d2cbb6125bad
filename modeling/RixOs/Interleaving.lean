import RixOs.Scheduling

/-! Calls of `create_process` and `exit_process` under preemption.  A call is cut at the points
where it holds no lock, and the pieces of any number of calls run in any order, between ticks and
calls of `mark_thread_exited`.  The process table, the thread table and the counter of TIDs agree
at every point of every interleaving. -/

namespace RixOs

open ProofKit

/-- How far a call of `create_process` has come. -/
inductive CreateCall
  | start (name : String) (entryFn : UInt64)
  | inserted (pid entryFn : UInt64)
  | allocated (pid : UInt64) (tcb : ThreadControlBlock)
  | added (pid tid : UInt64)
  | returned (pid : UInt64)
  deriving DecidableEq

/-- How far a call of `exit_process` has come.  The TIDs are those still to be marked. -/
inductive ExitCall
  | start (pid : UInt64) (exitCode : Int32)
  | marking (pid : UInt64) (tids : List UInt64)
  | returned (pid : UInt64)
  deriving DecidableEq

/-- The kernel and the calls that have been made, each as far as it has come. -/
structure System where
  kernel : Kernel
  creates : List CreateCall
  exits : List ExitCall

inductive Action
  | createProcess (name : String) (entryFn : UInt64)
  | exitProcess (pid : UInt64) (exitCode : Int32)
  /-- Creation `i` runs to its next preemption point; a stack it allocates is placed at `ptr`. -/
  | create (i : Nat) (ptr : UInt64)
  | exit (i : Nat)
  | markThreadExited (tid : UInt64)
  | tick
  | run (cpu : Cpu) (mem : Memory)

def CreateCall.advance (k : Kernel) (ptr : UInt64) : CreateCall → Except Panic (CreateCall × Kernel)
  | .start name entryFn => do
    let (pid, k) ← k.insertProcess name
    return (.inserted pid entryFn, k)
  | .inserted pid entryFn =>
    let (tcb, k) := k.newThread pid entryFn ptr
    return (.allocated pid tcb, k)
  | .allocated pid tcb => return (.added pid tcb.tid, k.addThread tcb)
  | .added pid tid => return (.returned pid, k.recordThread pid tid)
  | .returned pid => return (.returned pid, k)

def ExitCall.advance (k : Kernel) : ExitCall → ExitCall × Kernel
  | .start pid exitCode =>
    match k.markZombie pid exitCode with
    | (some tids, k) => (.marking pid tids, k)
    | (none, k) => (.returned pid, k)
  | .marking pid (tid :: tids) => (.marking pid tids, k.markThreadExited tid)
  | .marking pid [] => (.returned pid, k)
  | .returned pid => (.returned pid, k)

namespace System

def exec (s : System) : Action → Except Panic System
  | .createProcess name entryFn => .ok { s with creates := s.creates ++ [.start name entryFn] }
  | .exitProcess pid exitCode => .ok { s with exits := s.exits ++ [.start pid exitCode] }
  | .create i ptr =>
    match s.creates[i]? with
    | none => .ok s
    | some call => do
      let (call, kernel) ← call.advance s.kernel ptr
      return { s with kernel, creates := s.creates.set i call }
  | .exit i =>
    match s.exits[i]? with
    | none => .ok s
    | some call =>
      let (call, kernel) := call.advance s.kernel
      .ok { s with kernel, exits := s.exits.set i call }
  | .markThreadExited tid => .ok { s with kernel := s.kernel.markThreadExited tid }
  | .tick => do return { s with kernel := ← s.kernel.tick }
  | .run cpu mem => .ok { s with kernel := { s.kernel with cpu, mem } }

def Step (s : System) (a : Action) (s' : System) : Prop := s.exec a = .ok s'

/-- The system after `scheduler::init`: its two creations have returned PIDs 1 and 2. -/
def initial (k : Kernel) : System := ⟨k, [.returned 1, .returned 2], []⟩

def Reaches (b : Boot) (as : List Action) (s : System) : Prop :=
  ∃ k, Kernel.init b = .ok k ∧ Run Step (initial k) as s

/-- A creation that no other call interrupts is `create_process`. -/
theorem create_alone {k k' : Kernel} {name : String} {entryFn ptr pid : UInt64}
    (h : k.createProcess name entryFn ptr = .ok (pid, k')) (creates : List CreateCall)
    (exits : List ExitCall) :
    Run Step ⟨k, creates, exits⟩
      (.createProcess name entryFn :: List.replicate 4 (.create creates.length ptr))
      ⟨k', creates ++ [.returned pid], exits⟩ := by
  obtain ⟨k₁, hInsert, rfl⟩ := Kernel.createProcess_ok h
  have hStep : ∀ (k k' : Kernel) (c c' : CreateCall), c.advance k ptr = .ok (c', k') →
      Step ⟨k, creates ++ [c], exits⟩ (.create creates.length ptr)
        ⟨k', creates ++ [c'], exits⟩ := by
    intro k k' c c' hAdvance
    simp [Step, exec, hAdvance, Panic.bind_ok, pure, Except.pure]
  refine .cons rfl (.cons (hStep _ _ _ (.inserted pid entryFn) ?_) (.cons (hStep _ _ _ _ rfl)
    (.cons (hStep _ _ _ _ rfl) (.single (hStep _ _ _ _ rfl)))))
  rw [CreateCall.advance, hInsert]
  rfl

/-- An exit that no other call interrupts is `exit_process`. -/
theorem exit_alone (k : Kernel) (pid : UInt64) (exitCode : Int32) (creates : List CreateCall)
    (exits : List ExitCall) :
    ∃ n, Run Step ⟨k, creates, exits⟩
      (.exitProcess pid exitCode :: List.replicate n (.exit exits.length))
      ⟨k.exitProcess pid exitCode, creates, exits ++ [.returned pid]⟩ := by
  have hStep : ∀ (k : Kernel) (c : ExitCall), Step ⟨k, creates, exits ++ [c]⟩ (.exit exits.length)
      ⟨(c.advance k).2, creates, exits ++ [(c.advance k).1]⟩ := by
    intro k c
    simp [Step, exec]
  have hMark : ∀ (tids : List UInt64) (k : Kernel),
      Run Step ⟨k, creates, exits ++ [.marking pid tids]⟩
        (List.replicate (tids.length + 1) (.exit exits.length))
        ⟨tids.foldl Kernel.markThreadExited k, creates, exits ++ [.returned pid]⟩ := by
    intro tids
    induction tids with
    | nil => exact fun k => .single (hStep k (.marking pid []))
    | cons tid tids ih => exact fun k => .cons (hStep k (.marking pid (tid :: tids))) (ih _)
  have hFirst := hStep k (.start pid exitCode)
  cases hGet : k.table.get pid with
  | none =>
    refine ⟨1, .cons rfl (.single ?_)⟩
    simpa only [Kernel.exitProcess, ExitCall.advance, Kernel.markZombie, hGet] using hFirst
  | some pcb =>
    refine ⟨pcb.threads.length + 2, .cons rfl (.cons hFirst ?_)⟩
    simp only [Kernel.exitProcess, ExitCall.advance, Kernel.markZombie, hGet]
    exact hMark pcb.threads _

end System

/-! ### The process table -/

namespace ProcessTable

/-- A process is stored under its own PID, which the counter has passed; process 0 exists and is
the parent of all others; a process has an exit code exactly when it is a Zombie. -/
structure WellFormed (table : ProcessTable) : Prop where
  key : ∀ pid pcb, table.get pid = some pcb → pcb.pid = pid ∧ pid.toNat < table.nextPid.toNat
  root : ∃ pcb, table.get 0 = some pcb
  parent : ∀ pid pcb, table.get pid = some pcb → pcb.parentPid = if pid = 0 then none else some 0
  exitCode : ∀ pid pcb, table.get pid = some pcb → (pcb.exitCode.isSome ↔ pcb.state = .zombie)

namespace WellFormed

variable {table : ProcessTable}

theorem nextPid_free (h : table.WellFormed) : table.get table.nextPid = none := by
  cases hGet : table.get table.nextPid with
  | none => rfl
  | some pcb => exact absurd (h.key _ _ hGet).2 (Nat.lt_irrefl _)

theorem insert_get (h : table.WellFormed) (name : String) (pageTable pid : UInt64)
    (pcb : ProcessControlBlock) :
    (ProcessTable.insert ⟨table.processes, table.nextPid + 1⟩
      (Kernel.newProcess table.nextPid name pageTable)).get pid = some pcb ↔
      pid = table.nextPid ∧ pcb = Kernel.newProcess table.nextPid name pageTable ∨
        table.get pid = some pcb := by
  rw [ProcessTable.insert_get]
  by_cases hPid : pid = table.nextPid
  · subst hPid
    simp [Kernel.newProcess, h.nextPid_free, eq_comm]
  · simp [Kernel.newProcess, hPid, ProcessTable.get]

theorem insert (h : table.WellFormed) (name : String) (pageTable : UInt64)
    (hRoom : table.nextPid.toNat + 1 < 2 ^ 64) :
    (ProcessTable.insert ⟨table.processes, table.nextPid + 1⟩
      (Kernel.newProcess table.nextPid name pageTable)).WellFormed := by
  have hNext : (table.nextPid + 1).toNat = table.nextPid.toNat + 1 := by
    rw [UInt64.toNat_add, Nat.mod_eq_of_lt (by simpa using hRoom)]
    rfl
  constructor
  · intro pid pcb hPcb
    simp only [insert_nextPid, hNext]
    rcases (h.insert_get name pageTable pid pcb).mp hPcb with ⟨rfl, rfl⟩ | hPcb
    · exact ⟨rfl, by omega⟩
    · obtain ⟨hKey, hLt⟩ := h.key pid pcb hPcb
      exact ⟨hKey, by omega⟩
  · obtain ⟨pcb, hPcb⟩ := h.root
    exact ⟨pcb, (h.insert_get name pageTable 0 pcb).mpr (.inr hPcb)⟩
  · intro pid pcb hPcb
    rcases (h.insert_get name pageTable pid pcb).mp hPcb with ⟨rfl, rfl⟩ | hPcb
    · rfl
    · exact h.parent pid pcb hPcb
  · intro pid pcb hPcb
    rcases (h.insert_get name pageTable pid pcb).mp hPcb with ⟨rfl, rfl⟩ | hPcb
    · simp [Kernel.newProcess]
    · exact h.exitCode pid pcb hPcb

/-- A change of one process that keeps its PID and its parent and sets the exit code only with the
state. -/
theorem getMut (h : table.WellFormed) (pid : UInt64)
    {f : ProcessControlBlock → ProcessControlBlock}
    (hf : ∀ pcb, (f pcb).pid = pcb.pid ∧ (f pcb).parentPid = pcb.parentPid)
    (hExit : ∀ pcb, (pcb.exitCode.isSome ↔ pcb.state = .zombie) →
      ((f pcb).exitCode.isSome ↔ (f pcb).state = .zombie)) : (table.getMut pid f).WellFormed := by
  have hGet : ∀ p pcb', (table.getMut pid f).get p = some pcb' →
      ∃ pcb, table.get p = some pcb ∧ (pcb' = pcb ∨ pcb' = f pcb) := by
    intro p pcb' hp
    rw [getMut_get, Option.map_eq_some_iff] at hp
    obtain ⟨pcb, hPcb, rfl⟩ := hp
    refine ⟨pcb, hPcb, ?_⟩
    split
    · exact .inr rfl
    · exact .inl rfl
  constructor
  · intro p pcb' hp
    obtain ⟨pcb, hPcb, rfl | rfl⟩ := hGet p pcb' hp
    · exact h.key p _ hPcb
    · exact (hf pcb).1 ▸ h.key p pcb hPcb
  · obtain ⟨pcb, hPcb⟩ := h.root
    rw [getMut_get, hPcb]
    exact ⟨_, rfl⟩
  · intro p pcb' hp
    obtain ⟨pcb, hPcb, rfl | rfl⟩ := hGet p pcb' hp
    · exact h.parent p _ hPcb
    · exact (hf pcb).2.trans (h.parent p pcb hPcb)
  · intro p pcb' hp
    obtain ⟨pcb, hPcb, rfl | rfl⟩ := hGet p pcb' hp
    · exact h.exitCode p _ hPcb
    · exact hExit pcb (h.exitCode p pcb hPcb)

end WellFormed

end ProcessTable

/-! ### The link between the tables -/

namespace CreateCall

def owner : CreateCall → Option UInt64
  | .start _ _ => none
  | .inserted pid _ | .allocated pid _ | .added pid _ | .returned pid => some pid

def isInserted : CreateCall → Bool
  | .inserted _ _ => true
  | _ => false

/-- What holds for a creation in progress, with `ids` the TIDs and PIDs of the thread table. -/
def Linked (ids : List (UInt64 × UInt64)) (table : ProcessTable) (nextTid : UInt64) :
    CreateCall → Prop
  | .start _ _ => True
  | .inserted pid _ =>
    (∃ pcb, table.get pid = some pcb ∧ pcb.threads = []) ∧ ∀ tid, (tid, pid) ∉ ids
  | .allocated pid tcb =>
    (∃ pcb, table.get pid = some pcb ∧ pcb.threads = []) ∧ (∀ tid, (tid, pid) ∉ ids) ∧
      tcb.pid = pid ∧ tcb.state = .ready ∧ tcb.tid.toNat < nextTid.toNat ∧
      ∀ p, (tcb.tid, p) ∉ ids
  | .added pid tid =>
    (∃ pcb, table.get pid = some pcb ∧ pcb.threads = []) ∧ (tid, pid) ∈ ids
  | .returned pid => ∃ pcb, table.get pid = some pcb

theorem Linked.mono {ids ids' : List (UInt64 × UInt64)} {table table' : ProcessTable}
    {nextTid nextTid' : UInt64} {c : CreateCall} (h : c.Linked ids table nextTid)
    (hTable : ∀ pid pcb, c.owner = some pid → table.get pid = some pcb →
      ∃ pcb', table'.get pid = some pcb' ∧ pcb'.threads = pcb.threads)
    (hIds : ∀ x ∈ ids, x ∈ ids')
    (hPids : ∀ tid pid, c.owner = some pid → (tid, pid) ∈ ids' → (tid, pid) ∈ ids)
    (hTids : ∀ p pid tcb, c = .allocated pid tcb → (tcb.tid, p) ∈ ids' → (tcb.tid, p) ∈ ids)
    (hNext : nextTid.toNat ≤ nextTid'.toNat) : c.Linked ids' table' nextTid' := by
  have hEmpty : ∀ pid, c.owner = some pid → (∃ pcb, table.get pid = some pcb ∧ pcb.threads = []) →
      ∃ pcb, table'.get pid = some pcb ∧ pcb.threads = [] := by
    rintro pid hOwner ⟨pcb, hGet, hThreads⟩
    obtain ⟨pcb', hGet', hSame⟩ := hTable pid pcb hOwner hGet
    exact ⟨pcb', hGet', hSame.trans hThreads⟩
  cases c with
  | start => trivial
  | inserted pid entryFn =>
    exact ⟨hEmpty pid rfl h.1, fun tid hMem => h.2 tid (hPids tid pid rfl hMem)⟩
  | allocated pid tcb =>
    obtain ⟨hPcb, hNone, hPid, hReady, hLt, hTid⟩ := h
    exact ⟨hEmpty pid rfl hPcb, fun tid hMem => hNone tid (hPids tid pid rfl hMem), hPid, hReady,
      by omega, fun p hMem => hTid p (hTids p pid tcb rfl hMem)⟩
  | added pid tid => exact ⟨hEmpty pid rfl h.1, hIds _ h.2⟩
  | returned pid =>
    obtain ⟨pcb, hGet⟩ := h
    obtain ⟨pcb', hGet', -⟩ := hTable pid pcb rfl hGet
    exact ⟨pcb', hGet'⟩

end CreateCall

/-- The process table, the TIDs and PIDs `ids` of the thread table, the counter of TIDs and the
creations agree. -/
structure Linked (ids : List (UInt64 × UInt64)) (table : ProcessTable) (nextTid : UInt64)
    (creates : List CreateCall) : Prop where
  processes : table.WellFormed
  idle : ids[0]? = some (0, 0)
  tids : (ids.map Prod.fst).Nodup
  tid_lt : ∀ tid pid, (tid, pid) ∈ ids → tid.toNat < nextTid.toNat
  recorded : ∀ tid pid, (tid, pid) ∈ ids → ∃ pcb, table.get pid = some pcb ∧
    (tid ∈ pcb.threads ∨ ∃ j : Nat, creates[j]? = some (.added pid tid))
  listed : ∀ pid pcb, table.get pid = some pcb →
    pcb.threads.Nodup ∧ ∀ tid ∈ pcb.threads, (tid, pid) ∈ ids
  call : ∀ (j : Nat) (c : CreateCall), creates[j]? = some c → c.Linked ids table nextTid
  owners : ∀ (i j : Nat) (c c' : CreateCall) (pid : UInt64), creates[i]? = some c →
    creates[j]? = some c' → c.owner = some pid → c'.owner = some pid → i = j
  fresh : ∀ (i j : Nat) (p q : UInt64) (tcb tcb' : ThreadControlBlock),
    creates[i]? = some (.allocated p tcb) → creates[j]? = some (.allocated q tcb') →
    tcb.tid = tcb'.tid → i = j
  count : nextTid.toNat + creates.countP CreateCall.isInserted = table.nextPid.toNat

namespace Linked

variable {ids : List (UInt64 × UInt64)} {table : ProcessTable} {nextTid : UInt64}
  {creates : List CreateCall}

theorem owner_get (h : Linked ids table nextTid creates) {j : Nat} {c : CreateCall} {pid : UInt64}
    (hGet : creates[j]? = some c) (hOwner : c.owner = some pid) :
    ∃ pcb, table.get pid = some pcb := by
  have hCall := h.call j c hGet
  cases c <;> cases hOwner
  case inserted | added => exact ⟨_, hCall.1.choose_spec.1⟩
  case allocated => exact ⟨_, hCall.1.choose_spec.1⟩
  case returned => exact hCall

theorem begin (h : Linked ids table nextTid creates) (name : String) (entryFn : UInt64) :
    Linked ids table nextTid (creates ++ [.start name entryFn]) := by
  refine { h with
    recorded := fun tid pid hMem => ?_, call := fun j c hGet => ?_,
    owners := fun i j c c' pid hi hj hOwner hOwner' => ?_,
    fresh := fun i j p q tcb tcb' hi hj hTid => ?_,
    count := ?_ }
  · obtain ⟨pcb, hPcb, hTid⟩ := h.recorded tid pid hMem
    exact ⟨pcb, hPcb, hTid.imp_right fun ⟨j, hj⟩ => ⟨j, Table.snoc_old hj⟩⟩
  · rcases Table.snoc_cases hGet with hOld | ⟨-, rfl⟩
    · exact h.call j c hOld
    · trivial
  · rcases Table.snoc_cases hi with hi | ⟨-, rfl⟩
    · rcases Table.snoc_cases hj with hj | ⟨-, rfl⟩
      · exact h.owners i j c c' pid hi hj hOwner hOwner'
      · cases hOwner'
    · cases hOwner
  · rcases Table.snoc_cases hi with hi | ⟨-, hEq⟩
    · rcases Table.snoc_cases hj with hj | ⟨-, hEq⟩
      · exact h.fresh i j p q tcb tcb' hi hj hTid
      · cases hEq
    · cases hEq
  · simpa [CreateCall.isInserted] using h.count

/-- A thread that waits to be recorded still waits after a step of another creation. -/
theorem added_set {i : Nat} {c c' : CreateCall} (hCall : creates[i]? = some c) {pid tid : UInt64}
    (hNe : c ≠ .added pid tid) (hAdded : ∃ j : Nat, creates[j]? = some (.added pid tid)) :
    ∃ j : Nat, (creates.set i c')[j]? = some (.added pid tid) := by
  obtain ⟨j, hj⟩ := hAdded
  refine ⟨j, ?_⟩
  rw [List.getElem?_set_ne fun hEq => hNe ?_]
  · exact hj
  · subst hEq
    exact Option.some.inj (hCall.symm.trans hj)

theorem call_set {i : Nat} {c' : CreateCall} (h : Linked ids table nextTid creates)
    {table' : ProcessTable} {ids' : List (UInt64 × UInt64)} {nextTid' : UInt64}
    (hSelf : c'.Linked ids' table' nextTid')
    (hOther : ∀ (j : Nat) (x : CreateCall), j ≠ i → creates[j]? = some x →
      x.Linked ids table nextTid → x.Linked ids' table' nextTid') :
    ∀ (j : Nat) (x : CreateCall), (creates.set i c')[j]? = some x →
      x.Linked ids' table' nextTid' := by
  intro j x hj
  rcases Table.set_cases hj with ⟨-, rfl⟩ | ⟨hNe, hj⟩
  · exact hSelf
  · exact hOther j x hNe hj (h.call j x hj)

section Advance

variable {i : Nat} {c c' : CreateCall} (h : Linked ids table nextTid creates)
  (hCall : creates[i]? = some c)
include h hCall

theorem owners_set (hOwner : ∀ pid, c'.owner = some pid →
    c.owner = some pid ∨ table.get pid = none) :
    ∀ (a b : Nat) (x y : CreateCall) (pid : UInt64), (creates.set i c')[a]? = some x →
      (creates.set i c')[b]? = some y → x.owner = some pid → y.owner = some pid → a = b := by
  have hOther : ∀ (j : Nat) (x : CreateCall) (pid : UInt64), creates[j]? = some x →
      x.owner = some pid → c'.owner = some pid → j = i := by
    intro j x pid hj hx hc'
    rcases hOwner pid hc' with hc | hNone
    · exact h.owners j i x c pid hj hCall hx hc
    · obtain ⟨pcb, hGet⟩ := h.owner_get hj hx
      rw [hNone] at hGet
      cases hGet
  intro a b x y pid ha hb hx hy
  rcases Table.set_cases ha with ⟨rfl, rfl⟩ | ⟨-, ha'⟩
  · rcases Table.set_cases hb with ⟨rfl, rfl⟩ | ⟨-, hb'⟩
    · rfl
    · exact (hOther b y pid hb' hy hx).symm
  · rcases Table.set_cases hb with ⟨rfl, rfl⟩ | ⟨-, hb'⟩
    · exact hOther a x pid ha' hx hy
    · exact h.owners a b x y pid ha' hb' hx hy

theorem fresh_set (hFresh : ∀ p tcb, c' = .allocated p tcb → tcb.tid = nextTid) :
    ∀ (a b : Nat) (p q : UInt64) (tcb tcb' : ThreadControlBlock),
      (creates.set i c')[a]? = some (.allocated p tcb) →
      (creates.set i c')[b]? = some (.allocated q tcb') → tcb.tid = tcb'.tid → a = b := by
  have hOther : ∀ (j : Nat) (q : UInt64) (t : ThreadControlBlock),
      creates[j]? = some (.allocated q t) → t.tid ≠ nextTid := by
    rintro j q t hj rfl
    exact absurd (h.call j _ hj).2.2.2.2.1 (Nat.lt_irrefl _)
  intro a b p q tcb tcb' ha hb hTid
  rcases Table.set_cases ha with ⟨rfl, hEq⟩ | ⟨-, ha'⟩
  · rcases Table.set_cases hb with ⟨rfl, -⟩ | ⟨-, hb'⟩
    · rfl
    · exact absurd (hTid.symm.trans (hFresh p tcb hEq.symm)) (hOther b q tcb' hb')
  · rcases Table.set_cases hb with ⟨rfl, hEq⟩ | ⟨-, hb'⟩
    · exact absurd (hTid.trans (hFresh q tcb' hEq.symm)) (hOther a p tcb ha')
    · exact h.fresh a b p q tcb tcb' ha' hb' hTid

theorem count_set (c' : CreateCall) :
    nextTid.toNat + (creates.set i c').countP CreateCall.isInserted +
      (if c.isInserted then 1 else 0) =
        table.nextPid.toNat + (if c'.isInserted then 1 else 0) := by
  rw [Nat.add_assoc, Table.countP_set hCall, ← Nat.add_assoc, h.count]

end Advance

theorem insert {i : Nat} {name : String} {entryFn : UInt64} (h : Linked ids table nextTid creates)
    (hCall : creates[i]? = some (.start name entryFn)) (pageTable : UInt64)
    (hRoom : table.nextPid.toNat + 1 < 2 ^ 64) :
    Linked ids (ProcessTable.insert ⟨table.processes, table.nextPid + 1⟩
      (Kernel.newProcess table.nextPid name pageTable)) nextTid
      (creates.set i (.inserted table.nextPid entryFn)) := by
  have hFree := h.processes.nextPid_free
  have hGet := h.processes.insert_get name pageTable
  have hNone : ∀ tid, (tid, table.nextPid) ∉ ids := by
    intro tid hMem
    obtain ⟨pcb, hPcb, -⟩ := h.recorded tid _ hMem
    rw [hFree] at hPcb
    cases hPcb
  refine
    { h with
      processes := h.processes.insert name pageTable hRoom
      recorded := fun tid pid hMem => ?_
      listed := fun pid pcb hPcb => ?_
      call := h.call_set ⟨⟨_, (hGet _ _).mpr (.inl ⟨rfl, rfl⟩), rfl⟩, hNone⟩ fun j x _ _ hx => ?_
      owners := h.owners_set hCall fun pid hPid => ?_
      fresh := h.fresh_set hCall fun p tcb hEq => by cases hEq
      count := ?_ }
  · obtain ⟨pcb, hPcb, hTid⟩ := h.recorded tid pid hMem
    exact ⟨pcb, (hGet pid pcb).mpr (.inr hPcb), hTid.imp_right (added_set hCall (by simp))⟩
  · rcases (hGet pid pcb).mp hPcb with ⟨rfl, rfl⟩ | hPcb
    · simp [Kernel.newProcess]
    · exact h.listed pid pcb hPcb
  · exact hx.mono (fun pid pcb _ hPcb => ⟨pcb, (hGet pid pcb).mpr (.inr hPcb), rfl⟩)
      (fun _ hMem => hMem) (fun _ _ _ hMem => hMem) (fun _ _ _ _ hMem => hMem) (Nat.le_refl _)
  · cases hPid
    exact .inr hFree
  · rw [ProcessTable.insert_nextPid, UInt64.toNat_add, Nat.mod_eq_of_lt (by simpa using hRoom)]
    exact h.count_set hCall (.inserted table.nextPid entryFn)

theorem allocate {i : Nat} {pid entryFn : UInt64} {tcb : ThreadControlBlock}
    (h : Linked ids table nextTid creates) (hCall : creates[i]? = some (.inserted pid entryFn))
    (hTid : tcb.tid = nextTid) (hPid : tcb.pid = pid) (hReady : tcb.state = .ready) :
    Linked ids table (nextTid + 1) (creates.set i (.allocated pid tcb)) := by
  have hCount := h.count_set hCall (.allocated pid tcb)
  simp only [CreateCall.isInserted, Bool.false_eq_true, if_false, if_true] at hCount
  -- The PID counter is ahead of the TID counter by the inserted processes, so it overflows first.
  have hNext : (nextTid + 1).toNat = nextTid.toNat + 1 := by
    have hLt := table.nextPid.toNat_lt
    rw [UInt64.toNat_add, Nat.mod_eq_of_lt (by simpa using by omega)]
    rfl
  obtain ⟨hPcb, hNone⟩ := h.call i _ hCall
  refine
    { h with
      tid_lt := fun t p hMem => ?_
      recorded := fun t p hMem => ?_
      call := h.call_set ?_ fun j x _ _ hx => ?_
      owners := h.owners_set hCall fun p hp => .inl hp
      fresh := h.fresh_set hCall fun p t hEq => ?_
      count := by omega }
  · have := h.tid_lt t p hMem
    omega
  · obtain ⟨pcb, hGet, hIn⟩ := h.recorded t p hMem
    exact ⟨pcb, hGet, hIn.imp_right (added_set hCall (by simp))⟩
  · refine ⟨hPcb, hNone, hPid, hReady, by rw [hTid]; omega, fun p hMem => ?_⟩
    rw [hTid] at hMem
    exact Nat.lt_irrefl _ (h.tid_lt _ _ hMem)
  · exact hx.mono (fun p pcb _ hGet => ⟨pcb, hGet, rfl⟩) (fun _ hMem => hMem)
      (fun _ _ _ hMem => hMem) (fun _ _ _ _ hMem => hMem) (by omega)
  · cases hEq
    exact hTid

theorem add {i : Nat} {pid : UInt64} {tcb : ThreadControlBlock}
    (h : Linked ids table nextTid creates) (hCall : creates[i]? = some (.allocated pid tcb)) :
    Linked (ids ++ [(tcb.tid, tcb.pid)]) table nextTid (creates.set i (.added pid tcb.tid)) := by
  obtain ⟨⟨pcb, hPcb, hEmpty⟩, hNone, rfl, -, hLt, hNew⟩ := h.call i _ hCall
  have hMem : ∀ t p, (t, p) ∈ ids ++ [(tcb.tid, tcb.pid)] ↔
      (t, p) ∈ ids ∨ t = tcb.tid ∧ p = tcb.pid := by
    simp
  refine
    { h with
      idle := Table.snoc_old h.idle
      tids := ?_
      tid_lt := fun t p ht => ?_
      recorded := fun t p ht => ?_
      listed := fun p q hq => ?_
      call := h.call_set ⟨⟨pcb, hPcb, hEmpty⟩, by simp⟩ fun j x hj hGet hx => ?_
      owners := h.owners_set hCall fun p hp => .inl hp
      fresh := h.fresh_set hCall fun p t hEq => by cases hEq
      count := ?_ }
  · rw [List.map_append, List.nodup_append]
    refine ⟨h.tids, by simp, fun t ht t' ht' => ?_⟩
    obtain ⟨⟨t₁, p⟩, hIn, rfl⟩ := List.mem_map.mp ht
    obtain rfl : t' = tcb.tid := by simpa using ht'
    rintro rfl
    exact hNew p hIn
  · rcases (hMem t p).mp ht with ht | ⟨rfl, -⟩
    · exact h.tid_lt t p ht
    · exact hLt
  · rcases (hMem t p).mp ht with ht | ⟨rfl, rfl⟩
    · obtain ⟨q, hq, hIn⟩ := h.recorded t p ht
      exact ⟨q, hq, hIn.imp_right (added_set hCall (by simp))⟩
    · exact ⟨pcb, hPcb, .inr ⟨i, Table.set_self hCall⟩⟩
  · obtain ⟨hNodup, hIds⟩ := h.listed p q hq
    exact ⟨hNodup, fun t ht => (hMem t p).mpr (.inl (hIds t ht))⟩
  · refine hx.mono (fun p q _ hq => ⟨q, hq, rfl⟩) (fun y hy => List.mem_append_left _ hy)
      (fun t p hOwner ht => ?_) (fun p q t hAlloc ht => ?_) (Nat.le_refl _)
    · rcases (hMem t p).mp ht with ht | ⟨-, rfl⟩
      · exact ht
      · exact absurd (h.owners j i x _ tcb.pid hGet hCall hOwner rfl) hj
    · rcases (hMem t.tid p).mp ht with ht | ⟨hTid, -⟩
      · exact ht
      · subst hAlloc
        exact absurd (h.fresh j i q tcb.pid t tcb hGet hCall hTid) hj
  · exact h.count_set hCall (.added tcb.pid tcb.tid)

theorem record {i : Nat} {pid tid : UInt64} (h : Linked ids table nextTid creates)
    (hCall : creates[i]? = some (.added pid tid)) :
    Linked ids (table.getMut pid fun pcb => { pcb with threads := pcb.threads ++ [tid] }) nextTid
      (creates.set i (.returned pid)) := by
  obtain ⟨⟨pcb₀, hPcb₀, hEmpty⟩, hIn⟩ := h.call i _ hCall
  have hSelf : (table.getMut pid fun pcb => { pcb with threads := pcb.threads ++ [tid] }).get pid =
      some { pcb₀ with threads := [tid] } := by
    rw [ProcessTable.getMut_get, hPcb₀, Option.map_some, if_pos rfl, hEmpty]
    rfl
  have hOther : ∀ p, p ≠ pid → (table.getMut pid fun pcb =>
      { pcb with threads := pcb.threads ++ [tid] }).get p = table.get p := by
    intro p hp
    simp [ProcessTable.getMut_get, hp]
  refine
    { h with
      processes := h.processes.getMut pid (fun _ => ⟨rfl, rfl⟩) fun _ hExit => hExit
      recorded := fun t p hMem => ?_
      listed := fun p pcb hPcb => ?_
      call := h.call_set ⟨_, hSelf⟩ fun j x hj hGet hx => ?_
      owners := h.owners_set hCall fun p hp => .inl hp
      fresh := h.fresh_set hCall fun p t hEq => by cases hEq
      count := ?_ }
  · by_cases hp : p = pid
    · -- The thread was not listed, so it is the one that waits to be recorded.
      subst hp
      obtain ⟨pcb, hPcb, hWhere⟩ := h.recorded t p hMem
      obtain rfl := Option.some.inj (hPcb₀.symm.trans hPcb)
      rw [hEmpty] at hWhere
      obtain ⟨j, hj⟩ := hWhere.resolve_left (by simp)
      obtain rfl := h.owners j i _ _ p hj hCall rfl rfl
      obtain ⟨-, rfl⟩ := CreateCall.added.inj (Option.some.inj (hCall.symm.trans hj))
      exact ⟨_, hSelf, .inl (by simp)⟩
    · obtain ⟨pcb, hPcb, hWhere⟩ := h.recorded t p hMem
      refine ⟨pcb, (hOther p hp).trans hPcb, hWhere.imp_right (added_set hCall ?_)⟩
      exact fun hEq => hp (CreateCall.added.inj hEq).1.symm
  · by_cases hp : p = pid
    · subst hp
      obtain rfl := Option.some.inj (hSelf.symm.trans hPcb)
      exact ⟨by simp, by simpa using hIn⟩
    · exact h.listed p pcb ((hOther p hp).symm.trans hPcb)
  · refine hx.mono (fun p pcb hOwner hPcb => ⟨pcb, ?_, rfl⟩) (fun _ hMem => hMem)
      (fun _ _ _ hMem => hMem) (fun _ _ _ _ hMem => hMem) (Nat.le_refl _)
    rw [hOther p fun hp => hj (h.owners j i x _ pid hGet hCall (hp ▸ hOwner) rfl), hPcb]
  · rw [ProcessTable.getMut_nextPid]
    exact h.count_set hCall (.returned pid)

/-- The first block of an exit changes neither the threads nor the links of a process. -/
theorem zombie (h : Linked ids table nextTid creates) (pid : UInt64) (exitCode : Int32) :
    Linked ids (table.getMut pid fun pcb =>
      { pcb with state := .zombie, exitCode := some exitCode }) nextTid creates := by
  have hGet : ∀ p pcb, table.get p = some pcb → ∃ pcb', (table.getMut pid fun pcb =>
      { pcb with state := .zombie, exitCode := some exitCode }).get p = some pcb' ∧
      pcb'.threads = pcb.threads := by
    intro p pcb hPcb
    rw [ProcessTable.getMut_get, hPcb]
    refine ⟨_, rfl, ?_⟩
    split <;> rfl
  refine
    { h with
      processes := h.processes.getMut pid (fun _ => ⟨rfl, rfl⟩) fun _ _ => by simp
      recorded := fun t p hMem => ?_
      listed := fun p pcb' hPcb' => ?_
      call := fun j c hj => (h.call j c hj).mono (fun p pcb _ hPcb => hGet p pcb hPcb)
        (fun _ hMem => hMem) (fun _ _ _ hMem => hMem) (fun _ _ _ _ hMem => hMem) (Nat.le_refl _) }
  · obtain ⟨pcb, hPcb, hWhere⟩ := h.recorded t p hMem
    obtain ⟨pcb', hPcb', hSame⟩ := hGet p pcb hPcb
    exact ⟨pcb', hPcb', by rwa [hSame]⟩
  · rw [ProcessTable.getMut_get, Option.map_eq_some_iff] at hPcb'
    obtain ⟨pcb, hPcb, rfl⟩ := hPcb'
    have hListed := h.listed p pcb hPcb
    split <;> exact hListed

end Linked

/-! ### Steps of the system -/

def Kernel.ids (k : Kernel) : List (UInt64 × UInt64) :=
  k.sched.threads.map fun tcb => (tcb.tid, tcb.pid)

theorem Linked.advance {k k' : Kernel} {creates : List CreateCall} {i : Nat}
    {c c' : CreateCall} {ptr : UInt64} (h : Linked k.ids k.table k.nextTid creates)
    (hCall : creates[i]? = some c) (hAdvance : c.advance k ptr = .ok (c', k')) :
    Linked k'.ids k'.table k'.nextTid (creates.set i c') := by
  cases c with
  | start name entryFn =>
    obtain ⟨⟨pid, k₁⟩, hInsert, hRest⟩ := Panic.bind_eq_ok hAdvance
    obtain ⟨rfl, rfl⟩ := Prod.mk.inj (Except.ok.inj hRest)
    obtain ⟨rfl, hRoom, rfl⟩ := Kernel.insertProcess_ok hInsert
    exact h.insert hCall k.cr3 hRoom
  | inserted pid entryFn =>
    obtain ⟨rfl, rfl⟩ := Prod.mk.inj (Except.ok.inj hAdvance)
    exact h.allocate hCall rfl rfl rfl
  | allocated pid tcb =>
    obtain ⟨rfl, rfl⟩ := Prod.mk.inj (Except.ok.inj hAdvance)
    have hIds : (k.addThread tcb).ids = k.ids ++ [(tcb.tid, tcb.pid)] := by
      simp [Kernel.ids, Kernel.addThread, Scheduler.addThread]
    rw [hIds]
    exact h.add hCall
  | added pid tid =>
    obtain ⟨rfl, rfl⟩ := Prod.mk.inj (Except.ok.inj hAdvance)
    exact h.record hCall
  | returned pid =>
    obtain ⟨rfl, rfl⟩ := Prod.mk.inj (Except.ok.inj hAdvance)
    obtain ⟨hi, hEq⟩ := List.getElem?_eq_some_iff.mp hCall
    rwa [← hEq, List.set_getElem_self]

/-- The thread table after a step of a creation: it gains a Ready thread, or it is the same. -/
theorem Linked.advance_sched {k k' : Kernel} {creates : List CreateCall} {i : Nat}
    {c c' : CreateCall} {ptr : UInt64} (h : Linked k.ids k.table k.nextTid creates)
    (hCall : creates[i]? = some c) (hAdvance : c.advance k ptr = .ok (c', k')) :
    k'.sched = k.sched ∨
      ∃ pid tcb, c = .allocated pid tcb ∧ tcb.state = .ready ∧ k'.sched = k.sched.addThread tcb := by
  cases c with
  | start name entryFn =>
    obtain ⟨⟨pid, k₁⟩, hInsert, hRest⟩ := Panic.bind_eq_ok hAdvance
    obtain ⟨rfl, rfl⟩ := Prod.mk.inj (Except.ok.inj hRest)
    obtain ⟨rfl, -, rfl⟩ := Kernel.insertProcess_ok hInsert
    exact .inl rfl
  | allocated pid tcb =>
    obtain ⟨rfl, rfl⟩ := Prod.mk.inj (Except.ok.inj hAdvance)
    exact .inr ⟨pid, tcb, rfl, (h.call i _ hCall).2.2.2.1, rfl⟩
  | inserted | added | returned =>
    obtain ⟨rfl, rfl⟩ := Prod.mk.inj (Except.ok.inj hAdvance)
    exact .inl rfl

namespace System

structure Inv (s : System) : Prop where
  sched : s.kernel.sched.Inv
  linked : Linked s.kernel.ids s.kernel.table s.kernel.nextTid s.creates

/-- What an action does: it begins a call, it takes one call further, or it changes the states of
threads and nothing else that the tables link. -/
inductive Effect (s : System) : Action → System → Prop
  | beginCreate (name : String) (entryFn : UInt64) :
      Effect s (.createProcess name entryFn)
        { s with creates := s.creates ++ [.start name entryFn] }
  | beginExit (pid : UInt64) (exitCode : Int32) :
      Effect s (.exitProcess pid exitCode) { s with exits := s.exits ++ [.start pid exitCode] }
  | create {i : Nat} {c c' : CreateCall} {ptr : UInt64} {kernel : Kernel}
      (hCall : s.creates[i]? = some c) (hAdvance : c.advance s.kernel ptr = .ok (c', kernel)) :
      Effect s (.create i ptr) { s with kernel, creates := s.creates.set i c' }
  | exit {i : Nat} {c : ExitCall} (hCall : s.exits[i]? = some c) :
      Effect s (.exit i) { s with
        kernel := (c.advance s.kernel).2, exits := s.exits.set i (c.advance s.kernel).1 }
  | threads {a : Action} {kernel : Kernel} {changes : List Scheduler.Change}
      (hRun : Run Scheduler.Step s.kernel.sched changes kernel.sched)
      (hIds : kernel.ids = s.kernel.ids) (hTable : kernel.table = s.kernel.table)
      (hTid : kernel.nextTid = s.kernel.nextTid) : Effect s a { s with kernel }

theorem markExited_ids (k : Kernel) (tid : UInt64) : (k.markThreadExited tid).ids = k.ids :=
  Scheduler.ids_eq (Scheduler.markExited_get k.sched tid) fun i t => by split <;> rfl

theorem Step.effect {s s' : System} {a : Action} (hInv : s.kernel.sched.Inv)
    (step : Step s a s') : Effect s a s' := by
  cases a with
  | createProcess name entryFn =>
    obtain rfl := Except.ok.inj step
    exact .beginCreate name entryFn
  | exitProcess pid exitCode =>
    obtain rfl := Except.ok.inj step
    exact .beginExit pid exitCode
  | create i ptr =>
    simp only [Step, exec] at step
    split at step
    · obtain rfl := Except.ok.inj step
      exact .threads (.nil _) rfl rfl rfl
    · rename_i c hCall
      obtain ⟨⟨c', kernel⟩, hAdvance, hRest⟩ := Panic.bind_eq_ok step
      obtain rfl := Except.ok.inj hRest
      exact .create hCall hAdvance
  | exit i =>
    simp only [Step, exec] at step
    split at step
    · obtain rfl := Except.ok.inj step
      exact .threads (.nil _) rfl rfl rfl
    · rename_i c hCall
      obtain rfl := Except.ok.inj step
      exact .exit hCall
  | markThreadExited tid =>
    obtain rfl := Except.ok.inj step
    exact .threads (.single (.exit tid)) (markExited_ids _ _) rfl rfl
  | tick =>
    obtain ⟨kernel, hTick, hRest⟩ := Panic.bind_eq_ok step
    obtain rfl := Except.ok.inj hRest
    refine .threads (Kernel.exec_changes (e := .tick) hInv.current_lt hTick) ?_ ?_ ?_
    all_goals
      rcases Kernel.exec_tick hInv.current_lt hTick with ⟨-, rfl⟩ | ⟨next, -, rfl⟩
      · rfl
    · rw [Kernel.ids, Kernel.contextSwitch_sched]
      exact Scheduler.ids_eq (Scheduler.switch_get _ next _) fun i t => rfl
    · simp
    · simp
  | run cpu mem =>
    obtain rfl := Except.ok.inj step
    exact .threads (.nil _) rfl rfl rfl

theorem exit_cases (c : ExitCall) (k : Kernel) :
    (∃ pid exitCode pcb, c = .start pid exitCode ∧ k.table.get pid = some pcb ∧
      c.advance k = (.marking pid pcb.threads, { k with table := k.table.getMut pid fun pcb =>
        { pcb with state := .zombie, exitCode := some exitCode } })) ∨
    (∃ pid tid tids, c = .marking pid (tid :: tids) ∧
      c.advance k = (.marking pid tids, k.markThreadExited tid)) ∨
    ∃ pid, c.advance k = (.returned pid, k) ∧
      (c = .marking pid [] ∨ c = .returned pid ∨
        ∃ exitCode, c = .start pid exitCode ∧ k.table.get pid = none) := by
  match c with
  | .start pid exitCode =>
    simp only [ExitCall.advance, Kernel.markZombie]
    cases hGet : k.table.get pid with
    | none => exact .inr (.inr ⟨pid, rfl, .inr (.inr ⟨exitCode, rfl, hGet⟩)⟩)
    | some pcb => exact .inl ⟨pid, exitCode, pcb, rfl, hGet, rfl⟩
  | .marking pid (tid :: tids) => exact .inr (.inl ⟨pid, tid, tids, rfl, rfl⟩)
  | .marking pid [] => exact .inr (.inr ⟨pid, rfl, .inl rfl⟩)
  | .returned pid => exact .inr (.inr ⟨pid, rfl, .inr (.inl rfl)⟩)

theorem Step.inv {s s' : System} {a : Action} (h : s.Inv) (step : Step s a s') :
    s'.Inv ∧ s.kernel.sched.Keeps s'.kernel.sched := by
  cases step.effect h.sched with
  | beginCreate name entryFn => exact ⟨⟨h.sched, h.linked.begin name entryFn⟩, .refl _⟩
  | beginExit => exact ⟨⟨h.sched, h.linked⟩, .refl _⟩
  | create hCall hAdvance =>
    have hLinked := h.linked.advance hCall hAdvance
    rcases h.linked.advance_sched hCall hAdvance with hSame | ⟨pid, tcb, -, hReady, hAdd⟩
    · exact ⟨⟨hSame ▸ h.sched, hLinked⟩, hSame ▸ .refl _⟩
    · have hStep := Scheduler.Step.add (s := s.kernel.sched) tcb hReady
      rw [← hAdd] at hStep
      exact ⟨⟨hStep.inv h.sched, hLinked⟩, hStep.keeps h.sched⟩
  | @exit i c hCall =>
    rcases exit_cases c s.kernel with ⟨pid, exitCode, pcb, -, -, hEq⟩ | ⟨pid, tid, tids, -, hEq⟩ |
      ⟨pid, hEq, -⟩ <;> rw [hEq]
    · exact ⟨⟨h.sched, h.linked.zombie pid exitCode⟩, .refl _⟩
    · have hStep := Scheduler.Step.exit (s := s.kernel.sched) tid
      refine ⟨⟨hStep.inv h.sched, ?_⟩, hStep.keeps h.sched⟩
      rw [markExited_ids]
      exact h.linked
    · exact ⟨⟨h.sched, h.linked⟩, .refl _⟩
  | threads hRun hIds hTable hTid =>
    refine ⟨⟨hRun.invariant (fun _ _ _ hs step => step.inv hs) h.sched, ?_⟩,
      hRun.relates .refl (fun _ _ _ => .trans)
        (fun _ _ _ hs step => ⟨step.inv hs, step.keeps hs⟩) h.sched⟩
    rw [hIds, hTable, hTid]
    exact h.linked

/-! ### The system after `scheduler::init` -/

theorem initIdle_inv {b : Boot} {k : Kernel} (h : Kernel.initIdle b = .ok k) :
    Inv ⟨k, [], []⟩ := by
  refine ⟨Kernel.initIdle_inv h, ?_⟩
  -- The kernel process is the only one, and the idle thread the only thread.
  obtain ⟨pcb₀, hOnly, hPid, hState, hParent, hThreads, hCode⟩ : ∃ pcb₀ : ProcessControlBlock,
      (∀ pid, k.table.get pid = if pid = 0 then some pcb₀ else none) ∧ pcb₀.pid = 0 ∧
      pcb₀.state = .running ∧ pcb₀.parentPid = none ∧ pcb₀.threads = [0] ∧
      pcb₀.exitCode = none := by
    cases h
    exact ⟨_, fun pid => ProcessTable.insert_get _ _ pid, rfl, rfl, rfl, rfl, rfl⟩
  have hIds : k.ids = [(0, 0)] := by
    cases h
    rfl
  have hTid : k.nextTid = 1 := by
    cases h
    rfl
  have hNext : k.table.nextPid = 1 := by
    cases h
    rfl
  have hGet : ∀ pid pcb, k.table.get pid = some pcb → pid = 0 ∧ pcb = pcb₀ := by
    intro pid pcb hPcb
    rw [hOnly] at hPcb
    split at hPcb
    · exact ⟨‹_›, (Option.some.inj hPcb).symm⟩
    · cases hPcb
  constructor
  case processes =>
    refine ⟨fun pid pcb hPcb => ?_, ⟨pcb₀, by simp [hOnly]⟩, fun pid pcb hPcb => ?_,
      fun pid pcb hPcb => ?_⟩ <;> obtain ⟨rfl, rfl⟩ := hGet pid pcb hPcb
    · exact ⟨hPid, by rw [hNext]; decide⟩
    · simp [hParent]
    · simp [hCode, hState]
  case tid_lt | recorded =>
    intro tid pid hMem
    obtain ⟨rfl, rfl⟩ : tid = 0 ∧ pid = 0 := by simpa [hIds] using hMem
    first
    | exact ⟨pcb₀, by simp [hOnly], .inl (by simp [hThreads])⟩
    | simp [hTid]
  case listed =>
    intro pid pcb hPcb
    obtain ⟨rfl, rfl⟩ := hGet pid pcb hPcb
    simp [hThreads, hIds]
  all_goals simp [hIds, hTid, hNext]

theorem create_inv {k k' : Kernel} {name : String} {entryFn ptr pid : UInt64}
    {creates : List CreateCall} {exits : List ExitCall} (hInv : Inv ⟨k, creates, exits⟩)
    (h : k.createProcess name entryFn ptr = .ok (pid, k')) :
    Inv ⟨k', creates ++ [.returned pid], exits⟩ ∧ pid = k.table.nextPid ∧
      k'.table.nextPid = k.table.nextPid + 1 := by
  refine ⟨(create_alone h creates exits).invariant (P := Inv) (fun _ _ _ hs step => (step.inv hs).1)
    hInv, ?_⟩
  obtain ⟨k₁, hInsert, rfl⟩ := Kernel.createProcess_ok h
  obtain ⟨hPid, -, rfl⟩ := Kernel.insertProcess_ok hInsert
  exact ⟨hPid, rfl⟩

theorem initial_inv {b : Boot} {k : Kernel} (h : Kernel.init b = .ok k) : (initial k).Inv := by
  obtain ⟨k₀, hIdle, run⟩ := Kernel.init_ok h
  cases run with
  | cons stepA run =>
    cases run with
    | cons stepB run =>
      cases run
      obtain ⟨pidA, hA⟩ := Kernel.exec_createProcess stepA
      obtain ⟨pidB, hB⟩ := Kernel.exec_createProcess stepB
      obtain ⟨hInvA, hPidA, hNextA⟩ := create_inv (initIdle_inv hIdle) hA
      obtain ⟨hInvB, hPidB, -⟩ := create_inv hInvA hB
      have hZero : k₀.table.nextPid = 1 := by
        cases hIdle
        rfl
      rw [hNextA, hZero] at hPidB
      rw [hZero] at hPidA
      subst hPidA hPidB
      exact hInvB

theorem Reaches.inv {b : Boot} {as : List Action} {s : System} (h : Reaches b as s) : s.Inv := by
  obtain ⟨k, hInit, run⟩ := h
  exact run.invariant (P := Inv) (fun _ _ _ hs step => (step.inv hs).1) (initial_inv hInit)

/-- A process stays in the table, a Zombie stays a Zombie, and the list of threads only grows. -/
theorem Step.process {s s' : System} {a : Action} (h : s.Inv) (step : Step s a s') {pid : UInt64}
    {pcb : ProcessControlBlock} (hPcb : s.kernel.table.get pid = some pcb) :
    ∃ pcb', s'.kernel.table.get pid = some pcb' ∧ (pcb.state = .zombie → pcb'.state = .zombie) ∧
      pcb.threads <+: pcb'.threads := by
  have hSame : ∃ pcb', s.kernel.table.get pid = some pcb' ∧
      (pcb.state = .zombie → pcb'.state = .zombie) ∧ pcb.threads <+: pcb'.threads :=
    ⟨pcb, hPcb, fun hZombie => hZombie, List.prefix_refl _⟩
  have hGetMut : ∀ (p : UInt64) (f : ProcessControlBlock → ProcessControlBlock),
      (pcb.state = .zombie → (f pcb).state = .zombie) → pcb.threads <+: (f pcb).threads →
      ∃ pcb', (s.kernel.table.getMut p f).get pid = some pcb' ∧
        (pcb.state = .zombie → pcb'.state = .zombie) ∧ pcb.threads <+: pcb'.threads := by
    intro p f hState hThreads
    rw [ProcessTable.getMut_get, hPcb]
    refine ⟨_, rfl, ?_⟩
    split
    · exact ⟨hState, hThreads⟩
    · exact ⟨fun hZombie => hZombie, List.prefix_refl _⟩
  cases step.effect h.sched with
  | beginCreate | beginExit => exact hSame
  | threads _ _ hTable => exact hTable ▸ hSame
  | @create i c c' ptr kernel hCall hAdvance =>
    cases c with
    | start name entryFn =>
      obtain ⟨⟨pid', k₁⟩, hInsert, hRest⟩ := Panic.bind_eq_ok hAdvance
      obtain ⟨rfl, rfl⟩ := Prod.mk.inj (Except.ok.inj hRest)
      obtain ⟨rfl, -, rfl⟩ := Kernel.insertProcess_ok hInsert
      exact ⟨pcb, (h.linked.processes.insert_get name _ pid pcb).mpr (.inr hPcb),
        fun hZombie => hZombie, List.prefix_refl _⟩
    | added p tid =>
      obtain ⟨rfl, rfl⟩ := Prod.mk.inj (Except.ok.inj hAdvance)
      exact hGetMut p _ (fun hZombie => hZombie) (List.prefix_append _ _)
    | inserted | allocated | returned =>
      obtain ⟨rfl, rfl⟩ := Prod.mk.inj (Except.ok.inj hAdvance)
      exact hSame
  | @exit i c hCall =>
    rcases exit_cases c s.kernel with ⟨p, exitCode, pcb', -, -, hEq⟩ | ⟨p, tid, tids, -, hEq⟩ |
      ⟨p, hEq, -⟩ <;> rw [hEq]
    · exact hGetMut p _ (fun _ => rfl) (List.prefix_refl _)
    · exact hSame
    · exact hSame

theorem mem_ids {k : Kernel} {tid pid : UInt64} :
    (tid, pid) ∈ k.ids ↔ ∃ tcb ∈ k.sched.threads, tcb.tid = tid ∧ tcb.pid = pid := by
  simp [Kernel.ids]

theorem Inv.tid_inj {s : System} (h : s.Inv) {i j : Nat} {t t' : ThreadControlBlock}
    (hi : s.kernel.sched.threads[i]? = some t) (hj : s.kernel.sched.threads[j]? = some t')
    (hTid : t.tid = t'.tid) : i = j := by
  have hGet : ∀ {i : Nat} {t : ThreadControlBlock}, s.kernel.sched.threads[i]? = some t →
      (s.kernel.ids.map Prod.fst)[i]? = some t.tid := by
    intro i t ht
    simp [Kernel.ids, ht]
  have hLt := (List.getElem?_eq_some_iff.mp (hGet hi)).1
  exact (List.getElem?_inj hLt h.linked.tids).mp (by rw [hGet hi, hGet hj, hTid])

/-- A thread is listed by its process, or its creation is about to list it. -/
theorem Inv.recorded {s : System} (h : s.Inv) {pcb : ProcessControlBlock}
    {tcb : ThreadControlBlock} (hPcb : s.kernel.table.get tcb.pid = some pcb)
    (hMem : tcb ∈ s.kernel.sched.threads) :
    tcb.tid ∈ pcb.threads ∨ ∃ j : Nat, s.creates[j]? = some (.added tcb.pid tcb.tid) := by
  obtain ⟨pcb', hPcb', hWhere⟩ := h.linked.recorded _ _ (mem_ids.mpr ⟨tcb, hMem, rfl, rfl⟩)
  obtain rfl := Option.some.inj (hPcb.symm.trans hPcb')
  exact hWhere

/-- A TID that a process lists is at one place of the thread table, in a thread of that process. -/
theorem Inv.listed_once {s : System} (h : s.Inv) {pid tid : UInt64} {pcb : ProcessControlBlock}
    (hPcb : s.kernel.table.get pid = some pcb) (hTid : tid ∈ pcb.threads) :
    (∃! i : Nat, ∃ tcb, s.kernel.sched.threads[i]? = some tcb ∧ tcb.tid = tid) ∧
      ∀ tcb ∈ s.kernel.sched.threads, tcb.tid = tid → tcb.pid = pcb.pid := by
  obtain ⟨tcb, hMem, rfl, hPid⟩ := mem_ids.mp ((h.linked.listed pid pcb hPcb).2 tid hTid)
  obtain ⟨i, hGet⟩ := List.mem_iff_getElem?.mp hMem
  refine ⟨⟨i, ⟨tcb, hGet, rfl⟩, fun j ⟨t, hj, hEq⟩ => h.tid_inj hj hGet hEq⟩, ?_⟩
  intro t ht hEq
  obtain ⟨j, hj⟩ := List.mem_iff_getElem?.mp ht
  obtain rfl := h.tid_inj hj hGet hEq
  obtain rfl := Option.some.inj (hj.symm.trans hGet)
  exact hPid.trans (h.linked.processes.key pid pcb hPcb).1.symm

/-- The process table and the scheduler agree. -/
structure Agrees (s : System) : Prop where
  key : ∀ pid pcb, s.kernel.table.get pid = some pcb → pcb.pid = pid
  unused : s.kernel.table.get s.kernel.table.nextPid = none
  tids : (s.kernel.sched.threads.map (·.tid)).Nodup
  idle : ∀ (i : Nat) (tcb : ThreadControlBlock), s.kernel.sched.threads[i]? = some tcb →
    (tcb.tid = 0 ↔ i = 0)
  process : ∀ tcb ∈ s.kernel.sched.threads, ∃ pcb, s.kernel.table.get tcb.pid = some pcb ∧
    pcb.pid = tcb.pid
  listed : ∀ pid pcb tid, s.kernel.table.get pid = some pcb → tid ∈ pcb.threads →
    (∃! i : Nat, ∃ tcb, s.kernel.sched.threads[i]? = some tcb ∧ tcb.tid = tid) ∧
      ∀ tcb ∈ s.kernel.sched.threads, tcb.tid = tid → tcb.pid = pcb.pid
  parent : ∀ pid pcb, s.kernel.table.get pid = some pcb → (pcb.parentPid = none ↔ pid = 0) ∧
    ∀ p, pcb.parentPid = some p → ∃ parent, s.kernel.table.get p = some parent
  exitCode : ∀ pid pcb, s.kernel.table.get pid = some pcb →
    (pcb.exitCode.isSome ↔ pcb.state = .zombie)
  returned : ∀ pid, .returned pid ∈ s.creates → ∃ pcb, s.kernel.table.get pid = some pcb ∧
    pcb.threads.Nodup ∧ ∀ tid, tid ∈ pcb.threads ↔
      ∃ tcb ∈ s.kernel.sched.threads, tcb.pid = pid ∧ tcb.tid = tid

theorem Inv.agrees {s : System} (h : s.Inv) : s.Agrees := by
  obtain ⟨idle, hIdle, hIdleTid⟩ := h.sched.idle
  have hTids : s.kernel.ids.map Prod.fst = s.kernel.sched.threads.map (·.tid) := by
    simp [Kernel.ids]
  constructor
  case key => exact fun pid pcb hPcb => (h.linked.processes.key pid pcb hPcb).1
  case unused => exact h.linked.processes.nextPid_free
  case tids => exact hTids ▸ h.linked.tids
  case exitCode => exact h.linked.processes.exitCode
  case listed => exact fun pid pcb tid hPcb hTid => h.listed_once hPcb hTid
  case idle =>
    intro i tcb hGet
    constructor
    · exact fun hZero => h.tid_inj hGet hIdle (hZero.trans hIdleTid.symm)
    · rintro rfl
      obtain rfl := Option.some.inj (hIdle.symm.trans hGet)
      exact hIdleTid
  case process =>
    intro tcb hMem
    obtain ⟨pcb, hPcb, -⟩ := h.linked.recorded _ _ (mem_ids.mpr ⟨tcb, hMem, rfl, rfl⟩)
    exact ⟨pcb, hPcb, (h.linked.processes.key _ _ hPcb).1⟩
  case parent =>
    intro pid pcb hPcb
    rw [h.linked.processes.parent pid pcb hPcb]
    refine ⟨by split <;> simp [*], fun p hp => ?_⟩
    split at hp
    · cases hp
    · obtain rfl := Option.some.inj hp
      exact h.linked.processes.root
  case returned =>
    intro pid hMem
    obtain ⟨j, hj⟩ := List.mem_iff_getElem?.mp hMem
    obtain ⟨pcb, hPcb⟩ := h.linked.call j _ hj
    obtain ⟨hNodup, hListed⟩ := h.linked.listed pid pcb hPcb
    refine ⟨pcb, hPcb, hNodup, fun tid => ⟨fun hTid => ?_, ?_⟩⟩
    · obtain ⟨tcb, hTcb, hTid, hPid⟩ := mem_ids.mp (hListed tid hTid)
      exact ⟨tcb, hTcb, hPid, hTid⟩
    · rintro ⟨tcb, hTcb, rfl, rfl⟩
      -- A thread that is not listed has its creation still in progress.
      refine (h.recorded hPcb hTcb).resolve_right ?_
      rintro ⟨i, hi⟩
      obtain rfl := h.linked.owners i j _ _ tcb.pid hi hj rfl rfl
      cases hi.symm.trans hj

/-- The process table and the scheduler agree in every state of every interleaving, and a Zombie
stays one. -/
theorem tables_agree {b : Boot} {as : List Action} {s : System} (h : Reaches b as s) :
    s.Agrees ∧ ∀ as' s', Run Step s as' s' → ∀ pid pcb, s.kernel.table.get pid = some pcb →
      pcb.state = .zombie →
      ∃ pcb', s'.kernel.table.get pid = some pcb' ∧ pcb'.state = .zombie := by
  refine ⟨h.inv.agrees, fun as' s' run => ?_⟩
  refine run.relates (P := Inv)
    (R := fun s s' => ∀ pid pcb, s.kernel.table.get pid = some pcb → pcb.state = .zombie →
      ∃ pcb', s'.kernel.table.get pid = some pcb' ∧ pcb'.state = .zombie)
    (fun s pid pcb hPcb hZombie => ⟨pcb, hPcb, hZombie⟩) ?_
    (fun s a s' hs step => ⟨(step.inv hs).1, fun pid pcb hPcb hZombie => ?_⟩) h.inv
  · intro s t u hst htu pid pcb hPcb hZombie
    obtain ⟨pcb', hPcb', hZombie'⟩ := hst pid pcb hPcb hZombie
    exact htu pid pcb' hPcb' hZombie'
  · obtain ⟨pcb', hPcb', hState, -⟩ := step.process hs hPcb
    exact ⟨pcb', hPcb', hState hZombie⟩

theorem evaluate_reaches {α : Type} (b : Boot) (as : List Action) (f : System → α) (v : α)
    (h : (Kernel.init b).toOption.bind (fun k =>
      (Run.execAll exec (initial k) as).toOption.map f) = some v) :
    ∃ s, Reaches b as s ∧ f s = v := by
  obtain ⟨k, hInit, hRun⟩ := Option.bind_eq_some_iff.mp h
  obtain ⟨s, hAll, hValue⟩ := Option.map_eq_some_iff.mp hRun
  exact ⟨s, ⟨k, Panic.toOption_eq_some hInit,
    Run.execAll_ok_iff.mp (Panic.toOption_eq_some hAll)⟩, hValue⟩

/-- A creation is preempted between its blocks by the exit of process 1. -/
theorem tables_agree_sample :
    ∃ s, Reaches Kernel.sampleBoot [.createProcess "p" 0x4000, .create 2 0, .exitProcess 1 0,
      .exit 0, .create 2 0x300000, .tick, .create 2 0] s ∧
      s.creates = [.returned 1, .returned 2, .added 3 3] ∧ s.exits = [.marking 1 [1]] ∧
      s.Agrees := by
  obtain ⟨s, hReach, hState⟩ := evaluate_reaches Kernel.sampleBoot
    [.createProcess "p" 0x4000, .create 2 0, .exitProcess 1 0, .exit 0, .create 2 0x300000, .tick,
      .create 2 0]
    (fun s => (s.creates, s.exits)) ([.returned 1, .returned 2, .added 3 3], [.marking 1 [1]])
    (by decide)
  obtain ⟨hCreates, hExits⟩ := Prod.mk.inj hState
  exact ⟨s, hReach, hCreates, hExits, (tables_agree hReach).1⟩

end System

end RixOs

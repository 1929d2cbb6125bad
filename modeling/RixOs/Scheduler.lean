import RixOs.Panic
import RixOs.ProofKit.Runs
import RixOs.ProofKit.Cyclic
import RixOs.ProofKit.Table

/-! The thread table of `scheduler.rs`: thread control blocks, the round-robin choice of the next
thread, the switch of the running thread, and the exit of a thread.  Indexing a vector past its
end panics, so every function that indexes returns in `Except Panic`.  The last section says, per
thread, what each operation changes; the rest of the development uses only these equations. -/

namespace RixOs

open ProofKit

inductive ThreadState
  | ready
  | running
  | blocked
  | exited
  deriving DecidableEq, Repr

structure TaskContext where
  rsp : UInt64
  deriving DecidableEq, Repr

def TaskContext.empty : TaskContext := ⟨0⟩

/-- The vector of a kernel stack: where the allocator placed it and its length in bytes.  Its
contents are in memory. -/
structure KernelStack where
  ptr : UInt64
  len : UInt64
  deriving DecidableEq, Repr

structure ThreadControlBlock where
  tid : UInt64
  pid : UInt64
  state : ThreadState
  context : TaskContext
  kernelStack : KernelStack
  deriving DecidableEq, Repr

structure Scheduler where
  threads : List ThreadControlBlock
  current : Nat
  deriving DecidableEq, Repr

namespace Scheduler

def new : Scheduler := ⟨[], 0⟩

def addThread (s : Scheduler) (tcb : ThreadControlBlock) : Scheduler :=
  { s with threads := s.threads ++ [tcb] }

def thread (s : Scheduler) (idx : Nat) : Except Panic ThreadControlBlock :=
  match s.threads[idx]? with
  | some tcb => .ok tcb
  | none => .error .indexOutOfBounds

def setState (s : Scheduler) (idx : Nat) (state : ThreadState) : Except Panic Scheduler := do
  let _ ← s.thread idx
  return { s with threads := s.threads.modify idx fun tcb => { tcb with state } }

/-- The loop of `next_ready_thread`, over the offsets that remain. -/
def scanReady (s : Scheduler) (n : Nat) : List Nat → Except Panic (Option Nat)
  | [] => .ok none
  | i :: offsets => do
    let idx := (s.current + i) % n
    let tcb ← s.thread idx
    if tcb.state = .ready then return some idx
    s.scanReady n offsets

def nextReadyThread (s : Scheduler) : Except Panic (Option Nat) :=
  let n := s.threads.length
  if n ≤ 1 then .ok none else s.scanReady n (List.range' 1 (n - 1))

/-- The first statement of `prepare_switch` after its choice: thread `idx` is made Ready if it is
Running. -/
def demote (s : Scheduler) (idx : Nat) : Except Panic Scheduler := do
  if (← s.thread idx).state = .running then s.setState idx .ready else return s

/-- The contexts to switch between are returned as the indices of their threads. -/
def prepareSwitch (s : Scheduler) : Except Panic (Option (Nat × Nat) × Scheduler) := do
  match ← s.nextReadyThread with
  | none => return (none, s)
  | some nextIdx =>
    let currentIdx := s.current
    let s ← s.demote currentIdx
    let s ← s.setState nextIdx .running
    let s := { s with current := nextIdx }
    let _ ← s.thread currentIdx
    let _ ← s.thread nextIdx
    return (some (currentIdx, nextIdx), s)

def currentTid (s : Scheduler) : Except Panic UInt64 := do
  return (← s.thread s.current).tid

def currentPid (s : Scheduler) : Except Panic UInt64 := do
  return (← s.thread s.current).pid

/-- The loop of `mark_exited`: only the first thread with the TID changes. -/
def markFirst (tid : UInt64) : List ThreadControlBlock → List ThreadControlBlock
  | [] => []
  | tcb :: threads =>
    if tcb.tid = tid then { tcb with state := .exited } :: threads
    else tcb :: markFirst tid threads

def markExited (s : Scheduler) (tid : UInt64) : Scheduler :=
  { s with threads := markFirst tid s.threads }

/-- The store of `context_switch` into the context of thread `idx`. -/
def saveContext (s : Scheduler) (idx : Nat) (rsp : UInt64) : Scheduler :=
  { s with threads := s.threads.modify idx fun tcb => { tcb with context := ⟨rsp⟩ } }

/-! ### The functions without their panics -/

def isReady (s : Scheduler) (idx : Nat) : Bool := s.threads[idx]?.any (·.state = .ready)

/-- The thread that a tick switches to. -/
def nextReady (s : Scheduler) : Option Nat :=
  (Cyclic.probes s.current s.threads.length).find? s.isReady

/-- The thread table after `prepare_switch` chose thread `next`. -/
def switchTo (s : Scheduler) (next : Nat) : Scheduler where
  threads := (s.threads.modify s.current fun tcb =>
      if tcb.state = .running then { tcb with state := .ready } else tcb).modify next
    fun tcb => { tcb with state := .running }
  current := next

def indexOf (s : Scheduler) (tid : UInt64) : Nat := s.threads.findIdx (·.tid = tid)

theorem isReady_iff {s : Scheduler} {idx : Nat} :
    s.isReady idx = true ↔ ∃ tcb, s.threads[idx]? = some tcb ∧ tcb.state = .ready := by
  simp [isReady, Option.any_eq_true]

theorem thread_ok {s : Scheduler} {idx : Nat} {tcb : ThreadControlBlock}
    (h : s.threads[idx]? = some tcb) : s.thread idx = .ok tcb := by
  simp [thread, h]

theorem thread_ignore {s : Scheduler} {idx : Nat} (h : idx < s.threads.length) {α : Type}
    (rest : Except Panic α) : (s.thread idx >>= fun _ => rest) = rest := by
  rw [thread_ok (List.getElem?_eq_getElem h)]
  rfl

theorem setState_ok {s : Scheduler} {idx : Nat} (h : idx < s.threads.length)
    (state : ThreadState) :
    s.setState idx state =
      .ok { s with threads := s.threads.modify idx fun tcb => { tcb with state } } :=
  thread_ignore h _

theorem demote_ok {s : Scheduler} {idx : Nat} (h : idx < s.threads.length) :
    s.demote idx = .ok { s with threads := s.threads.modify idx fun tcb =>
      if tcb.state = .running then { tcb with state := .ready } else tcb } := by
  have hGet := List.getElem?_eq_getElem h
  rw [demote, thread_ok hGet]
  by_cases hRunning : s.threads[idx].state = .running
  · simp only [bind, Except.bind, hRunning, ↓reduceIte, setState_ok h,
      List.modify_eq_set_getElem?, hGet, Option.map_eq_map, Option.map_some]
  · simp only [bind, Except.bind, hRunning, ↓reduceIte, pure, Except.pure,
      List.modify_eq_set_getElem?, hGet, Option.map_eq_map, Option.map_some, Option.getD_some,
      List.set_getElem_self]

theorem scanReady_eq (s : Scheduler) (n : Nat) (offsets : List Nat)
    (h : ∀ i ∈ offsets, (s.current + i) % n < s.threads.length) :
    s.scanReady n offsets = .ok ((offsets.map fun i => (s.current + i) % n).find? s.isReady) := by
  induction offsets with
  | nil => rfl
  | cons i offsets ih =>
    have hLt := h i (by simp)
    have hGet := List.getElem?_eq_getElem hLt
    have hTail := ih fun j hj => h j (List.mem_cons_of_mem i hj)
    rw [scanReady, thread_ok hGet, List.map_cons, List.find?_cons]
    simp only [isReady, hGet, Option.any_some, bind, Except.bind]
    by_cases hReady : s.threads[(s.current + i) % n].state = .ready
    · simp [hReady, pure, Except.pure]
    · simpa [hReady] using hTail

/-- `next_ready_thread` never indexes past the end of the table, and it returns `nextReady`. -/
theorem nextReadyThread_eq (s : Scheduler) : s.nextReadyThread = .ok s.nextReady := by
  simp only [nextReadyThread, nextReady, Cyclic.probes]
  split
  · rename_i hSmall
    rw [show s.threads.length - 1 = 0 by omega]
    rfl
  · rename_i hLarge
    exact scanReady_eq s _ _ fun i _ => Nat.mod_lt _ (by omega)

/-- Where the current index is in range, `prepare_switch` does not panic: it leaves the table alone
when no other thread is Ready, and otherwise switches to the thread that the scan finds. -/
theorem prepareSwitch_eq {s : Scheduler} (hCurrent : s.current < s.threads.length) :
    s.prepareSwitch = .ok (match s.nextReady with
      | none => (none, s)
      | some next => (some (s.current, next), s.switchTo next)) := by
  rw [prepareSwitch, nextReadyThread_eq]
  cases hNext : s.nextReady with
  | none => rfl
  | some next =>
    obtain ⟨-, hLt, -, -⟩ := Cyclic.find_probes_some hCurrent hNext
    simp only [Panic.bind_ok, demote_ok hCurrent]
    rw [setState_ok (by simpa using hLt)]
    simp only [Panic.bind_ok]
    rw [thread_ignore (by simpa using hCurrent), thread_ignore (by simpa using hLt)]
    rfl

theorem markFirst_eq (tid : UInt64) (threads : List ThreadControlBlock) :
    markFirst tid threads = threads.modify (threads.findIdx (·.tid = tid))
      fun tcb => { tcb with state := .exited } := by
  induction threads with
  | nil => rfl
  | cons tcb threads ih =>
    by_cases h : tcb.tid = tid
    · simp [markFirst, h, List.findIdx_cons]
    · simp [markFirst, h, List.findIdx_cons, ih]

/-! ### What each operation changes, thread by thread -/

theorem addThread_get {s : Scheduler} {i : Nat} (h : i < s.threads.length)
    (tcb : ThreadControlBlock) : (s.addThread tcb).threads[i]? = s.threads[i]? :=
  List.getElem?_append_left h

theorem addThread_get_new (s : Scheduler) (tcb : ThreadControlBlock) :
    (s.addThread tcb).threads[s.threads.length]? = some tcb := by
  simp [addThread]

theorem addThread_cases {s : Scheduler} {tcb t : ThreadControlBlock} {i : Nat}
    (h : (s.addThread tcb).threads[i]? = some t) :
    s.threads[i]? = some t ∨ i = s.threads.length ∧ t = tcb := Table.snoc_cases h

@[simp] theorem addThread_length (s : Scheduler) (tcb : ThreadControlBlock) :
    (s.addThread tcb).threads.length = s.threads.length + 1 := by
  simp [addThread]

@[simp] theorem addThread_current (s : Scheduler) (tcb : ThreadControlBlock) :
    (s.addThread tcb).current = s.current := rfl

theorem markExited_get (s : Scheduler) (tid : UInt64) (i : Nat) :
    (s.markExited tid).threads[i]? = s.threads[i]?.map fun tcb =>
      if i = s.indexOf tid then { tcb with state := .exited } else tcb := by
  rw [markExited, markFirst_eq, List.getElem?_modify]
  simp only [indexOf, eq_comm (a := i)]
  rfl

theorem indexOf_tid {s : Scheduler} {tid : UInt64} {i : Nat} {tcb : ThreadControlBlock}
    (hGet : s.threads[i]? = some tcb) (hi : i = s.indexOf tid) : tcb.tid = tid := by
  subst hi
  have hTid := List.findIdx_of_getElem?_eq_some
    (p := fun tcb : ThreadControlBlock => tcb.tid = tid) hGet
  simpa using hTid

theorem indexOf_eq {s : Scheduler} {i : Nat} {tcb : ThreadControlBlock}
    (hGet : s.threads[i]? = some tcb)
    (hFirst : ∀ j < i, ∀ t, s.threads[j]? = some t → t.tid ≠ tcb.tid) :
    s.indexOf tcb.tid = i := by
  obtain ⟨hLt, rfl⟩ := List.getElem?_eq_some_iff.mp hGet
  refine (List.findIdx_eq hLt).mpr ⟨by simp, fun j hj => ?_⟩
  have hj' : j < s.threads.length := by omega
  simpa using hFirst j hj _ (List.getElem?_eq_getElem hj')

theorem markExited_cases {s : Scheduler} {tid : UInt64} {i : Nat} {t' : ThreadControlBlock}
    (h : (s.markExited tid).threads[i]? = some t') :
    ∃ t, s.threads[i]? = some t ∧ (t' = t ∨ t' = { t with state := .exited }) := by
  rw [markExited_get, Option.map_eq_some_iff] at h
  obtain ⟨t, ht, rfl⟩ := h
  refine ⟨t, ht, ?_⟩
  split
  · exact .inr rfl
  · exact .inl rfl

@[simp] theorem markExited_length (s : Scheduler) (tid : UInt64) :
    (s.markExited tid).threads.length = s.threads.length := by
  simp [markExited, markFirst_eq]

@[simp] theorem markExited_current (s : Scheduler) (tid : UInt64) :
    (s.markExited tid).current = s.current := rfl

theorem saveContext_get (s : Scheduler) (idx : Nat) (rsp : UInt64) (i : Nat) :
    (s.saveContext idx rsp).threads[i]? = s.threads[i]?.map fun tcb =>
      if i = idx then { tcb with context := ⟨rsp⟩ } else tcb := by
  rw [saveContext, List.getElem?_modify]
  simp only [eq_comm (a := i)]
  rfl

@[simp] theorem saveContext_length (s : Scheduler) (idx : Nat) (rsp : UInt64) :
    (s.saveContext idx rsp).threads.length = s.threads.length := by
  simp [saveContext]

@[simp] theorem saveContext_current (s : Scheduler) (idx : Nat) (rsp : UInt64) :
    (s.saveContext idx rsp).current = s.current := rfl

def stateAfter (s : Scheduler) (next i : Nat) (state : ThreadState) : ThreadState :=
  if i = next then .running
  else if i = s.current ∧ state = .running then .ready
  else state

theorem switchTo_get (s : Scheduler) (next i : Nat) :
    (s.switchTo next).threads[i]? = s.threads[i]?.map fun tcb =>
      { tcb with state := s.stateAfter next i tcb.state } := by
  rw [switchTo, List.getElem?_modify, List.getElem?_modify]
  cases s.threads[i]? with
  | none => rfl
  | some tcb =>
    simp only [Option.map_some, Option.map_eq_map, stateAfter, eq_comm (a := i)]
    by_cases hNext : next = i
    · split_ifs <;> rfl
    · by_cases hCur : s.current = i ∧ tcb.state = .running
      · simp [hNext, hCur]
      · simp only [hNext, hCur, ↓reduceIte]
        split_ifs with h1 h2
        · exact absurd ⟨h1, h2⟩ hCur
        · rfl
        · rfl

@[simp] theorem switchTo_length (s : Scheduler) (next : Nat) :
    (s.switchTo next).threads.length = s.threads.length := by
  simp [switchTo]

@[simp] theorem switchTo_current (s : Scheduler) (next : Nat) :
    (s.switchTo next).current = next := rfl

/-! ### The nearest Ready thread -/

/-- Thread `idx` is Ready and not the current one. -/
def ReadyOther (s : Scheduler) (idx : Nat) : Prop :=
  idx ≠ s.current ∧ ∃ tcb, s.threads[idx]? = some tcb ∧ tcb.state = .ready

/-- How many steps forward lead from the current thread to thread `idx`. -/
def distance (s : Scheduler) (idx : Nat) : Nat :=
  Cyclic.distance s.current s.threads.length idx

theorem ReadyOther.lt {s : Scheduler} {idx : Nat} (h : s.ReadyOther idx) :
    idx < s.threads.length := by
  obtain ⟨-, tcb, hGet, -⟩ := h
  exact (List.getElem?_eq_some_iff.mp hGet).1

theorem ReadyOther.isReady {s : Scheduler} {idx : Nat} (h : s.ReadyOther idx) :
    s.isReady idx = true := isReady_iff.mpr h.2

theorem nextReady_none_iff {s : Scheduler} (hCurrent : s.current < s.threads.length) :
    s.nextReady = none ↔ ∀ idx, ¬s.ReadyOther idx := by
  rw [nextReady, Cyclic.find_probes_none hCurrent]
  constructor
  · intro hNone idx hOther
    have hNot := hNone idx hOther.lt hOther.1
    rw [hOther.isReady] at hNot
    cases hNot
  · intro hNone idx _ hNe
    rw [← Bool.not_eq_true, isReady_iff]
    exact fun hReady => hNone idx ⟨hNe, hReady⟩

theorem nextReady_nearest {s : Scheduler} (hCurrent : s.current < s.threads.length) {idx : Nat}
    (hNext : s.nextReady = some idx) :
    s.ReadyOther idx ∧ ∀ j, s.ReadyOther j → j ≠ idx → s.distance idx < s.distance j := by
  obtain ⟨hReady, hLt, hNe, hLeast⟩ := Cyclic.find_probes_some hCurrent hNext
  refine ⟨⟨hNe, isReady_iff.mp hReady⟩, fun j hj hOther => ?_⟩
  apply Nat.lt_of_le_of_ne (hLeast j hj.lt hj.1 hj.isReady)
  intro hEq
  exact hOther (Cyclic.distance_inj hCurrent hLt hj.lt hEq).symm

/-- The switch to thread `next` changes the states of two threads, and nothing else of any. -/
theorem switchTo_changes {s : Scheduler} {next i : Nat} {tcb : ThreadControlBlock}
    (hGet : s.threads[i]? = some tcb) :
    ∃ state, (s.switchTo next).threads[i]? = some { tcb with state } ∧
      (i ≠ s.current → i ≠ next → state = tcb.state) := by
  refine ⟨s.stateAfter next i tcb.state, ?_, fun hCurrent hNext => ?_⟩
  · rw [switchTo_get, hGet]
    rfl
  · rw [stateAfter, if_neg hNext, if_neg fun h => hCurrent h.1]

/-- `next_ready_thread` chooses the other Ready thread that is nearest going forward, where there
is one, and `prepare_switch` switches to it without touching anything else. -/
theorem nextReadyThread_nearest {s : Scheduler} (hCurrent : s.current < s.threads.length) :
    ∃ choice, s.nextReadyThread = .ok choice ∧
      ((∃ idx, choice = some idx) ↔ ∃ idx, s.ReadyOther idx) ∧
      (choice = none → s.prepareSwitch = .ok (none, s)) ∧
      ∀ idx, choice = some idx →
        (s.ReadyOther idx ∧ ∀ j, s.ReadyOther j → j ≠ idx → s.distance idx < s.distance j) ∧
        ∃ s', s.prepareSwitch = .ok (some (s.current, idx), s') ∧ s'.current = idx ∧
          s'.threads.length = s.threads.length ∧
          ∀ i tcb, s.threads[i]? = some tcb → ∃ state,
            s'.threads[i]? = some { tcb with state } ∧
              (i ≠ s.current → i ≠ idx → state = tcb.state) := by
  have hSwitch := prepareSwitch_eq hCurrent
  refine ⟨s.nextReady, nextReadyThread_eq s, ?_, fun hNone => ?_, fun idx hNext => ?_⟩
  · constructor
    · rintro ⟨idx, hNext⟩
      exact ⟨idx, (nextReady_nearest hCurrent hNext).1⟩
    · rintro ⟨idx, hOther⟩
      rw [← Option.ne_none_iff_exists']
      exact fun hNone => (nextReady_none_iff hCurrent).mp hNone idx hOther
  · rw [hSwitch, hNone]
  · rw [hNext] at hSwitch
    exact ⟨nextReady_nearest hCurrent hNext, s.switchTo idx, hSwitch, switchTo_current s idx,
      switchTo_length s idx, fun i tcb hGet => switchTo_changes hGet⟩

/-- Two Ready threads, the Running one and a Blocked one. -/
def mixed : Scheduler where
  threads := [⟨0, 0, .ready, .empty, ⟨0, 0⟩⟩, ⟨1, 1, .ready, .empty, ⟨0, 0⟩⟩,
    ⟨2, 2, .running, .empty, ⟨0, 0⟩⟩, ⟨3, 3, .blocked, .empty, ⟨0, 0⟩⟩]
  current := 2

/-- The scan passes over the Blocked thread, wraps around and takes the first Ready one. -/
theorem nextReadyThread_nearest_wraps : mixed.nextReadyThread = .ok (some 0) ∧
    (∀ j, mixed.ReadyOther j → j ≠ 0 → mixed.distance 0 < mixed.distance j) ∧
    ∃ s', mixed.prepareSwitch = .ok (some (2, 0), s') ∧ s'.current = 0 := by
  obtain ⟨choice, hChoice, -, -, hNext⟩ :=
    nextReadyThread_nearest (by decide : mixed.current < mixed.threads.length)
  obtain rfl : some 0 = choice := Except.ok.inj hChoice
  obtain ⟨⟨-, hNearest⟩, s', hSwitch, hCurrent, -⟩ := hNext 0 rfl
  exact ⟨hChoice, hNearest, s', hSwitch, hCurrent⟩

end Scheduler

end RixOs

import Mathlib.Logic.Function.Basic
import RixOs.ProofKit.Runs
import RixOs.ProofKit.Table

/-! One processor with an interrupt flag, threads, and spin locks.  A thread is the code it has left
to run and the interrupt flags it has saved.  An interrupt is taken wherever the flag is set; its
handler runs on the interrupted thread with the flag clear, and it may switch to another thread.

`Safe` checks code against a discipline for a set of tracked locks: a tracked lock is taken only with
interrupts masked, is not taken twice, and is not held across a switch or when the flag is set.  In
every run of code that keeps the discipline, a tracked lock is free whenever it is requested. -/

namespace RixOs.ProofKit.Interrupts

variable {L A σ I C : Type}

/-- Instructions over locks `L` and actions `A` on the shared state. -/
inductive Instr (L A : Type)
  | lock (l : L)
  | unlock (l : L)
  | saveFlag
  /-- Interrupts are disabled if the flag saved last was set. -/
  | maskIfSaved
  /-- Interrupts are enabled if the flag saved last was set, and that flag is dropped. -/
  | restoreFlag
  | sti
  /-- The return of an interrupt handler: the flag is what it was at the interrupt. -/
  | iret
  | act (a : A)
  | switch

def locked (l : L) (body : List (Instr L A)) : List (Instr L A) :=
  .lock l :: (body ++ [.unlock l])

/-- Code with interrupts disabled; the flag is restored after it. -/
def withoutInterrupts (body : List (Instr L A)) : List (Instr L A) :=
  .saveFlag :: .maskIfSaved :: (body ++ [.restoreFlag])

structure Thread (L A : Type) where
  code : List (Instr L A)
  flags : List Bool

structure Machine (L A σ : Type) where
  shared : σ
  running : Nat
  interruptFlag : Bool
  holder : L → Option Nat
  threads : List (Thread L A)

/-- The code of a system: what an action of a thread does to the shared state, what a switch does to
it and the thread that it leads to, the number of threads and the code that a new one starts with,
the handlers of the interrupts `I`, and the code of the calls `C` that threads make. -/
structure Program (L A σ I C : Type) where
  act : A → Nat → σ → Option σ
  switch : σ → Nat → σ × Nat
  count : σ → Nat
  start : List (Instr L A)
  handler : I → List (Instr L A)
  call : C → List (Instr L A)

inductive Label (I C : Type)
  | instr
  | interrupt (i : I)
  | call (c : C)

namespace Machine

def next (m : Machine L A σ) : Option (Instr L A) :=
  m.threads[m.running]?.bind (·.code.head?)

def requested (m : Machine L A σ) : Option L :=
  match m.next with
  | some (.lock l) => some l
  | _ => none

def setThread (m : Machine L A σ) (code : List (Instr L A)) (flags : List Bool) : Machine L A σ :=
  { m with threads := m.threads.set m.running ⟨code, flags⟩ }

def SelfDeadlock (m : Machine L A σ) (l : L) : Prop :=
  m.next = some (.lock l) ∧ m.holder l = some m.running

theorem next_of_requested {m : Machine L A σ} {l : L} (h : m.requested = some l) :
    m.next = some (.lock l) := by
  rw [requested] at h
  split at h
  · rename_i hNext
    rw [hNext, Option.some.inj h]
  · cases h

end Machine

namespace Program

variable [DecidableEq L] (P : Program L A σ I C)

/-- One instruction of the running thread, with `code` and `flags` what it has left.  A lock that is
taken makes the thread wait. -/
def execInstr (m : Machine L A σ) (code : List (Instr L A)) (flags : List Bool) :
    Instr L A → Option (Machine L A σ)
  | .lock l =>
    if m.holder l = none then
      some { m.setThread code flags with holder := Function.update m.holder l (some m.running) }
    else none
  | .unlock l => some { m.setThread code flags with holder := Function.update m.holder l none }
  | .saveFlag => some (m.setThread code (m.interruptFlag :: flags))
  | .maskIfSaved =>
    match flags with
    | [] => none
    | saved :: _ =>
      some { m.setThread code flags with interruptFlag := m.interruptFlag && !saved }
  | .restoreFlag =>
    match flags with
    | [] => none
    | saved :: flags =>
      some { m.setThread code flags with interruptFlag := m.interruptFlag || saved }
  | .sti => some { m.setThread code flags with interruptFlag := true }
  | .iret =>
    match flags with
    | [] => none
    | saved :: flags => some { m.setThread code flags with interruptFlag := saved }
  | .act a =>
    (P.act a m.running m.shared).map fun shared =>
      { m with
        shared
        threads := m.threads.set m.running ⟨code, flags⟩ ++
          List.replicate (P.count shared - m.threads.length) ⟨P.start, []⟩ }
  | .switch =>
    let (shared, running) := P.switch m.shared m.running
    some { m.setThread code flags with shared, running }

def exec (m : Machine L A σ) (label : Label I C) : Option (Machine L A σ) := do
  let t ← m.threads[m.running]?
  match label, t.code with
  | .instr, instr :: code => P.execInstr m code t.flags instr
  | .interrupt i, code =>
    if m.interruptFlag then
      some { m.setThread (P.handler i ++ .iret :: code) (true :: t.flags) with
        interruptFlag := false }
    else none
  | .call c, [] => some (m.setThread (P.call c) t.flags)
  | _, _ => none

def Step (m : Machine L A σ) (label : Label I C) (m' : Machine L A σ) : Prop :=
  P.exec m label = some m'

end Program

/-! ### The discipline -/

section Discipline

variable [DecidableEq L] (tracked : L → Bool) (strict : Bool)

/-- Code that keeps the discipline when it starts with the interrupt flag, the tracked locks held and
the saved flags as given.  Where the discipline is not strict, nothing is asked of code that
requests a tracked lock with interrupts enabled. -/
def Safe : List (Instr L A) → Bool → List L → List Bool → Prop
  | [], flag, held, flags => flag = true ∧ held = [] ∧ flags = []
  | instr :: code, flag, held, flags =>
    (flag = true → held = []) ∧
      match instr with
      | .lock l =>
        if tracked l then
          (flag = true ∧ strict = false) ∨
            (flag = false ∧ l ∉ held ∧ Safe code false (l :: held) flags)
        else Safe code flag held flags
      | .unlock l => Safe code flag (held.filter (· ≠ l)) flags
      | .saveFlag => Safe code flag held (flag :: flags)
      | .maskIfSaved =>
        match flags with
        | [] => False
        | saved :: rest => Safe code (flag && !saved) held (saved :: rest)
      | .restoreFlag =>
        match flags with
        | [] => False
        | saved :: rest => Safe code (flag || saved) held rest
      | .sti => Safe code true held flags
      | .iret =>
        match flags with
        | [] => False
        | saved :: rest => Safe code saved held rest
      | .act _ => Safe code flag held flags
      | .switch => flag = false ∧ held = [] ∧ Safe code false [] flags

/-- A piece of code that leaves the flag and the held locks as it finds them. -/
def Keeps (body : List (Instr L A)) (flag : Bool) (held : List L) : Prop :=
  ∀ flags rest, Safe tracked strict rest flag held flags →
    Safe tracked strict (body ++ rest) flag held flags

/-- Every handler, every call and the first code of a thread keep the discipline. -/
structure Disciplined (P : Program L A σ I C) : Prop where
  handler : ∀ i, Keeps tracked strict (P.handler i) false []
  call : ∀ c, Keeps tracked strict (P.call c) true []
  start : Safe tracked strict P.start false [] []

/-- The invariant of the discipline: the running thread holds the tracked locks that are taken and
goes on as `Safe` says; the others hold none and are safe when they are resumed with the flag
clear. -/
structure Inv (m : Machine L A σ) : Prop where
  running : ∃ held, (∀ l, tracked l = true → m.holder l = if l ∈ held then some m.running else none) ∧
    (m.interruptFlag = true → held = []) ∧
    ∀ t, m.threads[m.running]? = some t →
      Safe tracked strict t.code m.interruptFlag held t.flags
  waiting : ∀ (i : Nat) (t : Thread L A), i ≠ m.running → m.threads[i]? = some t →
    Safe tracked strict t.code false [] t.flags

def Masked (m : Machine L A σ) (label : Label I C) : Prop :=
  ∀ l, label = .instr → tracked l = true → m.next = some (.lock l) → m.interruptFlag = false

end Discipline

section Lemmas

variable [DecidableEq L] {tracked : L → Bool} {strict : Bool}

theorem Keeps.nil {flag : Bool} {held : List L} :
    Keeps tracked strict ([] : List (Instr L A)) flag held := fun _ _ h => h

theorem Keeps.append {body body' : List (Instr L A)} {flag : Bool} {held : List L}
    (h : Keeps tracked strict body flag held) (h' : Keeps tracked strict body' flag held) :
    Keeps tracked strict (body ++ body') flag held := by
  intro flags rest hRest
  rw [List.append_assoc]
  exact h flags _ (h' flags rest hRest)

theorem Safe.held {code : List (Instr L A)} {flag : Bool} {held : List L} {flags : List Bool}
    (h : Safe tracked strict code flag held flags) (hFlag : flag = true) : held = [] := by
  cases code with
  | nil => exact h.2.1
  | cons => exact h.1 hFlag

theorem Keeps.act (a : A) (flag : Bool) (held : List L) :
    Keeps tracked strict [Instr.act a] flag held := by
  intro flags rest hRest
  exact ⟨hRest.held, hRest⟩

theorem Keeps.locked {body : List (Instr L A)} {l : L} {held : List L} (hFree : l ∉ held)
    (h : Keeps tracked strict body false (l :: held)) (h' : Keeps tracked strict body false held) :
    Keeps tracked strict (locked l body) false held := by
  intro flags rest hRest
  have hFilter : held.filter (· ≠ l) = held :=
    List.filter_eq_self.mpr fun l' hl' => by simpa using fun hEq : l' = l => hFree (hEq ▸ hl')
  rw [Interrupts.locked, List.cons_append, List.append_assoc]
  refine ⟨fun hFlag => by simp at hFlag, ?_⟩
  show if tracked l then _ else _
  split
  · refine .inr ⟨rfl, hFree, h flags _ ⟨fun hFlag => by simp at hFlag, ?_⟩⟩
    show Safe tracked strict rest false ((l :: held).filter (· ≠ l)) flags
    rwa [List.filter_cons_of_neg (by simp), hFilter]
  · refine h' flags _ ⟨fun hFlag => by simp at hFlag, ?_⟩
    show Safe tracked strict rest false _ flags
    rwa [hFilter]

theorem Keeps.locked_untracked {body : List (Instr L A)} {l : L} {flag : Bool}
    (hTracked : tracked l = false) (h : Keeps tracked strict body flag []) :
    Keeps tracked strict (Interrupts.locked l body) flag [] := by
  intro flags rest hRest
  rw [Interrupts.locked, List.cons_append, List.append_assoc]
  refine ⟨fun _ => rfl, ?_⟩
  show if tracked l then _ else _
  rw [hTracked]
  exact h flags _ ⟨fun _ => rfl, hRest⟩

/-- A critical section with interrupts enabled, where the discipline leaves it aside. -/
theorem Keeps.locked_enabled {body : List (Instr L A)} {l : L} (hTracked : tracked l = true) :
    Keeps tracked false (Interrupts.locked l body) true [] := by
  intro flags rest _
  refine ⟨fun _ => rfl, ?_⟩
  show if tracked l then _ else _
  rw [hTracked]
  exact .inl ⟨rfl, rfl⟩

theorem Keeps.withoutInterrupts {body : List (Instr L A)} {held : List L}
    (h : Keeps tracked strict body false held) (flag : Bool) :
    Keeps tracked strict (withoutInterrupts body) flag held := by
  intro flags rest hRest
  rw [Interrupts.withoutInterrupts, List.cons_append, List.cons_append, List.append_assoc]
  refine ⟨hRest.held, hRest.held, ?_⟩
  show Safe tracked strict _ (flag && !flag) held (flag :: flags)
  rw [Bool.and_not_self]
  refine h _ _ ⟨fun hFlag => by simp at hFlag, ?_⟩
  show Safe tracked strict rest (false || flag) held flags
  rwa [Bool.false_or]

section Holder

variable {holder : L → Option Nat} {running : Nat} {held : List L}
  (h : ∀ l, tracked l = true → holder l = if l ∈ held then some running else none)
include h

theorem holder_lock (l l' : L) (hl' : tracked l' = true) :
    Function.update holder l (some running) l' =
      if l' ∈ l :: held then some running else none := by
  by_cases hEq : l' = l
  · simp [hEq]
  · simp only [Function.update_of_ne hEq, List.mem_cons, hEq, false_or]
    exact h l' hl'

theorem holder_lock_untracked {l : L} (hTracked : ¬tracked l = true) (l' : L)
    (hl' : tracked l' = true) :
    Function.update holder l (some running) l' = if l' ∈ held then some running else none := by
  have hNe : l' ≠ l := by
    rintro rfl
    exact hTracked hl'
  rw [← h l' hl']
  exact Function.update_of_ne hNe _ _

theorem holder_unlock (l l' : L) (hl' : tracked l' = true) :
    Function.update holder l none l' =
      if l' ∈ held.filter (· ≠ l) then some running else none := by
  by_cases hEq : l' = l
  · simp [hEq]
  · simp only [Function.update_of_ne hEq, List.mem_filter, hEq, ne_eq, not_false_eq_true,
      decide_true, and_true]
    exact h l' hl'

end Holder

theorem Inv.update {m m' : Machine L A σ} (h : Inv tracked strict m) {code : List (Instr L A)}
    {flags : List Bool} (held : List L) (hRunning : m'.running = m.running)
    (hThreads : m'.threads = m.threads.set m.running ⟨code, flags⟩)
    (hHolder : ∀ l, tracked l = true → m'.holder l = if l ∈ held then some m.running else none)
    (hHeld : m'.interruptFlag = true → held = [])
    (hSafe : Safe tracked strict code m'.interruptFlag held flags) : Inv tracked strict m' := by
  refine ⟨⟨held, by rwa [hRunning], hHeld, fun t ht => ?_⟩, fun i t hi ht => ?_⟩
  · rw [hRunning, hThreads] at ht
    rcases Table.set_cases ht with ⟨-, rfl⟩ | ⟨hNe, -⟩
    · exact hSafe
    · exact absurd rfl hNe
  · rw [hThreads] at ht
    rcases Table.set_cases ht with ⟨rfl, -⟩ | ⟨hNe, hOld⟩
    · exact absurd hRunning.symm hi
    · exact h.waiting i t hNe hOld

theorem Inv.grow {m : Machine L A σ} (h : Inv tracked strict m) {new : List (Thread L A)}
    (hRunning : m.running < m.threads.length)
    (hNew : ∀ t ∈ new, Safe tracked strict t.code false [] t.flags) :
    Inv tracked strict { m with threads := m.threads ++ new } := by
  obtain ⟨held, hHolder, hHeld, hRun⟩ := h.running
  refine ⟨⟨held, hHolder, hHeld, fun t ht => hRun t ?_⟩, fun i t hi ht => ?_⟩
  · rwa [List.getElem?_append_left hRunning] at ht
  · rcases Table.append_cases ht with hOld | ⟨-, hMem⟩
    · exact h.waiting i t hi hOld
    · exact hNew t hMem

/-- A running thread that holds no tracked lock and has the flag clear is switched away from. -/
theorem Inv.switchTo {m : Machine L A σ} (h : Inv tracked strict m) {code : List (Instr L A)}
    {flags : List Bool} (hFlag : m.interruptFlag = false)
    (hHolder : ∀ l, tracked l = true → m.holder l = none)
    (hSafe : Safe tracked strict code false [] flags) (shared : σ) (running : Nat) :
    Inv tracked strict { m.setThread code flags with shared, running } := by
  have hAll : ∀ (i : Nat) (t : Thread L A),
      (m.threads.set m.running ⟨code, flags⟩)[i]? = some t →
        Safe tracked strict t.code false [] t.flags := by
    intro i t ht
    rcases Table.set_cases ht with ⟨-, rfl⟩ | ⟨hNe, hOld⟩
    · exact hSafe
    · exact h.waiting i t hNe hOld
  refine ⟨⟨[], fun l hl => by simpa [Machine.setThread] using hHolder l hl, fun _ => rfl,
    fun t ht => ?_⟩, fun i t _ ht => hAll i t ht⟩
  show Safe tracked strict t.code m.interruptFlag [] t.flags
  rw [hFlag]
  exact hAll running t ht

variable {P : Program L A σ I C} {m m' : Machine L A σ}

theorem Inv.lock (h : Inv tracked strict m) {l : L} {code : List (Instr L A)} {flags : List Bool}
    (hThread : m.threads[m.running]? = some ⟨.lock l :: code, flags⟩)
    (hMasked : strict = false → Masked (I := I) (C := C) tracked m .instr) :
    Inv tracked strict { m.setThread code flags with
      holder := Function.update m.holder l (some m.running) } := by
  obtain ⟨held, hHolder, hHeld, hRun⟩ := h.running
  obtain ⟨-, hSafe⟩ := hRun _ hThread
  simp only at hSafe
  by_cases hTracked : tracked l = true
  · rw [if_pos hTracked] at hSafe
    rcases hSafe with ⟨hFlag, hLax⟩ | ⟨hFlag, hFree, hSafe⟩
    -- `Safe` says nothing about the code after such a request: the run does not make it.
    · have hMask := hMasked hLax l rfl hTracked (by simp [Machine.next, hThread])
      rw [hMask] at hFlag
      cases hFlag
    · refine h.update (l :: held) rfl rfl (holder_lock hHolder l) (fun hSet => ?_) ?_
      · simp [Machine.setThread, hFlag] at hSet
      · simpa only [Machine.setThread, hFlag] using hSafe
  · rw [if_neg hTracked] at hSafe
    exact h.update held rfl rfl (holder_lock_untracked hHolder hTracked) hHeld hSafe

theorem Inv.instr (hP : Disciplined tracked strict P) (h : Inv tracked strict m)
    {instr : Instr L A} {code : List (Instr L A)} {flags : List Bool}
    (hThread : m.threads[m.running]? = some ⟨instr :: code, flags⟩)
    (hMasked : strict = false → Masked (I := I) (C := C) tracked m .instr)
    (hExec : P.execInstr m code flags instr = some m') : Inv tracked strict m' := by
  obtain ⟨held, hHolder, hHeld, hRun⟩ := h.running
  obtain ⟨-, hSafe⟩ := hRun _ hThread
  match instr with
  | .lock l =>
    simp only [Program.execInstr] at hExec
    split at hExec
    · obtain rfl := Option.some.inj hExec
      exact h.lock hThread hMasked
    · cases hExec
  | .unlock l =>
    obtain rfl := Option.some.inj hExec
    refine h.update _ rfl rfl (holder_unlock hHolder l) (fun hSet => ?_) hSafe
    simp [hHeld hSet]
  | .saveFlag =>
    obtain rfl := Option.some.inj hExec
    exact h.update held rfl rfl hHolder hHeld hSafe
  | .maskIfSaved =>
    match flags, hSafe, hExec with
    | saved :: rest, hSafe, hExec =>
      obtain rfl := Option.some.inj hExec
      refine h.update held rfl rfl hHolder (fun hSet => hHeld ?_) hSafe
      simp only [Bool.and_eq_true] at hSet
      exact hSet.1
  | .restoreFlag =>
    match flags, hSafe, hExec with
    | saved :: rest, hSafe, hExec =>
      obtain rfl := Option.some.inj hExec
      exact h.update held rfl rfl hHolder hSafe.held hSafe
  | .sti =>
    obtain rfl := Option.some.inj hExec
    exact h.update held rfl rfl hHolder hSafe.held hSafe
  | .iret =>
    match flags, hSafe, hExec with
    | saved :: rest, hSafe, hExec =>
      obtain rfl := Option.some.inj hExec
      exact h.update held rfl rfl hHolder hSafe.held hSafe
  | .act a =>
    obtain ⟨shared, -, rfl⟩ := Option.map_eq_some_iff.mp hExec
    have hStay : Inv tracked strict { m.setThread code flags with shared } :=
      h.update held rfl rfl hHolder hHeld hSafe
    refine hStay.grow ?_ fun t ht => ?_
    · have hLt := (List.getElem?_eq_some_iff.mp hThread).1
      simpa [Machine.setThread] using hLt
    · obtain ⟨-, rfl⟩ := List.mem_replicate.mp ht
      exact hP.start
  | .switch =>
    obtain rfl := Option.some.inj hExec
    obtain ⟨hFlag, rfl, hSafe⟩ := hSafe
    exact h.switchTo hFlag (fun l hl => by simpa using hHolder l hl) hSafe _ _

/-- What a step does: an instruction of the running thread, an interrupt taken with the flag set, or
a call that a thread with no code left makes. -/
theorem Program.Step.inv {label : Label I C} (hStep : P.Step m label m') :
    ∃ t, m.threads[m.running]? = some t ∧
      ((∃ instr code, label = .instr ∧ t.code = instr :: code ∧
          P.execInstr m code t.flags instr = some m') ∨
        (∃ i, label = .interrupt i ∧ m.interruptFlag = true ∧
          m' = { m.setThread (P.handler i ++ .iret :: t.code) (true :: t.flags) with
            interruptFlag := false }) ∨
        ∃ c, label = .call c ∧ t.code = [] ∧ m' = m.setThread (P.call c) t.flags) := by
  obtain ⟨t, ht, hExec⟩ := Option.bind_eq_some_iff.mp hStep
  refine ⟨t, ht, ?_⟩
  match label, hCode : t.code with
  | .instr, [] => simp [hCode] at hExec
  | .instr, instr :: code =>
    simp only [hCode] at hExec
    exact .inl ⟨instr, code, rfl, rfl, hExec⟩
  | .interrupt i, code =>
    simp only [hCode] at hExec
    split at hExec
    · exact .inr (.inl ⟨i, rfl, ‹_›, (Option.some.inj hExec).symm⟩)
    · cases hExec
  | .call c, [] =>
    simp only [hCode] at hExec
    exact .inr (.inr ⟨c, rfl, rfl, (Option.some.inj hExec).symm⟩)
  | .call c, _ :: _ => simp [hCode] at hExec

theorem Inv.step (hP : Disciplined tracked strict P) {label : Label I C}
    (h : Inv tracked strict m) (hMasked : strict = false → Masked tracked m label)
    (hStep : P.Step m label m') : Inv tracked strict m' := by
  obtain ⟨⟨code, flags⟩, ht, hCases⟩ := Program.Step.inv hStep
  obtain ⟨held, hHolder, hHeld, hRun⟩ := h.running
  have hSafe := hRun _ ht
  rcases hCases with ⟨instr, rest, rfl, rfl, hExec⟩ | ⟨i, rfl, hFlag, rfl⟩ | ⟨c, rfl, rfl, rfl⟩
  · exact h.instr hP ht hMasked hExec
  · obtain rfl := hHeld hFlag
    rw [hFlag] at hSafe
    refine h.update [] rfl rfl hHolder (fun _ => rfl) (hP.handler i _ _ ⟨fun _ => rfl, hSafe⟩)
  · obtain ⟨hFlag, rfl, rfl⟩ := hSafe
    refine h.update [] rfl rfl hHolder (fun _ => rfl) ?_
    rw [← List.append_nil (P.call c)]
    show Safe tracked strict _ m.interruptFlag [] []
    rw [hFlag]
    exact hP.call c _ _ ⟨rfl, rfl, rfl⟩

/-! ### What the invariant gives -/

theorem Inv.free_of_enabled (h : Inv tracked strict m) (hFlag : m.interruptFlag = true) {l : L}
    (hTracked : tracked l = true) : m.holder l = none := by
  obtain ⟨held, hHolder, hHeld, -⟩ := h.running
  simpa [hHeld hFlag] using hHolder l hTracked

theorem Inv.free_of_switch (h : Inv tracked strict m) (hNext : m.next = some .switch) {l : L}
    (hTracked : tracked l = true) : m.holder l = none := by
  obtain ⟨held, hHolder, -, hRun⟩ := h.running
  obtain ⟨t, ht, hHead⟩ := Option.bind_eq_some_iff.mp hNext
  obtain ⟨code, hCode⟩ := List.head?_eq_some_iff.mp hHead
  have hSafe := hRun t ht
  rw [hCode] at hSafe
  obtain ⟨-, -, rfl, -⟩ := hSafe
  simpa using hHolder l hTracked

/-- A tracked lock is free when it is requested. -/
theorem Inv.free_of_request (h : Inv tracked strict m) {l : L} (hNext : m.next = some (.lock l))
    (hTracked : tracked l = true) : m.holder l = none := by
  obtain ⟨held, hHolder, hHeld, hRun⟩ := h.running
  obtain ⟨t, ht, hHead⟩ := Option.bind_eq_some_iff.mp hNext
  obtain ⟨code, hCode⟩ := List.head?_eq_some_iff.mp hHead
  have hSafe := hRun t ht
  rw [hCode] at hSafe
  obtain ⟨-, hSafe⟩ := hSafe
  simp only [hTracked, if_true] at hSafe
  rcases hSafe with ⟨hFlag, -⟩ | ⟨-, hFree, -⟩
  · exact h.free_of_enabled hFlag hTracked
  · simpa [hFree] using hHolder l hTracked

theorem exec_instr {instr : Instr L A} {code : List (Instr L A)} {flags : List Bool}
    (hThread : m.threads[m.running]? = some ⟨instr :: code, flags⟩) :
    P.exec m .instr = P.execInstr m code flags instr := by
  simp only [Program.exec, hThread, Option.bind_eq_bind, Option.bind_some]

/-- `m'` differs from `m` in the locks, the shared state and the other threads only, and in that the
running thread has come to `code`. -/
structure Advances (m m' : Machine L A σ) (code : List (Instr L A)) (flags : List Bool) : Prop where
  running : m'.running = m.running
  interruptFlag : m'.interruptFlag = m.interruptFlag
  thread : m'.threads[m'.running]? = some ⟨code, flags⟩

section Progress

variable {l : L} {a : A} {code : List (Instr L A)} {flags : List Bool} {shared : σ}

theorem lock_step (hThread : m.threads[m.running]? = some ⟨.lock l :: code, flags⟩)
    (hFree : m.holder l = none) :
    ∃ m', P.Step m .instr m' ∧ Advances m m' code flags ∧ m'.shared = m.shared ∧
      m'.holder = Function.update m.holder l (some m.running) :=
  ⟨_, (exec_instr hThread).trans (if_pos hFree), ⟨rfl, rfl, Table.set_self hThread⟩, rfl, rfl⟩

theorem unlock_step (hThread : m.threads[m.running]? = some ⟨.unlock l :: code, flags⟩) :
    ∃ m', P.Step m .instr m' ∧ Advances m m' code flags ∧ m'.shared = m.shared ∧
      m'.holder = Function.update m.holder l none :=
  ⟨_, exec_instr hThread, ⟨rfl, rfl, Table.set_self hThread⟩, rfl, rfl⟩

theorem act_step (hThread : m.threads[m.running]? = some ⟨.act a :: code, flags⟩)
    (hAct : P.act a m.running m.shared = some shared) :
    ∃ m', P.Step m .instr m' ∧ Advances m m' code flags ∧ m'.shared = shared ∧
      m'.holder = m.holder := by
  refine ⟨_, (exec_instr hThread).trans (congrArg (Option.map _) hAct), ⟨rfl, rfl, ?_⟩, rfl, rfl⟩
  exact Table.append_old (Table.set_self hThread)

theorem switch_step (hThread : m.threads[m.running]? = some ⟨.switch :: code, flags⟩) :
    ∃ m', P.Step m .instr m' ∧ (m'.shared, m'.running) = P.switch m.shared m.running ∧
      m'.interruptFlag = m.interruptFlag ∧ m'.holder = m.holder :=
  ⟨_, exec_instr hThread, rfl, rfl, rfl⟩

/-- A critical section of one action, on a free lock, runs to its end and leaves the locks as they
were. -/
theorem locked_run (hThread : m.threads[m.running]? = some ⟨locked l [.act a] ++ code, flags⟩)
    (hFree : m.holder l = none) (hAct : P.act a m.running m.shared = some shared) :
    ∃ m', Run P.Step m [.instr, .instr, .instr] m' ∧ Advances m m' code flags ∧
      m'.shared = shared ∧ m'.holder = m.holder := by
  obtain ⟨m₁, hLock, h₁, hShared₁, hHolder₁⟩ := lock_step (P := P) hThread hFree
  obtain ⟨m₂, hDone, h₂, hShared₂, hHolder₂⟩ :=
    act_step h₁.thread (by rw [h₁.running, hShared₁, hAct])
  obtain ⟨m₃, hUnlock, h₃, hShared₃, hHolder₃⟩ := unlock_step (P := P) h₂.thread
  refine ⟨m₃, .cons hLock (.cons hDone (.single hUnlock)), ⟨?_, ?_, h₃.thread⟩, ?_, ?_⟩
  · rw [h₃.running, h₂.running, h₁.running]
  · rw [h₃.interruptFlag, h₂.interruptFlag, h₁.interruptFlag]
  · rw [hShared₃, hShared₂]
  · rw [hHolder₃, hHolder₂, hHolder₁, Function.update_idem, ← hFree, Function.update_eq_self]

theorem interrupt_step {t : Thread L A} (hThread : m.threads[m.running]? = some t)
    (hFlag : m.interruptFlag = true) (i : I) :
    ∃ m', P.Step m (.interrupt i) m' ∧ m'.running = m.running ∧ m'.interruptFlag = false ∧
      m'.threads[m'.running]? = some ⟨P.handler i ++ .iret :: t.code, true :: t.flags⟩ ∧
      m'.holder = m.holder := by
  refine ⟨{ m.setThread (P.handler i ++ .iret :: t.code) (true :: t.flags) with
    interruptFlag := false }, ?_, rfl, rfl, Table.set_self hThread, rfl⟩
  simp only [Program.Step, Program.exec, hThread, Option.bind_eq_bind, Option.bind_some, hFlag,
    if_true]

end Progress

theorem lock_granted {l : L} (hNext : m.next = some (.lock l)) (hFree : m.holder l = none) :
    ∃ m', P.Step m .instr m' ∧ m'.holder l = some m.running := by
  obtain ⟨⟨_, flags⟩, ht, hHead⟩ := Option.bind_eq_some_iff.mp hNext
  obtain ⟨code, rfl⟩ := List.head?_eq_some_iff.mp hHead
  obtain ⟨m', hStep, -, -, hHolder⟩ := lock_step (P := P) ht hFree
  exact ⟨m', hStep, by rw [hHolder, Function.update_self]⟩

/-- Nothing happens any more where a thread waits, with interrupts disabled, for a lock that it
holds. -/
theorem Machine.SelfDeadlock.stuck {l : L} (h : m.SelfDeadlock l) (hFlag : m.interruptFlag = false)
    (label : Label I C) : ¬P.Step m label m' := by
  intro hStep
  obtain ⟨t, ht, hCases⟩ := Program.Step.inv hStep
  obtain ⟨code, hCode⟩ : ∃ code, t.code = .lock l :: code := by
    have hHead := h.1
    rw [Machine.next, ht] at hHead
    exact List.head?_eq_some_iff.mp hHead
  rcases hCases with ⟨instr, rest, -, hInstr, hExec⟩ | ⟨-, -, hSet, -⟩ | ⟨-, -, hNil, -⟩
  · obtain ⟨rfl, rfl⟩ := List.cons.inj (hCode.symm.trans hInstr)
    rw [Program.execInstr, if_neg (by simp [h.2])] at hExec
    cases hExec
  · rw [hFlag] at hSet
    cases hSet
  · rw [hCode] at hNil
    cases hNil

end Lemmas

end RixOs.ProofKit.Interrupts

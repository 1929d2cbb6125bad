import RixOs.ProofKit.Typestates

/-! What handlers owe.  Of the actions of a program some are marked; a thread owes those in the code
that it has left.  Where every handler settles what it owes before interrupts are enabled again and
before it switches to another thread, nothing is owed whenever an interrupt can arrive, and along
every run the marked actions that are executed are those of the interrupts taken, and what the
running thread still owes. -/

namespace RixOs.ProofKit.Interrupts

variable {L A σ I C : Type}

section Owed

variable (marked : A → Bool)

def Instr.isMarked : Instr L A → Bool
  | .act a => marked a
  | _ => false

def owed (code : List (Instr L A)) : Nat := code.countP (Instr.isMarked marked)

/-- Code that owes nothing where the flag is set and after a switch, when it starts with the flag
and the saved flags as given. -/
def Settles : List (Instr L A) → Bool → List Bool → Prop
  | [], _, _ => True
  | instr :: code, flag, flags =>
    (flag = true → owed marked (instr :: code) = 0) ∧
      match instr, flags with
      | .saveFlag, flags => Settles code flag (flag :: flags)
      | .maskIfSaved, saved :: rest => Settles code (flag && !saved) (saved :: rest)
      | .restoreFlag, saved :: rest => Settles code (flag || saved) rest
      | .iret, saved :: rest => Settles code saved rest
      | .maskIfSaved, [] | .restoreFlag, [] | .iret, [] => True
      | .sti, flags => Settles code true flags
      | .switch, _ => owed marked code = 0
      | .lock _, flags | .unlock _, flags | .act _, flags => Settles code flag flags

/-- A piece of code that settles on its own where the flag is clear. -/
def Settling (body : List (Instr L A)) : Prop :=
  ∀ rest flags, Settles marked rest false flags → Settles marked (body ++ rest) false flags

/-- Handlers settle what they owe, where the code that they interrupt owes nothing; other code owes
nothing. -/
structure Settled (P : Program L A σ I C) : Prop where
  handler : ∀ i code flags, owed marked code = 0 →
    Settles marked (P.handler i ++ .iret :: code) false (true :: flags)
  call : ∀ c, owed marked (P.call c) = 0
  start : owed marked P.start = 0

/-- Threads that wait owe nothing, and the running one settles. -/
structure Quiet (m : Machine L A σ) : Prop where
  running : ∀ t, m.threads[m.running]? = some t → Settles marked t.code m.interruptFlag t.flags
  waiting : ∀ (i : Nat) (t : Thread L A), i ≠ m.running → m.threads[i]? = some t →
    owed marked t.code = 0

/-- What the running thread owes. -/
def Machine.debt (m : Machine L A σ) : Nat :=
  match m.threads[m.running]? with
  | some t => owed marked t.code
  | none => 0

/-- The marked actions that a step executes. -/
def paid (m : Machine L A σ) : Label I C → Nat
  | .instr => (m.next.any (Instr.isMarked marked)).toNat
  | _ => 0

/-- The marked actions that an interrupt asks for. -/
def issued (P : Program L A σ I C) : Label I C → Nat
  | .interrupt i => owed marked (P.handler i)
  | _ => 0

variable [DecidableEq L]

def paidAlong (P : Program L A σ I C) (m : Machine L A σ) : List (Label I C) → Nat
  | [] => 0
  | label :: labels =>
    match P.exec m label with
    | some m' => paid marked m label + paidAlong P m' labels
    | none => 0

def issuedAlong (P : Program L A σ I C) : List (Label I C) → Nat
  | [] => 0
  | label :: labels => issued marked P label + issuedAlong P labels

end Owed

section Lemmas

variable {marked : A → Bool} {code body body' : List (Instr L A)} {flag : Bool} {flags : List Bool}

theorem owed_append : owed marked (body ++ body') = owed marked body + owed marked body' :=
  List.countP_append

theorem owed_cons (instr : Instr L A) :
    owed marked (instr :: code) = owed marked code + (instr.isMarked marked).toNat := by
  rw [owed, owed, List.countP_cons]
  cases instr.isMarked marked <;> rfl

theorem owed_tail {instr : Instr L A} (h : owed marked (instr :: code) = 0) :
    owed marked code = 0 := by
  rw [owed_cons] at h
  omega

/-- Code that owes nothing settles. -/
theorem settles_of_owed (h : owed marked code = 0) (flag : Bool) (flags : List Bool) :
    Settles marked code flag flags := by
  induction code generalizing flag flags with
  | nil => trivial
  | cons instr code ih =>
    have hRest := ih (owed_tail h)
    refine ⟨fun _ => h, ?_⟩
    cases instr with
    | switch => exact owed_tail h
    | maskIfSaved | restoreFlag | iret =>
      cases flags with
      | nil => trivial
      | cons => exact hRest _ _
    | _ => exact hRest _ _

theorem Settles.owed (h : Settles marked code flag flags) (hFlag : flag = true) :
    Interrupts.owed marked code = 0 := by
  cases code with
  | nil => rfl
  | cons => exact h.1 hFlag

theorem Settling.nil : Settling marked ([] : List (Instr L A)) := fun _ _ h => h

theorem Settling.append (h : Settling marked body) (h' : Settling marked body') :
    Settling marked (body ++ body') := by
  intro rest flags hRest
  rw [List.append_assoc]
  exact h _ _ (h' _ _ hRest)

theorem Settling.act (a : A) : Settling marked [(Instr.act a : Instr L A)] :=
  fun _ _ hRest => ⟨by simp, hRest⟩

theorem Settling.locked (l : L) (h : Settling marked body) :
    Settling marked (Interrupts.locked l body) := by
  intro rest flags hRest
  rw [Interrupts.locked, List.cons_append, List.append_assoc]
  exact ⟨by simp, h _ _ ⟨by simp, hRest⟩⟩

theorem Settling.withoutInterrupts (h : Settling marked body) :
    Settling marked (Interrupts.withoutInterrupts body) := by
  intro rest flags hRest
  rw [Interrupts.withoutInterrupts, List.cons_append, List.cons_append, List.append_assoc]
  exact ⟨by simp, by simp, h _ _ ⟨by simp, hRest⟩⟩

end Lemmas

/-! ### Runs -/

section Runs

variable [DecidableEq L] {marked : A → Bool} {P : Program L A σ I C} {m m' : Machine L A σ}

omit [DecidableEq L] in
theorem debt_of_thread {code : List (Instr L A)} {flags : List Bool}
    (h : m.threads[m.running]? = some ⟨code, flags⟩) : m.debt marked = owed marked code := by
  rw [Machine.debt, h]

omit [DecidableEq L] in
/-- The running thread goes on with other code. -/
theorem Quiet.update (h : Quiet marked m) (m' : Machine L A σ) {t : Thread L A}
    (hThread : m.threads[m.running]? = some t)
    {code : List (Instr L A)} {flags : List Bool} (hRunning : m'.running = m.running)
    (hThreads : m'.threads = m.threads.set m.running ⟨code, flags⟩)
    (hSettles : Settles marked code m'.interruptFlag flags) :
    Quiet marked m' ∧ m'.debt marked = owed marked code := by
  refine ⟨⟨fun t ht => ?_, fun i t hi ht => ?_⟩, ?_⟩
  · rw [hRunning, hThreads] at ht
    rcases Table.set_cases ht with ⟨-, rfl⟩ | ⟨hNe, -⟩
    · exact hSettles
    · exact absurd rfl hNe
  · rw [hThreads] at ht
    rcases Table.set_cases ht with ⟨rfl, -⟩ | ⟨hNe, hOld⟩
    · exact absurd hRunning.symm hi
    · exact h.waiting i t hNe hOld
  · refine debt_of_thread (show m'.threads[m'.running]? = some ⟨code, flags⟩ from ?_)
    rw [hRunning, hThreads]
    exact Table.set_self hThread

omit [DecidableEq L] in
/-- Threads that have just been added owe nothing. -/
theorem Quiet.grow (h : Quiet marked m) (new : List (Thread L A))
    (hRunning : m.running < m.threads.length) (hNew : ∀ t ∈ new, owed marked t.code = 0) :
    Quiet marked { m with threads := m.threads ++ new } ∧
      Machine.debt marked { m with threads := m.threads ++ new } = m.debt marked := by
  refine ⟨⟨fun t ht => h.running t ?_, fun i t hi ht => ?_⟩, ?_⟩
  · rwa [List.getElem?_append_left hRunning] at ht
  · rcases Table.append_cases ht with hOld | ⟨-, hMem⟩
    · exact h.waiting i t hi hOld
    · exact hNew t hMem
  · rw [Machine.debt, Machine.debt, List.getElem?_append_left hRunning]

omit [DecidableEq L] in
/-- A running thread that owes nothing is switched away from. -/
theorem Quiet.switchTo (h : Quiet marked m) {code : List (Instr L A)} {flags : List Bool}
    (hOwed : owed marked code = 0) (shared : σ) (running : Nat) :
    Quiet marked { m.setThread code flags with shared, running } ∧
      Machine.debt marked { m.setThread code flags with shared, running } = 0 := by
  have hAll : ∀ (i : Nat) (t : Thread L A),
      (m.threads.set m.running ⟨code, flags⟩)[i]? = some t → owed marked t.code = 0 := by
    intro i t ht
    rcases Table.set_cases ht with ⟨-, rfl⟩ | ⟨hNe, hOld⟩
    · exact hOwed
    · exact h.waiting i t hNe hOld
  refine ⟨⟨fun t ht => settles_of_owed (hAll running t ht) _ _, fun i t _ ht => hAll i t ht⟩, ?_⟩
  unfold Machine.debt
  split
  · exact hAll running _ ‹_›
  · rfl

/-- An instruction keeps the invariant, and it pays what the thread owes less after it. -/
theorem Quiet.instr (hP : Settled marked P) (h : Quiet marked m) {instr : Instr L A}
    {code : List (Instr L A)} {flags : List Bool}
    (hThread : m.threads[m.running]? = some ⟨instr :: code, flags⟩)
    (hExec : P.execInstr m code flags instr = some m') :
    Quiet marked m' ∧ (instr.isMarked marked).toNat + m'.debt marked = m.debt marked := by
  have hSettles := (h.running _ hThread).2
  suffices hEnd : Quiet marked m' ∧ m'.debt marked = owed marked code by
    refine ⟨hEnd.1, ?_⟩
    rw [hEnd.2, debt_of_thread hThread, owed_cons, Nat.add_comm]
  cases instr with
  | lock l =>
    simp only [Program.execInstr] at hExec
    split at hExec
    · obtain rfl := Option.some.inj hExec
      exact h.update _ hThread rfl rfl hSettles
    · cases hExec
  | unlock | saveFlag | sti =>
    obtain rfl := Option.some.inj hExec
    exact h.update _ hThread rfl rfl hSettles
  | maskIfSaved | restoreFlag | iret =>
    cases flags with
    | nil => cases hExec
    | cons =>
      obtain rfl := Option.some.inj hExec
      exact h.update _ hThread rfl rfl hSettles
  | act a =>
    obtain ⟨shared, -, rfl⟩ := Option.map_eq_some_iff.mp hExec
    obtain ⟨hQuiet, hDebt⟩ : Quiet marked { m.setThread code flags with shared } ∧
        Machine.debt marked { m.setThread code flags with shared } = owed marked code :=
      h.update _ hThread rfl rfl hSettles
    have hLt := (List.getElem?_eq_some_iff.mp hThread).1
    obtain ⟨hQuiet, hDebt'⟩ := hQuiet.grow
      (List.replicate (P.count shared - m.threads.length) ⟨P.start, []⟩)
      (by simpa [Machine.setThread] using hLt) fun t ht => by
        obtain ⟨-, rfl⟩ := List.mem_replicate.mp ht
        exact hP.start
    exact ⟨hQuiet, hDebt'.trans hDebt⟩
  | switch =>
    obtain rfl := Option.some.inj hExec
    have hOwed : owed marked code = 0 := hSettles
    rw [hOwed]
    exact h.switchTo hOwed _ _

theorem Quiet.step (hP : Settled marked P) (h : Quiet marked m) {label : Label I C}
    (hStep : P.Step m label m') :
    Quiet marked m' ∧
      paid marked m label + m'.debt marked = m.debt marked + issued marked P label := by
  obtain ⟨⟨code, flags⟩, ht, hCases⟩ := Program.Step.inv hStep
  rcases hCases with ⟨instr, rest, rfl, rfl, hExec⟩ | ⟨i, rfl, hFlag, rfl⟩ | ⟨c, rfl, rfl, rfl⟩
  · obtain ⟨hQuiet, hPaid⟩ := h.instr hP ht hExec
    refine ⟨hQuiet, ?_⟩
    rw [paid, Machine.next_of_thread ht, Option.any_some, hPaid]
    rfl
  · -- The interrupted code owes nothing.
    have hOwed := (h.running _ ht).owed hFlag
    obtain ⟨hQuiet, hDebt⟩ := h.update { m.setThread (P.handler i ++ .iret :: code)
      (true :: flags) with interruptFlag := false } ht rfl rfl (hP.handler i code flags hOwed)
    refine ⟨hQuiet, ?_⟩
    rw [hDebt, debt_of_thread ht, hOwed, owed_append, owed_cons, hOwed]
    rfl
  · have hCall := hP.call c
    obtain ⟨hQuiet, hDebt⟩ := h.update (m.setThread (P.call c) flags) ht rfl rfl
      (settles_of_owed hCall _ _)
    refine ⟨hQuiet, ?_⟩
    rw [hDebt, hCall, debt_of_thread ht]
    rfl

/-- The debt is at most what one handler asks for. -/
theorem Quiet.debt_le (hP : Settled marked P) {n : Nat} (hHandler : ∀ i, owed marked (P.handler i) ≤ n)
    {labels : List (Label I C)} (run : Run P.Step m labels m') (h : Quiet marked m)
    (hDebt : m.debt marked ≤ n) : m'.debt marked ≤ n := by
  refine (run.invariant (P := fun m => Quiet marked m ∧ m.debt marked ≤ n)
    (fun m label m' h step => ?_) ⟨h, hDebt⟩).2
  obtain ⟨hQuiet, hPaid⟩ := h.1.step hP step
  refine ⟨hQuiet, ?_⟩
  cases label with
  | instr | call => exact Nat.le_trans (Nat.le_add_left _ _) (Nat.le_trans (Nat.le_of_eq hPaid) h.2)
  | interrupt i =>
    obtain ⟨t, ht, ⟨_, _, hLabel, -⟩ | ⟨_, -, hFlag, -⟩ | ⟨_, hLabel, -⟩⟩ := Program.Step.inv step
    · cases hLabel
    · have hNone : m.debt marked = 0 := by
        rw [debt_of_thread ht]
        exact (h.1.running t ht).owed hFlag
      have hIssued := hHandler i
      rw [hNone, Nat.zero_add] at hPaid
      exact Nat.le_trans (Nat.le_add_left _ _) (Nat.le_trans (Nat.le_of_eq hPaid) hIssued)
    · cases hLabel

/-- Along a run, the marked actions that were executed and what the running thread still owes are
what it owed before and what the interrupts of the run asked for. -/
theorem Quiet.run (hP : Settled marked P) {labels : List (Label I C)} (run : Run P.Step m labels m')
    (h : Quiet marked m) :
    Quiet marked m' ∧
      paidAlong marked P m labels + m'.debt marked =
        m.debt marked + issuedAlong marked P labels := by
  induction run with
  | nil => exact ⟨h, by simp [paidAlong, issuedAlong]⟩
  | cons step _ ih =>
    obtain ⟨hQuiet, hPaid⟩ := h.step hP step
    obtain ⟨hEnd, hRest⟩ := ih hQuiet
    refine ⟨hEnd, ?_⟩
    rw [paidAlong, show P.exec _ _ = some _ from step, issuedAlong]
    simp only
    omega

omit [DecidableEq L] in
/-- Where an interrupt can arrive, nothing is owed. -/
theorem Quiet.debt_of_enabled (h : Quiet marked m) (hFlag : m.interruptFlag = true) :
    m.debt marked = 0 := by
  unfold Machine.debt
  split
  · exact (h.running _ ‹_›).owed hFlag
  · rfl

omit [DecidableEq L] in
/-- Nothing is owed at a switch. -/
theorem Quiet.debt_of_switch (h : Quiet marked m) (hNext : m.next = some .switch) :
    m.debt marked = 0 := by
  obtain ⟨code, flags, hThread⟩ := Machine.thread_of_next hNext
  rw [debt_of_thread hThread, owed_cons, show owed marked code = 0 from (h.running _ hThread).2]
  rfl

end Runs

end RixOs.ProofKit.Interrupts

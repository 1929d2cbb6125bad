import RixOs.ProofKit.Typestates

/-! Exceptions.  An exception is taken at any instruction, whatever the interrupt flag is, also in
the handler of another one.  Its handler runs with the flag clear: it executes critical sections, one
after the other, and then it returns or it halts.  Where the actions of the handlers leave the shared
state alone, an exception is invisible or fatal: every run with exceptions is a run without them, up
to handlers that return from where they are, unless a handler waits for a lock that the code below
it holds, or halts. -/

namespace RixOs.ProofKit.Interrupts

variable {L A σ I C E : Type}

/-- Critical sections of one action each, with interrupts disabled. -/
def sections (bodies : List (L × A)) : List (Instr L A) :=
  bodies.flatMap fun body => withoutInterrupts (locked body.1 [.act body.2])

/-- The handlers of the exceptions `E`: their critical sections, and whether they return. -/
structure Exceptions (L A E : Type) where
  bodies : E → List (L × A)
  returns : E → Bool

/-- A machine, and whether a handler below the code of its running thread halts. -/
structure Interrupted (L A σ : Type) where
  machine : Machine L A σ
  halted : Bool

inductive Occurrence (I C E : Type)
  | step (label : Label I C)
  | exception (e : E)

def Occurrence.external : Occurrence I C E → Option (Label I C)
  | .step label => if label.isExternal then some label else none
  | .exception _ => none

namespace Exceptions

variable (X : Exceptions L A E)

/-- The handler of `e`, and what follows it. -/
def code (e : E) (rest : List (Instr L A)) : List (Instr L A) :=
  sections (X.bodies e) ++ if X.returns e then .iret :: rest else []

def raise (m : Machine L A σ) (e : E) : Option (Machine L A σ) := do
  let t ← m.threads[m.running]?
  some { m.setThread (X.code e t.code) (m.interruptFlag :: t.flags) with interruptFlag := false }

variable [DecidableEq L] (P : Program L A σ I C)

/-- A handler that halts is at `hlt` when it has no code left; it makes no calls. -/
def exec (s : Interrupted L A σ) : Occurrence I C E → Option (Interrupted L A σ)
  | .step (.call c) =>
    if s.halted then none
    else (P.exec s.machine (.call c)).map fun machine => { s with machine }
  | .step label => (P.exec s.machine label).map fun machine => { s with machine }
  | .exception e => (X.raise s.machine e).map fun machine => ⟨machine, s.halted || !X.returns e⟩

def Step (s : Interrupted L A σ) (event : Occurrence I C E) (s' : Interrupted L A σ) : Prop :=
  X.exec P s event = some s'

/-- The critical sections of the handlers do not change the shared state. -/
def Silent : Prop :=
  ∀ (e : E) (body : L × A), body ∈ X.bodies e → ∀ (i : Nat) (s : σ), P.act body.2 i s = some s

end Exceptions

namespace Machine

/-- The running thread waits, with interrupts disabled, for a lock that it holds. -/
def Spins (m : Machine L A σ) : Prop := m.interruptFlag = false ∧ ∃ l, m.SelfDeadlock l

/-- The running thread has no code left, and interrupts are disabled. -/
def AtHlt (m : Machine L A σ) : Prop :=
  m.interruptFlag = false ∧ ∃ flags, m.threads[m.running]? = some ⟨[], flags⟩

/-- What handlers leave alone; the locks that they take are held by the running thread. -/
structure Same (m n : Machine L A σ) : Prop where
  shared : n.shared = m.shared
  running : n.running = m.running
  length : n.threads.length = m.threads.length
  holder : ∀ l, n.holder l = m.holder l ∨ n.holder l = none ∨ n.holder l = some m.running

/-- The machine with other code of the running thread, with interrupts disabled. -/
def masked (m : Machine L A σ) (code : List (Instr L A)) (flags : List Bool)
    (holder : L → Option Nat) : Machine L A σ :=
  { m.setThread code flags with interruptFlag := false, holder }

theorem masked_thread {m : Machine L A σ} (hLt : m.running < m.threads.length)
    (code : List (Instr L A)) (flags : List Bool) (holder : L → Option Nat) :
    (m.masked code flags holder).threads[(m.masked code flags holder).running]? =
      some ⟨code, flags⟩ :=
  Table.set_self (List.getElem?_eq_getElem hLt)

theorem Same.refl (m : Machine L A σ) : m.Same m := ⟨rfl, rfl, rfl, fun _ => .inl rfl⟩

theorem Same.trans {m n o : Machine L A σ} (h : m.Same n) (h' : n.Same o) : m.Same o where
  shared := h'.shared.trans h.shared
  running := h'.running.trans h.running
  length := h'.length.trans h.length
  holder l := by
    rcases h'.holder l with hEq | hNone | hSelf
    · rw [hEq]
      exact h.holder l
    · exact .inr (.inl hNone)
    · exact .inr (.inr (h.running ▸ hSelf))

end Machine

section Resumes

variable [DecidableEq L] (P : Program L A σ I C)

/-- The code that runs comes to a state in `Q` on its own: until then interrupts are disabled, and
the shared state stays the same. -/
inductive Resumes (Q : Machine L A σ → Prop) : Machine L A σ → Prop
  | here {m : Machine L A σ} (h : Q m) : Resumes Q m
  | step {m m' : Machine L A σ} (hFlag : m.interruptFlag = false) (step : P.Step m .instr m')
      (same : m.Same m') (rest : Resumes Q m') : Resumes Q m

variable {P} {Q Q' : Machine L A σ → Prop} {X : Exceptions L A E} {m m' : Machine L A σ}
  {code : List (Instr L A)} {flags : List Bool} {holder : L → Option Nat}

theorem Resumes.bind (h : Resumes P Q m) (h' : ∀ n, m.Same n → Q n → Resumes P Q' n) :
    Resumes P Q' m := by
  induction h with
  | here hQ => exact h' _ (.refl _) hQ
  | step hFlag step same _ ih => exact .step hFlag step same (ih fun n hn => h' n (same.trans hn))

theorem Resumes.mono (h : Resumes P Q m) (h' : ∀ n, Q n → Q' n) : Resumes P Q' m :=
  h.bind fun n _ hn => .here (h' n hn)

section Masked

variable (m) (old code : List (Instr L A)) (oldFlags flags : List Bool) (holder : L → Option Nat)

theorem masked_saveFlag : P.execInstr (m.masked old oldFlags holder) code flags .saveFlag =
    some (m.masked code (false :: flags) holder) := by
  simp [Program.execInstr, Machine.masked, Machine.setThread]

theorem masked_maskIfSaved :
    P.execInstr (m.masked old oldFlags holder) code (false :: flags) .maskIfSaved =
      some (m.masked code (false :: flags) holder) := by
  simp [Program.execInstr, Machine.masked, Machine.setThread]

theorem masked_restoreFlag :
    P.execInstr (m.masked old oldFlags holder) code (false :: flags) .restoreFlag =
      some (m.masked code flags holder) := by
  simp [Program.execInstr, Machine.masked, Machine.setThread]

theorem masked_lock {l : L} (hFree : holder l = none) :
    P.execInstr (m.masked old oldFlags holder) code flags (.lock l) =
      some (m.masked code flags (Function.update holder l (some m.running))) := by
  simp [Program.execInstr, Machine.masked, Machine.setThread, hFree]

theorem masked_unlock (l : L) :
    P.execInstr (m.masked old oldFlags holder) code flags (.unlock l) =
      some (m.masked code flags (Function.update holder l none)) := by
  simp [Program.execInstr, Machine.masked, Machine.setThread]

theorem masked_act {a : A} (hAct : P.act a m.running m.shared = some m.shared)
    (hFull : P.count m.shared ≤ m.threads.length) :
    P.execInstr (m.masked old oldFlags holder) code flags (.act a) =
      some (m.masked code flags holder) := by
  simp [Program.execInstr, Machine.masked, Machine.setThread, hAct, Nat.sub_eq_zero_of_le hFull]

end Masked

section Section

variable (hLt : m.running < m.threads.length)
include hLt

/-- One instruction of a handler. -/
theorem Resumes.instr {instr : Instr L A} {code' : List (Instr L A)} {flags' : List Bool}
    {holder' : L → Option Nat}
    (hExec : P.execInstr (m.masked (instr :: code) flags holder) code flags instr =
      some (m.masked code' flags' holder'))
    (hHolder : ∀ l, holder' l = holder l ∨ holder' l = none ∨ holder' l = some m.running)
    (h : Resumes P Q (m.masked code' flags' holder')) :
    Resumes P Q (m.masked (instr :: code) flags holder) := by
  apply Resumes.step rfl ((exec_instr (Machine.masked_thread hLt _ _ _)).trans hExec) _ h
  exact ⟨rfl, rfl, by simp [Machine.masked, Machine.setThread], hHolder⟩

/-- A critical section whose lock is free. -/
theorem Resumes.body {l : L} {a : A} (hAct : P.act a m.running m.shared = some m.shared)
    (hFull : P.count m.shared ≤ m.threads.length) (hFree : holder l = none)
    (h : Resumes P Q (m.masked code flags holder)) :
    Resumes P Q (m.masked (withoutInterrupts (locked l [.act a]) ++ code) flags holder) := by
  have hSame : ∀ (h : L → Option Nat) (l' : L), h l' = h l' ∨ h l' = none ∨ h l' = some m.running :=
    fun _ _ => .inl rfl
  have hUpdate : ∀ (o : Option Nat) (h : L → Option Nat) (l' : L), o = none ∨ o = some m.running →
      Function.update h l o l' = h l' ∨ Function.update h l o l' = none ∨
        Function.update h l o l' = some m.running := by
    intro o h l' ho
    by_cases hl : l' = l
    · subst hl
      rw [Function.update_self]
      exact .inr ho
    · exact .inl (Function.update_of_ne hl _ _)
  have hUnlocked : Function.update (Function.update holder l (some m.running)) l none = holder := by
    rw [Function.update_idem, ← hFree, Function.update_eq_self]
  apply Resumes.instr hLt (masked_saveFlag _ _ _ _ _ _) (hSame _)
  apply Resumes.instr hLt (masked_maskIfSaved _ _ _ _ _ _) (hSame _)
  apply Resumes.instr hLt (masked_lock _ _ _ _ _ _ hFree) fun l' => hUpdate _ _ l' (.inr rfl)
  apply Resumes.instr hLt (masked_act _ _ _ _ _ _ hAct hFull) (hSame _)
  apply Resumes.instr hLt (masked_unlock _ _ _ _ _ _ l) fun l' => hUpdate _ _ l' (.inl rfl)
  rw [hUnlocked]
  exact Resumes.instr hLt (masked_restoreFlag _ _ _ _ _ _) (hSame _) h

/-- A critical section whose lock is held by the code below it. -/
theorem Resumes.blocked {l : L} {a : A} (hHeld : holder l = some m.running) :
    Resumes P Machine.Spins
      (m.masked (withoutInterrupts (locked l [.act a]) ++ code) flags holder) := by
  apply Resumes.instr hLt (masked_saveFlag _ _ _ _ _ _) fun _ => .inl rfl
  apply Resumes.instr hLt (masked_maskIfSaved _ _ _ _ _ _) fun _ => .inl rfl
  exact .here ⟨rfl, l, Machine.next_of_thread (Machine.masked_thread hLt _ _ _), hHeld⟩

theorem Resumes.sections {bodies : List (L × A)}
    (hAct : ∀ body ∈ bodies, P.act body.2 m.running m.shared = some m.shared)
    (hFull : P.count m.shared ≤ m.threads.length) :
    ((∀ body ∈ bodies, holder body.1 = none) → Resumes P Q (m.masked code flags holder) →
      Resumes P Q (m.masked (sections bodies ++ code) flags holder)) ∧
    ((∀ body ∈ bodies, holder body.1 = none ∨ holder body.1 = some m.running) →
      (∃ body ∈ bodies, holder body.1 ≠ none) →
      Resumes P Machine.Spins (m.masked (sections bodies ++ code) flags holder)) := by
  induction bodies with
  | nil => exact ⟨fun _ h => h, fun _ ⟨_, hMem, _⟩ => by cases hMem⟩
  | cons body bodies ih =>
    obtain ⟨ihFree, ihHeld⟩ := ih fun b hb => hAct b (List.mem_cons_of_mem _ hb)
    have hHead := hAct body List.mem_cons_self
    rw [Interrupts.sections, List.flatMap_cons, List.append_assoc]
    refine ⟨fun hFree h => ?_, fun hOwn hHeld => ?_⟩
    · apply Resumes.body hLt hHead hFull (hFree body List.mem_cons_self)
      exact ihFree (fun b hb => hFree b (List.mem_cons_of_mem _ hb)) h
    · rcases hOwn body List.mem_cons_self with hNone | hSelf
      · apply Resumes.body hLt hHead hFull hNone
        apply ihHeld fun b hb => hOwn b (List.mem_cons_of_mem _ hb)
        obtain ⟨b, hb, hNe⟩ := hHeld
        rcases List.mem_cons.mp hb with rfl | hb
        · exact absurd hNone hNe
        · exact ⟨b, hb, hNe⟩
      · exact .blocked hLt hSelf

end Section

end Resumes

/-! ### One exception -/

section Raise

variable [DecidableEq L] {P : Program L A σ I C} {X : Exceptions L A E} {m m' : Machine L A σ} {e : E}

omit [DecidableEq L] in
theorem Exceptions.raise_masked (h : X.raise m e = some m') :
    ∃ t, m.threads[m.running]? = some t ∧
      m' = m.masked (X.code e t.code) (m.interruptFlag :: t.flags) m.holder := by
  obtain ⟨t, ht, h⟩ := Option.bind_eq_some_iff.mp h
  exact ⟨t, ht, (Option.some.inj h).symm⟩

/-- A handler whose locks are free returns to the state that the exception came in, or it halts. A
handler with a lock that the running thread holds spins. -/
theorem resumes_raise (hSilent : X.Silent P) (hFull : P.count m.shared ≤ m.threads.length)
    (hRaise : X.raise m e = some m') :
    ((∀ body ∈ X.bodies e, m.holder body.1 = none) →
      Resumes P (fun n => if X.returns e then n = m else n.AtHlt) m') ∧
    ((∀ body ∈ X.bodies e, m.holder body.1 = none ∨ m.holder body.1 = some m.running) →
      (∃ body ∈ X.bodies e, m.holder body.1 ≠ none) → Resumes P Machine.Spins m') := by
  obtain ⟨⟨code, flags⟩, ht, rfl⟩ := Exceptions.raise_masked hRaise
  obtain ⟨hLt, hGet⟩ := List.getElem?_eq_some_iff.mp ht
  have hAct : ∀ body ∈ X.bodies e, P.act body.2 m.running m.shared = some m.shared :=
    fun body hBody => hSilent e body hBody m.running m.shared
  refine ⟨fun hFree => (Resumes.sections hLt hAct hFull).1 hFree ?_, fun hOwn hHeld =>
    (Resumes.sections (Q := Machine.Spins) hLt hAct hFull).2 hOwn hHeld⟩
  by_cases hReturns : X.returns e = true
  · -- The return restores the flag and the code of the thread.
    simp only [hReturns, if_true]
    have hSelf : m.threads.set m.running ⟨code, flags⟩ = m.threads := by
      rw [← hGet, List.set_getElem_self]
    refine .step rfl ((exec_instr (Machine.masked_thread hLt _ _ _)).trans rfl)
      ⟨rfl, rfl, by simp [Machine.masked, Machine.setThread], fun _ => .inl rfl⟩ (.here ?_)
    simp only [Machine.masked, Machine.setThread, List.set_set, hSelf]
  · simp only [hReturns]
    exact .here ⟨rfl, _, Machine.masked_thread hLt _ _ _⟩

omit [DecidableEq L] in
theorem Exceptions.same_raise (h : X.raise m e = some m') : m.Same m' := by
  obtain ⟨t, ht, rfl⟩ := Exceptions.raise_masked h
  exact ⟨rfl, rfl, by simp [Machine.masked, Machine.setThread], fun _ => .inl rfl⟩

end Raise

/-! ### Runs -/

section Runs

variable [DecidableEq L] {P : Program L A σ I C} {X : Exceptions L A E} {m m' n : Machine L A σ}
  {s s' : Interrupted L A σ} {label : Label I C}

/-- An instruction with interrupts disabled is the only step. -/
theorem step_instr_unique (hStep : P.Step m .instr m') (hFlag : m.interruptFlag = false)
    (hOther : P.Step m label n) : label = .instr ∧ n = m' := by
  obtain ⟨t, ht, hCases⟩ := Program.Step.inv hStep
  obtain ⟨u, hu, hCases'⟩ := Program.Step.inv hOther
  obtain rfl := Option.some.inj (ht.symm.trans hu)
  rcases hCases with ⟨_, _, -, hCode, -⟩ | ⟨_, hNot, -⟩ | ⟨_, hNot, -⟩
  · rcases hCases' with ⟨_, _, rfl, -⟩ | ⟨_, -, hSet, -⟩ | ⟨_, -, hNil, -⟩
    · exact ⟨rfl, Option.some.inj (hOther.symm.trans hStep)⟩
    · rw [hFlag] at hSet
      cases hSet
    · rw [hCode] at hNil
      cases hNil
  · cases hNot
  · cases hNot

theorem Exceptions.Step.inv (h : X.Step P s (.step label) s') :
    P.Step s.machine label s'.machine ∧ s'.halted = s.halted ∧
      (s.halted = true → ∀ c, label ≠ .call c) := by
  unfold Exceptions.Step Exceptions.exec at h
  cases label with
  | call c =>
    simp only at h
    split at h
    · cases h
    · rename_i hNot
      obtain ⟨machine, hExec, rfl⟩ := Option.map_eq_some_iff.mp h
      exact ⟨hExec, rfl, fun hHalted => absurd hHalted hNot⟩
  | instr | interrupt =>
    obtain ⟨machine, hExec, rfl⟩ := Option.map_eq_some_iff.mp h
    exact ⟨hExec, rfl, fun _ _ => by simp⟩

theorem Machine.AtHlt.isCall (h : m.AtHlt) (hStep : P.Step m label m') : ∃ c, label = .call c := by
  obtain ⟨hFlag, flags, hThread⟩ := h
  obtain ⟨t, ht, hCases⟩ := Program.Step.inv hStep
  obtain rfl := Option.some.inj (hThread.symm.trans ht)
  rcases hCases with ⟨_, _, -, hCode, -⟩ | ⟨_, -, hSet, -⟩ | ⟨c, rfl, -⟩
  · cases hCode
  · rw [hFlag] at hSet
    cases hSet
  · exact ⟨c, rfl⟩

/-- After `events` from `m₀`, the system is where a run without exceptions is that has the same
interrupts and calls, but for handlers that return there, spin or halt. -/
def Survives (P : Program L A σ I C) (m₀ : Machine L A σ) (events : List (Occurrence I C E))
    (s : Interrupted L A σ) : Prop :=
  ∃ labels m, Run P.Step m₀ labels m ∧
    labels.filter Label.isExternal = events.filterMap Occurrence.external ∧ m.Same s.machine ∧
    Resumes P (fun n => s.halted = false ∧ n = m ∨ n.Spins ∨ s.halted = true ∧ n.AtHlt) s.machine

/-- The running thread is the only one that holds a lock of a handler, and there is a machine thread
for each thread of the system. -/
def Exceptions.Ready (X : Exceptions L A E) (P : Program L A σ I C) (m : Machine L A σ) : Prop :=
  P.count m.shared ≤ m.threads.length ∧ ∀ e, ∀ body ∈ X.bodies e,
    m.holder body.1 = none ∨ m.holder body.1 = some m.running

omit [DecidableEq L] in
theorem Exceptions.Ready.same (h : X.Ready P m) (hSame : m.Same m') : X.Ready P m' := by
  refine ⟨by rw [hSame.shared, hSame.length]; exact h.1, fun e body hBody => ?_⟩
  rw [hSame.running]
  rcases hSame.holder body.1 with hEq | hOwn
  · rw [hEq]
    exact h.2 e body hBody
  · exact hOwn

variable {m₀ : Machine L A σ} {events : List (Occurrence I C E)} (hSilent : X.Silent P)
  (hReady : ∀ labels m, Run P.Step m₀ labels m → X.Ready P m)
include hSilent hReady

theorem Survives.step {event : Occurrence I C E} (h : Survives P m₀ events s)
    (hStep : X.Step P s event s') : Survives P m₀ (events ++ [event]) s' := by
  obtain ⟨labels, m, run, hLabels, hSame, hResumes⟩ := h
  cases event with
  | exception e =>
    obtain ⟨m', hRaise, rfl⟩ := Option.map_eq_some_iff.mp hStep
    obtain ⟨hFull, hOwn⟩ := (hReady labels m run).same hSame
    obtain ⟨hFree, hHeld⟩ := resumes_raise hSilent hFull hRaise
    refine ⟨labels, m, run, ?_, hSame.trans (Exceptions.same_raise hRaise), ?_⟩
    · rw [List.filterMap_append, hLabels]
      exact (List.append_nil _).symm
    · by_cases hAll : ∀ body ∈ X.bodies e, s.machine.holder body.1 = none
      · cases hReturns : X.returns e with
        | true =>
          rw [Bool.not_true, Bool.or_false]
          refine (hFree hAll).bind fun n _ hn => ?_
          rw [if_pos hReturns] at hn
          exact hn ▸ hResumes
        | false =>
          refine (hFree hAll).mono fun n hn => .inr (.inr ⟨by simp, ?_⟩)
          rwa [if_neg (by simp [hReturns])] at hn
      · exact (hHeld (hOwn e) (by simpa using hAll)).mono fun n hn => .inr (.inl hn)
  | step label =>
    obtain ⟨hBase, hHalted, hCall⟩ := Exceptions.Step.inv hStep
    unfold Survives
    rw [hHalted]
    cases hResumes with
    | here hEnd =>
      rcases hEnd with ⟨hNot, hEq⟩ | ⟨hFlag, l, hDead⟩ | ⟨hOn, hHlt⟩
      · rw [hEq] at hBase
        refine ⟨labels ++ [label], s'.machine, run.append (.single hBase), ?_, .refl _,
          .here (.inl ⟨hNot, rfl⟩)⟩
        rw [List.filter_append, List.filterMap_append, hLabels]
        cases label <;> rfl
      · exact absurd hBase (hDead.stuck hFlag label)
      · obtain ⟨c, rfl⟩ := hHlt.isCall hBase
        exact absurd rfl (hCall hOn c)
    | step hFlag hInstr hNext hRest =>
      obtain ⟨rfl, hEq⟩ := step_instr_unique hInstr hFlag hBase
      refine ⟨labels, m, run, ?_, hSame.trans (hEq ▸ hNext), hEq ▸ hRest⟩
      rw [List.filterMap_append, hLabels]
      exact (List.append_nil _).symm

theorem Survives.run {before : List (Occurrence I C E)} (h : Survives P m₀ before s)
    (run : Run (X.Step P) s events s') : Survives P m₀ (before ++ events) s' := by
  induction run generalizing before with
  | nil =>
    rw [List.append_nil]
    exact h
  | cons step _ ih =>
    rw [List.append_cons]
    exact ih (h.step hSilent hReady step)

theorem survives_run (run : Run (X.Step P) ⟨m₀, false⟩ events s) : Survives P m₀ events s :=
  have hStart : Survives P m₀ ([] : List (Occurrence I C E)) ⟨m₀, false⟩ :=
    ⟨[], m₀, .nil _, rfl, .refl _, .here (.inl ⟨rfl, rfl⟩)⟩
  hStart.run hSilent hReady run

end Runs

end RixOs.ProofKit.Interrupts

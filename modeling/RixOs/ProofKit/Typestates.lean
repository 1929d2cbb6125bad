import RixOs.ProofKit.Interrupts

/-! Threads that follow an automaton.  The instructions that a thread has left take it through the
states of a `Typestate`, and an assertion says what a state of it means for the shared state, the
locks and the thread that runs.  Where each instruction keeps the assertions of all threads, they
hold in every state of the machine, whatever the interrupts and the switches between threads. -/

namespace RixOs.ProofKit.Interrupts

variable {L A σ I C Q : Type}

structure Typestate (L A Q : Type) where
  next : Q → Instr L A → Option Q
  /-- The state of a thread that has no code left. -/
  idle : Q

namespace Typestate

variable (T : Typestate L A Q)

def Follows : Q → List (Instr L A) → Prop
  | q, [] => q = T.idle
  | q, instr :: code => ∃ q', T.next q instr = some q' ∧ Follows q' code

/-- A piece of code that ends in the state that it starts in. -/
def Stays (q : Q) (body : List (Instr L A)) : Prop :=
  ∀ rest, T.Follows q rest → T.Follows q (body ++ rest)

variable {T} {q : Q} {body body' : List (Instr L A)}

theorem Stays.nil : T.Stays q [] := fun _ h => h

theorem Stays.cons {instr : Instr L A} (h : T.next q instr = some q) (hRest : T.Stays q body) :
    T.Stays q (instr :: body) := fun rest h' => ⟨q, h, hRest rest h'⟩

theorem Stays.append (h : T.Stays q body) (h' : T.Stays q body') : T.Stays q (body ++ body') := by
  intro rest hRest
  rw [List.append_assoc]
  exact h _ (h' rest hRest)

theorem Stays.locked {l : L} (hLock : T.next q (.lock l) = some q)
    (h : T.Stays q body) (hUnlock : T.next q (.unlock l) = some q) :
    T.Stays q (Interrupts.locked l body) := .cons hLock (h.append (.cons hUnlock .nil))

theorem Stays.withoutInterrupts (hSave : T.next q .saveFlag = some q)
    (hMask : T.next q .maskIfSaved = some q) (h : T.Stays q body)
    (hRestore : T.next q .restoreFlag = some q) :
    T.Stays q (Interrupts.withoutInterrupts body) :=
  .cons hSave (.cons hMask (h.append (.cons hRestore .nil)))

theorem Stays.follows (h : T.Stays T.idle body) : T.Follows T.idle body := by
  rw [← List.append_nil body]
  exact h [] rfl

end Typestate

/-- What assertions speak about: all of a machine but the code of the threads and the flag. -/
structure View (L σ : Type) where
  shared : σ
  running : Nat
  holder : L → Option Nat

def Machine.view (m : Machine L A σ) : View L σ := ⟨m.shared, m.running, m.holder⟩

theorem Machine.thread_of_next {m : Machine L A σ} {instr : Instr L A} (h : m.next = some instr) :
    ∃ code flags, m.threads[m.running]? = some ⟨instr :: code, flags⟩ := by
  obtain ⟨⟨_, flags⟩, ht, hHead⟩ := Option.bind_eq_some_iff.mp h
  obtain ⟨code, rfl⟩ := List.head?_eq_some_iff.mp hHead
  exact ⟨code, flags, ht⟩

theorem Machine.next_of_thread {m : Machine L A σ} {instr : Instr L A} {code : List (Instr L A)}
    {flags : List Bool} (h : m.threads[m.running]? = some ⟨instr :: code, flags⟩) :
    m.next = some instr := by
  rw [Machine.next, h]
  rfl

theorem call_step [DecidableEq L] {P : Program L A σ I C} {m : Machine L A σ} {flags : List Bool}
    (hThread : m.threads[m.running]? = some ⟨[], flags⟩) (c : C) :
    P.Step m (.call c) (m.setThread (P.call c) flags) := by
  unfold Program.Step Program.exec
  rw [hThread]
  rfl

/-- What comes from outside the code: the interrupts and the calls. -/
def Label.isExternal : Label I C → Bool
  | .instr => false
  | _ => true

section Assertions

variable [DecidableEq L]

/-- The assertions of a system: `Good` holds always, `Assert v i q` of a thread `i` in the state `q`
of the automaton, and interrupts are taken in the states `Interruptible`. -/
structure Keeping (T : Typestate L A Q) (P : Program L A σ I C) (Good : View L σ → Prop)
    (Assert : View L σ → Nat → Q → Prop) (Interruptible : Q → Prop) : Prop where
  /-- An instruction of the running thread keeps the assertions of all threads. -/
  instr : ∀ {m m' : Machine L A σ} {instr : Instr L A} {code : List (Instr L A)}
    {flags : List Bool} {q q' : Q}, Good m.view → Assert m.view m.running q →
    T.next q instr = some q' → P.execInstr m code flags instr = some m' →
    Good m'.view ∧ Assert m'.view m.running q' ∧
      ∀ i ≠ m.running, ∀ p, Assert m.view i p → Assert m'.view i p
  /-- Nothing is asserted of a thread that has just been added. -/
  fresh : ∀ {v : View L σ} {i : Nat}, i ≠ v.running → Assert v i T.idle
  count_act : ∀ {v : View L σ} {a : A} {q q' : Q} {s : σ}, Good v → Assert v v.running q →
    T.next q (.act a) = some q' → P.act a v.running v.shared = some s → P.count v.shared ≤ P.count s
  /-- A switch leads to a thread that exists. -/
  switch_lt : ∀ {v : View L σ} {q q' : Q}, Good v → Assert v v.running q →
    T.next q .switch = some q' → P.count (P.switch v.shared v.running).1 = P.count v.shared ∧
      (P.switch v.shared v.running).2 < P.count v.shared
  handler : ∀ i q, Interruptible q → T.Stays q (P.handler i ++ [.iret])
  call : ∀ c, T.Follows T.idle (P.call c)
  start : T.Follows T.idle P.start

/-- The running thread exists, there is a machine thread for each thread of the system, and each
follows the automaton from a state whose assertion holds. -/
structure Typed (T : Typestate L A Q) (P : Program L A σ I C) (Good : View L σ → Prop)
    (Assert : View L σ → Nat → Q → Prop) (m : Machine L A σ) : Prop where
  good : Good m.view
  running_lt : m.running < m.threads.length
  length : m.threads.length = P.count m.shared
  thread : ∀ (i : Nat) (t : Thread L A), m.threads[i]? = some t →
    ∃ q, T.Follows q t.code ∧ Assert m.view i q

variable {T : Typestate L A Q} {P : Program L A σ I C} {Good : View L σ → Prop}
  {Assert : View L σ → Nat → Q → Prop} {Interruptible : Q → Prop} {m m' : Machine L A σ}

omit [DecidableEq L] in
theorem Typed.running_thread (h : Typed T P Good Assert m) :
    ∃ code flags, m.threads[m.running]? = some ⟨code, flags⟩ :=
  ⟨_, _, List.getElem?_eq_getElem h.running_lt⟩

omit [DecidableEq L] in
/-- The running thread goes on with other code and the view is the same. -/
theorem Typed.recode (h : Typed T P Good Assert m) {code : List (Instr L A)} {flags : List Bool}
    {q : Q} (hView : m'.view = m.view) (hThreads : m'.threads = m.threads.set m.running ⟨code, flags⟩)
    (hFollows : T.Follows q code) (hAssert : Assert m.view m.running q) :
    Typed T P Good Assert m' := by
  have hShared : m'.shared = m.shared := congrArg View.shared hView
  have hRunning : m'.running = m.running := congrArg View.running hView
  refine ⟨by rw [hView]; exact h.good, ?_, ?_, fun i t ht => ?_⟩
  · rw [hRunning, hThreads, List.length_set]
    exact h.running_lt
  · rw [hThreads, List.length_set, hShared]
    exact h.length
  · rw [hThreads] at ht
    rw [hView]
    rcases Table.set_cases ht with ⟨rfl, rfl⟩ | ⟨-, hOld⟩
    · exact ⟨q, hFollows, hAssert⟩
    · exact h.thread i t hOld

/-- What an instruction does to the threads: the running one goes on, an action may add others, and
a switch changes which one runs. -/
theorem execInstr_cases {instr : Instr L A} {code : List (Instr L A)} {flags : List Bool}
    (hExec : P.execInstr m code flags instr = some m') :
    ∃ flags', (m'.threads = m.threads.set m.running ⟨code, flags'⟩ ∧ m'.shared = m.shared ∧
        m'.running = m.running) ∨
      (∃ a, instr = .act a ∧ P.act a m.running m.shared = some m'.shared ∧
        m'.running = m.running ∧ m'.threads = m.threads.set m.running ⟨code, flags'⟩ ++
          List.replicate (P.count m'.shared - m.threads.length) ⟨P.start, []⟩) ∨
      (instr = .switch ∧ m'.threads = m.threads.set m.running ⟨code, flags'⟩ ∧
        (m'.shared, m'.running) = P.switch m.shared m.running) := by
  cases instr with
  | lock l =>
    simp only [Program.execInstr] at hExec
    split at hExec
    · obtain rfl := Option.some.inj hExec
      exact ⟨flags, .inl ⟨rfl, rfl, rfl⟩⟩
    · cases hExec
  | unlock | saveFlag | sti =>
    obtain rfl := Option.some.inj hExec
    exact ⟨_, .inl ⟨rfl, rfl, rfl⟩⟩
  | maskIfSaved | restoreFlag | iret =>
    cases flags with
    | nil => cases hExec
    | cons =>
      obtain rfl := Option.some.inj hExec
      exact ⟨_, .inl ⟨rfl, rfl, rfl⟩⟩
  | act a =>
    obtain ⟨shared, hAct, rfl⟩ := Option.map_eq_some_iff.mp hExec
    exact ⟨flags, .inr (.inl ⟨a, rfl, hAct, rfl, rfl⟩)⟩
  | switch =>
    obtain rfl := Option.some.inj hExec
    exact ⟨flags, .inr (.inr ⟨rfl, rfl, rfl⟩)⟩

/-- What an instruction does to the view. -/
theorem execInstr_view {instr : Instr L A} {code : List (Instr L A)} {flags : List Bool}
    (hExec : P.execInstr m code flags instr = some m') :
    ((∀ a, instr ≠ .act a) ∧ instr ≠ .switch ∧
      (m'.view = m.view ∨
        (∃ l, instr = .lock l ∧ m.holder l = none ∧ m'.view =
          { m.view with holder := Function.update m.holder l (some m.running) }) ∨
        ∃ l, instr = .unlock l ∧ m'.view =
          { m.view with holder := Function.update m.holder l none })) ∨
      (∃ a s, instr = .act a ∧ P.act a m.running m.shared = some s ∧
        m'.view = { m.view with shared := s }) ∨
      (instr = .switch ∧ m'.view =
        ⟨(P.switch m.shared m.running).1, (P.switch m.shared m.running).2, m.holder⟩) := by
  cases instr with
  | lock l =>
    simp only [Program.execInstr] at hExec
    split at hExec
    · obtain rfl := Option.some.inj hExec
      exact .inl ⟨by simp, by simp, .inr (.inl ⟨l, rfl, ‹_›, rfl⟩)⟩
    · cases hExec
  | unlock l =>
    obtain rfl := Option.some.inj hExec
    exact .inl ⟨by simp, by simp, .inr (.inr ⟨l, rfl, rfl⟩)⟩
  | saveFlag | sti =>
    obtain rfl := Option.some.inj hExec
    exact .inl ⟨by simp, by simp, .inl rfl⟩
  | maskIfSaved | restoreFlag | iret =>
    cases flags with
    | nil => cases hExec
    | cons =>
      obtain rfl := Option.some.inj hExec
      exact .inl ⟨by simp, by simp, .inl rfl⟩
  | act a =>
    obtain ⟨shared, hAct, rfl⟩ := Option.map_eq_some_iff.mp hExec
    exact .inr (.inl ⟨a, shared, rfl, hAct, rfl⟩)
  | switch =>
    obtain rfl := Option.some.inj hExec
    exact .inr (.inr ⟨rfl, rfl⟩)

/-- The threads after an instruction: the running one has come to `code`, and new ones are at their
start. -/
theorem Typed.threads (h : Typed T P Good Assert m) (hP : Keeping T P Good Assert Interruptible)
    {instr : Instr L A} {code : List (Instr L A)} {flags : List Bool} {q q' : Q}
    (hAssert : Assert m.view m.running q) (hNext : T.next q instr = some q')
    (hExec : P.execInstr m code flags instr = some m') :
    m'.running < m'.threads.length ∧ m'.threads.length = P.count m'.shared ∧
      ∃ flags' n, m'.threads =
        m.threads.set m.running ⟨code, flags'⟩ ++ List.replicate n ⟨P.start, []⟩ := by
  have hLt := h.running_lt
  have hLength := h.length
  obtain ⟨flags', ⟨hThreads, hShared, hRunning⟩ | ⟨a, rfl, hAct, hRunning, hThreads⟩ |
    ⟨rfl, hThreads, hSwitch⟩⟩ := execInstr_cases hExec
  · refine ⟨?_, ?_, flags', 0, by simpa using hThreads⟩
    · rwa [hRunning, hThreads, List.length_set]
    · rwa [hThreads, List.length_set, hShared]
  · have hCount : P.count m.shared ≤ P.count m'.shared :=
      hP.count_act h.good hAssert hNext hAct
    refine ⟨?_, ?_, flags', _, hThreads⟩ <;>
      simp only [hRunning, hThreads, List.length_append, List.length_set, List.length_replicate] <;>
      omega
  · obtain ⟨hCount, hRange⟩ := hP.switch_lt h.good hAssert hNext
    obtain ⟨hShared', hRunning'⟩ := Prod.mk.inj hSwitch
    have hCount' : P.count m'.shared = P.count m.shared := by
      rw [hShared']
      exact hCount
    refine ⟨?_, ?_, flags', 0, by simpa using hThreads⟩
    · rw [hThreads, List.length_set, hLength, hRunning']
      exact hRange
    · rw [hThreads, List.length_set, hCount', hLength]

theorem Typed.instr (hP : Keeping T P Good Assert Interruptible) (h : Typed T P Good Assert m)
    {instr : Instr L A} {code : List (Instr L A)} {flags : List Bool}
    (hThread : m.threads[m.running]? = some ⟨instr :: code, flags⟩)
    (hExec : P.execInstr m code flags instr = some m') : Typed T P Good Assert m' := by
  obtain ⟨q, ⟨q', hNext, hFollows⟩, hAssert⟩ := h.thread _ _ hThread
  obtain ⟨hGood, hRun, hOthers⟩ := hP.instr h.good hAssert hNext hExec
  obtain ⟨hLt, hLength, flags', n, hThreads⟩ := h.threads hP hAssert hNext hExec
  refine ⟨hGood, hLt, hLength, fun i t ht => ?_⟩
  rw [hThreads] at ht
  rcases Table.append_cases ht with hSet | ⟨hNew, hMem⟩
  · rcases Table.set_cases hSet with ⟨rfl, rfl⟩ | ⟨hNe, hOld⟩
    · exact ⟨q', hFollows, hRun⟩
    · obtain ⟨p, hp, hAssert⟩ := h.thread i t hOld
      exact ⟨p, hp, hOthers i hNe p hAssert⟩
  · obtain ⟨-, rfl⟩ := List.mem_replicate.mp hMem
    rw [List.length_set] at hNew
    have hNe : i ≠ m.view.running := Nat.ne_of_gt (Nat.lt_of_lt_of_le h.running_lt hNew)
    exact ⟨T.idle, hP.start, hOthers i hNe _ (hP.fresh hNe)⟩

/-- Every step of the machine keeps the assertions, where the flag is set in the states of the
automaton that can be interrupted only. -/
theorem Typed.step (hP : Keeping T P Good Assert Interruptible) (h : Typed T P Good Assert m)
    (hFlag : m.interruptFlag = true → ∀ t q, m.threads[m.running]? = some t →
      T.Follows q t.code → Assert m.view m.running q → Interruptible q)
    {label : Label I C} (hStep : P.Step m label m') : Typed T P Good Assert m' := by
  obtain ⟨⟨code, flags⟩, ht, hCases⟩ := Program.Step.inv hStep
  rcases hCases with ⟨instr, rest, rfl, rfl, hExec⟩ | ⟨i, rfl, hSet, rfl⟩ | ⟨c, rfl, rfl, rfl⟩
  · exact h.instr hP ht hExec
  · obtain ⟨q, hFollows, hAssert⟩ := h.thread _ _ ht
    have hStays := hP.handler i q (hFlag hSet _ q ht hFollows hAssert) code hFollows
    rw [List.append_assoc] at hStays
    exact h.recode rfl rfl hStays hAssert
  · obtain ⟨q, rfl, hAssert⟩ := h.thread _ _ ht
    exact h.recode rfl rfl (hP.call c) hAssert

end Assertions

end RixOs.ProofKit.Interrupts

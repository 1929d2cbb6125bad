import RixOs.ProofKit.Typestates

/-! Atomicity.  An action may be executed piece by piece.  Where the pieces of an action are executed
with interrupts disabled, no handler and no other thread sees it half done: every run of the pieces
is a run of whole actions, up to the action that the running thread is in the middle of.  And where
the actions of one program say more than those of another, its runs are runs of the other when that
is forgotten. -/

namespace RixOs.ProofKit.Interrupts

variable {L A B σ τ I C D : Type}

/-! ### Forgetting what actions say -/

section Map

variable (f : A → B) (g : σ → τ) (h : C → D)

def Instr.map : Instr L A → Instr L B
  | .lock l => .lock l
  | .unlock l => .unlock l
  | .saveFlag => .saveFlag
  | .maskIfSaved => .maskIfSaved
  | .restoreFlag => .restoreFlag
  | .sti => .sti
  | .iret => .iret
  | .act a => .act (f a)
  | .switch => .switch

def Thread.map (t : Thread L A) : Thread L B := ⟨t.code.map (Instr.map f), t.flags⟩

def Label.map : Label I C → Label I D
  | .instr => .instr
  | .interrupt i => .interrupt i
  | .call c => .call (h c)

def Machine.map (m : Machine L A σ) : Machine L B τ where
  shared := g m.shared
  running := m.running
  interruptFlag := m.interruptFlag
  holder := m.holder
  threads := m.threads.map (Thread.map f)

/-- `P'` is `P` with `f`, `g` and `h` applied to the actions, the shared state and the calls. -/
structure Forgets (P : Program L A σ I C) (P' : Program L B τ I D) : Prop where
  act : ∀ a i s, P'.act (f a) i (g s) = (P.act a i s).map g
  switch : ∀ s i, P'.switch (g s) i = (g (P.switch s i).1, (P.switch s i).2)
  count : ∀ s, P'.count (g s) = P.count s
  start : P'.start = P.start.map (Instr.map f)
  handler : ∀ i, P'.handler i = (P.handler i).map (Instr.map f)
  call : ∀ c, P'.call (h c) = (P.call c).map (Instr.map f)

variable {f g h} [DecidableEq L] {P : Program L A σ I C} {P' : Program L B τ I D}
  {m m' : Machine L A σ}

omit [DecidableEq L] in
theorem Machine.map_setThread (code : List (Instr L A)) (flags : List Bool) :
    (m.setThread code flags).map f g = (m.map f g).setThread (code.map (Instr.map f)) flags := by
  simp [Machine.map, Machine.setThread, List.map_set, Thread.map]

theorem Forgets.execInstr (hP : Forgets f g h P P') (code : List (Instr L A)) (flags : List Bool)
    (instr : Instr L A) :
    P'.execInstr (m.map f g) (code.map (Instr.map f)) flags (instr.map f) =
      (P.execInstr m code flags instr).map (Machine.map f g) := by
  cases instr with
  | lock l =>
    simp only [Instr.map, Program.execInstr, ← Machine.map_setThread]
    by_cases hFree : m.holder l = none
    · rw [if_pos hFree, if_pos (show (m.map f g).holder l = none from hFree)]
      rfl
    · rw [if_neg hFree, if_neg (show ¬(m.map f g).holder l = none from hFree)]
      rfl
  | unlock | saveFlag | sti =>
    simp only [Instr.map, Program.execInstr, ← Machine.map_setThread]
    rfl
  | maskIfSaved | restoreFlag | iret =>
    cases flags with
    | nil => rfl
    | cons =>
      simp only [Instr.map, Program.execInstr, ← Machine.map_setThread]
      rfl
  | act a =>
    simp only [Instr.map, Program.execInstr]
    rw [show (m.map f g).shared = g m.shared from rfl, hP.act, Option.map_map, Option.map_map]
    congr 1
    funext s
    simp [Machine.map, hP.count, hP.start, List.map_set, Thread.map]
  | switch =>
    have hSwitch : P'.switch (m.map f g).shared (m.map f g).running =
      (g (P.switch m.shared m.running).1, (P.switch m.shared m.running).2) := hP.switch _ _
    show some { (m.map f g).setThread (code.map (Instr.map f)) flags with
      shared := (P'.switch (m.map f g).shared (m.map f g).running).1
      running := (P'.switch (m.map f g).shared (m.map f g).running).2 } = _
    rw [hSwitch, ← Machine.map_setThread]
    rfl

theorem Forgets.exec (hP : Forgets f g h P P') (label : Label I C) :
    P'.exec (m.map f g) (label.map h) = (P.exec m label).map (Machine.map f g) := by
  unfold Program.exec
  rw [show (m.map f g).threads[(m.map f g).running]? =
    m.threads[m.running]?.map (Thread.map f) from List.getElem?_map]
  cases m.threads[m.running]? with
  | none => rfl
  | some t =>
    obtain ⟨code, flags⟩ := t
    cases label with
    | instr =>
      cases code with
      | nil => rfl
      | cons instr code => exact hP.execInstr code flags instr
    | interrupt i =>
      show (if m.interruptFlag then _ else _) = Option.map _ (if m.interruptFlag then _ else _)
      split
      · simp [Machine.map, Machine.setThread, List.map_set, Thread.map, hP.handler, Instr.map]
      · rfl
    | call c =>
      cases code with
      | nil => simp [Label.map, Thread.map, Machine.map_setThread, hP.call]
      | cons => rfl

theorem Forgets.run (hP : Forgets f g h P P') {labels : List (Label I C)}
    (run : Run P.Step m labels m') :
    Run P'.Step (m.map f g) (labels.map (Label.map h)) (m'.map f g) := by
  induction run with
  | nil => exact .nil _
  | cons step _ ih =>
    refine .cons ?_ ih
    rw [Program.Step, hP.exec, show P.exec _ _ = some _ from step]
    rfl

end Map

/-! ### Actions with interrupts disabled -/

/-- The interrupt flag and the saved flags after an instruction. -/
def Instr.flags : Instr L A → Bool → List Bool → Option (Bool × List Bool)
  | .saveFlag, flag, flags => some (flag, flag :: flags)
  | .maskIfSaved, flag, saved :: flags => some (flag && !saved, saved :: flags)
  | .restoreFlag, flag, saved :: flags => some (flag || saved, flags)
  | .iret, _, saved :: flags => some (saved, flags)
  | .maskIfSaved, _, [] | .restoreFlag, _, [] | .iret, _, [] => none
  | .sti, _, flags => some (true, flags)
  | .lock _, flag, flags | .unlock _, flag, flags | .act _, flag, flags | .switch, flag, flags =>
    some (flag, flags)

section Masks

variable (marked : A → Bool)

/-- Whether an instruction asks for interrupts to be disabled. -/
def Instr.isMasked : Instr L A → Bool
  | .act a => marked a
  | .switch => true
  | _ => false

/-- Code that executes marked actions, and switches, with interrupts disabled only. -/
def Masks : List (Instr L A) → Bool → List Bool → Prop
  | [], _, _ => True
  | instr :: code, flag, flags =>
    (instr.isMasked marked = true → flag = false) ∧
      match instr.flags flag flags with
      | some (flag', flags') => Masks code flag' flags'
      | none => True

/-- A piece of code that can stand anywhere, for `flag` the interrupt flag. -/
def Seals (flag : Bool) (body : List (Instr L A)) : Prop :=
  ∀ rest flags, Masks marked rest flag flags → Masks marked (body ++ rest) flag flags

structure Sealing (P : Program L A σ I C) : Prop where
  handler : ∀ i, Seals marked false (P.handler i)
  call : ∀ c flag, Seals marked flag (P.call c)
  start : Masks marked P.start false []
  /-- A switch adds no threads. -/
  switch : ∀ s i, P.count (P.switch s i).1 ≤ P.count s

/-- The threads execute marked actions with interrupts disabled, and there is one for each thread of
the system. -/
structure Sealed (P : Program L A σ I C) (m : Machine L A σ) : Prop where
  running : ∀ t, m.threads[m.running]? = some t → Masks marked t.code m.interruptFlag t.flags
  waiting : ∀ (i : Nat) (t : Thread L A), i ≠ m.running → m.threads[i]? = some t →
    Masks marked t.code false t.flags
  full : P.count m.shared ≤ m.threads.length

variable {marked} {flag : Bool} {body body' : List (Instr L A)}

theorem Seals.nil : Seals marked flag ([] : List (Instr L A)) := fun _ _ h => h

theorem Seals.append (h : Seals marked flag body) (h' : Seals marked flag body') :
    Seals marked flag (body ++ body') := by
  intro rest flags hRest
  rw [List.append_assoc]
  exact h _ _ (h' _ _ hRest)

theorem Seals.act {a : A} (h : marked a = true → flag = false) :
    Seals marked flag [(Instr.act a : Instr L A)] := fun _ _ hRest => ⟨h, hRest⟩

theorem Seals.locked (l : L) (h : Seals marked flag body) :
    Seals marked flag (Interrupts.locked l body) := by
  intro rest flags hRest
  rw [Interrupts.locked, List.cons_append, List.append_assoc]
  exact ⟨by simp [Instr.isMasked], h _ _ ⟨by simp [Instr.isMasked], hRest⟩⟩

theorem Seals.withoutInterrupts (h : Seals marked false body) :
    Seals marked flag (Interrupts.withoutInterrupts body) := by
  intro rest flags hRest
  rw [Interrupts.withoutInterrupts, List.cons_append, List.cons_append, List.append_assoc]
  refine ⟨by simp [Instr.isMasked], by simp [Instr.isMasked], ?_⟩
  show Masks marked (body ++ ([.restoreFlag] ++ rest)) (flag && !flag) (flag :: flags)
  rw [Bool.and_not_self]
  apply h
  refine ⟨by simp [Instr.isMasked], ?_⟩
  show Masks marked rest (false || flag) flags
  rwa [Bool.false_or]

end Masks

section Sealed

variable [DecidableEq L] {marked : A → Bool} {P : Program L A σ I C} {m m' : Machine L A σ}

/-- What an instruction other than a switch does to the threads and the flags. -/
theorem execInstr_flags {instr : Instr L A} {code : List (Instr L A)} {flags : List Bool}
    (hExec : P.execInstr m code flags instr = some m') (hSwitch : instr ≠ .switch) :
    ∃ flags' new, instr.flags m.interruptFlag flags = some (m'.interruptFlag, flags') ∧
      m'.running = m.running ∧ m'.threads = m.threads.set m.running ⟨code, flags'⟩ ++ new ∧
      (∀ t ∈ new, t = ⟨P.start, []⟩) ∧
      (P.count m.shared ≤ m.threads.length → P.count m'.shared ≤ m'.threads.length) := by
  have hFull : ∀ {m' : Machine L A σ} {flags' : List Bool}, m'.shared = m.shared →
      m'.threads = m.threads.set m.running ⟨code, flags'⟩ →
      P.count m.shared ≤ m.threads.length → P.count m'.shared ≤ m'.threads.length := by
    intro m' flags' hShared hThreads h
    rwa [hShared, hThreads, List.length_set]
  cases instr with
  | lock l =>
    simp only [Program.execInstr] at hExec
    split at hExec
    · obtain rfl := Option.some.inj hExec
      exact ⟨flags, [], rfl, rfl, (List.append_nil _).symm, by simp, hFull rfl rfl⟩
    · cases hExec
  | unlock | saveFlag | sti =>
    obtain rfl := Option.some.inj hExec
    exact ⟨_, [], rfl, rfl, (List.append_nil _).symm, by simp, hFull rfl rfl⟩
  | maskIfSaved | restoreFlag | iret =>
    cases flags with
    | nil => cases hExec
    | cons =>
      obtain rfl := Option.some.inj hExec
      exact ⟨_, [], rfl, rfl, (List.append_nil _).symm, by simp, hFull rfl rfl⟩
  | act a =>
    obtain ⟨shared, -, rfl⟩ := Option.map_eq_some_iff.mp hExec
    refine ⟨flags, _, rfl, rfl, rfl, fun t ht => (List.mem_replicate.mp ht).2, fun _ => ?_⟩
    simp only [List.length_append, List.length_set, List.length_replicate]
    omega
  | switch => exact absurd rfl hSwitch

omit [DecidableEq L] in
/-- The running thread goes on with other code, and threads may be added. -/
theorem Sealed.update (hP : Sealing marked P) (h : Sealed marked P m) {t : Thread L A}
    (hThread : m.threads[m.running]? = some t) {code : List (Instr L A)} {flags : List Bool}
    {new : List (Thread L A)} (hRunning : m'.running = m.running)
    (hThreads : m'.threads = m.threads.set m.running ⟨code, flags⟩ ++ new)
    (hNew : ∀ t ∈ new, t = ⟨P.start, []⟩) (hMasks : Masks marked code m'.interruptFlag flags)
    (hFull : P.count m'.shared ≤ m'.threads.length) : Sealed marked P m' := by
  refine ⟨fun u hu => ?_, fun i u hi hu => ?_, hFull⟩
  · rw [hRunning, hThreads, Table.append_old (Table.set_self hThread)] at hu
    obtain rfl := Option.some.inj hu
    exact hMasks
  · rw [hRunning] at hi
    rw [hThreads] at hu
    rcases Table.append_cases hu with hOld | ⟨-, hMem⟩
    · rw [List.getElem?_set_ne (Ne.symm hi)] at hOld
      exact h.waiting i u hi hOld
    · obtain rfl := hNew u hMem
      exact hP.start

theorem Sealed.step (hP : Sealing marked P) (h : Sealed marked P m) {label : Label I C}
    (hStep : P.Step m label m') : Sealed marked P m' := by
  obtain ⟨⟨code, flags⟩, ht, hCases⟩ := Program.Step.inv hStep
  have hMasks := h.running _ ht
  rcases hCases with ⟨instr, rest, rfl, rfl, hExec⟩ | ⟨i, rfl, hFlag, rfl⟩ | ⟨c, rfl, rfl, rfl⟩
  · by_cases hSwitch : instr = .switch
    · -- The thread that is switched to goes on with the flag clear.
      subst hSwitch
      obtain rfl := Option.some.inj hExec
      have hClear : m.interruptFlag = false := hMasks.1 rfl
      have hAll : ∀ (i : Nat) (t : Thread L A),
          (m.threads.set m.running ⟨rest, flags⟩)[i]? = some t → Masks marked t.code false t.flags := by
        intro i t ht
        rcases Table.set_cases ht with ⟨-, rfl⟩ | ⟨hNe, hOld⟩
        · exact hClear ▸ hMasks.2
        · exact h.waiting i t hNe hOld
      refine ⟨fun t ht => ?_, fun i t _ ht => hAll i t ht, ?_⟩
      · show Masks marked t.code m.interruptFlag t.flags
        rw [hClear]
        exact hAll _ t ht
      · refine Nat.le_trans (hP.switch _ _) ?_
        simpa [Machine.setThread] using h.full
    · obtain ⟨flags', new, hFlags, hRunning, hThreads, hNew, hFull⟩ := execInstr_flags hExec hSwitch
      refine h.update hP ht hRunning hThreads hNew ?_ (hFull h.full)
      have hRest := hMasks.2
      rwa [hFlags] at hRest
  · rw [hFlag] at hMasks
    refine h.update hP ht rfl (List.append_nil _).symm (by simp) ?_ ?_
    · exact hP.handler i _ _ ⟨by simp [Instr.isMasked], hMasks⟩
    · simpa [Machine.setThread] using h.full
  · refine h.update hP ht rfl (List.append_nil _).symm (by simp) ?_ ?_
    · rw [← List.append_nil (P.call c)]
      exact hP.call c _ _ _ trivial
    · simpa [Machine.setThread] using h.full

end Sealed

/-! ### Executing actions piece by piece -/

section Expand

variable (pieces : A → List B)

def Instr.expand : Instr L A → List (Instr L B)
  | .act a => (pieces a).map .act
  | .lock l => [.lock l]
  | .unlock l => [.unlock l]
  | .saveFlag => [.saveFlag]
  | .maskIfSaved => [.maskIfSaved]
  | .restoreFlag => [.restoreFlag]
  | .sti => [.sti]
  | .iret => [.iret]
  | .switch => [.switch]

def expand (code : List (Instr L A)) : List (Instr L B) := code.flatMap (Instr.expand pieces)

def Thread.expand (t : Thread L A) : Thread L B := ⟨Interrupts.expand pieces t.code, t.flags⟩

def Machine.expand (m : Machine L A σ) : Machine L B σ where
  shared := m.shared
  running := m.running
  interruptFlag := m.interruptFlag
  holder := m.holder
  threads := m.threads.map (Thread.expand pieces)

def Program.expand (P : Program L A σ I C) (act : B → Nat → σ → Option σ) :
    Program L B σ I C where
  act := act
  switch := P.switch
  count := P.count
  start := Interrupts.expand pieces P.start
  handler i := Interrupts.expand pieces (P.handler i)
  call c := Interrupts.expand pieces (P.call c)

/-- Pieces one after the other. -/
def runPieces (act : B → Nat → σ → Option σ) (i : Nat) : σ → List B → Option σ
  | s, [] => some s
  | s, b :: bs => (act b i s).bind fun s => runPieces act i s bs

/-- The actions that are executed in more than one piece. -/
def isSplit (a : A) : Bool := 1 < (pieces a).length

/-- The pieces of an action amount to it, and they add no threads. -/
structure Splits (P : Program L A σ I C) (act : B → Nat → σ → Option σ) : Prop where
  runs : ∀ a i s, P.act a i s = runPieces act i s (pieces a)
  count : ∀ a, (pieces a).length ≠ 1 → ∀ b ∈ pieces a, ∀ i s s', act b i s = some s' →
    P.count s' = P.count s

/-- The machine `q` is `m`, or the running thread has executed the pieces `done` of its next
action. -/
def Within (act : B → Nat → σ → Option σ) (m : Machine L A σ) (q : Machine L B σ) : Prop :=
  q = m.expand pieces ∨
    ∃ a code flags done todo, m.threads[m.running]? = some ⟨.act a :: code, flags⟩ ∧
      pieces a = done ++ todo ∧ done ≠ [] ∧ todo ≠ [] ∧ m.interruptFlag = false ∧
      ∃ shared, runPieces act m.running m.shared done = some shared ∧
        q = { m.expand pieces with
          shared
          threads := (m.threads.map (Thread.expand pieces)).set m.running
            ⟨todo.map .act ++ Interrupts.expand pieces code, flags⟩ }

end Expand

section Simulation

variable [DecidableEq L] {pieces : A → List B} {act : B → Nat → σ → Option σ}
  {P : Program L A σ I C} {m m' : Machine L A σ} {q q' : Machine L B σ}
  {code : List (Instr L A)} {flags : List Bool}

theorem runPieces_append (i : Nat) (s : σ) (bs bs' : List B) :
    runPieces act i s (bs ++ bs') =
      (runPieces act i s bs).bind fun s => runPieces act i s bs' := by
  induction bs generalizing s with
  | nil => rfl
  | cons b bs ih =>
    rw [List.cons_append, runPieces, runPieces, Option.bind_assoc]
    exact Option.bind_congr fun s _ => ih s

omit [DecidableEq L] in
theorem Machine.setThread_self (h : m.threads[m.running]? = some ⟨code, flags⟩) :
    m.setThread code flags = m := by
  obtain ⟨hLt, hGet⟩ := List.getElem?_eq_some_iff.mp h
  rw [Machine.setThread, ← hGet, List.set_getElem_self]

omit [DecidableEq L] in
theorem Machine.expand_setThread (m : Machine L A σ) (code : List (Instr L A))
    (flags : List Bool) : (m.setThread code flags).expand pieces =
      (m.expand pieces).setThread (Interrupts.expand pieces code) flags := by
  simp [Machine.expand, Machine.setThread, List.map_set, Thread.expand]

omit [DecidableEq L] in
theorem Machine.expand_thread {t : Thread L A} (h : m.threads[m.running]? = some t) :
    (m.expand pieces).threads[(m.expand pieces).running]? = some (t.expand pieces) := by
  show (m.threads.map (Thread.expand pieces))[m.running]? = _
  rw [List.getElem?_map, h]
  rfl

/-- An instruction that is executed in one piece. -/
theorem expand_execInstr (hP : Splits pieces P act) {instr : Instr L A} {instr' : Instr L B}
    (hSingle : instr.expand pieces = [instr']) :
    (P.expand pieces act).execInstr (m.expand pieces) (Interrupts.expand pieces code) flags instr' =
      (P.execInstr m code flags instr).map (Machine.expand pieces) := by
  cases instr with
  | lock l =>
    obtain rfl := (List.cons.inj hSingle).1
    simp only [Program.execInstr, ← Machine.expand_setThread]
    by_cases hFree : m.holder l = none
    · rw [if_pos hFree, if_pos (show (m.expand pieces).holder l = none from hFree)]
      rfl
    · rw [if_neg hFree, if_neg (show ¬(m.expand pieces).holder l = none from hFree)]
      rfl
  | unlock | saveFlag | sti =>
    obtain rfl := (List.cons.inj hSingle).1
    simp only [Program.execInstr, ← Machine.expand_setThread]
    rfl
  | maskIfSaved | restoreFlag | iret =>
    obtain rfl := (List.cons.inj hSingle).1
    cases flags with
    | nil => rfl
    | cons =>
      simp only [Program.execInstr, ← Machine.expand_setThread]
      rfl
  | act a =>
    obtain ⟨b, hPieces, rfl⟩ : ∃ b, pieces a = [b] ∧ .act b = instr' := by
      simpa [Instr.expand, List.map_eq_singleton_iff] using hSingle
    have hAct : P.act a m.running m.shared = act b m.running m.shared := by
      rw [hP.runs, hPieces, runPieces]
      cases act b m.running m.shared <;> rfl
    simp only [Program.execInstr, hAct]
    rw [show (P.expand pieces act).act b (m.expand pieces).running (m.expand pieces).shared =
      act b m.running m.shared from rfl, Option.map_map]
    congr 1
    funext s
    simp [Machine.expand, Program.expand, List.map_set, Thread.expand]
  | switch =>
    obtain rfl := (List.cons.inj hSingle).1
    simp only [Program.execInstr, ← Machine.expand_setThread]
    rfl

theorem expand_interrupt (i : I) : (P.expand pieces act).exec (m.expand pieces) (.interrupt i) =
    (P.exec m (.interrupt i)).map (Machine.expand pieces) := by
  unfold Program.exec
  rw [show (m.expand pieces).threads[(m.expand pieces).running]? =
    m.threads[m.running]?.map (Thread.expand pieces) from List.getElem?_map]
  cases m.threads[m.running]? with
  | none => rfl
  | some t =>
    show (if m.interruptFlag then _ else _) = Option.map _ (if m.interruptFlag then _ else _)
    split
    · simp [Machine.expand, Machine.setThread, List.map_set, Thread.expand, Program.expand,
        Interrupts.expand, Instr.expand]
    · rfl

theorem expand_call (c : C) (hThread : m.threads[m.running]? = some ⟨[], flags⟩) :
    (P.expand pieces act).exec (m.expand pieces) (.call c) =
      (P.exec m (.call c)).map (Machine.expand pieces) := by
  unfold Program.exec
  rw [Machine.expand_thread hThread, hThread]
  show some _ = some _
  rw [Machine.expand_setThread]
  rfl

/-- The machine executes the actions without pieces that come next. -/
theorem catch_up (hP : Splits pieces P act) (hFull : P.count m.shared ≤ m.threads.length)
    (hThread : m.threads[m.running]? = some ⟨code, flags⟩) :
    ∃ n m₁ code₁, Run P.Step m (List.replicate n .instr) m₁ ∧ m₁.expand pieces = m.expand pieces ∧
      m₁.threads[m₁.running]? = some ⟨code₁, flags⟩ ∧
      (code₁ = [] ∨ ∃ instr rest, code₁ = instr :: rest ∧ instr.expand pieces ≠ []) := by
  induction code generalizing m with
  | nil => exact ⟨0, m, [], .nil m, rfl, hThread, .inl rfl⟩
  | cons instr code ih =>
    by_cases hEmpty : instr.expand pieces = []
    · cases instr with
      | act a =>
        have hPieces : pieces a = [] := List.map_eq_nil_iff.mp hEmpty
        have hStep : P.Step m .instr (m.setThread code flags) := by
          rw [Program.Step, exec_instr hThread, Program.execInstr, hP.runs, hPieces]
          simp [runPieces, Nat.sub_eq_zero_of_le hFull, Machine.setThread]
        have hSame : (m.setThread code flags).expand pieces = m.expand pieces := by
          rw [Machine.expand_setThread]
          apply Machine.setThread_self
          rw [Machine.expand_thread hThread, Thread.expand, Interrupts.expand, List.flatMap_cons,
            hEmpty]
          rfl
        have hThread' : (m.setThread code flags).threads[m.running]? = some ⟨code, flags⟩ :=
          Table.set_self hThread
        obtain ⟨n, m₁, code₁, run, hExpand, hRest⟩ :=
          ih (by simpa [Machine.setThread] using hFull) hThread'
        exact ⟨n + 1, m₁, code₁, .cons hStep run, hExpand.trans hSame, hRest⟩
      | _ => cases hEmpty
    · exact ⟨0, m, _, .nil m, rfl, hThread, .inr ⟨instr, code, rfl, hEmpty⟩⟩

omit [DecidableEq L] in
theorem Instr.expand_cases (pieces : A → List B) (instr : Instr L A) :
    instr.expand pieces = [] ∨ (∃ instr', instr.expand pieces = [instr']) ∨
      ∃ a b b' bs, instr = .act a ∧ pieces a = b :: b' :: bs := by
  cases instr with
  | act a =>
    match hPieces : pieces a with
    | [] => exact .inl (by rw [Instr.expand, hPieces]; rfl)
    | [b] => exact .inr (.inl ⟨.act b, by rw [Instr.expand, hPieces]; rfl⟩)
    | b :: b' :: bs => exact .inr (.inr ⟨a, b, b', bs, rfl, hPieces⟩)
  | _ => exact .inr (.inl ⟨_, rfl⟩)

omit [DecidableEq L] in
theorem count_runPieces (hP : Splits pieces P act) {a : A} (hLength : (pieces a).length ≠ 1) {i : Nat}
    {s s' : σ} {bs : List B} (hMem : ∀ b ∈ bs, b ∈ pieces a)
    (h : runPieces act i s bs = some s') : P.count s' = P.count s := by
  induction bs generalizing s with
  | nil => rw [Option.some.inj h]
  | cons b bs ih =>
    obtain ⟨s₁, hAct, hRest⟩ := Option.bind_eq_some_iff.mp h
    rw [ih (fun b hb => hMem b (List.mem_cons_of_mem _ hb)) hRest]
    exact hP.count a hLength b (hMem b List.mem_cons_self) i s s₁ hAct

/-- An instruction of the running thread, which is not in the middle of an action. -/
theorem within_instr (hP : Splits pieces P act) (hSealed : Sealed (isSplit pieces) P m)
    {instr : Instr L A} (hThread : m.threads[m.running]? = some ⟨instr :: code, flags⟩)
    (hNonempty : instr.expand pieces ≠ [])
    (hStep : (P.expand pieces act).Step (m.expand pieces) (.instr : Label I C) q') :
    ∃ labels m', Run P.Step m labels m' ∧
      labels.filter Label.isExternal = [] ∧ Within pieces act m' q' := by
  have hExpand : (m.expand pieces).threads[(m.expand pieces).running]? =
      some ⟨instr.expand pieces ++ Interrupts.expand pieces code, flags⟩ :=
    Machine.expand_thread hThread
  rcases instr.expand_cases pieces with hNil | ⟨instr', hSingle⟩ |
    ⟨a, b, b', bs, rfl, hPieces⟩
  · exact absurd hNil hNonempty
  · rw [hSingle, List.singleton_append] at hExpand
    rw [Program.Step, exec_instr hExpand, expand_execInstr hP hSingle] at hStep
    obtain ⟨m', hExec, rfl⟩ := Option.map_eq_some_iff.mp hStep
    exact ⟨[.instr], m', .single ((exec_instr hThread).trans hExec), rfl, .inl rfl⟩
  · -- The first of several pieces.
    have hFlag : m.interruptFlag = false := by
      apply (hSealed.running _ hThread).1
      simp [Instr.isMasked, isSplit, hPieces]
    rw [Instr.expand, hPieces, List.map_cons, List.cons_append] at hExpand
    rw [Program.Step, exec_instr hExpand] at hStep
    obtain ⟨shared, hAct, rfl⟩ := Option.map_eq_some_iff.mp hStep
    have hCount : P.count shared = P.count m.shared :=
      hP.count a (by simp [hPieces]) b (by simp [hPieces]) _ _ _ hAct
    refine ⟨[], m, .nil m, rfl, .inr ⟨a, code, flags, [b], b' :: bs, hThread, hPieces, by simp,
      by simp, hFlag, shared, ?_, ?_⟩⟩
    · rw [runPieces, show act b m.running m.shared = some shared from hAct]
      rfl
    · have hNone : (P.expand pieces act).count shared - (m.expand pieces).threads.length = 0 := by
        have hFull := hSealed.full
        rw [show (P.expand pieces act).count shared = P.count shared from rfl, hCount,
          show (m.expand pieces).threads.length = m.threads.length from List.length_map _]
        omega
      rw [hNone, List.replicate_zero, List.append_nil]
      rfl

/-- A piece of the action that the running thread is in the middle of. -/
theorem within_piece (hP : Splits pieces P act) (hSealed : Sealed (isSplit pieces) P m) {a : A}
    {done todo : List B} (hThread : m.threads[m.running]? = some ⟨.act a :: code, flags⟩)
    (hPieces : pieces a = done ++ todo) (hDone : done ≠ []) (hTodo : todo ≠ [])
    (hFlag : m.interruptFlag = false) {shared : σ}
    (hRun : runPieces act m.running m.shared done = some shared) {label : Label I C}
    (hStep : (P.expand pieces act).Step { m.expand pieces with
      shared
      threads := (m.threads.map (Thread.expand pieces)).set m.running
        ⟨todo.map .act ++ Interrupts.expand pieces code, flags⟩ } label q') :
    label = .instr ∧ ∃ labels m', Run P.Step m labels m' ∧
      labels.filter Label.isExternal = [] ∧ Within pieces act m' q' := by
  obtain ⟨b, todo, rfl⟩ := List.exists_cons_of_ne_nil hTodo
  have hMapped : (m.threads.map (Thread.expand pieces))[m.running]? =
      some (Thread.expand pieces ⟨.act a :: code, flags⟩) := by
    rw [List.getElem?_map, hThread]
    rfl
  have hNow := Table.set_self (a := (⟨.act b :: (todo.map .act ++ Interrupts.expand pieces code),
    flags⟩ : Thread L B)) hMapped
  obtain rfl : label = .instr := by
    obtain ⟨t, ht, hCases⟩ := Program.Step.inv hStep
    obtain rfl := Option.some.inj (hNow.symm.trans ht)
    rcases hCases with ⟨_, _, h, -⟩ | ⟨_, -, hSet, -⟩ | ⟨_, -, hNil, -⟩
    · exact h
    · exact absurd (hFlag.symm.trans hSet) (by simp)
    · cases hNil
  refine ⟨rfl, ?_⟩
  rw [Program.Step, exec_instr hNow] at hStep
  obtain ⟨shared', hAct, rfl⟩ := Option.map_eq_some_iff.mp hStep
  have hRun' : runPieces act m.running m.shared (done ++ [b]) = some shared' := by
    rw [runPieces_append, hRun, Option.bind_some, runPieces,
      show act b m.running shared = some shared' from hAct]
    rfl
  have hPieces' : pieces a = done ++ [b] ++ todo := by
    rw [hPieces, List.append_assoc]
    rfl
  have hNone : (P.expand pieces act).count shared' - m.threads.length = 0 := by
    have hCount : P.count shared' = P.count m.shared := by
      apply count_runPieces hP (a := a) _ _ hRun'
      · have hLength := List.length_pos_of_ne_nil hDone
        rw [hPieces, List.length_append, List.length_cons]
        omega
      · intro x hx
        rw [hPieces']
        exact List.mem_append_left _ hx
    have hFull := hSealed.full
    rw [show (P.expand pieces act).count shared' = P.count shared' from rfl, hCount]
    omega
  cases todo with
  | nil =>
    -- The action is complete.
    rw [List.append_nil] at hPieces'
    have hWhole : P.act a m.running m.shared = some shared' := by
      rw [hP.runs, hPieces', hRun']
    refine ⟨[.instr], _, .single ((exec_instr hThread).trans (congrArg (Option.map _) hWhole)), rfl,
      .inl ?_⟩
    have hNone' : P.count shared' - m.threads.length = 0 := hNone
    simp only [List.length_set, List.length_map, hNone, hNone', List.replicate_zero,
      List.append_nil, List.set_set, Machine.expand, List.map_set]
    rfl
  | cons b' todo =>
    refine ⟨[], m, .nil m, rfl, .inr ⟨a, code, flags, done ++ [b], b' :: todo, hThread, hPieces',
      by simp, by simp, hFlag, shared', hRun', ?_⟩⟩
    simp only [List.length_set, List.length_map, hNone, List.replicate_zero, List.append_nil,
      List.set_set, Machine.expand, List.map_cons, List.cons_append]

/-- The machine that has whole actions follows by at most the step itself, after actions without
pieces. -/
theorem within_step (hP : Splits pieces P act) (hSealing : Sealing (isSplit pieces) P)
    (hSealed : Sealed (isSplit pieces) P m) {label : Label I C} (h : Within pieces act m q)
    (hStep : (P.expand pieces act).Step q label q') :
    ∃ labels m', Run P.Step m labels m' ∧
      labels.filter Label.isExternal = [label].filter Label.isExternal ∧ Within pieces act m' q' := by
  have hInstrs : ∀ n, (List.replicate n (.instr : Label I C)).filter Label.isExternal = [] := by
    intro n
    rw [List.filter_replicate]
    rfl
  rcases h with rfl | ⟨a, code, flags, done, todo, hThread, hPieces, hDone, hTodo, hFlag, shared, hRun,
    rfl⟩
  · obtain ⟨t', ht', hCases⟩ := Program.Step.inv hStep
    obtain ⟨⟨code, flags⟩, ht, rfl⟩ : ∃ t, m.threads[m.running]? = some t ∧ t.expand pieces = t' := by
      rwa [show (m.expand pieces).threads[(m.expand pieces).running]? =
        m.threads[m.running]?.map (Thread.expand pieces) from List.getElem?_map,
        Option.map_eq_some_iff] at ht'
    obtain ⟨n, m₁, code₁, run, hExpand, hThread, hNext⟩ := catch_up hP hSealed.full ht
    have hCode : Interrupts.expand pieces code₁ = Interrupts.expand pieces code := by
      have hLater : (m₁.expand pieces).threads[(m₁.expand pieces).running]? = _ :=
        Machine.expand_thread hThread
      rw [hExpand, Machine.expand_thread ht] at hLater
      exact (congrArg Thread.code (Option.some.inj hLater)).symm
    rw [← hExpand] at hStep
    cases label with
    | interrupt i =>
      rw [hExpand, Program.Step, expand_interrupt] at hStep
      obtain ⟨m', hExec, rfl⟩ := Option.map_eq_some_iff.mp hStep
      exact ⟨[.interrupt i], m', .single hExec, rfl, .inl rfl⟩
    | call c =>
      have hNil : Interrupts.expand pieces code₁ = [] := by
        rcases hCases with ⟨_, _, h, -⟩ | ⟨_, h, -⟩ | ⟨_, -, h, -⟩
        · cases h
        · cases h
        · exact hCode.trans h
      obtain rfl : code₁ = [] := by
        rcases hNext with hNext | ⟨instr, rest, rfl, hNonempty⟩
        · exact hNext
        · exact absurd (List.append_eq_nil_iff.mp hNil).1 hNonempty
      rw [Program.Step, expand_call c hThread] at hStep
      obtain ⟨m', hExec, rfl⟩ := Option.map_eq_some_iff.mp hStep
      refine ⟨List.replicate n .instr ++ [.call c], m', run.append (.single hExec), ?_, .inl rfl⟩
      rw [List.filter_append, hInstrs]
      rfl
    | instr =>
      obtain ⟨instr, rest, rfl, hNonempty⟩ : ∃ instr rest, code₁ = instr :: rest ∧
          instr.expand pieces ≠ [] := by
        rcases hNext with rfl | hNext
        · rcases hCases with ⟨_, _, -, h, -⟩ | ⟨_, h, -⟩ | ⟨_, h, -⟩
          · cases hCode.trans h
          · cases h
          · cases h
        · exact hNext
      have hSealed₁ := run.invariant (fun _ _ _ h step => h.step hSealing step) hSealed
      obtain ⟨labels, m', run', hLabels, hWithin⟩ := within_instr hP hSealed₁ hThread hNonempty hStep
      refine ⟨List.replicate n .instr ++ labels, m', run.append run', ?_, hWithin⟩
      rw [List.filter_append, hInstrs, hLabels]
      rfl
  · obtain ⟨rfl, labels, m', run, hLabels, hWithin⟩ :=
      within_piece hP hSealed hThread hPieces hDone hTodo hFlag hRun hStep
    exact ⟨labels, m', run, hLabels, hWithin⟩

/-- Every run of the pieces is a run of whole actions with the same interrupts and calls. -/
theorem within_run (hP : Splits pieces P act) (hSealing : Sealing (isSplit pieces) P)
    (hSealed : Sealed (isSplit pieces) P m) {labels : List (Label I C)} (h : Within pieces act m q)
    (run : Run (P.expand pieces act).Step q labels q') :
    ∃ labels' m', Run P.Step m labels' m' ∧
      labels'.filter Label.isExternal = labels.filter Label.isExternal ∧
      Within pieces act m' q' := by
  induction run generalizing m with
  | nil => exact ⟨[], m, .nil m, rfl, h⟩
  | cons step _ ih =>
    obtain ⟨first, m₁, run₁, hFirst, h₁⟩ := within_step hP hSealing hSealed h step
    have hSealed₁ := run₁.invariant (fun _ _ _ h step => h.step hSealing step) hSealed
    obtain ⟨last, m₂, run₂, hLast, h₂⟩ := ih hSealed₁ h₁
    refine ⟨first ++ last, m₂, run₁.append run₂, ?_, h₂⟩
    rw [List.filter_append, hFirst, hLast, ← List.filter_append]
    rfl

end Simulation

/-! ### What a run puts out -/

section Emitted

variable {β : Type} (f : A → List β)

/-- What a step puts out, where an action `a` puts out `f a`. -/
def Machine.emits (m : Machine L A σ) : Label I C → List β
  | .instr =>
    match m.next with
    | some (.act a) => f a
    | _ => []
  | _ => []

variable [DecidableEq L]

def emitted (P : Program L A σ I C) (m : Machine L A σ) : List (Label I C) → List β
  | [] => []
  | label :: labels =>
    match P.exec m label with
    | some m' => m.emits f label ++ emitted P m' labels
    | none => []

variable {f} {P : Program L A σ I C} {m m' : Machine L A σ}

theorem emitted_flatMap {γ : Type} (g : β → List γ) (labels : List (Label I C)) :
    emitted (fun a => (f a).flatMap g) P m labels = (emitted f P m labels).flatMap g := by
  induction labels generalizing m with
  | nil => rfl
  | cons label labels ih =>
    rw [emitted, emitted]
    cases P.exec m label with
    | none => rfl
    | some m' =>
      have hNow : m.emits (fun a => (f a).flatMap g) label = (m.emits f label).flatMap g := by
        unfold Machine.emits
        split
        · split <;> rfl
        · rfl
      simp only
      rw [ih, hNow, List.flatMap_append]

variable {out : σ → List β}
  (hAct : ∀ a i s s', P.act a i s = some s' → out s' = out s ++ f a)
  (hSwitch : ∀ s i, out (P.switch s i).1 = out s)
include hAct hSwitch

theorem emits_step {label : Label I C} (hStep : P.Step m label m') :
    out m'.shared = out m.shared ++ m.emits f label := by
  obtain ⟨⟨_, flags⟩, ht, hCases⟩ := Program.Step.inv hStep
  rcases hCases with ⟨instr, code, rfl, rfl, hExec⟩ | ⟨i, rfl, -, rfl⟩ | ⟨c, rfl, -, rfl⟩
  · rw [Machine.emits, Machine.next_of_thread ht]
    rcases execInstr_view hExec with ⟨hOther, -, hView⟩ | ⟨a, s, rfl, hDone, hView⟩ | ⟨rfl, hView⟩
    · have hShared : m'.shared = m.shared := by
        rcases hView with hView | ⟨l, -, -, hView⟩ | ⟨l, -, hView⟩ <;>
          exact congrArg View.shared hView
      rw [hShared]
      cases instr with
      | act a => exact absurd rfl (hOther a)
      | _ => exact (List.append_nil _).symm
    · rw [show m'.shared = s from congrArg View.shared hView]
      exact hAct a _ _ _ hDone
    · rw [show m'.shared = (P.switch m.shared m.running).1 from congrArg View.shared hView, hSwitch]
      exact (List.append_nil _).symm
  · exact (List.append_nil _).symm
  · exact (List.append_nil _).symm

theorem emitted_run {labels : List (Label I C)} (run : Run P.Step m labels m') :
    out m'.shared = out m.shared ++ emitted f P m labels := by
  induction run with
  | nil => exact (List.append_nil _).symm
  | cons step _ ih =>
    rw [ih, emits_step hAct hSwitch step, emitted, show P.exec _ _ = some _ from step,
      List.append_assoc]

end Emitted

/-! ### The actions of a run -/

section Actions

variable (Ok : A → Prop)

/-- The actions that the threads have left. -/
def Machine.Actions (m : Machine L A σ) : Prop := ∀ t ∈ m.threads, ∀ a, .act a ∈ t.code → Ok a

variable {Ok} [DecidableEq L] {P : Program L A σ I C} {m m' : Machine L A σ}
  {labels : List (Label I C)} (hHandler : ∀ i a, .act a ∈ P.handler i → Ok a)
  (hStart : ∀ a, .act a ∈ P.start → Ok a)
include hHandler hStart

theorem Machine.Actions.step (h : m.Actions Ok) {label : Label I C}
    (hCall : ∀ c, label = .call c → ∀ a, .act a ∈ P.call c → Ok a)
    (hStep : P.Step m label m') : m'.Actions Ok := by
  obtain ⟨⟨code, flags⟩, ht, hCases⟩ := Program.Step.inv hStep
  have hOld := h _ (List.mem_of_getElem? ht)
  have hSet : ∀ {code : List (Instr L A)} {flags : List Bool}, (∀ a, .act a ∈ code → Ok a) →
      ∀ t ∈ m.threads.set m.running ⟨code, flags⟩, ∀ a, .act a ∈ t.code → Ok a := by
    intro code flags hCode t ht
    rcases List.mem_or_eq_of_mem_set ht with hMem | rfl
    · exact h t hMem
    · exact hCode
  rcases hCases with ⟨instr, rest, rfl, rfl, hExec⟩ | ⟨i, rfl, -, rfl⟩ | ⟨c, rfl, rfl, rfl⟩
  · have hRest : ∀ a, .act a ∈ rest → Ok a := fun a ha => hOld a (List.mem_cons_of_mem _ ha)
    by_cases hSwitch : instr = .switch
    · subst hSwitch
      obtain rfl := Option.some.inj hExec
      exact hSet hRest
    · obtain ⟨flags', new, -, -, hThreads, hNew, -⟩ := execInstr_flags hExec hSwitch
      unfold Machine.Actions
      rw [hThreads]
      intro t ht
      rcases List.mem_append.mp ht with hMem | hMem
      · exact hSet hRest t hMem
      · rw [hNew t hMem]
        exact hStart
  · refine hSet fun a ha => ?_
    rcases List.mem_append.mp ha with hMem | hMem
    · exact hHandler i a hMem
    · exact hOld a ((List.mem_cons.mp hMem).resolve_left (by simp))
  · exact hSet (hCall c rfl)

/-- What a run puts out, and its next action, are of actions that the code has. -/
theorem Machine.Actions.emitted {β : Type} {f : A → List β} (h : m.Actions Ok)
    (hCall : ∀ c, .call c ∈ labels → ∀ a, .act a ∈ P.call c → Ok a)
    (run : Run P.Step m labels m') :
    (∀ x ∈ Interrupts.emitted f P m labels, ∃ a, Ok a ∧ x ∈ f a) ∧ m'.Actions Ok := by
  induction run with
  | nil => exact ⟨by simp [Interrupts.emitted], h⟩
  | @cons m m₁ m' label labels step _ ih =>
    have hHead : ∀ c, label = .call c → ∀ a, .act a ∈ P.call c → Ok a :=
      fun c hc => hCall c (hc ▸ List.mem_cons_self)
    have hNext := h.step hHandler hStart hHead step
    obtain ⟨hLater, hEnd⟩ := ih hNext fun c hc => hCall c (List.mem_cons_of_mem _ hc)
    refine ⟨fun x hx => ?_, hEnd⟩
    rw [Interrupts.emitted, show P.exec _ _ = some _ from step] at hx
    rcases List.mem_append.mp hx with hNow | hLast
    · unfold Machine.emits at hNow
      split at hNow
      · split at hNow
        · rename_i a hAct
          obtain ⟨code, flags, hThread⟩ := Machine.thread_of_next hAct
          exact ⟨a, h _ (List.mem_of_getElem? hThread) a List.mem_cons_self, hNow⟩
        · cases hNow
      · cases hNow
    · exact hLater x hLast

end Actions

end RixOs.ProofKit.Interrupts

import RixOs.ProofKit.Atomicity

/-! A system with further locks, actions and calls.  What they add is invisible to the system that
is extended: every run of the extension, with the added instructions erased from the code, is a run
of that system, so its invariants hold in the extension too. -/

namespace RixOs.ProofKit.Interrupts

variable {L A σ L' A' σ' I C C' : Type}

/-- Code over other locks and actions. -/
def Instr.lift (f : L → L') (g : A → A') : Instr L A → Instr L' A'
  | .lock l => .lock (f l)
  | .unlock l => .unlock (f l)
  | .saveFlag => .saveFlag
  | .maskIfSaved => .maskIfSaved
  | .restoreFlag => .restoreFlag
  | .sti => .sti
  | .iret => .iret
  | .act a => .act (g a)
  | .switch => .switch

/-- How an extension relates to the system in it: which locks and actions are those of the system,
and what of the shared state. -/
structure Extension (L A σ L' A' σ' : Type) where
  lock : L' → Option L
  embed : L → L'
  lock_eq : ∀ {l' l}, lock l' = some l ↔ l' = embed l
  act : A' → Option A
  state : σ' → σ

namespace Extension

variable (E : Extension L A σ L' A' σ')

def instr : Instr L' A' → Option (Instr L A)
  | .lock l => (E.lock l).map .lock
  | .unlock l => (E.lock l).map .unlock
  | .saveFlag => some .saveFlag
  | .maskIfSaved => some .maskIfSaved
  | .restoreFlag => some .restoreFlag
  | .sti => some .sti
  | .iret => some .iret
  | .act a => (E.act a).map .act
  | .switch => some .switch

def erase (code : List (Instr L' A')) : List (Instr L A) := code.filterMap E.instr

def thread (t : Thread L' A') : Thread L A := ⟨E.erase t.code, t.flags⟩

def project (m : Machine L' A' σ') : Machine L A σ where
  shared := E.state m.shared
  running := m.running
  interruptFlag := m.interruptFlag
  holder l := m.holder (E.embed l)
  threads := m.threads.map E.thread

/-- The system `P` is what is left of `P'` when the additions are erased. -/
structure Extends (P : Program L A σ I C) (P' : Program L' A' σ' I C') : Prop where
  act : ∀ {a' a i s}, E.act a' = some a → P.act a i (E.state s) = (P'.act a' i s).map E.state
  hidden : ∀ {a' i s s'}, E.act a' = none → P'.act a' i s = some s' → E.state s' = E.state s
  switch : ∀ s i, P.switch (E.state s) i = (E.state (P'.switch s i).1, (P'.switch s i).2)
  count : ∀ s, P.count (E.state s) = P'.count s
  start : E.erase P'.start = P.start
  handler : ∀ i, E.erase (P'.handler i) = P.handler i
  call : ∀ c', E.erase (P'.call c') = [] ∨ ∃ c, E.erase (P'.call c') = P.call c

variable {E} {P : Program L A σ I C} {P' : Program L' A' σ' I C'} {m m' : Machine L' A' σ'}

theorem erase_append (code code' : List (Instr L' A')) :
    E.erase (code ++ code') = E.erase code ++ E.erase code' := List.filterMap_append

theorem erase_cons_some {instr : Instr L' A'} {instr' : Instr L A} (h : E.instr instr = some instr')
    (code : List (Instr L' A')) : E.erase (instr :: code) = instr' :: E.erase code :=
  List.filterMap_cons_some h

theorem erase_cons_none {instr : Instr L' A'} (h : E.instr instr = none)
    (code : List (Instr L' A')) : E.erase (instr :: code) = E.erase code :=
  List.filterMap_cons_none h

theorem erase_map {g : A → A'} (hAct : ∀ a, E.act (g a) = some a) (code : List (Instr L A)) :
    E.erase (code.map (Instr.lift E.embed g)) = code := by
  induction code with
  | nil => rfl
  | cons instr code ih =>
    have hInstr : E.instr (instr.lift E.embed g) = some instr := by
      have hLock : ∀ l, E.lock (E.embed l) = some l := fun _ => E.lock_eq.mpr rfl
      cases instr <;> simp [Instr.lift, Extension.instr, hLock, hAct]
    rw [List.map_cons, erase_cons_some hInstr, ih]

theorem project_setThread (m : Machine L' A' σ') (code : List (Instr L' A')) (flags : List Bool) :
    E.project (m.setThread code flags) = (E.project m).setThread (E.erase code) flags := by
  simp only [project, Machine.setThread, List.map_set]
  rfl

theorem project_thread {code : List (Instr L' A')} {flags : List Bool}
    (h : m.threads[m.running]? = some ⟨code, flags⟩) :
    (E.project m).threads[(E.project m).running]? = some ⟨E.erase code, flags⟩ := by
  rw [project, List.getElem?_map, h]
  rfl

theorem embed_injective : Function.Injective E.embed := fun _ _ h =>
  Option.some.inj ((E.lock_eq.mpr rfl).symm.trans (E.lock_eq.mpr h))

theorem embed_ne {l' : L'} (h : E.lock l' = none) (l : L) : E.embed l ≠ l' := by
  rintro rfl
  rw [E.lock_eq.mpr rfl] at h
  cases h

/-- The holders, when one of them changes. -/
theorem holder_hidden [DecidableEq L'] {l' : L'} (h : E.lock l' = none) (holder : L' → Option Nat)
    (i : Option Nat) :
    (fun l => Function.update holder l' i (E.embed l)) = fun l => holder (E.embed l) :=
  Function.update_comp_eq_of_forall_ne holder i (embed_ne h)

theorem holder_embed [DecidableEq L] [DecidableEq L'] (l : L) (holder : L' → Option Nat)
    (i : Option Nat) :
    (fun l₁ => Function.update holder (E.embed l) i (E.embed l₁)) =
      Function.update (fun l₁ => holder (E.embed l₁)) l i :=
  Function.update_comp_eq_of_injective holder embed_injective l i

variable [DecidableEq L] [DecidableEq L']

omit [DecidableEq L] in
/-- An added instruction is not seen. -/
theorem Extends.instr_hidden (h : E.Extends P P') (hLength : P'.count m.shared ≤ m.threads.length)
    {instr : Instr L' A'} {code : List (Instr L' A')} {flags : List Bool}
    (hThread : m.threads[m.running]? = some ⟨instr :: code, flags⟩) (hHidden : E.instr instr = none)
    (hExec : P'.execInstr m code flags instr = some m') : E.project m' = E.project m := by
  have hSame := project_thread (E := E) hThread
  rw [erase_cons_none hHidden] at hSame
  replace hSame := Machine.setThread_self hSame
  rw [← project_setThread] at hSame
  have hHolder : ∀ l' i, E.lock l' = none →
      E.project { m.setThread code flags with holder := Function.update m.holder l' i } =
        E.project m := by
    intro l' i hLock
    rw [← hSame]
    simp only [project, Machine.setThread, holder_hidden hLock]
  cases instr with
  | lock l' =>
    simp only [Program.execInstr] at hExec
    split at hExec
    · obtain rfl := Option.some.inj hExec
      exact hHolder l' _ (Option.map_eq_none_iff.mp hHidden)
    · cases hExec
  | unlock l' =>
    obtain rfl := Option.some.inj hExec
    exact hHolder l' _ (Option.map_eq_none_iff.mp hHidden)
  | act a' =>
    obtain ⟨s, hAct, rfl⟩ := Option.map_eq_some_iff.mp hExec
    have hState := h.hidden (Option.map_eq_none_iff.mp hHidden) hAct
    have hCount : P'.count s = P'.count m.shared := by rw [← h.count, hState, h.count]
    have hNone : P'.count s - m.threads.length = 0 := by omega
    rw [← hSame]
    simp only [project, Machine.setThread, hNone, List.replicate_zero, List.append_nil, hState]
  | saveFlag | maskIfSaved | restoreFlag | sti | iret | switch => cases hHidden

/-- An instruction of the system is executed by it. -/
theorem Extends.instr_visible (h : E.Extends P P') {instr : Instr L' A'} {instr' : Instr L A}
    {code : List (Instr L' A')} {flags : List Bool} (hVisible : E.instr instr = some instr')
    (hExec : P'.execInstr m code flags instr = some m') :
    P.execInstr (E.project m) (E.erase code) flags instr' = some (E.project m') := by
  have hSet := project_setThread (E := E) m code
  cases instr with
  | lock l' =>
    obtain ⟨l, hLock, rfl⟩ := Option.map_eq_some_iff.mp hVisible
    obtain rfl := E.lock_eq.mp hLock
    simp only [Program.execInstr] at hExec
    split at hExec
    · obtain rfl := Option.some.inj hExec
      have hFree : (E.project m).holder l = none := ‹_›
      rw [Program.execInstr, if_pos hFree, ← hSet]
      simp only [project, Machine.setThread, holder_embed]
    · cases hExec
  | unlock l' =>
    obtain ⟨l, hLock, rfl⟩ := Option.map_eq_some_iff.mp hVisible
    obtain rfl := E.lock_eq.mp hLock
    obtain rfl := Option.some.inj hExec
    rw [Program.execInstr, ← hSet]
    simp only [project, Machine.setThread, holder_embed]
  | saveFlag | sti =>
    obtain rfl := Option.some.inj hVisible
    obtain rfl := Option.some.inj hExec
    rw [Program.execInstr, ← hSet]
    rfl
  | maskIfSaved | restoreFlag | iret =>
    obtain rfl := Option.some.inj hVisible
    cases flags with
    | nil => cases hExec
    | cons saved flags =>
      obtain rfl := Option.some.inj hExec
      simp only [Program.execInstr, ← hSet]
      rfl
  | act a' =>
    obtain ⟨a, hAct, rfl⟩ := Option.map_eq_some_iff.mp hVisible
    obtain ⟨s, hAct', rfl⟩ := Option.map_eq_some_iff.mp hExec
    have hState : P.act a (E.project m).running (E.project m).shared = some (E.state s) := by
      change P.act a m.running (E.state m.shared) = _
      rw [h.act hAct, hAct']
      rfl
    have hStart : E.thread ⟨P'.start, []⟩ = ⟨P.start, []⟩ := by rw [thread, h.start]
    rw [Program.execInstr, hState, Option.map_some, h.count]
    simp only [project, List.map_append, List.map_set, List.map_replicate, List.length_map, hStart]
    rfl
  | switch =>
    obtain rfl := Option.some.inj hVisible
    obtain rfl := Option.some.inj hExec
    have hSwitch : P.switch (E.project m).shared (E.project m).running = _ :=
      h.switch m.shared m.running
    simp only [Program.execInstr, hSwitch, ← hSet]
    rfl

/-- A step of the extension is a step of the system, or it is not seen. -/
theorem Extends.step (h : E.Extends P P') (hLength : P'.count m.shared ≤ m.threads.length)
    {label : Label I C'} (hStep : P'.Step m label m') :
    E.project m' = E.project m ∨ ∃ label', P.Step (E.project m) label' (E.project m') := by
  obtain ⟨⟨code, flags⟩, ht, hCases⟩ := Program.Step.inv hStep
  have ht' := project_thread (E := E) ht
  rcases hCases with ⟨instr, rest, rfl, rfl, hExec⟩ | ⟨i, rfl, hFlag, rfl⟩ | ⟨c, rfl, rfl, rfl⟩
  · cases hInstr : E.instr instr with
    | none => exact .inl (h.instr_hidden hLength ht hInstr hExec)
    | some instr' =>
      rw [erase_cons_some hInstr] at ht'
      exact .inr ⟨.instr, (exec_instr ht').trans (h.instr_visible hInstr hExec)⟩
  · refine .inr ⟨.interrupt i, ?_⟩
    have hFlag' : (E.project m).interruptFlag = true := hFlag
    have hCode : E.erase (P'.handler i ++ .iret :: code) =
        P.handler i ++ .iret :: E.erase code := by
      rw [erase_append, h.handler]
      rfl
    simp only [Program.Step, Program.exec, ht', Option.bind_eq_bind, Option.bind_some, hFlag',
      if_true, ← hCode, ← project_setThread]
    rfl
  · have hSet := project_setThread (E := E) m (P'.call c) flags
    rcases h.call c with hNone | ⟨c', hCall⟩
    · rw [hNone] at hSet
      exact .inl (hSet.trans (Machine.setThread_self ht'))
    · rw [hCall] at hSet
      refine .inr ⟨.call c', ?_⟩
      rw [hSet]
      exact call_step ht' c'

/-- Every run of the extension is a run of the system, where an invariant of the system says that
there is a thread for each one that is counted. -/
theorem Extends.run (h : E.Extends P P') {Q : Machine L A σ → Prop}
    (hLength : ∀ n, Q n → P.count n.shared ≤ n.threads.length)
    (hStep : ∀ n label n', Q n → P.Step n label n' → Q n') {labels : List (Label I C')}
    (run : Run P'.Step m labels m') (hQ : Q (E.project m)) :
    ∃ labels', Run P.Step (E.project m) labels' (E.project m') := by
  induction run with
  | nil m => exact ⟨[], .nil _⟩
  | @cons m n _ label _ step _ ih =>
    have hCount : P'.count m.shared ≤ m.threads.length := by
      have hProject := hLength _ hQ
      rwa [project, h.count, List.length_map] at hProject
    rcases h.step hCount step with hSame | ⟨label', step'⟩
    · rw [← hSame] at hQ ⊢
      exact ih hQ
    · obtain ⟨labels', run'⟩ := ih (hStep _ _ _ hQ step')
      exact ⟨label' :: labels', .cons step' run'⟩

end Extension

end RixOs.ProofKit.Interrupts

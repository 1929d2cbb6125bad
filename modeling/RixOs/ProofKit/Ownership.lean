import RixOs.ProofKit.Typestates

/-! Locks that threads may hold across switches.  Where the code of a system releases what it takes,
the last first, the code that a thread has left tells which locks it holds.  So a lock is released by
the thread that took it, and a lock whose holder does not run again is never granted again. -/

namespace RixOs.ProofKit.Interrupts

variable {L A σ I C : Type} [DecidableEq L]

/-! ### What an instruction changes -/

section Instructions

variable {P : Program L A σ I C} {m m' : Machine L A σ}

theorem execInstr_threads {instr : Instr L A} {code : List (Instr L A)} {flags : List Bool}
    (hExec : P.execInstr m code flags instr = some m') :
    ∃ flags' n, m'.threads =
      m.threads.set m.running ⟨code, flags'⟩ ++ List.replicate n ⟨P.start, []⟩ := by
  obtain ⟨flags', ⟨hThreads, -⟩ | ⟨_, -, -, -, hThreads⟩ | ⟨-, hThreads, -⟩⟩ :=
    execInstr_cases hExec
  · exact ⟨flags', 0, by simpa using hThreads⟩
  · exact ⟨flags', _, hThreads⟩
  · exact ⟨flags', 0, by simpa using hThreads⟩

theorem execInstr_lock {l : L} {code : List (Instr L A)} {flags : List Bool}
    (hExec : P.execInstr m code flags (.lock l) = some m') : m.holder l = none := by
  simp only [Program.execInstr] at hExec
  split at hExec
  · assumption
  · cases hExec

/-- An instruction takes and releases the lock that it names. -/
theorem execInstr_holder {instr : Instr L A} {l : L} {code : List (Instr L A)} {flags : List Bool}
    (hLock : instr ≠ .lock l) (hUnlock : instr ≠ .unlock l)
    (hExec : P.execInstr m code flags instr = some m') : m'.holder l = m.holder l := by
  have hView : ∀ {v : View L σ}, m'.view = v → m'.holder = v.holder :=
    fun h => congrArg View.holder h
  rcases execInstr_view hExec with ⟨-, -, hEq | ⟨l', rfl, -, hEq⟩ | ⟨l', rfl, hEq⟩⟩ |
    ⟨_, _, -, -, hEq⟩ | ⟨-, hEq⟩
  · rw [hView hEq]
    rfl
  · rw [hView hEq]
    exact Function.update_of_ne (fun hSame => hLock (congrArg Instr.lock hSame.symm)) ..
  · rw [hView hEq]
    exact Function.update_of_ne (fun hSame => hUnlock (congrArg Instr.unlock hSame.symm)) ..
  · rw [hView hEq]
    rfl
  · rw [hView hEq]

theorem execInstr_running {instr : Instr L A} {code : List (Instr L A)} {flags : List Bool}
    (hSwitch : instr ≠ .switch) (hExec : P.execInstr m code flags instr = some m') :
    m'.running = m.running := by
  obtain ⟨flags', ⟨-, -, hRunning⟩ | ⟨_, -, -, hRunning, -⟩ | ⟨hEq, -⟩⟩ := execInstr_cases hExec
  · exact hRunning
  · exact hRunning
  · exact absurd hEq hSwitch

end Instructions

/-! ### Who holds a lock -/

/-- The locks that a thread holds, the last first.  Where it holds `held`, it takes those that
`allowed` says. -/
def ownership (allowed : L → List L → Bool) : Typestate L A (List L) where
  next held
    | .lock l => if allowed l held then some (l :: held) else none
    | .unlock l =>
      match held with
      | l' :: held => if l' = l then some held else none
      | [] => none
    | _ => some held
  idle := []

variable {allowed : L → List L → Bool}

/-- A critical section, wherever the lock may be taken. -/
theorem stays_critical {l : L} {held : List L} {body : List (Instr L A)}
    (hAllowed : allowed l held = true) (h : (ownership allowed).Stays (l :: held) body) :
    (ownership allowed).Stays held (locked l body) := by
  intro rest hRest
  rw [locked, List.cons_append, List.append_assoc]
  exact ⟨l :: held, if_pos hAllowed, h _ ⟨held, if_pos rfl, hRest⟩⟩

theorem follows_lock {l : L} {held : List L} {code : List (Instr L A)}
    (h : (ownership allowed).Follows held (.lock l :: code)) :
    allowed l held = true ∧ (ownership allowed).Follows (l :: held) code := by
  obtain ⟨held', hNext, hRest⟩ := h
  simp only [ownership] at hNext
  split at hNext
  · obtain rfl := Option.some.inj hNext
    exact ⟨‹_›, hRest⟩
  · cases hNext

theorem follows_unlock {l : L} {held : List L} {code : List (Instr L A)}
    (h : (ownership allowed).Follows held (.unlock l :: code)) :
    ∃ rest, held = l :: rest ∧ (ownership allowed).Follows rest code := by
  obtain ⟨held', hNext, hRest⟩ := h
  simp only [ownership] at hNext
  cases held with
  | nil => cases hNext
  | cons l' held =>
    simp only at hNext
    split at hNext
    · rename_i hEq
      subst hEq
      obtain rfl := Option.some.inj hNext
      exact ⟨held, rfl, hRest⟩
    · cases hNext

theorem follows_other {instr : Instr L A} {held : List L} {code : List (Instr L A)}
    (hLock : ∀ l, instr ≠ .lock l) (hUnlock : ∀ l, instr ≠ .unlock l)
    (h : (ownership allowed).Follows held (instr :: code)) :
    (ownership allowed).Follows held code := by
  obtain ⟨held', hNext, hRest⟩ := h
  cases instr with
  | lock l => exact absurd rfl (hLock l)
  | unlock l => exact absurd rfl (hUnlock l)
  | _ =>
    obtain rfl := Option.some.inj hNext
    exact hRest

/-- Every handler, every call and the first code of a thread release what they take. -/
structure Balanced (allowed : L → List L → Bool) (P : Program L A σ I C) : Prop where
  handler : ∀ i held, (ownership allowed).Stays held (P.handler i ++ [.iret])
  call : ∀ c, (ownership allowed).Follows [] (P.call c)
  start : (ownership allowed).Follows [] P.start

/-- A thread holds the locks that its code releases. -/
structure Owned (allowed : L → List L → Bool) (m : Machine L A σ) : Prop where
  thread : ∀ (i : Nat) (t : Thread L A), m.threads[i]? = some t → ∃ held,
    (ownership allowed).Follows held t.code ∧ held.Nodup ∧ ∀ l, l ∈ held ↔ m.holder l = some i
  holder_lt : ∀ l i, m.holder l = some i → i < m.threads.length

namespace Owned

variable {P : Program L A σ I C} {m m' : Machine L A σ}

/-- The running thread goes on with other code, and the locks of the others stay. -/
theorem update (h : Owned allowed m) (hRunning : m.running < m.threads.length)
    {code : List (Instr L A)} {flags : List Bool} {new : List (Thread L A)} {held : List L}
    (hThreads : m'.threads = m.threads.set m.running ⟨code, flags⟩ ++ new)
    (hNew : ∀ t ∈ new, (ownership allowed).Follows [] t.code)
    (hFollows : (ownership allowed).Follows held code) (hNodup : held.Nodup)
    (hMine : ∀ l, l ∈ held ↔ m'.holder l = some m.running)
    (hOthers : ∀ l, ∀ i ≠ m.running, m'.holder l = some i ↔ m.holder l = some i) :
    Owned allowed m' := by
  have hLt : ∀ l i, m'.holder l = some i → i < m.threads.length := by
    intro l i hHolder
    by_cases hi : i = m.running
    · rwa [hi]
    · exact h.holder_lt l i ((hOthers l i hi).mp hHolder)
  refine ⟨fun i t ht => ?_, fun l i hHolder => ?_⟩
  · rw [hThreads] at ht
    rcases Table.append_cases ht with hSet | ⟨hOut, hMem⟩
    · rcases Table.set_cases hSet with ⟨rfl, rfl⟩ | ⟨hNe, hOld⟩
      · exact ⟨held, hFollows, hNodup, hMine⟩
      · obtain ⟨held', hFollows', hNodup', hHolder⟩ := h.thread i t hOld
        exact ⟨held', hFollows', hNodup', fun l => (hHolder l).trans (hOthers l i hNe).symm⟩
    · rw [List.length_set] at hOut
      refine ⟨[], hNew t hMem, List.nodup_nil, fun l => ?_⟩
      exact iff_of_false (by simp) fun hHolder => Nat.not_lt.mpr hOut (hLt l i hHolder)
  · have hLength := hLt l i hHolder
    rw [hThreads, List.length_append, List.length_set]
    omega

/-- The running thread goes on with other code, and no lock changes its holder. -/
theorem recode (h : Owned allowed m) (hRunning : m.running < m.threads.length)
    {code : List (Instr L A)} {flags : List Bool} {new : List (Thread L A)} {held : List L}
    (hThreads : m'.threads = m.threads.set m.running ⟨code, flags⟩ ++ new)
    (hNew : ∀ t ∈ new, (ownership allowed).Follows [] t.code)
    (hFollows : (ownership allowed).Follows held code) (hNodup : held.Nodup)
    (hMine : ∀ l, l ∈ held ↔ m.holder l = some m.running) (hHolder : m'.holder = m.holder) :
    Owned allowed m' :=
  h.update hRunning hThreads hNew hFollows hNodup (by rwa [hHolder])
    fun l i _ => by rw [hHolder]

theorem lock (h : Owned allowed m) {l : L} {code : List (Instr L A)} {flags : List Bool}
    (hThread : m.threads[m.running]? = some ⟨.lock l :: code, flags⟩) (hFree : m.holder l = none) :
    Owned allowed { m.setThread code flags with
      holder := Function.update m.holder l (some m.running) } := by
  obtain ⟨held, hFollows, hNodup, hHeld⟩ := h.thread _ _ hThread
  have hNew : ∀ i, m.holder l ≠ some i := by simp [hFree]
  have hLt := (List.getElem?_eq_some_iff.mp hThread).1
  refine h.update hLt (List.append_nil _).symm (by simp) (follows_lock hFollows).2
    (List.nodup_cons.mpr ⟨fun hMem => hNew _ ((hHeld l).mp hMem), hNodup⟩)
    (fun l' => ?_) fun l' i hi => ?_
  · simp only [List.mem_cons, hHeld, Function.update_apply]
    by_cases hl : l' = l <;> simp [hl]
  · simp only [Function.update_apply]
    by_cases hl : l' = l
    · subst hl
      simp [hFree, Ne.symm hi]
    · simp [hl]

theorem unlock (h : Owned allowed m) {l : L} {code : List (Instr L A)} {flags : List Bool}
    (hThread : m.threads[m.running]? = some ⟨.unlock l :: code, flags⟩) :
    Owned allowed { m.setThread code flags with holder := Function.update m.holder l none } := by
  obtain ⟨held, hFollows, hNodup, hHeld⟩ := h.thread _ _ hThread
  obtain ⟨rest, rfl, hRest⟩ := follows_unlock hFollows
  obtain ⟨hNot, hNodup⟩ := List.nodup_cons.mp hNodup
  have hMine : m.holder l = some m.running := (hHeld l).mp (by simp)
  have hLt := (List.getElem?_eq_some_iff.mp hThread).1
  refine h.update hLt (List.append_nil _).symm (by simp) hRest hNodup (fun l' => ?_)
    fun l' i hi => ?_
  · simp only [Function.update_apply]
    by_cases hl : l' = l
    · simp [hl, hNot]
    · rw [if_neg hl, ← hHeld l']
      simp [hl]
  · simp only [Function.update_apply]
    by_cases hl : l' = l
    · subst hl
      simp [hMine, Ne.symm hi]
    · simp [hl]

theorem instr (hP : Balanced allowed P) (h : Owned allowed m) {instr : Instr L A}
    {code : List (Instr L A)} {flags : List Bool}
    (hThread : m.threads[m.running]? = some ⟨instr :: code, flags⟩)
    (hExec : P.execInstr m code flags instr = some m') : Owned allowed m' := by
  have hLt := (List.getElem?_eq_some_iff.mp hThread).1
  obtain ⟨held, hFollows, hNodup, hHeld⟩ := h.thread _ _ hThread
  cases instr with
  | lock l =>
    simp only [Program.execInstr] at hExec
    split at hExec
    · obtain rfl := Option.some.inj hExec
      exact h.lock hThread ‹_›
    · cases hExec
  | unlock l =>
    obtain rfl := Option.some.inj hExec
    exact h.unlock hThread
  | saveFlag | maskIfSaved | restoreFlag | sti | iret | act | switch =>
    obtain ⟨flags', n, hThreads⟩ := execInstr_threads hExec
    have hHolder : m'.holder = m.holder :=
      funext fun l => execInstr_holder (by simp) (by simp) hExec
    refine h.recode hLt hThreads (fun t ht => ?_) (follows_other (by simp) (by simp) hFollows) hNodup
      hHeld hHolder
    obtain ⟨-, rfl⟩ := List.mem_replicate.mp ht
    exact hP.start

theorem step (hP : Balanced allowed P) (h : Owned allowed m) {label : Label I C}
    (hStep : P.Step m label m') : Owned allowed m' := by
  obtain ⟨⟨code, flags⟩, ht, hCases⟩ := Program.Step.inv hStep
  have hLt := (List.getElem?_eq_some_iff.mp ht).1
  obtain ⟨held, hFollows, hNodup, hHeld⟩ := h.thread _ _ ht
  rcases hCases with ⟨instr, rest, rfl, rfl, hExec⟩ | ⟨i, rfl, -, rfl⟩ | ⟨c, rfl, rfl, rfl⟩
  · exact h.instr hP ht hExec
  · have hHandler := hP.handler i held code hFollows
    rw [List.append_assoc] at hHandler
    exact h.recode hLt (List.append_nil _).symm (by simp) hHandler hNodup hHeld rfl
  · obtain rfl : held = [] := hFollows
    exact h.recode hLt (List.append_nil _).symm (by simp) (hP.call c) hNodup hHeld rfl

/-- A lock is released by the thread that holds it. -/
theorem holder_of_unlock (h : Owned allowed m) {l : L} (hNext : m.next = some (.unlock l)) :
    m.holder l = some m.running := by
  obtain ⟨code, flags, hThread⟩ := Machine.thread_of_next hNext
  obtain ⟨held, hFollows, -, hHeld⟩ := h.thread _ _ hThread
  obtain ⟨rest, rfl, -⟩ := follows_unlock hFollows
  exact (hHeld l).mp (by simp)

/-- A thread that is at the request of a lock holds the locks with which it may be taken. -/
theorem allowed_of_request (h : Owned allowed m) {i : Nat} {l : L} {code : List (Instr L A)}
    {flags : List Bool} (hThread : m.threads[i]? = some ⟨.lock l :: code, flags⟩) :
    ∃ held, allowed l held = true ∧ ∀ l', l' ∈ held ↔ m.holder l' = some i := by
  obtain ⟨held, hFollows, -, hHeld⟩ := h.thread i _ hThread
  exact ⟨held, (follows_lock hFollows).1, hHeld⟩

/-- A step leaves the locks of the threads alone that do not run. -/
theorem holder_kept (h : Owned allowed m) {label : Label I C} (hStep : P.Step m label m') {i : Nat}
    (hi : i ≠ m.running) {l : L} (hHolder : m.holder l = some i) : m'.holder l = some i := by
  obtain ⟨⟨code, flags⟩, ht, hCases⟩ := Program.Step.inv hStep
  rcases hCases with ⟨instr, rest, rfl, rfl, hExec⟩ | ⟨j, rfl, -, rfl⟩ | ⟨c, rfl, rfl, rfl⟩
  · rw [execInstr_holder ?_ ?_ hExec]
    · exact hHolder
    · rintro rfl
      rw [execInstr_lock hExec] at hHolder
      cases hHolder
    · rintro rfl
      have hMine := h.holder_of_unlock (Machine.next_of_thread ht)
      exact hi (Option.some.inj (hHolder.symm.trans hMine))
  · exact hHolder
  · exact hHolder

end Owned

section Waiting

variable {P : Program L A σ I C} {m m' : Machine L A σ} {label : Label I C} {i : Nat}

/-- What a step does to a thread: nothing if it does not run, and otherwise it goes on, is
interrupted, or makes a call. -/
theorem thread_step (hStep : P.Step m label m') {t : Thread L A} (ht : m.threads[i]? = some t) :
    i ≠ m.running ∧ m'.threads[i]? = some t ∨ i = m.running ∧ ∃ t', m'.threads[i]? = some t' ∧
      ((∃ instr, t.code = instr :: t'.code ∧ ∀ l, instr = .lock l → m.holder l = none) ∨
        (∃ j, t'.code = P.handler j ++ .iret :: t.code) ∨
        ∃ c, t.code = [] ∧ t'.code = P.call c) := by
  obtain ⟨⟨code, flags⟩, hRunning, hCases⟩ := Program.Step.inv hStep
  -- The running thread is replaced by `t'`, and threads may be added.
  obtain ⟨t', new, hThreads, hNext⟩ : ∃ t' new, m'.threads = m.threads.set m.running t' ++ new ∧
      ((∃ instr, code = instr :: t'.code ∧ ∀ l, instr = .lock l → m.holder l = none) ∨
        (∃ j, t'.code = P.handler j ++ .iret :: code) ∨
        ∃ c, code = [] ∧ t'.code = P.call c) := by
    rcases hCases with ⟨instr, rest, rfl, rfl, hExec⟩ | ⟨j, rfl, -, rfl⟩ | ⟨c, rfl, rfl, rfl⟩
    · obtain ⟨flags', n, hThreads⟩ := execInstr_threads hExec
      refine ⟨⟨rest, flags'⟩, _, hThreads, .inl ⟨instr, rfl, ?_⟩⟩
      rintro l rfl
      exact execInstr_lock hExec
    · exact ⟨⟨P.handler j ++ .iret :: code, true :: flags⟩, [], (List.append_nil _).symm,
        .inr (.inl ⟨j, rfl⟩)⟩
    · exact ⟨⟨P.call c, flags⟩, [], (List.append_nil _).symm, .inr (.inr ⟨c, rfl, rfl⟩)⟩
  rw [hThreads]
  by_cases hi : i = m.running
  · subst hi
    obtain rfl := Option.some.inj (ht.symm.trans hRunning)
    exact .inr ⟨rfl, t', Table.append_old (Table.set_self ht), hNext⟩
  · exact .inl ⟨hi, Table.append_old ((List.getElem?_set_ne (Ne.symm hi)).trans ht)⟩

/-- A thread that is at the request of `l`, or in a handler on top of it. -/
def Machine.Awaits (m : Machine L A σ) (i : Nat) (l : L) : Prop :=
  ∃ t above rest, m.threads[i]? = some t ∧ t.code = above ++ .lock l :: rest

/-- While a lock is taken, nobody gets past the request of it. -/
theorem Machine.Awaits.step {l : L} (h : m.Awaits i l) (hTaken : m.holder l ≠ none)
    (hStep : P.Step m label m') : m'.Awaits i l := by
  obtain ⟨t, above, rest, ht, hCode⟩ := h
  rcases thread_step hStep ht with ⟨-, ht'⟩ | ⟨-, t', ht', hNext⟩
  · exact ⟨t, above, rest, ht', hCode⟩
  · rcases hNext with ⟨instr, hInstr, hFree⟩ | ⟨j, hHandler⟩ | ⟨c, hNil, -⟩
    · rw [hInstr] at hCode
      cases above with
      | nil =>
        obtain ⟨rfl, -⟩ := List.cons.inj hCode
        exact absurd (hFree l rfl) hTaken
      | cons _ above => exact ⟨t', above, rest, ht', (List.cons.inj hCode).2⟩
    · refine ⟨t', P.handler j ++ .iret :: above, rest, ht', ?_⟩
      rw [hHandler, hCode, List.append_assoc, List.cons_append]
    · rw [hNil] at hCode
      exact absurd hCode.symm (by simp)

end Waiting

/-! ### A thread that nothing switches away from -/

/-- Code that requests `l` before it switches, and does not release it. -/
def Blocked (l : L) : List (Instr L A) → Prop
  | [] => True
  | .lock l' :: code => l' = l ∨ Blocked l code
  | .unlock l' :: code => l' ≠ l ∧ Blocked l code
  | .switch :: _ => False
  | _ :: code => Blocked l code

omit [DecidableEq L] in
theorem Blocked.tail {l : L} {instr : Instr L A} {code : List (Instr L A)}
    (h : Blocked l (instr :: code)) (hLock : instr ≠ .lock l) :
    instr ≠ .switch ∧ instr ≠ .unlock l ∧ Blocked l code := by
  cases instr with
  | lock l' => exact ⟨by simp, by simp, Or.resolve_left h fun hEq => hLock (hEq ▸ rfl)⟩
  | unlock l' => exact ⟨by simp, fun hEq => h.1 (Instr.unlock.inj hEq), h.2⟩
  | switch => exact h.elim
  | saveFlag | maskIfSaved | restoreFlag | sti | iret | act => exact ⟨by simp, by simp, h⟩

/-- The running thread waits for `l'`, which thread `j` holds, and it holds `l`, which handlers
request before they switch. -/
structure Wedged (m : Machine L A σ) (l l' : L) (j : Nat) : Prop where
  mine : m.holder l = some m.running
  other : m.holder l' = some j
  ne : j ≠ m.running
  waits : ∃ t above rest, m.threads[m.running]? = some t ∧ t.code = above ++ .lock l' :: rest ∧
    Blocked l above

/-- The running thread stays where it is, for ever. -/
theorem Wedged.step {P : Program L A σ I C} {m m' : Machine L A σ} {l l' : L} {j : Nat}
    (hOwned : Owned allowed m)
    (hHandler : ∀ i code, Blocked l code → Blocked l (P.handler i ++ .iret :: code))
    (h : Wedged m l l' j) {label : Label I C} (hStep : P.Step m label m') :
    m'.running = m.running ∧ Wedged m' l l' j := by
  obtain ⟨hMine, hOther, hNe, t, above, rest, ht, hCode, hBlocked⟩ := h
  have hOther' := hOwned.holder_kept hStep hNe hOther
  obtain ⟨t₁, ht₁, hCases⟩ := Program.Step.inv hStep
  obtain rfl := Option.some.inj (ht.symm.trans ht₁)
  rcases hCases with ⟨instr, code, rfl, hInstr, hExec⟩ | ⟨i, rfl, -, rfl⟩ | ⟨c, rfl, hNil, -⟩
  · rw [hInstr] at hCode
    have hLock : instr ≠ .lock l := by
      rintro rfl
      rw [execInstr_lock hExec] at hMine
      cases hMine
    cases above with
    | nil =>
      obtain ⟨rfl, -⟩ := List.cons.inj hCode
      rw [execInstr_lock hExec] at hOther
      cases hOther
    | cons _ above =>
      obtain ⟨rfl, rfl⟩ := List.cons.inj hCode
      obtain ⟨hSwitch, hUnlock, hTail⟩ := hBlocked.tail hLock
      have hRunning := execInstr_running hSwitch hExec
      refine ⟨hRunning, ?_, hOther', by rwa [hRunning], ?_⟩
      · rw [execInstr_holder hLock hUnlock hExec, hRunning, hMine]
      · obtain ⟨flags', n, hThreads⟩ := execInstr_threads hExec
        refine ⟨⟨above ++ .lock l' :: rest, flags'⟩, above, rest, ?_, rfl, hTail⟩
        rw [hThreads, hRunning]
        exact Table.append_old (Table.set_self ht)
  · refine ⟨rfl, hMine, hOther', hNe, _, P.handler i ++ .iret :: above, rest, Table.set_self ht, ?_,
      hHandler i above hBlocked⟩
    rw [hCode, List.append_assoc, List.cons_append]
  · rw [hNil] at hCode
    exact absurd hCode.symm (by simp)

end RixOs.ProofKit.Interrupts

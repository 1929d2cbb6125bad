import Mathlib.Data.List.Basic

/-! Programs that change a state and may stop with an error.  The state at the stop is kept: a
caller can go on from it.  A triple says what holds of the state at either exit, and there is one
rule for each way to build a program. -/

namespace RixOs.ProofKit

abbrev Program (σ ε : Type) := ExceptT ε (StateM σ)

variable {σ ε α β ι : Type}

def Program.exec (x : Program σ ε α) (s : σ) : Except ε α × σ := (x.run.run s).run

theorem exec_bind (x : Program σ ε α) (f : α → Program σ ε β) (s : σ) :
    (x >>= f).exec s = match x.exec s with
      | (.ok a, t) => (f a).exec t
      | (.error e, t) => (.error e, t) := by
  change ((ExceptT.bindCont f (x.exec s).1).run (x.exec s).2).run = _
  match x.exec s with
  | (.ok _, _) => rfl
  | (.error _, _) => rfl

theorem exec_get (s : σ) : (get : Program σ ε σ).exec s = (.ok s, s) := rfl

theorem exec_liftExcept (x : Except ε α) (s : σ) :
    (liftExcept x : Program σ ε α).exec s = (x, s) := by
  cases x with
  | ok a => rfl
  | error e => rfl

theorem exec_tryCatch (x : Program σ ε α) (f : ε → Program σ ε α) (s : σ) :
    (tryCatch x f : Program σ ε α).exec s = match x.exec s with
      | (.ok a, t) => (.ok a, t)
      | (.error e, t) => (f e).exec t := by
  change ((match (x.exec s).1 with
    | .ok a => pure (.ok a)
    | .error e => (f e).run : StateM σ (Except ε α)).run (x.exec s).2).run = _
  match x.exec s with
  | (.ok _, _) => rfl
  | (.error _, _) => rfl

/-- From a state in `P` the program returns in `Q` or stops in `E`. -/
def Triple (P : σ → Prop) (x : Program σ ε α) (Q : α → σ → Prop) (E : ε → σ → Prop) : Prop :=
  ∀ s, P s → match x.exec s with
    | (.ok a, t) => Q a t
    | (.error e, t) => E e t

namespace Triple

variable {P P' : σ → Prop} {x : Program σ ε α} {Q Q' : α → σ → Prop} {E E' : ε → σ → Prop}

theorem ok {s t : σ} {a : α} (h : Triple P x Q E) (hs : P s) (hExec : x.exec s = (.ok a, t)) :
    Q a t := by
  have hOut := h s hs
  rwa [hExec] at hOut

theorem error {s t : σ} {e : ε} (h : Triple P x Q E) (hs : P s)
    (hExec : x.exec s = (.error e, t)) : E e t := by
  have hOut := h s hs
  rwa [hExec] at hOut

theorem imp (h : Triple P x Q E) (hP : ∀ s, P' s → P s) (hQ : ∀ a s, Q a s → Q' a s)
    (hE : ∀ e s, E e s → E' e s) : Triple P' x Q' E' := by
  intro s hs
  have hOut := h s (hP s hs)
  match hExec : x.exec s with
  | (.ok a, t) => exact hQ a t (by rwa [hExec] at hOut)
  | (.error e, t) => exact hE e t (by rwa [hExec] at hOut)

theorem exists_pre {P : ι → σ → Prop} (h : ∀ i, Triple (P i) x Q E) :
    Triple (fun s => ∃ i, P i s) x Q E :=
  fun s ⟨i, hs⟩ => h i s hs

theorem pure (a : α) : Triple (Q a) (pure a : Program σ ε α) Q E := fun _ hs => hs

theorem modify {Q : Unit → σ → Prop} (f : σ → σ) :
    Triple (fun s => Q () (f s)) (modify f : Program σ ε Unit) Q E := fun _ hs => hs

theorem bind {R : α → σ → Prop} {f : α → Program σ ε β} {Q : β → σ → Prop}
    (hx : Triple P x R E) (hf : ∀ a, Triple (R a) (f a) Q E) : Triple P (x >>= f) Q E := by
  intro s hs
  rw [exec_bind]
  match hExec : x.exec s with
  | (.ok a, t) => exact hf a t (hx.ok hs hExec)
  | (.error e, t) => exact hx.error hs hExec

/-- Reading the state: the continuation starts in the state that was read. -/
theorem get {f : σ → Program σ ε β} {Q : β → σ → Prop}
    (hf : ∀ s, P s → Triple (· = s) (f s) Q E) : Triple P (get >>= f) Q E := by
  intro s hs
  rw [exec_bind]
  exact hf s hs s rfl

/-- A loop over a list, with an invariant of the elements that are done. -/
theorem forM {I : List ι → σ → Prop} {body : ι → Program σ ε PUnit} {items : List ι}
    (hBody : ∀ done item rest, items = done ++ item :: rest →
      Triple (I done) (body item) (fun _ => I (done ++ [item])) E) :
    Triple (I []) (ForM.forM items body) (fun _ => I items) E := by
  suffices hRest : ∀ rest done, items = done ++ rest →
      Triple (I done) (ForM.forM rest body) (fun _ => I items) E from hRest items [] rfl
  intro rest
  induction rest with
  | nil =>
    intro done hItems
    rw [List.append_nil] at hItems
    subst hItems
    rw [List.forM_nil]
    exact Triple.pure (Q := fun _ => I items) PUnit.unit
  | cons item rest ih =>
    intro done hItems
    rw [List.forM_cons]
    exact (hBody done item rest hItems).bind fun _ => ih (done ++ [item]) (by simpa using hItems)

end Triple

end RixOs.ProofKit

import Mathlib.Data.List.Basic

/-! Runs of a labelled transition system.  A system is given by its step relation alone.  An
invariant of one step holds along every run, a run over a concatenation of labels meets an
intermediate state, a property that comes to hold along a run comes to hold at one step, and a
property that steps keep under a condition holds along a run exactly when its steps meet it. -/

namespace RixOs.ProofKit

variable {σ α : Type*}

/-- `Run Step s as t`: steps labelled `as`, in this order, lead from `s` to `t`. -/
inductive Run (Step : σ → α → σ → Prop) : σ → List α → σ → Prop
  | nil (s : σ) : Run Step s [] s
  | cons {s t u : σ} {a : α} {as : List α} (step : Step s a t) (rest : Run Step t as u) :
      Run Step s (a :: as) u

namespace Run

variable {Step : σ → α → σ → Prop} {s t u : σ} {a : α} {as bs : List α}

theorem single (step : Step s a t) : Run Step s [a] t := .cons step (.nil t)

theorem append (first : Run Step s as t) (second : Run Step t bs u) : Run Step s (as ++ bs) u := by
  induction first with
  | nil => exact second
  | cons step _ ih => exact .cons step (ih second)

/-- What every step preserves holds at the end of a run that starts with it. -/
theorem invariant {P : σ → Prop} (hStep : ∀ s a t, P s → Step s a t → P t)
    (run : Run Step s as t) (hs : P s) : P t := by
  induction run with
  | nil => exact hs
  | cons step _ ih => exact ih (hStep _ _ _ hs step)

/-- A reflexive and transitive relation that every step from a state in `P` meets relates the ends
of a run, when `P` is an invariant. -/
theorem relates {P : σ → Prop} {R : σ → σ → Prop} (hRefl : ∀ s, R s s)
    (hTrans : ∀ s t u, R s t → R t u → R s u)
    (hStep : ∀ s a t, P s → Step s a t → P t ∧ R s t)
    (run : Run Step s as t) (hs : P s) : R s t := by
  induction run with
  | nil s => exact hRefl s
  | cons step _ ih =>
    obtain ⟨ht, hR⟩ := hStep _ _ _ hs step
    exact hTrans _ _ _ hR (ih ht)

def execAll {ε : Type*} (exec : σ → α → Except ε σ) (s : σ) : List α → Except ε σ
  | [] => .ok s
  | a :: as => match exec s a with
    | .ok t => execAll exec t as
    | .error e => .error e

theorem execAll_ok_iff {ε : Type*} {exec : σ → α → Except ε σ} :
    execAll exec s as = .ok t ↔ Run (fun s a t => exec s a = .ok t) s as t := by
  constructor
  · intro h
    induction as generalizing s with
    | nil =>
      obtain rfl := Except.ok.inj h
      exact .nil s
    | cons a as ih =>
      rw [execAll] at h
      split at h
      · exact .cons ‹_› (ih h)
      · cases h
  · intro run
    induction run with
    | nil => rfl
    | cons step _ ih =>
      rw [execAll, step]
      exact ih

/-- The state that the labels lead to, where every step is computed and passes a test. -/
def execChecked (exec : σ → α → Option σ) (check : σ → α → Bool) (s : σ) : List α → Option σ
  | [] => some s
  | a :: as =>
    match check s a, exec s a with
    | true, some t => execChecked exec check t as
    | _, _ => none

theorem execChecked_run {exec : σ → α → Option σ} {check : σ → α → Bool}
    (h : execChecked exec check s as = some t) :
    Run (fun s a t => check s a = true ∧ exec s a = some t) s as t := by
  induction as generalizing s with
  | nil =>
    obtain rfl := Option.some.inj h
    exact .nil s
  | cons a as ih =>
    rw [execChecked] at h
    split at h
    · exact .cons ⟨‹_›, ‹_›⟩ (ih h)
    · cases h

theorem mono {Step' : σ → α → σ → Prop} (h : ∀ s a t, Step s a t → Step' s a t)
    (run : Run Step s as t) : Run Step' s as t := by
  induction run with
  | nil s => exact .nil s
  | cons step _ ih => exact .cons (h _ _ _ step) ih

/-- A property that fails at the start of a run and holds at its end was established by one of
its steps. -/
theorem first_step {P : σ → Prop} (run : Run Step s as t) (hs : ¬P s) (ht : P t) :
    ∃ before a after m m', as = before ++ a :: after ∧ Run Step s before m ∧ Step m a m' ∧
      Run Step m' after t ∧ ¬P m ∧ P m' := by
  induction run with
  | nil => exact absurd ht hs
  | @cons s m u a as step rest ih =>
    by_cases hm : P m
    · exact ⟨[], a, as, s, m, rfl, .nil s, step, rest, hs, hm⟩
    · obtain ⟨before, b, after, p, q, rfl, hBefore, hStep, hAfter, hp, hq⟩ := ih hm ht
      exact ⟨a :: before, b, after, p, q, rfl, .cons step hBefore, hStep, hAfter, hp, hq⟩

/-- The states along a run of deterministic steps: the first one, and those along the rest. -/
theorem forall_cons_iff {P : σ → Prop} (hDet : ∀ s a t t', Step s a t → Step s a t' → t = t')
    (step : Step s a t) :
    (∀ first last m, a :: as = first ++ last → Run Step s first m → P m) ↔
      P s ∧ ∀ first last m, as = first ++ last → Run Step t first m → P m := by
  constructor
  · intro hAll
    refine ⟨hAll [] (a :: as) s rfl (.nil s), fun first last m hSplit hRun => ?_⟩
    exact hAll (a :: first) last m (by rw [hSplit, List.cons_append]) (.cons step hRun)
  · rintro ⟨hs, hAll⟩ first last m hSplit hRun
    cases hRun with
    | nil => exact hs
    | cons step' hRun =>
      obtain ⟨rfl, hTail⟩ := List.cons.inj hSplit
      obtain rfl := hDet _ _ _ _ step step'
      exact hAll _ last m hTail hRun

theorem invariant_while {P W : σ → Prop}
    (hDet : ∀ s a t t', Step s a t → Step s a t' → t = t')
    (hStep : ∀ s a t, W s → P s → Step s a t → P t) (run : Run Step s as t)
    (hAll : ∀ first last m, as = first ++ last → Run Step s first m → W m) (hs : P s) : P t := by
  induction run with
  | nil => exact hs
  | cons step _ ih =>
    obtain ⟨hW, hRest⟩ := (forall_cons_iff hDet step).mp hAll
    exact ih hRest (hStep _ _ _ hW hs step)

/-- A property that fails at the start of a run and holds at its end was established for good by
one of its steps. -/
theorem last_step {P : σ → Prop} (hDet : ∀ s a t t', Step s a t → Step s a t' → t = t')
    (run : Run Step s as t) (hs : ¬P s) (ht : P t) :
    ∃ before a after m m', as = before ++ a :: after ∧ Run Step s before m ∧ Step m a m' ∧
      Run Step m' after t ∧ ¬P m ∧
      ∀ first last q, after = first ++ last → Run Step m' first q → P q := by
  suffices hAlways : (∀ first last m, as = first ++ last → Run Step s first m → P m) ∨
      ∃ before a after m m', as = before ++ a :: after ∧ Run Step s before m ∧ Step m a m' ∧
        Run Step m' after t ∧ ¬P m ∧
        ∀ first last q, after = first ++ last → Run Step m' first q → P q by
    exact hAlways.resolve_left fun hAll => hs (hAll [] as s rfl (.nil s))
  clear hs
  induction run with
  | nil s =>
    refine .inl fun first last m hSplit hRun => ?_
    obtain ⟨rfl, -⟩ := List.append_eq_nil_iff.mp hSplit.symm
    cases hRun
    exact ht
  | @cons s m u a as step rest ih =>
    rcases ih ht with hAll | ⟨before, b, after, p, q, rfl, hBefore, hStep, hAfter, hp, hq⟩
    · by_cases hs : P s
      · exact .inl ((forall_cons_iff hDet step).mpr ⟨hs, hAll⟩)
      · exact .inr ⟨[], a, as, s, m, rfl, .nil s, step, rest, hs, hAll⟩
    · exact .inr ⟨a :: before, b, after, p, q, rfl, .cons step hBefore, hStep, hAfter, hp, hq⟩

/-- The steps along a run of deterministic steps, each with the state before it. -/
theorem forall_steps_cons_iff {C : σ → α → Prop}
    (hDet : ∀ s a t t', Step s a t → Step s a t' → t = t') (step : Step s a t) :
    (∀ first b last m, a :: as = first ++ b :: last → Run Step s first m → C m b) ↔
      C s a ∧ ∀ first b last m, as = first ++ b :: last → Run Step t first m → C m b := by
  constructor
  · intro hAll
    refine ⟨hAll [] a as s rfl (.nil s), fun first b last m hSplit hRun => ?_⟩
    exact hAll (a :: first) b last m (by rw [hSplit, List.cons_append]) (.cons step hRun)
  · rintro ⟨hs, hAll⟩ first b last m hSplit hRun
    cases hRun with
    | nil =>
      obtain ⟨rfl, -⟩ := List.cons.inj hSplit
      exact hs
    | cons step' hRun =>
      obtain ⟨rfl, hTail⟩ := List.cons.inj hSplit
      obtain rfl := hDet _ _ _ _ step step'
      exact hAll _ b last m hTail hRun

/-- Where steps are deterministic and, from a state with `P`, a step keeps `P` exactly when the
condition `C` holds of it: all states along a run have `P` exactly when all its steps meet `C`. -/
theorem always_iff {I P : σ → Prop} {C : σ → α → Prop}
    (hDet : ∀ s a t t', Step s a t → Step s a t' → t = t')
    (hInv : ∀ s a t, I s → Step s a t → I t)
    (hStep : ∀ s a t, I s → P s → Step s a t → (P t ↔ C s a))
    (run : Run Step s as u) (hI : I s) (hP : P s) :
    (∀ first last m, as = first ++ last → Run Step s first m → P m) ↔
      ∀ first a last m, as = first ++ a :: last → Run Step s first m → C m a := by
  induction run with
  | nil s =>
    constructor
    · intro _ first a last m hSplit
      simp at hSplit
    · intro _ first last m hSplit hRun
      obtain ⟨rfl, -⟩ := List.append_eq_nil_iff.mp hSplit.symm
      cases hRun
      exact hP
  | @cons s t u a as step rest ih =>
    have hFirst := hStep s a t hI hP step
    have hRest := ih (hInv _ _ _ hI step)
    rw [forall_cons_iff hDet step, forall_steps_cons_iff hDet step]
    constructor
    · rintro ⟨-, hAll⟩
      have ht : P t := hAll [] as t rfl (.nil t)
      exact ⟨hFirst.mp ht, (hRest ht).mp hAll⟩
    · rintro ⟨hC, hAll⟩
      exact ⟨hP, (hRest (hFirst.mpr hC)).mpr hAll⟩

end Run

end RixOs.ProofKit

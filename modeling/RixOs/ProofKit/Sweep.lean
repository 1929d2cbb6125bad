import Mathlib.Data.List.Nodup
import Mathlib.Tactic.Common
import RixOs.ProofKit.Runs

/-! Round robin as sweeps over two queues: what the sweep that is under way still serves, and what
the next one serves.  One that arrives joins the sweep under way, and the one that is served joins
the next sweep when its turn ends.  One that waits is served after at most as many turns as there
are others in front of it, and as many more as arrive before the next sweep begins. -/

namespace RixOs.ProofKit

variable {ι : Type*}

/-- `current` is served now; `active` says whether it is served again. -/
structure Sweep (ι : Type*) where
  current : ι
  ahead : List ι
  behind : List ι
  active : Bool
  nodup : (current :: (ahead ++ behind)).Nodup

namespace Sweep

/-- The order in which those that wait are served if nothing else happens. -/
def queue (q : Sweep ι) : List ι := q.ahead ++ q.behind

def requeue (current : ι) (active : Bool) : List ι := if active then [current] else []

inductive Op (ι : Type*)
  | turn
  | arrive (i : ι)
  | leave (i : ι)

def Op.isTurn : Op ι → Bool
  | .turn => true
  | _ => false

def Op.isArrive : Op ι → Bool
  | .arrive _ => true
  | _ => false

theorem requeue_sublist (current : ι) (active : Bool) :
    (requeue current active).Sublist [current] := by
  unfold requeue
  split
  · exact List.Sublist.refl _
  · exact List.nil_sublist _

theorem nodup_requeue {c i : ι} {rest : List ι} (active : Bool) (h : (c :: i :: rest).Nodup) :
    (i :: (rest ++ requeue c active)).Nodup := by
  have hPerm : (i :: rest ++ [c]).Nodup := List.perm_append_comm.nodup_iff.mpr h
  exact hPerm.sublist (List.Sublist.append_left (requeue_sublist c active) (i :: rest))

/-- The turn of the one served ends: the next one in the queue is served, and a new sweep begins
where the one under way has no more to serve. -/
def turn : Sweep ι → Sweep ι
  | ⟨c, i :: ahead, behind, active, h⟩ =>
    ⟨i, ahead, behind ++ requeue c active, true, by
      rw [← List.append_assoc]
      exact nodup_requeue active h⟩
  | ⟨c, [], i :: behind, active, h⟩ =>
    ⟨i, behind ++ requeue c active, [], true, by
      rw [List.append_nil]
      exact nodup_requeue active h⟩
  | ⟨c, [], [], active, h⟩ => ⟨c, [], [], active, h⟩

theorem notMem_turn (q : Sweep ι) : q.turn.current ∉ q.turn.queue :=
  (List.nodup_cons.mp q.turn.nodup).1

theorem turn_ahead {q : Sweep ι} {i : ι} {rest : List ι} (h : q.ahead = i :: rest) :
    q.turn.current = i ∧ q.turn.ahead = rest ∧
      q.turn.behind = q.behind ++ requeue q.current q.active ∧ q.turn.active = true := by
  match q, h with
  | ⟨_, _ :: _, _, _, _⟩, rfl => exact ⟨rfl, rfl, rfl, rfl⟩

/-- A new sweep begins. -/
theorem turn_behind {q : Sweep ι} {i : ι} {rest : List ι} (hAhead : q.ahead = [])
    (h : q.behind = i :: rest) :
    q.turn.current = i ∧ q.turn.ahead = rest ++ requeue q.current q.active ∧
      q.turn.behind = [] ∧ q.turn.active = true := by
  match q, hAhead, h with
  | ⟨_, [], _ :: _, _, _⟩, _, rfl => exact ⟨rfl, rfl, rfl, rfl⟩

theorem turn_alone {q : Sweep ι} (h : q.queue = []) : q.turn = q := by
  match q, h with
  | ⟨_, [], [], _, _⟩, _ => rfl

theorem ahead_turn {q : Sweep ι} {t : ι} (hBefore : t ∈ q.ahead) (hAfter : t ∈ q.turn.queue) :
    t ∈ q.turn.ahead := by
  have hNe : t ≠ q.turn.current := by
    rintro rfl
    exact q.notMem_turn hAfter
  match q with
  | ⟨_, _ :: _, _, _, _⟩ => exact List.mem_of_ne_of_mem hNe hBefore

@[ext] theorem ext {q q' : Sweep ι} (hCurrent : q.current = q'.current)
    (hAhead : q.ahead = q'.ahead) (hBehind : q.behind = q'.behind) (hActive : q.active = q'.active) :
    q = q' := by
  cases q
  cases q'
  simp only at hCurrent hAhead hBehind hActive
  subst hCurrent hAhead hBehind hActive
  rfl

variable [DecidableEq ι]

def arrive (q : Sweep ι) (i : ι) : Sweep ι :=
  if h : i ∈ q.current :: q.queue then q
  else
    { q with
      ahead := q.ahead ++ [i]
      nodup := by
        have hCons : (i :: q.current :: (q.ahead ++ q.behind)).Nodup :=
          List.nodup_cons.mpr ⟨h, q.nodup⟩
        refine List.Perm.nodup_iff ?_ |>.mp hCons
        rw [List.append_assoc, List.singleton_append]
        exact (List.Perm.swap _ _ _).trans (.cons _ List.perm_middle.symm) }

def leave (q : Sweep ι) (i : ι) : Sweep ι where
  current := q.current
  ahead := q.ahead.filter (· ≠ i)
  behind := q.behind.filter (· ≠ i)
  active := q.active && q.current ≠ i
  nodup := by
    rw [← List.filter_append]
    exact q.nodup.sublist (List.filter_sublist.cons_cons _)

def step (q : Sweep ι) : Op ι → Sweep ι
  | .turn => q.turn
  | .arrive i => q.arrive i
  | .leave i => q.leave i

def exec (q : Sweep ι) (ops : List (Op ι)) : Sweep ι := ops.foldl step q

/-- The one that an operation begins to serve. -/
def next (q : Sweep ι) : Op ι → Option ι
  | .turn => q.queue.head?
  | _ => none

def served (q : Sweep ι) : List (Op ι) → List ι
  | [] => []
  | op :: ops => (q.next op).toList ++ (q.step op).served ops

theorem exec_append (q : Sweep ι) (ops ops' : List (Op ι)) :
    q.exec (ops ++ ops') = (q.exec ops).exec ops' := List.foldl_append

theorem served_append (q : Sweep ι) (ops ops' : List (Op ι)) :
    q.served (ops ++ ops') = q.served ops ++ (q.exec ops).served ops' := by
  induction ops generalizing q with
  | nil => rfl
  | cons op ops ih => rw [List.cons_append, served, served, ih, List.append_assoc]; rfl

theorem queue_leave (q : Sweep ι) (i : ι) : (q.leave i).queue = q.queue.filter (· ≠ i) :=
  (List.filter_append _ _).symm

/-! ### Waiting -/

/-- How many are served before `t`, if nothing else happens. -/
def place (q : Sweep ι) (t : ι) : Nat := q.queue.idxOf t

/-- `t` waits before and after each of the operations. -/
def Waits (t : ι) (q : Sweep ι) : List (Op ι) → Prop
  | [] => t ∈ q.queue
  | op :: ops => t ∈ q.queue ∧ Waits t (q.step op) ops

theorem Waits.mem {t : ι} {q : Sweep ι} {ops : List (Op ι)} (h : Waits t q ops) :
    t ∈ q.queue := by
  cases ops with
  | nil => exact h
  | cons => exact h.1

/-- Each turn brings the one that waits a place forward. -/
theorem place_turn {q : Sweep ι} {t : ι} (hBefore : t ∈ q.queue) (hAfter : t ∈ q.turn.queue) :
    q.turn.place t + 1 = q.place t := by
  have hNe : t ≠ q.turn.current := by
    rintro rfl
    exact q.notMem_turn hAfter
  match q with
  | ⟨c, i :: ahead, behind, active, _⟩ =>
    have hNe : t ≠ i := hNe
    have hMem : t ∈ ahead ++ behind := List.mem_of_ne_of_mem hNe hBefore
    show (ahead ++ (behind ++ requeue c active)).idxOf t + 1 = (i :: (ahead ++ behind)).idxOf t
    rw [List.idxOf_cons_ne _ hNe.symm, ← List.append_assoc, List.idxOf_append_of_mem hMem]
  | ⟨c, [], i :: behind, active, _⟩ =>
    have hNe : t ≠ i := hNe
    have hMem : t ∈ behind := List.mem_of_ne_of_mem hNe hBefore
    show ((behind ++ requeue c active) ++ []).idxOf t + 1 = (i :: behind).idxOf t
    rw [List.idxOf_cons_ne _ hNe.symm, List.append_nil, List.idxOf_append_of_mem hMem]
  | ⟨c, [], [], active, _⟩ => cases hBefore

theorem place_arrive (q : Sweep ι) (t i : ι) :
    (q.arrive i).place t ≤ q.place t + 1 ∧ (t ∈ q.ahead → (q.arrive i).place t = q.place t) := by
  unfold arrive
  split
  · exact ⟨Nat.le_succ _, fun _ => rfl⟩
  · simp only [place, queue]
    by_cases hAhead : t ∈ q.ahead
    · rw [List.append_assoc, List.idxOf_append_of_mem hAhead, List.idxOf_append_of_mem hAhead]
      exact ⟨Nat.le_succ _, fun _ => rfl⟩
    · refine ⟨?_, fun h => absurd h hAhead⟩
      rw [List.append_assoc, List.idxOf_append_of_notMem hAhead,
        List.idxOf_append_of_notMem hAhead, List.singleton_append, List.idxOf_cons]
      cases i == t <;> simp only [cond_true, cond_false] <;> omega

theorem ahead_arrive {q : Sweep ι} {t : ι} (hAhead : t ∈ q.ahead) (i : ι) :
    t ∈ (q.arrive i).ahead := by
  unfold arrive
  split
  · exact hAhead
  · exact List.mem_append_left _ hAhead

theorem idxOf_filter_le {p : ι → Bool} {t : ι} (hKept : p t = true) (l : List ι) :
    (l.filter p).idxOf t ≤ l.idxOf t := by
  induction l with
  | nil => exact Nat.le_refl _
  | cons i l ih =>
    by_cases hEq : i = t
    · subst hEq
      rw [List.filter_cons_of_pos hKept, List.idxOf_cons_self]
      exact Nat.zero_le _
    · rw [List.idxOf_cons_ne l hEq, List.filter_cons]
      split
      · rw [List.idxOf_cons_ne _ hEq]
        exact Nat.succ_le_succ ih
      · exact Nat.le_succ_of_le ih

theorem place_leave {q : Sweep ι} {t i : ι} (hAfter : t ∈ (q.leave i).queue) :
    (q.leave i).place t ≤ q.place t := by
  rw [queue_leave] at hAfter
  rw [place, queue_leave]
  exact idxOf_filter_le (p := fun j => j ≠ i) (List.mem_filter.mp hAfter).2 _

theorem ahead_leave {q : Sweep ι} {t i : ι} (hBefore : t ∈ q.ahead)
    (hAfter : t ∈ (q.leave i).queue) : t ∈ (q.leave i).ahead := by
  rw [queue_leave] at hAfter
  exact List.mem_filter.mpr ⟨hBefore, (List.mem_filter.mp hAfter).2⟩

/-- One operation: the turns that are over and the place that is left, against the place before and
the arrivals, which count only for one that waits for the next sweep. -/
theorem place_step {q : Sweep ι} {t : ι} {op : Op ι} (hBefore : t ∈ q.queue)
    (hAfter : t ∈ (q.step op).queue) :
    op.isTurn.toNat + (q.step op).place t ≤ q.place t + op.isArrive.toNat ∧
      (t ∈ q.ahead →
        t ∈ (q.step op).ahead ∧ op.isTurn.toNat + (q.step op).place t ≤ q.place t) := by
  cases op with
  | turn =>
    have hPlace := place_turn hBefore hAfter
    simp only [step, Op.isTurn, Op.isArrive, Bool.toNat_true, Bool.toNat_false]
    exact ⟨by omega, fun hAhead => ⟨ahead_turn hAhead hAfter, by omega⟩⟩
  | arrive i =>
    obtain ⟨hPlace, hSame⟩ := place_arrive q t i
    simp only [step, Op.isTurn, Op.isArrive, Bool.toNat_true, Bool.toNat_false]
    exact ⟨by omega, fun hAhead => ⟨ahead_arrive hAhead i, by have := hSame hAhead; omega⟩⟩
  | leave i =>
    have hPlace := place_leave hAfter
    simp only [step, Op.isTurn, Op.isArrive, Bool.toNat_false]
    exact ⟨by omega, fun hAhead => ⟨ahead_leave hAhead hAfter, by omega⟩⟩

/-- Bounded waiting. -/
theorem Waits.bound {q : Sweep ι} {t : ι} {ops : List (Op ι)} (h : Waits t q ops) :
    ops.countP Op.isTurn + (q.exec ops).place t ≤ q.place t + ops.countP Op.isArrive ∧
      (t ∈ q.ahead → ops.countP Op.isTurn + (q.exec ops).place t ≤ q.place t) := by
  induction ops generalizing q with
  | nil => exact ⟨by simp [exec], fun _ => by simp [exec]⟩
  | cons op ops ih =>
    obtain ⟨hBefore, hRest⟩ := h
    obtain ⟨hStep, hStepAhead⟩ := place_step hBefore hRest.mem
    obtain ⟨hBound, hBoundAhead⟩ := ih hRest
    have hTurns : (op :: ops).countP Op.isTurn = ops.countP Op.isTurn + op.isTurn.toNat := by
      rw [List.countP_cons]
      cases op.isTurn <;> rfl
    have hArrivals : (op :: ops).countP Op.isArrive = ops.countP Op.isArrive + op.isArrive.toNat := by
      rw [List.countP_cons]
      cases op.isArrive <;> rfl
    rw [hTurns, hArrivals, show q.exec (op :: ops) = (q.step op).exec ops from rfl]
    refine ⟨by omega, fun hAhead => ?_⟩
    obtain ⟨hAhead', hLe⟩ := hStepAhead hAhead
    have := hBoundAhead hAhead'
    omega

theorem served_leave (q : Sweep ι) (is : List ι) : q.served (is.map .leave) = [] := by
  induction is generalizing q with
  | nil => rfl
  | cons i is ih => exact ih (q.leave i)

theorem Waits.append {q : Sweep ι} {t : ι} {ops ops' : List (Op ι)} (h : Waits t q ops)
    (h' : Waits t (q.exec ops) ops') : Waits t q (ops ++ ops') := by
  induction ops generalizing q with
  | nil => exact h'
  | cons op ops ih => exact ⟨h.1, ih h.2 h'⟩

/-- One that waits after others left waited while they left. -/
theorem Waits.of_leave {q : Sweep ι} {t : ι} {is : List ι}
    (h : t ∈ (q.exec (is.map .leave)).queue) : Waits t q (is.map .leave) := by
  induction is generalizing q with
  | nil => exact h
  | cons i is ih =>
    have hRest := ih h
    have hMem := hRest.mem
    rw [step, queue_leave] at hMem
    exact ⟨(List.mem_filter.mp hMem).1, hRest⟩

/-- While one waits, every turn that ends begins another one. -/
theorem Waits.served_length {q : Sweep ι} {t : ι} {ops : List (Op ι)} (h : Waits t q ops) :
    (q.served ops).length = ops.countP Op.isTurn := by
  induction ops generalizing q with
  | nil => rfl
  | cons op ops ih =>
    obtain ⟨hBefore, hRest⟩ := h
    rw [served, List.length_append, ih hRest]
    cases op with
    | turn =>
      obtain ⟨i, rest, hQueue⟩ := List.exists_cons_of_ne_nil (List.ne_nil_of_mem hBefore)
      rw [List.countP_cons_of_pos rfl, next, hQueue]
      exact Nat.add_comm _ _
    | arrive | leave =>
      rw [List.countP_cons_of_neg (by simp [Op.isTurn])]
      exact Nat.zero_add _

end Sweep

/-! ### Systems with a queue -/

open Sweep

/-- A system whose states have a queue: a step is one operation of it, or it makes others leave. -/
structure Queued (ι σ α : Type*) [DecidableEq ι] where
  exec : σ → α → Option σ
  Inv : σ → Prop
  queue : σ → Sweep ι
  ops : σ → α → List (Op ι)
  shape : ∀ s a, (∃ op, ops s a = [op]) ∨ ∃ is : List ι, ops s a = is.map .leave
  step : ∀ {s a t}, Inv s → exec s a = some t → Inv t ∧ queue t = (queue s).exec (ops s a)

namespace Queued

variable {σ α : Type*} [DecidableEq ι] (S : Queued ι σ α)

def Step (s : σ) (a : α) (t : σ) : Prop := S.exec s a = some t

/-- The operations of a run. -/
def trace (s : σ) : List α → List (Op ι)
  | [] => []
  | a :: as =>
    match S.exec s a with
    | some t => S.ops s a ++ trace t as
    | none => []

variable {S} {s t : σ} {as : List α} {i : ι}

theorem trace_cons {a : α} (step : S.Step s a t) : S.trace s (a :: as) = S.ops s a ++ S.trace t as := by
  rw [trace, show S.exec s a = some t from step]

theorem run_queue (run : Run S.Step s as t) (hInv : S.Inv s) :
    S.queue t = (S.queue s).exec (S.trace s as) := by
  induction run with
  | nil => rfl
  | cons step _ ih =>
    obtain ⟨hNext, hQueue⟩ := S.step hInv step
    rw [trace_cons step, exec_append, ← hQueue]
    exact ih hNext

theorem countP_trace {p : Op ι → Bool} {c : α → Bool} (h : ∀ s a, (S.ops s a).countP p = (c a).toNat)
    (run : Run S.Step s as t) : (S.trace s as).countP p = as.countP c := by
  induction run with
  | nil => rfl
  | @cons _ _ _ a as step _ ih =>
    rw [trace_cons step, List.countP_append, h, ih, List.countP_cons, Nat.add_comm]
    cases c a <;> rfl

/-- One that waits in every state of a run waits through its operations. -/
theorem waits (run : Run S.Step s as t) (hInv : S.Inv s)
    (hWaits : ∀ first last m, as = first ++ last → Run S.Step s first m → i ∈ (S.queue m).queue) :
    Waits i (S.queue s) (S.trace s as) := by
  induction run with
  | nil s => exact hWaits [] [] s rfl (.nil s)
  | @cons s m t a as step rest ih =>
    obtain ⟨hNext, hQueue⟩ := S.step hInv step
    have hBefore := hWaits [] (a :: as) s rfl (.nil s)
    have hAfter := hWaits [a] as m rfl (.single step)
    have hRest := ih hNext fun first last m' hSplit hRun =>
      hWaits (a :: first) last m' (by rw [hSplit, List.cons_append]) (.cons step hRun)
    rw [hQueue] at hAfter hRest
    rw [trace_cons step]
    refine Waits.append ?_ hRest
    rcases S.shape s a with ⟨op, hOps⟩ | ⟨is, hOps⟩
    · rw [hOps] at hAfter ⊢
      exact ⟨hBefore, hAfter⟩
    · rw [hOps] at hAfter ⊢
      exact Waits.of_leave hAfter

/-- Bounded waiting, along a run in whose states `i` waits. -/
theorem waiting_bound (run : Run S.Step s as t) (hInv : S.Inv s)
    (hWaits : ∀ first last m, as = first ++ last → Run S.Step s first m → i ∈ (S.queue m).queue) :
    ((S.queue s).served (S.trace s as)).length = (S.trace s as).countP Op.isTurn ∧
      (S.trace s as).countP Op.isTurn + (S.queue t).place i ≤
        (S.queue s).place i + (S.trace s as).countP Op.isArrive ∧
      (i ∈ (S.queue s).ahead →
        (S.trace s as).countP Op.isTurn + (S.queue t).place i ≤ (S.queue s).place i) := by
  have h := waits run hInv hWaits
  rw [run_queue run hInv]
  exact ⟨h.served_length, h.bound⟩

end Queued

end RixOs.ProofKit

import Mathlib.Data.List.Pairwise
import Mathlib.Logic.Function.Basic
import Mathlib.Data.List.Perm.Basic
import RixOs.ProofKit.Runs

/-! Programs on a heap that they share.  A task allocates blocks, reads and writes single bytes and
frees blocks; between any two of its steps, others allocate blocks of their own, write to them and
free them.  The allocator hands out blocks that overlap no live one.  Then what a task owns is its
own: a precondition on the blocks that it owns, computed from the task alone, holds along every
interleaving. -/

namespace RixOs.ProofKit

/-- An allocator with states in `H`, for layouts in `L`. -/
structure Allocator (H L : Type) where
  size : L → Nat
  alloc : H → L → Option Nat × H
  dealloc : H → Nat → L → H

namespace Allocator

variable {H L : Type} (allocator : Allocator H L)

/-- Calls lead from `h₀` to `h` and leave the blocks in `live`, in any order. -/
inductive Uses (h₀ : H) : H → List (Nat × L) → Prop
  | start : Uses h₀ h₀ []
  | alloc {h h' : H} {live : List (Nat × L)} {layout : L} {ptr : Nat} (before : Uses h₀ h live)
      (call : allocator.alloc h layout = (some ptr, h')) : Uses h₀ h' ((ptr, layout) :: live)
  | null {h h' : H} {live : List (Nat × L)} {layout : L} (before : Uses h₀ h live)
      (call : allocator.alloc h layout = (none, h')) : Uses h₀ h' live
  | dealloc {h : H} {live rest : List (Nat × L)} {layout : L} {ptr : Nat}
      (before : Uses h₀ h live) (allocated : live.Perm ((ptr, layout) :: rest)) :
      Uses h₀ (allocator.dealloc h ptr layout) rest
  | perm {h : H} {live live' : List (Nat × L)} (before : Uses h₀ h live)
      (perm : live.Perm live') : Uses h₀ h live'

/-- Two blocks do not overlap. -/
def Apart (b b' : Nat × L) : Prop :=
  b.1 + allocator.size b.2 ≤ b'.1 ∨ b'.1 + allocator.size b'.2 ≤ b.1

/-- What is allocated overlaps no live block. -/
def Disjoint (h₀ : H) : Prop :=
  ∀ {h live layout ptr h'}, allocator.Uses h₀ h live →
    allocator.alloc h layout = (some ptr, h') → ∀ b ∈ live, allocator.Apart (ptr, layout) b

variable {allocator} {h₀ h : H} {live : List (Nat × L)} {b b' : Nat × L}

theorem Apart.symm (h : allocator.Apart b b') : allocator.Apart b' b := Or.symm h

theorem pairwise_perm {live' : List (Nat × L)} (h : live.Perm live') :
    live.Pairwise allocator.Apart ↔ live'.Pairwise allocator.Apart :=
  h.pairwise_iff Apart.symm

theorem Disjoint.pairwise (hDisjoint : allocator.Disjoint h₀) (hUses : allocator.Uses h₀ h live) :
    live.Pairwise allocator.Apart := by
  induction hUses with
  | start => exact .nil
  | alloc before call ih => exact .cons (hDisjoint before call) ih
  | null _ _ ih => exact ih
  | dealloc _ allocated ih => exact ((pairwise_perm allocated).mp ih).tail
  | perm _ perm ih => exact (pairwise_perm perm).mp ih

end Allocator

/-! ### Tasks -/

/-- What a task does next.  It ends with a value, by a panic, or because the memory is used up. -/
inductive HeapTask (L α : Type)
  | done (value : α)
  | alloc (layout : L) (next : Nat → HeapTask L α)
  | dealloc (ptr : Nat) (layout : L) (next : HeapTask L α)
  | read (addr : Nat) (next : UInt8 → HeapTask L α)
  | write (addr : Nat) (value : UInt8) (next : HeapTask L α)
  | outOfMemory
  | panicked

namespace HeapTask

variable {H L α β : Type}

def bind : HeapTask L α → (α → HeapTask L β) → HeapTask L β
  | done value, f => f value
  | alloc layout next, f => alloc layout fun ptr => (next ptr).bind f
  | dealloc ptr layout next, f => dealloc ptr layout (next.bind f)
  | read addr next, f => read addr fun value => (next value).bind f
  | write addr value next, f => write addr value (next.bind f)
  | outOfMemory, _ => outOfMemory
  | panicked, _ => panicked

instance : Monad (HeapTask L) where
  pure := done
  bind := bind

end HeapTask

/-- The bytes, and the live blocks of a task and of others. -/
structure SharedHeap (H L : Type) where
  heap : H
  bytes : Nat → UInt8
  mine : List (Nat × L)
  others : List (Nat × L)

inductive Side
  | task
  | others
  deriving DecidableEq, Repr

section Steps

variable {H L α : Type}

/-- The address lies in the block. -/
def Allocator.Holds (allocator : Allocator H L) (b : Nat × L) (addr : Nat) : Prop :=
  b.1 ≤ addr ∧ addr < b.1 + allocator.size b.2

theorem Allocator.Apart.not_holds {allocator : Allocator H L} {b b' : Nat × L} {addr : Nat}
    (h : allocator.Apart b b') (hHolds : allocator.Holds b addr) : ¬allocator.Holds b' addr := by
  rintro ⟨hLow, hHigh⟩
  obtain ⟨hLow', hHigh'⟩ := hHolds
  rcases h with h | h <;> omega

/-- The task may write anywhere.  Others write to their blocks, and what is in no block may change
at any time: the allocator keeps its lists there. -/
inductive HeapTask.Step (allocator : Allocator H L) :
    HeapTask L α × SharedHeap H L → Side → HeapTask L α × SharedHeap H L → Prop
  | alloc {s : SharedHeap H L} {layout : L} {next : Nat → HeapTask L α} {ptr : Nat} {h : H}
      (call : allocator.alloc s.heap layout = (some ptr, h)) :
      Step allocator (.alloc layout next, s) .task
        (next ptr, { s with heap := h, mine := (ptr, layout) :: s.mine })
  | outOfMemory {s : SharedHeap H L} {layout : L} {next : Nat → HeapTask L α} {h : H}
      (call : allocator.alloc s.heap layout = (none, h)) :
      Step allocator (.alloc layout next, s) .task (.outOfMemory, { s with heap := h })
  | dealloc {s : SharedHeap H L} {layout : L} {next : HeapTask L α} {ptr : Nat}
      {rest : List (Nat × L)} (owned : s.mine.Perm ((ptr, layout) :: rest)) :
      Step allocator (.dealloc ptr layout next, s) .task
        (next, { s with heap := allocator.dealloc s.heap ptr layout, mine := rest })
  | read {s : SharedHeap H L} {addr : Nat} {next : UInt8 → HeapTask L α} :
      Step allocator (.read addr next, s) .task (next (s.bytes addr), s)
  | write {s : SharedHeap H L} {addr : Nat} {value : UInt8} {next : HeapTask L α} :
      Step allocator (.write addr value next, s) .task
        (next, { s with bytes := Function.update s.bytes addr value })
  | otherAlloc {s : SharedHeap H L} {task : HeapTask L α} {layout : L} {ptr : Nat} {h : H}
      (call : allocator.alloc s.heap layout = (some ptr, h)) :
      Step allocator (task, s) .others
        (task, { s with heap := h, others := (ptr, layout) :: s.others })
  | otherNull {s : SharedHeap H L} {task : HeapTask L α} {layout : L} {h : H}
      (call : allocator.alloc s.heap layout = (none, h)) :
      Step allocator (task, s) .others (task, { s with heap := h })
  | otherDealloc {s : SharedHeap H L} {task : HeapTask L α} {layout : L} {ptr : Nat}
      {rest : List (Nat × L)} (owned : s.others.Perm ((ptr, layout) :: rest)) :
      Step allocator (task, s) .others
        (task, { s with heap := allocator.dealloc s.heap ptr layout, others := rest })
  | otherWrite {s : SharedHeap H L} {task : HeapTask L α} {b : Nat × L} {addr : Nat}
      {value : UInt8} (owned : b ∈ s.others) (inside : allocator.Holds b addr) :
      Step allocator (task, s) .others
        (task, { s with bytes := Function.update s.bytes addr value })
  | freeWrite {s : SharedHeap H L} {task : HeapTask L α} {addr : Nat} {value : UInt8}
      (free : ∀ b ∈ s.mine ++ s.others, ¬allocator.Holds b addr) :
      Step allocator (task, s) .others
        (task, { s with bytes := Function.update s.bytes addr value })

/-- The next step of the task stays within its blocks, and is not a panic. -/
def HeapTask.Within (allocator : Allocator H L) (mine : List (Nat × L)) : HeapTask L α → Prop
  | .dealloc ptr layout _ => (ptr, layout) ∈ mine
  | .read addr _ => ∃ b ∈ mine, allocator.Holds b addr
  | .write addr _ _ => ∃ b ∈ mine, allocator.Holds b addr
  | .panicked => False
  | _ => True

/-- Steps of the task alone lead to its end. -/
def HeapTask.Ends (allocator : Allocator H L) (t : HeapTask L α × SharedHeap H L) : Prop :=
  ∃ sides t', Run (Step allocator) t sides t' ∧ (∀ side ∈ sides, side = .task) ∧
    ((∃ value, t'.1 = .done value) ∨ t'.1 = .outOfMemory)

end Steps

/-! ### Preconditions -/

/-- A block that a task owns, with its bytes by their offset. -/
structure Block (L : Type) where
  ptr : Nat
  layout : L
  contents : Nat → UInt8

section Preconditions

variable {H L α β : Type}

namespace Block

def place (b : Block L) : Nat × L := (b.ptr, b.layout)

def set (b : Block L) (i : Nat) (value : UInt8) : Block L :=
  { b with contents := Function.update b.contents i value }

@[simp] theorem place_set (b : Block L) (i : Nat) (value : UInt8) :
    (b.set i value).place = b.place := rfl

end Block

variable (allocator : Allocator H L)

/-- With the blocks in `own`, and whatever others do, the task never panics, keeps to its blocks,
and ends in `Q`. -/
def HeapTask.wp : HeapTask L α → (α → List (Block L) → Prop) → List (Block L) → Prop
  | .done value, Q, own => Q value own
  | .alloc layout next, Q, own =>
    ∀ ptr contents, (next ptr).wp Q (own ++ [⟨ptr, layout, contents⟩])
  | .dealloc ptr layout next, Q, own => ∃ before b after, own = before ++ b :: after ∧
    b.place = (ptr, layout) ∧ next.wp Q (before ++ after)
  | .read addr next, Q, own => ∃ b ∈ own, allocator.Holds b.place addr ∧
    (next (b.contents (addr - b.ptr))).wp Q own
  | .write addr value next, Q, own => ∃ before b after, own = before ++ b :: after ∧
    allocator.Holds b.place addr ∧ next.wp Q (before ++ b.set (addr - b.ptr) value :: after)
  | .outOfMemory, _, _ => True
  | .panicked, _, _ => False

namespace HeapTask

variable {allocator} {task : HeapTask L α} {own : List (Block L)}

theorem wp_bind {f : α → HeapTask L β} {R : β → List (Block L) → Prop}
    (h : task.wp allocator (fun value own => (f value).wp allocator R own) own) :
    (task >>= f).wp allocator R own := by
  change (task.bind f).wp allocator R own
  induction task generalizing own with
  | done value => exact h
  | alloc layout next ih => exact fun ptr contents => ih ptr (h ptr contents)
  | dealloc ptr layout next ih =>
    obtain ⟨before, b, after, hOwn, hPlace, hNext⟩ := h
    exact ⟨before, b, after, hOwn, hPlace, ih hNext⟩
  | read addr next ih =>
    obtain ⟨b, hMem, hInside, hNext⟩ := h
    exact ⟨b, hMem, hInside, ih _ hNext⟩
  | write addr value next ih =>
    obtain ⟨before, b, after, hOwn, hInside, hNext⟩ := h
    exact ⟨before, b, after, hOwn, hInside, ih hNext⟩
  | outOfMemory => exact trivial
  | panicked => exact h

end HeapTask

end Preconditions

/-! ### Soundness -/

section Soundness

variable {H L α : Type} {allocator : Allocator H L} {h₀ : H} {s s' : SharedHeap H L}
  {own : List (Block L)} {task task' : HeapTask L α} {Q : α → List (Block L) → Prop}

/-- The blocks of the task are those in `own`, with their bytes. -/
structure SharedHeap.Owns (allocator : Allocator H L) (s : SharedHeap H L)
    (own : List (Block L)) : Prop where
  places : s.mine.Perm (own.map Block.place)
  bytes : ∀ b ∈ own, ∀ i < allocator.size b.layout, s.bytes (b.ptr + i) = b.contents i

/-- The live blocks are what the allocator has handed out. -/
def SharedHeap.Valid (allocator : Allocator H L) (h₀ : H) (s : SharedHeap H L) : Prop :=
  allocator.Uses h₀ s.heap (s.mine ++ s.others)

namespace SharedHeap.Owns

/-- A write that misses every block of the task. -/
theorem update (h : s.Owns allocator own) {addr : Nat} (value : UInt8)
    (hMiss : ∀ b ∈ s.mine, ¬allocator.Holds b addr) :
    SharedHeap.Owns allocator { s with bytes := Function.update s.bytes addr value } own := by
  refine ⟨h.places, fun b hb i hi => ?_⟩
  have hPlace : b.place ∈ s.mine := h.places.mem_iff.mpr (List.mem_map_of_mem hb)
  have hNe : b.ptr + i ≠ addr := by
    rintro rfl
    exact hMiss b.place hPlace ⟨Nat.le_add_right .., Nat.add_lt_add_left hi _⟩
  exact (Function.update_of_ne hNe ..).trans (h.bytes b hb i hi)

/-- A write to a block of the task changes no other one. -/
theorem write {before after : List (Block L)} {b : Block L} {addr : Nat} (value : UInt8)
    (h : s.Owns allocator (before ++ b :: after))
    (hApart : s.mine.Pairwise allocator.Apart) (hInside : allocator.Holds b.place addr) :
    SharedHeap.Owns allocator { s with bytes := Function.update s.bytes addr value }
      (before ++ b.set (addr - b.ptr) value :: after) := by
  have hOwn := (Allocator.pairwise_perm h.places).mp hApart
  rw [List.pairwise_map, List.pairwise_append, List.pairwise_cons] at hOwn
  obtain ⟨-, ⟨hAfter, -⟩, hBefore⟩ := hOwn
  have hOther : ∀ b' ∈ before ++ b :: after, allocator.Apart b.place b'.place →
      ∀ i < allocator.size b'.layout,
        Function.update s.bytes addr value (b'.ptr + i) = b'.contents i := by
    intro b' hb' hAway i hi
    have hNe : b'.ptr + i ≠ addr := by
      rintro rfl
      exact hAway.not_holds hInside ⟨Nat.le_add_right .., Nat.add_lt_add_left hi _⟩
    rw [Function.update_of_ne hNe]
    exact h.bytes b' hb' i hi
  refine ⟨?_, fun b' hb' i hi => ?_⟩
  · rw [List.map_append, List.map_cons, Block.place_set, ← List.map_cons, ← List.map_append]
    exact h.places
  · rcases List.mem_append.mp hb' with hMem | hMem
    · exact hOther b' (List.mem_append_left _ hMem)
        (hBefore b' hMem b List.mem_cons_self).symm i hi
    · rcases List.mem_cons.mp hMem with rfl | hMem
      · by_cases hAddr : b.ptr + i = addr
        · subst hAddr
          rw [Nat.add_sub_cancel_left]
          exact (Function.update_self ..).trans (Function.update_self i value b.contents).symm
        · obtain ⟨hLow, -⟩ := hInside
          have hOffset : i ≠ addr - b.ptr := by
            change b.ptr ≤ addr at hLow
            omega
          calc Function.update s.bytes addr value (b.ptr + i) = s.bytes (b.ptr + i) :=
                Function.update_of_ne hAddr ..
            _ = b.contents i := h.bytes b (by simp) i hi
            _ = Function.update b.contents (addr - b.ptr) value i :=
                (Function.update_of_ne hOffset ..).symm
      · exact hOther b' (List.mem_append_right _ (List.mem_cons_of_mem _ hMem))
          (hAfter b' hMem) i hi

/-- A block that was handed out, with whatever bytes it has. -/
theorem alloc (h : s.Owns allocator own) (heap : H) (ptr : Nat) (layout : L) :
    SharedHeap.Owns allocator { s with heap := heap, mine := (ptr, layout) :: s.mine }
      (own ++ [⟨ptr, layout, fun i => s.bytes (ptr + i)⟩]) := by
  refine ⟨?_, fun b hb i hi => ?_⟩
  · rw [List.map_append, List.map_singleton]
    exact (h.places.cons (ptr, layout)).trans (List.perm_append_singleton (ptr, layout) _).symm
  · rcases List.mem_append.mp hb with hb | hb
    · exact h.bytes b hb i hi
    · obtain rfl := List.mem_singleton.mp hb
      rfl

theorem dealloc {before after : List (Block L)} {b : Block L} {rest : List (Nat × L)}
    (h : s.Owns allocator (before ++ b :: after)) (hRest : s.mine.Perm (b.place :: rest))
    (heap : H) :
    SharedHeap.Owns allocator { s with heap := heap, mine := rest } (before ++ after) := by
  refine ⟨?_, fun b' hb' => h.bytes b' ?_⟩
  · have hPlaces := hRest.symm.trans h.places
    rw [List.map_append, List.map_cons] at hPlaces
    rw [List.map_append]
    exact (hPlaces.trans List.perm_middle).cons_inv
  · rcases List.mem_append.mp hb' with hMem | hMem
    · exact List.mem_append_left _ hMem
    · exact List.mem_append_right _ (List.mem_cons_of_mem _ hMem)

theorem place_mem (h : s.Owns allocator own) {b : Block L} (hb : b ∈ own) : b.place ∈ s.mine :=
  h.places.mem_iff.mpr (List.mem_map_of_mem hb)

theorem read (h : s.Owns allocator own) {b : Block L} (hb : b ∈ own) {addr : Nat}
    (hInside : allocator.Holds b.place addr) : s.bytes addr = b.contents (addr - b.ptr) := by
  obtain ⟨hLow, hHigh⟩ := hInside
  change b.ptr ≤ addr at hLow
  change addr < b.ptr + allocator.size b.layout at hHigh
  rw [← h.bytes b hb (addr - b.ptr) (by omega), Nat.add_sub_cancel' hLow]

end SharedHeap.Owns

theorem SharedHeap.Valid.step (hValid : s.Valid allocator h₀) {side : Side}
    (step : HeapTask.Step allocator (task, s) side (task', s')) : s'.Valid allocator h₀ := by
  cases step with
  | alloc call => exact .alloc hValid call
  | outOfMemory call => exact .null hValid call
  | dealloc owned => exact .dealloc hValid (owned.append_right _)
  | read => exact hValid
  | write => exact hValid
  | otherAlloc call => exact (Allocator.Uses.alloc hValid call).perm List.perm_middle.symm
  | otherNull call => exact .null hValid call
  | otherDealloc owned =>
    exact .dealloc hValid ((owned.append_left _).trans List.perm_middle)
  | otherWrite owned inside => exact hValid
  | freeWrite free => exact hValid

/-- One step, of the task or of others. -/
theorem HeapTask.wp_step (hDisjoint : allocator.Disjoint h₀) (hValid : s.Valid allocator h₀)
    (hOwns : s.Owns allocator own) (hWp : task.wp allocator Q own) {side : Side}
    (step : Step allocator (task, s) side (task', s')) :
    ∃ own', s'.Owns allocator own' ∧ task'.wp allocator Q own' := by
  have hPairwise := List.pairwise_append.mp (hDisjoint.pairwise hValid)
  cases step with
  | alloc call => exact ⟨_, hOwns.alloc _ _ _, hWp _ _⟩
  | outOfMemory call => exact ⟨own, ⟨hOwns.places, hOwns.bytes⟩, trivial⟩
  | dealloc owned =>
    obtain ⟨before, b, after, rfl, hPlace, hNext⟩ := hWp
    rw [← hPlace] at owned
    exact ⟨before ++ after, hOwns.dealloc owned _, hNext⟩
  | read =>
    obtain ⟨b, hb, hInside, hNext⟩ := hWp
    rw [hOwns.read hb hInside]
    exact ⟨own, hOwns, hNext⟩
  | write =>
    obtain ⟨before, b, after, rfl, hInside, hNext⟩ := hWp
    exact ⟨_, hOwns.write _ hPairwise.1 hInside, hNext⟩
  | otherAlloc call => exact ⟨own, ⟨hOwns.places, hOwns.bytes⟩, hWp⟩
  | otherNull call => exact ⟨own, ⟨hOwns.places, hOwns.bytes⟩, hWp⟩
  | otherDealloc owned => exact ⟨own, ⟨hOwns.places, hOwns.bytes⟩, hWp⟩
  | otherWrite owned inside =>
    exact ⟨own, hOwns.update _ fun b hb => (hPairwise.2.2 b hb _ owned).symm.not_holds inside, hWp⟩
  | freeWrite free =>
    exact ⟨own, hOwns.update _ fun b hb => free b (List.mem_append_left _ hb), hWp⟩

theorem HeapTask.within_of_wp (hOwns : s.Owns allocator own) (hWp : task.wp allocator Q own) :
    task.Within allocator s.mine := by
  cases task with
  | done value => exact trivial
  | alloc layout next => exact trivial
  | dealloc ptr layout next =>
    obtain ⟨before, b, after, rfl, hPlace, -⟩ := hWp
    have hMem := hOwns.place_mem (b := b) (by simp)
    rwa [hPlace] at hMem
  | read addr next =>
    obtain ⟨b, hb, hInside, -⟩ := hWp
    exact ⟨b.place, hOwns.place_mem hb, hInside⟩
  | write addr value next =>
    obtain ⟨before, b, after, rfl, hInside, -⟩ := hWp
    exact ⟨b.place, hOwns.place_mem (by simp), hInside⟩
  | outOfMemory => exact trivial
  | panicked => exact hWp

theorem HeapTask.Ends.step {t t' : HeapTask L α × SharedHeap H L} (step : Step allocator t .task t')
    (h : Ends allocator t') : Ends allocator t := by
  obtain ⟨sides, u, run, hSides, hEnd⟩ := h
  exact ⟨.task :: sides, u, .cons step run, by simpa using hSides, hEnd⟩

/-- By itself the task comes to its end. -/
theorem HeapTask.ends_of_wp (hDisjoint : allocator.Disjoint h₀) (hValid : s.Valid allocator h₀)
    (hOwns : s.Owns allocator own) (hWp : task.wp allocator Q own) :
    Ends allocator (task, s) := by
  induction task generalizing s own with
  | done value => exact ⟨[], _, .nil _, by simp, .inl ⟨value, rfl⟩⟩
  | outOfMemory => exact ⟨[], _, .nil _, by simp, .inr rfl⟩
  | panicked => exact hWp.elim
  | alloc layout next ih =>
    rcases hCall : allocator.alloc s.heap layout with ⟨_ | ptr, h⟩
    · exact ⟨[.task], _, .single (.outOfMemory hCall), by simp, .inr rfl⟩
    · have step : Step allocator (.alloc layout next, s) .task _ := .alloc hCall
      obtain ⟨own', hOwns', hWp'⟩ := wp_step hDisjoint hValid hOwns hWp step
      exact .step step (ih ptr (hValid.step step) hOwns' hWp')
  | dealloc ptr layout next ih =>
    have hWithin := within_of_wp hOwns hWp
    obtain ⟨before, after, hMine⟩ := List.append_of_mem hWithin
    have step : Step allocator (.dealloc ptr layout next, s) .task _ :=
      .dealloc (hMine ▸ List.perm_middle)
    obtain ⟨own', hOwns', hWp'⟩ := wp_step hDisjoint hValid hOwns hWp step
    exact .step step (ih (hValid.step step) hOwns' hWp')
  | read addr next ih =>
    have step : Step allocator (.read addr next, s) .task _ := .read
    obtain ⟨own', hOwns', hWp'⟩ := wp_step hDisjoint hValid hOwns hWp step
    exact .step step (ih _ (hValid.step step) hOwns' hWp')
  | write addr value next ih =>
    have step : Step allocator (.write addr value next, s) .task _ := .write
    obtain ⟨own', hOwns', hWp'⟩ := wp_step hDisjoint hValid hOwns hWp step
    exact .step step (ih (hValid.step step) hOwns' hWp')

/-- Along every interleaving the task keeps to its blocks and does not panic, it can always come to
its end, and its postcondition holds when it is done. -/
theorem HeapTask.wp_run (hDisjoint : allocator.Disjoint h₀) (hValid : s.Valid allocator h₀)
    (hOwns : s.Owns allocator own) (hWp : task.wp allocator Q own) {sides : List Side}
    (run : Run (Step allocator) (task, s) sides (task', s')) :
    task'.Within allocator s'.mine ∧ Ends allocator (task', s') ∧
      ∀ value, task' = .done value → ∃ own', s'.Owns allocator own' ∧ Q value own' := by
  have hInvariant := run.invariant (P := fun t : HeapTask L α × SharedHeap H L =>
    t.2.Valid allocator h₀ ∧ ∃ own, t.2.Owns allocator own ∧ t.1.wp allocator Q own)
    (fun t side t' ⟨hValid, own, hOwns, hWp⟩ step =>
      ⟨hValid.step step, wp_step hDisjoint hValid hOwns hWp step⟩) ⟨hValid, own, hOwns, hWp⟩
  obtain ⟨hValid', own', hOwns', hWp'⟩ := hInvariant
  refine ⟨within_of_wp hOwns' hWp', ends_of_wp hDisjoint hValid' hOwns' hWp', ?_⟩
  rintro value rfl
  exact ⟨own', hOwns', hWp'⟩

end Soundness

end RixOs.ProofKit

import RixOs.Heap
import RixOs.ProofKit.HeapTasks

/-! The allocator test that ends `kernel_main`.  It fills vectors of growing sizes, frees every
second one after a look at its first and last byte, and keeps the others until it returns.

Interrupts are on by then, and others use the heap between any two steps of the test.  Among their
blocks are the buffers of the outer vectors, which the test never indexes by address. -/

namespace RixOs

open ProofKit

def LockedHeap.allocator {H : Type} (heap : LockedHeap H) : Allocator H Layout :=
  ⟨Layout.size, heap.alloc, heap.dealloc⟩

/-- A `Vec<u8>`, whose bytes lie in a block of their own unless it is empty. -/
structure ByteVec where
  ptr : Nat
  len : Nat
  deriving DecidableEq, Repr

namespace AllocTest

def assertEq (left right : UInt8) : HeapTask Layout Unit :=
  if left = right then return else .panicked

def writeBytes (ptr : Nat) (c : UInt8) : Nat → HeapTask Layout Unit
  | 0 => return
  | n + 1 => do
    writeBytes ptr c n
    .write (ptr + n) c (return)

/-- `vec![c; n]`. -/
def fromElem (c : UInt8) (n : Nat) : HeapTask Layout ByteVec :=
  if n = 0 then return ⟨1, 0⟩
  else if n < 2 ^ 63 then .alloc ⟨n, 1⟩ fun ptr => do
    writeBytes ptr c n
    return ⟨ptr, n⟩
  else .panicked

def index (v : ByteVec) (i : Nat) : HeapTask Layout UInt8 :=
  if i < v.len then .read (v.ptr + i) pure else .panicked

def drop (v : ByteVec) : HeapTask Layout Unit :=
  if v.len = 0 then return else .dealloc v.ptr ⟨v.len, 1⟩ (return)

/-- The loop of `alloc_pass`. -/
def allocPassFrom (delta base : Nat) (hBase : 0 < base) (items : List ByteVec) :
    HeapTask Layout (List ByteVec) := do
  let c := UInt8.ofNat (delta % 256)
  if base + delta < 2 ^ 64 then
    let a ← fromElem c (base + delta)
    if 512 * 1024 ≤ base then return items ++ [a]
    else allocPassFrom delta (base * 2) (by omega) (items ++ [a])
  else .panicked
termination_by 512 * 1024 - base

def allocPass (delta : Nat) : HeapTask Layout (List ByteVec) :=
  allocPassFrom delta 32 (by decide) []

/-- The loop of `free_pass`, with the indices below `j` to go. -/
def freePassFrom (delta : UInt8) : Nat → List ByteVec → HeapTask Layout (List ByteVec)
  | 0, items => return items
  | j + 1, items =>
    if j % 2 = 0 then
      match items[j]? with
      | some ret => do
        assertEq delta (← index ret 0)
        -- `ret.len() - 1` is checked for overflow.
        if ret.len = 0 then .panicked
        assertEq delta (← index ret (ret.len - 1))
        drop ret
        freePassFrom delta j (items.eraseIdx j)
      | none => .panicked
    else freePassFrom delta j items

def freePass (items : List ByteVec) (delta : UInt8) : HeapTask Layout (List ByteVec) :=
  freePassFrom delta items.length items

/-- `Vec::append`: both vectors afterwards. -/
def append (pool items : List ByteVec) : List ByteVec × List ByteVec := (pool ++ items, [])

/-- The body of the loop over the indicators. -/
def testPass (pool : List ByteVec) (i : Nat) : HeapTask Layout (List ByteVec) := do
  let items ← allocPass i
  let items ← freePass items (UInt8.ofNat i)
  let (pool, items) := append pool items
  if items.length = 0 then return pool else .panicked

def allocTest : HeapTask Layout Unit := do
  let pool ← (List.range 8).foldlM testPass []
  pool.forM drop

/-! ### What the test owns -/

/-- The block of a vector that holds nothing but `c`. -/
structure Filled (c : UInt8) (v : ByteVec) (b : Block Layout) : Prop where
  place : b.place = (v.ptr, ⟨v.len, 1⟩)
  nonempty : 0 < v.len
  bytes : ∀ i < v.len, b.contents i = c

/-- A vector that the test holds, with its block. -/
structure Held where
  vec : ByteVec
  block : Block Layout
  value : UInt8
  filled : Filled value vec block

def vecs (held : List Held) : List ByteVec := held.map Held.vec

def blocks (held : List Held) : List (Block Layout) := held.map Held.block

section Specs

variable {H : Type} {heap : LockedHeap H} {c : UInt8} {own before after : List (Block Layout)}

theorem assertEq_wp {Q : Unit → List (Block Layout) → Prop} (hQ : Q () own) :
    (assertEq c c).wp heap.allocator Q own := by
  rw [assertEq, if_pos rfl]
  exact hQ

theorem writeBytes_wp {Q : Unit → List (Block Layout) → Prop} {b : Block Layout} {n : Nat}
    (hSize : n ≤ b.layout.size)
    (hQ : ∀ contents, (∀ i < n, contents i = c) →
      Q () (before ++ { b with contents } :: after)) :
    (writeBytes b.ptr c n).wp heap.allocator Q (before ++ b :: after) := by
  induction n generalizing Q with
  | zero => exact hQ b.contents (by simp)
  | succ n ih =>
    refine HeapTask.wp_bind (ih (by omega) fun contents hContents => ?_)
    refine ⟨before, { b with contents }, after, rfl, ⟨?_, ?_⟩, ?_⟩
    · exact Nat.le_add_right b.ptr n
    · exact Nat.add_lt_add_left hSize b.ptr
    · refine hQ _ fun i hi => ?_
      simp only [Nat.add_sub_cancel_left]
      by_cases hLast : i = n
      · rw [hLast, Function.update_self]
      · rw [Function.update_of_ne hLast]
        exact hContents i (by omega)

theorem fromElem_wp {Q : ByteVec → List (Block Layout) → Prop} {n : Nat} (hPos : 0 < n)
    (hSize : n < 2 ^ 63)
    (hQ : ∀ held : Held, held.value = c → Q held.vec (own ++ [held.block])) :
    (fromElem c n).wp heap.allocator Q own := by
  rw [fromElem, if_neg (by omega), if_pos hSize]
  intro ptr contents
  refine HeapTask.wp_bind (writeBytes_wp (b := ⟨ptr, ⟨n, 1⟩, contents⟩) (Nat.le_refl n) ?_)
  intro contents hContents
  exact hQ ⟨⟨ptr, n⟩, ⟨ptr, ⟨n, 1⟩, contents⟩, c, rfl, hPos, hContents⟩ rfl

theorem index_wp {Q : UInt8 → List (Block Layout) → Prop} {held : Held} {i : Nat}
    (hMem : held.block ∈ own) (hi : i < held.vec.len) (hQ : Q held.value own) :
    (index held.vec i).wp heap.allocator Q own := by
  rw [index, if_pos hi]
  have hPtr : held.block.ptr = held.vec.ptr := congrArg Prod.fst held.filled.place
  refine ⟨held.block, hMem, ?_, ?_⟩
  · rw [held.filled.place]
    exact ⟨Nat.le_add_right .., Nat.add_lt_add_left hi _⟩
  · rw [hPtr, Nat.add_sub_cancel_left, held.filled.bytes i hi]
    exact hQ

theorem drop_wp {Q : Unit → List (Block Layout) → Prop} {held : Held}
    (hQ : Q () (before ++ after)) :
    (drop held.vec).wp heap.allocator Q (before ++ held.block :: after) := by
  have hPos := held.filled.nonempty
  rw [drop, if_neg (by omega)]
  exact ⟨before, held.block, after, rfl, held.filled.place, hQ⟩

theorem allocPassFrom_wp {Q : List ByteVec → List (Block Layout) → Prop} {delta base : Nat}
    {hBase : 0 < base} {held : List Held} (hDelta : delta < 2 ^ 62) (hStart : base < 2 ^ 20)
    (hHeld : ∀ v ∈ held, v.value = UInt8.ofNat (delta % 256))
    (hQ : ∀ held : List Held, (∀ v ∈ held, v.value = UInt8.ofNat (delta % 256)) →
      Q (vecs held) (own ++ blocks held)) :
    (allocPassFrom delta base hBase (vecs held)).wp heap.allocator Q (own ++ blocks held) := by
  rw [allocPassFrom, if_pos (by omega)]
  refine HeapTask.wp_bind (fromElem_wp (by omega) (by omega) fun new hNew => ?_)
  have hAll : ∀ v ∈ held ++ [new], v.value = UInt8.ofNat (delta % 256) := by
    simp only [List.mem_append, List.mem_singleton]
    rintro v (hv | rfl)
    · exact hHeld v hv
    · exact hNew
  have hVecs : vecs held ++ [new.vec] = vecs (held ++ [new]) := by simp [vecs]
  have hBlocks : own ++ blocks held ++ [new.block] = own ++ blocks (held ++ [new]) := by
    simp [blocks]
  rw [hVecs, hBlocks]
  split
  · exact hQ _ hAll
  · exact allocPassFrom_wp hDelta (by omega) hAll hQ
termination_by 512 * 1024 - base

theorem freePassFrom_wp {Q : List ByteVec → List (Block Layout) → Prop} {j : Nat}
    {held : List Held} (hj : j ≤ held.length) (hHeld : ∀ v ∈ held, v.value = c)
    (hQ : ∀ held : List Held, Q (vecs held) (own ++ blocks held)) :
    (freePassFrom c j (vecs held)).wp heap.allocator Q (own ++ blocks held) := by
  induction j generalizing held with
  | zero => exact hQ held
  | succ j ih =>
    rw [freePassFrom]
    split
    · obtain ⟨first, ret, last, rfl, rfl⟩ : ∃ first ret last, held = first ++ ret :: last ∧
          j = first.length :=
        ⟨held.take j, held[j], held.drop (j + 1), by simp, by simp; omega⟩
      have hNth : (vecs (first ++ ret :: last))[first.length]? = some ret.vec := by
        simp [vecs]
      have hErase : (vecs (first ++ ret :: last)).eraseIdx first.length = vecs (first ++ last) := by
        simp [vecs, List.eraseIdx_append]
      have hBlocks : own ++ blocks (first ++ ret :: last) =
          (own ++ blocks first) ++ ret.block :: blocks last := by simp [blocks]
      have hMem : ret.block ∈ own ++ blocks (first ++ ret :: last) := by simp [hBlocks]
      have hPos := ret.filled.nonempty
      obtain rfl : ret.value = c := hHeld ret (by simp)
      simp only [hNth, hErase]
      refine HeapTask.wp_bind (index_wp hMem hPos ?_)
      refine HeapTask.wp_bind (assertEq_wp ?_)
      rw [if_neg (by omega)]
      refine HeapTask.wp_bind (index_wp hMem (by omega) ?_)
      refine HeapTask.wp_bind (assertEq_wp ?_)
      rw [hBlocks]
      refine HeapTask.wp_bind (drop_wp ?_)
      have hRest : (freePassFrom ret.value first.length (vecs (first ++ last))).wp heap.allocator Q
          (own ++ blocks (first ++ last)) := by
        refine ih (by simp) fun v hv => hHeld v ?_
        rcases List.mem_append.mp hv with hv | hv <;> simp [hv]
      simpa [blocks] using hRest
    · exact ih (by omega) hHeld

theorem testPass_wp {Q : List ByteVec → List (Block Layout) → Prop} {held : List Held} {i : Nat}
    (hi : i < 2 ^ 62) (hQ : ∀ held : List Held, Q (vecs held) (blocks held)) :
    (testPass (vecs held) i).wp heap.allocator Q (blocks held) := by
  have hStart : blocks held = blocks held ++ blocks [] := by simp [blocks]
  have hNone : ([] : List ByteVec) = vecs [] := rfl
  rw [testPass, allocPass, hStart, hNone]
  refine HeapTask.wp_bind (allocPassFrom_wp hi (by decide) (by simp) fun items hItems => ?_)
  have hByte : UInt8.ofNat (i % 256) = UInt8.ofNat i := UInt8.ofNat_mod_size
  rw [hByte] at hItems
  have hLength : (vecs items).length = items.length := by simp [vecs]
  rw [freePass, hLength]
  refine HeapTask.wp_bind (freePassFrom_wp (Nat.le_refl _) hItems fun items => ?_)
  have hPool := hQ (held ++ items)
  simp only [vecs, blocks, List.map_append] at hPool
  exact hPool

theorem passes_wp {Q : List ByteVec → List (Block Layout) → Prop} {held : List Held}
    {indicators : List Nat} (hIndicators : ∀ i ∈ indicators, i < 2 ^ 62)
    (hQ : ∀ held : List Held, Q (vecs held) (blocks held)) :
    (indicators.foldlM testPass (vecs held)).wp heap.allocator Q (blocks held) := by
  induction indicators generalizing held with
  | nil => exact hQ held
  | cons i indicators ih =>
    rw [List.foldlM_cons]
    refine HeapTask.wp_bind (testPass_wp (hIndicators i (by simp)) fun held => ?_)
    exact ih fun i hi => hIndicators i (by simp [hi])

theorem dropAll_wp {Q : Unit → List (Block Layout) → Prop} {held : List Held} (hQ : Q () []) :
    ((vecs held).forM drop).wp heap.allocator Q (blocks held) := by
  induction held with
  | nil => exact hQ
  | cons v held ih =>
    have hFirst : blocks (v :: held) = [] ++ v.block :: blocks held := rfl
    rw [hFirst]
    exact HeapTask.wp_bind (drop_wp ih)

theorem allocTest_wp : allocTest.wp heap.allocator (fun _ own => own = []) [] := by
  have hNone : ([] : List ByteVec) = vecs [] := rfl
  have hOwn : ([] : List (Block Layout)) = blocks [] := rfl
  rw [allocTest, hNone, hOwn]
  refine HeapTask.wp_bind (passes_wp ?_ fun held => dropAll_wp rfl)
  simp only [List.mem_range]
  omega

end Specs

variable {H : Type} {heap : LockedHeap H} {range : Option (Nat × Nat)}
  {s s' : SharedHeap H Layout} {task : HeapTask Layout Unit} {sides : List Side}

/-- Whoever else uses the heap between its steps, the test reads, writes and frees only what it has
allocated, and no assertion of it fails.  It can always come to its end, and when it is done
everything is freed. -/
theorem allocTest_outcome (hDisjoint : heap.allocator.Disjoint (heap.ofRange range))
    (hValid : s.Valid heap.allocator (heap.ofRange range)) (hNone : s.mine = [])
    (run : Run (HeapTask.Step heap.allocator) (allocTest, s) sides (task, s')) :
    task.Within heap.allocator s'.mine ∧ HeapTask.Ends heap.allocator (task, s') ∧
      (task = .done () → s'.mine = []) := by
  have hOwns : s.Owns heap.allocator [] := ⟨by simp [hNone], by simp⟩
  obtain ⟨hWithin, hEnds, hDone⟩ := HeapTask.wp_run hDisjoint hValid hOwns allocTest_wp run
  refine ⟨hWithin, hEnds, fun hTask => ?_⟩
  obtain ⟨own, hOwns', rfl⟩ := hDone () hTask
  exact List.perm_nil.mp hOwns'.places

/-! The bump allocator never hands out an address twice. -/

theorem bump_alloc_some {h h' : Option (Nat × Nat)} {layout : Layout} {ptr : Nat}
    (call : PageTables.bump.alloc h layout = (some ptr, h')) :
    ∃ next end_, h = some (next, end_) ∧ next ≤ ptr ∧ h' = some (ptr + layout.size, end_) := by
  rcases h with _ | ⟨next, end_⟩
  · cases call
  · simp only [PageTables.bump] at call
    split at call
    · obtain ⟨hPtr, rfl⟩ := Prod.mk.inj call
      obtain rfl := Option.some.inj hPtr
      exact ⟨next, end_, rfl, Nat.le_add_right .., rfl⟩
    · cases call

theorem bump_below {h₀ h : Option (Nat × Nat)} {live : List (Nat × Layout)}
    (hUses : PageTables.bump.allocator.Uses h₀ h live) :
    ∀ b ∈ live, ∀ next end_, h = some (next, end_) → b.1 + b.2.size ≤ next := by
  induction hUses with
  | start => simp
  | @alloc h h' live layout ptr _ call ih =>
    obtain ⟨next, end_, rfl, hPtr, rfl⟩ := bump_alloc_some call
    rintro b hb next' end' hNext
    obtain ⟨rfl, -⟩ := Prod.mk.inj (Option.some.inj hNext)
    rcases List.mem_cons.mp hb with rfl | hb
    · exact Nat.le_refl _
    · have hBelow := ih b hb next end_ rfl
      omega
  | @null h h' _ layout _ call ih =>
    have hSame : h' = h := by
      rcases h with _ | ⟨next, end_⟩
      · exact (Prod.mk.inj call).2.symm
      · simp only [LockedHeap.allocator, PageTables.bump] at call
        split at call
        · cases call
        · exact (Prod.mk.inj call).2.symm
    exact hSame ▸ ih
  | dealloc _ allocated ih => exact fun b hb => ih b (allocated.mem_iff.mpr (.tail _ hb))
  | perm _ perm ih => exact fun b hb => ih b (perm.mem_iff.mpr hb)

theorem bump_disjoint (h₀ : Option (Nat × Nat)) : PageTables.bump.allocator.Disjoint h₀ := by
  intro h live layout ptr h' hUses call b hb
  obtain ⟨next, end_, rfl, hPtr, -⟩ := bump_alloc_some call
  exact .inr ((bump_below hUses b hb next end_ rfl).trans hPtr)

open HeapAllocator

/-- The heap of the kernel before its first allocation. -/
def freshHeap : SharedHeap (Option (Nat × Nat)) Layout :=
  ⟨PageTables.bump.init heapStart heapSize, fun _ => 0, [], []⟩

/-- Another user gets 96 bytes before the test gets its first block, and writes to them after. -/
theorem allocTest_outcome_bump : ∃ task s',
    Run (HeapTask.Step PageTables.bump.allocator) (allocTest, freshHeap)
      [.others, .task, .others] (task, s') ∧
      s'.mine = [(heapStart + 96, ⟨32, 1⟩)] ∧
      task.Within PageTables.bump.allocator s'.mine ∧
      HeapTask.Ends PageTables.bump.allocator (task, s') := by
  obtain ⟨next, hFirst⟩ : ∃ next, allocTest = .alloc ⟨32, 1⟩ next := by
    rw [allocTest, List.range_succ_eq_map, List.foldlM_cons, testPass, allocPass, allocPassFrom]
    exact ⟨_, rfl⟩
  have first : HeapTask.Step PageTables.bump.allocator (allocTest, freshHeap) .others
      (allocTest, ⟨some (heapStart + 96, heapStart + heapSize), fun _ => 0, [],
        [(heapStart, ⟨96, 8⟩)]⟩) := .otherAlloc rfl
  have second : HeapTask.Step PageTables.bump.allocator
      (allocTest, ⟨some (heapStart + 96, heapStart + heapSize), fun _ => 0, [],
        [(heapStart, ⟨96, 8⟩)]⟩) .task
      (next (heapStart + 96), ⟨some (heapStart + 128, heapStart + heapSize), fun _ => 0,
        [(heapStart + 96, ⟨32, 1⟩)], [(heapStart, ⟨96, 8⟩)]⟩) := by
    rw [hFirst]
    exact .alloc (by decide)
  have third : HeapTask.Step PageTables.bump.allocator
      (next (heapStart + 96), ⟨some (heapStart + 128, heapStart + heapSize), fun _ => 0,
        [(heapStart + 96, ⟨32, 1⟩)], [(heapStart, ⟨96, 8⟩)]⟩) .others
      (next (heapStart + 96), ⟨some (heapStart + 128, heapStart + heapSize),
        Function.update (fun _ => 0) heapStart 7, [(heapStart + 96, ⟨32, 1⟩)],
        [(heapStart, ⟨96, 8⟩)]⟩) :=
    .otherWrite (.head _) ⟨Nat.le_refl _, Nat.lt_add_of_pos_right (by decide)⟩
  have run := Run.cons first (.cons second (.single third))
  have hValid : freshHeap.Valid PageTables.bump.allocator
      (PageTables.bump.ofRange (some (heapStart, heapSize))) := .start
  have hOutcome := allocTest_outcome (bump_disjoint _) hValid rfl run
  exact ⟨_, _, run, rfl, hOutcome.1, hOutcome.2.1⟩

end AllocTest

end RixOs

import RixOs.FrameOrder
import RixOs.ProofKit.Triples

/-! The kernel heap: `heap_allocator.rs` maps its pages and hands the range to the global
allocator, and `memory::init` goes on whether or not that succeeded.

The page tables belong to the x86_64 crate and the allocator behind `ALLOCATOR` to
linked_list_allocator.  They are parameters here: a call of `map_to` is a tree whose inner nodes
ask the frame allocator for page-table frames, and the laws are what the crates document. -/

namespace RixOs

open ProofKit

/-- A 4 KiB page of virtual memory, by its first address. -/
@[ext]
structure Page where
  startAddress : Nat
  aligned : startAddress % 4096 = 0

instance : DecidableEq Page := fun _ _ => decidable_of_iff' _ Page.ext_iff

def Page.ofNumber (number : Nat) : Page := ⟨4096 * number, (PhysFrame.ofNumber number).aligned⟩

def Page.containingAddress (addr : Nat) : Page :=
  ⟨addr - addr % 4096, (PhysFrame.containingAddress addr).aligned⟩

def Page.rangeInclusive (first last : Page) : List Page :=
  (List.range' (first.startAddress / 4096)
    (last.startAddress / 4096 + 1 - first.startAddress / 4096)).map .ofNumber

inductive MapToError
  | frameAllocationFailed
  | parentEntryHugePage
  | pageAlreadyMapped (frame : PhysFrame)
  deriving DecidableEq, Repr

namespace PageTableFlags

def present : UInt64 := 1

def writable : UInt64 := 2

end PageTableFlags

/-- A call of `map_to` on a mapper with states in `M`: it asks for a frame, or it is done. -/
inductive MapTo (M : Type)
  | done (result : Except MapToError Unit) (mapper : M)
  | allocate (resume : Option PhysFrame → MapTo M)

structure Mapper (M : Type) where
  mapTo : Page → PhysFrame → UInt64 → M → MapTo M
  translate : M → Page → Option PhysFrame

/-- Whatever frames the call gets, it ends with a result and a mapper in `post`. -/
def MapTo.Ends {M : Type} (post : Except MapToError Unit → M → Prop) : MapTo M → Prop
  | done result mapper => post result mapper
  | allocate resume => ∀ frame, (resume frame).Ends post

/-- The contract of `Mapper`: a successful `map_to` with `PRESENT` maps the page to the frame and
leaves the other pages alone. -/
structure Mapper.Lawful {M : Type} (mapper : Mapper M) : Prop where
  maps : ∀ page frame flags m, flags &&& PageTableFlags.present ≠ 0 →
    (mapper.mapTo page frame flags m).Ends fun result m' => result = .ok () →
      mapper.translate m' page = some frame ∧
        ∀ other, other ≠ page → mapper.translate m' other = mapper.translate m other

/-- `allocator` is `ALLOCATOR`, empty or with the range it was given.  `tables` records the frames
that the mapper got for its page tables. -/
structure MemoryState (M : Type) where
  mapper : M
  frameAllocator : AbyssFrameAllocator
  allocator : Option (Nat × Nat)
  tables : List PhysFrame

/-- The memory at the call of `init`. -/
def MemoryState.boot {M : Type} (m : M) (memoryMap : List MemoryRegion) : MemoryState M :=
  ⟨m, .init memoryMap, none, []⟩

inductive Stop
  | panic (panic : Panic)
  | err (error : MapToError)
  deriving DecidableEq, Repr

variable {M : Type}

def allocateFrame : Program (MemoryState M) Stop (Option PhysFrame) := do
  match (← get).frameAllocator.allocateFrame with
  | .ok (frame, frameAllocator) =>
    modify fun s => { s with frameAllocator }
    return frame
  | .error panic => throw (.panic panic)

def MapTo.run : MapTo M → Program (MemoryState M) Stop Unit
  | done (.ok ()) mapper => modify fun s => { s with mapper }
  | done (.error error) mapper => do
    modify fun s => { s with mapper }
    throw (.err error)
  | allocate resume => do
    let frame ← allocateFrame
    modify fun s => { s with tables := s.tables ++ frame.toList }
    (resume frame).run

namespace HeapAllocator

def heapStart : Nat := 0xffffa00000000000

def heapSize : Nat := 32 * 1024 * 1024

def pageRange : List Page :=
  let heapEnd := heapStart + heapSize - 1
  Page.rangeInclusive (.containingAddress heapStart) (.containingAddress heapEnd)

/-- The body of the loop over the pages. -/
def mapPage (mapper : Mapper M) (page : Page) : Program (MemoryState M) Stop Unit := do
  match ← allocateFrame with
  | none => throw (.err .frameAllocationFailed)
  | some frame =>
    let flags := PageTableFlags.present ||| PageTableFlags.writable
    (mapper.mapTo page frame flags (← get).mapper).run

def init (mapper : Mapper M) : Program (MemoryState M) Stop Unit := do
  forM pageRange (mapPage mapper)
  modify fun s => { s with allocator := some (heapStart, heapSize) }

end HeapAllocator

/-- `memory::init` drops the result of `heap_allocator::init`. -/
def memoryInit (mapper : Mapper M) : Program (MemoryState M) Stop Unit :=
  tryCatch (HeapAllocator.init mapper) fun
    | .err _ => return
    | .panic panic => throw (.panic panic)

structure Layout where
  size : Nat
  align : Nat
  deriving DecidableEq, Repr

/-- The allocator behind `ALLOCATOR`, with states in `H`. -/
structure LockedHeap (H : Type) where
  empty : H
  init : Nat → Nat → H
  alloc : H → Layout → Option Nat × H
  dealloc : H → Nat → Layout → H

namespace LockedHeap

variable {H : Type}

/-- `heap.Uses h₀ h live`: calls lead from `h₀` to `h` and leave the allocations `live`.  Only what
is allocated is freed. -/
inductive Uses (heap : LockedHeap H) (h₀ : H) : H → List (Nat × Layout) → Prop
  | start : Uses heap h₀ h₀ []
  | alloc {h h' : H} {live : List (Nat × Layout)} {layout : Layout} {ptr : Nat}
      (before : Uses heap h₀ h live) (call : heap.alloc h layout = (some ptr, h')) :
      Uses heap h₀ h' ((ptr, layout) :: live)
  | null {h h' : H} {live : List (Nat × Layout)} {layout : Layout}
      (before : Uses heap h₀ h live) (call : heap.alloc h layout = (none, h')) :
      Uses heap h₀ h' live
  | dealloc {h : H} {live : List (Nat × Layout)} {layout : Layout} {ptr : Nat}
      (before : Uses heap h₀ h live) (allocated : (ptr, layout) ∈ live) :
      Uses heap h₀ (heap.dealloc h ptr layout) (live.erase (ptr, layout))

/-- An empty heap serves no call, and an initialised one serves calls from its range. -/
structure Lawful (heap : LockedHeap H) : Prop where
  alloc_empty : ∀ layout, heap.alloc heap.empty layout = (none, heap.empty)
  alloc_init : ∀ {start size h live layout ptr h'}, heap.Uses (heap.init start size) h live →
    heap.alloc h layout = (some ptr, h') → start ≤ ptr ∧ ptr + layout.size ≤ start + size

/-- The state of the heap, from the range that it was given. -/
def ofRange (heap : LockedHeap H) : Option (Nat × Nat) → H
  | none => heap.empty
  | some (start, size) => heap.init start size

end LockedHeap

/-- What an `Ok` of `heap_allocator::init` stands for. -/
structure HeapMapped (mapper : Mapper M) (memoryMap : List MemoryRegion) (s : MemoryState M) :
    Prop where
  frame : ∀ addr, HeapAllocator.heapStart ≤ addr →
    addr < HeapAllocator.heapStart + HeapAllocator.heapSize →
    ∃ f, mapper.translate s.mapper (.containingAddress addr) = some f ∧
      (∃ r ∈ memoryMap, r.kind = .usable ∧ f.Inside r) ∧ minUsablePa ≤ f.startAddress ∧
      f ∉ s.tables
  distinct : ∀ addr addr', HeapAllocator.heapStart ≤ addr →
    addr < HeapAllocator.heapStart + HeapAllocator.heapSize → HeapAllocator.heapStart ≤ addr' →
    addr' < HeapAllocator.heapStart + HeapAllocator.heapSize →
    mapper.translate s.mapper (.containingAddress addr) =
      mapper.translate s.mapper (.containingAddress addr') →
    Page.containingAddress addr = Page.containingAddress addr'

namespace LockedHeap

variable {H : Type} {heap : LockedHeap H} {h : H} {live : List (Nat × Layout)}

theorem Lawful.uses_empty (hLawful : heap.Lawful) (hUses : heap.Uses heap.empty h live) :
    h = heap.empty ∧ live = [] := by
  induction hUses with
  | start => exact ⟨rfl, rfl⟩
  | alloc _ call ih =>
    rw [ih.1, hLawful.alloc_empty] at call
    cases call
  | null _ call ih =>
    rw [ih.1, hLawful.alloc_empty] at call
    exact ⟨(Prod.mk.inj call).2.symm, ih.2⟩
  | dealloc _ allocated ih =>
    rw [ih.2] at allocated
    cases allocated

theorem Lawful.uses_init (hLawful : heap.Lawful) {start size : Nat}
    (hUses : heap.Uses (heap.init start size) h live) :
    ∀ a ∈ live, start ≤ a.1 ∧ a.1 + a.2.size ≤ start + size := by
  induction hUses with
  | start => exact fun _ hMem => nomatch hMem
  | alloc before call ih => exact List.forall_mem_cons.mpr ⟨hLawful.alloc_init before call, ih⟩
  | null _ _ ih => exact ih
  | dealloc _ _ ih => exact fun a hMem => ih a (List.mem_of_mem_erase hMem)

end LockedHeap

/-- The frames handed out so far: `given` to the heap and the others to the mapper. -/
structure Handed (memoryMap : List MemoryRegion) (given : List PhysFrame) (s : MemoryState M) :
    Prop where
  fromMap : s.frameAllocator.memoryMap = memoryMap
  perm : (given ++ s.tables).Perm ((usableFrames memoryMap).take s.frameAllocator.next)
  empty : s.allocator = none

variable {memoryMap : List MemoryRegion} {given : List PhysFrame}

section Frames

variable (hAligned : PageAligned memoryMap)
include hAligned

theorem allocateFrame_triple {P : MemoryState M → Prop}
    {Q : Option PhysFrame → MemoryState M → Prop} {E : Stop → MemoryState M → Prop}
    (hMap : ∀ s, P s → s.frameAllocator.memoryMap = memoryMap)
    (hOk : ∀ s, P s → Q (usableFrames memoryMap)[s.frameAllocator.next]?
      { s with frameAllocator := ⟨memoryMap, s.frameAllocator.next + 1⟩ })
    (hPanic : ∀ s panic, P s → E (.panic panic) s) : Triple P allocateFrame Q E := by
  refine .get fun s hs => ?_
  match hFrame : s.frameAllocator.allocateFrame with
  | .ok (frame, frameAllocator) =>
    obtain ⟨hNth, rfl, -⟩ := AbyssFrameAllocator.allocateFrame_ok hFrame
    rintro s rfl
    have hQ := hOk s hs
    rw [← map_frameAddresses hAligned, List.getElem?_map, ← hMap s hs, ← hNth] at hQ
    exact hQ
  | .error panic =>
    rintro s rfl
    exact hPanic s panic hs

omit hAligned in
/-- A frame that was handed out is counted once, whoever gets it. -/
theorem Handed.next {s : MemoryState M} (h : Handed memoryMap given s) {frame : Option PhysFrame}
    (hFrame : (usableFrames memoryMap)[s.frameAllocator.next]? = frame) :
    (given ++ (s.tables ++ frame.toList)).Perm
      ((usableFrames memoryMap).take (s.frameAllocator.next + 1)) := by
  rw [List.take_add_one, hFrame, ← List.append_assoc]
  exact h.perm.append_right _

theorem MapTo.run_triple {post : Except MapToError Unit → M → Prop} {call : MapTo M}
    (hEnds : call.Ends post) :
    Triple (Handed memoryMap given) call.run
      (fun _ s => Handed memoryMap given s ∧ post (.ok ()) s.mapper)
      (fun _ s => s.allocator = none) := by
  induction call with
  | done result mapper =>
    match result with
    | .ok () => exact fun s h => ⟨⟨h.fromMap, h.perm, h.empty⟩, hEnds⟩
    | .error error => exact fun s h => h.empty
  | allocate resume ih =>
    refine .bind (R := fun frame s => Handed memoryMap given { s with
      tables := s.tables ++ frame.toList }) ?_ fun frame => ?_
    · refine allocateFrame_triple hAligned (fun s h => h.fromMap) (fun s h => ?_)
        fun s _ h => h.empty
      exact ⟨rfl, h.next rfl, h.empty⟩
    · exact .bind (Triple.modify (Q := fun _ => Handed memoryMap given) _) fun _ =>
        ih frame (hEnds frame)

/-- The pages in `pages` are mapped to frames that nobody else has. -/
def Mapped (mapper : Mapper M) (memoryMap : List MemoryRegion) (pages : List Page)
    (s : MemoryState M) : Prop :=
  ∃ frames : List PhysFrame, pages.map (mapper.translate s.mapper) = frames.map some ∧
    Handed memoryMap frames s

theorem mapPage_triple {mapper : Mapper M} (hLawful : mapper.Lawful) {done : List Page}
    {page : Page} (hNew : page ∉ done) :
    Triple (Mapped mapper memoryMap done) (HeapAllocator.mapPage mapper page)
      (fun _ => Mapped mapper memoryMap (done ++ [page])) (fun _ s => s.allocator = none) := by
  refine .exists_pre fun frames => ?_
  refine .bind (R := fun frame s => match frame with
    | none => s.allocator = none
    | some frame => done.map (mapper.translate s.mapper) = frames.map some ∧
        Handed memoryMap (frames ++ [frame]) s) ?_ fun frame => ?_
  · refine allocateFrame_triple hAligned (fun s h => h.2.fromMap) (fun s ⟨hDone, h⟩ => ?_)
      fun s _ h => h.2.empty
    match hFrame : (usableFrames memoryMap)[s.frameAllocator.next]? with
    | none => exact h.empty
    | some frame =>
      refine ⟨hDone, rfl, ?_, h.empty⟩
      rw [List.append_assoc]
      exact (List.perm_append_comm.append_left frames).trans (h.next hFrame)
  · match frame with
    | none => exact fun s hEmpty => hEmpty
    | some frame =>
      refine .get fun s ⟨hDone, h⟩ => ?_
      refine (MapTo.run_triple hAligned (hLawful.maps page frame _ s.mapper (by decide))).imp
        (fun t ht => ht ▸ h) (fun _ t ⟨ht, hMaps⟩ => ?_) fun _ _ ht => ht
      obtain ⟨hPage, hOther⟩ := hMaps rfl
      refine ⟨frames ++ [frame], ?_, ht⟩
      rw [List.map_append, List.map_append, ← hDone, List.map_singleton, hPage]
      congr 1
      exact List.map_congr_left fun other hMem =>
        hOther other fun hEq => hNew (hEq ▸ hMem)

end Frames

namespace HeapAllocator

theorem length_pageRange : pageRange.length = 8192 := by
  rw [pageRange, Page.rangeInclusive, List.length_map, List.length_range']
  rfl

theorem nodup_pageRange : pageRange.Nodup := by
  refine List.Nodup.map (fun m n hEq => ?_) List.nodup_range'
  have hAddr : 4096 * m = 4096 * n := congrArg Page.startAddress hEq
  omega

theorem notMem_of_split {done rest : List Page} {page : Page}
    (hPages : pageRange = done ++ page :: rest) : page ∉ done := by
  intro hMem
  have hNodup := nodup_pageRange
  rw [hPages] at hNodup
  exact (List.nodup_append.mp hNodup).2.2 page hMem page (.head _) rfl

theorem mem_pageRange {addr : Nat} (hStart : heapStart ≤ addr)
    (hEnd : addr < heapStart + heapSize) : Page.containingAddress addr ∈ pageRange := by
  simp only [pageRange, Page.rangeInclusive, List.mem_map, List.mem_range'_1]
  refine ⟨addr / 4096, ?_, ?_⟩
  · simp only [heapStart, heapSize, Page.containingAddress] at *
    omega
  · apply Page.ext
    change 4096 * (addr / 4096) = addr - addr % 4096
    omega

variable {mapper : Mapper M} {m : M}

theorem init_triple (hLawful : mapper.Lawful) (hAligned : PageAligned memoryMap) :
    Triple (· = MemoryState.boot m memoryMap) (init mapper)
      (fun _ s => s.allocator = some (heapStart, heapSize) ∧
        Mapped mapper memoryMap pageRange { s with allocator := none })
      (fun _ s => s.allocator = none) := by
  refine .bind (R := fun _ => Mapped mapper memoryMap pageRange) ?_ fun _ => ?_
  · refine (Triple.forM (I := Mapped mapper memoryMap) fun done page rest hPages => ?_).imp
      ?_ (fun _ _ h => h) fun _ _ h => h
    · exact mapPage_triple hAligned hLawful (notMem_of_split hPages)
    · rintro s rfl
      exact ⟨[], rfl, rfl, .refl _, rfl⟩
  · intro s h
    obtain ⟨frames, hPages, h⟩ := h
    exact ⟨rfl, frames, hPages, h.fromMap, h.perm, rfl⟩

theorem heapMapped_of_mapped (hAligned : PageAligned memoryMap) {s : MemoryState M}
    (h : Mapped mapper memoryMap pageRange { s with allocator := none }) :
    HeapMapped mapper memoryMap s := by
  obtain ⟨frames, hPages, hHanded⟩ := h
  have hNodup : (frames ++ s.tables).Nodup := hHanded.perm.symm.nodup
    ((List.take_sublist _ _).nodup (nodup_usableFrames hAligned))
  obtain ⟨hFrames, -, hApart⟩ := List.nodup_append.mp hNodup
  constructor
  · intro addr hStart hEnd
    have hMem := List.mem_map_of_mem (f := mapper.translate s.mapper) (mem_pageRange hStart hEnd)
    rw [hPages, List.mem_map] at hMem
    obtain ⟨f, hf, hEq⟩ := hMem
    have hUsable : f ∈ usableFrames memoryMap := List.mem_of_mem_take
      (hHanded.perm.mem_iff.mp (List.mem_append_left _ hf))
    obtain ⟨hInside, hMin⟩ := (mem_usableFrames hAligned).mp hUsable
    exact ⟨f, hEq.symm, hInside, hMin, fun hTable => hApart f hf f hTable rfl⟩
  · intro addr addr' hStart hEnd hStart' hEnd' hEq
    have hMapped : (pageRange.map (mapper.translate s.mapper)).Nodup := by
      rw [hPages]
      exact hFrames.map fun _ _ => Option.some.inj
    exact List.inj_on_of_nodup_map hMapped (mem_pageRange hStart hEnd)
      (mem_pageRange hStart' hEnd') hEq

theorem exec_memoryInit (s : MemoryState M) :
    ((memoryInit mapper).exec s).2 = ((init mapper).exec s).2 := by
  rw [memoryInit, exec_tryCatch]
  match (init mapper).exec s with
  | (.ok (), t) => rfl
  | (.error (.err _), t) => rfl
  | (.error (.panic _), t) => rfl

/-- `ALLOCATOR` is initialised exactly when `init` returns `Ok`, and then every heap page has its
own usable frame, which is no page table.  When `init` fails, no later allocation succeeds; in any
case allocations lie in mapped pages. -/
theorem init_maps_heap {H : Type} {heap : LockedHeap H} (hHeap : heap.Lawful)
    (hLawful : mapper.Lawful) (hAligned : PageAligned memoryMap) {result : Except Stop Unit}
    {s : MemoryState M} (hInit : (init mapper).exec (.boot m memoryMap) = (result, s)) :
    ((memoryInit mapper).exec (.boot m memoryMap)).2 = s ∧
      (s.allocator = some (heapStart, heapSize) ↔ result = .ok ()) ∧
      (s.allocator = none ↔ ∃ stop, result = .error stop) ∧
      (result = .ok () → HeapMapped mapper memoryMap s) ∧
      (∀ stop, result = .error stop → ∀ h live,
        heap.Uses (heap.ofRange s.allocator) h live → live = []) ∧
      ∀ h live, heap.Uses (heap.ofRange s.allocator) h live → ∀ a ∈ live, ∀ addr,
        a.1 ≤ addr → addr < a.1 + a.2.size →
        mapper.translate s.mapper (.containingAddress addr) ≠ none := by
  have hTriple := init_triple (m := m) hLawful hAligned
  refine ⟨by rw [exec_memoryInit, hInit], ?_⟩
  match result with
  | .ok () =>
    obtain ⟨hAllocator, hMapped⟩ := hTriple.ok rfl hInit
    have hHeapMapped := heapMapped_of_mapped hAligned hMapped
    refine ⟨by simp [hAllocator], by simp [hAllocator], fun _ => hHeapMapped, nofun, ?_⟩
    intro h live hUses a ha addr hLow hHigh
    rw [hAllocator] at hUses
    obtain ⟨hStart, hEnd⟩ := hHeap.uses_init hUses a ha
    obtain ⟨f, hf, -⟩ := hHeapMapped.frame addr (by omega) (by omega)
    exact hf ▸ Option.some_ne_none f
  | .error stop =>
    have hAllocator : s.allocator = none := hTriple.error rfl hInit
    have hNone : ∀ h live, heap.Uses (heap.ofRange s.allocator) h live → live = [] := by
      intro h live hUses
      rw [hAllocator] at hUses
      exact (hHeap.uses_empty hUses).2
    refine ⟨by simp [hAllocator], by simp [hAllocator], nofun, fun _ _ => hNone, ?_⟩
    intro h live hUses a ha
    rw [hNone h live hUses] at ha
    cases ha

end HeapAllocator

/-! A mapper with page tables of 512 entries on three levels below the top one, and a bump
allocator, meet the contracts; with enough memory `init` succeeds for them. -/

structure PageTables where
  present : List (Nat × Nat)
  entries : Page → Option PhysFrame

namespace PageTables

def walk (page : Page) (frame : PhysFrame) : List Nat → PageTables → MapTo PageTables
  | [], m => match m.entries page with
    | some mapped => .done (.error (.pageAlreadyMapped mapped)) m
    | none => .done (.ok ()) { m with entries := Function.update m.entries page (some frame) }
  | level :: levels, m =>
    let table := (level, page.startAddress / 4096 / 512 ^ level)
    if table ∈ m.present then walk page frame levels m
    else .allocate fun
      | none => .done (.error .frameAllocationFailed) m
      | some _ => walk page frame levels { m with present := table :: m.present }

def mapper : Mapper PageTables where
  mapTo page frame _ m := walk page frame [3, 2, 1] m
  translate m page := m.entries page

variable {page : Page} {frame : PhysFrame}

theorem walk_ends (levels : List Nat) (m : PageTables) :
    (walk page frame levels m).Ends fun result m' => result = .ok () →
      m'.entries page = some frame ∧
        ∀ other, other ≠ page → m'.entries other = m.entries other := by
  induction levels generalizing m with
  | nil =>
    rw [walk]
    split
    · exact nofun
    · exact fun _ => ⟨Function.update_self .., fun other hOther => Function.update_of_ne hOther ..⟩
  | cons level levels ih =>
    rw [walk]
    split
    · exact ih m
    · intro table
      match table with
      | none => exact nofun
      | some _ => exact ih ⟨_ :: m.present, m.entries⟩

theorem mapper_lawful : mapper.Lawful := ⟨fun _ _ _ m _ => walk_ends _ m⟩

/-- 128 MiB above the first. -/
def largeMap : List MemoryRegion := [⟨0x100000, 0x8100000, .usable⟩]

theorem largeMap_aligned : PageAligned largeMap := ⟨by decide, by simp [largeMap]⟩

theorem length_largeMap : (usableFrames largeMap).length = 32768 := by
  rw [largeMap, FramePass.usableFrames_cons_usable rfl, FramePass.remaining, List.length_append,
    List.length_map, List.length_range']
  rfl

/-- At most `n` frames of the large map are handed out, and the mapper is in `R`. -/
def Spare (n : Nat) (R : PageTables → Prop) (s : MemoryState PageTables) : Prop :=
  s.frameAllocator.memoryMap = largeMap ∧ s.frameAllocator.next ≤ n ∧ R s.mapper

variable {n : Nat} {R : PageTables → Prop}

theorem allocateFrame_large (hn : n < 32768) :
    Triple (Spare n R) allocateFrame (fun frame s => (∃ f, frame = some f) ∧ Spare (n + 1) R s)
      (fun _ _ => False) := by
  refine .get fun s ⟨hMap, hNext, hR⟩ => ?_
  have hAddrs : ∀ addr ∈ AbyssFrameAllocator.frameAddresses s.frameAllocator.memoryMap,
      addr < 2 ^ 52 := by
    rw [hMap]
    exact fun addr => AbyssFrameAllocator.frameAddresses_lt (by decide)
  have hLeft : s.frameAllocator.next < (usableFrames largeMap).length := by
    rw [length_largeMap]
    omega
  rw [AbyssFrameAllocator.allocateFrame_eq hAddrs (by omega), hMap, ← List.getElem?_map,
    map_frameAddresses largeMap_aligned, List.getElem?_eq_getElem hLeft]
  rintro t rfl
  exact ⟨⟨_, rfl⟩, rfl, Nat.succ_le_succ hNext, hR⟩

theorem walk_returns (frame : PhysFrame) (levels : List Nat) {m : PageTables}
    (hn : n + levels.length ≤ 32768) (hNew : m.entries page = none) :
    Triple (Spare n fun _ => True) (walk page frame levels m).run
      (fun _ => Spare (n + levels.length) fun m' =>
        m'.entries = Function.update m.entries page (some frame))
      (fun _ _ => False) := by
  induction levels generalizing m n with
  | nil =>
    rw [walk, hNew]
    exact fun s ⟨hMap, hNext, _⟩ => ⟨hMap, hNext, rfl⟩
  | cons level levels ih =>
    rw [List.length_cons] at hn ⊢
    rw [walk]
    split
    · refine (ih (n := n) (by omega) hNew).imp (fun _ h => h) (fun _ s h => ?_) fun _ _ h => h
      exact ⟨h.1, by have := h.2.1; omega, h.2.2⟩
    · refine .bind (allocateFrame_large (by omega)) fun table => ?_
      rintro s ⟨⟨f, rfl⟩, h⟩
      rw [← Nat.add_assoc, Nat.add_right_comm]
      exact ih (m := ⟨(level, _) :: m.present, m.entries⟩) (by omega) hNew _ h

theorem mapPage_returns {done : List Page} (hDone : done.length < 8192) (hNew : page ∉ done) :
    Triple (Spare (4 * done.length) fun m => ∀ other, other ∉ done → m.entries other = none)
      (HeapAllocator.mapPage mapper page)
      (fun _ => Spare (4 * (done ++ [page]).length) fun m =>
        ∀ other, other ∉ done ++ [page] → m.entries other = none)
      (fun _ _ => False) := by
  refine .bind (allocateFrame_large (by omega)) fun frame => ?_
  match frame with
  | none => exact fun s ⟨⟨_, hSome⟩, _⟩ => nomatch hSome
  | some frame =>
    refine .get fun s ⟨_, hMap, hNext, hNone⟩ => ?_
    have hWalk := walk_returns (n := 4 * done.length + 1) frame [3, 2, 1]
      (by simp only [List.length_cons, List.length_nil]; omega) (hNone page hNew)
    refine hWalk.imp (fun t ht => ht ▸ ⟨hMap, hNext, trivial⟩) (fun _ t h => ?_) fun _ _ h => h
    obtain ⟨hMap, hNext, hEntries⟩ := h
    simp only [List.mem_append, List.mem_singleton, not_or, List.length_append,
      List.length_cons, List.length_nil] at *
    refine ⟨hMap, by omega, fun other hOther => ?_⟩
    rw [hEntries, Function.update_of_ne hOther.2]
    exact hNone other hOther.1

theorem init_succeeds :
    Triple (· = MemoryState.boot ⟨[], fun _ => none⟩ largeMap) (HeapAllocator.init mapper)
      (fun _ _ => True) (fun _ _ => False) := by
  refine .bind (R := fun _ _ => True) ?_ fun _ => fun _ _ => trivial
  refine (Triple.forM (I := fun done => Spare (4 * done.length) fun m =>
    ∀ other, other ∉ done → m.entries other = none) fun done page rest hPages => ?_).imp ?_
      (fun _ _ _ => trivial) fun _ _ h => h
  · have hLength := HeapAllocator.length_pageRange
    rw [hPages, List.length_append, List.length_cons] at hLength
    exact mapPage_returns (by omega) (HeapAllocator.notMem_of_split hPages)
  · rintro s rfl
    exact ⟨rfl, Nat.le_refl _, fun _ _ => rfl⟩

/-- The next free address and the end of the range. -/
def bump : LockedHeap (Option (Nat × Nat)) where
  empty := none
  init start size := some (start, start + size)
  alloc
    | none, _ => (none, none)
    | some (next, end_), layout =>
      let ptr := next + (layout.align - next % layout.align) % layout.align
      if ptr + layout.size ≤ end_ then (some ptr, some (ptr + layout.size, end_))
      else (none, some (next, end_))
  dealloc h _ _ := h

theorem bump_alloc {next end_ : Nat} {layout : Layout} {result : Option Nat}
    {h' : Option (Nat × Nat)} (h : bump.alloc (some (next, end_)) layout = (result, h')) :
    (∃ next', next ≤ next' ∧ h' = some (next', end_)) ∧
      ∀ ptr, result = some ptr → next ≤ ptr ∧ ptr + layout.size ≤ end_ := by
  simp only [bump] at h
  split at h
  · obtain ⟨rfl, rfl⟩ := Prod.mk.inj h
    refine ⟨⟨_, by omega, rfl⟩, fun ptr hPtr => ?_⟩
    obtain rfl := Option.some.inj hPtr
    exact ⟨by omega, ‹_›⟩
  · obtain ⟨rfl, rfl⟩ := Prod.mk.inj h
    exact ⟨⟨next, Nat.le_refl _, rfl⟩, nofun⟩

theorem bump_uses {start size : Nat} {h : Option (Nat × Nat)} {live : List (Nat × Layout)}
    (hUses : bump.Uses (bump.init start size) h live) :
    ∃ next, start ≤ next ∧ h = some (next, start + size) := by
  induction hUses with
  | start => exact ⟨start, Nat.le_refl _, rfl⟩
  | alloc _ call ih | null _ call ih =>
    obtain ⟨next, hNext, rfl⟩ := ih
    obtain ⟨⟨next', hNext', rfl⟩, -⟩ := bump_alloc call
    exact ⟨next', by omega, rfl⟩
  | dealloc _ _ ih => exact ih

theorem bump_lawful : bump.Lawful := by
  refine ⟨fun _ => rfl, fun {start size h live layout ptr h'} hUses hCall => ?_⟩
  obtain ⟨next, hNext, rfl⟩ := bump_uses hUses
  obtain ⟨hLow, hHigh⟩ := (bump_alloc hCall).2 ptr rfl
  exact ⟨by omega, hHigh⟩

theorem init_maps_heap_large : ∃ s,
    (HeapAllocator.init mapper).exec (.boot ⟨[], fun _ => none⟩ largeMap) = (.ok (), s) ∧
      s.allocator = some (HeapAllocator.heapStart, HeapAllocator.heapSize) ∧
      HeapMapped mapper largeMap s := by
  match hInit : (HeapAllocator.init mapper).exec (.boot ⟨[], fun _ => none⟩ largeMap) with
  | (.ok (), s) =>
    have h := HeapAllocator.init_maps_heap bump_lawful mapper_lawful largeMap_aligned hInit
    exact ⟨s, rfl, h.2.1.mpr rfl, h.2.2.2.1 rfl⟩
  | (.error _, _) => exact (init_succeeds.error rfl hInit).elim

end PageTables

end RixOs

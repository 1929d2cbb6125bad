import Mathlib.Algebra.Group.Nat.Defs
import Mathlib.Data.List.Perm.Subperm
import Mathlib.Data.List.Range
import Mathlib.Data.List.Nodup
import Mathlib.Data.List.ReduceOption
import RixOs.Panic

/-! The frame allocator of `page_allocator.rs`.  Each call derives the sequence of usable frames
from the memory map again and takes the one at position `next`.  The addresses of a region are
stepped from its raw start and rounded down to a frame boundary, so the frames lie inside their
regions only for some region bounds; the main theorem says for which.

Addresses are natural numbers: every address that is computed lies below the end of a region, so
no sum overflows. -/

namespace RixOs

inductive MemoryRegionKind
  | usable
  | bootloader
  | unknownUefi (tag : UInt32)
  | unknownBios (tag : UInt32)
  deriving DecidableEq, Repr

structure MemoryRegion where
  start : Nat
  end_ : Nat
  kind : MemoryRegionKind
  deriving DecidableEq, Repr

/-- A 4 KiB frame of physical memory, by its first address. -/
structure PhysFrame where
  startAddress : Nat
  aligned : startAddress % 4096 = 0
  deriving DecidableEq, Repr

/-- `PhysAddr::new`, which panics when bits above bit 51 are set. -/
def physAddr (addr : Nat) : Except Panic Nat :=
  if addr < 2 ^ 52 then .ok addr else .error .invalidPhysAddr

def PhysFrame.containingAddress (addr : Nat) : PhysFrame := ⟨addr - addr % 4096, by omega⟩

/-- `(start..end).step_by(step)`. -/
def stepBy (start end_ step : Nat) : List Nat :=
  (List.range ((end_ - start + (step - 1)) / step)).map fun i => start + step * i

def minUsablePa : Nat := 0x100000

structure AbyssFrameAllocator where
  memoryMap : List MemoryRegion
  next : Nat
  deriving DecidableEq, Repr

namespace AbyssFrameAllocator

def init (memoryMap : List MemoryRegion) : AbyssFrameAllocator := ⟨memoryMap, 0⟩

/-- The `frame_addresses` of `usable_frames`. -/
def frameAddresses (memoryMap : List MemoryRegion) : List Nat :=
  ((memoryMap.filter fun r => r.kind = .usable).flatMap fun r => stepBy r.start r.end_ 4096).filter
    fun addr => minUsablePa ≤ addr

/-- `usable_frames().nth(n)`: the iterator is lazy, but it computes the frames it passes over. -/
def nthUsableFrame (memoryMap : List MemoryRegion) (n : Nat) : Except Panic (Option PhysFrame) := do
  let frames ← ((frameAddresses memoryMap).take (n + 1)).mapM fun addr => do
    return PhysFrame.containingAddress (← physAddr addr)
  return frames[n]?

def allocateFrame (self : AbyssFrameAllocator) :
    Except Panic (Option PhysFrame × AbyssFrameAllocator) := do
  let frame ← nthUsableFrame self.memoryMap self.next
  if self.next + 1 < 2 ^ 64 then return (frame, { self with next := self.next + 1 })
  else throw .arithmeticOverflow

def allocateFrames (self : AbyssFrameAllocator) : Nat → Except Panic (List (Option PhysFrame))
  | 0 => return []
  | n + 1 => do
    let (frame, self) ← self.allocateFrame
    return frame :: (← self.allocateFrames n)

end AbyssFrameAllocator

def MemoryRegion.Apart (r q : MemoryRegion) : Prop :=
  ∀ addr, r.start ≤ addr ∧ addr < r.end_ → ¬(q.start ≤ addr ∧ addr < q.end_)

instance : Std.Symm MemoryRegion.Apart := ⟨fun _ _ h addr hq hr => h addr hr hq⟩

/-- What is known of a memory map: its regions are half-open ranges below 2^52, pairwise
disjoint. -/
structure ValidMap (memoryMap : List MemoryRegion) : Prop where
  ordered : ∀ r ∈ memoryMap, r.start ≤ r.end_ ∧ r.end_ < 2 ^ 52
  disjoint : memoryMap.Pairwise MemoryRegion.Apart

def PhysFrame.Inside (f : PhysFrame) (r : MemoryRegion) : Prop :=
  r.start ≤ f.startAddress ∧ f.startAddress + 4096 ≤ r.end_

/-- What callers rely on: each frame handed out lies inside one usable region, at or above 1 MiB,
and no frame is handed out twice. -/
structure Contained (memoryMap : List MemoryRegion) (results : List (Option PhysFrame)) : Prop where
  inside : ∀ f, some f ∈ results →
    (∃ r ∈ memoryMap, r.kind = .usable ∧ f.Inside r) ∧ minUsablePa ≤ f.startAddress
  distinct : results.reduceOption.Nodup

/-- The bounds for which rounding down stays inside the region.  Above 1 MiB both bounds must be
frame boundaries, unless the region is empty.  A region that starts below 1 MiB loses its first
addresses to the filter, so that only its end matters: no address may be left above 1 MiB, or the
end must not cut the last frame. -/
def MemoryRegion.FrameAligned (r : MemoryRegion) : Prop :=
  (minUsablePa ≤ r.start → r.start = r.end_ ∨ (r.start % 4096 = 0 ∧ r.end_ % 4096 = 0)) ∧
    (r.start < minUsablePa →
      r.end_ ≤ minUsablePa + r.start % 4096 ∨ r.end_ % 4096 ≤ r.start % 4096)

theorem mem_stepBy {start end_ addr : Nat} :
    addr ∈ stepBy start end_ 4096 ↔
      start ≤ addr ∧ addr < end_ ∧ addr % 4096 = start % 4096 := by
  simp only [stepBy, List.mem_map, List.mem_range]
  constructor
  · rintro ⟨i, hi, rfl⟩
    omega
  · rintro ⟨hStart, hEnd, hMod⟩
    exact ⟨(addr - start) / 4096, by omega, by omega⟩

theorem nodup_stepBy (start end_ : Nat) : (stepBy start end_ 4096).Nodup := by
  refine List.nodup_range.map fun i j hEq => ?_
  have hEq : start + 4096 * i = start + 4096 * j := hEq
  omega

theorem MemoryRegion.frameAligned_iff {r : MemoryRegion} (hOrdered : r.start ≤ r.end_) :
    (∀ addr ∈ stepBy r.start r.end_ 4096, minUsablePa ≤ addr →
      (PhysFrame.containingAddress addr).Inside r) ↔ r.FrameAligned := by
  simp only [mem_stepBy, PhysFrame.Inside, PhysFrame.containingAddress, FrameAligned, minUsablePa]
  constructor
  · intro hAll
    -- The last address that the region yields.
    have hLast := hAll (r.end_ - 1 - (r.end_ - 1 - r.start) % 4096)
    refine ⟨fun hAbove => ?_, fun hBelow => ?_⟩
    · have hFirst := hAll r.start
      omega
    · omega
  · intro hAligned addr hMem hMin
    omega

namespace AbyssFrameAllocator

variable {memoryMap : List MemoryRegion}

theorem mem_frameAddresses {addr : Nat} :
    addr ∈ frameAddresses memoryMap ↔ (∃ r ∈ memoryMap, r.kind = .usable ∧
      addr ∈ stepBy r.start r.end_ 4096) ∧ minUsablePa ≤ addr := by
  simp [frameAddresses, and_assoc]

theorem mapM_containingAddress (addrs : List Nat) :
    (addrs.mapM fun addr => do
      return PhysFrame.containingAddress (← physAddr addr) : Except Panic _) =
      if ∀ addr ∈ addrs, addr < 2 ^ 52 then .ok (addrs.map PhysFrame.containingAddress)
      else .error .invalidPhysAddr := by
  induction addrs with
  | nil => rfl
  | cons addr addrs ih =>
    rw [List.mapM_cons, ih, physAddr]
    simp only [List.forall_mem_cons]
    by_cases hAddr : addr < 2 ^ 52
    · by_cases hAddrs : ∀ addr ∈ addrs, addr < 2 ^ 52
      · rw [if_pos hAddr, if_pos hAddrs, if_pos ⟨hAddr, hAddrs⟩]
        rfl
      · rw [if_pos hAddr, if_neg hAddrs, if_neg fun h => hAddrs h.2]
        rfl
    · rw [if_neg hAddr, if_neg (not_and_of_not_left _ hAddr)]
      rfl

/-- The sequence of usable frames, with the panic at the first address that does not exist. -/
theorem nthUsableFrame_eq (n : Nat) : nthUsableFrame memoryMap n =
    if ∀ addr ∈ (frameAddresses memoryMap).take (n + 1), addr < 2 ^ 52 then
      .ok ((frameAddresses memoryMap)[n]?.map PhysFrame.containingAddress)
    else .error .invalidPhysAddr := by
  rw [nthUsableFrame, mapM_containingAddress]
  split
  · rw [Panic.bind_ok, List.getElem?_map, List.getElem?_take_of_lt (Nat.lt_succ_self n)]
    rfl
  · rfl

/-- A call that returns takes the frame at `next`, whatever the map. -/
theorem allocateFrame_ok {self self' : AbyssFrameAllocator} {frame : Option PhysFrame}
    (h : self.allocateFrame = .ok (frame, self')) :
    frame = (frameAddresses self.memoryMap)[self.next]?.map PhysFrame.containingAddress ∧
      self' = { self with next := self.next + 1 } ∧ self.next + 1 < 2 ^ 64 := by
  obtain ⟨frame', hNth, h⟩ := Panic.bind_eq_ok h
  rw [nthUsableFrame_eq] at hNth
  split at hNth
  · split at h
    · obtain ⟨rfl, rfl⟩ := Prod.mk.inj (Except.ok.inj h)
      exact ⟨(Except.ok.inj hNth).symm, rfl, ‹_›⟩
    · cases h
  · cases hNth

theorem allocateFrames_ok {n next : Nat} {results : List (Option PhysFrame)}
    (h : allocateFrames ⟨memoryMap, next⟩ n = .ok results) :
    results = (List.range' next n).map fun i =>
      (frameAddresses memoryMap)[i]?.map PhysFrame.containingAddress := by
  induction n generalizing next results with
  | zero => exact (Except.ok.inj h).symm
  | succ n ih =>
    obtain ⟨⟨frame, self⟩, hFrame, h⟩ := Panic.bind_eq_ok h
    obtain ⟨rest, hRest, hCons⟩ := Panic.bind_eq_ok h
    obtain ⟨rfl, rfl, -⟩ := allocateFrame_ok hFrame
    rw [← Except.ok.inj hCons, ih hRest, List.range'_succ, List.map_cons]

theorem lt_of_allocateFrames_ok {n next : Nat} {results : List (Option PhysFrame)}
    (hNext : next < 2 ^ 64) (h : allocateFrames ⟨memoryMap, next⟩ n = .ok results) :
    next + n < 2 ^ 64 := by
  induction n generalizing next results with
  | zero => exact hNext
  | succ n ih =>
    obtain ⟨⟨frame, self⟩, hFrame, h⟩ := Panic.bind_eq_ok h
    obtain ⟨rest, hRest, -⟩ := Panic.bind_eq_ok h
    obtain ⟨-, rfl, hCount⟩ := allocateFrame_ok hFrame
    have hBound : next + 1 + n < 2 ^ 64 := ih hCount hRest
    omega

theorem allocateFrame_eq {self : AbyssFrameAllocator}
    (hAddrs : ∀ addr ∈ frameAddresses self.memoryMap, addr < 2 ^ 52)
    (hNext : self.next + 1 < 2 ^ 64) :
    self.allocateFrame = .ok ((frameAddresses self.memoryMap)[self.next]?.map
      PhysFrame.containingAddress, { self with next := self.next + 1 }) := by
  rw [allocateFrame, nthUsableFrame_eq,
    if_pos fun addr hMem => hAddrs addr (List.mem_of_mem_take hMem), Panic.bind_ok, if_pos hNext]
  rfl

/-- `n` calls return, as long as the counter does not overflow, and take the next `n` frames. -/
theorem allocateFrames_eq (hAddrs : ∀ addr ∈ frameAddresses memoryMap, addr < 2 ^ 52)
    {n next : Nat} (hNext : next + n < 2 ^ 64) :
    allocateFrames ⟨memoryMap, next⟩ n = .ok ((List.range' next n).map fun i =>
      (frameAddresses memoryMap)[i]?.map PhysFrame.containingAddress) := by
  induction n generalizing next with
  | zero => rfl
  | succ n ih =>
    rw [allocateFrames, allocateFrame_eq hAddrs (by simp only; omega), Panic.bind_ok]
    simp only [ih (by omega : next + 1 + n < 2 ^ 64), Panic.bind_ok]
    rfl

section Valid

variable (hValid : ValidMap memoryMap)
include hValid

theorem lt_of_mem_frameAddresses {addr : Nat} (hMem : addr ∈ frameAddresses memoryMap) :
    addr < 2 ^ 52 := by
  obtain ⟨⟨r, hr, -, hStep⟩, -⟩ := mem_frameAddresses.mp hMem
  have := (hValid.ordered r hr).2
  have := (mem_stepBy.mp hStep).2.1
  omega

theorem nodup_frameAddresses : (frameAddresses memoryMap).Nodup := by
  refine .filter _ (List.nodup_flatMap.mpr ⟨fun r _ => nodup_stepBy r.start r.end_, ?_⟩)
  refine (hValid.disjoint.filter _).imp fun hDisjoint addr hr hq => ?_
  obtain ⟨hrStart, hrEnd, -⟩ := mem_stepBy.mp hr
  obtain ⟨hqStart, hqEnd, -⟩ := mem_stepBy.mp hq
  exact hDisjoint addr ⟨hrStart, hrEnd⟩ ⟨hqStart, hqEnd⟩

theorem length_frameAddresses : (frameAddresses memoryMap).length ≤ 2 ^ 52 := by
  have hSub : frameAddresses memoryMap ⊆ List.range (2 ^ 52) := fun addr hMem =>
    List.mem_range.mpr (lt_of_mem_frameAddresses hValid hMem)
  simpa using (List.subperm_of_subset (nodup_frameAddresses hValid) hSub).length_le

theorem allocateFrames_reduceOption {n : Nat} (hn : n < 2 ^ 64) :
    ∃ results, (init memoryMap).allocateFrames n = .ok results ∧
      results.reduceOption = ((frameAddresses memoryMap).take n).map
        PhysFrame.containingAddress := by
  refine ⟨_, allocateFrames_eq (fun _ => lt_of_mem_frameAddresses hValid)
    (by omega : 0 + n < 2 ^ 64), ?_⟩
  rw [← List.range_eq_range']
  clear hn
  induction n with
  | zero => rfl
  | succ n ih =>
    rw [List.range_succ, List.map_append, List.reduceOption_append, ih, List.take_add_one,
      List.map_append, List.map_singleton]
    cases (frameAddresses memoryMap)[n]? <;> rfl

theorem eq_of_common {r q : MemoryRegion} (hr : r ∈ memoryMap) (hq : q ∈ memoryMap) {addr : Nat}
    (hAddr : r.start ≤ addr ∧ addr < r.end_) (hAddr' : q.start ≤ addr ∧ addr < q.end_) : r = q := by
  by_contra hNe
  exact hValid.disjoint.forall hr hq hNe addr hAddr hAddr'

variable (hAligned : ∀ r ∈ memoryMap, r.kind = .usable → r.FrameAligned)
include hAligned

theorem inside_of_aligned {addr : Nat} (hMem : addr ∈ frameAddresses memoryMap) :
    ∃ r ∈ memoryMap, r.kind = .usable ∧ addr ∈ stepBy r.start r.end_ 4096 ∧
      (PhysFrame.containingAddress addr).Inside r := by
  obtain ⟨⟨r, hr, hUsable, hStep⟩, hMin⟩ := mem_frameAddresses.mp hMem
  exact ⟨r, hr, hUsable, hStep, (r.frameAligned_iff (hValid.ordered r hr).1).mpr
    (hAligned r hr hUsable) addr hStep hMin⟩

/-- Aligned regions yield no frame twice: two addresses with the same frame are in one region,
where they differ by a multiple of the frame size. -/
theorem containingAddress_inj {addr addr' : Nat} (hMem : addr ∈ frameAddresses memoryMap)
    (hMem' : addr' ∈ frameAddresses memoryMap)
    (hEq : PhysFrame.containingAddress addr = PhysFrame.containingAddress addr') : addr = addr' := by
  obtain ⟨r, hr, -, hStep, hInside⟩ := inside_of_aligned hValid hAligned hMem
  obtain ⟨q, hq, -, hStep', hInside'⟩ := inside_of_aligned hValid hAligned hMem'
  have hFrame : addr - addr % 4096 = addr' - addr' % 4096 := congrArg PhysFrame.startAddress hEq
  simp only [PhysFrame.Inside, PhysFrame.containingAddress] at hInside hInside'
  have hAddr : r.start ≤ addr - addr % 4096 ∧ addr - addr % 4096 < r.end_ := by omega
  obtain rfl : r = q := eq_of_common hValid hr hq hAddr (by omega)
  have hMod := (mem_stepBy.mp hStep).2.2
  have hMod' := (mem_stepBy.mp hStep').2.2
  omega

theorem contained_of_aligned {n : Nat} {results : List (Option PhysFrame)}
    (hResults : results.reduceOption = ((frameAddresses memoryMap).take n).map
      PhysFrame.containingAddress) : Contained memoryMap results := by
  constructor
  · intro f hf
    rw [← List.reduceOption_mem_iff, hResults, List.mem_map] at hf
    obtain ⟨addr, hTake, rfl⟩ := hf
    have hMem := List.mem_of_mem_take hTake
    obtain ⟨r, hr, hUsable, -, hInside⟩ := inside_of_aligned hValid hAligned hMem
    refine ⟨⟨r, hr, hUsable, hInside⟩, ?_⟩
    have hMin := (mem_frameAddresses.mp hMem).2
    simp only [minUsablePa, PhysFrame.containingAddress] at *
    omega
  · rw [hResults]
    refine List.Nodup.map_on (fun addr hAddr addr' hAddr' => ?_)
      ((List.take_sublist _ _).nodup (nodup_frameAddresses hValid))
    exact containingAddress_inj hValid hAligned (List.mem_of_mem_take hAddr)
      (List.mem_of_mem_take hAddr')

end Valid

/-- Frame allocation returns for as many calls as the counter can count, and what it returns is as
callers rely on, for every number of calls, exactly when every usable region is aligned. -/
theorem contained_iff (hValid : ValidMap memoryMap) :
    (∀ n < 2 ^ 64, ∃ results, (init memoryMap).allocateFrames n = .ok results) ∧
      ((∀ n results, (init memoryMap).allocateFrames n = .ok results →
          Contained memoryMap results) ↔
        ∀ r ∈ memoryMap, r.kind = .usable → r.FrameAligned) := by
  refine ⟨fun n hn => ?_, fun hAll r hr hUsable => ?_, fun hAligned n results hOk => ?_⟩
  · obtain ⟨results, hOk, -⟩ := allocateFrames_reduceOption hValid hn
    exact ⟨results, hOk⟩
  · refine (r.frameAligned_iff (hValid.ordered r hr).1).mp fun addr hStep hMin => ?_
    have hMem := mem_frameAddresses.mpr ⟨⟨r, hr, hUsable, hStep⟩, hMin⟩
    have hLength := length_frameAddresses hValid
    obtain ⟨results, hOk, hResults⟩ := allocateFrames_reduceOption hValid
      (by omega : (frameAddresses memoryMap).length < 2 ^ 64)
    rw [List.take_length] at hResults
    have hSome : some (PhysFrame.containingAddress addr) ∈ results := by
      rw [← List.reduceOption_mem_iff, hResults]
      exact List.mem_map_of_mem hMem
    obtain ⟨⟨q, hq, -, hInside⟩, -⟩ := (hAll _ _ hOk).inside _ hSome
    -- The frame contains `addr`, so the region that it lies in is `r`.
    obtain ⟨hStart, hEnd, -⟩ := mem_stepBy.mp hStep
    obtain rfl : r = q := eq_of_common hValid hr hq ⟨hStart, hEnd⟩ (by
      simp only [PhysFrame.Inside, PhysFrame.containingAddress] at hInside
      omega)
    exact hInside
  · have hn := lt_of_allocateFrames_ok (by decide) hOk
    obtain ⟨results', hOk', hResults⟩ := allocateFrames_reduceOption hValid
      (by omega : n < 2 ^ 64)
    obtain rfl := Except.ok.inj (hOk.symm.trans hOk')
    exact contained_of_aligned hValid hAligned hResults

def sampleMap : List MemoryRegion :=
  [⟨0, 0x9f000, .usable⟩, ⟨0x100000, 0x104000, .bootloader⟩, ⟨0x104000, 0x110000, .usable⟩]

theorem contained_iff_sample : ValidMap sampleMap ∧ ∀ n results,
    (init sampleMap).allocateFrames n = .ok results → Contained sampleMap results := by
  have hValid : ValidMap sampleMap := by
    refine ⟨by decide, ?_⟩
    simp only [sampleMap, List.pairwise_cons, List.forall_mem_cons, MemoryRegion.Apart]
    refine ⟨⟨?_, ?_, by simp⟩, ⟨?_, by simp⟩, by simp⟩ <;> omega
  refine ⟨hValid, (contained_iff hValid).2.mpr ?_⟩
  simp only [sampleMap, List.forall_mem_cons, MemoryRegion.FrameAligned, minUsablePa]
  refine ⟨fun _ => ?_, fun _ => ?_, fun _ => ?_, by simp⟩ <;> decide

/-- A usable region that starts in the middle of a frame of bootloader memory. -/
def unalignedMap : List MemoryRegion :=
  [⟨0, 0x100800, .bootloader⟩, ⟨0x100800, 0x102000, .usable⟩]

theorem unaligned_not_contained : ValidMap unalignedMap ∧
    (init unalignedMap).allocateFrames 1 = .ok [some ⟨0x100000, by decide⟩] ∧
    ¬Contained unalignedMap [some ⟨0x100000, by decide⟩] := by
  refine ⟨⟨by decide, ?_⟩, by decide, fun h => ?_⟩
  · simp only [unalignedMap, List.pairwise_cons, List.forall_mem_cons, MemoryRegion.Apart]
    refine ⟨⟨?_, by simp⟩, by simp⟩
    omega
  · obtain ⟨⟨r, hr, hUsable, hStart, -⟩, -⟩ := h.inside ⟨0x100000, by decide⟩ (by simp)
    simp only [unalignedMap, List.mem_cons, List.not_mem_nil, or_false] at hr
    rcases hr with rfl | rfl
    · cases hUsable
    · simp at hStart

end AbyssFrameAllocator

end RixOs

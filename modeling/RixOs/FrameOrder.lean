import RixOs.FrameAllocator

/-! The order in which the frame allocator hands out memory.  On a memory map whose usable regions
are page-aligned and disjoint, taking position `next` of the sequence derived anew from the map
gives what one pass over the map gives that remembers where it stopped.  The sequence consists of
all usable frames above 1 MiB, each once.

The map may be as large as it likes: the results say what calls that return hand out, and only
the theorem that all calls return bounds the addresses. -/

namespace RixOs

/-- The frame with a given number: frames are counted from address 0. -/
def PhysFrame.ofNumber (number : Nat) : PhysFrame := ⟨4096 * number, by omega⟩

/-- Page-aligned usable regions that share no address.  An end below the start is an empty
region. -/
structure PageAligned (memoryMap : List MemoryRegion) : Prop where
  aligned : ∀ r ∈ memoryMap, r.kind = .usable → r.start % 4096 = 0 ∧ r.end_ % 4096 = 0
  disjoint : (memoryMap.filter fun r => r.kind = .usable).Pairwise MemoryRegion.Apart

/-- The frames from one bound of a region to the other, ascending, without those below 1 MiB. -/
def MemoryRegion.frames (r : MemoryRegion) : List PhysFrame :=
  ((List.range' (r.start / 4096) (r.end_ / 4096 - r.start / 4096)).map PhysFrame.ofNumber).filter
    fun f => minUsablePa ≤ f.startAddress

/-- All frames that may be handed out, region by region in the order of the map. -/
def usableFrames (memoryMap : List MemoryRegion) : List PhysFrame :=
  (memoryMap.filter fun r => r.kind = .usable).flatMap MemoryRegion.frames

/-- One pass over the map: the numbers of the frames left in the current region, and the regions
that follow it. -/
structure FramePass where
  number : Nat
  last : Nat
  regions : List MemoryRegion

namespace FramePass

/-- Goes on to the first region with a frame to hand out. -/
def enter : List MemoryRegion → Option PhysFrame × FramePass
  | [] => (none, ⟨0, 0, []⟩)
  | r :: regions =>
    let number := max (r.start / 4096) (minUsablePa / 4096)
    if r.kind = .usable ∧ number < r.end_ / 4096 then
      (some (.ofNumber number), ⟨number + 1, r.end_ / 4096, regions⟩)
    else enter regions

def next (pass : FramePass) : Option PhysFrame × FramePass :=
  if pass.number < pass.last then
    (some (.ofNumber pass.number), { pass with number := pass.number + 1 })
  else enter pass.regions

/-- The results of `n` calls. -/
def take (pass : FramePass) : Nat → List (Option PhysFrame)
  | 0 => []
  | n + 1 => pass.next.1 :: pass.next.2.take n

/-- The frames that the pass has yet to hand out. -/
def remaining (pass : FramePass) : List PhysFrame :=
  (List.range' pass.number (pass.last - pass.number)).map PhysFrame.ofNumber ++
    usableFrames pass.regions

end FramePass

theorem PhysFrame.ofNumber_div (f : PhysFrame) : ofNumber (f.startAddress / 4096) = f := by
  obtain ⟨addr, hAligned⟩ := f
  refine PhysFrame.mk.injEq .. ▸ ?_
  exact Nat.mul_div_cancel' (Nat.dvd_of_mod_eq_zero hAligned)

theorem filter_le_range' (start count bound : Nat) :
    (List.range' start count).filter (bound ≤ ·) =
      List.range' (max start bound) (start + count - max start bound) := by
  induction count with
  | zero => rw [Nat.add_zero, Nat.sub_eq_zero_of_le (Nat.le_max_left ..)]; rfl
  | succ count ih =>
    rw [List.range'_concat, Nat.one_mul, List.filter_append, ih]
    by_cases hBound : bound ≤ start + count
    · have hCount : start + (count + 1) - max start bound =
          start + count - max start bound + 1 := by omega
      rw [hCount, List.range'_concat, List.filter_singleton,
        decide_eq_true hBound, cond_true]
      congr 2
      omega
    · rw [List.filter_singleton, decide_eq_false hBound, cond_false, List.append_nil]
      congr 1
      omega

theorem MemoryRegion.frames_eq (r : MemoryRegion) :
    r.frames = (List.range' (max (r.start / 4096) (minUsablePa / 4096))
      (r.end_ / 4096 - max (r.start / 4096) (minUsablePa / 4096))).map PhysFrame.ofNumber := by
  have hFilter : (fun f => decide (minUsablePa ≤ f.startAddress)) ∘ PhysFrame.ofNumber =
      fun number => decide (minUsablePa / 4096 ≤ number) := by
    funext number
    refine decide_eq_decide.mpr ?_
    simp only [PhysFrame.ofNumber, minUsablePa]
    omega
  rw [frames, List.filter_map, hFilter, filter_le_range']
  congr 2
  omega

theorem MemoryRegion.mem_frames {r : MemoryRegion} (hStart : r.start % 4096 = 0)
    (hEnd : r.end_ % 4096 = 0) {f : PhysFrame} :
    f ∈ r.frames ↔ f.Inside r ∧ minUsablePa ≤ f.startAddress := by
  have hf := f.aligned
  simp only [frames, List.mem_filter, List.mem_map, List.mem_range'_1, decide_eq_true_eq,
    PhysFrame.Inside, and_congr_left_iff]
  intro hMin
  constructor
  · rintro ⟨number, hNumber, rfl⟩
    simp only [PhysFrame.ofNumber] at *
    omega
  · intro hInside
    exact ⟨f.startAddress / 4096, by omega, f.ofNumber_div⟩

theorem MemoryRegion.frames_ascending (r : MemoryRegion) :
    r.frames.Pairwise fun f g => f.startAddress < g.startAddress := by
  refine .filter _ (List.pairwise_map.mpr ?_)
  refine (List.pairwise_lt_range' ..).imp fun hLt => ?_
  simp only [PhysFrame.ofNumber]
  omega

section PageAligned

variable {memoryMap : List MemoryRegion} (hAligned : PageAligned memoryMap)
include hAligned

theorem mem_usableFrames {f : PhysFrame} :
    f ∈ usableFrames memoryMap ↔
      (∃ r ∈ memoryMap, r.kind = .usable ∧ f.Inside r) ∧ minUsablePa ≤ f.startAddress := by
  simp only [usableFrames, List.mem_flatMap, List.mem_filter, decide_eq_true_eq]
  constructor
  · rintro ⟨r, ⟨hr, hUsable⟩, hf⟩
    obtain ⟨hStart, hEnd⟩ := hAligned.aligned r hr hUsable
    obtain ⟨hInside, hMin⟩ := (MemoryRegion.mem_frames hStart hEnd).mp hf
    exact ⟨⟨r, hr, hUsable, hInside⟩, hMin⟩
  · rintro ⟨⟨r, hr, hUsable, hInside⟩, hMin⟩
    obtain ⟨hStart, hEnd⟩ := hAligned.aligned r hr hUsable
    exact ⟨r, ⟨hr, hUsable⟩, (MemoryRegion.mem_frames hStart hEnd).mpr ⟨hInside, hMin⟩⟩

theorem nodup_usableFrames : (usableFrames memoryMap).Nodup := by
  refine List.nodup_flatMap.mpr ⟨fun r _ => ?_, ?_⟩
  · exact r.frames_ascending.imp fun hLt hEq => by rw [hEq] at hLt; omega
  · refine hAligned.disjoint.imp_of_mem fun {r q} hr hq hApart f hfr hfq => ?_
    simp only [List.mem_filter, decide_eq_true_eq] at hr hq
    obtain ⟨hrStart, hrEnd⟩ := hAligned.aligned r hr.1 hr.2
    obtain ⟨hqStart, hqEnd⟩ := hAligned.aligned q hq.1 hq.2
    obtain ⟨⟨hrLow, hrHigh⟩, -⟩ := (MemoryRegion.mem_frames hrStart hrEnd).mp hfr
    obtain ⟨⟨hqLow, hqHigh⟩, -⟩ := (MemoryRegion.mem_frames hqStart hqEnd).mp hfq
    exact hApart f.startAddress ⟨hrLow, by omega⟩ ⟨hqLow, by omega⟩

end PageAligned

/-- An aligned region is stepped through frame by frame. -/
theorem stepBy_eq {start end_ : Nat} (hStart : start % 4096 = 0) (hEnd : end_ % 4096 = 0) :
    stepBy start end_ 4096 =
      (List.range' (start / 4096) (end_ / 4096 - start / 4096)).map (4096 * ·) := by
  have hCount : (end_ - start + (4096 - 1)) / 4096 = end_ / 4096 - start / 4096 := by omega
  rw [stepBy, hCount, List.range'_eq_map_range, List.map_map]
  refine List.map_congr_left fun i _ => ?_
  simp only [Function.comp_apply]
  omega

theorem containingAddress_mul (number : Nat) :
    PhysFrame.containingAddress (4096 * number) = .ofNumber number := by
  simp [PhysFrame.containingAddress, PhysFrame.ofNumber]

/-- The addresses that the allocator computes are those of the usable frames. -/
theorem map_frameAddresses {memoryMap : List MemoryRegion} (hAligned : PageAligned memoryMap) :
    (AbyssFrameAllocator.frameAddresses memoryMap).map PhysFrame.containingAddress =
      usableFrames memoryMap := by
  rw [AbyssFrameAllocator.frameAddresses, List.filter_flatMap, List.map_flatMap, usableFrames]
  refine List.flatMap_congr fun r hr => ?_
  simp only [List.mem_filter, decide_eq_true_eq] at hr
  obtain ⟨hStart, hEnd⟩ := hAligned.aligned r hr.1 hr.2
  rw [stepBy_eq hStart hEnd, List.filter_map, List.map_map, MemoryRegion.frames, List.filter_map]
  exact List.map_congr_left fun number _ => containingAddress_mul number

namespace FramePass

variable {number last : Nat} {r : MemoryRegion} {regions : List MemoryRegion}

theorem remaining_of_lt (h : number < last) : remaining ⟨number, last, regions⟩ =
    .ofNumber number :: remaining ⟨number + 1, last, regions⟩ := by
  obtain ⟨left, rfl⟩ := Nat.exists_eq_add_of_lt h
  have hLeft : number + left + 1 - number = left + 1 := by omega
  have hRest : number + left + 1 - (number + 1) = left := by omega
  simp only [remaining, hLeft, hRest, List.range'_succ, List.map_cons, List.cons_append]

theorem remaining_of_le (h : last ≤ number) :
    remaining ⟨number, last, regions⟩ = usableFrames regions := by
  simp only [remaining, Nat.sub_eq_zero_of_le h]
  rfl

theorem usableFrames_cons_usable (hUsable : r.kind = .usable) : usableFrames (r :: regions) =
    remaining ⟨max (r.start / 4096) (minUsablePa / 4096), r.end_ / 4096, regions⟩ := by
  simp only [usableFrames, List.filter_cons, hUsable, decide_true, if_true, List.flatMap_cons,
    r.frames_eq, remaining]

theorem usableFrames_cons_other (hOther : r.kind ≠ .usable) :
    usableFrames (r :: regions) = usableFrames regions := by
  simp only [usableFrames, List.filter_cons, hOther, decide_false, Bool.false_eq_true, if_false]

theorem enter_remaining (regions : List MemoryRegion) :
    (enter regions).1 = (usableFrames regions).head? ∧
      (enter regions).2.remaining = (usableFrames regions).tail := by
  induction regions with
  | nil => exact ⟨rfl, rfl⟩
  | cons r regions ih =>
    rw [enter]
    split
    · rename_i hEnter
      rw [usableFrames_cons_usable hEnter.1, remaining_of_lt hEnter.2]
      exact ⟨rfl, rfl⟩
    · rename_i hSkip
      by_cases hUsable : r.kind = .usable
      · rw [usableFrames_cons_usable hUsable,
          remaining_of_le (Nat.le_of_not_lt fun hLt => hSkip ⟨hUsable, hLt⟩)]
        exact ih
      · rw [usableFrames_cons_other hUsable]
        exact ih

theorem next_remaining (pass : FramePass) :
    pass.next.1 = pass.remaining.head? ∧ pass.next.2.remaining = pass.remaining.tail := by
  rw [next]
  split
  · rename_i hMore
    rw [remaining_of_lt hMore]
    exact ⟨rfl, rfl⟩
  · rename_i hDone
    rw [remaining_of_le (Nat.le_of_not_lt hDone)]
    exact enter_remaining pass.regions

/-- The pass hands out what remains, then nothing more. -/
theorem take_eq (pass : FramePass) (n : Nat) :
    pass.take n = (List.range n).map fun k => pass.remaining[k]? := by
  induction n generalizing pass with
  | zero => rfl
  | succ n ih =>
    obtain ⟨hHead, hTail⟩ := pass.next_remaining
    rw [take, ih, hHead, hTail, List.range_succ_eq_map, List.map_cons, List.map_map,
      List.head?_eq_getElem?]
    refine congrArg _ (List.map_congr_left fun k _ => ?_)
    exact List.getElem?_tail

end FramePass

namespace AbyssFrameAllocator

variable {memoryMap : List MemoryRegion}

theorem allocateFrames_usable (hAligned : PageAligned memoryMap) {n : Nat}
    {results : List (Option PhysFrame)} (h : (init memoryMap).allocateFrames n = .ok results) :
    results = (List.range n).map fun k => (usableFrames memoryMap)[k]? := by
  rw [allocateFrames_ok h, List.range_eq_range', ← map_frameAddresses hAligned]
  simp only [List.getElem?_map]

theorem frameAddresses_lt (hBound : ∀ r ∈ memoryMap, r.kind = .usable → r.end_ ≤ 2 ^ 52)
    {addr : Nat} (hMem : addr ∈ frameAddresses memoryMap) : addr < 2 ^ 52 := by
  obtain ⟨⟨r, hr, hUsable, hStep⟩, -⟩ := mem_frameAddresses.mp hMem
  exact Nat.lt_of_lt_of_le (mem_stepBy.mp hStep).2.1 (hBound r hr hUsable)

/-- Calls return until the counter overflows.  The results are those of one pass over the map: all
usable frames above 1 MiB, each once, region by region and ascending in each, then nothing. -/
theorem allocateFrames_complete (hAligned : PageAligned memoryMap)
    (hBound : ∀ r ∈ memoryMap, r.kind = .usable → r.end_ ≤ 2 ^ 52) :
    (∀ n, (∃ results, (init memoryMap).allocateFrames n = .ok results) ↔ n < 2 ^ 64) ∧
      (∀ n results, (init memoryMap).allocateFrames n = .ok results →
        results = ((List.range n).map fun k => (usableFrames memoryMap)[k]?) ∧
          results = FramePass.take ⟨0, 0, memoryMap⟩ n) ∧
      (usableFrames memoryMap).Nodup ∧
      (∀ f, f ∈ usableFrames memoryMap ↔
        (∃ r ∈ memoryMap, r.kind = .usable ∧ f.Inside r) ∧ minUsablePa ≤ f.startAddress) ∧
      ∀ r ∈ memoryMap, r.frames.Pairwise fun f g => f.startAddress < g.startAddress := by
  refine ⟨fun n => ⟨?_, fun hn => ?_⟩, fun n results h => ⟨?_, ?_⟩, nodup_usableFrames hAligned,
    fun f => mem_usableFrames hAligned, fun r _ => r.frames_ascending⟩
  · rintro ⟨results, h⟩
    have hCount := lt_of_allocateFrames_ok (by decide) h
    omega
  · exact ⟨_, allocateFrames_eq (fun _ => frameAddresses_lt hBound) (by omega : 0 + n < 2 ^ 64)⟩
  · exact allocateFrames_usable hAligned h
  · rw [allocateFrames_usable hAligned h, FramePass.take_eq]
    rfl

theorem allocateFrames_complete_sample :
    (init sampleMap).allocateFrames 13 = .ok (FramePass.take ⟨0, 0, sampleMap⟩ 13) := by
  have hAligned : PageAligned sampleMap := by
    refine ⟨by decide, ?_⟩
    simp only [sampleMap, List.filter, List.pairwise_cons, List.forall_mem_cons,
      MemoryRegion.Apart, decide_true, reduceCtorEq, decide_false]
    refine ⟨⟨?_, by simp⟩, by simp⟩
    omega
  obtain ⟨hReturns, hResults, -⟩ := allocateFrames_complete hAligned (by decide)
  obtain ⟨results, h⟩ := (hReturns 13).mpr (by decide)
  rw [h, (hResults 13 results h).2]

end AbyssFrameAllocator

end RixOs

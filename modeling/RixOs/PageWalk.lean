import RixOs.Heap

/-! The software page walk of `memory/mod.rs`.  `virtual_to_physical` reads the tables through the
mapping of physical memory at `physical_memory_offset`, one for each level, and follows their
entries from the table in CR3 to the frame of the page.  The processor does the same with the
address bits 12 to 47; the main theorem compares the two for every content of the tables.

A `VirtAddr` is canonical by construction: the sum of the offset and the address of a table panics
where it would not be. -/

namespace RixOs

/-- A virtual address whose bits 47 to 63 are equal. -/
def Canonical (addr : Nat) : Prop :=
  addr < 2 ^ 47 ∨ 2 ^ 64 - 2 ^ 47 ≤ addr ∧ addr < 2 ^ 64

instance (addr : Nat) : Decidable (Canonical addr) :=
  inferInstanceAs (Decidable (addr < 2 ^ 47 ∨ 2 ^ 64 - 2 ^ 47 ≤ addr ∧ addr < 2 ^ 64))

structure VirtAddr where
  toNat : Nat
  canonical : Canonical toNat

inductive TranslationPanic
  | offsetNotInitialized
  | invalidVirtAddr
  | invalidPhysAddr
  | hugePages
  deriving DecidableEq, Repr

namespace VirtAddr

/-- `VirtAddr + u64` -/
def add (self : VirtAddr) (n : Nat) : Except TranslationPanic VirtAddr :=
  if h : Canonical (self.toNat + n) then .ok ⟨self.toNat + n, h⟩ else .error .invalidVirtAddr

def p4Index (self : VirtAddr) : Fin 512 := .ofNat 512 (self.toNat >>> 12 >>> 9 >>> 9 >>> 9)

def p3Index (self : VirtAddr) : Fin 512 := .ofNat 512 (self.toNat >>> 12 >>> 9 >>> 9)

def p2Index (self : VirtAddr) : Fin 512 := .ofNat 512 (self.toNat >>> 12 >>> 9)

def p1Index (self : VirtAddr) : Fin 512 := .ofNat 512 (self.toNat >>> 12)

def pageOffset (self : VirtAddr) : Nat := self.toNat % 2 ^ 12

/-- The `table_indexes` of `virtual_to_physical`. -/
def tableIndexes (self : VirtAddr) : List (Fin 512) :=
  [self.p4Index, self.p3Index, self.p2Index, self.p1Index]

end VirtAddr

def PageTableFlags.hugePage : UInt64 := 0x80

inductive FrameError
  | frameNotPresent
  | hugeFrame
  deriving DecidableEq, Repr

namespace PageTableEntry

def present (entry : UInt64) : Bool := entry &&& PageTableFlags.present ≠ 0

def huge (entry : UInt64) : Bool := entry &&& PageTableFlags.hugePage ≠ 0

def addr (entry : UInt64) : Nat := (entry &&& 0x000ffffffffff000).toNat

def frame (entry : UInt64) : Except FrameError PhysFrame :=
  if !present entry then .error .frameNotPresent
  else if huge entry then .error .hugeFrame
  else .ok (.containingAddress (addr entry))

end PageTableEntry

/-- The tables in physical memory: 512 entries for each frame. -/
abbrev PageTableMemory := PhysFrame → Fin 512 → UInt64

variable (memory : PageTableMemory)

/-- The loop of `virtual_to_physical`, over the indexes that remain. -/
def walkTables (physicalMemoryOffset : VirtAddr) :
    List (Fin 512) → PhysFrame → Except TranslationPanic (Option PhysFrame)
  | [], frame => .ok (some frame)
  | index :: tableIndexes, frame => do
    let _virt ← physicalMemoryOffset.add frame.startAddress
    match PageTableEntry.frame (memory frame index) with
    | .ok frame => walkTables physicalMemoryOffset tableIndexes frame
    | .error .frameNotPresent => return none
    | .error .hugeFrame => throw .hugePages

/-- `PhysAddr + u64` -/
def addPhys (addr n : Nat) : Except TranslationPanic Nat :=
  if addr + n < 2 ^ 52 then .ok (addr + n) else .error .invalidPhysAddr

/-- `cr3` is the frame of the level 4 table. -/
def virtualToPhysical (cr3 : PhysFrame) (addr physicalMemoryOffset : VirtAddr) :
    Except TranslationPanic (Option Nat) := do
  match ← walkTables memory physicalMemoryOffset addr.tableIndexes cr3 with
  | none => return none
  | some frame => return some (← addPhys frame.startAddress addr.pageOffset)

/-- `once` is `PHYSICAL_MEMORY_OFFSET`. -/
def physicalMemoryOffset (once : Option VirtAddr) : Except TranslationPanic VirtAddr :=
  match once with
  | some offset => .ok offset
  | none => .error .offsetNotInitialized

def virtualToPhysicalCurrent (cr3 : PhysFrame) (once : Option VirtAddr) (addr : VirtAddr) :
    Except TranslationPanic (Option Nat) := do
  virtualToPhysical memory cr3 addr (← physicalMemoryOffset once)

/-! ### The walk of the processor -/

namespace Hardware

/-- The entry of a table that the address selects after `n` levels: nine bits from bit 39 down. -/
def index (addr n : Nat) : Fin 512 := .ofNat 512 (addr / 2 ^ (39 - 9 * n))

/-- The table that the walk reads after `n` levels, where it has met `n` present entries that are
not huge. -/
def table (cr3 : PhysFrame) (addr : Nat) : Nat → Option PhysFrame
  | 0 => some cr3
  | n + 1 => do
    let frame ← table cr3 addr n
    let entry := memory frame (index addr n)
    if PageTableEntry.present entry ∧ ¬PageTableEntry.huge entry then
      some (.containingAddress (PageTableEntry.addr entry))
    else none

/-- The entry that the walk meets after `n` levels. -/
def entry (cr3 : PhysFrame) (addr n : Nat) : Option UInt64 :=
  (table memory cr3 addr n).map fun frame => memory frame (index addr n)

/-- The tables that the walk reads in its first `n` levels have addresses in the mapping of
physical memory at `offset`. -/
def TablesMapped (cr3 : PhysFrame) (addr : Nat) (offset : VirtAddr) (n : Nat) : Prop :=
  ∀ m < n, ∀ frame, table memory cr3 addr m = some frame →
    Canonical (offset.toNat + frame.startAddress)

/-- The walk ends after `n` levels, at an entry that gives an error. -/
def Stops (cr3 : PhysFrame) (addr n : Nat) (error : FrameError) : Prop :=
  ∃ e, entry memory cr3 addr n = some e ∧ PageTableEntry.frame e = .error error

end Hardware

namespace PageTableEntry

variable {e : UInt64}

theorem frame_eq_notPresent : frame e = .error .frameNotPresent ↔ present e = false := by
  rw [frame]
  cases present e <;> cases huge e <;> simp

theorem frame_eq_huge : frame e = .error .hugeFrame ↔ present e = true ∧ huge e = true := by
  rw [frame]
  cases present e <;> cases huge e <;> simp

theorem frame_toOption : (frame e).toOption =
    if present e ∧ ¬huge e then some (.containingAddress (addr e)) else none := by
  rw [frame]
  cases present e <;> cases huge e <;> rfl

theorem frame_ok {frame : PhysFrame} (h : PageTableEntry.frame e = .ok frame) :
    frame.startAddress + 2 ^ 12 ≤ 2 ^ 52 := by
  have hAddr : addr e ≤ 0x000ffffffffff000 := Nat.and_le_right
  have hFrame := frame_toOption (e := e)
  rw [h] at hFrame
  split at hFrame
  · rw [Option.some.inj hFrame]
    change addr e - addr e % 4096 + 2 ^ 12 ≤ 2 ^ 52
    omega
  · cases hFrame

end PageTableEntry

namespace Hardware

variable {memory} {cr3 : PhysFrame} {addr n m : Nat} {error error' : FrameError}

theorem table_succ : table memory cr3 addr (n + 1) = (table memory cr3 addr n).bind fun frame =>
    (PageTableEntry.frame (memory frame (index addr n))).toOption := by
  simp only [PageTableEntry.frame_toOption]
  rfl

theorem table_succ_lt {last : PhysFrame} (h : table memory cr3 addr (n + 1) = some last) :
    last.startAddress + 2 ^ 12 ≤ 2 ^ 52 := by
  rw [table_succ] at h
  obtain ⟨frame, -, h⟩ := Option.bind_eq_some_iff.mp h
  match hEntry : PageTableEntry.frame (memory frame (index addr n)) with
  | .ok _ =>
    rw [hEntry] at h
    rw [← Option.some.inj h]
    exact PageTableEntry.frame_ok hEntry
  | .error _ =>
    rw [hEntry] at h
    cases h

/-- After the walk has stopped it reads no table. -/
theorem Stops.table_none (h : Stops memory cr3 addr n error) (hm : n < m) :
    table memory cr3 addr m = none := by
  obtain ⟨e, hEntry, hError⟩ := h
  obtain ⟨frame, hFrame, rfl⟩ := Option.map_eq_some_iff.mp hEntry
  induction m, hm using Nat.le_induction with
  | base =>
    rw [table_succ, hFrame, Option.bind_some, hError]
    rfl
  | succ m _ ih =>
    rw [table_succ, ih]
    rfl

/-- The walk stops once. -/
theorem Stops.unique (h : Stops memory cr3 addr n error) (h' : Stops memory cr3 addr m error') :
    error = error' := by
  have hTable : ∀ {n error}, Stops memory cr3 addr n error → table memory cr3 addr n ≠ none := by
    rintro n error ⟨e, hEntry, -⟩ hNone
    rw [entry, hNone] at hEntry
    cases hEntry
  rcases Nat.lt_trichotomy n m with hLt | rfl | hGt
  · exact absurd (h.table_none hLt) (hTable h')
  · obtain ⟨e, hEntry, hError⟩ := h
    obtain ⟨e', hEntry', hError'⟩ := h'
    obtain rfl := Option.some.inj (hEntry.symm.trans hEntry')
    exact Except.error.inj (hError.symm.trans hError')
  · exact absurd (h'.table_none hGt) (hTable h)

end Hardware

/-! ### The two walks -/

open Hardware

variable {memory} {cr3 : PhysFrame} {addr : Nat} {offset : VirtAddr}

theorem VirtAddr.add_ok {n : Nat} (h : Canonical (offset.toNat + n)) :
    offset.add n = .ok ⟨offset.toNat + n, h⟩ := dif_pos h

theorem VirtAddr.add_error {n : Nat} (h : ¬Canonical (offset.toNat + n)) :
    offset.add n = .error .invalidVirtAddr := dif_neg h

theorem Hardware.TablesMapped.succ {n : Nat} {frame : PhysFrame}
    (h : TablesMapped memory cr3 addr offset n) (hFrame : table memory cr3 addr n = some frame)
    (hMapped : Canonical (offset.toNat + frame.startAddress)) :
    TablesMapped memory cr3 addr offset (n + 1) := by
  intro m hm f hf
  rcases Nat.lt_succ_iff_lt_or_eq.mp hm with hLt | rfl
  · exact h m hLt f hf
  · rwa [← Option.some.inj (hFrame.symm.trans hf)]

/-- Where the walk has stopped, there are no further tables to map. -/
theorem Hardware.TablesMapped.of_stops {n k : Nat} {error : FrameError}
    (h : TablesMapped memory cr3 addr offset (n + 1)) (hStops : Stops memory cr3 addr n error) :
    TablesMapped memory cr3 addr offset k := by
  intro m _ f hf
  rcases Nat.lt_or_ge n m with hAfter | hBefore
  · rw [hStops.table_none hAfter] at hf
    cases hf
  · exact h m (by omega) f hf

/-- A result is a value in `P`, or it is `None` and `Q` holds, or it is a panic and `R` holds. -/
def Outcome {α ε : Type} (P : α → Prop) (Q R : Prop) : Except ε (Option α) → Prop
  | .ok (some a) => P a
  | .ok none => Q
  | .error _ => R

theorem Outcome.map {α β ε : Type} {r : Except ε (Option α)} {P : α → Prop} {P' : β → Prop}
    {Q R : Prop} {f : α → β} (h : Outcome P Q R r) (hP : ∀ a, P a → P' (f a)) :
    Outcome P' Q R (r.map (Option.map f)) := by
  match r, h with
  | .ok (some a), h => exact hP a h
  | .ok none, h => exact h
  | .error _, h => exact h

/-- Where the three conditions exclude each other, the one that holds says what the result is. -/
theorem Outcome.iff {α ε : Type} {r : Except ε (Option α)} {P : α → Prop} {Q R : Prop}
    (h : Outcome P Q R r) (hP : ∀ a b, P a → P b → a = b) (hPQ : ∀ a, P a → ¬Q)
    (hPR : ∀ a, P a → ¬R) (hQR : Q → ¬R) :
    (∀ a, r = .ok (some a) ↔ P a) ∧ (r = .ok none ↔ Q) ∧ ((∃ e, r = .error e) ↔ R) := by
  match r, h with
  | .ok (some a), h =>
    refine ⟨fun b => ⟨fun hEq => ?_, fun hb => ?_⟩, iff_of_false nofun (hPQ a h),
      iff_of_false nofun (hPR a h)⟩
    · rwa [← Option.some.inj (Except.ok.inj hEq)]
    · rw [hP a b h hb]
  | .ok none, h =>
    exact ⟨fun b => iff_of_false nofun fun hb => hPQ b hb h, iff_of_true rfl h,
      iff_of_false nofun (hQR h)⟩
  | .error e, h =>
    exact ⟨fun b => iff_of_false nofun fun hb => hPR b hb h,
      iff_of_false nofun fun hQ => hQR hQ h, iff_of_true ⟨e, rfl⟩ h⟩

/-- What `k` more rounds of the loop come to, from the table that the processor reads after `n`
levels. -/
theorem walkTables_spec (k : Nat) {n : Nat} {frame : PhysFrame}
    (hFrame : table memory cr3 addr n = some frame)
    (hMapped : TablesMapped memory cr3 addr offset n) :
    Outcome
      (fun last => TablesMapped memory cr3 addr offset (n + k) ∧
        table memory cr3 addr (n + k) = some last)
      (TablesMapped memory cr3 addr offset (n + k) ∧
        ∃ m < n + k, Stops memory cr3 addr m .frameNotPresent)
      (¬TablesMapped memory cr3 addr offset (n + k) ∨
        ∃ m < n + k, Stops memory cr3 addr m .hugeFrame)
      (walkTables memory offset ((List.range' n k).map (index addr)) frame) := by
  induction k generalizing n frame with
  | zero => exact ⟨hMapped, hFrame⟩
  | succ k ih =>
    rw [List.range'_succ, List.map_cons, walkTables]
    by_cases hCanonical : Canonical (offset.toNat + frame.startAddress)
    · have hMapped' := hMapped.succ hFrame hCanonical
      have hEntry : entry memory cr3 addr n = some (memory frame (index addr n)) := by
        rw [entry, hFrame]
        rfl
      rw [VirtAddr.add_ok hCanonical]
      match hNext : PageTableEntry.frame (memory frame (index addr n)) with
      | .ok next =>
        have hTable : table memory cr3 addr (n + 1) = some next := by
          rw [table_succ, hFrame, Option.bind_some, hNext]
          rfl
        have hRest := ih hTable hMapped'
        rwa [Nat.add_right_comm] at hRest
      | .error .frameNotPresent =>
        have hStops : Stops memory cr3 addr n .frameNotPresent := ⟨_, hEntry, hNext⟩
        exact ⟨hMapped'.of_stops hStops, n, by omega, hStops⟩
      | .error .hugeFrame =>
        exact .inr ⟨n, by omega, _, hEntry, hNext⟩
    · rw [VirtAddr.add_error hCanonical]
      exact .inl fun h => hCanonical (h n (by omega) frame hFrame)

variable {addr addr' : VirtAddr}

/-- Nine bits at a time, the four indexes are those of the processor. -/
theorem tableIndexes_eq : addr.tableIndexes = (List.range' 0 4).map (index addr.toNat) := by
  simp only [VirtAddr.tableIndexes, VirtAddr.p4Index, VirtAddr.p3Index, VirtAddr.p2Index,
    VirtAddr.p1Index, Nat.shiftRight_eq_div_pow, Nat.div_div_eq_div_mul]
  rfl

/-- Bits 12 to 47 decide which entries are read. -/
theorem tableIndexes_congr (h : addr.toNat / 2 ^ 12 % 2 ^ 36 = addr'.toNat / 2 ^ 12 % 2 ^ 36) :
    addr.tableIndexes = addr'.tableIndexes := by
  rw [tableIndexes_eq, tableIndexes_eq]
  apply List.map_congr_left
  intro n hn
  apply Fin.ext
  change addr.toNat / 2 ^ (39 - 9 * n) % 512 = addr'.toNat / 2 ^ (39 - 9 * n) % 512
  obtain ⟨-, hLt⟩ := List.mem_range'_1.mp hn
  match n, hLt with
  | 0, _ | 1, _ | 2, _ | 3, _ => omega

/-- The loop of `virtual_to_physical` against the processor. -/
theorem walk_spec (memory : PageTableMemory) (cr3 : PhysFrame)
    (addr offset : VirtAddr) :
    Outcome
      (fun last => TablesMapped memory cr3 addr.toNat offset 4 ∧
        table memory cr3 addr.toNat 4 = some last)
      (TablesMapped memory cr3 addr.toNat offset 4 ∧
        ∃ n < 4, Stops memory cr3 addr.toNat n .frameNotPresent)
      (¬TablesMapped memory cr3 addr.toNat offset 4 ∨
        ∃ n < 4, Stops memory cr3 addr.toNat n .hugeFrame)
      (walkTables memory offset addr.tableIndexes cr3) := by
  rw [tableIndexes_eq]
  exact walkTables_spec 4 rfl fun m hm => absurd hm (Nat.not_lt_zero m)

/-- The last sum does not overflow: every frame in an entry lies below 2^52. -/
theorem virtualToPhysical_eq (memory : PageTableMemory) (cr3 : PhysFrame)
    (addr offset : VirtAddr) :
    virtualToPhysical memory cr3 addr offset =
      (walkTables memory offset addr.tableIndexes cr3).map
        (Option.map fun frame => frame.startAddress + addr.pageOffset) := by
  have hSpec := walk_spec memory cr3 addr offset
  rw [virtualToPhysical]
  match hWalk : walkTables memory offset addr.tableIndexes cr3 with
  | .error _ => rfl
  | .ok none => rfl
  | .ok (some last) =>
    rw [hWalk] at hSpec
    have hLast := table_succ_lt hSpec.2
    have hOffset : addr.pageOffset < 2 ^ 12 := Nat.mod_lt _ (by decide)
    have hAdd : addPhys last.startAddress addr.pageOffset =
        .ok (last.startAddress + addr.pageOffset) := if_pos (by omega)
    change (do return some (← addPhys last.startAddress addr.pageOffset)) = _
    rw [hAdd]
    rfl

theorem virtualToPhysical_spec (memory : PageTableMemory) (cr3 : PhysFrame)
    (addr offset : VirtAddr) :
    Outcome
      (fun pa => TablesMapped memory cr3 addr.toNat offset 4 ∧ ∃ last,
        table memory cr3 addr.toNat 4 = some last ∧ pa = last.startAddress + addr.toNat % 2 ^ 12)
      (TablesMapped memory cr3 addr.toNat offset 4 ∧
        ∃ n < 4, Stops memory cr3 addr.toNat n .frameNotPresent)
      (¬TablesMapped memory cr3 addr.toNat offset 4 ∨
        ∃ n < 4, Stops memory cr3 addr.toNat n .hugeFrame)
      (virtualToPhysical memory cr3 addr offset) := by
  rw [virtualToPhysical_eq]
  exact (walk_spec memory cr3 addr offset).map fun last h => ⟨h.1, last, h.2, rfl⟩

/-- `virtual_to_physical` translates, returns `None` and panics as the walk of the processor says,
for every content of the tables; it also panics where a table lies outside the mapping of physical
memory.  Bits 12 to 47 of the address decide everything but the offset in the page. -/
theorem virtualToPhysical_iff (memory : PageTableMemory) (cr3 : PhysFrame)
    (addr offset : VirtAddr) :
    (∀ pa, virtualToPhysical memory cr3 addr offset = .ok (some pa) ↔
      TablesMapped memory cr3 addr.toNat offset 4 ∧ ∃ last,
        table memory cr3 addr.toNat 4 = some last ∧
          pa = last.startAddress + addr.toNat % 2 ^ 12) ∧
    (virtualToPhysical memory cr3 addr offset = .ok none ↔
      TablesMapped memory cr3 addr.toNat offset 4 ∧ ∃ n < 4, ∃ e,
        entry memory cr3 addr.toNat n = some e ∧ PageTableEntry.present e = false) ∧
    ((∃ panic, virtualToPhysical memory cr3 addr offset = .error panic) ↔
      ¬TablesMapped memory cr3 addr.toNat offset 4 ∨ ∃ n < 4, ∃ e,
        entry memory cr3 addr.toNat n = some e ∧
          PageTableEntry.present e = true ∧ PageTableEntry.huge e = true) ∧
    ∀ addr' : VirtAddr, addr.toNat / 2 ^ 12 % 2 ^ 36 = addr'.toNat / 2 ^ 12 % 2 ^ 36 →
      ∃ r : Except TranslationPanic (Option PhysFrame),
        virtualToPhysical memory cr3 addr offset =
          r.map (Option.map fun frame => frame.startAddress + addr.toNat % 2 ^ 12) ∧
        virtualToPhysical memory cr3 addr' offset =
          r.map (Option.map fun frame => frame.startAddress + addr'.toNat % 2 ^ 12) := by
  have hEnd : ∀ {last n error}, table memory cr3 addr.toNat 4 = some last → n < 4 →
      ¬Stops memory cr3 addr.toNat n error := by
    intro last n error hLast hn hStops
    rw [hStops.table_none hn] at hLast
    cases hLast
  have hOutcome := (virtualToPhysical_spec memory cr3 addr offset).iff ?_ ?_ ?_ ?_
  · simp only [Stops, PageTableEntry.frame_eq_notPresent, PageTableEntry.frame_eq_huge] at hOutcome
    refine ⟨hOutcome.1, hOutcome.2.1, hOutcome.2.2, fun addr' hBits => ?_⟩
    refine ⟨_, virtualToPhysical_eq memory cr3 addr offset, ?_⟩
    rw [tableIndexes_congr hBits]
    exact virtualToPhysical_eq memory cr3 addr' offset
  · rintro pa pa' ⟨-, last, hLast, rfl⟩ ⟨-, last', hLast', rfl⟩
    rw [Option.some.inj (hLast.symm.trans hLast')]
  · rintro pa ⟨-, last, hLast, -⟩ ⟨-, n, hn, hStops⟩
    exact hEnd hLast hn hStops
  · rintro pa ⟨hMapped, last, hLast, -⟩ (hNot | ⟨n, hn, hStops⟩)
    · exact hNot hMapped
    · exact hEnd hLast hn hStops
  · rintro ⟨hMapped, n, -, hStops⟩ (hNot | ⟨m, -, hStops'⟩)
    · exact hNot hMapped
    · cases hStops.unique hStops'

/-- Every entry of every table is present and leads to the frame at 2^51. -/
def farTables : PageTableMemory := fun _ _ => 0x8000000000001

/-- The processor meets four present entries that are not huge; the code panics at the second
table, which is not mapped. -/
theorem far_table_panics :
    (table farTables ⟨0x1000, rfl⟩ 0 4).map PhysFrame.startAddress = some 0x8000000000000 ∧
      virtualToPhysical farTables ⟨0x1000, rfl⟩ ⟨0, by decide⟩ ⟨0x18000000000, by decide⟩ =
        .error .invalidVirtAddr := by
  decide

end RixOs

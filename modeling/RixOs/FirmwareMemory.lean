import RixOs.PageWalk
import RixOs.Pci
import RixOs.ProofKit.Overlay

/-! The memory operations of `acpi/handler.rs`.  The tables and the AML code name bytes of physical
memory.  The handlers add `physical_memory_offset` and dereference, and the processor finds the
bytes through the page tables, which are themselves bytes of physical memory.  The main theorem
says when all this amounts to a flat memory.

A pointer that is not a multiple of its size is stopped before the access, as with debug assertions;
without them such an access is undefined. -/

namespace RixOs

open ProofKit

/-! ### The processor -/

/-- Bytes by their physical address. -/
abbrev PhysicalMemory := Nat → UInt8

/-- An entry has eight bytes. -/
def PhysicalMemory.tables (mem : PhysicalMemory) : PageTableMemory := fun frame index =>
  .ofNat (leValue (itemsFrom mem (frame.startAddress + 8 * index) 8))

inductive AccessKind
  | read
  | write
  deriving DecidableEq, Repr

/-- The flags that an access needs in every entry on its way. -/
def AccessKind.needs : AccessKind → UInt64
  | read => PageTableFlags.present
  | write => PageTableFlags.present ||| PageTableFlags.writable

namespace Hardware

inductive Lookup
  | fault
  | page (base : Nat)
  | table (frame : PhysFrame)

/-- Where an entry leads that stands `n` levels above those of 4 KiB pages.  One or two levels above
them bit 7 stands for a large page, at the top it is reserved. -/
def lookup (needs : UInt64) (n : Nat) (entry : UInt64) : Lookup :=
  if entry &&& needs ≠ needs then .fault
  else if n = 0 ∨ n < 3 ∧ PageTableEntry.huge entry then
    .page (PageTableEntry.addr entry / 2 ^ (12 + 9 * n) * 2 ^ (12 + 9 * n))
  else if PageTableEntry.huge entry then .fault
  else .table (.containingAddress (PageTableEntry.addr entry))

variable (memory : PageTableMemory) (needs : UInt64) (addr : Nat)

/-- The entry that the address selects `n` levels above those of 4 KiB pages. -/
def entryAt (n : Nat) : Fin 512 := index addr (3 - n)

/-- The physical address that `n` levels of tables from `frame` down give. -/
def translate : Nat → PhysFrame → Option Nat
  | 0, _ => none
  | n + 1, frame =>
    match lookup needs n (memory frame (entryAt addr n)) with
    | .fault => none
    | .page base => some (base + addr % 2 ^ (12 + 9 * n))
    | .table next => translate n next

/-- The entries that the translation reads. -/
def entriesRead : Nat → PhysFrame → List (PhysFrame × Fin 512)
  | 0, _ => []
  | n + 1, frame => (frame, entryAt addr n) ::
    match lookup needs n (memory frame (entryAt addr n)) with
    | .table next => entriesRead n next
    | _ => []

variable {memory} {memory' : PageTableMemory}

/-- A translation depends on the entries that it reads. -/
theorem translate_congr {n : Nat} {frame : PhysFrame}
    (h : ∀ e ∈ entriesRead memory needs addr n frame, memory' e.1 e.2 = memory e.1 e.2) :
    translate memory' needs addr n frame = translate memory needs addr n frame ∧
      entriesRead memory' needs addr n frame = entriesRead memory needs addr n frame := by
  induction n generalizing frame with
  | zero => exact ⟨rfl, rfl⟩
  | succ n ih =>
    rw [entriesRead, List.forall_mem_cons] at h
    obtain ⟨hEntry, hRest⟩ := h
    simp only at hEntry
    simp only [translate, entriesRead, hEntry]
    cases hLookup : lookup needs n (memory frame (entryAt addr n)) with
    | fault => exact ⟨rfl, rfl⟩
    | page base => exact ⟨rfl, rfl⟩
    | table next =>
      rw [hLookup] at hRest
      obtain ⟨hPlace, hEntries⟩ := ih hRest
      exact ⟨hPlace, congrArg _ hEntries⟩

end Hardware

/-- The level 4 table in CR3, and `PHYSICAL_MEMORY_OFFSET`. -/
structure AddressSpace where
  cr3 : PhysFrame
  physicalMemoryOffset : Option VirtAddr

def AddressSpace.place (space : AddressSpace) (mem : PhysicalMemory) (kind : AccessKind)
    (addr : Nat) : Option Nat :=
  Hardware.translate mem.tables kind.needs addr 4 space.cr3

/-! ### The handlers -/

/-- Why an access does not return.  A page fault returns to the access that faults. -/
inductive AccessStop
  | panicked (panic : TranslationPanic)
  | misaligned
  | pageFault
  deriving DecidableEq, Repr

abbrev MemoryProgram := Program PhysicalMemory AccessStop

inductive MemoryWidth
  | u8
  | u16
  | u32
  | u64
  deriving DecidableEq, Repr

namespace MemoryWidth

def bytes : MemoryWidth → Nat
  | u8 => 1
  | u16 => 2
  | u32 => 4
  | u64 => 8

def Value : MemoryWidth → Type
  | u8 => UInt8
  | u16 => UInt16
  | u32 => UInt32
  | u64 => UInt64

def toNat : (w : MemoryWidth) → w.Value → Nat
  | u8, value => UInt8.toNat value
  | u16, value => UInt16.toNat value
  | u32, value => UInt32.toNat value
  | u64, value => UInt64.toNat value

def word : (w : MemoryWidth) → Nat → w.Value
  | u8, n => UInt8.ofNat n
  | u16, n => UInt16.ofNat n
  | u32, n => UInt32.ofNat n
  | u64, n => UInt64.ofNat n

end MemoryWidth

section Handlers

variable (space : AddressSpace)

def AddressSpace.physicalToVirtual (addr : Nat) : Except TranslationPanic VirtAddr := do
  (← RixOs.physicalMemoryOffset space.physicalMemoryOffset).add addr

/-- The physical address that an aligned access to a virtual address reaches.  It lies in one page
and is translated once. -/
def AddressSpace.access (w : MemoryWidth) (kind : AccessKind) (virt : VirtAddr) :
    MemoryProgram Nat := do
  if virt.toNat % w.bytes ≠ 0 then throw .misaligned
  match space.place (← get) kind virt.toNat with
  | none => throw .pageFault
  | some phys => return phys

/-- The physical address behind the pointer of `read_addr` and `write_addr`. -/
def AddressSpace.locate (w : MemoryWidth) (kind : AccessKind) (addr : UInt64) :
    MemoryProgram Nat := do
  if 2 ^ 52 ≤ addr.toNat then throw (.panicked .invalidPhysAddr)
  let virt ← liftExcept ((space.physicalToVirtual addr.toNat).mapError AccessStop.panicked)
  space.access w kind virt

def readAddr (w : MemoryWidth) (addr : UInt64) : MemoryProgram w.Value := do
  let phys ← space.locate w .read addr
  return w.word (leValue (itemsFrom (← get) phys w.bytes))

def writeAddr (w : MemoryWidth) (addr : UInt64) (value : w.Value) : MemoryProgram Unit := do
  let phys ← space.locate w .write addr
  modify fun mem => overlay mem (itemsAt phys (leBytes w.bytes (w.toNat value)))

namespace AcpiHandler

def readU8 (address : UInt64) : MemoryProgram UInt8 := readAddr space .u8 address

def readU16 (address : UInt64) : MemoryProgram UInt16 := readAddr space .u16 address

def readU32 (address : UInt64) : MemoryProgram UInt32 := readAddr space .u32 address

def readU64 (address : UInt64) : MemoryProgram UInt64 := readAddr space .u64 address

def writeU8 (address : UInt64) (value : UInt8) : MemoryProgram Unit :=
  writeAddr space .u8 address value

def writeU16 (address : UInt64) (value : UInt16) : MemoryProgram Unit :=
  writeAddr space .u16 address value

def writeU32 (address : UInt64) (value : UInt32) : MemoryProgram Unit :=
  writeAddr space .u32 address value

def writeU64 (address : UInt64) (value : UInt64) : MemoryProgram Unit :=
  writeAddr space .u64 address value

end AcpiHandler

namespace AmlHandler

def readU8 (address : UInt64) : MemoryProgram UInt8 := readAddr space .u8 address

def readU16 (address : UInt64) : MemoryProgram UInt16 := readAddr space .u16 address

def readU32 (address : UInt64) : MemoryProgram UInt32 := readAddr space .u32 address

def readU64 (address : UInt64) : MemoryProgram UInt64 := readAddr space .u64 address

def writeU8 (address : UInt64) (value : UInt8) : MemoryProgram Unit :=
  writeAddr space .u8 address value

def writeU16 (address : UInt64) (value : UInt16) : MemoryProgram Unit :=
  writeAddr space .u16 address value

def writeU32 (address : UInt64) (value : UInt32) : MemoryProgram Unit :=
  writeAddr space .u32 address value

def writeU64 (address : UInt64) (value : UInt64) : MemoryProgram Unit :=
  writeAddr space .u64 address value

end AmlHandler

/-- A call of one of the memory operations. -/
inductive MemoryCall
  | read (w : MemoryWidth) (address : UInt64)
  | write (w : MemoryWidth) (address : UInt64) (value : w.Value)

/-- A call on one of the two handlers, with the value that a read returns. -/
def PciHandler.perform : PciHandler → MemoryCall → MemoryProgram (Option Nat)
  | acpi, .read .u8 address => return some (← AcpiHandler.readU8 space address).toNat
  | acpi, .read .u16 address => return some (← AcpiHandler.readU16 space address).toNat
  | acpi, .read .u32 address => return some (← AcpiHandler.readU32 space address).toNat
  | acpi, .read .u64 address => return some (← AcpiHandler.readU64 space address).toNat
  | acpi, .write .u8 address v => do AcpiHandler.writeU8 space address v; return none
  | acpi, .write .u16 address v => do AcpiHandler.writeU16 space address v; return none
  | acpi, .write .u32 address v => do AcpiHandler.writeU32 space address v; return none
  | acpi, .write .u64 address v => do AcpiHandler.writeU64 space address v; return none
  | aml, .read .u8 address => return some (← AmlHandler.readU8 space address).toNat
  | aml, .read .u16 address => return some (← AmlHandler.readU16 space address).toNat
  | aml, .read .u32 address => return some (← AmlHandler.readU32 space address).toNat
  | aml, .read .u64 address => return some (← AmlHandler.readU64 space address).toNat
  | aml, .write .u8 address v => do AmlHandler.writeU8 space address v; return none
  | aml, .write .u16 address v => do AmlHandler.writeU16 space address v; return none
  | aml, .write .u32 address v => do AmlHandler.writeU32 space address v; return none
  | aml, .write .u64 address v => do AmlHandler.writeU64 space address v; return none

def performAll (calls : List (PciHandler × MemoryCall)) : MemoryProgram (List (Option Nat)) :=
  calls.mapM fun (handler, call) => handler.perform space call

end Handlers

/-! ### Flat memory -/

/-- The check that an access to a physical address does not pass. -/
def MemoryWidth.stop (w : MemoryWidth) (offset : VirtAddr) (addr : Nat) : Option AccessStop :=
  if 2 ^ 52 ≤ addr then some (.panicked .invalidPhysAddr)
  else if ¬Canonical (offset.toNat + addr) then some (.panicked .invalidVirtAddr)
  else if (offset.toNat + addr) % w.bytes ≠ 0 then some .misaligned
  else none

namespace MemoryCall

def address : MemoryCall → UInt64
  | read _ address => address
  | write _ address _ => address

def width : MemoryCall → MemoryWidth
  | read w _ => w
  | write w _ _ => w

/-- What the call changes in a flat memory, which holds words with their lowest byte first. -/
def update : MemoryCall → Nat → Option UInt8
  | read _ _ => fun _ => none
  | write w address value => itemsAt address.toNat (leBytes w.bytes (w.toNat value))

/-- What the call returns from a flat memory. -/
def result (mem : PhysicalMemory) : MemoryCall → Option Nat
  | read w address => some (leValue (itemsFrom mem address.toNat w.bytes))
  | write _ _ _ => none

/-- Why the call does not get to its access. -/
def stop (offset : VirtAddr) : MemoryCall → Option AccessStop
  | read w address => w.stop offset address.toNat
  | write w address _ => w.stop offset address.toNat

/-- All bytes that the call names are in `region`. -/
def Inside (region : Set Nat) (call : MemoryCall) : Prop :=
  ∀ i < call.width.bytes, call.address.toNat + i ∈ region

end MemoryCall

/-- Physical memory in `region` is mapped at `offset`, by tables that lie outside of it. -/
structure AddressSpace.DirectMapped (space : AddressSpace) (offset : VirtAddr) (region : Set Nat)
    (mem : PhysicalMemory) : Prop where
  offset_eq : space.physicalMemoryOffset = some offset
  maps : ∀ kind, ∀ a ∈ region, space.place mem kind (offset.toNat + a) = some a
  apart : ∀ kind : AccessKind, ∀ a ∈ region,
    ∀ e ∈ Hardware.entriesRead mem.tables kind.needs (offset.toNat + a) 4 space.cr3,
    ∀ i < 8, e.1.startAddress + 8 * e.2 + i ∉ region

theorem MemoryWidth.toNat_word (w : MemoryWidth) (n : Nat) :
    w.toNat (w.word n) = n % 256 ^ w.bytes := by
  cases w with
  | u8 => exact UInt8.toNat_ofNat'
  | u16 => exact UInt16.toNat_ofNat'
  | u32 => exact UInt32.toNat_ofNat'
  | u64 => exact UInt64.toNat_ofNat'

/-- The two handlers do the same, at each width. -/
theorem PciHandler.perform_read (h : PciHandler) (space : AddressSpace) (w : MemoryWidth)
    (address : UInt64) : h.perform space (.read w address) =
      (do return some (w.toNat (← readAddr space w address))) := by
  cases h <;> cases w <;> rfl

theorem PciHandler.perform_write (h : PciHandler) (space : AddressSpace) (w : MemoryWidth)
    (address : UInt64) (value : w.Value) : h.perform space (.write w address value) =
      (do writeAddr space w address value; return none) := by
  cases h <;> cases w <;> rfl

theorem exec_access (space : AddressSpace) (w : MemoryWidth) (kind : AccessKind) (virt : VirtAddr)
    (mem : PhysicalMemory) (hAligned : virt.toNat % w.bytes = 0) : (space.access w kind virt).exec mem =
      match space.place mem kind virt.toNat with
      | none => (.error .pageFault, mem)
      | some phys => (.ok phys, mem) := by
  rw [AddressSpace.access, if_neg (not_not_intro hAligned)]
  rw [exec_bind, exec_get]
  simp only
  cases space.place mem kind virt.toNat with
  | none => rfl
  | some phys => rfl

section Access

variable {space : AddressSpace} {offset : VirtAddr}
  (hOffset : space.physicalMemoryOffset = some offset) {call : MemoryCall} {mem : PhysicalMemory}
include hOffset

/-- The checks of an access, and then the translation. -/
theorem exec_locate (w : MemoryWidth) (kind : AccessKind) (addr : UInt64) (mem : PhysicalMemory) :
    (space.locate w kind addr).exec mem = match w.stop offset addr.toNat with
      | some stop => (.error stop, mem)
      | none => match space.place mem kind (offset.toNat + addr.toNat) with
        | none => (.error .pageFault, mem)
        | some phys => (.ok phys, mem) := by
  rw [AddressSpace.locate, MemoryWidth.stop]
  by_cases hAddr : 2 ^ 52 ≤ addr.toNat
  · rw [if_pos hAddr, if_pos hAddr]
    rfl
  · have hPointer : space.physicalToVirtual addr.toNat = offset.add addr.toNat := by
      rw [AddressSpace.physicalToVirtual, hOffset]
      rfl
    rw [if_neg hAddr, if_neg hAddr, hPointer]
    change (liftExcept _ >>= space.access w kind : MemoryProgram Nat).exec mem = _
    rw [exec_bind, exec_liftExcept]
    by_cases hVirt : Canonical (offset.toNat + addr.toNat)
    · rw [VirtAddr.add_ok hVirt, if_neg (not_not_intro hVirt)]
      by_cases hAligned : (offset.toNat + addr.toNat) % w.bytes = 0
      · rw [if_neg (not_not_intro hAligned)]
        exact exec_access space w kind _ mem hAligned
      · rw [if_pos hAligned]
        simp only [Except.mapError, AddressSpace.access]
        rw [if_pos hAligned]
        rfl
    · rw [VirtAddr.add_error hVirt, if_pos hVirt]
      rfl

/-- A call that stops changes nothing. -/
theorem exec_perform_stop (h : PciHandler) {stop : AccessStop}
    (hStop : call.stop offset = some stop) :
    (h.perform space call).exec mem = (.error stop, mem) := by
  cases call with
  | read w address =>
    rw [PciHandler.perform_read, exec_bind, readAddr, exec_bind, exec_locate hOffset,
      show w.stop offset address.toNat = some stop from hStop]
  | write w address value =>
    rw [PciHandler.perform_write, exec_bind, writeAddr, exec_bind, exec_locate hOffset,
      show w.stop offset address.toNat = some stop from hStop]

end Access

namespace AddressSpace.DirectMapped

variable {space : AddressSpace} {offset : VirtAddr} {region : Set Nat} {mem mem' : PhysicalMemory}
  {call : MemoryCall}

/-- What is written in the region leaves the tables alone. -/
theorem of_agree (h : space.DirectMapped offset region mem) (hAgree : ∀ a ∉ region, mem' a = mem a) :
    space.DirectMapped offset region mem' := by
  have hTables : ∀ kind : AccessKind, ∀ a ∈ region,
      space.place mem' kind (offset.toNat + a) = space.place mem kind (offset.toNat + a) ∧
        Hardware.entriesRead mem'.tables kind.needs (offset.toNat + a) 4 space.cr3 =
          Hardware.entriesRead mem.tables kind.needs (offset.toNat + a) 4 space.cr3 := by
    intro kind a ha
    apply Hardware.translate_congr
    intro e he
    exact congrArg (fun bytes => UInt64.ofNat (leValue bytes))
      (itemsFrom_congr fun i hi => hAgree _ (h.apart kind a ha e he i hi))
  refine ⟨h.offset_eq, fun kind a ha => ?_, fun kind a ha e he => ?_⟩
  · rw [(hTables kind a ha).1]
    exact h.maps kind a ha
  · rw [(hTables kind a ha).2] at he
    exact h.apart kind a ha e he

theorem exec_perform (h : space.DirectMapped offset region mem) (handler : PciHandler)
    (hStop : call.stop offset = none) (hInside : call.Inside region) :
    (handler.perform space call).exec mem = (.ok (call.result mem), overlay mem call.update) := by
  have hMember : call.address.toNat ∈ region := hInside 0 (by cases call.width <;> decide)
  cases call with
  | read w address =>
    have hWord : w.toNat (w.word (leValue (itemsFrom mem address.toNat w.bytes))) =
        leValue (itemsFrom mem address.toNat w.bytes) := by
      have hBound := leValue_lt (itemsFrom mem address.toNat w.bytes)
      rw [length_itemsFrom] at hBound
      rw [MemoryWidth.toNat_word, Nat.mod_eq_of_lt hBound]
    rw [PciHandler.perform_read, exec_bind, readAddr, exec_bind, exec_locate h.offset_eq,
      show w.stop offset address.toNat = none from hStop]
    simp only
    rw [h.maps .read address.toNat hMember]
    change (Except.ok (some (w.toNat (w.word _))), mem) = (.ok (some _), overlay mem fun _ => none)
    rw [hWord, overlay_empty]
  | write w address value =>
    rw [PciHandler.perform_write, exec_bind, writeAddr, exec_bind, exec_locate h.offset_eq,
      show w.stop offset address.toNat = none from hStop]
    simp only
    rw [h.maps .write address.toNat hMember]
    rfl

/-- Outside of the region a call inside it changes nothing. -/
theorem perform (h : space.DirectMapped offset region mem) (hInside : call.Inside region) :
    space.DirectMapped offset region (overlay mem call.update) := by
  refine h.of_agree fun a ha => overlay_of_none ?_
  cases call with
  | read w address => rfl
  | write w address value =>
    apply itemsAt_eq_none
    rintro ⟨hLow, hHigh⟩
    rw [length_leBytes] at hHigh
    apply ha
    have hAt := hInside (a - address.toNat) (show a - address.toNat < w.bytes by omega)
    rwa [show MemoryCall.address (.write w address value) = address from rfl,
      Nat.add_sub_cancel' hLow] at hAt

end AddressSpace.DirectMapped

/-- What the calls change in a flat memory. -/
def updates (calls : List (PciHandler × MemoryCall)) : List (Nat → Option UInt8) :=
  calls.map fun call => call.2.update

/-- What the calls return from a flat memory: each sees what the ones before it left. -/
def results (mem : PhysicalMemory) (calls : List (PciHandler × MemoryCall)) : List (Option Nat) :=
  calls.mapIdx fun i call => call.2.result (contents mem (updates (calls.take i)))

theorem results_cons (mem : PhysicalMemory) (call : PciHandler × MemoryCall)
    (calls : List (PciHandler × MemoryCall)) : results mem (call :: calls) =
      call.2.result mem :: results (overlay mem call.2.update) calls := by
  rw [results, List.mapIdx_cons]
  simp only [List.take_succ_cons, updates, List.map_cons, contents_cons]
  rfl

/-- In a region that is mapped, any calls on the two handlers act on flat memory: each byte holds
what the last write to it left, and a call that panics or is misaligned ends the series with the
memory as it was before it. -/
theorem handlers_flat {space : AddressSpace} {offset : VirtAddr} {region : Set Nat}
    {mem : PhysicalMemory} (hMapped : space.DirectMapped offset region mem)
    (calls : List (PciHandler × MemoryCall))
    (hInside : ∀ call ∈ calls, call.2.stop offset = none → call.2.Inside region) :
    (performAll space calls).exec mem =
      match calls.findSome? fun call => call.2.stop offset with
      | none => (.ok (results mem calls), contents mem (updates calls))
      | some stop => (.error stop,
          contents mem (updates (calls.takeWhile fun call => call.2.stop offset = none))) := by
  induction calls generalizing mem with
  | nil => rfl
  | cons call calls ih =>
    rw [List.forall_mem_cons] at hInside
    obtain ⟨hCall, hRest⟩ := hInside
    rw [performAll, List.mapM_cons, exec_bind, List.findSome?_cons, List.takeWhile_cons]
    cases hStop : call.2.stop offset with
    | some stop =>
      simp only [exec_perform_stop hMapped.offset_eq call.1 hStop]
      rfl
    | none =>
      have hPerform := hMapped.exec_perform call.1 hStop (hCall hStop)
      have hLoop := ih (hMapped.perform (hCall hStop)) hRest
      simp only [hPerform, decide_true, if_true]
      rw [performAll] at hLoop
      rw [exec_bind, hLoop, results_cons]
      simp only [updates, List.map_cons, contents_cons]
      cases calls.findSome? fun call => call.2.stop offset with
      | none => rfl
      | some stop => rfl

/-- Level 4 table at 0x1000, whose entry 5 leads to the table at 0x2000, which maps the first GiB
with one entry. -/
def sampleMemory : PhysicalMemory := fun a =>
  if a = 0x1028 then 0x03 else if a = 0x1029 then 0x20 else if a = 0x2000 then 0x83 else 0

def sampleSpace : AddressSpace where
  cr3 := ⟨0x1000, by decide⟩
  physicalMemoryOffset := some ⟨5 * 2 ^ 39, by decide⟩

theorem sampleSpace_directMapped : sampleSpace.DirectMapped ⟨5 * 2 ^ 39, by decide⟩
    {a | 0x3000 ≤ a ∧ a < 0x100000} sampleMemory := by
  have hTop : ∀ a < 0x100000, Hardware.entryAt (5 * 2 ^ 39 + a) 3 = 5 := by
    intro a ha
    apply Fin.ext
    simp only [Hardware.entryAt, Hardware.index, Fin.val_ofNat]
    omega
  have hNext : ∀ a < 0x100000, Hardware.entryAt (5 * 2 ^ 39 + a) 2 = 0 := by
    intro a ha
    apply Fin.ext
    simp only [Hardware.entryAt, Hardware.index, Fin.val_ofNat]
    omega
  have hTable : ∀ kind : AccessKind, Hardware.lookup kind.needs 3
      (sampleMemory.tables ⟨0x1000, by decide⟩ 5) = .table ⟨0x2000, by decide⟩ := by
    intro kind
    cases kind <;> rfl
  have hPage : ∀ kind : AccessKind, Hardware.lookup kind.needs 2
      (sampleMemory.tables ⟨0x2000, by decide⟩ 0) = .page 0 := by
    intro kind
    cases kind <;> rfl
  refine ⟨rfl, ?_, ?_⟩
  · rintro kind a ⟨-, ha⟩
    simp only [AddressSpace.place, Hardware.translate, sampleSpace, hTop a ha, hNext a ha, hTable,
      hPage]
    congr 1
    omega
  · rintro kind a ⟨-, ha⟩ e he
    simp only [Hardware.entriesRead, sampleSpace, hTop a ha, hNext a ha, hTable, hPage,
      List.mem_cons, List.not_mem_nil, or_false] at he
    rintro i hi ⟨hLow, -⟩
    rcases he with rfl | rfl
    · change 0x3000 ≤ 0x1000 + 8 * 5 + i at hLow
      omega
    · change 0x3000 ≤ 0x2000 + 8 * 0 + i at hLow
      omega

def sampleCalls : List (PciHandler × MemoryCall) :=
  [(.acpi, .write .u32 0x4000 (0x11223344 : UInt32)), (.aml, .write .u8 0x4001 (0xff : UInt8)),
    (.acpi, .read .u16 0x4000), (.aml, .read .u64 0x4000)]

/-- A byte that is written into a word is read as part of the word. -/
theorem handlers_flat_sample : ((performAll sampleSpace sampleCalls).exec sampleMemory).1 =
    .ok [none, none, some 0xff44, some 0x1122ff44] := by
  have hSmall : ∀ call ∈ sampleCalls, 0x3000 ≤ call.2.address.toNat ∧
      call.2.address.toNat + call.2.width.bytes ≤ 0x100000 := by decide
  rw [handlers_flat sampleSpace_directMapped sampleCalls]
  · rfl
  · intro call hCall _ i hi
    obtain ⟨hLow, hHigh⟩ := hSmall call hCall
    exact ⟨by omega, by omega⟩

end RixOs

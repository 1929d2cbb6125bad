import RixOs.ProofKit.Bytes

/-! PCI configuration space behind the ports 0xCF8 and 0xCFC, as `acpi/handler.rs` uses it for the
ACPI tables and for AML.  The host bridge latches the word written to 0xCF8 and gives access to the
dword it names through 0xCFC; configuration space itself is plain memory.

Every access goes through a dword.  The writers shift a byte or a half word to its lane in the
dword, the readers do not. -/

namespace RixOs

open ProofKit

/-- The `PciAddress` of the acpi crate, which keeps five bits of a device and three of a
function. -/
structure PciAddress where
  segment : UInt16
  bus : UInt8
  device : UInt8
  function : UInt8
  device_lt : device.toNat < 32
  function_lt : function.toNat < 8
  deriving DecidableEq, Repr

/-- `PciAddress::new` panics when a number does not fit its bits. -/
def PciAddress.new (segment : UInt16) (bus device function : UInt8) : Option PciAddress :=
  if h : device.toNat < 32 ∧ function.toNat < 8 then
    some ⟨segment, bus, device, function, h.1, h.2⟩
  else none

/-- The bytes of every function, by their offset. -/
abbrev ConfigSpace := PciAddress → Nat → UInt8

def ConfigSpace.load (space : ConfigSpace) (addr : PciAddress) (offset n : Nat) : List UInt8 :=
  (List.range n).map fun i => space addr (offset + i)

def ConfigSpace.store (space : ConfigSpace) (addr : PciAddress) (offset : Nat)
    (bytes : List UInt8) : ConfigSpace := fun addr' offset' =>
  if addr' = addr ∧ offset ≤ offset' then bytes[offset' - offset]?.getD (space addr' offset')
  else space addr' offset'

/-- The host bridge: the word that it latched, and configuration space. -/
structure PciPorts where
  configAddress : UInt32
  space : ConfigSpace

namespace PciPorts

/-- The dword that the latched word names: bit 31 enables it, bits 16 to 23 are the bus, 11 to 15
the device, 8 to 10 the function and 2 to 7 the dword.  All of it is in segment 0. -/
def selected (s : PciPorts) : Option (PciAddress × Nat) :=
  let word := s.configAddress.toNat
  if word / 2 ^ 31 = 1 then
    some (⟨0, .ofNat (word / 2 ^ 16), .ofNat (word / 2 ^ 11 % 32), .ofNat (word / 2 ^ 8 % 8),
      by rw [UInt8.toNat_ofNat']; omega, by rw [UInt8.toNat_ofNat']; omega⟩,
      word % 2 ^ 8 / 4 * 4)
  else none

def read (port : UInt16) : StateM PciPorts UInt32 := do
  let s ← get
  if port = 0xCF8 then return s.configAddress
  else if port = 0xCFC then
    match s.selected with
    | some (addr, offset) => return .ofNat (leValue (s.space.load addr offset 4))
    | none => return 0xFFFFFFFF
  else return 0xFFFFFFFF

def write (port : UInt16) (value : UInt32) : StateM PciPorts Unit :=
  modify fun s =>
    if port = 0xCF8 then { s with configAddress := value }
    else if port = 0xCFC then
      match s.selected with
      | some (addr, offset) =>
        { s with space := s.space.store addr offset (leBytes 4 value.toNat) }
      | none => s
    else s

end PciPorts

def pciConfigAddress (bus dev func : UInt8) (offset : UInt16) : UInt32 :=
  ((1 : UInt32) <<< 31) ||| (bus.toUInt32 <<< 16) ||| (dev.toUInt32 <<< 11) |||
    (func.toUInt32 <<< 8) ||| (offset.toUInt32 &&& 0xFC)

def pciConfigReadU32 (addr : PciAddress) (offset : UInt16) : StateM PciPorts UInt32 := do
  let configAddr := pciConfigAddress addr.bus addr.device addr.function offset
  PciPorts.write 0xCF8 configAddr
  PciPorts.read 0xCFC

def pciConfigWriteU32 (addr : PciAddress) (offset : UInt16) (value : UInt32) :
    StateM PciPorts Unit := do
  let configAddr := pciConfigAddress addr.bus addr.device addr.function offset
  PciPorts.write 0xCF8 configAddr
  PciPorts.write 0xCFC value

/-- The body of the writers of a part of a dword. -/
def pciConfigMerge (addr : PciAddress) (offset : UInt16) (shift ones value : UInt32) :
    StateM PciPorts Unit := do
  let old ← pciConfigReadU32 addr offset
  let mask := ~~~(ones <<< shift)
  let new := (old &&& mask) ||| (value <<< shift)
  pciConfigWriteU32 addr offset new

namespace AcpiHandler

def readPciU8 (address : PciAddress) (offset : UInt16) : StateM PciPorts UInt8 :=
  return (← pciConfigReadU32 address offset).toUInt8

def readPciU16 (address : PciAddress) (offset : UInt16) : StateM PciPorts UInt16 :=
  return (← pciConfigReadU32 address offset).toUInt16

def readPciU32 (address : PciAddress) (offset : UInt16) : StateM PciPorts UInt32 :=
  pciConfigReadU32 address offset

def writePciU8 (address : PciAddress) (offset : UInt16) (value : UInt8) : StateM PciPorts Unit :=
  pciConfigMerge address offset ((offset &&& 3) * 8).toUInt32 0xFF value.toUInt32

def writePciU16 (address : PciAddress) (offset : UInt16) (value : UInt16) : StateM PciPorts Unit :=
  pciConfigMerge address offset ((offset &&& 2) * 8).toUInt32 0xFFFF value.toUInt32

def writePciU32 (address : PciAddress) (offset : UInt16) (value : UInt32) : StateM PciPorts Unit :=
  pciConfigWriteU32 address offset value

end AcpiHandler

namespace AmlHandler

variable (seg : UInt16) (bus dev func : UInt8) (offset : UInt16)

def readPciU8 : OptionT (StateM PciPorts) UInt8 := do
  let addr ← OptionT.mk (pure (PciAddress.new seg bus dev func))
  return (← pciConfigReadU32 addr offset).toUInt8

def readPciU16 : OptionT (StateM PciPorts) UInt16 := do
  let addr ← OptionT.mk (pure (PciAddress.new seg bus dev func))
  return (← pciConfigReadU32 addr offset).toUInt16

def readPciU32 : OptionT (StateM PciPorts) UInt32 := do
  let addr ← OptionT.mk (pure (PciAddress.new seg bus dev func))
  pciConfigReadU32 addr offset

def writePciU8 (value : UInt8) : OptionT (StateM PciPorts) Unit := do
  let addr ← OptionT.mk (pure (PciAddress.new seg bus dev func))
  pciConfigMerge addr offset ((offset &&& 3) * 8).toUInt32 0xFF value.toUInt32

def writePciU16 (value : UInt16) : OptionT (StateM PciPorts) Unit := do
  let addr ← OptionT.mk (pure (PciAddress.new seg bus dev func))
  pciConfigMerge addr offset ((offset &&& 2) * 8).toUInt32 0xFFFF value.toUInt32

def writePciU32 (value : UInt32) : OptionT (StateM PciPorts) Unit := do
  let addr ← OptionT.mk (pure (PciAddress.new seg bus dev func))
  pciConfigWriteU32 addr offset value

end AmlHandler

inductive Width
  | u8
  | u16
  | u32
  deriving DecidableEq, Repr

namespace Width

def bytes : Width → Nat
  | u8 => 1
  | u16 => 2
  | u32 => 4

def Value : Width → Type
  | u8 => UInt8
  | u16 => UInt16
  | u32 => UInt32

def toNat : (w : Width) → w.Value → Nat
  | u8, value => UInt8.toNat value
  | u16, value => UInt16.toNat value
  | u32, value => UInt32.toNat value

end Width

/-- The two implementations, for the tables and for AML. -/
inductive PciHandler
  | acpi
  | aml
  deriving DecidableEq, Repr

namespace PciHandler

def read (addr : PciAddress) (offset : UInt16) :
    PciHandler → (w : Width) → OptionT (StateM PciPorts) w.Value
  | acpi, .u8 => OptionT.lift (AcpiHandler.readPciU8 addr offset)
  | acpi, .u16 => OptionT.lift (AcpiHandler.readPciU16 addr offset)
  | acpi, .u32 => OptionT.lift (AcpiHandler.readPciU32 addr offset)
  | aml, .u8 => AmlHandler.readPciU8 addr.segment addr.bus addr.device addr.function offset
  | aml, .u16 => AmlHandler.readPciU16 addr.segment addr.bus addr.device addr.function offset
  | aml, .u32 => AmlHandler.readPciU32 addr.segment addr.bus addr.device addr.function offset

def write (addr : PciAddress) (offset : UInt16) :
    PciHandler → (w : Width) → w.Value → OptionT (StateM PciPorts) Unit
  | acpi, .u8, v => OptionT.lift (AcpiHandler.writePciU8 addr offset v)
  | acpi, .u16, v => OptionT.lift (AcpiHandler.writePciU16 addr offset v)
  | acpi, .u32, v => OptionT.lift (AcpiHandler.writePciU32 addr offset v)
  | aml, .u8, v => AmlHandler.writePciU8 addr.segment addr.bus addr.device addr.function offset v
  | aml, .u16, v => AmlHandler.writePciU16 addr.segment addr.bus addr.device addr.function offset v
  | aml, .u32, v => AmlHandler.writePciU32 addr.segment addr.bus addr.device addr.function offset v

end PciHandler

/-! ### The dword that an access names -/

/-- The function with the same numbers in segment 0. -/
def PciAddress.legacy (addr : PciAddress) : PciAddress := { addr with segment := 0 }

/-- The offset of the dword, without the bits that the port does not take. -/
def dwordOffset (offset : UInt16) : Nat := offset.toNat % 2 ^ 8 / 2 ^ 2 * 2 ^ 2

theorem toNat_pciConfigAddress (addr : PciAddress) (offset : UInt16) :
    (pciConfigAddress addr.bus addr.device addr.function offset).toNat =
      2 ^ 31 + addr.bus.toNat * 2 ^ 16 + addr.device.toNat * 2 ^ 11 +
        addr.function.toNat * 2 ^ 8 + dwordOffset offset := by
  have hBus := addr.bus.toNat_lt
  have hDevice := addr.device_lt
  have hFunction := addr.function_lt
  have hMask : offset.toNat &&& 252 = dwordOffset offset := and_mask offset.toNat 2 6
  have hOffset : dwordOffset offset < 2 ^ 8 := by unfold dwordOffset; omega
  simp only [pciConfigAddress, UInt32.toNat_or, UInt32.toNat_shiftLeft, UInt32.toNat_and,
    UInt8.toNat_toUInt32, UInt16.toNat_toUInt32, UInt32.reduceToNat, Nat.reduceMod,
    Nat.shiftLeft_eq, hMask]
  rw [Nat.mod_eq_of_lt (by omega : addr.bus.toNat * 2 ^ 16 < 2 ^ 32),
    Nat.mod_eq_of_lt (by omega : addr.device.toNat * 2 ^ 11 < 2 ^ 32),
    Nat.mod_eq_of_lt (by omega : addr.function.toNat * 2 ^ 8 < 2 ^ 32),
    or_eq_add (k := 31) (by omega : 1 * 2 ^ 31 % 2 ^ 32 % 2 ^ 31 = 0) (by omega),
    or_eq_add (k := 16) (by omega) (by omega : addr.device.toNat * 2 ^ 11 < 2 ^ 16),
    or_eq_add (k := 11) (by omega) (by omega : addr.function.toNat * 2 ^ 8 < 2 ^ 11),
    or_eq_add (k := 8) (by omega) hOffset]
  omega

theorem selected_pciConfigAddress (addr : PciAddress) (offset : UInt16) (space : ConfigSpace) :
    PciPorts.selected ⟨pciConfigAddress addr.bus addr.device addr.function offset, space⟩ =
      some (addr.legacy, dwordOffset offset) := by
  have hBus := addr.bus.toNat_lt
  have hDevice := addr.device_lt
  have hFunction := addr.function_lt
  have hOffset : dwordOffset offset < 2 ^ 8 ∧ dwordOffset offset % 4 = 0 := by
    unfold dwordOffset
    omega
  have hWord := toNat_pciConfigAddress addr offset
  have hByte : ∀ {value : Nat} {b : UInt8}, value % 2 ^ 8 = b.toNat → UInt8.ofNat value = b :=
    fun hEq => UInt8.toNat_inj.mp (by rw [UInt8.toNat_ofNat', hEq])
  simp only [PciPorts.selected]
  rw [if_pos (by omega), Option.some.injEq, Prod.mk.injEq]
  refine ⟨PciAddress.mk.injEq .. ▸ ⟨rfl, hByte ?_, hByte ?_, hByte ?_⟩, ?_⟩ <;> omega

variable {addr : PciAddress} {offset : UInt16} {s : PciPorts}

theorem PciPorts.run_read_data {base : Nat} (h : s.selected = some (addr, base)) :
    (PciPorts.read 0xCFC).run s = (.ofNat (leValue (s.space.load addr base 4)), s) := by
  change ((match s.selected with
    | some (addr, offset) => pure (.ofNat (leValue (s.space.load addr offset 4)))
    | none => pure 0xFFFFFFFF : StateM PciPorts UInt32).run s).run = _
  rw [h]
  rfl

theorem PciPorts.run_write_data {base : Nat} {value : UInt32} (h : s.selected = some (addr, base)) :
    (PciPorts.write 0xCFC value).run s =
      ((), { s with space := s.space.store addr base (leBytes 4 value.toNat) }) := by
  change ((), match s.selected with
    | some (addr, offset) => { s with space := s.space.store addr offset (leBytes 4 value.toNat) }
    | none => s) = _
  rw [h]

theorem run_pciConfigReadU32 : (pciConfigReadU32 addr offset).run s =
    (.ofNat (leValue (s.space.load addr.legacy (dwordOffset offset) 4)),
      ⟨pciConfigAddress addr.bus addr.device addr.function offset, s.space⟩) :=
  PciPorts.run_read_data (selected_pciConfigAddress addr offset s.space)

theorem run_pciConfigWriteU32 {value : UInt32} : (pciConfigWriteU32 addr offset value).run s =
    ((), ⟨pciConfigAddress addr.bus addr.device addr.function offset,
      s.space.store addr.legacy (dwordOffset offset) (leBytes 4 value.toNat)⟩) :=
  PciPorts.run_write_data (selected_pciConfigAddress addr offset s.space)

@[simp] theorem ConfigSpace.length_load {space : ConfigSpace} {base n : Nat} :
    (space.load addr base n).length = n := by
  rw [load, List.length_map, List.length_range]

theorem ConfigSpace.getElem?_load {space : ConfigSpace} {base n i : Nat} {b : UInt8}
    (h : (space.load addr base n)[i]? = some b) : b = space addr (base + i) := by
  obtain ⟨hi, rfl⟩ := List.getElem?_eq_some_iff.mp h
  simp [load]

theorem ConfigSpace.getD_load (space : ConfigSpace) (addr : PciAddress) (base n i : Nat) :
    (space.load addr base n)[i]?.getD (space addr (base + i)) = space addr (base + i) := by
  cases h : (space.load addr base n)[i]? with
  | none => rfl
  | some b => exact getElem?_load h

/-- Storing a dword that differs from what is there in `bytes` alone. -/
theorem ConfigSpace.store_splice (space : ConfigSpace) (addr : PciAddress) (base m : Nat)
    (bytes : List UInt8) (hm : m ≤ 4) :
    space.store addr base ((space.load addr base 4).take m ++ bytes ++
      (space.load addr base 4).drop (m + bytes.length)) =
      space.store addr (base + m) bytes := by
  funext addr' offset'
  simp only [store]
  by_cases hAddr : addr' = addr ∧ base ≤ offset'
  · obtain ⟨rfl, hBase⟩ := hAddr
    obtain ⟨i, rfl⟩ := Nat.exists_eq_add_of_le hBase
    rw [if_pos ⟨rfl, hBase⟩, Nat.add_sub_cancel_left, getElem?_patch (by rwa [length_load])]
    by_cases hInside : m ≤ i ∧ i < m + bytes.length
    · rw [if_pos hInside, if_pos ⟨rfl, by omega⟩, Nat.add_sub_add_left]
    · rw [if_neg hInside, getD_load]
      by_cases hAfter : base + m ≤ base + i
      · rw [if_pos ⟨rfl, hAfter⟩, List.getElem?_eq_none (by omega)]
        rfl
      · rw [if_neg fun h => hAfter h.2]
  · rw [if_neg hAddr, if_neg fun h => hAddr ⟨h.1, by omega⟩]

theorem toNat_dword {bs : List UInt8} (hLength : bs.length = 4) :
    (UInt32.ofNat (leValue bs)).toNat = leValue bs := by
  have hLt := leValue_lt bs
  rw [hLength] at hLt
  rw [UInt32.toNat_ofNat']
  exact Nat.mod_eq_of_lt (Nat.lt_of_lt_of_eq hLt (by decide))

theorem toNat_merge {old shift ones value : UInt32} {m n : Nat} (hFits : m + n ≤ 4) (hn : 0 < n)
    (hShift : shift.toNat = 8 * m) (hOnes : ones.toNat = 256 ^ n - 1)
    (hValue : value.toNat < 256 ^ n) :
    ((old &&& ~~~(ones <<< shift)) ||| (value <<< shift)).toNat =
      splice old.toNat m n value.toNat := by
  have hPow : ∀ k, 256 ^ k = 2 ^ (8 * k) := fun k => (Nat.pow_mul 2 8 k).symm
  rw [hPow] at hOnes hValue
  have hShiftBits : (shift.toBitVec % 32).toNat = 8 * m := by
    rw [BitVec.toNat_umod, UInt32.toNat_toBitVec, hShift]
    exact Nat.mod_eq_of_lt (by simp; omega)
  have hOnesBits : ones.toBitVec = BitVec.ofNat 32 (2 ^ (8 * n) - 1) := by
    apply BitVec.eq_of_toNat_eq
    rw [UInt32.toNat_toBitVec, hOnes, BitVec.toNat_ofNat]
    exact (Nat.mod_eq_of_lt (hOnes ▸ ones.toNat_lt)).symm
  have hWord : ((old &&& ~~~(ones <<< shift)) ||| (value <<< shift)).toBitVec =
      (old.toBitVec &&& ~~~(BitVec.ofNat 32 (2 ^ (8 * n) - 1) <<< (8 * m))) |||
        (value.toBitVec <<< (8 * m)) := by
    rw [UInt32.toBitVec_or, UInt32.toBitVec_and, UInt32.toBitVec_not, UInt32.toBitVec_shiftLeft,
      UInt32.toBitVec_shiftLeft, BitVec.shiftLeft_eq', BitVec.shiftLeft_eq', hShiftBits, hOnesBits]
  rw [← UInt32.toNat_toBitVec, hWord, toNat_fill _ _ (by omega) hValue, splice, hPow, hPow, hPow,
    Nat.mul_add 8 m n]
  rfl

/-- Filling `n` bytes of a dword from lane `m` on stores these bytes alone. -/
theorem run_pciConfigMerge {shift ones value : UInt32} {m n : Nat} (hFits : m + n ≤ 4)
    (hn : 0 < n) (hShift : shift.toNat = 8 * m) (hOnes : ones.toNat = 256 ^ n - 1)
    (hValue : value.toNat < 256 ^ n) :
    (pciConfigMerge addr offset shift ones value).run s =
      ((), ⟨pciConfigAddress addr.bus addr.device addr.function offset,
        s.space.store addr.legacy (dwordOffset offset + m) (leBytes n value.toNat)⟩) := by
  have hLength : (s.space.load addr.legacy (dwordOffset offset) 4).length = 4 :=
    ConfigSpace.length_load
  have hSplice := leBytes_splice
    (hLength.trans (by omega) : _ = m + n + (4 - (m + n))) hValue
  have hStore := s.space.store_splice addr.legacy (dwordOffset offset) m (leBytes n value.toNat)
    (by omega)
  rw [length_leBytes] at hStore
  rw [hLength] at hSplice
  rw [pciConfigMerge, StateT.run_bind, run_pciConfigReadU32]
  change (pciConfigWriteU32 _ _ _).run _ = _
  rw [run_pciConfigWriteU32, toNat_merge hFits hn hShift hOnes hValue, toNat_dword hLength, hSplice,
    hStore]

/-! ### The accesses -/

/-- The place in the dword that a writer shifts its value to. -/
def Width.lane (offset : UInt16) : Width → Nat
  | u8 => offset.toNat % 4
  | u16 => offset.toNat % 4 / 2 * 2
  | u32 => 0

theorem Width.lane_fits (w : Width) (offset : UInt16) : w.lane offset + w.bytes ≤ 4 := by
  cases w <;> simp only [lane, bytes] <;> omega

theorem toNat_shift (offset mask : UInt16) (hMask : offset.toNat &&& mask.toNat < 4) :
    ((offset &&& mask) * 8).toUInt32.toNat = 8 * (offset.toNat &&& mask.toNat) := by
  have hProduct : (offset.toNat &&& mask.toNat) * 8 < 4 * 8 :=
    Nat.mul_lt_mul_of_pos_right hMask (by decide)
  rw [UInt16.toNat_toUInt32, UInt16.toNat_mul, UInt16.toNat_and, Nat.mul_comm 8]
  exact Nat.mod_eq_of_lt (Nat.lt_trans hProduct (by decide))

theorem PciAddress.new_self (addr : PciAddress) :
    PciAddress.new addr.segment addr.bus addr.device addr.function = some addr := by
  rw [PciAddress.new, dif_pos ⟨addr.device_lt, addr.function_lt⟩]

/-- The two handlers do the same. -/
theorem PciHandler.write_eq (h : PciHandler) (w : Width) (value : w.Value) :
    h.write addr offset w value = acpi.write addr offset w value := by
  cases h with
  | acpi => rfl
  | aml =>
    cases w <;> simp only [PciHandler.write, AmlHandler.writePciU8, AmlHandler.writePciU16,
      AmlHandler.writePciU32, addr.new_self] <;> rfl

theorem PciHandler.read_eq (h : PciHandler) (w : Width) :
    h.read addr offset w = acpi.read addr offset w := by
  cases h with
  | acpi => rfl
  | aml =>
    cases w <;> simp only [PciHandler.read, AmlHandler.readPciU8, AmlHandler.readPciU16,
      AmlHandler.readPciU32, addr.new_self] <;> rfl

theorem run_lift {α : Type} {x : StateM PciPorts α} {a : α} {t : PciPorts} (h : x.run s = (a, t)) :
    (OptionT.lift x).run.run s = (some a, t) := by
  change (some (x.run s).1, (x.run s).2) = _
  rw [h]

theorem run_write (h : PciHandler) (w : Width) (value : w.Value) :
    (h.write addr offset w value).run.run s =
      (some (), ⟨pciConfigAddress addr.bus addr.device addr.function offset,
        s.space.store addr.legacy (dwordOffset offset + w.lane offset)
          (leBytes w.bytes (w.toNat value))⟩) := by
  rw [h.write_eq]
  match w with
  | .u8 =>
    have hLane : offset.toNat &&& 3 = offset.toNat % 4 := Nat.and_two_pow_sub_one_eq_mod _ 2
    have hShift := toNat_shift offset 3 (hLane ▸ by omega)
    exact run_lift (run_pciConfigMerge (Width.u8.lane_fits offset) (by decide)
      (hShift.trans (congrArg (8 * ·) hLane)) (by decide) (UInt8.toNat_lt value))
  | .u16 =>
    have hLane : offset.toNat &&& 2 = offset.toNat % 4 / 2 * 2 := and_mask offset.toNat 1 1
    have hShift := toNat_shift offset 2 (hLane ▸ by omega)
    exact run_lift (run_pciConfigMerge (Width.u16.lane_fits offset) (by decide)
      (hShift.trans (congrArg (8 * ·) hLane)) (by decide) (UInt16.toNat_lt value))
  | .u32 => exact run_lift run_pciConfigWriteU32

theorem ConfigSpace.take_load (space : ConfigSpace) (base : Nat) {m n : Nat} (hn : n ≤ m) :
    (space.load addr base m).take n = space.load addr base n := by
  rw [load, load, ← List.map_take, List.take_range, Nat.min_eq_left hn]

theorem run_truncate {α : Type} (f : UInt32 → α) :
    StateT.run (do return f (← pciConfigReadU32 addr offset)) s =
      (f (.ofNat (leValue (s.space.load addr.legacy (dwordOffset offset) 4))),
        ⟨pciConfigAddress addr.bus addr.device addr.function offset, s.space⟩) := by
  rw [StateT.run_bind, run_pciConfigReadU32]
  rfl

theorem run_read (h : PciHandler) (w : Width) :
    ∃ value, (h.read addr offset w).run.run s =
      (some value, ⟨pciConfigAddress addr.bus addr.device addr.function offset, s.space⟩) ∧
      w.toNat value = leValue (s.space.load addr.legacy (dwordOffset offset) w.bytes) := by
  rw [h.read_eq]
  have hLength : (s.space.load addr.legacy (dwordOffset offset) 4).length = 4 :=
    ConfigSpace.length_load
  have hLow : ∀ n ≤ 4, leValue (s.space.load addr.legacy (dwordOffset offset) 4) % 256 ^ n =
      leValue (s.space.load addr.legacy (dwordOffset offset) n) := fun n hn => by
    rw [← s.space.take_load _ hn, leValue_take (by rwa [hLength])]
  match w with
  | .u8 =>
    refine ⟨_, run_lift (run_truncate UInt32.toUInt8), ?_⟩
    exact (UInt32.toNat_toUInt8 _).trans (by rw [toNat_dword hLength]; exact hLow 1 (by decide))
  | .u16 =>
    refine ⟨_, run_lift (run_truncate UInt32.toUInt16), ?_⟩
    exact (UInt32.toNat_toUInt16 _).trans (by rw [toNat_dword hLength]; exact hLow 2 (by decide))
  | .u32 => exact ⟨_, run_lift run_pciConfigReadU32, toNat_dword hLength⟩

end RixOs

import RixOs.PciAccess
import RixOs.ProofKit.Loops

/-! The enumeration of PCI functions in `pcie.rs`: three loops over buses, devices and functions
that read configuration space through the ports 0xCF8 and 0xCFC and report what they find.  A
function that is absent is passed over; function 0 of a device that has no other function ends the
innermost loop. -/

namespace RixOs

open ProofKit

def pciClassCodeDescription (class_ subclass : UInt8) : String :=
  match class_, subclass with
  | 0x00, 0x00 => "Unclassified: Non-VGA compatible device"
  | 0x00, 0x01 => "Unclassified: VGA compatible device"
  | 0x01, 0x00 => "Mass Storage: SCSI"
  | 0x01, 0x01 => "Mass Storage: IDE"
  | 0x01, 0x06 => "Mass Storage: SATA"
  | 0x01, 0x80 => "Mass Storage: Other"
  | 0x02, 0x00 => "Network: Ethernet controller"
  | 0x03, 0x00 => "Display: VGA compatible controller"
  | 0x03, 0x01 => "Display: XGA controller"
  | 0x03, 0x80 => "Display: Other"
  | 0x06, 0x00 => "Bridge: Host bridge"
  | 0x06, 0x01 => "Bridge: ISA bridge"
  | 0x06, 0x04 => "Bridge: PCI-to-PCI bridge"
  | 0x06, 0x80 => "Bridge: Other bridge device"
  | _, _ => "Unknown device"

/-- What the debug line of a function says, in its order. -/
structure PciReport where
  bus : UInt8
  device : UInt8
  function : UInt8
  vendorId : UInt16
  deviceId : UInt16
  classCode : UInt8
  subclass : UInt8
  progIf : UInt8
  description : String
  deriving DecidableEq, Repr

def pciConfigRead (bus device function offset : UInt8) : StateM PciPorts UInt32 := do
  let address := ((1 : UInt32) <<< 31) ||| (bus.toUInt32 <<< 16) ||| (device.toUInt32 <<< 11) |||
    (function.toUInt32 <<< 8) ||| (offset.toUInt32 &&& 0xFC)
  PciPorts.write 0xCF8 address
  PciPorts.read 0xCFC

/-- The body of the innermost loop. -/
def visitFunction (bus device function : UInt8) (reports : List PciReport) :
    StateM PciPorts (ForInStep (List PciReport)) := do
  let vendorDevice ← pciConfigRead bus device function 0x00
  -- `continue`
  if vendorDevice = 0xFFFFFFFF then return .yield reports
  let vendorId := (vendorDevice &&& 0xFFFF).toUInt16
  let deviceId := ((vendorDevice >>> 16) &&& 0xFFFF).toUInt16
  let classReg ← pciConfigRead bus device function 0x08
  let classCode := ((classReg >>> 24) &&& 0xFF).toUInt8
  let subclass := ((classReg >>> 16) &&& 0xFF).toUInt8
  let progIf := ((classReg >>> 8) &&& 0xFF).toUInt8
  let headerTypeReg ← pciConfigRead bus device function 0x0C
  let headerType := ((headerTypeReg >>> 16) &&& 0xFF).toUInt8
  let reports := reports ++ [⟨bus, device, function, vendorId, deviceId, classCode, subclass,
    progIf, pciClassCodeDescription classCode subclass⟩]
  -- `break`
  if function = 0 ∧ headerType &&& 0x80 = 0 then return .done reports
  return .yield reports

/-- `0u8..n`, and `0u8..=255` for 256. -/
def u8Range (n : Nat) : List UInt8 := (List.range n).map .ofNat

/-- The body of the loop over the devices. -/
def visitDevice (bus device : UInt8) (reports : List PciReport) :
    StateM PciPorts (ForInStep (List PciReport)) := do
  let reports ← forIn (u8Range 8) reports (visitFunction bus device)
  return .yield reports

/-- The body of the loop over the buses. -/
def visitBus (bus : UInt8) (reports : List PciReport) :
    StateM PciPorts (ForInStep (List PciReport)) := do
  let reports ← forIn (u8Range 32) reports (visitDevice bus)
  return .yield reports

def enumeratePci : StateM PciPorts (List PciReport) := forIn (u8Range 256) [] visitBus

/-! ### What is there to report -/

/-- Function 0 of the same device. -/
def PciAddress.firstFunction (addr : PciAddress) : PciAddress :=
  { addr with function := 0, function_lt := Nat.zero_lt_succ 7 }

namespace ConfigSpace

variable (space : ConfigSpace) (addr : PciAddress)

def Present : Prop := leValue (space.load addr 0 4) ≠ 0xFFFFFFFF

instance : Decidable (space.Present addr) := inferInstanceAs (Decidable (_ ≠ _))

/-- Bit 7 of the header type. -/
def MultiFunction : Prop := (space addr 0x0E).toNat / 2 ^ 7 = 1

instance : Decidable (space.MultiFunction addr) := inferInstanceAs (Decidable (_ = _))

/-- The functions that an enumeration reports. -/
def Reported : Prop :=
  space.Present addr ∧ (addr.function = 0 ∨ ¬space.Present addr.firstFunction ∨
    space.MultiFunction addr.firstFunction)

/-- The report that carries a function's own registers. -/
def report : PciReport where
  bus := addr.bus
  device := addr.device
  function := addr.function
  vendorId := .ofNat (leValue (space.load addr 0x00 2))
  deviceId := .ofNat (leValue (space.load addr 0x02 2))
  classCode := space addr 0x0B
  subclass := space addr 0x0A
  progIf := space addr 0x09
  description := pciClassCodeDescription (space addr 0x0B) (space addr 0x0A)

end ConfigSpace

/-- In ascending order of bus, device and function. -/
def PciReport.Before (r q : PciReport) : Prop :=
  r.bus.toNat < q.bus.toNat ∨ r.bus = q.bus ∧ (r.device.toNat < q.device.toNat ∨
    r.device = q.device ∧ r.function.toNat < q.function.toNat)

/-! ### Registers and their fields -/

variable {addr : PciAddress} {s : PciPorts}

theorem run_pciConfigRead {space : ConfigSpace} (hs : s.space = space) (hSegment : addr.segment = 0)
    (offset : UInt8) (base : Nat) (hBase : dwordOffset offset.toUInt16 = base) :
    ∃ t : PciPorts, t.space = space ∧
      (pciConfigRead addr.bus addr.device addr.function offset).run s =
        (.ofNat (leValue (space.load addr base 4)), t) := by
  have hSelected := selected_pciConfigAddress addr offset.toUInt16 space
  rw [addr.legacy_of_segment hSegment, pciConfigAddress, UInt8.toUInt32_toUInt16, hBase]
    at hSelected
  subst hs
  refine ⟨_, ?_, PciPorts.run_read_data hSelected⟩
  rfl

theorem toNat_field {bs : List UInt8} (hLength : bs.length = 4) {shift mask : UInt32} {m n : Nat}
    (hShift : shift.toNat % 32 = 8 * m) (hMask : mask.toNat = 2 ^ n - 1) :
    ((UInt32.ofNat (leValue bs) >>> shift) &&& mask).toNat = leValue bs / 256 ^ m % 2 ^ n := by
  rw [UInt32.toNat_and, UInt32.toNat_shiftRight, toNat_dword hLength, hShift, hMask,
    Nat.and_two_pow_sub_one_eq_mod, Nat.shiftRight_eq_div_pow, Nat.pow_mul]

theorem ConfigSpace.load_byte (space : ConfigSpace) (base : Nat) {i : Nat} (hi : i < 4) :
    (space.load addr base 4)[i]? = some (space addr (base + i)) := by
  rw [load, List.getElem?_map, List.getElem?_range hi]
  rfl

theorem ConfigSpace.field_eq (space : ConfigSpace) (base i : Nat) (shift : UInt32) (hi : i < 4)
    (hShift : shift.toNat % 32 = 8 * i) :
    ((UInt32.ofNat (leValue (space.load addr base 4)) >>> shift) &&& 0xFF).toUInt8 =
      space addr (base + i) := by
  apply UInt8.toNat_inj.mp
  rw [UInt32.toNat_toUInt8, toNat_field length_load hShift (by decide : _ = 2 ^ 8 - 1), Nat.mod_mod]
  exact leValue_byte (space.load_byte base hi)

theorem ConfigSpace.vendorId_eq (space : ConfigSpace) :
    (UInt32.ofNat (leValue (space.load addr 0 4)) &&& 0xFFFF).toUInt16 =
      (space.report addr).vendorId := by
  apply UInt16.toNat_inj.mp
  rw [UInt32.toNat_toUInt16, UInt32.toNat_and, toNat_dword length_load, report, UInt16.toNat_ofNat',
    ← space.take_load 0 (by decide : 2 ≤ 4), leValue_take (by rw [length_load]; decide),
    show (0xFFFF : UInt32).toNat = 2 ^ 16 - 1 from rfl, Nat.and_two_pow_sub_one_eq_mod]
  rfl

theorem ConfigSpace.deviceId_eq (space : ConfigSpace) :
    ((UInt32.ofNat (leValue (space.load addr 0 4)) >>> 16) &&& 0xFFFF).toUInt16 =
      (space.report addr).deviceId := by
  have hHigh : space.load addr 2 2 = (space.load addr 0 4).drop 2 := rfl
  have hLength : (space.load addr 0 4).length = 2 + 2 := length_load
  apply UInt16.toNat_inj.mp
  rw [UInt32.toNat_toUInt16, toNat_field length_load (by decide : _ = 8 * 2)
    (by decide : _ = 2 ^ 16 - 1), report, UInt16.toNat_ofNat', hHigh, leBytes_drop hLength,
    leValue_leBytes]
  rfl

/-! ### One function -/

namespace ConfigSpace

variable (space : ConfigSpace)

/-- What the visit of a function adds to the reports. -/
def found (addr : PciAddress) : List PciReport :=
  if space.Present addr then [space.report addr] else []

/-- The visit of a function leaves the loop over the functions. -/
def single (addr : PciAddress) : Bool :=
  space.Present addr ∧ addr.function = 0 ∧ ¬space.MultiFunction addr

end ConfigSpace

theorem ofNat_leValue_eq {bs : List UInt8} (hLength : bs.length = 4) :
    UInt32.ofNat (leValue bs) = 0xFFFFFFFF ↔ leValue bs = 0xFFFFFFFF := by
  rw [← UInt32.toNat_inj, toNat_dword hLength]
  rfl

theorem and_0x80_eq_zero (b : UInt8) : b &&& 0x80 = 0 ↔ ¬b.toNat / 2 ^ 7 = 1 := by
  have hAnd := and_mask b.toNat 7 1
  have hByte := b.toNat_lt
  rw [← UInt8.toNat_inj, UInt8.toNat_and]
  change b.toNat &&& 2 ^ 7 = 0 ↔ _
  rw [show (2 ^ 1 - 1) <<< 7 = 2 ^ 7 from rfl] at hAnd
  omega

theorem ConfigSpace.single_iff {space : ConfigSpace} (hPresent : space.Present addr) :
    space.single addr = true ↔ addr.function = 0 ∧ space addr 0x0E &&& 0x80 = 0 := by
  rw [single, decide_eq_true_iff, and_0x80_eq_zero, and_iff_right hPresent]
  rfl

theorem run_visitFunction {space : ConfigSpace} (hs : s.space = space) (hSegment : addr.segment = 0)
    (reports : List PciReport) : ∃ t : PciPorts, t.space = space ∧
      (visitFunction addr.bus addr.device addr.function reports).run s =
        (if space.single addr then .done (reports ++ space.found addr)
          else .yield (reports ++ space.found addr), t) := by
  obtain ⟨s₁, hs₁, hId⟩ := run_pciConfigRead hs hSegment 0x00 0 rfl
  obtain ⟨s₂, hs₂, hClass⟩ := run_pciConfigRead hs₁ hSegment 0x08 8 rfl
  obtain ⟨s₃, hs₃, hHeader⟩ := run_pciConfigRead hs₂ hSegment 0x0C 12 rfl
  rw [visitFunction, run_bind hId]
  by_cases hPresent : space.Present addr
  · rw [if_neg (mt (ofNat_leValue_eq ConfigSpace.length_load).mp hPresent), run_bind hClass,
      run_bind hHeader]
    refine ⟨s₃, hs₃, ?_⟩
    rw [ConfigSpace.found, if_pos hPresent]
    rw [space.field_eq 8 3 24 (by decide) rfl, space.field_eq 8 2 16 (by decide) rfl,
      space.field_eq 8 1 8 (by decide) rfl, space.field_eq 12 2 16 (by decide) rfl,
      space.vendorId_eq, space.deviceId_eq]
    by_cases hSingle : space.single addr = true
    · rw [if_pos hSingle, if_pos ((ConfigSpace.single_iff hPresent).mp hSingle)]
      rfl
    · rw [if_neg hSingle, if_neg (mt (ConfigSpace.single_iff hPresent).mpr hSingle)]
      rfl
  · rw [if_pos ((ofNat_leValue_eq ConfigSpace.length_load).mpr (not_not.mp hPresent))]
    refine ⟨s₁, hs₁, ?_⟩
    rw [ConfigSpace.found, if_neg hPresent, List.append_nil, ConfigSpace.single,
      if_neg (by simp [hPresent])]
    rfl

/-! ### All functions -/

/-- The function of a device on a bus, of five bits and three. -/
def functionAt (bus device function : UInt8) : PciAddress :=
  ⟨0, bus, device % 32, function % 8, by rw [UInt8.toNat_mod]; exact Nat.mod_lt _ (by decide),
    by rw [UInt8.toNat_mod]; exact Nat.mod_lt _ (by decide)⟩

theorem mem_u8Range {n : Nat} (hn : n ≤ 256) {b : UInt8} : b ∈ u8Range n ↔ b.toNat < n := by
  rw [u8Range, List.mem_map]
  constructor
  · rintro ⟨i, hi, rfl⟩
    rw [List.mem_range] at hi
    rw [UInt8.toNat_ofNat']
    omega
  · exact fun hb => ⟨b.toNat, List.mem_range.mpr hb, UInt8.ofNat_toNat⟩

theorem pairwise_u8Range {n : Nat} (hn : n ≤ 256) :
    (u8Range n).Pairwise fun a b => a.toNat < b.toNat := by
  rw [u8Range, List.pairwise_map]
  refine List.pairwise_lt_range.imp_of_mem fun ha hb hLt => ?_
  rw [List.mem_range] at ha hb
  rw [UInt8.toNat_ofNat', UInt8.toNat_ofNat']
  omega

theorem device_functionAt {bus device function : UInt8} (hDevice : device.toNat < 32) :
    (functionAt bus device function).device = device := UInt8.mod_eq_of_lt hDevice

theorem function_functionAt {bus device function : UInt8} (hFunction : function.toNat < 8) :
    (functionAt bus device function).function = function := UInt8.mod_eq_of_lt hFunction

theorem functionAt_self (hSegment : addr.segment = 0) :
    functionAt addr.bus addr.device addr.function = addr := by
  have hDevice : (functionAt addr.bus addr.device addr.function).device = addr.device :=
    device_functionAt addr.device_lt
  have hFunction : (functionAt addr.bus addr.device addr.function).function = addr.function :=
    function_functionAt addr.function_lt
  exact PciAddress.mk.injEq .. ▸ ⟨hSegment.symm, rfl, hDevice, hFunction⟩

namespace ConfigSpace

variable (space : ConfigSpace) (bus device function : UInt8)

def functionReports : List PciReport := space.found (functionAt bus device function)

/-- The functions of a device up to the one that leaves the loop. -/
def visitedFunctions : List UInt8 :=
  visited (fun function => space.single (functionAt bus device function)) (u8Range 8)

def deviceReports : List PciReport :=
  (space.visitedFunctions bus device).flatMap (space.functionReports bus device)

def busReports : List PciReport := (u8Range 32).flatMap (space.deviceReports bus)

def reports : List PciReport := (u8Range 256).flatMap space.busReports

end ConfigSpace

theorem run_visitFunction_at {space : ConfigSpace} (hs : s.space = space)
    {bus device function : UInt8} (hDevice : device.toNat < 32) (hFunction : function.toNat < 8)
    (reports : List PciReport) : ∃ t : PciPorts, t.space = space ∧
      (visitFunction bus device function reports).run s =
        (if space.single (functionAt bus device function) then
            .done (reports ++ space.functionReports bus device function)
          else .yield (reports ++ space.functionReports bus device function), t) := by
  have hVisit := run_visitFunction hs (rfl : (functionAt bus device function).segment = 0) reports
  rwa [device_functionAt hDevice, function_functionAt hFunction] at hVisit

theorem run_visitDevice {space : ConfigSpace} (hs : s.space = space) {bus device : UInt8}
    (hDevice : device.toNat < 32) (reports : List PciReport) : ∃ t : PciPorts, t.space = space ∧
      (visitDevice bus device reports).run s =
        (.yield (reports ++ space.deviceReports bus device), t) := by
  obtain ⟨t, ht, hLoop⟩ := forIn_collect _ (fun function hFunction reports s hs =>
    run_visitFunction_at hs hDevice ((mem_u8Range (by decide)).mp hFunction) reports) reports hs
  exact ⟨t, ht, run_bind hLoop _⟩

theorem run_visitBus {space : ConfigSpace} (hs : s.space = space) (bus : UInt8)
    (reports : List PciReport) : ∃ t : PciPorts, t.space = space ∧
      (visitBus bus reports).run s = (.yield (reports ++ space.busReports bus), t) := by
  obtain ⟨t, ht, hLoop⟩ := forIn_collect_all (fun device hDevice reports s hs =>
    run_visitDevice hs ((mem_u8Range (by decide)).mp hDevice) reports) reports hs
  exact ⟨t, ht, run_bind hLoop _⟩

theorem run_enumeratePci (s : PciPorts) : ∃ t : PciPorts, t.space = s.space ∧
    enumeratePci.run s = (s.space.reports, t) := by
  obtain ⟨t, ht, hLoop⟩ := forIn_collect_all (fun bus (_ : bus ∈ u8Range 256) reports s₁ hs₁ =>
    run_visitBus hs₁ bus reports) [] (rfl : s.space = s.space)
  refine ⟨t, ht, ?_⟩
  rw [enumeratePci, hLoop, List.nil_append, ConfigSpace.reports]

namespace ConfigSpace

variable {space : ConfigSpace} {bus device function : UInt8} {r : PciReport}

theorem mem_found : r ∈ space.found addr ↔ space.Present addr ∧ r = space.report addr := by
  rw [found]
  split
  · rename_i hPresent
    rw [List.mem_singleton, and_iff_right hPresent]
  · rename_i hAbsent
    simp [hAbsent]

theorem single_eq_false (hFunction : addr.function ≠ 0) : space.single addr = false :=
  decide_eq_false fun hSingle => hFunction hSingle.2.1

theorem reported_functionAt (hFunction : function.toNat < 8) :
    space.Reported (functionAt bus device function) ↔
      space.Present (functionAt bus device function) ∧
        (function = 0 ∨ space.single (functionAt bus device 0) = false) := by
  rw [Reported, function_functionAt hFunction, single, decide_eq_false_iff_not]
  change _ ∧ (_ ∨ ¬space.Present (functionAt bus device 0) ∨
    space.MultiFunction (functionAt bus device 0)) ↔ _
  have hZero : (functionAt bus device 0).function = 0 := function_functionAt (by decide)
  rw [hZero, eq_self_iff_true, true_and, not_and_or, not_not]

theorem mem_visitedFunctions : function ∈ space.visitedFunctions bus device ↔
    function.toNat < 8 ∧ (function = 0 ∨ space.single (functionAt bus device 0) = false) := by
  have hRange : u8Range 8 = 0 :: (u8Range 8).tail := rfl
  have hOrder := pairwise_u8Range (by decide : 8 ≤ 256)
  rw [hRange, List.pairwise_cons] at hOrder
  rw [← mem_u8Range (by decide), visitedFunctions, hRange]
  apply mem_visited_cons
  intro function hFunction
  apply single_eq_false
  intro hZero
  have hMem : function ∈ u8Range 8 := hRange ▸ List.mem_cons_of_mem 0 hFunction
  rw [function_functionAt ((mem_u8Range (by decide)).mp hMem)] at hZero
  subst hZero
  exact Nat.lt_irrefl _ (hOrder.1 0 hFunction)

theorem mem_deviceReports : r ∈ space.deviceReports bus device ↔ ∃ function : UInt8,
    function.toNat < 8 ∧ space.Reported (functionAt bus device function) ∧
      r = space.report (functionAt bus device function) := by
  rw [deviceReports, List.mem_flatMap]
  apply exists_congr
  intro function
  rw [mem_visitedFunctions, functionReports, mem_found, and_assoc]
  apply and_congr_right
  intro hFunction
  rw [reported_functionAt hFunction, and_left_comm, ← and_assoc]

theorem mem_reports : r ∈ space.reports ↔
    ∃ addr, addr.segment = 0 ∧ space.Reported addr ∧ r = space.report addr := by
  simp only [reports, busReports, List.mem_flatMap, mem_deviceReports]
  constructor
  · rintro ⟨bus, -, device, -, function, -, hReported, rfl⟩
    exact ⟨functionAt bus device function, rfl, hReported, rfl⟩
  · rintro ⟨addr, hSegment, hReported, rfl⟩
    refine ⟨addr.bus, (mem_u8Range (Nat.le_refl _)).mpr addr.bus.toNat_lt, addr.device,
      (mem_u8Range (by decide)).mpr addr.device_lt, addr.function, addr.function_lt, ?_⟩
    rw [functionAt_self hSegment]
    exact ⟨hReported, rfl⟩

theorem function_of_mem_functionReports (hFunction : function.toNat < 8)
    (h : r ∈ space.functionReports bus device function) : r.function = function := by
  obtain ⟨-, rfl⟩ := mem_found.mp h
  have hPlace : (functionAt bus device function).function = function :=
    function_functionAt hFunction
  exact hPlace

theorem place_of_mem_deviceReports (hDevice : device.toNat < 32)
    (h : r ∈ space.deviceReports bus device) : r.bus = bus ∧ r.device = device := by
  obtain ⟨function, -, -, rfl⟩ := mem_deviceReports.mp h
  have hPlace : (functionAt bus device function).device = device := device_functionAt hDevice
  exact ⟨rfl, hPlace⟩

theorem bus_of_mem_busReports (h : r ∈ space.busReports bus) : r.bus = bus := by
  rw [busReports, List.mem_flatMap] at h
  obtain ⟨device, hDevice, h⟩ := h
  exact (place_of_mem_deviceReports ((mem_u8Range (by decide)).mp hDevice) h).1

theorem pairwise_deviceReports : (space.deviceReports bus device).Pairwise PciReport.Before := by
  rw [deviceReports, List.pairwise_flatMap]
  constructor
  · intro function _
    rw [functionReports, found]
    split
    · exact List.pairwise_singleton ..
    · exact .nil
  · have hOrder : (space.visitedFunctions bus device).Pairwise fun a b => a.toNat < b.toNat :=
      (pairwise_u8Range (by decide)).sublist (visited_sublist ..)
    refine hOrder.imp_of_mem fun hf hg hLt r hr q hq => .inr ?_
    rw [← function_of_mem_functionReports (mem_visitedFunctions.mp hf).1 hr,
      ← function_of_mem_functionReports (mem_visitedFunctions.mp hg).1 hq] at hLt
    obtain ⟨-, rfl⟩ := mem_found.mp hr
    obtain ⟨-, rfl⟩ := mem_found.mp hq
    exact ⟨rfl, .inr ⟨rfl, hLt⟩⟩

theorem pairwise_busReports : (space.busReports bus).Pairwise PciReport.Before := by
  rw [busReports, List.pairwise_flatMap]
  refine ⟨fun device _ => pairwise_deviceReports, ?_⟩
  refine (pairwise_u8Range (by decide)).imp_of_mem fun hd he hLt r hr q hq => .inr ?_
  obtain ⟨hBus, hDevice⟩ := place_of_mem_deviceReports ((mem_u8Range (by decide)).mp hd) hr
  obtain ⟨hBus', hDevice'⟩ := place_of_mem_deviceReports ((mem_u8Range (by decide)).mp he) hq
  rw [hBus, hBus', hDevice, hDevice']
  exact ⟨rfl, .inl hLt⟩

theorem pairwise_reports : space.reports.Pairwise PciReport.Before := by
  rw [reports, List.pairwise_flatMap]
  refine ⟨fun bus _ => pairwise_busReports, ?_⟩
  refine (pairwise_u8Range (Nat.le_refl _)).imp fun hLt r hr q hq => .inl ?_
  rwa [bus_of_mem_busReports hr, bus_of_mem_busReports hq]

end ConfigSpace

theorem PciReport.Before.ne {r q : PciReport} (h : r.Before q) : r ≠ q := by
  rintro rfl
  rcases h with hBus | ⟨-, hDevice | ⟨-, hFunction⟩⟩
  · exact Nat.lt_irrefl _ hBus
  · exact Nat.lt_irrefl _ hDevice
  · exact Nat.lt_irrefl _ hFunction

/-- The enumeration reports exactly the functions that are there, each once, in ascending order, and
leaves configuration space alone. -/
theorem enumeratePci_complete (s : PciPorts) : ∃ reports t, enumeratePci.run s = (reports, t) ∧
    t.space = s.space ∧ reports.Pairwise PciReport.Before ∧ reports.Nodup ∧
    ∀ r, r ∈ reports ↔
      ∃ addr, addr.segment = 0 ∧ s.space.Reported addr ∧ r = s.space.report addr := by
  obtain ⟨t, ht, hRun⟩ := run_enumeratePci s
  exact ⟨_, t, hRun, ht, ConfigSpace.pairwise_reports,
    ConfigSpace.pairwise_reports.imp PciReport.Before.ne, fun r => ConfigSpace.mem_reports⟩

end RixOs

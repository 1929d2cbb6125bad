import RixOs.Acpi
import RixOs.ProofKit.Triples

/-! The interrupt controllers of `apic.rs`: `apic::init` takes the addresses of the local APIC and
of the I/O APICs from the MADT, keeps them in `LAPIC` and `IOAPIC`, and sets the controllers up.

The tables are parsed by the acpi crate and the controllers are driven by x2apic.  What these return
is a parameter, and what the controllers are asked to do is recorded in order.  What is logged on
the way is left out. -/

namespace RixOs

open ProofKit
open Acpi (Failure physicalToVirtual)

/-- A redirection table entry in the mode `Fixed`. -/
structure RedirectionTableEntry where
  vector : UInt8
  dest : UInt8
  deriving DecidableEq, Repr

/-- What is asked of a controller: of an 8259 by its port, of the others by their base address. -/
inductive DeviceCall
  | pic (port : UInt16) (value : UInt8)
  | ioapicInit (base : Nat) (offset : UInt8)
  | ioapicSetTableEntry (base : Nat) (irq : UInt8) (entry : RedirectionTableEntry)
  | ioapicEnableIrq (base : Nat) (irq : UInt8)
  | lapicEnable (base : Nat)
  deriving DecidableEq, Repr

/-- The `IoApic` of x2apic, by its base address. -/
structure IoApic where
  base : Nat
  deriving DecidableEq, Repr

structure LocalApicBuilder where
  timerVector : Nat
  errorVector : Nat
  spuriousVector : Nat
  xapicBase : Nat
  deriving DecidableEq, Repr

/-- The `LocalApic` of x2apic, by its base address. -/
structure LocalApic where
  base : Nat
  deriving DecidableEq, Repr

structure IOApic where
  addr : Nat
  ioapic : Option IoApic
  deriving DecidableEq, Repr

structure LApic where
  addr : Nat
  lapic : Option LocalApic
  deriving DecidableEq, Repr

inductive InterruptModel
  | apic (localApicAddress : UInt64) (ioApics : List UInt32)
  | other

structure ApicFirmware extends Firmware where
  acpiPlatform : AcpiTables → Except String InterruptModel
  buildLocalApic : LocalApicBuilder → Except String LocalApic

/-- `IOAPIC`, `LAPIC` and the calls so far. -/
structure Apics where
  ioapic : Option (List IOApic)
  lapic : Option LApic
  calls : List DeviceCall
  deriving DecidableEq, Repr

/-- A panic is the only way to stop here. -/
abbrev ApicProgram := Program Apics Failure

def DeviceCall.send (c : DeviceCall) : ApicProgram Unit :=
  modify fun s => { s with calls := s.calls ++ [c] }

/-- `unwrap`, which panics on `None`. -/
def unwrap {α : Type} : Option α → ApicProgram α
  | some a => return a
  | none => throw .panicked

/-- `physical_to_virtual(PhysAddr::new(addr)).as_u64()` -/
def ApicFirmware.translate (firmware : ApicFirmware) (addr : UInt64) : Except Failure Nat :=
  if addr.toNat < 2 ^ 52 then physicalToVirtual firmware.toFirmware addr.toNat
  else .error .panicked

namespace IOApic

def new (firmware : ApicFirmware) (addr : UInt64) : ApicProgram IOApic := do
  return ⟨← liftExcept (firmware.translate addr), none⟩

def init (self : IOApic) : IOApic := { self with ioapic := some ⟨self.addr⟩ }

def enable (self : IOApic) : ApicProgram Unit :=
  match self.ioapic with
  | none => return
  | some ioapic => do
    (DeviceCall.ioapicInit ioapic.base 32).send
    (DeviceCall.ioapicSetTableEntry ioapic.base 1 ⟨33, 0⟩).send
    (DeviceCall.ioapicEnableIrq ioapic.base 1).send

end IOApic

namespace LApic

def new (firmware : ApicFirmware) (addr : UInt64) : ApicProgram LApic := do
  return ⟨← liftExcept (firmware.translate addr), none⟩

/-- The writes that remap the two 8259 controllers and mask all their lines, with a write to port
0x80 where the source waits. -/
def remapPic : List DeviceCall :=
  [.pic 0x20 0x11, .pic 0xa0 0x11, .pic 0x80 0, .pic 0x21 0xf8, .pic 0xa1 0xff, .pic 0x80 0,
    .pic 0x21 0b100, .pic 0x80 0, .pic 0xa1 0b10, .pic 0x80 0, .pic 0x21 0x1, .pic 0xa1 0x1,
    .pic 0x80 0, .pic 0x21 0xff, .pic 0xa1 0xff]

def init (firmware : ApicFirmware) (self : LApic) : ApicProgram LApic := do
  forM remapPic DeviceCall.send
  return { self with lapic := (firmware.buildLocalApic ⟨32, 51, 0xff, self.addr⟩).toOption }

def enable (self : LApic) : ApicProgram Unit := do
  let lapic ← unwrap self.lapic
  (DeviceCall.lapicEnable lapic.base).send

end LApic

namespace Apic

variable (firmware : ApicFirmware)

def initLapic (lapicAddr : UInt64) : ApicProgram Unit := do
  -- `init_once`
  if (← get).lapic.isNone then
    let lapic ← LApic.new firmware lapicAddr
    modify fun s => { s with lapic := some lapic }
  let lapic ← (← unwrap (← get).lapic).init firmware
  modify fun s => { s with lapic := some lapic }

def initIoapic (ioapicAddr : UInt64) : ApicProgram Unit := do
  -- `call_once`
  if (← get).ioapic.isNone then
    let ioapic ← IOApic.new firmware ioapicAddr
    modify fun s => { s with ioapic := some [ioapic] }
  let ioapics ← unwrap (← get).ioapic
  let ioapic ← IOApic.new firmware ioapicAddr
  modify fun s => { s with ioapic := some (ioapics ++ [ioapic]) }

/-- The loop that initialises and enables. -/
def enableIoapics : List IOApic → ApicProgram (List IOApic)
  | [] => return []
  | ioapic :: ioapics => do
    let ioapic := ioapic.init
    ioapic.enable
    return ioapic :: (← enableIoapics ioapics)

/-- The two loops of `init` over the I/O APICs. -/
def initIoapics (ioApics : List UInt32) : ApicProgram Unit := do
  forM ioApics fun address => initIoapic firmware address.toUInt64
  let ioapics ← enableIoapics (← unwrap (← get).ioapic)
  modify fun s => { s with ioapic := some ioapics }

def init (rsdpAddr : UInt64) : ApicProgram Unit := do
  let tables ← unwrap (firmware.fromRsdp rsdpAddr).toOption
  let interruptModel ← unwrap (firmware.acpiPlatform tables).toOption
  match interruptModel with
  | .apic localApicAddress ioApics => do
    initLapic firmware localApicAddress
    initIoapics firmware ioApics
    (← unwrap (← get).lapic).enable
  | .other => return

/-! ### What the loops leave -/

/-- The calls that set up the I/O APIC at `base`. -/
def setUp (base : Nat) : List DeviceCall :=
  [.ioapicInit base 32, .ioapicSetTableEntry base 1 ⟨33, 0⟩, .ioapicEnableIrq base 1]

/-- From a state in which `IOAPIC` is not initialised, the loops return and leave one entry for each
address, in order, each initialised and enabled once. -/
def Registers (ioApics : List UInt32) (s : Apics) : Prop :=
  ∃ (bases : List Nat) (s' : Apics),
      ioApics.map (fun address => firmware.translate address.toUInt64) = bases.map .ok ∧
    (initIoapics firmware ioApics).exec { s with ioapic := none } = (.ok (), s') ∧
    s'.ioapic = some (bases.map fun base => ⟨base, some ⟨base⟩⟩) ∧
    s'.calls = s.calls ++ bases.flatMap setUp

variable {firmware} {s : Apics}

section Calls

variable {addr : UInt64} {base : Nat} (h : firmware.translate addr = .ok base)
  (lapic : Option LApic) (calls : List DeviceCall)
include h

/-- The first call creates the vector with an entry and then appends the same entry. -/
theorem exec_initIoapic_none : (initIoapic firmware addr).exec ⟨none, lapic, calls⟩ =
    (.ok (), ⟨some [⟨base, none⟩, ⟨base, none⟩], lapic, calls⟩) := by
  unfold initIoapic
  simp only [IOApic.new, h]
  rfl

theorem exec_initIoapic_some (ioapics : List IOApic) :
    (initIoapic firmware addr).exec ⟨some ioapics, lapic, calls⟩ =
      (.ok (), ⟨some (ioapics ++ [⟨base, none⟩]), lapic, calls⟩) := by
  unfold initIoapic
  simp only [IOApic.new, h]
  rfl

end Calls

theorem exec_forM_initIoapic {addrs : List UInt32} {bases : List Nat}
    (h : addrs.map (fun address => firmware.translate address.toUInt64) = bases.map .ok)
    (ioapics : List IOApic) (lapic : Option LApic) (calls : List DeviceCall) :
    (forM addrs fun address => initIoapic firmware address.toUInt64).exec
        ⟨some ioapics, lapic, calls⟩ =
      (.ok (), ⟨some (ioapics ++ bases.map fun base => ⟨base, none⟩), lapic, calls⟩) := by
  induction addrs generalizing bases ioapics with
  | nil =>
    obtain rfl : bases = [] := List.map_eq_nil_iff.mp h.symm
    rw [List.map_nil, List.append_nil]
    rfl
  | cons addr addrs ih =>
    match bases, h with
    | base :: bases, h =>
      obtain ⟨hFirst, hRest⟩ := List.cons.inj h
      rw [List.forM_cons, exec_bind, exec_initIoapic_some hFirst]
      change (forM addrs fun address => initIoapic firmware address.toUInt64).exec _ = _
      rw [ih hRest, List.append_assoc, List.map_cons, List.singleton_append]

theorem exec_enable (base : Nat) : (IOApic.enable ⟨base, some ⟨base⟩⟩).exec s =
    (.ok (), { s with calls := s.calls ++ setUp base }) := by
  change (Except.ok (), { s with calls := s.calls ++ [_] ++ [_] ++ [_] }) = _
  rw [List.append_assoc, List.append_assoc]
  rfl

theorem exec_enableIoapics (bases : List Nat) (s : Apics) :
    (enableIoapics (bases.map fun base => ⟨base, none⟩)).exec s =
      (.ok (bases.map fun base => ⟨base, some ⟨base⟩⟩),
        { s with calls := s.calls ++ bases.flatMap setUp }) := by
  induction bases generalizing s with
  | nil =>
    rw [List.flatMap_nil, List.append_nil]
    rfl
  | cons base bases ih =>
    rw [List.map_cons, enableIoapics, IOApic.init, exec_bind, exec_enable]
    simp only
    rw [exec_bind, ih, List.append_assoc, ← List.flatMap_cons]
    rfl

/-- The loops panic where there is no I/O APIC; otherwise the first one is registered and set up
twice. -/
theorem exec_initIoapics_cons {addr : UInt32} {addrs : List UInt32} {base : Nat} {bases : List Nat}
    (h : (addr :: addrs).map (fun address => firmware.translate address.toUInt64) =
      (base :: bases).map .ok) (s : Apics) :
    (initIoapics firmware (addr :: addrs)).exec { s with ioapic := none } =
      (.ok (), { s with
        ioapic := some ((base :: base :: bases).map fun base => ⟨base, some ⟨base⟩⟩)
        calls := s.calls ++ (base :: base :: bases).flatMap setUp }) := by
  obtain ⟨hFirst, hRest⟩ := List.cons.inj h
  have hLoop : (forM (addr :: addrs) fun address => initIoapic firmware address.toUInt64).exec
      { s with ioapic := none } =
        (.ok (), { s with
          ioapic := some ((base :: base :: bases).map fun base => ⟨base, none⟩) }) := by
    rw [List.forM_cons, exec_bind, exec_initIoapic_none hFirst]
    exact exec_forM_initIoapic hRest _ _ _
  rw [initIoapics, exec_bind, hLoop]
  change ((enableIoapics ((base :: base :: bases).map fun base => ⟨base, none⟩) >>= _).exec _) = _
  rw [exec_bind, exec_enableIoapics]
  rfl

theorem exec_initIoapics_nil (s : Apics) :
    (initIoapics firmware []).exec { s with ioapic := none } =
      (.error .panicked, { s with ioapic := none }) := rfl

/-- Whatever the MADT reports, the I/O APICs are not registered one by one. -/
theorem never_registers (firmware : ApicFirmware) (ioApics : List UInt32) (s : Apics) :
    ¬Registers firmware ioApics s := by
  rintro ⟨bases, s', hBases, hExec, hIoapic, -⟩
  match ioApics, bases, hBases with
  | [], _, _ =>
    rw [exec_initIoapics_nil] at hExec
    cases hExec
  | addr :: addrs, base :: bases, hBases =>
    rw [exec_initIoapics_cons hBases] at hExec
    obtain ⟨-, rfl⟩ := Prod.mk.inj hExec
    have hLength := congrArg List.length (Option.some.inj hIoapic)
    simp at hLength

/-- A machine with one I/O APIC and physical memory mapped at 0. -/
def sampleFirmware : ApicFirmware where
  toFirmware := Acpi.sampleFirmware 0
  acpiPlatform _ := .ok (.apic 0xfee00000 [0xfec00000])
  buildLocalApic builder := .ok ⟨builder.xapicBase⟩

/-- One I/O APIC is registered and set up twice, and none is a panic. -/
theorem ioapic_registered_twice :
    ((init sampleFirmware 0xe0000).exec ⟨none, none, []⟩).2.ioapic =
        some [⟨0xfec00000, some ⟨0xfec00000⟩⟩, ⟨0xfec00000, some ⟨0xfec00000⟩⟩] ∧
      ¬Registers sampleFirmware [0xfec00000] ⟨none, none, []⟩ ∧
      (initIoapics sampleFirmware []).exec ⟨none, none, []⟩ =
        (.error .panicked, ⟨none, none, []⟩) := by
  refine ⟨rfl, fun ⟨bases, s', hBases, hExec, hIoapic, _⟩ => ?_, rfl⟩
  match bases, hBases with
  | [base], hBases =>
    rw [exec_initIoapics_cons hBases] at hExec
    obtain ⟨-, rfl⟩ := Prod.mk.inj hExec
    have hLength := congrArg List.length (Option.some.inj hIoapic)
    simp at hLength

end Apic

end RixOs

import RixOs.Apic

/-! What `apic::init` leaves, whatever the firmware reports and the crates return.  It returns in
two cases: the interrupt model is not APIC and nothing is done, or every controller can be set up.
The 8259 controllers are masked before an I/O APIC is touched, and the local APIC is enabled last. -/

namespace RixOs

open ProofKit
open Acpi (Failure)

namespace Apic

/-- The interrupt model that the tables report. -/
def Reports (firmware : ApicFirmware) (rsdpAddr : UInt64) (model : InterruptModel) : Prop :=
  ∃ tables, firmware.fromRsdp rsdpAddr = .ok tables ∧ firmware.acpiPlatform tables = .ok model

/-- Where the controllers of an APIC model are, with the local APIC that the builder returns. -/
structure Controllers where
  lapicBase : Nat
  lapic : LocalApic
  firstBase : Nat
  bases : List Nat

namespace Controllers

/-- The addresses of the model lead to the controllers. -/
structure Found (controllers : Controllers) (firmware : ApicFirmware) (localApicAddress : UInt64)
    (ioApics : List UInt32) : Prop where
  lapicBase : firmware.translate localApicAddress = .ok controllers.lapicBase
  lapic : firmware.buildLocalApic ⟨32, 51, 0xff, controllers.lapicBase⟩ = .ok controllers.lapic
  bases : ioApics.map (fun address => firmware.translate address.toUInt64) =
    (controllers.firstBase :: controllers.bases).map .ok

/-- The I/O APICs that are set up: the first one twice. -/
def setUps (controllers : Controllers) : List Nat :=
  controllers.firstBase :: controllers.firstBase :: controllers.bases

/-- What `init` leaves. -/
def apics (controllers : Controllers) : Apics where
  ioapic := some (controllers.setUps.map fun base => ⟨base, some ⟨base⟩⟩)
  lapic := some ⟨controllers.lapicBase, some controllers.lapic⟩
  calls := LApic.remapPic ++ controllers.setUps.flatMap setUp ++
    [.lapicEnable controllers.lapic.base]

end Controllers

variable {firmware : ApicFirmware}

/-! ### The I/O APICs -/

section Register

variable {addr : UInt64} {failure : Failure}

theorem exec_initIoapic_error (h : firmware.translate addr = .error failure) (s : Apics) :
    (initIoapic firmware addr).exec s = (.error failure, s) := by
  unfold initIoapic
  simp only [IOApic.new, h]
  obtain ⟨_ | ioapics, lapic, calls⟩ := s <;> rfl

theorem exec_initIoapic_ok {base : Nat} (h : firmware.translate addr = .ok base) (s : Apics) :
    ∃ ioapics, (initIoapic firmware addr).exec s =
      (.ok (), { s with ioapic := some ioapics }) := by
  obtain ⟨_ | ioapics, lapic, calls⟩ := s
  · exact ⟨_, exec_initIoapic_none h lapic calls⟩
  · exact ⟨_, exec_initIoapic_some h lapic calls ioapics⟩

/-- Some address is not mapped. -/
def Unmapped (firmware : ApicFirmware) (addrs : List UInt32) : Prop :=
  ∃ address ∈ addrs, ∃ failure, firmware.translate address.toUInt64 = .error failure

theorem Unmapped.map_ne {addrs : List UInt32} (h : Unmapped firmware addrs) (bases : List Nat) :
    addrs.map (fun address => firmware.translate address.toUInt64) ≠ bases.map .ok := by
  intro hBases
  obtain ⟨address, hMem, failure, hFailure⟩ := h
  have hError := List.mem_map_of_mem (f := fun address => firmware.translate address.toUInt64) hMem
  rw [hBases, hFailure] at hError
  obtain ⟨base, -, hBase⟩ := List.mem_map.mp hError
  cases hBase

/-- The loop that registers I/O APICs sends no call, and panics at an address that is not mapped. -/
theorem register_triple (firmware : ApicFirmware) (addrs : List UInt32) (calls : List DeviceCall) :
    Triple (fun s => s.calls = calls)
      (forM addrs fun address => initIoapic firmware address.toUInt64)
      (fun _ s => s.calls = calls ∧ ∃ bases : List Nat,
        addrs.map (fun address => firmware.translate address.toUInt64) = bases.map .ok)
      (fun _ s => s.calls = calls ∧ Unmapped firmware addrs) := by
  refine (Triple.forM (I := fun done s => s.calls = calls ∧ ∃ bases : List Nat,
    done.map (fun address => firmware.translate address.toUInt64) = bases.map .ok)
    ?_).imp (fun s hs => ⟨hs, [], rfl⟩) (fun _ _ h => h) (fun _ _ h => h)
  rintro done address rest hItems s ⟨hCalls, bases, hBases⟩
  match hAddress : firmware.translate address.toUInt64 with
  | .error failure =>
    rw [exec_initIoapic_error hAddress]
    exact ⟨hCalls, address, by rw [hItems]; simp, failure, hAddress⟩
  | .ok base =>
    obtain ⟨ioapics, hExec⟩ := exec_initIoapic_ok hAddress s
    rw [hExec]
    refine ⟨hCalls, bases ++ [base], ?_⟩
    rw [List.map_append, List.map_append, hBases, List.map_singleton, hAddress]
    rfl

end Register

/-- Both loops: they return where there is an I/O APIC and all addresses are mapped, and a panic
comes before the first call. -/
theorem initIoapics_triple (firmware : ApicFirmware) (addrs : List UInt32) (lapic : Option LApic)
    (calls : List DeviceCall) :
    Triple (fun s => s = ⟨none, lapic, calls⟩) (initIoapics firmware addrs)
      (fun _ s => ∃ base bases, addrs.map (fun address => firmware.translate address.toUInt64) =
          (base :: bases).map .ok ∧
        s = ⟨some ((base :: base :: bases).map fun base => ⟨base, some ⟨base⟩⟩), lapic,
          calls ++ (base :: base :: bases).flatMap setUp⟩)
      (fun _ s => s.calls = calls ∧ ∀ base bases,
        addrs.map (fun address => firmware.translate address.toUInt64) ≠
          (base :: bases).map .ok) := by
  rintro s rfl
  have hRegister := register_triple firmware addrs calls
  match hLoop : (forM addrs fun address => initIoapic firmware address.toUInt64).exec
      ⟨none, lapic, calls⟩ with
  | (.error failure, s) =>
    obtain ⟨hCalls, hUnmapped⟩ := hRegister.error rfl hLoop
    rw [initIoapics, exec_bind, hLoop]
    exact ⟨hCalls, fun base bases => hUnmapped.map_ne (base :: bases)⟩
  | (.ok _, s) =>
    obtain ⟨-, bases, hBases⟩ := hRegister.ok rfl hLoop
    cases addrs with
    | nil =>
      rw [exec_initIoapics_nil ⟨none, lapic, calls⟩]
      exact ⟨rfl, fun base bases h => by cases h⟩
    | cons addr addrs =>
      cases bases with
      | nil => cases hBases
      | cons base bases =>
        rw [exec_initIoapics_cons hBases ⟨none, lapic, calls⟩]
        exact ⟨base, bases, hBases, rfl⟩

/-! ### The local APIC -/

theorem exec_initLapic (addr : UInt64) : (initLapic firmware addr).exec ⟨none, none, []⟩ =
    match firmware.translate addr with
    | .error failure => (.error failure, ⟨none, none, []⟩)
    | .ok base => (.ok (), ⟨none,
        some ⟨base, (firmware.buildLocalApic ⟨32, 51, 0xff, base⟩).toOption⟩, LApic.remapPic⟩) := by
  unfold initLapic
  simp only [LApic.new]
  cases h : firmware.translate addr with
  | error failure => rfl
  | ok base => rfl

/-! ### All of `init` -/

variable {rsdpAddr : UInt64} {model : InterruptModel} {address : UInt64} {ioApics : List UInt32}

theorem exec_init_reports (h : Reports firmware rsdpAddr model) (s : Apics) :
    (init firmware rsdpAddr).exec s = Program.exec (match model with
      | .apic localApicAddress ioApics => do
        initLapic firmware localApicAddress
        initIoapics firmware ioApics
        (← unwrap (← get).lapic).enable
      | .other => return) s := by
  obtain ⟨tables, hTables, hModel⟩ := h
  rw [init, hTables]
  change (unwrap (firmware.acpiPlatform tables).toOption >>= _ : ApicProgram Unit).exec s = _
  rw [hModel]
  rfl

theorem exec_init_unreported (h : ∀ model, ¬Reports firmware rsdpAddr model) (s : Apics) :
    (init firmware rsdpAddr).exec s = (.error .panicked, s) := by
  rw [init]
  match hTables : firmware.fromRsdp rsdpAddr with
  | .error _ => rfl
  | .ok tables =>
    change (unwrap (firmware.acpiPlatform tables).toOption >>= _ : ApicProgram Unit).exec s = _
    match hModel : firmware.acpiPlatform tables with
    | .error _ => rfl
    | .ok model => exact absurd ⟨tables, hTables, hModel⟩ (h model)

theorem Reports.unique {model' : InterruptModel} (h : Reports firmware rsdpAddr model)
    (h' : Reports firmware rsdpAddr model') : model = model' := by
  obtain ⟨tables, hTables, hModel⟩ := h
  obtain ⟨tables', hTables', hModel'⟩ := h'
  obtain rfl := Except.ok.inj (hTables.symm.trans hTables')
  exact Except.ok.inj (hModel.symm.trans hModel')

theorem lapicEnable_notMem (bases : List Nat) (base : Nat) :
    .lapicEnable base ∉ LApic.remapPic ++ bases.flatMap setUp := by
  simp [LApic.remapPic, setUp]

/-- The three steps of an APIC model. -/
theorem exec_init_apic (h : Reports firmware rsdpAddr (.apic address ioApics)) :
    match (init firmware rsdpAddr).exec ⟨none, none, []⟩ with
    | (.ok _, s) => ∃ controllers : Controllers, controllers.Found firmware address ioApics ∧
        s = controllers.apics
    | (.error _, s) => (∀ controllers : Controllers, ¬controllers.Found firmware address ioApics) ∧
        (s.calls = [] ∨ LApic.remapPic <+: s.calls ∧ ∀ base, .lapicEnable base ∉ s.calls) := by
  rw [exec_init_reports h]
  simp only
  rw [exec_bind, exec_initLapic]
  match hLapic : firmware.translate address with
  | .error failure =>
    refine ⟨fun controllers hFound => ?_, .inl rfl⟩
    cases hLapic.symm.trans hFound.lapicBase
  | .ok lapicBase =>
    have hLoops := initIoapics_triple firmware ioApics
      (some ⟨lapicBase, (firmware.buildLocalApic ⟨32, 51, 0xff, lapicBase⟩).toOption⟩)
      LApic.remapPic
    simp only
    rw [exec_bind]
    match hExec : (initIoapics firmware ioApics).exec ⟨none,
        some ⟨lapicBase, (firmware.buildLocalApic ⟨32, 51, 0xff, lapicBase⟩).toOption⟩,
        LApic.remapPic⟩ with
    | (.error failure, s) =>
      obtain ⟨hCalls, hNone⟩ := hLoops.error rfl hExec
      refine ⟨fun controllers hFound => hNone _ _ hFound.bases, .inr ?_⟩
      rw [hCalls]
      exact ⟨List.prefix_refl _, fun base => by simpa using lapicEnable_notMem [] base⟩
    | (.ok _, s) =>
      obtain ⟨base, bases, hBases, rfl⟩ := hLoops.ok rfl hExec
      match hBuild : firmware.buildLocalApic ⟨32, 51, 0xff, lapicBase⟩ with
      | .error text =>
        refine ⟨fun controllers hFound => ?_, .inr ⟨List.prefix_append _ _, fun base => ?_⟩⟩
        · have hLapicBase := Except.ok.inj (hLapic.symm.trans hFound.lapicBase)
          have hFoundLapic := hFound.lapic
          rw [← hLapicBase, hBuild] at hFoundLapic
          cases hFoundLapic
        · exact lapicEnable_notMem _ base
      | .ok lapic =>
        exact ⟨⟨lapicBase, lapic, base, bases⟩, ⟨hLapic, hBuild, hBases⟩, rfl⟩

/-- `init` returns where the interrupt model is not APIC, with nothing done, and where all
controllers are found, with the 8259 controllers masked, the I/O APICs set up and the local APIC
enabled, in this order.  Everywhere else it panics: before the first call, or after the 8259
controllers are masked, but never with the local APIC enabled. -/
theorem init_outcome (firmware : ApicFirmware) (rsdpAddr : UInt64) :
    match (init firmware rsdpAddr).exec ⟨none, none, []⟩ with
    | (.ok _, s) => Reports firmware rsdpAddr .other ∧ s = ⟨none, none, []⟩ ∨
        ∃ (address : UInt64) (ioApics : List UInt32) (controllers : Controllers),
          Reports firmware rsdpAddr (.apic address ioApics) ∧
          controllers.Found firmware address ioApics ∧ s = controllers.apics
    | (.error _, s) => ¬Reports firmware rsdpAddr .other ∧
        (∀ (address : UInt64) (ioApics : List UInt32) (controllers : Controllers),
          Reports firmware rsdpAddr (.apic address ioApics) →
            ¬controllers.Found firmware address ioApics) ∧
        (s.calls = [] ∨ LApic.remapPic <+: s.calls ∧ ∀ base, .lapicEnable base ∉ s.calls) := by
  by_cases hReports : ∃ model, Reports firmware rsdpAddr model
  · obtain ⟨model, hModel⟩ := hReports
    match model with
    | .other =>
      rw [exec_init_reports hModel]
      exact .inl ⟨hModel, rfl⟩
    | .apic address ioApics =>
      have hApic := exec_init_apic hModel
      match hExec : (init firmware rsdpAddr).exec ⟨none, none, []⟩ with
      | (.ok _, s) =>
        rw [hExec] at hApic
        obtain ⟨controllers, hFound, rfl⟩ := hApic
        exact .inr ⟨address, ioApics, controllers, hModel, hFound, rfl⟩
      | (.error _, s) =>
        rw [hExec] at hApic
        refine ⟨fun hOther => ?_, fun address' ioApics' controllers hModel' hFound => ?_, hApic.2⟩
        · cases hModel.unique hOther
        · cases hModel.unique hModel'
          exact hApic.1 controllers hFound
  · have hNone : ∀ model, ¬Reports firmware rsdpAddr model :=
      fun model hModel => hReports ⟨model, hModel⟩
    rw [exec_init_unreported hNone]
    exact ⟨hNone _, fun address ioApics controllers hModel => absurd hModel (hNone _), .inl rfl⟩

end Apic

end RixOs

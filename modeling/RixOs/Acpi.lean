import RixOs.Handlers

/-! Power-off through ACPI: `acpi::init` takes the port and the sleep type of state S5 from the
firmware tables and leaves them in `ACPI_SHUTDOWN`, and `acpi::shutdown` writes them to the port.

The tables are parsed by the acpi and aml crates.  What these return is a parameter, with the text
that an error prints as. -/

namespace RixOs

inductive AmlValue
  | integer (value : UInt64)
  | package (elements : List AmlValue)
  | other

structure AmlName where
  path : String
  deriving DecidableEq, Repr

/-- The DSDT, by its place in physical memory. -/
structure AmlTable where
  physAddress : Nat
  length : UInt32

structure Fadt where
  pm1aControlBlock : Except String UInt64

structure AcpiTables where
  dsdt : Except String AmlTable
  fadt : Option Fadt

/-- What the crates return on this machine.  `parseTable` reads AML at a virtual address. -/
structure Firmware where
  fromRsdp : UInt64 → Except String AcpiTables
  physicalMemoryOffset : Option Nat
  parseTable : Nat → Nat → Except String (AmlName → Except String AmlValue)
  amlName : String → Except String AmlName

namespace Acpi

/-- Why `init` stops before it has its values: an error that it logs, or a panic. -/
inductive Failure
  | logged (text : String)
  | panicked
  deriving DecidableEq, Repr

def orLog {α : Type} (text : String) : Except String α → Except Failure α
  | .ok a => .ok a
  | .error e => .error (.logged (text ++ e))

/-- `VirtAddr::new` panics unless bits 47 to 63 are equal. -/
def physicalToVirtual (firmware : Firmware) (addr : Nat) : Except Failure Nat :=
  match firmware.physicalMemoryOffset with
  | none => .error .panicked
  | some phys =>
    let virt := phys + addr
    if virt < 2 ^ 47 ∨ 2 ^ 64 - 2 ^ 47 ≤ virt ∧ virt < 2 ^ 64 then .ok virt
    else .error .panicked

def acpiTableHeaderSize : Nat := 36

/-- The block that computes `slp_typ_a`. -/
def sleepType (firmware : Firmware) (dsdt : AmlTable) : Except Failure UInt16 := do
  if 2 ^ 52 ≤ dsdt.physAddress then throw .panicked
  let ptr ← physicalToVirtual firmware dsdt.physAddress
  if dsdt.length.toNat < acpiTableHeaderSize then throw .panicked
  let ns ← orLog "Failed to parse AML stream. Err = "
    (firmware.parseTable (ptr + acpiTableHeaderSize) (dsdt.length.toNat - acpiTableHeaderSize))
  let name ← orLog "Failed to create AML name: " (firmware.amlName "\\_S5")
  match ← orLog "Failed to get \\_S5: " (ns name) with
  | .package (.integer v :: _) => return v.toUInt16
  | .package _ => throw (.logged "\\_S5[0] is not an Integer")
  | _ => throw (.logged "\\_S5 is not a Package")

def sleepParameters (firmware : Firmware) (rsdpAddr : UInt64) :
    Except Failure (UInt64 × UInt16) := do
  let tables ← orLog "Failed to parse ACPI tables: " (firmware.fromRsdp rsdpAddr)
  let dsdt ← orLog "Failed to get DSDT table: " tables.dsdt
  let some fadt := tables.fadt | throw (.logged "Failed to get FADT table")
  let pm1aControlBlock ← orLog "PM1A control block not found in FADT: " fadt.pm1aControlBlock
  return (pm1aControlBlock, ← sleepType firmware dsdt)

/-- `ACPI_SHUTDOWN` and what was logged. -/
structure State where
  shutdown : AcpiShutdown
  messages : List (Level × String)

def State.boot : State := ⟨⟨0, 0, 0, true⟩, []⟩

def hex (n : Nat) : String := "0x" ++ String.ofList (Nat.toDigits 16 n)

/-- `acpi::init`; the state is lost in a panic. -/
def init (firmware : Firmware) (rsdpAddr : UInt64) (s : State) : Option State :=
  match sleepParameters firmware rsdpAddr with
  | .ok (pm1aControlBlock, slpTypA) =>
    let slpLen : UInt16 := (1 : UInt16) <<< 13
    some ⟨⟨pm1aControlBlock, slpTypA, slpLen, false⟩, s.messages ++
      [(.debug, "PM1A Control Block: " ++ hex pm1aControlBlock.toNat),
        (.debug, "S5 Sleep Type: " ++ hex slpTypA.toNat),
        (.debug, "S5 Sleep Length: " ++ hex slpLen.toNat)]⟩
  | .error (.logged text) =>
    some { s with messages := s.messages ++
      [(.error, text), (.warn, "Using QEMU fallback for shutdown")] }
  | .error .panicked => none

/-! ### The S5 request -/

/-- The tables give the PM1a control block at `address` and a `\_S5` package that starts with
`v`. -/
def Describes (firmware : Firmware) (rsdpAddr address v : UInt64) : Prop :=
  ∃ tables dsdt fadt ptr ns name rest, firmware.fromRsdp rsdpAddr = .ok tables ∧
    tables.dsdt = .ok dsdt ∧ tables.fadt = some fadt ∧ fadt.pm1aControlBlock = .ok address ∧
    physicalToVirtual firmware dsdt.physAddress = .ok ptr ∧
    firmware.parseTable (ptr + acpiTableHeaderSize)
      (dsdt.length.toNat - acpiTableHeaderSize) = .ok ns ∧
    firmware.amlName "\\_S5" = .ok name ∧ ns name = .ok (.package (.integer v :: rest))

/-- Bits 10 to 12 of PM1_CNT. -/
def slpTyp (value : UInt16) : Nat := value.toNat / 2 ^ 10 % 8

/-- Bit 13 of PM1_CNT. -/
def slpEn (value : UInt16) : Prop := value.toNat / 2 ^ 13 % 2 = 1

/-- `shutdown` writes a request for S5 with sleep type `v` to the port at `address`. -/
def RequestsS5 (info : AcpiShutdown) (address v : UInt64) : Prop :=
  ∃ (port value : UInt16), info.portWrite = (port, value.toUInt32) ∧
    port.toNat = address.toNat ∧ slpTyp value = v.toNat ∧ slpEn value

/-- The table lies where it is mapped, and it is as long as a table header. -/
def Readable (firmware : Firmware) (dsdt : AmlTable) : Prop :=
  dsdt.physAddress < 2 ^ 52 ∧ (∃ ptr, physicalToVirtual firmware dsdt.physAddress = .ok ptr) ∧
    acpiTableHeaderSize ≤ dsdt.length.toNat

variable {firmware : Firmware} {rsdpAddr address v : UInt64} {s s' : State}

theorem ok_ne_logged {α : Type} (a : α) (text : String) :
    (.ok a : Except Failure α) ≠ .error (.logged text) := fun h => by cases h

theorem panicked_ne_logged {α : Type} (text : String) :
    (.error .panicked : Except Failure α) ≠ .error (.logged text) := fun h => by cases h

/-- A result that is not a logged error comes out of the steps after a lookup that succeeded. -/
theorem orLog_bind_iff {α β : Type} {text : String} {x : Except String α}
    {f : α → Except Failure β} {r : Except Failure β} (hr : ∀ text, r ≠ .error (.logged text)) :
    (orLog text x >>= f) = r ↔ ∃ a, x = .ok a ∧ f a = r := by
  constructor
  · intro h
    match x with
    | .ok a => exact ⟨a, rfl, h⟩
    | .error e => exact absurd h.symm (hr _)
  · rintro ⟨a, rfl, h⟩
    exact h

theorem sleepParameters_iff {r : Except Failure (UInt64 × UInt16)}
    (hr : ∀ text, r ≠ .error (.logged text)) :
    sleepParameters firmware rsdpAddr = r ↔ ∃ tables dsdt fadt address,
      firmware.fromRsdp rsdpAddr = .ok tables ∧ tables.dsdt = .ok dsdt ∧
      tables.fadt = some fadt ∧ fadt.pm1aControlBlock = .ok address ∧
      (do return (address, ← sleepType firmware dsdt)) = r := by
  rw [sleepParameters, orLog_bind_iff hr]
  constructor
  · rintro ⟨tables, hTables, h⟩
    obtain ⟨dsdt, hDsdt, h⟩ := (orLog_bind_iff hr).mp h
    match hFadt : tables.fadt with
    | none =>
      rw [hFadt] at h
      exact absurd h.symm (hr _)
    | some fadt =>
      rw [hFadt] at h
      obtain ⟨address, hPm1a, h⟩ := (orLog_bind_iff hr).mp h
      exact ⟨tables, dsdt, fadt, address, hTables, hDsdt, hFadt, hPm1a, h⟩
  · rintro ⟨tables, dsdt, fadt, address, hTables, hDsdt, hFadt, hPm1a, h⟩
    refine ⟨tables, hTables, (orLog_bind_iff hr).mpr ⟨dsdt, hDsdt, ?_⟩⟩
    rw [hFadt]
    exact (orLog_bind_iff hr).mpr ⟨address, hPm1a, h⟩

theorem physicalToVirtual_error {addr : Nat} {failure : Failure}
    (h : physicalToVirtual firmware addr = .error failure) : failure = .panicked := by
  unfold physicalToVirtual at h
  split at h
  · exact (Except.error.inj h).symm
  · simp only at h
    split at h
    · cases h
    · exact (Except.error.inj h).symm

section SleepType

variable {dsdt : AmlTable}

theorem sleepType_panics (h : ¬Readable firmware dsdt) :
    sleepType firmware dsdt = .error .panicked := by
  rw [sleepType]
  by_cases hPlace : 2 ^ 52 ≤ dsdt.physAddress
  · rw [if_pos hPlace]
    rfl
  · rw [if_neg hPlace]
    match hPtr : physicalToVirtual firmware dsdt.physAddress with
    | .error failure =>
      obtain rfl := physicalToVirtual_error hPtr
      rfl
    | .ok ptr =>
      have hLength : dsdt.length.toNat < acpiTableHeaderSize := by
        by_contra hLength
        exact h ⟨by omega, ⟨ptr, hPtr⟩, by omega⟩
      change (if dsdt.length.toNat < acpiTableHeaderSize then _ else _) = _
      rw [if_pos hLength]
      rfl

theorem sleepType_iff {ptr : Nat} (hPlace : dsdt.physAddress < 2 ^ 52)
    (hPtr : physicalToVirtual firmware dsdt.physAddress = .ok ptr)
    (hLength : acpiTableHeaderSize ≤ dsdt.length.toNat) {r : Except Failure UInt16}
    (hr : ∀ text, r ≠ .error (.logged text)) :
    sleepType firmware dsdt = r ↔ ∃ ns name v rest,
      firmware.parseTable (ptr + acpiTableHeaderSize)
        (dsdt.length.toNat - acpiTableHeaderSize) = .ok ns ∧
      firmware.amlName "\\_S5" = .ok name ∧ ns name = .ok (.package (.integer v :: rest)) ∧
      .ok v.toUInt16 = r := by
  rw [sleepType, if_neg (by omega), hPtr]
  change (if dsdt.length.toNat < acpiTableHeaderSize then _ else _) = r ↔ _
  rw [if_neg (by omega)]
  rw [orLog_bind_iff hr]
  constructor
  · rintro ⟨ns, hParse, h⟩
    obtain ⟨name, hName, h⟩ := (orLog_bind_iff hr).mp h
    obtain ⟨value, hValue, h⟩ := (orLog_bind_iff hr).mp h
    match value with
    | .package (.integer v :: rest) => exact ⟨ns, name, v, rest, hParse, hName, hValue, h⟩
    | .package [] => exact absurd h.symm (hr _)
    | .package (.package _ :: _) => exact absurd h.symm (hr _)
    | .package (.other :: _) => exact absurd h.symm (hr _)
    | .integer _ => exact absurd h.symm (hr _)
    | .other => exact absurd h.symm (hr _)
  · rintro ⟨ns, name, v, rest, hParse, hName, hS5, h⟩
    exact ⟨ns, hParse, (orLog_bind_iff hr).mpr ⟨name, hName, (orLog_bind_iff hr).mpr ⟨_, hS5, h⟩⟩⟩

end SleepType

/-- Described tables leave `init` two ways: a panic at the DSDT's place in memory, or success. -/
theorem sleepParameters_of_describes (h : Describes firmware rsdpAddr address v) :
    sleepParameters firmware rsdpAddr = .error .panicked ∨
      sleepParameters firmware rsdpAddr = .ok (address, v.toUInt16) := by
  obtain ⟨tables, dsdt, fadt, ptr, ns, name, rest, hTables, hDsdt, hFadt, hPm1a, hPtr, hParse,
    hName, hS5⟩ := h
  by_cases hReadable : Readable firmware dsdt
  · obtain ⟨hPlace, -, hLength⟩ := hReadable
    have hSleep := (sleepType_iff hPlace hPtr hLength (ok_ne_logged _)).mpr
      ⟨ns, name, v, rest, hParse, hName, hS5, rfl⟩
    refine .inr ((sleepParameters_iff (ok_ne_logged _)).mpr
      ⟨tables, dsdt, fadt, address, hTables, hDsdt, hFadt, hPm1a, ?_⟩)
    rw [hSleep]
    rfl
  · refine .inl ((sleepParameters_iff panicked_ne_logged).mpr
      ⟨tables, dsdt, fadt, address, hTables, hDsdt, hFadt, hPm1a, ?_⟩)
    rw [sleepType_panics hReadable]
    rfl

/-- The sleep type stays in the low bits: `1 << 13` sets `SLP_EN`, and nothing sets bits 10 to
12. -/
theorem toNat_request (hv : v.toNat < 8) :
    (v.toUInt16 ||| (1 : UInt16) <<< 13).toNat = 2 ^ 13 + v.toNat := by
  have hTrunc : v.toUInt16.toNat = v.toNat := by
    rw [UInt64.toNat_toUInt16]
    omega
  rw [UInt16.toNat_or, hTrunc, Nat.or_comm]
  exact (Nat.two_pow_add_eq_or_of_lt (by omega : v.toNat < 2 ^ 13) 1).symm

theorem RequestsS5.slpTyp_word {info : AcpiShutdown} {port : UInt16} {word : UInt32}
    (h : RequestsS5 info address v) (hWrite : info.portWrite = (port, word)) :
    word.toNat / 2 ^ 10 % 8 = v.toNat := by
  obtain ⟨_, value, hWrite', -, hTyp, -⟩ := h
  rw [hWrite'] at hWrite
  obtain ⟨-, rfl⟩ := Prod.mk.inj hWrite
  rw [UInt16.toNat_toUInt32]
  exact hTyp

/-- After `init` has taken its values from the tables, `shutdown` requests S5 exactly when the
sleep type is 0. -/
theorem requestsS5_iff (hTables : Describes firmware rsdpAddr address v)
    (hAddress : address.toNat < 2 ^ 16) (hv : v.toNat < 8)
    (hInit : init firmware rsdpAddr s = some s') :
    s'.shutdown.useQemuFallback = false ∧ (RequestsS5 s'.shutdown address v ↔ v = 0) := by
  rw [init] at hInit
  rcases sleepParameters_of_describes hTables with hPanic | hOk
  · rw [hPanic] at hInit
    cases hInit
  · rw [hOk] at hInit
    obtain rfl := Option.some.inj hInit
    have hPort : address.toUInt16.toNat = address.toNat := by
      rw [UInt64.toNat_toUInt16]
      omega
    have hRequest := toNat_request hv
    refine ⟨rfl, fun hRequests => ?_, fun hZero => ?_⟩
    · have hTyp := hRequests.slpTyp_word rfl
      rw [UInt16.toNat_toUInt32, hRequest] at hTyp
      apply UInt64.toNat_inj.mp
      rw [UInt64.toNat_zero]
      omega
    · refine ⟨address.toUInt16, v.toUInt16 ||| (1 : UInt16) <<< 13, rfl, hPort, ?_, ?_⟩
      · rw [slpTyp, hRequest, hZero]
        rfl
      · rw [slpEn, hRequest]
        omega

def sampleFirmware (v : UInt64) : Firmware where
  fromRsdp _ := .ok ⟨.ok ⟨0x7fe0000, 4096⟩, some ⟨.ok 0x604⟩⟩
  physicalMemoryOffset := some 0
  parseTable _ _ := .ok fun _ => .ok (.package [.integer v, .integer 0])
  amlName path := .ok ⟨path⟩

theorem sampleFirmware_describes (v : UInt64) : Describes (sampleFirmware v) 0xe0000 0x604 v :=
  ⟨_, _, _, _, _, _, _, rfl, rfl, rfl, rfl, rfl, rfl, rfl, rfl⟩

theorem requestsS5_iff_zero : ∃ s, init (sampleFirmware 0) 0xe0000 .boot = some s ∧
    RequestsS5 s.shutdown 0x604 0 :=
  ⟨_, rfl, (requestsS5_iff (sampleFirmware_describes 0) (by decide) (by decide) rfl).2.mpr rfl⟩

/-- With sleep type 5 the value written is 0x2005, where it should be 0x3400. -/
theorem sleep_type_not_shifted : ∃ s, init (sampleFirmware 5) 0xe0000 .boot = some s ∧
    s.shutdown.portWrite = (0x604, 0x2005) ∧ ¬RequestsS5 s.shutdown 0x604 5 := by
  refine ⟨_, rfl, rfl, fun hRequests => ?_⟩
  exact absurd (hRequests.slpTyp_word rfl) (by decide)

/-! ### All or nothing -/

/-- Some lookup of `init` failed. -/
def Fails (firmware : Firmware) (rsdpAddr : UInt64) : Prop :=
  ¬∃ address v, Describes firmware rsdpAddr address v

/-- `init` returns, with the values of the tables or with the initial value and the port of QEMU. -/
def AllOrNothing (firmware : Firmware) (rsdpAddr : UInt64) : Prop :=
  ∃ s, init firmware rsdpAddr .boot = some s ∧
    (∀ address v, Describes firmware rsdpAddr address v →
      s.shutdown = ⟨address, v.toUInt16, (1 : UInt16) <<< 13, false⟩) ∧
    (Fails firmware rsdpAddr → s.shutdown = State.boot.shutdown) ∧
    (s.shutdown.useQemuFallback = true ↔ Fails firmware rsdpAddr)

/-- Where the DSDT and the PM1a control block are found, the DSDT can be read. -/
def DsdtReadable (firmware : Firmware) (rsdpAddr : UInt64) : Prop :=
  ∀ tables dsdt fadt address, firmware.fromRsdp rsdpAddr = .ok tables → tables.dsdt = .ok dsdt →
    tables.fadt = some fadt → fadt.pm1aControlBlock = .ok address → Readable firmware dsdt

theorem sleepParameters_panics_iff :
    sleepParameters firmware rsdpAddr = .error .panicked ↔ ¬DsdtReadable firmware rsdpAddr := by
  rw [sleepParameters_iff panicked_ne_logged]
  constructor
  · rintro ⟨tables, dsdt, fadt, address, hTables, hDsdt, hFadt, hPm1a, hSleep⟩ hReadable
    obtain ⟨hPlace, ⟨ptr, hPtr⟩, hLength⟩ :=
      hReadable tables dsdt fadt address hTables hDsdt hFadt hPm1a
    match hType : sleepType firmware dsdt with
    | .ok slpTypA =>
      rw [hType] at hSleep
      cases hSleep
    | .error failure =>
      rw [hType] at hSleep
      obtain rfl : failure = .panicked := Except.error.inj hSleep
      obtain ⟨_, _, _, _, _, _, _, h⟩ :=
        (sleepType_iff hPlace hPtr hLength panicked_ne_logged).mp hType
      cases h
  · intro hReadable
    by_contra hNone
    refine hReadable fun tables dsdt fadt address hTables hDsdt hFadt hPm1a => ?_
    by_contra hDsdtReadable
    refine hNone ⟨tables, dsdt, fadt, address, hTables, hDsdt, hFadt, hPm1a, ?_⟩
    rw [sleepType_panics hDsdtReadable]
    rfl

theorem describes_of_sleepParameters {slpTypA : UInt16}
    (h : sleepParameters firmware rsdpAddr = .ok (address, slpTypA)) :
    ∃ v, Describes firmware rsdpAddr address v := by
  obtain ⟨tables, dsdt, fadt, address', hTables, hDsdt, hFadt, hPm1a, hSleep⟩ :=
    (sleepParameters_iff (ok_ne_logged _)).mp h
  by_cases hReadable : Readable firmware dsdt
  · obtain ⟨hPlace, ⟨ptr, hPtr⟩, hLength⟩ := hReadable
    match hType : sleepType firmware dsdt with
    | .ok slpTypA' =>
      rw [hType] at hSleep
      obtain ⟨rfl, -⟩ := Prod.mk.inj (Except.ok.inj hSleep)
      obtain ⟨ns, name, v, rest, hParse, hName, hS5, -⟩ :=
        (sleepType_iff hPlace hPtr hLength (ok_ne_logged _)).mp hType
      exact ⟨v, tables, dsdt, fadt, ptr, ns, name, rest, hTables, hDsdt, hFadt, hPm1a, hPtr,
        hParse, hName, hS5⟩
    | .error failure =>
      rw [hType] at hSleep
      cases hSleep
  · rw [sleepType_panics hReadable] at hSleep
    cases hSleep

/-- `init` keeps its promise exactly where the DSDT, if it comes to reading it, can be read. -/
theorem allOrNothing_iff (firmware : Firmware) (rsdpAddr : UInt64) :
    AllOrNothing firmware rsdpAddr ↔ DsdtReadable firmware rsdpAddr := by
  constructor
  · rintro ⟨s, hInit, -⟩
    by_contra hReadable
    rw [init, sleepParameters_panics_iff.mpr hReadable] at hInit
    cases hInit
  · intro hReadable
    have hNoPanic : sleepParameters firmware rsdpAddr ≠ .error .panicked :=
      fun h => sleepParameters_panics_iff.mp h hReadable
    have hOk : ∀ {address v}, Describes firmware rsdpAddr address v →
        sleepParameters firmware rsdpAddr = .ok (address, v.toUInt16) :=
      fun hTables => (sleepParameters_of_describes hTables).resolve_left hNoPanic
    rw [AllOrNothing, init]
    match hParams : sleepParameters firmware rsdpAddr with
    | .error .panicked => exact absurd hParams hNoPanic
    | .error (.logged text) =>
      have hFails : Fails firmware rsdpAddr := by
        rintro ⟨address, v, hTables⟩
        cases hParams.symm.trans (hOk hTables)
      refine ⟨_, rfl, fun address v hTables => ?_, fun _ => rfl, ?_⟩
      · exact absurd ⟨address, v, hTables⟩ hFails
      · exact iff_of_true rfl hFails
    | .ok (address, slpTypA) =>
      have hFound := describes_of_sleepParameters hParams
      refine ⟨_, rfl, fun address' v hTables => ?_, fun hFails => ?_, ?_⟩
      · obtain ⟨rfl, rfl⟩ := Prod.mk.inj (Except.ok.inj (hParams.symm.trans (hOk hTables)))
        rfl
      · exact absurd ⟨address, hFound⟩ hFails
      · exact iff_of_false nofun fun hFails => hFails ⟨address, hFound⟩

/-- Tables like those of `sampleFirmware`, with a DSDT that is shorter than a table header. -/
def shortDsdt : Firmware where
  fromRsdp _ := .ok ⟨.ok ⟨0x7fe0000, 35⟩, some ⟨.ok 0x604⟩⟩
  physicalMemoryOffset := some 0
  parseTable _ _ := .ok fun _ => .ok (.package [.integer 0, .integer 0])
  amlName path := .ok ⟨path⟩

/-- The length of the AML code underflows. -/
theorem short_dsdt_panics :
    init shortDsdt 0xe0000 .boot = none ∧ ¬AllOrNothing shortDsdt 0xe0000 :=
  ⟨rfl, fun ⟨_, hInit, _⟩ => by cases hInit⟩

end Acpi

end RixOs

import RixOs.Pci

/-! What the accesses of `acpi/handler.rs` do to the location that their caller names.  Writes are
exact for every aligned offset below 0x100 in segment 0.  Reads take the low bytes of the dword, so
they are right at multiples of four alone.  Beyond 0x100, and in other segments, both act on a
location that the caller did not name. -/

namespace RixOs

open ProofKit

namespace ConfigSpace

variable {space : ConfigSpace} {addr addr' : PciAddress} {offset offset' : Nat}
  {bytes : List UInt8}

theorem store_inside {i : Nat} {b : UInt8} (h : bytes[i]? = some b) :
    space.store addr offset bytes addr (offset + i) = b := by
  rw [store, if_pos ⟨rfl, Nat.le_add_right ..⟩, Nat.add_sub_cancel_left, h]
  rfl

theorem store_outside
    (h : ¬(addr' = addr ∧ offset ≤ offset' ∧ offset' < offset + bytes.length)) :
    space.store addr offset bytes addr' offset' = space addr' offset' := by
  rw [store]
  split
  · rename_i hAfter
    have hBound : ¬offset' < offset + bytes.length := fun hLt => h ⟨hAfter.1, hAfter.2, hLt⟩
    rw [List.getElem?_eq_none (by omega)]
    rfl
  · rfl

theorem load_store_self {n : Nat} (hLength : bytes.length = n) :
    (space.store addr offset bytes).load addr offset n = bytes := by
  subst hLength
  apply List.ext_getElem (by rw [length_load])
  intro i h₁ h₂
  rw [← Option.some.injEq, ← List.getElem?_eq_getElem, ← List.getElem?_eq_getElem]
  cases h : ((space.store addr offset bytes).load addr offset bytes.length)[i]? with
  | none => simp at h; omega
  | some b =>
    rw [getElem?_load h, store_inside (List.getElem?_eq_getElem h₂), List.getElem?_eq_getElem]

theorem load_store_before {n : Nat} (h : offset' + n ≤ offset) :
    (space.store addr offset bytes).load addr offset' n = space.load addr offset' n := by
  refine List.map_congr_left fun i hi => store_outside ?_
  rw [List.mem_range] at hi
  omega

end ConfigSpace

section Aligned

variable {w : Width} {offset : UInt16} (hOffset : offset.toNat < 0x100)
  (hAligned : offset.toNat % w.bytes = 0)
include hOffset hAligned

theorem dwordOffset_add_lane : dwordOffset offset + w.lane offset = offset.toNat := by
  cases w <;> simp only [dwordOffset, Width.lane, Width.bytes] at * <;> omega

theorem dwordOffset_before (hLane : offset.toNat % 4 ≠ 0) :
    dwordOffset offset + w.bytes ≤ offset.toNat := by
  cases w <;> simp only [dwordOffset, Width.bytes] at * <;> omega

end Aligned

theorem Width.toNat_lt (w : Width) (value : w.Value) : w.toNat value < 256 ^ w.bytes := by
  match w with
  | .u8 => exact UInt8.toNat_lt value
  | .u16 => exact UInt16.toNat_lt value
  | .u32 => exact UInt32.toNat_lt value

theorem Width.bytes_pos (w : Width) : 0 < w.bytes := by cases w <;> decide

theorem PciAddress.legacy_of_segment {addr : PciAddress} (hSegment : addr.segment = 0) :
    addr.legacy = addr := by
  rw [legacy, ← hSegment]

theorem pciConfigAddress_inj {addr addr' : PciAddress} {offset offset' : UInt16}
    (hEq : pciConfigAddress addr.bus addr.device addr.function offset =
      pciConfigAddress addr'.bus addr'.device addr'.function offset') :
    addr.legacy = addr'.legacy ∧ dwordOffset offset = dwordOffset offset' := by
  have hSelected := selected_pciConfigAddress addr offset fun _ _ => 0
  rw [hEq, selected_pciConfigAddress] at hSelected
  obtain ⟨hAddr, hOffset⟩ := Prod.mk.inj (Option.some.inj hSelected)
  exact ⟨hAddr.symm, hOffset.symm⟩

namespace PciHandler

variable {addr : PciAddress} {offset : UInt16}

/-- A write sets the bytes that it names to its value and changes no other byte of any function.
Distinct dwords have distinct words at port 0xCF8. -/
theorem write_exact (h : PciHandler) (w : Width) (value : w.Value) (s : PciPorts)
    (hSegment : addr.segment = 0) (hOffset : offset.toNat < 0x100)
    (hAligned : offset.toNat % w.bytes = 0) :
    (∃ s', (h.write addr offset w value).run.run s = (some (), s') ∧
      leValue (s'.space.load addr offset.toNat w.bytes) = w.toNat value ∧
      ∀ addr' offset',
        ¬(addr' = addr ∧ offset.toNat ≤ offset' ∧ offset' < offset.toNat + w.bytes) →
        s'.space addr' offset' = s.space addr' offset') ∧
      ∀ addr' : PciAddress, ∀ offset' : UInt16, addr'.segment = 0 → offset'.toNat < 0x100 →
        pciConfigAddress addr.bus addr.device addr.function offset =
          pciConfigAddress addr'.bus addr'.device addr'.function offset' →
        addr = addr' ∧ offset.toNat / 4 = offset'.toNat / 4 := by
  refine ⟨⟨_, run_write h w value, ?_, fun addr' offset' hOther => ?_⟩, ?_⟩
  · rw [dwordOffset_add_lane hOffset hAligned, addr.legacy_of_segment hSegment,
      ConfigSpace.load_store_self (length_leBytes ..), leValue_leBytes,
      Nat.mod_eq_of_lt (w.toNat_lt value)]
  · rw [dwordOffset_add_lane hOffset hAligned, addr.legacy_of_segment hSegment]
    exact ConfigSpace.store_outside (by rwa [length_leBytes])
  · intro addr' offset' hSegment' hOffset' hEq
    obtain ⟨hAddr, hDword⟩ := pciConfigAddress_inj hEq
    rw [addr.legacy_of_segment hSegment, addr'.legacy_of_segment hSegment'] at hAddr
    refine ⟨hAddr, ?_⟩
    simp only [dwordOffset] at hDword
    omega

/-- The host bridge of a machine with one function. -/
def function0 : PciAddress := ⟨0, 0, 0, 0, by decide, by decide⟩

theorem write_exact_u16 : ∃ s', (aml.write function0 0x06 .u16 (0x1234 : UInt16)).run.run
    ⟨0, fun _ _ => 0⟩ = (some (), s') ∧ leValue (s'.space.load function0 0x06 2) = 0x1234 :=
  let ⟨s', hRun, hValue, _⟩ := (write_exact aml .u16 (0x1234 : UInt16) ⟨0, fun _ _ => 0⟩
    (rfl : function0.segment = 0) (by decide : (0x06 : UInt16).toNat < 0x100) (by decide)).1
  ⟨s', hRun, hValue⟩

/-- What a read of `w` at `offset` is to return from `space`. -/
def Reads (h : PciHandler) (w : Width) (addr : PciAddress) (offset : UInt16) (s : PciPorts)
    (space : ConfigSpace) : Prop :=
  ∃ value s', (h.read addr offset w).run.run s = (some value, s') ∧
    w.toNat value = leValue (space.load addr offset.toNat w.bytes)

theorem reads_iff {h : PciHandler} {w : Width} {s : PciPorts} {space : ConfigSpace}
    (hSegment : addr.segment = 0) : h.Reads w addr offset s space ↔
      leValue (s.space.load addr (dwordOffset offset) w.bytes) =
        leValue (space.load addr offset.toNat w.bytes) := by
  obtain ⟨value, hRun, hValue⟩ := @run_read addr offset s h w
  rw [addr.legacy_of_segment hSegment] at hValue
  constructor
  · rintro ⟨value', s', hRun', hValue'⟩
    rw [hRun] at hRun'
    obtain rfl := Option.some.inj (Prod.mk.inj hRun').1
    rw [← hValue, hValue']
  · exact fun hEq => ⟨value, _, hRun, hValue.trans hEq⟩

theorem leValue_zeros (addr : PciAddress) (base n : Nat) :
    leValue (ConfigSpace.load (fun _ _ => 0) addr base n) = 0 := by
  rw [ConfigSpace.load, List.map_const']
  induction List.length (List.range n) with
  | zero => rfl
  | succ n ih => rw [List.replicate_succ, leValue, ih]; rfl

def Width.one : (w : Width) → w.Value
  | .u8 => (1 : UInt8)
  | .u16 => (1 : UInt16)
  | .u32 => (1 : UInt32)

theorem Width.toNat_one (w : Width) : w.toNat (Width.one w) = 1 := by cases w <;> rfl

theorem dwordOffset_of_mod (hOffset : offset.toNat < 0x100) (hLane : offset.toNat % 4 = 0) :
    dwordOffset offset = offset.toNat := by
  simp only [dwordOffset]
  omega

section Aligned

variable {w : Width} (hSegment : addr.segment = 0) (hOffset : offset.toNat < 0x100)
  (hAligned : offset.toNat % w.bytes = 0)
include hSegment hOffset hAligned

theorem run_write_aligned (h : PciHandler) (value : w.Value) (s : PciPorts) :
    (h.write addr offset w value).run.run s =
      (some (), ⟨pciConfigAddress addr.bus addr.device addr.function offset,
        s.space.store addr offset.toNat (leBytes w.bytes (w.toNat value))⟩) := by
  rw [run_write, dwordOffset_add_lane hOffset hAligned, addr.legacy_of_segment hSegment]

/-- Where the lane is not the first, a 1 that was stored reads as 0. -/
theorem not_reads_one (h : PciHandler) (word : UInt32) (hLane : offset.toNat % 4 ≠ 0) :
    ¬h.Reads w addr offset
      ⟨word, ConfigSpace.store (fun _ _ => 0) addr offset.toNat (leBytes w.bytes 1)⟩
      (ConfigSpace.store (fun _ _ => 0) addr offset.toNat (leBytes w.bytes 1)) := by
  have hOne : 1 % 256 ^ w.bytes = 1 := by cases w <;> rfl
  rw [reads_iff hSegment, ConfigSpace.load_store_before (dwordOffset_before hOffset hAligned hLane),
    leValue_zeros, ConfigSpace.load_store_self (length_leBytes ..), leValue_leBytes, hOne]
  decide

end Aligned

/-- Reads see what is there, and what was written, exactly at multiples of four. -/
theorem reads_right_iff (h : PciHandler) (w : Width) (hSegment : addr.segment = 0)
    (hOffset : offset.toNat < 0x100) (hAligned : offset.toNat % w.bytes = 0) :
    ((∀ s, h.Reads w addr offset s s.space) ↔ offset.toNat % 4 = 0) ∧
      ((∀ (s : PciPorts) (h' : PciHandler) (w' : Width) (offset' : UInt16) (value : w'.Value),
          offset'.toNat < 0x100 → offset'.toNat % w'.bytes = 0 →
          ∃ s', (h'.write addr offset' w' value).run.run s = (some (), s') ∧
            h.Reads w addr offset s'
              (s.space.store addr offset'.toNat (leBytes w'.bytes (w'.toNat value)))) ↔
        offset.toNat % 4 = 0) := by
  have hReads : offset.toNat % 4 = 0 → ∀ s, h.Reads w addr offset s s.space := fun hLane s => by
    rw [reads_iff hSegment, dwordOffset_of_mod hOffset hLane]
  refine ⟨⟨fun hAll => ?_, hReads⟩, fun hAll => ?_, ?_⟩
  · by_contra hLane
    exact not_reads_one hSegment hOffset hAligned h 0 hLane (hAll ⟨0, _⟩)
  · by_contra hLane
    obtain ⟨s', hRun, hOne⟩ := hAll ⟨0, fun _ _ => 0⟩ acpi w offset (Width.one w) hOffset hAligned
    rw [run_write_aligned hSegment hOffset hAligned] at hRun
    obtain rfl := (Prod.mk.inj hRun).2
    rw [Width.toNat_one] at hOne
    exact not_reads_one hSegment hOffset hAligned h _ hLane hOne
  · intro hLane s h' w' offset' value hOffset' hAligned'
    exact ⟨_, run_write_aligned hSegment hOffset' hAligned' h' value s, hReads hLane ⟨_, _⟩⟩

theorem reads_right_iff_u32 : aml.Reads .u32 function0 0x10 ⟨0, fun _ offset => .ofNat offset⟩
    fun _ offset => .ofNat offset :=
  (reads_right_iff aml .u32 (rfl : function0.segment = 0)
    (by decide : (0x10 : UInt16).toNat < 0x100) (by decide)).1.mpr (by decide) ⟨0, _⟩

/-- Byte 1 of a function reads as byte 0. -/
theorem reads_wrong_lane :
    (acpi.read function0 1 .u8).run.run ⟨0, fun _ offset => .ofNat offset⟩ =
        (some (0 : UInt8), ⟨0x80000000, fun _ offset => .ofNat offset⟩) ∧
      ¬acpi.Reads .u8 function0 1 ⟨0, fun _ offset => .ofNat offset⟩
        (fun _ offset => .ofNat offset) := by
  refine ⟨rfl, fun ⟨value, s', hRun, hValue⟩ => ?_⟩
  obtain rfl : (0 : UInt8) = value := Option.some.inj (Prod.mk.inj hRun).1
  exact absurd hValue (by decide)

/-! ### Locations that the ports cannot address -/

/-- The bytes that an access of width `w` names. -/
def Names (w : Width) (addr : PciAddress) (offset : UInt16) (addr' : PciAddress) (offset' : Nat) :
    Prop :=
  addr' = addr ∧ offset.toNat ≤ offset' ∧ offset' < offset.toNat + w.bytes

theorem succ_ne (b : UInt8) : b + 1 ≠ b := by
  intro hEq
  have hNat := congrArg UInt8.toNat hEq
  rw [UInt8.toNat_add, UInt8.toNat_one] at hNat
  omega

theorem exists_value (w : Width) (b : UInt8) :
    ∃ value : w.Value, (leBytes w.bytes (w.toNat value))[0]? = some b := by
  match w with
  | .u8 => exact ⟨b, congrArg some UInt8.ofNat_toNat⟩
  | .u16 => exact ⟨b.toUInt16, congrArg some UInt8.ofNat_toNat⟩
  | .u32 => exact ⟨b.toUInt32, congrArg some UInt8.ofNat_toNat⟩

/-- Beyond 0x100 and in other segments, a read returns the bytes of a location that it does not
name, whatever they are, and a write can always change such a location. -/
theorem aliases (h : PciHandler) (w : Width)
    (hBeyond : 0x100 ≤ offset.toNat ∨ addr.segment ≠ 0) :
    (∃ addr' offset', ¬Names w addr offset addr' offset' ∧ ∀ s : PciPorts, ∃ value s',
        (h.write addr offset w value).run.run s = (some (), s') ∧
          s'.space addr' offset' ≠ s.space addr' offset') ∧
      ∃ addr' offset', (∀ i < w.bytes, ¬Names w addr offset addr' (offset' + i)) ∧
        ∀ s : PciPorts, ∃ value s', (h.read addr offset w).run.run s = (some value, s') ∧
          w.toNat value = leValue (s.space.load addr' offset' w.bytes) := by
  have hOther : ∀ offset', offset' < 0x100 → ¬Names w addr offset addr.legacy offset' := by
    rintro offset' hLt ⟨hAddr, hStart, -⟩
    rcases hBeyond with hFar | hSegment
    · omega
    · exact hSegment (congrArg PciAddress.segment hAddr).symm
  have hDword : dwordOffset offset + 4 ≤ 0x100 := by
    simp only [dwordOffset]
    omega
  have hLane := w.lane_fits offset
  have hBytes := w.bytes_pos
  refine ⟨⟨addr.legacy, dwordOffset offset + w.lane offset, hOther _ (by omega), fun s => ?_⟩,
    addr.legacy, dwordOffset offset, fun i hi => hOther _ (by omega), fun s => ?_⟩
  · obtain ⟨value, hValue⟩ := exists_value w
      (s.space addr.legacy (dwordOffset offset + w.lane offset) + 1)
    refine ⟨value, _, run_write h w value, ?_⟩
    have hStore : s.space.store addr.legacy (dwordOffset offset + w.lane offset) _ addr.legacy
        (dwordOffset offset + w.lane offset + 0) = _ := ConfigSpace.store_inside hValue
    rw [Nat.add_zero] at hStore
    exact fun hSame => succ_ne _ (hStore.symm.trans hSame)
  · obtain ⟨value, hRun, hValue⟩ := @run_read addr offset s h w
    exact ⟨value, _, hRun, hValue⟩

theorem aliases_extended : ∃ addr' offset', ¬Names .u8 function0 0x104 addr' offset' ∧
    ∀ s : PciPorts, ∃ (value : UInt8) (s' : PciPorts),
      (aml.write function0 0x104 .u8 value).run.run s = (some (), s') ∧
        s'.space addr' offset' ≠ s.space addr' offset' :=
  (aliases aml .u8 (.inl (by decide : 0x100 ≤ (0x104 : UInt16).toNat))).1

/-- A write to offset 0x104 lands in the command register at offset 4, and a read of 0x104 returns
that register. -/
theorem aliases_command :
    ((aml.write function0 0x104 .u16 (7 : UInt16)).run.run ⟨0, fun _ _ => 0⟩).2.space function0 4 =
        7 ∧
      ¬Names .u16 function0 0x104 function0 4 ∧
      (aml.read function0 0x104 .u16).run.run
        ⟨0, fun _ offset => if offset = 4 then 7 else 0⟩ =
          (some (7 : UInt16), ⟨0x80000004, fun _ offset => if offset = 4 then 7 else 0⟩) :=
  ⟨rfl, fun h => absurd h.2.1 (by decide), rfl⟩

end PciHandler

end RixOs

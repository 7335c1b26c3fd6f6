import Vineyard.Acpi.Ec
import Vineyard.Pci.Walk

/-!
# Configuration accesses of ACPICA

`acpi_os_read_pci_configuration` and `acpi_os_write_pci_configuration` of `driver/acpi/osl/pci.c` on
configuration mechanism #1.  The address port selects a dword, whatever the two low bits of the
address are, and port 0xCFC + `j` is byte lane `j` of that dword.  The read takes its bytes out of the
dword; the write leaves them to the low bits of the address and always uses the first lanes.
-/

namespace Vineyard

open Bytes Programs Programs.Prog

/-! ## The mechanism -/

/-- The address port, and the bytes of the configuration space by address and lane. -/
structure PciMechanism where
  latch : UInt32
  bytes : Memory

abbrev PciMechanismM := Prog Fault PciMechanism

namespace PciMechanism

/-- Where the selected dword starts. -/
def dword (s : PciMechanism) : ℕ := (s.latch &&& ~~~3).toNat

/-- `outb`, `outw` or `outl` of `n` bytes -/
def out (port n value : ℕ) : PciMechanismM Unit := modify fun s =>
  if port = 0xCF8 ∧ n = 4 then { s with latch := UInt32.ofNat value }
  else if 0xCFC ≤ port ∧ port + n ≤ 0xD00 then
    { s with bytes := store s.bytes (s.dword + (port - 0xCFC)) value n }
  else s

/-- `inl` of the data port -/
def inData : PciMechanismM ℕ := do
  let s ← get
  return load s.bytes s.dword 4

end PciMechanism

open PciMechanism

/-! ## The accesses -/

/-- `struct acpi_pci_id`, less the segment -/
structure AcpiPciId where
  bus : UInt16
  device : UInt16
  function : UInt16

/-- The bits of the address above the register -/
def AcpiPciId.address (id : AcpiPciId) (reg : UInt32) : UInt32 :=
  pciAddress id.bus.toUInt32 id.device.toUInt32 id.function.toUInt32 reg

/-- `id->bus << 16` is a shift of an `int`, and the sanitizer catches it when it overflows. -/
def AcpiPciId.shift (id : AcpiPciId) : PciMechanismM Unit :=
  if id.bus < 0x8000 then return () else fail (.panic "shift out of bounds\n")

/-- The status and `*value`; a copy of more bytes than the register has would leave it. -/
def acpiOsReadPciConfiguration (id : AcpiPciId) (reg width : UInt32) :
    PciMechanismM (Ec.AcpiStatus × ℕ) := do
  let regAligned := reg &&& ~~~3
  let offset := (reg &&& 3).toNat
  id.shift
  let addr := id.address regAligned
  PciMechanism.out 0xCF8 4 addr.toNat
  let ret ← inData
  let count := (width >>> 3).toNat
  if offset + count ≤ 4 then return (.ok, load (store (fun _ => 0) 0 ret 4) offset count)
  else fail (.outOfBounds (offset + count))

def acpiOsWritePciConfiguration (id : AcpiPciId) (reg : UInt32) (val : ℕ) (width : UInt32) :
    PciMechanismM Ec.AcpiStatus := do
  id.shift
  let addr := id.address reg
  PciMechanism.out 0xCF8 4 addr.toNat
  if width = 8 then PciMechanism.out 0xCFC 1 (val &&& 0xFF)
  else if width = 16 then PciMechanism.out 0xCFC 2 (val &&& 0xFFFF)
  else if width = 32 then PciMechanism.out 0xCFC 4 (val &&& 0xFFFFFFFF)
  else fail (.panic "acpi_os_write_pci_configuration with invalid width %u\n")
  return .ok

/-! ## Addresses -/

theorem and_not_3 (x : UInt32) : (x &&& ~~~3).toNat = x.toNat / 4 * 4 := by
  have field := Words.and_field x.toNat 2 32 (by decide)
  rw [Nat.mod_eq_of_lt x.toNat_lt] at field
  rw [UInt32.toNat_and]
  exact field

theorem and_3 (x : UInt32) : (x &&& 3).toNat = x.toNat % 4 := by
  rw [UInt32.toNat_and]
  exact Words.and_low x.toNat 2

/-- The address of a function is a multiple of 256, and the register is added to it. -/
theorem pciAddress_register (bus slot func : UInt32) {reg : UInt32} (small : reg < 256) :
    (pciAddress bus slot func reg).toNat = (pciAddress bus slot func 0).toNat + reg.toNat ∧
      (pciAddress bus slot func 0).toNat % 256 = 0 := by
  have lt : reg.toNat < 2 ^ 8 := small
  have aligned : (pciAddress bus slot func 0).toNat % 2 ^ 8 = 0 := by
    have onBus : (bus <<< 16).toNat % 2 ^ 8 = 0 := by simp [Nat.shiftLeft_eq]; omega
    have onSlot : (slot <<< 11).toNat % 2 ^ 8 = 0 := by simp [Nat.shiftLeft_eq]; omega
    have onFunc : (func <<< 8).toNat % 2 ^ 8 = 0 := by simp [Nat.shiftLeft_eq]
    have enable : ((1 : UInt32) <<< 31).toNat % 2 ^ 8 = 0 := by decide
    simp only [pciAddress, UInt32.toNat_or, Nat.or_mod_two_pow, onBus, onSlot, onFunc, enable]
    rfl
  have joined : pciAddress bus slot func reg = pciAddress bus slot func 0 ||| reg := by
    simp [pciAddress]
  rw [joined, UInt32.toNat_or, Words.or_eq_add aligned lt]
  exact ⟨rfl, aligned⟩

/-- The dword that a register of a function is in. -/
theorem dword_address (id : AcpiPciId) {reg : UInt32} (small : reg < 256) (bytes : Memory) :
    (PciMechanism.mk (id.address reg) bytes).dword =
      (id.address 0).toNat + (reg.toNat - reg.toNat % 4) := by
  have address := pciAddress_register id.bus.toUInt32 id.device.toUInt32 id.function.toUInt32 small
  rw [PciMechanism.dword, and_not_3]
  simp only [AcpiPciId.address]
  omega

theorem AcpiPciId.shift_run {id : AcpiPciId} (bus : id.bus < 0x8000) (s : PciMechanism) :
    id.shift.run s = (.ok (), s) := by
  rw [AcpiPciId.shift, if_pos bus]
  rfl

theorem out_address (addr : UInt32) (s : PciMechanism) :
    (PciMechanism.out 0xCF8 4 addr.toNat).run s = (.ok (), { s with latch := addr }) := by
  simp [PciMechanism.out]

theorem out_data {n : ℕ} (le : n ≤ 4) (value : ℕ) (s : PciMechanism) :
    (PciMechanism.out 0xCFC n value).run s =
      (.ok (), { s with bytes := store s.bytes s.dword value n }) := by
  have lanes : 0xCFC + n ≤ 0xD00 := by omega
  simp [PciMechanism.out, lanes]

/-- A register of a given width that lies within its dword. -/
structure Fits (reg width : UInt32) : Prop where
  small : reg < 256
  known : width = 8 ∨ width = 16 ∨ width = 32
  inside : reg.toNat % 4 + width.toNat / 8 ≤ 4

section Accesses

variable {id : AcpiPciId} {reg width : UInt32} {s : PciMechanism} {val : ℕ}

theorem acpiOsReadPciConfiguration_run (bus : id.bus < 0x8000) (fits : Fits reg width) :
    (acpiOsReadPciConfiguration id reg width).run s =
      (.ok (.ok, load s.bytes ((id.address 0).toNat + reg.toNat) (width.toNat / 8)),
        { s with latch := id.address (reg &&& ~~~3) }) := by
  have count : (width >>> 3).toNat = width.toNat / 8 := by
    simp [UInt32.toNat_shiftRight, Nat.shiftRight_eq_div_pow]
  have aligned : reg &&& ~~~3 < 256 := by
    have lt : reg.toNat < 256 := fits.small
    show (reg &&& ~~~3).toNat < 256
    rw [and_not_3]
    omega
  have inside := fits.inside
  have data : ∀ t : PciMechanism, inData.run t = (.ok (load t.bytes t.dword 4), t) := fun _ => rfl
  have value : load (store (fun _ => 0) 0 (load s.bytes ((id.address 0).toNat +
      ((reg &&& ~~~3).toNat - (reg &&& ~~~3).toNat % 4)) 4) 4) (reg.toNat % 4) (width.toNat / 8) =
      load s.bytes ((id.address 0).toNat + reg.toNat) (width.toNat / 8) := by
    refine load_move fun i less => ?_
    rw [store, if_pos (by omega), Nat.sub_zero, byte_load (by omega), and_not_3]
    congr 1
    omega
  unfold acpiOsReadPciConfiguration
  rw [run_bind_of_ok (id.shift_run bus s), run_bind_of_ok (out_address _ s),
    run_bind_of_ok (data _), count, and_3, if_pos inside, run_pure, dword_address id aligned, value]

theorem acpiOsWritePciConfiguration_run (bus : id.bus < 0x8000) (fits : Fits reg width) :
    (acpiOsWritePciConfiguration id reg val width).run s =
      (.ok .ok, ⟨id.address reg, store s.bytes ((id.address 0).toNat + (reg.toNat - reg.toNat % 4))
        (val % 2 ^ width.toNat) (width.toNat / 8)⟩) := by
  have place := dword_address id fits.small s.bytes
  unfold acpiOsWritePciConfiguration
  rw [run_bind_of_ok (id.shift_run bus s), run_bind_of_ok (out_address _ s)]
  rcases fits.known with rfl | rfl | rfl
  · rw [← place, show val &&& 0xFF = val % 2 ^ 8 from Words.and_low val 8]
    exact run_bind_of_ok (out_data (by decide) _ _)
  · rw [← place, show val &&& 0xFFFF = val % 2 ^ 16 from Words.and_low val 16]
    exact run_bind_of_ok (out_data (by decide) _ _)
  · rw [← place, show val &&& 0xFFFFFFFF = val % 2 ^ 32 from Words.and_low val 32]
    exact run_bind_of_ok (out_data (by decide) _ _)

/-- A bus that is too large for the shift ends the write. -/
theorem acpiOsWritePciConfiguration_panics (bus : ¬ id.bus < 0x8000) :
    (acpiOsWritePciConfiguration id reg val width).run s =
      (.error (.panic "shift out of bounds\n"), s) := by
  unfold acpiOsWritePciConfiguration
  rw [run_bind_of_error]
  rw [AcpiPciId.shift, if_neg bus]
  rfl

end Accesses

/-! ## Lanes -/

/-- The bytes that the first `w` lanes of the dword at `d` get are those that the `w` lanes from `o` on
should get: what is written below them is there already, and so is what is not written of them. -/
def Coincides (bytes : Memory) (d o w v : ℕ) : Prop :=
  (∀ i < w, i < o → bytes (d + i) = UInt8.ofNat (v / 256 ^ i)) ∧
  ∀ j < w, (if o + j < w then UInt8.ofNat (v / 256 ^ (o + j)) else bytes (d + o + j)) =
    UInt8.ofNat (v / 256 ^ j)

theorem coincides_zero (bytes : Memory) (d w v : ℕ) : Coincides bytes d 0 w v := by
  refine ⟨fun i _ none => absurd none (Nat.not_lt_zero i), fun j less => ?_⟩
  rw [Nat.zero_add, if_pos less]

theorem store_lanes_iff (bytes : Memory) (d o w v : ℕ) :
    (load (store bytes d v w) (d + o) w = v % 256 ^ w ∧
      ∀ a, a < d + o ∨ d + o + w ≤ a → store bytes d v w a = bytes a) ↔ Coincides bytes d o w v := by
  have lane (j : ℕ) : store bytes d v w (d + o + j) =
      if o + j < w then UInt8.ofNat (v / 256 ^ (o + j)) else bytes (d + o + j) := by
    by_cases less : o + j < w
    · rw [store, if_pos (by omega), if_pos less, show d + o + j - d = o + j by omega]
    · rw [store, if_neg (by omega), if_neg less]
  simp only [load_eq_iff, lane, Coincides]
  rw [and_comm]
  refine and_congr_left fun _ => ⟨fun same i less below => ?_, fun same a outside => ?_⟩
  · have kept := same (d + i) (by omega)
    rw [store, if_pos (by omega), Nat.add_sub_cancel_left] at kept
    exact kept.symm
  · by_cases inside : d ≤ a ∧ a < d + w
    · have kept := same (a - d) (by omega) (by omega)
      rw [Nat.add_sub_cancel' inside.1] at kept
      rw [store, if_pos inside, kept]
    · rw [store, if_neg inside]

/-- A read after the write yields what was written, and no other byte has changed. -/
def ReadsBack (id : AcpiPciId) (reg : UInt32) (val : ℕ) (width : UInt32) (s : PciMechanism) : Prop :=
  ∃ t u, (acpiOsWritePciConfiguration id reg val width).run s = (.ok .ok, t) ∧
    (acpiOsReadPciConfiguration id reg width).run t = (.ok (.ok, val % 2 ^ width.toNat), u) ∧
    ∀ a, a < (id.address 0).toNat + reg.toNat ∨
      (id.address 0).toNat + reg.toNat + width.toNat / 8 ≤ a → t.bytes a = s.bytes a

theorem readsBack_iff_coincides (id : AcpiPciId) (bus : id.bus < 0x8000) {reg width : UInt32}
    (fits : Fits reg width) (val : ℕ) (s : PciMechanism) : ReadsBack id reg val width s ↔
      Coincides s.bytes ((id.address 0).toNat + (reg.toNat - reg.toNat % 4)) (reg.toNat % 4)
        (width.toNat / 8) (val % 2 ^ width.toNat) := by
  have place : (id.address 0).toNat + reg.toNat =
      (id.address 0).toNat + (reg.toNat - reg.toNat % 4) + reg.toNat % 4 := by omega
  have whole : val % 2 ^ width.toNat % 256 ^ (width.toNat / 8) = val % 2 ^ width.toNat := by
    rcases fits.known with rfl | rfl | rfl <;> simp
  rw [← store_lanes_iff, whole, ← place]
  unfold ReadsBack
  simp only [acpiOsWritePciConfiguration_run bus fits, acpiOsReadPciConfiguration_run bus fits]
  constructor
  · rintro ⟨t, u, write, read, others⟩
    have after := (Prod.mk.inj write).2
    subst after
    refine ⟨?_, others⟩
    simpa using congrArg Prod.fst read
  · rintro ⟨read, others⟩
    exact ⟨_, _, rfl, by rw [read], others⟩

/-- A configuration write and a read agree exactly for a bus that the shift has room for, with a
register at the start of a dword or bytes that make the two places coincide. -/
theorem acpiOsPciConfiguration_agree_iff (id : AcpiPciId) (reg width : UInt32) (fits : Fits reg width)
    (val : ℕ) (s : PciMechanism) : ReadsBack id reg val width s ↔
      id.bus < 0x8000 ∧ (reg.toNat % 4 = 0 ∨
        Coincides s.bytes ((id.address 0).toNat + (reg.toNat - reg.toNat % 4)) (reg.toNat % 4)
          (width.toNat / 8) (val % 2 ^ width.toNat)) := by
  by_cases bus : id.bus < 0x8000
  · rw [readsBack_iff_coincides id bus fits val s, and_iff_right bus]
    refine ⟨.inr, fun either => ?_⟩
    rcases either with aligned | coincides
    · rw [aligned]
      exact coincides_zero _ _ _ _
    · exact coincides
  · refine iff_of_false ?_ fun holds => bus holds.1
    rintro ⟨t, u, write, _⟩
    rw [acpiOsWritePciConfiguration_panics bus] at write
    cases (Prod.mk.inj write).1

/-- An empty configuration space -/
def zeroMechanism : PciMechanism := ⟨0, fun _ => 0⟩

theorem acpiOsPciConfiguration_agree_command : ReadsBack ⟨0, 31, 0⟩ 4 0x106 16 zeroMechanism ↔
    (0 : UInt16) < 0x8000 ∧ ((4 : UInt32).toNat % 4 = 0 ∨ Coincides zeroMechanism.bytes
      ((AcpiPciId.address ⟨0, 31, 0⟩ 0).toNat + ((4 : UInt32).toNat - (4 : UInt32).toNat % 4))
      ((4 : UInt32).toNat % 4) ((16 : UInt32).toNat / 8) (0x106 % 2 ^ (16 : UInt32).toNat)) :=
  acpiOsPciConfiguration_agree_iff ⟨0, 31, 0⟩ 4 16
    ⟨by decide, by decide, by decide⟩ 0x106 zeroMechanism

/-- A byte for register 1 goes to register 0. -/
theorem acpiOsPciConfiguration_misplaced :
    Fits 1 8 ∧ ¬ ReadsBack ⟨0, 0, 0⟩ 1 0x55 8 zeroMechanism := by
  have fits : Fits 1 8 := ⟨by decide, by decide, by decide⟩
  refine ⟨fits, fun back => ?_⟩
  have coincides := (readsBack_iff_coincides _ (by decide) fits _ _).1 back
  exact absurd (coincides.1 0 (by decide) (by decide)) (by decide)

end Vineyard

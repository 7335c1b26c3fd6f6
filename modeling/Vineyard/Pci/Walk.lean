import Vineyard.Machine
import Vineyard.Lib.Programs

/-!
# The walk over the PCI buses

`pci_walk_devices`, `pci_walk_bus` and `pci_walk_device` of `pci/walk.c` with the registers of
`pci/config.c` that they read.  The configuration space is what the data port answers for each address
written to the address port.  What the handler returns may depend on everything it was called with
before.
-/

namespace Vineyard

open Programs Programs.Prog

/-- The value of port 0xCFC for each address in port 0xCF8. -/
abbrev PciSpace := UInt32 → UInt32

/-- A function of a device on a bus. -/
structure PciFunction where
  bus : UInt8
  device : UInt8
  function : UInt8
  deriving DecidableEq, Repr

/-- The handler's answer, from the calls before and the function it is called with. -/
abbrev PciHandler := List PciFunction → PciFunction → Bool

/-- The handler's calls in order, and the buses that `pci_walk_devices` itself walks. -/
structure PciWalk where
  calls : List PciFunction
  roots : List UInt8
  deriving DecidableEq

abbrev PciM := Prog Fault PciWalk

/-! ## The configuration registers -/

/-- The address of a register: bus, slot, function and offset in one word. -/
def pciAddress (bus slot func offset : UInt32) : UInt32 :=
  (bus <<< 16) ||| (slot <<< 11) ||| (func <<< 8) ||| ((1 : UInt32) <<< 31) ||| offset

theorem pciAddress_toNat {bus device function : UInt8} {offset : UInt32} (d : device < 32)
    (f : function < 8) (o : offset < 256) :
    (pciAddress bus.toUInt32 device.toUInt32 function.toUInt32 offset).toNat =
      2 ^ 31 + bus.toNat * 2 ^ 16 + device.toNat * 2 ^ 11 + function.toNat * 2 ^ 8 +
        offset.toNat := by
  have dlt : device.toNat < 32 := d
  have flt : function.toNat < 8 := f
  have olt : offset.toNat < 256 := o
  have blt := bus.toNat_lt
  unfold pciAddress
  simp only [UInt32.toNat_or, UInt32.toNat_shiftLeft, UInt8.toNat_toUInt32, Nat.shiftLeft_eq,
    UInt32.reduceToNat, Nat.reduceMul, Nat.reduceMod, Nat.reducePow]
  rw [Nat.mod_eq_of_lt (by omega), Nat.mod_eq_of_lt (by omega), Nat.mod_eq_of_lt (by omega)]
  have withDevice := @Words.or_eq_add (bus.toNat * 65536) (device.toNat * 2048) 16
    (by omega) (by omega)
  have withFunction := @Words.or_eq_add (bus.toNat * 65536 + device.toNat * 2048)
    (function.toNat * 256) 11 (by omega) (by omega)
  have withEnable := @Words.or_eq_add 2147483648
    (bus.toNat * 65536 + device.toNat * 2048 + function.toNat * 256) 24 (by omega) (by omega)
  rw [withDevice, withFunction, Nat.or_comm _ 2147483648, withEnable]
  exact (@Words.or_eq_add _ _ 8 (by omega) (by omega)).trans (by omega)

/-- Different functions have their registers at different addresses. -/
theorem pciAddress_inj {p q : PciFunction} {offset : UInt32} (d : p.device < 32) (f : p.function < 8)
    (d' : q.device < 32) (f' : q.function < 8) (o : offset < 256)
    (same : pciAddress p.bus.toUInt32 p.device.toUInt32 p.function.toUInt32 offset =
      pciAddress q.bus.toUInt32 q.device.toUInt32 q.function.toUInt32 offset) : p = q := by
  have values := congrArg UInt32.toNat same
  rw [pciAddress_toNat d f o, pciAddress_toNat d' f' o] at values
  have dlt : p.device.toNat < 32 := d
  have flt : p.function.toNat < 8 := f
  have dlt' : q.device.toNat < 32 := d'
  have flt' : q.function.toNat < 8 := f'
  have sameBus : p.bus = q.bus := UInt8.toNat_inj.mp (by omega)
  have sameDevice : p.device = q.device := UInt8.toNat_inj.mp (by omega)
  have sameFunction : p.function = q.function := UInt8.toNat_inj.mp (by omega)
  cases p
  cases q
  rw [PciFunction.mk.injEq]
  exact ⟨sameBus, sameDevice, sameFunction⟩

def pciConfigRead (space : PciSpace) (bus slot func offset : UInt32) : PciM UInt32 :=
  if offset &&& 3 ≠ 0 then fail (.assertion "!(offset & 3)")
  else return space (pciAddress bus slot func offset)

def pciConfigHeaderType (space : PciSpace) (bus slot function : UInt8) : PciM UInt8 := do
  let reg ← pciConfigRead space bus.toUInt32 slot.toUInt32 function.toUInt32 0x0C
  return ((reg >>> 16) &&& 0xFF).toUInt8

def pciConfigVendor (space : PciSpace) (bus slot function : UInt8) : PciM UInt16 := do
  let reg ← pciConfigRead space bus.toUInt32 slot.toUInt32 function.toUInt32 0x00
  return (reg &&& 0xFFFF).toUInt16

def pciConfigClass (space : PciSpace) (bus slot function : UInt8) : PciM UInt16 := do
  let reg ← pciConfigRead space bus.toUInt32 slot.toUInt32 function.toUInt32 0x08
  return ((reg >>> 16) &&& 0xFFFF).toUInt16

def pciConfigSecondaryBus (space : PciSpace) (bus slot function : UInt8) : PciM UInt8 := do
  let reg ← pciConfigRead space bus.toUInt32 slot.toUInt32 function.toUInt32 0x18
  return ((reg >>> 8) &&& 0xFF).toUInt8

/-! ## The walk -/

/-- The loop values of a counter below `n`. -/
def uint8Range (n : ℕ) : List UInt8 := (List.range n).map UInt8.ofNat

/-- Calls the handler and notes the call. -/
def callHandler (handler : PciHandler) (bus device function : UInt8) : PciM Bool := do
  let walk ← get
  let called : PciFunction := ⟨bus, device, function⟩
  modify fun walk => { walk with calls := walk.calls ++ [called] }
  return handler walk.calls called

/-- The functions of a multi-function device; the handler's answers are not looked at. -/
def pciWalkDevice (space : PciSpace) (handler : PciHandler) (walkBus : UInt8 → PciM Unit)
    (bus device : UInt8) : PciM Unit :=
  forEach (uint8Range 8) fun function => do
    if (← pciConfigVendor space bus device function) = 0xFFFF then pure ()
    else do
      let _ ← callHandler handler bus device function
      let class_ ← pciConfigClass space bus device function
      if class_ = 0x0604 then do
        let secondary ← pciConfigSecondaryBus space bus device function
        if secondary ≠ 0 then walkBus secondary else pure ()
      else pure ()

/-- The loop of `pci_walk_bus` over the devices that are left. -/
def pciWalkDevicesFrom (space : PciSpace) (handler : PciHandler) (walkBus : UInt8 → PciM Unit)
    (bus : UInt8) : List UInt8 → PciM Unit
  | [] => pure ()
  | device :: rest => do
    if (← pciConfigVendor space bus device 0) = 0xFFFF then
      pciWalkDevicesFrom space handler walkBus bus rest
    else if (← pciConfigHeaderType space bus device 0) &&& 0x80 ≠ 0 then do
      pciWalkDevice space handler walkBus bus device
      pciWalkDevicesFrom space handler walkBus bus rest
    else do
      let class_ ← pciConfigClass space bus device 0
      let secondary ← pciConfigSecondaryBus space bus device 0
      if !(← callHandler handler bus device 0) then pure ()
      else do
        (if class_ = 0x0604 then
          if secondary ≠ 0 then walkBus secondary else pure ()
        else pure ())
        pciWalkDevicesFrom space handler walkBus bus rest

/-- The walk of a bus, with at most `depth` calls of `pci_walk_bus` inside one another. -/
def pciWalkBus (space : PciSpace) (handler : PciHandler) : ℕ → UInt8 → PciM Unit
  | 0, _ => fail .endless
  | depth + 1, bus =>
    pciWalkDevicesFrom space handler (pciWalkBus space handler depth) bus (uint8Range 32)

/-- A walk that `pci_walk_devices` starts. -/
def pciWalkRoot (space : PciSpace) (handler : PciHandler) (depth : ℕ) (bus : UInt8) : PciM Unit := do
  modify fun walk => { walk with roots := walk.roots ++ [bus] }
  pciWalkBus space handler depth bus

def pciWalkDevices (space : PciSpace) (handler : PciHandler) (depth : ℕ) : PciM Unit := do
  if (← pciConfigHeaderType space 0 0 0) &&& 0x80 ≠ 0 then
    -- multiple PCI host controllers
    forEach (uint8Range 8) fun function => do
      if (← pciConfigVendor space 0 0 function) ≠ 0xFFFF then pure ()
      else pciWalkRoot space handler depth function
  else
    -- one PCI host controller
    pciWalkRoot space handler depth 0

/-- Before the walk nothing was called. -/
def PciWalk.start : PciWalk := ⟨[], []⟩

end Vineyard

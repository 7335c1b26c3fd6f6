import Mathlib.Logic.Function.Iterate
import Vineyard.Machine
import Vineyard.Lib.Bytes
import Vineyard.Lib.Settling

/-!
# The embedded controller and its driver

The driver is `acpi_ec_poll_event` to `acpi_ec_handler` of `driver/acpi/ec.c`.  The controller is
the one of the ACPI specification: 256 registers, an input buffer that a write to either port
fills and the controller empties, and an output buffer that the controller fills and a read of
the data port empties.  Before each access of the driver the controller takes any number of
steps, as a schedule says.
-/

namespace Vineyard.Ec

open Bytes Programs Programs.Prog

/-! ## The controller -/

/-- A byte in the input buffer, by the port it was written to. -/
inductive Input where
  | command (byte : UInt8)
  | data (byte : UInt8)
  deriving DecidableEq

/-- The byte that the controller expects next. -/
inductive Mode where
  | idle
  | readAddress
  | writeAddress
  | writeValue (address : UInt8)
  deriving DecidableEq

structure Controller where
  registers : UInt8 → UInt8
  /-- The input buffer; `IBF` is set while there is a byte in it. -/
  input : Option Input
  /-- The output buffer; `OBF` is set while there is a byte in it. -/
  output : Option UInt8
  /-- A byte that the controller has yet to put into the output buffer. -/
  pending : Option UInt8
  mode : Mode
  burst : Bool

namespace Controller

def ibf (c : Controller) : Bool := c.input.isSome

def obf (c : Controller) : Bool := c.output.isSome

/-- The status register. -/
def status (c : Controller) : UInt8 :=
  (if c.obf then 0x01 else 0) ||| (if c.ibf then 0x02 else 0) ||| (if c.burst then 0x10 else 0)

/-- A command begins anew, whatever was expected. -/
def takeCommand (c : Controller) (byte : UInt8) : Controller :=
  if byte = 0x80 then { c with mode := .readAddress }
  else if byte = 0x81 then { c with mode := .writeAddress }
  else if byte = 0x82 then { c with mode := .idle, burst := true, pending := some 0x90 }
  else if byte = 0x83 then { c with mode := .idle, burst := false }
  else if byte = 0x84 then { c with mode := .idle, pending := some 0x00 }
  else { c with mode := .idle }

def takeData (c : Controller) (byte : UInt8) : Controller :=
  match c.mode with
  | .idle => c
  | .readAddress => { c with mode := .idle, pending := some (c.registers byte) }
  | .writeAddress => { c with mode := .writeValue byte }
  | .writeValue address =>
    { c with mode := .idle, registers := Function.update c.registers address byte }

/-- One step: a byte is put out once the output buffer is free, or else one is taken in. -/
def step (c : Controller) : Controller :=
  match c.pending with
  | some byte => if c.obf then c else { c with pending := none, output := some byte }
  | none =>
    match c.input with
    | some (.command byte) => takeCommand { c with input := none } byte
    | some (.data byte) => takeData { c with input := none } byte
    | none => c

end Controller

/-! ## The ports -/

/-- What the driver did to a port that it must not do at any time: a write with the value of `IBF`, a
read of the data port with the value of `OBF`. -/
inductive PortUse where
  | write (ibf : Bool)
  | read (obf : Bool)
  deriving DecidableEq

/-- The controller, the number of accesses so far and their record. -/
structure State where
  controller : Controller
  time : ℕ
  uses : List PortUse

abbrev EcM := Prog Fault State

/-- The steps of the controller before each access. -/
abbrev Schedule := ℕ → ℕ

/-- The controller goes on for its steps before an access. -/
def elapse (delay : Schedule) : EcM Unit :=
  modify fun s => { s with controller := Controller.step^[delay s.time] s.controller, time := s.time + 1 }

def acpiEcReadCommand (delay : Schedule) : EcM UInt8 := do
  elapse delay
  let s ← get
  return s.controller.status

/-- An empty output buffer reads as some byte. -/
def acpiEcReadData (delay : Schedule) : EcM UInt8 := do
  elapse delay
  let s ← get
  modify fun s => { s with controller := { s.controller with output := none }
                           uses := s.uses ++ [.read s.controller.obf] }
  return s.controller.output.getD 0

def writePort (delay : Schedule) (input : Input) : EcM Unit := do
  elapse delay
  modify fun s => { s with controller := { s.controller with input := some input }
                           uses := s.uses ++ [.write s.controller.ibf] }

def acpiEcWriteData (delay : Schedule) (cmd : UInt8) : EcM Unit := writePort delay (.data cmd)

def acpiEcWriteCommand (delay : Schedule) (cmd : UInt8) : EcM Unit := writePort delay (.command cmd)

/-! ## The driver -/

/-- `EC_EVENT_OUTPUT_BUFFER_FULL` and `EC_EVENT_INPUT_BUFFER_EMPTY` -/
inductive Event where
  | outputBufferFull
  | inputBufferEmpty
  deriving DecidableEq

/-- Bit 1 is clear when the input buffer is empty, bit 0 is set when the output buffer is full. -/
def Event.reached (event : Event) (res : UInt8) : Bool :=
  match event with
  | .inputBufferEmpty => res &&& 2 = 0
  | .outputBufferFull => res &&& 1 ≠ 0

/-- The loop, for at most `n` rounds. -/
def acpiEcPollEvent (delay : Schedule) (event : Event) : ℕ → EcM Unit
  | 0 => fail .endless
  | n + 1 => do
    let res ← acpiEcReadCommand delay
    if event.reached res then pure () else acpiEcPollEvent delay event n

def acpiEcCommand (delay : Schedule) (command : UInt8) (n : ℕ) : EcM Unit := do
  let event ←
    if command = 0x80 ∨ command = 0x81 ∨ command = 0x83 then pure Event.inputBufferEmpty
    else if command = 0x82 ∨ command = 0x84 then pure .outputBufferFull
    else fail (.panic "EC: invalid command %#x\n")
  -- first, make sure there is no interfering clutter
  acpiEcPollEvent delay .inputBufferEmpty n
  acpiEcWriteCommand delay command
  acpiEcPollEvent delay event n

def acpiEcBurstEnable (delay : Schedule) (n : ℕ) : EcM Unit := do
  acpiEcCommand delay 0x82 n
  let ret ← acpiEcReadData delay
  if ret &&& 0x10 = 0 then fail (.panic "EC: failed to enable burst") else pure ()

def acpiEcBurstDisable (delay : Schedule) (n : ℕ) : EcM Unit := acpiEcCommand delay 0x83 n

def acpiEcRead1 (delay : Schedule) (addr : UInt8) (n : ℕ) : EcM UInt8 := do
  acpiEcCommand delay 0x80 n
  acpiEcWriteData delay addr
  acpiEcPollEvent delay .outputBufferFull n
  acpiEcReadData delay

def acpiEcWrite1 (delay : Schedule) (addr val : UInt8) (n : ℕ) : EcM Unit := do
  acpiEcCommand delay 0x81 n
  acpiEcWriteData delay addr
  acpiEcPollEvent delay .inputBufferEmpty n
  acpiEcWriteData delay val
  acpiEcPollEvent delay .inputBufferEmpty n

/-- The loop of `acpi_ec_read` over the registers from `reg` on. -/
def readLoop (delay : Schedule) (addr : UInt8) (n : ℕ) : ℕ → ℕ → Memory → EcM Memory
  | _, 0, buf => return buf
  | reg, left + 1, buf => do
    let byte ← acpiEcRead1 delay (UInt8.ofNat ((addr.toNat + reg) &&& 0xFF)) n
    readLoop delay addr n (reg + 1) left (Function.update buf reg byte)

def acpiEcRead (delay : Schedule) (addr : UInt8) (len : ℕ) (buf : Memory) (n : ℕ) : EcM Memory := do
  acpiEcBurstEnable delay n
  let buf ← readLoop delay addr n 0 len buf
  acpiEcBurstDisable delay n
  return buf

/-- The loop of `acpi_ec_write` over the registers from `reg` on. -/
def writeLoop (delay : Schedule) (addr : UInt8) (buf : Memory) (n : ℕ) : ℕ → ℕ → EcM Unit
  | _, 0 => pure ()
  | reg, left + 1 => do
    acpiEcWrite1 delay (UInt8.ofNat ((addr.toNat + reg) &&& 0xFF)) (buf reg) n
    writeLoop delay addr buf n (reg + 1) left

def acpiEcWrite (delay : Schedule) (addr : UInt8) (len : ℕ) (buf : Memory) (n : ℕ) : EcM Unit := do
  acpiEcBurstEnable delay n
  writeLoop delay addr buf n 0 len
  acpiEcBurstDisable delay n

/-- `AE_OK`, `AE_BAD_PARAMETER` and `AE_BAD_ADDRESS` -/
inductive AcpiStatus where
  | ok
  | badParameter
  | badAddress
  deriving DecidableEq

/-- `ACPI_READ` -/
def acpiRead : ℕ := 0

/-- `ACPI_WRITE` -/
def acpiWrite : ℕ := 1

/-- A call of `acpi_ec_handler`; `value` is the memory from the pointer on, or nothing if it is
null. -/
structure Request where
  function : ℕ
  address : ℕ
  bits : ℕ
  value : Option Memory

/-- The status, and the memory from `value` on after the call. -/
def acpiEcHandler (delay : Schedule) (request : Request) (n : ℕ) : EcM (AcpiStatus × Option Memory) :=
  if request.function ≠ acpiRead ∧ request.function ≠ acpiWrite then
    return (.badParameter, request.value)
  else if Word64.add request.address (request.bits >>> 3) > 0xFF then
    return (.badAddress, request.value)
  else
    match request.value with
    | none => return (.badParameter, none)
    | some buf =>
      if request.bits % 8 ≠ 0 then return (.badParameter, request.value)
      else if request.function = acpiRead then do
        let buf ← acpiEcRead delay (UInt8.ofNat (request.address &&& 0xFF)) (request.bits >>> 3) buf n
        return (.ok, some buf)
      else do
        acpiEcWrite delay (UInt8.ofNat (request.address &&& 0xFF)) (request.bits >>> 3) buf n
        return (.ok, some buf)

/-- A sequence of requests. -/
def handleAll (delay : Schedule) : List Request → ℕ → EcM (List (AcpiStatus × Option Memory))
  | [], _ => return []
  | request :: rest, n => do
    let answer ← acpiEcHandler delay request n
    let answers ← handleAll delay rest n
    return answer :: answers

end Vineyard.Ec

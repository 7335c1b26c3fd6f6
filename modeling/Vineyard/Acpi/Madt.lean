import Mathlib.Logic.Relation
import Vineyard.Lib.Bytes
import Vineyard.Lib.Settling
import Vineyard.Machine
import Vineyard.Stdio.Vcbprintf

/-!
# The interrupt table

`acpi_parse_madt` of `driver/acpi/tables.c` and the check of `acpi_tables_init` in front of it.
The table is a memory with the addresses taken from its start.  The state keeps the fields of
`cpu_t` that the parser sets, its calls to the interrupt controllers, and every range of bytes
that it reads, newest first.
-/

namespace Vineyard

open Bytes Programs Programs.Prog

/-- What ACPICA provides: the constants of its headers for the flags, and `sci_interrupt` of the
FADT. -/
structure Acpica where
  /-- `ACPI_MADT_PCAT_COMPAT` -/
  pcatCompat : ℕ
  /-- `ACPI_MADT_POLARITY_MASK` -/
  polarityMask : ℕ
  /-- `ACPI_MADT_POLARITY_CONFORMS` -/
  polarityConforms : ℕ
  /-- `ACPI_MADT_POLARITY_ACTIVE_HIGH` -/
  polarityActiveHigh : ℕ
  /-- `ACPI_MADT_TRIGGER_MASK` -/
  triggerMask : ℕ
  /-- `ACPI_MADT_TRIGGER_LEVEL` -/
  triggerLevel : ℕ
  sciInterrupt : ℕ

/-- The fields of `cpu_t` that the parser sets. -/
structure MadtCpu where
  apicLintNmi0 : Bool
  apicLintNmi1 : Bool
  apicId : ℕ
  acpiId : ℕ
  lapicAddr : ℕ
  deriving DecidableEq

/-- A call of the parser. -/
inductive MadtCall where
  | picInit
  | ioapicInit (id addr irqBase : ℕ)
  | ioapicRoute (source flags target : ℕ)
  deriving DecidableEq

structure MadtParse where
  cpu : MadtCpu
  calls : List MadtCall
  /-- The first byte and the number of bytes of each read. -/
  reads : List (ℕ × ℕ)
  deriving DecidableEq

/-- A zeroed `cpu_t`. -/
def MadtParse.start : MadtParse := ⟨⟨false, false, 0, 0, 0⟩, [], []⟩

/-- Notes a read. -/
def MadtParse.note (a n : ℕ) (s : MadtParse) : MadtParse := { s with reads := (a, n) :: s.reads }

/-- Notes a call. -/
def MadtParse.call (c : MadtCall) (s : MadtParse) : MadtParse := { s with calls := c :: s.calls }

abbrev MadtM := Prog Fault MadtParse

/-- Reads a field of `n` bytes. -/
def madtRead (table : Memory) (a n : ℕ) : MadtM ℕ := do
  modify fun s => s.note a n
  return load table a n

/-! ## The entries -/

/-- `MADT_TYPE_LAPIC`; the first enabled entry is the one of the boot processor. -/
def madtLapic (table : Memory) (entry : ℕ) (bspApic : Bool) : MadtM Bool := do
  let flags ← madtRead table (entry + 4) 4
  if flags &&& 1 ≠ 0 then do
    let id ← madtRead table (entry + 2) 1
    let apicId ← madtRead table (entry + 3) 1
    if bspApic then return bspApic
    else do
      modify fun s => { s with cpu := { s.cpu with apicId := apicId, acpiId := id } }
      return true
  else return bspApic

/-- `MADT_TYPE_IOAPIC` -/
def madtIoapic (table : Memory) (entry : ℕ) : MadtM Unit := do
  let id ← madtRead table (entry + 2) 1
  let addr ← madtRead table (entry + 4) 4
  let gsiBase ← madtRead table (entry + 8) 4
  modify fun s => s.call (.ioapicInit id addr gsiBase)

/-- `MADT_TYPE_LNMI` -/
def madtLnmi (table : Memory) (entry : ℕ) : MadtM Unit := do
  let id ← madtRead table (entry + 2) 1
  let lint ← madtRead table (entry + 5) 1
  if id = 0 ∨ id = 0xFF then
    if lint = 0 then modify fun s => { s with cpu := { s.cpu with apicLintNmi0 := true } }
    else modify fun s => { s with cpu := { s.cpu with apicLintNmi1 := true } }
  else return ()

/-- `MADT_TYPE_LAPIC_ADDR` -/
def madtLapicAddr (table : Memory) (entry : ℕ) : MadtM Unit := do
  let addr ← madtRead table (entry + 4) 8
  modify fun s => { s with cpu := { s.cpu with lapicAddr := addr } }

/-- The `switch` of the first pass, with the value of `bsp_apic` after it. -/
def madtEntry (table : Memory) (entry : ℕ) (bspApic : Bool) : MadtM Bool := do
  let type ← madtRead table entry 1
  match type with
  | 0 => madtLapic table entry bspApic
  | 1 => do
    madtIoapic table entry
    return bspApic
  | 3 => return bspApic
  | 4 => do
    madtLnmi table entry
    return bspApic
  | 5 => do
    madtLapicAddr table entry
    return bspApic
  | 2 => return bspApic
  | _ => return bspApic

/-- The flags of the redirection entry for an override. -/
def madtIrqFlags (acpica : Acpica) (gsi flags : ℕ) : ℕ :=
  let activeHigh :=
    if flags &&& acpica.polarityMask = acpica.polarityActiveHigh ∨
        flags &&& acpica.polarityMask = acpica.polarityConforms then
      if gsi ≠ acpica.sciInterrupt then 0x2000 else 0
    else 0
  let triggerLevel :=
    if flags &&& acpica.triggerMask = acpica.triggerLevel ∨ gsi = acpica.sciInterrupt then 0x8000
    else 0
  activeHigh ||| triggerLevel

/-- `MADT_TYPE_INTR` -/
def madtIntr (acpica : Acpica) (table : Memory) (entry : ℕ) : MadtM Unit := do
  let irq ← madtRead table (entry + 3) 1
  let gsi ← madtRead table (entry + 4) 4
  let flags ← madtRead table (entry + 8) 2
  modify fun s => s.call (.ioapicRoute irq (madtIrqFlags acpica gsi flags) (Word32.add gsi 32))

/-- The `switch` of the second pass. -/
def madtOverride (acpica : Acpica) (table : Memory) (entry : ℕ) : MadtM Unit := do
  let type ← madtRead table entry 1
  match type with
  | 2 => madtIntr acpica table entry
  | _ => return ()

/-! ## The passes -/

/-- The first pass over the entries from `ptr` on, with a bound on the number of rounds. -/
def madtFirst (table : Memory) (fin : ℕ) : ℕ → ℕ → Bool → MadtM Unit
  | 0, _, _ => fail .endless
  | rounds + 1, ptr, bspApic =>
    if ptr < fin then do
      let bspApic ← madtEntry table ptr bspApic
      let len ← madtRead table (ptr + 1) 1
      madtFirst table fin rounds (ptr + len) bspApic
    else return ()

/-- The second pass. -/
def madtSecond (acpica : Acpica) (table : Memory) (fin : ℕ) : ℕ → ℕ → MadtM Unit
  | 0, _ => fail .endless
  | rounds + 1, ptr =>
    if ptr < fin then do
      let len ← madtRead table (ptr + 1) 1
      if len = 0 then return ()
      else do
        madtOverride acpica table ptr
        let len ← madtRead table (ptr + 1) 1
        madtSecond acpica table fin rounds (ptr + len)
    else return ()

/-- The fields of the header, and `pic_init` where the flags ask for it; returns the end of the
table. -/
def madtHeader (acpica : Acpica) (table : Memory) : MadtM ℕ := do
  let length ← madtRead table 4 4
  let lapicAddr ← madtRead table 36 4
  modify fun s => { s with cpu := { s.cpu with lapicAddr := lapicAddr } }
  let flags ← madtRead table 40 4
  if flags &&& acpica.pcatCompat ≠ 0 then do
    modify fun s => s.call .picInit
    return length
  else return length

def acpiParseMadt (acpica : Acpica) (table : Memory) (rounds : ℕ) : MadtM Unit := do
  let fin ← madtHeader acpica table
  madtFirst table fin rounds 44 false
  madtSecond acpica table fin rounds 44

/-- `"APIC"` -/
def madtSignature : List Byte := [ascii 'A', ascii 'P', ascii 'I', ascii 'C']

/-- The sum of the bytes of the table, as a byte. -/
def madtChecksum (table : Memory) (length : ℕ) : UInt8 :=
  (List.range length).foldl (fun checksum j => checksum + table j) 0

/-- The body of the loop of `acpi_tables_init` over the tables of the XSDT. -/
def acpiTable (acpica : Acpica) (table : Memory) (rounds : ℕ) : MadtM Unit :=
  if strncmp ((List.range 4).map table) madtSignature 4 = 0 then
    if madtChecksum table (load table 4 4) ≠ 0 then fail (.assertion "checksum == 0")
    else acpiParseMadt acpica table rounds
  else return ()

def acpiTablesInit (acpica : Acpica) (tables : List Memory) (rounds : ℕ) : MadtM Unit :=
  forEach tables fun table => acpiTable acpica table rounds

/-! ## The entries that are visited -/

/-- The length of the table, as its header has it. -/
def madtLength (table : Memory) : ℕ := load table 4 4

/-- The length of the entry. -/
def madtLen (table : Memory) (entry : ℕ) : ℕ := (table (entry + 1)).toNat

/-- An entry in the table is followed by the one behind its length. -/
def MadtNext (table : Memory) (fin entry next : ℕ) : Prop :=
  entry < fin ∧ next = entry + madtLen table entry

/-- The entries from that one on, and where they end. -/
abbrev MadtWalk (table : Memory) (fin : ℕ) : ℕ → ℕ → Prop :=
  Relation.ReflTransGen (MadtNext table fin)

/-! ## A table as bytes -/

/-- ACPICA's constants as its documentation has them, with interrupt 9 for the SCI. -/
def acpicaSample : Acpica := ⟨1, 0x03, 0x00, 0x01, 0x0C, 0x0C, 9⟩

/-- A table with these entries, without its checksum. -/
def madtBytes (entries : List UInt8) : List UInt8 :=
  madtSignature ++ [UInt8.ofNat (44 + entries.length), 0, 0, 0] ++ List.replicate 28 0 ++
    [0, 0, 0xE0, 0xFE, 1, 0, 0, 0] ++ entries

/-- The table; its checksum is byte 9. -/
def madtTable (entries : List UInt8) : Memory := fun a =>
  if a = 9 then 0 - (madtBytes entries).foldl (· + ·) 0 else (madtBytes entries).getD a 0

end Vineyard

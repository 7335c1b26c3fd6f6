import Vineyard.Lib.Radix
import Vineyard.Physical.Allocator

/-!
# Page tables

The part of `mm/virtual.c` that reads and writes page tables.  The code reaches them through slot 510
of the level-4 table, which points to that table itself: every access to an entry is an access to a
virtual address that the MMU translates with the very tables it goes to.  Physical memory is a map
from pages to their 512 words.  The MMU is modelled for tables without large pages; it does not look
at the write and execute bits, and no translations are cached.

The physical page allocator uses two entries of the level-1 table behind `mm_physical_stack_pml1` as
its window to its stacks.  Its functions run on that table and on the other pages read as stacks, and
what they write goes back to the same memory that holds the page tables.
-/

namespace Vineyard

open Function

/-- `HIGHER_HALF` -/
def higherHalf : ℕ := 0xFFFF800000000000
/-- `PML1_OFFSET` -/
def pml1Offset : ℕ := 0xFFFFFF0000000000
/-- `PML2_OFFSET` -/
def pml2Offset : ℕ := 0xFFFFFF7F80000000
/-- `PML3_OFFSET` -/
def pml3Offset : ℕ := 0xFFFFFF7FBFC00000
/-- `PML4_OFFSET` -/
def pml4Offset : ℕ := 0xFFFFFF7FBFDFE000
/-- `STACK_ADDR` -/
def stackAddr : ℕ := 0xFFFFFEFFFFFFF000
/-- `STACK_ADDR_TEMP` -/
def stackAddrTemp : ℕ := 0xFFFFFEFFFFFFE000

/-- Physical memory, as the memory manager uses it. -/
structure Mm where
  /-- The page of the level-4 table. -/
  pml4 : ℕ
  /-- The words of each physical page. -/
  mem : ℕ → ℕ → ℕ
  /-- `root_stack_phys` -/
  root : ℕ

/-- The page that an entry points to, if it is present. -/
def childTable (entry : ℕ) : Option ℕ :=
  if entry &&& pagePresent ≠ 0 then some (entry &&& frameMask) else none

namespace Mm

/-- Follow entries from the level-4 table, the last index first. -/
def walk (m : Mm) (path : List ℕ) : Option ℕ := Radix.walk childTable m.mem m.pml4 path

/-- The physical page behind a virtual address. -/
def translate (m : Mm) (addr : ℕ) : Except Fault ℕ :=
  match m.walk [addr / 2 ^ 12 % 512, addr / 2 ^ 21 % 512, addr / 2 ^ 30 % 512,
    addr / 2 ^ 39 % 512] with
  | some page => .ok page
  | none => .error (.pageFault addr)

/-- Read a 64-bit word at a virtual address. -/
def load (m : Mm) (addr : ℕ) : Except Fault ℕ := do
  let page ← m.translate addr
  return m.mem page (addr / 8 % 512)

def setEntry (m : Mm) (page index value : ℕ) : Mm :=
  { m with mem := update m.mem page (update (m.mem page) index value) }

/-- Write a 64-bit word at a virtual address. -/
def store (addr value : ℕ) (m : Mm) : Except Fault Mm := do
  let page ← m.translate addr
  return m.setEntry page (addr / 8 % 512) value

/-- `memset(addr, 0, 0x1000)` for the address of a page. -/
def clear (addr : ℕ) (m : Mm) : Except Fault Mm := do
  let page ← m.translate addr
  return { m with mem := update m.mem page fun _ => 0 }

end Mm

/-- `struct vm_indices` -/
structure VmIndices where
  pml4i : ℕ
  pml3i : ℕ
  pml2i : ℕ
  pml1i : ℕ
  pml4 : ℕ
  pml3 : ℕ
  pml2 : ℕ
  pml1 : ℕ

def mmVirtualIndices (addr : ℕ) : VmIndices :=
  let low := if addr ≥ higherHalf then addr - higherHalf else addr
  let pml4i := if addr ≥ higherHalf then 256 + (low >>> 39 &&& 0x1FF) else low >>> 39 &&& 0x1FF
  let pml3i := low >>> 30 &&& 0x1FF
  let pml2i := low >>> 21 &&& 0x1FF
  let pml1i := low >>> 12 &&& 0x1FF
  { pml4i := pml4i
    pml3i := pml3i
    pml2i := pml2i
    pml1i := pml1i
    pml4 := pml4Offset
    pml3 := pml3Offset + pml4i <<< 12
    pml2 := pml2Offset + pml4i <<< 21 + pml3i <<< 12
    pml1 := pml1Offset + pml4i <<< 30 + pml3i <<< 21 + pml2i <<< 12 }

/-- The address of an entry, `&table[index]`. -/
def entryAddr (table index : ℕ) : ℕ := table + 8 * index

/-! ## The physical page allocator on its table -/

/-- `mm_physical_stack_pml1` -/
def mmPhysicalStackPml1 : ℕ := (mmVirtualIndices stackAddr).pml1

namespace PhysicalStack

/-- A page read as a `struct mm_physical_stack`. -/
def ofPage (words : ℕ → ℕ) : PhysicalStack := ⟨words 0, words 1, words 2, fun i => words (i + 3)⟩

/-- The words of the page that holds the stack. -/
def toPage (st : PhysicalStack) : ℕ → ℕ
  | 0 => st.prev
  | 1 => st.next
  | 2 => st.used
  | i + 3 => st.data i

@[simp] theorem ofPage_toPage (st : PhysicalStack) : ofPage st.toPage = st := rfl

@[simp] theorem toPage_ofPage (words : ℕ → ℕ) : (ofPage words).toPage = words := by
  funext i
  match i with
  | 0 => rfl
  | 1 => rfl
  | 2 => rfl
  | i + 3 => rfl

end PhysicalStack

namespace Mm

/-- The allocator's level-1 table.  It has to be mapped, and so does the stack at `STACK_ADDR`. -/
def window (m : Mm) : Except Fault ℕ := do
  let _ ← m.translate stackAddr
  m.translate mmPhysicalStackPml1

/-- The state of the page allocator when its level-1 table is `page`. -/
def pmm (m : Mm) (page : ℕ) : Pmm := ⟨m.mem page, fun p => .ofPage (m.mem p), m.root⟩

/-- Put what the allocator has written back into memory. -/
def setPmm (m : Mm) (page : ℕ) (s : Pmm) : Mm :=
  { m with mem := update (fun p => (s.frame p).toPage) page s.pml1 }

/-- `mm_physical_get` -/
def physicalGet (m : Mm) : Except Fault (ℕ × Mm) := do
  let page ← m.window
  let (ret, s) ← mmPhysicalGet (m.pmm page)
  return (ret, m.setPmm page s)

/-- `mm_physical_mark_free` -/
def physicalMarkFree (addr : ℕ) (m : Mm) : Except Fault Mm := do
  let page ← m.window
  let s ← mmPhysicalMarkFree addr (m.pmm page)
  return m.setPmm page s

end Mm

/-! ## Mapping and lookup -/

/-- The three checks of `mm_virtual_map`: if an entry is not present, it gets a new, zeroed table,
which then lies at the address `table`. -/
def ensureTable (entry table : ℕ) (m : Mm) : Except Fault Mm := do
  let e ← m.load entry
  if e &&& pagePresent ≠ 0 then return m
  else
    let (newTable, m) ← m.physicalGet
    let m ← m.store entry (newTable ||| pagePresent ||| pageWrite)
    m.clear table

/-- The loop of `mm_virtual_map` over the entries of one level-1 table, of which there are 512. -/
def mapLoop (pml1 phys pages flags : ℕ) : ℕ → ℕ → ℕ → Mm → Except Fault (ℕ × Mm)
  | 0, _, _, _ => .error .endless
  | fuel + 1, c, mappedPages, m =>
      if c < 512 ∧ mappedPages < pages then do
        let m ← m.store (entryAddr pml1 c) (Word64.add phys (mappedPages <<< 12 % 2 ^ 64) ||| flags)
        mapLoop pml1 phys pages flags fuel (c + 1) (mappedPages + 1) m
      else .ok (mappedPages, m)

/-- `mm_virtual_map`, with a bound on the depth of its recursion. -/
def mmVirtualMapRec : ℕ → ℕ → ℕ → ℕ → ℕ → Mm → Except Fault Mm
  | 0, _, _, _, _, _ => .error .endless
  | fuel + 1, phys, virt, pages, flags, m => do
      let i := mmVirtualIndices virt
      let m ← ensureTable (entryAddr i.pml4 i.pml4i) i.pml3 m
      let m ← ensureTable (entryAddr i.pml3 i.pml3i) i.pml2 m
      let m ← ensureTable (entryAddr i.pml2 i.pml2i) i.pml1 m
      let (mappedPages, m) ← mapLoop i.pml1 phys pages flags 513 i.pml1i 0 m
      if mappedPages < pages then
        let bytes := mappedPages <<< 12 % 2 ^ 64
        mmVirtualMapRec fuel (Word64.add phys bytes) (Word64.add virt bytes) (pages - mappedPages)
          flags m
      else return m

/-- Every call maps at least one page, or has none to map. -/
def mmVirtualMap (phys virt pages flags : ℕ) (m : Mm) : Except Fault Mm :=
  mmVirtualMapRec (pages + 1) phys virt pages flags m

/-- The condition of `mm_virtual_get_phys` and `mm_virtual_get_flags`. -/
def allPresent (i : VmIndices) (m : Mm) : Except Fault Bool := do
  if (← m.load (entryAddr i.pml4 i.pml4i)) &&& pagePresent = 0 then return false
  if (← m.load (entryAddr i.pml3 i.pml3i)) &&& pagePresent = 0 then return false
  if (← m.load (entryAddr i.pml2 i.pml2i)) &&& pagePresent = 0 then return false
  return (← m.load (entryAddr i.pml1 i.pml1i)) &&& pagePresent ≠ 0

def mmVirtualGetPhys (virt : ℕ) (m : Mm) : Except Fault ℕ := do
  let i := mmVirtualIndices virt
  if ← allPresent i m then return (← m.load (entryAddr i.pml1 i.pml1i)) &&& frameMask
  else return 0

def mmVirtualGetFlags (virt : ℕ) (m : Mm) : Except Fault ℕ := do
  let i := mmVirtualIndices virt
  if ← allPresent i m then return (← m.load (entryAddr i.pml1 i.pml1i)) &&& flagsMask
  else return 0

end Vineyard

import Vineyard.Mman.Calls

/-!
# The start of the memory manager

`mm_physical_init` and `mm_virtual_init`, which `main` calls one after the other.  The first sets up
the stack of the page allocator with four pages of the kernel image, marks the free pages of the
firmware's memory map and maps its ACPI tables; the second maps the first slab and builds the region
list.  The registers that `mm_page_tables_commit` writes are left out.  So is what
`mm_slab_create_initial` stores in the slab's pages: that is part of `Slab.mmCacheCreateVm`.
-/

namespace Vineyard

/-- The four page-aligned arrays of `mm/physical.c`: their addresses, or the pages behind them. -/
structure StaticPages where
  stackPml3 : ℕ
  stackPml2 : ℕ
  stackPml1 : ℕ
  rootStack : ℕ

/-- `efi_memory_type`; the last constructor stands for all values that the code does not know. -/
inductive EfiMemoryType where
  | reservedMemoryType
  | loaderCode
  | loaderData
  | bootServicesCode
  | bootServicesData
  | runtimeServicesCode
  | runtimeServicesData
  | conventionalMemory
  | unusableMemory
  | acpiReclaimMemory
  | acpiMemoryNvs
  | memoryMappedIo
  | memoryMappedIoPortSpace
  | palCode
  | persistentMemory
  | other (value : ℕ)
  deriving DecidableEq

/-- `efi_memory_descriptor`, without the fields that are not read. -/
structure EfiMemoryDescriptor where
  type : EfiMemoryType
  physicalStart : ℕ
  numberOfPages : ℕ

/-! ## `mm_physical_init` -/

/-- The three checks of `mm_physical_init_stack`: if an entry is not present, it gets the static page
at the address `page` as a new, zeroed table, which then lies at the address `table`. -/
def ensureStaticTable (entry table page : ℕ) (m : Mm) : Except Fault Mm := do
  let e ← m.load entry
  if e &&& pagePresent ≠ 0 then return m
  else
    let phys ← mmVirtualGetPhys page m
    let m ← m.store entry (phys ||| pagePresent ||| pageWrite)
    m.clear table

/-- `memset` clears `sizeof(*root_stack)` bytes, the first word. -/
def Mm.physicalInitStack (static : StaticPages) (m : Mm) : Except Fault Mm := do
  let i := mmVirtualIndices stackAddr
  let m ← ensureStaticTable (entryAddr i.pml4 i.pml4i) i.pml3 static.stackPml3 m
  let m ← ensureStaticTable (entryAddr i.pml3 i.pml3i) i.pml2 static.stackPml2 m
  let m ← ensureStaticTable (entryAddr i.pml2 i.pml2i) i.pml1 static.stackPml1 m
  let rootStackPhys ← mmVirtualGetPhys static.rootStack m
  let m := { m with root := rootStackPhys }
  let m ← mmVirtualMap rootStackPhys stackAddr 1 (pagePresent ||| pageWrite) m
  let m ← m.store (entryAddr mmPhysicalStackPml1 511) (rootStackPhys ||| pagePresent ||| pageWrite)
  m.store static.rootStack 0

/-- The loop of `mm_physical_init` over the pages of an entry, from page `j` on, for `n` pages. -/
def markFreeLoop (start : ℕ) : ℕ → ℕ → Mm → Except Fault Mm
  | 0, _, m => .ok m
  | n + 1, j, m => do
      let m ← m.physicalMarkFree (Word64.add start (j <<< 12 % 2 ^ 64))
      markFreeLoop start n (j + 1) m

/-- The body of the loop of `mm_physical_init`. -/
def mmPhysicalInitEntry (desc : EfiMemoryDescriptor) (m : Mm) : Except Fault Mm :=
  if desc.type = .conventionalMemory ∨ desc.type = .bootServicesCode ∨
      desc.type = .bootServicesData then
    markFreeLoop desc.physicalStart desc.numberOfPages 0 m
  else if desc.type = .acpiReclaimMemory then
    mmVirtualMap desc.physicalStart desc.physicalStart desc.numberOfPages (pagePresent ||| pageNx) m
  else .ok m

def mmPhysicalInit (static : StaticPages) (efiMemoryMap : List EfiMemoryDescriptor) (m : Mm) :
    Except Fault Mm := do
  let m ← m.physicalInitStack static
  efiMemoryMap.foldlM (fun m desc => mmPhysicalInitEntry desc m) m

/-! ## `mm_virtual_init` -/

/-- The allocator's stack is mapped where it is mapped already. -/
def mmPageTablesCommit (m : Mm) : Except Fault Mm := do
  let pmmStackAddr := (← m.load (entryAddr mmPhysicalStackPml1 511)) &&& frameMask
  let pmmStackFlags := (← m.load (entryAddr mmPhysicalStackPml1 511)) &&& flagsMask
  mmVirtualMap pmmStackAddr stackAddr 1 pmmStackFlags m

/-- A page of the first slab, `mm_virtual_map(mm_physical_get(), virt, 1, ...)`; the page is
returned. -/
def mapSlabPage (virt : ℕ) (m : Mm) : Except Fault (ℕ × Mm) := do
  let (phys, m) ← m.physicalGet
  let m ← mmVirtualMap phys virt 1 (pagePresent ||| pageWrite ||| pageNx) m
  return (phys, m)

/-- The four mappings of `mm_slab_create_initial`; the pages are returned. -/
def mapSlab (m : Mm) : Except Fault (List ℕ × Mm) := do
  let (p₀, m) ← mapSlabPage slabVmBase m
  let (p₁, m) ← mapSlabPage (slabVmBase + 0x1000) m
  let (p₂, m) ← mapSlabPage (slabVmBase + 0x2000) m
  let (p₃, m) ← mapSlabPage (slabVmBase + 0x3000) m
  return ([p₀, p₁, p₂, p₃], m)

/-- `mm_physical_init` and `mm_virtual_init`.  The nodes of the region list are taken from `objects`,
and the pages behind the slab are returned. -/
def initMemory (static : StaticPages) (efiMemoryMap : List EfiMemoryDescriptor) (objects : List ℕ)
    (kernelSize : ℕ) (m : Mm) : Except Fault (List ℕ × Sys) := do
  let m ← mmPhysicalInit static efiMemoryMap m
  let m ← mmPageTablesCommit m
  let (slab, m) ← mapSlab m
  let vmm ← mmVirtualInit kernelSize (.empty (fun _ => ⟨0, 0, 0, 0, 0⟩) objects)
  return (slab, ⟨m, vmm⟩)

end Vineyard

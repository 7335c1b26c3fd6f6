import Vineyard.Paging.Tables
import Vineyard.Region.List

/-!
# The callers of the memory manager

`mmap` and `munmap` of `lib/sys/mman`, `acpi_os_map_memory` and `acpi_os_unmap_memory` of
`driver/acpi/osl/mm.c`, and `pci_express_read` of `pci/express/init.c`.  They reserve addresses in the
region list and write the page tables; `mmap` and `munmap` also take and give back physical pages,
and here they return these pages together with their result.
-/

namespace Vineyard

/-- The state of the memory manager: physical memory and the region list. -/
structure Sys where
  mm : Mm
  vmm : Vmm

/-- `PROT_NONE` -/
def protNone : ℕ := 0x0
/-- `PROT_READ` -/
def protRead : ℕ := 0x1
/-- `PROT_WRITE` -/
def protWrite : ℕ := 0x2
/-- `PROT_EXEC` -/
def protExec : ℕ := 0x4
/-- `MAP_ANONYMOUS` -/
def mapAnonymous : ℕ := 0x1
/-- `MAP_PRIVATE` -/
def mapPrivate : ℕ := 0x2

/-- The page flags that `mmap` derives from `prot`. -/
def mmapFlags (prot : ℕ) : ℕ :=
  let f := 0
  let f := if prot &&& protRead ≠ 0 then f ||| pagePresent else f
  let f := if prot &&& protWrite ≠ 0 then f ||| pageWrite else f
  let f := if prot &&& protExec = 0 then f ||| pageNx else f
  if prot &&& protNone ≠ 0 then 0 else f

/-- The loop of `mmap` from page `i` on, for `n` pages; the pages taken are returned. -/
def mmapLoop (virt f : ℕ) : ℕ → ℕ → Mm → Except Fault (List ℕ × Mm)
  | 0, _, m => .ok ([], m)
  | n + 1, i, m => do
      let (phys, m) ← m.physicalGet
      let m ← mmVirtualMap phys (Word64.add virt (i <<< 12 % 2 ^ 64)) 1 f m
      let (taken, m) ← mmapLoop virt f n (i + 1) m
      return (phys :: taken, m)

def mmap (addr len prot flags : ℕ) (fd off : ℤ) (s : Sys) : Except Fault (ℕ × List ℕ × Sys) :=
  if addr ≠ 0 then .error (.assertion "addr == NULL")
  else if fd ≠ -1 then .error (.assertion "fd == -1")
  else if ¬ (flags &&& mapAnonymous ≠ 0 ∧ flags &&& mapPrivate ≠ 0) then
    .error (.assertion "flags & MAP_ANONYMOUS && flags & MAP_PRIVATE")
  else if off ≠ 0 then .error (.assertion "off == 0")
  else do
    let pages := len >>> 12
    let (virt, vmm) ← mmVirtualAlloc pages s.vmm
    let (taken, mm) ← mmapLoop virt (mmapFlags prot) pages 0 s.mm
    return (virt, taken, ⟨mm, vmm⟩)

/-- The loop of `munmap` from page `i` on, for `n` pages; the pages marked free are returned. -/
def munmapLoop (addr : ℕ) : ℕ → ℕ → Mm → Except Fault (List ℕ × Mm)
  | 0, _, m => .ok ([], m)
  | n + 1, i, m => do
      let virt := Word64.add addr (i <<< 12 % 2 ^ 64)
      let phys ← mmVirtualGetPhys virt m
      let m ← mmVirtualMap 0 virt 1 0 m
      let m ← m.physicalMarkFree phys
      let (freed, m) ← munmapLoop addr n (i + 1) m
      return (phys :: freed, m)

def munmap (addr len : ℕ) (s : Sys) : Except Fault (ℤ × List ℕ × Sys) :=
  if addr = 0 ∨ addr &&& 0x3FF ≠ 0 ∨ len = 0 then .ok (-1, [], s)
  else do
    let pages := len >>> 12
    let (freed, mm) ← munmapLoop addr pages 0 s.mm
    let (region, vmm) ← mmVirtualFree addr s.vmm
    if region ≠ len then .error (.assertion "region == len")
    else return (0, freed, ⟨mm, vmm⟩)

/-- `ALIGN_UP(x, 0x1000)`; the complement of its unsigned mask has 32 bits. -/
def alignUp (x : ℕ) : ℕ := Word64.add x 0xFFF &&& 0xFFFFF000

/-- The loop of `acpi_os_map_memory` from byte `i` on, for `n` pages. -/
def acpiMapLoop (phys virt : ℕ) : ℕ → ℕ → Mm → Except Fault Mm
  | 0, _, m => .ok m
  | n + 1, i, m => do
      let m ← mmVirtualMap (Word64.add phys i) (Word64.add virt i) 1
        (pagePresent ||| pageWrite ||| pageNx) m
      acpiMapLoop phys virt n (i + 0x1000) m

/-- The aligned length is a multiple of `0x1000`, so the loop runs once for each page. -/
def acpiOsMapMemory (physicalAddress length : ℕ) (s : Sys) : Except Fault (ℕ × Sys) := do
  let overhang := physicalAddress &&& 0xFFF
  let length := alignUp (Word64.add length overhang)
  let (virt, vmm) ← mmVirtualAlloc (length >>> 12) s.vmm
  let phys := physicalAddress - overhang
  let mm ← acpiMapLoop phys virt (length >>> 12) 0 s.mm
  return (Word64.add virt overhang, ⟨mm, vmm⟩)

def acpiOsUnmapMemory (where_ length : ℕ) (s : Sys) : Except Fault Sys := do
  let addr := where_ &&& (2 ^ 64 - 0x1000)
  let overhang := where_ &&& 0xFFF
  let len := alignUp (Word64.add length overhang)
  let (freed, vmm) ← mmVirtualFree addr s.vmm
  if len ≠ freed then .error (.assertion "len == mm_virtual_free(addr)")
  else return ⟨s.mm, vmm⟩

/-- `pcie_segment_t`; `bus_start` and `bus_end` are not used after they are stored. -/
structure PcieSegment where
  seg : ℕ
  phys : ℕ

/-- Read a byte of device memory at a virtual address. -/
def readMmio (mmio : ℕ → ℕ) (addr : ℕ) (m : Mm) : Except Fault ℕ := do
  let page ← m.translate addr
  return mmio (page + addr % 0x1000) % 0x100

/-- Eight bytes of device memory, the lowest first. -/
def readMmio64 (mmio : ℕ → ℕ) (addr : ℕ) (m : Mm) : Except Fault ℕ :=
  (List.range 8).foldlM (fun data i => do
    let byte ← readMmio mmio (addr + i) m
    return data ||| byte <<< (8 * i)) 0

/-- `pci_express_read` for the segments that `pci_express_init` has found; `mmio` is what the devices
answer at each physical address. -/
def pciExpressRead (segments : List PcieSegment) (mmio : ℕ → ℕ)
    (segment bus slot function offset : ℕ) (s : Sys) : Except Fault (ℕ × Sys) :=
  match segments.find? fun config => config.seg = segment with
  | none => .error (.panic "[PCIe]\tsegment %hu not found\n")
  | some config => do
      let page := Word64.add config.phys (bus <<< 20 ||| slot <<< 15 ||| function <<< 12)
      let (virt, vmm) ← mmVirtualAlloc 1 s.vmm
      let mm ← mmVirtualMap page virt 1 (pagePresent ||| pageWrite) s.mm
      if offset > 0x1000 - 8 then .error (.assertion "offset <= (0x1000 - 8)")
      else do
        let data ← readMmio64 mmio (virt + offset) mm
        let mm ← mmVirtualMap page virt 1 0 mm
        let (_, vmm) ← mmVirtualFree virt vmm
        return (data, ⟨mm, vmm⟩)

/-- A configuration read that returns has mapped a new page, taken the mapping back and freed the
page. -/
theorem pciExpressRead_eq_ok {segments : List PcieSegment} {mmio : ℕ → ℕ}
    {segment bus slot function offset data : ℕ} {s s' : Sys}
    (call : pciExpressRead segments mmio segment bus slot function offset s = .ok (data, s')) :
    ∃ config page virt vmm mm n, segments.find? (fun config => config.seg = segment) = some config ∧
      page = Word64.add config.phys (bus <<< 20 ||| slot <<< 15 ||| function <<< 12) ∧
      mmVirtualAlloc 1 s.vmm = .ok (virt, vmm) ∧
      mmVirtualMap page virt 1 (pagePresent ||| pageWrite) s.mm = .ok mm ∧
      mmVirtualMap page virt 1 0 mm = .ok s'.mm ∧ mmVirtualFree virt vmm = .ok (n, s'.vmm) := by
  rw [pciExpressRead] at call
  cases find : segments.find? (fun config => config.seg = segment) with
  | none =>
    rw [find] at call
    cases call
  | some config =>
    rw [find] at call
    simp only at call
    obtain ⟨⟨virt, vmm⟩, alloc, call⟩ := Fallible.bind_eq_ok.1 call
    obtain ⟨mm, map, call⟩ := Fallible.bind_eq_ok.1 call
    simp only at call
    split_ifs at call
    obtain ⟨_, _, call⟩ := Fallible.bind_eq_ok.1 call
    obtain ⟨mm', unmap, call⟩ := Fallible.bind_eq_ok.1 call
    obtain ⟨⟨n, vmm'⟩, freed, call⟩ := Fallible.bind_eq_ok.1 call
    obtain ⟨_, rfl⟩ := Prod.mk.inj (Except.ok.inj call)
    exact ⟨config, _, virt, vmm, mm, n, rfl, rfl, alloc, map, unmap, freed⟩

end Vineyard

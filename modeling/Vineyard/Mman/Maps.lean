import Vineyard.Mman.Release
import Vineyard.Paging.Piecewise

/-!
# Physical ranges behind new regions

`acpi_os_map_memory` and `debug_init` reserve a region and map a range of physical memory there.  What
they return points to the first byte of the range, so the bytes after it should be those of the range,
and the region should hold all of them.
-/

namespace Vineyard

variable {m m' : Mm} {K : ℕ} {L : List (ℕ × ℕ)} {rs rs' : List Region} {vmm vmm' : Vmm}
  {virt phys n flags a b pages size : ℕ}

/-! ## The region that an allocation has reserved -/

/-- First fit marks the beginning of a free region; what is left of that region stays free. -/
theorem FirstFit.regions (fit : FirstFit size rs a rs') : ∃ l r k rest, rs = l ++ r :: k ∧
    rs' = l ++ ⟨a, size, markUsed r.flags⟩ :: (rest ++ k) ∧ r.start = a ∧ size ≤ r.len ∧
    r.flags &&& vmFree ≠ 0 ∧ ∀ x ∈ rest, x.flags = r.flags := by
  cases fit with
  | exact l r k before free len =>
    subst len
    exact ⟨l, r, k, [], rfl, rfl, rfl, le_rfl, free, by simp⟩
  | split l r k before free len =>
    exact ⟨l, r, k, [_], rfl, rfl, rfl, len.le, free, by simp⟩

/-- The addresses that were free before an allocation and are used after it. -/
theorem Ledger.justAllocated (h : Ledger K L rs) (holds : vmm.Holds rs) (small : pages < 2 ^ 52)
    (call : mmVirtualAlloc pages vmm = .ok (a, vmm')) (b : ℕ) :
    vmm.InNode vmFree b ∧ vmm'.InNode vmUsed b ↔ a ≠ 0 ∧ a ≤ b ∧ b < a + pages * 0x1000 := by
  -- No region of the old list is both free and used.
  have apart : ∀ x ∈ rs, ∀ y ∈ rs, x.start ≤ b ∧ b < x.start + x.len → y.start ≤ b ∧
    b < y.start + y.len →
      x.flags &&& vmFree ≠ 0 → ¬ y.flags &&& vmUsed ≠ 0 := by
    intro x hx y hy coversX coversY free used
    obtain rfl := h.paged.tiles.eq_of_covers hx hy coversX coversY
    rw [h.eq_vmFree hx free] at used
    exact used (by decide)
  rw [holds.inNode_iff]
  obtain ⟨rfl, rfl⟩ | ⟨_, rs', fit, holds'⟩ := mmVirtualAlloc_cases holds h.paged small call
  · rw [holds.inNode_iff]
    constructor
    · rintro ⟨⟨x, hx, lowX, highX, free⟩, y, hy, lowY, highY, used⟩
      exact absurd used (apart x hx y hy ⟨lowX, highX⟩ ⟨lowY, highY⟩ free)
    · exact fun h => absurd rfl h.1
  rw [holds'.inNode_iff]
  have nz := h.paged.firstFit_ne_zero fit
  obtain ⟨l, r, k, rest, rfl, rfl, rfl, room, free, left⟩ := fit.regions
  constructor
  · rintro ⟨⟨x, hx, lowX, highX, freeX⟩, y, hy, lowY, highY, used⟩
    simp only [List.mem_append, List.mem_cons] at hy
    obtain old | rfl | new | old := hy
    · exact absurd used (apart x hx y (by simp [old]) ⟨lowX, highX⟩ ⟨lowY, highY⟩ freeX)
    · exact ⟨nz, lowY, highY⟩
    · rw [left y new, h.eq_vmFree (by simp) free] at used
      exact absurd used (by decide)
    · exact absurd used (apart x hx y (by simp [old]) ⟨lowX, highX⟩ ⟨lowY, highY⟩ freeX)
  · rintro ⟨_, low, high⟩
    refine ⟨⟨r, by simp, low, high.trans_le (Nat.add_le_add_left room _), free⟩, _,
      List.mem_append_right _ List.mem_cons_self, low, high, ?_⟩
    show markUsed r.flags &&& vmUsed ≠ 0
    rw [h.eq_vmFree (by simp) free]
    decide

/-! ## The bytes behind a mapped region -/

/-- The physical address of the byte at a virtual address. -/
def Mm.physical (m : Mm) (addr : ℕ) : Except Fault ℕ := do
  let page ← m.translate addr
  return page + addr % 0x1000

theorem Mm.physical_eq_ok {addr p : ℕ} :
    m.physical addr = .ok p ↔ ∃ page, m.translate addr = .ok page ∧ page + addr % 0x1000 = p := by
  rw [Mm.physical, Fallible.bind_eq_ok]
  simp

/-- The bytes of a mapped range, one after the other. -/
theorem Maps.physical {ps : List ℕ} (maps : Maps m m' ps phys virt n flags)
    (physAligned : phys % 0x1000 = 0) (physStop : phys + n * 0x1000 ≤ 2 ^ 52)
    (aligned : virt % 0x1000 = 0) (present : flags &&& pagePresent ≠ 0)
    (inside : flags &&& flagsMask = flags) {j : ℕ} (lt : j < n * 0x1000) :
    m'.physical (virt + j) = .ok (phys + j) := by
  have bound : j / 0x1000 < n := by omega
  have page : PhysPage (phys + j / 0x1000 * 0x1000) := ⟨by omega, by omega⟩
  have entry : m'.pte (virt + j) = (phys + j / 0x1000 * 0x1000) ||| flags := by
    rw [← maps.mapped _ bound]
    exact m'.pte_congr (by omega)
  exact Mm.physical_eq_ok.2
    ⟨phys + j / 0x1000 * 0x1000, Mm.translate_of_pte page present inside entry, by omega⟩

theorem ManagedPages.mapArgs (region : ManagedPages virt 0 n)
    (physStop : phys + n * 0x1000 ≤ 2 ^ 52) :
    MapArgs phys virt n := by
  have aligned := region.aligned
  have low := region.low
  have high := region.high
  simp only [managedLo, slabVmBase, Nat.zero_add] at low high
  refine ⟨aligned, by omega, by omega, by omega, fun k hk => by omega, fun k hk => ?_⟩
  have managed := region.managed hk
  rw [Nat.zero_add] at managed
  exact managed.outside

/-- The loop of `acpi_os_map_memory` maps its pages one by one. -/
theorem acpiMapLoop_eq_mapSingly (i : ℕ) : acpiMapLoop phys virt n (i * 0x1000) m =
    mapSingly phys virt (pagePresent ||| pageWrite ||| pageNx) n i m := by
  induction n generalizing i m with
  | zero => rfl
  | succ n ih =>
    rw [acpiMapLoop, mapSingly]
    refine Fallible.bind_congr_ok fun m₁ _ => ?_
    rw [← Nat.succ_mul]
    exact ih (i + 1)

/-- The loop of `acpi_os_map_memory` does what one call for all of its pages does. -/
theorem acpiMapLoop_eq_map (ok : m.Ok) (fresh : FreshSupply m) (region : ManagedPages virt 0 n)
    (physStop : phys + n * 0x1000 ≤ 2 ^ 52) (pos : 0 < n) : acpiMapLoop phys virt n 0 m =
      mmVirtualMap phys virt n (pagePresent ||| pageWrite ||| pageNx) m := by
  have args := region.mapArgs physStop
  have low := region.low
  have high := region.high
  simp only [managedLo, slabVmBase, Nat.zero_add] at low high
  obtain ⟨n, rfl⟩ : ∃ k, n = k + 1 := ⟨n - 1, by omega⟩
  have all : ∀ m', MapGets (pagePresent ||| pageWrite ||| pageNx) phys virt (n + 1) m m' →
      m'.FreshGet := fun m' gets => ok.mapGets_fresh fresh args gets
  have range : PageRange virt (n + 1) := ⟨region.aligned, by omega, fun k hk => by
    simp only [OutsideWindow]
    omega⟩
  have singly := ok.leveled.mmVirtualMap_singly (by omega) n range all
  rw [singly, ← acpiMapLoop_eq_mapSingly, Nat.zero_mul]

/-! ## `acpi_os_map_memory` -/

section Acpi

variable {s s' : Sys} {physicalAddress length : ℕ}

/-- The page count loses its bits from bit 20 on: the mask of `ALIGN_UP` has 32 bits. -/
theorem acpiPages_eq (physicalAddress : ℕ) (fits : length + 0x1FFE < 2 ^ 64) :
    acpiPages physicalAddress length =
      (length + physicalAddress % 0x1000 + 0xFFF) / 0x1000 % 2 ^ 20 := by
  have low : physicalAddress &&& 0xFFF = physicalAddress % 0x1000 := Words.and_low physicalAddress 12
  have mask : (0xFFFFF000 : ℕ) = 2 ^ 32 - 2 ^ 12 := rfl
  have sum : Word64.add length (physicalAddress % 0x1000) = length + physicalAddress % 0x1000 :=
    Word64.add_eq (by omega)
  rw [acpiPages, alignUp, low, sum, Word64.add_eq (by omega), mask, Words.and_field _ _ _ (by decide),
    Nat.shiftRight_eq_div_pow]
  omega

theorem acpiOsMapMemory_eq : acpiOsMapMemory physicalAddress length s = do
    let (virt, vmm) ← mmVirtualAlloc (acpiPages physicalAddress length) s.vmm
    let mm ← acpiMapLoop (physicalAddress - physicalAddress % 0x1000) virt
      (acpiPages physicalAddress length) 0 s.mm
    return (Word64.add virt (physicalAddress % 0x1000), ⟨mm, vmm⟩) := by
  have low : physicalAddress &&& 0xFFF = physicalAddress % 0x1000 := Words.and_low physicalAddress 12
  simp only [acpiOsMapMemory, acpiPages, low]

/-- The fault of a call that maps so many pages: the cache has no node left for the region, or one of
the page tables it needs is not to be had. -/
def Sys.Exhausted (s : Sys) (pages : ℕ) (e : Fault) : Prop :=
  (s.vmm.slab = [] ∧ e = .panic "mm_slab_create unimplemented") ∨
    GetFailsWithin (3 * max 1 pages) s.mm e

/-- A call that finds room maps the pages there, if there are nodes and pages for it. -/
theorem acpiOsMapMemory_spec (ledger : Ledger K L rs) (holds : s.vmm.Holds rs) (ok : s.mm.Ok)
    (fresh : FreshSupply s.mm) (stop : physicalAddress + length ≤ 2 ^ 52)
    (pos : 0 < acpiPages physicalAddress length)
    (room : s.Allocates (acpiPages physicalAddress length)) :
    (∃ virt vmm mm ps, mmVirtualAlloc (acpiPages physicalAddress length) s.vmm = .ok (virt, vmm) ∧
      virt ≠ 0 ∧ ManagedPages virt 0 (acpiPages physicalAddress length) ∧
      acpiOsMapMemory physicalAddress length s = .ok (virt + physicalAddress % 0x1000, ⟨mm, vmm⟩) ∧
      Maps s.mm mm ps (physicalAddress - physicalAddress % 0x1000) virt
        (acpiPages physicalAddress length) (pagePresent ||| pageWrite ||| pageNx)) ∨
    ∃ e, acpiOsMapMemory physicalAddress length s = .error e ∧
      s.Exhausted (acpiPages physicalAddress length) e := by
  have pages := acpiPages_eq physicalAddress (show length + 0x1FFE < 2 ^ 64 by omega)
  obtain ⟨_, none⟩ | ⟨virt, rs', vmm, fit, alloc, _⟩ | ⟨empty, failed⟩ :=
    mmVirtualAlloc_refines holds ledger.paged.few ledger.paged.words pos
      (acpiPages_lt physicalAddress length)
  · exact absurd none (room _)
  · have found := ledger.paged.firstFit_ne_zero fit
    obtain ⟨_, _, region, _⟩ := ledger.alloc holds (acpiPages_lt _ _) alloc found
    have physStop : physicalAddress - physicalAddress % 0x1000 +
        acpiPages physicalAddress length * 0x1000 ≤ 2 ^ 52 := by omega
    have pointer : Word64.add virt (physicalAddress % 0x1000) = virt + physicalAddress % 0x1000 := by
      have high := region.high
      simp only [slabVmBase] at high
      exact Word64.add_eq (by omega)
    simp only [acpiOsMapMemory_eq, alloc, Fallible.ok_bind,
      acpiMapLoop_eq_map ok fresh region physStop pos, pointer]
    obtain ⟨mm, ps, run, maps⟩ | ⟨e, run, fails⟩ := mmVirtualMapRec_spec ok fresh
      (region.mapArgs physStop) (Nat.lt_succ_self (acpiPages physicalAddress length))
    · left
      refine ⟨virt, vmm, mm, ps, rfl, found, region, ?_, maps⟩
      rw [mmVirtualMap, run]
      rfl
    · right
      refine ⟨e, ?_, .inr fails⟩
      rw [mmVirtualMap, run]
      rfl
  · right
    refine ⟨.panic "mm_slab_create unimplemented", ?_, .inl ⟨empty, rfl⟩⟩
    rw [acpiOsMapMemory_eq, failed]
    rfl

/-- The bytes of the range are mapped one after the other, in the region that the call has
allocated. -/
def MapsRange (s s' : Sys) (pointer physicalAddress length : ℕ) : Prop :=
  ∀ k < length, (s.vmm.InNode vmFree (pointer + k) ∧ s'.vmm.InNode vmUsed (pointer + k)) ∧
    s'.mm.physical (pointer + k) = .ok (physicalAddress + k)

/-- A node with `VM_FREE` is at least `len` bytes long. -/
def Vmm.HasRoom (s : Vmm) (len : ℕ) : Prop := ∃ n ∈ s.nodeList, n.flags &&& vmFree ≠ 0 ∧ len ≤ n.len

theorem Vmm.HasRoom.fits {len : ℕ} (room : vmm.HasRoom len) (holds : vmm.Holds rs) :
    ∃ r ∈ rs, r.Fits len := by
  obtain ⟨n, mem, free, le⟩ := room
  rw [← holds.map_nodeList]
  exact ⟨n.region, List.mem_map_of_mem mem, free, le⟩

theorem Vmm.HasRoom.mono {len len' : ℕ} (room : vmm.HasRoom len) (le : len' ≤ len) :
    vmm.HasRoom len' := by
  obtain ⟨n, mem, free, long⟩ := room
  exact ⟨n, mem, free, le.trans long⟩

theorem Ledger.allocates (ledger : Ledger K L rs) (holds : s.vmm.Holds rs) (pos : 0 < pages)
    (small : pages < 2 ^ 52) (room : s.vmm.HasRoom (pages * 0x1000)) : s.Allocates pages := by
  intro vmm none
  obtain ⟨unfit, _⟩ | ⟨a, rs', vmm', fit, alloc, _⟩ | ⟨_, failed⟩ :=
    mmVirtualAlloc_refines holds ledger.paged.few ledger.paged.words pos small
  · obtain ⟨r, mem, fits⟩ := room.fits holds
    exact unfit r mem fits
  · have zero := (Prod.mk.inj (Except.ok.inj (alloc.symm.trans none))).1
    exact ledger.paged.firstFit_ne_zero fit zero
  · rw [failed] at none
    cases none

/-- Without a page to map, nothing is reserved and nothing is mapped. -/
theorem acpiOsMapMemory_none (none : acpiPages physicalAddress length = 0) :
    acpiOsMapMemory physicalAddress length s =
      .ok (Word64.add 0 (physicalAddress % 0x1000), s) := by
  have alloc : mmVirtualAlloc (acpiPages physicalAddress length) s.vmm = .ok (0, s.vmm) := by
    rw [none]
    rfl
  rw [acpiOsMapMemory_eq, alloc, Fallible.ok_bind, none]
  rfl

theorem not_mapsRange_self (ledger : Ledger K L rs) (holds : s.vmm.Holds rs) (pos : 0 < length)
    (pointer physicalAddress : ℕ) : ¬ MapsRange s s pointer physicalAddress length := by
  intro range
  have first := (range 0 pos).1
  have alloc : mmVirtualAlloc 0 s.vmm = .ok (0, s.vmm) := rfl
  rw [ledger.justAllocated holds (by decide) alloc] at first
  exact first.1 rfl

/-- **`acpi_os_map_memory` maps every byte of the range** in the region it allocates exactly when the
range, rounded up to whole pages, is shorter than 4 GiB. -/
theorem acpiOsMapMemory_mapsRange_iff {kernelSize : ℕ} (kernelPos : 0 < pageUp kernelSize)
    (kernelSmall : pageUp kernelSize < 0x80000000) (regions : LedgerRun kernelSize L s.vmm)
    (ok : s.mm.Ok) (fresh : FreshSupply s.mm) (pos : 0 < length)
    (stop : physicalAddress + length ≤ 2 ^ 52)
    (room : s.vmm.HasRoom ((physicalAddress % 0x1000 + length + 0xFFF) / 0x1000 * 0x1000)) :
    ((∃ pointer s', acpiOsMapMemory physicalAddress length s = .ok (pointer, s')) ∨
      ∃ e, acpiOsMapMemory physicalAddress length s = .error e ∧
        s.Exhausted (acpiPages physicalAddress length) e) ∧
    ∀ pointer s', acpiOsMapMemory physicalAddress length s = .ok (pointer, s') →
      (MapsRange s s' pointer physicalAddress length ↔
        physicalAddress % 0x1000 + length + 0xFFF < 2 ^ 32) := by
  obtain ⟨rs, holds, ledger⟩ := regions.ledger kernelPos kernelSmall
  have pages := acpiPages_eq physicalAddress (show length + 0x1FFE < 2 ^ 64 by omega)
  by_cases none : acpiPages physicalAddress length = 0
  · have call := acpiOsMapMemory_none (s := s) none
    refine ⟨.inl ⟨_, _, call⟩, fun pointer s' call' => ?_⟩
    obtain ⟨rfl, rfl⟩ := Prod.mk.inj (Except.ok.inj (call.symm.trans call'))
    exact iff_of_false (not_mapsRange_self ledger holds pos _ _) (by omega)
  have fewer : acpiPages physicalAddress length ≤
      (physicalAddress % 0x1000 + length + 0xFFF) / 0x1000 := by
    rw [pages, Nat.add_comm length]
    exact Nat.mod_le _ _
  have allocates := ledger.allocates holds (Nat.pos_of_ne_zero none) (acpiPages_lt _ _)
    (room.mono (Nat.mul_le_mul_right _ fewer))
  obtain ⟨virt, vmm, mm, ps, alloc, found, region, call, maps⟩ | ⟨e, call, exhausted⟩ :=
    acpiOsMapMemory_spec ledger holds ok fresh stop (Nat.pos_of_ne_zero none) allocates
  · refine ⟨.inl ⟨_, _, call⟩, fun pointer s' call' => ?_⟩
    obtain ⟨rfl, rfl⟩ := Prod.mk.inj (Except.ok.inj (call.symm.trans call'))
    constructor
    · intro range
      have last := (range (length - 1) (by omega)).1
      rw [ledger.justAllocated holds (acpiPages_lt _ _) alloc] at last
      omega
    · intro small k hk
      have bound : physicalAddress % 0x1000 + k < acpiPages physicalAddress length * 0x1000 := by
        omega
      rw [ledger.justAllocated holds (acpiPages_lt _ _) alloc]
      refine ⟨⟨found, by omega, by omega⟩, ?_⟩
      have byte := maps.physical (by omega) (by omega) region.aligned (by decide) (by decide) bound
      rw [Nat.add_assoc, byte]
      congr 1
      omega
  · refine ⟨.inr ⟨e, call, exhausted⟩, fun pointer s' call' => ?_⟩
    rw [call] at call'
    cases call'

theorem boot_hasRoom (init : bootVmm = .ok vmm) : vmm.HasRoom 0x200000000 := by
  have found : (bootVmm >>= fun vmm => .ok (vmm.nodeList.any fun n =>
      decide (n.flags &&& vmFree ≠ 0 ∧ 0x200000000 ≤ n.len))) = .ok true := by decide +kernel
  rw [init, Fallible.ok_bind] at found
  obtain ⟨n, mem, fits⟩ := List.any_eq_true.1 (Except.ok.inj found)
  exact ⟨n, mem, of_decide_eq_true fits⟩

/-- A call after boot returns, as its evaluation shows. -/
theorem boot_returns {α : Type} (call : Sys → Except Fault α) (init : bootVmm = .ok vmm)
    (returns : (bootVmm >>= fun vmm => call ⟨bootMm, vmm⟩).isOk = true) :
    ∃ r, call ⟨bootMm, vmm⟩ = .ok r := by
  rw [init, Fallible.ok_bind] at returns
  cases run : call ⟨bootMm, vmm⟩ with
  | error e =>
    rw [run] at returns
    cases returns
  | ok r => exact ⟨r, rfl⟩

/-- A table of two pages, not at the start of a page, so that three pages are mapped. -/
theorem acpiOsMapMemory_mapsRange_boot : ∃ vmm pointer s', LedgerRun 0x200000 [] vmm ∧
    acpiOsMapMemory 0xE0010 0x2000 ⟨bootMm, vmm⟩ = .ok (pointer, s') ∧
    MapsRange ⟨bootMm, vmm⟩ s' pointer 0xE0010 0x2000 := by
  obtain ⟨vmm, init, regions⟩ := bootVmm_run
  obtain ⟨⟨pointer, s'⟩, call⟩ :=
    boot_returns (acpiOsMapMemory 0xE0010 0x2000) init (by decide +kernel)
  have maps := acpiOsMapMemory_mapsRange_iff (s := ⟨bootMm, vmm⟩) (by decide) (by decide) regions
    bootMm_ok bootMm_serves.fresh (by decide) (show 0xE0010 + 0x2000 ≤ 2 ^ 52 by decide)
    ((boot_hasRoom init).mono (by decide))
  exact ⟨vmm, pointer, s', regions, call, (maps.2 pointer s' call).2 (by decide)⟩

/-- For 4 GiB the length becomes 0: the call returns 0, with nothing reserved or mapped. -/
theorem not_mapsRange : ∃ vmm, LedgerRun 0x200000 [] vmm ∧ vmm.HasRoom 0x100000000 ∧
    acpiOsMapMemory 0 0x100000000 ⟨bootMm, vmm⟩ = .ok (0, ⟨bootMm, vmm⟩) ∧
    ¬ MapsRange ⟨bootMm, vmm⟩ ⟨bootMm, vmm⟩ 0 0 0x100000000 := by
  obtain ⟨vmm, init, regions⟩ := bootVmm_run
  obtain ⟨rs, holds, ledger⟩ := regions.ledger (by decide) (by decide)
  exact ⟨vmm, regions, (boot_hasRoom init).mono (by decide), acpiOsMapMemory_none (by decide),
    not_mapsRange_self (s := ⟨bootMm, vmm⟩) ledger holds (by decide) 0 0⟩

/-! ## `acpi_os_get_physical_address` -/

/-- The value that is stored; the status is always `AE_OK`. -/
def acpiOsGetPhysicalAddress (logicalAddress : ℕ) (s : Sys) : Except Fault ℕ :=
  mmVirtualGetPhys logicalAddress s.mm

/-- The lookup leaves out the offset in the page. -/
theorem Mm.SelfMap.getPhys_of_physical {addr p : ℕ} (self : m.SelfMap) (word : addr < 2 ^ 64)
    (physical : m.physical addr = .ok p) : mmVirtualGetPhys addr m = .ok (p - addr % 0x1000) := by
  obtain ⟨page, at_, rfl⟩ := Mm.physical_eq_ok.1 physical
  rw [Nat.add_sub_cancel]
  exact self.getPhys_of_translate word at_

/-- **The lookup inverts the mapping** for the first byte of a page and no other. -/
theorem acpiOsGetPhysicalAddress_iff {kernelSize : ℕ} (kernelPos : 0 < pageUp kernelSize)
    (kernelSmall : pageUp kernelSize < 0x80000000) (regions : LedgerRun kernelSize L s.vmm)
    (ok : s.mm.Ok) (fresh : FreshSupply s.mm) (pos : 0 < length) (small : length < 2 ^ 31)
    (stop : physicalAddress + length ≤ 2 ^ 52)
    (room : s.Allocates (acpiPages physicalAddress length)) :
    ((∃ pointer s', acpiOsMapMemory physicalAddress length s = .ok (pointer, s')) ∨
      ∃ e, acpiOsMapMemory physicalAddress length s = .error e ∧
        s.Exhausted (acpiPages physicalAddress length) e) ∧
    ∀ pointer s', acpiOsMapMemory physicalAddress length s = .ok (pointer, s') → ∀ k < length,
      (acpiOsGetPhysicalAddress (pointer + k) s' = .ok (physicalAddress + k) ↔
        (physicalAddress + k) % 0x1000 = 0) := by
  obtain ⟨rs, holds, ledger⟩ := regions.ledger kernelPos kernelSmall
  have pages := acpiPages_eq physicalAddress (show length + 0x1FFE < 2 ^ 64 by omega)
  obtain ⟨virt, vmm, mm, ps, alloc, found, region, call, maps⟩ | ⟨e, call, exhausted⟩ :=
    acpiOsMapMemory_spec ledger holds ok fresh stop (by omega) room
  · refine ⟨.inl ⟨_, _, call⟩, fun pointer s' call' k hk => ?_⟩
    obtain ⟨rfl, rfl⟩ := Prod.mk.inj (Except.ok.inj (call.symm.trans call'))
    have aligned := region.aligned
    have high := region.high
    simp only [slabVmBase] at high
    have bound : physicalAddress % 0x1000 + k < acpiPages physicalAddress length * 0x1000 := by omega
    have byte := maps.physical (by omega) (by omega) aligned (by decide) (by decide) bound
    have sum : physicalAddress - physicalAddress % 0x1000 + (physicalAddress % 0x1000 + k) =
        physicalAddress + k := by omega
    rw [sum, ← Nat.add_assoc] at byte
    rw [acpiOsGetPhysicalAddress, maps.ok.self.getPhys_of_physical (by omega) byte, Except.ok.injEq]
    omega
  · refine ⟨.inr ⟨e, call, exhausted⟩, fun pointer s' call' => ?_⟩
    rw [call] at call'
    cases call'

theorem acpiOsGetPhysicalAddress_boot : ∃ vmm pointer s',
    acpiOsMapMemory 0xE0010 0x2000 ⟨bootMm, vmm⟩ = .ok (pointer, s') ∧
    acpiOsGetPhysicalAddress (pointer + 0xFF0) s' = .ok (0xE0010 + 0xFF0) := by
  obtain ⟨vmm, init, regions⟩ := bootVmm_run
  obtain ⟨⟨pointer, s'⟩, call⟩ :=
    boot_returns (acpiOsMapMemory 0xE0010 0x2000) init (by decide +kernel)
  obtain ⟨rs, holds, ledger⟩ := regions.ledger (by decide) (by decide)
  have room : Sys.Allocates ⟨bootMm, vmm⟩ (acpiPages 0xE0010 0x2000) :=
    ledger.allocates holds (by decide) (by decide) ((boot_hasRoom init).mono (by decide))
  have inverse := acpiOsGetPhysicalAddress_iff (by decide) (by decide) regions bootMm_ok
    bootMm_serves.fresh (by decide) (by decide) (by decide) room
  exact ⟨vmm, pointer, s', call, (inverse.2 pointer s' call 0xFF0 (by decide)).2 (by decide)⟩

/-- The first byte of a table that does not start a page. -/
theorem not_acpiOsGetPhysicalAddress : ∃ vmm pointer s', LedgerRun 0x200000 [] vmm ∧
    Sys.Allocates ⟨bootMm, vmm⟩ (acpiPages 0xE0010 0x2000) ∧
    acpiOsMapMemory 0xE0010 0x2000 ⟨bootMm, vmm⟩ = .ok (pointer, s') ∧
    acpiOsGetPhysicalAddress pointer s' = .ok 0xE0000 ∧
    ¬ ∀ k < 0x2000, acpiOsGetPhysicalAddress (pointer + k) s' = .ok (0xE0010 + k) := by
  obtain ⟨vmm, init, regions⟩ := bootVmm_run
  obtain ⟨rs, holds, ledger⟩ := regions.ledger (by decide) (by decide)
  obtain ⟨⟨pointer, s'⟩, call⟩ :=
    boot_returns (acpiOsMapMemory 0xE0010 0x2000) init (by decide +kernel)
  have lookup : (bootVmm >>= fun vmm => acpiOsMapMemory 0xE0010 0x2000 ⟨bootMm, vmm⟩ >>= fun r =>
      acpiOsGetPhysicalAddress r.1 r.2) = .ok 0xE0000 := by decide +kernel
  rw [init, Fallible.ok_bind, call] at lookup
  refine ⟨vmm, pointer, s', regions,
    ledger.allocates holds (by decide) (by decide) ((boot_hasRoom init).mono (by decide)),
    call, lookup, fun inverse => ?_⟩
  have first := inverse 0 (by decide)
  rw [Nat.add_zero, show acpiOsGetPhysicalAddress pointer s' = .ok 0xE0000 from lookup] at first
  exact absurd (Except.ok.inj first) (by decide)

end Acpi

end Vineyard

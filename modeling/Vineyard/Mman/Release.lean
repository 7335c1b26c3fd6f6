import Vineyard.Mman.Runs

/-!
# Free addresses are not mapped

Runs of all callers that map and unmap.  `munmap` and `pci_express_read` clear the page-table entries
before they free the region, `acpi_os_unmap_memory` does not; so as long as the latter is not called,
no address in a free region is mapped.
-/

namespace Vineyard

open Function

/-- The calls that a run is made of; `munmap` is called on a live region. -/
inductive MapCall where
  | mmap (len prot flags : ℕ)
  | munmap (r : MmapRegion)
  | acpiOsMapMemory (physicalAddress length : ℕ)
  | acpiOsUnmapMemory (where_ length : ℕ)
  | pciExpressRead (segment bus slot function offset : ℕ)

/-- `mm_virtual_alloc` finds room for the pages. -/
def Sys.Allocates (s : Sys) (pages : ℕ) : Prop := ∀ vmm, mmVirtualAlloc pages s.vmm ≠ .ok (0, vmm)

/-- The pages that `acpi_os_map_memory` reserves. -/
def acpiPages (physicalAddress length : ℕ) : ℕ :=
  alignUp (Word64.add length (physicalAddress &&& 0xFFF)) >>> 12

/-- Runs in which every call meets a condition, every allocation succeeds and every unmap matches a
map.  `live` and `acpi` list what is mapped: the regions of `mmap`, and the results of
`acpi_os_map_memory` with their lengths. -/
inductive MapRun (segments : List PcieSegment) (mmio : ℕ → ℕ) (Meets : MapCall → Prop) (s₀ : Sys) :
    List MmapRegion → List (ℕ × ℕ) → Sys → Prop where
  | start : MapRun segments mmio Meets s₀ [] [] s₀
  | mmap {live : List MmapRegion} {acpi : List (ℕ × ℕ)} {s s' : Sys} {len prot flags addr : ℕ}
      {taken : List ℕ} (run : MapRun segments mmio Meets s₀ live acpi s)
      (meets : Meets (.mmap len prot flags)) (word : len < 2 ^ 64) (room : s.Allocates (len >>> 12))
      (call : mmap 0 len prot flags (-1) 0 s = .ok (addr, taken, s')) :
      MapRun segments mmio Meets s₀ (⟨addr, len, prot, taken⟩ :: live) acpi s'
  | munmap {live : List MmapRegion} {acpi : List (ℕ × ℕ)} {s s' : Sys} {r : MmapRegion} {ret : ℤ}
      {freed : List ℕ} (run : MapRun segments mmio Meets s₀ live acpi s) (meets : Meets (.munmap r))
      (mem : r ∈ live) (call : munmap r.addr r.len s = .ok (ret, freed, s')) :
      MapRun segments mmio Meets s₀ (live.erase r) acpi s'
  | acpiOsMapMemory {live : List MmapRegion} {acpi : List (ℕ × ℕ)} {s s' : Sys}
      {physicalAddress length where_ : ℕ} (run : MapRun segments mmio Meets s₀ live acpi s)
      (meets : Meets (.acpiOsMapMemory physicalAddress length))
      (room : s.Allocates (acpiPages physicalAddress length))
      (call : acpiOsMapMemory physicalAddress length s = .ok (where_, s')) :
      MapRun segments mmio Meets s₀ live ((where_, length) :: acpi) s'
  | acpiOsUnmapMemory {live : List MmapRegion} {acpi : List (ℕ × ℕ)} {s s' : Sys}
      {where_ length : ℕ} (run : MapRun segments mmio Meets s₀ live acpi s)
      (meets : Meets (.acpiOsUnmapMemory where_ length)) (mem : (where_, length) ∈ acpi)
      (call : acpiOsUnmapMemory where_ length s = .ok s') :
      MapRun segments mmio Meets s₀ live (acpi.erase (where_, length)) s'
  | pciExpressRead {live : List MmapRegion} {acpi : List (ℕ × ℕ)} {s s' : Sys}
      {segment bus slot function offset data : ℕ} (run : MapRun segments mmio Meets s₀ live acpi s)
      (meets : Meets (.pciExpressRead segment bus slot function offset)) (room : s.Allocates 1)
      (call : pciExpressRead segments mmio segment bus slot function offset s = .ok (data, s')) :
      MapRun segments mmio Meets s₀ live acpi s'

/-- No address in a free region is mapped. -/
def Sys.Unmapped (s : Sys) : Prop :=
  ∀ a, s.vmm.InNode vmFree a →
    s.mm.translate a = .error (.pageFault a) ∧ mmVirtualGetPhys a s.mm = .ok 0

/-- The calls after which free regions have no mapped page: `acpi_os_unmap_memory` clears no entry,
`munmap` finds the pages of readable regions only, and `pci_express_read` writes the address of the
page back without flags, whose lowest bit is the present bit. -/
def MapCall.Clears (segments : List PcieSegment) : MapCall → Prop
  | .mmap _ _ _ => True
  | .munmap r => r.prot &&& protRead ≠ 0
  | .acpiOsMapMemory _ _ => True
  | .acpiOsUnmapMemory _ _ => False
  | .pciExpressRead segment _ _ _ _ =>
      ∀ config, segments.find? (fun config => config.seg = segment) = some config →
        config.phys % 2 = 0

/-! ## What the calls do -/

variable {K t : ℕ} {others : List (ℕ × ℕ)} {s s' : Sys} {live : List MmapRegion}

/-- The entries of all free addresses are absent. -/
def Sys.Absent (s : Sys) : Prop := ∀ a, s.vmm.InNode vmFree a → s.mm.pte a &&& pagePresent = 0

theorem Sys.Inv.managed_of_free (h : s.Inv K t others live) {a : ℕ} (free : s.vmm.InNode vmFree a) :
    Managed a := by
  obtain ⟨rs, holds, ledger⟩ := h.regions
  rw [holds.inNode_iff] at free
  obtain ⟨r, hr, low, high, flags⟩ := free
  have below := ledger.free_low r hr (ledger.eq_vmFree hr flags)
  have above := (ledger.paged.tiles.bounds hr).1
  exact ⟨above.trans low, high.trans_le below⟩

theorem Sys.Inv.unmapped_iff (h : s.Inv K t others live) : s.Unmapped ↔ s.Absent := by
  obtain ⟨A, accounts⟩ := h.accounts
  refine forall_congr' fun a => forall_congr' fun free => ?_
  rw [Mm.translate_eq, accounts.ok.self.getPhys_eq (h.managed_of_free free).word]
  by_cases present : s.mm.pte a &&& pagePresent = 0
  · simp [present]
  · simp [present]

/-- A call that maps only what it has reserved keeps free addresses unmapped. -/
theorem Sys.Absent.alloc {virt n : ℕ} (h : s.Inv K t others live) (absent : s.Absent)
    (same : SameOutside s.mm s'.mm virt n)
    (free : ∀ b, s'.vmm.InNode vmFree b →
      s.vmm.InNode vmFree b ∧ ¬ (virt ≤ b ∧ b < virt + n * 0x1000)) : s'.Absent := by
  intro a node
  obtain ⟨before, off⟩ := free a node
  rw [same a (h.managed_of_free before) off]
  exact absent a before

/-- A call that frees what it has unmapped keeps free addresses unmapped. -/
theorem Sys.Absent.free {virt n : ℕ} (h : s.Inv K t others live) (absent : s.Absent)
    (same : SameOutside s.mm s'.mm virt n) (free : ∀ b, s'.vmm.InNode vmFree b →
      s.vmm.InNode vmFree b ∨ (virt ≤ b ∧ b < virt + n * 0x1000))
    (cleared : ∀ b, virt ≤ b → b < virt + n * 0x1000 → s'.mm.pte b &&& pagePresent = 0) :
    s'.Absent := by
  intro a node
  by_cases here : virt ≤ a ∧ a < virt + n * 0x1000
  · exact cleared a here.1 here.2
  · have before := (free a node).resolve_right here
    rw [same a (h.managed_of_free before) here]
    exact absent a before

theorem acpiPages_lt (physicalAddress length : ℕ) : acpiPages physicalAddress length < 2 ^ 52 := by
  have masked := @Nat.and_le_right
    (Word64.add (Word64.add length (physicalAddress &&& 0xFFF)) 0xFFF) 0xFFFFF000
  rw [acpiPages, alignUp, Nat.shiftRight_eq_div_pow]
  omega

/-- The entries of live regions after an allocation has been mapped. -/
theorem Sys.Inv.add_other {mm : Mm} {vmm : Vmm} {rs : List Region} {virt n : ℕ}
    (h : s.Inv K t others live) (holds : vmm.Holds rs)
    (ledger : Ledger K ((virt, n) :: (live.map MmapRegion.alloc ++ others)) rs)
    (accounts : ∃ B, mm.Accounts t B (live.flatMap MmapRegion.taken))
    (apart : ∀ x ∈ live.map MmapRegion.alloc ++ others,
      Apart (pagesRange x) (pagesRange (virt, n)))
    (same : SameOutside s.mm mm virt n) : Sys.Inv K t ((virt, n) :: others) ⟨mm, vmm⟩ live :=
  ⟨⟨rs, holds, ledger.perm List.perm_middle.symm⟩, accounts, h.size, fun _ mem =>
    h.mapped_of_apart same mem (apart _ (List.mem_append_left _ (List.mem_map_of_mem mem)))⟩

/-- `acpi_os_map_memory` maps what it has reserved. -/
theorem Sys.Inv.acpiOsMapMemory {physicalAddress length where_ : ℕ} (h : s.Inv K t others live)
    (room : s.Allocates (acpiPages physicalAddress length))
    (call : Vineyard.acpiOsMapMemory physicalAddress length s = .ok (where_, s')) :
    ∃ virt n, s'.Inv K t ((virt, n) :: others) live ∧ SameOutside s.mm s'.mm virt n ∧
      ∀ b, s'.vmm.InNode vmFree b →
        s.vmm.InNode vmFree b ∧ ¬ (virt ≤ b ∧ b < virt + n * 0x1000) := by
  rw [Vineyard.acpiOsMapMemory] at call
  obtain ⟨⟨virt, vmm⟩, alloc, call⟩ := Fallible.bind_eq_ok.1 call
  obtain ⟨mm, loop, call⟩ := Fallible.bind_eq_ok.1 call
  injection call with call
  obtain ⟨_, rfl⟩ := Prod.mk.inj call
  obtain ⟨rs, holds, ledger⟩ := h.regions
  obtain ⟨A, accounts⟩ := h.accounts
  have found : virt ≠ 0 := by
    rintro rfl
    exact room _ alloc
  obtain ⟨_, ⟨rs', holds', ledger'⟩, pages, apart, free⟩ :=
    ledger.alloc holds (acpiPages_lt physicalAddress length) alloc found
  obtain ⟨accounts', same⟩ := acpiMapLoop_spec accounts pages (Nat.zero_mul 0x1000 ▸ loop)
  rw [Nat.zero_mul, Nat.add_zero] at same
  exact ⟨virt, _, h.add_other holds' ledger' accounts' apart same, same, free⟩

theorem Word64.add_mod_two (a b : ℕ) : Word64.add a b % 2 = (a + b) % 2 := by
  rw [Word64.add]
  omega

/-- The address of a configuration page has the lowest bit of the segment's address. -/
theorem configPage_even {phys bus slot function : ℕ} (even : phys % 2 = 0) :
    Word64.add phys (bus <<< 20 ||| slot <<< 15 ||| function <<< 12) &&& pagePresent = 0 := by
  have offset : (bus <<< 20 ||| slot <<< 15 ||| function <<< 12) % 2 = 0 := by
    rw [Nat.mod_two_eq_zero_iff_testBit_zero]
    simp
  rw [show pagePresent = 2 ^ 1 - 1 from rfl, Nat.and_two_pow_sub_one_eq_mod]
  rw [show 2 ^ 1 = 2 from rfl, Word64.add_mod_two]
  omega

/-- `pci_express_read` leaves nothing reserved; the page it frees has an entry without flags. -/
theorem Sys.Inv.pciExpressRead {segments : List PcieSegment} {mmio : ℕ → ℕ}
    {segment bus slot function offset data : ℕ} (h : s.Inv K t others live) (room : s.Allocates 1)
    (call : Vineyard.pciExpressRead segments mmio segment bus slot function offset s =
      .ok (data, s')) :
    ∃ config virt, segments.find? (fun config => config.seg = segment) = some config ∧
      s'.Inv K t others live ∧ SameOutside s.mm s'.mm virt 1 ∧ virt % 0x1000 = 0 ∧
      s'.mm.pte virt = Word64.add config.phys (bus <<< 20 ||| slot <<< 15 ||| function <<< 12) ∧
      ∀ b, s'.vmm.InNode vmFree b →
        s.vmm.InNode vmFree b ∨ (virt ≤ b ∧ b < virt + 1 * 0x1000) := by
  obtain ⟨config, page, virt, vmm, mm, n, find, rfl, alloc, map, unmap, freed⟩ :=
    pciExpressRead_eq_ok call
  obtain ⟨rs, holds, ledger⟩ := h.regions
  obtain ⟨A, accounts⟩ := h.accounts
  have found : virt ≠ 0 := by
    rintro rfl
    exact room _ alloc
  obtain ⟨_, ⟨rs₁, holds₁, ledger₁⟩, pages, apart, free⟩ :=
    ledger.alloc holds (by decide) alloc found
  obtain ⟨managed, aligned, _⟩ := pages.first rfl
  rw [Nat.zero_mul, Nat.add_zero] at managed aligned
  have word : Word64.add config.phys (bus <<< 20 ||| slot <<< 15 ||| function <<< 12) < 2 ^ 64 :=
    Nat.mod_lt _ (by decide)
  obtain ⟨A₁, accounts₁, _, same₁⟩ := accounts.map managed aligned word map
  obtain ⟨A₂, accounts₂, entry, same₂⟩ := accounts₁.map managed aligned word unmap
  have same : SameOutside s.mm s'.mm virt 1 := same₁.trans same₂ (by omega)
  obtain ⟨vmm'', rs₂, free', holds₂, ledger₂, nodes⟩ := ledger₁.free holds₁
  rw [freed] at free'
  injection free' with free'
  obtain ⟨_, rfl⟩ := Prod.mk.inj free'
  refine ⟨config, virt, find, ⟨⟨rs₂, holds₂, ledger₂⟩, ⟨A₂, accounts₂⟩, h.size, fun r mem => ?_⟩,
    same, aligned, by rw [entry, Nat.or_zero], fun b node => ?_⟩
  · exact h.mapped_of_apart same mem
      (apart _ (List.mem_append_left _ (List.mem_map_of_mem mem)))
  · exact (nodes b node).imp_left fun old => (free b old).1

/-! ## Runs -/

section Runs

variable {segments : List PcieSegment} {mmio : ℕ → ℕ} {s₀ : Sys} {acpi : List (ℕ × ℕ)}

/-- One step after the other keeps the invariant and free addresses unmapped. -/
theorem MapRun.absent (inv : s₀.Inv K t others []) (absent : s₀.Absent)
    (run : MapRun segments mmio (MapCall.Clears segments) s₀ live acpi s) :
    ∃ others, s.Inv K t others live ∧ s.Absent := by
  induction run with
  | start => exact ⟨others, inv, absent⟩
  | @mmap live acpi s s' len prot flags addr taken run meets word room call ih =>
    obtain ⟨others, inv, absent⟩ := ih
    have found : addr ≠ 0 := by
      rintro rfl
      obtain ⟨vmm, _, alloc, _⟩ := mmap_eq_ok call
      exact room vmm alloc
    obtain ⟨inv', same, free⟩ := inv.mmap word call found
    exact ⟨others, inv', absent.alloc inv same free⟩
  | @munmap live acpi s s' r ret freed run readable mem call ih =>
    obtain ⟨others, inv, absent⟩ := ih
    obtain ⟨s₁, eq, inv', cleared, same, free⟩ := inv.munmap mem readable
    rw [call] at eq
    split_ifs at eq
    injection eq with eq
    obtain ⟨_, rest⟩ := Prod.mk.inj eq
    obtain ⟨_, rfl⟩ := Prod.mk.inj rest
    refine ⟨others, inv', absent.free inv same free fun b low high => ?_⟩
    have aligned := (inv.managedPages mem).aligned
    have page : b / 0x1000 = (r.addr + (b - r.addr) / 0x1000 * 0x1000) / 0x1000 := by omega
    rw [Mm.pte_congr _ page, cleared _ (by omega), Nat.zero_and]
  | acpiOsMapMemory run _ room call ih =>
    obtain ⟨others, inv, absent⟩ := ih
    obtain ⟨virt, n, inv', same, free⟩ := inv.acpiOsMapMemory room call
    exact ⟨_, inv', absent.alloc inv same free⟩
  | acpiOsUnmapMemory _ never _ _ _ => exact never.elim
  | pciExpressRead run even room call ih =>
    obtain ⟨others, inv, absent⟩ := ih
    obtain ⟨config, virt, find, inv', same, aligned, entry, free⟩ := inv.pciExpressRead room call
    refine ⟨others, inv', absent.free inv same free fun b low high => ?_⟩
    have page : b / 0x1000 = virt / 0x1000 := by omega
    rw [Mm.pte_congr _ page, entry]
    exact configPage_even (even config find)

/-- In runs without `acpi_os_unmap_memory`, in which `munmap` is called on readable regions and PCIe
segments have an even address, free addresses are never mapped. -/
theorem MapRun.unmapped {kernelSize : ℕ} (pos : 0 < pageUp kernelSize)
    (small : pageUp kernelSize < 0x80000000) (regions : LedgerRun kernelSize others s₀.vmm)
    (ok : s₀.mm.Ok) {A : Layout} (serves : s₀.mm.Serves t A) (unmapped : s₀.Unmapped)
    (run : MapRun segments mmio (MapCall.Clears segments) s₀ live acpi s) : s.Unmapped := by
  have inv : s₀.Inv (pageUp kernelSize) t others [] := by
    refine ⟨?_, ⟨A, ok, serves, by simp, by simp, by simp, by simp⟩, by simp, by simp⟩
    simpa using regions.ledger pos small
  obtain ⟨others', inv', absent⟩ := run.absent inv (inv.unmapped_iff.1 unmapped)
  exact inv'.unmapped_iff.2 absent

end Runs

/-! ## The state after boot -/

/-- Of the managed addresses none is mapped in `bootMm`. -/
theorem bootMm_pte {a : ℕ} (managed : Managed a) : bootMm.pte a = 0 := by
  rw [Mm.pte]
  cases found : bootMm.walk (tablePath a) with
  | none => rfl
  | some x =>
    have listed := Mm.mem_of_tablesIn bootMm_tables managed.outside.legal found
    simp only [bootTables, tablePath, List.mem_cons, Prod.mk.injEq, List.cons.injEq, reduceCtorEq,
      false_and, and_false, List.not_mem_nil, or_false, false_or] at listed
    obtain ⟨path, rfl⟩ := listed
    have slot := (managed.plain.slot (by rw [tablePath, path.1, path.2.1, path.2.2.1]; rfl)).2
    simp [bootMm, slot]

theorem boot_inv {vmm : Vmm} (regions : LedgerRun 0x200000 [] vmm) :
    Sys.Inv (pageUp 0x200000) 0x4000 [] ⟨bootMm, vmm⟩ [] := by
  refine ⟨?_, ⟨_, bootMm_ok, bootMm_serves, by simp, by simp, by simp, by simp⟩, by simp, by simp⟩
  simpa using regions.ledger (by decide) (by decide)

theorem boot_unmapped {vmm : Vmm} (regions : LedgerRun 0x200000 [] vmm) :
    Sys.Unmapped ⟨bootMm, vmm⟩ := by
  have inv := boot_inv regions
  refine inv.unmapped_iff.2 fun a free => ?_
  rw [bootMm_pte (inv.managed_of_free free), Nat.zero_and]

/-- The first allocation after boot. -/
theorem boot_page {vmm : Vmm} (init : bootVmm = .ok vmm) :
    ∃ vmm', mmVirtualAlloc 1 vmm = .ok (0xFFFFFE0000021000, vmm') := by
  have first : (bootVmm >>= fun vmm => mmVirtualAlloc 1 vmm >>= fun r => .ok r.1) =
      .ok 0xFFFFFE0000021000 := by decide +kernel
  rw [init, Fallible.ok_bind] at first
  obtain ⟨⟨a, vmm'⟩, alloc, same⟩ := Fallible.bind_eq_ok.1 first
  exact ⟨vmm', by rw [alloc, ← Except.ok.inj same]⟩

theorem boot_allocates {vmm : Vmm} (init : bootVmm = .ok vmm) :
    Sys.Allocates ⟨bootMm, vmm⟩ (acpiPages 0xE0000 0x1000) := by
  obtain ⟨vmm', first⟩ := boot_page init
  intro vmm'' alloc
  rw [show acpiPages 0xE0000 0x1000 = 1 by decide, first] at alloc
  have same : 0xFFFFFE0000021000 = 0 := (Prod.mk.inj (Except.ok.inj alloc)).1
  cases same

/-- The first call of `acpi_os_map_memory` after boot. -/
theorem boot_acpi {vmm : Vmm} (init : bootVmm = .ok vmm) : ∃ where_ s,
    acpiOsMapMemory 0xE0000 0x1000 ⟨bootMm, vmm⟩ = .ok (where_, s) := by
  have returns : (bootVmm >>= fun vmm => acpiOsMapMemory 0xE0000 0x1000 ⟨bootMm, vmm⟩).isOk =
    true := by
    decide +kernel
  rw [init, Fallible.ok_bind] at returns
  cases call : acpiOsMapMemory 0xE0000 0x1000 ⟨bootMm, vmm⟩ with
  | error e =>
    rw [call] at returns
    cases returns
  | ok result => exact ⟨result.1, result.2, rfl⟩

theorem MapRun.unmapped_boot : ∃ s₀ s where_,
    MapRun [] (fun _ => 0) (MapCall.Clears []) s₀ [] [(where_, 0x1000)] s ∧ s.Unmapped := by
  obtain ⟨vmm, init, regions⟩ := bootVmm_run
  obtain ⟨where_, s, call⟩ := boot_acpi init
  have run : MapRun [] (fun _ => 0) (MapCall.Clears []) ⟨bootMm, vmm⟩ [] [(where_, 0x1000)] s :=
    .acpiOsMapMemory .start trivial (boot_allocates init) call
  exact ⟨_, s, _, run, MapRun.unmapped (by decide) (by decide) regions bootMm_ok bootMm_serves
    (boot_unmapped regions) run⟩

/-- A page of ACPI memory stays mapped after it has been unmapped. -/
theorem acpiOsUnmapMemory_leaves_page : ∃ s₀ s, s₀.Unmapped ∧
    MapRun [] (fun _ => 0) (fun _ => True) s₀ [] [] s ∧ ¬ s.Unmapped := by
  obtain ⟨vmm, init, regions⟩ := bootVmm_run
  obtain ⟨where_, s₁, map⟩ := boot_acpi init
  have after : (bootVmm >>= fun vmm => acpiOsMapMemory 0xE0000 0x1000 ⟨bootMm, vmm⟩ >>= fun r =>
      acpiOsUnmapMemory r.1 0x1000 r.2 >>= fun s => (mmVirtualGetPhys r.1 s.mm).map fun phys =>
        (phys, decide (s.vmm.nodeList.any fun n => decide (n.start ≤ r.1 ∧ r.1 < n.start + n.len ∧
          n.flags &&& vmFree ≠ 0)))) = .ok (0xE0000, true) := by decide +kernel
  rw [init, Fallible.ok_bind, map, Fallible.ok_bind] at after
  obtain ⟨s₂, unmap, after⟩ := Fallible.bind_eq_ok.1 after
  have run : MapRun [] (fun _ => 0) (fun _ => True) ⟨bootMm, vmm⟩ []
      (List.erase [(where_, 0x1000)] (where_, 0x1000)) s₂ :=
    .acpiOsUnmapMemory (.acpiOsMapMemory .start trivial (boot_allocates init) map) trivial
      List.mem_cons_self unmap
  rw [List.erase_cons_head] at run
  refine ⟨_, s₂, boot_unmapped regions, run, fun unmapped => ?_⟩
  cases lookup : mmVirtualGetPhys where_ s₂.mm with
  | error e =>
    rw [lookup] at after
    cases after
  | ok phys =>
    rw [lookup] at after
    obtain ⟨phys_eq, node⟩ := Prod.mk.inj (Except.ok.inj after)
    have inNode : s₂.vmm.InNode vmFree where_ := by
      simpa [Vmm.InNode, and_assoc] using node
    have zero := (unmapped where_ inNode).2
    rw [lookup, phys_eq] at zero
    exact absurd (Except.ok.inj zero) (by decide)

end Vineyard

import Vineyard.Boot.Entries

/-!
# Memory after `mm_physical_init` and `mm_virtual_init`

From any state that a boot loader may hand over and any memory map, the two calls end in a state in
which the page allocator, the page tables, the slab and the region list are in order, or in the panic
of the page allocator; and in that only if too few pages are free before page tables are needed.
-/

namespace Vineyard

open Function

variable {m m' : Mm} {t : ℕ} {A : Layout} {contents : List ℕ}

/-! ## `mm_page_tables_commit` -/

theorem and_split_frame (e : ℕ) : (e &&& frameMask ||| e &&& flagsMask) &&& frameMask =
      e &&& frameMask := by
  rw [Nat.and_or_distrib_right, Nat.and_assoc, Nat.and_assoc, Nat.and_self, flagsMask_frameMask,
    Nat.and_zero, Nat.or_zero]

theorem and_split_present (e : ℕ) :
    (e &&& frameMask ||| e &&& flagsMask) &&& pagePresent = e &&& pagePresent := by
  rw [Nat.and_or_distrib_right, Nat.and_assoc, Nat.and_assoc,
    show frameMask &&& pagePresent = 0 by
      decide, show flagsMask &&& pagePresent = pagePresent by decide,
    Nat.and_zero, Nat.zero_or]

/-- The stack stays where it is. -/
theorem Mm.Accounts.commit (h : m.Accounts t A contents) :
    ∃ m', mmPageTablesCommit m = .ok m' ∧ m'.Accounts t A contents ∧ SameTables m m' ∧
      ∀ b, Plain b → m'.pte b = m.pte b := by
  have stackWord : stackAddr < 2 ^ 64 := by decide
  have slot : pageSlot stackAddr = 511 := by decide
  have found : m.walk (tablePath stackAddr) = some t := stackPath_eq ▸ h.walk_stackPath
  have load := Mm.load_of_translate
    (h.ok.self.translate_pml1 stackWord (show 511 < 512 by decide) found)
  have small : m.mem t 511 &&& frameMask < 2 ^ 64 := lt_of_le_of_lt Nat.and_le_right (by decide)
  have map := h.ok.self.map_found stackWord found small (m.mem t 511 &&& flagsMask)
  obtain ⟨same, _, ptes⟩ := h.ok.setEntry stackAddr_outside found
    (m.mem t 511 &&& frameMask ||| m.mem t 511 &&& flagsMask)
  rw [slot] at map same ptes
  set m' := m.setEntry t 511 (m.mem t 511 &&& frameMask ||| m.mem t 511 &&& flagsMask) with hm'
  have entry : m'.mem t 511 = m.mem t 511 &&& frameMask ||| m.mem t 511 &&& flagsMask := by
    simp [hm', Mm.setEntry]
  have other : ∀ x, x ≠ t → m'.mem x = m.mem x := fun x ne => by simp [hm', Mm.setEntry, ne]
  have window : m'.window = .ok t := by
    rw [same.ok.self.window_eq_ok, same.walk _ stackPath_legal, entry, and_split_present]
    exact ⟨h.walk_stackPath, h.present⟩
  have table := Mm.isTable_of_walk stackPath_legal h.walk_stackPath
  have holds := h.serves.holds
  have linked : Linked (m'.pmm t).frame (m'.pmm t).root A := by
    refine holds.linked.congr fun f hf => ?_
    have ne : f ≠ t := fun e => h.serves.apart f (List.mem_append_left _ hf) (e ▸ table)
    show PhysicalStack.pages (.ofPage (m'.mem f)) = _ ∧ (PhysicalStack.ofPage (m'.mem f)).prev = _
    rw [other f ne]
    exact ⟨rfl, rfl⟩
  have current : (m'.pmm t).current = (m.pmm t).current := by
    show m'.mem t 511 &&& frameMask = m.mem t 511 &&& frameMask
    rw [entry, and_split_frame]
  refine ⟨m', ?_, ⟨same.ok, ⟨window, ⟨linked, current ▸ holds.current, holds.ok⟩, fun x hx table =>
    h.serves.apart x hx (same.isTable.1 table)⟩, h.nodup, h.phys, h.used, fun p hp table =>
      h.notTable p hp (same.isTable.1 table)⟩, same, fun b plain =>
        ptes b plain.outside plain.ne_stackAddr⟩
  simp only [mmPageTablesCommit, mmPhysicalStackPml1, load, Fallible.ok_bind, map]

/-! ## The pages of the first slab -/

/-- The flags of the slab's pages. -/
def slabFlags : ℕ := pagePresent ||| pageWrite ||| pageNx

/-- Pages at several addresses, one after the other. -/
def mapSlabPages : List ℕ → Mm → Except Fault (List ℕ × Mm)
  | [], m => .ok ([], m)
  | virt :: virts, m => do
      let (p, m) ← mapSlabPage virt m
      let (ps, m) ← mapSlabPages virts m
      return (p :: ps, m)

/-- The addresses of the slab's pages. -/
def slabPages : List ℕ := [slabVmBase, slabVmBase + 0x1000, slabVmBase + 0x2000, slabVmBase + 0x3000]

theorem mapSlab_eq (m : Mm) : mapSlab m = mapSlabPages slabPages m := by
  simp only [mapSlab, slabPages, mapSlabPages, bind_assoc, pure_bind]
  rfl

/-- Addresses of whole pages, which the allocator does not use itself. -/
structure PlainPage (virt : ℕ) : Prop where
  plain : Plain virt
  aligned : virt % 0x1000 = 0
  stop : virt + 0x1000 ≤ 2 ^ 64

theorem PlainPage.mapArgs {virt phys : ℕ} (h : PlainPage virt) (word : phys < 2 ^ 64) :
    MapArgs phys virt 1 := by
  obtain ⟨plain, aligned, stop⟩ := h
  refine ⟨aligned, by omega, by omega, by decide, fun k hk => ?_, fun k hk => ?_⟩
  · obtain rfl : k = 0 := by omega
    omega
  · obtain rfl : k = 0 := by omega
    simpa using plain.outside

theorem offRange_one {virt b : ℕ} : OffRange virt 1 b ↔ pageNumber b ≠ pageNumber virt := by
  constructor
  · intro off
    simpa using off 0 (by decide)
  · intro ne k hk
    obtain rfl : k = 0 := by omega
    simpa using ne

/-- One page of the slab takes a page for its contents and three for page tables at most. -/
theorem Mm.Accounts.mapSlabPage {virt : ℕ} (h : m.Accounts t A contents) (page : PlainPage virt) :
    (∃ m' p B tables, mapSlabPage virt m = .ok (p, m') ∧ m'.Accounts t B (p :: contents) ∧
      A.getMany (1 + tables.length) = some (p :: tables, B) ∧ tables.length ≤ 3 ∧
      (∀ x, m'.IsTable x ↔ m.IsTable x ∨ x ∈ tables) ∧ m'.pte virt = p ||| slabFlags ∧
      ∀ b, Plain b → pageNumber b ≠ pageNumber virt → m'.pte b = m.pte b) ∨
    mapSlabPage virt m = .error outOfMemory ∧ ∃ k ≤ 4, A.getMany k = none := by
  rw [Vineyard.mapSlabPage]
  cases get : A.get with
  | none =>
    refine .inr ⟨?_, 1, by decide, by simp [Layout.getMany, get]⟩
    rw [Mm.physicalGet_eq h.serves.window, mmPhysicalGet_panics h.serves.holds get]
    rfl
  | some r =>
    obtain ⟨p, B⟩ := r
    obtain ⟨m₁, run, h₁, same, entries⟩ := h.take get
    have word : p < 2 ^ 64 := (h₁.phys p (by simp)).bounded.trans (by decide)
    rw [run, Fallible.ok_bind]
    obtain ⟨m₂, tables, C, map, maps, isTable, more, few, h₂⟩ | ⟨map, k, bound, fails⟩ :=
      h₁.mapRange (page.mapArgs word) (offRange_one.2 page.plain.ne_stackAddr.symm) slabFlags
    · refine .inl ⟨m₂, p, C, tables, ?_, h₂, ?_, few, fun x => ?_, ?_, fun b plain ne => ?_⟩
      · simp only [slabFlags] at map
        simp only [map, Fallible.ok_bind]
        rfl
      · rw [Nat.add_comm]
        simp [Layout.getMany, get, more]
      · rw [isTable, same.isTable]
      · simpa using maps.mapped 0 (by decide)
      · rw [maps.other b plain.outside plain.ne_stackAddr (offRange_one.2 ne),
          entries b plain.outside plain.ne_stackAddr]
    · refine .inr ⟨?_, k + 1, by omega, by simp [Layout.getMany, get, fails]⟩
      simp only [slabFlags] at map
      simp only [map]
      rfl

/-- The pages of the slab, one after the other. -/
theorem Mm.Accounts.mapSlabPages {virts : List ℕ} (h : m.Accounts t A contents)
    (pages : ∀ virt ∈ virts, PlainPage virt)
    (apart : virts.Pairwise fun virt virt' => pageNumber virt ≠ pageNumber virt') :
    (∃ m' ps B tables lost, mapSlabPages virts m = .ok (ps, m') ∧ m'.Accounts t B (ps ++ contents) ∧
      (B.frames ++ B.pages ++ tables ++ ps ++ lost).Perm (A.frames ++ A.pages) ∧
      lost.length ≤ tables.length + ps.length ∧
      (∀ x, m'.IsTable x ↔ m.IsTable x ∨ x ∈ tables) ∧
      List.Forall₂ (fun virt p => m'.pte virt = p ||| slabFlags) virts ps ∧
      ∀ b, Plain b → (∀ virt ∈ virts, pageNumber b ≠ pageNumber virt) → m'.pte b = m.pte b) ∨
    mapSlabPages virts m = .error outOfMemory ∧ ∃ k ≤ 4 * virts.length, A.getMany k = none := by
  induction virts generalizing m A contents with
  | nil => exact .inl ⟨m, [], A, [], [], rfl, h, by simp, le_rfl, by simp, .nil, fun _ _ _ => rfl⟩
  | cons virt virts ih =>
    obtain ⟨page, pages⟩ := List.forall_mem_cons.1 pages
    obtain ⟨ne, apart⟩ := List.pairwise_cons.1 apart
    rw [Vineyard.mapSlabPages]
    obtain ⟨m₁, p, B, tables, run, h₁, get, few, isTable, entry, other⟩ | ⟨run, k, bound, fails⟩ :=
      h.mapSlabPage page
    rotate_left
    · exact .inr ⟨by rw [run]; rfl, k, by rw [List.length_cons]; omega, fails⟩
    have ok := h.serves.holds.ok
    rw [run, Fallible.ok_bind]
    obtain ⟨m₂, ps, C, tables', lost', runs, h₂, perm', fewLost', isTable', entries, other'⟩ |
      ⟨runs, k, bound, fails⟩ := ih h₁ pages apart
    · obtain ⟨lost, perm, fewLost⟩ := ok.getMany_perm get
      refine .inl ⟨m₂, p :: ps, C, tables ++ tables', lost ++ lost', ?_,
        h₂.perm List.perm_middle, ?_, ?_, fun x => ?_, .cons ?_ entries, fun b plain off => ?_⟩
      · simp only [runs, Fallible.ok_bind]
        rfl
      · rw [List.perm_iff_count]
        intro x
        have first := List.perm_iff_count.1 perm x
        have rest := List.perm_iff_count.1 perm' x
        simp only [List.count_append, List.count_cons] at first rest ⊢
        omega
      · simp only [List.length_append, List.length_cons]
        omega
      · rw [isTable', isTable, List.mem_append, or_assoc]
      · rw [other' virt page.plain ne, entry]
      · obtain ⟨off, offRest⟩ := List.forall_mem_cons.1 off
        rw [other' b plain offRest, other b plain off]
    · refine .inr ⟨by simp only [runs]; rfl, 1 + tables.length + k,
        by rw [List.length_cons]; omega, ?_⟩
      exact Layout.getMany_none_add get fails

/-! ## The two calls -/

/-- The free pages of the memory map are distinct pages that are not in use, and its ACPI tables lie in
the lower half. -/
structure MapFits (m : Mm) (at_ : StaticPages) (map : List EfiMemoryDescriptor) : Prop where
  nodup : (at_.list ++ freePages map).Nodup
  phys : ∀ p ∈ freePages map, PhysPage p
  notTable : ∀ p ∈ freePages map, ¬ m.IsTable p
  low : AcpiLow map

variable {static at_ : StaticPages} {map : List EfiMemoryDescriptor} {kernelSize : ℕ}

/-- The state in which the loop over the memory map begins. -/
theorem HandedOver.booting (h : HandedOver m static at_) (fits : MapFits m at_ map) :
    ∃ m₀ new t, m.physicalInitStack static = .ok m₀ ∧
      Booting m₀ t at_.rootStack [] map [(at_.rootStack, [])] [] [] m₀ ∧
      new ⊆ [at_.stackPml3, at_.stackPml2, at_.stackPml1] ∧
      (∀ x, m₀.IsTable x ↔ m.IsTable x ∨ x ∈ new) ∧ ∀ b, Plain b → m₀.pte b = m.pte b := by
  obtain ⟨m₀, new, t, run, accounts, sub, isTable, ptes⟩ := h.physicalInitStack
  obtain ⟨_, nodup, apart⟩ := List.nodup_append.1 fits.nodup
  refine ⟨m₀, new, t, run, accounts.booting ?_ fits.phys (fun p hp table => ?_) fits.low, sub,
    isTable, ptes⟩
  · exact List.nodup_cons.2 ⟨fun mem => apart _ (by simp [StaticPages.list]) _ mem rfl, nodup⟩
  · rcases (isTable p).1 table with old | used
    · exact fits.notTable p hp old
    · have mem : p ∈ at_.list := by
        have := sub used
        simp only [StaticPages.list, List.mem_cons, List.not_mem_nil, or_false] at this ⊢
        tauto
      exact apart p mem p hp rfl

theorem plainPage_slab : ∀ virt ∈ slabPages, PlainPage virt := by
  have plain : ∀ virt ∈ slabPages, OutsideWindow virt ∧ pageNumber virt ≠ pageNumber stackAddr ∧
      pageNumber virt ≠ pageNumber stackAddrTemp ∧ virt % 0x1000 = 0 ∧
        virt + 0x1000 ≤ 2 ^ 64 := by decide
  intro virt mem
  obtain ⟨outside, ne, neTemp, aligned, stop⟩ := plain virt mem
  exact ⟨⟨outside, ne, neTemp⟩, aligned, stop⟩

/-- The region list after `mm_virtual_init`. -/
theorem initRegions_run (pos : 0 < pageUp kernelSize) (small : pageUp kernelSize < 0x80000000) :
    ∃ vmm, mmVirtualInit kernelSize (.empty (fun _ => ⟨0, 0, 0, 0, 0⟩) vmObjects) = .ok vmm ∧
      LedgerRun kernelSize [] vmm := by
  have nodesLeft : 8 ≤ (Vmm.empty (fun _ => ⟨0, 0, 0, 0, 0⟩) vmObjects).slab.length := by
    simp [Vmm.empty, vmObjects]
  obtain ⟨vmm, init, _⟩ := mmVirtualInit_holds vmObjects_empty nodesLeft pos small
  exact ⟨vmm, init, .init vmObjects_empty nodesLeft init⟩

/-- What the two calls leave: page tables that grew by static pages and by free ones, the slab and the
ACPI tables mapped, everything else mapped as the boot loader had it, every free page accounted for,
and a region list without allocations. -/
structure Started (m : Mm) (at_ : StaticPages) (map : List EfiMemoryDescriptor) (kernelSize : ℕ)
    (slab : List ℕ) (s : Sys) : Prop where
  regions : LedgerRun kernelSize [] s.vmm
  memory : ∃ t A new tables lost, s.mm.Accounts t A slab ∧
    (A.frames ++ A.pages ++ tables ++ slab ++ lost).Perm (at_.rootStack :: freePages map) ∧
    lost.length ≤ tables.length + slab.length ∧ new ⊆ [at_.stackPml3, at_.stackPml2, at_.stackPml1] ∧
    ∀ x, s.mm.IsTable x ↔ m.IsTable x ∨ x ∈ new ++ tables
  slab : List.Forall₂ (fun virt p => s.mm.pte virt = p ||| slabFlags) slabPages slab
  identity : ∀ desc ∈ map, desc.isAcpi → ∀ p ∈ desc.pages, s.mm.pte p = p ||| (pagePresent ||| pageNx)
  other : ∀ b, Plain b → (∀ virt ∈ slabPages, pageNumber b ≠ pageNumber virt) →
    (∀ desc ∈ map, desc.isAcpi → OffRange desc.physicalStart desc.numberOfPages b) →
    s.mm.pte b = m.pte b

/-- An address of the lower half is none of the slab's. -/
theorem pageNumber_slab {a : ℕ} (low : a < 2 ^ 47) : ∀ virt ∈ slabPages,
      pageNumber a ≠ pageNumber virt := by
  simp only [slabPages, slabVmBase, List.forall_mem_cons, pageNumber]
  refine ⟨?_, ?_, ?_, ?_, by simp⟩ <;> omega

/-- The two calls after the loop over the memory map. -/
theorem Booting.start {m₀ : Mm} {root : ℕ} {tables lost : List ℕ}
    (h : Booting m₀ t root map [] A tables lost m) :
    (∃ m' slab B tables' lost', (mmPageTablesCommit m >>= mapSlab) = .ok (slab, m') ∧
      m'.Accounts t B slab ∧
      (B.frames ++ B.pages ++ (tables ++ tables') ++ slab ++ lost').Perm (root :: freePages map) ∧
      lost'.length ≤ (tables ++ tables').length + slab.length ∧
      (∀ x, m'.IsTable x ↔ m₀.IsTable x ∨ x ∈ tables ++ tables') ∧
      List.Forall₂ (fun virt p => m'.pte virt = p ||| slabFlags) slabPages slab ∧
      ∀ b, Plain b → (∀ virt ∈ slabPages, pageNumber b ≠ pageNumber virt) → m'.pte b = m.pte b) ∨
    (mmPageTablesCommit m >>= mapSlab) = .error outOfMemory ∧ ∃ k ≤ 16, A.getMany k = none := by
  obtain ⟨m₁, run, h₁, same, ptes⟩ := h.accounts.commit
  have apart : slabPages.Pairwise fun virt virt' => pageNumber virt ≠ pageNumber virt' := by decide
  rw [run, Fallible.ok_bind, mapSlab_eq]
  obtain ⟨m₂, ps, B, tables', lost', runs, h₂, perm, fewLost, isTable, entries, other⟩ | fails :=
    h₁.mapSlabPages plainPage_slab apart
  · left
    rw [show freePages [] = [] from rfl, List.append_nil] at h₂
    refine ⟨m₂, ps, B, tables', lost ++ lost', runs, h₂, ?_, ?_, fun x => ?_, entries,
      fun b plain off => ?_⟩
    · rw [List.perm_iff_count]
      intro x
      have old := List.perm_iff_count.1 h.held x
      have new := List.perm_iff_count.1 perm x
      simp only [List.count_append] at old new ⊢
      omega
    · have := h.fewLost
      simp only [List.length_append]
      omega
    · rw [isTable, same.isTable, h.isTable, List.mem_append, or_assoc]
    · rw [other b plain off, ptes b plain]
  · exact .inr fails

theorem initMemory_eq (objects : List ℕ) : initMemory static map objects kernelSize m = (do
    let m ← m.physicalInitStack static
    let m ← map.foldlM (fun m desc => mmPhysicalInitEntry desc m) m
    let (slab, m) ← mmPageTablesCommit m >>= mapSlab
    let vmm ← mmVirtualInit kernelSize (.empty (fun _ => ⟨0, 0, 0, 0, 0⟩) objects)
    return (slab, ⟨m, vmm⟩)) := by
  simp only [initMemory, mmPhysicalInit, bind_assoc]

/-! ## A boot loader's page tables -/

/-- Four tables at `0x1000` to `0x4000`, and four pages of the kernel image at `0x8000` to `0xB000`. -/
def loaderMm : Mm where
  pml4 := 0x1000
  root := 0
  mem page i :=
    if page = 0x1000 ∧ i = 510 then 0x1003
    else if page = 0x1000 ∧ i = 511 then 0x2003
    else if page = 0x2000 ∧ i = 510 then 0x3003
    else if page = 0x3000 ∧ i = 0 then 0x4003
    else if page = 0x4000 ∧ i < 4 then 0x8003 + i * 0x1000
    else 0

def loaderTables : List (List ℕ × ℕ) :=
  [([], 0x1000), ([511], 0x2000), ([510, 511], 0x3000), ([0, 510, 511], 0x4000)]

def loaderStatic : StaticPages :=
  ⟨0xFFFFFFFF80000000, 0xFFFFFFFF80001000, 0xFFFFFFFF80002000, 0xFFFFFFFF80003000⟩

def loaderPages : StaticPages := ⟨0x8000, 0x9000, 0xA000, 0xB000⟩

/-- A free page `0`, 64 other free pages, two pages of ACPI tables and a page of firmware code. -/
def loaderMap : List EfiMemoryDescriptor :=
  [⟨.bootServicesData, 0, 1⟩, ⟨.conventionalMemory, 0x100000, 64⟩, ⟨.acpiReclaimMemory, 0x80000, 2⟩,
    ⟨.runtimeServicesCode, 0x90000, 1⟩]

theorem loaderMm_tables : loaderMm.tablesIn loaderTables = true := by decide +kernel

theorem loaderMm_handedOver : HandedOver loaderMm loaderStatic loaderPages := by
  have plain : ∀ a ∈ loaderStatic.list, (OutsideWindow a ∧ pageNumber a ≠ pageNumber stackAddr ∧
      pageNumber a ≠ pageNumber stackAddrTemp) ∧ a < 2 ^ 64 ∧ a % 0x1000 = 0 := by decide
  have apart : ∀ p ∈ loaderPages.list, p ∉ loaderTables.map Prod.snd := by decide
  have mapped : List.Forall₂ (fun a p => loaderMm.translate a = .ok p) loaderStatic.list
      loaderPages.list :=
    .cons (by decide) (.cons (by decide) (.cons (by decide) (.cons (by decide) .nil)))
  refine ⟨.of_tablesIn (by decide) loaderMm_tables (by decide), fun a ha => ?_, mapped, by decide,
    by decide, fun p hp table => apart p hp (table.mem loaderMm_tables), fun i =>
      by simp [loaderMm, loaderPages]⟩
  obtain ⟨⟨outside, ne, neTemp⟩, rest⟩ := plain a ha
  exact ⟨⟨outside, ne, neTemp⟩, rest⟩

theorem loaderMap_fits : MapFits loaderMm loaderPages loaderMap := by
  have apart : ∀ p ∈ freePages loaderMap, p ∉ loaderTables.map Prod.snd := by decide +kernel
  exact ⟨by decide +kernel,
    by decide +kernel, fun p hp table => apart p hp (table.mem loaderMm_tables),
    by simp [AcpiLow, loaderMap, EfiMemoryDescriptor.isAcpi]⟩

/-- The kernel's memory is in order after the two calls, or they run out of memory for want of
pages. -/
theorem initMemory_spec (handed : HandedOver m static at_) (fits : MapFits m at_ map)
    (pos : 0 < pageUp kernelSize) (small : pageUp kernelSize < 0x80000000) :
    (∃ slab s, initMemory static map vmObjects kernelSize m = .ok (slab, s) ∧
      Started m at_ map kernelSize slab s) ∨
    initMemory static map vmObjects kernelSize m = .error outOfMemory ∧
      ¬ EnoughPages at_.rootStack map := by
  obtain ⟨m₀, new, t, run, booting, sub, isTable₀, ptes₀⟩ := handed.booting fits
  obtain ⟨vmm, regions, ledger⟩ := initRegions_run pos small
  rw [initMemory_eq, run, Fallible.ok_bind]
  obtain ⟨m₁, A, tables, lost, loop, done⟩ | ⟨loop, short⟩ := booting.loop
  rotate_left
  · exact .inr ⟨by rw [loop]; rfl, short⟩
  rw [loop, Fallible.ok_bind]
  obtain ⟨m₂, slab, B, tables', lost', start, accounts, perm, few, isTable, entries, other⟩ |
    ⟨start, k, bound, fails⟩ := done.start
  rotate_left
  · refine .inr ⟨by rw [start]; rfl, fun enough =>
      done.gets (k := k) (by simpa using enough) ?_ fails⟩
    have pages := enough.slab
    omega
  left
  rw [start]
  simp only [Fallible.ok_bind, regions]
  refine ⟨slab, ⟨m₂, vmm⟩, rfl, ledger,
    ⟨t, B, new, tables ++ tables', lost', accounts, perm, few, sub,
    fun x => ?_⟩, entries, fun desc mem acpi p hp => ?_, fun b plain offSlab off => ?_⟩
  · simp only [isTable, isTable₀, List.mem_append, or_assoc]
  · have page := fits.low.page mem acpi hp
    show m₂.pte p = _
    rw [other p (plain_of_low page.2) (pageNumber_slab page.2)]
    exact done.identity desc mem acpi p hp
  · show m₂.pte b = _
    rw [other b plain offSlab, done.other b plain off, ptes₀ b plain]

theorem initMemory_spec_loader : ∃ slab s,
    initMemory loaderStatic loaderMap vmObjects 0x200000 loaderMm = .ok (slab, s) ∧
      Started loaderMm loaderPages loaderMap 0x200000 slab s := by
  obtain started | ⟨_, short⟩ := initMemory_spec loaderMm_handedOver loaderMap_fits
    (show 0 < pageUp 0x200000 by decide) (by decide)
  · exact started
  · exact absurd ⟨by decide +kernel, by decide +kernel, by decide, by decide +kernel⟩ short

end Vineyard

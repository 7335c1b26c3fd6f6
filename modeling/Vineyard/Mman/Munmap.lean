import Vineyard.Mman.Runs

/-!
# `munmap` gives pages away before it looks for the region

`munmap` unmaps the pages of the range and marks them free, and only then asks for the region at the
address.  If there is none, or if its length is another one, the assertion at the end fails, but the
pages are gone; the check at the beginning lets pass every multiple of 1 KiB.  And if there is one,
pages may have been given back that it does not own, when they are not mapped or shared.
-/

namespace Vineyard

variable {m : Mm} {s s' : Sys} {t addr len : ℕ} {A : Layout} {ps : List ℕ}

/-- A used region starts at the address and has the length. -/
def Vmm.HasUsed (s : Vmm) (addr len : ℕ) : Prop :=
  ∃ n ∈ s.nodeList, n.start = addr ∧ n.len = len ∧ n.flags &&& vmUsed ≠ 0

/-- The two pages where the page allocator maps its stacks make up one region, as after
`mm_virtual_init`; it may have been freed. -/
def Vmm.HasStacks (s : Vmm) : Prop := ∃ n ∈ s.nodeList, n.start = stackAddrTemp ∧ n.len = 0x2000

/-- What the pages from an address on are mapped to, one after the other. -/
def Mm.MapsTo (m : Mm) (addr : ℕ) (ps : List ℕ) : Prop :=
  ∀ k p, ps[k]? = some p → m.translate (addr + k * 0x1000) = .ok p

/-- Every page of the range is mapped to a page of its own, which is neither a page table nor in the
hands of the page allocator. -/
structure Sys.Owns (s : Sys) (A : Layout) (addr len : ℕ) (ps : List ℕ) : Prop where
  size : ps.length * 0x1000 = len
  mapped : s.mm.MapsTo addr ps
  nodup : ps.Nodup
  notTable : ∀ p ∈ ps, ¬ s.mm.IsTable p
  used : ∀ p ∈ ps, p ∉ A.frames ++ A.pages

/-- The used region at the address, of the length, has been released: it is marked free, its pages are
unmapped and given back, and nothing else is changed. -/
structure Sys.Released (s s' : Sys) (t : ℕ) (A : Layout) (addr len : ℕ) (freed : List ℕ) : Prop where
  region : ∃ rs rs', s.vmm.Holds rs ∧ s'.vmm.Holds rs' ∧ Release addr rs len rs'
  size : freed.length * 0x1000 = len
  mapped : s.mm.MapsTo addr freed
  cleared : ∀ k < freed.length, s'.mm.pte (addr + k * 0x1000) = 0
  other : ∀ b, Plain b → (∀ k < freed.length, pageNumber b ≠ pageNumber (addr + k * 0x1000)) →
    s'.mm.pte b = s.mm.pte b
  tables : ∀ x, s'.mm.IsTable x ↔ s.mm.IsTable x
  given : ∃ B, s'.mm.Serves t B ∧ (B.frames ++ B.pages).Perm (freed ++ (A.frames ++ A.pages))

/-- The call returns -1 and changes nothing, or returns 0 and releases the region. -/
def MunmapAllOrNothing (t : ℕ) (A : Layout) (addr len : ℕ) (s : Sys) : Prop :=
  munmap addr len s = .ok (-1, [], s) ∨
    ∃ freed s', munmap addr len s = .ok (0, freed, s') ∧ s.Released s' t A addr len freed

/-! ## The pages of a region are plain -/

/-- What the MMU finds through the window are page tables. -/
theorem Mm.SelfMap.isTable_of_window {a p : ℕ} (self : m.SelfMap) (inside : ¬ OutsideWindow a)
    (at_ : m.translate a = .ok p) : m.IsTable p := by
  obtain ⟨q, legal, window⟩ := exists_legalPath_window inside
  rw [tablePath, pageSlot] at window
  rw [Mm.translate, window m self] at at_
  cases found : m.walk q with
  | none =>
    rw [found] at at_
    cases at_
  | some x =>
    rw [found] at at_
    obtain rfl := Except.ok.inj at_
    exact Mm.isTable_of_walk legal found

/-- At the address of the stack the MMU finds a stack of the allocator. -/
theorem Mm.Serves.stack_mem {a p : ℕ} (serves : m.Serves t A) (self : m.SelfMap)
    (here : pageNumber a = pageNumber stackAddr) (at_ : m.translate a = .ok p) : p ∈ A.frames := by
  have found := (self.window_eq_ok.1 serves.window).1
  obtain ⟨path, slot⟩ := pageNumber_eq_iff.1 here
  rw [stackPath_eq, ← path] at found
  have entry : m.pte a = m.mem t 511 := by
    rw [Mm.pte_of_walk found, slot]
    rfl
  obtain ⟨_, frame⟩ := Mm.translate_eq_ok.1 at_
  rw [entry] at frame
  exact frame ▸ serves.holds.current_mem

theorem Vmm.HasUsed.region {vmm : Vmm} {rs : List Region} (used : vmm.HasUsed addr len)
    (holds : vmm.Holds rs) : ∃ r ∈ rs, r.start = addr ∧ r.len = len ∧ r.flags &&& vmUsed ≠ 0 := by
  obtain ⟨n, mem, start, size, flags⟩ := used
  rw [← holds.map_nodeList]
  exact ⟨n.region, List.mem_map_of_mem mem, start, size, flags⟩

theorem Vmm.HasStacks.region {vmm : Vmm} {rs : List Region} (stackRegion : vmm.HasStacks)
    (holds : vmm.Holds rs) : ∃ r ∈ rs, r.start = stackAddrTemp ∧ r.len = 0x2000 := by
  obtain ⟨n, mem, start, size⟩ := stackRegion
  rw [← holds.map_nodeList]
  exact ⟨n.region, List.mem_map_of_mem mem, start, size⟩

/-- Allocations and reserved ranges are used regions. -/
theorem Ledger.hasUsed {K : ℕ} {L : List (ℕ × ℕ)} {vmm : Vmm} {rs : List Region} (h : Ledger K L rs)
    (holds : vmm.Holds rs) (mem : (addr, len) ∈ L.map pagesRange ++ reservedRanges K) :
    vmm.HasUsed addr len := by
  obtain ⟨r, hr, range⟩ := List.mem_map.1 (h.used.mem_iff.2 mem)
  obtain ⟨hr, flags⟩ := List.mem_filter.1 hr
  obtain ⟨start, length⟩ := Prod.mk.inj range
  rw [← holds.map_nodeList] at hr
  obtain ⟨n, listed, rfl⟩ := List.mem_map.1 hr
  have used : n.flags = vmUsed := of_decide_eq_true flags
  exact ⟨n, listed, start, length, by rw [used]; decide⟩

/-- As long as only live allocations are freed, the region of the stacks is there. -/
theorem LedgerRun.hasStacks {kernelSize : ℕ} {L : List (ℕ × ℕ)} {vmm : Vmm}
    (kernelPos : 0 < pageUp kernelSize) (kernelSmall : pageUp kernelSize < 0x80000000)
    (regions : LedgerRun kernelSize L vmm) : vmm.HasStacks := by
  obtain ⟨rs, holds, ledger⟩ := regions.ledger kernelPos kernelSmall
  have reserved : (stackAddrTemp, 0x2000) ∈ reservedRanges (pageUp kernelSize) := by
    simp [reservedRanges, stackAddrTemp]
  obtain ⟨n, listed, start, length, _⟩ := ledger.hasUsed holds (List.mem_append_right _ reserved)
  exact ⟨n, listed, start, length⟩

/-- A region that owns its pages is neither in the window nor where the stacks are mapped. -/
theorem Sys.Owns.plainPages {rs : List Region} (owns : s.Owns A addr len ps) (paged : Paged rs)
    (holds : s.vmm.Holds rs) (used : s.vmm.HasUsed addr len) (stackRegion : s.vmm.HasStacks)
    (self : s.mm.SelfMap) (serves : s.mm.Serves t A) : PlainPages addr 0 ps.length := by
  obtain ⟨r, mem, rfl, rfl, _⟩ := used.region holds
  obtain ⟨low, high⟩ := paged.tiles.bounds mem
  have aligned := paged.start_aligned r mem
  have size := owns.size
  simp only [managedLo, managedHi] at low high
  have page : ∀ k < ps.length, OutsideWindow (r.start + k * 0x1000) ∧
      pageNumber (r.start + k * 0x1000) ≠ pageNumber stackAddr := by
    intro k hk
    have listed := List.getElem?_eq_getElem hk
    have at_ := owns.mapped k _ listed
    have here := List.mem_of_getElem? listed
    constructor
    · by_contra inside
      exact owns.notTable _ here (self.isTable_of_window inside at_)
    · intro same
      exact owns.used _ here (List.mem_append_left _ (serves.stack_mem self same at_))
  refine ⟨by omega, by omega, fun k hk => ?_⟩
  rw [Nat.zero_add]
  refine ⟨(page k hk).1, (page k hk).2, fun same => ?_⟩
  -- The only region with the other page is that of the stacks, which has the stack in use, too.
  have temp : r.start + k * 0x1000 = stackAddrTemp := by
    simp only [pageNumber, stackAddrTemp] at same ⊢
    omega
  obtain ⟨r', mem', start, length⟩ := stackRegion.region holds
  obtain rfl := paged.tiles.eq_of_covers mem mem' ⟨Nat.le_add_right _ _, by omega⟩
    ⟨by omega, show r.start + k * 0x1000 < r'.start + r'.len by omega⟩
  have second := (page 1 (by omega)).2
  rw [start] at second
  exact second (by decide)

/-! ## The calls that succeed -/

/-- Freeing a used region by its address. -/
theorem mmVirtualFree_used {vmm : Vmm} {rs : List Region} (paged : Paged rs) (holds : vmm.Holds rs)
    (used : vmm.HasUsed addr len) :
    ∃ rs' vmm', mmVirtualFree addr vmm = .ok (len, vmm') ∧ vmm'.Holds rs' ∧
      Release addr rs len rs' := by
  obtain ⟨r, mem, start, length, flags⟩ := used.region holds
  obtain ⟨none, _⟩ | ⟨n, rs', vmm', release, run, holds', _⟩ :=
    mmVirtualFree_refines holds paged.few addr
  · exact absurd ⟨start, flags⟩ (none r mem)
  · have size : n = len := by
      obtain ⟨l, r', k, _, used'⟩ := release
      obtain rfl := paged.tiles.eq_of_start mem (by simp) (start.trans used'.1.symm)
      exact length
    rw [size] at run release
    exact ⟨rs', vmm', run, holds', release⟩

/-- A used region that owns its pages is released. -/
theorem Sys.Owns.munmap {rs : List Region} (owns : s.Owns A addr len ps) (paged : Paged rs)
    (holds : s.vmm.Holds rs) (used : s.vmm.HasUsed addr len) (stackRegion : s.vmm.HasStacks)
    (ok : s.mm.Ok) (serves : s.mm.Serves t A)
    (accepted : ¬ (addr = 0 ∨ addr &&& 0x3FF ≠ 0 ∨ len = 0)) :
    ∃ s', Vineyard.munmap addr len s = .ok (0, ps, s') ∧ s.Released s' t A addr len ps := by
  have pages := owns.plainPages paged holds used stackRegion ok.self serves
  have phys : ∀ p ∈ ps, PhysPage p := by
    intro p hp
    obtain ⟨k, listed⟩ := List.getElem?_of_mem hp
    obtain ⟨_, frame⟩ := Mm.translate_eq_ok.1 (owns.mapped k p listed)
    rw [and_frameMask] at frame
    exact ⟨by omega, by omega⟩
  have accounts : s.mm.Accounts t A (ps ++ []) := by
    rw [List.append_nil]
    exact ⟨ok, serves, owns.nodup, phys, owns.used, owns.notTable⟩
  obtain ⟨mm, B, loop, accounts', same, perm, cleared, other⟩ :=
    munmapLoop_frees accounts pages fun k p hp => by simpa using owns.mapped k p hp
  obtain ⟨rs', vmm, free, holds', release⟩ := mmVirtualFree_used paged holds used
  have count : len >>> 12 = ps.length := by
    rw [← owns.size, Nat.shiftRight_eq_div_pow]
    omega
  refine ⟨⟨mm, vmm⟩, ?_, ⟨rs, rs', holds, holds', release⟩, owns.size, owns.mapped,
    by simpa using cleared, by simpa using other, fun x => same.isTable, B, accounts'.serves, perm⟩
  rw [Vineyard.munmap, if_neg accepted]
  simp only [count, loop, free, Fallible.ok_bind, ne_eq, not_true_eq_false, if_false]
  rfl

theorem Release.hasUsed {vmm : Vmm} {rs rs' : List Region} (release : Release addr rs len rs')
    (holds : vmm.Holds rs) : vmm.HasUsed addr len := by
  obtain ⟨l, r, k, _, used⟩ := release
  have mem : r ∈ vmm.nodeList.map VmNode.region := by
    rw [holds.map_nodeList]
    simp
  obtain ⟨n, listed, rfl⟩ := List.mem_map.1 mem
  exact ⟨n, listed, used.1, rfl, used.2⟩

/-- A region that has been released was a used one and has owned its pages. -/
theorem Sys.Released.owns (released : s.Released s' t A addr len ps) :
    s.vmm.HasUsed addr len ∧ s.Owns A addr len ps := by
  constructor
  · obtain ⟨rs, rs', holds, _, release⟩ := released.region
    exact release.hasUsed holds
  · obtain ⟨B, serves, perm⟩ := released.given
    have nodup := perm.nodup_iff.1 serves.holds.ok.nodup
    obtain ⟨freed, _, apart⟩ := List.nodup_append.1 nodup
    refine ⟨released.size, released.mapped, freed, fun p hp table => ?_, fun p hp held =>
      apart p hp p held rfl⟩
    exact serves.apart p (perm.mem_iff.2 (List.mem_append_left _ hp)) ((released.tables p).2 table)

/-- **`munmap` is all or nothing** exactly when it refuses its arguments at once, or a used region
starts at the address, has the length and owns its pages. -/
theorem munmap_allOrNothing_iff {kernelSize : ℕ} (kernelPos : 0 < pageUp kernelSize)
    (kernelSmall : pageUp kernelSize < 0x80000000) (regions : VmmRun kernelSize s.vmm)
    (stackRegion : s.vmm.HasStacks) (ok : s.mm.Ok) (serves : s.mm.Serves t A) (addr len : ℕ) :
    MunmapAllOrNothing t A addr len s ↔
      (addr = 0 ∨ addr &&& 0x3FF ≠ 0 ∨ len = 0) ∨
        (s.vmm.HasUsed addr len ∧ ∃ ps, s.Owns A addr len ps) := by
  obtain ⟨rs, holds, paged⟩ := regions.paged kernelPos kernelSmall
  by_cases refused : addr = 0 ∨ addr &&& 0x3FF ≠ 0 ∨ len = 0
  · exact iff_of_true (.inl (if_pos refused)) (.inl refused)
  constructor
  · rintro (call | ⟨freed, s', _, released⟩)
    · rw [munmap, if_neg refused] at call
      obtain ⟨⟨freed, mm⟩, _, call⟩ := Fallible.bind_eq_ok.1 call
      obtain ⟨⟨region, vmm⟩, _, call⟩ := Fallible.bind_eq_ok.1 call
      dsimp only at call
      split_ifs at call
      have zero := (Prod.mk.inj (Except.ok.inj call)).1
      exact absurd zero (by decide)
    · obtain ⟨used, owns⟩ := released.owns
      exact .inr ⟨used, freed, owns⟩
  · rintro (early | ⟨used, ps, owns⟩)
    · exact absurd early refused
    · obtain ⟨s', call, released⟩ := owns.munmap paged holds used stackRegion ok serves refused
      exact .inr ⟨ps, s', call, released⟩

/-! ## Regions of `mmap` -/

/-- A readable region of `mmap` is a used one and owns its pages. -/
theorem Sys.Inv.owns {K : ℕ} {others : List (ℕ × ℕ)} {live : List MmapRegion} {r : MmapRegion}
    (h : s.Inv K t others live) (accounts : s.mm.Accounts t A (live.flatMap MmapRegion.taken))
    (mem : r ∈ live) (whole : r.len % 0x1000 = 0) (readable : r.prot &&& protRead ≠ 0) :
    s.vmm.HasUsed r.addr r.len ∧ s.Owns A r.addr r.len r.taken := by
  obtain ⟨rs, holds, ledger⟩ := h.regions
  have size := (h.size r mem).1
  rw [Nat.shiftRight_eq_div_pow] at size
  have length : r.taken.length * 0x1000 = r.len := by omega
  have content : ∀ p ∈ r.taken, p ∈ live.flatMap MmapRegion.taken := fun p hp =>
    List.mem_flatMap.2 ⟨r, mem, hp⟩
  constructor
  · have listed : (r.addr, r.len) ∈ (live.map MmapRegion.alloc ++ others).map pagesRange :=
      List.mem_map.2 ⟨r.alloc, List.mem_append_left _ (List.mem_map_of_mem mem), by
        rw [pagesRange, MmapRegion.alloc, length]⟩
    exact ledger.hasUsed holds (List.mem_append_left _ listed)
  · exact ⟨length, fun k p hp => h.translate mem readable hp rfl,
      (List.nodup_flatMap.1 accounts.nodup).1 r mem, fun p hp => accounts.notTable p (content p hp),
      fun p hp => accounts.used p (content p hp)⟩

/-- The loop gives pages of such a region back from any address in its first page on. -/
theorem Sys.Inv.munmapLoop_take {K k offset : ℕ} {others : List (ℕ × ℕ)} {live : List MmapRegion}
    {r : MmapRegion} (h : s.Inv K t others live) (mem : r ∈ live) (readable : r.prot &&& protRead ≠ 0)
    (le : k ≤ r.taken.length) (inside : offset < 0x1000) :
    ∃ mm, munmapLoop (r.addr + offset) k 0 s.mm = .ok (r.taken.take k, mm) := by
  obtain ⟨A, accounts⟩ := h.accounts
  have pages := h.managedPages mem
  have aligned := pages.aligned
  have length : (r.taken.take k).length = k := List.length_take_of_le le
  have here : ∀ j, (r.addr + offset + (0 + j) * 0x1000) / 0x1000 = (r.addr + j * 0x1000) / 0x1000 :=
    fun j => by omega
  have plain : PlainPages (r.addr + offset) 0 (r.taken.take k).length := by
    have low := pages.low
    have high := pages.high
    have managed : ∀ j < k, Managed (r.addr + offset + (0 + j) * 0x1000) := fun j hj => by
      rw [Managed]
      omega
    simp only [managedLo, slabVmBase] at low high
    exact ⟨by omega, by omega, fun j hj => (managed j (length ▸ hj)).plain⟩
  have split : (live.flatMap MmapRegion.taken).Perm
      (r.taken.take k ++ (r.taken.drop k ++ (live.erase r).flatMap MmapRegion.taken)) := by
    rw [← List.append_assoc, List.take_append_drop]
    exact (List.perm_cons_erase mem).flatMap_right MmapRegion.taken
  have mapped : ∀ j p, (r.taken.take k)[j]? = some p →
      s.mm.translate (r.addr + offset + (0 + j) * 0x1000) = .ok p := by
    intro j p hp
    have bound : j < k := length ▸ (List.getElem?_eq_some_iff.1 hp).1
    rw [List.getElem?_take_of_lt bound] at hp
    exact h.translate mem readable hp (here j)
  obtain ⟨mm, _, loop, _⟩ := munmapLoop_frees (accounts.perm split) plain mapped
  rw [length] at loop
  exact ⟨mm, loop⟩

/-- Where the loop gets through and there is no such region, the assertion fails. -/
theorem munmap_assertion {rs : List Region} {mm : Mm} (paged : Paged rs) (holds : s.vmm.Holds rs)
    (accepted : ¬ (addr = 0 ∨ addr &&& 0x3FF ≠ 0 ∨ len = 0)) (none : ¬ s.vmm.HasUsed addr len)
    (loop : munmapLoop addr (len >>> 12) 0 s.mm = .ok (ps, mm)) :
    munmap addr len s = .error (.assertion "region == len") := by
  obtain ⟨n, vmm, free, other⟩ : ∃ n vmm, mmVirtualFree addr s.vmm = .ok (n, vmm) ∧ n ≠ len := by
    obtain ⟨_, run⟩ | ⟨n, rs', vmm, release, run, _⟩ := mmVirtualFree_refines holds paged.few addr
    · exact ⟨0, s.vmm, run, fun e => accepted (.inr (.inr e.symm))⟩
    · refine ⟨n, vmm, run, fun e => none ?_⟩
      subst e
      exact release.hasUsed holds
  rw [munmap, if_neg accepted]
  simp only [loop, free, Fallible.ok_bind]
  rw [if_pos other]

/-- Two pages have been mapped after boot. -/
theorem mmap_boot : ∃ vmm s r L, LedgerRun 0x200000 [] vmm ∧ LedgerRun 0x200000 L s.vmm ∧
    MmapRun ⟨bootMm, vmm⟩ [r] s ∧ r.len = 0x2000 := by
  obtain ⟨vmm, init, regions⟩ := bootVmm_run
  have outcome : (bootVmm >>= fun vmm => mmap 0 0x2000 protRead (mapAnonymous ||| mapPrivate) (-1) 0
      ⟨bootMm, vmm⟩ >>= fun r => .ok (decide (r.1 ≠ 0))) = .ok true := by
    decide +kernel
  rw [init, Fallible.ok_bind] at outcome
  obtain ⟨⟨addr, taken, s⟩, call, found⟩ := Fallible.bind_eq_ok.1 outcome
  obtain ⟨vmm', mm, alloc, _, rfl⟩ := mmap_eq_ok call
  exact ⟨vmm, _, _, _, regions, .alloc regions (by decide) alloc,
    .mmap .start (by decide) (by decide) (by decide) (by decide) call
      (of_decide_eq_true (Except.ok.inj found)), rfl⟩

/-- The whole of the region is released. -/
theorem munmap_allOrNothing_boot : ∃ vmm s r t A, MmapRun ⟨bootMm, vmm⟩ [r] s ∧ r.len = 0x2000 ∧
    MunmapAllOrNothing t A r.addr 0x2000 s := by
  obtain ⟨vmm, s, r, L, regions, mapped, run, len⟩ := mmap_boot
  obtain ⟨inv, live⟩ := run.inv (by decide) (by decide) regions bootMm_ok bootMm_serves
  obtain ⟨A, accounts⟩ := inv.accounts
  obtain ⟨whole, readable⟩ := live r List.mem_cons_self
  obtain ⟨used, owns⟩ := inv.owns accounts List.mem_cons_self whole readable
  rw [len] at used owns
  have all := munmap_allOrNothing_iff (by decide) (by decide) mapped.vmmRun
    (mapped.hasStacks (by decide) (by decide)) accounts.ok accounts.serves r.addr 0x2000
  exact ⟨vmm, s, r, _, A, run, len, all.2 (.inr ⟨used, r.taken, owns⟩)⟩

/-- The length of one page for a region of two, and an address inside the region: the assertion fails,
after the loop has given the first page back. -/
theorem not_munmap_allOrNothing : ∃ vmm s r, VmmRun 0x200000 s.vmm ∧ MmapRun ⟨bootMm, vmm⟩ [r] s ∧
    r.len = 0x2000 ∧ r.taken.length = 2 ∧
    ∀ offset, offset = 0 ∨ offset = 0x400 →
      (∃ mm, munmapLoop (r.addr + offset) 1 0 s.mm = .ok (r.taken.take 1, mm)) ∧
      munmap (r.addr + offset) 0x1000 s = .error (.assertion "region == len") ∧
      ∀ t A, ¬ MunmapAllOrNothing t A (r.addr + offset) 0x1000 s := by
  obtain ⟨vmm, s, r, L, regions, mapped, run, len⟩ := mmap_boot
  obtain ⟨inv, live⟩ := run.inv (by decide) (by decide) regions bootMm_ok bootMm_serves
  obtain ⟨A, accounts⟩ := inv.accounts
  obtain ⟨whole, readable⟩ := live r List.mem_cons_self
  obtain ⟨rs, holds, paged⟩ := mapped.vmmRun.paged (by decide) (by decide)
  obtain ⟨u, hu, start, length, _⟩ :=
    (inv.owns accounts List.mem_cons_self whole readable).1.region holds
  obtain ⟨aligned, low, _⟩ := inv.managedPages List.mem_cons_self
  have size := (inv.size r List.mem_cons_self).1
  rw [len, show 0x2000 >>> 12 = 2 from rfl] at size
  refine ⟨vmm, s, r, mapped.vmmRun, run, len, size.symm, fun offset choice => ?_⟩
  have loop := inv.munmapLoop_take List.mem_cons_self readable (show 1 ≤ r.taken.length by omega)
    (show offset < 0x1000 by omega)
  obtain ⟨mm, loop⟩ := loop
  have accepted : ¬ (r.addr + offset = 0 ∨ (r.addr + offset) &&& 0x3FF ≠ 0 ∨ 0x1000 = 0) := by
    have masked : (r.addr + offset) &&& 0x3FF = (r.addr + offset) % 0x400 := Words.and_low _ 10
    simp only [managedLo] at low
    omega
  have none : ¬ s.vmm.HasUsed (r.addr + offset) 0x1000 := by
    intro used
    obtain ⟨v, hv, start', length', _⟩ := used.region holds
    have page := paged.start_aligned v hv
    obtain rfl := paged.tiles.eq_of_start hu hv (by omega)
    omega
  have fails := munmap_assertion paged holds accepted none loop
  refine ⟨⟨mm, loop⟩, fails, fun t A both => ?_⟩
  rw [MunmapAllOrNothing, fails] at both
  simp at both

end Vineyard

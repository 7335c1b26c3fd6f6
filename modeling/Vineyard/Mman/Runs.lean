import Vineyard.Mman.Pages

/-!
# Runs of `mmap` and `munmap`

Every live region of `mmap` is an allocation of the region list, its pages are mapped to the physical
pages that the call took, and these pages are used for nothing else (`Sys.Inv`).  So regions are
isolated from one another, from the page allocator and from the page tables, and `munmap` gives back
exactly the pages that `mmap` took.
-/

namespace Vineyard

open Function

/-- A live region: what `mmap` was called with, and what it returned. -/
structure MmapRegion where
  addr : ℕ
  len : ℕ
  prot : ℕ
  /-- The physical pages that `mmap` took for the contents. -/
  taken : List ℕ
  deriving DecidableEq

/-- Address and number of pages. -/
def MmapRegion.alloc (r : MmapRegion) : ℕ × ℕ := (r.addr, r.taken.length)

/-- What holds between the calls: `others` are further allocations of the region list. -/
structure Sys.Inv (K t : ℕ) (others : List (ℕ × ℕ)) (s : Sys) (live : List MmapRegion) : Prop where
  regions : ∃ rs, s.vmm.Holds rs ∧ Ledger K (live.map MmapRegion.alloc ++ others) rs
  accounts : ∃ A, s.mm.Accounts t A (live.flatMap MmapRegion.taken)
  size : ∀ r ∈ live, r.len >>> 12 = r.taken.length ∧ 0 < r.taken.length
  mapped : ∀ r ∈ live, ∀ k p, r.taken[k]? = some p →
    s.mm.pte (r.addr + k * 0x1000) = p ||| mmapFlags r.prot

variable {K t : ℕ} {others : List (ℕ × ℕ)} {s s' : Sys} {live : List MmapRegion}

/-! ## The region list -/

theorem Ledger.perm {L L' : List (ℕ × ℕ)} {rs : List Region} (h : Ledger K L rs) (perm : L.Perm L') :
    Ledger K L' rs :=
  ⟨h.paged, h.flags, h.used.trans ((perm.map pagesRange).append_right _), h.free_low, fun x hx =>
    h.live_low x (perm.mem_iff.2 hx)⟩

/-- The pages of an allocation are managed. -/
theorem Ledger.managedPages {L : List (ℕ × ℕ)} {rs : List Region} {a n : ℕ} (h : Ledger K L rs)
    (mem : (a, n) ∈ L) : ManagedPages a 0 n := by
  obtain ⟨r, hr, _, start, _⟩ := h.region_of_live mem
  have aligned := h.paged.start_aligned r hr
  have low := (h.paged.tiles.bounds hr).1
  have high := h.live_low _ mem
  rw [start] at aligned low
  exact ⟨aligned, low, by simpa using high⟩

/-- An allocation that succeeds is a new one, apart from all others, and its addresses are no longer
free. -/
theorem Ledger.alloc {L : List (ℕ × ℕ)} {rs : List Region} {vmm vmm' : Vmm} {pages a : ℕ}
    (holds : vmm.Holds rs) (h : Ledger K L rs) (small : pages < 2 ^ 52)
    (call : mmVirtualAlloc pages vmm = .ok (a, vmm')) (found : a ≠ 0) :
    0 < pages ∧ (∃ rs', vmm'.Holds rs' ∧ Ledger K ((a, pages) :: L) rs') ∧ ManagedPages a 0 pages ∧
      (∀ x ∈ L, Apart (pagesRange x) (pagesRange (a, pages))) ∧
      ∀ b, vmm'.InNode vmFree b → vmm.InNode vmFree b ∧ ¬ (a ≤ b ∧ b < a + pages * 0x1000) := by
  obtain ⟨zero, _⟩ | ⟨pos, rs', fit, holds'⟩ := mmVirtualAlloc_cases holds h.paged small call
  · exact absurd zero found
  have ledger := h.firstFit pos fit
  have apart := ledger.apart.1
  rw [List.map_cons, List.pairwise_cons] at apart
  refine ⟨pos, ⟨rs', holds', ledger⟩, ledger.managedPages (by simp), fun x hx =>
    Or.symm (apart.1 _ (List.mem_map_of_mem hx)), fun b free => ?_⟩
  rw [holds'.inNode_iff] at free
  rw [holds.inNode_iff]
  obtain ⟨x, hx, low, high, flags⟩ := free
  obtain ⟨u, hu, used, start, len⟩ := ledger.region_of_live List.mem_cons_self
  have off : ¬ (a ≤ b ∧ b < a + pages * 0x1000) := by
    rintro ⟨low', high'⟩
    obtain rfl := ledger.paged.tiles.eq_of_covers hx hu ⟨low, high⟩ ⟨by omega, by omega⟩
    rw [used] at flags
    exact absurd flags (by decide)
  refine ⟨?_, off⟩
  cases fit with
  | exact l r k before free len =>
    simp only [List.mem_append, List.mem_cons] at hx ⊢
    rcases hx with hx | rfl | hx
    · exact ⟨x, .inl hx, low, high, flags⟩
    · exact ⟨r, .inr (.inl rfl), low, high, free⟩
    · exact ⟨x, .inr (.inr hx), low, high, flags⟩
  | split l r k before free len =>
    simp only [List.mem_append, List.mem_cons] at hx ⊢
    rcases hx with hx | rfl | rfl | hx
    · exact ⟨x, .inl hx, low, high, flags⟩
    · exact absurd ⟨low, high⟩ off
    · simp only at low high
      exact ⟨r, .inr (.inl rfl), by omega, by omega, free⟩
    · exact ⟨x, .inr (.inr hx), low, high, flags⟩

/-- Freeing an allocation makes its addresses free and no others. -/
theorem Ledger.free {L : List (ℕ × ℕ)} {rs : List Region} {vmm : Vmm} {pages a : ℕ}
    (holds : vmm.Holds rs) (h : Ledger K ((a, pages) :: L) rs) :
    ∃ vmm' rs', mmVirtualFree a vmm = .ok (pages * 0x1000, vmm') ∧ vmm'.Holds rs' ∧ Ledger K L rs' ∧
      ∀ b, vmm'.InNode vmFree b → vmm.InNode vmFree b ∨ (a ≤ b ∧ b < a + pages * 0x1000) := by
  obtain ⟨vmm', rs', run, holds', ledger⟩ := h.free_live holds List.mem_cons_self
  rw [List.erase_cons_head] at ledger
  refine ⟨vmm', rs', run, holds', ledger, fun b free => ?_⟩
  obtain ⟨none, zero, _⟩ | ⟨rs'', freed, holds''⟩ := mmVirtualFree_cases holds h.paged run
  · obtain ⟨r, hr, flags, start, _⟩ := h.region_of_live List.mem_cons_self
    exact absurd ⟨start, by simp [flags, vmUsed]⟩ (none r hr)
  · rw [holds''.inNode_iff] at free
    rw [holds.inNode_iff]
    obtain ⟨x, hx, low, high, flags⟩ := free
    generalize size : pages * 0x1000 = n at freed
    obtain ⟨l, r, k, before, start, _⟩ := freed
    simp only [List.mem_append, List.mem_cons] at hx ⊢
    rcases hx with hx | rfl | hx
    · exact .inl ⟨x, .inl hx, low, high, flags⟩
    · simp only at low high
      exact .inr (by omega)
    · exact .inl ⟨x, .inr (.inr hx), low, high, flags⟩

/-! ## The flags of `mmap` -/

theorem mmapFlags_eq (prot : ℕ) : mmapFlags prot =
    (if prot &&& protRead ≠ 0 then pagePresent else 0) |||
      (if prot &&& protWrite ≠ 0 then pageWrite else 0) |||
        (if prot &&& protExec = 0 then pageNx else 0) := by
  simp only [mmapFlags, protNone, Nat.and_zero, ne_eq, not_true_eq_false, if_false]
  split_ifs <;> simp

theorem mmapFlags_inside (prot : ℕ) : mmapFlags prot &&& flagsMask = mmapFlags prot := by
  rw [mmapFlags_eq]
  split_ifs <;> decide

theorem mmapFlags_present (prot : ℕ) :
    mmapFlags prot &&& pagePresent ≠ 0 ↔ prot &&& protRead ≠ 0 := by
  rw [mmapFlags_eq]
  by_cases read : prot &&& protRead ≠ 0
  · rw [if_pos read]
    refine ⟨fun _ => read, fun _ => ?_⟩
    split_ifs <;> decide
  · rw [if_neg read]
    refine ⟨fun h => absurd h ?_, fun h => absurd h read⟩
    split_ifs <;> decide

/-! ## One call -/

/-- A call of `mmap` that returns has passed its checks. -/
theorem mmap_eq_ok {addr len prot flags a : ℕ} {fd off : ℤ} {taken : List ℕ}
    (call : mmap addr len prot flags fd off s = .ok (a, taken, s')) :
    ∃ vmm mm, mmVirtualAlloc (len >>> 12) s.vmm = .ok (a, vmm) ∧
      mmapLoop a (mmapFlags prot) (len >>> 12) 0 s.mm = .ok (taken, mm) ∧ s' = ⟨mm, vmm⟩ := by
  rw [mmap] at call
  split_ifs at call
  obtain ⟨⟨virt, vmm⟩, alloc, call⟩ := Fallible.bind_eq_ok.1 call
  obtain ⟨⟨ps, mm⟩, loop, call⟩ := Fallible.bind_eq_ok.1 call
  injection call with call
  obtain ⟨rfl, rest⟩ := Prod.mk.inj call
  obtain ⟨rfl, rfl⟩ := Prod.mk.inj rest
  exact ⟨vmm, mm, alloc, loop, rfl⟩

namespace Sys.Inv

theorem managedPages (h : s.Inv K t others live) {r : MmapRegion} (mem : r ∈ live) :
    ManagedPages r.addr 0 r.taken.length := by
  obtain ⟨rs, _, ledger⟩ := h.regions
  exact ledger.managedPages (List.mem_append_left _ (List.mem_map_of_mem mem))

/-- Entries of live regions are unchanged by writes to other managed addresses. -/
theorem mapped_of_apart {mm : Mm} {virt n : ℕ} (h : s.Inv K t others live)
    (same : SameOutside s.mm mm virt n) {r : MmapRegion} (mem : r ∈ live)
    (apart : Apart (pagesRange r.alloc) (virt, n * 0x1000)) :
    ∀ k p, r.taken[k]? = some p → mm.pte (r.addr + k * 0x1000) = p ||| mmapFlags r.prot := by
  intro k p hp
  have bound : k < r.taken.length := (List.getElem?_eq_some_iff.1 hp).1
  have managed := (h.managedPages mem).managed bound
  rw [Nat.zero_add] at managed
  rw [← h.mapped r mem k p hp]
  refine same _ managed fun here => ?_
  simp only [Apart, pagesRange, MmapRegion.alloc] at apart
  omega

/-- `mmap` adds a region. -/
theorem mmap {addr len prot flags a : ℕ} {fd off : ℤ} {taken : List ℕ} (h : s.Inv K t others live)
    (word : len < 2 ^ 64) (call : Vineyard.mmap addr len prot flags fd off s = .ok (a, taken, s'))
    (found : a ≠ 0) :
    s'.Inv K t others (⟨a, len, prot, taken⟩ :: live) ∧ SameOutside s.mm s'.mm a taken.length ∧
    ∀ b, s'.vmm.InNode vmFree b →
      s.vmm.InNode vmFree b ∧ ¬ (a ≤ b ∧ b < a + taken.length * 0x1000) := by
  obtain ⟨vmm, mm, alloc, loop, rfl⟩ := mmap_eq_ok call
  obtain ⟨rs, holds, ledger⟩ := h.regions
  obtain ⟨A, accounts⟩ := h.accounts
  have small : len >>> 12 < 2 ^ 52 := by
    rw [Nat.shiftRight_eq_div_pow]
    omega
  obtain ⟨pos, ⟨rs', holds', ledger'⟩, pages, apart, free⟩ := ledger.alloc holds small alloc found
  obtain ⟨length, ⟨B, accounts'⟩, mapped, same⟩ := mmapLoop_spec accounts pages loop
  rw [Nat.zero_mul, Nat.add_zero, ← length] at same
  rw [← length] at ledger' apart free
  refine ⟨⟨⟨rs', holds', ledger'⟩, ⟨B, accounts'⟩, ?_, ?_⟩, same, free⟩
  · exact List.forall_mem_cons.2 ⟨⟨length.symm, length ▸ pos⟩, h.size⟩
  · refine List.forall_mem_cons.2 ⟨fun k p hp => by simpa using mapped k p hp, fun r mem => ?_⟩
    exact h.mapped_of_apart same mem
      (apart _ (List.mem_append_left _ (List.mem_map_of_mem mem)))

theorem and_0x3FF {x : ℕ} (aligned : x % 0x1000 = 0) : x &&& 0x3FF = 0 := by
  rw [show (0x3FF : ℕ) = 2 ^ 10 - 1 from rfl, Nat.and_two_pow_sub_one_eq_mod]
  omega

/-- `munmap` of a readable region gives its pages back and removes it; the assertion passes if the
length is a whole number of pages. -/
theorem munmap {r : MmapRegion} (h : s.Inv K t others live) (mem : r ∈ live)
    (readable : r.prot &&& protRead ≠ 0) :
    ∃ s', Vineyard.munmap r.addr r.len s = (if r.taken.length * 0x1000 ≠ r.len then
        .error (.assertion "region == len") else .ok (0, r.taken, s')) ∧
      s'.Inv K t others (live.erase r) ∧
      (∀ k < r.taken.length, s'.mm.pte (r.addr + k * 0x1000) = 0) ∧
      SameOutside s.mm s'.mm r.addr r.taken.length ∧
      ∀ b, s'.vmm.InNode vmFree b →
        s.vmm.InNode vmFree b ∨ (r.addr ≤ b ∧ b < r.addr + r.taken.length * 0x1000) := by
  obtain ⟨rs, holds, ledger⟩ := h.regions
  obtain ⟨A, accounts⟩ := h.accounts
  obtain ⟨size, pos⟩ := h.size r mem
  have pages := h.managedPages mem
  have perm : live.Perm (r :: live.erase r) := List.perm_cons_erase mem
  have allocs : (live.map MmapRegion.alloc ++ others).Perm
      (r.alloc :: ((live.erase r).map MmapRegion.alloc ++ others)) :=
    (perm.map MmapRegion.alloc).append_right others
  have contents : (live.flatMap MmapRegion.taken).Perm
      (r.taken ++ (live.erase r).flatMap MmapRegion.taken) :=
    perm.flatMap_right MmapRegion.taken
  have mapped : ∀ k p, r.taken[k]? = some p →
      s.mm.pte (r.addr + (0 + k) * 0x1000) = p ||| mmapFlags r.prot := by
    intro k p hp
    rw [Nat.zero_add]
    exact h.mapped r mem k p hp
  obtain ⟨mm, B, loop, accounts', cleared, same⟩ := munmapLoop_spec (accounts.perm contents) pages
    ((mmapFlags_present r.prot).2 readable) (mmapFlags_inside r.prot) mapped
  obtain ⟨vmm, rs', free, holds', ledger', nodes⟩ := (ledger.perm allocs).free holds
  rw [Nat.zero_mul, Nat.add_zero] at same
  have apart := (ledger.perm allocs).apart.1
  rw [List.map_cons, List.pairwise_cons] at apart
  refine ⟨⟨mm, vmm⟩, ?_, ⟨⟨rs', holds', ledger'⟩, ⟨B, accounts'⟩, ?_, ?_⟩, ?_, same, nodes⟩
  · have nz : r.addr ≠ 0 := by
      have := pages.low
      simp only [managedLo] at this
      omega
    have len : r.len ≠ 0 := by
      rintro zero
      rw [zero] at size
      simp at size
      omega
    rw [Vineyard.munmap, if_neg (by simp [nz, and_0x3FF pages.aligned, len])]
    simp only [size, loop, free, Fallible.ok_bind]
    rfl
  · exact fun q hq => h.size q (List.mem_of_mem_erase hq)
  · intro q hq
    refine h.mapped_of_apart same (List.mem_of_mem_erase hq) (Or.symm (apart.1 _ ?_))
    exact List.mem_map_of_mem (List.mem_append_left _ (List.mem_map_of_mem hq))
  · intro k hk
    have := cleared k hk
    rwa [Nat.zero_add] at this

end Sys.Inv

/-! ## Runs -/

/-- Runs of `mmap` and `munmap` from a state, with the live regions.  Between the calls the regions are
written to. -/
inductive MmapRun (s₀ : Sys) : List MmapRegion → Sys → Prop where
  | start : MmapRun s₀ [] s₀
  | mmap {live : List MmapRegion} {s s' : Sys} {len prot addr : ℕ} {taken : List ℕ}
      (run : MmapRun s₀ live s) (pos : 0 < len) (whole : len % 0x1000 = 0) (word : len < 2 ^ 64)
      (readable : prot &&& protRead ≠ 0)
      (call : mmap 0 len prot (mapAnonymous ||| mapPrivate) (-1) 0 s = .ok (addr, taken, s'))
      (found : addr ≠ 0) : MmapRun s₀ (⟨addr, len, prot, taken⟩ :: live) s'
  | munmap {live : List MmapRegion} {s s' : Sys} {r : MmapRegion} {ret : ℤ} {freed : List ℕ}
      (run : MmapRun s₀ live s) (mem : r ∈ live)
        (call : munmap r.addr r.len s = .ok (ret, freed, s')) :
      MmapRun s₀ (live.erase r) s'
  | write {live : List MmapRegion} {s : Sys} {mm : Mm} {r : MmapRegion} {addr value : ℕ}
      (run : MmapRun s₀ live s) (mem : r ∈ live) (low : r.addr ≤ addr) (high : addr < r.addr + r.len)
      (call : s.mm.store addr value = .ok mm) : MmapRun s₀ live ⟨mm, s.vmm⟩

/-- A page that holds neither a table nor a stack can be written to. -/
theorem Mm.Accounts.setEntry {m : Mm} {A : Layout} {contents : List ℕ} {p : ℕ}
    (h : m.Accounts t A contents) (mem : p ∈ contents) (i value : ℕ) :
    (m.setEntry p i value).Accounts t A contents ∧
    ∀ b, OutsideWindow b → (m.setEntry p i value).pte b = m.pte b := by
  obtain ⟨same, other, ptes⟩ := h.ok.setEntry_other (h.notTable p mem) i value
  have entry : (m.setEntry p i value).mem t 511 = m.mem t 511 := by
    rw [other t fun e => h.notTable p mem (e ▸ Mm.isTable_of_walk stackPath_legal h.walk_stackPath)]
  have window : (m.setEntry p i value).window = .ok t := by
    rw [same.ok.self.window_eq_ok, same.walk _ stackPath_legal, entry]
    exact ⟨h.walk_stackPath, h.present⟩
  have agree : Pmm.AgreeOn {x | x ≠ p} (m.pmm t) ((m.setEntry p i value).pmm t) :=
    ⟨entry, fun f hf => congrArg PhysicalStack.ofPage (other f hf)⟩
  refine ⟨⟨same.ok, ⟨window, h.serves.holds.agree agree rfl ?_, ?_⟩, h.nodup, h.phys, h.used,
    fun q hq table => h.notTable q hq (same.isTable.1 table)⟩, ptes⟩
  · exact fun f hf e => h.used p mem (e ▸ List.mem_append_left _ hf)
  · exact fun x hx table => h.serves.apart x hx (same.isTable.1 table)

/-- Words inside a live region are those of its pages. -/
theorem Sys.Inv.translate (h : s.Inv K t others live) {r : MmapRegion} (mem : r ∈ live)
    (readable : r.prot &&& protRead ≠ 0) {k p : ℕ} (hp : r.taken[k]? = some p) {a : ℕ}
    (page : a / 0x1000 = (r.addr + k * 0x1000) / 0x1000) : s.mm.translate a = .ok p := by
  obtain ⟨A, accounts⟩ := h.accounts
  have taken : p ∈ r.taken := List.mem_of_getElem? hp
  have phys := accounts.phys p (List.mem_flatMap.2 ⟨r, mem, taken⟩)
  have entry : s.mm.pte a = p ||| mmapFlags r.prot := by
    rw [← h.mapped r mem k p hp]
    exact s.mm.pte_congr page
  exact Mm.translate_of_pte phys ((mmapFlags_present r.prot).2 readable) (mmapFlags_inside _) entry

/-- A word of a live region is written. -/
theorem Sys.Inv.write (h : s.Inv K t others live) {r : MmapRegion} (mem : r ∈ live)
    (readable : r.prot &&& protRead ≠ 0) {k p : ℕ} (hp : r.taken[k]? = some p) {a value : ℕ}
    (page : a / 0x1000 = (r.addr + k * 0x1000) / 0x1000) {mm : Mm}
    (call : s.mm.store a value = .ok mm) : Sys.Inv K t others ⟨mm, s.vmm⟩ live := by
  have at_ := h.translate mem readable hp page
  rw [Mm.store, at_, Fallible.ok_bind] at call
  obtain rfl := Except.ok.inj call
  obtain ⟨A, accounts⟩ := h.accounts
  have content : p ∈ live.flatMap MmapRegion.taken :=
    List.mem_flatMap.2 ⟨r, mem, List.mem_of_getElem? hp⟩
  obtain ⟨accounts', same⟩ := accounts.setEntry content (a / 8 % 512) value
  refine ⟨h.regions, ⟨A, accounts'⟩, h.size, fun q hq j x hx => ?_⟩
  have bound : j < q.taken.length := (List.getElem?_eq_some_iff.1 hx).1
  have managed := (h.managedPages hq).managed bound
  rw [Nat.zero_add] at managed
  rw [← h.mapped q hq j x hx]
  exact same _ managed.outside

section Run

variable {kernelSize : ℕ} {A : Layout} {s₀ : Sys} (pos : 0 < pageUp kernelSize)
  (small : pageUp kernelSize < 0x80000000) (regions : LedgerRun kernelSize others s₀.vmm)
  (ok : s₀.mm.Ok) (serves : s₀.mm.Serves t A)

include pos small regions ok serves

theorem MmapRun.inv (run : MmapRun s₀ live s) :
    s.Inv (pageUp kernelSize) t others live ∧
    ∀ r ∈ live, r.len % 0x1000 = 0 ∧ r.prot &&& protRead ≠ 0 := by
  induction run with
  | start =>
    refine ⟨⟨?_, ⟨A, ok, serves, by simp, by simp, by simp, by simp⟩, by simp, by simp⟩, by simp⟩
    simpa using regions.ledger pos small
  | mmap run _ whole word readable call found ih =>
    exact ⟨(ih.1.mmap word call found).1, List.forall_mem_cons.2 ⟨⟨whole, readable⟩, ih.2⟩⟩
  | munmap run mem call ih =>
    obtain ⟨s', eq, inv, _⟩ := ih.1.munmap mem (ih.2 _ mem).2
    rw [call] at eq
    split_ifs at eq
    injection eq with eq
    obtain ⟨_, rest⟩ := Prod.mk.inj eq
    obtain ⟨_, rfl⟩ := Prod.mk.inj rest
    exact ⟨inv, fun q hq => ih.2 q (List.mem_of_mem_erase hq)⟩
  | @write live s mm r addr value run mem low high call ih =>
    obtain ⟨size, _⟩ := ih.1.size r mem
    obtain ⟨whole, readable⟩ := ih.2 r mem
    have aligned := (ih.1.managedPages mem).aligned
    rw [Nat.shiftRight_eq_div_pow] at size
    have bound : (addr - r.addr) / 0x1000 < r.taken.length := by omega
    refine ⟨ih.1.write mem readable (List.getElem?_eq_getElem bound) ?_ call, ih.2⟩
    omega

end Run

/-- Live regions are apart, each of their pages is mapped to a page of its own that neither the
allocator nor the page tables use, and `munmap` gives back exactly these pages and unmaps them. -/
theorem MmapRun.isolated {kernelSize : ℕ} (pos : 0 < pageUp kernelSize)
    (small : pageUp kernelSize < 0x80000000) {s₀ : Sys}
    (regions : LedgerRun kernelSize others s₀.vmm) (ok : s₀.mm.Ok) {A : Layout}
    (serves : s₀.mm.Serves t A) (run : MmapRun s₀ live s) :
    live.Pairwise (fun q r => Apart (q.addr, q.len) (r.addr, r.len)) ∧
    (∀ r ∈ live, r.len = r.taken.length * 0x1000 ∧ ∀ k p, r.taken[k]? = some p → PhysPage p ∧
      s.mm.translate (r.addr + k * 0x1000) = .ok p ∧
      mmVirtualGetPhys (r.addr + k * 0x1000) s.mm = .ok p) ∧
    (live.flatMap MmapRegion.taken).Nodup ∧
    (s.mm.window = .ok t ∧ ∀ p ∈ live.flatMap MmapRegion.taken,
      p ∉ (s.mm.pmm t).recorded ∧ p ∉ (s.mm.pmm t).stackFrames ∧ ¬ s.mm.IsTable p) ∧
    ∀ r ∈ live, ∃ s', Vineyard.munmap r.addr r.len s = .ok (0, r.taken, s') ∧ ∀ k < r.taken.length,
      s'.mm.translate (r.addr + k * 0x1000) = .error (.pageFault (r.addr + k * 0x1000)) ∧
      mmVirtualGetPhys (r.addr + k * 0x1000) s'.mm = .ok 0 := by
  obtain ⟨inv, whole⟩ := run.inv pos small regions ok serves
  obtain ⟨rs, holds, ledger⟩ := inv.regions
  obtain ⟨B, accounts⟩ := inv.accounts
  have length : ∀ r ∈ live, r.len = r.taken.length * 0x1000 := by
    intro r mem
    have size := (inv.size r mem).1
    have := (whole r mem).1
    rw [Nat.shiftRight_eq_div_pow] at size
    omega
  have word : ∀ r ∈ live, ∀ k < r.taken.length, r.addr + k * 0x1000 < 2 ^ 64 := by
    intro r mem k hk
    have managed := (inv.managedPages mem).managed hk
    rw [Nat.zero_add] at managed
    exact managed.word
  refine ⟨?_, fun r mem => ⟨length r mem, fun k p hp => ?_⟩, accounts.nodup,
    ⟨accounts.serves.window, fun p hp => ?_⟩, fun r mem => ?_⟩
  · have apart := (List.pairwise_append.1 (List.pairwise_map.1 ledger.apart.1)).1
    refine (List.pairwise_map.1 apart).imp_of_mem fun {q r} hq hr h => ?_
    rwa [length q hq, length r hr]
  · have phys := accounts.phys p (List.mem_flatMap.2 ⟨r, mem, List.mem_of_getElem? hp⟩)
    have readable := (whole r mem).2
    refine ⟨phys, inv.translate mem readable hp rfl, ?_⟩
    exact (accounts.ok.self.lookups_of_pte (word r mem k (List.getElem?_eq_some_iff.1 hp).1) phys
      ((mmapFlags_present r.prot).2 readable) (mmapFlags_inside r.prot) (inv.mapped r mem k p hp)).1
  · have used := accounts.used p hp
    rw [accounts.serves.holds.recorded, accounts.serves.holds.stackFrames]
    exact ⟨fun h => used (List.mem_append_right _ h), fun h => used (List.mem_append_left _ h),
      accounts.notTable p hp⟩
  · obtain ⟨s', eq, inv', cleared, _⟩ := inv.munmap mem (whole r mem).2
    rw [if_neg (not_not.2 (length r mem).symm)] at eq
    obtain ⟨C, accounts'⟩ := inv'.accounts
    refine ⟨s', eq, fun k hk => ?_⟩
    rw [Mm.translate_eq, accounts'.ok.self.getPhys_eq (word r mem k hk), cleared k hk]
    simp

/-- The region list after `mm_virtual_init`. -/
def bootVmm : Except Fault Vmm :=
  mmVirtualInit 0x200000 (.empty (fun _ => ⟨0, 0, 0, 0, 0⟩) vmObjects)

theorem bootVmm_run : ∃ vmm, bootVmm = .ok vmm ∧ LedgerRun 0x200000 [] vmm := by
  have nodesLeft : 8 ≤ (Vmm.empty (fun _ => ⟨0, 0, 0, 0, 0⟩) vmObjects).slab.length := by
    simp [Vmm.empty, vmObjects]
  obtain ⟨vmm, init, _⟩ := mmVirtualInit_holds vmObjects_empty nodesLeft
    (show 0 < pageUp 0x200000 by decide) (by decide)
  exact ⟨vmm, init, .init vmObjects_empty nodesLeft init⟩

theorem MmapRun.isolated_boot : ∃ s₀ s s' r, MmapRun s₀ [r] s ∧ r.taken ≠ [] ∧
    Vineyard.munmap r.addr r.len s = .ok (0, r.taken, s') := by
  obtain ⟨vmm, init, regions⟩ := bootVmm_run
  have returns : ((bootVmm >>= fun vmm => Vineyard.mmap 0 0x2000 protRead
      (mapAnonymous ||| mapPrivate) (-1) 0 ⟨bootMm, vmm⟩).toOption.any
        fun r => r.1 ≠ 0 ∧ r.2.1 ≠ []) = true := by decide +kernel
  rw [init, Fallible.ok_bind] at returns
  cases call : Vineyard.mmap 0 0x2000 protRead (mapAnonymous ||| mapPrivate) (-1) 0 ⟨bootMm, vmm⟩ with
  | error e =>
    rw [call] at returns
    cases returns
  | ok result =>
    obtain ⟨addr, taken, s⟩ := result
    rw [call] at returns
    obtain ⟨found, some⟩ : addr ≠ 0 ∧ taken ≠ [] := by simpa [Except.toOption] using returns
    have run : MmapRun ⟨bootMm, vmm⟩ [⟨addr, 0x2000, protRead, taken⟩] s :=
      .mmap .start (by decide) (by decide) (by decide) (by decide) call found
    have isolated := MmapRun.isolated (by decide) (by decide) regions bootMm_ok bootMm_serves run
    obtain ⟨s', freed, _⟩ := isolated.2.2.2.2 _ List.mem_cons_self
    exact ⟨_, s, s', _, run, some, freed⟩

end Vineyard

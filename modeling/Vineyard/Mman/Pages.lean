import Vineyard.Mman.Calls
import Vineyard.Paging.Lookups
import Vineyard.Physical.Reserve
import Vineyard.Region.Runs

/-!
# Physical pages and the loops over them

Every physical page has one use: it is recorded or used as a stack by the page allocator, it is a page
table, or it holds the contents of a mapped region (`Mm.Accounts`).  The four things the callers do
with pages keep that, and so do their loops.
-/

namespace Vineyard

open Function

variable {m m' : Mm} {t : ℕ} {A : Layout} {contents : List ℕ}

/-- The address lies neither in the window to the page tables nor in one of the two pages where the
page allocator maps its stacks. -/
structure Plain (a : ℕ) : Prop where
  outside : OutsideWindow a
  ne_stackAddr : pageNumber a ≠ pageNumber stackAddr
  ne_stackAddrTemp : pageNumber a ≠ pageNumber stackAddrTemp

/-- The level-1 table of the stack may hold other addresses, but not in its last two entries. -/
theorem Plain.slot {a : ℕ} (plain : Plain a) (path : tablePath a = stackPath) :
    pageSlot a ≠ 510 ∧ pageSlot a ≠ 511 := by
  have stack : tablePath stackAddr = stackPath ∧ pageSlot stackAddr = 511 := by decide
  have temp : tablePath stackAddrTemp = stackPath ∧ pageSlot stackAddrTemp = 510 := by decide
  constructor
  · intro slot
    exact plain.ne_stackAddrTemp
      (pageNumber_eq_iff.2 ⟨path.trans temp.1.symm, slot.trans temp.2.symm⟩)
  · intro slot
    exact plain.ne_stackAddr (pageNumber_eq_iff.2 ⟨path.trans stack.1.symm, slot.trans stack.2.symm⟩)

/-- The addresses that the region allocator gives out. -/
def Managed (a : ℕ) : Prop := managedLo ≤ a ∧ a < slabVmBase

section Managed

variable {a b : ℕ} (ha : Managed a)

include ha

theorem Managed.word : a < 2 ^ 64 := by
  have := ha.2
  simp only [slabVmBase] at this
  omega

theorem Managed.outside : OutsideWindow a := by
  obtain ⟨low, high⟩ := ha
  simp only [OutsideWindow, managedLo, slabVmBase] at low high ⊢
  omega

theorem Managed.ne_stackAddr : pageNumber a ≠ pageNumber stackAddr := by
  obtain ⟨low, high⟩ := ha
  simp only [pageNumber, managedLo, slabVmBase, stackAddr] at low high ⊢
  omega

theorem Managed.plain : Plain a := by
  refine ⟨ha.outside, ha.ne_stackAddr, ?_⟩
  obtain ⟨low, high⟩ := ha
  simp only [pageNumber, managedLo, slabVmBase, stackAddrTemp] at low high ⊢
  omega

theorem Managed.offRange (hb : Managed b) {n : ℕ} (aligned : a % 0x1000 = 0)
    (fits : a + n * 0x1000 ≤ slabVmBase) (off : ¬ (a ≤ b ∧ b < a + n * 0x1000)) : OffRange a n b := by
  intro k hk same
  obtain ⟨lowA, highA⟩ := ha
  obtain ⟨lowB, highB⟩ := hb
  simp only [pageNumber, managedLo, slabVmBase] at same lowA highA lowB highB fits
  omega

end Managed

/-- The entries of all managed addresses outside a range are as before. -/
def SameOutside (m m' : Mm) (virt n : ℕ) : Prop :=
  ∀ b, Managed b → ¬ (virt ≤ b ∧ b < virt + n * 0x1000) → m'.pte b = m.pte b

theorem SameOutside.trans {m'' : Mm} {virt n virt' n' virt'' n'' : ℕ} (h : SameOutside m m' virt n)
    (h' : SameOutside m' m'' virt' n')
    (inside : ∀ b, (virt ≤ b ∧ b < virt + n * 0x1000) ∨ (virt' ≤ b ∧ b < virt' + n' * 0x1000) →
      virt'' ≤ b ∧ b < virt'' + n'' * 0x1000) : SameOutside m m'' virt'' n'' :=
  fun b managed off => (h' b managed fun here => off (inside b (.inr here))).trans
    (h b managed fun here => off (inside b (.inl here)))

/-! ## One page -/

/-- The allocator's pages, the page tables and the pages with contents are apart. -/
structure Mm.Accounts (m : Mm) (t : ℕ) (A : Layout) (contents : List ℕ) : Prop where
  ok : m.Ok
  serves : m.Serves t A
  nodup : contents.Nodup
  phys : ∀ p ∈ contents, PhysPage p
  used : ∀ p ∈ contents, p ∉ A.frames ++ A.pages
  notTable : ∀ p ∈ contents, ¬ m.IsTable p

namespace Mm.Accounts

theorem perm {contents' : List ℕ} (h : m.Accounts t A contents) (perm : contents.Perm contents') :
    m.Accounts t A contents' :=
  ⟨h.ok, h.serves, perm.nodup_iff.1 h.nodup, fun p hp => h.phys p (perm.mem_iff.2 hp),
    fun p hp => h.used p (perm.mem_iff.2 hp), fun p hp => h.notTable p (perm.mem_iff.2 hp)⟩

theorem walk_stackPath (h : m.Accounts t A contents) : m.walk stackPath = some t :=
  (h.ok.self.window_eq_ok.1 h.serves.window).1

theorem present (h : m.Accounts t A contents) : m.mem t 511 &&& pagePresent ≠ 0 :=
  (h.ok.self.window_eq_ok.1 h.serves.window).2

/-- What the allocator has done is visible in memory. -/
theorem setPmm {s : Pmm} {B : Layout} (h : m.Accounts t A contents) (holds : s.Holds B)
    (root : s.root = m.root) (present : s.pml1 511 &&& pagePresent ≠ 0)
    (same : SameTables m (m.setPmm t s)) (apart : ∀ x ∈ B.frames ++ B.pages, ¬ m.IsTable x) :
    (m.setPmm t s).Serves t B := by
  have window : (m.setPmm t s).walk stackPath = some t :=
    (same.walk _ stackPath_legal).trans h.walk_stackPath
  have agree : Pmm.AgreeOn {x | x ≠ t} s ((m.setPmm t s).pmm t) := by
    refine ⟨congrFun (Mm.setPmm_mem_self m t s) 511, fun f hf => ?_⟩
    show PhysicalStack.ofPage _ = _
    rw [Mm.setPmm_mem_of_ne hf, PhysicalStack.ofPage_toPage]
  refine ⟨same.ok.self.window_eq_ok.2 ⟨window, by rwa [Mm.setPmm_mem_self]⟩,
    holds.agree agree root.symm fun f hf e => ?_, fun x hx table => apart x hx (same.isTable.1 table)⟩
  exact apart f (List.mem_append_left _ hf)
    (e ▸ Mm.isTable_of_walk stackPath_legal h.walk_stackPath)

/-- `mm_physical_get` gives out the page that the layout has next. -/
theorem take {p : ℕ} {B : Layout} (h : m.Accounts t A contents) (getA : A.get = some (p, B)) :
    ∃ m', m.physicalGet = .ok (p, m') ∧ m'.Accounts t B (p :: contents) ∧ SameTables m m' ∧
      SameEntries m m' := by
  obtain ⟨s, get, holds, _⟩ := mmPhysicalGet_refines h.serves.holds getA
  obtain ⟨same, entries, _, phys, notTable⟩ := h.ok.physicalGet h.serves.fresh h.serves.window get
  have got := mmPhysicalGetRec_got get
  have ok := h.serves.holds.ok
  have pages := ok.get_pages getA
  have frames := ok.get_frames getA
  have sub : ∀ x ∈ B.frames ++ B.pages, x ∈ A.frames ++ A.pages := by
    intro x hx
    rcases List.mem_append.1 hx with hx | hx
    · exact List.mem_append_left _ (frames.subset hx)
    · exact List.mem_append_right _ (pages.mem_iff.2 (List.mem_cons_of_mem _ hx))
  have mem : p ∈ A.frames ++ A.pages := List.mem_append_right _ (pages.mem_iff.2 (by simp))
  have taken : p ∉ B.frames ++ B.pages := by
    obtain ⟨_, pagesNodup, apart⟩ := List.nodup_append.1 ok.nodup
    intro hq
    rcases List.mem_append.1 hq with hq | hq
    · exact apart p (frames.subset hq) p (pages.mem_iff.2 (by simp)) rfl
    · exact (List.nodup_cons.1 (pages.nodup_iff.1 pagesNodup)).1 hq
  refine ⟨m.setPmm t s, ?_, ⟨same.ok, ?_, ?_, ?_, ?_, ?_⟩, same, entries⟩
  · rw [Mm.physicalGet_eq h.serves.window, get]
    rfl
  · exact h.setPmm holds got.root (got.present h.present) same fun x hx =>
      h.serves.apart x (sub x hx)
  · exact List.nodup_cons.2 ⟨fun hq => h.used p hq mem, h.nodup⟩
  · exact List.forall_mem_cons.2 ⟨phys, h.phys⟩
  · exact List.forall_mem_cons.2 ⟨taken, fun q hq hx => h.used q hq (sub q hx)⟩
  · exact List.forall_mem_cons.2 ⟨fun table => notTable (same.isTable.1 table), fun q hq table =>
      h.notTable q hq (same.isTable.1 table)⟩

/-- A call that returns has given out a page for contents. -/
theorem get {p : ℕ} (h : m.Accounts t A contents) (call : m.physicalGet = .ok (p, m')) :
    ∃ B, m'.Accounts t B (p :: contents) ∧ SameOutside m m' 0 0 := by
  cases get : mmPhysicalGet (m.pmm t) with
  | error e =>
    rw [Mm.physicalGet_eq h.serves.window, get] at call
    cases call
  | ok r =>
    obtain ⟨B, getA, _⟩ := h.serves.holds.of_get get
    obtain ⟨m'', run, accounts, _, entries⟩ := h.take getA
    obtain ⟨rfl, rfl⟩ := Prod.mk.inj (Except.ok.inj (call.symm.trans run))
    exact ⟨B, accounts, fun b managed _ => entries b managed.outside managed.ne_stackAddr⟩

theorem mapArgs {phys virt : ℕ} (managed : Managed virt) (aligned : virt % 0x1000 = 0)
    (word : phys < 2 ^ 64) : MapArgs phys virt 1 := by
  have := managed.2
  simp only [slabVmBase] at this
  refine ⟨aligned, managed.word, by omega, by omega, fun k hk => ?_, fun k hk => ?_⟩
  · obtain rfl : k = 0 := by omega
    omega
  · obtain rfl : k = 0 := by omega
    exact managed.outside

/-- `mm_virtual_map` of a range, unless the allocator fails. -/
theorem mapRange {phys virt pages : ℕ} (h : m.Accounts t A contents) (args : MapArgs phys virt pages)
    (off : OffRange virt pages stackAddr) (f : ℕ) :
    (∃ m' ps B, mmVirtualMap phys virt pages f m = .ok m' ∧ Maps m m' ps phys virt pages f ∧
      (∀ x, m'.IsTable x ↔ m.IsTable x ∨ x ∈ ps) ∧ A.getMany ps.length = some (ps, B) ∧
      ps.length ≤ 3 * max 1 pages ∧ m'.Accounts t B contents) ∨
    mmVirtualMap phys virt pages f m = .error outOfMemory ∧
      ∃ k ≤ 3 * max 1 pages, A.getMany k = none := by
  obtain ⟨m', ps, run, maps, few⟩ | ⟨e, run, k, bound, fails⟩ := mmVirtualMapRec_takes f h.ok
    h.serves.fresh args (Nat.lt_succ_self pages)
  · have grown := maps.grown off
    obtain ⟨B, get, serves⟩ := grown.serves h.serves
    obtain ⟨_, pagesPerm, frames⟩ := h.serves.holds.ok.getMany get
    refine .inl ⟨m', ps, B, run, maps, grown.isTable, get, few, maps.ok, serves, h.nodup, h.phys,
      fun p hp hx => h.used p hp ?_, fun p hp table => ?_⟩
    · rcases List.mem_append.1 hx with hx | hx
      · exact List.mem_append_left _ (frames.subset hx)
      · exact List.mem_append_right _ (pagesPerm.mem_iff.2 (List.mem_append_right _ hx))
    · rcases (grown.isTable p).1 table with old | new
      · exact h.notTable p hp old
      · exact h.used p hp (List.mem_append_right _ (pagesPerm.mem_iff.2 (List.mem_append_left _ new)))
  · right
    rw [Mm.physicalGets_eq h.serves.window] at fails
    obtain ⟨none, rfl⟩ := h.serves.holds.getMany_error fails
    exact ⟨run, k, bound, none⟩

/-- `mm_virtual_map` of one page that returns. -/
theorem map {phys virt f : ℕ} (h : m.Accounts t A contents) (managed : Managed virt)
    (aligned : virt % 0x1000 = 0) (word : phys < 2 ^ 64)
    (call : mmVirtualMap phys virt 1 f m = .ok m') :
    ∃ B, m'.Accounts t B contents ∧ m'.pte virt = phys ||| f ∧ SameOutside m m' virt 1 := by
  have off : OffRange virt 1 stackAddr := by
    intro k hk
    obtain rfl : k = 0 := by omega
    rw [Nat.zero_mul, Nat.add_zero]
    exact Ne.symm managed.ne_stackAddr
  obtain ⟨m'', ps, B, run, maps, _, _, _, accounts⟩ | ⟨run, _⟩ :=
    h.mapRange (mapArgs managed aligned word) off f
  · obtain rfl := Except.ok.inj (call.symm.trans run)
    have top : virt + 1 * 0x1000 ≤ slabVmBase := by
      have := managed.2
      simp only [slabVmBase] at this ⊢
      omega
    exact ⟨B, accounts, by simpa using maps.mapped 0 (by decide), fun b managedB off =>
      maps.other b managedB.outside managedB.ne_stackAddr (managed.offRange managedB aligned top off)⟩
  · rw [run] at call
    cases call

/-- A new entry for a page whose table is there. -/
theorem remap {phys virt : ℕ} (h : m.Accounts t A contents) (plain : Plain virt)
    (word : virt < 2 ^ 64) (there : m.pte virt &&& pagePresent ≠ 0)
    (physWord : phys < 2 ^ 64) (f : ℕ) :
    ∃ m', mmVirtualMap phys virt 1 f m = .ok m' ∧ m'.Accounts t A contents ∧ SameTables m m' ∧
      m'.pte virt = phys ||| f ∧
      ∀ b, OutsideWindow b → pageNumber b ≠ pageNumber virt → m'.pte b = m.pte b := by
  obtain ⟨x, found⟩ := Mm.walk_of_pte there
  have other : ∀ y, y ≠ x → (m.setEntry x (pageSlot virt) (phys ||| f)).mem y = m.mem y := by
    intro y ne
    simp [Mm.setEntry, ne]
  obtain ⟨same, written, unwritten⟩ := h.ok.setEntry plain.outside found (phys ||| f)
  have tables : m.IsTable x := ⟨_, plain.outside.legal, found⟩
  have entry : (m.setEntry x (pageSlot virt) (phys ||| f)).mem t 511 = m.mem t 511 := by
    by_cases here : t = x
    · have path : tablePath virt = stackPath :=
        h.ok.tree.inj _ _ x plain.outside.legal stackPath_legal
        found (here ▸ h.walk_stackPath)
      have slot := (plain.slot path).2
      simp [Mm.setEntry, here, slot.symm]
    · rw [other t here]
  have window : (m.setEntry x (pageSlot virt) (phys ||| f)).window = .ok t := by
    rw [same.ok.self.window_eq_ok, same.walk _ stackPath_legal, entry]
    exact ⟨h.walk_stackPath, h.present⟩
  have agree : Pmm.AgreeOn {y | y ≠ x} (m.pmm t)
    ((m.setEntry x (pageSlot virt) (phys ||| f)).pmm t) :=
    ⟨entry, fun y ne => congrArg PhysicalStack.ofPage (other y ne)⟩
  have holds := h.serves.holds.agree agree rfl fun y frame e =>
    h.serves.apart y (List.mem_append_left _ frame) (e ▸ tables)
  refine ⟨_, h.ok.self.map_found word found physWord f,
    ⟨same.ok, ⟨window, holds, fun y hy table => h.serves.apart y hy (same.isTable.1 table)⟩, h.nodup,
      h.phys, h.used, fun p hp table => h.notTable p hp (same.isTable.1 table)⟩, same,
      written, unwritten⟩

/-- `mm_physical_mark_free` takes a page with contents back, as the layout does. -/
theorem mark {p : ℕ} {B : Layout} (h : m.Accounts t A (p :: contents))
    (mark : A.markFree p = some B) :
    ∃ m', m.physicalMarkFree p = .ok m' ∧ m'.Accounts t B contents ∧ SameTables m m' ∧
      ∀ b, Plain b → m'.pte b = m.pte b := by
  have holds := h.serves.holds
  have phys := h.phys p (by simp)
  have new := h.used p (by simp)
  obtain ⟨s, run, holds', sameBut⟩ := mmPhysicalMarkFree_refines holds phys new mark
  obtain ⟨present, written⟩ := holds.markFree_writes h.present run
  have perm := holds.ok.markFree_perm mark
  have unwritten : ∀ x, m.IsTable x → s.frame x = (m.pmm t).frame x := fun x table =>
    written x fun hx => h.serves.apart x hx table
  obtain ⟨same, _, ptes⟩ := h.ok.setPmm h.walk_stackPath unwritten
  have apart : ∀ x ∈ B.frames ++ B.pages, ¬ m.IsTable x := by
    intro x hx
    rcases List.mem_cons.1 (perm.mem_iff.1 hx) with rfl | hx
    · exact h.notTable x (by simp)
    · exact h.serves.apart x hx
  obtain ⟨fresh, nodup⟩ := List.nodup_cons.1 h.nodup
  refine ⟨m.setPmm t s, ?_, ⟨same.ok, h.setPmm holds' sameBut.root present same apart, nodup,
    fun q hq => h.phys q (List.mem_cons_of_mem _ hq), fun q hq hx => ?_, fun q hq table =>
      h.notTable q (List.mem_cons_of_mem _ hq) (same.isTable.1 table)⟩, same, fun b plain => ?_⟩
  · rw [Mm.physicalMarkFree, h.serves.window, Fallible.ok_bind, run]
    rfl
  · rcases List.mem_cons.1 (perm.mem_iff.1 hx) with rfl | hx
    · exact fresh hq
    · exact h.used q (List.mem_cons_of_mem _ hq) hx
  · refine ptes b plain.outside fun path => ?_
    obtain ⟨ne, ne'⟩ := plain.slot path
    exact sameBut.pml1 _ ne ne'

/-- The call returns. -/
theorem markFree {p : ℕ} (h : m.Accounts t A (p :: contents)) :
    ∃ m' B, m.physicalMarkFree p = .ok m' ∧ m'.Accounts t B contents ∧ SameTables m m' ∧
      (B.frames ++ B.pages).Perm (p :: (A.frames ++ A.pages)) ∧ ∀ b, Plain b →
        m'.pte b = m.pte b := by
  have holds := h.serves.holds
  obtain ⟨B, mark⟩ := holds.ok.markFree_isSome holds.ne_nil p
  obtain ⟨m', run, accounts, same, ptes⟩ := h.mark mark
  exact ⟨m', B, run, accounts, same, holds.ok.markFree_perm mark, ptes⟩

end Mm.Accounts

/-! ## The loops -/

/-- `virt + (i << 12)` -/
theorem pageAddr_eq {virt i : ℕ} (fits : virt + i * 0x1000 < 2 ^ 64) :
    Word64.add virt (i <<< 12 % 2 ^ 64) = virt + i * 0x1000 := by
  rw [Nat.shiftLeft_eq, Nat.mod_eq_of_lt (by omega), Word64.add_eq (by omega)]

/-- The pages from page `i` on, `n` of them, are managed. -/
structure ManagedPages (virt i n : ℕ) : Prop where
  aligned : virt % 0x1000 = 0
  low : managedLo ≤ virt
  high : virt + (i + n) * 0x1000 ≤ slabVmBase

section Loops

variable {virt i n : ℕ} (pages : ManagedPages virt i n)

include pages

theorem ManagedPages.managed {k : ℕ} (hk : k < n) : Managed (virt + (i + k) * 0x1000) := by
  obtain ⟨_, low, high⟩ := pages
  rw [Managed]
  omega

theorem ManagedPages.tail {n' : ℕ} (size : n = n' + 1) : ManagedPages virt (i + 1) n' := by
  obtain ⟨aligned, low, high⟩ := pages
  refine ⟨aligned, low, ?_⟩
  rwa [Nat.add_right_comm, Nat.add_assoc, ← size]

/-- The first page of a range, and the rest. -/
theorem ManagedPages.first {n' : ℕ} (size : n = n' + 1) :
    Managed (virt + i * 0x1000) ∧ (virt + i * 0x1000) % 0x1000 = 0 ∧
      Word64.add virt (i <<< 12 % 2 ^ 64) = virt + i * 0x1000 := by
  have managed : Managed (virt + i * 0x1000) := pages.managed (k := 0) (by omega)
  have aligned := pages.aligned
  exact ⟨managed, by omega, pageAddr_eq managed.word⟩

end Loops

/-- The loop of `mmap` maps one fresh page after the other. -/
theorem mmapLoop_spec {virt f n i : ℕ} {ps : List ℕ} (h : m.Accounts t A contents)
    (pages : ManagedPages virt i n) (call : mmapLoop virt f n i m = .ok (ps, m')) :
    ps.length = n ∧ (∃ B, m'.Accounts t B (ps ++ contents)) ∧
    (∀ k p, ps[k]? = some p → m'.pte (virt + (i + k) * 0x1000) = p ||| f) ∧
    SameOutside m m' (virt + i * 0x1000) n := by
  induction n generalizing i m A contents ps with
  | zero =>
    injection call with call
    obtain ⟨rfl, rfl⟩ := Prod.mk.inj call
    exact ⟨rfl, ⟨A, h⟩, by simp, fun _ _ _ => rfl⟩
  | succ n ih =>
    obtain ⟨managed, aligned, addr⟩ := pages.first rfl
    rw [mmapLoop] at call
    obtain ⟨⟨p, m₁⟩, get, call⟩ := Fallible.bind_eq_ok.1 call
    obtain ⟨m₂, map, call⟩ := Fallible.bind_eq_ok.1 call
    obtain ⟨⟨qs, m₃⟩, loop, call⟩ := Fallible.bind_eq_ok.1 call
    injection call with call
    obtain ⟨rfl, rfl⟩ := Prod.mk.inj call
    obtain ⟨A₁, h₁, same₁⟩ := h.get get
    have word : p < 2 ^ 64 := (h₁.phys p (by simp)).bounded.trans (by decide)
    rw [addr] at map
    obtain ⟨A₂, h₂, entry, same₂⟩ := h₁.map managed aligned word map
    obtain ⟨length, ⟨B, h₃⟩, mapped, same₃⟩ := ih h₂ (pages.tail rfl) loop
    refine ⟨by rw [List.length_cons, length], ⟨B, h₃.perm List.perm_middle⟩, fun k q hq => ?_, ?_⟩
    · cases k with
      | zero =>
        obtain rfl : p = q := by simpa using hq
        rw [Nat.add_zero, same₃ _ managed (by omega), entry]
      | succ k =>
        have := mapped k q (by simpa using hq)
        rwa [show i + 1 + k = i + (k + 1) by omega] at this
    · have both : SameOutside m m₂ (virt + i * 0x1000) 1 := same₁.trans same₂ (by omega)
      exact both.trans same₃ (by omega)

/-- The pages from page `i` on, `n` of them, are plain. -/
structure PlainPages (virt i n : ℕ) : Prop where
  few : n ≤ 2 ^ 36
  fits : virt + (i + n) * 0x1000 ≤ 2 ^ 64
  plain : ∀ k < n, Plain (virt + (i + k) * 0x1000)

theorem ManagedPages.plainPages {virt i n : ℕ} (pages : ManagedPages virt i n) :
    PlainPages virt i n := by
  refine ⟨?_, pages.high.trans (by decide), fun _ hk => (pages.managed hk).plain⟩
  have low := pages.low
  have high := pages.high
  simp only [managedLo, slabVmBase] at low high
  omega

/-- The first page of a range, and the rest. -/
theorem PlainPages.first {virt i n : ℕ} (pages : PlainPages virt i (n + 1)) :
    Plain (virt + i * 0x1000) ∧ virt + i * 0x1000 < 2 ^ 64 ∧
      Word64.add virt (i <<< 12 % 2 ^ 64) = virt + i * 0x1000 ∧ PlainPages virt (i + 1) n ∧
      ∀ k < n, pageNumber (virt + i * 0x1000) ≠ pageNumber (virt + (i + 1 + k) * 0x1000) := by
  obtain ⟨few, fits, plain⟩ := pages
  have word : virt + i * 0x1000 < 2 ^ 64 := by omega
  have shift : ∀ k, i + 1 + k = i + (k + 1) := fun k => by omega
  refine ⟨plain 0 (Nat.succ_pos n), word, pageAddr_eq word,
    ⟨Nat.le_of_succ_le few, (shift n) ▸ fits, fun k hk => ?_⟩, fun k hk => ?_⟩
  · rw [shift]
    exact plain (k + 1) (Nat.succ_lt_succ hk)
  · simp only [pageNumber]
    omega

/-- The loop of `munmap` gives back the pages that the addresses are mapped to. -/
theorem munmapLoop_frees {virt i : ℕ} {ps : List ℕ} (h : m.Accounts t A (ps ++ contents))
    (pages : PlainPages virt i ps.length)
    (mapped : ∀ k p, ps[k]? = some p → m.translate (virt + (i + k) * 0x1000) = .ok p) :
    ∃ m' B, munmapLoop virt ps.length i m = .ok (ps, m') ∧ m'.Accounts t B contents ∧
      SameTables m m' ∧
      (B.frames ++ B.pages).Perm (ps ++ (A.frames ++ A.pages)) ∧
      (∀ k < ps.length, m'.pte (virt + (i + k) * 0x1000) = 0) ∧
      ∀ b, Plain b → (∀ k < ps.length, pageNumber b ≠ pageNumber (virt + (i + k) * 0x1000)) →
        m'.pte b = m.pte b := by
  induction ps generalizing i m A with
  | nil => exact ⟨m, A, rfl, h, .refl h.ok, .refl _, by simp, fun _ _ _ => rfl⟩
  | cons p ps ih =>
    obtain ⟨plain, word, addr, pagesRest, apart⟩ := pages.first
    have at_ := mapped 0 p rfl
    rw [Nat.add_zero] at at_
    have lookup := h.ok.self.getPhys_of_translate word at_
    obtain ⟨m₁, map, h₁, same₁, cleared, other₁⟩ :=
      h.remap plain word (Mm.translate_eq_ok.1 at_).1 (show 0 < 2 ^ 64 by decide) 0
    obtain ⟨m₂, A₂, mark, h₂, same₂, perm₂, other₂⟩ := Mm.Accounts.markFree (List.cons_append ▸ h₁)
    have rest : ∀ k q, ps[k]? = some q → m₂.translate (virt + (i + 1 + k) * 0x1000) = .ok q := by
      intro k q hq
      have bound : k < ps.length := (List.getElem?_eq_some_iff.1 hq).1
      have later := pagesRest.plain k bound
      rw [Mm.translate_congr ((other₂ _ later).trans (other₁ _ later.outside (apart k bound).symm)),
        show i + 1 + k = i + (k + 1) by omega]
      exact mapped (k + 1) q (by simpa using hq)
    obtain ⟨m₃, B, loop, h₃, same₃, perm₃, clearedRest, other₃⟩ := ih h₂ pagesRest rest
    refine ⟨m₃, B, ?_, h₃, same₁.trans (same₂.trans same₃), ?_, fun k hk =>
      ?_, fun b plainB off => ?_⟩
    · simp only [List.length_cons, munmapLoop, addr, lookup, map, mark, loop, Fallible.ok_bind]
      rfl
    · exact perm₃.trans ((perm₂.append_left ps).trans List.perm_middle)
    · cases k with
      | zero =>
        rw [Nat.add_zero, other₃ _ plain apart, other₂ _ plain, cleared]
        rfl
      | succ k =>
        have zero := clearedRest k (by simpa using hk)
        rwa [show i + 1 + k = i + (k + 1) by omega] at zero
    · have offRest : ∀ k < ps.length, pageNumber b ≠ pageNumber (virt + (i + 1 + k) * 0x1000) := by
        intro k hk
        rw [show i + 1 + k = i + (k + 1) by omega]
        exact off (k + 1) (by simpa using hk)
      rw [other₃ b plainB offRest, other₂ b plainB]
      exact other₁ b plainB.outside (off 0 (by simp))

/-- The loop of `munmap` over managed pages with common flags. -/
theorem munmapLoop_spec {virt f i : ℕ} {ps : List ℕ} (h : m.Accounts t A (ps ++ contents))
    (pages : ManagedPages virt i ps.length) (present : f &&& pagePresent ≠ 0)
    (inside : f &&& flagsMask = f)
    (mapped : ∀ k p, ps[k]? = some p → m.pte (virt + (i + k) * 0x1000) = p ||| f) :
    ∃ m' B, munmapLoop virt ps.length i m = .ok (ps, m') ∧ m'.Accounts t B contents ∧
      (∀ k < ps.length, m'.pte (virt + (i + k) * 0x1000) = 0) ∧
      SameOutside m m' (virt + i * 0x1000) ps.length := by
  obtain ⟨m', B, loop, accounts, _, _, cleared, other⟩ := munmapLoop_frees h pages.plainPages
    fun k p hp => Mm.translate_of_pte (h.phys p (List.mem_append_left _ (List.mem_of_getElem? hp)))
      present inside (mapped k p hp)
  refine ⟨m', B, loop, accounts, cleared, fun b managed off =>
    other b managed.plain fun k hk same => ?_⟩
  have aligned := pages.aligned
  obtain ⟨low, high⟩ := managed
  obtain ⟨lowK, highK⟩ := pages.managed hk
  simp only [pageNumber, managedLo, slabVmBase] at same low high lowK highK
  omega

/-- The loop of `acpi_os_map_memory` changes only the entries of its pages. -/
theorem acpiMapLoop_spec {phys virt n i : ℕ} (h : m.Accounts t A contents)
    (pages : ManagedPages virt i n) (call : acpiMapLoop phys virt n (i * 0x1000) m = .ok m') :
    (∃ B, m'.Accounts t B contents) ∧ SameOutside m m' (virt + i * 0x1000) n := by
  induction n generalizing i m A with
  | zero =>
    obtain rfl := Except.ok.inj call
    exact ⟨⟨A, h⟩, fun _ _ _ => rfl⟩
  | succ n ih =>
    obtain ⟨managed, aligned, _⟩ := pages.first rfl
    rw [acpiMapLoop, Word64.add_eq managed.word] at call
    obtain ⟨m₁, map, loop⟩ := Fallible.bind_eq_ok.1 call
    obtain ⟨A₁, h₁, _, same₁⟩ := h.map managed aligned (Nat.mod_lt _ (by decide)) map
    rw [← Nat.succ_mul] at loop
    obtain ⟨accounts, same₂⟩ := ih h₁ (pages.tail rfl) loop
    exact ⟨accounts, same₁.trans same₂ (by omega)⟩

end Vineyard

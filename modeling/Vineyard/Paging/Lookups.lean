import Vineyard.Paging.Mapping

/-!
# What the lookups return after `mm_virtual_map`

`mm_virtual_get_phys` and `mm_virtual_get_flags` give the parts of a level-1 entry, so the result of
the previous module turns into one about the two functions.  Two things are part of the statement: the
page tables form a tree, and the page at `STACK_ADDR` may change, because new page tables come from
`mm_physical_get`, which maps another stack there when the one in use is empty.
-/

namespace Vineyard

open Function

variable {m m' : Mm} {t : ℕ}

/-- The address lies in one of the two halves that the MMU accepts. -/
def Canonical (a : ℕ) : Prop := a < 2 ^ 47 ∨ (2 ^ 64 - 2 ^ 47 ≤ a ∧ a < 2 ^ 64)

/-- The pages from `virt` on lie in one canonical half. -/
def OneHalf (virt pages : ℕ) : Prop :=
  virt + pages * 0x1000 ≤ 2 ^ 47 ∨ (2 ^ 64 - 2 ^ 47 ≤ virt ∧ virt + pages * 0x1000 ≤ 2 ^ 64)

instance (a : ℕ) : Decidable (Canonical a) :=
  inferInstanceAs (Decidable (a < 2 ^ 47 ∨ (2 ^ 64 - 2 ^ 47 ≤ a ∧ a < 2 ^ 64)))

instance (virt pages : ℕ) : Decidable (OneHalf virt pages) :=
  inferInstanceAs (Decidable (virt + pages * 0x1000 ≤ 2 ^ 47 ∨
    (2 ^ 64 - 2 ^ 47 ≤ virt ∧ virt + pages * 0x1000 ≤ 2 ^ 64)))

theorem Canonical.word {a : ℕ} (h : Canonical a) : a < 2 ^ 64 := by
  rcases h with h | h <;> omega

/-- The page of a canonical address is known by its number. -/
theorem OneHalf.offRange {virt pages b : ℕ} (half : OneHalf virt pages) (aligned : virt % 0x1000 = 0)
    (canonical : Canonical b) (off : ¬ (virt ≤ b ∧ b < virt + pages * 0x1000)) :
    OffRange virt pages b := by
  intro k hk same
  simp only [pageNumber] at same
  rcases half with half | half <;> rcases canonical with canonical | canonical <;> omega

theorem pageNumber_stackAddr {b : ℕ} (canonical : Canonical b)
    (ne : b / 0x1000 ≠ stackAddr / 0x1000) : pageNumber b ≠ pageNumber stackAddr := by
  simp only [pageNumber, stackAddr] at ne ⊢
  rcases canonical with canonical | canonical <;> omega

/-- Both lookups return the same for the address. -/
def SameLookups (m m' : Mm) (b : ℕ) : Prop :=
  mmVirtualGetPhys b m' = mmVirtualGetPhys b m ∧ mmVirtualGetFlags b m' = mmVirtualGetFlags b m

theorem sameLookups_of_pte {b : ℕ} (self : m.SelfMap) (self' : m'.SelfMap) (word : b < 2 ^ 64)
    (same : m'.pte b = m.pte b) : SameLookups m m' b := by
  rw [SameLookups, self.getPhys_eq word, self'.getPhys_eq word, self.getFlags_eq word,
    self'.getFlags_eq word, same]
  exact ⟨rfl, rfl⟩

/-- The parts of an entry made of a page and flags. -/
theorem Mm.SelfMap.lookups_of_pte {b page flags : ℕ} (self : m.SelfMap) (word : b < 2 ^ 64)
    (phys : PhysPage page) (present : flags &&& pagePresent ≠ 0)
    (inside : flags &&& flagsMask = flags) (entry : m.pte b = page ||| flags) :
    mmVirtualGetPhys b m = .ok page ∧ mmVirtualGetFlags b m = .ok flags := by
  have presentEntry : (page ||| flags) &&& pagePresent ≠ 0 := by
    rw [Nat.and_or_distrib_right]
    exact fun zero => present (Nat.or_eq_zero_iff.1 zero).2
  rw [self.getPhys_eq word, self.getFlags_eq word, entry, if_pos presentEntry, if_pos presentEntry,
    phys.or_flags inside, phys.or_flags_flags inside]
  exact ⟨rfl, rfl⟩

theorem Mm.translate_of_pte {b page flags : ℕ} (phys : PhysPage page)
    (present : flags &&& pagePresent ≠ 0) (inside : flags &&& flagsMask = flags)
    (entry : m.pte b = page ||| flags) : m.translate b = .ok page := by
  refine Mm.translate_eq_ok.2 ⟨?_, by rw [entry, phys.or_flags inside]⟩
  rw [entry, Nat.and_or_distrib_right]
  exact fun zero => present (Nat.or_eq_zero_iff.1 zero).2

/-- The pages of the range are mapped as requested, and all other lookups but that of the allocator's
stack are as before. -/
theorem mmVirtualMap_installs {phys virt pages flags : ℕ} (ok : m.Ok) (fresh : FreshSupply m)
    (physAligned : phys % 0x1000 = 0) (physStop : phys + pages * 0x1000 ≤ 2 ^ 52)
    (aligned : virt % 0x1000 = 0) (word : virt < 2 ^ 64) (half : OneHalf virt pages)
    (outside : ∀ a, virt ≤ a → a < virt + pages * 0x1000 → OutsideWindow a)
    (present : flags &&& pagePresent ≠ 0) (inside : flags &&& flagsMask = flags) :
    (∃ m', mmVirtualMap phys virt pages flags m = .ok m' ∧
      (∀ k < pages, mmVirtualGetPhys (virt + k * 0x1000) m' = .ok (phys + k * 0x1000) ∧
        mmVirtualGetFlags (virt + k * 0x1000) m' = .ok flags) ∧
      ∀ b, Canonical b → OutsideWindow b → ¬ (virt ≤ b ∧ b < virt + pages * 0x1000) →
        b / 0x1000 ≠ stackAddr / 0x1000 → SameLookups m m' b) ∨
    ∃ e, mmVirtualMap phys virt pages flags m = .error e ∧ GetFailsWithin (3 * max 1 pages) m e := by
  have stop : virt + pages * 0x1000 ≤ 2 ^ 64 := by rcases half with half | half <;> omega
  have few : pages ≤ 2 ^ 35 := by rcases half with half | half <;> omega
  have args : MapArgs phys virt pages := ⟨aligned, word, stop, few, by omega, fun k hk =>
    outside _ (by omega) (by omega)⟩
  obtain ⟨m', ps, run, maps⟩ | fails := mmVirtualMapRec_spec ok fresh args (Nat.lt_succ_self pages)
  · refine .inl ⟨m', run, fun k hk => ?_, fun b canonical outsideB off ne => ?_⟩
    · have page : PhysPage (phys + k * 0x1000) := ⟨by omega, by omega⟩
      exact maps.ok.self.lookups_of_pte (by omega) page present inside (maps.mapped k hk)
    · refine sameLookups_of_pte ok.self maps.ok.self canonical.word (maps.other b outsideB ?_ ?_)
      · exact pageNumber_stackAddr canonical ne
      · exact half.offRange aligned canonical off
  · exact .inr fails

/-! ## Memory with few page tables -/

/-- The list has the level-4 table, and with each table those that its entries point to, each with
its path. -/
def Mm.tablesIn (m : Mm) (L : List (List ℕ × ℕ)) : Bool :=
  decide (([], m.pml4) ∈ L) && L.all fun e => decide (3 ≤ e.1.length) ||
    (List.range 512).all fun i => decide (e.1 = [] ∧ i = 510) ||
      (childTable (m.mem e.2 i)).all fun page => decide ((i :: e.1, page) ∈ L)

theorem Mm.mem_of_tablesIn {L : List (List ℕ × ℕ)} (h : m.tablesIn L = true) {p : List ℕ} {n : ℕ}
    (legal : LegalPath p) (found : m.walk p = some n) : (p, n) ∈ L := by
  simp only [Mm.tablesIn, Bool.and_eq_true, decide_eq_true_eq, List.all_eq_true, Bool.or_eq_true,
    List.mem_range] at h
  induction p generalizing n with
  | nil =>
    obtain rfl := Option.some.inj (m.walk_nil.symm.trans found)
    exact h.1
  | cons i p ih =>
    rw [Mm.walk_cons] at found
    obtain ⟨x, at_, child⟩ := Option.bind_eq_some_iff.1 found
    have short := legal.short
    rw [List.length_cons] at short
    obtain long | closed := h.2 _ (ih legal.tail at_)
    · simp only at long
      omega
    obtain ⟨rfl, rfl⟩ | inside := closed i (legal.indices i (by simp))
    · exact absurd rfl legal.outside
    · simpa [child] using inside

theorem Mm.Ok.of_tablesIn {L : List (List ℕ × ℕ)} (self : m.SelfMap) (h : m.tablesIn L = true)
    (inj : ∀ d ∈ L, ∀ e ∈ L, d.2 = e.2 → d.1 = e.1) : m.Ok := by
  refine ⟨self, fun _ _ legal => legal.tail, fun p q n legalP legalQ atP atQ => ?_⟩
  exact inj _ (Mm.mem_of_tablesIn h legalP atP) _ (Mm.mem_of_tablesIn h legalQ atQ) rfl

theorem Mm.IsTable.mem {L : List (List ℕ × ℕ)} (h : m.tablesIn L = true) {x : ℕ}
    (table : m.IsTable x) :
    x ∈ L.map Prod.snd := by
  obtain ⟨p, legal, found⟩ := table
  exact List.mem_map_of_mem (Mm.mem_of_tablesIn h legal found)

/-- The pages that the root stack of `bootMm` records. -/
def bootPages : List ℕ := (List.range 508).map fun i => i * 0x1000 + 0x100000

/-- Four page tables, at `0x1000` to `0x4000`, and the root stack at `0x5000`. -/
def bootMm : Mm where
  pml4 := 0x1000
  root := 0x5000
  mem page i :=
    if page = 0x1000 ∧ i = 510 then 0x1003
    else if page = 0x1000 ∧ i = 509 then 0x2003
    else if page = 0x2000 ∧ i = 511 then 0x3003
    else if page = 0x3000 ∧ i = 511 then 0x4003
    else if page = 0x4000 ∧ i = 511 then 0x5003
    else if page = 0x5000 ∧ i = 2 then 508
    else if page = 0x5000 ∧ 3 ≤ i ∧ i < 511 then (i - 3) * 0x1000 + 0x100000
    else 0

def bootTables : List (List ℕ × ℕ) :=
  [([], 0x1000), ([509], 0x2000), ([511, 509], 0x3000), ([511, 511, 509], 0x4000)]

theorem mem_bootPages {x : ℕ} (hx : x ∈ bootPages) : 0x100000 ≤ x ∧ PhysPage x := by
  obtain ⟨i, hi, rfl⟩ := List.mem_map.1 hx
  rw [List.mem_range] at hi
  exact ⟨by omega, by omega, by omega⟩

theorem bootPages_nodup : bootPages.Nodup := List.nodup_range.map_on fun i _ j _ e => by omega

theorem bootPages_ok {fs : List ℕ} (nodup : fs.Nodup) (low : ∀ f ∈ fs, f < 0x100000 ∧ PhysPage f) :
    (fs ++ bootPages).Nodup ∧ ∀ x ∈ fs ++ bootPages, PhysPage x := by
  refine ⟨List.nodup_append.2 ⟨nodup, bootPages_nodup, fun x hx y hy e => ?_⟩, fun x hx => ?_⟩
  · have := (low x hx).1
    have := (mem_bootPages hy).1
    omega
  · rcases List.mem_append.1 hx with hx | hx
    · exact (low x hx).2
    · exact (mem_bootPages hx).2

/-- The layouts with `bootPages` on the root stack. -/
theorem layout_ok_root : Layout.Ok [(0x5000, bootPages)] := by
  obtain ⟨nodup, phys⟩ := @bootPages_ok [0x5000] (by decide) (by decide)
  exact ⟨by simpa using nodup, by simpa using phys, by simp [bootPages, stackSize], by simp⟩

theorem layout_ok_emptyTop : Layout.Ok [(0x6000, []), (0x5000, bootPages)] := by
  obtain ⟨nodup, phys⟩ := @bootPages_ok [0x6000, 0x5000] (by decide) (by decide)
  exact ⟨by simpa using nodup, by simpa using phys, by simp, by simp [bootPages, stackSize]⟩

section Boot

variable {L : List (List ℕ × ℕ)} {A : Layout}

/-- Tables below `0x5000` are apart from the allocator's pages. -/
theorem serves_of_tablesIn (tables : m.tablesIn L = true) (window : m.window = .ok 0x4000)
    (holds : (m.pmm 0x4000).Holds A) (pages : A.pages = bootPages)
    (low : ∀ x ∈ L.map Prod.snd, x < 0x100000 ∧ x ∉ A.frames) : m.Serves 0x4000 A := by
  refine ⟨window, holds, fun x hx table => ?_⟩
  obtain ⟨below, notFrame⟩ := low x (Mm.IsTable.mem tables table)
  rcases List.mem_append.1 hx with frame | page
  · exact notFrame frame
  · have := (mem_bootPages (pages ▸ page)).1
    omega

end Boot

theorem bootMm_tables : bootMm.tablesIn bootTables = true := by decide +kernel

theorem bootMm_ok : bootMm.Ok := .of_tablesIn (by decide) bootMm_tables (by decide)

theorem bootMm_serves : bootMm.Serves 0x4000 [(0x5000, bootPages)] :=
  serves_of_tablesIn bootMm_tables (by decide +kernel)
    ⟨.root (by decide +kernel) (by decide), by decide, layout_ok_root⟩ (by simp) (by decide)

theorem mmVirtualMap_installs_boot :
    ∃ m', mmVirtualMap 0x800000 0xFFFFFE0000021000 2 3 bootMm = .ok m' ∧
      mmVirtualGetPhys 0xFFFFFE0000022000 m' = .ok 0x801000 := by
  have outside : ∀ a, 0xFFFFFE0000021000 ≤ a → a < 0xFFFFFE0000021000 + 2 * 0x1000 →
      OutsideWindow a := by
    intro a low high
    simp only [OutsideWindow]
    omega
  obtain ⟨m', run, mapped, _⟩ | ⟨e, run, _⟩ := mmVirtualMap_installs bootMm_ok bootMm_serves.fresh
    (show 0x800000 % 0x1000 = 0 by decide) (by decide) (by decide) (by decide) (by decide) outside
    (show 3 &&& pagePresent ≠ 0 by decide) (by decide)
  · exact ⟨m', run, (mapped 1 (by decide)).1⟩
  · have returns : (mmVirtualMap 0x800000 0xFFFFFE0000021000 2 3 bootMm).isOk = true := by
      decide +kernel
    rw [run] at returns
    cases returns

/-! ## Memory that is disturbed -/

/-- All lookups outside the range and the window return what they returned before. -/
def Undisturbed (m m' : Mm) (virt pages : ℕ) : Prop :=
  ∀ b, Canonical b → OutsideWindow b → ¬ (virt ≤ b ∧ b < virt + pages * 0x1000) → SameLookups m m' b

/-- Memory with an empty stack on top of the root stack. -/
def emptyTopMm : Mm := (bootMm.setEntry 0x4000 511 0x6003).setEntry 0x6000 0 0x5000

theorem emptyTopMm_tables : emptyTopMm.tablesIn bootTables = true := by decide +kernel

theorem emptyTopMm_serves : emptyTopMm.Serves 0x4000 [(0x6000, []), (0x5000, bootPages)] :=
  serves_of_tablesIn emptyTopMm_tables (by decide +kernel)
    ⟨.cons (by decide) (by decide) (by decide) (.root (by decide +kernel) (by decide)), by decide,
      layout_ok_emptyTop⟩ (by simp) (by decide)

/-- Memory in which two entries of the level-4 table point to the same table. -/
def sharedMm : Mm := (bootMm.setEntry 0x1000 0 0x7003).setEntry 0x1000 1 0x7003

theorem sharedMm_serves : sharedMm.Serves 0x4000 [(0x5000, bootPages)] :=
  serves_of_tablesIn (L := bootTables ++ [([0], 0x7000), ([1], 0x7000)]) (by decide +kernel)
    (by decide +kernel) ⟨.root (by decide +kernel) (by decide), by decide, layout_ok_root⟩ (by simp)
    (by decide)

/-- Memory in which the root stack serves as a level-1 table. -/
def overlapMm : Mm := (bootMm.setEntry 0x2000 0 0x7003).setEntry 0x7000 0 0x5003

/-- The pages that the allocator returns are not among the tables. -/
theorem Mm.gets_notTable {L : List (List ℕ × ℕ)} {A : Layout} (tables : m.tablesIn L = true)
    (window : m.window = .ok t) (holds : (m.pmm t).Holds A)
    (apart : ∀ x ∈ L.map Prod.snd, x ∉ A.pages) {k : ℕ} {ps : List ℕ} {s : Pmm}
    (call : m.physicalGets k = .ok (ps, s)) :
    ps.Nodup ∧ ∀ p ∈ ps, PhysPage p ∧ ¬ m.IsTable p := by
  rw [Mm.physicalGets_eq window] at call
  obtain ⟨B, get, _⟩ := holds.of_getMany call
  have perm := (holds.ok.getMany get).2.1
  have nodup := (List.nodup_append.1 holds.ok.nodup).2.1
  refine ⟨(List.nodup_append.1 (perm.nodup_iff.1 nodup)).1, fun p hp => ?_⟩
  have mem := perm.mem_iff.2 (List.mem_append_left _ hp)
  exact ⟨holds.ok.phys p (List.mem_append_right _ mem), fun table =>
    apart p (Mm.IsTable.mem tables table) mem⟩

theorem overlapMm_pages {k : ℕ} {ps : List ℕ} {s : Pmm}
    (call : overlapMm.physicalGets k = .ok (ps, s)) :
    ps.Nodup ∧ ∀ p ∈ ps, PhysPage p ∧ ¬ overlapMm.IsTable p := by
  have holds : (overlapMm.pmm 0x4000).Holds [(0x5000, bootPages)] :=
    ⟨.root (by decide +kernel) (by decide), by decide, layout_ok_root⟩
  have tables : overlapMm.tablesIn (bootTables ++ [([0, 509], 0x7000), ([0, 0, 509], 0x5000)]) =
    true := by
    decide +kernel
  refine Mm.gets_notTable tables (by decide +kernel) holds (fun x hx mem => ?_) call
  rw [Layout.pages_cons, Layout.pages_nil, List.append_nil] at mem
  have high := (mem_bootPages mem).1
  have low : ∀ x ∈ (bootTables ++ [([0, 509], 0x7000), ([0, 0, 509], 0x5000)]).map Prod.snd,
      x < 0x100000 := by decide
  exact absurd (low x hx) (by omega)

theorem disturbed {look : ℕ → Mm → Except Fault ℕ} {phys virt pages flags b v w : ℕ}
    (lookup : look = mmVirtualGetPhys ∨ look = mmVirtualGetFlags)
    (after : (mmVirtualMap phys virt pages flags m >>= look b) = .ok v) (before : look b m = .ok w)
    (ne : v ≠ w) (canonical : Canonical b) (outside : OutsideWindow b)
    (off : ¬ (virt ≤ b ∧ b < virt + pages * 0x1000)) :
    ∃ m', mmVirtualMap phys virt pages flags m = .ok m' ∧ ¬ Undisturbed m m' virt pages := by
  obtain ⟨m', run, after⟩ := Fallible.bind_eq_ok.1 after
  refine ⟨m', run, fun undisturbed => ne ?_⟩
  have same : look b m' = look b m := by
    rcases lookup with rfl | rfl
    · exact (undisturbed b canonical outside off).1
    · exact (undisturbed b canonical outside off).2
  rw [after, before] at same
  exact Except.ok.inj same

/-- One page at address 0 needs three new tables.  Taking them maps another stack at `STACK_ADDR`; a
shared table maps the page at a second address; a stack that is a page table changes under it. -/
theorem mmVirtualMap_disturbs :
    (emptyTopMm.Ok ∧ FreshSupply emptyTopMm ∧
      ∃ m', mmVirtualMap 0x800000 0 1 3 emptyTopMm = .ok m' ∧ ¬ Undisturbed emptyTopMm m' 0 1) ∧
    (sharedMm.SelfMap ∧ FreshSupply sharedMm ∧
      ∃ m', mmVirtualMap 0x800000 0 1 3 sharedMm = .ok m' ∧ ¬ Undisturbed sharedMm m' 0 1) ∧
    (overlapMm.Ok ∧ (∀ k ps s, overlapMm.physicalGets k = .ok (ps, s) →
        ps.Nodup ∧ ∀ p ∈ ps, PhysPage p ∧ ¬ overlapMm.IsTable p) ∧
      ∃ m', mmVirtualMap 0x800000 0 1 3 overlapMm = .ok m' ∧ ¬ Undisturbed overlapMm m' 0 1) := by
  refine ⟨⟨.of_tablesIn (by decide) emptyTopMm_tables (by decide), emptyTopMm_serves.fresh, ?_⟩,
    ⟨by decide, sharedMm_serves.fresh, ?_⟩, ⟨?_, fun k ps s => overlapMm_pages, ?_⟩⟩
  · exact disturbed (b := stackAddr) (v := 0x5000) (w := 0x6000) (.inl rfl) (by decide +kernel)
      (by decide +kernel) (by decide) (by decide) (by decide) (by decide)
  · exact disturbed (b := 2 ^ 39) (v := 0x800000) (w := 0) (.inl rfl) (by decide +kernel)
      (by decide +kernel) (by decide) (by decide) (by decide) (by decide)
  · exact .of_tablesIn (L := bootTables ++ [([0, 509], 0x7000), ([0, 0, 509], 0x5000)]) (by decide)
      (by decide +kernel) (by decide)
  · exact disturbed (b := 0xFFFFFE8000002000) (v := 0x1F9) (w := 0) (.inr rfl) (by decide +kernel)
      (by decide +kernel) (by decide) (by decide) (by decide) (by decide)

end Vineyard

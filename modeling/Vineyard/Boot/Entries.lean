import Vineyard.Boot.Stack

/-!
# The memory map

What the loop of `mm_physical_init` over the firmware's memory map keeps (`Booting`): every page marked
free so far is recorded, a stack, a page table or a frame that was left behind; the ACPI tables met so
far are mapped to themselves, and all other addresses as before.  An entry fails only by running out of
memory, and only when tables are needed before enough pages are free.
-/

namespace Vineyard

open Function

variable {m m' m₀ : Mm} {t : ℕ} {A B : Layout} {contents : List ℕ}

/-! ## The pages and the ranges of a map -/

namespace EfiMemoryDescriptor

/-- The pages of an entry. -/
def pages (desc : EfiMemoryDescriptor) : List ℕ :=
  (List.range desc.numberOfPages).map fun j => desc.physicalStart + j * 0x1000

def isFree (desc : EfiMemoryDescriptor) : Bool :=
  desc.type = .conventionalMemory ∨ desc.type = .bootServicesCode ∨ desc.type = .bootServicesData

def isAcpi (desc : EfiMemoryDescriptor) : Bool := desc.type = .acpiReclaimMemory

/-- A bound for the page tables that mapping the entry takes. -/
def tableBound (desc : EfiMemoryDescriptor) : ℕ :=
  if desc.isAcpi then 3 * max 1 desc.numberOfPages else 0

end EfiMemoryDescriptor

open EfiMemoryDescriptor

/-- The pages that `mm_physical_init` marks free, in this order. -/
def freePages (map : List EfiMemoryDescriptor) : List ℕ := (map.filter isFree).flatMap pages

def tableBounds (map : List EfiMemoryDescriptor) : ℕ := (map.map tableBound).sum

theorem freePages_cons (desc : EfiMemoryDescriptor) (map : List EfiMemoryDescriptor) :
    freePages (desc :: map) = (if desc.isFree then desc.pages else []) ++ freePages map := by
  rw [freePages, List.filter_cons]
  split <;> rfl

theorem freePages_append (map map' : List EfiMemoryDescriptor) :
    freePages (map ++ map') = freePages map ++ freePages map' := by
  simp [freePages]

theorem freePages_snoc (map : List EfiMemoryDescriptor) (desc : EfiMemoryDescriptor) :
    freePages (map ++ [desc]) = freePages map ++ if desc.isFree then desc.pages else [] := by
  rw [freePages_append, freePages_cons]
  simp [freePages]

theorem tableBounds_snoc (map : List EfiMemoryDescriptor) (desc : EfiMemoryDescriptor) :
    tableBounds (map ++ [desc]) = tableBounds map + desc.tableBound := by
  simp [tableBounds]

/-- ACPI tables are whole pages of the lower half. -/
def AcpiLow (map : List EfiMemoryDescriptor) : Prop :=
  ∀ desc ∈ map, desc.isAcpi → desc.physicalStart % 0x1000 = 0 ∧
    desc.physicalStart + desc.numberOfPages * 0x1000 ≤ 2 ^ 47

theorem plain_of_low {a : ℕ} (low : a < 2 ^ 47) : Plain a := by
  refine ⟨?_, ?_, ?_⟩
  · simp only [OutsideWindow]
    omega
  · simp only [pageNumber, stackAddr]
    omega
  · simp only [pageNumber, stackAddrTemp]
    omega

theorem AcpiLow.page {map : List EfiMemoryDescriptor} (low : AcpiLow map) {desc : EfiMemoryDescriptor}
    (mem : desc ∈ map) (acpi : desc.isAcpi) {p : ℕ} (hp : p ∈ desc.pages) :
    p % 0x1000 = 0 ∧ p < 2 ^ 47 := by
  obtain ⟨aligned, high⟩ := low desc mem acpi
  obtain ⟨j, hj, rfl⟩ := List.mem_map.1 hp
  have less := List.mem_range.1 hj
  omega

/-- What may follow the first free page may follow it in what is left. -/
theorem tail_subset_append (xs ys : List ℕ) : ys.tail ⊆ (xs ++ ys).tail := by
  cases xs with
  | nil => exact List.Subset.refl _
  | cons x xs => exact fun y hy => List.mem_append_right xs (List.mem_of_mem_tail hy)

/-! ## Marking pages free -/

/-- The pages `n` from page `j` on. -/
def pagesFrom (start j n : ℕ) : List ℕ := (List.range' j n).map fun k => start + k * 0x1000

theorem pagesFrom_succ (start j n : ℕ) :
    pagesFrom start j (n + 1) = (start + j * 0x1000) :: pagesFrom start (j + 1) n := rfl

theorem EfiMemoryDescriptor.pages_eq (desc : EfiMemoryDescriptor) :
    desc.pages = pagesFrom desc.physicalStart 0 desc.numberOfPages := by
  rw [pages, pagesFrom, List.range_eq_range']

/-- The loop puts its pages into the layout. -/
theorem markFreeLoop_spec {start n j : ℕ} (h : m.Accounts t A (pagesFrom start j n ++ contents)) :
    ∃ m' B, markFreeLoop start n j m = .ok m' ∧ m'.Accounts t B contents ∧ SameTables m m' ∧
      A.markAll (pagesFrom start j n) = some B ∧
      (B.frames ++ B.pages).Perm (pagesFrom start j n ++ (A.frames ++ A.pages)) ∧
      (∀ b, Plain b → m'.pte b = m.pte b) ∧
      (A.ZeroFirst → 0 ∉ (pagesFrom start j n).tail → (0 ∈ pagesFrom start j n → A.pages = []) →
        B.ZeroFirst) := by
  induction n generalizing j m A with
  | zero => exact ⟨m, A, rfl, h, .refl h.ok, rfl, .refl _, fun _ _ => rfl, fun zero _ _ => zero⟩
  | succ n ih =>
    rw [pagesFrom_succ, List.cons_append] at h
    have page := h.phys _ List.mem_cons_self
    have addr : Word64.add start (j <<< 12 % 2 ^ 64) = start + j * 0x1000 :=
      pageAddr_eq (page.bounded.trans (by decide))
    have ok := h.serves.holds.ok
    obtain ⟨B, mark⟩ := ok.markFree_isSome h.serves.holds.ne_nil (start + j * 0x1000)
    obtain ⟨m₁, run, h₁, same₁, ptes₁⟩ := h.mark mark
    obtain ⟨m₂, C, loop, h₂, same₂, marks, perm, ptes₂, zero⟩ := ih h₁
    refine ⟨m₂, C, ?_, h₂, same₁.trans same₂, ?_, ?_,
      fun b plain => (ptes₂ b plain).trans (ptes₁ b plain), fun first tail only => ?_⟩
    · rw [markFreeLoop, addr, run, Fallible.ok_bind, loop]
    · rw [pagesFrom_succ, Layout.markAll_cons, mark, Option.bind_some, marks]
    · exact perm.trans (((ok.markFree_perm mark).append_left _).trans List.perm_middle)
    · rw [pagesFrom_succ] at tail only
      refine zero (first.markFree ok mark fun e => only (by simp [e])) ?_ fun mem => absurd mem tail
      exact fun mem => tail (List.mem_of_mem_tail mem)

/-! ## The invariant -/

/-- What holds between two entries: `done` are behind, `rest` before the loop, which began in `m₀`. -/
structure Booting (m₀ : Mm) (t root : ℕ) (done rest : List EfiMemoryDescriptor) (A : Layout)
    (tables lost : List ℕ) (m : Mm) : Prop where
  accounts : m.Accounts t A (freePages rest)
  isTable : ∀ x, m.IsTable x ↔ m₀.IsTable x ∨ x ∈ tables
  held : (A.frames ++ A.pages ++ tables ++ lost).Perm (root :: freePages done)
  fewLost : lost.length ≤ tables.length
  fewTables : tables.length ≤ tableBounds done
  identity : ∀ desc ∈ done, desc.isAcpi → ∀ p ∈ desc.pages, m.pte p = p ||| (pagePresent ||| pageNx)
  other : ∀ b, Plain b → (∀ desc ∈ done, desc.isAcpi →
    OffRange desc.physicalStart desc.numberOfPages b) → m.pte b = m₀.pte b
  low : AcpiLow (done ++ rest)
  zero : root ≠ 0 → 0 ∉ (freePages (done ++ rest)).tail →
    A.ZeroFirst ∧ (0 ∈ freePages rest → A.pages = [])

variable {root : ℕ} {done rest : List EfiMemoryDescriptor} {desc : EfiMemoryDescriptor}
  {tables lost : List ℕ}

/-- Before the first entry. -/
theorem Mm.Accounts.booting {map : List EfiMemoryDescriptor} (h : m.Accounts t [(root, [])] [])
    (nodup : (root :: freePages map).Nodup) (phys : ∀ p ∈ freePages map, PhysPage p)
    (notTable : ∀ p ∈ freePages map, ¬ m.IsTable p) (low : AcpiLow map) :
    Booting m t root [] map [(root, [])] [] [] m := by
  obtain ⟨notRoot, nodup⟩ := List.nodup_cons.1 nodup
  refine ⟨⟨h.ok, h.serves, nodup, phys, fun p hp hx => ?_, notTable⟩,
    by simp, by simp [freePages], le_rfl,
    le_rfl, by simp, fun _ _ _ => rfl, low, fun ne _ => ⟨Layout.zeroFirst_root ne, fun _ => rfl⟩⟩
  obtain rfl : p = root := by simpa using hx
  exact notRoot hp

section Steps

variable (h : Booting m₀ t root done (desc :: rest) A tables lost m)

include h

/-- Entries of other types are skipped. -/
theorem Booting.skip (notFree : desc.isFree = false) (notAcpi : desc.isAcpi = false) :
    Booting m₀ t root (done ++ [desc]) rest A tables lost m := by
  have rest_eq : freePages (desc :: rest) = freePages rest := by simp [freePages_cons, notFree]
  have done_eq : freePages (done ++ [desc]) = freePages done := by simp [freePages_snoc, notFree]
  have bounds_eq : tableBounds (done ++ [desc]) = tableBounds done := by
    simp [tableBounds_snoc, tableBound, notAcpi]
  refine ⟨rest_eq ▸ h.accounts, h.isTable, done_eq.symm ▸ h.held, h.fewLost,
    bounds_eq.symm ▸ h.fewTables,
    fun d hd acpi => ?_, fun b plain off => h.other b plain fun d hd => off d (by simp [hd]), ?_, ?_⟩
  · rcases List.mem_append.1 hd with hd | hd
    · exact h.identity d hd acpi
    · rw [List.mem_singleton.1 hd, notAcpi] at acpi
      cases acpi
  · rw [List.append_assoc]
    exact h.low
  · rw [List.append_assoc, List.singleton_append, ← rest_eq]
    exact h.zero

/-- Free pages are put into the layout. -/
theorem Booting.free (isFree : desc.isFree = true) (notAcpi : desc.isAcpi = false) :
    ∃ m' B, markFreeLoop desc.physicalStart desc.numberOfPages 0 m = .ok m' ∧
      Booting m₀ t root (done ++ [desc]) rest B tables lost m' := by
  have rest_eq : freePages (desc :: rest) = desc.pages ++ freePages rest := by
    simp [freePages_cons, isFree]
  have done_eq : freePages (done ++ [desc]) = freePages done ++ desc.pages := by
    simp [freePages_snoc, isFree]
  have bounds_eq : tableBounds (done ++ [desc]) = tableBounds done := by
    simp [tableBounds_snoc, tableBound, notAcpi]
  have accounts := h.accounts
  rw [rest_eq, desc.pages_eq] at accounts
  obtain ⟨m', B, run, accounts', same, marks, perm, ptes, zero⟩ := markFreeLoop_spec accounts
  rw [← desc.pages_eq] at marks perm zero
  refine ⟨m', B, run, accounts', fun x => same.isTable.trans (h.isTable x), ?_, h.fewLost,
    bounds_eq.symm ▸ h.fewTables, fun d hd acpi p hp => ?_, fun b plain off =>
      ?_, ?_, fun ne order => ?_⟩
  · rw [done_eq, List.perm_iff_count]
    intro x
    have new := List.perm_iff_count.1 perm x
    have old := List.perm_iff_count.1 h.held x
    simp only [List.count_append, List.count_cons] at new old ⊢
    omega
  · rcases List.mem_append.1 hd with hd | hd
    · rw [ptes p (plain_of_low (h.low.page (by simp [hd]) acpi hp).2)]
      exact h.identity d hd acpi p hp
    · rw [List.mem_singleton.1 hd, notAcpi] at acpi
      cases acpi
  · rw [ptes b plain]
    exact h.other b plain fun d hd => off d (by simp [hd])
  · rw [List.append_assoc]
    exact h.low
  · rw [List.append_assoc, List.singleton_append] at order
    obtain ⟨first, only⟩ := h.zero ne order
    rw [freePages_append, rest_eq] at order
    rw [rest_eq] at only
    have late : 0 ∉ (desc.pages ++ freePages rest).tail :=
      fun mem => order (tail_subset_append _ _ mem)
    refine ⟨zero first (fun mem => late ?_) fun mem => only (List.mem_append_left _ mem),
      fun mem => ?_⟩
    · exact Layout.tail_subset _ _ mem
    · cases none : desc.pages with
      | cons p ps =>
        rw [none] at late
        exact absurd (List.mem_append_right ps mem) late
      | nil =>
        rw [none] at marks
        obtain rfl : A = B := Option.some.inj marks
        exact only (List.mem_append_right _ mem)

/-- ACPI tables are mapped to themselves, unless the allocator fails. -/
theorem Booting.acpi (notFree : desc.isFree = false) (isAcpi : desc.isAcpi = true) :
    (∃ m' B new lost', mmVirtualMap desc.physicalStart desc.physicalStart desc.numberOfPages
        (pagePresent ||| pageNx) m = .ok m' ∧
      Booting m₀ t root (done ++ [desc]) rest B (tables ++ new) (lost ++ lost') m') ∨
    mmVirtualMap desc.physicalStart desc.physicalStart desc.numberOfPages (pagePresent ||| pageNx) m =
        .error outOfMemory ∧ ∃ k ≤ 3 * max 1 desc.numberOfPages, A.getMany k = none := by
  have rest_eq : freePages (desc :: rest) = freePages rest := by simp [freePages_cons, notFree]
  have done_eq : freePages (done ++ [desc]) = freePages done := by simp [freePages_snoc, notFree]
  have bounds_eq : tableBounds (done ++ [desc]) =
    tableBounds done + 3 * max 1 desc.numberOfPages := by
    simp [tableBounds_snoc, tableBound, isAcpi]
  obtain ⟨aligned, high⟩ := h.low desc (by simp) isAcpi
  have plain : ∀ k < desc.numberOfPages, Plain (desc.physicalStart + k * 0x1000) := fun k hk =>
    plain_of_low (by omega)
  have args : MapArgs desc.physicalStart desc.physicalStart desc.numberOfPages :=
    ⟨aligned, by omega, by omega, by omega, fun k hk => by omega, fun k hk => (plain k hk).outside⟩
  obtain ⟨m', ps, B, run, maps, isTable, get, few, accounts⟩ | fails :=
    h.accounts.mapRange args (fun k hk => (plain k hk).ne_stackAddr.symm) (pagePresent ||| pageNx)
  rotate_left
  · exact .inr fails
  have ok := h.accounts.serves.holds.ok
  obtain ⟨lost', perm, fewLost⟩ := ok.getMany_perm get
  refine .inl ⟨m', B, ps, lost', run, rest_eq ▸ accounts, fun x => ?_, ?_, ?_, ?_,
    fun d hd acpi p hp => ?_, fun b plainB off => ?_, ?_, fun ne order => ?_⟩
  · rw [isTable, h.isTable, List.mem_append, or_assoc]
  · rw [done_eq, List.perm_iff_count]
    intro x
    have new := List.perm_iff_count.1 perm x
    have old := List.perm_iff_count.1 h.held x
    simp only [List.count_append] at new old ⊢
    omega
  · have := h.fewLost
    simp only [List.length_append]
    omega
  · have := h.fewTables
    rw [bounds_eq, List.length_append]
    omega
  · have mem : d ∈ done ++ desc :: rest := by
      rw [List.append_cons]
      exact List.mem_append_left _ hd
    obtain ⟨alignedP, small⟩ := h.low.page mem acpi hp
    by_cases hit : ∃ k < desc.numberOfPages,
      pageNumber p = pageNumber (desc.physicalStart + k * 0x1000)
    · obtain ⟨k, hk, same⟩ := hit
      obtain rfl : p = desc.physicalStart + k * 0x1000 := by
        simp only [pageNumber] at same
        omega
      exact maps.mapped k hk
    · have off : OffRange desc.physicalStart desc.numberOfPages p := fun k hk same =>
        hit ⟨k, hk, same⟩
      have plainP := plain_of_low small
      rw [maps.other p plainP.outside plainP.ne_stackAddr off]
      rcases List.mem_append.1 hd with hd | hd
      · exact h.identity d hd acpi p hp
      · rw [List.mem_singleton.1 hd] at hp
        obtain ⟨k, hk, rfl⟩ := List.mem_map.1 hp
        exact absurd ⟨k, List.mem_range.1 hk, rfl⟩ hit
  · rw [maps.other b plainB.outside plainB.ne_stackAddr (off desc (by simp) isAcpi)]
    exact h.other b plainB fun d hd => off d (by simp [hd])
  · rw [List.append_assoc]
    exact h.low
  · rw [List.append_assoc, List.singleton_append] at order
    obtain ⟨first, only⟩ := h.zero ne order
    refine ⟨first.getMany ok get, fun mem => ?_⟩
    have none := only (rest_eq.symm ▸ mem)
    have pages := (ok.getMany get).2.1
    rw [none] at pages
    exact (List.append_eq_nil_iff.1 pages.nil_eq.symm).2

/-- The body of the loop. -/
theorem Booting.entry :
    (∃ m' B tables' lost', mmPhysicalInitEntry desc m = .ok m' ∧
      Booting m₀ t root (done ++ [desc]) rest B tables' lost' m') ∨
    mmPhysicalInitEntry desc m = .error outOfMemory ∧ desc.isAcpi = true ∧
      ∃ k ≤ desc.tableBound, A.getMany k = none := by
  rw [mmPhysicalInitEntry]
  by_cases free : desc.isFree = true
  · have notAcpi : desc.isAcpi = false := by
      simp only [isFree, isAcpi, decide_eq_true_eq, decide_eq_false_iff_not] at free ⊢
      rcases free with type | type | type <;> simp [type]
    obtain ⟨m', B, run, booting⟩ := h.free free notAcpi
    rw [if_pos (by simpa [isFree] using free)]
    exact .inl ⟨m', B, _, _, run, booting⟩
  rw [if_neg (by simpa [isFree] using free)]
  rw [Bool.not_eq_true] at free
  by_cases acpi : desc.isAcpi = true
  · rw [if_pos (by simpa [isAcpi] using acpi)]
    obtain ⟨m', B, new, lost', run, booting⟩ | ⟨run, fails⟩ := h.acpi free acpi
    · exact .inl ⟨m', B, _, _, run, booting⟩
    · exact .inr ⟨run, acpi, by simpa [tableBound, acpi] using fails⟩
  · rw [if_neg (by simpa [isAcpi] using acpi)]
    exact .inl ⟨m, A, _, _, rfl, h.skip free (by simpa using acpi)⟩

end Steps

/-- The loop goes through the whole map, or runs out of memory at an entry that needs page tables. -/
theorem Booting.loop_cases (h : Booting m₀ t root done rest A tables lost m) :
    (∃ m' B tables' lost', rest.foldlM (fun m desc => mmPhysicalInitEntry desc m) m = .ok m' ∧
      Booting m₀ t root (done ++ rest) [] B tables' lost' m') ∨
    rest.foldlM (fun m desc => mmPhysicalInitEntry desc m) m = .error outOfMemory ∧
      ∃ pre desc post B tables' lost' m', rest = pre ++ desc :: post ∧ desc.isAcpi = true ∧
        Booting m₀ t root (done ++ pre) (desc :: post) B tables' lost' m' ∧
        ∃ k ≤ desc.tableBound, B.getMany k = none := by
  induction rest generalizing done A tables lost m with
  | nil => exact .inl ⟨m, A, tables, lost, rfl, by simpa using h⟩
  | cons desc rest ih =>
    rw [List.foldlM_cons]
    obtain ⟨m₁, B, tables₁, lost₁, run, booting⟩ | ⟨run, acpi, fails⟩ := h.entry
    · rw [run, Fallible.ok_bind]
      obtain ⟨m', C, tables', lost', loop, final⟩ |
        ⟨loop, pre, d, post, C, tables', lost', m', split, acpi, there, fails⟩ := ih booting
      · exact .inl ⟨m', C, tables', lost', loop, by simpa using final⟩
      · exact .inr ⟨loop, desc :: pre, d, post, C, tables', lost', m', by rw [split]; rfl, acpi,
          by simpa using there, fails⟩
    · rw [run]
      exact .inr ⟨rfl, [], desc, rest, A, tables, lost, m, rfl, acpi, by simpa using h, fails⟩

/-! ## Enough pages -/

/-- Before ACPI tables are mapped, twice the pages that all page tables up to them may take are
free. -/
def PagesFirst (map : List EfiMemoryDescriptor) : Prop :=
  ∀ n, ∀ h : n < map.length, (map[n]).isAcpi = true →
    2 * tableBounds (map.take (n + 1)) ≤ 1 + (freePages (map.take n)).length

instance (map : List EfiMemoryDescriptor) : Decidable (PagesFirst map) :=
  Nat.decidableBallLT _ _

theorem PagesFirst.entry {map pre post : List EfiMemoryDescriptor} {desc : EfiMemoryDescriptor}
    (h : PagesFirst map) (split : map = pre ++ desc :: post) (acpi : desc.isAcpi = true) :
    2 * (tableBounds pre + desc.tableBound) ≤ 1 + (freePages pre).length := by
  subst split
  have pages := h pre.length (by simp)
  rw [List.getElem_append_right le_rfl] at pages
  have first : (pre ++ desc :: post).take (pre.length + 1) = pre ++ [desc] := by
    rw [List.append_cons]
    exact List.take_left' (by simp)
  have before : (pre ++ desc :: post).take pre.length = pre := by simp
  rw [first, before, tableBounds_snoc] at pages
  exact pages (by simpa using acpi)

/-- Enough pages are free before page tables are needed, the slab's pages and tables included, and page
`0`, if it is free at all, comes first. -/
structure EnoughPages (root : ℕ) (map : List EfiMemoryDescriptor) : Prop where
  tables : PagesFirst map
  slab : 2 * (tableBounds map + 16) ≤ 1 + (freePages map).length
  root_ne : root ≠ 0
  order : 0 ∉ (freePages map).tail

/-- What the allocator has left. -/
theorem Booting.reserve (h : Booting m₀ t root done rest A tables lost m) :
    1 + (freePages done).length ≤ A.reserve + 2 * tableBounds done := by
  have length := h.held.length_eq
  have fewLost := h.fewLost
  have fewTables := h.fewTables
  simp only [List.length_append, List.length_cons] at length
  rw [Layout.reserve]
  omega

/-- With enough pages the next `k` calls of `mm_physical_get` return. -/
theorem Booting.gets {k : ℕ} (h : Booting m₀ t root done rest A tables lost m)
    (enough : EnoughPages root (done ++ rest))
    (few : 2 * (tableBounds done + k) ≤ 1 + (freePages done).length) : A.getMany k ≠ none := by
  have left := h.reserve
  obtain ⟨zero, _⟩ := h.zero enough.root_ne enough.order
  obtain ⟨as, C, get⟩ := h.accounts.serves.holds.ok.getMany_isSome zero (n := k) (by omega)
  rw [get]
  exact Option.some_ne_none _

/-- The loop goes through the whole map, or runs out of memory for want of pages. -/
theorem Booting.loop {map : List EfiMemoryDescriptor} (h : Booting m₀ t root [] map A tables lost m) :
    (∃ m' B tables' lost', map.foldlM (fun m desc => mmPhysicalInitEntry desc m) m = .ok m' ∧
      Booting m₀ t root map [] B tables' lost' m') ∨
    map.foldlM (fun m desc => mmPhysicalInitEntry desc m) m = .error outOfMemory ∧
      ¬ EnoughPages root map := by
  obtain done | ⟨fails, pre, desc, post, B, tables', lost', m', split, acpi, there, k, bound, none⟩ :=
    h.loop_cases
  · exact .inl done
  · refine .inr ⟨fails, fun enough => there.gets (k := k) (by rwa [List.nil_append, ← split]) ?_ none⟩
    have pages := enough.tables.entry split acpi
    rw [List.nil_append]
    omega

end Vineyard

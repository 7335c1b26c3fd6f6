import Vineyard.Paging.Supply

/-!
# What `mm_virtual_map` does to the page tables

The three checks make sure that the level-1 table of an address exists, the loop fills entries of that
table, and the recursion goes on with the next table.  The level-1 entries of all addresses outside
the mapped range stay as they are, but for the address of the allocator's stack.
-/

namespace Vineyard

open Function

variable {m m' : Mm} {t : ℕ}

/-! ## The three checks -/

/-- A path through the window leads to the same table as a path outside it. -/
theorem exists_legalPath (p : List ℕ) (indices : ∀ i ∈ p, i < 512) (short : p.length ≤ 3) :
    ∃ q, LegalPath q ∧ q.length ≤ p.length ∧
      ∀ m : Mm, m.SelfMap → ∀ r, m.walk (r ++ p) = m.walk (r ++ q) := by
  induction p using List.reverseRecOn with
  | nil => exact ⟨[], legalPath_nil, le_rfl, fun _ _ _ => rfl⟩
  | append_singleton p i ih =>
    by_cases window : i = 510
    · subst window
      rw [List.length_append] at short
      obtain ⟨q, legal, le, same⟩ := ih (fun j hj => indices j (List.mem_append_left _ hj)) (by omega)
      refine ⟨q, legal, by rw [List.length_append]; omega, fun m self r => ?_⟩
      rw [← List.append_assoc, self.walk_window]
      exact same m self r
    · exact ⟨p ++ [i], ⟨short, by simpa using window, indices⟩, le_rfl, fun _ _ _ => rfl⟩

/-- The MMU takes an address in the window to a table. -/
theorem exists_legalPath_window {a : ℕ} (inside : ¬ OutsideWindow a) :
    ∃ q, LegalPath q ∧ ∀ m : Mm, m.SelfMap → m.walk (pageSlot a :: tablePath a) = m.walk q := by
  have top : a / 2 ^ 39 % 512 = 510 := not_not.1 inside
  have indices : ∀ i ∈ [a / 2 ^ 12 % 512, a / 2 ^ 21 % 512, a / 2 ^ 30 % 512], i < 512 := by
    simp only [List.mem_cons, List.not_mem_nil, or_false]
    omega
  obtain ⟨q, legal, _, same⟩ := exists_legalPath _ indices le_rfl
  refine ⟨q, legal, fun m self => ?_⟩
  have window := self.walk_window [a / 2 ^ 12 % 512, a / 2 ^ 21 % 512, a / 2 ^ 30 % 512]
  have short := same m self []
  rw [List.nil_append, List.nil_append] at short
  rw [tablePath, pageSlot, top, show [a / 2 ^ 12 % 512, a / 2 ^ 21 % 512, a / 2 ^ 30 % 512, 510] =
    [a / 2 ^ 12 % 512, a / 2 ^ 21 % 512, a / 2 ^ 30 % 512] ++ [510] from rfl, window, short]

/-- The same tables are seen in the window. -/
theorem SameTables.translate_window {a : ℕ} (same : SameTables m m') (self : m.SelfMap)
    (inside : ¬ OutsideWindow a) : m'.translate a = m.translate a := by
  obtain ⟨q, legal, short⟩ := exists_legalPath_window inside
  have walks : m'.walk (pageSlot a :: tablePath a) = m.walk (pageSlot a :: tablePath a) := by
    rw [short m' same.ok.self, short m self, same.walk q legal]
  rw [tablePath, pageSlot] at walks
  rw [Mm.translate, Mm.translate, walks]

/-- One check, for any path: the table is there afterwards, unless the allocator fails. -/
theorem Mm.Ok.ensureTable_any_takes {p : List ℕ} {i n entry table : ℕ} (ok : m.Ok)
    (fresh : FreshSupply m) (indices : ∀ j ∈ i :: p, j < 512) (short : p.length ≤ 2)
    (found : m.walk p = some n)
    (points : Points p i entry table) :
    (∃ m' ps x, Vineyard.ensureTable entry table m = .ok m' ∧ Grown m m' ps ∧ SameEntries m m' ∧
      m'.walk (i :: p) = some x ∧ ps.length ≤ 1) ∨
    ∃ e, Vineyard.ensureTable entry table m = .error e ∧ GetFailsWithin 1 m e := by
  obtain ⟨q, legal, le, same⟩ :=
    exists_legalPath p (fun j hj => indices j (List.mem_cons_of_mem _ hj))
    (by omega)
  have at_ : ∀ m' : Mm, m'.SelfMap → m'.walk p = m'.walk q := fun m' self => same m' self []
  have below : ∀ m' : Mm, m'.SelfMap → m'.walk (i :: p) = m'.walk (i :: q) := fun m' self =>
    same m' self [i]
  by_cases top : q = [] ∧ i = 510
  · -- Slot 510 is present.
    obtain ⟨rfl, rfl⟩ := top
    left
    have child := ok.self
    have n_eq : m.pml4 = n :=
      Option.some.inj ((m.walk_nil.symm.trans (at_ m ok.self).symm).trans found)
    rw [Mm.SelfMap, n_eq] at child
    refine ⟨m, [], n, ?_, Grown.refl ok, fun _ _ _ => rfl, ?_, Nat.zero_le 1⟩
    · rw [Vineyard.ensureTable, Mm.load_of_translate (points.toEntry m n ok.self found),
        Fallible.ok_bind, if_pos (Mm.childTable_eq_some.1 child).1]
      rfl
    · rw [Mm.walk_cons, found, Option.bind_some, child]
  · have legal' : LegalPath (i :: q) := by
      refine ⟨by rw [List.length_cons]; omega, ?_, fun j hj => ?_⟩
      · cases q with
        | nil => simpa using top
        | cons j q =>
          rw [List.getLast?_cons_cons]
          exact legal.outside
      · rcases List.mem_cons.1 hj with rfl | hj
        · exact indices _ (by simp)
        · exact legal.indices j hj
    have points' : Points q i entry table :=
      ⟨fun m' n self found' => points.toEntry m' n self ((at_ m' self).trans found'),
        fun m' x self found' => points.toTable m' x self ((below m' self).trans found')⟩
    have step := ok.ensureTable_takes fresh legal' ((at_ m ok.self).symm.trans found) points'
    obtain ⟨m', ps, x, run, grown, entries, there, few⟩ | fails := step
    · exact .inl ⟨m', ps, x, run, grown, entries, (below m' grown.ok.self).trans there, few⟩
    · exact .inr fails

theorem Mm.Ok.ensureTable_any {p : List ℕ} {i n entry table : ℕ} (ok : m.Ok)
    (fresh : FreshSupply m) (indices : ∀ j ∈ i :: p, j < 512) (short : p.length ≤ 2)
    (found : m.walk p = some n)
    (points : Points p i entry table) :
    (∃ m' ps x, Vineyard.ensureTable entry table m = .ok m' ∧ Grown m m' ps ∧ SameEntries m m' ∧
      m'.walk (i :: p) = some x) ∨
    ∃ e, Vineyard.ensureTable entry table m = .error e ∧ GetFailsWithin 1 m e := by
  obtain ⟨m', ps, x, run, grown, entries, there, _⟩ | fails :=
    ok.ensureTable_any_takes fresh indices short found points
  · exact .inl ⟨m', ps, x, run, grown, entries, there⟩
  · exact .inr fails

/-- The three checks of `mm_virtual_map`. -/
def ensureTables (virt : ℕ) (m : Mm) : Except Fault Mm := do
  let i := mmVirtualIndices virt
  let m ← ensureTable (entryAddr i.pml4 i.pml4i) i.pml3 m
  let m ← ensureTable (entryAddr i.pml3 i.pml3i) i.pml2 m
  ensureTable (entryAddr i.pml2 i.pml2i) i.pml1 m

section Ensure

variable {virt : ℕ} (word : virt < 2 ^ 64)

include word in
/-- The level-1 table of the address is there afterwards, unless the allocator fails. -/
theorem Mm.Ok.ensureTables (ok : m.Ok) (fresh : FreshSupply m) :
    (∃ m' ps x, ensureTables virt m = .ok m' ∧ Grown m m' ps ∧ SameEntries m m' ∧
      m'.walk (tablePath virt) = some x ∧ ps.length ≤ 3) ∨
    ∃ e, ensureTables virt m = .error e ∧ GetFailsWithin 3 m e := by
  have indices : ∀ j ∈ tablePath virt, j < 512 := by
    simp only [tablePath, List.forall_mem_cons]
    exact ⟨mod_512_lt _, mod_512_lt _, mod_512_lt _, by simp⟩
  have indices' := (List.forall_mem_cons.1 indices).2
  rw [Vineyard.ensureTables]
  obtain ⟨m₁, ps₁, x₁, run₁, grown₁, same₁, found₁, few₁⟩ | ⟨e, run₁, fails⟩ :=
    ok.ensureTable_any_takes fresh (List.forall_mem_cons.1 indices').2 (by simp) m.walk_nil
      (points_pml4 word)
  rotate_left
  · exact .inr ⟨e, by rw [run₁]; rfl, fails.mono (by omega)⟩
  have fresh₁ := grown₁.supply fresh
  rw [run₁, Fallible.ok_bind]
  obtain ⟨m₂, ps₂, x₂, run₂, grown₂, same₂, found₂, few₂⟩ | ⟨e, run₂, fails⟩ :=
    grown₁.ok.ensureTable_any_takes fresh₁ indices' (by simp) found₁ (points_pml3 word)
  rotate_left
  · exact .inr ⟨e, by rw [run₂]; rfl, (grown₁.getFailsWithin fresh fails).mono (by omega)⟩
  have fresh₂ := grown₂.supply fresh₁
  rw [run₂, Fallible.ok_bind]
  obtain ⟨m₃, ps₃, x₃, run₃, grown₃, same₃, found₃, few₃⟩ | ⟨e, run₃, fails⟩ :=
    grown₂.ok.ensureTable_any_takes fresh₂ indices (by simp) found₂ (points_pml2 word)
  · refine .inl ⟨m₃, _, x₃, run₃, grown₁.trans fresh (grown₂.trans fresh₁ grown₃), ?_, found₃, ?_⟩
    · exact same₁.trans (same₂.trans same₃)
    · simp only [List.length_append]
      omega
  · have fails' := grown₁.getFailsWithin fresh (grown₂.getFailsWithin fresh₁ fails)
    exact .inr ⟨e, run₃, fails'.mono (by omega)⟩

end Ensure

/-! ## The loop over a level-1 table -/

/-- The loop writes one entry after the other. -/
theorem mapLoop_keeps {virt fuel c : ℕ} (phys pages flags mapped : ℕ) (word : virt < 2 ^ 64)
    (keeps : m.Keeps virt t) (bound : c ≤ 512) (enough : 512 - c < fuel) :
    ∃ m', mapLoop (mmVirtualIndices virt).pml1 phys pages flags fuel c mapped m =
        .ok (mapped + min (512 - c) (pages - mapped), m') ∧
      m'.pml4 = m.pml4 ∧ m'.root = m.root ∧
      (∀ x, x ≠ t → m'.mem x = m.mem x) ∧
      ∀ j, m'.mem t j = if c ≤ j ∧ j < c + min (512 - c) (pages - mapped) then
        Word64.add phys ((mapped + (j - c)) <<< 12 % 2 ^ 64) ||| flags else m.mem t j := by
  induction fuel generalizing m c mapped with
  | zero => omega
  | succ fuel ih =>
    rw [mapLoop]
    by_cases more : c < 512 ∧ mapped < pages
    · obtain ⟨self, found⟩ := keeps m rfl fun _ _ => rfl
      rw [if_pos more, Mm.store_of_translate (self.translate_pml1 word more.1 found),
        Fallible.ok_bind]
      have other : ∀ v x, x ≠ t → (m.setEntry t c v).mem x = m.mem x := by
        intro v x ne
        simp [Mm.setEntry, ne]
      have kept :
          (m.setEntry t c (Word64.add phys (mapped <<< 12 % 2 ^ 64) ||| flags)).Keeps virt t :=
        keeps.of_written rfl (other _)
      obtain ⟨m', run, pml4, root, other', entries⟩ := ih (c := c + 1) (mapped + 1) kept (by omega)
        (by omega)
      refine ⟨m', ?_, pml4, root, fun x ne => ?_, fun j => ?_⟩
      · rw [run]
        congr 2
        omega
      · rw [other' x ne, other _ x ne]
      · rw [entries j]
        by_cases here : j = c
        · subst here
          rw [if_neg (by omega), if_pos (by omega)]
          simp [Mm.setEntry]
        · have old : (m.setEntry t c (Word64.add phys (mapped <<< 12 % 2 ^ 64) ||| flags)).mem t j =
              m.mem t j := by
            simp [Mm.setEntry, here]
          rw [old]
          by_cases later : c + 1 ≤ j ∧ j < c + 1 + min (512 - (c + 1)) (pages - (mapped + 1))
          · rw [if_pos later, if_pos (by omega), show mapped + 1 + (j - (c + 1)) =
              mapped + (j - c) by omega]
          · rw [if_neg later, if_neg (by omega)]
    · rw [if_neg more]
      have none : min (512 - c) (pages - mapped) = 0 := by omega
      refine ⟨m, by rw [none]; rfl, rfl, rfl, fun _ _ => rfl, fun j => ?_⟩
      rw [none, if_neg (by omega)]

theorem mapLoop_spec {virt fuel c : ℕ} (phys pages flags mapped : ℕ) (word : virt < 2 ^ 64)
    (outside : OutsideWindow virt) (ok : m.Ok) (found : m.walk (tablePath virt) = some t)
    (bound : c ≤ 512) (enough : 512 - c < fuel) :
    ∃ m', mapLoop (mmVirtualIndices virt).pml1 phys pages flags fuel c mapped m =
        .ok (mapped + min (512 - c) (pages - mapped), m') ∧
      SameTables m m' ∧
      (∀ x, x ≠ t → m'.mem x = m.mem x) ∧
      ∀ j, m'.mem t j = if c ≤ j ∧ j < c + min (512 - c) (pages - mapped) then
        Word64.add phys ((mapped + (j - c)) <<< 12 % 2 ^ 64) ||| flags else m.mem t j := by
  obtain ⟨m', run, pml4, root, other, entries⟩ := mapLoop_keeps phys pages flags mapped word
    (ok.leveled.keeps outside found) bound enough
  exact ⟨m', run, ok.sameTables outside found pml4 root fun x _ => other x, other, entries⟩

/-! ## A whole call -/

/-- The arguments of a call: whole pages, without wrap-around, outside the window. -/
structure MapArgs (phys virt pages : ℕ) : Prop where
  aligned : virt % 0x1000 = 0
  start : virt < 2 ^ 64
  stop : virt + pages * 0x1000 ≤ 2 ^ 64
  half : pages ≤ 2 ^ 35
  physStop : ∀ k < pages, phys + k * 0x1000 < 2 ^ 64
  outside : ∀ k < pages, OutsideWindow (virt + k * 0x1000)

/-- The address lies outside all pages of the range. -/
def OffRange (virt pages b : ℕ) : Prop := ∀ k < pages, pageNumber b ≠ pageNumber (virt + k * 0x1000)

/-- What a call does: the pages of the range are mapped, all other entries but that of the
allocator's stack are as before, and the tables grow by the pages `ps`. -/
structure Maps (m m' : Mm) (ps : List ℕ) (phys virt pages flags : ℕ) : Prop where
  ok : m'.Ok
  mapped : ∀ k < pages, m'.pte (virt + k * 0x1000) = (phys + k * 0x1000) ||| flags
  other : ∀ b, OutsideWindow b → pageNumber b ≠ pageNumber stackAddr → OffRange virt pages b →
    m'.pte b = m.pte b
  grown : OffRange virt pages stackAddr → Grown m m' ps

theorem pageNumber_inj {virt pages i j : ℕ} (half : pages ≤ 2 ^ 35) (hi : i < pages) (hj : j < pages)
    (same : pageNumber (virt + i * 0x1000) = pageNumber (virt + j * 0x1000)) : i = j := by
  simp only [pageNumber] at same
  omega

/-- The pages that fit into the level-1 table of the first one. -/
theorem slot_of_page {virt k : ℕ} (aligned : virt % 0x1000 = 0) (fits : pageSlot virt + k < 512) :
    tablePath (virt + k * 0x1000) = tablePath virt ∧ pageSlot (virt + k * 0x1000) =
      pageSlot virt + k := by
  simp only [tablePath, pageSlot, List.cons.injEq, and_true] at fits ⊢
  omega

/-- Only the last page before the window is that of the allocator's stack. -/
theorem MapArgs.ne_stackAddr {phys virt pages k : ℕ} (args : MapArgs phys virt pages)
    (more : k + 1 < pages) : pageNumber (virt + k * 0x1000) ≠ pageNumber stackAddr := by
  intro same
  have next := args.outside (k + 1) more
  have aligned := args.aligned
  simp only [OutsideWindow, pageNumber, stackAddr] at next same
  omega

theorem MapArgs.rest {phys virt pages n : ℕ} (args : MapArgs phys virt pages) (more : n < pages) :
    MapArgs (phys + n * 0x1000) (virt + n * 0x1000) (pages - n) := by
  obtain ⟨aligned, _, stop, half, physStop, outside⟩ := args
  refine ⟨by omega, by omega, by omega, by omega, fun k hk => ?_, fun k hk => ?_⟩
  · have := physStop (n + k) (by omega)
    omega
  rw [show virt + n * 0x1000 + k * 0x1000 = virt + (n + k) * 0x1000 by omega]
  exact outside (n + k) (by omega)

/-- The page with a given slot in the level-1 table of the first one. -/
theorem pageNumber_of_slot {virt b : ℕ} (aligned : virt % 0x1000 = 0)
    (path : tablePath b = tablePath virt) (slot : pageSlot virt ≤ pageSlot b) :
    pageNumber b = pageNumber (virt + (pageSlot b - pageSlot virt) * 0x1000) := by
  have bound : pageSlot b < 512 := Nat.mod_lt _ (by decide)
  obtain ⟨path', slot'⟩ := slot_of_page (k := pageSlot b - pageSlot virt) aligned (by omega)
  exact pageNumber_eq_iff.2 ⟨path.trans path'.symm, by omega⟩

/-- The part of a call that fills one level-1 table. -/
theorem maps_chunk {m₁ m₂ : Mm} {ps : List ℕ} {phys virt pages flags n : ℕ}
    (args : MapArgs phys virt pages) (outside : OutsideWindow virt) (grown : Grown m m₁ ps)
    (entries : SameEntries m m₁) (found : m₁.walk (tablePath virt) = some t)
    (size : n = min (512 - pageSlot virt) pages) (same : SameTables m₁ m₂)
    (other : ∀ x, x ≠ t → m₂.mem x = m₁.mem x)
    (written : ∀ j, m₂.mem t j = if pageSlot virt ≤ j ∧ j < pageSlot virt + n then
      Word64.add phys ((0 + (j - pageSlot virt)) <<< 12 % 2 ^ 64) ||| flags else m₁.mem t j) :
    Maps m m₂ ps phys virt n flags := by
  have kept : ∀ b, tablePath b = tablePath virt → OffRange virt n b →
      m₂.mem t (pageSlot b) = m₁.mem t (pageSlot b) := by
    intro b here off
    rw [written, if_neg]
    rintro ⟨low, high⟩
    exact off (pageSlot b - pageSlot virt) (by omega) (pageNumber_of_slot args.aligned here low)
  refine ⟨same.ok, fun k hk => ?_, fun b outsideB ne off => ?_, fun off => ?_⟩
  · obtain ⟨path, slot⟩ := slot_of_page (k := k) args.aligned (by omega)
    have stop := args.physStop k (by omega)
    rw [same.pte_of_eq outside found path, slot, written, if_pos (by omega), Nat.zero_add,
      Nat.add_sub_cancel_left, Nat.shiftLeft_eq, Nat.mod_eq_of_lt (by omega),
      Word64.add_eq (by omega)]
  · rw [← entries b outsideB ne]
    by_cases here : tablePath b = tablePath virt
    · rw [same.pte_of_eq outside found here, kept b here off, Mm.pte_of_walk (here ▸ found)]
    · exact same.pte_of_ne grown.ok outside outsideB found (fun x _ => other x) here
  · refine grown.sameTables same (fun x notTable => other x ?_) fun x window => ?_
    · rintro rfl
      exact notTable ⟨_, outside.legal, found⟩
    · rw [stackPath_eq] at window
      by_cases here : tablePath stackAddr = tablePath virt
      · obtain rfl : t = x := Option.some.inj (found.symm.trans (here ▸ window))
        exact kept stackAddr here off
      · refine congrFun (other x ?_) 511
        rintro rfl
        exact here (grown.ok.tree.inj _ _ x stackAddr_outside.legal outside.legal window found)

theorem Maps.trans {m₂ : Mm} {ps qs : List ℕ} {phys virt pages flags n : ℕ}
    (args : MapArgs phys virt pages) (more : n < pages) (fresh : FreshSupply m)
    (first : Maps m m₂ ps phys virt n flags)
    (rest : Maps m₂ m' qs (phys + n * 0x1000) (virt + n * 0x1000) (pages - n) flags) :
    Maps m m' (ps ++ qs) phys virt pages flags := by
  have shift : ∀ k, virt + n * 0x1000 + k * 0x1000 = virt + (n + k) * 0x1000 := by omega
  refine ⟨rest.ok, fun k hk => ?_, fun b outside ne off => ?_, fun off => ?_⟩
  · by_cases here : k < n
    · rw [rest.other _ (args.outside k hk) (args.ne_stackAddr (by omega)), first.mapped k here]
      intro j hj same
      rw [shift] at same
      have := pageNumber_inj args.half hk (by omega) same
      omega
    · have := rest.mapped (k - n) (by omega)
      rwa [shift, show n + (k - n) = k by omega,
        show phys + n * 0x1000 + (k - n) * 0x1000 = phys + k * 0x1000 by omega] at this
  · rw [rest.other b outside ne, first.other b outside ne]
    · exact fun k hk => off k (by omega)
    · intro k hk
      rw [shift]
      exact off (n + k) (by omega)
  · refine (first.grown fun k hk => off k (by omega)).trans fresh (rest.grown fun k hk => ?_)
    rw [shift]
    exact off (n + k) (by omega)

theorem mmVirtualMapRec_succ (fuel phys virt pages flags : ℕ) (m : Mm) :
    mmVirtualMapRec (fuel + 1) phys virt pages flags m = do
      let m ← ensureTables virt m
      let (mappedPages, m) ← mapLoop (mmVirtualIndices virt).pml1 phys pages flags 513
        (mmVirtualIndices virt).pml1i 0 m
      if mappedPages < pages then
        let bytes := mappedPages <<< 12 % 2 ^ 64
        mmVirtualMapRec fuel (Word64.add phys bytes) (Word64.add virt bytes) (pages - mappedPages)
          flags m
      else return m := by
  simp only [mmVirtualMapRec, ensureTables, bind_assoc]

/-- Every call maps its pages, unless the allocator fails.  It takes three pages for each page it
maps, at most, or three if it maps none. -/
theorem mmVirtualMapRec_takes {fuel phys virt pages : ℕ} (flags : ℕ) (ok : m.Ok)
    (fresh : FreshSupply m) (args : MapArgs phys virt pages) (enough : pages < fuel) :
    (∃ m' ps, mmVirtualMapRec fuel phys virt pages flags m = .ok m' ∧
      Maps m m' ps phys virt pages flags ∧ ps.length ≤ 3 * max 1 pages) ∨
    ∃ e, mmVirtualMapRec fuel phys virt pages flags m = .error e ∧
      GetFailsWithin (3 * max 1 pages) m e := by
  induction fuel generalizing m phys virt pages with
  | zero => omega
  | succ fuel ih =>
    rw [mmVirtualMapRec_succ, mmVirtualIndices_pml1i]
    obtain ⟨m₁, ps, t, run, grown, entries, found, few⟩ | ⟨e, run, fails⟩ :=
      ok.ensureTables args.start fresh
    rotate_left
    · exact .inr ⟨e, by rw [run]; rfl, fails.mono (by omega)⟩
    rw [run, Fallible.ok_bind]
    obtain rfl | some := Nat.eq_zero_or_pos pages
    · left
      refine ⟨m₁, ps, by simp [mapLoop], ⟨grown.ok, by
        omega, fun b outside ne _ => ?_, fun _ => grown⟩, few⟩
      exact entries b outside ne
    have outside : OutsideWindow virt := by simpa using args.outside 0 some
    have slot : pageSlot virt < 512 := Nat.mod_lt _ (by decide)
    obtain ⟨m₂, loop, same, other, written⟩ := mapLoop_spec phys pages flags 0 args.start outside
      grown.ok found slot.le (show 512 - pageSlot virt < 513 by omega)
    rw [Nat.sub_zero] at loop written
    set n := min (512 - pageSlot virt) pages with size
    have chunk := maps_chunk args outside grown entries found size same other written
    rw [loop, Fallible.ok_bind, Nat.zero_add]
    by_cases more : n < pages
    · have stop := args.stop
      have physStop := args.physStop n more
      have off : OffRange virt n stackAddr := fun k hk =>
        Ne.symm (args.ne_stackAddr (by omega))
      have grown₂ := chunk.grown off
      simp only [if_pos more, Nat.shiftLeft_eq]
      rw [Nat.mod_eq_of_lt (by omega), Word64.add_eq (by omega), Word64.add_eq (by omega)]
      obtain ⟨m', qs, rec, rest, few'⟩ | ⟨e, rec, fails⟩ := ih grown₂.ok (grown₂.supply fresh)
        (args.rest more) (by omega)
      · refine .inl ⟨m', ps ++ qs, rec, chunk.trans args more fresh rest, ?_⟩
        rw [List.length_append]
        omega
      · exact .inr ⟨e, rec, (grown₂.getFailsWithin fresh fails).mono (by omega)⟩
    · left
      have all : n = pages := by omega
      refine ⟨m₂, ps, if_neg more, ?_, by omega⟩
      rw [all] at chunk
      exact chunk

theorem mmVirtualMapRec_spec {fuel phys virt pages flags : ℕ} (ok : m.Ok) (fresh : FreshSupply m)
    (args : MapArgs phys virt pages) (enough : pages < fuel) :
    (∃ m' ps, mmVirtualMapRec fuel phys virt pages flags m = .ok m' ∧
      Maps m m' ps phys virt pages flags) ∨
    ∃ e, mmVirtualMapRec fuel phys virt pages flags m = .error e ∧
      GetFailsWithin (3 * max 1 pages) m e := by
  obtain ⟨m', ps, run, maps, _⟩ | fails := mmVirtualMapRec_takes flags ok fresh args enough
  · exact .inl ⟨m', ps, run, maps⟩
  · exact .inr fails

/-! ## A page whose table exists -/

/-- A check does nothing if the table is there. -/
theorem ensureTable_of_walk {p : List ℕ} {i n x entry table : ℕ} (found : m.walk p = some n)
    (there : m.walk (i :: p) = some x) (points : Points p i entry table) (self : m.SelfMap) :
    ensureTable entry table m = .ok m := by
  rw [Mm.walk_cons, found, Option.bind_some] at there
  rw [ensureTable, Mm.load_of_translate (points.toEntry m n self found), Fallible.ok_bind,
    if_pos (Mm.childTable_eq_some.1 there).1]
  rfl

theorem Mm.SelfMap.ensureTables_of_walk {virt : ℕ} (self : m.SelfMap) (word : virt < 2 ^ 64)
    (found : m.walk (tablePath virt) = some t) : ensureTables virt m = .ok m := by
  have path1 := found
  rw [tablePath, Mm.walk_cons] at path1
  obtain ⟨t2, path2, _⟩ := Option.bind_eq_some_iff.1 path1
  have path2' := path2
  rw [Mm.walk_cons] at path2'
  obtain ⟨t3, path3, _⟩ := Option.bind_eq_some_iff.1 path2'
  rw [ensureTables, ensureTable_of_walk m.walk_nil path3 (points_pml4 word) self, Fallible.ok_bind,
    ensureTable_of_walk path3 path2 (points_pml3 word) self, Fallible.ok_bind,
    ensureTable_of_walk path2 found (points_pml2 word) self]

/-- Mapping one page writes its entry if its table is there: the allocator is not needed. -/
theorem Mm.SelfMap.map_found {phys virt : ℕ} (self : m.SelfMap) (word : virt < 2 ^ 64)
    (found : m.walk (tablePath virt) = some t) (physWord : phys < 2 ^ 64) (flags : ℕ) :
    mmVirtualMap phys virt 1 flags m = .ok (m.setEntry t (pageSlot virt) (phys ||| flags)) := by
  have slot : pageSlot virt < 512 := Nat.mod_lt _ (by decide)
  have first : Word64.add phys (0 <<< 12 % 2 ^ 64) = phys := Word64.add_eq (by simpa using physWord)
  have loop : mapLoop (mmVirtualIndices virt).pml1 phys 1 flags 513 (pageSlot virt) 0 m =
      .ok (1, m.setEntry t (pageSlot virt) (phys ||| flags)) := by
    rw [mapLoop, if_pos ⟨slot, Nat.one_pos⟩, first,
      Mm.store_of_translate (self.translate_pml1 word slot found), Fallible.ok_bind, mapLoop,
      if_neg fun more => absurd more.2 (by decide)]
  rw [mmVirtualMap, mmVirtualMapRec_succ, self.ensureTables_of_walk word found, Fallible.ok_bind,
    mmVirtualIndices_pml1i, loop, Fallible.ok_bind]
  rfl

end Vineyard

import Vineyard.Paging.Lookups

/-!
# Mapping a range piece by piece

One call of `mm_virtual_map` fills up to 512 entries before it looks at the tables again; calls for the
pieces of the range look at them each time.  They find what the one call has left there: a level-1
table that is not a table above itself stays where it is when it is filled.  So both end in the same
state, or with the same fault.
-/

namespace Vineyard

open Function

variable {m m' : Mm} {t phys virt pages flags : ℕ}

/-! ## The loop over a level-1 table -/

section Loop

variable {pml1 c mapped k fuel fuel' a b : ℕ}

theorem mapLoop_count (call : mapLoop pml1 phys pages flags fuel c mapped m = .ok (k, m')) :
    k = mapped + min (512 - c) (pages - mapped) := by
  induction fuel generalizing c mapped m with
  | zero => cases call
  | succ fuel ih =>
    rw [mapLoop] at call
    split_ifs at call with more
    · obtain ⟨m₁, _, call⟩ := Fallible.bind_eq_ok.1 call
      have := ih call
      omega
    · obtain ⟨rfl, _⟩ := Prod.mk.inj (Except.ok.inj call)
      omega

/-- The loop needs no more steps than there are entries. -/
theorem mapLoop_fuel (enough : 512 - c < fuel) (enough' : 512 - c < fuel') :
    mapLoop pml1 phys pages flags fuel c mapped m =
      mapLoop pml1 phys pages flags fuel' c mapped m := by
  induction fuel generalizing fuel' c mapped m with
  | zero => omega
  | succ fuel ih =>
    obtain ⟨fuel', rfl⟩ : ∃ n, fuel' = n + 1 := ⟨fuel' - 1, by omega⟩
    rw [mapLoop, mapLoop]
    split_ifs with more
    · exact Fallible.bind_congr_ok fun m₁ _ => ih (by omega) (by omega)
    · rfl

/-- The first `a` entries, and then the others. -/
theorem mapLoop_append (fits : c + a ≤ 512) (enough : a < fuel) :
    mapLoop pml1 phys (mapped + (a + b)) flags fuel c mapped m =
      mapLoop pml1 phys (mapped + a) flags fuel c mapped m >>= fun r =>
        mapLoop pml1 phys (mapped + (a + b)) flags (fuel - a) (c + a) (mapped + a) r.2 := by
  induction a generalizing fuel c mapped m with
  | zero =>
    obtain ⟨fuel, rfl⟩ : ∃ n, fuel = n + 1 := ⟨fuel - 1, by omega⟩
    have none : mapLoop pml1 phys (mapped + 0) flags (fuel + 1) c mapped m = .ok (mapped, m) := by
      rw [mapLoop, if_neg (by omega)]
    rw [none]
    rfl
  | succ a ih =>
    obtain ⟨fuel, rfl⟩ : ∃ n, fuel = n + 1 := ⟨fuel - 1, by omega⟩
    rw [mapLoop, if_pos (by omega), mapLoop, if_pos (by omega), bind_assoc]
    refine Fallible.bind_congr_ok fun m₁ _ => ?_
    rw [show mapped + (a + 1 + b) = mapped + 1 + (a + b) by omega,
      show mapped + (a + 1) = mapped + 1 + a by omega, show fuel + 1 - (a + 1) = fuel - a by omega,
      show c + (a + 1) = c + 1 + a by omega]
    exact ih (by omega) (by omega)

/-- When the pages reach the end of the level-1 table, the loop fills it up, however many there are. -/
theorem mapLoop_end {n : ℕ} (size : c + n = 512) (enough : n < fuel) (le : n ≤ pages) :
    mapLoop pml1 phys pages flags fuel c 0 m =
      mapLoop pml1 phys n flags fuel c 0 m >>= fun r => .ok (n, r.2) := by
  obtain ⟨more, rfl⟩ := Nat.exists_eq_add_of_le le
  have split : mapLoop pml1 phys (0 + (n + more)) flags fuel c 0 m =
      mapLoop pml1 phys (0 + n) flags fuel c 0 m >>= fun r =>
        mapLoop pml1 phys (0 + (n + more)) flags (fuel - n) (c + n) (0 + n) r.2 :=
    mapLoop_append size.le enough
  rw [Nat.zero_add, Nat.zero_add] at split
  rw [split]
  refine Fallible.bind_congr_ok fun r _ => ?_
  obtain ⟨rest, fuel_eq⟩ : ∃ k, fuel - n = k + 1 := ⟨fuel - n - 1, by omega⟩
  rw [fuel_eq, mapLoop, if_neg (by omega)]

theorem Word64.add_shift_add (x a k : ℕ) : Word64.add x ((a + k) <<< 12 % 2 ^ 64) =
    Word64.add (Word64.add x (a * 0x1000)) (k <<< 12 % 2 ^ 64) := by
  simp only [Word64.add, Nat.shiftLeft_eq]
  omega

/-- Counting on from `a` is counting from 0 with physical addresses that are as much higher. -/
theorem mapLoop_shift : mapLoop pml1 phys (a + b) flags fuel c (a + k) m =
    (mapLoop pml1 (Word64.add phys (a * 0x1000)) b flags fuel c k m).map fun r => (a + r.1, r.2) := by
  induction fuel generalizing c k m with
  | zero => rfl
  | succ fuel ih =>
    rw [mapLoop, mapLoop, Word64.add_shift_add]
    by_cases more : c < 512 ∧ k < b
    · rw [if_pos (by omega), if_pos more]
      cases m.store (entryAddr pml1 c) (Word64.add (Word64.add phys (a * 0x1000))
          (k <<< 12 % 2 ^ 64) ||| flags) with
      | error e => rfl
      | ok m₁ => exact ih (k := k + 1)
    · rw [if_neg (by omega), if_neg more]
      rfl

end Loop

/-! ## A whole call -/

/-- Any bound above the number of pages is enough for the recursion. -/
theorem mmVirtualMapRec_fuel {fuel fuel' : ℕ} (enough : pages < fuel) (enough' : pages < fuel') :
    mmVirtualMapRec fuel phys virt pages flags m = mmVirtualMapRec fuel' phys virt pages flags m := by
  induction fuel generalizing fuel' phys virt pages m with
  | zero => omega
  | succ fuel ih =>
    obtain ⟨fuel', rfl⟩ : ∃ n, fuel' = n + 1 := ⟨fuel' - 1, by omega⟩
    rw [mmVirtualMapRec_succ, mmVirtualMapRec_succ]
    refine Fallible.bind_congr_ok fun m₁ _ => Fallible.bind_congr_ok fun ⟨k, m₂⟩ loop => ?_
    have count := mapLoop_count loop
    have slot : pageSlot virt < 512 := Nat.mod_lt _ (by decide)
    rw [mmVirtualIndices_pml1i] at count
    dsimp only
    split_ifs with more
    · exact ih (by omega) (by omega)
    · rfl

theorem mmVirtualMap_eq (phys virt pages flags : ℕ) (m : Mm) :
    mmVirtualMap phys virt pages flags m = do
    let m ← ensureTables virt m
    let (mappedPages, m) ← mapLoop (mmVirtualIndices virt).pml1 phys pages flags 513
      (pageSlot virt) 0 m
    if mappedPages < pages then
      let bytes := mappedPages <<< 12 % 2 ^ 64
      mmVirtualMap (Word64.add phys bytes) (Word64.add virt bytes) (pages - mappedPages) flags m
    else return m := by
  rw [mmVirtualMap, mmVirtualMapRec_succ, mmVirtualIndices_pml1i]
  refine Fallible.bind_congr_ok fun m₁ _ => Fallible.bind_congr_ok fun r loop => ?_
  obtain ⟨k, m₂⟩ := r
  have count := mapLoop_count loop
  have slot : pageSlot virt < 512 := Nat.mod_lt _ (by decide)
  dsimp only
  split_ifs with more
  · exact mmVirtualMapRec_fuel (by omega) (by omega)
  · rfl

/-! ## The pages that a call takes -/

/-- The states in which the three checks call `mm_physical_get`. -/
inductive CheckGets (virt : ℕ) (m : Mm) : Mm → Prop where
  | pml4 {e : ℕ}
      (load : m.load (entryAddr (mmVirtualIndices virt).pml4 (mmVirtualIndices virt).pml4i) = .ok e)
      (absent : e &&& pagePresent = 0) : CheckGets virt m m
  | pml3 {m₁ : Mm} {e : ℕ}
      (first : ensureTable (entryAddr (mmVirtualIndices virt).pml4 (mmVirtualIndices virt).pml4i)
        (mmVirtualIndices virt).pml3 m = .ok m₁)
      (load : m₁.load (entryAddr (mmVirtualIndices virt).pml3 (mmVirtualIndices virt).pml3i) = .ok e)
      (absent : e &&& pagePresent = 0) : CheckGets virt m m₁
  | pml2 {m₁ m₂ : Mm} {e : ℕ}
      (first : ensureTable (entryAddr (mmVirtualIndices virt).pml4 (mmVirtualIndices virt).pml4i)
        (mmVirtualIndices virt).pml3 m = .ok m₁)
      (second : ensureTable (entryAddr (mmVirtualIndices virt).pml3 (mmVirtualIndices virt).pml3i)
        (mmVirtualIndices virt).pml2 m₁ = .ok m₂)
      (load : m₂.load (entryAddr (mmVirtualIndices virt).pml2 (mmVirtualIndices virt).pml2i) = .ok e)
      (absent : e &&& pagePresent = 0) : CheckGets virt m m₂

/-- The states in which `mm_virtual_map` calls `mm_physical_get`. -/
inductive MapGets (flags : ℕ) : ℕ → ℕ → ℕ → Mm → Mm → Prop where
  | check {phys virt pages : ℕ} {m m' : Mm} (gets : CheckGets virt m m') :
      MapGets flags phys virt pages m m'
  | rest {phys virt pages k : ℕ} {m m₁ m₂ m' : Mm} (ensure : ensureTables virt m = .ok m₁)
      (loop : mapLoop (mmVirtualIndices virt).pml1 phys pages flags 513 (pageSlot virt) 0 m₁ =
        .ok (k, m₂)) (more : k < pages)
      (gets : MapGets flags (Word64.add phys (k <<< 12 % 2 ^ 64))
        (Word64.add virt (k <<< 12 % 2 ^ 64))
        (pages - k) m₂ m') : MapGets flags phys virt pages m m'

/-- The tables of an address are there after the checks. -/
theorem Mm.Leveled.ensureTables (leveled : m.Leveled) (word : virt < 2 ^ 64)
    (outside : OutsideWindow virt) (fresh : ∀ m', CheckGets virt m m' → m'.FreshGet)
    (call : ensureTables virt m = .ok m') : m'.Leveled ∧ ∃ t, m'.walk (tablePath virt) = some t := by
  have legal1 : LegalPath (tablePath virt) := outside.legal
  have legal2 := legal1.tail
  rw [Vineyard.ensureTables] at call
  obtain ⟨m₁, first, call⟩ := Fallible.bind_eq_ok.1 call
  obtain ⟨m₂, second, third⟩ := Fallible.bind_eq_ok.1 call
  obtain ⟨leveled₁, x₁, found₁⟩ := leveled.ensureTable
    (fun e load absent => fresh m (.pml4 load absent)) legal2.tail m.walk_nil (points_pml4 word) first
  obtain ⟨leveled₂, x₂, found₂⟩ := leveled₁.ensureTable
    (fun e load absent => fresh m₁ (.pml3 first load absent)) legal2 found₁ (points_pml3 word) second
  exact leveled₂.ensureTable
    (fun e load absent => fresh m₂ (.pml2 first second load absent)) legal1 found₂ (points_pml2 word)
    third

/-! ## Two calls and one -/

/-- Whole pages outside the window to the page tables, without wrap-around. -/
structure PageRange (virt pages : ℕ) : Prop where
  aligned : virt % 0x1000 = 0
  stop : virt + pages * 0x1000 ≤ 2 ^ 64
  outside : ∀ k < pages, OutsideWindow (virt + k * 0x1000)

theorem PageRange.rest {n : ℕ} (range : PageRange virt pages) (le : n ≤ pages) :
    PageRange (virt + n * 0x1000) (pages - n) := by
  obtain ⟨aligned, stop, outside⟩ := range
  refine ⟨by omega, by omega, fun k hk => ?_⟩
  rw [Nat.add_assoc, ← Nat.add_mul]
  exact outside (n + k) (by omega)

/-- `virt + (k << 12)` -/
theorem PageRange.add_eq {k : ℕ} (range : PageRange virt pages) (lt : k < pages) :
    Word64.add virt (k <<< 12 % 2 ^ 64) = virt + k * 0x1000 := by
  have stop := range.stop
  rw [Nat.shiftLeft_eq, Nat.mod_eq_of_lt (by omega), Word64.add_eq (by omega)]

theorem Word64.add_shift (x k : ℕ) :
    Word64.add x (k <<< 12 % 2 ^ 64) = Word64.add x (k * 0x1000) := by
  simp only [Word64.add, Nat.shiftLeft_eq]
  omega

/-- The second call goes on where the first has stopped inside a level-1 table. -/
theorem mmVirtualMap_add_inside {a b : ℕ} (leveled : m.Leveled) (range : PageRange virt (a + b))
    (pos : 0 < b) (inside : pageSlot virt + a < 512)
    (fresh : ∀ m', CheckGets virt m m' → m'.FreshGet) :
    mmVirtualMap phys virt (a + b) flags m = mmVirtualMap phys virt a flags m >>=
      mmVirtualMap (Word64.add phys (a * 0x1000)) (virt + a * 0x1000) b flags := by
  have stop := range.stop
  have word : virt < 2 ^ 64 := by omega
  have outside : OutsideWindow virt := by simpa using range.outside 0 (by omega)
  rw [mmVirtualMap_eq, mmVirtualMap_eq phys virt a, bind_assoc]
  refine Fallible.bind_congr_ok fun m₁ ensure => ?_
  obtain ⟨leveled₁, t, found⟩ := leveled.ensureTables word outside fresh ensure
  obtain ⟨m₂, loop, pml4, _, other, _⟩ := mapLoop_keeps phys a flags 0 word
    (leveled₁.keeps outside found) (show pageSlot virt ≤ 512 by omega)
    (show 512 - pageSlot virt < 513 by omega)
  have all : 0 + min (512 - pageSlot virt) (a - 0) = a := by omega
  rw [all] at loop
  obtain ⟨self, found₂⟩ := leveled₁.keeps outside found m₂ pml4 other
  obtain ⟨path, slot⟩ := slot_of_page range.aligned inside
  -- The second call finds the tables and goes on in the same one.
  have again : ensureTables (virt + a * 0x1000) m₂ = .ok m₂ :=
    self.ensureTables_of_walk (by omega) (path ▸ found₂)
  have pml1 : (mmVirtualIndices (virt + a * 0x1000)).pml1 = (mmVirtualIndices virt).pml1 := by
    simp only [tablePath, List.cons.injEq, and_true] at path
    rw [mmVirtualIndices_pml1 word, mmVirtualIndices_pml1 (by omega), path.1, path.2.1, path.2.2]
  have whole : mapLoop (mmVirtualIndices virt).pml1 phys (a + b) flags 513 (pageSlot virt) 0 m₁ =
      (mapLoop (mmVirtualIndices virt).pml1 (Word64.add phys (a * 0x1000)) b flags 513
        (pageSlot virt + a) 0 m₂).map fun r => (a + r.1, r.2) := by
    have split : mapLoop (mmVirtualIndices virt).pml1 phys (0 + (a + b)) flags 513
      (pageSlot virt) 0 m₁ =
        mapLoop (mmVirtualIndices virt).pml1 phys (0 + a) flags 513 (pageSlot virt) 0 m₁ >>= fun r =>
          mapLoop (mmVirtualIndices virt).pml1 phys (0 + (a + b)) flags (513 - a) (pageSlot virt + a)
            (0 + a) r.2 := mapLoop_append inside.le (by omega)
    rw [Nat.zero_add, Nat.zero_add, loop, Fallible.ok_bind] at split
    rw [split, ← mapLoop_shift, Nat.add_zero]
    exact mapLoop_fuel (by omega) (by omega)
  rw [whole, loop, Fallible.ok_bind]
  simp only [lt_irrefl, if_false, Fallible.pure_eq_ok, Fallible.ok_bind]
  rw [mmVirtualMap_eq, again, Fallible.ok_bind, pml1, slot]
  cases mapLoop (mmVirtualIndices virt).pml1 (Word64.add phys (a * 0x1000)) b flags 513
      (pageSlot virt + a) 0 m₂ with
  | error e => rfl
  | ok r =>
    obtain ⟨k, m₃⟩ := r
    simp only [Except.map, Fallible.ok_bind]
    by_cases more : k < b
    · have rest := range.rest (show a ≤ a + b by omega)
      rw [Nat.add_sub_cancel_left] at rest
      rw [if_pos (by omega), if_pos more, Word64.add_shift_add, range.add_eq (by omega),
        rest.add_eq more, Nat.add_sub_add_left, Nat.add_mul, Nat.add_assoc]
    · rw [if_neg (by omega), if_neg more]
      rfl

theorem mapLoop_full {n : ℕ} (leveled : m.Leveled) (word : virt < 2 ^ 64)
    (outside : OutsideWindow virt) (found : m.walk (tablePath virt) = some t)
    (size : pageSlot virt + n = 512) (phys flags : ℕ) :
    ∃ m', m'.Leveled ∧ ∀ pages, n ≤ pages →
      mapLoop (mmVirtualIndices virt).pml1 phys pages flags 513 (pageSlot virt) 0 m =
        .ok (n, m') := by
  obtain ⟨m', loop, pml4, _, other, _⟩ := mapLoop_keeps phys n flags 0 word
    (leveled.keeps outside found) (show pageSlot virt ≤ 512 by omega)
    (show 512 - pageSlot virt < 513 by omega)
  refine ⟨m', (leveled.written outside found pml4 fun x _ => other x).1, fun pages le => ?_⟩
  rw [mapLoop_end size (by omega) le, loop]
  rfl

/-- **One call for a range is two calls for its parts**, wherever the cut falls. -/
theorem mmVirtualMap_add {a b : ℕ} (leveled : m.Leveled) (range : PageRange virt (a + b))
    (pos : 0 < b) (fresh : ∀ m', MapGets flags phys virt (a + b) m m' → m'.FreshGet) :
    mmVirtualMap phys virt (a + b) flags m = mmVirtualMap phys virt a flags m >>=
      mmVirtualMap (Word64.add phys (a * 0x1000)) (virt + a * 0x1000) b flags := by
  induction a using Nat.strong_induction_on generalizing phys virt m with
  | _ a ih =>
    have checks : ∀ m', CheckGets virt m m' → m'.FreshGet := fun m' gets => fresh m' (.check gets)
    by_cases inside : pageSlot virt + a < 512
    · exact mmVirtualMap_add_inside leveled range pos inside checks
    have stop := range.stop
    have word : virt < 2 ^ 64 := by omega
    have outside : OutsideWindow virt := by simpa using range.outside 0 (by omega)
    have slot : pageSlot virt < 512 := Nat.mod_lt _ (by decide)
    rw [mmVirtualMap_eq, mmVirtualMap_eq phys virt a, bind_assoc]
    refine Fallible.bind_congr_ok fun m₁ ensure => ?_
    obtain ⟨leveled₁, t, found⟩ := leveled.ensureTables word outside checks ensure
    obtain ⟨n, size⟩ : ∃ n, pageSlot virt + n = 512 := ⟨512 - pageSlot virt, by omega⟩
    obtain ⟨m₂, leveled₂, loop⟩ := mapLoop_full leveled₁ word outside found size phys flags
    rw [loop (a + b) (by omega), loop a (by omega)]
    simp only [Fallible.ok_bind]
    rw [if_pos (by omega), range.add_eq (show n < a + b by omega)]
    by_cases more : n < a
    · -- Both go on with the next table.
      have rest := range.rest (show n ≤ a + b by omega)
      rw [show a + b - n = a - n + b by omega] at rest ⊢
      rw [if_pos more]
      have fresh₂ : ∀ m', MapGets flags (Word64.add phys (n <<< 12 % 2 ^ 64)) (virt + n * 0x1000)
          (a - n + b) m₂ m' → m'.FreshGet := by
        intro m' gets
        refine fresh m' (.rest ensure (loop (a + b) (by omega)) (by omega) ?_)
        rwa [range.add_eq (show n < a + b by omega), show a + b - n = a - n + b by omega]
      have phys' : Word64.add (Word64.add phys (n <<< 12 % 2 ^ 64)) ((a - n) * 0x1000) =
          Word64.add phys (a * 0x1000) := by
        rw [Word64.add_shift, Word64.add, Word64.add, Word64.add]
        omega
      have virt' : virt + n * 0x1000 + (a - n) * 0x1000 = virt + a * 0x1000 := by omega
      rw [ih (a - n) (by omega) leveled₂ rest fresh₂, phys', virt']
    · obtain rfl : n = a := by omega
      rw [if_neg (lt_irrefl n), Nat.add_sub_cancel_left, Word64.add_shift]
      rfl

/-! ## Page by page -/

/-- Calls for one page each, `n` of them from page `i` on. -/
def mapSingly (phys virt flags : ℕ) : ℕ → ℕ → Mm → Except Fault Mm
  | 0, _, m => .ok m
  | n + 1, i, m => do
      let m ← mmVirtualMap (Word64.add phys (i * 0x1000)) (Word64.add virt (i * 0x1000)) 1 flags m
      mapSingly phys virt flags n (i + 1) m

theorem mapSingly_succ (n i : ℕ) : mapSingly phys virt flags (n + 1) i m =
    mapSingly phys virt flags n i m >>= mmVirtualMap (Word64.add phys ((i + n) * 0x1000))
      (Word64.add virt ((i + n) * 0x1000)) 1 flags := by
  induction n generalizing i m with
  | zero =>
    rw [mapSingly, mapSingly, Fallible.ok_bind, Nat.add_zero]
    exact bind_pure _
  | succ n ih =>
    rw [mapSingly, mapSingly, bind_assoc]
    refine Fallible.bind_congr_ok fun m₁ _ => ?_
    rw [ih, show i + 1 + n = i + (n + 1) by omega]

/-- A call for more pages calls `mm_physical_get` where a call for fewer pages does. -/
theorem MapGets.mono {pages' : ℕ} (le : pages ≤ pages') (gets : MapGets flags phys virt pages m m') :
    MapGets flags phys virt pages' m m' := by
  induction gets generalizing pages' with
  | check gets => exact .check gets
  | @rest phys virt pages k m m₁ m₂ m' ensure loop more gets ih =>
    have count := mapLoop_count loop
    have slot : pageSlot virt < 512 := Nat.mod_lt _ (by decide)
    have size : pageSlot virt + k = 512 := by omega
    have loop' : mapLoop (mmVirtualIndices virt).pml1 phys pages' flags 513 (pageSlot virt) 0 m₁ =
        .ok (k, m₂) := by
      rw [mapLoop_end size (by omega) (by omega), ← loop, mapLoop_end size (by omega) more.le]
    exact .rest ensure loop' (by omega) (ih (by omega))

/-- Mapping a range at once is mapping its pages one by one. -/
theorem Mm.Leveled.mmVirtualMap_singly (leveled : m.Leveled) (physWord : phys < 2 ^ 64) (n : ℕ)
    (range : PageRange virt (n + 1))
    (fresh : ∀ m', MapGets flags phys virt (n + 1) m m' → m'.FreshGet) :
    mmVirtualMap phys virt (n + 1) flags m = mapSingly phys virt flags (n + 1) 0 m := by
  have stop := range.stop
  induction n with
  | zero =>
    rw [mapSingly_succ, mapSingly, Fallible.ok_bind]
    simp only [Nat.zero_add, Nat.zero_mul]
    rw [Word64.add_eq (by omega), Word64.add_eq (by omega)]
    simp only [Nat.add_zero]
  | succ n ih =>
    have less : (n + 1) * 0x1000 ≤ (n + 1 + 1) * 0x1000 := Nat.mul_le_mul_right _ (Nat.le_succ _)
    have part : PageRange virt (n + 1) := ⟨range.aligned, (Nat.add_le_add_left less virt).trans stop,
      fun k hk => range.outside k (by omega)⟩
    have split := mmVirtualMap_add (a := n + 1) (b := 1) leveled range Nat.one_pos fresh
    have addr : Word64.add virt ((n + 1) * 0x1000) = virt + (n + 1) * 0x1000 :=
      Word64.add_eq (by omega)
    have before := ih part (fun m' gets => fresh m' (gets.mono (Nat.le_succ (n + 1)))) part.stop
    rw [split, before, mapSingly_succ (n + 1), Nat.zero_add, addr]

/-- **Mapping a range at once is mapping it piece by piece**, and page by page. -/
theorem Mm.Leveled.mmVirtualMap_piecewise {a b : ℕ} (leveled : m.Leveled) (physWord : phys < 2 ^ 64)
    (aligned : virt % 0x1000 = 0) (half : OneHalf virt (a + b))
    (outside : ∀ x, virt ≤ x → x < virt + (a + b) * 0x1000 → OutsideWindow x) (pos : 0 < b)
    (fresh : ∀ m', MapGets flags phys virt (a + b) m m' → m'.FreshGet) :
    mmVirtualMap phys virt (a + b) flags m = (mmVirtualMap phys virt a flags m >>=
      mmVirtualMap (Word64.add phys (a * 0x1000)) (virt + a * 0x1000) b flags) ∧
    mmVirtualMap phys virt (a + b) flags m = mapSingly phys virt flags (a + b) 0 m := by
  have stop : virt + (a + b) * 0x1000 ≤ 2 ^ 64 := by rcases half with half | half <;> omega
  have range : PageRange virt (a + b) := ⟨aligned, stop, fun k hk => outside _ (by omega) (by omega)⟩
  refine ⟨mmVirtualMap_add leveled range pos fresh, ?_⟩
  obtain ⟨n, size⟩ : ∃ n, a + b = n + 1 := ⟨a + b - 1, by omega⟩
  rw [size] at range fresh ⊢
  exact leveled.mmVirtualMap_singly physWord n range fresh

/-! ## Tables that form a tree -/

theorem FreshSupply.freshGet (fresh : FreshSupply m) : m.FreshGet := by
  refine fun t window => ⟨(fresh t window).frames, fun page s get => ?_⟩
  have one : getMany 1 (m.pmm t) = .ok ([page], s) := by
    rw [getMany, get]
    rfl
  obtain ⟨phys, notTable, _⟩ := (fresh t window).pages 1 [page] s one page (by simp)
  exact ⟨phys, notTable⟩

theorem Mm.Ok.grown_of_ensureTable {p : List ℕ} {i n entry table : ℕ} (ok : m.Ok)
    (fresh : FreshSupply m) (indices : ∀ j ∈ i :: p, j < 512) (short : p.length ≤ 2)
    (found : m.walk p = some n) (points : Points p i entry table)
    (call : Vineyard.ensureTable entry table m = .ok m') :
    ∃ ps x, Grown m m' ps ∧ m'.walk (i :: p) = some x := by
  obtain ⟨m₁, ps, x, run, grown, _, found'⟩ | ⟨e, run, _⟩ :=
    ok.ensureTable_any fresh indices short found points
  · obtain rfl : m₁ = m' := Except.ok.inj (run.symm.trans call)
    exact ⟨ps, x, grown, found'⟩
  · rw [run] at call
    cases call

theorem Mm.Ok.checkGets_fresh (ok : m.Ok) (fresh : FreshSupply m) (word : virt < 2 ^ 64)
    (gets : CheckGets virt m m') : m'.FreshGet := by
  have lt3 : ∀ j ∈ [virt / 2 ^ 39 % 512], j < 512 := by simpa using mod_512_lt _
  have lt2 : ∀ j ∈ [virt / 2 ^ 30 % 512, virt / 2 ^ 39 % 512], j < 512 :=
    List.forall_mem_cons.2 ⟨mod_512_lt _, lt3⟩
  cases gets with
  | pml4 => exact fresh.freshGet
  | pml3 first =>
    obtain ⟨ps, _, grown, _⟩ :=
      ok.grown_of_ensureTable fresh lt3 (by simp) m.walk_nil (points_pml4 word) first
    exact (grown.supply fresh).freshGet
  | pml2 first second =>
    obtain ⟨ps, _, grown, found⟩ :=
      ok.grown_of_ensureTable fresh lt3 (by simp) m.walk_nil (points_pml4 word) first
    obtain ⟨qs, _, grown', _⟩ :=
      grown.ok.grown_of_ensureTable (grown.supply fresh) lt2 (by simp) found
      (points_pml3 word) second
    exact (grown'.supply (grown.supply fresh)).freshGet

theorem MapArgs.take {k : ℕ} (args : MapArgs phys virt pages) (le : k ≤ pages) :
    MapArgs phys virt k := by
  have less : k * 0x1000 ≤ pages * 0x1000 := Nat.mul_le_mul_right _ le
  exact ⟨args.aligned, args.start, (Nat.add_le_add_left less virt).trans args.stop,
    le.trans args.half,
    fun j hj => args.physStop j (hj.trans_le le), fun j hj => args.outside j (hj.trans_le le)⟩

/-- When the tables form a tree, all pages that a call takes are fresh if the allocator's pages are. -/
theorem Mm.Ok.mapGets_fresh (ok : m.Ok) (fresh : FreshSupply m) (args : MapArgs phys virt pages)
    (gets : MapGets flags phys virt pages m m') : m'.FreshGet := by
  induction gets with
  | check gets => exact ok.checkGets_fresh fresh args.start gets
  | @rest phys virt pages k m m₁ m₂ m' ensure loop more gets ih =>
    have count := mapLoop_count loop
    have slot : pageSlot virt < 512 := Nat.mod_lt _ (by decide)
    have size : pageSlot virt + k = 512 := by omega
    -- The first table is what a call for its pages alone fills.
    have run : mmVirtualMap phys virt k flags m = .ok m₂ := by
      rw [mapLoop_end size (by omega) more.le] at loop
      obtain ⟨⟨j, m₃⟩, part, same⟩ := Fallible.bind_eq_ok.1 loop
      obtain ⟨_, rfl⟩ := Prod.mk.inj (Except.ok.inj same)
      have all := mapLoop_count part
      rw [mmVirtualMap_eq, ensure, Fallible.ok_bind, part, Fallible.ok_bind]
      exact if_neg (by omega)
    have stop := args.stop
    have physStop := args.physStop k more
    have bytes : k <<< 12 % 2 ^ 64 = k * 0x1000 := by
      rw [Nat.shiftLeft_eq]
      omega
    rw [bytes, Word64.add_eq physStop, Word64.add_eq (by omega)] at ih
    obtain ⟨m₃, ps, run', maps⟩ | ⟨e, run', _⟩ :=
      mmVirtualMapRec_spec ok fresh (args.take more.le) (Nat.lt_succ_self k)
    · obtain rfl : m₂ = m₃ := Except.ok.inj (run.symm.trans run')
      have grown := maps.grown fun j hj => Ne.symm (args.ne_stackAddr (by omega))
      exact ih grown.ok (grown.supply fresh) (args.rest more)
    · rw [show mmVirtualMapRec (Nat.succ k) phys virt k flags m = .ok m₂ from run] at run'
      cases run'

/-- Two pages in different level-1 tables. -/
theorem Mm.Leveled.mmVirtualMap_piecewise_boot :
    mmVirtualMap 0x800000 0xFFFFFE00001FF000 (1 + 1) 3 bootMm =
      (mmVirtualMap 0x800000 0xFFFFFE00001FF000 1 3 bootMm >>=
        mmVirtualMap (Word64.add 0x800000 (1 * 0x1000)) (0xFFFFFE00001FF000 + 1 * 0x1000) 1 3) ∧
    mmVirtualMap 0x800000 0xFFFFFE00001FF000 (1 + 1) 3 bootMm =
      mapSingly 0x800000 0xFFFFFE00001FF000 3 (1 + 1) 0 bootMm := by
  have outside : ∀ x, 0xFFFFFE00001FF000 ≤ x → x < 0xFFFFFE00001FF000 + (1 + 1) * 0x1000 →
      OutsideWindow x := by
    intro x low high
    simp only [OutsideWindow]
    omega
  have args : MapArgs 0x800000 0xFFFFFE00001FF000 (1 + 1) :=
    ⟨by decide, by decide, by decide, by decide, by
      omega, fun k hk => outside _ (by omega) (by omega)⟩
  exact bootMm_ok.leveled.mmVirtualMap_piecewise (by decide) (by decide)
    (by decide) outside (by decide)
    fun m' gets => bootMm_ok.mapGets_fresh bootMm_serves.fresh args gets

/-! ## Tables on two levels -/

/-- Memory in which one page is the level-3, the level-2 and the level-1 table of address 0. -/
def aliasMm : Mm := (bootMm.setEntry 0x1000 0 0x7003).setEntry 0x7000 0 0x7003

theorem aliasMm_serves : aliasMm.Serves 0x4000 [(0x5000, bootPages)] :=
  serves_of_tablesIn (L := bootTables ++ [([0], 0x7000), ([0, 0], 0x7000), ([0, 0, 0], 0x7000)])
    (by decide +kernel) (by decide +kernel)
    ⟨.root (by decide +kernel) (by decide), by decide, layout_ok_root⟩ (by simp) (by decide)

/-- Memory whose level-4 table is page 0 and whose root stack, with four pages left, is a level-2
table: its counter is an entry, which points to page 0 once three pages are left. -/
def stackTableMm : Mm :=
  let top := update (bootMm.mem 0x1000) 510 0x3
  let m : Mm := { bootMm with pml4 := 0, mem := update bootMm.mem 0 top }
  ((m.setEntry 0 0 0x7003).setEntry 0x7000 0 0x5003).setEntry 0x5000 2 4

def stackTables : List (List ℕ × ℕ) :=
  [([], 0), ([509], 0x2000), ([511, 509], 0x3000), ([511, 511, 509], 0x4000), ([0], 0x7000),
    ([0, 0], 0x5000)]

theorem stackTableMm_tables : stackTableMm.tablesIn stackTables = true := by decide +kernel

theorem stackTableMm_ok : stackTableMm.Ok := .of_tablesIn (by decide) stackTableMm_tables (by decide)

theorem stackTableMm_pages {k : ℕ} {ps : List ℕ} {s : Pmm}
    (call : stackTableMm.physicalGets k = .ok (ps, s)) :
    ps.Nodup ∧ ∀ p ∈ ps, PhysPage p ∧ ¬ stackTableMm.IsTable p := by
  have layout : Layout.Ok [(0x5000, [0x100000, 0x101000, 0x102000, 0x103000])] :=
    ⟨by decide, by decide, by decide, by simp⟩
  have holds : (stackTableMm.pmm 0x4000).Holds [(0x5000, [0x100000, 0x101000, 0x102000, 0x103000])] :=
    ⟨.root (by decide +kernel) (by decide), by decide, layout⟩
  exact Mm.gets_notTable stackTableMm_tables (by decide +kernel) holds (by decide) call

theorem ne_of_isOk {x y : Except Fault Mm} (ne : x.isOk ≠ y.isOk) : x ≠ y := fun e => ne (e ▸ rfl)

/-- The second page is not mapped: filling the first entry has cut off the table. -/
theorem not_mmVirtualMap_piecewise :
    (aliasMm.SelfMap ∧ FreshSupply aliasMm ∧
      mmVirtualMap 0x800000 0 (1 + 1) 0 aliasMm ≠
        (mmVirtualMap 0x800000 0 1 0 aliasMm >>= mmVirtualMap 0x801000 0x1000 1 0)) ∧
    (stackTableMm.Ok ∧ (∀ k ps s, stackTableMm.physicalGets k = .ok (ps, s) →
        ps.Nodup ∧ ∀ p ∈ ps, PhysPage p ∧ ¬ stackTableMm.IsTable p) ∧
      mmVirtualMap 0x800000 0x3FF000 (2 + 1) 0 stackTableMm ≠
        (mmVirtualMap 0x800000 0x3FF000 2 0 stackTableMm >>= mmVirtualMap 0x802000 0x401000 1 0)) :=
  ⟨⟨by decide, aliasMm_serves.fresh, ne_of_isOk (by decide +kernel)⟩,
    stackTableMm_ok, fun _ _ _ => stackTableMm_pages, ne_of_isOk (by decide +kernel)⟩

end Vineyard

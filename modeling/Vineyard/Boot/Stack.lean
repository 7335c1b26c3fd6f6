import Vineyard.Boot.Memory
import Vineyard.Mman.Runs

/-!
# The stack of the page allocator after `mm_physical_init_stack`

The three checks link pages of the kernel image into the boot loader's page tables (`Extends`); then
the root stack is mapped and empty.  No other address is mapped differently.
-/

namespace Vineyard

open Function

variable {m m' : Mm} {t : ℕ} {static at_ : StaticPages}

/-- The pages from the first table to the root stack. -/
def StaticPages.list (s : StaticPages) : List ℕ :=
  [s.stackPml3, s.stackPml2, s.stackPml1, s.rootStack]

/-- What the boot loader hands over: page tables with slot 510 set, and the static arrays in physical
pages of their own, of which that of `root_stack` is zero. -/
structure HandedOver (m : Mm) (static at_ : StaticPages) : Prop where
  ok : m.Ok
  plain : ∀ a ∈ static.list, Plain a ∧ a < 2 ^ 64 ∧ a % 0x1000 = 0
  mapped : List.Forall₂ (fun a p => m.translate a = .ok p) static.list at_.list
  nodup : at_.list.Nodup
  phys : ∀ p ∈ at_.list, PhysPage p
  notTable : ∀ p ∈ at_.list, ¬ m.IsTable p
  rootZero : ∀ i, m.mem at_.rootStack i = 0

/-- The pages `new` have become tables; all addresses are mapped as before. -/
structure Extends (m m' : Mm) (new : List ℕ) : Prop where
  ok : m'.Ok
  walk : ∀ p x, LegalPath p → m.walk p = some x → m'.walk p = some x
  isTable : ∀ x, m'.IsTable x ↔ m.IsTable x ∨ x ∈ new
  pte : ∀ b, OutsideWindow b → m'.pte b = m.pte b
  other : ∀ x, ¬ m'.IsTable x → m'.mem x = m.mem x

theorem Extends.refl (ok : m.Ok) : Extends m m [] :=
  ⟨ok, fun _ _ _ found => found, by simp, fun _ _ => rfl, fun _ _ => rfl⟩

theorem Extends.trans {m'' : Mm} {new new' : List ℕ} (h : Extends m m' new)
    (h' : Extends m' m'' new') :
    Extends m m'' (new ++ new') := by
  refine ⟨h'.ok, fun p x legal found => h'.walk p x legal (h.walk p x legal found), fun x => ?_,
    fun b outside => (h'.pte b outside).trans (h.pte b outside), fun x notTable => ?_⟩
  · rw [h'.isTable, h.isTable, List.mem_append, or_assoc]
  · rw [h'.other x notTable, h.other x fun table => notTable ((h'.isTable x).2 (.inl table))]

theorem Extends.translate {new : List ℕ} {a p : ℕ} (h : Extends m m' new) (outside : OutsideWindow a)
    (found : m.translate a = .ok p) : m'.translate a = .ok p := by
  rw [Mm.translate_congr (h.pte a outside), found]

/-- One check: the table is there afterwards, and if it was not, it is the static page. -/
theorem Mm.Ok.ensureStaticTable {p : List ℕ} {i n entry table a page : ℕ} (ok : m.Ok)
    (legal : LegalPath (i :: p)) (found : m.walk p = some n) (points : Points p i entry table)
    (word : a < 2 ^ 64) (mapped : m.translate a = .ok page) (phys : PhysPage page)
    (fresh : ¬ m.IsTable page) :
    ∃ m' new x, ensureStaticTable entry table a m = .ok m' ∧ Extends m m' new ∧ new ⊆ [page] ∧
      m'.walk (i :: p) = some x := by
  have path := m.walk_cons i p
  rw [found, Option.bind_some] at path
  rw [Vineyard.ensureStaticTable, Mm.load_of_translate (points.toEntry m n ok.self found),
    Fallible.ok_bind]
  cases present : childTable (m.mem n i) with
  | some x =>
    rw [if_pos (Mm.childTable_eq_some.1 present).1]
    exact ⟨m, [], x, rfl, .refl ok, by simp, path.trans present⟩
  | none =>
    rw [if_neg (by simpa using Mm.childTable_eq_none.1 present),
      ok.self.getPhys_of_translate word mapped, Fallible.ok_bind]
    obtain ⟨ok', walks, isTable⟩ := ok.graft legal found present phys fresh
    refine ⟨m.graft n i page, [page], page, ok.leveled.store_clear legal found phys points,
      ⟨ok', fun q x legalQ at_ => ?_, by simpa using isTable, fun b outside =>
        ok.graft_pte legal found present phys fresh outside, fun x notTable => ?_⟩,
      List.Subset.refl _, by rw [walks _ legal, if_pos rfl]⟩
    · have ne : q ≠ i :: p := by
        rintro rfl
        rw [path, present] at at_
        cases at_
      rw [walks q legalQ, if_neg ne, at_]
    · have xp : x ≠ page := fun e => notTable ((isTable x).2 (.inr e))
      have xn : x ≠ n := fun e =>
        notTable ((isTable x).2 (.inl (e ▸ Mm.isTable_of_walk legal.tail found)))
      simp [Mm.graft, Mm.setEntry, xp, xn]

/-- The three checks of `mm_physical_init_stack`. -/
def ensureStackTables (static : StaticPages) (m : Mm) : Except Fault Mm := do
  let i := mmVirtualIndices stackAddr
  let m ← ensureStaticTable (entryAddr i.pml4 i.pml4i) i.pml3 static.stackPml3 m
  let m ← ensureStaticTable (entryAddr i.pml3 i.pml3i) i.pml2 static.stackPml2 m
  ensureStaticTable (entryAddr i.pml2 i.pml2i) i.pml1 static.stackPml1 m

/-- The allocator's level-1 table is there afterwards. -/
theorem HandedOver.ensureStackTables (h : HandedOver m static at_) :
    ∃ m' new t, ensureStackTables static m = .ok m' ∧ Extends m m' new ∧
      new ⊆ [at_.stackPml3, at_.stackPml2, at_.stackPml1] ∧ m'.walk stackPath = some t := by
  have word : stackAddr < 2 ^ 64 := by decide
  have legal1 : LegalPath stackPath := stackPath_legal
  obtain ⟨plain3, plain2, plain1, _⟩ := by simpa [StaticPages.list] using h.plain
  obtain ⟨phys3, phys2, phys1, _⟩ := by simpa [StaticPages.list] using h.phys
  obtain ⟨not3, not2, not1, _⟩ := by simpa [StaticPages.list] using h.notTable
  obtain ⟨at3, at2, at1, _⟩ := by simpa [StaticPages.list] using h.mapped
  obtain ⟨⟨ne32, ne31, _⟩, ⟨ne21, _⟩, _⟩ := by simpa [StaticPages.list] using h.nodup
  rw [Vineyard.ensureStackTables]
  obtain ⟨m₁, new₁, x₁, run₁, ext₁, sub₁, found₁⟩ :=
    h.ok.ensureStaticTable legal1.tail.tail m.walk_nil
    (points_pml4 word) plain3.2.1 at3 phys3 not3
  rw [run₁, Fallible.ok_bind]
  have not2' : ¬ m₁.IsTable at_.stackPml2 := fun table => by
    rcases (ext₁.isTable _).1 table with old | new
    · exact not2 old
    · exact ne32 (List.mem_singleton.1 (sub₁ new)).symm
  obtain ⟨m₂, new₂, x₂, run₂, ext₂, sub₂, found₂⟩ := ext₁.ok.ensureStaticTable legal1.tail found₁
    (points_pml3 word) plain2.2.1 (ext₁.translate plain2.1.outside at2) phys2 not2'
  rw [run₂, Fallible.ok_bind]
  have both := ext₁.trans ext₂
  have not1' : ¬ m₂.IsTable at_.stackPml1 := fun table => by
    rcases (both.isTable _).1 table with old | new
    · exact not1 old
    rcases List.mem_append.1 new with new | new
    · exact ne31 (List.mem_singleton.1 (sub₁ new)).symm
    · exact ne21 (List.mem_singleton.1 (sub₂ new)).symm
  obtain ⟨m₃, new₃, t, run₃, ext₃, sub₃, found₃⟩ := ext₂.ok.ensureStaticTable legal1 found₂
    (points_pml2 word) plain1.2.1 (both.translate plain1.1.outside at1) phys1 not1'
  refine ⟨m₃, _, t, run₃, both.trans ext₃, ?_, found₃⟩
  intro x hx
  rcases List.mem_append.1 hx with hx | hx
  · rcases List.mem_append.1 hx with hx | hx
    · simp [List.mem_singleton.1 (sub₁ hx)]
    · simp [List.mem_singleton.1 (sub₂ hx)]
  · simp [List.mem_singleton.1 (sub₃ hx)]

/-- What `mm_physical_init_stack` does with the root stack. -/
def mapRootStack (rootStack : ℕ) (m : Mm) : Except Fault Mm := do
  let root ← mmVirtualGetPhys rootStack m
  let m ← mmVirtualMap root stackAddr 1 (pagePresent ||| pageWrite) { m with root := root }
  let m ← m.store (entryAddr mmPhysicalStackPml1 511) (root ||| pagePresent ||| pageWrite)
  m.store rootStack 0

theorem Mm.physicalInitStack_eq (static : StaticPages) (m : Mm) :
    m.physicalInitStack static = ensureStackTables static m >>= mapRootStack static.rootStack := by
  simp only [Mm.physicalInitStack, ensureStackTables, bind_assoc]
  rfl

/-- The state of the page allocator is that of `mmPhysicalInitStack`. -/
theorem Mm.agree_initStack {root : ℕ} (isRoot : m.root = root)
    (entry : m.mem t 511 = root ||| pagePresent ||| pageWrite) (zero : m.mem root = fun _ => 0) :
    Pmm.AgreeOn {root} (mmPhysicalInitStack (m.pmm t)) (m.pmm t) := by
  refine ⟨?_, fun f hf => ?_⟩
  · show m.mem t 511 = update (m.mem t) 511 (m.root ||| pagePresent ||| pageWrite) 511
    rw [update_self, entry, isRoot]
  · obtain rfl : f = root := hf
    show PhysicalStack.ofPage (m.mem f) =
      update (fun p => PhysicalStack.ofPage (m.mem p)) m.root PhysicalStack.zero f
    rw [zero, isRoot, update_self]
    rfl

/-- The root stack is mapped at `STACK_ADDR`, and the second write to the entry changes nothing. -/
theorem Mm.Ok.mapRootStack {rootStack root : ℕ} (ok : m.Ok) (found : m.walk stackPath = some t)
    (plain : Plain rootStack) (word : rootStack < 2 ^ 64) (aligned : rootStack % 0x1000 = 0)
    (mapped : m.translate rootStack = .ok root) (phys : PhysPage root) (notTable : ¬ m.IsTable root)
    (zero : ∀ i, m.mem root i = 0) :
    ∃ m', mapRootStack rootStack m = .ok m' ∧ m'.Accounts t [(root, [])] [] ∧
      (∀ x, m'.IsTable x ↔ m.IsTable x) ∧ ∀ b, Plain b → m'.pte b = m.pte b := by
  have stackWord : stackAddr < 2 ^ 64 := by decide
  have slot : pageSlot stackAddr = 511 := by decide
  rw [stackPath_eq] at found
  have ok₁ : Mm.Ok { m with root := root } := ⟨ok.self, ok.tree⟩
  have map := ok₁.self.map_found stackWord found (phys.bounded.trans (by decide))
    (pagePresent ||| pageWrite)
  obtain ⟨same, _, ptes⟩ :=
    ok₁.setEntry stackAddr_outside found (root ||| (pagePresent ||| pageWrite))
  rw [slot, ← Nat.or_assoc] at map same ptes
  set m₂ := Mm.setEntry { m with root := root } t 511 (root ||| pagePresent ||| pageWrite) with hm₂
  have found₂ : m₂.walk (tablePath stackAddr) = some t :=
    (same.walk _ stackAddr_outside.legal).trans found
  have next : m₂.store (entryAddr (mmVirtualIndices stackAddr).pml1 511)
    (root ||| pagePresent ||| pageWrite) =
      .ok (m₂.setEntry t 511 (root ||| pagePresent ||| pageWrite)) := Mm.store_of_translate
    (same.ok.self.translate_pml1 stackWord (show 511 < 512 by decide) found₂)
  have again : m₂.setEntry t 511 (root ||| pagePresent ||| pageWrite) = m₂ := by
    simp [hm₂, Mm.setEntry]
  have mapped₂ : m₂.translate rootStack = .ok root := by
    rw [Mm.translate_congr (ptes _ plain.outside plain.ne_stackAddr)]
    exact mapped
  have memset : m₂.store rootStack 0 = .ok (m₂.setEntry root 0 0) :=
    Mm.store_of_translate ⟨mapped₂, by omega⟩
  have notTable₂ : ¬ m₂.IsTable root := fun table => notTable (same.isTable.1 table)
  obtain ⟨same', other, ptes'⟩ := same.ok.setEntry_other notTable₂ 0 0
  have rt : root ≠ t := fun e => notTable (e ▸ Mm.isTable_of_walk stackAddr_outside.legal found)
  set m₃ := m₂.setEntry root 0 0 with hm₃
  have isRoot : m₃.root = root := rfl
  have entry : m₃.mem t 511 = root ||| pagePresent ||| pageWrite := by
    rw [other t rt.symm]
    simp [hm₂, Mm.setEntry]
  have cleared : m₃.mem root = fun _ => 0 := by
    funext i
    simp [hm₃, hm₂, Mm.setEntry, update_of_ne rt, update_apply, zero i]
  have holds := (mmPhysicalInitStack_holds (s := m₃.pmm t) (show PhysPage m₃.root from phys)).agree
    (Mm.agree_initStack isRoot entry cleared) rfl (by simp [Mm.pmm, isRoot])
  have window : m₃.window = .ok t := by
    rw [same'.ok.self.window_eq_ok, entry, stackPath_eq, same'.walk _ stackAddr_outside.legal]
    exact ⟨found₂, present_of_or _⟩
  refine ⟨m₃, ?_, ⟨same'.ok, ⟨window, holds, ?_⟩, .nil, by simp, by simp, by simp⟩, fun x => ?_,
    fun b plainB => ?_⟩
  · rw [Vineyard.mapRootStack, ok.self.getPhys_of_translate word mapped, Fallible.ok_bind, map,
      Fallible.ok_bind, mmPhysicalStackPml1, next, Fallible.ok_bind, again, memset]
  · intro x hx table
    obtain rfl : x = root := by simpa [Mm.pmm, isRoot] using hx
    exact notTable₂ (same'.isTable.1 table)
  · rw [same'.isTable, same.isTable]
    rfl
  · rw [ptes' b plainB.outside, ptes b plainB.outside plainB.ne_stackAddr]
    rfl

/-- Afterwards the allocator has the empty root stack, and all other addresses are mapped as before. -/
theorem HandedOver.physicalInitStack (h : HandedOver m static at_) :
    ∃ m' new t, m.physicalInitStack static = .ok m' ∧ m'.Accounts t [(at_.rootStack, [])] [] ∧
      new ⊆ [at_.stackPml3, at_.stackPml2, at_.stackPml1] ∧
      (∀ x, m'.IsTable x ↔ m.IsTable x ∨ x ∈ new) ∧ ∀ b, Plain b → m'.pte b = m.pte b := by
  obtain ⟨m₁, new, t, run, ext, sub, found⟩ := h.ensureStackTables
  obtain ⟨_, _, _, plain, word, aligned⟩ := by simpa [StaticPages.list] using h.plain
  obtain ⟨_, _, _, phys⟩ := by simpa [StaticPages.list] using h.phys
  obtain ⟨_, _, _, notRoot⟩ := by simpa [StaticPages.list] using h.notTable
  obtain ⟨_, _, _, atRoot⟩ := by simpa [StaticPages.list] using h.mapped
  obtain ⟨⟨_, _, ne3⟩, ⟨_, ne2⟩, ne1⟩ := by simpa [StaticPages.list] using h.nodup
  have notNew : at_.rootStack ∉ [at_.stackPml3, at_.stackPml2, at_.stackPml1] := by
    simp [Ne.symm ne3, Ne.symm ne2, Ne.symm ne1]
  have notTable : ¬ m₁.IsTable at_.rootStack := fun table =>
    ((ext.isTable _).1 table).elim notRoot fun mem => notNew (sub mem)
  have zero : ∀ i, m₁.mem at_.rootStack i = 0 := fun i => by rw [ext.other _ notTable, h.rootZero]
  obtain ⟨m', map, accounts, tables, ptes⟩ := ext.ok.mapRootStack found plain word aligned
    (ext.translate plain.outside atRoot) phys notTable zero
  refine ⟨m', new, t, ?_, accounts, sub, fun x => (tables x).trans (ext.isTable x),
    fun b plainB => ?_⟩
  · rw [Mm.physicalInitStack_eq, run, Fallible.ok_bind, map]
  · rw [ptes b plainB, ext.pte b plainB.outside]

end Vineyard

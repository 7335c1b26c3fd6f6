import Vineyard.Paging.Walks
import Vineyard.Physical.Reads

/-!
# Levels of page tables

Slot 510 points to the level-4 table, and no page serves as a table on two levels (`Mm.Leveled`).  Then
writes to a level-1 table keep all tables where they are.  So does a call of `mm_physical_get`, unless
a stack that it reads is a page table, and the page it returns can be linked in as a new table.
-/

namespace Vineyard

open Function

/-- The page holds a page table in use. -/
def Mm.IsTable (m : Mm) (page : ℕ) : Prop := Radix.Reaches childTable m.mem m.pml4 LegalPath page

/-- The address does not lie in the window to the page tables. -/
def OutsideWindow (addr : ℕ) : Prop := addr / 2 ^ 39 % 512 ≠ 510

instance (addr : ℕ) : Decidable (OutsideWindow addr) :=
  inferInstanceAs (Decidable (addr / 2 ^ 39 % 512 ≠ 510))

/-- The virtual page of an address, as the MMU sees it. -/
def pageNumber (addr : ℕ) : ℕ := addr / 2 ^ 12 % 2 ^ 36

theorem pageNumber_eq_iff {a b : ℕ} :
    pageNumber a = pageNumber b ↔ tablePath a = tablePath b ∧ pageSlot a = pageSlot b := by
  simp only [pageNumber, tablePath, pageSlot, List.cons.injEq, and_true]
  omega

variable {m m' : Mm} {a t : ℕ}

theorem OutsideWindow.legal (h : OutsideWindow a) : LegalPath (tablePath a) := legalPath_tablePath h

theorem Mm.isTable_of_walk {p : List ℕ} (legal : LegalPath p) (found : m.walk p = some t) :
    m.IsTable t :=
  ⟨p, legal, found⟩

theorem Mm.isTable_pml4 (m : Mm) : m.IsTable m.pml4 := ⟨[], legalPath_nil, rfl⟩

/-- Slot 510 points to the level-4 table, and no page is a table on two levels. -/
structure Mm.Leveled (m : Mm) : Prop where
  self : m.SelfMap
  levels : Radix.Leveled childTable m.mem m.pml4 LegalPath

/-! ## Writes to level-1 tables -/

/-- Writing to one level-1 table keeps all tables in place. -/
theorem Mm.Leveled.written (leveled : m.Leveled) (outside : OutsideWindow a)
    (found : m.walk (tablePath a) = some t) (pml4 : m'.pml4 = m.pml4)
    (other : ∀ x, m.IsTable x → x ≠ t → m'.mem x = m.mem x) :
    m'.Leveled ∧ ∀ p, LegalPath p → m'.walk p = m.walk p := by
  have legal := outside.legal
  have entries : ∀ x j, m.IsTable x → x ≠ t → m'.mem x j = m.mem x j := fun x j table ne => by
    rw [other x table ne]
  have walks := leveled.levels.walk_setLeaves found legal (fun _ _ => not_legalPath_cons) entries
  have top : m.pml4 ≠ t := by
    rintro rfl
    have := leveled.levels.level [] (tablePath a) m.pml4 legalPath_nil legal rfl found
    simp [tablePath] at this
  refine ⟨⟨?_, ?_⟩, ?_⟩
  · rw [Mm.SelfMap, pml4, other _ m.isTable_pml4 top]
    exact leveled.self
  · rw [pml4]
    exact leveled.levels.congr walks
  · intro p legal
    rw [Mm.walk, pml4]
    exact walks p legal

/-- Whatever is written to the page `t`, it stays the level-1 table of the address. -/
def Mm.Keeps (m : Mm) (addr t : ℕ) : Prop :=
  ∀ m' : Mm, m'.pml4 = m.pml4 → (∀ x, x ≠ t → m'.mem x = m.mem x) →
    m'.SelfMap ∧ m'.walk (tablePath addr) = some t

theorem Mm.Keeps.of_written (keeps : m.Keeps a t) (pml4 : m'.pml4 = m.pml4)
    (other : ∀ x, x ≠ t → m'.mem x = m.mem x) : m'.Keeps a t :=
  fun _ pml4' other' => keeps _ (pml4'.trans pml4) fun x ne => (other' x ne).trans (other x ne)

theorem Mm.Leveled.keeps (leveled : m.Leveled) (outside : OutsideWindow a)
    (found : m.walk (tablePath a) = some t) : m.Keeps a t := by
  intro m' pml4 other
  obtain ⟨leveled', walks⟩ := leveled.written outside found pml4 fun x _ ne => other x ne
  exact ⟨leveled'.self, (walks _ outside.legal).trans found⟩

/-! ## The allocator of physical pages -/

/-- The path to the level-1 table of the allocator's stack. -/
def stackPath : List ℕ := [511, 511, 509]

theorem stackPath_eq : stackPath = tablePath stackAddr := by decide

theorem stackAddr_outside : OutsideWindow stackAddr := by decide

theorem stackPath_legal : LegalPath stackPath := stackPath_eq ▸ stackAddr_outside.legal

/-- The allocator's table is there when the stack at `STACK_ADDR` is mapped. -/
theorem Mm.SelfMap.window_eq (self : m.SelfMap) :
    m.window = match m.walk (511 :: stackPath), m.walk stackPath with
      | some _, some t => .ok t
      | _, _ => .error (.pageFault stackAddr) := by
  have atStack : [stackAddr / 2 ^ 12 % 512, stackAddr / 2 ^ 21 % 512, stackAddr / 2 ^ 30 % 512,
      stackAddr / 2 ^ 39 % 512] = 511 :: stackPath := by decide
  have atTable : [mmPhysicalStackPml1 / 2 ^ 12 % 512, mmPhysicalStackPml1 / 2 ^ 21 % 512,
      mmPhysicalStackPml1 / 2 ^ 30 % 512, mmPhysicalStackPml1 / 2 ^ 39 % 512] =
      stackPath ++ [510] := by decide
  rw [Mm.window, Mm.translate, Mm.translate, atStack, atTable, self.walk_window]
  have path := m.walk_cons 511 stackPath
  cases table : m.walk stackPath with
  | none =>
    rw [table, Option.bind_none] at path
    rw [path]
    rfl
  | some t => cases m.walk (511 :: stackPath) <;> rfl

theorem Mm.SelfMap.window_eq_ok (self : m.SelfMap) :
    m.window = .ok t ↔ m.walk stackPath = some t ∧ m.mem t 511 &&& pagePresent ≠ 0 := by
  have path := m.walk_cons 511 stackPath
  rw [self.window_eq, path]
  cases table : m.walk stackPath with
  | none => simp
  | some x =>
    rw [Option.bind_some]
    cases present : childTable (m.mem x 511) with
    | none =>
      have := Mm.childTable_eq_none.1 present
      simp only [reduceCtorEq, Option.some.injEq, false_iff, not_and, not_not]
      rintro rfl
      exact this
    | some y =>
      have := (Mm.childTable_eq_some.1 present).1
      simp only [Except.ok.injEq, Option.some.injEq]
      constructor
      · rintro rfl
        exact ⟨rfl, this⟩
      · exact fun h => h.1

theorem Mm.SelfMap.window_eq_error (self : m.SelfMap) {e : Fault} (h : m.window = .error e) :
    e = .pageFault stackAddr := by
  rw [self.window_eq] at h
  split at h
  · cases h
  · injection h with h
    exact h.symm

theorem Mm.physicalGet_eq (window : m.window = .ok t) :
    m.physicalGet = (mmPhysicalGet (m.pmm t)).map fun r => (r.1, m.setPmm t r.2) := by
  rw [Mm.physicalGet, window]
  simp only [Fallible.ok_bind]
  cases mmPhysicalGet (m.pmm t) <;> rfl

@[simp] theorem Mm.setPmm_mem_self (m : Mm) (t : ℕ) (s : Pmm) : (m.setPmm t s).mem t = s.pml1 := by
  simp [Mm.setPmm]

theorem Mm.setPmm_mem_of_ne {x : ℕ} (ne : x ≠ t) (s : Pmm) :
    (m.setPmm t s).mem x = (s.frame x).toPage := by
  simp [Mm.setPmm, ne]

/-- What `mm_physical_get` would return now is a physical page; neither it nor a stack that is read on
the way is a page table in use. -/
def Mm.FreshGet (m : Mm) : Prop :=
  ∀ t, m.window = .ok t → (∀ f, (m.pmm t).Visits f → ¬ m.IsTable f) ∧
    ∀ page s, mmPhysicalGet (m.pmm t) = .ok (page, s) → PhysPage page ∧ ¬ m.IsTable page

/-- A call of `mm_physical_get` keeps the tables in place. -/
theorem Mm.Leveled.physicalGet {page : ℕ} {s : Pmm} (leveled : m.Leveled) (fresh : m.FreshGet)
    (window : m.window = .ok t) (get : mmPhysicalGet (m.pmm t) = .ok (page, s)) :
    (m.setPmm t s).Leveled ∧ (∀ p, LegalPath p → (m.setPmm t s).walk p = m.walk p) ∧
    ∀ x, m.IsTable x → x ≠ t → (m.setPmm t s).mem x = m.mem x := by
  have got := mmPhysicalGetRec_got get
  have other : ∀ x, m.IsTable x → x ≠ t → (m.setPmm t s).mem x = m.mem x := by
    intro x table ne
    rw [Mm.setPmm_mem_of_ne ne, got.frame x fun visits => (fresh t window).1 x visits table]
    exact PhysicalStack.toPage_ofPage _
  have found := (leveled.self.window_eq_ok.1 window).1
  rw [stackPath_eq] at found
  have kept : (m.setPmm t s).Leveled ∧ ∀ p, LegalPath p → (m.setPmm t s).walk p = m.walk p :=
    leveled.written stackAddr_outside found rfl other
  exact ⟨kept.1, kept.2, other⟩

/-! ## New tables -/

/-- The page is linked into an entry as a new, zeroed table. -/
def Mm.graft (m : Mm) (n i page : ℕ) : Mm :=
  { m.setEntry n i (page ||| pagePresent ||| pageWrite) with
    mem := update (m.setEntry n i (page ||| pagePresent ||| pageWrite)).mem page fun _ => 0 }

theorem childTable_new {page : ℕ} (h : PhysPage page) :
    childTable (page ||| pagePresent ||| pageWrite) = some page := by
  refine Mm.childTable_eq_some.2 ⟨?_, h.or_present_write⟩
  rw [Nat.or_assoc, Nat.and_or_distrib_right]
  intro zero
  exact absurd (Nat.or_eq_zero_iff.1 zero).2 (by decide)

section Graft

variable {p : List ℕ} {i n page : ℕ} (leveled : m.Leveled) (legal : LegalPath (i :: p))
  (found : m.walk p = some n) (empty : childTable (m.mem n i) = none) (phys : PhysPage page)
  (fresh : ¬ m.IsTable page)

include fresh in
theorem Mm.graft_table : ∀ x j, m.IsTable x → ¬ (x = n ∧ j = i) →
    (m.graft n i page).mem x j = m.mem x j := by
  intro x j table ne
  have xp : x ≠ page := fun e => fresh (e ▸ table)
  by_cases xn : x = n
  · have ji : j ≠ i := fun e => ne ⟨xn, e⟩
    subst xn
    simp [Mm.graft, Mm.setEntry, xp, ji]
  · simp [Mm.graft, Mm.setEntry, xp, xn]

include legal found fresh in
theorem Mm.graft_entry : (m.graft n i page).mem n i = page ||| pagePresent ||| pageWrite := by
  have np : n ≠ page := fun e => fresh (e ▸ isTable_of_walk legal.tail found)
  simp [Mm.graft, Mm.setEntry, np]

theorem Mm.graft_new (j : ℕ) : (m.graft n i page).mem page j = 0 := by
  simp [Mm.graft]

include leveled legal found in
theorem Mm.Leveled.top_ne : ¬ (m.pml4 = n ∧ 510 = i) := by
  rintro ⟨rfl, rfl⟩
  have length := leveled.levels.level [] p m.pml4 legalPath_nil legal.tail rfl found
  obtain rfl := List.eq_nil_of_length_eq_zero length.symm
  exact legal.outside rfl

include leveled legal found phys fresh in
theorem Mm.Leveled.graft :
    (m.graft n i page).Leveled ∧ (m.graft n i page).walk (i :: p) = some page := by
  have same := Mm.graft_table (n := n) (i := i) fresh
  have link : childTable ((m.graft n i page).mem n i) = some page := by
    rw [Mm.graft_entry legal found fresh]
    exact childTable_new phys
  have blank : ∀ j, childTable ((m.graft n i page).mem page j) = none := by
    intro j
    rw [Mm.graft_new]
    rfl
  have node : (m.graft n i page).walk p = some n := leveled.levels.walk_node found same legal.tail
  refine ⟨⟨?_, leveled.levels.graft found same legal link blank fresh⟩, ?_⟩
  · rw [Mm.SelfMap]
    show childTable ((m.graft n i page).mem m.pml4 510) = some m.pml4
    rw [same _ _ m.isTable_pml4 (leveled.top_ne legal found)]
    exact leveled.self
  · rw [Mm.walk_cons, node, Option.bind_some, link]

include leveled legal found phys in
/-- The two writes of `mm_virtual_map` that link in a new table. -/
theorem Mm.Leveled.store_clear {entry table : ℕ} (points : Points p i entry table) :
    (m.store entry (page ||| pagePresent ||| pageWrite) >>= Mm.clear table) =
      .ok (m.graft n i page) := by
  have same : ∀ x j, m.IsTable x → ¬ (x = n ∧ j = i) →
      (m.setEntry n i (page ||| pagePresent ||| pageWrite)).mem x j = m.mem x j := by
    intro x j _ ne
    by_cases xn : x = n
    · have ji : j ≠ i := fun e => ne ⟨xn, e⟩
      subst xn
      simp [Mm.setEntry, ji]
    · simp [Mm.setEntry, xn]
  have node : (m.setEntry n i (page ||| pagePresent ||| pageWrite)).walk p = some n :=
    leveled.levels.walk_node found same legal.tail
  have self : (m.setEntry n i (page ||| pagePresent ||| pageWrite)).SelfMap := by
    rw [Mm.SelfMap]
    show childTable ((m.setEntry n i _).mem m.pml4 510) = some m.pml4
    rw [same _ _ m.isTable_pml4 (leveled.top_ne legal found)]
    exact leveled.self
  rw [Mm.store_of_translate (points.toEntry m n leveled.self found), Fallible.ok_bind, Mm.clear,
    points.toTable _ page self, Fallible.ok_bind]
  · rfl
  · rw [Mm.walk_cons, node, Option.bind_some]
    simpa [Mm.setEntry] using childTable_new phys

end Graft

/-- A table is there after `ensureTable`. -/
theorem Mm.Leveled.ensureTable {p : List ℕ} {i n entry table : ℕ} (leveled : m.Leveled)
    (fresh : ∀ e, m.load entry = .ok e → e &&& pagePresent = 0 → m.FreshGet)
    (legal : LegalPath (i :: p)) (found : m.walk p = some n) (points : Points p i entry table)
    (call : ensureTable entry table m = .ok m') :
    m'.Leveled ∧ ∃ x, m'.walk (i :: p) = some x := by
  have load := Mm.load_of_translate (points.toEntry m n leveled.self found)
  rw [Vineyard.ensureTable, load, Fallible.ok_bind] at call
  cases present : childTable (m.mem n i) with
  | some x =>
    rw [if_pos (Mm.childTable_eq_some.1 present).1] at call
    obtain rfl := Except.ok.inj call
    exact ⟨leveled, x, by rw [Mm.walk_cons, found, Option.bind_some, present]⟩
  | none =>
    have absent := Mm.childTable_eq_none.1 present
    rw [if_neg (by simpa using absent)] at call
    obtain ⟨⟨page, m₁⟩, taken, call⟩ := Fallible.bind_eq_ok.1 call
    obtain ⟨t, window, popped⟩ := Fallible.bind_eq_ok.1 taken
    obtain ⟨⟨page', s⟩, get, rest⟩ := Fallible.bind_eq_ok.1 popped
    obtain ⟨rfl, rfl⟩ := Prod.mk.inj (Except.ok.inj rest)
    have supply := fresh _ load absent
    obtain ⟨phys, notTable⟩ := (supply t window).2 _ s get
    obtain ⟨leveled₁, walks, _⟩ := leveled.physicalGet supply window get
    have found₁ : (m.setPmm t s).walk p = some n := (walks p legal.tail).trans found
    have fresh₁ : ¬ (m.setPmm t s).IsTable page' := by
      rintro ⟨q, legalQ, at_⟩
      exact notTable ⟨q, legalQ, (walks q legalQ).symm.trans at_⟩
    have writes := leveled₁.store_clear legal found₁ phys points
    obtain rfl := Except.ok.inj (writes.symm.trans call)
    obtain ⟨leveled₂, there⟩ := leveled₁.graft legal found₁ phys fresh₁
    exact ⟨leveled₂, page', there⟩

end Vineyard

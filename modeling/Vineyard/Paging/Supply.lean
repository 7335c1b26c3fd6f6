import Vineyard.Paging.Levels

/-!
# New page tables

`Mm.Ok` says that slot 510 points to the level-4 table and that the tables form a tree.  As long as
the stacks of the page allocator and the pages it returns are not page tables (`FreshSupply`), a call
of `mm_physical_get` keeps the tree, and a page it returns can be linked in as a new table
(`Grown`).
-/

namespace Vineyard

open Function

/-- The page tables form a tree that slot 510 makes visible to the kernel. -/
structure Mm.Ok (m : Mm) : Prop where
  self : m.SelfMap
  tree : Radix.Tree childTable m.mem m.pml4 LegalPath

variable {m m' : Mm} {a t : ℕ}

theorem Mm.Ok.leveled (ok : m.Ok) : m.Leveled := ⟨ok.self, ok.tree.leveled⟩

/-! ## Writes to level-1 tables -/

/-- The same tables are in the same places. -/
structure SameTables (m m' : Mm) : Prop where
  ok : m'.Ok
  pml4 : m'.pml4 = m.pml4
  root : m'.root = m.root
  walk : ∀ p, LegalPath p → m'.walk p = m.walk p

theorem SameTables.refl (ok : m.Ok) : SameTables m m := ⟨ok, rfl, rfl, fun _ _ => rfl⟩

theorem SameTables.trans {m'' : Mm} (h : SameTables m m') (h' : SameTables m' m'') :
    SameTables m m'' :=
  ⟨h'.ok, h'.pml4.trans h.pml4, h'.root.trans h.root, fun p legal =>
    (h'.walk p legal).trans (h.walk p legal)⟩

theorem SameTables.isTable (h : SameTables m m') : m'.IsTable t ↔ m.IsTable t := by
  constructor
  · rintro ⟨p, legal, found⟩
    exact ⟨p, legal, (h.walk p legal).symm.trans found⟩
  · rintro ⟨p, legal, found⟩
    exact ⟨p, legal, (h.walk p legal).trans found⟩

/-- Writing to one level-1 table keeps all tables in place. -/
theorem Mm.Ok.sameTables (ok : m.Ok) (outside : OutsideWindow a)
    (found : m.walk (tablePath a) = some t) (pml4 : m'.pml4 = m.pml4)
    (root : m'.root = m.root) (other : ∀ x, m.IsTable x → x ≠ t → m'.mem x = m.mem x) :
    SameTables m m' := by
  obtain ⟨leveled, walks⟩ := ok.leveled.written outside found pml4 other
  have tree : Radix.Tree childTable m'.mem m.pml4 LegalPath :=
    ok.tree.congr fun p legal => by
      have same := walks p legal
      rwa [Mm.walk, Mm.walk, pml4] at same
  exact ⟨⟨leveled.self, pml4 ▸ tree⟩, pml4, root, walks⟩

/-- The entries of other tables are as before. -/
theorem SameTables.pte_of_ne {b : ℕ} (h : SameTables m m') (ok : m.Ok) (outsideA : OutsideWindow a)
    (outsideB : OutsideWindow b) (found : m.walk (tablePath a) = some t)
    (other : ∀ x, m.IsTable x → x ≠ t → m'.mem x = m.mem x)
    (ne : tablePath b ≠ tablePath a) : m'.pte b = m.pte b := by
  rw [Mm.pte, Mm.pte, h.walk _ outsideB.legal]
  cases at_ : m.walk (tablePath b) with
  | none => rfl
  | some x =>
    have : x ≠ t := by
      rintro rfl
      exact ne (ok.tree.inj _ _ x outsideB.legal outsideA.legal at_ found)
    simp only [other x ⟨_, outsideB.legal, at_⟩ this]

/-- The entries of the table that is written to. -/
theorem SameTables.pte_of_eq {b : ℕ} (h : SameTables m m') (outside : OutsideWindow a)
    (found : m.walk (tablePath a) = some t) (same : tablePath b = tablePath a) :
    m'.pte b = m'.mem t (pageSlot b) := by
  refine Mm.pte_of_walk ?_
  rw [same, h.walk _ outside.legal, found]

/-- A new level-1 entry changes no other entry. -/
theorem Mm.Ok.setEntry (ok : m.Ok) (outside : OutsideWindow a) (found : m.walk (tablePath a) = some t)
    (value : ℕ) : SameTables m (m.setEntry t (pageSlot a) value) ∧
      (m.setEntry t (pageSlot a) value).pte a = value ∧
      ∀ b, OutsideWindow b → pageNumber b ≠ pageNumber a →
        (m.setEntry t (pageSlot a) value).pte b = m.pte b := by
  have other : ∀ x, x ≠ t → (m.setEntry t (pageSlot a) value).mem x = m.mem x := by
    intro x ne
    simp [Mm.setEntry, ne]
  have same : SameTables m (m.setEntry t (pageSlot a) value) :=
    ok.sameTables outside found rfl rfl fun x _ => other x
  refine ⟨same, ?_, fun b outsideB ne => ?_⟩
  · rw [same.pte_of_eq outside found rfl]
    simp [Mm.setEntry]
  · by_cases path : tablePath b = tablePath a
    · have slot : pageSlot b ≠ pageSlot a := fun slot => ne (pageNumber_eq_iff.2 ⟨path, slot⟩)
      have at_ : m.walk (tablePath b) = some t := path ▸ found
      rw [same.pte_of_eq outside found path, Mm.pte_of_walk at_]
      simp [Mm.setEntry, slot]
    · exact same.pte_of_ne ok outside outsideB found (fun x _ => other x) path

/-- A page that is no table can be written to. -/
theorem Mm.Ok.setEntry_other {p : ℕ} (ok : m.Ok) (notTable : ¬ m.IsTable p) (i value : ℕ) :
    SameTables m (m.setEntry p i value) ∧
    (∀ x, x ≠ p → (m.setEntry p i value).mem x = m.mem x) ∧
    ∀ b, OutsideWindow b → (m.setEntry p i value).pte b = m.pte b := by
  have other : ∀ x, x ≠ p → (m.setEntry p i value).mem x = m.mem x := fun x ne => by
    simp [Mm.setEntry, ne]
  have tables : ∀ x j, m.IsTable x → (m.setEntry p i value).mem x j = m.mem x j :=
    fun x j table => by rw [other x fun e => notTable (e ▸ table)]
  have walks : ∀ q, LegalPath q → (m.setEntry p i value).walk q = m.walk q :=
    Radix.walk_congr (fun _ _ legal => legal.tail) fun q x j legal at_ => by
      rw [tables x j ⟨q, legal.tail, at_⟩]
  have self : (m.setEntry p i value).SelfMap := by
    rw [Mm.SelfMap]
    show childTable ((m.setEntry p i value).mem m.pml4 510) = some m.pml4
    rw [tables _ _ m.isTable_pml4]
    exact ok.self
  refine ⟨⟨⟨self, ok.tree.congr walks⟩, rfl, rfl, walks⟩, other, fun b outside => ?_⟩
  rw [Mm.pte, Mm.pte, walks _ outside.legal]
  cases at_ : m.walk (tablePath b) with
  | none => rfl
  | some x => exact tables x _ ⟨_, outside.legal, at_⟩

/-! ## The allocator of physical pages -/

/-- `k` calls of `mm_physical_get` in a row. -/
def Mm.physicalGets (k : ℕ) (m : Mm) : Except Fault (List ℕ × Pmm) := do
  let page ← m.window
  getMany k (m.pmm page)

/-- One of the next `n` calls of `mm_physical_get` ends with the fault. -/
def GetFailsWithin (n : ℕ) (m : Mm) (e : Fault) : Prop := ∃ k ≤ n, m.physicalGets k = .error e

theorem GetFailsWithin.mono {n n' : ℕ} {e : Fault} (fails : GetFailsWithin n m e) (le : n ≤ n') :
    GetFailsWithin n' m e := by
  obtain ⟨k, bound, fails⟩ := fails
  exact ⟨k, bound.trans le, fails⟩

/-- The pages that `mm_physical_get` returns are distinct physical pages.  Neither they nor the stacks
it reads are page tables in use, and none of them is such a stack. -/
structure Supply (m : Mm) (t : ℕ) : Prop where
  frames : ∀ f, (m.pmm t).Visits f → ¬ m.IsTable f
  nodup : ∀ k ps s, getMany k (m.pmm t) = .ok (ps, s) → ps.Nodup
  pages : ∀ k ps s, getMany k (m.pmm t) = .ok (ps, s) →
    ∀ p ∈ ps, PhysPage p ∧ ¬ m.IsTable p ∧ ¬ (m.pmm t).Visits p

def FreshSupply (m : Mm) : Prop := ∀ t, m.window = .ok t → Supply m t

theorem Mm.physicalGets_eq (window : m.window = .ok t) (k : ℕ) :
    m.physicalGets k = getMany k (m.pmm t) := by
  rw [Mm.physicalGets, window]
  rfl

/-- A change of the allocator's window and of pages that are not tables keeps all tables in place and
all entries but those of the window. -/
theorem Mm.Ok.setPmm (ok : m.Ok) (window : m.walk stackPath = some t) {s : Pmm}
    (apart : ∀ x, m.IsTable x → s.frame x = (m.pmm t).frame x) :
    SameTables m (m.setPmm t s) ∧
    (∀ x, m.IsTable x → x ≠ t → (m.setPmm t s).mem x = m.mem x) ∧
    ∀ b, OutsideWindow b → (tablePath b = stackPath → s.pml1 (pageSlot b) = m.mem t (pageSlot b)) →
      (m.setPmm t s).pte b = m.pte b := by
  rw [stackPath_eq] at window
  have other : ∀ x, m.IsTable x → x ≠ t → (m.setPmm t s).mem x = m.mem x := by
    intro x table ne
    rw [Mm.setPmm_mem_of_ne ne, apart x table]
    exact PhysicalStack.toPage_ofPage _
  have same : SameTables m (m.setPmm t s) :=
    ok.sameTables stackAddr_outside window rfl rfl other
  refine ⟨same, other, fun b outside entry => ?_⟩
  by_cases here : tablePath b = tablePath stackAddr
  · have found : m.walk (tablePath b) = some t := here ▸ window
    rw [same.pte_of_eq stackAddr_outside window here, Mm.pte_of_walk found]
    rw [Mm.setPmm_mem_self]
    exact entry (here.trans stackPath_eq.symm)
  · exact same.pte_of_ne ok stackAddr_outside outside window other here

/-- All level-1 entries are as before, but for that of the allocator's stack. -/
def SameEntries (m m' : Mm) : Prop :=
  ∀ b, OutsideWindow b → pageNumber b ≠ pageNumber stackAddr → m'.pte b = m.pte b

theorem SameEntries.trans {m'' : Mm} (h : SameEntries m m') (h' : SameEntries m' m'') :
    SameEntries m m'' :=
  fun b outside ne => (h' b outside ne).trans (h b outside ne)

/-- Memory is as the allocator has left it, but for the page tables. -/
structure Mm.LeftBy (m : Mm) (t : ℕ) (s : Pmm) : Prop where
  window : m.window = .ok t
  root : m.root = s.root
  agree : Pmm.AgreeOn {x | ¬ m.IsTable x} s (m.pmm t)

/-! ## Tables that grow -/

/-- Page tables grow by the pages `ps`, which the allocator returned in this order. -/
structure Grown (m m' : Mm) (ps : List ℕ) : Prop where
  ok : m'.Ok
  walk : ∀ p x, LegalPath p → m.walk p = some x → m'.walk p = some x
  isTable : ∀ x, m'.IsTable x ↔ m.IsTable x ∨ x ∈ ps
  gets : ∀ t, m.window = .ok t → ∃ s, getMany ps.length (m.pmm t) = .ok (ps, s) ∧ m'.LeftBy t s
  blind : ∀ e, m.window = .error e → ps = [] ∧ m'.window = .error e

theorem Grown.refl (ok : m.Ok) : Grown m m [] :=
  ⟨ok, fun _ _ _ h => h, fun _ =>
    by simp, fun t window => ⟨m.pmm t, rfl, window, rfl, rfl, fun _ _ => rfl⟩,
    fun _ window => ⟨rfl, window⟩⟩

section Grown

variable {ps : List ℕ} (h : Grown m m' ps) (fresh : FreshSupply m)

include h fresh in
/-- The allocator goes on from the state in which it has left memory. -/
theorem Grown.reads {s : Pmm} (window : m.window = .ok t)
    (gets : getMany ps.length (m.pmm t) = .ok (ps, s)) :
    ∀ f, s.Visits f → f ∈ {x | ¬ m'.IsTable x} := by
  intro f visits table
  have visits' := (getMany_got gets).visits visits
  rcases (h.isTable f).1 table with old | new
  · exact (fresh t window).frames f visits' old
  · exact ((fresh t window).pages _ _ _ gets f new).2.2 visits'

include h fresh in
/-- What the allocator returns next is what it would have returned next from the beginning. -/
theorem Grown.gets_more (window : m.window = .ok t) {k : ℕ} {qs : List ℕ} {u : Pmm}
    (more : getMany k (m'.pmm t) = .ok (qs, u)) :
    ∃ s, getMany (ps.length + k) (m.pmm t) = .ok (ps ++ qs, s) ∧ u.root = s.root ∧
      Pmm.AgreeOn {x | ¬ m'.IsTable x} s u := by
  obtain ⟨s, gets, left⟩ := h.gets t window
  have agree := getMany_agree (n := k) (h.reads fresh window gets) left.agree
  cases rest : getMany k s with
  | error e =>
    rw [rest, more] at agree
    cases agree
  | ok r =>
    obtain ⟨rs, s'⟩ := r
    rw [rest] at agree
    obtain ⟨u', more', agree⟩ := agree
    rw [more] at more'
    injection more' with more'
    obtain ⟨rfl, rfl⟩ := Prod.mk.inj more'
    refine ⟨s', by rw [getMany_add gets, rest]; rfl, ?_, agree⟩
    rw [(getMany_got more).root, (getMany_got rest).root]
    exact left.root

include h fresh in
theorem Grown.trans {m'' : Mm} {qs : List ℕ} (h' : Grown m' m'' qs) : Grown m m'' (ps ++ qs) := by
  refine ⟨h'.ok, fun p x legal found => h'.walk p x legal (h.walk p x legal found), fun x => ?_,
    fun t window => ?_, fun e blind => ?_⟩
  · rw [h'.isTable, h.isTable, List.mem_append, or_assoc]
  · obtain ⟨_, _, left⟩ := h.gets t window
    obtain ⟨u, more, left'⟩ := h'.gets t left.window
    obtain ⟨s, gets, root, agree⟩ := h.gets_more fresh window more
    refine ⟨s, by rw [List.length_append, gets], left'.window, left'.root.trans root, ?_, ?_⟩
    · exact left'.agree.window.trans agree.window
    · intro f notTable
      exact (left'.agree.frame f notTable).trans
        (agree.frame f fun table => notTable ((h'.isTable f).2 (.inl table)))
  · obtain ⟨rfl, blind'⟩ := h.blind e blind
    obtain ⟨rfl, blind''⟩ := h'.blind e blind'
    exact ⟨rfl, blind''⟩

include h in
theorem Grown.window_of_ok (window : m'.window = .ok t) : m.window = .ok t := by
  cases before : m.window with
  | error e =>
    have := (h.blind e before).2
    rw [window] at this
    cases this
  | ok x =>
    obtain ⟨_, _, left⟩ := h.gets x before
    exact left.window.symm.trans window

include h fresh in
/-- What the allocator will return stays fresh. -/
theorem Grown.supply : FreshSupply m' := by
  intro t window'
  have window := h.window_of_ok window'
  obtain ⟨s, gets, left⟩ := h.gets t window
  have reads := h.reads fresh window gets
  refine ⟨fun f visits => reads f (left.agree.visits reads visits), fun k qs u more => ?_,
    fun k qs u more p hp => ?_⟩
  · obtain ⟨_, all, _⟩ := h.gets_more fresh window more
    exact (List.nodup_append.1 ((fresh t window).nodup _ _ _ all)).2.1
  · obtain ⟨_, all, _⟩ := h.gets_more fresh window more
    obtain ⟨phys, notTable, notVisited⟩ :=
      (fresh t window).pages _ _ _ all p (List.mem_append_right _ hp)
    refine ⟨phys, fun table => ?_, fun visits => ?_⟩
    · rcases (h.isTable p).1 table with old | new
      · exact notTable old
      · exact (List.nodup_append.1 ((fresh t window).nodup _ _ _ all)).2.2 p new p hp rfl
    · exact notVisited ((getMany_got gets).visits (left.agree.visits reads visits))

include h fresh in
/-- A later failure of the allocator is one from the beginning, after the calls that were made. -/
theorem Grown.getFailsWithin {e : Fault} {n : ℕ} (fails : GetFailsWithin n m' e) :
    GetFailsWithin (ps.length + n) m e := by
  obtain ⟨k, bound, fails⟩ := fails
  cases window : m.window with
  | error e' =>
    obtain ⟨_, blind⟩ := h.blind e' window
    refine ⟨k, by omega, ?_⟩
    rw [Mm.physicalGets, blind] at fails
    rw [Mm.physicalGets, window]
    exact fails
  | ok t =>
    obtain ⟨s, gets, left⟩ := h.gets t window
    have agree := getMany_agree (n := k) (h.reads fresh window gets) left.agree
    rw [Mm.physicalGets_eq left.window] at fails
    refine ⟨ps.length + k, by omega, ?_⟩
    rw [Mm.physicalGets_eq window, getMany_add gets]
    cases rest : getMany k s with
    | error e' =>
      rw [rest, fails] at agree
      injection agree with agree
      rw [agree]
      rfl
    | ok r =>
      rw [rest, fails] at agree
      obtain ⟨_, run, _⟩ := agree
      cases run

include h in
/-- Writes to tables in place, other than to the entry of the allocator's stack. -/
theorem Grown.sameTables {m'' : Mm} (same : SameTables m' m'')
    (other : ∀ x, ¬ m'.IsTable x → m''.mem x = m'.mem x)
    (entry : ∀ x, m'.walk stackPath = some x → m''.mem x 511 = m'.mem x 511) : Grown m m'' ps := by
  have windows : ∀ t, m''.window = .ok t ↔ m'.window = .ok t := by
    intro t
    rw [same.ok.self.window_eq_ok, h.ok.self.window_eq_ok, same.walk _ stackPath_legal]
    exact and_congr_right fun at_ => by rw [entry t at_]
  refine ⟨same.ok, fun p x legal found => (same.walk p legal).trans (h.walk p x legal found),
    fun x => same.isTable.trans (h.isTable x), fun t window => ?_, fun e blind => ?_⟩
  · obtain ⟨s, gets, left⟩ := h.gets t window
    refine ⟨s, gets, (windows t).2 left.window, same.root.trans left.root, ?_, fun f hf => ?_⟩
    · exact (entry t (h.ok.self.window_eq_ok.1 left.window).1).trans left.agree.window
    · have notTable : ¬ m'.IsTable f := fun table => hf (same.isTable.2 table)
      rw [← left.agree.frame f notTable]
      exact congrArg PhysicalStack.ofPage (other f notTable)
  · obtain ⟨none, blind'⟩ := h.blind e blind
    refine ⟨none, ?_⟩
    cases after : m''.window with
    | ok t =>
      rw [(windows t).1 after] at blind'
      cases blind'
    | error e' =>
      rw [same.ok.self.window_eq_error after, h.ok.self.window_eq_error blind']

end Grown

/-! ## New tables -/

section Graft

variable {p : List ℕ} {i n page : ℕ} (ok : m.Ok) (legal : LegalPath (i :: p))
  (found : m.walk p = some n) (empty : childTable (m.mem n i) = none) (phys : PhysPage page)
  (fresh : ¬ m.IsTable page)

include ok legal found empty phys fresh in
theorem Mm.Ok.graft :
    (m.graft n i page).Ok ∧
    (∀ q, LegalPath q → (m.graft n i page).walk q = if q = i :: p then some page else m.walk q) ∧
    ∀ x, (m.graft n i page).IsTable x ↔ m.IsTable x ∨ x = page := by
  have same := Mm.graft_table (n := n) (i := i) fresh
  have link : childTable ((m.graft n i page).mem n i) = some page := by
    rw [Mm.graft_entry legal found fresh]
    exact childTable_new phys
  have blank : ∀ j, childTable ((m.graft n i page).mem page j) = none := by
    intro j
    rw [Mm.graft_new]
    rfl
  have walks := Radix.walk_graft ok.tree found same legal empty link blank
  have reaches := Radix.reaches_graft ok.tree found same legal empty link blank
  exact ⟨⟨(ok.leveled.graft legal found phys fresh).1.self,
    ok.tree.graft found same legal empty link blank fresh⟩, walks, reaches⟩

include ok legal found empty phys fresh in
/-- The entries of all addresses stay as they are: below a new table there is nothing. -/
theorem Mm.Ok.graft_pte {b : ℕ} (outside : OutsideWindow b) : (m.graft n i page).pte b = m.pte b := by
  obtain ⟨_, walks, _⟩ := ok.graft legal found empty phys fresh
  rw [Mm.pte, Mm.pte, walks _ outside.legal]
  split_ifs with through
  · have none : m.walk (i :: p) = none := by
      rw [Mm.walk_cons, found, Option.bind_some, empty]
    simp only [through, none, Mm.graft_new]
  · cases at_ : m.walk (tablePath b) with
    | none => rfl
    | some x =>
      refine Mm.graft_table fresh x _ ⟨_, outside.legal, at_⟩ ?_
      rintro ⟨rfl, _⟩
      have deep := ok.tree.inj _ p x outside.legal legal.tail at_ found
      have := legal.short
      simp [← deep, tablePath] at this

end Graft

/-- A table above level 1 is not a level-1 table. -/
theorem Mm.Ok.ne_of_deeper {p : List ℕ} {i n b : ℕ} (ok : m.Ok) (legal : LegalPath (i :: p))
    (found : m.walk p = some n) (outside : OutsideWindow b) (at_ : m.walk (tablePath b) = some t) :
    t ≠ n := by
  rintro rfl
  have deep := ok.tree.inj _ p t outside.legal legal.tail at_ found
  have := legal.short
  simp [← deep, tablePath] at this

/-- A call of `mm_physical_get` keeps the tables in place. -/
theorem Mm.Ok.physicalGet {page : ℕ} {s : Pmm} (ok : m.Ok) (fresh : FreshSupply m)
    (window : m.window = .ok t) (get : mmPhysicalGet (m.pmm t) = .ok (page, s)) :
    SameTables m (m.setPmm t s) ∧ SameEntries m (m.setPmm t s) ∧
    (∀ x, m.IsTable x → x ≠ t → (m.setPmm t s).mem x = m.mem x) ∧
    PhysPage page ∧ ¬ m.IsTable page := by
  have got := mmPhysicalGetRec_got get
  have one : getMany 1 (m.pmm t) = .ok ([page], s) := by
    rw [getMany, get]
    rfl
  have supplied := (fresh t window).pages 1 [page] s one page (by simp)
  have unread : ∀ x, m.IsTable x → s.frame x = (m.pmm t).frame x := fun x table =>
    got.frame x fun visits => (fresh t window).frames x visits table
  obtain ⟨same, tables, ptes⟩ := ok.setPmm (ok.self.window_eq_ok.1 window).1 unread
  refine ⟨same, fun b outside ne => ptes b outside fun here => got.pml1 _ fun slot => ne ?_, tables,
    supplied.1, supplied.2.1⟩
  exact pageNumber_eq_iff.2 ⟨here.trans stackPath_eq, slot⟩

/-- Taking a page and linking it in as a table. -/
theorem Mm.Ok.grown_graft {p : List ℕ} {i n page : ℕ} {s : Pmm} (ok : m.Ok) (fresh : FreshSupply m)
    (window : m.window = .ok t) (get : mmPhysicalGet (m.pmm t) = .ok (page, s))
    (legal : LegalPath (i :: p)) (found : m.walk p = some n) (empty : childTable (m.mem n i) = none) :
    Grown m ((m.setPmm t s).graft n i page) [page] ∧
    SameEntries m ((m.setPmm t s).graft n i page) ∧
    ((m.setPmm t s).graft n i page).walk (i :: p) = some page := by
  obtain ⟨same, entries, tables, phys, notTable⟩ := ok.physicalGet fresh window get
  obtain ⟨atTable, present⟩ := ok.self.window_eq_ok.1 window
  have got := mmPhysicalGetRec_got get
  have tn : t ≠ n := ok.ne_of_deeper legal found stackAddr_outside (stackPath_eq ▸ atTable)
  have found' : (m.setPmm t s).walk p = some n := (same.walk p legal.tail).trans found
  have empty' : childTable ((m.setPmm t s).mem n i) = none := by
    rw [tables n (Mm.isTable_of_walk legal.tail found) (Ne.symm tn)]
    exact empty
  have fresh' : ¬ (m.setPmm t s).IsTable page := fun h => notTable (same.isTable.1 h)
  have atTable' : (m.setPmm t s).walk stackPath = some t :=
    (same.walk _ stackPath_legal).trans atTable
  obtain ⟨ok', walks, isTable⟩ := same.ok.graft legal found' empty' phys fresh'
  have old : ∀ q x, LegalPath q → m.walk q = some x →
      ((m.setPmm t s).graft n i page).walk q = some x := by
    intro q x legalQ at_
    have ne : q ≠ i :: p := by
      rintro rfl
      rw [Mm.walk_cons, found, Option.bind_some, empty] at at_
      cases at_
    rw [walks q legalQ, if_neg ne, same.walk q legalQ, at_]
  have row : ((m.setPmm t s).graft n i page).mem t = s.pml1 := by
    funext j
    rw [Mm.graft_table fresh' t j ⟨_, stackPath_legal, atTable'⟩ fun h => tn h.1,
      Mm.setPmm_mem_self]
  have other : ∀ x, ¬ ((m.setPmm t s).graft n i page).IsTable x →
      ((m.setPmm t s).graft n i page).mem x = (s.frame x).toPage := by
    intro x hx
    have xp : x ≠ page := fun e => hx ((isTable x).2 (.inr e))
    have xn : x ≠ n := fun e =>
      hx ((isTable x).2 (.inl (e ▸ Mm.isTable_of_walk legal.tail found')))
    have xt : x ≠ t := by
      rintro rfl
      exact hx ((isTable x).2 (.inl (Mm.isTable_of_walk stackPath_legal atTable')))
    rw [← Mm.setPmm_mem_of_ne (m := m) xt s]
    simp [Mm.graft, Mm.setEntry, xp, xn]
  refine ⟨⟨ok', old, fun x => ?_, fun x window' => ?_, fun e blind => ?_⟩, fun b outside ne => ?_, ?_⟩
  · rw [isTable, same.isTable, List.mem_singleton]
  · obtain rfl : t = x := Except.ok.inj (window.symm.trans window')
    refine ⟨s, by rw [List.length_singleton, getMany, get]; rfl, ?_, ?_, ?_, fun f hf => ?_⟩
    · refine ok'.self.window_eq_ok.2 ⟨old _ _ stackPath_legal atTable, ?_⟩
      rw [row]
      exact got.present present
    · exact got.root.symm
    · exact congrFun row 511
    · show PhysicalStack.ofPage _ = _
      rw [other f hf, PhysicalStack.ofPage_toPage]
  · rw [window] at blind
    cases blind
  · rw [same.ok.graft_pte legal found' empty' phys fresh' outside]
    exact entries b outside ne
  · rw [walks _ legal, if_pos rfl]

/-- A table is there after `ensureTable`, which takes one page at most, unless the allocator fails. -/
theorem Mm.Ok.ensureTable_takes {p : List ℕ} {i n entry table : ℕ} (ok : m.Ok) (fresh : FreshSupply m)
    (legal : LegalPath (i :: p)) (found : m.walk p = some n) (points : Points p i entry table) :
    (∃ m' ps x, ensureTable entry table m = .ok m' ∧ Grown m m' ps ∧ SameEntries m m' ∧
      m'.walk (i :: p) = some x ∧ ps.length ≤ 1) ∨
    ∃ e, ensureTable entry table m = .error e ∧ GetFailsWithin 1 m e := by
  have path := m.walk_cons i p
  rw [found, Option.bind_some] at path
  rw [Vineyard.ensureTable, Mm.load_of_translate (points.toEntry m n ok.self found), Fallible.ok_bind]
  cases present : childTable (m.mem n i) with
  | some x =>
    left
    rw [if_pos (Mm.childTable_eq_some.1 present).1]
    exact ⟨m, [], x, rfl, Grown.refl ok, fun _ _ _ => rfl, path.trans present, Nat.zero_le 1⟩
  | none =>
    rw [if_neg (by simpa using Mm.childTable_eq_none.1 present)]
    cases window : m.window with
    | error e =>
      right
      refine ⟨e, ?_, 0, Nat.zero_le 1, ?_⟩
      · rw [Mm.physicalGet, window]
        rfl
      · rw [Mm.physicalGets, window]
        rfl
    | ok t =>
      rw [Mm.physicalGet_eq window]
      cases get : mmPhysicalGet (m.pmm t) with
      | error e =>
        right
        refine ⟨e, rfl, 1, le_rfl, ?_⟩
        rw [Mm.physicalGets_eq window, getMany, get]
        rfl
      | ok r =>
        left
        obtain ⟨page, s⟩ := r
        obtain ⟨same, _, _, phys, _⟩ := ok.physicalGet fresh window get
        obtain ⟨grown, entries, there⟩ := ok.grown_graft fresh window get legal found present
        have found' : (m.setPmm t s).walk p = some n := (same.walk p legal.tail).trans found
        refine ⟨_, [page], page, ?_, grown, entries, there, le_rfl⟩
        exact same.ok.leveled.store_clear legal found' phys points

/-! ## An allocator in good order -/

/-- The allocator's state represents a layout, and none of its pages is a page table. -/
structure Mm.Serves (m : Mm) (t : ℕ) (A : Layout) : Prop where
  window : m.window = .ok t
  holds : (m.pmm t).Holds A
  apart : ∀ x ∈ A.frames ++ A.pages, ¬ m.IsTable x

theorem Mm.Serves.fresh {A : Layout} (h : m.Serves t A) : FreshSupply m := by
  intro x window
  obtain rfl : t = x := Except.ok.inj (h.window.symm.trans window)
  obtain ⟨_, pagesNodup, framesApart⟩ := List.nodup_append.1 h.holds.ok.nodup
  have taken : ∀ k ps s, getMany k (m.pmm t) = .ok (ps, s) → ∃ B :
    Layout, A.pages.Perm (ps ++ B.pages) := by
    intro k ps s call
    obtain ⟨B, get, _⟩ := h.holds.of_getMany call
    exact ⟨B, (h.holds.ok.getMany get).2.1⟩
  refine ⟨fun f visits => h.apart f (List.mem_append_left _ (h.holds.visits visits)),
    fun k ps s call => ?_, fun k ps s call p hp => ?_⟩
  · obtain ⟨B, perm⟩ := taken k ps s call
    exact (List.nodup_append.1 (perm.nodup_iff.1 pagesNodup)).1
  · obtain ⟨B, perm⟩ := taken k ps s call
    have mem : p ∈ A.pages := perm.mem_iff.2 (List.mem_append_left _ hp)
    exact ⟨h.holds.ok.phys p (List.mem_append_right _ mem), h.apart p (List.mem_append_right _ mem),
      fun visits => framesApart p (h.holds.visits visits) p mem rfl⟩

/-- The layout after the tables have grown. -/
theorem Grown.serves {A : Layout} {ps : List ℕ} (h : Grown m m' ps) (serves : m.Serves t A) :
    ∃ B, A.getMany ps.length = some (ps, B) ∧ m'.Serves t B := by
  obtain ⟨s, gets, left⟩ := h.gets t serves.window
  obtain ⟨B, get, holds⟩ := serves.holds.of_getMany gets
  obtain ⟨_, pages, frames⟩ := serves.holds.ok.getMany get
  obtain ⟨_, pagesNodup, framesApart⟩ := List.nodup_append.1 serves.holds.ok.nodup
  have apart : ∀ x ∈ B.frames ++ B.pages, ¬ m'.IsTable x := by
    intro x hx table
    rcases List.mem_append.1 hx with frame | page
    · rcases (h.isTable x).1 table with old | new
      · exact serves.apart x (List.mem_append_left _ (frames.subset frame)) old
      · exact framesApart x (frames.subset frame) x
          (pages.mem_iff.2 (List.mem_append_left _ new)) rfl
    · have mem := pages.mem_iff.2 (List.mem_append_right ps page)
      rcases (h.isTable x).1 table with old | new
      · exact serves.apart x (List.mem_append_right _ mem) old
      · exact (List.nodup_append.1 (pages.nodup_iff.1 pagesNodup)).2.2 x new x page rfl
  refine ⟨B, get, left.window, holds.agree left.agree left.root ?_, apart⟩
  exact fun f hf => apart f (List.mem_append_left _ hf)

end Vineyard

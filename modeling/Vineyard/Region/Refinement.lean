import Vineyard.Lib.Tiling
import Vineyard.Region.Nodes

/-!
# The region list as a list of regions

What the operations of the region allocator do to the list of regions: `mm_virtual_alloc` takes the
first free region that is large enough and cuts off what is not needed (`FirstFit`),
`mm_virtual_free` turns the used region at an address into a free one (`Release`), and
`mm_virtual_range_set` cuts the last region in two or three.
-/

namespace Vineyard

open Function

/-- A free region of at least `size` bytes. -/
def Region.Fits (size : ℕ) (r : Region) : Prop := r.flags &&& vmFree ≠ 0 ∧ size ≤ r.len

/-- A used region at an address. -/
def Region.UsedAt (addr : ℕ) (r : Region) : Prop := r.start = addr ∧ r.flags &&& vmUsed ≠ 0

/-- First fit: what becomes of the regions when `size` bytes are taken. -/
inductive FirstFit (size : ℕ) : List Region → ℕ → List Region → Prop where
  | exact (l : List Region) (r : Region) (k : List Region) (before : ∀ x ∈ l, ¬ x.Fits size)
      (free : r.flags &&& vmFree ≠ 0) (len : r.len = size) :
      FirstFit size (l ++ r :: k) r.start (l ++ { r with flags := markUsed r.flags } :: k)
  | split (l : List Region) (r : Region) (k : List Region) (before : ∀ x ∈ l, ¬ x.Fits size)
      (free : r.flags &&& vmFree ≠ 0) (len : size < r.len) :
      FirstFit size (l ++ r :: k) r.start
        (l ++ ⟨r.start, size, markUsed r.flags⟩ :: ⟨r.start + size, r.len - size, r.flags⟩ :: k)

/-- The address that first fit returns is the start of a free region that is large enough. -/
theorem FirstFit.taken {size a : ℕ} {rs rs' : List Region} (fit : FirstFit size rs a rs') :
    ∃ r ∈ rs, r.start = a ∧ r.Fits size := by
  cases fit with
  | exact l r k before free len => exact ⟨r, by simp, rfl, free, len.ge⟩
  | split l r k before free len => exact ⟨r, by simp, rfl, free, len.le⟩

/-- The first used region at `addr` becomes free; its length is returned. -/
inductive Release (addr : ℕ) : List Region → ℕ → List Region → Prop where
  | found (l : List Region) (r : Region) (k : List Region) (before : ∀ x ∈ l, ¬ x.UsedAt addr)
      (used : r.UsedAt addr) :
      Release addr (l ++ r :: k) r.len (l ++ { r with flags := markUnused r.flags } :: k)

variable {s : Vmm} {rs : List Region} {p new addr pages : ℕ} {ps l r : List ℕ}

/-- The node that `VM_FOREACH` finds, or the fact that there is none. -/
theorem Vmm.Nodes.find (h : s.Nodes ps) (few : ps.length < 2 ^ 64) {test : VmNode → Bool}
    {Test : Region → Prop} (same : ∀ n, test n = true ↔ Test n.region) :
    ((∀ x ∈ ps.map s.region, ¬ Test x) ∧ vmFind s.heap test (2 ^ 64) s.head = .ok 0) ∨
    ∃ l p r, ps = l ++ p :: r ∧ p ≠ 0 ∧ (∀ x ∈ l.map s.region, ¬ Test x) ∧ Test (s.region p) ∧
      vmFind s.heap test (2 ^ 64) s.head = .ok p := by
  rw [h.foreach_eq test few]
  cases found : ps.find? fun x => test (s.heap x) with
  | none =>
    left
    rw [List.find?_eq_none] at found
    refine ⟨fun x hx => ?_, rfl⟩
    obtain ⟨y, mem, rfl⟩ := List.mem_map.1 hx
    exact fun pass => found y mem ((same _).2 pass)
  | some p =>
    right
    obtain ⟨pass, l, r, rfl, before⟩ := List.find?_eq_some_iff_append.1 found
    refine ⟨l, p, r, rfl, h.list.seg.ne_zero p (by simp), fun x hx => ?_, (same _).1 pass, rfl⟩
    obtain ⟨y, mem, rfl⟩ := List.mem_map.1 hx
    intro pass
    simpa [(same _).2 pass] using before y mem

/-- Regions of nodes that a write does not touch. -/
theorem Vmm.map_region_modify (s : Vmm) (f : VmNode → VmNode) (out : p ∉ ps) :
    ps.map (s.modify p f).region = ps.map s.region := by
  refine List.map_congr_left fun x hx => ?_
  have ne : x ≠ p := fun e => out (e ▸ hx)
  rw [Vmm.region, Vmm.modify_heap_of_ne _ _ ne, Vmm.region]

/-- A write to one node that keeps its links changes one region. -/
theorem Vmm.Nodes.holds_modify (h : s.Nodes (l ++ p :: r)) {f : VmNode → VmNode}
    (next : (f (s.heap p)).next = (s.heap p).next) (prev : (f (s.heap p)).prev = (s.heap p).prev) :
    (s.modify p f).Holds (l.map s.region ++ (f (s.heap p)).region :: r.map s.region) := by
  obtain ⟨_, rest, apart⟩ := List.nodup_append.1 h.list.nodup
  have outLeft : p ∉ l := fun hp => apart p hp p (by simp) rfl
  have outRight : p ∉ r := (List.nodup_cons.1 rest).1
  refine ⟨_, h.modify next prev, ?_⟩
  rw [List.map_append, List.map_cons, Vmm.map_region_modify _ _ outLeft,
    Vmm.map_region_modify _ _ outRight, Vmm.region, Vmm.modify_heap_self]

/-- `mm_virtual_free` makes the used region at the address free, if there is one. -/
theorem mmVirtualFree_refines (holds : s.Holds rs) (few : rs.length < 2 ^ 64) (addr : ℕ) :
    ((∀ x ∈ rs, ¬ x.UsedAt addr) ∧ mmVirtualFree addr s = .ok (0, s)) ∨
    ∃ n rs' s', Release addr rs n rs' ∧ mmVirtualFree addr s = .ok (n, s') ∧ s'.Holds rs' ∧
      s'.slab = s.slab := by
  obtain ⟨ps, nodes, rfl⟩ := holds
  rw [List.length_map] at few
  have same : ∀ n : VmNode, decide (n.start = addr ∧ n.flags &&& vmUsed ≠ 0) = true ↔
      n.region.UsedAt addr := fun n => by simp [Region.UsedAt, VmNode.region]
  rw [mmVirtualFree]
  obtain ⟨none, run⟩ | ⟨l, p, r, rfl, nz, before, used, run⟩ := nodes.find few same
  · left
    refine ⟨none, ?_⟩
    rw [run]
    rfl
  · right
    rw [run]
    simp only [Fallible.ok_bind, nz, if_false, Fallible.pure_eq_ok]
    refine ⟨_, _, _, ?_, rfl, nodes.holds_modify rfl rfl, rfl⟩
    rw [List.map_append, List.map_cons]
    exact Release.found _ (s.region p) _ before used

/-- A node is cut in two: a fresh node takes over a part of it. -/
theorem Vmm.Nodes.holds_split (h : s.Nodes (l ++ p :: r)) {slab : List ℕ}
    (left : s.slab = new :: slab) {f : VmNode → VmNode} (g : VmNode → VmNode)
    (next : ∀ n, (f n).next = n.next) (prev : ∀ n, (f n).prev = n.prev) {s' : Vmm}
    (result : mmVirtualInsertAfter p new (((s.drawn new slab).modify new g).modify p f) = s') :
    s'.Holds (l.map s.region ++
      (f (s.heap p)).region :: (g ⟨0, 0, 0, 0, 0⟩).region :: r.map s.region) ∧
    s'.slab = slab ∧ s'.region p = (f (s.heap p)).region := by
  obtain ⟨newNz, fresh, notSlab, nodes⟩ := h.drawn left
  have ne : new ≠ p := fun e => fresh (by simp [e])
  have pNz : p ≠ 0 := h.list.seg.ne_zero p (by simp)
  have nodes := nodes.modify_outside (f := g) fresh
  have nodes := nodes.modify (p := p) (f := f) (next _) (prev _)
  have nodes := nodes.linked newNz fresh notSlab
  rw [mmVirtualInsertAfter_eq _ pNz newNz ne] at result
  subst result
  obtain ⟨_, rest, apart⟩ := List.nodup_append.1 h.list.nodup
  have outLeft : p ∉ l := fun hp => apart p hp p (by simp) rfl
  have outRight : p ∉ r := (List.nodup_cons.1 rest).1
  have newLeft : new ∉ l := fun hn => fresh (by simp [hn])
  have newRight : new ∉ r := fun hn => fresh (by simp [hn])
  have outside : ∀ xs : List ℕ, p ∉ xs → new ∉ xs → xs.map
      ((((s.drawn new slab).modify new g).modify p f).linked p new).region = xs.map s.region := by
    intro xs outP outNew
    refine List.map_congr_left fun x hx => ?_
    have xp : x ≠ p := fun e => outP (e ▸ hx)
    have xn : x ≠ new := fun e => outNew (e ▸ hx)
    rw [Vmm.linked_region]
    simp [Vmm.region, Vmm.modify, Vmm.drawn, xp, xn]
  have atP : ((((s.drawn new slab).modify new g).modify p f).linked p new).region p =
      (f (s.heap p)).region := by
    rw [Vmm.linked_region]
    simp [Vmm.region, Vmm.modify, Vmm.drawn, Ne.symm ne]
  have atNew : ((((s.drawn new slab).modify new g).modify p f).linked p new).region new =
      (g ⟨0, 0, 0, 0, 0⟩).region := by
    rw [Vmm.linked_region]
    simp [Vmm.region, Vmm.modify, Vmm.drawn, ne]
  refine ⟨⟨_, nodes, ?_⟩, rfl, atP⟩
  rw [List.map_append, List.map_cons, List.map_cons, atP, atNew, outside l outLeft newLeft,
    outside r outRight newRight]

/-- The size that `mm_virtual_alloc` looks for. -/
theorem allocSize_eq (small : pages < 2 ^ 52) : pages <<< 12 % 2 ^ 64 = pages * 0x1000 := by
  rw [Nat.shiftLeft_eq]
  omega

/-- The test of a node. -/
theorem fits_iff (len : ℕ) (n : VmNode) :
    decide (n.flags &&& vmFree ≠ 0 ∧ n.len ≥ len) = true ↔ n.region.Fits len := by
  simp [Region.Fits, VmNode.region]

/-- Where no region is large enough `mm_virtual_alloc` returns 0 and changes nothing. -/
theorem mmVirtualAlloc_none (holds : s.Holds rs) (few : rs.length < 2 ^ 64) (pos : 0 < pages)
    (small : pages < 2 ^ 52) (none : ∀ x ∈ rs, ¬ x.Fits (pages * 0x1000)) :
    mmVirtualAlloc pages s = .ok (0, s) := by
  obtain ⟨ps, nodes, rfl⟩ := holds
  rw [List.length_map] at few
  rw [mmVirtualAlloc, if_neg (by omega)]
  simp only [allocSize_eq small]
  obtain ⟨_, run⟩ | ⟨l, p, r, rfl, _, _, room, _⟩ := nodes.find few (fits_iff (pages * 0x1000))
  · rw [run]
    rfl
  · exact absurd room (none _ (List.mem_map_of_mem (by simp)))

/-- `mm_virtual_alloc` is first fit, unless no region is large enough or the cache is used up. -/
theorem mmVirtualAlloc_refines (holds : s.Holds rs) (few : rs.length < 2 ^ 64)
    (words : ∀ x ∈ rs, x.start + x.len ≤ 2 ^ 64) (pos : 0 < pages) (small : pages < 2 ^ 52) :
    ((∀ x ∈ rs, ¬ x.Fits (pages * 0x1000)) ∧ mmVirtualAlloc pages s = .ok (0, s)) ∨
    (∃ a rs' s', FirstFit (pages * 0x1000) rs a rs' ∧ mmVirtualAlloc pages s = .ok (a, s') ∧
      s'.Holds rs' ∧ s'.slab <:+ s.slab) ∨
    (s.slab = [] ∧ mmVirtualAlloc pages s = .error (.panic "mm_slab_create unimplemented")) := by
  by_cases none : ∀ x ∈ rs, ¬ x.Fits (pages * 0x1000)
  · exact .inl ⟨none, mmVirtualAlloc_none holds few pos small none⟩
  obtain ⟨ps, nodes, rfl⟩ := holds
  rw [List.length_map] at few
  rw [mmVirtualAlloc, if_neg (by omega)]
  simp only [allocSize_eq small]
  obtain ⟨absent, _⟩ | ⟨l, p, r, rfl, nz, before, fits, run⟩ :=
    nodes.find few (fits_iff (pages * 0x1000))
  · exact absurd absent none
  · right
    rw [run]
    simp only [Fallible.ok_bind, nz, if_false, Fallible.pure_eq_ok]
    obtain ⟨free, room⟩ := fits
    have word := words (s.region p) (List.mem_map_of_mem (by simp))
    by_cases len : (s.heap p).len = pages * 0x1000
    · left
      rw [if_pos len, Vmm.modify_heap_self]
      refine ⟨_, _, _, ?_, rfl, nodes.holds_modify rfl rfl, List.suffix_refl _⟩
      rw [List.map_append, List.map_cons]
      exact FirstFit.exact _ (s.region p) _ before free len
    · rw [if_neg len]
      have more : pages * 0x1000 < (s.heap p).len := lt_of_le_of_ne room (Ne.symm len)
      cases left : s.slab with
      | nil =>
        right
        rw [mmSlabAlloc_empty left]
        exact ⟨rfl, rfl⟩
      | cons new slab =>
        left
        rw [mmSlabAlloc_ok left]
        simp only [Fallible.ok_bind]
        obtain ⟨_, fresh, _, _⟩ := nodes.drawn left
        have same : (s.drawn new slab).heap p = s.heap p := by
          have ne : p ≠ new := fun e => fresh (by simp [e])
          simp [Vmm.drawn, ne]
        obtain ⟨holds, slabLeft, atP⟩ := nodes.holds_split left (fun n => { n with
          start := Word64.add ((s.drawn new slab).heap p).start (pages * 0x1000)
          len := Word64.sub ((s.drawn new slab).heap p).len (pages * 0x1000)
          flags := ((s.drawn new slab).heap p).flags })
          (f := fun n => { n with len := pages * 0x1000, flags := markUsed n.flags })
          (fun _ => rfl) (fun _ => rfl) rfl
        refine ⟨_, _, _, ?_, congrArg Except.ok (Prod.ext (congrArg Region.start atP) rfl), holds, ?_⟩
        · simp only [Vmm.region, VmNode.region] at word
          rw [same, Word64.add_eq (by omega), Word64.sub_eq more.le (by omega), List.map_append,
            List.map_cons]
          exact FirstFit.split _ (s.region p) _ before free more
        · rw [slabLeft]
          exact List.suffix_cons _ _

end Vineyard

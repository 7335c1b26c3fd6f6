import Vineyard.Region.Init
import Vineyard.Slab.Objects

/-!
# The order in which objects are given out

The kernel allocates nodes of the region list and never frees one.  Then the stack of a slab stays in
order, so that the objects come from the end of the slab downwards, and the last two of them are never
given out.  What the region list expects of its cache (`mmSlabAlloc` on a list of objects) is what the
bytes of the slab do.
-/

namespace Vineyard.Slab

open Bytes Programs Programs.Prog

/-- The states after allocations that return and writes to the objects, which are listed newest
first. -/
inductive FreshRun (objSize : ℕ) : State → List ℕ → Prop where
  | create {mem : Memory} {s : State}
      (returns : (mmCacheCreateVm objSize).run (.start mem) = (.ok (), s)) : FreshRun objSize s []
  | alloc {s t : State} {live : List ℕ} {object : ℕ} (before : FreshRun objSize s live)
      (returns : mmSlabAlloc.run s = (.ok object, t)) : FreshRun objSize t (object :: live)
  | write {s : State} {live : List ℕ} {object i : ℕ} (before : FreshRun objSize s live)
      (mem : object ∈ live) (inside : i < objSize) (value : UInt8) :
      FreshRun objSize { s with mem := fill s.mem (object + i) 1 value } live

section InOrder

variable {size count : ℕ} {s : State} {live indices : List ℕ}

/-- Nothing has been freed: the stack is as it was, and the indices from `n` on are taken. -/
structure InOrder (size count : ℕ) (s : State) (live : List ℕ) : Prop where
  inv : ∃ indices, Inv size count s live indices
  stack : freeList s.mem (count - live.length) = List.range (count - live.length)
  order : live.reverse = (List.range live.length).map fun i => objectAt size count (count - (i + 1))

/-- The last word of the stack is its index. -/
theorem InOrder.topIndex_eq (h : InOrder size count s live) (room : live.length < count) :
    topIndex s count live = count - (live.length + 1) := by
  have stack := h.stack
  rw [show count - live.length = count - live.length - 1 + 1 by
    omega, freeList_succ, List.range_succ] at stack
  have last := (List.append_inj' stack rfl).2
  rw [topIndex]
  simp only [List.cons.injEq, and_true] at last
  omega

/-- The objects come from the end of the slab downwards. -/
theorem InOrder.alloc (h : InOrder size count s live) (fits : Fits size count)
    (room : live.length + 2 < count) :
    ∃ t, mmSlabAlloc.run s = (.ok (objectAt size count (count - (live.length + 1))), t) ∧
      InOrder size count t (objectAt size count (count - (live.length + 1)) :: live) ∧
      ∀ i < size, t.mem (objectAt size count (count - (live.length + 1)) + i) = 0 := by
  have top := h.topIndex_eq (by omega)
  rcases h.inv with ⟨indices, inv⟩
  have run := inv.alloc_room fits (by omega)
  have after := inv.alloc fits (by omega)
  have zero := fun i => @allocMem_zero size s count live i
  have stack := @Fits.freeList_allocMem size count s live fits
  have below := h.stack
  rw [show count - live.length = count - (live.length + 1) + 1 by omega, freeList_succ,
    List.range_succ] at below
  replace stack := stack.trans (List.append_inj' below rfl).1
  rw [top] at run after zero
  generalize allocMem s size count live = mem at run after zero stack
  refine ⟨_, run, ⟨⟨_, after⟩, stack, ?_⟩, zero⟩
  · rw [List.reverse_cons, List.length_cons, List.range_succ, List.map_append, h.order]
    rfl

/-- Two objects before the end the allocator asks for a slab that it cannot make. -/
theorem InOrder.alloc_full (h : InOrder size count s live) (fits : Fits size count)
    (positive : 0 < count) (full : count ≤ live.length + 2) :
    ∃ t, mmSlabAlloc.run s = (.error (.panic "mm_slab_create unimplemented"), t) := by
  rcases h.inv with ⟨indices, inv⟩
  exact inv.alloc_full fits positive (by omega)

theorem InOrder.write (h : InOrder size count s live) (fits : Fits size count) {object i : ℕ}
    (mem : object ∈ live) (value : UInt8) :
    InOrder size count { s with mem := fill s.mem (object + i) 1 value } live := by
  rcases h.inv with ⟨indices, inv⟩
  refine ⟨⟨indices, inv.write fits mem value⟩, ?_, h.order⟩
  rw [inv.live_eq] at mem
  rcases List.mem_map.mp mem with ⟨k, _, rfl⟩
  have low : objectStart size count ≤ objectAt size count k + i :=
    Nat.le_trans (objectStart_le size count k) (Nat.le_add_right _ _)
  exact (fits.freeList_write _ (Nat.sub_le count live.length) low).trans h.stack

end InOrder

/-- The order is kept in every run. -/
theorem FreshRun.inOrder {objSize : ℕ} (small : objSize + 8 < 2 ^ 64)
    (two : 2 ≤ objectsPerSlab objSize) {s : State} {live : List ℕ} (run : FreshRun objSize s live) :
    InOrder objSize (objectsPerSlab objSize) s live := by
  have fits := fits_objectsPerSlab small
  induction run with
  | @create mem s returns =>
    rcases mmCacheCreateVm_created small mem with ⟨t, created, inv, stack⟩
    rcases returned_eq created returns with ⟨_, rfl⟩
    exact ⟨⟨[], inv⟩, stack, rfl⟩
  | @alloc s t live object _ returns ih =>
    by_cases room : live.length + 2 < objectsPerSlab objSize
    · rcases ih.alloc fits room with ⟨u, run, after, _⟩
      rcases returned_eq run returns with ⟨rfl, rfl⟩
      exact after
    · rcases ih.alloc_full fits (by omega) (by omega) with ⟨u, panics⟩
      exact absurd returns (not_returned ⟨_, u, panics⟩)
  | write _ mem _ value ih => exact ih.write fits mem value

/-! ## The cache of the region list -/

theorem vmObjects_length : vmObjects.length = 339 := by simp [vmObjects]

theorem drop_vmObjects {n : ℕ} (less : n < 339) :
    vmObjects.drop n = (slabVmBase + slabSize - 40 * (n + 1)) :: vmObjects.drop (n + 1) := by
  have bound : n < vmObjects.length := by rwa [vmObjects_length]
  rw [List.drop_eq_getElem_cons bound]
  simp [vmObjects]

/-- `sizeof(struct vm_node)` is 40; a slab has 341 objects of this size. -/
theorem objectAt_node {n : ℕ} (less : n < 341) :
    objectAt 40 (objectsPerSlab 40) (objectsPerSlab 40 - (n + 1)) = slabVmBase + slabSize - 40 *
      (n + 1) := by
  rw [show objectsPerSlab 40 = 341 by decide, objectAt, objectStart]
  simp only [slabVmBase, slabSize]
  omega

/-- The region list is given what the slab has: the same object, zeroed, or the same panic. -/
theorem FreshRun.supplies {s : State} {live : List ℕ} (run : FreshRun 40 s live) {v : Vmm}
    (left : v.slab = vmObjects.drop live.length) :
    match Vineyard.mmSlabAlloc v with
    | .ok (p, v') => ∃ t, mmSlabAlloc.run s = (.ok p, t) ∧ FreshRun 40 t (p :: live) ∧
        v'.slab = vmObjects.drop (p :: live).length ∧ v'.heap p = ⟨0, 0, 0, 0, 0⟩ ∧
        ∀ i < 40, t.mem (p + i) = 0
    | .error e => ∃ t, mmSlabAlloc.run s = (.error e, t) := by
  have small : 40 + 8 < 2 ^ 64 := by decide
  have count : objectsPerSlab 40 = 341 := by decide
  have fits := fits_objectsPerSlab small
  have order := run.inOrder small (by decide)
  rw [Vineyard.mmSlabAlloc, left]
  by_cases room : live.length < 339
  · rw [drop_vmObjects room]
    rcases order.alloc fits (by omega) with ⟨t, returns, _, zero⟩
    rw [objectAt_node (by omega)] at returns zero
    refine ⟨t, returns, .alloc run returns, rfl, ?_, zero⟩
    simp
  · rw [List.drop_eq_nil_of_le (by rw [vmObjects_length]; omega)]
    exact order.alloc_full fits (by omega) (by omega)

/-- After two nodes at the end of the slab comes the third. -/
theorem FreshRun.supplies_third : ∃ s t live, live.length = 2 ∧ FreshRun 40 s live ∧
    mmSlabAlloc.run s = (.ok (slabVmBase + slabSize - 40 * 3), t) := by
  have small : 40 + 8 < 2 ^ 64 := by decide
  have fits := fits_objectsPerSlab small
  rcases mmCacheCreateVm_run small (fun _ => 0) with ⟨s, created, _⟩
  have run : FreshRun 40 s [] := .create created
  rcases (run.inOrder small (by decide)).alloc fits (by decide) with ⟨s₁, first, order, _⟩
  have run₁ := run.alloc first
  rcases order.alloc fits (by decide) with ⟨s₂, second, _⟩
  have run₂ := run₁.alloc second
  have third := run₂.supplies (v := .empty (fun _ => ⟨0, 0, 0, 0, 0⟩) (vmObjects.drop 2)) rfl
  rw [Vineyard.mmSlabAlloc, Vmm.empty, drop_vmObjects (show 2 < 339 by decide)] at third
  rcases third with ⟨t, returns, _⟩
  exact ⟨s₂, t, _, rfl, run₂, returns⟩

end Vineyard.Slab

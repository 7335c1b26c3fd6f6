import Vineyard.Slab.Objects

/-!
# The list a slab is in

`mm_slab_alloc` moves the slab only when it is about to ask for a new one, and `mm_slab_free` moves
nothing, so after every run without a panic the slab is still in `slabs_free`.
-/

namespace Vineyard.Slab

/-- The three lists are well formed, and the slab is in the one that its fill level names. -/
def Placed (s : State) : Prop :=
  ∃ full part free : List ℕ,
    ListHolds s.heap s.vm.slabsFull full ∧ ListHolds s.heap s.vm.slabsPartial part ∧
      ListHolds s.heap s.vm.slabsFree free ∧ (full ++ part ++ free).count vmNode = 1 ∧
      (vmNode ∈ free ↔ slabInuse s = 0) ∧ (vmNode ∈ full ↔ slabInuse s = s.vm.objectsPerSlab) ∧
      (vmNode ∈ part ↔ slabInuse s ≠ 0 ∧ slabInuse s ≠ s.vm.objectsPerSlab)

section Places

variable {size count : ℕ} {s : State} {live indices : List ℕ}

theorem Inv.listHolds_free (inv : Inv size count s live indices) :
    ListHolds s.heap s.vm.slabsFree [vmNode] := by
  have next : (s.heap vmNode).next = 0 := by rw [inv.node]
  have prev : (s.heap vmNode).prev = 0 := by rw [inv.node]
  rw [inv.slabsFree]
  exact ⟨Links.isList_singleton (by decide) next prev, rfl⟩

/-- The slab is always in `slabs_free`, which is right only while no object is live. -/
theorem Inv.placed_iff (inv : Inv size count s live indices) : Placed s ↔ live = [] ∧ 0 < count := by
  have inuse : slabInuse s = live.length := inv.inuse
  unfold Placed
  rw [inv.slabsFull, inv.slabsPartial, inv.objectsPerSlab, inuse]
  constructor
  · rintro ⟨full, part, free, holdsFull, holdsPart, holdsFree, _, atFree, atFull, _⟩
    rw [inv.slabsFree] at holdsFree
    have none : live.length = 0 := by
      apply atFree.mp
      rw [holdsFree.eq_singleton]
      exact List.mem_singleton_self _
    refine ⟨List.length_eq_zero_iff.mp none, Nat.pos_of_ne_zero fun zero => ?_⟩
    have isFull : vmNode ∈ full := atFull.mpr (none.trans zero.symm)
    rw [holdsFull.eq_nil] at isFull
    exact List.not_mem_nil isFull
  · rintro ⟨none, positive⟩
    have zero : live.length = 0 := by rw [none, List.length_nil]
    refine ⟨[], [], [vmNode], listHolds_nil _, listHolds_nil _, inv.listHolds_free,
      by decide, ?_, ?_, ?_⟩
    · exact iff_of_true (List.mem_singleton_self _) zero
    · exact iff_of_false List.not_mem_nil (by omega)
    · exact iff_of_false List.not_mem_nil fun used => used.1 zero

end Places

/-- After a run without a panic the slab is in the list that its fill level names if and only if every
object allocated has been freed and the slab has room for an object at all. -/
theorem run_placed_iff (objSize : ℕ) (word : objSize < 2 ^ 64) {s : State} {live : List ℕ}
    (run : Run objSize s live) : Placed s ↔ live = [] ∧ 0 < objectsPerSlab objSize := by
  rcases run.inv word with ⟨_, indices, inv⟩
  exact inv.placed_iff

/-- After one allocation the slab has an object in use and is still in `slabs_free`. -/
theorem not_placed_alloc : ∃ s object, Run 64 s [object] ∧ slabInuse s = 1 ∧
    ListHolds s.heap s.vm.slabsFree [vmNode] ∧ ¬ Placed s := by
  rcases mmCacheCreateVm_run (by decide : 64 + 8 < 2 ^ 64) (fun _ => 0) with ⟨s, created, inv⟩
  rcases inv.alloc_good (fits_objectsPerSlab (by decide)) (by decide) (by decide) with
    ⟨object, t, returns, _⟩
  have run : Run 64 t [object] := .alloc (.create created) returns
  rcases run.inv (by decide) with ⟨_, indices, after⟩
  exact ⟨t, object, run, after.inuse, after.listHolds_free, fun placed =>
    List.cons_ne_nil _ _ (after.placed_iff.mp placed).1⟩

/-- An object in use can be freed. -/
theorem Run.frees {objSize : ℕ} (word : objSize < 2 ^ 64) (positive : 0 < objSize) {s : State}
    {live : List ℕ} (run : Run objSize s live) {object : ℕ} (mem : object ∈ live) :
    ∃ t, (mmSlabFree object).run s = (.ok (), t) := by
  rcases run.inv word with ⟨small, indices, inv⟩
  rw [inv.live_eq] at mem
  rcases List.mem_map.mp mem with ⟨k, inIndices, rfl⟩
  exact ⟨_, inv.mmSlabFree_run (fits_objectsPerSlab small) positive inIndices⟩

/-- Two objects are allocated and freed again. -/
theorem run_placed_freed : ∃ s first second t u, Run 64 s [second, first] ∧
    (mmSlabFree second).run s = (.ok (), t) ∧ (mmSlabFree first).run t = (.ok (), u) ∧ Placed u := by
  have fits := fits_objectsPerSlab (show 64 + 8 < 2 ^ 64 by decide)
  rcases mmCacheCreateVm_run (by decide : 64 + 8 < 2 ^ 64) (fun _ => 0) with ⟨s, created, inv⟩
  rcases inv.alloc_good fits (by decide) (by decide) with ⟨first, s₁, returns, _⟩
  have run₁ : Run 64 s₁ [first] := .alloc (.create created) returns
  rcases run₁.inv (by decide) with ⟨_, indices, inv₁⟩
  have room : 1 < objectsPerSlab 64 - (1 + 1) := by decide
  rcases inv₁.alloc_good fits (by decide) room with ⟨second, s₂, returns₁, _⟩
  have run₂ : Run 64 s₂ [second, first] := .alloc run₁ returns₁
  have one : second ∈ [second, first] := List.mem_cons_self
  rcases run₂.frees (by decide) (by decide) one with ⟨t, frees⟩
  have run₃ := run₂.free one frees
  rw [List.erase_cons_head] at run₃
  rcases run₃.frees (by decide) (by decide) (List.mem_singleton_self first) with ⟨u, frees'⟩
  have run₄ := run₃.free (List.mem_singleton_self first) frees'
  exact ⟨s₂, first, second, t, u, run₂, frees, frees',
    (run_placed_iff 64 (by decide) run₄).mpr ⟨List.erase_cons_head .., by decide⟩⟩

end Vineyard.Slab

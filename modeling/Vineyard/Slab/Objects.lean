import Mathlib.Data.List.Perm.Basic
import Vineyard.Slab.Cache

/-!
# Objects of a slab never overlap

The words `free[0 .. count - inuse)` and the indices of the live objects are together a permutation of
all indices.  `mm_slab_alloc` takes the last word of the stack and `mm_slab_free` pushes one, so the
permutation is kept; the header ends before the first object, so a write to an object leaves it.
-/

namespace Vineyard.Slab

open Bytes Programs Programs.Prog

section Accesses

variable {a v n : ℕ} {c : UInt8}

theorem loadWord_run (mapped : Mapped a 8) (s : State) :
    (loadWord a).run s = (.ok (load s.mem a 8), s) := by
  unfold loadWord
  rw [run_bind_of_ok (run_get s), if_pos mapped, run_pure]

theorem loadWord_fault (unmapped : ¬ Mapped a 8) (s : State) :
    (loadWord a).run s = (.error (.pageFault a), s) := by
  unfold loadWord
  rw [run_bind_of_ok (run_get s), if_neg unmapped, run_fail]

theorem storeWord_run (mapped : Mapped a 8) (s : State) :
    (storeWord a v).run s = (.ok (), { s with mem := Bytes.store s.mem a v 8 }) := by
  unfold storeWord
  rw [if_pos mapped, run_modify]

theorem storeWord_fault (unmapped : ¬ Mapped a 8) (s : State) :
    (storeWord a v).run s = (.error (.pageFault a), s) := by
  unfold storeWord
  rw [if_neg unmapped, run_fail]

theorem memset_run (mapped : n = 0 ∨ Mapped a n) (s : State) :
    (memset a c n).run s = (.ok (), { s with mem := fill s.mem a n c }) := by
  unfold memset
  rw [if_pos mapped, run_modify]

theorem memset_fault (unmapped : ¬ (n = 0 ∨ Mapped a n)) (s : State) :
    (memset a c n).run s = (.error (.pageFault a), s) := by
  unfold memset
  rw [if_neg unmapped, run_fail]

end Accesses

/-! ## The layout -/

/-- The header, the stack and the objects fit in the slab. -/
def Fits (size count : ℕ) : Prop := count * (size + 8) ≤ slabSize - 16

/-- The address of the first object. -/
def objectStart (size count : ℕ) : ℕ := slabVmBase + slabSize - count * size

/-- The address of an object. -/
def objectAt (size count k : ℕ) : ℕ := objectStart size count + size * k

/-- The address of word `i` of the stack. -/
def freeWord (i : ℕ) : ℕ := slabVmBase + 16 + 8 * i

/-- The first `n` words of the stack. -/
def freeList (mem : Memory) (n : ℕ) : List ℕ := (List.range n).map fun i => load mem (freeWord i) 8

section Layout

variable {size count i k : ℕ}

theorem Fits.bounds (fits : Fits size count) : count * size + 8 * count ≤ 0x3FF0 := by
  have room : count * (size + 8) ≤ 0x3FF0 := fits
  rw [Nat.mul_add] at room
  omega

theorem Fits.mapped_free (fits : Fits size count) (less : i < count) : Mapped (freeWord i) 8 := by
  have room := fits.bounds
  unfold Mapped freeWord
  simp only [slabVmBase, slabSize]
  omega

theorem Fits.freeSlot_eq (fits : Fits size count) (less : i < count) :
    freeSlot slabVmBase i = freeWord i := by
  have room := fits.bounds
  unfold freeSlot freeWord
  simp only [slabVmBase]
  omega

/-- An object ends inside the slab. -/
theorem Fits.objectAt_le (fits : Fits size count) (less : k < count) :
    objectAt size count k + size ≤ slabVmBase + slabSize := by
  have room := fits.bounds
  have last : size * k + size ≤ count * size := by
    rw [← Nat.mul_succ, Nat.mul_comm]
    exact Nat.mul_le_mul_right _ less
  unfold objectAt objectStart
  simp only [slabVmBase, slabSize]
  omega

theorem Fits.objectStart_ge (fits : Fits size count) :
    slabVmBase + 16 + 8 * count ≤ objectStart size count := by
  have room := fits.bounds
  unfold objectStart
  simp only [slabVmBase, slabSize]
  omega

theorem Fits.mapped_object (fits : Fits size count) (less : k < count) :
    Mapped (objectAt size count k) size := by
  have low := fits.objectStart_ge
  have high := fits.objectAt_le less
  refine ⟨?_, high⟩
  unfold objectAt
  omega

theorem objectAt_apart {j : ℕ} (different : j ≠ k) :
    objectAt size count j + size ≤ objectAt size count k ∨
      objectAt size count k + size ≤ objectAt size count j := by
  unfold objectAt
  rcases Nat.lt_or_gt_of_ne different with less | more
  · left
    have := Nat.mul_le_mul_left size less
    rw [Nat.mul_succ] at this
    omega
  · right
    have := Nat.mul_le_mul_left size more
    rw [Nat.mul_succ] at this
    omega

theorem mapped_start : Mapped slabVmBase 8 := by decide

theorem mapped_inuse : Mapped (slabVmBase + 8) 8 := by decide

end Layout

/-! ## The invariant -/

/-- The slab is the one in `slabs_free`, its header counts the live objects, and the words of the stack
are the indices of the others. -/
structure Inv (size count : ℕ) (s : State) (live : List ℕ) (indices : List ℕ) : Prop where
  objectSize : s.vm.objectSize = size
  objectsPerSlab : s.vm.objectsPerSlab = count
  slabsFull : s.vm.slabsFull = ⟨0, 0, 0⟩
  slabsPartial : s.vm.slabsPartial = ⟨0, 0, 0⟩
  slabsFree : s.vm.slabsFree = ⟨vmNode, vmNode, 1⟩
  node : s.heap vmNode = ⟨0, 0, slabVmBase⟩
  start : load s.mem slabVmBase 8 = objectStart size count
  inuse : load s.mem (slabVmBase + 8) 8 = live.length
  live_eq : live = indices.map (objectAt size count)
  perm : (freeList s.mem (count - live.length) ++ indices).Perm (List.range count)
  few : live = [] ∨ live.length + 2 ≤ count

theorem freeList_succ (mem : Memory) (n : ℕ) :
    freeList mem (n + 1) = freeList mem n ++ [load mem (freeWord n) 8] := by
  unfold freeList
  rw [List.range_succ, List.map_append]
  rfl

theorem freeList_congr {mem mem' : Memory} {n : ℕ}
    (same : ∀ i < n, load mem' (freeWord i) 8 = load mem (freeWord i) 8) :
    freeList mem' n = freeList mem n := by
  refine List.map_congr_left fun i range => ?_
  exact same i (List.mem_range.mp range)

section Alloc

variable {size count : ℕ} {s : State} {live indices : List ℕ}

theorem Inv.mmSlabGet_run (inv : Inv size count s live indices) :
    mmSlabGet.run s = (.ok slabVmBase, s) := by
  unfold mmSlabGet
  rw [run_bind_of_ok (run_get s), inv.slabsPartial, if_neg (by decide), inv.slabsFree,
    if_pos (by decide), inv.node, run_pure]

theorem Inv.live_le (inv : Inv size count s live indices) : live.length ≤ count := by
  rcases inv.few with none | some
  · rw [none]
    exact Nat.zero_le _
  · omega

theorem Inv.live_lt (inv : Inv size count s live indices) (positive : 0 < count) :
    live.length < count := by
  rcases inv.few with none | some
  · rw [none]
    exact positive
  · omega

/-- The index that `mm_slab_alloc` takes. -/
def topIndex (s : State) (count : ℕ) (live : List ℕ) : ℕ :=
  load s.mem (freeWord (count - live.length - 1)) 8

/-- The stack is what is left and the index on top. -/
theorem Inv.freeList_eq (inv : Inv size count s live indices) (positive : 0 < count) :
    freeList s.mem (count - live.length) =
      freeList s.mem (count - (live.length + 1)) ++ [topIndex s count live] := by
  have less := inv.live_lt positive
  have split := freeList_succ s.mem (count - live.length - 1)
  rwa [show count - live.length - 1 + 1 = count - live.length by omega] at split

theorem Inv.topIndex_lt (inv : Inv size count s live indices) (positive : 0 < count) :
    topIndex s count live < count := by
  have mem : topIndex s count live ∈ freeList s.mem (count - live.length) ++ indices := by
    rw [inv.freeList_eq positive]
    exact List.mem_append_left _ (List.mem_append_right _ (List.mem_singleton_self _))
  exact List.mem_range.mp (inv.perm.mem_iff.mp mem)

/-- The memory after the header has been updated for one more object. -/
def takenMem (s : State) (count : ℕ) (live : List ℕ) : Memory :=
  Bytes.store (Bytes.store s.mem (freeWord (count - live.length - 1)) 0 8) (slabVmBase + 8)
    (live.length + 1) 8

/-- What `mm_slab_alloc` does up to the test for a full slab. -/
theorem Inv.mmSlabAlloc_run (inv : Inv size count s live indices) (fits : Fits size count)
    (positive : 0 < count) :
    ∃ queue queueUp, mmSlabAlloc.run s =
      ((if count - (live.length + 1) ≤ 1 then do
          moveTail queue queueUp
          mmSlabCreate
        else pure ()) >>= fun _ => memset (objectAt size count (topIndex s count live)) 0 size >>=
          fun _ => (pure (objectAt size count (topIndex s count live)) : SlabM ℕ)).run
        { s with mem := takenMem s count live } := by
  have less := inv.live_lt positive
  have room := fits.bounds
  have top := inv.topIndex_lt positive
  have index : Word64.sub (Word64.sub count live.length) 1 = count - live.length - 1 := by
    rw [Word64.sub_eq less.le (by omega), Word64.sub_eq (by omega) (by omega)]
  have slot : freeSlot slabVmBase (count - live.length - 1) = freeWord (count - live.length - 1) :=
    fits.freeSlot_eq (by omega)
  have mapped : Mapped (freeWord (count - live.length - 1)) 8 := fits.mapped_free (by omega)
  have addr : Word64.add (objectStart size count) (size * topIndex s count live % 2 ^ 64) =
      objectAt size count (topIndex s count live) := by
    have inside := fits.objectAt_le top
    unfold objectAt at inside ⊢
    simp only [slabVmBase, slabSize] at inside
    rw [Nat.mod_eq_of_lt (by omega)]
    exact Word64.add_eq (by omega)
  unfold mmSlabAlloc
  rw [run_bind_of_ok inv.mmSlabGet_run, if_neg (by decide), run_bind_of_ok (run_get s),
    run_bind_of_ok (loadWord_run mapped_start s), run_bind_of_ok (loadWord_run mapped_inuse s),
    inv.start, inv.inuse, inv.objectSize, inv.objectsPerSlab, index]
  dsimp only
  have popped : load s.mem (freeWord (count - live.length - 1)) 8 = topIndex s count live := rfl
  rw [slot, run_bind_of_ok (loadWord_run mapped s), popped, addr]
  -- the word on top of the stack is not the counter
  have counter : load (Bytes.store s.mem (freeWord (count - live.length - 1)) 0 8)
    (slabVmBase + 8) 8 =
      live.length := by
    rw [load_store_off (by unfold freeWord; omega), inv.inuse]
  have counted : load (takenMem s count live) (slabVmBase + 8) 8 = live.length + 1 :=
    load_store (by omega)
  have left : Word64.sub count (live.length + 1) = count - (live.length + 1) :=
    Word64.sub_eq (by omega) (by omega)
  have next : Word64.add live.length 1 = live.length + 1 := Word64.add_eq (by omega)
  generalize (if live.length = 0 then (Queue.slabsFree, Queue.slabsPartial)
    else (Queue.slabsPartial, Queue.slabsFull)) = queues
  rcases queues with ⟨queue, queueUp⟩
  refine ⟨queue, queueUp, ?_⟩
  rw [run_bind_of_ok (storeWord_run mapped s), run_bind_of_ok (loadWord_run mapped_inuse _), counter,
    next, run_bind_of_ok (storeWord_run mapped_inuse _), run_bind_of_ok (loadWord_run mapped_inuse _)]
  have taken : Bytes.store (Bytes.store s.mem (freeWord (count - live.length - 1)) 0 8)
    (slabVmBase + 8)
      (live.length + 1) 8 = takenMem s count live := rfl
  rw [taken, counted, left]

/-- With at most one index left the new slab is asked for. -/
theorem Inv.alloc_full (inv : Inv size count s live indices) (fits : Fits size count)
    (positive : 0 < count) (full : count - (live.length + 1) ≤ 1) :
    ∃ t, mmSlabAlloc.run s = (.error (.panic "mm_slab_create unimplemented"), t) := by
  rcases inv.mmSlabAlloc_run fits positive with ⟨queue, queueUp, run⟩
  rw [run, if_pos full]
  exact ⟨_, rfl⟩

/-- The memory after `mm_slab_alloc`. -/
def allocMem (s : State) (size count : ℕ) (live : List ℕ) : Memory :=
  fill (takenMem s count live) (objectAt size count (topIndex s count live)) size 0

theorem allocMem_zero (s : State) (count : ℕ) (live : List ℕ) {i : ℕ} (less : i < size) :
    allocMem s size count live (objectAt size count (topIndex s count live) + i) = 0 := by
  unfold allocMem
  exact fill_inside (Nat.le_add_right _ _) (Nat.add_lt_add_left less _)

/-- Otherwise the object of the index on top is zeroed and returned. -/
theorem Inv.alloc_room (inv : Inv size count s live indices) (fits : Fits size count)
    (room : 1 < count - (live.length + 1)) :
    mmSlabAlloc.run s = (.ok (objectAt size count (topIndex s count live)),
      { s with mem := allocMem s size count live }) := by
  have positive : 0 < count := by omega
  rcases inv.mmSlabAlloc_run fits positive with ⟨queue, queueUp, run⟩
  have mapped := fits.mapped_object (inv.topIndex_lt positive)
  rw [run, if_neg (Nat.not_le_of_lt room), pure_bind,
    run_bind_of_ok (memset_run (.inr mapped) _), run_pure]
  rfl

theorem objectStart_le (size count k : ℕ) : objectStart size count ≤ objectAt size count k :=
  Nat.le_add_right _ _

/-- A word of the header is not in an object. -/
theorem Fits.load_fill (fits : Fits size count) {mem : Memory} {a k n : ℕ} {c : UInt8}
    (header : a + 8 ≤ slabVmBase + 16 + 8 * count) (low : objectStart size count ≤ k) :
    load (fill mem k n c) a 8 = load mem a 8 := by
  have start := fits.objectStart_ge
  exact load_fill_off (.inl (by omega))

/-- The words of the header other than the counter and the top of the stack are kept. -/
theorem Fits.load_allocMem (fits : Fits size count) {a : ℕ}
    (header : a + 8 ≤ slabVmBase + 16 + 8 * count)
    (counter : a + 8 ≤ slabVmBase + 8 ∨ slabVmBase + 16 ≤ a)
    (slot : a + 8 ≤ freeWord (count - live.length - 1) ∨ freeWord (count - live.length - 1) + 8 ≤ a) :
    load (allocMem s size count live) a 8 = load s.mem a 8 := by
  unfold allocMem takenMem
  rw [fits.load_fill header (objectStart_le size count _), load_store_off (by omega),
    load_store_off slot]

theorem Fits.inuse_allocMem (fits : Fits size count) (less : live.length < count) :
    load (allocMem s size count live) (slabVmBase + 8) 8 = live.length + 1 := by
  have small := fits.bounds
  unfold allocMem takenMem
  rw [fits.load_fill (by omega) (objectStart_le size count _)]
  exact load_store (by omega)

theorem Fits.freeList_allocMem (fits : Fits size count) :
    freeList (allocMem s size count live) (count - (live.length + 1)) =
      freeList s.mem (count - (live.length + 1)) := by
  refine freeList_congr fun i less => fits.load_allocMem ?_ ?_ ?_
  · unfold freeWord
    omega
  · unfold freeWord
    omega
  · unfold freeWord
    omega

theorem Inv.alloc (inv : Inv size count s live indices) (fits : Fits size count)
    (room : 1 < count - (live.length + 1)) :
    Inv size count { s with mem := allocMem s size count live }
      (objectAt size count (topIndex s count live) :: live) (topIndex s count live :: indices) := by
  have positive : 0 < count := by omega
  have start : load (allocMem s size count live) slabVmBase 8 = objectStart size count := by
    rw [fits.load_allocMem (by omega) (.inl (by omega)) (.inl (by unfold freeWord; omega)), inv.start]
  have live_eq : objectAt size count (topIndex s count live) :: live =
      (topIndex s count live :: indices).map (objectAt size count) := by
    rw [List.map_cons, ← inv.live_eq]
  have perm := inv.perm
  rw [inv.freeList_eq positive, List.append_assoc, ← fits.freeList_allocMem] at perm
  have inuse := @Fits.inuse_allocMem size count s live fits (inv.live_lt positive)
  have few : live.length + 1 + 2 ≤ count := by omega
  generalize allocMem s size count live = mem at *
  refine ⟨inv.objectSize, inv.objectsPerSlab, inv.slabsFull, inv.slabsPartial,
    inv.slabsFree, inv.node, ?_, ?_, ?_, ?_, ?_⟩
  · exact start
  · exact inuse
  · exact live_eq
  · exact perm
  · exact .inr few

end Alloc

section Free

variable {size count : ℕ} {s : State} {live indices : List ℕ}

/-- The slab of an object is found from its address. -/
theorem Fits.slab_eq (fits : Fits size count) (positive : 0 < size) {k : ℕ} (less : k < count) :
    objectAt size count k &&& (2 ^ 64 - slabSize) = slabVmBase := by
  have low := fits.objectStart_ge
  have high := fits.objectAt_le less
  have field := Words.and_field (objectAt size count k) 14 64 (by decide)
  have mask : 2 ^ 64 - slabSize = 2 ^ 64 - 2 ^ 14 := rfl
  rw [mask, field]
  unfold objectAt at high ⊢
  simp only [slabVmBase, slabSize] at low high ⊢
  omega

/-- The memory after `mm_slab_free`. -/
def freedMem (s : State) (count : ℕ) (live : List ℕ) (k : ℕ) : Memory :=
  Bytes.store (Bytes.store s.mem (slabVmBase + 8) (live.length - 1) 8)
    (freeWord (count - live.length)) k 8

theorem Inv.indices_lt (inv : Inv size count s live indices) {k : ℕ} (mem : k ∈ indices) :
    k < count :=
  List.mem_range.mp (inv.perm.mem_iff.mp (List.mem_append_right _ mem))

theorem Inv.length_eq (inv : Inv size count s live indices) : live.length = indices.length := by
  rw [inv.live_eq, List.length_map]

/-- The index of a live object is pushed on the stack. -/
theorem Inv.mmSlabFree_run (inv : Inv size count s live indices) (fits : Fits size count)
    (positive : 0 < size) {k : ℕ} (mem : k ∈ indices) :
    (mmSlabFree (objectAt size count k)).run s =
      (.ok (), { s with mem := freedMem s count live k }) := by
  have less := inv.indices_lt mem
  have some : 0 < live.length := by
    rw [inv.length_eq]
    exact List.length_pos_of_mem mem
  have bound := inv.live_le
  have small := fits.bounds
  have high := fits.objectAt_le less
  simp only [slabVmBase, slabSize] at high
  have offset : Word64.sub (objectAt size count k) (objectStart size count) = size * k := by
    unfold objectAt at high ⊢
    rw [Word64.sub_eq (Nat.le_add_right _ _) (by omega), Nat.add_sub_cancel_left]
  have left : Word64.sub count live.length = count - live.length := Word64.sub_eq bound (by omega)
  have fewer : Word64.sub live.length 1 = live.length - 1 := Word64.sub_eq some (by omega)
  unfold mmSlabFree
  dsimp only
  rw [fits.slab_eq positive less, run_bind_of_ok (run_get s),
    run_bind_of_ok (loadWord_run mapped_start s), inv.start, inv.objectSize, inv.objectsPerSlab,
    if_neg (Nat.ne_of_gt positive), run_bind_of_ok (loadWord_run mapped_inuse s), inv.inuse, offset,
    left, fewer, run_bind_of_ok (storeWord_run mapped_inuse s), fits.freeSlot_eq (by omega),
    storeWord_run (fits.mapped_free (by omega)), Nat.mul_div_cancel_left k positive]
  rfl

theorem objectAt_injective (positive : 0 < size) : Function.Injective (objectAt size count) := by
  intro j k same
  unfold objectAt at same
  exact Nat.eq_of_mul_eq_mul_left positive (Nat.add_left_cancel same)

/-- The words of the header other than the counter and the slot above the stack are kept. -/
theorem load_freedMem {a k : ℕ} (counter : a + 8 ≤ slabVmBase + 8 ∨ slabVmBase + 16 ≤ a)
    (slot : a + 8 ≤ freeWord (count - live.length) ∨ freeWord (count - live.length) + 8 ≤ a) :
    load (freedMem s count live k) a 8 = load s.mem a 8 := by
  unfold freedMem
  rw [load_store_off slot, load_store_off (by omega)]

theorem freeList_freedMem {k : ℕ} (small : k < 2 ^ 64) :
    freeList (freedMem s count live k) (count - live.length + 1) =
      freeList s.mem (count - live.length) ++ [k] := by
  have below : freeList (freedMem s count live k) (count - live.length) =
      freeList s.mem (count - live.length) := by
    refine freeList_congr fun i less => load_freedMem ?_ ?_
    · unfold freeWord
      omega
    · unfold freeWord
      omega
  have top : load (freedMem s count live k) (freeWord (count - live.length)) 8 = k :=
    load_store small
  rw [freeList_succ, below, top]

theorem Inv.free (inv : Inv size count s live indices) (fits : Fits size count) (positive : 0 < size)
    {k : ℕ} (mem : k ∈ indices) :
    Inv size count { s with mem := freedMem s count live k } (live.erase (objectAt size count k))
      (indices.erase k) := by
  have less := inv.indices_lt mem
  have room := fits.bounds
  have isLive : objectAt size count k ∈ live := by
    rw [inv.live_eq]
    exact List.mem_map_of_mem mem
  have some : 0 < live.length := List.length_pos_of_mem isLive
  have few : live.length + 2 ≤ count := by
    refine inv.few.resolve_left fun none => ?_
    rw [none] at some
    exact absurd some (by decide)
  have start : load (freedMem s count live k) slabVmBase 8 = objectStart size count := by
    rw [load_freedMem (.inl (Nat.le_refl _)) (.inl (by unfold freeWord; omega)), inv.start]
  have inuse : load (freedMem s count live k) (slabVmBase + 8) 8 =
      (live.erase (objectAt size count k)).length := by
    unfold freedMem
    rw [load_store_off (.inl (by unfold freeWord; omega)), load_store (by omega),
      List.length_erase_of_mem isLive]
  have live_eq : live.erase (objectAt size count k) =
      (indices.erase k).map (objectAt size count) := by
    rw [List.map_erase (objectAt_injective positive), ← inv.live_eq]
  have stack : freeList (freedMem s count live k)
    (count - (live.erase (objectAt size count k)).length) =
      freeList s.mem (count - live.length) ++ [k] := by
    rw [List.length_erase_of_mem isLive,
      show count - (live.length - 1) = count - live.length + 1 by omega]
    exact freeList_freedMem (by omega)
  have perm : (freeList (freedMem s count live k)
      (count - (live.erase (objectAt size count k)).length) ++ indices.erase k).Perm
        (List.range count) := by
    rw [stack, List.append_assoc]
    exact ((List.perm_cons_erase mem).symm.append_left _).trans inv.perm
  have fewer : (live.erase (objectAt size count k)).length + 2 ≤ count := by
    rw [List.length_erase_of_mem isLive]
    omega
  generalize freedMem s count live k = after at *
  refine ⟨inv.objectSize, inv.objectsPerSlab, inv.slabsFull, inv.slabsPartial,
    inv.slabsFree, inv.node, ?_, ?_, ?_, ?_, ?_⟩
  · exact start
  · exact inuse
  · exact live_eq
  · exact perm
  · exact .inr fewer

/-- The stack is not in an object. -/
theorem Fits.freeList_write (fits : Fits size count) {mem : Memory} {a n : ℕ} (value : UInt8)
    (less : n ≤ count) (low : objectStart size count ≤ a) :
    freeList (fill mem a 1 value) n = freeList mem n := by
  refine freeList_congr fun j here => fits.load_fill ?_ low
  unfold freeWord
  omega

/-- A write to a byte of an object leaves the header. -/
theorem Inv.write (inv : Inv size count s live indices) (fits : Fits size count) {object i : ℕ}
    (mem : object ∈ live) (value : UInt8) :
    Inv size count { s with mem := fill s.mem (object + i) 1 value } live indices := by
  rw [inv.live_eq] at mem
  rcases List.mem_map.mp mem with ⟨k, inIndices, rfl⟩
  have low : objectStart size count ≤ objectAt size count k + i :=
    Nat.le_trans (objectStart_le size count k) (Nat.le_add_right _ _)
  have bound := inv.live_le
  have start := @Fits.load_fill size count fits s.mem slabVmBase _ 1 value (by omega) low
  have inuse := @Fits.load_fill size count fits s.mem (slabVmBase + 8) _ 1 value (by omega) low
  have perm := inv.perm
  rw [← fits.freeList_write value (Nat.sub_le count live.length) low] at perm
  generalize fill s.mem (objectAt size count k + i) 1 value = after at *
  refine ⟨inv.objectSize, inv.objectsPerSlab, inv.slabsFull, inv.slabsPartial,
    inv.slabsFree, inv.node, ?_, ?_, inv.live_eq, ?_, inv.few⟩
  · exact start.trans inv.start
  · exact inuse.trans inv.inuse
  · exact perm

end Free

section Create

variable {size count : ℕ} {s t : State}

/-- The memory after the stack has been filled. -/
def filledMem (mem : Memory) (n : ℕ) : Memory :=
  (List.range n).foldl (fun mem i => Bytes.store mem (freeWord i) i 8) mem

theorem filledMem_succ (mem : Memory) (n : ℕ) :
    filledMem mem (n + 1) = Bytes.store (filledMem mem n) (freeWord n) n 8 := by
  unfold filledMem
  rw [List.range_succ, List.foldl_append]
  rfl

theorem load_filledMem_header (mem : Memory) (n : ℕ) {a : ℕ} (header : a + 8 ≤ slabVmBase + 16) :
    load (filledMem mem n) a 8 = load mem a 8 := by
  induction n with
  | zero => rfl
  | succ n ih =>
    rw [filledMem_succ, load_store_off (.inl (by unfold freeWord; omega)), ih]

theorem load_filledMem (mem : Memory) {n i : ℕ} (less : i < n) (small : n ≤ 2 ^ 64) :
    load (filledMem mem n) (freeWord i) 8 = i := by
  induction n with
  | zero => omega
  | succ n ih =>
    rw [filledMem_succ]
    by_cases last : i = n
    · rw [last]
      exact load_store (by omega)
    · rw [load_store_off (.inl (by unfold freeWord; omega)), ih (by omega) (by omega)]

/-- The loop that fills the stack stays in the slab or faults. -/
theorem fillStack_run (l : List ℕ) (s : State) :
    ((forEach l fun i => storeWord (freeSlot slabVmBase i) i).run s).1 = .ok () ↔
      ∀ i ∈ l, Mapped (freeSlot slabVmBase i) 8 := by
  induction l generalizing s with
  | nil => simp
  | cons i rest ih =>
    rw [forEach_cons]
    by_cases mapped : Mapped (freeSlot slabVmBase i) 8
    · rw [run_bind_of_ok (storeWord_run mapped s), ih]
      simp [mapped]
    · rw [run_bind_of_error (storeWord_fault mapped s)]
      simp [mapped]

theorem fillStack_state (fits : Fits size count) {l : List ℕ} (inside : ∀ i ∈ l, i < count)
    (s : State) :
    (forEach l fun i => storeWord (freeSlot slabVmBase i) i).run s =
      (.ok (), { s with mem := l.foldl (fun mem i => Bytes.store mem (freeWord i) i 8) s.mem }) := by
  induction l generalizing s with
  | nil => rfl
  | cons i rest ih =>
    have here := inside i List.mem_cons_self
    rw [forEach_cons, fits.freeSlot_eq here, run_bind_of_ok (storeWord_run (fits.mapped_free here) s),
      ih fun j mem => inside j (List.mem_cons_of_mem i mem)]
    rfl

/-- The memory of a new slab. -/
def createdMem (mem : Memory) (size count : ℕ) : Memory :=
  fill (filledMem (Bytes.store (Bytes.store mem slabVmBase (objectStart size count) 8)
    (slabVmBase + 8) 0 8) count)
    (objectStart size count) (count * size) 0

theorem mmSlabCreateInitial_run (fits : Fits size count) (s : State) :
    (mmSlabCreateInitial size count).run s =
      (.ok slabVmBase, { s with mem := createdMem s.mem size count }) := by
  have room := fits.bounds
  have bytes : count * size % 2 ^ 64 = count * size := Nat.mod_eq_of_lt (by omega)
  have start : Word64.sub (slabVmBase + slabSize) (count * size) = objectStart size count := by
    unfold objectStart
    simp only [slabVmBase, slabSize]
    exact Word64.sub_eq (by omega) (by omega)
  have mapped : Mapped (objectStart size count) (count * size) := by
    unfold Mapped objectStart
    simp only [slabVmBase, slabSize]
    omega
  have first : load (filledMem (Bytes.store (Bytes.store s.mem slabVmBase (objectStart size count) 8)
      (slabVmBase + 8) 0 8) count) slabVmBase 8 = objectStart size count := by
    rw [load_filledMem_header _ _ (by omega), load_store_off (.inl (Nat.le_refl _))]
    refine load_store ?_
    unfold objectStart
    simp only [slabVmBase, slabSize]
    omega
  unfold mmSlabCreateInitial
  dsimp only
  rw [bytes, start, run_bind_of_ok (storeWord_run mapped_start s),
    run_bind_of_ok (storeWord_run mapped_inuse _),
    run_bind_of_ok (fillStack_state fits (fun i mem => List.mem_range.mp mem) _),
    run_bind_of_ok (loadWord_run mapped_start _)]
  have filled : (List.range count).foldl (fun mem i => Bytes.store mem (freeWord i) i 8)
      (Bytes.store (Bytes.store s.mem slabVmBase (objectStart size count) 8) (slabVmBase + 8) 0 8) =
      filledMem (Bytes.store (Bytes.store s.mem slabVmBase (objectStart size count) 8)
        (slabVmBase + 8) 0 8)
        count := rfl
  dsimp only
  rw [filled, first, run_bind_of_ok (memset_run (.inr mapped) _), run_pure]
  rfl

/-- A stack that does not fit faults. -/
theorem mmSlabCreateInitial_fault (large : 2046 < count) (s : State) :
    ∃ fault t, (mmSlabCreateInitial size count).run s = (.error fault, t) := by
  unfold mmSlabCreateInitial
  dsimp only
  rw [run_bind_of_ok (storeWord_run mapped_start s), run_bind_of_ok (storeWord_run mapped_inuse _)]
  have stops := (fillStack_run (List.range count) { s with
    mem := Bytes.store (Bytes.store s.mem slabVmBase (Word64.sub (slabVmBase + slabSize)
      (count * size % 2 ^ 64)) 8) (slabVmBase + 8) 0 8 }).not.mpr fun all =>
        absurd (all 2046 (List.mem_range.mpr large)) (by decide)
  cases outcome : (forEach (List.range count) fun i =>
    storeWord (freeSlot slabVmBase i) i).run { s with
    mem := Bytes.store (Bytes.store s.mem slabVmBase (Word64.sub (slabVmBase + slabSize)
      (count * size % 2 ^ 64)) 8) (slabVmBase + 8) 0 8 } with
  | mk result t =>
    rw [outcome] at stops
    cases result with
    | ok _ => exact absurd rfl stops
    | error fault =>
      rw [run_bind_of_error outcome]
      exact ⟨fault, t, rfl⟩

/-- The number of objects is chosen so that the slab has room for them. -/
theorem fits_objectsPerSlab {objSize : ℕ} (small : objSize + 8 < 2 ^ 64) :
    Fits objSize (objectsPerSlab objSize) := by
  unfold Fits objectsPerSlab
  dsimp only
  rw [Word64.add_eq small]
  exact Nat.div_mul_le_self _ _

theorem load_createdMem (fits : Fits size count) (mem : Memory) {a : ℕ}
    (header : a + 8 ≤ slabVmBase + 16 + 8 * count) :
    load (createdMem mem size count) a 8 = load (filledMem (Bytes.store (Bytes.store mem slabVmBase
      (objectStart size count) 8) (slabVmBase + 8) 0 8) count) a 8 :=
  fits.load_fill header (Nat.le_refl _)

/-- The stack of a new slab holds the indices in order. -/
theorem freeList_createdMem (fits : Fits size count) (mem : Memory) :
    freeList (createdMem mem size count) count = List.range count := by
  have room := fits.bounds
  have word : ∀ i ∈ List.range count, load (createdMem mem size count) (freeWord i) 8 = i := by
    intro i range
    have less := List.mem_range.mp range
    rw [load_createdMem fits mem (by unfold freeWord; omega)]
    exact load_filledMem _ less (by omega)
  exact (List.map_congr_left word).trans (List.map_id _)

/-- A cache that was created has all objects on its stack. -/
theorem createdMem_inv (fits : Fits size count) {vm : Cache} {heap : NodeHeap} {mem : Memory}
    (objectSize : vm.objectSize = size) (objectsPerSlab : vm.objectsPerSlab = count)
    (slabsFull : vm.slabsFull = ⟨0, 0, 0⟩) (slabsPartial : vm.slabsPartial = ⟨0, 0, 0⟩)
    (slabsFree : vm.slabsFree = ⟨vmNode, vmNode, 1⟩) (node : heap vmNode = ⟨0, 0, slabVmBase⟩) :
    Inv size count ⟨createdMem mem size count, heap, vm⟩ [] [] := by
  have room := fits.bounds
  have start : load (createdMem mem size count) slabVmBase 8 = objectStart size count := by
    rw [load_createdMem fits mem (by omega), load_filledMem_header _ _ (by omega),
      load_store_off (.inl (Nat.le_refl _))]
    refine load_store ?_
    unfold objectStart
    simp only [slabVmBase, slabSize]
    omega
  have inuse : load (createdMem mem size count) (slabVmBase + 8) 8 = 0 := by
    rw [load_createdMem fits mem (by omega), load_filledMem_header _ _ (by omega)]
    exact load_store (by decide)
  have perm : (freeList (createdMem mem size count) count ++ []).Perm (List.range count) := by
    rw [List.append_nil, freeList_createdMem fits mem]
  generalize createdMem mem size count = after at *
  refine ⟨objectSize, objectsPerSlab, slabsFull, slabsPartial, slabsFree, node, ?_, ?_, rfl,
    ?_, .inl rfl⟩
  · exact start
  · exact inuse
  · exact perm

/-- Where the sum does not overflow the cache is created, and its objects are in order. -/
theorem mmCacheCreateVm_created {objSize : ℕ} (small : objSize + 8 < 2 ^ 64) (mem : Memory) :
    ∃ s, (mmCacheCreateVm objSize).run (.start mem) = (.ok (), s) ∧
      Inv objSize (objectsPerSlab objSize) s [] [] ∧
      freeList s.mem (objectsPerSlab objSize) = List.range (objectsPerSlab objSize) := by
  have fits := fits_objectsPerSlab small
  unfold mmCacheCreateVm
  rw [if_neg (by
    rw [Word64.add_eq small]
    omega)]
  dsimp only
  rw [run_bind_of_ok (run_modify _ _), run_bind_of_ok (mmSlabCreateInitial_run fits _),
    run_bind_of_ok (run_modify _ _), run_modify]
  refine ⟨_, rfl, ?_, freeList_createdMem fits mem⟩
  exact createdMem_inv fits rfl rfl rfl rfl rfl rfl

theorem mmCacheCreateVm_run {objSize : ℕ} (small : objSize + 8 < 2 ^ 64) (mem : Memory) :
    ∃ s, (mmCacheCreateVm objSize).run (.start mem) = (.ok (), s) ∧
      Inv objSize (objectsPerSlab objSize) s [] [] := by
  rcases mmCacheCreateVm_created small mem with ⟨s, run, inv, _⟩
  exact ⟨s, run, inv⟩

/-- A cache was created only if the sum did not overflow. -/
theorem mmCacheCreateVm_inv {objSize : ℕ} {mem : Memory} {s : State} (word : objSize < 2 ^ 64)
    (returns : (mmCacheCreateVm objSize).run (.start mem) = (.ok (), s)) :
    objSize + 8 < 2 ^ 64 ∧ Inv objSize (objectsPerSlab objSize) s [] [] := by
  by_cases small : objSize + 8 < 2 ^ 64
  · rcases mmCacheCreateVm_run small mem with ⟨created, run, inv⟩
    rw [run] at returns
    cases returns
    exact ⟨small, inv⟩
  · exfalso
    unfold mmCacheCreateVm at returns
    by_cases zero : Word64.add objSize 8 = 0
    · rw [if_pos zero] at returns
      cases returns
    · have sum : Word64.add objSize 8 = objSize + 8 - 2 ^ 64 := by
        unfold Word64.add
        omega
      have large : 2046 < objectsPerSlab objSize := by
        unfold objectsPerSlab
        dsimp only
        have tiny : Word64.add objSize 8 ≤ 7 := by omega
        have quotient : (slabSize - 16) / 7 ≤ (slabSize - 16) / Word64.add objSize 8 :=
          Nat.div_le_div_left tiny (Nat.pos_of_ne_zero zero)
        exact Nat.lt_of_lt_of_le (by decide) quotient
      rw [if_neg zero] at returns
      dsimp only at returns
      rw [run_bind_of_ok (run_modify _ _)] at returns
      rcases @mmSlabCreateInitial_fault objSize _ large _ with ⟨fault, t, stops⟩
      rw [run_bind_of_error stops] at returns
      cases returns

end Create

/-! ## Runs -/

section Runs

variable {size count : ℕ} {s t : State} {live indices : List ℕ}

/-- With room for no object the index wraps around to the counter, and the clearing leaves the slab. -/
theorem Inv.alloc_none (inv : Inv size 0 s live indices) (large : slabSize - 16 < size + 8) :
    ∃ fault t, mmSlabAlloc.run s = (.error fault, t) := by
  have none : live = [] := inv.few.resolve_right (by omega)
  have start : load s.mem slabVmBase 8 = slabVmBase + slabSize := by
    rw [inv.start, objectStart, Nat.zero_mul, Nat.sub_zero]
  have inuse : load s.mem (slabVmBase + 8) 8 = 0 := by
    rw [inv.inuse, none]
    rfl
  have index : Word64.sub (Word64.sub 0 0) 1 = 2 ^ 64 - 1 := by decide
  have slot : freeSlot slabVmBase (2 ^ 64 - 1) = slabVmBase + 8 := by decide
  have unmapped : ¬ (size = 0 ∨
    Mapped (Word64.add (slabVmBase + slabSize) (size * 0 % 2 ^ 64)) size) := by
    rw [Nat.mul_zero]
    have here : Word64.add (slabVmBase + slabSize) (0 % 2 ^ 64) = slabVmBase + slabSize := by decide
    rw [here]
    unfold Mapped
    simp only [slabVmBase, slabSize] at large ⊢
    omega
  have cleared : load (Bytes.store s.mem (slabVmBase + 8) 0 8) (slabVmBase + 8) 8 = 0 :=
    load_store (by decide)
  have counted : load (Bytes.store (Bytes.store s.mem (slabVmBase + 8) 0 8) (slabVmBase + 8) 1 8)
    (slabVmBase + 8) 8 =
      1 := load_store (by decide)
  unfold mmSlabAlloc
  rw [run_bind_of_ok inv.mmSlabGet_run, if_neg (by decide), run_bind_of_ok (run_get s),
    run_bind_of_ok (loadWord_run mapped_start s), run_bind_of_ok (loadWord_run mapped_inuse s),
    start, inuse, inv.objectSize, inv.objectsPerSlab, index]
  dsimp only
  rw [slot, run_bind_of_ok (loadWord_run mapped_inuse s), inuse]
  generalize (if 0 = 0 then (Queue.slabsFree, Queue.slabsPartial)
    else (Queue.slabsPartial, Queue.slabsFull)) = queues
  rcases queues with ⟨queue, queueUp⟩
  rw [run_bind_of_ok (storeWord_run mapped_inuse s),
    run_bind_of_ok (loadWord_run mapped_inuse _), cleared,
    run_bind_of_ok (storeWord_run mapped_inuse _), run_bind_of_ok (loadWord_run mapped_inuse _)]
  have one : Word64.add 0 1 = 1 := by decide
  rw [one, counted, if_neg (by decide), pure_bind, run_bind_of_error (memset_fault unmapped _)]
  exact ⟨_, _, rfl⟩

/-- An object without bytes lies behind the slab. -/
theorem mmSlabFree_empty {k : ℕ} : ∃ fault t, (mmSlabFree (objectAt 0 count k)).run s =
      (.error fault, t) := by
  have address : objectAt 0 count k = slabVmBase + slabSize := by
    rw [objectAt, objectStart, Nat.mul_zero, Nat.zero_mul, Nat.sub_zero, Nat.add_zero]
  have slab : (slabVmBase + slabSize) &&& (2 ^ 64 - slabSize) = slabVmBase + slabSize := by decide
  unfold mmSlabFree
  dsimp only
  rw [address, slab, run_bind_of_ok (run_get s), run_bind_of_error (loadWord_fault (by decide) s)]
  exact ⟨_, _, rfl⟩

/-- What a call that returned ended with. -/
theorem returned_eq {α : Type} {m : SlabM α} {a b : α} {s t u : State} (run : m.run s = (.ok a, t))
    (returns : m.run s = (.ok b, u)) : a = b ∧ t = u := by
  rw [run] at returns
  exact ⟨Except.ok.inj (congrArg Prod.fst returns), congrArg Prod.snd returns⟩

theorem not_returned {α : Type} {m : SlabM α} {b : α} {s u : State}
    (stops : ∃ fault t, m.run s = (.error fault, t)) : m.run s ≠ (.ok b, u) := by
  rcases stops with ⟨fault, t, stops⟩
  rw [stops]
  intro same
  cases same

/-- An allocation returns only with two more indices on the stack. -/
theorem room_of_returned {objSize object : ℕ} (small : objSize + 8 < 2 ^ 64)
    (inv : Inv objSize (objectsPerSlab objSize) s live indices)
    (returns : mmSlabAlloc.run s = (.ok object, t)) :
    1 < objectsPerSlab objSize - (live.length + 1) := by
  by_contra full
  rcases Nat.eq_zero_or_pos (objectsPerSlab objSize) with none | positive
  · have large : slabSize - 16 < objSize + 8 := by
      have division := none
      unfold objectsPerSlab at division
      dsimp only at division
      rw [Word64.add_eq small] at division
      exact Nat.lt_of_div_eq_zero (by omega) division
    rw [none] at inv
    exact not_returned (inv.alloc_none large) returns
  · rcases inv.alloc_full (fits_objectsPerSlab small) positive (by omega) with ⟨u, stops⟩
    exact not_returned ⟨_, u, stops⟩ returns

/-- The invariant holds after every run. -/
theorem Run.inv {objSize : ℕ} (word : objSize < 2 ^ 64) (run : Run objSize s live) :
    objSize + 8 < 2 ^ 64 ∧ ∃ indices, Inv objSize (objectsPerSlab objSize) s live indices := by
  induction run with
  | create returns =>
    rcases mmCacheCreateVm_inv word returns with ⟨small, inv⟩
    exact ⟨small, [], inv⟩
  | @alloc s t live object _ returns ih =>
    rcases ih with ⟨small, indices, inv⟩
    have fits := fits_objectsPerSlab small
    have room := room_of_returned small inv returns
    rcases returned_eq (inv.alloc_room fits room) returns with ⟨rfl, rfl⟩
    exact ⟨small, _, inv.alloc fits room⟩
  | @free s t live object _ mem returns ih =>
    rcases ih with ⟨small, indices, inv⟩
    have fits := fits_objectsPerSlab small
    rw [inv.live_eq] at mem
    rcases List.mem_map.mp mem with ⟨k, inIndices, rfl⟩
    rcases Nat.eq_zero_or_pos objSize with zero | positive
    · rw [zero] at returns
      exact absurd returns (not_returned mmSlabFree_empty)
    · rcases returned_eq (inv.mmSlabFree_run fits positive inIndices) returns with ⟨_, rfl⟩
      exact ⟨small, _, inv.free fits positive inIndices⟩
  | write _ mem inside value ih =>
    rcases ih with ⟨small, indices, inv⟩
    exact ⟨small, indices, inv.write (fits_objectsPerSlab small) mem value⟩

end Runs

/-! ## The guarantee -/

/-- `slab->start` -/
def slabStart (s : State) : ℕ := load s.mem slabVmBase 8

/-- `slab->inuse` -/
def slabInuse (s : State) : ℕ := load s.mem (slabVmBase + 8) 8

/-- The words `free[0 .. objects_per_slab - inuse)`. -/
def freeIndices (s : State) : List ℕ := freeList s.mem (s.vm.objectsPerSlab - slabInuse s)

/-- The live objects lie in the slab behind its header, apart from one another, and the stack holds the
indices of the others. -/
structure Good (size : ℕ) (s : State) (live : List ℕ) : Prop where
  inside : ∀ p ∈ live, slabStart s ≤ p ∧ p + size ≤ slabVmBase + slabSize
  aligned : ∀ p ∈ live, ∃ k, p = slabStart s + size * k
  header : ∀ p ∈ live, slabVmBase + 16 + 8 * s.vm.objectsPerSlab ≤ p
  apart : live.Pairwise fun p q => p + size ≤ q ∨ q + size ≤ p
  inuse : slabInuse s = live.length
  free_nodup : (freeIndices s).Nodup
  free_iff : ∀ k, k ∈ freeIndices s ↔ k < s.vm.objectsPerSlab ∧ slabStart s + size * k ∉ live

section Guarantee

variable {size count : ℕ} {s : State} {live indices : List ℕ}

theorem Inv.freeIndices_eq (inv : Inv size count s live indices) :
    freeIndices s = freeList s.mem (count - live.length) := by
  unfold freeIndices slabInuse
  rw [inv.objectsPerSlab, inv.inuse]

theorem Inv.nodup (inv : Inv size count s live indices) :
    (freeList s.mem (count - live.length) ++ indices).Nodup :=
  inv.perm.nodup_iff.mpr List.nodup_range

theorem Inv.good (inv : Inv size count s live indices) (fits : Fits size count)
    (positive : 0 < size) :
    Good size s live := by
  have start : slabStart s = objectStart size count := inv.start
  have nodup := inv.nodup
  rw [List.nodup_append] at nodup
  have low := fits.objectStart_ge
  refine ⟨?_, ?_, ?_, ?_, inv.inuse, ?_, ?_⟩
  · intro p mem
    rw [inv.live_eq] at mem
    rcases List.mem_map.mp mem with ⟨k, inIndices, rfl⟩
    rw [start]
    exact ⟨objectStart_le size count k, fits.objectAt_le (inv.indices_lt inIndices)⟩
  · intro p mem
    rw [inv.live_eq] at mem
    rcases List.mem_map.mp mem with ⟨k, _, rfl⟩
    rw [start]
    exact ⟨k, rfl⟩
  · intro p mem
    rw [inv.live_eq] at mem
    rcases List.mem_map.mp mem with ⟨k, _, rfl⟩
    rw [inv.objectsPerSlab]
    exact Nat.le_trans low (objectStart_le size count k)
  · rw [inv.live_eq, List.pairwise_map]
    exact nodup.2.1.imp objectAt_apart
  · rw [inv.freeIndices_eq]
    exact nodup.1
  · intro k
    rw [inv.freeIndices_eq, inv.objectsPerSlab, start]
    have isLive : objectStart size count + size * k ∈ live ↔ k ∈ indices := by
      rw [inv.live_eq]
      exact List.mem_map_of_injective (objectAt_injective positive)
    have all : k ∈ freeList s.mem (count - live.length) ∨ k ∈ indices ↔ k < count := by
      rw [← List.mem_append, inv.perm.mem_iff, List.mem_range]
    rw [isLive, ← all]
    constructor
    · intro free
      exact ⟨.inl free, fun taken => nodup.2.2 k free k taken rfl⟩
    · rintro ⟨free | taken, notLive⟩
      · exact free
      · exact absurd taken notLive

/-- With room the allocation returns a zeroed object that keeps the guarantee. -/
theorem Inv.alloc_good (inv : Inv size count s live indices) (fits : Fits size count)
    (positive : 0 < size) (room : 1 < count - (live.length + 1)) :
    ∃ object t, mmSlabAlloc.run s = (.ok object, t) ∧ Good size t (object :: live) ∧
      ∀ i < size, t.mem (object + i) = 0 := by
  have run := inv.alloc_room fits room
  have after := inv.alloc fits room
  have zero := fun i => @allocMem_zero size s count live i
  generalize allocMem s size count live = mem at run after zero
  generalize objectAt size count (topIndex s count live) = object at run after zero
  exact ⟨object, { s with mem := mem }, run, after.good fits positive, zero⟩

end Guarantee

/-- After every run without a panic the objects are apart and the stack is right; a further allocation
returns a zeroed object of this kind or asks for a new slab, and every live object can be freed. -/
theorem run_good (objSize : ℕ) (positive : 0 < objSize) (word : objSize < 2 ^ 64)
    (two : 2 ≤ objectsPerSlab objSize) {s : State} {live : List ℕ} (run : Run objSize s live) :
    Good objSize s live ∧
      (∀ object t, mmSlabAlloc.run s = (.ok object, t) →
        Good objSize t (object :: live) ∧ ∀ i < objSize, t.mem (object + i) = 0) ∧
      (∀ fault t, mmSlabAlloc.run s = (.error fault, t) →
        fault = .panic "mm_slab_create unimplemented") ∧
      ∀ object ∈ live, ∃ t, (mmSlabFree object).run s = (.ok (), t) ∧
        Good objSize t (live.erase object) := by
  rcases run.inv word with ⟨small, indices, inv⟩
  have fits := fits_objectsPerSlab small
  refine ⟨inv.good fits positive, ?_, ?_, ?_⟩
  · intro object t returns
    have room := room_of_returned small inv returns
    rcases inv.alloc_good fits positive room with ⟨a, u, run, good, zero⟩
    rcases returned_eq run returns with ⟨rfl, rfl⟩
    exact ⟨good, zero⟩
  · intro fault t stops
    by_cases full : objectsPerSlab objSize - (live.length + 1) ≤ 1
    · rcases inv.alloc_full fits (by omega) full with ⟨u, panics⟩
      rw [panics] at stops
      exact (Except.error.inj (congrArg Prod.fst stops)).symm
    · rw [inv.alloc_room fits (by omega)] at stops
      cases stops
  · intro object mem
    rw [inv.live_eq] at mem
    rcases List.mem_map.mp mem with ⟨k, inIndices, rfl⟩
    exact ⟨_, inv.mmSlabFree_run fits positive inIndices,
      (inv.free fits positive inIndices).good fits positive⟩

/-- Two objects of 64 bytes. -/
theorem run_good_two : ∃ s first second, Run 64 s [second, first] ∧ Good 64 s [second, first] := by
  have fits := fits_objectsPerSlab (show 64 + 8 < 2 ^ 64 by decide)
  rcases mmCacheCreateVm_run (by decide : 64 + 8 < 2 ^ 64) (fun _ => 0) with ⟨s, created, inv⟩
  rcases inv.alloc_good fits (by decide) (by decide) with ⟨first, s₁, returns, _⟩
  have run₁ : Run 64 s₁ [first] := .alloc (.create created) returns
  rcases run₁.inv (by decide) with ⟨_, indices, inv₁⟩
  have room : 1 < objectsPerSlab 64 - (1 + 1) := by decide
  rcases inv₁.alloc_good fits (by decide) room with ⟨second, s₂, returns₁, _⟩
  have run₂ : Run 64 s₂ [second, first] := .alloc run₁ returns₁
  exact ⟨s₂, first, second, run₂, (run_good 64 (by decide) (by decide) (by decide) run₂).1⟩

end Vineyard.Slab

import Vineyard.Lib.Bytes
import Vineyard.Lib.Programs
import Vineyard.Region.List
import Vineyard.Util.List

/-!
# The slab allocator

`mm/slab.c` on the bytes of its one slab: the header with the stack of free indices and the objects
share the four pages at `SLAB_VM_BASE`, and an access outside these pages is a page fault.  The pages
come with arbitrary contents.  A division by zero ends in the handler of the exception, which does not
return.
-/

namespace Vineyard.Slab

open Bytes Programs Programs.Prog

/-- `slab_cache_t`, without its name and its link. -/
structure Cache where
  slabsFull : ListT
  slabsPartial : ListT
  slabsFree : ListT
  objectSize : ℕ
  objectsPerSlab : ℕ

/-- The memory of the slab, the list nodes and the cache `vm`. -/
structure State where
  mem : Memory
  heap : NodeHeap
  vm : Cache

abbrev SlabM := Prog Fault State

/-- The address of the static node; only that it is not null matters. -/
def vmNode : ℕ := 1

/-- The three lists of a cache. -/
inductive Queue where
  | slabsFull
  | slabsPartial
  | slabsFree
  deriving DecidableEq

def Cache.queue (cache : Cache) : Queue → ListT
  | .slabsFull => cache.slabsFull
  | .slabsPartial => cache.slabsPartial
  | .slabsFree => cache.slabsFree

def Cache.setQueue (cache : Cache) (queue : Queue) (list : ListT) : Cache :=
  match queue with
  | .slabsFull => { cache with slabsFull := list }
  | .slabsPartial => { cache with slabsPartial := list }
  | .slabsFree => { cache with slabsFree := list }

/-! ## Accesses -/

/-- The `n` bytes at `a` lie in the four pages of the slab. -/
def Mapped (a n : ℕ) : Prop := slabVmBase ≤ a ∧ a + n ≤ slabVmBase + slabSize

instance (a n : ℕ) : Decidable (Mapped a n) := inferInstanceAs (Decidable (_ ∧ _))

def loadWord (a : ℕ) : SlabM ℕ := do
  let s ← get
  if Mapped a 8 then return load s.mem a 8 else fail (.pageFault a)

def storeWord (a v : ℕ) : SlabM Unit :=
  if Mapped a 8 then modify fun s => { s with mem := Bytes.store s.mem a v 8 } else fail
    (.pageFault a)

def memset (a : ℕ) (c : UInt8) (n : ℕ) : SlabM Unit :=
  if n = 0 ∨ Mapped a n then modify fun s => { s with mem := fill s.mem a n c }
  else fail (.pageFault a)

/-- `&slab->free[i]` -/
def freeSlot (slab i : ℕ) : ℕ := (slab + 16 + 8 * i) % 2 ^ 64

/-! ## Creation -/

def mmSlabCreateInitial (objectSize objectsPerSlab : ℕ) : SlabM ℕ := do
  let slab := slabVmBase
  let size := objectsPerSlab * objectSize % 2 ^ 64
  storeWord slab (Word64.sub (slabVmBase + slabSize) size)
  storeWord (slab + 8) 0
  forEach (List.range objectsPerSlab) fun i => storeWord (freeSlot slab i) i
  let start ← loadWord slab
  memset start 0 size
  return slab

def mmSlabCreate : SlabM Unit := fail (.panic "mm_slab_create unimplemented")

/-- The number of objects that `mm_cache_create_vm` computes. -/
def objectsPerSlab (objSize : ℕ) : ℕ :=
  let headerSize := 24 - 8
  (slabSize - headerSize) / Word64.add objSize 8

def mmCacheCreateVm (objSize : ℕ) : SlabM Unit := do
  if Word64.add objSize 8 = 0 then fail (.panic "Divide-by-zero Error")
  else do
    let count := objectsPerSlab objSize
    modify fun s => { s with vm := ⟨⟨0, 0, 0⟩, ⟨0, 0, 0⟩, ⟨0, 0, 0⟩, objSize, count⟩ }
    let slab ← mmSlabCreateInitial objSize count
    modify fun s => { s with heap := Function.update s.heap vmNode { s.heap vmNode with data := slab } }
    modify fun s =>
      let (list, heap) := listAppend s.vm.slabsFree vmNode s.heap
      { s with vm := { s.vm with slabsFree := list }, heap := heap }

/-! ## Allocation -/

def mmSlabGet : SlabM ℕ := do
  let s ← get
  if s.vm.slabsPartial.tail ≠ 0 then return (s.heap s.vm.slabsPartial.tail).data
  else if s.vm.slabsFree.tail ≠ 0 then return (s.heap s.vm.slabsFree.tail).data
  else fail (.panic "no slab space left")

/-- Appends the last node of `queue` to `queueUp` and removes it from `queue`. -/
def moveTail (queue queueUp : Queue) : SlabM Unit :=
  modify fun s =>
    let (list, heap) := listAppend (s.vm.queue queueUp) (s.vm.queue queue).tail s.heap
    let vm := s.vm.setQueue queueUp list
    let (list, heap) := listRemove (vm.queue queue) (vm.queue queue).tail heap
    { s with vm := vm.setQueue queue list, heap := heap }

def mmSlabAlloc : SlabM ℕ := do
  let slab ← mmSlabGet
  if slab = 0 then fail (.panic "no slab found")
  else do
    let cache := (← get).vm
    let start ← loadWord slab
    let inuse ← loadWord (slab + 8)
    let index := Word64.sub (Word64.sub cache.objectsPerSlab inuse) 1
    let free ← loadWord (freeSlot slab index)
    let addr := Word64.add start (cache.objectSize * free % 2 ^ 64)
    -- the list this slab is in and the one it would move up into
    let (queue, queueUp) :=
      if inuse = 0 then (Queue.slabsFree, Queue.slabsPartial) else (.slabsPartial, .slabsFull)
    storeWord (freeSlot slab index) 0
    let inuse ← loadWord (slab + 8)
    storeWord (slab + 8) (Word64.add inuse 1)
    let inuse ← loadWord (slab + 8)
    (if Word64.sub cache.objectsPerSlab inuse ≤ 1 then do
      moveTail queue queueUp
      mmSlabCreate
    else pure ())
    memset addr 0 cache.objectSize
    return addr

/-! ## Release -/

/-- The two lists that `mm_slab_free` looks up are not used. -/
def mmSlabFree (object : ℕ) : SlabM Unit := do
  let slab := object &&& (2 ^ 64 - slabSize)
  let cache := (← get).vm
  let start ← loadWord slab
  let offset := Word64.sub object start
  if cache.objectSize = 0 then fail (.panic "Divide-by-zero Error")
  else do
    let objectIndex := offset / cache.objectSize
    let inuse ← loadWord (slab + 8)
    let freeObjects := Word64.sub cache.objectsPerSlab inuse
    storeWord (slab + 8) (Word64.sub inuse 1)
    storeWord (freeSlot slab freeObjects) objectIndex

/-! ## Runs -/

/-- Before the cache is created: arbitrary pages, and the static variables zero. -/
def State.start (mem : Memory) : State :=
  ⟨mem, fun _ => ⟨0, 0, 0⟩, ⟨⟨0, 0, 0⟩, ⟨0, 0, 0⟩, ⟨0, 0, 0⟩, 0, 0⟩⟩

/-- The states after calls that return, with the live objects: each `mm_slab_free` names a live object,
and between the calls the owners write to theirs. -/
inductive Run (objSize : ℕ) : State → List ℕ → Prop where
  | create {mem : Memory} {s : State}
      (returns : (mmCacheCreateVm objSize).run (.start mem) = (.ok (), s)) : Run objSize s []
  | alloc {s t : State} {live : List ℕ} {object : ℕ} (before : Run objSize s live)
      (returns : mmSlabAlloc.run s = (.ok object, t)) : Run objSize t (object :: live)
  | free {s t : State} {live : List ℕ} {object : ℕ} (before : Run objSize s live)
      (mem : object ∈ live) (returns : (mmSlabFree object).run s = (.ok (), t)) :
      Run objSize t (live.erase object)
  | write {s : State} {live : List ℕ} {object i : ℕ} (before : Run objSize s live)
      (mem : object ∈ live) (inside : i < objSize) (value : UInt8) :
      Run objSize { s with mem := fill s.mem (object + i) 1 value } live

end Vineyard.Slab

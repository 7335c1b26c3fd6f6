import Mathlib.Logic.Function.Basic
import Vineyard.Machine

/-!
# The list of virtual address regions

The part of `mm/virtual.c` that hands out virtual addresses: a doubly linked list of nodes
`[start, start + len)`, each with the flag `VM_FREE` or `VM_USED`.  Nodes come from a slab cache that
serves only this list; `mm_slab_alloc` is modelled by the list of objects the cache still returns,
and zeroes the object it returns.
-/

namespace Vineyard

open Function

/-- `VM_FREE` -/
def vmFree : ℕ := 1
/-- `VM_USED` -/
def vmUsed : ℕ := 2

/-- `SLAB_VM_BASE` -/
def slabVmBase : ℕ := 0xFFFFFEFFFFFF8000
/-- `SLAB_SIZE` -/
def slabSize : ℕ := 0x4000

/-- `struct vm_node` -/
structure VmNode where
  next : ℕ
  prev : ℕ
  start : ℕ
  len : ℕ
  flags : ℕ
  deriving DecidableEq

/-- `struct vm_info`, the nodes it points to and the cache they come from. -/
structure Vmm where
  head : ℕ
  tail : ℕ
  nodes : ℕ
  heap : ℕ → VmNode
  /-- The objects that `mm_slab_alloc` still returns, in order, before it asks for a new slab. -/
  slab : List ℕ

/-- Write to a node. -/
def Vmm.modify (s : Vmm) (p : ℕ) (f : VmNode → VmNode) : Vmm :=
  { s with heap := update s.heap p (f (s.heap p)) }

def mmSlabAlloc (s : Vmm) : Except Fault (ℕ × Vmm) :=
  match s.slab with
  | [] => .error (.panic "mm_slab_create unimplemented")
  | p :: slab => .ok (p, { s with slab := slab, heap := update s.heap p ⟨0, 0, 0, 0, 0⟩ })

def mmVirtualInsertAfter (after new : ℕ) (s : Vmm) : Vmm :=
  if after = 0 ∨ new = 0 then s
  else
    let s := s.modify new fun n => { n with next := (s.heap after).next, prev := after }
    let s := s.modify after fun n => { n with next := new }
    let s :=
      if (s.heap new).next = 0 then { s with tail := new }
      else s.modify (s.heap new).next fun n => { n with prev := new }
    { s with nodes := s.nodes + 1 }

/-- `while(prev && prev->next && prev->start <= addr) prev = prev->next;`, for at most as many steps
as there are addresses. -/
def rangePrev (heap : ℕ → VmNode) (addr : ℕ) : ℕ → ℕ → Except Fault ℕ
  | 0, _ => .error .endless
  | fuel + 1, prev =>
      if prev ≠ 0 ∧ (heap prev).next ≠ 0 ∧ (heap prev).start ≤ addr then
        rangePrev heap addr fuel (heap prev).next
      else .ok prev

/-- The last address of a range, `start + len - 1` in 64-bit arithmetic. -/
def lastAddr (start len : ℕ) : ℕ := Word64.sub (Word64.add start len) 1

def mmVirtualRangeSet (addr len flags : ℕ) (s : Vmm) : Except Fault Vmm :=
  if addr &&& 0xFFF ≠ 0 then .error (.assertion "!(addr & 0xFFF)")
  else if len &&& 0xFFF ≠ 0 then .error (.assertion "!(len & 0xFFF)")
  else do
    let prev ← rangePrev s.heap addr (2 ^ 64) s.head
    let next := if prev ≠ 0 then (s.heap prev).next else 0
    let (new, s) ← mmSlabAlloc s
    if prev = 0 ∧ next = 0 then
      return { s.modify new fun _ => ⟨0, 0, addr, len, flags⟩ with
        head := new, tail := new, nodes := 1 }
    let p := s.heap prev
    let startBeyondPrevEnd := prev ≠ 0 ∧ lastAddr p.start p.len < addr
    let endBeforeNext := next ≠ 0 ∧ lastAddr addr len > (s.heap next).start
    let withinPrev := prev ≠ 0 ∧ p.start ≤ addr ∧ lastAddr p.start p.len ≥ lastAddr addr len
    let startAligned := prev ≠ 0 ∧ p.start = addr
    let endAligned := prev ≠ 0 ∧ lastAddr p.start p.len = lastAddr addr len
    if startBeyondPrevEnd ∧ endBeforeNext then
      -- `prev` is not null here, so the branch of the source for a null `prev` is never taken
      let s := s.modify new fun n => { n with start := addr, len := len, flags := flags }
      return mmVirtualInsertAfter prev new s
    else if withinPrev ∧ ¬ startAligned ∧ ¬ endAligned then
      let (post, s) ← mmSlabAlloc s
      let totalLen := p.len
      let s := s.modify prev fun n => { n with len := Word64.sub addr n.start }
      let s := s.modify new fun n => { n with start := addr, len := len, flags := flags }
      -- the flags of `post` are not set
      let s := s.modify post fun n => { n with
        start := Word64.add addr len
        len := Word64.sub (Word64.sub totalLen (s.heap prev).len) len }
      return mmVirtualInsertAfter new post (mmVirtualInsertAfter prev new s)
    else if withinPrev ∧ startAligned ∧ ¬ endAligned then
      let s := s.modify new fun n => { n with
        start := Word64.add addr len
        len := Word64.sub (s.heap prev).len len
        flags := (s.heap prev).flags }
      let s := s.modify prev fun n => { n with len := len, flags := flags }
      return mmVirtualInsertAfter prev new s
    else if withinPrev ∧ endAligned ∧ ¬ startAligned then
      .error (.panic "end-aligned")
    else if withinPrev ∧ startAligned ∧ endAligned then
      .error (.panic "start-/end-aligned")
    else
      .error (.panic "unhandled overlap addr=%#018lx len=%#zx flags=%#lx")

/-- `VM_FOREACH` up to the first node that passes the test; null if there is none. -/
def vmFind (heap : ℕ → VmNode) (test : VmNode → Bool) : ℕ → ℕ → Except Fault ℕ
  | 0, _ => .error .endless
  | fuel + 1, p =>
      if p = 0 then .ok 0
      else if test (heap p) then .ok p
      else vmFind heap test fuel (heap p).next

/-- `flags &= ~VM_FREE; flags |= VM_USED;` -/
def markUsed (flags : ℕ) : ℕ := flags &&& (2 ^ 64 - 1 - vmFree) ||| vmUsed

/-- `flags &= ~VM_USED; flags |= VM_FREE;` -/
def markUnused (flags : ℕ) : ℕ := flags &&& (2 ^ 64 - 1 - vmUsed) ||| vmFree

def mmVirtualAlloc (pages : ℕ) (s : Vmm) : Except Fault (ℕ × Vmm) :=
  if pages = 0 then .ok (0, s)
  else do
    let size := pages <<< 12 % 2 ^ 64
    let alloc ← vmFind s.heap (fun n => n.flags &&& vmFree ≠ 0 ∧ n.len ≥ size) (2 ^ 64) s.head
    if alloc = 0 then return (0, s)
    if (s.heap alloc).len = size then
      let s := s.modify alloc fun n => { n with flags := markUsed n.flags }
      return ((s.heap alloc).start, s)
    else
      let (new, s) ← mmSlabAlloc s
      let s := s.modify new fun n => { n with
        start := Word64.add (s.heap alloc).start size
        len := Word64.sub (s.heap alloc).len size
        flags := (s.heap alloc).flags }
      let s := s.modify alloc fun n => { n with len := size, flags := markUsed n.flags }
      let s := mmVirtualInsertAfter alloc new s
      return ((s.heap alloc).start, s)

/-- The TLB entries that the source flushes are not part of the model. -/
def mmVirtualFree (addr : ℕ) (s : Vmm) : Except Fault (ℕ × Vmm) := do
  let free ← vmFind s.heap (fun n => n.start = addr ∧ n.flags &&& vmUsed ≠ 0) (2 ^ 64) s.head
  if free = 0 then return (0, s)
  let ret := (s.heap free).len
  return (ret, s.modify free fun n => { n with flags := markUnused n.flags })

/-- `PAGE_UP` -/
def pageUp (x : ℕ) : ℕ := if 0xFFF &&& x ≠ 0 then Word64.add x 0x1000 &&& (2 ^ 64 - 0x1000) else x

/-- `mm_virtual_init`, after the page tables are committed and the cache is created. -/
def mmVirtualInit (kernelSize : ℕ) (s : Vmm) : Except Fault Vmm := do
  let s ← mmVirtualRangeSet 0xFFFFFE0000021000 0x1FFFFFDF000 vmFree s
  let s ← mmVirtualRangeSet slabVmBase slabSize vmUsed s
  let s ← mmVirtualRangeSet 0xFFFFFEFFFFFFE000 0x2000 vmUsed s
  let s ← mmVirtualRangeSet 0xFFFFFF0000000000 0x8000000000 vmUsed s
  mmVirtualRangeSet 0xFFFFFFFF80000000 (pageUp kernelSize) vmUsed s

/-- The list before `mm_virtual_init`. -/
def Vmm.empty (heap : ℕ → VmNode) (slab : List ℕ) : Vmm := ⟨0, 0, 0, heap, slab⟩

end Vineyard

import Mathlib.Logic.Function.Basic
import Vineyard.Machine

/-!
# The physical page allocator

`mm/physical.c`: free pages are recorded on stacks of 509 addresses.  A stack fills one page and
is itself one of the managed pages, except the first, `root_stack`, which is part of the kernel
image.  The stack in use is the page behind `mm_physical_stack_pml1[511]`; the stacks below it are
reached through `prev`, which holds `0` in the root stack.
-/

namespace Vineyard

open Function

/-- `STACK_SIZE` -/
def stackSize : ℕ := 509

/-- `struct mm_physical_stack` -/
structure PhysicalStack where
  prev : ℕ
  next : ℕ
  used : ℕ
  data : ℕ → ℕ

namespace PhysicalStack

/-- A zeroed page. -/
def zero : PhysicalStack := ⟨0, 0, 0, fun _ => 0⟩

/-- Read `data[i]`. -/
def read (st : PhysicalStack) (i : ℕ) : Except Fault ℕ :=
  if i < stackSize then .ok (st.data i) else .error (.outOfBounds i)

/-- Write `data[i]`. -/
def write (st : PhysicalStack) (i value : ℕ) : Except Fault PhysicalStack :=
  if i < stackSize then .ok { st with data := update st.data i value } else .error (.outOfBounds i)

/-- The free pages a stack records, oldest first. -/
def pages (st : PhysicalStack) : List ℕ := (List.range st.used).map st.data

end PhysicalStack

/-- The state of the allocator. -/
structure Pmm where
  /-- The page table behind `mm_physical_stack_pml1`. -/
  pml1 : ℕ → ℕ
  /-- Physical memory, each page read as a `struct mm_physical_stack`. -/
  frame : ℕ → PhysicalStack
  /-- `root_stack_phys` -/
  root : ℕ

namespace Pmm

/-- The physical page mapped at `STACK_ADDR`. -/
def current (s : Pmm) : ℕ := s.pml1 511 &&& frameMask

/-- `*stack` -/
def stack (s : Pmm) : PhysicalStack := s.frame s.current

def setStack (s : Pmm) (st : PhysicalStack) : Pmm :=
  { s with frame := update s.frame s.current st }

end Pmm

def mmPhysicalNextStack (addr : ℕ) (s : Pmm) : Pmm :=
  { s with pml1 := update s.pml1 511 (addr ||| pagePresent ||| pageWrite) }

/-- The state `mm_physical_init_stack` leaves: the root stack, zeroed, is mapped at `STACK_ADDR`. -/
def mmPhysicalInitStack (s : Pmm) : Pmm :=
  mmPhysicalNextStack s.root { s with frame := update s.frame s.root .zero }

/-- Entry 510 maps the new stack at `STACK_ADDR_TEMP` while its first three words are written. -/
def mmPhysicalCreateStack (phys : ℕ) (s : Pmm) : ℕ × Pmm :=
  let current := s.pml1 511 &&& frameMask
  let mapped := update s.pml1 510 (phys ||| pagePresent ||| pageWrite)
  let new := mapped 510 &&& frameMask
  (phys, { s with
    pml1 := update mapped 510 0
    frame := update s.frame new { s.frame new with prev := current, next := 0, used := 0 } })

/-- `mm_physical_get`, with a bound on the depth of its recursion. -/
def mmPhysicalGetRec : ℕ → Pmm → Except Fault (ℕ × Pmm)
  | 0, _ => .error .endless
  | fuel + 1, s =>
      if s.stack.used > 0 then do
        let ret ← s.stack.read (s.stack.used - 1)
        let st ← s.stack.write (s.stack.used - 1) 0
        return (ret, s.setStack { st with used := s.stack.used - 1 })
      else if s.stack.prev ≠ 0 then
        mmPhysicalGetRec fuel (mmPhysicalNextStack s.stack.prev s)
      else
        .error (.panic "out of physical memory")

/-- There are `2 ^ 40` physical pages: a deeper recursion meets an empty stack again. -/
def mmPhysicalGet (s : Pmm) : Except Fault (ℕ × Pmm) := mmPhysicalGetRec (2 ^ 40 + 1) s

/-- `stack->data[stack->used++] = addr` -/
def Pmm.push (s : Pmm) (addr : ℕ) : Except Fault Pmm := do
  let st ← s.stack.write s.stack.used addr
  return s.setStack { st with used := s.stack.used + 1 }

/-- `stack->next = mm_physical_create_stack(page); mm_physical_next_stack(stack->next)` -/
def Pmm.stackUp (s : Pmm) (page : ℕ) : Pmm :=
  let (new, s) := mmPhysicalCreateStack page s
  let s := s.setStack { s.stack with next := new }
  mmPhysicalNextStack s.stack.next s

/-- `stack` is the address `STACK_ADDR`, so the test `stack &&` of the source always succeeds.  It
points to whatever page is mapped there when it is used: after `mm_physical_get`, the stack that
call ended on. -/
def mmPhysicalMarkFree (addr : ℕ) (s : Pmm) : Except Fault Pmm :=
  if s.stack.used < stackSize then
    s.push addr
  else do
    let (page, s) ← mmPhysicalGet s
    (s.stackUp page).push addr

/-! ## The stacks in use -/

/-- The stacks from page `c` down to the root stack, each with the pages it records. -/
def stacksFrom (frame : ℕ → PhysicalStack) (root : ℕ) : ℕ → ℕ → List (ℕ × List ℕ)
  | 0, _ => []
  | fuel + 1, c =>
      (c, (frame c).pages) :: if c = root then [] else stacksFrom frame root fuel (frame c).prev

namespace Pmm

/-- All stacks, the one in use first.  The list ends at the root stack and not at a `prev` of `0`,
so that it goes on below a stack in physical page `0`. -/
def allStacks (s : Pmm) : List (ℕ × List ℕ) := stacksFrom s.frame s.root (2 ^ 40) s.current

/-- The pages in use as stack frames. -/
def stackFrames (s : Pmm) : List ℕ := s.allStacks.map Prod.fst

/-- The pages recorded as free, over all stacks. -/
def recorded (s : Pmm) : List ℕ := s.allStacks.flatMap Prod.snd

end Pmm

end Vineyard

import Vineyard.Machine
import Vineyard.Lib.Links

/-!
# The intrusive lists of the kernel

`list_insert_after`, `list_append` and `list_remove` of `util/list.c` on a heap of nodes.
-/

namespace Vineyard

open Function

/-- `node_t` -/
structure Node where
  prev : ℕ
  next : ℕ
  data : ℕ
  deriving DecidableEq

/-- `list_t` -/
structure ListT where
  head : ℕ
  tail : ℕ
  length : ℕ
  deriving DecidableEq

abbrev NodeHeap := ℕ → Node

def setNext (heap : NodeHeap) (node next : ℕ) : NodeHeap :=
  update heap node { heap node with next := next }

def setPrev (heap : NodeHeap) (node prev : ℕ) : NodeHeap :=
  update heap node { heap node with prev := prev }

@[simp] theorem setNext_next (heap : NodeHeap) (node next p : ℕ) :
    (setNext heap node next p).next = if p = node then next else (heap p).next := by
  by_cases h : p = node <;> simp [setNext, h]

@[simp] theorem setNext_prev (heap : NodeHeap) (node next p : ℕ) :
    (setNext heap node next p).prev = (heap p).prev := by
  by_cases h : p = node <;> simp [setNext, h]

@[simp] theorem setNext_data (heap : NodeHeap) (node next p : ℕ) :
    (setNext heap node next p).data = (heap p).data := by
  by_cases h : p = node <;> simp [setNext, h]

@[simp] theorem setPrev_prev (heap : NodeHeap) (node prev p : ℕ) :
    (setPrev heap node prev p).prev = if p = node then prev else (heap p).prev := by
  by_cases h : p = node <;> simp [setPrev, h]

@[simp] theorem setPrev_next (heap : NodeHeap) (node prev p : ℕ) :
    (setPrev heap node prev p).next = (heap p).next := by
  by_cases h : p = node <;> simp [setPrev, h]

@[simp] theorem setPrev_data (heap : NodeHeap) (node prev p : ℕ) :
    (setPrev heap node prev p).data = (heap p).data := by
  by_cases h : p = node <;> simp [setPrev, h]

theorem setNext_of_ne (heap : NodeHeap) (next : ℕ) {node p : ℕ} (h : p ≠ node) :
    setNext heap node next p = heap p := update_of_ne h _ _

theorem setPrev_of_ne (heap : NodeHeap) (prev : ℕ) {node p : ℕ} (h : p ≠ node) :
    setPrev heap node prev p = heap p := update_of_ne h _ _

def listInsertAfter (list : ListT) (after node : ℕ) (heap : NodeHeap) : ListT × NodeHeap :=
  if after = 0 ∨ node = 0 then (list, heap)
  else
    let heap := setNext heap node (heap after).next
    let heap := setPrev heap node after
    let (list, heap) :=
      if (heap after).next = 0 then ({ list with tail := node }, heap)
      else (list, setPrev heap (heap after).next node)
    let heap := setNext heap after node
    ({ list with length := Word64.add list.length 1 }, heap)

def listAppend (list : ListT) (node : ℕ) (heap : NodeHeap) : ListT × NodeHeap :=
  if node = 0 then (list, heap)
  else
    let list := if list.head = 0 then { list with head := node } else list
    let heap := if list.tail ≠ 0 then setNext heap list.tail node else heap
    let heap := setPrev heap node list.tail
    let list := { list with tail := node }
    let heap := setNext heap list.tail 0
    ({ list with length := Word64.add list.length 1 }, heap)

def listRemove (list : ListT) (node : ℕ) (heap : NodeHeap) : ListT × NodeHeap :=
  if node = 0 then (list, heap)
  else
    let (list, heap) :=
      if (heap node).prev = 0 then ({ list with head := (heap node).next }, heap)
      else (list, setNext heap (heap node).prev (heap node).next)
    let (list, heap) :=
      if (heap node).next = 0 then ({ list with tail := (heap node).prev }, heap)
      else (list, setPrev heap (heap node).next (heap node).prev)
    ({ list with length := Word64.sub list.length 1 }, heap)

/-- The list holds the nodes `xs` in this order, and its length is theirs. -/
structure ListHolds (heap : NodeHeap) (list : ListT) (xs : List ℕ) : Prop where
  links : Links.IsList (fun p => (heap p).next) (fun p => (heap p).prev) list.head list.tail xs
  length : list.length = xs.length

theorem listHolds_nil (heap : NodeHeap) : ListHolds heap ⟨0, 0, 0⟩ [] :=
  ⟨⟨rfl, rfl, trivial, List.nodup_nil⟩, rfl⟩

/-- An empty list holds no node. -/
theorem ListHolds.eq_nil {heap : NodeHeap} {xs : List ℕ}
    (holds : ListHolds heap ⟨0, 0, 0⟩ xs) : xs = [] :=
  List.length_eq_zero_iff.mp holds.length.symm

/-- A list of length 1 holds its head. -/
theorem ListHolds.eq_singleton {heap : NodeHeap} {node : ℕ} {xs : List ℕ}
    (holds : ListHolds heap ⟨node, node, 1⟩ xs) : xs = [node] := by
  rcases List.length_eq_one_iff.mp holds.length.symm with ⟨x, rfl⟩
  rw [show node = x from holds.links.head_eq]

end Vineyard

import Vineyard.Lib.Links
import Vineyard.Region.List

/-!
# The nodes of the region list

`Vmm.Nodes s ps` says that the pointers of `s` hold the nodes `ps` as one doubly linked list, and that
the cache only returns objects that are not in it.  What a node says about addresses is its `Region`;
`Vmm.Holds s rs` says that the regions of the list are `rs`, in order.  The operations on the pointers
then act on the list of regions.
-/

namespace Vineyard

open Function

/-- What a node says about addresses. -/
structure Region where
  start : ℕ
  len : ℕ
  flags : ℕ
  deriving DecidableEq

def VmNode.region (n : VmNode) : Region := ⟨n.start, n.len, n.flags⟩

namespace Vmm

def next (s : Vmm) (p : ℕ) : ℕ := (s.heap p).next

def prev (s : Vmm) (p : ℕ) : ℕ := (s.heap p).prev

def region (s : Vmm) (p : ℕ) : Region := (s.heap p).region

/-- The pointers hold the nodes `ps`, and the cache has only other objects. -/
structure Nodes (s : Vmm) (ps : List ℕ) : Prop where
  list : Links.IsList s.next s.prev s.head s.tail ps
  count : s.nodes = ps.length
  slab_nodup : s.slab.Nodup
  slab_ne_zero : 0 ∉ s.slab
  slab_fresh : ∀ p ∈ s.slab, p ∉ ps

/-- The regions of the list are `rs`. -/
def Holds (s : Vmm) (rs : List Region) : Prop := ∃ ps, s.Nodes ps ∧ ps.map s.region = rs

end Vmm

variable {s : Vmm} {p q a new : ℕ} {ps l r : List ℕ} {f : VmNode → VmNode}

/-! ## Writes to one node -/

theorem Vmm.modify_heap_self (s : Vmm) (p : ℕ) (f : VmNode → VmNode) :
    (s.modify p f).heap p = f (s.heap p) := by
  simp [Vmm.modify]

theorem Vmm.modify_heap_of_ne (s : Vmm) (f : VmNode → VmNode) (ne : q ≠ p) :
    (s.modify p f).heap q = s.heap q := by
  simp [Vmm.modify, ne]

/-- A write that keeps the links keeps the list. -/
theorem Vmm.Nodes.modify (h : s.Nodes ps) (next : (f (s.heap p)).next = (s.heap p).next)
    (prev : (f (s.heap p)).prev = (s.heap p).prev) : (s.modify p f).Nodes ps := by
  refine ⟨h.list.congr (fun x _ => ?_) (fun x _ => ?_), h.count, h.slab_nodup, h.slab_ne_zero,
    h.slab_fresh⟩
  all_goals
    by_cases e : x = p
    · subst e
      simp [Vmm.next, Vmm.prev, Vmm.modify, next, prev]
    · simp [Vmm.next, Vmm.prev, Vmm.modify, e]

/-- A write outside the list keeps the list. -/
theorem Vmm.Nodes.modify_outside (h : s.Nodes ps) (out : p ∉ ps) : (s.modify p f).Nodes ps := by
  have ne : ∀ x ∈ ps, x ≠ p := fun x hx e => out (e ▸ hx)
  refine ⟨h.list.congr (fun x hx => ?_) (fun x hx => ?_), h.count, h.slab_nodup, h.slab_ne_zero,
    h.slab_fresh⟩
  · simp [Vmm.next, Vmm.modify, ne x hx]
  · simp [Vmm.prev, Vmm.modify, ne x hx]

/-- The state after `mm_slab_alloc` has returned `new`, which it zeroes. -/
def Vmm.drawn (s : Vmm) (new : ℕ) (slab : List ℕ) : Vmm :=
  { s with heap := update s.heap new ⟨0, 0, 0, 0, 0⟩, slab := slab }

theorem mmSlabAlloc_ok {slab : List ℕ} (left : s.slab = new :: slab) :
    mmSlabAlloc s = .ok (new, s.drawn new slab) := by
  rw [mmSlabAlloc, left]
  rfl

theorem mmSlabAlloc_empty (left : s.slab = []) :
    mmSlabAlloc s = .error (.panic "mm_slab_create unimplemented") := by
  rw [mmSlabAlloc, left]

/-- The object that `mm_slab_alloc` returns is fresh, and the list stays as it is. -/
theorem Vmm.Nodes.drawn (h : s.Nodes ps) {slab : List ℕ} (left : s.slab = new :: slab) :
    new ≠ 0 ∧ new ∉ ps ∧ new ∉ slab ∧ (s.drawn new slab).Nodes ps := by
  have nodup := h.slab_nodup
  have nz := h.slab_ne_zero
  have fresh := h.slab_fresh
  rw [left] at nodup nz fresh
  rw [List.nodup_cons] at nodup
  rw [List.mem_cons, not_or] at nz
  have newFresh := fresh new (by simp)
  have kept := h.modify_outside (f := fun _ => ⟨0, 0, 0, 0, 0⟩) newFresh
  exact ⟨Ne.symm nz.1, newFresh, nodup.1, kept.list, kept.count, nodup.2, nz.2,
    fun p hp => fresh p (List.mem_cons_of_mem _ hp)⟩

/-! ## Insertion -/

/-- The state after `new` is linked in after `a`. -/
def Vmm.linked (s : Vmm) (a new : ℕ) : Vmm :=
  { s with
    tail := if s.next a = 0 then new else s.tail
    nodes := s.nodes + 1
    heap := fun x => { s.heap x with
      next := if x = a then new else if x = new then s.next a else s.next x
      prev := if s.next a ≠ 0 ∧ x = s.next a then new else if x = new then a else s.prev x } }

theorem mmVirtualInsertAfter_eq (s : Vmm) (aNz : a ≠ 0) (newNz : new ≠ 0) (ne : new ≠ a) :
    mmVirtualInsertAfter a new s = s.linked a new := by
  have ne' : a ≠ new := Ne.symm ne
  have link : ((s.modify new fun n => { n with next := (s.heap a).next, prev := a }).modify a
      fun n => { n with next := new }).heap new =
      { s.heap new with next := (s.heap a).next, prev := a } := by
    rw [Vmm.modify_heap_of_ne _ _ ne, Vmm.modify_heap_self]
  rw [mmVirtualInsertAfter, if_neg (by simp [aNz, newNz])]
  simp only [link]
  simp only [Vmm.linked, Vmm.next, Vmm.prev, Vmm.modify]
  by_cases last : (s.heap a).next = 0
  all_goals
    simp only [last, if_true, if_false, Vmm.mk.injEq, true_and, and_true]
    funext x
  · by_cases xa : x = a
    · subst xa
      simp [ne']
    · by_cases xn : x = new
      · subst xn
        simp [ne]
      · simp [xa, xn]
  · by_cases xl : x = (s.heap a).next
    · subst xl
      by_cases xa : (s.heap a).next = a
      · simp [xa, aNz, ne']
      · by_cases xn : (s.heap a).next = new
        · simp [xn, newNz, ne]
        · simp [xa, xn, last]
    · by_cases xa : x = a
      · subst xa
        simp [xl, ne']
      · by_cases xn : x = new
        · subst xn
          simp [xl, ne]
        · simp [xl, xa, xn]

@[simp] theorem Vmm.linked_region (s : Vmm) (a new p : ℕ) :
    (s.linked a new).region p = s.region p := rfl

/-- Linking in a fresh node puts it right after `a`. -/
theorem Vmm.Nodes.linked (h : s.Nodes (l ++ a :: r)) (newNz : new ≠ 0) (fresh : new ∉ l ++ a :: r)
    (notSlab : new ∉ s.slab) : (s.linked a new).Nodes (l ++ a :: new :: r) := by
  have ne : new ≠ a := by
    rintro rfl
    exact fresh (by simp)
  have link := h.list.next_eq
  have nextNe : s.next a ≠ new := by
    rw [link]
    cases r with
    | nil => exact Ne.symm newNz
    | cons y ys =>
      rintro e
      exact fresh (by simp [← e])
  refine ⟨h.list.insertAfter newNz fresh ?_ ?_ ?_ ?_ ?_ ?_, ?_, h.slab_nodup, h.slab_ne_zero, ?_⟩
  · simp [Vmm.linked, Vmm.next, ne]
  · simp [Vmm.linked, Vmm.next]
  · intro x xn xa
    simp [Vmm.linked, Vmm.next, xn, xa]
  · simp [Vmm.linked, Vmm.prev, Ne.symm nextNe]
  · intro nz
    simp [Vmm.linked, Vmm.prev, nz]
  · intro x xn xl
    simp [Vmm.linked, Vmm.prev, xn, xl]
  · have := h.count
    simp only [Vmm.linked, List.length_append, List.length_cons] at this ⊢
    omega
  · intro p hp mem
    have old := h.slab_fresh p hp
    have : p ≠ new := fun e => notSlab (e ▸ hp)
    simp only [List.mem_append, List.mem_cons] at mem old
    tauto

/-! ## Walks along the list -/

/-- `VM_FOREACH` finds the first node that passes the test. -/
theorem vmFind_eq {heap : ℕ → VmNode} {prev : ℕ → ℕ} {b : ℕ} (test : VmNode → Bool) (fuel : ℕ)
    (seg : Links.Seg (fun x => (heap x).next) prev b ps 0) (enough : ps.length < fuel) :
    vmFind heap test fuel (ps.headD 0) = .ok ((ps.find? fun x => test (heap x)).getD 0) := by
  induction ps generalizing fuel b with
  | nil =>
    obtain ⟨fuel, rfl⟩ := Nat.exists_eq_succ_of_ne_zero (Nat.ne_zero_of_lt enough)
    simp [vmFind]
  | cons x xs ih =>
    obtain ⟨fuel, rfl⟩ := Nat.exists_eq_succ_of_ne_zero (Nat.ne_zero_of_lt enough)
    obtain ⟨nz, _, next, rest⟩ := seg
    have next : (heap x).next = xs.headD 0 := next
    rw [List.length_cons] at enough
    rw [List.headD_cons, vmFind, if_neg nz]
    cases pass : test (heap x) with
    | true => simp [pass]
    | false =>
      rw [if_neg (by simp), next, ih fuel rest (by omega)]
      simp [pass]

/-- The nodes that `VM_FOREACH` visits. -/
def vmNodes (heap : ℕ → VmNode) : ℕ → ℕ → List VmNode
  | 0, _ => []
  | fuel + 1, p => if p = 0 then [] else heap p :: vmNodes heap fuel (heap p).next

def Vmm.nodeList (s : Vmm) : List VmNode := vmNodes s.heap s.nodes s.head

theorem vmNodes_eq {heap : ℕ → VmNode} {prev : ℕ → ℕ} {b : ℕ}
    (seg : Links.Seg (fun x => (heap x).next) prev b ps 0) :
    vmNodes heap ps.length (ps.headD 0) = ps.map heap := by
  induction ps generalizing b with
  | nil => rfl
  | cons x xs ih =>
    obtain ⟨nz, _, next, rest⟩ := seg
    have next : (heap x).next = xs.headD 0 := next
    rw [List.headD_cons, List.length_cons, vmNodes, if_neg nz, next, ih rest, List.map_cons]

theorem Vmm.Nodes.nodeList_eq (h : s.Nodes ps) : s.nodeList = ps.map s.heap := by
  rw [Vmm.nodeList, h.count, h.list.head_eq]
  exact vmNodes_eq h.list.seg

theorem Vmm.Holds.map_nodeList {rs : List Region} (h : s.Holds rs) :
    s.nodeList.map VmNode.region = rs := by
  obtain ⟨ps, nodes, rfl⟩ := h
  rw [nodes.nodeList_eq, List.map_map]
  rfl

/-- Where the walk of `mm_virtual_range_set` ends that starts at `x`, with the nodes `xs` behind it. -/
def walkEnd (heap : ℕ → VmNode) (addr : ℕ) : ℕ → List ℕ → ℕ
  | x, [] => x
  | x, y :: ys => if (heap x).start ≤ addr then walkEnd heap addr y ys else x

theorem rangePrev_eq {heap : ℕ → VmNode} {prev : ℕ → ℕ} {b x : ℕ} {xs : List ℕ} (addr fuel : ℕ)
    (seg : Links.Seg (fun x => (heap x).next) prev b (x :: xs) 0) (enough : xs.length < fuel) :
    rangePrev heap addr fuel x = .ok (walkEnd heap addr x xs) := by
  induction xs generalizing x b fuel with
  | nil =>
    obtain ⟨fuel, rfl⟩ := Nat.exists_eq_succ_of_ne_zero (Nat.ne_zero_of_lt enough)
    have last : (heap x).next = 0 := seg.2.2.1
    rw [rangePrev, if_neg (by simp [last]), walkEnd]
  | cons y ys ih =>
    obtain ⟨fuel, rfl⟩ := Nat.exists_eq_succ_of_ne_zero (Nat.ne_zero_of_lt enough)
    obtain ⟨nz, _, next, rest⟩ := seg
    have next : (heap x).next = y := next
    rw [List.length_cons] at enough
    rw [rangePrev, walkEnd, next]
    by_cases le : (heap x).start ≤ addr
    · rw [if_pos ⟨nz, rest.1, le⟩, if_pos le, ih fuel rest (by omega)]
    · rw [if_neg (by simp [le]), if_neg le]

/-- When all nodes but the last start at or below the address, the walk ends at the last. -/
theorem walkEnd_last {heap : ℕ → VmNode} {addr x : ℕ} {xs : List ℕ}
    (below : ∀ y ∈ (x :: xs).dropLast, (heap y).start ≤ addr) :
    walkEnd heap addr x xs = (x :: xs).getLast (List.cons_ne_nil x xs) := by
  induction xs generalizing x with
  | nil => rfl
  | cons y ys ih =>
    rw [List.dropLast_cons_cons] at below
    rw [walkEnd, if_pos (below x (by simp)), List.getLast_cons_cons]
    exact ih fun z hz => below z (List.mem_cons_of_mem _ hz)

theorem Vmm.Nodes.foreach_eq (h : s.Nodes ps) (test : VmNode → Bool) (few : ps.length < 2 ^ 64) :
    vmFind s.heap test (2 ^ 64) s.head = .ok ((ps.find? fun x => test (s.heap x)).getD 0) := by
  rw [h.list.head_eq]
  exact vmFind_eq test _ h.list.seg few

theorem Vmm.Nodes.rangePrev_last {addr : ℕ} (h : s.Nodes (l ++ [p]))
    (below : ∀ x ∈ l, (s.heap x).start ≤ addr) (few : l.length < 2 ^ 64) :
    rangePrev s.heap addr (2 ^ 64) s.head = .ok p := by
  obtain ⟨x, xs, e⟩ : ∃ x xs, l ++ [p] = x :: xs := by
    cases l with
    | nil => exact ⟨p, [], rfl⟩
    | cons y ys => exact ⟨y, ys ++ [p], rfl⟩
  have seg := h.list.seg
  have head := h.list.head_eq
  have size := congrArg List.length e
  simp only [List.length_append, List.length_cons, List.length_nil] at size
  rw [e] at seg head
  rw [head, List.headD_cons, rangePrev_eq addr _ seg (by omega), walkEnd_last]
  · congr 1
    simp only [← e, List.getLast_append_singleton]
  · rw [← e]
    simpa using below

end Vineyard

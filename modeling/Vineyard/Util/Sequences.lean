import Mathlib.Data.Finset.Card
import Mathlib.Order.Interval.Finset.Nat
import Vineyard.Util.List

/-!
# The lists as sequences

`list_append`, `list_insert_after` and `list_remove` do to the nodes of a list what their names say
to a sequence, and touch no other node.  Any number of lists without common nodes can live on one
heap; a run of calls keeps each of them at the sequence that the calls describe.
-/

namespace Vineyard

open Function Links

/-- A pointer to a node -/
def IsNode (node : ℕ) : Prop := node ≠ 0 ∧ node < 2 ^ 64

/-- A list on the heap of a 64-bit machine. -/
structure ListWellFormed (heap : NodeHeap) (list : ListT) (xs : List ℕ) : Prop where
  holds : ListHolds heap list xs
  address : ∀ x ∈ xs, x < 2 ^ 64

namespace ListWellFormed

variable {heap heap' : NodeHeap} {list : ListT} {xs : List ℕ} {node : ℕ}

theorem isNode (wf : ListWellFormed heap list xs) : ∀ x ∈ xs, IsNode x :=
  fun x hx => ⟨wf.holds.links.seg.ne_zero x hx, wf.address x hx⟩

theorem congr (wf : ListWellFormed heap list xs) (same : ∀ x ∈ xs, heap' x = heap x) :
    ListWellFormed heap' list xs :=
  ⟨⟨wf.holds.links.congr (fun x hx => by simp [same x hx]) (fun x hx => by simp [same x hx]),
    wf.holds.length⟩, wf.address⟩

end ListWellFormed

/-- There are not enough addresses for the length of a list to wrap around. -/
theorem length_lt_of_isNode {xs : List ℕ} (nodup : xs.Nodup) (nodes : ∀ x ∈ xs, IsNode x) :
    xs.length < 2 ^ 64 := by
  have inside : xs.toFinset ⊆ Finset.Ico 1 (2 ^ 64) := by
    intro x hx
    have node := nodes x (List.mem_toFinset.1 hx)
    exact Finset.mem_Ico.2 ⟨Nat.one_le_iff_ne_zero.2 node.1, node.2⟩
  have card := Finset.card_le_card inside
  rw [List.toFinset_card_of_nodup nodup, Nat.card_Ico] at card
  exact card.trans_lt (by decide)

/-- A list that lacks a node has room for it. -/
theorem ListWellFormed.room {heap : NodeHeap} {list : ListT} {xs : List ℕ} {node : ℕ}
    (wf : ListWellFormed heap list xs) (isNode : IsNode node) (fresh : node ∉ xs) :
    xs.length + 1 < 2 ^ 64 := by
  have nodes : ∀ x ∈ node :: xs, IsNode x := by simpa [isNode] using wf.isNode
  exact length_lt_of_isNode (List.nodup_cons.2 ⟨fresh, wf.holds.links.nodup⟩) nodes

/-- What a call on the list with the nodes `xs` leaves behind: the list has the nodes `ys`, and
only the links of `xs` and `node` can differ. -/
structure ListLeaves (heap : NodeHeap) (xs : List ℕ) (node : ℕ) (ys : List ℕ)
  (r : ListT × NodeHeap) : Prop where
  wellFormed : ListWellFormed r.2 r.1 ys
  data : ∀ p, (r.2 p).data = (heap p).data
  others : ∀ p, p ∉ xs → p ≠ node → r.2 p = heap p

section Calls

variable {heap : NodeHeap} {list : ListT} {xs : List ℕ} {after node : ℕ}

theorem listAppend_list (nz : node ≠ 0) : (listAppend list node heap).1 =
    ⟨if list.head = 0 then node else list.head, node, Word64.add list.length 1⟩ := by
  by_cases h : list.head = 0 <;> simp [listAppend, nz, h]

theorem listAppend_heap (nz : node ≠ 0) : (listAppend list node heap).2 =
    setNext (setPrev (if list.tail = 0 then heap else setNext heap list.tail node) node list.tail)
      node 0 := by
  by_cases h : list.head = 0 <;> simp [listAppend, nz, h]

theorem listAppend_leaves (wf : ListWellFormed heap list xs) (isNode : IsNode node)
    (fresh : node ∉ xs) :
    ListLeaves heap xs node (xs ++ [node]) (listAppend list node heap) := by
  have links := wf.holds.links
  have tailIn : list.tail ≠ 0 → list.tail ∈ xs := links.tail_mem
  have tailNe : list.tail ≠ 0 → list.tail ≠ node := fun t => ne_of_mem_of_not_mem (tailIn t) fresh
  refine ⟨⟨⟨?_, ?_⟩, ?_⟩, fun p => ?_, fun p outside ne => ?_⟩
  · rw [listAppend_list isNode.1, listAppend_heap isNode.1]
    refine links.append isNode.1 fresh (by simp) (fun t => ?_) (fun x hx hxt => ?_) (by simp)
      (fun x hx => ?_)
    · simp [t, tailNe t]
    · by_cases t : list.tail = 0 <;> simp [t, hx, hxt]
    · by_cases t : list.tail = 0 <;> simp [t, hx]
  · simp [listAppend_list isNode.1, wf.holds.length, Word64.add_eq (wf.room isNode fresh)]
  · simp only [List.mem_append, List.mem_singleton]
    rintro x (old | rfl)
    · exact wf.address x old
    · exact isNode.2
  · by_cases t : list.tail = 0 <;> simp [listAppend_heap isNode.1, t]
  · rw [listAppend_heap isNode.1, setNext_of_ne _ _ ne, setPrev_of_ne _ _ ne]
    by_cases t : list.tail = 0
    · simp [t]
    · simpa [t] using setNext_of_ne heap node (ne_of_mem_of_not_mem (tailIn t) outside).symm

theorem listInsertAfter_list (a : after ≠ 0) (nz : node ≠ 0) (ne : after ≠ node) :
    (listInsertAfter list after node heap).1 =
      ⟨list.head, if (heap after).next = 0 then node else list.tail, Word64.add list.length 1⟩ := by
  by_cases h : (heap after).next = 0 <;> simp [listInsertAfter, a, nz, ne, h]

theorem listInsertAfter_heap (a : after ≠ 0) (nz : node ≠ 0) (ne : after ≠ node) :
    (listInsertAfter list after node heap).2 =
      setNext (if (heap after).next = 0 then setPrev (setNext heap node (heap after).next) node after
        else setPrev (setPrev (setNext heap node (heap after).next) node after)
          (heap after).next node)
        after node := by
  by_cases h : (heap after).next = 0 <;> simp [listInsertAfter, a, nz, ne, h]

theorem listInsertAfter_leaves (wf : ListWellFormed heap list xs) (mem : after ∈ xs)
    (isNode : IsNode node) (fresh : node ∉ xs) :
    ListLeaves heap xs node (insertBehind after node xs) (listInsertAfter list after node heap) := by
  have links := wf.holds.links
  have a := (wf.isNode after mem).1
  have ne : after ≠ node := ne_of_mem_of_not_mem mem fresh
  have perm := insertBehind_perm node mem
  have room := wf.room isNode fresh
  have address : ∀ x ∈ insertBehind after node xs, x < 2 ^ 64 := by
    intro x hx
    rcases List.mem_cons.1 (perm.mem_iff.1 hx) with rfl | old
    · exact isNode.2
    · exact wf.address x old
  obtain ⟨l, r, rfl, first⟩ := List.eq_append_cons_of_mem mem
  have nextIn : (heap after).next ≠ 0 → (heap after).next ∈ l ++ after :: r := links.next_mem
  refine ⟨⟨⟨?_, ?_⟩, address⟩, fun p => ?_, fun p outside other => ?_⟩
  · rw [listInsertAfter_list a isNode.1 ne, listInsertAfter_heap a isNode.1 ne,
      insertBehind_append r first]
    refine links.insertAfter isNode.1 fresh ?_ (by simp) (fun x hx hxa => ?_) ?_ (fun h => ?_)
      (fun x hx hxn => ?_)
    · by_cases h : (heap after).next = 0 <;> simp [h, ne.symm]
    · by_cases h : (heap after).next = 0 <;> simp [h, hx, hxa]
    · by_cases h : (heap after).next = 0
      · simp [h]
      · simp [h, (ne_of_mem_of_not_mem (nextIn h) fresh).symm]
    · simp [show (heap after).next ≠ 0 from h]
    · have hxn : x ≠ (heap after).next := hxn
      by_cases h : (heap after).next = 0 <;> simp [h, hx, hxn]
  · rw [listInsertAfter_list a isNode.1 ne, perm.length_eq, wf.holds.length, List.length_cons,
      Word64.add_eq room]
  · by_cases h : (heap after).next = 0 <;> simp [listInsertAfter_heap a isNode.1 ne, h]
  · have notAfter : p ≠ after := fun e => outside (by simp [e])
    rw [listInsertAfter_heap a isNode.1 ne, setNext_of_ne _ _ notAfter]
    by_cases h : (heap after).next = 0
    · rw [if_pos h, setPrev_of_ne _ _ other, setNext_of_ne _ _ other]
    · rw [if_neg h, setPrev_of_ne _ _ (ne_of_mem_of_not_mem (nextIn h) outside).symm,
        setPrev_of_ne _ _ other, setNext_of_ne _ _ other]

theorem listRemove_list (nz : node ≠ 0) : (listRemove list node heap).1 =
    ⟨if (heap node).prev = 0 then (heap node).next else list.head,
      if (heap node).next = 0 then (heap node).prev else list.tail, Word64.sub list.length 1⟩ := by
  by_cases p : (heap node).prev = 0 <;> by_cases n : (heap node).next = 0 <;>
    simp [listRemove, nz, p, n]

theorem listRemove_heap (nz : node ≠ 0) : (listRemove list node heap).2 =
    let unlinked := if (heap node).prev = 0 then heap
      else setNext heap (heap node).prev (heap node).next
    if (heap node).next = 0 then unlinked
    else setPrev unlinked (heap node).next (heap node).prev := by
  by_cases p : (heap node).prev = 0 <;> by_cases n : (heap node).next = 0 <;>
    simp [listRemove, nz, p, n]

theorem listRemove_leaves (wf : ListWellFormed heap list xs) (mem : node ∈ xs) :
    ListLeaves heap xs node (xs.erase node) (listRemove list node heap) := by
  have links := wf.holds.links
  have nz := (wf.isNode node mem).1
  have some := List.length_pos_of_mem mem
  have small := length_lt_of_isNode links.nodup wf.isNode
  have shorter := List.length_erase_of_mem mem
  have address : ∀ x ∈ xs.erase node, x < 2 ^ 64 :=
    fun x hx => wf.address x (List.mem_of_mem_erase hx)
  obtain ⟨l, r, rfl, first⟩ := List.eq_append_cons_of_mem mem
  have erased : (l ++ node :: r).erase node = l ++ r := by
    rw [List.erase_append_right _ first, List.erase_cons_head]
  have nextIn : (heap node).next ≠ 0 → (heap node).next ∈ l ++ node :: r := links.next_mem
  have prevIn : (heap node).prev ≠ 0 → (heap node).prev ∈ l ++ node :: r := links.prev_mem
  refine ⟨⟨⟨?_, ?_⟩, address⟩, fun p => ?_, fun p outside other => ?_⟩
  · rw [listRemove_list nz, listRemove_heap nz, erased]
    refine links.remove (fun h => ?_) (fun x hx => ?_) (fun h => ?_) (fun x hx => ?_)
    · have h : (heap node).prev ≠ 0 := h
      by_cases n : (heap node).next = 0 <;> simp [h, n]
    · have hx : x ≠ (heap node).prev := hx
      by_cases p : (heap node).prev = 0 <;> by_cases n : (heap node).next = 0 <;> simp [hx, p, n]
    · have h : (heap node).next ≠ 0 := h
      by_cases p : (heap node).prev = 0 <;> simp [h, p]
    · have hx : x ≠ (heap node).next := hx
      by_cases p : (heap node).prev = 0 <;> by_cases n : (heap node).next = 0 <;> simp [hx, p, n]
  · rw [listRemove_list nz, wf.holds.length, shorter]
    exact Word64.sub_eq some (by omega)
  · by_cases p : (heap node).prev = 0 <;> by_cases n : (heap node).next = 0 <;>
      simp [listRemove_heap nz, p, n]
  · have apart : (heap node).prev ≠ 0 → p ≠ (heap node).prev :=
      fun h => (ne_of_mem_of_not_mem (prevIn h) outside).symm
    have apart' : (heap node).next ≠ 0 → p ≠ (heap node).next :=
      fun h => (ne_of_mem_of_not_mem (nextIn h) outside).symm
    by_cases b : (heap node).prev = 0 <;> by_cases n : (heap node).next = 0 <;>
      simp [listRemove_heap nz, b, n, setPrev_of_ne, setNext_of_ne, apart, apart']

end Calls

/-- Several lists on one heap -/
structure Lists (ι : Type) where
  list : ι → ListT
  heap : NodeHeap

/-- A call on one of the lists -/
inductive ListCall (ι : Type) where
  | append (i : ι) (node : ℕ)
  | insertAfter (i : ι) (after node : ℕ)
  | remove (i : ι) (node : ℕ)

namespace ListCall

variable {ι : Type} [DecidableEq ι]

/-- The list the call is on -/
def target : ListCall ι → ι
  | append i _ => i
  | insertAfter i _ _ => i
  | remove i _ => i

/-- The node the call puts in or takes out -/
def node : ListCall ι → ℕ
  | append _ node => node
  | insertAfter _ _ node => node
  | remove _ node => node

/-- The call, as the kernel makes it -/
def result (s : Lists ι) : ListCall ι → ListT × NodeHeap
  | append i node => listAppend (s.list i) node s.heap
  | insertAfter i after node => listInsertAfter (s.list i) after node s.heap
  | remove i node => listRemove (s.list i) node s.heap

def run (s : Lists ι) (call : ListCall ι) : Lists ι :=
  ⟨update s.list call.target (call.result s).1, (call.result s).2⟩

/-- What the call does to a sequence -/
def edit (xs : List ℕ) : ListCall ι → List ℕ
  | append _ node => xs ++ [node]
  | insertAfter _ after node => insertBehind after node xs
  | remove _ node => xs.erase node

def apply (seqs : ι → List ℕ) (call : ListCall ι) : ι → List ℕ :=
  update seqs call.target (call.edit (seqs call.target))

/-- A node is put in only while no list has it, and taken out of the list that has it. -/
def Allowed (seqs : ι → List ℕ) : ListCall ι → Prop
  | append _ node => IsNode node ∧ ∀ j, node ∉ seqs j
  | insertAfter i after node => after ∈ seqs i ∧ IsNode node ∧ ∀ j, node ∉ seqs j
  | remove i node => node ∈ seqs i

/-- The call puts `x` into list `i`. -/
def puts (i : ι) (x : ℕ) : ListCall ι → Bool
  | append j node => j = i ∧ node = x
  | insertAfter j _ node => j = i ∧ node = x
  | remove _ _ => false

/-- The call takes `x` out of list `i`. -/
def takes (i : ι) (x : ℕ) : ListCall ι → Bool
  | remove j node => j = i ∧ node = x
  | _ => false

/-- Every call of the run is made when it is allowed. -/
def Permitted : (ι → List ℕ) → List (ListCall ι) → Prop
  | _, [] => True
  | seqs, call :: calls => call.Allowed seqs ∧ Permitted (call.apply seqs) calls

end ListCall

/-- Each list has its sequence, and no node is in two of them. -/
structure Lists.Hold {ι : Type} (s : Lists ι) (seqs : ι → List ℕ) : Prop where
  wellFormed : ∀ i, ListWellFormed s.heap (s.list i) (seqs i)
  disjoint : ∀ i j, i ≠ j → ∀ x ∈ seqs i, x ∉ seqs j

section Runs

variable {ι : Type} {s : Lists ι} {seqs : ι → List ℕ} {call : ListCall ι}

/-- An allowed call on a list that lives with others. -/
theorem Lists.Hold.result_leaves (hold : s.Hold seqs) (allowed : call.Allowed seqs) :
    ListLeaves s.heap (seqs call.target) call.node (call.edit (seqs call.target))
      (call.result s) := by
  cases call with
  | append i node => exact listAppend_leaves (hold.wellFormed i) allowed.1 (allowed.2 i)
  | insertAfter i after node =>
    exact listInsertAfter_leaves (hold.wellFormed i) allowed.1 allowed.2.1 (allowed.2.2 i)
  | remove i node => exact listRemove_leaves (hold.wellFormed i) allowed

/-- The other lists have none of the nodes that the call relinks. -/
theorem Lists.Hold.foreign (hold : s.Hold seqs) (allowed : call.Allowed seqs) {j : ι}
    (ne : j ≠ call.target) : call.node ∉ seqs j := by
  cases call with
  | append i node => exact allowed.2 j
  | insertAfter i after node => exact allowed.2.2 j
  | remove i node => exact hold.disjoint i j ne.symm node allowed

theorem ListCall.Allowed.mem_edit (allowed : call.Allowed seqs) {x : ℕ}
    (hx : x ∈ call.edit (seqs call.target)) : x ∈ seqs call.target ∨ x = call.node := by
  cases call with
  | append i node => exact (List.mem_append.1 hx).imp_right List.mem_singleton.1
  | insertAfter i after node =>
    exact (List.mem_cons.1 ((insertBehind_perm node allowed.1).mem_iff.1 hx)).symm
  | remove i node => exact .inl (List.mem_of_mem_erase hx)

variable [DecidableEq ι]

theorem Lists.Hold.run (hold : s.Hold seqs) (allowed : call.Allowed seqs) :
    (call.run s).Hold (call.apply seqs) := by
  have leaves := hold.result_leaves allowed
  have other : ∀ j, j ≠ call.target → ∀ x ∈ seqs j, x ∉ call.edit (seqs call.target) := by
    intro j ne x hx edited
    rcases allowed.mem_edit edited with old | rfl
    · exact hold.disjoint j _ ne x hx old
    · exact hold.foreign allowed ne hx
  refine ⟨fun i => ?_, fun i j ne x hx => ?_⟩
  · by_cases h : i = call.target
    · subst h
      simpa [ListCall.run, ListCall.apply] using leaves.wellFormed
    · have kept : ListWellFormed (call.result s).2 (s.list i) (seqs i) :=
        (hold.wellFormed i).congr fun x hx =>
        leaves.others x (hold.disjoint i _ h x hx) (ne_of_mem_of_not_mem hx (hold.foreign allowed h))
      simpa [ListCall.run, ListCall.apply, h] using kept
  · by_cases hi : i = call.target
    · subst hi
      have mem : x ∈ call.edit (seqs call.target) := by simpa [ListCall.apply] using hx
      simpa [ListCall.apply, ne.symm] using fun hj => other j ne.symm x hj mem
    · have mem : x ∈ seqs i := by simpa [ListCall.apply, hi] using hx
      by_cases hj : j = call.target
      · subst hj
        simpa [ListCall.apply] using other i hi x mem
      · simpa [ListCall.apply, hj] using hold.disjoint i j ne x mem

/-- A sequence gains the nodes put in and loses those taken out. -/
theorem ListCall.Allowed.count_apply (allowed : call.Allowed seqs) (i : ι) (x : ℕ) :
    (call.apply seqs i).count x + (if call.takes i x then 1 else 0) =
      (seqs i).count x + (if call.puts i x then 1 else 0) := by
  by_cases h : i = call.target
  · subst h
    cases call with
    | append i node =>
      by_cases e : node = x <;> simp [apply, target, edit, takes, puts, e]
    | insertAfter i after node =>
      have perm := (insertBehind_perm node allowed.1).count_eq x
      by_cases e : node = x <;>
        simpa [apply, target, edit, takes, puts, e, List.count_cons] using perm
    | remove i node =>
      have some := List.count_pos_iff.2 allowed
      by_cases e : node = x
      · subst e
        simp [apply, target, edit, takes, puts]
        omega
      · simp [apply, target, edit, takes, puts, e, List.count_erase_of_ne (Ne.symm e)]
  · have away : takes i x call = false ∧ puts i x call = false := by
      cases call <;> simp_all [takes, puts, target, eq_comm]
    simp [apply, h, away]

variable {calls : List (ListCall ι)}

theorem Lists.Hold.runs (hold : s.Hold seqs) (permitted : ListCall.Permitted seqs calls) :
    (calls.foldl ListCall.run s).Hold (calls.foldl ListCall.apply seqs) := by
  induction calls generalizing s seqs with
  | nil => exact hold
  | cons call calls ih => exact ih (hold.run permitted.1) permitted.2

theorem ListCall.Permitted.count (permitted : ListCall.Permitted seqs calls) (i : ι) (x : ℕ) :
    (calls.foldl apply seqs i).count x + calls.countP (takes i x) =
      (seqs i).count x + calls.countP (puts i x) := by
  induction calls generalizing seqs with
  | nil => simp
  | cons call calls ih =>
    have step := permitted.1.count_apply i x
    have rest := ih permitted.2
    simp only [List.foldl_cons, List.countP_cons]
    omega

theorem Lists.Hold.runs_data (hold : s.Hold seqs)
    (permitted : ListCall.Permitted seqs calls) (p : ℕ) :
    ((calls.foldl ListCall.run s).heap p).data = (s.heap p).data := by
  induction calls generalizing s seqs with
  | nil => rfl
  | cons call calls ih =>
    exact (ih (hold.run permitted.1) permitted.2).trans ((hold.result_leaves permitted.1).data p)

theorem Lists.Hold.runs_others (hold : s.Hold seqs)
    (permitted : ListCall.Permitted seqs calls) {p : ℕ} (outside : ∀ i, p ∉ seqs i)
    (unnamed : ∀ call ∈ calls, call.node ≠ p) :
    (calls.foldl ListCall.run s).heap p = s.heap p := by
  induction calls generalizing s seqs with
  | nil => rfl
  | cons call calls ih =>
    have ne := (unnamed call (by simp)).symm
    have still : ∀ i, p ∉ call.apply seqs i := by
      intro i
      by_cases h : i = call.target
      · subst h
        have left := fun hx => (permitted.1.mem_edit hx).elim (outside call.target) ne
        simpa [ListCall.apply] using left
      · simpa [ListCall.apply, h] using outside i
    refine (ih (hold.run permitted.1) permitted.2 still fun c hc => ?_).trans
      ((hold.result_leaves permitted.1).others p (outside _) ne)
    exact unnamed c (List.mem_cons_of_mem _ hc)

end Runs

/-- Each call does to the sequence of its list what its name says, and a run of calls on lists
without common nodes keeps every list at its sequence: the nodes put in and not taken out. -/
theorem lists_refine_sequences :
    (∀ heap list xs node, ListWellFormed heap list xs → IsNode node → node ∉ xs →
      ListLeaves heap xs node (xs ++ [node]) (listAppend list node heap)) ∧
    (∀ heap list xs after node, ListWellFormed heap list xs → after ∈ xs → IsNode node → node ∉ xs →
      ListLeaves heap xs node (insertBehind after node xs) (listInsertAfter list after node heap)) ∧
    (∀ heap list xs node, ListWellFormed heap list xs → node ∈ xs →
      ListLeaves heap xs node (xs.erase node) (listRemove list node heap)) ∧
    ∀ (ι : Type) [DecidableEq ι] (s : Lists ι) (seqs : ι → List ℕ) (calls : List (ListCall ι)),
      s.Hold seqs → ListCall.Permitted seqs calls →
      (calls.foldl ListCall.run s).Hold (calls.foldl ListCall.apply seqs) ∧
      (∀ i x, (calls.foldl ListCall.apply seqs i).count x + calls.countP (ListCall.takes i x) =
        (seqs i).count x + calls.countP (ListCall.puts i x)) ∧
      (∀ p, ((calls.foldl ListCall.run s).heap p).data = (s.heap p).data) ∧
      ∀ p, (∀ i, p ∉ seqs i) → (∀ call ∈ calls, call.node ≠ p) →
        (calls.foldl ListCall.run s).heap p = s.heap p := by
  refine ⟨fun _ _ _ _ => listAppend_leaves, fun _ _ _ _ _ => listInsertAfter_leaves,
    fun _ _ _ _ => listRemove_leaves, fun ι _ s seqs calls hold permitted => ?_⟩
  exact ⟨hold.runs permitted, permitted.count, hold.runs_data permitted,
    fun p => hold.runs_others permitted⟩

/-- Two empty lists -/
def twoLists : Lists Bool := ⟨fun _ => ⟨0, 0, 0⟩, fun p => ⟨0, 0, p⟩⟩

theorem twoLists_hold : twoLists.Hold fun _ => [] :=
  ⟨fun _ => ⟨listHolds_nil _, by simp⟩, fun _ _ _ => by simp⟩

def twoListsCalls : List (ListCall Bool) :=
  [.append true 8, .append true 16, .insertAfter true 8 24, .remove true 8, .append false 8]

theorem twoLists_refine :
    (twoListsCalls.foldl ListCall.run twoLists).Hold fun i => if i then [24, 16] else [8] := by
  have permitted : ListCall.Permitted (fun _ => []) twoListsCalls := by
    simp [twoListsCalls, ListCall.Permitted, ListCall.Allowed, ListCall.apply, ListCall.target,
      ListCall.edit, IsNode, insertBehind]
  have final : twoListsCalls.foldl ListCall.apply (fun _ => []) = fun i =>
    if i then [24, 16] else [8] := by
    funext i
    cases i <;> decide
  exact final ▸ (lists_refine_sequences.2.2.2 Bool twoLists _ _ twoLists_hold permitted).1

end Vineyard

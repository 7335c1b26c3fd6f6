import Vineyard.Region.Refinement

/-!
# The regions after `mm_virtual_init`

`mm_virtual_range_set` on an empty list, inside the node at which its walk ends, and at the start of
that node; then the list that the five calls of `mm_virtual_init` build.
-/

namespace Vineyard

open Function

variable {s : Vmm} {p new addr len : ℕ} {l k : List ℕ}

theorem lastAddr_eq {start len : ℕ} (pos : 0 < len) (word : start + len ≤ 2 ^ 64) :
    lastAddr start len = start + len - 1 := by
  simp only [lastAddr, Word64.add, Word64.sub]
  omega

/-- The first region of an empty list. -/
theorem mmVirtualRangeSet_empty (flags : ℕ) (nodes : s.Nodes []) {slab : List ℕ}
    (left : s.slab = new :: slab) (addrAligned : addr % 0x1000 = 0) (lenAligned : len % 0x1000 = 0) :
    ∃ s', mmVirtualRangeSet addr len flags s = .ok s' ∧ s'.Holds [⟨addr, len, flags⟩] ∧
      s'.slab = slab := by
  have head : s.head = 0 := nodes.list.head_eq
  obtain ⟨newNz, _, notSlab, drawn⟩ := nodes.drawn left
  have walk : rangePrev s.heap addr (2 ^ 64) s.head = .ok 0 := by
    rw [head, show 2 ^ 64 = 2 ^ 64 - 1 + 1 from rfl, rangePrev, if_neg (by simp)]
  refine ⟨{ (s.drawn new slab).modify new fun _ => ⟨0, 0, addr, len, flags⟩ with
    head := new, tail := new, nodes :=
      1 }, ?_, ⟨[new], ⟨Links.isList_singleton newNz ?_ ?_, rfl, drawn.slab_nodup,
    drawn.slab_ne_zero, ?_⟩, ?_⟩, ?_⟩
  · rw [mmVirtualRangeSet, if_neg (by simp [and_0xFFF addrAligned]),
      if_neg (by simp [and_0xFFF lenAligned]), walk, mmSlabAlloc_ok left]
    rfl
  · simp [Vmm.next, Vmm.modify]
  · simp [Vmm.prev, Vmm.modify]
  · intro q hq
    rw [List.mem_singleton]
    rintro rfl
    exact notSlab hq
  · simp [Vmm.region, Vmm.modify, VmNode.region]
  · rfl

/-- The range starts where the node starts at which the walk ends, and ends before it. -/
theorem mmVirtualRangeSet_start (flags : ℕ) (nodes : s.Nodes (l ++ p :: k)) {slab : List ℕ}
    (left : s.slab = new :: slab) (walk : rangePrev s.heap addr (2 ^ 64) s.head = .ok p)
    (addrAligned : addr % 0x1000 = 0) (lenAligned : len % 0x1000 = 0) (pos : 0 < len)
    (start : (s.heap p).start = addr) (ends : len < (s.heap p).len)
    (word : addr + (s.heap p).len ≤ 2 ^ 64) :
    ∃ s', mmVirtualRangeSet addr len flags s = .ok s' ∧ s'.Holds (l.map s.region ++
      [⟨addr, len, flags⟩, ⟨addr + len, (s.heap p).len - len, (s.heap p).flags⟩] ++
      k.map s.region) ∧ s'.slab = slab := by
  have pNz : p ≠ 0 := nodes.list.seg.ne_zero p (by simp)
  obtain ⟨_, fresh, _, _⟩ := nodes.drawn left
  have same : (s.drawn new slab).heap p = s.heap p := by
    have ne : p ≠ new := fun e => fresh (by simp [e])
    simp [Vmm.drawn, ne]
  obtain ⟨holds, slabLeft, _⟩ := nodes.holds_split left
    (fun n => { n with
      start := Word64.add addr len
      len := Word64.sub (s.heap p).len len
      flags := (s.heap p).flags })
    (f := fun n => { n with len := len, flags := flags }) (fun _ => rfl) (fun _ => rfl) rfl
  refine ⟨_, ?_, ?_, slabLeft⟩
  · rw [mmVirtualRangeSet, if_neg (by simp [and_0xFFF addrAligned]),
      if_neg (by simp [and_0xFFF lenAligned]), walk, mmSlabAlloc_ok left]
    have notBeyond : ¬ lastAddr addr (s.heap p).len < addr := by
      rw [lastAddr_eq (by omega) word]
      omega
    have inside : lastAddr addr (s.heap p).len ≥ lastAddr addr len := by
      rw [lastAddr_eq (by omega) word, lastAddr_eq pos (by omega)]
      omega
    have notEnd : lastAddr addr (s.heap p).len ≠ lastAddr addr len := by
      rw [lastAddr_eq (by omega) word, lastAddr_eq pos (by omega)]
      omega
    simp [pNz, same, start, notBeyond, inside, notEnd]
  · have newStart := Word64.add_eq (a := addr) (b := len) (by omega)
    have newLen := Word64.sub_eq (a := (s.heap p).len) ends.le (by omega)
    simpa [VmNode.region, start, newStart, newLen] using holds

/-! ### A range inside a node -/

/-- The payload of the three nodes that a range inside `p` leaves: `p` up to the range, `new` for the
range and `post` for what is behind it. -/
def Vmm.cut (s : Vmm) (p new post : ℕ) (slab : List ℕ) (addr len flags : ℕ) : Vmm :=
  ((((s.drawn new (post :: slab)).drawn post slab).modify p
    fun n => { n with len := Word64.sub addr n.start }).modify new
    fun n => { n with start := addr, len := len, flags := flags }).modify post
    fun n => { n with
      start := Word64.add addr len
      len := Word64.sub (Word64.sub (s.heap p).len (Word64.sub addr (s.heap p).start)) len }

section Cut

variable {post flags : ℕ} {slab : List ℕ}

theorem Vmm.map_cut_region (s : Vmm) {p new post : ℕ} {xs : List ℕ} (notP : p ∉ xs)
    (notNew : new ∉ xs) (notPost : post ∉ xs) :
    xs.map (s.cut p new post slab addr len flags).region = xs.map s.region := by
  refine List.map_congr_left fun x mem => ?_
  have xp : x ≠ p := fun e => notP (e ▸ mem)
  have xn : x ≠ new := fun e => notNew (e ▸ mem)
  have xq : x ≠ post := fun e => notPost (e ▸ mem)
  simp [Vmm.cut, Vmm.region, Vmm.modify, Vmm.drawn, xp, xn, xq]

theorem Vmm.cut_regions (newP : new ≠ p) (postP : post ≠ p) (postNew : post ≠ new)
    (start : (s.heap p).start < addr) (ends : addr + len < (s.heap p).start + (s.heap p).len)
    (word : (s.heap p).start + (s.heap p).len ≤ 2 ^ 64) :
    [p, new, post].map (s.cut p new post slab addr len flags).region =
      [⟨(s.heap p).start, addr - (s.heap p).start, (s.heap p).flags⟩, ⟨addr, len, flags⟩,
        ⟨addr + len, (s.heap p).start + (s.heap p).len - (addr + len), 0⟩] := by
  have lenP := Word64.sub_eq (a := addr) start.le (by omega)
  have newStart := Word64.add_eq (a := addr) (b := len) (by omega)
  have lenPost : Word64.sub (Word64.sub (s.heap p).len (addr - (s.heap p).start)) len =
      (s.heap p).start + (s.heap p).len - (addr + len) := by
    rw [Word64.sub_eq (a := (s.heap p).len) (by omega) (by omega),
      Word64.sub_eq (by omega) (by omega)]
    omega
  have atP : (s.cut p new post slab addr len flags).region p =
      ⟨(s.heap p).start, addr - (s.heap p).start, (s.heap p).flags⟩ := by
    simp [Vmm.cut, Vmm.region, Vmm.modify, Vmm.drawn, VmNode.region, Ne.symm newP,
      Ne.symm postP, lenP]
  have atNew : (s.cut p new post slab addr len flags).region new = ⟨addr, len, flags⟩ := by
    simp [Vmm.cut, Vmm.region, Vmm.modify, Vmm.drawn, VmNode.region, newP, Ne.symm postNew]
  have atPost : (s.cut p new post slab addr len flags).region post =
      ⟨addr + len, (s.heap p).start + (s.heap p).len - (addr + len), 0⟩ := by
    simp [Vmm.cut, Vmm.region, Vmm.modify, Vmm.drawn, VmNode.region, postP, postNew, lenP, newStart,
      lenPost]
  rw [List.map_cons, List.map_cons, List.map_singleton, atP, atNew, atPost]

/-- The payload is written first, then the two new nodes are linked in. -/
theorem mmVirtualRangeSet_cut (flags : ℕ) (left : s.slab = new :: post :: slab)
    (walk : rangePrev s.heap addr (2 ^ 64) s.head = .ok p) (pNz : p ≠ 0) (newNz : new ≠ 0)
    (postNz : post ≠ 0) (newP : new ≠ p) (postP : post ≠ p) (postNew : post ≠ new)
    (addrAligned : addr % 0x1000 = 0) (lenAligned : len % 0x1000 = 0) (pos : 0 < len)
    (start : (s.heap p).start < addr) (ends : addr + len < (s.heap p).start + (s.heap p).len)
    (word : (s.heap p).start + (s.heap p).len ≤ 2 ^ 64) :
    mmVirtualRangeSet addr len flags s =
      .ok (((s.cut p new post slab addr len flags).linked p new).linked new post) := by
  rw [← mmVirtualInsertAfter_eq _ newNz postNz postNew, ← mmVirtualInsertAfter_eq _ pNz newNz newP,
    mmVirtualRangeSet, if_neg (by simp [and_0xFFF addrAligned]),
    if_neg (by simp [and_0xFFF lenAligned]), walk, mmSlabAlloc_ok left]
  have lastOld := lastAddr_eq (by omega) word
  have lastNew := lastAddr_eq pos (show addr + len ≤ 2 ^ 64 by omega)
  have once : (s.drawn new (post :: slab)).heap p = s.heap p := by
    simp [Vmm.drawn, Ne.symm newP]
  have twice : ((s.drawn new (post :: slab)).drawn post slab).heap p = s.heap p := by
    simp [Vmm.drawn, Ne.symm postP, Ne.symm newP]
  have notBeyond : ¬ lastAddr (s.heap p).start (s.heap p).len < addr := by omega
  have inside : lastAddr (s.heap p).start (s.heap p).len ≥ lastAddr addr len := by omega
  have notEnd : lastAddr (s.heap p).start (s.heap p).len ≠ lastAddr addr len := by omega
  simp [Vmm.cut, pNz, once, twice, start.le, start.ne, notBeyond, inside, notEnd,
    mmSlabAlloc_ok (show (s.drawn new (post :: slab)).slab = post :: slab from rfl), Vmm.modify, newP,
    Ne.symm newP]

end Cut

/-- The range lies inside the node at which the walk ends and touches neither of its ends. -/
theorem mmVirtualRangeSet_inside (flags : ℕ) (nodes : s.Nodes (l ++ p :: k)) {post : ℕ}
    {slab : List ℕ} (left : s.slab = new :: post :: slab)
    (walk : rangePrev s.heap addr (2 ^ 64) s.head = .ok p) (addrAligned : addr % 0x1000 = 0)
    (lenAligned : len % 0x1000 = 0) (pos : 0 < len) (start : (s.heap p).start < addr)
    (ends : addr + len < (s.heap p).start + (s.heap p).len)
    (word : (s.heap p).start + (s.heap p).len ≤ 2 ^ 64) :
    ∃ s', mmVirtualRangeSet addr len flags s = .ok s' ∧ s'.Holds (l.map s.region ++
      [⟨(s.heap p).start, addr - (s.heap p).start, (s.heap p).flags⟩, ⟨addr, len, flags⟩,
        ⟨addr + len, (s.heap p).start + (s.heap p).len - (addr + len), 0⟩] ++ k.map s.region) ∧
      s'.slab = slab := by
  have pNz : p ≠ 0 := nodes.list.seg.ne_zero p (by simp)
  obtain ⟨newNz, newFresh, newNotSlab, drawn⟩ := nodes.drawn left
  obtain ⟨postNz, postFresh, postNotSlab, drawn'⟩ := drawn.drawn (show _ = post :: slab from rfl)
  have postNew : post ≠ new := fun e => newNotSlab (by simp [e])
  have newP : new ≠ p := fun e => newFresh (by simp [e])
  have postP : post ≠ p := fun e => postFresh (by simp [e])
  have newOut : new ∉ slab := fun e => newNotSlab (List.mem_cons_of_mem _ e)
  have written : (s.cut p new post slab addr len flags).Nodes (l ++ p :: k) :=
    ((drawn'.modify rfl rfl).modify_outside newFresh).modify_outside postFresh
  have once := written.linked newNz newFresh newOut
  rw [show l ++ p :: new :: k = (l ++ [p]) ++ new :: k by simp] at once
  have twice := once.linked postNz (by simp_all) postNotSlab
  refine ⟨_, mmVirtualRangeSet_cut flags left walk pNz newNz postNz newP postP postNew addrAligned
    lenAligned pos start ends word, ⟨_, twice, ?_⟩, rfl⟩
  have regions : (((s.cut p new post slab addr len flags).linked p new).linked new post).region =
      (s.cut p new post slab addr len flags).region := rfl
  obtain ⟨_, rest, apart⟩ := List.nodup_append.1 nodes.list.nodup
  have above : l.map (s.cut p new post slab addr len flags).region = l.map s.region :=
    s.map_cut_region (fun mem => apart p mem p (by simp) rfl) (fun mem => newFresh (by simp [mem]))
      (fun mem => postFresh (by simp [mem]))
  have below : k.map (s.cut p new post slab addr len flags).region = k.map s.region :=
    s.map_cut_region (List.nodup_cons.1 rest).1 (fun mem => newFresh (by simp [mem]))
      (fun mem => postFresh (by simp [mem]))
  have three := @Vmm.cut_regions s p new addr len post flags slab newP postP postNew start ends word
  rw [regions, ← three, ← above, ← below]
  simp

/-! ## The five calls of `mm_virtual_init` -/

section LastRegion

variable {rs : List Region} {r : Region} (holds : s.Holds (rs ++ [r])) (few : rs.length < 2 ^ 64)
  (below : ∀ x ∈ rs, x.start ≤ addr) (addrAligned : addr % 0x1000 = 0)
  (lenAligned : len % 0x1000 = 0) (pos : 0 < len) (word : r.start + r.len ≤ 2 ^ 64)

include holds few below in
/-- The walk of `mm_virtual_range_set` ends at the last node. -/
theorem Vmm.Holds.walk_last : ∃ l p, s.Nodes (l ++ p :: []) ∧ l.map s.region = rs ∧ s.region p = r ∧
    rangePrev s.heap addr (2 ^ 64) s.head = .ok p := by
  obtain ⟨ps, nodes, regions⟩ := holds
  obtain ⟨l, k, rfl, left, right⟩ := List.map_eq_append_iff.1 regions
  obtain ⟨p, rfl, last⟩ := List.map_eq_singleton_iff.1 right
  refine ⟨l, p, nodes, left, last, nodes.rangePrev_last (fun x hx => ?_) ?_⟩
  · exact below (s.region x) (left ▸ List.mem_map_of_mem hx)
  · rw [← List.length_map s.region, left]
    exact few

include holds few below addrAligned lenAligned pos word in
theorem mmVirtualRangeSet_last_start (flags : ℕ) {slab : List ℕ} (left : s.slab = new :: slab)
    (start : r.start = addr) (ends : len < r.len) :
    ∃ s', mmVirtualRangeSet addr len flags s = .ok s' ∧ s'.slab = slab ∧
      s'.Holds (rs ++ [⟨addr, len, flags⟩, ⟨addr + len, r.len - len, r.flags⟩]) := by
  obtain ⟨l, p, nodes, rfl, rfl, walk⟩ := holds.walk_last few below
  obtain ⟨s', run, holds', slabLeft⟩ := mmVirtualRangeSet_start flags nodes left walk
    addrAligned lenAligned pos start ends (start ▸ word)
  rw [List.map_nil, List.append_nil] at holds'
  exact ⟨s', run, slabLeft, holds'⟩

include holds few below addrAligned lenAligned pos word in
theorem mmVirtualRangeSet_last_inside (flags : ℕ) {post : ℕ} {slab : List ℕ}
    (left : s.slab = new :: post :: slab) (start : r.start < addr)
    (ends : addr + len < r.start + r.len) :
    ∃ s', mmVirtualRangeSet addr len flags s = .ok s' ∧ s'.slab = slab ∧
      s'.Holds (rs ++ [⟨r.start, addr - r.start, r.flags⟩, ⟨addr, len, flags⟩,
        ⟨addr + len, r.start + r.len - (addr + len), 0⟩]) := by
  obtain ⟨l, p, nodes, rfl, rfl, walk⟩ := holds.walk_last few below
  obtain ⟨s', run, holds', slabLeft⟩ := mmVirtualRangeSet_inside flags nodes left walk
    addrAligned lenAligned pos start ends word
  rw [List.map_nil, List.append_nil] at holds'
  exact ⟨s', run, slabLeft, holds'⟩

end LastRegion

/-- The regions after `mm_virtual_init` for a kernel image of `K` bytes. -/
def initialRegions (K : ℕ) : List Region :=
  [⟨0xFFFFFE0000021000, 0xFFFFFD7000, vmFree⟩,
    ⟨slabVmBase, slabSize, vmUsed⟩,
    ⟨0xFFFFFEFFFFFFC000, 0x2000, 0⟩,
    ⟨0xFFFFFEFFFFFFE000, 0x2000, vmUsed⟩,
    ⟨0xFFFFFF0000000000, 0x8000000000, vmUsed⟩,
    ⟨0xFFFFFF8000000000, 0x7F80000000, 0⟩,
    ⟨0xFFFFFFFF80000000, K, vmUsed⟩,
    ⟨0xFFFFFFFF80000000 + K, 0x80000000 - K, 0⟩]

theorem pageUp_aligned {x : ℕ} : pageUp x % 0x1000 = 0 := by
  rw [pageUp]
  split_ifs with up
  · rw [show 2 ^ 64 - 0x1000 = (2 ^ 64 - 2 ^ 12 : ℕ) from rfl, Words.and_field _ 12 64 (by decide)]
    omega
  · rw [not_not, Nat.and_comm, show (0xFFF : ℕ) = 2 ^ 12 - 1 from rfl,
      Nat.and_two_pow_sub_one_eq_mod] at up
    exact up

/-- The ranges that `mm_virtual_init` sets to `VM_USED`, as start and length. -/
def reservedRanges (K : ℕ) : List (ℕ × ℕ) :=
  [(slabVmBase, slabSize), (0xFFFFFEFFFFFFE000, 0x2000), (0xFFFFFF0000000000, 0x8000000000),
    (0xFFFFFFFF80000000, K)]

def Reserved (K a : ℕ) : Prop := ∃ x ∈ reservedRanges K, x.1 ≤ a ∧ a < x.1 + x.2

instance (K a : ℕ) : Decidable (Reserved K a) :=
  inferInstanceAs (Decidable (∃ x ∈ reservedRanges K, x.1 ≤ a ∧ a < x.1 + x.2))

/-- The address lies in a node whose flags contain `flag`. -/
def Vmm.InNode (s : Vmm) (flag a : ℕ) : Prop :=
  ∃ n ∈ s.nodeList, n.start ≤ a ∧ a < n.start + n.len ∧ n.flags &&& flag ≠ 0

theorem Vmm.Holds.inNode_iff {rs : List Region} (h : s.Holds rs) (flag a : ℕ) :
    s.InNode flag a ↔ ∃ r ∈ rs, r.start ≤ a ∧ a < r.start + r.len ∧ r.flags &&& flag ≠ 0 := by
  rw [← h.map_nodeList]
  simp [Vmm.InNode, VmNode.region]

/-- `mm_virtual_init` needs eight nodes and does not panic. -/
theorem mmVirtualInit_holds (nodes : s.Nodes []) (nodesLeft : 8 ≤ s.slab.length) {kernelSize : ℕ}
    (pos : 0 < pageUp kernelSize) (small : pageUp kernelSize < 0x80000000) :
    ∃ s', mmVirtualInit kernelSize s = .ok s' ∧ s'.Holds (initialRegions (pageUp kernelSize)) ∧
      s'.slab = s.slab.drop 8 := by
  obtain ⟨n₁, n₂, n₃, n₄, n₅, n₆, n₇, n₈, slab, left⟩ :
      ∃ n₁ n₂ n₃ n₄ n₅ n₆ n₇ n₈ slab, s.slab = n₁ :: n₂ :: n₃ :: n₄ :: n₅ :: n₆ :: n₇ ::
        n₈ :: slab := by
    match s.slab, nodesLeft with
    | n₁ :: n₂ :: n₃ :: n₄ :: n₅ :: n₆ :: n₇ :: n₈ :: slab, _ =>
      exact ⟨n₁, n₂, n₃, n₄, n₅, n₆, n₇, n₈, slab, rfl⟩
  obtain ⟨s₁, run₁, holds₁, left₁⟩ := mmVirtualRangeSet_empty vmFree nodes left
    (show 0xFFFFFE0000021000 % 0x1000 = 0 from rfl) (show 0x1FFFFFDF000 % 0x1000 = 0 from rfl)
  obtain ⟨s₂, run₂, left₂, holds₂⟩ := mmVirtualRangeSet_last_inside
    (show s₁.Holds ([] ++ _) from holds₁) (by decide) (by decide)
    (show slabVmBase % 0x1000 = 0 from rfl) (show slabSize % 0x1000 = 0 from rfl)
    (by decide) (by decide) vmUsed left₁ (by decide) (by decide)
  obtain ⟨s₃, run₃, left₃, holds₃⟩ := mmVirtualRangeSet_last_inside
    (show s₂.Holds ((initialRegions 0).take 2 ++ _) from holds₂) (by decide) (by decide)
    (show 0xFFFFFEFFFFFFE000 % 0x1000 = 0 from rfl) (show 0x2000 % 0x1000 = 0 from rfl)
    (by decide) (by decide) vmUsed left₂ (by decide) (by decide)
  obtain ⟨s₄, run₄, left₄, holds₄⟩ := mmVirtualRangeSet_last_start
    (show s₃.Holds ((initialRegions 0).take 4 ++ _) from holds₃) (by decide) (by decide)
    (show 0xFFFFFF0000000000 % 0x1000 = 0 from rfl) (show 0x8000000000 % 0x1000 = 0 from rfl)
    (by decide) (by decide) vmUsed left₃ (by decide) (by decide)
  obtain ⟨s₅, run₅, left₅, holds₅⟩ := mmVirtualRangeSet_last_inside
    (show s₄.Holds ((initialRegions 0).take 5 ++ _) from holds₄) (by decide) (by decide)
    (show 0xFFFFFFFF80000000 % 0x1000 = 0 from rfl) (pageUp_aligned (x := kernelSize)) pos
    (by decide) vmUsed left₄ (by decide)
    (by norm_num; omega)
  refine ⟨s₅, ?_, ?_, by rw [left, left₅]; rfl⟩
  · simp only [mmVirtualInit, run₁, run₂, run₃, run₄, run₅, Fallible.ok_bind]
  · have rest : 0xFFFFFF8000000000 + 0x8000000000 - (0xFFFFFFFF80000000 + pageUp kernelSize) =
        0x80000000 - pageUp kernelSize := by omega
    rw [initialRegions, ← rest]
    exact holds₅

/-- The address is free if it is not reserved, and used if it is. -/
def Vmm.Allocatable (s : Vmm) (K a : ℕ) : Prop :=
  (s.InNode vmFree a ↔ ¬ Reserved K a) ∧ (Reserved K a → s.InNode vmUsed a)

theorem reserved_slabVmBase {K a : ℕ} (h : Reserved K a) : slabVmBase ≤ a := by
  simp only [Reserved, reservedRanges, List.mem_cons, List.not_mem_nil, or_false, slabVmBase] at h ⊢
  obtain ⟨x, rfl | rfl | rfl | rfl, low, _⟩ := h <;> simp only at low <;> omega

/-- Which addresses are free and which are used after `mm_virtual_init`. -/
theorem mmVirtualInit_inNode (nodes : s.Nodes []) (nodesLeft : 8 ≤ s.slab.length) {kernelSize : ℕ}
    (pos : 0 < pageUp kernelSize) (small : pageUp kernelSize < 0x80000000) :
    ∃ s', mmVirtualInit kernelSize s = .ok s' ∧ ∀ a, 0xFFFFFE0000021000 ≤ a →
      (s'.InNode vmFree a ↔ a < slabVmBase) ∧
      (s'.InNode vmUsed a ↔ Reserved (pageUp kernelSize) a) := by
  obtain ⟨s', run, holds, _⟩ := mmVirtualInit_holds nodes nodesLeft pos small
  refine ⟨s', run, fun a lower => ?_⟩
  rw [holds.inNode_iff, holds.inNode_iff]
  constructor
  · simp [initialRegions, vmFree, vmUsed, slabVmBase]
    omega
  · simp [initialRegions, vmFree, vmUsed, slabVmBase, Reserved, reservedRanges]

/-- The space behind a range that is set in the middle of a region loses the flag `VM_FREE`: after
`mm_virtual_init`, what is not reserved is neither free nor used from the end of the slab area on. -/
theorem mmVirtualInit_allocatable_iff (nodes : s.Nodes []) (nodesLeft : 8 ≤ s.slab.length)
    {kernelSize : ℕ} (pos : 0 < pageUp kernelSize) (small : pageUp kernelSize < 0x80000000) :
    ∃ s', mmVirtualInit kernelSize s = .ok s' ∧
      ∀ a, a % 0x1000 = 0 → 0xFFFFFE0000021000 ≤ a → a < 2 ^ 64 →
        (s'.Allocatable (pageUp kernelSize) a ↔
          a < slabVmBase + slabSize ∨ Reserved (pageUp kernelSize) a) := by
  obtain ⟨s', run, inNode⟩ := mmVirtualInit_inNode nodes nodesLeft pos small
  refine ⟨s', run, fun a _ lower _ => ?_⟩
  obtain ⟨free, used⟩ := inNode a lower
  rw [Vmm.Allocatable, free, used]
  by_cases reserved : Reserved (pageUp kernelSize) a
  · have := reserved_slabVmBase reserved
    simp [reserved, this]
  · have apart : a < slabVmBase + slabSize → a < slabVmBase := by
      intro below
      by_contra above
      exact reserved ⟨_, List.mem_cons_self, Nat.not_lt.1 above, below⟩
    simp only [reserved, not_false_eq_true, iff_true, false_imp_iff, and_true, or_false]
    exact ⟨fun below => lt_trans below (by decide), apart⟩

/-- The objects of 40 bytes that the cache of the kernel returns, in order. -/
def vmObjects : List ℕ := (List.range 339).map fun i => slabVmBase + slabSize - 40 * (i + 1)

theorem vmObjects_empty : (Vmm.empty (fun _ => ⟨0, 0, 0, 0, 0⟩) vmObjects).Nodes [] := by
  refine ⟨⟨rfl, rfl, trivial, List.nodup_nil⟩, rfl, ?_, ?_, by simp⟩
  · refine (List.nodup_map_iff_inj_on List.nodup_range).2 fun i hi j hj e => ?_
    rw [List.mem_range] at hi hj
    simp only [slabVmBase, slabSize] at e
    omega
  · intro mem
    obtain ⟨i, hi, e⟩ := List.mem_map.1 mem
    rw [List.mem_range] at hi
    simp only [slabVmBase, slabSize] at e
    omega

theorem mmVirtualInit_allocatable_boot :
    ∃ s', mmVirtualInit 0x200000 (.empty (fun _ => ⟨0, 0, 0, 0, 0⟩) vmObjects) = .ok s' ∧
      s'.Allocatable 0x200000 0xFFFFFE0000021000 := by
  obtain ⟨s', run, allocatable⟩ := mmVirtualInit_allocatable_iff
    vmObjects_empty (by simp [Vmm.empty, vmObjects]) (show 0 < pageUp 0x200000 by decide) (by decide)
  exact ⟨s', run, (allocatable 0xFFFFFE0000021000 rfl le_rfl (by decide)).2 (.inl (by decide))⟩

/-- The page behind the slab area is not reserved and not free. -/
theorem mmVirtualInit_loses_space :
    ∃ s', mmVirtualInit 0x200000 (.empty (fun _ => ⟨0, 0, 0, 0, 0⟩) vmObjects) = .ok s' ∧
      ¬ s'.Allocatable 0x200000 0xFFFFFEFFFFFFC000 := by
  obtain ⟨s', run, inNode⟩ := mmVirtualInit_inNode
    vmObjects_empty (by simp [Vmm.empty, vmObjects]) (show 0 < pageUp 0x200000 by decide) (by decide)
  refine ⟨s', run, fun h => ?_⟩
  obtain ⟨free, _⟩ := inNode 0xFFFFFEFFFFFFC000 (by decide)
  exact absurd (free.1 (h.1.2 (by decide))) (by decide)

end Vineyard

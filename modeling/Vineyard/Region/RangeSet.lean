import Vineyard.Region.Init

/-!
# Which ranges `mm_virtual_range_set` can set

Its walk ends one node too late: at the first node that starts above the address, or at the last one.
So a range can only be set in the last node, if it does not end where that node ends; and what is left
behind the range loses its flags when the range does not start where the node starts.
-/

namespace Vineyard

/-- The address lies in the region. -/
def Region.Has (r : Region) (a : ℕ) : Prop := r.start ≤ a ∧ a < r.start + r.len

/-- Sorted regions of whole pages that are apart. -/
structure WellFormed (rs : List Region) : Prop where
  sorted : rs.Pairwise fun x y => x.start + x.len ≤ y.start
  start : ∀ r ∈ rs, r.start % 0x1000 = 0
  len : ∀ r ∈ rs, r.len % 0x1000 = 0 ∧ 0 < r.len
  words : ∀ r ∈ rs, r.start + r.len ≤ 2 ^ 64

/-- The address lies in a region with exactly these flags. -/
def FlagsAt (rs : List Region) (a flags : ℕ) : Prop := ∃ r ∈ rs, r.Has a ∧ r.flags = flags

/-- The range has the flags now, and all else is as before. -/
structure Overridden (rs rs' : List Region) (addr len flags : ℕ) : Prop where
  inside : ∀ a, addr ≤ a → a < addr + len → FlagsAt rs' a flags
  outside : ∀ a, ¬ (addr ≤ a ∧ a < addr + len) → ∀ f, FlagsAt rs' a f ↔ FlagsAt rs a f

/-- The range lies inside a single region, or it meets none. -/
def RangePlaced (rs : List Region) (addr len : ℕ) : Prop :=
  (∃ r ∈ rs, r.start ≤ addr ∧ addr + len ≤ r.start + r.len) ∨
    ∀ r ∈ rs, r.start + r.len ≤ addr ∨ addr + len ≤ r.start

/-- The call returns, and the flags of the range and of nothing else have changed. -/
def RangeSetOk (addr len flags : ℕ) (s : Vmm) (rs : List Region) : Prop :=
  ∃ s' rs', mmVirtualRangeSet addr len flags s = .ok s' ∧ s'.Holds rs' ∧ WellFormed rs' ∧
    Overridden rs rs' addr len flags

/-- The list is empty, or the range lies in the last region and ends before its end, and it starts
where the region starts or the region has no flags. -/
def RangeSettable (rs : List Region) (addr len : ℕ) : Prop :=
  rs = [] ∨ ∃ l r, rs = l ++ [r] ∧ r.start ≤ addr ∧ addr + len < r.start + r.len ∧
    (r.start = addr ∨ r.flags = 0)

namespace WellFormed

variable {rs l k ms : List Region} {r r' : Region} {a : ℕ}

theorem length_le (h : WellFormed rs) {lo : ℕ} (low : ∀ r ∈ rs, lo ≤ r.start) (word : lo ≤ 2 ^ 64) :
    lo + rs.length ≤ 2 ^ 64 := by
  induction rs generalizing lo with
  | nil => exact word
  | cons r rs ih =>
    obtain ⟨apart, sorted⟩ := List.pairwise_cons.1 h.sorted
    have first := low r (by simp)
    have pos := (h.len r (by simp)).2
    have end_ := h.words r (by simp)
    have rest := ih ⟨sorted, fun x hx => h.start x (by simp [hx]), fun x hx => h.len x (by simp [hx]),
      fun x hx => h.words x (by simp [hx])⟩ apart end_
    rw [List.length_cons]
    omega

theorem few (h : WellFormed (l ++ [r])) : l.length < 2 ^ 64 := by
  have := h.length_le (fun x _ => Nat.zero_le x.start) (by decide)
  rw [List.length_append, List.length_singleton] at this
  omega

/-- The last region is replaced by regions inside it. -/
theorem replaceLast (h : WellFormed (l ++ [r]))
    (sorted : ms.Pairwise fun x y => x.start + x.len ≤ y.start)
    (inside : ∀ m ∈ ms, r.start ≤ m.start ∧ m.start + m.len ≤ r.start + r.len)
    (start : ∀ m ∈ ms, m.start % 0x1000 = 0) (len : ∀ m ∈ ms, m.len % 0x1000 = 0 ∧ 0 < m.len) :
    WellFormed (l ++ ms) := by
  obtain ⟨left, _, apart⟩ := List.pairwise_append.1 h.sorted
  have word := h.words r (by simp)
  have starts := h.start
  have lens := h.len
  have words := h.words
  rw [List.forall_mem_append] at starts lens words
  refine ⟨List.pairwise_append.2 ⟨left, sorted, fun x hx m hm => ?_⟩, ?_, ?_, ?_⟩
  · exact (apart x hx r (by simp)).trans (inside m hm).1
  · exact List.forall_mem_append.2 ⟨starts.1, start⟩
  · exact List.forall_mem_append.2 ⟨lens.1, len⟩
  · exact List.forall_mem_append.2 ⟨words.1, fun m hm => (inside m hm).2.trans word⟩

/-- All other regions end where the last one starts, or before. -/
theorem before_last (h : WellFormed (l ++ [r])) : ∀ x ∈ l, x.start + x.len ≤ r.start :=
  fun x hx => (List.pairwise_append.1 h.sorted).2.2 x hx r (by simp)

end WellFormed

theorem flagsAt_append (l ms : List Region) (a f : ℕ) :
    FlagsAt (l ++ ms) a f ↔ FlagsAt l a f ∨ FlagsAt ms a f := by
  simp only [FlagsAt, List.mem_append, or_and_right, exists_or]

theorem flagsAt_cons (r : Region) (ms : List Region) (a f : ℕ) :
    FlagsAt (r :: ms) a f ↔ (r.Has a ∧ r.flags = f) ∨ FlagsAt ms a f := by
  simp [FlagsAt]

theorem flagsAt_nil (a f : ℕ) : ¬ FlagsAt [] a f := by simp [FlagsAt]

theorem Overridden.replaceLast {l ms : List Region} {r : Region} {addr len flags : ℕ}
    (h : Overridden [r] ms addr len flags) : Overridden (l ++ [r]) (l ++ ms) addr len flags := by
  refine ⟨fun a low high => ?_, fun a out f => ?_⟩
  · exact (flagsAt_append l ms a flags).2 (.inr (h.inside a low high))
  · rw [flagsAt_append, flagsAt_append, h.outside a out f]

section Calls

variable {s : Vmm} {rs l : List Region} {r : Region} {addr len flags new post p : ℕ} {slab : List ℕ}

/-! ## Ranges that can be set -/

theorem rangeSetOk_empty (holds : s.Holds []) (addrAligned : addr % 0x1000 = 0)
    (lenAligned : len % 0x1000 = 0) (pos : 0 < len) (word : addr + len ≤ 2 ^ 64)
    (left : s.slab = new :: slab) : RangeSetOk addr len flags s [] := by
  obtain ⟨ps, nodes, regions⟩ := holds
  obtain rfl := List.map_eq_nil_iff.1 regions
  obtain ⟨s', run, holds', _⟩ := mmVirtualRangeSet_empty flags nodes left addrAligned lenAligned
  refine ⟨s', _, run, holds', ⟨?_, ?_, ?_, ?_⟩, ⟨fun a low high => ?_, fun a out f => ?_⟩⟩
  · exact List.pairwise_singleton _ _
  · simpa using addrAligned
  · simpa using ⟨lenAligned, pos⟩
  · simpa using word
  · exact ⟨_, List.mem_singleton_self _, ⟨low, high⟩, rfl⟩
  · rw [flagsAt_cons]
    simp only [flagsAt_nil, or_false, iff_false]
    exact fun here => out here.1

/-- The range starts where the last region starts and ends before its end. -/
theorem rangeSetOk_start (holds : s.Holds (l ++ [r])) (formed : WellFormed (l ++ [r]))
    (addrAligned : addr % 0x1000 = 0) (lenAligned : len % 0x1000 = 0) (pos : 0 < len)
    (left : s.slab = new :: slab) (start : r.start = addr) (ends : addr + len < r.start + r.len) :
    RangeSetOk addr len flags s (l ++ [r]) := by
  have few := formed.few
  have word := formed.words r (by simp)
  have size := formed.len r (by simp)
  have below : ∀ x ∈ l, x.start ≤ addr := fun x hx => by
    have := formed.before_last x hx
    omega
  obtain ⟨s', run, _, holds'⟩ := mmVirtualRangeSet_last_start holds few below addrAligned lenAligned
    pos word flags left start (by omega)
  refine ⟨s', _, run, holds', formed.replaceLast ?_ ?_ ?_ ?_, Overridden.replaceLast ⟨?_, ?_⟩⟩
  · simp
  · simp only [List.forall_mem_cons, List.not_mem_nil, false_imp_iff, implies_true, and_true]
    omega
  · simp only [List.forall_mem_cons, List.not_mem_nil, false_imp_iff, implies_true, and_true]
    omega
  · simp only [List.forall_mem_cons, List.not_mem_nil, false_imp_iff, implies_true, and_true]
    omega
  · exact fun a low high => ⟨_, List.mem_cons_self, ⟨low, high⟩, rfl⟩
  · intro a out f
    simp only [flagsAt_cons, flagsAt_nil, or_false, Region.Has]
    omega

/-- The range lies inside the last region, which has no flags. -/
theorem rangeSetOk_inside (holds : s.Holds (l ++ [r])) (formed : WellFormed (l ++ [r]))
    (addrAligned : addr % 0x1000 = 0) (lenAligned : len % 0x1000 = 0) (pos : 0 < len)
    (left : s.slab = new :: post :: slab) (start : r.start < addr)
    (ends : addr + len < r.start + r.len) (none : r.flags = 0) :
    RangeSetOk addr len flags s (l ++ [r]) := by
  have few := formed.few
  have word := formed.words r (by simp)
  have size := formed.len r (by simp)
  have aligned := formed.start r (by simp)
  have below : ∀ x ∈ l, x.start ≤ addr := fun x hx => by
    have := formed.before_last x hx
    omega
  obtain ⟨s', run, _, holds'⟩ := mmVirtualRangeSet_last_inside holds few below addrAligned lenAligned
    pos word flags left start ends
  refine ⟨s', _, run, holds', formed.replaceLast ?_ ?_ ?_ ?_, Overridden.replaceLast ⟨?_, ?_⟩⟩
  · simp only [List.pairwise_cons, List.forall_mem_cons, List.not_mem_nil, false_imp_iff,
      implies_true, and_true, List.Pairwise.nil]
    omega
  · simp only [List.forall_mem_cons, List.not_mem_nil, false_imp_iff, implies_true, and_true]
    omega
  · simp only [List.forall_mem_cons, List.not_mem_nil, false_imp_iff, implies_true, and_true]
    omega
  · simp only [List.forall_mem_cons, List.not_mem_nil, false_imp_iff, implies_true, and_true]
    omega
  · exact fun a low high => ⟨_, List.mem_cons_of_mem _ List.mem_cons_self, ⟨low, high⟩, rfl⟩
  · intro a out f
    simp only [flagsAt_cons, flagsAt_nil, or_false, Region.Has, none]
    omega

/-! ## Ranges that cannot be set -/

/-- If the walk of `mm_virtual_range_set` does not end at the last node, it ends at one that
starts above the address. -/
theorem walkEnd_above {heap : ℕ → VmNode} {x : ℕ} {xs : List ℕ}
    (above : addr < (heap ((x :: xs).getLast (List.cons_ne_nil x xs))).start) :
    walkEnd heap addr x xs ∈ x :: xs ∧ addr < (heap (walkEnd heap addr x xs)).start := by
  induction xs generalizing x with
  | nil => exact ⟨List.mem_singleton_self x, above⟩
  | cons y ys ih =>
    rw [walkEnd]
    split_ifs with le
    · obtain ⟨mem, start⟩ := ih (List.getLast_cons_cons ▸ above)
      exact ⟨List.mem_cons_of_mem x mem, start⟩
    · exact ⟨List.mem_cons_self, Nat.lt_of_not_le le⟩

/-- The node at which the walk ends starts above the address, or ends where the range ends, or ends
before it with no node behind. -/
theorem mmVirtualRangeSet_panics (left : s.slab = new :: slab)
    (walk : rangePrev s.heap addr (2 ^ 64) s.head = .ok p) (nz : p ≠ 0) (ne : p ≠ new)
    (pos : 0 < len) (word : addr + len ≤ 2 ^ 64) (nodePos : 0 < (s.heap p).len)
    (nodeWord : (s.heap p).start + (s.heap p).len ≤ 2 ^ 64)
    (stuck : addr < (s.heap p).start ∨ (s.heap p).start + (s.heap p).len = addr + len ∨
      ((s.heap p).start + (s.heap p).len ≤ addr ∧ (s.heap p).next = 0)) :
    ∃ e, mmVirtualRangeSet addr len flags s = .error e := by
  have same : (s.drawn new slab).heap p = s.heap p := by simp [Vmm.drawn, ne]
  have lastOld := lastAddr_eq nodePos nodeWord
  have lastNew := lastAddr_eq pos word
  rw [mmVirtualRangeSet]
  split_ifs
  · exact ⟨_, rfl⟩
  · exact ⟨_, rfl⟩
  rw [walk, Fallible.ok_bind, mmSlabAlloc_ok left, Fallible.ok_bind]
  simp only [nz, false_and, if_false, ne_eq, not_false_eq_true, if_true, true_and, same,
    lastOld, lastNew]
  split_ifs
  all_goals
    first
    | exact ⟨_, rfl⟩
    | exfalso; omega

/-- The range in the last region has flags behind it that get lost. -/
theorem not_rangeSetOk_inside (holds : s.Holds (l ++ [r])) (formed : WellFormed (l ++ [r]))
    (addrAligned : addr % 0x1000 = 0) (lenAligned : len % 0x1000 = 0) (pos : 0 < len)
    (left : s.slab = new :: post :: slab) (start : r.start < addr)
    (ends : addr + len < r.start + r.len) (some : r.flags ≠ 0) :
    ¬ RangeSetOk addr len flags s (l ++ [r]) := by
  rintro ⟨s₁, rs₁, run₁, holds₁, formed₁, overridden⟩
  have word := formed.words r (by simp)
  have below : ∀ x ∈ l, x.start ≤ addr := fun x hx => by
    have := formed.before_last x hx
    have := formed.len x (by simp [hx])
    omega
  obtain ⟨s', run, _, holds'⟩ := mmVirtualRangeSet_last_inside holds formed.few below addrAligned
    lenAligned pos word flags left start ends
  obtain rfl : s₁ = s' := Except.ok.inj (run₁.symm.trans run)
  obtain rfl := holds₁.map_nodeList.symm.trans holds'.map_nodeList
  -- the first address behind the range
  have lost : FlagsAt (l ++ [⟨r.start, addr - r.start, r.flags⟩, ⟨addr, len, flags⟩,
      ⟨addr + len, r.start + r.len - (addr + len), 0⟩]) (addr + len) 0 :=
    ⟨⟨addr + len, r.start + r.len - (addr + len), 0⟩, by simp, ⟨le_refl _, by simp only; omega⟩, rfl⟩
  obtain ⟨x, mem, here, zero⟩ := (overridden.outside _ (by omega) _).1 lost
  rcases List.mem_append.1 mem with mem | mem
  · have := formed.before_last x mem
    have := here.2
    omega
  · obtain rfl := List.mem_singleton.1 mem
    exact some zero

/-- Where the walk ends when a list has a last region. -/
theorem Vmm.Holds.walk_end (holds : s.Holds (l ++ [r])) (few : l.length < 2 ^ 64)
    (above : addr < r.start) : ∃ p, p ≠ 0 ∧ s.region p ∈ l ++ [r] ∧ addr < (s.heap p).start ∧
      (∀ new slab, s.slab = new :: slab → p ≠ new) ∧
      rangePrev s.heap addr (2 ^ 64) s.head = .ok p := by
  obtain ⟨ps, nodes, regions⟩ := holds
  obtain ⟨qs, ls, rfl, left, right⟩ := List.map_eq_append_iff.1 regions
  obtain ⟨q, rfl, last⟩ := List.map_eq_singleton_iff.1 right
  obtain ⟨x, xs, e⟩ : ∃ x xs, qs ++ [q] = x :: xs := by
    cases qs with
    | nil => exact ⟨q, [], rfl⟩
    | cons y ys => exact ⟨y, ys ++ [q], rfl⟩
  have size := congrArg List.length e
  rw [← left, List.length_map] at few
  simp only [List.length_append, List.length_cons, List.length_nil] at size
  have lastNode : (x :: xs).getLast (List.cons_ne_nil x xs) = q := by
    simp only [← e, List.getLast_append_singleton]
  rw [e] at nodes
  rw [← regions, e]
  obtain ⟨mem, start⟩ := @walkEnd_above addr s.heap x xs
    (by rw [lastNode]; exact lt_of_lt_of_eq above (congrArg Region.start last).symm)
  refine ⟨walkEnd s.heap addr x xs, nodes.list.seg.ne_zero _ mem, List.mem_map_of_mem mem, start,
    fun new slab fresh => ?_, ?_⟩
  · rintro rfl
    exact nodes.slab_fresh _ (by simp [fresh]) mem
  · rw [nodes.list.head_eq]
    exact rangePrev_eq addr _ nodes.list.seg (by omega)

/-- **A range can be set** in an empty list, and in the last region if it ends before that region's end
and starts where the region starts or the region has no flags; and in no other place. -/
theorem rangeSetOk_iff (holds : s.Holds rs) (formed : WellFormed rs) (nodesLeft : 2 ≤ s.slab.length)
    (addrAligned : addr % 0x1000 = 0) (lenAligned : len % 0x1000 = 0) (pos : 0 < len)
    (word : addr + len ≤ 2 ^ 64) (placed : RangePlaced rs addr len) (flags : ℕ) :
    RangeSetOk addr len flags s rs ↔ RangeSettable rs addr len := by
  obtain ⟨new, post, slab, left⟩ : ∃ new post slab, s.slab = new :: post :: slab := by
    match s.slab, nodesLeft with
    | new :: post :: slab, _ => exact ⟨new, post, slab, rfl⟩
  obtain rfl | ⟨l, r, rfl⟩ := List.eq_nil_or_concat rs
  · exact iff_of_true (rangeSetOk_empty holds addrAligned lenAligned pos word left) (.inl rfl)
  rw [List.concat_eq_append] at *
  have settable : RangeSettable (l ++ [r]) addr len ↔ r.start ≤ addr ∧
      addr + len < r.start + r.len ∧ (r.start = addr ∨ r.flags = 0) := by
    constructor
    · rintro (none | ⟨l', r', same, rest⟩)
      · simp at none
      · obtain ⟨_, same⟩ := List.append_inj' same rfl
        obtain rfl := List.singleton_inj.1 same
        exact rest
    · exact fun rest => .inr ⟨l, r, rfl, rest⟩
  have stuck : (∃ e, mmVirtualRangeSet addr len flags s = .error e) →
    ¬ RangeSetOk addr len flags s (l ++ [r]) := by
    rintro ⟨e, run⟩ ⟨s', _, run', _⟩
    rw [run] at run'
    cases run'
  rw [settable]
  by_cases start : r.start ≤ addr
  · by_cases ends : addr + len < r.start + r.len
    · by_cases first : r.start = addr
      · refine iff_of_true ?_ ⟨start, ends, .inl first⟩
        exact rangeSetOk_start holds formed addrAligned lenAligned pos left first ends
      · have later : r.start < addr := lt_of_le_of_ne start first
        by_cases none : r.flags = 0
        · refine iff_of_true ?_ ⟨start, ends, .inr none⟩
          exact rangeSetOk_inside holds formed addrAligned lenAligned pos left later ends none
        · refine iff_of_false ?_ (by tauto)
          exact not_rangeSetOk_inside holds formed addrAligned lenAligned pos left later ends none
    · refine iff_of_false (stuck ?_) fun h => ends h.2.1
      have below : ∀ x ∈ l, x.start ≤ addr := fun x hx => by
        have := formed.before_last x hx
        omega
      obtain ⟨ls, p, nodes, _, rfl, walk⟩ := holds.walk_last formed.few below
      have last : (s.heap p).next = 0 := nodes.list.next_eq
      have sizes := formed.len (s.region p) (by simp)
      have bound := formed.words (s.region p) (by simp)
      have fresh := (nodes.drawn left).2.1
      refine mmVirtualRangeSet_panics left walk (nodes.list.seg.ne_zero p (by simp))
        (fun e => fresh (by simp [e])) pos word sizes.2 bound (.inr ?_)
      obtain ⟨x, mem, low, high⟩ | apart := placed
      · rcases List.mem_append.1 mem with mem | mem
        · have := formed.before_last x mem
          omega
        · obtain rfl := List.mem_singleton.1 mem
          exact .inl (by simp only [Vmm.region, VmNode.region] at *; omega)
      · have := apart (s.region p) (by simp)
        exact .inr ⟨by simp only [Vmm.region, VmNode.region] at *; omega, last⟩
  · refine iff_of_false (stuck ?_) fun h => start h.1
    obtain ⟨p, nz, mem, above, fresh, walk⟩ := holds.walk_end formed.few (Nat.lt_of_not_le start)
    exact mmVirtualRangeSet_panics left walk nz (fresh _ _ left) pos word (formed.len _ mem).2
      (formed.words _ mem) (.inl above)

end Calls

/-- Two nodes with a gap between them. -/
def gapVmm : Vmm where
  head := 40
  tail := 80
  nodes := 2
  heap p :=
    if p = 40 then ⟨80, 0, 0x1000, 0x3000, vmFree⟩
    else if p = 80 then ⟨0, 40, 0x10000, 0x3000, vmFree⟩
    else ⟨0, 0, 0, 0, 0⟩
  slab := [120, 160]

def gapRegions : List Region := [⟨0x1000, 0x3000, vmFree⟩, ⟨0x10000, 0x3000, vmFree⟩]

theorem gapVmm_holds : gapVmm.Holds gapRegions := by
  refine ⟨[40, 80], ⟨⟨rfl, rfl, ?_, by decide⟩, rfl, by decide, by decide, by decide⟩, rfl⟩
  simp [Links.Seg, Vmm.next, Vmm.prev, gapVmm]

theorem gapRegions_formed : WellFormed gapRegions :=
  ⟨by decide, by decide, by decide, by decide⟩

/-- The start of the last node. -/
theorem rangeSetOk_gap : RangeSetOk 0x10000 0x1000 vmUsed gapVmm gapRegions :=
  (rangeSetOk_iff gapVmm_holds gapRegions_formed (by decide) (by decide) (by decide) (by decide)
    (by decide) (.inl ⟨⟨0x10000, 0x3000, vmFree⟩, by decide, by decide, by decide⟩) vmUsed).2
    (.inr ⟨[⟨0x1000, 0x3000, vmFree⟩], ⟨0x10000, 0x3000, vmFree⟩, rfl,
      by decide, by decide, by decide⟩)

/-- A page in the gap, and one inside the first node. -/
theorem not_rangeSetOk_gap : gapVmm.Holds gapRegions ∧ WellFormed gapRegions ∧
    ∀ addr, addr = 0x5000 ∨ addr = 0x2000 → RangePlaced gapRegions addr 0x1000 ∧
      ¬ RangeSetOk addr 0x1000 vmUsed gapVmm gapRegions := by
  have panics : ∀ addr, addr = 0x5000 ∨ addr = 0x2000 →
      (mmVirtualRangeSet addr 0x1000 vmUsed gapVmm).isOk = false := by
    rintro addr (rfl | rfl) <;> decide +kernel
  refine ⟨gapVmm_holds, gapRegions_formed, fun addr choice => ⟨?_, ?_⟩⟩
  · obtain rfl | rfl := choice
    · exact .inr (by decide)
    · exact .inl ⟨⟨0x1000, 0x3000, vmFree⟩, by decide, by decide, by decide⟩
  · rintro ⟨s', _, run, _⟩
    have := panics addr choice
    rw [run] at this
    cases this

end Vineyard

import Vineyard.Heap.Large
import Vineyard.Heap.Small

/-!
# The table of large bins

A bin of large chunks covers half of a power of two, the last one all sizes from 12 MiB on.  The sizes
of a bin have their top bits in common, and the trie decides on the rest.
-/

namespace Vineyard.Heap

open Function Tries Trie

/-! ## The index of a size -/

/-- The bits of a size that are left to decide in a bin. -/
def bitsLeft (i : ℕ) : ℕ := if i = 31 then 64 else i / 2 + 7

/-- The top bits that the sizes of a bin have in common. -/
def topBits (i : ℕ) : ℕ := if i = 31 then 0 else 2 + i % 2

theorem leftshift_eq {i : ℕ} (less : i < 32) : leftshiftForTreeIndex i = 64 - bitsLeft i := by
  simp only [leftshiftForTreeIndex, ntreebins, bitsLeft, treebinShift, Nat.shiftRight_eq_div_pow]
  split <;> omega

theorem bitsLeft_le {i : ℕ} (less : i < 32) : bitsLeft i ≤ 64 := by
  simp only [bitsLeft]
  split <;> omega

/-- The sizes of large chunks for which the index is not cut. -/
structure LargeSize (s : ℕ) : Prop where
  large : 256 ≤ s
  less : s < 2 ^ 40

theorem LargeSize.notSmall {s : ℕ} (size : LargeSize s) : ¬isSmall s := by
  have := size.large
  simp only [isSmall, smallbinShift, nsmallbins, Nat.shiftRight_eq_div_pow]
  omega

theorem LargeSize.index_eq {s : ℕ} (size : LargeSize s) : computeTreeIndex s =
    if s < 2 ^ 24 then 2 * Nat.log2 (s / 256) + s / 2 ^ (Nat.log2 (s / 256) + 7) % 2 else 31 := by
  obtain ⟨large, less⟩ := size
  have whole : s >>> treebinShift % 2 ^ 32 = s / 256 := by
    simp only [treebinShift, Nat.shiftRight_eq_div_pow]
    omega
  have some : s / 256 ≠ 0 := by omega
  simp only [computeTreeIndex, whole]
  rw [if_neg some]
  split
  · rw [if_neg (by omega)]
    rfl
  · rw [if_pos (by omega), Nat.and_one_is_mod, Nat.shiftRight_eq_div_pow, Nat.shiftLeft_eq,
      Nat.mul_comm]
    rfl

/-- A size that is not for the last bin. -/
theorem LargeSize.parts {s : ℕ} (size : LargeSize s) (less : s < 2 ^ 24) : ∃ k b, k < 16 ∧ b < 2 ∧
    computeTreeIndex s = 2 * k + b ∧ s / 2 ^ (k + 7) = 2 + b := by
  have large := size.large
  have some : s / 256 ≠ 0 := by omega
  obtain ⟨k, eq⟩ : ∃ k, k = Nat.log2 (s / 256) := ⟨_, rfl⟩
  have low : 2 ^ k ≤ s / 256 := eq ▸ Nat.log2_self_le some
  have high : s / 256 < 2 ^ (k + 1) := eq ▸ Nat.lt_log2_self
  have few : k < 16 := by
    by_contra many
    have : 2 ^ 16 ≤ 2 ^ k := Nat.pow_le_pow_right (by decide) (by omega)
    omega
  have one : s / 2 ^ (k + 8) = 1 := by
    rw [Nat.pow_add, Nat.mul_comm, ← Nat.div_div_eq_div_mul]
    apply Nat.div_eq_of_lt_le
    · simpa using low
    · rwa [Nat.pow_succ, Nat.mul_comm] at high
  have half : s / 2 ^ (k + 7) / 2 = 1 := by
    rwa [Nat.div_div_eq_div_mul, ← Nat.pow_succ]
  refine ⟨k, s / 2 ^ (k + 7) % 2, few, Nat.mod_lt _ (by decide), ?_, by omega⟩
  rw [size.index_eq, if_pos less, eq]

theorem LargeSize.index_lt {s : ℕ} (size : LargeSize s) : computeTreeIndex s < 32 := by
  by_cases less : s < 2 ^ 24
  · obtain ⟨k, b, few, bit, eq, -⟩ := size.parts less
    omega
  · rw [size.index_eq, if_neg less]
    decide

/-- The sizes of a bin have their top bits in common. -/
theorem LargeSize.top_eq {s : ℕ} (size : LargeSize s) :
    s / 2 ^ bitsLeft (computeTreeIndex s) = topBits (computeTreeIndex s) := by
  have last : s / 2 ^ 64 = 0 := Nat.div_eq_of_lt (size.less.trans (by decide))
  by_cases less : s < 2 ^ 24
  · obtain ⟨k, b, few, bit, eq, top⟩ := size.parts less
    rw [eq, bitsLeft, topBits]
    split
    · exact last
    · rw [show (2 * k + b) / 2 + 7 = k + 7 by omega, top]
      omega
  · rw [size.index_eq, if_neg less]
    exact last

/-- Greater sizes are in later bins. -/
theorem LargeSize.index_mono {s s' : ℕ} (size : LargeSize s) (size' : LargeSize s') (le : s ≤ s') :
    computeTreeIndex s ≤ computeTreeIndex s' := by
  by_cases less : s' < 2 ^ 24
  · obtain ⟨k, b, -, bit, eq, top⟩ := size.parts (by omega)
    obtain ⟨k', b', -, bit', eq', top'⟩ := size'.parts less
    rw [eq, eq']
    have order : k ≤ k' := by
      by_contra greater
      have wide : 2 ^ (k' + 8) ≤ 2 ^ (k + 7) := Nat.pow_le_pow_right (by decide) (by omega)
      have low : 2 * 2 ^ (k + 7) ≤ s := (Nat.le_div_iff_mul_le (Nat.two_pow_pos _)).1 (by omega)
      have high : s' < 4 * 2 ^ (k' + 7) := (Nat.div_lt_iff_lt_mul (Nat.two_pow_pos _)).1 (by omega)
      rw [show k' + 8 = k' + 7 + 1 from rfl, Nat.pow_succ] at wide
      omega
    obtain rfl | less' := order.eq_or_lt
    · have := Nat.div_le_div_right (c := 2 ^ (k + 7)) le
      omega
    · omega
  · have := size.index_lt
    rw [size'.index_eq, if_neg less]
    omega

/-! ## The table -/

/-- A chunk that may be in a bin of large chunks. -/
structure Member (g : Statics) (m : Malloc) (i p : ℕ) : Prop where
  binnable : Binnable g m p
  size : LargeSize (m.chunksize p)
  bin : computeTreeIndex (m.chunksize p) = i
  index : m.index p = i

/-- The tries of large chunks. -/
structure Large (g : Statics) (m : Malloc) (large : ℕ → Trie ℕ) : Prop where
  rep : ∀ i < 32, Rep m (large i) (m.treebins i) (treebinAt g i)
  marked : ∀ i < 32, m.treemap.testBit i ↔ large i ≠ leaf
  nodup : ∀ i < 32, (large i).nodes.Nodup
  within : ∀ i < 32, (large i).Within m.chunksize (bitsLeft i) (topBits i)
  member : ∀ i < 32, ∀ p ∈ (large i).nodes, Member g m i p

/-- The chunks and what is outside the bins are the same in two states. -/
structure Kept (m m' : Malloc) : Prop where
  prevFoot : m'.prevFoot = m.prevFoot
  head : m'.head = m.head
  dvsize : m'.dvsize = m.dvsize
  topsize : m'.topsize = m.topsize
  leastAddr : m'.leastAddr = m.leastAddr
  dv : m'.dv = m.dv
  top : m'.top = m.top

theorem Kept.trans {m m' m'' : Malloc} (left : Kept m m') (right : Kept m' m'') : Kept m m'' :=
  ⟨right.prevFoot.trans left.prevFoot, right.head.trans left.head, right.dvsize.trans left.dvsize,
    right.topsize.trans left.topsize, right.leastAddr.trans left.leastAddr, right.dv.trans left.dv,
    right.top.trans left.top⟩

theorem Relinked.kept {m m' : Malloc} (linked : Relinked m m') : Kept m m' := by
  rw [linked]
  exact ⟨rfl, rfl, rfl, rfl, rfl, rfl, rfl⟩

theorem Kept.chunksize {m m' : Malloc} (kept : Kept m m') : m'.chunksize = m.chunksize := by
  funext q
  rw [Malloc.chunksize, Malloc.chunksize, kept.head]

theorem Binnable.keep {g : Statics} {m m' : Malloc} {p : ℕ} (binnable : Binnable g m p)
    (kept : Kept m m') :
    Binnable g m' p := by
  obtain ⟨ok, some, chunk⟩ := binnable
  refine ⟨?_, some, chunk⟩
  rwa [Malloc.okAddress, kept.leastAddr]

theorem Member.keep {g : Statics} {m m' : Malloc} {i p : ℕ} (member : Member g m i p)
    (kept : Kept m m') (index : m'.index p = m.index p) : Member g m' i p := by
  obtain ⟨binnable, size, bin, index'⟩ := member
  exact ⟨binnable.keep kept, kept.chunksize ▸ size, kept.chunksize ▸ bin, index.trans index'⟩

theorem treebinAt_ne (g : Statics) (i : ℕ) : treebinAt g i ≠ 0 := by
  have := g.treebins_ne
  simp only [treebinAt]
  omega

namespace Large

variable {g : Statics} {func : String} {m m' : Malloc} {large : ℕ → Trie ℕ} {t : Trie ℕ} {i j p x : ℕ}

/-- Chunks of different bins are different. -/
theorem apart (bins : Large g m large) (less : i < 32) (less' : j < 32) (inside : p ∈ (large i).nodes)
    (inside' : p ∈ (large j).nodes) : i = j :=
  (bins.member i less p inside).index.symm.trans (bins.member j less' p inside').index

theorem null (bins : Large g m large) (less : i < 32) : 0 ∉ (large i).nodes := fun inside =>
  (bins.member i less 0 inside).binnable.some rfl

theorem ok (bins : Large g m large) (less : i < 32) : ∀ y ∈ (large i).nodes, m.okAddress y :=
  fun y inside =>
  (bins.member i less y inside).binnable.ok

/-- One trie is changed. -/
theorem change (bins : Large g m large) (less : i < 32) (kept : Kept m m')
    (frame : ∀ j < 32, j ≠ i → ∀ y ∈ (large j).nodes, Same m m' y ∧ m'.index y = m.index y)
    (others : ∀ j, j ≠ i → m'.treebins j = m.treebins j)
    (marked : ∀ j < 32, m'.treemap.testBit j = if j = i then !t.isLeaf else m.treemap.testBit j)
    (rep : Rep m' t (m'.treebins i) (treebinAt g i)) (nodup : t.nodes.Nodup)
    (within : t.Within m.chunksize (bitsLeft i) (topBits i))
    (member : ∀ p ∈ t.nodes, Member g m' i p) :
    Large g m' (update large i t) := by
  refine ⟨fun j less' => ?_, fun j less' => ?_, fun j less' => ?_, fun j less' =>
    ?_, fun j less' => ?_⟩
  all_goals obtain rfl | other := eq_or_ne j i
  · rwa [update_self]
  · rw [update_of_ne other, others j other]
    exact (bins.rep j less').congr fun y inside => (frame j less' other y inside).1
  · rw [marked j less', if_pos rfl, update_self, Ne, ← isLeaf_iff]
    simp
  · rw [update_of_ne other, marked j less', if_neg other]
    exact bins.marked j less'
  · rwa [update_self]
  · rw [update_of_ne other]
    exact bins.nodup j less'
  · rwa [update_self, kept.chunksize]
  · rw [update_of_ne other, kept.chunksize]
    exact bins.within j less'
  · rwa [update_self]
  · rw [update_of_ne other]
    exact fun y inside => (bins.member j less' y inside).keep kept (frame j less' other y inside).2

/-- The first stores of `insert_large_chunk`. -/
def prepared (m : Malloc) (x i : ℕ) : Malloc :=
  ((m.setIndex x i).setChild x false 0).setChild x true 0

theorem prepared_child (b : Bool) : (prepared m x i).child x b = 0 := by
  cases b <;> simp [prepared]

theorem same_prepared (other : p ≠ x) : Same m (prepared m x i) p :=
  have first : Same m (m.setIndex x i) p := ⟨rfl, rfl, rfl, rfl⟩
  (first.trans (same_setChild other)).trans (same_setChild other)

theorem prepared_index (other : p ≠ x) : (prepared m x i).index p = m.index p := update_of_ne other ..

variable (g func) in
/-- A new chunk as the root of its bin. -/
theorem plant (bin : computeTreeIndex (m.chunksize x) = i) (unmarked : ¬m.treemap.testBit i)
    (some : x ≠ 0) : ∃ m',
    m.insertLargeChunk g func x (m.chunksize x) = .ok m' ∧ Kept m m' ∧ m'.smallmap = m.smallmap ∧
    m'.index = (prepared m x i).index ∧ m'.treebins = update m.treebins i x ∧
      m'.treemap = m.treemap ||| idx2bit i ∧
    Rep m' (node x [] leaf leaf) x (treebinAt g i) ∧ ∀ y, y ≠ x → Same m m' y := by
  have no : ¬(prepared m x i).treemapIsMarked i :=
    fun yes => unmarked (Malloc.treemapIsMarked_iff.1 yes)
  obtain ⟨m₀, eq⟩ : ∃ m₀, m₀ = ((prepared m x i).markTreemap i).setTreebin i x := ⟨_, rfl⟩
  have run : m.insertLargeChunk g func x (m.chunksize x) =
      .ok (((m₀.setParent x (treebinAt g i)).setFd x x).setBk x x) := by
    rw [Malloc.insertLargeChunk, bin, eq]
    exact if_pos no
  have linked : Relinked m₀ (((m₀.setParent x (treebinAt g i)).setFd x x).setBk x x) := rfl
  have kept₀ : Kept m m₀ := by
    rw [eq]
    exact ⟨rfl, rfl, rfl, rfl, rfl, rfl, rfl⟩
  have same₀ : ∀ y, Same (prepared m x i) m₀ y := fun y => by
    rw [eq]
    exact ⟨rfl, rfl, rfl, rfl⟩
  have childless : ∀ b, m₀.child x b = 0 := by
    rw [(same₀ x).child]
    exact prepared_child
  have fields : m₀.smallmap = m.smallmap ∧ m₀.index = (prepared m x i).index ∧
      m₀.treebins = update m.treebins i x ∧ m₀.treemap = m.treemap ||| idx2bit i := by
    rw [eq]
    exact ⟨rfl, rfl, rfl, rfl⟩
  obtain ⟨smallmap, indices, treebins, treemap⟩ := fields
  clear eq
  refine ⟨_, run, kept₀.trans linked.kept, smallmap, indices, treebins, treemap,
    ⟨rfl, ?_, ⟨some, Rings.ring_nil ?_ ?_, by simp, by simp⟩, childless false, childless true⟩, ?_⟩
  · simp
  · simp
  · simp
  · exact fun y other => ((((same_prepared other).trans (same₀ y)).trans (same_setParent other)).trans
      (same_setFd other)).trans (same_setBk other)

variable (func) in
/-- `insert_large_chunk`, of a chunk that is in no bin. -/
theorem insert (bins : Large g m large) (size : LargeSize (m.chunksize x))
    (bin : computeTreeIndex (m.chunksize x) = i) (binnable : Binnable g m x)
    (fresh : ∀ j < 32, x ∉ (large j).nodes) : ∃ m',
      m.insertLargeChunk g func x (m.chunksize x) = .ok m' ∧
      Large g m' (update large i ((large i).insert m.chunksize x (bitsLeft i))) ∧
      Kept m m' ∧ m'.smallmap = m.smallmap ∧ ∀ y, y ∉ x :: (large i).nodes → Same m m' y := by
  have less : i < 32 := bin ▸ size.index_lt
  have top : m.chunksize x / 2 ^ bitsLeft i = topBits i := bin ▸ size.top_eq
  have notIn := fresh i less
  obtain ⟨t, result⟩ : ∃ t, t = (large i).insert m.chunksize x (bitsLeft i) := ⟨_, rfl⟩
  have perm : t.nodes.Perm (x :: (large i).nodes) := result ▸ nodes_insert
  have some : t.isLeaf = false := by
    cases t with
    | leaf => exact absurd (perm.mem_iff.2 List.mem_cons_self) List.not_mem_nil
    | node => rfl
  have within : t.Within m.chunksize (bitsLeft i) (topBits i) :=
    result ▸ (bins.within i less).insert top
  have nodup : t.nodes.Nodup := perm.nodup_iff.2 (List.nodup_cons.2 ⟨notIn, bins.nodup i less⟩)
  have outside : ∀ j < 32, j ≠ i → ∀ y ∈ (large j).nodes, y ∉ x :: (large i).nodes :=
    fun j less' other y inside =>
    List.not_mem_cons_of_ne_of_not_mem (ne_of_mem_of_not_mem inside (fresh j less')) fun inside' =>
      other (bins.apart less' less inside inside')
  -- the chunks of the bin are members in any state that keeps heads and indices
  have members : ∀ m' : Malloc, Kept m m' → m'.index = (prepared m x i).index → ∀ p ∈ t.nodes,
    Member g m' i p := by
    intro m' kept indices p inside
    obtain rfl | inside := List.mem_cons.1 (perm.mem_iff.1 inside)
    · have here : m'.index p = i := indices ▸ update_self ..
      exact ⟨binnable.keep kept, kept.chunksize ▸ size, kept.chunksize ▸ bin, here⟩
    · exact (bins.member i less p inside).keep kept
        ((congrFun indices p).trans (prepared_index (ne_of_mem_of_not_mem inside notIn)))
  have others : ∀ m' : Malloc, m'.index = (prepared m x i).index →
    (∀ y, y ∉ x :: (large i).nodes → Same m m' y) →
      ∀ j < 32, j ≠ i → ∀ y ∈ (large j).nodes, Same m m' y ∧ m'.index y = m.index y := by
    intro m' indices frame j less' other y inside
    have outside' := outside j less' other y inside
    exact ⟨frame y outside',
      (congrFun indices y).trans (prepared_index (List.ne_of_not_mem_cons outside'))⟩
  rw [← result]
  by_cases marked : m.treemap.testBit i
  · have rep : Rep (prepared m x i) (large i) ((prepared m x i).treebins i) (treebinAt g i) :=
      (bins.rep i less).congr fun y inside => same_prepared (ne_of_mem_of_not_mem inside notIn)
    obtain ⟨m', run, linked, new, frame⟩ :=
      insertLoop_rep func rep ((bins.marked i less).1 marked) (bins.within i less)
      top (bins.nodup i less) notIn binnable.some (bins.ok less) prepared_child (bitsLeft_le less)
      (show bitsLeft i < Malloc.rounds from (bitsLeft_le less).trans_lt (by decide))
    have kept₀ : Kept m (prepared m x i) := ⟨rfl, rfl, rfl, rfl, rfl, rfl, rfl⟩
    have kept := kept₀.trans linked.kept
    have treemap : m'.treemap = m.treemap := by rw [linked]; rfl
    have treebins : m'.treebins = m.treebins := by rw [linked]; rfl
    have smallmap : m'.smallmap = m.smallmap := by rw [linked]; rfl
    have indices : m'.index = (prepared m x i).index := by rw [linked]
    have frame' : ∀ y, y ∉ x :: (large i).nodes → Same m m' y := fun y outside =>
      (same_prepared (List.ne_of_not_mem_cons outside)).trans (frame y outside)
    refine ⟨m', ?_, bins.change less kept (others m' indices frame') (fun j _ =>
      by rw [treebins]) ?_ ?_ nodup within
      (members m' kept indices), kept, smallmap, frame'⟩
    · rw [Malloc.insertLargeChunk, bin]
      have yes : (prepared m x i).treemapIsMarked i := Malloc.treemapIsMarked_iff.2 marked
      refine (if_neg (not_not.2 yes)).trans ?_
      rw [leftshift_eq less]
      exact run
    · intro j less'
      rw [treemap]
      obtain rfl | other := eq_or_ne j i
      · rw [if_pos rfl, marked, some]
        rfl
      · rw [if_neg other]
    · rw [treebins, result]
      exact new
  · have empty : large i = leaf := not_not.1 fun some => marked ((bins.marked i less).2 some)
    have single : t = node x [] leaf leaf := by
      rw [result, empty]
      rfl
    obtain ⟨m', run, kept, smallmap, indices, treebins, treemap, new, frame⟩ :=
      plant g func bin marked binnable.some
    have frame' : ∀ y, y ∉ x :: (large i).nodes → Same m m' y := fun y outside =>
      frame y (List.ne_of_not_mem_cons outside)
    refine ⟨m', run, bins.change less kept (others m' indices frame') (fun j other =>
      ?_) ?_ ?_ nodup within
      (members m' kept indices), kept, smallmap, frame'⟩
    · rw [treebins, update_of_ne other]
    · intro j less'
      rw [treemap, testBit_mark, some]
      obtain rfl | other := eq_or_ne j i
      · simp
      · simp [other, other.symm]
    · rwa [treebins, update_self, single]

variable (func) in
/-- `unlink_large_chunk`, of a chunk in a bin. -/
theorem unlink (bins : Large g m large) (less : i < 32) (inside : x ∈ (large i).nodes) : ∃ m',
    m.unlinkLargeChunk func x = .ok m' ∧ Large g m' (update large i ((large i).erase x)) ∧ Kept m m' ∧
    m'.smallmap = m.smallmap ∧ ∀ y, y ∉ (large i).nodes → Same m m' y := by
  have rep := bins.rep i less
  have index := (bins.member i less x inside).index
  have perm := nodes_erase inside (bins.nodup i less)
  have nodup : ((large i).erase x).nodes.Nodup :=
    (List.nodup_cons.1 (perm.nodup_iff.1 (bins.nodup i less))).2
  have members : ∀ m' : Malloc, Kept m m' → m'.index = m.index → ∀ p ∈ ((large i).erase x).nodes,
    Member g m' i p :=
    fun m' kept indices p there =>
      (bins.member i less p (perm.mem_iff.2 (List.mem_cons_of_mem x there))).keep kept
        (congrFun indices p)
  have others : ∀ m' : Malloc, m'.index = m.index → (∀ y, y ∉ (large i).nodes → Same m m' y) →
      ∀ j < 32, j ≠ i → ∀ y ∈ (large j).nodes, Same m m' y ∧ m'.index y = m.index y :=
    fun m' indices frame j less' other y there =>
      ⟨frame y fun there' => other (bins.apart less' less there there'), congrFun indices y⟩
  have marked := (bins.marked i less).2 fun empty => by
    rw [empty] at inside
    exact List.not_mem_nil inside
  by_cases root : x = m.treebins i
  · rw [← root] at rep
    have some : x ≠ 0 := (bins.member i less x inside).binnable.some
    obtain ⟨m', b, run, linked, new, frame⟩ :=
      unlink_root func rep (bins.within i less) (bitsLeft_le less)
      (bins.nodup i less) (bins.ok less) (bins.null less) some (treebinAt_ne g i)
        (by rw [index, root])
    rw [index] at linked
    have kept₀ : Kept m { m with
        treebins := update m.treebins i b
        treemap := if b = 0 then m.treemap &&& (2 ^ 32 - 1 - idx2bit i) else m.treemap } :=
      ⟨rfl, rfl, rfl, rfl, rfl, rfl, rfl⟩
    have fields : m'.smallmap = m.smallmap ∧ m'.index = m.index ∧
      m'.treebins = update m.treebins i b ∧
        m'.treemap = if b = 0 then m.treemap &&& (2 ^ 32 - 1 - idx2bit i) else m.treemap := by
      rw [linked]
      exact ⟨rfl, rfl, rfl, rfl⟩
    obtain ⟨smallmap, indices, treebins, treemap⟩ := fields
    have kept := kept₀.trans linked.kept
    refine ⟨m', run, bins.change less kept (others m' indices frame) (fun j other =>
      ?_) (fun j less' => ?_) ?_ nodup
      (bins.within i less).erase (members m' kept indices), kept, smallmap, frame⟩
    · rw [treebins, update_of_ne other]
    · have gone : b = 0 ↔ ((large i).erase x).isLeaf := new.eq_zero_iff.trans isLeaf_iff.symm
      rw [treemap]
      by_cases null : b = 0
      · rw [if_pos null, testBit_clear less less', gone.1 null]
        obtain rfl | other := eq_or_ne j i
        · simp
        · simp [other, other.symm]
      · rw [if_neg null, Bool.eq_false_iff.2 fun leaf => null (gone.2 leaf)]
        obtain rfl | other := eq_or_ne j i
        · simp [marked]
        · rw [if_neg other]
    · rwa [treebins, update_self]
  · obtain ⟨m', run, linked, new, frame⟩ :=
      unlink_below func rep (bins.within i less) (bitsLeft_le less)
      (bins.nodup i less) (bins.ok less) (bins.null less) inside root (by rwa [index])
    have kept := linked.kept
    have fields : m'.smallmap = m.smallmap ∧ m'.index = m.index ∧ m'.treebins = m.treebins ∧
        m'.treemap = m.treemap := by
      rw [linked]
      exact ⟨rfl, rfl, rfl, rfl⟩
    obtain ⟨smallmap, indices, treebins, treemap⟩ := fields
    refine ⟨m', run, bins.change less kept (others m' indices frame) (fun j other =>
      ?_) (fun j less' => ?_) ?_ nodup
      (bins.within i less).erase (members m' kept indices), kept, smallmap, frame⟩
    · rw [treebins]
    · rw [treemap]
      obtain rfl | other := eq_or_ne j i
      · have some : m.treebins j ∈ ((large j).erase x).nodes := by
          have top := rep.mem fun null => (bins.marked j less).1 marked (rep.eq_zero_iff.1 null)
          exact List.mem_of_ne_of_mem (Ne.symm root) (perm.mem_iff.1 top)
        have notLeaf : ((large j).erase x).isLeaf = false := Bool.eq_false_iff.2 fun leaf => by
          rw [isLeaf_iff.1 leaf] at some
          exact List.not_mem_nil some
        rw [if_pos rfl, marked, notLeaf]
        rfl
      · rw [if_neg other]
    · rwa [treebins]

/-- Fields of chunks that are in no bin do not matter. -/
theorem keep (bins : Large g m large) (leastAddr : m'.leastAddr = m.leastAddr)
    (treemap : m'.treemap = m.treemap) (treebins : m'.treebins = m.treebins)
    (frame : ∀ i < 32, ∀ y ∈ (large i).nodes, Same m m' y ∧ m'.index y = m.index y ∧
      m'.chunksize y = m.chunksize y) :
    Large g m' large := by
  refine ⟨fun i less => ?_, fun i less => ?_, bins.nodup, fun i less => ?_, fun i less p inside => ?_⟩
  · rw [treebins]
    exact (bins.rep i less).congr fun y inside => (frame i less y inside).1
  · rw [treemap]
    exact bins.marked i less
  · exact (bins.within i less).congr fun y inside => (frame i less y inside).2.2
  · obtain ⟨⟨ok, some, chunk⟩, size, bin, index⟩ := bins.member i less p inside
    obtain ⟨-, index', size'⟩ := frame i less p inside
    refine ⟨⟨?_, some, chunk⟩, size' ▸ size, size' ▸ bin, index'.trans index⟩
    rwa [Malloc.okAddress, leastAddr]

end Large

namespace Small

variable {g : Statics} {m m' : Malloc} {small : ℕ → List ℕ} {i : ℕ}

/-- Fields of chunks that are in no bin do not matter. -/
theorem keep (bins : Small g m small) (leastAddr : m'.leastAddr = m.leastAddr)
    (smallmap : m'.smallmap = m.smallmap)
    (frame : ∀ i < 32, ∀ y ∈ smallbinAt g i :: small i, m'.fd y = m.fd y ∧ m'.bk y = m.bk y)
    (sizes : ∀ i < 32, ∀ y ∈ small i, m'.chunksize y = m.chunksize y) : Small g m' small := by
  refine ⟨fun i less some => ?_, fun i less => ?_, fun i less p inside =>
    ?_, fun i less p inside => ?_⟩
  · exact (bins.ring i less some).congr (fun y inside => (frame i less y inside).1) fun y inside =>
      (frame i less y inside).2
  · rw [smallmap]
    exact bins.marked i less
  · rw [sizes i less p inside]
    exact bins.size i less p inside
  · obtain ⟨ok, some, chunk⟩ := bins.binnable i less p inside
    refine ⟨?_, some, chunk⟩
    rwa [Malloc.okAddress, leastAddr]

end Small

end Vineyard.Heap

import Vineyard.Heap.Bins
import Vineyard.Lib.Rings

/-!
# The bins of small chunks

The macros for small chunks keep the rings: a chunk goes in at the front of the ring of its
size and comes out from any place, the bit of the bin says whether the ring is empty, and no
check of a pointer fails.
-/

namespace Vineyard.Heap

open Function Rings

/-! ## Bits of a map -/

theorem idx2bit_and (x i : ℕ) : x &&& idx2bit i ≠ 0 ↔ x.testBit i := by
  rw [idx2bit, Nat.one_shiftLeft, Nat.and_two_pow]
  cases x.testBit i <;> simp

theorem testBit_mark (x i j : ℕ) : (x ||| idx2bit i).testBit j = (x.testBit j || decide (i = j)) := by
  rw [idx2bit, Nat.one_shiftLeft, Nat.testBit_or, Nat.testBit_two_pow]

theorem testBit_clear {x i j : ℕ} (small : i < 32) (small' : j < 32) :
    (x &&& (2 ^ 32 - 1 - idx2bit i)).testBit j = (x.testBit j && !decide (i = j)) := by
  have less : 2 ^ i < 2 ^ 32 := Nat.pow_lt_pow_right (by decide) small
  rw [idx2bit, Nat.one_shiftLeft, Nat.testBit_and, Nat.sub_sub, Nat.add_comm,
    Nat.testBit_two_pow_sub_succ less, Nat.testBit_two_pow]
  simp [small']

namespace Malloc

variable {g : Statics} {func : String} {m : Malloc} {p i j : ℕ}

theorem smallmapIsMarked_iff : m.smallmapIsMarked i ↔ m.smallmap.testBit i := idx2bit_and _ _

theorem treemapIsMarked_iff : m.treemapIsMarked i ↔ m.treemap.testBit i := idx2bit_and _ _

end Malloc

theorem smallbinAt_inj {g : Statics} {i j : ℕ} : smallbinAt g i = smallbinAt g j ↔ i = j := by
  simp only [smallbinAt]
  omega

/-! ## The rings -/

/-- A chunk that may be in a bin. -/
structure Binnable (g : Statics) (m : Malloc) (p : ℕ) : Prop where
  ok : m.okAddress p
  some : p ≠ 0
  chunk : ∀ i < 32, p ≠ smallbinAt g i

/-- The rings of small chunks.  An empty bin keeps the links that its last chunk has left. -/
structure Small (g : Statics) (m : Malloc) (small : ℕ → List ℕ) : Prop where
  ring : ∀ i < 32, small i ≠ [] → Ring m.fd m.bk (smallbinAt g i) (small i)
  marked : ∀ i < 32, m.smallmap.testBit i ↔ small i ≠ []
  size : ∀ i < 32, ∀ p ∈ small i, m.chunksize p = smallIndex2size i
  binnable : ∀ i < 32, ∀ p ∈ small i, Binnable g m p

theorem smallIndex2size_inj {i j : ℕ} : smallIndex2size i = smallIndex2size j ↔ i = j := by
  simp only [smallIndex2size, smallbinShift, Nat.shiftLeft_eq]
  omega

theorem smallIndex_smallIndex2size {i : ℕ} (small : i < 32) : smallIndex (smallIndex2size i) = i := by
  simp only [smallIndex, smallIndex2size, smallbinShift, Nat.shiftLeft_eq, Nat.shiftRight_eq_div_pow]
  omega

namespace Small

variable {g : Statics} {func : String} {m m' : Malloc} {small : ℕ → List ℕ} {i j p : ℕ}

/-- Chunks of different rings are different. -/
theorem apart (bins : Small g m small) (less : i < 32) (less' : j < 32) (inside : p ∈ small i)
    (inside' : p ∈ small j) : i = j :=
  smallIndex2size_inj.1 ((bins.size i less p inside).symm.trans (bins.size j less' p inside'))

/-- One ring is changed, and fields outside the others. -/
theorem change {fd bk : ℕ → ℕ} {smallmap : ℕ} {chunks : List ℕ} (bins : Small g m small)
    (less : i < 32) (ring : chunks ≠ [] → Ring fd bk (smallbinAt g i) chunks)
    (kept : ∀ q, q ∉ smallbinAt g i :: small i → q ≠ p →
      fd q = m.fd q ∧ bk q = m.bk q) (fresh : ∀ j < 32, j ≠ i → p ∉ smallbinAt g j :: small j)
    (marked : ∀ j < 32, smallmap.testBit j =
      if j = i then decide (chunks ≠ []) else m.smallmap.testBit j)
    (size : ∀ q ∈ chunks, m.chunksize q = smallIndex2size i)
    (binnable : ∀ q ∈ chunks, Binnable g m q) :
    Small g { m with fd, bk, smallmap } (update small i chunks) := by
  refine ⟨fun j less' => ?_, fun j less' => ?_, fun j less' => ?_, fun j less' => ?_⟩
  · obtain rfl | other := eq_or_ne j i
    · rwa [update_self]
    · rw [update_of_ne other]
      intro some
      have outside : ∀ q ∈ smallbinAt g j :: small j, q ∉ smallbinAt g i :: small i ∧ q ≠ p := by
        intro q inside
        refine ⟨fun inside' => ?_, fun same => fresh j less' other (same ▸ inside)⟩
        obtain rfl | inside := List.mem_cons.1 inside
        · obtain same | inside' := List.mem_cons.1 inside'
          · exact other (smallbinAt_inj.1 same)
          · exact (bins.binnable i less _ inside').chunk j less' rfl
        · obtain rfl | inside' := List.mem_cons.1 inside'
          · exact (bins.binnable j less' _ inside).chunk i less rfl
          · exact other (bins.apart less' less inside inside')
      exact (bins.ring j less' some).congr
        (fun q inside => (kept q (outside q inside).1 (outside q inside).2).1)
        fun q inside => (kept q (outside q inside).1 (outside q inside).2).2
  · rw [marked j less']
    obtain rfl | other := eq_or_ne j i
    · simp
    · rw [if_neg other, update_of_ne other]
      exact bins.marked j less'
  · obtain rfl | other := eq_or_ne j i
    · rwa [update_self]
    · rw [update_of_ne other]
      exact bins.size j less'
  · obtain rfl | other := eq_or_ne j i
    · rw [update_self]
      exact fun q inside =>
        ⟨(binnable q inside).ok, (binnable q inside).some, (binnable q inside).chunk⟩
    · rw [update_of_ne other]
      exact fun q inside =>
        ⟨(bins.binnable j less' q inside).ok, (bins.binnable j less' q inside).some,
        (bins.binnable j less' q inside).chunk⟩

/-- What the bin of a new chunk links it to. -/
def front (g : Statics) (m : Malloc) (i : ℕ) : ℕ :=
  if m.smallmap.testBit i then m.fd (smallbinAt g i) else smallbinAt g i

/-- The front of a ring, or the bin itself. -/
theorem front_mem (bins : Small g m small) (less : i < 32) :
    front g m i ∈ smallbinAt g i :: small i := by
  rw [front]
  split
  · next marked =>
    rw [(bins.ring i less ((bins.marked i less).1 marked)).next_eq]
    cases small i <;> simp
  · exact List.mem_cons_self

theorem insertSmallChunk_eq (bins : Small g m small) (less : i < 32) :
    m.insertSmallChunk g func p (smallIndex2size i) = .ok { m with
      fd := update (update m.fd (smallbinAt g i) p) p (front g m i)
      bk := update (update m.bk (front g m i) p) p (smallbinAt g i)
      smallmap := m.smallmap ||| idx2bit i } := by
  rw [Malloc.insertSmallChunk, smallIndex_smallIndex2size less, front]
  by_cases marked : m.smallmap.testBit i
  · have same : m.smallmap ||| idx2bit i = m.smallmap := by
      apply Nat.eq_of_testBit_eq
      intro j
      rw [testBit_mark]
      obtain rfl | other := eq_or_ne i j
      · simp [marked]
      · simp [other]
    have some := (bins.marked i less).1 marked
    have ok : m.okAddress (m.fd (smallbinAt g i)) := by
      rw [(bins.ring i less some).next_eq]
      obtain ⟨q, qs, eq⟩ := List.exists_cons_of_ne_nil some
      rw [eq, List.headD_cons]
      exact (bins.binnable i less q (eq ▸ List.mem_cons_self)).ok
    rw [if_neg (not_not.2 (Malloc.smallmapIsMarked_iff.2 marked)), if_pos ok, same, if_pos marked]
    rfl
  · rw [if_pos fun yes => marked (Malloc.smallmapIsMarked_iff.1 yes), if_neg marked]
    rfl

variable (func) in
/-- `insert_small_chunk`, of a chunk that is in no bin. -/
theorem insert (bins : Small g m small) (less : i < 32) (size : m.chunksize p = smallIndex2size i)
    (binnable : Binnable g m p) (fresh : ∀ j < 32, p ∉ small j) : ∃ fd bk smallmap,
      m.insertSmallChunk g func p (smallIndex2size i) = .ok { m with fd, bk, smallmap } ∧
      Small g { m with fd, bk, smallmap } (update small i (p :: small i)) ∧
      ∀ q, q ∉ smallbinAt g i :: small i → q ≠ p → fd q = m.fd q ∧ bk q = m.bk q := by
  have first := bins.front_mem less
  have freshHere : p ∉ smallbinAt g i :: small i := by
    simpa using ⟨binnable.chunk i less, fresh i less⟩
  have notBin : smallbinAt g i ≠ p := fun same => freshHere (same ▸ List.mem_cons_self)
  have notFirst : front g m i ≠ p := ne_of_mem_of_not_mem first freshHere
  have kept : ∀ q, q ∉ smallbinAt g i :: small i → q ≠ p →
      update (update m.fd (smallbinAt g i) p) p (front g m i) q = m.fd q ∧
      update (update m.bk (front g m i) p) p (smallbinAt g i) q = m.bk q := by
    intro q outside other
    have notBin' : q ≠ smallbinAt g i := fun same => outside (same ▸ List.mem_cons_self)
    have notFirst' : q ≠ front g m i := fun same => outside (same ▸ first)
    exact ⟨by rw [update_of_ne other, update_of_ne notBin'],
      by rw [update_of_ne other, update_of_ne notFirst']⟩
  refine ⟨_, _, _, bins.insertSmallChunk_eq less,
    bins.change less (fun _ => ?_) kept ?_ ?_ ?_ ?_, kept⟩
  · by_cases marked : m.smallmap.testBit i
    · have first : front g m i = m.fd (smallbinAt g i) := if_pos marked
      rw [first] at notFirst ⊢
      apply (bins.ring i less ((bins.marked i less).1 marked)).insert freshHere (update_self ..)
        (update_self ..)
      · rw [update_of_ne notBin, update_self]
      · rw [update_of_ne notFirst, update_self]
      · intro x notB notP
        rw [update_of_ne notP, update_of_ne notB]
      · intro x notF notP
        rw [update_of_ne notP, update_of_ne notF]
    · have empty : small i = [] := not_not.1 fun some => marked ((bins.marked i less).2 some)
      have first : front g m i = smallbinAt g i := if_neg marked
      rw [first, empty]
      refine ⟨by simpa using notBin, ?_, update_self .., update_self .., ?_⟩
      · rw [update_of_ne notBin, update_self]
      · rw [update_of_ne notBin, update_self]
  · intro j less' _ inside
    obtain same | inside := List.mem_cons.1 inside
    · exact binnable.chunk j less' same
    · exact fresh j less' inside
  · intro j less'
    rw [testBit_mark]
    obtain rfl | other := eq_or_ne j i
    · simp
    · simp [other, other.symm]
  · exact List.forall_mem_cons.2 ⟨size, bins.size i less⟩
  · exact List.forall_mem_cons.2 ⟨binnable, bins.binnable i less⟩

section Remove

variable {l r : List ℕ} (bins : Small g m small) (less : i < 32) (split : small i = l ++ p :: r)

include bins less split

theorem split_ring : Ring m.fd m.bk (smallbinAt g i) (l ++ p :: r) := by
  rw [← split]
  apply bins.ring i less
  rw [split]
  simp

theorem neighbour (near : j ∈ smallbinAt g i :: (l ++ r)) : j = smallbinAt g i ∨ m.okAddress j := by
  apply (List.mem_cons.1 near).imp_right
  intro inside
  refine (bins.binnable i less j ?_).ok
  rw [split]
  exact (List.mem_append.1 inside).elim (List.mem_append_left _) fun behind =>
    List.mem_append_right _ (List.mem_cons_of_mem p behind)

/-- The checks of the neighbours of a chunk. -/
theorem checked : (m.fd p = smallbinAt g i ∨ m.okAddress (m.fd p)) ∧ m.bk (m.fd p) = p ∧
    (m.bk p = smallbinAt g i ∨ m.okAddress (m.bk p)) ∧ m.fd (m.bk p) = p := by
  have ring := bins.split_ring less split
  exact ⟨bins.neighbour less split ring.next_mem, ring.prev_next,
    bins.neighbour less split ring.prev_mem, ring.next_prev⟩

/-- The last chunk of a ring goes with the bit of its bin, another one by its links. -/
theorem takeOut : ∃ fd bk smallmap, (if m.bk p = m.fd p then m.clearSmallmap i
      else (m.setBk (m.fd p) (m.bk p)).setFd (m.bk p) (m.fd p)) = { m with fd, bk, smallmap } ∧
    Small g { m with fd, bk, smallmap } (update small i ((small i).erase p)) ∧
    ∀ q, q ∉ smallbinAt g i :: small i → fd q = m.fd q ∧ bk q = m.bk q := by
  have ring := bins.split_ring less split
  have erased : (small i).erase p = l ++ r := by
    have apart := (List.nodup_append.1 (List.nodup_cons.1 ring.nodup).2).2.2
    rw [split, List.erase_append_right _ fun inside => apart p inside p List.mem_cons_self rfl,
      List.erase_cons_head]
  have kept : ∀ q ∈ l ++ r, q ∈ small i := erased ▸ fun q => List.mem_of_mem_erase
  have fresh : ∀ j < 32, j ≠ i → p ∉ smallbinAt g j :: small j := by
    have inside : p ∈ small i := split ▸ List.mem_append_right l List.mem_cons_self
    intro j less' other inside'
    obtain same | inside' := List.mem_cons.1 inside'
    · exact (bins.binnable i less p inside).chunk j less' same
    · exact other (bins.apart less' less inside' inside)
  have size : ∀ q ∈ l ++ r, m.chunksize q = smallIndex2size i :=
    fun q inside => bins.size i less q (kept q inside)
  have binnable : ∀ q ∈ l ++ r, Binnable g m q :=
    fun q inside => bins.binnable i less q (kept q inside)
  have alone := ring.next_eq_prev_iff
  rw [erased]
  split
  · next same =>
    have empty := alone.1 same.symm
    refine ⟨m.fd, m.bk, _, rfl,
      bins.change less (fun some => absurd empty some) (fun _ _ _ => ⟨rfl, rfl⟩) fresh ?_
      size binnable, fun _ _ => ⟨rfl, rfl⟩⟩
    intro j less'
    rw [testBit_clear less less']
    obtain rfl | other := eq_or_ne j i
    · simp [empty]
    · simp [other, other.symm]
  · next differ =>
    have some : l ++ r ≠ [] := fun empty => differ (alone.2 empty).symm
    have frame : ∀ q, q ∉ smallbinAt g i :: small i → update m.fd (m.bk p) (m.fd p) q = m.fd q ∧
        update m.bk (m.fd p) (m.bk p) q = m.bk q := by
      intro q outside
      have near : ∀ x ∈ smallbinAt g i :: (l ++ r), q ≠ x := by
        rintro x inside rfl
        exact outside ((List.mem_cons.1 inside).elim (· ▸ List.mem_cons_self) fun inside =>
          List.mem_cons_of_mem _ (kept _ inside))
      exact ⟨update_of_ne (near _ ring.prev_mem) .., update_of_ne (near _ ring.next_mem) ..⟩
    refine ⟨_, _, m.smallmap, rfl,
      bins.change less (fun _ => ?_) (fun q outside _ => frame q outside) fresh ?_ size
      binnable, frame⟩
    · apply ring.remove (update_self ..) (update_self ..)
      · exact fun x other _ => update_of_ne other ..
      · exact fun x other _ => update_of_ne other ..
    · intro j less'
      obtain rfl | other := eq_or_ne j i
      · rw [if_pos rfl, decide_eq_true some]
        exact (bins.marked j less).2 (split ▸ by simp)
      · rw [if_neg other]

end Remove

variable (func) in
/-- `unlink_small_chunk`, of a chunk in a bin. -/
theorem unlink (bins : Small g m small) (less : i < 32) (inside : p ∈ small i) : ∃ fd bk smallmap,
    m.unlinkSmallChunk g func p (smallIndex2size i) = .ok { m with fd, bk, smallmap } ∧
    Small g { m with fd, bk, smallmap } (update small i ((small i).erase p)) ∧
    ∀ q, q ∉ smallbinAt g i :: small i → fd q = m.fd q ∧ bk q = m.bk q := by
  obtain ⟨l, r, split⟩ := List.append_of_mem inside
  obtain ⟨okForth, forth, okBack, back⟩ := bins.checked less split
  obtain ⟨fd, bk, smallmap, eq, kept, frame⟩ := bins.takeOut less split
  refine ⟨fd, bk, smallmap, ?_, kept, frame⟩
  rw [Malloc.unlinkSmallChunk, smallIndex_smallIndex2size less, ← eq]
  rw [if_pos (okForth.imp_right fun ok => ⟨ok, forth⟩),
    if_pos (okBack.imp_right fun ok => ⟨ok, back⟩)]
  split <;> rfl

variable (func) in
/-- `unlink_first_small_chunk`, of the chunk that the bin is linked to. -/
theorem unlinkFirst (bins : Small g m small) (less : i < 32) (some : small i ≠ []) : ∃ fd bk smallmap,
    m.fd (smallbinAt g i) ∈ small i ∧
    m.unlinkFirstSmallChunk func (smallbinAt g i) (m.fd (smallbinAt g i)) i =
      .ok { m with fd, bk, smallmap } ∧
    Small g { m with fd, bk, smallmap } (update small i ((small i).erase (m.fd (smallbinAt g i)))) ∧
    ∀ q, q ∉ smallbinAt g i :: small i → fd q = m.fd q ∧ bk q = m.bk q := by
  obtain ⟨p, r, split⟩ := List.exists_cons_of_ne_nil some
  have first : m.fd (smallbinAt g i) = p := by
    rw [(bins.ring i less some).next_eq, split, List.headD_cons]
  have splitNil : small i = [] ++ p :: r := split
  have back : m.bk p = smallbinAt g i := (bins.split_ring less splitNil).prev_middle
  obtain ⟨okForth, forth, -, -⟩ := bins.checked less splitNil
  obtain ⟨fd, bk, smallmap, eq, kept, frame⟩ := bins.takeOut less splitNil
  rw [first]
  refine ⟨fd, bk, smallmap, split ▸ List.mem_cons_self, ?_, kept, frame⟩
  rw [Malloc.unlinkFirstSmallChunk, ← eq, back]
  split
  · rfl
  · next differ =>
    rw [if_pos ⟨okForth.resolve_left fun same => differ same.symm, forth⟩]
    rfl

end Small

end Vineyard.Heap

import Vineyard.Heap.Calls
import Vineyard.Lib.Words
import Mathlib.Data.Nat.Factorization.Basic

/-!
# The best fit

`tmalloc_large` searches the tries for the smallest chunk that fits, takes it unless the designated
victim is as good, and gives the rest of it back to the bins.
-/

namespace Vineyard.Heap

open Function Tries Trie

/-- `size - nb` in the arithmetic of `size_t`. -/
def remainder (size nb : ℕ) : ℕ := (size + (2 ^ 64 - nb)) % 2 ^ 64

/-- `left_bits` of a `binmap_t`. -/
def leftBits (x : ℕ) : ℕ := x <<< 1 % 2 ^ 32 ||| (2 ^ 32 - x <<< 1 % 2 ^ 32) % 2 ^ 32

/-- `least_bit` of a `binmap_t`. -/
def leastBit (x : ℕ) : ℕ := x &&& (2 ^ 32 - x) % 2 ^ 32

/-- `compute_bit2idx`: the zeros below the first bit. -/
def computeBit2idx (x : ℕ) : ℕ := ((List.range 32).find? x.testBit).getD 32

namespace Malloc

variable (g : Statics) (func : String) (m : Malloc)

/-- `set_inuse_and_pinuse` -/
def setInuseAndPinuse (p s : ℕ) : Malloc :=
  let m := { m with head := update m.head p (s ||| pinuseBit ||| cinuseBit) }
  { m with head := update m.head (p + s) (m.head (p + s) ||| pinuseBit) }

/-- `set_size_and_pinuse_of_inuse_chunk` -/
def setSizeAndPinuseOfInuseChunk (p s : ℕ) : Malloc :=
  { m with head := update m.head p (s ||| pinuseBit ||| cinuseBit) }

/-- `set_size_and_pinuse_of_free_chunk` -/
def setSizeAndPinuseOfFreeChunk (p s : ℕ) : Malloc :=
  { m with head := update m.head p (s ||| pinuseBit), prevFoot := update m.prevFoot (p + s) s }

/-- The best chunk with its remainder, after the chunk `t`. -/
def better (nb t : ℕ) (best : ℕ × ℕ) : ℕ × ℕ :=
  if remainder (m.chunksize t) nb < best.2 then (t, remainder (m.chunksize t) nb) else best

/-- The loop of `tmalloc_large` over the way of the size: the best chunk, and the trie
where the search goes on. -/
def searchLoop (nb : ℕ) : ℕ → ℕ → ℕ → ℕ × ℕ → ℕ → Except Fault ((ℕ × ℕ) × ℕ)
  | _, _, _, _, 0 => .error .endless
  | t, sizebits, rst, best, n + 1 =>
    if remainder (m.chunksize t) nb < best.2 ∧ remainder (m.chunksize t) nb = 0 then pure ((t, 0), t)
    else
      let best := m.better nb t best
      let rt := m.child t true
      let t := m.child t (topBit sizebits)
      let rst := if rt ≠ 0 ∧ rt ≠ t then rt else rst
      if t = 0 then pure (best, rst) else searchLoop nb t (sizebits <<< 1 % 2 ^ 64) rst best n

def leftmostChild (t : ℕ) : ℕ := if m.child t false ≠ 0 then m.child t false else m.child t true

/-- The loop over the leftmost children. -/
def leftmostLoop (nb : ℕ) : ℕ → ℕ × ℕ → ℕ → Except Fault (ℕ × ℕ)
  | _, _, 0 => .error .endless
  | t, best, n + 1 => if t ≠ 0 then leftmostLoop nb (m.leftmostChild t)
    (m.better nb t best) n else pure best

/-- The search of `tmalloc_large`: the best chunk with its remainder. -/
def bestFit (nb : ℕ) : Except Fault (ℕ × ℕ) := do
  let idx := computeTreeIndex nb
  let (best, t) ←
    if m.treebins idx ≠ 0 then
      m.searchLoop nb (m.treebins idx) (nb <<< leftshiftForTreeIndex idx % 2 ^ 64) 0
        (0, remainder 0 nb) rounds
    else pure ((0, remainder 0 nb), 0)
  let leftbits := leftBits (idx2bit idx) &&& m.treemap
  let t :=
    if t = 0 ∧ best.1 = 0 ∧ leftbits ≠ 0 then m.treebins (computeBit2idx (leastBit leftbits)) else t
  m.leftmostLoop nb t best rounds

def tmallocLarge (nb : ℕ) : Except Fault (ℕ × Malloc) := do
  let (v, rsize) ← m.bestFit nb
  if v ≠ 0 ∧ rsize < remainder m.dvsize nb then
    if m.okAddress v ∧ v < v + nb then
      let m ← m.unlinkLargeChunk func v
      if rsize < minChunkSize then pure (v + 16, m.setInuseAndPinuse v (rsize + nb))
      else
        let m := (m.setSizeAndPinuseOfInuseChunk v nb).setSizeAndPinuseOfFreeChunk (v + nb) rsize
        let m ← m.insertChunk g func (v + nb) rsize
        pure (v + 16, m)
    else abort func
  else pure (0, m)

end Malloc

/-! ## The bitmap of the bins -/

theorem leftBits_testBit : ∀ i < 32, ∀ j < 32, (leftBits (idx2bit i)).testBit j = decide (i < j) := by
  decide +kernel

/-- The least bit of a bitmap is the first that is set. -/
theorem leastBit_first {x : ℕ} (less : x < 2 ^ 32) (some : x ≠ 0) :
    ∃ i < 32, computeBit2idx (leastBit x) = i ∧
    x.testBit i ∧ ∀ j < i, ¬x.testBit j := by
  obtain ⟨i, q, odd, rfl⟩ := Nat.exists_eq_two_pow_mul_odd some
  have notNull : 0 < q := odd.pos
  have fits : i < 32 := by
    by_contra wide
    have : 2 ^ 32 ≤ 2 ^ i := Nat.pow_le_pow_right (by decide) (by omega)
    have : 2 ^ i * 1 ≤ 2 ^ i * q := Nat.mul_le_mul_left _ notNull
    omega
  have even : 2 ^ (32 - i) = 2 * 2 ^ (31 - i) := by
    rw [show 32 - i = 31 - i + 1 by omega, Nat.pow_succ']
  have whole : 2 ^ 32 = 2 ^ i * 2 ^ (32 - i) := by
    rw [← Nat.pow_add, show i + (32 - i) = 32 by omega]
  have below : q < 2 ^ (32 - i) := by
    rw [whole] at less
    exact Nat.lt_of_mul_lt_mul_left less
  have negative : (2 ^ 32 - 2 ^ i * q) % 2 ^ 32 = 2 ^ i * (2 ^ (32 - i) - q) := by
    rw [Nat.mod_eq_of_lt (by have := Nat.two_pow_pos 32; have := Nat.pos_of_ne_zero some; omega),
      whole, Nat.mul_sub]
  have odd' : (2 ^ (32 - i) - q) % 2 = 1 := by
    have := Nat.odd_iff.1 odd
    omega
  have bits : ∀ j ≤ i, (2 ^ i * q).testBit j = decide (j = i) ∧
      (leastBit (2 ^ i * q)).testBit j = decide (j = i) := by
    intro j le
    rw [leastBit, negative, Nat.testBit_and, Nat.testBit_two_pow_mul, Nat.testBit_two_pow_mul]
    obtain rfl | other := eq_or_ne j i
    · simp [Nat.testBit_zero, Nat.odd_iff.1 odd, odd']
    · have : ¬i ≤ j := by omega
      simp [this, other]
  refine ⟨i, fits, ?_, by simp [(bits i le_rfl).1], fun j less' => by
    simp [(bits j less'.le).1, less'.ne]⟩
  have found : (List.range 32).find? (leastBit (2 ^ i * q)).testBit = .some i := by
    rw [List.find?_range_eq_some]
    refine ⟨by simp [(bits i le_rfl).2], List.mem_range.2 fits, fun j less' => ?_⟩
    simp [(bits j less'.le).2, less'.ne]
  rw [computeBit2idx, found]
  rfl

/-! ## The search -/

/-- The chunk found among those seen: the smallest that fits, or none. -/
structure Found (m : Malloc) (nb : ℕ) (seen : List ℕ) (best : ℕ × ℕ) : Prop where
  fits : best = (0, remainder 0 nb) ∨
    best.1 ∈ seen ∧ best.1 ≠ 0 ∧ nb ≤ m.chunksize best.1 ∧ m.chunksize best.1 < 2 ^ 40 ∧
      best.2 = m.chunksize best.1 - nb
  least : ∀ y ∈ seen, nb ≤ m.chunksize y → best.1 ≠ 0 ∧ best.2 ≤ m.chunksize y - nb

theorem LargeSize.pos {s : ℕ} (size : LargeSize s) : 0 < s :=
  Nat.zero_lt_of_lt size.large

section Search

variable {g : Statics} {func : String} {m : Malloc} {t rest l r : Trie ℕ} {seen same : List ℕ}
  {best : ℕ × ℕ}
  {nb p q rst w h n y : ℕ}

theorem remainder_fits {s : ℕ} (fits : nb ≤ s) (less : s < 2 ^ 40) : remainder s nb = s - nb := by
  simp only [remainder]
  omega

theorem remainder_misfit {s : ℕ} (misfit : s < nb) (less : nb < 2 ^ 64) :
    remainder 0 nb ≤ remainder s nb := by
  simp only [remainder]
  omega

theorem remainder_zero {s : ℕ} (small : nb < 2 ^ 64) (less : s < 2 ^ 40) :
    remainder s nb = 0 ↔ s = nb := by
  simp only [remainder]
  omega

theorem found_nil : Found m nb [] (0, remainder 0 nb) := ⟨.inl rfl, by simp⟩

/-- One more chunk is seen. -/
theorem Found.better (found : Found m nb seen best) (pos : 0 < nb) (small : nb < 2 ^ 64)
    (less : m.chunksize y < 2 ^ 40) (some : y ≠ 0) :
    Found m nb (seen ++ [y]) (m.better nb y best) := by
  rw [Malloc.better]
  by_cases fits : nb ≤ m.chunksize y
  · rw [remainder_fits fits less]
    split
    · next smaller =>
      refine ⟨.inr ⟨by simp, some, fits, less, rfl⟩, fun z inside fits' => ⟨some, ?_⟩⟩
      obtain inside | inside := List.mem_append.1 inside
      · exact smaller.le.trans (found.least z inside fits').2
      · rw [List.mem_singleton.1 inside]
    · next greater =>
      obtain rfl | ⟨inside, some', fits', less', eq⟩ := found.fits
      · have : remainder 0 nb = 2 ^ 64 - nb := by
          simp only [remainder]
          omega
        exact absurd (show m.chunksize y - nb < remainder 0 nb by omega) greater
      · refine ⟨.inr ⟨List.mem_append_left _ inside, some', fits', less', eq⟩, fun z inside fits' =>
          ⟨some', ?_⟩⟩
        obtain inside | inside := List.mem_append.1 inside
        · exact (found.least z inside fits').2
        · rw [List.mem_singleton.1 inside]
          exact not_lt.1 greater
  · have misfit := remainder_misfit (not_le.1 fits) small
    rw [if_neg]
    · refine ⟨found.fits.imp_right fun found => ⟨List.mem_append_left _ found.1, found.2⟩,
        fun z inside fits' => ?_⟩
      obtain inside | inside := List.mem_append.1 inside
      · exact found.least z inside fits'
      · exact absurd (List.mem_singleton.1 inside ▸ fits') fits
    · obtain rfl | ⟨-, -, fits', less', eq⟩ := found.fits
      · exact not_lt.2 misfit
      · have : remainder 0 nb = 2 ^ 64 - nb := by
          simp only [remainder]
          omega
        omega

theorem leftmostLoop_spec (rep : Rep m t p q) (within : t.Within m.chunksize w h) (pos : 0 < nb)
    (small : nb < 2 ^ 64) (sizes : ∀ y ∈ t.nodes, m.chunksize y < 2 ^ 40) (null : 0 ∉ t.nodes)
    (found : Found m nb seen best) (enough : w + 1 < n) :
    ∃ best', m.leftmostLoop nb p best n = .ok best' ∧
      Found m nb (seen ++ t.leftmost) best' := by
  induction t generalizing w h p q n seen best with
  | leaf =>
    obtain ⟨n, rfl⟩ := Nat.exists_eq_succ_of_ne_zero (Nat.ne_zero_of_lt enough)
    refine ⟨best, ?_, by simpa [Trie.leftmost] using found⟩
    have null : p = 0 := rep
    rw [Malloc.leftmostLoop, if_neg (not_not.2 null)]
    rfl
  | node a same l r left right =>
    obtain ⟨n, rfl⟩ := Nat.exists_eq_succ_of_ne_zero (Nat.ne_zero_of_lt enough)
    obtain ⟨rfl, -, group, -, -⟩ := id rep
    have next := found.better pos small (sizes p List.mem_cons_self) group.some
    obtain ⟨d, side, lefty⟩ : ∃ d, m.leftmostChild p = m.child p d ∧
        (node p same l r).leftmost = p :: (cond d r l).leftmost := by
      rw [Malloc.leftmostChild, Trie.leftmost]
      by_cases empty : m.child p false = 0
      · refine ⟨true, if_neg (not_not.2 empty), ?_⟩
        have leftEmpty : l = leaf := (rep.side false).eq_zero_iff.1 empty
        rw [if_pos (isLeaf_iff.2 leftEmpty)]
        rfl
      · refine ⟨false, if_pos empty, ?_⟩
        have leftSome : l.isLeaf ≠ true :=
          fun leaf => empty ((rep.side false).eq_zero_iff.2 (isLeaf_iff.1 leaf))
        rw [if_neg leftSome]
        rfl
    have sizes' : ∀ y ∈ (cond d r l).nodes, m.chunksize y < 2 ^ 40 :=
      fun y there => sizes y (mem_side there)
    have null' : 0 ∉ (cond d r l).nodes := fun there => null (mem_side there)
    rw [Malloc.leftmostLoop, if_pos group.some, side, lefty, List.append_cons]
    cases w with
    | zero =>
      obtain ⟨n, rfl⟩ := Nat.exists_eq_succ_of_ne_zero (show n ≠ 0 by omega)
      obtain ⟨-, -, rfl, rfl⟩ := within
      have none : cond d (leaf : Trie ℕ) leaf = leaf := by cases d <;> rfl
      have null : m.child p d = 0 := (rep.side d).eq_zero_iff.2 none
      rw [Malloc.leftmostLoop, if_neg (not_not.2 null), none]
      exact ⟨_, rfl, by simpa [Trie.leftmost] using next⟩
    | succ w =>
      have below := within.side d
      cases d
      · exact left (rep.side false) below sizes' null' next (by omega)
      · exact right (rep.side true) below sizes' null' next (by omega)

/-- The search stops at a chunk that fits exactly, or has seen the way and the last side on its
right. -/
theorem searchLoop_spec {q' : ℕ} (rep : Rep m t p q) (some : t ≠ leaf)
    (within : t.Within m.chunksize w h) (nodup : t.nodes.Nodup) (pos : 0 < nb) (small : nb < 2 ^ 64)
    (sizes : ∀ y ∈ t.nodes, m.chunksize y < 2 ^ 40) (null : 0 ∉ t.nodes) (rest' : Rep m rest rst q')
    (restWithin : ∃ w' h', w' ≤ 64 ∧ rest.Within m.chunksize w' h') (found : Found m nb seen best)
    (bits : w ≤ 64) (enough : w < n) : ∃ best' p' seen' s q'',
      m.searchLoop nb p (nb <<< (64 - w) % 2 ^ 64) rst best n = .ok (best', p') ∧
      Found m nb seen' best' ∧ Rep m s p' q'' ∧ (∃ w' h', w' ≤ 64 ∧ s.Within m.chunksize w' h') ∧
      (∀ y ∈ s.nodes, y ∈ t.nodes ∨ y ∈ rest.nodes) ∧ (∀ y ∈ seen', y ∈ seen ∨ y ∈ t.nodes) ∧
      ((∃ y ∈ seen', m.chunksize y = nb) ∨
        (seen' = seen ++ (t.search nb w rest).1 ∧ s = (t.search nb w rest).2)) := by
  induction t generalizing w h p q n seen best rest rst q' with
  | leaf => exact absurd rfl some
  | node a same l r left right =>
    obtain ⟨n, rfl⟩ := Nat.exists_eq_succ_of_ne_zero (Nat.ne_zero_of_lt enough)
    obtain ⟨rfl, -, group, -, -⟩ := id rep
    have less := sizes p List.mem_cons_self
    have next := found.better pos small less group.some
    have here : ∀ y ∈ seen ++ [p], y ∈ seen ∨ y ∈ (node p same l r).nodes := fun y there =>
      (List.mem_append.1 there).imp_right fun there =>
        mem_group (by simpa using Or.inl (List.mem_singleton.1 there))
    rw [Malloc.searchLoop]
    by_cases exactly : remainder (m.chunksize p) nb < best.2 ∧ remainder (m.chunksize p) nb = 0
    · have equal := (remainder_zero small less).1 exactly.2
      have better : m.better nb p best = (p, 0) := by rw [Malloc.better, if_pos exactly.1, exactly.2]
      rw [better] at next
      rw [if_pos exactly]
      exact ⟨_, _, _, _, _, rfl, next, rep, ⟨w, h, bits, within⟩, fun y there => .inl there, here,
        .inl ⟨p, by simp, equal⟩⟩
    · rw [if_neg exactly]
      dsimp only
      cases w with
      | zero =>
        obtain ⟨-, -, rfl, rfl⟩ := within
        have none : ∀ d, m.child p d = 0 := fun d => (rep.side d).eq_zero_iff.2 (by cases d <;> rfl)
        rw [none, none, if_pos rfl, if_neg (by simp), search_zero]
        exact ⟨_, _, _, _, _, rfl, next, rest', restWithin, fun y there => .inr there, here,
          .inr ⟨rfl, rfl⟩⟩
      | succ w =>
        rw [topBit_shift (by omega), shift_shift (by omega)]
        obtain ⟨b, bit⟩ : ∃ b, b = nb.testBit w := ⟨_, rfl⟩
        rw [← bit]
        -- the last side on the right of the way, in memory and in the trie
        obtain ⟨last, q₁, lastRep, lastWithin, lastNodes, way⟩ : ∃ last q₁,
            Rep m last
              (if m.child p true ≠ 0 ∧ m.child p true ≠ m.child p b then m.child p true else rst) q₁ ∧
            (∃ w' h', w' ≤ 64 ∧ last.Within m.chunksize w' h') ∧
            (∀ y ∈ last.nodes, y ∈ (node p same l r).nodes ∨ y ∈ rest.nodes) ∧
            (node p same l r).search nb (w + 1) rest =
              (p :: ((cond b r l).search nb w last).1, ((cond b r l).search nb w last).2) := by
          cases b with
          | true =>
            rw [if_neg (by simp)]
            exact ⟨rest, q', rest', restWithin, fun y there => .inr there, search_right bit.symm⟩
          | false =>
            by_cases empty : m.child p true = 0
            · have rightEmpty : r = leaf := (rep.side true).eq_zero_iff.1 empty
              rw [if_neg fun both => both.1 empty]
              refine ⟨rest, q', rest', restWithin, fun y there => .inr there, ?_⟩
              rw [search_left bit.symm, rightEmpty]
              rfl
            · have rightSome : r.isLeaf ≠ true :=
                fun leaf => empty ((rep.side true).eq_zero_iff.2 (isLeaf_iff.1 leaf))
              have apart : m.child p true ≠ m.child p false := fun eq =>
                (nodup_side nodup true).2.2 _ ((rep.side true).mem empty)
                  (eq ▸ (rep.side false).mem (eq ▸ empty))
              rw [if_pos ⟨empty, apart⟩]
              exact ⟨r, p, rep.side true, ⟨w, _, by omega, within.side true⟩, fun y there =>
                .inl (mem_side (b := true) there),
                by rw [search_left bit.symm, if_neg rightSome]; rfl⟩
        have side := rep.side b
        rw [way]
        by_cases empty : m.child p b = 0
        · rw [if_pos empty, side.eq_zero_iff.1 empty]
          exact ⟨_, _, _, _, _, rfl, next, lastRep, lastWithin, lastNodes, here, .inr ⟨rfl, rfl⟩⟩
        · rw [if_neg empty]
          have some' : cond b r l ≠ leaf := fun leaf => empty (side.eq_zero_iff.2 leaf)
          have sizes' : ∀ y ∈ (cond b r l).nodes, m.chunksize y < 2 ^ 40 :=
            fun y there => sizes y (mem_side there)
          have null' : 0 ∉ (cond b r l).nodes := fun there => null (mem_side there)
          have below := within.side b
          have sideNodup := (nodup_side nodup b).1
          obtain ⟨best', p', seen', s, q'', run, found', rep', within', nodes', seenIn, outcome⟩ :
            ∃ best' p' seen' s q'',
              m.searchLoop nb (m.child p b) (nb <<< (64 - w) % 2 ^ 64)
                (if m.child p true ≠ 0 ∧ m.child p true ≠ m.child p b then m.child p true else rst)
                (m.better nb p best) n = .ok (best', p') ∧ Found m nb seen' best' ∧ Rep m s p' q'' ∧
              (∃ w' h', w' ≤ 64 ∧ s.Within m.chunksize w' h') ∧
              (∀ y ∈ s.nodes, y ∈ (cond b r l).nodes ∨ y ∈ last.nodes) ∧
              (∀ y ∈ seen', y ∈ seen ++ [p] ∨ y ∈ (cond b r l).nodes) ∧
              ((∃ y ∈ seen', m.chunksize y = nb) ∨
                (seen' = seen ++ [p] ++ ((cond b r l).search nb w last).1 ∧
                  s = ((cond b r l).search nb w last).2)) := by
            cases b
            · exact left side some' below sideNodup sizes' null' lastRep lastWithin next
                (by omega) (by omega)
            · exact right side some' below sideNodup sizes' null' lastRep lastWithin next
                (by omega) (by omega)
          refine ⟨best', p', seen', s, q'', run, found', rep', within', fun y there =>
            ?_, fun y there => ?_, ?_⟩
          · exact (nodes' y there).elim (fun there => .inl (mem_side there)) (lastNodes y)
          · exact (seenIn y there).elim (here y) fun there => .inr (mem_side there)
          · exact outcome.imp_right fun ⟨seenEq, sEq⟩ => ⟨by rw [seenEq, List.append_assoc]; rfl, sEq⟩

/-- The bins behind one. -/
theorem nextBin {large : ℕ → Trie ℕ} (tries : Large g m large) {i : ℕ} (less : i < 32) :
    (leftBits (idx2bit i) &&& m.treemap = 0 ∧ ∀ j < 32, i < j → large j = leaf) ∨
    (leftBits (idx2bit i) &&& m.treemap ≠ 0 ∧ ∃ k < 32,
      computeBit2idx (leastBit (leftBits (idx2bit i) &&& m.treemap)) = k ∧ i < k ∧ large k ≠ leaf ∧
        ∀ j, i < j → j < k → large j = leaf) := by
  have bits : ∀ j < 32, (leftBits (idx2bit i) &&& m.treemap).testBit j =
    (decide (i < j) && m.treemap.testBit j) :=
    fun j less' => by rw [Nat.testBit_and, leftBits_testBit i less j less']
  have small : leftBits (idx2bit i) &&& m.treemap < 2 ^ 32 := by
    refine Nat.and_le_left.trans_lt
      (Nat.or_lt_two_pow (Nat.mod_lt _ (by decide)) (Nat.mod_lt _ (by decide)))
  generalize leftBits (idx2bit i) &&& m.treemap = leftbits at *
  apply (eq_or_ne leftbits 0).imp
  · intro none
    refine ⟨none, fun j less' above => not_not.1 fun some => ?_⟩
    have := bits j less'
    rw [none, (tries.marked j less').2 some] at this
    simp [above] at this
  · intro some
    obtain ⟨k, less', found, bit, first⟩ := leastBit_first small some
    rw [bits k less', Bool.and_eq_true, decide_eq_true_iff] at bit
    refine ⟨some, k, less', found, bit.1, (tries.marked k less').1 bit.2, fun j above below =>
      not_not.1 fun some => ?_⟩
    refine first j below ?_
    rw [bits j (by omega), (tries.marked j (by omega)).2 some]
    simp [above]

variable {large : ℕ → Trie ℕ} {i j k : ℕ}

/-- The chunks before and behind a bin. -/
theorem Large.before (tries : Large g m large) (size : LargeSize nb) (less : j < 32)
    (below : j < computeTreeIndex nb) (inside : y ∈ (large j).nodes) : m.chunksize y < nb := by
  have member := tries.member j less y inside
  by_contra fits
  have := size.index_mono member.size (not_lt.1 fits)
  rw [member.bin] at this
  omega

theorem Large.behind (tries : Large g m large) (size : LargeSize nb) (less : j < 32)
    (above : computeTreeIndex nb < j) (inside : y ∈ (large j).nodes) : nb < m.chunksize y := by
  have member := tries.member j less y inside
  by_contra fits
  have := member.size.index_mono size (not_lt.1 fits)
  rw [member.bin] at this
  omega

/-- The result of the search over the bins. -/
def Fits (m : Malloc) (nb : ℕ) (large : ℕ → Trie ℕ) (best : ℕ × ℕ) : Prop :=
  (best = (0, remainder 0 nb) ∧ ∀ i < 32, ∀ p ∈ (large i).nodes, m.chunksize p < nb) ∨
  ((∃ i < 32, best.1 ∈ (large i).nodes) ∧ nb ≤ m.chunksize best.1 ∧ best.2 = m.chunksize best.1 - nb ∧
    ∀ i < 32, ∀ p ∈ (large i).nodes, nb ≤ m.chunksize p → m.chunksize best.1 ≤ m.chunksize p)

/-- A chunk that is the best in its bin, the first bin with one that fits. -/
theorem fits_of_found (tries : Large g m large) (less : k < 32) (found : Found m nb seen best)
    (inside : ∀ y ∈ seen, y ∈ (large k).nodes) (some : best.1 ≠ 0)
    (least : ∀ p ∈ (large k).nodes, nb ≤ m.chunksize p → best.2 ≤ m.chunksize p - nb)
    (none : ∀ i < k, ∀ p ∈ (large i).nodes, m.chunksize p < nb) : Fits m nb large best := by
  obtain rfl | ⟨there, -, fits, -, eq⟩ := found.fits
  · exact absurd rfl some
  · have inBin := inside _ there
    refine .inr ⟨⟨k, less, inBin⟩, fits, eq, fun i less' p inside' fits' => ?_⟩
    obtain before | rfl | behind := Nat.lt_trichotomy i k
    · exact absurd (none i before p inside') (not_lt.2 fits')
    · have := least p inside' fits'
      omega
    · have member := tries.member k less _ inBin
      have member' := tries.member i less' p inside'
      by_contra greater
      have := member'.size.index_mono member.size (not_le.1 greater).le
      rw [member.bin, member'.bin] at this
      omega

/-- No chunk in the bin of the size fits: the search goes on at the next bin. -/
theorem leftmost_next (tries : Large g m large) (size : LargeSize nb)
    (none : ∀ p ∈ (large (computeTreeIndex nb)).nodes, m.chunksize p < nb) : ∃ best,
      m.leftmostLoop nb (if leftBits (idx2bit (computeTreeIndex nb)) &&& m.treemap ≠ 0 then
          m.treebins (computeBit2idx
            (leastBit (leftBits (idx2bit (computeTreeIndex nb)) &&& m.treemap))) else 0)
        (0, remainder 0 nb) Malloc.rounds = .ok best ∧ Fits m nb large best := by
  have less := size.index_lt
  have misfit : ∀ j < 32, j ≤ computeTreeIndex nb → ∀ p ∈ (large j).nodes, m.chunksize p < nb := by
    intro j less' le p inside
    obtain rfl | below := le.eq_or_lt
    · exact none p inside
    · exact tries.before size less' below inside
  obtain ⟨empty, leaves⟩ | ⟨some, k, less', eq, above, notLeaf, between⟩ := nextBin tries less
  · rw [if_neg (not_not.2 empty)]
    refine ⟨_, rfl, .inl ⟨rfl, fun j less' p inside => ?_⟩⟩
    obtain le | above := le_or_gt j (computeTreeIndex nb)
    · exact misfit j less' le p inside
    · rw [leaves j less' above] at inside
      exact absurd inside List.not_mem_nil
  · rw [if_pos some, eq]
    have rep := tries.rep k less'
    obtain ⟨best, run, found⟩ :=
      leftmostLoop_spec rep (tries.within k less') size.pos (size.less.trans (by decide))
      (fun y inside => (tries.member k less' y inside).size.less) (tries.null less') found_nil
      (show bitsLeft k + 1 < Malloc.rounds by
        have := bitsLeft_le less'
        simp only [Malloc.rounds]
        omega)
    have covered : ∀ p ∈ (large k).nodes, ∃ y ∈ [] ++ (large k).leftmost, nb ≤ m.chunksize y ∧
        m.chunksize y ≤ m.chunksize p := fun p inside => by
      obtain ⟨y, there, le⟩ := (tries.within k less').leftmost p inside
      exact ⟨y, there, (tries.behind size less' above (leftmost_subset y there)).le, le⟩
    have root := rep.mem fun null => notLeaf (rep.eq_zero_iff.1 null)
    have some' : best.1 ≠ 0 := by
      obtain ⟨y, there, fits, -⟩ := covered _ root
      exact (found.least y there fits).1
    refine ⟨best, run, fits_of_found tries less' found leftmost_subset some'
      (fun p inside fits => ?_) ?_⟩
    · obtain ⟨y, there, fits', le⟩ := covered p inside
      have := (found.least y there fits').2
      omega
    · intro j below p inside
      obtain le | behind := le_or_gt j (computeTreeIndex nb)
      · exact misfit j (by omega) le p inside
      · rw [between j behind below] at inside
        exact absurd inside List.not_mem_nil

/-- The search finds the smallest chunk that fits. -/
theorem bestFit_spec (tries : Large g m large) (size : LargeSize nb) :
    ∃ best, m.bestFit nb = .ok best ∧
    Fits m nb large best := by
  have less := size.index_lt
  have rep := tries.rep _ less
  have sizes : ∀ y ∈ (large (computeTreeIndex nb)).nodes, m.chunksize y < 2 ^ 40 := fun y inside =>
    (tries.member _ less y inside).size.less
  rw [Malloc.bestFit]
  dsimp only
  by_cases empty : m.treebins (computeTreeIndex nb) = 0
  · have leafBin := rep.eq_zero_iff.1 empty
    obtain ⟨best, run, fits⟩ := leftmost_next tries size (by rw [leafBin]; simp [Trie.nodes])
    rw [if_neg (not_not.2 empty)]
    refine ⟨best, ?_, fits⟩
    simpa using run
  · have notLeaf : large (computeTreeIndex nb) ≠ leaf :=
      fun leafBin => empty (rep.eq_zero_iff.2 leafBin)
    have enough : bitsLeft (computeTreeIndex nb) < Malloc.rounds :=
      (bitsLeft_le less).trans_lt (by decide)
    have restRep : Rep m leaf 0 0 := rfl
    obtain ⟨best, t, seen, s, q, run, found, rep', ⟨w, h, bits, within⟩, nodes, seenIn, outcome⟩ :=
      searchLoop_spec rep notLeaf (tries.within _ less) (tries.nodup _ less) size.pos
        (size.less.trans (by decide))
        sizes (tries.null less) restRep ⟨0, 0, by decide, trivial⟩ found_nil (bitsLeft_le less) enough
    have inBin : ∀ y ∈ s.nodes, y ∈ (large (computeTreeIndex nb)).nodes := fun y there =>
      (nodes y there).elim id fun none => absurd none List.not_mem_nil
    have seenBin : ∀ y ∈ seen, y ∈ (large (computeTreeIndex nb)).nodes := fun y there =>
      (seenIn y there).elim (fun none => absurd none List.not_mem_nil) id
    -- a chunk of the bin that fits is not smaller than one on the way or to the left behind it
    have covered : ∀ p ∈ (large (computeTreeIndex nb)).nodes, nb ≤ m.chunksize p →
      ∃ y ∈ seen ++ s.leftmost,
        nb ≤ m.chunksize y ∧ m.chunksize y ≤ m.chunksize p := by
      intro p inside fits
      obtain ⟨y, there, exactly⟩ | ⟨rfl, rfl⟩ := outcome
      · exact ⟨y, List.mem_append_left _ there, exactly.ge, exactly.le.trans fits⟩
      · have leafWithin : (leaf : Trie ℕ).Within m.chunksize 0 0 := trivial
        exact (tries.within _ less).search size.top_eq leafWithin (by simp [Trie.nodes]) p
          (List.mem_append_left _ inside) fits
    rw [if_pos empty, leftshift_eq less, run]
    show ∃ best', m.leftmostLoop nb (if t = 0 ∧ best.1 = 0 ∧ _ then _ else t) best Malloc.rounds =
      .ok best' ∧ _
    by_cases nothing : t = 0 ∧ best.1 = 0
    · obtain ⟨rfl, noBest⟩ := nothing
      have leafLast := rep'.eq_zero_iff.1 rfl
      have none : ∀ p ∈ (large (computeTreeIndex nb)).nodes, m.chunksize p < nb := by
        intro p inside
        by_contra fits
        obtain ⟨y, there, fits', -⟩ := covered p inside (not_lt.1 fits)
        rw [leafLast, Trie.leftmost, List.append_nil] at there
        exact (found.least y there fits').1 noBest
      obtain rfl : best = (0, remainder 0 nb) := found.fits.resolve_right fun best => best.2.1 noBest
      obtain ⟨best', run', fits⟩ := leftmost_next tries size none
      refine ⟨best', ?_, fits⟩
      simpa using run'
    · have enough' : w + 1 < Malloc.rounds := by
        simp only [Malloc.rounds]
        omega
      obtain ⟨best', run', found'⟩ :=
        leftmostLoop_spec rep' within size.pos (size.less.trans (by decide))
        (fun y there => sizes y (inBin y there))
          (fun there => tries.null less (inBin 0 there)) found enough'
      have all : ∀ y ∈ seen ++ s.leftmost, y ∈ (large (computeTreeIndex nb)).nodes := fun y there =>
        (List.mem_append.1 there).elim (seenBin y) fun there => inBin y (leftmost_subset y there)
      have known : ∃ y ∈ seen ++ s.leftmost, nb ≤ m.chunksize y := by
        by_cases stop : t = 0
        · obtain rfl | ⟨there, -, fits, -⟩ := found.fits
          · exact absurd ⟨stop, rfl⟩ nothing
          · exact ⟨best.1, List.mem_append_left _ there, fits⟩
        · obtain ⟨y, there, exactly⟩ | ⟨-, sEq⟩ := outcome
          · exact ⟨y, List.mem_append_left _ there, exactly.ge⟩
          · obtain ⟨y, there, -⟩ := within.leftmost t (rep'.mem stop)
            have leafBehind : ∀ x ∈ (leaf : Trie ℕ).nodes, nb < m.chunksize x := by simp [Trie.nodes]
            have behind := (tries.within _ less).search_behind size.top_eq leafBehind y
              (sEq ▸ leftmost_subset y there)
            exact ⟨y, List.mem_append_right _ there, behind.le⟩
      obtain ⟨z, there, fits⟩ := known
      rw [if_neg fun both => nothing ⟨both.1, both.2.1⟩]
      refine ⟨best', run', fits_of_found tries less found' all (found'.least z there fits).1
        (fun p inside fits => ?_) ?_⟩
      · obtain ⟨y, there, fits', le⟩ := covered p inside fits
        have := (found'.least y there fits').2
        omega
      · exact fun j below p inside => tries.before size (by omega) below inside

theorem computeTreeIndex_less (s : ℕ) : computeTreeIndex s < 32 := by
  rw [computeTreeIndex]
  dsimp only
  split
  · decide
  · split
    · decide
    · next some few =>
      have top : Nat.log2 (s >>> treebinShift % 2 ^ 32) < 16 := (Nat.log2_lt some).2 (by omega)
      rw [Nat.shiftLeft_eq, Nat.and_one_is_mod]
      omega

/-- No chunk fits a request of `2 ^ 40` bytes, wherever the search looks for one. -/
theorem bestFit_huge (tries : Large g m large) (huge : 2 ^ 40 ≤ nb) (wide : nb < 2 ^ 64) :
    m.bestFit nb = .ok (0, remainder 0 nb) := by
  have pos : 0 < nb := by omega
  have less := computeTreeIndex_less nb
  have rep := tries.rep _ less
  have sizes : ∀ i < 32, ∀ y ∈ (large i).nodes, m.chunksize y < 2 ^ 40 := fun i less y inside =>
    (tries.member i less y inside).size.less
  have nothing : ∀ {seen best}, Found m nb seen best → best = (0, remainder 0 nb) := fun found =>
    found.fits.resolve_right fun best => by omega
  have leftmost : ∀ {t : Trie ℕ} {p q w h : ℕ}, Rep m t p q → t.Within m.chunksize w h → w ≤ 64 →
      (∃ i < 32, ∀ y ∈ t.nodes, y ∈ (large i).nodes) →
      m.leftmostLoop nb p (0, remainder 0 nb) Malloc.rounds = .ok (0, remainder 0 nb) := by
    rintro t p q w h rep within bits ⟨i, less, inBin⟩
    obtain ⟨best, run, found⟩ :=
      leftmostLoop_spec rep within pos wide (fun y there => sizes i less y (inBin y there))
      (fun there => tries.null less (inBin 0 there)) found_nil (show w + 1 < Malloc.rounds by
        simp only [Malloc.rounds]
        omega)
    rw [run, nothing found]
  -- the trie where the search goes on is a side of this bin, or the next bin
  have last : ∀ {t : Trie ℕ} {p q w h : ℕ}, Rep m t p q → t.Within m.chunksize w h → w ≤ 64 →
      (∀ y ∈ t.nodes, y ∈ (large (computeTreeIndex nb)).nodes) →
      m.leftmostLoop nb
        (if p = 0 ∧ 0 = 0 ∧ leftBits (idx2bit (computeTreeIndex nb)) &&& m.treemap ≠ 0 then
          m.treebins (computeBit2idx
            (leastBit (leftBits (idx2bit (computeTreeIndex nb)) &&& m.treemap)))
        else p) (0, remainder 0 nb) Malloc.rounds = .ok (0, remainder 0 nb) := by
    intro t p q w h rep' within bits inBin
    split
    · next next =>
      obtain ⟨none, -⟩ | ⟨-, k, less', eq, -⟩ := nextBin tries less
      · exact absurd none next.2.2
      · rw [eq]
        exact leftmost (tries.rep k less') (tries.within k less') (bitsLeft_le less')
          ⟨k, less', fun _ => id⟩
    · exact leftmost rep' within bits ⟨_, less, inBin⟩
  have restRep : Rep m leaf 0 0 := rfl
  have restWithin : (leaf : Trie ℕ).Within m.chunksize 0 0 := trivial
  rw [Malloc.bestFit]
  dsimp only
  by_cases empty : m.treebins (computeTreeIndex nb) = 0
  · rw [if_neg (not_not.2 empty)]
    exact last restRep restWithin (by decide) (by simp [Trie.nodes])
  · have notLeaf : large (computeTreeIndex nb) ≠ leaf :=
      fun leafBin => empty (rep.eq_zero_iff.2 leafBin)
    have enough : bitsLeft (computeTreeIndex nb) < Malloc.rounds :=
      (bitsLeft_le less).trans_lt (by decide)
    obtain ⟨best, t, seen, s, q, run, found, rep', ⟨w, h, bits, within⟩, nodes, -, -⟩ :=
      searchLoop_spec rep notLeaf (tries.within _ less) (tries.nodup _ less) pos wide (sizes _ less)
        (tries.null less)
        restRep ⟨0, 0, by decide, restWithin⟩ found_nil (bitsLeft_le less) enough
    rw [if_pos empty, leftshift_eq less, run, nothing found]
    exact last rep' within bits fun y there => (nodes y there).elim id fun none =>
      absurd none List.not_mem_nil

/-! ## The chunk is taken -/

theorem chunksize_eq (m : Malloc) (p : ℕ) : m.chunksize p = m.head p % 2 ^ 64 / 8 * 8 :=
  Words.and_field (m.head p) 3 64 (by decide)

theorem chunksize_flags (flags : ℕ) {s : ℕ} (aligned : 8 ∣ s) (less : s < 2 ^ 40) (few : flags < 8)
    (head : m.head p = s ||| flags) : m.chunksize p = s := by
  have sum : s ||| flags = s + flags := Words.or_eq_add (n := 3) (Nat.mod_eq_zero_of_dvd aligned) few
  rw [chunksize_eq, head, sum]
  omega

/-- Free chunks are not adjacent, and do not lie in each other or in the bins. -/
def Apart (g : Statics) (m : Malloc) (chunks : Finset ℕ) : Prop :=
  ∀ p ∈ chunks, ∀ q, p < q → q ≤ p + m.chunksize p → q ∉ chunks ∧ ∀ i < 32, q ≠ smallbinAt g i

/-- A chunk that fits, none of those that do smaller. -/
structure BestFit (m : Malloc) (nb : ℕ) (chunks : Finset ℕ) (v : ℕ) : Prop where
  inside : v ∈ chunks
  fits : nb ≤ m.chunksize v
  least : ∀ p ∈ chunks, nb ≤ m.chunksize p → m.chunksize v ≤ m.chunksize p

/-- The search over the chunks in the bins. -/
theorem Holds.bestFit {chunks : Finset ℕ} (holds : Holds g m chunks) (size : LargeSize nb) : ∃ best,
    m.bestFit nb = .ok best ∧ ((best = (0, remainder 0 nb) ∧ ∀ p ∈ chunks, m.chunksize p < nb) ∨
      (BestFit m nb chunks best.1 ∧ best.2 = m.chunksize best.1 - nb ∧ Binnable g m best.1 ∧
        LargeSize (m.chunksize best.1))) := by
  obtain ⟨small, large, bins, tries, mem⟩ := holds
  obtain ⟨best, run, fits⟩ := bestFit_spec tries size
  have misfit : ∀ i < 32, ∀ p ∈ small i, m.chunksize p < nb := fun i less p inside =>
    (bins.less less inside).trans_le size.large
  refine ⟨best, run, fits.imp ?_ ?_⟩
  · rintro ⟨eq, none⟩
    refine ⟨eq, fun p inside => ?_⟩
    obtain ⟨i, less, inside⟩ | ⟨i, less, inside⟩ := (mem p).1 inside
    · exact misfit i less p inside
    · exact none i less p inside
  · rintro ⟨⟨i, less, inside⟩, fits, eq, least⟩
    have member := tries.member i less _ inside
    refine ⟨⟨(mem _).2 (.inr ⟨i, less, inside⟩), fits, fun p inside fits' => ?_⟩, eq,
      member.binnable, member.size⟩
    obtain ⟨j, less', inside⟩ | ⟨j, less', inside⟩ := (mem p).1 inside
    · exact absurd (misfit j less' p inside) (not_lt.2 fits')
    · exact least j less' p inside fits'

/-- The rest of a chunk that is taken goes to the bins if it is a chunk. -/
def Taken (g : Statics) (m m' : Malloc) (nb : ℕ) (chunks : Finset ℕ) (v : ℕ) : Prop :=
  (m.chunksize v < nb + 32 ∧ m'.chunksize v = m.chunksize v ∧ Holds g m' (chunks.erase v)) ∨
  (nb + 32 ≤ m.chunksize v ∧ m'.chunksize v = nb ∧ m'.chunksize (v + nb) = m.chunksize v - nb ∧
    Holds g m' (insert (v + nb) (chunks.erase v)))

/-- The bins do not see new heads of the chunk that was taken and of one behind it, nor a size at its
foot. -/
theorem Holds.reshape {chunks : Finset ℕ} {v : ℕ} (holds : Holds g m (chunks.erase v))
    (free : q ∉ chunks) (a b : ℕ) (foot : ℕ → ℕ) :
    Holds g { m with head := update (update m.head v a) q b, prevFoot := foot } (chunks.erase v) := by
  refine write_holds holds ⟨rfl, rfl, rfl, rfl, fun _ _ => ⟨rfl, rfl⟩, fun p inside => ?_⟩
  have notChunk : p ≠ v := Finset.ne_of_mem_erase inside
  have notNext : p ≠ q := fun eq => free (eq ▸ Finset.mem_of_mem_erase inside)
  exact ⟨⟨rfl, rfl, rfl, rfl⟩, rfl, (update_of_ne notNext ..).trans (update_of_ne notChunk ..)⟩

theorem setInuseAndPinuse_chunksize {v s : ℕ} (aligned : 8 ∣ s) (less : s < 2 ^ 40) (some : s ≠ 0) :
    (m.setInuseAndPinuse v s).chunksize v = s := by
  have other : v ≠ v + s := by omega
  refine chunksize_flags 3 aligned less (by decide) ?_
  rw [Malloc.setInuseAndPinuse]
  dsimp only
  rw [update_of_ne other, update_self, Nat.or_assoc]
  rfl

/-- The heads of a chunk in use and of a free one behind it. -/
theorem chunksize_split {v s : ℕ} (aligned : 8 ∣ nb) (less : nb < 2 ^ 40) (some : nb ≠ 0)
    (aligned' : 8 ∣ s) (less' : s < 2 ^ 40) :
    ((m.setSizeAndPinuseOfInuseChunk v nb).setSizeAndPinuseOfFreeChunk (v + nb) s).chunksize v = nb ∧
    ((m.setSizeAndPinuseOfInuseChunk v nb).setSizeAndPinuseOfFreeChunk (v + nb) s).chunksize
      (v + nb) = s := by
  have other : v ≠ v + nb := by omega
  constructor
  · refine chunksize_flags 3 aligned less (by decide) ?_
    rw [Malloc.setSizeAndPinuseOfFreeChunk, Malloc.setSizeAndPinuseOfInuseChunk]
    dsimp only
    rw [update_of_ne other, update_self, Nat.or_assoc]
    rfl
  · refine chunksize_flags 1 aligned' less' (by decide) ?_
    rw [Malloc.setSizeAndPinuseOfFreeChunk]
    exact update_self ..

theorem chunksize_dvd (m : Malloc) (p : ℕ) : 8 ∣ m.chunksize p := by
  rw [chunksize_eq]
  exact Nat.dvd_mul_left 8 _

section Take

variable {m₁ : Malloc} {chunks : Finset ℕ} {v : ℕ}

variable (func) in
/-- The rest of the chunk goes to the bins. -/
theorem insertRest_holds (holds : Holds g m₁ (chunks.erase v)) (kept : Kept m m₁)
    (apart : Apart g m chunks) (inside : v ∈ chunks) (binnable : Binnable g m v) (pos : 0 < nb)
    (aligned : 8 ∣ nb) (less : m.chunksize v < 2 ^ 40) (rest : nb + 32 ≤ m.chunksize v) : ∃ m',
    ((m₁.setSizeAndPinuseOfInuseChunk v nb).setSizeAndPinuseOfFreeChunk (v + nb)
      (m.chunksize v - nb)).insertChunk g
      func (v + nb) (m.chunksize v - nb) = .ok m' ∧ Holds g m' (insert (v + nb) (chunks.erase v)) ∧
    Kept ((m₁.setSizeAndPinuseOfInuseChunk v nb).setSizeAndPinuseOfFreeChunk (v + nb)
      (m.chunksize v - nb)) m' := by
  obtain ⟨free, notBin⟩ := apart v inside (v + nb) (by omega) (by omega)
  obtain ⟨m₂, eq⟩ : ∃ m₂, m₂ =
      (m₁.setSizeAndPinuseOfInuseChunk v nb).setSizeAndPinuseOfFreeChunk (v + nb)
        (m.chunksize v - nb) := ⟨_, rfl⟩
  have dvd : 8 ∣ m.chunksize v - nb := Nat.dvd_sub (chunksize_dvd m v) aligned
  have size : m₂.chunksize (v + nb) = m.chunksize v - nb := by
    rw [eq]
    exact (chunksize_split aligned (by omega) (by omega) dvd (by omega)).2
  have holds₂ : Holds g m₂ (chunks.erase v) := by
    rw [eq]
    exact holds.reshape free _ _ _
  have binnable₂ : Binnable g m₂ (v + nb) := by
    have leastAddr : m₂.leastAddr = m.leastAddr := by
      rw [eq]
      exact kept.leastAddr
    refine ⟨?_, by omega, notBin⟩
    have ok := binnable.ok
    rw [Malloc.okAddress] at ok ⊢
    omega
  have fresh : v + nb ∉ chunks.erase v := fun there => free (Finset.mem_of_mem_erase there)
  obtain ⟨m', run, holds', kept'⟩ :=
    insertChunk_holds func holds₂ fresh binnable₂ (size ▸ ⟨dvd, by omega⟩)
  rw [size] at run
  rw [← eq]
  exact ⟨m', run, holds', kept'⟩

/-- What is done with the chunk found. -/
theorem tmallocLarge_take {rsize : ℕ} (search : m.bestFit nb = .ok (v, rsize))
    (take : rsize < remainder m.dvsize nb) (binnable : Binnable g m v) (pos : 0 < nb)
    (unlink : m.unlinkLargeChunk func v = .ok m₁) :
    m.tmallocLarge g func nb =
      if rsize < minChunkSize then .ok (v + 16, m₁.setInuseAndPinuse v (rsize + nb))
      else ((m₁.setSizeAndPinuseOfInuseChunk v nb).setSizeAndPinuseOfFreeChunk (v + nb)
        rsize).insertChunk g func
        (v + nb) rsize >>= fun m => .ok (v + 16, m) := by
  rw [Malloc.tmallocLarge, search]
  show (if v ≠ 0 ∧ rsize < remainder m.dvsize nb then _ else _) = _
  rw [if_pos ⟨binnable.some, take⟩, if_pos ⟨binnable.ok, by omega⟩, unlink]
  rfl

variable (func) in
/-- `tmalloc_large` leaves all as it is, or takes the best fit out of the bins and then takes
it whole or splits it. -/
theorem tmallocLarge_cases (holds : Holds g m chunks) (size : LargeSize nb) (dv : m.dvsize < 2 ^ 40) :
    (m.tmallocLarge g func nb = .ok (0, m) ∧
      ∀ p ∈ chunks, nb ≤ m.chunksize p → nb ≤ m.dvsize ∧ m.dvsize ≤ m.chunksize p) ∨
    ∃ v m₁, BestFit m nb chunks v ∧ (nb ≤ m.dvsize → m.chunksize v < m.dvsize) ∧ Binnable g m v ∧
      LargeSize (m.chunksize v) ∧ Holds g m₁ (chunks.erase v) ∧ Kept m m₁ ∧
      ((m.chunksize v < nb + 32 ∧
          m.tmallocLarge g func nb = .ok (v + 16, m₁.setInuseAndPinuse v (m.chunksize v))) ∨
        (nb + 32 ≤ m.chunksize v ∧ m.tmallocLarge g func nb =
          ((m₁.setSizeAndPinuseOfInuseChunk v nb).setSizeAndPinuseOfFreeChunk (v + nb)
            (m.chunksize v - nb)).insertChunk
            g func (v + nb) (m.chunksize v - nb) >>= fun m => .ok (v + 16, m))) := by
  have small := size.less
  obtain ⟨⟨v, rsize⟩, search, ⟨eq, none⟩ | ⟨best, eq, binnable, sized⟩⟩ := holds.bestFit size
  · obtain ⟨rfl, -⟩ := Prod.mk.inj eq
    refine .inl ⟨?_, fun p inside fits => absurd (none p inside) (not_lt.2 fits)⟩
    rw [Malloc.tmallocLarge, search]
    rfl
  · dsimp only at best eq binnable sized
    subst eq
    have less := sized.less
    have fits := best.fits
    have worth : m.chunksize v - nb < remainder m.dvsize nb ↔
      (nb ≤ m.dvsize → m.chunksize v < m.dvsize) := by
      simp only [remainder]
      omega
    by_cases take : m.chunksize v - nb < remainder m.dvsize nb
    · obtain ⟨m₁, unlink, holds₁, kept⟩ := unlinkChunk_holds func holds best.inside
      rw [Malloc.unlinkChunk, if_neg sized.notSmall] at unlink
      have steps := tmallocLarge_take search take binnable size.pos unlink
      refine .inr ⟨v, m₁, best, worth.1 take, binnable, sized, holds₁, kept, ?_⟩
      by_cases rest : m.chunksize v - nb < minChunkSize
      · rw [if_pos rest, Nat.sub_add_cancel fits] at steps
        simp only [minChunkSize] at rest
        exact .inl ⟨by omega, steps⟩
      · rw [if_neg rest] at steps
        simp only [minChunkSize] at rest
        exact .inr ⟨by omega, steps⟩
    · refine .inl ⟨?_, fun p inside fits' => ?_⟩
      · rw [Malloc.tmallocLarge, search]
        exact if_neg fun both => take both.2
      · have := best.least p inside fits'
        rw [worth] at take
        omega

end Take

variable (func) in
/-- `tmalloc_large` takes the smallest chunk that fits, but leaves all as it is if there is none or
the designated victim fits and is not greater. -/
theorem tmallocLarge_spec {chunks : Finset ℕ} (holds : Holds g m chunks) (apart : Apart g m chunks)
    (size : LargeSize nb) (aligned : 8 ∣ nb) (dv : m.dvsize < 2 ^ 40) :
    (m.tmallocLarge g func nb = .ok (0, m) ∧ ∀ p ∈ chunks, nb ≤ m.chunksize p → nb ≤ m.dvsize ∧
      m.dvsize ≤ m.chunksize p) ∨
    ∃ v m', m.tmallocLarge g func nb = .ok (v + 16, m') ∧ BestFit m nb chunks v ∧
      (nb ≤ m.dvsize → m.chunksize v < m.dvsize) ∧ Taken g m m' nb chunks v := by
  have large := size.large
  refine (tmallocLarge_cases func holds size dv).imp_right ?_
  rintro ⟨v, m₁, best, worth, binnable, sized, holds₁, kept, ⟨rest, run⟩ | ⟨rest, run⟩⟩
  · have less := sized.large
    obtain ⟨free, -⟩ := apart v best.inside (v + m.chunksize v) (by omega) le_rfl
    refine ⟨v, _, run, best, worth, .inl ⟨rest, ?_, holds₁.reshape free _ _ _⟩⟩
    exact setInuseAndPinuse_chunksize (chunksize_dvd m v) sized.less (by omega)
  · have less := sized.less
    obtain ⟨m', run', holds', kept'⟩ :=
      insertRest_holds func holds₁ kept apart best.inside binnable size.pos aligned
      less rest
    have dvd : 8 ∣ m.chunksize v - nb := Nat.dvd_sub (chunksize_dvd m v) aligned
    obtain ⟨sizeTaken, sizeRest⟩ :=
      chunksize_split (m := m₁) (v := v) aligned size.less (by omega) dvd (by omega)
    rw [run'] at run
    refine ⟨v, m', run, best, worth, .inr ⟨rest, ?_, ?_, holds'⟩⟩
    · rw [kept'.chunksize, sizeTaken]
    · rw [kept'.chunksize, sizeRest]

end Search

theorem tmallocLarge_spec_oneChunk : ∃ m m' :
    Malloc, m.tmallocLarge ⟨16, 2048, by decide⟩ "dlmalloc" 1024 = .ok (8208, m') ∧
    m'.chunksize 8192 = 1024 ∧ m'.chunksize 9216 = 3072 := by
  have notBin : ∀ q, 8192 ≤ q → ∀ i < 32, q ≠ smallbinAt ⟨16, 2048, by decide⟩ i := by
    intro q above i less
    show q ≠ 16 + 16 * i
    omega
  have empty : Empty oneChunk := ⟨rfl, rfl, fun _ _ => rfl⟩
  have binnable : Binnable ⟨16, 2048, by decide⟩ oneChunk 8192 :=
    ⟨by decide, by decide, notBin 8192 le_rfl⟩
  obtain ⟨m, -, holds, kept⟩ :=
    insertChunk_holds "dlfree" empty.holds (Finset.notMem_empty 8192) binnable
    ⟨by decide, by decide⟩
  have size : ∀ p, m.chunksize p = 4096 := fun p => by
    rw [kept.chunksize, chunksize_eq]
    show 4097 % 2 ^ 64 / 8 * 8 = 4096
    omega
  have sized : LargeSize 1024 := ⟨by decide, by decide⟩
  have dvsize : m.dvsize = 0 := kept.dvsize
  have apart : Apart ⟨16, 2048, by decide⟩ m (insert 8192 ∅) := by
    intro p inside q above _
    obtain rfl : p = 8192 := by simpa using inside
    exact ⟨by simpa using above.ne', notBin q above.le⟩
  obtain ⟨-, none⟩ | ⟨v, m', run, best, -, taken⟩ := tmallocLarge_spec "dlmalloc" holds apart
    sized (by decide) (by rw [dvsize]; decide)
  · obtain ⟨fits, -⟩ := none 8192 (Finset.mem_insert_self ..) (by rw [size]; decide)
    rw [dvsize] at fits
    exact absurd fits (by decide)
  · obtain rfl : v = 8192 := by simpa using best.inside
    obtain ⟨small, -, -⟩ | ⟨-, here, rest, -⟩ := taken
    · rw [size] at small
      exact absurd small (by decide)
    · exact ⟨m, m', run, here, rest.trans (by rw [size])⟩

end Vineyard.Heap

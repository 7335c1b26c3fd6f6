import Vineyard.Heap.Tmalloc

/-!
# Requests

`dlmalloc` up to the call of `sys_alloc`.  A small request takes a chunk from the ring of its size or
of the next one; the rest of any other chunk that it splits becomes the designated victim.  A large
request takes the best fit.  When the bins have nothing, the designated victim serves the request, or
the top.  Over a run of requests no two memories overlap, and the system is asked only when no free
chunk fits.  `dlcalloc` asks for the product of its arguments, or for more than there is.
-/

namespace Vineyard.Heap

open Function Tries Trie

def minRequest : ℕ := minChunkSize - chunkOverhead - 1
def maxRequest : ℕ := 2 ^ 64 - minChunkSize <<< 2
def minLargeSize : ℕ := 1 <<< treebinShift
def maxSmallSize : ℕ := minLargeSize - 1
def maxSmallRequest : ℕ := maxSmallSize - chunkAlignMask - chunkOverhead

/-- `pad_request` -/
def padRequest (req : ℕ) : ℕ :=
  (req + chunkOverhead + chunkAlignMask) % 2 ^ 64 &&& (2 ^ 64 - 1 - chunkAlignMask)

/-- `request2size` -/
def request2size (req : ℕ) : ℕ := if req < minRequest then minChunkSize else padRequest req

/-- The 32 bits of a `binmap_t`. -/
def binmap (x : ℕ) : ℕ := x % 2 ^ 32

/-- `req` of `dlcalloc`. -/
def callocRequest (nElements elemSize : ℕ) : ℕ :=
  if nElements ≠ 0 then
    let req := nElements * elemSize % 2 ^ 64
    if (nElements ||| elemSize) &&& (2 ^ 64 - 1 - 0xffff) ≠ 0 ∧ req / nElements ≠ elemSize then
      2 ^ 64 - 1
    else req
  else 0

/-- What `dlmalloc` comes to: memory, or a call of `sys_alloc`. -/
inductive Answer where
  | memory (mem : ℕ) (m : Malloc)
  | sysAlloc (nb : ℕ) (m : Malloc)

namespace Malloc

variable (g : Statics) (func : String) (m : Malloc)

/-- `replace_dv` -/
def replaceDv (p s : ℕ) : Except Fault Malloc := do
  let m ← if m.dvsize ≠ 0 then m.insertSmallChunk g func m.dv m.dvsize else pure m
  pure { m with dvsize := s, dv := p }

def tmallocSmall (nb : ℕ) : Except Fault (ℕ × Malloc) := do
  let i := computeBit2idx (leastBit (binmap m.treemap))
  let t := m.treebins i
  let (v, rsize) ← m.leftmostLoop nb (m.leftmostChild t) (t, remainder (m.chunksize t) nb) rounds
  if m.okAddress v ∧ v < v + nb then
    let m ← m.unlinkLargeChunk func v
    if rsize < minChunkSize then pure (v + 16, m.setInuseAndPinuse v (rsize + nb))
    else
      let m := (m.setSizeAndPinuseOfInuseChunk v nb).setSizeAndPinuseOfFreeChunk (v + nb) rsize
      let m ← m.replaceDv g func (v + nb) rsize
      pure (v + 16, m)
  else abort func

/-- The remainderless fit of `dlmalloc`, in the ring of the size or the next one. -/
def exactFit (idx smallbits : ℕ) : Except Fault Answer := do
  let idx := idx + ((2 ^ 32 - 1 - smallbits) &&& 1)
  let b := smallbinAt g idx
  let p := m.fd b
  let m ← m.unlinkFirstSmallChunk func b p idx
  pure (.memory (p + 16) (m.setInuseAndPinuse p (smallIndex2size idx)))

/-- The next ring of `dlmalloc` that is not empty. -/
def nextFit (nb idx smallbits : ℕ) : Except Fault Answer := do
  let leftbits := smallbits <<< idx % 2 ^ 32 &&& leftBits (idx2bit idx)
  let i := computeBit2idx (leastBit leftbits)
  let b := smallbinAt g i
  let p := m.fd b
  let m ← m.unlinkFirstSmallChunk func b p i
  let rsize := remainder (smallIndex2size i) nb
  if rsize < minChunkSize then pure (.memory (p + 16) (m.setInuseAndPinuse p (smallIndex2size i)))
  else
    let m := (m.setSizeAndPinuseOfInuseChunk p nb).setSizeAndPinuseOfFreeChunk (p + nb) rsize
    let m ← m.replaceDv g func (p + nb) rsize
    pure (.memory (p + 16) m)

/-- The designated victim is split or exhausted. -/
def takeDv (nb : ℕ) : Answer :=
  let rsize := m.dvsize - nb
  let p := m.dv
  if rsize ≥ minChunkSize then
    let r := p + nb
    let m := { m with dv := r, dvsize := rsize }
    .memory (p + 16) ((m.setSizeAndPinuseOfFreeChunk r rsize).setSizeAndPinuseOfInuseChunk p nb)
  else
    let dvs := m.dvsize
    let m := { m with dvsize := 0, dv := 0 }
    .memory (p + 16) (m.setInuseAndPinuse p dvs)

def splitTop (nb : ℕ) : Answer :=
  let rsize := m.topsize - nb
  let p := m.top
  let r := p + nb
  let m := { m with topsize := rsize, top := r }
  let m := { m with head := update m.head r (rsize ||| pinuseBit) }
  .memory (p + 16) (m.setSizeAndPinuseOfInuseChunk p nb)

/-- `dlmalloc` when the bins have nothing. -/
def withoutBins (nb : ℕ) : Answer :=
  if nb ≤ m.dvsize then m.takeDv nb
  else if nb < m.topsize then m.splitTop nb
  else .sysAlloc nb m

/-- `dlmalloc` up to the call of `sys_alloc`. -/
def dlmalloc (bytes : ℕ) : Except Fault Answer :=
  if bytes ≤ maxSmallRequest then
    let nb := if bytes < minRequest then minChunkSize else padRequest bytes
    let idx := smallIndex nb
    let smallbits := binmap m.smallmap >>> idx
    if smallbits &&& 3 ≠ 0 then m.exactFit g "dlmalloc" idx smallbits
    else if nb > m.dvsize then
      if smallbits ≠ 0 then m.nextFit g "dlmalloc" nb idx smallbits
      else if binmap m.treemap ≠ 0 then do
        let (mem, m) ← m.tmallocSmall g "tmalloc_small" nb
        if mem ≠ 0 then pure (.memory mem m) else pure (m.withoutBins nb)
      else pure (m.withoutBins nb)
    else pure (m.withoutBins nb)
  else if bytes ≥ maxRequest then pure (m.withoutBins (2 ^ 64 - 1))
  else
    let nb := padRequest bytes
    if binmap m.treemap ≠ 0 then do
      let (mem, m) ← m.tmallocLarge g "tmalloc_large" nb
      if mem ≠ 0 then pure (.memory mem m) else pure (m.withoutBins nb)
    else pure (m.withoutBins nb)

/-- `dlcalloc`, with the number of bytes that it clears, up to the call of `sys_alloc`. -/
def dlcalloc (nElements elemSize : ℕ) : Except Fault (Answer × ℕ) := do
  let req := callocRequest nElements elemSize
  let answer ← m.dlmalloc g req
  match answer with
  | .memory mem _ => pure (answer, if mem ≠ 0 then req else 0)
  | .sysAlloc .. => pure (answer, 0)

end Malloc

/-! ## The free chunks -/

/-- The chunks in the bins, the designated victim and the top. -/
def free (m : Malloc) (chunks : Finset ℕ) : Finset ℕ :=
  chunks ∪ (if m.dvsize = 0 then ∅ else {m.dv}) ∪ if m.topsize = 0 then ∅ else {m.top}

/-- The free chunks are apart, and each is in one place. -/
structure Sound (g : Statics) (m : Malloc) (chunks : Finset ℕ) : Prop where
  holds : Holds g m chunks
  apart : Apart g m (free m chunks)
  binnable : ∀ p ∈ free m chunks, Binnable g m p
  less : ∀ p ∈ free m chunks, m.chunksize p < 2 ^ 40
  dv : m.dvsize ≠ 0 → m.dv ∉ chunks ∧ m.chunksize m.dv = m.dvsize
  top : m.topsize ≠ 0 → m.top ∉ chunks ∧ m.chunksize m.top = m.topsize
  topNotDv : m.topsize ≠ 0 → m.dvsize ≠ 0 → m.top ≠ m.dv

/-- The chunk `v` is no longer free, but for what is behind its first `nb` bytes if it is split. -/
structure Carved (m m' : Malloc) (nb : ℕ) (before after : Finset ℕ) (v : ℕ) : Prop where
  inside : v ∈ before
  fits : nb ≤ m.chunksize v
  leastAddr : m'.leastAddr = m.leastAddr
  kept : ∀ p ∈ before, p ≠ v → m'.chunksize p = m.chunksize p
  rest : (m.chunksize v < nb + 32 ∧ m'.chunksize v = m.chunksize v ∧ ∀ p, p ∈ after ↔ p ≠ v ∧
    p ∈ before) ∨
    (nb < m.chunksize v ∧ m'.chunksize v = nb ∧ m'.chunksize (v + nb) = m.chunksize v - nb ∧
      ∀ p, p ∈ after ↔ p = v + nb ∨ p ≠ v ∧ p ∈ before)

section Chunks

variable {g : Statics} {func : String} {m m' m₁ : Malloc} {chunks chunks' before after : Finset ℕ}
  {nb p q v : ℕ}

theorem mem_free : p ∈ free m chunks ↔ p ∈ chunks ∨ (m.dvsize ≠ 0 ∧ p = m.dv) ∨
      (m.topsize ≠ 0 ∧ p = m.top) := by
  rw [free, Finset.mem_union, Finset.mem_union, or_assoc]
  split <;> split <;> simp [*]

/-- Where the chunks that are free now come from. -/
theorem Carved.origin (carved : Carved m m' nb before after v) (inside : p ∈ after) :
    (p ≠ v ∧ p ∈ before ∧ m'.chunksize p = m.chunksize p) ∨
    (p = v + nb ∧ nb < m.chunksize v ∧ m'.chunksize p = m.chunksize v - nb) := by
  have old : p ≠ v ∧ p ∈ before → p ≠ v ∧ p ∈ before ∧ m'.chunksize p = m.chunksize p :=
    fun ⟨other, old⟩ =>
    ⟨other, old, carved.kept p old other⟩
  obtain ⟨-, -, mem⟩ | ⟨less, -, size, mem⟩ := carved.rest
  · exact .inl (old ((mem p).1 inside))
  · obtain rfl | there := (mem p).1 inside
    · exact .inr ⟨rfl, less, size⟩
    · exact .inl (old there)

theorem Carved.apart (carved : Carved m m' nb before after v) (pos : 0 < nb)
    (apart : Apart g m before) :
    Apart g m' after := by
  have here := apart v carved.inside
  intro p inside q above below
  obtain ⟨other, old, size⟩ | ⟨rfl, less, size⟩ := carved.origin inside
  · rw [size] at below
    obtain ⟨notFree, notBin⟩ := apart p old q above below
    refine ⟨fun there => ?_, notBin⟩
    obtain ⟨-, old', -⟩ | ⟨rfl, less, -⟩ := carved.origin there
    · exact notFree old'
    · -- the new chunk lies in the old one, which does not lie in `p` nor around it
      obtain before' | behind := Nat.lt_or_gt_of_ne other
      · exact (apart p old v before' (by omega)).1 carved.inside
      · exact (here p behind (by omega)).1 old
  · rw [size] at below
    obtain ⟨notFree, notBin⟩ := here q (by omega) (by omega)
    refine ⟨fun there => ?_, notBin⟩
    obtain ⟨-, old', -⟩ | ⟨same, -, -⟩ := carved.origin there
    · exact notFree old'
    · exact above.ne' same

/-- The heap after a chunk is taken. -/
theorem Carved.sound (carved : Carved m m' nb (free m chunks) (free m' chunks') v)
    (sound : Sound g m chunks) (pos : 0 < nb) (holds : Holds g m' chunks')
    (dv : m'.dvsize ≠ 0 → m'.dv ∉ chunks' ∧ m'.chunksize m'.dv = m'.dvsize)
    (top : m'.topsize ≠ 0 → m'.top ∉ chunks' ∧ m'.chunksize m'.top = m'.topsize)
    (topNotDv : m'.topsize ≠ 0 → m'.dvsize ≠ 0 → m'.top ≠ m'.dv) : Sound g m' chunks' := by
  have ok : ∀ {p}, m'.okAddress p ↔ m.leastAddr ≤ p := by
    intro p
    rw [Malloc.okAddress, carved.leastAddr]
  refine ⟨holds, carved.apart pos sound.apart, fun p inside => ?_, fun p inside =>
    ?_, dv, top, topNotDv⟩
  · obtain ⟨-, old, -⟩ | ⟨rfl, less, -⟩ := carved.origin inside
    · have binnable := sound.binnable p old
      exact ⟨ok.2 binnable.ok, binnable.some, binnable.chunk⟩
    · have binnable := sound.binnable v carved.inside
      refine ⟨ok.2 ((show m.leastAddr ≤ v from binnable.ok).trans (by omega)), by omega, ?_⟩
      exact (sound.apart v carved.inside _ (by omega) (by omega)).2
  · obtain ⟨-, old, size⟩ | ⟨rfl, -, size⟩ := carved.origin inside
    · rw [size]
      exact sound.less p old
    · rw [size]
      exact (Nat.sub_le ..).trans_lt (sound.less v carved.inside)

/-- New heads of a free chunk and of an address in its memory or behind it leave the other free chunks
alone. -/
theorem Sound.others (sound : Sound g m chunks) (inside : v ∈ free m chunks) (above : v < q)
    (below : q ≤ v + m.chunksize v) (head : ∀ p, p ≠ v → p ≠ q → m'.head p = m.head p) :
    ∀ p ∈ free m chunks, p ≠ v → m'.chunksize p = m.chunksize p := by
  intro p there other
  have notNext : p ≠ q := fun same => (sound.apart v inside q above below).1 (same ▸ there)
  rw [Malloc.chunksize, Malloc.chunksize, head p other notNext]

theorem Sound.dvsize_less (sound : Sound g m chunks) : m.dvsize < 2 ^ 40 := by
  obtain none | some := eq_or_ne m.dvsize 0
  · omega
  · rw [← (sound.dv some).2]
    exact sound.less m.dv (mem_free.2 (.inr (.inl ⟨some, rfl⟩)))

theorem Sound.topsize_less (sound : Sound g m chunks) : m.topsize < 2 ^ 40 := by
  obtain none | some := eq_or_ne m.topsize 0
  · omega
  · rw [← (sound.top some).2]
    exact sound.less m.top (mem_free.2 (.inr (.inr ⟨some, rfl⟩)))

/-! ## Chunks of the bins -/

/-- The designated victim and the top are where they were. -/
structure Placed (m m' : Malloc) : Prop where
  dvsize : m'.dvsize = m.dvsize
  dv : m'.dv = m.dv
  topsize : m'.topsize = m.topsize
  top : m'.top = m.top

theorem Placed.mem_free (placed : Placed m m') :
    p ∈ free m' chunks' ↔ p ∈ chunks' ∨ (m.dvsize ≠ 0 ∧ p = m.dv) ∨ (m.topsize ≠ 0 ∧ p = m.top) := by
  rw [Heap.mem_free, placed.dvsize, placed.dv, placed.topsize, placed.top]

theorem Sound.dv_ne (sound : Sound g m chunks) (inside : v ∈ chunks)
    (some : m.dvsize ≠ 0) : m.dv ≠ v :=
  fun same => (sound.dv some).1 (same ▸ inside)

theorem Sound.top_ne (sound : Sound g m chunks) (inside : v ∈ chunks) (some : m.topsize ≠ 0) :
    m.top ≠ v :=
  fun same => (sound.top some).1 (same ▸ inside)

theorem free_of_chunk (inside : v ∈ chunks) : v ∈ free m chunks :=
  mem_free.2 (.inl inside)

theorem free_dv (some : m.dvsize ≠ 0) : m.dv ∈ free m chunks :=
  mem_free.2 (.inr (.inl ⟨some, rfl⟩))

theorem free_top (some : m.topsize ≠ 0) : m.top ∈ free m chunks :=
  mem_free.2 (.inr (.inr ⟨some, rfl⟩))

/-- A top that is where it was is still free. -/
theorem Carved.top_kept (carved : Carved m m' nb (free m chunks) after v) (sound : Sound g m chunks)
    (topsize : m'.topsize = m.topsize) (top : m'.top = m.top) (other : m.topsize ≠ 0 → m.top ≠ v)
    (old : m.topsize ≠ 0 → m.top ∈ chunks' → m.top ∈ chunks) :
    m'.topsize ≠ 0 → m'.top ∉ chunks' ∧ m'.chunksize m'.top = m'.topsize := by
  rw [topsize, top]
  intro some
  rw [carved.kept m.top (free_top some) (other some)]
  exact ⟨fun there => (sound.top some).1 (old some there), (sound.top some).2⟩

/-- A designated victim that is where it was is still free. -/
theorem Carved.dv_kept (carved : Carved m m' nb (free m chunks) after v) (sound : Sound g m chunks)
    (dvsize : m'.dvsize = m.dvsize) (dv : m'.dv = m.dv) (other : m.dvsize ≠ 0 → m.dv ≠ v)
    (old : m.dvsize ≠ 0 → m.dv ∈ chunks' → m.dv ∈ chunks) :
    m'.dvsize ≠ 0 → m'.dv ∉ chunks' ∧ m'.chunksize m'.dv = m'.dvsize := by
  rw [dvsize, dv]
  intro some
  rw [carved.kept m.dv (free_dv some) (other some)]
  exact ⟨fun there => (sound.dv some).1 (old some there), (sound.dv some).2⟩

/-- A chunk of the bins is carved, and the bins may get the rest of it. -/
theorem Sound.carve (sound : Sound g m chunks) (inside : v ∈ chunks) (placed : Placed m m')
    (carved : Carved m m' nb (free m chunks) (free m' chunks') v) (pos : 0 < nb)
    (holds : Holds g m' chunks') (old : ∀ p ∈ free m chunks, p ∈ chunks' → p ∈ chunks) :
    Sound g m' chunks' := by
  refine carved.sound sound pos holds ?_ ?_ ?_
  · exact carved.dv_kept sound placed.dvsize placed.dv (sound.dv_ne inside) fun some =>
      old m.dv (free_dv some)
  · exact carved.top_kept sound placed.topsize placed.top (sound.top_ne inside) fun some =>
      old m.top (free_top some)
  · rw [placed.dvsize, placed.dv, placed.topsize, placed.top]
    exact sound.topNotDv

/-- A chunk of the bins is taken as it is. -/
theorem Sound.whole (sound : Sound g m chunks) (inside : v ∈ chunks) (kept : Kept m m₁)
    (holds : Holds g m₁ (chunks.erase v)) (pos : 0 < nb) (fits : nb ≤ m.chunksize v)
    (rest : m.chunksize v < nb + 32) :
    Carved m (m₁.setInuseAndPinuse v (m.chunksize v)) nb (free m chunks)
      (free (m₁.setInuseAndPinuse v (m.chunksize v)) (chunks.erase v)) v ∧
    Sound g (m₁.setInuseAndPinuse v (m.chunksize v)) (chunks.erase v) := by
  have there := free_of_chunk (m := m) inside
  have placed : Placed m (m₁.setInuseAndPinuse v (m.chunksize v)) :=
    ⟨kept.dvsize, kept.dv, kept.topsize, kept.top⟩
  obtain ⟨notFree, -⟩ := sound.apart v there (v + m.chunksize v) (by omega) le_rfl
  have notChunk : v + m.chunksize v ∉ chunks := fun inside => notFree (free_of_chunk inside)
  have carved : Carved m (m₁.setInuseAndPinuse v (m.chunksize v)) nb (free m chunks)
      (free (m₁.setInuseAndPinuse v (m.chunksize v)) (chunks.erase v)) v := by
    refine ⟨there, fits, kept.leastAddr, ?_, .inl ⟨rest, ?_, fun p => ?_⟩⟩
    · refine sound.others there (show v < v + m.chunksize v by omega) le_rfl fun p other other' => ?_
      exact (update_of_ne other' ..).trans ((update_of_ne other ..).trans (congrFun kept.head p))
    · exact setInuseAndPinuse_chunksize (chunksize_dvd m v) (sound.less v there) (by omega)
    · rw [placed.mem_free, mem_free, Finset.mem_erase, and_or_left, and_or_left]
      refine or_congr_right (or_congr ?_ ?_)
      · exact ⟨fun dv => ⟨dv.2 ▸ sound.dv_ne inside dv.1, dv⟩, And.right⟩
      · exact ⟨fun top => ⟨top.2 ▸ sound.top_ne inside top.1, top⟩, And.right⟩
  exact ⟨carved, sound.carve inside placed carved pos (holds.reshape notChunk _ _ _) fun p _ =>
    Finset.mem_of_mem_erase⟩

/-- The heads of a free chunk that is split. -/
theorem Sound.carved_split (sound : Sound g m chunks) (there : v ∈ free m chunks) (pos : 0 < nb)
    (aligned : 8 ∣ nb) (less : nb < m.chunksize v) (leastAddr : m'.leastAddr = m.leastAddr)
    (head : m'.head = update (update m.head v (nb ||| pinuseBit ||| cinuseBit)) (v + nb)
      (m.chunksize v - nb ||| pinuseBit))
    (mem : ∀ p, p ∈ after ↔ p = v + nb ∨ p ≠ v ∧ p ∈ free m chunks) :
    Carved m m' nb (free m chunks) after v := by
  have small := sound.less v there
  have other : v ≠ v + nb := by omega
  refine ⟨there, less.le, leastAddr, ?_, .inr ⟨less, ?_, ?_, mem⟩⟩
  · refine sound.others there (show v < v + nb by omega) (by omega) fun p notChunk notNext => ?_
    rw [head, update_of_ne notNext, update_of_ne notChunk]
  · refine chunksize_flags 3 aligned (by omega) (by decide) ?_
    rw [head, update_of_ne other, update_self, Nat.or_assoc]
    rfl
  · refine chunksize_flags 1 (Nat.dvd_sub (chunksize_dvd m v) aligned) (by omega) (by decide) ?_
    rw [head, update_self]
    rfl

variable (func) in
/-- A chunk of the bins is split, and the rest goes to the bins. -/
theorem Sound.splitBins (sound : Sound g m chunks) (inside : v ∈ chunks) (kept : Kept m m₁)
    (holds : Holds g m₁ (chunks.erase v)) (pos : 0 < nb) (aligned : 8 ∣ nb)
    (rest : nb + 32 ≤ m.chunksize v) : ∃ m',
    ((m₁.setSizeAndPinuseOfInuseChunk v nb).setSizeAndPinuseOfFreeChunk (v + nb)
      (m.chunksize v - nb)).insertChunk g
      func (v + nb) (m.chunksize v - nb) = .ok m' ∧
    Carved m m' nb (free m chunks) (free m' (insert (v + nb) (chunks.erase v))) v ∧
    Sound g m' (insert (v + nb) (chunks.erase v)) := by
  have there := free_of_chunk (m := m) inside
  have apart : Apart g m chunks := fun p inside q above below =>
    ⟨fun there => (sound.apart p (free_of_chunk inside) q above below).1 (free_of_chunk there),
      (sound.apart p (free_of_chunk inside) q above below).2⟩
  obtain ⟨m', run, holds', kept'⟩ :=
    insertRest_holds func holds kept apart inside (sound.binnable v there) pos aligned
    (sound.less v there) rest
  have placed : Placed m m' := ⟨kept'.dvsize.trans kept.dvsize, kept'.dv.trans kept.dv,
    kept'.topsize.trans kept.topsize, kept'.top.trans kept.top⟩
  have head : m'.head = update (update m.head v (nb ||| pinuseBit ||| cinuseBit)) (v + nb)
      (m.chunksize v - nb ||| pinuseBit) := by
    rw [kept'.head, ← kept.head]
    rfl
  have carved : Carved m m' nb (free m chunks) (free m' (insert (v + nb) (chunks.erase v))) v := by
    refine sound.carved_split there pos aligned (by omega)
      (kept'.leastAddr.trans kept.leastAddr) head fun p => ?_
    rw [placed.mem_free, mem_free, Finset.mem_insert, Finset.mem_erase, and_or_left,
      and_or_left, or_assoc]
    refine or_congr_right (or_congr_right (or_congr ?_ ?_))
    · exact ⟨fun dv => ⟨dv.2 ▸ sound.dv_ne inside dv.1, dv⟩, And.right⟩
    · exact ⟨fun top => ⟨top.2 ▸ sound.top_ne inside top.1, top⟩, And.right⟩
  refine ⟨m', run, carved, sound.carve inside placed carved pos holds' fun p free there' => ?_⟩
  obtain rfl | there' := Finset.mem_insert.1 there'
  · exact absurd free (sound.apart v there _ (by omega) (by omega)).1
  · exact Finset.mem_of_mem_erase there'

/-- The bins after the designated victim has gone to them. -/
def withVictim (m : Malloc) (chunks : Finset ℕ) : Finset ℕ :=
  if m.dvsize = 0 then chunks else insert m.dv chunks

theorem mem_withVictim : p ∈ withVictim m chunks ↔ (m.dvsize ≠ 0 ∧ p = m.dv) ∨ p ∈ chunks := by
  rw [withVictim]
  split <;> simp [*]

variable (func) in
/-- `replace_dv`, of a designated victim that is small. -/
theorem replaceDv_holds {s : ℕ} (holds : Holds g m chunks)
    (dv : m.dvsize ≠ 0 → m.dv ∉ chunks ∧ Binnable g m m.dv ∧
    m.chunksize m.dv = m.dvsize) (small : m.dvsize < 256) : ∃ m₁, Kept m m₁ ∧
    m.replaceDv g func p s = .ok { m₁ with dvsize := s, dv := p } ∧
    Holds g { m₁ with dvsize := s, dv := p } (withVictim m chunks) := by
  rw [Malloc.replaceDv, withVictim]
  by_cases none : m.dvsize = 0
  · rw [if_neg (not_not.2 none), if_pos none]
    refine ⟨m, ⟨rfl, rfl, rfl, rfl, rfl, rfl, rfl⟩, rfl, write_holds holds ?_⟩
    refine ⟨rfl, rfl, rfl, rfl, fun _ _ => ⟨rfl, rfl⟩, ?_⟩
    exact fun p _ => ⟨⟨rfl, rfl, rfl, rfl⟩, rfl, rfl⟩
  · obtain ⟨fresh, binnable, size⟩ := dv none
    obtain ⟨m₁, run, holds', kept⟩ :=
      insertChunk_holds func holds fresh binnable ⟨chunksize_dvd m m.dv, by omega⟩
    rw [size, Malloc.insertChunk, if_pos (isSmall_iff.2 small)] at run
    rw [if_pos none, if_neg none, run]
    refine ⟨m₁, kept, rfl, write_holds holds' ⟨rfl, rfl, rfl, rfl, fun _ _ => ⟨rfl, rfl⟩, ?_⟩⟩
    exact fun p _ => ⟨⟨rfl, rfl, rfl, rfl⟩, rfl, rfl⟩

variable (func) in
/-- A chunk of the bins is split, and the rest becomes the designated victim. -/
theorem Sound.splitVictim (sound : Sound g m chunks) (inside : v ∈ chunks) (kept : Kept m m₁)
    (holds : Holds g m₁ (chunks.erase v)) (pos : 0 < nb) (aligned : 8 ∣ nb)
    (rest : nb + 32 ≤ m.chunksize v) (small : m.dvsize < 256) : ∃ m',
    ((m₁.setSizeAndPinuseOfInuseChunk v nb).setSizeAndPinuseOfFreeChunk (v + nb)
      (m.chunksize v - nb)).replaceDv g
      func (v + nb) (m.chunksize v - nb) = .ok m' ∧
    Carved m m' nb (free m chunks) (free m' (withVictim m (chunks.erase v))) v ∧
    Sound g m' (withVictim m (chunks.erase v)) := by
  have there := free_of_chunk (m := m) inside
  obtain ⟨notFree, -⟩ := sound.apart v there (v + nb) (by omega) (by omega)
  obtain ⟨m₂, eq⟩ : ∃ m₂, m₂ =
      (m₁.setSizeAndPinuseOfInuseChunk v nb).setSizeAndPinuseOfFreeChunk (v + nb)
        (m.chunksize v - nb) := ⟨_, rfl⟩
  obtain ⟨dvsize, dv, topsize, top⟩ : Placed m m₂ := by
    rw [eq]
    exact ⟨kept.dvsize, kept.dv, kept.topsize, kept.top⟩
  have leastAddr : m₂.leastAddr = m.leastAddr := by
    rw [eq]
    exact kept.leastAddr
  have head : m₂.head = update (update m.head v (nb ||| pinuseBit ||| cinuseBit)) (v + nb)
      (m.chunksize v - nb ||| pinuseBit) := by
    rw [eq, ← kept.head]
    rfl
  have holds₂ : Holds g m₂ (chunks.erase v) := by
    rw [eq]
    exact holds.reshape (fun inside => notFree (free_of_chunk inside)) _ _ _
  have same : ∀ p ∈ free m chunks, p ≠ v → m₂.chunksize p = m.chunksize p := by
    refine sound.others there (show v < v + nb by omega) (by omega) fun p notChunk notNext => ?_
    rw [head, update_of_ne notNext, update_of_ne notChunk]
  rw [← eq]
  have victim : m₂.dvsize ≠ 0 → m₂.dv ∉ chunks.erase v ∧ Binnable g m₂ m₂.dv ∧
    m₂.chunksize m₂.dv = m₂.dvsize := by
    rw [dvsize, dv]
    intro some
    have free : m.dv ∈ free m chunks := free_dv some
    have binnable := sound.binnable _ free
    obtain ⟨notIn, size⟩ := sound.dv some
    refine ⟨fun there => notIn (Finset.mem_of_mem_erase there),
      ⟨?_, binnable.some, binnable.chunk⟩, ?_⟩
    · rw [Malloc.okAddress, leastAddr]
      exact binnable.ok
    · rw [same _ free (sound.dv_ne inside some), size]
  obtain ⟨m₃, kept₃, run, holds₃⟩ :=
    replaceDv_holds func (p := v + nb) (s := m.chunksize v - nb) holds₂ victim
    (by rw [dvsize]; exact small)
  have inBins : withVictim m₂ (chunks.erase v) = withVictim m (chunks.erase v) := by
    rw [withVictim, withVictim, dvsize, dv]
  rw [inBins] at holds₃
  have carved : Carved m { m₃ with dvsize := m.chunksize v - nb, dv := v + nb } nb (free m chunks)
      (free { m₃ with dvsize := m.chunksize v - nb, dv := v + nb } (withVictim m (chunks.erase v)))
        v := by
    refine sound.carved_split there pos aligned (by omega) (kept₃.leastAddr.trans leastAddr)
      (kept₃.head.trans head)
      fun p => ?_
    have some : m.chunksize v - nb ≠ 0 := by omega
    rw [mem_free, mem_free, mem_withVictim, Finset.mem_erase]
    show _ ∨ (m.chunksize v - nb ≠ 0 ∧ p = v + nb) ∨ (m₃.topsize ≠ 0 ∧ p = m₃.top) ↔ _
    rw [kept₃.topsize, kept₃.top, topsize, top]
    constructor
    · rintro ((dv | ⟨other, there⟩) | ⟨-, next⟩ | top)
      · exact .inr ⟨dv.2 ▸ sound.dv_ne inside dv.1, .inr (.inl dv)⟩
      · exact .inr ⟨other, .inl there⟩
      · exact .inl next
      · exact .inr ⟨top.2 ▸ sound.top_ne inside top.1, .inr (.inr top)⟩
    · rintro (next | ⟨other, there | dv | top⟩)
      · exact .inr (.inl ⟨some, next⟩)
      · exact .inl (.inr ⟨other, there⟩)
      · exact .inl (.inl dv)
      · exact .inr (.inr top)
  refine ⟨_, run, carved, carved.sound sound pos holds₃ (fun _ => ⟨fun there' => ?_, ?_⟩) ?_ ?_⟩
  · obtain ⟨some, same⟩ | there' := mem_withVictim.1 there'
    · exact notFree ((show v + nb = m.dv from same) ▸ free_dv some)
    · exact notFree (free_of_chunk (Finset.mem_of_mem_erase there'))
  · obtain ⟨small', -⟩ | ⟨-, -, size, -⟩ := carved.rest
    · omega
    · exact size
  · refine carved.top_kept sound (kept₃.topsize.trans topsize) (kept₃.top.trans top)
      (sound.top_ne inside)
      fun some there' => ?_
    obtain ⟨some', same⟩ | there' := mem_withVictim.1 there'
    · exact absurd same (sound.topNotDv some some')
    · exact Finset.mem_of_mem_erase there'
  · show m₃.topsize ≠ 0 → _ → m₃.top ≠ v + nb
    rw [kept₃.topsize, kept₃.top, topsize, top]
    exact fun some _ same => notFree (same ▸ free_top some)

/-! ## The designated victim and the top -/

/-- Memory for `nb` bytes with their head: a chunk was free that is not any more, but for its rest. -/
def Served (g : Statics) (m : Malloc) (chunks : Finset ℕ) (nb mem : ℕ) (m' : Malloc) : Prop :=
  ∃ v chunks', mem = v + 16 ∧ Carved m m' nb (free m chunks) (free m' chunks') v ∧ Sound g m' chunks'

/-- The bins do not see new heads of a free chunk that is not in them, nor where the others are. -/
theorem Sound.reshape (sound : Sound g m chunks) (notChunk : v ∉ chunks) (notNext : q ∉ chunks)
    (head : ∀ p, p ≠ v → p ≠ q → m'.head p = m.head p) (leastAddr : m'.leastAddr = m.leastAddr)
    (smallmap : m'.smallmap = m.smallmap) (treemap : m'.treemap = m.treemap)
    (treebins : m'.treebins = m.treebins) (same : ∀ p, Same m m' p) (index : m'.index = m.index) :
    Holds g m' chunks := by
  refine write_holds sound.holds ⟨leastAddr, smallmap, treemap, treebins, fun i _ =>
    ⟨(same _).fd, (same _).bk⟩,
    fun p inside => ⟨same p, congrFun index p, head p ?_ ?_⟩⟩
  · exact fun eq => notChunk (eq ▸ inside)
  · exact fun eq => notNext (eq ▸ inside)

theorem Sound.splitDv (sound : Sound g m chunks) (pos : 0 < nb) (aligned : 8 ∣ nb)
    (rest : nb + 32 ≤ m.dvsize) :
    Served g m chunks nb (m.dv + 16)
      ((Malloc.setSizeAndPinuseOfFreeChunk
        { m with dvsize := m.dvsize - nb, dv := m.dv + nb } (m.dv + nb)
        (m.dvsize - nb)).setSizeAndPinuseOfInuseChunk m.dv nb) := by
  have some : m.dvsize ≠ 0 := by omega
  have there : m.dv ∈ free m chunks := free_dv some
  obtain ⟨notChunk, size⟩ := sound.dv some
  obtain ⟨notFree, -⟩ := sound.apart m.dv there (m.dv + nb) (by omega) (by omega)
  have notNext : m.dv + nb ∉ chunks := fun inside => notFree (free_of_chunk inside)
  generalize eq : (Malloc.setSizeAndPinuseOfFreeChunk
    { m with dvsize := m.dvsize - nb, dv := m.dv + nb } (m.dv + nb)
    (m.dvsize - nb)).setSizeAndPinuseOfInuseChunk m.dv nb = m'
  have head : m'.head = update (update m.head m.dv (nb ||| pinuseBit ||| cinuseBit)) (m.dv + nb)
      (m.chunksize m.dv - nb ||| pinuseBit) := by
    rw [← eq, size, update_comm (show m.dv ≠ m.dv + nb by omega)]
    rfl
  have carved : Carved m m' nb (free m chunks) (free m' chunks) m.dv := by
    refine sound.carved_split there pos aligned (by omega) (by rw [← eq]; rfl) head fun p => ?_
    rw [mem_free, mem_free, ← eq]
    show _ ∨ (m.dvsize - nb ≠ 0 ∧ p = m.dv + nb) ∨ (m.topsize ≠ 0 ∧ p = m.top) ↔ _
    constructor
    · rintro (inside | ⟨-, next⟩ | top)
      · exact .inr ⟨fun same => notChunk (same ▸ inside), .inl inside⟩
      · exact .inl next
      · exact .inr ⟨top.2 ▸ sound.topNotDv top.1 some, .inr (.inr top)⟩
    · rintro (next | ⟨other, inside | dv | top⟩)
      · exact .inr (.inl ⟨by omega, next⟩)
      · exact .inl inside
      · exact absurd dv.2 other
      · exact .inr (.inr top)
  have holds : Holds g m' chunks := by
    rw [← eq] at head ⊢
    refine sound.reshape notChunk notNext (fun p other other' => ?_) rfl rfl rfl rfl
      (fun p => ⟨rfl, rfl, rfl, rfl⟩) rfl
    rw [head, update_of_ne other', update_of_ne other]
  refine ⟨m.dv, chunks, rfl, carved, carved.sound sound pos holds ?_ ?_ ?_⟩
  · intro _
    obtain ⟨small, -⟩ | ⟨-, -, sizeRest, -⟩ := carved.rest
    · omega
    · rw [size] at sizeRest
      rw [← eq] at sizeRest ⊢
      exact ⟨notNext, sizeRest⟩
  · refine carved.top_kept sound ?_ ?_ (fun top => sound.topNotDv top some) fun _ => id
    · rw [← eq]
      rfl
    · rw [← eq]
      rfl
  · rw [← eq]
    exact fun top _ same => notFree ((show m.top = m.dv + nb from same) ▸ free_top top)

theorem Sound.exhaustDv (sound : Sound g m chunks) (pos : 0 < nb) (fits : nb ≤ m.dvsize)
    (rest : m.dvsize < nb + 32) :
    Served g m chunks nb (m.dv + 16)
      (Malloc.setInuseAndPinuse { m with dvsize := 0, dv := 0 } m.dv m.dvsize) := by
  have some : m.dvsize ≠ 0 := by omega
  have there : m.dv ∈ free m chunks := free_dv some
  obtain ⟨notChunk, size⟩ := sound.dv some
  obtain ⟨notFree, -⟩ := sound.apart m.dv there (m.dv + m.dvsize) (by omega) (by omega)
  have notNext : m.dv + m.dvsize ∉ chunks := fun inside => notFree (free_of_chunk inside)
  have whole :
      (Malloc.setInuseAndPinuse { m with dvsize := 0, dv := 0 } m.dv m.dvsize).chunksize m.dv =
        m.dvsize :=
    setInuseAndPinuse_chunksize (size ▸ chunksize_dvd m m.dv) sound.dvsize_less some
  generalize eq : Malloc.setInuseAndPinuse { m with dvsize := 0, dv := 0 } m.dv m.dvsize = m' at *
  have head : ∀ p, p ≠ m.dv → p ≠ m.dv + m.dvsize → m'.head p = m.head p := by
    intro p other other'
    rw [← eq]
    exact (update_of_ne other' ..).trans (update_of_ne other ..)
  have placed : ∀ p, p ∈ free m' chunks ↔ p ≠ m.dv ∧ p ∈ free m chunks := by
    intro p
    rw [mem_free, mem_free, ← eq]
    show _ ∨ (0 ≠ 0 ∧ p = 0) ∨ (m.topsize ≠ 0 ∧ p = m.top) ↔ _
    constructor
    · rintro (inside | ⟨no, -⟩ | top)
      · exact ⟨fun same => notChunk (same ▸ inside), .inl inside⟩
      · exact absurd rfl no
      · exact ⟨top.2 ▸ sound.topNotDv top.1 some, .inr (.inr top)⟩
    · rintro ⟨other, inside | dv | top⟩
      · exact .inl inside
      · exact absurd dv.2 other
      · exact .inr (.inr top)
  have carved : Carved m m' nb (free m chunks) (free m' chunks) m.dv := by
    refine ⟨there, by omega, by rw [← eq]; rfl, ?_, .inl ⟨by omega, by omega, placed⟩⟩
    exact sound.others there (by omega) (by omega) head
  have holds : Holds g m' chunks := by
    rw [← eq] at head ⊢
    exact sound.reshape notChunk notNext head rfl rfl rfl rfl (fun p => ⟨rfl, rfl, rfl, rfl⟩) rfl
  refine ⟨m.dv, chunks, rfl, carved, carved.sound sound pos holds ?_ ?_ ?_⟩
  · rw [← eq]
    exact fun no => absurd rfl no
  · refine carved.top_kept sound ?_ ?_ (fun top => sound.topNotDv top some) fun _ => id
    · rw [← eq]
      rfl
    · rw [← eq]
      rfl
  · rw [← eq]
    exact fun _ no => absurd rfl no

theorem Sound.takeDv (sound : Sound g m chunks) (pos : 0 < nb) (aligned : 8 ∣ nb)
    (fits : nb ≤ m.dvsize) :
    ∃ mem m', m.takeDv nb = .memory mem m' ∧ Served g m chunks nb mem m' := by
  rw [Malloc.takeDv]
  dsimp only
  split
  · next rest =>
    simp only [minChunkSize] at rest
    exact ⟨_, _, rfl, sound.splitDv pos aligned (by omega)⟩
  · next rest =>
    simp only [minChunkSize] at rest
    exact ⟨_, _, rfl, sound.exhaustDv pos fits (by omega)⟩

theorem Sound.splitTop (sound : Sound g m chunks) (pos : 0 < nb) (aligned : 8 ∣ nb)
    (less : nb < m.topsize) :
    ∃ mem m', m.splitTop nb = .memory mem m' ∧ Served g m chunks nb mem m' := by
  have some : m.topsize ≠ 0 := by omega
  have there : m.top ∈ free m chunks := free_top some
  obtain ⟨notChunk, size⟩ := sound.top some
  obtain ⟨notFree, -⟩ := sound.apart m.top there (m.top + nb) (by omega) (by omega)
  have notNext : m.top + nb ∉ chunks := fun inside => notFree (free_of_chunk inside)
  refine ⟨_, _, rfl, m.top, chunks, rfl, ?_⟩
  generalize eq : Malloc.setSizeAndPinuseOfInuseChunk _ m.top nb = m'
  have head : m'.head = update (update m.head m.top (nb ||| pinuseBit ||| cinuseBit)) (m.top + nb)
      (m.chunksize m.top - nb ||| pinuseBit) := by
    rw [← eq, size, update_comm (show m.top ≠ m.top + nb by omega)]
    rfl
  have carved : Carved m m' nb (free m chunks) (free m' chunks) m.top := by
    refine sound.carved_split there pos aligned (by omega) (by rw [← eq]; rfl) head fun p => ?_
    rw [mem_free, mem_free, ← eq]
    show _ ∨ (m.dvsize ≠ 0 ∧ p = m.dv) ∨ (m.topsize - nb ≠ 0 ∧ p = m.top + nb) ↔ _
    constructor
    · rintro (inside | dv | ⟨-, next⟩)
      · exact .inr ⟨fun same => notChunk (same ▸ inside), .inl inside⟩
      · exact .inr ⟨dv.2 ▸ (sound.topNotDv some dv.1).symm, .inr (.inl dv)⟩
      · exact .inl next
    · rintro (next | ⟨other, inside | dv | top⟩)
      · exact .inr (.inr ⟨by omega, next⟩)
      · exact .inl inside
      · exact .inr (.inl dv)
      · exact absurd top.2 other
  have holds : Holds g m' chunks := by
    rw [← eq] at head ⊢
    refine sound.reshape notChunk notNext (fun p other other' => ?_) rfl rfl rfl rfl
      (fun p => ⟨rfl, rfl, rfl, rfl⟩) rfl
    rw [head, update_of_ne other', update_of_ne other]
  refine ⟨carved, carved.sound sound pos holds ?_ ?_ ?_⟩
  · refine carved.dv_kept sound ?_ ?_ (fun dv => (sound.topNotDv some dv).symm) fun _ => id
    · rw [← eq]
      rfl
    · rw [← eq]
      rfl
  · intro _
    obtain ⟨-, -, mem⟩ | ⟨-, -, sizeRest, -⟩ := carved.rest
    · have next : m.top + nb ∈ free m' chunks := by
        rw [mem_free, ← eq]
        exact .inr (.inr ⟨show m.topsize - nb ≠ 0 by omega, rfl⟩)
      exact absurd ((mem _).1 next).2 notFree
    · rw [size] at sizeRest
      rw [← eq] at sizeRest ⊢
      exact ⟨notNext, sizeRest⟩
  · rw [← eq]
    exact fun _ dv same => notFree ((show m.top + nb = m.dv from same) ▸ free_dv dv)

/-- Without the bins a request is served, or asks the system for memory if neither the designated
victim nor the top has more. -/
theorem Sound.withoutBins (sound : Sound g m chunks) (pos : 0 < nb) (aligned : 8 ∣ nb) :
    (∃ mem m', m.withoutBins nb = .memory mem m' ∧ Served g m chunks nb mem m') ∨
    (m.withoutBins nb = .sysAlloc nb m ∧ m.dvsize < nb ∧ m.topsize ≤ nb) := by
  rw [Malloc.withoutBins]
  by_cases dv : nb ≤ m.dvsize
  · rw [if_pos dv]
    exact .inl (sound.takeDv pos aligned dv)
  · rw [if_neg dv]
    by_cases top : nb < m.topsize
    · rw [if_pos top]
      exact .inl (sound.splitTop pos aligned top)
    · rw [if_neg top]
      exact .inr ⟨rfl, not_le.1 dv, not_lt.1 top⟩

/-! ## The rings -/

theorem smallIndex2size_eq (i : ℕ) : smallIndex2size i = 8 * i := by
  rw [smallIndex2size, smallbinShift, Nat.shiftLeft_eq]
  omega

theorem binmap_testBit {x i : ℕ} (less : i < 32) : (binmap x).testBit i = x.testBit i := by
  rw [binmap, Nat.testBit_mod_two_pow]
  simp [less]

theorem binmap_less (x : ℕ) : binmap x < 2 ^ 32 :=
  Nat.mod_lt x (by decide)

theorem Sound.exactFit (sound : Sound g m chunks) {i : ℕ} (size : nb = 8 * i) (pos : 0 < i)
    (less : i < 31) (some : binmap m.smallmap >>> i &&& 3 ≠ 0) : ∃ mem m',
    m.exactFit g func i (binmap m.smallmap >>> i) = .ok (.memory mem m') ∧
      Served g m chunks nb mem m' := by
  have bit : ∀ j, i + j < 32 → (binmap m.smallmap >>> i).testBit j = m.smallmap.testBit (i + j) :=
    fun j less => by
    rw [Nat.testBit_shiftRight, binmap_testBit less]
  have small : binmap m.smallmap >>> i < 2 ^ 32 := by
    rw [Nat.shiftRight_eq_div_pow]
    exact (Nat.div_le_self ..).trans_lt (binmap_less m.smallmap)
  rw [Malloc.exactFit]
  generalize binmap m.smallmap >>> i = smallbits at *
  rw [show smallbits &&& 3 = smallbits % 4 from Nat.and_two_pow_sub_one_eq_mod smallbits 2] at some
  obtain ⟨k, eq, near, marked⟩ : ∃ k, i + ((2 ^ 32 - 1 - smallbits) &&& 1) = k ∧ (k = i ∨ k = i + 1) ∧
      m.smallmap.testBit k := by
    rw [Nat.and_one_is_mod]
    by_cases first : smallbits % 2 = 1
    · refine ⟨i, by omega, .inl rfl, ?_⟩
      show m.smallmap.testBit (i + 0) = true
      rw [← bit 0 (by omega), Nat.testBit_zero, decide_eq_true first]
    · refine ⟨i + 1, by omega, .inr rfl, ?_⟩
      rw [← bit 1 (by omega), Nat.testBit_succ, Nat.testBit_zero, decide_eq_true_iff]
      omega
  obtain ⟨m₁, run, inside, sized, holds, kept⟩ :=
    unlinkFirst_holds func sound.holds (show k < 32 by omega) marked
  rw [smallIndex2size_eq] at sized
  obtain ⟨carved, sound'⟩ :=
    sound.whole inside kept holds (show 0 < nb by omega) (by omega) (by omega)
  rw [sized] at carved sound'
  refine ⟨_, _, ?_, _, _, rfl, carved, sound'⟩
  rw [eq, run, smallIndex2size_eq]
  rfl

theorem Sound.nextFit (sound : Sound g m chunks) {i : ℕ} (size : nb = 8 * i) (pos : 0 < i)
    (less : i < 31) (none : binmap m.smallmap >>> i &&& 3 = 0) (some : binmap m.smallmap >>> i ≠ 0)
    (dv : m.dvsize < nb) : ∃ mem m',
    m.nextFit g func nb i (binmap m.smallmap >>> i) = .ok (.memory mem m') ∧
      Served g m chunks nb mem m' := by
  have bits : ∀ j < 32, (binmap m.smallmap >>> i <<< i % 2 ^ 32 &&& leftBits (idx2bit i)).testBit j =
      (decide (i < j) && m.smallmap.testBit j) := by
    intro j less'
    rw [Nat.testBit_and, leftBits_testBit i (by omega) j less', Nat.testBit_mod_two_pow,
      Nat.testBit_shiftLeft, Nat.testBit_shiftRight]
    by_cases above : i < j
    · rw [show i + (j - i) = j by omega, binmap_testBit less']
      simp [above, above.le, less']
    · simp [above]
  obtain ⟨j, marked⟩ := Nat.exists_testBit_of_ne_zero some
  have less' : i + j < 32 := by
    by_contra wide
    rw [Nat.testBit_shiftRight, binmap, Nat.testBit_mod_two_pow] at marked
    simp [wide] at marked
  have notFirst : j ≠ 0 := by
    rintro rfl
    rw [show binmap m.smallmap >>> i &&& 3 = _ from Nat.and_two_pow_sub_one_eq_mod _ 2] at none
    rw [Nat.testBit_zero, decide_eq_true_iff] at marked
    omega
  rw [Malloc.nextFit]
  dsimp only
  have there := bits (i + j) less'
  rw [Nat.testBit_shiftRight, binmap_testBit less'] at marked
  have small : binmap m.smallmap >>> i <<< i % 2 ^ 32 &&& leftBits (idx2bit i) < 2 ^ 32 :=
    Nat.and_le_left.trans_lt (Nat.mod_lt _ (by decide))
  generalize binmap m.smallmap >>> i <<< i % 2 ^ 32 &&& leftBits (idx2bit i) = leftbits at *
  have notNone : leftbits ≠ 0 := by
    rintro rfl
    rw [marked, decide_eq_true (show i < i + j by omega)] at there
    simp at there
  obtain ⟨k, fits, eq, bit, -⟩ := leastBit_first small notNone
  rw [bits k fits, Bool.and_eq_true, decide_eq_true_iff] at bit
  obtain ⟨m₁, run, inside, sized, holds, kept⟩ := unlinkFirst_holds func sound.holds fits bit.2
  rw [eq, run, smallIndex2size_eq, remainder_fits (by omega) (by omega)]
  rw [smallIndex2size_eq] at sized
  generalize m.fd (smallbinAt g k) = v at *
  by_cases rest : 8 * k - nb < minChunkSize
  · simp only [minChunkSize] at rest
    obtain ⟨carved, sound'⟩ :=
      sound.whole inside kept holds (show 0 < nb by omega) (by omega) (by omega)
    rw [sized] at carved sound'
    refine ⟨_, _, ?_, _, _, rfl, carved, sound'⟩
    exact if_pos rest
  · simp only [minChunkSize] at rest
    obtain ⟨m', run', carved, sound'⟩ :=
      sound.splitVictim func inside kept holds (show 0 < nb by omega) (by omega)
      (by omega) (by omega)
    rw [sized] at run'
    refine ⟨_, _, ?_, _, _, rfl, carved, sound'⟩
    refine (if_neg rest).trans ?_
    rw [run']
    rfl

/-! ## The tries -/

/-- The leftmost way of the first trie leads to its smallest chunk. -/
theorem smallest_spec {large : ℕ → Trie ℕ} (tries : Large g m large) (pos : 0 < nb) (small : nb < 256)
    (some : binmap m.treemap ≠ 0) : ∃ best,
    m.leftmostLoop nb (m.leftmostChild (m.treebins (computeBit2idx (leastBit (binmap m.treemap)))))
      (m.treebins (computeBit2idx (leastBit (binmap m.treemap))),
        remainder (m.chunksize (m.treebins (computeBit2idx (leastBit (binmap m.treemap))))) nb)
      Malloc.rounds = .ok best ∧ best.1 ≠ 0 ∧ Fits m nb large best := by
  obtain ⟨k, less, eq, bit, first⟩ := leastBit_first (binmap_less m.treemap) some
  rw [binmap_testBit less] at bit
  have notLeaf := (tries.marked k less).1 bit
  have rep := tries.rep k less
  have some' : m.treebins k ≠ 0 := fun null => notLeaf (rep.eq_zero_iff.1 null)
  have root := rep.mem some'
  have size := (tries.member k less _ root).size
  have least := size.large
  have wide := size.less
  rw [eq]
  have step : m.leftmostLoop nb (m.leftmostChild (m.treebins k))
      (m.treebins k, remainder (m.chunksize (m.treebins k)) nb) Malloc.rounds =
        m.leftmostLoop nb (m.treebins k) (0, remainder 0 nb) (Malloc.rounds + 1) := by
    have better : m.better nb (m.treebins k) (0, remainder 0 nb) =
        (m.treebins k, remainder (m.chunksize (m.treebins k)) nb) := by
      rw [Malloc.better, if_pos]
      simp only [remainder]
      omega
    rw [Malloc.leftmostLoop.eq_def m nb (m.treebins k), ← better]
    exact (if_pos some').symm
  obtain ⟨best, run, found⟩ := leftmostLoop_spec rep (tries.within k less) pos (by omega)
    (fun y inside => (tries.member k less y inside).size.less) (tries.null less) found_nil
    (show bitsLeft k + 1 < Malloc.rounds + 1 by
      have := bitsLeft_le less
      simp only [Malloc.rounds]
      omega)
  have fits : ∀ y ∈ (large k).nodes, nb ≤ m.chunksize y := fun y inside =>
    small.le.trans (tries.member k less y inside).size.large
  have covered : ∀ p ∈ (large k).nodes, ∃ y ∈ [] ++ (large k).leftmost,
    m.chunksize y ≤ m.chunksize p :=
    (tries.within k less).leftmost
  obtain ⟨y, there, -⟩ := covered _ root
  have some'' : best.1 ≠ 0 := (found.least y there (fits y (leftmost_subset y there))).1
  refine ⟨best, step.trans run, some'',
    fits_of_found tries less found leftmost_subset some'' (fun p inside _ => ?_) ?_⟩
  · obtain ⟨y, there, le⟩ := covered p inside
    have := (found.least y there (fits y (leftmost_subset y there))).2
    omega
  · intro j below p inside
    have unmarked := first j below
    rw [binmap_testBit (by omega), tries.marked j (by omega), not_not] at unmarked
    rw [unmarked] at inside
    exact absurd inside List.not_mem_nil

variable (func) in
/-- `tmalloc_small`, if there is a large chunk. -/
theorem Sound.tmallocSmall (sound : Sound g m chunks) (pos : 0 < nb) (aligned : 8 ∣ nb)
    (small : nb < 256) (dv : m.dvsize < nb) (some : binmap m.treemap ≠ 0) :
    ∃ mem m', mem ≠ 0 ∧ m.tmallocSmall g func nb = .ok (mem, m') ∧
      Served g m chunks nb mem m' := by
  obtain ⟨rings, large, bins, tries, mem⟩ := sound.holds
  obtain ⟨⟨v, rsize⟩, search, notNull, none | ⟨⟨i, less, inside⟩, fits, eq, -⟩⟩ :=
    smallest_spec tries pos small some
  · exact absurd (congrArg Prod.fst none.1) notNull
  · dsimp only at inside fits eq
    subst eq
    have member := tries.member i less v inside
    have inside : v ∈ chunks := (mem v).2 (.inr ⟨i, less, inside⟩)
    obtain ⟨m₁, unlink, holds, kept⟩ := unlinkChunk_holds func sound.holds inside
    rw [Malloc.unlinkChunk, if_neg member.size.notSmall] at unlink
    have steps : m.tmallocSmall g func nb =
        if m.chunksize v - nb < minChunkSize then
          .ok (v + 16, m₁.setInuseAndPinuse v (m.chunksize v - nb + nb))
        else ((m₁.setSizeAndPinuseOfInuseChunk v nb).setSizeAndPinuseOfFreeChunk (v + nb)
          (m.chunksize v - nb)).replaceDv
          g func (v + nb) (m.chunksize v - nb) >>= fun m => .ok (v + 16, m) := by
      rw [Malloc.tmallocSmall]
      dsimp only
      rw [search]
      show (if m.okAddress v ∧ v < v + nb then _ else _) = _
      rw [if_pos ⟨member.binnable.ok, by omega⟩, unlink]
      rfl
    by_cases rest : m.chunksize v - nb < minChunkSize
    · rw [if_pos rest, Nat.sub_add_cancel fits] at steps
      simp only [minChunkSize] at rest
      obtain ⟨carved, sound'⟩ := sound.whole inside kept holds pos fits (by omega)
      exact ⟨_, _, by omega, steps, _, _, rfl, carved, sound'⟩
    · rw [if_neg rest] at steps
      simp only [minChunkSize] at rest
      obtain ⟨m', run, carved, sound'⟩ :=
        sound.splitVictim func inside kept holds pos aligned (by omega) (by omega)
      rw [run] at steps
      exact ⟨_, _, by omega, steps, _, _, rfl, carved, sound'⟩

variable (func) in
/-- `tmalloc_large`: it finds nothing only if the designated victim is as good as any chunk that
fits. -/
theorem Sound.tmallocLarge (sound : Sound g m chunks) (size : LargeSize nb) (aligned : 8 ∣ nb) :
    (m.tmallocLarge g func nb = .ok (0, m) ∧ ∀ p ∈ chunks, nb ≤ m.chunksize p → nb ≤ m.dvsize) ∨
    ∃ mem m', mem ≠ 0 ∧ m.tmallocLarge g func nb = .ok (mem, m') ∧ Served g m chunks nb mem m' := by
  obtain ⟨run, none⟩ | ⟨v, m₁, best, -, -, -, holds, kept, ⟨rest, run⟩ | ⟨rest, run⟩⟩ :=
    tmallocLarge_cases func sound.holds size sound.dvsize_less
  · exact .inl ⟨run, fun p inside fits => (none p inside fits).1⟩
  · obtain ⟨carved, sound'⟩ := sound.whole best.inside kept holds size.pos best.fits rest
    exact .inr ⟨_, _, by omega, run, _, _, rfl, carved, sound'⟩
  · obtain ⟨m', run', carved, sound'⟩ :=
      sound.splitBins func best.inside kept holds size.pos aligned rest
    rw [run'] at run
    exact .inr ⟨_, _, by omega, run, _, _, rfl, carved, sound'⟩

/-! ## Requests -/

/-- The size of the chunk that `dlmalloc` looks for. -/
def chunkFor (bytes : ℕ) : ℕ := if bytes ≥ maxRequest then 2 ^ 64 - 1 else request2size bytes

theorem padRequest_eq {bytes : ℕ} (less : bytes < maxRequest) :
    padRequest bytes = (bytes + 23) / 16 * 16 := by
  have less' : bytes < 2 ^ 64 - 128 := less
  have field := Words.and_field ((bytes + 23) % 2 ^ 64) 4 64 (by decide)
  rw [padRequest]
  refine Eq.trans field ?_
  omega

theorem request2size_eq {bytes : ℕ} (less : bytes < maxRequest) :
    request2size bytes = if bytes < 23 then 32 else (bytes + 23) / 16 * 16 := by
  rw [request2size, padRequest_eq less]
  rfl

/-- A chunk has room for the request and its head. -/
structure Padded (bytes nb : ℕ) : Prop where
  aligned : 8 ∣ nb
  enough : bytes + 8 ≤ nb
  least : 32 ≤ nb
  less : nb < 2 ^ 64

theorem request2size_padded {bytes : ℕ} (less : bytes < maxRequest) :
    Padded bytes (request2size bytes) := by
  have less' : bytes < 2 ^ 64 - 128 := less
  rw [request2size_eq less]
  by_cases tiny : bytes < 23
  · rw [if_pos tiny]
    exact ⟨by decide, by omega, le_rfl, by decide⟩
  · rw [if_neg tiny]
    exact ⟨by omega, by omega, by omega, by omega⟩

theorem chunkFor_enough {bytes : ℕ} (less : chunkFor bytes < 2 ^ 40) :
    bytes + 8 ≤ chunkFor bytes := by
  rw [chunkFor] at less ⊢
  split
  · next huge =>
    rw [if_pos huge] at less
    exact absurd less (by decide)
  · next fits => exact (request2size_padded (not_le.1 fits)).enough

/-- No free chunk but the top fits, nor does the top leave anything. -/
def Exhausted (m : Malloc) (chunks : Finset ℕ) (nb : ℕ) : Prop :=
  (∀ p ∈ chunks, m.chunksize p < nb) ∧ m.dvsize < nb ∧ m.topsize ≤ nb

theorem Sound.treesEmpty (sound : Sound g m chunks) (none : binmap m.treemap = 0) :
    ∀ p ∈ chunks, m.chunksize p < 256 := by
  obtain ⟨small, large, bins, tries, mem⟩ := sound.holds
  intro p inside
  obtain ⟨i, less, there⟩ | ⟨i, less, there⟩ := (mem p).1 inside
  · exact bins.less less there
  · have marked : (binmap m.treemap).testBit i := by
      rw [binmap_testBit less, tries.marked i less]
      rintro leafBin
      rw [leafBin] at there
      exact absurd there List.not_mem_nil
    rw [none] at marked
    simp at marked

theorem Sound.ringsEmpty {i : ℕ} (sound : Sound g m chunks) (none : binmap m.smallmap >>> i = 0) :
    ∀ p ∈ chunks, m.chunksize p < 256 → m.chunksize p < 8 * i := by
  obtain ⟨small, large, bins, tries, mem⟩ := sound.holds
  intro p inside isSmall
  obtain ⟨j, less, there⟩ | ⟨j, less, there⟩ := (mem p).1 inside
  · rw [bins.size j less p there, smallIndex2size_eq]
    by_contra above
    have marked : (binmap m.smallmap >>> i).testBit (j - i) := by
      rw [Nat.testBit_shiftRight,
        show i + (j - i) = j by omega, binmap_testBit less, bins.marked j less]
      exact List.ne_nil_of_mem there
    rw [none] at marked
    simp at marked
  · exact absurd (tries.least less there) (not_le.2 isSmall)

/-- The chunk or the call of `sys_alloc` for a request. -/
def Answered (g : Statics) (m : Malloc) (chunks : Finset ℕ) (nb : ℕ)
    (answer : Except Fault Answer) : Prop :=
  (∃ mem m', answer = .ok (.memory mem m') ∧ Served g m chunks nb mem m') ∨
  (answer = .ok (.sysAlloc nb m) ∧ Exhausted m chunks nb)

theorem Sound.withoutBins_answered (sound : Sound g m chunks) (pos : 0 < nb) (aligned : 8 ∣ nb)
    (none : m.dvsize < nb → ∀ p ∈ chunks, m.chunksize p < nb) :
    Answered g m chunks nb (pure (m.withoutBins nb)) := by
  obtain ⟨mem, m', eq, served⟩ | ⟨eq, dv, top⟩ := sound.withoutBins pos aligned
  · exact .inl ⟨mem, m', by rw [eq]; rfl, served⟩
  · exact .inr ⟨by rw [eq]; rfl, none dv, dv, top⟩

/-- No chunk fits a request of `2 ^ 40` bytes. -/
theorem Sound.withoutBins_huge (sound : Sound g m chunks) (huge : 2 ^ 40 ≤ nb) :
    Answered g m chunks nb (pure (m.withoutBins nb)) := by
  have dvsize := sound.dvsize_less
  have topsize := sound.topsize_less
  refine .inr ⟨?_, fun p inside => (sound.less p (free_of_chunk inside)).trans_le huge,
    by omega, by omega⟩
  rw [Malloc.withoutBins, if_neg (by omega), if_neg (by omega)]
  rfl

/-- A small request. -/
theorem Sound.smallRequest (sound : Sound g m chunks) {i : ℕ} (size : nb = 8 * i) (pos : 0 < i)
    (less : i < 31) :
    Answered g m chunks nb
      (if binmap m.smallmap >>> i &&& 3 ≠ 0 then m.exactFit g "dlmalloc" i (binmap m.smallmap >>> i)
      else if nb > m.dvsize then
        if binmap m.smallmap >>> i ≠ 0 then m.nextFit g "dlmalloc" nb i (binmap m.smallmap >>> i)
        else if binmap m.treemap ≠ 0 then do
          let (mem, m) ← m.tmallocSmall g "tmalloc_small" nb
          if mem ≠ 0 then pure (.memory mem m) else pure (m.withoutBins nb)
        else pure (m.withoutBins nb)
      else pure (m.withoutBins nb)) := by
  have pos' : 0 < nb := by omega
  have aligned : 8 ∣ nb := by omega
  by_cases rings : binmap m.smallmap >>> i &&& 3 = 0
  · rw [if_neg (not_not.2 rings)]
    by_cases dv : nb > m.dvsize
    · rw [if_pos dv]
      by_cases next : binmap m.smallmap >>> i = 0
      · rw [if_neg (not_not.2 next)]
        by_cases trees : binmap m.treemap = 0
        · rw [if_neg (not_not.2 trees)]
          refine sound.withoutBins_answered pos' aligned fun _ p inside => ?_
          rw [size]
          exact sound.ringsEmpty next p inside (sound.treesEmpty trees p inside)
        · rw [if_pos trees]
          obtain ⟨mem, m', some, run, served⟩ :=
            sound.tmallocSmall "tmalloc_small" pos' aligned (by omega) dv trees
          rw [run]
          exact .inl ⟨mem, m', if_pos some, served⟩
      · rw [if_pos next]
        exact .inl (sound.nextFit size pos less rings next dv)
    · rw [if_neg dv]
      exact sound.withoutBins_answered pos' aligned fun less => absurd less dv
  · rw [if_pos rings]
    exact .inl (sound.exactFit size pos less rings)

theorem Sound.largeRequest (sound : Sound g m chunks) (large : 256 ≤ nb) (less : nb < 2 ^ 64)
    (aligned : 8 ∣ nb) :
    Answered g m chunks nb
      (if binmap m.treemap ≠ 0 then do
        let (mem, m) ← m.tmallocLarge g "tmalloc_large" nb
        if mem ≠ 0 then pure (.memory mem m) else pure (m.withoutBins nb)
      else pure (m.withoutBins nb)) := by
  have pos : 0 < nb := by omega
  by_cases trees : binmap m.treemap = 0
  · rw [if_neg (not_not.2 trees)]
    refine sound.withoutBins_answered pos aligned fun _ p inside => ?_
    exact (sound.treesEmpty trees p inside).trans_le large
  · rw [if_pos trees]
    by_cases huge : 2 ^ 40 ≤ nb
    · obtain ⟨small, large, bins, tries, mem⟩ := sound.holds
      have run : m.tmallocLarge g "tmalloc_large" nb = .ok (0, m) := by
        rw [Malloc.tmallocLarge, bestFit_huge tries huge less]
        rfl
      rw [run]
      exact sound.withoutBins_huge huge
    · obtain ⟨run, none⟩ | ⟨mem, m', some, run, served⟩ :=
        sound.tmallocLarge "tmalloc_large" ⟨large, not_le.1 huge⟩ aligned
      · rw [run]
        refine sound.withoutBins_answered pos aligned fun dv p inside => ?_
        exact not_le.1 fun fits => not_le.2 dv (none p inside fits)
      · rw [run]
        exact .inl ⟨mem, m', if_pos some, served⟩

/-- Every request is answered. -/
theorem Sound.dlmalloc (sound : Sound g m chunks) (bytes : ℕ) :
    Answered g m chunks (chunkFor bytes) (m.dlmalloc g bytes) := by
  rw [Malloc.dlmalloc, chunkFor]
  by_cases small : bytes ≤ maxSmallRequest
  · have small' : bytes ≤ 232 := small
    have less : bytes < maxRequest := small.trans_lt (by decide)
    rw [if_pos small, if_neg (not_le.2 less)]
    have padded := request2size_padded less
    have bound : request2size bytes ≤ 240 := by
      rw [request2size_eq less]
      split <;> omega
    obtain ⟨i, eq⟩ := padded.aligned
    have least := padded.least
    have index : smallIndex (request2size bytes) = i := by
      rw [smallIndex, smallbinShift, Nat.shiftRight_eq_div_pow, eq]
      omega
    have answered := sound.smallRequest eq (by omega) (by omega)
    rw [← index] at answered
    exact answered
  · rw [if_neg small]
    have large : ¬bytes ≤ 232 := small
    by_cases huge : bytes ≥ maxRequest
    · rw [if_pos huge, if_pos huge]
      exact sound.withoutBins_huge (by decide)
    · rw [if_neg huge, if_neg huge]
      have less := not_le.1 huge
      have padded := request2size_padded less
      have notTiny : ¬bytes < minRequest := by
        show ¬bytes < 23
        omega
      have eq : request2size bytes = padRequest bytes := if_neg notTiny
      have atLeast : 256 ≤ request2size bytes := by
        rw [eq, padRequest_eq less]
        omega
      rw [← eq]
      exact sound.largeRequest atLeast padded.less padded.aligned

/-! ## Runs of requests -/

/-- A run of requests that are served, each with its memory and the number of its bytes.  In between
the program writes what it likes, but not to the free chunks. -/
inductive Requests (g : Statics) (m : Malloc) : Malloc → List (ℕ × ℕ) → Prop
  | start : Requests g m m []
  | request {m₁ m₂ : Malloc} {served : List (ℕ × ℕ)} {mem bytes : ℕ} (run : Requests g m m₁ served)
    (answer : m₁.dlmalloc g bytes = .ok (.memory mem m₂)) :
    Requests g m m₂ ((mem, bytes) :: served)
  | write {m₁ m₂ : Malloc} {served : List (ℕ × ℕ)} (run : Requests g m m₁ served)
    (placed : Placed m₁ m₂)
    (foreign : ∀ chunks, Sound g m₁ chunks → Foreign g (free m₁ chunks) m₁ m₂) :
      Requests g m m₂ served

theorem Placed.free_eq (placed : Placed m m') : free m' chunks = free m chunks := by
  rw [free, free, placed.dvsize, placed.dv, placed.topsize, placed.top]

theorem Foreign.chunksize (foreign : Foreign g chunks m m') (inside : p ∈ chunks) :
    m'.chunksize p = m.chunksize p := by
  rw [Malloc.chunksize, Malloc.chunksize, (foreign.chunk p inside).2.2]

/-- What the program writes does not matter to the heap. -/
theorem Sound.write (sound : Sound g m chunks) (placed : Placed m m')
    (foreign : Foreign g (free m chunks) m m') :
    Sound g m' chunks := by
  have holds : Holds g m' chunks :=
    write_holds sound.holds ⟨foreign.leastAddr, foreign.smallmap, foreign.treemap,
    foreign.treebins, foreign.smallbins, fun p inside => foreign.chunk p (free_of_chunk inside)⟩
  refine ⟨holds, ?_, ?_, ?_, ?_, ?_, ?_⟩
  · rw [placed.free_eq]
    intro p inside q above below
    rw [foreign.chunksize inside] at below
    exact sound.apart p inside q above below
  · rw [placed.free_eq]
    intro p inside
    have binnable := sound.binnable p inside
    refine ⟨?_, binnable.some, binnable.chunk⟩
    rw [Malloc.okAddress, foreign.leastAddr]
    exact binnable.ok
  · rw [placed.free_eq]
    intro p inside
    rw [foreign.chunksize inside]
    exact sound.less p inside
  · rw [placed.dvsize, placed.dv]
    intro some
    rw [foreign.chunksize (free_dv some)]
    exact sound.dv some
  · rw [placed.topsize, placed.top]
    intro some
    rw [foreign.chunksize (free_top some)]
    exact sound.top some
  · rw [placed.dvsize, placed.dv, placed.topsize, placed.top]
    exact sound.topNotDv

/-- The chunk of the memory `a` lies beside the free chunks. -/
def Beside (m : Malloc) (free : Finset ℕ) (a : ℕ × ℕ) : Prop :=
  ∃ v s, a.1 = v + 16 ∧ a.2 + 8 ≤ s ∧ ∀ p ∈ free, v + s ≤ p ∨ p + m.chunksize p ≤ v

/-- There is a head between two memories. -/
def NoOverlap (a b : ℕ × ℕ) : Prop := a.1 + a.2 + 8 ≤ b.1 ∨ b.1 + b.2 + 8 ≤ a.1

theorem Carved.beside (carved : Carved m m' nb before after v) {a : ℕ × ℕ}
    (beside : Beside m before a) :
    Beside m' after a := by
  obtain ⟨u, s, eq, enough, apart⟩ := beside
  refine ⟨u, s, eq, enough, fun p inside => ?_⟩
  obtain ⟨-, old, size⟩ | ⟨rfl, less, size⟩ := carved.origin inside
  · rw [size]
    exact apart p old
  · have := apart v carved.inside
    omega

/-- The new memory lies beside the chunks that are still free. -/
theorem Carved.new_beside (carved : Carved m m' nb before after v)
    (apart : Apart g m before) {bytes : ℕ} (enough : bytes + 8 ≤ nb) :
    Beside m' after (v + 16, bytes) := by
  refine ⟨v, nb, rfl, enough, fun p inside => ?_⟩
  have fits := carved.fits
  obtain ⟨other, old, size⟩ | ⟨rfl, -, -⟩ := carved.origin inside
  · rw [size]
    by_contra overlap
    obtain less | greater := Nat.lt_or_gt_of_ne other
    · exact (apart p old v less (by omega)).1 carved.inside
    · exact (apart v carved.inside p greater (by omega)).1 old
  · exact .inl le_rfl

/-- The new memory does not overlap one that was beside its chunk. -/
theorem Carved.noOverlap (carved : Carved m m' nb before after v) {bytes : ℕ}
    (enough : bytes + 8 ≤ nb) {a : ℕ × ℕ} (beside : Beside m before a) :
    NoOverlap (v + 16, bytes) a := by
  obtain ⟨u, s, eq, enough', apart⟩ := beside
  have fits := carved.fits
  have := apart v carved.inside
  simp only [NoOverlap]
  omega

/-- In every run of requests from a sound heap, the memories that were given out do not overlap
each other, the free chunks or the heads of either, and the next request is served, or asks the
system if no free chunk fits. -/
theorem requests_apart {served : List (ℕ × ℕ)} (sound : Sound g m chunks)
    (run : Requests g m m₁ served) :
    served.Pairwise NoOverlap ∧ ∃ chunks₁, Sound g m₁ chunks₁ ∧
      (∀ a ∈ served, ∀ p ∈ free m₁ chunks₁, a.1 + a.2 ≤ p + 8 ∨ p + m₁.chunksize p + 16 ≤ a.1) ∧
      ∀ bytes, Answered g m₁ chunks₁ (chunkFor bytes) (m₁.dlmalloc g bytes) := by
  have kept : served.Pairwise NoOverlap ∧
      ∃ chunks₁, Sound g m₁ chunks₁ ∧ ∀ a ∈ served, Beside m₁ (free m₁ chunks₁) a := by
    induction run with
    | start => exact ⟨.nil, chunks, sound, by simp⟩
    | @request m₁ m₂ served mem bytes run answer ih =>
      obtain ⟨apart, chunks₁, sound₁, beside⟩ := ih
      obtain ⟨mem', m', eq, v, chunks₂, rfl, carved, sound₂⟩ | ⟨eq, -⟩ := sound₁.dlmalloc bytes
      · obtain ⟨rfl, rfl⟩ : mem = v + 16 ∧ m₂ = m' := by
          rw [answer] at eq
          simpa using eq
        have enough := chunkFor_enough (carved.fits.trans_lt (sound₁.less v carved.inside))
        have apart' : ∀ a ∈ served, NoOverlap (v + 16, bytes) a := fun a there =>
          carved.noOverlap enough (beside a there)
        refine ⟨List.pairwise_cons.2 ⟨apart', apart⟩, chunks₂, sound₂, ?_⟩
        rw [List.forall_mem_cons]
        exact ⟨carved.new_beside sound₁.apart enough, fun a there => carved.beside (beside a there)⟩
      · rw [answer] at eq
        simp at eq
    | @write m₁ m₂ served run placed foreign ih =>
      obtain ⟨apart, chunks₁, sound₁, beside⟩ := ih
      have foreign := foreign chunks₁ sound₁
      refine ⟨apart, chunks₁, sound₁.write placed foreign, fun a there => ?_⟩
      obtain ⟨v, s, eq, enough, apart⟩ := beside a there
      rw [placed.free_eq]
      refine ⟨v, s, eq, enough, fun p inside => ?_⟩
      rw [foreign.chunksize inside]
      exact apart p inside
  obtain ⟨apart, chunks₁, sound₁, beside⟩ := kept
  refine ⟨apart, chunks₁, sound₁, fun a there p inside => ?_, sound₁.dlmalloc⟩
  obtain ⟨v, s, eq, enough, apart⟩ := beside a there
  have := apart p inside
  omega

end Chunks

/-- A heap with a top of 4096 bytes and nothing in the bins. -/
def oneTop : Malloc := { oneChunk with top := 8192, topsize := 4096 }

theorem oneTop_sound : Sound ⟨16, 2048, by decide⟩ oneTop ∅ := by
  have empty : Empty oneTop := ⟨rfl, rfl, fun _ _ => rfl⟩
  have notBin : ∀ q, 8192 ≤ q → ∀ i < 32, q ≠ smallbinAt ⟨16, 2048, by decide⟩ i := by
    intro q above i less
    show q ≠ 16 + 16 * i
    omega
  have mem : ∀ p, p ∈ free oneTop ∅ ↔ p = 8192 := by
    intro p
    show p ∈ ∅ ∪ ∅ ∪ {8192} ↔ _
    simp
  refine ⟨empty.holds, fun p inside q above _ => ?_, fun p inside => ?_, fun p inside =>
    ?_, fun no => absurd rfl no,
    fun _ => ⟨Finset.notMem_empty _, by decide⟩, fun _ no => absurd rfl no⟩
  · rw [mem] at inside ⊢
    exact ⟨by omega, notBin q (by omega)⟩
  · rw [mem] at inside
    subst inside
    exact ⟨by decide, by decide, notBin 8192 le_rfl⟩
  · rw [mem] at inside
    subst inside
    decide

theorem requests_apart_oneTop : ∃ m₁ m₂ : Malloc,
    oneTop.dlmalloc ⟨16, 2048, by decide⟩ 100 = .ok (.memory 8208 m₁) ∧
    m₁.dlmalloc ⟨16, 2048, by decide⟩ 200 = .ok (.memory 8320 m₂) ∧
      [(8320, 200), (8208, 100)].Pairwise NoOverlap := by
  refine ⟨_, _, rfl, rfl, ?_⟩
  exact (requests_apart oneTop_sound (.request (.request .start rfl) rfl)).1

/-! ## Cleared memory -/

/-- A product of factors below `2 ^ 16` needs no check, any other is checked by a division. -/
theorem callocRequest_eq {n e : ℕ} (nElements : n < 2 ^ 64) (elemSize : e < 2 ^ 64) :
    callocRequest n e = if n * e < 2 ^ 64 then n * e else 2 ^ 64 - 1 := by
  rw [callocRequest]
  obtain rfl | some := eq_or_ne n 0
  · simp
  · rw [if_pos some]
    dsimp only
    by_cases fits : n * e < 2 ^ 64
    · have exactly : n * e % 2 ^ 64 / n = e := by
        rw [Nat.mod_eq_of_lt fits, Nat.mul_div_cancel_left e (Nat.pos_of_ne_zero some)]
      rw [if_neg fun both => both.2 exactly, if_pos fits, Nat.mod_eq_of_lt fits]
    · rw [if_neg fits, if_pos]
      refine ⟨fun none => fits ?_, fun exactly => fits ?_⟩
      · have field : (n ||| e) &&& (2 ^ 64 - 1 - 0xffff) = (n ||| e) % 2 ^ 64 / 2 ^ 16 * 2 ^ 16 :=
          Words.and_field (n ||| e) 16 64 (by decide)
        have both : n ||| e < 2 ^ 64 := Nat.or_lt_two_pow nElements elemSize
        have small : n ||| e < 2 ^ 16 := by omega
        have left : n < 2 ^ 16 := Nat.left_le_or.trans_lt small
        have right : e < 2 ^ 16 := Nat.right_le_or.trans_lt small
        exact (Nat.mul_lt_mul'' left right).trans (by decide)
      · have product : n * e ≤ n * e % 2 ^ 64 := by
          conv_lhs => rw [← exactly]
          exact Nat.mul_div_le _ n
        exact product.trans_lt (Nat.mod_lt _ (by decide))

/-- `dlcalloc` clears memory for the exact product, or asks the system, for more than there
is if it does not fit. -/
theorem dlcalloc_spec {g : Statics} {m : Malloc} {chunks : Finset ℕ} {n e : ℕ}
    (sound : Sound g m chunks) (nElements : n < 2 ^ 64) (elemSize : e < 2 ^ 64) :
    (n * e < 2 ^ 64 ∧ ∃ mem m', m.dlcalloc g n e = .ok (.memory mem m', n * e) ∧
      Served g m chunks (chunkFor (n * e)) mem m') ∨
    ∃ nb, m.dlcalloc g n e = .ok (.sysAlloc nb m, 0) ∧ Exhausted m chunks nb ∧
      nb = if n * e < 2 ^ 64 then chunkFor (n * e) else 2 ^ 64 - 1 := by
  have request := callocRequest_eq nElements elemSize
  have huge : chunkFor (2 ^ 64 - 1) = 2 ^ 64 - 1 := if_pos (by decide)
  have size : chunkFor (callocRequest n e) =
      if n * e < 2 ^ 64 then chunkFor (n * e) else 2 ^ 64 - 1 := by
    rw [request]
    split
    · rfl
    · exact huge
  rw [Malloc.dlcalloc]
  obtain ⟨mem, m', run, served⟩ | ⟨run, exhausted⟩ := sound.dlmalloc (callocRequest n e)
  · obtain ⟨v, chunks', rfl, carved, sound'⟩ := served
    have fits : n * e < 2 ^ 64 := by
      by_contra wide
      rw [if_neg wide] at size
      have := carved.fits.trans_lt (sound.less v carved.inside)
      omega
    rw [if_pos fits] at request size
    refine .inl ⟨fits, v + 16, m', ?_, v, chunks', rfl, size ▸ carved, sound'⟩
    rw [run, request]
    rfl
  · refine .inr ⟨_, ?_, exhausted, size⟩
    rw [run]
    rfl

theorem dlcalloc_spec_oneTop : ∃ nb,
    oneTop.dlcalloc ⟨16, 2048, by decide⟩ (2 ^ 32) (2 ^ 32) = .ok (.sysAlloc nb oneTop, 0) ∧
      nb = 2 ^ 64 - 1 := by
  obtain ⟨fits, -⟩ | ⟨nb, run, -, eq⟩ := dlcalloc_spec oneTop_sound (show 2 ^ 32 < 2 ^ 64 by decide)
    (show 2 ^ 32 < 2 ^ 64 by decide)
  · exact absurd fits (by decide)
  · exact ⟨nb, run, eq.trans (if_neg (by decide))⟩

end Vineyard.Heap

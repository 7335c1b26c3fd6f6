import Vineyard.Heap.Treebins
import Mathlib.Data.Finset.Basic

/-!
# The bins over a run

The bins hold a set of free chunks.  A run inserts chunks and takes chunks out, in any order, and in
between the program writes what it likes to everything that is not in a bin: no check fails, no loop
is endless, and the bins hold what was inserted and not taken out.
-/

namespace Vineyard.Heap

open Function Tries Trie

/-- The chunks in the bins. -/
def Holds (g : Statics) (m : Malloc) (chunks : Finset ℕ) : Prop :=
  ∃ small large, Small g m small ∧ Large g m large ∧
    ∀ p, p ∈ chunks ↔ (∃ i < 32, p ∈ small i) ∨ ∃ i < 32, p ∈ (large i).nodes

/-- The sizes of chunks. -/
structure ChunkSize (s : ℕ) : Prop where
  aligned : 8 ∣ s
  less : s < 2 ^ 40

/-- The bins and their chunks are the same in two states. -/
structure Foreign (g : Statics) (chunks : Finset ℕ) (m m' : Malloc) : Prop where
  leastAddr : m'.leastAddr = m.leastAddr
  smallmap : m'.smallmap = m.smallmap
  treemap : m'.treemap = m.treemap
  treebins : m'.treebins = m.treebins
  smallbins : ∀ i < 32, m'.fd (smallbinAt g i) = m.fd (smallbinAt g i) ∧
    m'.bk (smallbinAt g i) = m.bk (smallbinAt g i)
  chunk : ∀ p ∈ chunks, Same m m' p ∧ m'.index p = m.index p ∧ m'.head p = m.head p

inductive Call where
  | insertChunk (p : ℕ)
  | unlinkChunk (p : ℕ)
  | write (m : Malloc)

namespace Call

variable (g : Statics) (func : String)

def apply (m : Malloc) : Call → Except Fault Malloc
  | insertChunk p => m.insertChunk g func p (m.chunksize p)
  | unlinkChunk p => m.unlinkChunk g func p (m.chunksize p)
  | write m' => pure m'

/-- A chunk that is inserted lies apart from those in the bins, so that no field of one is in the
other. -/
def Permitted (m : Malloc) (chunks : Finset ℕ) : Call → Prop
  | insertChunk p => p ∉ chunks ∧ (∀ q ∈ chunks, p + m.chunksize p ≤ q ∨ q + m.chunksize q ≤ p) ∧
      Binnable g m p ∧ ChunkSize (m.chunksize p)
  | unlinkChunk p => p ∈ chunks
  | write m' => Foreign g chunks m m'

def chunks (before : Finset ℕ) : Call → Finset ℕ
  | insertChunk p => insert p before
  | unlinkChunk p => before.erase p
  | write _ => before

end Call

/-- A run of calls. -/
inductive Run (g : Statics) (func : String) (m : Malloc) (chunks : Finset ℕ) :
  Malloc → Finset ℕ → Prop
  | done : Run g func m chunks m chunks
  | step {m₁ m₂ : Malloc} {chunks₁ : Finset ℕ} (c : Call) (run : Run g func m chunks m₁ chunks₁)
    (permitted : c.Permitted g m₁ chunks₁) (result : c.apply g func m₁ = .ok m₂) :
    Run g func m chunks m₂ (c.chunks chunks₁)

section Steps

variable {g : Statics} {func : String} {m m' : Malloc} {chunks : Finset ℕ} {small : ℕ → List ℕ}
  {large : ℕ → Trie ℕ} {i j p x : ℕ}

theorem Small.less (bins : Small g m small) (less : i < 32) (inside : p ∈ small i) :
    m.chunksize p < 256 := by
  rw [bins.size i less p inside, smallIndex2size, smallbinShift, Nat.shiftLeft_eq]
  omega

theorem Large.least (bins : Large g m large) (less : i < 32) (inside : p ∈ (large i).nodes) :
    256 ≤ m.chunksize p :=
  (bins.member i less p inside).size.large

theorem isSmall_iff {s : ℕ} : isSmall s ↔ s < 256 := by
  simp only [isSmall, smallbinShift, nsmallbins, Nat.shiftRight_eq_div_pow]
  omega

/-- A change of small chunks leaves the tries alone. -/
theorem Large.keepSmall {fd bk : ℕ → ℕ} {smallmap : ℕ} (tries : Large g m large)
    (frame : ∀ j < 32, ∀ y ∈ (large j).nodes, fd y = m.fd y ∧ bk y = m.bk y) :
    Large g { m with fd, bk, smallmap } large :=
  tries.keep rfl rfl rfl fun j less y inside =>
    ⟨⟨(frame j less y inside).1, (frame j less y inside).2, rfl, rfl⟩, rfl, rfl⟩

theorem Small.outside (bins : Small g m small) (tries : Large g m large) (less : i < 32)
    (less' : j < 32) (inside : p ∈ (large j).nodes) : p ∉ smallbinAt g i :: small i := by
  rw [List.mem_cons, not_or]
  refine ⟨(tries.member j less' p inside).binnable.chunk i less, fun there => ?_⟩
  have := bins.less less there
  have := tries.least less' inside
  omega

/-- A property of one of the bins, one of which is changed. -/
theorem exists_update {α : Type} (f : ℕ → α) (P : α → Prop) {a : α} (less : i < 32) :
    (∃ j < 32, P (update f i a j)) ↔ P a ∨ ∃ j < 32, j ≠ i ∧ P (f j) := by
  constructor
  · rintro ⟨j, less', holds⟩
    obtain rfl | other := eq_or_ne j i
    · exact .inl (by rwa [update_self] at holds)
    · exact .inr ⟨j, less', other, by rwa [update_of_ne other] at holds⟩
  · rintro (holds | ⟨j, less', other, holds⟩)
    · exact ⟨i, less, by rwa [update_self]⟩
    · exact ⟨j, less', by rwa [update_of_ne other]⟩

theorem exists_split {α : Type} (f : ℕ → α) (P : α → Prop) (less : i < 32) :
    (∃ j < 32, P (f j)) ↔ P (f i) ∨ ∃ j < 32, j ≠ i ∧ P (f j) := by
  have split := exists_update f P (a := f i) less
  rwa [update_eq_self] at split

variable (func) in
theorem insertChunk_holds (holds : Holds g m chunks) (fresh : p ∉ chunks) (binnable : Binnable g m p)
    (size : ChunkSize (m.chunksize p)) : ∃ m', m.insertChunk g func p (m.chunksize p) = .ok m' ∧
      Holds g m' (insert p chunks) ∧ Kept m m' := by
  obtain ⟨small, large, bins, tries, mem⟩ := holds
  rw [mem, not_or] at fresh
  have notSmall : ∀ j < 32, p ∉ small j := fun j less there => fresh.1 ⟨j, less, there⟩
  have notLarge : ∀ j < 32, p ∉ (large j).nodes := fun j less there => fresh.2 ⟨j, less, there⟩
  rw [Malloc.insertChunk]
  by_cases isSmall : isSmall (m.chunksize p)
  · obtain ⟨i, eq⟩ := size.aligned
    have less := isSmall_iff.1 isSmall
    have sized : m.chunksize p = smallIndex2size i := by
      rw [eq, smallIndex2size, smallbinShift, Nat.shiftLeft_eq, Nat.mul_comm]
    have less' : i < 32 := by omega
    obtain ⟨fd, bk, smallmap, run, bins', frame⟩ := bins.insert func less' sized binnable notSmall
    have tries' : Large g { m with fd, bk, smallmap } large := tries.keepSmall fun j less y inside =>
      frame y (bins.outside tries less' less inside) (ne_of_mem_of_not_mem inside (notLarge j less))
    rw [if_pos isSmall, sized]
    refine ⟨_, run, ⟨_, large, bins', tries', fun q => ?_⟩, ⟨rfl, rfl, rfl, rfl, rfl, rfl, rfl⟩⟩
    rw [exists_update small (q ∈ ·) less', Finset.mem_insert, mem, exists_split small (q ∈ ·) less',
      List.mem_cons]
    simp only [or_assoc]
  · have sized : LargeSize (m.chunksize p) :=
      ⟨not_lt.1 fun less => isSmall (isSmall_iff.2 less), size.less⟩
    obtain ⟨i, bin⟩ : ∃ i, computeTreeIndex (m.chunksize p) = i := ⟨_, rfl⟩
    have less : i < 32 := bin ▸ sized.index_lt
    obtain ⟨m', run, tries', kept, smallmap, frame⟩ := tries.insert func sized bin binnable notLarge
    have bins' : Small g m' small := by
      refine bins.keep kept.leastAddr smallmap (fun j less' y inside => ?_) fun j _ y _ =>
        by rw [kept.chunksize]
      have same := frame y fun there => (List.mem_cons.1 there).elim
        (fun eq => (List.mem_cons.1 (eq ▸ inside)).elim (binnable.chunk j less') (notSmall j less'))
        fun there => bins.outside tries less' less there inside
      exact ⟨same.fd, same.bk⟩
    rw [if_neg isSmall]
    refine ⟨m', run, ⟨small, _, bins', tries', fun q => ?_⟩, kept⟩
    have perm : ((large i).insert m.chunksize p (bitsLeft i)).nodes.Perm (p :: (large i).nodes) :=
      nodes_insert
    rw [exists_update large (q ∈ ·.nodes) less, Finset.mem_insert, mem,
      exists_split large (q ∈ ·.nodes) less, perm.mem_iff, List.mem_cons, or_left_comm, or_assoc]

/-- A chunk is taken out of its ring. -/
theorem holds_erase {fd bk : ℕ → ℕ} {smallmap : ℕ} (bins : Small g m small) (tries : Large g m large)
    (mem : ∀ p, p ∈ chunks ↔ (∃ i < 32, p ∈ small i) ∨ ∃ i < 32, p ∈ (large i).nodes) (less : i < 32)
    (there : p ∈ small i)
    (bins' : Small g { m with fd, bk, smallmap } (update small i ((small i).erase p)))
    (frame : ∀ q, q ∉ smallbinAt g i :: small i → fd q = m.fd q ∧ bk q = m.bk q) :
    Holds g { m with fd, bk, smallmap } (chunks.erase p) := by
  have nodup : (small i).Nodup :=
    (List.nodup_cons.1 (bins.ring i less (List.ne_nil_of_mem there)).nodup).2
  have tries' : Large g { m with fd, bk, smallmap } large := tries.keepSmall fun j less' y inside =>
    frame y (bins.outside tries less less' inside)
  refine ⟨_, large, bins', tries', fun q => ?_⟩
  have others : ∀ j < 32, j ≠ i → p ∉ small j := fun j less' other there' =>
    other (bins.apart less' less there' there)
  have notLarge : ∀ j < 32, p ∉ (large j).nodes := fun j less' there' =>
    bins.outside tries less less' there' (List.mem_cons_of_mem _ there)
  rw [exists_update small (q ∈ ·) less, Finset.mem_erase, mem, exists_split small (q ∈ ·) less,
    nodup.mem_erase_iff]
  obtain rfl | other := eq_or_ne q p
  · refine iff_of_false (fun no => no.1 rfl) ?_
    rintro ((no | ⟨j, less', other, there'⟩) | ⟨j, less', there'⟩)
    · exact no.1 rfl
    · exact others j less' other there'
    · exact notLarge j less' there'
  · simp [other]

variable (func) in
/-- `unlink_first_small_chunk`, of a bin that is not empty. -/
theorem unlinkFirst_holds (holds : Holds g m chunks) (less : i < 32)
    (marked : m.smallmap.testBit i) : ∃ m',
    m.unlinkFirstSmallChunk func (smallbinAt g i) (m.fd (smallbinAt g i)) i = .ok m' ∧
    m.fd (smallbinAt g i) ∈ chunks ∧ m.chunksize (m.fd (smallbinAt g i)) = smallIndex2size i ∧
    Holds g m' (chunks.erase (m.fd (smallbinAt g i))) ∧ Kept m m' := by
  obtain ⟨small, large, bins, tries, mem⟩ := holds
  obtain ⟨fd, bk, smallmap, there, run, bins', frame⟩ :=
    bins.unlinkFirst func less ((bins.marked i less).1 marked)
  exact ⟨_, run, (mem _).2 (.inl ⟨i, less, there⟩), bins.size i less _ there,
    holds_erase bins tries mem less there bins' frame, ⟨rfl, rfl, rfl, rfl, rfl, rfl, rfl⟩⟩

variable (func) in
theorem unlinkChunk_holds (holds : Holds g m chunks) (inside : p ∈ chunks) : ∃ m',
    m.unlinkChunk g func p (m.chunksize p) = .ok m' ∧ Holds g m' (chunks.erase p) ∧ Kept m m' := by
  obtain ⟨small, large, bins, tries, mem⟩ := holds
  rw [Malloc.unlinkChunk]
  obtain ⟨i, less, there⟩ | ⟨i, less, there⟩ := (mem p).1 inside
  · have sized := bins.size i less p there
    have isSmall : isSmall (m.chunksize p) := isSmall_iff.2 (bins.less less there)
    obtain ⟨fd, bk, smallmap, run, bins', frame⟩ := bins.unlink func less there
    rw [if_pos isSmall, sized]
    exact ⟨_, run, holds_erase bins tries mem less there bins' frame,
      ⟨rfl, rfl, rfl, rfl, rfl, rfl, rfl⟩⟩
  · have notSmall : ¬isSmall (m.chunksize p) := fun isSmall =>
      absurd (isSmall_iff.1 isSmall) (not_lt.2 (tries.least less there))
    have nodup := tries.nodup i less
    have perm := nodes_erase there nodup
    have gone : p ∉ ((large i).erase p).nodes := (List.nodup_cons.1 (perm.nodup_iff.1 nodup)).1
    obtain ⟨m', run, tries', kept, smallmap, frame⟩ := tries.unlink func less there
    have bins' : Small g m' small := by
      refine bins.keep kept.leastAddr smallmap (fun j less' y inside => ?_) fun j _ y _ =>
        by rw [kept.chunksize]
      have same := frame y fun there => bins.outside tries less' less there inside
      exact ⟨same.fd, same.bk⟩
    rw [if_neg notSmall]
    refine ⟨m', run, ⟨small, _, bins', tries', fun q => ?_⟩, kept⟩
    have others : ∀ j < 32, j ≠ i → p ∉ (large j).nodes := fun j less' other there' =>
      other (tries.apart less' less there' there)
    have notIn : ∀ j < 32, p ∉ small j := fun j less' there' =>
      bins.outside tries less' less there (List.mem_cons_of_mem _ there')
    rw [exists_update large (q ∈ ·.nodes) less, Finset.mem_erase, mem,
      exists_split large (q ∈ ·.nodes) less, perm.mem_iff, List.mem_cons]
    obtain rfl | other := eq_or_ne q p
    · refine iff_of_false (fun no => no.1 rfl) ?_
      rintro (⟨j, less', there'⟩ | there' | ⟨j, less', other, there'⟩)
      · exact notIn j less' there'
      · exact gone there'
      · exact others j less' other there'
    · simp [other]

theorem write_holds (holds : Holds g m chunks) (foreign : Foreign g chunks m m') :
    Holds g m' chunks := by
  obtain ⟨small, large, bins, tries, mem⟩ := holds
  have inSmall : ∀ i < 32, ∀ y ∈ small i, y ∈ chunks := fun i less y there =>
    (mem y).2 (.inl ⟨i, less, there⟩)
  have inLarge : ∀ i < 32, ∀ y ∈ (large i).nodes, y ∈ chunks := fun i less y there =>
    (mem y).2 (.inr ⟨i, less, there⟩)
  have sizes : ∀ y ∈ chunks, m'.chunksize y = m.chunksize y := fun y there => by
    rw [Malloc.chunksize, Malloc.chunksize, (foreign.chunk y there).2.2]
  refine ⟨small, large, bins.keep foreign.leastAddr foreign.smallmap (fun i less y there =>
    ?_) fun i less y there =>
    sizes y (inSmall i less y there),
    tries.keep foreign.leastAddr foreign.treemap foreign.treebins fun i less y there =>
      ?_, mem⟩
  · obtain rfl | there := List.mem_cons.1 there
    · exact foreign.smallbins i less
    · have same := (foreign.chunk y (inSmall i less y there)).1
      exact ⟨same.fd, same.bk⟩
  · have inside := inLarge i less y there
    obtain ⟨same, index, -⟩ := foreign.chunk y inside
    exact ⟨same, index, sizes y inside⟩

variable (func) in
/-- A permitted call returns, and the bins hold what they should. -/
theorem Call.step (c : Call) (holds : Holds g m chunks) (permitted : c.Permitted g m chunks) : ∃ m',
    c.apply g func m = .ok m' ∧ Holds g m' (c.chunks chunks) := by
  cases c with
  | insertChunk p =>
    obtain ⟨fresh, -, binnable, size⟩ := permitted
    obtain ⟨m', run, holds, -⟩ := insertChunk_holds func holds fresh binnable size
    exact ⟨m', run, holds⟩
  | unlinkChunk p =>
    obtain ⟨m', run, holds, -⟩ := unlinkChunk_holds func holds permitted
    exact ⟨m', run, holds⟩
  | write m' => exact ⟨m', rfl, write_holds holds permitted⟩

/-- Bins as they are at first. -/
structure Empty (m : Malloc) : Prop where
  smallmap : m.smallmap = 0
  treemap : m.treemap = 0
  treebins : ∀ i < 32, m.treebins i = 0

theorem Empty.holds (empty : Empty m) : Holds g m ∅ := by
  refine ⟨fun _ => [], fun _ => leaf, ⟨?_, ?_, ?_, ?_⟩, ⟨empty.treebins, ?_, ?_, ?_, ?_⟩, ?_⟩
  all_goals simp [empty.smallmap, empty.treemap, Trie.nodes, Trie.Within]

/-- In every run from empty bins, the bins hold what was inserted and not taken out, and
the next call returns. -/
theorem bins_runs (empty : Empty m) {m₁ : Malloc} {chunks₁ : Finset ℕ}
    (run : Run g func m ∅ m₁ chunks₁) :
    Holds g m₁ chunks₁ ∧ ∀ c : Call, c.Permitted g m₁ chunks₁ → ∃ m₂, c.apply g func m₁ = .ok m₂ := by
  have kept : Holds g m₁ chunks₁ := by
    induction run with
    | done => exact empty.holds
    | step c run permitted result ih =>
      obtain ⟨m', run', holds'⟩ := c.step func ih permitted
      obtain rfl : _ = m' := Except.ok.inj (result.symm.trans run')
      exact holds'
  exact ⟨kept, fun c permitted => (c.step func kept permitted).imp fun _ => And.left⟩

end Steps

/-- A heap with a chunk of 4096 bytes. -/
def oneChunk : Malloc where
  prevFoot _ := 0
  head _ := 4097
  fd _ := 0
  bk _ := 0
  child _ _ := 0
  parent _ := 0
  index _ := 0
  smallmap := 0
  treemap := 0
  treebins _ := 0
  dvsize := 0
  topsize := 0
  leastAddr := 4096
  dv := 0
  top := 0

theorem bins_runs_oneChunk :
    ∃ m₁ m₂, (Call.insertChunk 8192).apply ⟨16, 2048, by decide⟩ "dlfree" oneChunk = .ok m₁ ∧
    (Call.unlinkChunk 8192).apply ⟨16, 2048, by decide⟩ "dlfree" m₁ = .ok m₂ := by
  have empty : Empty oneChunk := ⟨rfl, rfl, fun _ _ => rfl⟩
  have permitted : (Call.insertChunk 8192).Permitted ⟨16, 2048, by decide⟩ oneChunk ∅ := by
    refine ⟨Finset.notMem_empty _, fun _ inside => absurd inside (Finset.notMem_empty _),
      ⟨by decide, by decide, fun i _ => ?_⟩, by decide, by decide⟩
    show 8192 ≠ 16 + 16 * i
    omega
  have start : Run ⟨16, 2048, by decide⟩ "dlfree" oneChunk ∅ oneChunk ∅ := .done
  obtain ⟨m₁, first⟩ := (bins_runs empty start).2 (.insertChunk 8192) permitted
  obtain ⟨m₂, second⟩ := (bins_runs empty (.step _ start permitted first)).2 (.unlinkChunk 8192)
    (Finset.mem_insert_self ..)
  exact ⟨m₁, m₂, first, second⟩

end Vineyard.Heap

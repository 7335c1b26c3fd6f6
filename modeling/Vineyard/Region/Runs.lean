import Mathlib.Data.List.Perm.Basic
import Vineyard.Region.Init

/-!
# Runs of the region allocator

From the list that `mm_virtual_init` builds, any sequence of `mm_virtual_alloc` and `mm_virtual_free`
keeps the regions a tiling of the managed addresses by whole pages (`Paged`).  When only addresses
are freed that were returned and not yet freed, the used regions are exactly the live allocations
and the reserved ranges (`Ledger`).
-/

namespace Vineyard

open Tiling

/-- The managed addresses: the first one, and the end of the address space. -/
def managedLo : ℕ := 0xFFFFFE0000021000
def managedHi : ℕ := 2 ^ 64

/-- The regions tile the managed addresses, in whole pages. -/
structure Paged (rs : List Region) : Prop where
  tiles : Tiles Region.start Region.len managedLo rs managedHi
  pages : ∀ r ∈ rs, r.len % 0x1000 = 0

namespace Paged

variable {rs rs' : List Region} {size a n addr : ℕ}

theorem few (h : Paged rs) : rs.length < 2 ^ 64 := by
  have := h.tiles.length_le
  simp only [managedLo, managedHi] at this
  omega

theorem words (h : Paged rs) : ∀ r ∈ rs, r.start + r.len ≤ 2 ^ 64 :=
  fun _ mem => (h.tiles.bounds mem).2

theorem firstFit (h : Paged rs) (fit : FirstFit size rs a rs') (pos : 0 < size)
    (aligned : size % 0x1000 = 0) : Paged rs' := by
  have pages := h.pages
  cases fit with
  | exact l r k before free len =>
    refine ⟨h.tiles.replace rfl rfl, ?_⟩
    simp only [List.forall_mem_append, List.forall_mem_cons] at pages ⊢
    exact pages
  | split l r k before free len =>
    refine ⟨h.tiles.cut rfl rfl (Nat.add_sub_cancel' len.le) pos (Nat.sub_pos_of_lt len), ?_⟩
    simp only [List.forall_mem_append, List.forall_mem_cons] at pages ⊢
    exact ⟨pages.1, aligned, by omega, pages.2.2⟩

theorem firstFit_ne_zero (h : Paged rs) (fit : FirstFit size rs a rs') : a ≠ 0 := by
  obtain ⟨r, mem, rfl, _⟩ := fit.taken
  have := (h.tiles.bounds mem).1
  simp only [managedLo] at this
  omega

theorem release (h : Paged rs) (freed : Release addr rs n rs') : Paged rs' := by
  have pages := h.pages
  obtain ⟨l, r, k, before, used⟩ := freed
  refine ⟨h.tiles.replace rfl rfl, ?_⟩
  simp only [List.forall_mem_append, List.forall_mem_cons] at pages ⊢
  exact pages

/-- Every region starts at a page boundary. -/
theorem start_aligned (h : Paged rs) : ∀ r ∈ rs, r.start % 0x1000 = 0 :=
  fun _ mem => h.tiles.start_mod (by decide) h.pages mem

theorem initial {K : ℕ} (pos : 0 < K) (small : K < 0x80000000) (aligned : K % 0x1000 = 0) :
    Paged (initialRegions K) := by
  constructor
  · simp only [initialRegions, Tiles, managedLo, managedHi, slabVmBase, slabSize, true_and]
    omega
  · simp only [initialRegions, List.mem_cons, List.not_mem_nil, or_false, slabSize]
    rintro r (rfl | rfl | rfl | rfl | rfl | rfl | rfl | rfl) <;> simp only <;> omega

end Paged

/-- Runs of the region allocator: any allocations, and frees of any addresses. -/
inductive VmmRun (kernelSize : ℕ) : Vmm → Prop where
  | init {s₀ s : Vmm} (nodes : s₀.Nodes []) (nodesLeft : 8 ≤ s₀.slab.length)
      (call : mmVirtualInit kernelSize s₀ = .ok s) : VmmRun kernelSize s
  | alloc {s s' : Vmm} {pages a : ℕ} (run : VmmRun kernelSize s) (small : pages < 2 ^ 52)
      (call : mmVirtualAlloc pages s = .ok (a, s')) : VmmRun kernelSize s'
  | free {s s' : Vmm} {addr n : ℕ} (run : VmmRun kernelSize s)
      (call : mmVirtualFree addr s = .ok (n, s')) : VmmRun kernelSize s'

section Steps

variable {s s' : Vmm} {rs : List Region} {pages a addr n : ℕ}

/-- What an allocation that returns does to the regions. -/
theorem mmVirtualAlloc_cases (holds : s.Holds rs) (paged : Paged rs) (small : pages < 2 ^ 52)
    (call : mmVirtualAlloc pages s = .ok (a, s')) :
    (a = 0 ∧ s' = s) ∨
    (0 < pages ∧ ∃ rs', FirstFit (pages * 0x1000) rs a rs' ∧ s'.Holds rs') := by
  rcases Nat.eq_zero_or_pos pages with rfl | pos
  · left
    rw [mmVirtualAlloc, if_pos rfl] at call
    injection call with call
    injection call with first second
    exact ⟨first.symm, second.symm⟩
  obtain ⟨_, run⟩ | ⟨a', rs', s'', fit, run, holds', _⟩ | ⟨_, run⟩ :=
    mmVirtualAlloc_refines holds paged.few paged.words pos small
  · left
    rw [run] at call
    injection call with call
    injection call with first second
    exact ⟨first.symm, second.symm⟩
  · right
    rw [run] at call
    injection call with call
    injection call with first second
    subst first second
    exact ⟨pos, rs', fit, holds'⟩
  · rw [run] at call
    cases call

/-- What a free does to the regions. -/
theorem mmVirtualFree_cases (holds : s.Holds rs) (paged : Paged rs)
    (call : mmVirtualFree addr s = .ok (n, s')) :
    ((∀ x ∈ rs, ¬ x.UsedAt addr) ∧ n = 0 ∧ s' = s) ∨
    ∃ rs', Release addr rs n rs' ∧ s'.Holds rs' := by
  obtain ⟨none, run⟩ | ⟨n', rs', s'', freed, run, holds', _⟩ :=
    mmVirtualFree_refines holds paged.few addr
  · left
    rw [run] at call
    injection call with call
    injection call with first second
    exact ⟨none, first.symm, second.symm⟩
  · right
    rw [run] at call
    injection call with call
    injection call with first second
    subst first second
    exact ⟨rs', freed, holds'⟩

end Steps

/-- No region is both free and used, and there are no other flags. -/
def Flagged (rs : List Region) : Prop := ∀ r ∈ rs, r.flags = 0 ∨ r.flags = vmFree ∨ r.flags = vmUsed

namespace Flagged

variable {rs rs' : List Region} {size a n addr : ℕ}

theorem eq_vmFree (h : Flagged rs) {r : Region} (mem : r ∈ rs) (free : r.flags &&& vmFree ≠ 0) :
    r.flags = vmFree := by
  rcases h r mem with none | isFree | isUsed
  · simp [none] at free
  · exact isFree
  · simp [isUsed, vmFree, vmUsed] at free

theorem eq_vmUsed (h : Flagged rs) {r : Region} (mem : r ∈ rs) (used : r.flags &&& vmUsed ≠ 0) :
    r.flags = vmUsed := by
  rcases h r mem with none | isFree | isUsed
  · simp [none] at used
  · simp [isFree, vmFree, vmUsed] at used
  · exact isUsed

theorem initial (K : ℕ) : Flagged (initialRegions K) := by simp [Flagged, initialRegions]

theorem firstFit (h : Flagged rs) (fit : FirstFit size rs a rs') : Flagged rs' := by
  cases fit with
  | exact l r k before free len =>
    have used : markUsed r.flags = vmUsed := by
      rw [h.eq_vmFree (by simp) free]
      decide
    simp only [Flagged, List.forall_mem_append, List.forall_mem_cons, used] at h ⊢
    exact ⟨h.1, .inr (.inr trivial), h.2.2⟩
  | split l r k before free len =>
    have used : markUsed r.flags = vmUsed := by
      rw [h.eq_vmFree (by simp) free]
      decide
    simp only [Flagged, List.forall_mem_append, List.forall_mem_cons, used] at h ⊢
    exact ⟨h.1, .inr (.inr trivial), h.2.1, h.2.2⟩

theorem release (h : Flagged rs) (freed : Release addr rs n rs') : Flagged rs' := by
  obtain ⟨l, r, k, before, used⟩ := freed
  have free : markUnused r.flags = vmFree := by
    rw [h.eq_vmUsed (by simp) used.2]
    decide
  simp only [Flagged, List.forall_mem_append, List.forall_mem_cons, free] at h ⊢
  exact ⟨h.1, .inr (.inl trivial), h.2.2⟩

end Flagged

/-- Every state of a run holds regions that tile the managed addresses, each free, used or neither. -/
theorem VmmRun.regions {kernelSize : ℕ} (pos : 0 < pageUp kernelSize)
    (small : pageUp kernelSize < 0x80000000) {s : Vmm} (run : VmmRun kernelSize s) :
    ∃ rs, s.Holds rs ∧ Paged rs ∧ Flagged rs := by
  induction run with
  | init nodes nodesLeft call =>
    obtain ⟨s', init, holds, _⟩ := mmVirtualInit_holds nodes nodesLeft pos small
    rw [call] at init
    injection init with same
    exact ⟨_, same ▸ holds, Paged.initial pos small pageUp_aligned, Flagged.initial _⟩
  | alloc run lt call ih =>
    obtain ⟨rs, holds, paged, flagged⟩ := ih
    obtain ⟨_, rfl⟩ | ⟨some, rs', fit, holds'⟩ := mmVirtualAlloc_cases holds paged lt call
    · exact ⟨rs, holds, paged, flagged⟩
    · exact ⟨rs', holds', paged.firstFit fit (by omega) (by omega), flagged.firstFit fit⟩
  | free run call ih =>
    obtain ⟨rs, holds, paged, flagged⟩ := ih
    obtain ⟨_, _, rfl⟩ | ⟨rs', freed, holds'⟩ := mmVirtualFree_cases holds paged call
    · exact ⟨rs, holds, paged, flagged⟩
    · exact ⟨rs', holds', paged.release freed, flagged.release freed⟩

theorem VmmRun.paged {kernelSize : ℕ} (pos : 0 < pageUp kernelSize)
    (small : pageUp kernelSize < 0x80000000) {s : Vmm} (run : VmmRun kernelSize s) :
    ∃ rs, s.Holds rs ∧ Paged rs := by
  obtain ⟨rs, holds, paged, _⟩ := run.regions pos small
  exact ⟨rs, holds, paged⟩

section Returns

variable {s : Vmm} {rs : List Region} (holds : s.Holds rs) (paged : Paged rs)

include holds paged in
/-- An allocation returns as long as the cache has a node. -/
theorem mmVirtualAlloc_returns {pages : ℕ} (small : pages < 2 ^ 52) (nodeLeft : s.slab ≠ []) :
    ∃ a s', mmVirtualAlloc pages s = .ok (a, s') := by
  rcases Nat.eq_zero_or_pos pages with rfl | pos
  · exact ⟨0, s, by rw [mmVirtualAlloc, if_pos rfl]⟩
  obtain ⟨_, run⟩ | ⟨a, rs', s', _, run, _⟩ | ⟨none, _⟩ :=
    mmVirtualAlloc_refines holds paged.few paged.words pos small
  · exact ⟨0, s, run⟩
  · exact ⟨a, s', run⟩
  · exact absurd none nodeLeft

include holds paged in
theorem mmVirtualFree_returns (addr : ℕ) : ∃ n s', mmVirtualFree addr s = .ok (n, s') := by
  obtain ⟨_, run⟩ | ⟨n, rs', s', _, run, _⟩ := mmVirtualFree_refines holds paged.few addr
  · exact ⟨0, s, run⟩
  · exact ⟨n, s', run⟩

end Returns

/-- The pointers form one list of `nodes` nodes, and its nodes tile the managed addresses in whole
pages. -/
def Vmm.Tiled (s : Vmm) : Prop :=
  ∃ ps, Links.IsList s.next s.prev s.head s.tail ps ∧ s.nodes = ps.length ∧
    Tiles (fun p => (s.heap p).start) (fun p => (s.heap p).len) managedLo ps managedHi ∧
    ∀ p ∈ ps, (s.heap p).len % 0x1000 = 0

theorem Vmm.Holds.tiled_of_paged {s : Vmm} {rs : List Region} (holds : s.Holds rs)
    (paged : Paged rs) :
    s.Tiled := by
  obtain ⟨ps, nodes, rfl⟩ := holds
  refine ⟨ps, nodes.list, nodes.count, (tiles_map (f := s.region)).1 paged.tiles, fun p hp => ?_⟩
  exact paged.pages _ (List.mem_map_of_mem hp)

/-- `mm_virtual_init` returns, and from then on the nodes tile the managed addresses. -/
theorem VmmRun.tiled {kernelSize : ℕ} (pos : 0 < pageUp kernelSize)
    (small : pageUp kernelSize < 0x80000000) :
    (∀ s₀ : Vmm, s₀.Nodes [] → 8 ≤ s₀.slab.length → ∃ s, mmVirtualInit kernelSize s₀ = .ok s) ∧
    ∀ s, VmmRun kernelSize s → s.Tiled ∧
      (∀ pages < 2 ^ 52, s.slab ≠ [] → ∃ a s', mmVirtualAlloc pages s = .ok (a, s')) ∧
      ∀ addr, ∃ n s', mmVirtualFree addr s = .ok (n, s') := by
  refine ⟨fun s₀ nodes nodesLeft => ?_, fun s run => ?_⟩
  · obtain ⟨s, init, _⟩ := mmVirtualInit_holds nodes nodesLeft pos small
    exact ⟨s, init⟩
  · obtain ⟨rs, holds, paged⟩ := run.paged pos small
    exact ⟨holds.tiled_of_paged paged, fun _ lt left => mmVirtualAlloc_returns holds paged lt left,
      mmVirtualFree_returns holds paged⟩

theorem VmmRun.tiled_boot : ∃ s,
    mmVirtualInit 0x200000 (.empty (fun _ => ⟨0, 0, 0, 0, 0⟩) vmObjects) = .ok s ∧ s.Tiled := by
  obtain ⟨init, tiled⟩ := VmmRun.tiled (show 0 < pageUp 0x200000 by decide) (by decide)
  have nodesLeft : 8 ≤ (Vmm.empty (fun _ => ⟨0, 0, 0, 0, 0⟩) vmObjects).slab.length := by
    simp [Vmm.empty, vmObjects]
  obtain ⟨s, call⟩ := init _ vmObjects_empty nodesLeft
  exact ⟨s, call, (tiled s (.init vmObjects_empty nodesLeft call)).1⟩

/-! ## Live allocations -/

/-- Two ranges, each a start and a length, have no address in common. -/
def Apart (x y : ℕ × ℕ) : Prop := x.1 + x.2 ≤ y.1 ∨ y.1 + y.2 ≤ x.1

/-- The ranges of the used regions. -/
def usedRanges (rs : List Region) : List (ℕ × ℕ) :=
  (rs.filter fun r => r.flags = vmUsed).map fun r => (r.start, r.len)

/-- The range of an allocation, an address and a number of pages. -/
def pagesRange (x : ℕ × ℕ) : ℕ × ℕ := (x.1, x.2 * 0x1000)

/-- The used regions are the live allocations and the reserved ranges; everything else that is
flagged is free and lies below the reserved ranges. -/
structure Ledger (K : ℕ) (live : List (ℕ × ℕ)) (rs : List Region) : Prop where
  paged : Paged rs
  flags : ∀ r ∈ rs, r.flags = 0 ∨ r.flags = vmFree ∨ r.flags = vmUsed
  used : (usedRanges rs).Perm (live.map pagesRange ++ reservedRanges K)
  free_low : ∀ r ∈ rs, r.flags = vmFree → r.start + r.len ≤ slabVmBase
  live_low : ∀ x ∈ live, x.1 + x.2 * 0x1000 ≤ slabVmBase

namespace Ledger

variable {K size a n addr pages : ℕ} {live : List (ℕ × ℕ)} {rs rs' : List Region}

theorem usedRanges_append (l : List Region) (r : Region) (k : List Region) :
    usedRanges (l ++ r :: k) =
      usedRanges l ++ (if r.flags = vmUsed then [(r.start, r.len)] else []) ++ usedRanges k := by
  by_cases h : r.flags = vmUsed <;> simp [usedRanges, h]

theorem initial (pos : 0 < K) (small : K < 0x80000000) (aligned : K % 0x1000 = 0) :
    Ledger K [] (initialRegions K) := by
  refine ⟨Paged.initial pos small aligned, ?_, ?_, ?_, by simp⟩
  · simp [initialRegions]
  · exact List.Perm.refl _
  · simp [initialRegions, vmFree, vmUsed, slabVmBase]

theorem eq_vmFree (h : Ledger K live rs) {r : Region} (mem : r ∈ rs) (free : r.flags &&& vmFree ≠ 0) :
    r.flags = vmFree := Flagged.eq_vmFree h.flags mem free

/-- A live allocation is a used region. -/
theorem region_of_live (h : Ledger K live rs) (mem : (a, pages) ∈ live) :
    ∃ r ∈ rs, r.flags = vmUsed ∧ r.start = a ∧ r.len = pages * 0x1000 := by
  have used : pagesRange (a, pages) ∈ usedRanges rs :=
    h.used.mem_iff.2 (List.mem_append_left _ (List.mem_map_of_mem mem))
  obtain ⟨r, hr, e⟩ := List.mem_map.1 used
  obtain ⟨hr, flags⟩ := List.mem_filter.1 hr
  injection e with start len
  exact ⟨r, hr, by simpa using flags, start, len⟩

theorem firstFit (h : Ledger K live rs) (pos : 0 < pages)
    (fit : FirstFit (pages * 0x1000) rs a rs') : Ledger K ((a, pages) :: live) rs' := by
  have paged := h.paged.firstFit fit (by omega) (by omega)
  have flagged := Flagged.firstFit h.flags fit
  have used := h.used
  have low := h.free_low
  cases fit with
  | exact l r k before free len =>
    have isFree := h.eq_vmFree (by simp) free
    have isUsed : markUsed r.flags = vmUsed := by simp [isFree, markUsed, vmFree, vmUsed]
    rw [usedRanges_append, if_neg (by simp [isFree, vmFree, vmUsed]), List.append_nil] at used
    simp only [List.forall_mem_append, List.forall_mem_cons] at low
    refine ⟨paged, flagged, ?_, ?_, ?_⟩
    · rw [usedRanges_append, if_pos isUsed]
      simp only [List.append_assoc, List.map_cons, List.cons_append, pagesRange, ← len]
      exact List.perm_middle.trans (used.cons _)
    · simp only [List.forall_mem_append, List.forall_mem_cons, isUsed]
      exact ⟨low.1, fun e => absurd e (by decide), low.2.2⟩
    · rw [List.forall_mem_cons, ← len]
      exact ⟨low.2.1 isFree, h.live_low⟩
  | split l r k before free len =>
    have isFree := h.eq_vmFree (by simp) free
    have isUsed : markUsed r.flags = vmUsed := by simp [isFree, markUsed, vmFree, vmUsed]
    rw [usedRanges_append, if_neg (by simp [isFree, vmFree, vmUsed]), List.append_nil] at used
    simp only [List.forall_mem_append, List.forall_mem_cons] at low
    have fits := low.2.1 isFree
    refine ⟨paged, flagged, ?_, ?_, ?_⟩
    · have rest : usedRanges (⟨r.start + pages * 0x1000, r.len - pages * 0x1000, r.flags⟩ :: k) =
          usedRanges k := by
        simp [usedRanges, isFree, vmFree, vmUsed]
      rw [usedRanges_append, if_pos isUsed, rest]
      simp only [List.append_assoc, List.map_cons, List.cons_append, pagesRange]
      exact List.perm_middle.trans (used.cons _)
    · simp only [List.forall_mem_append, List.forall_mem_cons, isUsed]
      exact ⟨low.1, fun e => absurd e (by decide), fun _ => by omega, low.2.2⟩
    · rw [List.forall_mem_cons]
      exact ⟨by omega, h.live_low⟩

theorem release (h : Ledger K live rs) (mem : (a, pages) ∈ live) (freed : Release a rs n rs') :
    n = pages * 0x1000 ∧ Ledger K (live.erase (a, pages)) rs' := by
  obtain ⟨r₀, mem₀, flags₀, start₀, len₀⟩ := h.region_of_live mem
  have paged := h.paged.release freed
  have flagged := Flagged.release h.flags freed
  have used := h.used
  have low := h.free_low
  obtain ⟨l, r, k, before, start, isUsed⟩ := freed
  obtain rfl : r = r₀ := h.paged.tiles.eq_of_start (by simp) mem₀ (start.trans start₀.symm)
  subst start₀
  have isFree : markUnused r.flags = vmFree := by simp [flags₀, markUnused, vmFree, vmUsed]
  rw [usedRanges_append, if_pos flags₀] at used
  simp only [List.forall_mem_append, List.forall_mem_cons] at low
  refine ⟨len₀, paged, flagged, ?_, ?_, fun x hx => h.live_low x (List.mem_of_mem_erase hx)⟩
  · rw [usedRanges_append, if_neg (by simp [isFree, vmFree, vmUsed]), List.append_nil]
    simp only [List.append_assoc, List.singleton_append] at used
    have split : (live.map pagesRange).Perm
        (pagesRange (r.start, pages) :: (live.erase (r.start, pages)).map pagesRange) :=
      (List.perm_cons_erase mem).map pagesRange
    have both := (List.perm_middle.symm.trans used).trans (split.append_right (reservedRanges K))
    rw [pagesRange, ← len₀] at both
    exact both.cons_inv
  · simp only [List.forall_mem_append, List.forall_mem_cons]
    exact ⟨low.1, fun _ => len₀ ▸ h.live_low _ mem, low.2.2⟩

/-- Ranges of used regions have no address in common. -/
theorem usedRanges_apart (h : Paged rs) : (usedRanges rs).Pairwise Apart := by
  rw [usedRanges, List.pairwise_map]
  exact (h.tiles.pairwise.imp fun le => .inl le).filter _

theorem apart (h : Ledger K live rs) :
    (live.map pagesRange).Pairwise Apart ∧
    ∀ x ∈ live, ∀ y ∈ reservedRanges K, Apart (pagesRange x) y := by
  have symm : ∀ x y, Apart x y → Apart y x := fun _ _ => Or.symm
  have all := (h.used.pairwise_iff (fun {x y} => symm x y)).1 (usedRanges_apart h.paged)
  obtain ⟨lives, _, both⟩ := List.pairwise_append.1 all
  exact ⟨lives, fun x hx y hy => both _ (List.mem_map_of_mem hx) y hy⟩

/-- The free of a live allocation returns its length. -/
theorem free_live {s : Vmm} (h : Ledger K live rs) (holds : s.Holds rs) (mem : (a, pages) ∈ live) :
    ∃ s' rs', mmVirtualFree a s = .ok (pages * 0x1000, s') ∧ s'.Holds rs' ∧
      Ledger K (live.erase (a, pages)) rs' := by
  obtain ⟨none, _⟩ | ⟨n, rs', s', freed, run, holds', _⟩ := mmVirtualFree_refines holds h.paged.few a
  · obtain ⟨r, hr, flags, start, _⟩ := h.region_of_live mem
    exact absurd ⟨start, by simp [flags, vmUsed]⟩ (none r hr)
  · obtain ⟨rfl, ledger⟩ := h.release mem freed
    exact ⟨s', rs', run, holds', ledger⟩

end Ledger

/-- Runs in which only live allocations are freed; `live` lists their addresses and page counts. -/
inductive LedgerRun (kernelSize : ℕ) : List (ℕ × ℕ) → Vmm → Prop where
  | init {s₀ s : Vmm} (nodes : s₀.Nodes []) (nodesLeft : 8 ≤ s₀.slab.length)
      (call : mmVirtualInit kernelSize s₀ = .ok s) : LedgerRun kernelSize [] s
  | alloc {live : List (ℕ × ℕ)} {s s' : Vmm} {pages a : ℕ} (run : LedgerRun kernelSize live s)
      (small : pages < 2 ^ 52) (call : mmVirtualAlloc pages s = .ok (a, s')) :
      LedgerRun kernelSize (if a = 0 then live else (a, pages) :: live) s'
  | free {live : List (ℕ × ℕ)} {s s' : Vmm} {pages a n : ℕ} (run : LedgerRun kernelSize live s)
      (mem : (a, pages) ∈ live) (call : mmVirtualFree a s = .ok (n, s')) :
      LedgerRun kernelSize (live.erase (a, pages)) s'

theorem LedgerRun.vmmRun {kernelSize : ℕ} {live : List (ℕ × ℕ)} {s : Vmm}
    (run : LedgerRun kernelSize live s) : VmmRun kernelSize s := by
  induction run with
  | init nodes nodesLeft call => exact .init nodes nodesLeft call
  | alloc _ small call ih => exact .alloc ih small call
  | free _ _ call ih => exact .free ih call

/-- Every state of a run holds regions that agree with the live allocations. -/
theorem LedgerRun.ledger {kernelSize : ℕ} (pos : 0 < pageUp kernelSize)
    (small : pageUp kernelSize < 0x80000000) {live : List (ℕ × ℕ)} {s : Vmm}
    (run : LedgerRun kernelSize live s) :
    ∃ rs, s.Holds rs ∧ Ledger (pageUp kernelSize) live rs := by
  induction run with
  | init nodes nodesLeft call =>
    obtain ⟨s', init, holds, _⟩ := mmVirtualInit_holds nodes nodesLeft pos small
    rw [call] at init
    injection init with same
    exact ⟨_, same ▸ holds, Ledger.initial pos small pageUp_aligned⟩
  | @alloc live s s' pages a run lt call ih =>
    obtain ⟨rs, holds, ledger⟩ := ih
    obtain ⟨rfl, rfl⟩ | ⟨some, rs', fit, holds'⟩ := mmVirtualAlloc_cases holds ledger.paged lt call
    · exact ⟨rs, holds, ledger⟩
    · rw [if_neg (ledger.paged.firstFit_ne_zero fit)]
      exact ⟨rs', holds', ledger.firstFit some fit⟩
  | free run mem call ih =>
    obtain ⟨rs, holds, ledger⟩ := ih
    obtain ⟨s'', rs', free, holds', ledger'⟩ := ledger.free_live holds mem
    rw [call] at free
    injection free with same
    injection same with _ same
    exact ⟨rs', same ▸ holds', ledger'⟩

/-- Live allocations are page-aligned and apart from one another and from the reserved ranges, and
freeing one returns its length; an allocation returns as long as the cache has a node. -/
theorem LedgerRun.allocations_apart {kernelSize : ℕ} (pos : 0 < pageUp kernelSize)
    (small : pageUp kernelSize < 0x80000000) {live : List (ℕ × ℕ)} {s : Vmm}
    (run : LedgerRun kernelSize live s) :
    (∀ x ∈ live, x.1 % 0x1000 = 0) ∧
    live.Pairwise (fun x y => Apart (pagesRange x) (pagesRange y)) ∧
    (∀ x ∈ live, ∀ y ∈ reservedRanges (pageUp kernelSize), Apart (pagesRange x) y) ∧
    (∀ a pages, (a, pages) ∈ live → ∃ s', mmVirtualFree a s = .ok (pages * 0x1000, s')) ∧
    ∀ pages < 2 ^ 52, s.slab ≠ [] → ∃ a s', mmVirtualAlloc pages s = .ok (a, s') := by
  obtain ⟨rs, holds, ledger⟩ := run.ledger pos small
  obtain ⟨lives, reserved⟩ := ledger.apart
  refine ⟨fun x hx => ?_, List.pairwise_map.1 lives, reserved, fun a pages mem => ?_,
    fun pages lt left => mmVirtualAlloc_returns holds ledger.paged lt left⟩
  · obtain ⟨r, hr, _, start, _⟩ := ledger.region_of_live (show (x.1, x.2) ∈ live from hx)
    rw [← start]
    exact ledger.paged.start_aligned r hr
  · obtain ⟨s', _, run, _⟩ := ledger.free_live holds mem
    exact ⟨s', run⟩

theorem LedgerRun.allocations_apart_boot : ∃ a s, a ≠ 0 ∧ LedgerRun 0x200000 [(a, 3)] s ∧
    ∃ s', mmVirtualFree a s = .ok (3 * 0x1000, s') := by
  have nodesLeft : 8 ≤ (Vmm.empty (fun _ => ⟨0, 0, 0, 0, 0⟩) vmObjects).slab.length := by
    simp [Vmm.empty, vmObjects]
  obtain ⟨s, init, holds, slab⟩ := mmVirtualInit_holds vmObjects_empty nodesLeft
    (show 0 < pageUp 0x200000 by decide) (by decide)
  have run := LedgerRun.init vmObjects_empty nodesLeft init
  have paged := Paged.initial (K := 0x200000) (by decide) (by decide) (by decide)
  obtain ⟨none, _⟩ | ⟨a, rs', s', fit, call, _⟩ | ⟨empty, _⟩ :=
    mmVirtualAlloc_refines holds paged.few paged.words (show 0 < 3 by decide) (by decide)
  · exact absurd ⟨by decide, by decide⟩ (none ⟨0xFFFFFE0000021000, 0xFFFFFD7000, vmFree⟩ (by decide))
  · have nz := paged.firstFit_ne_zero fit
    have run' := run.alloc (by decide) call
    rw [if_neg nz] at run'
    exact ⟨a, s', nz, run',
      (LedgerRun.allocations_apart (by decide) (by decide) run').2.2.2.1 a 3 (by simp)⟩
  · rw [slab] at empty
    exact absurd empty (by decide)

end Vineyard

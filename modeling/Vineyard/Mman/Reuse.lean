import Vineyard.Mman.Calls
import Vineyard.Region.Runs

/-!
# Reserving the same number of pages again

Freed nodes are not merged, so a node that was cut off for an allocation stays as large as that
allocation, and no node before it is large enough.  First fit finds it again: from the second on, an
allocation of the same size takes no node from the cache.  This is what `pci_express_read` relies on,
which reserves a page for each access.
-/

namespace Vineyard

open Function

/-- Reserve pages and free them, as `pci_express_read` does. -/
def allocFree (pages : ℕ) (s : Vmm) : Except Fault Vmm := do
  let (a, s) ← mmVirtualAlloc pages s
  let (_, s) ← mmVirtualFree a s
  return s

/-- Do that `n` times in a row. -/
def allocFrees (pages : ℕ) : ℕ → Vmm → Except Fault Vmm
  | 0, s => .ok s
  | n + 1, s => do
      let s ← allocFree pages s
      allocFrees pages n s

/-- At most one node has been taken from the cache. -/
def Vmm.TookOne (s s' : Vmm) : Prop := s'.slab = s.slab ∨ ∃ new, s.slab = new :: s'.slab

variable {s s' : Vmm} {l r : List ℕ} {p a pages n : ℕ}

/-! ## The nodes taken -/

theorem mmVirtualInsertAfter_slab (after new : ℕ) (s : Vmm) :
    (mmVirtualInsertAfter after new s).slab = s.slab := by
  unfold mmVirtualInsertAfter
  split_ifs with null
  · rfl
  · dsimp only
    split_ifs <;> rfl

theorem mmVirtualAlloc_tookOne (call : mmVirtualAlloc pages s = .ok (a, s')) : s.TookOne s' := by
  rw [mmVirtualAlloc] at call
  split_ifs at call
  · obtain ⟨_, rfl⟩ := Prod.mk.inj (Except.ok.inj call)
    exact .inl rfl
  obtain ⟨alloc, _, call⟩ := Fallible.bind_eq_ok.1 call
  split_ifs at call
  · obtain ⟨_, rfl⟩ := Prod.mk.inj (Except.ok.inj call)
    exact .inl rfl
  · obtain ⟨_, rfl⟩ := Prod.mk.inj (Except.ok.inj call)
    exact .inl rfl
  · obtain ⟨⟨new, drawn⟩, draw, call⟩ := Fallible.bind_eq_ok.1 call
    obtain ⟨_, rfl⟩ := Prod.mk.inj (Except.ok.inj call)
    right
    refine ⟨new, ?_⟩
    rw [mmVirtualInsertAfter_slab]
    cases left : s.slab with
    | nil =>
      rw [mmSlabAlloc_empty left] at draw
      cases draw
    | cons x slab =>
      rw [mmSlabAlloc_ok left] at draw
      obtain ⟨rfl, rfl⟩ := Prod.mk.inj (Except.ok.inj draw)
      rfl

theorem mmVirtualFree_slab (call : mmVirtualFree a s = .ok (n, s')) : s'.slab = s.slab := by
  rw [mmVirtualFree] at call
  obtain ⟨free, _, call⟩ := Fallible.bind_eq_ok.1 call
  split_ifs at call
  all_goals
    obtain ⟨_, rfl⟩ := Prod.mk.inj (Except.ok.inj call)
    rfl

/-! ## The node that was cut off -/

/-- The flags of a node that is used, freed and used again. -/
theorem markUsed_markUnused (flags : ℕ) :
    markUsed (markUnused (markUsed flags)) = markUsed flags := by
  have keepUsed : (2 ^ 64 - 1 - vmFree : ℕ) = 2 ^ 64 - (vmFree + 1) := rfl
  have keepFree : (2 ^ 64 - 1 - vmUsed : ℕ) = 2 ^ 64 - (vmUsed + 1) := rfl
  have apart : ∀ i, vmFree.testBit i = true → vmUsed.testBit i = false := by
    intro i
    rcases i with _ | i
    · decide
    · simp [vmFree, Nat.testBit_succ]
  apply Nat.eq_of_testBit_eq
  intro i
  simp only [markUsed, markUnused, keepUsed, keepFree, Nat.testBit_or, Nat.testBit_and,
    Nat.testBit_two_pow_sub_succ (show vmFree < 2 ^ 64 by decide),
    Nat.testBit_two_pow_sub_succ (show vmUsed < 2 ^ 64 by decide)]
  have := apart i
  cases vmFree.testBit i <;> cases vmUsed.testBit i <;> simp_all

theorem markUsed_used (flags : ℕ) : markUsed flags &&& vmUsed ≠ 0 := by
  rw [markUsed, Nat.and_or_distrib_right]
  exact fun zero => absurd (Nat.or_eq_zero_iff.1 zero).2 (by decide)

theorem markUnused_free (flags : ℕ) : markUnused flags &&& vmFree ≠ 0 := by
  rw [markUnused, Nat.and_or_distrib_right]
  exact fun zero => absurd (Nat.or_eq_zero_iff.1 zero).2 (by decide)

/-- `VM_FOREACH` stops at a node that passes the test when none before it does. -/
theorem Vmm.Nodes.find_eq (nodes : s.Nodes (l ++ p :: r)) (few : (l ++ p :: r).length < 2 ^ 64)
    {test : VmNode → Bool} (before : ∀ x ∈ l, test (s.heap x) = false)
    (here : test (s.heap p) = true) : vmFind s.heap test (2 ^ 64) s.head = .ok p := by
  have found : (l ++ p :: r).find? (fun x => test (s.heap x)) = some p :=
    List.find?_eq_some_iff_append.2 ⟨here, l, r, rfl, fun x mem => by simp [before x mem]⟩
  rw [nodes.foreach_eq test few, found]
  rfl

/-- Two writes to a node that undo each other. -/
theorem Vmm.modify_modify_self {f g : VmNode → VmNode} (undo : g (f (s.heap p)) = s.heap p) :
    (s.modify p f).modify p g = s := by
  rw [Vmm.modify, Vmm.modify_heap_self, undo]
  simp only [Vmm.modify, update_idem, update_eq_self]

/-- A node that is used can be freed and is found again when neither a node before it is large enough
nor one is used at the same address. -/
theorem Vmm.Nodes.reuse (nodes : s.Nodes (l ++ p :: r)) (few : (l ++ p :: r).length < 2 ^ 64)
    (pos : 0 < pages) (small : pages < 2 ^ 52) (len : (s.heap p).len = pages * 0x1000)
    (flags : ∃ f, (s.heap p).flags = markUsed f)
    (noFit : ∀ x ∈ l.map s.region, ¬ x.Fits (pages * 0x1000))
    (noUse : ∀ x ∈ l.map s.region, ¬ x.UsedAt (s.heap p).start) :
    ∃ s', mmVirtualFree (s.heap p).start s = .ok (pages * 0x1000, s') ∧
      mmVirtualAlloc pages s' = .ok ((s.heap p).start, s) := by
  obtain ⟨f, flags⟩ := flags
  have nz : p ≠ 0 := nodes.list.seg.ne_zero p (by simp)
  have out : p ∉ l := fun mem => (List.nodup_append.1 nodes.list.nodup).2.2 p mem p (by simp) rfl
  have freed : vmFind s.heap (fun n => n.start = (s.heap p).start ∧ n.flags &&& vmUsed ≠ 0)
      (2 ^ 64) s.head = .ok p := by
    refine nodes.find_eq few (fun x mem => ?_) ?_
    · have := noUse _ (List.mem_map_of_mem mem)
      simpa [Region.UsedAt, Vmm.region, VmNode.region] using this
    · simpa [flags] using markUsed_used f
  refine ⟨s.modify p fun n => { n with flags := markUnused n.flags }, ?_, ?_⟩
  · rw [mmVirtualFree, freed, Fallible.ok_bind, if_neg nz, len]
    rfl
  · have nodes' : (s.modify p fun n => { n with flags := markUnused n.flags }).Nodes (l ++ p :: r) :=
      nodes.modify rfl rfl
    have found : vmFind (s.modify p fun n => { n with flags := markUnused n.flags }).heap
        (fun n => n.flags &&& vmFree ≠ 0 ∧ n.len ≥ pages * 0x1000) (2 ^ 64) s.head = .ok p := by
      refine nodes'.find_eq few (fun x mem => ?_) ?_
      · have ne : x ≠ p := fun e => out (e ▸ mem)
        rw [Vmm.modify_heap_of_ne _ _ ne]
        have := noFit _ (List.mem_map_of_mem mem)
        simpa [Region.Fits, Vmm.region, VmNode.region] using this
      · rw [Vmm.modify_heap_self]
        simpa [len] using markUnused_free _
    have head : (s.modify p fun n => { n with flags := markUnused n.flags }).head = s.head := rfl
    rw [mmVirtualAlloc, if_neg (by omega)]
    simp only [allocSize_eq small, head, found, Fallible.ok_bind, nz, if_false]
    have back : markUsed (markUnused (s.heap p).flags) = (s.heap p).flags := by
      rw [flags, markUsed_markUnused]
    rw [Vmm.modify_heap_self, if_pos len, Vmm.modify_heap_self, Vmm.modify_heap_self,
      Vmm.modify_modify_self]
    · rfl
    · rw [back]

/-- First fit leaves a used node of the size of the request behind nodes that are too small. -/
theorem FirstFit.node {size : ℕ} {rs rs' : List Region} (fit : FirstFit size rs a rs') :
    ∃ l r k f, rs' = l ++ r :: k ∧ r.start = a ∧ r.len = size ∧ r.flags = markUsed f ∧
      ∀ x ∈ l, ¬ x.Fits size := by
  cases fit with
  | exact l r k before free len => exact ⟨l, _, k, _, rfl, rfl, len, rfl, before⟩
  | split l r k before free len => exact ⟨l, _, _, _, rfl, rfl, rfl, rfl, before⟩

/-- What an allocation has returned can be freed and is what the next one returns. -/
theorem mmVirtualAlloc_again {rs : List Region} (holds : s.Holds rs) (paged : Paged rs)
    (small : pages < 2 ^ 52) (call : mmVirtualAlloc pages s = .ok (a, s')) (found : a ≠ 0) :
    ∃ s'', mmVirtualFree a s' = .ok (pages * 0x1000, s'') ∧
      mmVirtualAlloc pages s'' = .ok (a, s') := by
  obtain ⟨zero, _⟩ | ⟨pos, rs', fit, ps, nodes, regions⟩ :=
    mmVirtualAlloc_cases holds paged small call
  · exact absurd zero found
  have paged' := paged.firstFit fit (by omega) (by omega)
  obtain ⟨l', r', k', f, rfl, start, len, flags, noFit⟩ := fit.node
  obtain ⟨l, k, rfl, rfl, right⟩ := List.map_eq_append_iff.1 regions
  obtain ⟨p, r, rfl, rfl, rfl⟩ := List.map_eq_cons_iff.1 right
  have few := paged'.few
  rw [← List.map_cons, ← List.map_append, List.length_map] at few
  have again := nodes.reuse few pos small len ⟨f, flags⟩ noFit fun x mem used => ?_
  · rwa [show (s'.heap p).start = a from start] at again
  · have same := paged'.tiles.eq_of_start (List.mem_append_left _ mem)
      (List.mem_append_right _ List.mem_cons_self) used.1
    exact (List.nodup_append.1 paged'.tiles.nodup).2.2 x mem _ List.mem_cons_self same

/-- A free finds the region that starts at the address. -/
theorem Release.eq_of_start {l k rs : List Region} {r : Region} (paged : Paged (l ++ r :: k))
    (freed : Release r.start (l ++ r :: k) n rs) :
    rs = l ++ { r with flags := markUnused r.flags } :: k := by
  generalize all : l ++ r :: k = all' at freed paged
  rcases freed with ⟨l', r', k', before, used⟩
  have same : r' = r := paged.tiles.eq_of_start (by simp) (by simp [← all]) used.1
  subst same
  have nodup := paged.tiles.nodup
  rw [← all, List.nodup_append, List.nodup_cons] at nodup
  have notBefore : r' ∉ l := fun mem => nodup.2.2 r' mem r' (by simp) rfl
  have parts := (List.append_cons_inj_of_notMem notBefore nodup.2.1.1).1 all
  rw [parts.1, parts.2.2]

/-- Reserving pages and freeing them can cut a free region in two, but changes no flag. -/
theorem allocFree_inNode {rs : List Region} (holds : s.Holds rs) (paged : Paged rs)
    (flagged : Flagged rs) (small : pages < 2 ^ 52) {s₁ s₂ : Vmm}
    (call : mmVirtualAlloc pages s = .ok (a, s₁)) (found : a ≠ 0)
    (free : mmVirtualFree a s₁ = .ok (n, s₂)) (flag b : ℕ) : s₂.InNode flag b ↔ s.InNode flag b := by
  rcases mmVirtualAlloc_cases holds paged small call with ⟨zero, _⟩ | ⟨pos, rs₁, fit, holds₁⟩
  · exact absurd zero found
  have paged₁ := paged.firstFit fit (by omega) (by omega)
  have back : markUnused (markUsed vmFree) = vmFree := by decide
  rcases mmVirtualFree_cases holds₁ paged₁ free with ⟨none, _⟩ | ⟨rs₂, freed, holds₂⟩
  · rcases fit.node with ⟨l, r, k, f, rfl, start, _, flags, _⟩
    exact absurd ⟨start, flags ▸ markUsed_used f⟩ (none r (by simp))
  rw [holds.inNode_iff, holds₂.inNode_iff]
  cases fit with
  | exact l r k _ isFree len =>
    have flags := flagged.eq_vmFree (by simp) isFree
    rw [Release.eq_of_start paged₁ freed]
    show (∃ x ∈ l ++ ⟨r.start, r.len, markUnused (markUsed r.flags)⟩ :: k, _) ↔ _
    rw [flags, back, ← flags]
  | split l r k _ isFree len =>
    have flags := flagged.eq_vmFree (by simp) isFree
    rw [Release.eq_of_start paged₁ freed]
    simp only [flags, back, List.mem_append, List.mem_cons, or_and_right, exists_or, exists_eq_left]
    refine or_congr_right ?_
    rw [← or_assoc]
    refine or_congr_left ?_
    omega

theorem allocFree_eq {s₁ s₂ : Vmm} (call : mmVirtualAlloc pages s = .ok (a, s₁))
    (free : mmVirtualFree a s₁ = .ok (n, s₂)) : allocFree pages s = .ok s₂ := by
  simp only [allocFree, call, free, Fallible.ok_bind]
  rfl

/-- When a pair changes nothing, any number of them changes nothing. -/
theorem allocFrees_of_same (same : allocFree pages s = .ok s) (k : ℕ) :
    allocFrees pages k s = .ok s := by
  induction k with
  | zero => rfl
  | succ k ih => rw [allocFrees, same, Fallible.ok_bind, ih]

/-- Any number of pairs returns and takes at most one node, when the first allocation returns. -/
theorem allocFrees_tookOne {rs : List Region} (holds : s.Holds rs) (paged : Paged rs)
    (small : pages < 2 ^ 52) (call : mmVirtualAlloc pages s = .ok (a, s')) (k : ℕ) :
    ∃ s'', allocFrees pages k s = .ok s'' ∧ s.TookOne s'' := by
  by_cases found : a = 0
  · subst found
    have none : ∀ r ∈ rs, ¬ r.UsedAt 0 := fun r mem used => by
      have low := (paged.tiles.bounds mem).1
      rw [used.1] at low
      exact absurd low (by decide)
    obtain ⟨_, rfl⟩ | ⟨_, rs', fit, _⟩ := mmVirtualAlloc_cases holds paged small call
    · obtain ⟨_, free⟩ | ⟨_, _, _, freed, _⟩ := mmVirtualFree_refines holds paged.few 0
      · exact ⟨_, allocFrees_of_same (allocFree_eq call free) k, .inl rfl⟩
      · obtain ⟨l, r, _, _, used⟩ := freed
        exact absurd used (none r (List.mem_append_right _ List.mem_cons_self))
    · exact absurd rfl (paged.firstFit_ne_zero fit)
  · obtain ⟨s'', free, again⟩ := mmVirtualAlloc_again holds paged small call found
    cases k with
    | zero => exact ⟨s, rfl, .inl rfl⟩
    | succ k =>
      refine ⟨s'', ?_, ?_⟩
      · rw [allocFrees, allocFree_eq call free, Fallible.ok_bind,
          allocFrees_of_same (allocFree_eq again free)]
      · rw [Vmm.TookOne, mmVirtualFree_slab free]
        exact mmVirtualAlloc_tookOne call

/-- **Repeated allocations of one size** return the same address each time, and only the first takes
a node from the cache, if at all. -/
theorem VmmRun.alloc_again {kernelSize : ℕ} (pos : 0 < pageUp kernelSize)
    (small : pageUp kernelSize < 0x80000000) (run : VmmRun kernelSize s) (few : pages < 2 ^ 52)
    (call : mmVirtualAlloc pages s = .ok (a, s')) (found : a ≠ 0) :
    (∃ s'', mmVirtualFree a s' = .ok (pages * 0x1000, s'') ∧ s''.slab = s'.slab ∧
      mmVirtualAlloc pages s'' = .ok (a, s')) ∧
    ∀ k, ∃ s'', allocFrees pages k s = .ok s'' ∧ s.TookOne s'' := by
  obtain ⟨rs, holds, paged⟩ := run.paged pos small
  obtain ⟨s'', free, again⟩ := mmVirtualAlloc_again holds paged few call found
  exact ⟨⟨s'', free, mmVirtualFree_slab free, again⟩, allocFrees_tookOne holds paged few call⟩

theorem VmmRun.alloc_again_boot : ∃ s a s', a ≠ 0 ∧ VmmRun 0x200000 s ∧
    mmVirtualAlloc 1 s = .ok (a, s') ∧ ∃ s'', allocFrees 1 100 s = .ok s'' ∧ s.TookOne s'' := by
  have nodesLeft : 8 ≤ (Vmm.empty (fun _ => ⟨0, 0, 0, 0, 0⟩) vmObjects).slab.length := by
    simp [Vmm.empty, vmObjects]
  obtain ⟨s, init, holds, slab⟩ := mmVirtualInit_holds vmObjects_empty nodesLeft
    (show 0 < pageUp 0x200000 by decide) (by decide)
  have run : VmmRun 0x200000 s := .init vmObjects_empty nodesLeft init
  have paged := Paged.initial (K := 0x200000) (by decide) (by decide) (by decide)
  obtain ⟨none, _⟩ | ⟨a, rs', s', fit, call, _⟩ | ⟨empty, _⟩ :=
    mmVirtualAlloc_refines holds paged.few paged.words (show 0 < 1 by decide) (by decide)
  · exact absurd ⟨by decide, by decide⟩ (none ⟨0xFFFFFE0000021000, 0xFFFFFD7000, vmFree⟩ (by decide))
  · have found := paged.firstFit_ne_zero fit
    have again := VmmRun.alloc_again (by decide) (by decide) run (by decide) call found
    exact ⟨s, a, s', found, run, call, again.2 100⟩
  · rw [slab] at empty
    exact absurd empty (by decide)

/-! ## Configuration reads -/

/-- The region list after a configuration read is that after reserving and freeing a page. -/
theorem pciExpressRead_allocFree {segments : List PcieSegment} {mmio : ℕ → ℕ}
    {segment bus slot function offset data : ℕ} {s s' : Sys}
    (call : pciExpressRead segments mmio segment bus slot function offset s = .ok (data, s')) :
    allocFree 1 s.vmm = .ok s'.vmm := by
  obtain ⟨_, _, _, _, _, _, _, _, alloc, _, _, freed⟩ := pciExpressRead_eq_ok call
  exact allocFree_eq alloc freed

/-- Runs of configuration reads, which leave everything else to the devices. -/
inductive PciExpressReads (segments : List PcieSegment) (mmio : ℕ → ℕ) : ℕ → Sys → Sys → Prop where
  | none (s : Sys) : PciExpressReads segments mmio 0 s s
  | read {n : ℕ} {s s' s'' : Sys} {segment bus slot function offset data : ℕ}
      (call : pciExpressRead segments mmio segment bus slot function offset s = .ok (data, s'))
      (rest : PciExpressReads segments mmio n s' s'') :
      PciExpressReads segments mmio (n + 1) s s''

theorem PciExpressReads.allocFrees {segments : List PcieSegment} {mmio : ℕ → ℕ} {s s' : Sys}
    (reads : PciExpressReads segments mmio n s s') : allocFrees 1 n s.vmm = .ok s'.vmm := by
  induction reads with
  | none => rfl
  | read call _ ih => rw [Vineyard.allocFrees, pciExpressRead_allocFree call, Fallible.ok_bind, ih]

/-- Any number of configuration reads takes at most one node. -/
theorem PciExpressReads.tookOne {kernelSize : ℕ} (pos : 0 < pageUp kernelSize)
    (small : pageUp kernelSize < 0x80000000) {segments : List PcieSegment} {mmio : ℕ → ℕ} {s s' : Sys}
    (run : VmmRun kernelSize s.vmm) (reads : PciExpressReads segments mmio n s s') :
    s.vmm.TookOne s'.vmm := by
  obtain ⟨rs, holds, paged⟩ := run.paged pos small
  cases reads with
  | none => exact .inl rfl
  | @read n _ s₁ _ _ _ _ _ _ _ call rest =>
    have first := pciExpressRead_allocFree call
    have all := (PciExpressReads.read call rest).allocFrees
    obtain ⟨⟨a, vmm⟩, alloc, _⟩ := Fallible.bind_eq_ok.1 first
    obtain ⟨vmm', same, took⟩ := allocFrees_tookOne holds paged (by decide) alloc (n + 1)
    obtain rfl : s'.vmm = vmm' := Except.ok.inj (all.symm.trans same)
    exact took

end Vineyard

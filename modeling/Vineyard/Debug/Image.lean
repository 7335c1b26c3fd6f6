import Vineyard.Mman.Maps

/-!
# The copy of the kernel image

`debug_init` maps the copy of its own image that the loader has left in memory, to read the symbol
table from it.  The number of pages is rounded up from the size of the image alone, as if it started
with a page, and the mask for the first page has 32 bits.
-/

namespace Vineyard

/-- `debug_init` of `debug/trace.c` up to `header`, which is returned. -/
def debugInitMap (copy size : ℕ) (s : Sys) : Except Fault (ℕ × Sys) := do
  let size := pageUp size
  let (virt, vmm) ← mmVirtualAlloc (size >>> 12) s.vmm
  let mm ← mmVirtualMap (copy &&& 0xFFFFF000) virt (size >>> 12) pagePresent s.mm
  return (Word64.add virt (copy &&& 0xFFF), ⟨mm, vmm⟩)

/-- Every byte of the image is behind the address at the same distance from `header`. -/
def ImageMapped (m : Mm) (header copy size : ℕ) : Prop :=
  ∀ k < size, m.physical (header + k) = .ok (copy + k)

variable {s s' : Sys} {m m' : Mm} {vmm : Vmm} {virt copy size : ℕ}

theorem pageUp_bounds (small : size < 2 ^ 31) :
    ∃ n, pageUp size = n * 0x1000 ∧ size ≤ n * 0x1000 ∧ n * 0x1000 < size + 0x1000 := by
  refine ⟨(size + 0xFFF) / 0x1000, ?_, by omega, by omega⟩
  have low : 0xFFF &&& size = size % 0x1000 := by
    rw [Nat.and_comm]
    exact Words.and_low size 12
  have mask : (2 ^ 64 - 0x1000 : ℕ) = 2 ^ 64 - 2 ^ 12 := rfl
  rw [pageUp, low]
  split_ifs with spills
  · rw [Word64.add_eq (by omega), mask, Words.and_field _ _ _ (by decide)]
    omega
  · omega

/-- The bytes of a page follow one another. -/
theorem Mm.physical_of_translate {page p j : ℕ} (at_ : m.translate page = .ok p)
    (aligned : page % 0x1000 = 0) (lt : j < 0x1000) : m.physical (page + j) = .ok (p + j) := by
  refine Mm.physical_eq_ok.2 ⟨p, ?_, by omega⟩
  have entry : m.pte (page + j) = m.pte page := m.pte_congr (by omega)
  rw [Mm.translate_eq_ok, entry]
  exact Mm.translate_eq_ok.1 at_

/-- The page behind a mapped region is as it was before. -/
theorem Maps.behind {ps : List ℕ} {phys n flags p : ℕ} (maps : Maps m m' ps phys virt n flags)
    (region : ManagedPages virt 0 n) :
    m'.translate (virt + n * 0x1000) = .ok p ↔ m.translate (virt + n * 0x1000) = .ok p := by
  have aligned := region.aligned
  have low := region.low
  have high := region.high
  simp only [managedLo, slabVmBase, Nat.zero_add] at low high
  rw [Mm.translate_congr (maps.other _ ?_ ?_ fun k hk same => ?_)]
  · simp only [OutsideWindow]
    omega
  · simp only [pageNumber, stackAddr]
    omega
  · simp only [pageNumber] at same
    omega

/-- What the call does with the region it has reserved: the pages of the image are mapped there, from
the first one on, with bits 12 to 31 of its address only. -/
theorem debugInitMap_spec {n : ℕ} (region : ManagedPages virt 0 n) (ok : s.mm.Ok)
    (fresh : FreshSupply s.mm) (count : pageUp size >>> 12 = n) (few : n < 2 ^ 20)
    (alloc : mmVirtualAlloc n s.vmm = .ok (virt, vmm)) :
    (∃ mm ps, debugInitMap copy size s = .ok (virt + copy % 0x1000, ⟨mm, vmm⟩) ∧
      Maps s.mm mm ps (copy % 2 ^ 32 / 2 ^ 12 * 2 ^ 12) virt n pagePresent) ∨
    ∃ e, debugInitMap copy size s = .error e ∧ GetFailsWithin (3 * max 1 n) s.mm e := by
  have offset : copy &&& 0xFFF = copy % 0x1000 := Words.and_low copy 12
  have mask : (0xFFFFF000 : ℕ) = 2 ^ 32 - 2 ^ 12 := rfl
  have first : copy &&& 0xFFFFF000 = copy % 2 ^ 32 / 2 ^ 12 * 2 ^ 12 := by
    rw [mask, Words.and_field _ _ _ (by decide)]
  have physStop : copy % 2 ^ 32 / 2 ^ 12 * 2 ^ 12 + n * 0x1000 ≤ 2 ^ 52 := by omega
  have high := region.high
  simp only [slabVmBase] at high
  have pointer : Word64.add virt (copy % 0x1000) = virt + copy % 0x1000 := Word64.add_eq (by omega)
  have call : debugInitMap copy size s = do
      let mm ← mmVirtualMap (copy % 2 ^ 32 / 2 ^ 12 * 2 ^ 12) virt n pagePresent s.mm
      return (virt + copy % 0x1000, ⟨mm, vmm⟩) := by
    simp only [debugInitMap, count, alloc, offset, first, pointer, Fallible.ok_bind]
  rw [call]
  obtain ⟨mm, ps, run, maps⟩ | ⟨e, run, fails⟩ :=
    mmVirtualMapRec_spec ok fresh (region.mapArgs physStop) (Nat.lt_succ_self n)
  · exact .inl ⟨mm, ps, by rw [mmVirtualMap, run]; rfl, maps⟩
  · exact .inr ⟨e, by rw [mmVirtualMap, run]; rfl, fails⟩

/-- Where a mapping of the first `n` pages shows the image. -/
theorem Maps.imageMapped_iff {ps : List ℕ} {n : ℕ}
    (maps : Maps m m' ps (copy % 2 ^ 32 / 2 ^ 12 * 2 ^ 12) virt n pagePresent)
    (region : ManagedPages virt 0 n) (copyStop : copy < 2 ^ 52) (pos : 0 < size)
    (le : size ≤ n * 0x1000) (few : n < 2 ^ 20) :
    ImageMapped m' (virt + copy % 0x1000) copy size ↔ copy < 2 ^ 32 ∧
      (copy % 0x1000 + size ≤ n * 0x1000 ∨
        m.translate (virt + n * 0x1000) = .ok (copy - copy % 0x1000 + n * 0x1000)) := by
  have aligned := region.aligned
  have byte : ∀ k, copy % 0x1000 + k < n * 0x1000 → m'.physical (virt + copy % 0x1000 + k) =
      .ok (copy % 2 ^ 32 / 2 ^ 12 * 2 ^ 12 + (copy % 0x1000 + k)) := by
    intro k inside
    rw [Nat.add_assoc]
    exact maps.physical (by omega) (by omega) aligned (by decide) (by decide) inside
  constructor
  · intro image
    have zero := image 0 pos
    rw [byte 0 (by omega)] at zero
    have start := Except.ok.inj zero
    refine ⟨by omega, ?_⟩
    by_cases fits : copy % 0x1000 + size ≤ n * 0x1000
    · exact .inl fits
    right
    have behind := image (n * 0x1000 - copy % 0x1000) (by omega)
    rw [show virt + copy % 0x1000 + (n * 0x1000 - copy % 0x1000) = virt + n * 0x1000 by
      omega] at behind
    obtain ⟨page, at_, eq⟩ := Mm.physical_eq_ok.1 behind
    have before := (maps.behind region).1 at_
    rw [before, Except.ok.injEq]
    omega
  · rintro ⟨low, rest⟩ k hk
    by_cases inside : copy % 0x1000 + k < n * 0x1000
    · rw [byte k inside, Except.ok.injEq]
      omega
    have behind := (maps.behind region).2 (rest.resolve_left (by omega))
    have last := Mm.physical_of_translate behind (by omega)
      (show copy % 0x1000 + k - n * 0x1000 < 0x1000 by omega)
    rw [show virt + n * 0x1000 + (copy % 0x1000 + k - n * 0x1000) = virt + copy % 0x1000 + k by omega]
      at last
    rw [last, Except.ok.injEq]
    omega

/-- **The whole image is mapped** exactly when it starts below 4 GiB and either ends before the last
page of the region does, or the page behind the region is by chance the rest of the image. -/
theorem debugInitMap_imageMapped_iff {kernelSize : ℕ} {L : List (ℕ × ℕ)}
    (kernelPos : 0 < pageUp kernelSize) (kernelSmall : pageUp kernelSize < 0x80000000)
    (regions : LedgerRun kernelSize L s.vmm) (ok : s.mm.Ok) (fresh : FreshSupply s.mm)
    (copyStop : copy < 2 ^ 52) (pos : 0 < size) (small : size < 2 ^ 31)
    (alloc : mmVirtualAlloc (pageUp size >>> 12) s.vmm = .ok (virt, vmm)) (found : virt ≠ 0) :
    ((∃ mm, debugInitMap copy size s = .ok (virt + copy % 0x1000, ⟨mm, vmm⟩)) ∨
      ∃ e, debugInitMap copy size s = .error e ∧
        GetFailsWithin (3 * max 1 (pageUp size >>> 12)) s.mm e) ∧
    ∀ header s', debugInitMap copy size s = .ok (header, s') →
      (ImageMapped s'.mm header copy size ↔ copy < 2 ^ 32 ∧
        (copy % 0x1000 + size ≤ pageUp size ∨
          s.mm.translate (virt + pageUp size) = .ok (copy - copy % 0x1000 + pageUp size))) := by
  obtain ⟨rs, holds, ledger⟩ := regions.ledger kernelPos kernelSmall
  obtain ⟨n, up, le, lt⟩ := pageUp_bounds small
  have few : n < 2 ^ 20 := by omega
  have count : pageUp size >>> 12 = n := by
    rw [up, Nat.shiftRight_eq_div_pow]
    omega
  rw [count] at alloc
  obtain ⟨_, _, region, _⟩ := ledger.alloc holds (few.trans (by decide)) alloc found
  obtain ⟨mm, ps, call, maps⟩ | ⟨e, call, fails⟩ := debugInitMap_spec region ok fresh count few alloc
  · refine ⟨.inl ⟨mm, call⟩, fun header s' returned => ?_⟩
    obtain ⟨rfl, rfl⟩ := Prod.mk.inj (Except.ok.inj (call.symm.trans returned))
    rw [up]
    exact maps.imageMapped_iff region copyStop pos le few
  · refine ⟨.inr ⟨e, call, count ▸ fails⟩, fun header s' returned => ?_⟩
    cases call.symm.trans returned

/-- One page is left for the allocation. -/
theorem bootVmm_alloc (init : bootVmm = .ok vmm) {pages : ℕ}
    (room : (bootVmm >>= fun vmm => mmVirtualAlloc pages vmm >>= fun r =>
      .ok (decide (r.1 ≠ 0))) = .ok true) :
    ∃ virt vmm', mmVirtualAlloc pages vmm = .ok (virt, vmm') ∧ virt ≠ 0 := by
  rw [init, Fallible.ok_bind] at room
  obtain ⟨⟨virt, vmm'⟩, alloc, found⟩ := Fallible.bind_eq_ok.1 room
  exact ⟨virt, vmm', alloc, of_decide_eq_true (Except.ok.inj found)⟩

/-- An image of one page and a half, at the start of a page. -/
theorem debugInitMap_imageMapped_boot : ∃ vmm header s', LedgerRun 0x200000 [] vmm ∧
    debugInitMap 0x300000 0x1800 ⟨bootMm, vmm⟩ = .ok (header, s') ∧
    ImageMapped s'.mm header 0x300000 0x1800 := by
  obtain ⟨vmm, init, regions⟩ := bootVmm_run
  obtain ⟨⟨header, s'⟩, call⟩ := boot_returns (debugInitMap 0x300000 0x1800) init (by decide +kernel)
  obtain ⟨virt, vmm', alloc, found⟩ : ∃ virt vmm', mmVirtualAlloc (pageUp 0x1800 >>> 12) vmm =
    .ok (virt, vmm') ∧ virt ≠ 0 := bootVmm_alloc init (by decide +kernel)
  have image := debugInitMap_imageMapped_iff (s := ⟨bootMm, vmm⟩) (by decide) (by decide) regions
    bootMm_ok bootMm_serves.fresh (show 0x300000 < 2 ^ 52 by decide) (by decide)
      (by decide) alloc found
  exact ⟨vmm, header, s', regions, call, (image.2 header s' call).2 ⟨by decide, .inl (by decide)⟩⟩

/-- Of a page that starts in the middle of one, the second half is not mapped; of a page at 4 GiB,
nothing is. -/
theorem not_debugInitMap_imageMapped : ∃ vmm, LedgerRun 0x200000 [] vmm ∧
    (∃ virt vmm', mmVirtualAlloc (pageUp 0x1000 >>> 12) vmm = .ok (virt, vmm') ∧ virt ≠ 0) ∧
    (∃ header s', debugInitMap 0x300800 0x1000 ⟨bootMm, vmm⟩ = .ok (header, s') ∧
      ¬ ImageMapped s'.mm header 0x300800 0x1000) ∧
    ∃ header s', debugInitMap 0x100000000 0x1000 ⟨bootMm, vmm⟩ = .ok (header, s') ∧
      ¬ ImageMapped s'.mm header 0x100000000 0x1000 := by
  obtain ⟨vmm, init, regions⟩ := bootVmm_run
  refine ⟨vmm, regions, bootVmm_alloc init (by decide +kernel), ?_, ?_⟩
  · obtain ⟨⟨header, s'⟩, call⟩ :=
      boot_returns (debugInitMap 0x300800 0x1000) init (by decide +kernel)
    have lookup : (bootVmm >>= fun vmm => debugInitMap 0x300800 0x1000 ⟨bootMm, vmm⟩ >>= fun r =>
        .ok (r.2.mm.physical (r.1 + 0x800)).isOk) = .ok false := by decide +kernel
    rw [init, Fallible.ok_bind, call, Fallible.ok_bind] at lookup
    refine ⟨header, s', call, fun image => ?_⟩
    rw [image 0x800 (by decide)] at lookup
    cases lookup
  · obtain ⟨⟨header, s'⟩, call⟩ :=
      boot_returns (debugInitMap 0x100000000 0x1000) init (by decide +kernel)
    have lookup : (bootVmm >>= fun vmm => debugInitMap 0x100000000 0x1000 ⟨bootMm, vmm⟩ >>= fun r =>
        r.2.mm.physical r.1) = .ok 0 := by decide +kernel
    rw [init, Fallible.ok_bind, call, Fallible.ok_bind] at lookup
    refine ⟨header, s', call, fun image => ?_⟩
    have first := image 0 (by decide)
    rw [Nat.add_zero, lookup] at first
    exact absurd (Except.ok.inj first) (by decide)

end Vineyard

import Vineyard.Mman.Runs

/-!
# `mmap` without a free region

`mm_virtual_alloc` tells of its failure by the address 0, and `mmap` goes on with it: it takes a
physical page for each page of the request, maps the pages from address 0 on and returns 0.
-/

namespace Vineyard

/-- `MAP_FAILED` -/
def mapFailed : ℕ := 2 ^ 64 - 1

/-- No node with `VM_FREE` is at least `len` bytes long. -/
def Vmm.NoRoom (s : Vmm) (len : ℕ) : Prop :=
  ∀ n ∈ s.nodeList, ¬ (n.flags &&& vmFree ≠ 0 ∧ len ≤ n.len)

/-- The call returns `MAP_FAILED`, and all is as before. -/
def MmapFailsCleanly (addr len prot flags : ℕ) (fd off : ℤ) (s : Sys) : Prop :=
  mmap addr len prot flags fd off s = .ok (mapFailed, [], s)

variable {s : Sys} {rs : List Region} {len : ℕ}

theorem Vmm.NoRoom.not_fits {vmm : Vmm} (full : vmm.NoRoom len) (holds : vmm.Holds rs) :
    ∀ r ∈ rs, ¬ r.Fits len := by
  intro r mem
  rw [← holds.map_nodeList] at mem
  rcases List.mem_map.mp mem with ⟨n, listed, rfl⟩
  exact full n listed

/-- Without room the allocation returns 0 and leaves the list alone. -/
theorem mmVirtualAlloc_noRoom {vmm : Vmm} (holds : vmm.Holds rs) (few : rs.length < 2 ^ 64)
    (full : vmm.NoRoom len) (pos : 0 < len) (aligned : len % 0x1000 = 0) (word : len < 2 ^ 64) :
    mmVirtualAlloc (len >>> 12) vmm = .ok (0, vmm) := by
  have pages : len >>> 12 = len / 0x1000 := Nat.shiftRight_eq_div_pow len 12
  have whole : len / 0x1000 * 0x1000 = len := by omega
  rw [pages]
  apply mmVirtualAlloc_none holds few
  · omega
  · omega
  · rw [whole]
    exact full.not_fits holds

/-- A page is taken in each round. -/
theorem mmapLoop_length {virt f n i : ℕ} {m m' : Mm} {taken : List ℕ}
    (call : mmapLoop virt f n i m = .ok (taken, m')) : taken.length = n := by
  induction n generalizing i m m' taken with
  | zero =>
    rw [mmapLoop] at call
    rw [← (Prod.mk.inj (Except.ok.inj call)).1]
    rfl
  | succ n ih =>
    rw [mmapLoop] at call
    rcases Fallible.bind_eq_ok.1 call with ⟨⟨phys, m₁⟩, _, call⟩
    rcases Fallible.bind_eq_ok.1 call with ⟨m₂, _, call⟩
    rcases Fallible.bind_eq_ok.1 call with ⟨⟨rest, m₃⟩, loop, call⟩
    rw [← (Prod.mk.inj (Except.ok.inj call)).1, List.length_cons, ih loop]

/-- Without room `mmap` never fails cleanly: if it returns at all, it returns 0 and has taken a
physical page for each page of the request. -/
theorem mmap_not_failsCleanly (holds : s.vmm.Holds rs) (few : rs.length < 2 ^ 64)
    (full : s.vmm.NoRoom len) (pos : 0 < len) (aligned : len % 0x1000 = 0) (word : len < 2 ^ 64)
    (addr prot flags : ℕ) (fd off : ℤ) :
    ¬ MmapFailsCleanly addr len prot flags fd off s ∧
      ∀ a taken s', mmap addr len prot flags fd off s = .ok (a, taken, s') →
        a = 0 ∧ taken.length = len / 0x1000 ∧ s'.vmm = s.vmm := by
  have returned : ∀ a taken s', mmap addr len prot flags fd off s = .ok (a, taken, s') →
      a = 0 ∧ taken.length = len / 0x1000 ∧ s'.vmm = s.vmm := by
    intro a taken s' call
    rcases mmap_eq_ok call with ⟨vmm, mm, alloc, loop, rfl⟩
    rw [mmVirtualAlloc_noRoom holds few full pos aligned word] at alloc
    have both := Prod.mk.inj (Except.ok.inj alloc)
    have pages : len >>> 12 = len / 0x1000 := Nat.shiftRight_eq_div_pow len 12
    exact ⟨both.1.symm, (mmapLoop_length loop).trans pages, both.2.symm⟩
  refine ⟨fun clean => ?_, returned⟩
  have zero := (returned _ _ _ clean).1
  exact absurd zero (by decide)

/-- After boot, when the one free region has been handed out, and a call of `mmap` for one page. -/
theorem exhausted_boot : ∃ vmm s', VmmRun 0x200000 vmm ∧ vmm.NoRoom 0x1000 ∧
    mmap 0 0x1000 protRead (mapAnonymous ||| mapPrivate) (-1) 0 ⟨bootMm, vmm⟩ =
      .ok (0, [0x2FB000], s') ∧ mmVirtualGetPhys 0 s'.mm = .ok 0x2FB000 := by
  have nodesLeft : 8 ≤ (Vmm.empty (fun _ => ⟨0, 0, 0, 0, 0⟩) vmObjects).slab.length := by
    simp [Vmm.empty, vmObjects]
  rcases mmVirtualInit_holds vmObjects_empty nodesLeft
    (show 0 < pageUp 0x200000 by decide) (by decide)
    with ⟨boot, init, _⟩
  have outcome : (bootVmm >>= fun vmm => mmVirtualAlloc 0xFFFFFD7 vmm >>= fun r =>
      mmap 0 0x1000 protRead (mapAnonymous ||| mapPrivate) (-1) 0 ⟨bootMm, r.2⟩ >>= fun q =>
        mmVirtualGetPhys 0 q.2.2.mm >>= fun phys => .ok (q.1, q.2.1, phys,
          r.2.nodeList.all fun n => decide (¬ (n.flags &&& vmFree ≠ 0 ∧ 0x1000 ≤ n.len)))) =
      .ok (0, [0x2FB000], 0x2FB000, true) := by decide +kernel
  rw [show bootVmm = .ok boot from init, Fallible.ok_bind] at outcome
  rcases Fallible.bind_eq_ok.1 outcome with ⟨⟨a, vmm⟩, alloc, outcome⟩
  rcases Fallible.bind_eq_ok.1 outcome with ⟨⟨virt, taken, s'⟩, call, outcome⟩
  rcases Fallible.bind_eq_ok.1 outcome with ⟨phys, lookup, outcome⟩
  rcases Prod.mk.inj (Except.ok.inj outcome) with ⟨zero, values⟩
  rcases Prod.mk.inj values with ⟨one, values⟩
  rcases Prod.mk.inj values with ⟨page, none⟩
  dsimp only at zero one page none call lookup
  subst zero one page
  have full : vmm.NoRoom 0x1000 := fun n mem => of_decide_eq_true (List.all_eq_true.mp none n mem)
  exact ⟨vmm, s', .alloc (.init vmObjects_empty nodesLeft init) (by decide) alloc, full, call, lookup⟩

theorem mmap_not_failsCleanly_boot : ∃ vmm, VmmRun 0x200000 vmm ∧
    ¬ MmapFailsCleanly 0 0x1000 protRead (mapAnonymous ||| mapPrivate) (-1) 0 ⟨bootMm, vmm⟩ := by
  rcases exhausted_boot with ⟨vmm, _, run, full, _, _⟩
  rcases run.paged (by decide) (by decide) with ⟨rs, holds, paged⟩
  have never := mmap_not_failsCleanly (s := ⟨bootMm, vmm⟩) holds paged.few full
    (by decide) (by decide)
    (by decide) 0 protRead (mapAnonymous ||| mapPrivate) (-1) 0
  exact ⟨vmm, run, never.1⟩

/-- The call returns 0, and address 0, which had no translation, is mapped to the page taken. -/
theorem mmap_maps_zero : ∃ vmm s', VmmRun 0x200000 vmm ∧ vmm.NoRoom 0x1000 ∧
    mmap 0 0x1000 protRead (mapAnonymous ||| mapPrivate) (-1) 0 ⟨bootMm, vmm⟩ =
      .ok (0, [0x2FB000], s') ∧
    mmVirtualGetPhys 0 bootMm = .ok 0 ∧ mmVirtualGetPhys 0 s'.mm = .ok 0x2FB000 ∧
    ¬ MmapFailsCleanly 0 0x1000 protRead (mapAnonymous ||| mapPrivate) (-1) 0 ⟨bootMm, vmm⟩ := by
  rcases exhausted_boot with ⟨vmm, s', run, full, call, lookup⟩
  refine ⟨vmm, s', run, full, call, by decide +kernel, lookup, fun clean => ?_⟩
  rw [MmapFailsCleanly, call] at clean
  have zero := (Prod.mk.inj (Except.ok.inj clean)).1
  exact absurd zero (by decide)

end Vineyard

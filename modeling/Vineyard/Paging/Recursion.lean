import Vineyard.Paging.Lookups

/-!
# The recursive slot and the MMU

What the pointers of `mm_virtual_indices` reach, when the MMU follows them through slot 510, are the
entries that the MMU itself uses for the address, level by level; so `mm_virtual_get_phys` gives the
frame that the MMU uses.
-/

namespace Vineyard

variable {m : Mm} {addr : ℕ}

/-- The page and the index of the entry that the MMU uses for an address, at level `4 - n`. -/
def Mm.mmuEntry (m : Mm) (addr : ℕ) : ℕ → Option (ℕ × ℕ)
  | 0 => some (m.pml4, addr / 2 ^ 39 % 512)
  | n + 1 => (m.mmuEntry addr n).bind fun entry =>
      (childTable (m.mem entry.1 entry.2)).map fun table =>
        (table, addr / 2 ^ (39 - 9 * (n + 1)) % 512)

/-- The frame at the end of the MMU's walk; nothing if it faults. -/
def Mm.mmuFrame (m : Mm) (addr : ℕ) : Option ℕ :=
  (m.mmuEntry addr 3).bind fun entry => childTable (m.mem entry.1 entry.2)

/-- The pointer to the entry at level `4 - n`. -/
def VmIndices.entry (i : VmIndices) : ℕ → ℕ
  | 0 => entryAddr i.pml4 i.pml4i
  | 1 => entryAddr i.pml3 i.pml3i
  | 2 => entryAddr i.pml2 i.pml2i
  | _ => entryAddr i.pml1 i.pml1i

/-- The page and the word that the MMU reaches through a pointer. -/
def Mm.location (m : Mm) (pointer : ℕ) : Except Fault (ℕ × ℕ) := do
  let page ← m.translate pointer
  return (page, pointer / 8 % 512)

theorem Mm.location_eq {pointer page k : ℕ}
    (at_ : m.translate pointer = .ok page ∧ pointer / 8 % 512 = k) :
    m.location pointer = .ok (page, k) := by
  rw [Mm.location, at_.1, Fallible.ok_bind, at_.2]
  rfl

/-- The path to the table at level `4 - n`. -/
def mmuPath (addr : ℕ) : ℕ → List ℕ
  | 0 => []
  | n + 1 => addr / 2 ^ (39 - 9 * n) % 512 :: mmuPath addr n

theorem Mm.mmuEntry_eq (m : Mm) (addr : ℕ) {n : ℕ} (level : n < 4) :
    m.mmuEntry addr n = (m.walk (mmuPath addr n)).map fun table =>
      (table, addr / 2 ^ (39 - 9 * n) % 512) := by
  induction n with
  | zero => rfl
  | succ n ih =>
    rw [mmuEntry, ih (by omega), mmuPath, walk_cons]
    cases m.walk (mmuPath addr n) with
    | none => rfl
    | some table => rfl

/-- The MMU's walk, one level after the other, and its translation are the same. -/
theorem Mm.translate_mmuFrame (m : Mm) (addr : ℕ) : m.translate addr =
    match m.mmuFrame addr with
    | some frame => .ok frame
    | none => .error (.pageFault addr) := by
  have path : [addr / 2 ^ 12 % 512, addr / 2 ^ 21 % 512, addr / 2 ^ 30 % 512, addr / 2 ^ 39 % 512] =
      mmuPath addr 4 := rfl
  rw [translate, path, mmuPath, walk_cons, mmuFrame, m.mmuEntry_eq addr (by decide)]
  cases m.walk (mmuPath addr 3) with
  | none => rfl
  | some table => rfl

/-- **The window is the MMU's view of the tables**: the pointers reach the entries that the MMU uses,
as far as its walk goes, and the lookup returns its frame, or 0 if it faults. -/
theorem Mm.SelfMap.window_mmu (self : m.SelfMap) (canonical : Canonical addr) :
    (∀ n < 4, ∀ entry, m.mmuEntry addr n = some entry →
      m.location ((mmVirtualIndices addr).entry n) = .ok entry) ∧
    mmVirtualGetPhys addr m = .ok ((m.mmuFrame addr).getD 0) ∧
    ∀ frame, m.translate addr = .ok frame ↔ m.mmuFrame addr = some frame := by
  have word := canonical.word
  have lt : ∀ x : ℕ, x % 512 < 512 := fun x => Nat.mod_lt x (by decide)
  have translated := m.translate_mmuFrame addr
  refine ⟨fun n level entry used => ?_, ?_, fun frame => ?_⟩
  · rw [m.mmuEntry_eq addr level] at used
    obtain ⟨table, found, rfl⟩ := Option.map_eq_some_iff.1 used
    match n, level with
    | 0, _ =>
      obtain rfl := Option.some.inj (m.walk_nil.symm.trans found)
      rw [VmIndices.entry, mmVirtualIndices_pml4i word]
      exact location_eq (self.translate_pml4 (lt _))
    | 1, _ =>
      rw [VmIndices.entry, mmVirtualIndices_pml3i]
      exact location_eq (self.translate_pml3 word (lt _) found)
    | 2, _ =>
      rw [VmIndices.entry, mmVirtualIndices_pml2i]
      exact location_eq (self.translate_pml2 word (lt _) found)
    | 3, _ =>
      show m.location (entryAddr (mmVirtualIndices addr).pml1 (mmVirtualIndices addr).pml1i) = _
      rw [mmVirtualIndices_pml1i]
      exact location_eq (self.translate_pml1 word (lt _) found)
  · rw [self.getPhys_eq word]
    rw [m.translate_eq] at translated
    split_ifs at translated ⊢ with present
    · cases frame : m.mmuFrame addr with
      | none =>
        rw [frame] at translated
        cases translated
      | some f =>
        rw [frame] at translated
        rw [Except.ok.inj translated]
        rfl
    · cases frame : m.mmuFrame addr with
      | none => rfl
      | some f =>
        rw [frame] at translated
        cases translated
  · rw [translated]
    cases m.mmuFrame addr with
    | none => simp
    | some f => simp

/-- The window to the level-4 table of `bootMm`, which the MMU reaches through slot 510 alone. -/
theorem Mm.SelfMap.window_mmu_boot :
    bootMm.mmuEntry pml4Offset 3 = some (0x1000, 510) ∧
    bootMm.location ((mmVirtualIndices pml4Offset).entry 3) = .ok (0x1000, 510) ∧
    mmVirtualGetPhys pml4Offset bootMm = .ok 0x1000 := by
  have self : bootMm.SelfMap := by decide
  obtain ⟨entries, lookup, _⟩ := self.window_mmu (show Canonical pml4Offset by decide)
  have used : bootMm.mmuEntry pml4Offset 3 = some (0x1000, 510) := by decide +kernel
  have frame : bootMm.mmuFrame pml4Offset = some 0x1000 := by decide +kernel
  rw [frame] at lookup
  exact ⟨used, entries 3 (by decide) _ used, lookup⟩

end Vineyard

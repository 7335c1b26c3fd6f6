import Vineyard.Paging.Tables

/-!
# The window to the page tables

The pointers that `mm_virtual_indices` computes lead the MMU, through slot 510 once, twice, three or
four times, to the tables on the path of an address.  Reads and writes through them are reads and
writes of those tables, and the two lookups return the parts of the level-1 entry of an address
(`Mm.pte`).
-/

namespace Vineyard

open Function

/-- The path to the level-1 table of an address. -/
def tablePath (addr : ℕ) : List ℕ := [addr / 2 ^ 21 % 512, addr / 2 ^ 30 % 512, addr / 2 ^ 39 % 512]

/-- The index of an address in its level-1 table. -/
def pageSlot (addr : ℕ) : ℕ := addr / 2 ^ 12 % 512

/-- Paths to page tables; those through slot 510 lead back to tables that have another path. -/
structure LegalPath (p : List ℕ) : Prop where
  short : p.length ≤ 3
  outside : p.getLast? ≠ some 510
  indices : ∀ i ∈ p, i < 512

theorem LegalPath.tail {i : ℕ} {p : List ℕ} (h : LegalPath (i :: p)) : LegalPath p := by
  refine ⟨?_, ?_, fun j hj => h.indices j (List.mem_cons_of_mem _ hj)⟩
  · have := h.short
    rw [List.length_cons] at this
    omega
  · have := h.outside
    cases p with
    | nil => simp
    | cons j p => rwa [List.getLast?_cons_cons] at this

theorem legalPath_nil : LegalPath [] := ⟨by simp, by simp, by simp⟩

theorem legalPath_tablePath {addr : ℕ} (outside : addr / 2 ^ 39 % 512 ≠ 510) :
    LegalPath (tablePath addr) := by
  refine ⟨by simp [tablePath], by simpa [tablePath] using outside, ?_⟩
  intro i hi
  simp only [tablePath, List.mem_cons, List.not_mem_nil, or_false] at hi
  omega

theorem not_legalPath_cons {i : ℕ} {p : List ℕ} (length : p.length = 3) : ¬ LegalPath (i :: p) := by
  intro h
  have := h.short
  rw [List.length_cons] at this
  omega

/-! ## Indices and pointers -/

section Indices

variable {addr : ℕ} (word : addr < 2 ^ 64)

theorem and_0x1FF (x : ℕ) : x &&& 0x1FF = x % 512 := Words.and_low x 9

include word in
theorem mmVirtualIndices_pml4i : (mmVirtualIndices addr).pml4i = addr / 2 ^ 39 % 512 := by
  simp only [mmVirtualIndices, and_0x1FF, Nat.shiftRight_eq_div_pow, higherHalf]
  by_cases high : addr ≥ 0xFFFF800000000000
  · simp only [high, if_true]
    omega
  · simp only [high, if_false]

theorem mmVirtualIndices_pml3i : (mmVirtualIndices addr).pml3i = addr / 2 ^ 30 % 512 := by
  simp only [mmVirtualIndices, and_0x1FF, Nat.shiftRight_eq_div_pow, higherHalf]
  by_cases high : addr ≥ 0xFFFF800000000000
  · simp only [high, if_true]
    omega
  · simp only [high, if_false]

theorem mmVirtualIndices_pml2i : (mmVirtualIndices addr).pml2i = addr / 2 ^ 21 % 512 := by
  simp only [mmVirtualIndices, and_0x1FF, Nat.shiftRight_eq_div_pow, higherHalf]
  by_cases high : addr ≥ 0xFFFF800000000000
  · simp only [high, if_true]
    omega
  · simp only [high, if_false]

theorem mmVirtualIndices_pml1i : (mmVirtualIndices addr).pml1i = pageSlot addr := by
  simp only [mmVirtualIndices, and_0x1FF, Nat.shiftRight_eq_div_pow, higherHalf, pageSlot]
  by_cases high : addr ≥ 0xFFFF800000000000
  · simp only [high, if_true]
    omega
  · simp only [high, if_false]

include word in
theorem mmVirtualIndices_pml3 :
    (mmVirtualIndices addr).pml3 = pml3Offset + addr / 2 ^ 39 % 512 * 2 ^ 12 := by
  have i4 := mmVirtualIndices_pml4i word
  simp only [mmVirtualIndices, Nat.shiftLeft_eq] at i4 ⊢
  rw [i4]

include word in
theorem mmVirtualIndices_pml2 : (mmVirtualIndices addr).pml2 =
    pml2Offset + addr / 2 ^ 39 % 512 * 2 ^ 21 + addr / 2 ^ 30 % 512 * 2 ^ 12 := by
  have i4 := mmVirtualIndices_pml4i word
  have i3 := @mmVirtualIndices_pml3i addr
  simp only [mmVirtualIndices, Nat.shiftLeft_eq] at i4 i3 ⊢
  rw [i4, i3]

include word in
theorem mmVirtualIndices_pml1 : (mmVirtualIndices addr).pml1 =
    pml1Offset + addr / 2 ^ 39 % 512 * 2 ^ 30 + addr / 2 ^ 30 % 512 * 2 ^ 21 +
      addr / 2 ^ 21 % 512 * 2 ^ 12 := by
  have i4 := mmVirtualIndices_pml4i word
  have i3 := @mmVirtualIndices_pml3i addr
  have i2 := @mmVirtualIndices_pml2i addr
  simp only [mmVirtualIndices, Nat.shiftLeft_eq] at i4 i3 i2 ⊢
  rw [i4, i3, i2]

end Indices

/-! ## Translation through the window -/

/-- Slot 510 of the level-4 table points to that table. -/
def Mm.SelfMap (m : Mm) : Prop := childTable (m.mem m.pml4 510) = some m.pml4

instance (m : Mm) : Decidable m.SelfMap :=
  inferInstanceAs (Decidable (childTable (m.mem m.pml4 510) = some m.pml4))

namespace Mm

variable {m : Mm} {page index : ℕ}

theorem walk_nil (m : Mm) : m.walk [] = some m.pml4 := rfl

theorem walk_cons (m : Mm) (i : ℕ) (p : List ℕ) :
    m.walk (i :: p) = (m.walk p).bind fun n => childTable (m.mem n i) := rfl

/-- A path that starts in slot 510 starts at the level-4 table again. -/
theorem SelfMap.walk_window (self : m.SelfMap) (p : List ℕ) : m.walk (p ++ [510]) = m.walk p := by
  have once : m.walk [510] = some m.pml4 := self
  simp only [walk] at once ⊢
  rw [Radix.walk_append, once, Option.bind_some]

/-- The translation of a window address. -/
theorem SelfMap.translate_window (self : m.SelfMap) {p : List ℕ} {b c d k addr : ℕ}
    (found : m.walk p = some page) (hb : b < 512) (hc : c < 512) (hd : d < 512) (hk : k < 512)
    (same : m.walk [d, c, b] = m.walk p)
    (is : addr = pml1Offset + b * 2 ^ 30 + c * 2 ^ 21 + d * 2 ^ 12 + 8 * k) :
    m.translate addr = .ok page ∧ addr / 8 % 512 = k := by
  have i4 : addr / 2 ^ 39 % 512 = 510 := by simp only [pml1Offset] at is; omega
  have i3 : addr / 2 ^ 30 % 512 = b := by simp only [pml1Offset] at is; omega
  have i2 : addr / 2 ^ 21 % 512 = c := by simp only [pml1Offset] at is; omega
  have i1 : addr / 2 ^ 12 % 512 = d := by simp only [pml1Offset] at is; omega
  refine ⟨?_, by simp only [pml1Offset] at is; omega⟩
  have window := self.walk_window [d, c, b]
  rw [List.cons_append, List.cons_append, List.singleton_append] at window
  rw [translate, i4, i3, i2, i1, window, same, found]

variable {addr k : ℕ} (self : m.SelfMap) (word : addr < 2 ^ 64) (hk : k < 512)

include self hk in
theorem SelfMap.translate_pml4 : m.translate (entryAddr (mmVirtualIndices addr).pml4 k) = .ok m.pml4 ∧
    entryAddr (mmVirtualIndices addr).pml4 k / 8 % 512 = k := by
  have twice := self.walk_window [510, 510]
  have once := self.walk_window [510]
  have none := self.walk_window []
  refine self.translate_window (p := []) (b := 510) (c := 510) (d := 510) rfl (by decide) (by decide)
    (by decide) hk (twice.trans (once.trans none)) ?_
  simp only [entryAddr, mmVirtualIndices, pml4Offset, pml1Offset]
  omega

include self word hk in
theorem SelfMap.translate_pml3 (found : m.walk [addr / 2 ^ 39 % 512] = some page) :
    m.translate (entryAddr (mmVirtualIndices addr).pml3 k) = .ok page ∧
    entryAddr (mmVirtualIndices addr).pml3 k / 8 % 512 = k := by
  have twice := self.walk_window [addr / 2 ^ 39 % 512, 510]
  have once := self.walk_window [addr / 2 ^ 39 % 512]
  refine self.translate_window (b := 510) (c := 510) (d := addr / 2 ^ 39 % 512) found (by decide)
    (by decide) (Nat.mod_lt _ (by decide)) hk (twice.trans once) ?_
  rw [entryAddr, mmVirtualIndices_pml3 word]
  simp only [pml3Offset, pml1Offset]
  omega

include self word hk in
theorem SelfMap.translate_pml2
    (found : m.walk [addr / 2 ^ 30 % 512, addr / 2 ^ 39 % 512] = some page) :
    m.translate (entryAddr (mmVirtualIndices addr).pml2 k) = .ok page ∧
    entryAddr (mmVirtualIndices addr).pml2 k / 8 % 512 = k := by
  have once := self.walk_window [addr / 2 ^ 30 % 512, addr / 2 ^ 39 % 512]
  refine self.translate_window (b := 510) (c := addr / 2 ^ 39 % 512) (d := addr / 2 ^ 30 % 512) found
    (by decide) (Nat.mod_lt _ (by decide)) (Nat.mod_lt _ (by decide)) hk once ?_
  rw [entryAddr, mmVirtualIndices_pml2 word]
  simp only [pml2Offset, pml1Offset]
  omega

include self word hk in
theorem SelfMap.translate_pml1 (found : m.walk (tablePath addr) = some page) :
    m.translate (entryAddr (mmVirtualIndices addr).pml1 k) = .ok page ∧
    entryAddr (mmVirtualIndices addr).pml1 k / 8 % 512 = k := by
  refine self.translate_window (b := addr / 2 ^ 39 % 512) (c := addr / 2 ^ 30 % 512)
    (d := addr / 2 ^ 21 % 512) found (Nat.mod_lt _ (by decide)) (Nat.mod_lt _ (by decide))
    (Nat.mod_lt _ (by decide)) hk rfl ?_
  rw [entryAddr, mmVirtualIndices_pml1 word]

/-! ## Reading and writing entries -/

/-- The level-1 entry of an address, or 0 if there is no table for it. -/
def pte (m : Mm) (addr : ℕ) : ℕ :=
  match m.walk (tablePath addr) with
  | some page => m.mem page (pageSlot addr)
  | none => 0

theorem pte_of_walk (found : m.walk (tablePath addr) = some page) :
    m.pte addr = m.mem page (pageSlot addr) := by
  rw [pte, found]

/-- Addresses of one page have the same entry. -/
theorem pte_congr (m : Mm) {a b : ℕ} (page : a / 0x1000 = b / 0x1000) : m.pte a = m.pte b := by
  have path : tablePath a = tablePath b := by
    simp only [tablePath, List.cons.injEq, and_true]
    omega
  have slot : pageSlot a = pageSlot b := by
    simp only [pageSlot]
    omega
  rw [pte, pte, path, slot]

/-- The MMU looks at the level-1 entry. -/
theorem translate_eq (m : Mm) (a : ℕ) : m.translate a =
    if m.pte a &&& pagePresent ≠ 0 then .ok (m.pte a &&& frameMask) else .error (.pageFault a) := by
  have path := m.walk_cons (pageSlot a) (tablePath a)
  rw [translate, pte, show [a / 2 ^ 12 % 512, a / 2 ^ 21 % 512, a / 2 ^ 30 % 512, a / 2 ^ 39 % 512] =
    pageSlot a :: tablePath a from rfl, path]
  cases m.walk (tablePath a) with
  | none => simp
  | some page =>
    rw [Option.bind_some]
    simp only [childTable]
    split_ifs <;> rfl

theorem translate_eq_ok {a : ℕ} :
    m.translate a = .ok page ↔ m.pte a &&& pagePresent ≠ 0 ∧ m.pte a &&& frameMask = page := by
  rw [translate_eq]
  split_ifs with present <;> simp [present]

/-- Translations depend on the level-1 entry alone. -/
theorem translate_congr {m' : Mm} {a : ℕ} (same : m'.pte a = m.pte a) :
    m'.translate a = m.translate a := by
  rw [translate_eq, translate_eq, same]

theorem walk_of_pte (present : m.pte addr &&& pagePresent ≠ 0) :
    ∃ page, m.walk (tablePath addr) = some page := by
  cases found : m.walk (tablePath addr) with
  | none => simp [pte, found] at present
  | some page => exact ⟨page, rfl⟩

theorem load_of_translate (at_ : m.translate addr = .ok page ∧ addr / 8 % 512 = k) :
    m.load addr = .ok (m.mem page k) := by
  rw [load, at_.1, Fallible.ok_bind, at_.2]
  rfl

theorem store_of_translate {value : ℕ} (at_ : m.translate addr = .ok page ∧ addr / 8 % 512 = k) :
    m.store addr value = .ok (m.setEntry page k value) := by
  rw [store, at_.1, Fallible.ok_bind, at_.2]
  rfl

theorem childTable_eq_none {e : ℕ} : childTable e = none ↔ e &&& pagePresent = 0 := by
  rw [childTable]
  split_ifs with h <;> simpa using h

theorem childTable_eq_some {e page : ℕ} :
    childTable e = some page ↔ e &&& pagePresent ≠ 0 ∧ e &&& frameMask = page := by
  rw [childTable]
  split_ifs with h <;> simp [h]

include self word in
/-- The condition of the two lookups is the present bit of the level-1 entry. -/
theorem SelfMap.allPresent_eq : allPresent (mmVirtualIndices addr) m =
    .ok (decide (m.pte addr &&& pagePresent ≠ 0)) := by
  have lt : ∀ x : ℕ, x % 512 < 512 := fun x => Nat.mod_lt x (by decide)
  rw [allPresent, mmVirtualIndices_pml4i word, mmVirtualIndices_pml3i, mmVirtualIndices_pml2i,
    mmVirtualIndices_pml1i, load_of_translate (self.translate_pml4 (lt _)), Fallible.ok_bind]
  have path3 := m.walk_cons (addr / 2 ^ 39 % 512) []
  have path2 := m.walk_cons (addr / 2 ^ 30 % 512) [addr / 2 ^ 39 % 512]
  have path1 := m.walk_cons (addr / 2 ^ 21 % 512) [addr / 2 ^ 30 % 512, addr / 2 ^ 39 % 512]
  rw [walk_nil, Option.bind_some] at path3
  cases h3 : childTable (m.mem m.pml4 (addr / 2 ^ 39 % 512)) with
  | none =>
    rw [h3] at path3
    rw [path3, Option.bind_none] at path2
    rw [path2, Option.bind_none] at path1
    rw [if_pos (childTable_eq_none.1 h3), pte, tablePath, path1]
    simp
  | some t3 =>
    rw [h3] at path3
    rw [path3, Option.bind_some] at path2
    rw [if_neg (childTable_eq_some.1 h3).1, load_of_translate (self.translate_pml3 word (lt _) path3)]
    simp only [Fallible.ok_bind]
    cases h2 : childTable (m.mem t3 (addr / 2 ^ 30 % 512)) with
    | none =>
      rw [h2] at path2
      rw [path2, Option.bind_none] at path1
      rw [if_pos (childTable_eq_none.1 h2), pte, tablePath, path1]
      simp
    | some t2 =>
      rw [h2] at path2
      rw [path2, Option.bind_some] at path1
      rw [if_neg (childTable_eq_some.1 h2).1,
        load_of_translate (self.translate_pml2 word (lt _) path2)]
      simp only [Fallible.ok_bind]
      cases h1 : childTable (m.mem t2 (addr / 2 ^ 21 % 512)) with
      | none =>
        rw [h1] at path1
        rw [if_pos (childTable_eq_none.1 h1), pte, tablePath, path1]
        simp
      | some t1 =>
        rw [h1] at path1
        rw [if_neg (childTable_eq_some.1 h1).1, pageSlot,
          load_of_translate (self.translate_pml1 word (lt _) path1), pte_of_walk path1, pageSlot]
        simp

include self word in
theorem SelfMap.load_pte (present : m.pte addr &&& pagePresent ≠ 0) :
    m.load (entryAddr (mmVirtualIndices addr).pml1 (mmVirtualIndices addr).pml1i) =
      .ok (m.pte addr) := by
  have slot : pageSlot addr < 512 := Nat.mod_lt _ (by decide)
  rw [mmVirtualIndices_pml1i]
  cases found : m.walk (tablePath addr) with
  | none =>
    simp [pte, found] at present
  | some page => rw [load_of_translate (self.translate_pml1 word slot found), pte_of_walk found]

include self word in
theorem SelfMap.getPhys_eq : mmVirtualGetPhys addr m =
    .ok (if m.pte addr &&& pagePresent ≠ 0 then m.pte addr &&& frameMask else 0) := by
  rw [mmVirtualGetPhys]
  simp only [self.allPresent_eq word, Fallible.ok_bind, decide_eq_true_eq]
  split_ifs with present
  · rw [self.load_pte word present]
    rfl
  · rfl

include self word in
theorem SelfMap.getPhys_of_translate (at_ : m.translate addr = .ok page) :
    mmVirtualGetPhys addr m = .ok page := by
  obtain ⟨present, frame⟩ := translate_eq_ok.1 at_
  rw [self.getPhys_eq word, if_pos present, frame]

include self word in
theorem SelfMap.getFlags_eq : mmVirtualGetFlags addr m =
    .ok (if m.pte addr &&& pagePresent ≠ 0 then m.pte addr &&& flagsMask else 0) := by
  rw [mmVirtualGetFlags]
  simp only [self.allPresent_eq word, Fallible.ok_bind, decide_eq_true_eq]
  split_ifs with present
  · rw [self.load_pte word present]
    rfl
  · rfl

end Mm

/-! ## Pointers to an entry and to the table below it -/

/-- Wherever slot 510 points to the level-4 table, one address leads to entry `i` of the table on the
path, and the other to the table that this entry points to. -/
structure Points (p : List ℕ) (i entry table : ℕ) : Prop where
  toEntry : ∀ (m : Mm) n, m.SelfMap → m.walk p = some n →
    m.translate entry = .ok n ∧ entry / 8 % 512 = i
  toTable : ∀ (m : Mm) x, m.SelfMap → m.walk (i :: p) = some x → m.translate table = .ok x

theorem entryAddr_zero (table : ℕ) : entryAddr table 0 = table := by simp [entryAddr]

section Points

variable {addr : ℕ} (word : addr < 2 ^ 64)

theorem mod_512_lt (x : ℕ) : x % 512 < 512 := Nat.mod_lt x (by decide)

include word in
theorem points_pml4 : Points [] (addr / 2 ^ 39 % 512)
    (entryAddr (mmVirtualIndices addr).pml4 (mmVirtualIndices addr).pml4i)
    (mmVirtualIndices addr).pml3 := by
  refine ⟨fun m n self found => ?_, fun m x self found => ?_⟩
  · rw [mmVirtualIndices_pml4i word, ← Option.some.inj (m.walk_nil.symm.trans found)]
    exact self.translate_pml4 (mod_512_lt _)
  · rw [← entryAddr_zero (mmVirtualIndices addr).pml3]
    exact (self.translate_pml3 word (by decide) found).1

include word in
theorem points_pml3 : Points [addr / 2 ^ 39 % 512] (addr / 2 ^ 30 % 512)
    (entryAddr (mmVirtualIndices addr).pml3 (mmVirtualIndices addr).pml3i)
    (mmVirtualIndices addr).pml2 := by
  refine ⟨fun m n self found => ?_, fun m x self found => ?_⟩
  · rw [mmVirtualIndices_pml3i]
    exact self.translate_pml3 word (mod_512_lt _) found
  · rw [← entryAddr_zero (mmVirtualIndices addr).pml2]
    exact (self.translate_pml2 word (by decide) found).1

include word in
theorem points_pml2 : Points [addr / 2 ^ 30 % 512, addr / 2 ^ 39 % 512] (addr / 2 ^ 21 % 512)
    (entryAddr (mmVirtualIndices addr).pml2 (mmVirtualIndices addr).pml2i)
    (mmVirtualIndices addr).pml1 := by
  refine ⟨fun m n self found => ?_, fun m x self found => ?_⟩
  · rw [mmVirtualIndices_pml2i]
    exact self.translate_pml2 word (mod_512_lt _) found
  · rw [← entryAddr_zero (mmVirtualIndices addr).pml1]
    exact (self.translate_pml1 word (by decide) found).1

end Points

end Vineyard

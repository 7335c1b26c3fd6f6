import Vineyard.Int.Stubs
import Vineyard.Lib.Words

/-!
# The interrupt descriptor table

`kernel/int/idt.c` writes the table entry by entry into memory that it clears first.  Read back as the
processor reads it, the table has a gate for exactly the vectors that `isr.s` has a handler for, and
each gate leads to the handler that pushes its own vector.
-/

namespace Vineyard.Isr

open Bytes Function

/-- `idt_set` on the packed `struct idt_entry`: `offset_low`, `selector`, `ist`, `flags`, `offset_mid`,
`offset_high` and `zero` lie at 0, 2, 4, 5, 6, 8 and 12. -/
def idtSet (mem : Memory) (idt entry handler flags : ℕ) : Memory :=
  let e := idt + 16 * entry
  let mem := store mem (e + 2) 0x08 2
  let mem := store mem e (handler &&& 0xFFFF) 2
  let mem := store mem (e + 6) ((handler >>> 16) &&& 0xFFFF) 2
  let mem := store mem (e + 8) ((handler >>> 32) &&& 0xFFFFFFFF) 4
  store mem (e + 5) flags 1

/-- The entries in the order in which `idt_init` sets them. -/
def gates : List (ℕ × Stub) :=
  (List.finRange 32).map (fun n : Fin 32 => (n.val, .isrHandle n)) ++
    (List.finRange 24).map (fun n : Fin 24 => (32 + n.val, .isrHandleIrq n)) ++
    [(0xFD, .isrHandleLvtTimer), (0xFE, .isrHandleLvtError), (0xFF, .isrHandleSpurious)]

/-- `idt_init` with the arrays `idt` and `idtr` and the handlers at the given addresses. -/
def idtInit (mem : Memory) (idt idtr : ℕ) (address : Stub → ℕ) : Memory :=
  let mem := fill mem idt (16 * 256) 0
  let mem := gates.foldl (fun mem g => idtSet mem idt g.1 (address g.2) 0x8E) mem
  let mem := store mem (idtr + 2) idt 8
  store mem idtr (16 * 256 - 1) 2

/-- What `lidt` loads: the base and the limit. -/
def lidt (mem : Memory) (idtr : ℕ) : ℕ × ℕ := (load mem (idtr + 2) 8, load mem idtr 2)

/-! ## The processor -/

structure Gate where
  offset : ℕ
  selector : ℕ
  ist : ℕ
  /-- 0xE is an interrupt gate. -/
  kind : ℕ
  dpl : ℕ
deriving DecidableEq

/-- The gate that the processor reads for a vector, if it is inside the limit and present. -/
def gate (mem : Memory) (table : ℕ × ℕ) (vector : ℕ) : Option Gate :=
  let e := table.1 + 16 * vector
  let flags := load mem (e + 5) 1
  if 16 * vector + 15 ≤ table.2 ∧ flags / 128 = 1 then
    some {
      offset := load mem e 2 + 2 ^ 16 * load mem (e + 6) 2 + 2 ^ 32 * load mem (e + 8) 4
      selector := load mem (e + 2) 2
      ist := load mem (e + 4) 1 % 8
      kind := flags % 16
      dpl := flags / 32 % 4 }
  else none

/-- The gates of a table are those of the handlers of `isr.s`. -/
def Gates (mem : Memory) (table : ℕ × ℕ) (address : Stub → ℕ) : Prop :=
  ∀ v g, gate mem table v = some g ↔ ∃ s : Stub, s.id = v ∧ g = ⟨address s, 0x08, 0, 0xE, 0⟩

/-! ## Entries -/

variable {mem mem' : Memory} {idt idtr entry handler e : ℕ} {address : Stub → ℕ}

/-- An entry as `idt_set` leaves it. -/
def IsGate (mem : Memory) (e handler : ℕ) : Prop :=
  load mem e 2 = handler % 2 ^ 16 ∧ load mem (e + 2) 2 = 0x08 ∧ load mem (e + 4) 1 = 0 ∧
    load mem (e + 5) 1 = 0x8E ∧ load mem (e + 6) 2 = handler / 2 ^ 16 % 2 ^ 16 ∧
    load mem (e + 8) 4 = handler / 2 ^ 32 % 2 ^ 32

theorem IsGate.congr (h : IsGate mem e handler) (same : ∀ b, e ≤ b → b < e + 16 → mem' b = mem b) :
    IsGate mem' e handler := by
  have move {a n : ℕ} (low : e ≤ a) (high : a + n ≤ e + 16) : load mem' a n = load mem a n :=
    load_congr fun i less => same _ (by omega) (by omega)
  rw [IsGate, move (by omega) (by omega), move (by omega) (by omega), move (by omega) (by omega),
    move (by omega) (by omega), move (by omega) (by omega), move (by omega) (by omega)]
  exact h

theorem idtSet_off {b flags : ℕ} (off : b < idt + 16 * entry ∨ idt + 16 * entry + 16 ≤ b) :
    idtSet mem idt entry handler flags b = mem b := by
  simp only [idtSet]
  rw [store_outside (by omega), store_outside (by omega), store_outside (by omega),
    store_outside (by omega), store_outside (by omega)]

theorem idtSet_isGate (clear : load mem (idt + 16 * entry + 4) 1 = 0) :
    IsGate (idtSet mem idt entry handler 0x8E) (idt + 16 * entry) handler := by
  simp only [idtSet]
  generalize idt + 16 * entry = e at clear ⊢
  have low : handler &&& 0xFFFF = handler % 2 ^ 16 := Words.and_low handler 16
  have mid : (handler >>> 16) &&& 0xFFFF = handler / 2 ^ 16 % 2 ^ 16 := by
    rw [Nat.shiftRight_eq_div_pow]
    exact Words.and_low _ 16
  have high : (handler >>> 32) &&& 0xFFFFFFFF = handler / 2 ^ 32 % 2 ^ 32 := by
    rw [Nat.shiftRight_eq_div_pow]
    exact Words.and_low _ 32
  rw [low, mid, high]
  refine ⟨?_, ?_, ?_, ?_, ?_, ?_⟩
  · rw [load_store_off (by omega), load_store_off (by omega), load_store_off (by omega),
      load_store (by omega)]
  · rw [load_store_off (by omega), load_store_off (by omega), load_store_off (by omega),
      load_store_off (by omega), load_store (by omega)]
  · rw [load_store_off (by omega), load_store_off (by omega), load_store_off (by omega),
      load_store_off (by omega), load_store_off (by omega), clear]
  · rw [load_store (by omega)]
  · rw [load_store_off (by omega), load_store_off (by omega), load_store (by omega)]
  · rw [load_store_off (by omega), load_store (by omega)]

/-! ## The table -/

/-- Entries that are not set are left alone. -/
theorem setGates_off {gs : List (ℕ × Stub)} {v b : ℕ} (fresh : v ∉ gs.map Prod.fst)
    (low : idt + 16 * v ≤ b) (high : b < idt + 16 * v + 16) :
    gs.foldl (fun mem g => idtSet mem idt g.1 (address g.2) 0x8E) mem b = mem b := by
  induction gs generalizing mem with
  | nil => rfl
  | cons g gs ih =>
    rw [List.map_cons, List.mem_cons, not_or] at fresh
    rw [List.foldl_cons, ih fresh.2, idtSet_off (by omega)]

theorem setGates_isGate {gs : List (ℕ × Stub)} {v : ℕ} {s : Stub} (nodup : (gs.map Prod.fst).Nodup)
    (mem_gs : (v, s) ∈ gs) (clear : ∀ v, load mem (idt + 16 * v + 4) 1 = 0 ∨ v ∉ gs.map Prod.fst) :
    IsGate (gs.foldl (fun mem g => idtSet mem idt g.1 (address g.2) 0x8E) mem) (idt + 16 * v)
      (address s) := by
  induction gs generalizing mem with
  | nil => cases mem_gs
  | cons g gs ih =>
    rw [List.map_cons, List.nodup_cons] at nodup
    rw [List.foldl_cons]
    obtain rfl | mem_gs := List.mem_cons.1 mem_gs
    · have zero := (clear v).resolve_right (by simp)
      exact (idtSet_isGate zero).congr fun b low high => setGates_off nodup.1 low high
    · refine ih nodup.2 mem_gs fun w => ?_
      by_cases inside : w ∈ gs.map Prod.fst
      · have other : w ≠ g.1 := fun same => nodup.1 (same ▸ inside)
        have zero := (clear w).resolve_right fun out => out (List.mem_cons_of_mem _ inside)
        left
        rw [← zero]
        exact load_congr fun i less => idtSet_off (by omega)
      · exact .inr inside

/-- Only the table is written. -/
theorem setGates_outside {b : ℕ} (off : b < idt ∨ idt + 16 * 256 ≤ b) :
    gates.foldl (fun mem g => idtSet mem idt g.1 (address g.2) 0x8E) mem b = mem b := by
  have inside : ∀ g ∈ gates, g.1 < 256 := by decide
  generalize gates = gs at inside
  induction gs generalizing mem with
  | nil => rfl
  | cons g gs ih =>
    obtain ⟨first, rest⟩ := List.forall_mem_cons.1 inside
    rw [List.foldl_cons, ih rest, idtSet_off (by omega)]

theorem gates_nodup : (gates.map Prod.fst).Nodup := by decide

/-- The handler of an entry pushes the number of the entry, and every handler has an entry. -/
theorem mem_gates {v : ℕ} {s : Stub} : (v, s) ∈ gates ↔ s.id = v := by
  constructor
  · have all : ∀ g ∈ gates, g.2.id = g.1 := by decide
    exact all _
  · rintro rfl
    cases s with
    | isrHandle n => simp [gates, Stub.id]
    | isrHandleIrq n => simp [gates, Stub.id, Nat.add_comm]
    | isrHandleLvtTimer | isrHandleLvtError | isrHandleSpurious => decide

theorem Stub.id_injective : Injective Stub.id := fun s s' same =>
  congrArg Prod.snd (List.inj_on_of_nodup_map gates_nodup (mem_gates.2 rfl) (mem_gates.2 rfl) same :
    (s.id, s) = (s'.id, s'))

theorem idtInit_lidt (base : idt < 2 ^ 64) :
    lidt (idtInit mem idt idtr address) idtr = (idt, 16 * 256 - 1) := by
  simp only [lidt, idtInit]
  rw [load_store_off (by omega), load_store (by omega), load_store (by omega)]

section Table

variable (separate : idtr + 10 ≤ idt ∨ idt + 16 * 256 ≤ idtr)

include separate

/-- The descriptor is written after the table and beside it. -/
theorem idtInit_table {b : ℕ} (low : idt ≤ b) (high : b < idt + 16 * 256) :
    idtInit mem idt idtr address b =
      gates.foldl (fun mem g => idtSet mem idt g.1 (address g.2) 0x8E)
        (fill mem idt (16 * 256) 0) b := by
  simp only [idtInit]
  rw [store_outside (by omega), store_outside (by omega)]

theorem idtInit_isGate (mem : Memory) (address : Stub → ℕ) (s : Stub) :
    IsGate (idtInit mem idt idtr address) (idt + 16 * s.id) (address s) := by
  have inside := s.id_lt
  refine IsGate.congr (setGates_isGate gates_nodup (mem_gates.2 rfl) fun v => ?_) fun b low high =>
    idtInit_table separate (by omega) (by omega)
  by_cases known : v ∈ gates.map Prod.fst
  · obtain ⟨⟨v, s⟩, mem_gates', rfl⟩ := List.mem_map.1 known
    have := s.id_lt
    have := mem_gates.1 mem_gates'
    exact .inl (load_zero fun i less => fill_inside (by omega) (by omega))
  · exact .inr known

/-- Vectors without a handler have no gate. -/
theorem idtInit_absent (mem : Memory) (address : Stub → ℕ) {v : ℕ} (vector : v < 256)
    (unknown : ∀ s : Stub, s.id ≠ v) :
    load (idtInit mem idt idtr address) (idt + 16 * v + 5) 1 = 0 := by
  have fresh : v ∉ gates.map Prod.fst := fun known => by
    obtain ⟨⟨v, s⟩, mem_gates', rfl⟩ := List.mem_map.1 known
    exact unknown s (mem_gates.1 mem_gates')
  refine load_zero fun i less => ?_
  rw [idtInit_table separate (by omega) (by omega), setGates_off fresh (by omega) (by omega),
    fill_inside (by omega) (by omega)]

theorem gates_idtInit (addresses : ∀ s, address s < 2 ^ 64) :
    Gates (idtInit mem idt idtr address) (idt, 16 * 256 - 1) address := by
  intro v g
  simp only [gate]
  by_cases known : ∃ s : Stub, s.id = v
  · obtain ⟨s, rfl⟩ := known
    obtain ⟨low, selector, ist, flags, mid, high⟩ := idtInit_isGate separate mem address s
    have := s.id_lt
    have := addresses s
    rw [low, selector, ist, flags, mid, high, if_pos (by omega)]
    have offset : address s % 2 ^ 16 + 2 ^ 16 * (address s / 2 ^ 16 % 2 ^ 16) +
        2 ^ 32 * (address s / 2 ^ 32 % 2 ^ 32) = address s := by omega
    rw [offset]
    constructor
    · rintro ⟨⟩
      exact ⟨s, rfl, rfl⟩
    · rintro ⟨s', same, rfl⟩
      rw [Stub.id_injective same]
  · rw [if_neg]
    · constructor
      · nofun
      · rintro ⟨s, id, -⟩
        exact absurd ⟨s, id⟩ known
    · rintro ⟨limit, present⟩
      have absent := idtInit_absent separate mem address (v := v) (by omega) fun s id => known ⟨s, id⟩
      omega

/-- After `idt_init` the processor finds an interrupt gate for exactly the vectors that `isr.s` has a
handler for, and it leads to the handler that pushes the vector.  Other memory is left alone. -/
theorem idtInit_spec (base : idt < 2 ^ 64) (addresses : ∀ s, address s < 2 ^ 64) :
    (∀ v g,
      gate (idtInit mem idt idtr address) (lidt (idtInit mem idt idtr address) idtr) v = some g ↔
        ∃ s : Stub, s.id = v ∧ g = ⟨address s, 0x08, 0, 0xE, 0⟩) ∧
      ∀ b, b < idt ∨ idt + 16 * 256 ≤ b → b < idtr ∨ idtr + 10 ≤ b →
        idtInit mem idt idtr address b = mem b := by
  refine ⟨?_, fun b table descriptor => ?_⟩
  · rw [idtInit_lidt base]
    exact gates_idtInit separate addresses
  · simp only [idtInit]
    rw [store_outside (by omega), store_outside (by omega), setGates_outside table,
      fill_outside (by omega)]

end Table

theorem idtInit_spec_timer :
    gate (idtInit (fun _ => 0xFF) 0x8000 0x9000 fun s => 0x100000 + 16 * s.id)
        (lidt (idtInit (fun _ => 0xFF) 0x8000 0x9000 fun s => 0x100000 + 16 * s.id) 0x9000) 0xFD =
      some ⟨0x100FD0, 0x08, 0, 0xE, 0⟩ := by
  refine ((idtInit_spec (.inr (by decide)) (by decide) fun s => ?_).1 _ _).2
    ⟨.isrHandleLvtTimer, rfl, rfl⟩
  have := s.id_lt
  omega

end Vineyard.Isr

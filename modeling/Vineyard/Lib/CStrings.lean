import Mathlib.Data.List.GetD
import Vineyard.Lib.Bytes

/-!
# Strings in byte memory

`BytesAt mem a s` says that the bytes `s` lie at `a` and above, `StringAt mem a s` that they are a
string: none of them is zero, and a zero follows.
-/

namespace CStrings

open Bytes

def BytesAt (mem : Memory) (a : ℕ) (s : List UInt8) : Prop := ∀ i (less : i < s.length),
      mem (a + i) = s[i]

structure StringAt (mem : Memory) (a : ℕ) (s : List UInt8) : Prop where
  plain : ∀ c ∈ s, c ≠ 0
  bytes : BytesAt mem a s
  stop : mem (a + s.length) = 0

instance (mem : Memory) (a : ℕ) (s : List UInt8) : Decidable (BytesAt mem a s) :=
  inferInstanceAs (Decidable (∀ i (less : i < s.length), mem (a + i) = s[i]))

instance (mem : Memory) (a : ℕ) (s : List UInt8) : Decidable (StringAt mem a s) :=
  decidable_of_iff (0 ∉ s ∧ BytesAt mem a s ∧ mem (a + s.length) = 0)
    ⟨fun h => ⟨fun _ inside => ne_of_mem_of_not_mem inside h.1, h.2.1, h.2.2⟩,
      fun h => ⟨fun inside => h.plain 0 inside rfl, h.bytes, h.stop⟩⟩

/-- Memory with bytes written at `a` and above. -/
def write (mem : Memory) (a : ℕ) (s : List UInt8) : Memory := fun b =>
  if a ≤ b ∧ b < a + s.length then s.getD (b - a) 0 else mem b

variable {mem mem' : Memory} {a b i n : ℕ} {s t : List UInt8}

theorem BytesAt.congr (h : BytesAt mem a s) (same : ∀ i < s.length, mem' (a + i) = mem (a + i)) :
    BytesAt mem' a s :=
  fun i less => (same i less).trans (h i less)

theorem bytesAt_append : BytesAt mem a (s ++ t) ↔ BytesAt mem a s ∧ BytesAt mem (a + s.length) t := by
  constructor
  · intro h
    refine ⟨fun i less => ?_, fun i less => ?_⟩
    · rw [h i (by rw [List.length_append]; omega), List.getElem_append_left less]
    · have := h (s.length + i) (by rw [List.length_append]; omega)
      rw [Nat.add_assoc, this, List.getElem_append_right (by omega)]
      simp
  · rintro ⟨front, back⟩ i less
    rw [List.length_append] at less
    by_cases inside : i < s.length
    · rw [front i inside, List.getElem_append_left inside]
    · have := back (i - s.length) (by omega)
      rw [show a + s.length + (i - s.length) = a + i by omega] at this
      rw [this, List.getElem_append_right (by omega)]

theorem BytesAt.take (h : BytesAt mem a s) (n : ℕ) : BytesAt mem a (s.take n) := fun i less => by
  rw [List.getElem_take]
  exact h i (by rw [List.length_take] at less; omega)

theorem BytesAt.drop (h : BytesAt mem a s) (n : ℕ) : BytesAt mem (a + n) (s.drop n) :=
  fun i less => by
  rw [List.length_drop] at less
  rw [List.getElem_drop, Nat.add_assoc]
  exact h _ (by omega)

/-! ## Writing -/

theorem write_outside (off : b < a ∨ a + s.length ≤ b) : write mem a s b = mem b := by
  rw [write, if_neg (by omega)]

theorem bytesAt_write (mem : Memory) (a : ℕ) (s : List UInt8) : BytesAt (write mem a s) a s :=
  fun i less => by
  rw [write, if_pos (by omega), show a + i - a = i by omega, List.getD_eq_getElem _ _ less]

theorem write_nil : write mem a [] = mem := by
  funext b
  rw [write, if_neg (by simp)]

/-- Bytes that lie behind one another are written one after the other. -/
theorem write_append : write mem a (s ++ t) = write (write mem a s) (a + s.length) t := by
  funext b
  by_cases back : a + s.length ≤ b ∧ b < a + s.length + t.length
  · rw [write, if_pos (by rw [List.length_append]; omega),
      List.getD_append_right _ _ _ _ (by omega), write, if_pos back, Nat.sub_sub]
  · rw [write_outside (a := a + s.length) (by omega), write, write, List.length_append]
    by_cases front : a ≤ b ∧ b < a + s.length
    · rw [if_pos (by omega), if_pos front, List.getD_append _ _ _ _ (by omega)]
    · rw [if_neg (by omega), if_neg front]

theorem write_singleton (c : UInt8) : write mem a [c] = Function.update mem a c := by
  funext b
  by_cases here : b = a
  · rw [here, Function.update_self, write, if_pos (by simp), Nat.sub_self]
    rfl
  · rw [Function.update_of_ne here, write_outside (by simp; omega)]

/-! ## Strings -/

namespace StringAt

theorem congr (h : StringAt mem a s) (same : ∀ i ≤ s.length, mem' (a + i) = mem (a + i)) :
    StringAt mem' a s :=
  ⟨h.plain, h.bytes.congr fun i less => same i (by omega), (same _ (by omega)).trans h.stop⟩

theorem byte (h : StringAt mem a s) (less : i < s.length) : mem (a + i) = s[i] := h.bytes i less

theorem byte_ne (h : StringAt mem a s) (less : i < s.length) : mem (a + i) ≠ 0 := by
  rw [h.byte less]
  exact h.plain _ (List.getElem_mem less)

/-- What lies behind a byte of a string is a string. -/
theorem drop (h : StringAt mem a s) (le : n ≤ s.length) : StringAt mem (a + n) (s.drop n) := by
  refine ⟨fun c inside => h.plain c (List.mem_of_mem_drop inside), h.bytes.drop n, ?_⟩
  rw [List.length_drop, show a + n + (s.length - n) = a + s.length by omega]
  exact h.stop

end StringAt

theorem stringAt_nil : StringAt mem a [] ↔ mem a = 0 := by
  constructor
  · exact fun h => h.stop
  · exact fun zero => ⟨nofun, fun i less => absurd less (Nat.not_lt_zero i), zero⟩

theorem stringAt_cons {c : UInt8} : StringAt mem a (c :: s) ↔ c ≠ 0 ∧ mem a = c ∧
      StringAt mem (a + 1) s := by
  constructor
  · intro h
    exact ⟨h.plain c List.mem_cons_self, h.bytes 0 (by simp), h.drop (n := 1) (by simp)⟩
  · rintro ⟨plain, first, rest⟩
    refine ⟨List.forall_mem_cons.2 ⟨plain, rest.plain⟩, fun i less => ?_, ?_⟩
    · cases i with
      | zero => exact first
      | succ i =>
        have := rest.bytes i (by simpa using less)
        rwa [Nat.add_assoc, Nat.add_comm 1 i] at this
    · rw [List.length_cons, ← Nat.add_assoc, Nat.add_right_comm]
      exact rest.stop

theorem bytesAt_cons {c : UInt8} : BytesAt mem a (c :: s) ↔ mem a = c ∧ BytesAt mem (a + 1) s := by
  rw [← List.singleton_append, bytesAt_append]
  refine and_congr_left fun _ => ⟨fun h => h 0 Nat.one_pos, ?_⟩
  rintro rfl i less
  obtain rfl : i = 0 := by simpa using less
  rfl

/-- Bytes without a zero, with a zero behind them, are a string. -/
theorem stringAt_write (plain : ∀ c ∈ s, c ≠ 0) : StringAt (write mem a (s ++ [0])) a s := by
  have bytes := bytesAt_append.1 (bytesAt_write mem a (s ++ [0]))
  exact ⟨plain, bytes.1, bytes.2 0 (by simp)⟩

end CStrings

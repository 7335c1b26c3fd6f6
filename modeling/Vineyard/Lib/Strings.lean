import Mathlib.Data.List.Basic
import Mathlib.Data.Nat.Notation

/-!
# Strings behind a pointer

The memory from a pointer on is a map from offsets to bytes.  `chunkAt` puts bytes in front of memory,
`advance` moves the pointer, and `stringAt` is a string with its terminator.
-/

namespace Strings

/-- The memory from a pointer on: some bytes, and what lies behind them. -/
def chunkAt : List UInt8 → (ℕ → UInt8) → ℕ → UInt8
  | [], behind, i => behind i
  | c :: _, _, 0 => c
  | _ :: bytes, behind, i + 1 => chunkAt bytes behind i

/-- `c + n` -/
def advance (c : ℕ → UInt8) (n : ℕ) : ℕ → UInt8 := fun i => c (n + i)

/-- The `n` bytes at a pointer. -/
def chunkBytes (c : ℕ → UInt8) (n : ℕ) : List UInt8 := (List.range n).map c

theorem chunkAt_append (bytes more : List UInt8) (behind : ℕ → UInt8) :
    chunkAt (bytes ++ more) behind = chunkAt bytes (chunkAt more behind) := by
  induction bytes with
  | nil => rfl
  | cons c bytes ih =>
    funext i
    cases i with
    | zero => rfl
    | succ i => exact congrFun ih i

@[simp] theorem advance_chunkAt (bytes : List UInt8) (behind : ℕ → UInt8) :
    advance (chunkAt bytes behind) bytes.length = behind := by
  funext i
  unfold advance
  induction bytes with
  | nil => rw [List.length_nil, Nat.zero_add, chunkAt]
  | cons c bytes ih =>
    rw [List.length_cons, Nat.add_right_comm]
    exact ih

@[simp] theorem chunkBytes_chunkAt (bytes : List UInt8) (behind : ℕ → UInt8) :
    chunkBytes (chunkAt bytes behind) bytes.length = bytes := by
  unfold chunkBytes
  induction bytes with
  | nil => rfl
  | cons c bytes ih =>
    rw [List.length_cons, List.range_succ_eq_map, List.map_cons, List.map_map]
    exact congrArg (c :: ·) ih

/-- A string in memory, with its terminator. -/
def stringAt (string : List UInt8) (behind : ℕ → UInt8) : ℕ → UInt8 :=
  chunkAt string (chunkAt [0] behind)

theorem stringAt_append (bytes more : List UInt8) (behind : ℕ → UInt8) :
    stringAt (bytes ++ more) behind = chunkAt bytes (stringAt more behind) :=
  chunkAt_append bytes more _

/-- The bytes of a string, and then its terminator. -/
theorem stringAt_eq (string : List UInt8) (behind : ℕ → UInt8) :
    ∀ i ≤ string.length, stringAt string behind i = (string.drop i).headD 0 := by
  unfold stringAt
  induction string with
  | nil =>
    intro i inside
    obtain rfl := Nat.le_zero.mp inside
    rfl
  | cons c string ih =>
    intro i inside
    cases i with
    | zero => rfl
    | succ i => exact ih i (Nat.le_of_succ_le_succ inside)

theorem chunkBytes_succ (c : ℕ → UInt8) (n : ℕ) :
    chunkBytes c (n + 1) = c 0 :: chunkBytes (advance c 1) n := by
  unfold chunkBytes advance
  rw [List.range_succ_eq_map, List.map_cons, List.map_map]
  refine congrArg (c 0 :: ·) (List.map_congr_left fun i _ => ?_)
  exact congrArg c (Nat.add_comm i 1)

theorem advance_advance (c : ℕ → UInt8) (m n : ℕ) : advance (advance c m) n = advance c (m + n) :=
  funext fun i => congrArg c (Nat.add_assoc m n i).symm

/-- The bytes inside a string. -/
theorem chunkBytes_stringAt (string : List UInt8) (behind : ℕ → UInt8) (n : ℕ) :
    ∀ i, i + n ≤ string.length →
      chunkBytes (advance (stringAt string behind) i) n = (string.drop i).take n := by
  induction n with
  | zero => exact fun i _ => List.take_zero.symm
  | succ n ih =>
    intro i inside
    have lt : i < string.length := by omega
    rw [chunkBytes_succ, advance_advance, ih (i + 1) (by omega), List.drop_eq_getElem_cons lt,
      List.take_succ_cons]
    refine congrArg (· :: _) ?_
    show stringAt string behind (i + 0) = _
    rw [stringAt_eq string behind (i + 0) (by omega), Nat.add_zero, List.drop_eq_getElem_cons lt]
    rfl

end Strings

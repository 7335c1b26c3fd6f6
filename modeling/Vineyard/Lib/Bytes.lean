import Mathlib.Algebra.Group.Nat.Defs
import Mathlib.Tactic.Common

/-!
# Byte memory

A memory is a map from addresses to bytes.  Words are stored little-endian; `fill` and `copy` are
`memset` and a `memcpy` between ranges that do not overlap.
-/

namespace Bytes

abbrev Memory := ℕ → UInt8

/-- The little-endian number in the `n` bytes at `a`. -/
def load (mem : Memory) (a : ℕ) : ℕ → ℕ
  | 0 => 0
  | n + 1 => (mem a).toNat + 256 * load mem (a + 1) n

/-- Stores the number in the `n` bytes at `a`. -/
def store (mem : Memory) (a v n : ℕ) : Memory := fun b =>
  if a ≤ b ∧ b < a + n then UInt8.ofNat (v / 256 ^ (b - a)) else mem b

/-- `n` bytes at `a` become `v`. -/
def fill (mem : Memory) (a n : ℕ) (v : UInt8) : Memory := fun b =>
  if a ≤ b ∧ b < a + n then v else mem b

/-- `n` bytes at `dst` become those at `src` of `other`. -/
def copy (mem : Memory) (dst : ℕ) (other : Memory) (src n : ℕ) : Memory := fun b =>
  if dst ≤ b ∧ b < dst + n then other (src + (b - dst)) else mem b

variable {mem mem' other : Memory} {a b n v : ℕ}

/-- Equal bytes at two places load as the same number. -/
theorem load_move (same : ∀ i < n, mem (a + i) = mem' (b + i)) : load mem a n = load mem' b n := by
  induction n generalizing a b with
  | zero => rfl
  | succ n ih =>
    have first := same 0 (Nat.succ_pos n)
    have rest : load mem (a + 1) n = load mem' (b + 1) n := by
      apply ih
      intro i less
      have := same (i + 1) (by omega)
      rwa [show a + (i + 1) = a + 1 + i by omega, show b + (i + 1) = b + 1 + i by omega] at this
    rw [Nat.add_zero, Nat.add_zero] at first
    unfold load
    rw [first, rest]

/-- A load depends on its bytes only. -/
theorem load_congr (same : ∀ i < n, mem (a + i) = mem' (a + i)) : load mem a n = load mem' a n :=
  load_move same

theorem load_zero (zero : ∀ i < n, mem (a + i) = 0) : load mem a n = 0 := by
  induction n generalizing a with
  | zero => rfl
  | succ n ih =>
    have first : mem a = 0 := zero 0 (Nat.succ_pos n)
    have rest : load mem (a + 1) n = 0 := by
      apply ih
      intro i less
      have := zero (i + 1) (by omega)
      rwa [show a + (i + 1) = a + 1 + i by omega] at this
    unfold load
    rw [first, rest]
    rfl

theorem store_outside (off : b < a ∨ a + n ≤ b) : store mem a v n b = mem b := by
  unfold store
  rw [if_neg (by omega)]

theorem fill_outside {v : UInt8} (off : b < a ∨ a + n ≤ b) : fill mem a n v b = mem b := by
  unfold fill
  rw [if_neg (by omega)]

theorem fill_inside {v : UInt8} (low : a ≤ b) (high : b < a + n) : fill mem a n v b = v := by
  unfold fill
  rw [if_pos ⟨low, high⟩]

theorem copy_outside {src : ℕ} (off : b < a ∨ a + n ≤ b) : copy mem a other src n b = mem b := by
  unfold copy
  rw [if_neg (by omega)]

theorem copy_inside {src : ℕ} (low : a ≤ b) (high : b < a + n) :
    copy mem a other src n b = other (src + (b - a)) := by
  unfold copy
  rw [if_pos ⟨low, high⟩]

/-- What was stored is loaded. -/
theorem load_store (fits : v < 256 ^ n) : load (store mem a v n) a n = v := by
  have general : ∀ k ≤ n, load (store mem a v n) (a + (n - k)) k = v / 256 ^ (n - k) := by
    intro k
    induction k with
    | zero =>
      intro _
      rw [Nat.sub_zero, Nat.div_eq_of_lt fits]
      rfl
    | succ k ih =>
      intro le
      have byte : (store mem a v n (a + (n - (k + 1)))).toNat = v / 256 ^ (n - (k + 1)) % 256 := by
        unfold store
        rw [if_pos (by omega), show a + (n - (k + 1)) - a = n - (k + 1) by omega]
        simp
      have rest := ih (by omega)
      unfold load
      rw [show a + (n - (k + 1)) + 1 = a + (n - k) by omega, byte, rest,
        show n - k = n - (k + 1) + 1 by omega, Nat.pow_succ, ← Nat.div_div_eq_div_mul]
      omega
  have whole := general n (Nat.le_refl n)
  rwa [Nat.sub_self, Nat.add_zero, Nat.pow_zero, Nat.div_one] at whole

/-- A store leaves what is loaded elsewhere. -/
theorem load_store_off {m : ℕ} (off : b + m ≤ a ∨ a + n ≤ b) :
    load (store mem a v n) b m = load mem b m := by
  apply load_congr
  intro i less
  exact store_outside (by omega)

/-- A fill leaves what is loaded elsewhere. -/
theorem load_fill_off {m : ℕ} {c : UInt8} (off : b + m ≤ a ∨ a + n ≤ b) :
    load (fill mem a n c) b m = load mem b m := by
  apply load_congr
  intro i less
  exact fill_outside (by omega)

theorem load_lt (mem : Memory) (a n : ℕ) : load mem a n < 256 ^ n := by
  induction n generalizing a with
  | zero => exact Nat.one_pos
  | succ n ih =>
    have first := (mem a).toNat_lt
    have rest := ih (a + 1)
    rw [load, Nat.pow_succ]
    omega

/-- The bytes further up count for more. -/
theorem load_add (mem : Memory) (a m n : ℕ) :
    load mem a (m + n) = load mem a m + 256 ^ m * load mem (a + m) n := by
  induction m generalizing a with
  | zero => simp [load]
  | succ m ih =>
    rw [Nat.succ_add, load, load, ih, Nat.add_right_comm a 1 m, Nat.add_assoc a m 1, Nat.mul_add,
      Nat.pow_succ', Nat.mul_assoc, Nat.add_assoc]

/-- The low bytes of a loaded number. -/
theorem load_mod (mem : Memory) (a m n : ℕ) : load mem a (m + n) % 256 ^ m = load mem a m := by
  rw [load_add, Nat.add_mul_mod_self_left, Nat.mod_eq_of_lt (load_lt mem a m)]

/-- What is loaded says what each byte is. -/
theorem load_eq_iff (mem : Memory) (a n v : ℕ) :
    load mem a n = v % 256 ^ n ↔ ∀ i < n, mem (a + i) = UInt8.ofNat (v / 256 ^ i) := by
  induction n generalizing a v with
  | zero => simp [load, Nat.mod_one]
  | succ n ih =>
    have split : v % 256 ^ (n + 1) = v % 256 + 256 * (v / 256 % 256 ^ n) := by
      rw [Nat.pow_succ', Nat.mod_mul]
    have first : (mem a).toNat = v % 256 ↔ mem a = UInt8.ofNat v := by
      rw [← UInt8.toNat_inj, UInt8.toNat_ofNat']
    have small := (mem a).toNat_lt
    have parts : load mem a (n + 1) = v % 256 ^ (n + 1) ↔
        (mem a).toNat = v % 256 ∧ load mem (a + 1) n = v / 256 % 256 ^ n := by
      rw [load, split]
      omega
    rw [parts, first, ih, Nat.forall_lt_succ_left]
    simp [Nat.pow_succ', Nat.div_div_eq_div_mul, Nat.add_assoc, Nat.add_comm 1]

/-- The bytes of a loaded number. -/
theorem byte_load {i : ℕ} (less : i < n) : UInt8.ofNat (load mem a n / 256 ^ i) = mem (a + i) :=
  ((load_eq_iff mem a n (load mem a n)).1 (Nat.mod_eq_of_lt (load_lt mem a n)).symm i less).symm

end Bytes

import Mathlib.Logic.Function.Basic
import Vineyard.Lib.CStrings

/-!
# `lib/string`

The loops of the C library over byte memory, byte by byte.  Loops that stop at a zero byte take fuel.
-/

namespace Vineyard.Libc

open Bytes CStrings Function

/-! ## The functions -/

/-- `while(n --> 0) *dst++ = *src++;`, byte by byte also where the ranges overlap, which the `restrict` of
the parameters leaves to the caller to avoid. -/
def memcpy : Memory → ℕ → ℕ → ℕ → Memory
  | mem, _, _, 0 => mem
  | mem, dst, src, n + 1 => memcpy (update mem dst (mem src)) (dst + 1) (src + 1) n

def memset : Memory → ℕ → ℕ → ℕ → Memory
  | mem, _, _, 0 => mem
  | mem, ptr, c, n + 1 => memset (update mem ptr (UInt8.ofNat c)) (ptr + 1) c n

def memcmp (mem : Memory) : ℕ → ℕ → ℕ → ℤ
  | _, _, 0 => 0
  | s1, s2, count + 1 =>
    if mem s1 ≠ mem s2 then (mem s1).toNat - (mem s2).toNat else memcmp mem (s1 + 1) (s2 + 1) count

def strlenLoop (mem : Memory) : ℕ → ℕ → ℕ → Option ℕ
  | 0, _, _ => none
  | fuel + 1, str, ret => if mem str ≠ 0 then strlenLoop mem fuel (str + 1) (ret + 1) else some ret

def strlen (fuel : ℕ) (mem : Memory) (str : ℕ) : Option ℕ := strlenLoop mem fuel str 0

def strcpyLoop (dest src : ℕ) : ℕ → Memory → ℕ → Option Memory
  | 0, _, _ => none
  | fuel + 1, mem, i =>
    if mem (src + i) ≠ 0 then strcpyLoop dest src fuel (update mem (dest + i) (mem (src + i))) (i + 1)
    else some (update mem (dest + i) 0)

def strcpy (fuel : ℕ) (mem : Memory) (dest src : ℕ) : Option Memory := strcpyLoop dest src fuel mem 0

def strcat (fuel : ℕ) (mem : Memory) (dest src : ℕ) : Option Memory := do
  let len ← strlen fuel mem dest
  strcpy fuel mem (dest + len) src

/-- `for(i = 0; i < n && src[i]; i++) dest[i] = src[i];`, for the `n` bytes that are left. -/
def copyLoop (dest src : ℕ) : ℕ → Memory → ℕ → Memory × ℕ
  | 0, mem, i => (mem, i)
  | left + 1, mem, i =>
    if mem (src + i) ≠ 0 then copyLoop dest src left (update mem (dest + i) (mem (src + i)))
      (i + 1) else (mem, i)

def strncat (fuel : ℕ) (mem : Memory) (dest src n : ℕ) : Option Memory := do
  let destLen ← strlen fuel mem dest
  let (mem, i) := copyLoop (dest + destLen) src n mem 0
  some (update mem (dest + destLen + i) 0)

/-- `for(; i < n; i++) dest[i] = '\0';`, for the bytes that are left. -/
def zeroLoop (dest : ℕ) : ℕ → Memory → ℕ → Memory
  | 0, mem, _ => mem
  | left + 1, mem, i => zeroLoop dest left (update mem (dest + i) 0) (i + 1)

def strncpy (mem : Memory) (dest src n : ℕ) : Memory :=
  let (mem, i) := copyLoop dest src n mem 0
  zeroLoop dest (n - i) mem i

def strcmpLoop (mem : Memory) (a b : ℕ) : ℕ → ℕ → Option ℤ
  | 0, _ => none
  | fuel + 1, i =>
    if mem (a + i) = 0 ∧ mem (b + i) = 0 then some 0
    else if mem (a + i) < mem (b + i) then some (-1)
    else if mem (a + i) > mem (b + i) then some 1
    else strcmpLoop mem a b fuel (i + 1)

def strcmp (fuel : ℕ) (mem : Memory) (a b : ℕ) : Option ℤ := strcmpLoop mem a b fuel 0

def strncmp (mem : Memory) : ℕ → ℕ → ℕ → ℤ
  | _, _, 0 => 0
  | s1, s2, n + 1 =>
    if mem s1 ≠ mem s2 then (mem s1).toNat - (mem s2).toNat
    else if mem s1 = 0 then 0
    else strncmp mem (s1 + 1) (s2 + 1) n

def strchrnulLoop (mem : Memory) (str c : ℕ) : ℕ → ℕ → Option ℕ
  | 0, _ => none
  | fuel + 1, i =>
    if mem (str + i) = UInt8.ofNat c ∨ mem (str + i) = 0 then some (str + i)
    else strchrnulLoop mem str c fuel (i + 1)

def strchrnul (fuel : ℕ) (mem : Memory) (str c : ℕ) : Option ℕ := strchrnulLoop mem str c fuel 0

/-- The address, if the result is not `NULL`. -/
def strchr (fuel : ℕ) (mem : Memory) (str c : ℕ) : Option (Option ℕ) := do
  let ret ← strchrnul fuel mem str c
  some (if UInt8.ofNat c = mem ret then some ret else none)

def strrchrLoop (mem : Memory) (str c : ℕ) : ℕ → ℕ → Option ℕ → Option (Option ℕ)
  | 0, _, _ => none
  | fuel + 1, i, last =>
    let last := if mem (str + i) = UInt8.ofNat c then some (str + i) else last
    if mem (str + i) = 0 then some last else strrchrLoop mem str c fuel (i + 1) last

def strrchr (fuel : ℕ) (mem : Memory) (str c : ℕ) : Option (Option ℕ) :=
  strrchrLoop mem str c fuel 0 none

/-! ## Blocks -/

variable {mem : Memory} {s t : List UInt8} {a b dest src n fuel i : ℕ}

theorem succ_mod {k d : ℕ} (pos : 0 < d) : (k + 1) % d = if k % d + 1 = d then 0 else k % d + 1 := by
  have less := Nat.mod_lt k pos
  rw [Nat.add_mod]
  split
  · next last =>
    obtain rfl | more : d = 1 ∨ 1 < d := by omega
    · exact Nat.mod_one _
    · rw [Nat.mod_eq_of_lt more, last, Nat.mod_self]
  · next inside => rw [Nat.mod_eq_of_lt (show 1 < d by omega), Nat.mod_eq_of_lt (by omega)]

/-- Every byte that `memcpy` writes, wherever the ranges lie: a destination behind the source repeats
the bytes between the two. -/
theorem memcpy_eq (mem : Memory) (dst src n : ℕ) : memcpy mem dst src n = fun b =>
    if dst ≤ b ∧ b < dst + n then
      mem (src + if src < dst then (b - dst) % (dst - src) else b - dst)
    else mem b := by
  induction n generalizing mem dst src with
  | zero =>
    funext b
    rw [if_neg (by omega)]
    rfl
  | succ n ih =>
    rw [memcpy, ih]
    funext b
    rcases Nat.lt_trichotomy b dst with below | rfl | above
    · rw [if_neg (by omega), if_neg (by omega), update_of_ne (by omega)]
    · -- the first byte
      rw [if_neg (by omega), update_self, if_pos (by omega), Nat.sub_self, Nat.zero_mod, ite_self,
        Nat.add_zero]
    · by_cases inside : b < dst + (n + 1)
      · obtain ⟨k, rfl⟩ : ∃ k, b = dst + (k + 1) := ⟨b - dst - 1, by omega⟩
        rw [if_pos (show dst + 1 ≤ dst + (k + 1) ∧ dst + (k + 1) < dst + 1 + n by omega),
          if_pos (show dst ≤ dst + (k + 1) ∧ dst + (k + 1) < dst + (n + 1) by omega),
          show dst + (k + 1) - (dst + 1) = k by omega, show dst + (k + 1) - dst = k + 1 by
            omega, show dst + 1 - (src + 1) = dst - src by omega]
        by_cases behind : src < dst
        · -- the byte written before is read again after `dst - src` bytes
          have less := Nat.mod_lt k (show 0 < dst - src by omega)
          rw [if_pos (show src + 1 < dst + 1 by omega), if_pos behind, succ_mod (by omega)]
          split
          · rw [show src + 1 + k % (dst - src) = dst by omega, update_self, Nat.add_zero]
          · rw [update_of_ne (by omega), Nat.add_right_comm, Nat.add_assoc]
        · rw [if_neg (show ¬src + 1 < dst + 1 by omega), if_neg behind, update_of_ne (by omega),
            Nat.add_right_comm, Nat.add_assoc]
      · rw [if_neg (by omega), if_neg (by omega), update_of_ne (by omega)]

/-- A destination that does not start inside the source gets its bytes. -/
theorem memcpy_copy (apart : dst ≤ src ∨ src + n ≤ dst) :
    memcpy mem dst src n = copy mem dst mem src n := by
  rw [memcpy_eq]
  funext b
  by_cases inside : dst ≤ b ∧ b < dst + n
  · rw [if_pos inside, copy_inside inside.1 inside.2]
    by_cases behind : src < dst
    · rw [if_pos behind, Nat.mod_eq_of_lt (by omega)]
    · rw [if_neg behind]
  · rw [if_neg inside, copy_outside (by omega)]

theorem memset_fill (mem : Memory) (ptr c n : ℕ) :
    memset mem ptr c n = fill mem ptr n (UInt8.ofNat c) := by
  induction n generalizing mem ptr with
  | zero =>
    funext b
    rw [fill_outside (by omega)]
    rfl
  | succ n ih =>
    rw [memset, ih]
    funext b
    rcases Nat.lt_trichotomy b ptr with below | rfl | above
    · rw [fill_outside (by omega), fill_outside (by omega), update_of_ne (by omega)]
    · rw [fill_outside (by omega), update_self, fill_inside (by omega) (by omega)]
    · by_cases inside : b < ptr + (n + 1)
      · rw [fill_inside (by omega) (by omega), fill_inside (by omega) (by omega)]
      · rw [fill_outside (by omega), fill_outside (by omega), update_of_ne (by omega)]

/-- `memset` is a fill, and `memcpy` a copy unless the destination starts inside the source; then it
repeats what lies between the two. -/
theorem blocks (mem : Memory) (dst src n c : ℕ) :
    memset mem dst c n = fill mem dst n (UInt8.ofNat c) ∧
      (dst ≤ src ∨ src + n ≤ dst → memcpy mem dst src n = copy mem dst mem src n) ∧
      (src < dst → ∀ i < n, memcpy mem dst src n (dst + i) = mem (src + i % (dst - src))) ∧
      ∀ b, b < dst ∨ dst + n ≤ b → memcpy mem dst src n b = mem b := by
  refine ⟨memset_fill mem dst c n, memcpy_copy, fun behind i less => ?_, fun b off => ?_⟩
  · rw [memcpy_eq]
    simp only [if_pos behind, Nat.add_sub_cancel_left]
    rw [if_pos (by omega)]
  · rw [memcpy_eq]
    exact if_neg (by omega)

/-! ## Lengths and copies -/

theorem strlenLoop_eq (string : StringAt mem a s) (enough : s.length - i < fuel)
    (inside : i ≤ s.length) :
    strlenLoop mem fuel (a + i) i = some s.length := by
  induction fuel generalizing i with
  | zero => omega
  | succ fuel ih =>
    rw [strlenLoop]
    by_cases less : i < s.length
    · rw [if_pos (string.byte_ne less), Nat.add_assoc, ih (by omega) less]
    · obtain rfl : i = s.length := by omega
      rw [if_neg (not_not.2 string.stop)]

theorem strlen_eq (string : StringAt mem a s) (enough : s.length < fuel) :
    strlen fuel mem a = some s.length :=
  strlenLoop_eq (i := 0) string (by omega) (Nat.zero_le _)

/-- A loop that copies byte by byte has written a prefix. -/
theorem write_take_succ (less : i < s.length) :
    update (write mem dest (s.take i)) (dest + i) s[i] = write mem dest (s.take (i + 1)) := by
  have front : (s.take i).length = i := by rw [List.length_take]; omega
  rw [← List.take_append_getElem less, write_append, front, write_singleton]

theorem strcpyLoop_eq (string : StringAt mem src s)
    (apart : dest + s.length < src ∨ src + s.length < dest) (enough : s.length - i < fuel)
    (inside : i ≤ s.length) :
    strcpyLoop dest src fuel (write mem dest (s.take i)) i = some (write mem dest (s ++ [0])) := by
  induction fuel generalizing i with
  | zero => omega
  | succ fuel ih =>
    have front : (s.take i).length = i := by rw [List.length_take]; omega
    have kept : write mem dest (s.take i) (src + i) = mem (src + i) := write_outside (by omega)
    rw [strcpyLoop, kept]
    by_cases less : i < s.length
    · rw [if_pos (string.byte_ne less), string.byte less, write_take_succ less, ih (by omega) less]
    · obtain rfl : i = s.length := by omega
      rw [if_neg (not_not.2 string.stop), List.take_length, write_append, write_singleton]

theorem strcpy_eq (string : StringAt mem src s)
    (apart : dest + s.length < src ∨ src + s.length < dest) (enough : s.length < fuel) :
    strcpy fuel mem dest src = some (write mem dest (s ++ [0])) := by
  have loop := strcpyLoop_eq (i := 0) string apart (by omega) (Nat.zero_le _)
  rwa [List.take_zero, write_nil] at loop

/-- `strcat` writes behind the string that is there. -/
theorem strcat_eq (there : StringAt mem dest s) (string : StringAt mem src t)
    (apart : dest + s.length + t.length < src ∨ src + t.length < dest + s.length)
    (enough : s.length < fuel ∧ t.length < fuel) :
    strcat fuel mem dest src = some (write mem (dest + s.length) (t ++ [0])) := by
  rw [strcat, strlen_eq there enough.1, Option.bind_eq_bind, Option.bind_some,
    strcpy_eq string apart enough.2]

theorem copyLoop_eq (string : StringAt mem src s)
    (apart : dest + min n s.length ≤ src ∨ src + min n s.length < dest)
    (inside : i ≤ min n s.length) :
    copyLoop dest src (n - i) (write mem dest (s.take i)) i =
      (write mem dest (s.take n), min n s.length) := by
  induction h : n - i generalizing i with
  | zero =>
    obtain rfl : i = n := by omega
    rw [copyLoop, Nat.min_eq_left (by omega)]
  | succ left ih =>
    have front : (s.take i).length = i := by rw [List.length_take]; omega
    have kept : write mem dest (s.take i) (src + i) = mem (src + i) := write_outside (by omega)
    rw [copyLoop, kept]
    by_cases less : i < s.length
    · rw [if_pos (string.byte_ne less), string.byte less, write_take_succ less,
        ih (by omega) (by omega)]
    · obtain rfl : i = s.length := by omega
      rw [if_neg (not_not.2 string.stop), Nat.min_eq_right (by omega), List.take_length,
        List.take_of_length_le (by omega)]

theorem strncat_eq (there : StringAt mem dest s) (string : StringAt mem src t)
    (apart : dest + s.length + min n t.length ≤ src ∨ src + min n t.length < dest + s.length)
    (enough : s.length < fuel) :
    strncat fuel mem dest src n = some (write mem (dest + s.length) (t.take n ++ [0])) := by
  have loop := copyLoop_eq (i := 0) string apart (Nat.zero_le _)
  rw [List.take_zero, write_nil, Nat.sub_zero] at loop
  have length : (t.take n).length = min n t.length := List.length_take
  rw [strncat, strlen_eq there enough, Option.bind_eq_bind, Option.bind_some, loop]
  rw [write_append, write_singleton, length]

theorem zeroLoop_eq (mem : Memory) (dest left i : ℕ) :
    zeroLoop dest left mem i = write mem (dest + i) (List.replicate left 0) := by
  induction left generalizing mem i with
  | zero => rw [zeroLoop, List.replicate_zero, write_nil]
  | succ left ih =>
    rw [zeroLoop, ih, List.replicate_succ, ← List.singleton_append, write_append, write_singleton]
    rfl

/-- `strncpy` fills up with zeros. -/
theorem strncpy_eq (dest n : ℕ) (string : StringAt mem src s)
    (apart : dest + min n s.length ≤ src ∨ src + min n s.length < dest) :
    strncpy mem dest src n = write mem dest (s.take n ++ List.replicate (n - s.length) 0) := by
  have loop := copyLoop_eq (i := 0) string apart (Nat.zero_le _)
  rw [List.take_zero, write_nil, Nat.sub_zero] at loop
  have length : (s.take n).length = min n s.length := List.length_take
  rw [strncpy, loop, write_append, length]
  simp only [zeroLoop_eq]
  rw [show n - min n s.length = n - s.length by omega]

end Vineyard.Libc

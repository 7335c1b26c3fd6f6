import Vineyard.Libc.Strings

/-!
# Comparing and searching

The comparisons of `lib/string` order strings as lists of unsigned bytes; the searches find the first
and the last occurrence of a byte, and the terminator if that is what they are asked for.
-/

namespace Vineyard.Libc

open Bytes CStrings

/-- The order of two lists of bytes as a number. -/
def order (s t : List UInt8) : ℤ := if s < t then -1 else if s = t then 0 else 1

variable {mem : Memory} {s t : List UInt8} {a b n fuel : ℕ} {c d : UInt8}

theorem order_cons :
    order (c :: s) (d :: t) = if c < d then -1 else if c = d then order s t else 1 := by
  simp only [order, List.cons_lt_cons_iff, List.cons.injEq]
  by_cases less : c < d
  · rw [if_pos (.inl less), if_pos less]
  · by_cases same : c = d
    · simp [same]
    · simp [less, same]

theorem order_nil_cons : order [] (d :: t) = -1 := by
  rw [order, if_pos (List.nil_lt_cons d t)]

theorem order_cons_nil : order (c :: s) [] = 1 := by
  rw [order, if_neg (List.not_lt_nil _), if_neg (List.cons_ne_nil c s)]

/-- Bytes are compared as unsigned numbers. -/
theorem sign_sub : ((c.toNat : ℤ) - d.toNat).sign = if c < d then -1 else if c = d then 0 else 1 := by
  rcases Nat.lt_trichotomy c.toNat d.toNat with less | same | more
  · rw [if_pos (UInt8.lt_iff_toNat_lt.2 less)]
    exact Int.sign_eq_neg_one_of_neg (by omega)
  · rw [if_neg fun h => absurd (UInt8.lt_iff_toNat_lt.1 h) (by omega),
      if_pos (UInt8.toNat_inj.1 same), same, Int.sub_self]
    rfl
  · rw [if_neg fun h => absurd (UInt8.lt_iff_toNat_lt.1 h) (by omega), if_neg fun h =>
      by rw [h] at more; omega]
    exact Int.sign_eq_one_of_pos (by omega)

theorem strcmpLoop_eq {i : ℕ} (left : StringAt mem (a + i) s) (right : StringAt mem (b + i) t)
    (enough : min s.length t.length < fuel) : strcmpLoop mem a b fuel i = some (order s t) := by
  induction fuel generalizing s t i with
  | zero => omega
  | succ fuel ih =>
    rw [strcmpLoop]
    cases s with
    | nil =>
      rw [stringAt_nil] at left
      cases t with
      | nil =>
        rw [stringAt_nil] at right
        rw [left, right]
        rfl
      | cons d t =>
        obtain ⟨plain, first, -⟩ := stringAt_cons.1 right
        rw [left, first, if_neg fun both => plain both.2, if_pos (UInt8.pos_iff_ne_zero.2 plain),
          order_nil_cons]
    | cons c s =>
      obtain ⟨plain, first, rest⟩ := stringAt_cons.1 left
      cases t with
      | nil =>
        rw [stringAt_nil] at right
        rw [first, right, if_neg fun both => plain both.1, if_neg UInt8.not_lt_zero,
          if_pos (UInt8.pos_iff_ne_zero.2 plain), order_cons_nil]
      | cons d t =>
        obtain ⟨_, first', rest'⟩ := stringAt_cons.1 right
        rw [first, first', if_neg fun both => plain both.1, order_cons]
        split
        · rfl
        · next notLess =>
          by_cases same : c = d
          · rw [same, if_neg (UInt8.lt_irrefl d), if_pos rfl,
              ih rest rest' (by simp at enough; omega)]
          · rw [if_pos (UInt8.lt_of_le_of_ne (UInt8.not_lt.1 notLess) (Ne.symm same)), if_neg same]

theorem strncmp_sign (left : StringAt mem a s) (right : StringAt mem b t) :
    (strncmp mem a b n).sign = order (s.take n) (t.take n) := by
  induction n generalizing a b s t with
  | zero => rfl
  | succ n ih =>
    rw [strncmp]
    cases s with
    | nil =>
      rw [stringAt_nil] at left
      cases t with
      | nil =>
        rw [stringAt_nil] at right
        rw [left, right]
        rfl
      | cons d t =>
        obtain ⟨plain, first, -⟩ := stringAt_cons.1 right
        rw [left, first, if_pos plain.symm, sign_sub, if_pos (UInt8.pos_iff_ne_zero.2 plain),
          List.take_nil, List.take_succ_cons, order_nil_cons]
    | cons c s =>
      obtain ⟨plain, first, rest⟩ := stringAt_cons.1 left
      cases t with
      | nil =>
        rw [stringAt_nil] at right
        rw [first, right, if_pos plain, sign_sub, if_neg UInt8.not_lt_zero, if_neg plain,
          List.take_nil, List.take_succ_cons, order_cons_nil]
      | cons d t =>
        obtain ⟨_, first', rest'⟩ := stringAt_cons.1 right
        rw [first, first', List.take_succ_cons, List.take_succ_cons, order_cons]
        by_cases same : c = d
        · rw [if_neg (not_not.2 same), if_neg plain, ih rest rest', same,
            if_neg (UInt8.lt_irrefl d), if_pos rfl]
        · rw [if_pos same, sign_sub, if_neg same, if_neg same]

theorem memcmp_sign (left : BytesAt mem a s) (right : BytesAt mem b t)
    (length : s.length = t.length) :
    (memcmp mem a b s.length).sign = order s t := by
  induction s generalizing a b t with
  | nil =>
    obtain rfl := List.eq_nil_of_length_eq_zero length.symm
    rfl
  | cons c s ih =>
    obtain _ | ⟨d, t⟩ := t
    · cases length
    obtain ⟨first, rest⟩ := bytesAt_cons.1 left
    obtain ⟨first', rest'⟩ := bytesAt_cons.1 right
    rw [List.length_cons, memcmp, first, first', order_cons]
    by_cases same : c = d
    · rw [if_neg (not_not.2 same), ih rest rest' (by simpa using length), same,
        if_neg (UInt8.lt_irrefl d), if_pos rfl]
    · rw [if_pos same, sign_sub, if_neg same, if_neg same]

/-- The three comparisons agree with the order of the strings, of their first bytes, and of blocks. -/
theorem compares (left : StringAt mem a s) (right : StringAt mem b t)
    (enough : min s.length t.length < fuel) :
    strcmp fuel mem a b = some (order s t) ∧
      (∀ n, (strncmp mem a b n).sign = order (s.take n) (t.take n)) ∧
      ∀ n ≤ min s.length t.length, (memcmp mem a b n).sign = order (s.take n) (t.take n) := by
  refine ⟨strcmpLoop_eq (i := 0) left right enough, fun n => strncmp_sign left right, fun n le => ?_⟩
  have length : (s.take n).length = n := by rw [List.length_take]; omega
  have blocks := memcmp_sign (left.bytes.take n) (right.bytes.take n)
    (by rw [List.length_take, List.length_take]; omega)
  rwa [length] at blocks

/-- `a` is in front of `ab`. -/
theorem compares_prefix :
    strcmp 2 (write (write (fun _ => 0) 0x100 ([97] ++ [0])) 0x200 ([97, 98] ++ [0])) 0x100 0x200 =
    some (-1) := by
  have left : StringAt (write (write (fun _ => 0) 0x100 ([97] ++ [0])) 0x200 ([97, 98] ++ [0]))
    0x100 [97] :=
    (stringAt_write (by simp)).congr fun i le => write_outside (.inl (by simp at le; omega))
  exact (compares left (stringAt_write (by simp)) (by decide)).1

/-! ## Searching -/

/-- The first byte that is wanted, or the terminator. -/
theorem strchrnulLoop_eq {i : ℕ} (string : StringAt mem (a + i) s) (enough : s.length < fuel) :
    ∃ p, strchrnulLoop mem a c.toNat fuel i = some p ∧ a + i ≤ p ∧ p ≤ a + i + s.length ∧
      (mem p = c ∨ p = a + i + s.length) ∧ ∀ r, a + i ≤ r → r < p → mem r ≠ c := by
  induction fuel generalizing s i with
  | zero => omega
  | succ fuel ih =>
    rw [strchrnulLoop, UInt8.ofNat_toNat]
    by_cases found : mem (a + i) = c
    · exact ⟨a + i, if_pos (.inl found), Nat.le_refl _, Nat.le_add_right _ _, .inl found,
        fun r low high => by omega⟩
    · cases s with
      | nil => exact ⟨a + i, if_pos (.inr (stringAt_nil.1 string)),
        by simp, by simp, .inr rfl, fun r low high => by omega⟩
      | cons d s =>
        obtain ⟨plain, first, rest⟩ := stringAt_cons.1 string
        rw [if_neg (by rw [not_or]; exact ⟨found, first ▸ plain⟩)]
        obtain ⟨p, run, low, high, here, before⟩ := ih (i := i + 1) rest (by simpa using enough)
        refine ⟨p, run, by omega, by rw [List.length_cons]; omega, ?_, fun r above below => ?_⟩
        · rw [List.length_cons]
          exact here.imp_right fun e => by omega
        · obtain rfl | later : r = a + i ∨ a + i < r := by omega
          · exact found
          · exact before r (by omega) below

/-- The last byte that is wanted, with the terminator as one. -/
theorem strrchrLoop_eq {i : ℕ} (string : StringAt mem (a + i) s) (enough : s.length < fuel)
    (last : Option ℕ) :
    ∃ q, strrchrLoop mem a c.toNat fuel i last = some q ∧
      ((∃ p, q = some p ∧ a + i ≤ p ∧ p ≤ a + i + s.length ∧ mem p = c ∧
          ∀ r, p < r → r ≤ a + i + s.length → mem r ≠ c) ∨
        q = last ∧ ∀ r, a + i ≤ r → r ≤ a + i + s.length → mem r ≠ c) := by
  induction fuel generalizing s i last with
  | zero => omega
  | succ fuel ih =>
    rw [strrchrLoop, UInt8.ofNat_toNat]
    cases s with
    | nil =>
      rw [if_pos (stringAt_nil.1 string)]
      refine ⟨_, rfl, ?_⟩
      by_cases found : mem (a + i) = c
      · rw [if_pos found]
        exact .inl ⟨a + i, rfl, by simp, by simp, found, fun r low high => by simp at high; omega⟩
      · rw [if_neg found]
        refine .inr ⟨rfl, fun r low high => ?_⟩
        obtain rfl : r = a + i := by simp at high; omega
        exact found
    | cons d s =>
      obtain ⟨plain, first, rest⟩ := stringAt_cons.1 string
      rw [if_neg (first ▸ plain)]
      obtain ⟨q, run, result⟩ :=
        ih (i := i + 1) rest (by simpa using enough) (if mem (a + i) = c then some (a + i) else last)
      refine ⟨q, run, ?_⟩
      rw [List.length_cons]
      obtain ⟨p, rfl, low, high, found, after⟩ | ⟨rfl, none⟩ := result
      · exact .inl ⟨p, rfl, by omega, by omega, found, fun r above below => after r above (by omega)⟩
      · by_cases found : mem (a + i) = c
        · rw [if_pos found]
          exact .inl ⟨a + i, rfl,
            by omega, by omega, found, fun r above below => none r (by omega) (by omega)⟩
        · rw [if_neg found]
          refine .inr ⟨rfl, fun r low high => ?_⟩
          obtain rfl | later : r = a + i ∨ a + i < r := by omega
          · exact found
          · exact none r (by omega) (by omega)

/-- `strchr` and `strrchr` find the first and the last place of a byte, where the terminator counts as
one, or `NULL` if there is none. -/
theorem searches (string : StringAt mem a s) (enough : s.length < fuel) (c : UInt8) :
    (strchr fuel mem a c.toNat = some none ∧ strrchr fuel mem a c.toNat = some none ∧
        ∀ r, a ≤ r → r ≤ a + s.length → mem r ≠ c) ∨
      ∃ p q, strchr fuel mem a c.toNat = some (some p) ∧ strrchr fuel mem a c.toNat = some (some q) ∧
        a ≤ p ∧ q ≤ a + s.length ∧ mem p = c ∧ mem q = c ∧
        ∀ r, a ≤ r → r ≤ a + s.length → mem r = c → p ≤ r ∧ r ≤ q := by
  obtain ⟨p, first, low, high, here, before⟩ := strchrnulLoop_eq (i := 0) (c := c) string enough
  obtain ⟨q, last, result⟩ := strrchrLoop_eq (i := 0) (c := c) string enough none
  rw [strchr, strchrnul, first, Option.bind_eq_bind, Option.bind_some, UInt8.ofNat_toNat,
    strrchr, last]
  rw [Nat.add_zero] at low high here before result
  by_cases found : c = mem p
  · rw [if_pos found]
    obtain ⟨q, rfl, lowQ, highQ, foundQ, after⟩ | ⟨-, none⟩ := result
    · refine .inr ⟨p, q, rfl, rfl, low, highQ, found.symm, foundQ, fun r lowR highR there => ⟨?_, ?_⟩⟩
      · exact Nat.not_lt.1 fun less => before r lowR less there
      · exact Nat.not_lt.1 fun less => after r less highR there
    · exact absurd found.symm (none p low high)
  · rw [if_neg found]
    obtain rfl := here.resolve_left (Ne.symm found)
    obtain ⟨q, rfl, lowQ, highQ, foundQ, -⟩ | ⟨rfl, none⟩ := result
    · obtain less | rfl : q < a + s.length ∨ q = a + s.length := by omega
      · exact absurd foundQ (before q lowQ less)
      · exact absurd foundQ.symm found
    · exact .inl ⟨rfl, rfl, none⟩

theorem searches_repeated :
    ∃ p q, strchr 4 (write (fun _ => 0) 0x100 ([97, 98, 97] ++ [0])) 0x100 97 = some (some p) ∧
    strrchr 4 (write (fun _ => 0) 0x100 ([97, 98, 97] ++ [0])) 0x100 97 = some (some q) := by
  obtain ⟨_, _, none⟩ | ⟨p, q, first, last, _⟩ :=
    @searches (write (fun _ => 0) 0x100 ([97, 98, 97] ++ [0])) _ _ 4 (stringAt_write (by simp))
      (by decide) 97
  · exact absurd rfl (none 0x100 (by decide) (by decide))
  · exact ⟨p, q, first, last⟩

end Vineyard.Libc

import Vineyard.Libc.Compare

/-!
# Strings built in a buffer

A sequence of `strcpy`, `strcat`, `strncat` and `strncpy` on one buffer, with sources outside the
buffer.  While every string fits, the buffer holds the string that the calls spell, with its
terminator, and nothing around it is written.  `strncpy` writes no terminator over a source that is
not shorter than its count, so what was behind stays behind.
-/

namespace Vineyard.Libc

open Bytes CStrings

inductive Build where
  | strcpy
  | strcat
  | strncat (n : ℕ)
  | strncpy (n : ℕ)
deriving DecidableEq

namespace Build

/-- A call with the buffer as its destination. -/
def run (fuel buf : ℕ) (mem : Memory) (src : ℕ) : Build → Option Memory
  | strcpy => Libc.strcpy fuel mem buf src
  | strcat => Libc.strcat fuel mem buf src
  | strncat n => Libc.strncat fuel mem buf src n
  | strncpy n => some (Libc.strncpy mem buf src n)

/-- The string in the buffer after a call with the source `t`. -/
def spell (s t : List UInt8) : Build → List UInt8
  | strcpy => t
  | strcat => s ++ t
  | strncat n => s ++ t.take n
  | strncpy n => if t.length < n then t else t.take n ++ s.drop n

/-- The bytes of the buffer that a call needs. -/
def needs (s t : List UInt8) : Build → ℕ
  | strcpy => t.length + 1
  | strcat => s.length + t.length + 1
  | strncat n => s.length + min n t.length + 1
  | strncpy n => max n (s.length + 1)

/-- There is a terminator after the call. -/
def Ends (s t : List UInt8) : Build → Prop
  | strncpy n => t.length < n ∨ n ≤ s.length
  | _ => True

end Build

/-- A call and its source. -/
structure Piece where
  build : Build
  src : ℕ
  text : List UInt8

/-- The strings fit one after the other. -/
def FitsIn (size : ℕ) : List UInt8 → List Piece → Prop
  | _, [] => True
  | s, p :: ps => p.build.needs s p.text ≤ size ∧ p.build.Ends s p.text ∧
    FitsIn size (p.build.spell s p.text) ps

/-- The sources are strings outside the buffer. -/
def Outside (mem : Memory) (buf size : ℕ) (p : Piece) : Prop :=
  StringAt mem p.src p.text ∧ (p.src + p.text.length < buf ∨ buf + size ≤ p.src)

variable {mem : Memory} {buf size fuel : ℕ} {s t : List UInt8} {p : Piece} {ps : List Piece}

/-- A string that is written into the buffer, perhaps with more behind. -/
theorem stringAt_front (plain : ∀ c ∈ t, c ≠ 0) (more : List UInt8) :
    StringAt (write mem buf (t ++ 0 :: more)) buf t := by
  have bytes := bytesAt_append.1 (bytesAt_write mem buf (t ++ 0 :: more))
  exact ⟨plain, bytes.1, bytes.2 0 (by simp)⟩

/-- What is written behind a string that was there. -/
theorem stringAt_behind (there : StringAt mem buf s) (plain : ∀ c ∈ t, c ≠ 0) :
    StringAt (write mem (buf + s.length) (t ++ [0])) buf (s ++ t) := by
  have back : StringAt (write mem (buf + s.length) (t ++ [0])) (buf + s.length) t :=
    stringAt_write plain
  refine ⟨fun c inside =>
    ?_, bytesAt_append.2 ⟨there.bytes.congr fun i less => write_outside (by omega), back.bytes⟩, ?_⟩
  · obtain front | behind := List.mem_append.1 inside
    · exact there.plain c front
    · exact plain c behind
  · rw [List.length_append, ← Nat.add_assoc]
    exact back.stop

/-- What is written over the front of a string leaves its end. -/
theorem stringAt_over (there : StringAt mem buf s) (plain : ∀ c ∈ t, c ≠ 0)
    (inside : t.length ≤ s.length) :
    StringAt (write mem buf t) buf (t ++ s.drop t.length) := by
  have rest := there.drop inside
  refine ⟨fun c mem => ?_, bytesAt_append.2 ⟨bytesAt_write mem buf t, rest.bytes.congr fun i less =>
    write_outside (by omega)⟩, ?_⟩
  · obtain front | behind := List.mem_append.1 mem
    · exact plain c front
    · exact rest.plain c behind
  · rw [List.length_append, ← Nat.add_assoc, write_outside (by omega)]
    exact rest.stop

/-- One call. -/
theorem Build.run_spec (there : StringAt mem buf s) (outside : Outside mem buf size p)
    (needs : p.build.needs s p.text ≤ size) (ends : p.build.Ends s p.text) (enough : size < fuel)
    (enoughText : p.text.length < fuel) :
    ∃ mem', p.build.run fuel buf mem p.src = some mem' ∧ StringAt mem' buf (p.build.spell s p.text) ∧
      ∀ b, b < buf ∨ buf + size ≤ b → mem' b = mem b := by
  obtain ⟨build, src, t⟩ := p
  obtain ⟨string, off⟩ := outside
  dsimp only at string off needs ends enoughText ⊢
  cases build with
  | strcpy =>
    simp only [Build.needs] at needs
    refine ⟨_, strcpy_eq string (by omega) enoughText, stringAt_write string.plain, fun b side => ?_⟩
    exact write_outside (by simp; omega)
  | strcat =>
    simp only [Build.needs] at needs
    refine ⟨_, strcat_eq there string (by omega) (by omega), stringAt_behind there string.plain,
      fun b side => ?_⟩
    exact write_outside (by simp; omega)
  | strncat n =>
    simp only [Build.needs] at needs
    refine ⟨_, strncat_eq there string (by omega) (by omega), stringAt_behind there fun c inside =>
      ?_, fun b side => ?_⟩
    · exact string.plain c (List.mem_of_mem_take inside)
    · exact write_outside (by simp; omega)
  | strncpy n =>
    simp only [Build.needs] at needs
    simp only [Ends] at ends
    have writes := strncpy_eq buf n string (by omega)
    refine ⟨_, congrArg some writes, ?_, fun b side => write_outside (by simp; omega)⟩
    simp only [spell]
    split
    · next short =>
      rw [List.take_of_length_le (by omega), show n - t.length = n - t.length - 1 + 1 by
        omega, List.replicate_succ]
      exact stringAt_front string.plain _
    · next long =>
      have length : (t.take n).length = n := by rw [List.length_take]; omega
      rw [Nat.sub_eq_zero_of_le (by omega), List.replicate_zero, List.append_nil]
      have overwritten := stringAt_over there
        (fun c inside => string.plain c (List.mem_of_mem_take inside))
        (show (t.take n).length ≤ s.length by omega)
      rwa [length] at overwritten

/-- Any calls on a buffer in which the strings fit. -/
theorem builds (there : StringAt mem buf s) (outside : ∀ p ∈ ps, Outside mem buf size p)
    (fits : FitsIn size s ps) (enough : size < fuel) (enoughText : ∀ p ∈ ps, p.text.length < fuel) :
    ∃ mem', ps.foldlM (fun mem p => p.build.run fuel buf mem p.src) mem = some mem' ∧
      StringAt mem' buf (ps.foldl (fun s p => p.build.spell s p.text) s) ∧
      ∀ b, b < buf ∨ buf + size ≤ b → mem' b = mem b := by
  induction ps generalizing mem s with
  | nil => exact ⟨mem, rfl, there, fun _ _ => rfl⟩
  | cons p ps ih =>
    obtain ⟨first, outside⟩ := List.forall_mem_cons.1 outside
    obtain ⟨firstText, enoughText⟩ := List.forall_mem_cons.1 enoughText
    obtain ⟨needs, ends, fits⟩ := fits
    obtain ⟨m, run, string, kept⟩ := Build.run_spec there first needs ends enough firstText
    have outside' : ∀ q ∈ ps, Outside m buf size q := fun q inside => by
      obtain ⟨source, off⟩ := outside q inside
      exact ⟨source.congr fun i le => kept _ (by omega), off⟩
    obtain ⟨mem', runs, string', kept'⟩ := ih string outside' fits enoughText
    refine ⟨mem', ?_, string', fun b side => (kept' b side).trans (kept b side)⟩
    rw [List.foldlM_cons, run, Option.bind_eq_bind, Option.bind_some, runs]

/-- The string `ab` at 0x100, and zeros. -/
def twoBytes : Memory := write (fun _ => 0) 0x100 ([97, 98] ++ [0])

theorem twoBytes_string : StringAt twoBytes 0x100 [97, 98] := stringAt_write (by simp)

theorem builds_twice :
    ∃ mem', [⟨.strcpy, 0x100, [97, 98]⟩, ⟨.strcat, 0x100, [97, 98]⟩, ⟨.strncpy 1, 0x100, [97, 98]⟩,
      ⟨.strncat 1, 0x100, [97, 98]⟩].foldlM (fun mem (p : Piece) =>
        p.build.run 7 0x200 mem p.src) twoBytes = some mem' ∧
    StringAt mem' 0x200 [97, 98, 97, 98, 97] ∧ ∀ b, b < 0x200 ∨ 0x200 + 6 ≤ b →
      mem' b = twoBytes b := by
  have empty : StringAt twoBytes 0x200 [] := stringAt_nil.2 (write_outside (.inr (by decide)))
  refine builds (s := []) empty (fun p inside => ?_)
    (by simp [FitsIn, Build.needs, Build.Ends, Build.spell]) (by decide)
    (fun p inside => ?_)
  all_goals
    simp only [List.mem_cons, List.not_mem_nil, or_false] at inside
    obtain rfl | rfl | rfl | rfl := inside
  · exact ⟨twoBytes_string, .inl (by decide)⟩
  · exact ⟨twoBytes_string, .inl (by decide)⟩
  · exact ⟨twoBytes_string, .inl (by decide)⟩
  · exact ⟨twoBytes_string, .inl (by decide)⟩
  all_goals decide

end Vineyard.Libc

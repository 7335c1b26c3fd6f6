import Vineyard.Graphics.Characters

/-!
# `puts`

The loop goes on by the length that `terminal_putc` returns: nothing before there is a framebuffer or
where no character starts.  A last character that is cut off takes it past the terminator, so the
string has to be cut into whole characters.  What lies in memory behind it is arbitrary.  A character
without an entry in the font ends in a panic.
-/

namespace Vineyard

open Strings

/-- The loop of `puts`; `none` when it is not at its end after some steps, or at a panic. -/
def putsLoop (fb : Framebuffer) (font : Font) :
    ℕ → (ℕ → UInt8) → ℕ → Terminal → Option (ℕ × Terminal)
  | 0, _, _, _ => none
  | steps + 1, str, ret, t =>
    if str 0 = 0 then some (ret, t)
    else
      match terminalPutc fb font str t with
      | (some n, t) => putsLoop fb font steps (advance str n) (ret + 1) t
      | (none, _) => none

def puts (fb : Framebuffer) (font : Font) (steps : ℕ) (str : ℕ → UInt8) (t : Terminal) :
    Option (ℕ × Terminal) :=
  match putsLoop fb font steps str 0 t with
  | some (ret, t) => some (ret, (terminalPutc fb font (stringAt [0x0A] fun _ => 0) t).2)
  | none => none

/-- `puts` returns, whatever is in memory behind the string. -/
def PutsEnds (fb : Framebuffer) (font : Font) (string : List UInt8) (t : Terminal) : Prop :=
  ∀ behind, ∃ steps r, puts fb font steps (stringAt string behind) t = some r

/-- The bytes are cut into characters as their first bytes say, each with an entry in the font. -/
inductive Grouped : List UInt8 → Prop
  | nil : Grouped []
  | cons {c : UInt8} {rest more : List UInt8} (lead : leadLength c = rest.length + 1)
      (entry : InFontIndex (codePoint (c :: rest))) (later : Grouped more) :
        Grouped (c :: (rest ++ more))

theorem Grouped.lead {c : UInt8} {string : List UInt8} (grouped : Grouped (c :: string)) :
    0 < leadLength c := by
  generalize whole : c :: string = bytes at grouped
  cases grouped with
  | nil => cases whole
  | cons lead entry later =>
    cases whole
    omega

variable {fb : Framebuffer} {font : Font}

theorem putsLoop_succ {steps : ℕ} {str : ℕ → UInt8} {ret n : ℕ} {t : Terminal} (more : str 0 ≠ 0)
    (put : (terminalPutc fb font str t).1 = some n) :
    putsLoop fb font (steps + 1) str ret t =
      putsLoop fb font steps (advance str n) (ret + 1) (terminalPutc fb font str t).2 := by
  rw [putsLoop, if_neg more]
  generalize terminalPutc fb font str t = outcome at put ⊢
  obtain ⟨returned, after⟩ := outcome
  cases put
  rfl

theorem putsLoop_panic {steps : ℕ} {str : ℕ → UInt8} {ret : ℕ} {t : Terminal} (more : str 0 ≠ 0)
    (panics : (terminalPutc fb font str t).1 = none) :
    putsLoop fb font (steps + 1) str ret t = none := by
  rw [putsLoop, if_neg more]
  generalize terminalPutc fb font str t = outcome at panics ⊢
  obtain ⟨returned, after⟩ := outcome
  cases panics
  rfl

/-- The loop stays where `terminal_putc` returns 0, and does not go on where it panics. -/
theorem putsLoop_stuck {str : ℕ → UInt8} (more : str 0 ≠ 0)
    (stays : ∀ t, (terminalPutc fb font str t).1 = some 0 ∨ (terminalPutc fb font str t).1 = none)
    (steps : ℕ) : ∀ ret t, putsLoop fb font steps str ret t = none := by
  induction steps with
  | zero => exact fun _ _ => rfl
  | succ steps ih =>
    intro ret t
    have same : advance str 0 = str := funext fun i => congrArg str (Nat.zero_add i)
    obtain zero | panics := stays t
    · rw [putsLoop_succ more zero, same]
      exact ih _ _
    · exact putsLoop_panic more panics

/-- Memory that no character starts in. -/
def noLead : ℕ → UInt8 := fun _ => 0x80

/-- A byte that is no first one returns 0. -/
theorem terminalPutc_noLead {str : ℕ → UInt8} (noFirst : leadLength (str 0) = 0) (t : Terminal) :
    (terminalPutc fb font str t).1 = some 0 ∨ (terminalPutc fb font str t).1 = none := by
  rw [terminalPutc_returns, noFirst]
  split_ifs <;> simp

theorem terminalPutc_early (early : fb.ready = false) (str : ℕ → UInt8) (t : Terminal) :
    (terminalPutc fb font str t).1 = some 0 ∨ (terminalPutc fb font str t).1 = none := by
  rw [terminalPutc_returns, early]
  exact .inl rfl

theorem putsLoop_noLead (steps ret : ℕ) (t : Terminal) :
    putsLoop fb font steps noLead ret t = none :=
  putsLoop_stuck (by decide) (terminalPutc_noLead (by decide)) steps ret t

/-- Behind the bytes of a string. -/
theorem advance_past (bytes : List UInt8) {n : ℕ} (past : bytes.length ≤ n) :
    advance (chunkAt bytes noLead) n = noLead := by
  obtain ⟨k, rfl⟩ := Nat.exists_eq_add_of_le past
  funext i
  have here := congrFun (advance_chunkAt bytes noLead) (k + i)
  rw [advance, Nat.add_assoc]
  exact here

/-- A grouped string is printed to its end. -/
theorem Grouped.ends {string : List UInt8} (grouped : Grouped string) (ready : fb.ready = true)
    (behind : ℕ → UInt8) : (0 : UInt8) ∉ string → ∀ ret t,
      ∃ steps r, putsLoop fb font steps (stringAt string behind) ret t = some r := by
  induction grouped with
  | nil => exact fun _ ret t => ⟨1, (ret, t), rfl⟩
  | @cons c rest more lead entry later ih =>
    intro text ret t
    rw [List.mem_cons, not_or, List.mem_append, not_or] at text
    obtain ⟨steps, r, run⟩ := ih text.2.2 (ret + 1)
      (terminalPutc fb font (stringAt (c :: (rest ++ more)) behind) t).2
    refine ⟨steps + 1, r, ?_⟩
    have first : stringAt (c :: (rest ++ more)) behind 0 = c := rfl
    have whole : stringAt (c :: (rest ++ more)) behind = chunkAt (c :: rest)
      (stringAt more behind) := by
      rw [← stringAt_append, List.cons_append]
    have step : (terminalPutc fb font (stringAt (c :: (rest ++ more)) behind) t).1 =
        some (c :: rest).length := by
      rw [terminalPutc_returns, if_pos ready, first, lead, List.length_cons, whole,
        utf8Decode_group lead]
      exact if_pos entry
    rw [putsLoop_succ (first ▸ fun zero => text.1 zero.symm) step]
    rw [← List.cons_append, stringAt_append, advance_chunkAt, ← stringAt_append, List.cons_append]
    exact run

/-- A string that is printed to its end in such memory is grouped. -/
theorem grouped_of_ends (ready : fb.ready = true) (steps : ℕ) :
    ∀ (string : List UInt8) ret t r, (0 : UInt8) ∉ string →
      putsLoop fb font steps (stringAt string noLead) ret t = some r → Grouped string := by
  induction steps with
  | zero =>
    intro string ret t r text run
    cases run
  | succ steps ih =>
    intro string ret t r text run
    cases string with
    | nil => exact .nil
    | cons c string =>
      rw [List.mem_cons, not_or] at text
      have first : stringAt (c :: string) noLead 0 = c := rfl
      have more : stringAt (c :: string) noLead 0 ≠ 0 := fun zero => text.1 zero.symm
      have step := terminalPutc_returns fb font (stringAt (c :: string) noLead) t
      rw [if_pos ready, first] at step
      cases lead : leadLength c with
      | zero => rw [putsLoop_stuck more (terminalPutc_noLead lead)] at run; cases run
      | succ m =>
        by_cases entry : InFontIndex (utf8Decode (stringAt (c :: string) noLead)).2
        swap
        · rw [if_neg entry] at step
          rw [putsLoop_panic more step] at run
          cases run
        rw [if_pos entry] at step
        rw [putsLoop_succ more step, lead] at run
        by_cases inside : m ≤ string.length
        · have parts : c :: string = (c :: string.take m) ++ string.drop m := by
            rw [List.cons_append, List.take_append_drop]
          have size : (c :: string.take m).length = m + 1 := by
            rw [List.length_cons, List.length_take, Nat.min_eq_left inside]
          rw [parts, stringAt_append] at entry
          rw [parts, stringAt_append, ← size, advance_chunkAt] at run
          have later := ih (string.drop m) _ _ r (fun mem => text.2 (List.mem_of_mem_drop mem)) run
          rw [utf8Decode_group (lead.trans size.symm)] at entry
          rw [parts]
          exact .cons (lead.trans size.symm) entry later
        · have past : (c :: string ++ [0]).length ≤ m + 1 := by
            rw [List.length_append, List.length_cons, List.length_singleton]
            omega
          rw [stringAt, ← chunkAt_append, advance_past _ past, putsLoop_noLead] at run
          cases run

theorem puts_isSome (steps : ℕ) (str : ℕ → UInt8) (t : Terminal) :
    (∃ r, puts fb font steps str t = some r) ↔ ∃ r, putsLoop fb font steps str 0 t = some r := by
  unfold puts
  cases putsLoop fb font steps str 0 t with
  | none => exact ⟨fun ⟨r, run⟩ => (by cases run), fun ⟨r, run⟩ => (by cases run)⟩
  | some r => exact ⟨fun _ => ⟨r, rfl⟩, fun _ => ⟨_, rfl⟩⟩

theorem putsEnds_iff {string : List UInt8} {t : Terminal} (text : (0 : UInt8) ∉ string) :
    PutsEnds fb font string t ↔ string = [] ∨ (fb.ready = true ∧ Grouped string) := by
  refine ⟨fun ends => ?_, fun condition behind => ?_⟩
  · cases string with
    | nil => exact .inl rfl
    | cons c string =>
      obtain ⟨steps, ended⟩ := ends noLead
      obtain ⟨r, run⟩ := (puts_isSome _ _ _).mp ended
      cases ready : fb.ready with
      | true => exact .inr ⟨rfl, grouped_of_ends ready steps _ 0 t r text run⟩
      | false =>
        have more : stringAt (c :: string) noLead 0 ≠ 0 := fun zero =>
          text (List.mem_cons.mpr (.inl zero.symm))
        rw [putsLoop_stuck more (terminalPutc_early ready _)] at run
        cases run
  · obtain rfl | ⟨ready, grouped⟩ := condition
    · exact ⟨1, (puts_isSome _ _ _).mpr ⟨(0, t), rfl⟩⟩
    · obtain ⟨steps, ended⟩ := grouped.ends ready behind text 0 t
      exact ⟨steps, (puts_isSome _ _ _).mpr ended⟩

/-- The bytes that `terminal_putc` goes on behind. -/
theorem terminalPutc_advances (fb : Framebuffer) (font : Font) (c : ℕ → UInt8) (t : Terminal) :
    (∃ n, (terminalPutc fb font c t).1 = some n ∧ 1 ≤ n) ↔
      fb.ready = true ∧ (c 0 < 0x80 ∨ (0xC0 ≤ c 0 ∧ c 0 < 0xF8)) ∧ InFontIndex (utf8Decode c).2 := by
  have first : 1 ≤ leadLength (c 0) ↔ c 0 < 0x80 ∨ (0xC0 ≤ c 0 ∧ c 0 < 0xF8) := by
    unfold leadLength
    simp only [UInt8.lt_iff_toNat_lt, UInt8.le_iff_toNat_le, UInt8.reduceToNat]
    split_ifs <;> omega
  rw [terminalPutc_returns, ← first]
  cases fb.ready with
  | false => simp
  | true => by_cases entry : InFontIndex (utf8Decode c).2 <;> simp [entry]

/-- **`puts` ends on grouped strings, once there is a framebuffer.**  `terminal_putc` returns
at least 1 for the first bytes of characters with an entry in the font only, and never before
there is a framebuffer. -/
theorem puts_ends_iff (fb : Framebuffer) (font : Font) (string : List UInt8) (t : Terminal)
    (text : (0 : UInt8) ∉ string) :
    (PutsEnds fb font string t ↔ string = [] ∨ (fb.ready = true ∧ Grouped string)) ∧
      ∀ c : ℕ → UInt8, c 0 ≠ 0 → ((∃ n, (terminalPutc fb font c t).1 = some n ∧ 1 ≤ n) ↔
        fb.ready = true ∧ (c 0 < 0x80 ∨ (0xC0 ≤ c 0 ∧ c 0 < 0xF8)) ∧ InFontIndex (utf8Decode c).2) :=
  ⟨putsEnds_iff text, fun c _ => terminalPutc_advances fb font c t⟩

/-- A screen of 640 times 480 pixels, and the same before it is set up. -/
def exampleScreen : Framebuffer := framebufferInit ⟨640, 480, 640⟩

def earlyScreen : Framebuffer := { exampleScreen with ready := false }

/-- The font of blank glyphs. -/
def blankFont : Font := ⟨fun _ => 0, fun _ => 0⟩

/-- The two bytes of a character, on a screen. -/
theorem puts_ends_character :
    (PutsEnds exampleScreen blankFont [0xC3, 0xA9] (.start fun _ => 0) ↔
      [0xC3, 0xA9] = ([] : List UInt8) ∨ (exampleScreen.ready = true ∧ Grouped [0xC3, 0xA9])) ∧
      ((∃ n, (terminalPutc exampleScreen blankFont (stringAt [0xC3, 0xA9] noLead)
          (.start fun _ => 0)).1 = some n ∧ 1 ≤ n) ↔
        exampleScreen.ready = true ∧ (stringAt [0xC3, 0xA9] noLead 0 < 0x80 ∨
          (0xC0 ≤ stringAt [0xC3, 0xA9] noLead 0 ∧ stringAt [0xC3, 0xA9] noLead 0 < 0xF8)) ∧
          InFontIndex (utf8Decode (stringAt [0xC3, 0xA9] noLead)).2) :=
  have ends := puts_ends_iff exampleScreen blankFont [0xC3, 0xA9] (.start fun _ => 0) (by decide)
  ⟨ends.1, ends.2 (stringAt [0xC3, 0xA9] noLead) (by decide)⟩

/-- A message before there is a framebuffer, a byte in the middle of a character on a screen, and
U+4E2D, which the font has no entry for. -/
theorem puts_endless :
    ¬ PutsEnds earlyScreen blankFont [0x61] (.start fun _ => 0) ∧
      ¬ PutsEnds exampleScreen blankFont [0x80] (.start fun _ => 0) ∧
      (terminalPutc exampleScreen blankFont (stringAt [0x80] noLead) (.start fun _ => 0)).1 = some 0 ∧
      ¬ PutsEnds exampleScreen blankFont [0xE4, 0xB8, 0xAD] (.start fun _ => 0) := by
  refine ⟨fun ends => ?_, fun ends => ?_, ?_, fun ends => ?_⟩
  · obtain nothing | ⟨ready, -⟩ := (putsEnds_iff (by decide)).mp ends
    · cases nothing
    · cases ready
  · obtain nothing | ⟨-, grouped⟩ := (putsEnds_iff (by decide)).mp ends
    · cases nothing
    · exact absurd grouped.lead (by decide)
  · rw [terminalPutc_returns]
    decide
  · obtain nothing | ⟨-, grouped⟩ := (putsEnds_iff (by decide)).mp ends
    · cases nothing
    · generalize whole : [(0xE4 : UInt8), 0xB8, 0xAD] = bytes at grouped
      cases grouped with
      | nil => cases whole
      | @cons c rest more lead entry later =>
        obtain ⟨rfl, tail⟩ := List.cons.inj whole
        obtain ⟨b, d, rfl⟩ := List.length_eq_two.mp (Nat.succ.inj (lead.symm.trans (by decide)))
        cases tail
        exact absurd entry (by decide)

end Vineyard

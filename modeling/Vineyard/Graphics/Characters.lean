import Vineyard.Graphics.Terminal
import Vineyard.Lib.Strings
import Vineyard.Lib.Words

/-!
# Characters in memory

What `framebuffer_draw_char` makes of the bytes at a pointer.  The length that it returns depends on
the first byte alone, and on the UTF-8 encoding of a character it finds the length and the code point
of the character, whatever the bytes behind are.
-/

namespace Vineyard

open Strings

/-! ## The first byte -/

/-- The length that the first byte stands for; 0 for a byte that is no first one. -/
def leadLength (c : UInt8) : ℕ :=
  if c < 0x80 then 1 else if c < 0xC0 then 0 else if c < 0xE0 then 2 else if c < 0xF0 then 3
  else if c < 0xF8 then 4 else 0

/-- The masks of the source tell the ranges of first bytes apart. -/
theorem lead_masks (c : UInt8) :
    (c &&& 0x80 = 0 ↔ c < 0x80) ∧ (c &&& 0xE0 = 0xC0 ↔ 0xC0 ≤ c ∧ c < 0xE0) ∧
      (c &&& 0xF0 = 0xE0 ↔ 0xE0 ≤ c ∧ c < 0xF0) ∧ (c &&& 0xF8 = 0xF0 ↔ 0xF0 ≤ c ∧ c < 0xF8) := by
  have all : ∀ n : Fin 256, (UInt8.ofNat n &&& 0x80 = 0 ↔ UInt8.ofNat n < 0x80) ∧
      (UInt8.ofNat n &&& 0xE0 = 0xC0 ↔ 0xC0 ≤ UInt8.ofNat n ∧ UInt8.ofNat n < 0xE0) ∧
      (UInt8.ofNat n &&& 0xF0 = 0xE0 ↔ 0xE0 ≤ UInt8.ofNat n ∧ UInt8.ofNat n < 0xF0) ∧
      (UInt8.ofNat n &&& 0xF8 = 0xF0 ↔ 0xF0 ≤ UInt8.ofNat n ∧ UInt8.ofNat n < 0xF8) := by
    decide +kernel
  have here := all ⟨c.toNat, c.toNat_lt⟩
  rwa [UInt8.ofNat_toNat] at here

theorem not_one (c : UInt8) (low : 0x80 ≤ c.toNat) : ¬ c &&& 0x80 = 0 :=
  fun same => Nat.not_lt.mpr low ((lead_masks c).1.mp same)

theorem not_two (c : UInt8) (low : 0xE0 ≤ c.toNat) : ¬ c &&& 0xE0 = 0xC0 :=
  fun same => Nat.not_lt.mpr low ((lead_masks c).2.1.mp same).2

theorem not_three (c : UInt8) (low : 0xF0 ≤ c.toNat) : ¬ c &&& 0xF0 = 0xE0 :=
  fun same => Nat.not_lt.mpr low ((lead_masks c).2.2.1.mp same).2

theorem utf8Decode_length (c : ℕ → UInt8) : (utf8Decode c).1 = leadLength (c 0) := by
  obtain ⟨one, two, three, four⟩ := lead_masks (c 0)
  unfold utf8Decode leadLength
  dsimp only
  simp only [one, two, three, four, UInt8.lt_iff_toNat_lt, UInt8.le_iff_toNat_le, UInt8.reduceToNat]
  split_ifs <;> first | rfl | omega

/-! ## The entry in the font -/

/-- The index into `framebuffer_font_index`. -/
def fontEntry (index : ℕ) : ℕ := if 64256 ≤ index then index - 54416 else index

/-- The entry that is read for the character at `c`. -/
def drawnEntry (c : ℕ → UInt8) : ℕ := fontEntry (utf8Decode c).2

theorem glyphIndex_eq (font : Font) (index : ℕ) :
    glyphIndex font index =
      if fontEntry index < fontIndexLength then some ((font.fontIndex (fontEntry index)).toNat <<< 4)
      else none := rfl

/-- A character is drawn from the rows that its entry says, and there is a panic when the entry
is outside of the table. -/
theorem framebufferDrawChar_entry (fb : Framebuffer) (font : Font) (c : ℕ → UInt8) (x y : ℕ)
    (t : Terminal) :
    framebufferDrawChar fb font c x y t =
      if drawnEntry c < fontIndexLength then
        (some (utf8Decode c).1, drawRows fb
          (fun row => font.font ((font.fontIndex (drawnEntry c)).toNat <<< 4 + row))
            (lfbOffset fb x y) 16
          ((List.range (utf8Decode c).1).foldl (fun t i => t.uartPutc (c i)) t))
      else (none, (List.range (utf8Decode c).1).foldl (fun t i => t.uartPutc (c i)) t) := by
  unfold framebufferDrawChar drawnEntry
  dsimp only
  rw [glyphIndex_eq]
  split_ifs <;> rfl

/-- The code points with an entry of their own in `framebuffer_font_index`. -/
def InFontIndex (code : ℕ) : Prop := code < 11120 ∨ (64256 ≤ code ∧ code ≤ 65535)

instance (code : ℕ) : Decidable (InFontIndex code) := inferInstanceAs (Decidable (_ ∨ _))

theorem fontEntry_inside (code : ℕ) : fontEntry code < fontIndexLength ↔ InFontIndex code := by
  unfold fontEntry fontIndexLength InFontIndex
  split_ifs <;> omega

/-- What `framebuffer_draw_char` returns. -/
theorem framebufferDrawChar_returned (fb : Framebuffer) (font : Font) (c : ℕ → UInt8) (x y : ℕ)
    (t : Terminal) :
    (framebufferDrawChar fb font c x y t).1 =
      if InFontIndex (utf8Decode c).2 then some (utf8Decode c).1 else none := by
  rw [framebufferDrawChar_entry]
  unfold drawnEntry
  simp only [fontEntry_inside]
  split_ifs <;> rfl

/-- A byte below 0x80 is its own code point, with an entry. -/
theorem inFontIndex_ascii {c : ℕ → UInt8} (ascii : c 0 < 0x80) : InFontIndex (utf8Decode c).2 := by
  have low := UInt8.lt_iff_toNat_lt.mp ascii
  unfold utf8Decode
  dsimp only
  rw [if_pos ((lead_masks (c 0)).1.mpr ascii)]
  exact .inl (Nat.lt_trans low (by decide))

/-- `terminal_putc` returns the length of a character, or 0 when there is no framebuffer; a character
without an entry in the font is a panic. -/
theorem terminalPutc_returns (fb : Framebuffer) (font : Font) (c : ℕ → UInt8) (t : Terminal) :
    (terminalPutc fb font c t).1 =
      if fb.ready then if InFontIndex (utf8Decode c).2 then some (leadLength (c 0)) else none
      else some 0 := by
  unfold terminalPutc
  cases ready : fb.ready with
  | false => rfl
  | true =>
    rw [if_neg (by decide), if_pos rfl]
    generalize expected :
      (if InFontIndex (utf8Decode c).2 then some (leadLength (c 0)) else none) = ret
    have control (d : UInt8) (ascii : d < 0x80) (same : c 0 = d) : some 1 = ret := by
      rw [← expected, if_pos (inFontIndex_ascii (same ▸ ascii)), same, leadLength, if_pos ascii]
    split_ifs with newline tab backspace
    · exact control _ (by decide) newline
    · exact control _ (by decide) tab
    · rw [← control _ (by decide) backspace]
      have blank := framebufferDrawChar_returned fb font (fun i => if i = 0 then 0x20 else 0)
        (moveLeft t).x (moveLeft t).y (moveLeft t)
      rw [if_pos (inFontIndex_ascii (show (0x20 : UInt8) < 0x80 by decide))] at blank
      dsimp only
      generalize framebufferDrawChar _ _ _ _ _ _ = outcome at blank ⊢
      obtain ⟨returned, after⟩ := outcome
      cases blank
      rfl
    · have drawn := framebufferDrawChar_returned fb font c (terminalRefresh fb t).x
        (terminalRefresh fb t).y (terminalRefresh fb t)
      rw [utf8Decode_length, expected] at drawn
      rw [← drawn]
      dsimp only
      generalize framebufferDrawChar _ _ _ _ _ _ = outcome
      obtain ⟨_ | ret, after⟩ := outcome <;> rfl

/-! ## Encoded characters -/

section Decoding

variable {c : ℕ → UInt8}

theorem toNat_and_low (b : UInt8) {mask : UInt8} {m n : ℕ} (power : m = 2 ^ n)
    (low : mask.toNat = m - 1) : (b &&& mask).toNat = b.toNat % m := by
  rw [UInt8.toNat_and, low, power, Words.and_low]

theorem low_three (b : UInt8) : (b &&& 0x07).toNat = b.toNat % 8 :=
  toNat_and_low (n := 3) b rfl rfl

theorem low_four (b : UInt8) : (b &&& 0x0F).toNat = b.toNat % 16 :=
  toNat_and_low (n := 4) b rfl rfl

theorem low_five (b : UInt8) : (b &&& 0x1F).toNat = b.toNat % 32 :=
  toNat_and_low (n := 5) b rfl rfl

theorem low_six (b : UInt8) : (b &&& 0x3F).toNat = b.toNat % 64 :=
  toNat_and_low (n := 6) b rfl rfl

/-- A field of six bits below others. -/
theorem shift_or_six (x y : ℕ) (small : y < 64) : x <<< 6 ||| y = x * 64 + y := by
  rw [Nat.shiftLeft_eq]
  exact Words.or_eq_add (n := 6) (by omega) small

theorem utf8Decode_one (lead : (c 0).toNat < 0x80) : utf8Decode c = (1, (c 0).toNat) := by
  unfold utf8Decode
  dsimp only
  rw [if_pos ((lead_masks (c 0)).1.mpr lead)]

theorem utf8Decode_two (low : 0xC0 ≤ (c 0).toNat) (high : (c 0).toNat < 0xE0) :
    utf8Decode c = (2, (c 0).toNat % 32 * 64 + (c 1).toNat % 64) := by
  have not1 := not_one (c 0) (Nat.le_trans (by decide) low)
  unfold utf8Decode
  dsimp only
  rw [if_neg not1, if_pos ((lead_masks (c 0)).2.1.mpr ⟨low, high⟩), low_five, low_six,
    shift_or_six _ _ (Nat.mod_lt _ (by decide))]

theorem utf8Decode_three (low : 0xE0 ≤ (c 0).toNat) (high : (c 0).toNat < 0xF0) :
    utf8Decode c =
      (3, ((c 0).toNat % 16 * 64 + (c 1).toNat % 64) * 64 + (c 2).toNat % 64) := by
  have not1 := not_one (c 0) (Nat.le_trans (by decide) low)
  have not2 := not_two (c 0) low
  have fields : (c 0 &&& 0x0F).toNat <<< 12 ||| (c 1 &&& 0x3F).toNat <<< 6 =
      ((c 0 &&& 0x0F).toNat <<< 6 ||| (c 1 &&& 0x3F).toNat) <<< 6 := by
    rw [Nat.shiftLeft_or_distrib, ← Nat.shiftLeft_add]
  unfold utf8Decode
  dsimp only
  rw [if_neg not1, if_neg not2, if_pos ((lead_masks (c 0)).2.2.1.mpr ⟨low, high⟩), fields, low_four,
    low_six, low_six, shift_or_six _ _ (Nat.mod_lt _ (by decide)),
    shift_or_six _ _ (Nat.mod_lt _ (by decide))]

theorem utf8Decode_four (low : 0xF0 ≤ (c 0).toNat) (high : (c 0).toNat < 0xF8) :
    utf8Decode c = (4, (((c 0).toNat % 8 * 64 + (c 1).toNat % 64) * 64 + (c 2).toNat % 64) * 64 +
      (c 3).toNat % 64) := by
  have not1 := not_one (c 0) (Nat.le_trans (by decide) low)
  have not2 := not_two (c 0) (Nat.le_trans (by decide) low)
  have not3 := not_three (c 0) low
  have fields : (c 0 &&& 0x07).toNat <<< 18 ||| (c 1 &&& 0x3F).toNat <<< 12 |||
      (c 2 &&& 0x3F).toNat <<< 6 = (((c 0 &&& 0x07).toNat <<< 6 ||| (c 1 &&& 0x3F).toNat) <<< 6 |||
        (c 2 &&& 0x3F).toNat) <<< 6 := by
    rw [Nat.shiftLeft_or_distrib, Nat.shiftLeft_or_distrib, Nat.shiftLeft_or_distrib,
      ← Nat.shiftLeft_add, ← Nat.shiftLeft_add, ← Nat.shiftLeft_add]
  unfold utf8Decode
  dsimp only
  rw [if_neg not1, if_neg not2, if_neg not3,
    if_pos ((lead_masks (c 0)).2.2.2.mpr ⟨low, high⟩), fields,
    low_three, low_six, low_six, low_six, shift_or_six _ _ (Nat.mod_lt _ (by decide)),
    shift_or_six _ _ (Nat.mod_lt _ (by decide)), shift_or_six _ _ (Nat.mod_lt _ (by decide))]

/-- The bytes behind a character do not matter. -/
theorem utf8Decode_group {lead : UInt8} {rest : List UInt8}
    (whole : leadLength lead = rest.length + 1) (behind : ℕ → UInt8) :
    utf8Decode (chunkAt (lead :: rest) behind) = utf8Decode (chunkAt (lead :: rest) fun _ => 0) := by
  have first (after : ℕ → UInt8) : chunkAt (lead :: rest) after 0 = lead := rfl
  unfold leadLength at whole
  simp only [UInt8.lt_iff_toNat_lt, UInt8.reduceToNat] at whole
  split_ifs at whole with one none two three four
  · rw [utf8Decode_one one, utf8Decode_one one, first, first]
  · obtain ⟨b, rfl⟩ := List.length_eq_one_iff.mp (Nat.succ.inj whole).symm
    have low : 0xC0 ≤ lead.toNat := Nat.le_of_not_lt none
    rw [utf8Decode_two low two, utf8Decode_two low two]
    rfl
  · obtain ⟨b, d, rfl⟩ := List.length_eq_two.mp (Nat.succ.inj whole).symm
    have low : 0xE0 ≤ lead.toNat := Nat.le_of_not_lt two
    rw [utf8Decode_three low three, utf8Decode_three low three]
    rfl
  · obtain ⟨b, d, e, rfl⟩ := List.length_eq_three.mp (Nat.succ.inj whole).symm
    have low : 0xF0 ≤ lead.toNat := Nat.le_of_not_lt three
    rw [utf8Decode_four low four, utf8Decode_four low four]
    rfl

end Decoding

/-- The code point of the bytes of a character. -/
def codePoint (bytes : List UInt8) : ℕ := (utf8Decode (chunkAt bytes fun _ => 0)).2

theorem toNat_ofNat_byte {n : ℕ} (small : n < 256) : (UInt8.ofNat n).toNat = n :=
  UInt8.toNat_ofNat_of_lt' small

theorem char_lt (c : Char) : c.val.toNat < 0x110000 := by
  have valid := c.valid
  simp only [UInt32.isValidChar, Nat.isValidChar] at valid
  omega

section Sequences

variable {v : ℕ} {behind : ℕ → UInt8}

/-- A byte behind the first one. -/
theorem toNat_continuation (x : ℕ) : (UInt8.ofNat (x % 64 + 128)).toNat = x % 64 + 128 :=
  toNat_ofNat_byte (by omega)

theorem utf8Decode_sequence_one (bound : v < 0x80) :
    utf8Decode (chunkAt [UInt8.ofNat v] behind) = (1, v) := by
  have first : (UInt8.ofNat v).toNat = v := toNat_ofNat_byte (by omega)
  have decoded := utf8Decode_one (c := chunkAt [UInt8.ofNat v] behind)
  simp only [chunkAt, first] at decoded
  exact decoded bound

theorem utf8Decode_sequence_two (bound : v < 0x800) :
    utf8Decode (chunkAt [UInt8.ofNat (v / 64 % 32 + 192), UInt8.ofNat (v % 64 + 128)] behind) =
      (2, v) := by
  have first : (UInt8.ofNat (v / 64 % 32 + 192)).toNat = v / 64 % 32 + 192 :=
    toNat_ofNat_byte (by omega)
  have decoded := utf8Decode_two
    (c := chunkAt [UInt8.ofNat (v / 64 % 32 + 192), UInt8.ofNat (v % 64 + 128)] behind)
  simp only [chunkAt, first, toNat_continuation] at decoded
  rw [decoded (by omega) (by omega)]
  congr 1
  omega

theorem utf8Decode_sequence_three (bound : v < 0x10000) :
    utf8Decode (chunkAt [UInt8.ofNat (v / 4096 % 16 + 224), UInt8.ofNat (v / 64 % 64 + 128),
      UInt8.ofNat (v % 64 + 128)] behind) = (3, v) := by
  have first : (UInt8.ofNat (v / 4096 % 16 + 224)).toNat = v / 4096 % 16 + 224 :=
    toNat_ofNat_byte (by omega)
  have decoded := utf8Decode_three (c := chunkAt [UInt8.ofNat (v / 4096 % 16 + 224),
    UInt8.ofNat (v / 64 % 64 + 128), UInt8.ofNat (v % 64 + 128)] behind)
  simp only [chunkAt, first, toNat_continuation] at decoded
  rw [decoded (by omega) (by omega)]
  congr 1
  omega

theorem utf8Decode_sequence_four (bound : v < 0x200000) :
    utf8Decode (chunkAt [UInt8.ofNat (v / 262144 % 8 + 240), UInt8.ofNat (v / 4096 % 64 + 128),
      UInt8.ofNat (v / 64 % 64 + 128), UInt8.ofNat (v % 64 + 128)] behind) = (4, v) := by
  have first : (UInt8.ofNat (v / 262144 % 8 + 240)).toNat = v / 262144 % 8 + 240 :=
    toNat_ofNat_byte (by omega)
  have decoded := utf8Decode_four (c := chunkAt [UInt8.ofNat (v / 262144 % 8 + 240),
    UInt8.ofNat (v / 4096 % 64 + 128), UInt8.ofNat (v / 64 % 64 + 128),
    UInt8.ofNat (v % 64 + 128)] behind)
  simp only [chunkAt, first, toNat_continuation] at decoded
  rw [decoded (by omega) (by omega)]
  congr 1
  omega

end Sequences

/-- The bytes of a character decode to its code point. -/
theorem utf8Decode_char (c : Char) (behind : ℕ → UInt8) :
    utf8Decode (chunkAt (String.utf8EncodeChar c) behind) =
      ((String.utf8EncodeChar c).length, c.val.toNat) := by
  have bound := char_lt c
  unfold String.utf8EncodeChar
  dsimp only
  generalize c.val.toNat = v at bound ⊢
  split_ifs with one two three
  · exact utf8Decode_sequence_one (by omega)
  · exact utf8Decode_sequence_two (by omega)
  · exact utf8Decode_sequence_three (by omega)
  · exact utf8Decode_sequence_four (by omega)

end Vineyard

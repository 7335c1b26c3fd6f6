import Vineyard.Graphics.Characters

/-!
# Glyphs

`util/bdf-to-c` turns a font into the tables of the framebuffer driver, with the entries for U+0000 to
U+266F and U+FB00 to U+FFFF one behind the other.  `framebuffer_draw_char` finds the entries of both
ranges, but leaves out the gap between them and what is above: there it reads entries of other
characters, or memory behind the table.
-/

namespace Vineyard

open Strings

/-! ## The generator -/

section Arrays

variable {κ α : Type} [DecidableEq κ]

/-- The element of an array, if it is set. -/
def arrayGet (key : κ) : List (κ × α) → Option α
  | [] => none
  | entry :: rest => if entry.1 = key then some entry.2 else arrayGet key rest

/-- An assignment to an element of an array; a new key comes last. -/
def arraySet (key : κ) (value : α) : List (κ × α) → List (κ × α)
  | [] => [(key, value)]
  | entry :: rest =>
    if entry.1 = key then (key, value) :: rest else entry :: arraySet key value rest

theorem arrayGet_arraySet (key k : κ) (value : α) (array : List (κ × α)) :
    arrayGet k (arraySet key value array) = if key = k then some value else arrayGet k array := by
  induction array with
  | nil => rfl
  | cons entry rest ih =>
    rw [arraySet]
    by_cases same : entry.1 = key
    · rw [if_pos same, arrayGet, arrayGet, same]
      split_ifs <;> rfl
    · rw [if_neg same, arrayGet, arrayGet, ih]
      split_ifs with first second
      · exact absurd (first.trans second.symm) same
      · rfl
      · rfl
      · rfl

end Arrays

/-- `explode` -/
def explode (separator : Char) (s : List Char) : List (List Char) := s.splitOn separator

/-- The variables of the loop over the lines; the keys of `lookup` are strings. -/
structure Bdf where
  chars : ℕ
  remaining : ℕ
  bitmaps : List (ℤ × List (ℕ × List Char))
  lookup : List (List Char × ℕ)

def bdfLine (s : Bdf) (line : List Char) : Bdf :=
  if 0 < s.remaining then
    let remaining := s.remaining - 1
    let bitmap := (arrayGet ((s.chars : ℤ) - 1) s.bitmaps).getD []
    { s with
      remaining := remaining
      bitmaps := arraySet ((s.chars : ℤ) - 1) (arraySet (15 - remaining) line bitmap) s.bitmaps }
  else
    let token := explode ' ' line
    if token.headD [] = "ENCODING".toList then
      { s with lookup := arraySet (token.getD 1 []) s.chars s.lookup, chars := s.chars + 1 }
    else if token.headD [] = "BITMAP".toList then { s with remaining := 16 }
    else s

/-- `isset($lookup[$i]) ? $lookup[$i] : 0` -/
def bdfEntry (s : Bdf) (i : ℕ) : ℕ := (arrayGet (Nat.toDigits 10 i) s.lookup).getD 0

/-- The initializers of `framebuffer_font` and `framebuffer_font_index`. -/
structure FontTables where
  font : List (List Char)
  fontIndex : List ℕ

/-- All lines of a font. -/
def bdfLines (bdf : List Char) : Bdf := (explode '\n' bdf).foldl bdfLine ⟨0, 0, [], []⟩

def bdfToC (bdf : List Char) : FontTables :=
  let s := bdfLines bdf
  { font := s.bitmaps.flatMap fun bitmap => bitmap.2.map fun item => "0x".toList ++ item.2
    fontIndex := (List.range 9840).map (bdfEntry s) ++
      (List.range' 64256 (0xFFFF + 1 - 64256)).map (bdfEntry s) }

/-! ## What the font says -/

/-- The codes of the `ENCODING` lines, in order; the lines of a bitmap are none. -/
def encodings : ℕ → List (List Char) → List (List Char)
  | _, [] => []
  | remaining + 1, _ :: lines => encodings remaining lines
  | 0, line :: lines =>
    let token := explode ' ' line
    if token.headD [] = "ENCODING".toList then token.getD 1 [] :: encodings 0 lines
    else if token.headD [] = "BITMAP".toList then encodings 16 lines
    else encodings 0 lines

/-- The position of the last element that is `a`. -/
def lastIndex {α : Type} [DecidableEq α] (a : α) : List α → Option ℕ
  | [] => none
  | b :: rest =>
    match lastIndex a rest with
    | some i => some (i + 1)
    | none => if b = a then some 0 else none

/-- The glyph number that a font gives to a code point, or the fallback glyph. -/
def glyphNumber (bdf : List Char) (code : ℕ) : ℕ :=
  (lastIndex (Nat.toDigits 10 code) (encodings 0 (explode '\n' bdf))).getD 0

/-- The generated lookup numbers the glyphs as the font does. -/
theorem foldl_lookup (key : List Char) (lines : List (List Char)) : ∀ s : Bdf,
    arrayGet key (lines.foldl bdfLine s).lookup =
      match lastIndex key (encodings s.remaining lines) with
      | some i => some (s.chars + i)
      | none => arrayGet key s.lookup := by
  induction lines with
  | nil =>
    intro s
    cases s.remaining <;> rfl
  | cons line lines ih =>
    intro s
    rw [List.foldl_cons, ih]
    obtain ⟨chars, remaining, bitmaps, lookup⟩ := s
    cases remaining with
    | succ remaining => rfl
    | zero =>
      rw [encodings]
      dsimp only [bdfLine]
      rw [if_neg (Nat.lt_irrefl 0)]
      by_cases encoding : (explode ' ' line).headD [] = "ENCODING".toList
      · rw [if_pos encoding, if_pos encoding, lastIndex]
        dsimp only
        cases lastIndex key (encodings 0 lines) with
        | some i =>
          dsimp only
          rw [Nat.add_assoc, Nat.add_comm 1]
        | none =>
          dsimp only
          rw [arrayGet_arraySet]
          split_ifs <;> rfl
      · rw [if_neg encoding, if_neg encoding]
        by_cases bitmap : (explode ' ' line).headD [] = "BITMAP".toList
        · rw [if_pos bitmap, if_pos bitmap]
        · rw [if_neg bitmap, if_neg bitmap]

theorem bdfEntry_eq (bdf : List Char) (i : ℕ) : bdfEntry (bdfLines bdf) i = glyphNumber bdf i := by
  unfold bdfEntry glyphNumber bdfLines
  rw [foldl_lookup]
  dsimp only
  cases lastIndex (Nat.toDigits 10 i) (encodings 0 (explode '\n' bdf)) with
  | some j => exact congrArg (fun o : Option ℕ => o.getD 0) (congrArg some (Nat.zero_add j))
  | none => rfl

/-- The entry at an index is the number of a character in one of the ranges. -/
theorem bdfToC_fontIndex (bdf : List Char) {i : ℕ} (inside : i < 11120) :
    (bdfToC bdf).fontIndex[i]? = some (glyphNumber bdf (if i < 9840 then i else i + 54416)) := by
  have size : ((List.range 9840).map (bdfEntry (bdfLines bdf))).length = 9840 := by
    rw [List.length_map, List.length_range]
  unfold bdfToC
  dsimp only
  split_ifs with first
  · rw [List.getElem?_append_left (by rwa [size]), List.getElem?_map, List.getElem?_range first,
      Option.map_some, bdfEntry_eq]
  · have past : ((List.range 9840).map (bdfEntry (bdfLines bdf))).length ≤ i := by
      rw [size]
      exact Nat.le_of_not_lt first
    have second : i - 9840 < 0xFFFF + 1 - 64256 := by omega
    have code : 64256 + 1 * (i - 9840) = i + 54416 := by omega
    rw [List.getElem?_append_right past, size, List.getElem?_map, List.getElem?_range' second,
      Option.map_some, bdfEntry_eq, code]

/-! ## The driver -/

/-- What is read from the generated `framebuffer_font_index`, inside or behind it. -/
def compiledIndex (tables : FontTables) (behind : ℕ → UInt16) (i : ℕ) : UInt16 :=
  match tables.fontIndex[i]? with
  | some entry => UInt16.ofNat entry
  | none => behind i

/-- The font of the driver; `rows` are the bytes of `framebuffer_font`. -/
def generatedFont (bdf : List Char) (rows : ℕ → UInt8) (behind : ℕ → UInt16) : Font :=
  ⟨compiledIndex (bdfToC bdf) behind, rows⟩

theorem generatedFont_fontIndex (bdf : List Char) (rows : ℕ → UInt8) (behind : ℕ → UInt16) :
    (generatedFont bdf rows behind).fontIndex = compiledIndex (bdfToC bdf) behind := by
  simp only [generatedFont]

/-- The glyph that is meant for a code point: the fallback glyph outside of both ranges. -/
def expectedGlyph (bdf : List Char) (code : ℕ) : ℕ :=
  if code < 9840 ∨ (64256 ≤ code ∧ code ≤ 65535) then glyphNumber bdf code else 0

theorem drawnEntry_char (c : Char) (after : ℕ → UInt8) :
    drawnEntry (chunkAt (String.utf8EncodeChar c) after) = fontEntry c.val.toNat := by
  rw [drawnEntry, utf8Decode_char]

/-- The entry that is read inside the table. -/
theorem compiledIndex_entry (bdf : List Char) (behind : ℕ → UInt16) {code : ℕ}
    (inside : fontEntry code < 11120) :
    (compiledIndex (bdfToC bdf) behind (fontEntry code)).toNat =
      glyphNumber bdf (if 9840 ≤ code ∧ code < 11120 then code + 54416 else code) % 2 ^ 16 := by
  have code_eq : (if fontEntry code < 9840 then fontEntry code else fontEntry code + 54416) =
      if 9840 ≤ code ∧ code < 11120 then code + 54416 else code := by
    unfold fontEntry at inside ⊢
    split_ifs at inside ⊢ <;> omega
  unfold compiledIndex
  rw [bdfToC_fontIndex bdf inside, code_eq]
  exact UInt16.toNat_ofNat'

/-- **The glyph of a character is the one that the font gives it, in the two ranges of the table.**
Between them the entry is one of the second range or behind the table, and above them it is behind. -/
theorem glyph_lookup_iff (bdf : List Char) (rows : ℕ → UInt8) (behind : ℕ → UInt16) (c : Char)
    (after : ℕ → UInt8) :
    (drawnEntry (chunkAt (String.utf8EncodeChar c) after) < 11120 ∧
      ((generatedFont bdf rows behind).fontIndex
        (drawnEntry (chunkAt (String.utf8EncodeChar c) after))).toNat =
          expectedGlyph bdf c.val.toNat) ↔
    ((c.val.toNat < 9840 ∨ (64256 ≤ c.val.toNat ∧ c.val.toNat ≤ 65535)) ∧
      glyphNumber bdf c.val.toNat < 2 ^ 16) ∨
    (9840 ≤ c.val.toNat ∧ c.val.toNat < 11120 ∧
      glyphNumber bdf (c.val.toNat + 54416) % 2 ^ 16 = 0) := by
  rw [drawnEntry_char, generatedFont_fontIndex]
  generalize c.val.toNat = code
  have small (n : ℕ) : n % 2 ^ 16 = n ↔ n < 2 ^ 16 := Nat.mod_eq_iff_lt (by decide)
  by_cases inside : fontEntry code < 11120
  · have covered : code < 11120 ∨ (64256 ≤ code ∧ code ≤ 65535) := (fontEntry_inside code).mp inside
    rw [compiledIndex_entry bdf behind inside, expectedGlyph]
    by_cases ranges : code < 9840 ∨ (64256 ≤ code ∧ code ≤ 65535)
    · have apart : ¬ (9840 ≤ code ∧ code < 11120) := by omega
      rw [if_pos ranges, if_neg apart, small]
      exact ⟨fun same => .inl ⟨ranges, same.2⟩, fun same => ⟨inside, by omega⟩⟩
    · have gap : 9840 ≤ code ∧ code < 11120 := by omega
      rw [if_neg ranges, if_pos gap]
      refine ⟨fun same => .inr ⟨gap.1, gap.2, same.2⟩, fun same => ⟨inside, ?_⟩⟩
      obtain both | both := same
      · exact absurd both.1 ranges
      · exact both.2.2
  · have outside : ¬ (code < 11120 ∨ (64256 ≤ code ∧ code ≤ 65535)) :=
      mt (fontEntry_inside code).mpr inside
    refine ⟨fun same => absurd same.1 inside, fun same => ?_⟩
    omega

/-- A font with a glyph for U+FB00. -/
def ligatureFont : List Char := "ENCODING 0\nENCODING 64256".toList

/-- The entry of a CJK character is behind the table, and U+2670 gets the glyph of U+FB00. -/
theorem glyph_lookup_gap :
    ¬ drawnEntry (chunkAt (String.utf8EncodeChar '中') fun _ => 0) < 11120 ∧
      ((generatedFont ligatureFont (fun _ => 0) fun _ => 0).fontIndex
        (drawnEntry (chunkAt (String.utf8EncodeChar '♰') fun _ => 0))).toNat = 1 ∧
      expectedGlyph ligatureFont '♰'.val.toNat = 0 := by
  rw [drawnEntry_char, drawnEntry_char, generatedFont_fontIndex,
    compiledIndex_entry ligatureFont _ (by decide +kernel)]
  decide +kernel

end Vineyard

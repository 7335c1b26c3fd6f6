import Mathlib.Data.List.Induction
import Vineyard.Graphics.Inside

/-!
# The terminal shows the last rows of the text

Printable characters and newlines make a text of rows of at most `width / 8` characters.  The terminal
is at every moment the picture of the last `(height - 1) / 16` of them, as long as the size of a line
in bytes and the cursor below the last row fit in 32 bits.
-/

namespace Vineyard

open Bytes Terminal

/-! ## The text -/

/-- A text broken into rows: the finished ones and the one that grows. -/
structure TextPage where
  above : List (List UInt8)
  current : List UInt8

namespace TextPage

def empty : TextPage := ⟨[], []⟩

def rows (page : TextPage) : List (List UInt8) := page.above ++ [page.current]

/-- The row is finished, and an empty one follows. -/
def newline (page : TextPage) : TextPage := ⟨page.above ++ [page.current], []⟩

/-- A row ends at a newline and before a character that is one too many. -/
def put (columns : ℕ) (page : TextPage) (c : UInt8) : TextPage :=
  if c = 0x0A then page.newline
  else if page.current.length < columns then ⟨page.above, page.current ++ [c]⟩
  else ⟨page.newline.above, [c]⟩

/-- The text of a sequence of characters. -/
def write (columns : ℕ) (text : List UInt8) : TextPage := text.foldl (put columns) empty

/-- The last rows, or all of them while there are fewer. -/
def lastRows (count : ℕ) (page : TextPage) : List (List UInt8) :=
  page.rows.drop (page.rows.length - count)

/-- The character at column `j` of row `i` of the last rows. -/
def cell (count : ℕ) (page : TextPage) (i j : ℕ) : Option UInt8 :=
  (page.lastRows count)[i]?.bind fun row => row[j]?

end TextPage

/-- Pixel `k` of row `r` of a character in the font tables. -/
def glyphPixel (font : Font) (c : UInt8) (r k : ℕ) : ℕ :=
  if (font.font (16 * (font.fontIndex c.toNat).toNat + r)).toNat.testBit (7 - k) then 0xFFFFFFFF
  else 0

/-- A cell without a character is zero. -/
def cellPixel (font : Font) (cell : Option UInt8) (r k : ℕ) : ℕ :=
  match cell with
  | some c => glyphPixel font c r k
  | none => 0

/-- The pixel at column `h` of scan line `v`. -/
def pixelAt (pitch : ℕ) (lfb : Memory) (h v : ℕ) : ℕ := load lfb (v * pitch + 4 * h) 4

/-- The rows of text that the screen has room for. -/
def textRowCount (mode : GopModeInfo) : ℕ := (mode.verticalResolution - 1) / 16

/-- The screen shows the last rows of the text, glyph for glyph. -/
def ShowsText (mode : GopModeInfo) (font : Font) (page : TextPage) (lfb : Memory) : Prop :=
  ∀ i < textRowCount mode, ∀ r < 16, ∀ h < mode.horizontalResolution,
    pixelAt (framebufferInit mode).pitch lfb h (16 * i + r) =
      cellPixel font (page.cell (textRowCount mode) i (h / 8)) r (h % 8)

/-- A printable ASCII character or a newline. -/
def Printable (c : UInt8) : Prop := c = 0x0A ∨ 0x20 ≤ c ∧ c ≤ 0x7E

/-- The modes with whole cells. -/
structure TextMode (mode : GopModeInfo) : Prop where
  width_pos : 0 < mode.horizontalResolution
  width_cells : mode.horizontalResolution % 8 = 0
  tall : 16 < mode.verticalResolution
  height_lt : mode.verticalResolution < 2 ^ 32
  scan : 4 * mode.horizontalResolution ≤ (framebufferInit mode).pitch

/-- From a blank screen every text is shown. -/
def RefinesGrid (mode : GopModeInfo) : Prop :=
  ∀ (font : Font) (calls : List (ℕ → UInt8)), (∀ c ∈ calls, Printable (c 0)) →
    ShowsText mode font (.write (mode.horizontalResolution / 8) (calls.map fun c => c 0))
      (terminalRun (framebufferInit mode) font calls (.start fun _ => 0)).lfb

/-- A line of text in bytes and the cursor below the last row fit in 32 bits. -/
def LineFits (mode : GopModeInfo) : Prop :=
  16 * (framebufferInit mode).pitch < 2 ^ 32 ∧ mode.verticalResolution ≤ 2 ^ 32 - 16

/-! ## Cells of the text -/

namespace TextPage

theorem cell_eq (count : ℕ) (page : TextPage) (i j : ℕ) :
    page.cell count i j = page.rows[page.rows.length - count + i]?.bind fun row => row[j]? := by
  rw [cell, lastRows, List.getElem?_drop]

theorem rows_length (page : TextPage) : page.rows.length = page.above.length + 1 := by
  rw [rows, List.length_append, List.length_singleton]

theorem cell_eq_none {count i : ℕ} {page : TextPage}
    (below : page.rows.length ≤ page.rows.length - count + i) (j : ℕ) :
    page.cell count i j = none := by
  rw [cell_eq, List.getElem?_eq_none below]
  rfl

theorem rows_newline (page : TextPage) : page.newline.rows = page.rows ++ [[]] := rfl

/-- While there is room a newline changes no cell. -/
theorem cell_newline_of_lt {count : ℕ} {page : TextPage} (room : page.rows.length < count) (i j : ℕ) :
    page.newline.cell count i j = page.cell count i j := by
  rw [cell_eq, cell_eq, rows_newline, List.length_append, List.length_singleton,
    show page.rows.length + 1 - count + i = i by
      omega, show page.rows.length - count + i = i by omega]
  by_cases inside : i < page.rows.length
  · rw [List.getElem?_append_left inside]
  · rw [List.getElem?_append_right (by omega),
      List.getElem?_eq_none (by omega : page.rows.length ≤ i)]
    cases i - page.rows.length <;> rfl

/-- On a full screen a newline moves the cells up. -/
theorem cell_newline_of_le {count : ℕ} {page : TextPage} (full : count ≤ page.rows.length)
    (i j : ℕ) :
    page.newline.cell count i j = page.cell count (i + 1) j := by
  rw [cell_eq, cell_eq, rows_newline, List.length_append, List.length_singleton,
    show page.rows.length + 1 - count + i = page.rows.length - count + (i + 1) by omega]
  generalize page.rows.length - count + (i + 1) = index
  by_cases inside : index < page.rows.length
  · rw [List.getElem?_append_left inside]
  · rw [List.getElem?_append_right (by omega),
      List.getElem?_eq_none (by omega : page.rows.length ≤ index)]
    cases index - page.rows.length <;> rfl

/-- A character put at the end of the current row is the only cell that changes. -/
theorem cell_append {count : ℕ} {page : TextPage} (positive : 0 < count) (c : UInt8) (i j : ℕ) :
    (TextPage.mk page.above (page.current ++ [c])).cell count i j =
      if i = min page.above.length (count - 1) ∧ j = page.current.length then some c
      else page.cell count i j := by
  rw [cell_eq, cell_eq, rows_length, rows_length]
  unfold rows
  dsimp only
  by_cases last : i = min page.above.length (count - 1)
  · rw [show page.above.length + 1 - count + i = page.above.length by omega,
      List.getElem?_append_right (Nat.le_refl _), List.getElem?_append_right (Nat.le_refl _),
      Nat.sub_self]
    show (page.current ++ [c])[j]? = if _ then some c else page.current[j]?
    by_cases new : j = page.current.length
    · rw [if_pos ⟨last, new⟩, new, List.getElem?_concat_length]
    · rw [if_neg fun both => new both.2]
      rcases Nat.lt_or_gt_of_ne new with less | more
      · rw [List.getElem?_append_left less]
      · rw [List.getElem?_eq_none, List.getElem?_eq_none (by omega)]
        rw [List.length_append, List.length_singleton]
        omega
  · rw [if_neg fun both => last both.1]
    by_cases inside : page.above.length + 1 - count + i < page.above.length
    · rw [List.getElem?_append_left inside, List.getElem?_append_left inside]
    · rw [List.getElem?_eq_none, List.getElem?_eq_none]
      · rw [List.length_append, List.length_singleton]
        omega
      · rw [List.length_append, List.length_singleton]
        omega

end TextPage

/-! ## Pixels of the framebuffer -/

section Pixels

variable {pitch scan : ℕ}

theorem store32_lfb (addr : ℕ) (value : UInt32) (t : Terminal) :
    (store32 addr value t).lfb = store t.lfb addr value.toNat 4 := rfl

/-- A store to one pixel leaves the others. -/
theorem pixelAt_store (room : 4 * scan ≤ pitch) {lfb : Memory} {h h0 v v0 : ℕ} (bound : h < scan)
    (bound0 : h0 < scan) (value : UInt32) :
    pixelAt pitch (store lfb (v0 * pitch + 4 * h0) value.toNat 4) h v =
      if v = v0 ∧ h = h0 then value.toNat else pixelAt pitch lfb h v := by
  unfold pixelAt
  by_cases same : v = v0 ∧ h = h0
  · rw [if_pos same, same.1, same.2]
    exact load_store value.toNat_lt
  · rw [if_neg same]
    apply load_store_off
    rcases Nat.lt_trichotomy v v0 with less | equal | more
    · have : (v + 1) * pitch ≤ v0 * pitch := Nat.mul_le_mul_right _ less
      have : (v + 1) * pitch = v * pitch + pitch := Nat.succ_mul v pitch
      omega
    · rw [equal]
      omega
    · have : (v0 + 1) * pitch ≤ v * pitch := Nat.mul_le_mul_right _ more
      have : (v0 + 1) * pitch = v0 * pitch + pitch := Nat.succ_mul v0 pitch
      omega

theorem rowBit_toNat (rowData : UInt8) {shift : ℕ} (bound : shift < 8) :
    ((rowData >>> UInt8.ofNat shift) &&& 1).toNat = (rowData.toNat.testBit shift).toNat := by
  have small : (UInt8.ofNat shift).toNat = shift :=
    UInt8.toNat_ofNat_of_lt' (show shift < 256 by omega)
  rw [UInt8.toNat_and, UInt8.toNat_shiftRight, small, Nat.mod_eq_of_lt bound, Nat.toNat_testBit,
    Nat.shiftRight_eq_div_pow]
  exact Nat.and_one_is_mod _

/-- The color of a pixel is that of its bit in the font. -/
theorem pixelColor_toNat (rowData : UInt8) {shift : ℕ} (bound : shift < 8) :
    (pixelColor rowData (UInt8.ofNat shift)).toNat =
      if rowData.toNat.testBit shift then 0xFFFFFFFF else 0 := by
  have bit := rowBit_toNat rowData bound
  unfold pixelColor fontLookup
  cases set : rowData.toNat.testBit shift with
  | false =>
    rw [set] at bit
    rw [UInt8.toNat_inj.mp (show _ = (0 : UInt8).toNat from bit)]
    rfl
  | true =>
    rw [set] at bit
    rw [UInt8.toNat_inj.mp (show _ = (1 : UInt8).toNat from bit)]
    rfl

theorem drawRow_eq (mode : GopModeInfo) (rowData : UInt8) (addr : ℕ) (t : Terminal) :
    drawRow (framebufferInit mode) rowData addr t = (List.range 8).foldl
      (fun t k => store32 (addr + 4 * k) (pixelColor rowData (UInt8.ofNat (7 - k))) t) t := rfl

theorem drawRow_pixel (room : 4 * scan ≤ pitch) {mode : GopModeInfo} {rowData : UInt8} {t : Terminal}
    {x h v v0 : ℕ} (bound : h < scan) (inside : x + 8 ≤ scan) :
    pixelAt pitch (drawRow (framebufferInit mode) rowData (v0 * pitch + 4 * x) t).lfb h v =
      if v = v0 ∧ x ≤ h ∧ h < x + 8 then
        (pixelColor rowData (UInt8.ofNat (7 - (h - x)))).toNat
      else pixelAt pitch t.lfb h v := by
  have pixels : ∀ n ≤ 8, pixelAt pitch ((List.range n).foldl (fun t k =>
      store32 (v0 * pitch + 4 * x + 4 * k) (pixelColor rowData (UInt8.ofNat (7 - k))) t) t).lfb h v =
      if v = v0 ∧ x ≤ h ∧ h < x + n then
        (pixelColor rowData (UInt8.ofNat (7 - (h - x)))).toNat
      else pixelAt pitch t.lfb h v := by
    intro n
    induction n with
    | zero =>
      intro _
      rw [if_neg (by omega)]
      rfl
    | succ n ih =>
      intro le
      rw [List.range_succ, List.foldl_append, List.foldl_cons, List.foldl_nil]
      rw [store32_lfb, show v0 * pitch + 4 * x + 4 * n = v0 * pitch + 4 * (x + n) by omega,
        pixelAt_store room bound (by omega), ih (by omega)]
      by_cases last : v = v0 ∧ h = x + n
      · rw [if_pos last, if_pos (by omega), show h - x = n by omega]
      · rw [if_neg last]
        by_cases earlier : v = v0 ∧ x ≤ h ∧ h < x + n
        · rw [if_pos earlier, if_pos (by omega)]
        · rw [if_neg earlier, if_neg (by omega)]
  rw [drawRow_eq]
  exact pixels 8 (Nat.le_refl 8)

theorem drawRows_pixel {mode : GopModeInfo} (room : 4 * scan ≤ (framebufferInit mode).pitch)
    {charData : ℕ → UInt8} {t : Terminal} {x y h v : ℕ} (bound : h < scan) (inside : x + 8 ≤ scan)
    (n : ℕ) :
    pixelAt (framebufferInit mode).pitch (drawRows (framebufferInit mode) charData
        (y * (framebufferInit mode).pitch + 4 * x) n t).lfb h v =
      if (y ≤ v ∧ v < y + n) ∧ x ≤ h ∧ h < x + 8 then
        (pixelColor (charData (v - y)) (UInt8.ofNat (7 - (h - x)))).toNat
      else pixelAt (framebufferInit mode).pitch t.lfb h v := by
  induction n with
  | zero =>
    rw [if_neg (by omega)]
    rfl
  | succ n ih =>
    unfold drawRows
    have addr : y * (framebufferInit mode).pitch + 4 * x + n * (framebufferInit mode).pitch =
        (y + n) * (framebufferInit mode).pitch + 4 * x := by ring
    rw [addr, drawRow_pixel room bound inside, ih]
    by_cases last : v = y + n ∧ x ≤ h ∧ h < x + 8
    · rw [if_pos last, if_pos (by omega), show v - y = n by omega]
    · rw [if_neg last]
      by_cases earlier : (y ≤ v ∧ v < y + n) ∧ x ≤ h ∧ h < x + 8
      · rw [if_pos earlier, if_pos (by omega)]
      · rw [if_neg earlier, if_neg (by omega)]

/-- The lines move up one by one. -/
theorem copyLines_byte (bytesPerLine n : ℕ) (t : Terminal) (b : ℕ) :
    (copyLines bytesPerLine n t).lfb b =
      if b < n * bytesPerLine then t.lfb (b + bytesPerLine) else t.lfb b := by
  induction n generalizing b with
  | zero =>
    rw [if_neg (by omega)]
    rfl
  | succ n ih =>
    have size : (n + 1) * bytesPerLine = n * bytesPerLine + bytesPerLine := Nat.succ_mul n _
    unfold copyLines memcpy
    dsimp only
    by_cases moved : n * bytesPerLine ≤ b ∧ b < n * bytesPerLine + bytesPerLine
    · rw [copy_inside moved.1 moved.2, ih, if_neg (by omega), if_pos (by omega)]
      congr 1
      omega
    · rw [copy_outside (by omega), ih]
      by_cases earlier : b < n * bytesPerLine
      · rw [if_pos earlier, if_pos (by omega)]
      · rw [if_neg earlier, if_neg (by omega)]

/-- The scroll moves `n` lines up and clears the one after them. -/
theorem scroll_byte (bytesPerLine n : ℕ) (t : Terminal) (b : ℕ) :
    (memset (n * bytesPerLine) 0 bytesPerLine (copyLines bytesPerLine n t)).lfb b =
      if b < n * bytesPerLine then t.lfb (b + bytesPerLine)
      else if b < n * bytesPerLine + bytesPerLine then 0 else t.lfb b := by
  unfold memset
  dsimp only
  by_cases cleared : n * bytesPerLine ≤ b ∧ b < n * bytesPerLine + bytesPerLine
  · rw [fill_inside cleared.1 cleared.2, if_neg (by omega), if_pos cleared.2]
  · rw [fill_outside (by omega), copyLines_byte]
    by_cases moved : b < n * bytesPerLine
    · rw [if_pos moved, if_pos moved]
    · rw [if_neg moved, if_neg moved, if_neg (by omega)]

theorem scroll_draws (bytesPerLine n : ℕ) (t : Terminal) :
    Draws (n * bytesPerLine + bytesPerLine) t
      (memset (n * bytesPerLine) 0 bytesPerLine (copyLines bytesPerLine n t)) :=
  (copyLines_draws n t (Nat.le_add_right _ _)).trans (memset_draws 0 _ (Nat.le_refl _))

theorem scroll_pixel (room : 4 * scan ≤ pitch) {n : ℕ} {t : Terminal} {h i r : ℕ} (bound : h < scan)
    (low : r < 16) (inside : i ≤ n) :
    pixelAt pitch (memset (n * (16 * pitch)) 0 (16 * pitch) (copyLines (16 * pitch) n t)).lfb h
        (16 * i + r) =
      if i < n then pixelAt pitch t.lfb h (16 * (i + 1) + r) else 0 := by
  unfold pixelAt
  have start : (16 * i + r) * pitch = i * (16 * pitch) + r * pitch := by ring
  have next : (16 * (i + 1) + r) * pitch = i * (16 * pitch) + r * pitch + 16 * pitch := by ring
  have within : r * pitch + pitch ≤ 16 * pitch := by
    rw [← Nat.succ_mul]
    exact Nat.mul_le_mul_right _ low
  by_cases less : i < n
  · have below : (i + 1) * (16 * pitch) ≤ n * (16 * pitch) := Nat.mul_le_mul_right _ less
    have step : (i + 1) * (16 * pitch) = i * (16 * pitch) + 16 * pitch := Nat.succ_mul i _
    rw [if_pos less]
    apply load_move
    intro k bound
    rw [scroll_byte, if_pos (by omega)]
    congr 1
    omega
  · have same : i = n := by omega
    rw [if_neg less]
    apply load_zero
    intro k bound
    rw [same] at start ⊢
    rw [scroll_byte, if_neg (by omega), if_pos (by omega)]

end Pixels

/-! ## The terminal and the text -/

/-- The framebuffer is the picture of the text at the pixels `seen`, of which some may be right of the
screen or below its last row. -/
def Pictures (mode : GopModeInfo) (font : Font) (seen : ℕ → ℕ → Prop) (page : TextPage)
    (lfb : Memory) : Prop :=
  ∀ i < mode.verticalResolution / 16, ∀ r < 16, ∀ h < (framebufferInit mode).pitch / 4,
    seen h (16 * i + r) → pixelAt (framebufferInit mode).pitch lfb h (16 * i + r) =
      cellPixel font (page.cell (textRowCount mode) i (h / 8)) r (h % 8)

/-- The rows of the text are no longer than the screen is wide. -/
def InColumns (mode : GopModeInfo) (page : TextPage) : Prop :=
  ∀ row ∈ page.rows, row.length ≤ mode.horizontalResolution / 8

/-- The terminal is the picture of the text. -/
structure Shown (mode : GopModeInfo) (font : Font) (seen : ℕ → ℕ → Prop) (page : TextPage)
    (t : Terminal) : Prop where
  columns : InColumns mode page
  x : t.x = 8 * page.current.length
  y : t.y = 16 * min page.above.length (textRowCount mode - 1)
  sizes : t.rows = 0 ∧ t.lines = 0 ∨
    t.rows = mode.horizontalResolution / 8 ∧ t.lines = mode.verticalResolution / 16
  pixels : Pictures mode font seen page t.lfb

/-- The scroll of a full screen leaves the picture of the text with one more row. -/
structure Scrolls (mode : GopModeInfo) (seen : ℕ → ℕ → Prop) : Prop where
  height_le : mode.verticalResolution ≤ 2 ^ 32 - 16
  pictures : ∀ (font : Font) (page : TextPage) (t : Terminal), InColumns mode page →
    textRowCount mode ≤ page.rows.length → Pictures mode font seen page t.lfb →
    Pictures mode font seen page.newline
      (memset ((mode.verticalResolution / 16 - 1) *
          Word32.mul (framebufferInit mode).pitch terminalCharHeight) 0
        (Word32.mul (framebufferInit mode).pitch terminalCharHeight)
        (copyLines (Word32.mul (framebufferInit mode).pitch terminalCharHeight)
          (mode.verticalResolution / 16 - 1) t)).lfb

section Steps

variable {mode : GopModeInfo} {font : Font} {seen : ℕ → ℕ → Prop} {page : TextPage} {t : Terminal}

theorem framebufferInit_pitch_lt (mode : GopModeInfo) : (framebufferInit mode).pitch < 2 ^ 32 :=
  Nat.mod_lt _ (by decide)

theorem Shown.current_le (shown : Shown mode font seen page t) :
    page.current.length ≤ mode.horizontalResolution / 8 := by
  apply shown.columns
  rw [TextPage.rows]
  exact List.mem_append_right _ (List.mem_singleton_self _)

/-- The cell of the cursor lies on the screen. -/
theorem Shown.y_lt (shown : Shown mode font seen page t) (text : TextMode mode) :
    t.y + 16 < mode.verticalResolution := by
  have tall := text.tall
  have y := shown.y
  unfold textRowCount at y
  omega

theorem Shown.sized (shown : Shown mode font seen page t) :
    Shown mode font seen page (terminalSizes (framebufferInit mode) t) ∧
      (terminalSizes (framebufferInit mode) t).lines = mode.verticalResolution / 16 := by
  unfold terminalSizes
  split
  · exact ⟨⟨shown.columns, shown.x, shown.y, .inr ⟨rfl, rfl⟩, shown.pixels⟩, rfl⟩
  · rename_i set
    exact ⟨shown, (shown.sizes.resolve_left set).2⟩

/-- Between the edges the refresh only sets the sizes up. -/
theorem Shown.refresh_of_lt (shown : Shown mode font seen page t) (text : TextMode mode)
    (room : page.current.length < mode.horizontalResolution / 8) :
    terminalRefresh (framebufferInit mode) t = terminalSizes (framebufferInit mode) t := by
  have y_lt := shown.sized.1.y_lt text
  have x := shown.sized.1.x
  have height_lt := text.height_lt
  unfold terminalRefresh
  have stays : terminalWrap (framebufferInit mode) (terminalSizes (framebufferInit mode) t) =
      terminalSizes (framebufferInit mode) t := by
    unfold terminalWrap
    refine if_neg ?_
    show ¬ mode.horizontalResolution ≤ _
    omega
  rw [stays]
  unfold terminalScroll
  refine if_neg ?_
  rw [add_charHeight (by omega)]
  exact Nat.not_le_of_lt y_lt

/-- The start of the next line, before the scroll. -/
def lineFeed (fb : Framebuffer) (t : Terminal) : Terminal :=
  { terminalSizes fb t with x := 0, y := Word32.add (terminalSizes fb t).y terminalCharHeight }

/-- A full row wraps before the next character. -/
theorem Shown.refresh_of_full (shown : Shown mode font seen page t) (text : TextMode mode)
    (full : page.current.length = mode.horizontalResolution / 8) :
    terminalRefresh (framebufferInit mode) t =
      terminalScroll (framebufferInit mode) (lineFeed (framebufferInit mode) t) := by
  have x := shown.sized.1.x
  have cells := text.width_cells
  unfold terminalRefresh
  have wraps : terminalWrap (framebufferInit mode) (terminalSizes (framebufferInit mode) t) =
      lineFeed (framebufferInit mode) t := by
    unfold terminalWrap lineFeed
    refine if_pos ?_
    show mode.horizontalResolution ≤ _
    omega
  rw [wraps]

/-- A newline goes to the next line at once. -/
theorem newline_refresh (text : TextMode mode) (t : Terminal) :
    terminalRefresh (framebufferInit mode) { t with x := 0, y := Word32.add t.y terminalCharHeight } =
      terminalScroll (framebufferInit mode) (lineFeed (framebufferInit mode) t) := by
  have positive := text.width_pos
  unfold terminalRefresh
  have fed : terminalSizes (framebufferInit mode)
      { t with x := 0, y := Word32.add t.y terminalCharHeight } =
      lineFeed (framebufferInit mode) t := by
    unfold lineFeed terminalSizes
    dsimp only
    split <;> rfl
  rw [fed]
  have stays : terminalWrap (framebufferInit mode) (lineFeed (framebufferInit mode) t) =
      lineFeed (framebufferInit mode) t := by
    unfold terminalWrap
    refine if_neg ?_
    show ¬ mode.horizontalResolution ≤ 0
    omega
  rw [stays]

theorem newline_columns (columns : InColumns mode page) : InColumns mode page.newline := by
  intro row mem
  rw [TextPage.rows_newline] at mem
  rcases List.mem_append.mp mem with earlier | last
  · exact columns row earlier
  · rw [List.mem_singleton.mp last]
    exact Nat.zero_le _

/-- While there is room below, the next line is the next row of the screen. -/
theorem Shown.lineFeed_of_lt (shown : Shown mode font seen page t) (text : TextMode mode)
    (room : page.rows.length < textRowCount mode) :
    Shown mode font seen page.newline
      (terminalScroll (framebufferInit mode) (lineFeed (framebufferInit mode) t)) := by
  rcases shown.sized with ⟨sized, _⟩
  have tall := text.tall
  have height_lt := text.height_lt
  have y := sized.y
  have count := page.rows_length
  have rows : textRowCount mode = (mode.verticalResolution - 1) / 16 := rfl
  have down : Word32.add (terminalSizes (framebufferInit mode) t).y terminalCharHeight =
      16 * (page.above.length + 1) := by
    rw [add_charHeight (by omega)]
    omega
  have stays : terminalScroll (framebufferInit mode) (lineFeed (framebufferInit mode) t) =
      lineFeed (framebufferInit mode) t := by
    unfold terminalScroll
    refine if_neg ?_
    unfold lineFeed
    dsimp only
    rw [down, add_charHeight (by omega)]
    show ¬ mode.verticalResolution ≤ _
    omega
  rw [stays]
  refine ⟨newline_columns sized.columns, rfl, ?_, sized.sizes, ?_⟩
  · show Word32.add (terminalSizes (framebufferInit mode) t).y terminalCharHeight =
      16 * min (page.above ++ [page.current]).length (textRowCount mode - 1)
    rw [down, List.length_append, List.length_singleton]
    omega
  · intro i inside r low h bound inSight
    rw [TextPage.cell_newline_of_lt room]
    exact sized.pixels i inside r low h bound inSight

/-- On a full screen the rows move up and the last is blank. -/
theorem Shown.lineFeed_of_le (shown : Shown mode font seen page t) (text : TextMode mode)
    (scrolls : Scrolls mode seen) (full : textRowCount mode ≤ page.rows.length) :
    Shown mode font seen page.newline
      (terminalScroll (framebufferInit mode) (lineFeed (framebufferInit mode) t)) := by
  rcases shown.sized with ⟨sized, lines⟩
  have height_le := scrolls.height_le
  have tall := text.tall
  have y := sized.y
  have count := page.rows_length
  have rows : textRowCount mode = (mode.verticalResolution - 1) / 16 := rfl
  have down : Word32.add (terminalSizes (framebufferInit mode) t).y terminalCharHeight =
      16 * textRowCount mode := by
    rw [add_charHeight (by omega)]
    omega
  have below : (framebufferInit mode).height ≤
      Word32.add (lineFeed (framebufferInit mode) t).y terminalCharHeight := by
    unfold lineFeed
    dsimp only
    rw [down, add_charHeight (by omega)]
    show mode.verticalResolution ≤ _
    omega
  have copied : Word32.sub (lineFeed (framebufferInit mode) t).lines 1 =
      mode.verticalResolution / 16 - 1 := by
    unfold lineFeed
    dsimp only
    rw [lines]
    exact Word32.sub_eq (by omega) (by omega)
  unfold terminalScroll
  dsimp only
  rw [if_pos below, copied]
  have drawn := scroll_draws (Word32.mul (framebufferInit mode).pitch terminalCharHeight)
    (mode.verticalResolution / 16 - 1) (lineFeed (framebufferInit mode) t)
  have pictures := scrolls.pictures font page (lineFeed (framebufferInit mode) t) sized.columns full
    sized.pixels
  generalize memset _ 0 _ (copyLines _ _ (lineFeed (framebufferInit mode) t)) = after
    at drawn pictures ⊢
  have before : (lineFeed (framebufferInit mode) t).y = 16 * textRowCount mode := down
  refine ⟨newline_columns sized.columns, drawn.x, ?_, ?_, pictures⟩
  · show Word32.sub after.y terminalCharHeight =
      16 * min (page.above ++ [page.current]).length (textRowCount mode - 1)
    rw [drawn.y, before, sub_charHeight (by omega) (by omega), List.length_append,
      List.length_singleton]
    omega
  · show after.rows = 0 ∧ after.lines = 0 ∨ _
    rw [drawn.rows, drawn.lines]
    exact sized.sizes

theorem utf8Decode_ascii {c : ℕ → UInt8} (ascii : c 0 ≤ 0x7E) : utf8Decode c = (1, (c 0).toNat) := by
  have high : ∀ n < 128, UInt8.ofNat n &&& 0x80 = 0 := by decide
  have clear : c 0 &&& 0x80 = 0 := by
    have here := high (c 0).toNat (Nat.lt_of_le_of_lt (UInt8.le_iff_toNat_le.mp ascii) (by decide))
    rwa [UInt8.ofNat_toNat] at here
  unfold utf8Decode
  exact if_pos clear

theorem glyphIndex_ascii {c : UInt8} :
    glyphIndex font c.toNat = some (16 * (font.fontIndex c.toNat).toNat) := by
  have byte := c.toNat_lt
  unfold glyphIndex
  dsimp only
  rw [if_neg (show ¬ 64256 ≤ c.toNat by omega), if_pos (Nat.lt_trans byte (by decide)),
    Nat.shiftLeft_eq, Nat.mul_comm]

theorem framebufferDrawChar_ascii (fb : Framebuffer) {c : ℕ → UInt8} (ascii : c 0 ≤ 0x7E) (x y : ℕ)
    (t : Terminal) :
    framebufferDrawChar fb font c x y t =
      (some 1, drawRows fb (fun row => font.font (16 * (font.fontIndex (c 0).toNat).toNat + row))
        (lfbOffset fb x y) 16 (uartPutc (c 0) t)) := by
  have decoded := utf8Decode_ascii ascii
  have drawn := framebufferDrawChar_eq fb font c
    (by rw [decoded]; exact glyphIndex_ascii) x y t
  rw [decoded] at drawn
  exact drawn

theorem framebufferDrawChar_returns (fb : Framebuffer) (font : Font) {c : ℕ → UInt8}
    (ascii : c 0 ≤ 0x7E) (x y : ℕ) (t : Terminal) :
    framebufferDrawChar fb font c x y t = (some 1, (framebufferDrawChar fb font c x y t).2) := by
  rw [framebufferDrawChar_ascii fb ascii]

/-- The address of a cell does not overflow. -/
theorem TextMode.lfbOffset_eq (text : TextMode mode) {x y : ℕ} (x_lt : x < mode.horizontalResolution)
    (y_lt : y + 16 < mode.verticalResolution) :
    lfbOffset (framebufferInit mode) x y = y * (framebufferInit mode).pitch + 4 * x := by
  have pitch_lt := framebufferInit_pitch_lt mode
  have height_lt := text.height_lt
  have scan := text.scan
  have rows : (y + 1) * (framebufferInit mode).pitch ≤ 2 ^ 32 * (2 ^ 32 - 1) :=
    Nat.mul_le_mul (by omega) (by omega)
  have next : (y + 1) * (framebufferInit mode).pitch =
      y * (framebufferInit mode).pitch + (framebufferInit mode).pitch := Nat.succ_mul y _
  have offset : lfbOffset (framebufferInit mode) x y =
      (x * 4 + y * (framebufferInit mode).pitch) % 2 ^ 64 := rfl
  rw [offset, Nat.mod_eq_of_lt (by omega)]
  omega

/-- The pixels of the cell are those of the glyph, the others stay. -/
theorem framebufferDrawChar_pixel (text : TextMode mode) {c : ℕ → UInt8} (ascii : c 0 ≤ 0x7E)
    {x y : ℕ} (x_lt : x < mode.horizontalResolution) (room : x + 8 ≤ (framebufferInit mode).pitch / 4)
    (y_lt : y + 16 < mode.verticalResolution) {h v : ℕ}
    (bound : h < (framebufferInit mode).pitch / 4) :
    pixelAt (framebufferInit mode).pitch
      (framebufferDrawChar (framebufferInit mode) font c x y t).2.lfb h v =
      if (y ≤ v ∧ v < y + 16) ∧ x ≤ h ∧ h < x + 8 then glyphPixel font (c 0) (v - y) (h - x)
      else pixelAt (framebufferInit mode).pitch t.lfb h v := by
  rw [framebufferDrawChar_ascii _ ascii, text.lfbOffset_eq x_lt y_lt]
  have pixels := @drawRows_pixel ((framebufferInit mode).pitch / 4) mode (by omega)
    (fun row => font.font (16 * (font.fontIndex (c 0).toNat).toNat + row)) (uartPutc (c 0) t) x y h v
    bound room 16
  refine pixels.trans ?_
  split
  · rename_i inside
    rw [pixelColor_toNat _ (by omega)]
    rfl
  · rfl

/-- A character in a row with room is drawn at the cursor. -/
theorem Shown.draw (shown : Shown mode font seen page t) (text : TextMode mode)
    (room : page.current.length < mode.horizontalResolution / 8) {c : ℕ → UInt8}
    (ascii : c 0 ≤ 0x7E) :
    Shown mode font seen ⟨page.above, page.current ++ [c 0]⟩
      { (framebufferDrawChar (framebufferInit mode) font c t.x t.y t).2 with
        x := Word32.add (framebufferDrawChar (framebufferInit mode) font c t.x t.y t).2.x
          terminalCharWidth } := by
  have cells := text.width_cells
  have scan := text.scan
  have pitch_lt := framebufferInit_pitch_lt mode
  have tall := text.tall
  have rows : textRowCount mode = (mode.verticalResolution - 1) / 16 := rfl
  have y_lt := shown.y_lt text
  have x := shown.x
  have y := shown.y
  have drawn := @framebufferDrawChar_draws mode font (lfbOffset (framebufferInit mode) t.x t.y +
    16 * (framebufferInit mode).pitch + 32) t.x t.y c t (by
      intro row low
      have := Nat.mul_le_mul_right (framebufferInit mode).pitch low.le
      omega)
  have painted := fun h bound v => @framebufferDrawChar_pixel mode font t text c ascii t.x t.y
    (by omega) (by omega) y_lt h v bound
  generalize (framebufferDrawChar (framebufferInit mode) font c t.x t.y t).2 =
    after at drawn painted ⊢
  have right : Word32.add after.x terminalCharWidth = after.x + 8 := add_charWidth (by
    rw [drawn.x]
    omega)
  refine ⟨?_, ?_, ?_, ?_, ?_⟩
  · intro row mem
    rcases List.mem_append.mp mem with earlier | last
    · exact shown.columns row (List.mem_append_left _ earlier)
    · rw [List.mem_singleton.mp last, List.length_append, List.length_singleton]
      exact room
  · show Word32.add after.x terminalCharWidth = 8 * (page.current ++ [c 0]).length
    rw [right, drawn.x, List.length_append, List.length_singleton]
    omega
  · exact drawn.y.trans y
  · show after.rows = 0 ∧ after.lines = 0 ∨ _
    rw [drawn.rows, drawn.lines]
    exact shown.sizes
  · intro i inside r low h bound inSight
    show pixelAt _ after.lfb h (16 * i + r) = _
    rw [painted h bound, TextPage.cell_append (by omega)]
    by_cases here : i = min page.above.length (textRowCount mode - 1) ∧ h / 8 = page.current.length
    · rw [if_pos here, if_pos (by omega), show 16 * i + r - t.y = r by omega,
        show h - t.x = h % 8 by omega]
      rfl
    · rw [if_neg here, if_neg (by omega)]
      exact shown.pixels i inside r low h bound inSight

theorem Shown.uartPutc (shown : Shown mode font seen page t) (c : UInt8) :
    Shown mode font seen page (uartPutc c t) :=
  ⟨shown.columns, shown.x, shown.y, shown.sizes, shown.pixels⟩

/-- The next line, with a scroll only where the sizes fit. -/
theorem Shown.lineFeed (shown : Shown mode font seen page t) (text : TextMode mode)
    (room : Scrolls mode seen ∨ page.newline.rows.length ≤ textRowCount mode) :
    Shown mode font seen page.newline
      (terminalScroll (framebufferInit mode) (Vineyard.lineFeed (framebufferInit mode) t)) := by
  rw [TextPage.rows_newline, List.length_append, List.length_singleton] at room
  by_cases less : page.rows.length < textRowCount mode
  · exact shown.lineFeed_of_lt text less
  · exact shown.lineFeed_of_le text (room.resolve_right (by omega)) (by omega)

/-- One call shows one more character of the text. -/
theorem Shown.putc (shown : Shown mode font seen page t) (text : TextMode mode) {c : ℕ → UInt8}
    (printable : Printable (c 0))
    (room : Scrolls mode seen ∨
      (page.put (mode.horizontalResolution / 8) (c 0)).rows.length ≤ textRowCount mode) :
    Shown mode font seen (page.put (mode.horizontalResolution / 8) (c 0))
      (terminalPutc (framebufferInit mode) font c t).2 := by
  unfold TextPage.put at room ⊢
  unfold terminalPutc
  rw [if_neg (show ¬ (!(framebufferInit mode).ready) = true from Bool.false_ne_true)]
  by_cases feed : c 0 = 0x0A
  · rw [if_pos feed] at room ⊢
    rw [if_pos feed]
    refine Shown.uartPutc ?_ (c 0)
    rw [newline_refresh text t]
    exact shown.lineFeed text room
  · have ascii : 0x20 ≤ c 0 ∧ c 0 ≤ 0x7E := printable.resolve_left feed
    have low := UInt8.le_iff_toNat_le.mp ascii.1
    have noTab : c 0 ≠ 0x09 := fun same => by
      rw [same] at low
      exact absurd low (by decide)
    have noBackspace : c 0 ≠ 0x08 := fun same => by
      rw [same] at low
      exact absurd low (by decide)
    rw [if_neg feed] at room ⊢
    rw [if_neg feed, if_neg noTab, if_neg noBackspace]
    have current := shown.current_le
    by_cases space : page.current.length < mode.horizontalResolution / 8
    · rw [if_pos space]
      dsimp only
      rw [shown.refresh_of_lt text space, framebufferDrawChar_returns _ font ascii.2]
      exact shown.sized.1.draw text space ascii.2
    · rw [if_neg space] at room ⊢
      dsimp only
      rw [shown.refresh_of_full text (by omega), framebufferDrawChar_returns _ font ascii.2]
      have fed := shown.lineFeed text (by
        rw [TextPage.rows_length] at room ⊢
        exact room)
      have positive := text.width_pos
      have cells := text.width_cells
      exact fed.draw text (show 0 < mode.horizontalResolution / 8 by omega) ascii.2

end Steps

namespace TextPage

/-- The number of rows only grows. -/
theorem rows_length_put (columns : ℕ) (page : TextPage) (c : UInt8) :
    page.rows.length ≤ (page.put columns c).rows.length := by
  rw [rows_length, rows_length]
  unfold put newline
  split
  · rw [List.length_append]
    omega
  · split
    · exact Nat.le_refl _
    · dsimp only
      rw [List.length_append]
      omega

theorem write_append (columns : ℕ) (text : List UInt8) (c : UInt8) :
    write columns (text ++ [c]) = (write columns text).put columns c := by
  rw [write, List.foldl_append]
  rfl

end TextPage

section Runs

variable {mode : GopModeInfo} {font : Font} {seen : ℕ → ℕ → Prop}

/-- ASCII characters are put without a panic. -/
theorem terminalPutc_ascii (fb : Framebuffer) (font : Font) {c : ℕ → UInt8} (ascii : c 0 ≤ 0x7E)
    (t : Terminal) : ∃ n after, terminalPutc fb font c t = (some n, after) := by
  unfold terminalPutc
  split_ifs
  · exact ⟨0, _, rfl⟩
  · exact ⟨1, _, rfl⟩
  · exact ⟨1, _, rfl⟩
  · dsimp only
    rw [framebufferDrawChar_ascii fb (show (0x20 : UInt8) ≤ 0x7E by decide)]
    exact ⟨1, _, rfl⟩
  · dsimp only
    rw [framebufferDrawChar_ascii fb ascii]
    exact ⟨1, _, rfl⟩

theorem terminalRun_append (fb : Framebuffer) (font : Font) (calls : List (ℕ → UInt8)) (c : ℕ → UInt8)
    (ascii : ∀ b ∈ calls ++ [c], b 0 ≤ 0x7E) : ∀ t,
    terminalRun fb font (calls ++ [c]) t =
      (terminalPutc fb font c (terminalRun fb font calls t)).2 := by
  induction calls with
  | nil =>
    intro t
    obtain ⟨n, after, put⟩ := terminalPutc_ascii fb font (ascii c (by simp)) t
    rw [List.nil_append, terminalRun, terminalRun, put]
    rfl
  | cons b calls ih =>
    intro t
    obtain ⟨n, after, put⟩ := terminalPutc_ascii fb font (ascii b (by simp)) t
    rw [List.cons_append, terminalRun, terminalRun, put]
    exact ih (fun d mem => ascii d (List.mem_cons_of_mem b mem)) _

theorem Printable.ascii {c : UInt8} (printable : Printable c) : c ≤ 0x7E := by
  rcases printable with rfl | inside
  · decide
  · exact inside.2

theorem Shown.start (mode : GopModeInfo) (font : Font) :
    Shown mode font seen .empty (.start fun _ => 0) := by
  refine ⟨?_, rfl, ?_, .inl ⟨rfl, rfl⟩, ?_⟩
  · intro row mem
    rw [List.mem_singleton.mp mem]
    exact Nat.zero_le _
  · show 0 = 16 * min 0 _
    rw [Nat.zero_min]
  · intro i _ r _ h _ _
    have blank : TextPage.empty.cell (textRowCount mode) i (h / 8) = none := by
      rw [TextPage.cell_eq]
      generalize TextPage.empty.rows.length - textRowCount mode + i = index
      cases index <;> rfl
    have zero : pixelAt (framebufferInit mode).pitch (fun _ => 0) h (16 * i + r) = 0 :=
      load_zero fun _ _ => rfl
    rw [blank]
    exact zero

/-- A run shows its text, where the sizes fit or the text has not outgrown the screen. -/
theorem terminalRun_shown (text : TextMode mode) (calls : List (ℕ → UInt8))
    (printable : ∀ c ∈ calls, Printable (c 0))
    (room : Scrolls mode seen ∨ (TextPage.write (mode.horizontalResolution / 8)
      (calls.map fun c => c 0)).rows.length ≤ textRowCount mode) :
    Shown mode font seen (.write (mode.horizontalResolution / 8) (calls.map fun c => c 0))
      (terminalRun (framebufferInit mode) font calls (.start fun _ => 0)) := by
  induction calls using List.reverseRecOn with
  | nil => exact Shown.start mode font
  | append_singleton calls c ih =>
    rw [List.map_append, List.map_singleton, TextPage.write_append] at room ⊢
    rw [terminalRun_append _ _ _ _ fun b mem => (printable b mem).ascii]
    refine Shown.putc (ih (fun b mem => printable b (List.mem_append_left _ mem)) ?_) text
      (printable c (List.mem_append_right _ (List.mem_singleton_self c))) room
    exact room.imp id fun fits => Nat.le_trans (TextPage.rows_length_put _ _ _) fits

theorem Shown.showsText {page : TextPage} {t : Terminal} (shown : Shown mode font seen page t)
    (text : TextMode mode)
    (visible : ∀ h < mode.horizontalResolution, ∀ v < 16 * textRowCount mode, seen h v) :
    ShowsText mode font page t.lfb := by
  intro i inside r low h bound
  have scan := text.scan
  have rows : textRowCount mode = (mode.verticalResolution - 1) / 16 := rfl
  exact shown.pixels i (by omega) r low h (by omega) (visible h bound _ (by omega))

/-- Where the scroll does its work every text is shown. -/
theorem refinesGrid_of_scrolls (text : TextMode mode) (scrolls : Scrolls mode seen)
    (visible : ∀ h < mode.horizontalResolution, ∀ v < 16 * textRowCount mode, seen h v) :
    RefinesGrid mode := by
  intro font calls printable
  exact (terminalRun_shown text calls printable (.inl scrolls)).showsText text visible

/-- Where the sizes fit, it does so for all pixels. -/
theorem scrolls_of_fits (text : TextMode mode) (fits : LineFits mode) :
    Scrolls mode fun _ _ => True := by
  refine ⟨fits.2, fun font page t _ full before => ?_⟩
  have tall := text.tall
  have line_fits := fits.1
  have rows : textRowCount mode = (mode.verticalResolution - 1) / 16 := rfl
  have line : Word32.mul (framebufferInit mode).pitch terminalCharHeight =
      16 * (framebufferInit mode).pitch := by
    rw [Nat.mul_comm 16]
    exact Word32.mul_eq (by
      show (framebufferInit mode).pitch * 16 < 2 ^ 32
      omega)
  rw [line]
  intro i inside r low h bound _
  rw [TextPage.cell_newline_of_le full, scroll_pixel (by omega) bound low (by omega)]
  split
  · exact before (i + 1) (by omega) r low h bound trivial
  · rw [TextPage.cell_eq_none (by omega)]
    rfl

end Runs

end Vineyard

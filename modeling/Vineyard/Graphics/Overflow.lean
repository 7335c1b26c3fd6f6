import Vineyard.Graphics.Grid

/-!
# Where the terminal loses the text

When a line of text is 4 GiB or more, `bytes_per_line` is too small and the scroll moves and clears
too little; when the screen reaches up to the last 15 lines below 2 ^ 32, the test for the scroll
overflows.  In both cases a text in a solid font is not shown, unless the screen has exactly 32 lines
and the short scroll happens to take its one row from the padding between the scan lines.
-/

namespace Vineyard

open Bytes Terminal

/-- Every pixel of every character is set. -/
def solidFont : Font := ⟨fun _ => 0, fun _ => 0xFF⟩

theorem glyphPixel_solid (c : UInt8) (r k : ℕ) : glyphPixel solidFont c r k = 0xFFFFFFFF := by
  have bits : ∀ n < 8, Nat.testBit 255 n = true := by decide
  unfold glyphPixel
  exact if_pos (bits (7 - k) (by omega))

namespace TextPage

theorem rows_write_newlines (columns : ℕ) (text : List UInt8) (n : ℕ) :
    (write columns (text ++ List.replicate n 0x0A)).rows =
      (write columns text).rows ++ List.replicate n [] := by
  induction n with
  | zero => rw [List.replicate_zero, List.append_nil, List.replicate_zero, List.append_nil]
  | succ n ih =>
    rw [List.replicate_succ', ← List.append_assoc, write_append, List.replicate_succ',
      ← List.append_assoc, ← ih]
    rfl

end TextPage

/-- The size of a line of text in bytes, as 32 bits hold it. -/
def lineBytes (mode : GopModeInfo) : ℕ := 16 * (framebufferInit mode).pitch % 2 ^ 32

section Newline

variable {mode : GopModeInfo} {font : Font} {seen : ℕ → ℕ → Prop} {page : TextPage} {t : Terminal}

theorem putc_newline_lfb (text : TextMode mode) (font : Font) (t : Terminal) :
    (terminalPutc (framebufferInit mode) font (fun _ => 0x0A) t).2.lfb =
      (terminalScroll (framebufferInit mode) (lineFeed (framebufferInit mode) t)).lfb := by
  have exit : (terminalPutc (framebufferInit mode) font (fun _ => 0x0A) t).2.lfb =
      (terminalRefresh (framebufferInit mode)
        { t with x := 0, y := Word32.add t.y terminalCharHeight }).lfb := rfl
  rw [exit, newline_refresh text t]

theorem terminalScroll_lfb {fb : Framebuffer}
    (scrolls : fb.height ≤ Word32.add t.y terminalCharHeight) :
    (terminalScroll fb t).lfb =
      (memset (Word32.sub t.lines 1 * Word32.mul fb.pitch terminalCharHeight) 0
      (Word32.mul fb.pitch terminalCharHeight)
      (copyLines (Word32.mul fb.pitch terminalCharHeight) (Word32.sub t.lines 1) t)).lfb := by
  unfold terminalScroll
  dsimp only
  rw [if_pos scrolls]

/-- On a full screen the line feed goes to the line below the last row. -/
theorem Shown.lineFeed_y (shown : Shown mode font seen page t) (text : TextMode mode)
    (full : page.rows.length = textRowCount mode) :
    (Vineyard.lineFeed (framebufferInit mode) t).y = 16 * textRowCount mode := by
  have y := shown.sized.1.y
  have y_lt := shown.sized.1.y_lt text
  have height_lt := text.height_lt
  have count := page.rows_length
  show Word32.add (terminalSizes (framebufferInit mode) t).y terminalCharHeight = _
  rw [add_charHeight (by omega)]
  omega

theorem Shown.lineFeed_lines (shown : Shown mode font seen page t) (text : TextMode mode) :
    Word32.sub (Vineyard.lineFeed (framebufferInit mode) t).lines 1 =
      mode.verticalResolution / 16 - 1 := by
  have tall := text.tall
  have height_lt := text.height_lt
  have lines : (Vineyard.lineFeed (framebufferInit mode) t).lines = mode.verticalResolution / 16 :=
    shown.sized.2
  rw [lines]
  exact Word32.sub_eq (by omega) (by omega)

theorem lineFeed_lfb (fb : Framebuffer) (t : Terminal) : (lineFeed fb t).lfb = t.lfb := by
  unfold lineFeed terminalSizes
  dsimp only
  split <;> rfl

theorem lineSize_eq (mode : GopModeInfo) :
    Word32.mul (framebufferInit mode).pitch terminalCharHeight =
    lineBytes mode := by
  unfold lineBytes
  rw [Nat.mul_comm 16]
  rfl

theorem pitch_words (mode : GopModeInfo) : (framebufferInit mode).pitch % 4 = 0 := by
  show mode.pixelsPerScanLine * 4 % 2 ^ 32 % 4 = 0
  omega

/-- A line, and what it has beyond whole scan lines, are made of whole pixels. -/
theorem lineBytes_words (mode : GopModeInfo) :
    lineBytes mode % 4 = 0 ∧ lineBytes mode % (framebufferInit mode).pitch % 4 = 0 := by
  have words := pitch_words mode
  have whole : lineBytes mode % 4 = 0 := by
    unfold lineBytes
    omega
  refine ⟨whole, ?_⟩
  rw [Nat.mod_mod_of_dvd _ (Nat.dvd_of_mod_eq_zero words)]
  exact whole

/-- The size of a line that does not fit is too small by a whole scan line at least. -/
theorem lineBytes_lt (wide : 2 ^ 32 ≤ 16 * (framebufferInit mode).pitch) :
    lineBytes mode < 15 * (framebufferInit mode).pitch := by
  have pitch_lt := framebufferInit_pitch_lt mode
  unfold lineBytes
  omega

end Newline

/-! ## Texts that fill the screen -/

/-- Calls with the characters of a text and then newlines. -/
def newlineCalls (text : List UInt8) (n : ℕ) : List (ℕ → UInt8) :=
  (text ++ List.replicate n 0x0A).map fun c _ => c

theorem newlineCalls_text (text : List UInt8) (n : ℕ) :
    (newlineCalls text n).map (fun c => c 0) = text ++ List.replicate n 0x0A := by
  rw [newlineCalls, List.map_map]
  exact List.map_id _

theorem newlineCalls_printable {text : List UInt8} (printable : ∀ c ∈ text, Printable c) (n : ℕ) :
    ∀ c ∈ newlineCalls text n, Printable (c 0) := by
  intro c mem
  rcases List.mem_map.mp mem with ⟨byte, inText, rfl⟩
  rcases List.mem_append.mp inText with early | late
  · exact printable byte early
  · exact .inl (List.eq_of_mem_replicate late)

theorem newlineCalls_succ (text : List UInt8) (n : ℕ) :
    newlineCalls text (n + 1) = newlineCalls text n ++ [fun _ => 0x0A] := by
  rw [newlineCalls, List.replicate_succ', ← List.append_assoc, List.map_append]
  rfl

section Full

variable {mode : GopModeInfo} {text : List UInt8} {n : ℕ}

/-- The terminal when the text has just filled the screen. -/
theorem newlineCalls_shown (ok : TextMode mode) (printable : ∀ c ∈ text, Printable c)
    (full : (TextPage.write (mode.horizontalResolution / 8)
      (text ++ List.replicate n 0x0A)).rows.length = textRowCount mode) :
    Shown mode solidFont (fun _ _ => True)
      (.write (mode.horizontalResolution / 8) (text ++ List.replicate n 0x0A))
      (terminalRun (framebufferInit mode) solidFont (newlineCalls text n) (.start fun _ => 0)) := by
  have shown := @terminalRun_shown mode solidFont (fun _ _ => True) ok (newlineCalls text n)
    (newlineCalls_printable printable n)
  rw [newlineCalls_text] at shown
  exact shown (.inr full.le)

/-- What one more newline has to show, if every text is shown. -/
theorem RefinesGrid.next_line (refines : RefinesGrid mode) (ok : TextMode mode)
    (printable : ∀ c ∈ text, Printable c)
    (full : (TextPage.write (mode.horizontalResolution / 8)
      (text ++ List.replicate n 0x0A)).rows.length = textRowCount mode) {r h : ℕ} (low : r < 16)
    (bound : h < mode.horizontalResolution) :
    pixelAt (framebufferInit mode).pitch (terminalScroll (framebufferInit mode)
        (lineFeed (framebufferInit mode) (terminalRun (framebufferInit mode) solidFont
          (newlineCalls text n) (.start fun _ => 0)))).lfb h r =
      cellPixel solidFont ((TextPage.write (mode.horizontalResolution / 8)
        (text ++ List.replicate n 0x0A)).rows[1]?.bind fun row => row[h / 8]?) r (h % 8) := by
  have tall := ok.tall
  have rows : textRowCount mode = (mode.verticalResolution - 1) / 16 := rfl
  have pixels := refines solidFont (newlineCalls text (n + 1))
    (newlineCalls_printable printable (n + 1)) 0 (by omega) r low h bound
  rw [newlineCalls_succ, terminalRun_append _ _ _ _ fun c mem =>
      (newlineCalls_printable printable (n + 1) c (newlineCalls_succ text n ▸ mem)).ascii,
    putc_newline_lfb ok, ← newlineCalls_succ,
    newlineCalls_text, List.replicate_succ', ← List.append_assoc, TextPage.write_append] at pixels
  have fed : ∀ page : TextPage, page.put (mode.horizontalResolution / 8) 0x0A = page.newline :=
    fun _ => rfl
  rw [fed, TextPage.cell_newline_of_le full.ge, TextPage.cell_eq, full, Nat.sub_self,
    Nat.mul_zero, Nat.zero_add] at pixels
  exact pixels

end Full

/-! ## The texts that are lost -/

section Lost

variable {mode : GopModeInfo}

theorem printable_letter : Printable 0x41 := .inr ⟨by decide, by decide⟩

/-- A character in the first row. -/
theorem rows_letter (ok : TextMode mode) (n : ℕ) :
    (TextPage.write (mode.horizontalResolution / 8) ([0x41] ++ List.replicate n 0x0A)).rows =
      [0x41] :: List.replicate n [] := by
  have positive := ok.width_pos
  have cells := ok.width_cells
  have first : TextPage.write (mode.horizontalResolution / 8) [0x41] = ⟨[], [0x41]⟩ := by
    show (TextPage.empty.put (mode.horizontalResolution / 8) 0x41) = _
    unfold TextPage.put
    exact (if_neg (by decide)).trans (if_pos (show 0 < mode.horizontalResolution / 8 by omega))
  rw [TextPage.rows_write_newlines, first]
  rfl

/-- A character in the second row. -/
theorem rows_newline_letter (ok : TextMode mode) (n : ℕ) :
    (TextPage.write (mode.horizontalResolution / 8) ([0x0A, 0x41] ++ List.replicate n 0x0A)).rows =
      [] :: [0x41] :: List.replicate n [] := by
  have positive := ok.width_pos
  have cells := ok.width_cells
  have first : TextPage.write (mode.horizontalResolution / 8) [0x0A, 0x41] = ⟨[[]], [0x41]⟩ := by
    show (TextPage.empty.newline.put (mode.horizontalResolution / 8) 0x41) = _
    unfold TextPage.put
    exact (if_neg (by decide)).trans (if_pos (show 0 < mode.horizontalResolution / 8 by omega))
  rw [TextPage.rows_write_newlines, first]
  rfl

/-- A first row whose last scan line outlives the line feed is not a blank row. -/
theorem not_refinesGrid_of_stays (ok : TextMode mode)
    (stays : ∀ t page, Shown mode solidFont (fun _ _ => True) page t →
      page.rows.length = textRowCount mode →
      pixelAt (framebufferInit mode).pitch
        (terminalScroll (framebufferInit mode) (lineFeed (framebufferInit mode) t)).lfb 0 15 =
      pixelAt (framebufferInit mode).pitch t.lfb 0 15) : ¬ RefinesGrid mode := by
  intro refines
  have tall := ok.tall
  have scan := ok.scan
  have positive := ok.width_pos
  have rows : textRowCount mode = (mode.verticalResolution - 1) / 16 := rfl
  have lines := rows_letter ok (textRowCount mode - 1)
  have full : (TextPage.write (mode.horizontalResolution / 8)
      ([0x41] ++ List.replicate (textRowCount mode - 1) 0x0A)).rows.length = textRowCount mode := by
    rw [lines, List.length_cons, List.length_replicate]
    omega
  have printable : ∀ c ∈ [(0x41 : UInt8)], Printable c := by
    intro c mem
    rw [List.mem_singleton.mp mem]
    exact printable_letter
  have shown := newlineCalls_shown ok printable full
  have before := shown.pixels 0 (by omega) 15 (by decide) 0 (by omega) trivial
  have after := refines.next_line ok printable full (by decide : 15 < 16) positive
  rw [stays _ _ shown full] at after
  rw [TextPage.cell_eq, full, Nat.sub_self, lines] at before
  rw [lines] at after
  have blank : ((([0x41] : List UInt8) :: List.replicate (textRowCount mode - 1) [])[1]?.bind
      fun row => row[0]?) = none := by
    rw [List.getElem?_cons_succ, List.getElem?_replicate]
    split <;> rfl
  rw [blank] at after
  have white := glyphPixel_solid 0x41 15 0
  have clash := before.symm.trans after
  exact absurd (white.symm.trans clash) (by decide)

/-- On a screen of nearly 2 ^ 32 lines the cursor below it is taken for the first row. -/
theorem not_refinesGrid_of_tall (ok : TextMode mode) (high : 2 ^ 32 - 16 < mode.verticalResolution) :
    ¬ RefinesGrid mode := by
  refine not_refinesGrid_of_stays ok fun t page shown full => ?_
  have height_lt := ok.height_lt
  have rows : textRowCount mode = (mode.verticalResolution - 1) / 16 := rfl
  have y := shown.lineFeed_y ok full
  have stays : terminalScroll (framebufferInit mode) (lineFeed (framebufferInit mode) t) =
      lineFeed (framebufferInit mode) t := by
    unfold terminalScroll
    refine if_neg ?_
    show ¬ mode.verticalResolution ≤ ((lineFeed (framebufferInit mode) t).y + 16) % 2 ^ 32
    omega
  rw [stays, lineFeed_lfb]

/-- With one row of text on the screen the clearing stops before the last scan line. -/
theorem not_refinesGrid_of_wide_single (ok : TextMode mode)
    (wide : 2 ^ 32 ≤ 16 * (framebufferInit mode).pitch) (low : mode.verticalResolution < 32) :
    ¬ RefinesGrid mode := by
  refine not_refinesGrid_of_stays ok fun t page shown full => ?_
  have tall := ok.tall
  have rows : textRowCount mode = (mode.verticalResolution - 1) / 16 := rfl
  have y := shown.lineFeed_y ok full
  have lines := shown.lineFeed_lines ok
  have short := lineBytes_lt wide
  rw [terminalScroll_lfb (by
    rw [y, add_charHeight (by omega)]
    show mode.verticalResolution ≤ _
    omega)]
  rw [lines, show mode.verticalResolution / 16 - 1 = 0 by omega, lineSize_eq]
  unfold pixelAt
  refine load_congr fun k bound => ?_
  rw [scroll_byte, if_neg (by omega), if_neg (by omega), lineFeed_lfb]

/-- With more rows the new first pixel comes from a scan line of the old first row. -/
theorem scroll_first_pixel (wide : 2 ^ 32 ≤ 16 * (framebufferInit mode).pitch)
    (high : 32 < mode.verticalResolution) {t : Terminal}
    (blank : ∀ r < 16, ∀ h < (framebufferInit mode).pitch / 4,
      pixelAt (framebufferInit mode).pitch t.lfb h r = 0) :
    pixelAt (framebufferInit mode).pitch (memset
      ((mode.verticalResolution / 16 - 1) * lineBytes mode) 0 (lineBytes mode)
      (copyLines (lineBytes mode) (mode.verticalResolution / 16 - 1) t)).lfb 0 0 = 0 := by
  have words := pitch_words mode
  have whole := lineBytes_words mode
  have short := lineBytes_lt wide
  generalize (framebufferInit mode).pitch = pitch at *
  generalize lineBytes mode = bytesPerLine at *
  by_cases none : bytesPerLine = 0
  · -- nothing is moved or cleared
    refine Eq.trans ?_ (blank 0 (by decide) 0 (by omega))
    refine load_congr fun k bound => ?_
    rw [scroll_byte, none, Nat.mul_zero, if_neg (by omega), if_neg (by omega)]
  · have inside : bytesPerLine % pitch < pitch := Nat.mod_lt _ (by omega)
    have place := Nat.div_add_mod' bytesPerLine pitch
    have line : bytesPerLine / pitch < 15 := Nat.div_lt_of_lt_mul (by omega)
    have old := blank (bytesPerLine / pitch) (by omega) (bytesPerLine % pitch / 4) (by omega)
    refine Eq.trans ?_ old
    refine load_move fun k bound => ?_
    have first : 1 * bytesPerLine ≤ (mode.verticalResolution / 16 - 1) * bytesPerLine :=
      Nat.mul_le_mul_right _ (by omega)
    rw [scroll_byte, if_pos (by omega)]
    congr 1
    omega

/-- It is not that of the line below it. -/
theorem not_refinesGrid_of_wide (ok : TextMode mode)
    (wide : 2 ^ 32 ≤ 16 * (framebufferInit mode).pitch) (high : 32 < mode.verticalResolution)
    (height_le : mode.verticalResolution ≤ 2 ^ 32 - 16) : ¬ RefinesGrid mode := by
  intro refines
  have rows : textRowCount mode = (mode.verticalResolution - 1) / 16 := rfl
  have lines := rows_newline_letter ok (textRowCount mode - 2)
  have full : (TextPage.write (mode.horizontalResolution / 8)
      ([0x0A, 0x41] ++ List.replicate (textRowCount mode - 2) 0x0A)).rows.length =
      textRowCount mode := by
    rw [lines, List.length_cons, List.length_cons, List.length_replicate]
    omega
  have printable : ∀ c ∈ [(0x0A : UInt8), 0x41], Printable c := by
    intro c mem
    rcases List.mem_cons.mp mem with rfl | mem
    · exact .inl rfl
    · rw [List.mem_singleton.mp mem]
      exact printable_letter
  have shown := newlineCalls_shown ok printable full
  have after := refines.next_line ok printable full (by decide : 0 < 16) ok.width_pos
  generalize terminalRun _ _ _ _ = t at shown after
  -- the first text row is blank up to its last scan line
  have blank : ∀ r < 16, ∀ h < (framebufferInit mode).pitch / 4,
      pixelAt (framebufferInit mode).pitch (lineFeed (framebufferInit mode) t).lfb h r = 0 := by
    intro r low h bound
    have pixels := shown.pixels 0 (by omega) r low h bound trivial
    rw [TextPage.cell_eq, full, Nat.sub_self, lines, Nat.mul_zero, Nat.zero_add] at pixels
    rw [lineFeed_lfb]
    exact pixels
  rw [terminalScroll_lfb (by
    rw [shown.lineFeed_y ok full, add_charHeight (by omega)]
    show mode.verticalResolution ≤ _
    omega), shown.lineFeed_lines ok, lines, lineSize_eq, scroll_first_pixel wide high blank] at after
  have white := glyphPixel_solid 0x41 0 0
  exact absurd (after.trans white) (by decide)

end Lost

/-! ## One row of text that is scrolled as two -/

/-- On a screen of 32 lines a scroll that is too short takes every pixel of the one row from the
padding between the scan lines, or clears it. -/
structure Padded (mode : GopModeInfo) : Prop where
  height : mode.verticalResolution = 32
  cleared : 15 * (framebufferInit mode).pitch + 4 * mode.horizontalResolution ≤ 2 * lineBytes mode
  right : 4 * mode.horizontalResolution ≤ lineBytes mode % (framebufferInit mode).pitch
  left : lineBytes mode % (framebufferInit mode).pitch + 4 * mode.horizontalResolution ≤
    (framebufferInit mode).pitch

section Single

variable {mode : GopModeInfo}

theorem TextPage.cell_eq_none_of_columns {page : TextPage} {j : ℕ} (columns : InColumns mode page)
    (outside : mode.horizontalResolution / 8 ≤ j) (count i : ℕ) : page.cell count i j = none := by
  rw [TextPage.cell_eq]
  cases found : page.rows[page.rows.length - count + i]? with
  | none => rfl
  | some row =>
    have short := columns row (List.mem_of_getElem? found)
    exact List.getElem?_eq_none (Nat.le_trans short outside)

/-- What is seen right of the screen or below the text is blank. -/
theorem Pictures.blank {font : Font} {seen : ℕ → ℕ → Prop} {page : TextPage} {lfb : Memory}
    (pictures : Pictures mode font seen page lfb) (cells : mode.horizontalResolution % 8 = 0)
    (columns : InColumns mode page) {h v : ℕ}
    (bound : h < (framebufferInit mode).pitch / 4) (inside : v < 16 * (mode.verticalResolution / 16))
    (inSight : seen h v) (outside : mode.horizontalResolution ≤ h ∨ 16 * textRowCount mode ≤ v) :
    pixelAt (framebufferInit mode).pitch lfb h v = 0 := by
  have place : 16 * (v / 16) + v % 16 = v := Nat.div_add_mod v 16
  have pixel := pictures (v / 16) (by omega) (v % 16) (Nat.mod_lt v (by decide)) h bound
    (by rwa [place])
  have none : page.cell (textRowCount mode) (v / 16) (h / 8) = none := by
    rcases outside with right | below
    · exact TextPage.cell_eq_none_of_columns columns (by omega) _ _
    · exact TextPage.cell_eq_none (by omega) _
  rw [place, none] at pixel
  exact pixel

theorem Padded.scrolls (ok : TextMode mode) (padded : Padded mode)
    (wide : 2 ^ 32 ≤ 16 * (framebufferInit mode).pitch) :
    Scrolls mode fun h v => h < mode.horizontalResolution ∧ v < 16 ∨
      lineBytes mode ≤ v * (framebufferInit mode).pitch + 4 * h := by
  rcases padded with ⟨height, cleared, right, left⟩
  refine ⟨by rw [height]; decide, fun font page t columns full before => ?_⟩
  intro i inside r low h bound inSight
  have rows : textRowCount mode = (mode.verticalResolution - 1) / 16 := rfl
  have words := pitch_words mode
  have short := lineBytes_lt wide
  have blank := fun h v => @Pictures.blank mode font _ page t.lfb before ok.width_cells columns h v
  rw [TextPage.cell_newline_of_le full, TextPage.cell_eq_none (by omega),
    show mode.verticalResolution / 16 - 1 = 1 by omega]
  show pixelAt _ _ h (16 * i + r) = 0
  have line : 16 * i + r < 32 := by omega
  rw [lineSize_eq]
  have whole := lineBytes_words mode
  generalize lineBytes mode = bytesPerLine at *
  generalize (framebufferInit mode).pitch = pitch at *
  generalize 16 * i + r = v at *
  have address : v * pitch % 4 = 0 := by
    rw [Nat.mul_mod, words, Nat.mul_zero, Nat.zero_mod]
  by_cases moved : v * pitch + 4 * h < bytesPerLine
  · -- a pixel of the row comes from the padding
    have visible := inSight.resolve_right (by omega)
    have place := Nat.div_add_mod' bytesPerLine pitch
    have above : bytesPerLine / pitch < 15 := Nat.div_lt_of_lt_mul (by omega)
    have sum : (v + bytesPerLine / pitch) * pitch = v * pitch + bytesPerLine / pitch * pitch :=
      Nat.add_mul _ _ _
    have old := blank (h + bytesPerLine % pitch / 4) (v + bytesPerLine / pitch) (by omega) (by omega)
      (.inr (by omega)) (.inl (by omega))
    refine Eq.trans (load_move fun k less => ?_) old
    rw [scroll_byte, if_pos (by omega)]
    congr 1
    omega
  · by_cases zeroed : v * pitch + 4 * h < 2 * bytesPerLine
    · refine load_zero fun k less => ?_
      rw [scroll_byte, if_neg (by omega), if_pos (by omega)]
    · -- the rest was blank before
      have below : v < 16 → v * pitch ≤ 15 * pitch := fun low => Nat.mul_le_mul_right pitch (by omega)
      have old := blank h v bound (by omega) (.inr (by omega)) (by omega)
      refine Eq.trans (load_congr fun k less => ?_) old
      rw [scroll_byte, if_neg (by omega), if_neg (by omega)]

/-- A row of letters. -/
theorem write_letters (columns : ℕ) {n : ℕ} (room : n ≤ columns) :
    TextPage.write columns (List.replicate n 0x41) = ⟨[], List.replicate n 0x41⟩ := by
  induction n with
  | zero => rfl
  | succ n ih =>
    rw [List.replicate_succ', TextPage.write_append, ih (by omega)]
    unfold TextPage.put
    rw [if_neg (by decide), if_pos (by
      rw [List.length_replicate]
      exact room)]

/-- A pixel of the one row that outlives the scroll. -/
theorem not_refinesGrid_of_survives (ok : TextMode mode) (height : mode.verticalResolution = 32)
    {h v h' v' : ℕ} (bound : h < mode.horizontalResolution) (low : v < 16)
    (bound' : h' < mode.horizontalResolution) (low' : v' < 16)
    (survives : ∀ t : Terminal, pixelAt (framebufferInit mode).pitch
      (memset (1 * Word32.mul (framebufferInit mode).pitch terminalCharHeight) 0
        (Word32.mul (framebufferInit mode).pitch terminalCharHeight)
        (copyLines (Word32.mul (framebufferInit mode).pitch terminalCharHeight) 1 t)).lfb h v =
      pixelAt (framebufferInit mode).pitch t.lfb h' v') : ¬ RefinesGrid mode := by
  intro refines
  have scan := ok.scan
  have cells := ok.width_cells
  have rows : textRowCount mode = (mode.verticalResolution - 1) / 16 := rfl
  have lines : (TextPage.write (mode.horizontalResolution / 8)
      (List.replicate (mode.horizontalResolution / 8) 0x41 ++ List.replicate 0 0x0A)).rows =
      [List.replicate (mode.horizontalResolution / 8) 0x41] := by
    rw [List.replicate_zero, List.append_nil, write_letters _ (Nat.le_refl _)]
    rfl
  have full : (TextPage.write (mode.horizontalResolution / 8)
      (List.replicate (mode.horizontalResolution / 8) 0x41 ++ List.replicate 0 0x0A)).rows.length =
      textRowCount mode := by
    rw [lines, List.length_singleton]
    omega
  have printable : ∀ c ∈ List.replicate (mode.horizontalResolution / 8) (0x41 : UInt8),
    Printable c := by
    intro c mem
    rw [List.eq_of_mem_replicate mem]
    exact printable_letter
  have shown := newlineCalls_shown ok printable full
  have before := shown.pixels 0 (by omega) v' low' h' (by omega) trivial
  have after := refines.next_line ok printable full low bound
  rw [terminalScroll_lfb (by
    rw [shown.lineFeed_y ok full, add_charHeight (by omega)]
    show mode.verticalResolution ≤ _
    omega), shown.lineFeed_lines ok, show mode.verticalResolution / 16 - 1 = 1 by omega, survives,
    lineFeed_lfb] at after
  rw [TextPage.cell_eq, full, Nat.sub_self, lines, Nat.mul_zero, Nat.zero_add] at before
  rw [lines] at after
  have letter : (List.replicate (mode.horizontalResolution / 8) (0x41 : UInt8))[h' / 8]? =
    some 0x41 := by
    rw [List.getElem?_replicate, if_pos (by omega)]
  have white := glyphPixel_solid 0x41 v' (h' % 8)
  have seen : cellPixel solidFont (some 0x41) v' (h' % 8) = 0 := by
    rw [← letter]
    exact before.symm.trans after
  exact absurd (white.symm.trans seen) (by decide)

/-- Otherwise some pixel of the row comes from a pixel of the row. -/
theorem not_refinesGrid_of_unpadded (ok : TextMode mode) (height : mode.verticalResolution = 32)
    (wide : 2 ^ 32 ≤ 16 * (framebufferInit mode).pitch) (unpadded : ¬ Padded mode) :
    ¬ RefinesGrid mode := by
  have positive := ok.width_pos
  have scan := ok.scan
  have words := pitch_words mode
  have short := lineBytes_lt wide
  have whole := lineBytes_words mode
  have place := Nat.div_add_mod' (lineBytes mode) (framebufferInit mode).pitch
  have inLine := Nat.mod_lt (lineBytes mode) (show 0 < (framebufferInit mode).pitch by omega)
  have next : (lineBytes mode / (framebufferInit mode).pitch + 1) * (framebufferInit mode).pitch =
      lineBytes mode / (framebufferInit mode).pitch * (framebufferInit mode).pitch +
        (framebufferInit mode).pitch := Nat.succ_mul _ _
  have above : lineBytes mode / (framebufferInit mode).pitch < 15 := Nat.div_lt_of_lt_mul (by omega)
  by_cases cleared :
      15 * (framebufferInit mode).pitch + 4 * mode.horizontalResolution ≤ 2 * lineBytes mode
  · by_cases right : 4 * mode.horizontalResolution ≤ lineBytes mode % (framebufferInit mode).pitch
    · -- the first pixel of a scan line goes to the end of the first
      have left : ¬ lineBytes mode % (framebufferInit mode).pitch + 4 * mode.horizontalResolution ≤
          (framebufferInit mode).pitch := fun left => unpadded ⟨height, cleared, right, left⟩
      refine @not_refinesGrid_of_survives mode ok height
        (((framebufferInit mode).pitch - lineBytes mode % (framebufferInit mode).pitch) / 4) 0 0
        (lineBytes mode / (framebufferInit mode).pitch + 1)
        (by omega) (by decide) positive (by omega) fun t => ?_
      refine load_move fun k less => ?_
      rw [lineSize_eq, scroll_byte, if_pos (by omega)]
      congr 1
      omega
    · -- a pixel of a scan line goes to the start of the first
      refine @not_refinesGrid_of_survives mode ok height 0 0
        (lineBytes mode % (framebufferInit mode).pitch / 4)
        (lineBytes mode / (framebufferInit mode).pitch)
        positive (by decide) (by omega) (by omega) fun t => ?_
      refine load_move fun k less => ?_
      rw [lineSize_eq, scroll_byte, if_pos (by omega)]
      congr 1
      omega
  · -- the last pixel is neither moved nor cleared
    refine @not_refinesGrid_of_survives mode ok height (mode.horizontalResolution - 1) 15
      (mode.horizontalResolution - 1) 15 (by omega) (by decide) (by omega) (by decide) fun t => ?_
    refine load_congr fun k less => ?_
    rw [lineSize_eq, scroll_byte, if_neg (by omega), if_neg (by omega)]

end Single

/-- The terminal shows every text where the sizes fit in 32 bits, and else only on a screen of 32 lines
with enough padding. -/
theorem refinesGrid_iff (mode : GopModeInfo) (ok : TextMode mode) :
    RefinesGrid mode ↔ LineFits mode ∨ Padded mode := by
  have tall := ok.tall
  have rows : textRowCount mode = (mode.verticalResolution - 1) / 16 := rfl
  by_cases fits : LineFits mode
  · have shows : RefinesGrid mode :=
      refinesGrid_of_scrolls ok (scrolls_of_fits ok fits) fun _ _ _ _ => trivial
    exact iff_of_true shows (.inl fits)
  · rw [or_iff_right fits]
    by_cases high : 2 ^ 32 - 16 < mode.verticalResolution
    · refine iff_of_false (not_refinesGrid_of_tall ok high) fun padded => ?_
      have height := padded.height
      omega
    · have wide : 2 ^ 32 ≤ 16 * (framebufferInit mode).pitch := by
        by_contra narrow
        exact fits ⟨by omega, by omega⟩
      by_cases height : mode.verticalResolution = 32
      · constructor
        · intro refines
          by_contra unpadded
          exact not_refinesGrid_of_unpadded ok height wide unpadded refines
        · intro padded
          refine refinesGrid_of_scrolls ok (padded.scrolls ok wide) fun h bound v low =>
            .inl ⟨bound, ?_⟩
          omega
      · have lost : ¬ RefinesGrid mode := by
          rcases Nat.lt_or_gt_of_ne height with low | more
          · exact not_refinesGrid_of_wide_single ok wide low
          · exact not_refinesGrid_of_wide ok wide more (by omega)
        exact iff_of_false lost fun padded => height padded.height

/-- A mode with a line of 4 GiB. -/
theorem not_refinesGrid_wide :
    TextMode ⟨8, 17, 2 ^ 26⟩ ∧ ¬ RefinesGrid ⟨8, 17, 2 ^ 26⟩ := by
  have ok : TextMode ⟨8, 17, 2 ^ 26⟩ := ⟨by decide, by decide, by decide, by decide, by decide⟩
  exact ⟨ok, not_refinesGrid_of_wide_single ok (by decide) (by decide)⟩

theorem refinesGrid_vga : RefinesGrid ⟨640, 480, 640⟩ ∧
    (RefinesGrid ⟨640, 480, 640⟩ ↔ LineFits ⟨640, 480, 640⟩ ∨ Padded ⟨640, 480, 640⟩) := by
  have iff := refinesGrid_iff ⟨640, 480, 640⟩ ⟨by decide, by decide, by decide, by decide, by decide⟩
  exact ⟨iff.mpr (.inl ⟨by decide, by decide⟩), iff⟩

end Vineyard

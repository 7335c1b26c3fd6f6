import Vineyard.Graphics.Terminal

/-!
# Terminal output stays inside the framebuffer

`Inside` holds of the terminal after every sequence of calls: the cursor is at a cell whose
rows are all on the screen, no subtraction from it has gone below zero, and every range written
ends before `height * pitch`.
-/

namespace Vineyard

open Bytes Terminal

/-- From `t` to `t'` only the framebuffer and the UART changed, and only below `bound`. -/
structure Draws (bound : ℕ) (t t' : Terminal) : Prop where
  x : t'.x = t.x
  y : t'.y = t.y
  rows : t'.rows = t.rows
  lines : t'.lines = t.lines
  differences : t'.differences = t.differences
  writes : ∀ w ∈ t'.writes, w ∈ t.writes ∨ w.1 + w.2 ≤ bound

theorem Draws.refl (bound : ℕ) (t : Terminal) : Draws bound t t :=
  ⟨rfl, rfl, rfl, rfl, rfl, fun _ mem => .inl mem⟩

theorem Draws.trans {bound : ℕ} {t t' t'' : Terminal} (first : Draws bound t t')
    (second : Draws bound t' t'') : Draws bound t t'' where
  x := second.x.trans first.x
  y := second.y.trans first.y
  rows := second.rows.trans first.rows
  lines := second.lines.trans first.lines
  differences := second.differences.trans first.differences
  writes := by
    intro w mem
    rcases second.writes w mem with before | inside
    · exact first.writes w before
    · exact .inr inside

/-- One more range that lies below the bound. -/
theorem writes_append {bound a n : ℕ} (writes : List (ℕ × ℕ)) (inside : a + n ≤ bound) :
    ∀ w ∈ writes ++ [(a, n)], w ∈ writes ∨ w.1 + w.2 ≤ bound := by
  intro w mem
  rcases List.mem_append.mp mem with before | last
  · exact .inl before
  · rw [List.mem_singleton.mp last]
    exact .inr inside

theorem store32_draws {bound addr : ℕ} (value : UInt32) (t : Terminal) (inside : addr + 4 ≤ bound) :
    Draws bound t (store32 addr value t) := ⟨rfl, rfl, rfl, rfl, rfl, writes_append t.writes inside⟩

theorem memcpy_draws {bound dst n : ℕ} (src : ℕ) (t : Terminal) (inside : dst + n ≤ bound) :
    Draws bound t (memcpy dst src n t) := ⟨rfl, rfl, rfl, rfl, rfl, writes_append t.writes inside⟩

theorem memset_draws {bound dst n : ℕ} (c : UInt8) (t : Terminal) (inside : dst + n ≤ bound) :
    Draws bound t (memset dst c n t) := ⟨rfl, rfl, rfl, rfl, rfl, writes_append t.writes inside⟩

theorem uartPutc_draws (bound : ℕ) (c : UInt8) (t : Terminal) : Draws bound t (uartPutc c t) :=
  ⟨rfl, rfl, rfl, rfl, rfl, fun _ mem => .inl mem⟩

/-- A fold of steps that draw. -/
theorem foldl_draws {α : Type} {bound : ℕ} {step : Terminal → α → Terminal} (l : List α)
    (each : ∀ a ∈ l, ∀ t, Draws bound t (step t a)) (t : Terminal) :
    Draws bound t (l.foldl step t) := by
  induction l generalizing t with
  | nil => exact .refl bound t
  | cons a rest ih =>
    rw [List.foldl_cons]
    exact (each a List.mem_cons_self t).trans
      (ih (fun b mem => each b (List.mem_cons_of_mem a mem)) (step t a))

section Mode

variable {mode : GopModeInfo} {font : Font}

theorem drawRow_draws {bound addr : ℕ} (rowData : UInt8) (t : Terminal) (inside : addr + 32 ≤ bound) :
    Draws bound t (drawRow (framebufferInit mode) rowData addr t) := by
  refine foldl_draws _ (fun pixel mem t => store32_draws _ t ?_) t
  have near : ∀ pixel ∈ [(0, 7), (4, 6), (8, 5), (12, 4), (16, 3), (20, 2), (24, 1),
      (28, (0 : UInt8))], pixel.1 ≤ 28 := by decide
  have := near pixel mem
  omega

theorem drawRows_draws {bound addr : ℕ} (charData : ℕ → UInt8) (n : ℕ) (t : Terminal)
    (inside : ∀ row < n, addr + row * (framebufferInit mode).pitch + 32 ≤ bound) :
    Draws bound t (drawRows (framebufferInit mode) charData addr n t) := by
  induction n with
  | zero => exact .refl bound t
  | succ n ih =>
    have before := ih fun row less => inside row (by omega)
    exact before.trans (drawRow_draws _ _ (inside n (by omega)))

/-- The UART gets the bytes of the character and the framebuffer its rows. -/
theorem framebufferDrawChar_eq (fb : Framebuffer) (font : Font) (c : ℕ → UInt8) {index : ℕ}
    (inside : glyphIndex font (utf8Decode c).2 = some index) (x y : ℕ) (t : Terminal) :
    framebufferDrawChar fb font c x y t =
      (some (utf8Decode c).1, drawRows fb (fun row => font.font (index + row)) (lfbOffset fb x y)
        16 ((List.range (utf8Decode c).1).foldl (fun t i => uartPutc (c i) t) t)) := by
  unfold framebufferDrawChar
  dsimp only
  rw [inside]

theorem framebufferDrawChar_panic (fb : Framebuffer) {font : Font} {c : ℕ → UInt8}
    (outside : glyphIndex font (utf8Decode c).2 = none) (x y : ℕ) (t : Terminal) :
    framebufferDrawChar fb font c x y t =
      (none, (List.range (utf8Decode c).1).foldl (fun t i => uartPutc (c i) t) t) := by
  unfold framebufferDrawChar
  dsimp only
  rw [outside]

theorem framebufferDrawChar_draws {bound x y : ℕ} (c : ℕ → UInt8) (t : Terminal)
    (inside : ∀ row < 16, lfbOffset (framebufferInit mode) x y +
      row * (framebufferInit mode).pitch + 32 ≤ bound) :
    Draws bound t (framebufferDrawChar (framebufferInit mode) font c x y t).2 := by
  have echoed := foldl_draws (List.range (utf8Decode c).1)
    (fun i _ t => uartPutc_draws bound (c i) t) t
  cases entry : glyphIndex font (utf8Decode c).2 with
  | none =>
    rw [framebufferDrawChar_panic _ entry]
    exact echoed
  | some index =>
    rw [framebufferDrawChar_eq _ _ _ entry]
    exact echoed.trans (drawRows_draws (fun row => font.font (index + row)) 16 _ inside)

theorem copyLines_draws {bound bytesPerLine : ℕ} (n : ℕ) (t : Terminal)
    (inside : n * bytesPerLine ≤ bound) : Draws bound t (copyLines bytesPerLine n t) := by
  induction n with
  | zero => exact .refl bound t
  | succ n ih =>
    have size : (n + 1) * bytesPerLine = n * bytesPerLine + bytesPerLine := Nat.succ_mul n _
    exact (ih (by omega)).trans (memcpy_draws _ _ (by omega))

end Mode

/-- The modes whose sizes the 32-bit arithmetic of the terminal can hold. -/
structure VideoMode (mode : GopModeInfo) : Prop where
  wide : 8 ≤ mode.horizontalResolution
  tall : 16 < mode.verticalResolution
  width_lt : mode.horizontalResolution < 2 ^ 27
  height_lt : mode.verticalResolution < 2 ^ 27
  scan : mode.horizontalResolution ≤ mode.pixelsPerScanLine
  line_fits : 16 * (4 * mode.pixelsPerScanLine) < 2 ^ 32

/-- The cursor lies on the screen and nothing was written outside the framebuffer. -/
structure Inside (fb : Framebuffer) (t : Terminal) : Prop where
  y_lt : t.y + 16 < fb.height
  x_aligned : t.x % 8 = 0
  x_le : t.x ≤ fb.width + 7
  no_underflow : ∀ d ∈ t.differences, d.2 ≤ d.1
  written : ∀ w ∈ t.writes, w.1 + w.2 ≤ fb.height * fb.pitch

/-- What the loop over the calls keeps. -/
structure TerminalInv (fb : Framebuffer) (t : Terminal) : Prop extends Inside fb t where
  sizes : t.rows = 0 ∧ t.lines = 0 ∨ t.rows = fb.width / 8 ∧ t.lines = fb.height / 16

/-- What holds before `terminal_refresh`: the cursor may be one line too low. -/
structure Refreshable (fb : Framebuffer) (t : Terminal) : Prop where
  cursor : t.y + 16 < fb.height ∨ t.x < fb.width ∧ 16 ≤ t.y ∧ t.y < fb.height
  x_aligned : t.x % 8 = 0
  no_underflow : ∀ d ∈ t.differences, d.2 ≤ d.1
  written : ∀ w ∈ t.writes, w.1 + w.2 ≤ fb.height * fb.pitch
  sizes : t.rows = 0 ∧ t.lines = 0 ∨ t.rows = fb.width / 8 ∧ t.lines = fb.height / 16

section Steps

variable {mode : GopModeInfo} {font : Font}

theorem add_charHeight {y : ℕ} (fits : y + 16 < 2 ^ 32) : Word32.add y terminalCharHeight = y + 16 :=
  Word32.add_eq fits

theorem add_charWidth {x : ℕ} (fits : x + 8 < 2 ^ 32) : Word32.add x terminalCharWidth = x + 8 :=
  Word32.add_eq fits

theorem sub_charHeight {y : ℕ} (enough : 16 ≤ y) (fits : y < 2 ^ 32) :
    Word32.sub y terminalCharHeight = y - 16 := Word32.sub_eq enough fits

theorem sub_charWidth {x : ℕ} (enough : 8 ≤ x) (fits : x < 2 ^ 32) :
    Word32.sub x terminalCharWidth = x - 8 := Word32.sub_eq enough fits

theorem VideoMode.pitch_eq (video : VideoMode mode) :
    (framebufferInit mode).pitch = 4 * mode.pixelsPerScanLine := by
  have fits := video.line_fits
  rw [Nat.mul_comm 4]
  exact Word32.mul_eq (by omega)

/-- A cell whose rows are on the screen lies in the framebuffer, also where its right part hangs
over. -/
theorem VideoMode.cell_inside (video : VideoMode mode) {x y : ℕ}
    (y_lt : y + 16 < mode.verticalResolution) (x_lt : x < mode.horizontalResolution) : ∀ row < 16,
    lfbOffset (framebufferInit mode) x y + row * (framebufferInit mode).pitch + 32 ≤
      mode.verticalResolution * (framebufferInit mode).pitch := by
  intro row row_lt
  have offset : lfbOffset (framebufferInit mode) x y ≤ x * 4 + y * (framebufferInit mode).pitch :=
    Nat.mod_le _ _
  have below : (y + row + 2) * (framebufferInit mode).pitch ≤
      mode.verticalResolution * (framebufferInit mode).pitch := Nat.mul_le_mul_right _ (by omega)
  have rows : (y + row + 2) * (framebufferInit mode).pitch =
      y * (framebufferInit mode).pitch + row * (framebufferInit mode).pitch +
        2 * (framebufferInit mode).pitch := by ring
  have pitch := video.pitch_eq
  have scan := video.scan
  have wide := video.wide
  omega

theorem terminalSizes_inside {t : Terminal}
    (before : Refreshable (framebufferInit mode) t) :
    Refreshable (framebufferInit mode) (terminalSizes (framebufferInit mode) t) ∧
      (terminalSizes (framebufferInit mode) t).lines = mode.verticalResolution / 16 := by
  unfold terminalSizes
  split
  · exact ⟨{ before with sizes := .inr ⟨rfl, rfl⟩ }, rfl⟩
  · rename_i set
    refine ⟨before, ?_⟩
    rcases before.sizes with unset | sizes
    · exact absurd unset set
    · exact sizes.2

/-- After the wrap the cursor is left of the right edge. -/
theorem terminalWrap_inside (video : VideoMode mode) {t : Terminal}
    (before : Refreshable (framebufferInit mode) t) :
    Refreshable (framebufferInit mode) (terminalWrap (framebufferInit mode) t) ∧
      (terminalWrap (framebufferInit mode) t).x < mode.horizontalResolution ∧
      (terminalWrap (framebufferInit mode) t).lines = t.lines := by
  unfold terminalWrap
  split
  · rename_i full
    have room : t.y + 16 < mode.verticalResolution := by
      rcases before.cursor with room | ⟨left, _⟩
      · exact room
      · exact absurd full (by omega)
    have small := video.height_lt
    have next : Word32.add t.y terminalCharHeight = t.y + 16 := add_charHeight (by omega)
    have wide := video.wide
    refine ⟨{ before with cursor := .inr ?_, x_aligned := rfl }, ?_, rfl⟩
    · show 0 < mode.horizontalResolution ∧ 16 ≤ Word32.add t.y terminalCharHeight ∧
        Word32.add t.y terminalCharHeight < mode.verticalResolution
      rw [next]
      exact ⟨by omega, by omega, room⟩
    · show 0 < mode.horizontalResolution
      omega
  · rename_i left
    exact ⟨before, Nat.lt_of_not_le left, rfl⟩

/-- All lines of 16 rows lie in the framebuffer. -/
theorem lines_inside (mode : GopModeInfo) (tall : 16 ≤ mode.verticalResolution) :
    (mode.verticalResolution / 16 - 1) * (16 * (framebufferInit mode).pitch) +
      16 * (framebufferInit mode).pitch ≤ mode.verticalResolution * (framebufferInit mode).pitch := by
  calc (mode.verticalResolution / 16 - 1) * (16 * (framebufferInit mode).pitch) +
        16 * (framebufferInit mode).pitch
      = (mode.verticalResolution / 16 - 1 + 1) * (16 * (framebufferInit mode).pitch) := by ring
    _ = ((mode.verticalResolution / 16 - 1 + 1) * 16) * (framebufferInit mode).pitch := by ring
    _ ≤ mode.verticalResolution * (framebufferInit mode).pitch := Nat.mul_le_mul_right _ (by omega)

theorem VideoMode.bytesPerLine_eq (video : VideoMode mode) :
    Word32.mul (framebufferInit mode).pitch terminalCharHeight =
      16 * (framebufferInit mode).pitch := by
  have fits := video.line_fits
  rw [Nat.mul_comm 16, video.pitch_eq]
  exact Word32.mul_eq (by
    show 4 * mode.pixelsPerScanLine * 16 < 2 ^ 32
    omega)

/-- Scrolling writes to the framebuffer only. -/
theorem VideoMode.scroll_drawn (video : VideoMode mode) {t : Terminal}
    (tall : 16 ≤ mode.verticalResolution) (lines : t.lines = mode.verticalResolution / 16) :
    Draws (mode.verticalResolution * (framebufferInit mode).pitch) t
      (memset (Word32.sub t.lines 1 * Word32.mul (framebufferInit mode).pitch terminalCharHeight) 0
        (Word32.mul (framebufferInit mode).pitch terminalCharHeight)
        (copyLines (Word32.mul (framebufferInit mode).pitch terminalCharHeight)
          (Word32.sub t.lines 1) t)) := by
  have small := video.height_lt
  have count : Word32.sub t.lines 1 = mode.verticalResolution / 16 - 1 := by
    rw [lines]
    exact Word32.sub_eq (by omega) (by omega)
  have whole := lines_inside mode tall
  rw [video.bytesPerLine_eq, count]
  have moved := copyLines_draws (mode.verticalResolution / 16 - 1) t
    (Nat.le_trans (Nat.le_add_right _ _) whole)
  exact moved.trans (memset_draws 0 _ whole)

/-- The cursor goes up by a line after the lines did. -/
theorem Refreshable.scrolled {t after : Terminal} (before : Refreshable (framebufferInit mode) t)
    (left : t.x < mode.horizontalResolution) (enough : 16 ≤ t.y) (low : t.y < mode.verticalResolution)
    (small : mode.verticalResolution < 2 ^ 32)
    (drawn : Draws (mode.verticalResolution * (framebufferInit mode).pitch) t after) :
    TerminalInv (framebufferInit mode) { after with
      y := Word32.sub after.y terminalCharHeight
      differences := after.differences ++ [(after.y, terminalCharHeight)] } ∧
      ({ after with
        y := Word32.sub after.y terminalCharHeight
        differences := after.differences ++ [(after.y, terminalCharHeight)] } : Terminal).x <
        mode.horizontalResolution := by
  have y : Word32.sub after.y terminalCharHeight = t.y - 16 := by
    rw [drawn.y]
    exact sub_charHeight enough (by omega)
  refine ⟨⟨⟨?_, ?_, ?_, ?_, ?_⟩, ?_⟩, ?_⟩
  · show Word32.sub after.y terminalCharHeight + 16 < mode.verticalResolution
    omega
  · show after.x % 8 = 0
    rw [drawn.x]
    exact before.x_aligned
  · show after.x ≤ mode.horizontalResolution + 7
    rw [drawn.x]
    omega
  · intro d mem
    rcases List.mem_append.mp mem with earlier | last
    · rw [drawn.differences] at earlier
      exact before.no_underflow d earlier
    · rw [List.mem_singleton.mp last, drawn.y]
      exact enough
  · intro w mem
    rcases drawn.writes w mem with earlier | inside
    · exact before.written w earlier
    · exact inside
  · show after.rows = 0 ∧ after.lines = 0 ∨ _
    rw [drawn.rows, drawn.lines]
    exact before.sizes
  · show after.x < mode.horizontalResolution
    rw [drawn.x]
    exact left

/-- After the scroll all rows of the cursor's cell are on the screen. -/
theorem terminalScroll_inside (video : VideoMode mode) {t : Terminal}
    (before : Refreshable (framebufferInit mode) t) (left : t.x < mode.horizontalResolution)
    (lines : t.lines = mode.verticalResolution / 16) :
    TerminalInv (framebufferInit mode) (terminalScroll (framebufferInit mode) t) ∧
      (terminalScroll (framebufferInit mode) t).x < mode.horizontalResolution := by
  have tall := video.tall
  have small := video.height_lt
  have low : t.y < mode.verticalResolution := by
    rcases before.cursor with room | ⟨_, _, low⟩
    · exact Nat.lt_of_le_of_lt (Nat.le_add_right _ _) room
    · exact low
  have bottom : Word32.add t.y terminalCharHeight = t.y + 16 := add_charHeight (by omega)
  unfold terminalScroll
  dsimp only
  split
  · rename_i full
    rw [bottom] at full
    have enough : 16 ≤ t.y := by
      rcases before.cursor with room | ⟨_, enough, _⟩
      · exact absurd full (Nat.not_le_of_lt room)
      · exact enough
    have drawn := video.scroll_drawn (by omega) lines
    generalize memset _ 0 _ (copyLines _ _ t) = after at drawn ⊢
    exact before.scrolled left enough low (by omega) drawn
  · rename_i room
    rw [bottom] at room
    exact ⟨⟨⟨Nat.lt_of_not_le room, before.x_aligned, Nat.le_trans left.le (Nat.le_add_right _ _),
      before.no_underflow, before.written⟩, before.sizes⟩, left⟩

theorem terminalRefresh_inside (video : VideoMode mode) {t : Terminal}
    (before : Refreshable (framebufferInit mode) t) :
    TerminalInv (framebufferInit mode) (terminalRefresh (framebufferInit mode) t) ∧
      (terminalRefresh (framebufferInit mode) t).x < mode.horizontalResolution := by
  rcases terminalSizes_inside before with ⟨sized, lines⟩
  rcases terminalWrap_inside video sized with ⟨wrapped, left, kept⟩
  exact terminalScroll_inside video wrapped left (kept.trans lines)

end Steps

/-! ## The calls -/

section Calls

variable {mode : GopModeInfo} {font : Font}

theorem TerminalInv.refreshable {fb : Framebuffer} {t : Terminal} (inv : TerminalInv fb t) :
    Refreshable fb t :=
  ⟨.inl inv.y_lt, inv.x_aligned, inv.no_underflow, inv.written, inv.sizes⟩

theorem TerminalInv.draws {fb : Framebuffer} {t t' : Terminal} (inv : TerminalInv fb t)
    (drawn : Draws (fb.height * fb.pitch) t t') : TerminalInv fb t' := by
  refine ⟨⟨?_, ?_, ?_, ?_, ?_⟩, ?_⟩
  · rw [drawn.y]
    exact inv.y_lt
  · rw [drawn.x]
    exact inv.x_aligned
  · rw [drawn.x]
    exact inv.x_le
  · rw [drawn.differences]
    exact inv.no_underflow
  · intro w mem
    exact (drawn.writes w mem).elim (inv.written w) id
  · rw [drawn.rows, drawn.lines]
    exact inv.sizes

theorem terminalExit_inside (video : VideoMode mode) (c : ℕ → UInt8) {t : Terminal}
    (before : Refreshable (framebufferInit mode) t) :
    TerminalInv (framebufferInit mode) (terminalExit (framebufferInit mode) c t).2 :=
  (terminalRefresh_inside video before).1.draws (uartPutc_draws _ _ _)

theorem newline_refreshable (video : VideoMode mode) {t : Terminal}
    (inv : TerminalInv (framebufferInit mode) t) :
    Refreshable (framebufferInit mode)
      { t with x := 0, y := Word32.add t.y terminalCharHeight } := by
  have room : t.y + 16 < mode.verticalResolution := inv.y_lt
  have small := video.height_lt
  have wide := video.wide
  have next : Word32.add t.y terminalCharHeight = t.y + 16 := add_charHeight (by omega)
  refine { inv.refreshable with cursor := .inr ?_, x_aligned := rfl }
  show 0 < mode.horizontalResolution ∧ 16 ≤ Word32.add t.y terminalCharHeight ∧
    Word32.add t.y terminalCharHeight < mode.verticalResolution
  rw [next]
  exact ⟨by omega, by omega, room⟩

theorem tab_refreshable {t : Terminal} (inv : TerminalInv (framebufferInit mode) t) :
    Refreshable (framebufferInit mode) { t with
      x := Word32.add t.x (terminalCharWidth <<< 2) &&&
        (2 ^ 32 - 1 - ((terminalCharWidth <<< 2) - 1)) } := by
  refine { inv.refreshable with cursor := .inl inv.y_lt, x_aligned := ?_ }
  show (Word32.add t.x (terminalCharWidth <<< 2) &&& (2 ^ 32 - 2 ^ 5)) % 8 = 0
  rw [Words.and_field _ 5 32 (by decide)]
  omega

/-- The cursor one cell to the left is at a cell on the screen. -/
theorem moveLeft_inside (video : VideoMode mode) {t : Terminal}
    (inv : TerminalInv (framebufferInit mode) t) :
    TerminalInv (framebufferInit mode) (moveLeft t) ∧ (moveLeft t).x < mode.horizontalResolution := by
  have wide := video.wide
  have narrow := video.width_lt
  have right : t.x ≤ mode.horizontalResolution + 7 := inv.x_le
  have aligned := inv.x_aligned
  unfold moveLeft
  split
  · refine ⟨{ inv with x_aligned := rfl, x_le := Nat.zero_le _ }, ?_⟩
    show 0 < mode.horizontalResolution
    omega
  · rename_i far
    have far : 8 < t.x := Nat.lt_of_not_le far
    have left : Word32.sub t.x terminalCharWidth = t.x - 8 := sub_charWidth far.le (by omega)
    refine ⟨⟨⟨inv.y_lt, ?_, ?_, ?_, inv.written⟩, inv.sizes⟩, ?_⟩
    · show Word32.sub t.x terminalCharWidth % 8 = 0
      omega
    · show Word32.sub t.x terminalCharWidth ≤ mode.horizontalResolution + 7
      omega
    · intro d mem
      rcases List.mem_append.mp mem with earlier | last
      · exact inv.no_underflow d earlier
      · rw [List.mem_singleton.mp last]
        exact far.le
    · show Word32.sub t.x terminalCharWidth < mode.horizontalResolution
      omega

theorem terminalPutc_inside (font : Font) (video : VideoMode mode) (c : ℕ → UInt8) {t : Terminal}
    (inv : TerminalInv (framebufferInit mode) t) :
    TerminalInv (framebufferInit mode) (terminalPutc (framebufferInit mode) font c t).2 := by
  unfold terminalPutc
  split
  · exact inv
  split
  · exact terminalExit_inside video c (newline_refreshable video inv)
  split
  · exact terminalExit_inside video c (tab_refreshable inv)
  split
  · -- backspace draws before the refresh
    rcases moveLeft_inside video inv with ⟨moved, left⟩
    have drawn := @framebufferDrawChar_draws mode font _ _ _ (fun i => if i = 0 then 0x20 else 0)
      (moveLeft t) (video.cell_inside moved.y_lt left)
    dsimp only
    generalize framebufferDrawChar _ _ _ _ _ _ = outcome at drawn ⊢
    obtain ⟨_ | ret, last⟩ := outcome
    · exact moved.draws drawn
    · have echoed := ((drawn.trans (uartPutc_draws _ 0x08 _)).trans (uartPutc_draws _ 0x08 _)).trans
        (uartPutc_draws _ 0x20 _)
      exact terminalExit_inside video c (moved.draws echoed).refreshable
  · rcases terminalRefresh_inside video inv.refreshable with ⟨refreshed, left⟩
    have drawn := @framebufferDrawChar_draws mode font _ _ _ c
      (terminalRefresh (framebufferInit mode) t) (video.cell_inside refreshed.y_lt left)
    have after := refreshed.draws drawn
    rw [← drawn.x] at left
    dsimp only
    generalize framebufferDrawChar _ _ _ _ _ _ = outcome at after left ⊢
    obtain ⟨_ | ret, last⟩ := outcome
    · exact after
    have narrow := video.width_lt
    have left : last.x < mode.horizontalResolution := left
    have aligned : last.x % 8 = 0 := after.x_aligned
    have next : Word32.add last.x terminalCharWidth = last.x + 8 := add_charWidth (by omega)
    refine { after with x_aligned := ?_, x_le := ?_ }
    · show Word32.add last.x terminalCharWidth % 8 = 0
      omega
    · show Word32.add last.x terminalCharWidth ≤ mode.horizontalResolution + 7
      omega

end Calls

/-- Whatever is put on the terminal, the cursor stays on the screen, no subtraction from it underflows
and nothing is written outside the framebuffer. -/
theorem terminalRun_inside (mode : GopModeInfo) (video : VideoMode mode) (font : Font) (lfb : Memory)
    (calls : List (ℕ → UInt8)) :
    Inside (framebufferInit mode) (terminalRun (framebufferInit mode) font calls (.start lfb)) := by
  have start : TerminalInv (framebufferInit mode) (.start lfb) := by
    refine ⟨⟨?_, rfl, Nat.zero_le _, ?_, ?_⟩, .inl ⟨rfl, rfl⟩⟩
    · show 0 + 16 < mode.verticalResolution
      have tall := video.tall
      omega
    · intro d mem
      exact absurd mem List.not_mem_nil
    · intro w mem
      exact absurd mem List.not_mem_nil
  have run : ∀ (calls : List (ℕ → UInt8)) (t : Terminal), TerminalInv (framebufferInit mode) t →
      TerminalInv (framebufferInit mode) (terminalRun (framebufferInit mode) font calls t) := by
    intro calls
    induction calls with
    | nil => exact fun t inv => inv
    | cons c rest ih =>
      intro t inv
      have after := terminalPutc_inside font video c inv
      rw [terminalRun]
      generalize terminalPutc _ _ _ _ = outcome at after ⊢
      obtain ⟨_ | ret, last⟩ := outcome
      · exact after
      · exact ih last after
  exact (run calls _ start).toInside

theorem terminalRun_inside_vga :
    Inside (framebufferInit ⟨642, 480, 644⟩)
      (terminalRun (framebufferInit ⟨642, 480, 644⟩) ⟨fun _ => 0, fun _ => 0xFF⟩
        [fun _ => 0x41, fun _ => 0x09, fun _ => 0x08, fun _ => 0xC3, fun _ => 0x0A]
          (.start fun _ => 0)) :=
  terminalRun_inside ⟨642, 480, 644⟩
    ⟨by decide, by decide, by decide, by decide, by decide, by decide⟩ _ _ _

end Vineyard

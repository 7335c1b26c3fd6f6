import Vineyard.Machine
import Vineyard.Lib.Bytes

/-!
# The terminal on the framebuffer

`framebuffer_init` and `framebuffer_draw_char` of `driver/graphics/framebuffer.c` and
`driver/graphics/terminal.c`.  The framebuffer is the byte memory from `framebuffer_lfb` on;
every range that is written is noted, and so are the operands of every subtraction from the
cursor.  The font tables give what is read at each index.  A read outside
`framebuffer_font_index` ends in the panic of `misc/ubsan.c`.
-/

namespace Vineyard

open Bytes

/-- The fields of `efi_graphics_output_mode_information` that are read. -/
structure GopModeInfo where
  horizontalResolution : ℕ
  verticalResolution : ℕ
  pixelsPerScanLine : ℕ

/-- The variables that `framebuffer_init` sets. -/
structure Framebuffer where
  ready : Bool
  width : ℕ
  height : ℕ
  pitch : ℕ
  bpp : ℕ
  offset1 : ℕ
  offset2 : ℕ
  offset3 : ℕ
  offset4 : ℕ
  offset5 : ℕ
  offset6 : ℕ
  offset7 : ℕ

def framebufferInit (modeInfo : GopModeInfo) : Framebuffer :=
  let bpp := 4
  let offset1 := bpp
  let offset2 := bpp <<< 1
  let offset3 := offset1 + offset2
  let offset4 := bpp <<< 2
  { ready := true
    width := modeInfo.horizontalResolution
    height := modeInfo.verticalResolution
    pitch := Word32.mul modeInfo.pixelsPerScanLine bpp
    bpp := bpp
    offset1 := offset1
    offset2 := offset2
    offset3 := offset3
    offset4 := offset4
    offset5 := offset4 + offset1
    offset6 := offset4 + offset2
    offset7 := offset4 + offset3 }

/-- `framebuffer_font_index` and `framebuffer_font` -/
structure Font where
  fontIndex : ℕ → UInt16
  font : ℕ → UInt8

/-- The terminal's variables, the framebuffer's bytes and the output of the UART. -/
structure Terminal where
  x : ℕ
  y : ℕ
  rows : ℕ
  lines : ℕ
  lfb : Memory
  /-- The ranges written, as offset and length. -/
  writes : List (ℕ × ℕ)
  /-- The operands of the subtractions from the cursor. -/
  differences : List (ℕ × ℕ)
  uart : List UInt8

/-- Before the first call. -/
def Terminal.start (lfb : Memory) : Terminal := ⟨0, 0, 0, 0, lfb, [], [], []⟩

namespace Terminal

def uartPutc (c : UInt8) (t : Terminal) : Terminal := { t with uart := t.uart ++ [c] }

def store32 (addr : ℕ) (value : UInt32) (t : Terminal) : Terminal :=
  { t with lfb := store t.lfb addr value.toNat 4, writes := t.writes ++ [(addr, 4)] }

def memcpy (dst src n : ℕ) (t : Terminal) : Terminal :=
  { t with lfb := copy t.lfb dst t.lfb src n, writes := t.writes ++ [(dst, n)] }

def memset (dst : ℕ) (c : UInt8) (n : ℕ) (t : Terminal) : Terminal :=
  { t with lfb := fill t.lfb dst n c, writes := t.writes ++ [(dst, n)] }

end Terminal

open Terminal

/-! ## `framebuffer_draw_char` -/

/-- `LFB` in `size_t` arithmetic. -/
def lfbOffset (fb : Framebuffer) (x y : ℕ) : ℕ := (x * fb.bpp + y * fb.pitch) % 2 ^ 64

/-- The length and the code point of the UTF-8 sequence at `c`; both are 0 for any other lead byte. -/
def utf8Decode (c : ℕ → UInt8) : ℕ × ℕ :=
  let c0 := c 0
  if c0 &&& 0x80 = 0 then (1, c0.toNat)
  else if c0 &&& 0xE0 = 0xC0 then
    (2, ((c0 &&& 0x1F).toNat <<< 6) ||| (c 1 &&& 0x3F).toNat)
  else if c0 &&& 0xF0 = 0xE0 then
    (3, ((c0 &&& 0x0F).toNat <<< 12) ||| ((c 1 &&& 0x3F).toNat <<< 6) ||| (c 2 &&& 0x3F).toNat)
  else if c0 &&& 0xF8 = 0xF0 then
    (4, ((c0 &&& 0x07).toNat <<< 18) ||| ((c 1 &&& 0x3F).toNat <<< 12) |||
      ((c 2 &&& 0x3F).toNat <<< 6) ||| (c 3 &&& 0x3F).toNat)
  else (0, 0)

/-- The elements of `framebuffer_font_index`. -/
def fontIndexLength : ℕ := 11120

/-- The index of the first row of a character in the font; `none` is a panic of the bounds check. -/
def glyphIndex (font : Font) (index : ℕ) : Option ℕ :=
  let entry := if 64256 ≤ index then index - 54416 else index
  if entry < fontIndexLength then some ((font.fontIndex entry).toNat <<< 4) else none

/-- `framebuffer_font_lookup` -/
def fontLookup (bit : UInt8) : UInt32 := if bit = 0 then 0x00000000 else 0xFFFFFFFF

/-- The color of a pixel: `fg` where the bit is set and `bg` elsewhere. -/
def pixelColor (rowData : UInt8) (shift : UInt8) : UInt32 :=
  let fg : UInt32 := 0xFFFFFFFF
  let bg : UInt32 := 0x00000000
  let mask := fontLookup ((rowData >>> shift) &&& 1)
  (fg &&& mask) ||| (bg &&& ~~~mask)

/-- The eight stores of a row; the leftmost pixel is the most significant bit. -/
def drawRow (fb : Framebuffer) (rowData : UInt8) (addr : ℕ) (t : Terminal) : Terminal :=
  [(0, 7), (fb.offset1, 6), (fb.offset2, 5), (fb.offset3, 4), (fb.offset4, 3), (fb.offset5, 2),
    (fb.offset6, 1), (fb.offset7, (0 : UInt8))].foldl
      (fun t pixel => store32 (addr + pixel.1) (pixelColor rowData pixel.2) t) t

/-- The first `n` rows; `addr` goes on by a pitch after each. -/
def drawRows (fb : Framebuffer) (charData : ℕ → UInt8) (addr : ℕ) : ℕ → Terminal → Terminal
  | 0, t => t
  | row + 1, t =>
    drawRow fb (charData row) (addr + row * fb.pitch) (drawRows fb charData addr row t)

/-- Returns the number of bytes drawn, or `none` for a panic. -/
def framebufferDrawChar (fb : Framebuffer) (font : Font) (c : ℕ → UInt8) (x y : ℕ) (t : Terminal) :
    Option ℕ × Terminal :=
  let addr := lfbOffset fb x y
  let (ret, index) := utf8Decode c
  let t := (List.range ret).foldl (fun t i => uartPutc (c i) t) t
  match glyphIndex font index with
  | some index => (some ret, drawRows fb (fun row => font.font (index + row)) addr 16 t)
  | none => (none, t)

/-! ## `terminal_refresh` -/

def terminalCharWidth : ℕ := 8

def terminalCharHeight : ℕ := 16

/-- Sets the sizes up at the first call. -/
def terminalSizes (fb : Framebuffer) (t : Terminal) : Terminal :=
  if t.rows = 0 ∧ t.lines = 0 then
    { t with rows := fb.width / terminalCharWidth, lines := fb.height / terminalCharHeight }
  else t

/-- Wraps to the next line. -/
def terminalWrap (fb : Framebuffer) (t : Terminal) : Terminal :=
  if fb.width ≤ t.x then { t with x := 0, y := Word32.add t.y terminalCharHeight } else t

/-- The loop that moves the lines up; `start` is `line * bytesPerLine`. -/
def copyLines (bytesPerLine : ℕ) : ℕ → Terminal → Terminal
  | 0, t => t
  | line + 1, t =>
    memcpy (line * bytesPerLine) (line * bytesPerLine + bytesPerLine) bytesPerLine
      (copyLines bytesPerLine line t)

/-- Moves the lines up and the cursor with them. -/
def terminalScroll (fb : Framebuffer) (t : Terminal) : Terminal :=
  let bytesPerLine := Word32.mul fb.pitch terminalCharHeight
  if fb.height ≤ Word32.add t.y terminalCharHeight then
    let count := Word32.sub t.lines 1
    let t := memset (count * bytesPerLine) 0 bytesPerLine (copyLines bytesPerLine count t)
    { t with y := Word32.sub t.y terminalCharHeight
             differences := t.differences ++ [(t.y, terminalCharHeight)] }
  else t

def terminalRefresh (fb : Framebuffer) (t : Terminal) : Terminal :=
  terminalScroll fb (terminalWrap fb (terminalSizes fb t))

/-! ## `terminal_putc` -/

/-- The cursor one character to the left, but not off the screen. -/
def moveLeft (t : Terminal) : Terminal :=
  if t.x ≤ terminalCharWidth then { t with x := 0 }
  else { t with x := Word32.sub t.x terminalCharWidth
                differences := t.differences ++ [(t.x, terminalCharWidth)] }

/-- What follows the label `exit`. -/
def terminalExit (fb : Framebuffer) (c : ℕ → UInt8) (t : Terminal) : Option ℕ × Terminal :=
  (some 1, uartPutc (c 0) (terminalRefresh fb t))

/-- Returns the number of bytes that were put, or `none` for a panic. -/
def terminalPutc (fb : Framebuffer) (font : Font) (c : ℕ → UInt8) (t : Terminal) :
    Option ℕ × Terminal :=
  if !fb.ready then (some 0, t)
  else if c 0 = 0x0A then
    terminalExit fb c { t with x := 0, y := Word32.add t.y terminalCharHeight }
  else if c 0 = 0x09 then
    terminalExit fb c { t with
      x := Word32.add t.x (terminalCharWidth <<< 2) &&&
        (2 ^ 32 - 1 - ((terminalCharWidth <<< 2) - 1)) }
  else if c 0 = 0x08 then
    let t := moveLeft t
    match framebufferDrawChar fb font (fun i => if i = 0 then 0x20 else 0) t.x t.y t with
    | (some _, t) => terminalExit fb c (uartPutc 0x20 (uartPutc 0x08 (uartPutc 0x08 t)))
    | (none, t) => (none, t)
  else
    let t := terminalRefresh fb t
    match framebufferDrawChar fb font c t.x t.y t with
    | (some ret, t) => (some ret, { t with x := Word32.add t.x terminalCharWidth })
    | (none, t) => (none, t)

/-- A sequence of calls of `terminal_putc`, up to a panic. -/
def terminalRun (fb : Framebuffer) (font : Font) : List (ℕ → UInt8) → Terminal → Terminal
  | [], t => t
  | c :: calls, t =>
    match terminalPutc fb font c t with
    | (some _, t) => terminalRun fb font calls t
    | (none, t) => t

end Vineyard

import AnglOS.Libc

/-!
# The Text Console

The model of `kernel/device/vga/text.c` and of the parts of `kernel/device/vga/graphics.c` it
uses. The framebuffer is a byte memory that starts at offset zero; `pixels_at_cursor` is one of
512 bytes. The display adapter and the font are outside of the code: the adapter is what its
registers read back after they were written, and the font is a function from offsets to bytes.

Beside the static variables of the source, the state has a record of the framebuffer bytes that
were read or written, and of whether a cursor position did not fit its 16 bits.
-/

namespace AnglOS

/-! ### The framebuffer -/

/-- `fb_w`, `fb_h`, `fb_p`, and `fb_bpp`. -/
structure Graphics where
  fbW : ℕ
  fbH : ℕ
  fbP : ℕ
  fbBpp : ℕ

/-- The display adapter: the number of framebuffers the boot loader found, and what the registers
for the resolution and the depth read back after a value was written. It has no depth of more than
32 bits. -/
structure Adapter where
  framebufferCount : ℕ
  xRes : ℕ → ℕ
  yRes : ℕ → ℕ
  bpp : ℕ → ℕ
  depth_le : ∀ depth, bpp depth = depth → depth ≤ 32

/-- The static variables of `text.c`, the framebuffer, and the record. -/
structure Text where
  fb : Mem
  cursorX : ℕ
  cursorY : ℕ
  backgroundColor : BitVec 32
  foregroundColor : BitVec 32
  pixelsAtCursor : Mem
  cursorEnabled : Bool
  /-- The framebuffer ranges that were read or written, by offset and length. -/
  accesses : List (ℕ × ℕ)
  /-- A cursor position did not fit. -/
  wrapped : Bool

/-- `margin_x` and `margin_y`. -/
abbrev textMargin : ℕ := 4

/-- `spacing_x`. -/
abbrev spacingX : ℕ := 2

/-- `spacing_y`. -/
abbrev spacingY : ℕ := 4

/-- `character_size_x`. -/
abbrev characterSizeX : ℕ := 8

/-- `character_size_y`. -/
abbrev characterSizeY : ℕ := 16

/-- The static variables before the first call, with any framebuffer. -/
def Text.boot (fb : Mem) : Text where
  fb := fb
  cursorX := 4
  cursorY := 4
  backgroundColor := 0x00000000#32
  foregroundColor := 0xFFFFFFFF#32
  pixelsAtCursor := fun _ => 0#8
  cursorEnabled := true
  accesses := []
  wrapped := false

/-- `memcpy` from one array to another. -/
def copyFrom (m : Mem) (dest : ℕ) (src : Mem) (s n : ℕ) : Mem :=
  loop (fun k m => m.store8 (dest + k) (src (s + k))) n m

/-- `memcpy` inside an array. -/
def copyWithin (m : Mem) (dest src n : ℕ) : Mem :=
  loop (fun k m => m.store8 (dest + k) (m (src + k))) n m

/-- A store to a byte of the framebuffer. -/
def Text.poke (t : Text) (offset : ℕ) (v : BitVec 8) : Text :=
  { t with fb := t.fb.store8 offset v, accesses := (offset, 1) :: t.accesses }

/-- `graphicsPutpixel`. It stores three bytes whatever the depth is. -/
def graphicsPutpixel (G : Graphics) (t : Text) (x y : ℕ) (color : BitVec 32) : Text :=
  let offset := (x % 2 ^ 16 * G.fbBpp + y % 2 ^ 16 * G.fbP) % 2 ^ 32
  let t := t.poke offset (color.extractLsb' 0 8)
  let t := t.poke ((offset + 1) % 2 ^ 32) (color.extractLsb' 8 8)
  t.poke ((offset + 2) % 2 ^ 32) (color.extractLsb' 16 8)

/-! ### Characters and the cursor -/

section

variable (G : Graphics) (font : ℕ → BitVec 8)

/-- `textDrawChar`. -/
def textDrawChar (t : Text) (c : BitVec 8) (x y : ℕ) (transparent : Bool) : Text :=
  loop (fun cy t =>
    loop (fun cx t =>
      if transparent then
        if (font (c.toNat * characterSizeY + cy)).getMsbD cx then
          graphicsPutpixel G t (x + cx) (y + cy) t.foregroundColor
        else t
      else
        graphicsPutpixel G t (x + cx) (y + cy)
          (if (font (c.toNat * characterSizeY + cy)).getMsbD cx then t.foregroundColor
          else t.backgroundColor)) characterSizeX t) characterSizeY t

/-- `textDrawCharAtCursor`. -/
def textDrawCharAtCursor (t : Text) (c : BitVec 8) (transparent : Bool) : Text :=
  textDrawChar G font t c t.cursorX t.cursorY transparent

/-- The offset of row `cy` of the cell at the cursor. -/
def Text.cursorRow (t : Text) (cy : ℕ) : ℕ :=
  (t.cursorX * G.fbBpp + (t.cursorY + cy) * G.fbP) % 2 ^ 32

/-- The loop of `textDrawCursor`: the cell at the cursor is copied to `pixels_at_cursor`. -/
def textSaveCell (t : Text) : Text :=
  loop (fun cy t =>
    { t with
      pixelsAtCursor := copyFrom t.pixelsAtCursor (4 * (cy * characterSizeX)) t.fb
        (t.cursorRow G cy) (G.fbBpp * characterSizeX)
      accesses := (t.cursorRow G cy, G.fbBpp * characterSizeX) :: t.accesses }) characterSizeY t

/-- The loop of `textClearCursor`: `pixels_at_cursor` is copied to the cell at the cursor. -/
def textRestoreCell (t : Text) : Text :=
  loop (fun cy t =>
    { t with
      fb := copyFrom t.fb (t.cursorRow G cy) t.pixelsAtCursor (4 * (cy * characterSizeX))
        (G.fbBpp * characterSizeX)
      accesses := (t.cursorRow G cy, G.fbBpp * characterSizeX) :: t.accesses }) characterSizeY t

/-- `textDrawCursor`. -/
def textDrawCursor (t : Text) : Text :=
  let t := textSaveCell G t
  let t := textDrawCharAtCursor G font t 219#8 false
  { t with cursorEnabled := true }

/-- `textClearCursor`. -/
def textClearCursor (t : Text) : Text :=
  let t := textRestoreCell G t
  { t with
    pixelsAtCursor := memset t.pixelsAtCursor 0 0x00#8 (8 * 16 * 4)
    cursorEnabled := false }

/-- `textMoveCursor`; the positions are cut to 16 bits. -/
def textMoveCursor (t : Text) (x y : ℤ) : Text :=
  textDrawCursor G font
    { t with
      cursorX := (x % 2 ^ 16).toNat
      cursorY := (y % 2 ^ 16).toNat
      wrapped := t.wrapped || !decide (0 ≤ x ∧ x < 2 ^ 16 ∧ 0 ≤ y ∧ y < 2 ^ 16) }

/-- `textMoveScreenUpOneLine`. -/
def textMoveScreenUpOneLine (t : Text) : Text :=
  let t := loop (fun r t =>
    { t with
      fb := copyWithin t.fb (r * G.fbP) (r * G.fbP + (spacingY + characterSizeY) * G.fbP) G.fbP
      accesses := (r * G.fbP, G.fbP) ::
        (r * G.fbP + (spacingY + characterSizeY) * G.fbP, G.fbP) :: t.accesses })
    (G.fbH - (textMargin + spacingY + characterSizeY)) t
  { t with
    fb := memset t.fb (t.cursorY * G.fbP) 0x00#8 ((characterSizeY + textMargin) * G.fbP)
    accesses := (t.cursorY * G.fbP, (characterSizeY + textMargin) * G.fbP) :: t.accesses }

/-- The test for the last line. -/
def Text.onLastLine (t : Text) : Prop :=
  sub64 G.fbH textMargin < t.cursorY + characterSizeY * 2 + spacingY

/-- The test for the last column. -/
def Text.onLastColumn (t : Text) : Prop :=
  sub64 G.fbW textMargin < t.cursorX + characterSizeX * 2 + spacingX

instance (t : Text) : Decidable (t.onLastLine G) :=
  inferInstanceAs (Decidable (_ < _))

instance (t : Text) : Decidable (t.onLastColumn G) :=
  inferInstanceAs (Decidable (_ < _))

/-- `textNewline`. -/
def textNewline (t : Text) : Text :=
  let t := textClearCursor G t
  if t.onLastLine G then
    let t := textMoveScreenUpOneLine G t
    textMoveCursor G font t textMargin t.cursorY
  else textMoveCursor G font t textMargin (t.cursorY + spacingY + characterSizeY)

/-- `textCursorUp`. -/
def textCursorUp (t : Text) : Text :=
  if t.cursorY = textMargin then t
  else
    let t := textClearCursor G t
    textMoveCursor G font t t.cursorX (t.cursorY - spacingY - characterSizeY)

/-- `textCursorDown`. -/
def textCursorDown (t : Text) : Text :=
  if t.onLastLine G then t
  else
    let t := textClearCursor G t
    textMoveCursor G font t t.cursorX (t.cursorY + spacingY + characterSizeY)

/-- `textCursorLeft`. -/
def textCursorLeft (t : Text) : Text :=
  if t.cursorX = textMargin then t
  else
    let t := textClearCursor G t
    textMoveCursor G font t (t.cursorX - spacingX - characterSizeX) t.cursorY

/-- `textCursorRight`. -/
def textCursorRight (t : Text) : Text :=
  if t.onLastColumn G then t
  else
    let t := textClearCursor G t
    textMoveCursor G font t (t.cursorX + spacingX + characterSizeX) t.cursorY

/-- `textAdvanceCursorRight`. -/
def textAdvanceCursorRight (t : Text) : Text :=
  if t.onLastLine G ∧ t.onLastColumn G then
    let t := textMoveScreenUpOneLine G t
    textMoveCursor G font t textMargin t.cursorY
  else if t.onLastColumn G then
    textMoveCursor G font t textMargin (t.cursorY + spacingY + characterSizeY)
  else textMoveCursor G font t (t.cursorX + spacingX + characterSizeX) t.cursorY

/-- `textClearCharAtCursor`. -/
def textClearCharAtCursor (t : Text) : Text :=
  let t := textClearCursor G t
  let t := textDrawCharAtCursor G font t 0x20#8 false
  textDrawCursor G font t

/-- `textClearScreen`. -/
def textClearScreen (t : Text) : Text :=
  let t := textClearCursor G t
  { t with
    fb := memset t.fb 0 0x00#8 (G.fbH * G.fbP)
    accesses := (0, G.fbH * G.fbP) :: t.accesses }

/-- `textPutc`. -/
def textPutc (t : Text) (c : BitVec 8) : Text :=
  if c = 0x0A#8 then textNewline G font t
  else if c = 0x08#8 then textClearCharAtCursor G font (textCursorLeft G font t)
  else if c = 0x86#8 then textCursorUp G font t
  else if c = 0x87#8 then textCursorDown G font t
  else if c = 0x88#8 then textCursorLeft G font t
  else if c = 0x89#8 then textCursorRight G font t
  else if c = 0x90#8 then textMoveCursor G font (textClearScreen G t) 4 4
  else if c = 0x91#8 then textClearCursor G t
  else if c = 0x92#8 then textDrawCursor G font t
  else
    let t := textClearCursor G t
    let t := textDrawCharAtCursor G font t c false
    textAdvanceCursorRight G font t

/-- The bytes `cs`, one after the other. -/
def textPuts (t : Text) (cs : List (BitVec 8)) : Text :=
  cs.foldl (textPutc G font) t

end

/-- `initGraphics`, with `none` where it returns 1. -/
def initGraphics (A : Adapter) (font : ℕ → BitVec 8) (t : Text) (width height depth : ℕ) :
    Option (Graphics × Text) :=
  if A.framebufferCount = 0 then none
  else if A.xRes width ≠ width ∨ A.yRes height ≠ height then none
  else if A.bpp depth ≠ depth then none
  else
    let G : Graphics := ⟨width, height, width * (depth / 8), depth / 8⟩
    some (G, textMoveCursor G font t 4 4)

end AnglOS

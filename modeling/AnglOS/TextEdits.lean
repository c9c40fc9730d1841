import AnglOS.TextCursor

/-!
# What a Byte Does to the Text

Hiding and showing the cursor are paired as long as a byte that hides it comes while it is shown
and the byte that shows it while it is hidden; the variable `cursor_enabled` that would tell is
written and never read.

## Main results

* `textPutc_edits` — one paired byte edits the underlying screen as it should;
* `text_edits_of_paired` — so does every paired byte after any bytes.
-/

namespace AnglOS

/-- **What a byte should do to the underlying screen.** A line feed scrolls on the last line and
changes nothing elsewhere. A backspace blanks the cell on which the cursor ends. The bytes that
move, hide, or show the cursor change nothing. A printable byte writes its glyph in the cell at the
cursor, and then scrolls at the end of the last line. -/
def TextEdits (G : Graphics) (font : ℕ → BitVec 8) (t t' : Text) (c : BitVec 8) : Prop :=
  if c = 0x0A#8 then
    ∀ px row j, G.OnScreen px row j → underlying G t' (G.byteAt px row j) =
      if t.onLastLine G then scrolled G t.cursorY (underlying G t) px row j
      else underlying G t (G.byteAt px row j)
  else if c = 0x08#8 then
    ∀ px row j, G.OnScreen px row j →
      (¬InCell t'.cursorX t'.cursorY px row →
        underlying G t' (G.byteAt px row j) = underlying G t (G.byteAt px row j)) ∧
      (InCell t'.cursorX t'.cursorY px row → j < 3 → underlying G t' (G.byteAt px row j) = 0#8)
  else if c = 0x90#8 then True
  else if c ∈ [0x86#8, 0x87#8, 0x88#8, 0x89#8, 0x91#8, 0x92#8] then
    SameScreen G (underlying G t') (underlying G t)
  else ∃ v : Mem,
    (∀ px row j, G.OnScreen px row j → ¬InCell t.cursorX t.cursorY px row →
      v (G.byteAt px row j) = underlying G t (G.byteAt px row j)) ∧
    (∀ px row j, G.OnScreen px row j → InCell t.cursorX t.cursorY px row → j < 3 →
      v (G.byteAt px row j) = glyphByte font t c (px - t.cursorX) (row - t.cursorY) j) ∧
    ∀ px row j, G.OnScreen px row j → underlying G t' (G.byteAt px row j) =
      if t.onLastLine G ∧ t.onLastColumn G then scrolled G t.cursorY v px row j
      else v (G.byteAt px row j)

/-- **The byte is paired**: it shows the cursor while it is hidden, or it hides the cursor, for
itself or for a move, while it is shown. -/
def PairedByte (G : Graphics) (t : Text) (c : BitVec 8) : Prop :=
  (c = 0x92#8 → t.cursorEnabled = false) ∧
    (c = 0x91#8 ∨ c = 0x0A#8 ∨ c = 0x86#8 ∧ t.cursorY ≠ textMargin ∨
        c = 0x87#8 ∧ ¬t.onLastLine G ∨ (c = 0x88#8 ∨ c = 0x08#8) ∧ t.cursorX ≠ textMargin ∨
        c = 0x89#8 ∧ ¬t.onLastColumn G →
      t.cursorEnabled = true)

section

variable {G : Graphics} {font : ℕ → BitVec 8} {t t' : Text} {u v : Mem} {x y px row j n : ℕ}

/-- A line feed scrolls on the last line. -/
theorem textNewline_underlying (hG : G.Deep) (h : Console G t) (hshown : t.cursorEnabled = true)
    (ho : G.OnScreen px row j) :
    underlying G (textNewline G font t) (G.byteAt px row j) =
      if t.onLastLine G then scrolled G t.cursorY (underlying G t) px row j
      else underlying G t (G.byteAt px row j) := by
  obtain ⟨hx, hy, -⟩ := textClearCursor_fields font hG h.cell
  have hsame := textClearCursor_shown hG h.cell hshown
  have hcell := cellFits_iff.mp h.cell
  have hwidth := hG.width
  have hlast : (textClearCursor G t).onLastLine G ↔ t.onLastLine G := by
    rw [Text.onLastLine, Text.onLastLine, hy]
  rw [textNewline]
  dsimp only
  rw [if_congr hlast rfl rfl]
  by_cases hl : t.onLastLine G
  · have hscroll := (textMoveScreenUpOneLine_touches (G := G) (t := textClearCursor G t)
      (by rw [hy]; exact h.cell.2)).cursorY
    rw [if_pos hl, if_pos hl, scroll_move hG (x := 4) (y := t.cursorY) rfl
      (by rw [hscroll, hy]) (cellFits_iff.mpr ⟨by omega, by omega⟩) ho, hy, hsame.scrolled_eq ho]
  · have hl' := hl
    rw [Text.onLastLine_iff hG.toFits] at hl'
    rw [if_neg hl, if_neg hl, hy]
    exact sameScreen_move hG h hshown (x := 4) (y := t.cursorY + 20) rfl
      (by simp only [spacingY, characterSizeY]; omega) (cellFits_iff.mpr ⟨by omega, by omega⟩)
      px row j ho

/-- Clearing the cursor and drawing a character in its cell: everything else is the underlying
screen. -/
theorem clear_draw_spec (font : ℕ → BitVec 8) (hG : G.Deep) (h : Console G t) (c : BitVec 8) :
    ∃ f m a, textDrawCharAtCursor G font (textClearCursor G t) c false =
        { t with fb := f, pixelsAtCursor := m, cursorEnabled := false, accesses := a } ∧
      (∀ px row j, G.OnScreen px row j → ¬InCell t.cursorX t.cursorY px row →
        f (G.byteAt px row j) = underlying G t (G.byteAt px row j)) ∧
      ∀ px row j, G.OnScreen px row j → InCell t.cursorX t.cursorY px row → j < 3 →
        f (G.byteAt px row j) = glyphByte font t c (px - t.cursorX) (row - t.cursorY) j := by
  obtain ⟨f, m, a, heq, hf⟩ := textClearCursor_spec hG h.cell
  obtain ⟨f', a', hdraw, hf'⟩ := textDrawChar_spec font hG
    { t with fb := f, pixelsAtCursor := m, cursorEnabled := false, accesses := a } h.cell c
  refine ⟨f', m, a', ?_, fun px row j ho hcell => ?_, fun px row j ho hcell hj => ?_⟩
  · rw [textDrawCharAtCursor, heq]
    exact hdraw
  · have hoff := textClearCursor_off hG h.cell ho hcell
    rw [heq] at hoff
    rw [hf' px row j ho.column ho.byte, if_neg fun hin => hcell hin.1]
    exact hoff
  · rw [hf' px row j ho.column ho.byte, if_pos ⟨hcell, hj⟩]
    rfl

/-- A blanked cell: `textClearCharAtCursor` draws a space. -/
theorem textClearCharAtCursor_underlying (hG : G.Deep) (h : Console G t)
    (hblank : ∀ cy < characterSizeY, font (0x20 * characterSizeY + cy) = 0#8) :
    (textClearCharAtCursor G font t).cursorX = t.cursorX ∧
      (textClearCharAtCursor G font t).cursorY = t.cursorY ∧
      ∀ px row j, G.OnScreen px row j →
        (¬InCell t.cursorX t.cursorY px row →
          underlying G (textClearCharAtCursor G font t) (G.byteAt px row j) =
            underlying G t (G.byteAt px row j)) ∧
        (InCell t.cursorX t.cursorY px row → j < 3 →
          underlying G (textClearCharAtCursor G font t) (G.byteAt px row j) = 0#8) := by
  obtain ⟨f, m, a, heq, hoff, hin⟩ := clear_draw_spec font hG h 0x20#8
  have hdraw := textDrawCursor_underlying font hG
    (t := { t with fb := f, pixelsAtCursor := m, cursorEnabled := false, accesses := a }) h.cell
  obtain ⟨f', m', a', heq', -⟩ := textDrawCursor_spec font hG
    (t := { t with fb := f, pixelsAtCursor := m, cursorEnabled := false, accesses := a }) h.cell
  have hclear : textClearCharAtCursor G font t = textDrawCursor G font
      { t with fb := f, pixelsAtCursor := m, cursorEnabled := false, accesses := a } := by
    rw [textClearCharAtCursor, heq]
  rw [hclear]
  refine ⟨by rw [heq'], by rw [heq'], fun px row j ho => ⟨fun hcell => ?_, fun hcell hj => ?_⟩⟩
  · rw [hdraw px row j ho]
    exact hoff px row j ho hcell
  · rw [hdraw px row j ho]
    refine (hin px row j ho hcell hj).trans ?_
    have hrow : row - t.cursorY < characterSizeY := by
      have := hcell.2.2
      omega
    have hspace := hblank _ hrow
    rw [glyphByte, h.background]
    rw [show (0x20#8).toNat = 0x20 from rfl, hspace]
    simp

end

section

variable {A : Adapter} {G : Graphics} {font : ℕ → BitVec 8} {t t' : Text} {fb : Mem}
  {width height depth px row j : ℕ}

/-- Moving on after a character: the screen scrolls at the end of the last line. -/
theorem textAdvanceCursorRight_underlying (hG : G.Deep) (h : CellFits G t.cursorX t.cursorY)
    (ho : G.OnScreen px row j) :
    underlying G (textAdvanceCursorRight G font t) (G.byteAt px row j) =
      if t.onLastLine G ∧ t.onLastColumn G then scrolled G t.cursorY t.fb px row j
      else t.fb (G.byteAt px row j) := by
  have hcell := cellFits_iff.mp h
  have hwidth := hG.width
  rw [textAdvanceCursorRight]
  split_ifs with hend hcol
  · have hscroll := (textMoveScreenUpOneLine_touches h.2).cursorY
    exact scroll_move hG (x := 4) (y := t.cursorY) rfl (by rw [hscroll])
      (cellFits_iff.mpr ⟨by omega, by omega⟩) ho
  · rw [Text.onLastLine_iff hG.toFits, Text.onLastColumn_iff hG.toFits] at hend
    rw [Text.onLastColumn_iff hG.toFits] at hcol
    exact textMoveCursor_underlying hG (x := 4) (y := t.cursorY + 20) rfl
      (by simp only [spacingY, characterSizeY]; omega) (cellFits_iff.mpr ⟨by omega, by omega⟩)
      px row j ho
  · rw [Text.onLastColumn_iff hG.toFits] at hcol
    exact textMoveCursor_underlying hG (x := t.cursorX + 10) (y := t.cursorY)
      (by simp only [spacingX, characterSizeX]; omega) rfl
      (cellFits_iff.mpr ⟨by omega, by omega⟩) px row j ho

/-- **One paired byte** edits the underlying screen as it should. -/
theorem textPutc_edits (hG : G.Deep) (h : Console G t)
    (hblank : ∀ cy < characterSizeY, font (0x20 * characterSizeY + cy) = 0#8) {c : BitVec 8}
    (hpaired : PairedByte G t c) : TextEdits G font t (textPutc G font t c) c := by
  obtain ⟨hshow, hhide⟩ := hpaired
  by_cases h0A : c = 0x0A#8
  · have hshown := hhide (.inr (.inl h0A))
    rw [TextEdits, if_pos h0A, textPutc, if_pos h0A]
    exact fun px row j ho => textNewline_underlying hG h hshown ho
  by_cases h08 : c = 0x08#8
  · have hleft := sameScreen_textCursorLeft font hG h fun hx =>
      hhide (.inr (.inr (.inr (.inr (.inl ⟨.inr h08, hx⟩)))))
    obtain ⟨hx, hy, hclear⟩ := textClearCharAtCursor_underlying hG
      (h.textCursorLeft hG.toFits) hblank
    rw [TextEdits, if_neg h0A, if_pos h08, textPutc, if_neg h0A, if_pos h08, hx, hy]
    refine fun px row j ho => ⟨fun hoff => ?_, (hclear px row j ho).2⟩
    rw [(hclear px row j ho).1 hoff]
    exact hleft px row j ho
  by_cases h90 : c = 0x90#8
  · rw [TextEdits, if_neg h0A, if_neg h08, if_pos h90]
    exact trivial
  rw [TextEdits, if_neg h0A, if_neg h08, if_neg h90]
  by_cases hmem : c ∈ [0x86#8, 0x87#8, 0x88#8, 0x89#8, 0x91#8, 0x92#8]
  · rw [if_pos hmem]
    simp only [List.mem_cons, List.not_mem_nil, or_false] at hmem
    rcases hmem with rfl | rfl | rfl | rfl | rfl | rfl
    · have hputc : textPutc G font t 0x86#8 = textCursorUp G font t := by simp [textPutc]
      rw [hputc]
      exact sameScreen_textCursorUp font hG h fun hy => hhide (.inr (.inr (.inl ⟨rfl, hy⟩)))
    · have hputc : textPutc G font t 0x87#8 = textCursorDown G font t := by simp [textPutc]
      rw [hputc]
      exact sameScreen_textCursorDown font hG h fun hl =>
        hhide (.inr (.inr (.inr (.inl ⟨rfl, hl⟩))))
    · have hputc : textPutc G font t 0x88#8 = textCursorLeft G font t := by simp [textPutc]
      rw [hputc]
      exact sameScreen_textCursorLeft font hG h fun hx =>
        hhide (.inr (.inr (.inr (.inr (.inl ⟨.inl rfl, hx⟩)))))
    · have hputc : textPutc G font t 0x89#8 = textCursorRight G font t := by simp [textPutc]
      rw [hputc]
      exact sameScreen_textCursorRight font hG h fun hl =>
        hhide (.inr (.inr (.inr (.inr (.inr ⟨rfl, hl⟩)))))
    · have hputc : textPutc G font t 0x91#8 = textClearCursor G t := by simp [textPutc]
      have hfields := textClearCursor_fields font hG h.cell
      rw [hputc, underlying_of_hidden hfields.2.2.1]
      exact textClearCursor_shown hG h.cell (hhide (.inl rfl))
    · have hputc : textPutc G font t 0x92#8 = textDrawCursor G font t := by simp [textPutc]
      rw [hputc, underlying_of_hidden (hshow rfl)]
      exact textDrawCursor_underlying font hG h.cell
  · rw [if_neg hmem]
    simp only [List.mem_cons, List.not_mem_nil, or_false, not_or] at hmem
    obtain ⟨h86, h87, h88, h89, h91, h92⟩ := hmem
    obtain ⟨f, m, a, heq, hoff, hin⟩ := clear_draw_spec font hG h c
    have hputc : textPutc G font t c = textAdvanceCursorRight G font
        { t with fb := f, pixelsAtCursor := m, cursorEnabled := false, accesses := a } := by
      rw [textPutc, if_neg h0A, if_neg h08, if_neg h86, if_neg h87, if_neg h88, if_neg h89,
        if_neg h90, if_neg h91, if_neg h92]
      dsimp only
      rw [heq]
    refine ⟨f, hoff, hin, fun px row j ho => ?_⟩
    rw [hputc]
    exact textAdvanceCursorRight_underlying hG
      (t := { t with fb := f, pixelsAtCursor := m, cursorEnabled := false, accesses := a })
      h.cell ho

/-- **Text survives the cursor**: after `initGraphics` and any bytes, the next byte, when it is
paired, edits the underlying screen as it should. -/
theorem text_edits_of_paired
    (hinit : initGraphics A font (Text.boot fb) width height depth = some (G, t))
    (hwidth : width < 2 ^ 16) (hheight : height < 2 ^ 16) (h16 : 16 ≤ width) (h24 : 24 ≤ height)
    (hsize : G.fbP * G.fbH < 2 ^ 32) (hdepth : 24 ≤ depth)
    (hblank : ∀ cy < characterSizeY, font (0x20 * characterSizeY + cy) = 0#8)
    (cs : List (BitVec 8)) (c : BitVec 8) (hpaired : PairedByte G (textPuts G font t cs) c) :
    TextEdits G font (textPuts G font t cs) (textPuts G font t (cs ++ [c])) c := by
  obtain ⟨rfl, h32, rfl⟩ := initGraphics_eq_some hinit
  have hG : Graphics.Deep ⟨width, height, width * (depth / 8), depth / 8⟩ :=
    ⟨⟨by dsimp only; omega, rfl, h16, hwidth, h24, hheight, hsize⟩, by dsimp only; omega,
      by dsimp only; omega⟩
  have hputs : ∀ t, textPuts ⟨width, height, width * (depth / 8), depth / 8⟩ font t (cs ++ [c]) =
      textPutc ⟨width, height, width * (depth / 8), depth / 8⟩ font
        (textPuts ⟨width, height, width * (depth / 8), depth / 8⟩ font t cs) c := fun t => by
    rw [textPuts, textPuts, List.foldl_append]
    rfl
  rw [hputs]
  exact textPutc_edits hG ((console_boot hG.toFits).textPuts hG.toFits cs) hblank hpaired

end

section

variable {G : Graphics} {t : Text} {x y : ℕ}

/-- A move ends on the cell it names, with the cursor shown. -/
theorem textMoveCursor_shown (font : ℕ → BitVec 8) (hG : G.Fits) (t : Text) {x' y' : ℤ}
    (hx : x' = x) (hy : y' = y) (hcell : CellFits G x y) :
    (textMoveCursor G font t x' y').cursorX = x ∧ (textMoveCursor G font t x' y').cursorY = y ∧
      (textMoveCursor G font t x' y').cursorEnabled = true := by
  rw [textMoveCursor_eq font hG t hcell hx hy]
  have htouch : Touches G _ (textDrawCursor G font { t with cursorX := x, cursorY := y }) :=
    textDrawCursor_touches hG hcell
  exact ⟨htouch.cursorX, htouch.cursorY, rfl⟩

/-- A letter in the first column moves the cursor to the second one. -/
theorem textPutc_letter (font : ℕ → BitVec 8) (hG : G.Deep) (h : Console G t)
    (hx : t.cursorX = 4) (hwide : 26 ≤ G.fbW) : (textPutc G font t 0x41#8).cursorX = 14 := by
  have hcell := cellFits_iff.mp h.cell
  obtain ⟨f, m, a, heq, -, -⟩ := clear_draw_spec font hG h 0x41#8
  have hputc : textPutc G font t 0x41#8 = textAdvanceCursorRight G font
      { t with fb := f, pixelsAtCursor := m, cursorEnabled := false, accesses := a } := by
    rw [← heq]
    simp [textPutc]
  have hcol : ¬Text.onLastColumn G
      { t with fb := f, pixelsAtCursor := m, cursorEnabled := false, accesses := a } := by
    rw [Text.onLastColumn_iff hG.toFits]
    dsimp only
    omega
  rw [hputc, textAdvanceCursorRight, if_neg fun hend => hcol hend.2, if_neg hcol]
  exact (textMoveCursor_shown font hG.toFits _ (x := 14) (y := t.cursorY)
    (by simp only [spacingX, characterSizeX]; omega) rfl
    (cellFits_iff.mpr ⟨by omega, hcell.2⟩)).1

/-- The cursor goes back to the first column, and is shown there. -/
theorem textPutc_left (font : ℕ → BitVec 8) (hG : G.Deep) (h : Console G t)
    (hx : t.cursorX = 14) :
    (textPutc G font t 0x88#8).cursorX = 4 ∧ (textPutc G font t 0x88#8).cursorEnabled = true := by
  have hcell := cellFits_iff.mp h.cell
  obtain ⟨hcx, hcy, -⟩ := textClearCursor_fields font hG h.cell
  have hputc : textPutc G font t 0x88#8 = textCursorLeft G font t := by simp [textPutc]
  rw [hputc, textCursorLeft, if_neg (by rw [hx]; decide)]
  dsimp only
  rw [hcx, hcy, hx]
  have hback : ((14 : ℕ) : ℤ) - spacingX - characterSizeX = (4 : ℕ) := by norm_num
  obtain ⟨h1, -, h3⟩ := textMoveCursor_shown font hG.toFits (textClearCursor G t) hback rfl
    (cellFits_iff.mpr ⟨by omega, hcell.2⟩)
  exact ⟨h1, h3⟩

end

/-- A font in which every character but the space has a glyph. -/
def letterFont : ℕ → BitVec 8 := fun i =>
  if i / characterSizeY = 0x20 then 0#8 else BitVec.ofNat 8 i

theorem letterFont_space (cy : ℕ) (hcy : cy < characterSizeY) :
    letterFont (0x20 * characterSizeY + cy) = 0#8 := by
  simp only [characterSizeY] at hcy
  have hspace : (0x20 * characterSizeY + cy) / characterSizeY = 0x20 := by
    simp only [characterSizeY]
    omega
  rw [letterFont, if_pos hspace]

/-- On a screen that is not blank, `A` is printed and the cursor goes back onto it: moving on to
the right leaves the letter on the screen. -/
theorem text_edits_of_paired_1024 : ∃ G t,
    initGraphics vbeAdapter letterFont (Text.boot (BitVec.ofNat 8)) 1024 768 32 = some (G, t) ∧
      t.cursorX = 4 ∧ (textPuts G letterFont t [0x41#8]).cursorX = 14 ∧
      (textPuts G letterFont t [0x41#8, 0x88#8]).cursorX = 4 ∧
      TextEdits G letterFont (textPuts G letterFont t [0x41#8, 0x88#8])
        (textPuts G letterFont t [0x41#8, 0x88#8, 0x89#8]) 0x89#8 := by
  obtain ⟨G, t, hinit⟩ : ∃ G t,
      initGraphics vbeAdapter letterFont (Text.boot (BitVec.ofNat 8)) 1024 768 32 = some (G, t) :=
    ⟨_, _, rfl⟩
  obtain ⟨hGe, -, ht⟩ := initGraphics_eq_some hinit
  have hG : G.Deep := by
    rw [hGe]
    exact ⟨⟨by norm_num, rfl, by norm_num, by norm_num, by norm_num, by norm_num, by norm_num⟩,
      by norm_num, by norm_num⟩
  have hcon : Console G t := by
    rw [ht]
    exact console_boot hG.toFits
  have hx : t.cursorX = 4 := by
    rw [ht]
    exact (textMoveCursor_shown letterFont hG.toFits _ (x := 4) (y := 4) rfl rfl
      (cellFits_iff.mpr ⟨by rw [hGe]; norm_num, by rw [hGe]; norm_num⟩)).1
  have hA := textPutc_letter letterFont hG hcon hx (by rw [hGe]; norm_num)
  have hconA : Console G (textPutc G letterFont t 0x41#8) := hcon.textPutc hG.toFits 0x41#8
  obtain ⟨hleft, hshown⟩ := textPutc_left letterFont hG hconA hA
  have hputs : textPuts G letterFont t [0x41#8, 0x88#8] =
      textPutc G letterFont (textPutc G letterFont t 0x41#8) 0x88#8 := by
    rw [textPuts, List.foldl_cons, List.foldl_cons, List.foldl_nil]
  have hedits := text_edits_of_paired hinit (by norm_num) (by norm_num) (by norm_num) (by norm_num)
    (by rw [hGe]; norm_num) (by norm_num) letterFont_space [0x41#8, 0x88#8] 0x89#8
    ⟨fun h => absurd h (by decide), fun _ => by rw [hputs]; exact hshown⟩
  refine ⟨G, t, hinit, hx, ?_, by rw [hputs]; exact hleft, hedits⟩
  rw [textPuts, List.foldl_cons, List.foldl_nil]
  exact hA

/-- A font whose only glyph is the full block of the cursor. -/
def blockFont : ℕ → BitVec 8 := fun i => if i / characterSizeY = 219 then 0xFF#8 else 0#8

/-- Showing the cursor a second time saves the block that the first time drew. -/
theorem textDrawCursor_twice (font : ℕ → BitVec 8) {G : Graphics} {t : Text} (hG : G.Deep)
    (h : CellFits G t.cursorX t.cursorY) {px row j : ℕ} (ho : G.OnScreen px row j)
    (hin : InCell t.cursorX t.cursorY px row) (hj : j < 3) :
    underlying G (textDrawCursor G font (textDrawCursor G font t)) (G.byteAt px row j) =
      glyphByte font t 219#8 (px - t.cursorX) (row - t.cursorY) j := by
  obtain ⟨f, m, a, heq, -, hf⟩ := textDrawCursor_spec font hG h
  have htwice := textDrawCursor_underlying font hG
    (t := { t with fb := f, pixelsAtCursor := m, cursorEnabled := true, accesses := a })
    h px row j ho
  rw [heq, htwice]
  exact (hf px row j ho.column ho.byte).trans (if_pos ⟨hin, hj⟩)

/-- **Showing the cursor twice** leaves the block in the text. -/
theorem text_lost_by_showing_twice : ¬∀ (A : Adapter) (font : ℕ → BitVec 8) (fb : Mem)
    (width height depth : ℕ) (G : Graphics) (t : Text),
    initGraphics A font (Text.boot fb) width height depth = some (G, t) →
    width < 2 ^ 16 → height < 2 ^ 16 → 16 ≤ width → 24 ≤ height → G.fbP * G.fbH < 2 ^ 32 →
    (∀ cy < characterSizeY, font (0x20 * characterSizeY + cy) = 0#8) →
      ∀ cs c, TextEdits G font (textPuts G font t cs) (textPuts G font t (cs ++ [c])) c := by
  intro h
  obtain ⟨G, hGe⟩ : ∃ G : Graphics, G = ⟨1024, 768, 1024 * (32 / 8), 32 / 8⟩ := ⟨_, rfl⟩
  have hG : G.Deep := by
    rw [hGe]
    exact ⟨⟨by norm_num, rfl, by norm_num, by norm_num, by norm_num, by norm_num, by norm_num⟩,
      by norm_num, by norm_num⟩
  have hcell : CellFits G 4 4 := cellFits_iff.mpr ⟨by rw [hGe]; norm_num, by rw [hGe]; norm_num⟩
  have ho : G.OnScreen 4 4 0 :=
    ⟨by rw [hGe]; norm_num, by rw [hGe]; norm_num, by rw [hGe]; norm_num⟩
  obtain ⟨t, ht⟩ : ∃ t : Text, t = { Text.boot fun _ => 0#8 with cursorX := 4, cursorY := 4 } :=
    ⟨_, rfl⟩
  have hx : t.cursorX = 4 := by rw [ht]
  have hy : t.cursorY = 4 := by rw [ht]
  have hinit : initGraphics vbeAdapter blockFont (Text.boot fun _ => 0#8) 1024 768 32 =
      some (G, textDrawCursor G blockFont t) := by
    rw [hGe, ht]
    rfl
  have hedit := h vbeAdapter blockFont (fun _ => 0#8) 1024 768 32 _ _ hinit (by norm_num)
    (by norm_num) (by norm_num) (by norm_num) (by rw [hGe]; norm_num)
    (fun cy hcy => by
      rw [blockFont, if_neg]
      simp only [characterSizeY] at hcy ⊢
      omega) [] 0x92#8
  have hputs : textPuts G blockFont (textDrawCursor G blockFont t) ([] ++ [0x92#8]) =
      textDrawCursor G blockFont (textDrawCursor G blockFont t) := by simp [textPuts, textPutc]
  have hnil : textPuts G blockFont (textDrawCursor G blockFont t) [] =
      textDrawCursor G blockFont t := rfl
  rw [TextEdits, if_neg (by decide), if_neg (by decide), if_neg (by decide),
    if_pos (by simp), hputs, hnil] at hedit
  replace hcell : CellFits G t.cursorX t.cursorY := by rwa [hx, hy]
  have hbefore := textDrawCursor_underlying blockFont hG hcell 4 4 0 ho
  have hafter := textDrawCursor_twice blockFont hG hcell ho
    (by rw [hx, hy]; exact ⟨le_rfl, by norm_num, le_rfl, by norm_num⟩) (by norm_num)
  have hsame := hedit 4 4 0 ho
  rw [hbefore, hafter, hx, hy] at hsame
  have hglyph : glyphByte blockFont t 219#8 (4 - 4) (4 - 4) 0 = 0xFF#8 := by
    rw [ht]
    rfl
  have hzero : t.fb (G.byteAt 4 4 0) = 0#8 := by rw [ht]; rfl
  rw [hglyph, hzero] at hsame
  exact absurd hsame (by decide)

end AnglOS

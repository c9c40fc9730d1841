import AnglOS.TextScreen

/-!
# The Cursor and the Text Under It

What the user sees of the text is the framebuffer with the cell under the cursor replaced by the
pixels that `textDrawCursor` saved: the underlying screen. Hiding the cursor puts the saved pixels
back and forgets them, showing it saves the cell again.

## Main results

* `textClearCursor_shown`, `textDrawCursor_underlying` — hiding and showing the cursor;
* `sameScreen_textCursorUp` and its companions — while the cursor is shown, its keys leave the
  underlying screen as it is.
-/

namespace AnglOS

/-! ### The underlying screen -/

/-- **The underlying screen**: the framebuffer with, while the cursor is shown, the cell at the
cursor replaced by the saved pixels. -/
def underlying (G : Graphics) (t : Text) : Mem := fun o =>
  if t.cursorEnabled = true ∧
      (t.cursorX * G.fbBpp ≤ o % G.fbP ∧ o % G.fbP < (t.cursorX + characterSizeX) * G.fbBpp) ∧
      t.cursorY ≤ o / G.fbP ∧ o / G.fbP < t.cursorY + characterSizeY then
    t.pixelsAtCursor (32 * (o / G.fbP - t.cursorY) + (o % G.fbP - t.cursorX * G.fbBpp))
  else t.fb o

/-- Two screens have the same pixels. -/
def SameScreen (G : Graphics) (u v : Mem) : Prop :=
  ∀ px row j, G.OnScreen px row j → u (G.byteAt px row j) = v (G.byteAt px row j)

section

variable {G : Graphics} {font : ℕ → BitVec 8} {t t' : Text} {u v : Mem} {x y px row j n : ℕ}

theorem SameScreen.trans {w : Mem} (h : SameScreen G u v) (h' : SameScreen G v w) :
    SameScreen G u w :=
  fun px row j ho => (h px row j ho).trans (h' px row j ho)

theorem underlying_of_hidden (h : t.cursorEnabled = false) : underlying G t = t.fb := by
  funext o
  rw [underlying, if_neg (by simp [h])]

/-- A byte of the underlying screen. -/
theorem underlying_byteAt (hG : G.Fits) (hpx : px < G.fbW) (hj : j < G.fbBpp) :
    underlying G t (G.byteAt px row j) =
      if t.cursorEnabled = true ∧ InCell t.cursorX t.cursorY px row then
        t.pixelsAtCursor (32 * (row - t.cursorY) + (px - t.cursorX) * G.fbBpp + j)
      else t.fb (G.byteAt px row j) := by
  have hc := hG.column_lt hpx hj
  have hdiv : G.byteAt px row j / G.fbP = row := by
    rw [Graphics.byteAt, Nat.add_mul_div_right _ _ (by omega), Nat.div_eq_of_lt hc, Nat.zero_add]
  have hmod : G.byteAt px row j % G.fbP = px * G.fbBpp + j := by
    rw [Graphics.byteAt, Nat.add_mul_mod_self_right, Nat.mod_eq_of_lt hc]
  have hcol : t.cursorX * G.fbBpp ≤ px * G.fbBpp + j ∧
      px * G.fbBpp + j < (t.cursorX + characterSizeX) * G.fbBpp ↔
      t.cursorX ≤ px ∧ px < t.cursorX + characterSizeX :=
    block_mem_iff hj
  rw [underlying, hdiv, hmod]
  by_cases hin : t.cursorEnabled = true ∧ InCell t.cursorX t.cursorY px row
  · obtain ⟨hen, h1, h2, h3, h4⟩ := hin
    rw [if_pos ⟨hen, hcol.mpr ⟨h1, h2⟩, h3, h4⟩, if_pos ⟨hen, h1, h2, h3, h4⟩]
    obtain ⟨cx, hcx⟩ := Nat.exists_eq_add_of_le h1
    congr 1
    rw [hcx, Nat.add_sub_cancel_left, Nat.add_mul]
    omega
  · rw [if_neg hin, if_neg]
    rintro ⟨hen, hcols, h3, h4⟩
    obtain ⟨h1, h2⟩ := hcol.mp hcols
    exact hin ⟨hen, h1, h2, h3, h4⟩

/-- **Hiding the cursor**: the saved pixels go back to the cell. -/
theorem textClearCursor_spec (hG : G.Deep) (h : CellFits G t.cursorX t.cursorY) :
    ∃ f m a, textClearCursor G t =
        { t with fb := f, pixelsAtCursor := m, cursorEnabled := false, accesses := a } ∧
      ∀ px row j, px < G.fbW → j < G.fbBpp → f (G.byteAt px row j) =
        if InCell t.cursorX t.cursorY px row then
          t.pixelsAtCursor (32 * (row - t.cursorY) + (px - t.cursorX) * G.fbBpp + j)
        else t.fb (G.byteAt px row j) := by
  obtain ⟨f, a, heq, hf⟩ := textRestoreCell_spec hG h
  exact ⟨f, _, a, by rw [textClearCursor, heq], hf⟩

/-- **Showing the cursor**: the cell is saved, and a full block is drawn over it. -/
theorem textDrawCursor_spec (font : ℕ → BitVec 8) (hG : G.Deep)
    (h : CellFits G t.cursorX t.cursorY) :
    ∃ f m a, textDrawCursor G font t =
        { t with fb := f, pixelsAtCursor := m, cursorEnabled := true, accesses := a } ∧
      (∀ px row j, j < G.fbBpp → InCell t.cursorX t.cursorY px row →
        m (32 * (row - t.cursorY) + (px - t.cursorX) * G.fbBpp + j) = t.fb (G.byteAt px row j)) ∧
      ∀ px row j, px < G.fbW → j < G.fbBpp → f (G.byteAt px row j) =
        if InCell t.cursorX t.cursorY px row ∧ j < 3 then
          glyphByte font t 219#8 (px - t.cursorX) (row - t.cursorY) j
        else t.fb (G.byteAt px row j) := by
  obtain ⟨m, a, hsave, hm⟩ := textSaveCell_spec hG h
  obtain ⟨f, a', hdraw, hf⟩ := textDrawChar_spec font hG
    { t with pixelsAtCursor := m, accesses := a } h 219#8
  refine ⟨f, m, a', ?_, hm, hf⟩
  rw [textDrawCursor, hsave, textDrawCharAtCursor]
  dsimp only
  rw [hdraw]

/-- While the cursor is shown, hiding it uncovers the underlying screen. -/
theorem textClearCursor_shown (hG : G.Deep) (h : CellFits G t.cursorX t.cursorY)
    (hshown : t.cursorEnabled = true) :
    SameScreen G (textClearCursor G t).fb (underlying G t) := by
  obtain ⟨f, m, a, heq, hf⟩ := textClearCursor_spec hG h
  intro px row j ho
  rw [heq, underlying_byteAt hG.toFits ho.column ho.byte]
  dsimp only
  rw [hf px row j ho.column ho.byte]
  refine if_congr ?_ rfl rfl
  simp [hshown]

/-- Hiding the cursor changes the cell under it only. -/
theorem textClearCursor_off (hG : G.Deep) (h : CellFits G t.cursorX t.cursorY)
    (ho : G.OnScreen px row j) (hcell : ¬InCell t.cursorX t.cursorY px row) :
    (textClearCursor G t).fb (G.byteAt px row j) = underlying G t (G.byteAt px row j) := by
  obtain ⟨f, m, a, heq, hf⟩ := textClearCursor_spec hG h
  rw [heq, underlying_byteAt hG.toFits ho.column ho.byte, if_neg fun hin => hcell hin.2]
  dsimp only
  rw [hf px row j ho.column ho.byte, if_neg hcell]

/-- **Showing the cursor** makes the framebuffer the underlying screen. -/
theorem textDrawCursor_underlying (font : ℕ → BitVec 8) (hG : G.Deep)
    (h : CellFits G t.cursorX t.cursorY) :
    SameScreen G (underlying G (textDrawCursor G font t)) t.fb := by
  obtain ⟨f, m, a, heq, hm, hf⟩ := textDrawCursor_spec font hG h
  intro px row j ho
  rw [heq, underlying_byteAt hG.toFits ho.column ho.byte]
  dsimp only
  by_cases hin : InCell t.cursorX t.cursorY px row
  · rw [if_pos ⟨rfl, hin⟩]
    exact hm px row j ho.byte hin
  · rw [if_neg fun h => hin h.2, hf px row j ho.column ho.byte, if_neg fun h => hin h.1]

/-- Moving the cursor makes the framebuffer the underlying screen. -/
theorem textMoveCursor_underlying (hG : G.Deep) {x' y' : ℤ} (hx : x' = x) (hy : y' = y)
    (h : CellFits G x y) : SameScreen G (underlying G (textMoveCursor G font t x' y')) t.fb := by
  rw [textMoveCursor_eq font hG.toFits t h hx hy]
  exact textDrawCursor_underlying font hG h

end

/-! ### Moving the cursor -/

section

variable {G : Graphics} {font : ℕ → BitVec 8} {t t' : Text} {u v : Mem} {x y px row j n : ℕ}

/-- The cursor after hiding it. -/
theorem textClearCursor_fields (font : ℕ → BitVec 8) (hG : G.Deep)
    (h : CellFits G t.cursorX t.cursorY) :
    (textClearCursor G t).cursorX = t.cursorX ∧ (textClearCursor G t).cursorY = t.cursorY ∧
      (textClearCursor G t).cursorEnabled = false ∧
      ∀ c cx cy j, glyphByte font (textClearCursor G t) c cx cy j = glyphByte font t c cx cy j := by
  obtain ⟨f, m, a, heq, -⟩ := textClearCursor_spec hG h
  rw [heq]
  exact ⟨rfl, rfl, rfl, fun _ _ _ _ => rfl⟩

/-- A move keeps the underlying screen while the cursor is shown. -/
theorem sameScreen_move (hG : G.Deep) (h : Console G t) (hshown : t.cursorEnabled = true)
    {x' y' : ℤ} (hx : x' = x) (hy : y' = y) (hcell : CellFits G x y) :
    SameScreen G (underlying G (textMoveCursor G font (textClearCursor G t) x' y'))
      (underlying G t) :=
  (textMoveCursor_underlying hG hx hy hcell).trans (textClearCursor_shown hG h.cell hshown)

/-- Scrolling two screens with the same pixels. -/
theorem SameScreen.scrolled_eq (h : SameScreen G u v) (ho : G.OnScreen px row j) :
    scrolled G y u px row j = scrolled G y v px row j := by
  rw [scrolled, scrolled]
  refine if_congr Iff.rfl rfl ?_
  by_cases hrow : row < G.fbH - (textMargin + spacingY + characterSizeY)
  · rw [if_pos hrow, if_pos hrow]
    simp only [textMargin, spacingY, characterSizeY] at hrow ⊢
    exact h px _ j ⟨ho.column, by omega, ho.byte⟩
  · rw [if_neg hrow, if_neg hrow]
    exact h px row j ho

/-- Scrolling while the cursor is hidden, and moving it to a cell. -/
theorem scroll_move (hG : G.Deep) {x' y' : ℤ} (hx : x' = x) (hy : y' = y) (hcell : CellFits G x y)
    (ho : G.OnScreen px row j) :
    underlying G (textMoveCursor G font (textMoveScreenUpOneLine G t) x' y') (G.byteAt px row j) =
      scrolled G t.cursorY t.fb px row j := by
  obtain ⟨f, a, heq, hf⟩ := textMoveScreenUpOneLine_spec hG t
  rw [textMoveCursor_underlying hG hx hy hcell px row j ho, heq]
  exact hf px row j ho.column ho.byte

/-- The cursor keys and the bytes that hide and show the cursor. -/
theorem sameScreen_textCursorUp (font : ℕ → BitVec 8) (hG : G.Deep) (h : Console G t)
    (hshown : t.cursorY ≠ textMargin → t.cursorEnabled = true) :
    SameScreen G (underlying G (textCursorUp G font t)) (underlying G t) := by
  rw [textCursorUp]
  split_ifs with htop
  · exact fun _ _ _ _ => rfl
  · obtain ⟨hx, hy, -⟩ := textClearCursor_fields font hG h.cell
    obtain ⟨a, b, ha, hb⟩ := h.grid
    have hcell := cellFits_iff.mp h.cell
    dsimp only
    rw [hx, hy]
    simp only [textMargin] at htop
    exact sameScreen_move hG h (hshown htop) (y := t.cursorY - 20) rfl
      (by simp only [spacingY, characterSizeY]; omega) (cellFits_iff.mpr ⟨by omega, by omega⟩)

theorem sameScreen_textCursorDown (font : ℕ → BitVec 8) (hG : G.Deep) (h : Console G t)
    (hshown : ¬t.onLastLine G → t.cursorEnabled = true) :
    SameScreen G (underlying G (textCursorDown G font t)) (underlying G t) := by
  rw [textCursorDown]
  split_ifs with hlast
  · exact fun _ _ _ _ => rfl
  · obtain ⟨hx, hy, -⟩ := textClearCursor_fields font hG h.cell
    have hcell := cellFits_iff.mp h.cell
    have hshow := hshown hlast
    rw [Text.onLastLine_iff hG.toFits] at hlast
    dsimp only
    rw [hx, hy]
    exact sameScreen_move hG h hshow (y := t.cursorY + 20) rfl
      (by simp only [spacingY, characterSizeY]; omega) (cellFits_iff.mpr ⟨by omega, by omega⟩)

theorem sameScreen_textCursorLeft (font : ℕ → BitVec 8) (hG : G.Deep) (h : Console G t)
    (hshown : t.cursorX ≠ textMargin → t.cursorEnabled = true) :
    SameScreen G (underlying G (textCursorLeft G font t)) (underlying G t) := by
  rw [textCursorLeft]
  split_ifs with hleft
  · exact fun _ _ _ _ => rfl
  · obtain ⟨hx, hy, -⟩ := textClearCursor_fields font hG h.cell
    obtain ⟨a, b, ha, hb⟩ := h.grid
    have hcell := cellFits_iff.mp h.cell
    dsimp only
    rw [hx, hy]
    simp only [textMargin] at hleft
    exact sameScreen_move hG h (hshown hleft) (x := t.cursorX - 10)
      (by simp only [spacingX, characterSizeX]; omega) rfl (cellFits_iff.mpr ⟨by omega, by omega⟩)

theorem sameScreen_textCursorRight (font : ℕ → BitVec 8) (hG : G.Deep) (h : Console G t)
    (hshown : ¬t.onLastColumn G → t.cursorEnabled = true) :
    SameScreen G (underlying G (textCursorRight G font t)) (underlying G t) := by
  rw [textCursorRight]
  split_ifs with hlast
  · exact fun _ _ _ _ => rfl
  · obtain ⟨hx, hy, -⟩ := textClearCursor_fields font hG h.cell
    have hcell := cellFits_iff.mp h.cell
    have hshow := hshown hlast
    rw [Text.onLastColumn_iff hG.toFits] at hlast
    dsimp only
    rw [hx, hy]
    exact sameScreen_move hG h hshow (x := t.cursorX + 10)
      (by simp only [spacingX, characterSizeX]; omega) rfl (cellFits_iff.mpr ⟨by omega, by omega⟩)

end

end AnglOS

import AnglOS.Text

/-!
# The Console Stays Inside the Framebuffer

The cursor stands on a grid of cells that fit on the screen with their margins, whatever bytes
were given to `textPutc`, and then no access leaves the framebuffer. This needs a pixel to have at
least one byte: `initGraphics` divides the depth by eight, and for a depth below eight the pitch
is zero, so that the framebuffer has no bytes while `graphicsPutpixel` stores three.

## Main results

* `Console.textPutc` — one byte keeps the cursor on the grid and the accesses inside;
* `console_inside_iff` — the console stays inside for every sequence of bytes exactly when the
  depth is at least eight.
-/

namespace AnglOS

/-- The resolutions of the results: the screen has room for a cell and its margins, and offsets
fit 32 bits. -/
structure Graphics.Fits (G : Graphics) : Prop where
  bpp : 1 ≤ G.fbBpp
  pitch : G.fbP = G.fbW * G.fbBpp
  width : 16 ≤ G.fbW
  width_lt : G.fbW < 2 ^ 16
  height : 24 ≤ G.fbH
  height_lt : G.fbH < 2 ^ 16
  size : G.fbP * G.fbH < 2 ^ 32

/-- The bytes of an access lie in the framebuffer. -/
def InFrame (G : Graphics) (a : ℕ × ℕ) : Prop :=
  ∀ k < a.2, a.1 + k < G.fbP * G.fbH

/-- The cell at `x` and `y` fits on the screen with its margins. -/
def CellFits (G : Graphics) (x y : ℕ) : Prop :=
  x + characterSizeX + textMargin ≤ G.fbW ∧ y + characterSizeY + textMargin ≤ G.fbH

/-- **The console stays inside the framebuffer**: the cursor stands on the grid, no position was
cut, and every access was inside. -/
structure ConsoleInside (G : Graphics) (t : Text) : Prop where
  grid : ∃ a b, t.cursorX = 4 + 10 * a ∧ t.cursorY = 4 + 20 * b
  cell : CellFits G t.cursorX t.cursorY
  not_wrapped : t.wrapped = false
  accesses : ∀ a ∈ t.accesses, InFrame G a

/-! ### What an operation touches -/

/-- The cursor and the colours stay, and every new access is inside the framebuffer. -/
structure Touches (G : Graphics) (t t' : Text) : Prop where
  cursorX : t'.cursorX = t.cursorX
  cursorY : t'.cursorY = t.cursorY
  wrapped : t'.wrapped = t.wrapped
  background : t'.backgroundColor = t.backgroundColor
  foreground : t'.foregroundColor = t.foregroundColor
  accesses : ∀ a ∈ t'.accesses, a ∈ t.accesses ∨ InFrame G a

section

variable {G : Graphics} {font : ℕ → BitVec 8} {t t' t'' : Text} {x y : ℕ}

theorem Touches.refl (G : Graphics) (t : Text) : Touches G t t :=
  ⟨rfl, rfl, rfl, rfl, rfl, fun _ ha => Or.inl ha⟩

theorem Touches.trans (h : Touches G t t') (h' : Touches G t' t'') : Touches G t t'' where
  cursorX := h'.cursorX.trans h.cursorX
  cursorY := h'.cursorY.trans h.cursorY
  wrapped := h'.wrapped.trans h.wrapped
  background := h'.background.trans h.background
  foreground := h'.foreground.trans h.foreground
  accesses a ha := by
    rcases h'.accesses a ha with ha | ha
    · exact h.accesses a ha
    · exact Or.inr ha

/-- A loop whose body touches the framebuffer only. -/
theorem Touches.loop {f : ℕ → Text → Text} {n : ℕ}
    (h : ∀ i < n, ∀ t', Touches G t t' → Touches G t' (f i t')) : Touches G t (loop f n t) :=
  loop_invariant (fun _ t' => Touches G t t') (Touches.refl G t)
    fun i hi t' ht' => ht'.trans (h i hi t' ht')

/-- Writing to the framebuffer or to `pixels_at_cursor` with one access. -/
theorem Touches.access (t : Text) (f m : Mem) {a : ℕ × ℕ} (hin : InFrame G a) :
    Touches G t { t with fb := f, pixelsAtCursor := m, accesses := a :: t.accesses } where
  cursorX := rfl
  cursorY := rfl
  wrapped := rfl
  background := rfl
  foreground := rfl
  accesses b hb := by
    rcases List.mem_cons.mp hb with rfl | hb
    · exact Or.inr hin
    · exact Or.inl hb

/-- Saving pixels and showing or hiding the cursor touches nothing. -/
theorem Touches.shown (G : Graphics) (t : Text) (m : Mem) (b : Bool) :
    Touches G t { t with pixelsAtCursor := m, cursorEnabled := b } :=
  ⟨rfl, rfl, rfl, rfl, rfl, fun _ ha => Or.inl ha⟩

/-- A range of a row lies in the framebuffer. -/
theorem Graphics.row_lt (G : Graphics) {k : ℕ} (hk : k < G.fbP) (hy : y < G.fbH) :
    k + y * G.fbP < G.fbP * G.fbH := by
  calc k + y * G.fbP < G.fbP + y * G.fbP := by omega
    _ = (y + 1) * G.fbP := by ring
    _ ≤ G.fbH * G.fbP := Nat.mul_le_mul_right _ hy
    _ = G.fbP * G.fbH := Nat.mul_comm _ _

/-- The bytes of `n` pixels from column `x` on lie in their row. -/
theorem Graphics.Fits.column_le (hG : G.Fits) {n : ℕ} (h : x + n ≤ G.fbW) :
    x * G.fbBpp + G.fbBpp * n ≤ G.fbP := by
  rw [hG.pitch]
  calc x * G.fbBpp + G.fbBpp * n = (x + n) * G.fbBpp := by ring
    _ ≤ G.fbW * G.fbBpp := Nat.mul_le_mul_right _ h

theorem Text.poke_touches (t : Text) {offset : ℕ} (h : offset < G.fbP * G.fbH) (v : BitVec 8) :
    Touches G t (t.poke offset v) := by
  refine Touches.access _ _ _ fun k hk => ?_
  dsimp only at hk ⊢
  rwa [Nat.lt_one_iff.mp hk]

/-- `graphicsPutpixel` stores inside the framebuffer when two more pixels follow in the row. -/
theorem graphicsPutpixel_touches (hG : G.Fits) (t : Text) (hx : x + 3 ≤ G.fbW) (hy : y < G.fbH)
    (color : BitVec 32) : Touches G t (graphicsPutpixel G t x y color) := by
  have hcol := hG.column_le hx
  have hbpp := hG.bpp
  have hrow : ∀ k < 3, x * G.fbBpp + k + y * G.fbP < G.fbP * G.fbH := fun k hk =>
    G.row_lt (by omega) hy
  have hsize := hG.size
  have h16 : x % 2 ^ 16 = x ∧ y % 2 ^ 16 = y :=
    ⟨Nat.mod_eq_of_lt (by have := hG.width_lt; omega),
      Nat.mod_eq_of_lt (by have := hG.height_lt; omega)⟩
  have h0 := hrow 0 (by norm_num)
  have h1 := hrow 1 (by norm_num)
  have h2 := hrow 2 (by norm_num)
  rw [graphicsPutpixel, h16.1, h16.2]
  obtain ⟨o, ho⟩ : ∃ o, o = x * G.fbBpp + y * G.fbP := ⟨_, rfl⟩
  simp only [← ho]
  rw [Nat.mod_eq_of_lt (show o < 2 ^ 32 by omega), Nat.mod_eq_of_lt (show o + 1 < 2 ^ 32 by omega),
    Nat.mod_eq_of_lt (show o + 2 < 2 ^ 32 by omega)]
  exact ((t.poke_touches (by omega) _).trans (Text.poke_touches _ (by omega) _)).trans
    (Text.poke_touches _ (by omega) _)

/-- `textDrawChar` in a cell that fits. -/
theorem textDrawChar_touches (hG : G.Fits) (t : Text) (h : CellFits G x y) (c : BitVec 8)
    (transparent : Bool) : Touches G t (textDrawChar G font t c x y transparent) := by
  simp only [CellFits, characterSizeX, characterSizeY, textMargin] at h
  refine Touches.loop fun cy hcy t' _ => Touches.loop fun cx hcx t'' _ => ?_
  simp only [characterSizeX, characterSizeY] at hcx hcy
  have hput := graphicsPutpixel_touches hG t'' (x := x + cx) (y := y + cy) (by omega) (by omega)
  split_ifs
  · exact hput _
  · exact Touches.refl G t''
  · exact hput _
  · exact hput _

/-- The rows of the cell at the cursor lie in the framebuffer. -/
theorem Text.cursorRow_inFrame (hG : G.Fits) (h : CellFits G t.cursorX t.cursorY) {cy : ℕ}
    (hcy : cy < characterSizeY) : InFrame G (t.cursorRow G cy, G.fbBpp * characterSizeX) := by
  intro k hk
  have hsize := hG.size
  have hcol := hG.column_le (x := t.cursorX) (n := characterSizeX) (by have := h.1; omega)
  have hrow : t.cursorX * G.fbBpp + k + (t.cursorY + cy) * G.fbP < G.fbP * G.fbH :=
    G.row_lt (by dsimp only at hk; omega) (by have := h.2; omega)
  dsimp only
  rw [Text.cursorRow, Nat.mod_eq_of_lt (by omega)]
  omega

theorem textSaveCell_touches (hG : G.Fits) (h : CellFits G t.cursorX t.cursorY) :
    Touches G t (textSaveCell G t) :=
  Touches.loop fun cy hcy t' ht' => Touches.access _ _ _
    (Text.cursorRow_inFrame hG (by rwa [ht'.cursorX, ht'.cursorY]) hcy)

theorem textRestoreCell_touches (hG : G.Fits) (h : CellFits G t.cursorX t.cursorY) :
    Touches G t (textRestoreCell G t) :=
  Touches.loop fun cy hcy t' ht' => Touches.access _ _ _
    (Text.cursorRow_inFrame hG (by rwa [ht'.cursorX, ht'.cursorY]) hcy)

theorem textDrawCharAtCursor_touches (font : ℕ → BitVec 8) (hG : G.Fits)
    (h : CellFits G t.cursorX t.cursorY) (c : BitVec 8) (transparent : Bool) :
    Touches G t (textDrawCharAtCursor G font t c transparent) :=
  textDrawChar_touches hG t h c transparent

theorem textDrawCursor_touches (hG : G.Fits) (h : CellFits G t.cursorX t.cursorY) :
    Touches G t (textDrawCursor G font t) := by
  have hsave := textSaveCell_touches hG h
  have hdraw := textDrawCharAtCursor_touches (t := textSaveCell G t) font hG
    (by rwa [hsave.cursorX, hsave.cursorY]) 219#8 false
  exact (hsave.trans hdraw).trans (Touches.shown G _ _ _)

theorem textClearCursor_touches (hG : G.Fits) (h : CellFits G t.cursorX t.cursorY) :
    Touches G t (textClearCursor G t) :=
  (textRestoreCell_touches hG h).trans (Touches.shown G _ _ _)

/-- The scroll touches the rows of the screen only: the rows it reads end four rows above the
lower edge, and those it clears end at the lower margin of the cursor's line. -/
theorem textMoveScreenUpOneLine_touches (h : t.cursorY + characterSizeY + textMargin ≤ G.fbH) :
    Touches G t (textMoveScreenUpOneLine G t) := by
  have hrows : ∀ {r n : ℕ}, r + n ≤ G.fbH → InFrame G (r * G.fbP, n * G.fbP) := by
    intro r n hrn k hk
    dsimp only at hk ⊢
    calc r * G.fbP + k < r * G.fbP + n * G.fbP := by omega
      _ = (r + n) * G.fbP := by ring
      _ ≤ G.fbH * G.fbP := Nat.mul_le_mul_right _ hrn
      _ = G.fbP * G.fbH := Nat.mul_comm _ _
  have hone : ∀ {r : ℕ}, r + 1 ≤ G.fbH → InFrame G (r * G.fbP, G.fbP) := fun hr => by
    simpa using hrows hr
  have hcopy : Touches G t (AnglOS.loop (fun r t =>
      { t with
        fb := copyWithin t.fb (r * G.fbP) (r * G.fbP + (spacingY + characterSizeY) * G.fbP) G.fbP
        accesses := (r * G.fbP, G.fbP) ::
          (r * G.fbP + (spacingY + characterSizeY) * G.fbP, G.fbP) :: t.accesses })
      (G.fbH - (textMargin + spacingY + characterSizeY)) t) := by
    refine Touches.loop fun r hr t' _ => ⟨rfl, rfl, rfl, rfl, rfl, fun a ha => ?_⟩
    simp only [textMargin, spacingY, characterSizeY] at hr
    rcases List.mem_cons.mp ha with rfl | ha
    · exact Or.inr (hone (by omega))
    rcases List.mem_cons.mp ha with rfl | ha
    · right
      rw [← Nat.add_mul]
      exact hone (by simp only [spacingY, characterSizeY]; omega)
    · exact Or.inl ha
  refine hcopy.trans (Touches.access _ _ _ (hrows ?_))
  rw [hcopy.cursorY]
  exact h

theorem textClearScreen_touches (hG : G.Fits) (h : CellFits G t.cursorX t.cursorY) :
    Touches G t (textClearScreen G t) := by
  refine (textClearCursor_touches hG h).trans (Touches.access _ _ _ fun k hk => ?_)
  dsimp only at hk ⊢
  rwa [Nat.zero_add, Nat.mul_comm G.fbP]

end

/-! ### Every byte -/

/-- The invariant of the console: it stays inside, and its colours are the first ones. -/
structure Console (G : Graphics) (t : Text) : Prop extends ConsoleInside G t where
  background : t.backgroundColor = 0x00000000#32
  foreground : t.foregroundColor = 0xFFFFFFFF#32

section

variable {G : Graphics} {font : ℕ → BitVec 8} {t t' : Text} {x y : ℕ}

theorem Console.of_touches (h : Console G t) (ht : Touches G t t') :
    Console G t' where
  grid := by rw [ht.cursorX, ht.cursorY]; exact h.grid
  cell := by rw [ht.cursorX, ht.cursorY]; exact h.cell
  not_wrapped := by rw [ht.wrapped]; exact h.not_wrapped
  accesses a ha := (ht.accesses a ha).elim (h.accesses a) id
  background := ht.background.trans h.background
  foreground := ht.foreground.trans h.foreground

/-- Moving the cursor to a cell: the positions are not cut, and the cursor is shown there. -/
theorem textMoveCursor_eq (font : ℕ → BitVec 8) (hG : G.Fits) (t : Text) (hcell : CellFits G x y)
    {x' y' : ℤ} (hx : x' = x) (hy : y' = y) : textMoveCursor G font t x' y' =
      textDrawCursor G font { t with cursorX := x, cursorY := y } := by
  have hxlt : x < 2 ^ 16 := by
    have := hG.width_lt
    have := hcell.1
    omega
  have hylt : y < 2 ^ 16 := by
    have := hG.height_lt
    have := hcell.2
    omega
  have hx16 : (x' % 2 ^ 16).toNat = x := by omega
  have hy16 : (y' % 2 ^ 16).toNat = y := by omega
  have hfit : 0 ≤ x' ∧ x' < 2 ^ 16 ∧ 0 ≤ y' ∧ y' < 2 ^ 16 := by omega
  rw [textMoveCursor, hx16, hy16]
  simp only [hfit, and_self, decide_true, Bool.not_true, Bool.or_false]

/-- Moving the cursor to a cell of the grid. -/
theorem textMoveCursor_inside (hG : G.Fits) (hw : t.wrapped = false)
    (ha : ∀ a ∈ t.accesses, InFrame G a) (hb : t.backgroundColor = 0x00000000#32)
    (hf : t.foregroundColor = 0xFFFFFFFF#32) (hgrid : ∃ a b, x = 4 + 10 * a ∧ y = 4 + 20 * b)
    (hcell : CellFits G x y) {x' y' : ℤ} (hx : x' = x) (hy : y' = y) :
    Console G (textMoveCursor G font t x' y') := by
  rw [textMoveCursor_eq font hG t hcell hx hy]
  have hmoved : Console G { t with cursorX := x, cursorY := y } :=
    ⟨⟨hgrid, hcell, hw, ha⟩, hb, hf⟩
  exact hmoved.of_touches (textDrawCursor_touches hG hmoved.cell)

/-- What the test for the last line says. -/
theorem Text.onLastLine_iff (hG : G.Fits) :
    t.onLastLine G ↔ G.fbH < t.cursorY + 40 := by
  have h1 := hG.height
  have h2 := hG.height_lt
  rw [Text.onLastLine, sub64_eq (by omega) (by simp only [textMargin]; omega)]
  simp only [textMargin, characterSizeY, spacingY]
  omega

/-- What the test for the last column says. -/
theorem Text.onLastColumn_iff (hG : G.Fits) :
    t.onLastColumn G ↔ G.fbW < t.cursorX + 22 := by
  have h1 := hG.width
  have h2 := hG.width_lt
  rw [Text.onLastColumn, sub64_eq (by omega) (by simp only [textMargin]; omega)]
  simp only [textMargin, characterSizeX, spacingX]
  omega

theorem cellFits_iff : CellFits G x y ↔ x + 12 ≤ G.fbW ∧ y + 20 ≤ G.fbH := by
  simp only [CellFits, characterSizeX, characterSizeY, textMargin]

/-- A move from a cell of the grid to another one. -/
theorem Console.move (hG : G.Fits) (h : Console G t) {x' y' : ℤ}
    (hx : x' = x) (hy : y' = y) (hgrid : ∃ a b, x = 4 + 10 * a ∧ y = 4 + 20 * b)
    (hxw : x + 12 ≤ G.fbW) (hyh : y + 20 ≤ G.fbH) :
    Console G (textMoveCursor G font t x' y') :=
  textMoveCursor_inside hG h.not_wrapped h.accesses h.background h.foreground hgrid
    (cellFits_iff.mpr ⟨hxw, hyh⟩) hx hy

/-- The cursor after clearing it. -/
theorem Console.clear (hG : G.Fits) (h : Console G t) :
    Console G (textClearCursor G t) ∧ (textClearCursor G t).cursorX = t.cursorX ∧
      (textClearCursor G t).cursorY = t.cursorY :=
  ⟨h.of_touches (textClearCursor_touches hG h.cell), (textClearCursor_touches hG h.cell).cursorX,
    (textClearCursor_touches hG h.cell).cursorY⟩

/-- Scrolling. -/
theorem Console.scroll (h : Console G t) :
    Console G (textMoveScreenUpOneLine G t) ∧
      (textMoveScreenUpOneLine G t).cursorY = t.cursorY :=
  ⟨h.of_touches (textMoveScreenUpOneLine_touches h.cell.2),
    (textMoveScreenUpOneLine_touches h.cell.2).cursorY⟩

theorem Console.textNewline (hG : G.Fits) (h : Console G t) :
    Console G (textNewline G font t) := by
  obtain ⟨hc, -, -⟩ := h.clear hG
  obtain ⟨a, b, -, hb⟩ := hc.grid
  have hcell := cellFits_iff.mp hc.cell
  have hwidth := hG.width
  rw [AnglOS.textNewline]
  dsimp only
  split_ifs with hlast
  · obtain ⟨hs, hy⟩ := hc.scroll
    exact hs.move hG (x := 4) rfl (congrArg _ hy) ⟨0, b, rfl, hb⟩ (by omega) (by omega)
  · rw [Text.onLastLine_iff hG] at hlast
    exact hc.move hG (x := 4) (y := (textClearCursor G t).cursorY + 20) rfl
      (by simp only [spacingY, characterSizeY]; omega) ⟨0, b + 1, rfl, by omega⟩ (by omega)
      (by omega)

theorem Console.textCursorUp (hG : G.Fits) (h : Console G t) :
    Console G (textCursorUp G font t) := by
  rw [AnglOS.textCursorUp]
  split_ifs with htop
  · exact h
  · obtain ⟨hc, hx, hy⟩ := h.clear hG
    obtain ⟨a, b, ha, hb⟩ := hc.grid
    have hcell := cellFits_iff.mp hc.cell
    simp only [textMargin] at htop
    exact hc.move hG (y := (textClearCursor G t).cursorY - 20) rfl
      (by simp only [spacingY, characterSizeY]; omega) ⟨a, b - 1, ha, by omega⟩ (by omega)
      (by omega)

theorem Console.textCursorDown (hG : G.Fits) (h : Console G t) :
    Console G (textCursorDown G font t) := by
  rw [AnglOS.textCursorDown]
  split_ifs with hlast
  · exact h
  · obtain ⟨hc, hx, hy⟩ := h.clear hG
    obtain ⟨a, b, ha, hb⟩ := hc.grid
    have hcell := cellFits_iff.mp hc.cell
    rw [Text.onLastLine_iff hG] at hlast
    exact hc.move hG (y := (textClearCursor G t).cursorY + 20) rfl
      (by simp only [spacingY, characterSizeY]; omega) ⟨a, b + 1, ha, by omega⟩ (by omega)
      (by omega)

theorem Console.textCursorLeft (hG : G.Fits) (h : Console G t) :
    Console G (textCursorLeft G font t) := by
  rw [AnglOS.textCursorLeft]
  split_ifs with hleft
  · exact h
  · obtain ⟨hc, hx, hy⟩ := h.clear hG
    obtain ⟨a, b, ha, hb⟩ := hc.grid
    have hcell := cellFits_iff.mp hc.cell
    simp only [textMargin] at hleft
    exact hc.move hG (x := (textClearCursor G t).cursorX - 10)
      (by simp only [spacingX, characterSizeX]; omega) rfl ⟨a - 1, b, by omega, hb⟩ (by omega)
      (by omega)

theorem Console.textCursorRight (hG : G.Fits) (h : Console G t) :
    Console G (textCursorRight G font t) := by
  rw [AnglOS.textCursorRight]
  split_ifs with hlast
  · exact h
  · obtain ⟨hc, hx, hy⟩ := h.clear hG
    obtain ⟨a, b, ha, hb⟩ := hc.grid
    have hcell := cellFits_iff.mp hc.cell
    rw [Text.onLastColumn_iff hG] at hlast
    exact hc.move hG (x := (textClearCursor G t).cursorX + 10)
      (by simp only [spacingX, characterSizeX]; omega) rfl ⟨a + 1, b, by omega, hb⟩ (by omega)
      (by omega)

theorem Console.textAdvanceCursorRight (hG : G.Fits) (h : Console G t) :
    Console G (textAdvanceCursorRight G font t) := by
  obtain ⟨a, b, ha, hb⟩ := h.grid
  have hcell := cellFits_iff.mp h.cell
  have hwidth := hG.width
  rw [AnglOS.textAdvanceCursorRight]
  split_ifs with hend hcol
  · obtain ⟨hs, hy⟩ := h.scroll
    exact hs.move hG (x := 4) rfl (congrArg _ hy) ⟨0, b, rfl, hb⟩ (by omega) (by omega)
  · rw [Text.onLastLine_iff hG, Text.onLastColumn_iff hG] at hend
    rw [Text.onLastColumn_iff hG] at hcol
    exact h.move hG (x := 4) (y := t.cursorY + 20) rfl
      (by simp only [spacingY, characterSizeY]; omega) ⟨0, b + 1, rfl, by omega⟩ (by omega)
      (by omega)
  · rw [Text.onLastColumn_iff hG] at hcol
    exact h.move hG (x := t.cursorX + 10) (by simp only [spacingX, characterSizeX]; omega) rfl
      ⟨a + 1, b, by omega, hb⟩ (by omega) (by omega)

theorem Console.textClearCharAtCursor (hG : G.Fits) (h : Console G t) :
    Console G (textClearCharAtCursor G font t) := by
  obtain ⟨hc, -, -⟩ := h.clear hG
  have hd := hc.of_touches (textDrawCharAtCursor_touches font hG hc.cell 0x20#8 false)
  exact hd.of_touches (textDrawCursor_touches hG hd.cell)

/-- **One byte keeps the console inside.** -/
theorem Console.textPutc (hG : G.Fits) (h : Console G t) (c : BitVec 8) :
    Console G (textPutc G font t c) := by
  have hwidth := hG.width
  have hheight := hG.height
  rw [AnglOS.textPutc]
  split_ifs
  · exact h.textNewline hG
  · exact (h.textCursorLeft hG).textClearCharAtCursor hG
  · exact h.textCursorUp hG
  · exact h.textCursorDown hG
  · exact h.textCursorLeft hG
  · exact h.textCursorRight hG
  · have hs := h.of_touches (textClearScreen_touches hG h.cell)
    exact hs.move hG (x := 4) (y := 4) rfl rfl ⟨0, 0, rfl, rfl⟩ (by omega) (by omega)
  · exact (h.clear hG).1
  · exact h.of_touches (textDrawCursor_touches hG h.cell)
  · obtain ⟨hc, -, -⟩ := h.clear hG
    have hd := hc.of_touches (textDrawCharAtCursor_touches font hG hc.cell c false)
    exact hd.textAdvanceCursorRight hG

/-- Any number of bytes keep the console inside. -/
theorem Console.textPuts (hG : G.Fits) (h : Console G t) (cs : List (BitVec 8)) :
    Console G (textPuts G font t cs) := by
  induction cs generalizing t with
  | nil => exact h
  | cons c cs ih => exact ih (h.textPutc hG c)

end

/-! ### From `initGraphics` on -/

section

variable {A : Adapter} {G : Graphics} {font : ℕ → BitVec 8} {t t' : Text} {fb : Mem}
  {width height depth : ℕ}

/-- What `initGraphics` sets up when it succeeds. -/
theorem initGraphics_eq_some (h : initGraphics A font t width height depth = some (G, t')) :
    G = ⟨width, height, width * (depth / 8), depth / 8⟩ ∧ depth ≤ 32 ∧
      t' = textMoveCursor G font t 4 4 := by
  rw [initGraphics] at h
  split_ifs at h with h1 h2 h3
  rw [Option.some.injEq, Prod.mk.injEq] at h
  obtain ⟨rfl, rfl⟩ := h
  exact ⟨rfl, A.depth_le depth (not_not.mp h3), rfl⟩

/-- `textDrawChar` ends with a store. -/
theorem exists_access_textDrawChar (G : Graphics) (font : ℕ → BitVec 8) (t : Text) (c : BitVec 8)
    (x y : ℕ) : ∃ o, (o, 1) ∈ (textDrawChar G font t c x y false).accesses := by
  rw [textDrawChar, characterSizeY, loop_succ, characterSizeX, loop_succ]
  exact ⟨_, List.mem_cons_self⟩

theorem Text.mem_accesses_shown {a : ℕ × ℕ} (h : a ∈ t.accesses) :
    a ∈ ({ t with cursorEnabled := true } : Text).accesses := h

/-- Moving the cursor stores to the framebuffer. -/
theorem exists_access_textMoveCursor (G : Graphics) (font : ℕ → BitVec 8) (t : Text) (x y : ℤ) :
    ∃ o, (o, 1) ∈ (textMoveCursor G font t x y).accesses := by
  obtain ⟨o, ho⟩ := exists_access_textDrawChar G font (textSaveCell G
    { t with
      cursorX := (x % 2 ^ 16).toNat
      cursorY := (y % 2 ^ 16).toNat
      wrapped := t.wrapped || !decide (0 ≤ x ∧ x < 2 ^ 16 ∧ 0 ≤ y ∧ y < 2 ^ 16) }) 219#8 _ _
  exact ⟨o, Text.mem_accesses_shown ho⟩

/-- The console after `initGraphics`. -/
theorem console_boot (hG : G.Fits) :
    Console G (textMoveCursor G font (Text.boot fb) 4 4) := by
  have h1 := hG.width
  have h2 := hG.height
  exact textMoveCursor_inside hG (x := 4) (y := 4) rfl (by simp [Text.boot]) rfl rfl
    ⟨0, 0, rfl, rfl⟩ (cellFits_iff.mpr ⟨by omega, by omega⟩) rfl rfl

/-- **The console stays inside the framebuffer exactly when a pixel has a byte**: after
`initGraphics`, for every resolution and every sequence of bytes. -/
theorem console_inside_iff
    (hinit : initGraphics A font (Text.boot fb) width height depth = some (G, t))
    (hwidth : width < 2 ^ 16) (hheight : height < 2 ^ 16) (h16 : 16 ≤ width) (h24 : 24 ≤ height)
    (hsize : G.fbP * G.fbH < 2 ^ 32) :
    (∀ cs, ConsoleInside G (textPuts G font t cs)) ↔ 8 ≤ depth := by
  obtain ⟨rfl, -, rfl⟩ := initGraphics_eq_some hinit
  constructor
  · intro h
    by_contra hdepth
    have hzero : depth / 8 = 0 := Nat.div_eq_of_lt (not_le.mp hdepth)
    obtain ⟨o, ho⟩ := exists_access_textMoveCursor
      ⟨width, height, width * (depth / 8), depth / 8⟩ font (Text.boot fb) 4 4
    have hlt := (h []).accesses _ ho 0 Nat.zero_lt_one
    simp only [hzero, Nat.mul_zero, Nat.zero_mul, Nat.not_lt_zero] at hlt
  · intro hdepth
    have hG : Graphics.Fits ⟨width, height, width * (depth / 8), depth / 8⟩ :=
      ⟨by dsimp only; omega, rfl, h16, hwidth, h24, hheight, hsize⟩
    exact fun cs => ((console_boot hG).textPuts hG cs).toConsoleInside

end

/-- An adapter that takes every documented mode. -/
def vbeAdapter : Adapter where
  framebufferCount := 1
  xRes width := width
  yRes height := height
  bpp depth := if depth ≤ 32 then depth else 0
  depth_le depth h := by
    by_contra hlt
    rw [if_neg hlt] at h
    omega

/-- The mode that the kernel asks for. -/
theorem console_inside_iff_1024 : ∃ G t,
    initGraphics vbeAdapter (fun _ => 0#8) (Text.boot fun _ => 0#8) 1024 768 32 = some (G, t) ∧
      ∀ cs, ConsoleInside G (textPuts G (fun _ => 0#8) t cs) := by
  have hinit : initGraphics vbeAdapter (fun _ => 0#8) (Text.boot fun _ => 0#8) 1024 768 32 =
      some (⟨1024, 768, 1024 * (32 / 8), 32 / 8⟩, _) := rfl
  exact ⟨_, _, hinit, (console_inside_iff hinit (by norm_num) (by norm_num) (by norm_num)
    (by norm_num) (by norm_num)).mpr (by norm_num)⟩

/-- With four bits for a pixel the pitch is zero, and the cursor is drawn outside. -/
theorem console_outside_4bpp : ¬∀ (A : Adapter) (font : ℕ → BitVec 8) (fb : Mem)
    (width height depth : ℕ) (G : Graphics) (t : Text),
    initGraphics A font (Text.boot fb) width height depth = some (G, t) →
    width < 2 ^ 16 → height < 2 ^ 16 → 16 ≤ width → 24 ≤ height → G.fbP * G.fbH < 2 ^ 32 →
      ∀ cs, ConsoleInside G (textPuts G font t cs) := by
  intro h
  have hin := h vbeAdapter (fun _ => 0#8) (fun _ => 0#8) 640 480 4 _ _ rfl (by norm_num)
    (by norm_num) (by norm_num) (by norm_num) (by norm_num) []
  obtain ⟨o, ho⟩ := exists_access_textMoveCursor ⟨640, 480, 640 * (4 / 8), 4 / 8⟩ (fun _ => 0#8)
    (Text.boot fun _ => 0#8) 4 4
  have hlt := hin.accesses _ ho 0 Nat.zero_lt_one
  norm_num at hlt

end AnglOS

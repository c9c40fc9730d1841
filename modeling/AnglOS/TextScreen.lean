import AnglOS.TextBounds

/-!
# What the Text Operations Leave on the Screen

Bytes of the framebuffer are named by their pixel. The results need three or four bytes for a
pixel: `graphicsPutpixel` stores three, and `pixels_at_cursor` has room for four.

## Main results

* `textDrawChar_spec`, `textSaveCell_spec`, `textRestoreCell_spec`, `textMoveScreenUpOneLine_spec` —
  what the loops leave, byte by byte;
* `scroll_moves_lines` — scrolling moves every line of text up by one.
-/

namespace AnglOS

/-! ### Pixels -/

/-- The offset of byte `j` of the pixel in column `px` and row `row`. -/
def Graphics.byteAt (G : Graphics) (px row j : ℕ) : ℕ :=
  px * G.fbBpp + j + row * G.fbP

/-- A byte of a pixel on the screen. -/
structure Graphics.OnScreen (G : Graphics) (px row j : ℕ) : Prop where
  column : px < G.fbW
  row : row < G.fbH
  byte : j < G.fbBpp

/-- The depths with three or four bytes for a pixel. -/
structure Graphics.Deep (G : Graphics) : Prop extends G.Fits where
  three_le : 3 ≤ G.fbBpp
  le_four : G.fbBpp ≤ 4

/-- The pixel lies in the cell at `x` and `y`. -/
def InCell (x y px row : ℕ) : Prop :=
  x ≤ px ∧ px < x + characterSizeX ∧ y ≤ row ∧ row < y + characterSizeY

instance (x y px row : ℕ) : Decidable (InCell x y px row) :=
  inferInstanceAs (Decidable (_ ∧ _ ∧ _ ∧ _))

section

variable {G : Graphics} {font : ℕ → BitVec 8} {t t' : Text} {m : Mem} {x y px row j n : ℕ}

theorem Graphics.Fits.column_lt (hG : G.Fits) (hpx : px < G.fbW) (hj : j < G.fbBpp) :
    px * G.fbBpp + j < G.fbP := by
  have := hG.column_le (x := px) (n := 1) (by omega)
  omega

/-- An offset in block `a` is between the start of block `x` and that of block `y` exactly when `a`
is. -/
theorem block_mem_iff {w a c x y : ℕ} (hc : c < w) :
    x * w ≤ a * w + c ∧ a * w + c < y * w ↔ x ≤ a ∧ a < y := by
  have hw : 0 < w := Nat.zero_lt_of_lt hc
  have hdiv : (a * w + c) / w = a := by
    rw [Nat.add_comm, Nat.add_mul_div_right _ _ hw, Nat.div_eq_of_lt hc, Nat.zero_add]
  rw [← Nat.le_div_iff_mul_le hw, ← Nat.div_lt_iff_lt_mul hw, hdiv]

/-- **The bytes of a run of pixels** in a row are those of its pixels. -/
theorem Graphics.Fits.byteAt_mem_iff (hG : G.Fits) (row : ℕ) (hpx : px < G.fbW) (hj : j < G.fbBpp)
    (hn : x + n ≤ G.fbW) {r : ℕ} :
    x * G.fbBpp + r * G.fbP ≤ G.byteAt px row j ∧
        G.byteAt px row j < x * G.fbBpp + r * G.fbP + G.fbBpp * n ↔
      row = r ∧ x ≤ px ∧ px < x + n := by
  have hc := hG.column_lt hpx hj
  have hr := hG.column_le hn
  have hcol : x * G.fbBpp + G.fbBpp * n = (x + n) * G.fbBpp := by ring
  have hrow : (r + 1) * G.fbP = r * G.fbP + G.fbP := by ring
  rw [Graphics.byteAt]
  constructor
  · rintro ⟨h1, h2⟩
    obtain ⟨hlo, hhi⟩ := (block_mem_iff (x := r) (y := r + 1) (a := row) hc).mp
      ⟨by omega, by omega⟩
    obtain rfl : row = r := by omega
    exact ⟨rfl, (block_mem_iff hj).mp ⟨by omega, by omega⟩⟩
  · rintro ⟨rfl, hpx⟩
    obtain ⟨hlo, hhi⟩ := (block_mem_iff hj).mpr hpx
    omega

/-- Different bytes of pixels have different offsets. -/
theorem Graphics.Fits.byteAt_eq_iff (hG : G.Fits) (hpx : px < G.fbW) (hj : j < G.fbBpp)
    (hx : x < G.fbW) {r i : ℕ} (hi : i < G.fbBpp) :
    G.byteAt px row j = x * G.fbBpp + r * G.fbP + i ↔ px = x ∧ row = r ∧ j = i := by
  have hmem := hG.byteAt_mem_iff row hpx hj (n := 1) (x := x) (r := r) (by omega)
  constructor
  · intro h
    obtain ⟨rfl, h1, h2⟩ := hmem.mp (by omega)
    obtain rfl : px = x := by omega
    rw [Graphics.byteAt] at h
    exact ⟨rfl, rfl, by omega⟩
  · rintro ⟨rfl, rfl, rfl⟩
    rw [Graphics.byteAt]
    omega

/-! ### What the loops leave on the screen -/

theorem copyFrom_apply (m : Mem) (dest : ℕ) (src : Mem) (s n o : ℕ) :
    copyFrom m dest src s n o = if dest ≤ o ∧ o < dest + n then src (s + (o - dest)) else m o := by
  refine loop_invariant (n := n) (s := m) (f := fun k m => m.store8 (dest + k) (src (s + k)))
    (fun k m' => m' o = if dest ≤ o ∧ o < dest + k then src (s + (o - dest)) else m o)
    (by rw [if_neg (by omega)]) fun k _ m' h => ?_
  by_cases ho : o = dest + k
  · rw [ho, Mem.store8_self, if_pos (by omega), Nat.add_sub_cancel_left]
  · rw [Mem.store8_of_ne ho, h]
    refine if_congr ?_ rfl rfl
    omega

/-- **A pixel**: `graphicsPutpixel` stores the three bytes of the colour. -/
theorem graphicsPutpixel_spec (hG : G.Deep) (t : Text) (hx : x < G.fbW) (hy : y < G.fbH)
    (color : BitVec 32) :
    ∃ f a, graphicsPutpixel G t x y color = { t with fb := f, accesses := a } ∧
      ∀ px row j, px < G.fbW → j < G.fbBpp → f (G.byteAt px row j) =
        if px = x ∧ row = y ∧ j < 3 then color.extractLsb' (8 * j) 8
        else t.fb (G.byteAt px row j) := by
  have h3 := hG.three_le
  have hsize := hG.size
  have h16 : x % 2 ^ 16 = x ∧ y % 2 ^ 16 = y :=
    ⟨Nat.mod_eq_of_lt (by have := hG.width_lt; omega),
      Nat.mod_eq_of_lt (by have := hG.height_lt; omega)⟩
  have hcol := hG.column_lt hx (show 2 < G.fbBpp by omega)
  have hrow := G.row_lt hcol hy
  obtain ⟨o, ho⟩ : ∃ o, o = x * G.fbBpp + y * G.fbP := ⟨_, rfl⟩
  have hput : graphicsPutpixel G t x y color = ((t.poke o (color.extractLsb' 0 8)).poke (o + 1)
      (color.extractLsb' 8 8)).poke (o + 2) (color.extractLsb' 16 8) := by
    rw [graphicsPutpixel, h16.1, h16.2]
    simp only [← ho]
    rw [Nat.mod_eq_of_lt (show o < 2 ^ 32 by omega),
      Nat.mod_eq_of_lt (show o + 1 < 2 ^ 32 by omega),
      Nat.mod_eq_of_lt (show o + 2 < 2 ^ 32 by omega)]
  refine ⟨_, _, hput, fun px row j hpx hj => ?_⟩
  have heq : ∀ i < 3, (G.byteAt px row j = o + i ↔ px = x ∧ row = y ∧ j = i) := fun i hi => by
    rw [ho]
    exact hG.byteAt_eq_iff hpx hj hx (by omega)
  have h0 := heq 0 (by norm_num)
  have h1 := heq 1 (by norm_num)
  have h2 := heq 2 (by norm_num)
  rw [Nat.add_zero] at h0
  simp only [Text.poke, Mem.store8, h0, h1, h2]
  by_cases hp : px = x ∧ row = y ∧ j < 3
  · obtain ⟨rfl, rfl, hj3⟩ := hp
    interval_cases j <;> simp
  · rw [if_neg hp, if_neg (by omega), if_neg (by omega), if_neg (by omega)]

end

section

variable {G : Graphics} {font : ℕ → BitVec 8} {t t' : Text} {m : Mem} {x y px row j n : ℕ}

/-- Byte `j` of the pixel in column `cx` and row `cy` of a character. -/
def glyphByte (font : ℕ → BitVec 8) (t : Text) (c : BitVec 8) (cx cy j : ℕ) : BitVec 8 :=
  (if (font (c.toNat * characterSizeY + cy)).getMsbD cx then t.foregroundColor
    else t.backgroundColor).extractLsb' (8 * j) 8

/-- **A character**: `textDrawChar` stores three bytes of every pixel of the cell. -/
theorem textDrawChar_spec (font : ℕ → BitVec 8) (hG : G.Deep) (t : Text) (h : CellFits G x y)
    (c : BitVec 8) :
    ∃ f a, textDrawChar G font t c x y false = { t with fb := f, accesses := a } ∧
      ∀ px row j, px < G.fbW → j < G.fbBpp → f (G.byteAt px row j) =
        if InCell x y px row ∧ j < 3 then glyphByte font t c (px - x) (row - y) j
        else t.fb (G.byteAt px row j) := by
  rw [cellFits_iff] at h
  have hrow : ∀ cy < characterSizeY, ∀ f a, ∃ f' a',
      loop (fun cx t => graphicsPutpixel G t (x + cx) (y + cy)
        (if (font (c.toNat * characterSizeY + cy)).getMsbD cx then t.foregroundColor
        else t.backgroundColor)) characterSizeX { t with fb := f, accesses := a } =
          { t with fb := f', accesses := a' } ∧
      ∀ px row j, px < G.fbW → j < G.fbBpp → f' (G.byteAt px row j) =
        if row = y + cy ∧ x ≤ px ∧ px < x + characterSizeX ∧ j < 3 then
          glyphByte font t c (px - x) cy j
        else f (G.byteAt px row j) := by
    intro cy hcy f a
    refine loop_invariant (P := fun k t' => ∃ f' a', t' = { t with fb := f', accesses := a' } ∧
      ∀ px row j, px < G.fbW → j < G.fbBpp → f' (G.byteAt px row j) =
        if row = y + cy ∧ x ≤ px ∧ px < x + k ∧ j < 3 then glyphByte font t c (px - x) cy j
        else f (G.byteAt px row j)) ⟨f, a, rfl, fun px row j _ _ => ?_⟩ ?_
    · rw [if_neg (by omega)]
    · rintro k hk _ ⟨f', a', rfl, hf'⟩
      simp only [characterSizeX, characterSizeY] at hk hcy
      obtain ⟨f'', a'', heq, hf''⟩ := graphicsPutpixel_spec hG { t with fb := f', accesses := a' }
        (x := x + k) (y := y + cy) (by omega) (by omega)
        (if (font (c.toNat * characterSizeY + cy)).getMsbD k then t.foregroundColor
          else t.backgroundColor)
      refine ⟨f'', a'', heq, fun px row j hpx hj => ?_⟩
      rw [hf'' px row j hpx hj]
      dsimp only
      rw [hf' px row j hpx hj]
      by_cases hp : px = x + k ∧ row = y + cy ∧ j < 3
      · obtain ⟨rfl, rfl, hj3⟩ := hp
        have hin : y + cy = y + cy ∧ x ≤ x + k ∧ x + k < x + (k + 1) ∧ j < 3 := by omega
        rw [if_pos ⟨rfl, rfl, hj3⟩, if_pos hin, glyphByte, Nat.add_sub_cancel_left]
      · rw [if_neg hp]
        refine if_congr ?_ rfl rfl
        omega
  refine loop_invariant (P := fun k t' => ∃ f a, t' = { t with fb := f, accesses := a } ∧
    ∀ px row j, px < G.fbW → j < G.fbBpp → f (G.byteAt px row j) =
      if (x ≤ px ∧ px < x + characterSizeX ∧ y ≤ row ∧ row < y + k) ∧ j < 3 then
        glyphByte font t c (px - x) (row - y) j
      else t.fb (G.byteAt px row j)) ⟨t.fb, t.accesses, rfl, fun px row j _ _ => ?_⟩ ?_
  · rw [if_neg (by omega)]
  · rintro k hk _ ⟨f, a, rfl, hf⟩
    obtain ⟨f', a', heq, hf'⟩ := hrow k hk f a
    simp only [Bool.false_eq_true, if_false]
    refine ⟨f', a', heq, fun px row j hpx hj => ?_⟩
    rw [hf' px row j hpx hj, hf px row j hpx hj]
    by_cases hp : row = y + k ∧ x ≤ px ∧ px < x + characterSizeX ∧ j < 3
    · rw [if_pos hp, if_pos ⟨⟨hp.2.1, hp.2.2.1, by omega, by omega⟩, hp.2.2.2⟩, hp.1,
        Nat.add_sub_cancel_left]
    · rw [if_neg hp]
      refine if_congr ?_ rfl rfl
      omega

/-- The offset of a row of the cell at the cursor is not cut. -/
theorem Text.cursorRow_eq (hG : G.Fits) (h : CellFits G t.cursorX t.cursorY) {cy : ℕ}
    (hcy : cy < characterSizeY) :
    t.cursorRow G cy = t.cursorX * G.fbBpp + (t.cursorY + cy) * G.fbP := by
  rw [cellFits_iff] at h
  simp only [characterSizeY] at hcy
  have hsize := hG.size
  have hrow := G.row_lt (hG.column_lt (show t.cursorX < G.fbW by omega) hG.bpp)
    (y := t.cursorY + cy) (by omega)
  exact Nat.mod_eq_of_lt (by omega)

/-- **Saving**: `pixels_at_cursor` holds the cell at the cursor. -/
theorem textSaveCell_spec (hG : G.Deep) (h : CellFits G t.cursorX t.cursorY) :
    ∃ m a, textSaveCell G t = { t with pixelsAtCursor := m, accesses := a } ∧
      ∀ px row j, j < G.fbBpp → InCell t.cursorX t.cursorY px row →
        m (32 * (row - t.cursorY) + (px - t.cursorX) * G.fbBpp + j) =
          t.fb (G.byteAt px row j) := by
  have h4 := hG.le_four
  have hrows : ∃ m a, textSaveCell G t = { t with pixelsAtCursor := m, accesses := a } ∧
      ∀ cy < characterSizeY, ∀ i < G.fbBpp * characterSizeX,
        m (32 * cy + i) = t.fb (t.cursorX * G.fbBpp + (t.cursorY + cy) * G.fbP + i) := by
    refine loop_invariant (P := fun k t' => ∃ m a,
      t' = { t with pixelsAtCursor := m, accesses := a } ∧
      ∀ cy < k, ∀ i < G.fbBpp * characterSizeX,
        m (32 * cy + i) = t.fb (t.cursorX * G.fbBpp + (t.cursorY + cy) * G.fbP + i))
      ⟨t.pixelsAtCursor, t.accesses, rfl, by simp⟩ ?_
    rintro k hk _ ⟨m, a, rfl, hm⟩
    refine ⟨_, _, rfl, fun cy hcy i hi => ?_⟩
    have hrow : Text.cursorRow G { t with pixelsAtCursor := m, accesses := a } k =
        t.cursorX * G.fbBpp + (t.cursorY + k) * G.fbP := Text.cursorRow_eq hG.toFits h hk
    dsimp only
    rw [copyFrom_apply, hrow]
    simp only [characterSizeX] at hi ⊢
    rcases Nat.lt_succ_iff_lt_or_eq.mp hcy with hlt | rfl
    · rw [if_neg (by omega)]
      exact hm cy hlt i hi
    · rw [if_pos (by omega)]
      congr 1
      omega
  obtain ⟨m, a, heq, hm⟩ := hrows
  refine ⟨m, a, heq, fun px row j hj hcell => ?_⟩
  obtain ⟨h1, h2, h3, h5⟩ := hcell
  obtain ⟨cx, rfl⟩ := Nat.exists_eq_add_of_le h1
  obtain ⟨cy, rfl⟩ := Nat.exists_eq_add_of_le h3
  simp only [characterSizeX, characterSizeY] at h2 h5 hm
  have hi : cx * G.fbBpp + j < G.fbBpp * 8 := by
    have := Nat.mul_le_mul_right G.fbBpp (show cx + 1 ≤ 8 by omega)
    rw [Nat.add_mul] at this
    omega
  rw [Nat.add_sub_cancel_left, Nat.add_sub_cancel_left, Nat.add_assoc,
    hm cy (by omega) _ hi, Graphics.byteAt]
  congr 1
  ring

/-- **Restoring**: the cell at the cursor holds `pixels_at_cursor`. -/
theorem textRestoreCell_spec (hG : G.Deep) (h : CellFits G t.cursorX t.cursorY) :
    ∃ f a, textRestoreCell G t = { t with fb := f, accesses := a } ∧
      ∀ px row j, px < G.fbW → j < G.fbBpp → f (G.byteAt px row j) =
        if InCell t.cursorX t.cursorY px row then
          t.pixelsAtCursor (32 * (row - t.cursorY) + (px - t.cursorX) * G.fbBpp + j)
        else t.fb (G.byteAt px row j) := by
  have hwidth := (cellFits_iff.mp h).1
  refine loop_invariant (P := fun k t' => ∃ f a, t' = { t with fb := f, accesses := a } ∧
    ∀ px row j, px < G.fbW → j < G.fbBpp → f (G.byteAt px row j) =
      if t.cursorX ≤ px ∧ px < t.cursorX + characterSizeX ∧ t.cursorY ≤ row ∧
          row < t.cursorY + k then
        t.pixelsAtCursor (32 * (row - t.cursorY) + (px - t.cursorX) * G.fbBpp + j)
      else t.fb (G.byteAt px row j)) ⟨t.fb, t.accesses, rfl, fun px row j _ _ => ?_⟩ ?_
  · rw [if_neg (by omega)]
  · rintro k hk _ ⟨f, a, rfl, hf⟩
    refine ⟨_, _, rfl, fun px row j hpx hj => ?_⟩
    have hrow : Text.cursorRow G { t with fb := f, accesses := a } k =
        t.cursorX * G.fbBpp + (t.cursorY + k) * G.fbP := Text.cursorRow_eq hG.toFits h hk
    have hmem := hG.toFits.byteAt_mem_iff row (r := t.cursorY + k) hpx hj
      (x := t.cursorX) (n := characterSizeX) (by simp only [characterSizeX]; omega)
    dsimp only
    rw [copyFrom_apply, hrow, if_congr hmem rfl rfl, hf px row j hpx hj]
    by_cases hp : row = t.cursorY + k ∧ t.cursorX ≤ px ∧ px < t.cursorX + characterSizeX
    · obtain ⟨rfl, h1, h2⟩ := hp
      rw [if_pos ⟨rfl, h1, h2⟩, if_pos ⟨h1, h2, by omega, by omega⟩, Nat.add_sub_cancel_left]
      obtain ⟨cx, rfl⟩ := Nat.exists_eq_add_of_le h1
      congr 1
      rw [Graphics.byteAt, Nat.add_sub_cancel_left, Nat.add_mul]
      simp only [characterSizeX]
      omega
    · rw [if_neg hp]
      refine if_congr ?_ rfl rfl
      omega

/-- **The bytes of a run of rows** are those of its rows. -/
theorem Graphics.row_mem_iff (G : Graphics) (row : ℕ) {r c : ℕ} (hc : c < G.fbP) :
    r * G.fbP ≤ row * G.fbP + c ∧ row * G.fbP + c < r * G.fbP + n * G.fbP ↔
      r ≤ row ∧ row < r + n := by
  rw [← Nat.add_mul]
  exact block_mem_iff hc

/-- **Scrolling, row by row.** -/
theorem textMoveScreenUpOneLine_rows (G : Graphics) (t : Text) :
    ∃ f a, textMoveScreenUpOneLine G t = { t with fb := f, accesses := a } ∧
      ∀ row c, c < G.fbP → f (row * G.fbP + c) =
        if t.cursorY ≤ row ∧ row < t.cursorY + (characterSizeY + textMargin) then 0#8
        else if row < G.fbH - (textMargin + spacingY + characterSizeY) then
          t.fb ((row + (spacingY + characterSizeY)) * G.fbP + c)
        else t.fb (row * G.fbP + c) := by
  obtain ⟨f, a, heq, hf⟩ : ∃ f a, loop (fun r t =>
      { t with
        fb := copyWithin t.fb (r * G.fbP) (r * G.fbP + (spacingY + characterSizeY) * G.fbP) G.fbP
        accesses := (r * G.fbP, G.fbP) ::
          (r * G.fbP + (spacingY + characterSizeY) * G.fbP, G.fbP) :: t.accesses })
      (G.fbH - (textMargin + spacingY + characterSizeY)) t = { t with fb := f, accesses := a } ∧
      ∀ row c, c < G.fbP → f (row * G.fbP + c) =
        if row < G.fbH - (textMargin + spacingY + characterSizeY) then
          t.fb ((row + (spacingY + characterSizeY)) * G.fbP + c)
        else t.fb (row * G.fbP + c) := by
    -- the rows below the `k`-th one are still the old ones, so each source row is read unchanged
    refine loop_invariant (P := fun k t' => ∃ f a, t' = { t with fb := f, accesses := a } ∧
      ∀ row c, c < G.fbP → f (row * G.fbP + c) =
        if row < k then t.fb ((row + (spacingY + characterSizeY)) * G.fbP + c)
        else t.fb (row * G.fbP + c)) ⟨t.fb, t.accesses, rfl, by simp⟩ ?_
    rintro k hk _ ⟨f, a, rfl, hf⟩
    refine ⟨_, _, rfl, fun row c hc => ?_⟩
    have hmem := G.row_mem_iff row (n := 1) (r := k) hc
    rw [Nat.one_mul] at hmem
    dsimp only
    rw [copyWithin, copyUp_apply (by omega), if_congr hmem rfl rfl]
    by_cases hp : k ≤ row ∧ row < k + 1
    · obtain rfl : row = k := by omega
      have hoff : row * G.fbP + (spacingY + characterSizeY) * G.fbP +
          (row * G.fbP + c - row * G.fbP) = (row + (spacingY + characterSizeY)) * G.fbP + c := by
        rw [Nat.add_sub_cancel_left, Nat.add_mul row]
      rw [if_pos hp, if_pos hp.2, hoff, hf _ c hc, if_neg (by omega)]
    · rw [if_neg hp, hf row c hc]
      refine if_congr ?_ rfl rfl
      omega
  rw [textMoveScreenUpOneLine, heq]
  refine ⟨_, _, rfl, fun row c hc => ?_⟩
  have hmem := G.row_mem_iff row (n := characterSizeY + textMargin) (r := t.cursorY) hc
  dsimp only
  rw [memset_apply, if_congr hmem rfl rfl, hf row c hc]

/-- **Scrolling moves every text line up by one**: with the cursor on line `L`, the line before each
line up to `L` gets its rows, the rows of line `L` are cleared, and every access lies in a row of
the screen. All that matters of `L` is that its line fits above the lower margin. -/
theorem scroll_moves_lines (G : Graphics) (t : Text) {L : ℕ} (hcursor : t.cursorY = 4 + 20 * L)
    (hfits : t.cursorY + 16 ≤ G.fbH - 4) :
    (∀ b k c, 1 ≤ b → b ≤ L → k < 16 → c < G.fbP →
      (textMoveScreenUpOneLine G t).fb ((4 + 20 * (b - 1) + k) * G.fbP + c) =
        t.fb ((4 + 20 * b + k) * G.fbP + c)) ∧
    (∀ k c, k < 16 → c < G.fbP →
      (textMoveScreenUpOneLine G t).fb ((4 + 20 * L + k) * G.fbP + c) = 0#8) ∧
    ∀ a ∈ (textMoveScreenUpOneLine G t).accesses, a ∈ t.accesses ∨
      ∀ o, a.1 ≤ o → o < a.1 + a.2 → o / G.fbP < G.fbH := by
  have htouch : Touches G t (textMoveScreenUpOneLine G t) :=
    textMoveScreenUpOneLine_touches (by simp only [characterSizeY, textMargin]; omega)
  obtain ⟨f, a, heq, hf⟩ := textMoveScreenUpOneLine_rows G t
  simp only [characterSizeY, textMargin, spacingY] at hf
  rw [heq] at htouch ⊢
  refine ⟨fun b k c h1 hb hk hc => ?_, fun k c hk hc => ?_, fun a ha => ?_⟩
  · dsimp only
    have hrow : 4 + 20 * (b - 1) + k + (4 + 16) = 4 + 20 * b + k := by omega
    rw [hf _ c hc, if_neg (by omega), if_pos (by omega), hrow]
  · dsimp only
    rw [hf _ c hc, if_pos (by omega)]
  · refine (htouch.accesses a ha).imp_right fun hin o h1 h2 => ?_
    obtain ⟨i, rfl⟩ := Nat.exists_eq_add_of_le h1
    exact Nat.div_lt_of_lt_mul (hin i (by omega))

/-- A screen of 768 rows: the last line starts at row 744. -/
theorem scroll_moves_lines_768 : ∃ t : Text, t.cursorY = 4 + 20 * 37 ∧
    ∀ b k c, 1 ≤ b → b ≤ 37 → k < 16 → c < 4096 →
      (textMoveScreenUpOneLine ⟨1024, 768, 4096, 4⟩ t).fb ((4 + 20 * (b - 1) + k) * 4096 + c) =
        t.fb ((4 + 20 * b + k) * 4096 + c) :=
  ⟨{ Text.boot fun o => BitVec.ofNat 8 o with cursorY := 744 }, rfl,
    (scroll_moves_lines ⟨1024, 768, 4096, 4⟩ _ (L := 37) rfl (by norm_num)).1⟩

/-- The rows of the screen after it moved up by a line of text: the rows of the cursor's line are
blank, those above it come from a line below, and the rows under the last line stay. -/
def scrolled (G : Graphics) (y : ℕ) (u : Mem) (px row j : ℕ) : BitVec 8 :=
  if y ≤ row ∧ row < y + (characterSizeY + textMargin) then 0#8
  else if row < G.fbH - (textMargin + spacingY + characterSizeY) then
    u (G.byteAt px (row + (spacingY + characterSizeY)) j)
  else u (G.byteAt px row j)

/-- **Scrolling**, pixel by pixel. -/
theorem textMoveScreenUpOneLine_spec (hG : G.Deep) (t : Text) :
    ∃ f a, textMoveScreenUpOneLine G t = { t with fb := f, accesses := a } ∧
      ∀ px row j, px < G.fbW → j < G.fbBpp →
        f (G.byteAt px row j) = scrolled G t.cursorY t.fb px row j := by
  obtain ⟨f, a, heq, hf⟩ := textMoveScreenUpOneLine_rows G t
  refine ⟨f, a, heq, fun px row j hpx hj => ?_⟩
  rw [scrolled, Graphics.byteAt, Graphics.byteAt, Nat.add_comm _ (row * G.fbP),
    hf row _ (hG.column_lt hpx hj), Nat.add_comm _ ((row + (spacingY + characterSizeY)) * G.fbP)]

end

end AnglOS

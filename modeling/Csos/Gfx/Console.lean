import Csos.Gfx.Pixels
/-!
# The text console — the grid and the screen

The screen shows the character grid, with the cell of the cursor inverted or
not. While a call draws, the cursor is hidden (`Clean`); scrolling moves the
grid and the pixels alike.
-/

namespace Csos

namespace Gfx

/-- The size of a screen, and the positions that may be written. -/
structure Canvas where
  stride : ℕ
  width : ℕ
  height : ℕ
  allowed : Set ℕ

variable {s : State} {t : ℕ → UInt8} {x y col row now : ℕ} {ch : UInt8} {on off : UInt32} {b : Bool}
  {K : Canvas}

/-! ## What the screen shows -/

/-- The pixel is in the text area. -/
def Area (s : State) (x y : ℕ) : Prop :=
  x < s.cols * fontW ∧ s.top ≤ y ∧ y < s.top + s.rows * fontH

/-- The pixel is set in the glyph of its cell. -/
def glyphBit (s : State) (t : ℕ → UInt8) (x y : ℕ) : Bool :=
  bitAt (fbFontGlyph (t ((y - s.top) / fontH * s.capCols + x / fontW)) ((y - s.top) % fontH))
    (x % fontW)

/-- The pixel is in the cell. -/
def InCell (s : State) (col row x y : ℕ) : Prop := x / fontW = col ∧ (y - s.top) / fontH = row

instance (s : State) (col row x y : ℕ) : Decidable (InCell s col row x y) :=
  inferInstanceAs (Decidable (_ ∧ _))

/-- **The colour of a pixel** for the grid `t`: that of its glyph, inverted in
the cell of the cursor if `shown`. -/
def shade (s : State) (t : ℕ → UInt8) (shown : Bool) (x y : ℕ) : UInt32 :=
  if glyphBit s t x y = true ↔ ¬ (shown = true ∧ InCell s s.cx s.cy x y) then s.fg else s.bg

/-- **The grid and the framebuffer agree.** -/
structure Consistent (s : State) : Prop where
  cx : s.cx < s.cols
  cy : s.cy < s.rows
  inside : ∀ i, s.fb.written i = true → ∃ x y, i = y * s.stride + x ∧ x < s.width ∧ y < s.height
  shown : ∃ t, s.text = some t ∧ ∀ x y, Area s x y →
    s.fb.pixel (y * s.stride + x) = shade s t s.cursorPhase x y

/-! ## Invariants -/

/-- The text area lies on the screen, and the grid is as large as it; what is
written lies in what may be. -/
structure Frame (K : Canvas) (s : State) : Prop where
  fits : Fits s
  base : s.base ≠ 0
  ready : s.ready = true
  enabled : s.cursorEnabled = true
  cols : 0 < s.cols
  rows : 0 < s.rows
  right : s.cols * fontW ≤ s.width
  bottom : s.top + s.rows * fontH ≤ s.height
  capCols : s.capCols = s.cols
  capRows : s.capRows = s.rows
  size : s.stride = K.stride ∧ s.width = K.width ∧ s.height = K.height
  screen : rect s.stride 0 0 s.width s.height ⊆ K.allowed
  inside : ∀ i, s.fb.written i = true → i ∈ K.allowed

/-- The screen shows the grid, without the cursor. -/
def Plain (s : State) (t : ℕ → UInt8) : Prop :=
  ∀ x y, Area s x y → s.fb.pixel (y * s.stride + x) = if glyphBit s t x y then s.fg else s.bg

/-- **The cursor is hidden.** -/
structure Clean (K : Canvas) (s : State) : Prop where
  frame : Frame K s
  hidden : s.cursorPhase = false
  shown : ∃ t, s.text = some t ∧ Plain s t

/-- The cursor is on the grid. -/
def OnGrid (s : State) : Prop := s.cx < s.cols ∧ s.cy < s.rows

theorem Frame.width_pos (h : Frame K s) : 0 < s.width := by
  have h1 := h.cols
  have h2 := h.right
  dsimp only [fontW] at h2
  omega

theorem Area.lt_stride (h : Frame K s) (ha : Area s x y) : x < s.stride := by
  have h1 := h.right
  have h2 := h.fits.1
  have h3 := ha.1
  omega

/-- Something is drawn on the screen. -/
theorem Frame.draw (h : Frame K s) {f : Fb} {S : Set ℕ} {c : ℕ → UInt32} (hf : Overwrites s.fb f S c)
    (hS : S ⊆ rect s.stride 0 0 s.width s.height) : Frame K { s with fb := f } :=
  ⟨h.fits, h.base, h.ready, h.enabled, h.cols, h.rows, h.right, h.bottom, h.capCols, h.capRows,
    h.size, h.screen, hf.written_subset (hS.trans h.screen) h.inside⟩

/-- The cursor does not matter. -/
theorem Frame.cursor (h : Frame K s) (cx cy : ℕ) (phase : Bool) (next : ℕ) : Frame K { s with
    cx := cx
    cy := cy
    cursorPhase := phase
    cursorNextMs := next } :=
  ⟨h.fits, h.base, h.ready, h.enabled, h.cols, h.rows, h.right, h.bottom, h.capCols, h.capRows,
    h.size, h.screen, h.inside⟩

theorem Clean.move (h : Clean K s) (cx cy : ℕ) : Clean K { s with
    cx := cx
    cy := cy } :=
  ⟨h.frame.cursor cx cy _ _, h.hidden, h.shown⟩

/-! ## A cell -/

theorem mem_cell_iff (hy : s.top ≤ y) :
    (col * fontW ≤ x ∧ x < col * fontW + fontW ∧ s.top + row * fontH ≤ y ∧
      y < s.top + row * fontH + fontH) ↔ InCell s col row x y := by
  simp only [InCell, fontW, fontH]
  omega

/-- **A cell is drawn.** -/
theorem conDraw_cell (h : Frame K s) (hc : col < s.cols) (hr : row < s.rows) (on off : UInt32)
    (t : ℕ → UInt8) :
    ∃ f, conDraw s (col * fontW) (s.top + row * fontH) (t (row * s.capCols + col)) on off =
        { s with fb := f } ∧ Frame K { s with fb := f } ∧
      ∀ x y, Area s x y → f.pixel (y * s.stride + x) =
        if InCell s col row x y then if glyphBit s t x y then on else off
        else s.fb.pixel (y * s.stride + x) := by
  have hright := h.right
  have hbottom := h.bottom
  have hfit := h.fits.1
  have hx : col * fontW + fontW ≤ s.width := by
    dsimp only [fontW] at *
    omega
  have hy : s.top + row * fontH + fontH ≤ s.height := by
    dsimp only [fontH] at *
    omega
  obtain ⟨f, he, hf⟩ := conDraw_spec h.fits hx hy (t (row * s.capCols + col)) on off
  refine ⟨f, he, h.draw hf (rect_subset (by omega) (by omega) (by omega) (by omega)),
    fun x y ha => ?_⟩
  have hxs := ha.lt_stride h
  have hmem : y * s.stride + x ∈ rect s.stride (col * fontW) (s.top + row * fontH) fontW fontH ↔
      InCell s col row x y :=
    (mem_rect_iff hxs (hx.trans hfit)).trans (mem_cell_iff ha.2.1)
  by_cases hin : InCell s col row x y
  · rw [if_pos hin, hf.pixel _ (hmem.mpr hin), pos_div hxs, pos_mod hxs]
    obtain ⟨h1, h2⟩ := hin
    have hrow : (y - s.top) % fontH = y - (s.top + row * fontH) := by
      dsimp only [fontH] at *
      omega
    have hcol : x % fontW = x - col * fontW := by
      dsimp only [fontW] at *
      omega
    rw [glyphBit, h1, h2, hrow, hcol]
  · rw [if_neg hin, hf.pixel_old _ fun hm => hin (hmem.mp hm)]

/-! ## The cursor -/

/-- What holds between calls. -/
structure Good (K : Canvas) (s : State) : Prop where
  frame : Frame K s
  grid : OnGrid s
  shown : ∃ t, s.text = some t ∧ ∀ x y, Area s x y →
    s.fb.pixel (y * s.stride + x) = shade s t s.cursorPhase x y

theorem Good.consistent (h : Good K s)
    (hK : K.allowed = rect K.stride 0 0 K.width K.height) : Consistent s := by
  refine ⟨h.grid.1, h.grid.2, fun i hi => ?_, h.shown⟩
  obtain ⟨h1, h2, h3⟩ := h.frame.size
  have hin := h.frame.inside i hi
  rw [hK, ← h1, ← h2, ← h3] at hin
  obtain ⟨x, y, rfl, -, hx, -, hy⟩ := hin
  exact ⟨x, y, rfl, by omega, by omega⟩

theorem shade_of_not_inCell (hin : ¬ InCell s s.cx s.cy x y) :
    shade s t b x y = if glyphBit s t x y then s.fg else s.bg := by
  simp [shade, hin]

theorem shade_false : shade s t false x y = if glyphBit s t x y then s.fg else s.bg := by
  simp [shade]

theorem conCellCharLocked_eq (h : Frame K s) (hg : OnGrid s) (ht : s.text = some t) :
    conCellCharLocked s s.cx s.cy = t (s.cy * s.capCols + s.cx) := by
  unfold conCellCharLocked
  rw [ht]
  exact if_pos ⟨hg.2, hg.1, h.capRows ▸ hg.2, h.capCols ▸ hg.1⟩

/-- **The cell of the cursor is painted**, and the others stay. -/
theorem conCursorPaintLocked_spec (h : Frame K s) (hg : OnGrid s) (ht : s.text = some t)
    (hoff : ∀ x y, Area s x y → ¬ InCell s s.cx s.cy x y →
      s.fb.pixel (y * s.stride + x) = if glyphBit s t x y then s.fg else s.bg) (b : Bool) :
    ∃ f, conCursorPaintLocked s b = { s with fb := f } ∧ Frame K { s with fb := f } ∧
      ∀ x y, Area s x y → f.pixel (y * s.stride + x) = shade s t b x y := by
  have hright := h.right
  have hbottom := h.bottom
  have hcx := hg.1
  have hcy := hg.2
  have hdraw : conCursorPaintLocked s b = conDraw s (s.cx * fontW) (s.top + s.cy * fontH)
      (t (s.cy * s.capCols + s.cx)) (if b then s.bg else s.fg) (if b then s.fg else s.bg) := by
    unfold conCursorPaintLocked
    rw [if_neg (by simp [h.ready, h.enabled, h.base]), if_neg (by omega)]
    dsimp only
    rw [if_neg (by dsimp only [fontW, fontH] at *; omega), conCellCharLocked_eq h hg ht]
    cases b <;> rfl
  rw [hdraw]
  obtain ⟨f, he, hframe, hf⟩ := conDraw_cell h hcx hcy (if b then s.bg else s.fg)
    (if b then s.fg else s.bg) t
  refine ⟨f, he, hframe, fun x y ha => ?_⟩
  rw [hf x y ha]
  by_cases hin : InCell s s.cx s.cy x y
  · rw [if_pos hin, shade]
    cases b <;> cases glyphBit s t x y <;> simp [hin]
  · rw [if_neg hin, hoff x y ha hin, shade_of_not_inCell hin]

theorem Good.hide (h : Good K s) : Clean K (conCursorHideLocked s) ∧ OnGrid (conCursorHideLocked s) := by
  obtain ⟨t, ht, hshown⟩ := h.shown
  unfold conCursorHideLocked
  by_cases hp : s.cursorPhase = true
  · rw [if_pos hp]
    obtain ⟨f, he, hframe, hf⟩ := conCursorPaintLocked_spec h.frame h.grid ht
      (fun x y ha hin => (hshown x y ha).trans (shade_of_not_inCell hin)) false
    rw [he]
    exact ⟨⟨hframe.cursor _ _ _ _, rfl, t, ht, fun x y ha => (hf x y ha).trans shade_false⟩, h.grid⟩
  · rw [if_neg hp]
    rw [Bool.not_eq_true] at hp
    refine ⟨⟨h.frame, hp, t, ht, fun x y ha => ?_⟩, h.grid⟩
    rw [hshown x y ha, hp, shade_false]

theorem Clean.restart (h : Clean K s) (hg : OnGrid s) (now : ℕ) :
    Good K (conCursorRestartLocked s now) := by
  obtain ⟨t, ht, hshown⟩ := h.shown
  have hhide : conCursorHideLocked s = s := by
    rw [conCursorHideLocked, h.hidden]
    rfl
  obtain ⟨f, he, hframe, hf⟩ := conCursorPaintLocked_spec h.frame hg ht
    (fun x y ha _ => hshown x y ha) true
  unfold conCursorRestartLocked
  rw [hhide, he]
  exact ⟨hframe.cursor _ _ _ _, hg, t, ht, hf⟩

/-- **`fb_console_tick`** inverts the cell of the cursor. -/
theorem Good.tick (h : Good K s) (now : ℕ) : Good K (fbConsoleTick s now) := by
  obtain ⟨t, ht, hshown⟩ := h.shown
  have hframe : Frame K { s with cursorPhase := !s.cursorPhase } := h.frame.cursor _ _ _ _
  obtain ⟨f, he, hframe', hf⟩ := conCursorPaintLocked_spec (b := !s.cursorPhase) hframe h.grid ht
    (fun x y ha hin => (hshown x y ha).trans (shade_of_not_inCell hin))
  unfold fbConsoleTick
  rw [if_neg (by simp [h.frame.ready]), if_neg (by simp [h.frame.enabled])]
  by_cases hdue : (now + (2 ^ 64 - s.cursorNextMs)) % 2 ^ 64 < 2 ^ 63
  · rw [if_pos hdue]
    dsimp only
    rw [he]
    exact ⟨hframe'.cursor _ _ _ _, h.grid, t, ht, hf⟩
  · rw [if_neg hdue]
    exact h

/-! ## Scrolling -/

/-- A row of the grid is copied from the next. -/
theorem upto_copyRow (t : ℕ → UInt8) (cols r : ℕ) {r' c' : ℕ} (hc' : c' < cols) :
    upto cols (fun c t => Function.update t (r * cols + c) (t ((r + 1) * cols + c))) t (r' * cols + c') =
      if r' = r then t ((r + 1) * cols + c') else t (r' * cols + c') := by
  have hloop := upto_induction (n := cols) (s := t)
    (f := fun c t => Function.update t (r * cols + c) (t ((r + 1) * cols + c)))
    (fun n t' => n ≤ cols → ∀ r' c', c' < cols → t' (r' * cols + c') =
      if r' = r ∧ c' < n then t ((r + 1) * cols + c') else t (r' * cols + c'))
    (fun _ r' c' _ => by simp) fun n hn t' ih hle r' c' hc' => ?_
  · rw [hloop le_rfl r' c' hc']
    simp [hc']
  · by_cases he : r' * cols + c' = r * cols + n
    · obtain ⟨rfl, rfl⟩ := pos_inj hc' hn he
      -- the next row has not been written
      rw [Function.update_self, ih (by omega) _ _ hn, if_neg (by omega), if_pos (by omega)]
    · have hne : ¬ (r' = r ∧ c' = n) := fun hc => he (by rw [hc.1, hc.2])
      rw [Function.update_of_ne he, ih (by omega) _ _ hc']
      by_cases h1 : r' = r ∧ c' < n
      · rw [if_pos h1, if_pos (by omega)]
      · rw [if_neg h1, if_neg (by omega)]

theorem upto_copyRows (t : ℕ → UInt8) (cols n : ℕ) {r c : ℕ} (hc : c < cols) :
    upto n (fun r t => upto cols (fun c t =>
      Function.update t (r * cols + c) (t ((r + 1) * cols + c))) t) t (r * cols + c) =
      if r < n then t ((r + 1) * cols + c) else t (r * cols + c) := by
  induction n generalizing r with
  | zero => simp
  | succ n ih =>
    rw [upto_succ, upto_copyRow _ _ _ hc]
    by_cases hr : r = n
    · subst hr
      rw [if_pos rfl, ih, if_neg (by omega), if_pos (by omega)]
    · rw [if_neg hr, ih]
      by_cases hlt : r < n
      · rw [if_pos hlt, if_pos (by omega)]
      · rw [if_neg hlt, if_neg (by omega)]

theorem upto_clearRow (t : ℕ → UInt8) (cols r : ℕ) (v : UInt8) {r' c' : ℕ} (hc' : c' < cols) :
    upto cols (fun c t => Function.update t (r * cols + c) v) t (r' * cols + c') =
      if r' = r then v else t (r' * cols + c') := by
  have hloop := upto_induction (n := cols) (s := t)
    (f := fun c t => Function.update t (r * cols + c) v)
    (fun n t' => ∀ r' c', c' < cols → t' (r' * cols + c') =
      if r' = r ∧ c' < n then v else t (r' * cols + c'))
    (fun r' c' _ => by simp) fun n hn t' ih r' c' hc' => ?_
  · rw [hloop r' c' hc']
    simp [hc']
  · by_cases he : r' * cols + c' = r * cols + n
    · obtain ⟨rfl, rfl⟩ := pos_inj hc' hn he
      rw [Function.update_self, if_pos (by omega)]
    · have hne : ¬ (r' = r ∧ c' = n) := fun hc => he (by rw [hc.1, hc.2])
      rw [Function.update_of_ne he, ih _ _ hc']
      by_cases h1 : r' = r ∧ c' < n
      · rw [if_pos h1, if_pos (by omega)]
      · rw [if_neg h1, if_neg (by omega)]

/-- **The grid after scrolling.** -/
theorem conTextScrollLocked_spec (h : Frame K s) (ht : s.text = some t) :
    ∃ t', conTextScrollLocked s = { s with text := some t' } ∧ ∀ r c, c < s.cols →
      r < s.rows → t' (r * s.capCols + c) =
        if r + 1 < s.rows then t ((r + 1) * s.capCols + c) else 0x20 := by
  unfold conTextScrollLocked
  rw [ht, h.capCols]
  refine ⟨_, rfl, fun r c hc hr => ?_⟩
  rw [upto_clearRow _ _ _ _ hc, upto_copyRows _ _ _ hc]
  by_cases hlast : r + 1 < s.rows
  · rw [if_neg (by omega), if_pos (by omega), if_pos hlast]
  · rw [if_pos (by omega), if_neg hlast]

/-- A blank has no pixels. -/
theorem glyph_blank (r c : ℕ) : bitAt (fbFontGlyph 0x20 r) c = false := by
  have hrow : sFont.getD ((0x20 : UInt8) - 0x20).toNat [] = List.replicate 16 0 := rfl
  have hzero : fbFontGlyph 0x20 r = 0 := by
    unfold fbFontGlyph
    rw [if_neg (by decide)]
    change (sFont.getD ((0x20 : UInt8) - 0x20).toNat []).getD r 0 = 0
    rw [hrow, List.getD_eq_getElem?_getD, List.getElem?_replicate]
    split <;> rfl
  rw [hzero, bitAt]
  simp

/-- The pixels are moved up by the height of a row. -/
theorem Frame.moveRows (h : Frame K s) : ∃ f,
    (if 0 < (s.rows - 1) * fontH then
      fbCopyareaLocked s 0 (s.top + fontH) s.width ((s.rows - 1) * fontH) 0 s.top else s) =
        { s with fb := f } ∧
    Overwrites s.fb f (rect s.stride 0 s.top s.width ((s.rows - 1) * fontH)) fun i =>
      s.fb.pixel (i + fontH * s.stride) := by
  by_cases hh : 0 < (s.rows - 1) * fontH
  · have hbottom := h.bottom
    have hrows := h.rows
    rw [if_pos hh]
    refine fbCopyareaLocked_spec h.fits h.base h.width_pos hh (by decide) ?_
    dsimp only [fontH] at *
    omega
  · rw [if_neg hh, Nat.eq_zero_of_not_pos hh, rect_zero]
    exact ⟨s.fb, rfl, overwrites_refl _ _⟩

/-- **The pixels after scrolling.** -/
theorem conScrollLocked_spec (h : Frame K s) (ht : s.text = some t) :
    ∃ f t', conScrollLocked s = { s with
        fb := f
        text := some t' } ∧
      Frame K { s with
        fb := f
        text := some t' } ∧
      (∀ r c, c < s.cols → r < s.rows → t' (r * s.capCols + c) =
        if r + 1 < s.rows then t ((r + 1) * s.capCols + c) else 0x20) ∧
      ∀ x y, Area s x y → f.pixel (y * s.stride + x) =
        if y < s.top + (s.rows - 1) * fontH then s.fb.pixel ((y + fontH) * s.stride + x) else s.bg := by
  obtain ⟨t', ht', htext⟩ := conTextScrollLocked_spec h ht
  have h1 : Frame K { s with text := some t' } :=
    ⟨h.fits, h.base, h.ready, h.enabled, h.cols, h.rows, h.right, h.bottom, h.capCols, h.capRows,
      h.size, h.screen, h.inside⟩
  have hbottom := h.bottom
  have hrows := h.rows
  have hfit := h.fits.1
  obtain ⟨f1, he1, hf1⟩ := h1.moveRows
  have h2 : Frame K { s with
      text := some t'
      fb := f1 } := by
    refine h1.draw hf1 (rect_subset (by omega) (by omega) (by omega) ?_)
    dsimp only [fontH] at *
    omega
  have hlast : s.top + (s.rows - 1) * fontH + fontH ≤ s.height := by
    dsimp only [fontH] at *
    omega
  obtain ⟨f2, he2, hf2⟩ := fbFillrectLocked_spec (x := 0) (w := s.width) h2.fits h2.base h2.width_pos
    (by decide) (by simp) hlast s.bg
  refine ⟨f2, t', ?_, ?_, htext, fun x y ha => ?_⟩
  · unfold conScrollLocked
    rw [if_neg (by omega), ht']
    dsimp only
    dsimp only at he1
    rw [he1]
    exact he2
  · refine h2.draw hf2 (rect_subset (by omega) (by omega) (by simp) ?_)
    dsimp only [fontH] at *
    omega
  · have hxs := ha.lt_stride h
    have hw := h.right
    obtain ⟨hx, hy1, hy2⟩ := ha
    have hm1 : y * s.stride + x ∈ rect s.stride 0 s.top s.width ((s.rows - 1) * fontH) ↔ _ :=
      mem_rect_iff hxs (by omega)
    have hm2 : y * s.stride + x ∈
        rect s.stride 0 (s.top + (s.rows - 1) * fontH) s.width fontH ↔ _ :=
      mem_rect_iff hxs (by omega)
    by_cases hlast : y < s.top + (s.rows - 1) * fontH
    · rw [if_pos hlast, hf2.pixel_old _ fun hm => by have := hm2.mp hm; omega]
      refine (hf1.pixel _ (hm1.mpr ⟨by omega, by omega, hy1, hlast⟩)).trans ?_
      congr 1
      ring
    · rw [if_neg hlast]
      refine hf2.pixel _ (hm2.mpr ⟨by omega, by omega, by omega, ?_⟩)
      dsimp only [fontH] at *
      omega

theorem Clean.scroll (h : Clean K s) : ∃ f t, conScrollLocked s = { s with
      fb := f
      text := some t } ∧ Clean K { s with
      fb := f
      text := some t } := by
  obtain ⟨t, ht, hplain⟩ := h.shown
  obtain ⟨f, t', he, hframe, htext, hpix⟩ := conScrollLocked_spec h.frame ht
  refine ⟨f, t', he, hframe, h.hidden, t', rfl, fun x y ha => ?_⟩
  have ha' : Area s x y := ha
  obtain ⟨hx, hy1, hy2⟩ := ha'
  have hrow : (y - s.top) / fontH < s.rows := by
    dsimp only [fontH] at *
    omega
  have hcol : x / fontW < s.cols := by
    dsimp only [fontW] at *
    omega
  refine (hpix x y ha).trans ?_
  have hbit : glyphBit { s with
      fb := f
      text := some t' } t' x y = bitAt (fbFontGlyph
        (if (y - s.top) / fontH + 1 < s.rows then t (((y - s.top) / fontH + 1) * s.capCols + x / fontW)
          else 0x20) ((y - s.top) % fontH)) (x % fontW) := by
    rw [← htext _ _ hcol hrow]
    rfl
  rw [hbit]
  by_cases hlast : y < s.top + (s.rows - 1) * fontH
  · have hnext : (y + fontH - s.top) / fontH = (y - s.top) / fontH + 1 ∧
        (y + fontH - s.top) % fontH = (y - s.top) % fontH ∧ (y - s.top) / fontH + 1 < s.rows := by
      dsimp only [fontH] at *
      omega
    have ha2 : Area s x (y + fontH) := ⟨hx, by omega, by
      dsimp only [fontH] at *
      omega⟩
    rw [if_pos hlast, hplain x (y + fontH) ha2, if_pos hnext.2.2, glyphBit, hnext.1, hnext.2.1]
  · have hend : ¬ (y - s.top) / fontH + 1 < s.rows := by
      dsimp only [fontH] at *
      omega
    rw [if_neg hlast, if_neg hend, glyph_blank]
    rfl

/-! ## Characters -/

theorem Clean.newline (h : Clean K s) :
    Clean K (conNewlineLocked s) ∧ OnGrid (conNewlineLocked s) ∧ (conNewlineLocked s).cx = 0 := by
  have hcols := h.frame.cols
  have hrows := h.frame.rows
  have hm := h.move 0 (s.cy + 1)
  unfold conNewlineLocked
  dsimp only
  by_cases hend : s.rows ≤ s.cy + 1
  · obtain ⟨f, t, he, hc⟩ := hm.scroll
    rw [if_pos hend, he]
    exact ⟨hc.move 0 (s.rows - 1), ⟨hcols, Nat.sub_lt hrows Nat.one_pos⟩, rfl⟩
  · rw [if_neg hend]
    exact ⟨hm, ⟨hcols, by simpa using hend⟩, rfl⟩

/-- A character is put into the grid and drawn at the cursor. -/
theorem Clean.cell (h : Clean K s) (hg : OnGrid s) (ch : UInt8) :
    ∃ f t, conDrawLocked (s.setText (s.cy * s.capCols + s.cx) ch) (s.cx * fontW)
      (s.top + s.cy * fontH) ch = { s with
        fb := f
        text := t } ∧ Clean K { s with
        fb := f
        text := t } := by
  obtain ⟨t, ht, hplain⟩ := h.shown
  have hset : s.setText (s.cy * s.capCols + s.cx) ch =
      { s with text := some (Function.update t (s.cy * s.capCols + s.cx) ch) } := by
    rw [State.setText, ht]
    rfl
  have hframe : Frame K { s with text := some (Function.update t (s.cy * s.capCols + s.cx) ch) } :=
    ⟨h.frame.fits, h.frame.base, h.frame.ready, h.frame.enabled, h.frame.cols, h.frame.rows,
      h.frame.right, h.frame.bottom, h.frame.capCols, h.frame.capRows, h.frame.size, h.frame.screen,
      h.frame.inside⟩
  obtain ⟨f, he, hframe', hf⟩ := conDraw_cell hframe hg.1 hg.2 s.fg s.bg
    (Function.update t (s.cy * s.capCols + s.cx) ch)
  dsimp only at he hf
  rw [Function.update_self] at he
  rw [hset]
  refine ⟨f, _, he, hframe', h.hidden, _, rfl, fun x y ha => ?_⟩
  refine (hf x y ha).trans ?_
  by_cases hin : InCell s s.cx s.cy x y
  · exact if_pos hin
  · -- another cell has another place in the grid
    refine (if_neg hin).trans ((hplain x y ha).trans ?_)
    have hcol : x / fontW < s.capCols := by
      have hx := ha.1
      rw [h.frame.capCols]
      dsimp only [fontW] at *
      omega
    have hne : (y - s.top) / fontH * s.capCols + x / fontW ≠ s.cy * s.capCols + s.cx := fun heq =>
      hin (pos_inj hcol (h.frame.capCols ▸ hg.1) heq)
    have hbit : glyphBit s t x y =
        glyphBit s (Function.update t (s.cy * s.capCols + s.cx) ch) x y := by
      rw [glyphBit, glyphBit, Function.update_of_ne hne]
    exact congrArg (fun b : Bool => if b then s.fg else s.bg) hbit

theorem Clean.putGlyph (h : Clean K s) (hg : OnGrid s) (ch : UInt8) :
    Clean K (conPutGlyph s ch) ∧ OnGrid (conPutGlyph s ch) ∧
      ((conPutGlyph s ch).cx = s.cx + 1 ∨ (conPutGlyph s ch).cx = 0) := by
  obtain ⟨f, t, he, hc⟩ := h.cell hg ch
  have hm := hc.move (s.cx + 1) s.cy
  have hput : conPutGlyph s ch = if s.cols ≤ s.cx + 1 then conNewlineLocked { s with
      fb := f
      text := t
      cx := s.cx + 1 } else { s with
      fb := f
      text := t
      cx := s.cx + 1 } := by
    have hdraw : conDrawLocked (s.setText (s.cy * s.capCols + s.cx) ch)
        ((s.setText (s.cy * s.capCols + s.cx) ch).cx * fontW)
        ((s.setText (s.cy * s.capCols + s.cx) ch).top +
          (s.setText (s.cy * s.capCols + s.cx) ch).cy * fontH) ch = { s with
        fb := f
        text := t } := he
    unfold conPutGlyph
    simp only [if_pos (show s.cy < s.rows ∧ s.cx < s.cols from ⟨hg.2, hg.1⟩)]
    rw [hdraw]
  rw [hput]
  by_cases hend : s.cols ≤ s.cx + 1
  · obtain ⟨h1, h2, h3⟩ := hm.newline
    rw [if_pos hend]
    exact ⟨h1, h2, .inr h3⟩
  · rw [if_neg hend]
    exact ⟨hm, ⟨by simpa using hend, hg.2⟩, .inl rfl⟩

/-- **The loop for a tab ends** at a tab stop: each round goes one column on, or
to the first. -/
theorem Clean.tabLoop (h : Clean K s) (hg : OnGrid s) (fuel : ℕ)
    (hf : conTabStop ≤ s.cx % conTabStop + fuel) (hpos : 0 < fuel) :
    Clean K (tabLoop fuel s) ∧ OnGrid (tabLoop fuel s) ∧ (tabLoop fuel s).cx % conTabStop = 0 := by
  induction fuel generalizing s with
  | zero => exact absurd hpos (by omega)
  | succ fuel ih =>
    obtain ⟨h1, h2, h3⟩ := h.putGlyph hg 0x20
    rw [Gfx.tabLoop]
    by_cases hend : (conPutGlyph s 0x20).cx % conTabStop = 0
    · rw [if_neg fun hc => hc.1 hend]
      exact ⟨h1, h2, hend⟩
    · rw [if_pos ⟨hend, h2.1⟩]
      rcases h3 with h3 | h3
      · rw [h3] at hend
        dsimp only [conTabStop] at hend hf
        refine ih h1 h2 ?_ (by omega)
        rw [h3]
        dsimp only [conTabStop]
        omega
      · rw [h3] at hend
        exact absurd rfl hend

/-- **A character keeps the screen as the grid has it.** -/
theorem Clean.putchar (h : Clean K s) (hg : OnGrid s) (ch : UInt8) :
    Clean K (conPutcharLocked s ch) ∧ OnGrid (conPutcharLocked s ch) := by
  unfold conPutcharLocked
  split
  · exact ⟨h.newline.1, h.newline.2.1⟩
  split
  · exact ⟨h.move 0 s.cy, h.frame.cols, hg.2⟩
  split
  · split
    · have hg' : OnGrid { s with cx := s.cx - 1 } := ⟨lt_of_le_of_lt (Nat.sub_le _ _) hg.1, hg.2⟩
      obtain ⟨f, t, he, hc⟩ := (h.move (s.cx - 1) s.cy).cell hg' 0x20
      dsimp only
      rw [if_pos ⟨hg'.2, hg'.1⟩]
      refine (congrArg (fun s => Clean K s ∧ OnGrid s) he).mpr ⟨hc, hg'⟩
    · exact ⟨h, hg⟩
  split
  · obtain ⟨h1, h2, -⟩ := h.tabLoop hg conTabStop (by omega) (by decide)
    exact ⟨h1, h2⟩
  · obtain ⟨h1, h2, -⟩ := h.putGlyph hg ch
    exact ⟨h1, h2⟩

theorem Clean.putchars (h : Clean K s) (hg : OnGrid s) (chs : List UInt8) :
    Clean K (chs.foldl conPutcharLocked s) ∧ OnGrid (chs.foldl conPutcharLocked s) := by
  induction chs generalizing s with
  | nil => exact ⟨h, hg⟩
  | cons ch chs ih =>
    obtain ⟨h1, h2⟩ := h.putchar hg ch
    exact ih h1 h2

theorem Good.write (h : Good K s) (buf : List UInt8) (now : ℕ) : Good K (fbConsoleWrite s buf now) := by
  unfold fbConsoleWrite
  split
  · exact h
  · rw [if_neg (by simp [h.frame.ready])]
    obtain ⟨h1, h2⟩ := h.hide
    obtain ⟨h3, h4⟩ := h1.putchars h2 buf
    exact h3.restart h4 now

theorem Good.puts (h : Good K s) (str : List UInt8) (now : ℕ) : Good K (fbConsolePuts s str now) := by
  unfold fbConsolePuts
  rw [if_neg (by simp [h.frame.ready])]
  obtain ⟨h1, h2⟩ := h.hide
  obtain ⟨h3, h4⟩ := h1.putchars h2 _
  exact h3.restart h4 now

/-! ## Clearing -/

/-- A grid that has been allocated is blank, and as large as it was asked to
be. -/
theorem conTextAllocLocked_spec {cols rows : ℕ} {mem : Option (ℕ → UInt8)} (hc : 0 < cols) (hr : 0 < rows)
    (h : (conTextAllocLocked s cols rows mem).text.isSome) :
    ∃ t, conTextAllocLocked s cols rows mem = { s with
        text := some t
        capCols := cols
        capRows := rows } ∧ ∀ i < cols * rows, t i = 0x20 := by
  unfold conTextAllocLocked at h ⊢
  rw [if_neg (by omega)] at h ⊢
  by_cases hsame : s.text.isSome ∧ cols = s.capCols ∧ rows = s.capRows
  · rw [if_pos hsame] at h ⊢
    obtain ⟨hsome, rfl, rfl⟩ := hsame
    obtain ⟨t, ht⟩ := Option.isSome_iff_exists.mp hsome
    refine ⟨fun i => if i < s.capCols * s.capRows then 0x20 else t i, ?_, fun i hi => if_pos hi⟩
    rw [conTextClearLocked, ht]
    rfl
  · rw [if_neg hsame] at h ⊢
    dsimp only at h ⊢
    by_cases hbig : 1024 * 1024 < cols * rows
    · rw [if_pos hbig] at h
      exact absurd h (by simp)
    · rw [if_neg hbig] at h ⊢
      cases mem with
      | none => exact absurd h (by simp)
      | some p =>
        exact ⟨fun i => if i < cols * rows then 0x20 else p i, rfl, fun i hi => if_pos hi⟩

/-- A blank grid on a screen that is cleared. -/
theorem plain_of_blank (h : Frame K s) (ht : ∀ i < s.cols * s.rows, t i = 0x20)
    (hf : ∀ x y, Area s x y → s.fb.pixel (y * s.stride + x) = s.bg) : Plain s t := by
  intro x y ha
  have hcell : (y - s.top) / fontH * s.capCols + x / fontW < s.cols * s.rows := by
    obtain ⟨hx, hy1, hy2⟩ := ha
    have hrow : (y - s.top) / fontH + 1 ≤ s.rows := by
      dsimp only [fontH] at *
      omega
    have hcol : x / fontW < s.cols := by
      dsimp only [fontW] at *
      omega
    have hmul : ((y - s.top) / fontH + 1) * s.cols ≤ s.rows * s.cols := Nat.mul_le_mul_right _ hrow
    rw [Nat.succ_mul] at hmul
    rw [h.capCols, Nat.mul_comm s.cols]
    omega
  rw [hf x y ha, glyphBit, ht _ hcell, glyph_blank]
  rfl

theorem conCursorPaintLocked_text (s : State) (b : Bool) :
    (conCursorPaintLocked s b).text = s.text := by
  unfold conCursorPaintLocked
  split
  · rfl
  split
  · rfl
  dsimp only
  split
  · rfl
  split <;> rfl

theorem conCursorHideLocked_text (s : State) : (conCursorHideLocked s).text = s.text := by
  unfold conCursorHideLocked
  split
  · exact conCursorPaintLocked_text s false
  · rfl

theorem conCursorRestartLocked_text (s : State) (now : ℕ) :
    (conCursorRestartLocked s now).text = s.text :=
  (conCursorPaintLocked_text _ true).trans (conCursorHideLocked_text s)

/-- **`fb_console_clear_full`.** -/
theorem Good.clearFull {mem : Option (ℕ → UInt8)} (h : Good K s)
    (hsome : (fbConsoleClearFull s mem now).text.isSome) : Good K (fbConsoleClearFull s mem now) := by
  have hframe := h.frame
  have hw := hframe.right
  have hh := hframe.bottom
  have hc := hframe.cols
  have hr := hframe.rows
  have hfit := hframe.fits.1
  have hcols : 0 < s.width / fontW := by
    dsimp only [fontW] at *
    omega
  have hrows : 0 < s.height / fontH := by
    dsimp only [fontH] at *
    omega
  unfold fbConsoleClearFull at hsome ⊢
  rw [if_neg (by simp [hframe.ready])] at hsome ⊢
  rw [conCursorRestartLocked_text] at hsome
  unfold conResetFullLocked at hsome ⊢
  dsimp only at hsome ⊢
  have hbase : Frame K { s with cursorPhase := false } := hframe.cursor _ _ _ _
  have hheight : 0 < s.height := by
    dsimp only [fontH] at *
    omega
  obtain ⟨f, he, hf⟩ := conFill_spec hbase.fits hbase.base hbase.width_pos hheight le_rfl s.bg
  rw [he] at hsome ⊢
  dsimp only at hsome hf ⊢
  obtain ⟨t, ht, hblank⟩ := conTextAllocLocked_spec hcols hrows hsome
  rw [ht]
  have hclean : Frame K { s with
      fb := f
      cursorPhase := false
      top := 0
      cols := s.width / fontW
      rows := s.height / fontH
      cx := 0
      cy := 0
      text := some t
      capCols := s.width / fontW
      capRows := s.height / fontH } := by
    refine ⟨hframe.fits, hframe.base, hframe.ready, hframe.enabled, hcols, hrows, ?_, ?_, rfl, rfl,
      hframe.size, hframe.screen, ?_⟩
    · exact Nat.div_mul_le_self _ _
    · dsimp only
      rw [Nat.zero_add]
      exact Nat.div_mul_le_self _ _
    · exact hf.written_subset hframe.screen hframe.inside
  refine Clean.restart ⟨hclean, rfl, t, rfl, plain_of_blank hclean hblank fun x y ha => ?_⟩
    ⟨hcols, hrows⟩ now
  have hxs := ha.lt_stride hclean
  have hxw := hclean.right
  have hyh := hclean.bottom
  obtain ⟨hx, hy1, hy2⟩ := ha
  dsimp only at hx hy1 hy2 hxs hxw hyh ⊢
  exact hf.pixel _ ((mem_rect_iff hxs (by simpa using hfit)).mpr ⟨by omega, by omega, by omega, by
    omega⟩)

/-! ## The start -/

theorem fbFillrectLocked_keeps (s : State) (x y w h : ℕ) (pixel : UInt32) :
    (fbFillrectLocked s x y w h pixel).text = s.text ∧
      (fbFillrectLocked s x y w h pixel).width = s.width := by
  unfold fbFillrectLocked
  split
  · exact ⟨rfl, rfl⟩
  split <;> exact ⟨rfl, rfl⟩

theorem conFill_keeps (s : State) (y0 y1 : ℕ) (pixel : UInt32) :
    (conFill s y0 y1 pixel).text = s.text ∧ (conFill s y0 y1 pixel).width = s.width := by
  unfold conFill
  split
  · exact ⟨rfl, rfl⟩
  dsimp only
  generalize (if s.height < y1 then s.height else y1) = y
  split
  · exact ⟨rfl, rfl⟩
  · exact fbFillrectLocked_keeps _ _ _ _ _ _

/-- **The text area** is on the screen, below the logo or not. -/
theorem layout_spec (boot : Boot) (logo : ℕ → UInt32) (hfits : Fits s) (hb : s.base ≠ 0)
    (hw : 0 < s.width) (htop : s.top = 0) (hrows : s.rows = s.height / fontH) (hr : 0 < s.rows) :
    ∃ f top rows, layout s boot logo = { s with
        fb := f
        top := top
        rows := rows } ∧ 0 < rows ∧ top + rows * fontH ≤ s.height := by
  have hheight : 0 < s.height := by
    dsimp only [fontH] at *
    omega
  obtain ⟨f, hfill, -⟩ := conFill_spec hfits hb hw hheight le_rfl s.bg
  have hwhole : conFill s 0 s.height s.bg = { s with
      fb := f
      top := 0
      rows := s.height / fontH } := by
    rw [hfill, ← htop, ← hrows]
  have hend : 0 + s.height / fontH * fontH ≤ s.height := by
    rw [Nat.zero_add]
    exact Nat.div_mul_le_self _ _
  have hkeep : ∃ f top rows, conFill s 0 s.height s.bg = { s with
      fb := f
      top := top
      rows := rows } ∧ 0 < rows ∧ top + rows * fontH ≤ s.height :=
    ⟨f, 0, s.height / fontH, hwhole, hrows ▸ hr, hend⟩
  unfold layout
  split
  · dsimp only
    generalize toUint32 _ = top
    by_cases hbelow : conMinRows ≤ if top < s.height then (s.height - top) / fontH else 0
    · rw [if_pos hbelow]
      refine ⟨_, _, _, rfl, lt_of_lt_of_le (by decide) hbelow, ?_⟩
      by_cases hlt : top < s.height
      · have hdiv := Nat.div_mul_le_self (s.height - top) fontH
        rw [if_pos hlt]
        omega
      · rw [if_neg hlt] at hbelow
        exact absurd hbelow (by decide)
    · rw [if_neg hbelow]
      exact hkeep
  · exact hkeep

/-- **The text area is cleared** and the cursor shown, with a blank grid. -/
theorem good_blank (hfits : Fits s) (hb : s.base ≠ 0) (hc : 0 < s.cols) (hr : 0 < s.rows)
    (hright : s.cols * fontW ≤ s.width) (hbottom : s.top + s.rows * fontH ≤ s.height)
    (ht : s.text = some t) (hblank : ∀ i < s.cols * s.rows, t i = 0x20) (hcapCols : s.capCols = s.cols)
    (hcapRows : s.capRows = s.rows) (hcx : s.cx < s.cols) (hcy : s.cy < s.rows)
    (hK : s.stride = K.stride ∧ s.width = K.width ∧ s.height = K.height) (hall : K.allowed = Set.univ)
    (now : ℕ) :
    Good K (conCursorRestartLocked { conFill s s.top s.height s.bg with
      ready := true
      cursorEnabled := true
      cursorPhase := false } now) := by
  have hw : 0 < s.width := by
    dsimp only [fontW] at *
    omega
  have htop : s.top < s.height := by
    dsimp only [fontH] at *
    omega
  obtain ⟨f, he, hf⟩ := conFill_spec hfits hb hw htop le_rfl s.bg
  rw [he]
  have hframe : Frame K { s with
      fb := f
      ready := true
      cursorEnabled := true
      cursorPhase := false } :=
    ⟨hfits, hb, rfl, rfl, hc, hr, hright, hbottom, hcapCols, hcapRows, hK, hall ▸ Set.subset_univ _,
      fun _ _ => hall ▸ Set.mem_univ _⟩
  refine Clean.restart ⟨hframe, rfl, t, ht, plain_of_blank hframe hblank fun x y ha => ?_⟩
    ⟨hcx, hcy⟩ now
  have hxs := ha.lt_stride hframe
  obtain ⟨hx, hy1, hy2⟩ := ha
  have hfit := hfits.1
  dsimp only at hx hy1 hy2 hxs ⊢
  exact hf.pixel _ ((mem_rect_iff hxs (by omega)).mpr ⟨by omega, by omega, hy1, by omega⟩)

/-- A screen whose positions all fit into 32 bits. -/
def Boot.Fits (boot : Boot) : Prop :=
  boot.width ≤ boot.stride ∧ (boot.height - 1) * boot.stride + boot.width ≤ 2 ^ 32

/-- **`fb_console_init_boot`** shows a blank grid and the cursor. -/
theorem good_init {boot : Boot} {pixel logo : ℕ → UInt32} {mem : Option (ℕ → UInt8)}
    (hboot : boot.Fits) (hsome : (fbConsoleInitBoot (unset pixel) boot logo mem now).text.isSome) :
    Good ⟨boot.stride, boot.width, boot.height, Set.univ⟩ (fbConsoleInitBoot (unset pixel) boot logo mem now) := by
  unfold fbConsoleInitBoot at hsome ⊢
  by_cases hok : boot.base = 0 ∨ boot.width = 0 ∨ boot.height = 0
  · rw [if_pos hok] at hsome
    exact absurd hsome (by simp [unset])
  rw [if_neg hok] at hsome ⊢
  dsimp only at hsome ⊢
  by_cases hsize : boot.width / fontW = 0 ∨ boot.height / fontH = 0
  · rw [if_pos hsize] at hsome
    exact absurd hsome (by simp [unset])
  rw [if_neg hsize] at hsome ⊢
  have hcols : 0 < boot.width / fontW := Nat.pos_of_ne_zero fun he => hsize (.inl he)
  have hwidth : 0 < boot.width := Nat.pos_of_ne_zero fun he => hok (.inr (.inl he))
  obtain ⟨f, top, rows, hlayout, hrows, hbottom⟩ := layout_spec boot logo (s :=
    { unset pixel with
      base := boot.base
      stride := boot.stride
      width := boot.width
      height := boot.height
      fg := fbPackPixel conFgRgb boot.format
      bg := fbPackPixel logoSplashBgRgb boot.format
      cx := 0
      cy := 0
      ready := false
      top := 0
      cols := boot.width / fontW
      rows := boot.height / fontH }) hboot (fun he => hok (.inl he)) hwidth rfl rfl
    (Nat.pos_of_ne_zero fun he => hsize (.inr he))
  rw [hlayout] at hsome ⊢
  dsimp only at hsome hbottom ⊢
  rw [conCursorRestartLocked_text] at hsome
  dsimp only at hsome
  rw [(conFill_keeps _ _ _ _).1] at hsome
  obtain ⟨t, ht, hblank⟩ := conTextAllocLocked_spec hcols hrows hsome
  rw [ht]
  dsimp only
  apply good_blank (t := t)
  · exact hboot
  · exact fun he => hok (.inl he)
  · exact hcols
  · exact hrows
  · exact Nat.div_mul_le_self _ _
  · exact hbottom
  · rfl
  · exact hblank
  · rfl
  · rfl
  · exact hcols
  · exact hrows
  · exact ⟨rfl, rfl, rfl⟩
  · rfl

/-- What the calls may write. -/
def Boot.canvas (boot : Boot) : Canvas :=
  ⟨boot.stride, boot.width, boot.height, rect boot.stride 0 0 boot.width boot.height⟩

theorem State.fresh_pixel (s : State) : s.fresh.fb.pixel = s.fb.pixel := rfl

/-- The writes before are forgotten. -/
theorem Good.fresh {boot : Boot} (h : Good ⟨boot.stride, boot.width, boot.height, Set.univ⟩ s) :
    Good boot.canvas s.fresh := by
  obtain ⟨h1, h2, h3⟩ := h.frame.size
  refine ⟨⟨h.frame.fits, h.frame.base, h.frame.ready, h.frame.enabled, h.frame.cols, h.frame.rows,
    h.frame.right, h.frame.bottom, h.frame.capCols, h.frame.capRows, h.frame.size, ?_,
    fun i hi => absurd hi (by simp [State.fresh])⟩, h.grid, h.shown⟩
  change rect s.stride 0 0 s.width s.height ⊆ rect boot.stride 0 0 boot.width boot.height
  rw [h1, h2, h3]

/-! ## Runs -/

theorem Good.call (h : Good K s) {c : Call} (hc : (call s c).text.isSome) : Good K (call s c) := by
  cases c with
  | write buf now => exact h.write buf now
  | puts str now => exact h.puts str now
  | tick now => exact h.tick now
  | clearFull mem now => exact h.clearFull hc

theorem Run.good {boot : Boot} (hboot : boot.Fits) (h : Run boot s) : Good boot.canvas s := by
  induction h with
  | init pixel logo mem now hsome => exact (good_init hboot hsome).fresh
  | step _ hc ih => exact ih.call hc

/-- **The text grid and the framebuffer agree** after every run of calls on a
screen whose positions fit into 32 bits: the cursor is on the grid, only pixels
of the screen are written, and the text area shows the grid, with the cell of
the cursor inverted if and only if the phase is 1. -/
theorem console_consistent {boot : Boot} {s : State} (hboot : boot.Fits) (h : Run boot s) :
    Consistent s := (h.good hboot).consistent rfl

/-! ### A screen -/

/-- A screen of one cell. -/
def exampleBoot : Boot := ⟨4096, 8, 16, 8, 1⟩

theorem run_exampleBoot : Run exampleBoot
    (fbConsoleInitBoot (unset fun _ => 0) exampleBoot (fun _ => 0) (some fun _ => 0) 0).fresh :=
  .init _ _ _ _ rfl

/-- A character is written, and the cursor blinks. -/
theorem console_consistent_write : ∃ s, Run exampleBoot s ∧ s.cursorPhase = true ∧ Consistent s := by
  have hfits : exampleBoot.Fits := ⟨by decide, by decide⟩
  have hgood := (run_exampleBoot.good hfits).write [0x41] 0
  obtain ⟨t, ht, -⟩ := hgood.shown
  have hrun := run_exampleBoot.step (c := .write [0x41] 0) (by rw [call, ht]; rfl)
  exact ⟨_, hrun, rfl, console_consistent hfits hrun⟩

/-! ### Positions that wrap -/

theorem State.pos_lt (s : State) (x y : ℕ) : s.pos x y < 2 ^ 32 := Nat.mod_lt _ (by decide)

theorem fbFillrectLocked_beyond (s : State) (x y w h : ℕ) (pixel : UInt32) {i : ℕ}
    (hi : 2 ^ 32 + s.width ≤ i) : (fbFillrectLocked s x y w h pixel).fb.pixel i = s.fb.pixel i := by
  unfold fbFillrectLocked
  split
  · rfl
  split
  · rfl
  refine upto_induction (fun _ (f : Fb) => f.pixel i = s.fb.pixel i) rfl fun j _ f hf => ?_
  refine ((overwrites_fillRow f s.base pixel _ _).pixel_old i fun hm => ?_).trans hf
  have hpos := s.pos_lt x (y + j)
  have hlt := hm.2
  split at hlt <;> omega

/-- Nothing is filled past the end of 32-bit positions and a row. -/
theorem conFill_beyond (s : State) (y0 y1 : ℕ) (pixel : UInt32) {i : ℕ} (hi : 2 ^ 32 + s.width ≤ i) :
    (conFill s y0 y1 pixel).fb.pixel i = s.fb.pixel i := by
  unfold conFill
  split
  · rfl
  dsimp only
  generalize (if s.height < y1 then s.height else y1) = y
  split
  · rfl
  · exact fbFillrectLocked_beyond _ _ _ _ _ _ hi

theorem conDraw_beyond (s : State) (px py : ℕ) (ch : UInt8) (on off : UInt32) {i : ℕ}
    (hi : 2 ^ 32 ≤ i) : (conDraw s px py ch on off).fb.pixel i = s.fb.pixel i := by
  refine upto_induction (fun _ (f : Fb) => f.pixel i = s.fb.pixel i) rfl fun r _ f hf => ?_
  refine upto_induction (fun _ (f : Fb) => f.pixel i = s.fb.pixel i) hf fun c _ f hf => ?_
  refine Eq.trans (Function.update_of_ne ?_ _ _) hf
  have hpos := s.pos_lt (px + c) (py + r)
  omega

theorem conCursorPaintLocked_beyond (s : State) (b : Bool) {i : ℕ} (hi : 2 ^ 32 ≤ i) :
    (conCursorPaintLocked s b).fb.pixel i = s.fb.pixel i := by
  unfold conCursorPaintLocked
  split
  · rfl
  split
  · rfl
  dsimp only
  split
  · rfl
  split <;> exact conDraw_beyond _ _ _ _ _ _ hi

theorem conCursorHideLocked_beyond (s : State) {i : ℕ} (hi : 2 ^ 32 ≤ i) :
    (conCursorHideLocked s).fb.pixel i = s.fb.pixel i := by
  unfold conCursorHideLocked
  split
  · exact conCursorPaintLocked_beyond s false hi
  · rfl

theorem conCursorRestartLocked_beyond (s : State) (now : ℕ) {i : ℕ} (hi : 2 ^ 32 ≤ i) :
    (conCursorRestartLocked s now).fb.pixel i = s.fb.pixel i :=
  (conCursorPaintLocked_beyond _ true hi).trans (conCursorHideLocked_beyond s hi)

theorem conTextAllocLocked_fb (s : State) (cols rows : ℕ) (mem : Option (ℕ → UInt8)) :
    (conTextAllocLocked s cols rows mem).fb = s.fb ∧
      (conTextAllocLocked s cols rows mem).width = s.width := by
  unfold conTextAllocLocked
  split
  · exact ⟨rfl, rfl⟩
  split
  · exact ⟨rfl, rfl⟩
  dsimp only
  split
  · exact ⟨rfl, rfl⟩
  cases mem <;> exact ⟨rfl, rfl⟩

/-- **The start does not reach a pixel past the end of 32-bit positions.** -/
theorem fbConsoleInitBoot_beyond {boot : Boot} {pixel logo : ℕ → UInt32} {mem : Option (ℕ → UInt8)}
    {i : ℕ} (hw : boot.width < logoWidth) (hi : 2 ^ 32 + boot.width ≤ i) :
    (fbConsoleInitBoot (unset pixel) boot logo mem now).fb.pixel i = pixel i := by
  unfold fbConsoleInitBoot
  split
  · rfl
  dsimp only
  split
  · rfl
  unfold layout
  dsimp only
  rw [if_neg (by omega), conCursorRestartLocked_beyond _ _ (by omega)]
  dsimp only
  rw [conFill_beyond, (conTextAllocLocked_fb _ _ _ _).1, conFill_beyond]
  · rfl
  · exact hi
  · rw [(conTextAllocLocked_fb _ _ _ _).2, (conFill_keeps _ _ _ _).2]
    exact hi

/-- A screen with the scanlines `2 ^ 31` pixels apart. -/
def wideBoot : Boot := ⟨4096, 8, 80, 2 ^ 31, 1⟩

/-- The start on it. -/
def wideState : State :=
  (fbConsoleInitBoot (unset fun _ => 0) wideBoot (fun _ => 0) (some fun _ => 0) 0).fresh

theorem run_wideState : Run wideBoot wideState := .init _ _ _ _ rfl

theorem wideState_pixel : wideState.fb.pixel (4 * 2 ^ 31 + 0) = 0 := by
  have hinit : (fbConsoleInitBoot (unset fun _ => 0) wideBoot (fun _ => 0) (some fun _ => 0) 0).fb.pixel
      (4 * 2 ^ 31 + 0) = (fun _ => 0) (4 * 2 ^ 31 + 0) :=
    fbConsoleInitBoot_beyond (by decide) (by rw [wideBoot]; norm_num)
  rw [wideState, State.fresh_pixel]
  exact hinit

/-- **On a screen whose positions do not fit into 32 bits** text is drawn where
it does not belong: after a tick the fifth row of pixels is as it was before. -/
theorem wide_screen_wraps : ¬ ∀ (boot : Boot) (s : State) (c : Call), boot.width ≤ boot.stride →
    Run boot s → (call s c).text.isSome → Consistent (call s c) := by
  intro hclaim
  have hstride : wideState.stride = 2 ^ 31 := rfl
  have htick : call wideState (.tick 0) = wideState := by
    have hready : ¬ wideState.ready = false := by simp [show wideState.ready = true from rfl]
    have henabled : ¬ wideState.cursorEnabled = false := by
      simp [show wideState.cursorEnabled = true from rfl]
    have hnext : wideState.cursorNextMs = 500 := rfl
    rw [call, fbConsoleTick, if_neg hready, if_neg henabled, hnext]
    norm_num
  have hcons := hclaim wideBoot wideState (.tick 0) (by decide) run_wideState (by rw [htick]; rfl)
  rw [htick] at hcons
  obtain ⟨t, -, hshown⟩ := hcons.shown
  have hpix : wideState.fb.pixel (4 * wideState.stride + 0) = 0 := by
    rw [hstride]
    exact wideState_pixel
  have hcolour := hshown 0 4 ⟨by decide, by decide, by decide⟩
  rw [hpix, shade] at hcolour
  split at hcolour
  · exact absurd hcolour (by decide)
  · exact absurd hcolour (by decide)

end Gfx

end Csos

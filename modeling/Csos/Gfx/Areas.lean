import Csos.Gfx.Pixels
/-!
# The text console — moving a rectangle

`fb_copyarea_locked` moves any rectangle to any other place, cut off at the
edges of the screen. Its rows are moved right whatever the overlap
(`overwrites_copyRows`). What can go wrong is 32 bits wide: the sums of a
corner and a length, by which the rectangle is cut off, and the positions of
the rows. `copyarea_right_iff` says exactly when neither does.
-/

namespace Csos

namespace Gfx

variable {f g : Fb} {s : State} {sx sy w h dx dy i j limit a b n : ℕ}

/-! ## Cutting off -/

/-- How many of `n` columns or rows from `a` and from `b` on are below the limit
in both. -/
def side (limit a b n : ℕ) : ℕ := min n (min (limit - a) (limit - b))

/-- **The cutting off is right**: neither sum wraps to a value that passes for
one on the screen, except where the other one cuts off more. -/
def Clips (limit a b n : ℕ) : Prop :=
  ((a + n < 2 ^ 32 ∨ limit < a + n - 2 ^ 32) ∧ b + min n (limit - a) < 2 ^ 32) ∨
    (2 ^ 32 ≤ a + n ∧ a + n - 2 ^ 32 ≤ limit ∧ limit < (b + n) % 2 ^ 32 ∧ limit - b ≤ limit - a)

instance : Decidable (Clips limit a b n) := inferInstanceAs (Decidable (_ ∨ _))

theorem clip_clip_eq_iff (hl : limit < 2 ^ 32) (ha : a < 2 ^ 32) (hb : b < 2 ^ 32) (hn : n < 2 ^ 32) :
    clip limit b (clip limit a n) = side limit a b n ↔ Clips limit a b n := by
  unfold clip side Clips
  split_ifs <;> omega

theorem side_le_clip (hl : limit < 2 ^ 32) (ha : a < 2 ^ 32) (hb : b < 2 ^ 32) (hn : n < 2 ^ 32) :
    side limit a b n ≤ clip limit b (clip limit a n) := by
  unfold clip side
  split_ifs <;> omega

/-- From the edge on nothing wraps. -/
theorem clips_zero (hn : n < 2 ^ 32) : Clips limit 0 0 n := .inl ⟨.inl (by omega), by omega⟩

theorem clip_zero (hx : a < 2 ^ 32) : clip limit a 0 = 0 := by
  unfold clip
  split_ifs <;> omega

/-! ## The rows -/

/-- The rows that `fb_copyarea_locked` moves: `h` of `w` pixels. -/
def moveRows (s : State) (sx sy dx dy w h : ℕ) (f : Fb) : Fb :=
  let row := fun i f => fbMemmovePixels s.base (s.pos dx (dy + i)) (s.pos sx (sy + i)) w f
  if dy ≤ sy then upto h row f else downto h row f

theorem memmove_zero (base d a : ℕ) (f : Fb) : fbMemmovePixels base d a 0 f = f := by
  unfold fbMemmovePixels
  rw [if_pos (.inl rfl)]

theorem memmove_self (base d n : ℕ) (f : Fb) : fbMemmovePixels base d d n f = f := by
  unfold fbMemmovePixels
  rw [if_pos (.inr rfl)]

/-- **`fb_memmove_pixels`** copies as if through a temporary. -/
theorem memmove_pixel (base d a n : ℕ) (f : Fb) (i : ℕ) : (fbMemmovePixels base d a n f).pixel i =
    if d ≤ i ∧ i < d + n then f.pixel (i - d + a) else f.pixel i := by
  by_cases hne : d = a
  · subst hne
    rw [memmove_self]
    split
    · rw [Nat.sub_add_cancel (by omega)]
    · rfl
  · have h := overwrites_memmove f base d a n hne
    split
    · rename_i hi
      exact h.pixel i hi
    · rename_i hi
      exact h.pixel_old i hi

/-- What every row keeps. -/
theorem moveRows_keeps (P : Fb → Prop) (hrow : ∀ i < h, ∀ g, P g →
    P (fbMemmovePixels s.base (s.pos dx (dy + i)) (s.pos sx (sy + i)) w g)) (hf : P f) :
    P (moveRows s sx sy dx dy w h f) := by
  unfold moveRows
  split
  · exact upto_induction (fun _ => P) hf hrow
  · exact downto_induction (fun _ => P) hf hrow

theorem moveRows_of_zero (hz : w = 0 ∨ h = 0) : moveRows s sx sy dx dy w h f = f := by
  refine moveRows_keeps (· = f) (fun i hi g hg => ?_) rfl
  obtain rfl : w = 0 := by omega
  rw [memmove_zero, hg]

/-- What the call leaves. -/
theorem fbCopyareaLocked_fb (hb : s.base ≠ 0) (hsx : sx < 2 ^ 32) (hsy : sy < 2 ^ 32) (hdx : dx < 2 ^ 32)
    (hdy : dy < 2 ^ 32) : (fbCopyareaLocked s sx sy w h dx dy).fb =
      moveRows s sx sy dx dy (clip s.width dx (clip s.width sx w)) (clip s.height dy (clip s.height sy h)) s.fb := by
  unfold fbCopyareaLocked
  by_cases hz : w = 0 ∨ h = 0
  · rw [if_pos (by omega), moveRows_of_zero]
    rcases hz with rfl | rfl
    · rw [clip_zero hsx, clip_zero hdx]
      exact .inl rfl
    · rw [clip_zero hsy, clip_zero hdy]
      exact .inr rfl
  rw [if_neg (by omega)]
  dsimp only
  split
  · rename_i hz'
    rw [moveRows_of_zero hz']
  · rfl

/-- The rows of a rectangle are as far from each other as its corners, modulo
`2 ^ 32`. -/
theorem pos_row (s : State) (x y i : ℕ) : s.pos x (y + i) = (s.pos x y + i * s.stride) % 2 ^ 32 := by
  unfold State.pos
  rw [Nat.mod_add_mod, Nat.add_mul]
  congr 1
  omega

theorem pos_row_eq_iff : s.pos dx (dy + i) = s.pos sx (sy + i) ↔ s.pos dx dy = s.pos sx sy := by
  have h1 : s.pos dx dy < 2 ^ 32 := Nat.mod_lt _ (by norm_num)
  have h2 : s.pos sx sy < 2 ^ 32 := Nat.mod_lt _ (by norm_num)
  rw [pos_row, pos_row]
  generalize i * s.stride = k
  omega

/-- Rows that stay where they are. -/
theorem moveRows_same (heq : s.pos dx dy = s.pos sx sy) : moveRows s sx sy dx dy w h f = f := by
  refine moveRows_keeps (· = f) (fun i _ g hg => ?_) rfl
  rw [pos_row_eq_iff.mpr heq, memmove_self, hg]

/-- What a row writes stays written. -/
theorem memmove_written (base d a n : ℕ) (g : Fb) (hg : g.written j = true) :
    (fbMemmovePixels base d a n g).written j = true := by
  by_cases hne : d = a
  · subst hne
    rwa [memmove_self]
  have hmove := overwrites_memmove g base d a n hne
  by_cases hj : j ∈ span d n
  · exact hmove.written j hj
  · rw [hmove.written_old j hj, hg]

/-- **Every row is written**, if it is not where it was. -/
theorem moveRows_written (hne : s.pos dx dy ≠ s.pos sx sy) (hi : i < h) (hj : j ∈ span (s.pos dx (dy + i)) w) :
    (moveRows s sx sy dx dy w h f).written j = true := by
  have hrow : ∀ g, (fbMemmovePixels s.base (s.pos dx (dy + i)) (s.pos sx (sy + i)) w g).written j = true :=
    fun g => (overwrites_memmove g s.base _ _ w fun he => hne (pos_row_eq_iff.mp he)).written j hj
  unfold moveRows
  split
  · refine upto_induction (fun k (g : Fb) => i < k → g.written j = true) (fun h0 => absurd h0 (by omega))
      (fun k _ g hg hik => ?_) hi
    rcases Nat.lt_succ_iff_lt_or_eq.mp hik with hlt | rfl
    · exact memmove_written _ _ _ _ _ (hg hlt)
    · exact hrow g
  · refine downto_induction (fun k (g : Fb) => k ≤ i → g.written j = true) (fun h0 => absurd h0 (by omega))
      (fun k _ g hg hik => ?_) (Nat.zero_le i)
    rcases hik.eq_or_lt with rfl | hlt
    · exact hrow g
    · exact memmove_written _ _ _ _ _ (hg hlt)

/-- No row reaches further than `2 ^ 32` and its length. -/
theorem moveRows_far (hj : 2 ^ 32 + w ≤ j + 1) : (moveRows s sx sy dx dy w h f).pixel j = f.pixel j := by
  refine moveRows_keeps (fun g => g.pixel j = f.pixel j) (fun i _ g hg => ?_) rfl
  have hd : s.pos dx (dy + i) < 2 ^ 32 := Nat.mod_lt _ (by norm_num)
  rw [memmove_pixel, if_neg (by omega), hg]

/-- Nor is anything read from there. -/
theorem moveRows_near (hfg : ∀ k, k + 1 < 2 ^ 32 + w → f.pixel k = g.pixel k) (hj : j + 1 < 2 ^ 32 + w) :
    (moveRows s sx sy dx dy w h f).pixel j = (moveRows s sx sy dx dy w h g).pixel j := by
  have hrow : ∀ i < h, ∀ f g : Fb, (∀ k, k + 1 < 2 ^ 32 + w → f.pixel k = g.pixel k) →
      ∀ k, k + 1 < 2 ^ 32 + w →
        (fbMemmovePixels s.base (s.pos dx (dy + i)) (s.pos sx (sy + i)) w f).pixel k =
          (fbMemmovePixels s.base (s.pos dx (dy + i)) (s.pos sx (sy + i)) w g).pixel k := by
    intro i _ f g hfg k hk
    have ha : s.pos sx (sy + i) < 2 ^ 32 := Nat.mod_lt _ (by norm_num)
    rw [memmove_pixel, memmove_pixel]
    split
    · exact hfg _ (by omega)
    · exact hfg k hk
  unfold moveRows
  split
  · exact upto_rel (fun f g : Fb => ∀ k, k + 1 < 2 ^ 32 + w → f.pixel k = g.pixel k) hrow hfg j hj
  · exact downto_rel (fun f g : Fb => ∀ k, k + 1 < 2 ^ 32 + w → f.pixel k = g.pixel k) hrow hfg j hj

/-! ## A rectangle that is moved -/

/-- **What the call is for**: the clipped rectangle at `(dx, dy)` holds what was
at `(sx, sy)`, and no pixel outside is written. -/
def Copied (s s' : State) (sx sy w h dx dy : ℕ) : Prop :=
  (∀ x < side s.width sx dx w, ∀ y < side s.height sy dy h,
    s'.fb.pixel ((dy + y) * s.stride + (dx + x)) = s.fb.pixel ((sy + y) * s.stride + (sx + x))) ∧
  ∀ i ∉ rect s.stride dx dy (side s.width sx dx w) (side s.height sy dy h),
    s'.fb.pixel i = s.fb.pixel i ∧ s'.fb.written i = s.fb.written i

/-- **The move is right**, whatever is on the screen. -/
def MovesRight (s : State) (sx sy w h dx dy : ℕ) : Prop :=
  ∀ f, Copied { s with fb := f } (fbCopyareaLocked { s with fb := f } sx sy w h dx dy) sx sy w h dx dy

/-- **No number of the move wraps to its harm**: the two rectangles are at one
position modulo `2 ^ 32`, and are the same or have no pixel; or they have none
because of a side that is cut off right; or both sides are, and the last rows
start below `2 ^ 32`. -/
def Moveable (s : State) (sx sy w h dx dy : ℕ) : Prop :=
  let w' := side s.width sx dx w
  let h' := side s.height sy dy h
  (s.pos dx dy = s.pos sx sy ∧ (w' = 0 ∨ h' = 0 ∨ sx = dx ∧ sy = dy)) ∨
    (w' = 0 ∧ Clips s.width sx dx w) ∨ (h' = 0 ∧ Clips s.height sy dy h) ∨
    (Clips s.width sx dx w ∧ Clips s.height sy dy h ∧
      (dy + h' - 1) * s.stride + dx < 2 ^ 32 ∧ (sy + h' - 1) * s.stride + sx < 2 ^ 32)

instance : Decidable (Moveable s sx sy w h dx dy) := inferInstanceAs (Decidable (_ ∨ _))

/-- A screen, and a call on it: what is 32 bits wide. -/
structure OnScreen (s : State) (sx sy w h dx dy : ℕ) : Prop where
  base : s.base ≠ 0
  width : s.width ≤ s.stride
  stride : s.stride < 2 ^ 32
  height : s.height < 2 ^ 32
  args : ∀ a ∈ [sx, sy, w, h, dx, dy], a < 2 ^ 32

theorem OnScreen.fb_eq (hs : OnScreen s sx sy w h dx dy) (f : Fb) :
    (fbCopyareaLocked { s with fb := f } sx sy w h dx dy).fb =
      moveRows s sx sy dx dy (clip s.width dx (clip s.width sx w)) (clip s.height dy (clip s.height sy h)) f := by
  have ha := hs.args
  simp only [List.forall_mem_cons] at ha
  exact fbCopyareaLocked_fb (s := { s with fb := f }) hs.base ha.1 ha.2.1 ha.2.2.2.2.1 ha.2.2.2.2.2.1

/-- Nothing is moved, and nothing is to be. -/
theorem Copied.of_empty {s' : State} (hz : side s.width sx dx w = 0 ∨ side s.height sy dy h = 0)
    (hfb : s'.fb = s.fb) : Copied s s' sx sy w h dx dy := by
  refine ⟨fun x hx y hy => absurd hx (by omega), fun i _ => ?_⟩
  rw [hfb]
  exact ⟨rfl, rfl⟩

/-- **A move whose numbers do not wrap is right.** -/
theorem MovesRight.of_moveable (hs : OnScreen s sx sy w h dx dy) (hm : Moveable s sx sy w h dx dy) :
    MovesRight s sx sy w h dx dy := by
  have ha := hs.args
  simp only [List.forall_mem_cons] at ha
  obtain ⟨hsx, hsy, hw, hh, hdx, hdy, -⟩ := ha
  have hwd := hs.width
  have hst := hs.stride
  have hclipx := clip_clip_eq_iff (by omega : s.width < 2 ^ 32) hsx hdx hw
  have hclipy := clip_clip_eq_iff hs.height hsy hdy hh
  intro f
  have hfb := hs.fb_eq f
  -- where the two corners are one position, nothing moves
  by_cases hsame : sx = dx ∧ sy = dy
  · obtain ⟨rfl, rfl⟩ := hsame
    rw [moveRows_same rfl] at hfb
    refine ⟨fun x _ y _ => by rw [hfb], fun i _ => by rw [hfb]; exact ⟨rfl, rfl⟩⟩
  rcases hm with ⟨heq, hz⟩ | ⟨hz, hx⟩ | ⟨hz, hy⟩ | ⟨hx, hy, hd, hr⟩
  · rw [moveRows_same heq] at hfb
    exact .of_empty (hz.imp_right fun hz => hz.resolve_right hsame) hfb
  · rw [hclipx.mpr hx, moveRows_of_zero (.inl hz)] at hfb
    exact .of_empty (.inl hz) hfb
  · rw [hclipy.mpr hy, moveRows_of_zero (.inr hz)] at hfb
    exact .of_empty (.inr hz) hfb
  rw [hclipx.mpr hx, hclipy.mpr hy] at hfb
  by_cases hz : side s.width sx dx w = 0 ∨ side s.height sy dy h = 0
  · rw [moveRows_of_zero hz] at hfb
    exact .of_empty hz hfb
  -- the rows of the screen
  have hin : sx + side s.width sx dx w ≤ s.width ∧ dx + side s.width sx dx w ≤ s.width := by
    unfold side at hz ⊢
    omega
  have hpos : ∀ {x y i : ℕ}, (y + side s.height sy dy h - 1) * s.stride + x < 2 ^ 32 →
      i < side s.height sy dy h → s.pos x (y + i) = (y + i) * s.stride + x := by
    intro x y i hlast hi
    have hle : (y + i) * s.stride ≤ (y + side s.height sy dy h - 1) * s.stride :=
      Nat.mul_le_mul_right _ (by omega)
    exact Nat.mod_eq_of_lt (by omega)
  have hne : dy * s.stride + dx ≠ sy * s.stride + sx := fun he => by
    have := pos_inj (show dx < s.stride by omega) (show sx < s.stride by omega) he
    omega
  have hmove := overwrites_copyRows f s.base sx sy dx dy (side s.height sy dy h)
    (by omega : dx + side s.width sx dx w ≤ s.stride) (by omega) hne
  have hrows : moveRows s sx sy dx dy (side s.width sx dx w) (side s.height sy dy h) f =
      if dy ≤ sy then
        upto (side s.height sy dy h) (fun i g => fbMemmovePixels s.base ((dy + i) * s.stride + dx)
          ((sy + i) * s.stride + sx) (side s.width sx dx w) g) f
      else
        downto (side s.height sy dy h) (fun i g => fbMemmovePixels s.base ((dy + i) * s.stride + dx)
          ((sy + i) * s.stride + sx) (side s.width sx dx w) g) f := by
    unfold moveRows
    refine if_congr Iff.rfl (upto_congr fun i hi => ?_) (downto_congr fun i hi => ?_)
    all_goals rw [hpos hd hi, hpos hr hi]
  dsimp only at hmove
  rw [← hrows, ← hfb] at hmove
  refine ⟨fun x hx y hy => ?_, fun i hi => ⟨hmove.pixel_old i hi, hmove.written_old i hi⟩⟩
  dsimp only at hx hy ⊢
  rw [hmove.pixel _ ⟨dx + x, dy + y, rfl, by omega, by omega, by omega, by omega⟩, Nat.add_mul, Nat.add_mul]
  congr 1
  omega

/-! ## Where it goes wrong -/

/-- A screen with one pixel set. -/
def onePixel (k : ℕ) : Fb := ⟨fun i => if i = k then 1 else 0, fun _ => false⟩

/-- A move that is right writes nothing but the rectangle. -/
theorem MovesRight.rows_subset (hs : OnScreen s sx sy w h dx dy) (hm : MovesRight s sx sy w h dx dy)
    (hne : s.pos dx dy ≠ s.pos sx sy) (hi : i < clip s.height dy (clip s.height sy h)) :
    span (s.pos dx (dy + i)) (clip s.width dx (clip s.width sx w)) ⊆
      rect s.stride dx dy (side s.width sx dx w) (side s.height sy dy h) := by
  intro j hj
  by_contra hout
  have hold := ((hm (onePixel 0)).2 j hout).2
  rw [hs.fb_eq, moveRows_written hne hi hj] at hold
  exact absurd hold (by simp [onePixel])

/-- It reads and writes nothing but what the rows reach. -/
theorem MovesRight.reach (hs : OnScreen s sx sy w h dx dy) (hm : MovesRight s sx sy w h dx dy) {x y : ℕ}
    (hx : x < side s.width sx dx w) (hy : y < side s.height sy dy h)
    (hne : (dy + y) * s.stride + (dx + x) ≠ (sy + y) * s.stride + (sx + x)) :
    (dy + y) * s.stride + (dx + x) + 1 < 2 ^ 32 + clip s.width dx (clip s.width sx w) ∧
      (sy + y) * s.stride + (sx + x) + 1 < 2 ^ 32 + clip s.width dx (clip s.width sx w) := by
  have hread : ∀ f : Fb, (moveRows s sx sy dx dy (clip s.width dx (clip s.width sx w))
      (clip s.height dy (clip s.height sy h)) f).pixel ((dy + y) * s.stride + (dx + x)) =
        f.pixel ((sy + y) * s.stride + (sx + x)) := fun f => by
    rw [← hs.fb_eq f]
    exact (hm f).1 x hx y hy
  generalize (dy + y) * s.stride + (dx + x) = p at hread hne ⊢
  generalize (sy + y) * s.stride + (sx + x) = q at hread hne ⊢
  have hset := hread (onePixel q)
  have hwrite : p + 1 < 2 ^ 32 + clip s.width dx (clip s.width sx w) := by
    by_contra! hfar
    rw [moveRows_far hfar] at hset
    simp [onePixel, hne] at hset
  refine ⟨hwrite, ?_⟩
  by_contra! hfar
  -- a screen with that pixel is the same to the call as one with the next
  have hsame : (onePixel q).pixel q = (onePixel (q + 1)).pixel q := by
    rw [← hread, ← hread (onePixel (q + 1))]
    refine moveRows_near (fun k hk => ?_) hwrite
    simp only [onePixel]
    rw [if_neg (by omega), if_neg (by omega)]
  simp [onePixel] at hsame

/-- A row that is one too many is on the rectangle only if that is at the top of
the screen, from where it is to be moved as well. -/
theorem row_over_top (hw : dx + n ≤ s.stride) (hdx : dx < s.stride) (hh : 0 < h)
    (hd : (dy + h - 1) * s.stride + dx < 2 ^ 32) (hr : (sy + h - 1) * s.stride + sx < 2 ^ 32)
    (hover : s.pos dx (dy + h) ∈ rect s.stride dx dy n h) : dy = 0 ∧ sy = 0 := by
  have hrow : ∀ y, (y + h - 1) * s.stride + s.stride = y * s.stride + h * s.stride := fun y => by
    rw [← Nat.succ_mul, Nat.succ_eq_add_one, Nat.sub_add_cancel (by omega), Nat.add_mul]
  have hone : ∀ y, 0 < y → s.stride ≤ y * s.stride := fun y hy => Nat.le_mul_of_pos_left _ hy
  have hwrap : 2 ^ 32 ≤ (dy + h) * s.stride + dx := by
    by_contra! hlt
    rw [State.pos, Nat.mod_eq_of_lt hlt] at hover
    have := (mem_rect_iff hdx hw).mp hover
    omega
  -- the row starts again at least where the rectangle does
  obtain ⟨x, y, he, hx, -, hy, -⟩ := hover
  have hle : dy * s.stride ≤ y * s.stride := Nat.mul_le_mul_right _ hy
  have hd' := hrow dy
  have hr' := hrow sy
  have hsum := Nat.add_mul dy h s.stride
  have htall : 2 ^ 32 ≤ h * s.stride := by
    rw [State.pos] at he
    omega
  constructor
  · by_contra h0
    have := hone dy (by omega)
    omega
  · by_contra h0
    have := hone sy (by omega)
    omega

/-- **A move that is right has numbers that do not wrap.** -/
theorem MovesRight.moveable (hs : OnScreen s sx sy w h dx dy) (hm : MovesRight s sx sy w h dx dy) :
    Moveable s sx sy w h dx dy := by
  have ha := hs.args
  simp only [List.forall_mem_cons] at ha
  obtain ⟨hsx, hsy, hw, hh, hdx, hdy, -⟩ := ha
  have hwd := hs.width
  have hst := hs.stride
  have hclipx := clip_clip_eq_iff (by omega : s.width < 2 ^ 32) hsx hdx hw
  have hclipy := clip_clip_eq_iff hs.height hsy hdy hh
  have hlex := side_le_clip (by omega : s.width < 2 ^ 32) hsx hdx hw
  have hley := side_le_clip hs.height hsy hdy hh
  by_cases hne : s.pos dx dy = s.pos sx sy
  · -- nothing moves, so every pixel is its own source
    refine .inl ⟨hne, ?_⟩
    by_contra! hz
    obtain ⟨hx, hy, hdiff⟩ := hz
    have hin : sx < s.width ∧ dx < s.width := by
      unfold side at hx
      omega
    have hpix := (hm (onePixel (sy * s.stride + sx))).1 0 (by dsimp only; omega) 0 (by dsimp only; omega)
    rw [hs.fb_eq, moveRows_same hne] at hpix
    have heq : dy * s.stride + dx = sy * s.stride + sx := by
      by_contra hno
      simp [onePixel, hno] at hpix
    obtain ⟨hx', hy'⟩ := pos_inj (show dx < s.stride by omega) (show sx < s.stride by omega) heq
    exact hdiff hx'.symm hy'.symm
  by_cases hzx : clip s.width dx (clip s.width sx w) = 0
  · exact .inr (.inl ⟨by omega, hclipx.mp (by omega)⟩)
  by_cases hzy : clip s.height dy (clip s.height sy h) = 0
  · exact .inr (.inr (.inl ⟨by omega, hclipy.mp (by omega)⟩))
  refine .inr (.inr (.inr ?_))
  -- what is written is of the rectangle, so that one is not empty
  obtain ⟨x₀, y₀, -, hx1, hx2, hy1, hy2⟩ := hm.rows_subset hs hne (Nat.pos_of_ne_zero hzy)
    (show s.pos dx (dy + 0) ∈ span (s.pos dx (dy + 0)) _ from ⟨le_rfl, by omega⟩)
  have hin : sx + side s.width sx dx w ≤ s.width ∧ dx + side s.width sx dx w ≤ s.width := by
    unfold side at hx2 ⊢
    omega
  have hx : Clips s.width sx dx w := by
    rcases Nat.lt_or_ge (side s.width sx dx w) s.stride with hgap | hfull
    · have hsub := hm.rows_subset hs hne (Nat.pos_of_ne_zero hzy)
      exact hclipx.mp (le_antisymm (span_le_of_subset (by omega) hgap hsub) hlex)
    · -- whole rows
      obtain ⟨rfl, rfl⟩ : sx = 0 ∧ dx = 0 := by omega
      exact clips_zero hw
  have hxeq := hclipx.mpr hx
  have hreach := hm.reach hs (show side s.width sx dx w - 1 < side s.width sx dx w by omega)
    (show side s.height sy dy h - 1 < side s.height sy dy h by omega) (fun he => hne ?_)
  · have hlast : ∀ y, y + (side s.height sy dy h - 1) = y + side s.height sy dy h - 1 := fun y => by omega
    rw [hxeq, hlast, hlast] at hreach
    have hd : (dy + side s.height sy dy h - 1) * s.stride + dx < 2 ^ 32 := by omega
    have hr : (sy + side s.height sy dy h - 1) * s.stride + sx < 2 ^ 32 := by omega
    refine ⟨hx, hclipy.mp ?_, hd, hr⟩
    -- a row too many would be on the rectangle
    by_contra hmore
    have hover := hm.rows_subset hs hne (i := side s.height sy dy h) (by omega)
      (show s.pos dx (dy + side s.height sy dy h) ∈ span _ _ from ⟨le_rfl, by omega⟩)
    obtain ⟨rfl, rfl⟩ := row_over_top (by omega) (by omega) (by omega) hd hr hover
    exact hmore (hclipy.mpr (clips_zero hh))
  · -- the corners would be one position
    rw [Nat.add_mul, Nat.add_mul] at he
    rw [State.pos, State.pos]
    congr 1
    omega

/-- **`fb_memmove_pixels` copies as if through a temporary, and a rectangle is
moved right exactly if the numbers of the move do not wrap.** -/
theorem copyarea_right_iff (s : State) (sx sy w h dx dy : ℕ) (hs : OnScreen s sx sy w h dx dy) :
    (∀ (base dst src n : ℕ) (f : Fb) (i : ℕ), (fbMemmovePixels base dst src n f).pixel i =
      if dst ≤ i ∧ i < dst + n then f.pixel (i - dst + src) else f.pixel i) ∧
    (MovesRight s sx sy w h dx dy ↔ Moveable s sx sy w h dx dy) :=
  ⟨memmove_pixel, fun hm => hm.moveable hs, fun hm => .of_moveable hs hm⟩

/-- A console on a screen of that geometry, with a text area of `rows` rows. -/
def blankScreen (stride width height rows : ℕ) : State where
  fb := ⟨fun _ => 0, fun _ => false⟩
  base := 4096
  stride := stride
  width := width
  height := height
  fg := conFgRgb
  bg := logoSplashBgRgb
  cols := width / fontW
  rows := rows
  top := 0
  cx := 0
  cy := 0
  ready := true
  text := none
  capCols := 0
  capRows := 0
  cursorPhase := false
  cursorNextMs := 0
  cursorEnabled := false

/-- Two rectangles that overlap. -/
theorem copyarea_right_overlap : MovesRight (blankScreen 128 100 50 3) 10 10 20 20 15 12 :=
  (copyarea_right_iff _ 10 10 20 20 15 12
    ⟨by decide, by decide, by decide, by decide, by decide⟩).2.mpr (by decide)

/-- **The console is not scrolled** on a screen of 8 by 80 pixels whose rows are
`2 ^ 31` pixels apart: every other row is at the same position. -/
theorem copyarea_wraps : OnScreen (blankScreen (2 ^ 31) 8 80 5) 0 16 8 64 0 0 ∧
    ¬ MovesRight (blankScreen (2 ^ 31) 8 80 5) 0 16 8 64 0 0 := by
  refine ⟨⟨by decide, by decide, by decide, by decide, by decide⟩, fun hm => ?_⟩
  have hpix := (hm (onePixel (2 ^ 35))).1 0 (by decide) 0 (by decide)
  exact absurd hpix (by decide +kernel)

end Gfx

end Csos

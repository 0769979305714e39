import Csos.Gfx.Model
/-!
# The text console — drawing

What `fb_fillrect_locked`, `fb_copyarea_locked` and `con_draw_locked` do to the
framebuffer, as the rectangle each overwrites, on a screen whose positions all
fit into 32 bits (`Fits`). The loops over 64-bit words do what loops over
pixels do.
-/

namespace Csos

namespace Gfx

variable {f : Fb} {s : State} {base d n δ w h x y px py y0 y1 : ℕ}

/-! ## Rows -/

theorem overwrites_fillUp (f : Fb) (pixel : UInt32) (n d : ℕ) :
    Overwrites f (fillUp pixel n d f) (span d n) fun _ => pixel := by
  induction n generalizing d f with
  | zero =>
    rw [span_zero]
    exact overwrites_refl f _
  | succ n ih =>
    rw [span_succ]
    exact (overwrites_put f d fun _ => pixel).trans (ih _ _)

theorem span_add_two (d n : ℕ) : span d (n + 2) = {d} ∪ {d + 1} ∪ span (d + 2) n := by
  rw [span_succ, span_succ, Set.union_assoc]

/-- **A row is filled.** -/
theorem overwrites_fillRow (f : Fb) (base : ℕ) (pixel : UInt32) (n d : ℕ) :
    Overwrites f (fillRow base pixel n d f) (span d n) fun _ => pixel := by
  induction n using Nat.strong_induction_on generalizing d f with
  | _ n ih =>
    unfold fillRow
    split
    · rename_i n
      split
      · rw [span_add_two]
        exact ((overwrites_put f d fun _ => pixel).trans
          (overwrites_put _ (d + 1) fun _ => pixel)).trans (ih n (by omega) _ _)
      · exact overwrites_fillUp f pixel _ d
    · exact overwrites_fillUp f pixel _ d

/-- Pixels are copied from further on, so that none is read after it has been
written. -/
theorem overwrites_copyUp (f : Fb) (hδ : 0 < δ) (n d : ℕ) :
    Overwrites f (copyUp n d (d + δ) f) (span d n) fun i => f.pixel (i + δ) := by
  induction n generalizing d f with
  | zero =>
    rw [span_zero]
    exact overwrites_refl f _
  | succ n ih =>
    have hput := overwrites_put f d fun i => f.pixel (i + δ)
    rw [span_succ, copyUp, show d + δ + 1 = d + 1 + δ by omega]
    refine hput.trans ((ih _ _).congr fun i hi => hput.pixel_old _ ?_)
    simp only [span, Set.mem_ofPred_eq, Set.mem_singleton_iff] at hi ⊢
    omega

/-- Two neighbours are not both at multiples of 8. -/
theorem aligned_apart (hd : aligned base d = true) (hs : aligned base (d + δ) = true) (hδ : 0 < δ) : 2 ≤ δ := by
  simp only [aligned, decide_eq_true_eq] at hd hs
  omega

theorem overwrites_moveUp (f : Fb) (base : ℕ) (hδ : 0 < δ) (n d : ℕ) :
    Overwrites f (moveUp base n d (d + δ) f) (span d n) fun i => f.pixel (i + δ) := by
  induction n using Nat.strong_induction_on generalizing d f with
  | _ n ih =>
    match n with
    | 0 => exact overwrites_copyUp f hδ 0 d
    | 1 => exact overwrites_copyUp f hδ 1 d
    | n + 2 =>
      rw [moveUp]
      split
      · -- both pixels of a word are read before either is written
        rename_i hal
        have hfar := aligned_apart hal.1 hal.2 hδ
        have hput2 : Overwrites f ((f.put d (f.pixel (d + δ))).put (d + 1) (f.pixel (d + δ + 1)))
            ({d} ∪ {d + 1}) fun i => f.pixel (i + δ) := by
          rw [show d + δ + 1 = d + 1 + δ by omega]
          exact (overwrites_put f d fun i => f.pixel (i + δ)).trans
            (overwrites_put _ (d + 1) fun i => f.pixel (i + δ))
        rw [span_add_two, show d + δ + 2 = d + 2 + δ by omega]
        refine hput2.trans ((ih n (by omega) _ _).congr fun i hi => hput2.pixel_old _ ?_)
        simp only [span, Set.mem_ofPred_eq, Set.mem_union, Set.mem_singleton_iff] at hi ⊢
        omega
      · exact overwrites_copyUp f hδ _ d

/-- Pixels are copied from before, the last one first. -/
theorem overwrites_copyDown (f : Fb) (hδ : 0 < δ) (n a : ℕ) :
    Overwrites f (copyDown n (a + δ + n) (a + n) f) (span (a + δ) n) fun i => f.pixel (i - δ) := by
  induction n generalizing f with
  | zero =>
    rw [span_zero]
    exact overwrites_refl f _
  | succ n ih =>
    have hput := overwrites_put f (a + δ + n) fun i => f.pixel (i - δ)
    rw [show a + δ + n - δ = a + n by omega] at hput
    rw [span_succ_right, Set.union_comm, copyDown, show a + δ + (n + 1) - 1 = a + δ + n by omega,
      show a + (n + 1) - 1 = a + n by omega]
    refine hput.trans ((ih _).congr fun i hi => hput.pixel_old _ ?_)
    simp only [span, Set.mem_ofPred_eq, Set.mem_singleton_iff] at hi ⊢
    omega

theorem overwrites_moveDown (f : Fb) (base : ℕ) (hδ : 0 < δ) (n a : ℕ) :
    Overwrites f (moveDown base n (a + δ + n) (a + n) f) (span (a + δ) n) fun i => f.pixel (i - δ) := by
  induction n using Nat.strong_induction_on generalizing f with
  | _ n ih =>
    match n with
    | 0 => exact overwrites_copyDown f hδ 0 a
    | 1 => exact overwrites_copyDown f hδ 1 a
    | n + 2 =>
      rw [moveDown]
      split
      · -- both pixels of a word are read before either is written
        rename_i hal
        have hfar : 2 ≤ δ := aligned_apart hal.2
          (by rw [show a + (n + 2) + δ = a + δ + (n + 2) by omega]; exact hal.1) hδ
        rw [show a + δ + (n + 2) - 2 = a + δ + n by omega, show a + δ + (n + 2) - 1 = a + δ + n + 1 by omega,
          show a + (n + 2) - 2 = a + n by omega, show a + (n + 2) - 1 = a + n + 1 by omega]
        have hput2 : Overwrites f ((f.put (a + δ + n) (f.pixel (a + n))).put (a + δ + n + 1) (f.pixel (a + n + 1)))
            ({a + δ + n} ∪ {a + δ + n + 1}) fun i => f.pixel (i - δ) := by
          have h0 := overwrites_put f (a + δ + n) fun i => f.pixel (i - δ)
          have h1 := overwrites_put (f.put (a + δ + n) (f.pixel (a + n))) (a + δ + n + 1) fun i => f.pixel (i - δ)
          rw [show a + δ + n - δ = a + n by omega] at h0
          rw [show a + δ + n + 1 - δ = a + n + 1 by omega] at h1
          exact h0.trans h1
        have hspan : span (a + δ) (n + 2) = {a + δ + n} ∪ {a + δ + n + 1} ∪ span (a + δ) n := by
          rw [span_succ_right, span_succ_right, Set.union_assoc, Set.union_comm]
          rfl
        rw [hspan]
        refine hput2.trans ((ih n (by omega) _).congr fun i hi => hput2.pixel_old _ ?_)
        simp only [span, Set.mem_ofPred_eq, Set.mem_union, Set.mem_singleton_iff] at hi ⊢
        omega
      · exact overwrites_copyDown f hδ _ a

/-- **`fb_memmove_pixels`** copies as if through a temporary, whatever the
distance. -/
theorem overwrites_memmove (f : Fb) (base d a n : ℕ) (hne : d ≠ a) :
    Overwrites f (fbMemmovePixels base d a n f) (span d n) fun i => f.pixel (i - d + a) := by
  unfold fbMemmovePixels
  by_cases hn : n = 0
  · rw [if_pos (.inl hn), hn, span_zero]
    exact overwrites_refl f _
  rw [if_neg (by omega)]
  rcases Nat.lt_or_gt_of_ne hne with hlt | hlt
  · obtain ⟨δ, rfl⟩ := Nat.exists_eq_add_of_lt hlt
    rw [if_pos hlt]
    refine (overwrites_moveUp f base (δ := δ + 1) (Nat.succ_pos δ) n d).congr fun i hi => ?_
    rw [show i - d + (d + δ + 1) = i + (δ + 1) by have := hi.1; omega]
  · obtain ⟨δ, rfl⟩ := Nat.exists_eq_add_of_lt hlt
    rw [if_neg (by omega)]
    refine (overwrites_moveDown f base (δ := δ + 1) (Nat.succ_pos δ) n a).congr fun i hi => ?_
    rw [show i - (a + δ + 1) + a = i - (δ + 1) by have := hi.1; omega]

/-! ## Rectangles -/

/-- Every position on the screen fits into 32 bits. -/
def Fits (s : State) : Prop := s.width ≤ s.stride ∧ (s.height - 1) * s.stride + s.width ≤ 2 ^ 32

theorem Fits.pos_eq (hf : Fits s) (hx : x < s.width) (hy : y < s.height) :
    s.pos x y = y * s.stride + x := by
  have hle : y * s.stride ≤ (s.height - 1) * s.stride := Nat.mul_le_mul_right _ (by omega)
  have := hf.2
  exact Nat.mod_eq_of_lt (by omega)

/-- Rows are drawn one after another. -/
theorem overwrites_rows {c : ℕ → UInt32} {row : ℕ → Fb → Fb} (stride x y w h : ℕ) (f : Fb)
    (hrow : ∀ i < h, ∀ g, Overwrites f g (rect stride x y w i) c →
      Overwrites g (row i g) (span ((y + i) * stride + x) w) c) :
    Overwrites f (upto h row f) (rect stride x y w h) c := by
  refine upto_induction (fun i g => Overwrites f g (rect stride x y w i) c) ?_ fun i hi g hg => ?_
  · rw [rect_zero]
    exact overwrites_refl f c
  · rw [rect_succ]
    exact hg.trans (hrow i hi g hg)

/-- **`fb_fillrect_locked`** inside the screen. -/
theorem fbFillrectLocked_spec (hf : Fits s) (hb : s.base ≠ 0) (hw : 0 < w) (hh : 0 < h)
    (hx : x + w ≤ s.width) (hy : y + h ≤ s.height) (pixel : UInt32) :
    ∃ f, fbFillrectLocked s x y w h pixel = { s with fb := f } ∧
      Overwrites s.fb f (rect s.stride x y w h) fun _ => pixel := by
  refine ⟨upto h (fun i f => fillRow s.base pixel w (s.pos x (y + i)) f) s.fb, ?_,
    overwrites_rows s.stride x y w h s.fb fun i hi g _ => ?_⟩
  · unfold fbFillrectLocked
    rw [if_neg (by omega), if_neg (by omega)]
    dsimp only
    rw [if_neg (by omega), if_neg (by omega)]
  · rw [hf.pos_eq (by omega) (by omega)]
    exact overwrites_fillRow g s.base pixel w _

/-- **`con_fill`** fills whole rows. -/
theorem conFill_spec (hf : Fits s) (hb : s.base ≠ 0) (hw : 0 < s.width) (hy : y0 < y1)
    (hh : y1 ≤ s.height) (pixel : UInt32) : ∃ f, conFill s y0 y1 pixel = { s with fb := f } ∧
      Overwrites s.fb f (rect s.stride 0 y0 s.width (y1 - y0)) fun _ => pixel := by
  unfold conFill
  rw [if_neg (by omega)]
  dsimp only
  rw [if_neg (by omega : ¬ s.height < y1), if_neg (by omega)]
  exact fbFillrectLocked_spec hf hb hw (by omega) (by omega) (by omega) pixel

section Areas

variable {S sx sy dx dy i : ℕ}

/-- A row that is read has not been overwritten by the rows before it. -/
theorem overwrites_copyRow {g : Fb} {T : Set ℕ} (hs : sx + w ≤ S)
    (hg : Overwrites f g T fun j => f.pixel (j - (dy * S + dx) + (sy * S + sx)))
    (hne : dy * S + dx ≠ sy * S + sx) (hT : ∀ x < S, (sy + i) * S + x ∉ T) :
    Overwrites g (fbMemmovePixels base ((dy + i) * S + dx) ((sy + i) * S + sx) w g)
      (span ((dy + i) * S + dx) w) fun j => f.pixel (j - (dy * S + dx) + (sy * S + sx)) := by
  have hd := Nat.add_mul dy i S
  have hr := Nat.add_mul sy i S
  refine (overwrites_memmove g base _ _ w (by omega)).congr fun j hj => ?_
  obtain ⟨h1, h2⟩ := hj
  have hpos : j - ((dy + i) * S + dx) + ((sy + i) * S + sx) =
      (sy + i) * S + (sx + (j - ((dy + i) * S + dx))) := by omega
  rw [hpos, hg.pixel_old _ (hT _ (by omega))]
  congr 1
  omega

/-- **A rectangle is moved** a row at a time, from the side it is moved to. -/
theorem overwrites_copyRows (f : Fb) (base sx sy dx dy h : ℕ) (hd : dx + w ≤ S) (hs : sx + w ≤ S)
    (hne : dy * S + dx ≠ sy * S + sx) :
    let row := fun i g => fbMemmovePixels base ((dy + i) * S + dx) ((sy + i) * S + sx) w g
    Overwrites f (if dy ≤ sy then upto h row f else downto h row f) (rect S dx dy w h)
      fun j => f.pixel (j - (dy * S + dx) + (sy * S + sx)) := by
  intro row
  split
  · rename_i hup
    refine overwrites_rows S dx dy w h f fun i hi g hg => overwrites_copyRow hs hg hne fun x hx hmem => ?_
    have := (mem_rect_iff hx hd).mp hmem
    omega
  · rename_i hdown
    have hrows := downto_induction (f := row) (s := f) (n := h)
      (fun i g => Overwrites f g (rect S dx (dy + i) w (h - i))
        fun j => f.pixel (j - (dy * S + dx) + (sy * S + sx)))
      (by rw [Nat.sub_self, rect_zero]; exact overwrites_refl f _) fun i hi g hg => ?_
    · exact hrows
    · rw [show h - i = h - (i + 1) + 1 by omega, rect_succ_left]
      refine hg.trans (overwrites_copyRow hs hg hne fun x hx hmem => ?_)
      have := (mem_rect_iff hx hd).mp hmem
      omega

end Areas

theorem clip_of_le {limit x n : ℕ} (h : x + n ≤ limit) : clip limit x n = n := by
  have := Nat.mod_le (x + n) (2 ^ 32)
  unfold clip
  rw [if_neg (by omega)]

/-- **`fb_copyarea_locked`** moves whole rows up by `k`. -/
theorem fbCopyareaLocked_spec {k : ℕ} (hf : Fits s) (hb : s.base ≠ 0) (hw : 0 < s.width) (hh : 0 < h)
    (hk : 2 ≤ k) (hy : y + k + h ≤ s.height) :
    ∃ f, fbCopyareaLocked s 0 (y + k) s.width h 0 y = { s with fb := f } ∧
      Overwrites s.fb f (rect s.stride 0 y s.width h) fun i => s.fb.pixel (i + k * s.stride) := by
  have hs := hf.1
  have hpos : 0 < k * s.stride := Nat.mul_pos (by omega) (by omega)
  have hsrc : (y + k) * s.stride = y * s.stride + k * s.stride := Nat.add_mul y k s.stride
  have hmove := overwrites_copyRows s.fb s.base 0 (y + k) 0 y h (by omega : 0 + s.width ≤ s.stride) (by omega) (by omega)
  dsimp only at hmove
  rw [if_pos (by omega)] at hmove
  have hrows : ∀ i < h, (fun g => fbMemmovePixels s.base (s.pos 0 (y + i)) (s.pos 0 (y + k + i)) s.width g) =
      fun g => fbMemmovePixels s.base ((y + i) * s.stride + 0) ((y + k + i) * s.stride + 0) s.width g := by
    intro i hi
    rw [hf.pos_eq hw (by omega), hf.pos_eq hw (by omega)]
  refine ⟨_, ?_, hmove.congr fun j hj => ?_⟩
  · unfold fbCopyareaLocked
    rw [if_neg (by omega)]
    dsimp only
    rw [clip_of_le (show 0 + s.width ≤ s.width by omega), clip_of_le (show 0 + s.width ≤ s.width by omega),
      clip_of_le hy, clip_of_le (show y + h ≤ s.height by omega), if_neg (by omega), if_pos (by omega),
      upto_congr hrows]
  · obtain ⟨x', y', rfl, h1, h2, h3, h4⟩ := hj
    have hle : y * s.stride ≤ y' * s.stride := Nat.mul_le_mul_right _ h3
    congr 1
    omega

/-- **`con_draw_locked`** inside the screen. -/
theorem conDraw_spec (hf : Fits s) (hx : px + fontW ≤ s.width) (hy : py + fontH ≤ s.height) (ch : UInt8)
    (on off : UInt32) :
    ∃ f, conDraw s px py ch on off = { s with fb := f } ∧
      Overwrites s.fb f (rect s.stride px py fontW fontH) fun i =>
        if bitAt (fbFontGlyph ch (i / s.stride - py)) (i % s.stride - px) then on else off := by
  refine ⟨_, rfl, overwrites_rows s.stride px py fontW fontH s.fb fun r hr g _ => ?_⟩
  refine upto_induction (fun c g' => Overwrites g g' (span ((py + r) * s.stride + px) c) _) ?_
    fun c hc g' hg' => ?_
  · rw [span_zero]
    exact overwrites_refl g _
  · have hs := hf.1
    dsimp only [fontW, fontH] at *
    rw [span_succ_right]
    refine hg'.trans ?_
    rw [hf.pos_eq (by omega) (by omega), ← Nat.add_assoc]
    have hput := overwrites_put g' ((py + r) * s.stride + px + c) fun i =>
      if bitAt (fbFontGlyph ch (i / s.stride - py)) (i % s.stride - px) then on else off
    rwa [Nat.add_assoc, pos_div (by omega), pos_mod (by omega), Nat.add_sub_cancel_left,
      Nat.add_sub_cancel_left, ← Nat.add_assoc] at hput

end Gfx

end Csos

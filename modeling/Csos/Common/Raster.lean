import Mathlib.Tactic
/-!
# Surfaces

A surface is a memory of pixels that also keeps which of them have been
written. What a drawing loop does is said by the set of positions it overwrites
and the colour at each (`Overwrites`); loops are put together from their rounds.
A position is `y * stride + x`, and a rectangle is a set of such positions.
-/

namespace Csos

/-! ## Loops -/

section Loops

variable {σ : Type*} {n : ℕ} {f : ℕ → σ → σ} {s : σ}

/-- `for (i = 0; i < n; i++)`. -/
def upto (n : ℕ) (f : ℕ → σ → σ) (s : σ) : σ := (List.range n).foldl (fun s i => f i s) s

/-- `for (i = n; i > 0; i--)`, with `i - 1`. -/
def downto (n : ℕ) (f : ℕ → σ → σ) (s : σ) : σ := (List.range n).reverse.foldl (fun s i => f i s) s

@[simp] theorem upto_zero : upto 0 f s = s := rfl

theorem upto_succ : upto (n + 1) f s = f n (upto n f s) := by
  rw [upto, List.range_succ, List.foldl_append]
  rfl

theorem upto_congr {g : ℕ → σ → σ} (h : ∀ i < n, f i = g i) : upto n f s = upto n g s := by
  unfold upto
  exact List.foldl_ext _ _ _ fun t i hi => congrFun (h i (List.mem_range.mp hi)) t

theorem downto_congr {g : ℕ → σ → σ} (h : ∀ i < n, f i = g i) : downto n f s = downto n g s := by
  unfold downto
  exact List.foldl_ext _ _ _ fun t i hi =>
    congrFun (h i (List.mem_range.mp (List.mem_reverse.mp hi))) t

theorem downto_succ : downto (n + 1) f s = downto n f (f n s) := by
  rw [downto, List.range_succ, List.reverse_append, List.foldl_append]
  rfl

/-- **The rule for loops.** -/
theorem upto_induction (P : ℕ → σ → Prop) (h0 : P 0 s) (hstep : ∀ i < n, ∀ t, P i t → P (i + 1) (f i t)) :
    P n (upto n f s) := by
  induction n with
  | zero => exact h0
  | succ n ih =>
    rw [upto_succ]
    exact hstep n (Nat.lt_succ_self n) _ (ih fun i hi => hstep i (by omega))

/-- The rule for loops that count down. -/
theorem downto_induction (P : ℕ → σ → Prop) (hn : P n s) (hstep : ∀ i < n, ∀ t, P (i + 1) t → P i (f i t)) :
    P 0 (downto n f s) := by
  induction n generalizing s with
  | zero => exact hn
  | succ n ih =>
    rw [downto_succ]
    exact ih (hstep n (Nat.lt_succ_self n) s hn) fun i hi => hstep i (by omega)

/-- Two runs of a loop, round by round. -/
theorem upto_rel (R : σ → σ → Prop) (hstep : ∀ i < n, ∀ s t, R s t → R (f i s) (f i t)) {t : σ} (h : R s t) :
    R (upto n f s) (upto n f t) := by
  induction n with
  | zero => exact h
  | succ n ih =>
    rw [upto_succ, upto_succ]
    exact hstep n (Nat.lt_succ_self n) _ _ (ih fun i hi => hstep i (by omega))

theorem downto_rel (R : σ → σ → Prop) (hstep : ∀ i < n, ∀ s t, R s t → R (f i s) (f i t)) {t : σ} (h : R s t) :
    R (downto n f s) (downto n f t) := by
  induction n generalizing s t with
  | zero => exact h
  | succ n ih =>
    rw [downto_succ, downto_succ]
    exact ih (fun i hi => hstep i (by omega)) (hstep n (Nat.lt_succ_self n) s t h)

end Loops

/-! ## Surfaces -/

/-- The pixels, and which of them have been written. -/
structure Surface (α : Type*) where
  pixel : ℕ → α
  written : ℕ → Bool

variable {α : Type*} {f f' f'' : Surface α} {S T : Set ℕ} {c c' : ℕ → α} {i : ℕ} {v : α}

/-- A pixel is written. -/
def Surface.put (f : Surface α) (i : ℕ) (v : α) : Surface α where
  pixel := Function.update f.pixel i v
  written := Function.update f.written i true

/-- **Exactly the positions in `S` are overwritten**, with the colours `c`. -/
structure Overwrites (f f' : Surface α) (S : Set ℕ) (c : ℕ → α) : Prop where
  pixel : ∀ i ∈ S, f'.pixel i = c i
  written : ∀ i ∈ S, f'.written i = true
  pixel_old : ∀ i ∉ S, f'.pixel i = f.pixel i
  written_old : ∀ i ∉ S, f'.written i = f.written i

theorem overwrites_refl (f : Surface α) (c : ℕ → α) : Overwrites f f ∅ c :=
  ⟨fun _ h => h.elim, fun _ h => h.elim, fun _ _ => rfl, fun _ _ => rfl⟩

theorem overwrites_put (f : Surface α) (i : ℕ) (c : ℕ → α) : Overwrites f (f.put i (c i)) {i} c := by
  refine ⟨fun j hj => ?_, fun j hj => ?_, fun j hj => ?_, fun j hj => ?_⟩
  · obtain rfl : j = i := hj
    exact Function.update_self _ _ _
  · obtain rfl : j = i := hj
    exact Function.update_self _ _ _
  · exact Function.update_of_ne hj _ _
  · exact Function.update_of_ne hj _ _

theorem Overwrites.congr (h : Overwrites f f' S c) (hc : ∀ i ∈ S, c i = c' i) : Overwrites f f' S c' :=
  ⟨fun i hi => (h.pixel i hi).trans (hc i hi), h.written, h.pixel_old, h.written_old⟩

/-- **One thing is drawn after another.** -/
theorem Overwrites.trans (h : Overwrites f f' S c) (h' : Overwrites f' f'' T c) :
    Overwrites f f'' (S ∪ T) c := by
  refine ⟨fun i hi => ?_, fun i hi => ?_, fun i hi => ?_, fun i hi => ?_⟩
  · by_cases hT : i ∈ T
    · exact h'.pixel i hT
    · exact (h'.pixel_old i hT).trans (h.pixel i (hi.resolve_right hT))
  · by_cases hT : i ∈ T
    · exact h'.written i hT
    · exact (h'.written_old i hT).trans (h.written i (hi.resolve_right hT))
  · rw [Set.mem_union, not_or] at hi
    exact (h'.pixel_old i hi.2).trans (h.pixel_old i hi.1)
  · rw [Set.mem_union, not_or] at hi
    exact (h'.written_old i hi.2).trans (h.written_old i hi.1)

/-- What is written lies in `W`, if it did before. -/
theorem Overwrites.written_subset {W : Set ℕ} (h : Overwrites f f' S c) (hS : S ⊆ W)
    (hf : ∀ i, f.written i = true → i ∈ W) : ∀ i, f'.written i = true → i ∈ W := by
  intro i hi
  by_cases hiS : i ∈ S
  · exact hS hiS
  · exact hf i ((h.written_old i hiS).symm.trans hi)

/-! ## Rectangles -/

section Rect

variable {stride x y w h n d x₀ y₀ x' y' : ℕ}

/-- The positions `d`, …, `d + n - 1`. -/
def span (d n : ℕ) : Set ℕ := {i | d ≤ i ∧ i < d + n}

theorem span_zero (d : ℕ) : span d 0 = ∅ := by
  ext i
  simp only [span, Set.mem_ofPred_eq, Set.mem_empty_iff_false, iff_false]
  omega

theorem span_succ (d n : ℕ) : span d (n + 1) = {d} ∪ span (d + 1) n := by
  ext i
  simp only [span, Set.mem_ofPred_eq, Set.mem_union, Set.mem_singleton_iff]
  omega

theorem span_succ_right (d n : ℕ) : span d (n + 1) = span d n ∪ {d + n} := by
  ext i
  simp only [span, Set.mem_ofPred_eq, Set.mem_union, Set.mem_singleton_iff]
  omega

/-- The positions of `w` columns from `x₀` on and `h` rows from `y₀` on. -/
def rect (stride x₀ y₀ w h : ℕ) : Set ℕ :=
  {i | ∃ x y, i = y * stride + x ∧ x₀ ≤ x ∧ x < x₀ + w ∧ y₀ ≤ y ∧ y < y₀ + h}

theorem rect_zero : rect stride x₀ y₀ w 0 = ∅ := by
  ext i
  simp only [rect, Set.mem_ofPred_eq, Set.mem_empty_iff_false, iff_false]
  rintro ⟨x, y, -, -, -, h1, h2⟩
  omega

/-- A rectangle with one more row. -/
theorem rect_succ :
    rect stride x₀ y₀ w (h + 1) = rect stride x₀ y₀ w h ∪ span ((y₀ + h) * stride + x₀) w := by
  ext i
  simp only [rect, span, Set.mem_ofPred_eq, Set.mem_union]
  constructor
  · rintro ⟨x, y, rfl, h1, h2, h3, h4⟩
    by_cases hy : y = y₀ + h
    · subst hy
      exact .inr ⟨by omega, by omega⟩
    · exact .inl ⟨x, y, rfl, h1, h2, h3, by omega⟩
  · rintro (⟨x, y, rfl, h1, h2, h3, h4⟩ | ⟨h1, h2⟩)
    · exact ⟨x, y, rfl, h1, h2, h3, by omega⟩
    · exact ⟨i - (y₀ + h) * stride, y₀ + h, by omega, by omega, by omega, by omega, by omega⟩

/-- A rectangle with one more row above it. -/
theorem rect_succ_left :
    rect stride x₀ y₀ w (h + 1) = rect stride x₀ (y₀ + 1) w h ∪ span (y₀ * stride + x₀) w := by
  ext i
  simp only [rect, span, Set.mem_ofPred_eq, Set.mem_union]
  constructor
  · rintro ⟨x, y, rfl, h1, h2, h3, h4⟩
    by_cases hy : y = y₀
    · subst hy
      exact .inr ⟨by omega, by omega⟩
    · exact .inl ⟨x, y, rfl, h1, h2, by omega, by omega⟩
  · rintro (⟨x, y, rfl, h1, h2, h3, h4⟩ | ⟨h1, h2⟩)
    · exact ⟨x, y, rfl, h1, h2, by omega, by omega⟩
    · exact ⟨i - y₀ * stride, y₀, by omega, by omega, by omega, le_rfl, by omega⟩

theorem pos_mod (hx : x < stride) : (y * stride + x) % stride = x := by
  rw [Nat.mul_add_mod_self_right, Nat.mod_eq_of_lt hx]

theorem pos_div (hx : x < stride) : (y * stride + x) / stride = y := by
  rw [Nat.mul_comm, Nat.mul_add_div (by omega), Nat.div_eq_of_lt hx, Nat.add_zero]

/-- A position gives its column and row. -/
theorem pos_inj (hx : x < stride) (hx' : x' < stride) (he : y * stride + x = y' * stride + x') :
    x = x' ∧ y = y' := by
  refine ⟨?_, ?_⟩
  · rw [← pos_mod hx (y := y), he, pos_mod hx']
  · rw [← pos_div hx (y := y), he, pos_div hx']

theorem mem_rect_iff (hx : x < stride) (hw : x₀ + w ≤ stride) :
    y * stride + x ∈ rect stride x₀ y₀ w h ↔ x₀ ≤ x ∧ x < x₀ + w ∧ y₀ ≤ y ∧ y < y₀ + h := by
  constructor
  · rintro ⟨x', y', he, h1, h2, h3, h4⟩
    obtain ⟨rfl, rfl⟩ := pos_inj hx (by omega) he
    exact ⟨h1, h2, h3, h4⟩
  · rintro ⟨h1, h2, h3, h4⟩
    exact ⟨x, y, rfl, h1, h2, h3, h4⟩

/-- A span in a rectangle that has a gap between its rows is part of a row. -/
theorem span_le_of_subset (hw : x₀ + w ≤ stride) (hgap : w < stride) (h : span d n ⊆ rect stride x₀ y₀ w h) :
    n ≤ w := by
  by_contra! hlong
  obtain ⟨x, y, hd, hx1, hx2, -⟩ := h (show d ∈ span d n from ⟨le_rfl, by omega⟩)
  -- the end of the row is in the span
  have hend : y * stride + (x₀ + w) ∈ span d n := ⟨by omega, by omega⟩
  rcases Nat.lt_or_ge (x₀ + w) stride with hlt | hge
  · have := (mem_rect_iff hlt hw).mp (h hend)
    omega
  · have hnext : (y + 1) * stride + 0 ∈ span d n := by
      rw [show (y + 1) * stride + 0 = y * stride + (x₀ + w) by rw [Nat.succ_mul]; omega]
      exact hend
    have := (mem_rect_iff (by omega) hw).mp (h hnext)
    omega

theorem rect_subset (hx : x' ≤ x₀) (hy : y' ≤ y₀) {w' h' : ℕ} (hw : x₀ + w ≤ x' + w')
    (hh : y₀ + h ≤ y' + h') : rect stride x₀ y₀ w h ⊆ rect stride x' y' w' h' := by
  rintro i ⟨x, y, rfl, h1, h2, h3, h4⟩
  exact ⟨x, y, rfl, by omega, by omega, by omega, by omega⟩

end Rect

end Csos

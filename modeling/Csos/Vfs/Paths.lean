import Csos.Vfs.Model
/-!
# The VFS — the paths that drivers get

No component of a path that `vfs_normalize` has made is `.` or `..`, and so
none of the path below a mountpoint that `vfs_locate` hands to a driver.
-/

namespace Csos

namespace Vfs

variable {p q a b x y : Str}

/-- `x` is a component of the path: it lies between separators. -/
structure IsComponent (p a x b : Str) : Prop where
  eq : p = a ++ x ++ b
  clean : slash ∉ x
  left : a = [] ∨ a.getLast? = some slash
  right : b = [] ∨ b.head? = some slash

/-- A name other than `.` and `..`. -/
def Plain (x : Str) : Prop := x ≠ [dot] ∧ x ≠ [dot, dot]

/-- **A path without `.` and `..`.** -/
def Normal (p : Str) : Prop := ∀ a x b, IsComponent p a x b → Plain x

/-- The path up to a separator. -/
theorem Normal.of_append_left (h : Normal (p ++ q)) (hq : q = [] ∨ q.head? = some slash) :
    Normal p := by
  intro a x b hc
  refine h a x (b ++ q) ⟨by rw [hc.eq]; simp, hc.clean, hc.left, ?_⟩
  rcases hc.right with rfl | hb
  · exact hq
  · exact .inr (by rw [List.head?_append, hb]; rfl)

/-- The path after a separator. -/
theorem Normal.of_append_right (h : Normal (q ++ p)) (hq : q = [] ∨ q.getLast? = some slash) :
    Normal p := by
  intro a x b hc
  refine h (q ++ a) x b ⟨by rw [hc.eq]; simp, hc.clean, ?_, hc.right⟩
  rcases hc.left with rfl | ha
  · simpa using hq
  · exact .inr (by rw [List.getLast?_append, ha]; rfl)

theorem rtakeWhile_append_slash (a : Str) (hx : slash ∉ x) :
    (a ++ slash :: x).rtakeWhile (· ≠ slash) = x := by
  have hrev : ∀ z ∈ x.reverse, decide (z ≠ slash) = true := by
    intro z hz
    rw [decide_eq_true_eq]
    rintro rfl
    exact hx (List.mem_reverse.mp hz)
  rw [List.rtakeWhile, List.reverse_append, List.reverse_cons, List.append_assoc,
    List.takeWhile_append_of_pos hrev]
  simp

/-- What follows the last separator is determined. -/
theorem eq_of_append_slash (hx : slash ∉ x) (hy : slash ∉ y)
    (h : a ++ slash :: x = b ++ slash :: y) : x = y := by
  rw [← rtakeWhile_append_slash a hx, h, rtakeWhile_append_slash b hy]

/-- A component is put at the end. -/
theorem Normal.append (h : Normal p) (hx : slash ∉ x) (hp : Plain x) : Normal (p ++ slash :: x) := by
  intro a y b hc
  obtain ⟨c, hay, hxb⟩ | ⟨c, hpc, hb⟩ := List.append_eq_append_iff.mp hc.eq
  · cases c with
    | nil =>
      -- the component ends where `p` does
      refine h a y [] ⟨by simpa using hay.symm, hc.clean, hc.left, .inl rfl⟩
    | cons z c =>
      obtain ⟨rfl, rfl⟩ := List.cons.inj hxb
      -- it is the new one
      have hb : b = [] := by
        rcases hc.right with hb | hb
        · exact hb
        · refine absurd ?_ hx
          exact List.mem_append_right _ (List.mem_of_mem_head? hb)
      change slash ∉ c ++ b at hx
      change Plain (c ++ b) at hp
      rw [hb, List.append_nil] at hx hp
      rcases hc.left with rfl | ha
      · refine absurd ?_ hc.clean
        rw [List.nil_append] at hay
        simp [hay]
      · obtain ⟨a', rfl⟩ : ∃ a', a = a' ++ [slash] := ⟨a.dropLast, by
          rw [List.dropLast_append_getLast?]; exact ha⟩
        rw [List.append_assoc, List.singleton_append] at hay
        rwa [eq_of_append_slash hc.clean hx hay]
  · -- the component lies in `p`
    refine h a y c ⟨hpc, hc.clean, hc.left, ?_⟩
    cases c with
    | nil => exact .inl rfl
    | cons z c =>
      rcases hc.right with rfl | hbh
      · exact absurd hb (by simp)
      · rw [hb] at hbh
        exact .inr hbh

/-! ## Normalisation -/

theorem normal_nil : Normal [] := by
  intro a x b hc
  have hx : x = [] := by
    have := hc.eq
    simp_all
  rw [hx]
  exact ⟨by simp, by simp⟩

theorem normal_root : Normal [slash] := normal_nil.append (by simp) ⟨by simp, by simp⟩

/-- The last separator of a path. -/
theorem exists_last_slash (h : slash ∈ p) : ∃ d, p.rdropWhile (· ≠ slash) = d ++ [slash] ∧
    p = d ++ slash :: p.rtakeWhile (· ≠ slash) := by
  have hne : p.rdropWhile (· ≠ slash) ≠ [] := by
    rw [Ne, List.rdropWhile_eq_nil_iff]
    intro hall
    exact absurd (hall slash h) (by simp)
  have hlast := List.rdropWhile_last_not (· ≠ slash) p hne
  rw [decide_eq_true_eq, not_not] at hlast
  refine ⟨(p.rdropWhile (· ≠ slash)).dropLast, ?_, ?_⟩
  · conv_lhs => rw [← List.dropLast_append_getLast hne, hlast]
  · have hsplit : p.rdropWhile (· ≠ slash) ++ p.rtakeWhile (· ≠ slash) = p :=
      List.rdropWhile_append_rtakeWhile
    rw [← List.dropLast_append_getLast hne, hlast, List.append_assoc, List.singleton_append] at hsplit
    exact hsplit.symm

theorem Normal.popComponent (h : Normal p) (hp : p.head? = some slash) :
    Normal (popComponent p) ∧ (popComponent p).head? = some slash := by
  obtain ⟨d, hd, hpd⟩ := exists_last_slash (List.mem_of_mem_head? hp)
  rw [Vfs.popComponent]
  simp only [hd]
  split
  · rename_i hlen
    rw [List.dropLast_concat]
    rw [hpd] at h hp
    refine ⟨h.of_append_left (.inr rfl), ?_⟩
    cases d with
    | nil => exact absurd hlen (by simp)
    | cons z d => exact hp
  · rename_i hlen
    obtain rfl : d = [] := by
      cases d with
      | nil => rfl
      | cons z d => exact absurd hlen (by simp)
    exact ⟨normal_root, rfl⟩

/-- The loop keeps what it has written normal. -/
theorem normalizeLoop_normal {n : ℕ} : ∀ (fuel : ℕ) (src dst : Str), Normal dst →
    dst.head? = some slash → ∀ r, normalizeLoop n fuel src dst = some r →
    Normal r ∧ r.head? = some slash := by
  intro fuel
  induction fuel with
  | zero =>
    rintro src dst hd hh r ⟨⟩
    exact ⟨hd, hh⟩
  | succ fuel ih =>
    intro src dst hd hh r hr
    rw [normalizeLoop] at hr
    simp only at hr
    split at hr
    · cases hr
      exact ⟨hd, hh⟩
    split at hr
    · exact ih _ _ hd hh _ hr
    rename_i hdot
    split at hr
    · exact ih _ _ (hd.popComponent hh).1 (hd.popComponent hh).2 _ hr
    rename_i hdotdot
    have hclean : slash ∉ (src.dropWhile (· = slash)).takeWhile (· ≠ slash) := by
      intro hm
      exact absurd (List.mem_takeWhile_imp hm) (by simp)
    by_cases hlen : 1 < dst.length
    · simp only [hlen, if_true] at hr
      split at hr
      · exact absurd hr (by simp)
      rw [List.append_assoc, List.singleton_append] at hr
      refine ih _ _ (hd.append hclean ⟨hdot, hdotdot⟩) ?_ _ hr
      rw [List.head?_append, hh]
      rfl
    · simp only [hlen, if_false] at hr
      split at hr
      · exact absurd hr (by simp)
      -- only the root has one byte
      obtain rfl : dst = [slash] := by
        cases dst with
        | nil => exact absurd hh (by simp)
        | cons z dst =>
          cases dst with
          | nil => simpa using hh
          | cons y dst => exact absurd hlen (by simp)
      exact ih _ _ (normal_nil.append hclean ⟨hdot, hdotdot⟩) rfl _ hr

/-- **`vfs_normalize`** gives a normal path. -/
theorem normalize_normal {n : ℕ} (h : normalize p n = some q) : Normal q ∧ q.head? = some slash := by
  rw [normalize] at h
  split at h
  · exact absurd h (by simp)
  · exact normalizeLoop_normal _ _ _ normal_root rfl _ h

/-! ## Below a mountpoint -/

/-- The slot that `vfs_resolve` has found matches the path. -/
theorem resolve_matches (s : State) (path : Str) (is : List Slot) :
    ∀ best, (∀ i n, best = some (i, n) → n = 1 ∨ State.matches_ (s.mounts i).mountpoint path = true ∧
        n = (s.mounts i).mountpoint.length) →
      ∀ i n, is.foldl (s.resolveStep path) best = some (i, n) →
        n = 1 ∨ State.matches_ (s.mounts i).mountpoint path = true ∧
          n = (s.mounts i).mountpoint.length := by
  induction is with
  | nil =>
    intro best hb i n h
    exact hb i n h
  | cons x is ih =>
    intro best hb i n h
    refine ih _ (fun i n hi => ?_) i n h
    rw [State.resolveStep] at hi
    split at hi
    · exact hb i n hi
    split at hi
    · split at hi
      · cases hi
        exact .inl rfl
      · exact hb i n hi
    split at hi
    · exact hb i n hi
    rename_i hm
    split at hi
    · cases hi
      exact .inr ⟨not_not.mp hm, rfl⟩
    · exact hb i n hi

/-- **The path that a driver gets has no `.` and no `..` in it.** -/
theorem locate_normal {s s' : State} {i : Slot} (h : s.locate p = .ok (i, q, s')) : Normal q := by
  rw [State.locate] at h
  split at h
  · exact absurd h (by simp)
  rename_i norm habs
  -- the path has been normalised
  obtain ⟨hn, hh⟩ : Normal norm ∧ norm.head? = some slash := by
    rw [State.abspath] at habs
    split_ifs at habs with h1 h2 h3
    · exact normalize_normal habs
    · exact normalize_normal habs
  split at h
  · exact absurd h (by simp)
  rename_i i' rel hres
  obtain ⟨rfl, rfl, rfl⟩ : i' = i ∧ rel = q ∧ s.pin i' = s' := by simpa using h
  rw [State.resolve] at hres
  split at hres
  · exact absurd hres (by simp)
  rename_i i₁ len hfold
  split at hres
  · -- the root mount
    obtain ⟨rfl, rfl⟩ : i₁ = i' ∧ norm.drop 1 = rel := by simpa using hres
    refine Normal.of_append_right (q := norm.take 1) (by rwa [List.take_append_drop]) (.inr ?_)
    cases norm with
    | nil => exact absurd hh (by simp)
    | cons z norm => simpa using hh
  rename_i hlen
  split at hres
  · rename_i hslash
    obtain ⟨rfl, rfl⟩ : i₁ = i' ∧ norm.drop (len + 1) = rel := by simpa using hres
    refine Normal.of_append_right (q := norm.take (len + 1)) (by rwa [List.take_append_drop]) (.inr ?_)
    rw [List.head?_drop] at hslash
    rw [List.take_add_one, hslash]
    simp
  · rename_i hslash
    obtain ⟨rfl, rfl⟩ : i₁ = i' ∧ norm.drop len = rel := by simpa using hres
    obtain h1 | ⟨hm, rfl⟩ := resolve_matches s norm _ none (by simp) _ _ hfold
    · exact absurd h1 hlen
    rw [State.matches_, decide_eq_true_eq] at hm
    rcases hm.2.2 with hnil | hsl
    · rw [List.head?_eq_none_iff.mp hnil]
      exact normal_nil
    · exact absurd hsl hslash

end Vfs

end Csos

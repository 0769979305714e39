import Mathlib.Data.List.GetD
import Mathlib.Tactic
/-!
# Sequences that are read and written at a position

A sequence holds its elements and no more; what is written past its end fills
the gap with `z` first. `window` is what is read, `overlay` what is left by a
write. A sequence is its length and its elements, so each is known by where
its elements come from.
-/

namespace Csos

namespace Seekable

variable {α : Type*} {z : α} {l l' p q : List α} {pos n i : ℕ}

/-- At most `n` elements, from `pos` on. -/
def window (l : List α) (pos n : ℕ) : List α := (l.drop pos).take n

/-- The elements `p` stored from `pos` on. -/
def overlay (z : α) (l : List α) (pos : ℕ) (p : List α) : List α :=
  (l ++ List.replicate (pos - l.length) z).take pos ++ p ++ l.drop (pos + p.length)

/-- **A sequence is its length and its elements.** -/
theorem ext_getD (hlen : l.length = l'.length) (h : ∀ i < l.length, l.getD i z = l'.getD i z) : l = l' := by
  refine List.ext_getElem hlen fun i hi hi' => ?_
  rw [← List.getD_eq_getElem _ z hi, ← List.getD_eq_getElem _ z hi']
  exact h i hi

theorem length_window : (window l pos n).length = min n (l.length - pos) := by
  rw [window, List.length_take, List.length_drop]

theorem getD_window (h : i < n) : (window l pos n).getD i z = l.getD (pos + i) z := by
  rw [window, List.getD_eq_getElem?_getD, List.getD_eq_getElem?_getD, List.getElem?_take_of_lt h,
    List.getElem?_drop]

theorem length_front : ((l ++ List.replicate (pos - l.length) z).take pos).length = pos := by
  rw [List.length_take, List.length_append, List.length_replicate]
  omega

theorem length_overlay : (overlay z l pos p).length = max l.length (pos + p.length) := by
  rw [overlay, List.length_append, List.length_append, length_front, List.length_drop]
  omega

/-- **Where the elements come from** after a write. -/
theorem getD_overlay : (overlay z l pos p).getD i z =
    if pos ≤ i ∧ i < pos + p.length then p.getD (i - pos) z else l.getD i z := by
  by_cases hlt : i < pos
  · have hfront : i < ((l ++ List.replicate (pos - l.length) z).take pos).length := by rwa [length_front]
    rw [overlay, List.append_assoc, List.getD_append _ _ _ _ hfront, if_neg (by omega),
      List.getD_eq_getElem?_getD, List.getElem?_take_of_lt hlt, ← List.getD_eq_getElem?_getD]
    by_cases hin : i < l.length
    · exact List.getD_append _ _ _ _ hin
    · rw [List.getD_append_right _ _ _ _ (by omega), List.getD_eq_default l z (by omega)]
      exact List.getD_replicate _ (by omega)
  · rw [overlay, List.append_assoc, List.getD_append_right _ _ _ _ (by rw [length_front]; omega),
      length_front]
    by_cases hin : i < pos + p.length
    · rw [List.getD_append _ _ _ _ (by omega), if_pos ⟨by omega, hin⟩]
    · rw [List.getD_append_right _ _ _ _ (by omega), if_neg (by omega), List.getD_eq_getElem?_getD,
        List.getElem?_drop, ← List.getD_eq_getElem?_getD]
      congr 1
      omega

end Seekable

end Csos

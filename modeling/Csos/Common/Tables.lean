import Mathlib.Tactic
import Mathlib.Data.Set.Card
/-!
# Tables of handles

A table gives the record that each handle below a bound has, if it is in use.
`uses` counts the records with a property; a change of one handle changes the
count by that handle alone.
-/

namespace Csos

variable {β : Type*} {f : ℕ → Option β} {P : β → Bool} {N h : ℕ} {v : Option β}

/-- The number of records with a property. -/
noncomputable def uses (N : ℕ) (f : ℕ → Option β) (P : β → Bool) : ℕ :=
  {h | h < N ∧ (f h).any P = true}.ncard

theorem uses_eq_card (N : ℕ) (f : ℕ → Option β) (P : β → Bool) :
    uses N f P = ((Finset.range N).filter fun h => (f h).any P = true).card := by
  rw [uses, ← Set.ncard_coe_finset]
  congr 1
  ext h
  simp

theorem uses_le (N : ℕ) (f : ℕ → Option β) (P : β → Bool) : uses N f P ≤ N := by
  rw [uses_eq_card]
  exact (Finset.card_filter_le _ _).trans_eq (Finset.card_range N)

theorem uses_eq_sum (hh : h < N) : uses N f P =
    (∑ i ∈ (Finset.range N).erase h, ((f i).any P).toNat) + ((f h).any P).toNat := by
  have hsum : uses N f P = ∑ i ∈ Finset.range N, ((f i).any P).toNat := by
    rw [uses_eq_card, Finset.card_filter]
    refine Finset.sum_congr rfl fun i _ => ?_
    cases (f i).any P <;> rfl
  rw [hsum, Finset.sum_erase_add _ _ (Finset.mem_range.mpr hh)]

/-- **A change of one handle.** -/
theorem uses_update (hh : h < N) : uses N (Function.update f h v) P + ((f h).any P).toNat =
    uses N f P + (v.any P).toNat := by
  have hrest : ∑ i ∈ (Finset.range N).erase h, ((Function.update f h v i).any P).toNat =
      ∑ i ∈ (Finset.range N).erase h, ((f i).any P).toNat :=
    Finset.sum_congr rfl fun i hi => by
      rw [Function.update_of_ne (Finset.ne_of_mem_erase hi)]
  rw [uses_eq_sum hh, uses_eq_sum hh, hrest, Function.update_self]
  omega

theorem uses_pos_iff : 0 < uses N f P ↔ ∃ h < N, ∃ x, f h = some x ∧ P x = true := by
  simp only [uses_eq_card, Finset.card_pos, Finset.Nonempty, Finset.mem_filter, Finset.mem_range,
    Option.any_eq_true]

end Csos

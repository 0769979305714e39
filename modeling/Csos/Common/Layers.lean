import Mathlib.Logic.Nontrivial.Basic
import Mathlib.Tactic.Common
/-!
# Layers laid over a function

A sequence of partial functions, each laid over what the ones before it
left. What is seen of the pile at a point is the value of the last layer
that reaches it, and what lay below the first where none does; so the pile
shows a value over every ground exactly where a layer puts it there and no
later one reaches.
-/

namespace Csos

namespace Layers

variable {α β : Type*}

/-- One layer over `m`. -/
def lay (l : α → Option β) (m : α → β) : α → β := fun a => (l a).getD (m a)

/-- The `n` layers from the `i`th on, laid over `m`. -/
def pile (l : ℕ → α → Option β) : ℕ → ℕ → (α → β) → α → β
  | _, 0, m => m
  | i, n + 1, m => pile l (i + 1) n (lay (l i) m)

/-- The last of the `n` layers from the `i`th on to reach `a` has `b` there. -/
def Top (l : ℕ → α → Option β) (i n : ℕ) (a : α) (b : β) : Prop :=
  ∃ k, i ≤ k ∧ k < i + n ∧ l k a = some b ∧ ∀ j, k < j → j < i + n → l j a = none

variable {l : ℕ → α → Option β} {i n : ℕ} {m : α → β} {a : α} {b : β}

/-- Two layers are one: the upper one where it reaches, else the lower. -/
theorem lay_lay (u v : α → Option β) (m : α → β) :
    lay u (lay v m) = lay (fun a => (u a).or (v a)) m := by
  funext a
  unfold lay
  exact Option.getD_or.symm

theorem lay_of_some {u : α → Option β} (h : u a = some b) : lay u m a = b := by
  rw [lay, h, Option.getD_some]

theorem lay_of_none {u : α → Option β} (h : u a = none) : lay u m a = m a := by
  rw [lay, h, Option.getD_none]

/-- Where no layer reaches, the ground is seen. -/
theorem pile_of_none (h : ∀ k, i ≤ k → k < i + n → l k a = none) : pile l i n m a = m a := by
  induction n generalizing i m with
  | zero => rfl
  | succ n ih =>
    rw [pile, ih fun k hk hkn => h k (by omega) (by omega),
      lay_of_none (h i (Nat.le_refl i) (by omega))]

/-- The last layer that reaches a point is seen there. -/
theorem pile_of_top (h : Top l i n a b) : pile l i n m a = b := by
  induction n generalizing i m with
  | zero =>
    obtain ⟨k, hik, hkn, -⟩ := h
    omega
  | succ n ih =>
    obtain ⟨k, hik, hkn, hb, hlast⟩ := h
    rw [pile]
    rcases Nat.eq_or_lt_of_le hik with rfl | hlt
    · rw [pile_of_none fun j hj hjn => hlast j (by omega) (by omega), lay_of_some hb]
    · exact ih ⟨k, by omega, by omega, hb, fun j hkj hjn => hlast j hkj (by omega)⟩

/-- Some layer is the last to reach a point, or none reaches it. -/
theorem top_or_none (l : ℕ → α → Option β) (i n : ℕ) (a : α) :
    (∃ b, Top l i n a b) ∨ ∀ k, i ≤ k → k < i + n → l k a = none := by
  induction n with
  | zero => exact .inr fun k hik hkn => by omega
  | succ n ih =>
    rcases hn : l (i + n) a with - | b
    · rcases ih with ⟨b, k, hik, hkn, hb, hlast⟩ | hnone
      · refine .inl ⟨b, k, hik, by omega, hb, fun j hkj hjn => ?_⟩
        rcases Nat.eq_or_lt_of_le (Nat.le_of_lt_succ hjn) with rfl | hlt
        · exact hn
        · exact hlast j hkj hlt
      · refine .inr fun k hik hkn => ?_
        rcases Nat.eq_or_lt_of_le (Nat.le_of_lt_succ hkn) with rfl | hlt
        · exact hn
        · exact hnone k hik hlt
    · exact .inl ⟨b, i + n, by omega, by omega, hn, fun j hj hjn => by omega⟩

/-- One value is on top. -/
theorem top_unique {c : β} (hb : Top l i n a b) (hc : Top l i n a c) : b = c :=
  (pile_of_top (m := fun _ => b) hb).symm.trans (pile_of_top hc)

end Layers

end Csos

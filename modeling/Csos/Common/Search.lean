import Mathlib.Tactic
/-!
# Searching loops

A loop that looks at one position after another, carries a state of its own
along and stops at the first position that settles the result; it is given a
number of rounds. What it returns depends on that first position only, and
it runs out of rounds if there is none.
-/

namespace Csos

variable {σ R : Type*}

/-- **A searching loop.** In a state that fits its position it returns what
the position gives, or goes on to the next one; `out` is what it returns
when there are no rounds left. -/
structure Searches (loop : ℕ → σ → ℕ → R) (Fits : ℕ → σ → Prop) (result : ℕ → Option R)
    (out : R) : Prop where
  zero : ∀ s i, loop 0 s i = out
  found : ∀ n s i r, Fits i s → result i = some r → loop (n + 1) s i = r
  next : ∀ n s i, Fits i s → result i = none →
    ∃ s', Fits (i + 1) s' ∧ loop (n + 1) s i = loop n s' (i + 1)

namespace Searches

variable {loop : ℕ → σ → ℕ → R} {Fits : ℕ → σ → Prop} {result : ℕ → Option R} {out : R}
  {s : σ} {i k n : ℕ} {r : R}

/-- The first position that settles the result. -/
theorem first (h : Searches loop Fits result out) (hs : Fits i s) (hik : i ≤ k) (hkn : k < i + n)
    (hbefore : ∀ j, i ≤ j → j < k → result j = none) (hk : result k = some r) : loop n s i = r := by
  induction n generalizing i s with
  | zero => omega
  | succ n ih =>
    rcases Nat.eq_or_lt_of_le hik with rfl | hlt
    · exact h.found n s i r hs hk
    · obtain ⟨s', hs', he⟩ := h.next n s i hs (hbefore i le_rfl hlt)
      rw [he]
      exact ih hs' hlt (by omega) fun j hj => hbefore j (by omega)

/-- No position that settles it. -/
theorem exhausted (h : Searches loop Fits result out) (hs : Fits i s)
    (hnone : ∀ j, i ≤ j → j < i + n → result j = none) : loop n s i = out := by
  induction n generalizing i s with
  | zero => exact h.zero s i
  | succ n ih =>
    obtain ⟨s', hs', he⟩ := h.next n s i hs (hnone i le_rfl (by omega))
    rw [he]
    exact ih hs' fun j h1 h2 => hnone j (by omega) (by omega)

/-- **A searching loop** stops at the first position that settles the
result, or runs out of rounds. -/
theorem cases (h : Searches loop Fits result out) (hs : Fits i s) (n : ℕ) :
    (∃ k r, i ≤ k ∧ k < i + n ∧ (∀ j, i ≤ j → j < k → result j = none) ∧ result k = some r ∧
      loop n s i = r) ∨
    ((∀ j, i ≤ j → j < i + n → result j = none) ∧ loop n s i = out) := by
  by_cases hex : ∃ k, i ≤ k ∧ k < i + n ∧ result k ≠ none
  · classical
    obtain ⟨h1, h2, h3⟩ := Nat.find_spec hex
    obtain ⟨r, hr⟩ := Option.ne_none_iff_exists'.mp h3
    have hbefore : ∀ j, i ≤ j → j < Nat.find hex → result j = none := by
      intro j hj hlt
      by_contra hne
      exact Nat.find_min hex hlt ⟨hj, by omega, hne⟩
    exact .inl ⟨Nat.find hex, r, h1, h2, hbefore, hr, h.first hs h1 h2 hbefore hr⟩
  · have hnone : ∀ j, i ≤ j → j < i + n → result j = none := by
      intro j h1 h2
      by_contra hne
      exact hex ⟨j, h1, h2, hne⟩
    exact .inr ⟨hnone, h.exhausted hs hnone⟩

end Searches

end Csos

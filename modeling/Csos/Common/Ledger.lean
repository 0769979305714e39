import Csos.Common.Checked
import Mathlib.Data.List.Perm.Basic
/-!
# Ledgers

A computation that takes things and gives them back, and whose world keeps the
ledger. `Leaves L held x kept` says that the ledger comes out: with `held` at
first, `x` keeps `kept`, and gives back the rest of what it held and took, each
one time. `Refines` says that `x` does to a part of its world, the one without
the ledger, what `y` does.
-/

namespace Csos

namespace Checked

open scoped List

variable {σ τ ι α β γ δ : Type}

/-! ## What a computation keeps -/

/-- What a world says has been taken and given back so far. -/
structure Ledger (σ ι : Type) where
  taken : σ → List ι
  given : σ → List ι

/-- **The ledger comes out.** -/
def Leaves (L : Ledger σ ι) (held : List ι) (x : Checked σ α) (kept : α → List ι) : Prop :=
  ∀ s a s', x s = .ret (a, s') → ∃ ts gs, L.taken s' = L.taken s ++ ts ∧
    L.given s' = L.given s ++ gs ∧ (held ++ ts).Perm (gs ++ kept a)

section

variable {L : Ledger σ ι} {held rest : List ι} {x y : Checked σ α} {f : α → Checked σ β}
  {kept : α → List ι} {kept' : β → List ι}

/-- A computation that writes nothing into the ledger. -/
theorem Leaves.of_quiet (hx : Along (fun s s' => L.taken s' = L.taken s ∧ L.given s' = L.given s) x) :
    Leaves L held x fun _ => held := by
  intro s a s' h
  obtain ⟨ht, hg⟩ := hx s a s' h
  exact ⟨[], [], by rw [ht, List.append_nil], by rw [hg, List.append_nil], by simp⟩

theorem leaves_pure {a : α} (h : held.Perm (kept a)) : Leaves L held (pure a) kept := by
  rintro s b s' hret
  cases hret
  exact ⟨[], [], by simp, by simp, by simpa using h⟩

/-- **One computation after another.** -/
theorem Leaves.bind (hx : Leaves L held x kept) (hf : ∀ a, Leaves L (kept a) (f a) kept') :
    Leaves L held (x >>= f) kept' := by
  intro s b s'' h
  rw [bind_apply] at h
  cases hxs : x s with
  | fault =>
    rw [hxs] at h
    cases h
  | hang =>
    rw [hxs] at h
    cases h
  | ret r =>
    rw [hxs] at h
    obtain ⟨ts, gs, ht, hg, hperm⟩ := hx s r.1 r.2 hxs
    obtain ⟨ts', gs', ht', hg', hperm'⟩ := hf r.1 r.2 b s'' h
    refine ⟨ts ++ ts', gs ++ gs', by rw [ht', ht, List.append_assoc],
      by rw [hg', hg, List.append_assoc], ?_⟩
    calc held ++ (ts ++ ts') = held ++ ts ++ ts' := (List.append_assoc ..).symm
      _ ~ gs ++ kept r.1 ++ ts' := hperm.append_right ts'
      _ = gs ++ (kept r.1 ++ ts') := List.append_assoc ..
      _ ~ gs ++ (gs' ++ kept' b) := hperm'.append_left gs
      _ = gs ++ gs' ++ kept' b := (List.append_assoc ..).symm

theorem leaves_ite {c : Prop} [Decidable c] (hx : Leaves L held x kept) (hy : Leaves L held y kept) :
    Leaves L held (if c then x else y) kept := by
  split
  · exact hx
  · exact hy

/-- A check takes nothing. -/
theorem leaves_require {p : Prop} [Decidable p] : Leaves L held (require p) fun _ => held :=
  .of_quiet (along_require fun _ => ⟨rfl, rfl⟩)

end

/-! ## A part of the world -/

/-- **`x` does to the part `view` of its world what `y` does**, and returns what
`f` takes to what `y` returns. -/
def Refines (view : σ → τ) (f : α → β) (x : Checked σ α) (y : Checked τ β) : Prop :=
  ∀ s, match y (view s) with
    | .fault => x s = .fault
    | .hang => x s = .hang
    | .ret (b, t) => ∃ a s', x s = .ret (a, s') ∧ f a = b ∧ view s' = t

section

variable {view : σ → τ} {f : α → β} {g : γ → δ} {x x' : Checked σ α} {y y' : Checked τ β}
  {X : α → Checked σ γ} {Y : β → Checked τ δ}

theorem refines_pure (a : α) : Refines view f (pure a) (pure (f a)) := fun s => ⟨a, s, rfl, rfl, rfl⟩

/-- **One computation after another.** -/
theorem Refines.bind (hx : Refines view f x y) (hX : ∀ a, Refines view g (X a) (Y (f a))) :
    Refines view g (x >>= X) (y >>= Y) := by
  intro s
  have h := hx s
  rw [bind_apply]
  cases hys : y (view s) with
  | fault =>
    rw [hys] at h
    rw [bind_apply, show x s = _ from h]
  | hang =>
    rw [hys] at h
    rw [bind_apply, show x s = _ from h]
  | ret r =>
    rw [hys] at h
    obtain ⟨a, s', hret, hfa, hview⟩ := h
    have hrest := hX a s'
    rw [hfa, hview] at hrest
    rw [bind_of_ret hret]
    exact hrest

theorem refines_ite {c : Prop} [Decidable c] (hx : Refines view f x y) (hy : Refines view f x' y') :
    Refines view f (if c then x else x') (if c then y else y') := by
  split
  · exact hx
  · exact hy

theorem refines_require {p : Prop} [Decidable p] :
    Refines view id (require p : Checked σ Unit) (require p) := by
  by_cases h : p
  · intro s
    rw [require_apply h]
    exact ⟨(), s, require_apply h s, rfl, rfl⟩
  · intro s
    rw [require, require, if_neg h, if_neg h]
    exact rfl

/-- What runs to an end on the part runs to an end. -/
theorem Refines.returns {Q : β → Prop} (h : Refines view f x y) (hsafe : Safe y Q) (hhalts : Halts y)
    (s : σ) : ∃ a s', x s = .ret (a, s') ∧ Q (f a) := by
  have hs := h s
  have hq := hsafe (view s)
  cases hys : y (view s) with
  | fault =>
    rw [hys] at hq
    exact hq.elim
  | hang => exact absurd hys (hhalts (view s))
  | ret r =>
    rw [hys] at hs hq
    obtain ⟨a, s', hret, hfa, -⟩ := hs
    exact ⟨a, s', hret, by rwa [hfa]⟩

end

end Checked

namespace Buf

open Checked

variable {σ τ ι : Type} {L : Ledger σ ι} {held : List ι} {view : σ → τ} {b src : Buf}
  {off n start : ℕ}

theorem leaves_load : Leaves L held (b.load n off) fun _ => held :=
  leaves_require.bind fun _ => leaves_pure .rfl

theorem leaves_copy : Leaves L held (b.copy off n src start) fun _ => held :=
  leaves_require.bind fun _ => leaves_require.bind fun _ => leaves_pure .rfl

theorem refines_load : Refines view id (b.load n off : Checked σ ℕ) (b.load n off) :=
  refines_require.bind fun _ => refines_pure _

theorem refines_copy :
    Refines view id (b.copy off n src start : Checked σ Buf) (b.copy off n src start) :=
  refines_require.bind fun _ => refines_require.bind fun _ => refines_pure _

end Buf

namespace Checked

variable {σ τ ι : Type} {L : Ledger σ ι} {held : List ι} {view : σ → τ} {a b : ℕ}

theorem leaves_div : Leaves L held (div a b) fun _ => held :=
  leaves_require.bind fun _ => leaves_pure .rfl

theorem leaves_mod : Leaves L held (mod a b) fun _ => held :=
  leaves_require.bind fun _ => leaves_pure .rfl

theorem refines_div : Refines view id (div a b : Checked σ ℕ) (div a b) :=
  refines_require.bind fun _ => refines_pure _

theorem refines_mod : Refines view id (mod a b : Checked σ ℕ) (mod a b) :=
  refines_require.bind fun _ => refines_pure _

end Checked

end Csos

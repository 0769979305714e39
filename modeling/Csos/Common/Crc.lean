import Mathlib.Algebra.Field.ZMod
import Mathlib.RingTheory.AdjoinRoot
import Mathlib.Tactic
/-!
# Cyclic redundancy checks

A register of `w` bits that is shifted towards its lowest bit is a polynomial
of degree below `w` over the field of two elements, its lowest bit being the
coefficient of the highest power. A shift multiplies it by `X` modulo the
generator (`mk_shift`), so what a register holds after a message is a
remainder. A generator with a constant term divides no burst that is not
longer than the register (`not_dvd_burst`).
-/

namespace Csos

namespace Crc

open Polynomial

variable {m n k t w : ℕ} {f g : ℕ → Bool} {p c d : BitVec w}

/-! ## Strings of bits as polynomials -/

/-- The polynomial of the first `n` bits: the first bit is the coefficient of
`X ^ (n - 1)`, the last one the constant term. -/
noncomputable def bitPoly : ℕ → (ℕ → Bool) → (ZMod 2)[X]
  | 0, _ => 0
  | n + 1, f => X * bitPoly n f + if f n then 1 else 0

theorem bitPoly_congr (h : ∀ i < n, f i = g i) : bitPoly n f = bitPoly n g := by
  induction n with
  | zero => rfl
  | succ n ih => rw [bitPoly, bitPoly, ih fun i hi => h i (by omega), h n n.lt_succ_self]

theorem bitPoly_eq_zero (h : ∀ i < n, f i = false) : bitPoly n f = 0 := by
  induction n with
  | zero => rfl
  | succ n ih =>
    rw [bitPoly, ih fun i hi => h i (by omega), h n n.lt_succ_self, mul_zero, zero_add,
      if_neg (by simp)]

/-- One string after the other. -/
theorem bitPoly_add (m n : ℕ) (f : ℕ → Bool) :
    bitPoly (m + n) f = bitPoly m f * X ^ n + bitPoly n fun i => f (m + i) := by
  induction n with
  | zero => rw [Nat.add_zero, pow_zero, mul_one, bitPoly, add_zero]
  | succ n ih =>
    rw [← Nat.add_assoc, bitPoly, ih, bitPoly, pow_succ]
    ring

/-- Addition is bit by bit. -/
theorem bitPoly_xor (n : ℕ) (f g : ℕ → Bool) :
    (bitPoly n fun i => f i ^^ g i) = bitPoly n f + bitPoly n g := by
  induction n with
  | zero => rw [bitPoly, bitPoly, bitPoly, add_zero]
  | succ n ih =>
    have hbit : (if (f n ^^ g n) = true then 1 else 0 : (ZMod 2)[X]) =
        (if f n = true then 1 else 0) + if g n = true then 1 else 0 := by
      cases f n <;> cases g n <;> simp [CharTwo.add_self_eq_zero]
    rw [bitPoly, ih, hbit, bitPoly, bitPoly]
    ring

theorem bitPoly_coeff (n k : ℕ) (f : ℕ → Bool) :
    (bitPoly n f).coeff k = if k < n ∧ f (n - 1 - k) then 1 else 0 := by
  induction n generalizing k with
  | zero => simp [bitPoly]
  | succ n ih =>
    rw [bitPoly, coeff_add]
    rcases k with _ | k
    · rw [coeff_X_mul_zero, zero_add, Nat.add_sub_cancel, Nat.sub_zero]
      cases f n <;> simp
    · have hlast : (if f n = true then 1 else 0 : (ZMod 2)[X]).coeff (k + 1) = 0 := by
        split
        · rw [coeff_one, if_neg (Nat.succ_ne_zero k)]
        · rfl
      rw [coeff_X_mul, hlast, add_zero, ih, show n + 1 - 1 - (k + 1) = n - 1 - k by omega]
      exact if_congr (and_congr (by omega) Iff.rfl) rfl rfl

theorem degree_bitPoly_lt (n : ℕ) (f : ℕ → Bool) : (bitPoly n f).degree < n := by
  rw [degree_lt_iff_coeff_zero]
  intro k hk
  rw [bitPoly_coeff, if_neg (by omega)]

/-- A bit that is set. -/
theorem bitPoly_ne_zero (hk : k < n) (hf : f k = true) : bitPoly n f ≠ 0 := by
  intro h
  have hcoeff := bitPoly_coeff n (n - 1 - k) f
  rw [h, coeff_zero, show n - 1 - (n - 1 - k) = k by omega, if_pos ⟨by omega, hf⟩] at hcoeff
  exact absurd hcoeff (by decide)

/-- A shift towards the first bit. -/
theorem X_mul_bitPoly (h : f n = false) :
    X * bitPoly n f = (if f 0 then X ^ n else 0) + bitPoly n fun i => f (i + 1) := by
  have hleft : bitPoly (n + 1) f = X * bitPoly n f := by
    rw [bitPoly, h, if_neg (by simp), add_zero]
  have hright := bitPoly_add 1 n f
  rw [Nat.add_comm, hleft] at hright
  rw [hright, bitPoly, bitPoly, mul_zero, zero_add, ite_mul, one_mul, zero_mul]
  congr 2
  funext i
  rw [Nat.add_comm]

/-! ## The register -/

/-- One shift of the register; `p` is what is added when a set bit drops out. -/
def shift (p c : BitVec w) : BitVec w := if c.getLsbD 0 then (c >>> 1) ^^^ p else c >>> 1

/-- The polynomial of a register. -/
noncomputable def poly (c : BitVec w) : (ZMod 2)[X] := bitPoly w c.getLsbD

/-- The generator whose lower coefficients are `p`. -/
noncomputable def generator (p : BitVec w) : (ZMod 2)[X] := X ^ w + poly p

theorem poly_xor (c d : BitVec w) : poly (c ^^^ d) = poly c + poly d := by
  unfold poly
  rw [← bitPoly_xor]
  exact bitPoly_congr fun i _ => BitVec.getLsbD_xor

theorem degree_poly_lt (c : BitVec w) : (poly c).degree < w := degree_bitPoly_lt w _

theorem generator_monic (p : BitVec w) : (generator p).Monic := monic_X_pow_add (degree_poly_lt p)

theorem generator_degree (p : BitVec w) : (generator p).degree = w := by
  unfold generator
  rw [degree_add_eq_left_of_degree_lt (by rw [degree_X_pow]; exact degree_poly_lt p), degree_X_pow]

/-- The bits of a short register at the front of a longer one. -/
theorem poly_of_low (hk : k ≤ w) (h : ∀ i, k ≤ i → c.getLsbD i = false) :
    poly c = bitPoly k c.getLsbD * X ^ (w - k) := by
  obtain ⟨j, rfl⟩ := Nat.exists_eq_add_of_le hk
  unfold poly
  rw [bitPoly_add, bitPoly_eq_zero (f := fun i => c.getLsbD (k + i)) fun i _ => h _ (Nat.le_add_right ..),
    add_zero, Nat.add_sub_cancel_left]

/-- **A shift multiplies by `X`** modulo the generator. -/
theorem mk_shift (p c : BitVec w) :
    AdjoinRoot.mk (generator p) (poly (shift p c)) = AdjoinRoot.mk (generator p) (X * poly c) := by
  have hdrop : (bitPoly w fun i => c.getLsbD (i + 1)) = poly (c >>> 1) :=
    bitPoly_congr fun i _ => by rw [BitVec.getLsbD_ushiftRight, Nat.add_comm]
  have hmul : X * poly c = (if c.getLsbD 0 then X ^ w else 0) + poly (c >>> 1) := by
    rw [poly, X_mul_bitPoly (BitVec.getLsbD_of_ge c w le_rfl), hdrop]
  rw [hmul]
  unfold shift
  split
  · -- the power that drops out is what the generator adds
    rw [AdjoinRoot.mk_eq_mk, poly_xor]
    refine ⟨-1, ?_⟩
    rw [generator]
    have hchar : poly p + poly p = 0 := CharTwo.add_self_eq_zero _
    linear_combination hchar
  · rw [zero_add]

theorem mk_shifts (p : BitVec w) (k : ℕ) (c : BitVec w) :
    AdjoinRoot.mk (generator p) (poly ((shift p)^[k] c)) =
      AdjoinRoot.mk (generator p) (X ^ k * poly c) := by
  induction k generalizing c with
  | zero => rw [Function.iterate_zero_apply, pow_zero, one_mul]
  | succ k ih =>
    rw [Function.iterate_succ_apply, ih, map_mul, mk_shift, ← map_mul, pow_succ, mul_assoc]

/-- **A piece of `k` bits** is added to the register, which is then shifted
past it. -/
theorem mk_feed (hk : k ≤ w) (h : ∀ i, k ≤ i → d.getLsbD i = false) (p c : BitVec w) :
    AdjoinRoot.mk (generator p) (poly ((shift p)^[k] (c ^^^ d))) =
      AdjoinRoot.mk (generator p) (X ^ k * poly c + X ^ w * bitPoly k d.getLsbD) := by
  rw [mk_shifts, poly_xor, poly_of_low hk h]
  congr 1
  have hpow : (X : (ZMod 2)[X]) ^ w = X ^ k * X ^ (w - k) := by
    rw [← pow_add, Nat.add_sub_cancel' hk]
  rw [hpow]
  ring

/-- A register is the remainder of what it is congruent to. -/
theorem poly_eq_modByMonic {a : (ZMod 2)[X]}
    (h : AdjoinRoot.mk (generator p) (poly c) = AdjoinRoot.mk (generator p) a) :
    poly c = a %ₘ generator p := by
  have hmod := modByMonic_eq_of_dvd_sub (generator_monic p) (AdjoinRoot.mk_eq_mk.mp h)
  rw [← hmod, eq_comm, modByMonic_eq_self_iff (generator_monic p), generator_degree]
  exact degree_poly_lt c

/-- The bits of a register are the coefficients of its polynomial. -/
theorem poly_coeff {i : ℕ} (hi : i < w) (c : BitVec w) :
    (poly c).coeff (w - 1 - i) = if c.getLsbD i then 1 else 0 := by
  rw [poly, bitPoly_coeff, show w - 1 - (w - 1 - i) = i by omega]
  exact if_congr (and_iff_right (by omega)) rfl rfl

/-! ## Bursts -/

/-- A generator with a constant term has no factor `X`. -/
theorem generator_isCoprime (hw : 0 < w) (hp : p.getLsbD (w - 1) = true) (k : ℕ) :
    IsCoprime (generator p) (X ^ k) := by
  refine IsCoprime.pow_right (IsCoprime.symm (irreducible_X.coprime_iff_not_dvd.mpr ?_))
  rw [X_dvd_iff, generator, coeff_add, coeff_X_pow, if_neg (by omega), zero_add]
  have hlast := poly_coeff (i := w - 1) (by omega) p
  rw [Nat.sub_self, hp, if_pos rfl] at hlast
  rw [hlast]
  exact one_ne_zero

/-- **No burst of at most `w` bits is a multiple of the generator**, wherever it
is in the string. -/
theorem not_dvd_burst (hw : 0 < w) (hp : p.getLsbD (w - 1) = true)
    (hwin : ∀ i < n, f i = true → t ≤ i ∧ i < t + w) (hset : ∃ i < n, f i = true) (k : ℕ) :
    ¬ generator p ∣ X ^ k * bitPoly n f := by
  obtain ⟨i, hi, hfi⟩ := hset
  obtain ⟨hti, -⟩ := hwin i hi hfi
  have hoff : ∀ j < n, ¬ (t ≤ j ∧ j < t + w) → f j = false := fun j hj hout =>
    Bool.eq_false_iff.mpr fun hfj => hout (hwin j hj hfj)
  -- the bits of the window, and as many after it as there are
  obtain ⟨a, b, hab, haw, hb⟩ : ∃ a b, n = t + a + b ∧ a ≤ w ∧ (b = 0 ∨ a = w) := by
    rcases Nat.le_total n (t + w) with h | h
    · exact ⟨n - t, 0, by omega, by omega, .inl rfl⟩
    · exact ⟨w, n - (t + w), by omega, le_rfl, .inr rfl⟩
  have hburst : bitPoly n f = (bitPoly a fun j => f (t + j)) * X ^ b := by
    rw [hab, bitPoly_add (t + a), bitPoly_add t, bitPoly_eq_zero (n := t) fun j hj => hoff j (by omega) (by omega),
      bitPoly_eq_zero (n := b) fun j hj => hoff (t + a + j) (by omega) (by omega), zero_mul, zero_add, add_zero]
  have hne : bitPoly n f ≠ 0 := bitPoly_ne_zero hi hfi
  intro hdvd
  rw [hburst] at hdvd hne
  have hdvd' := (generator_isCoprime hw hp b).dvd_of_dvd_mul_right
    ((generator_isCoprime hw hp k).dvd_of_dvd_mul_left hdvd)
  refine hne ?_
  rw [eq_zero_of_dvd_of_degree_lt hdvd' ?_, zero_mul]
  rw [generator_degree]
  exact (degree_bitPoly_lt a _).trans_le (by exact_mod_cast haw)

end Crc

end Csos

import Csos.Common.Checked
import Mathlib.Data.List.DropRight
/-!
# Scanning a text

A parser that walks over a buffer with pointers, one checked byte at a time.
What lies between two pointers is a `slice`, and each loop is given by the
slices it ends with: `scan_spec` for a pointer that moves up, `scanBack_spec`
for one that moves down.
-/

namespace Csos

/-! ## Slices -/

/-- The bytes from `p` to `e`. -/
def slice (m : Bytes) (p e : ℕ) : List UInt8 := (List.range' p (e - p)).map m

section

variable {m m' : Bytes} {p q e n : ℕ}

@[simp] theorem length_slice : (slice m p e).length = e - p := by simp [slice]

theorem slice_of_le (h : e ≤ p) : slice m p e = [] := by
  rw [slice, Nat.sub_eq_zero_of_le h]
  rfl

theorem slice_cons (h : p < e) : slice m p e = m p :: slice m (p + 1) e := by
  rw [slice, slice, show e - p = (e - (p + 1)) + 1 by omega]
  rfl

theorem slice_append (h : p ≤ q) (h' : q ≤ e) : slice m p e = slice m p q ++ slice m q e := by
  rw [slice, slice, slice, show e - p = (q - p) + (e - q) by omega, ← List.range'_append, List.map_append]
  rw [Nat.one_mul, Nat.add_sub_cancel' h]

theorem slice_concat (h : p < e) : slice m p e = slice m p (e - 1) ++ [m (e - 1)] := by
  have hlast : slice m (e - 1) e = [m (e - 1)] := by
    rw [slice_cons (by omega), slice_of_le (by omega)]
  rw [slice_append (by omega : p ≤ e - 1) (by omega), hlast]

theorem slice_eq_nil_iff : slice m p e = [] ↔ e ≤ p := by
  rw [← List.length_eq_zero_iff, length_slice]
  omega

theorem take_slice (h : p + n ≤ e) : (slice m p e).take n = slice m p (p + n) := by
  rw [slice_append (Nat.le_add_right p n) h, List.take_left' (by rw [length_slice]; omega)]

theorem drop_slice (h : p + n ≤ e) : (slice m p e).drop n = slice m (p + n) e := by
  rw [slice_append (Nat.le_add_right p n) h, List.drop_left' (by rw [length_slice]; omega)]

theorem slice_congr (h : ∀ i, p ≤ i → i < e → m i = m' i) : slice m p e = slice m' p e := by
  refine List.map_congr_left fun i hi => ?_
  obtain ⟨hp, he⟩ := List.mem_range'_1.mp hi
  exact h i hp (by omega)

end

/-! ## Loops -/

namespace Buf

open Checked

variable {σ : Type} {b : Buf} {p e i n : ℕ} {f : UInt8 → Bool}

/-- `b[i]`. -/
def get (b : Buf) (i : ℕ) : Checked σ UInt8 := do
  require (i < b.len)
  return b.bytes i

theorem get_apply (h : i < b.len) (s : σ) : (b.get i : Checked σ UInt8) s = .ret (b.bytes i, s) := by
  rw [get, bind_of_ret (require_apply h s)]
  rfl

/-- The loop of `scan`: `n` bytes are left. -/
def scanLoop (b : Buf) (f : UInt8 → Bool) : ℕ → ℕ → Checked σ ℕ
  | 0, p => return p
  | n + 1, p => do
    if f (← b.get p) then scanLoop b f n (p + 1) else return p

/-- `while (p < e && f(*p)) p++`. -/
def scan (b : Buf) (f : UInt8 → Bool) (p e : ℕ) : Checked σ ℕ := scanLoop b f (e - p) p

/-- The loop of `scanBack`: `n` bytes are left. -/
def scanBackLoop (b : Buf) (f : UInt8 → Bool) : ℕ → ℕ → Checked σ ℕ
  | 0, e => return e
  | n + 1, e => do
    if f (← b.get (e - 1)) then scanBackLoop b f n (e - 1) else return e

/-- `while (e > p && f(e[-1])) e--`. -/
def scanBack (b : Buf) (f : UInt8 → Bool) (p e : ℕ) : Checked σ ℕ := scanBackLoop b f (e - p) e

/-- Where a scan from `p` to `e` ends. -/
structure Scanned (b : Buf) (f : UInt8 → Bool) (p e r : ℕ) : Prop where
  ge : p ≤ r
  le : r ≤ e
  taken : slice b.bytes p r = (slice b.bytes p e).takeWhile f
  left : slice b.bytes r e = (slice b.bytes p e).dropWhile f

theorem scanLoop_spec (h : p + n ≤ b.len) (s : σ) :
    ∃ r, (scanLoop b f n p : Checked σ ℕ) s = .ret (r, s) ∧ Scanned b f p (p + n) r := by
  induction n generalizing p with
  | zero =>
    refine ⟨p, rfl, ⟨le_rfl, le_rfl, ?_, ?_⟩⟩
    · rw [slice_of_le le_rfl, Nat.add_zero, slice_of_le le_rfl]
      rfl
    · rw [Nat.add_zero, slice_of_le le_rfl]
      rfl
  | succ n ih =>
    have hcons : slice b.bytes p (p + (n + 1)) = b.bytes p :: slice b.bytes (p + 1) (p + 1 + n) := by
      rw [slice_cons (by omega), show p + (n + 1) = p + 1 + n by omega]
    rw [scanLoop, bind_of_ret (get_apply (by omega) s)]
    by_cases hf : f (b.bytes p) = true
    · obtain ⟨r, hr, hs⟩ := ih (show p + 1 + n ≤ b.len by omega)
      have hge := hs.ge
      have hle := hs.le
      refine ⟨r, by rw [if_pos hf, hr], ⟨by omega, by omega, ?_, ?_⟩⟩
      · rw [slice_cons (by omega), hs.taken, hcons, List.takeWhile_cons, if_pos hf]
      · rw [hcons, List.dropWhile_cons, if_pos hf, ← hs.left, show p + 1 + n = p + (n + 1) by omega]
    · refine ⟨p, by rw [if_neg hf]; rfl, ⟨le_rfl, by omega, ?_, ?_⟩⟩
      · rw [slice_of_le le_rfl, hcons, List.takeWhile_cons, if_neg hf]
      · rw [hcons, List.dropWhile_cons, if_neg hf]

/-- **A scan upwards** splits the slice at the first byte that fails the test. -/
theorem scan_spec (h : p ≤ e) (he : e ≤ b.len) (s : σ) :
    ∃ r, (b.scan f p e : Checked σ ℕ) s = .ret (r, s) ∧ Scanned b f p e r := by
  have hspec := scanLoop_spec (f := f) (show p + (e - p) ≤ b.len by omega) s
  rw [Nat.add_sub_cancel' h] at hspec
  exact hspec

/-- **A scan downwards** leaves the slice without the bytes at its end that pass
the test. -/
theorem scanBack_spec (h : p ≤ e) (he : e ≤ b.len) (s : σ) :
    ∃ r, (b.scanBack f p e : Checked σ ℕ) s = .ret (r, s) ∧ p ≤ r ∧ r ≤ e ∧
      slice b.bytes p r = (slice b.bytes p e).rdropWhile f := by
  rw [scanBack]
  generalize hn : e - p = n
  induction n generalizing e with
  | zero =>
    refine ⟨e, rfl, h, le_rfl, ?_⟩
    rw [slice_of_le (by omega)]
    rfl
  | succ n ih =>
    rw [scanBackLoop, bind_of_ret (get_apply (by omega) s), slice_concat (show p < e by omega)]
    by_cases hf : f (b.bytes (e - 1)) = true
    · obtain ⟨r, hr, hge, hle, hslice⟩ := ih (show p ≤ e - 1 by omega) (by omega) (by omega)
      refine ⟨r, by rw [if_pos hf, hr], hge, by omega, ?_⟩
      rw [hslice, List.rdropWhile_concat, if_pos hf]
    · refine ⟨e, by rw [if_neg hf]; rfl, h, le_rfl, ?_⟩
      rw [List.rdropWhile_concat, if_neg hf, ← slice_concat (show p < e by omega)]

end Buf

end Csos

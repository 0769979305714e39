import Csos.Common.Scan
/-!
# C strings in buffers

A buffer holds a string from an offset on (`Holds`) when the string's bytes
are there, none of them 0, and a terminator after them. A loop that advances
a `uint32_t` index over a string (`skip`) stops where the string does, and
a string is written by writing its bytes in order and a terminator.
-/

namespace Csos

namespace Buf

open Checked

variable {σ : Type} {b : Buf} {i n k fuel : ℕ} {x : UInt8} {s a r d : List UInt8} {p : UInt8 → Bool}
  {m src : Bytes}

/-- **From `i` on the buffer holds the string `s`** and its terminator. -/
def Holds (b : Buf) : ℕ → List UInt8 → Prop
  | i, [] => i < b.len ∧ b.bytes i = 0
  | i, x :: s => (i < b.len ∧ b.bytes i = x ∧ x ≠ 0) ∧ Holds b (i + 1) s

namespace Holds

theorem lt (h : b.Holds i s) : i + s.length < b.len := by
  induction s generalizing i with
  | nil => exact h.1
  | cons x s ih =>
    have := ih h.2
    rw [List.length_cons]
    omega

theorem ne_zero (h : b.Holds i s) : ∀ x ∈ s, x ≠ 0 := by
  induction s generalizing i with
  | nil => simp
  | cons y s ih =>
    intro x hx
    rcases List.mem_cons.mp hx with rfl | hx
    · exact h.1.2.2
    · exact ih h.2 x hx

/-- The first byte, or the terminator. -/
theorem get (h : b.Holds i s) (w : σ) : (b.get i : Checked σ UInt8) w = .ret (s.head?.getD 0, w) := by
  cases s with
  | nil =>
    rw [get_apply h.1, h.2]
    rfl
  | cons x s =>
    rw [get_apply h.1.1, h.1.2.1]
    rfl

/-- What is after the first bytes. -/
theorem append (h : b.Holds i (a ++ r)) : b.Holds (i + a.length) r := by
  induction a generalizing i with
  | nil => exact h
  | cons x a ih =>
    have := ih h.2
    rwa [List.length_cons, show i + (a.length + 1) = i + 1 + a.length by omega]

/-- The first bytes. -/
theorem slice (h : b.Holds i (a ++ r)) : slice b.bytes i (i + a.length) = a := by
  induction a generalizing i with
  | nil => exact slice_of_le le_rfl
  | cons x a ih =>
    rw [List.length_cons, slice_cons (by omega), h.1.2.1,
      show i + (a.length + 1) = i + 1 + a.length by omega, ih h.2]

end Holds

/-! ## Scanning -/

/-- `while (p(b[i])) i++`. -/
def skip (b : Buf) (p : UInt8 → Bool) : ℕ → ℕ → Checked σ ℕ
  | 0, _ => hang
  | fuel + 1, i => do
    let x ← b.get i
    if p x then skip b p fuel ((i + 1) % 2 ^ 32) else return i

/-- **The loop stops at the first byte that does not pass**, the terminator
being one. -/
theorem Holds.skip (h : b.Holds i (a ++ r)) (ha : ∀ x ∈ a, p x = true) (hr : p (r.head?.getD 0) = false)
    (hlt : i + a.length < 2 ^ 32) (hf : a.length < fuel) (w : σ) :
    (b.skip p fuel i : Checked σ ℕ) w = .ret (i + a.length, w) := by
  induction a generalizing i fuel with
  | nil =>
    cases fuel with
    | zero => exact absurd hf (Nat.not_lt_zero _)
    | succ fuel =>
      rw [Buf.skip, bind_of_ret (h.get w), List.nil_append, hr]
      rfl
  | cons x a ih =>
    rw [List.length_cons] at hlt hf
    cases fuel with
    | zero => exact absurd hf (Nat.not_lt_zero _)
    | succ fuel =>
      rw [Buf.skip, bind_of_ret (h.get w), List.cons_append, List.head?_cons, Option.getD_some,
        if_pos (ha x (by simp)), Nat.mod_eq_of_lt (by omega),
        ih h.2 (fun y hy => ha y (by simp [hy])) (by omega) (by omega), List.length_cons,
        show i + 1 + a.length = i + (a.length + 1) by omega]

/-! ## Writing a string -/

/-- A prefix of what has been written. -/
theorem slice_of_prefix (h : slice m 0 s.length = s) (hd : d <+: s) : slice m 0 d.length = d := by
  obtain ⟨r, rfl⟩ := hd
  have htake := take_slice (m := m) (p := 0) (n := d.length) (e := (d ++ r).length)
    (by rw [Nat.zero_add, List.length_append]; omega)
  rw [Nat.zero_add] at htake
  rw [← htake, h, List.take_left']
  rfl

/-- A block copied to the end of what has been written. -/
theorem slice_blit : slice (m.blit n k src) 0 (n + k) = slice m 0 n ++ slice src 0 k := by
  rw [slice_append (Nat.zero_le n) (Nat.le_add_right n k)]
  refine congrArg₂ _ (slice_congr fun i _ hi => Bytes.blit_apply_of_notMem (.inl hi)) ?_
  rw [slice, slice, Nat.add_sub_cancel_left, Nat.sub_zero, ← List.range_eq_range', List.range'_eq_map_range,
    List.map_map]
  exact List.map_congr_left fun i hi => Bytes.blit_apply_of_mem (List.mem_range.mp hi)

theorem slice_shift : slice (m.shift i) 0 k = slice m i (i + k) := by
  rw [slice, slice, Nat.add_sub_cancel_left, Nat.sub_zero, ← List.range_eq_range', List.range'_eq_map_range,
    List.map_map]
  rfl

/-- **The string whose bytes are there once it is terminated.** -/
theorem holds_of_slice (hs : slice b.bytes i (i + s.length) = s) (h0 : ∀ x ∈ s, x ≠ 0)
    (hn : b.bytes (i + s.length) = 0) (hlt : i + s.length < b.len) : b.Holds i s := by
  induction s generalizing i with
  | nil => exact ⟨hlt, hn⟩
  | cons x s ih =>
    rw [List.length_cons] at hs hn hlt
    rw [slice_cons (by omega), List.cons.injEq] at hs
    have heq : i + (s.length + 1) = i + 1 + s.length := by omega
    rw [heq] at hs hn hlt
    exact ⟨⟨by omega, hs.1, h0 x (by simp)⟩, ih hs.2 (fun y hy => h0 y (by simp [hy])) hn hlt⟩

end Buf

end Csos

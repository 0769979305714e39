import Mathlib.Tactic
/-!
# Byte storage

Byte-addressed storage as a function from addresses to bytes, with the
little-endian accesses and the block copies a C program makes on it.
Memory, disk sectors and on-stack buffers are all read this way; what is
proved here is the usual pair for each access: what it leaves at its own
address, and that it leaves everything else alone.
-/

namespace Csos

/-- Byte-addressed storage. -/
abbrev Bytes := ℕ → UInt8

namespace Bytes

/-- The little-endian value of the `n` bytes at `a`. -/
def load : ℕ → Bytes → ℕ → ℕ
  | 0, _, _ => 0
  | n + 1, m, a => (m a).toNat + 256 * load n m (a + 1)

/-- Store the low `n` bytes of `v` at `a`, least significant first. -/
def store (n : ℕ) (m : Bytes) (a v : ℕ) : Bytes :=
  fun x => if a ≤ x ∧ x < a + n then UInt8.ofNat (v / 256 ^ (x - a)) else m x

/-- `memcpy(m + a, src, n)`. -/
def blit (m : Bytes) (a n : ℕ) (src : Bytes) : Bytes :=
  fun x => if a ≤ x ∧ x < a + n then src (x - a) else m x

/-- The storage read from offset `a` on: the pointer `m + a`. -/
def shift (m : Bytes) (a : ℕ) : Bytes := fun x => m (a + x)

/-- `memset` of a fresh buffer. -/
def const (b : UInt8) : Bytes := fun _ => b

variable {m m' src : Bytes} {n k a a' v : ℕ}

theorem load_lt (n : ℕ) (m : Bytes) (a : ℕ) : load n m a < 256 ^ n := by
  induction n generalizing a with
  | zero => simp [load]
  | succ n ih =>
    have hb : (m a).toNat < 256 := (m a).toNat_lt
    have hn := ih (a + 1)
    rw [load, pow_succ]
    omega

theorem load_congr (h : ∀ i, i < n → m (a + i) = m' (a' + i)) :
    load n m a = load n m' a' := by
  induction n generalizing a a' with
  | zero => rfl
  | succ n ih =>
    have h0 : m a = m' a' := h 0 (by omega)
    have hs : load n m (a + 1) = load n m' (a' + 1) := by
      refine ih fun i hi => ?_
      have := h (i + 1) (by omega)
      rwa [show a + 1 + i = a + (i + 1) by omega, show a' + 1 + i = a' + (i + 1) by omega]
    rw [load, load, h0, hs]

theorem store_apply_of_notMem (h : a' < a ∨ a + n ≤ a') : store n m a v a' = m a' :=
  if_neg (by omega)

theorem blit_apply_of_mem (h : k < n) : blit m a n src (a + k) = src k := by
  rw [blit, if_pos (by omega), Nat.add_sub_cancel_left]

theorem blit_zero_apply (h : k < n) : blit m 0 n src k = src k := by
  rw [blit, if_pos ⟨Nat.zero_le k, by omega⟩, Nat.sub_zero]

theorem blit_apply_of_notMem (h : a' < a ∨ a + n ≤ a') : blit m a n src a' = m a' :=
  if_neg (by omega)

/-- **A store is read back**, truncated to its width. -/
theorem load_store_self (n : ℕ) (m : Bytes) (a v : ℕ) :
    load n (store n m a v) a = v % 256 ^ n := by
  induction n generalizing m a v with
  | zero => simp [load, Nat.mod_one]
  | succ n ih =>
    -- the tail of the store is a store of the tail
    have htail : load n (store (n + 1) m a v) (a + 1) = load n (store n m (a + 1) (v / 256)) (a + 1) := by
      refine load_congr fun i hi => ?_
      rw [store, store, if_pos (by omega), if_pos (by omega),
        show a + 1 + i - a = i + 1 by omega, show a + 1 + i - (a + 1) = i by omega,
        pow_succ', Nat.div_div_eq_div_mul]
    have hhead : (store (n + 1) m a v a).toNat = v % 256 := by
      rw [store, if_pos (by omega), Nat.sub_self, pow_zero, Nat.div_one]
      simp
    rw [load, htail, ih, hhead, pow_succ', Nat.mod_mul]

theorem load_store_self_of_lt (h : v < 256 ^ n) : load n (store n m a v) a = v := by
  rw [load_store_self, Nat.mod_eq_of_lt h]

/-- Only the last of two stores to an address is seen. -/
theorem store_store (n : ℕ) (m : Bytes) (a v w : ℕ) : store n (store n m a v) a w = store n m a w := by
  funext x
  rw [store, store, store]
  split <;> rfl

/-- What is there may be stored again. -/
theorem store_load (n : ℕ) (m : Bytes) (a : ℕ) : store n m a (load n m a) = m := by
  induction n generalizing a with
  | zero =>
    funext x
    exact store_apply_of_notMem (by omega)
  | succ n ih =>
    funext x
    have hb : (m a).toNat < 256 := (m a).toNat_lt
    rcases Nat.lt_trichotomy x a with hlt | rfl | hgt
    · exact store_apply_of_notMem (.inl hlt)
    · rw [store, if_pos (by omega), Nat.sub_self, pow_zero, Nat.div_one, load]
      refine UInt8.toNat_inj.mp ?_
      rw [UInt8.toNat_ofNat']
      omega
    · -- the tail is a store of the tail
      have htail : store (n + 1) m a (load (n + 1) m a) x = store n m (a + 1) (load n m (a + 1)) x := by
        rw [store, store]
        refine if_congr (by omega) ?_ rfl
        rw [show x - a = x - (a + 1) + 1 by omega, pow_succ', ← Nat.div_div_eq_div_mul, load,
          show ((m a).toNat + 256 * load n m (a + 1)) / 256 = load n m (a + 1) by omega]
      rw [htail, ih]

/-- A load sees nothing of a store it does not overlap. -/
theorem load_store_of_disjoint (h : a' + k ≤ a ∨ a + n ≤ a') :
    load k (store n m a v) a' = load k m a' :=
  load_congr fun _ _ => store_apply_of_notMem (by omega)

end Bytes

end Csos

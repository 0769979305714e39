import Csos.Common.Bytes
/-!
# Checked computations

A computation over a world that may fault, when it accesses a buffer outside
its bounds or divides by zero, and that may use up its fuel. `Safe x Q` says
that `x` does not fault in any world, and that `Q` holds of what it returns.
The rules follow the shape of the program: one for each way it is put
together, and one for each access, whose side condition is the bound.
-/

namespace Csos

/-- How a computation ends. -/
inductive Outcome (α : Type)
  | fault
  | hang
  | ret (a : α)

/-- A computation over the world `σ`. -/
def Checked (σ α : Type) := σ → Outcome (α × σ)

namespace Checked

variable {σ α β : Type}

/-- An access that is not allowed. -/
def fault : Checked σ α := fun _ => .fault

/-- The fuel is used up. -/
def hang : Checked σ α := fun _ => .hang

instance : Monad (Checked σ) where
  pure a := fun s => .ret (a, s)
  bind x f := fun s => match x s with
    | .fault => .fault
    | .hang => .hang
    | .ret (a, s) => f a s

@[simp] theorem pure_apply (a : α) (s : σ) : (pure a : Checked σ α) s = .ret (a, s) := rfl

theorem bind_apply (x : Checked σ α) (f : α → Checked σ β) (s : σ) :
    (x >>= f) s = match x s with
      | .fault => .fault
      | .hang => .hang
      | .ret (a, s) => f a s := rfl

theorem bind_of_ret {x : Checked σ α} {f : α → Checked σ β} {s s' : σ} {a : α}
    (h : x s = .ret (a, s')) : (x >>= f) s = f a s' := by
  rw [bind_apply, h]

/-- `p` must hold here. -/
def require (p : Prop) [Decidable p] : Checked σ Unit := if p then pure () else fault

theorem require_apply {p : Prop} [Decidable p] (h : p) (s : σ) :
    (require p : Checked σ Unit) s = .ret ((), s) := by
  rw [require, if_pos h]
  rfl

/-! ## Safety -/

/-- **The computation does not fault**, and `Q` holds of what it returns. -/
def Safe (x : Checked σ α) (Q : α → Prop) : Prop :=
  ∀ s, match x s with
    | .fault => False
    | .hang => True
    | .ret (a, _) => Q a

variable {x : Checked σ α} {f : α → Checked σ β} {P Q : α → Prop} {R : β → Prop}

theorem safe_pure {a : α} (h : Q a) : Safe (pure a : Checked σ α) Q := fun _ => h

theorem safe_hang : Safe (hang : Checked σ α) Q := fun _ => trivial

/-- **One computation after another.** -/
theorem Safe.bind (hx : Safe x P) (hf : ∀ a, P a → Safe (f a) R) : Safe (x >>= f) R := by
  intro s
  have h := hx s
  rw [bind_apply]
  cases hxs : x s with
  | fault =>
    rw [hxs] at h
    exact h
  | hang => exact trivial
  | ret r =>
    rw [hxs] at h
    exact hf r.1 h r.2

theorem Safe.mono (hx : Safe x P) (h : ∀ a, P a → Q a) : Safe x Q := by
  intro s
  have hs := hx s
  cases hxs : x s with
  | fault =>
    rw [hxs] at hs
    exact hs
  | hang => exact trivial
  | ret r =>
    rw [hxs] at hs
    exact h r.1 hs

theorem safe_ite {c : Prop} [Decidable c] {y : Checked σ α} (hx : c → Safe x Q) (hy : ¬ c → Safe y Q) :
    Safe (if c then x else y) Q := by
  split
  · exact hx ‹_›
  · exact hy ‹_›

theorem safe_require {p : Prop} [Decidable p] (h : p) : Safe (require p : Checked σ Unit) fun _ => p := by
  rw [require, if_pos h]
  exact safe_pure h

/-- What a computation that does not fault returns. -/
theorem Safe.of_ret (hx : Safe x Q) {s s' : σ} {a : α} (h : x s = .ret (a, s')) : Q a := by
  have hs := hx s
  rw [h] at hs
  exact hs

theorem Safe.ne_fault (hx : Safe x Q) (s : σ) : x s ≠ .fault := by
  intro h
  have hs := hx s
  rw [h] at hs
  exact hs

/-! ## Fuel -/

/-- **The computation does not use up its fuel.** -/
def Halts (x : Checked σ α) : Prop := ∀ s, x s ≠ .hang

theorem halts_pure {a : α} : Halts (pure a : Checked σ α) := fun _ h => by cases h

theorem Halts.bind (hx : Halts x) (hf : ∀ a, Halts (f a)) : Halts (x >>= f) := by
  intro s h
  rw [bind_apply] at h
  cases hxs : x s with
  | fault =>
    rw [hxs] at h
    cases h
  | hang => exact hx s hxs
  | ret r =>
    rw [hxs] at h
    exact hf r.1 r.2 h

theorem halts_ite {c : Prop} [Decidable c] {y : Checked σ α} (hx : Halts x) (hy : Halts y) :
    Halts (if c then x else y) := by
  split
  · exact hx
  · exact hy

theorem halts_require {p : Prop} [Decidable p] : Halts (require p : Checked σ Unit) := by
  rw [require]
  exact halts_ite halts_pure fun _ h => by cases h

/-! ## The world of a run -/

/-- Whenever the computation returns, `T` holds between the worlds before and
after it. -/
def Along (T : σ → σ → Prop) (x : Checked σ α) : Prop := ∀ s a s', x s = .ret (a, s') → T s s'

section

variable {T : σ → σ → Prop}

theorem along_pure (hT : ∀ s, T s s) {a : α} : Along T (pure a : Checked σ α) := by
  rintro s b s' h
  cases h
  exact hT s

theorem Along.bind (hT : ∀ {s t u}, T s t → T t u → T s u) (hx : Along T x)
    (hf : ∀ a, Along T (f a)) : Along T (x >>= f) := by
  intro s b s' h
  rw [bind_apply] at h
  cases hxs : x s with
  | fault =>
    rw [hxs] at h
    cases h
  | hang =>
    rw [hxs] at h
    cases h
  | ret r =>
    rw [hxs] at h
    exact hT (hx s r.1 r.2 hxs) (hf r.1 r.2 b s' h)

theorem along_ite {c : Prop} [Decidable c] {y : Checked σ α} (hx : Along T x) (hy : Along T y) :
    Along T (if c then x else y) := by
  split
  · exact hx
  · exact hy

theorem along_require (hT : ∀ s, T s s) {p : Prop} [Decidable p] :
    Along T (require p : Checked σ Unit) := by
  rw [require]
  refine along_ite (along_pure hT) ?_
  rintro s b s' h
  cases h

end

end Checked

/-! ## Buffers -/

/-- A buffer of `len` bytes. -/
structure Buf where
  bytes : Bytes
  len : ℕ

namespace Buf

open Checked

variable {σ : Type} {b src : Buf} {off n : ℕ}

/-- The `n`-byte little-endian value at `off`. -/
def load (n : ℕ) (b : Buf) (off : ℕ) : Checked σ ℕ := do
  require (off + n ≤ b.len)
  return b.bytes.load n off

/-- `memcpy(b + off, src + from, n)`, as the bytes from `from` on. -/
def copy (b : Buf) (off n : ℕ) (src : Buf) (start : ℕ) : Checked σ Buf := do
  require (off + n ≤ b.len)
  require (start + n ≤ src.len)
  return { b with bytes := b.bytes.blit off n (src.bytes.shift start) }

/-- `memset(b + off, v, n)`. -/
def fill (b : Buf) (off n : ℕ) (v : UInt8) : Checked σ Buf := do
  require (off + n ≤ b.len)
  return { b with bytes := b.bytes.blit off n (Bytes.const v) }

theorem load_apply (h : off + n ≤ b.len) (s : σ) :
    (b.load n off : Checked σ ℕ) s = .ret (b.bytes.load n off, s) := by
  rw [load, bind_of_ret (require_apply h s)]
  rfl

theorem along_load {T : σ → σ → Prop} (hT : ∀ s, T s s) : Along T (b.load n off : Checked σ ℕ) := by
  intro s a s' h
  by_cases hle : off + n ≤ b.len
  · rw [load_apply hle] at h
    cases h
    exact hT s
  · rw [load, require, if_neg hle] at h
    cases h

theorem copy_apply {start : ℕ} (h : off + n ≤ b.len) (hs : start + n ≤ src.len) (s : σ) :
    (b.copy off n src start : Checked σ Buf) s =
      .ret ({ b with bytes := b.bytes.blit off n (src.bytes.shift start) }, s) := by
  rw [copy, bind_of_ret (require_apply h s), bind_of_ret (require_apply hs s)]
  rfl

theorem fill_apply {v : UInt8} (h : off + n ≤ b.len) (s : σ) :
    (b.fill off n v : Checked σ Buf) s =
      .ret ({ b with bytes := b.bytes.blit off n (Bytes.const v) }, s) := by
  rw [fill, bind_of_ret (require_apply h s)]
  rfl

theorem safe_load (h : off + n ≤ b.len) : Safe (b.load n off : Checked σ ℕ) (· < 256 ^ n) :=
  (safe_require h).bind fun _ _ => safe_pure (Bytes.load_lt n b.bytes off)

theorem safe_copy {start : ℕ} (h : off + n ≤ b.len) (hs : start + n ≤ src.len) :
    Safe (b.copy off n src start : Checked σ Buf) fun b' => b'.len = b.len :=
  (safe_require h).bind fun _ _ => (safe_require hs).bind fun _ _ => safe_pure rfl

theorem safe_fill {v : UInt8} (h : off + n ≤ b.len) :
    Safe (b.fill off n v : Checked σ Buf) fun b' => b'.len = b.len :=
  (safe_require h).bind fun _ _ => safe_pure rfl

theorem halts_load : Halts (b.load n off : Checked σ ℕ) := halts_require.bind fun _ => halts_pure

theorem halts_copy {start : ℕ} : Halts (b.copy off n src start : Checked σ Buf) :=
  halts_require.bind fun _ => halts_require.bind fun _ => halts_pure

theorem halts_fill {v : UInt8} : Halts (b.fill off n v : Checked σ Buf) :=
  halts_require.bind fun _ => halts_pure

end Buf

/-! ## Division -/

namespace Checked

variable {σ : Type} {a b : ℕ}

/-- `a / b`. -/
def div (a b : ℕ) : Checked σ ℕ := do
  require (b ≠ 0)
  return a / b

/-- `a % b`. -/
def mod (a b : ℕ) : Checked σ ℕ := do
  require (b ≠ 0)
  return a % b

theorem div_apply (h : b ≠ 0) (s : σ) : (div a b : Checked σ ℕ) s = .ret (a / b, s) := by
  rw [div, bind_of_ret (require_apply h s)]
  rfl

theorem mod_apply (h : b ≠ 0) (s : σ) : (mod a b : Checked σ ℕ) s = .ret (a % b, s) := by
  rw [mod, bind_of_ret (require_apply h s)]
  rfl

theorem safe_div (h : b ≠ 0) : Safe (div a b : Checked σ ℕ) (· = a / b) :=
  (safe_require h).bind fun _ _ => safe_pure rfl

theorem safe_mod (h : b ≠ 0) : Safe (mod a b : Checked σ ℕ) (· = a % b) :=
  (safe_require h).bind fun _ _ => safe_pure rfl

theorem halts_div : Halts (div a b : Checked σ ℕ) := halts_require.bind fun _ => halts_pure

theorem halts_mod : Halts (mod a b : Checked σ ℕ) := halts_require.bind fun _ => halts_pure

end Checked

end Csos

import Mathlib.Data.List.Basic
/-!
# Records that follow one another

A code says by itself where it ends: of two codes at the start of the same
text neither goes on past the other. A text is then in one way at most a list
of codes with a rest that is too short for another (`Frames.unique`), and the
first code can be taken off (`frames_cons_iff`).
-/

namespace Csos

variable {α β : Type*} {encode : α → List β} {k : ℕ} {a b : α} {l l' : List α} {s t bytes : List β}

/-- Codes of at least `k` letters that say where they end. -/
structure Delimited (encode : α → List β) (k : ℕ) : Prop where
  le : ∀ a, k ≤ (encode a).length
  inj : ∀ {a b s t}, encode a ++ s = encode b ++ t → a = b

/-- The text is the codes of the list, and a rest of less than `k` letters. -/
def Frames (encode : α → List β) (k : ℕ) (bytes : List β) (l : List α) : Prop :=
  ∃ rest, rest.length < k ∧ bytes = l.flatMap encode ++ rest

theorem frames_nil (h : bytes.length < k) : Frames encode k bytes [] := ⟨bytes, h, rfl⟩

theorem Frames.cons (h : Frames encode k s l) (a : α) : Frames encode k (encode a ++ s) (a :: l) := by
  obtain ⟨rest, hlt, rfl⟩ := h
  exact ⟨rest, hlt, by rw [List.flatMap_cons, List.append_assoc]⟩

/-- The text starts with the first code. -/
theorem Frames.exists_eq (h : Frames encode k bytes (a :: l)) :
    ∃ s, bytes = encode a ++ s ∧ Frames encode k s l := by
  obtain ⟨rest, hlt, rfl⟩ := h
  exact ⟨l.flatMap encode ++ rest, by rw [List.flatMap_cons, List.append_assoc], rest, hlt, rfl⟩

/-- A text of `k` letters has a first code. -/
theorem Frames.ne_nil (h : Frames encode k bytes l) (hk : k ≤ bytes.length) : l ≠ [] := by
  rintro rfl
  obtain ⟨rest, hlt, rfl⟩ := h
  exact absurd hk (Nat.not_le.mpr hlt)

namespace Delimited

variable (hd : Delimited encode k)
include hd

/-- A text that is too short has no code. -/
theorem eq_nil (h : Frames encode k bytes l) (hk : bytes.length < k) : l = [] := by
  cases l with
  | nil => rfl
  | cons a l =>
    obtain ⟨s, rfl, -⟩ := h.exists_eq
    have hle := hd.le a
    rw [List.length_append] at hk
    omega

/-- **The first code can be taken off.** -/
theorem frames_cons_iff : Frames encode k (encode a ++ s) l ↔ ∃ l', l = a :: l' ∧ Frames encode k s l' := by
  constructor
  · intro h
    have hle := hd.le a
    cases l with
    | nil => exact absurd rfl (h.ne_nil (by rw [List.length_append]; omega))
    | cons b l =>
      obtain ⟨t, heq, ht⟩ := h.exists_eq
      obtain rfl := hd.inj heq
      rw [List.append_cancel_left heq]
      exact ⟨l, rfl, ht⟩
  · rintro ⟨l', rfl, h⟩
    exact h.cons a

/-- **A text is a list of codes in one way at most.** -/
theorem unique (h : Frames encode k bytes l) (h' : Frames encode k bytes l') : l = l' := by
  induction l generalizing bytes l' with
  | nil =>
    obtain ⟨rest, hlt, rfl⟩ := h
    exact (hd.eq_nil h' hlt).symm
  | cons a l ih =>
    obtain ⟨s, rfl, hs⟩ := h.exists_eq
    obtain ⟨l₂, rfl, hs'⟩ := hd.frames_cons_iff.mp h'
    rw [ih hs hs']

end Delimited

end Csos

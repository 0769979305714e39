import Mathlib.Tactic
/-!
# Linked lists through a next-pointer

`Seg next p l q` says that following `next` from `p` visits exactly the
nodes of `l`, in order, and arrives at `q`; `Linked next p l` is the case
that ends in the null pointer. The pointer is an `Option`, `none` being
null. Free lists, run queues and cluster chains are all read through
these two, with `next` a field of the node.
-/

namespace Csos

variable {α : Type*} {next next' : α → Option α} {p q r : Option α} {x y : α} {l l₁ l₂ : List α}

/-- Following `next` from `p` visits `l` and arrives at `q`. -/
def Seg (next : α → Option α) : Option α → List α → Option α → Prop
  | p, [], q => p = q
  | p, x :: l, q => p = some x ∧ Seg next (next x) l q

/-- The list that starts at `p` and ends in null. -/
def Linked (next : α → Option α) (p : Option α) (l : List α) : Prop := Seg next p l none

@[simp] theorem seg_nil : Seg next p [] q ↔ p = q := Iff.rfl

@[simp] theorem seg_cons : Seg next p (x :: l) q ↔ p = some x ∧ Seg next (next x) l q := Iff.rfl

@[simp] theorem linked_nil : Linked next p [] ↔ p = none := Iff.rfl

@[simp] theorem linked_cons :
    Linked next p (x :: l) ↔ p = some x ∧ Linked next (next x) l := Iff.rfl

/-- A segment of a concatenation: both halves and the pointer between. -/
theorem seg_append :
    Seg next p (l₁ ++ l₂) r ↔ ∃ q, Seg next p l₁ q ∧ Seg next q l₂ r := by
  induction l₁ generalizing p with
  | nil => simp
  | cons x l₁ ih => simp [ih, and_assoc]

theorem linked_append :
    Linked next p (l₁ ++ l₂) ↔ ∃ q, Seg next p l₁ q ∧ Linked next q l₂ := seg_append

/-- A segment reads `next` at its own nodes only. -/
theorem Seg.congr (h : Seg next p l q) (hn : ∀ x ∈ l, next' x = next x) : Seg next' p l q := by
  induction l generalizing p with
  | nil => exact h
  | cons x l ih =>
    refine ⟨h.1, ?_⟩
    rw [hn x (by simp)]
    exact ih h.2 fun y hy => hn y (by simp [hy])

theorem Linked.congr (h : Linked next p l) (hn : ∀ x ∈ l, next' x = next x) :
    Linked next' p l := Seg.congr h hn

/-- What a node of a segment points at is the head of what follows it. -/
theorem Seg.next_eq_head (h : Seg next p (l₁ ++ x :: l₂) none) : next x = l₂.head? := by
  obtain ⟨q, -, rfl, h2⟩ := seg_append.mp h
  cases l₂ with
  | nil => exact h2
  | cons y l₂ => exact h2.1

/-- What a node of a list points at is the next node. -/
theorem Linked.next_eq (h : Linked next p l) {i : ℕ} (hx : l[i]? = some x) : next x = l[i + 1]? := by
  obtain ⟨hi, hget⟩ := List.getElem?_eq_some_iff.mp hx
  have hsplit : l = l.take i ++ x :: l.drop (i + 1) := by
    rw [← hget, List.cons_getElem_drop_succ, List.take_append_drop]
  have h' := h
  rw [hsplit] at h'
  rw [Seg.next_eq_head h', List.head?_drop]

theorem Linked.head?_eq (h : Linked next p l) : p = l.head? := by
  cases l with
  | nil => exact h
  | cons x l => exact h.1

/-- The nodes are determined by where the list starts. -/
theorem Linked.unique (h₁ : Linked next p l₁) (h₂ : Linked next p l₂) : l₁ = l₂ := by
  induction l₁ generalizing p l₂ with
  | nil =>
    cases l₂ with
    | nil => rfl
    | cons y l₂ => exact absurd (h₁.symm.trans h₂.1) (by simp)
  | cons x l₁ ih =>
    cases l₂ with
    | nil => exact absurd (h₂.symm.trans h₁.1) (by simp)
    | cons y l₂ =>
      obtain rfl : x = y := Option.some.inj (h₁.1.symm.trans h₂.1)
      rw [ih h₁.2 h₂.2]

/-- **A list that reaches null visits no node twice.** From the second
visit on it would repeat what followed the first, for ever. -/
theorem Linked.nodup (h : Linked next p l) : l.Nodup := by
  induction l generalizing p with
  | nil => exact List.nodup_nil
  | cons x l ih =>
    refine List.nodup_cons.mpr ⟨fun hx => ?_, ih h.2⟩
    obtain ⟨l₁, l₂, rfl⟩ := List.append_of_mem hx
    obtain ⟨q, -, rfl, h2⟩ := seg_append.mp h.2
    -- both `l₁ ++ x :: l₂` and `l₂` start at `next x`
    have := congrArg List.length (Linked.unique h2 h.2)
    simp only [List.length_append, List.length_cons] at this
    omega

/-- No node of a list that reaches null points at itself. -/
theorem Linked.next_ne_self (h : Linked next p l) (hx : x ∈ l) : next x ≠ some x := by
  obtain ⟨l₁, l₂, rfl⟩ := List.append_of_mem hx
  have hnd := h.nodup
  rw [Seg.next_eq_head h]
  intro hh
  have hmem : x ∈ l₂ := List.mem_of_head? hh
  rw [List.nodup_append, List.nodup_cons] at hnd
  exact hnd.2.1.1 hmem

/-! ## Editing a list -/

section Edit

variable [DecidableEq α]

/-- Redirecting a node outside the segment changes nothing. -/
theorem Seg.update (h : Seg next p l q) (hx : x ∉ l) (v : Option α) :
    Seg (Function.update next x v) p l q :=
  h.congr fun _ hy => Function.update_of_ne (ne_of_mem_of_not_mem hy hx) _ _

theorem Linked.update (h : Linked next p l) (hx : x ∉ l) (v : Option α) :
    Linked (Function.update next x v) p l := Seg.update h hx v

/-- **Redirecting the last node of a segment** moves where it arrives. -/
theorem Seg.redirect_last (h : Seg next p (l ++ [x]) q) (hx : x ∉ l) (v : Option α) :
    Seg (Function.update next x v) p (l ++ [x]) v := by
  obtain ⟨r, h1, rfl, -⟩ := seg_append.mp h
  exact seg_append.mpr ⟨some x, h1.update hx v, rfl, by simp⟩

end Edit

/-- **A node is put behind another.** -/
theorem Linked.insert_after {n : α} (h : Linked next p (l₁ ++ x :: l₂)) (hx : next' x = some n)
    (hn : next' n = next x) (heq : ∀ y ∈ l₁ ++ l₂, next' y = next y) :
    Linked next' p (l₁ ++ x :: n :: l₂) := by
  obtain ⟨q, h1, rfl, h2⟩ := linked_append.mp h
  refine linked_append.mpr ⟨some x, h1.congr fun y hy => heq y (by simp [hy]), rfl, ?_⟩
  rw [hx]
  refine ⟨rfl, ?_⟩
  rw [hn]
  exact Linked.congr h2 fun y hy => heq y (by simp [hy])

/-- **A node is taken out from behind another.** -/
theorem Linked.remove_after (h : Linked next p (l₁ ++ x :: y :: l₂)) (hx : next' x = next y)
    (heq : ∀ z ∈ l₁ ++ l₂, next' z = next z) : Linked next' p (l₁ ++ x :: l₂) := by
  obtain ⟨q, h1, rfl, h2⟩ := linked_append.mp h
  refine linked_append.mpr ⟨some x, h1.congr fun z hz => heq z (by simp [hz]), rfl, ?_⟩
  rw [hx]
  exact Linked.congr h2.2 fun z hz => heq z (by simp [hz])

end Csos

import Csos.Common.Links
/-!
# Walking linked lists

What loops over a linked list compute: `chain` is the nodes that a walk
visits, and `linkTo` is the walk with a pointer to the link, as it is used to
take a node out. A walk has fuel, and fuel for every address is enough, since
no list without a cycle is longer.
-/

namespace Csos

variable {α : Type*} {next : α → Option α} {head p : Option α} {x : α} {l : List α} {fuel : ℕ}

/-- The nodes that a walk visits. -/
def chain (next : α → Option α) : ℕ → Option α → List α
  | 0, _ => []
  | _ + 1, none => []
  | fuel + 1, some x => x :: chain next fuel (next x)

theorem chain_eq_of_length (h : Linked next p l) (hf : l.length ≤ fuel) : chain next fuel p = l := by
  induction l generalizing p fuel with
  | nil =>
    obtain rfl : p = none := h
    cases fuel <;> rfl
  | cons x l ih =>
    obtain ⟨rfl, h2⟩ := h
    cases fuel with
    | zero => exact absurd hf (by simp)
    | succ fuel => rw [chain, ih h2 (by simpa using hf)]

theorem Linked.length_le [Fintype α] (h : Linked next p l) (hf : Fintype.card α ≤ fuel) :
    l.length ≤ fuel := le_trans h.nodup.length_le_card hf

/-- **A walk visits the list.** -/
theorem Linked.chain_eq [Fintype α] (h : Linked next p l) (hf : Fintype.card α ≤ fuel) :
    chain next fuel p = l := chain_eq_of_length h (h.length_le hf)

/-! ## Putting a node in and taking it out -/

variable [DecidableEq α]

/-- **A node is put at the head.** -/
theorem Linked.push (h : Linked next head l) (hx : x ∉ l) :
    Linked (Function.update next x head) (some x) (x :: l) := by
  refine ⟨rfl, ?_⟩
  rw [Function.update_self]
  exact Linked.update h hx _

/-- `while (*pp && *pp != x) pp = &(*pp)->next`: the node whose link `pp` is, if
it is not the head, and `*pp`. -/
def linkTo (next : α → Option α) (x : α) : ℕ → Option α → Option α → Option α × Option α
  | 0, prev, cur => (prev, cur)
  | _ + 1, prev, none => (prev, none)
  | fuel + 1, prev, some y => if y = x then (prev, some y) else linkTo next x fuel (some y) (next y)

/-- `*pp = x->next` if the walk has found `x`: the head and the links after. -/
def unlink (next : α → Option α) (head : Option α) (x : α) (fuel : ℕ) :
    Option α × (α → Option α) :=
  match linkTo next x fuel none head with
  | (_, none) => (head, next)
  | (none, some _) => (next x, next)
  | (some y, some _) => (head, Function.update next y (next x))

theorem linkTo_of_not_mem {prev : Option α} (h : Linked next p l) (hf : l.length ≤ fuel) (hx : x ∉ l) :
    (linkTo next x fuel prev p).2 = none := by
  induction l generalizing p fuel prev with
  | nil =>
    obtain rfl : p = none := h
    cases fuel <;> rfl
  | cons y l ih =>
    obtain ⟨rfl, h2⟩ := h
    cases fuel with
    | zero => exact absurd hf (by simp)
    | succ fuel =>
      have hy : y ≠ x := fun he => hx (he ▸ List.mem_cons_self)
      rw [linkTo, if_neg hy]
      exact ih h2 (by simpa using hf) fun hm => hx (List.mem_cons_of_mem _ hm)

theorem linkTo_of_mem {prev : Option α} {l₁ l₂ : List α} (h : Linked next p (l₁ ++ x :: l₂))
    (hf : (l₁ ++ x :: l₂).length ≤ fuel) (hx : x ∉ l₁) :
    linkTo next x fuel prev p = (l₁.getLast?.or prev, some x) := by
  induction l₁ generalizing p fuel prev with
  | nil =>
    obtain ⟨rfl, h2⟩ := h
    cases fuel with
    | zero => exact absurd hf (by simp)
    | succ fuel =>
      rw [linkTo, if_pos rfl]
      rfl
  | cons y l₁ ih =>
    obtain ⟨rfl, h2⟩ := h
    cases fuel with
    | zero => exact absurd hf (by simp)
    | succ fuel =>
      have hy : y ≠ x := fun he => hx (he ▸ List.mem_cons_self)
      rw [linkTo, if_neg hy, ih h2 (by simpa using hf) fun hm => hx (List.mem_cons_of_mem _ hm)]
      cases l₁ with
      | nil => rfl
      | cons z l₁ =>
        rw [List.getLast?_cons_cons, List.getLast?_eq_some_getLast (List.cons_ne_nil z l₁)]
        rfl

/-- **The walk finds what is in the list.** -/
theorem linkTo_snd_eq_none_iff [Fintype α] {prev : Option α} (h : Linked next p l)
    (hf : Fintype.card α ≤ fuel) : (linkTo next x fuel prev p).2 = none ↔ x ∉ l := by
  constructor
  · intro hnone hx
    obtain ⟨l₁, l₂, rfl, hx₁⟩ := List.eq_append_cons_of_mem hx
    rw [linkTo_of_mem h (h.length_le hf) hx₁] at hnone
    exact absurd hnone (by simp)
  · exact linkTo_of_not_mem h (h.length_le hf)

/-- **Taking a node out** leaves the list without it. -/
theorem Linked.unlink [Fintype α] (h : Linked next head l) (hf : Fintype.card α ≤ fuel) :
    Linked (unlink next head x fuel).2 (unlink next head x fuel).1 (l.erase x) := by
  unfold Csos.unlink
  by_cases hx : x ∈ l
  · obtain ⟨l₁, l₂, rfl, hx₁⟩ := List.eq_append_cons_of_mem hx
    have herase : (l₁ ++ x :: l₂).erase x = l₁ ++ l₂ := by
      rw [List.erase_append_right _ hx₁, List.erase_cons_head]
    rw [linkTo_of_mem h (h.length_le hf) hx₁, herase]
    rcases List.eq_nil_or_concat' l₁ with rfl | ⟨l₁, y, rfl⟩
    · exact h.2
    · have hnd := h.nodup
      simp only [List.nodup_append, List.nodup_cons, List.mem_append, List.mem_cons] at hnd
      simp only [List.getLast?_concat, Option.some_or, List.append_assoc, List.singleton_append]
      rw [List.append_assoc] at h
      refine Linked.remove_after h (Function.update_self _ _ _) fun z hz => ?_
      refine Function.update_of_ne ?_ _ _
      grind
  · rw [List.erase_of_not_mem hx]
    cases hlink : linkTo next x fuel none head with
    | mk prev cur =>
      have hcur : (linkTo next x fuel none head).2 = none :=
        linkTo_of_not_mem h (h.length_le hf) hx
      rw [hlink] at hcur
      obtain rfl : cur = none := hcur
      exact h

end Csos

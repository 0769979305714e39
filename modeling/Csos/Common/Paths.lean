import Mathlib.Tactic
/-!
# Trees of named children

A tree is the function that gives the child of a node under a name; a path is
followed from a node name by name. When no node is a child twice, a node is
reached by one path only, and linking or unlinking a node changes what one
path leads to and nothing else.
-/

namespace Csos

variable {α ν : Type*} {child child' : α → ν → Option α} {root a b d : α} {k m : ν} {p q P : List ν}

/-- The node that a path leads to. -/
def follow (child : α → ν → Option α) : α → List ν → Option α
  | a, [] => some a
  | a, k :: p => (child a k).bind fun b => follow child b p

@[simp] theorem follow_nil : follow child a [] = some a := rfl

theorem follow_append : follow child a (p ++ q) = (follow child a p).bind fun b => follow child b q := by
  induction p generalizing a with
  | nil => rfl
  | cons k p ih =>
    rw [List.cons_append, follow, follow]
    cases child a k with
    | none => rfl
    | some b => exact ih

theorem follow_concat : follow child a (p ++ [k]) = (follow child a p).bind fun b => child b k := by
  rw [follow_append]
  congr 1
  funext b
  rw [follow]
  cases child b k <;> rfl

theorem follow_concat_of_some (h : follow child a p = some b) :
    follow child a (p ++ [k]) = child b k := by
  rw [follow_concat, h, Option.bind_some]

/-- A path that leads nowhere is not led further. -/
theorem follow_concat_of_none (h : follow child a p = none) : follow child a (p ++ [k]) = none := by
  rw [follow_concat, h, Option.bind_none]

/-- No node is a child twice, and the root is no child, as far as paths lead. -/
structure Rooted (child : α → ν → Option α) (root : α) : Prop where
  unique : ∀ p q a b k m c, follow child root p = some a → follow child root q = some b →
    child a k = some c → child b m = some c → a = b ∧ k = m
  root : ∀ p a k, follow child root p = some a → child a k ≠ some root

/-- **A node is reached by one path.** -/
theorem Rooted.follow_inj (h : Rooted child root) (hp : follow child root p = some a)
    (hq : follow child root q = some a) : p = q := by
  induction p using List.reverseRecOn generalizing a q with
  | nil =>
    obtain rfl := Option.some.inj hp
    induction q using List.reverseRecOn with
    | nil => rfl
    | append_singleton q m _ =>
      obtain ⟨b, hb, hbm⟩ := Option.bind_eq_some_iff.mp (follow_concat.symm.trans hq)
      exact absurd hbm (h.root q b m hb)
  | append_singleton p k ih =>
    obtain ⟨b, hb, hbk⟩ := Option.bind_eq_some_iff.mp (follow_concat.symm.trans hp)
    induction q using List.reverseRecOn with
    | nil =>
      obtain rfl := Option.some.inj hq
      exact absurd hbk (h.root p b k hb)
    | append_singleton q m _ =>
      obtain ⟨c, hc, hcm⟩ := Option.bind_eq_some_iff.mp (follow_concat.symm.trans hq)
      obtain ⟨rfl, rfl⟩ := h.unique p q b c k m a hb hc hbk hcm
      rw [ih hb hc]

/-- A path sees the children of the nodes on it only. -/
theorem follow_congr (P : α → Prop) (hroot : P root) (hP : ∀ a k c, P a → child a k = some c → P c)
    (heq : ∀ a k, P a → child' a k = child a k) : follow child' root p = follow child root p := by
  induction p generalizing root with
  | nil => rfl
  | cons k p ih =>
    rw [follow, follow, heq root k hroot]
    cases hc : child root k with
    | none => rfl
    | some c => exact ih (hP root k c hroot hc)

/-- **Linking and unlinking a leaf**: the child of `d` under `k` becomes `v`,
a leaf as the old one was. One path is changed. -/
theorem Rooted.follow_edit [DecidableEq ν] {v : Option α} (h : Rooted child root)
    (hP : follow child root P = some d) (hd : child' d k = v)
    (hold : ∀ x, child d k = some x → ∀ m, child x m = none)
    (hnew : ∀ x, v = some x → ∀ m, child' x m = none)
    (heq : ∀ p a m, follow child root p = some a → p ≠ P ++ [k] → ¬ (a = d ∧ m = k) →
      child' a m = child a m) :
    follow child' root p = if p = P ++ [k] then v else follow child root p := by
  induction p using List.reverseRecOn with
  | nil => simp
  | append_singleton p m ih =>
    rw [follow_concat, ih]
    by_cases hp : p = P ++ [k]
    · -- nothing is below the leaf, before or after
      subst hp
      have hlen : P ++ [k] ++ [m] ≠ P ++ [k] := fun he => by simpa using congrArg List.length he
      have hbefore : follow child root (P ++ [k] ++ [m]) = none := by
        rw [follow_concat, follow_concat_of_some hP]
        cases hx : child d k with
        | none => rfl
        | some x => exact hold x hx m
      rw [if_pos rfl, if_neg hlen, hbefore]
      cases v with
      | none => rfl
      | some x => exact hnew x rfl m
    rw [if_neg hp]
    by_cases hpm : p = P ∧ m = k
    · obtain ⟨rfl, rfl⟩ := hpm
      rw [if_pos rfl, hP, Option.bind_some, hd]
    have hne : p ++ [m] ≠ P ++ [k] := fun he =>
      hpm ⟨List.append_inj_left' he rfl, by simpa using List.append_inj_right' he rfl⟩
    rw [if_neg hne]
    cases hf : follow child root p with
    | none => rw [Option.bind_none, follow_concat_of_none hf]
    | some a =>
      have had : ¬ (a = d ∧ m = k) := fun hc => hpm ⟨h.follow_inj hf (hc.1 ▸ hP), hc.2⟩
      rw [Option.bind_some, follow_concat_of_some hf, heq p a m hf hp had]

end Csos

import Mathlib.Tactic
/-!
# Paths as lists of components

An absolute path is written as its components, each after a separator, and
the empty list as a separator alone. Where no component holds the separator
the components are read back from the path (`splitOn_body`), so that a path
is a prefix of another up to a component's end exactly when its components
are (`prefix_iff`).
-/

namespace Csos

namespace Components

variable {α : Type*} {sep : α} {a b st : List (List α)} {c p r : List α}

/-- The components, each after a separator. -/
def body (sep : α) (st : List (List α)) : List α := st.flatMap (sep :: ·)

/-- The path of the components. -/
def render (sep : α) (st : List (List α)) : List α := if st = [] then [sep] else body sep st

@[simp] theorem body_nil : body sep [] = [] := rfl

@[simp] theorem body_cons : body sep (c :: st) = sep :: (c ++ body sep st) := rfl

theorem body_append : body sep (a ++ b) = body sep a ++ body sep b := List.flatMap_append

theorem body_concat : body sep (st ++ [c]) = body sep st ++ sep :: c := by
  rw [body_append, body_cons, body_nil, List.append_nil]

@[simp] theorem render_nil : render sep [] = [sep] := rfl

theorem render_of_ne_nil (h : st ≠ []) : render sep st = body sep st := if_neg h

theorem render_concat : render sep (st ++ [c]) = body sep st ++ sep :: c := by
  rw [render_of_ne_nil (by simp), body_concat]

theorem head?_body (h : st ≠ []) : (body sep st).head? = some sep := by
  cases st with
  | nil => exact absurd rfl h
  | cons c st => rfl

theorem head?_render : (render sep st).head? = some sep := by
  by_cases h : st = []
  · rw [h]
    rfl
  · rw [render_of_ne_nil h]
    exact head?_body h

theorem length_render_pos : 0 < (render sep st).length :=
  List.length_pos_of_mem (List.mem_of_mem_head? head?_render)

/-- The body of a list with components that are not empty is longer than
the separator alone. -/
theorem one_lt_length_body (h : st ≠ []) (hc : ∀ c ∈ st, c ≠ []) : 1 < (body sep st).length := by
  cases st with
  | nil => exact absurd rfl h
  | cons c st =>
    have hpos := List.length_pos_iff.mpr (hc c (by simp))
    simp only [body_cons, List.length_cons, List.length_append]
    omega

theorem one_lt_length_render (hc : ∀ c ∈ st, c ≠ []) : 1 < (render sep st).length ↔ st ≠ [] := by
  by_cases h : st = []
  · simp [h]
  · rw [render_of_ne_nil h]
    exact iff_of_true (one_lt_length_body h hc) h

/-- A path with a component does not end in a separator. -/
theorem getLast?_render_ne (h : ∀ c ∈ st, c ≠ [] ∧ sep ∉ c) (hst : st ≠ []) :
    (render sep st).getLast? ≠ some sep := by
  obtain ⟨l, c, rfl⟩ := (List.eq_nil_or_concat' st).resolve_left hst
  obtain ⟨hne, hc⟩ := h c (by simp)
  rw [render_concat, List.append_cons, List.getLast?_append, List.getLast?_eq_some_getLast hne]
  intro hl
  exact hc (Option.some.inj hl ▸ List.getLast_mem hne)

/-! ## Reading the components back -/

theorem intercalate_cons (c : List α) (st : List (List α)) :
    [sep].intercalate (c :: st) = c ++ body sep st := by
  induction st generalizing c with
  | nil => simp [List.intercalate]
  | cons d st ih =>
    rw [List.intercalate_cons_cons, ih, body_cons, List.append_assoc, List.singleton_append]

variable [DecidableEq α]

/-- **The components are read back.** -/
theorem splitOn_body (h : ∀ c ∈ st, sep ∉ c) : (body sep st).splitOn sep = [] :: st := by
  rw [← List.nil_append (body sep st), ← intercalate_cons, List.splitOn_intercalate _ _ (by simp)]
  simpa using h

theorem notMem_of_mem_splitOn {s : List α} : ∀ c ∈ s.splitOn sep, sep ∉ c := by
  induction s with
  | nil => simp
  | cons x s ih =>
    rw [List.splitOn_cons_eq_if_modifyHead]
    split
    · simpa using ih
    · rename_i hx
      intro c hc
      cases hs : s.splitOn sep with
      | nil => exact absurd hs (List.splitOn_ne_nil sep s)
      | cons d ds =>
        rw [hs] at hc ih
        rcases List.mem_cons.mp hc with rfl | hc
        · rw [List.mem_cons, not_or]
          exact ⟨fun h => hx (by simp [h]), ih d (by simp)⟩
        · exact ih c (by simp [hc])

theorem body_injective (ha : ∀ c ∈ a, sep ∉ c) (hb : ∀ c ∈ b, sep ∉ c)
    (h : body sep a = body sep b) : a = b := by
  have hsplit := splitOn_body ha
  rw [h, splitOn_body hb] at hsplit
  exact (List.cons.inj hsplit).2.symm

/-- **A prefix up to the end of a component is a prefix of the
components.** -/
theorem prefix_iff (ha : ∀ c ∈ a, sep ∉ c) (hb : ∀ c ∈ b, sep ∉ c) :
    (∃ r, body sep b = body sep a ++ r ∧ (r = [] ∨ r.head? = some sep)) ↔ a <+: b := by
  constructor
  · rintro ⟨r, hr, rfl | hsep⟩
    · rw [List.append_nil] at hr
      rw [body_injective ha hb hr.symm]
    · obtain ⟨r', rfl⟩ : ∃ r', r = sep :: r' := by
        cases r with
        | nil => exact absurd hsep (by simp)
        | cons x r' => exact ⟨r', by rw [Option.some.inj hsep]⟩
      have hsplit := splitOn_body hb
      rw [hr, List.splitOn_append_cons_self, splitOn_body ha, List.cons_append] at hsplit
      exact ⟨_, (List.cons.inj hsplit).2⟩
  · rintro ⟨r, rfl⟩
    refine ⟨body sep r, body_append, ?_⟩
    by_cases hr : r = []
    · exact .inl (by rw [hr, body_nil])
    · exact .inr (head?_body hr)

end Components

end Csos

import Csos.Common.Components
import Csos.Vfs.Paths
/-!
# The VFS — the stack of components that a path leaves

From left to right over the components of a path: an empty one and `.` do
nothing, `..` pops and any other is pushed, if the rendering then fits the
output (`stack`). A rendering of components is its own stack
(`stack_render`), and `normalize` gives the rendering of the stack
(`normalize_eq`).
-/

namespace Csos

namespace Vfs

open Components

variable {size : ℕ} {s comp rest : Str} {st : List Str} {c : Str}

/-! ## The stack of components -/

/-- A component that is pushed. -/
structure Clean (c : Str) : Prop where
  ne_nil : c ≠ []
  plain : Plain c
  noSlash : slash ∉ c

/-- What a component does to the stack; `none` when the rendering would not
fit. -/
def push (size : ℕ) (st : List Str) (c : Str) : Option (List Str) :=
  if c = [] ∨ c = [dot] then some st
  else if c = [dot, dot] then some st.dropLast
  else if (render slash (st ++ [c])).length < size then some (st ++ [c])
  else none

/-- The components of a path, from left to right. -/
def stackFrom (size : ℕ) (st : List Str) (src : Str) : Option (List Str) :=
  (src.splitOn slash).foldlM (push size) st

/-- The stack a path leaves. -/
def stack (size : ℕ) (src : Str) : Option (List Str) := stackFrom size [] src

/-- What a component does to the stack, whatever the size of the output. -/
def step (st : List Str) (c : Str) : List Str :=
  if c = [] ∨ c = [dot] then st else if c = [dot, dot] then st.dropLast else st ++ [c]

/-- The stack after the components. -/
def stackOf (cs : List Str) : List Str := cs.foldl step []

/-- After every push the rendering has a length below `size`. -/
def PushesFit (size : ℕ) (st cs : List Str) : Prop :=
  ∀ a c, a ++ [c] <+: cs → c ≠ [] → Plain c → (render slash (a.foldl step st ++ [c])).length < size

theorem push_nil : push size st [] = some st := if_pos (.inl rfl)

theorem push_clean (hst : ∀ c ∈ st, Clean c) (hc : slash ∉ c) {st' : List Str}
    (h : push size st c = some st') : ∀ c ∈ st', Clean c := by
  unfold push at h
  split_ifs at h with h1 h2 h3
  · cases h
    exact hst
  · cases h
    exact fun d hd => hst d (List.dropLast_subset _ hd)
  · cases h
    rw [not_or] at h1
    intro d hd
    rcases List.mem_append.mp hd with hd | hd
    · exact hst d hd
    · obtain rfl := List.mem_singleton.mp hd
      exact ⟨h1.1, ⟨h1.2, h2⟩, hc⟩

theorem pushesFit_cons {cs : List Str} : PushesFit size st (c :: cs) ↔
    (c ≠ [] → Plain c → (render slash (st ++ [c])).length < size) ∧ PushesFit size (step st c) cs := by
  constructor
  · intro h
    exact ⟨h [] c (by simp), fun a d hd => h (c :: a) d (by simpa using hd)⟩
  · rintro ⟨hc, h⟩ a d hd
    cases a with
    | nil =>
      obtain rfl : d = c := by simpa using hd
      exact hc
    | cons b a =>
      obtain ⟨rfl, had⟩ : b = c ∧ a ++ [d] <+: cs := by simpa using hd
      exact h a d had

/-- **The stack is the one of the components, when every push fits.** -/
theorem foldlM_push_iff (cs : List Str) {st' : List Str} : cs.foldlM (push size) st = some st' ↔
    PushesFit size st cs ∧ st' = cs.foldl step st := by
  induction cs generalizing st with
  | nil =>
    rw [List.foldlM_nil, List.foldl_nil]
    constructor
    · intro h
      exact ⟨fun a c hc => absurd hc (by simp), (Option.some.inj h).symm⟩
    · rintro ⟨-, rfl⟩
      rfl
  | cons c cs ih =>
    rw [List.foldlM_cons, List.foldl_cons, pushesFit_cons]
    have hstep : ((c ≠ [] → Plain c → (render slash (st ++ [c])).length < size) ∧
        push size st c = some (step st c)) ∨
        (¬ (c ≠ [] → Plain c → (render slash (st ++ [c])).length < size) ∧ push size st c = none) := by
      unfold push step
      split_ifs with h1 h2 h3
      · refine .inl ⟨fun hnil hp => ?_, rfl⟩
        exact absurd h1 (not_or.mpr ⟨hnil, hp.1⟩)
      · exact .inl ⟨fun _ hp => absurd h2 hp.2, rfl⟩
      · exact .inl ⟨fun _ _ => h3, rfl⟩
      · rw [not_or] at h1
        exact .inr ⟨fun h => h3 (h h1.1 ⟨h1.2, h2⟩), rfl⟩
    rcases hstep with ⟨hfit, hpush⟩ | ⟨hfit, hpush⟩
    · rw [hpush]
      exact ih.trans (and_congr_left fun _ => (and_iff_right hfit).symm)
    · rw [hpush]
      exact iff_of_false (by simp) fun h => hfit h.1.1

/-- Leading separators do nothing. -/
theorem stackFrom_dropWhile (src : Str) :
    stackFrom size st (src.dropWhile (· = slash)) = stackFrom size st src := by
  induction src with
  | nil => rfl
  | cons x src ih =>
    by_cases hx : x = slash
    · rw [List.dropWhile_cons_of_pos (by simpa using hx), ih, hx]
      unfold stackFrom
      rw [List.splitOn_cons_eq_if_modifyHead, if_pos (by simp), List.foldlM_cons, push_nil]
      rfl
    · rw [List.dropWhile_cons_of_neg (by simpa using hx)]

/-- The components of a stack that a path leaves. -/
theorem clean_of_foldlM {cs : List Str} (hcs : ∀ c ∈ cs, slash ∉ c) (hst : ∀ c ∈ st, Clean c)
    {st' : List Str} (h : cs.foldlM (push size) st = some st') : ∀ c ∈ st', Clean c := by
  induction cs generalizing st with
  | nil =>
    cases h
    exact hst
  | cons c cs ih =>
    rw [List.foldlM_cons] at h
    obtain ⟨st₁, hpush, h⟩ := Option.bind_eq_some_iff.mp h
    exact ih (fun d hd => hcs d (by simp [hd])) (push_clean hst (hcs c (by simp)) hpush) h

theorem clean_of_stack (h : stack size s = some st) : ∀ c ∈ st, Clean c :=
  clean_of_foldlM notMem_of_mem_splitOn (by simp) h

/-- The first component, and what is left. -/
theorem stackFrom_component (hc : slash ∉ comp) (hr : rest = [] ∨ rest.head? = some slash) :
    stackFrom size st (comp ++ rest) =
      (push size st comp).bind fun st' => stackFrom size st' rest := by
  unfold stackFrom
  rcases hr with rfl | hr
  · rw [List.append_nil, List.splitOn_eq_singleton hc, List.foldlM_cons]
    simp only [List.foldlM_nil, List.splitOn_nil, List.foldlM_cons, push_nil]
    rfl
  · obtain ⟨r, rfl⟩ : ∃ r, rest = slash :: r := by
      cases rest with
      | nil => exact absurd hr (by simp)
      | cons x r => exact ⟨r, by rw [Option.some.inj hr]⟩
    rw [List.splitOn_append_cons_self_of_not_mem hc, List.foldlM_cons]
    refine congrArg _ (funext fun st' => ?_)
    rw [List.splitOn_cons_eq_if_modifyHead, if_pos (by simp), List.foldlM_cons, push_nil]
    rfl

/-- Pushing clean components that fit. -/
theorem foldlM_push (hst : ∀ c ∈ st, Clean c) (base : List Str)
    (hlen : (render slash (base ++ st)).length < size) :
    st.foldlM (push size) base = some (base ++ st) := by
  induction st generalizing base with
  | nil => simp
  | cons c st ih =>
    have hc := hst c (by simp)
    have hone : (render slash (base ++ [c])).length ≤ (render slash (base ++ c :: st)).length := by
      rw [render_of_ne_nil (by simp), render_of_ne_nil (by simp), body_append, body_append]
      simp
    have hpush : push size base c = some (base ++ [c]) := by
      unfold push
      rw [if_neg (by rw [not_or]; exact ⟨hc.ne_nil, hc.plain.1⟩), if_neg hc.plain.2,
        if_pos (lt_of_le_of_lt hone hlen)]
    have hrest := ih (fun d hd => hst d (by simp [hd])) (base ++ [c]) (by simpa using hlen)
    rw [List.foldlM_cons, hpush]
    simpa using hrest

/-- **A rendering is its own stack.** -/
theorem stack_render (hst : ∀ c ∈ st, Clean c) (hlen : (render slash st).length < size) :
    stack size (render slash st) = some st := by
  unfold stack stackFrom
  by_cases hnil : st = []
  · rw [hnil, render_nil, List.splitOn_cons_eq_if_modifyHead, if_pos (by simp)]
    simp [push_nil]
  · rw [render_of_ne_nil hnil, splitOn_body fun c hc => (hst c hc).noSlash, List.foldlM_cons,
      push_nil]
    simpa using foldlM_push hst [] (by simpa using hlen)

/-! ## The list function computes the stack -/

theorem rdropWhile_append_slash (a : Str) {x : Str} (hx : slash ∉ x) :
    (a ++ slash :: x).rdropWhile (· ≠ slash) = a ++ [slash] := by
  have hrev : ∀ z ∈ x.reverse, decide (z ≠ slash) = true := by
    intro z hz
    rw [decide_eq_true_eq]
    rintro rfl
    exact hx (List.mem_reverse.mp hz)
  rw [List.rdropWhile, List.reverse_append, List.reverse_cons, List.append_assoc,
    List.dropWhile_append_of_pos hrev]
  simp

/-- **Popping the rendering pops the stack.** -/
theorem popComponent_render (hst : ∀ c ∈ st, Clean c) :
    popComponent (render slash st) = render slash st.dropLast := by
  rcases List.eq_nil_or_concat' st with rfl | ⟨l, c, rfl⟩
  · rfl
  · have hc := hst c (by simp)
    have hl : ∀ d ∈ l, d ≠ [] := fun d hd => (hst d (by simp [hd])).ne_nil
    unfold popComponent
    rw [render_concat, rdropWhile_append_slash _ hc.noSlash, List.dropLast_concat]
    by_cases hnil : l = []
    · rw [hnil]
      rfl
    · have hlen : 1 < (body slash l).length := one_lt_length_body hnil hl
      simp only [List.length_append, List.length_singleton]
      rw [if_pos (by omega), List.dropLast_concat, render_of_ne_nil hnil]

/-- What is written for a component is the rendering with it. -/
theorem append_render (hst : ∀ c ∈ st, Clean c) (c : Str) :
    (if 1 < (render slash st).length then render slash st ++ [slash] else render slash st) ++ c =
      render slash (st ++ [c]) := by
  have hiff : 1 < (render slash st).length ↔ st ≠ [] :=
    one_lt_length_render fun c hc => (hst c hc).ne_nil
  rw [render_concat]
  by_cases hnil : st = []
  · rw [if_neg fun h => hiff.mp h hnil, hnil]
    rfl
  · rw [if_pos (hiff.mpr hnil), render_of_ne_nil hnil, List.append_assoc, List.singleton_append]

theorem length_append_render (hst : ∀ c ∈ st, Clean c) (c : Str) :
    (render slash st).length + (if 1 < (render slash st).length then 1 else 0) + c.length =
      (render slash (st ++ [c])).length := by
  rw [← append_render hst c]
  split
  · simp only [List.length_append, List.length_singleton]
  · rw [Nat.add_zero, List.length_append]

/-- The component at the front, and what is after it. -/
theorem component_spec (hnil : s ≠ []) (hs : s.head? ≠ some slash) :
    s.takeWhile (· ≠ slash) ≠ [] ∧ slash ∉ s.takeWhile (· ≠ slash) ∧
      (s.dropWhile (· ≠ slash) = [] ∨ (s.dropWhile (· ≠ slash)).head? = some slash) := by
  refine ⟨?_, fun hm => absurd (List.mem_takeWhile_imp hm) (by simp), ?_⟩
  · cases s with
    | nil => exact absurd rfl hnil
    | cons x s =>
      rw [List.takeWhile_cons_of_pos (by simpa using hs)]
      simp
  · cases hd : s.dropWhile (· ≠ slash) with
    | nil => exact .inl rfl
    | cons x r =>
      have hx := List.head?_dropWhile_not (· ≠ slash) s
      rw [hd] at hx
      exact .inr (by simpa using hx)

/-- **The loop of `vfs_normalize` runs the stack.** Induction on the fuel,
one component a round. -/
theorem normalizeLoop_eq : ∀ (fuel : ℕ) (src : Str) (st : List Str), (∀ c ∈ st, Clean c) →
    src.length < fuel → normalizeLoop size fuel src (render slash st) =
      (stackFrom size st src).map (render slash) := by
  intro fuel
  induction fuel with
  | zero =>
    intro src st _ hf
    exact absurd hf (Nat.not_lt_zero _)
  | succ fuel ih =>
    intro src st hst hf
    rw [← stackFrom_dropWhile, normalizeLoop]
    have hle : (src.dropWhile (· = slash)).length ≤ src.length := (List.dropWhile_sublist _).length_le
    generalize hs : src.dropWhile (· = slash) = s at hle ⊢
    simp only
    by_cases hnil : s = []
    · rw [if_pos hnil, hnil]
      simp [stackFrom, push_nil]
    rw [if_neg hnil]
    -- the first component is not empty, so that what is left is shorter
    have hhead : s.head? ≠ some slash := by
      have := List.head?_dropWhile_not (· = slash) src
      rw [hs] at this
      intro hx
      simp [hx] at this
    obtain ⟨hcomp, hclean, hrest⟩ := component_spec hnil hhead
    have hsplit : s.takeWhile (· ≠ slash) ++ s.dropWhile (· ≠ slash) = s :=
      List.takeWhile_append_dropWhile
    generalize s.takeWhile (· ≠ slash) = comp at *
    generalize s.dropWhile (· ≠ slash) = rest at *
    have hlt : rest.length < fuel := by
      have := congrArg List.length hsplit
      have := List.length_pos_iff.mpr hcomp
      rw [List.length_append] at *
      omega
    rw [← hsplit, stackFrom_component hclean hrest]
    unfold push
    by_cases h1 : comp = [dot]
    · rw [if_pos h1, if_pos (.inr h1), ih rest st hst hlt]
      rfl
    rw [if_neg h1, if_neg (not_or.mpr ⟨hcomp, h1⟩)]
    by_cases h2 : comp = [dot, dot]
    · rw [if_pos h2, if_pos h2, popComponent_render hst,
        ih rest st.dropLast (fun c hc => hst c (List.dropLast_subset _ hc)) hlt]
      rfl
    rw [if_neg h2, if_neg h2, length_append_render hst, append_render hst]
    by_cases h3 : (render slash (st ++ [comp])).length < size
    · have hst' : ∀ c ∈ st ++ [comp], Clean c := by
        intro c hc
        rcases List.mem_append.mp hc with hc | hc
        · exact hst c hc
        · obtain rfl := List.mem_singleton.mp hc
          exact ⟨hcomp, ⟨h1, h2⟩, hclean⟩
      rw [if_neg (by omega), if_pos h3, ih rest _ hst' hlt]
      rfl
    · rw [if_pos (by omega), if_neg h3]
      rfl

/-- **`normalize` is the rendering of the stack.** -/
theorem normalize_eq (hs : s.head? = some slash) (h2 : 2 ≤ size) :
    normalize s size = (stack size s).map (render slash) := by
  rw [normalize, if_neg (by rw [not_or, not_not]; exact ⟨by omega, hs⟩)]
  exact normalizeLoop_eq _ s [] (by simp) (Nat.lt_succ_self _)

end Vfs

end Csos

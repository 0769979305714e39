import Csos.Common.Strings
import Csos.Vfs.Stack
/-!
# The VFS — `vfs_normalize` in its buffers

The code reads the source by a `uint32_t` index and edits the output in
place: for `..` the output is scanned backwards, and a separator is written
when the next component is. `vfsNormalize` is that code over buffers, in
which an access outside them faults; what it leaves is the rendering of the
stack (`normalizeFrom_spec`, one round at a time).
-/

namespace Csos

namespace Vfs

open Components Checked

variable {σ : Type} {src dst : Buf} {size fuel i j start : ℕ} {s d rest comp : Str} {st : List Str}

/-- `len == 1 && src[start] == '.'`. -/
def isDot (src : Buf) (start len : ℕ) : Checked σ Bool :=
  if len ≠ 1 then return false
  else do
    let x ← src.get start
    return x = dot

/-- `len == 2 && src[start] == '.' && src[start + 1] == '.'`. -/
def isDotDot (src : Buf) (start len : ℕ) : Checked σ Bool :=
  if len ≠ 2 then return false
  else do
    let x ← src.get start
    if x ≠ dot then return false
    else do
      let y ← src.get ((start + 1) % 2 ^ 32)
      return y = dot

/-- `while (j > 1 && dst[j - 1] != '/') j--`. -/
def backScan (dst : Buf) : ℕ → Checked σ ℕ
  | 0 => return 0
  | j + 1 =>
    if j = 0 then return 1
    else do
      let x ← dst.get j
      if x ≠ slash then backScan dst j else return j + 1

/-- The pop of `vfs_normalize`. -/
def popBack (dst : Buf) (j : ℕ) : Checked σ ℕ := do
  let j ← backScan dst j
  return if 1 < j then j - 1 else j

/-- `if (j > 1) dst[j++] = '/'`. -/
def putSlash (dst : Buf) (j : ℕ) : Checked σ (ℕ × Buf) :=
  if 1 < j then do
    let dst ← dst.fill j 1 slash
    return ((j + 1) % 2 ^ 32, dst)
  else return (j, dst)

/-- What follows the loop of `vfs_normalize`. -/
def terminate (dst : Buf) (j : ℕ) : Checked σ (ℤ × Buf) := do
  let dst ← dst.fill j 1 0
  return (vfsOk, dst)

/-- The loop of `vfs_normalize`. -/
def normalizeFrom (src : Buf) (dstSize : ℕ) : ℕ → ℕ → ℕ → Buf → Checked σ (ℤ × Buf)
  | 0, _, _, _ => hang
  | fuel + 1, i, j, dst => do
    let x ← src.get i
    if x = 0 then terminate dst j
    else do
      let i ← src.skip (fun x => x = slash) fuel i
      let x ← src.get i
      if x = 0 then terminate dst j
      else do
        let start := i
        let i ← src.skip (fun x => x ≠ 0 ∧ x ≠ slash) fuel i
        let len := (i + (2 ^ 32 - start)) % 2 ^ 32
        if ← isDot src start len then normalizeFrom src dstSize fuel i j dst
        else if ← isDotDot src start len then do
          let j ← popBack dst j
          normalizeFrom src dstSize fuel i j dst
        else if dstSize ≤ (j + (if 1 < j then 1 else 0) + len) % 2 ^ 32 then return (errInval, dst)
        else do
          let (j, dst) ← putSlash dst j
          let dst ← dst.copy j len src start
          normalizeFrom src dstSize fuel i ((j + len) % 2 ^ 32) dst

/-- `vfs_normalize`. -/
def vfsNormalize (fuel : ℕ) (src dst : Buf) (dstSize : ℕ) : Checked σ (ℤ × Buf) :=
  if dstSize < 2 then return (errInval, dst)
  else do
    let x ← src.get 0
    if x ≠ slash then return (errInval, dst)
    else do
      let dst ← dst.fill 0 1 slash
      normalizeFrom src dstSize fuel 0 1 dst

/-! ## The parts of a round -/

theorem isDot_spec (h : src.Holds start (comp ++ rest)) (w : σ) :
    isDot src start comp.length w = .ret (decide (comp = [dot]), w) := by
  unfold isDot
  by_cases hl : comp.length = 1
  · obtain ⟨x, rfl⟩ := List.length_eq_one_iff.mp hl
    rw [if_neg (not_not.mpr hl), bind_of_ret (h.get w), pure_apply,
      decide_eq_decide.mpr (show [x] = [dot] ↔ x = dot by simp)]
    rfl
  · rw [if_pos hl, pure_apply]
    have hne : comp ≠ [dot] := by
      rintro rfl
      exact hl rfl
    rw [decide_eq_false hne]

theorem isDotDot_spec (h : src.Holds start (comp ++ rest)) (hlt : start + comp.length < 2 ^ 32) (w : σ) :
    isDotDot src start comp.length w = .ret (decide (comp = [dot, dot]), w) := by
  unfold isDotDot
  by_cases hl : comp.length = 2
  · obtain ⟨x, y, rfl⟩ := List.length_eq_two.mp hl
    rw [if_neg (not_not.mpr hl), bind_of_ret (h.get w)]
    by_cases hx : x = dot
    · rw [if_neg (by simpa using hx), Nat.mod_eq_of_lt (by rw [hl] at hlt; omega),
        bind_of_ret (h.2.get w), pure_apply,
        decide_eq_decide.mpr (show [x, y] = [dot, dot] ↔ y = dot by simp [hx])]
      rfl
    · rw [if_pos (by simpa using hx), pure_apply, decide_eq_false]
      simp [hx]
  · rw [if_pos hl, pure_apply]
    have hne : comp ≠ [dot, dot] := by
      rintro rfl
      exact hl rfl
    rw [decide_eq_false hne]

/-- The backwards scan stops after the last separator. -/
theorem backScan_spec (hd : slice dst.bytes 0 d.length = d) (hh : d.head? = some slash)
    (hlen : d.length ≤ dst.len) (w : σ) :
    backScan dst d.length w = .ret ((d.rdropWhile (· ≠ slash)).length, w) := by
  induction d using List.reverseRecOn with
  | nil => exact absurd hh (by simp)
  | append_singleton l x ih =>
    rw [List.length_append, List.length_singleton] at hd hlen ⊢
    rw [slice_concat (by omega), Nat.add_sub_cancel] at hd
    obtain ⟨hl, hx⟩ := List.append_inj hd (by rw [length_slice, Nat.sub_zero])
    rw [List.cons.injEq] at hx
    unfold backScan
    by_cases hnil : l = []
    · subst hnil
      obtain rfl : x = slash := by simpa using hh
      rw [List.length_nil, if_pos rfl, pure_apply, List.rdropWhile_concat_neg _ _ _ (by simp)]
      rfl
    · rw [if_neg (by rwa [List.length_eq_zero_iff]), bind_of_ret (Buf.get_apply (by omega) w), hx.1]
      by_cases hs : x = slash
      · rw [if_neg (not_not.mpr hs), pure_apply, List.rdropWhile_concat_neg _ _ _ (by simpa using hs),
          List.length_append, List.length_singleton]
      · rw [if_pos hs, List.rdropWhile_concat_pos _ _ _ (by simpa using hs)]
        exact ih hl (by rwa [List.head?_append_of_ne_nil _ hnil] at hh) (by omega)

theorem popComponent_prefix (d : Str) : popComponent d <+: d := by
  unfold popComponent
  simp only
  split
  · exact (List.dropLast_prefix _).trans (List.rdropWhile_prefix _ _)
  · exact List.rdropWhile_prefix _ _

theorem popBack_spec (hd : slice dst.bytes 0 d.length = d) (hh : d.head? = some slash)
    (hlen : d.length ≤ dst.len) (w : σ) :
    popBack dst d.length w = .ret ((popComponent d).length, w) := by
  rw [popBack, bind_of_ret (backScan_spec hd hh hlen w), pure_apply]
  unfold popComponent
  simp only
  split
  · rw [List.length_dropLast]
  · rfl

theorem putSlash_spec (hd : slice dst.bytes 0 d.length = d) (hlen : d.length < dst.len)
    (hlt : d.length + 1 < 2 ^ 32) (w : σ) :
    ∃ dst' : Buf, putSlash dst d.length w =
        .ret (((if 1 < d.length then d ++ [slash] else d).length, dst'), w) ∧
      dst'.len = dst.len ∧
      slice dst'.bytes 0 (if 1 < d.length then d ++ [slash] else d).length =
        if 1 < d.length then d ++ [slash] else d := by
  unfold putSlash
  by_cases h : 1 < d.length
  · simp only [if_pos h, List.length_append, List.length_singleton]
    rw [bind_of_ret (Buf.fill_apply (by omega) w), Nat.mod_eq_of_lt hlt]
    refine ⟨_, rfl, rfl, ?_⟩
    rw [Buf.slice_blit, hd]
    rfl
  · simp only [if_neg h]
    exact ⟨dst, rfl, rfl, hd⟩

theorem terminate_spec (hd : slice dst.bytes 0 d.length = d) (h0 : ∀ x ∈ d, x ≠ 0) (hlen : d.length < dst.len)
    (w : σ) : ∃ dst' : Buf, terminate dst d.length w = .ret ((vfsOk, dst'), w) ∧
      dst'.len = dst.len ∧ dst'.Holds 0 d := by
  rw [terminate, bind_of_ret (Buf.fill_apply (by omega) w)]
  refine ⟨_, rfl, rfl, Buf.holds_of_slice ?_ h0 ?_ ?_⟩ <;> rw [Nat.zero_add]
  · refine Buf.slice_of_prefix (s := d ++ [0]) ?_ (List.prefix_append d [0])
    rw [List.length_append, List.length_singleton, Buf.slice_blit, hd]
    rfl
  · exact Bytes.blit_apply_of_mem (k := 0) (by omega)
  · exact hlen

/-! ## One round, and the loop -/

/-- The answer and the output for the stack that is left. -/
def Leaves (o : Option (List Str)) (rc : ℤ) (dst : Buf) : Prop :=
  match o with
  | none => rc = errInval
  | some st => rc = vfsOk ∧ dst.Holds 0 (render slash st)

/-- The state between two rounds: the stack is rendered in the output, and
`rest` is what is left of the source at `i`. -/
structure Round (src dst : Buf) (size i : ℕ) (st : List Str) (rest : Str) : Prop where
  clean : ∀ c ∈ st, Clean c
  ne_zero : ∀ x ∈ render slash st, x ≠ 0
  front : slice dst.bytes 0 (render slash st).length = render slash st
  fits : (render slash st).length < size
  len : dst.len = size
  holds : src.Holds i rest
  border : rest = [] ∨ rest.head? = some slash
  index : i + rest.length < 2 ^ 32
  /-- The output does not run ahead of the source. -/
  behind : st = [] ∨ (render slash st).length ≤ i

theorem Round.finish (h : Round src dst size i st rest) (w : σ) :
    ∃ dst', terminate dst (render slash st).length w = .ret ((vfsOk, dst'), w) ∧ dst'.len = size ∧
      Leaves (some st) vfsOk dst' := by
  obtain ⟨dst', hret, hlen, hholds⟩ := terminate_spec h.front h.ne_zero (by rw [h.len]; exact h.fits) w
  exact ⟨dst', hret, by rw [hlen, h.len], rfl, hholds⟩

/-- The round of `..`. -/
theorem Round.pop (h : Round src dst size i st rest) {i' : ℕ} {rest' : Str} (hi : i ≤ i')
    (hholds : src.Holds i' rest') (hborder : rest' = [] ∨ rest'.head? = some slash)
    (hindex : i' + rest'.length < 2 ^ 32) : Round src dst size i' st.dropLast rest' := by
  have hpre : render slash st.dropLast <+: render slash st := by
    rw [← popComponent_render h.clean]
    exact popComponent_prefix _
  have hle := hpre.length_le
  refine ⟨fun c hc => h.clean c (List.dropLast_subset _ hc), fun x hx => h.ne_zero x (hpre.subset hx),
    Buf.slice_of_prefix h.front hpre, lt_of_le_of_lt hle h.fits, h.len, hholds, hborder, hindex, ?_⟩
  rcases h.behind with rfl | hb
  · exact .inl rfl
  · exact .inr (by omega)

theorem Round.skip (h : Round src dst size i st rest) {i' : ℕ} {rest' : Str} (hi : i ≤ i')
    (hholds : src.Holds i' rest') (hborder : rest' = [] ∨ rest'.head? = some slash)
    (hindex : i' + rest'.length < 2 ^ 32) : Round src dst size i' st rest' :=
  ⟨h.clean, h.ne_zero, h.front, h.fits, h.len, hholds, hborder, hindex,
    h.behind.imp_right fun hb => by omega⟩

/-- The separator of a component in the source makes room for the one in
the output. -/
theorem Round.length_le (h : Round src dst size i st rest) (hi : i + 1 ≤ start) (comp : Str) :
    (render slash (st ++ [comp])).length ≤ start + comp.length := by
  have hlen := length_append_render h.clean comp
  rcases h.behind with rfl | hb
  · rw [if_neg (by decide)] at hlen
    change 1 + 0 + comp.length = _ at hlen
    omega
  · split at hlen <;> omega

/-- The round of a component that is written. -/
theorem Round.push (h : Round src dst size i st rest) {rest' : Str} (hi : i + 1 ≤ start)
    (hholds : src.Holds start (comp ++ rest')) (hborder : rest' = [] ∨ rest'.head? = some slash)
    (hindex : start + comp.length + rest'.length < 2 ^ 32) (hc : Clean comp)
    (hfit : (render slash (st ++ [comp])).length < size) (w : σ) :
    ∃ j dst₁ dst₂, putSlash dst (render slash st).length w = .ret ((j, dst₁), w) ∧
      dst₁.copy j comp.length src start w = .ret (dst₂, w) ∧
      (j + comp.length) % 2 ^ 32 = (render slash (st ++ [comp])).length ∧
      Round src dst₂ size (start + comp.length) (st ++ [comp]) rest' := by
  have hlen := length_append_render h.clean comp
  have hbehind := h.length_le hi comp
  have hfits := h.fits
  have hdst := h.len
  have hlt : (render slash st).length + 1 < 2 ^ 32 := by
    have hpos := List.length_pos_iff.mpr hc.ne_nil
    split at hlen <;> omega
  obtain ⟨dst₁, hput, hlen₁, hfront₁⟩ := putSlash_spec h.front (by omega) hlt w
  have happ := append_render h.clean comp
  generalize hd : (if 1 < (render slash st).length then render slash st ++ [slash]
    else render slash st) = d at *
  have hsum : d.length + comp.length = (render slash (st ++ [comp])).length := by
    rw [← happ, List.length_append]
  have hsrc := hholds.append.lt
  refine ⟨d.length, dst₁, _, hput, Buf.copy_apply (by omega) (by omega) w, ?_, ?_⟩
  · rw [hsum, Nat.mod_eq_of_lt (by omega)]
  refine ⟨?_, ?_, ?_, hfit, by rw [← hdst, ← hlen₁], hholds.append, hborder, by omega, .inr hbehind⟩
  · intro c hm
    rcases List.mem_append.mp hm with hm | hm
    · exact h.clean c hm
    · rwa [List.mem_singleton.mp hm]
  · intro x hx
    rw [← happ] at hx
    rcases List.mem_append.mp hx with hx | hx
    · rw [← hd] at hx
      split at hx
      · rcases List.mem_append.mp hx with hx | hx
        · exact h.ne_zero x hx
        · rw [List.mem_singleton.mp hx]
          decide
      · exact h.ne_zero x hx
    · exact hholds.ne_zero x (List.mem_append_left _ hx)
  · rw [← hsum, Buf.slice_blit, hfront₁, ← happ]
    rw [Buf.slice_shift, hholds.slice]

/-- The separators before the next component, or before the end. -/
theorem exists_separators (size : ℕ) (st : List Str) (hhead : rest.head? = some slash) :
    ∃ a s, a ++ s = rest ∧ a ≠ [] ∧ (∀ x ∈ a, decide (x = slash) = true) ∧
      s.head? ≠ some slash ∧ stackFrom size st s = stackFrom size st rest := by
  refine ⟨rest.takeWhile (· = slash), rest.dropWhile (· = slash), List.takeWhile_append_dropWhile, ?_,
    fun x hx => by simpa using List.mem_takeWhile_imp hx, ?_, stackFrom_dropWhile ..⟩
  · cases rest with
    | nil => exact absurd hhead (by simp)
    | cons x rest =>
      rw [List.takeWhile_cons_of_pos (by simpa using hhead)]
      simp
  · intro hx
    have := List.head?_dropWhile_not (· = slash) rest
    simp [hx] at this

/-- The next component, as the loop finds its end, and what is after it. -/
theorem exists_component {s : Str} (hnil : s ≠ []) (hnext : s.head? ≠ some slash) (h0 : ∀ x ∈ s, x ≠ 0) :
    ∃ comp rest', comp ++ rest' = s ∧ comp ≠ [] ∧ slash ∉ comp ∧
      (rest' = [] ∨ rest'.head? = some slash) ∧ s.head?.getD 0 ≠ 0 ∧
      (∀ x ∈ comp, decide (x ≠ 0 ∧ x ≠ slash) = true) ∧
      decide (rest'.head?.getD 0 ≠ 0 ∧ rest'.head?.getD 0 ≠ slash) = false := by
  obtain ⟨hcomp, hclean, hrest⟩ := component_spec hnil hnext
  have hsplit : s.takeWhile (· ≠ slash) ++ s.dropWhile (· ≠ slash) = s :=
    List.takeWhile_append_dropWhile
  refine ⟨_, _, hsplit, hcomp, hclean, hrest, ?_, fun x hx => ?_, ?_⟩
  · cases s with
    | nil => exact absurd rfl hnil
    | cons x s => exact h0 x List.mem_cons_self
  · rw [decide_eq_true_eq]
    exact ⟨h0 x (hsplit ▸ List.mem_append_left _ hx), fun h => hclean (h ▸ hx)⟩
  · rcases hrest with hrest | hrest
    · rw [hrest]
      rfl
    · rw [hrest]
      rfl

/-- **The loop of `vfs_normalize` leaves the stack's rendering**, or the
error when a component does not fit. Induction on the fuel, one component a
round. -/
theorem normalizeFrom_spec (w : σ) : ∀ (fuel i : ℕ) (st : List Str) (dst : Buf) (rest : Str),
    Round src dst size i st rest → rest.length + 1 < fuel →
      ∃ rc dst', normalizeFrom src size fuel i (render slash st).length dst w = .ret ((rc, dst'), w) ∧
        dst'.len = size ∧ Leaves (stackFrom size st rest) rc dst' := by
  intro fuel
  induction fuel with
  | zero =>
    intro i st dst rest _ hf
    exact absurd hf (Nat.not_lt_zero _)
  | succ fuel ih =>
    intro i st dst rest h hf
    have hindex := h.index
    rw [normalizeFrom, bind_of_ret (h.holds.get w)]
    rcases h.border with rfl | hhead
    · -- the source is at its end
      obtain ⟨dst', hret, hlen, hans⟩ := h.finish w
      refine ⟨vfsOk, dst', ?_, hlen, ?_⟩
      · rw [List.head?_nil, Option.getD_none, if_pos rfl, hret]
      · rwa [stackFrom, List.splitOn_nil, List.foldlM_cons, push_nil]
    rw [hhead, Option.getD_some, if_neg (by decide)]
    -- over the separators, of which there is one
    obtain ⟨a, s, hsep, hone, hseps, hnext, hstack⟩ := exists_separators size st hhead
    rw [← hstack]
    have hlen := congrArg List.length hsep
    rw [List.length_append] at hlen
    have ha := List.length_pos_iff.mpr hone
    have hholds := h.holds
    rw [← hsep] at hholds
    have hstop : decide (s.head?.getD 0 = slash) = false := by
      cases s with
      | nil => rfl
      | cons x s => exact decide_eq_false (by simpa using hnext)
    rw [bind_of_ret (hholds.skip hseps hstop (by omega) (by omega) w),
      bind_of_ret (hholds.append.get w)]
    by_cases hnil : s = []
    · obtain ⟨dst', hret, hlen, hans⟩ := h.finish w
      refine ⟨vfsOk, dst', ?_, hlen, ?_⟩
      · rw [hnil, List.head?_nil, Option.getD_none, if_pos rfl, hret]
      · rwa [hnil, stackFrom, List.splitOn_nil, List.foldlM_cons, push_nil]
    -- the component, and what is after it
    have hholds' := hholds.append
    obtain ⟨comp, rest', hsplit, hcomp, hclean, hrest, hfirst, hinside, hend⟩ :=
      exists_component hnil hnext hholds'.ne_zero
    rw [← hsplit] at hholds'
    have hlen' := congrArg List.length hsplit
    rw [List.length_append] at hlen'
    have hpos := List.length_pos_iff.mpr hcomp
    rw [if_neg hfirst, bind_of_ret (hholds'.skip hinside hend (by omega) (by omega) w)]
    dsimp only
    rw [show (i + a.length + comp.length + (2 ^ 32 - (i + a.length))) % 2 ^ 32 = comp.length by omega,
      bind_of_ret (isDot_spec hholds' w), ← hsplit, stackFrom_component hclean hrest]
    have hle : i ≤ i + a.length + comp.length := by omega
    have hround := h.skip hle hholds'.append hrest (by omega)
    unfold push
    by_cases h1 : comp = [dot]
    · rw [if_pos (decide_eq_true h1), if_pos (.inr h1)]
      exact ih _ st dst rest' hround (by omega)
    rw [if_neg (by simpa using h1), if_neg (not_or.mpr ⟨hcomp, h1⟩),
      bind_of_ret (isDotDot_spec hholds' (by omega) w)]
    by_cases h2 : comp = [dot, dot]
    · rw [if_pos (decide_eq_true h2), if_pos h2,
        bind_of_ret (popBack_spec h.front head?_render (by rw [h.len]; exact h.fits.le) w),
        popComponent_render h.clean]
      exact ih _ st.dropLast dst rest'
        (h.pop hle hholds'.append hrest (by omega)) (by omega)
    rw [if_neg (by simpa using h2), if_neg h2, length_append_render h.clean]
    have hstart : i + 1 ≤ i + a.length := by omega
    have hlen₁ := h.length_le hstart comp
    rw [Nat.mod_eq_of_lt (show (render slash (st ++ [comp])).length < 2 ^ 32 by omega)]
    by_cases h3 : (render slash (st ++ [comp])).length < size
    · obtain ⟨j, dst₁, dst₂, hput, hcopy, hj, hround'⟩ :=
        h.push hstart hholds' hrest (by omega) ⟨hcomp, ⟨h1, h2⟩, hclean⟩ h3 w
      rw [if_neg (by omega), if_pos h3, bind_of_ret hput]
      dsimp only
      rw [bind_of_ret hcopy, hj]
      exact ih _ (st ++ [comp]) dst₂ rest' hround' (by omega)
    · rw [if_pos (by omega), if_neg h3, pure_apply]
      exact ⟨errInval, dst, rfl, h.len, rfl⟩

/-! ## The whole -/

/-- The call on a string that starts with a separator. -/
theorem vfsNormalize_spec (hsrc : src.Holds 0 s) (hs : s.head? = some slash) (hlt : s.length < 2 ^ 32)
    (h2 : 2 ≤ size) (hlen : dst.len = size) (hf : s.length + 1 < fuel) (w : σ) :
    ∃ rc dst', vfsNormalize fuel src dst size w = .ret ((rc, dst'), w) ∧ dst'.len = size ∧
      Leaves (stack size s) rc dst' := by
  rw [vfsNormalize, if_neg (by omega), bind_of_ret (hsrc.get w), hs, Option.getD_some,
    if_neg (by simp), bind_of_ret (Buf.fill_apply (by omega) w)]
  have h0 : ∀ x ∈ render slash ([] : List Str), x ≠ 0 := by
    intro x hx
    rw [List.mem_singleton.mp hx]
    decide
  refine normalizeFrom_spec w fuel 0 [] _ s ⟨by simp, h0, ?_, h2, hlen, hsrc, .inr hs, by omega,
    .inl rfl⟩ hf
  exact Buf.slice_blit (n := 0) (k := 1)

/-- **The code computes `normalize`**, of which the rest of the model speaks. -/
theorem vfsNormalize_normalize (hsrc : src.Holds 0 s) (hs : s.head? = some slash) (hlt : s.length < 2 ^ 32)
    (h2 : 2 ≤ size) (hlen : dst.len = size) (hf : s.length + 1 < fuel) (w : σ) :
    ∃ rc dst', vfsNormalize fuel src dst size w = .ret ((rc, dst'), w) ∧
      match normalize s size with
      | none => rc = errInval
      | some norm => rc = vfsOk ∧ dst'.Holds 0 norm := by
  obtain ⟨rc, dst', hret, -, hans⟩ := vfsNormalize_spec hsrc hs hlt h2 hlen hf w
  refine ⟨rc, dst', hret, ?_⟩
  rw [normalize_eq hs h2]
  cases hst : stack size s with
  | none =>
    rw [hst] at hans
    exact hans
  | some st =>
    rw [hst] at hans
    exact hans

/-- **`vfs_normalize` computes the canonical path**, inside its output, and
of its own output the same. -/
theorem vfs_normalize_canonical (hsrc : src.Holds 0 s) (hs : s.head? = some slash)
    (hlt : s.length < 2 ^ 32) (h2 : 2 ≤ size) (hsize : size < 2 ^ 32) (hlen : dst.len = size)
    (hf : s.length + 1 < fuel) (w : σ) :
    ∃ rc dst', vfsNormalize fuel src dst size w = .ret ((rc, dst'), w) ∧ dst'.len = size ∧
      (rc = vfsOk ∨ rc = errInval) ∧
      (rc = vfsOk ↔ PushesFit size [] (s.splitOn slash)) ∧
      (rc = vfsOk →
        let st := stackOf (s.splitOn slash)
        dst'.Holds 0 (render slash st) ∧
        (∀ c ∈ st, c ≠ [] ∧ c ≠ [dot] ∧ c ≠ [dot, dot] ∧ slash ∉ c) ∧
        (st ≠ [] → (render slash st).getLast? ≠ some slash) ∧
        ∀ fuel' dst₂, dst₂.len = size → (render slash st).length + 1 < fuel' →
          ∃ dst₃, vfsNormalize fuel' dst' dst₂ size w = .ret ((vfsOk, dst₃), w) ∧
            dst₃.Holds 0 (render slash st)) := by
  obtain ⟨rc, dst', hret, hlen', hans⟩ := vfsNormalize_spec hsrc hs hlt h2 hlen hf w
  refine ⟨rc, dst', hret, hlen', ?_⟩
  have hpush : ∀ st, stack size s = some st ↔ PushesFit size [] (s.splitOn slash) ∧
      st = stackOf (s.splitOn slash) := fun st => foldlM_push_iff (s.splitOn slash)
  cases hst : stack size s with
  | none =>
    rw [hst] at hans
    obtain rfl : rc = errInval := hans
    refine ⟨.inr rfl, iff_of_false (by decide) fun hfit => ?_, fun h => absurd h (by decide)⟩
    rw [(hpush _).mpr ⟨hfit, rfl⟩] at hst
    cases hst
  | some st =>
    rw [hst] at hans
    obtain ⟨rfl, hholds⟩ : rc = vfsOk ∧ dst'.Holds 0 (render slash st) := hans
    obtain ⟨hfit, rfl⟩ := (hpush st).mp hst
    have hclean := clean_of_stack hst
    refine ⟨.inl rfl, iff_of_true rfl hfit, fun _ => ⟨hholds, fun c hc => ?_, ?_, ?_⟩⟩
    · exact ⟨(hclean c hc).ne_nil, (hclean c hc).plain.1, (hclean c hc).plain.2, (hclean c hc).noSlash⟩
    · exact getLast?_render_ne fun c hc => ⟨(hclean c hc).ne_nil, (hclean c hc).noSlash⟩
    · -- the rendering is its own stack
      intro fuel' dst₂ hlen₂ hf'
      have hfits := hholds.lt
      rw [Nat.zero_add, hlen'] at hfits
      obtain ⟨rc, dst₃, hret₃, -, hans₃⟩ :=
        vfsNormalize_spec hholds head?_render (hfits.trans hsize) h2 hlen₂ hf' w
      rw [stack_render hclean hfits] at hans₃
      obtain ⟨rfl, hholds₃⟩ := hans₃
      exact ⟨dst₃, hret₃, hholds₃⟩

/-- `/a/../b` into three bytes is `/b`, though `/a` has been there. -/
theorem vfs_normalize_canonical_parent :
    ∃ dst', vfsNormalize 9 ⟨fun k => ([47, 97, 47, 46, 46, 47, 98] : Str).getD k 0, 8⟩ ⟨Bytes.const 1, 3⟩ 3 () =
      .ret ((vfsOk, dst'), ()) ∧ dst'.len = 3 ∧ dst'.Holds 0 [47, 98] := by
  have hsrc : Buf.Holds ⟨fun k => ([47, 97, 47, 46, 46, 47, 98] : Str).getD k 0, 8⟩ 0
      [47, 97, 47, 46, 46, 47, 98] := Buf.holds_of_slice (by decide) (by simp) rfl (by decide)
  have hdst : (⟨Bytes.const 1, 3⟩ : Buf).len = 3 := rfl
  obtain ⟨rc, dst', hret, hlen, -, hiff, hok⟩ := vfs_normalize_canonical hsrc rfl (by decide) (by decide)
    (by decide) hdst (by decide : 7 + 1 < 9) ()
  have hst : stack 3 [47, 97, 47, 46, 46, 47, 98] = some [[98]] := by decide
  have hpush := (foldlM_push_iff _).mp hst
  obtain rfl := hiff.mpr hpush.1
  have hholds := (hok rfl).1
  rw [stackOf, ← hpush.2] at hholds
  exact ⟨dst', hret, hlen, hholds⟩

end Vfs

end Csos

import Csos.Devfs.Tree
/-!
# The device file system — attaching where memory runs out

`devfs_attach_locked` makes and links a node while it still reads the name, and
`devfs_new_node` fails where `kmalloc` does. The name is read component by
component (`comps`); a separator at its end leaves no last component. The calls
that find every `kmalloc` served are those of the model.
-/

namespace Csos

namespace Devfs

open Vfs Ramfs

variable {sb sb' sb'' : Sb} {S T : Set (List Str)} {D : List Str → Option Vdev.Addr}
  {p q r ks : List Str} {n c cur : Ramfs.Addr} {k t name : Str} {d : Vdev.Addr}
  {mem : ℕ → Option Ramfs.Addr} {fuel : ℕ} {trailing : Bool}

/-! ## The call -/

/-- The loop of `devfs_attach_locked` at `cur`; `mem` is what `kmalloc` gives
next, if anything. -/
def attachMemLoop (d : Vdev.Addr) :
    ℕ → Str → Ramfs.Addr → (ℕ → Option Ramfs.Addr) → Sb → ℤ × Sb
  | 0, _, _, _, sb => (errInval, sb)
  | fuel + 1, p, cur, mem, sb =>
    let p := p.dropWhile (· = slash)
    if p = [] then (errInval, sb)
    else
      let comp := p.takeWhile (· ≠ slash)
      let p := p.dropWhile (· ≠ slash)
      if nameMax ≤ comp.length then (errInval, sb)
      else
        match childFind sb.tree cur comp with
        | some child =>
          if p = [] then attachLast sb d child
          else if (sb.tree.node child).isDir = false then (errNotdir, sb)
          else attachMemLoop d fuel p child mem sb
        | none =>
          match mem 0 with
          | none => (errNomem, sb)
          | some child =>
            let sb := newChild sb cur child comp (p ≠ [])
            if p = [] then attachLast sb d child
            else attachMemLoop d fuel p child (fun i => mem (i + 1)) sb

/-- `devfs_attach_locked`, where `kmalloc` may fail. -/
def attachLocked (name : Str) (d : Vdev.Addr) (mem : ℕ → Option Ramfs.Addr) (sb : Sb) : ℤ × Sb :=
  if name = [] then (errInval, sb)
  else attachMemLoop d (name.length + 1) name sb.tree.root mem sb

theorem attachMemLoop_some (d : Vdev.Addr) (fuel : ℕ) (p : Str) (cur : Ramfs.Addr)
    (mem : ℕ → Ramfs.Addr) (sb : Sb) :
    attachMemLoop d fuel p cur (fun i => some (mem i)) sb = (attachLoop d fuel p cur mem sb).1 := by
  induction fuel generalizing p cur mem sb with
  | zero => rfl
  | succ fuel ih =>
    rw [attachMemLoop, attachLoop]
    dsimp only
    split
    · rfl
    split
    · rfl
    cases childFind sb.tree cur ((p.dropWhile (· = slash)).takeWhile (· ≠ slash)) with
    | some child =>
      dsimp only
      split
      · rfl
      split
      · rfl
      exact ih _ _ _ _
    | none =>
      dsimp only
      split
      · rfl
      exact ih _ _ _ _

/-- Where every `kmalloc` is served, the call is that of the model. -/
theorem attachLocked_some (name : Str) (d : Vdev.Addr) (mem : ℕ → Ramfs.Addr) (sb : Sb) :
    attachLocked name d (fun i => some (mem i)) sb = (devfsAttach name d mem sb).1 := by
  rw [attachLocked, devfsAttach]
  split
  · rfl
  · exact attachMemLoop_some _ _ _ _ _ _

/-! ## The components of a name -/

/-- The components of a name. -/
def comps (t : Str) : List Str := (t.splitOn slash).filter (· ≠ [])

theorem comps_slash (t : Str) : comps (slash :: t) = comps t := by
  have h : ([] ++ slash :: t).splitOn slash = [].splitOn slash ++ t.splitOn slash :=
    List.splitOn_append_cons_self ..
  rw [List.nil_append] at h
  rw [comps, h, List.filter_append]
  rfl

theorem comps_clean (hk : k ≠ []) (hc : slash ∉ k) : comps k = [k] := by
  rw [comps, List.splitOn_eq_singleton hc]
  simp [hk]

theorem comps_cons (hk : k ≠ []) (hc : slash ∉ k) (t : Str) :
    comps (k ++ slash :: t) = k :: comps t := by
  rw [comps, List.splitOn_append_cons_self, List.splitOn_eq_singleton hc, List.filter_append]
  simp [hk, comps]

/-- Separators before a component are passed over. -/
theorem comps_dropWhile (t : Str) : comps (t.dropWhile (· = slash)) = comps t := by
  induction t with
  | nil => rfl
  | cons b t ih =>
    by_cases hb : b = slash
    · subst hb
      rw [List.dropWhile_cons_of_pos (by simp), ih, comps_slash]
    · rw [List.dropWhile_cons_of_neg (by simpa using hb)]

/-- **The first component**, as the loops take it. -/
theorem comps_step (hp : t.dropWhile (· = slash) ≠ []) :
    comps t = (t.dropWhile (· = slash)).takeWhile (· ≠ slash) ::
        comps ((t.dropWhile (· = slash)).dropWhile (· ≠ slash)) ∧
      (t.dropWhile (· = slash)).takeWhile (· ≠ slash) ≠ [] ∧
      slash ∉ (t.dropWhile (· = slash)).takeWhile (· ≠ slash) := by
  obtain ⟨b, u, hu⟩ := List.exists_cons_of_ne_nil hp
  have hb : b ≠ slash := by
    have := List.head_dropWhile_not (· = slash) hp
    simpa [hu] using this
  rw [← comps_dropWhile t, hu]
  have hsplit : (b :: u).takeWhile (· ≠ slash) ++ (b :: u).dropWhile (· ≠ slash) = b :: u :=
    List.takeWhile_append_dropWhile
  have hne : (b :: u).takeWhile (· ≠ slash) ≠ [] := by simp [hb]
  have hclean : slash ∉ (b :: u).takeWhile (· ≠ slash) := fun hm =>
    absurd (List.mem_takeWhile_imp hm) (by simp)
  refine ⟨?_, hne, hclean⟩
  cases hrest : (b :: u).dropWhile (· ≠ slash) with
  | nil =>
    rw [hrest, List.append_nil] at hsplit
    rw [hsplit] at hne hclean ⊢
    exact comps_clean hne hclean
  | cons x v =>
    have hx : x = slash := by
      have := List.head_dropWhile_not (· ≠ slash) (l := b :: u) (by rw [hrest]; simp)
      simp only [hrest, List.head_cons] at this
      simpa using this
    subst hx
    rw [hrest] at hsplit
    conv_lhs => rw [← hsplit]
    rw [comps_cons hne hclean, comps_slash]

theorem comps_eq_nil (hp : t.dropWhile (· = slash) = []) : comps t = [] := by
  rw [← comps_dropWhile, hp]
  rfl

/-- The loops read a proper end of the string next. -/
theorem rest_suffix (t : Str) :
    (t.dropWhile (· = slash)).dropWhile (· ≠ slash) <:+ t :=
  (List.dropWhile_suffix _).trans (List.dropWhile_suffix _)

theorem rest_length (hp : t.dropWhile (· = slash) ≠ []) :
    ((t.dropWhile (· = slash)).dropWhile (· ≠ slash)).length < t.length := by
  have h1 : ((t.dropWhile (· = slash)).takeWhile (· ≠ slash) ++
      (t.dropWhile (· = slash)).dropWhile (· ≠ slash)).length =
        (t.dropWhile (· = slash)).length :=
    congrArg List.length List.takeWhile_append_dropWhile
  rw [List.length_append] at h1
  have h2 := List.length_pos_of_ne_nil (comps_step hp).2.1
  have h3 := (List.dropWhile_suffix (l := t) (· = slash)).length_le
  omega

/-- **The string ends with its last component**, unless a separator follows. -/
theorem rest_eq_nil_iff (hp : t.dropWhile (· = slash) ≠ []) :
    (t.dropWhile (· = slash)).dropWhile (· ≠ slash) = [] ↔
      comps ((t.dropWhile (· = slash)).dropWhile (· ≠ slash)) = [] ∧ t.getLast? ≠ some slash := by
  obtain ⟨-, hne, hclean⟩ := comps_step hp
  have hsplit : (t.dropWhile (· = slash)).takeWhile (· ≠ slash) ++
      (t.dropWhile (· = slash)).dropWhile (· ≠ slash) = t.dropWhile (· = slash) :=
    List.takeWhile_append_dropWhile
  have hlast : (t.dropWhile (· = slash)).getLast? = t.getLast? := by
    conv_rhs => rw [← List.takeWhile_append_dropWhile (p := (· = slash)) (l := t)]
    rw [List.getLast?_append_of_ne_nil _ hp]
  generalize (t.dropWhile (· = slash)).takeWhile (· ≠ slash) = k at *
  generalize (t.dropWhile (· = slash)).dropWhile (· ≠ slash) = u at *
  constructor
  · rintro rfl
    rw [List.append_nil] at hsplit
    refine ⟨rfl, fun hs => hclean ?_⟩
    rw [← hlast, ← hsplit] at hs
    exact List.mem_of_getLast? hs
  · rintro ⟨hu, hs⟩
    by_contra hun
    refine hs ?_
    rw [← hlast, ← hsplit, List.getLast?_append_of_ne_nil _ hun]
    -- what is left holds separators only
    have hall : u.dropWhile (· = slash) = [] := by
      by_contra hd
      rw [(comps_step hd).1] at hu
      exact absurd hu (by simp)
    have hmem := List.dropWhile_eq_nil_iff.mp hall
    rw [List.getLast?_eq_some_getLast hun]
    exact congrArg some (by simpa using hmem _ (List.getLast_mem hun))

/-- What the components of a name are made of. -/
theorem mem_comps (hk : k ∈ comps t) :
    (k ≠ [] ∧ slash ∉ k) ∧ k.length ≤ t.length ∧ ∀ b ∈ k, b ∈ t := by
  induction ht : t.length using Nat.strong_induction_on generalizing t with
  | _ N ih =>
    by_cases hp : t.dropWhile (· = slash) = []
    · rw [comps_eq_nil hp] at hk
      exact absurd hk (by simp)
    obtain ⟨hstep, hne, hclean⟩ := comps_step hp
    rw [hstep] at hk
    rcases List.mem_cons.mp hk with rfl | hk
    · have hpre := List.takeWhile_prefix (l := t.dropWhile (· = slash)) (· ≠ slash)
      have hsuf := List.dropWhile_suffix (l := t) (· = slash)
      exact ⟨⟨hne, hclean⟩, ht ▸ hpre.length_le.trans hsuf.length_le,
        fun b hb => hsuf.subset (hpre.subset hb)⟩
    · obtain ⟨h1, h2, h3⟩ := ih _ (ht ▸ rest_length hp) hk rfl
      exact ⟨h1, h2.trans (ht ▸ (rest_suffix t).length_le), fun b hb => (rest_suffix t).subset (h3 b hb)⟩

theorem comps_nameOk (hlen : t.length < nameMax) (h0 : 0 ∉ t) (hk : k ∈ comps t) : NameOk k := by
  obtain ⟨⟨h1, h2⟩, h3, h4⟩ := mem_comps hk
  exact ⟨⟨h1, h2, fun hz => h0 (h4 0 hz)⟩, h3.trans_lt hlen⟩

theorem comps_length_le (t : Str) : (comps t).length ≤ t.length := by
  induction ht : t.length using Nat.strong_induction_on generalizing t with
  | _ N ih =>
    by_cases hp : t.dropWhile (· = slash) = []
    · rw [comps_eq_nil hp]
      exact Nat.zero_le _
    · have hlt := rest_length hp
      have := ih _ (ht ▸ hlt) _ rfl
      rw [(comps_step hp).1, List.length_cons]
      omega

/-- `devfs_find_locked` goes through the components of any string. -/
theorem lookupLoop_comps (s : Ramfs.State) (cur : Ramfs.Addr) (hf : t.length < fuel) :
    lookupLoop s fuel t cur = walk s cur (comps t) := by
  induction fuel generalizing t cur with
  | zero => omega
  | succ fuel ih =>
    rw [lookupLoop]
    by_cases hp : t.dropWhile (· = slash) = []
    · rw [comps_eq_nil hp, hp]
      rfl
    obtain ⟨hstep, hne, -⟩ := comps_step hp
    rw [hstep, if_neg hne, walk]
    split
    · rfl
    cases childFind s cur ((t.dropWhile (· = slash)).takeWhile (· ≠ slash)) with
    | none => rfl
    | some c =>
      have hlt := rest_length hp
      exact ih _ (by omega)

/-- The loop of `devfs_attach_locked` over the components, `trailing` where a
separator follows the last. -/
def attachWalk (d : Vdev.Addr) (trailing : Bool) :
    List Str → Ramfs.Addr → (ℕ → Option Ramfs.Addr) → Sb → ℤ × Sb
  | [], _, _, sb => (errInval, sb)
  | k :: ks, cur, mem, sb =>
    match childFind sb.tree cur k with
    | some child =>
      if ks = [] ∧ trailing = false then attachLast sb d child
      else if (sb.tree.node child).isDir = false then (errNotdir, sb)
      else attachWalk d trailing ks child mem sb
    | none =>
      match mem 0 with
      | none => (errNomem, sb)
      | some child =>
        let sb := newChild sb cur child k (¬ (ks = [] ∧ trailing = false))
        if ks = [] ∧ trailing = false then attachLast sb d child
        else attachWalk d trailing ks child (fun i => mem (i + 1)) sb

/-- A name that ends with a separator. -/
def trails (t : Str) : Bool := t.getLast? = some slash

theorem attachMemLoop_eq (hf : t.length < fuel) (hlen : t.length < nameMax) :
    attachMemLoop d fuel t cur mem sb = attachWalk d (trails t) (comps t) cur mem sb := by
  induction fuel generalizing t cur mem sb with
  | zero => omega
  | succ fuel ih =>
    rw [attachMemLoop]
    dsimp only
    by_cases hp : t.dropWhile (· = slash) = []
    · rw [if_pos hp, comps_eq_nil hp]
      rfl
    obtain ⟨hstep, hne, hclean⟩ := comps_step hp
    have hshort : ¬ nameMax ≤ ((t.dropWhile (· = slash)).takeWhile (· ≠ slash)).length := by
      have := (mem_comps (hstep ▸ List.mem_cons_self)).2.1
      omega
    have hlast := rest_eq_nil_iff hp
    have htr : t.getLast? ≠ some slash ↔ trails t = false := by simp [trails]
    rw [htr] at hlast
    have hrec : (t.dropWhile (· = slash)).dropWhile (· ≠ slash) ≠ [] →
        trails ((t.dropWhile (· = slash)).dropWhile (· ≠ slash)) = trails t := fun hr => by
      obtain ⟨u, hu⟩ := rest_suffix t
      rw [trails, trails]
      conv_rhs => rw [← hu]
      rw [List.getLast?_append_of_ne_nil _ hr]
    have hlt := rest_length hp
    rw [if_neg hp, if_neg hshort, hstep, attachWalk]
    simp only [← hlast]
    generalize (t.dropWhile (· = slash)).takeWhile (· ≠ slash) = k at *
    generalize (t.dropWhile (· = slash)).dropWhile (· ≠ slash) = u at *
    have hnext : u ≠ [] → ∀ cur mem sb, attachMemLoop d fuel u cur mem sb =
        attachWalk d (trails t) (comps u) cur mem sb := fun hu cur mem sb => by
      rw [ih (by omega) (by omega), hrec hu]
    cases childFind sb.tree cur k with
    | some child =>
      dsimp only
      by_cases hu : u = []
      · rw [if_pos hu, if_pos hu]
      rw [if_neg hu, if_neg hu]
      split
      · rfl
      · exact hnext hu _ _ _
    | none =>
      dsimp only
      cases mem 0 with
      | none => rfl
      | some child =>
        dsimp only
        by_cases hu : u = []
        · rw [if_pos hu, if_pos hu]
        · rw [if_neg hu, if_neg hu, hnext hu]

theorem attachLocked_eq (hlen : name.length < nameMax) :
    attachLocked name d mem sb = attachWalk d (trails name) (comps name) sb.tree.root mem sb := by
  rw [attachLocked]
  split
  · rename_i hn
    subst hn
    rfl
  · exact attachMemLoop_eq (Nat.lt_succ_self _) hlen

end Devfs

end Csos

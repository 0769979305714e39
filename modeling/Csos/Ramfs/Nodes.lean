import Csos.Common.Links
import Csos.Common.Paths
import Csos.Ramfs.Model
/-!
# The RAM file system — the tree of nodes

The children of a node are a list through `sibling`, in order of their names,
and point back at it (`Children`). Linking a new node and unlinking one are
the two changes of the tree; all other calls leave its shape alone. What a
path leads to is read through `ramfs_child_find`.
-/

namespace Csos

namespace Ramfs

open Vfs

variable {s s' : State} {a b c d n : Addr} {l l₁ l₂ : List Addr} {name comp : Str} {fuel : ℕ}
  {prev v : Option Addr} {f : Node → Node}

/-! ## Names -/

/-- `kernel_strcmp` orders names as lists of bytes. -/
theorem strcmp_neg_iff : ∀ {x y : Str}, 0 ∉ x → 0 ∉ y → (strcmp x y < 0 ↔ x < y)
  | [], [], _, _ => by simp [strcmp]
  | [], b :: y, _, hy => by
    have hb : b ≠ 0 := fun h => hy (by simp [h])
    have hpos : 0 < b.toNat := Nat.pos_of_ne_zero fun h => hb (UInt8.toNat_inj.mp h)
    simp only [strcmp, List.nil_lt_cons, iff_true]
    omega
  | a :: x, [], _, _ => by simp [strcmp]
  | a :: x, b :: y, hx, hy => by
    have ih := strcmp_neg_iff (x := x) (y := y) (fun h => hx (List.mem_cons_of_mem _ h))
      (fun h => hy (List.mem_cons_of_mem _ h))
    rw [strcmp, List.cons_lt_cons_iff]
    by_cases hab : a = b
    · subst hab
      rw [if_pos rfl, ih]
      simp
    · rw [if_neg hab]
      have hlt : a < b ↔ a.toNat < b.toNat := UInt8.lt_iff_toNat_lt
      simp only [hab, false_and, or_false]
      rw [hlt]
      omega

/-- A name that a node may have. -/
def NameOk (x : Str) : Prop := Component x ∧ x.length < nameMax

/-! ## Writes to nodes -/

theorem modify_node (s : State) (a : Addr) (f : Node → Node) (b : Addr) :
    (s.modify a f).node b = if b = a then f (s.node b) else s.node b := by
  change Function.update s.node a (f (s.node a)) b = _
  by_cases h : b = a
  · subst h
    rw [if_pos rfl, Function.update_self]
  · rw [if_neg h, Function.update_of_ne h]

/-- A node when `*pp = v`, `prev` being the node whose link `pp` is. -/
def relink (x : Node) (dir : Addr) (prev v : Option Addr) (b : Addr) : Node :=
  { x with
    sibling := if prev = some b then v else x.sibling
    child := if prev = none ∧ b = dir then v else x.child }

theorem setLink_node (s : State) (dir : Addr) (prev v : Option Addr) (b : Addr) :
    (setLink s dir prev v).node b = relink (s.node b) dir prev v b := by
  cases prev with
  | none =>
    rw [setLink, modify_node, relink]
    by_cases h : b = dir <;> simp [h]
  | some p =>
    rw [setLink, modify_node, relink]
    by_cases h : b = p
    · simp [h]
    · simp [h, Ne.symm h]

@[simp] theorem setLink_live : (setLink s d prev v).live = s.live := by cases prev <;> rfl

@[simp] theorem setLink_root : (setLink s d prev v).root = s.root := by cases prev <;> rfl

@[simp] theorem setLink_files : (setLink s d prev v).files = s.files := by cases prev <;> rfl

@[simp] theorem setLink_dirs : (setLink s d prev v).dirs = s.dirs := by cases prev <;> rfl

/-! ## The lists of children -/

/-- The `sibling` links. -/
def State.next (s : State) (x : Addr) : Option Addr := (s.node x).sibling

/-- **The children of a node.** -/
structure Children (s : State) (a : Addr) (l : List Addr) : Prop where
  linked : Linked s.next (s.node a).child l
  sorted : l.Pairwise fun x y => (s.node x).name < (s.node y).name
  kid : ∀ c ∈ l, s.live c = true ∧ (s.node c).parent = some a ∧ NameOk (s.node c).name

theorem findLoop_eq {p : Option Addr} (h : Linked s.next p l) (hf : l.length ≤ fuel) :
    findLoop s comp fuel p = l.find? fun c => (s.node c).name = comp := by
  induction l generalizing p fuel with
  | nil =>
    obtain rfl : p = none := h
    cases fuel <;> rfl
  | cons x l ih =>
    obtain ⟨rfl, h2⟩ := h
    obtain ⟨fuel, rfl⟩ : ∃ k, fuel = k + 1 := ⟨fuel - 1, by simp at hf; omega⟩
    rw [findLoop, List.find?_cons]
    by_cases hx : (s.node x).name = comp
    · simp [hx]
    · rw [if_neg hx, decide_eq_false hx]
      exact ih h2 (by simpa using hf)

theorem getLast?_cons_or (x : Addr) (l : List Addr) :
    (x :: l).getLast?.or prev = l.getLast?.or (some x) := by
  cases l with
  | nil => rfl
  | cons y l =>
    rw [List.getLast?_cons_cons]
    obtain ⟨z, hz⟩ := Option.ne_none_iff_exists'.mp (show (y :: l).getLast? ≠ none by simp)
    rw [hz]
    rfl

theorem linkLoop_eq {p : Option Addr} (h : Linked s.next p (l₁ ++ l₂)) (hf : (l₁ ++ l₂).length ≤ fuel)
    (h1 : ∀ x ∈ l₁, strcmp (s.node x).name name < 0)
    (h2 : ∀ x ∈ l₂.head?, ¬ strcmp (s.node x).name name < 0) :
    linkLoop s name fuel prev p = (l₁.getLast?.or prev, l₂.head?) := by
  induction l₁ generalizing p fuel prev with
  | nil =>
    cases l₂ with
    | nil =>
      obtain rfl : p = none := h
      cases fuel <;> rfl
    | cons x l₂ =>
      obtain ⟨rfl, -⟩ := h
      obtain ⟨fuel, rfl⟩ : ∃ k, fuel = k + 1 := ⟨fuel - 1, by simp at hf; omega⟩
      rw [linkLoop, if_neg (h2 x rfl)]
      rfl
  | cons x l₁ ih =>
    obtain ⟨rfl, h3⟩ := h
    obtain ⟨fuel, rfl⟩ : ∃ k, fuel = k + 1 := ⟨fuel - 1, by simp at hf; omega⟩
    rw [linkLoop, if_pos (h1 x List.mem_cons_self)]
    rw [getLast?_cons_or]
    exact ih h3 (by simpa using hf) fun y hy => h1 y (List.mem_cons_of_mem _ hy)

theorem unlinkLoop_eq {p : Option Addr} (h : Linked s.next p (l₁ ++ n :: l₂))
    (hf : (l₁ ++ n :: l₂).length ≤ fuel) (hn : n ∉ l₁) :
    unlinkLoop s n fuel prev p = (l₁.getLast?.or prev, some n) := by
  induction l₁ generalizing p fuel prev with
  | nil =>
    obtain ⟨rfl, -⟩ := h
    obtain ⟨fuel, rfl⟩ : ∃ k, fuel = k + 1 := ⟨fuel - 1, by simp at hf; omega⟩
    rw [unlinkLoop, if_neg (not_not.mpr rfl)]
    rfl
  | cons x l₁ ih =>
    obtain ⟨rfl, h3⟩ := h
    obtain ⟨fuel, rfl⟩ : ∃ k, fuel = k + 1 := ⟨fuel - 1, by simp at hf; omega⟩
    rw [List.mem_cons, not_or] at hn
    rw [unlinkLoop, if_pos (Ne.symm hn.1)]
    rw [getLast?_cons_or]
    exact ih h3 (by simpa using hf) hn.2

/-! ## The shape of the tree -/

/-- **The shape of the tree.** -/
structure Shape (s : State) : Prop where
  bound : ∀ a, s.live a = true → a < heapEnd
  root_live : s.live s.root = true
  root_dir : (s.node s.root).isDir = true
  root_parent : (s.node s.root).parent = none
  children : ∀ a, s.live a = true → ∃ l, Children s a l
  file : ∀ a, s.live a = true → (s.node a).isDir = false → (s.node a).child = none
  member : ∀ c a, s.live c = true → (s.node c).parent = some a →
    s.live a = true ∧ ∃ l, Children s a l ∧ c ∈ l

theorem Children.unique (h₁ : Children s a l₁) (h₂ : Children s a l₂) : l₁ = l₂ :=
  h₁.linked.unique h₂.linked

theorem Children.length_le (h : Shape s) (hc : Children s a l) : l.length ≤ heapEnd := by
  rw [← List.toFinset_card_of_nodup hc.linked.nodup, ← Finset.card_range heapEnd]
  refine Finset.card_le_card fun x hx => Finset.mem_range.mpr ?_
  exact h.bound x (hc.kid x (List.mem_toFinset.mp hx)).1

theorem Children.childFind_eq (h : Shape s) (hc : Children s a l) (m : Str) :
    childFind s a m = l.find? fun c => (s.node c).name = m :=
  findLoop_eq hc.linked (hc.length_le h)

theorem Children.name_inj (hc : Children s a l) (hb : b ∈ l) (hd : d ∈ l)
    (he : (s.node b).name = (s.node d).name) : b = d := by
  have hnd : (l.map fun x => (s.node x).name).Nodup :=
    List.pairwise_map.mpr (hc.sorted.imp fun h => ne_of_lt h)
  exact List.inj_on_of_nodup_map hnd hb hd he

/-- **What `ramfs_child_find` finds.** -/
theorem Children.childFind_iff (h : Shape s) (hc : Children s a l) {m : Str} :
    childFind s a m = some c ↔ c ∈ l ∧ (s.node c).name = m := by
  rw [hc.childFind_eq h]
  constructor
  · intro hf
    exact ⟨List.mem_of_find?_eq_some hf, by simpa using List.find?_some hf⟩
  · rintro ⟨hcl, rfl⟩
    cases hf : l.find? fun x => (s.node x).name = (s.node c).name with
    | none => exact absurd (List.find?_eq_none.mp hf c hcl) (by simp)
    | some x =>
      rw [hc.name_inj (List.mem_of_find?_eq_some hf) hcl (by simpa using List.find?_some hf)]

theorem Shape.childFind_kid (h : Shape s) (ha : s.live a = true) {m : Str}
    (hf : childFind s a m = some c) :
    s.live c = true ∧ (s.node c).parent = some a ∧ (s.node c).name = m ∧ NameOk m := by
  obtain ⟨l, hl⟩ := h.children a ha
  obtain ⟨hc, rfl⟩ := (hl.childFind_iff h).mp hf
  obtain ⟨h1, h2, h3⟩ := hl.kid c hc
  exact ⟨h1, h2, rfl, h3⟩

/-- A child is found under its name. -/
theorem Shape.childFind_name (h : Shape s) (hc : s.live c = true)
    (hp : (s.node c).parent = some a) : childFind s a (s.node c).name = some c := by
  obtain ⟨-, l, hl, hcl⟩ := h.member c a hc hp
  exact (hl.childFind_iff h).mpr ⟨hcl, rfl⟩

/-- What a path leads to is in use. -/
theorem Shape.follow_live (h : Shape s) {p : List Str} (hp : follow (childFind s) s.root p = some a) :
    s.live a = true := by
  induction p using List.reverseRecOn generalizing a with
  | nil =>
    obtain rfl := Option.some.inj hp
    exact h.root_live
  | append_singleton p m ih =>
    obtain ⟨b, hb, hm⟩ := Option.bind_eq_some_iff.mp (follow_concat.symm.trans hp)
    exact (h.childFind_kid (ih hb) hm).1

theorem Shape.rooted (h : Shape s) : Rooted (childFind s) s.root := by
  refine ⟨fun p q a b k m c hp hq hk hm => ?_, fun p a k hp hk => ?_⟩
  · obtain ⟨-, h1, h2, -⟩ := h.childFind_kid (h.follow_live hp) hk
    obtain ⟨-, h3, h4, -⟩ := h.childFind_kid (h.follow_live hq) hm
    exact ⟨Option.some.inj (h1.symm.trans h3), h2.symm.trans h4⟩
  · obtain ⟨-, h1, -⟩ := h.childFind_kid (h.follow_live hp) hk
    exact absurd (h.root_parent.symm.trans h1) (by simp)

/-! ## Writes that leave the shape alone -/

/-- The nodes hang together as before. -/
structure SameShape (s s' : State) : Prop where
  live : s'.live = s.live
  root : s'.root = s.root
  name : ∀ a, (s'.node a).name = (s.node a).name
  isDir : ∀ a, (s'.node a).isDir = (s.node a).isDir
  parent : ∀ a, (s'.node a).parent = (s.node a).parent
  child : ∀ a, (s'.node a).child = (s.node a).child
  sibling : ∀ a, (s'.node a).sibling = (s.node a).sibling

theorem SameShape.refl (s : State) : SameShape s s :=
  ⟨rfl, rfl, fun _ => rfl, fun _ => rfl, fun _ => rfl, fun _ => rfl, fun _ => rfl⟩

theorem SameShape.trans {s'' : State} (h : SameShape s s') (h' : SameShape s' s'') :
    SameShape s s'' :=
  ⟨h'.live.trans h.live, h'.root.trans h.root, fun a => (h'.name a).trans (h.name a),
    fun a => (h'.isDir a).trans (h.isDir a), fun a => (h'.parent a).trans (h.parent a),
    fun a => (h'.child a).trans (h.child a), fun a => (h'.sibling a).trans (h.sibling a)⟩

/-- The handles do not matter. -/
theorem SameShape.handles (h : SameShape s s') (files : Addr → Option File) (dirs : Addr → Option Dir) :
    SameShape s { s' with files := files, dirs := dirs } :=
  ⟨h.live, h.root, h.name, h.isDir, h.parent, h.child, h.sibling⟩

theorem SameShape.modify (a : Addr) (hname : (f (s.node a)).name = (s.node a).name)
    (hdir : (f (s.node a)).isDir = (s.node a).isDir)
    (hparent : (f (s.node a)).parent = (s.node a).parent)
    (hchild : (f (s.node a)).child = (s.node a).child)
    (hsibling : (f (s.node a)).sibling = (s.node a).sibling) : SameShape s (s.modify a f) := by
  refine ⟨rfl, rfl, fun b => ?_, fun b => ?_, fun b => ?_, fun b => ?_, fun b => ?_⟩ <;>
    rw [modify_node] <;> split
  all_goals first | rfl | (rename_i hb; subst hb; assumption)

theorem SameShape.childFind (h : SameShape s s') (a : Addr) (m : Str) :
    Ramfs.childFind s' a m = Ramfs.childFind s a m := by
  have hloop : ∀ fuel p, findLoop s' m fuel p = findLoop s m fuel p := by
    intro fuel
    induction fuel with
    | zero => exact fun _ => rfl
    | succ fuel ih =>
      intro p
      cases p with
      | none => rfl
      | some c => rw [findLoop, findLoop, h.name, h.sibling, ih]
  rw [Ramfs.childFind, Ramfs.childFind, h.child, hloop]

theorem SameShape.children (h : SameShape s s') (hc : Children s a l) : Children s' a l := by
  refine ⟨?_, ?_, fun c hcl => ?_⟩
  · rw [h.child]
    exact hc.linked.congr fun x _ => h.sibling x
  · exact hc.sorted.imp fun {x y} hxy => by rwa [h.name, h.name]
  · rw [h.live, h.parent, h.name]
    exact hc.kid c hcl

theorem SameShape.shape (h : SameShape s s') (hs : Shape s) : Shape s' := by
  refine ⟨fun a ha => hs.bound a (h.live ▸ ha), ?_, ?_, ?_, fun a ha => ?_, fun a ha hd => ?_,
    fun c a hc hp => ?_⟩
  · rw [h.live, h.root]
    exact hs.root_live
  · rw [h.isDir, h.root]
    exact hs.root_dir
  · rw [h.parent, h.root]
    exact hs.root_parent
  · obtain ⟨l, hl⟩ := hs.children a (h.live ▸ ha)
    exact ⟨l, h.children hl⟩
  · rw [h.child]
    exact hs.file a (h.live ▸ ha) ((h.isDir a).symm.trans hd)
  · obtain ⟨h1, l, hl, hcl⟩ := hs.member c a (h.live ▸ hc) ((h.parent c).symm.trans hp)
    exact ⟨h.live ▸ h1, l, h.children hl, hcl⟩

theorem SameShape.follow (h : SameShape s s') (p : List Str) :
    follow (Ramfs.childFind s') s'.root p = follow (Ramfs.childFind s) s.root p := by
  rw [h.root]
  exact follow_congr (fun _ => True) trivial (fun _ _ _ _ _ => trivial) fun a k _ => h.childFind a k

end Ramfs

end Csos

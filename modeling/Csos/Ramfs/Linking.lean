import Csos.Ramfs.Nodes
/-!
# The RAM file system — linking and unlinking

`ramfs_create_locked` puts a new node into the list of its parent, where its
name belongs; `ramfs_rmdir` takes one without children out of it. Either
changes what one name in one directory leads to, and keeps the shape of the
tree.
-/

namespace Csos

namespace Ramfs

open Vfs

variable {s s' : State} {a b c dir n : Addr} {l l₁ l₂ : List Addr} {leaf : Str} {isDir : Bool}

/-- What a node holds, its links in the list apart. -/
structure SameInfo (x y : Node) : Prop where
  name : y.name = x.name
  data : y.data = x.data
  size : y.size = x.size
  cap : y.cap = x.cap
  isDir : y.isDir = x.isDir
  refs : y.refs = x.refs
  parent : y.parent = x.parent

theorem SameInfo.refl (x : Node) : SameInfo x x := ⟨rfl, rfl, rfl, rfl, rfl, rfl, rfl⟩

theorem SameInfo.trans {x y z : Node} (h : SameInfo x y) (h' : SameInfo y z) : SameInfo x z :=
  ⟨h'.name.trans h.name, h'.data.trans h.data, h'.size.trans h.size, h'.cap.trans h.cap,
    h'.isDir.trans h.isDir, h'.refs.trans h.refs, h'.parent.trans h.parent⟩

/-! ## Links that are written -/

/-- `*pp = v` for the children of `dir`, `l₁` being those before `pp`; the node
`n` apart. -/
def Relinked (s s' : State) (dir n : Addr) (l₁ : List Addr) (v : Option Addr) : Prop :=
  ∀ b, b ≠ n → s'.node b = relink (s.node b) dir l₁.getLast? v b

section Relinked

variable {v : Option Addr} (hr : Relinked s s' dir n l₁ v)
include hr

theorem Relinked.info (hb : b ≠ n) : SameInfo (s.node b) (s'.node b) := by
  rw [hr b hb]
  exact ⟨rfl, rfl, rfl, rfl, rfl, rfl, rfl⟩

theorem Relinked.next (hb : b ≠ n) (hlast : l₁.getLast? ≠ some b) : s'.next b = s.next b := by
  rw [State.next, hr b hb]
  exact if_neg hlast

theorem Relinked.next_last (hb : b ≠ n) (hlast : l₁.getLast? = some b) : s'.next b = v := by
  rw [State.next, hr b hb]
  exact if_pos hlast

theorem Relinked.child_of_ne (hb : b ≠ n) (hbd : b ≠ dir) : (s'.node b).child = (s.node b).child := by
  rw [hr b hb]
  exact if_neg fun hc => hbd hc.2

theorem Relinked.child_dir (hdn : dir ≠ n) :
    (s'.node dir).child = if l₁ = [] then v else (s.node dir).child := by
  rw [hr dir hdn, relink]
  by_cases hl : l₁ = [] <;> simp [hl]

/-- The children of another node are not touched. -/
theorem Relinked.children {lb : List Addr} (hkid : ∀ x ∈ l₁, (s.node x).parent = some dir)
    (hlb : Children s b lb) (hbn : b ≠ n) (hbd : b ≠ dir) (hn : n ∉ lb)
    (hlive : ∀ x ∈ lb, s'.live x = true) : Children s' b lb := by
  have hne : ∀ x ∈ lb, x ≠ n := fun x hx => ne_of_mem_of_not_mem hx hn
  refine ⟨?_, hlb.sorted.imp_of_mem fun {x y} hx hy hxy => ?_, fun c hc => ?_⟩
  · rw [hr.child_of_ne hbn hbd]
    -- a sibling whose link is written is a child of the directory
    refine hlb.linked.congr fun x hx => hr.next (hne x hx) fun hlast => hbd ?_
    have hx1 := hkid x (List.mem_of_getLast? hlast)
    exact Option.some.inj ((hlb.kid x hx).2.1.symm.trans hx1)
  · rwa [(hr.info (hne x hx)).name, (hr.info (hne y hy)).name]
  · obtain ⟨-, k2, k3⟩ := hlb.kid c hc
    have hi := hr.info (hne c hc)
    exact ⟨hlive c hc, hi.parent.trans k2, hi.name ▸ k3⟩

end Relinked

/-! ## All but one node -/

/-- The tree of `s'` is that of `s`, the node `n` apart, which is among the
children `l` of `dir` before or among the children `l'` after. -/
structure Around (s s' : State) (dir n : Addr) (l l' : List Addr) : Prop where
  live : ∀ x, x ≠ n → s'.live x = s.live x
  root : s'.root = s.root
  root_ne : s.root ≠ n
  dir_ne : dir ≠ n
  dir_isDir : (s.node dir).isDir = true
  info : ∀ x, x ≠ n → SameInfo (s.node x) (s'.node x)
  child : ∀ x, x ≠ n → x ≠ dir → (s'.node x).child = (s.node x).child
  orphan : ∀ c, s.live c = true → c ≠ n → (s.node c).parent ≠ some n
  kids : Children s dir l
  kids' : Children s' dir l'
  mem : ∀ c, c ≠ n → (c ∈ l' ↔ c ∈ l)
  alone : ∀ b lb, b ≠ dir → Children s b lb → n ∉ lb
  others : ∀ b lb, s.live b = true → b ≠ n → b ≠ dir → Children s b lb → Children s' b lb

section Around

variable {l' : List Addr} (A : Around s s' dir n l l') (h : Shape s)
include A h

/-- **The shape is kept** if it is right at the node. -/
theorem Around.shape (hn : s'.live n = true → n < heapEnd ∧ (∃ l, Children s' n l) ∧
    ((s'.node n).isDir = false → (s'.node n).child = none) ∧
    ∀ a, (s'.node n).parent = some a → a = dir ∧ s.live dir = true ∧ n ∈ l') : Shape s' := by
  refine ⟨fun a ha => ?_, ?_, ?_, ?_, fun a ha => ?_, fun a ha hda => ?_, fun c a hc hp => ?_⟩
  · by_cases han : a = n
    · rw [han] at ha ⊢
      exact (hn ha).1
    · rw [A.live a han] at ha
      exact h.bound a ha
  · rw [A.root, A.live _ A.root_ne]
    exact h.root_live
  · rw [A.root, (A.info _ A.root_ne).isDir]
    exact h.root_dir
  · rw [A.root, (A.info _ A.root_ne).parent]
    exact h.root_parent
  · by_cases han : a = n
    · rw [han] at ha ⊢
      exact (hn ha).2.1
    rw [A.live a han] at ha
    by_cases had : a = dir
    · rw [had]
      exact ⟨l', A.kids'⟩
    · obtain ⟨la, hla⟩ := h.children a ha
      exact ⟨la, A.others a la ha han had hla⟩
  · by_cases han : a = n
    · rw [han] at ha hda ⊢
      exact (hn ha).2.2.1 hda
    rw [A.live a han] at ha
    have hda' := (A.info a han).isDir.symm.trans hda
    have had : a ≠ dir := by
      rintro rfl
      rw [A.dir_isDir] at hda'
      exact absurd hda'.symm Bool.false_ne_true
    rw [A.child a han had]
    exact h.file a ha hda'
  · by_cases hcn : c = n
    · rw [hcn] at hc hp ⊢
      obtain ⟨rfl, hdir, hmem⟩ := (hn hc).2.2.2 a hp
      exact ⟨by rw [A.live a A.dir_ne]; exact hdir, l', A.kids', hmem⟩
    rw [A.live c hcn] at hc
    have hp := (A.info c hcn).parent.symm.trans hp
    obtain ⟨ha, la, hla, hcl⟩ := h.member c a hc hp
    have han : a ≠ n := by
      rintro rfl
      exact A.orphan c hc hcn hp
    rw [A.live a han]
    by_cases had : a = dir
    · subst had
      obtain rfl := hla.unique A.kids
      exact ⟨ha, l', A.kids', (A.mem c hcn).mpr hcl⟩
    · exact ⟨ha, la, A.others a la ha han had hla, hcl⟩

/-- **What a name leads to is kept**, unless it is that of the node. -/
theorem Around.childFind_eq (h' : Shape s') {m : Str} (hb : s.live b = true) (hbn : b ≠ n)
    (hold : b = dir → n ∈ l → (s.node n).name ≠ m) (hnew : b = dir → n ∈ l' → (s'.node n).name ≠ m) :
    childFind s' b m = childFind s b m := by
  obtain ⟨lb, hlb⟩ := h.children b hb
  refine Option.ext fun c => ?_
  by_cases hbd : b = dir
  · subst hbd
    obtain rfl := hlb.unique A.kids
    rw [A.kids'.childFind_iff h', hlb.childFind_iff h]
    by_cases hcn : c = n
    · subst hcn
      exact iff_of_false (fun hc => hnew rfl hc.1 hc.2) fun hc => hold rfl hc.1 hc.2
    · rw [A.mem c hcn, (A.info c hcn).name]
  · have hlb' := A.others b lb hb hbn hbd hlb
    rw [hlb'.childFind_iff h', hlb.childFind_iff h]
    refine and_congr_right fun hc => ?_
    have hcn : c ≠ n := by
      rintro rfl
      exact A.alone b lb hbd hlb hc
    rw [(A.info c hcn).name]

end Around

/-- Links that are written leave all but the node around. -/
theorem Relinked.around {v : Option Addr} {l' : List Addr} (hr : Relinked s s' dir n l₁ v)
    (hsub : ∀ x ∈ l₁, x ∈ l) (hlive : ∀ x, x ≠ n → s'.live x = s.live x) (hroot : s'.root = s.root)
    (hrn : s.root ≠ n) (hdn : dir ≠ n) (hd : (s.node dir).isDir = true)
    (horphan : ∀ c, s.live c = true → c ≠ n → (s.node c).parent ≠ some n) (hl : Children s dir l)
    (hl' : Children s' dir l') (hmem : ∀ c, c ≠ n → (c ∈ l' ↔ c ∈ l))
    (halone : ∀ b lb, b ≠ dir → Children s b lb → n ∉ lb) : Around s s' dir n l l' := by
  refine ⟨hlive, hroot, hrn, hdn, hd, fun x hx => hr.info hx, fun x hx hxd => hr.child_of_ne hx hxd,
    horphan, hl, hl', hmem, halone, fun b lb _ hbn hbd hlb => ?_⟩
  have hn := halone b lb hbd hlb
  refine hr.children (fun x hx => (hl.kid x (hsub x hx)).2.1) hlb hbn hbd hn fun x hx => ?_
  rw [hlive x (ne_of_mem_of_not_mem hx hn)]
  exact (hlb.kid x hx).1

/-! ## Linking -/

/-- The state after `ramfs_create_locked` has made a node. -/
def created (s : State) (dir n : Addr) (leaf : Str) (isDir : Bool) : State :=
  childLink ({ s with live := Function.update s.live n true }.modify n fun _ => newNode leaf isDir)
    dir n

/-- Where a name belongs in a sorted list. -/
theorem exists_split (hs : l.Pairwise fun x y => (s.node x).name < (s.node y).name)
    (hne : ∀ x ∈ l, (s.node x).name ≠ leaf) : ∃ l₁ l₂, l = l₁ ++ l₂ ∧
      (∀ x ∈ l₁, (s.node x).name < leaf) ∧ ∀ x ∈ l₂, leaf < (s.node x).name := by
  induction l with
  | nil => exact ⟨[], [], rfl, by simp, by simp⟩
  | cons x l ih =>
    obtain ⟨hx, hl⟩ := List.pairwise_cons.mp hs
    rcases lt_or_gt_of_ne (hne x List.mem_cons_self) with hlt | hgt
    · obtain ⟨l₁, l₂, rfl, h1, h2⟩ := ih hl fun y hy => hne y (List.mem_cons_of_mem _ hy)
      refine ⟨x :: l₁, l₂, rfl, fun y hy => ?_, h2⟩
      rcases List.mem_cons.mp hy with rfl | hy
      · exact hlt
      · exact h1 y hy
    · refine ⟨[], x :: l, rfl, by simp, fun y hy => ?_⟩
      rcases List.mem_cons.mp hy with rfl | hy
      · exact hgt
      · exact lt_trans hgt (hx y hy)

section Create

variable (h : Shape s) (hdir : s.live dir = true) (hn : s.live n = false)
  (hl : Children s dir (l₁ ++ l₂)) (h1 : ∀ x ∈ l₁, (s.node x).name < leaf)
  (h2 : ∀ x ∈ l₂, leaf < (s.node x).name) (hleaf : NameOk leaf)
include h hdir hn hl h1 h2 hleaf

/-- **The nodes after a node has been made.** -/
theorem created_node (b : Addr) : (created s dir n leaf isDir).node b =
    if b = n then { newNode leaf isDir with sibling := l₂.head?, parent := some dir }
    else relink (s.node b) dir l₁.getLast? (some n) b := by
  have hne : ∀ x, s.live x = true → x ≠ n := fun x hx he => by
    rw [he, hn] at hx
    exact absurd hx (by simp)
  have hin : ∀ x ∈ l₁ ++ l₂, x ≠ n := fun x hx => hne x (hl.kid x hx).1
  have hok : ∀ x ∈ l₁ ++ l₂, 0 ∉ (s.node x).name := fun x hx => (hl.kid x hx).2.2.1.2.2
  have hold : ∀ x, x ≠ n → ({ s with live := Function.update s.live n true }.modify n
      fun _ => newNode leaf isDir).node x = s.node x := fun x hx => by
    rw [modify_node, if_neg hx]
  have hnew : ({ s with live := Function.update s.live n true }.modify n
      fun _ => newNode leaf isDir).node n = newNode leaf isDir := by
    rw [modify_node, if_pos rfl]
  -- the search for the place is the search in the old list
  have hpp : linkLoop ({ s with live := Function.update s.live n true }.modify n
      fun _ => newNode leaf isDir) leaf heapEnd none (s.node dir).child = (l₁.getLast?, l₂.head?) := by
    refine (linkLoop_eq (hl.linked.congr fun x hx => ?_) (hl.length_le h) (fun x hx => ?_)
      fun x hx => ?_).trans (by rw [Option.or_none])
    · rw [State.next, State.next, hold x (hin x hx)]
    · rw [hold x (hin x (List.mem_append_left _ hx)),
        strcmp_neg_iff (hok x (List.mem_append_left _ hx)) hleaf.1.2.2]
      exact h1 x hx
    · have hx : x ∈ l₂ := List.mem_of_head? hx
      rw [hold x (hin x (List.mem_append_right _ hx)),
        strcmp_neg_iff (hok x (List.mem_append_right _ hx)) hleaf.1.2.2]
      exact not_lt_of_gt (h2 x hx)
  have hlast : l₁.getLast? ≠ some n := fun he =>
    hin n (List.mem_append_left _ (List.mem_of_getLast? he)) rfl
  have hdn := hne dir hdir
  rw [created, childLink, hnew, hold dir hdn]
  dsimp only [newNode]
  dsimp only [newNode] at hpp
  rw [hpp]
  dsimp only
  rw [modify_node, setLink_node, modify_node, modify_node]
  by_cases hb : b = n
  · subst hb
    simp [relink, hlast, hdn.symm]
  · simp [hb]

end Create

/-- **What making a node changes.** -/
structure Created (s s' : State) (dir n : Addr) (leaf : Str) (isDir : Bool) : Prop where
  shape : Shape s'
  live : s'.live = Function.update s.live n true
  root : s'.root = s.root
  files : s'.files = s.files
  dirs : s'.dirs = s.dirs
  new : SameInfo { newNode leaf isDir with parent := some dir } (s'.node n)
  old : ∀ b, b ≠ n → SameInfo (s.node b) (s'.node b)
  find_new : childFind s' dir leaf = some n
  find_leaf : ∀ m, childFind s' n m = none
  find_old : ∀ b m, s.live b = true → ¬ (b = dir ∧ m = leaf) → childFind s' b m = childFind s b m

theorem created_live : (created s dir n leaf isDir).live = Function.update s.live n true := by
  simp only [created, childLink, State.modify, setLink_live]

theorem created_root : (created s dir n leaf isDir).root = s.root := by
  simp only [created, childLink, State.modify, setLink_root]

theorem created_files : (created s dir n leaf isDir).files = s.files := by
  simp only [created, childLink, State.modify, setLink_files]

theorem created_dirs : (created s dir n leaf isDir).dirs = s.dirs := by
  simp only [created, childLink, State.modify, setLink_dirs]

/-- The list of the parent with the new node. -/
theorem created_linked (hl : Children s dir (l₁ ++ l₂)) (hr : Relinked s s' dir n l₁ (some n))
    (hn : s'.next n = l₂.head?) (hdn : dir ≠ n) (hin : ∀ x ∈ l₁ ++ l₂, x ≠ n) :
    Linked s'.next (s'.node dir).child (l₁ ++ n :: l₂) := by
  rw [hr.child_dir hdn]
  rcases List.eq_nil_or_concat' l₁ with rfl | ⟨l₀, y, rfl⟩
  · rw [if_pos rfl]
    refine ⟨rfl, ?_⟩
    have hlink : Linked s.next (s.node dir).child l₂ := hl.linked
    rw [hn, ← hlink.head?_eq]
    exact hlink.congr fun z hz => hr.next (hin z hz) (by simp)
  · have hlast : (l₀ ++ [y]).getLast? = some y := by simp
    have hnd := hl.linked.nodup
    have hlink := hl.linked
    rw [List.append_assoc, List.singleton_append] at hlink hnd ⊢
    rw [if_neg (by simp)]
    refine hlink.insert_after (hr.next_last (hin y (by simp)) hlast) ?_ fun z hz =>
      hr.next (hin z ?_) ?_
    · rw [hn]
      exact (Seg.next_eq_head hlink).symm
    · rcases List.mem_append.mp hz with hz | hz <;> simp [hz]
    · rw [hlast]
      rintro ⟨⟩
      rw [List.nodup_append, List.nodup_cons] at hnd
      rcases List.mem_append.mp hz with hz | hz
      · exact hnd.2.2 y hz y List.mem_cons_self rfl
      · exact hnd.2.1.1 hz

/-- The children of the parent with the new node. -/
theorem created_children (hl : Children s dir (l₁ ++ l₂)) (hr : Relinked s s' dir n l₁ (some n))
    (hn : s'.next n = l₂.head?) (hdn : dir ≠ n) (hin : ∀ x ∈ l₁ ++ l₂, x ≠ n)
    (h1 : ∀ x ∈ l₁, (s.node x).name < leaf) (h2 : ∀ x ∈ l₂, leaf < (s.node x).name)
    (hname : (s'.node n).name = leaf)
    (hnew : s'.live n = true ∧ (s'.node n).parent = some dir ∧ NameOk (s'.node n).name)
    (hlive : ∀ x ∈ l₁ ++ l₂, s'.live x = true) : Children s' dir (l₁ ++ n :: l₂) := by
  refine ⟨created_linked hl hr hn hdn hin, ?_, fun c hc => ?_⟩
  · obtain ⟨p1, p2, p12⟩ := List.pairwise_append.mp hl.sorted
    have hn1 : ∀ y ∈ l₁, (s'.node y).name = (s.node y).name := fun y hy =>
      (hr.info (hin y (List.mem_append_left _ hy))).name
    have hn2 : ∀ y ∈ l₂, (s'.node y).name = (s.node y).name := fun y hy =>
      (hr.info (hin y (List.mem_append_right _ hy))).name
    refine List.pairwise_append.mpr ⟨p1.imp_of_mem fun {x y} hx hy hxy => ?_,
      List.pairwise_cons.mpr ⟨fun y hy => ?_, p2.imp_of_mem fun {x y} hx hy hxy => ?_⟩,
      fun x hx y hy => ?_⟩
    · rwa [hn1 x hx, hn1 y hy]
    · rw [hname, hn2 y hy]
      exact h2 y hy
    · rwa [hn2 x hx, hn2 y hy]
    · rcases List.mem_cons.mp hy with rfl | hy
      · rw [hname, hn1 x hx]
        exact h1 x hx
      · rw [hn1 x hx, hn2 y hy]
        exact p12 x hx y hy
  · by_cases hcn : c = n
    · subst hcn
      exact hnew
    · have hc : c ∈ l₁ ++ l₂ := by simpa [hcn] using hc
      obtain ⟨-, k2, k3⟩ := hl.kid c hc
      have hi := hr.info hcn
      exact ⟨hlive c hc, hi.parent.trans k2, hi.name ▸ k3⟩

/-- **A node is made.** -/
theorem created_spec (h : Shape s) (hdir : s.live dir = true) (hd : (s.node dir).isDir = true)
    (hn : s.live n = false) (hbound : n < heapEnd) (hleaf : NameOk leaf)
    (hnone : childFind s dir leaf = none) :
    Created s (created s dir n leaf isDir) dir n leaf isDir := by
  obtain ⟨l, hl⟩ := h.children dir hdir
  have hne : ∀ x ∈ l, (s.node x).name ≠ leaf := fun x hx he => by
    rw [(hl.childFind_iff h).mpr ⟨hx, he⟩] at hnone
    exact absurd hnone (by simp)
  obtain ⟨l₁, l₂, rfl, h1, h2⟩ := exists_split hl.sorted hne
  have hnode : ∀ b, (created s dir n leaf isDir).node b = _ :=
    created_node h hdir hn hl h1 h2 hleaf
  have hlive : (created s dir n leaf isDir).live = _ := created_live
  have hroot : (created s dir n leaf isDir).root = _ := created_root
  have hfiles : (created s dir n leaf isDir).files = _ := created_files
  have hdirs : (created s dir n leaf isDir).dirs = _ := created_dirs
  generalize created s dir n leaf isDir = s' at *
  have hneq : ∀ x, s.live x = true → x ≠ n := fun x hx he => by
    rw [he, hn] at hx
    exact absurd hx (by simp)
  have hin : ∀ x ∈ l₁ ++ l₂, x ≠ n := fun x hx => hneq x (hl.kid x hx).1
  have hlive' : ∀ x, x ≠ n → s'.live x = s.live x := fun x hx => by
    rw [hlive, Function.update_of_ne hx]
  have hr : Relinked s s' dir n l₁ (some n) := fun b hb => (hnode b).trans (if_neg hb)
  have hnew : s'.node n = { newNode leaf isDir with sibling := l₂.head?, parent := some dir } := by
    rw [hnode, if_pos rfl]
  have hkids : Children s' dir (l₁ ++ n :: l₂) := by
    refine created_children hl hr ?_ (hneq dir hdir) hin h1 h2 ?_ ?_ fun x hx => ?_
    · rw [State.next, hnew]
    · rw [hnew]
      rfl
    · rw [hnew, hlive, Function.update_self]
      exact ⟨rfl, rfl, hleaf⟩
    · rw [hlive' x (hin x hx)]
      exact (hl.kid x hx).1
  have hleafkids : Children s' n [] := by
    refine ⟨?_, List.Pairwise.nil, by simp⟩
    rw [hnew]
    rfl
  have A : Around s s' dir n (l₁ ++ l₂) (l₁ ++ n :: l₂) := by
    refine hr.around (fun x hx => List.mem_append_left _ hx) hlive' hroot (hneq _ h.root_live)
      (hneq dir hdir) hd (fun c hc _ hp => hneq n (h.member c n hc hp).1 rfl) hl hkids (fun c hcn => ?_)
      fun b lb _ hlb hx => hneq n (hlb.kid n hx).1 rfl
    simp [hcn]
  have hshape : Shape s' := by
    refine A.shape h fun _ => ⟨hbound, ⟨_, hleafkids⟩, fun _ => ?_, fun a hp => ?_⟩
    · rw [hnew]
      rfl
    · rw [hnew] at hp
      exact ⟨(Option.some.inj hp).symm, hdir, by simp⟩
  refine ⟨hshape, hlive, hroot, hfiles, hdirs, ?_, A.info, ?_, fun m => ?_, fun b m hb hbm => ?_⟩
  · rw [hnew]
    exact ⟨rfl, rfl, rfl, rfl, rfl, rfl, rfl⟩
  · refine (hkids.childFind_iff hshape).mpr ⟨by simp, ?_⟩
    rw [hnew]
    rfl
  · rw [hleafkids.childFind_eq hshape]
    rfl
  · refine A.childFind_eq h hshape hb (hneq b hb) (fun _ hx => absurd rfl (hin n hx)) fun hbd _ hm => ?_
    rw [hnew] at hm
    exact hbm ⟨hbd, hm.symm⟩

/-! ## Unlinking -/

/-- The state after `ramfs_rmdir` has freed a node. -/
def removed (s : State) (n : Addr) : State :=
  { childUnlink s n with live := Function.update (childUnlink s n).live n false }

/-- **What freeing a node changes.** -/
structure Removed (s s' : State) (dir n : Addr) : Prop where
  shape : Shape s'
  live : s'.live = Function.update s.live n false
  root : s'.root = s.root
  files : s'.files = s.files
  dirs : s'.dirs = s.dirs
  old : ∀ b, b ≠ n → SameInfo (s.node b) (s'.node b)
  find_gone : childFind s' dir (s.node n).name = none
  find_old : ∀ b m, s.live b = true → b ≠ n → ¬ (b = dir ∧ m = (s.node n).name) →
    childFind s' b m = childFind s b m

section Remove

variable (h : Shape s) (hp : (s.node n).parent = some dir) (hl : Children s dir (l₁ ++ n :: l₂))
include h hp hl

theorem removed_eq : removed s n =
    { (setLink s dir l₁.getLast? (s.node n).sibling).modify n fun x =>
        { x with sibling := none, parent := none } with
      live := Function.update s.live n false } := by
  have hnd := hl.linked.nodup
  have hn : n ∉ l₁ := fun hin => by
    rw [List.nodup_append] at hnd
    exact hnd.2.2 n hin n List.mem_cons_self rfl
  have hpp : unlinkLoop s n heapEnd none (s.node dir).child = (l₁.getLast?, some n) :=
    (unlinkLoop_eq hl.linked (hl.length_le h) hn).trans (by rw [Option.or_none])
  unfold removed childUnlink
  rw [hp]
  dsimp only
  rw [hpp, if_pos rfl]
  simp [State.modify]

theorem removed_relinked : Relinked s (removed s n) dir n l₁ (s.node n).sibling := fun b hb => by
  rw [removed_eq h hp hl]
  dsimp only
  rw [modify_node, if_neg hb, setLink_node]

/-- The list of the parent without the node. -/
theorem removed_children (hdn : dir ≠ n) : Children (removed s n) dir (l₁ ++ l₂) := by
  have hr := removed_relinked h hp hl
  have hlive : (removed s n).live = Function.update s.live n false := by
    rw [removed_eq h hp hl]
  have hnd := hl.linked.nodup
  have hne : ∀ x ∈ l₁ ++ l₂, x ≠ n := by
    rintro x hx rfl
    rw [List.nodup_append, List.nodup_cons] at hnd
    rcases List.mem_append.mp hx with hx | hx
    · exact hnd.2.2 x hx x List.mem_cons_self rfl
    · exact hnd.2.1.1 hx
  have hmem : ∀ x ∈ l₁ ++ l₂, x ∈ l₁ ++ n :: l₂ := fun x hx => by
    rcases List.mem_append.mp hx with hx | hx <;> simp [hx]
  refine ⟨?_, ?_, fun c hc => ?_⟩
  · rw [hr.child_dir hdn]
    rcases List.eq_nil_or_concat' l₁ with rfl | ⟨l₀, y, rfl⟩
    · rw [if_pos rfl]
      exact (hl.linked.2).congr fun z hz => hr.next (hne z hz) (by simp)
    · have hlast : (l₀ ++ [y]).getLast? = some y := by simp
      have hlink := hl.linked
      rw [List.append_assoc, List.singleton_append] at hlink hnd ⊢
      rw [if_neg (by simp)]
      refine hlink.remove_after (hr.next_last (hne y (by simp)) hlast) fun z hz =>
        hr.next (hne z ?_) ?_
      · rcases List.mem_append.mp hz with hz | hz <;> simp [hz]
      · rw [hlast]
        rintro ⟨⟩
        rw [List.nodup_append, List.nodup_cons] at hnd
        rcases List.mem_append.mp hz with hz | hz
        · exact hnd.2.2 y hz y List.mem_cons_self rfl
        · exact hnd.2.1.1 (List.mem_cons_of_mem _ hz)
  · have hsub : (l₁ ++ l₂).Sublist (l₁ ++ n :: l₂) :=
      List.Sublist.append (List.Sublist.refl _) (List.sublist_cons_self _ _)
    refine (hl.sorted.sublist hsub).imp_of_mem fun {x y} hx hy hxy => ?_
    rwa [(hr.info (hne x hx)).name, (hr.info (hne y hy)).name]
  · obtain ⟨k1, k2, k3⟩ := hl.kid c (hmem c hc)
    have hi := hr.info (hne c hc)
    rw [hlive, Function.update_of_ne (hne c hc)]
    exact ⟨k1, hi.parent.trans k2, hi.name ▸ k3⟩

end Remove

/-- **A node without children is freed.** -/
theorem removed_spec (h : Shape s) (hn : s.live n = true) (hp : (s.node n).parent = some dir)
    (hc : (s.node n).child = none) : Removed s (removed s n) dir n := by
  obtain ⟨hdir, l, hl, hnl⟩ := h.member n dir hn hp
  obtain ⟨l₁, l₂, rfl⟩ := List.append_of_mem hnl
  have hdn : dir ≠ n := by
    rintro rfl
    -- a node without children is not its own child
    have := hl.linked
    rw [hc] at this
    cases l₁ <;> exact absurd this.1 (by simp)
  have hr := removed_relinked h hp hl
  have hkids := removed_children h hp hl hdn
  have hlive : (removed s n).live = Function.update s.live n false := by
    rw [removed_eq h hp hl]
  have hroot : (removed s n).root = s.root := by
    rw [removed_eq h hp hl]
    simp [State.modify]
  have hfiles : (removed s n).files = s.files := by
    rw [removed_eq h hp hl]
    simp [State.modify]
  have hdirs : (removed s n).dirs = s.dirs := by
    rw [removed_eq h hp hl]
    simp [State.modify]
  generalize removed s n = s' at *
  have hlive' : ∀ x, x ≠ n → s'.live x = s.live x := fun x hx => by
    rw [hlive, Function.update_of_ne hx]
  have hgone : s'.live n ≠ true := by
    rw [hlive, Function.update_self]
    exact Bool.false_ne_true
  have hrootn : s.root ≠ n := fun he => by
    rw [← he, h.root_parent] at hp
    exact absurd hp (by simp)
  -- a file has no children, and the node is one
  have hd : (s.node dir).isDir = true := by
    by_contra hd
    have hl₀ := hl.linked
    rw [h.file dir hdir (Bool.eq_false_iff.mpr hd)] at hl₀
    cases l₁ <;> exact absurd hl₀.1 (by simp)
  have horphan : ∀ c, s.live c = true → c ≠ n → (s.node c).parent ≠ some n := by
    intro c hca _ hpa
    obtain ⟨-, la, hla, hcl⟩ := h.member c n hca hpa
    have hl₀ := hla.linked
    rw [hc] at hl₀
    cases la with
    | nil => simp at hcl
    | cons x la => exact absurd hl₀.1 (by simp)
  have A : Around s s' dir n (l₁ ++ n :: l₂) (l₁ ++ l₂) := by
    refine hr.around (fun x hx => List.mem_append_left _ hx) hlive' hroot hrootn hdn hd horphan hl hkids
      (fun c hcn => ?_) fun b lb hbd hlb hx => ?_
    · simp [hcn]
    · exact hbd (Option.some.inj ((hlb.kid n hx).2.1.symm.trans hp))
  have hshape : Shape s' := A.shape h fun ha => absurd ha hgone
  have hnot : n ∉ l₁ ++ l₂ := fun hx => hgone (hkids.kid n hx).1
  refine ⟨hshape, hlive, hroot, hfiles, hdirs, A.info, ?_, fun b m hb hbn hbm => ?_⟩
  · -- the name was that of the node alone
    rw [hkids.childFind_eq hshape, List.find?_eq_none]
    intro x hx hxn
    have hxn' : x ≠ n := ne_of_mem_of_not_mem hx hnot
    rw [decide_eq_true_eq, (hr.info hxn').name] at hxn
    exact hxn' (hl.name_inj ((A.mem x hxn').mp hx) (by simp) hxn)
  · exact A.childFind_eq h hshape hb hbn (fun hbd _ hm => hbm ⟨hbd, hm.symm⟩) fun _ hx => absurd hx hnot

/-! ## What paths lead to -/

theorem Shape.childFind_of_child_none (h : Shape s) (hn : s.live n = true) (hc : (s.node n).child = none)
    (m : Str) : childFind s n m = none := by
  obtain ⟨l, hl⟩ := h.children n hn
  have hlink := hl.linked
  rw [hc] at hlink
  cases l with
  | nil =>
    rw [hl.childFind_eq h]
    rfl
  | cons x l => exact absurd hlink.1 (by simp)

/-- **A new node** is what one path leads to. -/
theorem Created.follow (hc : Created s s' dir n leaf isDir) (h : Shape s) {p : List Str}
    (hp : follow (childFind s) s.root p = some dir) (hnone : childFind s dir leaf = none) (q : List Str) :
    follow (childFind s') s'.root q =
      if q = p ++ [leaf] then some n else follow (childFind s) s.root q := by
  rw [hc.root]
  refine h.rooted.follow_edit hp hc.find_new (fun x hx => ?_) (fun x hx m => ?_)
    fun q b m hb _ hbm => hc.find_old b m (h.follow_live hb) hbm
  · rw [hnone] at hx
    exact absurd hx (by simp)
  · obtain rfl := Option.some.inj hx
    exact hc.find_leaf m

/-- **A freed node** is what one path led to. -/
theorem Removed.follow (hr : Removed s s' dir n) (h : Shape s) {q : List Str}
    (hq : follow (childFind s) s.root q = some dir) (hleaf : childFind s dir leaf = some n)
    (hchild : (s.node n).child = none) (r : List Str) :
    follow (childFind s') s'.root r =
      if r = q ++ [leaf] then none else follow (childFind s) s.root r := by
  have hp : Csos.follow (childFind s) s.root (q ++ [leaf]) = some n :=
    (follow_concat_of_some hq).trans hleaf
  obtain ⟨hlive, -, hname, -⟩ := h.childFind_kid (h.follow_live hq) hleaf
  rw [hr.root]
  refine h.rooted.follow_edit hq (hname ▸ hr.find_gone) (fun x hx m => ?_)
    (fun x hx => absurd hx (by simp)) fun r c m hc hrp hcm => ?_
  · obtain rfl := Option.some.inj (hleaf.symm.trans hx)
    exact h.childFind_of_child_none hlive hchild m
  · refine hr.find_old c m (h.follow_live hc) (fun he => ?_) (hname ▸ hcm)
    exact hrp (h.rooted.follow_inj (he ▸ hc) hp)

/-! ## A new mount -/

theorem mounted_node_root (node : Addr → Node) (root : Addr) :
    (mounted node root).node root = newNode [] true := Function.update_self _ _ _

theorem mounted_live {node : Addr → Node} {root : Addr} (ha : (mounted node root).live a = true) :
    a = root := of_decide_eq_true ha

theorem mounted_children (node : Addr → Node) (root : Addr) : Children (mounted node root) root [] := by
  refine ⟨?_, .nil, by simp⟩
  rw [linked_nil, mounted_node_root]
  rfl

theorem mounted_shape (node : Addr → Node) {root : Addr} (hroot : root < heapEnd) :
    Shape (mounted node root) := by
  have hnode := mounted_node_root node root
  refine ⟨fun a ha => ?_, decide_eq_true rfl, ?_, ?_, fun a ha => ?_, fun a ha hf => ?_,
    fun c a hc hp => ?_⟩
  · rw [mounted_live ha]
    exact hroot
  · exact congrArg Node.isDir hnode
  · exact congrArg Node.parent hnode
  · rw [mounted_live ha]
    exact ⟨[], mounted_children node root⟩
  · rw [mounted_live ha, hnode] at hf
    exact absurd hf (by simp [newNode])
  · rw [mounted_live hc, hnode] at hp
    exact absurd hp (by simp [newNode])

/-- Only the root is there. -/
theorem mounted_follow (node : Addr → Node) {root : Addr} (hroot : root < heapEnd) (p : List Str) :
    follow (childFind (mounted node root)) root p = if p = [] then some root else none := by
  cases p with
  | nil => rfl
  | cons m p =>
    have hnone : childFind (mounted node root) root m = none := by
      rw [(mounted_children node root).childFind_eq (mounted_shape node hroot)]
      rfl
    rw [follow, hnone, if_neg (by simp)]
    rfl

end Ramfs

end Csos

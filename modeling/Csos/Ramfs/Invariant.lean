import Csos.Common.Tables
import Csos.Ramfs.Buffers
/-!
# The RAM file system — handles and references

The invariant of a mount: the shape of the tree, the buffers, and that `refs`
of each node counts the handles open on it and the directory handles that
stand at it. A node with references is not freed, so that handles and cursors
always point at nodes in use.
-/

namespace Csos

namespace Ramfs

open Vfs

variable {s s' : State} {a n h : Addr} {f f' : File} {d : Dir}

theorem heapEnd_eq : heapEnd = 2 ^ 29 := by
  rw [heapEnd]
  norm_num

/-- The handles open on a node, and the directory handles that stand at it. -/
noncomputable def refCount (files : Addr → Option File) (dirs : Addr → Option Dir) (a : Addr) : ℕ :=
  uses heapEnd files (fun f => f.node = a) + uses heapEnd dirs (fun d => d.node = a) +
    uses heapEnd dirs (fun d => d.pos = some a)

theorem refCount_lt (files : Addr → Option File) (dirs : Addr → Option Dir) (a : Addr) :
    refCount files dirs a < 2 ^ 31 := by
  have h1 := uses_le heapEnd files fun f => f.node = a
  have h2 := uses_le heapEnd dirs fun d => d.node = a
  have h3 := uses_le heapEnd dirs fun d => d.pos = some a
  have h4 := heapEnd_eq
  unfold refCount
  omega

theorem refCount_files {files : Addr → Option File} {dirs : Addr → Option Dir} {v : Option File}
    (hh : h < heapEnd) (a : Addr) : refCount (Function.update files h v) dirs a +
      ((files h).any fun f => f.node = a).toNat =
        refCount files dirs a + (v.any fun f => f.node = a).toNat := by
  have := uses_update (f := files) (v := v) (P := fun f => f.node = a) hh
  unfold refCount
  omega

theorem refCount_dirs {files : Addr → Option File} {dirs : Addr → Option Dir} {v : Option Dir}
    (hh : h < heapEnd) (a : Addr) : refCount files (Function.update dirs h v) a +
      (((dirs h).any fun d => d.node = a).toNat + ((dirs h).any fun d => d.pos = some a).toNat) =
        refCount files dirs a +
          ((v.any fun d => d.node = a).toNat + (v.any fun d => d.pos = some a).toNat) := by
  have h1 := uses_update (f := dirs) (v := v) (P := fun d => d.node = a) hh
  have h2 := uses_update (f := dirs) (v := v) (P := fun d => d.pos = some a) hh
  unfold refCount
  omega

/-- A file handle points at a node in use, of its kind. -/
def FileOk (s : State) (f : File) : Prop :=
  s.live f.node = true ∧ f.isDir = (s.node f.node).isDir ∧ f.pos < 2 ^ 63

/-- A directory handle points at a directory in use, and its cursor at one of
the children. -/
def DirOk (s : State) (d : Dir) : Prop :=
  s.live d.node = true ∧ (s.node d.node).isDir = true ∧
    ∀ c, d.pos = some c → s.live c = true ∧ (s.node c).parent = some d.node

/-- **The invariant of a mount.** -/
structure Inv (s : State) : Prop where
  shape : Shape s
  buffer : ∀ a, s.live a = true → BufferOk (s.node a)
  refs : ∀ a, s.live a = true → (s.node a).refs = refCount s.files s.dirs a
  file : ∀ h f, s.files h = some f → h < heapEnd ∧ FileOk s f
  dir : ∀ h d, s.dirs h = some d → h < heapEnd ∧ DirOk s d

/-! ## Counting -/

theorem ref_refs (x : Node) (hx : x.refs < 2 ^ 31) : x.ref.refs = x.refs + 1 := by
  change succ32 x.refs = _
  unfold succ32
  exact if_pos (by omega)

theorem unref_refs (x : Node) (h0 : 0 < x.refs) : x.unref.refs = x.refs - 1 := by
  change pred32 x.refs = _
  unfold pred32
  exact if_pos h0

theorem sameShape_ref (s : State) (a : Addr) : SameShape s (s.modify a Node.ref) :=
  SameShape.modify (f := Node.ref) a rfl rfl rfl rfl rfl

theorem sameShape_unref (s : State) (a : Addr) : SameShape s (s.modify a Node.unref) :=
  SameShape.modify (f := Node.unref) a rfl rfl rfl rfl rfl

/-- What a node holds, its references apart. -/
structure SameBuffer (x y : Node) : Prop where
  data : y.data = x.data
  size : y.size = x.size
  cap : y.cap = x.cap

theorem sameBuffer_ref (s : State) (a b : Addr) : SameBuffer (s.node b) ((s.modify a Node.ref).node b) := by
  rw [modify_node]
  split <;> exact ⟨rfl, rfl, rfl⟩

theorem sameBuffer_unref (s : State) (a b : Addr) :
    SameBuffer (s.node b) ((s.modify a Node.unref).node b) := by
  rw [modify_node]
  split <;> exact ⟨rfl, rfl, rfl⟩

theorem SameBuffer.trans {x y z : Node} (h : SameBuffer x y) (h' : SameBuffer y z) : SameBuffer x z :=
  ⟨h'.data.trans h.data, h'.size.trans h.size, h'.cap.trans h.cap⟩

/-- **Changes of handles and references.** -/
theorem Inv.of_same (hi : Inv s) (hs : SameShape s s')
    (hb : ∀ a, SameBuffer (s.node a) (s'.node a))
    (hrefs : ∀ a, s.live a = true → (s'.node a).refs = refCount s'.files s'.dirs a)
    (hfile : ∀ h f, s'.files h = some f → h < heapEnd ∧ FileOk s f)
    (hdir : ∀ h d, s'.dirs h = some d → h < heapEnd ∧ DirOk s d) : Inv s' := by
  refine ⟨hs.shape hi.shape, fun a ha => ?_, fun a ha => hrefs a (hs.live ▸ ha), fun h f hf => ?_,
    fun h d hd => ?_⟩
  · obtain ⟨h1, h2, h3, h4, h5⟩ := hi.buffer a (hs.live ▸ ha)
    obtain ⟨e1, e2, e3⟩ := hb a
    have e4 := hs.isDir a
    exact ⟨fun hd => e2.trans (h1 (e4.symm.trans hd)), fun hd => e2.trans (h2 (e1.symm.trans hd)),
      fun hd => e3 ▸ h3 (e1 ▸ hd), by omega, by omega⟩
  · obtain ⟨h1, h2, h3, h4⟩ := hfile h f hf
    exact ⟨h1, hs.live ▸ h2, h3.trans (hs.isDir _).symm, h4⟩
  · obtain ⟨h1, h2, h3, h4⟩ := hdir h d hd
    refine ⟨h1, hs.live ▸ h2, (hs.isDir _).trans h3, fun c hc => ?_⟩
    obtain ⟨h5, h6⟩ := h4 c hc
    exact ⟨hs.live ▸ h5, (hs.parent c).trans h6⟩

/-- What is in a table after one handle is changed. -/
theorem update_cases {β : Type*} {g : Addr → Option β} {v : Option β} {h h' : Addr} {x : β}
    (hx : Function.update g h v h' = some x) : (h' = h ∧ v = some x) ∨ (h' ≠ h ∧ g h' = some x) := by
  by_cases he : h' = h
  · subst he
    rw [Function.update_self] at hx
    exact .inl ⟨rfl, hx⟩
  · rw [Function.update_of_ne he] at hx
    exact .inr ⟨he, hx⟩

/-- A file handle is opened. -/
theorem Inv.openFile (hi : Inv s) (hh : h < heapEnd) (hnone : s.files h = none) (hf : FileOk s f) :
    Inv { s.modify f.node Node.ref with files := Function.update s.files h (some f) } := by
  have hs := sameShape_ref s f.node
  refine hi.of_same (hs.handles _ _)
    (sameBuffer_ref s f.node) (fun a ha => ?_) (fun h' f' hf' => ?_) hi.dir
  · have hc := (refCount_files hh a : refCount (Function.update s.files h (some f)) s.dirs a + _ = _)
    have hlt := refCount_lt s.files s.dirs a
    have hr := hi.refs a ha
    change ((s.modify f.node Node.ref).node a).refs = refCount (Function.update s.files h _) s.dirs a
    rw [modify_node]
    rw [hnone] at hc
    simp only [Option.any_none, Bool.toNat_false, Nat.add_zero, Option.any_some] at hc
    by_cases he : a = f.node
    · rw [if_pos he, ref_refs _ (by omega), hr, hc]
      simp [he]
    · rw [if_neg he, hr, hc]
      simp [Ne.symm he]
  · rcases update_cases hf' with ⟨rfl, he⟩ | ⟨-, hf'⟩
    · obtain rfl := Option.some.inj he
      exact ⟨hh, hf⟩
    · exact hi.file h' f' hf'

/-- A file handle is closed. -/
theorem Inv.closeFile (hi : Inv s) (hf : s.files h = some f) :
    Inv { s.modify f.node Node.unref with files := Function.update s.files h none } := by
  obtain ⟨hh, hok⟩ := hi.file h f hf
  have hs := sameShape_unref s f.node
  refine hi.of_same (hs.handles _ _)
    (sameBuffer_unref s f.node) (fun a ha => ?_) (fun h' f' hf' => ?_) hi.dir
  · have hc := (refCount_files hh a : refCount (Function.update s.files h none) s.dirs a + _ = _)
    have hlt := refCount_lt s.files s.dirs a
    have hr := hi.refs a ha
    change ((s.modify f.node Node.unref).node a).refs = refCount (Function.update s.files h _) s.dirs a
    rw [modify_node]
    rw [hf] at hc
    simp only [Option.any_none, Bool.toNat_false, Nat.add_zero, Option.any_some] at hc
    by_cases he : a = f.node
    · subst he
      simp only [decide_true, Bool.toNat_true] at hc
      rw [if_pos rfl, unref_refs _ (by omega), hr]
      omega
    · simp only [Ne.symm he, decide_false, Bool.toNat_false] at hc
      rw [if_neg he, hr]
      omega
  · rcases update_cases hf' with ⟨-, he⟩ | ⟨-, hf'⟩
    · exact absurd he (by simp)
    · exact hi.file h' f' hf'

/-- The position of a file handle is changed. -/
theorem Inv.moveFile (hi : Inv s) (hf : s.files h = some f) (hnode : f'.node = f.node)
    (hdir : f'.isDir = f.isDir) (hpos : f'.pos < 2 ^ 63) :
    Inv { s with files := Function.update s.files h (some f') } := by
  obtain ⟨hh, h1, h2, -⟩ := hi.file h f hf
  refine hi.of_same ((SameShape.refl s).handles _ _)
    (fun _ => ⟨rfl, rfl, rfl⟩) (fun a ha => ?_) (fun h' g hg => ?_) hi.dir
  · have hc := (refCount_files hh a : refCount (Function.update s.files h (some f')) s.dirs a + _ = _)
    rw [hf] at hc
    simp only [Option.any_some, hnode] at hc
    exact (hi.refs a ha).trans (by change _ = refCount (Function.update s.files h _) s.dirs a; omega)
  · rcases update_cases hg with ⟨rfl, he⟩ | ⟨-, hg⟩
    · obtain rfl := Option.some.inj he
      refine ⟨hh, ?_, ?_, hpos⟩
      · rw [hnode]
        exact h1
      · rw [hnode, hdir]
        exact h2
    · exact hi.file h' g hg

/-- A directory handle is opened. -/
theorem Inv.openDir (hi : Inv s) (hh : h < heapEnd) (hnone : s.dirs h = none)
    (hn : s.live n = true) (hd : (s.node n).isDir = true) :
    Inv { s.modify n Node.ref with dirs := Function.update s.dirs h (some ⟨n, none⟩) } := by
  have hs := sameShape_ref s n
  refine hi.of_same (hs.handles _ _)
    (sameBuffer_ref s n) (fun a ha => ?_) hi.file fun h' d' hd' => ?_
  · have hc : refCount s.files (Function.update s.dirs h (some ⟨n, none⟩)) a + _ = _ :=
      refCount_dirs hh a
    have hlt := refCount_lt s.files s.dirs a
    have hr := hi.refs a ha
    change ((s.modify n Node.ref).node a).refs = refCount s.files (Function.update s.dirs h _) a
    rw [modify_node]
    rw [hnone] at hc
    simp only [Option.any_none, Bool.toNat_false, Nat.add_zero, Option.any_some, reduceCtorEq,
      decide_false] at hc
    by_cases he : a = n
    · rw [if_pos he, ref_refs _ (by omega), hr, hc]
      simp [he]
    · rw [if_neg he, hr, hc]
      simp [Ne.symm he]
  · rcases update_cases hd' with ⟨rfl, he⟩ | ⟨-, hd'⟩
    · obtain rfl := Option.some.inj he
      exact ⟨hh, hn, hd, fun c hc => absurd hc (by simp)⟩
    · exact hi.dir h' d' hd'

/-- The references when a cursor moves. -/
def moveRefs (s : State) (prev : Option Addr) : State :=
  match prev with
  | some p => s.modify p Node.unref
  | none => s

theorem sameShape_moveRefs (s : State) (prev : Option Addr) : SameShape s (moveRefs s prev) := by
  cases prev with
  | none => exact .refl s
  | some p => exact sameShape_unref s p

theorem sameBuffer_moveRefs (s : State) (prev : Option Addr) (b : Addr) :
    SameBuffer (s.node b) ((moveRefs s prev).node b) := by
  cases prev with
  | none => exact ⟨rfl, rfl, rfl⟩
  | some p => exact sameBuffer_unref s p b

theorem moveRefs_refs (s : State) (prev : Option Addr) (a : Addr)
    (hpos : prev = some a → 0 < (s.node a).refs) :
    ((moveRefs s prev).node a).refs = (s.node a).refs - if prev = some a then 1 else 0 := by
  cases prev with
  | none => simp [moveRefs]
  | some p =>
    rw [moveRefs, modify_node]
    by_cases he : a = p
    · subst he
      rw [if_pos rfl, if_pos rfl, unref_refs _ (hpos rfl)]
    · rw [if_neg he, if_neg fun hc => he (Option.some.inj hc).symm, Nat.sub_zero]

/-- **The cursor of a directory handle moves**: the next child is pinned
before the one before is let go. -/
theorem Inv.moveDir {next : Addr} (hi : Inv s) (hd : s.dirs h = some d)
    (hnext : s.live next = true) (hp : (s.node next).parent = some d.node)
    (hne : d.pos ≠ some next) :
    Inv { moveRefs (s.modify next Node.ref) d.pos with
      dirs := Function.update s.dirs h (some { d with pos := some next }) } := by
  obtain ⟨hh, hok⟩ := hi.dir h d hd
  have hs := (sameShape_ref s next).trans (sameShape_moveRefs (s.modify next Node.ref) d.pos)
  have hfiles : (moveRefs (s.modify next Node.ref) d.pos).files = s.files := by
    cases d.pos <;> rfl
  refine hi.of_same (hs.handles _ _)
    (fun b => (sameBuffer_ref s next b).trans (sameBuffer_moveRefs _ _ b)) (fun a ha => ?_)
    (fun h' f hf => hi.file h' f (hfiles ▸ hf)) fun h' d' hd' => ?_
  · have hc : refCount s.files (Function.update s.dirs h (some { d with pos := some next })) a + _ = _ :=
      refCount_dirs hh a
    have hlt := refCount_lt s.files s.dirs a
    have hr := hi.refs a ha
    change ((moveRefs (s.modify next Node.ref) d.pos).node a).refs =
      refCount (moveRefs (s.modify next Node.ref) d.pos).files (Function.update s.dirs h _) a
    rw [hfiles]
    rw [hd] at hc
    simp only [Option.any_some, Option.some.injEq] at hc
    have hmid : ((s.modify next Node.ref).node a).refs =
        refCount s.files s.dirs a + if a = next then 1 else 0 := by
      rw [modify_node]
      by_cases he : a = next
      · rw [if_pos he, if_pos he, ref_refs _ (by omega), hr]
      · rw [if_neg he, if_neg he, hr, Nat.add_zero]
    by_cases hpos : d.pos = some a
    · have hna : next ≠ a := fun he => hne (he ▸ hpos)
      simp only [hpos, hna, decide_true, decide_false, Bool.toNat_true, Bool.toNat_false] at hc
      rw [moveRefs_refs _ _ _ fun _ => ?_, hmid, if_pos hpos, if_neg (Ne.symm hna)]
      · omega
      · rw [hmid]
        omega
    · simp only [hpos, decide_false, Bool.toNat_false] at hc
      rw [moveRefs_refs _ _ _ fun hc => absurd hc hpos, hmid, if_neg hpos]
      by_cases he : next = a
      · rw [decide_eq_true he, Bool.toNat_true] at hc
        rw [if_pos he.symm]
        omega
      · rw [decide_eq_false he, Bool.toNat_false] at hc
        rw [if_neg (Ne.symm he)]
        omega
  · rcases update_cases hd' with ⟨rfl, he⟩ | ⟨-, hd'⟩
    · obtain rfl := Option.some.inj he
      refine ⟨hh, hok.1, hok.2.1, fun c hc => ?_⟩
      obtain rfl := Option.some.inj hc
      exact ⟨hnext, hp⟩
    · exact hi.dir h' d' hd'

/-- A directory handle is closed. -/
theorem Inv.closeDir (hi : Inv s) (hd : s.dirs h = some d) :
    Inv { (moveRefs s d.pos).modify d.node Node.unref with
      dirs := Function.update s.dirs h none } := by
  obtain ⟨hh, hok⟩ := hi.dir h d hd
  have hs := (sameShape_moveRefs s d.pos).trans (sameShape_unref (moveRefs s d.pos) d.node)
  have hfiles : (moveRefs s d.pos).files = s.files := by cases d.pos <;> rfl
  refine hi.of_same (hs.handles _ _)
    (fun b => (sameBuffer_moveRefs s _ b).trans (sameBuffer_unref _ _ b)) (fun a ha => ?_)
    (fun h' f hf => hi.file h' f (hfiles ▸ hf)) fun h' d' hd' => ?_
  · have hc : refCount s.files (Function.update s.dirs h none) a + _ = _ := refCount_dirs hh a
    have hlt := refCount_lt s.files s.dirs a
    have hr := hi.refs a ha
    change (((moveRefs s d.pos).modify d.node Node.unref).node a).refs =
      refCount (moveRefs s d.pos).files (Function.update s.dirs h _) a
    rw [hfiles]
    rw [hd] at hc
    simp only [Option.any_some, Option.any_none, Bool.toNat_false, Nat.add_zero] at hc
    have hmid : ((moveRefs s d.pos).node a).refs =
        refCount s.files s.dirs a - if d.pos = some a then 1 else 0 := by
      rw [moveRefs_refs _ _ _ fun hp => ?_, hr]
      rw [decide_eq_true hp, Bool.toNat_true] at hc
      omega
    have hcount : (if d.pos = some a then 1 else 0) = (decide (d.pos = some a)).toNat := by
      by_cases hp : d.pos = some a <;> simp [hp]
    rw [hcount] at hmid
    rw [modify_node]
    by_cases he : a = d.node
    · rw [decide_eq_true he.symm, Bool.toNat_true] at hc
      rw [if_pos he, unref_refs _ (by omega), hmid]
      omega
    · rw [decide_eq_false (Ne.symm he), Bool.toNat_false] at hc
      rw [if_neg he, hmid]
      omega
  · rcases update_cases hd' with ⟨rfl, he⟩ | ⟨-, hd'⟩
    · exact absurd he (by simp)
    · exact hi.dir h' d' hd'

/-! ## Nodes that come and go -/

theorem refCount_pos_iff {files : Addr → Option File} {dirs : Addr → Option Dir} :
    0 < refCount files dirs a ↔ (∃ h < heapEnd, ∃ f, files h = some f ∧ f.node = a) ∨
      (∃ h < heapEnd, ∃ d, dirs h = some d ∧ d.node = a) ∨
        ∃ h < heapEnd, ∃ d, dirs h = some d ∧ d.pos = some a := by
  have h1 := uses_pos_iff (N := heapEnd) (f := files) (P := fun f => f.node = a)
  have h2 := uses_pos_iff (N := heapEnd) (f := dirs) (P := fun d => d.node = a)
  have h3 := uses_pos_iff (N := heapEnd) (f := dirs) (P := fun d => d.pos = some a)
  simp only [decide_eq_true_eq] at h1 h2 h3
  rw [← h1, ← h2, ← h3, refCount]
  omega

/-- Nothing refers to a block that is not in use. -/
theorem Inv.refCount_of_not_live (hi : Inv s) (hn : s.live n = false) :
    refCount s.files s.dirs n = 0 := by
  by_contra hne
  have hno : s.live n ≠ true := by simp [hn]
  rcases refCount_pos_iff.mp (Nat.pos_of_ne_zero hne) with ⟨h, -, f, hf, rfl⟩ | ⟨h, -, d, hd, rfl⟩ |
    ⟨h, -, d, hd, hp⟩
  · exact hno (hi.file h f hf).2.1
  · exact hno (hi.dir h d hd).2.1
  · exact hno ((hi.dir h d hd).2.2.2 n hp).1

/-- A node is made. -/
theorem Inv.created {dir : Addr} {leaf : Str} {isDir : Bool} (hi : Inv s)
    (hc : Created s s' dir n leaf isDir) (hn : s.live n = false) : Inv s' := by
  have hne : ∀ x, s.live x = true → x ≠ n := fun x hx he => by
    rw [he, hn] at hx
    exact absurd hx (by simp)
  have hlive : ∀ x, s.live x = true → s'.live x = true := fun x hx => by
    rw [hc.live, Function.update_of_ne (hne x hx)]
    exact hx
  have hsplit : ∀ x, s'.live x = true → x = n ∨ s.live x = true := fun x hx => by
    by_cases hxn : x = n
    · exact .inl hxn
    · rw [hc.live, Function.update_of_ne hxn] at hx
      exact .inr hx
  refine ⟨hc.shape, fun a ha => ?_, fun a ha => ?_, fun h f hf => ?_, fun h d hd => ?_⟩
  · rcases hsplit a ha with rfl | ha
    · have e := hc.new
      refine ⟨fun _ => e.size, fun _ => e.size, fun hd => absurd e.data hd, ?_, ?_⟩
      · rw [e.size]
        exact Nat.zero_le _
      · rw [e.cap]
        exact Nat.two_pow_pos 32
    · obtain ⟨h1, h2, h3, h4, h5⟩ := hi.buffer a ha
      have e := hc.old a (hne a ha)
      exact ⟨fun hd => e.size.trans (h1 (e.isDir.symm.trans hd)),
        fun hd => e.size.trans (h2 (e.data.symm.trans hd)), fun hd => e.cap ▸ h3 (e.data ▸ hd),
        by rw [e.size, e.cap]; exact h4, by rw [e.cap]; exact h5⟩
  · rw [hc.files, hc.dirs]
    rcases hsplit a ha with rfl | ha
    · rw [hi.refCount_of_not_live hn]
      exact hc.new.refs
    · exact (hc.old a (hne a ha)).refs.trans (hi.refs a ha)
  · obtain ⟨h1, h2, h3, h4⟩ := hi.file h f (hc.files ▸ hf)
    exact ⟨h1, hlive _ h2, h3.trans (hc.old _ (hne _ h2)).isDir.symm, h4⟩
  · obtain ⟨h1, h2, h3, h4⟩ := hi.dir h d (hc.dirs ▸ hd)
    refine ⟨h1, hlive _ h2, (hc.old _ (hne _ h2)).isDir.trans h3, fun c hcp => ?_⟩
    obtain ⟨h5, h6⟩ := h4 c hcp
    exact ⟨hlive c h5, (hc.old c (hne c h5)).parent.trans h6⟩

/-- **A node without references is freed**, and no handle points at it. -/
theorem Inv.removed {dir : Addr} (hi : Inv s) (hr : Removed s s' dir n) (hn : s.live n = true)
    (hzero : (s.node n).refs = 0) : Inv s' := by
  have hcount : ¬ 0 < refCount s.files s.dirs n := by
    rw [← hi.refs n hn, hzero]
    exact lt_irrefl 0
  rw [refCount_pos_iff, not_or, not_or] at hcount
  obtain ⟨hnf, hnd, hnp⟩ := hcount
  have hlive : ∀ x, s.live x = true → x ≠ n → s'.live x = true := fun x hx hxn => by
    rw [hr.live, Function.update_of_ne hxn]
    exact hx
  have hsplit : ∀ x, s'.live x = true → x ≠ n ∧ s.live x = true := fun x hx => by
    have hxn : x ≠ n := fun he => by
      rw [he, hr.live, Function.update_self] at hx
      exact absurd hx (by simp)
    rw [hr.live, Function.update_of_ne hxn] at hx
    exact ⟨hxn, hx⟩
  refine ⟨hr.shape, fun a ha => ?_, fun a ha => ?_, fun h f hf => ?_, fun h d hd => ?_⟩
  · obtain ⟨han, ha⟩ := hsplit a ha
    obtain ⟨h1, h2, h3, h4, h5⟩ := hi.buffer a ha
    have e := hr.old a han
    exact ⟨fun hd => e.size.trans (h1 (e.isDir.symm.trans hd)),
      fun hd => e.size.trans (h2 (e.data.symm.trans hd)), fun hd => e.cap ▸ h3 (e.data ▸ hd),
      by rw [e.size, e.cap]; exact h4, by rw [e.cap]; exact h5⟩
  · obtain ⟨han, ha⟩ := hsplit a ha
    rw [hr.files, hr.dirs]
    exact (hr.old a han).refs.trans (hi.refs a ha)
  · obtain ⟨h1, h2, h3, h4⟩ := hi.file h f (hr.files ▸ hf)
    have hfn : f.node ≠ n := fun he => hnf ⟨h, h1, f, hr.files ▸ hf, he⟩
    exact ⟨h1, hlive _ h2 hfn, h3.trans (hr.old _ hfn).isDir.symm, h4⟩
  · have hd' := hr.dirs ▸ hd
    obtain ⟨h1, h2, h3, h4⟩ := hi.dir h d hd'
    have hdn : d.node ≠ n := fun he => hnd ⟨h, h1, d, hd', he⟩
    refine ⟨h1, hlive _ h2 hdn, (hr.old _ hdn).isDir.trans h3, fun c hcp => ?_⟩
    obtain ⟨h5, h6⟩ := h4 c hcp
    have hcn : c ≠ n := fun he => hnp ⟨h, h1, d, hd', he ▸ hcp⟩
    exact ⟨hlive c h5 hcn, (hr.old c hcn).parent.trans h6⟩

/-- The contents of a file are replaced. -/
theorem Inv.setNode {x : Node} (hi : Inv s) (hlinks : SameLinks (s.node a) x) (hb : BufferOk x) :
    Inv (s.modify a fun _ => x) := by
  have hs : SameShape s (s.modify a fun _ => x) := .modify a hlinks.name hlinks.isDir hlinks.parent
    hlinks.child hlinks.sibling
  refine ⟨hs.shape hi.shape, fun b hbl => ?_, fun b hbl => ?_, fun h f hf => ?_, fun h d hd => ?_⟩
  · rw [modify_node]
    split
    · exact hb
    · exact hi.buffer b hbl
  · rw [modify_node]
    split
    · rename_i he
      subst he
      exact hlinks.refs.trans (hi.refs b hbl)
    · exact hi.refs b hbl
  · obtain ⟨h1, h2, h3, h4⟩ := hi.file h f hf
    exact ⟨h1, h2, h3.trans (hs.isDir _).symm, h4⟩
  · obtain ⟨h1, h2, h3, h4⟩ := hi.dir h d hd
    exact ⟨h1, h2, (hs.isDir _).trans h3, fun c hc => ⟨(h4 c hc).1, (hs.parent c).trans (h4 c hc).2⟩⟩

end Ramfs

end Csos

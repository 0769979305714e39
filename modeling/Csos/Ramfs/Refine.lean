import Csos.Ramfs.Invariant
/-!
# The RAM file system — the refinement

A mount and the map of paths correspond (`Sim`) when each path leads to a node
that holds what the map has there, and the handles point at the nodes of
their paths. Each call keeps the correspondence and answers alike.
-/

namespace Csos

namespace Ramfs

open Vfs

variable {s s' : State} {t t' : View} {a c n h : Addr} {f : File} {d : Dir} {p : List Str}
  {buf : List UInt8} {mem : Option Bytes}

/-! ## The correspondence -/

/-- A file handle and its view. -/
def FileView.Of (s : State) (f : File) (v : FileView) : Prop :=
  follow (childFind s) s.root v.path = some f.node ∧ v.pos = f.pos ∧ v.isDir = f.isDir

/-- A directory handle and its view. -/
def DirView.Of (s : State) (d : Dir) (v : DirView) : Prop :=
  follow (childFind s) s.root v.path = some d.node ∧
    v.last = d.pos.map fun c => (s.node c).name

/-- **The mount corresponds to the map.** -/
structure Sim (s : State) (t : View) : Prop where
  inv : Inv s
  shows : Shows s t.tree
  files : ∀ h, Option.Rel (FileView.Of s) (s.files h) (t.files h)
  dirs : ∀ h, Option.Rel (DirView.Of s) (s.dirs h) (t.dirs h)

theorem rel_some {α β : Type*} {R : α → β → Prop} {x : α} {y : Option β}
    (h : Option.Rel R (some x) y) : ∃ z, y = some z ∧ R x z := by
  cases h with
  | some h => exact ⟨_, rfl, h⟩

theorem rel_none {α β : Type*} {R : α → β → Prop} {y : Option β} (h : Option.Rel R none y) :
    y = none := by
  cases h
  rfl

theorem rel_update {α β : Type*} {R : α → β → Prop} {g : Addr → Option α} {k : Addr → Option β}
    {x : Option α} {y : Option β} (hgk : ∀ h, Option.Rel R (g h) (k h)) (hxy : Option.Rel R x y)
    (h h' : Addr) : Option.Rel R (Function.update g h x h') (Function.update k h y h') := by
  by_cases he : h' = h
  · subst he
    rwa [Function.update_self, Function.update_self]
  · rw [Function.update_of_ne he, Function.update_of_ne he]
    exact hgk h'

theorem rel_imp {α β : Type*} {R R' : α → β → Prop} {x : Option α} {y : Option β}
    (h : Option.Rel R x y) (himp : ∀ u v, x = some u → y = some v → R u v → R' u v) :
    Option.Rel R' x y := by
  cases h with
  | some h => exact .some (himp _ _ rfl rfl h)
  | none => exact .none

theorem Sim.file (h : Sim s t) {k : Addr} (hf : s.files k = some f) :
    ∃ v, t.files k = some v ∧ v.Of s f := rel_some (hf ▸ h.files k)

theorem Sim.dir (h : Sim s t) {k : Addr} (hd : s.dirs k = some d) :
    ∃ v, t.dirs k = some v ∧ v.Of s d := rel_some (hd ▸ h.dirs k)

theorem Node.entry_congr {x y : Node} (hd : y.isDir = x.isDir) (hb : SameBuffer x y) :
    y.entry = x.entry := by
  have hbytes : y.bytes = x.bytes := by
    rw [Node.bytes, Node.bytes, hb.size]
    refine List.map_congr_left fun i _ => ?_
    rw [Node.byte, Node.byte, hb.data]
  rw [Node.entry, Node.entry, hd, hbytes]

theorem BufferOk.entry_size {x : Node} (hb : BufferOk x) : x.entry.size = x.size := by
  cases hd : x.isDir with
  | true =>
    rw [Node.entry_of_dir hd, hb.dir hd]
    rfl
  | false =>
    rw [Node.entry_of_file hd]
    exact Node.bytes_length _

/-- **Changes of handles and references** leave the map alone. -/
theorem Sim.of_same (h : Sim s t) (hs : SameShape s s') (hb : ∀ a, SameBuffer (s.node a) (s'.node a))
    (hi : Inv s') (ht : t'.tree = t.tree)
    (hf : ∀ k, Option.Rel (FileView.Of s) (s'.files k) (t'.files k))
    (hd : ∀ k, Option.Rel (DirView.Of s) (s'.dirs k) (t'.dirs k)) : Sim s' t' := by
  refine ⟨hi, fun p => ?_, fun k => rel_imp (hf k) fun u v _ _ hR => ?_,
    fun k => rel_imp (hd k) fun u v _ _ hR => ?_⟩
  · rw [ht, h.shows, hs.follow]
    congr 1
    funext a
    rw [Node.entry_congr (hs.isDir a) (hb a)]
  · exact ⟨(hs.follow _).trans hR.1, hR.2⟩
  · refine ⟨(hs.follow _).trans hR.1, hR.2.trans ?_⟩
    congr 1
    funext c
    rw [hs.name]

/-- **The contents of a file are replaced.** -/
theorem Sim.setNode (h : Sim s t) (hp : follow (childFind s) s.root p = some a)
    (hdir : (s.node a).isDir = false) {x : Node} (hlinks : SameLinks (s.node a) x) (hb : BufferOk x)
    {old : List UInt8} (hold : t.tree.entry p = some (.file old)) :
    Sim (s.modify a fun _ => x) { t with tree := t.tree.setBytes p old x.bytes hold } := by
  have hs : SameShape s (s.modify a fun _ => x) := .modify a hlinks.name hlinks.isDir hlinks.parent
    hlinks.child hlinks.sibling
  refine ⟨h.inv.setNode hlinks hb, fun q => ?_, fun k => rel_imp (h.files k) fun u v _ _ hR => ?_,
    fun k => rel_imp (h.dirs k) fun u v _ _ hR => ?_⟩
  · change Function.update t.tree.entry p (some (.file x.bytes)) q = _
    rw [hs.follow]
    by_cases hq : q = p
    · subst hq
      rw [Function.update_self, hp, Option.map_some, modify_node, if_pos rfl,
        Node.entry_of_file (hlinks.isDir.trans hdir)]
    · rw [Function.update_of_ne hq, h.shows]
      cases hf : follow (childFind s) s.root q with
      | none => rfl
      | some b =>
        have hba : b ≠ a := fun he => hq (h.inv.shape.rooted.follow_inj (he ▸ hf) hp)
        rw [Option.map_some, Option.map_some, modify_node, if_neg hba]
  · exact ⟨(hs.follow _).trans hR.1, hR.2⟩
  · refine ⟨(hs.follow _).trans hR.1, hR.2.trans ?_⟩
    congr 1
    funext c
    rw [hs.name]

/-! ## Handles on files -/

/-- What a call leaves and answers, in both. -/
def Answers (t : View) (c : Call) (r : Option (Answer × State)) : Prop :=
  ∀ a s', r = some (a, s') → ∃ t', t.Allowed c a t' ∧ Sim s' t'

theorem Sim.close (h : Sim s t) (k : Addr) : Answers t (.close k) (step s (.close k)) := by
  intro ans s' hr
  obtain ⟨f, hf, he⟩ := Option.map_eq_some_iff.mp hr
  obtain ⟨rfl, rfl⟩ := Prod.mk.inj he
  obtain ⟨v, hv, -⟩ := h.file hf
  refine ⟨{ t with files := Function.update t.files k none }, .inl ?_, ?_⟩
  · simp only [View.apply, hv, Option.map_some]
  · have hs := sameShape_unref s f.node
    exact h.of_same ⟨hs.live, hs.root, hs.name, hs.isDir, hs.parent, hs.child, hs.sibling⟩
      (sameBuffer_unref s f.node) (h.inv.closeFile hf) rfl (rel_update h.files .none k) h.dirs

theorem Sim.moveFile (h : Sim s t) {k : Addr} (hf : s.files k = some f) {v : FileView}
    (hv : v.Of s f) (f' : File) (v' : FileView) (hnode : f'.node = f.node) (hdir : f'.isDir = f.isDir) (hpos : f'.pos < 2 ^ 63)
    (hpath : v'.path = v.path) (hvpos : v'.pos = f'.pos) (hvdir : v'.isDir = v.isDir) :
    Sim { s with files := Function.update s.files k (some f') }
      { t with files := Function.update t.files k (some v') } := by
  refine h.of_same ⟨rfl, rfl, fun _ => rfl, fun _ => rfl, fun _ => rfl, fun _ => rfl, fun _ => rfl⟩
    (fun _ => ⟨rfl, rfl, rfl⟩) (h.inv.moveFile hf hnode hdir hpos) rfl ?_ h.dirs
  refine rel_update h.files (.some ⟨?_, hvpos, ?_⟩) k
  · rw [hpath, hnode]
    exact hv.1
  · rw [hvdir, hdir]
    exact hv.2.2

theorem Sim.read (h : Sim s t) (k len : ℕ) : Answers t (.read k len) (step s (.read k len)) := by
  intro ans s' hr
  obtain ⟨f, hf, he⟩ := Option.map_eq_some_iff.mp hr
  obtain ⟨v, hv, hR⟩ := h.file hf
  obtain ⟨hk, hlive, hfd, hpos⟩ := h.inv.file k f hf
  have hentry := h.shows.entry hR.1
  rw [ramfsRead] at he
  split at he
  · rename_i hd
    obtain ⟨rfl, rfl⟩ := Prod.mk.inj he
    rw [Node.entry_of_dir (hfd.symm.trans hd)] at hentry
    refine ⟨t, .inl ?_, h⟩
    simp only [View.apply, hv, Option.map_some, hentry]
  · rename_i hd
    rw [Bool.not_eq_true] at hd
    have hbuf := h.inv.buffer _ hlive
    rw [Node.entry_of_file (hfd.symm.trans hd)] at hentry
    obtain ⟨hlen, hbytes⟩ := bytes_drop_take hbuf f.pos len
    have hle := hbuf.size_le
    have hcap := hbuf.cap_lt
    have hgot : (((s.node f.node).bytes.drop f.pos).take len).length ≤ (s.node f.node).size - f.pos := by
      rw [List.length_take, List.length_drop, Node.bytes_length]
      exact Nat.min_le_right _ _
    dsimp only at he hlen hbytes
    rw [hlen] at he hbytes
    rw [hbytes] at he
    obtain ⟨rfl, rfl⟩ := Prod.mk.inj he
    refine ⟨{ t with files := Function.update t.files k (some { v with
      pos := v.pos + (((s.node f.node).bytes.drop f.pos).take len).length }) }, .inl ?_, ?_⟩
    · simp only [View.apply, hv, Option.map_some, hentry, hR.2.1]
    · refine h.moveFile hf hR _ _ rfl rfl ?_ rfl ?_ rfl
      · change _ % 2 ^ 64 < _
        omega
      · change v.pos + _ = _ % 2 ^ 64
        rw [hR.2.1]
        omega

theorem ramfsWrite_eq (hpos : f.pos + buf.length ≤ 2 ^ 63) (hdir : f.isDir = false) :
    ramfsWrite s h f buf mem = match grow (s.node f.node) (f.pos + buf.length) mem with
      | none => (.code errNomem, s)
      | some n₁ =>
        let n := (store n₁ f.pos buf).extend (f.pos + buf.length)
        (.code buf.length, { (s.modify f.node fun _ => n) with
          files := Function.update s.files h
            (some { f with pos := f.pos + buf.length, size := n.size }) }) := by
  have hmod : (f.pos + buf.length) % 2 ^ 64 = f.pos + buf.length := Nat.mod_eq_of_lt (by omega)
  rw [ramfsWrite, hdir, if_neg (by simp), hmod]
  rfl

theorem Sim.write (hsim : Sim s t) (k : Addr) (buf : List UInt8) (mem : Option Bytes) :
    Answers t (.write k buf mem) (step s (.write k buf mem)) := by
  intro ans s' hr
  obtain ⟨f, hf, he⟩ := Option.bind_eq_some_iff.mp hr
  obtain ⟨v, hv, hR⟩ := hsim.file hf
  obtain ⟨hk, hlive, hfd, hpos⟩ := hsim.inv.file k f hf
  have hentry := hsim.shows.entry hR.1
  split at he
  swap
  · exact absurd he (by simp)
  rename_i hok
  obtain ⟨hle, hmem⟩ := hok
  have he := Option.some.inj he
  cases hd : f.isDir with
  | true =>
    rw [ramfsWrite, if_pos hd] at he
    obtain ⟨rfl, rfl⟩ := Prod.mk.inj he
    rw [Node.entry_of_dir (hfd.symm.trans hd)] at hentry
    refine ⟨t, .inl ?_, hsim⟩
    simp only [View.apply, hv, Option.map_some]
    split
    · rename_i bytes hfile
      exact absurd (hentry.symm.trans hfile) (by simp)
    · rfl
  | false =>
    rw [ramfsWrite_eq hle hd] at he
    have hnd := hfd.symm.trans hd
    rw [Node.entry_of_file hnd] at hentry
    cases hg : grow (s.node f.node) (f.pos + buf.length) mem with
    | none =>
      rw [hg] at he
      obtain ⟨rfl, rfl⟩ := Prod.mk.inj he
      have hnone : mem = none := by
        unfold grow at hg
        split at hg
        · exact absurd hg (by simp)
        · cases mem with
          | none => rfl
          | some b => exact absurd hg (by simp)
      exact ⟨t, .inr ⟨k, buf, by rw [hnone], rfl, rfl⟩, hsim⟩
    | some n₁ =>
      rw [hg] at he
      obtain ⟨rfl, rfl⟩ := Prod.mk.inj he
      obtain ⟨hb, hlinks, hbytes, hlt⟩ :=
        write_spec (hsim.inv.buffer _ hlive) hnd hle hmem hg
      generalize (store n₁ f.pos buf).extend (f.pos + buf.length) = x at hb hlinks hbytes
      have hset := hsim.setNode hR.1 hnd hlinks hb hentry
      have hRset : v.Of (s.modify f.node fun _ => x) f := by
        obtain ⟨w, hw, hRw⟩ := hset.file hf
        obtain rfl : v = w := Option.some.inj (hv.symm.trans hw)
        exact hRw
      have hmove := hset.moveFile hf hRset { f with pos := f.pos + buf.length, size := x.size }
        { v with pos := v.pos + buf.length } rfl rfl
        (by change f.pos + buf.length < 2 ^ 63; omega) rfl (by rw [hR.2.1]) rfl
      refine ⟨_, .inl ?_, hmove⟩
      simp only [View.apply, hv, Option.map_some]
      split
      · rename_i bytes hfile
        obtain rfl : (s.node f.node).bytes = bytes := by
          simpa using hentry.symm.trans hfile
        rw [← hR.2.1] at hbytes
        simp only [hbytes]
      · rename_i hno
        exact absurd hentry (hno _)

theorem Sim.seek (hsim : Sim s t) (k : Addr) (off whence : ℤ) :
    Answers t (.seek k off whence) (step s (.seek k off whence)) := by
  intro ans s' hr
  obtain ⟨f, hf, he⟩ := Option.bind_eq_some_iff.mp hr
  obtain ⟨v, hv, hR⟩ := hsim.file hf
  obtain ⟨hk, hlive, hfd, hpos⟩ := hsim.inv.file k f hf
  have hentry := hsim.shows.entry hR.1
  split at he
  swap
  · exact absurd he (by simp)
  rename_i hoff
  have he := Option.some.inj he
  rw [ramfsSeek] at he
  split at he
  · rename_i hd
    obtain ⟨rfl, rfl⟩ := Prod.mk.inj he
    refine ⟨t, .inl ?_, hsim⟩
    simp only [View.apply, hv, Option.map_some, hR.2.2, hd, if_true]
  · rename_i hd
    rw [Bool.not_eq_true] at hd
    have hbuf := hsim.inv.buffer _ hlive
    have hsz := hbuf.size_le
    have hcap := hbuf.cap_lt
    have hsize : t.sizeAt v.path = (s.node f.node).size := by
      rw [View.sizeAt, hentry, Node.entry_of_file (hfd.symm.trans hd)]
      simp [Entry.size]
    -- the wrapped sum is negative exactly if the sum does not fit
    have hwrap : ∀ x : ℕ, x < 2 ^ 63 → (Int.bmod (x + off) (2 ^ 64) < 0 ↔ ¬ (0 ≤ x + off ∧ x + off < 2 ^ 63)) ∧
        (0 ≤ x + off ∧ x + off < 2 ^ 63 → Int.bmod (x + off) (2 ^ 64) = x + off) := by
      intro x hx
      rw [Int.bmod_def]
      constructor
      · split <;> omega
      · intro h
        split <;> omega
    generalize hbase : (if whence = seekSet then off
      else if whence = seekCur then Int.bmod (f.pos + off) (2 ^ 64)
      else Int.bmod ((s.node f.node).size + off) (2 ^ 64)) = base at he
    generalize hbase' : (if whence = seekSet then off
      else if whence = seekCur then f.pos + off else (s.node f.node).size + off) = base'
    have hcases : (base < 0 ↔ ¬ (0 ≤ base' ∧ base' < 2 ^ 63)) ∧
        (0 ≤ base' ∧ base' < 2 ^ 63 → base = base') := by
      rw [← hbase, ← hbase']
      split
      · omega
      · split
        · exact hwrap f.pos hpos
        · exact hwrap _ (by omega)
    have happly : t.apply (.seek k off whence) = some (if 0 ≤ base' ∧ base' < 2 ^ 63 then
        (.code base', { t with files := Function.update t.files k (some { v with pos := base'.toNat }) })
      else (.code errInval, t)) := by
      simp only [View.apply, hv, Option.map_some, hR.2.2, hd, hR.2.1, hsize, ← hbase']
      rfl
    dsimp only at he
    split at he
    · rename_i hneg
      obtain ⟨rfl, rfl⟩ := Prod.mk.inj he
      refine ⟨t, .inl ?_, hsim⟩
      rw [happly, if_neg (hcases.1.mp hneg)]
    · rename_i hneg
      have hin : 0 ≤ base' ∧ base' < 2 ^ 63 := by
        by_contra hno
        exact hneg (hcases.1.mpr hno)
      obtain rfl := hcases.2 hin
      obtain ⟨rfl, rfl⟩ := Prod.mk.inj he
      refine ⟨_, .inl (happly.trans (by rw [if_pos hin])), ?_⟩
      exact hsim.moveFile hf hR _ _ rfl rfl (by change base.toNat < _; omega) rfl rfl rfl

/-! ## Lookups -/

/-- What a lookup finds, in both. -/
theorem Sim.find (hsim : Sim s t) (hp : ∀ m ∈ p, Component m) :
    (∃ e, lookup s (joinPath p) = .error e ∧ t.tree.find [] p = .error e) ∨
      ∃ c, lookup s (joinPath p) = .ok c ∧ follow (childFind s) s.root p = some c ∧
        ∀ e, (s.node c).entry = e → ∃ hc, t.tree.find [] p = .ok ⟨p, e, hc⟩ := by
  have hroot : follow (childFind s) s.root [] = some s.root := rfl
  have hfind := hsim.shows.find (p := p) hroot
  rw [lookup_joinPath hp]
  cases hw : walk s s.root p with
  | error e =>
    rw [hw] at hfind
    exact .inl ⟨e, rfl, hfind⟩
  | ok c =>
    rw [hw] at hfind
    obtain ⟨hc, he, hfind⟩ := hfind
    refine .inr ⟨c, rfl, hc, fun e hce => ?_⟩
    subst hce
    exact ⟨he, hfind⟩

theorem Sim.stat (hsim : Sim s t) (p : List Str) : Answers t (.stat p) (step s (.stat p)) := by
  intro ans s' hr
  rw [step] at hr
  split at hr
  swap
  · exact absurd hr (by simp)
  rename_i hp
  obtain ⟨rfl, rfl⟩ := Prod.mk.inj (Option.some.inj hr)
  refine ⟨t, .inl ?_, hsim⟩
  rcases hsim.find hp with ⟨e, hl, hfind⟩ | ⟨c, hl, hc, hfind⟩
  · simp only [View.apply, hfind, ramfsStat, hl]
  · obtain ⟨hce, hfind⟩ := hfind _ rfl
    have hlive := hsim.inv.shape.follow_live hc
    have hsize := (hsim.inv.buffer c hlive).entry_size
    simp only [View.apply, hfind, ramfsStat, hl, hsize, Node.entry_isDir]

/-! ## New entries -/

/-- **A node is made**, in both. -/
theorem Sim.created {leaf : Str} (hsim : Sim s t) (isDir : Bool)
    (hp : follow (childFind s) s.root p = some a) (hd : (s.node a).isDir = true)
    (hn : s.live n = false) (hbound : n < heapEnd) (hleaf : NameOk leaf)
    (hnone : childFind s a leaf = none) (hdir : t.tree.entry p = some .dir)
    (hentry : t.tree.entry (p ++ [leaf]) = none) :
    Sim (created s a n leaf isDir) { t with
      tree := t.tree.create p leaf (if isDir then .dir else .file []) hdir hentry } ∧
    follow (childFind (created s a n leaf isDir)) (created s a n leaf isDir).root (p ++ [leaf]) =
      some n ∧ ((created s a n leaf isDir).node n).entry = (if isDir then .dir else .file []) ∧
    (created s a n leaf isDir).files = s.files := by
  have hshape := hsim.inv.shape
  have hlive := hshape.follow_live hp
  have hc : Created s (Ramfs.created s a n leaf isDir) a n leaf isDir :=
    created_spec hshape hlive hd hn hbound hleaf hnone
  generalize Ramfs.created s a n leaf isDir = s' at hc
  have hne : ∀ x, s.live x = true → x ≠ n := fun x hx he => by
    rw [he, hn] at hx
    exact absurd hx (by simp)
  have hfollow := hc.follow hshape hp hnone
  have hold : follow (childFind s) s.root (p ++ [leaf]) = none :=
    (follow_concat_of_some hp).trans hnone
  have hkeep : ∀ q b, follow (childFind s) s.root q = some b →
      follow (childFind s') s'.root q = some b := fun q b hq => by
    rw [hfollow, if_neg fun he => ?_, hq]
    rw [he, hold] at hq
    exact absurd hq (by simp)
  have hnew : (s'.node n).entry = if isDir then .dir else .file [] := by
    have hnd := hc.new.isDir
    cases isDir with
    | true => exact Node.entry_of_dir hnd
    | false =>
      rw [Node.entry_of_file hnd, Node.bytes, hc.new.size]
      rfl
  refine ⟨⟨hsim.inv.created hc hn, fun q => ?_, fun k => ?_, fun k => ?_⟩, ?_, hnew, hc.files⟩
  · change Function.update t.tree.entry (p ++ [leaf]) _ q = _
    rw [hfollow]
    by_cases hq : q = p ++ [leaf]
    · rw [hq, Function.update_self, if_pos rfl, Option.map_some, hnew]
    · rw [Function.update_of_ne hq, if_neg hq, hsim.shows]
      cases hf : follow (childFind s) s.root q with
      | none => rfl
      | some b =>
        have e := hc.old b (hne b (hshape.follow_live hf))
        rw [Option.map_some, Option.map_some, Node.entry_congr e.isDir ⟨e.data, e.size, e.cap⟩]
  · rw [hc.files]
    exact rel_imp (hsim.files k) fun u v _ _ hR => ⟨hkeep _ _ hR.1, hR.2⟩
  · rw [hc.dirs]
    refine rel_imp (hsim.dirs k) fun u v hu _ hR => ⟨hkeep _ _ hR.1, hR.2.trans ?_⟩
    cases hpos : u.pos with
    | none => rfl
    | some c =>
      have hcl := ((hsim.inv.dir k u hu).2.2.2 c hpos).1
      rw [Option.map_some, Option.map_some, (hc.old c (hne c hcl)).name]
  · rw [hfollow, if_pos rfl]

/-- **`ramfs_create_locked`**, in both. -/
theorem Sim.createLocked (hsim : Sim s t) (hp : ∀ m ∈ p, Component m) (isDir : Bool)
    {mem : Option Addr} (hmem : freshNode s mem = true) :
    (∃ e, createLocked s (joinPath p) isDir mem = (.error e, s) ∧
      t.create p (if isDir then .dir else .file []) mem = (.error e, t)) ∨
    ∃ n s' t', createLocked s (joinPath p) isDir mem = (.ok n, s') ∧
      t.create p (if isDir then .dir else .file []) mem =
        (.ok (p, if isDir then .dir else .file []), t') ∧
      Sim s' t' ∧ follow (childFind s') s'.root p = some n ∧
      (s'.node n).entry = (if isDir then .dir else .file []) ∧
      s'.files = s.files ∧ t'.files = t.files := by
  rcases List.eq_nil_or_concat' p with rfl | ⟨q, leaf, rfl⟩
  · exact .inl ⟨errInval, rfl, rfl⟩
  have hq : ∀ m ∈ q, Component m := fun m hm => hp m (List.mem_append_left _ hm)
  have hcomp : Component leaf := hp leaf (by simp)
  obtain ⟨hleaf, hparent⟩ := split_joinPath (p := q) hcomp
  have hlast : (q ++ [leaf]).getLast? = some leaf := by simp
  have hdrop : (q ++ [leaf]).dropLast = q := by simp
  have hne : leaf.length ≠ 0 := fun he => hcomp.1 (List.eq_nil_of_length_eq_zero he)
  unfold Ramfs.createLocked View.create
  rw [hleaf, hparent, hlast, hdrop]
  dsimp only
  by_cases hlong : 64 ≤ leaf.length
  · rw [if_pos (.inr hlong), if_pos hlong]
    exact .inl ⟨errInval, rfl, rfl⟩
  rw [if_neg (by rintro (h1 | h2); exacts [hne h1, hlong h2]), if_neg hlong]
  rcases hsim.find hq with ⟨e, hl, hfind⟩ | ⟨c, hl, hc, hfind⟩
  · rw [hl, hfind]
    exact .inl ⟨e, rfl, rfl⟩
  rw [hl]
  dsimp only
  cases hd : (s.node c).isDir with
  | false =>
    obtain ⟨hce, hfind⟩ := hfind _ (Node.entry_of_file hd)
    rw [hfind, if_pos rfl]
    exact .inl ⟨errNotdir, rfl, rfl⟩
  | true =>
    obtain ⟨hce, hfind⟩ := hfind _ (Node.entry_of_dir hd)
    rw [hfind, if_neg (by simp)]
    dsimp only
    have hent : t.tree.entry (q ++ [leaf]) = (childFind s c leaf).map fun a => (s.node a).entry := by
      rw [hsim.shows, follow_concat_of_some hc]
    cases hchild : childFind s c leaf with
    | some b =>
      rw [hchild] at hent
      rw [dif_neg (by rw [hent]; simp)]
      exact .inl ⟨errExist, rfl, rfl⟩
    | none =>
      rw [hchild, Option.map_none] at hent
      rw [dif_pos hent, if_neg (by simp)]
      cases mem with
      | none => exact .inl ⟨errNomem, rfl, rfl⟩
      | some n =>
        simp only [freshNode, Option.all_some, decide_eq_true_eq] at hmem
        obtain ⟨h1, h2, h4, h5⟩ := hsim.created isDir hc hd hmem.1 hmem.2
          ⟨hcomp, by rw [nameMax]; omega⟩ hchild hce hent
        exact .inr ⟨n, _, _, rfl, rfl, h1, h2, h4, h5, rfl⟩

theorem Sim.mkdir (hsim : Sim s t) (p : List Str) (mem : Option Addr) :
    Answers t (.mkdir p mem) (step s (.mkdir p mem)) := by
  intro ans s' hr
  rw [step] at hr
  split at hr
  swap
  · exact absurd hr (by simp)
  rename_i hok
  obtain ⟨rfl, rfl⟩ := Prod.mk.inj (Option.some.inj hr)
  rcases hsim.createLocked hok.1 true hok.2 with ⟨e, h1, h2⟩ | ⟨n, s₁, t₁, h1, h2, h3, -⟩
  · refine ⟨t, .inl ?_, ?_⟩
    · simp only [View.apply, ramfsMkdir, h1]
      rw [show t.create p Entry.dir mem = _ from h2]
    · simp only [ramfsMkdir, h1]
      exact hsim
  · refine ⟨t₁, .inl ?_, ?_⟩
    · simp only [View.apply, ramfsMkdir, h1]
      rw [show t.create p Entry.dir mem = _ from h2]
    · simp only [ramfsMkdir, h1]
      exact h3

/-! ## Opening -/

/-- What `open` finds or makes, in both. -/
theorem Sim.openLookup (hsim : Sim s t) (hp : ∀ m ∈ p, Component m) (flags : ℕ)
    {mem : Option Addr} (hmem : freshNode s mem = true) :
    (∃ e, openLookup s (joinPath p) flags mem = (.error e, s) ∧
      t.openEntry p flags mem = (.error e, t)) ∨
    ∃ n s' t', openLookup s (joinPath p) flags mem = (.ok n, s') ∧
      t.openEntry p flags mem = (.ok (p, (s'.node n).entry), t') ∧ Sim s' t' ∧
      follow (childFind s') s'.root p = some n ∧ s'.files = s.files ∧ t'.files = t.files := by
  unfold Ramfs.openLookup View.openEntry
  rcases hsim.find hp with ⟨e, hl, hfind⟩ | ⟨c, hl, hc, hfind⟩
  · rw [hl, hfind]
    dsimp only
    by_cases hcreat : e = errNoent ∧ flags &&& oCreat ≠ 0 ∧ flags &&& oDirectory = 0
    · rw [if_pos hcreat, if_pos hcreat]
      rcases hsim.createLocked hp false hmem with ⟨e, h1, h2⟩ | ⟨n, s', t', h1, h2, h3, h4, h5, h6, h7⟩
      · exact .inl ⟨e, h1, h2⟩
      · refine .inr ⟨n, s', t', h1, ?_, h3, h4, h6, h7⟩
        rw [h5]
        exact h2
    · rw [if_neg hcreat, if_neg hcreat]
      exact .inl ⟨e, rfl, rfl⟩
  · obtain ⟨hce, hfind⟩ := hfind _ rfl
    rw [hl, hfind]
    exact .inr ⟨c, s, t, rfl, rfl, hsim, hc, rfl, rfl⟩

theorem Sim.truncate (hsim : Sim s t) (hp : follow (childFind s) s.root p = some n) (flags : ℕ) :
    Sim (truncate s n flags) (t.truncate p flags) ∧
      (Ramfs.truncate s n flags).files = s.files ∧ (t.truncate p flags).files = t.files ∧
      follow (childFind (Ramfs.truncate s n flags)) (Ramfs.truncate s n flags).root p = some n ∧
      ((Ramfs.truncate s n flags).node n).isDir = (s.node n).isDir := by
  have hentry := hsim.shows.entry hp
  have hlive := hsim.inv.shape.follow_live hp
  unfold Ramfs.truncate View.truncate
  cases hd : (s.node n).isDir with
  | true =>
    rw [Node.entry_of_dir hd] at hentry
    rw [if_neg (by simp)]
    split
    · rename_i bytes hfile
      exact absurd (hentry.symm.trans hfile) (by simp)
    · exact ⟨hsim, rfl, rfl, hp, hd⟩
  | false =>
    rw [Node.entry_of_file hd] at hentry
    by_cases htrunc : flags &&& oTrunc ≠ 0 ∧ flags &&& 3 ≠ oRdonly
    · have hb := hsim.inv.buffer n hlive
      have hlinks : SameLinks (s.node n) { s.node n with size := 0 } :=
        ⟨rfl, rfl, rfl, rfl, rfl, rfl⟩
      have hset := hsim.setNode hp hd hlinks
        ⟨fun _ => rfl, fun _ => rfl, hb.cap_ne, Nat.zero_le _, hb.cap_lt⟩ hentry
      have hs : SameShape s (s.modify n fun _ => { s.node n with size := 0 }) :=
        .modify n rfl rfl rfl rfl rfl
      have hmod : (s.modify n fun x => { x with size := 0 }) =
          s.modify n fun _ => { s.node n with size := 0 } := rfl
      rw [if_pos ⟨rfl, htrunc⟩, hmod]
      split
      · rename_i bytes hfile
        obtain rfl : (s.node n).bytes = bytes := by simpa using hentry.symm.trans hfile
        rw [if_pos htrunc]
        exact ⟨hset, rfl, rfl, (hs.follow p).trans hp, (hs.isDir n).trans hd⟩
      · rename_i hno
        exact absurd hentry (hno _)
    · rw [if_neg fun hc => htrunc hc.2]
      split
      · rw [if_neg htrunc]
        exact ⟨hsim, rfl, rfl, hp, hd⟩
      · exact ⟨hsim, rfl, rfl, hp, hd⟩

theorem Sim.openFile (hsim : Sim s t) (k : Addr) (p : List Str) (flags : ℕ) (mem : Option Addr) :
    Answers t (.openFile k p flags mem) (step s (.openFile k p flags mem)) := by
  intro ans s' hr
  rw [step] at hr
  split at hr
  swap
  · exact absurd hr (by simp)
  rename_i hok
  obtain ⟨hp, hmem, hnone, hk⟩ := hok
  have hnone := Option.isNone_iff_eq_none.mp hnone
  have htnone : t.files k = none := rel_none (hnone ▸ hsim.files k)
  obtain ⟨rfl, rfl⟩ := Prod.mk.inj (Option.some.inj hr)
  have happly : (t.files k).isSome = false := by rw [htnone]; rfl
  rcases hsim.openLookup hp flags hmem with ⟨e, h1, h2⟩ | ⟨n, s₁, t₁, h1, h2, h3, h4, h5, h6⟩
  · refine ⟨t, .inl ?_, ?_⟩
    · simp only [View.apply, ramfsOpen, h1, h2, happly]
      rfl
    · simp only [ramfsOpen, h1]
      exact hsim
  have hdir := Node.entry_isDir (s₁.node n)
  by_cases hisdir : (s₁.node n).isDir = true ∧ flags &&& oDirectory = 0
  · refine ⟨t₁, .inl ?_, ?_⟩
    · simp only [View.apply, ramfsOpen, h1, h2, happly, hdir, if_pos hisdir]
      rfl
    · simp only [ramfsOpen, h1, if_pos hisdir]
      exact h3
  by_cases hnotdir : (s₁.node n).isDir = false ∧ flags &&& oDirectory ≠ 0
  · refine ⟨t₁, .inl ?_, ?_⟩
    · simp only [View.apply, ramfsOpen, h1, h2, happly, hdir, if_neg hisdir, if_pos hnotdir]
      rfl
    · simp only [ramfsOpen, h1, if_neg hisdir, if_pos hnotdir]
      exact h3
  obtain ⟨hT, hTf, hTv, hTp, hTd⟩ := h3.truncate h4 flags
  have hlive := hT.inv.shape.follow_live hTp
  have hsize : (t₁.truncate p flags).sizeAt p = ((Ramfs.truncate s₁ n flags).node n).entry.size := by
    rw [View.sizeAt, hT.shows.entry hTp]
    rfl
  generalize hs₂ : Ramfs.truncate s₁ n flags = s₂ at *
  generalize ht₂ : t₁.truncate p flags = t₂ at *
  have hb := hT.inv.buffer n hlive
  -- the handle that is opened
  have hpos : (if (s₁.node n).isDir = false ∧ flags &&& oAppend ≠ 0 then t₂.sizeAt p else 0) =
      (openHandle n (s₂.node n) flags).pos := by
    rw [openHandle]
    by_cases happend : (s₁.node n).isDir = false ∧ flags &&& oAppend ≠ 0
    · rw [if_pos happend, hsize, Node.entry_of_file (hTd.trans happend.1)]
      exact (Node.bytes_length _).trans (if_pos ⟨hTd.trans happend.1, happend.2⟩).symm
    · rw [if_neg happend]
      exact (if_neg fun hc => happend ⟨hTd.symm.trans hc.1, hc.2⟩).symm
  have hok : FileOk s₂ (openHandle n (s₂.node n) flags) := by
    refine ⟨hlive, rfl, ?_⟩
    have h1 := hb.size_le
    have h2 := hb.cap_lt
    rw [openHandle]
    change (if _ then _ else _) < _
    split <;> omega
  have hinv := hT.inv.openFile hk (by rw [hTf, h5]; exact hnone) hok
  have hs := sameShape_ref s₂ n
  have hsim' : Sim { s₂.modify n Node.ref with
        files := Function.update s₂.files k (some (openHandle n (s₂.node n) flags)) }
      { t₂ with
        files := Function.update t₂.files k
          (some ⟨p, (openHandle n (s₂.node n) flags).pos, (s₁.node n).isDir⟩) } := by
    refine hT.of_same ⟨hs.live, hs.root, hs.name, hs.isDir, hs.parent, hs.child, hs.sibling⟩
      (sameBuffer_ref s₂ n) hinv rfl ?_ hT.dirs
    exact rel_update hT.files (.some ⟨hTp, rfl, hTd.symm⟩) k
  have href : ((s₂.modify n Node.ref).node n) = (s₂.node n).ref := by
    rw [modify_node, if_pos rfl]
  have hstate : (ramfsOpen s k (joinPath p) flags mem).2 = { s₂.modify n Node.ref with
      files := Function.update s₂.files k (some (openHandle n (s₂.node n) flags)) } := by
    simp only [ramfsOpen, h1, if_neg hisdir, if_neg hnotdir, hs₂, href]
    rfl
  rw [hstate]
  refine ⟨_, .inl ?_, hsim'⟩
  simp only [View.apply, ramfsOpen, h1, h2, happly, hdir, if_neg hisdir, if_neg hnotdir, ht₂, hpos]
  rfl

/-! ## Removing -/

/-- **A path is referenced** if its node has references. -/
theorem Sim.referenced_iff (hsim : Sim s t) (hp : follow (childFind s) s.root p = some n) :
    t.Referenced p ↔ (s.node n).refs ≠ 0 := by
  have hshape := hsim.inv.shape
  have hinj : ∀ q, follow (childFind s) s.root q = some n ↔ q = p := fun q =>
    ⟨fun hq => hshape.rooted.follow_inj hq hp, fun hq => hq ▸ hp⟩
  rw [hsim.inv.refs n (hshape.follow_live hp), ← Nat.pos_iff_ne_zero, refCount_pos_iff,
    View.Referenced]
  -- the child a cursor stands at is at the path of its directory and its name
  have hcursor : ∀ k d (v : DirView) c, s.dirs k = some d → v.Of s d → d.pos = some c →
      follow (childFind s) s.root (v.path ++ [(s.node c).name]) = some c := by
    intro k d v c hd hR hpos
    obtain ⟨h1, h2⟩ := (hsim.inv.dir k d hd).2.2.2 c hpos
    rw [follow_concat_of_some hR.1]
    exact hshape.childFind_name h1 h2
  constructor
  · rintro (⟨k, v, hv, rfl⟩ | ⟨k, v, hv, rfl⟩ | ⟨k, v, m, hv, hm, rfl⟩)
    · cases hf : s.files k with
      | none =>
        have := rel_none (hf ▸ hsim.files k)
        exact absurd (hv.symm.trans this) (by simp)
      | some f =>
        obtain ⟨w, hw, hR⟩ := hsim.file hf
        obtain rfl := Option.some.inj (hv.symm.trans hw)
        exact .inl ⟨k, (hsim.inv.file k f hf).1, f, hf, Option.some.inj (hR.1.symm.trans hp)⟩
    · cases hd : s.dirs k with
      | none =>
        have := rel_none (hd ▸ hsim.dirs k)
        exact absurd (hv.symm.trans this) (by simp)
      | some d =>
        obtain ⟨w, hw, hR⟩ := hsim.dir hd
        obtain rfl := Option.some.inj (hv.symm.trans hw)
        exact .inr (.inl ⟨k, (hsim.inv.dir k d hd).1, d, hd, Option.some.inj (hR.1.symm.trans hp)⟩)
    · cases hd : s.dirs k with
      | none =>
        have := rel_none (hd ▸ hsim.dirs k)
        exact absurd (hv.symm.trans this) (by simp)
      | some d =>
        obtain ⟨w, hw, hR⟩ := hsim.dir hd
        obtain rfl := Option.some.inj (hv.symm.trans hw)
        obtain ⟨c, hpos, hname⟩ := Option.map_eq_some_iff.mp (hR.2.symm.trans hm)
        have hcp := hcursor k d v c hd hR hpos
        rw [hname] at hcp
        obtain rfl := Option.some.inj (hcp.symm.trans hp)
        exact .inr (.inr ⟨k, (hsim.inv.dir k d hd).1, d, hd, hpos⟩)
  · rintro (⟨k, -, f, hf, rfl⟩ | ⟨k, -, d, hd, rfl⟩ | ⟨k, -, d, hd, hpos⟩)
    · obtain ⟨v, hv, hR⟩ := hsim.file hf
      exact .inl ⟨k, v, hv, (hinj _).mp hR.1⟩
    · obtain ⟨v, hv, hR⟩ := hsim.dir hd
      exact .inr (.inl ⟨k, v, hv, (hinj _).mp hR.1⟩)
    · obtain ⟨v, hv, hR⟩ := hsim.dir hd
      refine .inr (.inr ⟨k, v, (s.node n).name, hv, ?_, ?_⟩)
      · rw [hR.2, hpos]
        rfl
      · exact (hinj _).mp (hcursor k d v n hd hR hpos)

/-- **A directory is removed**, in both. -/
theorem Sim.removed {q : List Str} {leaf : Str} (hsim : Sim s t)
    (hp : follow (childFind s) s.root (q ++ [leaf]) = some n) (hchild : (s.node n).child = none)
    (hrefs : (s.node n).refs = 0) (hnone : ∀ m, t.tree.entry (q ++ [leaf] ++ [m]) = none) :
    Sim (removed s n) { t with tree := t.tree.remove q leaf hnone } := by
  have hshape := hsim.inv.shape
  have hlive := hshape.follow_live hp
  obtain ⟨b, hb, hbl⟩ := Option.bind_eq_some_iff.mp (follow_concat.symm.trans hp)
  obtain ⟨-, hparent, -, -⟩ := hshape.childFind_kid (hshape.follow_live hb) hbl
  have hnr : ¬ t.Referenced (q ++ [leaf]) := fun hc => (hsim.referenced_iff hp).mp hc hrefs
  have hr := removed_spec hshape hlive hparent hchild
  have hinv := hsim.inv.removed hr hlive hrefs
  generalize Ramfs.removed s n = s' at hr hinv
  have hfollow := hr.follow hshape hb hbl hchild
  have hne : ∀ r c, follow (childFind s) s.root r = some c → r ≠ q ++ [leaf] → c ≠ n :=
    fun r c hc hrp he => hrp (hshape.rooted.follow_inj (he ▸ hc) hp)
  refine ⟨hinv, fun r => ?_, fun k => ?_, fun k => ?_⟩
  · change Function.update t.tree.entry (q ++ [leaf]) none r = _
    rw [hfollow]
    by_cases hq : r = q ++ [leaf]
    · rw [hq, Function.update_self, if_pos rfl]
      rfl
    · rw [Function.update_of_ne hq, if_neg hq, hsim.shows]
      cases hf : follow (childFind s) s.root r with
      | none => rfl
      | some c =>
        have e := hr.old c (hne r c hf hq)
        rw [Option.map_some, Option.map_some, Node.entry_congr e.isDir ⟨e.data, e.size, e.cap⟩]
  · rw [hr.files]
    refine rel_imp (hsim.files k) fun f v _ hv hR => ⟨?_, hR.2⟩
    have hvp : v.path ≠ q ++ [leaf] := fun he => hnr (.inl ⟨k, v, hv, he⟩)
    rw [hfollow, if_neg hvp]
    exact hR.1
  · rw [hr.dirs]
    refine rel_imp (hsim.dirs k) fun d v hd hv hR => ⟨?_, hR.2.trans ?_⟩
    · have hvp : v.path ≠ q ++ [leaf] := fun he => hnr (.inr (.inl ⟨k, v, hv, he⟩))
      rw [hfollow, if_neg hvp]
      exact hR.1
    · cases hpos : d.pos with
      | none => rfl
      | some c =>
        have hcn : c ≠ n := by
          rintro rfl
          have hpos' : 0 < refCount s.files s.dirs c :=
            refCount_pos_iff.mpr (.inr (.inr ⟨k, (hsim.inv.dir k d hd).1, d, hd, hpos⟩))
          rw [← hsim.inv.refs c hlive, hrefs] at hpos'
          exact absurd hpos' (lt_irrefl 0)
        rw [Option.map_some, Option.map_some, (hr.old c hcn).name]

open Classical in
theorem Sim.rmdir (hsim : Sim s t) (p : List Str) : Answers t (.rmdir p) (step s (.rmdir p)) := by
  intro ans s' hr
  rw [step] at hr
  split at hr
  swap
  · exact absurd hr (by simp)
  rename_i hp
  obtain ⟨rfl, rfl⟩ := Prod.mk.inj (Option.some.inj hr)
  have hshape := hsim.inv.shape
  rcases hsim.find hp with ⟨e, hl, hfind⟩ | ⟨c, hl, hc, hfind⟩
  · refine ⟨t, .inl ?_, ?_⟩
    · simp only [View.apply, hfind, ramfsRmdir, hl]
    · simp only [ramfsRmdir, hl]
      exact hsim
  have hlive := hshape.follow_live hc
  cases hd : (s.node c).isDir with
  | false =>
    obtain ⟨hce, hfind⟩ := hfind _ (Node.entry_of_file hd)
    refine ⟨t, .inl ?_, ?_⟩
    · simp only [View.apply, hfind, ramfsRmdir, hl, hd, if_true]
    · simp only [ramfsRmdir, hl, hd, if_true]
      exact hsim
  | true =>
    obtain ⟨hce, hfound⟩ := hfind _ (Node.entry_of_dir hd)
    rcases List.eq_nil_or_concat' p with rfl | ⟨q, leaf, rfl⟩
    · obtain rfl : s.root = c := Option.some.inj hc
      refine ⟨t, .inl ?_, ?_⟩
      · simp only [View.apply, hfound, ramfsRmdir, hl, hd]
        simp
      · simp only [ramfsRmdir, hl, hd]
        simpa using hsim
    have hroot : c ≠ s.root := fun he => by
      have := hshape.rooted.follow_inj hc (he ▸ rfl : follow (childFind s) s.root [] = some c)
      simp at this
    have hlast : (q ++ [leaf]).getLast? = some leaf := by simp
    have hdrop : (q ++ [leaf]).dropLast = q := by simp
    have happly : t.apply (.rmdir (q ++ [leaf])) =
        if hn : ∀ m, t.tree.entry (q ++ [leaf] ++ [m]) = none then
          if t.Referenced (q ++ [leaf]) then some (.code errBusy, t)
          else some (.code vfsOk, { t with tree := t.tree.remove q leaf hn })
        else some (.code errNotempty, t) := by
      simp only [View.apply, hfound, hlast, hdrop]
    have hcode : ramfsRmdir s (joinPath (q ++ [leaf])) =
        if (s.node c).child ≠ none then (errNotempty, s)
        else if (s.node c).refs ≠ 0 then (errBusy, s)
        else (vfsOk, Ramfs.removed s c) := by
      unfold ramfsRmdir
      rw [hl]
      dsimp only
      rw [hd, if_neg (by simp), if_neg hroot]
      rfl
    -- the node has children if the directory has names
    have hchild : (s.node c).child = none ↔ ∀ m, t.tree.entry (q ++ [leaf] ++ [m]) = none := by
      obtain ⟨l, hl⟩ := hshape.children c hlive
      have hent : ∀ m, t.tree.entry (q ++ [leaf] ++ [m]) =
          (childFind s c m).map fun a => (s.node a).entry := fun m => by
        rw [hsim.shows, follow_concat_of_some hc]
      constructor
      · intro hnone m
        have hlink := hl.linked
        rw [hnone] at hlink
        cases l with
        | nil =>
          rw [hent, hl.childFind_eq hshape]
          rfl
        | cons x l => exact absurd hlink.1 (by simp)
      · intro hnone
        rw [hl.linked.head?_eq]
        cases l with
        | nil => rfl
        | cons x l =>
          have := hnone (s.node x).name
          rw [hent, (hl.childFind_iff hshape).mpr ⟨List.mem_cons_self, rfl⟩] at this
          exact absurd this (by simp)
    rw [hcode]
    by_cases hempty : (s.node c).child = none
    · rw [if_neg (not_not.mpr hempty)]
      have hn := hchild.mp hempty
      by_cases hrefs : (s.node c).refs = 0
      · rw [if_neg (not_not.mpr hrefs)]
        refine ⟨_, .inl (happly.trans ?_), hsim.removed hc hempty hrefs hn⟩
        rw [dif_pos hn, if_neg fun href => (hsim.referenced_iff hc).mp href hrefs]
      · rw [if_pos hrefs]
        refine ⟨t, .inl (happly.trans ?_), hsim⟩
        rw [dif_pos hn, if_pos ((hsim.referenced_iff hc).mpr hrefs)]
    · rw [if_pos hempty]
      refine ⟨t, .inl (happly.trans ?_), hsim⟩
      rw [dif_neg fun hn => hempty (hchild.mpr hn)]

/-! ## Directory handles -/

theorem Sim.opendir (hsim : Sim s t) (k : Addr) (p : List Str) :
    Answers t (.opendir k p) (step s (.opendir k p)) := by
  intro ans s' hr
  rw [step] at hr
  split at hr
  swap
  · exact absurd hr (by simp)
  rename_i hok
  obtain ⟨hp, hnone, hk⟩ := hok
  have hnone := Option.isNone_iff_eq_none.mp hnone
  have htnone : t.dirs k = none := rel_none (hnone ▸ hsim.dirs k)
  have happly : (t.dirs k).isSome = false := by rw [htnone]; rfl
  obtain ⟨rfl, rfl⟩ := Prod.mk.inj (Option.some.inj hr)
  rcases hsim.find hp with ⟨e, hl, hfind⟩ | ⟨c, hl, hc, hfind⟩
  · refine ⟨t, .inl ?_, ?_⟩
    · simp only [View.apply, hfind, ramfsOpendir, hl, happly]
      rfl
    · simp only [ramfsOpendir, hl]
      exact hsim
  have hlive := hsim.inv.shape.follow_live hc
  cases hd : (s.node c).isDir with
  | false =>
    obtain ⟨hce, hfound⟩ := hfind _ (Node.entry_of_file hd)
    refine ⟨t, .inl ?_, ?_⟩
    · simp only [View.apply, hfound, ramfsOpendir, hl, hd, happly]
      rfl
    · simp only [ramfsOpendir, hl, hd, if_true]
      exact hsim
  | true =>
    obtain ⟨hce, hfound⟩ := hfind _ (Node.entry_of_dir hd)
    have hs := sameShape_ref s c
    have hsim' : Sim { s.modify c Node.ref with
          dirs := Function.update s.dirs k (some ⟨c, none⟩) }
        { t with
          dirs := Function.update t.dirs k (some ⟨p, none⟩) } :=
      hsim.of_same ⟨hs.live, hs.root, hs.name, hs.isDir, hs.parent, hs.child, hs.sibling⟩
        (sameBuffer_ref s c) (hsim.inv.openDir hk hnone hlive hd) rfl hsim.files
        (rel_update hsim.dirs (.some ⟨hc, rfl⟩) k)
    have hcode : ramfsOpendir s k (joinPath p) = (vfsOk, { s.modify c Node.ref with
        dirs := Function.update s.dirs k (some ⟨c, none⟩) }) := by
      unfold ramfsOpendir
      rw [hl]
      dsimp only
      rw [hd, if_neg (by simp)]
      rfl
    rw [hcode]
    refine ⟨_, .inl ?_, hsim'⟩
    simp only [View.apply, hfound, happly]
    rfl

theorem Sim.closedir (hsim : Sim s t) (k : Addr) :
    Answers t (.closedir k) (step s (.closedir k)) := by
  intro ans s' hr
  obtain ⟨d, hd, he⟩ := Option.map_eq_some_iff.mp hr
  obtain ⟨rfl, rfl⟩ := Prod.mk.inj he
  obtain ⟨v, hv, -⟩ := hsim.dir hd
  refine ⟨{ t with dirs := Function.update t.dirs k none }, .inl ?_, ?_⟩
  · simp only [View.apply, hv, Option.map_some]
  · have hs := (sameShape_moveRefs s d.pos).trans (sameShape_unref (moveRefs s d.pos) d.node)
    have hdirs : (moveRefs s d.pos).dirs = s.dirs := by cases d.pos <;> rfl
    have hfiles : (moveRefs s d.pos).files = s.files := by cases d.pos <;> rfl
    have hcode : ramfsClosedir s k d = { (moveRefs s d.pos).modify d.node Node.unref with
        dirs := Function.update s.dirs k none } := by
      rw [← hdirs]
      unfold ramfsClosedir moveRefs
      cases d.pos <;> rfl
    rw [hcode]
    refine hsim.of_same ⟨hs.live, hs.root, hs.name, hs.isDir, hs.parent, hs.child, hs.sibling⟩
      (fun b => (sameBuffer_moveRefs s _ b).trans (sameBuffer_unref _ _ b))
      (hsim.inv.closeDir hd) rfl ?_ (rel_update hsim.dirs .none k)
    intro k'
    change Option.Rel _ ((moveRefs s d.pos).files k') _
    rw [hfiles]
    exact hsim.files k'

/-- **The children a cursor has not passed** are those it still goes to, and
their names are above the one it stands at. -/
theorem Inv.nextNode_split (hi : Inv s) {k : Addr} (hd : s.dirs k = some d) :
    ∃ l₁ l₂, Children s d.node (l₁ ++ l₂) ∧ nextNode s d = l₂.head? ∧
      (∀ c ∈ l₂, d.pos ≠ some c) ∧ ∀ c ∈ l₁ ++ l₂,
        c ∈ l₂ ↔ ∀ m, (d.pos.map fun c => (s.node c).name) = some m → m < (s.node c).name := by
  obtain ⟨-, hlive, hdir, hpos⟩ := hi.dir k d hd
  unfold nextNode
  cases hp : d.pos with
  | none =>
    obtain ⟨l, hl⟩ := hi.shape.children d.node hlive
    exact ⟨[], l, hl, hl.linked.head?_eq, fun c _ => by simp, fun c hc => ⟨fun _ => by simp, fun _ => hc⟩⟩
  | some prev =>
    obtain ⟨h1, h2⟩ := hpos prev hp
    obtain ⟨-, l, hl, hprev⟩ := hi.shape.member prev d.node h1 h2
    obtain ⟨l₁, l₂, rfl⟩ := List.append_of_mem hprev
    have hsorted := List.pairwise_append.mp hl.sorted
    have habove := (List.pairwise_cons.mp hsorted.2.1).1
    refine ⟨l₁ ++ [prev], l₂, by simpa using hl, hl.linked.next_eq_head, fun c hc he => ?_,
      fun c hc => ?_⟩
    · obtain rfl := Option.some.inj he
      exact lt_irrefl _ (habove _ hc)
    · constructor
      · intro hc2 m hm
        obtain rfl := Option.some.inj hm
        exact habove c hc2
      · intro hlt
        have hlt := hlt _ rfl
        rcases List.mem_append.mp hc with hc1 | hc2
        · rcases List.mem_append.mp hc1 with hc1 | hc1
          · exact absurd hlt (lt_asymm (hsorted.2.2 c hc1 prev List.mem_cons_self))
          · rw [List.mem_singleton.mp hc1] at hlt
            exact absurd hlt (lt_irrefl _)
        · exact hc2

theorem nextName_eq_some {T : Tree} {last : Option Str} {m : Str}
    (h : IsLeast {n | n ∈ T.names p ∧ ∀ l, last = some l → l < n} m) :
    T.nextName p last = some m := by
  have hex : ∃ n, IsLeast {n | n ∈ T.names p ∧ ∀ l, last = some l → l < n} n := ⟨m, h⟩
  rw [Tree.nextName, dif_pos hex, hex.choose_spec.unique h]

theorem nextName_eq_none {T : Tree} {last : Option Str}
    (h : ∀ n ∈ T.names p, ¬ ∀ l, last = some l → l < n) : T.nextName p last = none := by
  have hex : ¬ ∃ n, IsLeast {n | n ∈ T.names p ∧ ∀ l, last = some l → l < n} n := by
    rintro ⟨n, hn⟩
    exact h n hn.1.1 hn.1.2
  rw [Tree.nextName, dif_neg hex]

theorem Sim.mem_names (hsim : Sim s t) (hp : follow (childFind s) s.root p = some a)
    {l : List Addr} (hl : Children s a l) {m : Str} :
    m ∈ t.tree.names p ↔ ∃ c ∈ l, (s.node c).name = m := by
  rw [Tree.names, Set.mem_ofPred_eq, hsim.shows, follow_concat_of_some hp, Ne, Option.map_eq_none_iff,
    ← Ne, Option.ne_none_iff_exists']
  simp only [hl.childFind_iff hsim.inv.shape]

theorem Sim.readdir (hsim : Sim s t) (k : Addr) : Answers t (.readdir k) (step s (.readdir k)) := by
  intro ans s' hr
  obtain ⟨d, hd, he⟩ := Option.map_eq_some_iff.mp hr
  obtain ⟨v, hv, hR⟩ := hsim.dir hd
  obtain ⟨l₁, l₂, hl, hnext, hne, habove⟩ := hsim.inv.nextNode_split hd
  have hnames := fun m => hsim.mem_names hR.1 hl (m := m)
  rw [← hR.2] at habove
  cases l₂ with
  | nil =>
    unfold ramfsReaddir at he
    rw [hnext] at he
    obtain ⟨rfl, rfl⟩ := Prod.mk.inj he
    refine ⟨t, .inl ?_, hsim⟩
    have hnone : t.tree.nextName v.path v.last = none := by
      refine nextName_eq_none fun n hn habv => ?_
      obtain ⟨c, hc, rfl⟩ := (hnames n).mp hn
      exact absurd ((habove c hc).mpr habv) (by simp)
    simp only [View.apply, hv, Option.map_some, hnone]
  | cons c l₂ =>
    have hc : c ∈ l₁ ++ c :: l₂ := by simp
    obtain ⟨hclive, hcparent, hcname⟩ := hl.kid c hc
    have hleast : t.tree.nextName v.path v.last = some (s.node c).name := by
      refine nextName_eq_some ⟨⟨(hnames _).mpr ⟨c, hc, rfl⟩, (habove c hc).mp (by simp)⟩, ?_⟩
      rintro n ⟨hn, habv⟩
      obtain ⟨b, hb, rfl⟩ := (hnames n).mp hn
      rcases List.mem_cons.mp ((habove b hb).mpr habv) with rfl | hb2
      · exact le_refl _
      · have hsorted := (List.pairwise_append.mp hl.sorted).2.1
        exact le_of_lt ((List.pairwise_cons.mp hsorted).1 b hb2)
    have hchild : follow (childFind s) s.root (v.path ++ [(s.node c).name]) = some c := by
      rw [follow_concat_of_some hR.1]
      exact hsim.inv.shape.childFind_name hclive hcparent
    have hs := (sameShape_ref s c).trans (sameShape_moveRefs (s.modify c Node.ref) d.pos)
    have hb : ∀ b, SameBuffer (s.node b) ((moveRefs (s.modify c Node.ref) d.pos).node b) :=
      fun b => (sameBuffer_ref s c b).trans (sameBuffer_moveRefs _ _ b)
    have hinv := hsim.inv.moveDir hd hclive hcparent (hne c (by simp))
    have hcode : ramfsReaddir s k d = (.entry (strncpy (s.node c).name nameMax) (s.node c).isDir
        (s.node c).size, { moveRefs (s.modify c Node.ref) d.pos with
          dirs := Function.update s.dirs k (some { d with pos := some c }) }) := by
      have hdirs : (moveRefs (s.modify c Node.ref) d.pos).dirs = s.dirs := by cases d.pos <;> rfl
      rw [← hs.name c, ← hs.isDir c, ← (hb c).size, ← hdirs]
      unfold ramfsReaddir
      rw [hnext]
      rfl
    rw [hcode] at he
    obtain ⟨rfl, rfl⟩ := Prod.mk.inj he
    refine ⟨{ t with dirs := Function.update t.dirs k (some { v with last := some (s.node c).name }) },
      .inl ?_, ?_⟩
    · have hsize := (hsim.inv.buffer c hclive).entry_size
      have hcopy : strncpy (s.node c).name nameMax = (s.node c).name :=
        List.take_of_length_le (Nat.le_sub_one_of_lt hcname.2)
      simp only [View.apply, hv, Option.map_some, hleast, hsim.shows.entry hchild, Node.entry_isDir,
        hsize, hcopy]
    · have hfiles : (moveRefs (s.modify c Node.ref) d.pos).files = s.files := by cases d.pos <;> rfl
      refine hsim.of_same ⟨hs.live, hs.root, hs.name, hs.isDir, hs.parent, hs.child, hs.sibling⟩ hb
        hinv rfl ?_ ?_
      swap
      · exact rel_update (x := some { d with pos := some c })
          (y := some { v with last := some (s.node c).name }) hsim.dirs (.some ⟨hR.1, rfl⟩) k
      intro k'
      change Option.Rel _ ((moveRefs (s.modify c Node.ref) d.pos).files k') _
      rw [hfiles]
      exact hsim.files k'

/-! ## Runs -/

/-- **A call**, in both. -/
theorem Sim.step (hsim : Sim s t) (x : Call) : Answers t x (step s x) := by
  cases x with
  | openFile k p flags mem => exact hsim.openFile k p flags mem
  | close k => exact hsim.close k
  | read k len => exact hsim.read k len
  | write k buf mem => exact hsim.write k buf mem
  | seek k off whence => exact hsim.seek k off whence
  | stat p => exact hsim.stat p
  | mkdir p mem => exact hsim.mkdir p mem
  | rmdir p => exact hsim.rmdir p
  | opendir k p => exact hsim.opendir k p
  | readdir k => exact hsim.readdir k
  | closedir k => exact hsim.closedir k

/-- A new mount is the root alone. -/
theorem Sim.mounted (node : Addr → Node) {root : Addr} (hroot : root < heapEnd) :
    Sim (mounted node root) emptyView := by
  have hnode := mounted_node_root node root
  have hlive : ∀ a, (Ramfs.mounted node root).live a = true → a = root := fun a => mounted_live
  have hshape := mounted_shape node hroot
  refine ⟨⟨hshape, fun a ha => ?_, fun a ha => ?_, fun k f hf => absurd hf (by simp [Ramfs.mounted]),
    fun k d hd => absurd hd (by simp [Ramfs.mounted])⟩, fun p => ?_, fun _ => .none, fun _ => .none⟩
  · rw [hlive a ha, hnode]
    exact ⟨fun _ => rfl, fun _ => rfl, fun h => absurd rfl h, le_refl _, by simp [newNode]⟩
  · rw [hlive a ha, hnode]
    by_contra hne
    have hpos : 0 < refCount (Ramfs.mounted node root).files (Ramfs.mounted node root).dirs root :=
      Nat.pos_of_ne_zero fun he => hne he.symm
    rcases refCount_pos_iff.mp hpos with ⟨_, _, _, h, _⟩ | ⟨_, _, _, h, _⟩ | ⟨_, _, _, h, _⟩ <;>
      exact absurd h (by simp [Ramfs.mounted])
  · change (if p = [] then some Entry.dir else none) = Option.map _ (follow _ root p)
    rw [mounted_follow node hroot]
    split
    · rw [Option.map_some, hnode]
      rfl
    · rfl

/-- **Every run is a run of the map**, with the same answers. -/
theorem Run.sim {node : Addr → Node} {root : Addr} (hroot : root < heapEnd)
    {l : List (Call × Answer)} (h : Run (mounted node root) l s) : ∃ t, ViewRun l t ∧ Sim s t := by
  induction h with
  | nil => exact ⟨emptyView, .nil, .mounted node hroot⟩
  | snoc _ hs ih =>
    obtain ⟨t, ht, hsim⟩ := ih
    obtain ⟨t', hallowed, hsim'⟩ := hsim.step _ _ _ hs
    exact ⟨t', .snoc ht hallowed, hsim'⟩

/-! ## Calls that fail -/

theorem View.create_error {path : List Str} {e : Entry} {mem : Option Addr} {rc : ℤ}
    (h : t.create path e mem = (.error rc, t')) : t' = t := by
  unfold View.create at h
  split at h
  · exact (Prod.mk.inj h).2.symm
  · split at h
    · exact (Prod.mk.inj h).2.symm
    · split at h
      · exact (Prod.mk.inj h).2.symm
      · exact (Prod.mk.inj h).2.symm
      · split at h
        · split at h
          · exact (Prod.mk.inj h).2.symm
          · exact absurd (Prod.mk.inj h).1 (by simp)
        · exact (Prod.mk.inj h).2.symm

theorem View.create_ok {path q : List Str} {e e' : Entry} {mem : Option Addr}
    (h : t.create path e mem = (.ok (q, e'), t')) : e' = e := by
  unfold View.create at h
  split at h
  · exact absurd (Prod.mk.inj h).1 (by simp)
  · split at h
    · exact absurd (Prod.mk.inj h).1 (by simp)
    · split at h
      · exact absurd (Prod.mk.inj h).1 (by simp)
      · exact absurd (Prod.mk.inj h).1 (by simp)
      · split at h
        · split at h
          · exact absurd (Prod.mk.inj h).1 (by simp)
          · simp only [Prod.mk.injEq, Except.ok.injEq] at h
            exact h.1.2.symm
        · exact absurd (Prod.mk.inj h).1 (by simp)

/-- An entry that `open` makes is a file, and it is asked for one. -/
theorem View.openEntry_spec {path : List Str} {flags : ℕ} {mem : Option Addr}
    {r : Except ℤ (List Str × Entry)} (h : t.openEntry path flags mem = (r, t')) :
    t' = t ∨ ∃ q e, r = .ok (q, e) ∧ e.isDir = false ∧ flags &&& oDirectory = 0 := by
  unfold View.openEntry at h
  split at h
  · split at h
    · rename_i hflags
      cases r with
      | error rc => exact .inl (View.create_error h)
      | ok x => exact .inr ⟨x.1, x.2, rfl, by rw [View.create_ok h]; rfl, hflags.2.2⟩
    · exact .inl (Prod.mk.inj h).2.symm
  · exact .inl (Prod.mk.inj h).2.symm

/-- **A call that fails** leaves the map unchanged. -/
theorem View.Allowed.tree_of_failed {x : Call} {ans : Answer} (h : t.Allowed x ans t')
    (hf : ans.failed) : t'.tree = t.tree := by
  rcases h with h | ⟨_, _, -, -, rfl⟩
  swap
  · rfl
  cases x with
  | openFile k path flags mem =>
    simp only [View.apply] at h
    split at h
    · exact absurd h (by simp)
    · split at h
      · rename_i heq
        rcases View.openEntry_spec heq with rfl | ⟨_, _, he, -⟩
        · rw [← (Prod.mk.inj (Option.some.inj h)).2]
        · exact absurd he (by simp)
      · rename_i q e t₁ heq
        have hcase := View.openEntry_spec heq
        split at h
        · rename_i hdir
          rcases hcase with rfl | ⟨_, e', he, he', -⟩
          · rw [← (Prod.mk.inj (Option.some.inj h)).2]
          · obtain ⟨-, rfl⟩ := Prod.mk.inj (Except.ok.inj he)
            exact absurd (hdir.1.symm.trans he') (by simp)
        · split at h
          · rename_i hdir
            rcases hcase with rfl | ⟨_, e', he, -, hd⟩
            · rw [← (Prod.mk.inj (Option.some.inj h)).2]
            · exact absurd hd hdir.2
          · obtain ⟨rfl, -⟩ := Prod.mk.inj (Option.some.inj h)
            exact absurd hf (by simp [Answer.failed])
  | close k =>
    obtain ⟨f, -, he⟩ := Option.map_eq_some_iff.mp h
    rw [← (Prod.mk.inj he).2]
  | read k len =>
    obtain ⟨f, -, he⟩ := Option.map_eq_some_iff.mp h
    split at he <;> rw [← (Prod.mk.inj he).2]
  | write k buf mem =>
    obtain ⟨f, -, he⟩ := Option.map_eq_some_iff.mp h
    split at he
    · obtain ⟨rfl, -⟩ := Prod.mk.inj he
      simp only [Answer.failed] at hf
      omega
    · rw [← (Prod.mk.inj he).2]
  | seek k off whence =>
    obtain ⟨f, -, he⟩ := Option.map_eq_some_iff.mp h
    split at he
    · rw [← (Prod.mk.inj he).2]
    · dsimp only at he
      generalize (if whence = seekSet then off
        else if whence = seekCur then f.pos + off else t.sizeAt f.path + off) = base at he
      split at he <;> rw [← (Prod.mk.inj he).2]
  | stat path =>
    simp only [View.apply] at h
    split at h <;> rw [← (Prod.mk.inj (Option.some.inj h)).2]
  | mkdir path mem =>
    simp only [View.apply] at h
    split at h
    · rename_i heq
      rw [← (Prod.mk.inj (Option.some.inj h)).2, View.create_error heq]
    · obtain ⟨rfl, -⟩ := Prod.mk.inj (Option.some.inj h)
      exact absurd hf (by simp [Answer.failed])
  | rmdir path =>
    simp only [View.apply] at h
    split at h
    · rw [← (Prod.mk.inj (Option.some.inj h)).2]
    · rw [← (Prod.mk.inj (Option.some.inj h)).2]
    · split at h
      · rw [← (Prod.mk.inj (Option.some.inj h)).2]
      · split at h
        · split at h
          · rw [← (Prod.mk.inj (Option.some.inj h)).2]
          · obtain ⟨rfl, -⟩ := Prod.mk.inj (Option.some.inj h)
            exact absurd hf (by simp [Answer.failed])
        · rw [← (Prod.mk.inj (Option.some.inj h)).2]
  | opendir k path =>
    simp only [View.apply] at h
    split at h
    · exact absurd h (by simp)
    · split at h <;> rw [← (Prod.mk.inj (Option.some.inj h)).2]
  | readdir k =>
    obtain ⟨d, -, he⟩ := Option.map_eq_some_iff.mp h
    split at he
    · rw [← (Prod.mk.inj he).2]
    · split at he <;> rw [← (Prod.mk.inj he).2]
  | closedir k =>
    obtain ⟨d, -, he⟩ := Option.map_eq_some_iff.mp h
    rw [← (Prod.mk.inj he).2]

/-! ## The result -/

/-- **The RAM file system is a finite map** from paths to directories and byte
arrays. Every run answers as the map does, in the state it leaves the nodes
and the handles hold what the map and its handles have, the next call does
what the map allows, and nothing happens to the map if it fails. The children
of each node are sorted by name and know their parent, and `refs` counts the
handles on a node and the cursors at it. -/
theorem run_refines_map {node : Addr → Node} {root : Addr} (hroot : root < heapEnd)
    {l : List (Call × Answer)} (h : Run (mounted node root) l s) :
    ∃ t, ViewRun l t ∧ Shows s t.tree ∧
      (∀ k, Option.Rel (FileView.Of s) (s.files k) (t.files k)) ∧
      (∀ k, Option.Rel (DirView.Of s) (s.dirs k) (t.dirs k)) ∧
      (∀ x ans s', step s x = some (ans, s') →
        ∃ t', t.Allowed x ans t' ∧ Sim s' t' ∧ (ans.failed → t'.tree = t.tree)) ∧
      (∀ a, s.live a = true →
        (∃ l, Children s a l) ∧ (s.node a).refs = refCount s.files s.dirs a) ∧
      ∀ k, s.files k ≠ none ∨ s.dirs k ≠ none → k < heapEnd := by
  obtain ⟨t, ht, hsim⟩ := h.sim hroot
  refine ⟨t, ht, hsim.shows, hsim.files, hsim.dirs, fun x ans s' hs => ?_,
    fun a ha => ⟨hsim.inv.shape.children a ha, hsim.inv.refs a ha⟩, fun k hk => ?_⟩
  · obtain ⟨t', hallowed, hsim'⟩ := hsim.step x ans s' hs
    exact ⟨t', hallowed, hsim', hallowed.tree_of_failed⟩
  · rcases hk with hk | hk
    · obtain ⟨f, hf⟩ := Option.ne_none_iff_exists'.mp hk
      exact (hsim.inv.file k f hf).1
    · obtain ⟨d, hd⟩ := Option.ne_none_iff_exists'.mp hk
      exact (hsim.inv.dir k d hd).1

/-- The first directory on a new mount. -/
theorem mkdir_first : ∃ s, step (mounted (fun _ => newNode [] true) 1) (.mkdir [[97]] (some 2)) =
    some (.code vfsOk, s) := by
  have h2 : 2 < heapEnd := by
    rw [heapEnd_eq]
    norm_num
  have hfresh : freshNode (mounted (fun _ => newNode [] true) 1) (some 2) = true := by
    simp [freshNode, mounted, h2]
  have hcomp : ∀ n ∈ [[(97 : UInt8)]], Component n := by decide
  rw [step, if_pos ⟨hcomp, hfresh⟩]
  refine ⟨_, congrArg some (Prod.ext (congrArg Answer.code ?_) rfl)⟩
  have hleaf : leafOf (joinPath [[97]]) = [97] := by decide
  have hparent : parentOf (joinPath [[97]]) = [] := by decide
  have hlookup : lookup (mounted (fun _ => newNode [] true) 1) [] = .ok 1 := rfl
  have hchild : childFind (mounted (fun _ => newNode [] true) 1) 1 [97] = none := by
    rw [childFind]
    generalize heapEnd = fuel
    cases fuel <;> rfl
  have hdir : ((mounted (fun _ => newNode [] true) 1).node 1).isDir = true := rfl
  unfold ramfsMkdir createLocked
  simp only [hleaf, hparent, hlookup, hchild, hdir]
  rfl

/-- The map after the first `mkdir`. -/
theorem run_refines_map_mkdir : ∃ s t,
    Run (mounted (fun _ => newNode [] true) 1) [(.mkdir [[97]] (some 2), .code vfsOk)] s ∧
      ViewRun [(.mkdir [[97]] (some 2), .code vfsOk)] t ∧ Shows s t.tree := by
  obtain ⟨s, hs⟩ := mkdir_first
  have hrun : Run (mounted (fun _ => newNode [] true) 1)
      ([] ++ [(.mkdir [[97]] (some 2), .code vfsOk)]) s := .snoc .nil hs
  have hroot : 1 < heapEnd := by
    rw [heapEnd_eq]
    norm_num
  obtain ⟨t, ht, hshows, -⟩ := run_refines_map hroot hrun
  exact ⟨s, t, hrun, ht, hshows⟩

end Ramfs

end Csos

import Csos.Devfs.Tree
import Csos.Ramfs.Invariant
import Csos.Vdev.Registry
/-!
# The device file system — the registry and the mounts

In every run of calls in which no handle pins what `vdev_unregister` has to take
away, the tree of each mount is that of the registered devices. A pin makes
`devfs_detach_locked` refuse, or keep a directory, and `vdev_unregister` does
not look at what the callback returns.
-/

namespace Csos

namespace Devfs

open Vfs Ramfs

variable {dev : Vdev.Addr → Vdev.Device} {s : State} {sb : Sb} {ds : List Vdev.Addr} {d a : Vdev.Addr}
  {p : List Str} {t : List (Vdev.Call × ℤ)} {mem : ℕ → Ramfs.Addr} {N : ℕ}

/-! ## Runs -/

/-- The components of the name of a device. -/
def path (dev : Vdev.Addr → Vdev.Device) (d : Vdev.Addr) : List Str := (dev d).name.splitOn slash

/-- The device whose name is a path. -/
def devAt (dev : Vdev.Addr → Vdev.Device) (ds : List Vdev.Addr) (p : List Str) : Option Vdev.Addr :=
  ds.find? fun d => path dev d = p

/-- No handle is open on the mount. -/
def NoHandles (sb : Sb) : Prop := ∀ h, sb.tree.files h = none ∧ sb.tree.dirs h = none

/-- **What the callers see to**: the components of a name are such that nodes
may have them, and no registered name is a prefix of another; `kmalloc` gives
blocks that are not in use; `vfs_umount` unmounts only when no handle is open,
and a new handle is at a place of its own. -/
def Callable (dev : Vdev.Addr → Vdev.Device) (s : State) : Call → Prop
  | .register d mem => (∀ k ∈ path dev d, NameOk k) ∧
      (∀ x ∈ s.devs, path dev x ≠ path dev d →
        ¬ path dev x <+: path dev d ∧ ¬ path dev d <+: path dev x) ∧
      ∀ a sb, s.sbs a = some sb → Fresh sb (mem a) (path dev d).length
  | .unregister _ => True
  | .mount a node root mem => s.sbs a = none ∧ root < heapEnd ∧
      Fresh ⟨mounted node root, fun _ => none⟩ mem (s.devs.map fun d => (path dev d).length).sum
  | .unmount a => ∀ sb, s.sbs a = some sb → NoHandles sb
  | .openFile a h _ _ _ => ∀ sb, s.sbs a = some sb → sb.tree.files h = none
  | .opendir a h _ => ∀ sb, s.sbs a = some sb → sb.tree.dirs h = none
  | .close _ _ => True
  | .readdir _ _ => True
  | .closedir _ _ => True

/-- **Nothing is pinned** of what `vdev_unregister` has to take away: in each
mount, the node of the device and the directories above it that lead to no
other device. -/
def Unpinned (dev : Vdev.Addr → Vdev.Device) (s : State) : Call → Prop
  | .unregister d => ∀ a sb, s.sbs a = some sb → Free sb (devAt dev (s.devs.erase d)) (path dev d)
  | _ => True

/-- A run of calls that are `ok`, from `init_vdev`. -/
inductive Run (dev : Vdev.Addr → Vdev.Device) (ok : State → Call → Prop) : State → Prop
  | init (next lnext : Vdev.Addr → Option Vdev.Addr) :
      Run dev ok ⟨Vdev.initVdev next lnext, fun _ => none⟩
  | step {s : State} {c : Call} (h : Run dev ok s) (hc : ok s c) : Run dev ok (call dev s c).2

/-- **The tree is that of the devices**: it has their paths and those on the
way, at each device its node, and no node of another device. -/
structure Mirrors (dev : Vdev.Addr → Vdev.Device) (ds : List Vdev.Addr) (sb : Sb) : Prop where
  paths : ∀ p, (sb.at p).isSome ↔ p = [] ∨ ∃ d ∈ ds, p <+: path dev d
  reach : ∀ n, sb.tree.live n = true → ∃ p, sb.at p = some n
  device : ∀ d ∈ ds, ∃ n, sb.at (path dev d) = some n ∧ (sb.tree.node n).isDir = false ∧
    sb.dev n = some d
  dir : ∀ p n, sb.at p = some n → (sb.tree.node n).isDir = false → ∃ d ∈ ds, p = path dev d
  refers : ∀ n d, sb.tree.live n = true → sb.dev n = some d → d ∈ ds

/-! ## Names -/

theorem joinPath_eq_intercalate (p : List Str) : joinPath p = [slash].intercalate p := by
  induction p with
  | nil => rfl
  | cons k p ih =>
    cases p with
    | nil => simp [joinPath, List.intercalate]
    | cons m p => rw [joinPath, ih, List.intercalate_cons_cons, List.append_assoc]; rfl

/-- A name is its components. -/
theorem joinPath_path (dev : Vdev.Addr → Vdev.Device) (d : Vdev.Addr) :
    joinPath (path dev d) = (dev d).name := by
  rw [joinPath_eq_intercalate, path, List.intercalate_splitOn]

theorem path_ne_nil (dev : Vdev.Addr → Vdev.Device) (d : Vdev.Addr) : path dev d ≠ [] :=
  List.splitOn_ne_nil _ _

theorem path_eq_iff {x y : Vdev.Addr} : path dev x = path dev y ↔ (dev x).name = (dev y).name := by
  constructor
  · intro h
    rw [← joinPath_path dev x, h, joinPath_path]
  · intro h
    rw [path, h, path]

/-- No name is a prefix of another. -/
def Apart (dev : Vdev.Addr → Vdev.Device) (ds : List Vdev.Addr) : Prop :=
  ∀ x ∈ ds, ∀ y ∈ ds, path dev x <+: path dev y → x = y

theorem Apart.devAt_eq_some (h : Apart dev ds) : devAt dev ds p = some d ↔ d ∈ ds ∧ path dev d = p := by
  rw [devAt]
  constructor
  · intro hf
    exact ⟨List.mem_of_find?_eq_some hf, by simpa using List.find?_some hf⟩
  · rintro ⟨hd, rfl⟩
    cases hf : ds.find? fun x => path dev x = path dev d with
    | none => exact absurd (List.find?_eq_none.mp hf d hd) (by simp)
    | some x =>
      have hx : path dev x = path dev d := by simpa using List.find?_some hf
      rw [h x (List.mem_of_find?_eq_some hf) d hd (hx ▸ List.prefix_refl _)]

theorem devAt_isSome : (devAt dev ds p).isSome ↔ ∃ d ∈ ds, path dev d = p := by
  rw [devAt, List.find?_isSome]
  simp

theorem devAt_cons : devAt dev (d :: ds) = Function.update (devAt dev ds) (path dev d) (some d) := by
  funext p
  rw [devAt, List.find?_cons]
  by_cases hp : p = path dev d
  · rw [hp, Function.update_self, decide_eq_true rfl]
  · rw [Function.update_of_ne hp, decide_eq_false (Ne.symm hp)]
    rfl

theorem Apart.devAt_erase (h : Apart dev ds) (hnd : ds.Nodup) (hd : d ∈ ds) :
    devAt dev (ds.erase d) = Function.update (devAt dev ds) (path dev d) none := by
  have he : Apart dev (ds.erase d) := fun x hx y hy =>
    h x (List.mem_of_mem_erase hx) y (List.mem_of_mem_erase hy)
  funext p
  refine Option.ext fun x => ?_
  rw [he.devAt_eq_some, hnd.mem_erase_iff]
  by_cases hp : p = path dev d
  · rw [hp, Function.update_self]
    refine iff_of_false (fun hx => hx.1.1 ?_) (by simp)
    exact h x hx.1.2 d hd (hx.2 ▸ List.prefix_refl _)
  · rw [Function.update_of_ne hp, h.devAt_eq_some]
    refine ⟨fun hx => ⟨hx.1.2, hx.2⟩, fun hx => ⟨⟨fun hxd => hp (hxd ▸ hx.2.symm), hx.1⟩, hx.2⟩⟩

/-- The order of the devices does not matter. -/
theorem Apart.devAt_congr {ds' : List Vdev.Addr} (h : Apart dev ds) (hmem : ∀ x, x ∈ ds' ↔ x ∈ ds) :
    devAt dev ds' = devAt dev ds := by
  have h' : Apart dev ds' := fun x hx y hy => h x ((hmem x).mp hx) y ((hmem y).mp hy)
  funext p
  refine Option.ext fun x => ?_
  rw [h'.devAt_eq_some, h.devAt_eq_some, hmem]

/-! ## One mount -/

/-- The tree of the devices. -/
abbrev TreeOf (dev : Vdev.Addr → Vdev.Device) (ds : List Vdev.Addr) (sb : Sb) : Prop :=
  Holds sb (under (devAt dev ds)) (devAt dev ds)

theorem TreeOf.mirrors (h : TreeOf dev ds sb) (ha : Apart dev ds) : Mirrors dev ds sb := by
  have hmem : ∀ d ∈ ds, devAt dev ds (path dev d) = some d := fun d hd =>
    ha.devAt_eq_some.mpr ⟨hd, rfl⟩
  refine ⟨fun p => ?_, h.reach, fun d hd => ?_, fun p n hp hf => ?_, fun n d hn hd => ?_⟩
  · rw [h.paths]
    refine or_congr Iff.rfl ?_
    simp only [devAt_isSome]
    constructor
    · rintro ⟨q, ⟨d, hd, rfl⟩, hp⟩
      exact ⟨d, hd, hp⟩
    · rintro ⟨d, hd, hp⟩
      exact ⟨_, ⟨d, hd, rfl⟩, hp⟩
  · obtain ⟨n, hn⟩ := Option.isSome_iff_exists.mp ((h.paths (path dev d)).mpr
      (mem_under_of_isSome (by rw [hmem d hd]; rfl)))
    refine ⟨n, hn, ?_, (h.dev _ n hn).trans (hmem d hd)⟩
    rw [h.dir _ n hn, hmem d hd]
    rfl
  · rw [h.dir p n hp, Option.isNone_eq_false_iff] at hf
    obtain ⟨d, hd, hdp⟩ := devAt_isSome.mp hf
    exact ⟨d, hd, hdp.symm⟩
  · obtain ⟨p, hp⟩ := h.reach n hn
    rw [h.dev p n hp] at hd
    exact (ha.devAt_eq_some.mp hd).1

/-- A device is added. -/
theorem TreeOf.attach (h : TreeOf dev ds sb) (hm : Fresh sb mem ((path dev d).length + N))
    (hd : ∀ k ∈ path dev d, NameOk k)
    (hx : ∀ x ∈ ds, ¬ path dev x <+: path dev d ∧ ¬ path dev d <+: path dev x) :
    TreeOf dev (d :: ds) (devfsAttach (dev d).name d mem sb).1.2 ∧
      Fresh (devfsAttach (dev d).name d mem sb).1.2 (devfsAttach (dev d).name d mem sb).2 N := by
  rw [← joinPath_path dev d, TreeOf, devAt_cons]
  refine Holds.attach_under h hm hd (path_ne_nil dev d) (fun r hr => ?_) fun q hq hpq => ?_
  · rw [← Option.not_isSome_iff_eq_none, devAt_isSome]
    rintro ⟨x, hxd, rfl⟩
    exact (hx x hxd).1 hr
  · obtain ⟨x, hxd, rfl⟩ := devAt_isSome.mp hq
    exact (hx x hxd).2 hpq

/-- A device is removed, if nothing pins its nodes. -/
theorem TreeOf.detach (h : TreeOf dev ds sb) (ha : Apart dev ds) (hnd : ds.Nodup) (hd : d ∈ ds)
    (hname : ∀ k ∈ path dev d, NameOk k) (hfree : Free sb (devAt dev (ds.erase d)) (path dev d)) :
    TreeOf dev (ds.erase d) (devfsDetach (dev d).name d sb).2 := by
  rw [← joinPath_path dev d, TreeOf]
  rw [ha.devAt_erase hnd hd] at hfree ⊢
  refine Holds.detach h hname (path_ne_nil dev d) (ha.devAt_eq_some.mpr ⟨hd, rfl⟩)
    (fun q hq hpq => ?_) hfree
  obtain ⟨x, hx, rfl⟩ := devAt_isSome.mp hq
  rw [ha d hd x hx hpq]

/-- **The replay of `vdev_listen`** attaches every device. -/
theorem TreeOf.replay {es : List Vdev.Addr} (h : TreeOf dev es sb)
    (hm : Fresh sb mem (ds.map fun d => (path dev d).length).sum)
    (hname : ∀ d ∈ ds, ∀ k ∈ path dev d, NameOk k) (ha : Apart dev (ds.reverse ++ es))
    (hnd : (ds.reverse ++ es).Nodup) : TreeOf dev (ds.reverse ++ es) (replay dev mem sb ds) := by
  induction ds generalizing es sb mem with
  | nil => exact h
  | cons d ds ih =>
    rw [List.reverse_cons, List.append_assoc] at ha hnd ⊢
    rw [List.singleton_append] at ha hnd ⊢
    have hde : d ∉ es := (List.nodup_cons.mp hnd.of_append_right).1
    have hx : ∀ x ∈ es, ¬ path dev x <+: path dev d ∧ ¬ path dev d <+: path dev x := fun x hx => by
      have hxd : x ≠ d := fun he => hde (he ▸ hx)
      exact ⟨fun hp => hxd (ha x (by simp [hx]) d (by simp) hp),
        fun hp => hxd (ha d (by simp) x (by simp [hx]) hp).symm⟩
    obtain ⟨h1, h2⟩ := h.attach hm (hname d List.mem_cons_self) hx
    exact ih h1 h2 (fun x hx => hname x (List.mem_cons_of_mem _ hx)) ha hnd

/-- A new mount has its root. -/
theorem treeOf_mounted (dev : Vdev.Addr → Vdev.Device) (node : Ramfs.Addr → Node) {root : Ramfs.Addr}
    (hroot : root < heapEnd) : TreeOf dev [] ⟨mounted node root, fun _ => none⟩ := by
  have hnone : devAt dev [] = fun _ => none := by
    funext p
    simp [devAt]
  have hunder : under (fun _ : List Str => (none : Option Vdev.Addr)) = {[]} := by
    ext p
    simp [under]
  rw [TreeOf, hnone, hunder]
  exact holds_mounted node hroot

/-! ## Handles -/

/-- Only references and handles change. -/
def Kept (sb sb' : Sb) : Prop := SameShape sb.tree sb'.tree ∧ sb'.dev = sb.dev

theorem Kept.refl (sb : Sb) : Kept sb sb := ⟨.refl _, rfl⟩

theorem Kept.treeOf {sb' : Sb} (hk : Kept sb sb') (h : TreeOf dev ds sb) : TreeOf dev ds sb' := by
  have := Holds.same h hk.1
  rwa [← hk.2] at this

theorem kept_devfsOpen (sb : Sb) (h : Ramfs.Addr) (rel : Str) (flags : ℕ) (rc : ℤ) :
    Kept sb (devfsOpen sb h rel flags rc).2 := by
  unfold devfsOpen
  split
  · exact .refl sb
  split
  · exact .refl sb
  rename_i n _
  have href := sameShape_ref sb.tree n
  split
  · split
    · exact .refl sb
    · exact ⟨href.handles _ _, rfl⟩
  split
  · exact .refl sb
  split
  · exact .refl sb
  dsimp only
  split
  · exact ⟨href.trans (sameShape_unref _ n), rfl⟩
  · exact ⟨href.handles _ _, rfl⟩

theorem kept_devfsClose (sb : Sb) (h : Ramfs.Addr) (f : File) : Kept sb (devfsClose sb h f) :=
  ⟨(sameShape_unref sb.tree f.node).handles _ _, rfl⟩

theorem kept_devfsOpendir (sb : Sb) (h : Ramfs.Addr) (rel : Str) :
    Kept sb (devfsOpendir sb h rel).2 := by
  unfold devfsOpendir
  split
  · exact .refl sb
  split
  · exact .refl sb
  · rename_i n _ _
    exact ⟨(sameShape_ref sb.tree n).handles _ _, rfl⟩

theorem kept_devfsReaddir (sb : Sb) (h : Ramfs.Addr) (d : Dir) : Kept sb (devfsReaddir sb h d).2 := by
  unfold devfsReaddir
  split
  · exact .refl sb
  · rename_i n _
    have hs := (sameShape_ref sb.tree n).trans (sameShape_moveRefs (sb.tree.modify n Node.ref) d.pos)
    exact ⟨hs.handles _ _, rfl⟩

theorem kept_devfsClosedir (sb : Sb) (h : Ramfs.Addr) (d : Dir) : Kept sb (devfsClosedir sb h d) := by
  have hs := (sameShape_moveRefs sb.tree d.pos).trans
    (sameShape_unref (moveRefs sb.tree d.pos) d.node)
  exact ⟨hs.handles _ _, rfl⟩

/-! ## The system -/

/-- **Each mount that listens gets the callback.** -/
theorem tellAll_apply {ls : List Vdev.Addr} (hnd : ls.Nodup) (f : Vdev.Addr → Sb → Sb)
    (sbs : Vdev.Addr → Option Sb) (a : Vdev.Addr) :
    tellAll f sbs ls a = if a ∈ ls then (sbs a).map (f a) else sbs a := by
  induction ls generalizing sbs with
  | nil => simp [tellAll]
  | cons x ls ih =>
    obtain ⟨hx, hnd⟩ := List.nodup_cons.mp hnd
    rw [tellAll, ih hnd]
    by_cases hax : a = x
    · subst hax
      simp [hx]
    · simp [hax]

/-- **What holds in a run**: the registry is as `t` has left it, the mounts are
its listeners, and each shows the registered devices. -/
structure Tracks (dev : Vdev.Addr → Vdev.Device) (t : List (Vdev.Call × ℤ)) (s : State) : Prop where
  reg : Vdev.Inv dev listener t s.reg
  mounts : ∀ a, (s.sbs a).isSome ↔ a ∈ Vdev.subscribed t
  names : ∀ d ∈ Vdev.registered t, ∀ k ∈ path dev d, NameOk k
  apart : Apart dev (Vdev.registered t)
  trees : ∀ a sb, s.sbs a = some sb → TreeOf dev (Vdev.registered t) sb

theorem Tracks.devs_eq (h : Tracks dev t s) : s.devs = Vdev.registered t :=
  h.reg.devs.chain_eq Vdev.card_le_addrEnd

theorem Tracks.mirrors (h : Tracks dev t s) (ha : s.sbs a = some sb) : Mirrors dev s.devs sb := by
  rw [h.devs_eq]
  exact (h.trees a sb ha).mirrors h.apart

theorem Tracks.listeners_eq (h : Tracks dev t s) :
    chain s.reg.lnext Vdev.addrEnd s.reg.listeners = Vdev.subscribed t :=
  h.reg.listeners.chain_eq Vdev.card_le_addrEnd

/-- What the mounts are after a callback. -/
theorem Tracks.tellAll_eq (h : Tracks dev t s) (f : Vdev.Addr → Sb → Sb) (a : Vdev.Addr) :
    tellAll f s.sbs (chain s.reg.lnext Vdev.addrEnd s.reg.listeners) a = (s.sbs a).map (f a) := by
  rw [h.listeners_eq, tellAll_apply h.reg.listeners.nodup]
  by_cases ha : a ∈ Vdev.subscribed t
  · rw [if_pos ha]
  · rw [if_neg ha]
    rw [← h.mounts, Option.not_isSome_iff_eq_none] at ha
    rw [ha]
    rfl

/-- A call on a mount that changes references and handles only. -/
theorem Tracks.on (h : Tracks dev t s) (a : Vdev.Addr) {f : Sb → ℤ × Sb}
    (hf : ∀ sb, Kept sb (f sb).2) : Tracks dev t (s.on a f).2 := by
  unfold State.on
  split
  · exact h
  · rename_i sb hsb
    refine ⟨h.reg, fun b => ?_, h.names, h.apart, fun b sb' hb => ?_⟩
    · by_cases hba : b = a
      · subst hba
        rw [← h.mounts, hsb]
        simp
      · rw [← h.mounts]
        simp [hba]
    · by_cases hba : b = a
      · subst hba
        simp only [Function.update_self] at hb
        obtain rfl := Option.some.inj hb
        exact (hf sb).treeOf (h.trees b sb hsb)
      · exact h.trees b sb' ((Function.update_of_ne hba _ _).symm.trans hb)

theorem Tracks.register (h : Tracks dev t s) {mem : Vdev.Addr → ℕ → Ramfs.Addr}
    (hc : Callable dev s (.register d mem)) : ∃ t', Tracks dev t' (call dev s (.register d mem)).2 := by
  obtain ⟨hname, hprefix, hfresh⟩ := hc
  rw [h.devs_eq] at hprefix
  have hinv := h.reg.register (some d)
  have hsub : ∀ rc, Vdev.subscribed (t ++ [(.register (some d), rc)]) = Vdev.subscribed t := fun rc => by
    rw [Vdev.subscribed_concat]
    rfl
  by_cases hrc : (Vdev.vdevRegister dev listener s.reg (some d)).1 = vfsOk
  · have hreg : Vdev.registered (t ++ [(.register (some d), vfsOk)]) = d :: Vdev.registered t := by
      rw [Vdev.registered_concat, Vdev.registerStep, if_pos rfl]
    rw [hrc] at hinv
    have hnames := hinv.names
    rw [hreg, List.map_cons, List.nodup_cons] at hnames
    have hx : ∀ x ∈ Vdev.registered t,
        ¬ path dev x <+: path dev d ∧ ¬ path dev d <+: path dev x := fun x hx =>
      hprefix x hx fun he => hnames.1 (List.mem_map.mpr ⟨x, hx, path_eq_iff.mp he⟩)
    refine ⟨t ++ [(.register (some d), vfsOk)], hinv, fun a => ?_, ?_, ?_, fun a sb ha => ?_⟩
    · rw [hsub, ← h.mounts]
      simp only [call, if_pos hrc, h.tellAll_eq, Option.isSome_map]
    · rw [hreg]
      exact List.forall_mem_cons.mpr ⟨hname, h.names⟩
    · rw [hreg]
      intro x hxd y hyd hxy
      rcases List.mem_cons.mp hxd with rfl | hxt <;> rcases List.mem_cons.mp hyd with rfl | hyt
      · rfl
      · exact absurd hxy (hx y hyt).2
      · exact absurd hxy (hx x hxt).1
      · exact h.apart x hxt y hyt hxy
    · simp only [call, if_pos hrc, h.tellAll_eq] at ha
      obtain ⟨sb₀, hsb, rfl⟩ := Option.map_eq_some_iff.mp ha
      rw [hreg]
      exact ((h.trees a sb₀ hsb).attach (N := 0) (hfresh a sb₀ hsb) hname hx).1
  · have hreg : Vdev.registered (t ++ [(.register (some d),
        (Vdev.vdevRegister dev listener s.reg (some d)).1)]) = Vdev.registered t := by
      rw [Vdev.registered_concat, Vdev.registerStep, if_neg hrc]
    refine ⟨_, hinv, fun a => ?_, ?_, ?_, fun a sb ha => ?_⟩
    · rw [hsub, ← h.mounts]
      simp only [call, if_neg hrc]
    · rw [hreg]
      exact h.names
    · rw [hreg]
      exact h.apart
    · simp only [call, if_neg hrc] at ha
      rw [hreg]
      exact h.trees a sb ha

theorem Tracks.unregister_rc (h : Tracks dev t s) (hd : d ∈ Vdev.registered t) :
    (Vdev.vdevUnregister listener s.reg (some d)).1 = vfsOk := by
  rw [Vdev.vdevUnregister, if_neg]
  rw [linkTo_snd_eq_none_iff h.reg.devs Vdev.card_le_addrEnd]
  exact not_not.mpr hd

theorem Tracks.unregister (h : Tracks dev t s) (hc : Unpinned dev s (.unregister d)) :
    ∃ t', Tracks dev t' (call dev s (.unregister d)).2 := by
  have hfree : ∀ a sb, s.sbs a = some sb →
      Free sb (devAt dev ((Vdev.registered t).erase d)) (path dev d) := h.devs_eq ▸ hc
  have hinv := h.reg.unregister (some d)
  have hsub : ∀ rc, Vdev.subscribed (t ++ [(.unregister (some d), rc)]) = Vdev.subscribed t :=
    fun rc => by
      rw [Vdev.subscribed_concat]
      rfl
  by_cases hd : d ∈ Vdev.registered t
  · have hrc := h.unregister_rc hd
    have hreg : Vdev.registered (t ++ [(.unregister (some d), vfsOk)]) =
        (Vdev.registered t).erase d := by
      rw [Vdev.registered_concat, Vdev.registerStep, if_pos rfl]
    rw [hrc] at hinv
    refine ⟨t ++ [(.unregister (some d), vfsOk)], hinv, fun a => ?_, ?_, ?_, fun a sb ha => ?_⟩
    · rw [hsub, ← h.mounts]
      simp only [call, if_pos hrc, h.tellAll_eq, Option.isSome_map]
    · rw [hreg]
      exact fun x hx => h.names x (List.mem_of_mem_erase hx)
    · rw [hreg]
      exact fun x hx y hy => h.apart x (List.mem_of_mem_erase hx) y (List.mem_of_mem_erase hy)
    · simp only [call, if_pos hrc, h.tellAll_eq] at ha
      obtain ⟨sb₀, hsb, rfl⟩ := Option.map_eq_some_iff.mp ha
      rw [hreg]
      exact (h.trees a sb₀ hsb).detach h.apart h.reg.devs.nodup hd (h.names d hd) (hfree a sb₀ hsb)
  · have hrc : Vdev.vdevUnregister listener s.reg (some d) = (errNoent, s.reg) := by
      rw [Vdev.vdevUnregister, if_pos]
      exact (linkTo_snd_eq_none_iff h.reg.devs Vdev.card_le_addrEnd).mpr hd
    have hcall : (call dev s (.unregister d)).2 = s := by
      rw [call, hrc]
      exact congrArg (State.mk s.reg) (if_neg (show ¬ errNoent = vfsOk by decide))
    rw [hcall]
    exact ⟨t, h⟩

/-- **A pinned device stays**, and `vdev_unregister` returns `VFS_OK`. -/
theorem Tracks.unregister_pinned (h : Tracks dev t s) (hd : d ∈ s.devs) (ha : s.sbs a = some sb)
    {n : Ramfs.Addr} (hn : sb.at (path dev d) = some n) (hrefs : (sb.tree.node n).refs ≠ 0) :
    (call dev s (.unregister d)).1 = vfsOk ∧ (call dev s (.unregister d)).2.sbs a = some sb := by
  have hd : d ∈ Vdev.registered t := h.devs_eq ▸ hd
  have hrc := h.unregister_rc hd
  have hbusy : (devfsDetach (dev d).name d sb).2 = sb := by
    rw [← joinPath_path dev d]
    exact (h.trees a sb ha).detach_busy (h.names d hd) hn hrefs
  refine ⟨hrc, ?_⟩
  simp only [call, if_pos hrc, h.tellAll_eq, ha, Option.map_some, hbusy]

/-- A device that has been unregistered is not registered. -/
theorem Tracks.not_mem_devs (h : Tracks dev t s) (hrc : (call dev s (.unregister d)).1 = vfsOk) :
    d ∉ (call dev s (.unregister d)).2.devs := by
  have hinv := h.reg.unregister (some d)
  have hok : (Vdev.vdevUnregister listener s.reg (some d)).1 = vfsOk := hrc
  rw [hok] at hinv
  have hdevs : (call dev s (.unregister d)).2.devs = (Vdev.registered t).erase d := by
    have hreg : Vdev.registered (t ++ [(.unregister (some d), vfsOk)]) =
        (Vdev.registered t).erase d := by
      rw [Vdev.registered_concat, Vdev.registerStep, if_pos rfl]
    rw [← hreg]
    exact hinv.devs.chain_eq Vdev.card_le_addrEnd
  rw [hdevs]
  exact h.reg.devs.nodup.not_mem_erase

theorem Tracks.mount (h : Tracks dev t s) {node : Ramfs.Addr → Node} {root : Ramfs.Addr}
    (hc : Callable dev s (.mount a node root mem)) :
    ∃ t', Tracks dev t' (call dev s (.mount a node root mem)).2 := by
  obtain ⟨hnone, hroot, hfresh⟩ := hc
  rw [h.devs_eq] at hfresh
  have ha : a ∉ Vdev.subscribed t := by
    rw [← h.mounts, hnone]
    simp
  have hinv := h.reg.listen (some a) fun x hx => Option.some.inj hx ▸ ha
  have hreg : Vdev.registered (t ++ [(.listen (some a), vfsOk)]) = Vdev.registered t := by
    rw [Vdev.registered_concat]
    rfl
  have hsub : Vdev.subscribed (t ++ [(.listen (some a), vfsOk)]) = a :: Vdev.subscribed t := by
    rw [Vdev.subscribed_concat]
    rfl
  refine ⟨_, hinv, fun b => ?_, hreg ▸ h.names, hreg ▸ h.apart, fun b sb hb => ?_⟩
  · rw [hsub, List.mem_cons, ← h.mounts]
    by_cases hba : b = a
    · simp [call, hba]
    · simp [call, hba]
  · rw [hreg]
    by_cases hba : b = a
    · simp only [call, hba, Function.update_self, h.devs_eq] at hb
      obtain rfl := Option.some.inj hb
      -- the order in which the devices are told of is the other one
      have hmem : ∀ x, x ∈ (Vdev.registered t).reverse ++ [] ↔ x ∈ Vdev.registered t := by simp
      have hap : Apart dev ((Vdev.registered t).reverse ++ []) := fun x hx y hy =>
        h.apart x ((hmem x).mp hx) y ((hmem y).mp hy)
      have hnd : ((Vdev.registered t).reverse ++ []).Nodup := by simpa using h.reg.devs.nodup
      have htree := (treeOf_mounted dev node hroot).replay hfresh h.names hap hnd
      rwa [TreeOf, h.apart.devAt_congr hmem] at htree
    · simp only [call, Function.update_of_ne hba] at hb
      exact h.trees b sb hb

theorem Tracks.unmount (h : Tracks dev t s) (a : Vdev.Addr) :
    ∃ t', Tracks dev t' (call dev s (.unmount a)).2 := by
  have hreg : Vdev.registered (t ++ [(.unlisten (some a), vfsOk)]) = Vdev.registered t := by
    rw [Vdev.registered_concat]
    rfl
  have hsub : Vdev.subscribed (t ++ [(.unlisten (some a), vfsOk)]) = (Vdev.subscribed t).erase a := by
    rw [Vdev.subscribed_concat]
    rfl
  refine ⟨_, h.reg.unlisten (some a), fun b => ?_, hreg ▸ h.names, hreg ▸ h.apart, fun b sb hb => ?_⟩
  · rw [hsub, h.reg.listeners.nodup.mem_erase_iff, ← h.mounts]
    by_cases hba : b = a
    · simp [call, hba]
    · simp [call, hba]
  · rw [hreg]
    by_cases hba : b = a
    · simp [call, hba] at hb
    · simp only [call, Function.update_of_ne hba] at hb
      exact h.trees b sb hb

/-- **Every call keeps it**, if nothing is pinned. -/
theorem Tracks.call (h : Tracks dev t s) {c : Call} (hc : Callable dev s c) (hu : Unpinned dev s c) :
    ∃ t', Tracks dev t' (call dev s c).2 := by
  cases c with
  | register d mem => exact h.register hc
  | unregister d => exact h.unregister hu
  | mount a node root mem => exact h.mount hc
  | unmount a => exact h.unmount a
  | openFile a k rel flags rc => exact ⟨t, h.on a fun sb => kept_devfsOpen sb k rel flags rc⟩
  | close a k =>
    refine ⟨t, h.on a fun sb => ?_⟩
    split
    · exact .refl sb
    · exact kept_devfsClose sb k _
  | opendir a k rel => exact ⟨t, h.on a fun sb => kept_devfsOpendir sb k rel⟩
  | readdir a k =>
    refine ⟨t, h.on a fun sb => ?_⟩
    split
    · exact .refl sb
    · exact kept_devfsReaddir sb k _
  | closedir a k =>
    refine ⟨t, h.on a fun sb => ?_⟩
    split
    · exact .refl sb
    · exact kept_devfsClosedir sb k _

/-- A run in which nothing is pinned when it has to go. -/
theorem Run.tracks (h : Run dev (fun s c => Callable dev s c ∧ Unpinned dev s c) s) :
    ∃ t, Tracks dev t s := by
  induction h with
  | init next lnext =>
    refine ⟨[], ⟨rfl, rfl, List.nodup_nil, fun l hl => absurd hl (by simp [Vdev.subscribed])⟩,
      fun a => ?_, fun d hd => absurd hd (by simp [Vdev.registered]),
      fun x hx => absurd hx (by simp [Vdev.registered]), fun a sb ha => absurd ha (by simp)⟩
    simp [Vdev.subscribed]
  | step _ hc ih =>
    obtain ⟨t, ht⟩ := ih
    exact ht.call hc.1 hc.2

/-! ## The result -/

/-- **The mounts and the registry agree** in every run in which, whenever a
device is unregistered, nothing pins its node in a mount or a directory that is
left empty by it: the tree of each mount is that of the registered devices,
whatever handles are open, and a device that has been unregistered is referred
to by no node. -/
theorem devfs_mirrors_registry {dev : Vdev.Addr → Vdev.Device} {s : State}
    (h : Run dev (fun s c => Callable dev s c ∧ Unpinned dev s c) s) :
    (∀ a sb, s.sbs a = some sb → Mirrors dev s.devs sb) ∧
      ∀ d, Unpinned dev s (.unregister d) → (call dev s (.unregister d)).1 = vfsOk →
        ∀ a sb n, (call dev s (.unregister d)).2.sbs a = some sb → sb.tree.live n = true →
          sb.dev n ≠ some d := by
  obtain ⟨t, ht⟩ := h.tracks
  refine ⟨fun a sb ha => ht.mirrors ha, fun d hu hrc a sb n ha hn hd => ?_⟩
  obtain ⟨t', ht'⟩ := ht.unregister hu
  exact ht.not_mem_devs hrc ((ht'.mirrors ha).refers n d hn hd)

theorem Run.mono {ok ok' : State → Call → Prop} (hok : ∀ s c, ok s c → ok' s c) (h : Run dev ok s) :
    Run dev ok' s := by
  induction h with
  | init next lnext => exact .init next lnext
  | step _ hc ih => exact .step ih (hok _ _ hc)

/-! ### A run -/

/-- What `kmalloc` gives. -/
def exampleMem (i : ℕ) : Ramfs.Addr := i + 1

/-- A new mount. -/
def exampleSb : Sb := ⟨mounted (fun _ => newNode [] false) 0, fun _ => none⟩

/-- After `init_vdev` and the registration of a device. -/
def exampleState : State :=
  (call Vdev.exampleDevice ⟨Vdev.initVdev (fun _ => none) fun _ => none, fun _ => none⟩
    (.register 1 fun _ => exampleMem)).2

theorem nameOk_example : ∀ k ∈ [([97] : Str)], NameOk k := by
  intro k hk
  obtain rfl := List.mem_singleton.mp hk
  exact ⟨by decide, by decide⟩

theorem run_exampleState : Run Vdev.exampleDevice
    (fun s c => Callable Vdev.exampleDevice s c ∧ Unpinned Vdev.exampleDevice s c) exampleState := by
  refine .step (.init (fun _ => none) fun _ => none) ⟨⟨nameOk_example, fun x hx => ?_, fun a sb ha => ?_⟩,
    trivial⟩
  · exact fun hne => absurd rfl hne
  · exact absurd ha (by simp)

theorem exampleState_sbs : exampleState.sbs = fun _ => none := by
  have hempty : Linked (fun _ : Vdev.Addr => none) none [] := rfl
  simp only [exampleState, call, Vdev.initVdev, hempty.chain_eq Vdev.card_le_addrEnd, tellAll, ite_self]

theorem exampleState_devs : exampleState.devs = [1] := by
  have hempty : Linked (fun _ : Vdev.Addr => none) none [] := rfl
  have hreg : exampleState.reg = Vdev.exampleState := by
    simp only [exampleState, call, Vdev.vdevRegister, Vdev.initVdev, hempty.chain_eq Vdev.card_le_addrEnd]
    rfl
  have hlink : Linked Vdev.exampleState.next Vdev.exampleState.devs [1] := ⟨rfl, rfl⟩
  rw [State.devs, hreg]
  exact hlink.chain_eq Vdev.card_le_addrEnd

theorem fresh_example : Fresh exampleSb exampleMem 1 := by
  refine ⟨fun i hi => decide_eq_false (Nat.succ_ne_zero i), fun i hi => ?_, fun i hi j hj hij => ?_⟩
  · obtain rfl : i = 0 := by omega
    rw [heapEnd]
    decide
  · exact Nat.succ_injective hij

/-- A mount beside the device. -/
theorem run_mounted : Run Vdev.exampleDevice
    (fun s c => Callable Vdev.exampleDevice s c ∧ Unpinned Vdev.exampleDevice s c)
    (call Vdev.exampleDevice exampleState (.mount 2 (fun _ => newNode [] false) 0 exampleMem)).2 := by
  refine .step run_exampleState ⟨⟨by rw [exampleState_sbs], ?_, ?_⟩, trivial⟩
  · rw [heapEnd]
    norm_num
  · rw [exampleState_devs]
    exact fresh_example

theorem sbs_mounted : (call Vdev.exampleDevice exampleState
    (.mount 2 (fun _ => newNode [] false) 0 exampleMem)).2.sbs 2 =
      some (replay Vdev.exampleDevice exampleMem exampleSb [1]) := by
  simp only [call, exampleState_devs, Function.update_self]
  rfl

/-- The mount has the device. -/
theorem devfs_mirrors_registry_mounted : ∃ s sb, Run Vdev.exampleDevice
    (fun s c => Callable Vdev.exampleDevice s c ∧ Unpinned Vdev.exampleDevice s c) s ∧
      s.sbs 2 = some sb ∧ s.devs = [1] ∧ Mirrors Vdev.exampleDevice s.devs sb :=
  ⟨_, _, run_mounted, sbs_mounted, exampleState_devs,
    (devfs_mirrors_registry run_mounted).1 2 _ sbs_mounted⟩

/-- The mount with its one device. -/
def exampleMounted : Sb :=
  ⟨(newChild exampleSb 0 1 [97] false).tree, Function.update (fun _ => none) 1 (some 1)⟩

theorem treeOf_exampleSb : TreeOf Vdev.exampleDevice [] exampleSb :=
  treeOf_mounted _ _ (by rw [heapEnd]; norm_num)

theorem childFind_exampleSb : childFind exampleSb.tree 0 [97] = none :=
  treeOf_exampleSb.shape.childFind_of_child_none rfl rfl _

theorem not_mem_under_nil : [([97] : Str)] ∉ under (devAt Vdev.exampleDevice []) := by
  rintro (he | ⟨q, hq, -⟩)
  · exact absurd he (by simp)
  · exact absurd hq (by simp [devAt])

theorem replay_example : replay Vdev.exampleDevice exampleMem exampleSb [1] = exampleMounted := by
  have hlast := treeOf_exampleSb.attachLast_new (d := 1) (n := 1) exampleSb.at_nil rfl not_mem_under_nil
    (fresh_example.free 0 (by omega)) (fresh_example.bound 0 (by omega)) (nameOk_example _ (by simp))
  change (attachLoop 1 2 [97] 0 exampleMem exampleSb).1.2 = exampleMounted
  have hname : ([97] : Str).dropWhile (· = slash) = [97] ∧ ([97] : Str).takeWhile (· ≠ slash) = [97] ∧
      ([97] : Str).dropWhile (· ≠ slash) = [] := by decide
  rw [attachLoop, hname.1, hname.2.1, hname.2.2]
  dsimp only
  rw [childFind_exampleSb]
  exact congrArg Prod.snd hlast

theorem holds_exampleMounted : ∃ S D, Holds exampleMounted S D ∧ D [[97]] = some 1 ∧
    exampleMounted.at [[97]] = some 1 := by
  obtain ⟨hadd, hat⟩ := treeOf_exampleSb.add (some 1) (n := 1) exampleSb.at_nil rfl not_mem_under_nil
    (fresh_example.free 0 (by omega)) (fresh_example.bound 0 (by omega)) (nameOk_example _ (by simp))
  exact ⟨_, _, hadd, Function.update_self _ _ _, (hat _).trans (if_pos rfl)⟩

theorem refs_exampleMounted : (exampleMounted.tree.node 1).refs = 0 := by
  have hc : Created exampleSb.tree exampleMounted.tree 0 1 [97] false :=
    created_spec treeOf_exampleSb.shape rfl rfl rfl (fresh_example.bound 0 (by omega))
      (nameOk_example _ (by simp)) childFind_exampleSb
  exact hc.new.refs

/-- Opening the file of the device pins its node. -/
theorem refs_opened : ((devfsOpen exampleMounted 0 [97] oRdonly vfsOk).2.tree.node 1).refs = 1 := by
  obtain ⟨S, D, hh, hD, hat⟩ := holds_exampleMounted
  have hfind : devfsFind exampleMounted [97] = some 1 := hh.find nameOk_example hat
  have hdir : (exampleMounted.tree.node 1).isDir = false := by
    rw [hh.dir _ 1 hat, hD]
    rfl
  have hdev : (exampleMounted.dev 1).isNone = false := by
    rw [hh.dev _ 1 hat, hD]
    rfl
  unfold devfsOpen
  rw [if_neg (by decide), hfind]
  dsimp only
  rw [if_neg (by simp [hdir]), if_neg (by decide), if_neg (by simp [hdev]), if_neg (not_not.mpr rfl)]
  dsimp only
  rw [modify_node, if_pos rfl, ref_refs _ (by rw [refs_exampleMounted]; norm_num), refs_exampleMounted]

/-- The mount, with the file of the device opened. -/
def openedState : State :=
  (call Vdev.exampleDevice
    (call Vdev.exampleDevice exampleState (.mount 2 (fun _ => newNode [] false) 0 exampleMem)).2
    (.openFile 2 0 [97] oRdonly vfsOk)).2

theorem openedState_sbs :
    openedState.sbs 2 = some (devfsOpen exampleMounted 0 [97] oRdonly vfsOk).2 := by
  simp only [openedState, call.eq_5, State.on, sbs_mounted, replay_example, Function.update_self]

theorem openedState_devs : openedState.devs = [1] := by
  have hreg : openedState.reg = (call Vdev.exampleDevice exampleState
      (.mount 2 (fun _ => newNode [] false) 0 exampleMem)).2.reg := by
    simp only [openedState, call.eq_5, State.on, sbs_mounted]
  rw [State.devs, hreg]
  exact exampleState_devs

theorem run_openedState : Run Vdev.exampleDevice
    (fun s c => Callable Vdev.exampleDevice s c ∧ Unpinned Vdev.exampleDevice s c) openedState := by
  refine .step run_mounted ⟨fun sb hsb => ?_, trivial⟩
  rw [sbs_mounted, replay_example] at hsb
  obtain rfl := Option.some.inj hsb
  have hfiles : exampleMounted.tree.files = exampleSb.tree.files := created_files
  rw [hfiles]
  rfl

/-- **An open file keeps its device in the tree.** -/
theorem pinned_device_stays : ¬ ∀ (dev : Vdev.Addr → Vdev.Device) (s : State), Run dev (Callable dev) s →
    (∀ a sb, s.sbs a = some sb → NoHandles sb → Mirrors dev s.devs sb) ∧
      ∀ d, (call dev s (.unregister d)).1 = vfsOk →
        ∀ a sb n, (call dev s (.unregister d)).2.sbs a = some sb → sb.tree.live n = true →
          sb.dev n ≠ some d := by
  intro hclaim
  obtain ⟨t, ht⟩ := run_openedState.tracks
  obtain ⟨S, D, hh, hD, hat⟩ := holds_exampleMounted
  have hkept := kept_devfsOpen exampleMounted 0 [97] oRdonly vfsOk
  have hat' : (devfsOpen exampleMounted 0 [97] oRdonly vfsOk).2.at [[97]] = some 1 :=
    (hkept.1.follow _).trans hat
  obtain ⟨hrc, hsbs⟩ := ht.unregister_pinned (d := 1) (openedState_devs ▸ List.mem_singleton_self 1)
    openedState_sbs hat' (by rw [refs_opened]; decide)
  refine (hclaim _ _ (run_openedState.mono fun s c hc => hc.1)).2 1 hrc 2 _ 1 hsbs ?_ ?_
  · rw [hkept.1.live]
    exact hh.live hat
  · rw [hkept.2, hh.dev _ 1 hat, hD]

end Devfs

end Csos

import Csos.Devfs.Model
import Csos.Ramfs.Lookup
/-!
# The device file system — the tree

The tree of a mount is described by its paths and by the device at each
(`Holds`). Making a node adds a path and freeing one takes a path away;
`devfs_attach_locked` adds the paths up to the name of the device, and
`devfs_detach_locked` takes away those that lead to no other, as long as no
handle pins them.
-/

namespace Csos

namespace Devfs

open Vfs Ramfs

variable {sb sb' sb'' : Sb} {S T : Set (List Str)} {D : List Str → Option Vdev.Addr} {p q r : List Str}
  {n dir cur : Ramfs.Addr} {leaf : Str} {d : Vdev.Addr} {mem : ℕ → Ramfs.Addr} {fuel N : ℕ}

/-- The node that a path leads to. -/
def Sb.at (sb : Sb) (p : List Str) : Option Ramfs.Addr := follow (childFind sb.tree) sb.tree.root p

/-- **The tree has the paths `S`**, with the devices `D` at their ends. -/
structure Holds (sb : Sb) (S : Set (List Str)) (D : List Str → Option Vdev.Addr) : Prop where
  shape : Shape sb.tree
  paths : ∀ p, (sb.at p).isSome ↔ p ∈ S
  reach : ∀ n, sb.tree.live n = true → ∃ p, sb.at p = some n
  dir : ∀ p n, sb.at p = some n → (sb.tree.node n).isDir = (D p).isNone
  dev : ∀ p n, sb.at p = some n → sb.dev n = D p
  support : ∀ p, (D p).isSome → p ∈ S

theorem Sb.at_nil (sb : Sb) : sb.at [] = some sb.tree.root := rfl

theorem Sb.at_concat (h : sb.at p = some n) (k : Str) : sb.at (p ++ [k]) = childFind sb.tree n k :=
  follow_concat_of_some h

/-- Where a path leads somewhere, so does every shorter one. -/
theorem Sb.at_of_append (h : (sb.at (p ++ q)).isSome) : (sb.at p).isSome := by
  rw [Sb.at, follow_append] at h
  exact Option.isSome_of_isSome_bind h

theorem Holds.prefix_mem (h : Holds sb S D) (hq : q ∈ S) (hp : p <+: q) : p ∈ S := by
  obtain ⟨r, rfl⟩ := hp
  exact (h.paths p).mp (Sb.at_of_append ((h.paths _).mpr hq))

theorem Holds.nil_mem (h : Holds sb S D) : [] ∈ S := (h.paths []).mp rfl

theorem Holds.live (h : Holds sb S D) (hp : sb.at p = some n) : sb.tree.live n = true :=
  h.shape.follow_live hp

theorem Holds.at_inj (h : Holds sb S D) (hp : sb.at p = some n) (hq : sb.at q = some n) : p = q :=
  h.shape.rooted.follow_inj hp hq

/-- The nodes hang together as before, and only references change. -/
theorem Holds.same (h : Holds sb S D) {t : Ramfs.State} (hs : SameShape sb.tree t) :
    Holds { sb with tree := t } S D := by
  have hat : ∀ p, Sb.at { sb with tree := t } p = sb.at p := fun p => hs.follow p
  refine ⟨hs.shape h.shape, fun p => ?_, fun n hn => ?_, fun p n hp => ?_, fun p n hp => ?_, h.support⟩
  · rw [hat]
    exact h.paths p
  · obtain ⟨p, hp⟩ := h.reach n (hs.live ▸ hn)
    exact ⟨p, (hat p).trans hp⟩
  · rw [hat] at hp
    exact (hs.isDir n).trans (h.dir p n hp)
  · rw [hat] at hp
    exact h.dev p n hp

/-- A new mount has its root. -/
theorem holds_mounted (node : Ramfs.Addr → Node) {root : Ramfs.Addr} (hroot : root < heapEnd) :
    Holds ⟨mounted node root, fun _ => none⟩ {[]} fun _ => none := by
  have hat : ∀ p, Sb.at ⟨mounted node root, fun _ => none⟩ p = if p = [] then some root else none :=
    mounted_follow node hroot
  refine ⟨mounted_shape node hroot, fun p => ?_, fun n hn => ?_, fun p n hp => ?_, fun p n hp => rfl,
    fun p hp => absurd hp (by simp)⟩
  · rw [hat, Set.mem_singleton_iff]
    split <;> simp [*]
  · exact ⟨[], by rw [hat, if_pos rfl, mounted_live hn]⟩
  · rw [hat] at hp
    split at hp
    · obtain rfl := Option.some.inj hp
      exact congrArg Node.isDir (mounted_node_root node root)
    · exact absurd hp (by simp)

/-! ## Nodes that stay -/

/-- The nodes at the paths `S` are where they were, and hold what they held. -/
structure KeptOn (S : Set (List Str)) (sb sb' : Sb) : Prop where
  root : sb'.tree.root = sb.tree.root
  at_eq : ∀ p ∈ S, sb'.at p = sb.at p
  info : ∀ p ∈ S, ∀ n, sb.at p = some n → SameInfo (sb.tree.node n) (sb'.tree.node n)
  dev : ∀ p ∈ S, ∀ n, sb.at p = some n → sb'.dev n = sb.dev n

theorem KeptOn.refl (S : Set (List Str)) (sb : Sb) : KeptOn S sb sb :=
  ⟨rfl, fun _ _ => rfl, fun _ _ _ _ => SameInfo.refl _, fun _ _ _ _ => rfl⟩

theorem KeptOn.trans (h : KeptOn S sb sb') (h' : KeptOn S sb' sb'') : KeptOn S sb sb'' where
  root := h'.root.trans h.root
  at_eq p hp := (h'.at_eq p hp).trans (h.at_eq p hp)
  info p hp n hn := (h.info p hp n hn).trans (h'.info p hp n ((h.at_eq p hp).trans hn))
  dev p hp n hn := (h'.dev p hp n ((h.at_eq p hp).trans hn)).trans (h.dev p hp n hn)

theorem KeptOn.mono (h : KeptOn T sb sb') (hS : S ⊆ T) : KeptOn S sb sb' where
  root := h.root
  at_eq p hp := h.at_eq p (hS hp)
  info p hp := h.info p (hS hp)
  dev p hp := h.dev p (hS hp)

/-! ## Nodes that come and go -/

/-- **A node is made**, and its device set. -/
theorem Holds.add (h : Holds sb S D) (v : Option Vdev.Addr) (hp : sb.at p = some dir)
    (hD : D p = none) (hnew : p ++ [leaf] ∉ S) (hn : sb.tree.live n = false) (hbound : n < heapEnd)
    (hleaf : NameOk leaf) :
    Holds ⟨(newChild sb dir n leaf v.isNone).tree, Function.update sb.dev n v⟩
      (insert (p ++ [leaf]) S) (Function.update D (p ++ [leaf]) v) ∧
    ∀ q, Sb.at ⟨(newChild sb dir n leaf v.isNone).tree, Function.update sb.dev n v⟩ q =
      if q = p ++ [leaf] then some n else sb.at q := by
  have hnone : childFind sb.tree dir leaf = none := by
    rw [← Sb.at_concat hp, ← Option.not_isSome_iff_eq_none, h.paths]
    exact hnew
  have hd : (sb.tree.node dir).isDir = true := by
    rw [h.dir p dir hp, hD]
    rfl
  have hc : Created sb.tree (newChild sb dir n leaf v.isNone).tree dir n leaf v.isNone :=
    created_spec h.shape (h.live hp) hd hn hbound hleaf hnone
  have hat : ∀ q, Sb.at ⟨(newChild sb dir n leaf v.isNone).tree, Function.update sb.dev n v⟩ q =
      if q = p ++ [leaf] then some n else sb.at q := hc.follow h.shape hp hnone
  have hne : ∀ q x, sb.at q = some x → x ≠ n := fun q x hq he => by
    have hl := h.live hq
    rw [he, hn] at hl
    exact absurd hl (by simp)
  refine ⟨⟨hc.shape, fun q => ?_, fun x hx => ?_, fun q x hq => ?_, fun q x hq => ?_, fun q hq => ?_⟩,
    hat⟩
  · rw [hat, Set.mem_insert_iff]
    by_cases he : q = p ++ [leaf]
    · simp [he]
    · rw [if_neg he, h.paths]
      exact (or_iff_right he).symm
  · by_cases hxn : x = n
    · refine ⟨p ++ [leaf], ?_⟩
      rw [hat, if_pos rfl, hxn]
    · have hl : sb.tree.live x = true := by
        have hx : (newChild sb dir n leaf v.isNone).tree.live x = true := hx
        rw [hc.live, Function.update_of_ne hxn] at hx
        exact hx
      obtain ⟨q, hq⟩ := h.reach x hl
      refine ⟨q, ?_⟩
      rw [hat, if_neg, hq]
      rintro rfl
      exact hnew ((h.paths _).mp (by rw [hq]; rfl))
  · rw [hat] at hq
    by_cases he : q = p ++ [leaf]
    · rw [if_pos he] at hq
      obtain rfl := Option.some.inj hq
      rw [he, Function.update_self]
      exact hc.new.isDir
    · rw [if_neg he] at hq
      rw [Function.update_of_ne he, ← h.dir q x hq]
      exact (hc.old x (hne q x hq)).isDir
  · rw [hat] at hq
    by_cases he : q = p ++ [leaf]
    · rw [if_pos he] at hq
      obtain rfl := Option.some.inj hq
      rw [he, Function.update_self]
      exact Function.update_self _ _ _
    · rw [if_neg he] at hq
      rw [Function.update_of_ne he, ← h.dev q x hq]
      exact Function.update_of_ne (hne q x hq) _ _
  · by_cases he : q = p ++ [leaf]
    · exact .inl he
    · rw [Function.update_of_ne he] at hq
      exact .inr (h.support q hq)

/-- **A new node** leaves the others alone, and nothing refers to it. -/
theorem Holds.add_kept (h : Holds sb S D) (v : Option Vdev.Addr) (hp : sb.at p = some dir)
    (hD : D p = none) (hnew : p ++ [leaf] ∉ S) (hn : sb.tree.live n = false) (hbound : n < heapEnd)
    (hleaf : NameOk leaf) :
    KeptOn S sb ⟨(newChild sb dir n leaf v.isNone).tree, Function.update sb.dev n v⟩ ∧
      ((newChild sb dir n leaf v.isNone).tree.node n).refs = 0 := by
  obtain ⟨-, hat⟩ := h.add v hp hD hnew hn hbound hleaf
  have hnone : childFind sb.tree dir leaf = none := by
    rw [← Sb.at_concat hp, ← Option.not_isSome_iff_eq_none, h.paths]
    exact hnew
  have hd : (sb.tree.node dir).isDir = true := by
    rw [h.dir p dir hp, hD]
    rfl
  have hc : Created sb.tree (newChild sb dir n leaf v.isNone).tree dir n leaf v.isNone :=
    created_spec h.shape (h.live hp) hd hn hbound hleaf hnone
  have hne : ∀ q x, sb.at q = some x → x ≠ n := fun q x hq he => by
    have hl := h.live hq
    rw [he, hn] at hl
    exact absurd hl (by simp)
  refine ⟨⟨hc.root, fun q hq => ?_, fun q _ x hx => hc.old x (hne q x hx),
    fun q _ x hx => Function.update_of_ne (hne q x hx) _ _⟩, hc.new.refs⟩
  rw [hat, if_neg]
  rintro rfl
  exact hnew hq

/-- A node that no path goes through has no children. -/
theorem Holds.child_none (h : Holds sb S D) (hp : sb.at p = some n) (hend : ∀ k, p ++ [k] ∉ S) :
    (sb.tree.node n).child = none := by
  obtain ⟨l, hl⟩ := h.shape.children n (h.live hp)
  cases l with
  | nil => exact hl.linked
  | cons c l =>
    have hc := (hl.childFind_iff h.shape).mpr ⟨List.mem_cons_self, rfl⟩
    rw [← Sb.at_concat hp] at hc
    exact absurd ((h.paths _).mp (by rw [hc]; rfl)) (hend _)

/-- **A node is freed.** -/
theorem Holds.remove (h : Holds sb S D) (hp : sb.at (p ++ [leaf]) = some n)
    (hend : ∀ k, p ++ [leaf] ++ [k] ∉ S) :
    Holds (freeNode sb n) (S \ {p ++ [leaf]}) (Function.update D (p ++ [leaf]) none) ∧
      (∀ q, q ≠ p ++ [leaf] → (freeNode sb n).at q = sb.at q) ∧
      (∀ x, x ≠ n → ((freeNode sb n).tree.node x).refs = (sb.tree.node x).refs) ∧
      (freeNode sb n).tree.root = sb.tree.root ∧ (sb.tree.node n).parent = sb.at p := by
  have hsome := Sb.at_of_append (by rw [hp]; rfl : (sb.at (p ++ [leaf])).isSome)
  obtain ⟨dir, hdir⟩ := Option.isSome_iff_exists.mp hsome
  have hfind : childFind sb.tree dir leaf = some n := (Sb.at_concat hdir leaf).symm.trans hp
  obtain ⟨hlive, hparent, -, -⟩ := h.shape.childFind_kid (h.live hdir) hfind
  have hchild := h.child_none hp hend
  have hr : Removed sb.tree (freeNode sb n).tree dir n := removed_spec h.shape hlive hparent hchild
  have hat : ∀ q, (freeNode sb n).at q = if q = p ++ [leaf] then none else sb.at q :=
    hr.follow h.shape hdir hfind hchild
  have hne : ∀ q x, q ≠ p ++ [leaf] → sb.at q = some x → x ≠ n := fun q x hq hx he =>
    hq (h.at_inj (he ▸ hx) hp)
  refine ⟨⟨hr.shape, fun q => ?_, fun x hx => ?_, fun q x hq => ?_, fun q x hq => ?_, fun q hq => ?_⟩,
    fun q hq => ?_, fun x hx => (hr.old x hx).refs, hr.root, hparent.trans hdir.symm⟩
  · rw [hat, Set.mem_sdiff, Set.mem_singleton_iff]
    by_cases he : q = p ++ [leaf]
    · simp [he]
    · rw [if_neg he, h.paths]
      exact (and_iff_left he).symm
  · have hxn : x ≠ n := fun he => by
      rw [he, hr.live, Function.update_self] at hx
      exact absurd hx (by simp)
    rw [hr.live, Function.update_of_ne hxn] at hx
    obtain ⟨q, hq⟩ := h.reach x hx
    refine ⟨q, ?_⟩
    rw [hat, if_neg, hq]
    rintro rfl
    exact hxn (Option.some.inj (hq.symm.trans hp))
  · rw [hat] at hq
    split at hq
    · exact absurd hq (by simp)
    · rename_i he
      rw [Function.update_of_ne he, ← h.dir q x hq]
      exact (hr.old x (hne q x he hq)).isDir
  · rw [hat] at hq
    split at hq
    · exact absurd hq (by simp)
    · rename_i he
      rw [Function.update_of_ne he]
      exact h.dev q x hq
  · by_cases he : q = p ++ [leaf]
    · rw [he, Function.update_self] at hq
      exact absurd hq (by simp)
    · rw [Function.update_of_ne he] at hq
      exact ⟨h.support q hq, he⟩
  · rw [hat, if_neg hq]

/-- A freed node leaves the others alone. -/
theorem Holds.remove_kept (h : Holds sb S D) (hp : sb.at (p ++ [leaf]) = some n)
    (hend : ∀ k, p ++ [leaf] ++ [k] ∉ S) : KeptOn (S \ {p ++ [leaf]}) sb (freeNode sb n) := by
  obtain ⟨-, hat, -, hroot, hparent⟩ := h.remove hp hend
  obtain ⟨dir, hdir⟩ := Option.isSome_iff_exists.mp
    (Sb.at_of_append (by rw [hp]; rfl : (sb.at (p ++ [leaf])).isSome))
  have hr : Removed sb.tree (freeNode sb n).tree dir n :=
    removed_spec h.shape (h.live hp) (hparent.trans hdir) (h.child_none hp hend)
  refine ⟨hroot, fun q hq => hat q hq.2, fun q hq x hx => hr.old x fun he => ?_, fun _ _ _ _ => rfl⟩
  exact hq.2 (h.at_inj (he ▸ hx) hp)

/-! ## Attaching -/

/-- What `kmalloc` gives the next `N` times: blocks that are not in use, and
each once. -/
structure Fresh (sb : Sb) (mem : ℕ → Ramfs.Addr) (N : ℕ) : Prop where
  free : ∀ i < N, sb.tree.live (mem i) = false
  bound : ∀ i < N, mem i < heapEnd
  inj : ∀ i < N, ∀ j < N, mem i = mem j → i = j

theorem Fresh.mono {M : ℕ} (hm : Fresh sb mem N) (hM : M ≤ N) : Fresh sb mem M :=
  ⟨fun i hi => hm.free i (by omega), fun i hi => hm.bound i (by omega),
    fun i hi j hj => hm.inj i (by omega) j (by omega)⟩

theorem newChild_live (sb : Sb) (dir n : Ramfs.Addr) (leaf : Str) (isDir : Bool) :
    (newChild sb dir n leaf isDir).tree.live = Function.update sb.tree.live n true := created_live

/-- What `kmalloc` gives after the first block is fresh afterwards. -/
theorem Fresh.tail (hm : Fresh sb mem (N + 1)) {sb' : Sb}
    (hlive : sb'.tree.live = Function.update sb.tree.live (mem 0) true) :
    Fresh sb' (fun i => mem (i + 1)) N := by
  refine ⟨fun i hi => ?_, fun i hi => hm.bound _ (by omega), fun i hi j hj hij => ?_⟩
  · have hne : mem (i + 1) ≠ mem 0 := fun he =>
      absurd (hm.inj (i + 1) (by omega) 0 (by omega) he) (by omega)
    rw [hlive, Function.update_of_ne hne]
    exact hm.free _ (by omega)
  · have := hm.inj (i + 1) (by omega) (j + 1) (by omega) hij
    omega

/-- The end of the string is reached at the last component. -/
theorem dropWhile_joinPath_eq_nil_iff {k : Str} (hp : ∀ m ∈ k :: p, Component m) :
    (joinPath (k :: p)).dropWhile (· ≠ slash) = [] ↔ p = [] := by
  have hk := hp k List.mem_cons_self
  cases p with
  | nil =>
    rw [joinPath, (takeWhile_component_self hk).2]
    exact iff_of_true rfl rfl
  | cons m p =>
    rw [joinPath, (takeWhile_component hk _).2]
    simp

/-- The paths up to one, and those up to a longer one. -/
theorem union_prefixes_insert (q : List Str) (k : Str) (p : List Str) :
    insert (q ++ [k]) S ∪ {r | r <+: q ++ [k] ++ p} = S ∪ {r | r <+: q ++ [k] ++ p} := by
  rw [Set.insert_union, Set.insert_eq_of_mem]
  exact .inr (List.prefix_append _ _)

/-- The prefixes of a path that is there are there. -/
theorem Holds.union_prefixes (h : Holds sb S D) (hq : q ∈ S) (k : Str) :
    insert (q ++ [k]) S = S ∪ {r | r <+: q ++ [k]} := by
  ext r
  simp only [Set.mem_insert_iff, Set.mem_union, Set.mem_ofPred_eq, List.prefix_concat_iff]
  constructor
  · rintro (hr | hr)
    · exact .inr (.inl hr)
    · exact .inl hr
  · rintro (hr | hr | hr)
    · exact .inr hr
    · exact .inl hr
    · exact .inr (h.prefix_mem hq hr)

/-- A new node becomes the device's. -/
theorem Holds.attachLast_new (h : Holds sb S D) (hp : sb.at p = some dir) (hD : D p = none)
    (hnew : p ++ [leaf] ∉ S) (hn : sb.tree.live n = false) (hbound : n < heapEnd)
    (hleaf : NameOk leaf) :
    attachLast (newChild sb dir n leaf false) d n =
      (vfsOk, ⟨(newChild sb dir n leaf false).tree, Function.update sb.dev n (some d)⟩) := by
  obtain ⟨hadd, hat⟩ := h.add (some d) hp hD hnew hn hbound hleaf
  have hdir : ((newChild sb dir n leaf false).tree.node n).isDir = false := by
    have hd := hadd.dir (p ++ [leaf]) n ((hat _).trans (if_pos rfl))
    rwa [Function.update_self] at hd
  have hdev : (newChild sb dir n leaf false).dev n = none := Function.update_self _ _ _
  rw [attachLast, if_neg (by simp [hdir, hdev])]
  congr 2
  exact Function.update_idem _ _ _

/-- **The loop of `devfs_attach_locked`** adds the rest of the path. -/
theorem Holds.attachLoop (h : Holds sb S D) (hq : sb.at q = some cur) (hm : Fresh sb mem (p.length + N))
    (hp : ∀ k ∈ p, NameOk k) (hne : p ≠ []) (hD : ∀ r, r <+: q ++ p → D r = none)
    (hnew : q ++ p ∉ S) {t : Str} (ht : t.dropWhile (· = slash) = joinPath p) (hf : p.length < fuel) :
    (attachLoop d fuel t cur mem sb).1.1 = vfsOk ∧
      Holds (attachLoop d fuel t cur mem sb).1.2 (S ∪ {r | r <+: q ++ p})
        (Function.update D (q ++ p) (some d)) ∧
      Fresh (attachLoop d fuel t cur mem sb).1.2 (attachLoop d fuel t cur mem sb).2 N := by
  induction p generalizing sb S q cur mem t fuel with
  | nil => exact absurd rfl hne
  | cons k p ih =>
    obtain ⟨fuel, rfl⟩ : ∃ j, fuel = j + 1 := ⟨fuel - 1, by simp at hf; omega⟩
    rw [List.length_cons, show p.length + 1 + N = p.length + N + 1 by omega] at hm
    have hpos : 0 < p.length + N + 1 := by omega
    have hcomp : ∀ m ∈ k :: p, Component m := fun m hmem => (hp m hmem).1
    have hk := hp k List.mem_cons_self
    have hqS : q ∈ S := (h.paths q).mp (by rw [hq]; rfl)
    have hDq : D q = none := hD q (List.prefix_append _ _)
    obtain ⟨h1, h2⟩ := nextComp_joinPath hcomp
    have hlast := dropWhile_joinPath_eq_nil_iff hcomp
    have hnil : joinPath (k :: p) ≠ [] := fun he => by
      have := length_le_joinPath hcomp
      rw [he] at this
      simp at this
    have hlen : ¬ nameMax ≤ k.length := not_le.mpr hk.2
    have hat := Sb.at_concat hq k
    have hsplit : q ++ k :: p = q ++ [k] ++ p := by simp
    rw [attachLoop, ht]
    dsimp only
    rw [if_neg hnil, h1, if_neg hlen]
    by_cases hpe : p = []
    · -- the last component is not there yet
      subst hpe
      have hnone : childFind sb.tree cur k = none := by
        rw [← hat, ← Option.not_isSome_iff_eq_none, h.paths]
        exact hnew
      obtain ⟨hadd, -⟩ := h.add (some d) hq hDq hnew (hm.free 0 hpos) (hm.bound 0 hpos) hk
      rw [hnone]
      dsimp only
      rw [if_pos (hlast.mpr rfl), decide_eq_false (not_not.mpr (hlast.mpr rfl)),
        h.attachLast_new hq hDq hnew (hm.free 0 hpos) (hm.bound 0 hpos) hk, ← h.union_prefixes hqS]
      exact ⟨rfl, hadd, Fresh.mono (hm.tail (newChild_live _ _ _ _ _)) (Nat.le_add_left _ _)⟩
    · rw [hsplit] at hD hnew ⊢
      have hp' : ∀ j ∈ p, NameOk j := fun j hj => hp j (List.mem_cons_of_mem _ hj)
      have hrest : ¬ (joinPath (k :: p)).dropWhile (· ≠ slash) = [] := fun he => hpe (hlast.mp he)
      have hDk : D (q ++ [k]) = none := hD _ (List.prefix_append _ _)
      cases hc : childFind sb.tree cur k with
      | some child =>
        have hchild := hat.trans hc
        have hdir : ¬ (sb.tree.node child).isDir = false := by
          rw [h.dir _ child hchild, hDk]
          simp
        dsimp only
        rw [if_neg hrest, if_neg hdir]
        exact ih h hchild (hm.mono (by omega)) hp' hpe hD hnew h2 (by simpa using hf)
      | none =>
        have hk' : q ++ [k] ∉ S := by
          rw [← h.paths, hat, hc]
          simp
        obtain ⟨hadd, hat'⟩ := h.add none hq hDq hk' (hm.free 0 hpos) (hm.bound 0 hpos) hk
        rw [← hDk, Function.update_eq_self, hDk] at hadd
        dsimp only
        rw [if_neg hrest, decide_eq_true hrest, ← union_prefixes_insert]
        refine ih hadd ((hat' _).trans (if_pos rfl)) (hm.tail (newChild_live _ _ _ _ _)) hp' hpe hD
          ?_ h2 (by simpa using hf)
        rw [Set.mem_insert_iff, not_or]
        exact ⟨by simpa using hpe, hnew⟩

/-- **`devfs_attach_locked`** adds the paths up to the name of the device. -/
theorem Holds.attach (h : Holds sb S D) (hm : Fresh sb mem (p.length + N)) (hp : ∀ k ∈ p, NameOk k)
    (hD : ∀ r, r <+: p → D r = none) (hnew : p ∉ S) :
    (devfsAttach (joinPath p) d mem sb).1.1 = vfsOk ∧
      Holds (devfsAttach (joinPath p) d mem sb).1.2 (S ∪ {r | r <+: p}) (Function.update D p (some d)) ∧
      Fresh (devfsAttach (joinPath p) d mem sb).1.2 (devfsAttach (joinPath p) d mem sb).2 N := by
  have hne : p ≠ [] := fun he => hnew (he ▸ h.nil_mem)
  have hcomp : ∀ m ∈ p, Component m := fun m hmem => (hp m hmem).1
  have hlen := length_le_joinPath hcomp
  have hnil : joinPath p ≠ [] := fun he => by
    rw [he, List.length_nil, Nat.le_zero, List.length_eq_zero_iff] at hlen
    exact hne hlen
  rw [devfsAttach, if_neg hnil]
  exact h.attachLoop (q := []) sb.at_nil hm hp hne hD hnew (dropWhile_joinPath hcomp)
    (Nat.lt_succ_of_le hlen)

/-! ## Detaching -/

/-- A walk goes through directories only. -/
theorem walk_of_follow {s : Ramfs.State} (hs : Shape s) (hcur : s.live cur = true)
    (hp : follow (childFind s) cur p = some n) : walk s cur p = .ok n := by
  induction p generalizing cur with
  | nil => exact congrArg Except.ok (Option.some.inj hp)
  | cons k p ih =>
    obtain ⟨c, hc, hrest⟩ := Option.bind_eq_some_iff.mp hp
    have hdir : ¬ (s.node cur).isDir = false := fun hd => by
      rw [hs.childFind_of_child_none hcur (hs.file cur hcur hd)] at hc
      exact absurd hc (by simp)
    rw [walk, if_neg hdir, hc]
    exact ih (hs.childFind_kid hcur hc).1 hrest

/-- **`devfs_find_locked`** finds the node that the path leads to. -/
theorem Holds.find (h : Holds sb S D) (hp : ∀ k ∈ p, NameOk k) (hat : sb.at p = some n) :
    devfsFind sb (joinPath p) = some n := by
  rw [devfsFind, lookup_joinPath fun k hk => (hp k hk).1, walk_of_follow h.shape h.shape.root_live hat]
  rfl

/-- The paths to the devices, and those on the way. -/
def under (D : List Str → Option Vdev.Addr) : Set (List Str) :=
  {r | r = [] ∨ ∃ p, (D p).isSome ∧ r <+: p}

theorem under_down (hp : p ∈ under D) (hr : r <+: p) : r ∈ under D := by
  rcases hp with rfl | ⟨p', hD, hp'⟩
  · exact .inl (List.prefix_nil.mp hr)
  · exact .inr ⟨p', hD, hr.trans hp'⟩

theorem mem_under_of_isSome (hp : (D p).isSome) : p ∈ under D := .inr ⟨p, hp, List.prefix_refl _⟩

/-- Nothing refers to the nodes on the way to `p` that lead to no device of
`D`. -/
def Free (sb : Sb) (D : List Str → Option Vdev.Addr) (p : List Str) : Prop :=
  ∀ r, r <+: p → r ∉ under D → ∀ n, sb.at r = some n → (sb.tree.node n).refs = 0

/-- A directory on the way to a device has a child, unless it is the node of
one. -/
theorem under_kept (hp : p ∈ under D) (hne : p ≠ []) :
    (∃ k, p ++ [k] ∈ under D) ∨ (D p).isSome := by
  obtain ⟨p', hD, t, rfl⟩ := hp.resolve_left hne
  cases t with
  | nil =>
    rw [List.append_nil] at hD
    exact .inr hD
  | cons k t => exact .inl ⟨k, under_down (mem_under_of_isSome hD) ⟨t, by simp⟩⟩

/-- What keeps the directory at `r`, where the paths `S` stay. -/
def Stays (sb : Sb) (S : Set (List Str)) (D : List Str → Option Vdev.Addr) (r : List Str) : Prop :=
  (∃ k, r ++ [k] ∈ S) ∨ (D r).isSome ∨ ∃ n, sb.at r = some n ∧ (sb.tree.node n).refs ≠ 0

/-- **The loop of `devfs_detach_locked`** takes away the directories past those
of `S`, up to one that stays. -/
theorem Holds.prune (h : Holds sb (S ∪ {r | r <+: q}) D) (hdown : ∀ p r, p ∈ S → r <+: p → r ∈ S)
    (hnil : [] ∈ S) (hkeep : ∀ r, r <+: q → r ∈ S → r ≠ [] → Stays sb S D r)
    (hfree : ∀ r, r <+: q → r ∉ S → D r = none ∧ ∀ n, sb.at r = some n → (sb.tree.node n).refs = 0)
    (hf : q.length < fuel) :
    Holds (pruneLoop fuel (sb.at q) sb) S D ∧ KeptOn S sb (pruneLoop fuel (sb.at q) sb) := by
  induction q using List.reverseRecOn generalizing sb fuel with
  | nil =>
    obtain ⟨fuel, rfl⟩ : ∃ j, fuel = j + 1 := ⟨fuel - 1, by simp at hf; omega⟩
    have hS : S ∪ {r | r <+: []} = S :=
      Set.union_eq_left.mpr fun r hr => (List.prefix_nil.mp hr : r = []) ▸ hnil
    rw [hS] at h
    rw [Sb.at_nil, Devfs.pruneLoop, if_neg fun hc => hc.1 rfl]
    exact ⟨h, .refl _ _⟩
  | append_singleton q k ih =>
    obtain ⟨fuel, rfl⟩ : ∃ j, fuel = j + 1 := ⟨fuel - 1, by simp at hf; omega⟩
    obtain ⟨dir, hdir⟩ := Option.isSome_iff_exists.mp
      ((h.paths (q ++ [k])).mpr (.inr (List.prefix_refl _)))
    have hne : q ++ [k] ≠ [] := by simp
    rw [hdir, Devfs.pruneLoop]
    by_cases hq : q ++ [k] ∈ S
    · -- a directory that stays ends the loop
      have hS : S ∪ {r | r <+: q ++ [k]} = S := Set.union_eq_left.mpr fun r hr => hdown _ r hq hr
      have hstays := hkeep _ (List.prefix_refl _) hq hne
      rw [hS] at h
      rw [if_neg]
      · exact ⟨h, .refl _ _⟩
      rintro ⟨-, hchild, hdev, hrefs⟩
      rcases hstays with ⟨j, hj⟩ | hd | ⟨n, hn, hr⟩
      · rw [← h.paths, Sb.at_concat hdir, h.shape.childFind_of_child_none (h.live hdir) hchild] at hj
        exact absurd hj (by simp)
      · rw [← h.dev _ _ hdir, hdev] at hd
        exact absurd hd (by simp)
      · obtain rfl := Option.some.inj (hdir.symm.trans hn)
        exact hr hrefs
    · -- nothing else is below the directory
      have hend : ∀ j, q ++ [k] ++ [j] ∉ S ∪ {r | r <+: q ++ [k]} := by
        rintro j (hj | hj)
        · exact hq (hdown _ _ hj (List.prefix_append _ _))
        · have := hj.length_le
          simp at this
      obtain ⟨hDq, hrefs⟩ := hfree _ (List.prefix_refl _) hq
      have hroot : dir ≠ sb.tree.root := fun he => hne (h.at_inj (he ▸ hdir) sb.at_nil)
      obtain ⟨hrem, hat, hother, -, hparent⟩ := h.remove hdir hend
      have hkept := h.remove_kept hdir hend
      have hS : (S ∪ {r | r <+: q ++ [k]}) \ {q ++ [k]} = S ∪ {r | r <+: q} := by
        ext r
        simp only [Set.mem_sdiff, Set.mem_union, Set.mem_ofPred_eq, List.prefix_concat_iff,
          Set.mem_singleton_iff]
        constructor
        · rintro ⟨hr | hr | hr, hrq⟩
          · exact .inl hr
          · exact absurd hr hrq
          · exact .inr hr
        · rintro (hr | hr)
          · exact ⟨.inl hr, fun he => hq (he ▸ hr)⟩
          · refine ⟨.inr (.inr hr), fun he => ?_⟩
            have := (he ▸ hr).length_le
            simp at this
      rw [hS] at hkept
      rw [hS, ← hDq, Function.update_eq_self] at hrem
      have hqk : q ≠ q ++ [k] := by simp
      have hrk : ∀ r, r <+: q → r ≠ q ++ [k] := fun r hr he => by
        have := (he ▸ hr).length_le
        simp at this
      have hsame : ∀ r, r <+: q → ∀ x, (freeNode sb dir).at r = some x → sb.at r = some x ∧
          ((freeNode sb dir).tree.node x).refs = (sb.tree.node x).refs := fun r hr x hx => by
        rw [hat r (hrk r hr)] at hx
        exact ⟨hx, hother x fun he => hrk r hr (h.at_inj (he ▸ hx) hdir)⟩
      rw [if_pos ⟨hroot, h.child_none hdir hend, (h.dev _ _ hdir).trans hDq, hrefs _ hdir⟩, hparent,
        ← hat q hqk]
      have hkeep' : ∀ r, r <+: q → r ∈ S → r ≠ [] → Stays (freeNode sb dir) S D r := by
        intro r hr hrS hrn
        rcases hkeep r (hr.trans (List.prefix_append _ _)) hrS hrn with hc | hd | ⟨n, hn, hrf⟩
        · exact .inl hc
        · exact .inr (.inl hd)
        · have hn' := (hat r (hrk r hr)).trans hn
          exact .inr (.inr ⟨n, hn', (hsame r hr n hn').2 ▸ hrf⟩)
      have hfree' : ∀ r, r <+: q → r ∉ S → D r = none ∧
          ∀ n, (freeNode sb dir).at r = some n → ((freeNode sb dir).tree.node n).refs = 0 := by
        intro r hr hrS
        obtain ⟨hDr, hrf⟩ := hfree r (hr.trans (List.prefix_append _ _)) hrS
        refine ⟨hDr, fun n hn => ?_⟩
        obtain ⟨hn', he⟩ := hsame r hr n hn
        rw [he]
        exact hrf n hn'
      obtain ⟨hh, hk⟩ := ih hrem hkeep' hfree' (by simpa using hf : q.length < fuel)
      exact ⟨hh, (hkept.mono Set.subset_union_left).trans hk⟩

/-- The loop takes away the directories that lead to no device. -/
theorem Holds.pruneLoop (h : Holds sb (under D ∪ {r | r <+: q}) D) (hfree : Free sb D q)
    (hf : q.length < fuel) : Holds (pruneLoop fuel (sb.at q) sb) (under D) D := by
  refine (h.prune (fun _ _ hp hr => under_down hp hr) (.inl rfl) (fun r _ hr hne => ?_)
    (fun r hr hrD => ⟨?_, hfree r hr hrD⟩) hf).1
  · exact (under_kept hr hne).imp_right .inl
  · exact Option.not_isSome_iff_eq_none.mp fun hs => hrD (mem_under_of_isSome hs)

/-- **`devfs_detach_locked`** takes away the paths that lead to no other
device, if nothing refers to their nodes. -/
theorem Holds.detach (h : Holds sb (under D) D) (hp : ∀ k ∈ p, NameOk k) (hne : p ≠ [])
    (hd : D p = some d) (hend : ∀ q, (D q).isSome → p <+: q → q = p)
    (hfree : Free sb (Function.update D p none) p) :
    Holds (devfsDetach (joinPath p) d sb).2 (under (Function.update D p none))
      (Function.update D p none) := by
  obtain ⟨q, leaf, rfl⟩ := List.eq_nil_or_concat' p |>.resolve_left hne
  have hsome : (D (q ++ [leaf])).isSome := by rw [hd]; rfl
  obtain ⟨n, hn⟩ := Option.isSome_iff_exists.mp ((h.paths _).mpr (mem_under_of_isSome hsome))
  have hgone : q ++ [leaf] ∉ under (Function.update D (q ++ [leaf]) none) := by
    rintro (he | ⟨p', hD', hp'⟩)
    · exact absurd he (by simp)
    · by_cases he : p' = q ++ [leaf]
      · rw [he, Function.update_self] at hD'
        exact absurd hD' (by simp)
      · rw [Function.update_of_ne he] at hD'
        exact he (hend p' hD' hp')
  have hbelow : ∀ j, q ++ [leaf] ++ [j] ∉ under D := by
    rintro j (he | ⟨p', hD', hp'⟩)
    · exact absurd he (by simp)
    · have hlen := hp'.length_le
      rw [hend p' hD' ((List.prefix_append _ _).trans hp')] at hlen
      simp at hlen
  obtain ⟨hrem, hat, hrefs, -, hparent⟩ := h.remove hn hbelow
  have hS : under D \ {q ++ [leaf]} = under (Function.update D (q ++ [leaf]) none) ∪ {r | r <+: q} := by
    ext r
    simp only [Set.mem_sdiff, Set.mem_union, Set.mem_ofPred_eq, Set.mem_singleton_iff]
    constructor
    · rintro ⟨he | ⟨p', hD', hp'⟩, hr⟩
      · exact .inl (.inl he)
      · by_cases he : p' = q ++ [leaf]
        · exact .inr ((List.prefix_concat_iff.mp (he ▸ hp')).resolve_left hr)
        · refine .inl (.inr ⟨p', ?_, hp'⟩)
          rwa [Function.update_of_ne he]
    · rintro (hr | hr)
      · refine ⟨?_, fun he => hgone (he ▸ hr)⟩
        rcases hr with he | ⟨p', hD', hp'⟩
        · exact .inl he
        · refine .inr ⟨p', ?_, hp'⟩
          by_cases he : p' = q ++ [leaf]
          · rw [he]
            exact hsome
          · rwa [Function.update_of_ne he] at hD'
      · refine ⟨.inr ⟨_, hsome, hr.trans (List.prefix_append _ _)⟩, fun he => ?_⟩
        have hlen := (he ▸ hr).length_le
        simp at hlen
  rw [hS] at hrem
  have hq : q ≠ q ++ [leaf] := by simp
  have hlen := length_le_joinPath fun k hk => (hp k hk).1
  rw [List.length_append, List.length_singleton] at hlen
  unfold devfsDetach
  rw [h.find hp hn]
  dsimp only
  rw [if_neg (not_not.mpr ((h.dev _ n hn).trans hd)),
    if_neg (not_not.mpr (hfree _ (List.prefix_refl _) hgone n hn)), hparent, ← hat q hq]
  refine hrem.pruneLoop (fun r hr hrD x hx => ?_) (by omega)
  have hrk : r ≠ q ++ [leaf] := fun he => by
    have hlen := (he ▸ hr).length_le
    simp at hlen
  rw [hat r hrk] at hx
  rw [hrefs x fun he => hrk (h.at_inj (he ▸ hx) hn)]
  exact hfree r (hr.trans (List.prefix_append _ _)) hrD x hx

/-- A device whose node is referred to stays. -/
theorem Holds.detach_busy (h : Holds sb S D) (hp : ∀ k ∈ p, NameOk k) (hat : sb.at p = some n)
    (hrefs : (sb.tree.node n).refs ≠ 0) : (devfsDetach (joinPath p) d sb).2 = sb := by
  unfold devfsDetach
  rw [h.find hp hat]
  dsimp only
  by_cases hd : sb.dev n ≠ some d
  · rw [if_pos hd]
  · rw [if_neg hd, if_pos hrefs]

/-- **`devfs_attach_locked`** for a device whose name is no prefix of another's
and has none as a prefix. -/
theorem Holds.attach_under (h : Holds sb (under D) D) (hm : Fresh sb mem (p.length + N)) (hp : ∀ k ∈ p, NameOk k)
    (hne : p ≠ []) (hD : ∀ r, r <+: p → D r = none) (hend : ∀ q, (D q).isSome → ¬ p <+: q) :
    Holds (devfsAttach (joinPath p) d mem sb).1.2 (under (Function.update D p (some d)))
        (Function.update D p (some d)) ∧
      Fresh (devfsAttach (joinPath p) d mem sb).1.2 (devfsAttach (joinPath p) d mem sb).2 N := by
  have hnew : p ∉ under D := by
    rintro (he | ⟨q, hq, hpq⟩)
    · exact hne he
    · exact hend q hq hpq
  have hS : under D ∪ {r | r <+: p} = under (Function.update D p (some d)) := by
    ext r
    constructor
    · rintro ((he | ⟨q, hq, hr⟩) | hr)
      · exact .inl he
      · refine .inr ⟨q, ?_, hr⟩
        rwa [Function.update_of_ne]
        rintro rfl
        exact hend q hq (List.prefix_refl _)
      · exact .inr ⟨p, by rw [Function.update_self]; rfl, hr⟩
    · rintro (he | ⟨q, hq, hr⟩)
      · exact .inl (.inl he)
      · by_cases hqp : q = p
        · exact .inr (hqp ▸ hr)
        · rw [Function.update_of_ne hqp] at hq
          exact .inl (.inr ⟨q, hq, hr⟩)
  obtain ⟨-, hholds, hfresh⟩ := h.attach (d := d) hm hp hD hnew
  rw [hS] at hholds
  exact ⟨hholds, hfresh⟩

end Devfs

end Csos

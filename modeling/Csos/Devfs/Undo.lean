import Csos.Devfs.Attach
/-!
# The device file system — what an attach leaves

`devfs_attach_locked` that fails keeps the directories it has made
(`attach_exact_iff`): that is the one way it goes wrong. Where it succeeds, it
adds the directories that were missing and a node for the device, and
`devfs_detach_locked` takes them away again, up to a directory that was there
before and is kept by something else.
-/

namespace Csos

namespace Devfs

open Vfs Ramfs

variable {sb sb' sb'' : Sb} {S T : Set (List Str)} {D : List Str → Option Vdev.Addr}
  {p q r ks : List Str} {n c cur dir : Ramfs.Addr} {k leaf name : Str} {d : Vdev.Addr}
  {mem : ℕ → Option Ramfs.Addr} {fuel : ℕ} {trailing : Bool}

/-! ## The same tree -/

/-- **The nodes and their links are the same.** -/
structure SameTree (sb sb' : Sb) : Prop where
  root : sb'.tree.root = sb.tree.root
  live : sb'.tree.live = sb.tree.live
  info : ∀ n, sb.tree.live n = true → SameInfo (sb.tree.node n) (sb'.tree.node n)
  dev : ∀ n, sb.tree.live n = true → sb'.dev n = sb.dev n
  kids : ∀ n l, sb.tree.live n = true → (Children sb.tree n l ↔ Children sb'.tree n l)

theorem SameTree.refl (sb : Sb) : SameTree sb sb :=
  ⟨rfl, rfl, fun _ _ => SameInfo.refl _, fun _ _ => rfl, fun _ _ _ => Iff.rfl⟩

/-- Two lists of children with the same members are the same list. -/
theorem children_ext {s s' : Ramfs.State} {l l' : List Ramfs.Addr} (hl : Children s n l)
    (hl' : Children s' n l') (hmem : ∀ c, c ∈ l ↔ c ∈ l')
    (hname : ∀ c ∈ l, (s'.node c).name = (s.node c).name) : l = l' := by
  have hperm : l.Perm l' :=
    (List.perm_ext_iff_of_nodup hl.linked.nodup hl'.linked.nodup).mpr hmem
  have hsort : l.Pairwise fun x y => (s'.node x).name < (s'.node y).name :=
    hl.sorted.imp_of_mem fun {x y} hx hy hxy => by rwa [hname x hx, hname y hy]
  exact hperm.eq_of_pairwise (fun a b _ _ hab hba => absurd hab (lt_asymm hba)) hsort hl'.sorted

/-- **Where the paths are the same and their nodes kept**, the tree is the same. -/
theorem KeptOn.sameTree (h : Holds sb S D) (h' : Holds sb' S D) (hk : KeptOn S sb sb') :
    SameTree sb sb' := by
  have hpath : ∀ n, sb.tree.live n = true → ∃ p ∈ S, sb.at p = some n := fun n hn => by
    obtain ⟨p, hp⟩ := h.reach n hn
    exact ⟨p, (h.paths p).mp (by rw [hp]; rfl), hp⟩
  have hlive : ∀ n, sb'.tree.live n = true ↔ sb.tree.live n = true := fun n => by
    constructor
    · intro hn
      obtain ⟨p, hp⟩ := h'.reach n hn
      have hpS := (h'.paths p).mp (by rw [hp]; rfl)
      exact h.live ((hk.at_eq p hpS).symm.trans hp)
    · intro hn
      obtain ⟨p, hpS, hp⟩ := hpath n hn
      exact h'.live ((hk.at_eq p hpS).trans hp)
  have hinfo : ∀ n, sb.tree.live n = true → SameInfo (sb.tree.node n) (sb'.tree.node n) :=
    fun n hn => by
      obtain ⟨p, hpS, hp⟩ := hpath n hn
      exact hk.info p hpS n hp
  have hall : ∀ p, sb'.at p = sb.at p := fun p => by
    by_cases hp : p ∈ S
    · exact hk.at_eq p hp
    · rw [Option.not_isSome_iff_eq_none.mp fun hs => hp ((h'.paths p).mp hs),
        Option.not_isSome_iff_eq_none.mp fun hs => hp ((h.paths p).mp hs)]
  -- a node has the same children by name, and its list is in the order of the names
  have hlist : ∀ n, sb.tree.live n = true → ∃ l, Children sb.tree n l ∧ Children sb'.tree n l :=
    fun n hn => by
      obtain ⟨l, hl⟩ := h.shape.children n hn
      obtain ⟨l', hl'⟩ := h'.shape.children n ((hlive n).mpr hn)
      obtain ⟨p, hpS, hp⟩ := hpath n hn
      have hfind : ∀ m, childFind sb'.tree n m = childFind sb.tree n m := fun m => by
        rw [← Sb.at_concat ((hk.at_eq p hpS).trans hp), ← Sb.at_concat hp, hall]
      have hname : ∀ c, sb.tree.live c = true → (sb'.tree.node c).name = (sb.tree.node c).name :=
        fun c hc => (hinfo c hc).name
      have hmem : ∀ c, c ∈ l ↔ c ∈ l' := fun c => by
        constructor
        · intro hc
          have h1 := (hl.childFind_iff h.shape).mpr ⟨hc, rfl⟩
          exact ((hl'.childFind_iff h'.shape).mp ((hfind _).trans h1)).1
        · intro hc
          have h1 := (hl'.childFind_iff h'.shape).mpr ⟨hc, rfl⟩
          exact ((hl.childFind_iff h.shape).mp ((hfind _).symm.trans h1)).1
      obtain rfl := children_ext hl hl' hmem fun c hc => hname c (hl.kid c hc).1
      exact ⟨l, hl, hl'⟩
  refine ⟨hk.root, funext fun n => Bool.eq_iff_iff.mpr (hlive n), hinfo, fun n hn => ?_, fun n l hn => ?_⟩
  · obtain ⟨p, hpS, hp⟩ := hpath n hn
    exact hk.dev p hpS n hp
  · obtain ⟨l₀, h₁, h₂⟩ := hlist n hn
    exact ⟨fun hl => hl.unique h₁ ▸ h₂, fun hl => hl.unique h₂ ▸ h₁⟩

/-! ## What an attach adds -/

/-- **What a successful attach adds**: the directories up to `p` that were
missing, and the node of the device at `p`. -/
structure Attached (sb sb' : Sb) (S : Set (List Str)) (D : List Str → Option Vdev.Addr)
    (p : List Str) (d : Vdev.Addr) : Prop where
  missing : p ∉ S
  holds : Holds sb' (S ∪ {r | r <+: p}) (Function.update D p (some d))
  kept : KeptOn S sb sb'
  idle : ∀ r, r ∉ S → ∀ n, sb'.at r = some n → (sb'.tree.node n).refs = 0

/-- What `kmalloc` gives: blocks that are not in use, and each once. -/
structure Mallocs (sb : Sb) (mem : ℕ → Option Ramfs.Addr) : Prop where
  free : ∀ i n, mem i = some n → sb.tree.live n = false
  bound : ∀ i n, mem i = some n → n < heapEnd
  inj : ∀ i j n, mem i = some n → mem j = some n → i = j

theorem Mallocs.tail (hm : Mallocs sb mem) (hc : mem 0 = some c)
    (hlive : sb'.tree.live = Function.update sb.tree.live c true) :
    Mallocs sb' fun i => mem (i + 1) := by
  refine ⟨fun i n hn => ?_, fun i n hn => hm.bound _ n hn, fun i j n hi hj => ?_⟩
  · have hne : n ≠ c := fun he => absurd (hm.inj (i + 1) 0 n hn (he ▸ hc)) (by omega)
    rw [hlive, Function.update_of_ne hne]
    exact hm.free _ n hn
  · have := hm.inj _ _ n hi hj
    omega

theorem attachLast_live (sb : Sb) (d : Vdev.Addr) (c : Ramfs.Addr) :
    (attachLast sb d c).2.tree = sb.tree := by
  rw [attachLast]
  split <;> rfl

/-- No node is freed. -/
theorem attachWalk_live (hn : sb.tree.live n = true) :
    (attachWalk d trailing ks cur mem sb).2.tree.live n = true := by
  induction ks generalizing cur mem sb with
  | nil => exact hn
  | cons k ks ih =>
    rw [attachWalk]
    cases childFind sb.tree cur k with
    | some child =>
      dsimp only
      split
      · rwa [attachLast_live]
      split
      · exact hn
      · exact ih hn
    | none =>
      cases mem 0 with
      | none => exact hn
      | some c =>
        dsimp only
        have hnew : (newChild sb cur c k (¬ (ks = [] ∧ trailing = false))).tree.live n = true := by
          rw [newChild_live]
          by_cases hc : n = c
          · rw [hc, Function.update_self]
          · rwa [Function.update_of_ne hc]
        split
        · rwa [attachLast_live]
        · exact ih hnew

/-- One more directory on the way. -/
theorem Attached.cons (hkept : KeptOn S sb sb')
    (hat : sb'.at (q ++ [k]) = some c) (hrefs : (sb'.tree.node c).refs = 0)
    (h : Attached sb' sb'' (insert (q ++ [k]) S) D (q ++ [k] ++ ks) d) :
    Attached sb sb'' S D (q ++ k :: ks) d := by
  have hsplit : q ++ k :: ks = q ++ [k] ++ ks := by simp
  have hsub : S ⊆ insert (q ++ [k]) S := Set.subset_insert _ _
  rw [hsplit]
  refine ⟨fun hS => h.missing (hsub hS), ?_, hkept.trans (h.kept.mono hsub), fun r hr n hn => ?_⟩
  · rw [← union_prefixes_insert]
    exact h.holds
  · by_cases he : r = q ++ [k]
    · have hmem : r ∈ insert (q ++ [k]) S := .inl he
      have hc : sb'.at r = some n := (h.kept.at_eq r hmem).symm.trans hn
      obtain rfl : c = n := Option.some.inj (hat.symm.trans (he ▸ hc))
      rw [(h.kept.info r hmem c hc).refs, hrefs]
    · exact h.idle r (fun hm => hm.elim he hr) n hn

/-- **The loop past the last directory that is there.** It succeeds if it finds
a last component and memory for all; else it leaves what it has made. -/
theorem Holds.attachWalk_new (trailing : Bool) (d : Vdev.Addr) (h : Holds sb S D)
    (hq : sb.at q = some cur) (hD : D q = none) (hnew : q ++ [k] ∉ S)
    (hp : ∀ m ∈ k :: ks, NameOk m) (hm : Mallocs sb mem) :
    (trailing = false ∧ (∀ i ≤ ks.length, mem i ≠ none) →
      (attachWalk d trailing (k :: ks) cur mem sb).1 = vfsOk ∧
        Attached sb (attachWalk d trailing (k :: ks) cur mem sb).2 S D (q ++ k :: ks) d) ∧
    (¬ (trailing = false ∧ ∀ i ≤ ks.length, mem i ≠ none) →
      (attachWalk d trailing (k :: ks) cur mem sb).1 ≠ vfsOk ∧
        (mem 0 = none → (attachWalk d trailing (k :: ks) cur mem sb).2 = sb) ∧
        ∀ c, mem 0 = some c → (attachWalk d trailing (k :: ks) cur mem sb).2.tree.live c = true) := by
  induction ks generalizing sb S q cur mem k with
  | nil =>
    have hk := hp k List.mem_cons_self
    have hnone : childFind sb.tree cur k = none := by
      rw [← Sb.at_concat hq, ← Option.not_isSome_iff_eq_none, h.paths]
      exact hnew
    rw [attachWalk, hnone]
    cases hm0 : mem 0 with
    | none =>
      refine ⟨fun hall => absurd hm0 (hall.2 0 (Nat.zero_le _)), fun _ => ⟨?_, ?_, ?_⟩⟩
      · exact (by decide : errNomem ≠ vfsOk)
      · exact fun _ => rfl
      · exact fun c hc => absurd hc (by simp)
    | some c =>
      have hfree := hm.free 0 c hm0
      have hbound := hm.bound 0 c hm0
      cases trailing with
      | false =>
        obtain ⟨hadd, hat⟩ := h.add (some d) hq hD hnew hfree hbound hk
        obtain ⟨hkept, hrefs⟩ := h.add_kept (some d) hq hD hnew hfree hbound hk
        have hlast := h.attachLast_new (d := d) hq hD hnew hfree hbound hk
        have hqS : q ∈ S := (h.paths q).mp (by rw [hq]; rfl)
        dsimp only
        rw [if_pos ⟨rfl, rfl⟩, decide_eq_false (by simp), hlast]
        rw [h.union_prefixes hqS] at hadd
        refine ⟨fun _ => ⟨rfl, hnew, hadd, hkept, fun r hr n hn => ?_⟩, fun hnot => absurd ⟨rfl, ?_⟩ hnot⟩
        · by_cases he : r = q ++ [k]
          · obtain rfl := Option.some.inj ((if_pos he).symm.trans ((hat r).symm.trans hn))
            exact hrefs
          · have hold := (if_neg he).symm.trans ((hat r).symm.trans hn)
            exact absurd ((h.paths r).mp (by rw [hold]; rfl)) hr
        · intro i hi
          rw [Nat.le_zero.mp hi, hm0]
          simp
      | true =>
        refine ⟨fun hall => absurd hall.1 (by simp), fun _ => ⟨?_, ?_, ?_⟩⟩
        · exact (by decide : errInval ≠ vfsOk)
        · exact fun hc => absurd hc (by simp)
        · rintro c' ⟨⟩
          change (newChild sb cur c k _).tree.live c = true
          rw [newChild_live, Function.update_self]
  | cons k' ks ih =>
    have hk := hp k List.mem_cons_self
    have hnone : childFind sb.tree cur k = none := by
      rw [← Sb.at_concat hq, ← Option.not_isSome_iff_eq_none, h.paths]
      exact hnew
    rw [attachWalk, hnone]
    cases hm0 : mem 0 with
    | none =>
      refine ⟨fun hall => absurd hm0 (hall.2 0 (Nat.zero_le _)), fun _ => ⟨?_, ?_, ?_⟩⟩
      · exact (by decide : errNomem ≠ vfsOk)
      · exact fun _ => rfl
      · exact fun c hc => absurd hc (by simp)
    | some c =>
      have hfree := hm.free 0 c hm0
      have hbound := hm.bound 0 c hm0
      have hDk : D (q ++ [k]) = none :=
        Option.not_isSome_iff_eq_none.mp fun hs => hnew (h.support _ hs)
      obtain ⟨hadd, hat⟩ := h.add none hq hD hnew hfree hbound hk
      obtain ⟨hkept, hrefs⟩ := h.add_kept none hq hD hnew hfree hbound hk
      rw [← hDk, Function.update_eq_self, hDk] at hadd
      have hc : (newChild sb cur c k true).at (q ++ [k]) = some c := (hat _).trans (if_pos rfl)
      have hbelow : q ++ [k] ++ [k'] ∉ insert (q ++ [k]) S := by
        rintro (he | hS)
        · exact absurd (congrArg List.length he) (by simp)
        · exact hnew (h.prefix_mem hS (List.prefix_append _ _))
      have hm' := hm.tail hm0 (newChild_live sb cur c k true)
      obtain ⟨hok, hfail⟩ := @ih (newChild sb cur c k true) _ _ _ _ _ hadd hc hDk hbelow
        (fun m hmem => hp m (List.mem_cons_of_mem _ hmem)) hm'
      have hcond : (∀ i ≤ (k' :: ks).length, mem i ≠ none) ↔ ∀ i ≤ ks.length, mem (i + 1) ≠ none := by
        constructor
        · exact fun hall i hi => hall (i + 1) (by simpa using hi)
        · rintro hall (_ | i) hi
          · rw [hm0]
            simp
          · exact hall i (by simpa using hi)
      dsimp only
      rw [if_neg (by simp), decide_eq_true (by simp), hcond]
      refine ⟨fun hall => ?_, fun hnot => ?_⟩
      · obtain ⟨h1, h2⟩ := hok hall
        exact ⟨h1, Attached.cons hkept hc hrefs h2⟩
      · refine ⟨(hfail hnot).1, fun he => absurd he (by simp), ?_⟩
        rintro c' ⟨⟩
        refine attachWalk_live ?_
        rw [newChild_live, Function.update_self]

/-! ## The whole call -/

/-- The number of nodes that an attach at `cur` makes: the components from the
first that is missing. -/
def toMake (sb : Sb) : List Str → Ramfs.Addr → ℕ
  | [], _ => 0
  | k :: ks, cur =>
    match childFind sb.tree cur k with
    | some c => if (sb.tree.node c).isDir = false then 0 else toMake sb ks c
    | none => ks.length + 1

/-- **The directories that are there** are passed through. Either the walk ends
there, or it comes to a component that is missing. -/
theorem Holds.attachWalk_old (h : Holds sb S D) (hq : sb.at q = some cur) (d : Vdev.Addr)
    (trailing : Bool) (hD : D q = none) (ks : List Str) :
    (toMake sb ks cur = 0 ∧ ∃ e, e ≠ vfsOk ∧ ∀ mem, attachWalk d trailing ks cur mem sb = (e, sb)) ∨
    ∃ pre k ks' dir, ks = pre ++ k :: ks' ∧ sb.at (q ++ pre) = some dir ∧ D (q ++ pre) = none ∧
      q ++ pre ++ [k] ∉ S ∧ toMake sb ks cur = ks'.length + 1 ∧
      ∀ mem, attachWalk d trailing ks cur mem sb = attachWalk d trailing (k :: ks') dir mem sb := by
  induction ks generalizing q cur with
  | nil => exact .inl ⟨rfl, errInval, by decide, fun _ => rfl⟩
  | cons k ks ih =>
    have hat := Sb.at_concat hq k
    rw [toMake]
    cases hc : childFind sb.tree cur k with
    | none =>
      have hnew : q ++ [k] ∉ S := by
        rw [← h.paths, hat, hc]
        simp
      exact .inr ⟨[], k, ks, cur, rfl, by rwa [List.append_nil], by rwa [List.append_nil],
        by rwa [List.append_nil], rfl, fun _ => rfl⟩
    | some c =>
      rw [hc] at hat
      have hdir := h.dir _ c hat
      have hdev := h.dev _ c hat
      dsimp only
      by_cases hd : (sb.tree.node c).isDir = false
      · -- the node of a device ends the walk
        rw [if_pos hd]
        have hsome : (sb.dev c).isSome = true := by
          rw [hd] at hdir
          rw [hdev]
          simpa using hdir.symm
        refine .inl ⟨rfl, ?_⟩
        by_cases hlast : ks = [] ∧ trailing = false
        · refine ⟨errExist, by decide, fun mem => ?_⟩
          rw [attachWalk, hc]
          dsimp only
          rw [if_pos hlast, attachLast, if_pos (.inr hsome)]
        · refine ⟨errNotdir, by decide, fun mem => ?_⟩
          rw [attachWalk, hc]
          dsimp only
          rw [if_neg hlast, if_pos hd]
      · rw [if_neg hd]
        have hDk : D (q ++ [k]) = none := by
          rw [Bool.not_eq_false] at hd
          rw [hd] at hdir
          simpa using hdir.symm
        by_cases hlast : ks = [] ∧ trailing = false
        · refine .inl ⟨by rw [hlast.1]; rfl, errExist, by decide, fun mem => ?_⟩
          rw [attachWalk, hc]
          dsimp only
          rw [if_pos hlast, attachLast, if_pos (.inl (by simpa using hd))]
        · have hstep : ∀ mem, attachWalk d trailing (k :: ks) cur mem sb =
              attachWalk d trailing ks c mem sb := fun mem => by
            rw [attachWalk, hc]
            dsimp only
            rw [if_neg hlast, if_neg hd]
          rcases ih hat hDk with ⟨h0, e, he, hrun⟩ | ⟨pre, j, ks', dir, hks, h1, h2, h3, h4, hrun⟩
          · exact .inl ⟨h0, e, he, fun mem => (hstep mem).trans (hrun mem)⟩
          · refine .inr ⟨k :: pre, j, ks', dir, by rw [hks]; rfl, ?_, ?_, ?_, h4,
              fun mem => (hstep mem).trans (hrun mem)⟩
            · simpa using h1
            · simpa using h2
            · simpa using h3

/-- **The input on which the call leaves directories behind**: it makes the
first node, and then the name ends without a last component or the memory
runs out. -/
def LeavesDirs (sb : Sb) (name : Str) (mem : ℕ → Option Ramfs.Addr) : Prop :=
  0 < toMake sb (comps name) sb.tree.root ∧ mem 0 ≠ none ∧
    (trails name = true ∨ ∃ i < toMake sb (comps name) sb.tree.root, mem i = none)

/-- **What `devfs_attach_locked` should do**: change nothing where it fails; add
the missing directories and one node where it succeeds, which
`devfs_detach_locked` then undoes unless it goes on to a directory that was
empty before. -/
structure AttachExact (name : Str) (d : Vdev.Addr) (mem : ℕ → Option Ramfs.Addr) (sb : Sb)
    (S : Set (List Str)) (D : List Str → Option Vdev.Addr) : Prop where
  failed : (attachLocked name d mem sb).1 ≠ vfsOk → SameTree sb (attachLocked name d mem sb).2
  done : (attachLocked name d mem sb).1 = vfsOk →
    Attached sb (attachLocked name d mem sb).2 S D (comps name) d
  undone : (attachLocked name d mem sb).1 = vfsOk →
    (∀ r, r <+: comps name → r ∈ S → r ≠ [] → Stays sb S D r) →
    (devfsDetach name d (attachLocked name d mem sb).2).1 = vfsOk ∧
      SameTree sb (devfsDetach name d (attachLocked name d mem sb).2).2

/-- **A detach takes away what the attach has added.** -/
theorem Attached.detach (h : Holds sb S D) (ha : Attached sb sb' S D (comps name) d)
    (hkeep : ∀ r, r <+: comps name → r ∈ S → r ≠ [] → Stays sb S D r) :
    (devfsDetach name d sb').1 = vfsOk ∧ SameTree sb (devfsDetach name d sb').2 := by
  have hne : comps name ≠ [] := fun he => ha.missing (he ▸ h.nil_mem)
  have hsize := comps_length_le name
  have hwalk : ∀ n, sb'.at (comps name) = some n → devfsFind sb' name = some n := fun n hn => by
    rw [devfsFind, lookup, lookupLoop_comps _ _ (Nat.lt_succ_self _),
      walk_of_follow ha.holds.shape ha.holds.shape.root_live hn]
    rfl
  obtain ⟨hnew, hholds, hkept, hidle⟩ := ha
  generalize comps name = p at *
  obtain ⟨q, leaf, rfl⟩ := List.eq_nil_or_concat' p |>.resolve_left hne
  have hDp : D (q ++ [leaf]) = none :=
    Option.not_isSome_iff_eq_none.mp fun hs => hnew (h.support _ hs)
  obtain ⟨n, hn⟩ := Option.isSome_iff_exists.mp
    ((hholds.paths (q ++ [leaf])).mpr (.inr (List.prefix_refl _)))
  have hlong : ∀ r, r <+: q → r ≠ q ++ [leaf] := fun r hr he => by
    have := (he ▸ hr).length_le
    simp at this
  have hend : ∀ k, q ++ [leaf] ++ [k] ∉ S ∪ {r | r <+: q ++ [leaf]} := by
    rintro k (hk | hk)
    · exact hnew (h.prefix_mem hk (List.prefix_append _ _))
    · have := hk.length_le
      simp at this
  obtain ⟨hrem, hat, hrefs, -, hparent⟩ := hholds.remove hn hend
  have hremk := hholds.remove_kept hn hend
  have hS : (S ∪ {r | r <+: q ++ [leaf]}) \ {q ++ [leaf]} = S ∪ {r | r <+: q} := by
    ext r
    simp only [Set.mem_sdiff, Set.mem_union, Set.mem_ofPred_eq, List.prefix_concat_iff,
      Set.mem_singleton_iff]
    constructor
    · rintro ⟨hr | hr | hr, hrq⟩
      · exact .inl hr
      · exact absurd hr hrq
      · exact .inr hr
    · rintro (hr | hr)
      · exact ⟨.inl hr, fun he => hnew (he ▸ hr)⟩
      · exact ⟨.inr (.inr hr), hlong r hr⟩
  rw [hS] at hrem hremk
  rw [Function.update_idem, ← hDp, Function.update_eq_self] at hrem
  have hsame : ∀ r, r ≠ q ++ [leaf] → ∀ x, (freeNode sb' n).at r = some x → sb'.at r = some x ∧
      ((freeNode sb' n).tree.node x).refs = (sb'.tree.node x).refs := fun r hr x hx => by
    rw [hat r hr] at hx
    exact ⟨hx, hrefs x fun he => hr (hholds.at_inj (he ▸ hx) hn)⟩
  have hq : q ≠ q ++ [leaf] := hlong q (List.prefix_refl _)
  rw [devfsDetach, hwalk n hn]
  dsimp only
  rw [if_neg (not_not.mpr ((hholds.dev _ n hn).trans (Function.update_self _ _ _))),
    if_neg (not_not.mpr (hidle _ hnew n hn)), hparent, ← hat q hq]
  have hkeep' : ∀ r, r <+: q → r ∈ S → r ≠ [] → Stays (freeNode sb' n) S D r := by
    intro r hr hrS hrn
    rcases hkeep r (hr.trans (List.prefix_append _ _)) hrS hrn with hc | hd | ⟨x, hx, hrf⟩
    · exact .inl hc
    · exact .inr (.inl hd)
    · have hx' := (hkept.at_eq r hrS).trans hx
      have hx'' := (hat r (hlong r hr)).trans hx'
      refine .inr (.inr ⟨x, hx'', ?_⟩)
      rwa [(hsame r (hlong r hr) x hx'').2, (hkept.info r hrS x hx).refs]
  have hfree' : ∀ r, r <+: q → r ∉ S → D r = none ∧
      ∀ x, (freeNode sb' n).at r = some x → ((freeNode sb' n).tree.node x).refs = 0 := by
    intro r hr hrS
    refine ⟨Option.not_isSome_iff_eq_none.mp fun hs => hrS (h.support _ hs), fun x hx => ?_⟩
    obtain ⟨hx', he⟩ := hsame r (hlong r hr) x hx
    rw [he]
    exact hidle r hrS x hx'
  have hfuel : q.length < name.length + 1 := by
    rw [List.length_append, List.length_singleton] at hsize
    omega
  obtain ⟨hh, hk⟩ := hrem.prune (fun p r hp hr => h.prefix_mem hp hr) h.nil_mem hkeep' hfree' hfuel
  refine ⟨rfl, (hkept.trans ((hremk.mono Set.subset_union_left).trans hk)).sameTree h hh⟩

/-- A node that was not there makes the tree another. -/
theorem not_sameTree (hn : sb.tree.live n = false) (hn' : sb'.tree.live n = true) :
    ¬ SameTree sb sb' := fun h => by
  rw [h.live, hn] at hn'
  exact absurd hn' (by simp)

/-- The call on a name, by what it has to make. -/
theorem Holds.attachLocked_cases (h : Holds sb S D) (hlen : name.length < nameMax) (h0 : 0 ∉ name)
    (hm : Mallocs sb mem) (d : Vdev.Addr) :
    (LeavesDirs sb name mem → ∃ n, sb.tree.live n = false ∧
      (attachLocked name d mem sb).1 ≠ vfsOk ∧ (attachLocked name d mem sb).2.tree.live n = true) ∧
    (¬ LeavesDirs sb name mem →
      ((attachLocked name d mem sb).1 ≠ vfsOk ∧ (attachLocked name d mem sb).2 = sb) ∨
      ((attachLocked name d mem sb).1 = vfsOk ∧
        Attached sb (attachLocked name d mem sb).2 S D (comps name) d)) := by
  rw [attachLocked_eq hlen]
  have hroot : sb.at [] = some sb.tree.root := sb.at_nil
  have hDnil : D [] = none := by
    have hd := h.dir [] _ hroot
    rw [h.shape.root_dir] at hd
    simpa using hd.symm
  rcases h.attachWalk_old hroot d (trails name) hDnil (comps name) with
    ⟨hzero, e, he, hrun⟩ | ⟨pre, k, ks, dir, hks, hdir, hDpre, hnew, hmake, hrun⟩
  · rw [hrun]
    refine ⟨fun hl => ?_, fun _ => .inl ⟨he, rfl⟩⟩
    have := hl.1
    omega
  · rw [List.nil_append] at hdir hDpre hnew
    have hok : ∀ m ∈ k :: ks, NameOk m := fun m hmem => by
      refine comps_nameOk hlen h0 ?_
      rw [hks]
      exact List.mem_append_right _ hmem
    obtain ⟨hgood, hbad⟩ := h.attachWalk_new (trails name) d hdir hDpre hnew hok hm
    rw [hrun]
    rw [← hks] at hgood
    have hcond : LeavesDirs sb name mem ↔
        mem 0 ≠ none ∧ ¬ (trails name = false ∧ ∀ i ≤ ks.length, mem i ≠ none) := by
      rw [LeavesDirs, hmake]
      simp only [Nat.lt_succ_iff, not_and, not_forall, Bool.eq_false_iff, ne_eq, not_not]
      constructor
      · rintro ⟨-, hm0, ht | ⟨i, hi, hn⟩⟩
        · exact ⟨hm0, fun hf => absurd ht hf⟩
        · exact ⟨hm0, fun _ => ⟨i, hi, hn⟩⟩
      · rintro ⟨hm0, hn⟩
        refine ⟨Nat.zero_le _, hm0, ?_⟩
        by_cases ht : trails name = true
        · exact .inl ht
        · obtain ⟨i, hi, hin⟩ := hn ht
          exact .inr ⟨i, hi, hin⟩
    rw [hcond]
    refine ⟨fun hl => ?_, fun hl => ?_⟩
    · obtain ⟨c, hc⟩ := Option.ne_none_iff_exists'.mp hl.1
      obtain ⟨h1, -, h3⟩ := hbad hl.2
      exact ⟨c, hm.free 0 c hc, h1, h3 c hc⟩
    · by_cases hall : trails name = false ∧ ∀ i ≤ ks.length, mem i ≠ none
      · exact .inr (hgood hall)
      · obtain ⟨h1, h2, -⟩ := hbad hall
        have hm0 : mem 0 = none := by
          by_contra hm0
          exact hl ⟨hm0, hall⟩
        exact .inl ⟨h1, h2 hm0⟩

/-- **`devfs_attach_locked` does what it should** exactly where it does not
fail after it has made a node. -/
theorem attach_exact_iff (h : Holds sb S D) (hlen : name.length < nameMax) (h0 : 0 ∉ name)
    (hm : Mallocs sb mem) (d : Vdev.Addr) :
    AttachExact name d mem sb S D ↔ ¬ LeavesDirs sb name mem := by
  obtain ⟨hleaves, helse⟩ := h.attachLocked_cases hlen h0 hm d
  constructor
  · intro hexact hl
    obtain ⟨n, hn, hfail, hlive⟩ := hleaves hl
    exact not_sameTree hn hlive (hexact.failed hfail)
  · intro hl
    rcases helse hl with ⟨hfail, hsame⟩ | ⟨hok, hadd⟩
    · refine ⟨fun _ => ?_, fun hok => absurd hok hfail, fun hok => absurd hok hfail⟩
      rw [hsame]
      exact .refl sb
    · exact ⟨fun hfail => absurd hok hfail, fun _ => hadd, fun _ hkeep => hadd.detach h hkeep⟩

/-! ### A name of two components -/

/-- A new mount with its root at `0`. -/
def exampleTree : Sb := ⟨mounted (fun _ => newNode [] false) 0, fun _ => none⟩

/-- `kmalloc` gives the first `i` blocks. -/
def servedFor (i : ℕ) (j : ℕ) : Option Ramfs.Addr := if j < i then some (j + 1) else none

theorem holds_exampleTree : Holds exampleTree {[]} fun _ => none :=
  holds_mounted _ (show (0 : ℕ) < heapEnd by rw [heapEnd]; norm_num)

theorem toMake_exampleTree : toMake exampleTree (comps [97, 47, 98]) exampleTree.tree.root = 2 := by
  have hcomps : comps [97, 47, 98] = [[97], [98]] := by decide
  have hnone : childFind exampleTree.tree exampleTree.tree.root [97] = none := by
    rw [← Sb.at_concat (Sb.at_nil exampleTree), ← Option.not_isSome_iff_eq_none,
      holds_exampleTree.paths]
    simp
  rw [hcomps, toMake, hnone]
  rfl

theorem mallocs_exampleTree (i : ℕ) (hi : i ≤ 2) : Mallocs exampleTree (servedFor i) := by
  refine ⟨fun j n hn => ?_, fun j n hn => ?_, fun j j' n hn hn' => ?_⟩
  all_goals rw [servedFor, Option.ite_none_right_eq_some] at hn
  · obtain rfl := Option.some.inj hn.2
    exact decide_eq_false (by change j + 1 ≠ 0; omega)
  · obtain rfl := Option.some.inj hn.2
    have hj := hn.1
    change j + 1 < heapEnd
    rw [heapEnd]
    omega
  · rw [servedFor, Option.ite_none_right_eq_some] at hn'
    obtain rfl := Option.some.inj hn.2
    have hj : j' + 1 = j + 1 := Option.some.inj hn'.2
    omega

/-- Both blocks are there. -/
theorem attach_exact_pair : AttachExact [97, 47, 98] 5 (servedFor 2) exampleTree {[]} fun _ => none := by
  refine (attach_exact_iff holds_exampleTree (by decide) (by decide)
    (mallocs_exampleTree 2 le_rfl) 5).mpr ?_
  rintro ⟨-, -, ht | ⟨i, hi, hn⟩⟩
  · exact absurd ht (by decide)
  · rw [toMake_exampleTree] at hi
    rw [servedFor, if_pos hi] at hn
    exact absurd hn (by simp)

/-- **The second block is missing**: the call fails, and the directory that it
has made stays. -/
theorem attach_leaves_directory : Holds exampleTree {[]} (fun _ => none) ∧
    Mallocs exampleTree (servedFor 1) ∧
    (∃ n, exampleTree.tree.live n = false ∧
      (attachLocked [97, 47, 98] 5 (servedFor 1) exampleTree).1 ≠ vfsOk ∧
      (attachLocked [97, 47, 98] 5 (servedFor 1) exampleTree).2.tree.live n = true) ∧
    ¬ AttachExact [97, 47, 98] 5 (servedFor 1) exampleTree {[]} fun _ => none := by
  have hm := mallocs_exampleTree 1 (by omega)
  have hleaves : LeavesDirs exampleTree [97, 47, 98] (servedFor 1) := by
    rw [LeavesDirs, toMake_exampleTree]
    exact ⟨by omega, by decide, .inr ⟨1, by omega, by decide⟩⟩
  obtain ⟨n, hn, hfail, hlive⟩ :=
    (holds_exampleTree.attachLocked_cases (by decide) (by decide) hm 5).1 hleaves
  exact ⟨holds_exampleTree, hm, ⟨n, hn, hfail, hlive⟩,
    fun hexact => not_sameTree hn hlive (hexact.failed hfail)⟩

end Devfs

end Csos

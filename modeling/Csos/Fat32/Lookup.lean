import Csos.Fat32.Sound
import Csos.Vfs.Paths
/-!
# FAT32 — lookup and paths

What `fat32_dir_lookup` finds in a sound volume: a live entry of the
directory, with the entries of a long name right before it and nothing else
among them (`Found`). It never gives `.` or `..` for another name: these
stand first in their directory and have no long name. A path that the VFS
hands down has no such component, so that `fat32_resolve_dir` stays among
the directories of the plan.
-/

namespace Csos

namespace Fat32

open Vfs (Str dot slash Plain Normal)

variable {g : Geo} {v v' : Vol} {c d h i j k n idx : ℕ} {l : List ℕ} {e : Bytes} {ch : Chain}
  {K : Prop} {X : Set (ℕ × ℕ)} {P : Plan} {name rel : Str} {st : Lfn}

/-! ## The entries `.` and `..` -/

theorem upper_eq_dot {a : UInt8} (h : upper a = dot) : a = dot := by
  rw [upper] at h
  split at h
  · rename_i hc
    -- a letter in upper case is no dot
    obtain rfl : a = dot + 32 := by rw [← h, UInt8.sub_add_cancel]
    exact absurd hc (by decide)
  · exact h

theorem nameEq_dots (h : nameEq (List.replicate n dot) name = true) : name = List.replicate n dot := by
  induction n generalizing name with
  | zero =>
    cases name with
    | nil => rfl
    | cons a name => exact absurd h (by simp [nameEq])
  | succ n ih =>
    cases name with
    | nil => exact absurd h (by simp [List.replicate_succ, nameEq])
    | cons a name =>
      rw [List.replicate_succ, nameEq] at h
      split at h
      · exact absurd h (by simp)
      · rename_i hu
        have hd : upper dot = dot := by decide
        rw [not_not, hd] at hu
        rw [upper_eq_dot hu.symm, ih h, List.replicate_succ]

theorem shortName_dots (hn : n = 1 ∨ n = 2) (h : ∀ i < 11, e i = dots n i) :
    shortName e nameMax = List.replicate n dot := by
  have hlow : lower dot = dot := by decide
  have hne : dot ≠ space := by decide
  have hne5 : dot ≠ 5 := by decide
  have hne0 : dot ≠ 0 := by decide
  have e0 : e 0 = dot := (h 0 (by omega)).trans (by rcases hn with rfl | rfl <;> decide)
  have e8 : e 8 = space := (h 8 (by omega)).trans (by rcases hn with rfl | rfl <;> decide)
  have hext : shortExt e = [] := by simp [shortExt, List.range_succ_eq_map, e8]
  have hbase : shortBase e = List.replicate n dot := by
    rcases hn with rfl | rfl
    · have e1 : e 1 = space := (h 1 (by omega)).trans (by decide)
      simp [shortBase, List.range_succ_eq_map, e0, e1, hne, hne5, hlow]
    · have e1 : e 1 = dot := (h 1 (by omega)).trans (by decide)
      have e2 : e 2 = space := (h 2 (by omega)).trans (by decide)
      simp [shortBase, List.range_succ_eq_map, e0, e1, e2, hne, hne5, hlow]
  rcases hn with rfl | rfl <;> simp [shortName, hext, hbase, hne0]

/-- Without a long name, `.` and `..` go by no other name. -/
theorem not_isDot_of_nameEq (hp : Plain name) (hon : st.on = false)
    (hname : nameEq (dispName st e) name = true) : ¬ IsDot e := by
  intro hd
  have hdisp : dispName st e = shortName e nameMax := by simp [dispName, hon]
  rw [hdisp] at hname
  rcases hd.2 with h1 | h2
  · rw [shortName_dots (.inl rfl) h1] at hname
    exact hp.1 (nameEq_dots hname)
  · rw [shortName_dots (.inr rfl) h2] at hname
    exact hp.2 (nameEq_dots hname)

/-! ## What a lookup finds -/

/-- **An entry that a lookup gives**: slot `k` of the directory `d`, and its
long name from `lfnOff` on. -/
structure Found (g : Geo) (P : Plan) (v : Vol) (d k : ℕ) (loc : Loc) : Prop where
  dir : d ∈ P.dirs
  dirClus : loc.dirClus = d
  has : HasSlot g (P.clusters d) k
  small : k < 2 ^ 27
  off : loc.off = k * 32
  group : ∃ a ≤ k, loc.lfnOff = a * 32 ∧ ∀ i, a ≤ i → i < k → IsLfn (dirSlot g v (P.clusters d) i)
  live : Live (dirSlot g v (P.clusters d) k)
  clus : loc.clus = entClus (dirSlot g v (P.clusters d) k)
  attr : loc.attr = dirSlot g v (P.clusters d) k 11

/-- A directory that was found is one of the plan. -/
theorem Found.leads_dir {loc : Loc} (hF : Found g P v d k loc) (ht : Tree g P ∅ v) (hg : g.Wf)
    (hdir : loc.attr &&& attrDir ≠ 0) :
    loc.clus ∈ P.dirs ∧ loc.clus ≠ g.rootClus ∧ loc.clus ≠ d := by
  have hlead : Leads g P d (dirSlot g v (P.clusters d) k) :=
    ht.entry d _ _ (Tree.at_place hg hF.dir hF.has) (by simp) hF.live
  rw [hF.attr] at hdir
  rw [Leads, if_pos hdir] at hlead
  rwa [hF.clus]

/-- A file that was found is empty or one of the plan. -/
theorem Found.leads_file {loc : Loc} (hF : Found g P v d k loc) (ht : Tree g P ∅ v) (hg : g.Wf)
    (hdir : loc.attr &&& attrDir = 0) : loc.clus = 0 ∨ loc.clus ∈ P.files := by
  have hlead : Leads g P d (dirSlot g v (P.clusters d) k) :=
    ht.entry d _ _ (Tree.at_place hg hF.dir hF.has) (by simp) hF.live
  rw [hF.attr] at hdir
  rw [Leads, if_neg (not_not.mpr hdir)] at hlead
  rwa [hF.clus]

/-- A loop that was given up, or a volume that is as it was. -/
def Same (v v' : Vol) : Prop := v' = v ∨ v' = v.hung

theorem Same.refl (v : Vol) : Same v v := .inl rfl

theorem Same.trans {v₁ : Vol} (h : Same v v₁) (h' : Same v₁ v') : Same v v' := by
  rcases h with rfl | rfl
  · exact h'
  · rcases h' with rfl | rfl
    · exact .inr rfl
    · exact .inr rfl

theorem Same.sound (h : Same v v') (hs : Sound g K P X v) (hg : g.Wf) : Sound g K P X v' := by
  rcases h with rfl | rfl
  · exact hs
  · exact hs.hung hg

theorem Same.slot (h : Same v v') : slot g v' = slot g v := by
  rcases h with rfl | rfl <;> rfl

theorem Found.of_same {loc : Loc} (hs : Same v v') (h : Found g P v d k loc) : Found g P v' d k loc := by
  rcases hs with rfl | rfl
  · exact h
  · exact ⟨h.dir, h.dirClus, h.has, h.small, h.off, h.group, h.live, h.clus, h.attr⟩

/-- The long name that has been collected before entry `idx`: all of the
slots from its start on. -/
def Collected (g : Geo) (v : Vol) (l : List ℕ) (idx : ℕ) (st : Lfn) : Prop :=
  st.on = true → ∃ a < idx % 2 ^ 27, st.start = a * 32 ∧
    ∀ i, a ≤ i → i < idx % 2 ^ 27 → IsLfn (dirSlot g v l i)

theorem collected_of_off (hon : st.on = false) : Collected g v l idx st :=
  fun h => absurd h (by simp [hon])

/-- An entry of a long name is added; there is none before the seam. -/
theorem Collected.add (h : Collected g v l idx st) (hlfn : IsLfn (dirSlot g v l (idx % 2 ^ 27)))
    (hseam : idx % 2 ^ 27 ≠ 2 ^ 27 - 1) (e : Bytes) :
    Collected g v l (idx + 1) (st.add (idx * 32 % 2 ^ 32) e) := by
  have hnext : (idx + 1) % 2 ^ 27 = idx % 2 ^ 27 + 1 := by omega
  -- where the long name starts
  have hstart : (st.add (idx * 32 % 2 ^ 32) e).start =
      if st.on = true then st.start else idx * 32 % 2 ^ 32 := by
    simp only [Lfn.add]
    split_ifs <;> rfl
  intro _
  rw [hstart, hnext]
  by_cases hon : st.on = true
  · obtain ⟨a, ha, hs, hall⟩ := h hon
    refine ⟨a, by omega, by rw [if_pos hon, hs], fun i h1 h2 => ?_⟩
    rcases Nat.lt_succ_iff_lt_or_eq.mp h2 with h2 | rfl
    · exact hall i h1 h2
    · exact hlfn
  · refine ⟨idx % 2 ^ 27, by omega, by rw [if_neg hon, index_wrap], fun i h1 h2 => ?_⟩
    obtain rfl : i = idx % 2 ^ 27 := by omega
    exact hlfn

/-- The first two slots of a directory. -/
theorem place_front (ht : Tree g P X v) (hg : g.Wf) (hd : d ∈ P.dirs) (hj : j ≤ 1) :
    HasSlot g (P.clusters d) j ∧ place g (P.clusters d) j = (d, j) := by
  have hb := hg.clusBytes
  have hsec := hg.secPerClus
  have hdiv : j * 32 / g.clusBytes = 0 := Nat.div_eq_of_lt (by omega)
  have hmod : j * 32 % g.clusBytes = j * 32 := Nat.mod_eq_of_lt (by omega)
  obtain ⟨hc, hne⟩ := ht.chain d (.inl hd)
  have hhead := hc.head
  rw [firstClus, if_pos (hc.start_valid.mpr hne)] at hhead
  refine ⟨?_, ?_⟩
  · rw [HasSlot, hdiv]
    exact List.length_pos_iff.mpr hne
  · rw [place, hdiv, hmod, List.getD_eq_getElem?_getD, ← List.head?_eq_getElem?, ← hhead]
    simp

/-- A slot that a lookup takes for another name than `.` and `..` is neither. -/
theorem not_isDot_of_collected (ht : Tree g P ∅ v) (hg : g.Wf) (hd : d ∈ P.dirs)
    (hk : HasSlot g (P.clusters d) (idx % 2 ^ 27)) (hp : Plain name)
    (hcol : Collected g v (P.clusters d) idx st)
    (hname : nameEq (dispName st (dirSlot g v (P.clusters d) (idx % 2 ^ 27))) name = true) :
    ¬ IsDot (dirSlot g v (P.clusters d) (idx % 2 ^ 27)) := by
  intro hdot
  obtain ⟨hc, hj, hlfn⟩ := ht.dots d _ _ (Tree.at_place hg hd hk) (by simp) hdot
  set j := (place g (P.clusters d) (idx % 2 ^ 27)).2 with hjdef
  obtain ⟨hj1, hj2⟩ := place_front ht hg hd hj
  have hidx : idx % 2 ^ 27 = j := by
    refine hg.place_inj (ht.dir_chain hd).nodup hk hj1 ?_
    rw [hj2]
    exact Prod.ext hc rfl
  -- so no long name can have been collected
  have hon : st.on = false := by
    by_contra hon
    obtain ⟨a, ha, -, hall⟩ := hcol (by simpa using hon)
    have h0 : IsLfn (dirSlot g v (P.clusters d) 0) := hall 0 (by omega) (by omega)
    rw [dirSlot, (place_front ht hg hd (Nat.zero_le 1)).2] at h0
    exact hlfn (by omega) (by simp) h0
  exact not_isDot_of_nameEq hp hon hname hdot

/-- The rounds of `fat32_dir_lookup`. -/
theorem lookupLoop_quiet (hg : g.Wf) (hs : Sound g K P ∅ v) (hd : d ∈ P.dirs) (hp : Plain name) :
    ∀ (fuel : ℕ) (ch : Chain) (idx : ℕ) (st : Lfn), Cursor g (P.clusters d) ch →
      Collected g v (P.clusters d) idx st →
      ∃ rc o v', lookupLoop g d name fuel ch idx st v = (rc, o, v') ∧ Same v v' ∧
        ∀ loc, o = some loc → ∃ k, Found g P v d k loc := by
  intro fuel
  induction fuel with
  | zero =>
    intro ch idx st _ _
    exact ⟨errIo, none, v.hung, rfl, .inr rfl, by simp⟩
  | succ fuel ih =>
    intro ch idx st hcur hcol
    obtain ⟨ch', -, hcur', hread⟩ := entRead_quiet hg hs.quiet (hs.dir_chain hd) hcur idx
    rcases hread with ⟨hhas, hr⟩ | ⟨-, hr⟩
    case inr =>
      exact ⟨fatOk, none, v, by rw [lookupLoop, hr]; rfl, .refl v, by simp⟩
    set e := dirSlot g v (P.clusters d) (idx % 2 ^ 27) with he
    have hne : (fatOk : ℤ) ≠ errEof := by decide
    have hreset := ih ch' (idx + 1) st.reset hcur' (collected_of_off rfl)
    rw [lookupLoop, hr]
    simp only [hne, if_false, ne_eq, not_true_eq_false]
    by_cases h0 : e 0 = 0
    · exact ⟨fatOk, none, v, by rw [if_pos h0], .refl v, by simp⟩
    rw [if_neg h0]
    by_cases h5 : e 0 = 0xe5
    · rw [if_pos h5]
      exact hreset
    rw [if_neg h5]
    by_cases hl : e 11 = attrLfn
    · rw [if_pos hl]
      have hlfn : IsLfn (dirSlot g v (P.clusters d) (idx % 2 ^ 27)) := ⟨h0, h5, hl⟩
      refine ih ch' (idx + 1) _ hcur' (hcol.add hlfn (fun hseam => ?_) e)
      rw [hseam] at hlfn hhas
      exact hs.seam d hd hhas (by simp) hlfn
    rw [if_neg hl]
    by_cases hvol : e 11 &&& attrVol = 0
    case neg =>
      rw [if_pos hvol]
      exact hreset
    rw [if_neg (by simpa using hvol)]
    by_cases hname : nameEq (dispName st e) name = true
    case neg =>
      rw [if_neg hname]
      exact hreset
    rw [if_pos hname]
    refine ⟨fatOk, _, v, rfl, .refl v, fun loc hloc => ⟨idx % 2 ^ 27, ?_⟩⟩
    obtain rfl := Option.some.inj hloc
    refine ⟨hd, rfl, hhas, Nat.mod_lt _ (by norm_num), index_wrap idx, ?_,
      ⟨⟨h0, h5, hl, hvol⟩, not_isDot_of_collected hs.toTree hg hd hhas hp hcol hname⟩, rfl, rfl⟩
    dsimp only
    by_cases hon : st.on = true
    · obtain ⟨a, ha, hst, hall⟩ := hcol hon
      exact ⟨a, by omega, by rw [if_pos hon, hst], hall⟩
    · exact ⟨idx % 2 ^ 27, le_rfl, by rw [if_neg hon, index_wrap], fun i h1 h2 => by omega⟩

/-- **`fat32_dir_lookup`** gives an entry of the directory, if it gives one. -/
theorem dirLookup_quiet (hg : g.Wf) (hs : Sound g K P ∅ v) (hd : d ∈ P.dirs) (hp : Plain name) :
    ∃ rc o v', dirLookup g d name v = (rc, o, v') ∧ Same v v' ∧
      ∀ loc, o = some loc → ∃ k, Found g P v d k loc :=
  lookupLoop_quiet hg hs hd hp rounds _ 0 _ (hs.dir_chain hd).cursor_init (collected_of_off rfl)

/-! ## Paths -/

/-- What follows the first component. -/
theorem dropWhile_slash (rel : Str) : rel.dropWhile (· ≠ slash) = [] ∨
    rel.dropWhile (· ≠ slash) = slash :: (rel.dropWhile (· ≠ slash)).drop 1 := by
  have hhead := List.head?_dropWhile_not (· ≠ slash) rel
  cases hd : rel.dropWhile (· ≠ slash) with
  | nil => exact .inl rfl
  | cons z r =>
    rw [hd] at hhead
    obtain rfl : z = slash := by simpa using hhead
    exact .inr rfl

/-- The first component of a path, and the path after it. -/
theorem normal_step (h : Normal rel) : Plain ((rel.takeWhile (· ≠ slash)).take (nameMax - 1)) ∧
    Normal ((rel.dropWhile (· ≠ slash)).drop 1) := by
  have hsplit : rel.takeWhile (· ≠ slash) ++ rel.dropWhile (· ≠ slash) = rel :=
    List.takeWhile_append_dropWhile
  have hdrop := dropWhile_slash rel
  have hplain : Plain (rel.takeWhile (· ≠ slash)) := by
    refine h [] _ (rel.dropWhile (· ≠ slash)) ⟨by simp, fun hm => ?_, .inl rfl, ?_⟩
    · exact absurd (List.mem_takeWhile_imp hm) (by simp)
    · exact hdrop.imp id fun hd => by rw [hd]; rfl
  refine ⟨?_, ?_⟩
  · -- what is cut off is from a name longer than `..`
    by_cases hlen : (rel.takeWhile (· ≠ slash)).length ≤ nameMax - 1
    · rwa [List.take_of_length_le hlen]
    · have hlen' : ((rel.takeWhile (· ≠ slash)).take (nameMax - 1)).length = nameMax - 1 := by
        rw [List.length_take]
        omega
      constructor <;>
      · intro he
        rw [he] at hlen'
        exact absurd hlen' (by decide)
  · rcases hdrop with hd | hd
    · rw [hd]
      exact Vfs.normal_nil
    · rw [hd] at hsplit
      refine Normal.of_append_right (q := rel.takeWhile (· ≠ slash) ++ [slash]) ?_ (.inr (by simp))
      rw [List.append_assoc, List.singleton_append, hsplit]
      exact h

/-- **`fat32_resolve_dir`** stays among the directories. -/
theorem resolveDirLoop_quiet (hg : g.Wf) : ∀ (fuel : ℕ) (p : Str) (cur : ℕ) (v : Vol),
    Sound g K P ∅ v → cur ∈ P.dirs → Normal p →
    ∃ rc d v', resolveDirLoop g fuel p cur v = (rc, d, v') ∧ Same v v' ∧ (rc = fatOk → d ∈ P.dirs) := by
  intro fuel
  induction fuel with
  | zero =>
    intro p cur v _ hcur _
    exact ⟨fatOk, cur, v, rfl, .refl v, fun _ => hcur⟩
  | succ fuel ih =>
    intro p cur v hs hcur hp
    obtain ⟨hcomp, hrest⟩ := normal_step hp
    rw [resolveDirLoop]
    by_cases hnil : p = []
    · exact ⟨fatOk, cur, v, by rw [if_pos hnil], .refl v, fun _ => hcur⟩
    rw [if_neg hnil]
    simp only
    by_cases hc : (p.takeWhile (· ≠ slash)).take (nameMax - 1) = []
    · rw [if_pos hc]
      exact ih _ _ _ hs hcur hrest
    rw [if_neg hc]
    obtain ⟨rc, o, v₁, hr, hsame, hfound⟩ := dirLookup_quiet hg hs hcur hcomp
    rw [hr]
    simp only
    by_cases hrc : rc = fatOk
    case neg => exact ⟨rc, 0, v₁, by rw [if_pos hrc], hsame, fun h => absurd h hrc⟩
    rw [if_neg (not_not.mpr hrc)]
    cases o with
    | none => exact ⟨Vfs.errNoent, 0, v₁, rfl, hsame, fun h => absurd h (by decide)⟩
    | some loc =>
      obtain ⟨k, hF⟩ := hfound loc rfl
      by_cases hdir : loc.attr &&& attrDir = 0
      · exact ⟨Vfs.errNotdir, 0, v₁, by simp only [hdir, if_true], hsame, fun h => absurd h (by decide)⟩
      simp only [hdir, if_false]
      obtain ⟨rc', d, v', hr', hsame', hd⟩ := ih _ loc.clus v₁ (hsame.sound hs hg)
        (hF.leads_dir hs.toTree hg hdir).1 hrest
      exact ⟨rc', d, v', hr', hsame.trans hsame', hd⟩

/-- The two parts of a path. -/
theorem split_normal {dir leaf : Str} (hp : Normal rel) (h : split rel = some (dir, leaf)) :
    Normal dir ∧ Plain leaf ∧ leaf ≠ [] := by
  rw [split] at h
  split_ifs at h with h1 h2
  obtain ⟨rfl, rfl⟩ : (rel.rdropWhile (· ≠ slash)).dropLast = dir ∧ rel.rtakeWhile (· ≠ slash) = leaf := by
    simpa using h
  have hsplit : rel.rdropWhile (· ≠ slash) ++ rel.rtakeWhile (· ≠ slash) = rel :=
    List.rdropWhile_append_rtakeWhile
  have hclean : slash ∉ rel.rtakeWhile (· ≠ slash) := fun hm =>
    absurd (List.mem_rtakeWhile_imp hm) (by simp)
  rw [not_or] at h1
  by_cases hm : slash ∈ rel
  · obtain ⟨d, hd, hrel⟩ := Vfs.exists_last_slash hm
    rw [hd, List.dropLast_concat]
    refine ⟨?_, ?_, h1.1⟩
    · rw [hrel] at hp
      exact hp.of_append_left (.inr rfl)
    · exact hp (d ++ [slash]) _ [] ⟨by simpa using hrel, hclean, .inr (by simp), .inl rfl⟩
  · have hd : rel.rdropWhile (· ≠ slash) = [] := by
      rw [List.rdropWhile_eq_nil_iff]
      intro z hz
      rw [decide_eq_true_eq]
      rintro rfl
      exact hm hz
    rw [hd, List.nil_append] at hsplit
    rw [hd]
    exact ⟨Vfs.normal_nil, hp [] _ [] ⟨by simpa using hsplit.symm, hclean, .inl rfl, .inl rfl⟩, h1.1⟩

/-- **`fat32_resolve`** gives the root or an entry. -/
theorem resolve_quiet (hg : g.Wf) (hs : Sound g K P ∅ v) (hp : Normal rel) :
    ∃ rc o v', resolve g rel v = (rc, o, v') ∧ Same v v' ∧ (rel = [] → o = some (rootLoc g)) ∧
      (rc ≠ fatOk → o = none) ∧ ∀ loc, rel ≠ [] → o = some loc → ∃ d k, Found g P v' d k loc := by
  rw [resolve]
  by_cases hnil : rel = []
  · exact ⟨fatOk, some (rootLoc g), v, by rw [if_pos hnil], .refl v, fun _ => rfl,
      fun h => absurd rfl h, fun _ h => absurd hnil h⟩
  rw [if_neg hnil]
  -- what fails gives no entry
  have hfail : ∀ (rc : ℤ) (v' : Vol), Same v v' → ∃ rc' o v'', ((rc, none, v') : ℤ × Option Loc × Vol)
      = (rc', o, v'') ∧ Same v v'' ∧ (rel = [] → o = some (rootLoc g)) ∧ (rc' ≠ fatOk → o = none) ∧
      ∀ loc, rel ≠ [] → o = some loc → ∃ d k, Found g P v'' d k loc :=
    fun rc v' hv => ⟨rc, none, v', rfl, hv, fun h => absurd h hnil, fun _ => rfl, by simp⟩
  rcases hsp : split rel with _ | ⟨dir, leaf⟩
  · exact hfail _ v (.refl v)
  obtain ⟨hdir, hleaf, -⟩ := split_normal hp hsp
  obtain ⟨rc, parent, v₁, hr, hsame, hparent⟩ :=
    resolveDirLoop_quiet hg dir.length dir g.rootClus v hs hs.root hdir
  simp only [resolveDir, hr]
  by_cases hrc : rc = fatOk
  case neg =>
    rw [if_pos hrc]
    exact hfail _ v₁ hsame
  rw [if_neg (not_not.mpr hrc)]
  obtain ⟨rc₂, o, v₂, hr₂, hsame₂, hfound⟩ :=
    dirLookup_quiet hg (hsame.sound hs hg) (hparent hrc) hleaf
  rw [hr₂]
  simp only
  by_cases hrc₂ : rc₂ = fatOk
  case neg =>
    rw [if_pos hrc₂]
    exact hfail _ v₂ (hsame.trans hsame₂)
  rw [if_neg (not_not.mpr hrc₂)]
  cases o with
  | none => exact hfail _ v₂ (hsame.trans hsame₂)
  | some loc =>
    refine ⟨fatOk, some loc, v₂, rfl, hsame.trans hsame₂, fun h => absurd h hnil,
      fun h => absurd rfl h, fun loc' _ hl => ?_⟩
    obtain ⟨k, hF⟩ := hfound loc' hl
    exact ⟨parent, k, hF.of_same hsame₂⟩

end Fat32

end Csos

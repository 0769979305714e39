import Csos.Fat32.Encode
import Csos.Fat32.Lookup
import Csos.Vfs.Paths
/-!
# FAT32 — what a path leads to

Following a path component by component through the names that the entries
are displayed with, and `fat32_resolve`, which does the same but cuts the
components before the last to what its buffer holds.
-/

namespace Csos

namespace Fat32

open Vfs (Str dot slash)

variable {g : Geo} {v v' : Vol} {c d i j k m n : ℕ} {e : Bytes} {name leaf p rel : Str} {s : Lfn} {loc : Loc}
  {cs : List Str}

/-! ## Entries by name -/

/-- **Entry `k` is displayed**: it is before the end marker, and neither
deleted nor part of a long name nor the volume's label. -/
structure Displayed (g : Geo) (v : Vol) (d k : ℕ) (e : Bytes) : Prop where
  reach : Reaches g v d (k + 1)
  ent : entAt g v d k = some e
  used : e 0 ≠ 0xe5 ∧ e 11 ≠ attrLfn ∧ e 11 &&& attrVol = 0

/-- It is displayed with this name, up to case. -/
def Named (g : Geo) (v : Vol) (d k : ℕ) (e : Bytes) (name : Str) : Prop :=
  Displayed g v d k e ∧ nameEq (dispName (lfnAt g v d k) e) name = true

/-- **The entry of a name**: the first that is displayed with it. Entry
indices are 32 bits wide. -/
def EntryOf (g : Geo) (v : Vol) (d : ℕ) (name : Str) (loc : Loc) : Prop :=
  ∃ k < 2 ^ 32, ∃ e, Named g v d k e name ∧ (∀ j < k, ∀ e', ¬ Named g v d j e' name) ∧
    loc = locOf d k (lfnAt g v d k) e

theorem lfnNameLoop_length (units : ℕ → ℕ) (outsz m i j : ℕ) (h : j < outsz) :
    (lfnNameLoop units outsz m i j).length + j < outsz := by
  induction m generalizing i j with
  | zero => simpa [lfnNameLoop] using h
  | succ m ih =>
    rw [lfnNameLoop]
    by_cases hj : j + 1 < outsz
    case neg => simpa [hj] using h
    rw [if_neg (not_not.mpr hj)]
    by_cases h0 : units i = 0
    · simpa [h0] using h
    rw [if_neg h0]
    by_cases hf : units i = 0xffff
    · rw [if_pos hf]
      exact ih (i + 1) j h
    · have := ih (i + 1) (j + 1) hj
      rw [if_neg hf, List.length_cons]
      omega

/-- A displayed name has at most 63 bytes. -/
theorem dispName_length (s : Lfn) (e : Bytes) : (dispName s e).length < nameMax := by
  rw [dispName]
  split_ifs
  · have := lfnNameLoop_length s.units nameMax (s.max * 13) 0 0 (by decide)
    rw [lfnName]
    omega
  · have hbase : (shortBase e).length ≤ 8 := by
      rw [shortBase, List.length_map]
      exact (List.takeWhile_prefix _).length_le.trans (by simp)
    have hext : (shortExt e).length ≤ 3 := by
      rw [shortExt, List.length_map]
      exact (List.takeWhile_prefix _).length_le.trans (by simp)
    rw [shortName]
    refine (List.takeWhile_prefix _).length_le.trans_lt ?_
    have hb : ((shortBase e).take (nameMax - 1)).length ≤ 8 := (List.length_take_le' _ _).trans hbase
    split_ifs
    · have he : ((shortExt e).take (nameMax - 1 - (((shortBase e).take (nameMax - 1)).length + 1))).length ≤ 3 :=
        (List.length_take_le' _ _).trans hext
      rw [List.length_append, List.length_cons]
      simp only [nameMax] at *
      omega
    · simp only [nameMax] at *
      omega

theorem nameEq_length {a b : Str} (h : nameEq a b = true) : a.length = b.length := by
  induction a generalizing b with
  | nil =>
    cases b with
    | nil => rfl
    | cons y b => exact absurd h (by simp [nameEq])
  | cons x a ih =>
    cases b with
    | nil => exact absurd h (by simp [nameEq])
    | cons y b =>
      rw [nameEq] at h
      split_ifs at h
      rw [List.length_cons, List.length_cons, ih h]

/-- Nothing is displayed with a longer name. -/
theorem not_entryOf_of_long (h : nameMax ≤ name.length) : ¬ EntryOf g v d name loc := by
  rintro ⟨k, -, e, ⟨-, hn⟩, -⟩
  have := nameEq_length hn
  have := dispName_length (lfnAt g v d k) e
  omega

/-- An entry that settles nothing is no stop, and is not displayed with the
name. -/
theorem lookupAt_none (h : lookupAt d name k (lfnAt g v d k) (entAt g v d k) = none) :
    ¬ Stops g v d k ∧ ∀ e, ¬ Named g v d k e name := by
  rcases he : entAt g v d k with _ | e <;> rw [he] at h
  · exact absurd h (by simp [lookupAt])
  rw [lookupAt] at h
  split_ifs at h with h0 hskip hname
  · refine ⟨not_stops_iff.mpr ⟨e, he, h0⟩, fun e' hn => ?_⟩
    obtain rfl := Option.some.inj (he.symm.trans hn.1.ent)
    obtain ⟨h5, hl, hv⟩ := hn.1.used
    exact hskip.elim h5 fun h' => h'.elim hl fun h'' => h'' hv
  · refine ⟨not_stops_iff.mpr ⟨e, he, h0⟩, fun e' hn => ?_⟩
    obtain rfl := Option.some.inj (he.symm.trans hn.1.ent)
    exact hname hn.2

/-- **`fat32_dir_lookup`** finds the entry of the name, if it returns one,
and there is none if it does not. -/
theorem dirLookup_eq (hq : Quiet v) (d : ℕ) (name : Str) :
    (∃ loc, dirLookup g d name v = (fatOk, some loc, v) ∧ EntryOf g v d name loc) ∨
    ((dirLookup g d name v = (fatOk, none, v) ∨ dirLookup g d name v = (errIo, none, v.hung)) ∧
      ∀ loc, ¬ EntryOf g v d name loc) := by
  rcases (lookup_searches hq d name).cases (n := rounds) reads_start with
    ⟨k, r, -, hk, hbefore, hres, hr⟩ | ⟨hnone, hout⟩
  · have hnone : ∀ j < k, lookupAt d name j (lfnAt g v d j) (entAt g v d j) = none :=
      fun j hj => Option.map_eq_none_iff.mp (hbefore j (Nat.zero_le j) hj)
    have hreach : Reaches g v d k := fun j hj => (lookupAt_none (hnone j hj)).1
    have hfirst : ∀ j < k, ∀ e', ¬ Named g v d j e' name := fun j hj => (lookupAt_none (hnone j hj)).2
    obtain ⟨o, ho, rfl⟩ := Option.map_eq_some_iff.mp hres
    have hstop : Stops g v d k → ∀ loc, ¬ EntryOf g v d name loc := by
      rintro hs loc ⟨j, -, e, hn, -, -⟩
      rcases Nat.lt_or_ge j k with hlt | hge
      · exact hfirst j hlt e hn
      · exact hn.1.reach k (by omega) hs
    rcases he : entAt g v d k with _ | e <;> rw [he] at ho
    · obtain rfl := Option.some.inj ho
      exact .inr ⟨.inl hr, hstop fun e' he' => by rw [he] at he'; exact absurd he' (by simp)⟩
    · rw [lookupAt] at ho
      split_ifs at ho with h0 hskip hname
      · obtain rfl := Option.some.inj ho
        refine .inr ⟨.inl hr, hstop fun e' he' => ?_⟩
        obtain rfl := Option.some.inj (he.symm.trans he')
        exact h0
      · obtain rfl := Option.some.inj ho
        rw [not_or, not_or, not_not] at hskip
        exact .inl ⟨_, hr, k, by omega, e,
          ⟨⟨hreach.succ (not_stops_iff.mpr ⟨e, he, h0⟩), he, hskip⟩, hname⟩, hfirst, rfl⟩
  · refine .inr ⟨.inr hout, ?_⟩
    rintro loc ⟨k, hk, e, hn, -⟩
    exact (lookupAt_none (Option.map_eq_none_iff.mp (hnone k (Nat.zero_le k) (by omega)))).2 e hn

/-- There is one entry of a name. -/
theorem EntryOf.unique {loc' : Loc} (h : EntryOf g v d name loc) (h' : EntryOf g v d name loc') : loc = loc' := by
  obtain ⟨k, -, e, hn, hfirst, rfl⟩ := h
  obtain ⟨k', -, e', hn', hfirst', rfl⟩ := h'
  obtain rfl : k = k' := by
    rcases Nat.lt_trichotomy k k' with hlt | rfl | hlt
    · exact absurd hn (hfirst' k hlt e)
    · rfl
    · exact absurd hn' (hfirst k' hlt e')
  obtain rfl := Option.some.inj (hn.1.ent.symm.trans hn'.1.ent)
  rfl

/-! ## Following a path -/

/-- The directory that a list of components leads to from `d`. -/
def Walks (g : Geo) (v : Vol) : ℕ → List Str → ℕ → Prop
  | d, [], d' => d = d'
  | d, c :: cs, d' => ∃ loc, EntryOf g v d c loc ∧ loc.attr &&& attrDir ≠ 0 ∧ Walks g v loc.clus cs d'

/-- The components of a path before the last; what is empty is passed over. -/
def parents (rel : Str) : List Str := (rel.splitOn slash).dropLast.filter (· ≠ [])

/-- The last component of a path. -/
def final (rel : Str) : Str := (rel.splitOn slash).getLastD []

/-- **Where a path leads**, each component before the last having been
changed by `f`: to the root if there is none, or to the entry of its last
component in the directory that the others lead to. -/
def FollowsVia (f : Str → Str) (g : Geo) (v : Vol) (rel : Str) (loc : Loc) : Prop :=
  if rel = [] then loc = rootLoc g
  else final rel ≠ [] ∧ ∃ d, Walks g v g.rootClus ((parents rel).map f) d ∧ EntryOf g v d (final rel) loc

/-- The path leads to the entry, every component taken as it is. -/
abbrev Follows (g : Geo) (v : Vol) (rel : Str) (loc : Loc) : Prop := FollowsVia id g v rel loc

/-- The part of a component that fits a buffer of `VFS_NAME_MAX` bytes. -/
def clip (c : Str) : Str := c.take (nameMax - 1)

theorem walks_unique {d' d'' : ℕ} (h : Walks g v d cs d') (h' : Walks g v d cs d'') : d' = d'' := by
  induction cs generalizing d with
  | nil => exact (show d = d' from h).symm.trans h'
  | cons c cs ih =>
    obtain ⟨loc, he, -, hw⟩ := h
    obtain ⟨loc', he', -, hw'⟩ := h'
    obtain rfl := he.unique he'
    exact ih hw hw'

/-- No list with a component that is too long leads anywhere. -/
theorem not_walks_of_long {d' : ℕ} (hc : name ∈ cs) (hlong : nameMax ≤ name.length) : ¬ Walks g v d cs d' := by
  induction cs generalizing d with
  | nil => exact absurd hc (by simp)
  | cons c cs ih =>
    rintro ⟨loc, he, -, hw⟩
    rcases List.mem_cons.mp hc with rfl | hc
    · exact not_entryOf_of_long hlong he
    · exact ih hc hw

/-- The components of a path to a directory. -/
def dirComps (p : Str) : List Str := (p.splitOn slash).filter (· ≠ [])

/-- The first component, and those after it. -/
theorem dirComps_step (p : Str) : dirComps p =
    (if p.takeWhile (· ≠ slash) = [] then [] else [p.takeWhile (· ≠ slash)]) ++
      dirComps ((p.dropWhile (· ≠ slash)).drop 1) := by
  have hsplit : p.takeWhile (· ≠ slash) ++ p.dropWhile (· ≠ slash) = p := List.takeWhile_append_dropWhile
  have hclean : slash ∉ p.takeWhile (· ≠ slash) := fun hm => absurd (List.mem_takeWhile_imp hm) (by simp)
  have hone : ∀ c : Str, [c].filter (· ≠ []) = if c = [] then [] else [c] := by
    intro c
    by_cases hc : c = [] <;> simp [hc]
  rcases dropWhile_slash p with hd | hd
  · rw [hd, List.append_nil] at hsplit
    rw [hd, hsplit] at *
    rw [dirComps, List.splitOn_eq_singleton hclean, hone]
    simp [dirComps]
  · rw [dirComps, dirComps]
    conv_lhs => rw [← hsplit, hd, List.splitOn_append_cons_self, List.splitOn_eq_singleton hclean,
      List.filter_append, hone]

/-- **`fat32_resolve_dir`** follows the components, as far as they fit its
buffer. -/
theorem resolveDirLoop_eq (hq : Quiet v) : ∀ (fuel : ℕ) (p : Str) (cur : ℕ), p.length ≤ fuel →
    (∃ d, resolveDirLoop g fuel p cur v = (fatOk, d, v) ∧ Walks g v cur ((dirComps p).map clip) d) ∨
    ((resolveDirLoop g fuel p cur v).1 ≠ fatOk ∧ ∀ d, ¬ Walks g v cur ((dirComps p).map clip) d) := by
  intro fuel
  induction fuel with
  | zero =>
    intro p cur hlen
    obtain rfl := List.length_eq_zero_iff.mp (Nat.le_zero.mp hlen)
    exact .inl ⟨cur, rfl, by simp [dirComps, Walks]⟩
  | succ fuel ih =>
    intro p cur hlen
    by_cases hnil : p = []
    · subst hnil
      exact .inl ⟨cur, by rw [resolveDirLoop, if_pos rfl], by simp [dirComps, Walks]⟩
    have hrest : ((p.dropWhile (· ≠ slash)).drop 1).length ≤ fuel := by
      have := (List.dropWhile_suffix (· ≠ slash) (l := p)).length_le
      have hpos := List.length_pos_iff.mpr hnil
      rw [List.length_drop]
      omega
    rw [resolveDirLoop, if_neg hnil, dirComps_step]
    dsimp only
    have hclip : (p.takeWhile (· ≠ slash)).take (nameMax - 1) = clip (p.takeWhile (· ≠ slash)) := rfl
    rw [hclip]
    by_cases hc : p.takeWhile (· ≠ slash) = []
    · rw [hc, if_pos (show clip [] = [] from rfl), if_pos rfl, List.nil_append]
      exact ih _ cur hrest
    have hc' : clip (p.takeWhile (· ≠ slash)) ≠ [] := by
      rw [clip, ne_eq, List.take_eq_nil_iff]
      exact not_or.mpr ⟨by decide, hc⟩
    rw [if_neg hc', if_neg hc, List.singleton_append, List.map_cons]
    rcases dirLookup_eq (g := g) hq cur (clip (p.takeWhile (· ≠ slash))) with ⟨loc, hr, hent⟩ | ⟨hr, hno⟩
    · rw [hr]
      dsimp only
      rw [if_neg (by decide)]
      by_cases hdir : loc.attr &&& attrDir = 0
      · refine .inr ⟨by rw [if_pos hdir]; exact (show Vfs.errNotdir ≠ fatOk by decide), ?_⟩
        rintro d ⟨loc', hent', hdir', -⟩
        obtain rfl := hent.unique hent'
        exact hdir' hdir
      · rw [if_neg hdir]
        rcases ih _ loc.clus hrest with ⟨d, hr', hw⟩ | ⟨hrc, hno⟩
        · exact .inl ⟨d, hr', loc, hent, hdir, hw⟩
        · refine .inr ⟨hrc, ?_⟩
          rintro d ⟨loc', hent', -, hw⟩
          obtain rfl := hent.unique hent'
          exact hno d hw
    · refine .inr ⟨?_, ?_⟩
      · rcases hr with hr | hr <;> rw [hr]
        · exact (show Vfs.errNoent ≠ fatOk by decide)
        · exact (show errIo ≠ fatOk by decide)
      · rintro d ⟨loc, hent, -⟩
        exact hno loc hent

/-- The directory part and the last component, as `fat32_split` finds them. -/
theorem split_parts (rel : Str) : rel.rtakeWhile (· ≠ slash) = final rel ∧
    dirComps (rel.rdropWhile (· ≠ slash)).dropLast = parents rel := by
  have hclean : slash ∉ rel.rtakeWhile (· ≠ slash) := fun hm =>
    absurd (List.mem_rtakeWhile_imp hm) (by simp)
  by_cases hm : slash ∈ rel
  · obtain ⟨d, hd, hrel⟩ := Vfs.exists_last_slash hm
    have hsplit : rel.splitOn slash = d.splitOn slash ++ [rel.rtakeWhile (· ≠ slash)] := by
      conv_lhs => rw [hrel, List.splitOn_append_cons_self, List.splitOn_eq_singleton hclean]
    refine ⟨by rw [final, hsplit, List.getLastD_concat], ?_⟩
    rw [hd, List.dropLast_concat, parents, hsplit, List.dropLast_concat, dirComps]
  · have hall : ∀ c ∈ rel, decide (c ≠ slash) = true := by
      rintro c hc
      rw [decide_eq_true_eq]
      rintro rfl
      exact hm hc
    have hd : rel.rdropWhile (· ≠ slash) = [] := List.rdropWhile_eq_nil_iff.mpr hall
    have ht : rel.rtakeWhile (· ≠ slash) = rel := List.rtakeWhile_eq_self_iff.mpr hall
    have hsplit : rel.splitOn slash = [rel] := List.splitOn_eq_singleton hm
    exact ⟨by rw [ht, final, hsplit]; rfl, by rw [hd, parents, hsplit]; simp [dirComps]⟩

/-- The directory part of a path fits the buffer of `fat32_resolve`. -/
def DirFits (rel : Str) : Prop := (rel.rdropWhile (· ≠ slash)).dropLast.length < Vfs.pathMax

/-- **`fat32_resolve`** gives the entry that the clipped path leads to, if
the directory part fits. -/
theorem resolve_eq (hq : Quiet v) (rel : Str) (loc : Loc) :
    ((resolve g rel v).1 = fatOk ∧ (resolve g rel v).2.1 = some loc) ↔
      (rel = [] ∨ DirFits rel) ∧ FollowsVia clip g v rel loc := by
  rw [resolve, FollowsVia]
  by_cases hnil : rel = []
  · rw [if_pos hnil, if_pos hnil]
    simp [hnil, eq_comm]
  rw [if_neg hnil, if_neg hnil]
  obtain ⟨hfinal, hparents⟩ := split_parts rel
  rw [split, hfinal]
  by_cases hleaf : final rel = [] ∨ nameMax ≤ (final rel).length
  · rw [if_pos hleaf]
    refine iff_of_false (fun h => absurd h.1 (show Vfs.errInval ≠ fatOk by decide)) ?_
    rintro ⟨-, hne, d, -, hent⟩
    exact not_entryOf_of_long (hleaf.resolve_left hne) hent
  rw [if_neg hleaf]
  by_cases hdir : DirFits rel
  case neg =>
    rw [if_pos (not_lt.mp hdir)]
    exact iff_of_false (fun h => absurd h.1 (show Vfs.errInval ≠ fatOk by decide)) fun h =>
      h.1.elim hnil hdir
  rw [if_neg (not_le.mpr hdir)]
  dsimp only
  have hne : final rel ≠ [] := fun h => hleaf (.inl h)
  rw [← hparents, resolveDir]
  rcases resolveDirLoop_eq (g := g) hq _ (rel.rdropWhile (· ≠ slash)).dropLast g.rootClus le_rfl with
    ⟨d, hr, hw⟩ | ⟨hrc, hno⟩
  · rw [hr]
    dsimp only
    rw [if_neg (by decide)]
    have hiff : ((∃ d, Walks g v g.rootClus ((dirComps (rel.rdropWhile (· ≠ slash)).dropLast).map clip) d ∧
        EntryOf g v d (final rel) loc) ↔ EntryOf g v d (final rel) loc) := by
      refine ⟨?_, fun he => ⟨d, hw, he⟩⟩
      rintro ⟨d', hw', he⟩
      exact walks_unique hw hw' ▸ he
    rw [hiff]
    rcases dirLookup_eq (g := g) hq d (final rel) with ⟨loc', hl, hent⟩ | ⟨hl, hno⟩
    · rw [hl]
      dsimp only
      rw [if_neg (by decide), if_neg (by simp)]
      constructor
      · rintro ⟨-, h⟩
        obtain rfl := Option.some.inj h
        exact ⟨.inr hdir, hne, hent⟩
      · rintro ⟨-, -, he⟩
        rw [hent.unique he]
        exact ⟨rfl, rfl⟩
    · refine iff_of_false ?_ fun h => hno loc h.2.2
      rcases hl with hl | hl <;> rw [hl]
      · exact fun h => absurd h.1 (show Vfs.errNoent ≠ fatOk by decide)
      · exact fun h => absurd h.1 (show errIo ≠ fatOk by decide)
  · rcases hres : resolveDirLoop g (rel.rdropWhile (· ≠ slash)).dropLast.length
        (rel.rdropWhile (· ≠ slash)).dropLast g.rootClus v with ⟨rc, d, v'⟩
    rw [hres] at hrc
    dsimp only
    rw [if_pos hrc]
    refine iff_of_false (fun h => hrc h.1) ?_
    rintro ⟨-, -, d, hw, -⟩
    exact hno d hw

/-- Components that fit the buffer are not clipped. -/
theorem followsVia_clip (h : ∀ c ∈ parents rel, c.length < nameMax) :
    FollowsVia clip g v rel loc ↔ Follows g v rel loc := by
  have hmap : (parents rel).map clip = (parents rel).map id :=
    List.map_congr_left fun c hc => List.take_of_length_le (Nat.le_pred_of_lt (h c hc))
  rw [Follows, FollowsVia, FollowsVia, hmap]

/-- A component that is too long leads nowhere. -/
theorem not_follows_of_long (hc : name ∈ parents rel) (hlong : nameMax ≤ name.length) :
    ¬ Follows g v rel loc := by
  rw [Follows, FollowsVia]
  have hnil : rel ≠ [] := by
    rintro rfl
    exact absurd hc (by simp [parents])
  rw [if_neg hnil]
  rintro ⟨-, d, hw, -⟩
  rw [List.map_id] at hw
  exact not_walks_of_long hc hlong hw

/-- **When paths are followed exactly.** On a device that does not fail,
`fat32_resolve` succeeds with an entry if and only if the path leads to it,
for all entries, exactly when: the directory part fits its buffer, and no
component before the last is longer than 63 bytes, or the path with these
clipped leads nowhere; or the directory part does not fit, and the path
leads nowhere. -/
theorem resolve_follows_iff (hq : Quiet v) (rel : Str) :
    (∀ loc, ((resolve g rel v).1 = fatOk ∧ (resolve g rel v).2.1 = some loc) ↔ Follows g v rel loc) ↔
      (DirFits rel ∧ ((∀ c ∈ parents rel, c.length < nameMax) ∨ ∀ loc, ¬ FollowsVia clip g v rel loc)) ∨
      (¬ DirFits rel ∧ ∀ loc, ¬ Follows g v rel loc) := by
  by_cases hdir : DirFits rel
  · have hres : ∀ loc, ((resolve g rel v).1 = fatOk ∧ (resolve g rel v).2.1 = some loc) ↔
        FollowsVia clip g v rel loc := fun loc => by
      rw [resolve_eq hq]
      exact and_iff_right (.inr hdir)
    simp only [hres, hdir, true_and, not_true_eq_false, false_and, or_false]
    by_cases hall : ∀ c ∈ parents rel, c.length < nameMax
    · exact iff_of_true (fun loc => followsVia_clip hall) (.inl hall)
    · have hlong : ∃ c ∈ parents rel, nameMax ≤ c.length := by
        by_contra hno
        exact hall fun c hc => not_le.mp fun hle => hno ⟨c, hc, hle⟩
      obtain ⟨c, hc, hle⟩ := hlong
      rw [or_iff_right hall]
      exact forall_congr' fun loc => ⟨fun h hcl => not_follows_of_long hc hle (h.mp hcl),
        fun h => iff_of_false h (not_follows_of_long hc hle)⟩
  · have hnil : rel ≠ [] := by
      rintro rfl
      exact hdir (by simp [DirFits])
    have hres : ∀ loc, ¬ ((resolve g rel v).1 = fatOk ∧ (resolve g rel v).2.1 = some loc) := fun loc h =>
      (((resolve_eq hq rel loc).mp h).1).elim hnil hdir
    simp only [hdir, not_false_eq_true, true_and, false_and, false_or]
    exact forall_congr' fun loc => ⟨fun h hf => hres loc (h.mpr hf), fun h => iff_of_false (hres loc) h⟩

/-! ### A component that is too long -/

/-- A directory sector of some entries. -/
def dirSec (es : List Bytes) : Bytes := fun i => es.getD (i / 32) (Bytes.const 0) (i % 32)

/-- A name of `n` letters. -/
def longName (n : ℕ) : Str := List.replicate n 0x41

/-- A volume whose root has a directory with a name of 63 letters, and `X`
in that. -/
def Boot.nested : Vol :=
  { Boot.formatted with
    disk := fun lba =>
      if lba = 33 then
        let es := entriesOf (longName 63) (tildeName (longName 6) [] 1) true attrDir 3 0
        dirSec (es.1 ++ [es.2])
      else if lba = 34 then dirSec [makeSlot (rawName [0x58] []) attrDir 0 4 0]
      else Boot.formatted.disk lba }

/-- With 63 letters the path is followed exactly. -/
theorem resolve_follows_iff_nested :
    (∀ loc, ((resolve Boot.small (longName 63 ++ [slash, 0x58]) Boot.nested).1 = fatOk ∧
        (resolve Boot.small (longName 63 ++ [slash, 0x58]) Boot.nested).2.1 = some loc) ↔
      Follows Boot.small Boot.nested (longName 63 ++ [slash, 0x58]) loc) ↔
    (DirFits (longName 63 ++ [slash, 0x58]) ∧
        ((∀ c ∈ parents (longName 63 ++ [slash, 0x58]), c.length < nameMax) ∨
          ∀ loc, ¬ FollowsVia clip Boot.small Boot.nested (longName 63 ++ [slash, 0x58]) loc)) ∨
      (¬ DirFits (longName 63 ++ [slash, 0x58]) ∧
        ∀ loc, ¬ Follows Boot.small Boot.nested (longName 63 ++ [slash, 0x58]) loc) :=
  resolve_follows_iff (show Quiet Boot.nested from rfl) (longName 63 ++ [slash, 0x58])

/-- **Not every path is followed exactly.** A component of 64 letters is
taken for the name of 63. -/
theorem resolve_clipped : (resolve Boot.small (longName 64 ++ [slash, 0x58]) Boot.nested).1 = fatOk ∧
    ∀ loc, ¬ Follows Boot.small Boot.nested (longName 64 ++ [slash, 0x58]) loc :=
  ⟨by decide +kernel, fun _ => not_follows_of_long (show longName 64 ∈ parents _ by decide) (by decide)⟩

end Fat32

end Csos

import Csos.Fat32.Append
import Csos.Fat32.Insert
/-!
# FAT32 — the operations on directories keep the volume sound

Inserting, deleting and rewriting entries, and on them `fat32_create_dir`,
`fat32_truncate`, `fat32_mkdir`, `fat32_rmdir` and `fat32_open`. Each gives
up the slots it is about to write, changes the FAT while nothing is said of
them, and shows at the end that they hold what they should.
-/

namespace Csos

namespace Fat32

open Vfs (Str dot slash Plain Normal)

variable {g : Geo} {v v' v₁ : Vol} {a b c d h i j k n r s idx : ℕ} {l : List ℕ} {e : Bytes}
  {ch : Chain} {K : Prop} {X : Set (ℕ × ℕ)} {P P' : Plan} {name rel : Str} {loc : Loc}

/-! ## Inserting -/

/-- What a new entry may lead to: a new directory nothing else leads to, or
nothing. -/
def Fresh (g : Geo) (P : Plan) (v : Vol) (d : ℕ) (isDir : Bool) (c : ℕ) : Prop :=
  if isDir then c ∈ P.dirs ∧ c ≠ g.rootClus ∧ c ≠ d ∧ Unnamed g P v c else c = 0

/-- A directory other than `d` has no cluster in common with it. -/
theorem Tree.dir_of_place (ht : Tree g P X v) (hd : d ∈ P.dirs) (ha : P.At g r b j)
    (hb : b ∈ P.clusters d) : r = d := ht.disjoint r (.inl ha.1) d (.inl hd) b ha.2.1 hb

/-- **The entries of `fat32_dir_insert` settle**: long ones, then the short
one, before the seam. -/
theorem settle_insert (hg : g.Wf) (ht : Tree g P ∅ v) (hd : d ∈ P.dirs) {lfns : List Bytes} {se : Bytes}
    (hw : Rewrites g (P.clusters d) (group g (P.clusters d) idx (lfns.length + 1)) v v')
    (hhas : ∀ i < lfns.length + 1, HasSlot g (P.clusters d) (idx + i))
    (hend : idx + (lfns.length + 1) < 2 ^ 27)
    (hall : ∀ i (hi : i < (lfns ++ [se]).length),
      dirSlot g v' (P.clusters d) (idx + i) = cut (lfns ++ [se])[i])
    (hlfns : ∀ e ∈ lfns, e 11 = attrLfn) (hse : ¬ IsDot se) (hattr : se 11 ≠ attrLfn)
    (hlead : Leads g P d se)
    (hnew : entClus se ≠ 0 → Unnamed g P v (entClus se)) : Tree g P ∅ v' := by
  have htw := ht.rewrites hg hw
  rw [Set.empty_union] at htw
  have hnd := (ht.dir_chain hd).nodup
  -- a slot of the group holds part of the long name or the short entry
  have hcase : ∀ p ∈ group g (P.clusters d) idx (lfns.length + 1),
      (slot g v' p.1 p.2 11 = attrLfn) ∨
        p = place g (P.clusters d) (idx + lfns.length) ∧ slot g v' p.1 p.2 = cut se := by
    rintro p ⟨i, hi, rfl⟩
    have hslot := hall i (by simpa using hi)
    rcases Nat.lt_succ_iff_lt_or_eq.mp hi with hlt | rfl
    · refine .inl ?_
      rw [List.getElem_append_left hlt] at hslot
      rw [← dirSlot, hslot, cut_apply (by omega)]
      exact hlfns _ (List.getElem_mem hlt)
    · refine .inr ⟨rfl, ?_⟩
      rw [← dirSlot, hslot]
      simp
  have hdir : ∀ r c j, P.At g r c j → (c, j) ∈ group g (P.clusters d) idx (lfns.length + 1) → r = d := by
    rintro r c j ha ⟨i, hi, he⟩
    refine ht.dir_of_place hd ha ?_
    have := place_mem (hhas i hi)
    rwa [← he] at this
  have hlive : ∀ c j, (c, j) ∈ group g (P.clusters d) idx (lfns.length + 1) → Live (slot g v' c j) →
      (c, j) = place g (P.clusters d) (idx + lfns.length) ∧ slot g v' c j = cut se := by
    intro c j hX hl
    rcases hcase _ hX with hatt | hp
    · exact absurd hatt hl.1.2.2.1
    · exact hp
  have hnodot : ∀ c j, (c, j) ∈ group g (P.clusters d) idx (lfns.length + 1) → ¬ IsDot (slot g v' c j) := by
    intro c j hX hdot
    rcases hcase _ hX with hatt | hp
    · exact hdot.1.2.2.1 hatt
    · rw [hp.2, cut_isDot] at hdot
      exact hse hdot
  refine htw.settle (fun r c j ha hX hl => ?_) (fun r c j r' c' j' ha ha' hX hl hl' hz he => ?_)
    (fun r c j _ hX hdot => absurd hdot (hnodot c j hX)) (fun r hr hX hdot => ?_)
    fun r hr hs hX => ?_
  · obtain ⟨-, hcut⟩ := hlive c j hX hl
    rw [hdir r c j ha hX, hcut, Leads, entClus_cut, cut_apply (by omega)]
    exact hlead
  · obtain ⟨hp, hcut⟩ := hlive c j hX hl
    by_cases hX' : (c', j') ∈ group g (P.clusters d) idx (lfns.length + 1)
    · rw [hp, (hlive c' j' hX' hl').1]
    · -- another entry that leads there would have been one before
      have hold : slot g v' c' j' = slot g v c' j' := by
        by_cases hc' : c' ∈ P.clusters d
        · exact hw.other c' hc' j' ha'.2.2 hX'
        · refine cut_congr fun i hi => ?_
          exact hw.touches.byte_eq hg ((ht.dir_chain ha'.1).valid ha'.2.1) hc'
            (hg.slot_end ha'.2.2 hi)
      rw [hcut, entClus_cut] at hz he
      rw [hold] at hl' he
      exact absurd he.symm (hnew hz r' c' j' ha' hl')
  · have hfront := fun j (hj : j ≤ 1) => place_front htw hg hr hj
    have hat : ∀ j ≤ 1, P.At g r r j := fun j hj => by
      have := Tree.at_place hg hr (hfront j hj).1
      rwa [(hfront j hj).2] at this
    rcases hX with hX | hX
    · obtain rfl := hdir r r 0 (hat 0 (by omega)) hX
      -- a long name at slot 0 would reach over slot 1
      obtain ⟨i, hi, he⟩ := id hX
      rw [← (hfront 0 (by omega)).2] at he
      have h0 := hg.place_inj hnd (hfront 0 (by omega)).1 (hhas i hi) he
      have hlen : lfns.length = 0 := by
        by_contra hne
        refine hnodot r 1 ⟨1, by omega, ?_⟩ hdot
        rw [← (hfront 1 le_rfl).2]
        congr 1
        omega
      intro hl
      have hcut := (hcase _ hX).resolve_left fun hatt => ?_
      · rw [hcut.2, cut_isLfn] at hl
        exact hattr hl.2.2
      · obtain rfl : lfns = [] := List.length_eq_zero_iff.mp hlen
        have hslot := hall 0 (by simp)
        obtain rfl : i = 0 := by omega
        rw [← h0, dirSlot, (hfront 0 (by omega)).2] at hslot
        rw [hslot, cut_apply (by omega)] at hatt
        exact hattr (by simpa using hatt)
    · exact absurd hdot (hnodot r 1 hX)
  · obtain rfl := hdir r _ _ (Tree.at_place hg hr hs) hX
    obtain ⟨i, hi, he⟩ := hX
    have := hg.place_inj hnd hs (hhas i hi) he
    omega

/-- What `loc` says is in slot `k` of the directory `d`, a short entry other
than `.` and `..`. -/
structure Placed (g : Geo) (P : Plan) (v : Vol) (d k : ℕ) (loc : Loc) : Prop where
  dir : d ∈ P.dirs
  dirClus : loc.dirClus = d
  has : HasSlot g (P.clusters d) k
  small : k < 2 ^ 27
  off : loc.off = k * 32
  clus : loc.clus = entClus (dirSlot g v (P.clusters d) k)
  attr : loc.attr = dirSlot g v (P.clusters d) k 11
  dot : ¬ IsDot (dirSlot g v (P.clusters d) k)
  short : dirSlot g v (P.clusters d) k 11 ≠ attrLfn

theorem Found.placed (h : Found g P v d k loc) : Placed g P v d k loc :=
  ⟨h.dir, h.dirClus, h.has, h.small, h.off, h.clus, h.attr, h.live.2, h.live.1.2.2.1⟩

theorem Plan.grown_leads {isDir : Bool} (hdirs : P'.dirs = P.dirs) (hf : Fresh g P v d isDir c)
    {raw : Bytes} {size : ℕ} (hc : c < 2 ^ 32) :
    Leads g P' d (makeSlot raw (if isDir then attrDir else attrArch) 0 c size) := by
  rw [Leads, makeSlot_attr, entClus_makeSlot hc, hdirs]
  cases isDir with
  | true =>
    rw [if_pos (by decide)]
    exact ⟨hf.1, hf.2.1, hf.2.2.1⟩
  | false =>
    rw [if_neg (by decide)]
    exact .inl hf

/-- The slots of a directory before an offset. -/
theorem hasSlot_of_le (hk : (k + 1) * 32 ≤ l.length * g.clusBytes) : HasSlot g l k :=
  Nat.div_lt_of_lt_mul (by rw [Nat.mul_comm g.clusBytes]; omega)

/-- The writes of `fat32_dir_insert`, where there is room. -/
theorem insertWrite_quiet (hg : g.Wf) (hs : Sound g K P ∅ v) (hd : d ∈ P.dirs) {isDir : Bool}
    (hf : Fresh g P v d isDir c) (hc : c < 2 ^ 32) (size : ℕ) {raw : Bytes} (hdot : raw 0 ≠ dot)
    {lfns : List Bytes} (hlfn : ∀ e ∈ lfns, e 11 = attrLfn) (hcur : Cursor g (P.clusters d) ch)
    (hin : (idx + (lfns.length + 1)) * 32 ≤ (P.clusters d).length * g.clusBytes)
    (hend : idx + (lfns.length + 1) < 2 ^ 27) :
    ∃ loc v', insertWrite g d name isDir c size raw lfns idx ch v = (fatOk, some loc, v') ∧
      Sound g K P ∅ v' ∧ (∃ k, Placed g P v' d k loc) ∧ loc.clus = c ∧
      loc.attr = if isDir then attrDir else attrArch := by
  obtain ⟨se, hse⟩ : ∃ se, se = makeSlot raw (if isDir = true then attrDir else attrArch) 0 c size :=
    ⟨_, rfl⟩
  have hch := hs.dir_chain hd
  have hhas : ∀ i < lfns.length + 1, HasSlot g (P.clusters d) (idx + i) := by
    intro i hi
    refine hasSlot_of_le (le_trans ?_ hin)
    exact Nat.mul_le_mul_right 32 (by omega)
  have hlen : (lfns ++ [se]).length = lfns.length + 1 := by simp
  have hhas' : ∀ i < (lfns ++ [se]).length, HasSlot g (P.clusters d) (idx + i) := by
    rw [hlen]
    exact hhas
  have hend' : idx + (lfns ++ [se]).length ≤ 2 ^ 27 := by
    rw [hlen]
    exact hend.le
  obtain ⟨v', hr, hw, hall⟩ := writeSlots_quiet hg (lfns ++ [se]) idx ch v hs.quiet hch hcur hhas' hend'
  rw [hlen] at hw
  have hattr : se 11 = if isDir = true then attrDir else attrArch := by rw [hse, makeSlot_attr]
  have hclus : entClus se = c := by rw [hse, entClus_makeSlot hc]
  have hne : se 11 ≠ attrLfn := by
    rw [hattr]
    cases isDir <;> decide
  have hnew : entClus se ≠ 0 → Unnamed g P v (entClus se) := by
    rw [hclus]
    intro hz
    cases isDir with
    | true => exact hf.2.2.2
    | false => exact absurd hf hz
  have hlead : Leads g P d se := by
    rw [hse]
    exact Plan.grown_leads rfl hf hc
  have hsdot : ¬ IsDot se := by
    rw [hse]
    exact not_isDot_makeSlot hdot
  have htree := settle_insert hg hs.toTree hd hw hhas hend hall hlfn hsdot hne hlead hnew
  have hoff : (idx + lfns.length) * 32 % 2 ^ 32 = (idx + lfns.length) * 32 := Nat.mod_eq_of_lt (by omega)
  have hlast := hall lfns.length (by simp)
  rw [List.getElem_concat_length rfl] at hlast
  refine ⟨⟨d, (idx + lfns.length) * 32 % 2 ^ 32, idx * 32 % 2 ^ 32, c, size,
    if isDir = true then attrDir else attrArch, Vfs.strncpy name nameMax⟩, v', ?_,
    hs.of_tree hw.touches htree (fun hm => hm.of_touches hw.touches)
      (Sound.freeSet_eq hg hw.touches) hw.count hw.known,
    ⟨idx + lfns.length, hd, rfl, hhas _ (by omega), by omega, hoff, ?_, ?_, ?_, ?_⟩,
    rfl, rfl⟩
  · rw [insertWrite]
    dsimp only
    rw [← hse, hr]
    rfl
  · rw [hlast, entClus_cut, hclus]
  · rw [hlast, cut_apply (by omega), hattr]
  · rwa [hlast, cut_isDot]
  · rwa [hlast, cut_apply (by omega)]

/-- **How `fat32_dir_insert` ends**: with an entry that leads to `c`, or with
nothing but blank clusters at the end of the directory. -/
def InsertEnd (g : Geo) (P : Plan) (v : Vol) (d : ℕ) (isDir : Bool) (c : ℕ) (rc : ℤ) (o : Option Loc)
    (P' : Plan) (v' : Vol) : Prop :=
  rc ≠ fatOk ∧ o = none ∧ Extends g P v P' v' ∨
    rc = fatOk ∧ ∃ loc k, o = some loc ∧ Placed g P' v' d k loc ∧ loc.clus = c ∧
      loc.attr = if isDir then attrDir else attrArch

theorem Fresh.extends {isDir : Bool} (hf : Fresh g P v d isDir c) (hx : Extends g P v P' v') :
    Fresh g P' v' d isDir c := by
  rw [Fresh] at hf ⊢
  cases isDir with
  | true => exact ⟨hx.dirs ▸ hf.1, hf.2.1, hf.2.2.1, hf.2.2.2.extends hx⟩
  | false => exact hf

/-- The part of `fat32_dir_insert` that makes room and writes. -/
theorem insertRoom_quiet (hg : g.Wf) (hs : Sound g K P ∅ v) (hd : d ∈ P.dirs) {isDir : Bool}
    (hf : Fresh g P v d isDir c) (hc : c < 2 ^ 32) (size : ℕ) {raw : Bytes} (hdot : raw 0 ≠ dot)
    {lfns : List Bytes} (hlfn : ∀ e ∈ lfns, e 11 = attrLfn) (hlen : lfns.length ≤ 20)
    (hidx : idx ≤ 2 ^ 27) (grow : Bool) (hcur : Cursor g (P.clusters d) ch) (hst : ch.start = d) :
    ∃ rc o P' v', insertRoom g d name isDir c size raw lfns idx grow ch v = (rc, o, v') ∧
      Sound g K P' ∅ v' ∧ P'.dirs = P.dirs ∧ P'.files = P.files ∧
      InsertEnd g P v d isDir c rc o P' v' := by
  have hcount : chainCount g ch v = ((P.clusters d).length, v) :=
    chainCount_quiet hg hs.quiet (by rw [hst]; exact hs.dir_chain hd)
  obtain ⟨total, htotal⟩ : ∃ t, t = (P.clusters d).length * g.clusBytes % 2 ^ 32 := ⟨_, rfl⟩
  have htlt : total < 2 ^ 32 := htotal ▸ Nat.mod_lt _ (by norm_num)
  have htle : total ≤ (P.clusters d).length * g.clusBytes := htotal ▸ Nat.mod_le _ _
  obtain ⟨at_, hat⟩ : ∃ i, i = if grow = true then total / 32 else idx := ⟨_, rfl⟩
  have hatle : at_ ≤ 2 ^ 27 := by
    rw [hat]
    split <;> omega
  obtain ⟨rc, ch', P', v₁, hr, hs₁, hx, hcur', hst', hroom⟩ :=
    growLoop_quiet hg at_ (lfns.length + 1) (g.clusterCount + 2) total ch P v hd hs hcur hst htle htlt
  simp only [insertRoom, hcount, ← htotal, ← hat, hr]
  by_cases hrc : rc = fatOk
  case neg =>
    rw [if_pos hrc]
    exact ⟨rc, none, P', v₁, rfl, hs₁, hx.dirs, hx.files, .inl ⟨hrc, rfl, hx⟩⟩
  rw [if_neg (not_not.mpr hrc)]
  obtain ⟨hin, hlt⟩ := hroom hrc
  have hmod : (at_ + (lfns.length + 1)) % 2 ^ 32 = at_ + (lfns.length + 1) := Nat.mod_eq_of_lt (by omega)
  rw [hmod] at hin hlt
  obtain ⟨loc, v', hr', hs', ⟨k, hk⟩, hclus, hattr⟩ := insertWrite_quiet hg hs₁ (hx.dirs ▸ hd)
    (hf.extends hx) hc size hdot hlfn hcur' hin (by omega)
  exact ⟨fatOk, some loc, P', v', hr', hs', hx.dirs, hx.files, .inr ⟨rfl, loc, k, rfl, hk, hclus, hattr⟩⟩

/-- **`fat32_dir_insert`** keeps the volume sound. -/
theorem dirInsert_quiet (hg : g.Wf) (hs : Sound g K P ∅ v) (hd : d ∈ P.dirs) (name : Str) {isDir : Bool}
    (hf : Fresh g P v d isDir c) (hc : c < 2 ^ 32) (size : ℕ) :
    ∃ rc o P' v', dirInsert g d name isDir c size v = (rc, o, v') ∧ Sound g K P' ∅ v' ∧
      P'.dirs = P.dirs ∧ P'.files = P.files ∧ InsertEnd g P v d isDir c rc o P' v' := by
  obtain ⟨o, v₁, hr, hsame, hraw⟩ := makeShort_quiet hg hs hd name
  have hs₁ := hsame.sound hs hg
  have hx : Extends g P v P v₁ := .of_same hsame
  rw [dirInsert, hr]
  rcases o with _ | ⟨raw, needLfn⟩
  · exact ⟨errNospc, none, P, v₁, rfl, hs₁, rfl, rfl, .inl ⟨by decide, rfl, hx⟩⟩
  obtain ⟨lfns, hl⟩ : ∃ l, l = if needLfn = true then buildLfn name raw else [] := ⟨_, rfl⟩
  have hlfn : ∀ e ∈ lfns, e 11 = attrLfn := by
    intro e he
    rw [hl] at he
    split at he
    · exact buildLfn_attr he
    · exact absurd he (by simp)
  have hlen : lfns.length ≤ 20 := by
    rw [hl]
    split
    · rw [buildLfn, List.length_map, List.length_range, lfnCount]
      exact min_le_right _ _
    · simp
  -- the slots
  have hcount : chainCount g (chainInit d) v₁ = ((P.clusters d).length, v₁) :=
    chainCount_quiet hg hs₁.quiet (hs₁.dir_chain hd)
  obtain ⟨total, htotal⟩ : ∃ t, t = (P.clusters d).length * g.clusBytes % 2 ^ 32 := ⟨_, rfl⟩
  have htlt : total < 2 ^ 32 := htotal ▸ Nat.mod_lt _ (by norm_num)
  obtain ⟨idx, grow, ch, hfind, hidx, hcur, hst⟩ := findLoop_quiet hg hs₁ hd (lfns.length + 1) total
    (total / 32 + 1) (chainInit d) 0 0 0 (hs₁.dir_chain hd).cursor_init rfl le_rfl
  have hidx' : idx ≤ 2 ^ 27 := by omega
  obtain ⟨rc, o, P', v', hr', hs', hdirs, hfiles, hend⟩ := insertRoom_quiet hg hs₁ hd
    (hf.extends hx) hc size (hraw raw needLfn rfl) hlfn hlen hidx' grow hcur hst
  refine ⟨rc, o, P', v', ?_, hs', hdirs, hfiles, ?_⟩
  · show insertNamed g d name isDir c size raw needLfn v₁ = _
    simp only [insertNamed, findSlots, ← hl, hcount, ← htotal, hfind]
    rw [if_neg (by decide), hr']
  · rcases hend with ⟨h1, h2, h3⟩ | h
    · exact .inl ⟨h1, h2, hx.trans h3⟩
    · exact .inr h

/-! ## Rewriting an entry -/

theorem setEntry_apply (clus size : ℕ) (hi : i < 20) : setEntry clus size e i = e i := by
  rw [setEntry, Bytes.store_apply_of_notMem (by omega), Bytes.store_apply_of_notMem (by omega),
    Bytes.store_apply_of_notMem (by omega)]

theorem entClus_setEntry (size : ℕ) (hc : c < 2 ^ 32) : entClus (setEntry c size e) = c := by
  have hlo : Bytes.load 2 (setEntry c size e) 26 = c % 2 ^ 16 := by
    rw [setEntry, Bytes.load_store_of_disjoint (by omega), Bytes.load_store_self_of_lt]
    omega
  have hhi : Bytes.load 2 (setEntry c size e) 20 = c / 2 ^ 16 % 2 ^ 16 := by
    rw [setEntry, Bytes.load_store_of_disjoint (by omega), Bytes.load_store_of_disjoint (by omega),
      Bytes.load_store_self_of_lt]
    omega
  rw [entClus, hlo, hhi]
  omega

/-- An entry is what its name and its attributes make it. -/
theorem isDot_congr {e' : Bytes} (h : ∀ i < 20, e' i = e i) : IsDot e' ↔ IsDot e := by
  have hname : ∀ b : Bytes, (∀ i < 11, e' i = b i) ↔ ∀ i < 11, e i = b i := fun b =>
    forall₂_congr fun i hi => by rw [h i (by omega)]
  rw [IsDot, IsDot, hname, hname, IsEntry, IsEntry, h 0 (by omega), h 11 (by omega)]

/-- **The entry of a file**: slot `k` of the directory `d`, at the offset
`off`. -/
structure FileSlot (g : Geo) (P : Plan) (v : Vol) (d k dirClus off : ℕ) : Prop where
  dir : d ∈ P.dirs
  dirClus : dirClus = d
  has : HasSlot g (P.clusters d) k
  small : k < 2 ^ 27
  off : off = k * 32
  dot : ¬ IsDot (dirSlot g v (P.clusters d) k)
  short : dirSlot g v (P.clusters d) k 11 ≠ attrLfn
  file : dirSlot g v (P.clusters d) k 11 &&& attrDir = 0

theorem Placed.fileSlot (h : Placed g P v d k loc) (hfile : loc.attr &&& attrDir = 0) :
    FileSlot g P v d k loc.dirClus loc.off :=
  ⟨h.dir, h.dirClus, h.has, h.small, h.off, h.dot, h.short, h.attr ▸ hfile⟩

/-- Nothing but the entry at `p` leads to `c`. -/
def OnlyAt (g : Geo) (P : Plan) (v : Vol) (p : ℕ × ℕ) (c : ℕ) : Prop :=
  ∀ d b j, P.At g d b j → Live (slot g v b j) → entClus (slot g v b j) = c → (b, j) = p

/-- **`fat32_update_entry`** on the entry of a file. -/
theorem updateEntry_sound (hg : g.Wf) {dirClus off : ℕ} (hF : FileSlot g P v d k dirClus off)
    (hs : Sound g K P {place g (P.clusters d) k} v) (hc : c = 0 ∨ c ∈ P.files)
    (honly : c ≠ 0 → OnlyAt g P v (place g (P.clusters d) k) c) (size : ℕ) :
    ∃ v', updateEntry g dirClus off c size v = (fatOk, v') ∧ Sound g K P ∅ v' ∧
      FileSlot g P v' d k dirClus off ∧ (c ≠ 0 → OnlyAt g P v' (place g (P.clusters d) k) c) ∧
      dirSlot g v' (P.clusters d) k = cut (setEntry c size (dirSlot g v (P.clusters d) k)) := by
  have hch := hs.dir_chain hF.dir
  obtain ⟨p, hp⟩ : ∃ p, p = place g (P.clusters d) k := ⟨_, rfl⟩
  rw [← hp] at hs honly ⊢
  have hat : P.At g d p.1 p.2 := hp ▸ Tree.at_place hg hF.dir hF.has
  obtain ⟨v', hr, hw, he⟩ := updateEntry_quiet hg hs.quiet hch hF.has hF.small c size
  have hc32 : c < 2 ^ 32 := by
    have := hg.marks
    rcases hc with rfl | hc
    · norm_num
    · have := (hg.valid_iff.mp (hs.head_valid (.inr hc))).2
      omega
  obtain ⟨e', he'⟩ : ∃ e', e' = dirSlot g v' (P.clusters d) k := ⟨_, rfl⟩
  have hsame : ∀ i < 20, e' i = dirSlot g v (P.clusters d) k i := fun i hi => by
    rw [he', he, cut_apply (by omega), setEntry_apply c size hi]
  have hclus : entClus e' = c := by rw [he', he, entClus_cut, entClus_setEntry size hc32]
  have hslot : slot g v' p.1 p.2 = e' := by rw [he', hp]; rfl
  -- the slots that are not rewritten
  have hother : ∀ r b j, P.At g r b j → (b, j) ≠ p → slot g v' b j = slot g v b j := by
    intro r b j ha hne
    by_cases hb : b ∈ P.clusters d
    · exact hw.other b hb j ha.2.2 fun hm => hne (hm.trans hp.symm)
    · exact cut_congr fun i hi =>
        hw.touches.byte_eq hg ((hs.dir_chain ha.1).valid ha.2.1) hb (hg.slot_end ha.2.2 hi)
  have honly' : c ≠ 0 → OnlyAt g P v' p c := by
    intro hz r b j ha hl hcb
    by_contra hne
    rw [hother r b j ha hne] at hl hcb
    exact hne (honly hz r b j ha hl hcb)
  have hfile' : e' 11 &&& attrDir = 0 := by rw [hsame 11 (by omega)]; exact hF.file
  have hshort' : e' 11 ≠ attrLfn := by rw [hsame 11 (by omega)]; exact hF.short
  have hdot' : ¬ IsDot e' := by rw [isDot_congr hsame]; exact hF.dot
  have hlfn' : ¬ IsLfn e' := fun h => hshort' h.2.2
  have hF' : FileSlot g P v' d k dirClus off :=
    ⟨hF.dir, hF.dirClus, hF.has, hF.small, hF.off, he' ▸ hdot', he' ▸ hshort', he' ▸ hfile'⟩
  have hrew := hs.toTree.rewrites hg (d := d) hw
  rw [← hp, Set.union_self] at hrew
  have hat_eq : ∀ {b j : ℕ}, (b, j) ∈ ({p} : Set (ℕ × ℕ)) → slot g v' b j = e' := by
    intro b j hm
    obtain rfl : (b, j) = p := hm
    exact hslot
  have htree : Tree g P ∅ v' := by
    refine hrew.settle (fun r b j ha hm hl => ?_) (fun r b j r' b' j' ha ha' hm hl hl' hz heq => ?_)
      (fun r b j _ hm hdot => ?_) (fun r hr hm hdot => ?_) fun r hr hsl hm => ?_
    · rw [hat_eq hm, Leads, if_neg (not_not.mpr hfile'), hclus]
      exact hc
    · rw [hat_eq hm, hclus] at hz heq
      exact (Set.mem_singleton_iff.mp hm).trans (honly' hz r' b' j' ha' hl' heq.symm).symm
    · rw [hat_eq hm] at hdot
      exact absurd hdot hdot'
    · rcases hm with hm | hm
      · rw [hat_eq hm]
        exact hlfn'
      · rw [hat_eq hm] at hdot
        exact absurd hdot hdot'
    · have hseam : dirSlot g v' (P.clusters r) (2 ^ 27 - 1) = e' :=
        hat_eq (b := (place g (P.clusters r) (2 ^ 27 - 1)).1) hm
      rw [hseam]
      exact hlfn'
  refine ⟨v', by rw [hF.dirClus, hF.off, hr], ?_, hF', honly', he⟩
  exact hs.of_tree hw.touches htree (fun hm => hm.of_touches hw.touches)
    (Sound.freeSet_eq hg hw.touches) hw.count hw.known

/-- **`fat32_truncate`** frees the clusters of the file, if it has any. -/
theorem truncate_quiet (hg : g.Wf) (hs : Sound g K P ∅ v) (hF : FileSlot g P v d k loc.dirClus loc.off)
    (hc : loc.clus = 0 ∨ loc.clus ∈ P.files)
    (honly : loc.clus ≠ 0 → OnlyAt g P v (place g (P.clusters d) k) loc.clus) :
    ∃ P' v', truncate g loc v = v' ∧ Sound g K P' ∅ v' ∧ FileSlot g P' v' d k loc.dirClus loc.off := by
  have hs₁ : Sound g K P {place g (P.clusters d) k} v := hs.mono (Set.empty_subset _)
  rw [truncate]
  by_cases hz : loc.clus = 0
  · rw [hz, if_neg (by simp [clusValid])]
    obtain ⟨v', hr, hs', hF', -⟩ := updateEntry_sound hg hF hs₁ (.inl rfl) (by simp) 0
    exact ⟨P, v', by rw [hr], hs', hF'⟩
  have hfile := hc.resolve_left hz
  rw [if_pos (hs.head_valid (.inr hfile))]
  -- nothing but the entry leads to the chain
  have hroot : loc.clus ≠ g.rootClus := fun he => Set.disjoint_left.mp hs.apart hs.root (he ▸ hfile)
  obtain ⟨hs₂, hfreed⟩ := hs₁.free hg (.inr hfile) hroot fun r b j ha hn hl he =>
    hn (honly hz r b j ha hl he)
  have hdne : d ≠ loc.clus := fun he => Set.disjoint_left.mp hs.apart hF.dir (he ▸ hfile)
  have hslot : dirSlot g (freeChain g loc.clus v) (P.clusters d) k = dirSlot g v (P.clusters d) k :=
    cut_congr fun i hi => hfreed.touches.byte_eq hg ((hs.dir_chain hF.dir).valid (place_mem hF.has))
      (by simp) (hg.slot_end (hg.place_off _ _).2 hi)
  have hF₂ : FileSlot g (P.drop loc.clus) (freeChain g loc.clus v) d k loc.dirClus loc.off :=
    ⟨⟨hF.dir, hdne⟩, hF.dirClus, hF.has, hF.small, hF.off, hslot ▸ hF.dot, hslot ▸ hF.short,
      hslot ▸ hF.file⟩
  obtain ⟨v', hr, hs', hF', -⟩ := updateEntry_sound hg hF₂ hs₂ (.inl rfl) (by simp) 0
  exact ⟨P.drop loc.clus, v', by rw [hr], hs', hF'⟩

/-! ## Deleting -/

/-- The rounds of `fat32_delete_slots`. -/
theorem deleteLoop_quiet (hg : g.Wf) : ∀ (n i : ℕ) (ch : Chain) (v : Vol), Quiet v →
    IsChain g v s l → Cursor g l ch → i + n ≤ 2 ^ 27 → (∀ j < n, HasSlot g l (i + j)) →
    ∃ v', deleteLoop g n i ch v = v' ∧ Rewrites g l (group g l i n) v v' ∧
      ∀ j < n, dirSlot g v' l (i + j) 0 = 0xe5 := by
  intro n
  induction n with
  | zero =>
    intro i ch v _ _ _ _ _
    exact ⟨v, rfl, .refl g l v, fun j hj => absurd hj (by omega)⟩
  | succ n ih =>
    intro i ch v hq hch hcur hend hhas
    have hmod : i % 2 ^ 27 = i := Nat.mod_eq_of_lt (by omega)
    have h0 : HasSlot g l i := hhas 0 (by omega)
    have h0' : HasSlot g l (i % 2 ^ 27) := by rwa [hmod]
    obtain ⟨ch₁, -, hcur₁, hread⟩ := entRead_quiet hg hq hch hcur i
    have hr₁ : entRead g ch i v = (fatOk, dirSlot g v l i, ch₁, v) := by
      rcases hread with ⟨-, hr⟩ | ⟨hno, -⟩
      · rwa [hmod] at hr
      · exact absurd h0' hno
    obtain ⟨ch₂, v₂, hr₂, -, hcur₂, hw₂, he₂⟩ :=
      entWrite_quiet hg hq hch hcur₁ h0' (Function.update (dirSlot g v l i) 0 0xe5)
    rw [hmod] at hw₂ he₂
    have hnext : ∀ j < n, HasSlot g l (i + 1 + j) := fun j hj => by
      have := hhas (j + 1) (by omega)
      rwa [show i + (j + 1) = i + 1 + j by omega] at this
    obtain ⟨v', hr, hw, hall⟩ := ih (i + 1) ch₂ v₂ (hw₂.touches.quiet hq)
      (hch.touches hg hw₂.touches (by simp)) hcur₂ (by omega) hnext
    refine ⟨v', ?_, (hw₂.trans hw).mono ?_, fun j hj => ?_⟩
    · rw [deleteLoop, hr₁]
      dsimp only
      rw [if_neg (by decide), hr₂]
      dsimp only
      rw [if_neg (by decide), hr]
    · rintro p (rfl | ⟨j, hj, rfl⟩)
      · exact ⟨0, by simp, rfl⟩
      · exact ⟨j + 1, by simpa using hj, by rw [show i + 1 + j = i + (j + 1) by omega]⟩
    · cases j with
      | zero =>
        -- the slots after this one are at other places
        have hkeep : dirSlot g v' l i = dirSlot g v₂ l i := by
          refine hw.other _ (place_mem h0) _ (hg.place_off _ _).2 ?_
          rintro ⟨j, hj', he⟩
          have := hg.place_inj hch.nodup h0 (hnext j hj') he
          omega
        rw [Nat.add_zero, hkeep, he₂, cut_apply (by omega), Function.update_self]
      | succ j =>
        rw [show i + (j + 1) = i + 1 + j by omega]
        exact hall j (by omega)

/-- **`fat32_delete_slots`** on the range of an entry. -/
theorem deleteSlots_sound (hg : g.Wf) {W : Set (ℕ × ℕ)} {a : ℕ} (hs : Sound g K P W v) (hd : d ∈ P.dirs)
    (hk : HasSlot g (P.clusters d) k) (hlt : k < 2 ^ 27) (ha : a ≤ k)
    (hW : W ⊆ group g (P.clusters d) a (k + 1 - a)) :
    ∃ v', deleteSlots g d (a * 32) (k * 32) v = v' ∧ Sound g K P ∅ v' := by
  have hch := hs.dir_chain hd
  have hhas : ∀ j < k + 1 - a, HasSlot g (P.clusters d) (a + j) := fun j hj =>
    lt_of_le_of_lt (Nat.div_le_div_right (by omega)) hk
  have hdiv : ∀ x, x * 32 / 32 = x := fun x => Nat.mul_div_cancel x (by norm_num)
  obtain ⟨v', hr, hw, hall⟩ := deleteLoop_quiet hg (k + 1 - a) a (chainInit d) v hs.quiet hch
    hch.cursor_init (by omega) hhas
  have hrew := hs.toTree.rewrites hg (d := d) hw
  rw [Set.union_eq_right.mpr hW] at hrew
  have htree : Tree g P ∅ v' := by
    refine hrew.settle_dead (fun r b j _ hm => ?_) hg
    obtain ⟨i, hi, hp⟩ := hm
    have he : slot g v' b j 0 = 0xe5 := by
      have := hall i hi
      rwa [dirSlot, ← hp] at this
    exact ⟨fun h => h.2.1 he, fun h => h.2.1 he⟩
  refine ⟨v', ?_, hs.of_tree hw.touches htree (fun hm => hm.of_touches hw.touches)
    (Sound.freeSet_eq hg hw.touches) hw.count hw.known⟩
  rw [deleteSlots, hdiv, hdiv]
  exact hr

theorem dirIsEmptyLoop_quiet (hg : g.Wf) (hs : Sound g K P X v) (hd : d ∈ P.dirs) :
    ∀ (fuel : ℕ) (ch : Chain) (i : ℕ), Cursor g (P.clusters d) ch →
      ∃ x v', dirIsEmptyLoop g fuel ch i v = (x, v') ∧ Same v v' := by
  intro fuel
  induction fuel with
  | zero =>
    intro ch i _
    exact ⟨false, v.hung, rfl, .inr rfl⟩
  | succ fuel ih =>
    intro ch i hcur
    obtain ⟨ch', -, hcur', hread⟩ := entRead_quiet hg hs.quiet (hs.dir_chain hd) hcur i
    have hne : (fatOk : ℤ) ≠ errEof := by decide
    rw [dirIsEmptyLoop]
    rcases hread with ⟨-, hr⟩ | ⟨-, hr⟩
    · simp only [hr, hne, if_false, ne_eq, not_true_eq_false]
      split
      · exact ⟨true, v, rfl, .refl v⟩
      split
      · exact ih ch' (i + 1) hcur'
      · exact ⟨false, v, rfl, .refl v⟩
    · exact ⟨true, v, by simp only [hr, if_true], .refl v⟩

theorem dirIsEmpty_quiet (hg : g.Wf) (hs : Sound g K P X v) (hd : d ∈ P.dirs) :
    ∃ x v', dirIsEmpty g d v = (x, v') ∧ Same v v' :=
  dirIsEmptyLoop_quiet hg hs hd rounds _ 0 (hs.dir_chain hd).cursor_init

/-! ## New directories -/

/-- Nothing leads to a directory that has just been taken. -/
theorem unnamed_of_taken (hg : g.Wf) (hs : Sound g K P ∅ v) (hT : Taken g c v v₁) :
    Unnamed g (P.addDir c) v₁ c := by
  have hnew : ∀ h ∈ P.heads, h ≠ c := fun h hh he => hs.taken_new hT h hh (he ▸ hs.head_mem hh)
  rintro r b j ⟨hr, hb, hj⟩ hl he
  by_cases hrc : r = c
  · -- its own slots are blank
    have hself : (P.addDir c).clusters c = [c] := Function.update_self ..
    rw [hrc, hself, List.mem_singleton] at hb
    rw [hb] at hl
    exact not_live_of_blank (Sound.blank_of_taken hg hT hj) hl
  · have hold : (P.addDir c).clusters r = P.clusters r := Function.update_of_ne hrc _ _
    have ha : P.At g r b j := ⟨hr.resolve_left hrc, hold ▸ hb, hj⟩
    have hlead := (hs.taken hg hT).entry r b j ha (by simp) hl
    rw [Leads] at hlead
    split at hlead
    · exact hnew _ (.inl hlead.1) he
    · rcases hlead with h0 | hf
      · have hcv := hT.valid
        rw [← he, h0] at hcv
        exact absurd hcv (by simp [clusValid])
      · exact hnew _ (.inr hf) he

theorem isDot_dots {up : ℕ} (hn : n = 1 ∨ n = 2) : IsDot (cut (makeSlot (dots n) attrDir 0 up 0)) ∧
    cut (makeSlot (dots n) attrDir 0 up 0) 11 ≠ attrLfn := by
  have hname : ∀ i < 11, makeSlot (dots n) attrDir 0 up 0 i = dots n i := fun i hi => makeSlot_name hi
  have hattr : makeSlot (dots n) attrDir 0 up 0 11 = attrDir := makeSlot_attr
  have h0 : dots n 0 = dot := by rcases hn with rfl | rfl <;> decide
  rw [cut_isDot, cut_apply (by omega), hattr]
  refine ⟨⟨⟨?_, ?_, ?_, ?_⟩, ?_⟩, by decide⟩
  · rw [hname 0 (by omega), h0]
    decide
  · rw [hname 0 (by omega), h0]
    decide
  · rw [hattr]
    decide
  · rw [hattr]
    decide
  · rcases hn with rfl | rfl
    · exact .inl hname
    · exact .inr hname

/-- **The entries `.` and `..`** of a directory are written. -/
theorem writeDots_sound (hg : g.Wf) (hs : Sound g K P ∅ v) (hd : d ∈ P.dirs) (up : ℕ) :
    ∃ v₁ v', entWriteDirect g d 0 (makeSlot (dots 1) attrDir 0 d 0) v = (fatOk, v₁) ∧
      entWriteDirect g d 1 (makeSlot (dots 2) attrDir 0 up 0) v₁ = (fatOk, v') ∧
      Rewrites g (P.clusters d) {(d, 0), (d, 1)} v v' ∧ Sound g K P ∅ v' := by
  have hch := hs.dir_chain hd
  obtain ⟨h0, hp0⟩ := place_front hs.toTree hg hd (Nat.zero_le 1)
  obtain ⟨h1, hp1⟩ := place_front hs.toTree hg hd le_rfl
  obtain ⟨ch₁, v₁, hr₁, -, -, hw₁, he₁⟩ := entWrite_quiet hg hs.quiet hch hch.cursor_init
    (show HasSlot g (P.clusters d) (0 % 2 ^ 27) from h0) (makeSlot (dots 1) attrDir 0 d 0)
  have hch₁ := hch.touches hg hw₁.touches (by simp)
  obtain ⟨ch₂, v', hr₂, -, -, hw₂, he₂⟩ := entWrite_quiet hg (hw₁.touches.quiet hs.quiet) hch₁
    hch₁.cursor_init (show HasSlot g (P.clusters d) (1 % 2 ^ 27) from h1) (makeSlot (dots 2) attrDir 0 up 0)
  rw [Nat.zero_mod, dirSlot, hp0] at he₁
  rw [Nat.mod_eq_of_lt (show 1 < 2 ^ 27 by norm_num), dirSlot, hp1] at he₂
  rw [Nat.zero_mod, hp0] at hw₁
  rw [Nat.mod_eq_of_lt (show 1 < 2 ^ 27 by norm_num), hp1] at hw₂
  have hper : 1 < perClus g := by
    have := hg.perClus_eq.1
    have := hg.secPerClus
    omega
  have hkeep : slot g v' d 0 = slot g v₁ d 0 :=
    hw₂.other d (hs.head_mem (.inl hd)) 0 (by omega) (by simp)
  rw [← hkeep] at he₁
  have hw : Rewrites g (P.clusters d) {(d, 0), (d, 1)} v v' := (hw₁.trans hw₂).mono (by
    rintro p (rfl | rfl) <;> simp)
  have hrew := hs.toTree.rewrites hg hw
  rw [Set.empty_union] at hrew
  -- both slots hold what belongs there
  have hboth : ∀ b j, (b, j) ∈ ({(d, 0), (d, 1)} : Set (ℕ × ℕ)) →
      b = d ∧ j ≤ 1 ∧ IsDot (slot g v' b j) ∧ slot g v' b j 11 ≠ attrLfn := by
    intro b j hm
    rcases hm with hm | hm
    · obtain ⟨rfl, rfl⟩ : b = d ∧ j = 0 := by simpa using hm
      rw [he₁]
      exact ⟨rfl, by omega, isDot_dots (.inl rfl)⟩
    · obtain ⟨rfl, rfl⟩ : b = d ∧ j = 1 := by simpa using hm
      rw [he₂]
      exact ⟨rfl, le_rfl, isDot_dots (.inr rfl)⟩
  have hdir : ∀ r j, P.At g r d j → r = d := fun r j ha =>
    hs.toTree.dir_of_place hd ha (hs.head_mem (.inl hd))
  have htree : Tree g P ∅ v' := by
    refine hrew.settle (fun r b j _ hm hl => ?_) (fun r b j _ _ _ _ _ hm hl _ _ _ => ?_)
      (fun r b j ha hm _ => ?_) (fun r hr hm _ => ?_) fun r hr hsl hm => ?_
    · exact absurd (hboth b j hm).2.2.1 hl.2
    · exact absurd (hboth b j hm).2.2.1 hl.2
    · obtain ⟨rfl, hj, -⟩ := hboth b j hm
      exact ⟨(hdir r j ha).symm, hj⟩
    · obtain rfl : r = d := by
        rcases hm with hm | hm
        · exact (hboth r 0 hm).1
        · exact (hboth r 1 hm).1
      exact fun h => (hboth r 0 (by simp)).2.2.2 h.2.2
    · -- the last slot before the seam is not one of the first two
      exact fun h => (hboth _ _ hm).2.2.2 h.2.2
  refine ⟨v₁, v', ?_, ?_, hw, hs.of_tree hw.touches htree (fun hm => hm.of_touches hw.touches)
    (Sound.freeSet_eq hg hw.touches) hw.count hw.known⟩
  · rw [entWriteDirect, hr₁]
  · rw [entWriteDirect, hr₂]

/-- **`fat32_create_dir`** keeps the volume sound, whether it succeeds or not. -/
theorem createDir_sound (hg : g.Wf) (hs : Sound g K P ∅ v) (hd : d ∈ P.dirs) (leaf : Str) :
    ∃ rc P' v', createDir g d leaf v = (rc, v') ∧ Sound g K P' ∅ v' := by
  rw [createDir]
  rcases allocCluster_quiet hg hs.quiet with ⟨hr, -⟩ | ⟨c, v₁, hr, hT⟩
  · rw [hr]
    dsimp only
    rw [if_pos (by simp [clusValid])]
    exact ⟨errNospc, P, v, rfl, hs⟩
  have hnew := hs.taken_new hT
  have hs₁ := hs.taken_dir hg hT
  have hcroot : c ≠ g.rootClus := by
    rintro rfl
    exact hnew _ (.inl hs.root) (hs.head_mem (.inl hs.root))
  have hcd : c ≠ d := by
    rintro rfl
    exact hnew _ (.inl hd) (hs.head_mem (.inl hd))
  have hfresh : Fresh g (P.addDir c) v₁ d true c :=
    ⟨Set.mem_insert .., hcroot, hcd, unnamed_of_taken hg hs hT⟩
  have hc32 : c < 2 ^ 32 := by
    have := hg.marks
    have := (hg.valid_iff.mp hT.valid).2
    omega
  obtain ⟨rc, o, P', v₂, hr₂, hs₂, hdirs, -, hend⟩ :=
    dirInsert_quiet hg hs₁ (Set.mem_insert_of_mem _ hd) leaf hfresh hc32 0
  rw [hr]
  dsimp only
  rw [if_neg (not_not.mpr hT.valid), hr₂]
  dsimp only
  have hcP' : c ∈ P'.dirs := hdirs ▸ Set.mem_insert ..
  rcases hend with ⟨hrc, -, hx⟩ | ⟨hrc, -⟩
  · -- the cluster is given back
    rw [if_pos hrc]
    have hun : Unnamed g P' v₂ c := hfresh.2.2.2.extends hx
    exact ⟨rc, P'.drop c, _, rfl, (hs₂.free hg (.inl hcP') hcroot
      fun r b j ha _ hl => hun r b j ha hl).1⟩
  · rw [if_neg (not_not.mpr hrc)]
    obtain ⟨v₃, v₄, hr₃, hr₄, -, hs₄⟩ :=
      writeDots_sound hg hs₂ hcP' (if d = g.rootClus then 0 else d)
    refine ⟨fatOk, P', v₄, ?_, hs₄⟩
    rw [hr₃]
    dsimp only
    rw [hr₄]

/-! ## The calls with a path -/

/-- **`fat32_mkdir`** keeps the volume sound. -/
theorem mkdir_sound (hg : g.Wf) (hs : Sound g K P ∅ v) (hp : Normal rel) :
    ∃ rc P' v', mkdir g rel v = (rc, v') ∧ Sound g K P' ∅ v' := by
  rw [mkdir]
  rcases hsp : split rel with _ | ⟨dir, leaf⟩
  · exact ⟨_, P, v, rfl, hs⟩
  obtain ⟨hdir, hleaf, -⟩ := split_normal hp hsp
  obtain ⟨rc, parent, v₁, hr, hsame, hparent⟩ :=
    resolveDirLoop_quiet hg dir.length dir g.rootClus v hs hs.root hdir
  simp only [resolveDir, hr]
  by_cases hrc : rc = fatOk
  case neg =>
    rw [if_pos hrc]
    exact ⟨rc, P, v₁, rfl, hsame.sound hs hg⟩
  rw [if_neg (not_not.mpr hrc)]
  have hs₁ := hsame.sound hs hg
  obtain ⟨rc₂, o, v₂, hr₂, hsame₂, -⟩ := dirLookup_quiet hg hs₁ (hparent hrc) hleaf
  have hs₂ := hsame₂.sound hs₁ hg
  rw [hr₂]
  dsimp only
  by_cases hrc₂ : rc₂ = fatOk
  case neg =>
    rw [if_pos hrc₂]
    exact ⟨rc₂, P, v₂, rfl, hs₂⟩
  rw [if_neg (not_not.mpr hrc₂)]
  by_cases ho : o.isSome = true
  · rw [if_pos ho]
    exact ⟨_, P, v₂, rfl, hs₂⟩
  · rw [if_neg ho]
    exact createDir_sound hg hs₂ (hparent hrc) leaf

/-- **`fat32_rmdir`** keeps the volume sound. -/
theorem rmdir_sound (hg : g.Wf) (hs : Sound g K P ∅ v) (hp : Normal rel) (hne : rel ≠ []) :
    ∃ rc P' v', rmdir g rel v = (rc, v') ∧ Sound g K P' ∅ v' := by
  obtain ⟨rc, o, v₁, hr, hsame, -, -, hfound⟩ := resolve_quiet hg hs hp
  have hs₁ := hsame.sound hs hg
  rw [rmdir, hr]
  dsimp only
  by_cases hrc : rc = fatOk
  case neg =>
    rw [if_pos hrc]
    exact ⟨rc, P, v₁, rfl, hs₁⟩
  rw [if_neg (not_not.mpr hrc)]
  rcases o with _ | loc
  · exact ⟨rc, P, v₁, rfl, hs₁⟩
  dsimp only
  by_cases hdir : loc.attr &&& attrDir = 0
  · rw [if_pos hdir]
    exact ⟨_, P, v₁, rfl, hs₁⟩
  rw [if_neg hdir]
  obtain ⟨d, k, hF⟩ := hfound loc hne rfl
  obtain ⟨hcd, hroot, hcne⟩ := hF.leads_dir hs₁.toTree hg hdir
  obtain ⟨x, v₂, hr₂, hsame₂⟩ := dirIsEmpty_quiet hg hs₁ hcd
  have hs₂ := hsame₂.sound hs₁ hg
  have hF₂ := hF.of_same hsame₂
  rw [hr₂]
  cases x with
  | false => exact ⟨_, P, v₂, rfl, hs₂⟩
  | true =>
    -- nothing but the entry leads to the directory
    have honly : ∀ r b j, P.At g r b j → Live (slot g v₂ b j) → entClus (slot g v₂ b j) = loc.clus →
        (b, j) = place g (P.clusters d) k := by
      intro r b j ha hl he
      rw [hF₂.clus] at he
      refine hs₂.once r b j d _ _ ha (Tree.at_place hg hF₂.dir hF₂.has) (by simp) (by simp) hl hF₂.live
        (fun h0 => ?_) he
      rw [he, ← hF₂.clus] at h0
      exact hs₂.head_ne_zero (.inl hcd) h0
    obtain ⟨a, ha, hoff, -⟩ := hF₂.group
    obtain ⟨hs₃, -⟩ := (hs₂.mono (Set.empty_subset {place g (P.clusters d) k})).free hg (.inl hcd) hroot
      fun r b j hat hn hl he => hn (honly r b j hat hl he)
    obtain ⟨v', hr', hs'⟩ := deleteSlots_sound hg hs₃ ⟨hF₂.dir, fun he => hcne he.symm⟩ hF₂.has
      hF₂.small ha (by
        rintro p rfl
        exact ⟨k - a, by omega, by rw [Nat.add_sub_cancel' ha]; rfl⟩)
    refine ⟨fatOk, P.drop loc.clus, v', ?_, hs'⟩
    dsimp only
    rw [hF₂.dirClus, hoff, hF₂.off, hr']

end Fat32

end Csos

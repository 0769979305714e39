import Csos.Fat32.Slots
import Mathlib.Order.CompletePartialOrder
/-!
# FAT32 — the tree of a volume

A `Plan` says which chains a volume has and which of them are directories.
`Tree` says that the volume is as planned: the chains are there and share no
cluster, and every entry of a directory leads to a chain of its own. It is
about every slot of a directory, also of those after the first `0x00`, which
a lookup does not reach but which a later insertion may uncover. `X` are
slots that are about to be rewritten and may hold anything.
-/

namespace Csos

namespace Fat32

variable {g : Geo} {v v' v₁ : Vol} {c d h i j k n r s : ℕ} {l : List ℕ} {e : Bytes}
  {K : Prop} {W X X' : Set (ℕ × ℕ)}

/-! ## Entries -/

/-- An entry of a long name. -/
def IsLfn (e : Bytes) : Prop := e 0 ≠ 0 ∧ e 0 ≠ 0xe5 ∧ e 11 = attrLfn

/-- A short entry, as a lookup sees it. -/
def IsEntry (e : Bytes) : Prop := e 0 ≠ 0 ∧ e 0 ≠ 0xe5 ∧ e 11 ≠ attrLfn ∧ e 11 &&& attrVol = 0

/-- The entry `.` or `..`. -/
def IsDot (e : Bytes) : Prop :=
  IsEntry e ∧ ((∀ i < 11, e i = dots 1 i) ∨ ∀ i < 11, e i = dots 2 i)

/-- An entry other than `.` and `..`. -/
def Live (e : Bytes) : Prop := IsEntry e ∧ ¬ IsDot e

/-- A slot that has never been used. -/
theorem not_isLfn_of_blank (h : e 0 = 0) : ¬ IsLfn e := fun hl => hl.1 h

theorem not_isDot_of_blank (h : e 0 = 0) : ¬ IsDot e := fun hd => hd.1.1 h

theorem not_live_of_blank (h : e 0 = 0) : ¬ Live e := fun hl => hl.1.1 h

/-! ## Plans -/

/-- The chains of a volume, by their first cluster. -/
structure Plan where
  clusters : ℕ → List ℕ
  dirs : Set ℕ
  files : Set ℕ

namespace Plan

variable (P : Plan)

/-- The first clusters of the chains. -/
def heads : Set ℕ := P.dirs ∪ P.files

/-- The slots of the directory `d`. -/
def At (g : Geo) (d c j : ℕ) : Prop := d ∈ P.dirs ∧ c ∈ P.clusters d ∧ j < perClus g

/-- Without the chain `r`. -/
def drop (r : ℕ) : Plan := ⟨P.clusters, P.dirs \ {r}, P.files \ {r}⟩

/-- With the directory `r` of one cluster. -/
def addDir (r : ℕ) : Plan := ⟨Function.update P.clusters r [r], insert r P.dirs, P.files⟩

/-- With the file `r` of one cluster. -/
def addFile (r : ℕ) : Plan := ⟨Function.update P.clusters r [r], P.dirs, insert r P.files⟩

/-- With the cluster `c` at the end of the chain `h`. -/
def grow (h c : ℕ) : Plan := { P with clusters := Function.update P.clusters h (P.clusters h ++ [c]) }

end Plan

variable {P P' : Plan}

/-- An entry of the directory `d` leads to a chain: a directory to one that
is neither the root nor `d`, a file to none if it is empty. -/
def Leads (g : Geo) (P : Plan) (d : ℕ) (e : Bytes) : Prop :=
  if e 11 &&& attrDir ≠ 0 then entClus e ∈ P.dirs ∧ entClus e ≠ g.rootClus ∧ entClus e ≠ d
  else entClus e = 0 ∨ entClus e ∈ P.files

theorem Leads.mono (h : Leads g P d e) (hd : P.dirs ⊆ P'.dirs) (hf : P.files ⊆ P'.files) :
    Leads g P' d e := by
  rw [Leads] at h ⊢
  split at h
  · rw [if_pos ‹_›]
    exact ⟨hd h.1, h.2⟩
  · rw [if_neg ‹_›]
    exact h.imp id (hf ·)

/-- **The volume is as planned.** `seam` is about the offset `2 ^ 32` of a
directory, where the offsets of the code wrap: no long name lies across it. -/
structure Tree (g : Geo) (P : Plan) (X : Set (ℕ × ℕ)) (v : Vol) : Prop where
  root : g.rootClus ∈ P.dirs
  apart : Disjoint P.dirs P.files
  chain : ∀ h ∈ P.heads, IsChain g v h (P.clusters h) ∧ P.clusters h ≠ []
  disjoint : ∀ h ∈ P.heads, ∀ h' ∈ P.heads, ∀ c ∈ P.clusters h, c ∈ P.clusters h' → h = h'
  entry : ∀ d c j, P.At g d c j → (c, j) ∉ X → Live (slot g v c j) → Leads g P d (slot g v c j)
  once : ∀ d c j d' c' j', P.At g d c j → P.At g d' c' j' → (c, j) ∉ X → (c', j') ∉ X →
    Live (slot g v c j) → Live (slot g v c' j') → entClus (slot g v c j) ≠ 0 →
    entClus (slot g v c j) = entClus (slot g v c' j') → (c, j) = (c', j')
  dots : ∀ d c j, P.At g d c j → (c, j) ∉ X → IsDot (slot g v c j) →
    c = d ∧ j ≤ 1 ∧ (j = 1 → (d, 0) ∉ X → ¬ IsLfn (slot g v d 0))
  seam : ∀ d ∈ P.dirs, HasSlot g (P.clusters d) (2 ^ 27 - 1) →
    place g (P.clusters d) (2 ^ 27 - 1) ∉ X → ¬ IsLfn (dirSlot g v (P.clusters d) (2 ^ 27 - 1))

/-! ## Reading the plan off -/

namespace Tree

theorem mono (ht : Tree g P X v) (hX : X ⊆ X') : Tree g P X' v where
  root := ht.root
  apart := ht.apart
  chain := ht.chain
  disjoint := ht.disjoint
  entry d c j ha hn hl := ht.entry d c j ha (fun hm => hn (hX hm)) hl
  once d c j d' c' j' ha ha' hn hn' := ht.once d c j d' c' j' ha ha' (fun hm => hn (hX hm))
    fun hm => hn' (hX hm)
  dots d c j ha hn hd := by
    obtain ⟨h1, h2, h3⟩ := ht.dots d c j ha (fun hm => hn (hX hm)) hd
    exact ⟨h1, h2, fun hj hn0 => h3 hj fun hm => hn0 (hX hm)⟩
  seam d hd hs hn := ht.seam d hd hs fun hm => hn (hX hm)

theorem dir_chain (ht : Tree g P X v) (hd : d ∈ P.dirs) : IsChain g v d (P.clusters d) :=
  (ht.chain d (.inl hd)).1

theorem file_chain (ht : Tree g P X v) (hd : d ∈ P.files) : IsChain g v d (P.clusters d) :=
  (ht.chain d (.inr hd)).1

/-- The first cluster of a chain is of the chain. -/
theorem head_mem (ht : Tree g P X v) (hh : h ∈ P.heads) : h ∈ P.clusters h := by
  obtain ⟨hc, hne⟩ := ht.chain h hh
  have hv := hc.start_valid.mpr hne
  have := hc.head
  rw [firstClus, if_pos hv] at this
  exact List.mem_of_mem_head? this.symm

theorem head_valid (ht : Tree g P X v) (hh : h ∈ P.heads) : clusValid g h = true :=
  (ht.chain h hh).1.valid (ht.head_mem hh)

theorem head_ne_zero (ht : Tree g P X v) (hh : h ∈ P.heads) : h ≠ 0 := by
  rintro rfl
  exact absurd (ht.head_valid hh) (by simp [clusValid])

/-- A free cluster is of no chain. -/
theorem notMem_of_free (ht : Tree g P X v) (hf : fat g v c = 0) (hh : h ∈ P.heads) :
    c ∉ P.clusters h := fun hc => (ht.chain h hh).1.fat_ne_zero hc hf

theorem At.valid (ht : Tree g P X v) (ha : P.At g d c j) : clusValid g c = true :=
  (ht.dir_chain ha.1).valid ha.2.1

/-- A slot of a directory of the plan, by its number. -/
theorem at_place (hg : g.Wf) (hd : d ∈ P.dirs) (hk : HasSlot g (P.clusters d) k) :
    P.At g d (place g (P.clusters d) k).1 (place g (P.clusters d) k).2 :=
  ⟨hd, place_mem hk, (hg.place_off _ _).2⟩

/-- **What keeps the tree**: the entries of its chains and the slots of its
directories. -/
theorem congr (hg : g.Wf) (ht : Tree g P X v)
    (hfat : ∀ h ∈ P.heads, ∀ c ∈ P.clusters h, fat g v' c = fat g v c)
    (hslot : ∀ d c j, P.At g d c j → (c, j) ∉ X → slot g v' c j = slot g v c j) :
    Tree g P X v' where
  root := ht.root
  apart := ht.apart
  chain h hh := ⟨(ht.chain h hh).1.congr (hfat h hh), (ht.chain h hh).2⟩
  disjoint := ht.disjoint
  entry d c j ha hn := by
    rw [hslot d c j ha hn]
    exact ht.entry d c j ha hn
  once d c j d' c' j' ha ha' hn hn' := by
    rw [hslot d c j ha hn, hslot d' c' j' ha' hn']
    exact ht.once d c j d' c' j' ha ha' hn hn'
  dots d c j ha hn hd := by
    rw [hslot d c j ha hn] at hd
    obtain ⟨h1, h2, h3⟩ := ht.dots d c j ha hn hd
    refine ⟨h1, h2, fun hj hn0 => ?_⟩
    rw [hslot d d 0 ⟨ha.1, ht.head_mem (.inl ha.1), by have := ha.2.2; omega⟩ hn0]
    exact h3 hj hn0
  seam d hd hs hn := by
    rw [dirSlot, hslot d _ _ (at_place hg hd hs) hn]
    exact ht.seam d hd hs hn

/-- A call that touches no entry and no directory. -/
theorem touches {F C : Set ℕ} (hg : g.Wf) (ht : Tree g P X v) (hT : Touches g F C v v')
    (hF : ∀ h ∈ P.heads, ∀ c ∈ P.clusters h, c ∉ F)
    (hC : ∀ d ∈ P.dirs, ∀ c ∈ P.clusters d, c ∉ C) : Tree g P X v' := by
  refine ht.congr hg (fun h hh c hc => ?_) fun d c j ha _ => ?_
  · exact hT.fat_eq hg ((ht.chain h hh).1.valid hc) (hF h hh c hc)
  · refine cut_congr fun i hi => ?_
    exact hT.byte_eq hg ((ht.dir_chain ha.1).valid ha.2.1) (hC d ha.1 c ha.2.1) (hg.slot_end ha.2.2 hi)

end Tree

/-! ## Changing the plan -/

namespace Tree

/-- **A chain that no entry leads to is dropped.** -/
theorem drop (ht : Tree g P X v) (hr : r ≠ g.rootClus)
    (hno : ∀ d c j, P.At g d c j → (c, j) ∉ X → Live (slot g v c j) → entClus (slot g v c j) ≠ r) :
    Tree g (P.drop r) X v where
  root := ⟨ht.root, fun he => hr he.symm⟩
  apart := ht.apart.mono Set.sdiff_subset Set.sdiff_subset
  chain h hh := ht.chain h (hh.imp And.left And.left)
  disjoint h hh h' hh' := ht.disjoint h (hh.imp And.left And.left) h' (hh'.imp And.left And.left)
  entry d c j ha hn hl := by
    have ha' : P.At g d c j := ⟨ha.1.1, ha.2⟩
    have hlead := ht.entry d c j ha' hn hl
    have hne := hno d c j ha' hn hl
    rw [Leads] at hlead ⊢
    split at hlead
    · rename_i hdir
      rw [if_pos hdir]
      exact ⟨⟨hlead.1, hne⟩, hlead.2⟩
    · rename_i hdir
      rw [if_neg hdir]
      exact hlead.imp id fun hf => ⟨hf, hne⟩
  once d c j d' c' j' ha ha' :=
    ht.once d c j d' c' j' ⟨ha.1.1, ha.2⟩ ⟨ha'.1.1, ha'.2⟩
  dots d c j ha := ht.dots d c j ⟨ha.1.1, ha.2⟩
  seam d hd := ht.seam d hd.1

/-- **A chain of one cluster is added**, one that is of no chain. -/
theorem add_chain (ht : Tree g P X v) (hc : IsChain g v c [c])
    (hnew : ∀ h ∈ P.heads, c ∉ P.clusters h)
    (hcl : P'.clusters = Function.update P.clusters c [c])
    (hheads : ∀ h ∈ P'.heads, h = c ∨ h ∈ P.heads) :
    (∀ h ∈ P.heads, P'.clusters h = P.clusters h) ∧
      (∀ h ∈ P'.heads, IsChain g v h (P'.clusters h) ∧ P'.clusters h ≠ []) ∧
      ∀ h ∈ P'.heads, ∀ h' ∈ P'.heads, ∀ b ∈ P'.clusters h, b ∈ P'.clusters h' → h = h' := by
  have hne : c ∉ P.heads := fun hh => hnew c hh (ht.head_mem hh)
  have hold : ∀ h ∈ P.heads, P'.clusters h = P.clusters h := by
    intro h hh
    rw [hcl]
    refine Function.update_of_ne ?_ _ _
    rintro rfl
    exact hne hh
  have hself : P'.clusters c = [c] := by rw [hcl, Function.update_self]
  refine ⟨hold, fun h hh => ?_, fun h hh h' hh' b hb hb' => ?_⟩
  · rcases hheads h hh with rfl | hh
    · rw [hself]
      exact ⟨hc, by simp⟩
    · rw [hold h hh]
      exact ht.chain h hh
  · rcases hheads h hh with hhc | hp <;> rcases hheads h' hh' with hhc' | hp'
    · rw [hhc, hhc']
    · rw [hhc, hself, List.mem_singleton] at hb
      rw [hold h' hp', hb] at hb'
      exact absurd hb' (hnew h' hp')
    · rw [hhc', hself, List.mem_singleton] at hb'
      rw [hold h hp, hb'] at hb
      exact absurd hb (hnew h hp)
    · rw [hold h hp] at hb
      rw [hold h' hp'] at hb'
      exact ht.disjoint h hp h' hp' b hb hb'

/-- **A new directory**, of one blank cluster. -/
theorem addDir (ht : Tree g P X v) (hg : g.Wf) (hc : IsChain g v c [c])
    (hnew : ∀ h ∈ P.heads, c ∉ P.clusters h) (hblank : ∀ j < perClus g, slot g v c j 0 = 0) :
    Tree g (P.addDir c) X v := by
  have hheads : ∀ h ∈ (P.addDir c).heads, h = c ∨ h ∈ P.heads := by
    rintro h ((rfl | hh) | hh)
    · exact .inl rfl
    · exact .inr (.inl hh)
    · exact .inr (.inr hh)
  obtain ⟨hold, hchain, hdisj⟩ := ht.add_chain hc hnew rfl hheads
  have hself : (P.addDir c).clusters c = [c] := Function.update_self ..
  -- a slot of the new plan is an old one or blank
  have hat : ∀ d b j, (P.addDir c).At g d b j → P.At g d b j ∨ slot g v b j 0 = 0 := by
    rintro d b j ⟨rfl | hd, hb, hj⟩
    · rw [hself, List.mem_singleton] at hb
      exact .inr (hb ▸ hblank j hj)
    · exact .inl ⟨hd, hold d (.inl hd) ▸ hb, hj⟩
  refine ⟨.inr ht.root, ?_, hchain, hdisj, fun d b j ha hn hl => ?_,
    fun d b j d' b' j' ha ha' hn hn' hl hl' => ?_, fun d b j ha hn hd => ?_, ?_⟩
  · rw [Set.disjoint_left]
    rintro x (rfl | hx) hf
    · exact hnew x (.inr hf) (ht.head_mem (.inr hf))
    · exact Set.disjoint_left.mp ht.apart hx hf
  · rcases hat d b j ha with ha | hb
    · exact (ht.entry d b j ha hn hl).mono (Set.subset_insert ..) subset_rfl
    · exact absurd hl (not_live_of_blank hb)
  · rcases hat d b j ha with ha | hb
    · rcases hat d' b' j' ha' with ha' | hb'
      · exact ht.once d b j d' b' j' ha ha' hn hn' hl hl'
      · exact absurd hl' (not_live_of_blank hb')
    · exact absurd hl (not_live_of_blank hb)
  · rcases hat d b j ha with ha | hb
    · exact ht.dots d b j ha hn hd
    · exact absurd hd (not_isDot_of_blank hb)
  · rintro d (rfl | hd) hs hn
    · refine not_isLfn_of_blank ?_
      have hm := place_mem hs
      rw [hself, List.mem_singleton] at hm
      rw [dirSlot, hself, hm]
      exact hblank _ (hg.place_off _ _).2
    · rw [hold d (.inl hd)] at hs hn ⊢
      exact ht.seam d hd hs hn

/-- **A new file**, of one cluster. -/
theorem addFile (ht : Tree g P X v) (hc : IsChain g v c [c])
    (hnew : ∀ h ∈ P.heads, c ∉ P.clusters h) : Tree g (P.addFile c) X v := by
  have hheads : ∀ h ∈ (P.addFile c).heads, h = c ∨ h ∈ P.heads := by
    rintro h (hh | rfl | hh)
    · exact .inr (.inl hh)
    · exact .inl rfl
    · exact .inr (.inr hh)
  obtain ⟨hold, hchain, hdisj⟩ := ht.add_chain hc hnew rfl hheads
  have hat : ∀ d b j, (P.addFile c).At g d b j → P.At g d b j :=
    fun d b j ha => ⟨ha.1, hold d (.inl ha.1) ▸ ha.2.1, ha.2.2⟩
  refine ⟨ht.root, ?_, hchain, hdisj, fun d b j ha hn hl => ?_,
    fun d b j d' b' j' ha ha' => ht.once d b j d' b' j' (hat _ _ _ ha) (hat _ _ _ ha'),
    fun d b j ha => ht.dots d b j (hat _ _ _ ha), fun d hd hs hn => ?_⟩
  · rw [Set.disjoint_left]
    rintro x hx (rfl | hf)
    · exact hnew x (.inl hx) (ht.head_mem (.inl hx))
    · exact Set.disjoint_left.mp ht.apart hx hf
  · exact (ht.entry d b j (hat d b j ha) hn hl).mono subset_rfl (Set.subset_insert ..)
  · rw [hold d (.inl hd)] at hs hn ⊢
    exact ht.seam d hd hs hn

/-- **A chain grows by a cluster** that is of no chain; a directory by a
blank one. -/
theorem grow (ht : Tree g P X v) (hg : g.Wf) (hh : h ∈ P.heads)
    (hc : IsChain g v' h (P.clusters h ++ [c])) (hnew : ∀ h ∈ P.heads, c ∉ P.clusters h)
    (hfat : ∀ r ∈ P.heads, r ≠ h → ∀ b ∈ P.clusters r, fat g v' b = fat g v b)
    (hslot : ∀ d b j, P.At g d b j → slot g v' b j = slot g v b j)
    (hblank : ∀ j < perClus g, slot g v' c j 0 = 0) : Tree g (P.grow h c) X v' := by
  have hself : (P.grow h c).clusters h = P.clusters h ++ [c] := Function.update_self ..
  have hold : ∀ r, r ≠ h → (P.grow h c).clusters r = P.clusters r :=
    fun r hr => Function.update_of_ne hr _ _
  have hmem : ∀ r b, b ∈ (P.grow h c).clusters r → b ∈ P.clusters r ∨ r = h ∧ b = c := by
    intro r b hb
    by_cases hr : r = h
    · rw [hr, hself, List.mem_append, List.mem_singleton] at hb
      exact hb.imp (fun hb => hr ▸ hb) fun hb => ⟨hr, hb⟩
    · rw [hold r hr] at hb
      exact .inl hb
  have hat : ∀ d b j, (P.grow h c).At g d b j → P.At g d b j ∨ slot g v' b j 0 = 0 := by
    rintro d b j ⟨hd, hb, hj⟩
    rcases hmem d b hb with hb | ⟨-, rfl⟩
    · exact .inl ⟨hd, hb, hj⟩
    · exact .inr (hblank j hj)
  refine ⟨ht.root, ht.apart, fun r hr => ?_, fun r hr r' hr' b hb hb' => ?_, fun d b j ha hn hl => ?_,
    fun d b j d' b' j' ha ha' hn hn' hl hl' => ?_, fun d b j ha hn hd => ?_, fun d hd hs hn => ?_⟩
  · by_cases hrh : r = h
    · rw [hrh, hself]
      exact ⟨hc, by simp⟩
    · rw [hold r hrh]
      exact ⟨(ht.chain r hr).1.congr (hfat r hr hrh), (ht.chain r hr).2⟩
  · rcases hmem r b hb with hr₁ | ⟨hrh, hbc⟩ <;> rcases hmem r' b hb' with hr₂ | ⟨hrh', hbc'⟩
    · exact ht.disjoint r hr r' hr' b hr₁ hr₂
    · exact absurd (hbc' ▸ hr₁) (hnew r hr)
    · exact absurd (hbc ▸ hr₂) (hnew r' hr')
    · rw [hrh, hrh']
  · rcases hat d b j ha with ha | hb
    · rw [hslot d b j ha] at hl ⊢
      exact ht.entry d b j ha hn hl
    · exact absurd hl (not_live_of_blank hb)
  · rcases hat d b j ha with ha | hb
    · rcases hat d' b' j' ha' with ha' | hb'
      · rw [hslot d b j ha] at hl ⊢
        rw [hslot d' b' j' ha'] at hl' ⊢
        exact ht.once d b j d' b' j' ha ha' hn hn' hl hl'
      · exact absurd hl' (not_live_of_blank hb')
    · exact absurd hl (not_live_of_blank hb)
  · rcases hat d b j ha with ha | hb
    · rw [hslot d b j ha] at hd
      obtain ⟨h1, h2, h3⟩ := ht.dots d b j ha hn hd
      refine ⟨h1, h2, fun hj hn0 => ?_⟩
      rw [hslot d d 0 ⟨ha.1, ht.head_mem (.inl ha.1), by have := ha.2.2; omega⟩]
      exact h3 hj hn0
    · exact absurd hd (not_isDot_of_blank hb)
  · -- the last slot before the seam is an old one or blank
    rcases hat d _ _ (at_place hg hd hs) with ha | hb
    · by_cases hdh : d = h
      · subst hdh
        have hs' : HasSlot g (P.clusters d) (2 ^ 27 - 1) := by
          by_contra hno
          refine hnew d hh ?_
          have hm := ha.2.1
          rw [place, hself] at hm
          rw [HasSlot, hself, List.length_append, List.length_singleton] at hs
          rw [HasSlot] at hno
          rw [List.getD_append_right _ _ _ _ (by omega), show (2 ^ 27 - 1) * 32 / g.clusBytes
            - (P.clusters d).length = 0 by omega] at hm
          exact hm
        have hpl : place g ((P.grow d c).clusters d) (2 ^ 27 - 1) = place g (P.clusters d) (2 ^ 27 - 1) := by
          rw [place, place, hself, List.getD_append _ _ _ _ hs']
        rw [hpl] at hn ha
        rw [dirSlot, hpl, hslot d _ _ ha]
        exact ht.seam d hd hs' hn
      · rw [hold d hdh] at hs hn ha ⊢
        rw [dirSlot, hslot d _ _ ha]
        exact ht.seam d hd hs hn
    · exact not_isLfn_of_blank hb

end Tree

/-! ## Rewriting slots -/

namespace Tree

/-- While slots of a directory are rewritten they may hold anything. -/
theorem rewrites (ht : Tree g P X v) (hg : g.Wf)
    (hw : Rewrites g (P.clusters d) W v v') : Tree g P (X ∪ W) v' := by
  refine (ht.mono Set.subset_union_left).congr hg (fun h hh c hc => ?_) fun d' c j ha hn => ?_
  · exact hw.touches.fat_eq hg ((ht.chain h hh).1.valid hc) (by simp)
  · by_cases hc : c ∈ P.clusters d
    · exact hw.other c hc j ha.2.2 fun hm => hn (.inr hm)
    · refine cut_congr fun i hi => ?_
      exact hw.touches.byte_eq hg ((ht.dir_chain ha.1).valid ha.2.1) hc (hg.slot_end ha.2.2 hi)

/-- **The slots that have been rewritten are as planned again.** -/
theorem settle (ht : Tree g P X v)
    (hentry : ∀ d c j, P.At g d c j → (c, j) ∈ X → Live (slot g v c j) → Leads g P d (slot g v c j))
    (honce : ∀ d c j d' c' j', P.At g d c j → P.At g d' c' j' → (c, j) ∈ X →
      Live (slot g v c j) → Live (slot g v c' j') → entClus (slot g v c j) ≠ 0 →
      entClus (slot g v c j) = entClus (slot g v c' j') → (c, j) = (c', j'))
    (hdots : ∀ d c j, P.At g d c j → (c, j) ∈ X → IsDot (slot g v c j) → c = d ∧ j ≤ 1)
    (hlfn : ∀ d ∈ P.dirs, (d, 0) ∈ X ∨ (d, 1) ∈ X → IsDot (slot g v d 1) → ¬ IsLfn (slot g v d 0))
    (hseam : ∀ d ∈ P.dirs, HasSlot g (P.clusters d) (2 ^ 27 - 1) →
      place g (P.clusters d) (2 ^ 27 - 1) ∈ X → ¬ IsLfn (dirSlot g v (P.clusters d) (2 ^ 27 - 1))) :
    Tree g P ∅ v := by
  refine ⟨ht.root, ht.apart, ht.chain, ht.disjoint, fun d c j ha _ hl => ?_,
    fun d c j d' c' j' ha ha' _ _ hl hl' hz he => ?_, fun d c j ha _ hd => ?_, fun d hd hs _ => ?_⟩
  · by_cases hX : (c, j) ∈ X
    · exact hentry d c j ha hX hl
    · exact ht.entry d c j ha hX hl
  · by_cases hX : (c, j) ∈ X
    · exact honce d c j d' c' j' ha ha' hX hl hl' hz he
    · by_cases hX' : (c', j') ∈ X
      · exact (honce d' c' j' d c j ha' ha hX' hl' hl (he ▸ hz) he.symm).symm
      · exact ht.once d c j d' c' j' ha ha' hX hX' hl hl' hz he
  · obtain ⟨rfl, hj⟩ : c = d ∧ j ≤ 1 := by
      by_cases hX : (c, j) ∈ X
      · exact hdots d c j ha hX hd
      · exact ⟨(ht.dots d c j ha hX hd).1, (ht.dots d c j ha hX hd).2.1⟩
    refine ⟨rfl, hj, ?_⟩
    rintro rfl -
    by_cases hX : (c, 0) ∈ X ∨ (c, 1) ∈ X
    · exact hlfn c ha.1 hX hd
    · rw [not_or] at hX
      exact (ht.dots c c 1 ha hX.2 hd).2.2 rfl hX.1
  · by_cases hX : place g (P.clusters d) (2 ^ 27 - 1) ∈ X
    · exact hseam d hd hs hX
    · exact ht.seam d hd hs hX

/-- Slots that hold neither an entry nor part of a long name need no care. -/
theorem settle_dead (ht : Tree g P X v)
    (hdead : ∀ d c j, P.At g d c j → (c, j) ∈ X → ¬ IsEntry (slot g v c j) ∧ ¬ IsLfn (slot g v c j))
    (hg : g.Wf) : Tree g P ∅ v := by
  have hpos : 1 < perClus g := by
    have := hg.perClus_eq.1
    have := hg.secPerClus
    omega
  refine ht.settle (fun d c j ha hX hl => absurd hl.1 (hdead d c j ha hX).1)
    (fun d c j _ _ _ ha _ hX hl _ _ _ => absurd hl.1 (hdead d c j ha hX).1)
    (fun d c j ha hX hd => absurd hd.1 (hdead d c j ha hX).1) (fun d hd hX hdot => ?_)
    fun d hd hs hX => (hdead d _ _ (at_place hg hd hs) hX).2
  have hm := ht.head_mem (.inl hd)
  rcases hX with hX | hX
  · exact (hdead d d 0 ⟨hd, hm, by omega⟩ hX).2
  · exact absurd hdot.1 (hdead d d 1 ⟨hd, hm, hpos⟩ hX).1

end Tree

/-! ## A volume with the root only -/

/-- The plan of a volume whose root has one cluster, and that has no other
chain. -/
def Plan.ofRoot (g : Geo) : Plan := ⟨fun _ => [g.rootClus], {g.rootClus}, ∅⟩

/-- Such a volume, with at most one file, which is empty. -/
theorem Tree.of_root (hg : g.Wf) (hc : IsChain g v g.rootClus [g.rootClus])
    (hdot : ¬ IsDot (slot g v g.rootClus 0))
    (hfile : Live (slot g v g.rootClus 0) →
      slot g v g.rootClus 0 11 &&& attrDir = 0 ∧ entClus (slot g v g.rootClus 0) = 0)
    (hrest : ∀ j < perClus g, j ≠ 0 → slot g v g.rootClus j 0 = 0) : Tree g (Plan.ofRoot g) ∅ v := by
  -- the one slot that may be in use
  have hat : ∀ d c j, (Plan.ofRoot g).At g d c j → Live (slot g v c j) →
      slot g v c j 11 &&& attrDir = 0 ∧ entClus (slot g v c j) = 0 := by
    rintro d c j ⟨-, hcm, hj⟩ hl
    obtain rfl : c = g.rootClus := by simpa [Plan.ofRoot] using hcm
    by_cases h0 : j = 0
    · rw [h0] at hl ⊢
      exact hfile hl
    · exact absurd hl (not_live_of_blank (hrest j hj h0))
  refine ⟨rfl, Set.disjoint_empty _, ?_, ?_, fun d c j ha _ hl => ?_,
    fun d c j d' c' j' ha _ _ _ hl _ hz _ => absurd (hat d c j ha hl).2 hz, fun d c j ha _ hd => ?_,
    fun d hd hs => ?_⟩
  · rintro h (rfl | hh)
    · exact ⟨hc, by simp [Plan.ofRoot]⟩
    · exact absurd hh (by simp [Plan.ofRoot])
  · rintro h (rfl | hh) h' (rfl | hh') _ _ _
    · rfl
    · exact absurd hh' (by simp [Plan.ofRoot])
    · exact absurd hh (by simp [Plan.ofRoot])
    · exact absurd hh (by simp [Plan.ofRoot])
  · obtain ⟨h1, h2⟩ := hat d c j ha hl
    rw [Leads, if_neg (not_not.mpr h1)]
    exact .inl h2
  · obtain ⟨-, hcm, hj⟩ := ha
    obtain rfl : c = g.rootClus := by simpa [Plan.ofRoot] using hcm
    by_cases h0 : j = 0
    · rw [h0] at hd
      exact absurd hd hdot
    · exact absurd hd (not_isDot_of_blank (hrest j hj h0))
  · -- a directory of one cluster does not reach the seam
    have hb := hg.clusBytes
    have hsec := hg.secPerClus
    have hlt : (2 ^ 27 - 1) * 32 / g.clusBytes < 1 := hs
    rw [Nat.div_lt_iff_lt_mul hg.clusBytes_pos] at hlt
    omega

end Fat32

end Csos

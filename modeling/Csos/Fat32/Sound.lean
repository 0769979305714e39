import Csos.Fat32.Tree
/-!
# FAT32 — what keeps a volume sound

`Sound` is the tree together with the FAT: the copies agree, and, if `K`, the
count of free clusters is the number of entries that are zero. There is one
lemma for each way the driver changes the FAT: taking a free cluster, linking
it to a chain, freeing a chain.
-/

namespace Csos

namespace Fat32

variable {g : Geo} {v v' v₁ : Vol} {c d h i j k n r s : ℕ} {l : List ℕ} {e : Bytes}
  {K : Prop} {W X X' : Set (ℕ × ℕ)} {P P' : Plan}

/-- **A sound volume** on a device that does not fail. `K`: the count of free
clusters was right when it was mounted. -/
structure Sound (g : Geo) (K : Prop) (P : Plan) (X : Set (ℕ × ℕ)) (v : Vol) : Prop
    extends Tree g P X v where
  quiet : Quiet v
  mirrored : Mirrored g v
  word : v.freeCount < 2 ^ 32
  count : K → v.freeKnown = true ∧ v.freeCount = (freeSet g v).card

/-- There are less free clusters than a `uint32_t` can count. -/
theorem Geo.Wf.card_freeSet_lt (hg : g.Wf) (v : Vol) : (freeSet g v).card < 2 ^ 32 := by
  have hle := Finset.card_le_card (Finset.filter_subset (fun c => fat g v c = 0)
    (Finset.Ico 2 (g.clusterCount + 2)))
  have := hg.marks
  rw [Nat.card_Ico] at hle
  rw [freeSet]
  omega

/-- Freeing clusters that were not free makes as many more. -/
theorem Freed.card (hF : Freed g l v v') (hg : g.Wf) (hl : l.Nodup)
    (hv : ∀ c ∈ l, clusValid g c = true) (hnz : ∀ c ∈ l, fat g v c ≠ 0) :
    (freeSet g v').card = (freeSet g v).card + l.length := by
  have hunion : freeSet g v' = freeSet g v ∪ l.toFinset := by
    ext c
    rw [Finset.mem_union, mem_freeSet hg, mem_freeSet hg, List.mem_toFinset]
    by_cases hc : c ∈ l
    · simp [hc, hv c hc, hF.free c hc]
    · refine ⟨fun h => .inl ⟨h.1, ?_⟩, fun h => ?_⟩
      · rw [← hF.touches.fat_eq hg h.1 hc]
        exact h.2
      · obtain h | h := h
        · refine ⟨h.1, ?_⟩
          rw [hF.touches.fat_eq hg h.1 hc]
          exact h.2
        · exact absurd h hc
  have hdisj : Disjoint (freeSet g v) l.toFinset := by
    rw [Finset.disjoint_left]
    intro c hc hm
    exact hnz c (List.mem_toFinset.mp hm) ((mem_freeSet hg).mp hc).2
  rw [hunion, Finset.card_union_of_disjoint hdisj, List.toFinset_card_of_nodup hl]

namespace Sound

/-- A loop that has been given up has changed nothing. -/
theorem hung (hs : Sound g K P X v) (hg : g.Wf) : Sound g K P X v.hung :=
  ⟨hs.toTree.congr hg (fun _ _ _ _ => rfl) fun _ _ _ _ _ => rfl, hs.quiet, hs.mirrored, hs.word,
    hs.count⟩

theorem mono (hs : Sound g K P X v) (hX : X ⊆ X') : Sound g K P X' v :=
  ⟨hs.toTree.mono hX, hs.quiet, hs.mirrored, hs.word, hs.count⟩

/-- A change that leaves the free clusters. -/
theorem of_tree (hs : Sound g K P X v) {F C : Set ℕ} (hT : Touches g F C v v')
    (ht : Tree g P' X' v') (hm : Mirrored g v → Mirrored g v')
    (hfree : freeSet g v' = freeSet g v) (hc : v'.freeCount = v.freeCount)
    (hk : v'.freeKnown = v.freeKnown) : Sound g K P' X' v' := by
  refine ⟨ht, hT.quiet hs.quiet, hm hs.mirrored, ?_, fun hK => ?_⟩
  · rw [hc]
    exact hs.word
  · rw [hc, hk, hfree]
    exact hs.count hK

/-- A change of clusters only leaves the free clusters. -/
theorem freeSet_eq (hg : g.Wf) {C : Set ℕ} (hT : Touches g ∅ C v v') : freeSet g v' = freeSet g v :=
  freeSet_congr hg fun c hc => by rw [hT.fat_eq hg hc (by simp)]

/-- Slots of a directory are rewritten. -/
theorem rewrites (hs : Sound g K P X v) (hg : g.Wf) (hw : Rewrites g (P.clusters d) W v v') :
    Sound g K P (X ∪ W) v' :=
  hs.of_tree hw.touches (hs.toTree.rewrites hg hw) (fun hm => hm.of_touches hw.touches)
    (freeSet_eq hg hw.touches) hw.count hw.known

/-- **A free cluster is taken.** -/
theorem taken (hs : Sound g K P X v) (hg : g.Wf) (hT : Taken g c v v') : Sound g K P X v' := by
  have hnew : ∀ h ∈ P.heads, c ∉ P.clusters h := fun h hh => hs.notMem_of_free hT.free hh
  have hcard := hT.card hg
  refine ⟨hs.toTree.touches hg hT.touches ?_ ?_, hT.touches.quiet hs.quiet, hT.mirrored hs.mirrored,
    ?_, fun hK => ?_⟩
  · rintro h hh b hb rfl
    exact hnew h hh hb
  · rintro h hh b hb rfl
    exact hnew h (.inl hh) hb
  · have := hs.word
    rw [hT.count]
    split <;> omega
  · obtain ⟨hk, hc⟩ := hs.count hK
    refine ⟨hT.known.trans hk, ?_⟩
    rw [hT.count, if_pos ⟨hk, by omega⟩]
    omega

/-- The slots of a taken cluster are blank. -/
theorem blank_of_taken (hg : g.Wf) (hT : Taken g c v v') (hj : j < perClus g) :
    slot g v' c j 0 = 0 := by
  rw [slot_apply (by omega)]
  exact hT.zero _ (hg.slot_end hj (by omega))

/-- A taken cluster is of no chain. -/
theorem taken_new (hs : Sound g K P X v) (hT : Taken g c v v') :
    ∀ h ∈ P.heads, c ∉ P.clusters h := fun _ hh => hs.notMem_of_free hT.free hh

/-- **A taken cluster becomes a directory.** -/
theorem taken_dir (hs : Sound g K P X v) (hg : g.Wf) (hT : Taken g c v v') :
    Sound g K (P.addDir c) X v' := by
  have hs' := hs.taken hg hT
  exact ⟨hs'.toTree.addDir hg (hT.isChain hg) (hs.taken_new hT) fun j hj => blank_of_taken hg hT hj,
    hs'.quiet, hs'.mirrored, hs'.word, hs'.count⟩

/-- **A taken cluster becomes a file.** -/
theorem taken_file (hs : Sound g K P X v) (hg : g.Wf) (hT : Taken g c v v') :
    Sound g K (P.addFile c) X v' := by
  have hs' := hs.taken hg hT
  exact ⟨hs'.toTree.addFile (hT.isChain hg) (hs.taken_new hT), hs'.quiet, hs'.mirrored, hs'.word,
    hs'.count⟩

/-- **A taken cluster is linked to a chain.** -/
theorem link (hs : Sound g K P X v) (hg : g.Wf) (hT : Taken g c v v₁) (hh : h ∈ P.heads)
    (hl : P.clusters h = l ++ [k]) :
    ∃ v', fatSet g k c v₁ = (fatOk, v') ∧ Sound g K (P.grow h c) X v' ∧
      IsChain g v' h (P.clusters h ++ [c]) ∧
      (∀ b j, clusValid g b = true → b ≠ c → j < perClus g → slot g v' b j = slot g v b j) ∧
      ∀ j < perClus g, slot g v' c j 0 = 0 := by
  have hs₁ := hs.taken hg hT
  have hnew := hs.taken_new hT
  have hch := (hs₁.chain h hh).1
  have hkm : k ∈ P.clusters h := by simp [hl]
  have hkv := hch.valid hkm
  have hck : c ≠ k := fun he => hnew h hh (he ▸ hkm)
  obtain ⟨v', hr, ht, hf, hm, -, hc', hk'⟩ := fatSet_quiet hg hs₁.quiet hkv c
  rw [hg.valid_mod hT.valid] at hf
  have hfat : ∀ b, clusValid g b = true → b ≠ k → fat g v' b = fat g v₁ b :=
    fun b hb hn => ht.fat_eq hg hb hn
  -- the chain
  have hkl : k ∉ l := by
    have := hch.nodup
    rw [hl, List.nodup_append] at this
    exact fun hmem => this.2.2 k hmem k (by simp) rfl
  have hchain : IsChain g v' h (P.clusters h ++ [c]) := by
    rw [hl] at hch ⊢
    refine hch.append hT.valid (fun x hx => ?_) hf ?_ hg
    · exact hfat x (hch.valid (by simp [hx])) fun he => hkl (he ▸ hx)
    · rw [hfat c hT.valid hck, hT.mark]
  have hslot : ∀ b j, clusValid g b = true → b ≠ c → j < perClus g →
      slot g v' b j = slot g v b j := by
    intro b j hb hn hj
    refine cut_congr fun i hi => ?_
    rw [ht.byte_eq hg hb (by simp) (hg.slot_end hj hi),
      hT.touches.byte_eq hg hb hn (hg.slot_end hj hi)]
  have hblank : ∀ j < perClus g, slot g v' c j 0 = 0 := by
    intro j hj
    rw [slot_apply (by omega), ht.byte_eq hg hT.valid (by simp) (hg.slot_end hj (by omega)),
      ← slot_apply (by omega)]
    exact blank_of_taken hg hT hj
  have htree : Tree g (P.grow h c) X v' := by
    refine hs₁.toTree.grow hg hh hchain hnew (fun r hr hne b hb => ?_) (fun d b j ha => ?_) hblank
    · exact hfat b ((hs₁.chain r hr).1.valid hb) fun he =>
        hne (hs.disjoint r hr h hh b hb (he ▸ hkm))
    · exact cut_congr fun i hi =>
        ht.byte_eq hg ((hs₁.dir_chain ha.1).valid ha.2.1) (by simp) (hg.slot_end ha.2.2 hi)
  refine ⟨v', hr, hs₁.of_tree ht htree hm (freeSet_congr hg fun b hb => ?_) hc' hk', hchain, hslot,
    hblank⟩
  by_cases hbk : b = k
  · -- the last cluster of the chain is as little free as before
    rw [hbk, hf]
    exact ⟨fun h0 => absurd h0 (by rintro rfl; exact absurd hT.valid (by simp [clusValid])),
      fun h0 => absurd h0 (hch.fat_ne_zero hkm)⟩
  · rw [hfat b hb hbk]

/-- **A chain that no entry leads to is freed.** -/
theorem free (hs : Sound g K P X v) (hg : g.Wf) (hr : r ∈ P.heads) (hroot : r ≠ g.rootClus)
    (hno : ∀ d c j, P.At g d c j → (c, j) ∉ X → Live (slot g v c j) → entClus (slot g v c j) ≠ r) :
    Sound g K (P.drop r) X (freeChain g r v) ∧ Freed g (P.clusters r) v (freeChain g r v) := by
  have hch := (hs.chain r hr).1
  have hF := freeChain_quiet hg hs.quiet hch fun _ => hs.word
  have hcard := hF.card hg hch.nodup (fun c hc => hch.valid hc) fun c hc => hch.fat_ne_zero hc
  have hlt := hg.card_freeSet_lt (freeChain g r v)
  refine ⟨⟨?_, hF.touches.quiet hs.quiet, hF.mirrored hs.mirrored, ?_, fun hK => ?_⟩, hF⟩
  · refine (hs.toTree.drop hroot hno).touches hg hF.touches (fun h hh c hc hm => ?_) (by simp)
    have hne : h ≠ r := hh.elim (fun hh => hh.2) fun hh => hh.2
    exact hne (hs.disjoint h (hh.imp And.left And.left) r hr c hc hm)
  · by_cases hk : v.freeKnown = true
    · rw [hF.count hk]
      exact Nat.mod_lt _ (by norm_num)
    · rw [hF.unknown (by simpa using hk)]
      exact hs.word
  · obtain ⟨hk, hc⟩ := hs.count hK
    refine ⟨hF.known.trans hk, ?_⟩
    rw [hF.count hk, hc, ← hcard]
    exact Nat.mod_eq_of_lt hlt

/-- The clusters of a file are written. -/
theorem data (hs : Sound g K P X v) (hg : g.Wf) (hf : h ∈ P.files)
    (hT : Touches g ∅ {c | c ∈ P.clusters h} v v') (hc : v'.freeCount = v.freeCount)
    (hk : v'.freeKnown = v.freeKnown) : Sound g K P X v' := by
  refine hs.of_tree hT ?_ (fun hm => hm.of_touches hT) (freeSet_eq hg hT) hc hk
  refine hs.toTree.touches hg hT (by simp) fun d hd c hc hm => ?_
  have hdh : d = h := hs.disjoint d (.inl hd) h (.inr hf) c hc hm
  exact Set.disjoint_left.mp hs.apart hd (hdh ▸ hf)

end Sound

end Fat32

end Csos

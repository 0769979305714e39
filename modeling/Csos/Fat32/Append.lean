import Csos.Fat32.Slots
/-!
# FAT32 — writing to a file

`fat32_chain_write` fills the chain of the file and appends clusters to it
as it needs them. On a device that does not fail it ends in one of two ways:
the buffer is written, or there is no free cluster left and the part before
the last cluster is. So what a write does to the FAT, and whether it
succeeds, depends on how many clusters are free, and on nothing else.
-/

namespace Csos

namespace Fat32

variable {g : Geo} {v v' v₁ : Vol} {c d i j k n s s' off : ℕ} {l l' : List ℕ} {ch ch' : Chain}
  {p q q' buf : List UInt8} {rc : ℤ} {f f' : Handle}

/-! ## A new cluster -/

/-- A cluster that has been taken is all of the chain that is new. -/
theorem Taken.wrote (hg : g.Wf) (hT : Taken g c v v₁) (h : IsChain g v s l)
    (hoff : off ≤ l.length * g.clusBytes) (hch : IsChain g v' s' (l ++ [c]))
    (ht : Touches g {c | c ∈ l} ∅ v₁ v') (hnz : ∀ x ∈ l, fat g v' x ≠ 0)
    (hmir : Mirrored g v₁ → Mirrored g v') (hcount : v'.freeCount = v₁.freeCount)
    (hknown : v'.freeKnown = v₁.freeKnown) : Wrote g s l off [] v s' (l ++ [c]) v' := by
  have hnl := hT.notMem h
  have hdata : Touches g ({c} ∪ {c | c ∈ l}) ({c} ∪ ∅) v v' := hT.touches.trans ht
  have hcard := hT.card hg
  have hfree : freeSet g v' = freeSet g v₁ := by
    refine freeSet_congr hg fun d hd => ?_
    by_cases hdl : d ∈ l
    · have h1 := (h.touches hg hT.touches fun x hx he => hnl (he ▸ hx)).fat_ne_zero hdl
      exact ⟨fun h0 => absurd h0 (hnz d hdl), fun h0 => absurd h0 h1⟩
    · rw [ht.fat_eq hg hd hdl]
  have hlen : (l ++ [c]).length = l.length + 1 := by simp
  refine ⟨hch, List.prefix_append _ _, fun x hx hn => ?_, hdata.mono ?_ ?_, ?_, fun i hi => ?_,
    fun hm => hmir (hT.mirrored hm), ?_, hknown.trans hT.known, ?_, fun hk hc => ?_⟩
  · obtain rfl : x = c := by simpa [hn] using hx
    exact hT.free
  · rintro x (rfl | hx)
    · simp
    · exact List.mem_append_left _ hx
  · rintro x (rfl | hx)
    · simp
    · exact absurd hx (by simp)
  · rw [List.length_nil, hlen, Nat.add_mul]
    omega
  · rw [if_neg (by simp)]
    split
    · -- the clusters from before
      rename_i hil
      rw [content_append _ _ _ hil]
      refine content_touches hg h hdata (fun x hx hxc => ?_) hil
      rcases hxc with rfl | hxc
      · exact hnl hx
      · exact absurd hxc (by simp)
    · rename_i hil
      have hii := index_lt hi
      have hle : l.length ≤ i / g.clusBytes :=
        (Nat.le_div_iff_mul_le hg.clusBytes_pos).mpr (by omega)
      have hidx : i / g.clusBytes = l.length := by omega
      have hmod := Nat.mod_lt i hg.clusBytes_pos
      rw [content, hidx, List.getD_append_right _ _ _ _ le_rfl, Nat.sub_self, List.getD_cons_zero,
        ht.byte_eq hg hT.valid (by simp) hmod, hT.zero _ hmod]
  · rw [hfree, hlen]
    omega
  · rw [hcount, hT.count]
    split <;> omega
  · rw [hcount, hT.count, hfree, if_pos ⟨hk, by omega⟩]
    omega

/-- **A cluster is linked to the last one.** -/
theorem IsChain.link (hg : g.Wf) (hq : Quiet v) (hT : Taken g c v v₁)
    (h : IsChain g v s (l ++ [k])) :
    ∃ v', fatSet g k c v₁ = (fatOk, v') ∧ Touches g {k} ∅ v₁ v' ∧ IsChain g v' s (l ++ [k] ++ [c]) ∧
      (Mirrored g v₁ → Mirrored g v') ∧ v'.freeCount = v₁.freeCount ∧ v'.freeKnown = v₁.freeKnown := by
  have hnot := hT.notMem h
  have hkv : clusValid g k = true := h.valid (by simp)
  have h₁ : IsChain g v₁ s (l ++ [k]) := h.touches hg hT.touches fun x hx he => hnot (he ▸ hx)
  obtain ⟨v', hr, ht, hf, hm, -, hc, hk⟩ := fatSet_quiet hg (hT.touches.quiet hq) hkv c
  rw [hg.valid_mod hT.valid] at hf
  have hck : c ≠ k := by
    rintro rfl
    exact hnot (by simp)
  have hkl : k ∉ l := by
    have hnd := h.nodup
    rw [List.nodup_append] at hnd
    intro hx
    exact hnd.2.2 k hx k (by simp) rfl
  refine ⟨v', hr, ht, h₁.append hT.valid (fun x hx => ?_) hf ?_ hg, hm, hc, hk⟩
  · exact ht.fat_eq hg (h.valid (by simp [hx])) fun he => hkl (he ▸ hx)
  · rw [ht.fat_eq hg hT.valid hck, hT.mark]

/-- **A cluster is appended**, or there is none. -/
theorem appendCluster_quiet (hg : g.Wf) (hq : Quiet v) (h : IsChain g v ch.start l)
    (hcur : Cursor g l ch) (hoff : off ≤ l.length * g.clusBytes) :
    (appendCluster g ch l.length v = (errNospc, 0, ch, v) ∧ freeSet g v = ∅) ∨
      ∃ nc ch' v', appendCluster g ch l.length v = (fatOk, nc, ch', v') ∧
        Cursor g (l ++ [nc]) ch' ∧ Wrote g ch.start l off [] v ch'.start (l ++ [nc]) v' := by
  rcases allocCluster_quiet hg hq with ⟨hr, hno⟩ | ⟨nc, v₁, hr, hT⟩
  · refine .inl ⟨?_, ?_⟩
    · rw [appendCluster, hr]
      dsimp only
      rw [if_pos (by simp [clusValid])]
    · rw [Finset.eq_empty_iff_forall_notMem]
      intro d hd
      exact hno d ((mem_freeSet hg).mp hd).1 ((mem_freeSet hg).mp hd).2
  refine .inr ?_
  have hnl := hT.notMem h
  have hlen := h.length_le hg
  have hmarks := hg.marks
  by_cases hst : clusValid g ch.start = true
  case neg =>
    -- the first cluster of an empty file
    obtain rfl : l = [] := by
      by_contra hne
      exact hst (h.start_valid.mpr hne)
    refine ⟨nc, ⟨nc, nc, 0, true⟩, v₁, ?_, ⟨(hT.isChain hg).head, fun _ => rfl⟩, ?_⟩
    · rw [appendCluster, hr]
      dsimp only
      rw [if_neg (not_not.mpr hT.valid), if_pos hst, if_neg (by simp), List.length_nil]
    · exact hT.wrote hg h hoff (hT.isChain hg) (.refl g v₁) (by simp) id rfl rfl
  -- the last cluster is linked to the new one
  have hne : l ≠ [] := h.start_valid.mp hst
  obtain ⟨l₀, k, rfl⟩ : ∃ l₀ k, l = l₀ ++ [k] :=
    ⟨l.dropLast, l.getLast hne, (List.dropLast_append_getLast hne).symm⟩
  have h₁ : IsChain g v₁ ch.start (l₀ ++ [k]) :=
    h.touches hg hT.touches fun c hc he => hnl (he ▸ hc)
  have hq₁ := hT.touches.quiet hq
  obtain ⟨ch₁, hr₁, hs₁, hcur₁⟩ := chainAt_quiet hq₁ h₁ hcur l₀.length
  have hk : ((l₀ ++ [k])[l₀.length]?).getD 0 = k := by simp
  have hkv : clusValid g k = true := h.valid (by simp)
  rw [hk] at hr₁
  obtain ⟨v₂, hr₂, ht₂, hch, hm₂, hc₂, hk₂⟩ := h.link hg hq hT
  have hci : ((l₀ ++ [k]).length + (2 ^ 32 - 1)) % 2 ^ 32 = l₀.length := by
    rw [List.length_append, List.length_singleton] at hlen ⊢
    omega
  have hdone : appendCluster g ch (l₀ ++ [k]).length v =
      (fatOk, nc, ⟨ch₁.start, nc, (l₀ ++ [k]).length, true⟩, v₂) := by
    rw [appendCluster, hr]
    dsimp only
    rw [if_neg (not_not.mpr hT.valid), if_neg (not_not.mpr hst), hci, hr₁]
    dsimp only
    rw [if_neg (not_not.mpr hkv), hr₂]
    dsimp only
    rw [if_neg (by decide)]
  refine ⟨nc, ⟨ch₁.start, nc, (l₀ ++ [k]).length, true⟩, v₂, hdone, ⟨?_, fun _ => by simp⟩, ?_⟩
  · rw [← hch.head, hs₁]
  · rw [hs₁]
    exact hT.wrote hg h hoff hch (ht₂.mono (by simp) (by simp))
      (fun x hx => hch.fat_ne_zero (List.mem_append_left _ hx)) hm₂ hc₂ hk₂

/-! ## Writing along the chain -/

/-- **How a write of `p` ends**: `q` is written, which is all of `p`, or
there is no free cluster and `q` fills the chain. -/
def Ended (g : Geo) (off : ℕ) (p q : List UInt8) (rc : ℤ) (l' : List ℕ) (v' : Vol) : Prop :=
  rc = fatOk ∧ q = p ∨
    rc = errNospc ∧ freeSet g v' = ∅ ∧ q <+: p ∧ q ≠ p ∧ off + q.length = l'.length * g.clusBytes

theorem Ended.front (h : Ended g (off + p.length) q q' rc l' v') :
    Ended g off (p ++ q) (p ++ q') rc l' v' := by
  rcases h with ⟨hrc, rfl⟩ | ⟨hrc, hno, hpre, hne, hfull⟩
  · exact .inl ⟨hrc, rfl⟩
  · refine .inr ⟨hrc, hno, (List.prefix_append_right_inj p).mpr hpre,
      fun he => hne (List.append_cancel_left he), ?_⟩
    rw [List.length_append]
    omega

/-- What does not fit is not the end of something longer. -/
theorem Ended.back (h : Ended g off p q' rc l' v') (hrc : rc ≠ fatOk) :
    Ended g off (p ++ q) q' rc l' v' := by
  rcases h with ⟨hok, -⟩ | ⟨hno, hfree, hpre, hne, hfull⟩
  · exact absurd hok hrc
  · refine .inr ⟨hno, hfree, hpre.trans (List.prefix_append p q), fun he => hne ?_, hfull⟩
    rw [he] at hpre
    have := hpre.length_le
    rw [List.length_append] at this
    have hq : q = [] := List.length_eq_zero_iff.mp (by omega)
    rw [he, hq, List.append_nil]

/-- Nothing is left to take. -/
theorem Ended.none (hfree : freeSet g v = ∅) (hp : p ≠ []) (hfull : off = l.length * g.clusBytes) :
    Ended g off p [] errNospc l v :=
  .inr ⟨rfl, hfree, List.nil_prefix, fun he => hp he.symm, hfull⟩

/-- **A write succeeds exactly if there are clusters enough.** -/
theorem Wrote.ended_iff (hw : Wrote g s l off q v s' l' v')
    (he : Ended g off p q rc l' v') :
    rc = fatOk ↔ off + p.length ≤ (l.length + (freeSet g v).card) * g.clusBytes := by
  have hfree := hw.free
  rcases he with ⟨rfl, rfl⟩ | ⟨rfl, hno, hpre, hne, hfull⟩
  · refine iff_of_true rfl (hw.covers.trans (Nat.mul_le_mul_right _ ?_))
    omega
  · refine iff_of_false (by decide) ?_
    have hlt : q.length < p.length := by
      refine lt_of_le_of_ne hpre.length_le fun heq => hne (hpre.eq_of_length heq)
    rw [hno, Finset.card_empty, Nat.add_zero] at hfree
    rw [← hfree]
    omega

/-- The cluster a round writes to: one of the chain, or a new one. -/
theorem writeTarget_quiet (hg : g.Wf) (hq : Quiet v) (h : IsChain g v ch.start l)
    (hcur : Cursor g l ch) (hoff : off ≤ l.length * g.clusBytes) :
    (∃ ch', writeTarget g ch (off / g.clusBytes % 2 ^ 32) v = (errNospc, 0, ch', v) ∧
        ch'.start = ch.start ∧ Cursor g l ch' ∧ freeSet g v = ∅ ∧ off = l.length * g.clusBytes) ∨
      ∃ c ch' l' v', writeTarget g ch (off / g.clusBytes % 2 ^ 32) v = (fatOk, c, ch', v') ∧
        Cursor g l' ch' ∧ Wrote g ch.start l off [] v ch'.start l' v' ∧
        l'[off / g.clusBytes]? = some c := by
  have hlen := h.length_le hg
  have hmarks := hg.marks
  have hle : off / g.clusBytes ≤ l.length := Nat.div_le_of_le_mul (by rwa [Nat.mul_comm])
  have hidx : off / g.clusBytes % 2 ^ 32 = off / g.clusBytes := Nat.mod_eq_of_lt (by omega)
  obtain ⟨ch₁, hr, hst, hcur₁⟩ := chainAt_quiet hq h hcur (off / g.clusBytes)
  have hv := h.valid_getD (off / g.clusBytes)
  rw [hidx, writeTarget, hr]
  dsimp only
  by_cases hin : off / g.clusBytes < l.length
  · refine .inr ⟨_, ch₁, l, v, if_pos (hv.mpr hin), hcur₁, ?_, ?_⟩
    · rw [hst]
      exact .nil h hoff
    · rw [List.getElem?_eq_getElem hin]
      rfl
  · have hend : off / g.clusBytes = l.length := by omega
    have hfull : off = l.length * g.clusBytes := by
      have := Nat.div_mul_le_self off g.clusBytes
      rw [hend] at this
      omega
    rw [if_neg fun hh => hin (hv.mp hh), hend]
    rw [← hst] at h
    rcases appendCluster_quiet hg hq h hcur₁ hoff with ⟨hr₂, hno⟩ | ⟨c, ch', v', hr₂, hcur', hw⟩
    · exact .inl ⟨ch₁, hr₂, hst, hcur₁, hno, hfull⟩
    · refine .inr ⟨c, ch', l ++ [c], v', hr₂, hcur', ?_, by simp⟩
      rwa [hst] at hw

/-- The rounds of `fat32_chain_write`. -/
theorem writeLoop_quiet (hg : g.Wf) :
    ∀ (fuel : ℕ) (ch : Chain) (off : ℕ) (p : List UInt8) (v : Vol) (l : List ℕ), p.length ≤ fuel →
      Quiet v → IsChain g v ch.start l → Cursor g l ch → off ≤ l.length * g.clusBytes →
      ∃ rc ch' l' v' t q, writeLoop g fuel ch off p v = ⟨rc, [], ch', v', t⟩ ∧ Cursor g l' ch' ∧
        Wrote g ch.start l off q v ch'.start l' v' ∧ (∀ lba ∈ t, ∃ c ∈ l', InClus g c lba) ∧
        Ended g off p q rc l' v' := by
  intro fuel
  induction fuel with
  | zero =>
    intro ch off p v l hf _ h hcur hoff
    obtain rfl : p = [] := List.length_eq_zero_iff.mp (by omega)
    exact ⟨fatOk, ch, l, v, [], [], rfl, hcur, .nil h hoff, by simp, .inl ⟨rfl, rfl⟩⟩
  | succ fuel ih =>
    intro ch off p v l hf hq h hcur hoff
    rw [writeLoop]
    by_cases hp : p = []
    · rw [if_pos hp]
      exact ⟨fatOk, ch, l, v, [], [], rfl, hcur, .nil h hoff, by simp, .inl ⟨rfl, hp.symm⟩⟩
    rw [if_neg hp]
    rcases writeTarget_quiet hg hq h hcur hoff with
      ⟨ch₁, hr, hst, hcur₁, hno, hfull⟩ | ⟨c, ch₁, l₁, v₁, hr, hcur₁, hw₁, hc⟩
    · -- no cluster is left
      rw [hr]
      dsimp only
      rw [if_pos (by decide)]
      refine ⟨errNospc, ch₁, l, v, [], [], rfl, hcur₁, ?_, by simp, .none hno hp hfull⟩
      rw [hst]
      exact .nil h hoff
    · have hmem : c ∈ l₁ := List.mem_of_getElem? hc
      have hcv := hw₁.chain.valid hmem
      obtain ⟨hsec, -⟩ := hg.sector_end off
      have hpos : 0 < p.length := List.length_pos_iff.mpr hp
      obtain ⟨n, hn⟩ : ∃ n, n = min (512 - off % g.clusBytes % 512) p.length := ⟨_, rfl⟩
      have hn0 : 0 < n := by
        have := Nat.mod_lt (off % g.clusBytes) (show 512 > 0 by norm_num)
        omega
      have hnp : n ≤ p.length := hn ▸ min_le_right _ _
      obtain ⟨v₂, hr₂, hw₂⟩ := writePart_quiet hg (hw₁.touches.quiet hq) hw₁.chain hc hn
      have hw₁₂ : Wrote g ch.start l off (p.take n) v ch₁.start l₁ v₂ := hw₁.trans hg hw₂
      have htake : (p.take n).length = n := by rw [List.length_take, min_eq_left hnp]
      have hcov := hw₁₂.covers
      rw [htake] at hcov
      obtain ⟨rc, ch', l', v', t, q, hr', hcur', hw', ht, hend⟩ :=
        ih ch₁ (off + n) (p.drop n) v₂ l₁ (by rw [List.length_drop]; omega)
          (hw₁₂.touches.quiet hq) hw₁₂.chain hcur₁ hcov
      rw [hr]
      dsimp only
      rw [if_neg (by decide), hg.clusLba_add hcv hsec, ← hn, hr₂]
      dsimp only
      rw [hr']
      refine ⟨rc, ch', l', v', _, p.take n ++ q, rfl, hcur', hw₁₂.trans hg (by rwa [htake]),
        fun lba hl => ?_, ?_⟩
      · rcases List.mem_cons.mp hl with rfl | hl
        · exact ⟨c, hw'.grown.subset hmem, by simp only [InClus]; omega⟩
        · exact ht lba hl
      · rw [← htake] at hend
        have := hend.front
        rwa [htake, List.take_append_drop] at this

/-- **`fat32_chain_write`** writes the buffer, or as much of it as there are
clusters for. -/
theorem chainWrite_quiet (hg : g.Wf) (hq : Quiet v) (h : IsChain g v ch.start l) (hcur : Cursor g l ch)
    (hoff : off ≤ l.length * g.clusBytes) (p : List UInt8) :
    ∃ rc ch' l' v' t q, chainWrite g ch off p v = ⟨rc, [], ch', v', t⟩ ∧ Cursor g l' ch' ∧
      Wrote g ch.start l off q v ch'.start l' v' ∧ (∀ lba ∈ t, ∃ c ∈ l', InClus g c lba) ∧
      Ended g off p q rc l' v' :=
  writeLoop_quiet hg p.length ch off p v l le_rfl hq h hcur hoff

/-- The rounds of `fat32_write` that fill the hole. -/
theorem gapLoop_quiet (hg : g.Wf) :
    ∀ (fuel : ℕ) (ch : Chain) (off gap : ℕ) (v : Vol) (l : List ℕ), gap ≤ fuel * 128 →
      Quiet v → IsChain g v ch.start l → Cursor g l ch → off ≤ l.length * g.clusBytes →
      ∃ rc ch' l' v' q, gapLoop g fuel ch off gap v = (rc, ch', v') ∧ Cursor g l' ch' ∧
        Wrote g ch.start l off q v ch'.start l' v' ∧ Ended g off (List.replicate gap 0) q rc l' v' := by
  intro fuel
  induction fuel with
  | zero =>
    intro ch off gap v l hf _ h hcur hoff
    obtain rfl : gap = 0 := by omega
    exact ⟨fatOk, ch, l, v, [], rfl, hcur, .nil h hoff, .inl ⟨rfl, rfl⟩⟩
  | succ fuel ih =>
    intro ch off gap v l hf hq h hcur hoff
    rw [gapLoop]
    by_cases hgap : gap = 0
    · rw [if_pos hgap, hgap]
      exact ⟨fatOk, ch, l, v, [], rfl, hcur, .nil h hoff, .inl ⟨rfl, rfl⟩⟩
    rw [if_neg hgap]
    obtain ⟨n, hn⟩ : ∃ n, n = min gap 128 := ⟨_, rfl⟩
    have hsplit : List.replicate gap (0 : UInt8) = List.replicate n 0 ++ List.replicate (gap - n) 0 := by
      rw [← List.replicate_add]
      congr 1
      omega
    obtain ⟨rc, ch₁, l₁, v₁, t, q, hr, hcur₁, hw₁, -, hend⟩ :=
      chainWrite_quiet hg hq h hcur hoff (List.replicate n 0)
    rw [← hn]
    dsimp only
    rw [hr]
    dsimp only
    by_cases hrc : rc = fatOk
    case neg =>
      rw [if_pos hrc, hsplit]
      exact ⟨rc, ch₁, l₁, v₁, q, rfl, hcur₁, hw₁, hend.back hrc⟩
    rw [if_neg (not_not.mpr hrc)]
    obtain rfl : q = List.replicate n 0 := by
      rcases hend with ⟨-, hq⟩ | ⟨hno, -⟩
      · exact hq
      · exact absurd (hrc.symm.trans hno) (by decide)
    have hcov := hw₁.covers
    rw [List.length_replicate] at hcov
    obtain ⟨rc', ch', l', v', q, hr', hcur', hw', hend'⟩ :=
      ih ch₁ (off + n) (gap - n) v₁ l₁ (by omega) (hw₁.touches.quiet hq) hw₁.chain hcur₁ hcov
    refine ⟨rc', ch', l', v', List.replicate n 0 ++ q, hr', hcur',
      hw₁.trans hg (by rwa [List.length_replicate]), ?_⟩
    rw [hsplit]
    exact .front (by rwa [List.length_replicate])

/-! ## The entry of the file -/

/-- The entry with another first cluster and size. -/
def setEntry (clus size : ℕ) (e : Bytes) : Bytes :=
  Bytes.store 4 (Bytes.store 2 (Bytes.store 2 e 20 (clus / 2 ^ 16 % 2 ^ 16)) 26 (clus % 2 ^ 16)) 28 size

/-- **`fat32_update_entry`** rewrites the slot. -/
theorem updateEntry_quiet (hg : g.Wf) (hq : Quiet v) (h : IsChain g v d l) (hk : HasSlot g l k)
    (hlt : k < 2 ^ 27) (clus size : ℕ) :
    ∃ v', updateEntry g d (k * 32) clus size v = (fatOk, v') ∧ Rewrites g l {place g l k} v v' ∧
      dirSlot g v' l k = cut (setEntry clus size (dirSlot g v l k)) := by
  have hmod : k % 2 ^ 27 = k := Nat.mod_eq_of_lt hlt
  have hk' : HasSlot g l (k % 2 ^ 27) := by rwa [hmod]
  have hdiv : k * 32 / 32 = k := Nat.mul_div_cancel k (by norm_num)
  obtain ⟨ch, hst, hcur, hread⟩ := entRead_quiet hg hq h h.cursor_init k
  have hr : entRead g (chainInit d) k v = (fatOk, dirSlot g v l k, ch, v) := by
    rcases hread with ⟨-, hr⟩ | ⟨hno, -⟩
    · rwa [hmod] at hr
    · exact absurd hk' hno
  obtain ⟨ch', v', hr', -, -, hw, he⟩ :=
    entWrite_quiet hg hq h hcur hk' (setEntry clus size (dirSlot g v l k))
  rw [hmod] at hw he
  refine ⟨v', ?_, hw, he⟩
  rw [updateEntry, hdiv, hr]
  dsimp only
  rw [if_neg (by decide)]
  rw [setEntry] at hr'
  rw [hr']

/-! ## `fat32_write` -/

/-- The handle is on a file with the clusters `l`, which hold its size. -/
structure OnFile (g : Geo) (v : Vol) (l : List ℕ) (f : Handle) : Prop where
  file : f.ff.isDir = false
  chain : IsChain g v f.ff.chain.start l
  cursor : Cursor g l f.ff.chain
  size : f.ff.size ≤ l.length * g.clusBytes

/-- What a write stores from `min f.pos f.ff.size` on: zeros up to the
position, then the buffer. -/
def stored (f : Handle) (buf : List UInt8) : List UInt8 :=
  List.replicate (f.pos - f.ff.size) 0 ++ buf.take (2 ^ 32 - 1)

/-- **`fat32_write`** up to the update of the entry. -/
theorem write_quiet (hg : g.Wf) (hq : Quiet v) (hf : OnFile g v l f) (buf : List UInt8) :
    ∃ rc ch' l' v₁ q, Cursor g l' ch' ∧
      Wrote g f.ff.chain.start l (min f.pos f.ff.size) q v ch'.start l' v₁ ∧
      Ended g (min f.pos f.ff.size) (stored f buf) q rc l' v₁ ∧
      (rc ≠ fatOk → write g f buf v = (rc, { f with ff := { f.ff with chain := ch' } }, v₁)) ∧
      (rc = fatOk → write g f buf v =
        let pos := f.pos + (buf.take (2 ^ 32 - 1)).length
        let size := if f.ff.size < pos then pos % 2 ^ 32 else f.ff.size
        (((buf.take (2 ^ 32 - 1)).length : ℤ),
          ⟨pos, size, f.isDir, { f.ff with chain := ch', size := size }⟩,
          (updateEntry g f.ff.dirClus f.ff.dirOff ch'.start size v₁).2)) := by
  have hpos : min f.pos f.ff.size + (f.pos - f.ff.size) = f.pos := by omega
  -- the hole
  obtain ⟨rc, ch₁, l₁, v₁, q, hr, hcur₁, hw₁, hend⟩ : ∃ rc ch₁ l₁ v₁ q,
      gapLoop g ((f.pos - f.ff.size) / 128 + 1) f.ff.chain f.ff.size (f.pos - f.ff.size) v = (rc, ch₁, v₁) ∧
      Cursor g l₁ ch₁ ∧ Wrote g f.ff.chain.start l (min f.pos f.ff.size) q v ch₁.start l₁ v₁ ∧
      Ended g (min f.pos f.ff.size) (List.replicate (f.pos - f.ff.size) 0) q rc l₁ v₁ := by
    by_cases hgap : f.pos - f.ff.size = 0
    · refine ⟨fatOk, f.ff.chain, l, v, [], ?_, hf.cursor, ?_, .inl ⟨rfl, by rw [hgap]; rfl⟩⟩
      · rw [hgap, gapLoop, if_pos rfl]
      · exact .nil hf.chain ((min_le_right _ _).trans hf.size)
    · rw [show min f.pos f.ff.size = f.ff.size by omega]
      exact gapLoop_quiet hg _ _ _ _ v l (by omega) hq hf.chain hf.cursor hf.size
  by_cases hrc : rc = fatOk
  case neg =>
    refine ⟨rc, ch₁, l₁, v₁, q, hcur₁, hw₁, hend.back hrc, fun _ => ?_, fun h => absurd h hrc⟩
    rw [write, if_neg (by simp [hf.file])]
    dsimp only
    rw [hr]
    dsimp only
    rw [if_pos hrc]
  -- the buffer
  obtain rfl : q = List.replicate (f.pos - f.ff.size) 0 := by
    rcases hend with ⟨-, hq⟩ | ⟨hno, -⟩
    · exact hq
    · exact absurd (hrc.symm.trans hno) (by decide)
  have hcov := hw₁.covers
  rw [List.length_replicate, hpos] at hcov
  obtain ⟨rc', ch', l', v', t, q, hr', hcur', hw', -, hend'⟩ :=
    chainWrite_quiet hg (hw₁.touches.quiet hq) hw₁.chain hcur₁ hcov (buf.take (2 ^ 32 - 1))
  refine ⟨rc', ch', l', v', List.replicate (f.pos - f.ff.size) 0 ++ q, hcur',
    hw₁.trans hg (by rwa [List.length_replicate, hpos]),
    .front (by rwa [List.length_replicate, hpos]), fun hne => ?_, fun hok => ?_⟩
  all_goals
    rw [write, if_neg (by simp [hf.file])]
    dsimp only
    rw [hr]
    dsimp only
    rw [if_neg (not_not.mpr hrc), hr']
    dsimp only
  · rw [if_pos hne]
  · rw [if_neg (not_not.mpr hok)]

theorem stored_length (f : Handle) (buf : List UInt8) : min f.pos f.ff.size + (stored f buf).length =
    f.pos + min buf.length (2 ^ 32 - 1) := by
  rw [stored, List.length_append, List.length_replicate, List.length_take, min_comm (2 ^ 32 - 1)]
  omega

/-- **`fat32_write` fails** exactly if the clusters do not hold what it is to
write, and has then taken all that were free. -/
theorem write_fails_iff (hg : g.Wf) (hq : Quiet v) (hf : OnFile g v l f) (buf : List UInt8) :
    ∃ s' l' v₁ q, Wrote g f.ff.chain.start l (min f.pos f.ff.size) q v s' l' v₁ ∧
      ((write g f buf v).1 < 0 ↔
        (l.length + (freeSet g v).card) * g.clusBytes < f.pos + min buf.length (2 ^ 32 - 1)) ∧
      ((write g f buf v).1 < 0 → (write g f buf v).2.2 = v₁ ∧ freeSet g v₁ = ∅) := by
  obtain ⟨rc, ch', l', v₁, q, -, hw, hend, hfail, hok⟩ := write_quiet hg hq hf buf
  have hiff := hw.ended_iff hend
  rw [stored_length] at hiff
  refine ⟨_, l', v₁, q, hw, ?_⟩
  by_cases hrc : rc = fatOk
  · have h0 : ¬ (write g f buf v).1 < 0 := by
      rw [hok hrc]
      simp
    exact ⟨iff_of_false h0 (not_lt.mpr (hiff.mp hrc)), fun h => absurd h h0⟩
  · have hno : rc = errNospc ∧ freeSet g v₁ = ∅ := by
      rcases hend with ⟨h, -⟩ | ⟨h, hnone, -⟩
      · exact absurd h hrc
      · exact ⟨h, hnone⟩
    rw [hfail hrc, hno.1]
    exact ⟨iff_of_true (show errNospc < 0 by decide) (not_le.mp fun h => hrc (hiff.mpr h)),
      fun _ => ⟨rfl, hno.2⟩⟩

end Fat32

end Csos

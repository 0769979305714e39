import Mathlib.Data.List.GetD
import Csos.Fat32.Chains
/-!
# FAT32 — reading and writing along a chain

`fat32_chain_read` gives the bytes of `content`. What `fat32_chain_write`
has done is a `Wrote`: the chain has grown by free clusters, the bytes of
the buffer are where they belong, and the rest is as it was, or zero where
the chain is new. Appending a cluster and filling part of a sector are both
such steps, and a write is a sequence of them.
-/

namespace Csos

namespace Fat32

variable {g : Geo} {v v' v₁ : Vol} {c i j k n s s' s₁ off idx lba : ℕ} {l l' l₁ : List ℕ}
  {F C : Set ℕ} {ch ch' : Chain} {p q : List UInt8}

/-! ## Offsets -/

theorem Geo.Wf.clusBytes_pos (hg : g.Wf) : 0 < g.clusBytes := by
  have := hg.clusBytes
  have := hg.secPerClus
  omega

/-- Offsets within one block of `b` bytes. -/
theorem div_mod_add {a b i : ℕ} (h : a % b + i < b) :
    (a + i) / b = a / b ∧ (a + i) % b = a % b + i := by
  have hb : 0 < b := by omega
  have ha := Nat.div_add_mod a b
  have hsplit : a + i = a % b + i + b * (a / b) := by omega
  rw [hsplit, Nat.add_mul_div_left _ _ hb, Nat.add_mul_mod_self_left, Nat.div_eq_of_lt h,
    Nat.mod_eq_of_lt h]
  exact ⟨Nat.zero_add _, rfl⟩

/-- A byte of the same sector. -/
theorem byte_add (v : Vol) (c : ℕ) {w : ℕ} (h : w % 512 + i < 512) :
    byte g v c (w + i) = v.sec g (clusLba g c + w / 512) (w % 512 + i) := by
  rw [byte, (div_mod_add h).1, (div_mod_add h).2]

/-- What is left of a sector is in the cluster. -/
theorem Geo.Wf.sector_end (hg : g.Wf) (off : ℕ) :
    off % g.clusBytes / 512 < g.secPerClus ∧
      off % g.clusBytes + (512 - off % g.clusBytes % 512) ≤ g.clusBytes := by
  have hb := hg.clusBytes
  have hlt := Nat.mod_lt off hg.clusBytes_pos
  omega

/-! ## The bytes of a chain -/

/-- The bytes of the clusters of `l`, one after the other. -/
def content (g : Geo) (v : Vol) (l : List ℕ) (i : ℕ) : UInt8 :=
  byte g v (l.getD (i / g.clusBytes) 0) (i % g.clusBytes)

/-- An offset of the chain is in a cluster of it. -/
theorem index_lt (h : i < l.length * g.clusBytes) : i / g.clusBytes < l.length :=
  Nat.div_lt_of_lt_mul (by rwa [Nat.mul_comm] at h)

theorem content_add (v : Vol) (l : List ℕ) (h : off % g.clusBytes + i < g.clusBytes) :
    content g v l (off + i) = byte g v (l.getD (off / g.clusBytes) 0) (off % g.clusBytes + i) := by
  rw [content, (div_mod_add h).1, (div_mod_add h).2]

/-- The content changes only where clusters are touched. -/
theorem content_touches (hg : g.Wf) (h : IsChain g v s l) (ht : Touches g F C v v')
    (hC : ∀ c ∈ l, c ∉ C) (hi : i < l.length * g.clusBytes) : content g v' l i = content g v l i := by
  have hidx := index_lt hi
  have hmem : l.getD (i / g.clusBytes) 0 ∈ l := by
    rw [List.getD_eq_getElem _ _ hidx]
    exact List.getElem_mem hidx
  exact ht.byte_eq hg (h.valid hmem) (hC _ hmem) (Nat.mod_lt _ hg.clusBytes_pos)

/-- The content of the front of a chain. -/
theorem content_append (v : Vol) (l l' : List ℕ) (hi : i < l.length * g.clusBytes) :
    content g v (l ++ l') i = content g v l i := by
  have hidx := index_lt hi
  rw [content, content, List.getD_append _ _ _ _ hidx]

/-! ## Reading -/

/-- **`fat32_chain_read`** gives the content and changes nothing. -/
theorem readLoop_quiet (hg : g.Wf) (hq : Quiet v) (h : IsChain g v s l) :
    ∀ (fuel : ℕ) (ch : Chain) (off len : ℕ), len ≤ fuel → Cursor g l ch →
      off + len ≤ l.length * g.clusBytes →
      ∃ ch' t, readLoop g fuel ch off len v =
          ⟨fatOk, (List.range len).map fun i => content g v l (off + i), ch', v, t⟩ ∧
        ch'.start = ch.start ∧ Cursor g l ch' ∧ ∀ lba ∈ t, ∃ c ∈ l, InClus g c lba := by
  intro fuel
  induction fuel with
  | zero =>
    intro ch off len hf hcur _
    obtain rfl : len = 0 := by omega
    exact ⟨ch, [], rfl, rfl, hcur, by simp⟩
  | succ fuel ih =>
    intro ch off len hf hcur hend
    rw [readLoop]
    split
    · rename_i h0
      subst h0
      exact ⟨ch, [], rfl, rfl, hcur, by simp⟩
    rename_i h0
    have hidx : off / g.clusBytes < l.length := index_lt (by omega)
    have hlen := h.length_le hg
    have hmarks := hg.marks
    have hci : off / g.clusBytes % 2 ^ 32 = off / g.clusBytes := Nat.mod_eq_of_lt (by omega)
    obtain ⟨ch₁, hr, hst, hcur₁⟩ := chainAt_quiet hq h hcur (off / g.clusBytes)
    have hv := (h.valid_getD (off / g.clusBytes)).mpr hidx
    have hget : (l[off / g.clusBytes]?).getD 0 = l.getD (off / g.clusBytes) 0 :=
      List.getD_eq_getElem?_getD.symm
    rw [hget] at hr hv
    set c := l.getD (off / g.clusBytes) 0 with hcdef
    have hmem : c ∈ l := by
      rw [hcdef, List.getD_eq_getElem _ _ hidx]
      exact List.getElem_mem hidx
    obtain ⟨hsec, hroom⟩ := hg.sector_end off
    set w := off % g.clusBytes with hw
    set n := min (512 - w % 512) len with hn
    have hn1 : n ≤ 512 - w % 512 := min_le_left _ _
    have hn2 : n ≤ len := min_le_right _ _
    have hpos : 0 < n := by
      have := Nat.mod_lt w (show 512 > 0 by norm_num)
      omega
    simp only [hci, hr, hv, not_true_eq_false, if_false, hg.clusLba_add hv hsec, readSec_quiet hq]
    obtain ⟨ch', t, hrest, hst', hcur', ht⟩ := ih ch₁ (off + n) (len - n) (by omega) hcur₁ (by omega)
    rw [hrest]
    refine ⟨ch', (clusLba g c + w / 512) :: t, ?_, hst'.trans hst, hcur', ?_⟩
    · -- the bytes of this round, then the rest
      have hbytes : (List.range len).map (fun i => content g v l (off + i)) =
          (List.range n).map (fun i => v.sec g (clusLba g c + w / 512) (w % 512 + i)) ++
            (List.range (len - n)).map fun i => content g v l (off + n + i) := by
        conv_lhs => rw [show len = n + (len - n) by omega, List.range_add, List.map_append]
        congr 1
        · refine List.map_congr_left fun i hi => ?_
          have hi := List.mem_range.mp hi
          rw [content_add v l (by omega), ← hcdef, ← hw, byte_add v c (by omega)]
        · rw [List.map_map]
          refine List.map_congr_left fun i _ => ?_
          rw [Function.comp_apply, Nat.add_assoc]
      rw [hbytes]
    · intro lba hlba
      rcases List.mem_cons.mp hlba with rfl | hlba
      · exact ⟨c, hmem, by simp only [InClus]; omega⟩
      · exact ht lba hlba

/-! ## Free clusters -/

/-- The free clusters. -/
def freeSet (g : Geo) (v : Vol) : Finset ℕ :=
  (Finset.Ico 2 (g.clusterCount + 2)).filter fun c => fat g v c = 0

theorem mem_freeSet (hg : g.Wf) : c ∈ freeSet g v ↔ clusValid g c = true ∧ fat g v c = 0 := by
  rw [freeSet, Finset.mem_filter, Finset.mem_Ico, hg.valid_iff]
  omega

theorem freeSet_congr (hg : g.Wf)
    (h : ∀ c, clusValid g c = true → (fat g v' c = 0 ↔ fat g v c = 0)) :
    freeSet g v' = freeSet g v := by
  ext c
  rw [mem_freeSet hg, mem_freeSet hg]
  exact ⟨fun hc => ⟨hc.1, (h c hc.1).mp hc.2⟩, fun hc => ⟨hc.1, (h c hc.1).mpr hc.2⟩⟩

/-- A taken cluster is one free cluster less. -/
theorem Taken.card (hT : Taken g c v v') (hg : g.Wf) :
    (freeSet g v').card + 1 = (freeSet g v).card := by
  have herase : freeSet g v' = (freeSet g v).erase c := by
    ext d
    rw [Finset.mem_erase, mem_freeSet hg, mem_freeSet hg]
    by_cases hd : d = c
    · subst hd
      simp [hT.mark]
    · refine ⟨fun h => ⟨hd, h.1, ?_⟩, fun h => ⟨h.2.1, ?_⟩⟩
      · rw [← hT.touches.fat_eq hg h.1 hd]
        exact h.2
      · rw [hT.touches.fat_eq hg h.2.1 hd]
        exact h.2.2
  have hmem : c ∈ freeSet g v := (mem_freeSet hg).mpr ⟨hT.valid, hT.free⟩
  rw [herase, Finset.card_erase_of_mem hmem]
  have := Finset.card_pos.mpr ⟨c, hmem⟩
  omega

/-! ## Writing -/

/-- **What a write has done**: the chain `l` from `s` has become `l'` from
`s'`, and holds `p` at `off`. The count of free clusters stays right if it
was. -/
structure Wrote (g : Geo) (s : ℕ) (l : List ℕ) (off : ℕ) (p : List UInt8) (v : Vol)
    (s' : ℕ) (l' : List ℕ) (v' : Vol) : Prop where
  chain : IsChain g v' s' l'
  grown : l <+: l'
  fresh : ∀ c ∈ l', c ∉ l → fat g v c = 0
  touches : Touches g {c | c ∈ l'} {c | c ∈ l'} v v'
  covers : off + p.length ≤ l'.length * g.clusBytes
  bytes : ∀ i < l'.length * g.clusBytes, content g v' l' i =
    if off ≤ i ∧ i < off + p.length then p.getD (i - off) 0
    else if i < l.length * g.clusBytes then content g v l i else 0
  mirrored : Mirrored g v → Mirrored g v'
  free : l'.length + (freeSet g v').card = l.length + (freeSet g v).card
  known : v'.freeKnown = v.freeKnown
  word : v'.freeCount ≤ v.freeCount
  count : v.freeKnown = true → v.freeCount = (freeSet g v).card → v'.freeCount = (freeSet g v').card

/-- Nothing has been written. -/
theorem Wrote.nil (h : IsChain g v s l) (hoff : off ≤ l.length * g.clusBytes) :
    Wrote g s l off [] v s l v :=
  ⟨h, List.prefix_refl l, fun _ hc hn => absurd hc hn, .refl g v, by simpa using hoff,
    fun i hi => by rw [if_neg (by simp), if_pos hi], id, rfl, rfl, le_rfl, fun _ h => h⟩

/-- **One write after the other.** -/
theorem Wrote.trans (hg : g.Wf) (h₁ : Wrote g s l off p v s₁ l₁ v₁)
    (h₂ : Wrote g s₁ l₁ (off + p.length) q v₁ s' l' v') : Wrote g s l off (p ++ q) v s' l' v' := by
  have hsub : ∀ c ∈ l₁, c ∈ l' := fun c hc => h₂.grown.subset hc
  refine ⟨h₂.chain, h₁.grown.trans h₂.grown, fun c hc hn => ?_, ?_, ?_, fun i hi => ?_,
    fun hm => h₂.mirrored (h₁.mirrored hm), h₂.free.trans h₁.free, h₂.known.trans h₁.known,
    h₂.word.trans h₁.word, fun hk hc => h₂.count (h₁.known.trans hk) (h₁.count hk hc)⟩
  · by_cases hc₁ : c ∈ l₁
    · exact h₁.fresh c hc₁ hn
    · rw [← h₁.touches.fat_eq hg (h₂.chain.valid hc) hc₁]
      exact h₂.fresh c hc hc₁
  · refine (h₁.touches.trans h₂.touches).mono ?_ ?_ <;>
    · rintro c (hc | hc)
      · exact hsub c hc
      · exact hc
  · have := h₂.covers
    rw [List.length_append]
    omega
  · have hcov := h₁.covers
    have hlen : l.length * g.clusBytes ≤ l₁.length * g.clusBytes :=
      Nat.mul_le_mul_right _ h₁.grown.length_le
    rw [h₂.bytes i hi, List.length_append]
    by_cases hq : off + p.length ≤ i ∧ i < off + p.length + q.length
    · rw [if_pos hq, if_pos (by omega), List.getD_append_right _ _ _ _ (by omega)]
      congr 1
      omega
    · rw [if_neg hq]
      by_cases hp : off ≤ i ∧ i < off + p.length
      · rw [if_pos (by omega), h₁.bytes i (by omega), if_pos hp, if_pos (by omega),
          List.getD_append _ _ _ _ (by omega)]
      · rw [if_neg (c := off ≤ i ∧ i < off + (p.length + q.length)) (by omega)]
        split
        · rename_i hi₁
          rw [h₁.bytes i hi₁, if_neg hp]
        · rw [if_neg (by omega)]

/-- The sectors of a cluster of the chain. -/
theorem IsChain.getElem?_unique (h : IsChain g v s l) {a b : ℕ} (ha : l[a]? = some c)
    (hb : l[b]? = some c) : a = b := by
  obtain ⟨hal, ha⟩ := List.getElem?_eq_some_iff.mp ha
  obtain ⟨hbl, hb⟩ := List.getElem?_eq_some_iff.mp hb
  exact (h.nodup.getElem_inj_iff).mp (ha.trans hb.symm)

/-- **Part of a sector is written.** -/
theorem writePart_quiet (hg : g.Wf) (hq : Quiet v) (h : IsChain g v s l)
    (hc : l[off / g.clusBytes]? = some c)
    (hn : n = min (512 - off % g.clusBytes % 512) p.length) :
    ∃ v', writePart g (clusLba g c + off % g.clusBytes / 512) (off % g.clusBytes % 512) n p v
        = (true, v') ∧ Wrote g s l off (p.take n) v s l v' := by
  obtain ⟨hidx, hget⟩ := List.getElem?_eq_some_iff.mp hc
  have hmem : c ∈ l := List.mem_of_getElem? hc
  have hv := h.valid hmem
  obtain ⟨hsec, hroom⟩ := hg.sector_end off
  set w := off % g.clusBytes with hw
  set lba := clusLba g c + w / 512 with hlba
  have hin : InClus g c lba := by
    simp only [InClus]
    omega
  have hn1 : n ≤ 512 - w % 512 := hn ▸ min_le_left _ _
  have hn2 : n ≤ p.length := hn ▸ min_le_right _ _
  have hoff : off = g.clusBytes * (off / g.clusBytes) + w := (Nat.div_add_mod off g.clusBytes).symm
  -- both forms of the write store the same 512 bytes
  obtain ⟨b, hr, hb⟩ : ∃ b, writePart g lba (w % 512) n p v = (true, v.setSec g lba b) ∧
      ∀ j < 512, b j = if w % 512 ≤ j ∧ j < w % 512 + n then p.getD (j - w % 512) 0
        else v.sec g lba j := by
    rw [writePart]
    split
    · rename_i hfull
      refine ⟨_, writeSec_quiet hg hq _ _, fun j hj => ?_⟩
      rw [if_pos (by omega), hfull.1, Nat.sub_zero]
    · simp only [readSec_quiet hq]
      exact ⟨_, writeSec_quiet hg hq _ _, fun j hj => rfl⟩
  have ht := touches_clus (v := v) hg hv hin b
  have hchain : IsChain g (v.setSec g lba b) s l := h.touches hg ht (by simp)
  have hfree : freeSet g (v.setSec g lba b) = freeSet g v :=
    freeSet_congr hg fun d hd => by rw [ht.fat_eq hg hd (by simp)]
  refine ⟨_, hr, hchain, List.prefix_refl l, fun _ hc hn => absurd hc hn, ht.mono (by simp) (by simpa),
    ?_, fun i hi => ?_, fun hm => hm.of_touches ht, by rw [hfree], rfl, le_rfl, fun _ hc => ?_⟩
  · rw [List.length_take, min_eq_left hn2]
    have : g.clusBytes * (off / g.clusBytes) + g.clusBytes ≤ l.length * g.clusBytes := by
      calc g.clusBytes * (off / g.clusBytes) + g.clusBytes
          = (off / g.clusBytes + 1) * g.clusBytes := by ring
        _ ≤ l.length * g.clusBytes := Nat.mul_le_mul_right _ hidx
    omega
  · have hii := index_lt hi
    have hmod := Nat.mod_lt i hg.clusBytes_pos
    have hdiv := Nat.div_add_mod i g.clusBytes
    rw [if_pos hi, content, content, List.length_take, min_eq_left hn2, byte_setSec]
    have hd : l[i / g.clusBytes]? = some (l.getD (i / g.clusBytes) 0) := by
      rw [List.getD_eq_getElem _ _ hii, List.getElem?_eq_getElem hii]
    set d := l.getD (i / g.clusBytes) 0 with hddef
    have hdv := h.valid (List.mem_of_getElem? hd)
    by_cases hdc : d = c
    · -- the cluster of this round
      have hsame : i / g.clusBytes = off / g.clusBytes :=
        h.getElem?_unique hd (hdc ▸ hc)
      rw [hsame] at hdiv
      rw [hdc]
      by_cases hs : i % g.clusBytes / 512 = w / 512
      · rw [if_pos (by omega), hb _ (Nat.mod_lt _ (by norm_num))]
        by_cases hr : off ≤ i ∧ i < off + n
        · rw [if_pos (by omega), if_pos hr, List.getD_eq_getElem?_getD, List.getD_eq_getElem?_getD,
            List.getElem?_take_of_lt (by omega)]
          congr 2
          omega
        · rw [if_neg (by omega), if_neg hr, byte, hs]
      · rw [if_neg (by omega), if_neg (by omega)]
    · -- another cluster of the chain
      have hne : clusLba g d + i % g.clusBytes / 512 ≠ lba := by
        intro he
        exact hdc (hg.inClus_inj hdv hv (he ▸ hg.inClus_byte hmod) hin)
      have hout : ¬ (off ≤ i ∧ i < off + n) := by
        rintro ⟨h1, h2⟩
        refine hdc ?_
        have : i / g.clusBytes = off / g.clusBytes := by
          rw [show i = off + (i - off) by omega, (div_mod_add (by omega)).1]
        rw [this, hc] at hd
        exact (Option.some.inj hd).symm
      rw [if_neg hne, if_neg hout]
  · rw [hfree]
    exact hc

end Fat32

end Csos

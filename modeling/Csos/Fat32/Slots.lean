import Csos.Fat32.Content
import Csos.Fat32.Driver
/-!
# FAT32 — the slots of a directory

A slot is 32 bytes of a cluster, named by the cluster and a number. The
entry functions read and write the slots of the clusters of a chain in order
(`dirSlot`). Their offsets wrap, so that entry `idx` is slot `idx % 2 ^ 27`.
-/

namespace Csos

namespace Fat32

variable {g : Geo} {v v' v₁ : Vol} {c d i j k n s idx : ℕ} {l : List ℕ} {ch ch' : Chain}
  {e : Bytes} {W W' : Set (ℕ × ℕ)}

/-! ## Slots -/

/-- The first 32 bytes. -/
def cut (e : Bytes) : Bytes := Bytes.blit (Bytes.const 0) 0 32 e

theorem cut_apply (h : i < 32) : cut e i = e i := Bytes.blit_zero_apply h

theorem cut_congr {e' : Bytes} (h : ∀ i < 32, e i = e' i) : cut e = cut e' := by
  funext x
  rw [cut, cut, Bytes.blit, Bytes.blit]
  split
  · exact h _ (by omega)
  · rfl

/-- Slot `j` of a cluster. -/
def slot (g : Geo) (v : Vol) (c j : ℕ) : Bytes := cut fun i => byte g v c (j * 32 + i)

theorem slot_apply (h : i < 32) : slot g v c j i = byte g v c (j * 32 + i) := cut_apply h

/-- The slots of a cluster. -/
def perClus (g : Geo) : ℕ := g.clusBytes / 32

/-- Where slot `k` of a directory with the clusters `l` is. -/
def place (g : Geo) (l : List ℕ) (k : ℕ) : ℕ × ℕ :=
  (l.getD (k * 32 / g.clusBytes) 0, k * 32 % g.clusBytes / 32)

/-- Slot `k` of a directory with the clusters `l`. -/
def dirSlot (g : Geo) (v : Vol) (l : List ℕ) (k : ℕ) : Bytes :=
  slot g v (place g l k).1 (place g l k).2

/-- A directory with the clusters `l` has a slot `k`. -/
def HasSlot (g : Geo) (l : List ℕ) (k : ℕ) : Prop := k * 32 / g.clusBytes < l.length

theorem Geo.Wf.perClus_eq (hg : g.Wf) : perClus g = g.secPerClus * 16 ∧ g.clusBytes = perClus g * 32 := by
  have := hg.clusBytes
  rw [perClus]
  omega

theorem Geo.Wf.slot_end (hg : g.Wf) (hj : j < perClus g) (hi : i < 32) : j * 32 + i < g.clusBytes := by
  have := hg.perClus_eq.2
  omega

/-- The offset of a slot is that of its place. -/
theorem Geo.Wf.place_off (hg : g.Wf) (l : List ℕ) (k : ℕ) :
    k * 32 % g.clusBytes = (place g l k).2 * 32 ∧ (place g l k).2 < perClus g := by
  have h := hg.perClus_eq.2
  have hpos := hg.clusBytes_pos
  have hlt := Nat.mod_lt (k * 32) hpos
  have hdvd : k * 32 % g.clusBytes % 32 = 0 := by
    rw [h, Nat.mod_mul_left_mod, Nat.mul_mod_left]
  rw [place]
  dsimp only
  omega

/-- A slot of the directory is in a cluster of it. -/
theorem place_mem (h : HasSlot g l k) : (place g l k).1 ∈ l := by
  rw [place, List.getD_eq_getElem _ _ h]
  exact List.getElem_mem h

/-- Different slots of a directory are at different places. -/
theorem Geo.Wf.place_inj (hg : g.Wf) (hl : l.Nodup) {k' : ℕ} (hk : HasSlot g l k)
    (hk' : HasSlot g l k') (h : place g l k = place g l k') : k = k' := by
  have h1 := (hg.place_off l k).1
  have h2 := (hg.place_off l k').1
  have hd := Nat.div_add_mod (k * 32) g.clusBytes
  have hd' := Nat.div_add_mod (k' * 32) g.clusBytes
  have hc : k * 32 / g.clusBytes = k' * 32 / g.clusBytes := by
    have := congrArg Prod.fst h
    rw [place, place, List.getD_eq_getElem _ _ hk, List.getD_eq_getElem _ _ hk'] at this
    exact hl.getElem_inj_iff.mp this
  have hm : k * 32 % g.clusBytes = k' * 32 % g.clusBytes := by rw [h1, h2, h]
  rw [hc, hm] at hd
  omega

/-- The entry that an index means. -/
theorem index_wrap (idx : ℕ) : idx * 32 % 2 ^ 32 = idx % 2 ^ 27 * 32 := by omega

/-! ## Reading -/

/-- **`fat32_ent_read`** reads the slot, or finds that there is none. -/
theorem entRead_quiet (hg : g.Wf) (hq : Quiet v) (h : IsChain g v s l) (hcur : Cursor g l ch)
    (idx : ℕ) : ∃ ch', ch'.start = ch.start ∧ Cursor g l ch' ∧
      ((HasSlot g l (idx % 2 ^ 27) ∧
        entRead g ch idx v = (fatOk, dirSlot g v l (idx % 2 ^ 27), ch', v)) ∨
       (¬ HasSlot g l (idx % 2 ^ 27) ∧ entRead g ch idx v = (errEof, Bytes.const 0, ch', v))) := by
  obtain ⟨ch', hr, hst, hcur'⟩ := chainAt_quiet hq h hcur (idx % 2 ^ 27 * 32 / g.clusBytes)
  refine ⟨ch', hst, hcur', ?_⟩
  have hv := h.valid_getD (idx % 2 ^ 27 * 32 / g.clusBytes)
  by_cases hin : HasSlot g l (idx % 2 ^ 27)
  · refine .inl ⟨hin, ?_⟩
    obtain ⟨hoff, hj⟩ := hg.place_off l (idx % 2 ^ 27)
    have hpc := hg.perClus_eq
    have hend := hg.clusBytes
    rw [entRead, index_wrap, hr]
    simp only [hv.mpr hin, not_true_eq_false, if_false, readSec_quiet hq, entPlace, index_wrap, hoff]
    rw [← List.getD_eq_getElem?_getD]
    congr 2
    funext x
    rw [dirSlot, slot, cut, Bytes.blit, Bytes.blit]
    split
    · rename_i hx
      have hc := h.valid (place_mem hin)
      rw [place] at hc hj ⊢
      dsimp only at hc hj ⊢
      rw [byte_add _ _ (by omega), hg.clusLba_add hc (by omega)]
      rfl
    · rfl
  · refine .inr ⟨hin, ?_⟩
    rw [entRead, index_wrap, hr]
    exact if_pos fun hh => hin (hv.mp hh)

/-! ## Writing -/

/-- **What writing slots has changed**: the slots `W` of the clusters `l`. -/
structure Rewrites (g : Geo) (l : List ℕ) (W : Set (ℕ × ℕ)) (v v' : Vol) : Prop where
  touches : Touches g ∅ {c | c ∈ l} v v'
  other : ∀ c ∈ l, ∀ j < perClus g, (c, j) ∉ W → slot g v' c j = slot g v c j
  count : v'.freeCount = v.freeCount
  known : v'.freeKnown = v.freeKnown

theorem Rewrites.refl (g : Geo) (l : List ℕ) (v : Vol) : Rewrites g l W v v :=
  ⟨.refl g v, fun _ _ _ _ _ => rfl, rfl, rfl⟩

theorem Rewrites.trans (h : Rewrites g l W v v₁) (h' : Rewrites g l W' v₁ v') :
    Rewrites g l (W ∪ W') v v' := by
  refine ⟨(h.touches.trans h'.touches).mono (by simp) (by simp), fun c hc j hj hn => ?_,
    h'.count.trans h.count, h'.known.trans h.known⟩
  rw [Set.mem_union, not_or] at hn
  rw [h'.other c hc j hj hn.2, h.other c hc j hj hn.1]

theorem Rewrites.mono (h : Rewrites g l W v v') (hW : W ⊆ W') : Rewrites g l W' v v' :=
  ⟨h.touches, fun c hc j hj hn => h.other c hc j hj fun hm => hn (hW hm), h.count, h.known⟩

/-- **`fat32_ent_write`** writes the slot and no other. -/
theorem entWrite_quiet (hg : g.Wf) (hq : Quiet v) (h : IsChain g v s l) (hcur : Cursor g l ch)
    (hin : HasSlot g l (idx % 2 ^ 27)) (e : Bytes) :
    ∃ ch' v', entWrite g ch idx e v = (fatOk, ch', v') ∧ ch'.start = ch.start ∧ Cursor g l ch' ∧
      Rewrites g l {place g l (idx % 2 ^ 27)} v v' ∧
      dirSlot g v' l (idx % 2 ^ 27) = cut e := by
  obtain ⟨ch', hr, hst, hcur'⟩ := chainAt_quiet hq h hcur (idx % 2 ^ 27 * 32 / g.clusBytes)
  have hv := (h.valid_getD (idx % 2 ^ 27 * 32 / g.clusBytes)).mpr hin
  obtain ⟨hoff, hj⟩ := hg.place_off l (idx % 2 ^ 27)
  have hpc := hg.perClus_eq
  have hmem := place_mem hin
  have hc := h.valid hmem
  -- the sector and the offset in it
  set c := (place g l (idx % 2 ^ 27)).1 with hcdef
  set j := (place g l (idx % 2 ^ 27)).2 with hjdef
  have hcv : (l[idx % 2 ^ 27 * 32 / g.clusBytes]?).getD 0 = c := (List.getD_eq_getElem?_getD ..).symm
  have hlba : (clusLba g c + j * 32 / 512) % 2 ^ 32 = clusLba g c + j * 32 / 512 :=
    hg.clusLba_add hc (by omega)
  have hinC : InClus g c (clusLba g c + j * 32 / 512) := by
    simp only [InClus]
    omega
  set b := Bytes.blit (v.sec g (clusLba g c + j * 32 / 512)) (j * 32 % 512) 32 e with hb
  have hbyte : ∀ j' i, i < 32 → byte g (v.setSec g (clusLba g c + j * 32 / 512) b) c (j' * 32 + i) =
      if j' = j then e i else byte g v c (j' * 32 + i) := by
    intro j' i hi
    rw [byte_setSec]
    split
    · rename_i hsec
      have : (j' * 32 + i) / 512 = j * 32 / 512 := by omega
      by_cases hjj : j' = j
      · rw [if_pos hjj, hb, Bytes.blit, if_pos (by omega)]
        congr 1
        omega
      · rw [if_neg hjj, hb, Bytes.blit, if_neg (by omega), byte, this]
    · rename_i hsec
      rw [if_neg]
      rintro rfl
      omega
  have ht := touches_clus (v := v) hg hc hinC b
  refine ⟨ch', v.setSec g (clusLba g c + j * 32 / 512) b, ?_, hst, hcur',
    ⟨ht.mono subset_rfl (by simpa using hmem), fun c' hc' j' hj' hn => ?_, rfl, rfl⟩, ?_⟩
  · rw [entWrite, index_wrap, hr]
    simp only [hv, not_true_eq_false, if_false, readSec_quiet hq, writeSec_quiet hg hq, entPlace,
      index_wrap, hoff, ← hcv]
    simp only [hcv, hlba]
    rfl
  · refine cut_congr fun i hi => ?_
    by_cases hcc : c' = c
    · have hne : j' ≠ j := fun hjj => hn (by rw [hcc, hjj]; rfl)
      rw [hcc, hbyte j' i hi, if_neg hne]
    · exact ht.byte_eq hg (h.valid hc') hcc (hg.slot_end hj' hi)
  · rw [dirSlot, ← hcdef, ← hjdef, slot]
    exact cut_congr fun i hi => by rw [hbyte j i hi, if_pos rfl]

end Fat32

end Csos

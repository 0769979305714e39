import Csos.Fat32.Table
import Csos.Common.Links
/-!
# FAT32 — cluster chains

`IsChain g v start l`: the links from `start` visit the clusters `l` and end
in an end-of-chain mark. The cursor of `fat32_chain_t` is a cache of one
position of `l`; what is read and written through it are the bytes of the
clusters of `l`, one after the other (`content`).
-/

namespace Csos

namespace Fat32

variable {g : Geo} {v v' : Vol} {c i k n s off idx : ℕ} {l l' : List ℕ} {F C : Set ℕ} {ch ch' : Chain}

/-! ## Chains of the table -/

/-- The link of a cluster. -/
def nextClus (g : Geo) (v : Vol) (c : ℕ) : Option ℕ :=
  if clusValid g (fat g v c) then some (fat g v c) else none

/-- Where a chain starts. -/
def firstClus (g : Geo) (s : ℕ) : Option ℕ := if clusValid g s then some s else none

/-- **The chain from `s`.** It has no cluster if `s` is 0. -/
structure IsChain (g : Geo) (v : Vol) (s : ℕ) (l : List ℕ) : Prop where
  linked : Linked (nextClus g v) (firstClus g s) l
  ended : ∀ x ∈ l.getLast?, eoc ≤ fat g v x
  zero : l = [] → s = 0

theorem valid_of_firstClus (h : firstClus g s = some c) : s = c ∧ clusValid g c = true := by
  rw [firstClus] at h
  split at h
  · cases h
    exact ⟨rfl, ‹_›⟩
  · exact absurd h (by simp)

theorem valid_of_nextClus {x : ℕ} (h : nextClus g v x = some c) :
    fat g v x = c ∧ clusValid g c = true := valid_of_firstClus h

/-- The clusters of a list of links are valid. -/
theorem valid_of_linked {p : Option ℕ} (hp : ∀ c ∈ p, clusValid g c = true)
    (h : Linked (nextClus g v) p l) : ∀ c ∈ l, clusValid g c = true := by
  induction l generalizing p with
  | nil => simp
  | cons x l ih =>
    have hx := hp x h.1
    intro c hc
    rcases List.mem_cons.mp hc with rfl | hc
    · exact hx
    · exact ih (fun c hc => (valid_of_nextClus hc).2) h.2 c hc

theorem IsChain.valid (h : IsChain g v s l) (hc : c ∈ l) : clusValid g c = true :=
  valid_of_linked (fun _ hc => (valid_of_firstClus hc).2) h.linked c hc

theorem IsChain.nodup (h : IsChain g v s l) : l.Nodup := h.linked.nodup

/-- The chain is determined by its start. -/
theorem IsChain.unique (h : IsChain g v s l) (h' : IsChain g v s l') : l = l' :=
  h.linked.unique h'.linked

theorem IsChain.head (h : IsChain g v s l) : firstClus g s = l.head? := h.linked.head?_eq

theorem IsChain.start_valid (h : IsChain g v s l) : clusValid g s = true ↔ l ≠ [] := by
  have := h.head
  rw [firstClus] at this
  cases l with
  | nil => simpa using this
  | cons x l => simpa using (by simpa using this : clusValid g s = true ∧ s = x).1

/-- The chain of 0. -/
theorem isChain_zero : IsChain g v 0 [] := ⟨by simp [firstClus, clusValid], by simp, fun _ => rfl⟩

/-- A cluster that has a link, or a mark, is not free. -/
theorem IsChain.fat_ne_zero (h : IsChain g v s l) (hc : c ∈ l) : fat g v c ≠ 0 := by
  obtain ⟨i, hi⟩ := List.getElem?_of_mem hc
  have hnext := h.linked.next_eq hi
  rcases hs : l[i + 1]? with _ | d
  · -- the last cluster carries the mark
    have hlast : l.getLast? = some c := by
      have := (List.getElem?_eq_some_iff.mp hi).1
      rw [List.getElem?_eq_none_iff] at hs
      rw [List.getLast?_eq_getElem?, ← hi, show l.length - 1 = i by omega]
    have := h.ended c hlast
    intro h0
    rw [h0] at this
    exact absurd this (by decide)
  · rw [hs] at hnext
    obtain ⟨hd, hv⟩ := valid_of_nextClus hnext
    rw [hd]
    rintro rfl
    simp [clusValid] at hv

/-- A chain is shorter than the volume. -/
theorem IsChain.length_le (hg : g.Wf) (h : IsChain g v s l) : l.length ≤ g.clusterCount := by
  have hsub : l.toFinset ⊆ Finset.Ico 2 (g.clusterCount + 2) := by
    intro c hc
    have := hg.valid_iff.mp (h.valid (List.mem_toFinset.mp hc))
    exact Finset.mem_Ico.mpr ⟨this.1, by omega⟩
  have hcard := Finset.card_le_card hsub
  rw [List.toFinset_card_of_nodup h.nodup, Nat.card_Ico] at hcard
  omega

/-- **A chain none of whose entries changes is the same chain.** -/
theorem IsChain.congr (h : IsChain g v s l) (hf : ∀ c ∈ l, fat g v' c = fat g v c) :
    IsChain g v' s l := by
  refine ⟨h.linked.congr fun c hc => by rw [nextClus, nextClus, hf c hc], fun x hx => ?_, h.zero⟩
  rw [hf x (List.mem_of_getLast? hx)]
  exact h.ended x hx

theorem IsChain.touches (h : IsChain g v s l) (hg : g.Wf) (ht : Touches g F C v v')
    (hF : ∀ c ∈ l, c ∉ F) : IsChain g v' s l :=
  h.congr fun c hc => ht.fat_eq hg (h.valid hc) (hF c hc)

/-- The number of a valid cluster fits an entry. -/
theorem Geo.Wf.valid_mod (hg : g.Wf) (hc : clusValid g c = true) : c % 2 ^ 28 = c := by
  have := hg.marks
  have := (hg.valid_iff.mp hc).2
  exact Nat.mod_eq_of_lt (by omega)

/-- **A cluster is linked to one of a chain**, and is the last one then. -/
theorem IsChain.append (h : IsChain g v s (l ++ k :: l')) (hc : clusValid g c = true)
    (hold : ∀ x ∈ l, fat g v' x = fat g v x) (hk : fat g v' k = c) (hmark : eoc ≤ fat g v' c)
    (hg : g.Wf) : IsChain g v' s (l ++ [k] ++ [c]) := by
  obtain ⟨q, h1, rfl, -⟩ := linked_append.mp h.linked
  have hmarks := hg.marks
  have hend : nextClus g v' c = none := by
    rw [nextClus, if_neg]
    intro hv
    have := (hg.valid_iff.mp hv).2
    simp only [eoc] at hmark
    omega
  refine ⟨?_, by simpa using hmark, by simp⟩
  refine linked_append.mpr ⟨some c, seg_append.mpr ⟨some k, ?_, rfl, ?_⟩, rfl, hend⟩
  · exact h1.congr fun x hx => by rw [nextClus, nextClus, hold x hx]
  · rw [seg_nil, nextClus, hk, if_pos hc]

/-- A cluster that is marked as the end is a chain by itself. -/
theorem isChain_of_mark (hg : g.Wf) (hc : clusValid g c = true) (hmark : fat g v c = eoc) : IsChain g v c [c] := by
  have hmarks := hg.marks
  refine ⟨⟨by rw [firstClus, if_pos hc], ?_⟩, by simp [hmark], by simp⟩
  rw [seg_nil, nextClus, hmark, if_neg]
  intro hv
  have := (hg.valid_iff.mp hv).2
  simp only [eoc] at this
  omega

theorem Taken.isChain (hT : Taken g c v v') (hg : g.Wf) : IsChain g v' c [c] :=
  isChain_of_mark hg hT.valid hT.mark

/-- A taken cluster is of no chain. -/
theorem Taken.notMem (hT : Taken g c v v') (h : IsChain g v s l) : c ∉ l :=
  fun hc => h.fat_ne_zero hc hT.free

/-! ## The cursor -/

/-- The cursor is on the chain `l`: it starts where `l` does, and its cache
is a position of `l`. -/
structure Cursor (g : Geo) (l : List ℕ) (ch : Chain) : Prop where
  head : firstClus g ch.start = l.head?
  cache : ch.cacheOk = true → l[ch.cacheIndex]? = some ch.cacheClus

theorem IsChain.cursor_init (h : IsChain g v s l) : Cursor g l (chainInit s) :=
  ⟨h.head, by simp [chainInit]⟩

/-- The walk follows the chain. -/
theorem walk_quiet (hq : Quiet v) {p : Option ℕ} (h : Linked (nextClus g v) p l) :
    ∀ (n i c : ℕ), l[i]? = some c → walk g n c v = (l[i + n]?, v) := by
  intro n
  induction n with
  | zero =>
    intro i c hc
    rw [walk, Nat.add_zero, hc]
  | succ n ih =>
    intro i c hc
    have hnext := h.next_eq hc
    rw [walk, fatGet_quiet hq]
    rcases hs : l[i + 1]? with _ | d
    · rw [hs] at hnext
      have hv : ¬ clusValid g (fat g v c) = true := by
        intro hv
        rw [nextClus, if_pos hv] at hnext
        exact absurd hnext (by simp)
      have hlen : l[i + (n + 1)]? = none := by
        rw [List.getElem?_eq_none_iff] at hs ⊢
        omega
      simp only [hv, Bool.false_eq_true, not_false_eq_true, if_true, hlen]
    · rw [hs] at hnext
      obtain ⟨hd, hv⟩ := valid_of_nextClus hnext
      simp only [hd, hv, not_true_eq_false, if_false]
      rw [ih (i + 1) d hs, show i + 1 + n = i + (n + 1) by omega]

/-- **`fat32_chain_at`** gives the cluster at an index, or 0, and leaves the
cursor on the chain. -/
theorem chainAt_quiet (hq : Quiet v) {s : ℕ} (h : IsChain g v s l) (hcur : Cursor g l ch)
    (idx : ℕ) : ∃ ch', chainAt g ch idx v = ((l[idx]?).getD 0, ch', v) ∧ ch'.start = ch.start ∧
      Cursor g l ch' := by
  by_cases hv : clusValid g ch.start = true
  case neg =>
    -- an empty chain
    have hl : l = [] := by
      have := hcur.head
      rw [firstClus, if_neg hv] at this
      exact List.head?_eq_none_iff.mp this.symm
    exact ⟨ch, by simp [chainAt, chainAt2, hv, hl], rfl, hcur⟩
  have h0 : l[0]? = some ch.start := by
    rw [← List.head?_eq_getElem?, ← hcur.head, firstClus, if_pos hv]
  -- where the walk starts, it has the right number of links to go
  obtain ⟨c, i, hci, hi, hle⟩ : ∃ c i,
      (if ch.cacheOk = true ∧ ch.cacheIndex ≤ idx then (ch.cacheClus, ch.cacheIndex)
        else (ch.start, 0)) = (c, i) ∧ l[i]? = some c ∧ i ≤ idx := by
    split
    · rename_i hc
      exact ⟨_, _, rfl, hcur.cache hc.1, hc.2⟩
    · exact ⟨_, _, rfl, h0, Nat.zero_le _⟩
  simp only [chainAt, chainAt2, hv, not_true_eq_false, if_false, hci,
    walk_quiet hq h.linked (idx - i) i c hi, Nat.add_sub_cancel' hle]
  rcases hs : l[idx]? with _ | d
  · exact ⟨ch, rfl, rfl, hcur⟩
  · exact ⟨_, rfl, rfl, hcur.head, fun _ => hs⟩

/-- The cluster at an index is valid exactly if there is one. -/
theorem IsChain.valid_getD (h : IsChain g v s l) (idx : ℕ) :
    clusValid g ((l[idx]?).getD 0) = true ↔ idx < l.length := by
  rcases hs : l[idx]? with _ | d
  · rw [List.getElem?_eq_none_iff] at hs
    simp [clusValid, hs]
  · have hd := h.valid (List.mem_of_getElem? hs)
    have := (List.getElem?_eq_some_iff.mp hs).1
    simp [hd, this]

/-- The rounds of `fat32_chain_count`. -/
theorem countLoop_quiet (hq : Quiet v) :
    ∀ (l : List ℕ) (k c n : ℕ), Linked (nextClus g v) (firstClus g c) l → l.length < k →
      countLoop g k c n v = (n + l.length, v) := by
  intro l
  induction l with
  | nil =>
    intro k c n h hk
    obtain ⟨k, rfl⟩ : ∃ j, k = j + 1 := ⟨k - 1, by simp at hk; omega⟩
    have hnv : ¬ clusValid g c = true := by
      intro hv
      have := h.head?_eq
      rw [firstClus, if_pos hv] at this
      exact absurd this (by simp)
    rw [countLoop, if_pos hnv]
    simp
  | cons x l ih =>
    intro k c n h hk
    obtain ⟨k, rfl⟩ : ∃ j, k = j + 1 := ⟨k - 1, by simp at hk; omega⟩
    obtain ⟨rfl, hv⟩ := valid_of_firstClus h.1
    rw [countLoop, if_neg (by simp [hv]), fatGet_quiet hq]
    by_cases hn : clusValid g (fat g v c) = true
    · simp only [hn, not_true_eq_false, if_false]
      rw [ih k _ (n + 1) h.2 (by simpa using hk), List.length_cons]
      congr 1
      omega
    · -- the link is the mark
      have hl : l = [] := by
        have := Linked.head?_eq h.2
        rw [nextClus, if_neg hn] at this
        exact List.head?_eq_none_iff.mp this.symm
      simp [hn, hl]

/-- **`fat32_chain_count`** counts the clusters. -/
theorem chainCount_quiet (hg : g.Wf) (hq : Quiet v) (h : IsChain g v ch.start l) :
    chainCount g ch v = (l.length, v) := by
  have := h.length_le hg
  rw [chainCount, countLoop_quiet hq l _ _ _ h.linked (by omega), Nat.zero_add]

/-! ## Freeing a chain -/

theorem touches_noteFreed (g : Geo) (v : Vol) : Touches g ∅ ∅ v (noteFreed v) := by
  rw [noteFreed]
  split
  · exact ⟨fun _ _ _ _ _ => rfl, fun _ _ => rfl, rfl, rfl, rfl⟩
  · exact .refl g v

/-- The volume after the clusters `l` have been freed. -/
structure Freed (g : Geo) (l : List ℕ) (v v' : Vol) : Prop where
  touches : Touches g {c | c ∈ l} ∅ v v'
  free : ∀ c ∈ l, fat g v' c = 0
  mirrored : Mirrored g v → Mirrored g v'
  known : v'.freeKnown = v.freeKnown
  count : v.freeKnown = true → v'.freeCount = (v.freeCount + l.length) % 2 ^ 32
  unknown : v.freeKnown = false → v'.freeCount = v.freeCount

/-- The rounds of `fat32_free_chain`. -/
theorem freeLoop_quiet (hg : g.Wf) :
    ∀ (l : List ℕ) (k c : ℕ) (v : Vol), Quiet v → Linked (nextClus g v) (firstClus g c) l →
      l.length < k → (v.freeKnown = true → v.freeCount < 2 ^ 32) →
      ∃ v', freeLoop g k c v = (true, v') ∧ Freed g l v v' := by
  intro l
  induction l with
  | nil =>
    intro k c v hq h hk hlt
    obtain ⟨k, rfl⟩ : ∃ j, k = j + 1 := ⟨k - 1, by simp at hk; omega⟩
    have hnv : ¬ clusValid g c = true := by
      intro hv
      have := h.head?_eq
      rw [firstClus, if_pos hv] at this
      exact absurd this (by simp)
    refine ⟨v, by rw [freeLoop, if_pos hnv], .refl g v, by simp, id, rfl, fun hkn => ?_, fun _ => rfl⟩
    rw [List.length_nil, Nat.add_zero, Nat.mod_eq_of_lt (hlt hkn)]
  | cons x l ih =>
    intro k c v hq h hk hlt
    obtain ⟨k, rfl⟩ : ∃ j, k = j + 1 := ⟨k - 1, by simp at hk; omega⟩
    obtain ⟨rfl, hv⟩ := valid_of_firstClus h.1
    have hnd := h.nodup
    rw [List.nodup_cons] at hnd
    obtain ⟨v₁, hr₁, ht₁, hf₁, hm₁, -, hc₁, hk₁⟩ := fatSet_quiet hg hq hv 0
    have hvl : ∀ y ∈ l, clusValid g y = true :=
      valid_of_linked (fun _ hc => (valid_of_nextClus hc).2) h.2
    have ht₂ : Touches g {c} ∅ v (noteFreed v₁) :=
      (ht₁.trans (touches_noteFreed g v₁)).mono (by simp) (by simp)
    have hzero : fat g (noteFreed v₁) c = 0 := by
      rw [(touches_noteFreed g v₁).fat_eq hg hv (by simp), hf₁, Nat.zero_mod]
    have hmir : Mirrored g v → Mirrored g (noteFreed v₁) :=
      fun hm => (hm₁ hm).of_touches (touches_noteFreed g v₁)
    have hkn : (noteFreed v₁).freeKnown = v.freeKnown := by
      rw [← hk₁, noteFreed]
      split <;> rfl
    have hcnt : v.freeKnown = true → (noteFreed v₁).freeCount = (v.freeCount + 1) % 2 ^ 32 := by
      intro hk
      rw [noteFreed, if_pos (hk₁.trans hk), hc₁]
    have hunk : v.freeKnown = false → (noteFreed v₁).freeCount = v.freeCount := by
      intro hk
      rw [noteFreed, if_neg (by rw [hk₁, hk]; simp), hc₁]
    have hrest : Linked (nextClus g (noteFreed v₁)) (nextClus g v c) l := by
      refine Linked.congr h.2 fun y hy => ?_
      rw [nextClus, nextClus, ht₂.fat_eq hg (hvl y hy)]
      rintro rfl
      exact hnd.1 hy
    rw [freeLoop, if_neg (by simp [hv]), fatGet_quiet hq]
    simp only [hr₁, ne_eq, not_true_eq_false, if_false]
    by_cases hn : clusValid g (fat g v c) = true
    · simp only [hn, not_true_eq_false, if_false]
      obtain ⟨v', hr, hF⟩ := ih k (fat g v c) (noteFreed v₁) (ht₂.quiet hq) hrest (by simpa using hk)
        (fun hk' => by rw [hcnt (hkn ▸ hk')]; exact Nat.mod_lt _ (by norm_num))
      refine ⟨v', hr, (ht₂.trans hF.touches).mono ?_ (by simp), fun d hd => ?_,
        fun hm => hF.mirrored (hmir hm), hF.known.trans hkn, fun hk' => ?_, fun hk' => ?_⟩
      · rintro d (rfl | hd)
        · exact List.mem_cons_self ..
        · exact List.mem_cons_of_mem _ hd
      · rcases List.mem_cons.mp hd with rfl | hd
        · rw [hF.touches.fat_eq hg hv hnd.1, hzero]
        · exact hF.free d hd
      · rw [hF.count (hkn.trans hk'), hcnt hk', Nat.mod_add_mod, List.length_cons]
        congr 1
        omega
      · rw [hF.unknown (hkn.trans hk'), hunk hk']
    · have hl : l = [] := by
        have := Linked.head?_eq h.2
        rw [nextClus, if_neg hn] at this
        exact List.head?_eq_none_iff.mp this.symm
      subst hl
      refine ⟨noteFreed v₁, by simp only [hn, Bool.false_eq_true, not_false_eq_true, if_true],
        ht₂.mono (by simp) (by simp),
        by simp [hzero], hmir, hkn, fun hk' => ?_, fun hk' => hunk hk'⟩
      simpa using hcnt hk'

/-- **`fat32_free_chain`** frees the clusters of the chain. -/
theorem freeChain_quiet (hg : g.Wf) (hq : Quiet v) (h : IsChain g v s l)
    (hlt : v.freeKnown = true → v.freeCount < 2 ^ 32) : Freed g l v (freeChain g s v) := by
  have hlen := h.length_le hg
  obtain ⟨v₁, hr, hF⟩ := freeLoop_quiet hg l (g.clusterCount + 1) s v hq h.linked (by omega) hlt
  obtain ⟨ht, -, hc, hk⟩ := fsInfoWrite_quiet hg (hF.touches.quiet hq)
  simp only [freeChain, hr]
  refine ⟨(hF.touches.trans ht).mono (by simp) (by simp), fun c hc => ?_,
    fun hm => (hF.mirrored hm).of_touches ht, hk.trans hF.known, fun h' => hc.trans (hF.count h'),
    fun h' => hc.trans (hF.unknown h')⟩
  rw [ht.fat_eq hg (h.valid hc) (by simp)]
  exact hF.free c hc

end Fat32

end Csos

import Csos.Fat32.Append
import Csos.Fat32.Mount
import Csos.Fat32.Tree
/-!
# FAT32 — what a failed write leaves behind

A cluster that is not free is `lost` if no chain that can be reached from
the root goes through it. A write that runs out of clusters has linked what
it took to the file; but the first cluster of an empty file is recorded in
the handle only, and the entry is rewritten only by a write that succeeds.
-/

namespace Csos

namespace Fat32

variable {g : Geo} {v v' : Vol} {c d j k n s s' off : ℕ} {l l' : List ℕ} {b : Bool}
  {q buf : List UInt8} {f : Handle} {P : Plan}

/-! ## Lost clusters -/

/-- **What can be reached from the root**: the clusters of the root and of
what the entries of directories lead to. The flag says whether the cluster is
of a directory. -/
inductive Reached (g : Geo) (v : Vol) : Bool → ℕ → Prop
  | root : Reached g v true g.rootClus
  | next {b : Bool} {c d : ℕ} (h : Reached g v b c) (hn : nextClus g v c = some d) : Reached g v b d
  | entry {c j : ℕ} (h : Reached g v true c) (hj : j < perClus g) (hl : Live (slot g v c j))
      (hv : clusValid g (entClus (slot g v c j)) = true) :
      Reached g v (decide (slot g v c j 11 &&& attrDir ≠ 0)) (entClus (slot g v c j))

/-- The clusters that are taken and that nothing leads to. -/
def lost (g : Geo) (v : Vol) : Set ℕ :=
  {c | clusValid g c = true ∧ fat g v c ≠ 0 ∧ ∀ b, ¬ Reached g v b c}

/-- A cluster after one of a chain is of the chain. -/
theorem IsChain.next_mem (h : IsChain g v s l) (hc : c ∈ l) (hn : nextClus g v c = some d) : d ∈ l := by
  obtain ⟨i, hi⟩ := List.getElem?_of_mem hc
  have := h.linked.next_eq hi
  rw [hn] at this
  exact List.mem_of_getElem? this.symm

/-- What can be reached is of a chain of the plan. -/
theorem Reached.planned (ht : Tree g P ∅ v) (h : Reached g v b c) :
    ∃ r, c ∈ P.clusters r ∧ if b then r ∈ P.dirs else r ∈ P.files := by
  induction h with
  | root => exact ⟨g.rootClus, ht.head_mem (.inl ht.root), ht.root⟩
  | @next b c d _ hn ih =>
    obtain ⟨r, hc, hr⟩ := ih
    refine ⟨r, (ht.chain r ?_).1.next_mem hc hn, hr⟩
    cases b with
    | true => exact .inl hr
    | false => exact .inr hr
  | @entry c j _ hj hl hv ih =>
    obtain ⟨r, hc, hr⟩ := ih
    have hlead := ht.entry r c j ⟨hr, hc, hj⟩ (by simp) hl
    rw [Leads] at hlead
    by_cases hdir : slot g v c j 11 &&& attrDir ≠ 0
    · rw [if_pos hdir] at hlead
      exact ⟨_, ht.head_mem (.inl hlead.1), by simpa [hdir] using hlead.1⟩
    · rw [if_neg hdir] at hlead
      have hfile : entClus (slot g v c j) ∈ P.files := by
        refine hlead.resolve_left fun h0 => ?_
        rw [h0] at hv
        exact absurd hv (by simp [clusValid])
      exact ⟨_, ht.head_mem (.inr hfile), by simpa [hdir] using hfile⟩

/-- A cluster that can be reached is not free. -/
theorem Reached.fat_ne_zero (ht : Tree g P ∅ v) (h : Reached g v b c) : fat g v c ≠ 0 := by
  obtain ⟨r, hc, hr⟩ := h.planned ht
  refine (ht.chain r ?_).1.fat_ne_zero hc
  cases b with
  | true => exact .inl hr
  | false => exact .inr hr

/-- **What keeps a cluster reachable**: the links, and the slots of the
directories. -/
theorem Reached.mono (hnext : ∀ b c d, Reached g v b c → nextClus g v c = some d → nextClus g v' c = some d)
    (hslot : ∀ c j, Reached g v true c → j < perClus g → slot g v' c j = slot g v c j)
    (h : Reached g v b c) : Reached g v' b c := by
  induction h with
  | root => exact .root
  | next h hn ih => exact .next ih (hnext _ _ _ h hn)
  | @entry c j h hj hl hv ih =>
    have he := hslot c j h hj
    have := Reached.entry ih hj (by rwa [he]) (by rwa [he])
    rwa [he] at this

/-- The clusters of a chain, from its start. -/
theorem Reached.chain (h : IsChain g v s l) (hs : l ≠ [] → Reached g v b s) : ∀ c ∈ l, Reached g v b c := by
  intro c hc
  obtain ⟨i, hi⟩ := List.getElem?_of_mem hc
  have hne : l ≠ [] := List.ne_nil_of_mem hc
  induction i generalizing c with
  | zero =>
    have hhead := h.head
    rw [firstClus, if_pos (h.start_valid.mpr hne), List.head?_eq_getElem?, hi] at hhead
    obtain rfl : s = c := Option.some.inj hhead
    exact hs hne
  | succ i ih =>
    have hlt := (List.getElem?_eq_some_iff.mp hi).1
    have hi' : l[i]? = some l[i] := List.getElem?_eq_getElem (by omega)
    refine .next (ih _ (List.getElem_mem _) hi') ?_
    rw [h.linked.next_eq hi', hi]

/-! ## Writing -/

/-- The links of a chain that has grown are the ones from before. -/
theorem Wrote.next_eq (hg : g.Wf) (h : IsChain g v s l) (hw : Wrote g s l off q v s' l' v')
    (hv : clusValid g c = true) (hn : nextClus g v c = some d) : nextClus g v' c = some d := by
  by_cases hc : c ∈ l'
  case neg =>
    rw [nextClus, hw.touches.fat_eq hg hv hc]
    exact hn
  by_cases hcl : c ∈ l
  · obtain ⟨i, hi⟩ := List.getElem?_of_mem hcl
    have hnext := h.linked.next_eq hi
    rw [hn] at hnext
    have hlt := (List.getElem?_eq_some_iff.mp hi).1
    have hlt' := (List.getElem?_eq_some_iff.mp hnext.symm).1
    obtain ⟨t, rfl⟩ := hw.grown
    rw [hw.chain.linked.next_eq (i := i) (by rw [List.getElem?_append_left hlt, hi]),
      List.getElem?_append_left hlt', ← hnext]
  · -- a free cluster has no link
    rw [nextClus, hw.fresh c hc hcl, if_neg (by simp [clusValid])] at hn
    exact absurd hn (by simp)

/-- A file of the plan, or an empty one. -/
def IsFile (P : Plan) (s : ℕ) (l : List ℕ) : Prop := l = [] ∨ s ∈ P.files ∧ l = P.clusters s

/-- A write leaves the directories. -/
theorem Wrote.slot_eq (hg : g.Wf) (ht : Tree g P ∅ v) (hl : IsFile P s l)
    (hw : Wrote g s l off q v s' l' v') (h : Reached g v true c) (hj : j < perClus g) :
    c ∉ l' ∧ slot g v' c j = slot g v c j := by
  obtain ⟨r, hc, hr⟩ := h.planned ht
  have hr : r ∈ P.dirs := hr
  have hv := (ht.dir_chain hr).valid hc
  have hnl : c ∉ l := by
    rcases hl with rfl | ⟨hs, rfl⟩
    · simp
    · intro hm
      obtain rfl := ht.disjoint r (.inl hr) s (.inr hs) c hc hm
      exact Set.disjoint_left.mp ht.apart hr hs
  have hnl' : c ∉ l' := fun hm => h.fat_ne_zero ht (hw.fresh c hm hnl)
  exact ⟨hnl', cut_congr fun i hi => hw.touches.byte_eq hg hv hnl' (hg.slot_end hj hi)⟩

/-- What could be reached before a write still can. -/
theorem Wrote.reached (hg : g.Wf) (ht : Tree g P ∅ v) (hl : IsFile P s l) (hch : IsChain g v s l)
    (hw : Wrote g s l off q v s' l' v') (h : Reached g v b c) : Reached g v' b c := by
  refine h.mono (fun b c d hr hn => ?_) fun c j hr hj => (hw.slot_eq hg ht hl hr hj).2
  obtain ⟨r, hc, hr⟩ := hr.planned ht
  refine hw.next_eq hg hch ((ht.chain r ?_).1.valid hc) hn
  cases b with
  | true => exact .inl hr
  | false => exact .inr hr

/-- **What is linked to a file is not lost.** -/
theorem Wrote.lost_subset (hg : g.Wf) (ht : Tree g P ∅ v) (hl : IsFile P s l) (hch : IsChain g v s l)
    (hw : Wrote g s l off q v s' l' v') (hs : l' ≠ [] → s' = s ∧ Reached g v b s) :
    lost g v' ⊆ lost g v := by
  rintro c ⟨hv, hnz, hno⟩
  have hnl' : c ∉ l' := fun hc => hno b (Reached.chain hw.chain (fun hne => by
    obtain ⟨rfl, hr⟩ := hs hne
    exact hw.reached hg ht hl hch hr) c hc)
  refine ⟨hv, ?_, fun b hr => hno b (hw.reached hg ht hl hch hr)⟩
  rwa [← hw.touches.fat_eq hg hv hnl']

/-- **What is not recorded is lost**: the clusters an empty file has been
given. -/
theorem Wrote.lost_new (hg : g.Wf) (ht : Tree g P ∅ v) (hw : Wrote g s [] off q v s' l' v')
    (hc : c ∈ l') : c ∈ lost g v' ∧ c ∉ lost g v := by
  have hfresh : ∀ x ∈ l', fat g v x = 0 := fun x hx => hw.fresh x hx (by simp)
  -- nothing leads there that did not before
  have hback : ∀ b x, Reached g v' b x → Reached g v b x := by
    intro b x h
    induction h with
    | root => exact .root
    | @next b x d _ hn ih =>
      have hx : x ∉ l' := fun hm => ih.fat_ne_zero ht (hfresh x hm)
      obtain ⟨r, hxr, hr⟩ := ih.planned ht
      have hxv : clusValid g x = true := by
        refine (ht.chain r ?_).1.valid hxr
        cases b with
        | true => exact .inl hr
        | false => exact .inr hr
      refine .next ih ?_
      rw [nextClus, hw.touches.fat_eq hg hxv hx] at hn
      exact hn
    | @entry x j _ hj hl hv ih =>
      have he := (hw.slot_eq hg ht (.inl rfl) ih hj).2
      rw [he] at hl hv
      rw [he]
      exact .entry ih hj hl hv
  refine ⟨⟨hw.chain.valid hc, hw.chain.fat_ne_zero hc, fun b hr => ?_⟩, fun hm => hm.2.1 (hfresh c hc)⟩
  exact (hback b c hr).fat_ne_zero ht (hfresh c hc)

/-! ## `fat32_write` -/

/-- The entry of the file of a handle: slot `j` of the cluster `c` of a
directory. -/
structure EntryAt (g : Geo) (v : Vol) (c j : ℕ) (f : Handle) : Prop where
  dir : Reached g v true c
  slot : j < perClus g
  live : Live (Fat32.slot g v c j)
  file : Fat32.slot g v c j 11 &&& attrDir = 0
  start : entClus (Fat32.slot g v c j) = f.ff.chain.start

/-- The start of a chain that has grown. -/
theorem Wrote.start_eq (hch : IsChain g v s l) (hw : Wrote g s l off q v s' l' v') (hne : l ≠ []) :
    s' = s := by
  obtain ⟨t, rfl⟩ := hw.grown
  have h := hch.head
  have h' := hw.chain.head
  have hne' : l ++ t ≠ [] := by simp [hne]
  rw [firstClus, if_pos (hch.start_valid.mpr hne)] at h
  rw [firstClus, if_pos (hw.chain.start_valid.mpr hne'), List.head?_append_of_ne_nil l hne, ← h] at h'
  exact Option.some.inj h'

/-- The clusters of the file of an entry. -/
theorem EntryAt.isFile (he : EntryAt g v c j f) (ht : Tree g P ∅ v) (hch : IsChain g v f.ff.chain.start l) :
    IsFile P f.ff.chain.start l := by
  obtain ⟨r, hc, hr⟩ := he.dir.planned ht
  have hlead := ht.entry r c j ⟨hr, hc, he.slot⟩ (by simp) he.live
  rw [Leads, if_neg (not_not.mpr he.file), he.start] at hlead
  rcases hlead with h0 | hfile
  · rw [h0] at hch
    exact .inl (hch.unique isChain_zero)
  · exact .inr ⟨hfile, hch.unique (ht.file_chain hfile)⟩

/-- **An empty file loses what it is given** by a write that does not fit. -/
theorem write_loses (hg : g.Wf) (hq : Quiet v) (ht : Tree g P ∅ v) (hf : OnFile g v [] f)
    (hfree : freeSet g v ≠ ∅)
    (hbig : (freeSet g v).card * g.clusBytes < f.pos + min buf.length (2 ^ 32 - 1)) :
    (write g f buf v).1 < 0 ∧ ¬ lost g (write g f buf v).2.2 ⊆ lost g v := by
  obtain ⟨s', l', v₁, q, hw, hiff, hfail⟩ := write_fails_iff hg hq hf buf
  rw [List.length_nil, Nat.zero_add] at hiff
  have hneg := hiff.mpr hbig
  obtain ⟨hv, hnone⟩ := hfail hneg
  refine ⟨hneg, fun hsub => ?_⟩
  -- all that was free is of the chain now
  have hcard := hw.free
  rw [hnone, Finset.card_empty, List.length_nil] at hcard
  have hpos := Finset.card_pos.mpr (Finset.nonempty_iff_ne_empty.mpr hfree)
  obtain ⟨c, hc⟩ := List.exists_mem_of_length_pos (l := l') (by omega)
  obtain ⟨hin, hout⟩ := hw.lost_new hg ht hc
  rw [hv] at hsub
  exact hout (hsub hin)

/-- **A failed write loses no cluster** if and only if the file has a first
cluster, or none is free, or the write does not fail. `fat32_close` frees the
handle and changes nothing here. -/
theorem failed_write_loses_nothing_iff (hg : g.Wf) (hq : Quiet v) (ht : Tree g P ∅ v)
    (he : EntryAt g v c j f) (hf : OnFile g v l f) (buf : List UInt8) :
    ((write g f buf v).1 < 0 → lost g (write g f buf v).2.2 ⊆ lost g v) ↔
      f.ff.chain.start ≠ 0 ∨ freeSet g v = ∅ ∨
        f.pos + min buf.length (2 ^ 32 - 1) ≤ (freeSet g v).card * g.clusBytes := by
  have hfile := he.isFile ht hf.chain
  obtain ⟨s', l', v₁, q, hw, hiff, hfail⟩ := write_fails_iff hg hq hf buf
  by_cases hst : f.ff.chain.start = 0
  case neg =>
    -- the entry leads to the start of the chain
    refine iff_of_true (fun hneg => ?_) (.inl hst)
    have hne : l ≠ [] := fun h => hst (hf.chain.zero h)
    have hr := Reached.entry he.dir he.slot he.live
      (by rw [he.start]; exact hf.chain.start_valid.mpr hne)
    rw [he.start] at hr
    rw [(hfail hneg).1]
    exact hw.lost_subset hg ht hfile hf.chain fun _ => ⟨hw.start_eq hf.chain hne, hr⟩
  obtain rfl : l = [] := by
    have hch := hf.chain
    rw [hst] at hch
    exact hch.unique isChain_zero
  rw [List.length_nil, Nat.zero_add] at hiff
  by_cases hfree : freeSet g v = ∅
  · -- there is nothing to lose
    refine iff_of_true (fun hneg => ?_) (.inr (.inl hfree))
    have hcard := hw.free
    rw [hfree, Finset.card_empty, List.length_nil] at hcard
    obtain rfl : l' = [] := List.length_eq_zero_iff.mp (by omega)
    rw [(hfail hneg).1]
    exact hw.lost_subset hg ht hfile hf.chain (b := true) fun hne => absurd rfl hne
  by_cases hfit : f.pos + min buf.length (2 ^ 32 - 1) ≤ (freeSet g v).card * g.clusBytes
  · exact iff_of_true (fun hneg => absurd (hiff.mp hneg) (not_lt.mpr hfit)) (.inr (.inr hfit))
  · have hlose := write_loses hg hq ht hf hfree (not_le.mp hfit)
    refine iff_of_false (fun h => hlose.2 (h hlose.1)) ?_
    rintro (h | h | h)
    · exact h hst
    · exact hfree h
    · exact hfit h

/-! ## Two free clusters -/

theorem wf_tiny : Boot.tiny.Wf := by decide +kernel

theorem tree_oneFile : Tree Boot.tiny (Plan.ofRoot Boot.tiny) ∅ Boot.oneFile := by
  refine .of_root wf_tiny ⟨⟨by decide +kernel, ?_⟩, ?_, by simp⟩ (fun hd => ?_) (fun _ => ?_) ?_
  · rw [seg_nil]
    decide +kernel
  · intro x hx
    obtain rfl : x = Boot.tiny.rootClus := by simpa using hx.symm
    decide +kernel
  · rcases hd.2 with h | h <;> exact absurd (h 0 (by norm_num)) (by decide +kernel)
  · decide +kernel
  · have hper : perClus Boot.tiny = 16 := by decide +kernel
    rw [hper]
    decide +kernel

/-- The file that has just been opened, at a position. -/
def emptyAt (pos : ℕ) : Handle := ⟨pos, 0, false, ⟨chainInit 0, 0, 2, 0, false⟩⟩

theorem quiet_oneFile : Quiet Boot.oneFile := rfl

theorem onFile_emptyAt (pos : ℕ) : OnFile Boot.tiny Boot.oneFile [] (emptyAt pos) :=
  ⟨rfl, isChain_zero, (isChain_zero (v := Boot.oneFile)).cursor_init, le_rfl⟩

theorem entryAt_emptyAt (pos : ℕ) : EntryAt Boot.tiny Boot.oneFile 2 0 (emptyAt pos) where
  dir := .root
  slot := by decide +kernel
  live := by
    refine ⟨by rw [IsEntry]; decide +kernel, fun hd => ?_⟩
    rcases hd.2 with h | h <;> exact absurd (h 0 (by norm_num)) (by decide +kernel)
  file := by decide +kernel
  start := show entClus (slot Boot.tiny Boot.oneFile 2 0) = 0 by decide +kernel

/-- **Two clusters are lost** to a write of 1025 bytes. -/
theorem write_loses_two : (write Boot.tiny (emptyAt 1024) [0x78] Boot.oneFile).1 < 0 ∧
    ¬ lost Boot.tiny (write Boot.tiny (emptyAt 1024) [0x78] Boot.oneFile).2.2 ⊆ lost Boot.tiny Boot.oneFile :=
  write_loses wf_tiny quiet_oneFile tree_oneFile (onFile_emptyAt _)
    (Finset.ne_empty_of_mem ((mem_freeSet (c := 3) wf_tiny).mpr (by decide +kernel))) (by decide +kernel)

/-- A byte at the start fits, so its write loses nothing. -/
theorem failed_write_loses_nothing_short :
    0 + min [(0x78 : UInt8)].length (2 ^ 32 - 1) ≤ (freeSet Boot.tiny Boot.oneFile).card * Boot.tiny.clusBytes ∧
      ((write Boot.tiny (emptyAt 0) [0x78] Boot.oneFile).1 < 0 →
        lost Boot.tiny (write Boot.tiny (emptyAt 0) [0x78] Boot.oneFile).2.2 ⊆
          lost Boot.tiny Boot.oneFile) := by
  have hfits : 0 + min [(0x78 : UInt8)].length (2 ^ 32 - 1) ≤
      (freeSet Boot.tiny Boot.oneFile).card * Boot.tiny.clusBytes := by decide +kernel
  exact ⟨hfits, (failed_write_loses_nothing_iff wf_tiny quiet_oneFile tree_oneFile (entryAt_emptyAt 0)
    (onFile_emptyAt 0) _).mpr (.inr (.inr hfits))⟩

end Fat32

end Csos

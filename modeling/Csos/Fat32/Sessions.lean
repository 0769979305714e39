import Csos.Fat32.Ops
/-!
# FAT32 — sessions

A session opens a file, reads, writes and seeks, and closes it before the
next call with a path. What a handle knows of its file that the entry does
not is the first cluster of a file that was empty: the chain is in the plan
as soon as it is taken, and the entry leads to it once a write succeeds. So
every call keeps the volume sound, and with it the count of free clusters.
-/

namespace Csos

namespace Fat32

open Vfs (Str dot slash Plain Normal)

variable {g : Geo} {v v' v₁ : Vol} {b c d h i j k n r s s' s₁ ci lba so : ℕ} {l : List ℕ} {ch : Chain}
  {p : List UInt8} {K : Prop} {P P' P₁ : Plan} {rel : Str} {loc : Loc} {f : Handle}

/-! ## The chain of a handle -/

/-- The clusters of a file, of which `s` is the first: none, or a chain of
the plan. -/
def Owns (P : Plan) (s : ℕ) (l : List ℕ) : Prop := s = 0 ∧ l = [] ∨ s ∈ P.files ∧ l = P.clusters s

theorem Owns.chain (h : Owns P s l) (hs : Sound g K P ∅ v) : IsChain g v s l := by
  rcases h with ⟨rfl, rfl⟩ | ⟨hf, rfl⟩
  · exact isChain_zero
  · exact hs.file_chain hf

/-- The cursor is on a file of the plan, or on an empty one. -/
def OnChain (g : Geo) (P : Plan) (ch : Chain) : Prop := ∃ l, Owns P ch.start l ∧ Cursor g l ch

/-- **What writing to a file has changed**: no directory, and the file has
its first cluster still or a new one. -/
structure Grows (g : Geo) (P : Plan) (v : Vol) (s : ℕ) (P' : Plan) (v' : Vol) (s' : ℕ) : Prop where
  dirs : P'.dirs = P.dirs
  clusters : ∀ d ∈ P.dirs, P'.clusters d = P.clusters d
  slots : ∀ d b j, P.At g d b j → slot g v' b j = slot g v b j
  start : s' ≠ s → Unnamed g P v s'

theorem Grows.refl (g : Geo) (P : Plan) (v : Vol) (s : ℕ) : Grows g P v s P v s :=
  ⟨rfl, fun _ _ => rfl, fun _ _ _ _ => rfl, fun h => absurd rfl h⟩

theorem Grows.at_iff (h : Grows g P v s P' v' s') : P'.At g d b j ↔ P.At g d b j := by
  rw [Plan.At, Plan.At, h.dirs]
  exact and_congr_right fun hd => by rw [h.clusters d hd]

theorem Grows.trans (h : Grows g P v s P₁ v₁ s₁) (h' : Grows g P₁ v₁ s₁ P' v' s') :
    Grows g P v s P' v' s' := by
  refine ⟨h'.dirs.trans h.dirs, fun d hd => ?_, fun d b j ha => ?_, fun hne => ?_⟩
  · rw [h'.clusters d (h.dirs ▸ hd), h.clusters d hd]
  · rw [h'.slots d b j (h.at_iff.mpr ha), h.slots d b j ha]
  · by_cases he : s' = s₁
    · rw [he] at hne ⊢
      exact h.start hne
    · intro d b j ha hl
      rw [← h.slots d b j ha] at hl ⊢
      exact h'.start he d b j (h.at_iff.mpr ha) hl

/-- The entry of the file is where it was. -/
theorem Grows.fileSlot (h : Grows g P v s P' v' s') (hg : g.Wf) {dirClus off : ℕ}
    (hF : FileSlot g P v d k dirClus off) : FileSlot g P' v' d k dirClus off := by
  have hcl := h.clusters d hF.dir
  have hslot : dirSlot g v' (P'.clusters d) k = dirSlot g v (P.clusters d) k := by
    rw [hcl, dirSlot, h.slots d _ _ (Tree.at_place hg hF.dir hF.has)]
    rfl
  exact ⟨h.dirs ▸ hF.dir, hF.dirClus, hcl ▸ hF.has, hF.small, hF.off, hslot ▸ hF.dot, hslot ▸ hF.short,
    hslot ▸ hF.file⟩

/-- Nothing else leads to the file. -/
theorem Grows.onlyAt (h : Grows g P v s P' v' s') {q : ℕ × ℕ} (hs : s ≠ 0 → OnlyAt g P v q s)
    (h0 : s' ≠ 0) : OnlyAt g P' v' q s' := by
  intro d b j ha hl he
  have ha₀ := h.at_iff.mp ha
  rw [h.slots d b j ha₀] at hl he
  by_cases hne : s' = s
  · rw [hne] at he h0
    exact hs h0 d b j ha₀ hl he
  · exact absurd he (h.start hne d b j ha₀ hl)

/-- A change outside the directories. -/
theorem Grows.of_touches (hg : g.Wf) (hs : Sound g K P ∅ v) {F C : Set ℕ} (ht : Touches g F C v v')
    (hC : ∀ d ∈ P.dirs, ∀ c ∈ P.clusters d, c ∉ C) (s : ℕ) : Grows g P v s P v' s :=
  ⟨rfl, fun _ _ => rfl, fun _ _ _ ha => cut_congr fun _ hi =>
    ht.byte_eq hg ((hs.dir_chain ha.1).valid ha.2.1) (hC _ ha.1 _ ha.2.1) (hg.slot_end ha.2.2 hi),
    fun h => absurd rfl h⟩

/-- A cluster that was free is none of an entry. -/
theorem Sound.unnamed_free (hs : Sound g K P ∅ v) (hT : Taken g c v v₁) : Unnamed g P v c := by
  intro d b j ha hl he
  have hlead := hs.entry d b j ha (by simp) hl
  have hnew : ∀ h ∈ P.heads, h ≠ c := fun h hh he => hs.taken_new hT h hh (he ▸ hs.head_mem hh)
  rw [Leads, he] at hlead
  split at hlead
  · exact hnew c (.inl hlead.1) rfl
  · rcases hlead with h0 | hf
    · have hv := hT.valid
      rw [h0] at hv
      exact absurd hv (by simp [clusValid])
    · exact hnew c (.inr hf) rfl

/-! ## Writing -/

/-- A cluster is appended to a file, or is lost. -/
theorem appendCluster_sound (hg : g.Wf) (hs : Sound g K P ∅ v) (hown : Owns P ch.start l)
    (hcur : Cursor g l ch) (hci : l.length ≤ ci) (hlt : ci < 2 ^ 32) :
    ∃ rc nc ch' P' v', appendCluster g ch ci v = (rc, nc, ch', v') ∧ Sound g K P' ∅ v' ∧
      OnChain g P' ch' ∧ Grows g P v ch.start P' v' ch'.start ∧
      (rc = fatOk → ch'.start ∈ P'.files ∧ nc ∈ P'.clusters ch'.start) := by
  have hch := hown.chain hs
  rcases allocCluster_quiet hg hs.quiet with ⟨hr, -⟩ | ⟨nc, v₁, hr, hT⟩
  · refine ⟨errNospc, 0, ch, P, v, ?_, hs, ⟨l, hown, hcur⟩, .refl .., fun h => absurd h (by decide)⟩
    rw [appendCluster, hr]
    dsimp only
    rw [if_pos (by simp [clusValid])]
  have hs₁ := hs.taken hg hT
  have hnew := hs.taken_new hT
  have hG₁ : Grows g P v ch.start P v₁ ch.start := .of_touches hg hs hT.touches
    (fun d hd c hc hcn => hnew d (.inl hd) (Set.mem_singleton_iff.mp hcn ▸ hc)) _
  rcases hown with ⟨h0, rfl⟩ | ⟨hf, rfl⟩
  · have hnv : ¬ clusValid g ch.start = true := by simp [h0, clusValid]
    by_cases hci0 : ci = 0
    · -- the first cluster of the file
      have hself : (P.addFile nc).clusters nc = [nc] := Function.update_self ..
      have hfile : nc ∈ (P.addFile nc).files := Set.mem_insert ..
      refine ⟨fatOk, nc, ⟨nc, nc, ci, true⟩, P.addFile nc, v₁, ?_, hs.taken_file hg hT,
        ⟨[nc], .inr ⟨hfile, hself.symm⟩, (hT.isChain hg).head, fun _ => by rw [hci0]; rfl⟩,
        ⟨rfl, fun d hd => ?_, hG₁.slots, fun _ => hs.unnamed_free hT⟩, fun _ => ⟨hfile, by rw [hself]; simp⟩⟩
      · rw [appendCluster, hr]
        dsimp only
        rw [if_neg (not_not.mpr hT.valid), if_pos hnv, if_neg (not_not.mpr hci0)]
      · refine Function.update_of_ne ?_ _ _
        rintro rfl
        exact hnew d (.inl hd) (hs.head_mem (.inl hd))
    · refine ⟨errIo, 0, ch, P, v₁, ?_, hs₁, ⟨[], .inl ⟨h0, rfl⟩, hcur⟩, hG₁, fun h => absurd h (by decide)⟩
      rw [appendCluster, hr]
      dsimp only
      rw [if_neg (not_not.mpr hT.valid), if_pos hnv, if_pos hci0]
  · obtain ⟨hch₁, hne⟩ := hs₁.chain _ (.inr hf)
    have hv : clusValid g ch.start = true := hs.head_valid (.inr hf)
    have hpos := List.length_pos_iff.mpr hne
    have hidx : (ci + (2 ^ 32 - 1)) % 2 ^ 32 = ci - 1 := by omega
    obtain ⟨ch₂, hr₂, hst₂, hcur₂⟩ := chainAt_quiet hs₁.quiet hch₁ hcur (ci - 1)
    have hval := hch₁.valid_getD (ci - 1)
    by_cases hin : ci - 1 < (P.clusters ch.start).length
    case neg =>
      -- the index is beyond the end of the chain
      refine ⟨errIo, 0, ch₂, P, v₁, ?_, hs₁, ⟨_, .inr ⟨hst₂ ▸ hf, by rw [hst₂]⟩, hcur₂⟩, hst₂ ▸ hG₁,
        fun h => absurd h (by decide)⟩
      rw [appendCluster, hr]
      dsimp only
      rw [if_neg (not_not.mpr hT.valid), if_neg (not_not.mpr hv), hidx, hr₂]
      dsimp only
      rw [if_pos fun hh => hin (hval.mp hh)]
    obtain ⟨l₀, k, hl⟩ : ∃ l₀ k, P.clusters ch.start = l₀ ++ [k] :=
      ⟨_, _, (List.dropLast_append_getLast hne).symm⟩
    have hlen : (P.clusters ch.start).length = l₀.length + 1 := by simp [hl]
    have hlast : (P.clusters ch.start)[ci - 1]?.getD 0 = k := by
      rw [show ci - 1 = l₀.length by omega, hl]
      simp
    obtain ⟨v', hr₃, hs', hch', hslot, -⟩ := hs.link hg hT (.inr hf) hl
    have hself : (P.grow ch.start nc).clusters ch.start = P.clusters ch.start ++ [nc] :=
      Function.update_self ..
    rw [hlast] at hr₂ hval
    refine ⟨fatOk, nc, ⟨ch₂.start, nc, ci, true⟩, P.grow ch.start nc, v', ?_, hs', ?_, ?_, ?_⟩
    · rw [appendCluster, hr]
      dsimp only
      rw [if_neg (not_not.mpr hT.valid), if_neg (not_not.mpr hv), hidx, hr₂]
      dsimp only
      rw [if_neg (not_not.mpr (hval.mpr hin)), hr₃]
      dsimp only
      rw [if_neg (by decide)]
    · refine ⟨P.clusters ch.start ++ [nc], .inr ⟨hst₂ ▸ hf, by rw [hst₂, hself]⟩, ?_, fun _ => ?_⟩
      · rw [← hch'.head, hst₂]
      · rw [show ci = (P.clusters ch.start).length by omega]
        simp
    · rw [hst₂]
      refine ⟨rfl, fun d hd => ?_, fun d b j ha => ?_, fun h => absurd rfl h⟩
      · refine Function.update_of_ne ?_ _ _
        rintro rfl
        exact Set.disjoint_left.mp hs.apart hd hf
      · refine hslot b j ((hs.dir_chain ha.1).valid ha.2.1) ?_ ha.2.2
        rintro rfl
        exact hnew d (.inl ha.1) ha.2.1
    · intro _
      rw [hst₂, hself]
      exact ⟨hf, by simp⟩

/-- The cluster that a round writes to is of the file. -/
theorem writeTarget_sound (hg : g.Wf) (hs : Sound g K P ∅ v) (ho : OnChain g P ch) (hlt : ci < 2 ^ 32) :
    ∃ rc c ch' P' v', writeTarget g ch ci v = (rc, c, ch', v') ∧ Sound g K P' ∅ v' ∧
      OnChain g P' ch' ∧ Grows g P v ch.start P' v' ch'.start ∧
      (rc = fatOk → ch'.start ∈ P'.files ∧ c ∈ P'.clusters ch'.start) := by
  obtain ⟨l, hown, hcur⟩ := ho
  have hch := hown.chain hs
  obtain ⟨ch₁, hr, hst, hcur₁⟩ := chainAt_quiet hs.quiet hch hcur ci
  have hval := hch.valid_getD ci
  rw [writeTarget, hr]
  dsimp only
  by_cases hin : ci < l.length
  · rw [if_pos (hval.mpr hin)]
    refine ⟨fatOk, _, ch₁, P, v, rfl, hs, ⟨l, hst ▸ hown, hcur₁⟩, hst ▸ .refl .., fun _ => ?_⟩
    rcases hown with ⟨-, rfl⟩ | ⟨hf, rfl⟩
    · exact absurd hin (by simp)
    · rw [hst, List.getElem?_eq_getElem hin]
      exact ⟨hf, List.getElem_mem hin⟩
  · rw [if_neg fun hh => hin (hval.mp hh)]
    have := appendCluster_sound hg hs (hst ▸ hown) hcur₁ (not_lt.mp hin) hlt
    rwa [hst] at this

/-- A sector of a cluster is written. -/
theorem writePart_touches (hg : g.Wf) (hq : Quiet v) (hv : clusValid g c = true) (hin : InClus g c lba)
    (so n : ℕ) (p : List UInt8) :
    ∃ v', writePart g lba so n p v = (true, v') ∧ Touches g ∅ {c} v v' ∧
      v'.freeCount = v.freeCount ∧ v'.freeKnown = v.freeKnown := by
  rw [writePart]
  split
  · exact ⟨_, writeSec_quiet hg hq _ _, touches_clus hg hv hin _, rfl, rfl⟩
  · rw [readSec_quiet hq]
    exact ⟨_, writeSec_quiet hg hq _ _, touches_clus hg hv hin _, rfl, rfl⟩

/-- The rounds of `fat32_chain_write`. -/
theorem writeLoop_sound (hg : g.Wf) : ∀ (fuel : ℕ) (ch : Chain) (off : ℕ) (p : List UInt8) (P : Plan)
    (v : Vol), Sound g K P ∅ v → OnChain g P ch →
    ∃ rc ch' P' v' t, writeLoop g fuel ch off p v = ⟨rc, [], ch', v', t⟩ ∧ Sound g K P' ∅ v' ∧
      OnChain g P' ch' ∧ Grows g P v ch.start P' v' ch'.start := by
  intro fuel
  induction fuel with
  | zero =>
    intro ch off p P v hs ho
    exact ⟨fatOk, ch, P, v, [], rfl, hs, ho, .refl ..⟩
  | succ fuel ih =>
    intro ch off p P v hs ho
    rw [writeLoop]
    by_cases hp : p = []
    · rw [if_pos hp]
      exact ⟨fatOk, ch, P, v, [], rfl, hs, ho, .refl ..⟩
    rw [if_neg hp]
    obtain ⟨rc, c, ch₁, P₁, v₁, hr, hs₁, ho₁, hG₁, hc⟩ :=
      writeTarget_sound hg hs ho (Nat.mod_lt (off / g.clusBytes) (show 0 < 2 ^ 32 by norm_num))
    rw [hr]
    dsimp only
    by_cases hrc : rc = fatOk
    case neg =>
      rw [if_pos hrc]
      exact ⟨rc, ch₁, P₁, v₁, [], rfl, hs₁, ho₁, hG₁⟩
    rw [if_neg (not_not.mpr hrc)]
    obtain ⟨hf, hcm⟩ := hc hrc
    have hv := (hs₁.file_chain hf).valid hcm
    obtain ⟨hsec, -⟩ := hg.sector_end off
    have hin : InClus g c (clusLba g c + off % g.clusBytes / 512) := by
      simp only [InClus]
      omega
    obtain ⟨v₂, hr₂, ht₂, hcount, hknown⟩ := writePart_touches hg hs₁.quiet hv hin
      (off % g.clusBytes % 512) (min (512 - off % g.clusBytes % 512) p.length) p
    have hsub : ({c} : Set ℕ) ⊆ {x | x ∈ P₁.clusters ch₁.start} := by
      rintro x rfl
      exact hcm
    have hs₂ := hs₁.data hg hf (ht₂.mono subset_rfl hsub) hcount hknown
    have hG₂ : Grows g P₁ v₁ ch₁.start P₁ v₂ ch₁.start := .of_touches hg hs₁ ht₂
      (fun d hd x hx hxc => by
        obtain rfl := hs₁.disjoint d (.inl hd) _ (.inr hf) x hx (hsub hxc)
        exact Set.disjoint_left.mp hs₁.apart hd hf) _
    obtain ⟨rc', ch', P', v', t, hr', hs', ho', hG'⟩ := ih ch₁
      (off + min (512 - off % g.clusBytes % 512) p.length)
      (p.drop (min (512 - off % g.clusBytes % 512) p.length)) P₁ v₂ hs₂ ho₁
    rw [hg.clusLba_add hv hsec, hr₂]
    dsimp only
    rw [hr']
    exact ⟨rc', ch', P', v', _, rfl, hs', ho', hG₁.trans (hG₂.trans hG')⟩

/-- The rounds that fill the hole. -/
theorem gapLoop_sound (hg : g.Wf) : ∀ (fuel : ℕ) (ch : Chain) (off gap : ℕ) (P : Plan) (v : Vol),
    Sound g K P ∅ v → OnChain g P ch →
    ∃ rc ch' P' v', gapLoop g fuel ch off gap v = (rc, ch', v') ∧ Sound g K P' ∅ v' ∧
      OnChain g P' ch' ∧ Grows g P v ch.start P' v' ch'.start := by
  intro fuel
  induction fuel with
  | zero =>
    intro ch off gap P v hs ho
    exact ⟨fatOk, ch, P, v, rfl, hs, ho, .refl ..⟩
  | succ fuel ih =>
    intro ch off gap P v hs ho
    rw [gapLoop]
    by_cases hgap : gap = 0
    · rw [if_pos hgap]
      exact ⟨fatOk, ch, P, v, rfl, hs, ho, .refl ..⟩
    rw [if_neg hgap]
    obtain ⟨rc, ch₁, P₁, v₁, t, hr, hs₁, ho₁, hG₁⟩ := writeLoop_sound hg
      (List.replicate (min gap 128) (0 : UInt8)).length ch off (List.replicate (min gap 128) 0) P v hs ho
    dsimp only
    rw [chainWrite, hr]
    dsimp only
    by_cases hrc : rc = fatOk
    case neg =>
      rw [if_pos hrc]
      exact ⟨rc, ch₁, P₁, v₁, rfl, hs₁, ho₁, hG₁⟩
    rw [if_neg (not_not.mpr hrc)]
    obtain ⟨rc', ch', P', v', hr', hs', ho', hG'⟩ :=
      ih ch₁ (off + min gap 128) (gap - min gap 128) P₁ v₁ hs₁ ho₁
    exact ⟨rc', ch', P', v', hr', hs', ho', hG₁.trans hG'⟩

/-- The rounds of `fat32_chain_read` change nothing. -/
theorem readLoop_sound (hs : Sound g K P ∅ v) : ∀ (fuel : ℕ) (ch : Chain) (off len : ℕ),
    OnChain g P ch → ∃ rc bs ch' t, readLoop g fuel ch off len v = ⟨rc, bs, ch', v, t⟩ ∧
      OnChain g P ch' ∧ ch'.start = ch.start := by
  intro fuel
  induction fuel with
  | zero =>
    intro ch off len ho
    exact ⟨fatOk, [], ch, [], rfl, ho, rfl⟩
  | succ fuel ih =>
    intro ch off len ho
    rw [readLoop]
    split
    · exact ⟨fatOk, [], ch, [], rfl, ho, rfl⟩
    obtain ⟨l, hown, hcur⟩ := ho
    obtain ⟨ch₁, hr, hst, hcur₁⟩ :=
      chainAt_quiet hs.quiet (hown.chain hs) hcur (off / g.clusBytes % 2 ^ 32)
    have ho₁ : OnChain g P ch₁ := ⟨l, hst ▸ hown, hcur₁⟩
    rw [hr]
    dsimp only
    split
    · exact ⟨errIo, [], ch₁, [], rfl, ho₁, hst⟩
    rw [readSec_quiet hs.quiet]
    dsimp only
    obtain ⟨rc, bs, ch', t, hr', ho', hst'⟩ := ih ch₁ (off + min (512 - off % g.clusBytes % 512) len)
      (len - min (512 - off % g.clusBytes % 512) len) ho₁
    rw [hr']
    exact ⟨rc, _, ch', _, rfl, ho', hst'.trans hst⟩

/-! ## Handles -/

/-- **What an open handle knows**: where the entry of its file is, and a
cursor on the chain, to which nothing else leads. -/
def Session (g : Geo) (P : Plan) (v : Vol) (f : Handle) : Prop :=
  f.ff.isDir = true ∨ OnChain g P f.ff.chain ∧ ∃ d k, FileSlot g P v d k f.ff.dirClus f.ff.dirOff ∧
    (f.ff.chain.start ≠ 0 → OnlyAt g P v (place g (P.clusters d) k) f.ff.chain.start)

theorem read_sound (hs : Sound g K P ∅ v) (hf : Session g P v f) (len : ℕ) :
    ∃ rc bs f', read g f len v = (rc, bs, f', v) ∧ Session g P v f' := by
  rw [read]
  by_cases hdir : f.ff.isDir = true
  · rw [if_pos hdir]
    exact ⟨_, _, f, rfl, hf⟩
  rw [if_neg hdir]
  split
  · exact ⟨_, _, f, rfl, hf⟩
  obtain ⟨ho, d, k, hF, honly⟩ := hf.resolve_left hdir
  obtain ⟨rc, bs, ch', t, hr, ho', hst⟩ := readLoop_sound hs
    (min (min len (f.ff.size - f.pos)) (2 ^ 32 - 1)) f.ff.chain f.pos
    (min (min len (f.ff.size - f.pos)) (2 ^ 32 - 1)) ho
  have hs' : ∀ pos, Session g P v { f with ff := { f.ff with chain := ch' }, pos := pos } := fun pos =>
    .inr ⟨ho', d, k, hF, by rw [← hst] at honly; exact honly⟩
  dsimp only
  rw [chainRead, hr]
  dsimp only
  split
  · exact ⟨_, _, _, rfl, hs' f.pos⟩
  · exact ⟨_, _, _, rfl, hs' _⟩

/-- **`fat32_write`** keeps the volume sound, whether it succeeds or not. -/
theorem write_sound (hg : g.Wf) (hs : Sound g K P ∅ v) (hf : Session g P v f) (buf : List UInt8) :
    ∃ rc f' P' v', write g f buf v = (rc, f', v') ∧ Sound g K P' ∅ v' ∧ Session g P' v' f' := by
  rw [write]
  by_cases hdir : f.ff.isDir = true
  · rw [if_pos hdir]
    exact ⟨_, f, P, v, rfl, hs, hf⟩
  rw [if_neg hdir]
  obtain ⟨ho, d, k, hF, honly⟩ := hf.resolve_left hdir
  -- what has been written is of the file, and its entry is where it was
  have hkeep : ∀ (P' : Plan) (v' : Vol) (ch' : Chain), OnChain g P' ch' →
      Grows g P v f.ff.chain.start P' v' ch'.start →
      Session g P' v' { f with ff := { f.ff with chain := ch' } } := by
    intro P' v' ch' ho' hG
    refine .inr ⟨ho', d, k, hG.fileSlot hg hF, fun h0 => ?_⟩
    rw [hG.clusters d hF.dir]
    exact hG.onlyAt honly h0
  obtain ⟨rc, ch₁, P₁, v₁, hr, hs₁, ho₁, hG₁⟩ := gapLoop_sound hg
    ((f.pos - f.ff.size) / 128 + 1) f.ff.chain f.ff.size (f.pos - f.ff.size) P v hs ho
  dsimp only
  rw [hr]
  dsimp only
  by_cases hrc : rc = fatOk
  case neg =>
    rw [if_pos hrc]
    exact ⟨rc, _, P₁, v₁, rfl, hs₁, hkeep P₁ v₁ ch₁ ho₁ hG₁⟩
  rw [if_neg (not_not.mpr hrc)]
  obtain ⟨rc₂, ch₂, P₂, v₂, t, hr₂, hs₂, ho₂, hG₂⟩ := writeLoop_sound hg (buf.take (2 ^ 32 - 1)).length
    ch₁ f.pos (buf.take (2 ^ 32 - 1)) P₁ v₁ hs₁ ho₁
  rw [chainWrite, hr₂]
  dsimp only
  have hG := hG₁.trans hG₂
  by_cases hrc₂ : rc₂ = fatOk
  case neg =>
    rw [if_pos hrc₂]
    exact ⟨rc₂, _, P₂, v₂, rfl, hs₂, hkeep P₂ v₂ ch₂ ho₂ hG⟩
  rw [if_neg (not_not.mpr hrc₂)]
  -- the entry
  have hF₂ := hG.fileSlot hg hF
  obtain ⟨l, hown, -⟩ := id ho₂
  obtain ⟨size, hsize⟩ : ∃ size, size = if f.ff.size < f.pos + (buf.take (2 ^ 32 - 1)).length
    then (f.pos + (buf.take (2 ^ 32 - 1)).length) % 2 ^ 32 else f.ff.size := ⟨_, rfl⟩
  rw [← hsize]
  obtain ⟨v', hr', hs', hF', honly', -⟩ := updateEntry_sound hg hF₂ (hs₂.mono (Set.empty_subset _))
    (hown.imp And.left And.left)
    (fun h0 => by rw [hG.clusters d hF.dir]; exact hG.onlyAt honly h0) size
  rw [hr']
  exact ⟨_, _, P₂, v', rfl, hs', .inr ⟨ho₂, d, k, hF', honly'⟩⟩

theorem seek_ff (f : Handle) (off whence : ℤ) : (seek f off whence).2.ff = f.ff := by
  rw [seek]
  split
  · rfl
  · dsimp only
    generalize Int.bmod _ _ = base
    split <;> rfl

/-! ## Opening -/

/-- What `fat32_open` may open: a directory, or a file by its entry. -/
def Opens (g : Geo) (P : Plan) (v : Vol) (loc : Loc) : Prop :=
  loc.attr &&& attrDir ≠ 0 ∨ ∃ d k, FileSlot g P v d k loc.dirClus loc.off ∧
    (loc.clus = 0 ∨ loc.clus ∈ P.files) ∧
    (loc.clus ≠ 0 → OnlyAt g P v (place g (P.clusters d) k) loc.clus)

theorem Found.opens (hF : Found g P v d k loc) (hs : Sound g K P ∅ v) (hg : g.Wf) : Opens g P v loc := by
  by_cases hdir : loc.attr &&& attrDir = 0
  case neg => exact .inl hdir
  refine .inr ⟨d, k, hF.placed.fileSlot hdir, hF.leads_file hs.toTree hg hdir, fun h0 r b j ha hl he => ?_⟩
  have hz : entClus (slot g v b j) ≠ 0 := by rwa [he]
  rw [hF.clus] at he
  exact hs.once r b j d _ _ ha (Tree.at_place hg hF.dir hF.has) (by simp) (by simp) hl hF.live hz he

theorem openCreate_sound (hg : g.Wf) (hs : Sound g K P ∅ v) (hp : Normal rel) :
    ∃ rc o P' v', openCreate g rel v = (rc, o, v') ∧ Sound g K P' ∅ v' ∧
      ∀ loc, o = some loc → Opens g P' v' loc := by
  rw [openCreate]
  rcases hsp : split rel with _ | ⟨dir, leaf⟩
  · exact ⟨_, none, P, v, rfl, hs, by simp⟩
  obtain ⟨hdir, hleaf, -⟩ := split_normal hp hsp
  obtain ⟨rc, parent, v₁, hr, hsame, hparent⟩ :=
    resolveDirLoop_quiet hg dir.length dir g.rootClus v hs hs.root hdir
  have hs₁ := hsame.sound hs hg
  simp only [resolveDir, hr]
  by_cases hrc : rc = fatOk
  case neg =>
    rw [if_pos hrc]
    exact ⟨rc, none, P, v₁, rfl, hs₁, by simp⟩
  rw [if_neg (not_not.mpr hrc)]
  obtain ⟨rc₂, o, v₂, hr₂, hsame₂, hfound⟩ := dirLookup_quiet hg hs₁ (hparent hrc) hleaf
  have hs₂ := hsame₂.sound hs₁ hg
  rw [hr₂]
  rcases o with _ | ex
  · dsimp only
    by_cases hrc₂ : rc₂ = fatOk
    case neg =>
      rw [if_pos hrc₂]
      exact ⟨rc₂, none, P, v₂, rfl, hs₂, by simp⟩
    rw [if_neg (not_not.mpr hrc₂)]
    have hfresh : Fresh g P v₂ parent false 0 := rfl
    obtain ⟨rc', o', P', v', hr', hs', -, -, hend⟩ :=
      dirInsert_quiet hg hs₂ (hparent hrc) leaf hfresh (by norm_num) 0
    refine ⟨rc', o', P', v', hr', hs', fun loc hloc => ?_⟩
    rcases hend with ⟨-, hnone, -⟩ | ⟨-, loc', k, hsome, hpl, hclus, hattr⟩
    · rw [hnone] at hloc
      exact absurd hloc (by simp)
    · -- a new file is empty
      obtain rfl : loc' = loc := Option.some.inj (hsome.symm.trans hloc)
      have hfile : loc'.attr &&& attrDir = 0 := by
        rw [hattr]
        decide
      exact .inr ⟨parent, k, hpl.fileSlot hfile, .inl hclus, fun h0 => absurd hclus h0⟩
  · dsimp only
    by_cases hrc₂ : rc₂ = fatOk
    case neg =>
      rw [if_pos hrc₂]
      exact ⟨rc₂, none, P, v₂, rfl, hs₂, by simp⟩
    rw [if_neg (not_not.mpr hrc₂)]
    obtain ⟨k, hF⟩ := hfound ex rfl
    refine ⟨fatOk, some ex, P, v₂, rfl, hs₂, fun loc hloc => ?_⟩
    obtain rfl := Option.some.inj hloc
    exact (hF.of_same hsame₂).opens hs₂ hg

theorem openLoc_sound (hg : g.Wf) (hs : Sound g K P ∅ v) (hp : Normal rel) (flags : ℕ) :
    ∃ rc o P' v', openLoc g rel flags v = (rc, o, v') ∧ Sound g K P' ∅ v' ∧
      ∀ loc, o = some loc → Opens g P' v' loc := by
  obtain ⟨rc, o, v₁, hr, hsame, hroot, -, hfound⟩ := resolve_quiet hg hs hp
  have hs₁ := hsame.sound hs hg
  rw [openLoc, hr]
  dsimp only
  split
  · exact openCreate_sound hg hs₁ hp
  refine ⟨rc, o, P, v₁, rfl, hs₁, fun loc hloc => ?_⟩
  by_cases hnil : rel = []
  · obtain rfl : rootLoc g = loc := Option.some.inj ((hroot hnil).symm.trans hloc)
    exact .inl (show attrDir &&& attrDir ≠ 0 by decide)
  · obtain ⟨d, k, hF⟩ := hfound loc hnil hloc
    exact hF.opens hs₁ hg

/-- The handle is on the file, or on the chain that has been emptied. -/
theorem openFile_sound (hg : g.Wf) (hs : Sound g K P ∅ v) (ho : Opens g P v loc) (flags : ℕ) :
    ∃ f P' v', openFile g loc flags v = (f, v') ∧ Sound g K P' ∅ v' ∧ Session g P' v' f := by
  obtain ⟨t, ht⟩ : ∃ t : Bool, t = decide (decide (loc.attr &&& attrDir ≠ 0) = false ∧
      flags &&& oTrunc ≠ 0 ∧ flags &&& 3 ≠ 0) := ⟨_, rfl⟩
  have htrunc : t = true → loc.attr &&& attrDir = 0 := by
    intro h
    rw [ht, decide_eq_true_eq, decide_eq_false_iff_not, not_not] at h
    exact h.1
  by_cases hdir : loc.attr &&& attrDir = 0
  case neg =>
    -- a directory is not truncated
    obtain rfl : t = false := by
      rw [← Bool.not_eq_true]
      exact fun h => hdir (htrunc h)
    refine ⟨(openFile g loc flags v).1, P, v, ?_, hs, .inl ?_⟩
    · simp only [openFile, ← ht, Bool.false_eq_true, if_false]
    · simp only [openFile]
      exact decide_eq_true hdir
  obtain ⟨d, k, hF, hc, honly⟩ := ho.resolve_left (not_not.mpr hdir)
  cases t with
  | true =>
    obtain ⟨P', v', hr, hs', hF'⟩ := truncate_quiet hg hs hF hc honly
    refine ⟨(openFile g loc flags v).1, P', v', ?_, hs', .inr ?_⟩
    · simp only [openFile, ← ht, if_true, hr]
    · have hst : (openFile g loc flags v).1.ff.chain = chainInit 0 := by
        simp only [openFile, ← ht, if_true]
      rw [hst]
      exact ⟨⟨[], .inl ⟨rfl, rfl⟩, (isChain_zero (v := v')).cursor_init⟩, d, k, hF', fun h0 => absurd rfl h0⟩
  | false =>
    refine ⟨(openFile g loc flags v).1, P, v, ?_, hs, .inr ?_⟩
    · simp only [openFile, ← ht, Bool.false_eq_true, if_false]
    · have hst : (openFile g loc flags v).1.ff.chain = chainInit loc.clus := by
        simp only [openFile, ← ht, Bool.false_eq_true, if_false]
      rw [hst]
      refine ⟨?_, d, k, hF, honly⟩
      rcases hc with h0 | hf
      · exact ⟨[], .inl ⟨h0, rfl⟩, by rw [h0]; exact (isChain_zero (v := v)).cursor_init⟩
      · exact ⟨_, .inr ⟨hf, rfl⟩, (hs.file_chain hf).cursor_init⟩

/-- **`fat32_open`** keeps the volume sound. -/
theorem open_sound (hg : g.Wf) (hs : Sound g K P ∅ v) (hp : Normal rel) (flags : ℕ) (mem : Bool) :
    ∃ rc o P' v', open_ g rel flags mem v = (rc, o, v') ∧ Sound g K P' ∅ v' ∧
      ∀ f, o = some f → Session g P' v' f := by
  obtain ⟨rc, o, P₁, v₁, hr, hs₁, hopens⟩ := openLoc_sound hg hs hp flags
  have hfail : ∀ rc : ℤ, ∃ rc' o P' v', ((rc, none, v₁) : ℤ × Option Handle × Vol) = (rc', o, v') ∧
      Sound g K P' ∅ v' ∧ ∀ f, o = some f → Session g P' v' f :=
    fun rc => ⟨rc, none, P₁, v₁, rfl, hs₁, by simp⟩
  rw [open_, hr]
  dsimp only
  split
  · exact hfail _
  rcases o with _ | loc
  · exact hfail _
  dsimp only
  split
  · exact hfail _
  split
  · exact hfail _
  split
  · exact hfail _
  obtain ⟨f, P', v', hr', hs', hf⟩ := openFile_sound hg hs₁ (hopens loc rfl) flags
  rw [hr']
  refine ⟨_, some f, P', v', rfl, hs', fun f' h => ?_⟩
  obtain rfl := Option.some.inj h
  exact hf

/-! ## Runs -/

/-- **What every call keeps.** -/
def Kept (g : Geo) (K : Prop) (s : Sys) : Prop :=
  ∃ P, Sound g K P ∅ s.vol ∧ ∀ f, s.file = some f → Session g P s.vol f

theorem handed_normal (h : Handed rel) : Normal rel := by
  obtain ⟨s, s', path, i, hl⟩ := h
  exact Vfs.locate_normal hl

theorem call_kept (hg : g.Wf) {s s' : Sys} {c : Call} (h : Kept g K s) (hh : c.Handed)
    (hc : call g s c = some s') : Kept g K s' := by
  obtain ⟨P, hs, hf⟩ := h
  cases c with
  | open_ rel flags mem =>
    rw [call] at hc
    split at hc
    · exact absurd hc (by simp)
    obtain ⟨rc, o, P', v', hr, hs', ho⟩ := open_sound hg hs (handed_normal hh) flags mem
    rw [hr] at hc
    obtain rfl := Option.some.inj hc
    exact ⟨P', hs', ho⟩
  | read len =>
    obtain ⟨f, hfile, hc⟩ := Option.map_eq_some_iff.mp hc
    obtain ⟨rc, bs, f', hr, hf'⟩ := read_sound hs (hf f hfile) len
    rw [hr] at hc
    subst hc
    exact ⟨P, hs, fun f h => by rw [← Option.some.inj h]; exact hf'⟩
  | write buf =>
    obtain ⟨f, hfile, hc⟩ := Option.map_eq_some_iff.mp hc
    obtain ⟨rc, f', P', v', hr, hs', hf'⟩ := write_sound hg hs (hf f hfile) buf
    rw [hr] at hc
    subst hc
    exact ⟨P', hs', fun f h => by rw [← Option.some.inj h]; exact hf'⟩
  | seek off whence =>
    obtain ⟨f, hfile, hc⟩ := Option.map_eq_some_iff.mp hc
    subst hc
    refine ⟨P, hs, fun f' h => ?_⟩
    obtain rfl := Option.some.inj h
    rw [Session, seek_ff]
    exact hf f hfile
  | close =>
    obtain ⟨f, -, hc⟩ := Option.map_eq_some_iff.mp hc
    subst hc
    exact ⟨P, hs, by simp⟩
  | mkdir rel =>
    rw [call] at hc
    split at hc
    · exact absurd hc (by simp)
    obtain ⟨rc, P', v', hr, hs'⟩ := mkdir_sound hg hs (handed_normal hh.1)
    obtain rfl := Option.some.inj hc
    exact ⟨P', by rw [hr]; exact hs', by simp⟩
  | rmdir rel =>
    rw [call] at hc
    split at hc
    · exact absurd hc (by simp)
    obtain ⟨rc, P', v', hr, hs'⟩ := rmdir_sound hg hs (handed_normal hh.1) hh.2
    obtain rfl := Option.some.inj hc
    exact ⟨P', by rw [hr]; exact hs', by simp⟩

/-- Every reachable state is kept. -/
theorem sessions_kept (hg : g.Wf) (hs : Sound g K P ∅ v) {s : Sys} (h : (sessions g v).Reachable s) :
    Kept g K s := by
  refine h.invariant (fun s hi => ?_) fun s c s' _ hk hstep => call_kept hg hk hstep.1 hstep.2
  obtain rfl : s = ⟨v, none⟩ := hi
  exact ⟨P, hs, by simp⟩

end Fat32

end Csos

import Csos.Fat32.Integrity
/-!
# FAT32 — a failed `mkdir` is undone

`fat32_create_dir` takes a cluster before it knows that there is a short name
and room in the parent, and gives it back if there is not. What the FAT holds
is followed sector by sector here: an entry that has been marked and freed is
what it was, in every copy and with the four bits above it.
-/

namespace Csos

namespace Fat32

open Vfs (Str dot slash errInval errExist)

variable {g : Geo} {v v' v₁ v₂ : Vol} {b c d i j k n r idx need total val val' lba : ℕ} {e s : Bytes}
  {ch : Chain} {K : Prop} {X : Set (ℕ × ℕ)} {P P' : Plan} {name rel : Str}

/-! ## The sectors of the FAT -/

/-- A sector of the FAT with another value in the entry at `off`; the four bits
above it stay. -/
def setWord (off val : ℕ) (s : Bytes) : Bytes :=
  Bytes.store 4 s off (Bytes.load 4 s off / 2 ^ 28 * 2 ^ 28 + val % 2 ^ 28)

/-- Only the last value counts. -/
theorem setWord_setWord (off val val' : ℕ) (s : Bytes) :
    setWord off val' (setWord off val s) = setWord off val' s := by
  have hlt := Bytes.load_lt 4 s off
  have hload : Bytes.load 4 (setWord off val s) off / 2 ^ 28 = Bytes.load 4 s off / 2 ^ 28 := by
    rw [setWord, Bytes.load_store_self_of_lt]
    · omega
    · omega
  rw [setWord, hload, setWord, Bytes.store_store, ← setWord]

/-- An entry may be set to what it is. -/
theorem setWord_self {off : ℕ} (h : Bytes.load 4 s off % 2 ^ 28 = val % 2 ^ 28) : setWord off val s = s := by
  rw [setWord, ← h, Nat.div_add_mod', Bytes.store_load]

/-- The sectors that hold the entry of `c`, in the copies that are written. -/
def entrySecs (g : Geo) (c : ℕ) : Set ℕ :=
  {lba | ∃ k < g.numFats, (g.mirror = true ∨ k = g.activeFat) ∧ lba = fatLba g k c}

/-- **The sectors of the FAT have changed by one entry**, which is `val` now. -/
structure SetsEntry (g : Geo) (c val : ℕ) (v v' : Vol) : Prop where
  entry : ∀ lba ∈ entrySecs g c, IsFat g lba → v'.sec g lba = setWord (fatOff c) val (v.sec g lba)
  other : ∀ lba ∉ entrySecs g c, IsFat g lba → v'.sec g lba = v.sec g lba

/-- The FAT is the same, byte for byte. -/
def SameFat (g : Geo) (v v' : Vol) : Prop := ∀ lba, IsFat g lba → v'.sec g lba = v.sec g lba

theorem SameFat.trans (h : SameFat g v v₁) (h' : SameFat g v₁ v') : SameFat g v v' :=
  fun lba hl => (h' lba hl).trans (h lba hl)

/-- A change that leaves the disk. -/
theorem SameFat.of_disk (h : v'.disk = v.disk) : SameFat g v v' := fun lba _ => by
  rw [Vol.sec, Vol.sec, h]

/-- A write to a sector that is not of the FAT. -/
theorem SameFat.of_setSec (hl : ¬ IsFat g lba) (s : Bytes) : SameFat g v (v.setSec g lba s) := by
  intro x hx
  rw [setSec_sec, if_neg]
  rintro rfl
  exact hl hx

theorem SetsEntry.trans (h : SetsEntry g c val v v₁) (h' : SetsEntry g c val' v₁ v') :
    SetsEntry g c val' v v' := by
  refine ⟨fun lba hin hl => ?_, fun lba hno hl => (h'.other lba hno hl).trans (h.other lba hno hl)⟩
  rw [h'.entry lba hin hl, h.entry lba hin hl, setWord_setWord]

theorem SetsEntry.same (h : SetsEntry g c val v v₁) (h' : SameFat g v₁ v') : SetsEntry g c val v v' :=
  ⟨fun lba hin hl => (h' lba hl).trans (h.entry lba hin hl),
    fun lba hno hl => (h' lba hl).trans (h.other lba hno hl)⟩

/-- An entry that is set to what it was. -/
theorem SetsEntry.undone (h : SetsEntry g c val v v') (hm : Mirrored g v) (hc : clusValid g c = true)
    (hval : fat g v c = val % 2 ^ 28) : SameFat g v v' := by
  intro lba hl
  by_cases hin : lba ∈ entrySecs g c
  case neg => exact h.other lba hin hl
  rw [h.entry lba hin hl]
  obtain ⟨k, hk, hw, rfl⟩ := hin
  have hent : fatEnt g v k c = fat g v c := by
    rw [fat, fatCopy]
    split
    · rename_i hmir
      exact hm hmir k hk c hc
    · rename_i hmir
      rw [hw.resolve_left hmir]
  exact setWord_self (hent.trans hval)

/-- The rounds of `fat32_fat_set`. -/
theorem fatSetLoop_sec (hg : g.Wf) (c val : ℕ) : ∀ (n f : ℕ) (v : Vol), Quiet v → ∀ lba,
    (fatSetLoop g c val n f v).2.sec g lba =
      if ∃ j < n, lba = fatLba g (if g.mirror then f + j else g.activeFat) c then
        setWord (fatOff c) val (v.sec g lba) else v.sec g lba := by
  intro n
  induction n with
  | zero =>
    intro f v _ lba
    rw [if_neg (by simp), fatSetLoop]
  | succ n ih =>
    intro f v hq lba
    obtain ⟨a, ha⟩ : ∃ a, a = fatLba g (if g.mirror then f else g.activeFat) c := ⟨_, rfl⟩
    have hstep : fatSetLoop g c val (n + 1) f v =
        fatSetLoop g c val n (f + 1) (v.setSec g a (setWord (fatOff c) val (v.sec g a))) := by
      rw [fatSetLoop]
      simp only [← ha, readSec_quiet hq, writeSec_quiet hg hq]
      rfl
    rw [hstep, ih (f + 1) (v.setSec g a (setWord (fatOff c) val (v.sec g a))) hq lba, setSec_sec]
    -- the first round, or one of the others
    have hsplit : (∃ j < n + 1, lba = fatLba g (if g.mirror then f + j else g.activeFat) c) ↔
        lba = a ∨ ∃ j < n, lba = fatLba g (if g.mirror then f + 1 + j else g.activeFat) c := by
      constructor
      · rintro ⟨j, hj, h⟩
        cases j with
        | zero => exact .inl (h.trans ha.symm)
        | succ j => exact .inr ⟨j, by omega, by rw [h, show f + (j + 1) = f + 1 + j by omega]⟩
      · rintro (h | ⟨j, hj, h⟩)
        · exact ⟨0, by omega, h.trans ha⟩
        · exact ⟨j + 1, by omega, by rw [h, show f + 1 + j = f + (j + 1) by omega]⟩
    by_cases hrest : ∃ j < n, lba = fatLba g (if g.mirror then f + 1 + j else g.activeFat) c
    · rw [if_pos hrest, if_pos (hsplit.mpr (.inr hrest))]
      split
      · rename_i hla
        rw [setWord_setWord, hla]
      · rfl
    · rw [if_neg hrest]
      by_cases hla : lba = a
      · rw [if_pos hla, if_pos (hsplit.mpr (.inl hla)), hla]
      · rw [if_neg hla, if_neg fun h => (hsplit.mp h).elim hla hrest]

/-- **`fat32_fat_set`** on the sectors of the FAT. -/
theorem fatSet_sec (hg : g.Wf) (hq : Quiet v) (c val : ℕ) : SetsEntry g c val v (fatSet g c val v).2 := by
  have hact := hg.active
  have hin : ∀ lba, lba ∈ entrySecs g c ↔ ∃ j < (if g.mirror then g.numFats else 1),
      lba = fatLba g (if g.mirror then 0 + j else g.activeFat) c := by
    intro lba
    constructor
    · rintro ⟨k, hk, hw, h⟩
      by_cases hm : g.mirror = true
      · exact ⟨k, by rwa [if_pos hm], by rw [h, if_pos hm, Nat.zero_add]⟩
      · exact ⟨0, by rw [if_neg hm]; omega, by rw [h, if_neg hm, hw.resolve_left hm]⟩
    · rintro ⟨j, hj, h⟩
      by_cases hm : g.mirror = true
      · rw [if_pos hm] at hj h
        exact ⟨j, hj, .inl hm, by rw [h, Nat.zero_add]⟩
      · rw [if_neg hm] at h
        exact ⟨g.activeFat, hact, .inr rfl, h⟩
  have hsec := fatSetLoop_sec hg c val (if g.mirror then g.numFats else 1) 0 v hq
  refine ⟨fun lba h _ => ?_, fun lba h _ => ?_⟩
  · rw [fatSet, hsec, if_pos ((hin lba).mp h)]
  · rw [fatSet, hsec, if_neg fun hj => h ((hin lba).mpr hj)]

/-- `fat32_fs_info_write` is not about the FAT. -/
theorem fsInfoWrite_sec (hg : g.Wf) (hq : Quiet v) : SameFat g v (fsInfoWrite g v).2 := by
  rw [fsInfoWrite]
  split
  · exact .of_disk rfl
  simp only [readSec_quiet hq]
  split
  · exact .of_disk rfl
  simp only [writeSec_quiet hg hq]
  have h₁ : SameFat g v _ := .of_setSec (hg.info_apart (.inl rfl)) (fsInfoFill v (v.sec g g.fsInfoSec))
  split
  · rename_i h1
    rw [writeSec_quiet hg (show Quiet (v.setSec g g.fsInfoSec _) from hq)]
    exact h₁.trans (.of_setSec (hg.info_apart (.inr ⟨h1, rfl⟩)) _)
  · exact h₁

/-- `fat32_zero_cluster` is not about the FAT. -/
theorem zeroLoop_sec (hg : g.Wf) (hc : clusValid g c = true) : ∀ (n j : ℕ) (v : Vol), Quiet v →
    j + n ≤ g.secPerClus → SameFat g v (zeroLoop g n (clusLba g c + j) v).2 := by
  intro n
  induction n with
  | zero =>
    intro j v _ _
    exact .of_disk rfl
  | succ n ih =>
    intro j v hq hj
    have hin : InClus g c (clusLba g c + j) := by
      simp only [InClus]
      omega
    rw [zeroLoop, hg.clusLba_add hc (by omega)]
    simp only [writeSec_quiet hg hq]
    rw [Nat.add_assoc]
    refine SameFat.trans (.of_setSec (hg.inClus_apart hc hin).1 _) (ih (j + 1) _ hq (by omega))

/-- Taking the free cluster `c` marks its entry. -/
theorem takeCluster_sec (hg : g.Wf) (hq : Quiet v) (hc : clusValid g c = true) :
    SetsEntry g c eoc v (takeCluster g c v).2 := by
  obtain ⟨v₁, hr₁, ht₁, -⟩ := fatSet_quiet hg hq hc eoc
  have hset := fatSet_sec hg hq c eoc
  rw [hr₁] at hset
  obtain ⟨v₂, hr₂, ht₂, -⟩ := zeroLoop_quiet hg hc g.secPerClus 0 v₁ (ht₁.quiet hq) (by omega)
  have hzero := zeroLoop_sec hg hc g.secPerClus 0 v₁ (ht₁.quiet hq) (by omega)
  rw [hr₂] at hzero
  rw [Nat.add_zero] at hr₂
  have hq₂ : Quiet (noteTaken c v₂) := ht₂.quiet (ht₁.quiet hq)
  simp only [takeCluster, zeroCluster, hr₁, hr₂, ne_eq, not_true_eq_false, if_false]
  exact ((hset.same hzero).same (.of_disk rfl)).same (fsInfoWrite_sec hg hq₂)

/-- One pass marks the entry of the cluster it takes. -/
theorem allocPass_sec (hg : g.Wf) (hq : Quiet v) : ∀ (n s : ℕ), 2 ≤ s → s + n ≤ g.clusterCount + 2 →
    allocPass g n s v = (none, v) ∨
      ∃ d v', allocPass g n s v = (some d, v') ∧ SetsEntry g d eoc v v' := by
  intro n
  induction n with
  | zero =>
    intro s _ _
    exact .inl rfl
  | succ n ih =>
    intro s hs hn
    have hv : clusValid g s = true := hg.valid_iff.mpr ⟨hs, by omega⟩
    rw [allocPass, fatGet_quiet hq]
    by_cases hz : fat g v s = 0
    · obtain ⟨v', hr, -⟩ := takeCluster_quiet hg hq hv hz
      have hset := takeCluster_sec hg hq hv
      rw [hr] at hset
      exact .inr ⟨s, v', by simp only [hz, if_true, hr], hset⟩
    · simp only [hz, if_false]
      exact ih (s + 1) (by omega) (by omega)

/-- `fat32_alloc_cluster` marks the entry of the cluster it takes. -/
theorem allocCluster_sec (hg : g.Wf) (hq : Quiet v) (h : allocCluster g v = (c, v'))
    (hc : clusValid g c = true) : SetsEntry g c eoc v v' := by
  have hmarks := hg.marks
  have hroot := hg.valid_iff.mp hg.root
  obtain ⟨start, h2, hle, halloc⟩ := exists_passes hg v
  rw [halloc] at h
  rcases allocPass_sec hg hq (g.clusterCount + 2 - start) start h2 (by omega) with hr | ⟨d, v₁, hr, hset⟩
  case inr =>
    rw [hr] at h
    cases h
    exact hset
  rw [hr] at h
  dsimp only at h
  rcases allocPass_sec hg hq (g.clusterCount + 2 - 2) 2 le_rfl (by omega) with hr | ⟨d, v₁, hr, hset⟩
  · rw [hr] at h
    cases h
    exact absurd hc (by simp [clusValid])
  · rw [hr] at h
    cases h
    exact hset

/-- `fat32_free_chain` on a chain of one cluster. -/
theorem freeChain_sec (hg : g.Wf) (hq : Quiet v) (hc : clusValid g c = true) (hmark : fat g v c = eoc) :
    SetsEntry g c 0 v (freeChain g c v) := by
  have hend : ¬ clusValid g eoc = true := by
    have := hg.marks
    rw [hg.valid_iff]
    simp only [eoc]
    omega
  obtain ⟨v₁, hr, ht, -⟩ := fatSet_quiet hg hq hc 0
  have hset := fatSet_sec hg hq c 0
  rw [hr] at hset
  have hnote : (noteFreed v₁).disk = v₁.disk := by
    rw [noteFreed]
    split <;> rfl
  have hq₁ : Quiet (noteFreed v₁) := (touches_noteFreed g v₁).quiet (ht.quiet hq)
  have hloop : freeLoop g (g.clusterCount + 1) c v = (true, noteFreed v₁) := by
    rw [freeLoop, if_neg (not_not.mpr hc), fatGet_quiet hq, hmark]
    dsimp only
    rw [hr]
    dsimp only
    rw [if_neg (by decide), if_pos hend]
  rw [freeChain, hloop]
  exact (hset.same (.of_disk hnote)).same (fsInfoWrite_sec hg hq₁)

/-! ## Room for the entries -/

/-- **Where `fat32_find_slots` finds room it is there**: no directory has to
grow for it. -/
theorem findLoop_fits (hg : g.Wf) (hs : Sound g K P X v) (hd : d ∈ P.dirs) (hdvd : 32 ∣ total) :
    ∀ (fuel : ℕ) (ch : Chain) (i run start : ℕ), Cursor g (P.clusters d) ch → ch.start = d →
      (run ≠ 0 → start + run = i) → run < need →
      ∀ rc idx ch' v', findLoop g need total fuel ch i run start v = (rc, idx, false, ch', v') →
        rc = fatOk → (idx + need) * 32 ≤ total := by
  intro fuel
  induction fuel with
  | zero =>
    intro ch i run start _ _ _ _ rc idx ch' v' h
    cases h
  | succ fuel ih =>
    intro ch i run start hcur hst hrun hlt rc idx ch' v' h hrc
    rw [findLoop] at h
    split at h
    · cases h
    rename_i hi
    obtain ⟨ch₁, hst₁, hcur₁, hread⟩ := entRead_quiet hg hs.quiet (hs.dir_chain hd) hcur i
    rcases hread with ⟨-, hr⟩ | ⟨-, hr⟩
    case inr =>
      simp only [hr, if_true] at h
      cases h
    have hne : (fatOk : ℤ) ≠ errEof := by decide
    simp only [hr, hne, if_false, ne_eq, not_true_eq_false] at h
    -- a slot before the end is one of the directory
    obtain ⟨m, rfl⟩ := hdvd
    split at h
    · -- the end marker
      simp only [Prod.mk.injEq, decide_eq_false_iff_not] at h
      obtain ⟨-, rfl, hgrow, -⟩ := h
      omega
    split at h
    · split at h
      · cases h
        split <;> omega
      · refine ih ch₁ (i + 1) _ _ hcur₁ (hst₁.trans hst) (fun _ => ?_) (by omega) rc idx ch' v' h hrc
        split <;> omega
    · exact ih ch₁ (i + 1) 0 start hcur₁ (hst₁.trans hst) (fun h => absurd rfl h) (by omega) rc idx ch' v' h hrc

/-- If one cluster is enough, the directory grows by one or not at all. -/
theorem growLoop_undone (hg : g.Wf) (hs : Sound g K P X v) (hd : d ∈ P.dirs)
    (hcur : Cursor g (P.clusters d) ch) (hst : ch.start = d)
    (hfits : (idx + need) * 32 ≤ ((P.clusters d).length + 1) * g.clusBytes)
    (hlt : ((P.clusters d).length + 1) * g.clusBytes < 2 ^ 32)
    (h : (growLoop g idx need (n + 2) total ch v).1 ≠ fatOk) :
    (growLoop g idx need (n + 2) total ch v).2.2 = v := by
  rw [growLoop] at h ⊢
  split at h
  · exact absurd rfl h
  rename_i hno
  rw [if_neg hno]
  rcases dirGrow_quiet hg hs hd hcur hst with ⟨ch₁, hr, -⟩ | ⟨c, ch₁, v₁, hr, -⟩
  · -- no cluster is left
    rw [hr]
    dsimp only
    rw [if_pos (by decide)]
  have hlen : ((P.grow d c).clusters d).length = (P.clusters d).length + 1 := by
    simp [Plan.grow]
  have hend : (idx + need) % 2 ^ 32 * 32 ≤ ((P.clusters d).length + 1) * g.clusBytes % 2 ^ 32 := by
    rw [Nat.mod_eq_of_lt hlt, Nat.mod_eq_of_lt (by omega)]
    exact hfits
  rw [hr, hlen] at h
  dsimp only at h
  rw [if_neg (by decide), growLoop, if_pos hend] at h
  exact absurd rfl h

/-- A directory of less than `2 ^ 32` bytes, also with one more cluster. FAT
allows `2 ^ 21`. -/
def Plan.Short (P : Plan) (g : Geo) : Prop :=
  ∀ d ∈ P.dirs, ((P.clusters d).length + 1) * g.clusBytes < 2 ^ 32

/-- **What fails in `fat32_dir_insert` once the slots are known** is the first
allocation. -/
theorem insertRoom_undone (hg : g.Wf) (hs : Sound g K P ∅ v) (hd : d ∈ P.dirs) (hshort : P.Short g)
    {isDir : Bool} (hf : Fresh g P v d isDir c) (hc : c < 2 ^ 32) (size : ℕ) {raw : Bytes}
    (hdot : raw 0 ≠ dot) {lfns : List Bytes} (hlfn : ∀ e ∈ lfns, e 11 = attrLfn)
    (hlen : lfns.length + 1 ≤ 16) {grow : Bool}
    (hidx : grow = false → (idx + (lfns.length + 1)) * 32 ≤ (P.clusters d).length * g.clusBytes)
    (hcur : Cursor g (P.clusters d) ch) (hst : ch.start = d)
    (h : (insertRoom g d name isDir c size raw lfns idx grow ch v).1 ≠ fatOk) :
    (insertRoom g d name isDir c size raw lfns idx grow ch v).2.2 = v := by
  have hbytes := hg.clusBytes
  have hsec := hg.secPerClus
  have hroom := hshort d hd
  have hcount : chainCount g ch v = ((P.clusters d).length, v) :=
    chainCount_quiet hg hs.quiet (by rw [hst]; exact hs.dir_chain hd)
  obtain ⟨total, htotal⟩ : ∃ t, t = (P.clusters d).length * g.clusBytes := ⟨_, rfl⟩
  rw [Nat.succ_mul, ← htotal] at hroom
  rw [← htotal] at hidx
  obtain ⟨at_, hat⟩ : ∃ i, i = if grow = true then total / 32 else idx := ⟨_, rfl⟩
  have hfits : (at_ + (lfns.length + 1)) * 32 ≤ ((P.clusters d).length + 1) * g.clusBytes := by
    rw [Nat.succ_mul, ← htotal, hat]
    cases grow with
    | true =>
      rw [if_pos rfl]
      omega
    | false =>
      have := hidx rfl
      rw [if_neg (by decide)]
      omega
  obtain ⟨rc, ch₁, P₁, v₁, hr, hs₁, hx, hcur₁, -, hend⟩ :=
    growLoop_quiet hg at_ (lfns.length + 1) (g.clusterCount + 2) total ch P v hd hs hcur hst
      htotal.le (by omega)
  have hundone : (growLoop g at_ (lfns.length + 1) (g.clusterCount + 2) total ch v).1 ≠ fatOk →
      (growLoop g at_ (lfns.length + 1) (g.clusterCount + 2) total ch v).2.2 = v :=
    growLoop_undone hg hs hd hcur hst hfits (hshort d hd)
  rw [hr] at hundone
  simp only [insertRoom, hcount, ← htotal, Nat.mod_eq_of_lt (show total < 2 ^ 32 by omega), ← hat, hr] at h ⊢
  by_cases hrc : rc = fatOk
  case neg =>
    rw [if_pos hrc]
    exact hundone hrc
  -- there is room, and the entries are written
  obtain ⟨hin, hlt⟩ := hend hrc
  have hmod : (at_ + (lfns.length + 1)) % 2 ^ 32 = at_ + (lfns.length + 1) := by
    refine Nat.mod_eq_of_lt ?_
    have := hshort d hd
    omega
  rw [hmod] at hin hlt
  obtain ⟨loc, v', hr'⟩ : ∃ loc v',
      insertWrite g d name isDir c size raw lfns at_ ch₁ v₁ = (fatOk, some loc, v') := by
    obtain ⟨loc, v', hr', -⟩ := insertWrite_quiet hg hs₁ (hx.dirs ▸ hd) (hf.extends hx) hc size
      hdot hlfn hcur₁ hin (by omega)
    exact ⟨loc, v', hr'⟩
  rw [if_neg (not_not.mpr hrc), hr'] at h
  exact absurd rfl h

/-- **A failed `fat32_dir_insert`** leaves the volume as it was. -/
theorem dirInsert_undone (hg : g.Wf) (hs : Sound g K P ∅ v) (hd : d ∈ P.dirs) (hshort : P.Short g)
    (hname : name.length < nameMax) {isDir : Bool} (hf : Fresh g P v d isDir c) (hc : c < 2 ^ 32) (size : ℕ)
    (h : (dirInsert g d name isDir c size v).1 ≠ fatOk) :
    Same v (dirInsert g d name isDir c size v).2.2 := by
  obtain ⟨o, v₁, hr, hsame, hraw⟩ := makeShort_quiet hg hs hd name
  have hs₁ := hsame.sound hs hg
  rw [dirInsert, hr] at h ⊢
  rcases o with _ | ⟨raw, needLfn⟩
  · exact hsame
  obtain ⟨lfns, hl⟩ : ∃ l, l = if needLfn = true then buildLfn name raw else [] := ⟨_, rfl⟩
  have hlfn : ∀ e ∈ lfns, e 11 = attrLfn := by
    intro e he
    rw [hl] at he
    split at he
    · exact buildLfn_attr he
    · exact absurd he (by simp)
  have hlen : lfns.length + 1 ≤ 16 := by
    rw [hl]
    split
    · rw [buildLfn, List.length_map, List.length_range, lfnCount]
      simp only [nameMax] at hname
      omega
    · simp
  -- the slots
  have hbytes := hg.clusBytes
  have hroom := hshort d hd
  rw [Nat.succ_mul] at hroom
  have hcount : chainCount g (chainInit d) v₁ = ((P.clusters d).length, v₁) :=
    chainCount_quiet hg hs₁.quiet (hs₁.dir_chain hd)
  obtain ⟨total, htotal⟩ : ∃ t, t = (P.clusters d).length * g.clusBytes := ⟨_, rfl⟩
  have hdvd : 32 ∣ total := by
    rw [htotal, hbytes]
    exact Dvd.dvd.mul_left (Dvd.dvd.mul_left (by norm_num) _) _
  have hcur₀ := (hs₁.dir_chain hd).cursor_init
  obtain ⟨idx, grow, ch, hfind, -, hcur, hst⟩ := findLoop_quiet hg hs₁ hd (lfns.length + 1) total
    (total / 32 + 1) (chainInit d) 0 0 0 hcur₀ rfl le_rfl
  have hidx : grow = false → (idx + (lfns.length + 1)) * 32 ≤ (P.clusters d).length * g.clusBytes := by
    rintro rfl
    rw [← htotal]
    exact findLoop_fits hg hs₁ hd hdvd _ (chainInit d) 0 0 0 hcur₀ rfl (fun h => absurd rfl h) (by omega)
      fatOk idx ch v₁ hfind rfl
  have hmod : (P.clusters d).length * g.clusBytes % 2 ^ 32 = total := by
    rw [← htotal]
    exact Nat.mod_eq_of_lt (by omega)
  have hnamed : insertNamed g d name isDir c size raw needLfn v₁ =
      insertRoom g d name isDir c size raw lfns idx grow ch v₁ := by
    simp only [insertNamed, findSlots, ← hl, hcount, hmod, hfind]
    rw [if_neg (by decide)]
  dsimp only at h ⊢
  rw [hnamed] at h ⊢
  rw [insertRoom_undone hg hs₁ hd hshort (hf.extends (.of_same hsame)) hc size (hraw raw needLfn rfl) hlfn
    hlen hidx hcur hst h]
  exact hsame

/-! ## `fat32_mkdir` -/

/-- **Nothing has changed**: the FAT is the same byte for byte, and so are the
slots of the directories and the count of free clusters. -/
structure Unchanged (g : Geo) (v v' : Vol) : Prop where
  fat : SameFat g v v'
  slot : ∀ c j, Reached g v true c → j < perClus g → slot g v' c j = slot g v c j
  count : v'.freeCount = v.freeCount

theorem fat_of_same (h : Same v v') : fat g v' = fat g v := by
  rcases h with rfl | rfl <;> rfl

theorem Unchanged.of_same (h : Same v v') : Unchanged g v v' := by
  refine ⟨?_, fun _ _ _ _ => by rw [h.slot], ?_⟩
  · rcases h with rfl | rfl <;> exact .of_disk rfl
  · rcases h with rfl | rfl <;> rfl

/-- What two volumes that differ in `hang` at most have in common. -/
theorem Same.agree (h : Same v v') : v'.disk = v.disk ∧ v'.faults = v.faults ∧ v'.freeKnown = v.freeKnown ∧
    v'.freeCount = v.freeCount := by
  rcases h with rfl | rfl <;> exact ⟨rfl, rfl, rfl, rfl⟩

theorem Unchanged.of_same_left (h : Same v v₁) (h' : Unchanged g v₁ v') : Unchanged g v v' := by
  obtain ⟨hd, -, -, hcount⟩ := h.agree
  have hfat : ∀ x, nextClus g v₁ x = nextClus g v x := fun x => by
    rw [nextClus, nextClus, fat_of_same h]
  refine ⟨(SameFat.of_disk hd).trans h'.fat, fun c j hc hj => ?_, h'.count.trans hcount⟩
  rw [h'.slot c j (hc.mono (fun _ _ _ _ hn => (hfat _).trans hn) fun _ _ _ _ => by rw [h.slot]) hj, h.slot]

/-- **A cluster that has been taken and given back** leaves nothing behind. -/
theorem Taken.undone (hg : g.Wf) (hs : Sound g K P ∅ v) (hcount : v.freeKnown = true → 0 < v.freeCount)
    (hr : allocCluster g v = (c, v₁)) (hT : Taken g c v v₁) (hsame : Same v₁ v₂) :
    Unchanged g v (freeChain g c v₂) := by
  have hword := hs.word
  obtain ⟨hd, hf, hk, hn⟩ := hsame.agree
  have hq₂ : Quiet v₂ := hf.trans (hT.touches.quiet hs.quiet)
  have hlt : v₂.freeKnown = true → v₂.freeCount < 2 ^ 32 := by
    intro _
    rw [hn, hT.count]
    split <;> omega
  have hmark : fat g v₂ c = eoc := by rw [fat_of_same hsame, hT.mark]
  have hF := freeChain_quiet hg hq₂ ((hT.isChain hg).congr fun x _ => by rw [fat_of_same hsame]) hlt
  refine ⟨?_, fun b j hb hj => ?_, ?_⟩
  · have hset := (allocCluster_sec hg hs.quiet hr hT.valid).same (SameFat.of_disk hd)
    exact (hset.trans (freeChain_sec hg hq₂ hT.valid hmark)).undone hs.mirrored hT.valid hT.free
  · obtain ⟨r, hbr, hdir⟩ := hb.planned hs.toTree
    have hbc : b ∉ ({c} : Set ℕ) := by
      rintro rfl
      exact hb.fat_ne_zero hs.toTree hT.free
    have hbv : clusValid g b = true := (hs.dir_chain hdir).valid hbr
    have hslot : slot g (freeChain g c v₂) b j = slot g v₂ b j :=
      cut_congr fun i hi => hF.touches.byte_eq hg hbv (by simp) (hg.slot_end hj hi)
    rw [hslot, hsame.slot]
    exact cut_congr fun i hi => hT.touches.byte_eq hg hbv hbc (hg.slot_end hj hi)
  · by_cases hkn : v.freeKnown = true
    · have hpos := hcount hkn
      rw [hF.count (hk.trans (hT.known.trans hkn)), hn, hT.count, if_pos ⟨hkn, hpos⟩, List.length_singleton]
      omega
    · have hkf : v₂.freeKnown = false := by
        rw [hk, hT.known]
        exact Bool.eq_false_of_not_eq_true hkn
      rw [hF.unknown hkf, hn, hT.count, if_neg fun h => hkn h.1]

/-- A failed `fat32_create_dir`. -/
theorem createDir_undone (hg : g.Wf) (hs : Sound g (v.freeKnown = true) P ∅ v) (hd : d ∈ P.dirs)
    (hshort : P.Short g) {leaf : Str} (hname : leaf.length < nameMax)
    (h : (createDir g d leaf v).1 ≠ fatOk) : Unchanged g v (createDir g d leaf v).2 := by
  rw [createDir] at h ⊢
  rcases allocCluster_quiet hg hs.quiet with ⟨hr, -⟩ | ⟨c, v₁, hr, hT⟩
  · rw [hr]
    dsimp only
    rw [if_pos (by simp [clusValid])]
    exact .of_same (.refl v)
  have hnew := hs.taken_new hT
  have hs₁ := hs.taken_dir hg hT
  have hcroot : c ≠ g.rootClus := by
    rintro rfl
    exact hnew _ (.inl hs.root) (hs.head_mem (.inl hs.root))
  have hcd : c ≠ d := by
    rintro rfl
    exact hnew _ (.inl hd) (hs.head_mem (.inl hd))
  have hfresh : Fresh g (P.addDir c) v₁ d true c :=
    ⟨Set.mem_insert .., hcroot, hcd, unnamed_of_taken hg hs hT⟩
  have hmarks := hg.marks
  have hcv := (hg.valid_iff.mp hT.valid).2
  -- the new directory is short, as its parent and one more cluster
  have hshort' : (P.addDir c).Short g := by
    intro r hr
    have hroom := hshort d hd
    have hne : 0 < (P.clusters d).length := List.length_pos_of_mem (hs.head_mem (.inl hd))
    by_cases hrc : r = c
    · have hself : (P.addDir c).clusters r = [c] := by rw [hrc]; exact Function.update_self ..
      rw [hself, List.length_singleton]
      exact lt_of_le_of_lt (Nat.mul_le_mul_right _ (by omega)) hroom
    · have hold : (P.addDir c).clusters r = P.clusters r := Function.update_of_ne hrc ..
      rw [hold]
      exact hshort r (Set.mem_of_mem_insert_of_ne hr hrc)
  have hins := dirInsert_undone hg hs₁ (Set.mem_insert_of_mem _ hd) hshort' hname hfresh
    (show c < 2 ^ 32 by omega) 0
  rw [hr] at h ⊢
  dsimp only at h ⊢
  rw [if_neg (not_not.mpr hT.valid)] at h ⊢
  rcases hr₂ : dirInsert g d leaf true c 0 v₁ with ⟨rc, o, v₂⟩
  rw [hr₂] at h hins
  dsimp only at h hins ⊢
  by_cases hrc : rc = fatOk
  · rw [if_neg (not_not.mpr hrc)] at h
    exact absurd rfl h
  rw [if_pos hrc]
  have hpos : v.freeKnown = true → 0 < v.freeCount := by
    intro hk
    rw [(hs.count hk).2]
    exact Finset.card_pos.mpr ⟨c, (mem_freeSet hg).mpr ⟨hT.valid, hT.free⟩⟩
  exact hT.undone hg hs hpos hr (hins hrc)

theorem split_leaf_lt {dir leaf : Str} (h : split rel = some (dir, leaf)) : leaf.length < nameMax := by
  rw [split] at h
  split_ifs at h with h1 h2
  cases h
  exact not_le.mp fun hle => h1 (.inr hle)

/-- **A failed `mkdir` changes nothing**: if `fat32_mkdir` returns an error, for
whatever reason, no sector of the FAT, no slot of a directory and not the count
of free clusters is another. -/
theorem mkdir_failed_unchanged (hg : g.Wf) (ht : Tree g P ∅ v) (hm : Mirrored g v) (hq : Quiet v)
    (hshort : P.Short g) (hword : v.freeCount < 2 ^ 32)
    (hcount : v.freeKnown = true → v.freeCount = (freeSet g v).card) (hh : Handed rel)
    (h : (mkdir g rel v).1 ≠ fatOk) : Unchanged g v (mkdir g rel v).2 := by
  have hs : Sound g (v.freeKnown = true) P ∅ v := ⟨ht, hq, hm, hword, fun hk => ⟨hk, hcount hk⟩⟩
  have hp := handed_normal hh
  rw [mkdir] at h ⊢
  rcases hsp : split rel with _ | ⟨dir, leaf⟩
  · exact .of_same (.refl v)
  rw [hsp] at h
  obtain ⟨hdir, hleaf, -⟩ := split_normal hp hsp
  obtain ⟨rc, parent, v₁, hr, hsame, hparent⟩ :=
    resolveDirLoop_quiet hg dir.length dir g.rootClus v hs hs.root hdir
  simp only [resolveDir, hr] at h ⊢
  by_cases hrc : rc = fatOk
  case neg =>
    rw [if_pos hrc]
    exact .of_same hsame
  rw [if_neg (not_not.mpr hrc)] at h ⊢
  have hs₁ := hsame.sound hs hg
  obtain ⟨rc₂, o, v₂, hr₂, hsame₂, -⟩ := dirLookup_quiet hg hs₁ (hparent hrc) hleaf
  rw [hr₂] at h ⊢
  dsimp only at h ⊢
  by_cases hrc₂ : rc₂ = fatOk
  case neg =>
    rw [if_pos hrc₂]
    exact .of_same (hsame.trans hsame₂)
  rw [if_neg (not_not.mpr hrc₂)] at h ⊢
  by_cases ho : o.isSome = true
  · rw [if_pos ho]
    exact .of_same (hsame.trans hsame₂)
  rw [if_neg ho] at h ⊢
  have hs₂ : Sound g (v₂.freeKnown = true) P ∅ v₂ := by
    have hs₂ := hsame₂.sound hs₁ hg
    rwa [← (hsame.trans hsame₂).agree.2.2.1] at hs₂
  exact (createDir_undone hg hs₂ (hparent hrc) hshort (split_leaf_lt hsp) h).of_same_left (hsame.trans hsame₂)

/-! ### The last free cluster -/

/-- A volume of two clusters. -/
def Boot.two : Geo := geoOf (Boot.of 32 1 35 0) 0 true

/-- One of them is free. The other one is the root, in which every slot is a
volume label. -/
def Boot.fullRoot : Vol :=
  ⟨2, 1, true, fun lba =>
    if lba = 0 then Boot.of 32 1 35 0
    else if lba = 32 then
      Bytes.store 4 (Bytes.store 4 (Bytes.store 4 (Bytes.const 0) 0 eoc) 4 eoc) 8 eoc
    else if lba = 33 then fun i => if i % 32 = 11 then attrVol else 0x41
    else Bytes.const 0, [], false, fun _ => 0⟩

theorem wf_two : Boot.two.Wf := by decide +kernel

theorem mirrored_fullRoot : Mirrored Boot.two Boot.fullRoot := by
  -- there is one copy
  intro _ k hk c _
  obtain rfl : k = 0 := Nat.lt_one_iff.mp hk
  rfl

/-- A root of one cluster without an entry. -/
theorem Tree.of_dead (hg : g.Wf) (hc : IsChain g v g.rootClus [g.rootClus])
    (hdead : ∀ j < perClus g, ¬ IsEntry (slot g v g.rootClus j)) : Tree g (Plan.ofRoot g) ∅ v := by
  have hat : ∀ d c j, (Plan.ofRoot g).At g d c j → ¬ IsEntry (slot g v c j) := by
    rintro d c j ⟨-, hcm, hj⟩
    obtain rfl : c = g.rootClus := by simpa [Plan.ofRoot] using hcm
    exact hdead j hj
  have hheads : ∀ h ∈ (Plan.ofRoot g).heads, h = g.rootClus := fun h hh => by
    simpa [Plan.ofRoot, Plan.heads] using hh
  refine ⟨rfl, Set.disjoint_empty _, fun h hh => ?_, fun h hh h' hh' _ _ _ => ?_,
    fun d c j ha _ hl => absurd hl.1 (hat d c j ha),
    fun d c j d' c' j' ha _ _ _ hl _ _ _ => absurd hl.1 (hat d c j ha),
    fun d c j ha _ hd => absurd hd.1 (hat d c j ha), fun d hd hs => ?_⟩
  · rw [hheads h hh]
    exact ⟨hc, by simp [Plan.ofRoot]⟩
  · rw [hheads h hh, hheads h' hh']
  · -- a directory of one cluster does not reach the seam
    have hb := hg.clusBytes
    have hsec := hg.secPerClus
    have hlt : (2 ^ 27 - 1) * 32 / g.clusBytes < 1 := hs
    rw [Nat.div_lt_iff_lt_mul hg.clusBytes_pos] at hlt
    omega

theorem tree_fullRoot : Tree Boot.two (Plan.ofRoot Boot.two) ∅ Boot.fullRoot := by
  refine .of_dead wf_two ⟨⟨by decide +kernel, ?_⟩, ?_, by simp⟩ fun j hj he => ?_
  · rw [seg_nil]
    decide +kernel
  · intro x hx
    obtain rfl : x = Boot.two.rootClus := by simpa using hx.symm
    decide +kernel
  · -- a label leads nowhere
    have hper : perClus Boot.two = 16 := by decide +kernel
    rw [hper] at hj
    have hlabel : ∀ j < 16, slot Boot.two Boot.fullRoot Boot.two.rootClus j 11 &&& attrVol ≠ 0 := by
      decide +kernel
    exact hlabel j hj he.2.2.2

theorem short_two : (Plan.ofRoot Boot.two).Short Boot.two := by
  intro d _
  show (1 + 1) * Boot.two.clusBytes < 2 ^ 32
  decide +kernel

/-- **The cluster is given back**: `mkdir("/b")` takes the last free cluster and
then needs another one for the root. -/
theorem mkdir_failed_unchanged_full :
    (mkdir Boot.two [0x62] Boot.fullRoot).1 = errNospc ∧
      Unchanged Boot.two Boot.fullRoot (mkdir Boot.two [0x62] Boot.fullRoot).2 :=
  ⟨by decide +kernel, mkdir_failed_unchanged wf_two tree_fullRoot mirrored_fullRoot rfl
    short_two (by decide) (fun _ => by decide +kernel) handed_letter (by decide +kernel)⟩

end Fat32

end Csos

import Csos.Fat32.Model
/-!
# FAT32 — the table and the allocator

What a volume holds, as its readers see it: the entries of the FAT copies
and the bytes of the clusters. `Touches F C` says that a call has changed
no more than the entries `F`, the bytes of the clusters `C` and FSInfo;
each function below has one such lemma, with what it leaves at the entries
it changes, on a device that does not fail.
-/

namespace Csos

namespace Fat32

/-- **A well-formed geometry.** The FAT covers the clusters, FSInfo and its
backup are reserved sectors, the areas follow each other within the volume,
and no cluster has the number of a mark. -/
@[mk_iff]
structure Geo.Wf (g : Geo) : Prop where
  writable : g.writable = true
  secPerClus : 0 < g.secPerClus ∧ g.secPerClus ≤ 128
  clusBytes : g.clusBytes = g.secPerClus * 512
  fatStart : g.fatStartLba = g.reservedSecs
  dataStart : g.dataStartLba = g.fatStartLba + g.numFats * g.fatSecs
  covers : (g.clusterCount + 2) * 4 ≤ g.fatSecs * 512
  fits : g.dataStartLba + g.clusterCount * g.secPerClus ≤ g.totalSecs
  total : g.totalSecs < 2 ^ 32
  marks : g.clusterCount + 1 < 0x0ffffff7
  fsInfo : g.fsInfoSec < g.reservedSecs
  backup : g.fsInfoSec = 1 → 7 < g.reservedSecs
  active : g.activeFat < g.numFats
  root : clusValid g g.rootClus = true

instance (g : Geo) : Decidable g.Wf := decidable_of_iff _ (Geo.wf_iff g).symm

variable {g : Geo} {v v' v₁ v₂ : Vol} {c c' i k lba x : ℕ} {F F' C C' : Set ℕ}

/-! ## Where things are -/

theorem Geo.Wf.valid_iff (hg : g.Wf) : clusValid g c = true ↔ 2 ≤ c ∧ c ≤ g.clusterCount + 1 := by
  have := hg.marks
  simp only [clusValid, decide_eq_true_eq]
  omega

/-- The sectors of a valid cluster lie in the volume. -/
theorem Geo.Wf.clus_end (hg : g.Wf) (hc : clusValid g c = true) :
    g.dataStartLba + (c - 2) * g.secPerClus + g.secPerClus ≤ g.totalSecs := by
  obtain ⟨h2, hle⟩ := hg.valid_iff.mp hc
  have hfits := hg.fits
  have hmul : (c - 2) * g.secPerClus + g.secPerClus ≤ g.clusterCount * g.secPerClus := by
    calc (c - 2) * g.secPerClus + g.secPerClus = (c - 2 + 1) * g.secPerClus := by ring
      _ ≤ g.clusterCount * g.secPerClus := Nat.mul_le_mul_right _ (by omega)
  omega

theorem Geo.Wf.clusLba_eq (hg : g.Wf) (hc : clusValid g c = true) :
    clusLba g c = g.dataStartLba + (c - 2) * g.secPerClus := by
  have hend := hg.clus_end hc
  have htot := hg.total
  obtain ⟨h2, -⟩ := hg.valid_iff.mp hc
  have hsplit : (c + (2 ^ 32 - 2)) * g.secPerClus
      = (c - 2) * g.secPerClus + 2 ^ 32 * g.secPerClus := by
    rw [← Nat.add_mul]
    congr 1
    omega
  rw [clusLba, hsplit, ← Nat.add_assoc, Nat.add_mul_mod_self_left, Nat.mod_eq_of_lt (by omega)]

/-- A sector of a cluster, without overflow. -/
theorem Geo.Wf.clusLba_add (hg : g.Wf) (hc : clusValid g c = true) (hk : k < g.secPerClus) :
    (clusLba g c + k) % 2 ^ 32 = clusLba g c + k := by
  have hend := hg.clus_end hc
  have htot := hg.total
  rw [hg.clusLba_eq hc]
  exact Nat.mod_eq_of_lt (by omega)

/-- The sectors of the FAT copies. -/
def IsFat (g : Geo) (lba : ℕ) : Prop := g.fatStartLba ≤ lba ∧ lba < g.dataStartLba

/-- FSInfo and its backup. -/
def IsInfo (g : Geo) (lba : ℕ) : Prop := lba = g.fsInfoSec ∨ g.fsInfoSec = 1 ∧ lba = 7

/-- The sectors of a cluster. -/
def InClus (g : Geo) (c lba : ℕ) : Prop := clusLba g c ≤ lba ∧ lba < clusLba g c + g.secPerClus

theorem Geo.Wf.fatOff_eq (hg : g.Wf) (hc : clusValid g c = true) : fatOff c = c * 4 % 512 := by
  have := hg.marks
  have := (hg.valid_iff.mp hc).2
  rw [fatOff, Nat.mod_eq_of_lt (a := c * 4) (by omega)]

/-- The sector of an entry within its copy. -/
theorem Geo.Wf.entry_sec_lt (hg : g.Wf) (hc : clusValid g c = true) : c * 4 / 512 < g.fatSecs := by
  have := hg.covers
  have := (hg.valid_iff.mp hc).2
  omega

theorem Geo.Wf.fatLba_eq (hg : g.Wf) (hk : k < g.numFats) (hc : clusValid g c = true) :
    fatLba g k c = g.fatStartLba + k * g.fatSecs + c * 4 / 512 ∧ IsFat g (fatLba g k c) := by
  have hsec := hg.entry_sec_lt hc
  have hmarks := hg.marks
  have hle := (hg.valid_iff.mp hc).2
  have hfits := hg.fits
  have htot := hg.total
  have hds := hg.dataStart
  have hmul : k * g.fatSecs + g.fatSecs ≤ g.numFats * g.fatSecs := by
    calc k * g.fatSecs + g.fatSecs = (k + 1) * g.fatSecs := by ring
      _ ≤ g.numFats * g.fatSecs := Nat.mul_le_mul_right _ hk
  have heq : fatLba g k c = g.fatStartLba + k * g.fatSecs + c * 4 / 512 := by
    rw [fatLba, Nat.mod_eq_of_lt (a := c * 4) (by omega), Nat.mod_eq_of_lt (by omega)]
  exact ⟨heq, by rw [heq, IsFat]; omega⟩

/-- Different copies have different sectors. -/
theorem Geo.Wf.fatLba_inj (hg : g.Wf) {k' : ℕ} (hk : k < g.numFats) (hk' : k' < g.numFats)
    (hc : clusValid g c = true) (hc' : clusValid g c' = true)
    (h : fatLba g k c = fatLba g k' c') : k = k' ∧ c * 4 / 512 = c' * 4 / 512 := by
  rw [(hg.fatLba_eq hk hc).1, (hg.fatLba_eq hk' hc').1] at h
  have h1 := hg.entry_sec_lt hc
  have h2 := hg.entry_sec_lt hc'
  rcases lt_trichotomy k k' with hlt | rfl | hlt
  · have : (k + 1) * g.fatSecs ≤ k' * g.fatSecs := Nat.mul_le_mul_right _ hlt
    rw [Nat.add_mul, Nat.one_mul] at this
    omega
  · exact ⟨rfl, by omega⟩
  · have : (k' + 1) * g.fatSecs ≤ k * g.fatSecs := Nat.mul_le_mul_right _ hlt
    rw [Nat.add_mul, Nat.one_mul] at this
    omega

/-- A sector of a cluster is of no other cluster. -/
theorem Geo.Wf.inClus_inj (hg : g.Wf) (hc : clusValid g c = true) (hc' : clusValid g c' = true)
    (h : InClus g c lba) (h' : InClus g c' lba) : c = c' := by
  simp only [InClus, hg.clusLba_eq hc, hg.clusLba_eq hc'] at h h'
  have h2 := (hg.valid_iff.mp hc).1
  have h2' := (hg.valid_iff.mp hc').1
  rcases lt_trichotomy c c' with hlt | rfl | hlt
  · have : (c - 2 + 1) * g.secPerClus ≤ (c' - 2) * g.secPerClus := Nat.mul_le_mul_right _ (by omega)
    rw [Nat.add_mul, Nat.one_mul] at this
    omega
  · rfl
  · have : (c' - 2 + 1) * g.secPerClus ≤ (c - 2) * g.secPerClus := Nat.mul_le_mul_right _ (by omega)
    rw [Nat.add_mul, Nat.one_mul] at this
    omega

/-- A sector of a cluster is neither a FAT sector nor FSInfo. -/
theorem Geo.Wf.inClus_apart (hg : g.Wf) (hc : clusValid g c = true) (h : InClus g c lba) :
    ¬ IsFat g lba ∧ ¬ IsInfo g lba := by
  have h1 := hg.fsInfo
  have h2 := hg.backup
  have h3 := hg.fatStart
  have h4 := hg.dataStart
  simp only [InClus, hg.clusLba_eq hc] at h
  simp only [IsFat, IsInfo]
  omega

/-- FSInfo lies before the FAT. -/
theorem Geo.Wf.info_apart (hg : g.Wf) (h : IsInfo g lba) : ¬ IsFat g lba := by
  have h1 := hg.fsInfo
  have h2 := hg.backup
  have h3 := hg.fatStart
  simp only [IsFat, IsInfo] at h ⊢
  omega

/-! ## What a volume holds -/

/-- The entry of a cluster in a copy of the FAT. -/
def fatEnt (g : Geo) (v : Vol) (k c : ℕ) : ℕ :=
  Bytes.load 4 (v.sec g (fatLba g k c)) (fatOff c) % 2 ^ 28

/-- The entry of a cluster in the copy that is read. -/
def fat (g : Geo) (v : Vol) (c : ℕ) : ℕ := fatEnt g v (fatCopy g) c

/-- A byte of a cluster. -/
def byte (g : Geo) (v : Vol) (c i : ℕ) : UInt8 := v.sec g (clusLba g c + i / 512) (i % 512)

/-- The copies agree, if they are mirrored. -/
def Mirrored (g : Geo) (v : Vol) : Prop :=
  g.mirror = true → ∀ k < g.numFats, ∀ c, clusValid g c = true → fatEnt g v k c = fatEnt g v 0 c

theorem Geo.Wf.fatCopy_lt (hg : g.Wf) : fatCopy g < g.numFats := by
  have := hg.active
  rw [fatCopy]
  split <;> omega

/-- **What a call may have changed.** `F` are entries of the FAT, `C` are
clusters. -/
structure Touches (g : Geo) (F C : Set ℕ) (v v' : Vol) : Prop where
  fat : ∀ k < g.numFats, ∀ c, clusValid g c = true → c ∉ F → fatEnt g v' k c = fatEnt g v k c
  disk : ∀ L, (∀ lba, L = g.baseLba + lba → ¬ IsFat g lba ∧ ¬ IsInfo g lba ∧
    ∀ c ∈ C, clusValid g c = true → ¬ InClus g c lba) → v'.disk L = v.disk L
  faults : v'.faults = v.faults
  hang : v'.hang = v.hang
  junk : v'.junk = v.junk

theorem Touches.refl (g : Geo) (v : Vol) : Touches g F C v v :=
  ⟨fun _ _ _ _ _ => rfl, fun _ _ => rfl, rfl, rfl, rfl⟩

theorem Touches.trans (h : Touches g F C v v₁) (h' : Touches g F' C' v₁ v') :
    Touches g (F ∪ F') (C ∪ C') v v' := by
  refine ⟨fun k hk c hc hn => ?_, fun L hL => ?_, h'.faults.trans h.faults, h'.hang.trans h.hang,
    h'.junk.trans h.junk⟩
  · rw [Set.mem_union, not_or] at hn
    rw [h'.fat k hk c hc hn.2, h.fat k hk c hc hn.1]
  · rw [h'.disk L fun lba hl => ?_, h.disk L fun lba hl => ?_]
    all_goals
      obtain ⟨h1, h2, h3⟩ := hL lba hl
      exact ⟨h1, h2, fun c hc => h3 c (by simp [hc])⟩

theorem Touches.mono (h : Touches g F C v v') (hF : F ⊆ F') (hC : C ⊆ C') : Touches g F' C' v v' :=
  ⟨fun k hk c hc hn => h.fat k hk c hc fun hm => hn (hF hm),
    fun L hL => h.disk L fun lba hl => ⟨(hL lba hl).1, (hL lba hl).2.1,
      fun c hc => (hL lba hl).2.2 c (hC hc)⟩, h.faults, h.hang, h.junk⟩

/-- The entries outside `F`. -/
theorem Touches.fat_eq (h : Touches g F C v v') (hg : g.Wf) (hc : clusValid g c = true)
    (hn : c ∉ F) : Fat32.fat g v' c = Fat32.fat g v c := h.fat _ hg.fatCopy_lt c hc hn

/-- The sector of a byte of a cluster. -/
theorem Geo.Wf.inClus_byte (hg : g.Wf) (hi : i < g.clusBytes) : InClus g c (clusLba g c + i / 512) := by
  have := hg.clusBytes
  simp only [InClus]
  omega

/-- The bytes outside `C`. -/
theorem Touches.byte_eq (h : Touches g F C v v') (hg : g.Wf) (hc : clusValid g c = true)
    (hn : c ∉ C) (hi : i < g.clusBytes) : byte g v' c i = byte g v c i := by
  have hin := hg.inClus_byte (c := c) hi
  rw [byte, byte, Vol.sec, Vol.sec, h.disk _ fun lba hl => ?_]
  obtain rfl : clusLba g c + i / 512 = lba := by omega
  obtain ⟨h1, h2⟩ := hg.inClus_apart hc hin
  refine ⟨h1, h2, fun c' hc' hv' hin' => hn ?_⟩
  rwa [hg.inClus_inj hc hv' hin hin']

/-! ## Transfers, whether they succeed or not -/

/-- The device does not fail. -/
def Quiet (v : Vol) : Prop := v.faults = []

theorem Touches.quiet (h : Touches g F C v v') (hq : Quiet v) : Quiet v' := h.faults.trans hq

theorem readSec_quiet (hq : Quiet v) (lba : ℕ) : readSec g lba v = (some (v.sec g lba), v) := by
  simp only [readSec, Vol.transfer, show v.faults = [] from hq]

theorem writeSec_quiet (hg : g.Wf) (hq : Quiet v) (lba : ℕ) (s : Bytes) :
    writeSec g lba s v = (true, v.setSec g lba s) := by
  simp [writeSec, hg.writable, Vol.transfer, show v.faults = [] from hq]

theorem setSec_sec (v : Vol) (lba x : ℕ) (s : Bytes) :
    (v.setSec g lba s).sec g x = if x = lba then s else v.sec g x := by
  simp only [Vol.setSec, Vol.sec, Function.update_apply, Nat.add_left_cancel_iff]

/-- A write to a sector that is not of the FAT leaves the entries. -/
theorem fatEnt_setSec (hg : g.Wf) (hk : k < g.numFats) (hc : clusValid g c = true)
    (hl : ¬ IsFat g lba) (s : Bytes) : fatEnt g (v.setSec g lba s) k c = fatEnt g v k c := by
  rw [fatEnt, setSec_sec, if_neg, fatEnt]
  rintro rfl
  exact hl (hg.fatLba_eq hk hc).2

/-- A write to FSInfo. -/
theorem touches_info (hg : g.Wf) (hl : IsInfo g lba) (s : Bytes) :
    Touches g ∅ ∅ v (v.setSec g lba s) := by
  refine ⟨fun k hk c hc _ => fatEnt_setSec hg hk hc (hg.info_apart hl) s, fun L hL => ?_, rfl, rfl, rfl⟩
  refine Function.update_of_ne ?_ _ _
  rintro rfl
  exact (hL lba rfl).2.1 hl

/-- A write to a cluster. -/
theorem touches_clus (hg : g.Wf) (hc : clusValid g c = true) (hl : InClus g c lba) (s : Bytes) :
    Touches g ∅ {c} v (v.setSec g lba s) := by
  refine ⟨fun k hk d hd _ => fatEnt_setSec hg hk hd (hg.inClus_apart hc hl).1 s, fun L hL => ?_,
    rfl, rfl, rfl⟩
  refine Function.update_of_ne ?_ _ _
  rintro rfl
  exact (hL lba rfl).2.2 c rfl hc hl

/-- What a write to a cluster leaves there. -/
theorem byte_setSec (v : Vol) (c i lba : ℕ) (s : Bytes) : byte g (v.setSec g lba s) c i =
    if clusLba g c + i / 512 = lba then s (i % 512) else byte g v c i := by
  rw [byte, setSec_sec]
  split <;> rfl

/-! ## The entries -/

theorem fatGet_quiet (hq : Quiet v) (c : ℕ) : fatGet g c v = (fat g v c, v) := by
  rw [fatGet, readSec_quiet hq]
  rfl

/-- The volume with an entry of one copy set. -/
def setEnt (g : Geo) (k c val : ℕ) (v : Vol) : Vol :=
  v.setSec g (fatLba g k c) (Bytes.store 4 (v.sec g (fatLba g k c)) (fatOff c)
    (Bytes.load 4 (v.sec g (fatLba g k c)) (fatOff c) / 2 ^ 28 * 2 ^ 28 + val % 2 ^ 28))

theorem fatEnt_setEnt_self (v : Vol) (k c val : ℕ) :
    fatEnt g (setEnt g k c val v) k c = val % 2 ^ 28 := by
  have hlt := Bytes.load_lt 4 (v.sec g (fatLba g k c)) (fatOff c)
  rw [fatEnt, setEnt, setSec_sec, if_pos rfl, Bytes.load_store_self_of_lt]
  · omega
  · omega

/-- Entries of one sector do not overlap. -/
theorem fatEnt_setEnt_of_ne (hg : g.Wf) {k' : ℕ} (hk : k < g.numFats) (hk' : k' < g.numFats)
    (hc : clusValid g c = true) (hc' : clusValid g c' = true) (hne : k' = k → c' ≠ c) (val : ℕ) :
    fatEnt g (setEnt g k c val v) k' c' = fatEnt g v k' c' := by
  rw [fatEnt, setEnt, setSec_sec]
  split
  · rename_i h
    obtain ⟨rfl, hsec⟩ := hg.fatLba_inj hk' hk hc' hc h
    have hne := hne rfl
    rw [Bytes.load_store_of_disjoint, fatEnt, h]
    rw [hg.fatOff_eq hc, hg.fatOff_eq hc']
    omega
  · rfl

/-- Setting one copy touches the entry only. -/
theorem touches_setEnt (hg : g.Wf) (hk : k < g.numFats) (hc : clusValid g c = true) (val : ℕ) :
    Touches g {c} ∅ v (setEnt g k c val v) := by
  refine ⟨fun k' hk' c' hc' hn => ?_, fun L hL => ?_, rfl, rfl, rfl⟩
  · exact fatEnt_setEnt_of_ne hg hk hk' hc hc' (fun _ => hn) val
  · refine Function.update_of_ne ?_ _ _
    rintro rfl
    exact (hL _ rfl).1 (hg.fatLba_eq hk hc).2

/-- The copies that `fat32_fat_set` writes in round `f`. -/
theorem fatSetLoop_quiet (hg : g.Wf) (hc : clusValid g c = true) (val : ℕ) :
    ∀ (n f : ℕ) (v : Vol), Quiet v →
      (∀ j < n, (if g.mirror then f + j else g.activeFat) < g.numFats) →
      ∃ v', fatSetLoop g c val n f v = (fatOk, v') ∧ Touches g {c} ∅ v v' ∧
        v'.nextFree = v.nextFree ∧ v'.freeCount = v.freeCount ∧ v'.freeKnown = v.freeKnown ∧
        ∀ k < g.numFats, fatEnt g v' k c =
          if ∃ j < n, k = if g.mirror then f + j else g.activeFat then val % 2 ^ 28
          else fatEnt g v k c := by
  intro n
  induction n with
  | zero =>
    intro f v _ _
    exact ⟨v, rfl, .refl g v, rfl, rfl, rfl, by simp⟩
  | succ n ih =>
    intro f v hq hlt
    have hk : (if g.mirror then f else g.activeFat) < g.numFats := hlt 0 (by omega)
    set k₀ := if g.mirror then f else g.activeFat with hk₀
    have hstep : fatSetLoop g c val (n + 1) f v = fatSetLoop g c val n (f + 1) (setEnt g k₀ c val v) := by
      rw [fatSetLoop]
      simp only [← hk₀, readSec_quiet hq, writeSec_quiet hg hq]
      rfl
    obtain ⟨v', hr, ht, h1, h2, h3, hent⟩ := ih (f + 1) (setEnt g k₀ c val v) hq fun j hj => by
      have := hlt (j + 1) (by omega)
      rwa [show f + (j + 1) = f + 1 + j by omega] at this
    refine ⟨v', hstep.trans hr, ((touches_setEnt hg hk hc val).trans ht).mono (by simp) (by simp),
      h1, h2, h3, fun k hkn => ?_⟩
    rw [hent k hkn]
    by_cases hkk : k = k₀
    · have h0 : ∃ j < n + 1, k = if g.mirror then f + j else g.activeFat := ⟨0, by omega, hkk⟩
      rw [if_pos h0, hkk, fatEnt_setEnt_self, ite_self]
    · rw [fatEnt_setEnt_of_ne hg hk hkn hc hc (fun h => absurd h hkk)]
      refine if_congr ⟨?_, ?_⟩ rfl rfl
      · rintro ⟨j, hj, h⟩
        exact ⟨j + 1, by omega, by rw [h, show f + 1 + j = f + (j + 1) by omega]⟩
      · rintro ⟨j, hj, h⟩
        cases j with
        | zero => exact absurd h hkk
        | succ j => exact ⟨j, by omega, by rw [h, show f + (j + 1) = f + 1 + j by omega]⟩

/-- **`fat32_fat_set`** sets the entry, in every copy if they are mirrored,
and touches nothing else. -/
theorem fatSet_quiet (hg : g.Wf) (hq : Quiet v) (hc : clusValid g c = true) (val : ℕ) :
    ∃ v', fatSet g c val v = (fatOk, v') ∧ Touches g {c} ∅ v v' ∧ fat g v' c = val % 2 ^ 28 ∧
      (Mirrored g v → Mirrored g v') ∧
      v'.nextFree = v.nextFree ∧ v'.freeCount = v.freeCount ∧ v'.freeKnown = v.freeKnown := by
  have hact := hg.active
  obtain ⟨v', hr, ht, h1, h2, h3, hent⟩ := fatSetLoop_quiet hg hc val
    (if g.mirror then g.numFats else 1) 0 v hq (by
      intro j hj
      split
      · simp_all
      · exact hact)
  refine ⟨v', hr, ht, ?_, fun hm hmir k hk d hd => ?_, h1, h2, h3⟩
  · rw [fat, hent _ hg.fatCopy_lt, if_pos]
    rw [fatCopy]
    split
    · exact ⟨0, by omega, rfl⟩
    · exact ⟨0, by omega, rfl⟩
  · by_cases hdc : d = c
    · subst hdc
      have h0 : ∀ k < g.numFats, ∃ j < (if g.mirror then g.numFats else 1),
          k = if g.mirror then 0 + j else g.activeFat := fun k hk => ⟨k, by simp [hmir, hk], by simp [hmir]⟩
      rw [hent k hk, hent 0 (by omega), if_pos (h0 k hk), if_pos (h0 0 (by omega))]
    · rw [ht.fat k hk d hd hdc, ht.fat 0 (by omega) d hd hdc]
      exact hm hmir k hk d hd

/-! ## FSInfo and the data of a new cluster -/

/-- `fat32_fs_info_write` touches FSInfo only. -/
theorem fsInfoWrite_quiet (hg : g.Wf) (hq : Quiet v) :
    Touches g ∅ ∅ v (fsInfoWrite g v).2 ∧ (fsInfoWrite g v).2.nextFree = v.nextFree ∧
      (fsInfoWrite g v).2.freeCount = v.freeCount ∧ (fsInfoWrite g v).2.freeKnown = v.freeKnown := by
  have hinfo : IsInfo g g.fsInfoSec := .inl rfl
  rw [fsInfoWrite]
  split
  · exact ⟨.refl g v, rfl, rfl, rfl⟩
  simp only [readSec_quiet hq]
  split
  · exact ⟨.refl g v, rfl, rfl, rfl⟩
  simp only [writeSec_quiet hg hq]
  have h1 := touches_info (v := v) hg hinfo (fsInfoFill v (v.sec g g.fsInfoSec))
  split
  · rename_i hone
    rw [writeSec_quiet hg (h1.quiet hq)]
    exact ⟨(h1.trans (touches_info hg (.inr ⟨hone, rfl⟩) _)).mono (by simp) (by simp), rfl, rfl, rfl⟩
  · exact ⟨h1, rfl, rfl, rfl⟩

/-- The sectors that `fat32_zero_cluster` has still to write. -/
theorem zeroLoop_quiet (hg : g.Wf) (hc : clusValid g c = true) :
    ∀ (n j : ℕ) (v : Vol), Quiet v → j + n = g.secPerClus →
      ∃ v', zeroLoop g n (clusLba g c + j) v = (fatOk, v') ∧ Touches g ∅ {c} v v' ∧
        v'.nextFree = v.nextFree ∧ v'.freeCount = v.freeCount ∧ v'.freeKnown = v.freeKnown ∧
        ∀ i < g.clusBytes, byte g v' c i = if j ≤ i / 512 then 0 else byte g v c i := by
  have hbytes := hg.clusBytes
  intro n
  induction n with
  | zero =>
    intro j v _ hj
    exact ⟨v, rfl, .refl g v, rfl, rfl, rfl, fun i hi => (if_neg (by omega)).symm⟩
  | succ n ih =>
    intro j v hq hj
    have hin : InClus g c (clusLba g c + j) := by
      simp only [InClus]
      omega
    have ht₁ := touches_clus (v := v) hg hc hin (Bytes.const 0)
    obtain ⟨v', hr, ht, h1, h2, h3, hb⟩ := ih (j + 1) _ (ht₁.quiet hq) (by omega)
    refine ⟨v', ?_, (ht₁.trans ht).mono (by simp) (by simp), h1, h2, h3, fun i hi => ?_⟩
    · rw [zeroLoop, hg.clusLba_add hc (by omega)]
      simp only [writeSec_quiet hg hq]
      exact hr
    · rw [hb i hi, byte_setSec]
      by_cases hij : i / 512 = j
      · rw [if_neg (by omega), if_pos (by omega), if_pos (by omega)]
        rfl
      · have hne : clusLba g c + i / 512 ≠ clusLba g c + j := by omega
        rw [if_neg hne]
        exact if_congr (by omega) rfl rfl

/-! ## Allocation -/

/-- The volume after a cluster has been taken. -/
structure Taken (g : Geo) (c : ℕ) (v v' : Vol) : Prop where
  valid : clusValid g c = true
  free : fat g v c = 0
  touches : Touches g {c} {c} v v'
  mark : fat g v' c = eoc
  zero : ∀ i < g.clusBytes, byte g v' c i = 0
  mirrored : Mirrored g v → Mirrored g v'
  known : v'.freeKnown = v.freeKnown
  count : v'.freeCount = if v.freeKnown ∧ 0 < v.freeCount then v.freeCount - 1 else v.freeCount

theorem Mirrored.of_touches (h : Mirrored g v) (ht : Touches g ∅ C v v') : Mirrored g v' := by
  intro hm k hk c hc
  rw [ht.fat k hk c hc (by simp), ht.fat 0 (by omega) c hc (by simp)]
  exact h hm k hk c hc

theorem takeCluster_quiet (hg : g.Wf) (hq : Quiet v) (hc : clusValid g c = true)
    (hfree : fat g v c = 0) : ∃ v', takeCluster g c v = (c, v') ∧ Taken g c v v' := by
  obtain ⟨v₁, hr₁, ht₁, hm₁, hmir₁, -, hf₁, hk₁⟩ := fatSet_quiet hg hq hc eoc
  obtain ⟨v₂, hr₂, ht₂, -, hf₂, hk₂, hz₂⟩ :=
    zeroLoop_quiet hg hc g.secPerClus 0 v₁ (ht₁.quiet hq) (by omega)
  rw [Nat.add_zero] at hr₂
  have ht₃ : Touches g ∅ ∅ v₂ (noteTaken c v₂) :=
    ⟨fun _ _ _ _ _ => rfl, fun _ _ => rfl, rfl, rfl, rfl⟩
  obtain ⟨ht₄, -, hf₄, hk₄⟩ := fsInfoWrite_quiet hg (ht₃.quiet (ht₂.quiet (ht₁.quiet hq)))
  have ht₂₄ := (ht₂.trans ht₃).trans ht₄
  refine ⟨(fsInfoWrite g (noteTaken c v₂)).2, ?_, hc, hfree,
    (ht₁.trans ht₂₄).mono (by simp) (by simp), ?_,
    fun i hi => ?_, fun hm => (hmir₁ hm).of_touches (ht₂₄.mono (by simp) subset_rfl), ?_, ?_⟩
  · simp only [takeCluster, zeroCluster, hr₁, hr₂, ne_eq, not_true_eq_false, if_false]
  · rw [ht₂₄.fat_eq hg hc (by simp), hm₁]
    norm_num
  · rw [(ht₃.trans ht₄).byte_eq hg hc (by simp) hi, hz₂ i hi, if_pos (by omega)]
  · rw [hk₄, noteTaken, hk₂, hk₁]
  · rw [hf₄]
    simp only [noteTaken, hk₂, hk₁, hf₂, hf₁]

/-- One pass finds a free cluster of its range, if there is one. -/
theorem allocPass_quiet (hg : g.Wf) (hq : Quiet v) :
    ∀ (n c : ℕ), 2 ≤ c → c + n ≤ g.clusterCount + 2 →
      (allocPass g n c v = (none, v) ∧ ∀ d, c ≤ d → d < c + n → fat g v d ≠ 0) ∨
      ∃ d v', allocPass g n c v = (some d, v') ∧ Taken g d v v' := by
  intro n
  induction n with
  | zero =>
    intro c _ _
    exact .inl ⟨rfl, fun d h1 h2 => by omega⟩
  | succ n ih =>
    intro c hc hn
    have hv : clusValid g c = true := hg.valid_iff.mpr ⟨hc, by omega⟩
    rw [allocPass, fatGet_quiet hq]
    by_cases hz : fat g v c = 0
    · obtain ⟨v', hr, hT⟩ := takeCluster_quiet hg hq hv hz
      exact .inr ⟨c, v', by simp only [hz, if_true, hr], hT⟩
    · simp only [hz, if_false]
      rcases ih (c + 1) (by omega) (by omega) with ⟨hr, hno⟩ | h
      · refine .inl ⟨hr, fun d h1 h2 => ?_⟩
        rcases h1.eq_or_lt with rfl | h1
        · exact hz
        · exact hno d h1 (by omega)
      · exact .inr h

/-- **`fat32_alloc_cluster` is two passes**: from some cluster on, and then over
all of them. -/
theorem exists_passes (hg : g.Wf) (v : Vol) : ∃ start, 2 ≤ start ∧ start ≤ g.clusterCount + 1 ∧
    allocCluster g v = match allocPass g (g.clusterCount + 2 - start) start v with
      | (some c, v) => (c, v)
      | (none, v) =>
        match allocPass g (g.clusterCount + 2 - 2) 2 v with
        | (some c, v) => (c, v)
        | (none, v) => (0, v) := by
  have hmarks := hg.marks
  have hroot := hg.valid_iff.mp hg.root
  refine ⟨if clusValid g v.nextFree then v.nextFree else 2, ?_, ?_, ?_⟩
  · split
    · rename_i h
      exact (hg.valid_iff.mp h).1
    · exact le_rfl
  · split
    · rename_i h
      exact (hg.valid_iff.mp h).2
    · omega
  · have hdef := allocCluster.eq_def g v
    rw [Nat.mod_eq_of_lt (show g.clusterCount + 2 < 2 ^ 32 by omega)] at hdef
    exact hdef

/-- **`fat32_alloc_cluster`** takes a free cluster, and fails only if there
is none. -/
theorem allocCluster_quiet (hg : g.Wf) (hq : Quiet v) :
    (allocCluster g v = (0, v) ∧ ∀ d, clusValid g d = true → fat g v d ≠ 0) ∨
      ∃ c v', allocCluster g v = (c, v') ∧ Taken g c v v' := by
  have hmarks := hg.marks
  have hroot := hg.valid_iff.mp hg.root
  obtain ⟨start, h2, hle, halloc⟩ := exists_passes hg v
  rw [halloc]
  rcases allocPass_quiet hg hq (g.clusterCount + 2 - start) start h2 (by omega) with
    ⟨hr, -⟩ | ⟨d, v', hr, hT⟩
  · simp only [hr]
    rcases allocPass_quiet hg hq (g.clusterCount + 2 - 2) 2 le_rfl (by omega) with
      ⟨hr', hno⟩ | ⟨d, v', hr', hT⟩
    · refine .inl ⟨by simp only [hr'], fun d hd => ?_⟩
      have := hg.valid_iff.mp hd
      exact hno d (by omega) (by omega)
    · exact .inr ⟨d, v', by simp only [hr'], hT⟩
  · exact .inr ⟨d, v', by simp only [hr], hT⟩

end Fat32

end Csos

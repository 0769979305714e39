import Csos.Fat32.Driver
import Csos.Fat32.Table
/-!
# FAT32 — what mounting accepts

`fat32_mount` derives the layout of the volume from six fields of the boot
sector. `Boot.Fits` says in exact arithmetic when that layout can be
addressed, `Addressable` what every later access relies on, and the two are
the same. The second half is the place of FSInfo, which the boot sector
gives as well and nothing checks.
-/

namespace Csos

namespace Fat32

variable {g : Geo} {v v₀ v' : Vol} {sec : Bytes} {base : ℕ} {w : Bool} {c f lba : ℕ}

/-! ## What a mount has read -/

/-- **What a successful `fat32_mount` has gone through.** -/
theorem mount_ok {vd : Option Dev} {mem : Bool} {junk : ℕ → ℕ} (h : mount vd mem junk = .ok (g, v)) :
    ∃ dev sec base v₀, vd = some dev ∧
      findBoot ⟨2, 0, false, dev.disk, dev.faults, false, junk⟩ = .ok (sec, base, v₀) ∧
      g = geoOf sec base dev.writable ∧ 2 ≤ g.clusterCount := by
  unfold mount at h
  match vd, h with
  | none, h => exact absurd h (by simp)
  | some dev, h =>
    dsimp only at h
    split_ifs at h with hr hb hm
    match hf : findBoot ⟨2, 0, false, dev.disk, dev.faults, false, junk⟩ with
    | .error rc => rw [hf] at h; exact absurd h (by simp)
    | .ok (sec, base, v₀) =>
      rw [hf] at h
      dsimp only at h
      split_ifs at h with hc
      obtain ⟨rfl, -⟩ := Prod.mk.inj (Except.ok.inj h)
      exact ⟨dev, sec, base, v₀, rfl, hf, rfl, by omega⟩

/-- The boot sector has passed `fat32_is_dbr`. -/
theorem findBoot_isDbr (h : findBoot v = .ok (sec, base, v₀)) : isDbr sec = true := by
  unfold findBoot at h
  split at h
  · exact absurd h (by simp)
  · rename_i s₁ v₁ _
    split_ifs at h with hd hm
    · obtain ⟨rfl, -⟩ := Prod.mk.inj (Except.ok.inj h)
      exact hd
    · split at h
      · exact absurd h (by simp)
      · split_ifs at h with hd'
        obtain ⟨rfl, -⟩ := Prod.mk.inj (Except.ok.inj h)
        exact hd'

/-- A device that does not fail and starts with the boot sector is mounted. -/
theorem mount_quiet {disk : ℕ → Bytes} (junk : ℕ → ℕ) (hd : isDbr (disk 0) = true)
    (hc : 2 ≤ (geoOf (disk 0) 0 w).clusterCount) (hb : (geoOf (disk 0) 0 w).clusBytes ≠ 0) :
    mount (some ⟨disk, [], 512, true, w⟩) true junk =
      .ok (geoOf (disk 0) 0 w, readInfo (geoOf (disk 0) 0 w) ⟨2, 0, false, disk, [], false, junk⟩) := by
  have hboot : findBoot ⟨2, 0, false, disk, [], false, junk⟩ =
      .ok (disk 0, 0, ⟨2, 0, false, disk, [], false, junk⟩) := by
    rw [findBoot, readDev, Vol.transfer]
    dsimp only
    rw [if_pos hd]
  rw [mount]
  dsimp only
  rw [if_neg (by decide), if_neg (by decide), if_neg (by decide), hboot]
  dsimp only
  rw [if_neg (by omega)]

/-! ## The layout -/

namespace Boot

variable (sec : Bytes)

/-- The sectors before the data area. -/
def metaSecs : ℕ := Bytes.load 2 sec 14 + (sec 16).toNat * Bytes.load 4 sec 36

/-- The clusters of the data area. -/
def clusters : ℕ := (Bytes.load 4 sec 32 - metaSecs sec) / (sec 13).toNat

/-- **The layout can be addressed.** The FATs end within 32 bits, the root is
one of the clusters, and a FAT has an entry for each cluster, at an offset
within 32 bits. -/
structure Fits : Prop where
  metaSecs : metaSecs sec < 2 ^ 32
  root : Bytes.load 4 sec 44 ≤ clusters sec + 1
  covers : (clusters sec + 2) * 4 ≤ Bytes.load 4 sec 36 * 512
  offset : (clusters sec + 1) * 4 < 2 ^ 32

end Boot

/-- **What later accesses rely on.** The root is a cluster, and for each
cluster its FAT entry lies in each FAT copy, at the sector that is computed,
and its own sectors in the data area, where they are computed. -/
structure Addressable (g : Geo) : Prop where
  root : clusValid g g.rootClus = true
  entry : ∀ c, clusValid g c = true → c * 4 + 4 ≤ g.fatSecs * 512
  copy : ∀ c, clusValid g c = true → ∀ f < g.numFats,
    fatLba g f c = g.fatStartLba + f * g.fatSecs + c * 4 / 512 ∧ fatLba g f c < g.dataStartLba
  data : ∀ c, clusValid g c = true →
    clusLba g c = g.dataStartLba + (c - 2) * g.secPerClus ∧ clusLba g c + g.secPerClus ≤ g.totalSecs

/-- The FATs of an addressable volume end where the data area starts. -/
theorem metaSecs_lt (ha : Addressable (geoOf sec base w)) (hn : 0 < (sec 16).toNat) :
    Boot.metaSecs sec < 2 ^ 32 := by
  set g := geoOf sec base w with hgeo
  have hroot := ha.root
  have hv : clusValid g 2 = true := by
    simp only [clusValid, decide_eq_true_eq] at hroot ⊢
    omega
  -- the last copy starts before the data area, and is shorter than `2 ^ 32`
  obtain ⟨heq, hlt⟩ := ha.copy 2 hv ((sec 16).toNat - 1) (Nat.sub_lt hn one_pos)
  have hstart : g.fatStartLba = Bytes.load 2 sec 14 := rfl
  have hlen : g.fatSecs = Bytes.load 4 sec 36 := rfl
  have hdata : g.dataStartLba = Boot.metaSecs sec % 2 ^ 32 := rfl
  have hfs : Bytes.load 4 sec 36 < 2 ^ 32 := Bytes.load_lt 4 sec 36
  have hlast : Boot.metaSecs sec =
      Bytes.load 2 sec 14 + ((sec 16).toNat - 1) * Bytes.load 4 sec 36 + Bytes.load 4 sec 36 := by
    rw [Boot.metaSecs, Nat.add_assoc, ← Nat.succ_mul, Nat.succ_eq_add_one, Nat.sub_add_cancel hn]
  rw [hdata, heq, hstart, hlen] at hlt
  omega

theorem clusterCount_eq (base : ℕ) (w : Bool) (hm : Boot.metaSecs sec < 2 ^ 32) :
    (geoOf sec base w).clusterCount = Boot.clusters sec := by
  have hdata : (geoOf sec base w).clusterCount =
      (if Boot.metaSecs sec % 2 ^ 32 < Bytes.load 4 sec 32 then
        Bytes.load 4 sec 32 - Boot.metaSecs sec % 2 ^ 32 else 0) / (sec 13).toNat := rfl
  rw [hdata, Nat.mod_eq_of_lt hm, Boot.clusters]
  split_ifs with h
  · rfl
  · rw [Nat.sub_eq_zero_of_le (not_lt.mp h)]

/-- An addressable volume has a layout that fits. -/
theorem fits_of_addressable (ha : Addressable (geoOf sec base w)) (hn : 0 < (sec 16).toNat)
    (hc : 2 ≤ (geoOf sec base w).clusterCount) : Boot.Fits sec := by
  have hm := metaSecs_lt ha hn
  have hcount := clusterCount_eq base w hm
  have hroot := ha.root
  set g := geoOf sec base w with hgeo
  have hle : g.clusterCount ≤ Bytes.load 4 sec 32 := by
    rw [hcount]
    exact (Nat.div_le_self _ _).trans (Nat.sub_le _ _)
  have htot : Bytes.load 4 sec 32 < 2 ^ 32 := Bytes.load_lt 4 sec 32
  -- were there `2 ^ 32` numbers of clusters, none would be valid
  have hwrap : g.clusterCount + 1 < 2 ^ 32 := by
    simp only [clusValid, decide_eq_true_eq] at hroot
    omega
  have hlast : clusValid g (g.clusterCount + 1) = true := by
    simp only [clusValid, decide_eq_true_eq]
    omega
  refine ⟨hm, ?_, ?_, ?_⟩
  · rw [← hcount]
    have : g.rootClus = Bytes.load 4 sec 44 := rfl
    simp only [clusValid, decide_eq_true_eq] at hroot
    omega
  · rw [← hcount]
    have := ha.entry _ hlast
    have hlen : g.fatSecs = Bytes.load 4 sec 36 := rfl
    omega
  · rw [← hcount]
    by_contra hge
    obtain ⟨heq, -⟩ := ha.copy _ hlast 0 hn
    have hmod : fatLba g 0 (g.clusterCount + 1) ≤
        g.fatStartLba + 0 * g.fatSecs + (g.clusterCount + 1) * 4 % 2 ^ 32 / 512 := Nat.mod_le _ _
    omega

/-- A layout that fits is addressable. -/
theorem addressable_of_fits (hf : Boot.Fits sec) (hroot : 2 ≤ Bytes.load 4 sec 44)
    (hc : 2 ≤ (geoOf sec base w).clusterCount) : Addressable (geoOf sec base w) := by
  have hcount := clusterCount_eq base w hf.metaSecs
  set g := geoOf sec base w with hgeo
  have hoff := hf.offset
  have hcov := hf.covers
  rw [← hcount] at hoff hcov
  have hlen : g.fatSecs = Bytes.load 4 sec 36 := rfl
  have hstart : g.fatStartLba = Bytes.load 2 sec 14 := rfl
  have hdata : g.dataStartLba = Boot.metaSecs sec := Nat.mod_eq_of_lt hf.metaSecs
  have htot : g.totalSecs = Bytes.load 4 sec 32 := rfl
  have htlt : Bytes.load 4 sec 32 < 2 ^ 32 := Bytes.load_lt 4 sec 32
  have hvalid : ∀ c, clusValid g c = true ↔ 2 ≤ c ∧ c ≤ g.clusterCount + 1 := by
    intro c
    simp only [clusValid, decide_eq_true_eq]
    omega
  refine ⟨?_, fun c hv => ?_, fun c hv f hf' => ?_, fun c hv => ?_⟩
  · have hr : g.rootClus = Bytes.load 4 sec 44 := rfl
    have := hf.root
    rw [← hcount] at this
    exact (hvalid _).mpr (by omega)
  · have := (hvalid c).mp hv
    omega
  · obtain ⟨-, hle⟩ := (hvalid c).mp hv
    have hmeta : Boot.metaSecs sec = Bytes.load 2 sec 14 + g.numFats * g.fatSecs := rfl
    have hlt := hf.metaSecs
    have hmul : f * g.fatSecs + g.fatSecs ≤ g.numFats * g.fatSecs := by
      calc f * g.fatSecs + g.fatSecs = (f + 1) * g.fatSecs := by ring
        _ ≤ g.numFats * g.fatSecs := Nat.mul_le_mul_right _ hf'
    have heq : fatLba g f c = g.fatStartLba + f * g.fatSecs + c * 4 / 512 := by
      rw [fatLba, Nat.mod_eq_of_lt (a := c * 4) (by omega), Nat.mod_eq_of_lt (by omega)]
    exact ⟨heq, by omega⟩
  · obtain ⟨h2, hle⟩ := (hvalid c).mp hv
    have hspc : g.secPerClus = (sec 13).toNat := rfl
    have hfit : Boot.metaSecs sec + g.clusterCount * g.secPerClus ≤ Bytes.load 4 sec 32 := by
      have hmul := Nat.div_mul_le_self (Bytes.load 4 sec 32 - Boot.metaSecs sec) (sec 13).toNat
      have hpos : 0 < Bytes.load 4 sec 32 - Boot.metaSecs sec := by
        by_contra h0
        rw [hcount, Boot.clusters, Nat.eq_zero_of_not_pos h0, Nat.zero_div] at hc
        omega
      rw [hcount, hspc]
      rw [← Boot.clusters] at hmul
      omega
    have hmul : (c - 2) * g.secPerClus + g.secPerClus ≤ g.clusterCount * g.secPerClus := by
      calc (c - 2) * g.secPerClus + g.secPerClus = (c - 2 + 1) * g.secPerClus := by ring
        _ ≤ g.clusterCount * g.secPerClus := Nat.mul_le_mul_right _ (by omega)
    have hsplit : (c + (2 ^ 32 - 2)) * g.secPerClus = (c - 2) * g.secPerClus + 2 ^ 32 * g.secPerClus := by
      rw [← Nat.add_mul]
      congr 1
      omega
    -- a cluster has a sector, so its own sectors start before the end
    have heq : clusLba g c = g.dataStartLba + (c - 2) * g.secPerClus := by
      have hpos : 0 < g.secPerClus := by
        by_contra h0
        rw [hcount, Boot.clusters, ← hspc, Nat.eq_zero_of_not_pos h0, Nat.div_zero] at hc
        omega
      rw [clusLba, hsplit, ← Nat.add_assoc, Nat.add_mul_mod_self_left, Nat.mod_eq_of_lt (by omega)]
    exact ⟨heq, by omega⟩

/-- **Mounting and the layout.** The geometry that a successful
`fat32_mount` has set up is addressable exactly when the layout that the
boot sector describes fits. -/
theorem mount_addressable_iff {dev : Dev} {mem : Bool} {junk : ℕ → ℕ}
    (h : mount (some dev) mem junk = .ok (g, v)) :
    ∃ sec base v₀, findBoot ⟨2, 0, false, dev.disk, dev.faults, false, junk⟩ = .ok (sec, base, v₀) ∧
      (Addressable g ↔ Boot.Fits sec) := by
  obtain ⟨_, sec, base, v₀, he, hboot, rfl, hc⟩ := mount_ok h
  obtain rfl := Option.some.inj he
  have hd := findBoot_isDbr hboot
  simp only [isDbr, decide_eq_true_eq] at hd
  obtain ⟨-, -, -, -, hnum, -, -, -, hroot⟩ := hd
  have hn : 0 < (sec 16).toNat := Nat.pos_of_ne_zero fun h0 => hnum (UInt8.toNat_inj.mp h0)
  exact ⟨sec, base, v₀, hboot, fun ha => fits_of_addressable ha hn hc,
    fun hf => addressable_of_fits hf hroot hc⟩

/-! ### A table that is too short -/

/-- A boot sector with one FAT, a sector to the cluster and the root at 2. -/
def Boot.of (reserved fatSecs total fsInfo : ℕ) : Bytes :=
  let s := Bytes.store 2 (Bytes.store 2 (Bytes.const 0) 510 0xaa55) 11 512
  let s := Bytes.store 1 (Bytes.store 2 (Bytes.store 1 s 13 1) 14 reserved) 16 1
  let s := Bytes.store 4 (Bytes.store 4 (Bytes.store 4 s 32 total) 36 fatSecs) 44 2
  Bytes.store 2 s 48 fsInfo

/-- A device that starts with a boot sector and holds the same everywhere
else. -/
def Boot.dev (sec rest : Bytes) : Dev := ⟨fun lba => if lba = 0 then sec else rest, [], 512, true, true⟩

/-- A volume of 100 clusters. -/
def Boot.small : Geo := geoOf (Boot.of 32 1 133 0) 0 true

/-- The same, freshly formatted: the root is an empty directory. -/
def Boot.formatted : Vol :=
  ⟨2, 0, false, fun lba =>
    if lba = 0 then Boot.of 32 1 133 0
    else if lba = 32 then
      Bytes.store 4 (Bytes.store 4 (Bytes.store 4 (Bytes.const 0) 0 eoc) 4 eoc) 8 eoc
    else Bytes.const 0, [], false, fun _ => 0⟩

/-- A volume of three clusters. -/
def Boot.tiny : Geo := geoOf (Boot.of 32 1 36 0) 0 true

/-- In its root is one empty file, `a`; two clusters are free. -/
def Boot.oneFile : Vol :=
  ⟨2, 2, true, fun lba =>
    if lba = 0 then Boot.of 32 1 36 0
    else if lba = 32 then
      Bytes.store 4 (Bytes.store 4 (Bytes.store 4 (Bytes.const 0) 0 eoc) 4 eoc) 8 eoc
    else if lba = 33 then makeSlot (rawName [0x41] []) attrArch 0 0 0
    else Bytes.const 0, [], false, fun _ => 0⟩

/-- A FAT of one sector has 128 entries: enough for 100 clusters. -/
theorem mount_addressable_iff_short : ∃ sec base v₀,
    findBoot ⟨2, 0, false, (Boot.dev (Boot.of 32 1 133 0) (Bytes.const 0)).disk, [], false, fun _ => 0⟩ =
      .ok (sec, base, v₀) ∧ (Addressable (geoOf (Boot.of 32 1 133 0) 0 true) ↔ Boot.Fits sec) :=
  mount_addressable_iff (mount_quiet _ (by decide) (by decide) (by decide))

/-- **Not every geometry that is accepted can be addressed.** Here are 1000
clusters and a FAT of 128 entries. -/
theorem mount_unaddressable : ∃ v,
    mount (some (Boot.dev (Boot.of 32 1 1033 0) (Bytes.const 0))) true (fun _ => 0) =
      .ok (geoOf (Boot.of 32 1 1033 0) 0 true, v) ∧ ¬ Addressable (geoOf (Boot.of 32 1 1033 0) 0 true) := by
  refine ⟨_, mount_quiet _ (by decide) (by decide) (by decide), fun ha => ?_⟩
  exact absurd (ha.entry 128 (by decide)) (by decide)

/-! ## FSInfo -/

/-- A sector with the marks of FSInfo. -/
def infoSec : Bytes := Bytes.store 4 (Bytes.store 4 (Bytes.const 0) 0 0x41615252) 484 0x61417272

end Fat32

end Csos

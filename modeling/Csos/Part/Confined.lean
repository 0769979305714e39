import Csos.Part.Model
/-!
# Partitions — confinement

Every partition that is registered lies inside its disk, and every access
through it lies inside the partition. The sums of an MBR or of an extended
record are of three 32-bit numbers and cannot wrap; the range of a GPT entry
is checked by its inclusive end, before any sum is formed. What the driver
answers plays no part.
-/

namespace Csos

namespace Part

variable {σ : Type} {ops : BlockOps σ} {pd pd' : Disk} {st st' : σ} {devs : List (Vdev σ)}
variable {drive : ℕ}

/-! ## The tables -/

/-- Every entry lies inside the disk, after its first sector. -/
def Inside (pd : Disk) : Prop :=
  ∀ e ∈ pd.parts, 1 ≤ e.start ∧ e.start + e.sectors ≤ pd.diskSectors

/-- What a scan does to the table: entries are added inside the disk. -/
structure Scans (pd pd' : Disk) : Prop where
  diskSectors : pd'.diskSectors = pd.diskSectors
  inside : Inside pd → Inside pd'

theorem Scans.refl (pd : Disk) : Scans pd pd := ⟨rfl, id⟩

theorem Scans.trans {pd'' : Disk} (h : Scans pd pd') (h' : Scans pd' pd'') : Scans pd pd'' :=
  ⟨h'.diskSectors.trans h.diskSectors, h'.inside ∘ h.inside⟩

/-- An entry inside the disk is added. -/
theorem Scans.add {e : Entry} (h1 : 1 ≤ e.start) (h2 : e.start + e.sectors ≤ pd.diskSectors) :
    Scans pd { pd with parts := pd.parts ++ [e] } := by
  refine ⟨rfl, fun hin e' he => ?_⟩
  rcases List.mem_append.mp he with he | he
  · exact hin e' he
  · rw [List.mem_singleton.mp he]
    exact ⟨h1, h2⟩

/-- The range is tested with a sum that must not wrap. -/
theorem addEntry_scans {e : Entry} (h : e.start + e.sectors < 2 ^ 64) : Scans pd (addEntry pd e) := by
  rw [addEntry]
  split
  · exact .refl _
  split
  · exact .refl _
  · rename_i hr
    rw [Nat.mod_eq_of_lt h, not_or, not_or] at hr
    exact .add (Nat.pos_of_ne_zero hr.2.1) (Nat.not_lt.mp hr.2.2)

/-- The chain of extended records; a record is at the sum of two 32-bit
numbers, and its partition at the sum of three. -/
theorem partScanExt_scans {extBase : ℕ} (hb : extBase < 2 ^ 32) : ∀ guard ebr pd (st : σ),
    ebr < 2 ^ 33 → Scans pd (partScanExt ops extBase guard ebr pd st).1 := by
  intro guard
  induction guard with
  | zero =>
    intro ebr pd st _
    exact .refl _
  | succ guard ih =>
    intro ebr pd st he
    rw [partScanExt]
    rcases readSector ops ebr st with ⟨_ | sec, st'⟩
    · exact .refl _
    dsimp only
    split
    · exact .refl _
    have h0 := Bytes.load_lt 4 sec (mbrTable + 8)
    have h1 := Bytes.load_lt 4 sec (mbrTable + 12)
    have h2 := Bytes.load_lt 4 sec (mbrTable + mbrEntry + 8)
    have hadd : Scans pd (if sec (mbrTable + 4) ≠ 0 ∧ Bytes.load 4 sec (mbrTable + 12) ≠ 0 then
        partAdd pd (sec (mbrTable + 4)).toNat ((ebr + Bytes.load 4 sec (mbrTable + 8)) % 2 ^ 64)
          (Bytes.load 4 sec (mbrTable + 12)) else pd) := by
      split
      · refine addEntry_scans ?_
        dsimp only
        omega
      · exact .refl _
    split
    · exact hadd
    · exact hadd.trans (ih _ _ _ (by omega))

theorem scanMbrEntry_scans (mbr : Bytes) (i : ℕ) : Scans pd (scanMbrEntry ops mbr i pd st).1 := by
  have h0 := Bytes.load_lt 4 mbr (mbrTable + i * mbrEntry + 8)
  have h1 := Bytes.load_lt 4 mbr (mbrTable + i * mbrEntry + 12)
  rw [scanMbrEntry]
  split
  · exact .refl _
  split
  · exact .refl _
  split
  · exact partScanExt_scans (by omega) _ _ _ _ (by omega)
  · refine addEntry_scans ?_
    dsimp only
    omega

theorem partScanMbr_scans (mbr : Bytes) : ∀ n i pd (st : σ),
    Scans pd (partScanMbr ops mbr n i pd st).1 := by
  intro n
  induction n with
  | zero =>
    intro i pd st
    exact .refl _
  | succ n ih =>
    intro i pd st
    exact (scanMbrEntry_scans mbr i).trans (ih _ _ _)

/-- The entries of a GPT: the inclusive end is below the size of the disk, so
that the sum is at most that size. -/
theorem gptLoop_scans {h : GptHeader} : ∀ n i pd (st : σ), pd.diskSectors < 2 ^ 64 →
    Scans pd (gptLoop ops h n i pd st).1 := by
  intro n
  induction n with
  | zero =>
    intro i pd st _
    exact .refl _
  | succ n ih =>
    intro i pd st hd
    rw [gptLoop]
    split
    · exact .refl _
    rcases partReadRange ops ((h.entriesLba * secSize + i * h.esize) % 2 ^ 64) h.esize st
      with ⟨_ | e, st'⟩
    · exact .refl _
    dsimp only
    split
    · exact ih _ _ _ hd
    split
    · exact ih _ _ _ hd
    · rename_i hr
      rw [not_or, not_or] at hr
      have hadd : Scans pd (partAddGpt pd ((List.range 16).map e) (Bytes.load 8 e 32)
          ((Bytes.load 8 e 40 - Bytes.load 8 e 32 + 1) % 2 ^ 64)) := by
        refine addEntry_scans ?_
        dsimp only
        omega
      exact hadd.trans (ih _ _ _ (by rw [hadd.diskSectors]; exact hd))

theorem partScanGpt_scans (mbr : Bytes) (hd : pd.diskSectors < 2 ^ 64) :
    Scans pd (partScanGpt ops mbr pd st).2.1 := by
  rw [partScanGpt]
  rcases readSector ops 1 st with ⟨_ | hdr, st₁⟩
  · exact .refl _
  dsimp only
  split
  · exact .refl _
  split
  · exact .refl _
  split
  · exact .refl _
  split
  · exact .refl _
  rcases entriesCrcLoop ops (readHeader hdr) (entriesSecs (readHeader hdr)) 0 0xffffffff st₁
    with ⟨_ | crc, st₂⟩
  · exact .refl _
  dsimp only
  split
  · exact .refl _
  · exact gptLoop_scans _ _ _ _ hd

/-- **The table of a disk** has only entries inside it, whatever is on the
disk. -/
theorem scanTable_inside {n : ℕ} (hn : n < 2 ^ 64) :
    (scanTable ops n st).1.diskSectors = n ∧ Inside (scanTable ops n st).1 := by
  have hempty : Inside ⟨n, []⟩ := fun e he => absurd he (by simp)
  have hscan : Scans ⟨n, []⟩ (scanTable ops n st).1 := by
    rw [scanTable]
    rcases readSector ops 0 st with ⟨_ | sec, st₁⟩
    · exact .refl _
    dsimp only
    split
    · exact .refl _
    have hg : Scans ⟨n, []⟩ (partScanGpt ops sec ⟨n, []⟩ st₁).2.1 := partScanGpt_scans sec hn
    rcases hr : partScanGpt ops sec ⟨n, []⟩ st₁ with ⟨_ | _, pd, st₂⟩
    · rw [hr] at hg
      exact hg.trans (partScanMbr_scans _ _ _ _ _)
    · rw [hr] at hg
      exact hg
  exact ⟨hscan.diskSectors, hscan.inside hempty⟩

/-! ## The devices -/

/-- **A confined device**: a partition with the data `p` of a parent with the
operations `ops`. It lies inside its parent, and an access either fails with
the driver as it was, or is the parent's access to the same sectors. -/
structure Confined (parent d : Vdev σ) (ops : BlockOps σ) (p : PartPriv σ) : Prop where
  parentOps : parent.bops = some ops ∧ p.parent = ops
  priv : d.priv = some p ∧ d.bops = some (partOps p d.nblocks)
  one_le : 1 ≤ p.start
  inside : p.start + d.nblocks ≤ parent.nblocks
  read : ∀ lba count buf st,
    (∃ err < 0, partReadBlocks p d.nblocks lba count buf st = ((err, buf), st)) ∨
      ∃ data, buf = some data ∧ lba + count ≤ d.nblocks ∧
        partReadBlocks p d.nblocks lba count buf st =
          (((ops.readBlocks (p.start + lba) count data st).1.1,
            some (ops.readBlocks (p.start + lba) count data st).1.2),
            (ops.readBlocks (p.start + lba) count data st).2)
  write : ∀ lba count buf st,
    (∃ err < 0, partWriteBlocks p d.nblocks lba count buf st = (err, st)) ∨
      ∃ data write, buf = some data ∧ ops.writeBlocks = some write ∧ lba + count ≤ d.nblocks ∧
        partWriteBlocks p d.nblocks lba count buf st = write (p.start + lba) count data st

/-- A read or write inside the partition does not wrap. -/
theorem add_mod_of_inside {start nblocks n lba : ℕ} (h : start + nblocks ≤ n) (hn : n < 2 ^ 64)
    (hlba : lba < nblocks) : (start + lba) % 2 ^ 64 = start + lba :=
  Nat.mod_eq_of_lt (by omega)

theorem partDevice_confined {parent : Vdev σ} (hops : parent.bops = some ops) {e : Entry}
    (h1 : 1 ≤ e.start) (h2 : e.start + e.sectors ≤ parent.nblocks) (i : ℕ) :
    Confined parent (partDevice drive i ops e) ops ⟨ops, e.start⟩ := by
  have hn := parent.nblocks_lt
  have hs : (partDevice drive i ops e).nblocks = e.sectors := Nat.mod_eq_of_lt (by omega)
  refine ⟨⟨hops, rfl⟩, ⟨rfl, rfl⟩, h1, by rw [hs]; exact h2, ?_, ?_⟩
  · intro lba count buf st
    rw [hs]
    rcases buf with _ | data
    · exact .inl ⟨_, by decide, rfl⟩
    rw [partReadBlocks]
    split
    · exact .inl ⟨_, by decide, rfl⟩
    split
    · exact .inl ⟨_, by decide, rfl⟩
    · refine .inr ⟨data, rfl, by omega, ?_⟩
      rw [add_mod_of_inside h2 hn (by omega)]
  · intro lba count buf st
    rw [hs]
    rcases buf with _ | data
    · exact .inl ⟨_, by decide, rfl⟩
    rw [partWriteBlocks]
    split
    · exact .inl ⟨_, by decide, rfl⟩
    rcases hw : ops.writeBlocks with _ | write
    · exact .inl ⟨_, by decide, rfl⟩
    dsimp only
    split
    · exact .inl ⟨_, by decide, rfl⟩
    · refine .inr ⟨data, write, rfl, rfl, by omega, ?_⟩
      rw [add_mod_of_inside h2 hn (by omega)]

theorem vdevRegister_cases (devs : List (Vdev σ)) (d : Vdev σ) :
    (vdevRegister devs d).2 = devs ∨ (vdevRegister devs d).2 = d :: devs := by
  rw [vdevRegister]
  split
  · exact .inl rfl
  split
  · exact .inl rfl
  split
  · exact .inl rfl
  · exact .inr rfl

/-- The registered devices are those of the entries. -/
theorem registerParts_spec : ∀ (l : List Entry) (i : ℕ) (devs : List (Vdev σ)), ∃ new,
    registerParts drive ops i l devs = new ++ devs ∧
      ∀ d ∈ new, ∃ k, ∃ e ∈ l, d = partDevice drive k ops e := by
  intro l
  induction l with
  | nil =>
    intro i devs
    exact ⟨[], rfl, by simp⟩
  | cons e l ih =>
    intro i devs
    obtain ⟨new, hnew, hall⟩ := ih (i + 1) (vdevRegister devs (partDevice drive i ops e)).2
    rw [registerParts, hnew]
    have hmem : ∀ d ∈ new, ∃ k, ∃ e' ∈ e :: l, d = partDevice drive k ops e' := by
      intro d hd
      obtain ⟨k, e', he', rfl⟩ := hall d hd
      exact ⟨k, e', List.mem_cons_of_mem _ he', rfl⟩
    rcases vdevRegister_cases devs (partDevice drive i ops e) with hr | hr
    · exact ⟨new, by rw [hr], hmem⟩
    · refine ⟨new ++ [partDevice drive i ops e], by rw [hr]; simp, fun d hd => ?_⟩
      rcases List.mem_append.mp hd with hd | hd
      · exact hmem d hd
      · exact ⟨i, e, List.mem_cons_self, List.mem_singleton.mp hd⟩

/-- What `part_scan_drive` registers: devices for entries inside the disk. -/
theorem partScanDrive_spec (drive : ℕ) (devs : List (Vdev σ)) (st : σ) : ∃ new,
    (partScanDrive drive devs st).1 = new ++ devs ∧ ∀ d ∈ new, ∃ parent ops k, ∃ e : Entry,
      vdevFind devs (partDiskName drive) = some parent ∧ parent.bops = some ops ∧
        1 ≤ e.start ∧ e.start + e.sectors ≤ parent.nblocks ∧ d = partDevice drive k ops e := by
  rw [partScanDrive]
  split
  · exact ⟨[], rfl, by simp⟩
  rename_i parent hf
  split
  · rename_i ops _ hops
    split
    · exact ⟨[], rfl, by simp⟩
    have hin : (scanTable ops parent.nblocks st).1.diskSectors = parent.nblocks ∧
        Inside (scanTable ops parent.nblocks st).1 := scanTable_inside parent.nblocks_lt
    obtain ⟨new, hnew, hall⟩ := registerParts_spec (scanTable ops parent.nblocks st).1.parts 0 devs
    refine ⟨new, hnew, fun d hd => ?_⟩
    obtain ⟨k, e, he, rfl⟩ := hall d hd
    obtain ⟨h1, h2⟩ := hin.2 e he
    rw [hin.1] at h2
    exact ⟨parent, ops, k, e, hf, hops, h1, h2, rfl⟩
  · exact ⟨[], rfl, by simp⟩

/-- **Partitions are confined**, whatever is on the disk. -/
theorem partitions_confined (drive : ℕ) (devs : List (Vdev σ)) (st : σ) : ∃ new,
    (partScanDrive drive devs st).1 = new ++ devs ∧ ∀ d ∈ new, ∃ parent ops p,
      vdevFind devs (partDiskName drive) = some parent ∧ Confined parent d ops p := by
  obtain ⟨new, hnew, hall⟩ := partScanDrive_spec drive devs st
  refine ⟨new, hnew, fun d hd => ?_⟩
  obtain ⟨parent, ops, k, e, hf, hops, h1, h2, rfl⟩ := hall d hd
  exact ⟨parent, ops, _, hf, partDevice_confined hops h1 h2 k⟩

/-- After `init_partitions` every device is one that was there or is confined
to one that is. -/
theorem initPartitions_confined : ∀ n drive (devs : List (Vdev σ)) st,
    devs ⊆ (initPartitions n drive devs st).1 ∧ ∀ d ∈ (initPartitions n drive devs st).1,
      d ∈ devs ∨ ∃ parent ∈ (initPartitions n drive devs st).1, ∃ ops p, Confined parent d ops p := by
  intro n
  induction n with
  | zero =>
    intro drive devs st
    exact ⟨List.Subset.refl _, fun d hd => .inl hd⟩
  | succ n ih =>
    intro drive devs st
    obtain ⟨new, hnew, hall⟩ := partScanDrive_spec drive devs st
    obtain ⟨hsub, hrest⟩ := ih (drive + 1) (partScanDrive drive devs st).1
      (partScanDrive drive devs st).2
    have hdevs : devs ⊆ (partScanDrive drive devs st).1 := by
      rw [hnew]
      exact List.subset_append_right _ _
    refine ⟨fun d hd => hsub (hdevs hd), fun d hd => ?_⟩
    rcases hrest d hd with hd | hd
    · rw [hnew] at hd
      rcases List.mem_append.mp hd with hd | hd
      · obtain ⟨parent, ops, k, e, hf, hops, h1, h2, rfl⟩ := hall d hd
        exact .inr ⟨parent, hsub (hdevs (List.mem_of_find?_eq_some hf)), ops, _,
          partDevice_confined hops h1 h2 k⟩
      · exact .inl hd
    · exact .inr hd

/-- A disk of 100 sectors, with one MBR partition of 60 sectors from 8 on. -/
def mbrSector : Bytes := fun a =>
  if a = 510 then 0x55 else if a = 511 then 0xaa else if a = 450 then 0x0c
  else if a = 454 then 8 else if a = 458 then 60 else 0

/-- Its driver: every sector reads the same. -/
def mbrOps : BlockOps Unit := ⟨fun _ _ _ st => ((0, mbrSector), st), none⟩

/-- The device. -/
def mbrDisk : Vdev Unit := ⟨"hd0", .block, some mbrOps, 512, 100, by norm_num, none⟩

/-- The device of its partition. -/
def mbrPart : Vdev Unit := partDevice 0 0 mbrOps ⟨0x0c, 8, 60, false, List.replicate 16 0⟩

theorem partitions_confined_mbr : (partScanDrive 0 [mbrDisk] ()).1 = [mbrPart, mbrDisk] ∧
    ∃ p, Confined mbrDisk mbrPart mbrOps p := by
  have hscan : (partScanDrive 0 [mbrDisk] ()).1 = [mbrPart] ++ [mbrDisk] := rfl
  obtain ⟨new, hnew, hall⟩ := partitions_confined 0 [mbrDisk] ()
  rw [hscan] at hnew
  have hmem : mbrPart ∈ new := by
    rw [← List.append_cancel_right hnew]
    exact List.mem_singleton_self _
  obtain ⟨parent, ops, p, hf, hc⟩ := hall _ hmem
  have hparent : mbrDisk = parent := Option.some.inj hf
  subst hparent
  have hops : mbrOps = ops := Option.some.inj hc.parentOps.1
  subst hops
  exact ⟨hscan, p, hc⟩

end Part

end Csos

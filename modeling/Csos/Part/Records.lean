import Csos.Part.Model
/-!
# Partitions — the records of a disk

On a disk that answers a read of one sector the same every time, a scan is a
function of the content. What it registers is a list of the records that it
comes to, in order: those that fit the disk, and of these the first that the
table has room for (`addAll_parts`). An MBR leads to its own records and, by the
extended ones, to the records of the EBRs that the walks go through. A walk that
comes back to an EBR registers its record once more.
-/

namespace Csos

namespace Part

variable {σ : Type} {ops : BlockOps σ} {disk : ℕ → Option Bytes} {st : σ} {mbr sec : Bytes}
  {n base ebr guard : ℕ} {l : List (ℕ × Bytes)} {pd : Disk}

/-- Reads of one sector always give the same: the content of the disk. -/
structure Steady (ops : BlockOps σ) (disk : ℕ → Option Bytes) : Prop where
  read : ∀ lba st, (readSector ops lba st).1 = disk lba

/-- The driver of a disk with a fixed content. -/
def diskOps (disk : ℕ → Option Bytes) : BlockOps Unit where
  readBlocks lba _ buf _ := ((if (disk lba).isSome then vfsOk else -1, (disk lba).getD buf), ())
  writeBlocks := none

theorem steady_diskOps (disk : ℕ → Option Bytes) : Steady (diskOps disk) disk where
  read lba _ := by
    obtain h | ⟨sec, h⟩ := Option.eq_none_or_eq_some (disk lba) <;> simp [readSector, diskOps, h]

/-- A read, as the pair that the scans take apart. -/
theorem Steady.read_eq (h : Steady ops disk) (lba : ℕ) (st : σ) :
    readSector ops lba st = (disk lba, (readSector ops lba st).2) := by
  rw [← h.read lba st]

/-! ## The table -/

/-- The range of an entry lies on a disk of `n` sectors, after its first. -/
def fits (n : ℕ) (e : Entry) : Bool := e.sectors ≠ 0 ∧ e.start ≠ 0 ∧ e.start + e.sectors ≤ n

theorem addEntry_eq {e : Entry} (h : e.start + e.sectors < 2 ^ 64) :
    addEntry pd e = if pd.parts.length < maxPerDrive ∧ fits pd.diskSectors e = true then
      { pd with parts := pd.parts ++ [e] } else pd := by
  unfold addEntry fits
  rw [Nat.mod_eq_of_lt h]
  by_cases hlen : maxPerDrive ≤ pd.parts.length
  · rw [if_pos hlen, if_neg fun hc => absurd hc.1 (not_lt.mpr hlen)]
  · rw [if_neg hlen]
    by_cases hr : e.sectors = 0 ∨ e.start = 0 ∨ pd.diskSectors < e.start + e.sectors
    · rw [if_pos hr, if_neg]
      simp only [decide_eq_true_eq]
      omega
    · rw [if_neg hr, if_pos]
      simp only [decide_eq_true_eq]
      omega

/-- A record: the sector and the slot of the table it stands in, whether that
is an EBR, and the partition it describes. -/
structure Record where
  sector : ℕ
  slot : ℕ
  logical : Bool
  entry : Entry

/-- Where a record is on the disk. -/
def Record.place (r : Record) : ℕ × ℕ := (r.sector, r.slot)

/-- The type in a slot of a table. -/
def slotType (sec : Bytes) (i : ℕ) : UInt8 := sec (mbrTable + i * mbrEntry + 4)

/-- The start in a slot of a table. -/
def slotLba (sec : Bytes) (i : ℕ) : ℕ := Bytes.load 4 sec (mbrTable + i * mbrEntry + 8)

/-- The length in a slot of a table. -/
def slotCount (sec : Bytes) (i : ℕ) : ℕ := Bytes.load 4 sec (mbrTable + i * mbrEntry + 12)

/-- The type of an extended partition. -/
def isExtended (type : UInt8) : Bool := type = 0x05 ∨ type = 0x0f

/-- The partition in a slot of a table whose addresses count from `base`. -/
def slotEntry (base : ℕ) (sec : Bytes) (i : ℕ) : Entry :=
  ⟨(slotType sec i).toNat, (base + slotLba sec i) % 2 ^ 64, slotCount sec i, false,
    List.replicate 16 0⟩

/-- The logical record of an EBR, if it is not empty. -/
def logicalRecord (p : ℕ × Bytes) : Option Record :=
  if slotType p.2 0 ≠ 0 ∧ slotCount p.2 0 ≠ 0 then some ⟨p.1, 0, true, slotEntry p.1 p.2 0⟩ else none

/-- The EBR that an EBR links to. -/
def ebrLink (base : ℕ) (sec : Bytes) : Option ℕ :=
  if isExtended (slotType sec 1) = false ∨ slotLba sec 1 = 0 then none
  else some ((base + slotLba sec 1) % 2 ^ 64)

/-- The EBRs that a walk from `ebr` goes through, `guard` of them at most. -/
def walk (disk : ℕ → Option Bytes) (base : ℕ) : ℕ → ℕ → List (ℕ × Bytes)
  | 0, _ => []
  | guard + 1, ebr =>
    match disk ebr with
    | none => []
    | some sec =>
      if hasBootSig sec = false then []
      else (ebr, sec) :: match ebrLink base sec with
        | none => []
        | some next => walk disk base guard next

/-- A slot of the MBR that leads to EBRs. -/
def leadsOn (mbr : Bytes) (i : ℕ) : Bool := isExtended (slotType mbr i) ∧ slotCount mbr i ≠ 0

/-- The record in a slot of the MBR, unless it is empty, extended or
protective. -/
def primaryRecord (mbr : Bytes) (i : ℕ) : Option Record :=
  if slotType mbr i = 0 ∨ slotCount mbr i = 0 ∨ slotType mbr i = 0xee ∨ isExtended (slotType mbr i) = true
    then none
  else some ⟨0, i, false, slotEntry 0 mbr i⟩

/-- The records of an MBR whose `i`-th slot leads to the EBRs `chains i`. -/
def tableRecords (mbr : Bytes) (chains : ℕ → List (ℕ × Bytes)) : List Record :=
  (List.range 4).flatMap fun i =>
    if leadsOn mbr i then (chains i).filterMap logicalRecord else (primaryRecord mbr i).toList

/-- The records that the scan of an MBR comes to. -/
def records (disk : ℕ → Option Bytes) (mbr : Bytes) : List Record :=
  tableRecords mbr fun i => walk disk (slotLba mbr i) extGuard (slotLba mbr i)

/-- The records that the scan of an MBR registers on a disk of `n` sectors. -/
def registered (disk : ℕ → Option Bytes) (mbr : Bytes) (n : ℕ) : List Record :=
  ((records disk mbr).filter fun r => fits n r.entry).take maxPerDrive

/-! ## The scans -/

end Part

end Csos

import Csos.Common.Bytes
/-!
# Partitions — the model

`part.c` over any block device driver. The driver is a parameter with a
state of its own: what it answers to a read need not be the same twice, so
that every content of the disk, read errors included, is covered. What the
code prints is left out.
-/

namespace Csos

namespace Part

/-- `PART_SEC_SIZE`. -/
abbrev secSize : ℕ := 512
/-- `PART_MAX_PER_DRIVE`. -/
abbrev maxPerDrive : ℕ := 16
/-- `PART_MAX_DRIVES`. -/
abbrev maxDrives : ℕ := 4
/-- `PART_EXT_GUARD`. -/
abbrev extGuard : ℕ := 64
/-- `PART_MBR_TABLE`. -/
abbrev mbrTable : ℕ := 446
/-- `PART_MBR_ENTRY`. -/
abbrev mbrEntry : ℕ := 16
/-- `PART_GPT_MAX_ENTRY_SIZE`. -/
abbrev gptMaxEntrySize : ℕ := 1024

/-- `VFS_OK`. -/
abbrev vfsOk : ℤ := 0
/-- `VFS_ERR_INVAL`. -/
abbrev vfsErrInval : ℤ := -3
/-- `VFS_ERR_EXIST`. -/
abbrev vfsErrExist : ℤ := -6
/-- `VFS_ERR_NOTSUP`. -/
abbrev vfsErrNotsup : ℤ := -11

/-! ## Block devices -/

/-- `vdev_block_ops_t` on a driver with the state `σ`: from the block, the
count and the buffer a result and, for a read, what is in the buffer
afterwards. `write_blocks` may be NULL. -/
structure BlockOps (σ : Type) where
  readBlocks : ℕ → ℕ → Bytes → σ → (ℤ × Bytes) × σ
  writeBlocks : Option (ℕ → ℕ → Bytes → σ → ℤ × σ)

/-- `part_priv_t`; of the parent only its operations are used. -/
structure PartPriv (σ : Type) where
  parent : BlockOps σ
  start : ℕ

/-- `vdev_type_t`. -/
inductive VdevType
  | char
  | block
  deriving DecidableEq

/-- `vdev_t`, with the fields the partition code uses. `nblocks` is 64 bits
wide. -/
structure Vdev (σ : Type) where
  name : String
  type : VdevType
  bops : Option (BlockOps σ)
  blockSize : ℕ
  nblocks : ℕ
  nblocks_lt : nblocks < 2 ^ 64
  priv : Option (PartPriv σ)

variable {σ : Type}

/-- `vdev_find`. -/
def vdevFind (devs : List (Vdev σ)) (name : String) : Option (Vdev σ) :=
  devs.find? fun d => d.name = name

/-- `vdev_register` of a block device. -/
def vdevRegister (devs : List (Vdev σ)) (d : Vdev σ) : ℤ × List (Vdev σ) :=
  if d.name = "" then (vfsErrInval, devs)
  else if d.bops.isNone ∨ d.blockSize = 0 ∨ d.nblocks = 0 then (vfsErrInval, devs)
  else if devs.any fun e => e.name = d.name then (vfsErrExist, devs)
  else (vfsOk, d :: devs)

/-- `part_read_blocks`; `buf` may be NULL. -/
def partReadBlocks (p : PartPriv σ) (nblocks lba count : ℕ) (buf : Option Bytes) (st : σ) :
    (ℤ × Option Bytes) × σ :=
  match buf with
  | none => ((vfsErrInval, buf), st)
  | some data =>
    if count = 0 then ((vfsErrInval, buf), st)
    else if nblocks ≤ lba ∨ nblocks - lba < count then ((vfsErrInval, buf), st)
    else
      let r := p.parent.readBlocks ((p.start + lba) % 2 ^ 64) count data st
      ((r.1.1, some r.1.2), r.2)

/-- `part_write_blocks`; `buf` may be NULL. -/
def partWriteBlocks (p : PartPriv σ) (nblocks lba count : ℕ) (buf : Option Bytes) (st : σ) :
    ℤ × σ :=
  match buf with
  | none => (vfsErrInval, st)
  | some data =>
    if count = 0 then (vfsErrInval, st)
    else match p.parent.writeBlocks with
      | none => (vfsErrNotsup, st)
      | some write =>
        if nblocks ≤ lba ∨ nblocks - lba < count then (vfsErrInval, st)
        else write ((p.start + lba) % 2 ^ 64) count data st

/-- `g_part_ops`, on a device with this `priv` and `nblocks`. -/
def partOps (p : PartPriv σ) (nblocks : ℕ) : BlockOps σ where
  readBlocks lba count data st :=
    let r := partReadBlocks p nblocks lba count (some data) st
    ((r.1.1, r.1.2.getD data), r.2)
  writeBlocks := some fun lba count data => partWriteBlocks p nblocks lba count (some data)

/-! ## Tables -/

/-- `part_entry_t`. -/
structure Entry where
  type : ℕ
  start : ℕ
  sectors : ℕ
  isGpt : Bool
  typeGuid : List UInt8

/-- `part_disk_t`; `count` is the length of `parts`. -/
structure Disk where
  diskSectors : ℕ
  parts : List Entry

/-- The body that `part_add` and `part_add_gpt` share: the entry is added
unless the table is full or its range is bad. -/
def addEntry (pd : Disk) (e : Entry) : Disk :=
  if maxPerDrive ≤ pd.parts.length then pd
  else if e.sectors = 0 ∨ e.start = 0 ∨ pd.diskSectors < (e.start + e.sectors) % 2 ^ 64 then pd
  else { pd with parts := pd.parts ++ [e] }

/-- `part_add`. -/
def partAdd (pd : Disk) (type start sectors : ℕ) : Disk :=
  addEntry pd ⟨type, start, sectors, false, List.replicate 16 0⟩

/-- `part_add_gpt`. -/
def partAddGpt (pd : Disk) (typeGuid : List UInt8) (start sectors : ℕ) : Disk :=
  addEntry pd ⟨0xee, start, sectors, true, typeGuid⟩

/-- `parent->bops->read_blocks(parent, lba, 1, sec)`; `none` if it fails. -/
def readSector (ops : BlockOps σ) (lba : ℕ) (st : σ) : Option Bytes × σ :=
  let r := ops.readBlocks lba 1 (Bytes.const 0) st
  (if r.1.1 = vfsOk then some r.1.2 else none, r.2)

/-- `part_rd16(sec + 510) == PART_BOOT_SIG`. -/
def hasBootSig (sec : Bytes) : Bool := Bytes.load 2 sec 510 = 0xaa55

/-- The loop of `part_scan_ext`, from the record `ebr` on. -/
def partScanExt (ops : BlockOps σ) (extBase : ℕ) : ℕ → ℕ → Disk → σ → Disk × σ
  | 0, _, pd, st => (pd, st)
  | guard + 1, ebr, pd, st =>
    match readSector ops ebr st with
    | (none, st) => (pd, st)
    | (some sec, st) =>
      if hasBootSig sec = false then (pd, st)
      else
        let e0 := mbrTable
        let e1 := mbrTable + mbrEntry
        let pd := if sec (e0 + 4) ≠ 0 ∧ Bytes.load 4 sec (e0 + 12) ≠ 0 then
            partAdd pd (sec (e0 + 4)).toNat ((ebr + Bytes.load 4 sec (e0 + 8)) % 2 ^ 64)
              (Bytes.load 4 sec (e0 + 12))
          else pd
        if (sec (e1 + 4) ≠ 0x05 ∧ sec (e1 + 4) ≠ 0x0f) ∨ Bytes.load 4 sec (e1 + 8) = 0 then (pd, st)
        else partScanExt ops extBase guard ((extBase + Bytes.load 4 sec (e1 + 8)) % 2 ^ 64) pd st

/-- One entry of the loop of `part_scan_mbr`. -/
def scanMbrEntry (ops : BlockOps σ) (mbr : Bytes) (i : ℕ) (pd : Disk) (st : σ) : Disk × σ :=
  let pe := mbrTable + i * mbrEntry
  let type := mbr (pe + 4)
  let lba := Bytes.load 4 mbr (pe + 8)
  let cnt := Bytes.load 4 mbr (pe + 12)
  if type = 0 ∨ cnt = 0 then (pd, st)
  else if type = 0xee then (pd, st)
  else if type = 0x05 ∨ type = 0x0f then partScanExt ops lba extGuard lba pd st
  else (partAdd pd type.toNat lba cnt, st)

/-- `part_scan_mbr`: `n` entries from the `i`-th on. -/
def partScanMbr (ops : BlockOps σ) (mbr : Bytes) : ℕ → ℕ → Disk → σ → Disk × σ
  | 0, _, pd, st => (pd, st)
  | n + 1, i, pd, st =>
    let r := scanMbrEntry ops mbr i pd st
    partScanMbr ops mbr n (i + 1) r.1 r.2

/-! ## GPT -/

/-- The inner loop of `part_crc32_update`. -/
def crcBits : ℕ → UInt32 → UInt32
  | 0, crc => crc
  | k + 1, crc => crcBits k ((crc >>> 1) ^^^ (0xedb88320 &&& (0 - (crc &&& 1))))

/-- `part_crc32_update` over the `n` bytes at `p`. -/
def crc32Update (crc : UInt32) (m : Bytes) : ℕ → ℕ → UInt32
  | 0, _ => crc
  | n + 1, p => crc32Update (crcBits 8 (crc ^^^ (m p).toUInt32)) m n (p + 1)

/-- `part_mbr_has_protective`. -/
def mbrHasProtective (mbr : Bytes) : Bool :=
  (List.range 4).any fun i => mbr (mbrTable + i * mbrEntry + 4) = 0xee

/-- `part_guid_is_zero`. -/
def guidIsZero (g : Bytes) : Bool := (List.range 16).all fun i => g i = 0

/-- The loop of `part_read_range`; every turn copies at least one byte, so
that `fuel` may be `len`. -/
def readRangeLoop (ops : BlockOps σ) (byteOff len : ℕ) :
    ℕ → ℕ → Bytes → σ → Option Bytes × σ
  | 0, _, out, st => (some out, st)
  | fuel + 1, done, out, st =>
    if done < len then
      let cur := (byteOff + done) % 2 ^ 64
      let secoff := cur % secSize
      let chunk := min (secSize - secoff) (len - done)
      match readSector ops (cur / secSize) st with
      | (none, st) => (none, st)
      | (some sec, st) =>
        readRangeLoop ops byteOff len fuel (done + chunk) (out.blit done chunk (sec.shift secoff)) st
    else (some out, st)

/-- `part_read_range`. -/
def partReadRange (ops : BlockOps σ) (byteOff len : ℕ) (st : σ) : Option Bytes × σ :=
  if len = 0 ∨ gptMaxEntrySize < len then (none, st)
  else readRangeLoop ops byteOff len len 0 (Bytes.const 0) st

/-- The header of a GPT, as `part_scan_gpt` reads it. -/
structure GptHeader where
  rev : ℕ
  hdrSize : ℕ
  hdrCrc : ℕ
  myLba : ℕ
  entriesLba : ℕ
  num : ℕ
  esize : ℕ
  entriesCrc : ℕ

/-- The fields of the header sector. -/
def readHeader (hdr : Bytes) : GptHeader where
  rev := Bytes.load 4 hdr 8
  hdrSize := Bytes.load 4 hdr 12
  hdrCrc := Bytes.load 4 hdr 16
  myLba := Bytes.load 8 hdr 24
  entriesLba := Bytes.load 8 hdr 72
  num := Bytes.load 4 hdr 80
  esize := Bytes.load 4 hdr 84
  entriesCrc := Bytes.load 4 hdr 88

/-- `PART_GPT_MAGIC`, "EFI PART". -/
def gptMagic : List UInt8 := [0x45, 0x46, 0x49, 0x20, 0x50, 0x41, 0x52, 0x54]

/-- The header is one the scan goes on with. -/
def headerValid (h : GptHeader) (diskSectors : ℕ) : Bool :=
  ¬ (h.rev ≠ 0x00010000 ∨ h.hdrSize < 92 ∨ secSize < h.hdrSize ∨ h.myLba ≠ 1 ∨
    h.num = 0 ∨ 1024 < h.num ∨ h.esize < 128 ∨ gptMaxEntrySize < h.esize ∨
    h.esize % 8 ≠ 0 ∨ h.entriesLba = 0 ∨ diskSectors ≤ h.entriesLba)

/-- The number of sectors of the table. -/
def entriesSecs (h : GptHeader) : ℕ := (h.num * h.esize + secSize - 1) / secSize

/-- The checksum of the table: `n` sectors from the `s`-th on. -/
def entriesCrcLoop (ops : BlockOps σ) (h : GptHeader) : ℕ → ℕ → UInt32 → σ → Option UInt32 × σ
  | 0, _, crc, st => (some crc, st)
  | n + 1, s, crc, st =>
    match readSector ops ((h.entriesLba + s) % 2 ^ 64) st with
    | (none, st) => (none, st)
    | (some sec, st) =>
      entriesCrcLoop ops h n (s + 1)
        (crc32Update crc sec (min (h.num * h.esize - s * secSize) secSize) 0) st

/-- The loop over the entries: `n` of them from the `i`-th on. -/
def gptLoop (ops : BlockOps σ) (h : GptHeader) : ℕ → ℕ → Disk → σ → Disk × σ
  | 0, _, pd, st => (pd, st)
  | n + 1, i, pd, st =>
    if maxPerDrive ≤ pd.parts.length then (pd, st)
    else match partReadRange ops ((h.entriesLba * secSize + i * h.esize) % 2 ^ 64) h.esize st with
      | (none, st) => (pd, st)
      | (some e, st) =>
        let first := Bytes.load 8 e 32
        let last := Bytes.load 8 e 40
        if guidIsZero e then gptLoop ops h n (i + 1) pd st
        else if first = 0 ∨ last < first ∨ pd.diskSectors ≤ last then gptLoop ops h n (i + 1) pd st
        else gptLoop ops h n (i + 1)
          (partAddGpt pd ((List.range 16).map e) first ((last - first + 1) % 2 ^ 64)) st

/-- `part_scan_gpt`; false if the disk is to be scanned for an MBR. -/
def partScanGpt (ops : BlockOps σ) (mbr : Bytes) (pd : Disk) (st : σ) : Bool × Disk × σ :=
  match readSector ops 1 st with
  | (none, st) => (false, pd, st)
  | (some hdr, st) =>
    if (List.range 8).map hdr ≠ gptMagic then (false, pd, st)
    else
      let h := readHeader hdr
      if headerValid h pd.diskSectors = false then (mbrHasProtective mbr, pd, st)
      else if pd.diskSectors < (h.entriesLba + entriesSecs h) % 2 ^ 64 then
        (mbrHasProtective mbr, pd, st)
      else if (crc32Update 0xffffffff (hdr.store 4 16 0) h.hdrSize 0 ^^^ 0xffffffff).toNat ≠ h.hdrCrc then
        (mbrHasProtective mbr, pd, st)
      else match entriesCrcLoop ops h (entriesSecs h) 0 0xffffffff st with
        | (none, st) => (true, pd, st)
        | (some crc, st) =>
          if (crc ^^^ 0xffffffff).toNat ≠ h.entriesCrc then (true, pd, st)
          else
            let r := gptLoop ops h h.num 0 pd st
            (true, r.1, r.2)

/-! ## A drive -/

/-- `part_disk_name`. -/
def partDiskName (drive : ℕ) : String := "hd" ++ toString drive

/-- `part_part_name`. -/
def partPartName (drive index : ℕ) : String := "hd" ++ toString drive ++ "p" ++ toString index

/-- The device for the `i`-th partition; `sectors` is 64 bits wide. -/
def partDevice (drive i : ℕ) (ops : BlockOps σ) (e : Entry) : Vdev σ where
  name := partPartName drive i
  type := .block
  bops := some (partOps ⟨ops, e.start⟩ (e.sectors % 2 ^ 64))
  blockSize := secSize
  nblocks := e.sectors % 2 ^ 64
  nblocks_lt := Nat.mod_lt _ (by norm_num)
  priv := some ⟨ops, e.start⟩

/-- The loop that registers the partitions, from the `i`-th on. -/
def registerParts (drive : ℕ) (ops : BlockOps σ) : ℕ → List Entry → List (Vdev σ) → List (Vdev σ)
  | _, [], devs => devs
  | i, e :: l, devs =>
    registerParts drive ops (i + 1) l (vdevRegister devs (partDevice drive i ops e)).2

/-- The table of a disk: GPT, or else MBR. -/
def scanTable (ops : BlockOps σ) (diskSectors : ℕ) (st : σ) : Disk × σ :=
  match readSector ops 0 st with
  | (none, st) => (⟨diskSectors, []⟩, st)
  | (some sec, st) =>
    if hasBootSig sec = false then (⟨diskSectors, []⟩, st)
    else match partScanGpt ops sec ⟨diskSectors, []⟩ st with
      | (true, pd, st) => (pd, st)
      | (false, pd, st) => partScanMbr ops sec 4 0 pd st

/-- `part_scan_drive`: what becomes of the registered devices, and of the
driver. -/
def partScanDrive (drive : ℕ) (devs : List (Vdev σ)) (st : σ) : List (Vdev σ) × σ :=
  match vdevFind devs (partDiskName drive) with
  | none => (devs, st)
  | some parent =>
    match parent.type, parent.bops with
    | .block, some ops =>
      if parent.blockSize ≠ secSize ∨ parent.nblocks = 0 then (devs, st)
      else
        let r := scanTable ops parent.nblocks st
        (registerParts drive ops 0 r.1.parts devs, r.2)
    | _, _ => (devs, st)

/-- The loop of `init_partitions`: `n` drives from `drive` on. -/
def initPartitions : ℕ → ℕ → List (Vdev σ) → σ → List (Vdev σ) × σ
  | 0, _, devs, st => (devs, st)
  | n + 1, drive, devs, st =>
    let r := partScanDrive drive devs st
    initPartitions n (drive + 1) r.1 r.2

end Part

end Csos

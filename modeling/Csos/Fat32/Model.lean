import Csos.Common.Bytes
/-!
# FAT32 — sectors, the FAT and cluster chains

The lower half of `fat32.c`, up to the directory entries. A sector is a
`Bytes` of which the first 512 are on the disk. What `fat32_mount` reads
once is the `Geo`; what changes is the `Vol`. A transfer fails as the list
`faults` says, and never once that is empty. `uint32_t` values are numbers,
reduced where the code can overflow them; positions in a file are 64 bits
wide and stay below `2 ^ 64`.
-/

namespace Csos

namespace Fat32

/-- `FAT32_EOC`. -/
abbrev eoc : ℕ := 0x0ffffff8

/-- `FAT32_OK`. -/
abbrev fatOk : ℤ := 0
/-- `FAT32_ERR_IO`. -/
abbrev errIo : ℤ := -100
/-- `FAT32_ERR_EOF`. -/
abbrev errEof : ℤ := -101
/-- `VFS_ERR_NOSPC`. -/
abbrev errNospc : ℤ := -10

/-- The part of `fat32_sb_t` that `fat32_mount` sets and nothing changes.
`writable`: the device has a `write_blocks`. -/
structure Geo where
  baseLba : ℕ
  secPerClus : ℕ
  reservedSecs : ℕ
  numFats : ℕ
  totalSecs : ℕ
  fatSecs : ℕ
  rootClus : ℕ
  fsInfoSec : ℕ
  activeFat : ℕ
  mirror : Bool
  fatStartLba : ℕ
  dataStartLba : ℕ
  clusterCount : ℕ
  clusBytes : ℕ
  writable : Bool

/-- The rest of `fat32_sb_t` and the device. `faults` says which of the next
transfers fail; `hang` is set by a loop that has not ended after `2 ^ 32`
rounds; `junk` is what an uninitialised `lfn` buffer holds. -/
structure Vol where
  nextFree : ℕ
  freeCount : ℕ
  freeKnown : Bool
  disk : ℕ → Bytes
  faults : List Bool
  hang : Bool
  junk : ℕ → ℕ

/-- `fat32_chain_t`. -/
structure Chain where
  start : ℕ
  cacheClus : ℕ
  cacheIndex : ℕ
  cacheOk : Bool
  deriving DecidableEq

variable (g : Geo)

/-! ## The device -/

namespace Vol

variable (v : Vol)

/-- The next transfer: whether it succeeds. -/
def transfer : Bool × Vol :=
  match v.faults with
  | [] => (true, v)
  | f :: fs => (!f, { v with faults := fs })

/-- The sector at an LBA of the volume. -/
def sec (lba : ℕ) : Bytes := v.disk (g.baseLba + lba)

/-- The volume with another sector there. -/
def setSec (lba : ℕ) (s : Bytes) : Vol :=
  { v with disk := Function.update v.disk (g.baseLba + lba) s }

end Vol

/-- `fat32_read_sec`. -/
def readSec (lba : ℕ) (v : Vol) : Option Bytes × Vol :=
  match v.transfer with
  | (true, v) => (some (v.sec g lba), v)
  | (false, v) => (none, v)

/-- `fat32_write_sec`; whether it succeeded. -/
def writeSec (lba : ℕ) (s : Bytes) (v : Vol) : Bool × Vol :=
  if g.writable = false then (false, v)
  else
    match v.transfer with
    | (true, v) => (true, v.setSec g lba s)
    | (false, v) => (false, v)

/-- `fat32_clus_lba`. -/
def clusLba (clus : ℕ) : ℕ := (g.dataStartLba + (clus + (2 ^ 32 - 2)) * g.secPerClus) % 2 ^ 32

/-- `fat32_clus_valid`. -/
def clusValid (c : ℕ) : Bool := 2 ≤ c ∧ c ≤ (g.clusterCount + 1) % 2 ^ 32

/-! ## The FAT -/

/-- The sector of an entry, in copy `fatno` of the FAT. -/
def fatLba (fatno clus : ℕ) : ℕ :=
  (g.fatStartLba + fatno * g.fatSecs + clus * 4 % 2 ^ 32 / 512) % 2 ^ 32

/-- The offset of an entry in its sector. -/
def fatOff (clus : ℕ) : ℕ := clus * 4 % 2 ^ 32 % 512

/-- The copy that is read. -/
def fatCopy : ℕ := if g.mirror then 0 else g.activeFat

/-- `fat32_fat_get`. -/
def fatGet (clus : ℕ) (v : Vol) : ℕ × Vol :=
  match readSec g (fatLba g (fatCopy g) clus) v with
  | (none, v) => (eoc, v)
  | (some s, v) => (Bytes.load 4 s (fatOff clus) % 2 ^ 28, v)

/-- The loop of `fat32_fat_set`: `n` copies from `f` on. -/
def fatSetLoop (clus val : ℕ) : ℕ → ℕ → Vol → ℤ × Vol
  | 0, _, v => (fatOk, v)
  | n + 1, f, v =>
    let lba := fatLba g (if g.mirror then f else g.activeFat) clus
    match readSec g lba v with
    | (none, v) => (errIo, v)
    | (some s, v) =>
      let old := Bytes.load 4 s (fatOff clus)
      match writeSec g lba (Bytes.store 4 s (fatOff clus) (old / 2 ^ 28 * 2 ^ 28 + val % 2 ^ 28)) v with
      | (false, v) => (errIo, v)
      | (true, v) => fatSetLoop clus val n (f + 1) v

/-- `fat32_fat_set`. -/
def fatSet (clus val : ℕ) (v : Vol) : ℤ × Vol :=
  fatSetLoop g clus val (if g.mirror then g.numFats else 1) 0 v

/-! ## Allocation -/

/-- What `fat32_fs_info_write` stores into the sector. -/
def fsInfoFill (v : Vol) (s : Bytes) : Bytes :=
  Bytes.store 4 (if v.freeKnown then Bytes.store 4 s 488 v.freeCount else s) 492 v.nextFree

/-- `fat32_fs_info_write`. -/
def fsInfoWrite (v : Vol) : ℤ × Vol :=
  if g.fsInfoSec = 0 then (fatOk, v)
  else
    match readSec g g.fsInfoSec v with
    | (none, v) => (errIo, v)
    | (some s, v) =>
      if Bytes.load 4 s 0 ≠ 0x41615252 ∨ Bytes.load 4 s 484 ≠ 0x61417272 then (fatOk, v)
      else
        match writeSec g g.fsInfoSec (fsInfoFill v s) v with
        | (false, v) => (errIo, v)
        | (true, v) =>
          -- the backup is at sector 7; whether that write succeeds is not asked
          if g.fsInfoSec = 1 then (fatOk, (writeSec g 7 (fsInfoFill v s) v).2) else (fatOk, v)

/-- The loop of `fat32_zero_cluster`: `n` sectors from `lba` on. -/
def zeroLoop : ℕ → ℕ → Vol → ℤ × Vol
  | 0, _, v => (fatOk, v)
  | n + 1, lba, v =>
    match writeSec g (lba % 2 ^ 32) (Bytes.const 0) v with
    | (false, v) => (errIo, v)
    | (true, v) => zeroLoop n (lba + 1) v

/-- `fat32_zero_cluster`. -/
def zeroCluster (clus : ℕ) (v : Vol) : ℤ × Vol := zeroLoop g g.secPerClus (clusLba g clus) v

/-- The hint and the count after cluster `c` has been taken. -/
def noteTaken (c : ℕ) (v : Vol) : Vol :=
  { v with
    nextFree := (c + 1) % 2 ^ 32
    freeCount := if v.freeKnown ∧ 0 < v.freeCount then v.freeCount - 1 else v.freeCount }

/-- The count after a cluster has been freed. -/
def noteFreed (v : Vol) : Vol :=
  if v.freeKnown then { v with freeCount := (v.freeCount + 1) % 2 ^ 32 } else v

/-- What `fat32_alloc_cluster` does with the free cluster it has found; 0 if
that fails. -/
def takeCluster (c : ℕ) (v : Vol) : ℕ × Vol :=
  match fatSet g c eoc v with
  | (rc, v) =>
    if rc ≠ fatOk then (0, v)
    else
      match zeroCluster g c v with
      | (rc, v) =>
        if rc ≠ fatOk then (0, v) else (c, (fsInfoWrite g (noteTaken c v)).2)

/-- One pass of `fat32_alloc_cluster`: `n` clusters from `c` on. -/
def allocPass : ℕ → ℕ → Vol → Option ℕ × Vol
  | 0, _, v => (none, v)
  | n + 1, c, v =>
    match fatGet g c v with
    | (x, v) =>
      if x = 0 then
        match takeCluster g c v with
        | (r, v) => (some r, v)
      else allocPass n (c + 1) v

/-- `fat32_alloc_cluster`; 0 if there is none. -/
def allocCluster (v : Vol) : ℕ × Vol :=
  let start := if clusValid g v.nextFree then v.nextFree else 2
  let limit := (g.clusterCount + 2) % 2 ^ 32
  match allocPass g (limit - start) start v with
  | (some c, v) => (c, v)
  | (none, v) =>
    match allocPass g (limit - 2) 2 v with
    | (some c, v) => (c, v)
    | (none, v) => (0, v)

/-- The loop of `fat32_free_chain`, with the rounds that `guard` leaves; it
ends without the last write if an entry cannot be set. -/
def freeLoop : ℕ → ℕ → Vol → Bool × Vol
  | 0, _, v => (true, v)
  | n + 1, c, v =>
    if ¬ clusValid g c then (true, v)
    else
      match fatGet g c v with
      | (next, v) =>
        match fatSet g c 0 v with
        | (rc, v) =>
          if rc ≠ fatOk then (false, v)
          else if ¬ clusValid g next then (true, noteFreed v)
          else freeLoop n next (noteFreed v)

/-- `fat32_free_chain`. -/
def freeChain (first : ℕ) (v : Vol) : Vol :=
  match freeLoop g (g.clusterCount + 1) first v with
  | (true, v) => (fsInfoWrite g v).2
  | (false, v) => v

/-! ## Cluster chains -/

/-- `fat32_chain_init`. -/
def chainInit (start : ℕ) : Chain := ⟨start, 0, 0, false⟩

/-- The loop of `fat32_chain_at2`: `n` links from `c`. -/
def walk : ℕ → ℕ → Vol → Option ℕ × Vol
  | 0, c, v => (some c, v)
  | n + 1, c, v =>
    match fatGet g c v with
    | (x, v) => if ¬ clusValid g x then (none, v) else walk n x v

/-- `fat32_chain_at2`; `none` is `FAT32_ERR_IO`. -/
def chainAt2 (ch : Chain) (index : ℕ) (v : Vol) : Option ℕ × Chain × Vol :=
  if ¬ clusValid g ch.start then (none, ch, v)
  else
    let (c, i) := if ch.cacheOk ∧ ch.cacheIndex ≤ index then (ch.cacheClus, ch.cacheIndex)
      else (ch.start, 0)
    match walk g (index - i) c v with
    | (none, v) => (none, ch, v)
    | (some c, v) => (some c, ⟨ch.start, c, index, true⟩, v)

/-- `fat32_chain_at`; 0 if there is no such cluster. -/
def chainAt (ch : Chain) (index : ℕ) (v : Vol) : ℕ × Chain × Vol :=
  match chainAt2 g ch index v with
  | (c, ch, v) => (c.getD 0, ch, v)

/-- The loop of `fat32_chain_count`, with the rounds that are left. -/
def countLoop : ℕ → ℕ → ℕ → Vol → ℕ × Vol
  | 0, _, n, v => (n, v)
  | k + 1, c, n, v =>
    if ¬ clusValid g c then (n, v)
    else
      match fatGet g c v with
      | (x, v) => if ¬ clusValid g x then (n + 1, v) else countLoop k x (n + 1) v

/-- `fat32_chain_count`. -/
def chainCount (ch : Chain) (v : Vol) : ℕ × Vol := countLoop g (g.clusterCount + 1) ch.start 0 v

/-- What a transfer along a chain leaves; `touched` are the data sectors it
went to. -/
structure Xfer where
  rc : ℤ
  bytes : List UInt8
  chain : Chain
  vol : Vol
  touched : List ℕ

/-- The loop of `fat32_chain_read`; every round takes at least a byte off
`len`. -/
def readLoop : ℕ → Chain → ℕ → ℕ → Vol → Xfer
  | 0, ch, _, _, v => ⟨fatOk, [], ch, v, []⟩
  | fuel + 1, ch, off, len, v =>
    if len = 0 then ⟨fatOk, [], ch, v, []⟩
    else
      match chainAt g ch (off / g.clusBytes % 2 ^ 32) v with
      | (clus, ch, v) =>
        if ¬ clusValid g clus then ⟨errIo, [], ch, v, []⟩
        else
          let within := off % g.clusBytes
          let so := within % 512
          let lba := (clusLba g clus + within / 512) % 2 ^ 32
          let n := min (512 - so) len
          match readSec g lba v with
          | (none, v) => ⟨errIo, [], ch, v, [lba]⟩
          | (some s, v) =>
            let r := readLoop fuel ch (off + n) (len - n) v
            { r with bytes := (List.range n).map (fun i => s (so + i)) ++ r.bytes
                     touched := lba :: r.touched }

/-- `fat32_chain_read`. -/
def chainRead (ch : Chain) (off len : ℕ) (v : Vol) : Xfer := readLoop g len ch off len v

/-- The new cluster that `fat32_chain_write` appends at index `ci`: 0 if
that fails, with the result. -/
def appendCluster (ch : Chain) (ci : ℕ) (v : Vol) : ℤ × ℕ × Chain × Vol :=
  match allocCluster g v with
  | (nc, v) =>
    if ¬ clusValid g nc then (errNospc, 0, ch, v)
    else if ¬ clusValid g ch.start then
      if ci ≠ 0 then (errIo, 0, ch, v) else (fatOk, nc, ⟨nc, nc, ci, true⟩, v)
    else
      match chainAt g ch ((ci + (2 ^ 32 - 1)) % 2 ^ 32) v with
      | (last, ch, v) =>
        if ¬ clusValid g last then (errIo, 0, ch, v)
        else
          match fatSet g last nc v with
          | (rc, v) =>
            if rc ≠ fatOk then (errIo, 0, ch, v) else (fatOk, nc, ⟨ch.start, nc, ci, true⟩, v)

/-- The cluster that a round of `fat32_chain_write` writes to. -/
def writeTarget (ch : Chain) (ci : ℕ) (v : Vol) : ℤ × ℕ × Chain × Vol :=
  match chainAt g ch ci v with
  | (clus, ch, v) => if clusValid g clus then (fatOk, clus, ch, v) else appendCluster g ch ci v

/-- The write of one round: `n` bytes of `p` at offset `so` of the sector. -/
def writePart (lba so n : ℕ) (p : List UInt8) (v : Vol) : Bool × Vol :=
  if so = 0 ∧ n = 512 then writeSec g lba (fun i => p.getD i 0) v
  else
    match readSec g lba v with
    | (none, v) => (false, v)
    | (some s, v) => writeSec g lba (Bytes.blit s so n fun i => p.getD i 0) v

/-- The loop of `fat32_chain_write` over what is left of the buffer. -/
def writeLoop : ℕ → Chain → ℕ → List UInt8 → Vol → Xfer
  | 0, ch, _, _, v => ⟨fatOk, [], ch, v, []⟩
  | fuel + 1, ch, off, p, v =>
    if p = [] then ⟨fatOk, [], ch, v, []⟩
    else
      match writeTarget g ch (off / g.clusBytes % 2 ^ 32) v with
      | (rc, clus, ch, v) =>
        if rc ≠ fatOk then ⟨rc, [], ch, v, []⟩
        else
          let within := off % g.clusBytes
          let so := within % 512
          let lba := (clusLba g clus + within / 512) % 2 ^ 32
          let n := min (512 - so) p.length
          match writePart g lba so n p v with
          | (false, v) => ⟨errIo, [], ch, v, [lba]⟩
          | (true, v) =>
            let r := writeLoop fuel ch (off + n) (p.drop n) v
            { r with touched := lba :: r.touched }

/-- `fat32_chain_write`. -/
def chainWrite (ch : Chain) (off : ℕ) (p : List UInt8) (v : Vol) : Xfer :=
  writeLoop g p.length ch off p v

/-! ## Directory entries -/

/-- The sector and the offset of entry `index` within its cluster `clus`. -/
def entPlace (clus index : ℕ) : ℕ × ℕ :=
  let within := index * 32 % 2 ^ 32 % g.clusBytes
  ((clusLba g clus + within / 512) % 2 ^ 32, within % 512)

/-- `fat32_ent_read`: the result and the 32 bytes. -/
def entRead (ch : Chain) (index : ℕ) (v : Vol) : ℤ × Bytes × Chain × Vol :=
  match chainAt g ch (index * 32 % 2 ^ 32 / g.clusBytes) v with
  | (clus, ch, v) =>
    if ¬ clusValid g clus then (errEof, Bytes.const 0, ch, v)
    else
      match readSec g (entPlace g clus index).1 v with
      | (none, v) => (errIo, Bytes.const 0, ch, v)
      | (some s, v) =>
        (fatOk, Bytes.blit (Bytes.const 0) 0 32 (s.shift (entPlace g clus index).2), ch, v)

/-- `fat32_ent_write`. -/
def entWrite (ch : Chain) (index : ℕ) (e : Bytes) (v : Vol) : ℤ × Chain × Vol :=
  match chainAt g ch (index * 32 % 2 ^ 32 / g.clusBytes) v with
  | (clus, ch, v) =>
    if ¬ clusValid g clus then (errIo, ch, v)
    else
      match readSec g (entPlace g clus index).1 v with
      | (none, v) => (errIo, ch, v)
      | (some s, v) =>
        match writeSec g (entPlace g clus index).1 (Bytes.blit s (entPlace g clus index).2 32 e) v with
        | (false, v) => (errIo, ch, v)
        | (true, v) => (fatOk, ch, v)

end Fat32

end Csos

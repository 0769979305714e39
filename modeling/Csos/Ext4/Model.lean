import Csos.Common.Checked
import Csos.Vfs.Model
/-!
# ext4 — the model

`ext4.c`, which only reads. Every access to a buffer is checked, and so is
every division; a buffer that `kmalloc` gives has the size that was asked and
any contents. The world answers `kmalloc` and keeps the requests that the
device has seen. The device may fail at any request. What is printed is left
out.
-/

namespace Csos

namespace Ext4

open Vfs Checked

/-- `EXT4_MAGIC`. -/
abbrev ext4Magic : ℕ := 0xef53
/-- `EXT4_EH_MAGIC`. -/
abbrev ehMagic : ℕ := 0xf30a
/-- `EXT4_ROOT_INO`. -/
abbrev rootIno : ℕ := 2
/-- `EXT4_FT_EXTENTS`. -/
abbrev ftExtents : ℕ := 0x0040
/-- `EXT4_FT_64BIT`. -/
abbrev ft64bit : ℕ := 0x0080
/-- `EXT4_INCOMPAT_SUPP`. -/
abbrev incompatSupp : ℕ := 0x00c2
/-- `EXT4_EXTENTS_FL`. -/
abbrev extentsFl : ℕ := 0x00080000
/-- `EXT4_S_IFMT`. -/
abbrev sIfmt : ℕ := 0xf000
/-- `EXT4_S_IFDIR`. -/
abbrev sIfdir : ℕ := 0x4000
/-- `EXT4_S_IFREG`. -/
abbrev sIfreg : ℕ := 0x8000
/-- `EXT4_DEV_BLK`. -/
abbrev devBlk : ℕ := 512
/-- `EXT4_EE_UNINIT`. -/
abbrev eeUninit : ℕ := 0x8000
/-- `EXT4_EE_LEN_MASK`. -/
abbrev eeLenMask : ℕ := 0x7fff
/-- `EXT4_MAX_DEPTH`. -/
abbrev maxDepth : ℕ := 5
/-- `VFS_NAME_MAX`. -/
abbrev nameMax : ℕ := 64

/-! ## The world -/

/-- What `kmalloc` answers to each call, how many there have been, and the
requests the device has seen: first block and count. -/
structure World where
  alloc : ℕ → Option Bytes
  used : ℕ
  reads : List (ℕ × ℕ)

/-- A computation of the driver. -/
abbrev M := Checked World

/-- The device: its contents and what it returns for a request. -/
structure Disk where
  bytes : Bytes
  rc : ℕ → ℕ → ℤ

/-- `kmalloc`. -/
def kmalloc (size : ℕ) : M (Option Buf) := fun w =>
  .ret ((w.alloc w.used).map fun bytes => ⟨bytes, size⟩, { w with used := w.used + 1 })

/-- The device sees a request. -/
def request (lba count : ℕ) : M Unit := fun w =>
  .ret ((), { w with reads := w.reads ++ [(lba, count)] })

/-- `read_blocks` of the device. -/
def Disk.readBlocks (d : Disk) (lba count : ℕ) (buf : Buf) : M (ℤ × Buf) := do
  request lba count
  if d.rc lba count ≠ 0 then return (d.rc lba count, buf)
  require (devBlk * count ≤ buf.len)
  return (0, { buf with bytes := buf.bytes.blit 0 (devBlk * count) (d.bytes.shift (devBlk * lba)) })

/-! ## Blocks and inodes -/

/-- `ext4_sb_t`. -/
structure Sb where
  bs : ℕ
  blkPerFs : ℕ
  totalBlocks : ℕ
  blocksPerGroup : ℕ
  inodesPerGroup : ℕ
  ngroups : ℕ
  inodeSize : ℕ
  descSize : ℕ
  is64bit : Bool
  gd : Buf

/-- `ext4_inode_t`. -/
structure Inode where
  ino : ℕ
  mode : ℕ
  size : ℕ
  flags : ℕ
  isDir : Bool
  isReg : Bool
  blk : Buf

section

variable (d : Disk) (sb : Sb)

/-- `ext4_read_fs_blocks`. -/
def readFsBlocks (fsblk count : ℕ) (buf : Buf) : M (ℤ × Buf) := do
  if count = 0 then return (errInval, buf)
  let lba := fsblk * sb.blkPerFs % 2 ^ 64
  let n := count * sb.blkPerFs
  if 0xffffffff < n then return (errInval, buf)
  d.readBlocks lba n buf

/-- `ext4_itab_block`. -/
def itabBlock (group : ℕ) : M ℕ := do
  let at' := group * sb.descSize
  let lo ← sb.gd.load 4 (at' + 8)
  if sb.is64bit then
    let hi ← sb.gd.load 4 (at' + 40)
    return lo + hi * 2 ^ 32
  else return lo

/-- `ext4_read_inode`. -/
def readInode (ino : ℕ) : M (Except ℤ Inode) := do
  if ino = 0 then return .error errInval
  if sb.ngroups * sb.inodesPerGroup < ino then return .error errNoent
  let group ← div (ino - 1) sb.inodesPerGroup
  let idx ← mod (ino - 1) sb.inodesPerGroup
  let off := idx * sb.inodeSize
  let itab ← itabBlock sb group
  let fsblk := (itab + (← div off sb.bs)) % 2 ^ 64
  let inner ← mod off sb.bs
  if sb.bs < inner + sb.inodeSize then return .error errNotsup
  match ← kmalloc sb.bs with
  | none => return .error errNomem
  | some blk =>
    let (rc, blk) ← readFsBlocks d sb fsblk 1 blk
    if rc ≠ 0 then return .error rc
    let mode ← blk.load 2 inner
    let sizeLo ← blk.load 4 (inner + 4)
    let sizeHi ← blk.load 4 (inner + 108)
    let flags ← blk.load 4 (inner + 32)
    let iblock ← (⟨Bytes.const 0, 60⟩ : Buf).copy 0 60 blk (inner + 40)
    return .ok
      { ino := ino
        mode := mode
        size := sizeLo + sizeHi * 2 ^ 32
        flags := flags
        isDir := mode &&& sIfmt = sIfdir
        isReg := mode &&& sIfmt = sIfreg
        blk := iblock }

/-! ## Extents -/

/-- The loop over a leaf: `n` entries are left, the next at `e`. -/
def leafLoop (node : Buf) (lb : ℕ) : ℕ → ℕ → M (Except ℤ (ℕ × Bool))
  | 0, _ => return .error errNoent
  | n + 1, e => do
    let b ← node.load 4 e
    let len ← node.load 2 (e + 4)
    let span := len &&& eeLenMask
    let lo ← node.load 4 (e + 8)
    let hi ← node.load 2 (e + 6)
    let start := lo + hi * 2 ^ 32
    if span = 0 then leafLoop node lb n (e + 12)
    else if b ≤ lb ∧ lb < (b + span) % 2 ^ 32 then
      return .ok (start + (lb - b), decide (len &&& eeUninit ≠ 0))
    else leafLoop node lb n (e + 12)

/-- The loop over an index node: the last entry that is not above `lb`. -/
def indexLoop (node : Buf) (lb : ℕ) : ℕ → ℕ → Option ℕ → M (Option ℕ)
  | 0, _, best => return best
  | n + 1, e, best => do
    let b ← node.load 4 e
    if b ≤ lb then indexLoop node lb n (e + 12) (some e) else return best

/-- What a node says: the mapping, or the block of the child to look in. -/
inductive Step
  | done (r : Except ℤ (ℕ × Bool))
  | child (block : ℕ)

/-- `ext4_map_walk` up to the read of the child. -/
def mapStep (node : Buf) (nodeLen lb depthLeft : ℕ) : M Step := do
  if nodeLen < 12 then return .done (.error errInval)
  let magic ← node.load 2 0
  let entries ← node.load 2 2
  let max ← node.load 2 4
  let depth ← node.load 2 6
  if magic ≠ ehMagic then return .done (.error errInval)
  if max < entries ∨ nodeLen < max * 12 + 12 then return .done (.error errInval)
  if depth = 0 then
    let r ← leafLoop node lb entries 12
    return .done r
  if depthLeft = 0 ∨ maxDepth < depth then return .done (.error errInval)
  match ← indexLoop node lb entries 12 none with
  | none => return .done (.error errNoent)
  | some best =>
    let lo ← node.load 4 (best + 4)
    let hi ← node.load 2 (best + 6)
    return .child (lo + hi * 2 ^ 32)

/-- `ext4_map_walk`, with the contents of `scratch` after it. -/
def mapWalk (lb : ℕ) : ℕ → Buf → ℕ → Buf → M (Except ℤ (ℕ × Bool) × Buf)
  | depthLeft, node, nodeLen, scratch => do
    match ← mapStep node nodeLen lb depthLeft with
    | .done r => return (r, scratch)
    | .child block =>
      match depthLeft with
      | 0 => return (.error errInval, scratch)
      | depthLeft + 1 =>
        let (rc, scratch) ← readFsBlocks d sb block 1 scratch
        if rc ≠ 0 then return (.error rc, scratch)
        mapWalk lb depthLeft scratch sb.bs scratch

/-- `ext4_map`. -/
def map (ip : Inode) (lb : ℕ) (scratch : Buf) : M (Except ℤ (ℕ × Bool) × Buf) := do
  if ip.flags &&& extentsFl = 0 then return (.error errNotsup, scratch)
  mapWalk d sb lb maxDepth ip.blk 60 scratch

/-! ## Directories -/

/-- What `ext4_dir_next` stores for its caller. -/
structure DirEntry where
  ino : ℕ
  ftype : ℕ
  name : Buf

/-- What the scan of a block ends with: a broken chain, an entry, or the end of
the block. -/
inductive Scan
  | broken
  | found (e : DirEntry) (off : ℕ)
  | done (off : ℕ)

/-- The loop over the entries of a block, from `pos` on. -/
def dirScan (blk nameOut : Buf) (lb : ℕ) : ℕ → ℕ → ℕ → M Scan
  | 0, _, _ => hang
  | fuel + 1, pos, off => do
    if sb.bs < pos + 8 then return .done off
    let ino ← blk.load 4 pos
    let len ← blk.load 2 (pos + 4)
    let nlen ← blk.load 1 (pos + 6)
    let ftype ← blk.load 1 (pos + 7)
    if len < 8 ∨ sb.bs < pos + len then return .broken
    let off := lb * sb.bs + pos + len
    if ino = 0 then dirScan blk nameOut lb fuel (pos + len) off
    else if nlen = 0 ∨ len < nlen + 8 then dirScan blk nameOut lb fuel (pos + len) off
    else if 0 < nameOut.len then
      let cn := if nlen < nameOut.len - 1 then nlen else nameOut.len - 1
      let name ← nameOut.copy 0 cn blk (pos + 8)
      let name ← name.fill cn 1 0
      return .found ⟨ino, ftype, name⟩ off
    else return .found ⟨ino, ftype, nameOut⟩ off

/-- The contents of a directory block, or `none` if the device fails. -/
def readDirBlock (phys : ℕ) (uninit : Bool) (blk : Buf) : M (Option Buf) := do
  if uninit then
    let blk ← blk.fill 0 sb.bs 0
    return some blk
  else
    let (rc, blk) ← readFsBlocks d sb phys 1 blk
    if rc ≠ 0 then return none
    return some blk

/-- The loop of `ext4_dir_next` over the blocks of a directory: what it returns
and `*off`. A device error breaks the loop, which then returns `NOENT`. -/
def dirLoop (dir : Inode) (nameOut : Buf) : ℕ → Buf → ℕ → M (Except ℤ DirEntry × ℕ)
  | 0, _, _ => hang
  | fuel + 1, blk, off => do
    if dir.size ≤ off then return (.error errNoent, off)
    let lb := (← div off sb.bs) % 2 ^ 32
    let pos := (← mod off sb.bs) % 2 ^ 32
    let (r, blk) ← map d sb dir lb blk
    match r with
    | .error rc =>
      if rc = errNoent ∨ rc = errNotsup then dirLoop dir nameOut fuel blk ((lb + 1) * sb.bs)
      else return (.error errNoent, off)
    | .ok (phys, uninit) =>
      match ← readDirBlock d sb phys uninit blk with
      | none => return (.error errNoent, off)
      | some blk =>
        match ← dirScan sb blk nameOut lb (sb.bs + 1) pos off with
        | .broken => return (.error errInval, off)
        | .found e off => return (.ok e, off)
        | .done off => dirLoop dir nameOut fuel blk off

/-- `ext4_dir_next`. -/
def dirNext (dir : Inode) (nameOut : Buf) (fuel off : ℕ) : M (Except ℤ DirEntry × ℕ) := do
  if dir.isDir = false then return (.error errNotdir, off)
  match ← kmalloc sb.bs with
  | none => return (.error errNomem, off)
  | some blk => dirLoop d sb dir nameOut fuel blk off

/-- `kernel_strncpy` from `dst[i]` on, with room for `n` bytes and the
terminator. -/
def strncpyLoop (src : Buf) : ℕ → Buf → ℕ → M Buf
  | 0, dst, i => dst.fill i 1 0
  | n + 1, dst, i => do
    let c ← src.load 1 i
    if c = 0 then dst.fill i 1 0
    else
      let dst ← dst.copy i 1 src i
      strncpyLoop src n dst (i + 1)

/-- `ext4_readdir` at `off` into `out->name`; `stack` is what `e_name` holds
before. -/
def readdir (ip : Inode) (stack : Bytes) (fuel off : ℕ) (out : Buf) :
    M (Except ℤ (Buf × ℕ) × ℕ) := do
  match ← dirNext d sb ip ⟨stack, nameMax⟩ fuel off with
  | (.error rc, _) => return (.error rc, off)
  | (.ok e, next) =>
    let out ← strncpyLoop e.name (nameMax - 1) out 0
    return (.ok (out, e.ftype), next)

/-- `ext4_name_eq`, from `entry[i]` on. -/
def nameEq (entry : Buf) : Str → ℕ → M Bool
  | [], i => do
    let c ← entry.load 1 i
    return decide (c = 0)
  | x :: comp, i => do
    let c ← entry.load 1 i
    if c ≠ x.toNat then return false
    nameEq entry comp (i + 1)

/-- The search of `ext4_lookup` for a component; `stack` is what `e_name` holds
before. -/
def findLoop (dir : Inode) (comp : Str) (stack : Bytes) : ℕ → ℕ → M (Except ℤ ℕ)
  | 0, _ => hang
  | fuel + 1, off => do
    match ← dirNext d sb dir ⟨stack, nameMax⟩ fuel off with
    | (.error rc, _) => return .error rc
    | (.ok e, off) =>
      if ← nameEq e.name comp 0 then
        match ← readInode d sb e.ino with
        | .error rc => return .error rc
        | .ok t =>
          if t.mode &&& sIfmt ≠ sIfreg ∧ t.mode &&& sIfmt ≠ sIfdir then return .error errNotsup
          return .ok e.ino
      else findLoop dir comp stack fuel off

/-- The loop of `ext4_lookup` over the components. -/
def lookupLoop (stack : Bytes) : ℕ → Str → ℕ → M (Except ℤ ℕ)
  | 0, _, _ => hang
  | fuel + 1, p, ino => do
    let comp := p.takeWhile (· ≠ slash)
    if comp.length = 0 ∨ nameMax ≤ comp.length then return .error errInval
    match ← readInode d sb ino with
    | .error rc => return .error rc
    | .ok dir =>
      if dir.isDir = false then return .error errNotdir
      if dir.flags &&& extentsFl = 0 then return .error errNotsup
      match ← findLoop d sb dir comp stack fuel 0 with
      | .error rc => return .error rc
      | .ok found =>
        let p := (p.dropWhile (· ≠ slash)).dropWhile (· = slash)
        if p = [] then return .ok found
        lookupLoop stack fuel p found

/-- `ext4_lookup`. -/
def lookup (stack : Bytes) (fuel : ℕ) (rel : Str) : M (Except ℤ ℕ) := do
  let p := rel.dropWhile (· = slash)
  if p = [] then return .ok rootIno
  lookupLoop d sb stack fuel p rootIno

/-! ## Files -/

/-- The loop of `ext4_read`: the output buffer, how much of it is written, and
`f->pos`. -/
def readLoop (ip : Inode) : ℕ → Buf → Buf → ℕ → ℕ → ℕ → M (Buf × ℕ × ℕ)
  | 0, _, _, _, _, _ => hang
  | fuel + 1, out, blk, done, pos, len => do
    if len = 0 then return (out, done, pos)
    let lb := (← div pos sb.bs) % 2 ^ 32
    let inner := (← mod pos sb.bs) % 2 ^ 32
    let chunk := if len < sb.bs - inner then len else sb.bs - inner
    let (r, blk) ← map d sb ip lb blk
    match r with
    | .error rc =>
      if rc = errNoent then
        let out ← out.fill done chunk 0
        readLoop ip fuel out blk (done + chunk) (pos + chunk) (len - chunk)
      else return (out, done, pos)
    | .ok (phys, uninit) =>
      if uninit then
        let out ← out.fill done chunk 0
        readLoop ip fuel out blk (done + chunk) (pos + chunk) (len - chunk)
      else
        let (rc, blk) ← readFsBlocks d sb phys 1 blk
        if rc ≠ 0 then return (out, done, pos)
        let out ← out.copy done chunk blk inner
        readLoop ip fuel out blk (done + chunk) (pos + chunk) (len - chunk)

/-- `ext4_read` of `len` bytes at `pos` into `out`. Each round takes a byte at
least. -/
def read (ip : Inode) (pos len : ℕ) (out : Buf) : M (ℤ × Buf × ℕ) := do
  if ip.isDir then return (errIsdir, out, pos)
  if len = 0 then return (0, out, pos)
  if ip.size ≤ pos then return (0, out, pos)
  let len := if ip.size - pos < len then ip.size - pos else len
  match ← kmalloc sb.bs with
  | none => return (errNomem, out, pos)
  | some blk =>
    let (out, done, pos) ← readLoop d sb ip (len + 1) out blk 0 pos len
    if done ≠ 0 then return (done, out, pos) else return (errNotsup, out, pos)

end

/-! ## Mounting -/

/-- A field that is there with `EXT4_FT_64BIT` only. -/
def load64 (is64bit : Bool) (n : ℕ) (sec : Buf) (off dflt : ℕ) : M ℕ :=
  if is64bit then sec.load n off else pure dflt

/-- The superblock of `ext4_mount`, before the group descriptors are read. -/
def parseSb (sec : Buf) : M (Except ℤ Sb) := do
  let magic ← sec.load 2 56
  if magic ≠ ext4Magic then return .error errNodev
  let totalLo ← sec.load 4 4
  let logBs ← sec.load 4 24
  if 3 < logBs then return .error errNotsup
  let bs := 1024 * 2 ^ logBs
  let blocksPerGroup ← sec.load 4 32
  let inodesPerGroup ← sec.load 4 40
  let inodeSize ← sec.load 2 88
  if blocksPerGroup = 0 ∨ inodesPerGroup = 0 then return .error errNotsup
  if inodeSize < 128 ∨ bs < inodeSize then return .error errNotsup
  let incompat ← sec.load 4 96
  if incompat &&& (2 ^ 32 - 1 - incompatSupp) ≠ 0 ∨ incompat &&& ftExtents = 0 then
    return .error errNotsup
  let is64bit := decide (incompat &&& ft64bit ≠ 0)
  let totalHi ← load64 is64bit 4 sec 336 0
  let totalBlocks := totalLo + totalHi * 2 ^ 32
  if totalBlocks = 0 then return .error errNotsup
  let descSize ← load64 is64bit 2 sec 254 32
  if is64bit = true ∧ descSize < 64 then return .error errNotsup
  if descSize < 32 ∨ bs < descSize then return .error errNotsup
  let ngroups := (← div ((totalBlocks + blocksPerGroup - 1) % 2 ^ 64) blocksPerGroup) % 2 ^ 32
  if ngroups = 0 then return .error errNotsup
  return .ok
    { bs := bs
      blkPerFs := bs / devBlk
      totalBlocks := totalBlocks
      blocksPerGroup := blocksPerGroup
      inodesPerGroup := inodesPerGroup
      ngroups := ngroups
      inodeSize := inodeSize
      descSize := descSize
      is64bit := is64bit
      gd := ⟨Bytes.const 0, 0⟩ }

/-- The group descriptors of `ext4_mount`. -/
def readGdt (d : Disk) (sb : Sb) : M (Except ℤ Sb) := do
  let gdtBytes := sb.ngroups * sb.descSize
  let gdtBlocks ← div (gdtBytes + sb.bs - 1) sb.bs
  if gdtBlocks = 0 ∨ 0xffffffff < gdtBlocks then return .error errNotsup
  match ← kmalloc (gdtBlocks * sb.bs) with
  | none => return .error errNomem
  | some gd =>
    let (rc, gd) ← readFsBlocks d sb (if sb.bs = 1024 then 2 else 1) gdtBlocks gd
    if rc ≠ 0 then return .error rc
    return .ok { sb with gd := gd }

/-- `ext4_mount`, once the superblock record and `sec` are allocated; `sec`
holds what it holds. -/
def mount (d : Disk) (sec : Bytes) : M (Except ℤ Sb) := do
  let (rc, sec) ← d.readBlocks 2 2 ⟨sec, 1024⟩
  if rc ≠ 0 then return .error rc
  match ← parseSb sec with
  | .error rc => return .error rc
  | .ok sb =>
    match ← readGdt d sb with
    | .error rc => return .error rc
    | .ok sb =>
      match ← readInode d sb rootIno with
      | .error rc => return .error rc
      | .ok root =>
        if root.isDir = false then return .error errNotsup
        -- the label that is printed
        let _ ← (⟨Bytes.const 0, 17⟩ : Buf).copy 0 16 sec 120
        return .ok sb

/-! ## Sessions -/

/-- What is asked of a mounted image. A file and a directory are given by the
number of their inode, which is whatever the caller says. -/
inductive Request
  | lookup (rel : Str)
  | map (ino lb : ℕ)
  | dirNext (ino off : ℕ)
  | readdir (ino off : ℕ)
  | read (ino pos len : ℕ)

section

variable (d : Disk) (sb : Sb) (stack : Bytes) (fuel : ℕ)

/-- Reads the inode `ino` and goes on with it. -/
def withInode (ino : ℕ) (f : Inode → M Unit) : M Unit := do
  match ← readInode d sb ino with
  | .error _ => return ()
  | .ok ip => f ip

/-- The call of a request; `stack` is what the buffers of the caller and the
locals hold before. -/
def serve : Request → M Unit
  | .lookup rel => do
    let _ ← lookup d sb stack fuel rel
  | .map ino lb => withInode d sb ino fun ip => do
    match ← kmalloc sb.bs with
    | none => return ()
    | some scratch => let _ ← map d sb ip lb scratch
  | .dirNext ino off => withInode d sb ino fun ip => do
    let _ ← dirNext d sb ip ⟨stack, nameMax⟩ fuel off
  | .readdir ino off => withInode d sb ino fun ip => do
    let _ ← readdir d sb ip stack fuel off ⟨stack, nameMax⟩
  | .read ino pos len => withInode d sb ino fun ip => do
    let _ ← read d sb ip pos len ⟨stack, len⟩

/-- The calls of a list of requests. -/
def serveAll : List Request → M Unit
  | [] => return ()
  | r :: rs => do
    serve d sb stack fuel r
    serveAll rs

end

/-- A mount and the calls after it. -/
def session (d : Disk) (sec stack : Bytes) (fuel : ℕ) (rs : List Request) : M Unit := do
  match ← mount d sec with
  | .error _ => return ()
  | .ok sb => serveAll d sb stack fuel rs

end Ext4

end Csos

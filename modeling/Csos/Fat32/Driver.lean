import Csos.Common.Runs
import Csos.Fat32.Dirs
/-!
# FAT32 — the driver

The callbacks of `fat32.c`: mounting, file handles, `mkdir` and `rmdir`. A
`File` is `fat32_file_t`, a `Handle` is what the VFS keeps of an open file.
`Handed` are the paths that reach a driver: the VFS has made them absolute
and normal and has cut the mountpoint off.
-/

namespace Csos

namespace Fat32

open Vfs (Str slash dot errInval errNoent errExist errNotdir errIsdir errNomem errNotsup errNodev)

/-! ## Mounting -/

/-- `fat32_is_dbr`. -/
def isDbr (sec : Bytes) : Bool :=
  Bytes.load 2 sec 510 = 0xaa55 ∧ Bytes.load 2 sec 11 = 512 ∧
    sec 13 ≠ 0 ∧ sec 13 &&& (sec 13 - 1) = 0 ∧ sec 16 ≠ 0 ∧ Bytes.load 2 sec 17 = 0 ∧
    Bytes.load 2 sec 22 = 0 ∧ Bytes.load 4 sec 36 ≠ 0 ∧ 2 ≤ Bytes.load 4 sec 44

/-- Entry `i` of the partition table, if it is a FAT32 partition. -/
def mbrEntry (sec : Bytes) (i : ℕ) : Option ℕ :=
  if sec (446 + i * 16 + 4) = 0x0b ∨ sec (446 + i * 16 + 4) = 0x0c then
    if Bytes.load 4 sec (446 + i * 16 + 8) ≠ 0 then some (Bytes.load 4 sec (446 + i * 16 + 8)) else none
  else none

/-- `fat32_mbr_find`; 0 if there is no such partition. -/
def mbrFind (sec : Bytes) : ℕ :=
  if Bytes.load 2 sec 510 ≠ 0xaa55 then 0 else ((List.range 4).findSome? (mbrEntry sec)).getD 0

/-- The device as `fat32_mount` sees it. `readable`: it is a block device
with a `read_blocks`. -/
structure Dev where
  disk : ℕ → Bytes
  faults : List Bool
  blockSize : ℕ
  readable : Bool
  writable : Bool

/-- The part of the superblock that a boot sector gives. -/
def geoOf (sec : Bytes) (base : ℕ) (writable : Bool) : Geo :=
  let reserved := Bytes.load 2 sec 14
  let numFats := (sec 16).toNat
  let fatSecs := Bytes.load 4 sec 36
  let total := Bytes.load 4 sec 32
  let ext := Bytes.load 2 sec 40
  let metaSecs := (reserved + numFats * fatSecs) % 2 ^ 32
  let dataSecs := if metaSecs < total then total - metaSecs else 0
  { baseLba := base
    secPerClus := (sec 13).toNat
    reservedSecs := reserved
    numFats := numFats
    totalSecs := total
    fatSecs := fatSecs
    rootClus := Bytes.load 4 sec 44
    fsInfoSec := Bytes.load 2 sec 48
    activeFat := if numFats ≤ ext % 16 then 0 else ext % 16
    mirror := ext / 2 ^ 7 % 2 = 0
    fatStartLba := reserved
    dataStartLba := metaSecs
    clusterCount := dataSecs / (sec 13).toNat
    clusBytes := (sec 13).toNat * 512
    writable := writable }

/-- A sector of the device, before the volume is known. -/
def readDev (lba : ℕ) (v : Vol) : Option Bytes × Vol :=
  match v.transfer with
  | (true, v) => (some (v.disk lba), v)
  | (false, v) => (none, v)

/-- The FSInfo part of `fat32_mount`. -/
def readInfo (g : Geo) (v : Vol) : Vol :=
  if g.fsInfoSec = 0 then v
  else
    match readSec g g.fsInfoSec v with
    | (none, v) => v
    | (some fi, v) =>
      if Bytes.load 4 fi 0 = 0x41615252 ∧ Bytes.load 4 fi 484 = 0x61417272 then
        let fc := Bytes.load 4 fi 488
        let nf := Bytes.load 4 fi 492
        let v := if fc ≠ 0xffffffff then { v with freeCount := fc, freeKnown := true } else v
        if clusValid g nf then { v with nextFree := nf } else v
      else v

/-- The boot sector of the volume and where it starts. -/
def findBoot (v : Vol) : Except ℤ (Bytes × ℕ × Vol) :=
  match readDev 0 v with
  | (none, _) => .error errNodev
  | (some sec, v) =>
    if isDbr sec then .ok (sec, 0, v)
    else if mbrFind sec = 0 then .error errNotsup
    else
      match readDev (mbrFind sec) v with
      | (none, _) => .error errNotsup
      | (some sec', v) => if isDbr sec' then .ok (sec', mbrFind sec, v) else .error errNotsup

/-- `fat32_mount` on the device that `vdev_find` has found. `mem`: `kmalloc`
succeeds. `junk` is what the stack holds. -/
def mount (vd : Option Dev) (mem : Bool) (junk : ℕ → ℕ) : Except ℤ (Geo × Vol) :=
  match vd with
  | none => .error errNodev
  | some vd =>
    if vd.readable = false then .error errNodev
    else if vd.blockSize ≠ 512 then .error errNotsup
    else if mem = false then .error errNomem
    else
      match findBoot ⟨2, 0, false, vd.disk, vd.faults, false, junk⟩ with
      | .error rc => .error rc
      | .ok (sec, base, v) =>
        let g := geoOf sec base vd.writable
        let v := readInfo g v
        if g.clusterCount < 2 ∨ g.clusBytes = 0 then .error errNotsup else .ok (g, v)

/-! ## Files -/

/-- `fat32_file_t`. -/
structure File where
  chain : Chain
  size : ℕ
  dirClus : ℕ
  dirOff : ℕ
  isDir : Bool

/-- `vfs_file_t`, as far as the driver uses it. -/
structure Handle where
  pos : ℕ
  size : ℕ
  isDir : Bool
  ff : File

/-- `VFS_O_CREAT`. -/
abbrev oCreat : ℕ := 0x40
/-- `VFS_O_TRUNC`. -/
abbrev oTrunc : ℕ := 0x200
/-- `VFS_O_APPEND`. -/
abbrev oAppend : ℕ := 0x400
/-- `VFS_O_DIRECTORY`. -/
abbrev oDirectory : ℕ := 0x1000

variable (g : Geo)

/-- What `fat32_open` does for `VFS_O_CREAT` when there is no such file. -/
def openCreate (rel : Str) (v : Vol) : ℤ × Option Loc × Vol :=
  match split rel with
  | none => (errInval, none, v)
  | some (dir, leaf) =>
    match resolveDir g dir v with
    | (rc, parent, v) =>
      if rc ≠ fatOk then (rc, none, v)
      else
        match dirLookup g parent leaf v with
        | (rc, some ex, v) => if rc ≠ fatOk then (rc, none, v) else (fatOk, some ex, v)
        | (rc, none, v) =>
          if rc ≠ fatOk then (rc, none, v) else dirInsert g parent leaf false 0 0 v

/-- The entry that `fat32_open` opens. -/
def openLoc (rel : Str) (flags : ℕ) (v : Vol) : ℤ × Option Loc × Vol :=
  match resolve g rel v with
  | (rc, o, v) =>
    if rc = errNoent ∧ flags &&& oCreat ≠ 0 ∧ flags &&& oDirectory = 0 then openCreate g rel v
    else (rc, o, v)

/-- The handle of an entry, and what opening it does to the volume. -/
def openFile (loc : Loc) (flags : ℕ) (v : Vol) : Handle × Vol :=
  let isDir : Bool := loc.attr &&& attrDir ≠ 0
  let trunc : Bool := isDir = false ∧ flags &&& oTrunc ≠ 0 ∧ flags &&& 3 ≠ 0
  let ff : File :=
    { chain := chainInit (if trunc then 0 else loc.clus)
      size := if trunc then 0 else loc.size
      dirClus := loc.dirClus
      dirOff := loc.off
      isDir := isDir }
  (⟨if isDir = false ∧ flags &&& oAppend ≠ 0 then ff.size else 0, ff.size, isDir, ff⟩,
    if trunc then truncate g loc v else v)

/-- `fat32_open`. `mem`: `kmalloc` succeeds. -/
def open_ (rel : Str) (flags : ℕ) (mem : Bool) (v : Vol) : ℤ × Option Handle × Vol :=
  match openLoc g rel flags v with
  | (rc, o, v) =>
    if rc ≠ fatOk then (rc, none, v)
    else
      match o with
      | none => (rc, none, v)
      | some loc =>
        if loc.attr &&& attrDir ≠ 0 ∧ flags &&& oDirectory = 0 then (errIsdir, none, v)
        else if loc.attr &&& attrDir = 0 ∧ flags &&& oDirectory ≠ 0 then (errNotdir, none, v)
        else if mem = false then (errNomem, none, v)
        else
          match openFile g loc flags v with
          | (f, v) => (fatOk, some f, v)

/-- `fat32_read`: the result, the bytes, the handle and the volume. -/
def read (f : Handle) (len : ℕ) (v : Vol) : ℤ × List UInt8 × Handle × Vol :=
  if f.ff.isDir then (errIsdir, [], f, v)
  else if f.ff.size ≤ f.pos then (0, [], f, v)
  else
    let len := min (min len (f.ff.size - f.pos)) (2 ^ 32 - 1)
    let r := chainRead g f.ff.chain f.pos len v
    let ff := { f.ff with chain := r.chain }
    if r.rc ≠ fatOk then (r.rc, r.bytes, { f with ff := ff }, r.vol)
    else ((len : ℤ), r.bytes, { f with ff := ff, pos := f.pos + len }, r.vol)

/-- The loop of `fat32_write` that fills the hole before the position. -/
def gapLoop : ℕ → Chain → ℕ → ℕ → Vol → ℤ × Chain × Vol
  | 0, ch, _, _, v => (fatOk, ch, v)
  | fuel + 1, ch, gpos, gap, v =>
    if gap = 0 then (fatOk, ch, v)
    else
      let n := min gap 128
      let r := chainWrite g ch gpos (List.replicate n 0) v
      if r.rc ≠ fatOk then (r.rc, r.chain, r.vol)
      else gapLoop fuel r.chain (gpos + n) (gap - n) r.vol

/-- `fat32_write`. -/
def write (f : Handle) (buf : List UInt8) (v : Vol) : ℤ × Handle × Vol :=
  if f.ff.isDir then (errIsdir, f, v)
  else
    let buf := buf.take (2 ^ 32 - 1)
    let gap := f.pos - f.ff.size
    match gapLoop g (gap / 128 + 1) f.ff.chain f.ff.size gap v with
    | (rc, ch, v) =>
      if rc ≠ fatOk then (rc, { f with ff := { f.ff with chain := ch } }, v)
      else
        let r := chainWrite g ch f.pos buf v
        if r.rc ≠ fatOk then (r.rc, { f with ff := { f.ff with chain := r.chain } }, r.vol)
        else
          let pos := f.pos + buf.length
          let size := if f.ff.size < pos then pos % 2 ^ 32 else f.ff.size
          let v := (updateEntry g f.ff.dirClus f.ff.dirOff r.chain.start size r.vol).2
          ((buf.length : ℤ), ⟨pos, size, f.isDir, { f.ff with chain := r.chain, size := size }⟩, v)

/-- `VFS_SEEK_SET`. -/
abbrev seekSet : ℤ := 0
/-- `VFS_SEEK_CUR`. -/
abbrev seekCur : ℤ := 1

/-- `fat32_seek`; the sum is an `int64_t`. -/
def seek (f : Handle) (off whence : ℤ) : ℤ × Handle :=
  if f.ff.isDir then (errIsdir, f)
  else
    let base := Int.bmod
      (if whence = seekSet then off
       else if whence = seekCur then f.pos + off
       else f.ff.size + off) (2 ^ 64)
    if base < 0 then (errInval, f) else (base, { f with pos := base.toNat })

/-! ## Directories -/

/-- `fat32_mkdir`. -/
def mkdir (rel : Str) (v : Vol) : ℤ × Vol :=
  match split rel with
  | none => (errInval, v)
  | some (dir, leaf) =>
    match resolveDir g dir v with
    | (rc, parent, v) =>
      if rc ≠ fatOk then (rc, v)
      else
        match dirLookup g parent leaf v with
        | (rc, o, v) =>
          if rc ≠ fatOk then (rc, v)
          else if o.isSome then (errExist, v)
          else createDir g parent leaf v

/-- `fat32_rmdir`. -/
def rmdir (rel : Str) (v : Vol) : ℤ × Vol :=
  match resolve g rel v with
  | (rc, o, v) =>
    if rc ≠ fatOk then (rc, v)
    else
      match o with
      | none => (rc, v)
      | some loc =>
        if loc.attr &&& attrDir = 0 then (errNotdir, v)
        else
          match dirIsEmpty g loc.clus v with
          | (false, v) => (errNotempty, v)
          | (true, v) => (fatOk, deleteSlots g loc.dirClus loc.lfnOff loc.off (freeChain g loc.clus v))

/-- `fat32_dirh_t`. -/
structure DirHandle where
  dirClus : ℕ
  nextIndex : ℕ

/-- `vfs_dirent_t`. -/
structure Dirent where
  name : Str
  isDir : Bool
  size : ℕ

/-- `fat32_opendir`. `mem`: `kmalloc` succeeds. -/
def opendir (rel : Str) (mem : Bool) (v : Vol) : ℤ × Option DirHandle × Vol :=
  match resolve g rel v with
  | (rc, o, v) =>
    if rc ≠ fatOk then (rc, none, v)
    else
      match o with
      | none => (rc, none, v)
      | some loc =>
        if loc.attr &&& attrDir = 0 then (errNotdir, none, v)
        else if mem = false then (errNomem, none, v)
        else (fatOk, some ⟨loc.clus, 0⟩, v)

/-- The loop of `fat32_readdir` from entry `idx` on: the result, the entry if
there is one, and the index to go on from. -/
def readdirLoop : ℕ → Chain → ℕ → Lfn → Vol → ℤ × Option Dirent × ℕ × Vol
  | 0, _, _, _, v => (errIo, none, 0, v.hung)
  | fuel + 1, ch, idx, s, v =>
    match entRead g ch idx v with
    | (rc, e, ch, v) =>
      if rc = errEof then (errNoent, none, idx, v)
      else if rc ≠ fatOk then (rc, none, idx, v)
      else if e 0 = 0 then (errNoent, none, idx + 1, v)
      else if e 0 = 0xe5 then readdirLoop fuel ch (idx + 1) s.reset v
      else if e 11 = attrLfn then
        -- no start is kept here, and none is asked for
        readdirLoop fuel ch (idx + 1) (s.add 0 e) v
      else if e 11 &&& attrVol ≠ 0 then readdirLoop fuel ch (idx + 1) s.reset v
      else if (dispName s e).head? = some dot then readdirLoop fuel ch (idx + 1) s.reset v
      else
        (fatOk, some
          { name := Vfs.strncpy (dispName s e) nameMax
            isDir := e 11 &&& attrDir ≠ 0
            size := Bytes.load 4 e 28 }, idx + 1, v)

/-- `fat32_readdir`. -/
def readdir (h : DirHandle) (v : Vol) : ℤ × Option Dirent × DirHandle × Vol :=
  match readdirLoop g rounds (chainInit h.dirClus) h.nextIndex ⟨v.junk, 0, 0, 0, false⟩ v with
  | (rc, o, idx, v) => (rc, o, { h with nextIndex := idx % 2 ^ 32 }, v)

/-! ## Runs -/

/-- The paths that reach a driver. -/
def Handed (rel : Str) : Prop :=
  ∃ (s s' : Vfs.State) (path : Str) (i : Vfs.Slot), s.locate path = .ok (i, rel, s')

/-- The volume and the file that is open, if there is one. -/
structure Sys where
  vol : Vol
  file : Option Handle

/-- A call of the driver. -/
inductive Call
  | open_ (rel : Str) (flags : ℕ) (mem : Bool)
  | read (len : ℕ)
  | write (buf : List UInt8)
  | seek (off whence : ℤ)
  | close
  | mkdir (rel : Str)
  | rmdir (rel : Str)

/-- The path of a call is one that the VFS hands down; it answers `mkdir`
and `rmdir` of a mountpoint itself. -/
def Call.Handed : Call → Prop
  | .open_ rel _ _ => Fat32.Handed rel
  | .mkdir rel => Fat32.Handed rel ∧ rel ≠ []
  | .rmdir rel => Fat32.Handed rel ∧ rel ≠ []
  | _ => True

/-- A call in a run of sessions that do not overlap: a path is used only
when no file is open, and a file only when it is open. -/
def call (s : Sys) : Call → Option Sys
  | .open_ rel flags mem =>
    if s.file.isSome then none
    else
      match open_ g rel flags mem s.vol with
      | (_, f, v) => some ⟨v, f⟩
  | .read len => s.file.map fun f =>
    match read g f len s.vol with
    | (_, _, f, v) => ⟨v, some f⟩
  | .write buf => s.file.map fun f =>
    match write g f buf s.vol with
    | (_, f, v) => ⟨v, some f⟩
  | .seek off whence => s.file.map fun f => ⟨s.vol, some (seek f off whence).2⟩
  | .close => s.file.map fun _ => ⟨s.vol, none⟩
  | .mkdir rel => if s.file.isSome then none else some ⟨(mkdir g rel s.vol).2, none⟩
  | .rmdir rel => if s.file.isSome then none else some ⟨(rmdir g rel s.vol).2, none⟩

/-- The driver from the volume `v` on, under sessions that do not overlap. -/
def sessions (v : Vol) : System Sys Call where
  init s := s = ⟨v, none⟩
  step s c s' := c.Handed ∧ call g s c = some s'

end Fat32

end Csos

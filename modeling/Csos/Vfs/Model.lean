import Mathlib.Tactic
import Mathlib.Data.List.DropRight
/-!
# The VFS — paths and the mount table

`vfs.c`: the path functions, and the critical sections of `g_vfs_lock` by
which the calls change the mount table. A C string is the list of its bytes
before the terminator; strings are shorter than `2 ^ 32`, so that the
`uint32_t` indices into them do not wrap. What a driver's callback answers
is not decided here: the calls take it as an argument.
-/

namespace Csos

namespace Vfs

/-- A C string. -/
abbrev Str := List UInt8

/-- `'/'`. -/
abbrev slash : UInt8 := 47
/-- `'.'`. -/
abbrev dot : UInt8 := 46

/-- `VFS_OK`. -/
abbrev vfsOk : ℤ := 0
/-- `VFS_ERR_INVAL`. -/
abbrev errInval : ℤ := -3
/-- `VFS_ERR_NOMEM`. -/
abbrev errNomem : ℤ := -4
/-- `VFS_ERR_NOENT`. -/
abbrev errNoent : ℤ := -5
/-- `VFS_ERR_EXIST`. -/
abbrev errExist : ℤ := -6
/-- `VFS_ERR_NODEV`. -/
abbrev errNodev : ℤ := -7
/-- `VFS_ERR_NOTDIR`. -/
abbrev errNotdir : ℤ := -8
/-- `VFS_ERR_ISDIR`. -/
abbrev errIsdir : ℤ := -9
/-- `VFS_ERR_NOSPC`. -/
abbrev errNospc : ℤ := -10
/-- `VFS_ERR_NOTSUP`. -/
abbrev errNotsup : ℤ := -11
/-- `VFS_ERR_BUSY`. -/
abbrev errBusy : ℤ := -12

/-- `VFS_PATH_MAX`. -/
abbrev pathMax : ℕ := 256
/-- `VFS_MAX_DRIVERS`. -/
abbrev maxDrivers : ℕ := 8
/-- `VFS_MAX_MOUNTS`. -/
abbrev maxMounts : ℕ := 8

/-! ## Paths -/

/-- `kernel_strncpy` into a buffer of `size` bytes. -/
def strncpy (src : Str) (size : ℕ) : Str := src.take (size - 1)

/-- The pop of `vfs_normalize`: back to the last separator, and over it
unless it is the root. -/
def popComponent (dst : Str) : Str :=
  let d := dst.rdropWhile (· ≠ slash)
  if 1 < d.length then d.dropLast else d

/-- The loop of `vfs_normalize` over what is left of `src`, `dst` being
what has been written. -/
def normalizeLoop (dstSize : ℕ) : ℕ → Str → Str → Option Str
  | 0, _, dst => some dst
  | fuel + 1, src, dst =>
    let src := src.dropWhile (· = slash)
    if src = [] then some dst
    else
      let comp := src.takeWhile (· ≠ slash)
      let rest := src.dropWhile (· ≠ slash)
      if comp = [dot] then normalizeLoop dstSize fuel rest dst
      else if comp = [dot, dot] then normalizeLoop dstSize fuel rest (popComponent dst)
      else if dstSize ≤ dst.length + (if 1 < dst.length then 1 else 0) + comp.length then none
      else
        normalizeLoop dstSize fuel rest ((if 1 < dst.length then dst ++ [slash] else dst) ++ comp)

/-- `vfs_normalize`; `none` is `VFS_ERR_INVAL`. -/
def normalize (src : Str) (dstSize : ℕ) : Option Str :=
  if dstSize < 2 ∨ src.head? ≠ some slash then none
  else normalizeLoop dstSize (src.length + 1) src [slash]

/-! ## Drivers and mounts -/

/-- The callbacks of `fs_driver_t` that may be missing. -/
inductive Op
  | unmount | close | read | write | seek | stat | mkdir | rmdir | opendir | readdir | closedir
  deriving DecidableEq

/-- `fs_driver_t`: its name, and which callbacks it has. `mount` and `open`
are there, or `vfs_register_driver` refuses it. -/
structure Driver where
  name : Str
  has : Op → Bool

/-- `vfs_mount_t`. A `priv` is the address of a superblock. -/
structure Mount where
  used : Bool
  openCount : ℕ
  mountpoint : Str
  drv : Option Driver
  priv : Option ℕ
  dev : Str

/-- A slot of `g_mounts`. -/
abbrev Slot := Fin maxMounts

/-- The globals of `vfs.c`. `underflow` is set once an `open_count` has been
decremented at zero. -/
structure State where
  drivers : List Driver
  mounts : Slot → Mount
  cwd : Str
  underflow : Bool

/-- A slot nobody has used. -/
def emptyMount : Mount :=
  { used := false, openCount := 0, mountpoint := [], drv := none, priv := none, dev := [] }

/-- `init_vfs`. -/
def initVfs : State := { drivers := [], mounts := fun _ => emptyMount, cwd := [slash], underflow := false }

namespace State

variable (s : State)

/-- Changes one slot. -/
def setMount (i : Slot) (f : Mount → Mount) : State :=
  { s with mounts := Function.update s.mounts i (f (s.mounts i)) }

/-- `vfs_abspath`. -/
def abspath (path : Str) (outSize : ℕ) : Option Str :=
  if path = [] then none
  else if path.head? = some slash then normalize path outSize
  else if pathMax ≤ (s.cwd.length + 1 + path.length) % 2 ^ 32 then none
  else normalize (s.cwd ++ slash :: path) outSize

/-- The test of `vfs_resolve`: `mp` is a prefix of `path` that ends where a
component ends. -/
def matches_ (mp path : Str) : Bool :=
  path.head? = mp.head? ∧ mp <+: path ∧
    ((path.drop mp.length).head? = none ∨ (path.drop mp.length).head? = some slash)

/-- One slot of the loop of `vfs_resolve`; `best` is the slot with the
length of its mountpoint. -/
def resolveStep (path : Str) (best : Option (Slot × ℕ)) (i : Slot) : Option (Slot × ℕ) :=
  let mp := (s.mounts i).mountpoint
  if ¬ (s.mounts i).used then best
  else if mp.length = 1 then if best = none then some (i, 1) else best
  else if ¬ matches_ mp path then best
  else if (best.map Prod.snd).getD 0 < mp.length then some (i, mp.length)
  else best

/-- `vfs_resolve`: the slot, and the path below its mountpoint. -/
def resolve (path : Str) : Option (Slot × Str) :=
  match (List.finRange maxMounts).foldl (s.resolveStep path) none with
  | none => none
  | some (i, len) =>
    if len = 1 then some (i, path.drop 1)
    else if (path.drop len).head? = some slash then some (i, path.drop (len + 1))
    else some (i, path.drop len)

/-! ## The sections of `g_vfs_lock` -/

/-- The section of `vfs_locate`: the slot found has one more user. -/
def pin (i : Slot) : State := s.setMount i fun m => { m with openCount := (m.openCount + 1) % 2 ^ 32 }

/-- `vfs_unpin`. -/
def unpin (i : Slot) : State :=
  { s.setMount i fun m => { m with openCount := (m.openCount + (2 ^ 32 - 1)) % 2 ^ 32 } with
    underflow := s.underflow || (s.mounts i).openCount = 0 }

/-- `vfs_locate`: the slot, the relative path and the state, or the error. -/
def locate (path : Str) : Except ℤ (Slot × Str × State) :=
  match s.abspath path pathMax with
  | none => .error errInval
  | some norm =>
    match s.resolve norm with
    | none => .error errNoent
    | some (i, rel) => .ok (i, rel, s.pin i)

/-- `vfs_find_driver`. -/
def findDriver (name : Str) : Option Driver := s.drivers.find? fun d => d.name = name

/-- The used slot of a mountpoint. -/
def findMount (norm : Str) : Option Slot :=
  (List.finRange maxMounts).find? fun i => (s.mounts i).used ∧ (s.mounts i).mountpoint = norm

/-- The first section of `vfs_mount`: the slot it reserves for the driver. -/
def reserve (fsName norm dev : Str) : Except ℤ (Slot × Driver × State) :=
  match s.findDriver fsName with
  | none => .error errNodev
  | some drv =>
    if (s.findMount norm).isSome then .error errBusy
    else
      match (List.finRange maxMounts).find? fun i => ¬ (s.mounts i).used with
      | none => .error errNospc
      | some i => .ok (i, drv, s.setMount i fun m =>
          { m with
            used := true, drv := some drv, priv := none
            mountpoint := strncpy norm pathMax, dev := strncpy dev pathMax })

/-- The section of `vfs_mount` after a failed callback. -/
def giveBack (i : Slot) : State :=
  s.setMount i fun m => { m with used := false, drv := none, priv := none }

/-- The first section of `vfs_unmount`: the slot it takes out. -/
def detach (norm : Str) : Except ℤ (Slot × State) :=
  match s.findMount norm with
  | none => .error errNoent
  | some i =>
    if 0 < (s.mounts i).openCount then .error errBusy
    else .ok (i, s.setMount i fun m => { m with used := false })

/-- The section of `vfs_unmount` after a failed callback. -/
def reattach (i : Slot) : State := s.setMount i fun m => { m with used := true }

/-- The last section of `vfs_unmount`. -/
def clear (i : Slot) : State := s.setMount i fun m => { m with drv := none, priv := none }

/-- What a callback leaves in `m->priv`. -/
def setPriv (i : Slot) (p : Option ℕ) : State := s.setMount i fun m => { m with priv := p }

end State

end Vfs

end Csos

import Csos.Vfs.Model
import Csos.Common.Runs
/-!
# The VFS — the calls

The entry points of `vfs.c`, one at a time. A call takes the answers of
`kmalloc` and of the driver's callback and gives its result, the driver
callbacks it made, and the world it leaves; `none` is a dereference of a
`NULL` driver. Handles are kept by address, as `kmalloc` gave it.
-/

namespace Csos

namespace Vfs

/-- `vfs_file_t` or `vfs_dir_t`, in what `vfs.c` reads of them. -/
structure Handle where
  mnt : Slot
  drv : Driver
  isFile : Bool
  flags : ℕ
  isDir : Bool

/-- The VFS and the handles that are open. -/
structure World where
  vfs : State
  handles : List (ℕ × Handle)

/-- The callbacks of a driver. -/
inductive Callback
  | mount
  | open
  | op (o : Op)
  deriving DecidableEq

/-- A call to a driver, with the superblock in `m->priv`. -/
structure DrvCall where
  slot : Slot
  callback : Callback
  priv : Option ℕ
  deriving DecidableEq

/-- What the code outside `vfs.c` answers in a call: `kmalloc`; the result
of the callback, the `priv` it leaves, and the `is_dir` it sets. -/
structure Answers where
  alloc : Option ℕ
  rc : ℤ
  priv : Option ℕ
  isDir : Bool

/-- What a call leaves. -/
structure Outcome where
  rc : ℤ
  world : World
  calls : List DrvCall

namespace World

variable (w : World) (a : Answers)

/-- A call that fails before it changes anything. -/
def fail (rc : ℤ) : Outcome := ⟨rc, w, []⟩

/-- The same handles over another table. -/
def withVfs (s : State) : World := { w with vfs := s }

/-- `vfs_register_driver`. -/
def register (d : Driver) : Outcome :=
  if w.vfs.drivers.any fun e => e.name = d.name then w.fail errExist
  else if maxDrivers ≤ w.vfs.drivers.length then w.fail errNospc
  else ⟨vfsOk, w.withVfs { w.vfs with drivers := w.vfs.drivers ++ [d] }, []⟩

/-- `vfs_mount`. -/
def mount (fsName mountpoint dev : Str) : Outcome :=
  if mountpoint.head? ≠ some slash then w.fail errInval
  else
    match normalize mountpoint pathMax with
    | none => w.fail errInval
    | some norm =>
      match w.vfs.reserve fsName norm dev with
      | .error rc => w.fail rc
      | .ok (i, _, s) =>
        if a.rc ≠ vfsOk then ⟨a.rc, w.withVfs ((s.setPriv i a.priv).giveBack i), [⟨i, .mount, none⟩]⟩
        else ⟨vfsOk, w.withVfs (s.setPriv i a.priv), [⟨i, .mount, none⟩]⟩

/-- `vfs_unmount`. -/
def unmount (mountpoint : Str) : Option Outcome :=
  match normalize mountpoint pathMax with
  | none => some (w.fail errInval)
  | some norm =>
    match w.vfs.detach norm with
    | .error rc => some (w.fail rc)
    | .ok (i, s) =>
      match (s.mounts i).drv with
      | none => none
      | some drv =>
        if drv.has .unmount then
          let call : DrvCall := ⟨i, .op .unmount, (s.mounts i).priv⟩
          let s := s.setPriv i a.priv
          if a.rc ≠ vfsOk then some ⟨a.rc, w.withVfs (s.reattach i), [call]⟩
          else some ⟨vfsOk, w.withVfs (s.clear i), [call]⟩
        else some ⟨vfsOk, w.withVfs (s.clear i), []⟩

/-- `vfs_open`. -/
def open_ (path : Str) (flags : ℕ) : Option Outcome :=
  match w.vfs.locate path with
  | .error rc => some (w.fail rc)
  | .ok (i, _, s) =>
    match (s.mounts i).drv with
    | none => none
    | some drv =>
      match a.alloc with
      | none => some ⟨errNomem, w.withVfs (s.unpin i), []⟩
      | some f =>
        let call : DrvCall := ⟨i, .open, (s.mounts i).priv⟩
        if a.rc ≠ vfsOk then some ⟨a.rc, w.withVfs (s.unpin i), [call]⟩
        else
          -- `VFS_O_APPEND` seeks to the end
          let seek : List DrvCall :=
            if flags &&& 0x400 ≠ 0 ∧ drv.has .seek then [⟨i, .op .seek, (s.mounts i).priv⟩] else []
          some ⟨vfsOk, ⟨s, (f, ⟨i, drv, true, flags, a.isDir⟩) :: w.handles⟩, call :: seek⟩

/-- The handle at an address. -/
def handleAt (p : ℕ) : Option Handle := w.handles.lookup p

/-- Lets go of the handle at an address, which is of the slot `i`. -/
def drop (p : ℕ) (i : Slot) : World :=
  ⟨w.vfs.unpin i, w.handles.filter fun h => h.1 ≠ p⟩

/-- `vfs_close` of an open file, `none` for `NULL`. -/
def close : Option ℕ → Option Outcome
  | none => some (w.fail errInval)
  | some p =>
    match w.handleAt p with
    | none => none
    | some h =>
      if h.drv.has .close then
        some ⟨a.rc, w.drop p h.mnt, [⟨h.mnt, .op .close, (w.vfs.mounts h.mnt).priv⟩]⟩
      else some ⟨vfsOk, w.drop p h.mnt, []⟩

/-- A callback on an open handle that `vfs.c` passes on, if the driver has
it. -/
def pass (h : Handle) (op : Op) : Outcome :=
  if h.drv.has op then ⟨a.rc, w, [⟨h.mnt, .op op, (w.vfs.mounts h.mnt).priv⟩]⟩
  else w.fail errNotsup

/-- `vfs_read` into a buffer (`buf` says whether there is one). -/
def read (p : Option ℕ) (buf : Bool) (len : ℕ) : Option Outcome :=
  match p with
  | none => some (w.fail errInval)
  | some p =>
    if ¬ buf ∧ len ≠ 0 then some (w.fail errInval)
    else
      (w.handleAt p).map fun h =>
        if h.isDir then w.fail errIsdir
        else if h.flags % 4 = 1 then w.fail errInval
        else w.pass a h .read

/-- `vfs_write` from a buffer. -/
def write (p : Option ℕ) (buf : Bool) (len : ℕ) : Option Outcome :=
  match p with
  | none => some (w.fail errInval)
  | some p =>
    if ¬ buf ∧ len ≠ 0 then some (w.fail errInval)
    else
      (w.handleAt p).map fun h =>
        if h.isDir then w.fail errIsdir
        else if h.flags % 4 = 0 then w.fail errInval
        else w.pass a h .write

/-- `vfs_seek`. -/
def seek (p : Option ℕ) (whence : ℤ) : Option Outcome :=
  match p with
  | none => some (w.fail errInval)
  | some p =>
    if whence ≠ 0 ∧ whence ≠ 1 ∧ whence ≠ 2 then some (w.fail errInval)
    else
      (w.handleAt p).map fun h =>
        if h.isDir then w.fail errIsdir
        else w.pass a h .seek

/-- A call on a path that opens nothing. `rootRc` is the error for a path
that is a mountpoint itself, if that is one. -/
def pathOp (path : Str) (rootRc : Option ℤ) (op : Op) : Option Outcome :=
  match w.vfs.locate path with
  | .error rc => some (w.fail rc)
  | .ok (i, rel, s) =>
    if h : rel = [] ∧ rootRc.isSome then some ⟨rootRc.get h.2, w.withVfs (s.unpin i), []⟩
    else
      match (s.mounts i).drv with
      | none => none
      | some drv =>
        if drv.has op then
          some ⟨a.rc, w.withVfs (s.unpin i), [⟨i, .op op, (s.mounts i).priv⟩]⟩
        else some ⟨errNotsup, w.withVfs (s.unpin i), []⟩

/-- `vfs_stat`. -/
def stat (path : Str) : Option Outcome := w.pathOp a path none .stat

/-- `vfs_mkdir`. -/
def mkdir (path : Str) : Option Outcome := w.pathOp a path (some errExist) .mkdir

/-- `vfs_rmdir`. -/
def rmdir (path : Str) : Option Outcome := w.pathOp a path (some errBusy) .rmdir

/-- `vfs_opendir`. -/
def opendir (path : Str) : Option Outcome :=
  match w.vfs.locate path with
  | .error rc => some (w.fail rc)
  | .ok (i, _, s) =>
    match (s.mounts i).drv with
    | none => none
    | some drv =>
      if ¬ (drv.has .opendir ∧ drv.has .readdir ∧ drv.has .closedir) then
        some ⟨errNotsup, w.withVfs (s.unpin i), []⟩
      else
        match a.alloc with
        | none => some ⟨errNomem, w.withVfs (s.unpin i), []⟩
        | some d =>
          let call : DrvCall := ⟨i, .op .opendir, (s.mounts i).priv⟩
          if a.rc ≠ vfsOk then some ⟨a.rc, w.withVfs (s.unpin i), [call]⟩
          else some ⟨vfsOk, ⟨s, (d, ⟨i, drv, false, 0, true⟩) :: w.handles⟩, [call]⟩

/-- `vfs_readdir`. -/
def readdir : Option ℕ → Option Outcome
  | none => some (w.fail errInval)
  | some p =>
    (w.handleAt p).map fun h => ⟨a.rc, w, [⟨h.mnt, .op .readdir, (w.vfs.mounts h.mnt).priv⟩]⟩

/-- `vfs_closedir`. -/
def closedir : Option ℕ → Option Outcome
  | none => some (w.fail errInval)
  | some p =>
    (w.handleAt p).map fun h =>
      ⟨a.rc, w.drop p h.mnt, [⟨h.mnt, .op .closedir, (w.vfs.mounts h.mnt).priv⟩]⟩

/-- `vfs_chdir`. -/
def chdir (path : Str) : Option Outcome :=
  match w.vfs.abspath path pathMax with
  | none => some (w.fail errInval)
  | some norm =>
    (w.stat a norm).map fun o =>
      if o.rc ≠ vfsOk then o
      else if ¬ a.isDir then { o with rc := errNotdir }
      else { o with world := o.world.withVfs { o.world.vfs with cwd := strncpy norm pathMax } }

end World

/-- The calls. A handle passed in is `NULL` or one that is open and of the
right kind. -/
inductive Call
  | register (d : Driver)
  | mount (fsName mountpoint dev : Str)
  | unmount (mountpoint : Str)
  | open (path : Str) (flags : ℕ)
  | close (f : Option ℕ)
  | read (f : Option ℕ) (buf : Bool) (len : ℕ)
  | write (f : Option ℕ) (buf : Bool) (len : ℕ)
  | seek (f : Option ℕ) (whence : ℤ)
  | stat (path : Str)
  | mkdir (path : Str)
  | rmdir (path : Str)
  | opendir (path : Str)
  | readdir (d : Option ℕ)
  | closedir (d : Option ℕ)
  | chdir (path : Str)

/-- One call. -/
def World.call (w : World) (a : Answers) : Call → Option Outcome
  | .register d => some (w.register d)
  | .mount fsName mountpoint dev => some (w.mount a fsName mountpoint dev)
  | .unmount mountpoint => w.unmount a mountpoint
  | .open path flags => w.open_ a path flags
  | .close f => w.close a f
  | .read f buf len => w.read a f buf len
  | .write f buf len => w.write a f buf len
  | .seek f whence => w.seek a f whence
  | .stat path => w.stat a path
  | .mkdir path => w.mkdir a path
  | .rmdir path => w.rmdir a path
  | .opendir path => w.opendir a path
  | .readdir d => w.readdir a d
  | .closedir d => w.closedir a d
  | .chdir path => w.chdir a path

/-- The handle argument of a call, with its kind. -/
def Call.handle? : Call → Option (ℕ × Bool)
  | .close f | .read f _ _ | .write f _ _ | .seek f _ => f.map (·, true)
  | .readdir d | .closedir d => d.map (·, false)
  | _ => none

/-- The caller's and the allocator's side of a call: a handle argument is an
open handle of its kind, and a block of `kmalloc` is none of the open
handles and lies below `PMM_MAX_PHYS`. -/
structure Valid (w : World) (a : Answers) (c : Call) : Prop where
  handle : ∀ p k, c.handle? = some (p, k) → ∃ h, w.handleAt p = some h ∧ h.isFile = k
  alloc : ∀ p, a.alloc = some p → p ∉ w.handles.map Prod.fst ∧ p < 512 * 1024 * 1024

/-- The VFS under any sequence of calls. -/
def vfs : System World (Call × Answers) where
  init w := w = ⟨initVfs, []⟩
  step w x w' := Valid w x.2 x.1 ∧ ∃ o, w.call x.2 x.1 = some o ∧ o.world = w'

end Vfs

end Csos

import Csos.Ramfs.Model
import Csos.Vdev.Model
/-!
# The device file system — the model

`devfs.c`: each mount keeps a tree of nodes for the registered devices and is
told of them as a listener of `vdev.c`. The nodes and the lists of children are
those of `ramfs.c`, whose functions `devfs_child_find`, `devfs_child_link`,
`devfs_child_unlink` and the walk of `devfs_find_locked` repeat; the device of a
node stands beside it, and the buffer of a node is not used. `kmalloc` does not
fail: what it gives is an argument of the calls that ask it. A call runs under
the lock of the mount, and a callback under the lock of the registry too; so a
run is a sequence of calls.
-/

namespace Csos

namespace Devfs

open Vfs Ramfs

/-- `devfs_sb_t` with the handles that are open on the mount; `dev` is the `dev`
of the nodes. -/
structure Sb where
  tree : Ramfs.State
  dev : Ramfs.Addr → Option Vdev.Addr

/-! ## Attaching -/

/-- `devfs_new_node` and `devfs_child_link`. -/
def newChild (sb : Sb) (dir n : Ramfs.Addr) (name : Str) (isDir : Bool) : Sb where
  tree := childLink ({ sb.tree with live := Function.update sb.tree.live n true }.modify n
    fun _ => newNode name isDir) dir n
  dev := Function.update sb.dev n none

/-- The end of `devfs_attach_locked`, at the last component. -/
def attachLast (sb : Sb) (d : Vdev.Addr) (child : Ramfs.Addr) : ℤ × Sb :=
  if (sb.tree.node child).isDir = true ∨ (sb.dev child).isSome then (errExist, sb)
  else (vfsOk, { sb with dev := Function.update sb.dev child (some d) })

/-- The loop of `devfs_attach_locked` at `cur`; `mem` is what `kmalloc` gives
next. It returns what `kmalloc` gives afterwards too. -/
def attachLoop (d : Vdev.Addr) : ℕ → Str → Ramfs.Addr → (ℕ → Ramfs.Addr) → Sb →
    (ℤ × Sb) × (ℕ → Ramfs.Addr)
  | 0, _, _, mem, sb => ((errInval, sb), mem)
  | fuel + 1, p, cur, mem, sb =>
    let p := p.dropWhile (· = slash)
    if p = [] then ((errInval, sb), mem)
    else
      let comp := p.takeWhile (· ≠ slash)
      let p := p.dropWhile (· ≠ slash)
      if nameMax ≤ comp.length then ((errInval, sb), mem)
      else
        match childFind sb.tree cur comp with
        | some child =>
          if p = [] then (attachLast sb d child, mem)
          else if (sb.tree.node child).isDir = false then ((errNotdir, sb), mem)
          else attachLoop d fuel p child mem sb
        | none =>
          let child := mem 0
          let sb := newChild sb cur child comp (p ≠ [])
          if p = [] then (attachLast sb d child, fun i => mem (i + 1))
          else attachLoop d fuel p child (fun i => mem (i + 1)) sb

/-- `devfs_attach_locked`. -/
def devfsAttach (name : Str) (d : Vdev.Addr) (mem : ℕ → Ramfs.Addr) (sb : Sb) :
    (ℤ × Sb) × (ℕ → Ramfs.Addr) :=
  if name = [] then ((errInval, sb), mem) else attachLoop d (name.length + 1) name sb.tree.root mem sb

/-! ## Detaching -/

/-- `devfs_find_locked`. -/
def devfsFind (sb : Sb) (name : Str) : Option Ramfs.Addr := (lookup sb.tree name).toOption

/-- `devfs_child_unlink` and `kfree`. -/
def freeNode (sb : Sb) (n : Ramfs.Addr) : Sb :=
  { sb with tree := { childUnlink sb.tree n with
      live := Function.update (childUnlink sb.tree n).live n false } }

/-- The loop of `devfs_detach_locked` over the directories that are left
empty. -/
def pruneLoop : ℕ → Option Ramfs.Addr → Sb → Sb
  | 0, _, sb => sb
  | _ + 1, none, sb => sb
  | fuel + 1, some dir, sb =>
    let x := sb.tree.node dir
    if dir ≠ sb.tree.root ∧ x.child = none ∧ sb.dev dir = none ∧ x.refs = 0 then
      pruneLoop fuel x.parent (freeNode sb dir)
    else sb

/-- `devfs_detach_locked`. -/
def devfsDetach (name : Str) (d : Vdev.Addr) (sb : Sb) : ℤ × Sb :=
  match devfsFind sb name with
  | none => (errNoent, sb)
  | some n =>
    if sb.dev n ≠ some d then (errNoent, sb)
    else if (sb.tree.node n).refs ≠ 0 then (errBusy, sb)
    else (vfsOk, pruneLoop (name.length + 1) (sb.tree.node n).parent (freeNode sb n))

/-! ## Handles -/

/-- `devfs_open` with a handle at `h`; `rc` is what the `open` of the driver
returns, or `VFS_OK` if it has none. A registered device is a character or a
block device. -/
def devfsOpen (sb : Sb) (h : Ramfs.Addr) (rel : Str) (flags : ℕ) (rc : ℤ) : ℤ × Sb :=
  if flags &&& oCreat ≠ 0 ∨ flags &&& oTrunc ≠ 0 then (errNotsup, sb)
  else match devfsFind sb rel with
    | none => (errNoent, sb)
    | some n =>
      if (sb.tree.node n).isDir = true then
        if flags &&& oDirectory = 0 then (errIsdir, sb)
        else
          let t := sb.tree.modify n Node.ref
          (vfsOk, { sb with tree := { t with
            files := Function.update t.files h (some ⟨n, 0, true, 0⟩) } })
      else if flags &&& oDirectory ≠ 0 then (errNotdir, sb)
      else if (sb.dev n).isNone then (errNoent, sb)
      else
        let t := sb.tree.modify n Node.ref
        if rc ≠ vfsOk then (rc, { sb with tree := t.modify n Node.unref })
        else (vfsOk, { sb with tree := { t with
          files := Function.update t.files h (some ⟨n, 0, false, 0⟩) } })

/-- `devfs_close`. -/
def devfsClose (sb : Sb) (h : Ramfs.Addr) (f : File) : Sb :=
  let t := sb.tree.modify f.node Node.unref
  { sb with tree := { t with files := Function.update t.files h none } }

/-- `devfs_opendir` with a handle at `h`. -/
def devfsOpendir (sb : Sb) (h : Ramfs.Addr) (rel : Str) : ℤ × Sb :=
  match devfsFind sb rel with
  | none => (errNoent, sb)
  | some n =>
    if (sb.tree.node n).isDir = false then (errNotdir, sb)
    else
      let t := sb.tree.modify n Node.ref
      (vfsOk, { sb with tree := { t with dirs := Function.update t.dirs h (some ⟨n, none⟩) } })

/-- `devfs_readdir`. -/
def devfsReaddir (sb : Sb) (h : Ramfs.Addr) (d : Dir) : ℤ × Sb :=
  match nextNode sb.tree d with
  | none => (errNoent, sb)
  | some next =>
    let t := sb.tree.modify next Node.ref
    let t := match d.pos with
      | some prev => t.modify prev Node.unref
      | none => t
    (vfsOk, { sb with tree := { t with
      dirs := Function.update t.dirs h (some { d with pos := some next }) } })

/-- `devfs_closedir`. -/
def devfsClosedir (sb : Sb) (h : Ramfs.Addr) (d : Dir) : Sb :=
  let t := match d.pos with
    | some prev => sb.tree.modify prev Node.unref
    | none => sb.tree
  let t := t.modify d.node Node.unref
  { sb with tree := { t with dirs := Function.update t.dirs h none } }

/-! ## The system -/

/-- The registry and the mounts, by the address of their listener. -/
structure State where
  reg : Vdev.State
  sbs : Vdev.Addr → Option Sb

/-- The listener of a mount has both callbacks. -/
def listener (_ : Vdev.Addr) : Vdev.Listener := ⟨true, true⟩

/-- The registered devices, in the order of `g_devs`. -/
def State.devs (s : State) : List Vdev.Addr := chain s.reg.next Vdev.addrEnd s.reg.devs

/-- A callback is made of the mounts in a list of listeners. -/
def tellAll (f : Vdev.Addr → Sb → Sb) (sbs : Vdev.Addr → Option Sb) :
    List Vdev.Addr → Vdev.Addr → Option Sb
  | [] => sbs
  | l :: ls => tellAll f (Function.update sbs l ((sbs l).map (f l))) ls

section

variable (dev : Vdev.Addr → Vdev.Device)

/-- The replay of `vdev_listen`. -/
def replay (mem : ℕ → Ramfs.Addr) (sb : Sb) : List Vdev.Addr → Sb
  | [] => sb
  | d :: ds =>
    let r := devfsAttach (dev d).name d mem sb
    replay r.2 r.1.2 ds

/-- A call. -/
inductive Call
  | register (d : Vdev.Addr) (mem : Vdev.Addr → ℕ → Ramfs.Addr)
  | unregister (d : Vdev.Addr)
  | mount (a : Vdev.Addr) (node : Ramfs.Addr → Node) (root : Ramfs.Addr) (mem : ℕ → Ramfs.Addr)
  | unmount (a : Vdev.Addr)
  | openFile (a : Vdev.Addr) (h : Ramfs.Addr) (rel : Str) (flags : ℕ) (rc : ℤ)
  | close (a : Vdev.Addr) (h : Ramfs.Addr)
  | opendir (a : Vdev.Addr) (h : Ramfs.Addr) (rel : Str)
  | readdir (a : Vdev.Addr) (h : Ramfs.Addr)
  | closedir (a : Vdev.Addr) (h : Ramfs.Addr)

/-- A call on the mount at `a`. -/
def State.on (s : State) (a : Vdev.Addr) (f : Sb → ℤ × Sb) : ℤ × State :=
  match s.sbs a with
  | none => (errInval, s)
  | some sb => ((f sb).1, { s with sbs := Function.update s.sbs a (some (f sb).2) })

/-- **A call**, with what it returns. What the callbacks return is ignored. -/
def call (s : State) : Call → ℤ × State
  | .register d mem =>
    let r := Vdev.vdevRegister dev listener s.reg (some d)
    (r.1, { reg := r.2
            sbs := if r.1 = vfsOk then
              tellAll (fun l sb => (devfsAttach (dev d).name d (mem l) sb).1.2) s.sbs
                (chain s.reg.lnext Vdev.addrEnd s.reg.listeners)
            else s.sbs })
  | .unregister d =>
    let r := Vdev.vdevUnregister listener s.reg (some d)
    (r.1, { reg := r.2
            sbs := if r.1 = vfsOk then
              tellAll (fun _ sb => (devfsDetach (dev d).name d sb).2) s.sbs
                (chain s.reg.lnext Vdev.addrEnd s.reg.listeners)
            else s.sbs })
  | .mount a node root mem =>
    (vfsOk, { reg := Vdev.vdevListen listener s.reg (some a)
              sbs := Function.update s.sbs a
                (some (replay dev mem ⟨mounted node root, fun _ => none⟩ s.devs)) })
  | .unmount a =>
    (vfsOk, { reg := Vdev.vdevUnlisten s.reg (some a)
              sbs := Function.update s.sbs a none })
  | .openFile a h rel flags rc => s.on a fun sb => devfsOpen sb h rel flags rc
  | .close a h => s.on a fun sb => match sb.tree.files h with
    | none => (errInval, sb)
    | some f => (vfsOk, devfsClose sb h f)
  | .opendir a h rel => s.on a fun sb => devfsOpendir sb h rel
  | .readdir a h => s.on a fun sb => match sb.tree.dirs h with
    | none => (errInval, sb)
    | some d => devfsReaddir sb h d
  | .closedir a h => s.on a fun sb => match sb.tree.dirs h with
    | none => (errInval, sb)
    | some d => (vfsOk, devfsClosedir sb h d)

end

end Devfs

end Csos

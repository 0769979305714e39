import Mathlib.Data.List.Lex
import Csos.Common.Bytes
import Csos.Vfs.Model
/-!
# The RAM file system — the model

`ramfs.c`: a tree of nodes in memory, with the handles that `vfs.c` keeps for
it. A node is at an address; its children are a list through `sibling`,
sorted by name. What a freed node holds stays there until `kmalloc` gives
the block again. What `kmalloc` answers is an argument of the calls that ask
it: a block that is not in use or NULL, and for a buffer its first contents.
Each call runs under the lock of the mount, `ramfs_seek` apart, which changes
nothing but its own handle; so a run is a sequence of calls.
-/

namespace Csos

namespace Ramfs

open Vfs

/-- `VFS_ERR_NOTEMPTY`. -/
abbrev errNotempty : ℤ := -13
/-- `VFS_O_RDONLY`. -/
abbrev oRdonly : ℕ := 0
/-- `VFS_O_CREAT`. -/
abbrev oCreat : ℕ := 0x40
/-- `VFS_O_TRUNC`. -/
abbrev oTrunc : ℕ := 0x200
/-- `VFS_O_APPEND`. -/
abbrev oAppend : ℕ := 0x400
/-- `VFS_O_DIRECTORY`. -/
abbrev oDirectory : ℕ := 0x1000
/-- `VFS_SEEK_SET`. -/
abbrev seekSet : ℤ := 0
/-- `VFS_SEEK_CUR`. -/
abbrev seekCur : ℤ := 1
/-- `VFS_NAME_MAX`. -/
abbrev nameMax : ℕ := 64
/-- `RAMFS_DEF_CAP`. -/
abbrev defCap : ℕ := 512

/-- The end of the memory that `kmalloc` gives blocks of: no more than 131072
pages are managed. -/
@[irreducible]
def heapEnd : ℕ := 131072 * 4096

/-- The address of a block. -/
abbrev Addr := ℕ

/-- `ramfs_node_t`; `data` is the buffer that is pointed at. -/
structure Node where
  name : Str
  data : Option Bytes
  size : ℕ
  cap : ℕ
  isDir : Bool
  refs : ℕ
  parent : Option Addr
  child : Option Addr
  sibling : Option Addr

/-- The fields of `vfs_file_t` that the driver uses; `node` is `priv`. -/
structure File where
  node : Addr
  pos : ℕ
  isDir : Bool
  size : ℕ

/-- The fields of `vfs_dir_t` that the driver uses; `node` is `priv`. -/
structure Dir where
  node : Addr
  pos : Option Addr

/-- A mount: its nodes, which of the blocks are in use, and the handles that
are open on it. -/
structure State where
  node : Addr → Node
  live : Addr → Bool
  root : Addr
  files : Addr → Option File
  dirs : Addr → Option Dir

/-- Writes to fields of a node. -/
def State.modify (s : State) (a : Addr) (f : Node → Node) : State :=
  { s with node := Function.update s.node a (f (s.node a)) }

/-! ## Children -/

/-- `kernel_strcmp` of two names. -/
def strcmp : Str → Str → ℤ
  | [], [] => 0
  | [], b :: _ => - b.toNat
  | a :: _, [] => a.toNat
  | a :: as, b :: bs => if a = b then strcmp as bs else a.toNat - b.toNat

/-- Bytes are ordered by value, and so names as lists of bytes. -/
instance instLinearOrderUInt8 : LinearOrder UInt8 where
  le_refl := UInt8.le_refl
  le_trans _ _ _ := UInt8.le_trans
  le_antisymm _ _ := UInt8.le_antisymm
  le_total := UInt8.le_total
  lt_iff_le_not_ge a b := by
    rw [UInt8.not_le]
    exact ⟨fun h => ⟨UInt8.le_of_lt h, h⟩, fun h => h.2⟩
  toDecidableLE := inferInstance

/-- The loop of `ramfs_child_find`. -/
def findLoop (s : State) (comp : Str) : ℕ → Option Addr → Option Addr
  | 0, _ => none
  | _ + 1, none => none
  | fuel + 1, some c =>
    if (s.node c).name = comp then some c else findLoop s comp fuel (s.node c).sibling

/-- `ramfs_child_find`. -/
def childFind (s : State) (dir : Addr) (comp : Str) : Option Addr :=
  findLoop s comp heapEnd (s.node dir).child

/-- The loop of `ramfs_child_link`: the node whose link `pp` is, if it is not
the `child` of the directory, and `*pp`. -/
def linkLoop (s : State) (name : Str) : ℕ → Option Addr → Option Addr → Option Addr × Option Addr
  | 0, prev, cur => (prev, cur)
  | _ + 1, prev, none => (prev, none)
  | fuel + 1, prev, some c =>
    if strcmp (s.node c).name name < 0 then linkLoop s name fuel (some c) (s.node c).sibling
    else (prev, some c)

/-- `*pp = v`. -/
def setLink (s : State) (dir : Addr) (prev v : Option Addr) : State :=
  match prev with
  | none => s.modify dir fun n => { n with child := v }
  | some p => s.modify p fun n => { n with sibling := v }

/-- `ramfs_child_link`. -/
def childLink (s : State) (dir node : Addr) : State :=
  let pp := linkLoop s (s.node node).name heapEnd none (s.node dir).child
  let s := s.modify node fun n => { n with sibling := pp.2 }
  let s := setLink s dir pp.1 (some node)
  s.modify node fun n => { n with parent := some dir }

/-- The loop of `ramfs_child_unlink`. -/
def unlinkLoop (s : State) (node : Addr) : ℕ → Option Addr → Option Addr → Option Addr × Option Addr
  | 0, prev, cur => (prev, cur)
  | _ + 1, prev, none => (prev, none)
  | fuel + 1, prev, some c =>
    if c ≠ node then unlinkLoop s node fuel (some c) (s.node c).sibling else (prev, some c)

/-- `ramfs_child_unlink`. It is not called for the root, which has no parent. -/
def childUnlink (s : State) (node : Addr) : State :=
  match (s.node node).parent with
  | none => s
  | some dir =>
    let pp := unlinkLoop s node heapEnd none (s.node dir).child
    let s := if pp.2 = some node then setLink s dir pp.1 (s.node node).sibling else s
    s.modify node fun n => { n with sibling := none, parent := none }

/-! ## Paths -/

/-- `leaf` of `ramfs_split`. -/
def leafOf (rel : Str) : Str := rel.rtakeWhile (· ≠ slash)

/-- The part of the path that `parent_len` of `ramfs_split` leaves. -/
def parentOf (rel : Str) : Str := rel.take (rel.length - (leafOf rel).length - 1)

/-- The loop of `ramfs_lookup` with `ramfs_next_comp`. -/
def lookupLoop (s : State) : ℕ → Str → Addr → Except ℤ Addr
  | 0, _, cur => .ok cur
  | fuel + 1, path, cur =>
    let path := path.dropWhile (· = slash)
    let comp := path.takeWhile (· ≠ slash)
    if comp = [] then .ok cur
    else if (s.node cur).isDir = false then .error errNotdir
    else match childFind s cur comp with
      | none => .error errNoent
      | some c => lookupLoop s fuel (path.dropWhile (· ≠ slash)) c

/-- `ramfs_lookup`. -/
def lookup (s : State) (path : Str) : Except ℤ Addr := lookupLoop s (path.length + 1) path s.root

/-- A node as `ramfs_create_locked` fills it. -/
def newNode (name : Str) (isDir : Bool) : Node := ⟨name, none, 0, 0, isDir, 0, none, none, none⟩

/-- `ramfs_create_locked`, with the answer of `kmalloc`. -/
def createLocked (s : State) (rel : Str) (isDir : Bool) (mem : Option Addr) :
    Except ℤ Addr × State :=
  let leaf := leafOf rel
  if leaf.length = 0 ∨ nameMax ≤ leaf.length then (.error errInval, s)
  else match lookup s (parentOf rel) with
    | .error e => (.error e, s)
    | .ok parent =>
      if (s.node parent).isDir = false then (.error errNotdir, s)
      else if (childFind s parent leaf).isSome then (.error errExist, s)
      else match mem with
        | none => (.error errNomem, s)
        | some n =>
          let s := { s with live := Function.update s.live n true }
          (.ok n, childLink (s.modify n fun _ => newNode leaf isDir) parent n)

/-! ## Buffers -/

/-- The loop of `ramfs_grow`. -/
def growLoop (need : ℕ) : ℕ → ℕ → ℕ
  | 0, ncap => ncap
  | fuel + 1, ncap => if ncap < need then growLoop need fuel (ncap * 2 % 2 ^ 64) else ncap

/-- `ncap` before the loop. -/
def Node.firstCap (n : Node) : ℕ := if n.cap ≠ 0 then n.cap else defCap

/-- `ncap` after it: what is asked of `kmalloc`. -/
def Node.newCap (n : Node) (need : ℕ) : ℕ := growLoop need 64 n.firstCap

/-- The buffer is large enough as it is. -/
def Node.fits (n : Node) (need : ℕ) : Bool := n.data.isSome ∧ need ≤ n.firstCap

/-- `ramfs_grow`, with the answer of `kmalloc`; `none` is `VFS_ERR_NOMEM`. -/
def grow (n : Node) (need : ℕ) (mem : Option Bytes) : Option Node :=
  if n.fits need then some n
  else match mem with
    | none => none
    | some buf =>
      let buf := match n.data with
        | none => buf
        | some old => if n.size ≠ 0 then buf.blit 0 (n.size % 2 ^ 32) old else buf
      some { n with data := some buf, cap := n.newCap need }

/-! ## Calls -/

/-- What a call answers: its code, and what it stores for the caller. -/
inductive Answer
  | code (rc : ℤ)
  | read (rc : ℤ) (bytes : List UInt8)
  | stat (size : ℕ) (isDir : Bool)
  | entry (name : Str) (isDir : Bool) (size : ℕ)
  deriving DecidableEq

/-- `x++` of a `uint32_t`. -/
@[irreducible]
def succ32 (x : ℕ) : ℕ := if x + 1 < 2 ^ 32 then x + 1 else 0

/-- `x--` of a `uint32_t`. -/
@[irreducible]
def pred32 (x : ℕ) : ℕ := if 0 < x then x - 1 else 2 ^ 32 - 1

/-- `refs++`. -/
def Node.ref (n : Node) : Node := { n with refs := succ32 n.refs }

/-- `refs--`. -/
def Node.unref (n : Node) : Node := { n with refs := pred32 n.refs }

/-- The lookup of `ramfs_open`, which may create the file. -/
def openLookup (s : State) (rel : Str) (flags : ℕ) (mem : Option Addr) : Except ℤ Addr × State :=
  match lookup s rel with
  | .error e =>
    if e = errNoent ∧ flags &&& oCreat ≠ 0 ∧ flags &&& oDirectory = 0 then
      createLocked s rel false mem
    else (.error e, s)
  | .ok n => (.ok n, s)

/-- `O_TRUNC` of `ramfs_open`. -/
def truncate (s : State) (n : Addr) (flags : ℕ) : State :=
  if (s.node n).isDir = false ∧ flags &&& oTrunc ≠ 0 ∧ flags &&& 3 ≠ oRdonly then
    s.modify n fun n => { n with size := 0 }
  else s

/-- The handle that `ramfs_open` fills. -/
def openHandle (n : Addr) (x : Node) (flags : ℕ) : File :=
  ⟨n, if x.isDir = false ∧ flags &&& oAppend ≠ 0 then x.size else 0, x.isDir, x.size⟩

/-- `ramfs_open` with a handle at `h`. -/
def ramfsOpen (s : State) (h : Addr) (rel : Str) (flags : ℕ) (mem : Option Addr) : ℤ × State :=
  match openLookup s rel flags mem with
  | (.error e, s) => (e, s)
  | (.ok n, s) =>
    if (s.node n).isDir = true ∧ flags &&& oDirectory = 0 then (errIsdir, s)
    else if (s.node n).isDir = false ∧ flags &&& oDirectory ≠ 0 then (errNotdir, s)
    else
      let s := (truncate s n flags).modify n Node.ref
      (vfsOk, { s with files := Function.update s.files h (some (openHandle n (s.node n) flags)) })

/-- `ramfs_close`. -/
def ramfsClose (s : State) (h : Addr) (f : File) : State :=
  let s := s.modify f.node Node.unref
  { s with files := Function.update s.files h none }

/-- `n->data[i]`. -/
def Node.byte (n : Node) (i : ℕ) : UInt8 :=
  match n.data with
  | none => 0
  | some data => data i

/-- `ramfs_read` of `len` bytes. -/
def ramfsRead (s : State) (h : Addr) (f : File) (len : ℕ) : Answer × State :=
  if f.isDir = true then (.code errIsdir, s)
  else
    let n := s.node f.node
    let avail := if f.pos < n.size then n.size - f.pos else 0
    let len := if avail < len then avail else len
    (.read len ((List.range (len % 2 ^ 32)).map fun i => n.byte (f.pos + i)),
      { s with files := Function.update s.files h (some { f with pos := (f.pos + len) % 2 ^ 64 }) })

/-- The stores of `ramfs_write`, after `ramfs_grow`. -/
def store (n : Node) (pos : ℕ) (buf : List UInt8) : Node :=
  match n.data with
  | none => n
  | some data =>
    let data := if n.size < pos then data.blit n.size ((pos - n.size) % 2 ^ 32) (Bytes.const 0) else data
    let data := data.blit pos (buf.length % 2 ^ 32) fun i => buf.getD i 0
    { n with data := some data }

/-- `ramfs_write` of `buf`. -/
def ramfsWrite (s : State) (h : Addr) (f : File) (buf : List UInt8) (mem : Option Bytes) :
    Answer × State :=
  if f.isDir = true then (.code errIsdir, s)
  else match grow (s.node f.node) ((f.pos + buf.length) % 2 ^ 64) mem with
    | none => (.code errNomem, s)
    | some n =>
      let n := store n f.pos buf
      let pos := (f.pos + buf.length) % 2 ^ 64
      let n := if n.size < pos then { n with size := pos } else n
      let s := s.modify f.node fun _ => n
      (.code buf.length,
        { s with files := Function.update s.files h (some { f with pos := pos, size := n.size }) })

/-- `ramfs_seek`; `int64_t` arithmetic wraps. -/
def ramfsSeek (s : State) (h : Addr) (f : File) (off whence : ℤ) : Answer × State :=
  if f.isDir = true then (.code errIsdir, s)
  else
    let base := if whence = seekSet then off
      else if whence = seekCur then Int.bmod (f.pos + off) (2 ^ 64)
      else Int.bmod ((s.node f.node).size + off) (2 ^ 64)
    if base < 0 then (.code errInval, s)
    else (.code base, { s with files := Function.update s.files h (some { f with pos := base.toNat }) })

/-- `ramfs_stat`. -/
def ramfsStat (s : State) (rel : Str) : Answer :=
  match lookup s rel with
  | .error e => .code e
  | .ok n => .stat (s.node n).size (s.node n).isDir

/-- `ramfs_mkdir`. -/
def ramfsMkdir (s : State) (rel : Str) (mem : Option Addr) : ℤ × State :=
  match createLocked s rel true mem with
  | (.error e, s) => (e, s)
  | (.ok _, s) => (vfsOk, s)

/-- `ramfs_rmdir`. -/
def ramfsRmdir (s : State) (rel : Str) : ℤ × State :=
  match lookup s rel with
  | .error e => (e, s)
  | .ok n =>
    if (s.node n).isDir = false then (errNotdir, s)
    else if n = s.root then (errBusy, s)
    else if (s.node n).child ≠ none then (errNotempty, s)
    else if (s.node n).refs ≠ 0 then (errBusy, s)
    else
      let s := childUnlink s n
      (vfsOk, { s with live := Function.update s.live n false })

/-- `ramfs_opendir` with a handle at `h`. -/
def ramfsOpendir (s : State) (h : Addr) (rel : Str) : ℤ × State :=
  match lookup s rel with
  | .error e => (e, s)
  | .ok n =>
    if (s.node n).isDir = false then (errNotdir, s)
    else
      let s := s.modify n Node.ref
      (vfsOk, { s with dirs := Function.update s.dirs h (some ⟨n, none⟩) })

/-- The node that `ramfs_readdir` goes to. -/
def nextNode (s : State) (d : Dir) : Option Addr :=
  match d.pos with
  | some prev => (s.node prev).sibling
  | none => (s.node d.node).child

/-- `ramfs_readdir`. -/
def ramfsReaddir (s : State) (h : Addr) (d : Dir) : Answer × State :=
  match nextNode s d with
  | none => (.code errNoent, s)
  | some next =>
    let s := s.modify next Node.ref
    let s := match d.pos with
      | some prev => s.modify prev Node.unref
      | none => s
    (.entry (strncpy (s.node next).name nameMax) (s.node next).isDir (s.node next).size,
      { s with dirs := Function.update s.dirs h (some { d with pos := some next }) })

/-- `ramfs_closedir`. -/
def ramfsClosedir (s : State) (h : Addr) (d : Dir) : State :=
  let s := match d.pos with
    | some prev => s.modify prev Node.unref
    | none => s
  let s := s.modify d.node Node.unref
  { s with dirs := Function.update s.dirs h none }

/-! ## Runs -/

/-- `a/b/c`, without a leading separator. -/
def joinPath : List Str → Str
  | [] => []
  | [n] => n
  | n :: m :: p => n ++ slash :: joinPath (m :: p)

/-- A component of a normalised path. -/
def Component (n : Str) : Prop := n ≠ [] ∧ slash ∉ n ∧ 0 ∉ n

instance (n : Str) : Decidable (Component n) := inferInstanceAs (Decidable (_ ∧ _ ∧ _))

/-- A call on a mount. Paths are normalised and relative; `mem` is what
`kmalloc` answers if it is asked. -/
inductive Call
  | openFile (h : Addr) (path : List Str) (flags : ℕ) (mem : Option Addr)
  | close (h : Addr)
  | read (h : Addr) (len : ℕ)
  | write (h : Addr) (buf : List UInt8) (mem : Option Bytes)
  | seek (h : Addr) (off whence : ℤ)
  | stat (path : List Str)
  | mkdir (path : List Str) (mem : Option Addr)
  | rmdir (path : List Str)
  | opendir (h : Addr) (path : List Str)
  | readdir (h : Addr)
  | closedir (h : Addr)

/-- `kmalloc` gives a block that is not in use, or NULL. -/
def freshNode (s : State) (mem : Option Addr) : Bool :=
  mem.all fun n => s.live n = false ∧ n < heapEnd

/-- `kmalloc` gives a buffer only for less than `2 ^ 32` bytes. -/
def bufferOk (n : Node) (need : ℕ) (mem : Option Bytes) : Bool :=
  n.fits need ∨ n.newCap need < 2 ^ 32 ∨ mem.isNone

/-- **A call** on open handles, with what it answers. It is `none` if the call
is not one that is made: on a handle that is not open, at a position past
`2 ^ 63`, or with an answer that `kmalloc` does not give. -/
def step (s : State) : Call → Option (Answer × State)
  | .openFile h path flags mem =>
    if (∀ n ∈ path, Component n) ∧ freshNode s mem = true ∧ (s.files h).isNone ∧ h < heapEnd then
      let r := ramfsOpen s h (joinPath path) flags mem
      some (.code r.1, r.2)
    else none
  | .close h => (s.files h).map fun f => (.code vfsOk, ramfsClose s h f)
  | .read h len => (s.files h).map fun f => ramfsRead s h f len
  | .write h buf mem => (s.files h).bind fun f =>
    if f.pos + buf.length ≤ 2 ^ 63 ∧ bufferOk (s.node f.node) (f.pos + buf.length) mem = true then
      some (ramfsWrite s h f buf mem)
    else none
  | .seek h off whence => (s.files h).bind fun f =>
    if -2 ^ 63 ≤ off ∧ off < 2 ^ 63 then some (ramfsSeek s h f off whence) else none
  | .stat path =>
    if ∀ n ∈ path, Component n then some (ramfsStat s (joinPath path), s) else none
  | .mkdir path mem =>
    if (∀ n ∈ path, Component n) ∧ freshNode s mem = true then
      let r := ramfsMkdir s (joinPath path) mem
      some (.code r.1, r.2)
    else none
  | .rmdir path =>
    if ∀ n ∈ path, Component n then
      let r := ramfsRmdir s (joinPath path)
      some (.code r.1, r.2)
    else none
  | .opendir h path =>
    if (∀ n ∈ path, Component n) ∧ (s.dirs h).isNone ∧ h < heapEnd then
      let r := ramfsOpendir s h (joinPath path)
      some (.code r.1, r.2)
    else none
  | .readdir h => (s.dirs h).map fun d => ramfsReaddir s h d
  | .closedir h => (s.dirs h).map fun d => (.code vfsOk, ramfsClosedir s h d)

/-- A run of calls, with what each answers. -/
inductive Run (s₀ : State) : List (Call × Answer) → State → Prop
  | nil : Run s₀ [] s₀
  | snoc {l : List (Call × Answer)} {s s' : State} {c : Call} {a : Answer} (h : Run s₀ l s)
      (hs : step s c = some (a, s')) : Run s₀ (l ++ [(c, a)]) s'

/-- `ramfs_mount` with the root at `root`; the blocks hold what they held. -/
def mounted (node : Addr → Node) (root : Addr) : State where
  node := Function.update node root (newNode [] true)
  live := fun a => a = root
  root := root
  files := fun _ => none
  dirs := fun _ => none

end Ramfs

end Csos

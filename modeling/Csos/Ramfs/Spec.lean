import Csos.Ramfs.Model
/-!
# The RAM file system — what it is for

A finite map from paths to directories and byte arrays, and handles that name
a path and a position. A directory handle remembers the last name it has
returned, and the next one is the least name above it. Every value of `Tree`
is a tree: the root is a directory and so is the parent of every entry.
-/

namespace Csos

namespace Ramfs

open Vfs

/-- What is at a path. -/
inductive Entry
  | dir
  | file (bytes : List UInt8)
  deriving DecidableEq

/-- The size that `stat` and `readdir` give. -/
def Entry.size : Entry → ℕ
  | dir => 0
  | file bytes => bytes.length

/-- It is a directory. -/
def Entry.isDir : Entry → Bool
  | dir => true
  | file _ => false

/-- **A file system.** -/
@[ext]
structure Tree where
  entry : List Str → Option Entry
  root : entry [] = some .dir
  parent : ∀ p n, entry (p ++ [n]) ≠ none → entry p = some .dir
  finite : {p | entry p ≠ none}.Finite

namespace Tree

/-- The root alone. -/
def empty : Tree where
  entry p := if p = [] then some .dir else none
  root := if_pos rfl
  parent p n h := absurd (if_neg (by simp)) h
  finite := (Set.finite_singleton []).subset fun p hp => by
    by_contra hne
    exact hp (if_neg hne)

theorem concat_ne (p : List Str) (n : Str) : p ++ [n] ≠ p := fun he => by
  simpa using congrArg List.length he

/-- With a new entry in a directory. -/
def create (T : Tree) (p : List Str) (n : Str) (e : Entry) (hp : T.entry p = some .dir)
    (hn : T.entry (p ++ [n]) = none) : Tree where
  entry := Function.update T.entry (p ++ [n]) (some e)
  root := by
    rw [Function.update_of_ne (by simp)]
    exact T.root
  parent q m h := by
    by_cases hq : q ++ [m] = p ++ [n]
    · obtain rfl : q = p := List.append_inj_left' hq rfl
      rw [Function.update_of_ne (concat_ne q n).symm, hp]
    · rw [Function.update_of_ne hq] at h
      have hdir := T.parent q m h
      have hne : q ≠ p ++ [n] := fun he => by
        rw [he, hn] at hdir
        exact absurd hdir (by simp)
      rw [Function.update_of_ne hne, hdir]
  finite := (T.finite.insert (p ++ [n])).subset fun q hq => by
    by_cases he : q = p ++ [n]
    · exact .inl he
    · exact .inr (by simpa [Function.update_of_ne he] using hq)

/-- Without an entry that has nothing below it. -/
def remove (T : Tree) (p : List Str) (n : Str) (hn : ∀ m, T.entry (p ++ [n] ++ [m]) = none) :
    Tree where
  entry := Function.update T.entry (p ++ [n]) none
  root := by
    rw [Function.update_of_ne (by simp)]
    exact T.root
  parent q m h := by
    have hq : q ++ [m] ≠ p ++ [n] := fun he => h (by rw [he, Function.update_self])
    rw [Function.update_of_ne hq] at h
    have hne : q ≠ p ++ [n] := fun he => h (he ▸ hn m)
    rw [Function.update_of_ne hne]
    exact T.parent q m h
  finite := T.finite.subset fun q hq => by
    have he : q ≠ p ++ [n] := fun he => hq (by rw [he, Function.update_self])
    simpa [Function.update_of_ne he] using hq

/-- With other contents of a file. -/
def setBytes (T : Tree) (p : List Str) (old bytes : List UInt8)
    (hp : T.entry p = some (.file old)) : Tree where
  entry := Function.update T.entry p (some (.file bytes))
  root := by
    have hne : [] ≠ p := fun he => by
      rw [← he, T.root] at hp
      exact absurd hp (by simp)
    rw [Function.update_of_ne hne]
    exact T.root
  parent q m h := by
    have hdir : T.entry q = some .dir := by
      by_cases hq : q ++ [m] = p
      · exact T.parent q m (by rw [hq, hp]; simp)
      · rw [Function.update_of_ne hq] at h
        exact T.parent q m h
    have hne : q ≠ p := fun he => by
      rw [he, hp] at hdir
      exact absurd hdir (by simp)
    rw [Function.update_of_ne hne, hdir]
  finite := T.finite.subset fun q hq => by
    by_cases he : q = p
    · subst he
      simp [hp]
    · simpa [Function.update_of_ne he] using hq

/-- An entry and where it is. -/
structure Found (T : Tree) where
  path : List Str
  entry : Entry
  here : T.entry path = some entry

/-- A path is looked up name by name: what stands before a name must be a
directory. -/
def find (T : Tree) : List Str → List Str → Except ℤ T.Found
  | q, [] => match h : T.entry q with
    | none => .error errNoent
    | some e => .ok ⟨q, e, h⟩
  | q, n :: p => match T.entry q with
    | none => .error errNoent
    | some (.file _) => .error errNotdir
    | some .dir => find T (q ++ [n]) p

/-- The names in a directory. -/
def names (T : Tree) (p : List Str) : Set Str := {n | T.entry (p ++ [n]) ≠ none}

open Classical in
/-- The least name in a directory above the one before. -/
noncomputable def nextName (T : Tree) (p : List Str) (last : Option Str) : Option Str :=
  if h : ∃ n, IsLeast {n | n ∈ T.names p ∧ ∀ l, last = some l → l < n} n then some h.choose else none

end Tree

/-! ## Contents -/

/-- **A write**: zeros up to the position, then the buffer over what is there. -/
def writeAt (bytes : List UInt8) (pos : ℕ) (buf : List UInt8) : List UInt8 :=
  (List.range (max bytes.length (pos + buf.length))).map fun i =>
    if pos ≤ i ∧ i < pos + buf.length then buf.getD (i - pos) 0 else bytes.getD i 0

/-! ## Calls -/

/-- A file handle. -/
structure FileView where
  path : List Str
  pos : ℕ
  isDir : Bool

/-- A directory handle, with the last name it has returned. -/
structure DirView where
  path : List Str
  last : Option Str

/-- A mount. -/
structure View where
  tree : Tree
  files : Addr → Option FileView
  dirs : Addr → Option DirView

namespace View

variable (t : View)

/-- A handle is open on the path, or a directory handle stands at it. -/
def Referenced (p : List Str) : Prop :=
  (∃ h f, t.files h = some f ∧ f.path = p) ∨ (∃ h d, t.dirs h = some d ∧ d.path = p) ∨
    ∃ h d n, t.dirs h = some d ∧ d.last = some n ∧ d.path ++ [n] = p

/-- **A new entry** needs a name of 1 to 63 bytes, a parent that is a directory
and an absent name. -/
def create (path : List Str) (e : Entry) (mem : Option Addr) : Except ℤ (List Str × Entry) × View :=
  match path.getLast? with
  | none => (.error errInval, t)
  | some n =>
    if 64 ≤ n.length then (.error errInval, t)
    else match t.tree.find [] path.dropLast with
      | .error rc => (.error rc, t)
      | .ok ⟨_, .file _, _⟩ => (.error errNotdir, t)
      | .ok ⟨p, .dir, hp⟩ =>
        if hn : t.tree.entry (p ++ [n]) = none then
          match mem with
          | none => (.error errNomem, t)
          | some _ => (.ok (p ++ [n], e), { t with tree := t.tree.create p n e hp hn })
        else (.error errExist, t)

/-- The entry that `open` finds or makes. -/
def openEntry (path : List Str) (flags : ℕ) (mem : Option Addr) :
    Except ℤ (List Str × Entry) × View :=
  match t.tree.find [] path with
  | .error e =>
    if e = errNoent ∧ flags &&& oCreat ≠ 0 ∧ flags &&& oDirectory = 0 then
      t.create path (.file []) mem
    else (.error e, t)
  | .ok x => (.ok (x.path, x.entry), t)

/-- `O_TRUNC` with a writable mode empties a file. -/
def truncate (p : List Str) (flags : ℕ) : View :=
  match h : t.tree.entry p with
  | some (.file bytes) =>
    if flags &&& oTrunc ≠ 0 ∧ flags &&& 3 ≠ oRdonly then
      { t with tree := t.tree.setBytes p bytes [] h }
    else t
  | _ => t

/-- The size of what is at a path. -/
def sizeAt (p : List Str) : ℕ := ((t.tree.entry p).map Entry.size).getD 0

open Classical in
/-- **The calls.** -/
noncomputable def apply : Call → Option (Answer × View)
  | .openFile h path flags mem =>
    if (t.files h).isSome then none
    else match t.openEntry path flags mem with
      | (.error e, t) => some (.code e, t)
      | (.ok (p, e), t) =>
        if e.isDir = true ∧ flags &&& oDirectory = 0 then some (.code errIsdir, t)
        else if e.isDir = false ∧ flags &&& oDirectory ≠ 0 then some (.code errNotdir, t)
        else
          let t := t.truncate p flags
          let pos := if e.isDir = false ∧ flags &&& oAppend ≠ 0 then t.sizeAt p else 0
          some (.code vfsOk, { t with files := Function.update t.files h (some ⟨p, pos, e.isDir⟩) })
  | .close h =>
    (t.files h).map fun _ => (.code vfsOk, { t with files := Function.update t.files h none })
  | .read h len => (t.files h).map fun f =>
    match t.tree.entry f.path with
    | some (.file bytes) =>
      let got := (bytes.drop f.pos).take len
      (.read got.length got,
        { t with files := Function.update t.files h (some { f with pos := f.pos + got.length }) })
    | _ => (.code errIsdir, t)
  | .write h buf _ => (t.files h).map fun f =>
    match hf : t.tree.entry f.path with
    | some (.file bytes) =>
      (.code buf.length,
        { t with
          tree := t.tree.setBytes f.path bytes (writeAt bytes f.pos buf) hf
          files := Function.update t.files h (some { f with pos := f.pos + buf.length }) })
    | _ => (.code errIsdir, t)
  | .seek h off whence => (t.files h).map fun f =>
    if f.isDir = true then (.code errIsdir, t)
    else
      let base := if whence = seekSet then off
        else if whence = seekCur then f.pos + off else t.sizeAt f.path + off
      if 0 ≤ base ∧ base < 2 ^ 63 then
        (.code base, { t with files := Function.update t.files h (some { f with pos := base.toNat }) })
      else (.code errInval, t)
  | .stat path => match t.tree.find [] path with
    | .error e => some (.code e, t)
    | .ok x => some (.stat x.entry.size x.entry.isDir, t)
  | .mkdir path mem => match t.create path .dir mem with
    | (.error e, t) => some (.code e, t)
    | (.ok _, t) => some (.code vfsOk, t)
  | .rmdir path => match t.tree.find [] path with
    | .error e => some (.code e, t)
    | .ok ⟨_, .file _, _⟩ => some (.code errNotdir, t)
    | .ok ⟨p, .dir, _⟩ => match p.getLast? with
      | none => some (.code errBusy, t)
      | some n =>
        if hn : ∀ m, t.tree.entry (p.dropLast ++ [n] ++ [m]) = none then
          if t.Referenced p then some (.code errBusy, t)
          else some (.code vfsOk, { t with tree := t.tree.remove p.dropLast n hn })
        else some (.code errNotempty, t)
  | .opendir h path =>
    if (t.dirs h).isSome then none
    else match t.tree.find [] path with
      | .error e => some (.code e, t)
      | .ok ⟨_, .file _, _⟩ => some (.code errNotdir, t)
      | .ok ⟨p, .dir, _⟩ =>
        some (.code vfsOk, { t with dirs := Function.update t.dirs h (some ⟨p, none⟩) })
  | .readdir h => (t.dirs h).map fun d =>
    match t.tree.nextName d.path d.last with
    | none => (.code errNoent, t)
    | some n => match t.tree.entry (d.path ++ [n]) with
      | none => (.code errNoent, t)
      | some e => (.entry n e.isDir e.size,
        { t with dirs := Function.update t.dirs h (some { d with last := some n }) })
  | .closedir h =>
    (t.dirs h).map fun _ => (.code vfsOk, { t with dirs := Function.update t.dirs h none })

/-- **What a call may do**: what `apply` says, or fail for want of memory. -/
def Allowed (c : Call) (a : Answer) (t' : View) : Prop :=
  t.apply c = some (a, t') ∨
    ∃ h buf, c = .write h buf none ∧ a = .code errNomem ∧ t' = t

end View

/-- A new mount. -/
def emptyView : View := ⟨.empty, fun _ => none, fun _ => none⟩

/-- A run of calls, with what each answers. -/
inductive ViewRun : List (Call × Answer) → View → Prop
  | nil : ViewRun [] emptyView
  | snoc {l : List (Call × Answer)} {t t' : View} {c : Call} {a : Answer} (h : ViewRun l t)
      (hs : t.Allowed c a t') : ViewRun (l ++ [(c, a)]) t'

/-- The call fails. -/
def Answer.failed : Answer → Prop
  | .code rc => rc < 0
  | _ => False

end Ramfs

end Csos

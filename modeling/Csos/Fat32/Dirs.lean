import Csos.Fat32.Model
import Csos.Fat32.Names
/-!
# FAT32 — directories

The directory half of `fat32.c`: looking a name up, resolving a path, and
inserting, deleting and rewriting entries. Entry offsets are `uint32_t` and
wrap at `2 ^ 32`, so that a loop over the entries of a directory of that size
need not end; after `2 ^ 32` rounds it is given up and `hang` is set.
-/

namespace Csos

namespace Fat32

open Vfs (Str dot slash errInval errNoent errExist errNotdir errIsdir errNomem errNotsup errNodev)

/-- `VFS_ERR_NOTEMPTY`. -/
abbrev errNotempty : ℤ := -13

/-- `fat32_loc_t` of an entry that was found. -/
structure Loc where
  dirClus : ℕ
  off : ℕ
  lfnOff : ℕ
  clus : ℕ
  size : ℕ
  attr : UInt8
  name : Str

/-- The rounds after which a loop over entries is given up. -/
abbrev rounds : ℕ := 2 ^ 32

/-- A loop that does not end. -/
def Vol.hung (v : Vol) : Vol := { v with hang := true }

variable (g : Geo)

/-! ## Lookup -/

/-- The first cluster of an entry. -/
def entClus (e : Bytes) : ℕ := Bytes.load 2 e 20 * 2 ^ 16 + Bytes.load 2 e 26

/-- The long name that `fat32_dir_lookup` is collecting. -/
structure Lfn where
  units : ℕ → ℕ
  max : ℕ
  start : ℕ
  sum : UInt8
  on : Bool

/-- No long name. -/
def Lfn.reset (s : Lfn) : Lfn := { s with max := 0, on := false }

/-- An entry of a long name at offset `off`. -/
def Lfn.add (s : Lfn) (off : ℕ) (e : Bytes) : Lfn :=
  let seq := (e 0 &&& 0x1f).toNat
  let s := if s.on then s else { s with on := true, max := 0, start := off }
  if 1 ≤ seq ∧ seq ≤ 20 then
    { s with
      units := lfnStore s.units seq e
      max := if s.max < seq then seq else s.max
      sum := e 13 }
  else s

/-- The name of an entry after the long name `s`. -/
def dispName (s : Lfn) (e : Bytes) : Str :=
  if s.on ∧ 0 < s.max ∧ shortSum e = s.sum then lfnName s.units s.max nameMax
  else shortName e nameMax

/-- The loop of `fat32_dir_lookup` from entry `idx` on: the result, and the
entry if there is one of that name. -/
def lookupLoop (dirClus : ℕ) (name : Str) : ℕ → Chain → ℕ → Lfn → Vol → ℤ × Option Loc × Vol
  | 0, _, _, _, v => (errIo, none, v.hung)
  | fuel + 1, ch, idx, s, v =>
    match entRead g ch idx v with
    | (rc, e, ch, v) =>
      if rc = errEof then (fatOk, none, v)
      else if rc ≠ fatOk then (rc, none, v)
      else if e 0 = 0 then (fatOk, none, v)
      else if e 0 = 0xe5 then lookupLoop dirClus name fuel ch (idx + 1) s.reset v
      else if e 11 = attrLfn then
        lookupLoop dirClus name fuel ch (idx + 1) (s.add (idx * 32 % 2 ^ 32) e) v
      else if e 11 &&& attrVol ≠ 0 then lookupLoop dirClus name fuel ch (idx + 1) s.reset v
      else if nameEq (dispName s e) name then
        (fatOk, some
          { dirClus := dirClus
            off := idx * 32 % 2 ^ 32
            lfnOff := if s.on then s.start else idx * 32 % 2 ^ 32
            clus := entClus e
            size := Bytes.load 4 e 28
            attr := e 11
            name := Vfs.strncpy (dispName s e) nameMax }, v)
      else lookupLoop dirClus name fuel ch (idx + 1) s.reset v

/-- `fat32_dir_lookup`. -/
def dirLookup (dirClus : ℕ) (name : Str) (v : Vol) : ℤ × Option Loc × Vol :=
  lookupLoop g dirClus name rounds (chainInit dirClus) 0 ⟨v.junk, 0, 0, 0, false⟩ v

/-- The loop of `fat32_resolve_dir`: the directory that is left of the path. -/
def resolveDirLoop : ℕ → Str → ℕ → Vol → ℤ × ℕ × Vol
  | 0, _, cur, v => (fatOk, cur, v)
  | fuel + 1, p, cur, v =>
    if p = [] then (fatOk, cur, v)
    else
      let comp := (p.takeWhile (· ≠ slash)).take (nameMax - 1)
      let rest := (p.dropWhile (· ≠ slash)).drop 1
      if comp = [] then resolveDirLoop fuel rest cur v
      else
        match dirLookup g cur comp v with
        | (rc, o, v) =>
          if rc ≠ fatOk then (rc, 0, v)
          else
            match o with
            | none => (errNoent, 0, v)
            | some loc =>
              if loc.attr &&& attrDir = 0 then (errNotdir, 0, v)
              else resolveDirLoop fuel rest loc.clus v

/-- `fat32_resolve_dir`. -/
def resolveDir (rel : Str) (v : Vol) : ℤ × ℕ × Vol := resolveDirLoop g rel.length rel g.rootClus v

/-- `fat32_split`: the directory and the leaf; `none` is `VFS_ERR_INVAL`. -/
def split (rel : Str) : Option (Str × Str) :=
  let leaf := rel.rtakeWhile (· ≠ slash)
  let dir := (rel.rdropWhile (· ≠ slash)).dropLast
  if leaf = [] ∨ nameMax ≤ leaf.length then none
  else if Vfs.pathMax ≤ dir.length then none
  else some (dir, leaf)

/-- What `fat32_resolve` gives for the root. -/
def rootLoc : Loc := ⟨g.rootClus, 0, 0, g.rootClus, 0, attrDir, [slash]⟩

/-- `fat32_resolve`. -/
def resolve (rel : Str) (v : Vol) : ℤ × Option Loc × Vol :=
  if rel = [] then (fatOk, some (rootLoc g), v)
  else
    match split rel with
    | none => (errInval, none, v)
    | some (dir, leaf) =>
      match resolveDir g dir v with
      | (rc, parent, v) =>
        if rc ≠ fatOk then (rc, none, v)
        else
          match dirLookup g parent leaf v with
          | (rc, o, v) =>
            if rc ≠ fatOk then (rc, none, v)
            else if o.isNone then (errNoent, none, v)
            else (fatOk, o, v)

/-! ## New entries -/

/-- The loop of `fat32_short_exists`. -/
def shortExistsLoop (raw : Bytes) : ℕ → Chain → ℕ → Vol → Bool × Vol
  | 0, _, _, v => (false, v.hung)
  | fuel + 1, ch, i, v =>
    match entRead g ch i v with
    | (rc, e, ch, v) =>
      if rc ≠ fatOk then (false, v)
      else if e 0 = 0 then (false, v)
      else if e 0 = 0xe5 ∨ e 11 = attrLfn then shortExistsLoop raw fuel ch (i + 1) v
      else if ∀ k ∈ List.range 11, e k = raw k then (true, v)
      else shortExistsLoop raw fuel ch (i + 1) v

/-- `fat32_short_exists`. -/
def shortExists (dirClus : ℕ) (raw : Bytes) (v : Vol) : Bool × Vol :=
  shortExistsLoop g raw rounds (chainInit dirClus) 0 v

/-- The tails that `fat32_make_short` tries: `n` of them from `i` on. -/
def tildeLoop (dirClus : ℕ) (cb ce : Str) : ℕ → ℕ → Vol → Option Bytes × Vol
  | 0, _, v => (none, v)
  | n + 1, i, v =>
    match shortExists g dirClus (tildeName cb ce i) v with
    | (false, v) => (some (tildeName cb ce i), v)
    | (true, v) => tildeLoop dirClus cb ce n (i + 1) v

theorem tildeLoop_succ (d : ℕ) (cb ce : Str) (n i : ℕ) (v : Vol) :
    tildeLoop g d cb ce (n + 1) i v =
      match shortExists g d (tildeName cb ce i) v with
      | (false, v) => (some (tildeName cb ce i), v)
      | (true, v) => tildeLoop g d cb ce n (i + 1) v := rfl

/-- `fat32_make_short`: the short name and whether a long one is needed;
`none` is `VFS_ERR_NOSPC`. `nt_res` is always 0. -/
def makeShort (dirClus : ℕ) (name : Str) (v : Vol) : Option (Bytes × Bool) × Vol :=
  let (base, ext) := splitExt name
  let hasLower := name.any fun c => 0x61 ≤ c ∧ c ≤ 0x7a
  let raw := rawName (base.map upper) (ext.map upper)
  let tilde (v : Vol) : Option (Bytes × Bool) × Vol :=
    match tildeLoop g dirClus (mangledBase base) (mangledExt ext) 999 1 v with
    | (o, v) => (o.map fun raw => (raw, true), v)
  if fitsShort base ext then
    match shortExists g dirClus raw v with
    | (false, v) => (some (raw, hasLower), v)
    | (true, v) => tilde v
  else tilde v

/-- `fat32_update_entry`. -/
def updateEntry (dirClus off clus size : ℕ) (v : Vol) : ℤ × Vol :=
  match entRead g (chainInit dirClus) (off / 32) v with
  | (rc, e, ch, v) =>
    if rc ≠ fatOk then (errIo, v)
    else
      let e := Bytes.store 2 e 20 (clus / 2 ^ 16 % 2 ^ 16)
      let e := Bytes.store 2 e 26 (clus % 2 ^ 16)
      let e := Bytes.store 4 e 28 size
      match entWrite g ch (off / 32) e v with
      | (rc, _, v) => (rc, v)

/-- The loop of `fat32_find_slots` from entry `i` on: the entry, and whether
the directory has to grow. -/
def findLoop (need total : ℕ) :
    ℕ → Chain → ℕ → ℕ → ℕ → Vol → ℤ × ℕ × Bool × Chain × Vol
  | 0, ch, i, _, _, v => (fatOk, i, true, ch, v)
  | fuel + 1, ch, i, run, runStart, v =>
    if total ≤ i * 32 then (fatOk, i, true, ch, v)
    else
      match entRead g ch i v with
      | (rc, e, ch, v) =>
        if rc = errEof then (fatOk, i, true, ch, v)
        else if rc ≠ fatOk then (rc, 0, false, ch, v)
        else if e 0 = 0 then (fatOk, i, decide (total - i * 32 < need * 32), ch, v)
        else if e 0 = 0xe5 then
          let runStart := if run = 0 then i else runStart
          if need ≤ run + 1 then (fatOk, runStart, false, ch, v)
          else findLoop need total fuel ch (i + 1) (run + 1) runStart v
        else findLoop need total fuel ch (i + 1) 0 runStart v

/-- `fat32_find_slots`. -/
def findSlots (ch : Chain) (need : ℕ) (v : Vol) : ℤ × ℕ × Bool × Chain × Vol :=
  match chainCount g ch v with
  | (n, v) =>
    let total := n * g.clusBytes % 2 ^ 32
    findLoop g need total (total / 32 + 1) ch 0 0 0 v

/-- `fat32_dir_grow`: the bytes of the directory after. -/
def dirGrow (ch : Chain) (v : Vol) : ℤ × ℕ × Chain × Vol :=
  match chainCount g ch v with
  | (n, v) =>
    match chainAt g ch ((n + (2 ^ 32 - 1)) % 2 ^ 32) v with
    | (last, ch, v) =>
      if ¬ clusValid g last then (errIo, 0, ch, v)
      else
        match allocCluster g v with
        | (nc, v) =>
          if ¬ clusValid g nc then (errNospc, 0, ch, v)
          else
            match fatSet g last nc v with
            | (rc, v) =>
              if rc ≠ fatOk then (errIo, 0, ch, v)
              else (fatOk, (n + 1) * g.clusBytes % 2 ^ 32, { ch with cacheOk := false }, v)

/-- The loop of `fat32_dir_insert` that grows the directory until `need`
entries from `idx` on fit. -/
def growLoop (idx need : ℕ) : ℕ → ℕ → Chain → Vol → ℤ × Chain × Vol
  | 0, _, ch, v => (errIo, ch, v.hung)
  | fuel + 1, total, ch, v =>
    if (idx + need) % 2 ^ 32 * 32 ≤ total then (fatOk, ch, v)
    else
      match dirGrow g ch v with
      | (rc, total, ch, v) =>
        if rc ≠ fatOk then (rc, ch, v) else growLoop idx need fuel total ch v

/-- The writes of `fat32_dir_insert`, from entry `idx` on. -/
def writeSlots : List Bytes → ℕ → Chain → Vol → ℤ × Vol
  | [], _, _, v => (fatOk, v)
  | e :: es, idx, ch, v =>
    match entWrite g ch idx e v with
    | (rc, ch, v) => if rc ≠ fatOk then (rc, v) else writeSlots es (idx + 1) ch v

/-- The end of `fat32_dir_insert`: the entries are written from `idx` on. -/
def insertWrite (dirClus : ℕ) (name : Str) (isDir : Bool) (firstClus size : ℕ) (raw : Bytes)
    (lfns : List Bytes) (idx : ℕ) (ch : Chain) (v : Vol) : ℤ × Option Loc × Vol :=
  let attr := if isDir then attrDir else attrArch
  match writeSlots g (lfns ++ [makeSlot raw attr 0 firstClus size]) idx ch v with
  | (rc, v) =>
    if rc ≠ fatOk then (rc, none, v)
    else
      (fatOk, some
        { dirClus := dirClus
          off := (idx + lfns.length) * 32 % 2 ^ 32
          lfnOff := idx * 32 % 2 ^ 32
          clus := firstClus
          size := size
          attr := attr
          name := Vfs.strncpy name nameMax }, v)

/-- The middle of `fat32_dir_insert`: the directory grows until there is
room. -/
def insertRoom (dirClus : ℕ) (name : Str) (isDir : Bool) (firstClus size : ℕ) (raw : Bytes)
    (lfns : List Bytes) (idx : ℕ) (grow : Bool) (ch : Chain) (v : Vol) : ℤ × Option Loc × Vol :=
  let total := (chainCount g ch v).1 * g.clusBytes % 2 ^ 32
  let idx := if grow then total / 32 else idx
  match growLoop g idx (lfns.length + 1) (g.clusterCount + 2) total ch (chainCount g ch v).2 with
  | (rc, ch, v) =>
    if rc ≠ fatOk then (rc, none, v)
    else insertWrite g dirClus name isDir firstClus size raw lfns idx ch v

/-- `fat32_dir_insert` once it has a short name. -/
def insertNamed (dirClus : ℕ) (name : Str) (isDir : Bool) (firstClus size : ℕ) (raw : Bytes)
    (needLfn : Bool) (v : Vol) : ℤ × Option Loc × Vol :=
  let lfns := if needLfn then buildLfn name raw else []
  match findSlots g (chainInit dirClus) (lfns.length + 1) v with
  | (rc, idx, grow, ch, v) =>
    if rc ≠ fatOk then (rc, none, v)
    else insertRoom g dirClus name isDir firstClus size raw lfns idx grow ch v

/-- `fat32_dir_insert`. -/
def dirInsert (dirClus : ℕ) (name : Str) (isDir : Bool) (firstClus size : ℕ) (v : Vol) :
    ℤ × Option Loc × Vol :=
  match makeShort g dirClus name v with
  | (none, v) => (errNospc, none, v)
  | (some (raw, needLfn), v) => insertNamed g dirClus name isDir firstClus size raw needLfn v

/-! ## Removing entries -/

/-- The loop of `fat32_delete_slots`: `n` entries from `i` on. -/
def deleteLoop : ℕ → ℕ → Chain → Vol → Vol
  | 0, _, _, v => v
  | n + 1, i, ch, v =>
    match entRead g ch i v with
    | (rc, e, ch, v) =>
      if rc ≠ fatOk then v
      else
        match entWrite g ch i (Function.update e 0 0xe5) v with
        | (rc, ch, v) => if rc ≠ fatOk then v else deleteLoop n (i + 1) ch v

/-- `fat32_delete_slots`. -/
def deleteSlots (dirClus fromOff toOff : ℕ) (v : Vol) : Vol :=
  deleteLoop g (toOff / 32 + 1 - fromOff / 32) (fromOff / 32) (chainInit dirClus) v

/-- The loop of `fat32_dir_is_empty`. -/
def dirIsEmptyLoop : ℕ → Chain → ℕ → Vol → Bool × Vol
  | 0, _, _, v => (false, v.hung)
  | fuel + 1, ch, i, v =>
    match entRead g ch i v with
    | (rc, e, ch, v) =>
      if rc = errEof then (true, v)
      else if rc ≠ fatOk then (false, v)
      else if e 0 = 0 then (true, v)
      else if e 0 = 0xe5 ∨ e 11 = attrLfn ∨ e 11 &&& attrVol ≠ 0 ∨ e 0 = dot then
        dirIsEmptyLoop fuel ch (i + 1) v
      else (false, v)

/-- `fat32_dir_is_empty`. -/
def dirIsEmpty (clus : ℕ) (v : Vol) : Bool × Vol := dirIsEmptyLoop g rounds (chainInit clus) 0 v

/-- The raw name `.` or `..`: `n` dots. -/
def dots (n : ℕ) : Bytes := rawName (List.replicate n dot) []

/-- `fat32_ent_write_direct`. -/
def entWriteDirect (dirClus index : ℕ) (e : Bytes) (v : Vol) : ℤ × Vol :=
  match entWrite g (chainInit dirClus) index e v with
  | (rc, _, v) => (rc, v)

/-- `fat32_create_dir`. -/
def createDir (parent : ℕ) (leaf : Str) (v : Vol) : ℤ × Vol :=
  match allocCluster g v with
  | (clus, v) =>
    if ¬ clusValid g clus then (errNospc, v)
    else
      match dirInsert g parent leaf true clus 0 v with
      | (rc, _, v) =>
        if rc ≠ fatOk then (rc, freeChain g clus v)
        else
          let v := (entWriteDirect g clus 0 (makeSlot (dots 1) attrDir 0 clus 0) v).2
          let up := if parent = g.rootClus then 0 else parent
          (fatOk, (entWriteDirect g clus 1 (makeSlot (dots 2) attrDir 0 up 0) v).2)

/-- `fat32_truncate`, as far as it is about the volume. -/
def truncate (loc : Loc) (v : Vol) : Vol :=
  let v := if clusValid g loc.clus then freeChain g loc.clus v else v
  (updateEntry g loc.dirClus loc.off 0 0 v).2

end Fat32

end Csos

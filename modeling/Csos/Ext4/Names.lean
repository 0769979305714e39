import Csos.Ext4.Records
/-!
# ext4 — names in lookups

`ext4_dir_next` gives the names of the entries cut to 63 bytes, and
`ext4_lookup` compares its component with those. A component of 62 bytes or
fewer is compared with whole names; one of 63 bytes is taken for found at an
entry with a longer name that begins with it. So the lookup is exact unless
such an entry comes before the entry of that name (`lookup_exact_iff`).
-/

namespace Csos

namespace Ext4

open Vfs Checked

/-! ## Well-formed directories -/

/-- An entry: its whole name and its inode. -/
structure Entry where
  name : Str
  ino : ℕ
  deriving DecidableEq

/-- The name of the record at `p`, whole. -/
def fullName (m : Bytes) (p : ℕ) : Str := (List.range (nameLen m p)).map fun k => m (p + 8 + k)

/-- **The records from `p` on fill the block**, and those that are in use have
names of 1 to 255 bytes without a zero. -/
inductive Tiled (m : Bytes) (bs : ℕ) : ℕ → Prop
  | nil : Tiled m bs bs
  | cons {p : ℕ} (hok : RecOk m bs p)
    (hname : recIno m p ≠ 0 → (nameLen m p ≠ 0 ∧ nameLen m p + 8 ≤ recLen m p) ∧ 0 ∉ fullName m p)
    (hrest : Tiled m bs (p + recLen m p)) : Tiled m bs p

/-- The entries of the records from `p` on. -/
def entriesFrom (m : Bytes) (bs : ℕ) : ℕ → ℕ → List Entry
  | 0, _ => []
  | fuel + 1, p =>
    if bs < p + 8 then []
    else if recIno m p = 0 then entriesFrom m bs fuel (p + recLen m p)
    else ⟨fullName m p, recIno m p⟩ :: entriesFrom m bs fuel (p + recLen m p)

/-- `ext4_read_inode` reads this inode, if `kmalloc` has a block. -/
def ReadsInode (d : Disk) (sb : Sb) (ino : ℕ) (t : Inode) : Prop :=
  ∀ w : World, (∀ i, (w.alloc i).isSome) →
    ∃ w', readInode d sb ino w = .ret (.ok t, w') ∧ w'.alloc = w.alloc

section

variable (d : Disk) (sb : Sb) (dir : Inode)

/-- The entries of the block `lb`. -/
def blockEntries (lb : ℕ) : List Entry :=
  match dirBlock d sb dir lb with
  | .data m => entriesFrom m sb.bs (sb.bs + 1) 0
  | _ => []

/-- The entries of the blocks from `lb` on. -/
def laterEntries (lb : ℕ) : List Entry :=
  (List.range' lb (dir.size / sb.bs - lb)).flatMap (blockEntries d sb dir)

/-- **The entries of the directory**, in order. -/
def dirEntries : List Entry := laterEntries d sb dir 0

/-- **A well-formed directory**: whole blocks, each a hole or filled with
records, and the inodes of the entries are files or directories. -/
structure WellFormed : Prop where
  isDir : dir.isDir = true
  extents : dir.flags &&& extentsFl ≠ 0
  whole : dir.size % sb.bs = 0
  small : dir.size ≤ 2 ^ 32 * sb.bs
  blocks : ∀ lb, lb * sb.bs < dir.size → dirBlock d sb dir lb = .hole ∨
    ∃ m, dirBlock d sb dir lb = .data m ∧ Tiled m sb.bs 0
  inodes : ∀ e ∈ dirEntries d sb dir, ∃ t, ReadsInode d sb e.ino t ∧
    (t.mode &&& sIfmt = sIfreg ∨ t.mode &&& sIfmt = sIfdir)

/-- **The lookup of a component is exact**: in the directory of inode `ino`,
before any rest of the path, `ext4_lookup` goes on with the inode of an entry
whose name is the component, or there is none and it returns `NOENT`. -/
def LookupExact (ino : ℕ) (comp : Str) : Prop :=
  ∀ stack rest, rest = [] ∨ List.head? rest = some slash → ∃ N, ∀ fuel, N ≤ fuel → ∀ w : World,
    (∀ i, (w.alloc i).isSome) → ∃ w' : World, (∀ i, (w'.alloc i).isSome) ∧
      ((∃ e ∈ dirEntries d sb dir, e.name = comp ∧
        lookupLoop d sb stack (fuel + 1) (comp ++ rest) ino w =
          if rest.dropWhile (· = slash) = [] then .ret (.ok e.ino, w')
          else lookupLoop d sb stack fuel (rest.dropWhile (· = slash)) e.ino w') ∨
      (∀ e ∈ dirEntries d sb dir, e.name ≠ comp) ∧
        lookupLoop d sb stack (fuel + 1) (comp ++ rest) ino w = .ret (.error errNoent, w'))

/-- The first entry whose name, as far as 63 bytes, is the component. -/
def firstMatch (comp : Str) : Option Entry :=
  (dirEntries d sb dir).find? fun e => e.name.take 63 = comp

/-- **No longer name is in the way**: the first entry whose name, as far as 63
bytes, is the component has the inode of an entry of that name. -/
def Unshadowed (comp : Str) : Prop :=
  ∀ e, firstMatch d sb dir comp = some e →
    ∃ e' ∈ dirEntries d sb dir, e'.name = comp ∧ e'.ino = e.ino

end

variable {d : Disk} {sb : Sb} {dir : Inode} {m : Bytes} {buf nameOut : Buf} {comp s stack : Str}
  {e : Entry} {es : List Entry} {lb off p q bs fuel ino i : ℕ} {w : World}

theorem fullName_length (m : Bytes) (p : ℕ) : (fullName m p).length = nameLen m p := by
  simp [fullName]

/-! ## Comparing names -/

theorem load_byte (m : Bytes) (i : ℕ) : m.load 1 i = (m i).toNat := by simp [Bytes.load]

/-- **`ext4_name_eq`** compares a component with the string in the buffer. -/
theorem nameEq_eq (hbuf : ∀ (j : ℕ) (hj : j < s.length), buf.bytes (i + j) = s[j])
    (hend : buf.bytes (i + s.length) = 0) (hs : 0 ∉ s) (hcomp : 0 ∉ comp)
    (hlen : i + comp.length < buf.len) (w : World) :
    nameEq buf comp i w = .ret (decide (s = comp), w) := by
  have hne : ∀ {x : UInt8}, x ≠ 0 → x.toNat ≠ 0 := fun hx h0 => hx (UInt8.toNat_inj.mp h0)
  induction comp generalizing s i with
  | nil =>
    rw [nameEq, bind_of_ret (Buf.load_apply (by simpa using hlen) w), load_byte]
    cases s with
    | nil =>
      have h0 : buf.bytes i = 0 := hend
      rw [h0]
      rfl
    | cons x s =>
      have hx : buf.bytes i = x := hbuf 0 (by simp)
      have hx0 : x.toNat ≠ 0 := hne fun h => hs (by simp [h])
      rw [hx, decide_eq_false hx0]
      rfl
  | cons y comp ih =>
    rw [List.length_cons] at hlen
    have hy0 : y ≠ 0 := fun h => hcomp (by simp [h])
    rw [nameEq, bind_of_ret (Buf.load_apply (by omega) w), load_byte]
    cases s with
    | nil =>
      have h0 : buf.bytes i = 0 := hend
      have hn : UInt8.toNat 0 ≠ y.toNat := Ne.symm (hne hy0)
      rw [h0, if_pos hn]
      rfl
    | cons x s =>
      have hx : buf.bytes i = x := hbuf 0 (by simp)
      rw [hx]
      by_cases hxy : x = y
      · subst hxy
        have hrest := ih (s := s) (i := i + 1)
          (fun j hj => by
            rw [show i + 1 + j = i + (j + 1) by omega]
            exact hbuf (j + 1) (by simpa using hj))
          (by rw [show i + 1 + s.length = i + (s.length + 1) by omega]; exact hend)
          (fun h => hs (List.mem_cons_of_mem _ h)) (fun h => hcomp (List.mem_cons_of_mem _ h))
          (by omega)
        rw [if_neg (not_not.mpr rfl), hrest]
        simp
      · have hn : x.toNat ≠ y.toNat := fun h => hxy (UInt8.toNat_inj.mp h)
        rw [if_pos hn]
        simp [hxy]

/-- What a buffer of `VFS_NAME_MAX` bytes holds of a name. -/
theorem storeName_bytes (stack : Bytes) (m : Bytes) (p : ℕ) :
    (∀ (j : ℕ) (hj : j < ((fullName m p).take 63).length),
      (storeName ⟨stack, nameMax⟩ m p).bytes (0 + j) = ((fullName m p).take 63)[j]) ∧
    (storeName ⟨stack, nameMax⟩ m p).bytes (0 + ((fullName m p).take 63).length) = 0 := by
  have hcut : nameCut m p nameMax = ((fullName m p).take 63).length := by
    rw [List.length_take, fullName_length, nameCut]
    dsimp only [nameMax]
    split <;> omega
  rw [storeName, if_pos (by decide : 0 < nameMax)]
  dsimp only
  rw [hcut]
  constructor
  · intro j hj
    rw [Nat.zero_add, Bytes.blit_apply_of_notMem (.inl hj), Bytes.blit_zero_apply hj,
      List.getElem_take]
    simp [fullName, Bytes.shift]
  · rw [Nat.zero_add, ← Nat.add_zero ((fullName m p).take 63).length]
    exact Bytes.blit_apply_of_mem (by omega)

theorem storeName_len (nameOut : Buf) (m : Bytes) (p : ℕ) :
    (storeName nameOut m p).len = nameOut.len := by
  rw [storeName]
  split <;> rfl

/-- **A component is compared with the first 63 bytes** of the name. -/
theorem nameEq_entryAt (hname : 0 ∉ fullName m p) (hcomp : 0 ∉ comp) (hlen : comp.length < nameMax)
    (stack : Bytes) (w : World) :
    nameEq (entryAt ⟨stack, nameMax⟩ m p).name comp 0 w =
      .ret (decide ((fullName m p).take 63 = comp), w) := by
  obtain ⟨h1, h2⟩ := storeName_bytes stack m p
  refine nameEq_eq h1 h2 (fun h => hname (List.mem_of_mem_take h)) hcomp ?_ w
  rw [storeName_len, Nat.zero_add]
  exact hlen

/-! ## Going through the entries -/

theorem Tiled.le (h : Tiled m bs p) : p ≤ bs := by
  cases h with
  | nil => exact le_rfl
  | cons hok _ _ =>
    have := hok.2
    omega

theorem entriesFrom_fuel (h : Tiled m bs p) (fuel fuel' : ℕ) (hf : bs < p + fuel) (hf' : bs < p + fuel') :
    entriesFrom m bs fuel p = entriesFrom m bs fuel' p := by
  induction h generalizing fuel fuel' with
  | nil =>
    obtain ⟨fuel, rfl⟩ : ∃ j, fuel = j + 1 := ⟨fuel - 1, by omega⟩
    obtain ⟨fuel', rfl⟩ : ∃ j, fuel' = j + 1 := ⟨fuel' - 1, by omega⟩
    rw [entriesFrom, entriesFrom, if_pos (by omega), if_pos (by omega)]
  | @cons p hok hname hrest ih =>
    have h8 := hok.1
    have hle := hok.2
    obtain ⟨fuel, rfl⟩ : ∃ j, fuel = j + 1 := ⟨fuel - 1, by omega⟩
    obtain ⟨fuel', rfl⟩ : ∃ j, fuel' = j + 1 := ⟨fuel' - 1, by omega⟩
    rw [entriesFrom, entriesFrom, ih fuel fuel' (by omega) (by omega)]

/-- **The scan of a block that is filled** finds the first of its entries. -/
theorem Tiled.scan (h : Tiled m bs p) (fuel : ℕ) (hf : bs < p + fuel) :
    (scanAt m bs fuel p = .done bs ∧ entriesFrom m bs fuel p = []) ∨
    ∃ q, scanAt m bs fuel p = .found q ∧ Tiled m bs (q + recLen m q) ∧ 0 ∉ fullName m q ∧
      entriesFrom m bs fuel p =
        ⟨fullName m q, recIno m q⟩ :: entriesFrom m bs (bs + 1) (q + recLen m q) := by
  induction h generalizing fuel with
  | nil =>
    obtain ⟨fuel, rfl⟩ : ∃ j, fuel = j + 1 := ⟨fuel - 1, by omega⟩
    rw [scanAt, entriesFrom, if_pos (by omega), if_pos (by omega)]
    exact .inl ⟨rfl, rfl⟩
  | @cons p hok hname hrest ih =>
    have h8 := hok.1
    have hle := hok.2
    obtain ⟨fuel, rfl⟩ : ∃ j, fuel = j + 1 := ⟨fuel - 1, by omega⟩
    have hend : ¬ bs < p + 8 := by omega
    rw [scanAt, entriesFrom, if_neg hend, if_neg (not_not.mpr hok), if_neg hend]
    by_cases hino : recIno m p = 0
    · have hdead : ¬ Live m p := fun hl => hl.1 hino
      rw [if_neg hdead, if_pos hino]
      exact ih fuel (by omega)
    · obtain ⟨hlive, hnul⟩ := hname hino
      rw [if_pos ⟨hino, hlive⟩, if_neg hino]
      refine .inr ⟨p, rfl, hrest, hnul, ?_⟩
      rw [entriesFrom_fuel hrest fuel (bs + 1) (by omega) (by omega)]

/-- A block that begins in a directory of whole blocks ends in it. -/
theorem block_le (hwhole : dir.size % sb.bs = 0) (hlb : lb * sb.bs < dir.size) :
    (lb + 1) * sb.bs ≤ dir.size := by
  obtain ⟨n, hn⟩ := Nat.dvd_of_mod_eq_zero hwhole
  rw [hn, Nat.mul_comm] at hlb ⊢
  exact Nat.mul_le_mul_left _ (Nat.lt_of_mul_lt_mul_left hlb)

theorem laterEntries_step (hwhole : dir.size % sb.bs = 0) (hlb : lb * sb.bs < dir.size) :
    laterEntries d sb dir lb = blockEntries d sb dir lb ++ laterEntries d sb dir (lb + 1) := by
  have hlt : lb < dir.size / sb.bs := by
    have hmod := Nat.div_add_mod dir.size sb.bs
    rw [hwhole, Nat.add_zero, Nat.mul_comm] at hmod
    rw [← hmod] at hlb
    exact Nat.lt_of_mul_lt_mul_right hlb
  rw [laterEntries, laterEntries, show dir.size / sb.bs - lb = dir.size / sb.bs - (lb + 1) + 1 by omega,
    List.range'_succ, List.flatMap_cons]

theorem laterEntries_end (h : sb.Ok) (hlb : lb * sb.bs = dir.size) : laterEntries d sb dir lb = [] := by
  have hpos := Nat.pos_of_ne_zero h.bs_ne
  rw [laterEntries, ← hlb, Nat.mul_div_cancel _ hpos, Nat.sub_self]
  rfl

/-- **The entries that a call at `off` has before it**: at the start of a block,
or inside one. -/
inductive Ahead (d : Disk) (sb : Sb) (dir : Inode) : ℕ → List Entry → Prop
  | block {lb : ℕ} (h : lb * sb.bs ≤ dir.size) : Ahead d sb dir (lb * sb.bs) (laterEntries d sb dir lb)
  | inside {lb p : ℕ} {m : Bytes} (hlb : lb * sb.bs < dir.size) (hp : p < sb.bs)
    (hb : dirBlock d sb dir lb = .data m) (ht : Tiled m sb.bs p) :
    Ahead d sb dir (lb * sb.bs + p)
      (entriesFrom m sb.bs (sb.bs + 1) p ++ laterEntries d sb dir (lb + 1))

/-- What a call does that has the entries `es` before it: it returns the first,
and the rest is before the next call. -/
def Meets (d : Disk) (sb : Sb) (dir : Inode) (off : ℕ) : List Entry → Prop
  | [] => ∃ fuel, dirAt d sb dir fuel off = some (.ends errNoent)
  | e :: es => ∃ fuel m q off', dirAt d sb dir fuel off = some (.gives m q off') ∧
    e = ⟨fullName m q, recIno m q⟩ ∧ 0 ∉ fullName m q ∧ Ahead d sb dir off' es

theorem Meets.of_goes (hround : dirRound d sb dir off = .goes q) (h : Meets d sb dir q es) :
    Meets d sb dir off es := by
  cases es with
  | nil =>
    obtain ⟨fuel, hr⟩ := h
    exact ⟨fuel + 1, (dirAt_of_goes hround fuel).trans hr⟩
  | cons e es =>
    obtain ⟨fuel, m, p, off', hr, hrest⟩ := h
    exact ⟨fuel + 1, m, p, off', (dirAt_of_goes hround fuel).trans hr, hrest⟩

/-- Inside a block the call meets the next entry of the block, or the next
block. -/
theorem meets_inside (hsmall : dir.size ≤ 2 ^ 32 * sb.bs) (hwhole : dir.size % sb.bs = 0)
    (hlb : lb * sb.bs < dir.size) (hp : p < sb.bs) (hb : dirBlock d sb dir lb = .data m)
    (ht : Tiled m sb.bs p)
    (hnext : Meets d sb dir ((lb + 1) * sb.bs) (laterEntries d sb dir (lb + 1))) :
    Meets d sb dir (lb * sb.bs + p)
      (entriesFrom m sb.bs (sb.bs + 1) p ++ laterEntries d sb dir (lb + 1)) := by
  obtain ⟨h1, h2⟩ := block_pos hp lb
  have hlt : lb < 2 ^ 32 := Nat.lt_of_mul_lt_mul_right (hlb.trans_le hsmall)
  have hdvd := block_le hwhole hlb
  have hsize : lb * sb.bs + p < dir.size := by
    rw [Nat.add_mul] at hdvd
    omega
  have hb' : dirBlock d sb dir ((lb * sb.bs + p) / sb.bs % 2 ^ 32) = .data m := by
    rw [h1, Nat.mod_eq_of_lt hlt, hb]
  have hround := dirRound_of_data hsize hb'
  rw [h1, h2, Nat.mod_eq_of_lt hlt] at hround
  rcases ht.scan (sb.bs + 1) (by omega) with ⟨hscan, hnil⟩ | ⟨q, hscan, hrest, hnul, hcons⟩
  · rw [hscan] at hround
    dsimp only at hround
    rw [if_neg (by omega), ← Nat.succ_mul] at hround
    rw [hnil]
    exact Meets.of_goes hround hnext
  · rw [hscan] at hround
    rw [hcons]
    refine ⟨1, m, q, lb * sb.bs + q + recLen m q, ?_, rfl, hnul, ?_⟩
    · rw [dirAt, hround]
    · rw [Nat.add_assoc]
      rcases Nat.lt_or_eq_of_le hrest.le with hq | hq
      · exact .inside hlb hq hb hrest
      · -- the entry is the last of its block
        rw [hq, entriesFrom, if_pos (by omega), ← Nat.succ_mul]
        exact .block hdvd

/-- **A call meets the entries before it**, one after the other. -/
theorem Ahead.meets (h : sb.Ok) (hwf : WellFormed d sb dir) (ha : Ahead d sb dir off es) :
    Meets d sb dir off es := by
  have hblock : ∀ n lb, dir.size - lb * sb.bs = n → lb * sb.bs ≤ dir.size →
      Meets d sb dir (lb * sb.bs) (laterEntries d sb dir lb) := by
    intro n
    induction n using Nat.strong_induction_on with
    | _ n ih =>
      intro lb hn hle
      rcases Nat.lt_or_eq_of_le hle with hlt | heq
      · have hbs := h.bs_pos
        have hlb : lb < 2 ^ 32 := Nat.lt_of_mul_lt_mul_right (hlt.trans_le hwf.small)
        have hdvd := block_le hwf.whole hlt
        have hnext : Meets d sb dir ((lb + 1) * sb.bs) (laterEntries d sb dir (lb + 1)) := by
          refine ih _ ?_ (lb + 1) rfl hdvd
          rw [Nat.add_mul] at hdvd ⊢
          omega
        rw [laterEntries_step hwf.whole hlt, blockEntries]
        rcases hwf.blocks lb hlt with hhole | ⟨m, hdata, ht⟩
        · have hround : dirRound d sb dir (lb * sb.bs) = .goes ((lb + 1) * sb.bs) := by
            rw [dirRound, if_neg (by omega), Nat.mul_div_cancel _ (by omega), Nat.mod_eq_of_lt hlb]
            dsimp only
            rw [hhole]
          rw [hhole]
          exact Meets.of_goes hround hnext
        · rw [hdata]
          exact meets_inside hwf.small hwf.whole hlt (by omega : 0 < sb.bs) hdata ht hnext
      · rw [laterEntries_end h heq]
        refine ⟨1, ?_⟩
        rw [dirAt, dirRound, if_pos heq.ge]
  cases ha with
  | block hle => exact hblock _ _ rfl hle
  | @inside lb p m hlb hp hb ht =>
    exact meets_inside hwf.small hwf.whole hlb hp hb ht
      (hblock _ _ rfl (block_le hwf.whole hlb))

/-! ## The search -/

/-- A call that comes to an answer, with rounds to spare. -/
theorem dirNext_of_dirAt (h : sb.Ok) (hdir : dir.Ok) (hd : dir.isDir = true) {r : Round}
    (hr : dirAt d sb dir fuel off = some r) (halloc : ∀ i, (w.alloc i).isSome) (nameOut : Buf) (k : ℕ) :
    Answers nameOut w (some r) (dirNext d sb dir nameOut (fuel + k) off w) := by
  have hans := dirNext_answers (d := d) h hdir hd (halloc w.used) nameOut (fuel + k) off
  rwa [dirAt_mono hr k] at hans

/-- **The search for a component** comes to the first entry whose name begins
like it, as far as 63 bytes. -/
theorem Ahead.find (h : sb.Ok) (hdir : dir.Ok) (hwf : WellFormed d sb dir) (hcomp : 0 ∉ comp)
    (hlen : comp.length < nameMax) (stack : Bytes) (ha : Ahead d sb dir off es)
    (hino : ∀ e ∈ es, e ∈ dirEntries d sb dir) :
    ∃ N, ∀ fuel, N ≤ fuel → ∀ w : World, (∀ i, (w.alloc i).isSome) → ∃ w', World.alloc w' = w.alloc ∧
      findLoop d sb dir comp stack fuel off w =
        .ret (match es.find? (fun e => e.name.take 63 = comp) with
          | some e => .ok e.ino
          | none => .error errNoent, w') := by
  induction es generalizing off with
  | nil =>
    obtain ⟨N, hr⟩ := ha.meets h hwf
    refine ⟨N + 1, fun fuel hN w hw => ?_⟩
    obtain ⟨k, rfl⟩ : ∃ k, fuel = N + k + 1 := ⟨fuel - (N + 1), by omega⟩
    obtain ⟨off', w', hw', heq⟩ := dirNext_of_dirAt h hdir hwf.isDir hr hw ⟨stack, nameMax⟩ k
    refine ⟨w', hw', ?_⟩
    rw [findLoop, bind_of_ret heq]
    rfl
  | cons e es ih =>
    obtain ⟨N, m, q, off', hr, rfl, hnul, hahead⟩ := ha.meets h hwf
    obtain ⟨N', hrest⟩ := ih hahead fun e he => hino e (List.mem_cons_of_mem _ he)
    refine ⟨max N N' + 1, fun fuel hN w hw => ?_⟩
    obtain ⟨k, rfl⟩ : ∃ k, fuel = N + k + 1 := ⟨fuel - (N + 1), by omega⟩
    obtain ⟨w₁, hw₁, heq⟩ := dirNext_of_dirAt h hdir hwf.isDir hr hw ⟨stack, nameMax⟩ k
    have hall₁ : ∀ i, (w₁.alloc i).isSome := by rwa [hw₁]
    rw [findLoop, bind_of_ret heq]
    dsimp only
    rw [bind_of_ret (nameEq_entryAt hnul hcomp hlen stack w₁)]
    by_cases hname : (fullName m q).take 63 = comp
    · rw [List.find?_cons_of_pos (by simpa using hname), decide_eq_true hname, if_pos rfl]
      obtain ⟨t, hread, hmode⟩ := hwf.inodes _ (hino _ List.mem_cons_self)
      obtain ⟨w₂, hret, hw₂⟩ := hread w₁ hall₁
      refine ⟨w₂, hw₂.trans hw₁, ?_⟩
      change (readInode d sb (recIno m q) >>= _) w₁ = _
      rw [bind_of_ret hret]
      dsimp only
      rw [if_neg (by tauto)]
      rfl
    · rw [List.find?_cons_of_neg (by simpa using hname), decide_eq_false hname,
        if_neg Bool.false_ne_true]
      obtain ⟨w₂, hw₂, hfind⟩ := hrest (N + k) (by omega) w₁ hall₁
      exact ⟨w₂, hw₂.trans hw₁, hfind⟩

/-! ## Lookups -/

theorem ReadsInode.ok (h : sb.Ok) (hread : ReadsInode d sb ino dir) : dir.Ok := by
  have hsafe := safe_readInode (d := d) h ino ⟨fun _ => some (Bytes.const 0), 0, []⟩
  obtain ⟨w', heq, -⟩ := hread ⟨fun _ => some (Bytes.const 0), 0, []⟩ fun _ => rfl
  rw [heq] at hsafe
  exact hsafe dir rfl

theorem takeWhile_comp {rest : Str} (hslash : slash ∉ comp)
    (hrest : rest = [] ∨ rest.head? = some slash) :
    (comp ++ rest).takeWhile (· ≠ slash) = comp ∧ (comp ++ rest).dropWhile (· ≠ slash) = rest := by
  have hall : ∀ x ∈ comp, decide (x ≠ slash) = true := fun x hx => by
    simpa using ne_of_mem_of_not_mem hx hslash
  rw [List.takeWhile_append_of_pos hall, List.dropWhile_append_of_pos hall]
  rcases hrest with rfl | hhead
  · simp
  · obtain ⟨t, rfl⟩ := List.head?_eq_some_iff.mp hhead
    simp

/-- **`ext4_lookup` goes on with the first entry** whose name begins like the
component. -/
theorem lookupLoop_first (h : sb.Ok) (hwf : WellFormed d sb dir) (hread : ReadsInode d sb ino dir)
    (h1 : comp ≠ []) (hlen : comp.length < nameMax) (hnul : 0 ∉ comp) (hslash : slash ∉ comp)
    (stack : Bytes) {rest : Str} (hrest : rest = [] ∨ rest.head? = some slash) :
    ∃ N, ∀ fuel, N ≤ fuel → ∀ w : World, (∀ i, (w.alloc i).isSome) → ∃ w' : World,
      (∀ i, (w'.alloc i).isSome) ∧ lookupLoop d sb stack (fuel + 1) (comp ++ rest) ino w =
        match firstMatch d sb dir comp with
        | none => .ret (.error errNoent, w')
        | some e =>
          if rest.dropWhile (· = slash) = [] then .ret (.ok e.ino, w')
          else lookupLoop d sb stack fuel (rest.dropWhile (· = slash)) e.ino w' := by
  obtain ⟨htake, hdrop⟩ := takeWhile_comp hslash hrest
  have hahead : Ahead d sb dir 0 (dirEntries d sb dir) := by
    have hzero : Ahead d sb dir (0 * sb.bs) (dirEntries d sb dir) := .block (by omega)
    rwa [Nat.zero_mul] at hzero
  obtain ⟨N, hfind⟩ := hahead.find h (hread.ok h) hwf hnul hlen stack fun e he => he
  refine ⟨N, fun fuel hN w hw => ?_⟩
  obtain ⟨w₁, hret, hw₁⟩ := hread w hw
  have hall₁ : ∀ i, (w₁.alloc i).isSome := by rwa [hw₁]
  obtain ⟨w₂, hw₂, heq⟩ := hfind fuel hN w₁ hall₁
  refine ⟨w₂, by rwa [hw₂], ?_⟩
  have hsome : ¬ (comp.length = 0 ∨ nameMax ≤ comp.length) := by
    have := List.length_pos_of_ne_nil h1
    omega
  rw [lookupLoop, htake, hdrop]
  dsimp only
  rw [if_neg hsome, bind_of_ret hret]
  dsimp only
  rw [hwf.isDir, if_neg (by simp), if_neg hwf.extents, bind_of_ret heq, firstMatch]
  cases (dirEntries d sb dir).find? fun e => e.name.take 63 = comp with
  | none => rfl
  | some e =>
    dsimp only
    split <;> rfl

/-- **A lookup is exact where no longer name is in the way**, and always for a
component of 62 bytes or fewer. -/
theorem lookup_exact_iff (h : sb.Ok) (hwf : WellFormed d sb dir) (hread : ReadsInode d sb ino dir)
    (h1 : comp ≠ []) (hlen : comp.length < nameMax) (hnul : 0 ∉ comp) (hslash : slash ∉ comp) :
    (LookupExact d sb dir ino comp ↔ Unshadowed d sb dir comp) ∧
      (comp.length < 63 → LookupExact d sb dir ino comp) := by
  have hfirst := @lookupLoop_first d sb dir comp ino h hwf hread h1 hlen hnul hslash
  have hexact : Unshadowed d sb dir comp → LookupExact d sb dir ino comp := by
    intro hun stack rest hrest
    obtain ⟨N, hloop⟩ := hfirst stack hrest
    refine ⟨N, fun fuel hN w hw => ?_⟩
    obtain ⟨w', hw', heq⟩ := hloop fuel hN w hw
    refine ⟨w', hw', ?_⟩
    cases hm : firstMatch d sb dir comp with
    | none =>
      rw [hm] at heq
      refine .inr ⟨fun e he hname => ?_, heq⟩
      -- the whole name is a name that begins like the component
      have hno := List.find?_eq_none.mp hm e he
      rw [hname, List.take_of_length_le (by dsimp only [nameMax] at hlen; omega)] at hno
      simp at hno
    | some e =>
      rw [hm] at heq
      obtain ⟨e', he', hname, hino⟩ := hun e hm
      dsimp only at heq
      rw [← hino] at heq
      exact .inl ⟨e', he', hname, heq⟩
  refine ⟨⟨fun hex e hm => ?_, hexact⟩, fun hshort => hexact fun e hm => ?_⟩
  · obtain ⟨N, hloop⟩ := hfirst (Bytes.const 0) (.inl rfl)
    obtain ⟨N', hret⟩ := hex (Bytes.const 0) [] (.inl rfl)
    let w : World := ⟨fun _ => some (Bytes.const 0), 0, []⟩
    obtain ⟨w₁, -, h₁⟩ := hloop (max N N') (le_max_left _ _) w fun _ => rfl
    obtain ⟨w₂, -, h₂⟩ := hret (max N N') (le_max_right _ _) w fun _ => rfl
    rw [hm] at h₁
    dsimp only at h₁
    rw [List.dropWhile_nil, if_pos rfl] at h₁
    rcases h₂ with ⟨e', he', hname, h₂⟩ | ⟨-, h₂⟩
    · rw [List.dropWhile_nil, if_pos rfl, h₁] at h₂
      injection h₂ with h₂
      exact ⟨e', he', hname, (Except.ok.inj (Prod.mk.inj h₂).1).symm⟩
    · rw [h₁] at h₂
      cases h₂
  · -- a name that is cut has 63 bytes left
    have htake : e.name.take 63 = comp := by simpa using List.find?_some hm
    have hcut := congrArg List.length htake
    rw [List.length_take] at hcut
    rw [List.take_of_length_le (by omega)] at htake
    exact ⟨e, List.mem_of_find?_eq_some hm, htake, rfl⟩

/-! ### A directory of one entry -/

/-- The inode at `p` of a block. -/
def inodeAt (m : Bytes) (p ino : ℕ) : Inode where
  ino := ino
  mode := m.load 2 p
  size := m.load 4 (p + 4) + m.load 4 (p + 108) * 2 ^ 32
  flags := m.load 4 (p + 32)
  isDir := m.load 2 p &&& sIfmt = sIfdir
  isReg := m.load 2 p &&& sIfmt = sIfreg
  blk := ⟨(Bytes.const 0).blit 0 60 (m.shift (p + 40)), 60⟩

/-- **`ext4_read_inode`** of an inode whose block can be read. -/
theorem readsInode_of_reads {itab fsblk inner : ℕ} (h : sb.Ok) (h0 : ino ≠ 0)
    (hle : ino ≤ sb.ngroups * sb.inodesPerGroup)
    (hitab : ∀ w : World, itabBlock sb ((ino - 1) / sb.inodesPerGroup) w = .ret (itab, w))
    (hfsblk : (itab + (ino - 1) % sb.inodesPerGroup * sb.inodeSize / sb.bs) % 2 ^ 64 = fsblk)
    (hinner : (ino - 1) % sb.inodesPerGroup * sb.inodeSize % sb.bs = inner)
    (hin : inner + sb.inodeSize ≤ sb.bs) (hlt : fsblk < 2 ^ 49) (hread : d.Reads sb fsblk) :
    ReadsInode d sb ino (inodeAt (d.block sb fsblk) inner ino) := by
  intro w hw
  obtain ⟨bytes, hbytes⟩ := Option.isSome_iff_exists.mp (hw w.used)
  have hmalloc : kmalloc sb.bs w = .ret (some ⟨bytes, sb.bs⟩, { w with used := w.used + 1 }) := by
    rw [kmalloc, hbytes]
    rfl
  have hsize := h.inodeSize
  rw [readInode, if_neg h0, if_neg (by omega), bind_of_ret (div_apply h.inodesPerGroup w),
    bind_of_ret (mod_apply h.inodesPerGroup w)]
  dsimp only
  rw [bind_of_ret (hitab w), bind_of_ret (div_apply h.bs_ne w), bind_of_ret (mod_apply h.bs_ne w),
    hfsblk, hinner, if_neg (by omega), bind_of_ret hmalloc]
  dsimp only
  rw [bind_of_ret (readFsBlocks_of_reads h hlt rfl hread _)]
  dsimp only
  have hload : ∀ {k o : ℕ}, o + k ≤ 128 →
      (bytes.blit 0 sb.bs (d.block sb fsblk)).load k (inner + o) =
        (d.block sb fsblk).load k (inner + o) := fun hk =>
    Bytes.load_congr fun i hi => Bytes.blit_zero_apply (by omega)
  have hmode : (bytes.blit 0 sb.bs (d.block sb fsblk)).load 2 inner =
      (d.block sb fsblk).load 2 inner := hload (o := 0) (by omega)
  have hblk : (Bytes.const 0).blit 0 60 ((bytes.blit 0 sb.bs (d.block sb fsblk)).shift (inner + 40)) =
      (Bytes.const 0).blit 0 60 ((d.block sb fsblk).shift (inner + 40)) :=
    blit_congr fun i hi => Bytes.blit_zero_apply (by omega)
  rw [if_neg (not_not.mpr rfl), bind_of_ret (Buf.load_apply (by dsimp only; omega) _),
    bind_of_ret (Buf.load_apply (by dsimp only; omega) _),
    bind_of_ret (Buf.load_apply (by dsimp only; omega) _),
    bind_of_ret (Buf.load_apply (by dsimp only; omega) _),
    bind_of_ret (Buf.copy_apply (by dsimp only; omega) (by dsimp only; omega) _)]
  dsimp only
  rw [hmode, hload (by omega), hload (by omega), hload (by omega), hblk]
  exact ⟨_, rfl, rfl⟩

/-- A device with the directory 2 and the file 3. The directory has the block
100, with one entry: the file, under a name of so many letters. -/
def nameDisk (n : ℕ) : Disk where
  bytes a :=
    if 102408 ≤ a ∧ a < 102408 + n then 97
    else if 168 ≤ a ∧ a < 228 then oneExtent 1 (a - 168)
    else ([(129, 0x40), (133, 4), (162, 8), (257, 0x80), (102400, 3), (102405, 4), (102406, n)].lookup
      a).elim 0 UInt8.ofNat
  rc _ _ := 0

/-- The directory of that device. -/
def nameDir (n : ℕ) : Inode := inodeAt ((nameDisk n).block sampleSb 0) 128 rootIno

theorem readsInode_nameDisk (n : ℕ) :
    ReadsInode (nameDisk n) sampleSb rootIno (nameDir n) ∧
      ReadsInode (nameDisk n) sampleSb 3 (inodeAt ((nameDisk n).block sampleSb 0) 256 3) :=
  have hitab : ∀ w : World, itabBlock sampleSb 0 w = .ret (0, w) := fun _ => rfl
  ⟨readsInode_of_reads sampleSb_ok (by decide) (by decide) hitab (by decide) (by decide) (by decide)
      (by decide) rfl,
    readsInode_of_reads sampleSb_ok (by decide) (by decide) hitab (by decide) (by decide) (by decide)
      (by decide) rfl⟩

/-- That directory is well-formed if its one record is. -/
theorem wellFormed_nameDisk {n : ℕ} {name : Str}
    (hdir : (nameDir n).isDir = true ∧ (nameDir n).flags &&& extentsFl ≠ 0 ∧ (nameDir n).size = 1024)
    (hblock : dirBlock (nameDisk n) sampleSb (nameDir n) 0 = .data ((nameDisk n).block sampleSb 100))
    (hlen : recLen ((nameDisk n).block sampleSb 100) 0 = 1024)
    (hname : (nameLen ((nameDisk n).block sampleSb 100) 0 ≠ 0 ∧
      nameLen ((nameDisk n).block sampleSb 100) 0 + 8 ≤ 1024) ∧
        0 ∉ fullName ((nameDisk n).block sampleSb 100) 0)
    (hents : dirEntries (nameDisk n) sampleSb (nameDir n) = [⟨name, 3⟩])
    (hmode : (inodeAt ((nameDisk n).block sampleSb 0) 256 3).mode &&& sIfmt = sIfreg) :
    WellFormed (nameDisk n) sampleSb (nameDir n) where
  isDir := hdir.1
  extents := hdir.2.1
  whole := by rw [hdir.2.2]; rfl
  small := by rw [hdir.2.2]; decide
  blocks := by
    intro lb hlb
    rw [hdir.2.2] at hlb
    change lb * 1024 < 1024 at hlb
    obtain rfl : lb = 0 := by omega
    refine .inr ⟨_, hblock, .cons ⟨by omega, ?_⟩ (fun _ => by rwa [hlen]) ?_⟩
    · rw [hlen]
      exact le_rfl
    · rw [hlen]
      exact .nil
  inodes := by
    intro e he
    rw [hents, List.mem_singleton] at he
    subst he
    exact ⟨_, (readsInode_nameDisk n).2, .inl hmode⟩

/-- A file with a name of 63 letters is found. -/
theorem lookup_exact_nameDisk :
    LookupExact (nameDisk 63) sampleSb (nameDir 63) rootIno (List.replicate 63 97) := by
  have hents : dirEntries (nameDisk 63) sampleSb (nameDir 63) = [⟨List.replicate 63 97, 3⟩] := by
    decide +kernel
  have hwf := wellFormed_nameDisk (n := 63) (by decide +kernel) rfl (by decide +kernel)
    (by decide +kernel) hents (by decide +kernel)
  have hun : Unshadowed (nameDisk 63) sampleSb (nameDir 63) (List.replicate 63 97) := by
    intro e he
    rw [firstMatch, hents] at he
    have hmem := List.mem_of_find?_eq_some he
    rw [List.mem_singleton] at hmem
    subst hmem
    exact ⟨_, by rw [hents]; exact List.mem_singleton_self _, rfl, rfl⟩
  exact (lookup_exact_iff sampleSb_ok hwf (readsInode_nameDisk 63).1 (by decide) (by decide) (by decide)
    (by decide)).1.mpr hun

/-- **A name of 64 letters is found under 63.** -/
theorem lookup_finds_longer_name :
    WellFormed (nameDisk 64) sampleSb (nameDir 64) ∧
      ReadsInode (nameDisk 64) sampleSb rootIno (nameDir 64) ∧
      dirEntries (nameDisk 64) sampleSb (nameDir 64) = [⟨List.replicate 64 97, 3⟩] ∧
      (∃ fuel w', lookup (nameDisk 64) sampleSb (Bytes.const 0) fuel (List.replicate 63 97) sampleWorld =
        .ret (.ok 3, w')) ∧
      ¬ LookupExact (nameDisk 64) sampleSb (nameDir 64) rootIno (List.replicate 63 97) := by
  have hents : dirEntries (nameDisk 64) sampleSb (nameDir 64) = [⟨List.replicate 64 97, 3⟩] := by
    decide +kernel
  have hwf := wellFormed_nameDisk (n := 64) (by decide +kernel) rfl (by decide +kernel)
    (by decide +kernel) hents (by decide +kernel)
  have h63 : List.replicate 63 (97 : UInt8) ≠ [] := by decide
  obtain ⟨N, hfirst⟩ := lookupLoop_first sampleSb_ok hwf (readsInode_nameDisk 64).1 h63 (by decide)
    (by decide) (by decide) (Bytes.const 0) (.inl rfl)
  have hmatch : firstMatch (nameDisk 64) sampleSb (nameDir 64) (List.replicate 63 97) =
      some ⟨List.replicate 64 97, 3⟩ := by
    rw [firstMatch, hents]
    rfl
  have hfound : ∀ fuel, N ≤ fuel → ∃ w', lookupLoop (nameDisk 64) sampleSb (Bytes.const 0) (fuel + 1)
      (List.replicate 63 97 ++ []) rootIno sampleWorld = .ret (.ok 3, w') := by
    intro fuel hN
    obtain ⟨w', -, heq⟩ := hfirst fuel hN sampleWorld fun _ => rfl
    rw [hmatch] at heq
    exact ⟨w', heq⟩
  refine ⟨hwf, (readsInode_nameDisk 64).1, hents, ?_, fun hex => ?_⟩
  · obtain ⟨w', heq⟩ := hfound N le_rfl
    exact ⟨N + 1, w', heq⟩
  · obtain ⟨N', hret⟩ := hex (Bytes.const 0) [] (.inl rfl)
    obtain ⟨w₁, h₁⟩ := hfound (max N N') (le_max_left _ _)
    obtain ⟨w₂, -, h₂⟩ := hret (max N N') (le_max_right _ _) sampleWorld fun _ => rfl
    rcases h₂ with ⟨e, he, hname, -⟩ | ⟨-, h₂⟩
    · rw [hents, List.mem_singleton] at he
      rw [he] at hname
      revert hname
      decide
    · rw [h₁] at h₂
      cases h₂

end Ext4

end Csos

import Csos.Ext4.Model
/-!
# ext4 — memory safety

Whatever the image holds, no access of the driver is outside its buffer and
nothing is divided by zero. What `ext4_mount` has checked when it succeeds is
`Sb.Ok`, and each function is safe on such a superblock.
-/

namespace Csos

namespace Ext4

open Vfs Checked

variable {d : Disk} {sb : Sb} {ip dir : Inode} {node scratch blk out nameOut buf : Buf}
  {lb off pos len n e fuel : ℕ}

/-- **What the mount has checked.** -/
structure Sb.Ok (sb : Sb) : Prop where
  bs_pos : 1024 ≤ sb.bs
  bs_le : sb.bs ≤ 8192
  blkPerFs : devBlk * sb.blkPerFs = sb.bs
  inodesPerGroup : sb.inodesPerGroup ≠ 0
  inodeSize : 128 ≤ sb.inodeSize
  descSize : (if sb.is64bit then 64 else 32) ≤ sb.descSize
  gd : sb.ngroups * sb.descSize ≤ sb.gd.len

/-- An inode that `ext4_read_inode` has filled. -/
def Inode.Ok (ip : Inode) : Prop := ip.blk.len = 60

theorem Sb.Ok.bs_ne (h : sb.Ok) : sb.bs ≠ 0 := by
  have := h.bs_pos
  omega

/-! ## The device -/

theorem safe_request (lba count : ℕ) : Safe (request lba count) fun _ => True := fun _ => trivial

theorem safe_kmalloc (size : ℕ) : Safe (kmalloc size) fun r => ∀ b, r = some b → b.len = size := by
  intro w b hb
  obtain ⟨bytes, -, rfl⟩ := Option.map_eq_some_iff.mp hb
  rfl

theorem safe_readBlocks {lba count : ℕ} (h : devBlk * count ≤ buf.len) :
    Safe (d.readBlocks lba count buf) fun r => r.2.len = buf.len := by
  refine (safe_request lba count).bind fun _ _ => safe_ite (fun _ => safe_pure rfl) fun _ => ?_
  exact (safe_require h).bind fun _ _ => safe_pure rfl

theorem safe_readFsBlocks (hbs : devBlk * sb.blkPerFs = sb.bs) {fsblk count : ℕ}
    (h : count * sb.bs ≤ buf.len) :
    Safe (readFsBlocks d sb fsblk count buf) fun r => r.2.len = buf.len := by
  refine safe_ite (fun _ => safe_pure rfl) fun _ => ?_
  refine safe_ite (fun _ => safe_pure rfl) fun _ => safe_readBlocks ?_
  calc devBlk * (count * sb.blkPerFs) = count * (devBlk * sb.blkPerFs) := by ring
    _ = count * sb.bs := by rw [hbs]
    _ ≤ buf.len := h

/-! ## Inodes -/

theorem safe_itabBlock (h : sb.Ok) {group : ℕ} (hg : group < sb.ngroups) :
    Safe (itabBlock sb group) fun _ => True := by
  have hd := h.descSize
  have hgd : group * sb.descSize + sb.descSize ≤ sb.gd.len := by
    calc group * sb.descSize + sb.descSize = (group + 1) * sb.descSize := by ring
      _ ≤ sb.ngroups * sb.descSize := Nat.mul_le_mul_right _ hg
      _ ≤ sb.gd.len := h.gd
  have hlo : group * sb.descSize + 8 + 4 ≤ sb.gd.len := by
    split at hd <;> omega
  refine (Buf.safe_load hlo).bind fun _ _ => safe_ite (fun h64 => ?_) fun _ => safe_pure trivial
  rw [if_pos h64] at hd
  exact (Buf.safe_load (by omega)).bind fun _ _ => safe_pure trivial

/-- What `ext4_read_inode` fills. -/
theorem safe_readInode_fields (h : sb.Ok) (ino : ℕ) :
    Safe (readInode d sb ino) fun r => ∀ ip, r = .ok ip → ip.Ok ∧ ip.size < 2 ^ 64 := by
  have hsize := h.inodeSize
  refine safe_ite (fun _ => safe_pure (by simp)) fun hne => ?_
  refine safe_ite (fun _ => safe_pure (by simp)) fun hle => ?_
  refine (safe_div h.inodesPerGroup).bind fun group hgroup => ?_
  refine (safe_mod h.inodesPerGroup).bind fun idx _ => ?_
  have hg : group < sb.ngroups := by
    rw [hgroup]
    exact Nat.div_lt_of_lt_mul (by rw [Nat.mul_comm]; omega)
  refine (safe_itabBlock h hg).bind fun itab _ => ?_
  refine (safe_div h.bs_ne).bind fun q _ => (safe_mod h.bs_ne).bind fun inner _ => ?_
  refine safe_ite (fun _ => safe_pure (by simp)) fun hin => ?_
  refine (safe_kmalloc sb.bs).bind fun r hr => ?_
  cases r with
  | none => exact safe_pure (by simp)
  | some blk =>
    have hblk := hr blk rfl
    refine (safe_readFsBlocks h.blkPerFs (by omega)).bind fun r hlen => ?_
    refine safe_ite (fun _ => safe_pure (by simp)) fun _ => ?_
    refine (Buf.safe_load (by omega)).bind fun mode _ => (Buf.safe_load (by omega)).bind fun lo hlo => ?_
    refine (Buf.safe_load (by omega)).bind fun hi hhi => (Buf.safe_load (by omega)).bind fun flags _ => ?_
    refine (Buf.safe_copy (by simp) (by omega)).bind fun iblock hiblock => safe_pure ?_
    rintro ip ⟨⟩
    refine ⟨hiblock, ?_⟩
    dsimp only
    omega

/-- **`ext4_read_inode` is safe** for every inode number. -/
theorem safe_readInode (h : sb.Ok) (ino : ℕ) :
    Safe (readInode d sb ino) fun r => ∀ ip, r = .ok ip → ip.Ok :=
  (safe_readInode_fields h ino).mono fun _ hr ip hip => (hr ip hip).1

/-! ## Extents -/

theorem safe_leafLoop (h : e + 12 * n ≤ node.len) : Safe (leafLoop node lb n e) fun _ => True := by
  induction n generalizing e with
  | zero => exact safe_pure trivial
  | succ n ih =>
    have hnext := ih (e := e + 12) (by omega)
    refine (Buf.safe_load (by omega)).bind fun b _ => (Buf.safe_load (by omega)).bind fun len _ => ?_
    refine (Buf.safe_load (by omega)).bind fun lo _ => (Buf.safe_load (by omega)).bind fun hi _ => ?_
    refine safe_ite (fun _ => hnext) fun _ => ?_
    exact safe_ite (fun _ => safe_pure trivial) fun _ => hnext

theorem safe_indexLoop {best : Option ℕ} (h : e + 12 * n ≤ node.len)
    (hbest : ∀ b, best = some b → b + 12 ≤ node.len) :
    Safe (indexLoop node lb n e best) fun r => ∀ b, r = some b → b + 12 ≤ node.len := by
  induction n generalizing e best with
  | zero => exact safe_pure hbest
  | succ n ih =>
    refine (Buf.safe_load (by omega)).bind fun b _ => safe_ite (fun _ => ?_) fun _ => safe_pure hbest
    refine ih (by omega) fun b hb => ?_
    obtain rfl := Option.some.inj hb
    omega

theorem safe_mapStep (h : n ≤ node.len) (depthLeft : ℕ) :
    Safe (mapStep node n lb depthLeft) fun _ => True := by
  refine safe_ite (fun _ => safe_pure trivial) fun hn => ?_
  refine (Buf.safe_load (by omega)).bind fun magic _ => (Buf.safe_load (by omega)).bind fun entries _ => ?_
  refine (Buf.safe_load (by omega)).bind fun max _ => (Buf.safe_load (by omega)).bind fun depth _ => ?_
  refine safe_ite (fun _ => safe_pure trivial) fun _ => ?_
  refine safe_ite (fun _ => safe_pure trivial) fun hmax => ?_
  refine safe_ite (fun _ => ?_) fun _ => ?_
  · exact (safe_leafLoop (by omega)).bind fun _ _ => safe_pure trivial
  · refine safe_ite (fun _ => safe_pure trivial) fun _ => ?_
    refine (safe_indexLoop (by omega) (by simp)).bind fun r hr => ?_
    cases r with
    | none => exact safe_pure trivial
    | some best =>
      have hb := hr best rfl
      refine (Buf.safe_load (by omega)).bind fun lo _ => (Buf.safe_load (by omega)).bind fun hi _ => ?_
      exact safe_pure trivial

/-- **`ext4_map_walk` is safe** on every node; `scratch` keeps its size. -/
theorem safe_mapWalk (h : sb.Ok) {depthLeft : ℕ} (hn : n ≤ node.len) (hs : scratch.len = sb.bs) :
    Safe (mapWalk d sb lb depthLeft node n scratch) fun r => r.2.len = sb.bs := by
  induction depthLeft generalizing node n scratch with
  | zero =>
    unfold mapWalk
    refine (safe_mapStep hn 0).bind fun r _ => ?_
    cases r with
    | done r => exact safe_pure hs
    | child block => exact safe_pure hs
  | succ depthLeft ih =>
    unfold mapWalk
    refine (safe_mapStep hn (depthLeft + 1)).bind fun r _ => ?_
    cases r with
    | done r => exact safe_pure hs
    | child block =>
      refine (safe_readFsBlocks h.blkPerFs (by omega)).bind fun r hr => ?_
      refine safe_ite (fun _ => safe_pure (hr.trans hs)) fun _ => ?_
      exact ih (le_of_eq (hr.trans hs).symm) (hr.trans hs)

theorem safe_map (h : sb.Ok) (hip : ip.Ok) (hs : scratch.len = sb.bs) :
    Safe (map d sb ip lb scratch) fun r => r.2.len = sb.bs :=
  safe_ite (fun _ => safe_pure hs) fun _ => safe_mapWalk h (le_of_eq hip.symm) hs

/-! ## Directories -/

theorem safe_dirScan (hb : blk.len = sb.bs) :
    Safe (dirScan sb blk nameOut lb fuel pos off) fun r =>
      ∀ e off, r = .found e off → e.name.len = nameOut.len := by
  induction fuel generalizing pos off with
  | zero => exact safe_hang
  | succ fuel ih =>
    refine safe_ite (fun _ => safe_pure (by simp)) fun hpos => ?_
    refine (Buf.safe_load (by omega)).bind fun ino _ => (Buf.safe_load (by omega)).bind fun len _ => ?_
    refine (Buf.safe_load (by omega)).bind fun nlen _ => (Buf.safe_load (by omega)).bind fun ftype _ => ?_
    refine safe_ite (fun _ => safe_pure (by simp)) fun hlen => ?_
    refine safe_ite (fun _ => ih) fun _ => safe_ite (fun _ => ih) fun hname => ?_
    refine safe_ite (fun hout => ?_) fun _ => safe_pure (by rintro e off ⟨⟩; rfl)
    have hcn : (if nlen < nameOut.len - 1 then nlen else nameOut.len - 1) ≤ nlen ∧
        (if nlen < nameOut.len - 1 then nlen else nameOut.len - 1) + 1 ≤ nameOut.len := by
      split <;> omega
    refine (Buf.safe_copy (by omega) (by omega)).bind fun name hn => ?_
    refine (Buf.safe_fill (by omega)).bind fun name' hn' => safe_pure ?_
    rintro e off ⟨⟩
    exact hn'.trans hn

theorem safe_readDirBlock (h : sb.Ok) {phys : ℕ} {uninit : Bool} (hb : blk.len = sb.bs) :
    Safe (readDirBlock d sb phys uninit blk) fun r => ∀ b, r = some b → b.len = sb.bs := by
  refine safe_ite (fun _ => ?_) fun _ => ?_
  · refine (Buf.safe_fill (by omega)).bind fun b hlen => safe_pure ?_
    rintro b ⟨⟩
    exact hlen.trans hb
  · refine (safe_readFsBlocks h.blkPerFs (by omega)).bind fun r hr => ?_
    refine safe_ite (fun _ => safe_pure (by simp)) fun _ => safe_pure ?_
    rintro b ⟨⟩
    exact hr.trans hb

theorem safe_dirLoop (h : sb.Ok) (hdir : dir.Ok) (hb : blk.len = sb.bs) :
    Safe (dirLoop d sb dir nameOut fuel blk off) fun r =>
      ∀ e, r.1 = .ok e → e.name.len = nameOut.len := by
  induction fuel generalizing blk off with
  | zero => exact safe_hang
  | succ fuel ih =>
    refine safe_ite (fun _ => safe_pure (by simp)) fun _ => ?_
    refine (safe_div h.bs_ne).bind fun q _ => (safe_mod h.bs_ne).bind fun pos _ => ?_
    refine (safe_map h hdir hb).bind fun r hr => ?_
    obtain ⟨r, blk'⟩ := r
    cases r with
    | error rc => exact safe_ite (fun _ => ih hr) fun _ => safe_pure (by simp)
    | ok m =>
      refine (safe_readDirBlock h hr).bind fun r' hr' => ?_
      cases r' with
      | none => exact safe_pure (by simp)
      | some blk'' =>
        refine (safe_dirScan (hr' blk'' rfl)).bind fun scan hscan => ?_
        cases scan with
        | broken => exact safe_pure (by simp)
        | found e off =>
          refine safe_pure ?_
          rintro e' ⟨⟩
          exact hscan e off rfl
        | done off => exact ih (hr' blk'' rfl)

/-- **`ext4_dir_next` is safe** at every offset. -/
theorem safe_dirNext (h : sb.Ok) (hdir : dir.Ok) :
    Safe (dirNext d sb dir nameOut fuel off) fun r => ∀ e, r.1 = .ok e → e.name.len = nameOut.len := by
  refine safe_ite (fun _ => safe_pure (by simp)) fun _ => ?_
  refine (safe_kmalloc sb.bs).bind fun r hr => ?_
  cases r with
  | none => exact safe_pure (by simp)
  | some blk => exact safe_dirLoop h hdir (hr blk rfl)

theorem safe_strncpyLoop {src dst : Buf} {i : ℕ} (hs : i + n ≤ src.len) (hd : i + n < dst.len) :
    Safe (strncpyLoop src n dst i) fun b => b.len = dst.len := by
  induction n generalizing dst i with
  | zero => exact Buf.safe_fill (by omega)
  | succ n ih =>
    refine (Buf.safe_load (by omega)).bind fun c _ => safe_ite (fun _ => ?_) fun _ => ?_
    · exact Buf.safe_fill (by omega)
    · refine (Buf.safe_copy (by omega) (by omega)).bind fun b hb => ?_
      exact (ih (by omega) (by omega)).mono fun b' hb' => hb'.trans hb

/-- **`ext4_readdir` is safe** at every offset. -/
theorem safe_readdir (h : sb.Ok) (hip : ip.Ok) {stack : Bytes} (hout : out.len = nameMax) :
    Safe (readdir d sb ip stack fuel off out) fun _ => True := by
  refine (safe_dirNext h hip).bind fun r hr => ?_
  obtain ⟨r, next⟩ := r
  cases r with
  | error rc => exact safe_pure trivial
  | ok e =>
    have hlen : e.name.len = nameMax := hr e rfl
    have hn : nameMax = 64 := rfl
    exact (safe_strncpyLoop (by omega) (by omega)).bind fun _ _ => safe_pure trivial

theorem safe_nameEq {comp : Str} {i : ℕ} (h : i + comp.length < blk.len) :
    Safe (nameEq blk comp i) fun _ => True := by
  induction comp generalizing i with
  | nil => exact (Buf.safe_load (by simpa using h)).bind fun _ _ => safe_pure trivial
  | cons x comp ih =>
    rw [List.length_cons] at h
    refine (Buf.safe_load (by omega)).bind fun c _ => ?_
    exact safe_ite (fun _ => safe_pure trivial) fun _ => ih (by omega)

theorem safe_findLoop (h : sb.Ok) (hdir : dir.Ok) {comp : Str} {stack : Bytes}
    (hcomp : comp.length < nameMax) : Safe (findLoop d sb dir comp stack fuel off) fun _ => True := by
  induction fuel generalizing off with
  | zero => exact safe_hang
  | succ fuel ih =>
    refine (safe_dirNext h hdir).bind fun r hr => ?_
    obtain ⟨r, off⟩ := r
    cases r with
    | error rc => exact safe_pure trivial
    | ok e =>
      have hlen : e.name.len = nameMax := hr e rfl
      refine (safe_nameEq (by omega)).bind fun eq _ => safe_ite (fun _ => ?_) fun _ => ih
      refine (safe_readInode h e.ino).bind fun r _ => ?_
      cases r with
      | error rc => exact safe_pure trivial
      | ok t => exact safe_ite (fun _ => safe_pure trivial) fun _ => safe_pure trivial

theorem safe_lookupLoop (h : sb.Ok) {stack : Bytes} {p : Str} {ino : ℕ} :
    Safe (lookupLoop d sb stack fuel p ino) fun _ => True := by
  induction fuel generalizing p ino with
  | zero => exact safe_hang
  | succ fuel ih =>
    refine safe_ite (fun _ => safe_pure trivial) fun hcomp => ?_
    refine (safe_readInode h ino).bind fun r hr => ?_
    cases r with
    | error rc => exact safe_pure trivial
    | ok dir =>
      refine safe_ite (fun _ => safe_pure trivial) fun _ => ?_
      refine safe_ite (fun _ => safe_pure trivial) fun _ => ?_
      refine (safe_findLoop h (hr dir rfl) (by omega)).bind fun r' _ => ?_
      cases r' with
      | error rc => exact safe_pure trivial
      | ok found => exact safe_ite (fun _ => safe_pure trivial) fun _ => ih

/-- **`ext4_lookup` is safe** for every path. -/
theorem safe_lookup (h : sb.Ok) (stack : Bytes) (fuel : ℕ) (rel : Str) :
    Safe (lookup d sb stack fuel rel) fun _ => True :=
  safe_ite (fun _ => safe_pure trivial) fun _ => safe_lookupLoop h

/-! ## Files -/

theorem safe_readLoop (h : sb.Ok) (hip : ip.Ok) {done : ℕ} (hb : blk.len = sb.bs)
    (ho : done + len ≤ out.len) :
    Safe (readLoop d sb ip fuel out blk done pos len) fun _ => True := by
  induction fuel generalizing out blk done pos len with
  | zero => exact safe_hang
  | succ fuel ih =>
    refine safe_ite (fun _ => safe_pure trivial) fun _ => ?_
    refine (safe_div h.bs_ne).bind fun q _ => (safe_mod h.bs_ne).bind fun m hm => ?_
    have hinner : m % 2 ^ 32 < sb.bs := by
      rw [hm]
      exact lt_of_le_of_lt (Nat.mod_le _ _) (Nat.mod_lt _ (Nat.pos_of_ne_zero h.bs_ne))
    dsimp only
    generalize hchunk : (if len < sb.bs - m % 2 ^ 32 then len else sb.bs - m % 2 ^ 32) = chunk
    have hlen : chunk ≤ len ∧ m % 2 ^ 32 + chunk ≤ sb.bs := by
      rw [← hchunk]
      split <;> omega
    refine (safe_map h hip hb).bind fun r hr => ?_
    obtain ⟨r, blk'⟩ := r
    have hzero : Safe (do
        let out ← out.fill done chunk 0
        readLoop d sb ip fuel out blk' (done + chunk) (pos + chunk) (len - chunk)) fun _ => True := by
      refine (Buf.safe_fill (by omega)).bind fun out' hout' => ?_
      exact ih hr (by omega)
    cases r with
    | error rc => exact safe_ite (fun _ => hzero) fun _ => safe_pure trivial
    | ok x =>
      refine safe_ite (fun _ => hzero) fun _ => ?_
      have hr : blk'.len = sb.bs := hr
      refine (safe_readFsBlocks h.blkPerFs (by omega)).bind fun r' hr' => ?_
      refine safe_ite (fun _ => safe_pure trivial) fun _ => ?_
      refine (Buf.safe_copy (by omega) (by omega)).bind fun out' hout' => ?_
      exact ih (hr'.trans hr) (by omega)

/-- **`ext4_read` is safe** at every position, for a buffer of `len` bytes. -/
theorem safe_read (h : sb.Ok) (hip : ip.Ok) (ho : len ≤ out.len) :
    Safe (read d sb ip pos len out) fun _ => True := by
  refine safe_ite (fun _ => safe_pure trivial) fun _ => ?_
  refine safe_ite (fun _ => safe_pure trivial) fun _ => ?_
  refine safe_ite (fun _ => safe_pure trivial) fun _ => ?_
  refine (safe_kmalloc sb.bs).bind fun r hr => ?_
  cases r with
  | none => exact safe_pure trivial
  | some blk =>
    refine (safe_readLoop h hip (hr blk rfl) ?_).bind fun _ _ => ?_
    · split <;> omega
    · exact safe_ite (fun _ => safe_pure trivial) fun _ => safe_pure trivial

/-! ## Mounting -/

theorem safe_load64 {is64bit : Bool} {dflt : ℕ} (h : off + n ≤ buf.len) :
    Safe (load64 is64bit n buf off dflt) fun r => is64bit = false → r = dflt := by
  refine safe_ite (fun h64 => ?_) fun _ => safe_pure fun _ => rfl
  exact (Buf.safe_load h).mono fun r _ h0 => absurd (h64.symm.trans h0) (by simp)

/-- What `ext4_mount` has checked before it reads the group descriptors. -/
structure Sb.Parsed (sb : Sb) : Prop where
  bs_pos : 1024 ≤ sb.bs
  bs_le : sb.bs ≤ 8192
  blkPerFs : devBlk * sb.blkPerFs = sb.bs
  inodesPerGroup : sb.inodesPerGroup ≠ 0
  inodeSize : 128 ≤ sb.inodeSize
  descSize : (if sb.is64bit then 64 else 32) ≤ sb.descSize

theorem safe_parseSb {sec : Buf} (h : sec.len = 1024) :
    Safe (parseSb sec) fun r => ∀ sb, r = .ok sb → sb.Parsed := by
  refine (Buf.safe_load (by omega)).bind fun magic _ => safe_ite (fun _ => safe_pure (by simp)) fun _ => ?_
  refine (Buf.safe_load (by omega)).bind fun lo _ => (Buf.safe_load (by omega)).bind fun logBs _ => ?_
  refine safe_ite (fun _ => safe_pure (by simp)) fun hlog => ?_
  refine (Buf.safe_load (by omega)).bind fun bpg _ => (Buf.safe_load (by omega)).bind fun ipg _ => ?_
  refine (Buf.safe_load (by omega)).bind fun isize _ => safe_ite (fun _ => safe_pure (by simp)) fun hgroup => ?_
  refine safe_ite (fun _ => safe_pure (by simp)) fun hisize => ?_
  refine (Buf.safe_load (by omega)).bind fun incompat _ => safe_ite (fun _ => safe_pure (by simp)) fun _ => ?_
  dsimp only
  generalize decide (incompat &&& ft64bit ≠ 0) = is64bit
  refine (safe_load64 (by omega)).bind fun hi _ => safe_ite (fun _ => safe_pure (by simp)) fun _ => ?_
  refine (safe_load64 (by omega)).bind fun descSize hdesc => ?_
  refine safe_ite (fun _ => safe_pure (by simp)) fun h64 => ?_
  refine safe_ite (fun _ => safe_pure (by simp)) fun hds => ?_
  refine (safe_div (by omega)).bind fun q _ => safe_ite (fun _ => safe_pure (by simp)) fun _ => ?_
  refine safe_pure ?_
  rintro sb ⟨⟩
  have hpow : ∃ k, 2 ^ logBs = k ∧ 1 ≤ k ∧ k ≤ 8 := by
    refine ⟨_, rfl, Nat.one_le_two_pow, ?_⟩
    exact (Nat.pow_le_pow_right (by norm_num) (by omega : logBs ≤ 3)).trans (by norm_num)
  obtain ⟨k, hk, hk1, hk8⟩ := hpow
  refine ⟨?_, ?_, ?_, ?_, ?_, ?_⟩
  · dsimp only
    omega
  · dsimp only
    omega
  · dsimp only [devBlk]
    omega
  · dsimp only
    omega
  · dsimp only
    omega
  · dsimp only
    split
    · rename_i h1
      have : ¬ descSize < 64 := fun h2 => h64 ⟨h1, h2⟩
      omega
    · omega

theorem safe_readGdt (h : sb.Parsed) : Safe (readGdt d sb) fun r => ∀ sb, r = .ok sb → sb.Ok := by
  have hbs := h.bs_pos
  refine (safe_div (by omega)).bind fun blocks hblocks => safe_ite (fun _ => safe_pure (by simp)) fun _ => ?_
  refine (safe_kmalloc _).bind fun r hr => ?_
  cases r with
  | none => exact safe_pure (by simp)
  | some gd =>
    have hgd := hr gd rfl
    refine (safe_readFsBlocks h.blkPerFs (le_of_eq hgd.symm)).bind fun r' hr' => ?_
    refine safe_ite (fun _ => safe_pure (by simp)) fun _ => safe_pure ?_
    rintro sb' ⟨⟩
    refine ⟨h.bs_pos, h.bs_le, h.blkPerFs, h.inodesPerGroup, h.inodeSize, h.descSize, ?_⟩
    dsimp only
    rw [hr', hgd, hblocks]
    -- the blocks are the bytes of the table, rounded up
    have hmod := Nat.div_add_mod (sb.ngroups * sb.descSize + sb.bs - 1) sb.bs
    have hlt := Nat.mod_lt (sb.ngroups * sb.descSize + sb.bs - 1) (by omega : 0 < sb.bs)
    rw [Nat.mul_comm] at hmod
    omega

/-- **`ext4_mount` is safe**, and what it returns has been checked. -/
theorem safe_mount (sec : Bytes) : Safe (mount d sec) fun r => ∀ sb, r = .ok sb → sb.Ok := by
  refine (safe_readBlocks (by norm_num)).bind fun r hr => safe_ite (fun _ => safe_pure (by simp)) fun _ => ?_
  refine (safe_parseSb hr).bind fun r' hr' => ?_
  cases r' with
  | error rc => exact safe_pure (by simp)
  | ok sb =>
    refine (safe_readGdt (hr' sb rfl)).bind fun r'' hr'' => ?_
    cases r'' with
    | error rc => exact safe_pure (by simp)
    | ok sb' =>
      have hok := hr'' sb' rfl
      refine (safe_readInode hok rootIno).bind fun root _ => ?_
      cases root with
      | error rc => exact safe_pure (by simp)
      | ok root =>
        refine safe_ite (fun _ => safe_pure (by simp)) fun _ => ?_
        refine (Buf.safe_copy (by norm_num) (by rw [hr]; norm_num)).bind fun _ _ => safe_pure ?_
        rintro sb'' ⟨⟩
        exact hok

/-! ## Sessions -/

theorem safe_withInode (h : sb.Ok) {ino : ℕ} {f : Inode → M Unit}
    (hf : ∀ ip : Inode, ip.Ok → Safe (f ip) fun _ => True) :
    Safe (withInode d sb ino f) fun _ => True := by
  refine (safe_readInode h ino).bind fun r hr => ?_
  cases r with
  | error rc => exact safe_pure trivial
  | ok ip => exact hf ip (hr ip rfl)

theorem safe_serve (h : sb.Ok) (stack : Bytes) (r : Request) :
    Safe (serve d sb stack fuel r) fun _ => True := by
  cases r with
  | lookup rel => exact (safe_lookup h stack fuel rel).bind fun _ _ => safe_pure trivial
  | map ino lb =>
    refine safe_withInode h fun ip hip => (safe_kmalloc sb.bs).bind fun r hr => ?_
    cases r with
    | none => exact safe_pure trivial
    | some scratch => exact (safe_map h hip (hr scratch rfl)).bind fun _ _ => safe_pure trivial
  | dirNext ino off =>
    exact safe_withInode h fun ip hip => (safe_dirNext h hip).bind fun _ _ => safe_pure trivial
  | readdir ino off =>
    exact safe_withInode h fun ip hip => (safe_readdir h hip rfl).bind fun _ _ => safe_pure trivial
  | read ino pos len =>
    exact safe_withInode h fun ip hip => (safe_read h hip le_rfl).bind fun _ _ => safe_pure trivial

theorem safe_serveAll (h : sb.Ok) (stack : Bytes) (rs : List Request) :
    Safe (serveAll d sb stack fuel rs) fun _ => True := by
  induction rs with
  | nil => exact safe_pure trivial
  | cons r rs ih => exact (safe_serve h stack r).bind fun _ _ => ih

theorem safe_session (sec stack : Bytes) (rs : List Request) :
    Safe (session d sec stack fuel rs) fun _ => True := by
  refine (safe_mount sec).bind fun r hr => ?_
  cases r with
  | error rc => exact safe_pure trivial
  | ok sb => exact safe_serveAll (hr sb rfl) stack rs

/-- **Parsing is memory-safe on every image**: whatever the device holds and
answers, whatever `kmalloc` gives and whatever is asked, no access is outside
its buffer and no division is by zero. A loop that does not end is cut by
`fuel`, so this is about every access it makes. -/
theorem session_ne_fault (d : Disk) (sec stack : Bytes) (fuel : ℕ) (rs : List Request) (w : World) :
    session d sec stack fuel rs w ≠ .fault :=
  (safe_session sec stack rs).ne_fault w

-- the superblock, a descriptor and the mode of the root of an image that mounts
example :
    (match mount ⟨fun a => ([(1080, 0x53), (1081, 0xef), (1028, 64), (1056, 64), (1064, 8),
        (1112, 128), (1120, 0x40), (2056, 5), (5249, 0x40)].lookup a).getD 0, fun _ _ => 0⟩
        (Bytes.const 0) ⟨fun _ => some (Bytes.const 0), 0, []⟩ with
      | .ret (.ok sb, _) => sb.bs
      | _ => 0) = 1024 := by
  decide

end Ext4

end Csos

import Csos.Common.Ledger
import Csos.Ext4.Progress
/-!
# ext4 — what a mount allocates and frees

`ext4_mount` with its calls of `kmalloc` and `kfree`, which the heap keeps, on
any device and with any answers of `kmalloc`. With the calls left out it is the
`mount` of the model (`fill_refines`). All that it takes it frees or keeps,
except that its cleanup reads `sb->gd` also when the record has not been
cleared, and then frees what is left in it (`mount_releases_iff`).
-/

namespace Csos

namespace Ext4

open Vfs Checked

open scoped List

/-- `sizeof(ext4_sb_t)`. -/
abbrev sbSize : ℕ := 56
/-- Where `gd` is in `ext4_sb_t`. -/
abbrev sbGd : ℕ := 48
/-- `VDEV_BLOCK`. -/
abbrev vdevBlock : ℕ := 2

/-! ## The heap -/

/-- The world, where the blocks of `kmalloc` are, and the calls so far: the
blocks it has returned, and what has been given to `kfree`. -/
structure Heap where
  world : World
  addr : ℕ → ℕ+
  mallocs : List ℕ
  frees : List ℕ

/-- What `ext4_mount` reads of a `vdev_t`; its `read_blocks`, if there is one,
is that of a disk. -/
structure Vdev where
  type : ℕ
  readBlocks : Option Disk
  blockSize : ℕ

namespace Heap

/-- What neither allocates nor frees. -/
def run {α : Type} (x : M α) : Checked Heap α := fun h =>
  match x h.world with
  | .fault => .fault
  | .hang => .hang
  | .ret (a, w) => .ret (a, { h with world := w })

/-- `kmalloc`, with the address of the block. -/
def kmalloc (size : ℕ) : Checked Heap (Option (ℕ+ × Buf)) := fun h =>
  let w := { h.world with used := h.world.used + 1 }
  match h.world.alloc h.world.used with
  | none => .ret (none, { h with world := w })
  | some bytes =>
    .ret (some (h.addr h.world.used, ⟨bytes, size⟩),
      { h with world := w, mallocs := h.mallocs ++ [(h.addr h.world.used : ℕ)] })

/-- `kfree`. -/
def kfree (a : ℕ) : Checked Heap Unit := fun h => .ret ((), { h with frees := h.frees ++ [a] })

/-! ## Mounting -/

section

variable (d : Disk) (sb : Sb)

/-- `ext4_read_inode`. -/
def readInode (ino : ℕ) : Checked Heap (Except ℤ Inode) := do
  if ino = 0 then return .error errInval
  if sb.ngroups * sb.inodesPerGroup < ino then return .error errNoent
  let group ← div (ino - 1) sb.inodesPerGroup
  let idx ← mod (ino - 1) sb.inodesPerGroup
  let off := idx * sb.inodeSize
  let itab ← run (itabBlock sb group)
  let fsblk := (itab + (← div off sb.bs)) % 2 ^ 64
  let inner ← mod off sb.bs
  if sb.bs < inner + sb.inodeSize then return .error errNotsup
  match ← kmalloc sb.bs with
  | none => return .error errNomem
  | some (a, blk) =>
    let (rc, blk) ← run (readFsBlocks d sb fsblk 1 blk)
    if rc ≠ 0 then
      kfree a
      return .error rc
    let mode ← blk.load 2 inner
    let sizeLo ← blk.load 4 (inner + 4)
    let sizeHi ← blk.load 4 (inner + 108)
    let flags ← blk.load 4 (inner + 32)
    let iblock ← (⟨Bytes.const 0, 60⟩ : Buf).copy 0 60 blk (inner + 40)
    kfree a
    return .ok
      { ino := ino
        mode := mode
        size := sizeLo + sizeHi * 2 ^ 32
        flags := flags
        isDir := mode &&& sIfmt = sIfdir
        isReg := mode &&& sIfmt = sIfreg
        blk := iblock }

/-- The group descriptors of `ext4_mount`, with what `sb->gd` holds then. -/
def readGdt : Checked Heap (Except (ℤ × ℕ) (Sb × ℕ+)) := do
  let gdtBytes := sb.ngroups * sb.descSize
  let gdtBlocks ← div (gdtBytes + sb.bs - 1) sb.bs
  if gdtBlocks = 0 ∨ 0xffffffff < gdtBlocks then return .error (errNotsup, 0)
  match ← kmalloc (gdtBlocks * sb.bs) with
  | none => return .error (errNomem, 0)
  | some (a, gd) =>
    let (rc, gd) ← run (readFsBlocks d sb (if sb.bs = 1024 then 2 else 1) gdtBlocks gd)
    if rc ≠ 0 then return .error (rc, a)
    return .ok ({ sb with gd := gd }, a)

/-- `ext4_mount` once the record is cleared, up to the printed label, with what
`sb->gd` holds then. -/
def fill (sec : Buf) : Checked Heap (Except (ℤ × ℕ) (Sb × ℕ+)) := do
  let (rc, sec) ← run (d.readBlocks 2 2 sec)
  if rc ≠ 0 then return .error (rc, 0)
  match ← run (parseSb sec) with
  | .error rc => return .error (rc, 0)
  | .ok sb =>
    match ← readGdt d sb with
    | .error e => return .error e
    | .ok (sb, gd) =>
      match ← readInode d sb rootIno with
      | .error rc => return .error (rc, gd)
      | .ok root =>
        if root.isDir = false then return .error (errNotsup, gd)
        -- the label that is printed
        let _ ← (⟨Bytes.const 0, 17⟩ : Buf).copy 0 16 sec 120
        return .ok (sb, gd)

end

/-- `if (p) kfree(p)`. -/
def kfreeIf (a : ℕ) : Checked Heap Unit := if a ≠ 0 then kfree a else pure ()

/-- `fail:` of `ext4_mount`; `gd` is what `sb->gd` holds, if there is a record. -/
def cleanup (sb gd sec : ℕ) : Checked Heap Unit := do
  if sb ≠ 0 then
    kfreeIf gd
    kfree sb
  kfreeIf sec

/-- The checks of `ext4_mount` on its arguments. -/
def checkDev (find : Str → Option Vdev) (m : Option ℕ) (dev : Option Str) : Except ℤ Disk :=
  match m, dev with
  | none, _ => .error errInval
  | _, none => .error errInval
  | some _, some dev =>
    if dev = [] then .error errInval
    else match find dev with
    | none => .error errNodev
    | some vd =>
      if vd.type ≠ vdevBlock then .error errNodev
      else match vd.readBlocks with
      | none => .error errNodev
      | some d => if vd.blockSize ≠ devBlk then .error errNotsup else .ok d

/-- `ext4_mount`: what it returns, with `sb->gd`, and `m->priv` afterwards; `m`
is what `m->priv` holds, if `m` is not NULL. -/
def mount (find : Str → Option Vdev) (m : Option ℕ) (dev : Option Str) :
    Checked Heap (Except ℤ (Sb × ℕ+) × Option ℕ) := do
  match checkDev find m dev with
  | .error rc => return (.error rc, m)
  | .ok d =>
    let sb ← kmalloc sbSize
    let sec ← kmalloc 1024
    match sb, sec with
    | some (sb, _), some (sec, buf) =>
      -- the record is cleared
      match ← fill d buf with
      | .error (rc, gd) =>
        cleanup sb gd sec
        return (.error rc, m)
      | .ok r =>
        kfree sec
        return (.ok r, some sb)
    | some (sb, buf), none =>
      -- `sb->gd` is what is left in the block
      let gd ← buf.load 8 sbGd
      cleanup sb gd 0
      return (.error errNomem, m)
    | none, sec =>
      cleanup 0 0 (sec.elim 0 fun r => r.1)
      return (.error errNomem, m)

/-! ## The model without the heap -/

variable {d : Disk} {sb : Sb} {α : Type} {h h' : Heap} {held rest : List ℕ} {m : Option ℕ}

theorem run_refines (x : M α) : Refines world id (run x) x := by
  intro h
  cases hx : x h.world with
  | fault =>
    dsimp only [run]
    rw [hx]
  | hang =>
    dsimp only [run]
    rw [hx]
  | ret r =>
    refine ⟨r.1, { h with world := r.2 }, ?_, rfl, rfl⟩
    rw [run, hx]

theorem kmalloc_refines (size : ℕ) :
    Refines world (Option.map Prod.snd) (kmalloc size) (Ext4.kmalloc size) := by
  intro h
  cases ha : h.world.alloc h.world.used with
  | none =>
    rw [Ext4.kmalloc, ha]
    refine ⟨none, { h with world := { h.world with used := h.world.used + 1 } }, ?_, rfl, rfl⟩
    rw [kmalloc, ha]
  | some bytes =>
    rw [Ext4.kmalloc, ha]
    exact ⟨some (h.addr h.world.used, ⟨bytes, size⟩), _, by rw [kmalloc, ha], rfl, rfl⟩

/-- `kfree` is nothing to the model. -/
theorem kfree_refines {β : Type} {f : α → β} {x : Checked Heap α} {y : M β} (a : ℕ)
    (hx : Refines world f x y) : Refines world f (kfree a >>= fun _ => x) y := fun h =>
  hx { h with frees := h.frees ++ [a] }

/-- **`ext4_read_inode`** does what it does in the model. -/
theorem readInode_refines (ino : ℕ) :
    Refines world id (readInode d sb ino) (Ext4.readInode d sb ino) := by
  refine refines_ite (refines_pure _) (refines_ite (refines_pure _) ?_)
  refine refines_div.bind fun group => refines_mod.bind fun idx => ?_
  refine (run_refines _).bind fun itab => refines_div.bind fun q => refines_mod.bind fun inner => ?_
  refine refines_ite (refines_pure _) ((kmalloc_refines _).bind fun r => ?_)
  cases r with
  | none => exact refines_pure _
  | some r =>
    refine (run_refines _).bind fun r' => refines_ite (kfree_refines _ (refines_pure _)) ?_
    refine Buf.refines_load.bind fun mode => Buf.refines_load.bind fun lo => ?_
    refine Buf.refines_load.bind fun hi => Buf.refines_load.bind fun flags => ?_
    exact Buf.refines_copy.bind fun iblock => kfree_refines _ (refines_pure _)

/-- What the caller is told, without the addresses. -/
def told : Except (ℤ × ℕ) (Sb × ℕ+) → Except ℤ Sb
  | .error (rc, _) => .error rc
  | .ok (sb, _) => .ok sb

theorem readGdt_refines : Refines world told (readGdt d sb) (Ext4.readGdt d sb) := by
  refine refines_div.bind fun blocks => refines_ite (refines_pure _) ?_
  refine (kmalloc_refines _).bind fun r => ?_
  cases r with
  | none => exact refines_pure _
  | some r => exact (run_refines _).bind fun r' => refines_ite (refines_pure _) (refines_pure _)

/-- **`ext4_mount`** does what it does in the model. -/
theorem fill_refines (sec : Bytes) : Refines world told (fill d ⟨sec, 1024⟩) (Ext4.mount d sec) := by
  refine (run_refines _).bind fun r => refines_ite (refines_pure _) ?_
  refine (run_refines _).bind fun r' => ?_
  cases r' with
  | error rc => exact refines_pure _
  | ok sb =>
    refine readGdt_refines.bind fun r'' => ?_
    cases r'' with
    | error e => exact refines_pure _
    | ok s =>
      refine (readInode_refines _).bind fun root => ?_
      cases root with
      | error rc => exact refines_pure _
      | ok root =>
        exact refines_ite (refines_pure _) (Buf.refines_copy.bind fun _ => refines_pure _)

/-! ## What is kept -/

/-- What `kmalloc` returns and `kfree` is given. -/
def ledger : Ledger Heap ℕ := ⟨mallocs, frees⟩

theorem leaves_run (x : M α) : Leaves ledger held (run x) fun _ => held := by
  refine .of_quiet fun h a h' hret => ?_
  rw [run] at hret
  cases hx : x h.world with
  | fault =>
    rw [hx] at hret
    cases hret
  | hang =>
    rw [hx] at hret
    cases hret
  | ret r =>
    rw [hx] at hret
    cases hret
    exact ⟨rfl, rfl⟩

/-- A pointer that is NULL or that of a block that is held. -/
def owned (a : ℕ) : List ℕ := if a = 0 then [] else [a]

theorem owned_coe (a : ℕ+) : owned a = [(a : ℕ)] := if_neg a.ne_zero

/-- The block behind what `kmalloc` returns. -/
def block (r : Option (ℕ+ × Buf)) : List ℕ := r.elim [] fun r => [(r.1 : ℕ)]

theorem owned_elim (r : Option (ℕ+ × Buf)) : owned (r.elim 0 fun r => r.1) = block r := by
  cases r with
  | none => rfl
  | some r => exact owned_coe r.1

theorem leaves_kmalloc (size : ℕ) : Leaves ledger held (kmalloc size) fun r => held ++ block r := by
  intro h r h' hret
  rw [kmalloc] at hret
  cases ha : h.world.alloc h.world.used with
  | none =>
    rw [ha] at hret
    cases hret
    exact ⟨[], [], by simp [ledger], by simp [ledger], by simp [block]⟩
  | some bytes =>
    rw [ha] at hret
    cases hret
    exact ⟨[(h.addr h.world.used : ℕ)], [], rfl, by simp [ledger], .rfl⟩

theorem leaves_kfree (a : ℕ) (h : held.Perm (a :: rest)) : Leaves ledger held (kfree a) fun _ => rest := by
  rintro g r g' hret
  cases hret
  exact ⟨[], [a], by simp [ledger], rfl, by simpa using h⟩

/-- **`ext4_read_inode` keeps nothing.** -/
theorem leaves_readInode (ino : ℕ) : Leaves ledger held (readInode d sb ino) fun _ => held := by
  refine leaves_ite (leaves_pure .rfl) (leaves_ite (leaves_pure .rfl) ?_)
  refine leaves_div.bind fun group => leaves_mod.bind fun idx => ?_
  refine (leaves_run _).bind fun itab => leaves_div.bind fun q => leaves_mod.bind fun inner => ?_
  refine leaves_ite (leaves_pure .rfl) ((leaves_kmalloc _).bind fun r => ?_)
  cases r with
  | none => exact leaves_pure (by simp [block])
  | some r =>
    have hfree : ∀ a : Except ℤ Inode, Leaves ledger (held ++ block (some r)) (kfree r.1 >>= fun _ => pure a) fun _ => held :=
      fun a => (leaves_kfree _ List.perm_append_comm).bind fun _ => leaves_pure .rfl
    refine (leaves_run _).bind fun r' => leaves_ite (hfree _) ?_
    refine Buf.leaves_load.bind fun mode => Buf.leaves_load.bind fun lo => ?_
    refine Buf.leaves_load.bind fun hi => Buf.leaves_load.bind fun flags => ?_
    exact Buf.leaves_copy.bind fun iblock => hfree _

/-- The block behind `sb->gd`. -/
def table : Except (ℤ × ℕ) (Sb × ℕ+) → List ℕ
  | .error (_, gd) => owned gd
  | .ok (_, gd) => [(gd : ℕ)]

theorem leaves_readGdt : Leaves ledger held (readGdt d sb) fun r => held ++ table r := by
  have hnone : ∀ rc, held.Perm (held ++ table (.error (rc, 0))) := by simp [table, owned]
  refine leaves_div.bind fun blocks => leaves_ite (leaves_pure (hnone _)) ?_
  refine (leaves_kmalloc _).bind fun r => ?_
  cases r with
  | none => exact leaves_pure (by simp [block, table, owned])
  | some r =>
    have hfail : ∀ rc, (held ++ block (some r)).Perm (held ++ table (.error (rc, r.1))) := by
      intro rc
      rw [table, owned_coe]
      exact .rfl
    exact (leaves_run _).bind fun r' => leaves_ite (leaves_pure (hfail _)) (leaves_pure .rfl)

/-- **All that is kept is the descriptor table.** -/
theorem leaves_fill (sec : Buf) : Leaves ledger held (fill d sec) fun r => held ++ table r := by
  have hnone : ∀ rc, held.Perm (held ++ table (.error (rc, 0))) := by simp [table, owned]
  refine (leaves_run _).bind fun r => leaves_ite (leaves_pure (hnone _)) ?_
  refine (leaves_run _).bind fun r' => ?_
  cases r' with
  | error rc => exact leaves_pure (hnone _)
  | ok sb =>
    refine leaves_readGdt.bind fun r'' => ?_
    cases r'' with
    | error e => exact leaves_pure .rfl
    | ok s =>
      have hfail : ∀ rc, (held ++ table (.ok s)).Perm (held ++ table (.error (rc, s.2))) := by
        intro rc
        rw [table, table, owned_coe]
      refine (leaves_readInode _).bind fun root => ?_
      cases root with
      | error rc => exact leaves_pure (hfail _)
      | ok root =>
        exact leaves_ite (leaves_pure (hfail _)) (Buf.leaves_copy.bind fun _ => leaves_pure .rfl)

theorem kfreeIf_apply (a : ℕ) (h : Heap) :
    kfreeIf a h = .ret ((), { h with frees := h.frees ++ owned a }) := by
  by_cases h0 : a = 0
  · rw [kfreeIf, owned, if_neg (not_not.mpr h0), if_pos h0, List.append_nil]
    rfl
  · rw [kfreeIf, owned, if_pos h0, if_neg h0]
    rfl

/-- **The cleanup frees what it is told of.** -/
theorem cleanup_apply {sb gd : ℕ} (hsb : sb = 0 → gd = 0) (sec : ℕ) (h : Heap) :
    cleanup sb gd sec h =
      .ret ((), { h with frees := h.frees ++ (owned gd ++ owned sb ++ owned sec) }) := by
  rw [cleanup]
  by_cases h0 : sb = 0
  · rw [if_neg (not_not.mpr h0), hsb h0, h0]
    exact kfreeIf_apply sec h
  · have hown : owned sb = [sb] := if_neg h0
    rw [if_pos h0, bind_of_ret (kfreeIf_apply gd h), hown]
    refine (kfreeIf_apply sec _).trans ?_
    dsimp only
    rw [List.append_assoc, List.append_assoc, List.append_assoc]

theorem leaves_cleanup {sb gd : ℕ} (hsb : sb = 0 → gd = 0) (sec : ℕ) :
    Leaves ledger (owned gd ++ owned sb ++ owned sec) (cleanup sb gd sec) fun _ => [] := by
  intro h r h' hret
  rw [cleanup_apply hsb] at hret
  cases hret
  exact ⟨[], owned gd ++ owned sb ++ owned sec, by simp [ledger], rfl, .rfl⟩

/-! ## Mounts return -/

theorem halts_parseSb (sec : Buf) : Halts (parseSb sec) := by
  have hload64 : ∀ b n off dflt, Halts (load64 b n sec off dflt) := fun b n off dflt =>
    halts_ite Buf.halts_load halts_pure
  refine Buf.halts_load.bind fun magic => halts_ite halts_pure ?_
  refine Buf.halts_load.bind fun lo => Buf.halts_load.bind fun logBs => halts_ite halts_pure ?_
  refine Buf.halts_load.bind fun bpg => Buf.halts_load.bind fun ipg => Buf.halts_load.bind fun isize => ?_
  refine halts_ite halts_pure (halts_ite halts_pure (Buf.halts_load.bind fun incompat => ?_))
  refine halts_ite halts_pure ((hload64 _ _ _ _).bind fun hi => halts_ite halts_pure ?_)
  refine (hload64 _ _ _ _).bind fun desc => halts_ite halts_pure (halts_ite halts_pure ?_)
  exact halts_div.bind fun n => halts_ite halts_pure halts_pure

/-- **`ext4_mount` comes to an end.** -/
theorem halts_mount (sec : Bytes) : Halts (Ext4.mount d sec) := by
  have hblocks : ∀ lba count buf, Halts (d.readBlocks lba count buf) := fun lba count buf =>
    Halts.bind (fun _ h => by cases h) fun _ =>
      halts_ite halts_pure (halts_require.bind fun _ => halts_pure)
  refine (hblocks _ _ _).bind fun r => halts_ite halts_pure ((halts_parseSb _).bind fun r' => ?_)
  cases r' with
  | error rc => exact halts_pure
  | ok sb =>
    refine Halts.bind ?_ fun r'' => ?_
    · refine halts_div.bind fun n => halts_ite halts_pure (Halts.bind (fun _ h => by cases h) fun gd => ?_)
      cases gd with
      | none => exact halts_pure
      | some gd => exact halts_readFsBlocks.bind fun _ => halts_ite halts_pure halts_pure
    · cases r'' with
      | error rc => exact halts_pure
      | ok sb =>
        refine (halts_readInode _).bind fun root => ?_
        cases root with
        | error rc => exact halts_pure
        | ok root => exact halts_ite halts_pure (Buf.halts_copy.bind fun _ => halts_pure)

/-! ## The balance of a mount -/

/-- **What remains of the calls between two heaps**: the blocks that `kmalloc`
has returned are those that have been given to `kfree`, each one time, and
these. -/
def Remain (h h' : Heap) (held : List ℕ) : Prop :=
  ∃ ts gs, h'.mallocs = h.mallocs ++ ts ∧ h'.frees = h.frees ++ gs ∧ ts.Perm (gs ++ held)

/-- **What a mount owes**: on an error nothing remains and `m->priv` is as it
was; otherwise the record, which is `m->priv` then, and the descriptor table
remain. -/
def Balanced (m : Option ℕ) (h h' : Heap) : Except ℤ (Sb × ℕ+) × Option ℕ → Prop
  | (.error _, m') => Remain h h' [] ∧ m' = m
  | (.ok (_, gd), m') => ∃ sb, Remain h h' [sb, (gd : ℕ)] ∧ m' = some sb

/-- **The record is there and `sec` is not**, and where `gd` is in the record
the block holds something else than zeros. -/
def Stale (h : Heap) : Prop :=
  (∃ sb, h.world.alloc h.world.used = some sb ∧ sb.load 8 sbGd ≠ 0) ∧
    h.world.alloc (h.world.used + 1) = none

theorem remain_self (h : Heap) : Remain h h [] := ⟨[], [], by simp, by simp, .rfl⟩

theorem Remain.perm (hr : Remain h h' held) (hp : held.Perm rest) : Remain h h' rest := by
  obtain ⟨ts, gs, ht, hg, hperm⟩ := hr
  exact ⟨ts, gs, ht, hg, hperm.trans (hp.append_left gs)⟩

theorem Remain.length (hr : Remain h h' held) :
    h'.mallocs.length + h.frees.length = h.mallocs.length + h'.frees.length + held.length := by
  obtain ⟨ts, gs, ht, hg, hperm⟩ := hr
  have hlen := hperm.length_eq
  rw [ht, hg]
  simp only [List.length_append] at hlen ⊢
  omega

/-- What remains after the next computation. -/
theorem Remain.leaves {x : Checked Heap α} {kept : α → List ℕ} {h₁ : Heap} {a : α}
    (hr : Remain h h₁ held) (hx : Leaves ledger held x kept) (hret : x h₁ = .ret (a, h')) :
    Remain h h' (kept a) := by
  obtain ⟨ts, gs, ht, hg, hperm⟩ := hr
  obtain ⟨ts', gs', ht', hg', hperm'⟩ := hx h₁ a h' hret
  refine ⟨ts ++ ts', gs ++ gs', ?_, ?_, ?_⟩
  · rw [show h'.mallocs = _ from ht', show ledger.taken h₁ = _ from ht, List.append_assoc]
  · rw [show h'.frees = _ from hg', show ledger.given h₁ = _ from hg, List.append_assoc]
  · calc ts ++ ts' ~ gs ++ held ++ ts' := hperm.append_right ts'
      _ = gs ++ (held ++ ts') := List.append_assoc ..
      _ ~ gs ++ (gs' ++ kept a) := hperm'.append_left gs
      _ = gs ++ gs' ++ kept a := (List.append_assoc ..).symm

/-- `kmalloc`, as it answers. -/
theorem kmalloc_cases (h : Heap) (size : ℕ) : ∃ h₁ : Heap,
    kmalloc size h = .ret ((h.world.alloc h.world.used).map fun b =>
      (h.addr h.world.used, ⟨b, size⟩), h₁) ∧
    h₁.world.alloc = h.world.alloc ∧ h₁.world.used = h.world.used + 1 := by
  let w := { h.world with used := h.world.used + 1 }
  cases ha : h.world.alloc h.world.used with
  | none =>
    refine ⟨{ h with world := w }, ?_, rfl, rfl⟩
    rw [kmalloc, ha]
    rfl
  | some bytes =>
    refine ⟨{ h with world := w, mallocs := h.mallocs ++ [(h.addr h.world.used : ℕ)] }, ?_, rfl, rfl⟩
    rw [kmalloc, ha]
    rfl

section

variable {find : Str → Option Vdev} {dev : Option Str}

/-- With both blocks the mount is balanced. -/
theorem fill_balanced {sb sec : ℕ+} {h₁ : Heap} (m : Option ℕ) (buf : Bytes)
    (hr : Remain h h₁ [(sb : ℕ), (sec : ℕ)]) : ∃ r h',
      (fill d ⟨buf, 1024⟩ >>= fun r => match r with
        | .error (rc, gd) => do
          cleanup sb gd sec
          return (.error rc, m)
        | .ok r => do
          kfree sec
          return (.ok r, some (sb : ℕ))) h₁ = .ret (r, h') ∧ Balanced m h h' r := by
  obtain ⟨r, h₂, hfill, -⟩ := (fill_refines (d := d) buf).returns (safe_mount buf) (halts_mount buf) h₁
  have hkept := hr.leaves (leaves_fill ⟨buf, 1024⟩) hfill
  rw [bind_of_ret hfill]
  cases r with
  | error e =>
    obtain ⟨rc, gd⟩ := e
    have hsb : (sb : ℕ) = 0 → gd = 0 := fun h0 => absurd h0 sb.ne_zero
    have hret := cleanup_apply hsb sec h₂
    have hheld : Remain h h₂ (owned gd ++ owned sb ++ owned sec) := by
      refine hkept.perm ?_
      rw [owned_coe, owned_coe, List.append_assoc]
      exact List.perm_append_comm
    dsimp only
    rw [bind_of_ret hret]
    exact ⟨_, _, rfl, hheld.leaves (leaves_cleanup hsb sec) hret, rfl⟩
  | ok s =>
    have hheld : Remain h h₂ ((sec : ℕ) :: [(sb : ℕ), (s.2 : ℕ)]) := hkept.perm (List.Perm.swap ..)
    have hfree : Leaves ledger ((sec : ℕ) :: [(sb : ℕ), (s.2 : ℕ)]) (kfree sec)
        fun _ => [(sb : ℕ), (s.2 : ℕ)] := leaves_kfree sec .rfl
    have hret : kfree sec h₂ = .ret ((), { h₂ with frees := h₂.frees ++ [(sec : ℕ)] }) := rfl
    have hremain := hheld.leaves hfree hret
    dsimp only
    rw [bind_of_ret hret]
    exact ⟨_, _, rfl, sb, hremain, rfl⟩

/-- Without `sec` the mount is balanced if `gd` is zero where the record was not
cleared. -/
theorem stale_balanced {sb : ℕ+} {h₁ : Heap} (m : Option ℕ) (b : Bytes)
    (hr : Remain h h₁ [(sb : ℕ)]) : ∃ r h',
      ((⟨b, sbSize⟩ : Buf).load 8 sbGd >>= fun gd => do
        cleanup sb gd 0
        return (.error errNomem, m)) h₁ = .ret (r, h') ∧
      (Balanced m h h' r ↔ b.load 8 sbGd = 0) := by
  have hload : (⟨b, sbSize⟩ : Buf).load 8 sbGd h₁ = .ret (b.load 8 sbGd, h₁) :=
    Buf.load_apply (show sbGd + 8 ≤ sbSize by decide) h₁
  rw [bind_of_ret hload]
  generalize b.load 8 sbGd = gd
  have hsb : (sb : ℕ) = 0 → gd = 0 := fun h0 => absurd h0 sb.ne_zero
  have hret := cleanup_apply hsb 0 h₁
  refine ⟨(.error errNomem, m), { h₁ with frees := h₁.frees ++ (owned gd ++ owned sb ++ owned 0) },
    bind_of_ret hret, ?_, ?_⟩
  · -- two calls of `kfree` for one block
    rintro ⟨hbal, -⟩
    by_contra hne
    have hlen := hbal.length
    have hlen₁ := hr.length
    rw [owned_coe, owned, if_neg hne] at hlen
    simp only [List.length_append, List.length_cons, List.length_nil] at hlen hlen₁
    omega
  · intro h0
    have hheld : Remain h h₁ (owned gd ++ owned sb ++ owned 0) := by
      rw [h0, owned_coe]
      exact hr
    exact ⟨hheld.leaves (leaves_cleanup hsb 0) hret, rfl⟩

/-- Without a record the mount is balanced. -/
theorem norecord_balanced {h₁ : Heap} (m : Option ℕ) (sec : Option (ℕ+ × Buf))
    (hr : Remain h h₁ (block sec)) : ∃ r h',
      (cleanup 0 0 (sec.elim 0 fun r => r.1) >>= fun _ => pure (.error errNomem, m)) h₁ = .ret (r, h') ∧
        Balanced m h h' r := by
  have hsb : (0 : ℕ) = 0 → 0 = 0 := fun _ => rfl
  have hret := cleanup_apply hsb (sec.elim 0 fun r => r.1) h₁
  have hheld : Remain h h₁ (owned 0 ++ owned 0 ++ owned (sec.elim 0 fun r => r.1)) := by
    rw [owned_elim]
    exact hr
  exact ⟨_, _, bind_of_ret hret, hheld.leaves (leaves_cleanup hsb _) hret, rfl⟩

/-- **A mount is balanced except where the record is stale.** -/
theorem mount_releases_iff (find : Str → Option Vdev) (m : Option ℕ) (dev : Option Str) (h : Heap) :
    ∃ r h', mount find m dev h = .ret (r, h') ∧
      (Balanced m h h' r ↔ ¬ ((∃ d, checkDev find m dev = .ok d) ∧ Stale h)) := by
  cases hc : checkDev find m dev with
  | error rc =>
    refine ⟨(.error rc, m), h, by rw [mount, hc]; rfl, fun _ => by simp, fun _ => ⟨remain_self h, rfl⟩⟩
  | ok d =>
    obtain ⟨h₁, hret₁, halloc₁, hused₁⟩ := kmalloc_cases h sbSize
    obtain ⟨h₂, hret₂, -, -⟩ := kmalloc_cases h₁ 1024
    have hr₁ := (remain_self h).leaves (leaves_kmalloc sbSize) hret₁
    have hr₂ := hr₁.leaves (leaves_kmalloc 1024) hret₂
    rw [halloc₁, hused₁] at hret₂ hr₂
    rw [mount, hc]
    dsimp only
    rw [bind_of_ret hret₁, bind_of_ret hret₂]
    cases hsb : h.world.alloc h.world.used with
    | none =>
      have hstale : ¬ Stale h := fun hs => by
        obtain ⟨sb, hsome, -⟩ := hs.1
        rw [hsb] at hsome
        cases hsome
      rw [hsb] at hr₂
      obtain ⟨r, h', hret, hbal⟩ := norecord_balanced m _ hr₂
      exact ⟨r, h', hret, fun _ hs => hstale hs.2, fun _ => hbal⟩
    | some b =>
      cases hsec : h.world.alloc (h.world.used + 1) with
      | none =>
        have hstale : Stale h ↔ b.load 8 sbGd ≠ 0 := by
          rw [Stale, hsb, hsec]
          simp
        rw [hsb, hsec] at hr₂
        obtain ⟨r, h', hret, hbal⟩ := stale_balanced m b hr₂
        refine ⟨r, h', hret, hbal.trans ?_⟩
        rw [hstale]
        simp
      | some b' =>
        have hstale : ¬ Stale h := fun hs => absurd (hsec.symm.trans hs.2) (by simp)
        rw [hsb, hsec] at hr₂
        obtain ⟨r, h', hret, hbal⟩ := fill_balanced (d := d) m b' hr₂
        exact ⟨r, h', hret, fun _ hs => hstale hs.2, fun _ => hbal⟩

end

/-! ### One block -/

/-- A heap with one block, full of ones. -/
def oneBlock : Heap where
  world := ⟨fun i => if i = 0 then some (Bytes.const 1) else none, 0, []⟩
  addr _ := 64
  mallocs := []
  frees := []

/-- **The cleanup frees a pointer that was left in the block.** -/
theorem mount_frees_stale : ∃ h',
    mount (fun _ => some ⟨vdevBlock, some sampleDisk, 512⟩) (some 7) (some [104]) oneBlock =
      .ret ((.error errNomem, some 7), h') ∧
    h'.mallocs = [64] ∧ h'.frees = [0x0101010101010101, 64] ∧
    ¬ Balanced (some 7) oneBlock h' (.error errNomem, some 7) := by
  refine ⟨_, rfl, rfl, rfl, ?_⟩
  rintro ⟨hremain, -⟩
  exact absurd hremain.length (by decide)

end Heap

end Ext4

end Csos

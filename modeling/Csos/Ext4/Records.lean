import Csos.Ext4.Blocks
/-!
# ext4 — going through a directory

The records of a directory block follow one another by their lengths, and
`ext4_dir_next` goes through the blocks from an offset on: over holes, and over
records that hold no name, to the next entry. What a round of its loop does
(`dirRound`) and what a call does (`dirAt`) are functions of the image.
-/

namespace Csos

namespace Ext4

open Vfs Checked

/-! ## Records -/

/-- `inode` of the record at `p`. -/
def recIno (m : Bytes) (p : ℕ) : ℕ := m.load 4 p

/-- `rec_len`. -/
def recLen (m : Bytes) (p : ℕ) : ℕ := m.load 2 (p + 4)

/-- `name_len`. -/
def nameLen (m : Bytes) (p : ℕ) : ℕ := m.load 1 (p + 6)

/-- `file_type`. -/
def recType (m : Bytes) (p : ℕ) : ℕ := m.load 1 (p + 7)

/-- The record is an entry. -/
def Live (m : Bytes) (p : ℕ) : Prop :=
  recIno m p ≠ 0 ∧ nameLen m p ≠ 0 ∧ nameLen m p + 8 ≤ recLen m p

instance (m : Bytes) (p : ℕ) : Decidable (Live m p) := inferInstanceAs (Decidable (_ ∧ _))

/-- The record lies in its block. -/
def RecOk (m : Bytes) (bs p : ℕ) : Prop := 8 ≤ recLen m p ∧ p + recLen m p ≤ bs

instance (m : Bytes) (bs p : ℕ) : Decidable (RecOk m bs p) := inferInstanceAs (Decidable (_ ∧ _))

/-- How much of the name goes into a buffer of `len` bytes. -/
def nameCut (m : Bytes) (p len : ℕ) : ℕ := if nameLen m p < len - 1 then nameLen m p else len - 1

/-- The name of the record, stored with its terminator. -/
def storeName (nameOut : Buf) (m : Bytes) (p : ℕ) : Buf :=
  if 0 < nameOut.len then
    let cn := nameCut m p nameOut.len
    ⟨(nameOut.bytes.blit 0 cn (m.shift (p + 8))).blit cn 1 (Bytes.const 0), nameOut.len⟩
  else nameOut

/-- What the caller gets for the record. -/
def entryAt (nameOut : Buf) (m : Bytes) (p : ℕ) : DirEntry :=
  ⟨recIno m p, recType m p, storeName nameOut m p⟩

/-- What the scan of a block from a position on ends with. -/
inductive ScanAt
  | broken
  | found (p : ℕ)
  | done (p : ℕ)

/-- `dirScan`: a broken record, an entry, or the end of the block. -/
def scanAt (m : Bytes) (bs : ℕ) : ℕ → ℕ → ScanAt
  | 0, _ => .broken
  | fuel + 1, p =>
    if bs < p + 8 then .done p
    else if ¬ RecOk m bs p then .broken
    else if Live m p then .found p
    else scanAt m bs fuel (p + recLen m p)

/-! ## Blocks and calls -/

/-- A block of a directory. -/
inductive DirBlock
  | hole
  | bad
  | data (m : Bytes)

/-- What a round of the loop does: it ends the call with an error, gives the
entry at `p` of the block, or goes on. -/
inductive Round
  | ends (rc : ℤ)
  | gives (m : Bytes) (p off : ℕ)
  | goes (off : ℕ)

section

variable (d : Disk) (sb : Sb) (dir : Inode)

/-- The block `lb` of the directory. -/
def dirBlock (lb : ℕ) : DirBlock :=
  match mapAt d sb dir lb with
  | .error rc => if rc = errNoent ∨ rc = errNotsup then .hole else .bad
  | .ok (phys, uninit) =>
    if uninit then .data (Bytes.const 0)
    else if d.Reads sb phys then .data (d.block sb phys) else .bad

/-- A round of the loop at `off`. The number of the block has 32 bits. -/
def dirRound (off : ℕ) : Round :=
  if dir.size ≤ off then .ends errNoent
  else
    let lb := off / sb.bs % 2 ^ 32
    match dirBlock d sb dir lb with
    | .hole => .goes ((lb + 1) * sb.bs)
    | .bad => .ends errNoent
    | .data m =>
      match scanAt m sb.bs (sb.bs + 1) (off % sb.bs) with
      | .broken => .ends errInval
      | .found p => .gives m p (lb * sb.bs + p + recLen m p)
      | .done p => .goes (if p = off % sb.bs then off else lb * sb.bs + p)

/-- A call at `off`, for so many rounds. -/
def dirAt : ℕ → ℕ → Option Round
  | 0, _ => none
  | fuel + 1, off =>
    match dirRound d sb dir off with
    | .goes off => dirAt fuel off
    | r => some r

end

variable {d : Disk} {sb : Sb} {dir : Inode} {m m' : Bytes} {blk nameOut : Buf}
  {lb off p q bs fuel k : ℕ} {w : World}

theorem scanAt_step (hp : p + 8 ≤ bs) (hok : RecOk m bs p) (hdead : ¬ Live m p) :
    scanAt m bs (fuel + 1) p = scanAt m bs fuel (p + recLen m p) := by
  rw [scanAt, if_neg (by omega), if_neg (not_not.mpr hok), if_neg hdead]

/-- Enough rounds are enough: each record has eight bytes at least. -/
theorem scanAt_fuel (fuel' : ℕ) (hp : p ≤ bs) (h : bs < p + fuel) (h' : bs < p + fuel') :
    scanAt m bs fuel p = scanAt m bs fuel' p := by
  induction fuel generalizing p fuel' with
  | zero => omega
  | succ fuel ih =>
    obtain ⟨fuel', rfl⟩ : ∃ j, fuel' = j + 1 := ⟨fuel' - 1, by omega⟩
    rw [scanAt, scanAt]
    by_cases hend : bs < p + 8
    · rw [if_pos hend, if_pos hend]
    rw [if_neg hend, if_neg hend]
    by_cases hok : RecOk m bs p
    · rw [if_neg (not_not.mpr hok), if_neg (not_not.mpr hok)]
      have h8 := hok.1
      rw [ih fuel' hok.2 (by omega) (by omega)]
    · rw [if_pos hok, if_pos hok]

/-- Where a scan ends. -/
theorem scanAt_bounds (hp : p ≤ bs) (h : bs < p + fuel) :
    (∀ q, scanAt m bs fuel p = .found q → p ≤ q ∧ q + 8 ≤ bs ∧ RecOk m bs q ∧ Live m q) ∧
    ∀ q, scanAt m bs fuel p = .done q → p ≤ q ∧ q ≤ bs ∧ bs < q + 8 := by
  induction fuel generalizing p with
  | zero => omega
  | succ fuel ih =>
    rw [scanAt]
    split
    · refine ⟨fun q hq => absurd hq (by simp), fun q hq => ?_⟩
      obtain rfl := ScanAt.done.inj hq
      omega
    split
    · exact ⟨fun q hq => absurd hq (by simp), fun q hq => absurd hq (by simp)⟩
    rename_i hok
    rw [not_not] at hok
    split
    · refine ⟨fun q hq => ?_, fun q hq => absurd hq (by simp)⟩
      obtain rfl := ScanAt.found.inj hq
      exact ⟨le_rfl, by omega, hok, ‹_›⟩
    · have h8 := hok.1
      obtain ⟨h1, h2⟩ := ih hok.2 (by omega)
      refine ⟨fun q hq => ?_, fun q hq => ?_⟩
      · obtain ⟨hle, hrest⟩ := h1 q hq
        exact ⟨by omega, hrest⟩
      · obtain ⟨hle, hrest⟩ := h2 q hq
        exact ⟨by omega, hrest⟩

theorem blit_congr {m : Bytes} {a n : ℕ} {src src' : Bytes} (h : ∀ i, i < n → src i = src' i) :
    m.blit a n src = m.blit a n src' := by
  funext x
  rw [Bytes.blit, Bytes.blit]
  split
  · exact h _ (by omega)
  · rfl

/-- **The scan of a block** is that of its bytes. -/
theorem dirScan_eq (hlen : blk.len = sb.bs) (hbuf : ∀ i, i < sb.bs → blk.bytes i = m i) (hp : p ≤ sb.bs)
    (hf : sb.bs < p + fuel) (w : World) : dirScan sb blk nameOut lb fuel p off w =
      .ret (match scanAt m sb.bs fuel p with
        | .broken => .broken
        | .found q => .found (entryAt nameOut m q) (lb * sb.bs + q + recLen m q)
        | .done q => .done (if q = p then off else lb * sb.bs + q), w) := by
  induction fuel generalizing p off with
  | zero => omega
  | succ fuel ih =>
    rw [dirScan, scanAt]
    by_cases hend : sb.bs < p + 8
    · rw [if_pos hend, if_pos hend]
      dsimp only
      rw [if_pos rfl]
      rfl
    have hload : ∀ {k o : ℕ}, o + k ≤ 8 → blk.bytes.load k (p + o) = m.load k (p + o) := fun hk =>
      Bytes.load_congr fun i hi => hbuf _ (by omega)
    have hino : blk.bytes.load 4 p = recIno m p := hload (o := 0) (by omega)
    have hrec : blk.bytes.load 2 (p + 4) = recLen m p := hload (by omega)
    have hname : blk.bytes.load 1 (p + 6) = nameLen m p := hload (by omega)
    have htype : blk.bytes.load 1 (p + 7) = recType m p := hload (by omega)
    rw [if_neg hend, if_neg hend, bind_of_ret (Buf.load_apply (by omega) w),
      bind_of_ret (Buf.load_apply (by omega) w), bind_of_ret (Buf.load_apply (by omega) w),
      bind_of_ret (Buf.load_apply (by omega) w), hino, hrec, hname, htype]
    by_cases hok : RecOk m sb.bs p
    · have h8 := hok.1
      have hin := hok.2
      rw [if_neg (by omega), if_neg (not_not.mpr hok)]
      -- the rounds after a record that is passed over
      have hnext : dirScan sb blk nameOut lb fuel (p + recLen m p) (lb * sb.bs + p + recLen m p) w =
          .ret (match scanAt m sb.bs fuel (p + recLen m p) with
            | .broken => .broken
            | .found q => .found (entryAt nameOut m q) (lb * sb.bs + q + recLen m q)
            | .done q => .done (if q = p then off else lb * sb.bs + q), w) := by
        rw [ih hin (by omega)]
        cases hs : scanAt m sb.bs fuel (p + recLen m p) with
        | broken => rfl
        | found q => rfl
        | done q =>
          have hq := (scanAt_bounds hin (by omega)).2 q hs
          dsimp only
          rw [if_neg (show q ≠ p by omega)]
          split
          · rename_i he
            rw [he, Nat.add_assoc]
          · rfl
      by_cases hlive : Live m p
      · rw [if_neg hlive.1, if_neg (by have := hlive.2; omega), if_pos hlive]
        have hcut : nameCut m p nameOut.len ≤ nameLen m p ∧
            (0 < nameOut.len → nameCut m p nameOut.len + 1 ≤ nameOut.len) := by
          rw [nameCut]
          split <;> omega
        have hroom := hlive.2.2
        by_cases hout : 0 < nameOut.len
        · have hfits := hcut.2 hout
          rw [if_pos hout]
          change (nameOut.copy 0 (nameCut m p nameOut.len) blk (p + 8) >>= _) w = _
          rw [bind_of_ret (Buf.copy_apply (by omega) (by omega) w)]
          dsimp only
          rw [bind_of_ret (Buf.fill_apply (by exact hfits) w)]
          have hbytes : nameOut.bytes.blit 0 (nameCut m p nameOut.len) (blk.bytes.shift (p + 8)) =
              nameOut.bytes.blit 0 (nameCut m p nameOut.len) (m.shift (p + 8)) :=
            blit_congr fun i hi => hbuf _ (by omega)
          rw [hbytes]
          dsimp only [entryAt, storeName]
          rw [if_pos hout]
          rfl
        · rw [if_neg hout]
          dsimp only [entryAt, storeName]
          rw [if_neg hout]
          rfl
      · rw [if_neg hlive]
        rw [Live] at hlive
        by_cases h0 : recIno m p = 0
        · rw [if_pos h0]
          exact hnext
        · rw [if_neg h0, if_pos (by omega)]
          exact hnext
    · rw [RecOk] at hok
      rw [if_pos (by omega), if_pos (by exact hok)]
      rfl

/-! ## A call -/

/-- What a round makes of the scan of a block that has been read. -/
theorem dirScan_round (fuel : ℕ) (h : sb.Ok) (hlen : blk.len = sb.bs)
    (hbuf : ∀ i, i < sb.bs → blk.bytes i = m i) (w : World) :
    (dirScan sb blk nameOut lb (sb.bs + 1) (off % sb.bs) off >>= fun r => match r with
      | .broken => return (.error errInval, off)
      | .found e off => return (.ok e, off)
      | .done off => dirLoop d sb dir nameOut fuel blk off) w =
    match (match scanAt m sb.bs (sb.bs + 1) (off % sb.bs) with
      | .broken => Round.ends errInval
      | .found p => .gives m p (lb * sb.bs + p + recLen m p)
      | .done p => .goes (if p = off % sb.bs then off else lb * sb.bs + p)) with
    | .ends rc => .ret ((.error rc, off), w)
    | .gives m p off' => .ret ((.ok (entryAt nameOut m p), off'), w)
    | .goes off' => dirLoop d sb dir nameOut fuel blk off' w := by
  have hpos : off % sb.bs < sb.bs := Nat.mod_lt _ (Nat.pos_of_ne_zero h.bs_ne)
  rw [bind_of_ret (dirScan_eq hlen hbuf hpos.le (by omega) w)]
  cases scanAt m sb.bs (sb.bs + 1) (off % sb.bs) <;> rfl

/-- **A round of the loop** is the function of the image. -/
theorem dirLoop_round (fuel : ℕ) (h : sb.Ok) (hdir : dir.Ok) (hb : blk.len = sb.bs) (w : World) :
    ∃ blk' w', Buf.len blk' = sb.bs ∧ World.alloc w' = w.alloc ∧
      dirLoop d sb dir nameOut (fuel + 1) blk off w = match dirRound d sb dir off with
        | .ends rc => .ret ((.error rc, off), w')
        | .gives m p off' => .ret ((.ok (entryAt nameOut m p), off'), w')
        | .goes off' => dirLoop d sb dir nameOut fuel blk' off' w' := by
  rw [dirLoop, dirRound]
  by_cases hsize : dir.size ≤ off
  · rw [if_pos hsize, if_pos hsize]
    exact ⟨blk, w, hb, rfl, rfl⟩
  have hbs := h.bs_le
  have hpos : off % sb.bs < sb.bs := Nat.mod_lt _ (Nat.pos_of_ne_zero h.bs_ne)
  rw [if_neg hsize, if_neg hsize, bind_of_ret (div_apply h.bs_ne w), bind_of_ret (mod_apply h.bs_ne w)]
  dsimp only
  rw [Nat.mod_eq_of_lt (by omega : off % sb.bs < 2 ^ 32)]
  have hlb : off / sb.bs % 2 ^ 32 < 2 ^ 32 := Nat.mod_lt _ (by norm_num)
  generalize off / sb.bs % 2 ^ 32 = lb at *
  obtain ⟨blk₁, w₁, hmap, hb₁, hw₁, -⟩ := map_eq h hdir hb w
  rw [bind_of_ret hmap, dirBlock]
  cases hr : mapAt d sb dir lb with
  | error rc =>
    dsimp only
    by_cases hhole : rc = errNoent ∨ rc = errNotsup
    · rw [if_pos hhole, if_pos hhole]
      exact ⟨blk₁, w₁, hb₁, hw₁, rfl⟩
    · rw [if_neg hhole, if_neg hhole]
      exact ⟨blk₁, w₁, hb₁, hw₁, rfl⟩
  | ok r =>
    obtain ⟨phys, u⟩ := r
    have hphys := mapAt_lt hlb hr
    dsimp only
    cases u with
    | true =>
      rw [if_pos rfl, readDirBlock, if_pos rfl]
      have hfill := Buf.fill_apply (b := blk₁) (v := 0) (by omega : 0 + sb.bs ≤ blk₁.len) w₁
      rw [bind_of_ret (bind_of_ret hfill)]
      refine ⟨_, _, ?_, ?_, dirScan_round fuel h ?_ (fun i hi => Bytes.blit_zero_apply hi) _⟩
      exacts [hb₁, hw₁, hb₁]
    | false =>
      rw [if_neg Bool.false_ne_true, readDirBlock, if_neg Bool.false_ne_true]
      by_cases hread : d.Reads sb phys
      · have hret := readFsBlocks_of_reads h hphys hb₁ hread w₁
        rw [if_pos hread, bind_of_ret (bind_of_ret hret)]
        refine ⟨_, _, ?_, ?_, dirScan_round fuel h ?_ (fun i hi => Bytes.blit_zero_apply hi) _⟩
        exacts [hb₁, hw₁, hb₁]
      · have hret : readFsBlocks d sb phys 1 blk₁ w₁ = _ := readFsBlocks_of_not_reads h hphys hread w₁
        have hrc := hread
        rw [Disk.Reads] at hrc
        have hnone : readDirBlock d sb phys false blk₁ w₁ =
            .ret (none, { w₁ with reads := w₁.reads ++ [blockRequest sb phys] }) := by
          rw [readDirBlock, if_neg Bool.false_ne_true, bind_of_ret hret]
          dsimp only
          rw [if_pos hrc]
          rfl
        rw [readDirBlock, if_neg Bool.false_ne_true] at hnone
        rw [if_neg hread, bind_of_ret hnone]
        exact ⟨blk₁, { w₁ with reads := w₁.reads ++ [blockRequest sb phys] }, hb₁, hw₁, rfl⟩

/-- How a call ends, from what `dirAt` says of it. -/
def Answers (nameOut : Buf) (w : World) :
    Option Round → Outcome ((Except ℤ DirEntry × ℕ) × World) → Prop
  | none, o => o = .hang
  | some (.ends rc), o => ∃ off w', World.alloc w' = w.alloc ∧ o = .ret ((.error rc, off), w')
  | some (.gives m p off), o =>
    ∃ w', World.alloc w' = w.alloc ∧ o = .ret ((.ok (entryAt nameOut m p), off), w')
  | some (.goes _), _ => False

theorem dirLoop_answers (h : sb.Ok) (hdir : dir.Ok) (hb : blk.len = sb.bs) {w₀ : World}
    (hw : w.alloc = w₀.alloc) :
    Answers nameOut w₀ (dirAt d sb dir fuel off) (dirLoop d sb dir nameOut fuel blk off w) := by
  induction fuel generalizing blk off w with
  | zero => exact rfl
  | succ fuel ih =>
    obtain ⟨blk', w', hb', hw', heq⟩ := dirLoop_round fuel h hdir hb w
    rw [heq, dirAt]
    cases dirRound d sb dir off with
    | ends rc => exact ⟨off, w', hw'.trans hw, rfl⟩
    | gives m p off' => exact ⟨w', hw'.trans hw, rfl⟩
    | goes off' => exact ih hb' (hw'.trans hw)

/-- **`ext4_dir_next`** answers what `dirAt` says. -/
theorem dirNext_answers (h : sb.Ok) (hdir : dir.Ok) (hd : dir.isDir = true)
    (halloc : (w.alloc w.used).isSome) (nameOut : Buf) (fuel off : ℕ) :
    Answers nameOut w (dirAt d sb dir fuel off) (dirNext d sb dir nameOut fuel off w) := by
  obtain ⟨bytes, hbytes⟩ := Option.isSome_iff_exists.mp halloc
  have hmalloc : kmalloc sb.bs w = .ret (some ⟨bytes, sb.bs⟩, { w with used := w.used + 1 }) := by
    rw [kmalloc, hbytes]
    rfl
  rw [dirNext, hd, if_neg (by simp), bind_of_ret hmalloc]
  exact dirLoop_answers h hdir rfl rfl

/-- A call that finds no memory fails. -/
theorem dirNext_nomem (hd : dir.isDir = true) (halloc : w.alloc w.used = none) :
    dirNext d sb dir nameOut fuel off w =
      .ret ((.error errNomem, off), { w with used := w.used + 1 }) := by
  have hmalloc : kmalloc sb.bs w = .ret (none, { w with used := w.used + 1 }) := by
    rw [kmalloc, halloc]
    rfl
  rw [dirNext, hd, if_neg (by simp), bind_of_ret hmalloc]
  rfl

/-- The block and the position of an offset in a block. -/
theorem block_pos (hp : p < sb.bs) (lb : ℕ) :
    (lb * sb.bs + p) / sb.bs = lb ∧ (lb * sb.bs + p) % sb.bs = p := by
  have hpos : 0 < sb.bs := by omega
  rw [Nat.mul_comm, Nat.mul_add_div hpos, Nat.div_eq_of_lt hp, Nat.mul_add_mod, Nat.mod_eq_of_lt hp]
  exact ⟨Nat.add_zero lb, rfl⟩

theorem dirRound_of_data (hsize : off < dir.size)
    (hb : dirBlock d sb dir (off / sb.bs % 2 ^ 32) = .data m) :
    dirRound d sb dir off = match scanAt m sb.bs (sb.bs + 1) (off % sb.bs) with
      | .broken => .ends errInval
      | .found p => .gives m p (off / sb.bs % 2 ^ 32 * sb.bs + p + recLen m p)
      | .done p => .goes (if p = off % sb.bs then off else off / sb.bs % 2 ^ 32 * sb.bs + p) := by
  rw [dirRound, if_neg (by omega)]
  dsimp only
  rw [hb]

theorem dirAt_of_goes (h : dirRound d sb dir off = .goes q) (fuel : ℕ) :
    dirAt d sb dir (fuel + 1) off = dirAt d sb dir fuel q := by
  rw [dirAt, h]

/-- A round that goes on is no answer. -/
theorem dirAt_ne_goes : dirAt d sb dir fuel off ≠ some (.goes q) := by
  induction fuel generalizing off with
  | zero => simp [dirAt]
  | succ fuel ih =>
    rw [dirAt]
    cases dirRound d sb dir off with
    | ends rc => simp
    | gives m p off' => simp
    | goes off' => exact ih

/-- More rounds change nothing. -/
theorem dirAt_mono {r : Round} (h : dirAt d sb dir fuel off = some r) (k : ℕ) :
    dirAt d sb dir (fuel + k) off = some r := by
  induction fuel generalizing off with
  | zero => cases h
  | succ fuel ih =>
    rw [show fuel + 1 + k = fuel + k + 1 by omega, dirAt]
    rw [dirAt] at h
    cases hr : dirRound d sb dir off with
    | ends rc =>
      rw [hr] at h
      exact h
    | gives m p off' =>
      rw [hr] at h
      exact h
    | goes off' =>
      rw [hr] at h
      exact ih h

end Ext4

end Csos

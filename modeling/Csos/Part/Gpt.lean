import Csos.Part.Records
/-!
# Partitions — the GPT of a disk

The table of a GPT is an array of bytes on the disk. Its checksum is formed a
sector at a time and its entries are read a range at a time, and both are of
these bytes (`entriesCrcLoop_eq`, `partReadRange_eq`), as long as the offsets of
the table are below `2 ^ 64`. `GptValid` is what a header and its table must be,
and `gptParts` the partitions that the table then describes.
-/

namespace Csos

namespace Part

variable {σ : Type} {ops : BlockOps σ} {disk : ℕ → Option Bytes} {st : σ} {m m' : Bytes}
  {n lba off len k i p : ℕ} {h : GptHeader} {pd : Disk} {crc : UInt32}

/-! ## Bytes of the disk -/

/-- A byte of the disk; 0 where it cannot be read. -/
def diskByte (disk : ℕ → Option Bytes) (o : ℕ) : UInt8 :=
  ((disk (o / secSize)).getD (Bytes.const 0)) (o % secSize)

/-- The bytes of the disk from a sector on. -/
def diskFrom (disk : ℕ → Option Bytes) (lba : ℕ) : Bytes := fun i => diskByte disk (lba * secSize + i)

/-- The checksum of the first `len` bytes. -/
def crc32 (m : Bytes) (len : ℕ) : ℕ := (crc32Update 0xffffffff m len 0 ^^^ 0xffffffff).toNat

/-- A byte of a sector that is read. -/
theorem diskByte_of_read {sec : Bytes} (hs : disk (off / secSize) = some sec) :
    diskByte disk off = sec (off % secSize) := by
  rw [diskByte, hs]
  rfl

/-- The checksum depends on the bytes it is of. -/
theorem crc32Update_congr {p' : ℕ} (hm : ∀ i < n, m (p + i) = m' (p' + i)) :
    crc32Update crc m n p = crc32Update crc m' n p' := by
  induction n generalizing crc p p' with
  | zero => rfl
  | succ n ih =>
    have h0 : m p = m' p' := hm 0 (Nat.succ_pos n)
    rw [crc32Update, crc32Update, h0]
    refine ih fun i hi => ?_
    have := hm (i + 1) (by omega)
    rwa [← Nat.add_assoc, Nat.add_right_comm, ← Nat.add_assoc, Nat.add_right_comm p'] at this

theorem crc32Update_zero (crc : UInt32) (m : Bytes) (p : ℕ) : crc32Update crc m 0 p = crc := by
  rw [crc32Update]

/-- The checksum is formed a piece at a time. -/
theorem crc32Update_add (crc : UInt32) (m : Bytes) (a b p : ℕ) :
    crc32Update crc m (a + b) p = crc32Update (crc32Update crc m a p) m b (p + a) := by
  induction a generalizing crc p with
  | zero => rw [Nat.zero_add, Nat.add_zero, crc32Update_zero]
  | succ a ih =>
    rw [Nat.succ_add, crc32Update, ih, crc32Update, Nat.add_right_comm, Nat.add_assoc p a 1]

/-! ## Reading the table -/

/-- **`part_read_range`** reads the bytes of the disk, where the sectors they are
in can be read. -/
theorem readRangeLoop_eq (hd : Steady ops disk) (st : σ) (hoff : off + len ≤ 2 ^ 64)
    (hread : ∀ o < len, (disk ((off + o) / secSize)).isSome) (fuel done : ℕ) (out : Bytes)
    (hdone : done ≤ len) (hfuel : len - done ≤ fuel) :
    ∃ e, (readRangeLoop ops off len fuel done out st).1 = some e ∧
      ∀ i < len, e i = if i < done then out i else diskByte disk (off + i) := by
  induction fuel generalizing done out st with
  | zero =>
    refine ⟨out, rfl, fun i hi => ?_⟩
    rw [if_pos (by omega)]
  | succ fuel ih =>
    rw [readRangeLoop]
    by_cases hlt : done < len
    case neg =>
      rw [if_neg hlt]
      exact ⟨out, rfl, fun i hi => (if_pos (by omega)).symm⟩
    rw [if_pos hlt]
    have hcur : (off + done) % 2 ^ 64 = off + done := Nat.mod_eq_of_lt (by omega)
    dsimp only
    rw [hcur, hd.read_eq]
    obtain ⟨sec, hsec⟩ := Option.isSome_iff_exists.mp (hread done hlt)
    rw [hsec]
    dsimp only
    generalize hc : min (secSize - (off + done) % secSize) (len - done) = chunk
    have hsmall : (off + done) % secSize < secSize := Nat.mod_lt _ (by norm_num)
    have hchunk : 1 ≤ chunk ∧ chunk ≤ len - done ∧ (off + done) % secSize + chunk ≤ secSize := by omega
    obtain ⟨e, he, hbytes⟩ := ih (readSector ops ((off + done) / secSize) st).2 (done + chunk)
      (out.blit done chunk (sec.shift ((off + done) % secSize))) (by omega) (by omega)
    refine ⟨e, he, fun i hi => ?_⟩
    rw [hbytes i hi]
    by_cases hi1 : i < done
    · rw [if_pos (by omega), if_pos hi1, Bytes.blit_apply_of_notMem (.inl hi1)]
    rw [if_neg hi1]
    by_cases hi2 : i < done + chunk
    · -- a byte of the sector just read
      obtain ⟨j, rfl⟩ := Nat.exists_eq_add_of_le (not_lt.mp hi1)
      have hdiv : (off + (done + j)) / secSize = (off + done) / secSize := by
        unfold secSize at hsmall hchunk ⊢
        omega
      have hmod : (off + (done + j)) % secSize = (off + done) % secSize + j := by
        unfold secSize at hsmall hchunk ⊢
        omega
      rw [if_pos hi2, Bytes.blit_apply_of_mem (by omega), Bytes.shift,
        diskByte_of_read (by rw [hdiv]; exact hsec), hmod]
    · rw [if_neg hi2]

theorem partReadRange_eq (hd : Steady ops disk) (st : σ) (off : ℕ) (hlen : 0 < len) (hmax : len ≤ gptMaxEntrySize)
    (hoff : off + len ≤ 2 ^ 64) (hread : ∀ o < len, (disk ((off + o) / secSize)).isSome) :
    ∃ e, (partReadRange ops off len st).1 = some e ∧ ∀ i < len, e i = diskByte disk (off + i) := by
  rw [partReadRange, if_neg (by omega)]
  obtain ⟨e, he, hbytes⟩ := readRangeLoop_eq hd st hoff hread len 0 (Bytes.const 0) (Nat.zero_le _) le_rfl
  exact ⟨e, he, fun i hi => (hbytes i hi).trans (if_neg (Nat.not_lt_zero i))⟩

/-- The sectors of the table can be read. -/
def Readable (disk : ℕ → Option Bytes) (h : GptHeader) : Prop :=
  ∀ s < entriesSecs h, (disk (h.entriesLba + s)).isSome

/-- A sector is a piece of the table. -/
theorem diskFrom_sector {sec : Bytes} {s : ℕ} (hs : disk (lba + s) = some sec) (hi : i < secSize) :
    diskFrom disk lba (s * secSize + i) = sec i := by
  have hdiv : (lba * secSize + (s * secSize + i)) / secSize = lba + s := by
    unfold secSize at hi ⊢
    omega
  have hmod : (lba * secSize + (s * secSize + i)) % secSize = i := by
    unfold secSize at hi ⊢
    omega
  rw [diskFrom, diskByte_of_read (by rw [hdiv]; exact hs), hmod]

/-- **The checksum of the table**, from the `s`-th sector on: it is of the bytes
of the table, if their sectors can be read. -/
theorem entriesCrcLoop_eq (hd : Steady ops disk) (st : σ) (hend : h.entriesLba + entriesSecs h ≤ 2 ^ 64) (k s : ℕ)
    (hk : s + k = entriesSecs h) (crc : UInt32) :
    ((entriesCrcLoop ops h k s crc st).1 = none ∧ ¬ Readable disk h) ∨
      (entriesCrcLoop ops h k s crc st).1 = some (crc32Update crc (diskFrom disk h.entriesLba)
        (h.num * h.esize - s * secSize) (s * secSize)) ∧
        ∀ j, s ≤ j → j < entriesSecs h → (disk (h.entriesLba + j)).isSome := by
  induction k generalizing s crc st with
  | zero =>
    refine .inr ⟨?_, fun j hj hj' => absurd hj' (by omega)⟩
    have hz : h.num * h.esize - s * secSize = 0 := by
      unfold entriesSecs secSize at hk
      unfold secSize
      omega
    rw [hz, entriesCrcLoop, crc32Update_zero]
  | succ k ih =>
    have hmod : (h.entriesLba + s) % 2 ^ 64 = h.entriesLba + s := Nat.mod_eq_of_lt (by omega)
    rw [entriesCrcLoop, hmod, hd.read_eq]
    cases hs : disk (h.entriesLba + s) with
    | none =>
      refine .inl ⟨rfl, fun hr => ?_⟩
      have := hr s (by omega)
      rw [hs] at this
      exact absurd this (by simp)
    | some sec =>
      dsimp only
      generalize hc : min (h.num * h.esize - s * secSize) secSize = chunk
      have hpiece : crc32Update crc sec chunk 0 =
          crc32Update crc (diskFrom disk h.entriesLba) chunk (s * secSize) :=
        crc32Update_congr fun i hi => by rw [Nat.zero_add, diskFrom_sector hs (by omega)]
      rcases ih (readSector ops (h.entriesLba + s) st).2 (s + 1) (by omega)
        (crc32Update crc sec chunk 0) with hno | ⟨hcrc, hreads⟩
      · exact .inl hno
      · refine .inr ⟨?_, fun j hj hj' => ?_⟩
        · rw [hcrc, hpiece]
          have hsecs : s * secSize < h.num * h.esize := by
            unfold entriesSecs secSize at hk
            unfold secSize
            omega
          have hmul : (s + 1) * secSize = s * secSize + secSize := Nat.succ_mul s secSize
          by_cases hlast : h.num * h.esize - s * secSize ≤ secSize
          · have hz : h.num * h.esize - (s + 1) * secSize = 0 := by omega
            have hce : h.num * h.esize - s * secSize = chunk := (Nat.min_eq_left hlast).symm.trans hc
            rw [hz, hce, crc32Update_zero]
          · have hce : chunk = secSize := by omega
            have hsum : h.num * h.esize - s * secSize =
                chunk + (h.num * h.esize - (s + 1) * secSize) := by omega
            rw [hsum, crc32Update_add, hce, hmul]
        · rcases eq_or_lt_of_le hj with rfl | hlt
          · rw [hs]
            rfl
          · exact hreads j hlt hj'

/-! ## The entries -/

/-- The partition that an entry describes on a disk of `n` sectors, if its type
is not zero and its range lies on the disk. -/
def gptEntry (n : ℕ) (e : Bytes) : Option Entry :=
  let first := Bytes.load 8 e 32
  let last := Bytes.load 8 e 40
  if guidIsZero e = false ∧ 0 < first ∧ first ≤ last ∧ last < n then
    some ⟨0xee, first, last - first + 1, true, (List.range 16).map e⟩
  else none

/-- What the `k` entries from the `i`-th on describe. -/
def gptEntries (disk : ℕ → Option Bytes) (h : GptHeader) (n i k : ℕ) : List Entry :=
  (List.range' i k).filterMap fun i =>
    gptEntry n ((diskFrom disk h.entriesLba).shift (i * h.esize))

/-- **The partitions of a table**: the first 16 of those its entries describe. -/
def gptParts (disk : ℕ → Option Bytes) (h : GptHeader) (n : ℕ) : List Entry :=
  (gptEntries disk h n 0 h.num).take maxPerDrive

/-- An entry is read from its first 48 bytes. -/
theorem gptEntry_congr (n : ℕ) (m m' : Bytes) (hm : ∀ i < 48, m i = m' i) : gptEntry n m = gptEntry n m' := by
  have hguid : guidIsZero m = guidIsZero m' := by
    unfold guidIsZero
    rw [Bool.eq_iff_iff, List.all_eq_true, List.all_eq_true]
    refine forall₂_congr fun i hi => ?_
    rw [hm i (by rw [List.mem_range] at hi; omega)]
  have hmap : (List.range 16).map m = (List.range 16).map m' :=
    List.map_congr_left fun i hi => hm i (by rw [List.mem_range] at hi; omega)
  have hfirst : Bytes.load 8 m 32 = Bytes.load 8 m' 32 := Bytes.load_congr fun i hi => hm _ (by omega)
  have hlast : Bytes.load 8 m 40 = Bytes.load 8 m' 40 := Bytes.load_congr fun i hi => hm _ (by omega)
  unfold gptEntry
  rw [hguid, hmap, hfirst, hlast]

/-- One entry of the loop: the partition that it describes is added. -/
theorem addGpt_eq (hn : pd.diskSectors < 2 ^ 64) (e : Bytes) :
    (if guidIsZero e then pd
      else if Bytes.load 8 e 32 = 0 ∨ Bytes.load 8 e 40 < Bytes.load 8 e 32 ∨
        pd.diskSectors ≤ Bytes.load 8 e 40 then pd
      else partAddGpt pd ((List.range 16).map e) (Bytes.load 8 e 32)
        ((Bytes.load 8 e 40 - Bytes.load 8 e 32 + 1) % 2 ^ 64)) =
      { pd with parts := pd.parts ++
        (gptEntry pd.diskSectors e).toList.take (maxPerDrive - pd.parts.length) } := by
  by_cases hguid : guidIsZero e = true
  · have hnone : gptEntry pd.diskSectors e = none := if_neg fun hc => by
      rw [hguid] at hc
      exact absurd hc.1 (by simp)
    rw [if_pos hguid, hnone]
    simp
  rw [if_neg hguid]
  by_cases hbad : Bytes.load 8 e 32 = 0 ∨ Bytes.load 8 e 40 < Bytes.load 8 e 32 ∨
      pd.diskSectors ≤ Bytes.load 8 e 40
  · have hnone : gptEntry pd.diskSectors e = none := if_neg fun hc => by omega
    rw [if_pos hbad, hnone]
    simp
  · have hsome : gptEntry pd.diskSectors e = some ⟨0xee, Bytes.load 8 e 32,
        Bytes.load 8 e 40 - Bytes.load 8 e 32 + 1, true, (List.range 16).map e⟩ :=
      if_pos ⟨by simpa using hguid, by omega, by omega, by omega⟩
    have hmod : (Bytes.load 8 e 40 - Bytes.load 8 e 32 + 1) % 2 ^ 64 =
        Bytes.load 8 e 40 - Bytes.load 8 e 32 + 1 := Nat.mod_eq_of_lt (by omega)
    rw [if_neg hbad, hsome, hmod, partAddGpt, addEntry_eq (by dsimp only; omega)]
    have hfit : fits pd.diskSectors ⟨0xee, Bytes.load 8 e 32,
        Bytes.load 8 e 40 - Bytes.load 8 e 32 + 1, true, (List.range 16).map e⟩ = true := by
      unfold fits
      simp only [decide_eq_true_eq]
      omega
    by_cases hlen : pd.parts.length < maxPerDrive
    · obtain ⟨j, hj⟩ := Nat.exists_eq_add_of_lt hlen
      have htake : maxPerDrive - pd.parts.length = j + 1 := by omega
      rw [if_pos ⟨hlen, hfit⟩, htake]
      simp
    · have htake : maxPerDrive - pd.parts.length = 0 := by omega
      rw [if_neg fun hc => hlen hc.1, htake]
      simp

/-- **One turn of the loop over the entries**, if the entry can be read. -/
theorem gptLoop_succ (k : ℕ) (hn : pd.diskSectors < 2 ^ 64) (hroom : pd.parts.length < maxPerDrive) {e : Bytes}
    (he : (partReadRange ops ((h.entriesLba * secSize + i * h.esize) % 2 ^ 64) h.esize st).1 = some e) :
    ∃ st', (gptLoop ops h (k + 1) i pd st).1 = (gptLoop ops h k (i + 1)
      { pd with parts := pd.parts ++ (gptEntry pd.diskSectors e).toList.take (maxPerDrive - pd.parts.length) }
      st').1 := by
  refine ⟨(partReadRange ops ((h.entriesLba * secSize + i * h.esize) % 2 ^ 64) h.esize st).2, ?_⟩
  rw [gptLoop, if_neg (not_le.mpr hroom), show
    partReadRange ops ((h.entriesLba * secSize + i * h.esize) % 2 ^ 64) h.esize st =
      (some e, (partReadRange ops ((h.entriesLba * secSize + i * h.esize) % 2 ^ 64) h.esize st).2) by
      rw [← he], ← addGpt_eq hn e]
  dsimp only
  split_ifs <;> rfl

/-- **The loop over the entries** adds the partitions of the table, from the
`i`-th entry on. -/
theorem gptLoop_eq (hd : Steady ops disk) (hn : pd.diskSectors < 2 ^ 64)
    (hsize : 48 ≤ h.esize ∧ h.esize ≤ gptMaxEntrySize)
    (hend : (h.entriesLba + entriesSecs h) * secSize ≤ 2 ^ 64) (hread : Readable disk h)
    (k i : ℕ) (hk : i + k = h.num) :
    (gptLoop ops h k i pd st).1 = { pd with parts := pd.parts ++
      (gptEntries disk h pd.diskSectors i k).take (maxPerDrive - pd.parts.length) } := by
  induction k generalizing i pd st with
  | zero => simp [gptLoop, gptEntries]
  | succ k ih =>
    by_cases hfull : maxPerDrive ≤ pd.parts.length
    · have hz : maxPerDrive - pd.parts.length = 0 := by omega
      rw [gptLoop, if_pos hfull, hz, List.take_zero, List.append_nil]
    -- where the entry is
    have hin : i * h.esize + h.esize ≤ h.num * h.esize := by
      rw [← Nat.succ_mul]
      exact Nat.mul_le_mul_right _ (by omega)
    have htable : h.num * h.esize ≤ entriesSecs h * secSize := by
      unfold entriesSecs secSize
      omega
    have hoff : h.entriesLba * secSize + i * h.esize + h.esize ≤ 2 ^ 64 := by
      refine le_trans ?_ hend
      rw [Nat.add_mul, Nat.add_assoc]
      exact Nat.add_le_add_left (hin.trans htable) _
    have hmod : (h.entriesLba * secSize + i * h.esize) % 2 ^ 64 = h.entriesLba * secSize + i * h.esize :=
      Nat.mod_eq_of_lt (by omega)
    obtain ⟨e, he, hbytes⟩ := partReadRange_eq hd st (h.entriesLba * secSize + i * h.esize)
      (by omega : 0 < h.esize) hsize.2 hoff fun o ho => by
        have hs := hread ((i * h.esize + o) / secSize)
          (by rw [Nat.div_lt_iff_lt_mul (by norm_num)]; omega)
        rwa [show h.entriesLba + (i * h.esize + o) / secSize =
          (h.entriesLba * secSize + i * h.esize + o) / secSize by unfold secSize; omega] at hs
    have hentry : gptEntry pd.diskSectors e =
        gptEntry pd.diskSectors ((diskFrom disk h.entriesLba).shift (i * h.esize)) :=
      gptEntry_congr _ _ _ fun j hj => by
        rw [hbytes j (by omega), Bytes.shift, diskFrom, Nat.add_assoc]
    rw [← hmod] at he
    obtain ⟨st', hstep⟩ := gptLoop_succ k hn (not_le.mp hfull) he
    rw [hstep, hentry]
    refine (ih (by exact hn) (i + 1) (by omega)).trans ?_
    rw [gptEntries, gptEntries, List.range'_succ, List.filterMap_cons]
    cases gptEntry pd.diskSectors ((diskFrom disk h.entriesLba).shift (i * h.esize)) with
    | none => simp
    | some x =>
      obtain ⟨j, hj⟩ := Nat.exists_eq_add_of_lt (not_le.mp hfull)
      have htake : maxPerDrive - pd.parts.length = j + 1 := by omega
      have htake' : maxPerDrive - (pd.parts.length + 1) = j := by omega
      simp [htake, htake']

end Part

end Csos

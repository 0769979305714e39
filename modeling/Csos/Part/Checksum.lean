import Csos.Common.Crc
import Csos.Part.GptScan
/-!
# Partitions — the checksum of a GPT

`part_crc32_update` is the polynomial CRC-32: a register that is shifted
towards its lowest bit, so that the bits of a string enter with the lowest of
each byte first (`crc32_eq_remainder`). So two strings that differ within 32
consecutive bits have different checksums, and `part_scan_gpt` rejects a table
that is damaged so. The header says itself how many of its bytes are checked:
where that number is damaged the scan checks another string
(`gpt_resized_accepted`).
-/

namespace Csos

namespace Part

open Polynomial

variable {σ : Type} {ops : BlockOps σ} {disk disk' : ℕ → Option Bytes} {m m' hdr : Bytes} {n t len : ℕ}

/-! ## The register -/

/-- What the loop adds to the register when a set bit drops out. -/
abbrev crcTaps : BitVec 32 := 0xedb88320

theorem crcMask_eq (crc : UInt32) :
    (0 - (crc &&& 1)).toBitVec = if crc.toBitVec.getLsbD 0 then BitVec.allOnes 32 else 0#32 := by
  have hbit : (crc &&& 1).toBitVec = BitVec.setWidth 32 (BitVec.ofBool (crc.toBitVec.getLsbD 0)) := by
    rw [UInt32.toBitVec_and]
    exact BitVec.and_one_eq_setWidth_ofBool_getLsbD
  rw [UInt32.toBitVec_sub, hbit]
  cases crc.toBitVec.getLsbD 0 <;> decide

/-- The loop shifts the register. -/
theorem crcBits_toBitVec (k : ℕ) (crc : UInt32) :
    (crcBits k crc).toBitVec = (Crc.shift crcTaps)^[k] crc.toBitVec := by
  induction k generalizing crc with
  | zero => rfl
  | succ k ih =>
    rw [crcBits, ih, Function.iterate_succ_apply]
    congr 1
    rw [UInt32.toBitVec_xor, UInt32.toBitVec_and, crcMask_eq, UInt32.toBitVec_shiftRight]
    unfold Crc.shift
    split
    · rw [BitVec.and_allOnes]
      rfl
    · rw [BitVec.and_zero, BitVec.xor_zero]
      rfl

/-- A bit of a string, the lowest of each byte first. -/
def bitAt (m : Bytes) (k : ℕ) : Bool := (m (k / 8)).toBitVec.getLsbD (k % 8)

theorem bitAt_shift (m : Bytes) (p k : ℕ) : bitAt m (8 * p + k) = bitAt (m.shift p) k := by
  unfold bitAt Bytes.shift
  rw [Nat.mul_add_div (by norm_num), Nat.mul_add_mod]

/-- **The register after a string**, modulo the generator. -/
theorem mk_crc32Update (crc : UInt32) (m : Bytes) (n p : ℕ) :
    AdjoinRoot.mk (Crc.generator crcTaps) (Crc.poly (crc32Update crc m n p).toBitVec) =
      AdjoinRoot.mk (Crc.generator crcTaps)
        (X ^ (8 * n) * Crc.poly crc.toBitVec + X ^ 32 * Crc.bitPoly (8 * n) (bitAt (m.shift p))) := by
  induction n generalizing crc p with
  | zero => simp [crc32Update, Crc.bitPoly]
  | succ n ih =>
    -- the first byte, then the rest
    have hbyte : ∀ i, 8 ≤ i → (m p).toUInt32.toBitVec.getLsbD i = false := fun i hi => by
      rw [UInt8.toBitVec_toUInt32, BitVec.getLsbD_setWidth, BitVec.getLsbD_of_ge _ i hi, Bool.and_false]
    have hfirst : Crc.bitPoly 8 (m p).toUInt32.toBitVec.getLsbD = Crc.bitPoly 8 (bitAt (m.shift p)) := by
      refine Crc.bitPoly_congr fun i hi => ?_
      rw [UInt8.toBitVec_toUInt32, BitVec.getLsbD_setWidth, bitAt, Bytes.shift, Nat.div_eq_of_lt hi,
        Nat.mod_eq_of_lt hi, Nat.add_zero, decide_eq_true (by omega), Bool.true_and]
    have hrest : (fun i => bitAt (m.shift p) (8 + i)) = bitAt (m.shift (p + 1)) := by
      funext i
      have h := bitAt_shift (m.shift p) 1 i
      rw [Nat.mul_one] at h
      rw [h]
      unfold Bytes.shift
      simp only [Nat.add_assoc]
    have hfeed := Crc.mk_feed (by norm_num : 8 ≤ 32) hbyte crcTaps crc.toBitVec
    rw [crc32Update, ih, map_add, map_mul, crcBits_toBitVec, UInt32.toBitVec_xor, hfeed, hfirst,
      show 8 * (n + 1) = 8 + 8 * n by ring, Crc.bitPoly_add, hrest, ← map_mul, ← map_add]
    refine congrArg (AdjoinRoot.mk _) ?_
    ring

/-! ## The polynomial CRC-32 -/

/-- The generator 0x04C11DB7. -/
noncomputable def crcGenerator : (ZMod 2)[X] :=
  X ^ 32 + ∑ i ∈ Finset.range 32, if Nat.testBit 0x04c11db7 i then X ^ i else 0

/-- The polynomial of 32 ones: the value that the register starts with, and what
its last value is complemented with. -/
noncomputable def ones : (ZMod 2)[X] := ∑ i ∈ Finset.range 32, X ^ i

/-- The polynomial of a string: its bits in their order, the lowest of each byte
first. -/
noncomputable def messagePoly (m : Bytes) (n : ℕ) : (ZMod 2)[X] := Crc.bitPoly (8 * n) (bitAt m)

/-- **The remainder**: the polynomial of the string times `X ^ 32`, its first 32
bits complemented, modulo the generator. -/
noncomputable def crcRemainder (m : Bytes) (n : ℕ) : (ZMod 2)[X] :=
  (messagePoly m n * X ^ 32 + ones * X ^ (8 * n)) %ₘ crcGenerator

/-- The word of a polynomial, reflected: its highest bit is the constant term. -/
noncomputable def reflected (q : (ZMod 2)[X]) : ℕ :=
  Nat.ofBits fun i : Fin 32 => decide (q.coeff (31 - i) = 1)

theorem generator_crcTaps : Crc.generator crcTaps = crcGenerator := by
  unfold Crc.generator crcGenerator
  refine congrArg (X ^ 32 + ·) ?_
  ext k
  have hterm : ∀ i, (if Nat.testBit 0x04c11db7 i then X ^ i else 0 : (ZMod 2)[X]).coeff k =
      if k = i then (if Nat.testBit 0x04c11db7 i then 1 else 0) else 0 := fun i => by
    split
    · exact coeff_X_pow i k
    · rw [coeff_zero, ite_self]
  have hbits : ∀ k < 32, crcTaps.getLsbD (31 - k) = Nat.testBit 0x04c11db7 k := by decide
  rw [Crc.poly, Crc.bitPoly_coeff, finsetSum_coeff, Finset.sum_congr rfl fun i _ => hterm i,
    Finset.sum_ite_eq]
  by_cases hk : k < 32
  · rw [if_pos (Finset.mem_range.mpr hk), ← hbits k hk]
    exact if_congr (and_iff_right hk) rfl rfl
  · rw [if_neg (fun h => hk (Finset.mem_range.mp h)), if_neg (fun h => hk h.1)]

theorem poly_ones : Crc.poly (BitVec.allOnes 32) = ones := by
  unfold ones
  ext k
  rw [Crc.poly, Crc.bitPoly_coeff, finsetSum_coeff,
    Finset.sum_congr rfl fun i _ => coeff_X_pow i k, Finset.sum_ite_eq]
  refine if_congr ?_ rfl rfl
  rw [BitVec.getLsbD_allOnes, Finset.mem_range, decide_eq_true_eq]
  omega

theorem reflected_poly (c : BitVec 32) : reflected (Crc.poly c) = c.toNat := by
  have hbits : (fun i : Fin 32 => decide ((Crc.poly c).coeff (31 - i) = 1)) = fun i : Fin 32 => c.toNat.testBit i := by
    funext i
    have hcoeff := Crc.poly_coeff i.isLt c
    rw [hcoeff, ← BitVec.getLsbD]
    cases c.getLsbD i <;> decide
  unfold reflected
  rw [hbits, Nat.ofBits_testBit, Nat.mod_eq_of_lt c.isLt]

/-- What the register holds at the end of a string. -/
theorem poly_crc32Update (m : Bytes) (n : ℕ) :
    Crc.poly (crc32Update 0xffffffff m n 0).toBitVec = crcRemainder m n := by
  have hmk := mk_crc32Update 0xffffffff m n 0
  have hshift : m.shift 0 = m := by
    funext i
    exact congrArg m (Nat.zero_add i)
  rw [Crc.poly_eq_modByMonic hmk, hshift, show (0xffffffff : UInt32).toBitVec = BitVec.allOnes 32 by decide,
    poly_ones, generator_crcTaps, crcRemainder, messagePoly]
  refine congrArg (· %ₘ crcGenerator) ?_
  ring

/-- **The checksum is the complement of the remainder**, reflected. -/
theorem crc32_eq_remainder (m : Bytes) (n : ℕ) : crc32 m n = reflected (crcRemainder m n + ones) := by
  rw [← poly_crc32Update, ← poly_ones, ← Crc.poly_xor, reflected_poly]
  rfl

/-! ## Pieces -/

/-- A string that is fed in pieces of the lengths given. -/
def crcPieces (m : Bytes) : List ℕ → ℕ → UInt32 → UInt32
  | [], _, crc => crc
  | k :: ks, p, crc => crcPieces m ks (p + k) (crc32Update crc m k p)

/-- **Any pieces** give the checksum of the whole. -/
theorem crcPieces_eq (m : Bytes) (ks : List ℕ) (p : ℕ) (crc : UInt32) :
    crcPieces m ks p crc = crc32Update crc m ks.sum p := by
  induction ks generalizing p crc with
  | nil => rw [crcPieces, List.sum_nil, crc32Update_zero]
  | cons k ks ih => rw [crcPieces, ih, List.sum_cons, crc32Update_add]

/-! ## Bursts -/

/-- Strings that differ in a bit. -/
theorem exists_bitAt_ne {i : ℕ} (m m' : Bytes) (hi : i < n) (h : m i ≠ m' i) :
    ∃ k < 8 * n, (bitAt m k ^^ bitAt m' k) = true := by
  by_contra! hall
  refine h (UInt8.toBitVec_inj.mp (BitVec.eq_of_getLsbD_eq fun j hj => ?_))
  have hbit := hall (8 * i + j) (by omega)
  unfold bitAt at hbit
  rw [Nat.mul_add_div (by norm_num), Nat.mul_add_mod, Nat.div_eq_of_lt hj, Nat.mod_eq_of_lt hj,
    Nat.add_zero] at hbit
  simpa using hbit

/-- **A burst of at most 32 bits changes the checksum.** -/
theorem crc32_ne_of_burst (hwin : ∀ k < 8 * n, bitAt m k ≠ bitAt m' k → t ≤ k ∧ k < t + 32)
    (hdiff : ∃ i < n, m i ≠ m' i) : crc32 m n ≠ crc32 m' n := by
  intro heq
  obtain ⟨i, hi, hne⟩ := hdiff
  have hreg : crc32Update 0xffffffff m n 0 = crc32Update 0xffffffff m' n 0 :=
    (UInt32.xor_left_inj _).mp (UInt32.toNat_inj.mp heq)
  -- so the generator divides the polynomial of the difference
  have hmk := mk_crc32Update 0xffffffff m n 0
  rw [hreg, mk_crc32Update, AdjoinRoot.mk_eq_mk] at hmk
  have hzero : ∀ m : Bytes, m.shift 0 = m := fun m => funext fun i => congrArg m (Nat.zero_add i)
  rw [hzero, hzero, add_sub_add_left_eq_sub, ← mul_sub, CharTwo.sub_eq_add, ← Crc.bitPoly_xor] at hmk
  refine Crc.not_dvd_burst (p := crcTaps) (t := t) (by norm_num) (by decide) (fun k hk hx => ?_)
    (exists_bitAt_ne m' m hi hne.symm) 32 hmk
  exact hwin k hk fun hsame => by simp [hsame] at hx

/-! ## The scan -/

/-- A bit of the disk. -/
def diskBit (disk : ℕ → Option Bytes) (k : ℕ) : Bool := bitAt (diskByte disk) k

/-- Two disks that differ only within 32 consecutive bits. -/
def DiffersWithin (disk disk' : ℕ → Option Bytes) : Prop :=
  ∃ t, ∀ k, diskBit disk k ≠ diskBit disk' k → t ≤ k ∧ k < t + 32

/-- A checked byte of the header is changed, and the checksum that is stored in
it is not. -/
def HeaderHit (disk disk' : ℕ → Option Bytes) (h : GptHeader) : Prop :=
  (∃ i < h.hdrSize, diskByte disk (secSize + i) ≠ diskByte disk' (secSize + i)) ∧
    ∀ i, 16 ≤ i → i < 20 → diskByte disk (secSize + i) = diskByte disk' (secSize + i)

/-- The size of the header is not changed. -/
def SameSize (disk disk' : ℕ → Option Bytes) : Prop :=
  ∀ i, 12 ≤ i → i < 16 → diskByte disk (secSize + i) = diskByte disk' (secSize + i)

/-- A byte of the table is changed. -/
def TableHit (disk disk' : ℕ → Option Bytes) (h : GptHeader) : Prop :=
  ∃ i < h.num * h.esize, diskFrom disk h.entriesLba i ≠ diskFrom disk' h.entriesLba i

/-- A header with the wrong checksum is rejected. -/
theorem partScanGpt_header (hd : Steady ops disk) (h1 : disk 1 = some hdr)
    (hcrc : crc32 (hdr.store 4 16 0) (readHeader hdr).hdrSize ≠ (readHeader hdr).hdrCrc) (mbr : Bytes) (st : σ) :
    (partScanGpt ops mbr ⟨n, []⟩ st).2.1.parts = [] := by
  rw [partScanGpt, hd.read_eq, h1]
  dsimp only
  split
  · rfl
  split
  · rfl
  split
  · rfl
  · rw [crc32] at hcrc
    rw [if_pos hcrc]

/-- So is a table. -/
theorem partScanGpt_table (hd : Steady ops disk) (h1 : disk 1 = some hdr)
    (hend : (readHeader hdr).entriesLba + entriesSecs (readHeader hdr) ≤ 2 ^ 64)
    (hcrc : crc32 (diskFrom disk (readHeader hdr).entriesLba) ((readHeader hdr).num * (readHeader hdr).esize) ≠
      (readHeader hdr).entriesCrc) (mbr : Bytes) (st : σ) :
    (partScanGpt ops mbr ⟨n, []⟩ st).2.1.parts = [] := by
  rw [partScanGpt, hd.read_eq, h1]
  dsimp only
  split
  · rfl
  split
  · rfl
  split
  · rfl
  split
  · rfl
  generalize (readSector ops 1 st).2 = st'
  have hloop := entriesCrcLoop_eq hd st' hend (entriesSecs (readHeader hdr)) 0 (Nat.zero_add _) 0xffffffff
  rcases hr : entriesCrcLoop ops (readHeader hdr) (entriesSecs (readHeader hdr)) 0 0xffffffff st' with ⟨_ | crc, st₁⟩
  · rfl
  rw [hr] at hloop
  rcases hloop with ⟨hnone, -⟩ | ⟨hsome, -⟩
  · exact absurd hnone (by simp)
  · rw [Nat.zero_mul, Nat.sub_zero] at hsome
    obtain rfl := Option.some.inj hsome
    rw [crc32] at hcrc
    dsimp only
    rw [if_pos hcrc]

/-! ## Damage -/

/-- A byte of a sector that is read. -/
theorem diskByte_sector {s i : ℕ} {sec : Bytes} (hs : disk s = some sec) (hi : i < secSize) :
    diskByte disk (s * secSize + i) = sec i := by
  have h : diskFrom disk s (0 * secSize + i) = sec i := diskFrom_sector (by rwa [Nat.add_zero]) hi
  rwa [Nat.zero_mul, Nat.zero_add] at h

/-- The bits of a part of the disk. -/
theorem diskBit_add (disk : ℕ → Option Bytes) (o k : ℕ) :
    diskBit disk (8 * o + k) = bitAt (fun i => diskByte disk (o + i)) k := bitAt_shift (diskByte disk) o k

/-- The difference within a part of the disk. -/
theorem DiffersWithin.part (h : DiffersWithin disk disk') (o : ℕ) :
    ∃ t, ∀ k, bitAt (fun i => diskByte disk (o + i)) k ≠ bitAt (fun i => diskByte disk' (o + i)) k →
      t ≤ k ∧ k < t + 32 := by
  obtain ⟨t, ht⟩ := h
  refine ⟨t - 8 * o, fun k hk => ?_⟩
  rw [← diskBit_add, ← diskBit_add] at hk
  have := ht _ hk
  omega

/-- Bytes that differ are at most four apart. -/
theorem DiffersWithin.near (h : DiffersWithin disk disk') {a b : ℕ} (ha : diskByte disk a ≠ diskByte disk' a)
    (hb : diskByte disk b ≠ diskByte disk' b) : a ≤ b + 4 := by
  obtain ⟨t, ht⟩ := h
  have hbit : ∀ o, diskByte disk o ≠ diskByte disk' o → ∃ j < 8, t ≤ 8 * o + j ∧ 8 * o + j < t + 32 := by
    intro o ho
    obtain ⟨j, hj, hne⟩ := exists_bitAt_ne (n := 1) (i := 0) (fun i => diskByte disk (o + i))
      (fun i => diskByte disk' (o + i)) (by norm_num) ho
    refine ⟨j, hj, ht _ fun hsame => ?_⟩
    rw [diskBit_add, diskBit_add] at hsame
    simp [hsame] at hne
  obtain ⟨j, hj, h1, h2⟩ := hbit a ha
  obtain ⟨k, hk, h3, h4⟩ := hbit b hb
  omega

theorem load_header {hdr' : Bytes} {a k : ℕ} (h : ∀ i, a ≤ i → i < a + k → hdr i = hdr' i) :
    Bytes.load k hdr a = Bytes.load k hdr' a :=
  Bytes.load_congr fun i hi => h _ (Nat.le_add_right ..) (by omega)

/-- **A header that is damaged is rejected**, if its size and its checksum are
not. -/
theorem header_rejected (hd : Steady ops disk') (hv : GptValid disk n hdr) (hwin : DiffersWithin disk disk')
    (hhit : HeaderHit disk disk' (readHeader hdr)) (hsize : SameSize disk disk') (mbr : Bytes) (st : σ) :
    (partScanGpt ops mbr ⟨n, []⟩ st).2.1.parts = [] := by
  rcases h1 : disk' 1 with _ | hdr'
  · rw [partScanGpt, hd.read_eq, h1]
  have hbyte : ∀ i < secSize, diskByte disk (secSize + i) = hdr i ∧ diskByte disk' (secSize + i) = hdr' i := by
    intro i hi
    have h := diskByte_sector (s := 1) hv.signed.1 hi
    have h' := diskByte_sector h1 hi
    rw [Nat.one_mul] at h h'
    exact ⟨h, h'⟩
  have hsame : ∀ i, 12 ≤ i → i < 20 → hdr i = hdr' i := fun i h12 h20 => by
    obtain ⟨h, h'⟩ := hbyte i (by unfold secSize; omega)
    rw [← h, ← h']
    rcases Nat.lt_or_ge i 16 with h16 | h16
    · exact hsize i h12 h16
    · exact hhit.2 i h16 h20
  have hsz : (readHeader hdr').hdrSize = (readHeader hdr).hdrSize :=
    (load_header fun i hi hi' => hsame i hi (by omega)).symm
  have hstored : (readHeader hdr').hdrCrc = (readHeader hdr).hdrCrc :=
    (load_header fun i hi hi' => hsame i (by omega) hi').symm
  refine partScanGpt_header hd h1 ?_ mbr st
  rw [hsz, hstored, ← hv.crc]
  obtain ⟨t, ht⟩ := hwin.part secSize
  have hle := hv.size.2
  refine (crc32_ne_of_burst (t := t) (fun k hk hne => ht k fun heq => hne ?_) ?_).symm
  · -- outside the checksum the strings are those of the disks
    obtain ⟨h, h'⟩ := hbyte (k / 8) (by omega)
    unfold bitAt at heq ⊢
    dsimp only at heq
    rw [h, h'] at heq
    unfold Bytes.store
    split
    · rfl
    · exact heq
  · obtain ⟨i, hi, hne⟩ := hhit.1
    obtain ⟨h, h'⟩ := hbyte i (by omega)
    rw [h, h'] at hne
    refine ⟨i, hi, ?_⟩
    have hout : i < 16 ∨ 16 + 4 ≤ i := by
      by_contra! hin
      exact hne (hsame i (by omega) (by omega))
    rwa [Bytes.store_apply_of_notMem hout, Bytes.store_apply_of_notMem hout]

/-- **A table that is damaged is rejected.** -/
theorem table_rejected (hd : Steady ops disk') (hn : n < 2 ^ 64) (hv : GptValid disk n hdr)
    (hwin : DiffersWithin disk disk') (hhit : TableHit disk disk' (readHeader hdr)) (mbr : Bytes) (st : σ) :
    (partScanGpt ops mbr ⟨n, []⟩ st).2.1.parts = [] := by
  have hle := hv.size.1
  by_cases hfields : ∀ i, 72 ≤ i → i < 92 → diskByte disk (secSize + i) = diskByte disk' (secSize + i)
  case neg =>
    -- the header describes another table, and is damaged itself
    push Not at hfields
    obtain ⟨i, h72, h92, hne⟩ := hfields
    have hfar : ∀ j, j < 68 → diskByte disk (secSize + j) = diskByte disk' (secSize + j) := fun j hj => by
      by_contra hj'
      have := hwin.near hne hj'
      omega
    exact header_rejected hd hv hwin ⟨⟨i, by omega, hne⟩, fun j _ hj => hfar j (by omega)⟩
      (fun j _ hj => hfar j (by omega)) mbr st
  rcases h1 : disk' 1 with _ | hdr'
  · rw [partScanGpt, hd.read_eq, h1]
  have hsame : ∀ i, 72 ≤ i → i < 92 → hdr' i = hdr i := fun i h72 h92 => by
    have h := diskByte_sector (s := 1) hv.signed.1 (i := i) (by unfold secSize; omega)
    have h' := diskByte_sector h1 (i := i) (by unfold secSize; omega)
    rw [Nat.one_mul] at h h'
    rw [← h, ← h', hfields i h72 h92]
  have hlba : (readHeader hdr').entriesLba = (readHeader hdr).entriesLba :=
    load_header fun i hi hi' => hsame i (by omega) (by omega)
  have hnum : (readHeader hdr').num = (readHeader hdr).num :=
    load_header fun i hi hi' => hsame i (by omega) (by omega)
  have hesize : (readHeader hdr').esize = (readHeader hdr).esize :=
    load_header fun i hi hi' => hsame i (by omega) (by omega)
  have hstored : (readHeader hdr').entriesCrc = (readHeader hdr).entriesCrc :=
    load_header fun i hi hi' => hsame i (by omega) (by omega)
  have hsecs : entriesSecs (readHeader hdr') = entriesSecs (readHeader hdr) := by
    unfold entriesSecs
    rw [hnum, hesize]
  refine partScanGpt_table hd h1 ?_ ?_ mbr st
  · rw [hlba, hsecs]
    exact hv.inside.trans hn.le
  · rw [hlba, hnum, hesize, hstored, ← hv.entriesCrc]
    obtain ⟨t, ht⟩ := hwin.part ((readHeader hdr).entriesLba * secSize)
    exact (crc32_ne_of_burst (fun k _ hne => ht k hne) hhit).symm

/-- **The checksum of a GPT is the polynomial CRC-32**, in any pieces; it tells
strings apart that differ within 32 consecutive bits; and a table or a header
that is damaged so is rejected, if the header still says how long it is. -/
theorem crc_is_polynomial :
    (∀ m n, crc32 m n = reflected (crcRemainder m n + ones)) ∧
      (∀ m ks, (crcPieces m ks 0 0xffffffff ^^^ 0xffffffff).toNat = crc32 m ks.sum) ∧
      (∀ m m' n, (∃ t, ∀ k < 8 * n, bitAt m k ≠ bitAt m' k → t ≤ k ∧ k < t + 32) →
        (∃ i < n, m i ≠ m' i) → crc32 m n ≠ crc32 m' n) ∧
      ∀ (σ : Type) (ops : BlockOps σ) (disk disk' : ℕ → Option Bytes) (n : ℕ) (hdr : Bytes),
        Steady ops disk' → n < 2 ^ 64 → GptValid disk n hdr → DiffersWithin disk disk' →
        TableHit disk disk' (readHeader hdr) ∨
          HeaderHit disk disk' (readHeader hdr) ∧ SameSize disk disk' →
        ∀ mbr st, (partScanGpt ops mbr ⟨n, []⟩ st).2.1.parts = [] := by
  refine ⟨crc32_eq_remainder, fun m ks => ?_, fun m m' n hwin hdiff => ?_, ?_⟩
  · rw [crcPieces_eq, crc32]
  · obtain ⟨t, ht⟩ := hwin
    exact crc32_ne_of_burst ht hdiff
  · intro σ ops disk disk' n hdr hd hn hv hwin hhit
    rcases hhit with htable | ⟨hheader, hsize⟩
    · exact table_rejected hd hn hv hwin htable
    · exact header_rejected hd hv hwin hheader hsize

/-! ## The size of the header -/

/-- A header of `size` bytes for the table in sector 2. What is at 92 makes its
checksum the same for 92 and for 96 bytes. -/
def sizedHeader (size : ℕ) : Bytes :=
  Bytes.store 4 (Bytes.store 4 (headerAt 2 0xf940d382 0x4984aaf2) 92 0xaaf55919) 12 size

/-- A disk with that header, and `b` in a byte of its table. -/
def sizedDisk (size : ℕ) (b : UInt8) : ℕ → Option Bytes
  | 0 => some entrySector
  | 1 => some (sizedHeader size)
  | 2 => some (Function.update entrySector 100 b)
  | _ => some (Bytes.const 0)

theorem sizedDisk_valid : GptValid (sizedDisk 92 0) 100 (sizedHeader 92) where
  signed := ⟨rfl, by decide +kernel⟩
  rev := by decide +kernel
  size := by decide +kernel
  myLba := by decide +kernel
  num := by decide +kernel
  esize := by decide +kernel
  crc := by decide +kernel
  entries := by decide +kernel
  inside := by decide +kernel
  readable s hs := by
    have hone : entriesSecs (readHeader (sizedHeader 92)) = 1 := by decide +kernel
    have hlba : (readHeader (sizedHeader 92)).entriesLba = 2 := by decide +kernel
    obtain rfl : s = 0 := by omega
    rw [hlba]
    rfl
  entriesCrc := by decide +kernel

/-- Disks that differ in one byte. -/
theorem differsWithin_of_byte {a : ℕ} (h : ∀ o, o ≠ a → diskByte disk o = diskByte disk' o) :
    DiffersWithin disk disk' := by
  refine ⟨8 * a, fun k hk => ?_⟩
  have hbyte : k / 8 = a := by
    by_contra hne
    unfold diskBit bitAt at hk
    exact hk (by rw [h _ hne])
  omega

theorem diskByte_congr {o : ℕ} (h : ∀ s i, s = o / secSize → i = o % secSize →
    (disk s).getD (Bytes.const 0) i = (disk' s).getD (Bytes.const 0) i) : diskByte disk o = diskByte disk' o :=
  h _ _ rfl rfl

theorem sizedDisk_size : DiffersWithin (sizedDisk 92 0) (sizedDisk 96 0) := by
  refine differsWithin_of_byte (a := 524) fun o ho => diskByte_congr fun s i hs hi => ?_
  have hpos : s = 1 → i ≠ 12 := by
    unfold secSize at hs hi
    omega
  rcases s with _ | _ | _ | s
  · rfl
  · -- only the lowest byte of the two sizes is different
    change Bytes.store 4 _ 12 92 i = Bytes.store 4 _ 12 96 i
    unfold Bytes.store
    split
    · rename_i h
      obtain rfl | rfl | rfl : i = 13 ∨ i = 14 ∨ i = 15 := by
        have := hpos rfl
        omega
      all_goals rfl
    · rfl
  · rfl
  · rfl

/-- **A header whose size is damaged may be accepted**: of 92 bytes before, it
says 96 now, and the checksum is right for those as well. -/
theorem gpt_resized_accepted : GptValid (sizedDisk 92 0) 100 (sizedHeader 92) ∧
    DiffersWithin (sizedDisk 92 0) (sizedDisk 96 0) ∧
    HeaderHit (sizedDisk 92 0) (sizedDisk 96 0) (readHeader (sizedHeader 92)) ∧
    (partScanGpt (diskOps (sizedDisk 96 0)) entrySector ⟨100, []⟩ ()).2.1.parts.map Entry.start = [1] := by
  refine ⟨sizedDisk_valid, sizedDisk_size, ⟨⟨12, by decide +kernel, by decide +kernel⟩, fun i h16 h20 => ?_⟩,
    by decide +kernel⟩
  obtain rfl | rfl | rfl | rfl : i = 16 ∨ i = 17 ∨ i = 18 ∨ i = 19 := by omega
  all_goals decide +kernel

/-- A damaged byte of the table. -/
theorem crc_is_polynomial_table :
    (partScanGpt (diskOps (sizedDisk 92 1)) entrySector ⟨100, []⟩ ()).2.1.parts = [] := by
  have hwin : DiffersWithin (sizedDisk 92 0) (sizedDisk 92 1) := by
    refine differsWithin_of_byte (a := 1124) fun o ho => diskByte_congr fun s i hs hi => ?_
    have hpos : s = 2 → i ≠ 100 := by
      unfold secSize at hs hi
      omega
    rcases s with _ | _ | _ | s
    · rfl
    · rfl
    · change Function.update entrySector 100 0 i = Function.update entrySector 100 1 i
      rw [Function.update_of_ne (hpos rfl), Function.update_of_ne (hpos rfl)]
    · rfl
  exact crc_is_polynomial.2.2.2 Unit _ _ _ 100 _ (steady_diskOps _) (by norm_num) sizedDisk_valid hwin
    (.inl ⟨100, by decide +kernel, by decide +kernel⟩) entrySector ()

end Part

end Csos

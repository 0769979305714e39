import Csos.Part.Gpt
/-!
# Partitions — the scan of a GPT

`part_scan_gpt` registers the partitions of a table that its header and its
checksums vouch for, and nothing else (`partScanGpt_cases`). It takes byte
offsets modulo `2 ^ 64`, which no disk of at most `2 ^ 55` sectors reaches; on
every larger disk a table may lie where it is checked in one place and decoded
in another (`gpt_exact_iff`).
-/

namespace Csos

namespace Part

variable {σ : Type} {ops : BlockOps σ} {disk : ℕ → Option Bytes} {st : σ} {mbr hdr : Bytes} {n : ℕ}

/-- There is a GPT signature, and it can be read. -/
def Signed (disk : ℕ → Option Bytes) (hdr : Bytes) : Prop :=
  disk 1 = some hdr ∧ (List.range 8).map hdr = gptMagic

/-- The header of the disk: its fields are what is required of them, and its
checksum is right. -/
structure HeaderOk (disk : ℕ → Option Bytes) (hdr : Bytes) : Prop where
  signed : Signed disk hdr
  rev : (readHeader hdr).rev = 0x00010000
  size : 92 ≤ (readHeader hdr).hdrSize ∧ (readHeader hdr).hdrSize ≤ secSize
  myLba : (readHeader hdr).myLba = 1
  num : 0 < (readHeader hdr).num ∧ (readHeader hdr).num ≤ 1024
  esize : 128 ≤ (readHeader hdr).esize ∧ (readHeader hdr).esize ≤ gptMaxEntrySize ∧
    (readHeader hdr).esize % 8 = 0
  crc : crc32 (hdr.store 4 16 0) (readHeader hdr).hdrSize = (readHeader hdr).hdrCrc

/-- **A GPT**: the header is right, the table lies on the disk of `n` sectors and
can be read, and its checksum is right. -/
structure GptValid (disk : ℕ → Option Bytes) (n : ℕ) (hdr : Bytes) : Prop extends HeaderOk disk hdr where
  entries : 0 < (readHeader hdr).entriesLba
  inside : (readHeader hdr).entriesLba + entriesSecs (readHeader hdr) ≤ n
  readable : Readable disk (readHeader hdr)
  entriesCrc : crc32 (diskFrom disk (readHeader hdr).entriesLba)
    ((readHeader hdr).num * (readHeader hdr).esize) = (readHeader hdr).entriesCrc

/-- **What a scan for a GPT is to do**: the partitions of a table that is valid
are registered, and else none; an MBR is considered only if it has no protective
entry or there is no signature. -/
structure GptExact (ops : BlockOps σ) (disk : ℕ → Option Bytes) (mbr : Bytes) (n : ℕ) : Prop where
  valid : ∀ st hdr, GptValid disk n hdr → (partScanGpt ops mbr ⟨n, []⟩ st).1 = true ∧
    (partScanGpt ops mbr ⟨n, []⟩ st).2.1.parts = gptParts disk (readHeader hdr) n
  invalid : ∀ st, (∀ hdr, ¬ GptValid disk n hdr) → (partScanGpt ops mbr ⟨n, []⟩ st).2.1.parts = []
  considered : ∀ st, (partScanGpt ops mbr ⟨n, []⟩ st).1 = false →
    mbrHasProtective mbr = false ∨ ∀ hdr, ¬ Signed disk hdr
  drive : ∀ st, disk 0 = some mbr → hasBootSig mbr = true → mbrHasProtective mbr = true →
    (∃ hdr, Signed disk hdr) → (∀ hdr, ¬ GptValid disk n hdr) → (scanTable ops n st).1.parts = []

/-- **No offset of the table passes `2 ^ 64`**: the sectors of a table that a
header describes are counted without wrapping, and so are the bytes of one that
is valid. -/
structure Counted (disk : ℕ → Option Bytes) (n : ℕ) : Prop where
  sectors : ∀ hdr, HeaderOk disk hdr → (readHeader hdr).entriesLba < n →
    (readHeader hdr).entriesLba + entriesSecs (readHeader hdr) < 2 ^ 64
  bytes : ∀ hdr, GptValid disk n hdr →
    (readHeader hdr).entriesLba + entriesSecs (readHeader hdr) ≤ 2 ^ 55

theorem Signed.inj {hdr' : Bytes} (h : Signed disk hdr) (h' : Signed disk hdr') : hdr' = hdr :=
  Option.some.inj (h'.1.symm.trans h.1)

/-- At most 2048 sectors hold the table. -/
theorem HeaderOk.entriesSecs_le (h : HeaderOk disk hdr) : entriesSecs (readHeader hdr) ≤ 2048 := by
  have h1 := h.num.2
  have h2 := h.esize.2.1
  have hmul : (readHeader hdr).num * (readHeader hdr).esize ≤ 1024 * 1024 := Nat.mul_le_mul h1 h2
  unfold entriesSecs secSize
  omega

/-- A disk of at most `2 ^ 55` sectors. -/
theorem counted_of_le (hn : n ≤ 2 ^ 55) : Counted disk n where
  sectors hdr h hlt := by
    have := h.entriesSecs_le
    omega
  bytes hdr h := h.inside.trans hn

theorem headerValid_iff (h : GptHeader) : headerValid h n = true ↔
    h.rev = 0x00010000 ∧ 92 ≤ h.hdrSize ∧ h.hdrSize ≤ secSize ∧ h.myLba = 1 ∧ 0 < h.num ∧ h.num ≤ 1024 ∧
      128 ≤ h.esize ∧ h.esize ≤ gptMaxEntrySize ∧ h.esize % 8 = 0 ∧ 0 < h.entriesLba ∧ h.entriesLba < n := by
  unfold headerValid
  rw [decide_eq_true_eq]
  omega

/-- **The outcomes of the scan**, for a table whose sectors are counted without
wrapping: there is no signature; the GPT is not valid; or it is, and its entries
are gone through. -/
theorem partScanGpt_cases (hd : Steady ops disk) (mbr : Bytes)
    (hc : ∀ hdr, HeaderOk disk hdr → (readHeader hdr).entriesLba < n →
      (readHeader hdr).entriesLba + entriesSecs (readHeader hdr) < 2 ^ 64) (st : σ) :
    ((∀ hdr, ¬ Signed disk hdr) ∧ (partScanGpt ops mbr ⟨n, []⟩ st).1 = false ∧
        (partScanGpt ops mbr ⟨n, []⟩ st).2.1.parts = []) ∨
      ((∀ hdr, ¬ GptValid disk n hdr) ∧ (partScanGpt ops mbr ⟨n, []⟩ st).2.1.parts = [] ∧
        ((partScanGpt ops mbr ⟨n, []⟩ st).1 = mbrHasProtective mbr ∨
          (partScanGpt ops mbr ⟨n, []⟩ st).1 = true)) ∨
      ∃ hdr st', GptValid disk n hdr ∧ (partScanGpt ops mbr ⟨n, []⟩ st).1 = true ∧
        (partScanGpt ops mbr ⟨n, []⟩ st).2.1 =
          (gptLoop ops (readHeader hdr) (readHeader hdr).num 0 ⟨n, []⟩ st').1 := by
  rw [partScanGpt, hd.read_eq]
  cases h1 : disk 1 with
  | none =>
    refine .inl ⟨fun hdr hs => ?_, rfl, rfl⟩
    rw [hs.1] at h1
    exact absurd h1 (by simp)
  | some hdr =>
  dsimp only
  by_cases hmagic : (List.range 8).map hdr ≠ gptMagic
  · rw [if_pos hmagic]
    refine .inl ⟨fun hdr' hs => hmagic ?_, rfl, rfl⟩
    obtain rfl : hdr' = hdr := Option.some.inj (hs.1.symm.trans h1)
    exact hs.2
  have hsigned : Signed disk hdr := ⟨h1, not_not.mp hmagic⟩
  rw [if_neg hmagic]
  generalize (readSector ops 1 st).2 = st'
  -- every header of a valid GPT is the one that was read
  have hone : ∀ hdr', GptValid disk n hdr' → GptValid disk n hdr := fun hdr' h =>
    hsigned.inj h.signed ▸ h
  by_cases hfields : headerValid (readHeader hdr) n = false
  · rw [if_pos hfields]
    refine .inr (.inl ⟨fun hdr' h => ?_, rfl, .inl rfl⟩)
    have h := hone hdr' h
    have hsecs : 0 < entriesSecs (readHeader hdr) := by
      have := Nat.mul_pos h.num.1 (by have := h.esize.1; omega : 0 < (readHeader hdr).esize)
      unfold entriesSecs secSize
      omega
    have hin := h.inside
    exact absurd hfields (by
      rw [Bool.not_eq_false, headerValid_iff]
      exact ⟨h.rev, h.size.1, h.size.2, h.myLba, h.num.1, h.num.2, h.esize.1, h.esize.2.1,
        h.esize.2.2, h.entries, by omega⟩)
  rw [if_neg hfields]
  obtain ⟨hrev, hsize1, hsize2, hmy, hnum1, hnum2, hes1, hes2, hes8, hlba, hlt⟩ :=
    (headerValid_iff _).mp (Bool.not_eq_false _ ▸ hfields)
  -- the checks on the place of the table and on the header's checksum
  by_cases hcrc : crc32 (hdr.store 4 16 0) (readHeader hdr).hdrSize = (readHeader hdr).hdrCrc
  case neg =>
    have hno : ∀ hdr', ¬ GptValid disk n hdr' := fun hdr' h => hcrc (hone hdr' h).crc
    have hcrc' : (crc32Update 0xffffffff (hdr.store 4 16 0) (readHeader hdr).hdrSize 0 ^^^ 0xffffffff).toNat ≠
        (readHeader hdr).hdrCrc := hcrc
    by_cases hplace : n < ((readHeader hdr).entriesLba + entriesSecs (readHeader hdr)) % 2 ^ 64
    · rw [if_pos hplace]
      exact .inr (.inl ⟨hno, rfl, .inl rfl⟩)
    · rw [if_neg hplace, if_pos hcrc']
      exact .inr (.inl ⟨hno, rfl, .inl rfl⟩)
  have hok : HeaderOk disk hdr := ⟨hsigned, hrev, ⟨hsize1, hsize2⟩, hmy, ⟨hnum1, hnum2⟩, ⟨hes1, hes2, hes8⟩, hcrc⟩
  have hsum := hc hdr hok hlt
  rw [Nat.mod_eq_of_lt hsum]
  by_cases hplace : n < (readHeader hdr).entriesLba + entriesSecs (readHeader hdr)
  · rw [if_pos hplace]
    exact .inr (.inl ⟨fun hdr' h => absurd (hone hdr' h).inside (not_le.mpr hplace), rfl, .inl rfl⟩)
  have hcrc' : ¬ (crc32Update 0xffffffff (hdr.store 4 16 0) (readHeader hdr).hdrSize 0 ^^^ 0xffffffff).toNat ≠
      (readHeader hdr).hdrCrc := not_not.mpr hcrc
  rw [if_neg hplace, if_neg hcrc']
  rcases entriesCrcLoop_eq hd st' hsum.le (entriesSecs (readHeader hdr)) 0 (Nat.zero_add _)
    0xffffffff with ⟨hfail, hno⟩ | ⟨htable, hread⟩
  · -- a sector of the table cannot be read
    rw [show entriesCrcLoop ops (readHeader hdr) (entriesSecs (readHeader hdr)) 0 0xffffffff st' =
      (none, (entriesCrcLoop ops (readHeader hdr) (entriesSecs (readHeader hdr)) 0 0xffffffff st').2) by
        rw [← hfail]]
    exact .inr (.inl ⟨fun hdr' h => hno (hone hdr' h).readable, rfl, .inr rfl⟩)
  rw [Nat.zero_mul, Nat.sub_zero] at htable
  rw [show entriesCrcLoop ops (readHeader hdr) (entriesSecs (readHeader hdr)) 0 0xffffffff st' =
    (some (crc32Update 0xffffffff (diskFrom disk (readHeader hdr).entriesLba)
      ((readHeader hdr).num * (readHeader hdr).esize) 0),
      (entriesCrcLoop ops (readHeader hdr) (entriesSecs (readHeader hdr)) 0 0xffffffff st').2) by
      rw [← htable]]
  dsimp only
  by_cases hentries : crc32 (diskFrom disk (readHeader hdr).entriesLba)
      ((readHeader hdr).num * (readHeader hdr).esize) = (readHeader hdr).entriesCrc
  · have hreadable : Readable disk (readHeader hdr) := fun s hs => hread s (Nat.zero_le s) hs
    have hvalid : GptValid disk n hdr := ⟨hok, hlba, not_lt.mp hplace, hreadable, hentries⟩
    have hentries' : ¬ (crc32Update 0xffffffff (diskFrom disk (readHeader hdr).entriesLba)
        ((readHeader hdr).num * (readHeader hdr).esize) 0 ^^^ 0xffffffff).toNat ≠
          (readHeader hdr).entriesCrc := not_not.mpr hentries
    rw [if_neg hentries']
    exact .inr (.inr ⟨hdr, _, hvalid, rfl, rfl⟩)
  · have hentries' : (crc32Update 0xffffffff (diskFrom disk (readHeader hdr).entriesLba)
        ((readHeader hdr).num * (readHeader hdr).esize) 0 ^^^ 0xffffffff).toNat ≠
          (readHeader hdr).entriesCrc := hentries
    rw [if_pos hentries']
    exact .inr (.inl ⟨fun hdr' h => hentries (hone hdr' h).entriesCrc, rfl, .inr rfl⟩)

/-- The entries of a table below `2 ^ 64` are the bytes that the checksum is
of. -/
theorem GptValid.loop_parts (hd : Steady ops disk) (hn : n < 2 ^ 64) (h : GptValid disk n hdr)
    (hbytes : (readHeader hdr).entriesLba + entriesSecs (readHeader hdr) ≤ 2 ^ 55) (st : σ) :
    (gptLoop ops (readHeader hdr) (readHeader hdr).num 0 ⟨n, []⟩ st).1.parts =
      gptParts disk (readHeader hdr) n := by
  have hsize := h.esize
  rw [gptLoop_eq hd (by exact hn) ⟨by omega, hsize.2.1⟩ (by unfold secSize; omega) h.readable _ 0
    (Nat.zero_add _)]
  rfl

/-- **The scan is exact** where no offset of the table passes `2 ^ 64`. -/
theorem gptExact_of_counted (hd : Steady ops disk) (hn : n < 2 ^ 64) (hc : Counted disk n) (mbr : Bytes) :
    GptExact ops disk mbr n where
  valid st hdr h := by
    rcases partScanGpt_cases hd mbr hc.sectors st with ⟨hno, -, -⟩ | ⟨hno, -, -⟩ | ⟨hdr', st', h', htrue, hloop⟩
    · exact absurd h.signed (hno hdr)
    · exact absurd h (hno hdr)
    · refine ⟨htrue, ?_⟩
      rw [hloop, h'.loop_parts hd hn (hc.bytes hdr' h'), h.signed.inj h'.signed]
  invalid st hno := by
    rcases partScanGpt_cases hd mbr hc.sectors st with ⟨-, -, hparts⟩ | ⟨-, hparts, -⟩ | ⟨hdr', _, h', -, -⟩
    · exact hparts
    · exact hparts
    · exact absurd h' (hno hdr')
  considered st hfalse := by
    rcases partScanGpt_cases hd mbr hc.sectors st with ⟨hno, -, -⟩ | ⟨-, -, hflag⟩ | ⟨-, -, -, htrue, -⟩
    · exact .inr hno
    · exact .inl (hflag.elim (fun h => h.symm.trans hfalse) fun h => absurd (h.symm.trans hfalse) (by simp))
    · exact absurd (htrue.symm.trans hfalse) (by simp)
  drive st h0 hsig hprot hs hno := by
    obtain ⟨hdr, hs⟩ := hs
    rw [scanTable, hd.read_eq, h0]
    dsimp only
    rw [if_neg (by simp [hsig])]
    generalize (readSector ops 0 st).2 = st'
    have hflag : (partScanGpt ops mbr ⟨n, []⟩ st').1 = true := by
      rcases partScanGpt_cases hd mbr hc.sectors st' with ⟨hno', -, -⟩ | ⟨-, -, hflag⟩ | ⟨-, -, -, htrue, -⟩
      · exact absurd hs (hno' hdr)
      · exact hflag.elim (fun h => h.trans hprot) id
      · exact htrue
    have hparts : (partScanGpt ops mbr ⟨n, []⟩ st').2.1.parts = [] := by
      rcases partScanGpt_cases hd mbr hc.sectors st' with ⟨-, -, h⟩ | ⟨-, h, -⟩ | ⟨hdr', _, h', -, -⟩
      · exact h
      · exact h
      · exact absurd h' (hno hdr')
    rw [show partScanGpt ops mbr ⟨n, []⟩ st' = (true, (partScanGpt ops mbr ⟨n, []⟩ st').2) by rw [← hflag]]
    exact hparts

/-! ## Large disks -/

/-- A header for one entry of 128 bytes at `lba`. -/
def headerAt (lba crc entriesCrc : ℕ) : Bytes :=
  let b := Bytes.store 8 (Bytes.const 0) 0 0x5452415020494645
  let b := Bytes.store 4 b 8 0x00010000
  let b := Bytes.store 4 b 12 92
  let b := Bytes.store 4 b 16 crc
  let b := Bytes.store 8 b 24 1
  let b := Bytes.store 8 b 72 lba
  let b := Bytes.store 4 b 80 1
  let b := Bytes.store 4 b 84 128
  Bytes.store 4 b 88 entriesCrc

/-- A sector that is an entry for the sector 1, and a protective MBR. -/
def entrySector : Bytes
  | 0 => 0xeb
  | 32 => 1
  | 40 => 1
  | 450 => 0xee
  | 510 => 0x55
  | 511 => 0xaa
  | _ => 0

/-- A disk with an entry in the sector `lba` and no other. -/
def oneEntryDisk : ℕ → Option Bytes
  | 0 => some entrySector
  | 1 => some (headerAt 2 0xf940d382 0x4984aaf2)
  | 2 => some entrySector
  | _ => some (Bytes.const 0)

/-- A disk whose table is the sector `2 ^ 55`, and empty. -/
def farDisk : ℕ → Option Bytes
  | 0 => some entrySector
  | 1 => some (headerAt (2 ^ 55) 0xfc5fb20f 0xc2a8fa9d)
  | _ => some (Bytes.const 0)

/-- The header of the large disk. -/
abbrev farHeader : Bytes := headerAt (2 ^ 55) 0xfc5fb20f 0xc2a8fa9d

theorem farDisk_isSome (lba : ℕ) : (farDisk lba).isSome := by
  unfold farDisk
  split <;> rfl

theorem farDisk_of_lt {lba : ℕ} (h : 1 < lba) : farDisk lba = some (Bytes.const 0) := by
  obtain ⟨k, rfl⟩ := Nat.exists_eq_add_of_lt h
  rw [show 1 + k + 1 = k + 2 by omega]
  rfl

theorem farHeader_fields : readHeader farHeader =
    ⟨0x00010000, 92, 0xfc5fb20f, 1, 2 ^ 55, 1, 128, 0xc2a8fa9d⟩ := by
  unfold readHeader
  congr 1

/-- The table is all zero. -/
theorem farDisk_table {i : ℕ} (hi : i < 512) : diskFrom farDisk (2 ^ 55) i = 0 := by
  have h : diskFrom farDisk (2 ^ 55) (0 * secSize + i) = 0 :=
    diskFrom_sector (farDisk_of_lt (by norm_num)) hi
  rwa [Nat.zero_mul, Nat.zero_add] at h

theorem farDisk_valid (hn : 2 ^ 55 < n) : GptValid farDisk n farHeader where
  signed := ⟨rfl, by decide +kernel⟩
  rev := by rw [farHeader_fields]
  size := by rw [farHeader_fields]; decide
  myLba := by rw [farHeader_fields]
  num := by rw [farHeader_fields]; decide
  esize := by rw [farHeader_fields]; decide
  crc := by decide +kernel
  entries := by rw [farHeader_fields]; norm_num
  inside := by
    have hsecs : entriesSecs (readHeader farHeader) = 1 := by rw [farHeader_fields]; rfl
    rw [hsecs, farHeader_fields]
    exact hn
  readable _ _ := farDisk_isSome _
  entriesCrc := by
    rw [farHeader_fields]
    have hzero : crc32 (Bytes.const 0) 128 = 0xc2a8fa9d := by decide +kernel
    have hsame : crc32Update 0xffffffff (diskFrom farDisk (2 ^ 55)) 128 0 =
        crc32Update 0xffffffff (Bytes.const 0) 128 0 := crc32Update_congr fun i hi => by
      rw [Nat.zero_add]
      exact farDisk_table (by omega)
    dsimp only
    rw [← hzero, crc32, crc32, Nat.one_mul, hsame]

/-- The table holds no partition. -/
theorem farDisk_parts (n : ℕ) : gptParts farDisk (readHeader farHeader) n = [] := by
  have hzero : gptEntry n ((diskFrom farDisk (2 ^ 55)).shift 0) = none := by
    rw [gptEntry_congr n _ (Bytes.const 0) fun i hi => ?_]
    · unfold gptEntry
      rw [if_neg fun hc => absurd hc.1 (by decide)]
    · rw [Bytes.shift, Nat.zero_add, farDisk_table (by omega)]
      rfl
  rw [farHeader_fields, gptParts, gptEntries]
  dsimp only
  rw [List.range'_one, List.filterMap_cons, Nat.zero_mul, hzero]
  rfl

/-- Its entry is decoded from the sector 0. -/
theorem farDisk_decoded (hn : 2 ^ 55 < n) (hn64 : n < 2 ^ 64) (st : Unit) :
    (gptLoop (diskOps farDisk) (readHeader farHeader) (readHeader farHeader).num 0 ⟨n, []⟩ st).1.parts ≠ [] := by
  have hoff : (2 ^ 55 * secSize + 0 * 128) % 2 ^ 64 = 0 := by norm_num
  have hentry : gptEntry n entrySector =
      some ⟨0xee, 1, 1, true, (List.range 16).map entrySector⟩ := by
    have hfirst : Bytes.load 8 entrySector 32 = 1 := by decide
    have hlast : Bytes.load 8 entrySector 40 = 1 := by decide
    unfold gptEntry
    rw [hfirst, hlast, if_pos ⟨by decide, by norm_num, le_rfl, by omega⟩]
  obtain ⟨e, he, hbytes⟩ := partReadRange_eq (steady_diskOps farDisk) st 0 (by norm_num : 0 < 128)
    (by norm_num) (by norm_num) fun o _ => farDisk_isSome _
  have hsame : gptEntry n e = gptEntry n entrySector := gptEntry_congr _ _ _ fun i hi => by
    have hdiv : (0 + i) / secSize = 0 := Nat.div_eq_of_lt (by unfold secSize; omega)
    have hmod : (0 + i) % secSize = i := (Nat.mod_eq_of_lt (by unfold secSize; omega)).trans (Nat.zero_add i)
    rw [hbytes i (by omega), diskByte_of_read (by rw [hdiv]; rfl), hmod]
  rw [farHeader_fields]
  dsimp only
  have he' : (partReadRange (diskOps farDisk) ((2 ^ 55 * secSize + 0 * 128) % 2 ^ 64) 128 st).1 = some e := by
    rw [hoff]
    exact he
  obtain ⟨st', hstep⟩ := gptLoop_succ (h := ⟨0x00010000, 92, 0xfc5fb20f, 1, 2 ^ 55, 1, 128, 0xc2a8fa9d⟩)
    0 (by exact hn64 : (⟨n, []⟩ : Disk).diskSectors < 2 ^ 64) (Nat.succ_pos 15) he'
  rw [hstep, hsame, hentry]
  simp [gptLoop]

/-- **No disk of more than `2 ^ 55` sectors** is safe. -/
theorem farDisk_inexact (hn : 2 ^ 55 < n) (hn64 : n < 2 ^ 64) : ¬ GptExact (diskOps farDisk) farDisk entrySector n := by
  intro h
  have hv := farDisk_valid hn
  have hd := steady_diskOps farDisk
  have hone : ∀ hdr, Signed farDisk hdr → hdr = farHeader := fun hdr hs => hv.signed.inj hs
  have hparts := (h.valid () farHeader hv).2.trans (farDisk_parts n)
  have hcount : ∀ hdr, HeaderOk farDisk hdr → (readHeader hdr).entriesLba < n →
      (readHeader hdr).entriesLba + entriesSecs (readHeader hdr) < 2 ^ 64 := fun hdr hok _ => by
    have hsecs := hok.entriesSecs_le
    rw [hone hdr hok.signed, farHeader_fields] at hsecs ⊢
    dsimp only
    omega
  rcases partScanGpt_cases hd entrySector hcount () with
    ⟨hno, -, -⟩ | ⟨hno, -, -⟩ | ⟨hdr, st, h', -, hloop⟩
  · exact hno _ hv.signed
  · exact hno _ hv
  · rw [hloop, hone hdr h'.signed] at hparts
    exact farDisk_decoded hn hn64 st hparts

/-- **GPT decoding is exact and all-or-nothing** on every content whose table is
counted without passing `2 ^ 64`, and on every content of a disk of `n` sectors
exactly if their bytes can be counted in 64 bits. -/
theorem gpt_exact_iff (n : ℕ) (hn : n < 2 ^ 64) :
    (∀ (σ : Type) (ops : BlockOps σ) (disk : ℕ → Option Bytes) (mbr : Bytes), Steady ops disk →
        Counted disk n → GptExact ops disk mbr n) ∧
      ((∀ (σ : Type) (ops : BlockOps σ) (disk : ℕ → Option Bytes) (mbr : Bytes), Steady ops disk →
        GptExact ops disk mbr n) ↔ n ≤ 2 ^ 55) := by
  have hexact : ∀ (σ : Type) (ops : BlockOps σ) (disk : ℕ → Option Bytes) (mbr : Bytes),
      Steady ops disk → Counted disk n → GptExact ops disk mbr n :=
    fun _ _ _ mbr hd hc => gptExact_of_counted hd hn hc mbr
  refine ⟨hexact, fun h => ?_, fun h σ ops disk mbr hd => hexact σ ops disk mbr hd (counted_of_le h)⟩
  by_contra hlt
  exact farDisk_inexact (not_le.mp hlt) hn (h Unit _ farDisk entrySector (steady_diskOps farDisk))

/-- **A disk of `2 ^ 55 + 1` sectors** whose table is its last. -/
theorem gpt_inexact_far : ¬ GptExact (diskOps farDisk) farDisk entrySector (2 ^ 55 + 1) :=
  farDisk_inexact (by norm_num) (by norm_num)

/-- A disk of 100 sectors. -/
theorem gpt_exact_small : GptExact (diskOps oneEntryDisk) oneEntryDisk entrySector 100 ∧
    (partScanGpt (diskOps oneEntryDisk) entrySector ⟨100, []⟩ ()).2.1.parts.map Entry.start = [1] :=
  ⟨(gpt_exact_iff 100 (by norm_num)).2.mpr (by norm_num) Unit _ oneEntryDisk entrySector
    (steady_diskOps oneEntryDisk), by decide +kernel⟩

end Part

end Csos

import Csos.Fat32.Append
import Csos.Fat32.Mount
/-!
# FAT32 — file sizes

Positions have 64 bits and a size has 32. A write that ends at or after
`2 ^ 32` is neither refused nor shortened: its bytes go to the chain, and the
size that is recorded is what is left of the end position.
-/

namespace Csos

namespace Fat32

variable {g : Geo} {v v' : Vol} {c k n : ℕ} {l dl : List ℕ} {buf : List UInt8} {f f' : Handle}

/-! ## What a write records -/

/-- The entry of the file of a handle: slot `k` of a directory with the
clusters `dl`, none of which is of the file. -/
structure Recorded (g : Geo) (v : Vol) (l dl : List ℕ) (k : ℕ) (f : Handle) : Prop where
  dir : IsChain g v f.ff.dirClus dl
  has : HasSlot g dl k
  small : k < 2 ^ 27
  off : f.ff.dirOff = k * 32
  apart : ∀ c ∈ dl, c ∉ l

/-- The size in the entry. -/
def recordedSize (g : Geo) (v : Vol) (dl : List ℕ) (k : ℕ) : ℕ := Bytes.load 4 (dirSlot g v dl k) 28

theorem load_cut (h : n + k ≤ 32) (e : Bytes) : Bytes.load n (cut e) k = Bytes.load n e k :=
  Bytes.load_congr fun i hi => cut_apply (by omega)

theorem setEntry_size {size : ℕ} (clus : ℕ) (h : size < 2 ^ 32) (e : Bytes) :
    Bytes.load 4 (setEntry clus size e) 28 = size := by
  rw [setEntry, Bytes.load_store_self_of_lt (by omega)]

/-- What a write touches keeps the directory apart from the file. -/
theorem Wrote.dir_chain (hg : g.Wf) {s s' d off : ℕ} {l' : List ℕ} {q : List UInt8}
    (hw : Wrote g s l off q v s' l' v') (hd : IsChain g v d dl) (hapart : ∀ c ∈ dl, c ∉ l) :
    IsChain g v' d dl ∧ ∀ c ∈ dl, c ∉ l' := by
  have hnew : ∀ c ∈ dl, c ∉ l' := fun c hc hm =>
    hd.fat_ne_zero hc (hw.fresh c hm (hapart c hc))
  exact ⟨hd.touches hg hw.touches hnew, hnew⟩

/-- **A write that succeeds** leaves the size in the handle and in the entry,
reduced to 32 bits where it is new. -/
theorem write_size (hg : g.Wf) (hq : Quiet v) (hf : OnFile g v l f) (hrec : Recorded g v l dl k f)
    (hs : f.ff.size < 2 ^ 32) (h0 : 0 ≤ (write g f buf v).1) :
    ∃ size, (write g f buf v).1 = ((buf.take (2 ^ 32 - 1)).length : ℤ) ∧
      (write g f buf v).2.1.size = size ∧ (write g f buf v).2.1.ff.size = size ∧
      recordedSize g (write g f buf v).2.2 dl k = size ∧
      size = if f.ff.size < f.pos + (buf.take (2 ^ 32 - 1)).length
        then (f.pos + (buf.take (2 ^ 32 - 1)).length) % 2 ^ 32 else f.ff.size := by
  obtain ⟨rc, ch', l', v₁, q, -, hw, hend, hfail, hok⟩ := write_quiet hg hq hf buf
  by_cases hrc : rc = fatOk
  case neg =>
    -- a write that fails returns a negative number
    rw [hfail hrc] at h0
    rcases hend with ⟨h, -⟩ | ⟨h, -⟩
    · exact absurd h hrc
    · rw [h] at h0
      exact absurd h0 (show ¬ (0 ≤ errNospc) by decide)
  obtain ⟨hdir, -⟩ := hw.dir_chain hg hrec.dir hrec.apart
  rw [hok hrc]
  dsimp only
  set size := if f.ff.size < f.pos + (buf.take (2 ^ 32 - 1)).length
    then (f.pos + (buf.take (2 ^ 32 - 1)).length) % 2 ^ 32 else f.ff.size with hsize
  have hlt : size < 2 ^ 32 := by
    rw [hsize]
    split
    · exact Nat.mod_lt _ (by norm_num)
    · exact hs
  refine ⟨size, rfl, rfl, rfl, ?_, rfl⟩
  obtain ⟨v', hr, -, he⟩ :=
    updateEntry_quiet hg (hw.touches.quiet hq) hdir hrec.has hrec.small ch'.start size
  rw [hrec.off, hr, recordedSize, he, load_cut (by omega), setEntry_size _ hlt]

/-- **The size is exact** if and only if the write ends before `2 ^ 32`. -/
theorem write_size_exact_iff (hg : g.Wf) (hq : Quiet v) (hf : OnFile g v l f)
    (hrec : Recorded g v l dl k f) (hs : f.ff.size < 2 ^ 32) (h0 : 0 ≤ (write g f buf v).1) :
    (((write g f buf v).2.1.size : ℤ) = max (f.ff.size : ℤ) (f.pos + (write g f buf v).1) ∧
      ((write g f buf v).2.1.ff.size : ℤ) = max (f.ff.size : ℤ) (f.pos + (write g f buf v).1) ∧
      (recordedSize g (write g f buf v).2.2 dl k : ℤ) =
        max (f.ff.size : ℤ) (f.pos + (write g f buf v).1)) ↔
      f.pos + min buf.length (2 ^ 32 - 1) < 2 ^ 32 := by
  obtain ⟨size, hn, h1, h2, h3, hsize⟩ := write_size hg hq hf hrec hs h0
  rw [h1, h2, h3, hn]
  rw [List.length_take, min_comm] at *
  have hexact : (size : ℤ) = max (f.ff.size : ℤ) (f.pos + (min buf.length (2 ^ 32 - 1) : ℕ)) ↔
      f.pos + min buf.length (2 ^ 32 - 1) < 2 ^ 32 := by
    rw [hsize]
    split <;> omega
  rw [hexact, and_self, and_self]

/-! ## A file of 4 GiB -/

/-- A volume of 65540 clusters of 64 KiB. -/
def Boot.wide : Geo := geoOf (Bytes.store 1 (Boot.of 32 513 8389665 0) 13 128) 0 true

/-- Its FAT: the root has one cluster, and a file has 65536. -/
def wideLink (c : ℕ) : ℕ :=
  if c = 2 ∨ c = 65538 then eoc else if 3 ≤ c ∧ c < 65538 then c + 1 else 0

/-- The file is one byte short of 4 GiB. -/
def Boot.filled : Vol :=
  ⟨2, 0, false, fun lba =>
    if lba = 545 then makeSlot (rawName [0x41] []) attrArch 0 3 (2 ^ 32 - 1)
    else if 32 ≤ lba ∧ lba < 545 then fun i =>
      Bytes.store 4 (Bytes.const 0) (i / 4 * 4) (wideLink ((lba - 32) * 128 + i / 4)) i
    else Bytes.const 0, [], false, fun _ => 0⟩

/-- A handle of the file that has last read the last cluster. -/
def handleAt (pos : ℕ) : Handle :=
  ⟨pos, 2 ^ 32 - 1, false, ⟨⟨3, 65538, 65535, true⟩, 2 ^ 32 - 1, 2, 0, false⟩⟩

/-- Its shape. -/
theorem shape_wide : Boot.wide.Wf ∧ Boot.wide.clusterCount = 65540 ∧ Boot.wide.clusBytes = 65536 ∧
    Boot.wide.fatStartLba = 32 ∧ fatCopy Boot.wide = 0 := by
  decide +kernel

theorem wf_wide : Boot.wide.Wf := shape_wide.1

theorem valid_wide (h2 : 2 ≤ c) (hle : c ≤ 65538) : clusValid Boot.wide c = true := by
  obtain ⟨hg, hcount, -⟩ := shape_wide
  exact hg.valid_iff.mpr ⟨h2, by omega⟩

theorem eoc_wide : ¬ clusValid Boot.wide eoc = true := by
  obtain ⟨hg, hcount, -⟩ := shape_wide
  rw [hg.valid_iff, hcount]
  decide

theorem fat_filled (hc : clusValid Boot.wide c = true) : fat Boot.wide Boot.filled c = wideLink c := by
  obtain ⟨-, hcount, -, hstart, hcopy⟩ := shape_wide
  have hbase : Boot.wide.baseLba = 0 := rfl
  obtain ⟨h2, hle⟩ := wf_wide.valid_iff.mp hc
  have heoc : eoc < 2 ^ 28 := by decide
  have hlink : wideLink c < 2 ^ 28 := by
    rw [wideLink]
    split_ifs <;> omega
  have hlba := (wf_wide.fatLba_eq wf_wide.fatCopy_lt hc).1
  have hload : Bytes.load 4 (Boot.filled.sec Boot.wide (fatLba Boot.wide (fatCopy Boot.wide) c))
      (c * 4 % 512) = Bytes.load 4 (Bytes.store 4 (Bytes.const 0) (c * 4 % 512) (wideLink c))
        (c * 4 % 512) := by
    refine Bytes.load_congr fun i hi => ?_
    rw [hlba, hcopy, hstart, Vol.sec, hbase, Boot.filled]
    dsimp only
    rw [if_neg (by omega), if_pos (by omega)]
    congr 2 <;> omega
  rw [fat, fatEnt, wf_wide.fatOff_eq hc, hload, Bytes.load_store_self_of_lt (by omega),
    Nat.mod_eq_of_lt hlink]

/-- The chain of the file. -/
theorem linked_filled : ∀ n a : ℕ, 3 ≤ a → a + n = 65539 → 0 < n →
    Linked (nextClus Boot.wide Boot.filled) (some a) (List.range' a n) := by
  intro n
  induction n with
  | zero =>
    intro a _ _ h
    exact absurd h (by omega)
  | succ n ih =>
    intro a ha hn _
    refine ⟨rfl, ?_⟩
    rw [nextClus, fat_filled (valid_wide (by omega) (by omega))]
    rcases Nat.eq_zero_or_pos n with rfl | hpos
    · -- the last cluster carries the mark
      obtain rfl : a = 65538 := by omega
      rw [if_neg (show ¬ clusValid Boot.wide (wideLink 65538) = true from eoc_wide)]
      rfl
    · have hlink : wideLink a = a + 1 := by
        rw [wideLink, if_neg (by omega), if_pos (by omega)]
      rw [hlink, if_pos (valid_wide (by omega) (by omega))]
      exact ih (a + 1) (by omega) (by omega) hpos

theorem onFile_handleAt (pos : ℕ) :
    OnFile Boot.wide Boot.filled (List.range' 3 65536) (handleAt pos) where
  file := rfl
  chain := by
    refine ⟨linked_filled 65536 3 le_rfl rfl (by norm_num), fun x hx => ?_, fun h => ?_⟩
    · rw [List.getLast?_range'] at hx
      obtain rfl : x = 65538 := by simpa using hx.symm
      rw [fat_filled (valid_wide (by norm_num) le_rfl)]
      decide
    · exact absurd (congrArg List.length h) (by rw [List.length_range']; decide)
  cursor := ⟨show firstClus Boot.wide 3 = some 3 from if_pos (valid_wide (by norm_num) (by norm_num)), fun _ => by
    show (List.range' 3 65536)[65535]? = some 65538
    rw [List.getElem?_range' (by norm_num)]⟩
  size := by
    rw [List.length_range', shape_wide.2.2.1]
    show 2 ^ 32 - 1 ≤ 65536 * 65536
    norm_num

theorem recorded_handleAt (pos : ℕ) :
    Recorded Boot.wide Boot.filled (List.range' 3 65536) [2] 0 (handleAt pos) where
  dir := ⟨⟨if_pos (valid_wide le_rfl (by norm_num)), by
    rw [seg_nil, nextClus, fat_filled (valid_wide le_rfl (by norm_num))]
    exact if_neg eoc_wide⟩, by
    intro x hx
    obtain rfl : x = 2 := by simpa using hx.symm
    rw [fat_filled (valid_wide le_rfl (by norm_num))]
    decide, by simp⟩
  has := show 0 * 32 / Boot.wide.clusBytes < 1 by rw [shape_wide.2.2.1]; norm_num
  small := by norm_num
  off := rfl
  apart := by simp

/-- **The file shrinks to nothing.** One more byte is written after the last
one; the size becomes 0. -/
theorem write_wraps_size : Boot.wide.Wf ∧ Quiet Boot.filled ∧
    OnFile Boot.wide Boot.filled (List.range' 3 65536) (handleAt (2 ^ 32 - 1)) ∧
    Recorded Boot.wide Boot.filled (List.range' 3 65536) [2] 0 (handleAt (2 ^ 32 - 1)) ∧
    (write Boot.wide (handleAt (2 ^ 32 - 1)) [0x78] Boot.filled).1 = 1 ∧
    (handleAt (2 ^ 32 - 1)).ff.size = 2 ^ 32 - 1 ∧
    (write Boot.wide (handleAt (2 ^ 32 - 1)) [0x78] Boot.filled).2.1.size = 0 ∧
    recordedSize Boot.wide (write Boot.wide (handleAt (2 ^ 32 - 1)) [0x78] Boot.filled).2.2 [2] 0 = 0 :=
  ⟨wf_wide, rfl, onFile_handleAt _, recorded_handleAt _, by decide +kernel, rfl, by decide +kernel,
    by decide +kernel⟩

/-- The last byte of the same file is written over, and the size stays. -/
theorem write_size_exact_last : recordedSize Boot.wide
    (write Boot.wide (handleAt (2 ^ 32 - 2)) [0x78] Boot.filled).2.2 [2] 0 = 2 ^ 32 - 1 := by
  have h0 : (write Boot.wide (handleAt (2 ^ 32 - 2)) [0x78] Boot.filled).1 = 1 := by decide +kernel
  have hs : (handleAt (2 ^ 32 - 2)).ff.size < 2 ^ 32 := by decide
  have hq : Quiet Boot.filled := rfl
  have h := (write_size_exact_iff wf_wide hq (onFile_handleAt _) (recorded_handleAt _) hs
    (by rw [h0]; decide)).mpr (by decide)
  have h3 := h.2.2
  rw [h0] at h3
  have hpos : (handleAt (2 ^ 32 - 2)).pos = 2 ^ 32 - 2 := rfl
  have hsize : (handleAt (2 ^ 32 - 2)).ff.size = 2 ^ 32 - 1 := rfl
  rw [hpos, hsize] at h3
  omega

end Fat32

end Csos

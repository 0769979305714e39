import Csos.Boot.Condition
/-!
# The kernel's loader — headers that are read as they are

If the program headers are in the file and 56 bytes apart, the loop sees them
as they are, and what is left of the condition concerns the segments: those of
the file must be in it, and agree where they overlap. Those of a file that is
well formed do.
-/

namespace Csos

namespace Boot

open Layers Firmware

variable {file : List UInt8} {fw : Firmware file} {out : Out} {k : ℕ}

/-! ## The headers -/

/-- The headers are in the file, the program headers 56 bytes apart. -/
structure Tabled (file : List UInt8) : Prop where
  size : file.length < 2 ^ 64
  header : 64 ≤ file.length
  stride : (fileEhdr file).phentsize = 56
  phdr : ∀ k < (fileEhdr file).phnum, phdrAt file k + 56 ≤ file.length

/-- The segments to be loaded are in the file. -/
def SegmentsIn (file : List UInt8) : Prop :=
  ∀ k < (fileEhdr file).phnum, (filePhdr file k).type = ptLoad →
    ∀ i < (filePhdr file k).filesz, (filePhdr file k).offset + i < file.length

/-- No address is described in two ways. -/
def Agree (file : List UInt8) : Prop :=
  ∀ j < (fileEhdr file).phnum, ∀ k < (fileEhdr file).phnum, ∀ a b c,
    Describes file j a b → Describes file k a c → b = c

theorem Ehdr.ofBytes_congr {b b' : Bytes} (h : ∀ i < 64, b i = b' i) : Ehdr.ofBytes b = Ehdr.ofBytes b' := by
  have hload : ∀ n at_, at_ + n ≤ 64 → Bytes.load n b at_ = Bytes.load n b' at_ :=
    fun n at_ hle => Bytes.load_congr fun i hi => h (at_ + i) (by omega)
  have hident : (List.range 5).map b = (List.range 5).map b' :=
    List.map_congr_left fun i hi => h i (by have := List.mem_range.mp hi; omega)
  unfold Ehdr.ofBytes
  rw [hident, hload 2 18 (by omega), hload 8 24 (by omega), hload 8 32 (by omega),
    hload 2 54 (by omega), hload 2 56 (by omega)]

theorem Phdr.ofBytes_congr {b b' : Bytes} {p p' : ℕ} (h : ∀ i < 56, b (p + i) = b' (p' + i)) :
    Phdr.ofBytes b p = Phdr.ofBytes b' p' := by
  have hload : ∀ n d, d + n ≤ 56 → Bytes.load n b (p + d) = Bytes.load n b' (p' + d) := by
    intro n d hle
    refine Bytes.load_congr fun i hi => ?_
    rw [Nat.add_assoc, Nat.add_assoc]
    exact h (d + i) (by omega)
  unfold Phdr.ofBytes
  rw [show Bytes.load 4 b p = Bytes.load 4 b' p' from hload 4 0 (by omega), hload 8 8 (by omega),
    hload 8 24 (by omega), hload 8 32 (by omega), hload 8 40 (by omega)]

theorem received_apply {pos count i : ℕ} {buffer : Bytes} (h : i < count) :
    received file pos count buffer i = content file (pos + i) :=
  Bytes.blit_zero_apply h

/-- A whole header is that of the file. -/
theorem ehdr_eq (h64 : 64 ≤ file.length) (hh : ¬ efiError fw.header.status) : fw.ehdr = fileEhdr file := by
  have hcount : fw.header.count = 64 := by
    have hfull : fw.header.count = min 64 (file.length - 0) := fw.read_full 0 0 64 hh
    omega
  refine Ehdr.ofBytes_congr fun i hi => ?_
  rw [received_apply (by omega), Nat.zero_add]

theorem tableSize_of_stride {e : Ehdr} (h : e.phentsize = 56) (hn : e.phnum < 2 ^ 16) :
    tableSize e = e.phnum * 56 := by
  unfold tableSize
  rw [h]
  exact if_pos (by omega)

theorem fileEhdr_phnum_lt (file : List UInt8) : (fileEhdr file).phnum < 2 ^ 16 :=
  Bytes.load_lt 2 (content file) 56

theorem Tabled.phdrAt_eq (h : Tabled file) (k : ℕ) :
    phdrAt file k = (fileEhdr file).phoff + 56 * k := by
  unfold phdrAt
  rw [h.stride, Nat.mul_comm]

theorem position_of_lt {p : ℕ} (h : p < 2 ^ 64 - 1) : position file p = p := if_neg (by omega)

/-- The table is read in full, so each program header is that of the file. -/
theorem Tabled.phdr_eq (h : Tabled file) (ha : Accepted fw) (hk : k < (fileEhdr file).phnum) :
    fw.phdr k = filePhdr file k := by
  have he : fw.ehdr = fileEhdr file := ehdr_eq h.header ha.header
  have hend := h.phdr k hk
  have hlast := h.phdr ((fileEhdr file).phnum - 1) (by omega)
  have hsize := h.size
  rw [h.phdrAt_eq] at hend hlast
  have hpos : position file fw.ehdr.phoff = (fileEhdr file).phoff := by
    rw [he]
    exact position_of_lt (by omega)
  have hcount : fw.table.count = min ((fileEhdr file).phnum * 56)
      (file.length - (fileEhdr file).phoff) := by
    have hfull : fw.table.count = min (tableSize fw.ehdr) (file.length - position file fw.ehdr.phoff) :=
      fw.read_full 1 _ _ ha.table
    rw [hfull, hpos, he, tableSize_of_stride h.stride (fileEhdr_phnum_lt file)]
  refine Phdr.ofBytes_congr fun i hi => ?_
  rw [received_apply (by omega), hpos, h.phdrAt_eq, Nat.add_assoc]

variable {i j a : ℕ} {b : UInt8}

theorem data_count_le (fw : Firmware file) (i : ℕ) : (fw.data i).count ≤ (fw.phdr i).filesz :=
  (fw.read_le (i + 2) _ _).trans (min_le_left _ _)

/-- A segment whose bytes are in the file is read in full, from where they are. -/
theorem Tabled.data_eq (h : Tabled file) (ha : Accepted fw) (hin : SegmentsIn file)
    (hk : k < (fileEhdr file).phnum) (hp : (filePhdr file k).type = ptLoad) (hpass : fw.Passes k) :
    (fw.data k).count = (filePhdr file k).filesz ∧ (0 < (filePhdr file k).filesz →
      position file (filePhdr file k).offset = (filePhdr file k).offset) := by
  have hsize := h.size
  have heq := h.phdr_eq ha hk
  have hcount : (fw.data k).count = min (fw.phdr k).filesz (file.length - position file (fw.phdr k).offset) :=
    fw.read_full (k + 2) _ _ (hpass (by rw [heq]; exact hp)).2
  rw [heq] at hcount
  rcases Nat.eq_zero_or_pos (filePhdr file k).filesz with hz | hpos
  · exact ⟨by omega, fun h0 => by omega⟩
  · have hlast := hin k hk hp ((filePhdr file k).filesz - 1) (by omega)
    have hoff : position file (filePhdr file k).offset = (filePhdr file k).offset :=
      position_of_lt (by have := hin k hk hp 0 hpos; omega)
    rw [hoff] at hcount
    exact ⟨by omega, fun _ => hoff⟩

/-- What a turn lays is what its header in the file describes. -/
theorem Tabled.layer_eq_some_iff (h : Tabled file) (ha : Accepted fw) (hin : SegmentsIn file)
    (hk : k < (fileEhdr file).phnum) (hpass : fw.Passes k) :
    fw.layer k a = some b ↔ Describes file k a b := by
  have heq := h.phdr_eq ha hk
  by_cases hp : (filePhdr file k).type = ptLoad
  · obtain ⟨hcount, hpos⟩ := h.data_eq ha hin hk hp hpass
    rw [layer_of_load (by rw [heq]; exact hp), heq, hcount]
    dsimp only
    unfold patch
    constructor
    · intro hb
      split_ifs at hb with h1 h2 h2
      · rw [Option.some_or, hpos (by omega)] at hb
        exact ⟨hp, a - (filePhdr file k).paddr, by omega, .inl ⟨by omega, (Option.some.inj hb).symm⟩⟩
      · rw [Option.some_or, hpos (by omega)] at hb
        exact ⟨hp, a - (filePhdr file k).paddr, by omega, .inl ⟨by omega, (Option.some.inj hb).symm⟩⟩
      · exact ⟨hp, a - (filePhdr file k).paddr, by omega,
          .inr ⟨by omega, by omega, (Option.some.inj hb).symm⟩⟩
      · exact absurd hb.symm (Option.some_ne_none b)
    · rintro ⟨-, i, rfl, ⟨hi, rfl⟩ | ⟨hge, hlt, rfl⟩⟩
      · rw [if_pos (by omega), Option.some_or, Nat.add_sub_cancel_left, hpos (by omega)]
        rfl
      · rw [if_neg (by omega), if_pos (by omega)]
        rfl
  · rw [layer_of_ne (by rw [heq]; exact hp)]
    exact iff_of_false (Option.some_ne_none b).symm fun hd => hp hd.1

/-- **Headers that are read as they are.** The loop is then sound if every
segment that is read stays in the pages and, if no call fails, the segments are
in the file and agree. -/
theorem Tabled.sound_iff (h : Tabled file) (ha : Accepted fw) :
    Sound fw ↔ FitsFrom fw 0 fw.ehdr.phnum ∧
      (PassesFrom fw 0 fw.ehdr.phnum → SegmentsIn file ∧ Agree file) := by
  have he : fw.ehdr = fileEhdr file := ehdr_eq h.header ha.header
  constructor
  · intro hs
    refine ⟨hs.fits, fun hp => ⟨(hs.complete hp).segment, fun j hj k hk a b c hb hc => ?_⟩⟩
    exact top_unique (hs.top hp j hj a b hb) (hs.top hp k hk a c hc)
  · rintro ⟨hf, himage⟩
    refine ⟨hf, fun hp => ⟨h.header, h.phdr, (himage hp).1⟩, fun hp k hk a b hd => ?_⟩
    obtain ⟨hin, hagree⟩ := himage hp
    have hlayer : ∀ j < (fileEhdr file).phnum, ∀ c, fw.layer j a = some c ↔ Describes file j a c :=
      fun j hj c => h.layer_eq_some_iff ha hin hj (hp j (Nat.zero_le j) (by rw [he]; omega))
    rcases top_or_none fw.layer 0 fw.ehdr.phnum a with ⟨c, htop⟩ | hnone
    · -- the byte on top is described too, so it is this one
      have hfrom := htop
      obtain ⟨j, -, hj, hjc, -⟩ := hfrom
      have hdc : Describes file j a c := (hlayer j (by rw [← he]; omega) c).mp hjc
      rwa [hagree k hk j (by rw [← he]; omega) a b c hd hdc]
    · have hb := (hlayer k hk b).mpr hd
      rw [hnone k (Nat.zero_le k) (by rw [he]; omega)] at hb
      exact absurd hb.symm (Option.some_ne_none b)

/-! ## Files that are well formed -/

/-- **A file that is well formed**: its headers can be read as they are, and
the segments to be loaded are in it and have no more bytes there than in
memory. -/
structure WellFormed (file : List UInt8) : Prop extends Tabled file where
  segment : SegmentsIn file
  within : ∀ k < (fileEhdr file).phnum, (filePhdr file k).type = ptLoad →
    (filePhdr file k).filesz ≤ (filePhdr file k).memsz

theorem pages_mem_granted (hij : i < j) (hp : (fw.phdr i).type = ptLoad) :
    fw.pages i ∈ fw.granted j := by
  induction j, hij using Nat.le_induction with
  | base =>
    rw [granted_succ hp]
    exact List.mem_cons_self
  | succ j _ ih =>
    by_cases hj : (fw.phdr j).type = ptLoad
    · rw [granted_succ hj]
      exact List.mem_cons_of_mem _ ih
    · rwa [granted_succ_of_ne hj]

/-- No address is in the pages of two segments. -/
theorem eq_of_covers (hpi : (fw.phdr i).type = ptLoad) (hpj : (fw.phdr j).type = ptLoad)
    (hi : fw.Placed i) (hj : fw.Placed j) (ha : (fw.pages i).Covers a) (hb : (fw.pages j).Covers a) :
    i = j := by
  rcases Nat.lt_trichotomy i j with hlt | rfl | hlt
  · exact absurd hb (fw.pages_fresh _ _ hj.pages _ (pages_mem_granted hlt hpi) a ha)
  · rfl
  · exact absurd ha (fw.pages_fresh _ _ hi.pages _ (pages_mem_granted hlt hpj) a hb)

/-- What a header describes is in its pages. -/
theorem WellFormed.covers (h : WellFormed file) (ha : Accepted fw) (hk : k < (fileEhdr file).phnum)
    (hd : Describes file k a b) : (fw.pages k).Covers a := by
  have hle := le_efiSizeToPages (filePhdr file k).memsz
  have hw := h.within k hk hd.1
  obtain ⟨-, i, rfl, hb⟩ := hd
  unfold pages Grant.Covers
  rw [h.phdr_eq ha hk]
  dsimp only
  omega

/-- A header describes an address in one way. -/
theorem describes_unique {c : UInt8} (hb : Describes file k a b) (hc : Describes file k a c) : b = c := by
  obtain ⟨-, i, rfl, hb⟩ := hb
  obtain ⟨-, i', he, hc⟩ := hc
  obtain rfl : i = i' := by omega
  rcases hb with ⟨hi, rfl⟩ | ⟨hi, -, rfl⟩ <;> rcases hc with ⟨hi', rfl⟩ | ⟨hi', -, rfl⟩
  · rfl
  · omega
  · omega
  · rfl

/-- Where the pages of the segments have been granted, the segments agree. -/
theorem WellFormed.agree (h : WellFormed file) (ha : Accepted fw)
    (hp : PassesFrom fw 0 (fileEhdr file).phnum) : Agree file := by
  intro j hj k hk a b c hb hc
  have hpj : (fw.phdr j).type = ptLoad := by
    rw [h.phdr_eq ha hj]
    exact hb.1
  have hpk : (fw.phdr k).type = ptLoad := by
    rw [h.phdr_eq ha hk]
    exact hc.1
  obtain rfl : j = k := eq_of_covers hpj hpk (hp j (Nat.zero_le j) (by omega) hpj).1
    (hp k (Nat.zero_le k) (by omega) hpk).1 (h.covers ha hj hb) (h.covers ha hk hc)
  exact describes_unique hb hc

/-- **A file that is well formed is loaded exactly or not at all**, by every
firmware and over every memory. -/
theorem loadElf64_of_wellFormed (h : WellFormed file) (fw : Firmware file) (out : Out) :
    LoadsExactly file (loadElf64 fw out) := by
  refine loadElf64_of_sound fun ha => (h.sound_iff ha).mpr ?_
  rw [ehdr_eq h.header ha.header]
  refine ⟨fun k _ hk _ hp _ => ?_, fun hpass => ⟨h.segment, h.agree ha hpass⟩⟩
  -- the bytes of the file are no more than those of the memory
  rw [granted_succ hp]
  intro i hi
  have hcount := data_count_le fw k
  have heq := h.phdr_eq ha (by omega : k < (fileEhdr file).phnum)
  rw [heq] at hcount hp
  have hw := h.within k (by omega) hp
  exact inside_memsz _ i (by rw [heq]; omega)

end Boot

end Csos

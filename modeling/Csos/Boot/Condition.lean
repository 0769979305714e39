import Csos.Boot.Loading
/-!
# The kernel's loader — when the image is left

The calls before the loop, and the condition under which the loop leaves the
image of the file: `Sound`. It is about the file, the answers of the firmware
and what was in the buffers, and says which segment each byte comes from.
-/

namespace Csos

namespace Boot

open Layers Firmware

variable {file : List UInt8} {fw : Firmware file} {out : Out}

/-! ## Before the loop -/

/-- The loop over the program headers is reached. -/
structure Accepted (fw : Firmware file) : Prop where
  openFile : ¬ efiError fw.openFile
  header : ¬ efiError fw.header.status
  ident : fw.ehdr.ident = [0x7f, 0x45, 0x4c, 0x46, 2]
  machine : fw.ehdr.machine = emX86_64
  pool : fw.allocatePool (tableSize fw.ehdr) = true
  seek : ¬ efiError (fw.setPosition 0 fw.ehdr.phoff)
  table : ¬ efiError fw.table.status

theorem header_count_le (fw : Firmware file) : fw.header.count ≤ 64 :=
  (fw.read_le 0 0 64).trans (min_le_left _ _)

theorem table_count_le (fw : Firmware file) : fw.table.count ≤ tableSize fw.ehdr :=
  (fw.read_le 1 _ _).trans (min_le_left _ _)

theorem loadElf64_of_accepted (h : Accepted fw) :
    loadElf64 fw out = loadSegments fw fw.ehdr.phnum 0 [] fw.table.status
      { out with entry := fw.ehdr.entry, base := maxAddress } := by
  have hbad : ¬ (efiError fw.header.status ∨ fw.ehdr.ident ≠ [0x7f, 0x45, 0x4c, 0x46, 2] ∨
      fw.ehdr.machine ≠ emX86_64) := by
    rintro (hh | hi | hm)
    · exact h.header hh
    · exact hi h.ident
    · exact hm h.machine
  unfold loadElf64
  dsimp only
  rw [if_neg h.openFile, if_neg (Nat.not_lt.mpr (header_count_le fw)), if_neg hbad,
    if_neg (by rw [h.pool]; exact Bool.true_eq_false_eq_False), if_neg h.seek,
    if_neg (Nat.not_lt.mpr (table_count_le fw)), if_neg h.table]

/-- Before the loop nothing is written but the loader's own buffers, and a run
that does not reach it returns an error. -/
theorem loadElf64_of_not_accepted (h : ¬ Accepted fw) : LoadsExactly file (loadElf64 fw out) := by
  unfold loadElf64
  dsimp only
  split_ifs with ho hc hb hp hs ht htab
  · exact .inl ho
  · exact absurd hc (Nat.not_lt.mpr (header_count_le fw))
  · exact .inl (Nat.le_add_right _ _)
  · exact .inl (Nat.le_add_right _ _)
  · exact .inl hs
  · exact absurd ht (Nat.not_lt.mpr (table_count_le fw))
  · exact .inl htab
  · rw [not_or, not_or, not_not, not_not] at hb
    exact absurd ⟨ho, hb.1, hb.2.1, hb.2.2, Bool.eq_true_of_not_eq_false hp, hs, htab⟩ h

theorem loadElf64_exact_iff_of_accepted (h : Accepted fw) :
    LoadsExactly file (loadElf64 fw out) ↔ FitsFrom fw 0 fw.ehdr.phnum ∧
      (PassesFrom fw 0 fw.ehdr.phnum → Loaded file (pile fw.layer 0 fw.ehdr.phnum out.mem)) := by
  rw [loadElf64_of_accepted h]
  exact loadSegments_exact_iff (i := 0) h.table

/-! ## The condition -/

/-- The file holds what its headers say is in it: the header, each program
header, and the bytes of each segment to be loaded. -/
structure Complete (file : List UInt8) : Prop where
  header : 64 ≤ file.length
  phdr : ∀ k < (fileEhdr file).phnum, phdrAt file k + 56 ≤ file.length
  segment : ∀ k < (fileEhdr file).phnum, (filePhdr file k).type = ptLoad →
    ∀ i < (filePhdr file k).filesz, (filePhdr file k).offset + i < file.length

/-- The `k`th program header of the file says that the byte at `a` is `b`. -/
def Describes (file : List UInt8) (k a : ℕ) (b : UInt8) : Prop :=
  (filePhdr file k).type = ptLoad ∧ ∃ i, a = (filePhdr file k).paddr + i ∧
    (i < (filePhdr file k).filesz ∧ b = content file ((filePhdr file k).offset + i) ∨
      (filePhdr file k).filesz ≤ i ∧ i < (filePhdr file k).memsz ∧ b = 0)

/-- **When the loop leaves the image.** Each segment that is read stays in the
pages granted by then, and if no call fails, the file is complete and every
byte that one of its program headers describes comes from the last segment
that reaches the address, of those that the loop saw. -/
structure Sound (fw : Firmware file) : Prop where
  fits : FitsFrom fw 0 fw.ehdr.phnum
  complete : PassesFrom fw 0 fw.ehdr.phnum → Complete file
  top : PassesFrom fw 0 fw.ehdr.phnum → ∀ k < (fileEhdr file).phnum, ∀ a b, Describes file k a b →
    Top fw.layer 0 fw.ehdr.phnum a b

theorem getElem?_eq_content {i : ℕ} (h : i < file.length) : file[i]? = some (content file i) := by
  unfold content
  rw [List.getD_eq_getElem?_getD, List.getElem?_eq_getElem h, Option.getD_some]

/-- The image is in memory if the file is complete and memory is as the
program headers describe it. -/
theorem loaded_iff {mem : Bytes} : Loaded file mem ↔
    Complete file ∧ ∀ k < (fileEhdr file).phnum, ∀ a b, Describes file k a b → mem a = b := by
  constructor
  · rintro ⟨h64, hall⟩
    have hlt : ∀ k < (fileEhdr file).phnum, (filePhdr file k).type = ptLoad →
        ∀ i < (filePhdr file k).filesz, (filePhdr file k).offset + i < file.length := by
      intro k hk hp i hi
      have hb := ((hall k hk).2 hp).1 i hi
      exact (List.getElem?_eq_some_iff.mp hb).1
    refine ⟨⟨h64, fun k hk => (hall k hk).1, hlt⟩, ?_⟩
    rintro k hk a b ⟨hp, i, rfl, ⟨hi, rfl⟩ | ⟨hge, hlt', rfl⟩⟩
    · have hb := ((hall k hk).2 hp).1 i hi
      rw [getElem?_eq_content (hlt k hk hp i hi)] at hb
      exact (Option.some.inj hb).symm
    · exact ((hall k hk).2 hp).2 i hge hlt'
  · rintro ⟨hc, hall⟩
    refine ⟨hc.header, fun k hk => ⟨hc.phdr k hk, fun hp => ⟨fun i hi => ?_, fun i hge hlt => ?_⟩⟩⟩
    · rw [getElem?_eq_content (hc.segment k hk hp i hi),
        hall k hk _ _ ⟨hp, i, rfl, .inl ⟨hi, rfl⟩⟩]
    · exact hall k hk _ _ ⟨hp, i, rfl, .inr ⟨hge, hlt, rfl⟩⟩

theorem loadElf64_of_sound (h : Accepted fw → Sound fw) : LoadsExactly file (loadElf64 fw out) := by
  by_cases ha : Accepted fw
  · have hs := h ha
    refine (loadElf64_exact_iff_of_accepted ha).mpr ⟨hs.fits, fun hp => loaded_iff.mpr ?_⟩
    exact ⟨hs.complete hp, fun k hk a b hd => pile_of_top (hs.top hp k hk a b hd)⟩
  · exact loadElf64_of_not_accepted ha

end Boot

end Csos

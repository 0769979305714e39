import Csos.Acpi.Entries
/-!
# ACPI tables — walking inside them

The entries of an XSDT or RSDT are read inside it exactly when it has room for
its own header: with a smaller length the number of entries wraps, and the
first one is already outside. `parse_madt_entries` has to find the two
fields after the header as well. No length is tested before
(`acpi_walk_right_iff`). From a machine whose tables have room for their
headers `init_acpi` records the entries of a MADT, or stops
(`initAcpi_right`).
-/

namespace Csos

namespace Acpi

open Checked

variable {mem : Bytes} {data madt : Buf} {sdt w length n i : ℕ} {sum : UInt8} {bad : String}

/-! ## Checksums -/

/-- The bytes of the table add up to 0. -/
def ChecksumOk (t : Buf) : Prop := (slice t.bytes 0 t.len).foldl (· + ·) 0 = 0

instance (t : Buf) : Decidable (ChecksumOk t) := inferInstanceAs (Decidable (_ = _))

theorem checksumLoop_apply (h : i + n ≤ data.len) : checksumLoop data n i sum () =
    .ret ((slice data.bytes i (i + n)).foldl (· + ·) sum, ()) := by
  induction n generalizing i sum with
  | zero =>
    rw [Nat.add_zero, slice_of_le (Nat.le_refl i)]
    rfl
  | succ n ih =>
    have hcons : slice data.bytes i (i + (n + 1)) = data.bytes i :: slice data.bytes (i + 1) (i + 1 + n) := by
      rw [slice_cons (by omega), Nat.add_assoc, Nat.add_comm 1 n]
    rw [checksumLoop, bind_of_ret (Buf.get_apply (by omega) ()), ih (by omega), hcons, List.foldl_cons]

/-- **`acpi_checksum_ok`** reads a table inside. -/
theorem acpiChecksumOk_apply (t : Buf) : acpiChecksumOk t t.len () = .ret (decide (ChecksumOk t), ()) := by
  rw [acpiChecksumOk, bind_of_ret (checksumLoop_apply (by omega)), Nat.zero_add]
  rfl

/-! ## The table of tables -/

/-- Every read is inside the table, and there is an answer. -/
def ReadsInside {α : Type} (x : Checked Unit α) : Prop := ∃ r, x () = .ret (r, ())

/-- Every read is inside, and what is found is a table with the signature of
a MADT and a valid checksum. -/
def Finds (mem : Bytes) (x : Checked Unit (Answer (Option ℕ))) : Prop :=
  ∃ r, x () = .ret (r, ()) ∧
    ∀ madt, r = .ok (some madt) → sdtSig mem madt = sigApic ∧ ChecksumOk (table mem madt)

theorem finds_error (msg : String) : Finds mem (pure (.error msg)) :=
  ⟨.error msg, rfl, fun _ h => by cases h⟩

theorem finds_none : Finds mem (pure (.ok none)) := ⟨.ok none, rfl, fun _ h => by cases h⟩

theorem findLoop_finds {sdt : Buf} (h : sdtSize + w * (i + n) ≤ sdt.len) :
    Finds mem (findLoop mem w sdt n i) := by
  induction n generalizing i with
  | zero => exact finds_none
  | succ n ih =>
    have hnext : sdtSize + w * (i + 1 + n) ≤ sdt.len := by
      rwa [Nat.add_right_comm, Nat.add_assoc]
    have hload : sdtSize + w * i + w ≤ sdt.len := by
      have : w * i + w ≤ w * (i + (n + 1)) := by
        rw [← Nat.mul_succ]
        exact Nat.mul_le_mul_left w (by omega)
      omega
    rw [Finds, findLoop, bind_of_ret (Buf.load_apply hload ())]
    generalize sdt.bytes.load w (sdtSize + w * i) = hdr
    split
    · exact ih hnext
    split
    · exact ih hnext
    · rename_i hsig
      have hsum : acpiChecksumOk (table mem hdr) (sdtLength mem hdr) () =
          .ret (decide (ChecksumOk (table mem hdr)), ()) := acpiChecksumOk_apply (table mem hdr)
      rw [bind_of_ret hsum]
      split
      · exact finds_error _
      · rename_i hok
        refine ⟨.ok (some hdr), rfl, fun madt h => ?_⟩
        cases h
        exact ⟨not_not.mp hsig, by simpa using hok⟩

/-- The entries that are counted have room in a table with a header. -/
theorem entryCount_le (w : ℕ) (h : sdtSize ≤ length) (hlt : length < 2 ^ 32) :
    sdtSize + w * entryCount w length ≤ length := by
  have hsub : (length + (2 ^ 64 - sdtSize)) % 2 ^ 64 = length - sdtSize := by omega
  have hdiv : (length - sdtSize) / w ≤ length - sdtSize := Nat.div_le_self _ _
  have hmul : w * ((length - sdtSize) / w) ≤ length - sdtSize := Nat.mul_div_le _ _
  rw [entryCount, hsub, Nat.mod_eq_of_lt (by omega)]
  omega

/-- Without room for the header entries are counted all the same. -/
theorem entryCount_pos (hw : w = 4 ∨ w = 8) (h : length < sdtSize) : 0 < entryCount w length := by
  have hsize : sdtSize = 36 := rfl
  rw [entryCount, hsize]
  rw [hsize] at h
  rcases hw with rfl | rfl
  · omega
  · omega

theorem sdtLength_lt (mem : Bytes) (sdt : ℕ) : sdtLength mem sdt < 2 ^ 32 := Bytes.load_lt 4 mem (sdt + 4)

theorem findMadt_finds (bad : String) (h : ChecksumOk (table mem sdt) → sdtSize ≤ sdtLength mem sdt) :
    Finds mem (findMadt w bad mem sdt) := by
  have hsum : acpiChecksumOk (table mem sdt) (sdtLength mem sdt) () =
      .ret (decide (ChecksumOk (table mem sdt)), ()) := acpiChecksumOk_apply (table mem sdt)
  rw [Finds, findMadt, bind_of_ret hsum]
  split
  · exact finds_error bad
  · rename_i hok
    have hle := entryCount_le w (h (by simpa using hok)) (sdtLength_lt mem sdt)
    exact findLoop_finds (by rwa [Nat.zero_add])

/-- **When the entries are read inside the table.** -/
theorem findMadt_inside_iff (hw : w = 4 ∨ w = 8) : ReadsInside (findMadt w bad mem sdt) ↔
    (ChecksumOk (table mem sdt) → sdtSize ≤ sdtLength mem sdt) := by
  constructor
  · rintro ⟨r, hr⟩ hok
    have hsum : acpiChecksumOk (table mem sdt) (sdtLength mem sdt) () =
        .ret (decide (ChecksumOk (table mem sdt)), ()) := acpiChecksumOk_apply (table mem sdt)
    by_contra hlt
    obtain ⟨n, hn⟩ := Nat.exists_eq_succ_of_ne_zero (entryCount_pos hw (not_le.mp hlt)).ne'
    have hroom : ¬ sdtSize + w * 0 + w ≤ (table mem sdt).len := fun h => hlt (by
      change _ ≤ sdtLength mem sdt at h
      omega)
    rw [findMadt, bind_of_ret hsum, decide_eq_true hok, if_neg (by decide), hn, findLoop, bind_apply,
      Buf.load, bind_apply, require, if_neg hroom] at hr
    cases hr
  · intro h
    obtain ⟨r, hr, -⟩ := findMadt_finds bad h
    exact ⟨r, hr⟩

/-! ## The MADT -/

/-- **The walk of a MADT is right**: it ends, every read is inside the table,
and what it records is what the entries of the table do. It stops the
machine only when the bytes are not a list of entries. -/
def ParsesRight (madt : Buf) : Prop :=
  ∃ fuel r, parseMadtEntries fuel madt () = .ret (r, ()) ∧ match r with
    | .error _ => ∀ l, ¬ Entries (slice madt.bytes madtSize madt.len) l
    | .ok g => ∃ l, Entries (slice madt.bytes madtSize madt.len) l ∧
      g = recorded (madt.bytes.load 4 36) (madt.bytes.load 4 40) l

/-- A table of a length that its header names. -/
theorem parsesRight_iff (hlen : madt.bytes.load 4 4 = madt.len) : ParsesRight madt ↔ madtSize ≤ madt.len := by
  constructor
  · rintro ⟨fuel, r, hr, -⟩
    by_contra hlt
    by_cases h1 : 4 + 4 ≤ madt.len
    swap
    · rw [parseMadtEntries, bind_apply, Buf.load, bind_apply, require, if_neg h1] at hr
      cases hr
    rw [parseMadtEntries, bind_of_ret (Buf.load_apply h1 ())] at hr
    by_cases h2 : 36 + 4 ≤ madt.len
    swap
    · rw [bind_apply, Buf.load, bind_apply, require, if_neg h2] at hr
      cases hr
    rw [bind_of_ret (Buf.load_apply h2 ()), bind_apply, Buf.load, bind_apply, require,
      if_neg (by omega)] at hr
    cases hr
  · intro h
    have hroom : 44 ≤ madt.len := h
    have hnone : (⟨madt.bytes.load 4 36, madt.bytes.load 4 40, [], [], []⟩ : MadtInfo).Bounded :=
      ⟨Nat.zero_le _, Nat.zero_le _, Nat.zero_le _⟩
    obtain ⟨r, hr, hspec⟩ := entryLoop_spec (Nat.le_refl _) hnone h
      (show madt.len < madtSize + (madt.len + 1) by omega)
    refine ⟨madt.len + 1, r, ?_, ?_⟩
    · rw [parseMadtEntries, bind_of_ret (Buf.load_apply (by omega) ()),
        bind_of_ret (Buf.load_apply (by omega) ()), bind_of_ret (Buf.load_apply (by omega) ()), hlen]
      exact hr
    · cases r with
      | error msg => exact hspec
      | ok g =>
        obtain ⟨l, hl, hg⟩ := hspec
        exact ⟨l, hl, hg.trans (foldl_add_eq_recorded _ _ l)⟩

theorem load_shift (mem : Bytes) (t n i : ℕ) : (mem.shift t).load n i = mem.load n (t + i) :=
  Bytes.load_congr fun k _ => by rw [Bytes.shift, Nat.add_assoc]

theorem table_length (mem : Bytes) (t : ℕ) : (table mem t).bytes.load 4 4 = (table mem t).len :=
  load_shift mem t 4 4

/-- **When the walk of ACPI tables is right**: the tables in which it
searches, if their checksum is valid, and the MADT have room for their
headers. -/
theorem acpi_walk_right_iff (mem : Bytes) (xsdt rsdt madt : ℕ) :
    (ReadsInside (findMadtInXsdt mem xsdt) ∧ ReadsInside (findMadtInRsdt mem rsdt) ∧
      ParsesRight (table mem madt)) ↔
    (ChecksumOk (table mem xsdt) → sdtSize ≤ sdtLength mem xsdt) ∧
      (ChecksumOk (table mem rsdt) → sdtSize ≤ sdtLength mem rsdt) ∧ madtSize ≤ sdtLength mem madt := by
  rw [findMadtInXsdt, findMadtInRsdt, findMadt_inside_iff (.inr rfl), findMadt_inside_iff (.inl rfl),
    parsesRight_iff (table_length mem madt)]
  rfl

/-- Memory with an RSDP at 0x1000, and at 0x2000 an RSDT that is a byte
shorter than its header. -/
def shortRsdt : Bytes := fun a =>
  if a < 0x2000 then
    (sigRsdp ++ [0xc1, 0, 0, 0, 0, 0, 0, 0, 0x00, 0x20, 0, 0]).getD (a - 0x1000) 0
  else (sigRsdt ++ [35, 0, 0, 0, 1, 0x9f]).getD (a - 0x2000) 0

/-- The RSDP and the checksum of the RSDT are valid, and the first entry is
read past its end. -/
theorem acpi_walk_outside : checkRsdp shortRsdt 0x1000 () = .ret (none, ()) ∧
    shortRsdt.load 4 (0x1000 + 16) = 0x2000 ∧ sdtSig shortRsdt 0x2000 = sigRsdt ∧
    ChecksumOk (table shortRsdt 0x2000) ∧ ¬ ReadsInside (findMadtInRsdt shortRsdt 0x2000) := by
  have hok : ChecksumOk (table shortRsdt 0x2000) := by decide +kernel
  have hlt : ¬ sdtSize ≤ sdtLength shortRsdt 0x2000 := by decide +kernel
  refine ⟨rfl, by decide +kernel, by decide +kernel, hok, fun h => hlt ?_⟩
  rw [findMadtInRsdt, findMadt_inside_iff (.inl rfl)] at h
  exact h hok

/-! ## From the RSDP -/

theorem checkRsdp_inside (mem : Bytes) (rsdp : ℕ) : ReadsInside (checkRsdp mem rsdp) := by
  rw [ReadsInside, checkRsdp]
  split
  · exact ⟨_, rfl⟩
  split
  · exact ⟨_, rfl⟩
  have hsum (n : ℕ) : acpiChecksumOk ⟨mem.shift rsdp, n⟩ n () =
      .ret (decide (ChecksumOk ⟨mem.shift rsdp, n⟩), ()) := acpiChecksumOk_apply ⟨mem.shift rsdp, n⟩
  rw [bind_of_ret (hsum 20)]
  split
  · exact ⟨_, rfl⟩
  split
  · exact ⟨_, rfl⟩
  split
  · exact ⟨_, rfl⟩
  rw [bind_of_ret (hsum _)]
  split
  · exact ⟨_, rfl⟩
  · exact ⟨_, rfl⟩

section

variable (hsdt : ∀ t, sdtSig mem t = sigXsdt ∨ sdtSig mem t = sigRsdt → sdtSize ≤ sdtLength mem t)
include hsdt

theorem searchMadt_finds (rsdp : ℕ) : Finds mem (searchMadt mem rsdp) := by
  have hrsdt : Finds mem (searchRsdt mem rsdp) := by
    rw [searchRsdt]
    split
    · exact finds_error _
    split
    · exact finds_error _
    · rename_i hsig
      exact findMadt_finds _ fun _ => hsdt _ (.inr (not_not.mp hsig))
  have hxsdt : Finds mem (searchXsdt mem rsdp) := by
    rw [searchXsdt]
    split
    · split
      · exact finds_error _
      · rename_i hsig
        exact findMadt_finds _ fun _ => hsdt _ (.inl (not_not.mp hsig))
    · exact finds_none
  obtain ⟨r, hr, hfound⟩ := hxsdt
  rw [Finds, searchMadt, bind_of_ret hr]
  rcases r with msg | _ | madt
  · exact finds_error msg
  · exact hrsdt
  · exact ⟨.ok (some madt), rfl, hfound⟩

/-- **From the RSDP**: where every table has room for its header `init_acpi`
reads tables inside and ends, and what it records is what the entries of a
MADT with a valid checksum do. -/
theorem initAcpi_right (hmadt : ∀ t, sdtSig mem t = sigApic → madtSize ≤ sdtLength mem t) (rsdp : ℕ) :
    ∃ fuel r, initAcpi fuel mem rsdp () = .ret (r, ()) ∧ ∀ g, r = .ok g →
      ∃ madt l, ChecksumOk (table mem madt) ∧
        Entries (slice (table mem madt).bytes madtSize (sdtLength mem madt)) l ∧
        g = recorded (mem.load 4 (madt + 36)) (mem.load 4 (madt + 40)) l := by
  obtain ⟨bad, hbad⟩ := checkRsdp_inside mem rsdp
  obtain ⟨r, hr, hfound⟩ := searchMadt_finds hsdt rsdp
  simp only [initAcpi, bind_of_ret hbad]
  rcases bad with _ | msg
  swap
  · exact ⟨0, .error msg, rfl, fun g h => by cases h⟩
  simp only [bind_of_ret hr]
  rcases r with msg | _ | madt
  · exact ⟨0, .error msg, rfl, fun g h => by cases h⟩
  · exact ⟨0, .error _, rfl, fun g h => by cases h⟩
  · obtain ⟨hsig, hok⟩ := hfound madt rfl
    obtain ⟨fuel, r, hparse, hright⟩ := (parsesRight_iff (table_length mem madt)).mpr (hmadt madt hsig)
    refine ⟨fuel, r, hparse, fun g h => ?_⟩
    subst h
    obtain ⟨l, hl, hg⟩ := hright
    exact ⟨madt, l, hok, hl, by rw [hg, table, load_shift, load_shift]⟩

end

end Acpi

end Csos

import Csos.Common.Scan
/-!
# ACPI tables — the model

`acpi.c`: from the RSDP to a table of tables, XSDT or RSDT, in it the MADT,
and from its entries the processors, the I/O APICs and the overrides of the
machine. Memory is a function of the address. A table is a buffer with the
length that its header names, and a read of it past this length faults; a
pointer into a table is an offset, since no table goes past the end of the
address space. `panic` does not return: its message is then the answer.
-/

namespace Csos

namespace Acpi

open Checked

/-- `ACPI_MAX_CPUS`. -/
abbrev maxCpus : ℕ := 16
/-- `ACPI_MAX_IOAPICS`. -/
abbrev maxIoapics : ℕ := 4
/-- `ACPI_MAX_OVERRIDES`. -/
abbrev maxOverrides : ℕ := 32
/-- `sizeof(acpi_sdt_header_t)`. -/
abbrev sdtSize : ℕ := 36
/-- `sizeof(acpi_madt_t)`. -/
abbrev madtSize : ℕ := 44
/-- `sizeof(acpi_rsdp_t)`. -/
abbrev rsdpSize : ℕ := 36
/-- `MADT_LOCAL_APIC`. -/
abbrev madtLocalApic : UInt8 := 0
/-- `MADT_IO_APIC`. -/
abbrev madtIoApic : UInt8 := 1
/-- `MADT_ISO`. -/
abbrev madtIso : UInt8 := 2
/-- `MADT_LAPIC_ADDR_OVERRIDE`. -/
abbrev madtLapicAddrOverride : UInt8 := 5

/-- `acpi_cpu_t`. -/
structure Cpu where
  acpiProcessorId : ℕ
  apicId : ℕ
  flags : ℕ
  deriving DecidableEq

/-- `acpi_ioapic_t`. -/
structure Ioapic where
  id : ℕ
  addr : ℕ
  gsiBase : ℕ
  deriving DecidableEq

/-- `acpi_iso_t`. -/
structure Iso where
  bus : ℕ
  irq : ℕ
  gsi : ℕ
  flags : ℕ
  deriving DecidableEq

/-- `madt_info_t`; of each array the elements that its count covers. -/
structure MadtInfo where
  lapicAddr : ℕ
  flags : ℕ
  cpus : List Cpu
  ioapics : List Ioapic
  overrides : List Iso
  deriving DecidableEq

/-- The answer of a part of the code: a result, or the message of `acpi_halt`. -/
abbrev Answer (α : Type) := Except String α

/-- `hdr->length`. -/
def sdtLength (mem : Bytes) (hdr : ℕ) : ℕ := mem.load 4 (hdr + 4)

/-- `hdr->signature`. -/
def sdtSig (mem : Bytes) (hdr : ℕ) : List UInt8 := slice mem hdr (hdr + 4)

/-- The table at `hdr`. -/
def table (mem : Bytes) (hdr : ℕ) : Buf := ⟨mem.shift hdr, sdtLength mem hdr⟩

/-- `"APIC"`. -/
def sigApic : List UInt8 := [0x41, 0x50, 0x49, 0x43]

/-- `"XSDT"`. -/
def sigXsdt : List UInt8 := [0x58, 0x53, 0x44, 0x54]

/-- `"RSDT"`. -/
def sigRsdt : List UInt8 := [0x52, 0x53, 0x44, 0x54]

/-- `"RSD PTR "`. -/
def sigRsdp : List UInt8 := [0x52, 0x53, 0x44, 0x20, 0x50, 0x54, 0x52, 0x20]

/-- The loop of `acpi_checksum_ok`. -/
def checksumLoop (data : Buf) : ℕ → ℕ → UInt8 → Checked Unit UInt8
  | 0, _, sum => return sum
  | n + 1, i, sum => do
    let x ← data.get i
    checksumLoop data n (i + 1) (sum + x)

/-- `acpi_checksum_ok`. -/
def acpiChecksumOk (data : Buf) (len : ℕ) : Checked Unit Bool := do
  let sum ← checksumLoop data len 0 0
  return decide (sum = 0)

/-! ## The table of tables -/

/-- The loop of `find_madt_in_xsdt` and of `find_madt_in_rsdt`, whose entries
have `w` bytes. -/
def findLoop (mem : Bytes) (w : ℕ) (sdt : Buf) : ℕ → ℕ → Checked Unit (Answer (Option ℕ))
  | 0, _ => return .ok none
  | n + 1, i => do
    let hdr ← sdt.load w (sdtSize + w * i)
    if hdr = 0 then findLoop mem w sdt n (i + 1)
    else if sdtSig mem hdr ≠ sigApic then findLoop mem w sdt n (i + 1)
    else do
      let ok ← acpiChecksumOk (table mem hdr) (sdtLength mem hdr)
      if ok = false then return .error "FATAL: ACPI MADT checksum bad\n"
      else return .ok (some hdr)

/-- The number of entries: `length` has 32 bits, the difference 64, and the
quotient is stored in 32. -/
def entryCount (w length : ℕ) : ℕ := (length + (2 ^ 64 - sdtSize)) % 2 ^ 64 / w % 2 ^ 32

/-- `find_madt_in_xsdt` and `find_madt_in_rsdt`. -/
def findMadt (w : ℕ) (bad : String) (mem : Bytes) (sdt : ℕ) : Checked Unit (Answer (Option ℕ)) := do
  let ok ← acpiChecksumOk (table mem sdt) (sdtLength mem sdt)
  if ok = false then return .error bad
  else findLoop mem w (table mem sdt) (entryCount w (sdtLength mem sdt)) 0

/-- `find_madt_in_xsdt`. -/
def findMadtInXsdt : Bytes → ℕ → Checked Unit (Answer (Option ℕ)) :=
  findMadt 8 "FATAL: ACPI XSDT checksum bad\n"

/-- `find_madt_in_rsdt`. -/
def findMadtInRsdt : Bytes → ℕ → Checked Unit (Answer (Option ℕ)) :=
  findMadt 4 "FATAL: ACPI RSDT checksum bad\n"

/-! ## The MADT -/

/-- The `switch` of `parse_madt_entries`, for the entry at `p`. -/
def parseEntry (madt : Buf) (p : ℕ) (type : UInt8) (length : ℕ) (g : MadtInfo) :
    Checked Unit (Answer MadtInfo) :=
  if type = madtLocalApic then
    if length < 8 then return .error "FATAL: ACPI MADT local APIC entry too short\n"
    else if g.cpus.length < maxCpus then do
      let acpiProcessorId ← madt.load 1 (p + 2)
      let apicId ← madt.load 1 (p + 3)
      let flags ← madt.load 4 (p + 4)
      return .ok { g with cpus := g.cpus ++ [⟨acpiProcessorId, apicId, flags⟩] }
    else return .ok g
  else if type = madtIoApic then
    if length < 12 then return .error "FATAL: ACPI MADT IOAPIC entry too short\n"
    else if g.ioapics.length < maxIoapics then do
      let id ← madt.load 1 (p + 2)
      let addr ← madt.load 4 (p + 4)
      let gsiBase ← madt.load 4 (p + 8)
      return .ok { g with ioapics := g.ioapics ++ [⟨id, addr, gsiBase⟩] }
    else return .ok g
  else if type = madtIso then
    if length < 10 then return .error "FATAL: ACPI MADT ISO entry too short\n"
    else if g.overrides.length < maxOverrides then do
      let bus ← madt.load 1 (p + 2)
      let irq ← madt.load 1 (p + 3)
      let gsi ← madt.load 4 (p + 4)
      let flags ← madt.load 2 (p + 8)
      return .ok { g with overrides := g.overrides ++ [⟨bus, irq, gsi, flags⟩] }
    else return .ok g
  else if type = madtLapicAddrOverride then
    if length < 12 then return .error "FATAL: ACPI MADT LAPIC override too short\n"
    else do
      let lapicAddr ← madt.load 8 (p + 4)
      return .ok { g with lapicAddr := lapicAddr }
  else return .ok g

/-- The loop of `parse_madt_entries`. -/
def entryLoop (madt : Buf) (stop : ℕ) : ℕ → ℕ → MadtInfo → Checked Unit (Answer MadtInfo)
  | 0, _, _ => hang
  | fuel + 1, p, g =>
    if p + 2 ≤ stop then do
      let type ← madt.get p
      let length ← madt.load 1 (p + 1)
      if length < 2 then return .error "FATAL: ACPI MADT entry length < 2\n"
      else if stop < p + length then return .error "FATAL: ACPI MADT entry exceeds table\n"
      else do
        let r ← parseEntry madt p type length g
        match r with
        | .error msg => return .error msg
        | .ok g => entryLoop madt stop fuel (p + length) g
    else return .ok g

/-- `parse_madt_entries`. -/
def parseMadtEntries (fuel : ℕ) (madt : Buf) : Checked Unit (Answer MadtInfo) := do
  let length ← madt.load 4 4
  let lapicAddress ← madt.load 4 36
  let flags ← madt.load 4 40
  entryLoop madt length fuel madtSize ⟨lapicAddress, flags, [], [], []⟩

/-! ## The way to the MADT -/

/-- What `init_acpi` tests of the RSDP; the answer is the message. -/
def checkRsdp (mem : Bytes) (rsdp : ℕ) : Checked Unit (Option String) :=
  if rsdp = 0 then return some "FATAL: ACPI RSDP missing (boot_info.rsdp=0)\n"
  else if slice mem rsdp (rsdp + 8) ≠ sigRsdp then return some "FATAL: ACPI RSDP signature bad\n"
  else do
    let ok ← acpiChecksumOk ⟨mem.shift rsdp, 20⟩ 20
    if ok = false then return some "FATAL: ACPI RSDP checksum bad\n"
    else if mem (rsdp + 15) < 2 then return none
    else if mem.load 4 (rsdp + 20) < rsdpSize then return some "FATAL: ACPI RSDP length too small\n"
    else do
      let ok ← acpiChecksumOk ⟨mem.shift rsdp, mem.load 4 (rsdp + 20)⟩ (mem.load 4 (rsdp + 20))
      if ok = false then return some "FATAL: ACPI RSDP extended checksum bad\n" else return none

/-- The search of the XSDT, if there is one. -/
def searchXsdt (mem : Bytes) (rsdp : ℕ) : Checked Unit (Answer (Option ℕ)) :=
  if 2 ≤ mem (rsdp + 15) ∧ mem.load 8 (rsdp + 24) ≠ 0 then
    if sdtSig mem (mem.load 8 (rsdp + 24)) ≠ sigXsdt then
      return .error "FATAL: ACPI XSDT signature bad\n"
    else findMadtInXsdt mem (mem.load 8 (rsdp + 24))
  else return .ok none

/-- The search of the RSDT. -/
def searchRsdt (mem : Bytes) (rsdp : ℕ) : Checked Unit (Answer (Option ℕ)) :=
  if mem.load 4 (rsdp + 16) = 0 then return .error "FATAL: ACPI RSDT address is 0\n"
  else if sdtSig mem (mem.load 4 (rsdp + 16)) ≠ sigRsdt then
    return .error "FATAL: ACPI RSDT signature bad\n"
  else findMadtInRsdt mem (mem.load 4 (rsdp + 16))

/-- The header that `init_acpi` finds: in the XSDT, and else in the RSDT. -/
def searchMadt (mem : Bytes) (rsdp : ℕ) : Checked Unit (Answer (Option ℕ)) := do
  let r ← searchXsdt mem rsdp
  match r with
  | .error msg => return .error msg
  | .ok (some madt) => return .ok (some madt)
  | .ok none => searchRsdt mem rsdp

/-- `init_acpi`, with what it records. -/
def initAcpi (fuel : ℕ) (mem : Bytes) (rsdp : ℕ) : Checked Unit (Answer MadtInfo) := do
  let bad ← checkRsdp mem rsdp
  match bad with
  | some msg => return .error msg
  | none => do
    let r ← searchMadt mem rsdp
    match r with
    | .error msg => return .error msg
    | .ok none => return .error "FATAL: ACPI MADT not found\n"
    | .ok (some madt) => parseMadtEntries fuel (table mem madt)

end Acpi

end Csos

import Csos.Common.Bytes
/-!
# The kernel's loader — the model

`LoadElf64` of the boot application, against a firmware that answers its
calls. The answers are those of a firmware that keeps its word: a read
transfers what is left of the file, which may be less than was asked for
without being an error, and pages are granted as they are asked for and only
once. Everything else about them is left open, as is what the buffers hold
before they are read into.

Every write is checked as it is made: to a buffer of the loader it must end
within it, and elsewhere it must stay in pages that have been granted. A run
ends where a check fails; what the code does from there on is not modelled.
Addresses are not reduced modulo `2 ^ 64`, since pages are granted within the
address space.
-/

namespace Csos

namespace Boot

/-- `PT_LOAD`. -/
abbrev ptLoad : ℕ := 1
/-- `EM_X86_64`. -/
abbrev emX86_64 : ℕ := 62
/-- `MAX_ADDRESS`. -/
abbrev maxAddress : ℕ := 2 ^ 64 - 1
/-- `EFI_UNSUPPORTED`. -/
abbrev efiUnsupported : ℕ := 2 ^ 63 + 3
/-- `EFI_OUT_OF_RESOURCES`. -/
abbrev efiOutOfResources : ℕ := 2 ^ 63 + 9
/-- `EFI_ERROR`: the highest bit of a status. Warnings are not errors. -/
def efiError (status : ℕ) : Prop := 2 ^ 63 ≤ status

instance : DecidablePred efiError := fun status => inferInstanceAs (Decidable (2 ^ 63 ≤ status))

/-- `EFI_SIZE_TO_PAGES`. -/
def efiSizeToPages (size : ℕ) : ℕ := size / 4096 + if size % 4096 = 0 then 0 else 1

/-! ## The file -/

/-- The bytes of a file, from its start. -/
def content (file : List UInt8) : Bytes := fun i => file.getD i 0

/-- The position that `SetPosition` leaves: the end of the file for the
largest value. -/
def position (file : List UInt8) (p : ℕ) : ℕ := if p = 2 ^ 64 - 1 then file.length else p

/-- A buffer into which `count` bytes have been read from a position. -/
def received (file : List UInt8) (pos count : ℕ) (buffer : Bytes) : Bytes :=
  Bytes.blit buffer 0 count (Bytes.shift (content file) pos)

/-- The fields of `Elf64_Ehdr` that are read. -/
structure Ehdr where
  ident : List UInt8
  machine : ℕ
  entry : ℕ
  phoff : ℕ
  phentsize : ℕ
  phnum : ℕ
deriving DecidableEq

/-- The header at the start of a buffer. -/
def Ehdr.ofBytes (b : Bytes) : Ehdr where
  ident := (List.range 5).map b
  machine := Bytes.load 2 b 18
  entry := Bytes.load 8 b 24
  phoff := Bytes.load 8 b 32
  phentsize := Bytes.load 2 b 54
  phnum := Bytes.load 2 b 56

/-- The fields of `Elf64_Phdr` that are read. -/
structure Phdr where
  type : ℕ
  offset : ℕ
  paddr : ℕ
  filesz : ℕ
  memsz : ℕ
deriving DecidableEq

/-- The program header at an offset of a buffer. -/
def Phdr.ofBytes (b : Bytes) (at_ : ℕ) : Phdr where
  type := Bytes.load 4 b at_
  offset := Bytes.load 8 b (at_ + 8)
  paddr := Bytes.load 8 b (at_ + 24)
  filesz := Bytes.load 8 b (at_ + 32)
  memsz := Bytes.load 8 b (at_ + 40)

/-- `Ehdr.e_phnum * Ehdr.e_phentsize`: an `int`, of which a `UINTN` is made. -/
def tableSize (e : Ehdr) : ℕ :=
  let size := e.phnum * e.phentsize
  if size < 2 ^ 31 then size else size + (2 ^ 64 - 2 ^ 32)

/-! ## The firmware -/

/-- The answer to a `Read`: its status, and how many bytes it has transferred. -/
structure Answer where
  status : ℕ
  count : ℕ

/-- Pages asked for by `AllocatePages`: the address of the first, and their number. -/
structure Grant where
  addr : ℕ
  pages : ℕ
deriving DecidableEq

/-- The address is in one of the pages. -/
def Grant.Covers (g : Grant) (a : ℕ) : Prop := g.addr ≤ a ∧ a < g.addr + 4096 * g.pages

instance (g : Grant) (a : ℕ) : Decidable (g.Covers a) := inferInstanceAs (Decidable (_ ∧ _))

/-- **The firmware, as the loader meets it**: its answers to the calls, and
what it leaves in memory that has not been written. Calls of one kind are
numbered, so that the same request may be answered differently later. -/
structure Firmware (file : List UInt8) where
  /-- The status of `Open`. -/
  openFile : ℕ
  /-- What is on the stack where `Ehdr` is. -/
  stack : Bytes
  /-- `Read` at a position, of a size. -/
  read : ℕ → ℕ → ℕ → Answer
  /-- No more is transferred than is asked for and than is left of the file. -/
  read_le : ∀ c pos size, (read c pos size).count ≤ min size (file.length - pos)
  /-- A read that does not fail transfers as much. -/
  read_full : ∀ c pos size, ¬ efiError (read c pos size).status →
    (read c pos size).count = min size (file.length - pos)
  /-- Whether `AllocatePool` has the memory. -/
  allocatePool : ℕ → Bool
  /-- What is found, in a turn of the loop, where `Phdrs` points to: memory
  from the pool, and what follows it. -/
  heap : ℕ → Bytes
  /-- The status of `SetPosition`. -/
  setPosition : ℕ → ℕ → ℕ
  /-- The status of `AllocatePages`, after what it has granted before. -/
  allocatePages : List Grant → Grant → ℕ
  /-- Pages are granted once. -/
  pages_fresh : ∀ granted g, ¬ efiError (allocatePages granted g) →
    ∀ g' ∈ granted, ∀ a, g'.Covers a → ¬ g.Covers a

namespace Firmware

variable {file : List UInt8} (fw : Firmware file)

/-- The answer to the read of the ELF header. -/
def header : Answer := fw.read 0 0 64

/-- `Ehdr`, after that read. -/
def ehdr : Ehdr := Ehdr.ofBytes (received file 0 fw.header.count fw.stack)

/-- The answer to the read of the program headers. -/
def table : Answer := fw.read 1 (position file fw.ehdr.phoff) (tableSize fw.ehdr)

/-- `Phdrs[i]`, in the turn that uses it. -/
def phdr (i : ℕ) : Phdr :=
  Phdr.ofBytes (received file (position file fw.ehdr.phoff) fw.table.count (fw.heap i)) (56 * i)

end Firmware

/-! ## Loading -/

/-- What is written outside the loader's buffers: `*EntryPoint`, `*KernelBase`
and the memory. -/
structure Out where
  entry : ℕ
  base : ℕ
  mem : Bytes

/-- How a run ends: with a status, or at a write that is not the loader's to make. -/
inductive Outcome where
  | returned (status : ℕ) (out : Out)
  | strayed

/-- The `n` bytes at an address are in pages that have been granted. -/
def Inside (granted : List Grant) (addr n : ℕ) : Prop :=
  ∀ i < n, ∃ g ∈ granted, g.Covers (addr + i)

instance (granted : List Grant) (addr n : ℕ) : Decidable (Inside granted addr n) :=
  inferInstanceAs (Decidable (∀ i < n, _))

variable {file : List UInt8}

/-- One turn of the loop over the program headers: the end of the run, or what
the next turn starts with. -/
def loadSegment (fw : Firmware file) (i : ℕ) (granted : List Grant) (status : ℕ) (out : Out) :
    Except Outcome (List Grant × ℕ × Out) :=
  let ph := fw.phdr i
  if ph.type ≠ ptLoad then .ok (granted, status, out)
  else
    let g : Grant := ⟨ph.paddr, efiSizeToPages ph.memsz⟩
    if efiError (fw.allocatePages granted g) then
      .error (.returned (fw.allocatePages granted g) out)
    else
      let granted := g :: granted
      let out := { out with base := if ph.paddr < out.base then ph.paddr else out.base }
      -- `SetMem`
      if ¬ Inside granted ph.paddr ph.memsz then .error .strayed
      else
        let out := { out with mem := out.mem.blit ph.paddr ph.memsz (Bytes.const 0) }
        if efiError (fw.setPosition (i + 1) ph.offset) then
          .error (.returned (fw.setPosition (i + 1) ph.offset) out)
        else
          let pos := position file ph.offset
          let r := fw.read (i + 2) pos ph.filesz
          if ¬ Inside granted ph.paddr r.count then .error .strayed
          else
            let out := { out with mem := out.mem.blit ph.paddr r.count ((content file).shift pos) }
            if efiError r.status then .error (.returned r.status out)
            else .ok (granted, r.status, out)

/-- The loop over the program headers, with `n` turns left. -/
def loadSegments (fw : Firmware file) : ℕ → ℕ → List Grant → ℕ → Out → Outcome
  | 0, _, _, status, out => .returned status out
  | n + 1, i, granted, status, out =>
    match loadSegment fw i granted status out with
    | .error o => o
    | .ok (granted, status, out) => loadSegments fw n (i + 1) granted status out

/-- `LoadElf64`. -/
def loadElf64 (fw : Firmware file) (out : Out) : Outcome :=
  let e := fw.ehdr
  if efiError fw.openFile then .returned fw.openFile out
  else if 64 < fw.header.count then .strayed
  else if efiError fw.header.status ∨ e.ident ≠ [0x7f, 0x45, 0x4c, 0x46, 2] ∨ e.machine ≠ emX86_64 then
    .returned efiUnsupported out
  else
    let out := { out with entry := e.entry }
    if fw.allocatePool (tableSize e) = false then .returned efiOutOfResources out
    else if efiError (fw.setPosition 0 e.phoff) then .returned (fw.setPosition 0 e.phoff) out
    else if tableSize e < fw.table.count then .strayed
    else if efiError fw.table.status then .returned fw.table.status out
    else loadSegments fw e.phnum 0 [] fw.table.status { out with base := maxAddress }

/-! ## The image in the file -/

/-- The header of the file. -/
def fileEhdr (file : List UInt8) : Ehdr := Ehdr.ofBytes (content file)

/-- Where the `k`th program header of the file is. -/
def phdrAt (file : List UInt8) (k : ℕ) : ℕ := (fileEhdr file).phoff + k * (fileEhdr file).phentsize

/-- The `k`th program header of the file. -/
def filePhdr (file : List UInt8) (k : ℕ) : Phdr := Phdr.ofBytes (content file) (phdrAt file k)

/-- **The image is in memory**: the file has its headers, and each segment to
be loaded is where its header says, the rest of its memory zero. -/
def Loaded (file : List UInt8) (mem : Bytes) : Prop :=
  64 ≤ file.length ∧ ∀ k < (fileEhdr file).phnum, phdrAt file k + 56 ≤ file.length ∧
    ((filePhdr file k).type = ptLoad →
      (∀ i < (filePhdr file k).filesz,
        file[(filePhdr file k).offset + i]? = some (mem ((filePhdr file k).paddr + i))) ∧
      ∀ i, (filePhdr file k).filesz ≤ i → i < (filePhdr file k).memsz →
        mem ((filePhdr file k).paddr + i) = 0)

/-- **Exactly or not at all.** Nothing is written where it should not be, and
unless an error is returned the image is in memory. -/
def LoadsExactly (file : List UInt8) : Outcome → Prop
  | .returned status out => efiError status ∨ Loaded file out.mem
  | .strayed => False

end Boot

end Csos

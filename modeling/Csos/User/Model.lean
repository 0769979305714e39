import Csos.Vmm.Data
import Csos.Common.Bytes
/-!
# User programs — the model

`user.c`, from a file in memory to mapped segments. The file is a function
from offsets to bytes: offsets are taken modulo `2 ^ 64`, as the pointer
arithmetic of the code does, so that an offset past the end, or before the
start, of the file reads what is there. The kernel writes pages through
pointers, and the page tables in use say where these lead; a segment may
change them.
-/

namespace Csos

namespace User

open Vmm

/-- `PT_LOAD`. -/
abbrev ptLoad : ℕ := 1
/-- `PF_W`. -/
abbrev pfW : ℕ := 2
/-- `ELF_MAX_SEGS`. -/
abbrev elfMaxSegs : ℕ := 16
/-- `ELF_MAX_SEG_MEMSZ`. -/
abbrev elfMaxSegMemsz : ℕ := 16 * 1024 * 1024
/-- The end of the lower half. -/
abbrev lowerEnd : ℕ := 0x0000800000000000
/-- `KERNEL_VIRT_BASE`. -/
abbrev kernelVirtBase : ℕ := 0xFFFFFFFF80000000

/-- A little-endian field of the file at an offset modulo `2 ^ 64`. -/
def field (n : ℕ) (img : Bytes) (off : ℕ) : ℕ := Bytes.load n (fun k => img (k % 2 ^ 64)) off

/-- The fields of `elf64_ehdr_t` that are read. -/
structure Ehdr where
  ident : List UInt8
  type : ℕ
  machine : ℕ
  entry : ℕ
  phoff : ℕ
  phentsize : ℕ
  phnum : ℕ

/-- The header of a file. -/
def ehdr (img : Bytes) : Ehdr where
  ident := (List.range 7).map img
  type := field 2 img 16
  machine := field 2 img 18
  entry := field 8 img 24
  phoff := field 8 img 32
  phentsize := field 2 img 54
  phnum := field 2 img 56

/-- The fields of `elf64_phdr_t` that are read. -/
structure Phdr where
  type : ℕ
  flags : ℕ
  offset : ℕ
  vaddr : ℕ
  filesz : ℕ
  memsz : ℕ

/-- `ph[i]`. -/
def phdr (img : Bytes) (i : ℕ) : Phdr :=
  let at_ := (ehdr img).phoff + 56 * i
  ⟨field 4 img at_, field 4 img (at_ + 4), field 8 img (at_ + 8), field 8 img (at_ + 16),
    field 8 img (at_ + 32), field 8 img (at_ + 40)⟩

/-- `check_ehdr`. -/
def checkEhdr (e : Ehdr) (fileSize : ℕ) : Bool :=
  if e.ident.take 4 ≠ [0x7f, 0x45, 0x4c, 0x46] then false
  else if e.ident.drop 4 ≠ [2, 1, 1] then false
  else if e.type ≠ 2 then false
  else if e.machine ≠ 62 then false
  else if e.phentsize ≠ 56 then false
  else if e.phnum = 0 ∨ elfMaxSegs < e.phnum then false
  else if fileSize < (e.phoff + e.phnum * 56) % 2 ^ 64 then false
  else if e.entry < 4096 ∨ lowerEnd ≤ e.entry then false
  else true

/-- `user_range_ok`. -/
def userRangeOk (vaddr size : ℕ) : Bool :=
  if size = 0 then false
  else if vaddr < 4096 then false
  else if (vaddr + size) % 2 ^ 64 < vaddr then false
  else if lowerEnd < (vaddr + size) % 2 ^ 64 then false
  else if kernelVirtBase < (vaddr + size) % 2 ^ 64 then false
  else true

/-- `raw_copy` of `n` bytes of the file to an offset in a page. -/
def rawCopy (ptr : Ptr) (img : Bytes) (page : Word) : ℕ → ℕ → ℕ → State → Option State
  | 0, _, _, s => some s
  | n + 1, off, src, s =>
    match ptr s page with
    | none => none
    | some f => rawCopy ptr img page n (off + 1) (src + 1)
        (setPageByte s f off (img (src % 2 ^ 64)).toBitVec)

/-- The copy of one page of `map_one_segment`: the part of the page that the
file fills. -/
def copyPage (ptr : Ptr) (img : Bytes) (ph : Phdr) (va : ℕ) (page : Word) (s : State) : Option State :=
  let copyStart := max va ph.vaddr
  let copyEnd := min ((va + 4096) % 2 ^ 64) ((ph.vaddr + ph.filesz) % 2 ^ 64)
  if copyStart < copyEnd then
    rawCopy ptr img page (copyEnd - copyStart) (copyStart - va) (ph.offset + (copyStart - ph.vaddr)) s
  else some s

/-- The flags of the pages of a segment. -/
def segFlags (ph : Phdr) : Word :=
  ptePresent ||| pteUser ||| (if ph.flags / pfW % 2 = 1 then pteWritable else 0)

/-- One turn of the loop of `map_one_segment`: the page at `va`. -/
def mapSegmentPage (ptr : Ptr) (img : Bytes) (ph : Phdr) (va : ℕ) (supply : List Word) (s : State) :
    Option (ℤ × List Word × State) :=
  match supply with
  | [] => none
  | page :: supply =>
    if page = 0 then some (-1, supply, s)
    else match ptr s page with
      | none => none
      | some f => match copyPage ptr img ph va page (s.clear f) with
        | none => none
        | some s => mapPageVia ptr s supply (BitVec.ofNat 64 va) page (segFlags ph)

/-- The loop of `map_one_segment`: `n` pages from `va` on. -/
def mapSegmentLoop (ptr : Ptr) (img : Bytes) (ph : Phdr) : ℕ → ℕ → List Word → State →
    Option (ℤ × List Word × State)
  | 0, _, supply, s => some (0, supply, s)
  | n + 1, va, supply, s =>
    match mapSegmentPage ptr img ph va supply s with
    | none => none
    | some (r, supply, s) =>
      if r ≠ 0 then some (-1, supply, s)
      else mapSegmentLoop ptr img ph n ((va + 4096) % 2 ^ 64) supply s

/-- The first page of a segment. -/
def Phdr.first (ph : Phdr) : ℕ := ph.vaddr / 4096 * 4096

/-- The end of its last page. -/
def Phdr.stop (ph : Phdr) : ℕ := ((ph.vaddr + ph.memsz) % 2 ^ 64 + 4095) % 2 ^ 64 / 4096 * 4096

/-- `map_one_segment`. -/
def mapOneSegment (ptr : Ptr) (img : Bytes) (ph : Phdr) (supply : List Word) (s : State) :
    Option (ℤ × List Word × State) :=
  mapSegmentLoop ptr img ph ((ph.stop - ph.first) / 4096) ph.first supply s

/-- The tests of a `PT_LOAD` segment. -/
def segmentOk (ph : Phdr) (fileSize : ℕ) : Bool :=
  if ph.memsz < ph.filesz then false
  else if elfMaxSegMemsz < ph.memsz then false
  else if fileSize < (ph.offset + ph.filesz) % 2 ^ 64 ∨
      (ph.offset + ph.filesz) % 2 ^ 64 < ph.offset then false
  else userRangeOk ph.vaddr ph.memsz

/-- The first loop of `map_elf_image`: `n` headers from the `i`-th on. The
result is `n_load`, or `none` where it returns 0. -/
def loadLoop (ptr : Ptr) (img : Bytes) (fileSize : ℕ) : ℕ → ℕ → ℕ → List Word → State →
    Option (Option ℕ × List Word × State)
  | 0, _, nLoad, supply, s => some (some nLoad, supply, s)
  | n + 1, i, nLoad, supply, s =>
    if (phdr img i).type ≠ ptLoad then loadLoop ptr img fileSize n (i + 1) nLoad supply s
    else if segmentOk (phdr img i) fileSize = false then some (none, supply, s)
    else match mapOneSegment ptr img (phdr img i) supply s with
      | none => none
      | some (r, supply, s) =>
        if r ≠ 0 then some (none, supply, s)
        else loadLoop ptr img fileSize n (i + 1) (nLoad + 1) supply s

/-- The entry is in a segment. -/
def entryOk (img : Bytes) : Bool :=
  (List.range (ehdr img).phnum).any fun i =>
    (phdr img i).type = ptLoad ∧ (phdr img i).vaddr ≤ (ehdr img).entry ∧
      (ehdr img).entry < ((phdr img i).vaddr + (phdr img i).memsz) % 2 ^ 64

/-- `map_elf_image`: the entry, or 0. -/
def mapElfImage (ptr : Ptr) (img : Bytes) (fileSize : ℕ) (supply : List Word) (s : State) :
    Option (ℕ × List Word × State) :=
  if checkEhdr (ehdr img) fileSize = false then some (0, supply, s)
  else match loadLoop ptr img fileSize (ehdr img).phnum 0 0 supply s with
    | none => none
    | some (none, supply, s) => some (0, supply, s)
    | some (some nLoad, supply, s) =>
      if nLoad = 0 then some (0, supply, s)
      else if entryOk img = false then some (0, supply, s)
      else some ((ehdr img).entry, supply, s)

end User

end Csos

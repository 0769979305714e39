import Csos.Common.Bytes
/-!
# Physical memory — the model

`bitmap.c`, `pmm_allocator_bitmap.c` and `init_pmm`. A set bit is a page in
use. Addresses and counters are 64 bits wide: numbers, reduced modulo
`2 ^ 64` where the code can overflow them.
-/

namespace Csos

namespace Pmm

/-- `PAGE_SIZE`. -/
abbrev pageSize : ℕ := 4096
/-- `PMM_MAX_PHYS`. -/
abbrev maxPhys : ℕ := 512 * 1024 * 1024
/-- `PMM_MAX_PAGES`. -/
abbrev maxPages : ℕ := maxPhys / pageSize
/-- `PMM_INVALID_ADDR`. -/
abbrev invalidAddr : ℕ := 2 ^ 64 - 1

/-! ## Bitmaps -/

/-- `bitmap_t`. -/
structure Bitmap where
  bits : ℕ → BitVec 8
  size : ℕ

namespace Bitmap

variable (bm : Bitmap)

/-- `bitmap_set_all`. -/
def setAll (value : Bool) : Bitmap :=
  { bm with bits := fun b =>
      if b < (bm.size + 7) / 8 % 2 ^ 32 then (if value then 0xff#8 else 0x00#8) else bm.bits b }

/-- `bitmap_set`. -/
def set (index : ℕ) : Bitmap :=
  if bm.size ≤ index then bm
  else { bm with bits := fun b =>
    if b = index / 8 then bm.bits b ||| (1#8 <<< (index % 8)) else bm.bits b }

/-- `bitmap_clear`. -/
def clear (index : ℕ) : Bitmap :=
  if bm.size ≤ index then bm
  else { bm with bits := fun b =>
    if b = index / 8 then bm.bits b &&& ~~~(1#8 <<< (index % 8)) else bm.bits b }

/-- `bitmap_test`. -/
def test (index : ℕ) : Bool :=
  if bm.size ≤ index then true else (bm.bits (index / 8) >>> (index % 8)) &&& 1#8 ≠ 0#8

/-- The loop of `bitmap_find_first_clear`: `n` bits from `i` on. -/
def findLoop : ℕ → ℕ → Option ℕ
  | 0, _ => none
  | n + 1, i => if bm.test i = false then some i else findLoop n (i + 1)

/-- `bitmap_find_first_clear`; `none` is `(uint64_t)-1`. -/
def findFirstClear : Option ℕ := bm.findLoop bm.size 0

end Bitmap

/-! ## The allocator -/

/-- The globals of `pmm_allocator_bitmap.c`. -/
structure State where
  bitmap : Bitmap
  managedPages : ℕ
  freePages : ℕ

/-- Before `bitmap_allocator_init`. -/
def unset : State := ⟨⟨fun _ => 0#8, 0⟩, 0, 0⟩

/-- `page_align_up`. -/
def pageAlignUp (addr : ℕ) : ℕ := (addr + (pageSize - 1)) % 2 ^ 64 / pageSize * pageSize

/-- `page_align_down`. -/
def pageAlignDown (addr : ℕ) : ℕ := addr / pageSize * pageSize

namespace State

variable (s : State)

/-- The page is free. -/
def isFree (page : ℕ) : Prop := page < s.managedPages ∧ s.bitmap.test page = false

instance (page : ℕ) : Decidable (s.isFree page) := inferInstanceAs (Decidable (_ ∧ _))

/-- `bitmap_allocator_init`; `none` is the result -1. -/
def init (pages : ℕ) : Option State :=
  if maxPages < pages then none
  else
    some { bitmap := { (Bitmap.mk s.bitmap.bits maxPages).setAll true with size := pages }
           managedPages := pages, freePages := 0 }

/-- One page of `bitmap_mark_used`. -/
def usePage (page : ℕ) : State :=
  if s.bitmap.test page = false then
    { s with bitmap := s.bitmap.set page
             freePages := if 0 < s.freePages then s.freePages - 1 else s.freePages }
  else s

/-- The loop of `bitmap_mark_used`: `n` pages from `page` on. -/
def useLoop : ℕ → ℕ → State → State
  | 0, _, s => s
  | n + 1, page, s => if s.managedPages ≤ page then s else useLoop n (page + 1) (s.usePage page)

/-- `bitmap_mark_used`. -/
def markUsed (start stop : ℕ) : State :=
  let first := pageAlignDown start / pageSize
  let last := min (pageAlignUp stop / pageSize) s.managedPages
  useLoop (last - first) first s

/-- One page of `bitmap_mark_free`. -/
def releasePage (page : ℕ) : State :=
  if s.bitmap.test page = true then
    { s with bitmap := s.bitmap.clear page, freePages := (s.freePages + 1) % 2 ^ 64 }
  else s

/-- The loop of `bitmap_mark_free`: `n` pages from `page` on. -/
def releaseLoop : ℕ → ℕ → State → State
  | 0, _, s => s
  | n + 1, page, s => if s.managedPages ≤ page then s else releaseLoop n (page + 1) (s.releasePage page)

/-- `bitmap_mark_free`. -/
def markFree (start stop : ℕ) : State :=
  let first := pageAlignUp start / pageSize
  let last := min (pageAlignDown stop / pageSize) s.managedPages
  releaseLoop (last - first) first s

/-- `bitmap_alloc_page`. -/
def allocPage : ℕ × State :=
  match s.bitmap.findFirstClear with
  | none => (invalidAddr, s)
  | some page =>
    (page * pageSize % 2 ^ 64,
      { s with bitmap := s.bitmap.set page, freePages := (s.freePages + (2 ^ 64 - 1)) % 2 ^ 64 })

/-- `bitmap_free_page`. -/
def freePage (page : ℕ) : State :=
  if page = invalidAddr then s
  else if page % pageSize ≠ 0 then s
  else if s.managedPages ≤ page / pageSize then s
  else s.releasePage (page / pageSize)

end State

/-! ## `init_pmm` -/

/-- The fields of `boot_info_t` that `init_pmm` reads. -/
structure BootInfo where
  magic : ℕ
  memoryMap : ℕ
  memoryMapSize : ℕ
  descriptorSize : ℕ

/-- `CSOS_BOOT_INFO_MAGIC`. -/
abbrev bootInfoMagic : ℕ := 0xC505B007
/-- `CSOS_BOOT_INFO_ADDR`. -/
abbrev bootInfoAddr : ℕ := 0x40000

/-- The fields of `memory_descriptor_t` that `init_pmm` reads. -/
structure Descriptor where
  type : ℕ
  physicalStart : ℕ
  numberOfPages : ℕ
  deriving DecidableEq

/-- The descriptor at an address. -/
def descriptorAt (mem : Bytes) (ptr : ℕ) : Descriptor :=
  ⟨Bytes.load 4 mem ptr, Bytes.load 8 mem (ptr + 8), Bytes.load 8 mem (ptr + 24)⟩

/-- `region_is_usable`: conventional memory, boot services code and data. -/
def regionIsUsable (type : ℕ) : Bool := type = 7 ∨ type = 3 ∨ type = 4

/-- The end of a region. -/
def Descriptor.regionEnd (d : Descriptor) : ℕ :=
  (d.physicalStart + d.numberOfPages * pageSize % 2 ^ 64) % 2 ^ 64

/-- The loop `while (ptr < end)` of `init_pmm`: what it does to `acc` with
each descriptor. `descriptor_size` is not 0, so that `fuel` may be the size
of the map. -/
def overMap {α : Type} (mem : Bytes) (step stop : ℕ) (f : α → Descriptor → α) : ℕ → ℕ → α → α
  | 0, _, acc => acc
  | fuel + 1, ptr, acc =>
    if ptr < stop then
      overMap mem step stop f fuel ((ptr + step) % 2 ^ 64) (f acc (descriptorAt mem ptr))
    else acc

/-- The first pass: the largest end of a usable region. -/
def growEnd (maxEnd : ℕ) (d : Descriptor) : ℕ :=
  if regionIsUsable d.type ∧ maxEnd < d.regionEnd then d.regionEnd else maxEnd

/-- The second pass: usable regions are marked free. -/
def releaseRegion (s : State) (d : Descriptor) : State :=
  if regionIsUsable d.type then s.markFree d.physicalStart d.regionEnd else s

/-- `init_pmm`, with the linker symbols `__bootstrap_start` and
`__kernel_phys_end`; `none` if it fails. -/
def initPmm (s : State) (mem : Bytes) (boot : BootInfo) (bootstrapStart kernelPhysEnd : ℕ) :
    Option State :=
  if boot.magic ≠ bootInfoMagic ∨ boot.descriptorSize = 0 then none
  else
    let stop := (boot.memoryMap + boot.memoryMapSize) % 2 ^ 64
    let maxEnd := min (overMap mem boot.descriptorSize stop growEnd boot.memoryMapSize
      boot.memoryMap 0) maxPhys
    match s.init (maxEnd / pageSize) with
    | none => none
    | some s =>
      let s := overMap mem boot.descriptorSize stop releaseRegion boot.memoryMapSize boot.memoryMap s
      let s := s.markUsed 0 pageSize
      let s := s.markUsed (pageAlignDown bootstrapStart) (pageAlignUp kernelPhysEnd)
      let s := s.markUsed bootInfoAddr (bootInfoAddr + pageSize)
      some (s.markUsed boot.memoryMap stop)

end Pmm

end Csos

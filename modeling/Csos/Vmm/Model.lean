import Mathlib.Tactic
/-!
# Virtual memory — the model

`vmm.c`: the four-level page tables `map_page` builds, and the walk the
processor makes through them. Entries and addresses are 64-bit words. A
table is a page of 512 entries, and page tables are reached by their
physical address, which the identity map makes a pointer; `0` is `NULL`.
-/

namespace Csos

namespace Vmm

/-- A 64-bit word: an address or a page-table entry. -/
abbrev Word := BitVec 64

/-- A table has entries. -/
instance neZero_entries : NeZero 512 := ⟨by decide⟩

/-- `PTE_PRESENT`. -/
abbrev ptePresent : Word := BitVec.twoPow 64 0
/-- `PTE_WRITABLE`. -/
abbrev pteWritable : Word := BitVec.twoPow 64 1
/-- `PTE_USER`. -/
abbrev pteUser : Word := BitVec.twoPow 64 2
/-- `PTE_WRITE_THROUGH`. -/
abbrev pteWriteThrough : Word := BitVec.twoPow 64 3
/-- `PTE_CACHE_DISABLE`. -/
abbrev pteCacheDisable : Word := BitVec.twoPow 64 4
/-- `PTE_ACCESSED`. -/
abbrev pteAccessed : Word := BitVec.twoPow 64 5
/-- `PTE_DIRTY`. -/
abbrev pteDirty : Word := BitVec.twoPow 64 6
/-- `PTE_HUGE`. -/
abbrev pteHuge : Word := BitVec.twoPow 64 7
/-- `PTE_GLOBAL`. -/
abbrev pteGlobal : Word := BitVec.twoPow 64 8
/-- `PTE_NX`. -/
abbrev pteNx : Word := BitVec.twoPow 64 63
/-- `PTE_ADDR_MASK`. -/
abbrev pteAddrMask : Word := 0x000FFFFFFFFFF000#64
/-- `PAGE_SIZE - 1`. -/
abbrev pageOffMask : Word := 0xFFF#64

/-- Every flag `vmm.h` names. -/
abbrev pteFlags : Word :=
  ptePresent ||| pteWritable ||| pteUser ||| pteWriteThrough ||| pteCacheDisable ||| pteAccessed |||
    pteDirty ||| pteHuge ||| pteGlobal ||| pteNx

/-- Page-table memory, by page address and entry index, and `kernel_pml4`. -/
structure State where
  mem : Word → Fin 512 → Word
  pml4 : Word

/-- `table[index] = e`. -/
def State.set (s : State) (table : Word) (index : Fin 512) (e : Word) : State :=
  { s with mem := fun t i => if t = table ∧ i = index then e else s.mem t i }

/-- `kernel_memset(page, 0, PAGE_SIZE)`. -/
def State.clear (s : State) (page : Word) : State :=
  { s with mem := fun t i => if t = page then 0 else s.mem t i }

/-- `pte_addr`. -/
def pteAddr (entry : Word) : Word := entry &&& pteAddrMask

/-- `table_from_entry`. -/
def tableFromEntry (entry : Word) : Word :=
  if entry &&& ptePresent = 0 then 0 else pteAddr entry

/-- `get_or_alloc_table`. `alloc_page` is answered from `supply`; a call
that finds it empty is not a run (`none`). The result is the table, `0`
for `NULL`. -/
def getOrAllocTable (s : State) (supply : List Word) (parent : Word) (index : Fin 512) :
    Option (Word × List Word × State) :=
  if s.mem parent index &&& ptePresent ≠ 0 then
    if s.mem parent index &&& pteHuge ≠ 0 then some (0, supply, s)
    else some (tableFromEntry (s.mem parent index), supply, s)
  else
    match supply with
    | [] => none
    | page :: supply =>
      if page = 0 then some (0, supply, s)
      else some (page, supply,
        (s.clear page).set parent index (page ||| ptePresent ||| pteWritable))

/-- The nine bits of `vaddr` from `sh` on. -/
def index (vaddr : Word) (sh : ℕ) : Fin 512 := Fin.ofNat 512 (vaddr >>> sh).toNat

/-- `entry |= PTE_USER`. -/
def State.setUser (s : State) (table : Word) (index : Fin 512) : State :=
  s.set table index (s.mem table index ||| pteUser)

/-- `map_page`: `0` on success and `-1` on failure. -/
def mapPage (s : State) (supply : List Word) (vaddr paddr flags : Word) : Option (ℤ × State) :=
  if s.pml4 = 0 then some (-1, s)
  else if (vaddr ||| paddr) &&& pageOffMask ≠ 0 then some (-1, s)
  else
    let flags := (flags ||| ptePresent) &&& ~~~pteHuge
    match getOrAllocTable s supply s.pml4 (index vaddr 39) with
    | none => none
    | some (pdpt, supply, s) =>
      if pdpt = 0 then some (-1, s)
      else
        match getOrAllocTable s supply pdpt (index vaddr 30) with
        | none => none
        | some (pd, supply, s) =>
          if pd = 0 then some (-1, s)
          else
            match getOrAllocTable s supply pd (index vaddr 21) with
            | none => none
            | some (pt, _, s) =>
              if pt = 0 then some (-1, s)
              else
                let s :=
                  if flags &&& pteUser ≠ 0 then
                    ((s.setUser s.pml4 (index vaddr 39)).setUser pdpt (index vaddr 30)).setUser pd
                      (index vaddr 21)
                  else s
                some (0, s.set pt (index vaddr 12) ((paddr &&& pteAddrMask) ||| flags))

/-! ## The walk -/

/-- What a translation gives: the physical page, the flags of the leaf
entry, and whether user mode may use it. -/
structure Translation where
  page : Word
  flags : Word
  user : Bool
  deriving DecidableEq

/-- The entry is present and leads to a table of the next level. -/
def leads (e : Word) : Bool := e &&& ptePresent ≠ 0 ∧ e &&& pteHuge = 0

/-- The four-level walk from `kernel_pml4`; the user bit is the
conjunction of `PTE_USER` over the four levels. -/
def translate (s : State) (v : Word) : Option Translation :=
  let e4 := s.mem s.pml4 (index v 39)
  let e3 := s.mem (pteAddr e4) (index v 30)
  let e2 := s.mem (pteAddr e3) (index v 21)
  let e1 := s.mem (pteAddr e2) (index v 12)
  if leads e4 ∧ leads e3 ∧ leads e2 ∧ e1 &&& ptePresent ≠ 0 then
    some ⟨pteAddr e1, e1 &&& ~~~pteAddrMask, (e4 &&& e3 &&& e2 &&& e1 &&& pteUser) ≠ 0⟩
  else none

end Vmm

end Csos

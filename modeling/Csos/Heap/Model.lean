import Csos.Common.Bytes
/-!
# Kernel heap — the model

`heap.c`: a first-fit allocator over an address-ordered free list,
threaded through 32-byte block headers that live in the managed memory
itself. Memory is a byte function, pointers are addresses below `2 ^ 64`
with `0` for `NULL`, and every header access is the load or the store the
C field access compiles to.

A list traversal of the source is a loop on a pointer. It is run here
with `listFuel` steps and gives `none` when these do not suffice: the
loops change no memory, so one that has visited more nodes than there are
addresses never ends.
-/

namespace Csos

namespace Heap

/-- `PAGE_SIZE`. -/
abbrev pageSize : ℕ := 4096
/-- `HEAP_MAGIC`. -/
abbrev heapMagic : ℕ := 0x48454150
/-- `HEAP_ALIGN`. -/
abbrev heapAlign : ℕ := 16
/-- `HEAP_INIT_PAGES`. -/
abbrev heapInitPages : ℕ := 4
/-- `sizeof(heap_block_t)`. -/
abbrev hdrSize : ℕ := 32
/-- `HEAP_MIN_TOTAL`. -/
abbrev heapMinTotal : ℕ := hdrSize + heapAlign
/-- One past the largest address, and the modulus of `size_t`. -/
abbrev addrTop : ℕ := 2 ^ 64

/-- More steps than there are addresses. -/
def listFuel : ℕ := 2 ^ 64 + 1

/-! ## Block headers

`heap_block_t` is `size` at 0, `magic` at 8, `used` at 12, `next_free` at
16 and `_pad` at 24. -/

def size (m : Bytes) (b : ℕ) : ℕ := m.load 8 b
def magic (m : Bytes) (b : ℕ) : ℕ := m.load 4 (b + 8)
def used (m : Bytes) (b : ℕ) : ℕ := m.load 4 (b + 12)
def nextFree (m : Bytes) (b : ℕ) : ℕ := m.load 8 (b + 16)

def setSize (m : Bytes) (b v : ℕ) : Bytes := m.store 8 b v
def setMagic (m : Bytes) (b v : ℕ) : Bytes := m.store 4 (b + 8) v
def setUsed (m : Bytes) (b v : ℕ) : Bytes := m.store 4 (b + 12) v
def setNextFree (m : Bytes) (b v : ℕ) : Bytes := m.store 8 (b + 16) v
def setPad (m : Bytes) (b v : ℕ) : Bytes := m.store 8 (b + 24) v

/-- The allocator's state: memory and `free_head`. `pages` is a history
variable, the pages `heap_add_page` has taken over. -/
structure State where
  mem : Bytes
  freeHead : ℕ
  pages : List ℕ

/-- `align_up`, for a power of two: the mask of the source clears the low
bits. -/
def alignUp (value align : ℕ) : ℕ := (value + align - 1) % addrTop / align * align

/-- `payload_to_block`. -/
def payloadToBlock (ptr : ℕ) : ℕ := (ptr + addrTop - hdrSize) % addrTop

/-- `block_valid`. -/
def blockValid (m : Bytes) (block : ℕ) : Bool :=
  block ≠ 0 ∧ magic m block = heapMagic ∧ ¬ size m block < heapMinTotal

/-- `block_payload`. -/
def blockPayload (block : ℕ) : ℕ := (block + hdrSize) % addrTop

/-! ## The free list -/

/-- The search loop of `freelist_insert`: the last block below `block`
and the first one not below it. -/
def insertScan (m : Bytes) (block : ℕ) : ℕ → ℕ → ℕ → Option (ℕ × ℕ)
  | 0, _, _ => none
  | fuel + 1, prev, cur =>
    if cur ≠ 0 ∧ cur < block then insertScan m block fuel cur (nextFree m cur)
    else some (prev, cur)

/-- The merge with the following block. -/
def mergeNext (m : Bytes) (block cur : ℕ) : Bytes :=
  if cur ≠ 0 ∧ (block + size m block) % addrTop = cur then
    let m₁ := setSize m block ((size m block + size m cur) % addrTop)
    let m₂ := setNextFree m₁ block (nextFree m₁ cur)
    setMagic m₂ cur 0
  else m

/-- The merge with the preceding block. -/
def mergePrev (m : Bytes) (prev block : ℕ) : Bytes :=
  if prev ≠ 0 ∧ (prev + size m prev) % addrTop = block then
    let m₁ := setSize m prev ((size m prev + size m block) % addrTop)
    let m₂ := setNextFree m₁ prev (nextFree m₁ block)
    setMagic m₂ block 0
  else m

/-- `freelist_insert`. -/
def freelistInsert (s : State) (block : ℕ) : Option State :=
  let m₁ := setUsed s.mem block 0
  let m₂ := setNextFree m₁ block 0
  match insertScan m₂ block listFuel 0 s.freeHead with
  | none => none
  | some (prev, cur) =>
    let head := if prev = 0 then block else s.freeHead
    let m₃ := if prev = 0 then m₂ else setNextFree m₂ prev block
    let m₄ := setNextFree m₃ block cur
    let m₅ := mergeNext m₄ block cur
    let m₆ := mergePrev m₅ prev block
    some { s with mem := m₆, freeHead := head }

/-- `heap_add_page`, with the answer of `alloc_page`. The flag is whether
the call returned a block. -/
def heapAddPage (s : State) (page : ℕ) : Option (Bool × State) :=
  if page = 0 then some (false, s)
  else
    let m₁ := setSize s.mem page pageSize
    let m₂ := setMagic m₁ page heapMagic
    let m₃ := setUsed m₂ page 0
    let m₄ := setNextFree m₃ page 0
    let m₅ := setPad m₄ page 0
    match freelistInsert { s with mem := m₅, pages := page :: s.pages } page with
    | none => none
    | some s' => some (true, s')

/-- The loop of `freelist_find_fit`; `0` when nothing fits. -/
def findFitLoop (m : Bytes) (needTotal : ℕ) : ℕ → ℕ → Option ℕ
  | 0, _ => none
  | fuel + 1, cur =>
    if cur = 0 then some 0
    else if used m cur = 0 ∧ needTotal ≤ size m cur then some cur
    else findFitLoop m needTotal fuel (nextFree m cur)

/-- `freelist_find_fit`. -/
def freelistFindFit (s : State) (needTotal : ℕ) : Option ℕ :=
  findFitLoop s.mem needTotal listFuel s.freeHead

/-- The search loop of `freelist_remove`. -/
def removeScan (m : Bytes) (block : ℕ) : ℕ → ℕ → ℕ → Option (ℕ × ℕ)
  | 0, _, _ => none
  | fuel + 1, prev, cur =>
    if cur ≠ 0 ∧ cur ≠ block then removeScan m block fuel cur (nextFree m cur)
    else some (prev, cur)

/-- `freelist_remove`. -/
def freelistRemove (s : State) (block : ℕ) : Option State :=
  match removeScan s.mem block listFuel 0 s.freeHead with
  | none => none
  | some (prev, cur) =>
    if cur = 0 then some s
    else
      let next := nextFree s.mem block
      let head := if prev = 0 then next else s.freeHead
      let m₁ := if prev = 0 then s.mem else setNextFree s.mem prev next
      some { s with mem := setNextFree m₁ block 0, freeHead := head }

/-! ## Growing, splitting and the interface

`alloc_page` is answered from a list of addresses given with the call;
a call that asks for more of them than there are is not a run (`none`). -/

/-- The page count `heap_expand` computes. -/
def expandPages (needTotal : ℕ) : ℕ :=
  let pages := (needTotal + pageSize - 1) % addrTop / pageSize
  if pages = 0 then 1 else pages

/-- The loop of `heap_expand` and of `init_heap`: `n` pages, stopping at
the first that fails. The flag is whether all were added. -/
def addPages : ℕ → List ℕ → State → Option (Bool × State)
  | 0, _, s => some (true, s)
  | _ + 1, [], _ => none
  | n + 1, page :: supply, s =>
    match heapAddPage s page with
    | none => none
    | some (false, s') => some (false, s')
    | some (true, s') => addPages n supply s'

/-- `heap_expand`. -/
def heapExpand (s : State) (supply : List ℕ) (needTotal : ℕ) : Option (Bool × State) :=
  addPages (expandPages needTotal) supply s

/-- `block_split`. -/
def blockSplit (s : State) (block needTotal : ℕ) : Option State :=
  if size s.mem block < (needTotal + heapMinTotal) % addrTop then some s
  else
    let remain := size s.mem block - needTotal
    let m₁ := setSize s.mem block needTotal
    let rest := (block + needTotal) % addrTop
    let m₂ := setSize m₁ rest remain
    let m₃ := setMagic m₂ rest heapMagic
    let m₄ := setUsed m₃ rest 0
    let m₅ := setNextFree m₄ rest 0
    let m₆ := setPad m₅ rest 0
    freelistInsert { s with mem := m₆ } rest

/-- `init_heap`, on memory as the boot code left it. -/
def initHeap (m : Bytes) (supply : List ℕ) : Option State :=
  match addPages heapInitPages supply { mem := m, freeHead := 0, pages := [] } with
  | none => none
  | some (_, s) => some s

/-- The total `kmalloc` needs for a request. -/
def needTotal (sz : ℕ) : ℕ :=
  let need := alignUp ((hdrSize + sz) % addrTop) heapAlign
  if need < heapMinTotal then heapMinTotal else need

/-- The part of `kmalloc` after a fitting block is found. -/
def takeBlock (s : State) (block need : ℕ) : Option (ℕ × State) :=
  match freelistRemove s block with
  | none => none
  | some s₁ =>
    match blockSplit s₁ block need with
    | none => none
    | some s₂ =>
      let m := setNextFree (setUsed s₂.mem block 1) block 0
      some (blockPayload block, { s₂ with mem := m })

/-- `kmalloc`; the pointer `0` is `NULL`. -/
def kmalloc (s : State) (supply : List ℕ) (sz : ℕ) : Option (ℕ × State) :=
  if sz = 0 then some (0, s)
  else
    match freelistFindFit s (needTotal sz) with
    | none => none
    | some block =>
      if block ≠ 0 then takeBlock s block (needTotal sz)
      else
        match heapExpand s supply (needTotal sz) with
        | none => none
        | some (false, s₁) => some (0, s₁)
        | some (true, s₁) =>
          match freelistFindFit s₁ (needTotal sz) with
          | none => none
          | some block => if block = 0 then some (0, s₁) else takeBlock s₁ block (needTotal sz)

/-- `kfree`. An invalid pointer is reported and ignored. -/
def kfree (s : State) (ptr : ℕ) : Option State :=
  if ptr = 0 then some s
  else
    let block := payloadToBlock ptr
    if ¬ blockValid s.mem block ∨ used s.mem block = 0 then some s
    else freelistInsert s block

end Heap

end Csos

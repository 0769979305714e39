import Csos.Common.Bytes
import Csos.Vfs.Model
/-!
# The device file system — block devices

`devfs_block_read` and `devfs_block_write`: a request for bytes is split into an
unaligned head, whole blocks and an unaligned tail. What `kmalloc` gives and what
the calls of the device return is told by an oracle; a call that succeeds moves
all its blocks, one that fails moves none. Offsets are 64 bits wide, the lengths
of copies 32, as in the source.
-/

namespace Csos

namespace Devfs

open Vfs

/-- The fields of a `vdev_t` that the two functions use; whether it has the
operations stands for the pointers to them. -/
structure BlockDev where
  blockSize : ℕ
  nblocks : ℕ
  reads : Bool
  writes : Bool

/-- What the device returns to its `i`-th call, and what the `i`-th `kmalloc`
gives. -/
structure World where
  rc : ℕ → ℤ
  mem : ℕ → Option Bytes

/-- The bytes of the device, with the calls and the allocations so far. -/
structure Io where
  data : Bytes
  calls : ℕ
  allocs : ℕ

/-- `kmalloc`. -/
def kmalloc (w : World) (s : Io) : Option Bytes × Io := (w.mem s.allocs, { s with allocs := s.allocs + 1 })

/-- `read_blocks` into the buffer `dst` at the offset `p`. -/
def readBlocks (w : World) (d : BlockDev) (lba count : ℕ) (dst : Bytes) (p : ℕ) (s : Io) :
    ℤ × Bytes × Io :=
  (w.rc s.calls,
    if w.rc s.calls = 0 then dst.blit p (count * d.blockSize) (s.data.shift (lba * d.blockSize)) else dst,
    { s with calls := s.calls + 1 })

/-- `write_blocks` from the buffer `src`. -/
def writeBlocks (w : World) (d : BlockDev) (lba count : ℕ) (src : Bytes) (s : Io) : ℤ × Io :=
  (w.rc s.calls,
    { s with
      data := if w.rc s.calls = 0 then s.data.blit (lba * d.blockSize) (count * d.blockSize) src else s.data
      calls := s.calls + 1 })

/-- `(int64_t)`. -/
def toInt64 (n : ℕ) : ℤ := if n < 2 ^ 63 then n else n - 2 ^ 64

/-- A request on its way: the position of the file, the bytes done and those
left, the buffer, and the device. -/
structure Xfer where
  pos : ℕ
  done : ℕ
  len : ℕ
  buf : Bytes
  io : Io

/-- `n` more bytes are done. -/
def Xfer.advance (r : Xfer) (n : ℕ) : Xfer :=
  { r with pos := (r.pos + n) % 2 ^ 64, done := (r.done + n) % 2 ^ 64, len := r.len - n }

/-- `return done ? (int64_t)done : (int64_t)rc`. -/
def Xfer.fail (r : Xfer) (rc : ℤ) : Option ℤ × Xfer := (some (if r.done ≠ 0 then toInt64 r.done else rc), r)

/-- The next part of a request, unless it has returned. -/
def andThen (x : Option ℤ × Xfer) (f : Xfer → Option ℤ × Xfer) : Option ℤ × Xfer :=
  match x.1 with
  | some rc => (some rc, x.2)
  | none => f x.2

/-- `if (len == 0) return (int64_t)done`. -/
def Xfer.checkDone (r : Xfer) : Option ℤ × Xfer := (if r.len = 0 then some (toInt64 r.done) else none, r)

section

variable (w : World) (d : BlockDev)

/-! ## Reading -/

/-- The head of `devfs_block_read`. -/
def readHead (r : Xfer) : Option ℤ × Xfer :=
  if r.pos % d.blockSize = 0 then (none, r)
  else
    let off := r.pos % d.blockSize
    let chunk := if r.len < d.blockSize - off then r.len else d.blockSize - off
    let m := kmalloc w r.io
    match m.1 with
    | none => (some errNomem, { r with io := m.2 })
    | some tmp =>
      let t := readBlocks w d (r.pos / d.blockSize) 1 tmp 0 m.2
      let r := { r with io := t.2.2 }
      if t.1 ≠ 0 then r.fail t.1
      else Xfer.checkDone (Xfer.advance
        { r with buf := r.buf.blit r.done (chunk % 2 ^ 32) (t.2.1.shift off) } chunk)

/-- The loop of `devfs_block_read` over whole blocks, `n` of them from `lba` on;
every turn takes at least one. -/
def readLoop : ℕ → ℕ → ℕ → Xfer → Option ℤ × Xfer
  | 0, _, _, r => (none, r)
  | fuel + 1, n, lba, r =>
    if n = 0 then (none, r)
    else
      let cur := if 128 < n then 128 else n
      let t := readBlocks w d lba cur r.buf r.done r.io
      let r := { r with buf := t.2.1, io := t.2.2 }
      if t.1 ≠ 0 then r.fail t.1
      else readLoop fuel (n - cur) ((lba + cur) % 2 ^ 64) (r.advance (cur * d.blockSize))

/-- The whole blocks of `devfs_block_read`. -/
def readMiddle (r : Xfer) : Option ℤ × Xfer :=
  if d.blockSize ≤ r.len then
    let n := r.len / d.blockSize % 2 ^ 32
    andThen (readLoop w d n n (r.pos / d.blockSize) r) Xfer.checkDone
  else (none, r)

/-- The tail of `devfs_block_read`. -/
def readTail (r : Xfer) : Option ℤ × Xfer :=
  if 0 < r.len then
    let m := kmalloc w r.io
    match m.1 with
    | none => Xfer.fail { r with io := m.2 } errNomem
    | some tmp =>
      let t := readBlocks w d (r.pos / d.blockSize) 1 tmp 0 m.2
      let r := { r with io := t.2.2 }
      if t.1 ≠ 0 then r.fail t.1
      else (none, Xfer.advance { r with buf := r.buf.blit r.done (r.len % 2 ^ 32) t.2.1 } r.len)
  else (none, r)

/-- `devfs_block_read`, with the position of the file and the buffer afterwards. -/
def devfsBlockRead (pos : ℕ) (buf : Bytes) (len : ℕ) (io : Io) : ℤ × Xfer :=
  let size := d.nblocks * d.blockSize % 2 ^ 64
  let r : Xfer := ⟨pos, 0, len, buf, io⟩
  if d.reads = false then (errNotsup, r)
  else if d.blockSize = 0 then (errInval, r)
  else if len = 0 then (0, r)
  else if size ≤ pos then (0, r)
  else
    let r := { r with len := if size - pos < len then size - pos else len }
    let x := andThen (andThen (readHead w d r) (readMiddle w d)) (readTail w d)
    (x.1.getD (toInt64 x.2.done), x.2)

/-! ## Writing -/

/-- The head of `devfs_block_write`: the block is read, changed and written. -/
def writeHead (r : Xfer) : Option ℤ × Xfer :=
  if r.pos % d.blockSize = 0 then (none, r)
  else
    let off := r.pos % d.blockSize
    let chunk := if r.len < d.blockSize - off then r.len else d.blockSize - off
    let m := kmalloc w r.io
    match m.1 with
    | none => (some errNomem, { r with io := m.2 })
    | some tmp =>
      let t := readBlocks w d (r.pos / d.blockSize) 1 tmp 0 m.2
      if t.1 ≠ 0 then (some t.1, { r with io := t.2.2 })
      else
        let tmp := t.2.1.blit off (chunk % 2 ^ 32) (r.buf.shift r.done)
        let u := writeBlocks w d (r.pos / d.blockSize) 1 tmp t.2.2
        let r := { r with io := u.2 }
        if u.1 ≠ 0 then r.fail u.1 else (r.advance chunk).checkDone

/-- The loop of `devfs_block_write` over whole blocks. -/
def writeLoop : ℕ → ℕ → ℕ → Xfer → Option ℤ × Xfer
  | 0, _, _, r => (none, r)
  | fuel + 1, n, lba, r =>
    if n = 0 then (none, r)
    else
      let cur := if 128 < n then 128 else n
      let u := writeBlocks w d lba cur (r.buf.shift r.done) r.io
      let r := { r with io := u.2 }
      if u.1 ≠ 0 then r.fail u.1
      else writeLoop fuel (n - cur) ((lba + cur) % 2 ^ 64) (r.advance (cur * d.blockSize))

/-- The whole blocks of `devfs_block_write`. -/
def writeMiddle (r : Xfer) : Option ℤ × Xfer :=
  if d.blockSize ≤ r.len then
    let n := r.len / d.blockSize % 2 ^ 32
    andThen (writeLoop w d n n (r.pos / d.blockSize) r) Xfer.checkDone
  else (none, r)

/-- The tail of `devfs_block_write`. -/
def writeTail (r : Xfer) : Option ℤ × Xfer :=
  if 0 < r.len then
    let m := kmalloc w r.io
    match m.1 with
    | none => Xfer.fail { r with io := m.2 } errNomem
    | some tmp =>
      let t := readBlocks w d (r.pos / d.blockSize) 1 tmp 0 m.2
      if t.1 ≠ 0 then Xfer.fail { r with io := t.2.2 } t.1
      else
        let tmp := t.2.1.blit 0 (r.len % 2 ^ 32) (r.buf.shift r.done)
        let u := writeBlocks w d (r.pos / d.blockSize) 1 tmp t.2.2
        let r := { r with io := u.2 }
        if u.1 ≠ 0 then r.fail u.1 else (none, r.advance r.len)
  else (none, r)

/-- `devfs_block_write`. What a flush at the end returns is not looked at, and it
changes no byte. -/
def devfsBlockWrite (pos : ℕ) (buf : Bytes) (len : ℕ) (io : Io) : ℤ × Xfer :=
  let size := d.nblocks * d.blockSize % 2 ^ 64
  let r : Xfer := ⟨pos, 0, len, buf, io⟩
  if d.writes = false then (errNotsup, r)
  else if d.blockSize = 0 then (errInval, r)
  else if len = 0 then (0, r)
  else if size ≤ pos then (errNospc, r)
  else
    let r := { r with len := if size - pos < len then size - pos else len }
    let x := andThen (andThen (writeHead w d r) (writeMiddle w d)) (writeTail w d)
    (x.1.getD (toInt64 x.2.done), x.2)

end

end Devfs

end Csos

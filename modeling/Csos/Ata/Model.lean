import Mathlib.Tactic
/-!
# The ATA driver — the model

`ata_pio.c` from the side of the ports. A port read is answered by the device,
which may answer anything; what the driver writes to the ports, and the blocks
it moves through the data port, are logged in order. A buffer is named by its
address. The lock, the pauses between two reads of the status and the probing
of the drives are left out.
-/

namespace Csos

namespace Ata

/-- `ATA_SECTOR_SIZE`. -/
abbrev sectorSize : ℕ := 512
/-- `ATA_MAX_DRIVES`. -/
abbrev maxDrives : ℕ := 4
/-- `CLAMP_MAX_SECTORS`. -/
abbrev clampMaxSectors : ℕ := 256
/-- `PIO_TIMEOUT`. -/
abbrev pioTimeout : ℕ := 1000000

/-- `ATA_ERR_IO`. -/
abbrev errIo : ℤ := -1
/-- `ATA_ERR_NODEV`. -/
abbrev errNodev : ℤ := -2
/-- `ATA_ERR_INVAL`. -/
abbrev errInval : ℤ := -3
/-- `ATA_ERR_TIMEOUT`. -/
abbrev errTimeout : ℤ := -4

/-- `ST_ERR`. -/
abbrev stErr : ℕ := 0x01
/-- `ST_DRQ`. -/
abbrev stDrq : ℕ := 0x08
/-- `ST_DF`. -/
abbrev stDf : ℕ := 0x20
/-- `ST_BSY`. -/
abbrev stBsy : ℕ := 0x80

/-- `CMD_READ_PIO`. -/
abbrev cmdReadPio : ℕ := 0x20
/-- `CMD_READ_PIO_EXT`. -/
abbrev cmdReadPioExt : ℕ := 0x24
/-- `CMD_WRITE_PIO`. -/
abbrev cmdWritePio : ℕ := 0x30
/-- `CMD_WRITE_PIO_EXT`. -/
abbrev cmdWritePioExt : ℕ := 0x34
/-- `CMD_FLUSH`. -/
abbrev cmdFlush : ℕ := 0xe7
/-- `CMD_FLUSH_EXT`. -/
abbrev cmdFlushExt : ℕ := 0xea

/-! ## Ports -/

/-- `REG_DATA`. -/
def regData (io : ℕ) : ℕ := io % 2 ^ 16
/-- `REG_FEAT`. -/
def regFeat (io : ℕ) : ℕ := (io + 1) % 2 ^ 16
/-- `REG_COUNT`. -/
def regCount (io : ℕ) : ℕ := (io + 2) % 2 ^ 16
/-- `REG_LBA_LO`. -/
def regLbaLo (io : ℕ) : ℕ := (io + 3) % 2 ^ 16
/-- `REG_LBA_MID`. -/
def regLbaMid (io : ℕ) : ℕ := (io + 4) % 2 ^ 16
/-- `REG_LBA_HI`. -/
def regLbaHi (io : ℕ) : ℕ := (io + 5) % 2 ^ 16
/-- `REG_DRIVE`. -/
def regDrive (io : ℕ) : ℕ := (io + 6) % 2 ^ 16
/-- `REG_STATUS`. -/
def regStatus (io : ℕ) : ℕ := (io + 7) % 2 ^ 16
/-- `REG_CMD`. -/
def regCmd (io : ℕ) : ℕ := (io + 7) % 2 ^ 16

/-- What the driver does to the ports, reads of the status apart: a byte
written to a port, or `words` words moved between the data port and the memory
at `addr`. -/
inductive PortOp
  | outb (port byte : ℕ)
  | insw (port addr words : ℕ)
  | outsw (port addr words : ℕ)
  deriving DecidableEq

/-- The ports as the driver sees them: what the device answers to the `i`-th
read of a port, the number of reads so far, and the log of the rest. -/
structure Bus where
  answer : ℕ → ℕ
  reads : ℕ
  log : List PortOp

/-- `inb`. -/
def inb (b : Bus) (_port : ℕ) : ℕ × Bus :=
  (b.answer b.reads % 2 ^ 8, { b with reads := b.reads + 1 })

/-- The bus after one more operation. -/
def Bus.push (b : Bus) (op : PortOp) : Bus := { b with log := b.log ++ [op] }

/-- `outb`, of a byte. -/
def outb (port byte : ℕ) (b : Bus) : Bus := b.push (.outb port (byte % 2 ^ 8))

/-- `pio_delay400ns`: four reads of the alternate status. -/
def pioDelay400ns (ctrl : ℕ) (b : Bus) : Bus :=
  (inb (inb (inb (inb b ctrl).2 ctrl).2 ctrl).2 ctrl).2

/-- The loop of `pio_wait_not_busy`. -/
def waitNotBusyLoop (io : ℕ) : ℕ → Bus → ℤ × Bus
  | 0, b => (errTimeout, b)
  | i + 1, b =>
    let r := inb b (regStatus io)
    if r.1 &&& stBsy = 0 then (0, r.2) else waitNotBusyLoop io i r.2

/-- `pio_wait_not_busy`. -/
def pioWaitNotBusy (io : ℕ) (b : Bus) : ℤ × Bus := waitNotBusyLoop io pioTimeout b

/-- The loop of `pio_wait_drq`. -/
def waitDrqLoop (io : ℕ) : ℕ → Bus → ℤ × Bus
  | 0, b => (errTimeout, b)
  | i + 1, b =>
    let r := inb b (regStatus io)
    if r.1 &&& stBsy = 0 then
      if r.1 &&& stErr ≠ 0 then (errIo, r.2)
      else if r.1 &&& stDf ≠ 0 then (errIo, r.2)
      else if r.1 &&& stDrq ≠ 0 then (0, r.2)
      else waitDrqLoop io i r.2
    else waitDrqLoop io i r.2

/-- `pio_wait_drq`. -/
def pioWaitDrq (io : ℕ) (b : Bus) : ℤ × Bus := waitDrqLoop io pioTimeout b

/-! ## One command -/

/-- `pio_drive_t`, without the model string. The slave bit of a drive is 0
or 1. -/
structure PioDrive where
  present : Bool
  atapi : Bool
  lba48 : Bool
  sectors : ℕ
  io : ℕ
  ctrl : ℕ
  slave : Fin 2

/-- The form of a command: 48-bit from the last sector on that 28 bits reach. -/
def use48 (d : PioDrive) (lba n : ℕ) : Bool := d.lba48 ∧ 0x0fffffff < (lba + n) % 2 ^ 64

/-- The registers of a 48-bit command, each written twice. -/
def setTaskFile48 (d : PioDrive) (lba n : ℕ) (b : Bus) : Bus :=
  let count16 := n % 2 ^ 16
  let b := outb (regDrive d.io) (0x40 ||| (d.slave.val <<< 4)) b
  let b := pioDelay400ns d.ctrl b
  let b := outb (regFeat d.io) 0 b
  let b := outb (regCount d.io) (count16 >>> 8) b
  let b := outb (regLbaLo d.io) (lba >>> 24) b
  let b := outb (regLbaMid d.io) (lba >>> 32) b
  let b := outb (regLbaHi d.io) (lba >>> 40) b
  let b := outb (regCount d.io) count16 b
  let b := outb (regLbaLo d.io) lba b
  let b := outb (regLbaMid d.io) (lba >>> 8) b
  outb (regLbaHi d.io) (lba >>> 16) b

/-- The registers of a 28-bit command. -/
def setTaskFile28 (d : PioDrive) (lba n : ℕ) (b : Bus) : Bus :=
  let count8 := if n = 256 then 0 else n % 2 ^ 8
  let b := outb (regDrive d.io) (0xe0 ||| (d.slave.val <<< 4) ||| ((lba >>> 24) &&& 0x0f)) b
  let b := outb (regFeat d.io) 0 b
  let b := outb (regCount d.io) count8 b
  let b := outb (regLbaLo d.io) lba b
  let b := outb (regLbaMid d.io) (lba >>> 8) b
  outb (regLbaHi d.io) (lba >>> 16) b

/-- The loop over the sectors of a command: `move` is the transfer of one. -/
def moveSectors (move : ℕ → ℕ → ℕ → PortOp) (io : ℕ) : ℕ → ℕ → Bus → ℤ × Bus
  | 0, _, b => (0, b)
  | n + 1, p, b =>
    let r := pioWaitDrq io b
    if r.1 ≠ 0 then r
    else moveSectors move io n (p + sectorSize)
      (r.2.push (move (regData io) p (sectorSize / 2)))

/-- The body that `pio_read_chunk` and `pio_write_chunk` share. -/
def pioChunk (cmd28 cmd48 : ℕ) (move : ℕ → ℕ → ℕ → PortOp) (d : PioDrive) (lba n buf : ℕ)
    (b : Bus) : ℤ × Bus :=
  let r := pioWaitNotBusy d.io b
  if r.1 ≠ 0 then r
  else if use48 d lba n then
    moveSectors move d.io n buf (outb (regCmd d.io) cmd48 (setTaskFile48 d lba n r.2))
  else
    moveSectors move d.io n buf (outb (regCmd d.io) cmd28 (setTaskFile28 d lba n r.2))

/-- `pio_read_chunk`. -/
def pioReadChunk : PioDrive → ℕ → ℕ → ℕ → Bus → ℤ × Bus :=
  pioChunk cmdReadPio cmdReadPioExt .insw

/-- `pio_write_chunk`. -/
def pioWriteChunk : PioDrive → ℕ → ℕ → ℕ → Bus → ℤ × Bus :=
  pioChunk cmdWritePio cmdWritePioExt .outsw

/-- `pio_flush_drive`. -/
def pioFlushDrive (d : PioDrive) (b : Bus) : ℤ × Bus :=
  let r := pioWaitNotBusy d.io b
  if r.1 ≠ 0 then r
  else
    let b := outb (regDrive d.io) (0xa0 ||| (d.slave.val <<< 4)) r.2
    let b := pioDelay400ns d.ctrl b
    pioWaitNotBusy d.io (outb (regCmd d.io) (if d.lba48 then cmdFlushExt else cmdFlush) b)

/-! ## Requests -/

/-- `g_pio_ready` and `g_drives`. -/
structure Pio where
  ready : Bool
  drives : ℕ → PioDrive

/-- `pio_check`; a `buf` of 0 is NULL. -/
def pioCheck (s : Pio) (drive lba sectors buf : ℕ) : ℤ :=
  let d := s.drives drive
  if sectors = 0 ∨ buf = 0 then errInval
  else if maxDrives ≤ drive then errInval
  else if s.ready = false ∨ d.present = false ∨ d.atapi = true then errNodev
  else if d.sectors ≤ lba ∨ d.sectors - lba < sectors then errInval
  else if d.lba48 = false ∧ 0x0fffffff < (lba + sectors) % 2 ^ 64 then errInval
  else 0

/-- The loop that `pio_read_sectors` and `pio_write_sectors` share; every turn
takes at least one sector, so that `fuel` may be their number. -/
def chunkLoop (chunk : ℕ → ℕ → ℕ → Bus → ℤ × Bus) : ℕ → ℕ → ℕ → ℕ → Bus → ℤ × Bus
  | 0, _, _, _, b => (0, b)
  | fuel + 1, lba, p, sectors, b =>
    if 0 < sectors then
      let n := if clampMaxSectors < sectors then clampMaxSectors else sectors
      let r := chunk lba n p b
      if r.1 ≠ 0 then r
      else chunkLoop chunk fuel ((lba + n) % 2 ^ 64) (p + n * sectorSize) (sectors - n) r.2
    else (0, b)

/-- `pio_read_sectors`. -/
def pioReadSectors (s : Pio) (drive lba sectors buf : ℕ) (b : Bus) : ℤ × Bus :=
  let rc := pioCheck s drive lba sectors buf
  if rc ≠ 0 then (rc, b)
  else chunkLoop (pioReadChunk (s.drives drive)) sectors lba buf sectors b

/-- `pio_write_sectors`. -/
def pioWriteSectors (s : Pio) (drive lba sectors buf : ℕ) (b : Bus) : ℤ × Bus :=
  let rc := pioCheck s drive lba sectors buf
  if rc ≠ 0 then (rc, b)
  else
    let r := chunkLoop (pioWriteChunk (s.drives drive)) sectors lba buf sectors b
    if r.1 = 0 then pioFlushDrive (s.drives drive) r.2 else r

end Ata

end Csos

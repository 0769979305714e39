import Csos.Ata.Model
/-!
# The task file

What a drive makes of the bytes it is sent, as the ATA standard has it. The
count and the address registers are two deep: a write moves the byte before it
to the previous content. A 28-bit command takes the current contents and the low
nibble of the drive register, and a count of 0 means 256; a 48-bit command takes
both contents. A command is over when the next one is issued, and the words moved
meanwhile are its sectors, in order.
-/

namespace Csos

namespace Ata

/-- A register of the task file, with its previous content. -/
structure Deep where
  cur : ℕ
  prev : ℕ

/-- A byte is written to a register. -/
def Deep.write (r : Deep) (byte : ℕ) : Deep := ⟨byte, r.cur⟩

/-- The task file. -/
structure TaskFile where
  count : Deep
  lo : Deep
  mid : Deep
  hi : Deep
  drive : ℕ

/-- The address of a 28-bit command. -/
def TaskFile.lba28 (t : TaskFile) : ℕ :=
  t.lo.cur + t.mid.cur * 2 ^ 8 + t.hi.cur * 2 ^ 16 + t.drive % 2 ^ 4 * 2 ^ 24

/-- The address of a 48-bit command. -/
def TaskFile.lba48 (t : TaskFile) : ℕ :=
  t.lo.cur + t.mid.cur * 2 ^ 8 + t.hi.cur * 2 ^ 16 + t.lo.prev * 2 ^ 24 + t.mid.prev * 2 ^ 32 +
    t.hi.prev * 2 ^ 40

/-- The count of a 28-bit command. -/
def TaskFile.count28 (t : TaskFile) : ℕ := if t.count.cur = 0 then 256 else t.count.cur

/-- The count of a 48-bit command. -/
def TaskFile.count48 (t : TaskFile) : ℕ :=
  if t.count.cur + t.count.prev * 2 ^ 8 = 0 then 2 ^ 16 else t.count.cur + t.count.prev * 2 ^ 8

/-- A transfer: its direction and form, the drive, the sectors, and where in
memory the sectors that have been moved are. -/
structure Xfer where
  write : Bool
  ext : Bool
  unit : ℕ
  lba : ℕ
  count : ℕ
  parts : List ℕ
  deriving DecidableEq

/-- The sectors of a transfer. -/
def Xfer.range (x : Xfer) : List ℕ := List.range' x.lba x.count

/-- The transfer that a command byte asks for, if it asks for one by a block
address. -/
def TaskFile.issue (t : TaskFile) (byte : ℕ) : Option Xfer :=
  let unit := t.drive / 2 ^ 4 % 2
  if t.drive / 2 ^ 6 % 2 = 0 then none
  else if byte = 0x20 then some ⟨false, false, unit, t.lba28, t.count28, []⟩
  else if byte = 0x24 then some ⟨false, true, unit, t.lba48, t.count48, []⟩
  else if byte = 0x30 then some ⟨true, false, unit, t.lba28, t.count28, []⟩
  else if byte = 0x34 then some ⟨true, true, unit, t.lba48, t.count48, []⟩
  else none

/-- The drive: its task file, the transfers that are over and the one that is
not. -/
structure Drive where
  regs : TaskFile
  past : List Xfer
  now : Option Xfer

/-- A sector moved in the direction of the transfer that is going on. -/
def Drive.move (v : Drive) (write : Bool) (addr words : ℕ) : Drive :=
  { v with now := v.now.map fun x =>
      if x.write = write ∧ words = 256 then { x with parts := x.parts ++ [addr] } else x }

/-- What a port operation does to the drive at the port base `io`. -/
def Drive.step (io : ℕ) (v : Drive) : PortOp → Drive
  | .outb port byte =>
    if port = regCount io then { v with regs := { v.regs with count := v.regs.count.write byte } }
    else if port = regLbaLo io then { v with regs := { v.regs with lo := v.regs.lo.write byte } }
    else if port = regLbaMid io then { v with regs := { v.regs with mid := v.regs.mid.write byte } }
    else if port = regLbaHi io then { v with regs := { v.regs with hi := v.regs.hi.write byte } }
    else if port = regDrive io then { v with regs := { v.regs with drive := byte } }
    else if port = regCmd io then
      { v with past := v.past ++ v.now.toList, now := v.regs.issue byte }
    else v
  | .insw port addr words => if port = regData io then v.move false addr words else v
  | .outsw port addr words => if port = regData io then v.move true addr words else v

/-- A list of operations. -/
def Drive.run (io : ℕ) (v : Drive) (ops : List PortOp) : Drive := ops.foldl (Drive.step io) v

/-- The transfers so far. -/
def Drive.xfers (v : Drive) : List Xfer := v.past ++ v.now.toList

/-- **The transfers that a log asks for**, from the contents `t` of the task
file on. -/
def decode (io : ℕ) (t : TaskFile) (ops : List PortOp) : List Xfer :=
  (Drive.run io ⟨t, [], none⟩ ops).xfers

/-! ## Registers -/

section

variable {io byte : ℕ} {v : Drive}

theorem Drive.run_append (io : ℕ) (v : Drive) (l m : List PortOp) :
    Drive.run io v (l ++ m) = Drive.run io (Drive.run io v l) m := List.foldl_append

@[simp] theorem Drive.step_count : v.step io (.outb (regCount io) byte) =
    { v with regs := { v.regs with count := v.regs.count.write byte } } := if_pos rfl

@[simp] theorem Drive.step_lbaLo : v.step io (.outb (regLbaLo io) byte) =
    { v with regs := { v.regs with lo := v.regs.lo.write byte } } := by
  rw [Drive.step]
  unfold regLbaLo regCount
  rw [if_neg (by omega), if_pos rfl]

@[simp] theorem Drive.step_lbaMid : v.step io (.outb (regLbaMid io) byte) =
    { v with regs := { v.regs with mid := v.regs.mid.write byte } } := by
  rw [Drive.step]
  unfold regLbaMid regCount regLbaLo
  rw [if_neg (by omega), if_neg (by omega), if_pos rfl]

@[simp] theorem Drive.step_lbaHi : v.step io (.outb (regLbaHi io) byte) =
    { v with regs := { v.regs with hi := v.regs.hi.write byte } } := by
  rw [Drive.step]
  unfold regLbaHi regCount regLbaLo regLbaMid
  rw [if_neg (by omega), if_neg (by omega), if_neg (by omega), if_pos rfl]

@[simp] theorem Drive.step_drive : v.step io (.outb (regDrive io) byte) =
    { v with regs := { v.regs with drive := byte } } := by
  rw [Drive.step]
  unfold regDrive regCount regLbaLo regLbaMid regLbaHi
  rw [if_neg (by omega), if_neg (by omega), if_neg (by omega), if_neg (by omega), if_pos rfl]

@[simp] theorem Drive.step_cmd : v.step io (.outb (regCmd io) byte) =
    { v with past := v.past ++ v.now.toList, now := v.regs.issue byte } := by
  rw [Drive.step]
  unfold regCmd regCount regLbaLo regLbaMid regLbaHi regDrive
  rw [if_neg (by omega), if_neg (by omega), if_neg (by omega), if_neg (by omega),
    if_neg (by omega), if_pos rfl]

@[simp] theorem Drive.step_feat : v.step io (.outb (regFeat io) byte) = v := by
  rw [Drive.step]
  unfold regFeat regCount regLbaLo regLbaMid regLbaHi regDrive regCmd
  rw [if_neg (by omega), if_neg (by omega), if_neg (by omega), if_neg (by omega),
    if_neg (by omega), if_neg (by omega)]

end

end Ata

end Csos

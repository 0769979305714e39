import Csos.Serial.Format
/-!
# The log — the text window

`serial.c`: `put_string` and `fput_string` write each byte to the serial port
and to the next cell from `VGA_ADDR` on. The cell is counted by a static
`cursor` that nothing sets back, so a run stays in the text memory as long as
everything it has logged fits there. Each call runs under `g_serial_lock`; a
run is a sequence of calls.
-/

namespace Csos

namespace Serial

open Vfs

/-- `VGA_ADDR`. -/
abbrev vgaAddr : ℕ := 0xB8000

/-- `cursor`, the stores made through `VGA_ADDR` with their addresses, and what
is sent to `COM1`. -/
structure State where
  cursor : ℕ
  stores : List (ℕ × ℕ)
  com1 : List UInt8

/-- `serial_putchar`: what is sent for a character. -/
def serialPutchar (c : UInt8) : List UInt8 := if c = 10 then [13, c] else [c]

/-- `(uint16_t)*s | 0x0F00`; `char` is signed. -/
def cell (c : UInt8) : ℕ := (if c.toNat < 2 ^ 7 then c.toNat else 0xFF00 + c.toNat) ||| 0x0F00

/-- A round of `serial_write_bytes`. -/
def State.put (t : State) (c : UInt8) : State where
  cursor := (t.cursor + 1) % 2 ^ 64
  stores := t.stores ++ [((vgaAddr + 2 * t.cursor) % 2 ^ 64, cell c)]
  com1 := t.com1 ++ serialPutchar c

/-- `serial_write_bytes`: up to the terminator. -/
def serialWriteBytes (t : State) : Str → State
  | [] => t
  | c :: s => if c = 0 then t else serialWriteBytes (t.put c) s

/-- A call. -/
inductive Call
  | putString (s : Str)
  | fputString (fmt : Str) (args : List Arg)

/-- The string that the call hands to `serial_write_bytes`. -/
def Call.text : Call → Str
  | putString s => s
  | fputString fmt args => vsprintf fmt args

/-- `put_string` and `fput_string`. -/
def call (t : State) (c : Call) : State := serialWriteBytes t c.text

/-- Before the first call. -/
def boot : State := ⟨0, [], []⟩

/-- **A run** of the kernel. -/
def run (calls : List Call) : State := calls.foldl call boot

end Serial

end Csos

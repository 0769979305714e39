import Csos.Common.Rings
import Csos.Common.Sections
/-!
# The keyboard

The handler of the keyboard's interrupt takes a scan code from the 8042, and
what it stands for is put in a ring of 256 bytes, which `kbd0` is read from.
The two share the ring behind `g_kbd_lock`: `handlerKbd` and `kbd0Read` are
given here access by access, as contexts in the sense of `Sections`.

The handler starts at the processor that `ioapic_route_isa_irq` routes IRQ1
to. What it writes to the console is a text of its own.
-/

namespace Csos

namespace Kbd

open Rings Sections

def kbdBufSize : ℕ := 256

def errAgain : ℤ := -15

/-- What a make code of set 1 stands for; 0 is for the ones that are
ignored. -/
def set1Map : List (UInt8 × UInt8) :=
  [(0x02, 0x31), (0x03, 0x32), (0x04, 0x33), (0x05, 0x34), (0x06, 0x35), (0x07, 0x36), (0x08, 0x37),
   (0x09, 0x38), (0x0A, 0x39), (0x0B, 0x30), (0x0E, 0x08), (0x1C, 0x0A), (0x39, 0x20), (0x10, 0x71),
   (0x11, 0x77), (0x12, 0x65), (0x13, 0x72), (0x14, 0x74), (0x15, 0x79), (0x16, 0x75), (0x17, 0x69),
   (0x18, 0x6F), (0x19, 0x70), (0x1E, 0x61), (0x1F, 0x73), (0x20, 0x64), (0x21, 0x66), (0x22, 0x67),
   (0x23, 0x68), (0x24, 0x6A), (0x25, 0x6B), (0x26, 0x6C), (0x2C, 0x7A), (0x2D, 0x78), (0x2E, 0x63),
   (0x2F, 0x76), (0x30, 0x62), (0x31, 0x6E), (0x32, 0x6D)]

/-- The character of a scan code, if it has one: break codes are ignored. -/
def decode (sc : UInt8) : Option UInt8 :=
  if sc &&& 0x80 = 0 ∧ sc < 128 then
    let ch := (set1Map.lookup sc).getD 0
    if ch ≠ 0 then some ch else none
  else none

/-- Where a context is, outside of the lock. -/
inductive Ctx
  | task
  /-- `kbd0_read`, of `len` bytes. -/
  | read (len : ℕ)
  | answer (rc : ℤ)
  /-- The handler of another interrupt. -/
  | other
  | status
  | data
  | decoded (sc : UInt8)
  | put (ch : UInt8)
  | echo (ch : UInt8)
  | eoi
  | iret

/-- Where it is with the lock: in the loop of `kbd0_read`, which has got `out`
so far, or in `handler_kbd`. -/
inductive Sec
  | test (len : ℕ) (out : List UInt8)
  | load (len : ℕ) (out : List UInt8)
  | advance (len : ℕ) (out : List UInt8)
  | discount (len : ℕ) (out : List UInt8)
  | room (ch : UInt8)
  | store (ch : UInt8)
  | bump (ch : UInt8)
  | raise (ch : UInt8)
  | done (ch : UInt8) (kept : Bool)

/-- The code between `spin_lock_irqsave` and `spin_unlock_irqrestore`. -/
def body : Sec → Cells UInt8 → Option (Sec × Cells UInt8)
  | .test len out, r => if out.length < len ∧ 0 < r.count then some (.load len out, r) else none
  | .load len out, r => some (.advance len (out ++ [r.cells r.head]), r)
  | .advance len out, r => some (.discount len out, { r with head := (r.head + 1) % kbdBufSize })
  | .discount len out, r => some (.test len out, { r with count := r.count - 1 })
  | .room ch, r => some (if r.count < kbdBufSize then .store ch else .done ch false, r)
  | .store ch, r => some (.bump ch, { r with cells := Function.update r.cells r.tail ch })
  | .bump ch, r => some (.raise ch, { r with tail := (r.tail + 1) % kbdBufSize })
  | .raise ch, r => some (.done ch true, { r with count := r.count + 1 })
  | .done _ _, _ => none

def call : Ctx → Option Sec
  | .read len => some (.test len [])
  | .put ch => some (.room ch)
  | _ => none

def ret : Sec → Ctx
  | .test _ out => .answer (if out.length = 0 then errAgain else out.length)
  | .room ch | .store ch | .bump ch | .raise ch | .done ch _ => .echo ch
  | _ => .task

/-- The keyboard: the scan codes it has sent and how many of them have been
taken from the 8042, and the text on the console. -/
structure Env where
  sent : List UInt8
  taken : ℕ
  text : List UInt8

/-- The steps outside of the lock. `handler_kbd` goes on without changing the
interrupt flag. -/
inductive Out {κ : Type*} : κ → Bool → Ctx → Env → Bool → Ctx → Env → Prop
  | task (i on e on') : Out i on .task e on' .task e
  | other (i on e on') : Out i on .other e on' .other e
  | read (i on e) {len : ℕ} (h : 0 < len) : Out i on .task e on (.read len) e
  | readNone (i on e) : Out i on .task e on (.answer 0) e
  | answer (i on e rc) : Out i on (.answer rc) e on .task e
  | empty (i on e) (h : e.sent.length ≤ e.taken) : Out i on .status e on .eoi e
  | full (i on e) (h : e.taken < e.sent.length) : Out i on .status e on .data e
  | data (i on e) {sc : UInt8} (h : e.sent[e.taken]? = some sc) :
      Out i on .data e on (.decoded sc) { e with taken := e.taken + 1 }
  /-- What is taken from an empty buffer is anything. -/
  | stale (i on e sc) (h : e.sent.length ≤ e.taken) : Out i on .data e on (.decoded sc) e
  | ignore (i on e) {sc : UInt8} (h : decode sc = none) : Out i on (.decoded sc) e on .eoi e
  | decode (i on e) {sc ch : UInt8} (h : decode sc = some ch) : Out i on (.decoded sc) e on (.put ch) e
  | echo (i on e ch) : Out i on (.echo ch) e on .eoi { e with text := e.text ++ [ch] }
  | eoi (i on e) : Out i on .eoi e on .iret e

/-- A key is pressed or let go. -/
inductive World : Env → Env → Prop
  | key (e : Env) (sc : UInt8) : World e { e with sent := e.sent ++ [sc] }

/-- **The contexts of the kernel**, as far as the keyboard goes. `bsp` is the
processor IRQ1 is routed to. -/
def code {κ : Type*} (bsp : κ) : Code κ Ctx Sec (Cells UInt8) Env where
  call := call
  body := body
  ret := ret
  out := Out
  irq i c := c = .other ∨ i = bsp ∧ c = .status
  trap c c' := c = .task ∧ c' = .other
  iret c := c = .other ∨ c = .iret
  world := World

abbrev St (κ : Type*) := State κ Ctx Sec (Cells UInt8) Env

/-- The ring is empty. -/
def emptyRing : Cells UInt8 := ⟨fun _ => 0, 0, 0, 0⟩

/-- Before the first interrupt of the keyboard. -/
structure Booted {κ : Type*} (s : St κ) : Prop where
  taken : s.env.taken = 0
  text : s.env.text = []
  cpu : ∀ i, (s.cpu i).phase = .outside .task ∨ (s.cpu i).phase = .outside .other
  parked : ∀ p ∈ s.parked, p.phase = .outside .task ∨ p.phase = .outside .other

/-- The kernel with a keyboard. -/
def kernel {κ : Type*} [DecidableEq κ] (bsp : κ) : System (St κ) (Option κ) :=
  contexts (code bsp) emptyRing Booted

/-- What a section that is over did to the ring. -/
def Sec.op : Sec → Op UInt8
  | .test len out | .load len out | .advance len out | .discount len out => .pop len out
  | .room ch | .store ch | .bump ch | .raise ch => .push ch false
  | .done ch kept => .push ch kept

end Kbd

end Csos

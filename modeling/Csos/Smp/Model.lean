import Csos.Acpi.Model
import Csos.Common.Runs
import Csos.Pmm.Allocator
/-!
# Starting the other processors

`init_smp` starts the processors of the MADT one after the other. Each runs
`smp_trampoline.S` at one fixed page and finds there, in a `smp_bootinfo_t`,
the page tables, the stack and the entry it is to take; `started` is how it
answers. The bootstrap processor waits for the answer for a while and then
goes on with the next one.

The steps are the stores of the one side and the loads of the other, in any
order. `late` is a history of the processors whose start timed out.
-/

namespace Csos

namespace Smp

open Pmm (pageSize invalidAddr)

/-- `smp_bootinfo_t`, without its padding. -/
structure BootInfo where
  started : ℕ
  cr3 : ℕ
  stack : ℕ
  entry : ℕ

/-- What `init_smp` runs on: the MADT, `lapic_id()`, `read_cr3()`, the address
of `ap_main` and the size of the trampoline. -/
structure Machine where
  cpus : List Acpi.Cpu
  bspId : ℕ
  cr3 : ℕ
  apMain : ℕ
  trampSize : ℕ

/-- How long `start_one_ap` waits. -/
def spinLimit : ℕ := 10000000

/-- Where the bootstrap processor is: in the loop of `init_smp`, or in
`start_one_ap` with the page of the stack. -/
inductive Pc
  | next
  | alloc
  | clear (page : ℕ)
  | copy (page : ℕ)
  | setStarted (page : ℕ)
  | setCr3 (page : ℕ)
  | setStack (page : ℕ)
  | setEntry
  | check
  | init
  | sipi (again : Bool)
  | spin (n : ℕ)
  | done
  /-- The stack page is `PMM_INVALID_ADDR`, and `kernel_memset` faults. -/
  | fault
  deriving DecidableEq

/-- Where another processor is: before its start, in the trampoline with what
it has loaded, at its entry, or in the loop at the end of `ap_main`. -/
inductive Ap
  | off
  | real
  | paged (cr3 : ℕ)
  | stacked (cr3 stack : ℕ)
  | entered (cr3 stack entry : ℕ)
  | online (cr3 stack entry : ℕ)

/-- A processor that does not wait for a SIPI takes no notice of it. -/
def Ap.sipi : Ap → Ap
  | .off => .real
  | x => x

structure State where
  pmm : Pmm.State
  info : BootInfo
  pc : Pc
  i : ℕ
  started : ℕ
  ap : ℕ → Ap
  late : List ℕ

inductive Act
  | bsp
  | ap (id : ℕ)

variable (m : Machine) (s : State)

/-- The processor that is being started. -/
def target : ℕ := (m.cpus[s.i]?.map Acpi.Cpu.apicId).getD 0

/-- `start_one_ap` returns -1. -/
def State.fail : State := { s with pc := .next, i := s.i + 1 }

/-- A step of `init_smp` and `start_one_ap`. -/
def bspStep : Option State :=
  match s.pc with
  | .next =>
    match m.cpus[s.i]? with
    | none => some { s with pc := .done }
    | some cpu =>
      if cpu.flags &&& 1 = 0 ∨ cpu.apicId = m.bspId then some { s with i := s.i + 1 }
      else some { s with pc := .alloc }
  | .alloc =>
    if pageSize < m.trampSize then some s.fail
    else
      let r := s.pmm.allocPage
      if r.1 = 0 then some { s.fail with pmm := r.2 }
      else some { s with pmm := r.2, pc := .clear r.1 }
  | .clear page => some { s with pc := if page = invalidAddr then .fault else .copy page }
  | .copy page => some { s with info := ⟨0, 0, 0, 0⟩, pc := .setStarted page }
  | .setStarted page => some { s with info := { s.info with started := 0 }, pc := .setCr3 page }
  | .setCr3 page => some { s with info := { s.info with cr3 := m.cr3 }, pc := .setStack page }
  | .setStack page =>
    some { s with info := { s.info with stack := (page + pageSize) % 2 ^ 64 }, pc := .setEntry }
  | .setEntry => some { s with info := { s.info with entry := m.apMain }, pc := .check }
  | .check => some (if 0xFFFFFFFF < s.info.cr3 then s.fail else { s with pc := .init })
  | .init =>
    some { s with
      ap := Function.update s.ap (target m s) .off
      late := s.late.filter (· ≠ target m s)
      pc := .sipi false }
  | .sipi again =>
    some { s with
      ap := Function.update s.ap (target m s) (s.ap (target m s)).sipi
      pc := if again then .spin 0 else .sipi true }
  | .spin n =>
    if n < spinLimit then
      if s.info.started ≠ 0 then some { s.fail with started := s.started + 1 }
      else some { s with pc := .spin (n + 1) }
    else some { s.fail with late := target m s :: s.late }
  | .done | .fault => none

/-- A step of `smp_trampoline.S` and `ap_main` on processor `id`. Who gets to
another entry than `ap_main` is not followed. -/
def apStep (id : ℕ) : Option State :=
  match s.ap id with
  | .real => some { s with ap := Function.update s.ap id (.paged (s.info.cr3 % 2 ^ 32)) }
  | .paged cr3 => some { s with ap := Function.update s.ap id (.stacked cr3 s.info.stack) }
  | .stacked cr3 stack => some { s with ap := Function.update s.ap id (.entered cr3 stack s.info.entry) }
  | .entered cr3 stack entry =>
    if entry = m.apMain then
      some { s with ap := Function.update s.ap id (.online cr3 stack entry),
                    info := { s.info with started := 1 } }
    else none
  | .off | .online _ _ _ => none

def step : Act → Option State
  | .bsp => bspStep m s
  | .ap id => apStep m s id

/-- `init_smp` is called. -/
structure Booted : Prop where
  pmm : Pmm.Inv s.pmm
  pc : s.pc = .next
  ap : ∀ id, s.ap id = .off
  late : s.late = []

/-- **The processors**, with the memory they share. -/
def processors : System State Act where
  init := Booted
  step s x s' := step m s x = some s'

/-- A processor that was given up stays where it is, unless it is started
again. -/
def Punctual (s : State) : Act → Prop
  | .bsp => True
  | .ap id => id ∉ s.late

/-- In the trampoline or on the way to answer. -/
def Ap.moves : Ap → Prop
  | .off | .online _ _ _ => False
  | _ => True

def Ap.cr3Of : Ap → Option ℕ
  | .off | .real => none
  | .paged cr3 | .stacked cr3 _ | .entered cr3 _ _ | .online cr3 _ _ => some cr3

def Ap.stackOf : Ap → Option ℕ
  | .off | .real | .paged _ => none
  | .stacked _ stack | .entered _ stack _ | .online _ stack _ => some stack

def Ap.entryOf : Ap → Option ℕ
  | .entered _ _ entry | .online _ _ entry => some entry
  | _ => none

def Ap.isOnline : Ap → Prop
  | .online _ _ _ => True
  | _ => False

end Smp

end Csos

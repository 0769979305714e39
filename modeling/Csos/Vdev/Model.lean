import Csos.Common.Chains
import Csos.Vfs.Model
/-!
# The device registry — the model

`vdev.c`: the registered devices and the listeners are two lists through the
`next` of the records themselves. Every call runs under `g_vdev_lock`, also
the callbacks it makes, which therefore make no call of their own; a run is a
sequence of calls. What a driver writes into its record before it registers
it is `Device`, and `Listener` says which callbacks a listener has; the calls
that are made of them are kept in `log`.
-/

namespace Csos

namespace Vdev

open Vfs

/-- A pointer that is not NULL. -/
abbrev Addr := Fin (2 ^ 64)

instance neZero_addrs : NeZero (2 ^ 64) := ⟨by norm_num⟩

/-- As many addresses as there are. -/
@[irreducible]
def addrEnd : ℕ := 2 ^ 64

/-- `VDEV_CHAR`. -/
abbrev vdevChar : ℕ := 1
/-- `VDEV_BLOCK`. -/
abbrev vdevBlock : ℕ := 2

/-- What `vdev_register` reads of a `vdev_t`. -/
structure Device where
  name : Str
  type : ℕ
  /-- `ops && ops->read`. -/
  read : Bool
  /-- `bops && bops->read_blocks`. -/
  readBlocks : Bool
  blockSize : ℕ
  nblocks : ℕ

/-- `vdev_listener_t`: which of the callbacks are not NULL. -/
structure Listener where
  added : Bool
  removed : Bool

/-- A callback that is made. -/
inductive Event
  | added (dev : Addr)
  | removed (dev : Addr)
  deriving DecidableEq

/-- `g_devs` and `g_listeners` with the links, and the callbacks that have been
made of each listener since `vdev_listen`. -/
structure State where
  devs : Option Addr
  next : Addr → Option Addr
  listeners : Option Addr
  lnext : Addr → Option Addr
  log : Addr → List Event

section

variable (dev : Addr → Device) (lis : Addr → Listener)

/-- The checks of `vdev_register` on the record. -/
def Device.valid (d : Device) : Bool :=
  d.name ≠ [] ∧ (if d.type = vdevChar then d.read = true
    else if d.type = vdevBlock then d.readBlocks = true ∧ d.blockSize ≠ 0 ∧ d.nblocks ≠ 0
    else False)

/-- `l->added(l->ctx, d)` for the listeners of a walk, or `removed`. -/
def notify (log : Addr → List Event) (has : Addr → Bool) (e : Event) : List Addr → Addr → List Event
  | [] => log
  | l :: ls => notify (if has l then Function.update log l (log l ++ [e]) else log) has e ls

/-- `vdev_register`. -/
def vdevRegister (s : State) : Option Addr → ℤ × State
  | none => (errInval, s)
  | some d =>
    if (dev d).valid = false then (errInval, s)
    else if (chain s.next addrEnd s.devs).any fun it => (dev it).name = (dev d).name then (errExist, s)
    else (vfsOk, { s with
      next := Function.update s.next d s.devs
      devs := some d
      log := notify s.log (fun l => (lis l).added) (.added d) (chain s.lnext addrEnd s.listeners) })

/-- `vdev_unregister`. -/
def vdevUnregister (s : State) : Option Addr → ℤ × State
  | none => (errInval, s)
  | some d =>
    if (linkTo s.next d addrEnd none s.devs).2 = none then (errNoent, s)
    else
      let r := unlink s.next s.devs d addrEnd
      (vfsOk, { s with
        devs := r.1
        next := Function.update r.2 d none
        log := notify s.log (fun l => (lis l).removed) (.removed d)
          (chain s.lnext addrEnd s.listeners) })

/-- `vdev_find`. -/
def vdevFind (s : State) (name : Str) : Option Addr :=
  (chain s.next addrEnd s.devs).find? fun it => (dev it).name = name

/-- `vdev_listen`; the log starts here. -/
def vdevListen (s : State) : Option Addr → State
  | none => s
  | some l =>
    let seen := if (lis l).added then (chain s.next addrEnd s.devs).map .added else []
    { s with
      log := Function.update s.log l seen
      lnext := Function.update s.lnext l s.listeners
      listeners := some l }

/-- `vdev_unlisten`. -/
def vdevUnlisten (s : State) : Option Addr → State
  | none => s
  | some l =>
    let r := unlink s.lnext s.listeners l addrEnd
    { s with
      listeners := r.1
      lnext := Function.update r.2 l none }

/-! ## Runs -/

/-- A call. -/
inductive Call
  | register (dev : Option Addr)
  | unregister (dev : Option Addr)
  | listen (l : Option Addr)
  | unlisten (l : Option Addr)
  deriving DecidableEq

/-- The call with what it returns; the last two return nothing. -/
def call (s : State) : Call → ℤ × State
  | .register d => vdevRegister dev lis s d
  | .unregister d => vdevUnregister lis s d
  | .listen l => (vfsOk, vdevListen lis s l)
  | .unlisten l => (vfsOk, vdevUnlisten s l)

/-- `vdev_listen` is not called for a listener that is subscribed. -/
def Callable (s : State) (c : Call) : Prop :=
  ∀ l, c = .listen (some l) → l ∉ chain s.lnext addrEnd s.listeners

/-- `init_vdev`; the records hold what they hold. -/
def initVdev (next lnext : Addr → Option Addr) : State := ⟨none, next, none, lnext, fun _ => []⟩

/-- A run of calls, with what each returns. -/
inductive Run : List (Call × ℤ) → State → Prop
  | nil (next lnext : Addr → Option Addr) : Run [] (initVdev next lnext)
  | snoc {t : List (Call × ℤ)} {s : State} {c : Call} (h : Run t s) (hc : Callable s c) :
      Run (t ++ [(c, (call dev lis s c).1)]) (call dev lis s c).2

end

/-! ## What a run has done -/

/-- The devices that are registered after a call. -/
def registerStep (r : List Addr) : Call × ℤ → List Addr
  | (.register (some d), rc) => if rc = vfsOk then d :: r else r
  | (.unregister (some d), rc) => if rc = vfsOk then r.erase d else r
  | _ => r

/-- The devices whose registration has succeeded and not been undone. -/
def registered (t : List (Call × ℤ)) : List Addr := t.foldl registerStep []

/-- The listeners that are subscribed after a call. -/
def subscribeStep (r : List Addr) : Call × ℤ → List Addr
  | (.listen (some l), _) => l :: r
  | (.unlisten (some l), _) => r.erase l
  | _ => r

/-- The listeners that have been subscribed and not unsubscribed. -/
def subscribed (t : List (Call × ℤ)) : List Addr := t.foldl subscribeStep []

/-- The device is there for the listener after a callback. -/
def seeStep (r : List Addr) : Event → List Addr
  | .added d => d :: r
  | .removed d => r.erase d

/-- The devices for which `added` has run and `removed` not afterwards, each as
often as it has. -/
def seen (log : List Event) : List Addr := log.foldl seeStep []

end Vdev

end Csos

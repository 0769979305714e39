import Csos.Common.Runs
/-!
# The scheduler — the model

`sched.c` after `init_sched`, as a transition system over all CPUs. A step
is one lock-protected section or one assignment outside a lock. A run queue
section is one step whatever lock is held around it, so the loop of
`sched_wake_sleepers` takes a step for each sleeper it looks at and one for
each it enqueues; `lock` is `g_sched_lock` across those. Where a CPU stands
inside `schedule_from_irq` or `sched_wake_sleepers`, with the local
variables it holds there, is its `Pc`.
-/

namespace Csos

namespace Sched

/-- A CPU, by its 8-bit local APIC id: `SCHED_MAX_CPUS` of them. -/
abbrev Cpu := Fin 256

instance neZero_cpus : NeZero 256 := ⟨by decide⟩

/-- A task pointer: an entry of `g_idle`, or an address from `kmalloc`.
`none` stands for `NULL` wherever one may be. -/
inductive Tid
  | idle (cpu : Cpu)
  | heap (addr : ℕ)
  deriving DecidableEq

/-- `task_state_t`. -/
inductive TaskState
  | ready
  | sleeping
  deriving DecidableEq

/-- `task_t`, less `entry`, `name` and `stack_page`, which the scheduler
stores and never reads. -/
structure Task where
  rsp : UInt64
  next : Option Tid
  sleepNext : Option Tid
  state : TaskState
  wakeJiffies : UInt64
  onReady : Bool
  onCpu : Bool
  isIdle : Bool
  pinned : Bool
  cpu : Cpu

/-- Where a CPU stands, with its local variables. -/
inductive Pc
  /-- Outside the scheduler. `gap` is set from the sleep-list insertion of
  `sched_sleep_jiffies` to the `schedule_from_irq` that follows. -/
  | out (gap : Bool)
  /-- `sched_wake_sleepers`, at the head of the loop. `pp` points at the
  `sleep_next` of a task, or at `g_sleep_head`. -/
  | wake (gap : Bool) (pp : Option Tid)
  /-- `sched_wake_sleepers`, about to enqueue `t`. -/
  | wakeEnqueue (gap : Bool) (pp : Option Tid) (t : Tid)
  /-- `schedule_from_irq`, with `cur` read and its `rsp` saved. -/
  | enter (cur : Tid)
  /-- About to enqueue `cur` again. -/
  | requeue (cur : Tid)
  /-- About to take from the local queue. -/
  | dequeue (cur : Tid)
  /-- `rq_steal_one`, at the head of the loop. -/
  | steal (cur : Tid) (i : ℕ)
  /-- `rq_steal_one`, about to take the victim's lock. -/
  | stealLock (cur : Tid) (i : ℕ)
  /-- About to set `next->on_cpu`. -/
  | setOnCpu (cur next : Tid)
  /-- About to set `next->cpu`. -/
  | setCpu (cur next : Tid)
  /-- About to set `g_current`. -/
  | assign (cur next : Tid)
  /-- `g_current` is set; the CPU is still on the stack of `cur`. -/
  | leave (cur : Tid) (rsp : UInt64)
  deriving DecidableEq

/-- The scheduler's globals, the tasks, and every CPU's position. `creating`
holds the tasks `task_create_ex` has set up and not yet enqueued, with the
target it chose; `created` those it has enqueued. -/
structure State where
  task : Tid → Task
  current : Cpu → Option Tid
  head : Cpu → Option Tid
  tail : Cpu → Option Tid
  sleepHead : Option Tid
  jiffies : UInt64
  rrCreate : ℕ
  lock : Option Cpu
  pc : Cpu → Pc
  creating : List (Tid × Cpu)
  created : List Tid

namespace State

variable (s : State)

/-- Changes one task. -/
def setTask (t : Tid) (f : Task → Task) : State :=
  { s with task := Function.update s.task t (f (s.task t)) }

/-- Moves one CPU. -/
def setPc (c : Cpu) (p : Pc) : State := { s with pc := Function.update s.pc c p }

/-! ## Run queues -/

/-- `ready_enqueue_locked`, which is `ready_enqueue` as one section. -/
def readyEnqueue (c : Cpu) (t : Tid) : State :=
  if (s.task t).isIdle ∨ (s.task t).onReady then s
  else
    let s := s.setTask t fun r => { r with cpu := c, next := none }
    let s := match s.tail c with
      | some l => s.setTask l fun r => { r with next := some t }
      | none => { s with head := Function.update s.head c (some t) }
    { s with tail := Function.update s.tail c (some t) }.setTask t fun r => { r with onReady := true }

/-- `ready_dequeue_locked`: the task taken, if any, and the state after. -/
def readyDequeue (c : Cpu) : Option Tid × State :=
  match s.head c with
  | none => (none, s)
  | some t =>
    let n := (s.task t).next
    (some t,
      { s with
        head := Function.update s.head c n
        tail := if n = none then Function.update s.tail c none else s.tail }.setTask t
          fun r => { r with next := none, onReady := false })

/-- The `i`-th CPU after `start`, as `(start + i) % SCHED_MAX_CPUS`. -/
def nthCpu (start i : ℕ) : Cpu := Fin.ofNat 256 ((start + i) % 2 ^ 32)

/-- `pick_create_cpu`, called on CPU `self`. -/
def pickCreateCpu (self : Cpu) : Cpu :=
  (((List.range 256).map (nthCpu s.rrCreate)).find? fun c => (s.current c).isSome).getD self

/-! ## Sleeping -/

/-- `*pp` in `sched_wake_sleepers`. -/
def sleepAt (pp : Option Tid) : Option Tid :=
  match pp with
  | none => s.sleepHead
  | some u => (s.task u).sleepNext

/-- `*pp = v`. -/
def setSleepAt (pp v : Option Tid) : State :=
  match pp with
  | none => { s with sleepHead := v }
  | some u => s.setTask u fun r => { r with sleepNext := v }

/-- The section of `sched_sleep_jiffies`. -/
def sleepSection (cur : Tid) (jf : UInt64) : State :=
  { s.setTask cur fun r =>
      { r with wakeJiffies := s.jiffies + jf, state := .sleeping, sleepNext := s.sleepHead } with
    sleepHead := some cur }

/-- What `sched_wake_sleepers` does to a sleeper whose time has come,
before it looks at `on_cpu`. -/
def wakeOne (pp : Option Tid) (t : Tid) : State :=
  (s.setSleepAt pp (s.task t).sleepNext).setTask t fun r =>
    { r with sleepNext := none, state := .ready }

end State

/-- `idle_init`. -/
def idleInit : Task :=
  { rsp := 0, next := none, sleepNext := none, state := .ready, wakeJiffies := 0, onReady := false,
    onCpu := true, isIdle := true, pinned := false, cpu := 0 }

/-- The task `task_create_ex` sets up. -/
def newTask (rsp : UInt64) (pinned : Bool) (target : Cpu) : Task :=
  { rsp := rsp, next := none, sleepNext := none, state := .ready, wakeJiffies := 0,
    onReady := false, onCpu := false, isIdle := false, pinned := pinned, cpu := target }

/-! ## Steps -/

/-- What a CPU does next. Inside a function the next step is `go`. -/
inductive Action
  /-- `sched_cpu_init`, as the CPU comes up. -/
  | cpuInit
  /-- `jiffies++` in the timer interrupt. -/
  | tick
  /-- `task_create_ex` up to the enqueue: the task `kmalloc` gives, its
  first `rsp`, and `pinned`. -/
  | create (addr : ℕ) (rsp : UInt64) (pinned : Bool)
  /-- The enqueue of `task_create_ex`. -/
  | createEnqueue (t : Tid) (target : Cpu)
  /-- `sched_sleep_jiffies` up to the `yield`, by the task running here. -/
  | sleep (jf : UInt64)
  /-- `sched_wake_sleepers` takes `g_sched_lock`. -/
  | wake
  /-- A timer or yield interrupt enters `schedule_from_irq`. -/
  | irq (frame : UInt64)
  /-- The next step of the function the CPU is in. -/
  | go

/-- The step of a CPU inside `sched_wake_sleepers` or `schedule_from_irq`. -/
def State.goStep (s : State) (c : Cpu) : Option State :=
  match s.pc c with
  | .out _ => none
  | .wake gap pp =>
    match s.sleepAt pp with
    | none => some ({ s with lock := none }.setPc c (.out gap))
    | some t =>
      if (s.task t).wakeJiffies ≤ s.jiffies then
        if (s.task t).onCpu then some ((s.wakeOne pp t).setPc c (.wake gap pp))
        else some ((s.wakeOne pp t).setPc c (.wakeEnqueue gap pp t))
      else some (s.setPc c (.wake gap (some t)))
  | .wakeEnqueue gap pp t => some ((s.readyEnqueue (s.task t).cpu t).setPc c (.wake gap pp))
  | .enter cur =>
    if (s.task cur).isIdle then some (s.setPc c (.dequeue cur))
    else if s.lock ≠ none then none
    else
      some ((s.setTask cur fun r => { r with onCpu := false }).setPc c
        (if (s.task cur).state = .ready then .requeue cur else .dequeue cur))
  | .requeue cur => some ((s.readyEnqueue c cur).setPc c (.dequeue cur))
  | .dequeue cur =>
    match s.readyDequeue c with
    | (none, s) => some (s.setPc c (.steal cur 1))
    | (some t, s) => some (s.setPc c (.setOnCpu cur t))
  | .steal cur i =>
    if 256 ≤ i then some (s.setPc c (.assign cur (.idle c)))
    else if s.current (State.nthCpu c.val i) = none then some (s.setPc c (.steal cur (i + 1)))
    else some (s.setPc c (.stealLock cur i))
  | .stealLock cur i =>
    if (s.head (State.nthCpu c.val i)).any fun t => (s.task t).pinned then
      some (s.setPc c (.steal cur (i + 1)))
    else
      match s.readyDequeue (State.nthCpu c.val i) with
      | (none, s) => some (s.setPc c (.steal cur (i + 1)))
      | (some t, s) => some (s.setPc c (.setOnCpu cur t))
  | .setOnCpu cur next =>
    some ((s.setTask next fun r => { r with onCpu := true }).setPc c (.setCpu cur next))
  | .setCpu cur next =>
    some ((s.setTask next fun r => { r with cpu := c }).setPc c (.assign cur next))
  | .assign cur next =>
    some ({ s with current := Function.update s.current c (some next) }.setPc c
      (.leave cur (s.task next).rsp))
  | .leave _ _ => some (s.setPc c (.out false))

/-- The step CPU `c` makes, if it can make it now. -/
def State.step (s : State) (c : Cpu) : Action → Option State
  | .cpuInit =>
    if s.current c = none ∧ s.pc c = .out false then
      some { s.setTask (.idle c) fun _ => idleInit with
        current := Function.update s.current c (some (.idle c)) }
    else none
  | .tick => if (∃ gap, s.pc c = .out gap) then some { s with jiffies := s.jiffies + 1 } else none
  | .create addr rsp pinned =>
    if s.pc c = .out false ∧ .heap addr ∉ s.created ∧ .heap addr ∉ s.creating.map Prod.fst then
      let target := if pinned then c else s.pickCreateCpu c
      some { s.setTask (.heap addr) fun _ => newTask rsp pinned target with
        rrCreate := if pinned then s.rrCreate else (s.rrCreate + 1) % 2 ^ 32
        creating := (.heap addr, target) :: s.creating }
    else none
  | .createEnqueue t target =>
    if s.pc c = .out false ∧ (t, target) ∈ s.creating then
      some { s.readyEnqueue target t with
        creating := s.creating.erase (t, target)
        created := t :: s.created }
    else none
  | .sleep jf =>
    match s.current c with
    | none => none
    | some cur =>
      if s.pc c = .out false ∧ jf ≠ 0 ∧ (s.task cur).isIdle = false ∧ s.lock = none then
        some ((s.sleepSection cur jf).setPc c (.out true))
      else none
  | .wake =>
    match s.pc c with
    | .out gap =>
      if s.lock = none then some ({ s with lock := some c }.setPc c (.wake gap none)) else none
    | _ => none
  | .irq frame =>
    match s.pc c, s.current c with
    | .out _, some cur =>
      some ((s.setTask cur fun r => { r with rsp := frame }).setPc c (.enter cur))
    | _, _ => none
  | .go => s.goStep c

/-- The state `init_sched` leaves, run on CPU `boot`. -/
def Booted (boot : Cpu) (s : State) : Prop :=
  s.task (.idle boot) = idleInit ∧ s.current = Function.update (fun _ => none) boot (some (.idle boot)) ∧
    (∀ c, s.head c = none ∧ s.tail c = none) ∧ s.sleepHead = none ∧ s.rrCreate = 0 ∧
    s.lock = none ∧ (∀ c, s.pc c = .out false) ∧ s.creating = [] ∧ s.created = []

/-- The scheduler on every CPU. -/
def machine : System State (Cpu × Action) where
  init s := ∃ boot, Booted boot s
  step s a s' := s.step a.1 a.2 = some s'

end Sched

end Csos

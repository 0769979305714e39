import Csos.Sched.Model
import Csos.Common.Links
/-!
# The scheduler — where every task is

Each task is at one `Place` at a time, and a `Layout` says what the state
must look like for that: which queue or list holds it, which CPU owns it,
and what its `on_ready`, `on_cpu` and `state` say. Since the place is a
function of the task, a task that is at one place is at no other, and the
invariant is the existence of a layout.
-/

namespace Csos

namespace Sched

/-! ## What a position holds -/

namespace Pc

/-- The task a CPU at this position owns, `current` being its `g_current`:
the one it runs, is about to enqueue again, or has picked. -/
@[grind] def own (p : Pc) (current : Option Tid) : Option Tid :=
  match p with
  | .out _ | .wake _ _ | .wakeEnqueue _ _ _ | .enter _ | .leave _ _ => current
  | .requeue cur => some cur
  | .dequeue _ | .steal _ _ | .stealLock _ _ => none
  | .setOnCpu _ next | .setCpu _ next | .assign _ next => some next

/-- The task whose stack `schedule_from_irq` is running on. -/
@[grind] def cur? : Pc → Option Tid
  | .out _ | .wake _ _ | .wakeEnqueue _ _ _ => none
  | .enter cur | .requeue cur | .dequeue cur | .steal cur _ | .stealLock cur _ | .setOnCpu cur _
  | .setCpu cur _ | .assign cur _ | .leave cur _ => some cur

/-- The task taken off the sleep list and not yet enqueued. -/
@[grind] def waking? : Pc → Option Tid
  | .wakeEnqueue _ _ t => some t
  | .out _ | .wake _ _ | .enter _ | .requeue _ | .dequeue _ | .steal _ _ | .stealLock _ _
  | .setOnCpu _ _ | .setCpu _ _ | .assign _ _ | .leave _ _ => none

/-- The task whose `sleep_next` `pp` points at. -/
@[grind] def pp? : Pc → Option Tid
  | .wake _ pp | .wakeEnqueue _ pp _ => pp
  | .out _ | .enter _ | .requeue _ | .dequeue _ | .steal _ _ | .stealLock _ _ | .setOnCpu _ _
  | .setCpu _ _ | .assign _ _ | .leave _ _ => none

/-- Inside `sched_wake_sleepers`. -/
@[grind] def waker : Pc → Bool
  | .wake _ _ | .wakeEnqueue _ _ _ => true
  | .out _ | .enter _ | .requeue _ | .dequeue _ | .steal _ _ | .stealLock _ _ | .setOnCpu _ _
  | .setCpu _ _ | .assign _ _ | .leave _ _ => false

/-- The task owned here may be on the sleep list: its `schedule_from_irq`
is still to look at its state. -/
@[grind] def mayDoze : Pc → Bool
  | .out gap | .wake gap _ | .wakeEnqueue gap _ _ => gap
  | .enter _ => true
  | .requeue _ | .dequeue _ | .steal _ _ | .stealLock _ _ | .setOnCpu _ _ | .setCpu _ _
  | .assign _ _ | .leave _ _ => false

/-- The task owned here has `on_cpu` set. -/
@[grind] def onCpuSet : Pc → Bool
  | .requeue _ | .setOnCpu _ _ => false
  | .out _ | .wake _ _ | .wakeEnqueue _ _ _ | .enter _ | .dequeue _ | .steal _ _ | .stealLock _ _
  | .setCpu _ _ | .assign _ _ | .leave _ _ => true

/-- `g_current` is still the `cur` of this position. -/
@[grind] def stale? : Pc → Option Tid
  | .out _ | .wake _ _ | .wakeEnqueue _ _ _ | .leave _ _ => none
  | .enter cur | .requeue cur | .dequeue cur | .steal cur _ | .stealLock cur _ | .setOnCpu cur _
  | .setCpu cur _ | .assign cur _ => some cur

/-- The task held here that is known not to be an idle task. -/
@[grind] def live? : Pc → Option Tid
  | .requeue t | .setOnCpu _ t | .setCpu _ t => some t
  | .out _ | .wake _ _ | .wakeEnqueue _ _ _ | .enter _ | .dequeue _ | .steal _ _ | .stealLock _ _
  | .assign _ _ | .leave _ _ => none

end Pc

/-- The task comes from `kmalloc`: it is not an idle task. -/
def Tid.isHeap : Tid → Bool
  | .idle _ => false
  | .heap _ => true

/-- The task CPU `c` owns. -/
def State.own (s : State) (c : Cpu) : Option Tid := (s.pc c).own (s.current c)

/-- Where a task is. -/
inductive Place
  /-- Not created. -/
  | none
  /-- Set up by `task_create_ex` and not yet enqueued. -/
  | creating
  /-- In a run queue. -/
  | queue (c : Cpu)
  /-- Owned by a CPU. -/
  | own (c : Cpu)
  /-- Owned by a CPU and on the sleep list. -/
  | doze (c : Cpu)
  /-- On the sleep list, owned by no CPU. -/
  | asleep
  /-- Taken off the sleep list by this CPU and not yet enqueued. -/
  | waking (c : Cpu)
  deriving DecidableEq

namespace Place

/-- On the sleep list. -/
@[grind] def sleeps : Place → Bool
  | .asleep | .doze _ => true
  | .none | .creating | .queue _ | .own _ | .waking _ => false

/-- The CPU that owns a task there. -/
@[grind] def owner? : Place → Option Cpu
  | .own c | .doze c => some c
  | .none | .creating | .queue _ | .asleep | .waking _ => Option.none

/-- The three places a task is enqueued from. -/
@[grind] def unqueued : Place → Bool
  | .own _ | .waking _ | .creating => true
  | .none | .queue _ | .doze _ | .asleep => false

end Place

/-- The run queue of each CPU, as a list. -/
abbrev Queues := Cpu → List Tid

/-- `Q` and `S` are what the queues and the sleep list hold. -/
structure Rep (s : State) (Q : Queues) (S : List Tid) : Prop where
  queue : ∀ c, Linked (fun t => (s.task t).next) (s.head c) (Q c)
  tail : ∀ c, s.tail c = (Q c).getLast?
  sleep : Linked (fun t => (s.task t).sleepNext) s.sleepHead S

/-- Task `t` is at place `p`. -/
structure At (s : State) (Q : Queues) (S : List Tid) (t : Tid) (p : Place) : Prop where
  mem_queue : ∀ c, t ∈ Q c ↔ p = .queue c
  mem_sleep : t ∈ S ↔ p.sleeps = true
  own : ∀ c, p.owner? = some c ↔ s.own c = some t ∧ t.isHeap = true
  waking : ∀ c, (s.pc c).waking? = some t ↔ p = .waking c
  creating : t ∈ s.creating.map Prod.fst ↔ p = .creating
  created : t ∈ s.created ↔ p ≠ .none ∧ p ≠ .creating
  heap : p ≠ .none → t.isHeap = true
  not_idle : p ≠ .none → (s.task t).isIdle = false
  state : p ≠ .none → ((s.task t).state = .sleeping ↔ p.sleeps = true)
  on_ready : p ≠ .none → ((s.task t).onReady = true ↔ ∃ c, p = .queue c)
  on_cpu : ∀ c, p.owner? = some c → (s.pc c).onCpuSet = true → (s.task t).onCpu = true
  asleep : p = .asleep → (s.task t).onCpu = false
  doze : ∀ c, p = .doze c → (s.pc c).mayDoze = true

/-- What holds of CPU `c`, wherever the tasks are. -/
structure CpuOk (s : State) (S : List Tid) (c : Cpu) : Prop where
  lock : (s.pc c).waker = true ↔ s.lock = some c
  pp : ∀ u, (s.pc c).pp? = some u → u ∈ S
  stale : ∀ u, (s.pc c).stale? = some u → s.current c = some u
  live : ∀ u, (s.pc c).live? = some u → u.isHeap = true
  own_idle : ∀ u, s.own c = some u → u.isHeap = false → u = .idle c
  is_idle : s.current c ≠ none → (s.task (.idle c)).isIdle = true

/-- **The layout.** `loc` says where every task is; `Q` and `S` are what the
run queues and the sleep list hold. -/
structure Layout (s : State) (loc : Tid → Place) (Q : Queues) (S : List Tid) : Prop where
  rep : Rep s Q S
  at_loc : ∀ t, At s Q S t (loc t)
  cpu : ∀ c, CpuOk s S c
  creating_nodup : (s.creating.map Prod.fst).Nodup

variable {s s' : State} {loc : Tid → Place} {Q : Queues} {S : List Tid} {c d : Cpu} {t x : Tid}

/-! ## The queues and the sleep list -/

theorem Rep.congr_mem (h : Rep s Q S) (hnext : ∀ c, ∀ x ∈ Q c, (s'.task x).next = (s.task x).next)
    (hsleep : ∀ x ∈ S, (s'.task x).sleepNext = (s.task x).sleepNext) (hhead : s'.head = s.head)
    (htail : s'.tail = s.tail) (hsh : s'.sleepHead = s.sleepHead) : Rep s' Q S := by
  refine ⟨fun c => ?_, fun c => ?_, ?_⟩
  · rw [hhead]
    exact (h.queue c).congr (hnext c)
  · rw [htail, h.tail]
  · rw [hsh]
    exact h.sleep.congr hsleep

theorem Rep.congr (h : Rep s Q S) (hnext : ∀ x, (s'.task x).next = (s.task x).next)
    (hsleep : ∀ x, (s'.task x).sleepNext = (s.task x).sleepNext) (hhead : s'.head = s.head)
    (htail : s'.tail = s.tail) (hsh : s'.sleepHead = s.sleepHead) : Rep s' Q S :=
  h.congr_mem (fun _ x _ => hnext x) (fun x _ => hsleep x) hhead htail hsh

/-- What `ready_enqueue` leaves when it does enqueue. -/
def State.enqueued (s : State) (c : Cpu) (t : Tid) : State :=
  { s with
    task := fun x =>
      { s.task x with
        next := if s.tail c = some x then some t else if x = t then none else (s.task x).next
        cpu := if x = t then c else (s.task x).cpu
        onReady := if x = t then true else (s.task x).onReady }
    head := if s.tail c = none then Function.update s.head c (some t) else s.head
    tail := Function.update s.tail c (some t) }

theorem readyEnqueue_eq (c : Cpu) (hidle : (s.task t).isIdle = false)
    (hready : (s.task t).onReady = false) : s.readyEnqueue c t = s.enqueued c t := by
  rw [State.readyEnqueue, if_neg (by simp [hidle, hready]), State.enqueued]
  simp only [State.setTask]
  cases hl : s.tail c with
  | none =>
    simp only [State.mk.injEq, Function.update_self, if_true, reduceCtorEq, if_false, and_true]
    funext x
    by_cases hx : x = t
    · subst hx; simp
    · simp [hx]
  | some l =>
    simp only [State.mk.injEq, reduceCtorEq, if_false, and_true]
    funext x
    simp only [Function.update_apply, Option.some.injEq]
    by_cases hx : x = t
    · subst hx
      by_cases hxl : x = l
      · subst hxl; simp
      · simp [hxl, Ne.symm hxl]
    · by_cases hxl : x = l
      · subst hxl; simp [hx]
      · simp [hx, hxl, Ne.symm hxl]

/-- **`ready_enqueue` appends** a task that is in no queue. -/
theorem Rep.enqueued (h : Rep s Q S) (ht : ∀ d, t ∉ Q d)
    (hdisj : ∀ d d' x, x ∈ Q d → x ∈ Q d' → d = d') :
    Rep (s.enqueued c t) (Function.update Q c (Q c ++ [t])) S := by
  refine ⟨fun d => ?_, fun d => ?_, h.sleep⟩
  · change Linked _ ((if s.tail c = none then Function.update s.head c (some t) else s.head) d) _
    by_cases hd : d = c
    · subst hd
      rw [Function.update_self]
      rcases List.eq_nil_or_concat' (Q d) with hQ | ⟨l, a, hQ⟩
      · have htail : s.tail d = none := by rw [h.tail, hQ]; rfl
        rw [if_pos htail, Function.update_self, hQ]
        refine ⟨rfl, ?_⟩
        simp [State.enqueued, htail]
      · -- the last of the queue now points at `t`, and `t` at nothing
        have htail : s.tail d = some a := by rw [h.tail, hQ]; simp
        have hlink := h.queue d
        have hnd := hlink.nodup
        rw [hQ] at hlink hnd
        have hat : a ≠ t := fun e => ht d (by rw [hQ, e]; simp)
        have ha : a ∉ l := by
          rw [List.nodup_append] at hnd
          exact fun hm => hnd.2.2 a hm a (by simp) rfl
        rw [if_neg (by rw [htail]; simp), hQ]
        refine seg_append.mpr ⟨some t, ?_, rfl, ?_⟩
        · refine (Seg.redirect_last hlink ha (some t)).congr fun x hx => ?_
          have hxt : x ≠ t := fun e => ht d (by rw [hQ, ← e]; exact hx)
          simp only [State.enqueued, htail, Option.some.injEq]
          by_cases hxa : x = a
          · subst hxa
            rw [if_pos rfl, Function.update_self]
          · rw [if_neg (Ne.symm hxa), if_neg hxt, Function.update_of_ne hxa]
        · simp [State.enqueued, htail, hat]
    · have hhead : (if s.tail c = none then Function.update s.head c (some t) else s.head) d =
          s.head d := by
        split
        · exact Function.update_of_ne hd _ _
        · rfl
      rw [hhead, Function.update_of_ne hd]
      refine (h.queue d).congr fun x hx => ?_
      have hxt : x ≠ t := fun e => ht d (e ▸ hx)
      have hxl : s.tail c ≠ some x := by
        intro e
        rw [h.tail] at e
        exact hd (hdisj d c x hx (List.mem_of_getLast? e))
      simp only [State.enqueued]
      rw [if_neg hxl, if_neg hxt]
  · change Function.update s.tail c (some t) d = _
    rw [Function.update_apply, Function.update_apply]
    split
    · simp
    · exact h.tail d

/-- What `ready_dequeue` leaves when it takes `t`, `n` being the next. -/
def State.dequeued (s : State) (c : Cpu) (t : Tid) (n : Option Tid) : State :=
  { s with
    task := fun x =>
      { s.task x with
        next := if x = t then none else (s.task x).next
        onReady := if x = t then false else (s.task x).onReady }
    head := Function.update s.head c n
    tail := if n = none then Function.update s.tail c none else s.tail }

/-- **`ready_dequeue` takes the head**, if there is one. -/
theorem Rep.readyDequeue (h : Rep s Q S) (c : Cpu) :
    s.readyDequeue c = match Q c with
      | [] => (none, s)
      | t :: l => (some t, s.dequeued c t l.head?) := by
  have hlink := h.queue c
  cases hQ : Q c with
  | nil =>
    rw [hQ] at hlink
    rw [State.readyDequeue, show s.head c = none from hlink]
  | cons t l =>
    rw [hQ] at hlink
    obtain ⟨hhead, hnext⟩ := hlink
    have hn : (s.task t).next = l.head? := Linked.head?_eq hnext
    rw [State.readyDequeue, hhead]
    simp only [hn, State.setTask, State.dequeued, Prod.mk.injEq, true_and, State.mk.injEq, and_true]
    funext x
    rw [Function.update_apply]
    split
    · simp_all
    · rfl

theorem Rep.dequeued (h : Rep s Q S) (hdisj : ∀ d d' x, x ∈ Q d → x ∈ Q d' → d = d') {l : List Tid}
    (hQ : Q c = t :: l) : Rep (s.dequeued c t l.head?) (Function.update Q c l) S := by
  have hlink := h.queue c
  have hnd := hlink.nodup
  rw [hQ] at hlink hnd
  have htl : t ∉ l := (List.nodup_cons.mp hnd).1
  have hn : (s.task t).next = l.head? := Linked.head?_eq hlink.2
  refine ⟨fun d => ?_, fun d => ?_, h.sleep⟩
  · change Linked _ (Function.update s.head c l.head? d) _
    by_cases hd : d = c
    · subst hd
      rw [Function.update_self, Function.update_self, ← hn]
      refine Linked.congr hlink.2 fun x hx => ?_
      simp only [State.dequeued]
      rw [if_neg (ne_of_mem_of_not_mem hx htl)]
    · rw [Function.update_of_ne hd, Function.update_of_ne hd]
      refine (h.queue d).congr fun x hx => ?_
      have hxt : x ≠ t := by
        rintro rfl
        exact hd (hdisj d c x hx (by rw [hQ]; simp))
      simp only [State.dequeued]
      rw [if_neg hxt]
  · change (if l.head? = none then Function.update s.tail c none else s.tail) d = _
    have htail := h.tail d
    by_cases hd : d = c
    · subst hd
      rw [Function.update_self]
      cases l with
      | nil => simp
      | cons a l => simpa [hQ] using htail
    · rw [Function.update_of_ne hd, ← htail]
      split
      · exact Function.update_of_ne hd _ _
      · rfl

/-- The section of `sched_sleep_jiffies` puts a task at the head of the
sleep list. -/
theorem Rep.sleepSection (h : Rep s Q S) (ht : t ∉ S) (jf : UInt64) :
    Rep (s.sleepSection t jf) Q (t :: S) := by
  refine ⟨fun d => (h.queue d).congr fun x _ => ?_, h.tail, rfl, ?_⟩
  · simp only [State.sleepSection, State.setTask, Function.update_apply]
    split
    · simp_all
    · rfl
  · simp only [State.sleepSection, State.setTask, Function.update_self]
    refine h.sleep.congr fun x hx => ?_
    rw [Function.update_of_ne (ne_of_mem_of_not_mem hx ht)]

/-- **A sleeper is unlinked** wherever `pp` has come to. -/
theorem Rep.wakeOne (h : Rep s Q S) {pp : Option Tid} (hpp : ∀ u, pp = some u → u ∈ S)
    (ht : s.sleepAt pp = some t) : t ∈ S ∧ Rep (s.wakeOne pp t) Q (S.erase t) := by
  have hnd := h.sleep.nodup
  cases pp with
  | none =>
    have hhead : s.sleepHead = some t := ht
    have hS := h.sleep
    cases S with
    | nil => exact absurd (hhead.symm.trans hS) (by simp)
    | cons a S =>
      obtain rfl : a = t := Option.some.inj (hS.1.symm.trans hhead)
      have haS : a ∉ S := (List.nodup_cons.mp hnd).1
      refine ⟨by simp, fun d => (h.queue d).congr fun x _ => ?_, h.tail, ?_⟩
      · simp only [State.wakeOne, State.setSleepAt, State.setTask, Function.update_apply]
        split
        · simp_all
        · rfl
      · rw [List.erase_cons_head]
        refine Linked.congr hS.2 fun x hx => ?_
        simp only [State.wakeOne, State.setSleepAt, State.setTask]
        rw [Function.update_of_ne (ne_of_mem_of_not_mem hx haS)]
  | some u =>
    have hu : (s.task u).sleepNext = some t := ht
    obtain ⟨l, r, rfl⟩ := List.append_of_mem (hpp u rfl)
    obtain ⟨q, hl, rfl, hr⟩ := seg_append.mp h.sleep
    cases r with
    | nil => exact absurd (hu.symm.trans hr) (by simp)
    | cons a r =>
      obtain rfl : a = t := Option.some.inj (hr.1.symm.trans hu)
      have hnd' := hnd
      simp only [List.nodup_append, List.nodup_cons, List.mem_cons, not_or] at hnd'
      obtain ⟨-, ⟨⟨hua, hur⟩, har, -⟩, hdisj⟩ := hnd'
      have hul : u ∉ l := fun hm => hdisj u hm u (Or.inl rfl) rfl
      have hal : a ∉ l := fun hm => hdisj a hm a (Or.inr (Or.inl rfl)) rfl
      have herase : (l ++ u :: a :: r).erase a = l ++ u :: r := by
        rw [List.erase_append_right _ hal, List.erase_cons_tail (by simpa using hua),
          List.erase_cons_head]
      have hother : ∀ x, x ≠ u → x ≠ a →
          ((s.wakeOne (some u) a).task x).sleepNext = (s.task x).sleepNext := by
        intro x hxu hxa
        simp only [State.wakeOne, State.setSleepAt, State.setTask]
        rw [Function.update_of_ne hxa, Function.update_of_ne hxu]
      refine ⟨by simp, fun d => (h.queue d).congr fun x _ => ?_, h.tail, ?_⟩
      · simp only [State.wakeOne, State.setSleepAt, State.setTask, Function.update_apply]
        split_ifs <;> simp_all
      · -- `u` points past `a` now, and the rest is as it was
        rw [herase]
        refine seg_append.mpr ⟨some u, ?_, rfl, ?_⟩
        · exact hl.congr fun x hx =>
            hother x (ne_of_mem_of_not_mem hx hul) (ne_of_mem_of_not_mem hx hal)
        · have hnext : ((s.wakeOne (some u) a).task u).sleepNext = (s.task a).sleepNext := by
            simp only [State.wakeOne, State.setSleepAt, State.setTask]
            rw [Function.update_of_ne hua, Function.update_self]
          simp only [hnext]
          exact Seg.congr hr.2 fun x hx =>
            hother x (ne_of_mem_of_not_mem hx hur) (ne_of_mem_of_not_mem hx har)

end Sched

end Csos

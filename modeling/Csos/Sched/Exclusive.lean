import Csos.Sched.Conserved
/-!
# The scheduler — one CPU to a task

`schedule_from_irq` puts the task it leaves back into a queue, or lets a
waker do so, before it has left the task's stack and before it has set
`g_current`. A CPU that steals the task there runs it beside its old CPU:
`stolenState` is such a run. Nothing else goes wrong. As long as no
`rq_steal_one` takes the task its victim is still leaving (`Spares`), no
task is ever held by two CPUs. The invariant is that a task held by a CPU
that does not own it is owned by none and has that CPU as its `cpu`.
-/

namespace Csos

namespace Sched

variable {s s' : State} {loc : Tid → Place} {Q : Queues} {S : List Tid} {c d : Cpu} {t : Tid} {a : ℕ}

/-- The task a CPU has picked and not yet made its `g_current`. -/
@[grind] def Pc.next? : Pc → Option Tid
  | .setOnCpu _ next | .setCpu _ next | .assign _ next => some next
  | .out _ | .wake _ _ | .wakeEnqueue _ _ _ | .enter _ | .requeue _ | .dequeue _ | .steal _ _
  | .stealLock _ _ | .leave _ _ => none

/-- CPU `c` has the task as its `g_current`, is still inside
`schedule_from_irq` on the task's stack, or has picked it. -/
def State.holds (s : State) (c : Cpu) (t : Tid) : Prop :=
  s.current c = some t ∨ (s.pc c).cur? = some t ∨ (s.pc c).next? = some t

/-- The step is not a `rq_steal_one` taking the task that its victim, still
inside `schedule_from_irq`, is leaving. -/
def Spares (s : State) (a : Cpu × Action) : Prop :=
  ∀ cur i t, a.2 = .go → s.pc a.1 = .stealLock cur i → s.head (State.nthCpu a.1.val i) = some t →
    (s.task t).pinned = false → (s.pc (State.nthCpu a.1.val i)).cur? ≠ some t

/-- A CPU at this position has set the `cpu` of the task it owns. -/
@[grind] def Pc.cpuSet : Pc → Bool
  | .setOnCpu _ _ | .setCpu _ _ => false
  | .out _ | .wake _ _ | .wakeEnqueue _ _ _ | .enter _ | .requeue _ | .dequeue _ | .steal _ _
  | .stealLock _ _ | .assign _ _ | .leave _ _ => true

/-- **The invariant.** -/
structure Excl (s : State) : Prop where
  /-- A task is held by its owner, or by its `cpu` if it has none. -/
  home : ∀ c a, s.holds c (.heap a) →
    s.own c = some (.heap a) ∨ (∀ d, s.own d ≠ some (.heap a)) ∧ (s.task (.heap a)).cpu = c
  queue : ∀ d l, Linked (fun t => (s.task t).next) (s.head d) l → ∀ t ∈ l, (s.task t).cpu = d
  own : ∀ c a, s.own c = some (.heap a) → (s.pc c).cpuSet = true → (s.task (.heap a)).cpu = c
  created : ∀ c a, s.holds c (.heap a) → .heap a ∈ s.created

/-- What a CPU owns it holds. -/
theorem Layout.holds_of_own (L : Layout s loc Q S) (h : s.own c = some t) : s.holds c t := by
  have hst := (L.cpu c).stale
  rw [State.own] at h
  cases hp : s.pc c <;> simp_all [Pc.own, Pc.stale?, State.holds, Pc.cur?, Pc.next?]

/-- A task held by a CPU that does not own it is the one it is leaving. -/
theorem Layout.leaving_of_holds (L : Layout s loc Q S) (h : s.holds c t) (ho : s.own c ≠ some t) :
    (s.pc c).cur? = some t := by
  have hst := (L.cpu c).stale
  rw [State.own] at ho
  cases hp : s.pc c <;> simp_all [Pc.own, Pc.stale?, State.holds, Pc.cur?, Pc.next?]

/-- **A step that hands no task over.** -/
theorem Excl.frame (E : Excl s) (hcpu : ∀ a, (s'.task (.heap a)).cpu = (s.task (.heap a)).cpu)
    (hown : ∀ d a, s'.own d = some (.heap a) ↔ s.own d = some (.heap a))
    (hholds : ∀ d a, s'.holds d (.heap a) → s.holds d (.heap a))
    (hqueue : ∀ d l, Linked (fun t => (s'.task t).next) (s'.head d) l →
      Linked (fun t => (s.task t).next) (s.head d) l ∧ ∀ t ∈ l, (s'.task t).cpu = (s.task t).cpu)
    (hset : ∀ d a, s.own d = some (.heap a) → (s'.pc d).cpuSet = true → (s.pc d).cpuSet = true)
    (hcreated : ∀ t ∈ s.created, t ∈ s'.created) : Excl s' := by
  refine ⟨fun d a h => ?_, fun d l hl t ht => ?_, fun d a ho hs => ?_, fun d a h => ?_⟩
  · rw [hown, hcpu]
    rcases E.home d a (hholds d a h) with ho | ⟨ho, hc⟩
    · exact Or.inl ho
    · exact Or.inr ⟨fun e he => ho e ((hown e a).mp he), hc⟩
  · obtain ⟨hl', hsame⟩ := hqueue d l hl
    rw [hsame t ht]
    exact E.queue d l hl' t ht
  · rw [hcpu]
    have ho' := (hown d a).mp ho
    exact E.own d a ho' (hset d a ho' hs)
  · exact hcreated _ (E.created d a (hholds d a h))

/-- **A step that hands one task over.** -/
theorem Excl.move (E : Excl s)
    (hcpu : ∀ b ≠ a, (s'.task (.heap b)).cpu = (s.task (.heap b)).cpu)
    (hown : ∀ d, ∀ b ≠ a, s'.own d = some (.heap b) ↔ s.own d = some (.heap b))
    (hholds : ∀ d, ∀ b ≠ a, s'.holds d (.heap b) → s.holds d (.heap b))
    (hset : ∀ d, ∀ b ≠ a, s.own d = some (.heap b) → (s'.pc d).cpuSet = true →
      (s.pc d).cpuSet = true)
    (hcreated : ∀ t ∈ s.created, t ∈ s'.created)
    (hhome : ∀ d, s'.holds d (.heap a) → s'.own d = some (.heap a) ∨
      (∀ e, s'.own e ≠ some (.heap a)) ∧ (s'.task (.heap a)).cpu = d)
    (hqueue : ∀ d l, Linked (fun t => (s'.task t).next) (s'.head d) l →
      ∀ t ∈ l, (s'.task t).cpu = d)
    (hown' : ∀ d, s'.own d = some (.heap a) → (s'.pc d).cpuSet = true →
      (s'.task (.heap a)).cpu = d)
    (hcr : ∀ d, s'.holds d (.heap a) → .heap a ∈ s'.created) : Excl s' := by
  refine ⟨fun d b h => ?_, hqueue, fun d b ho hs => ?_, fun d b h => ?_⟩
  · by_cases hb : b = a
    · subst hb
      exact hhome d h
    · rw [hown d b hb, hcpu b hb]
      rcases E.home d b (hholds d b hb h) with ho | ⟨ho, hc⟩
      · exact Or.inl ho
      · exact Or.inr ⟨fun e he => ho e ((hown e b hb).mp he), hc⟩
  · by_cases hb : b = a
    · subst hb
      exact hown' d ho hs
    · rw [hcpu b hb]
      have ho' := (hown d b hb).mp ho
      exact E.own d b ho' (hset d b hb ho' hs)
  · by_cases hb : b = a
    · subst hb
      exact hcr d h
    · exact hcreated _ (E.created d b (hholds d b hb h))

/-- The queues after a task is appended: each has its own `cpu`. -/
theorem Excl.queue_enqueued (E : Excl s) (L : Layout s loc Q S) (e : Cpu)
    (hp : (loc t).unqueued = true) (htask : s'.task = (s.enqueued e t).task)
    (hhead : s'.head = (s.enqueued e t).head) (d : Cpu) (l : List Tid)
    (hl : Linked (fun t => (s'.task t).next) (s'.head d) l) : ∀ x ∈ l, (s'.task x).cpu = d := by
  obtain ⟨-, -, hQ, -, -⟩ := L.unqueued hp
  have hrep := (L.rep.enqueued (c := e) hQ fun _ _ _ => L.disjoint).queue d
  rw [htask, hhead] at hl
  obtain rfl := hl.unique hrep
  intro x hx
  rw [htask]
  simp only [State.enqueued]
  rw [Function.update_apply] at hx
  split at hx
  · rename_i hd
    subst hd
    rcases List.mem_append.mp hx with hx | hx
    · rw [if_neg (ne_of_mem_of_not_mem hx (hQ d))]
      exact E.queue d _ (L.rep.queue d) x hx
    · rw [if_pos (List.mem_singleton.mp hx)]
  · rw [if_neg (ne_of_mem_of_not_mem hx (hQ d))]
    exact E.queue d _ (L.rep.queue d) x hx

/-- **A task is enqueued** at `e`, where everyone who holds it is. -/
theorem Excl.enqueue (E : Excl s) (L : Layout s loc Q S) (e : Cpu)
    (hp : (loc (.heap a)).unqueued = true) (htask : s'.task = (s.enqueued e (.heap a)).task)
    (hhead : s'.head = (s.enqueued e (.heap a)).head)
    (hown : ∀ d, ∀ b ≠ a, s'.own d = some (.heap b) ↔ s.own d = some (.heap b))
    (hholds : ∀ d b, s'.holds d (.heap b) → s.holds d (.heap b))
    (hset : ∀ d, ∀ b ≠ a, s.own d = some (.heap b) → (s'.pc d).cpuSet = true →
      (s.pc d).cpuSet = true)
    (hcreated : ∀ t ∈ s.created, t ∈ s'.created) (hun : ∀ d, s'.own d ≠ some (.heap a))
    (hhome : ∀ d, s.holds d (.heap a) → d = e) : Excl s' := by
  refine E.move (a := a) (fun b hb => ?_) hown (fun d b _ => hholds d b) hset hcreated (fun d hd => ?_)
    (E.queue_enqueued L e hp htask hhead) (fun d hd => absurd hd (hun d))
    (fun d hd => hcreated _ (E.created d a (hholds d a hd)))
  · rw [htask]
    simp [State.enqueued, hb]
  · refine Or.inr ⟨hun, ?_⟩
    rw [htask, hhome d (hholds d a hd)]
    simp [State.enqueued]

/-- Everyone who holds an owned task is its owner. -/
theorem Excl.eq_of_own (E : Excl s) (L : Layout s loc Q S) (ho : s.own c = some (.heap a))
    (hd : s.holds d (.heap a)) : d = c := by
  rcases E.home d a hd with ho' | ⟨hun, -⟩
  · have h := L.at_loc (.heap a)
    have h1 := (h.own c).mpr ⟨ho, rfl⟩
    have h2 := (h.own d).mpr ⟨ho', rfl⟩
    exact Option.some.inj (h2.symm.trans h1)
  · exact absurd ho (hun c)

/-- **A CPU takes a task** that no other CPU holds. -/
theorem Excl.pick (E : Excl s) (L : Layout s loc Q S) {cur : Tid} {l : List Tid}
    (hQ : Q d = .heap a :: l) (hlook : (s.pc c).looks? = some cur)
    (hfree : ∀ e, s.holds e (.heap a) → e = c) :
    Excl ((s.dequeued d (.heap a) l.head?).setPc c (.setOnCpu cur (.heap a))) := by
  have h := L.at_loc (.heap a)
  have hloc : loc (.heap a) = .queue d := (h.mem_queue d).mp (by rw [hQ]; simp)
  obtain ⟨hnone, hstale, -⟩ := looks_spec (s := s) (c := c) hlook
  have hcur : (s.pc c).cur? = some cur := by
    cases hp : s.pc c <;> simp_all [Pc.looks?, Pc.cur?]
  have hnext : (s.pc c).next? = none := by
    cases hp : s.pc c <;> simp_all [Pc.looks?, Pc.next?]
  generalize hs' : (s.dequeued d (.heap a) l.head?).setPc c (.setOnCpu cur (.heap a)) = s'
  have hg : Goes s s' c (.setOnCpu cur (.heap a)) := by subst hs'; exact ⟨rfl, rfl, rfl, rfl, rfl⟩
  have hcpu : ∀ x, (s'.task x).cpu = (s.task x).cpu := by subst hs'; exact fun _ => rfl
  have hown : ∀ e b, b ≠ a → (s'.own e = some (.heap b) ↔ s.own e = some (.heap b)) := by
    intro e b hb
    by_cases he : e = c
    · subst he
      rw [hg.own, State.own, hnone]
      simp [Pc.own, Ne.symm hb]
    · rw [hg.stepOf.own he]
  have hholds : ∀ e b, s'.holds e (.heap b) → s.holds e (.heap b) ∨ b = a ∧ e = c := by
    intro e b hh
    simp only [State.holds, hg.current] at hh ⊢
    by_cases he : e = c
    · subst he
      rw [hg.at_pc] at hh
      simp only [Pc.cur?, Pc.next?, Option.some.injEq, Tid.heap.injEq] at hh
      rw [hcur]
      grind
    · rw [hg.stepOf.pc e he] at hh
      exact Or.inl hh
  refine E.move (a := a) (fun b _ => hcpu _) (fun e b hb => hown e b hb) (fun e b hb hh => ?_)
    (fun e b hb ho hset => ?_) (fun t ht => by rw [hg.created]; exact ht) (fun e hh => ?_)
    (fun e l' hl' t ht => ?_) (fun e ho hset => ?_) (fun e _ => ?_)
  · exact (hholds e b hh).resolve_right fun h0 => hb h0.1
  · by_cases he : e = c
    · subst he
      rw [State.own, hnone] at ho
      exact absurd ho (by simp)
    · rwa [hg.stepOf.pc e he] at hset
  · have hec : e = c := by
      rcases hholds e a hh with h0 | h0
      · exact hfree e h0
      · exact h0.2
    exact Or.inl (by rw [hec, hg.own]; rfl)
  · have hrep := (L.rep.dequeued (fun _ _ _ => L.disjoint) hQ).queue e
    rw [← hs'] at hl'
    obtain rfl := hl'.unique hrep
    rw [hcpu]
    refine E.queue e (Q e) (L.rep.queue e) t ?_
    rw [Function.update_apply] at ht
    split at ht
    · rename_i he
      rw [he, hQ]
      exact List.mem_cons_of_mem _ ht
    · exact ht
  · by_cases he : e = c
    · subst he
      rw [hg.at_pc] at hset
      exact absurd hset Bool.false_ne_true
    · rw [hg.stepOf.own he] at ho
      have := (h.own e).mpr ⟨ho, rfl⟩
      rw [hloc] at this
      exact absurd this (by simp [Place.owner?])
  · rw [hg.created]
    exact h.created.mpr (by rw [hloc]; simp)

/-- A step of one CPU to the position `q`, on the same tasks and queues. -/
theorem Excl.goes (E : Excl s) {q : Pc} (hs : StepOf s s' c) (hpc : s'.pc c = q)
    (hcur : s'.current c = s.current c) (hcreated : s'.created = s.created)
    (htask : ∀ x, (s'.task x).cpu = (s.task x).cpu ∧ (s'.task x).next = (s.task x).next)
    (hhead : s'.head = s.head)
    (hown : ∀ b, q.own (s.current c) = some (.heap b) ↔ s.own c = some (.heap b))
    (hholds : ∀ b, q.cur? = some (.heap b) ∨ q.next? = some (.heap b) → s.holds c (.heap b))
    (hset : ∀ b, s.own c = some (.heap b) → q.cpuSet = true → (s.pc c).cpuSet = true) : Excl s' := by
  refine E.frame (fun b => (htask _).1) (fun d b => ?_) (fun d b hh => ?_) (fun d l hl => ?_)
    (fun d b ho hs' => ?_) (fun t ht => by rw [hcreated]; exact ht)
  · by_cases hd : d = c
    · subst hd
      rw [State.own, hpc, hcur]
      exact hown b
    · rw [hs.own hd]
  · by_cases hd : d = c
    · subst hd
      rw [State.holds, hpc, hcur] at hh
      rcases hh with hh | hh
      · exact Or.inl hh
      · exact hholds b hh
    · rwa [State.holds, hs.pc d hd, hs.current d hd] at hh
  · rw [hhead] at hl
    exact ⟨hl.congr fun x _ => (htask x).2.symm, fun x _ => (htask x).1⟩
  · by_cases hd : d = c
    · subst hd
      rw [hpc] at hs'
      exact hset b ho hs'
    · rwa [hs.pc d hd] at hs'

/-- **A CPU lets go of a task that sleeps**, which has it as its `cpu`. -/
theorem Excl.leftAsleep (E : Excl s) (L : Layout s loc Q S) (hpc : s.pc c = .enter (.heap a)) :
    Excl ((s.setTask (.heap a) fun r => { r with onCpu := false }).setPc c (.dequeue (.heap a))) := by
  have hcur := (L.cpu c).stale (.heap a) (by rw [hpc]; rfl)
  have hown : s.own c = some (.heap a) := by rw [State.own, hpc]; exact hcur
  generalize hs' : (s.setTask (.heap a) fun r => { r with onCpu := false }).setPc c
    (.dequeue (.heap a)) = s'
  have hg : Goes s s' c (.dequeue (.heap a)) := by subst hs'; exact ⟨rfl, rfl, rfl, rfl, rfl⟩
  have htask : ∀ x, (s'.task x).cpu = (s.task x).cpu ∧ (s'.task x).next = (s.task x).next := by
    intro x
    subst hs'
    simp only [State.setPc, State.setTask, Function.update_apply]
    split <;> simp_all
  have hhead : s'.head = s.head := by subst hs'; rfl
  have hholds : ∀ d b, s'.holds d (.heap b) → s.holds d (.heap b) := by
    intro d b hh
    rw [State.holds, hg.current] at hh
    by_cases hd : d = c
    · subst hd
      rw [hg.at_pc] at hh
      rw [State.holds, hpc]
      exact hh
    · rwa [hg.stepOf.pc d hd] at hh
  refine E.move (a := a) (fun b _ => (htask _).1) (fun d b hb => ?_) (fun d b _ => hholds d b)
    (fun d b hb ho hset => ?_) (fun t ht => by rw [hg.created]; exact ht) (fun d hh => Or.inr ⟨?_, ?_⟩)
    (fun d l hl t ht => ?_) (fun d ho hset => ?_)
    (fun d hh => by rw [hg.created]; exact E.created d a (hholds d a hh))
  · by_cases hd : d = c
    · subst hd
      rw [hg.own, hown]
      simp [Pc.own, Ne.symm hb]
    · rw [hg.stepOf.own hd]
  · by_cases hd : d = c
    · subst hd
      rw [hpc]
      rfl
    · rwa [hg.stepOf.pc d hd] at hset
  · intro e he
    by_cases hec : e = c
    · subst hec
      rw [hg.own] at he
      exact absurd he (by simp [Pc.own])
    · rw [hg.stepOf.own hec] at he
      have h := L.at_loc (.heap a)
      exact hec (Option.some.inj (((h.own e).mpr ⟨he, rfl⟩).symm.trans ((h.own c).mpr ⟨hown, rfl⟩)))
  · rw [(htask _).1, E.eq_of_own L hown (hholds d a hh)]
    exact E.own c a hown (by rw [hpc]; rfl)
  · rw [hhead] at hl
    rw [(htask t).1]
    exact E.queue d l (hl.congr fun x _ => (htask x).2.symm) t ht
  · by_cases hd : d = c
    · subst hd
      rw [hg.own] at ho
      exact absurd ho (by simp [Pc.own])
    · rw [(htask _).1]
      rw [hg.stepOf.own hd] at ho
      rw [hg.stepOf.pc d hd] at hset
      exact E.own d a ho hset

/-- `next->cpu = cpu`. -/
theorem Excl.moved (E : Excl s) (L : Layout s loc Q S) {cur : Tid}
    (hpc : s.pc c = .setCpu cur (.heap a)) :
    Excl ((s.setTask (.heap a) fun r => { r with cpu := c }).setPc c (.assign cur (.heap a))) := by
  have h := L.at_loc (.heap a)
  have hown : s.own c = some (.heap a) := by rw [State.own, hpc]; rfl
  generalize hs' : (s.setTask (.heap a) fun r => { r with cpu := c }).setPc c
    (.assign cur (.heap a)) = s'
  have hg : Goes s s' c (.assign cur (.heap a)) := by subst hs'; exact ⟨rfl, rfl, rfl, rfl, rfl⟩
  have htask : ∀ x, (s'.task x).cpu = (if x = .heap a then c else (s.task x).cpu) ∧
      (s'.task x).next = (s.task x).next := by
    intro x
    subst hs'
    simp only [State.setPc, State.setTask, Function.update_apply]
    split <;> simp_all
  have hhead : s'.head = s.head := by subst hs'; rfl
  have hown' : s'.own c = s.own c := by rw [hg.own, hown]; rfl
  have hholds : ∀ d b, s'.holds d (.heap b) → s.holds d (.heap b) := by
    intro d b hh
    rw [State.holds, hg.current] at hh
    by_cases hd : d = c
    · subst hd
      rw [hg.at_pc] at hh
      rw [State.holds, hpc]
      exact hh
    · rwa [hg.stepOf.pc d hd] at hh
  have hall : ∀ d b, s'.own d = some (.heap b) ↔ s.own d = some (.heap b) := by
    intro d b
    by_cases hd : d = c
    · rw [hd, hown']
    · rw [hg.stepOf.own hd]
  refine E.move (a := a) (fun b hb => ?_) (fun d b _ => hall d b) (fun d b _ => hholds d b)
    (fun d b hb ho hset => ?_) (fun t ht => by rw [hg.created]; exact ht) (fun d hh => Or.inl ?_)
    (fun d l hl t ht => ?_) (fun d ho _ => ?_)
    (fun d hh => by rw [hg.created]; exact E.created d a (hholds d a hh))
  · rw [(htask _).1, if_neg (by simp [hb])]
  · by_cases hd : d = c
    · subst hd
      exact absurd (Option.some.inj (ho.symm.trans hown)) (by simp [hb])
    · rwa [hg.stepOf.pc d hd] at hset
  · rw [E.eq_of_own L hown (hholds d a hh), hown', hown]
  · rw [hhead] at hl
    have hl' : Linked (fun t => (s.task t).next) (s.head d) l := hl.congr fun x _ => (htask x).2.symm
    obtain rfl := hl'.unique (L.rep.queue d)
    have hta : t ≠ .heap a := by
      rintro rfl
      have h1 := (h.own c).mpr ⟨hown, rfl⟩
      rw [(h.mem_queue d).mp ht] at h1
      exact absurd h1 (by simp [Place.owner?])
    rw [(htask t).1, if_neg hta]
    exact E.queue d _ hl' t ht
  · rw [(htask _).1, if_pos rfl]
    exact (E.eq_of_own L hown (L.holds_of_own ((hall d a).mp ho))).symm

/-! ## Every step -/

theorem Tid.exists_heap (h : t.isHeap = true) : ∃ a, t = .heap a := by
  cases t with
  | idle d => exact absurd h Bool.false_ne_true
  | heap a => exact ⟨a, rfl⟩

/-- A queued task is held by the CPU of its queue only. -/
theorem Excl.eq_of_queue (E : Excl s) (L : Layout s loc Q S) (hq : .heap a ∈ Q d)
    (hc : s.holds c (.heap a)) : c = d := by
  have h := L.at_loc (.heap a)
  rcases E.home c a hc with ho | ⟨-, hcpu⟩
  · have := (h.own c).mpr ⟨ho, rfl⟩
    rw [(h.mem_queue d).mp hq] at this
    exact absurd this (by simp [Place.owner?])
  · rw [← hcpu]
    exact E.queue d _ (L.rep.queue d) _ hq

/-- A CPU looks on. -/
theorem Excl.look (E : Excl s) {q : Pc} {cur : Tid} (h : (s.pc c).looks? = some cur)
    (hq : q.looks? = some cur) : Excl (s.setPc c q) := by
  obtain ⟨hown, -⟩ := looks_spec (s := s) (c := c) h
  obtain ⟨hown', -⟩ := looks_spec (s := s) (c := c) hq
  have hcur : (s.pc c).cur? = some cur := by
    cases hp : s.pc c <;> simp_all [Pc.looks?, Pc.cur?]
  have hcur' : q.cur? = some cur ∧ q.next? = none := by
    cases q <;> simp_all [Pc.looks?, Pc.cur?, Pc.next?]
  refine E.goes (stepOf_setPc q) (setPc_pc q) rfl rfl (fun _ => ⟨rfl, rfl⟩) rfl (fun b => ?_)
    (fun b hb => ?_) (fun b ho => ?_)
  · rw [hown', State.own, hown]
  · rw [hcur'.1, hcur'.2] at hb
    exact Or.inr (Or.inl (hcur.trans (hb.resolve_right (by simp))))
  · rw [State.own, hown] at ho
    exact absurd ho (by simp)

/-- A CPU in `sched_wake_sleepers` or outside the scheduler. -/
def Pc.outside : Pc → Bool
  | .out _ | .wake _ _ | .wakeEnqueue _ _ _ => true
  | .enter _ | .requeue _ | .dequeue _ | .steal _ _ | .stealLock _ _ | .setOnCpu _ _ | .setCpu _ _
  | .assign _ _ | .leave _ _ => false

/-- A step outside `schedule_from_irq` that leaves `cpu` and the queues
alone. -/
theorem Excl.outside (E : Excl s) (hs : StepOf s s' c) (hpc : (s.pc c).outside = true)
    (hpc' : (s'.pc c).outside = true) (hcur : s'.current c = s.current c)
    (hcreated : s'.created = s.created)
    (htask : ∀ x, (s'.task x).cpu = (s.task x).cpu ∧ (s'.task x).next = (s.task x).next)
    (hhead : s'.head = s.head) : Excl s' := by
  have hout : ∀ q : Pc, q.outside = true → q.own (s.current c) = s.current c ∧ q.cur? = none ∧
      q.next? = none ∧ q.cpuSet = true := by
    intro q hq
    cases q <;> simp_all [Pc.outside, Pc.own, Pc.cur?, Pc.next?, Pc.cpuSet]
  obtain ⟨ho, -, -, hset⟩ := hout _ hpc
  obtain ⟨ho', hc', hn', -⟩ := hout _ hpc'
  refine E.goes hs rfl hcur hcreated htask hhead (fun b => ?_) (fun b hb => ?_) (fun _ _ _ => hset)
  · rw [ho', State.own, ho]
  · rw [hc', hn'] at hb
    exact absurd hb (by simp)

theorem wakeOne_task {pp : Option Tid} (x : Tid) :
    ((s.wakeOne pp t).task x).cpu = (s.task x).cpu ∧
      ((s.wakeOne pp t).task x).next = (s.task x).next := by
  cases pp <;> simp only [State.wakeOne, State.setSleepAt, State.setTask, Function.update_apply] <;>
    grind

/-- **The waker enqueues at the `cpu` of the task**, where it is held if at
all. -/
theorem Excl.wakeEnqueued (E : Excl s) (L : Layout s loc Q S) {gap : Bool} {pp : Option Tid}
    (hpc : s.pc c = .wakeEnqueue gap pp t) :
    Excl ((s.readyEnqueue (s.task t).cpu t).setPc c (.wake gap pp)) := by
  have h := L.at_loc t
  have hloc : loc t = .waking c := (h.waking c).mp (by rw [hpc]; rfl)
  have hp : (loc t).unqueued = true := by rw [hloc]; rfl
  obtain ⟨hidle, hready, -⟩ := L.unqueued hp
  obtain ⟨a, rfl⟩ := Tid.exists_heap (h.heap (by rw [hloc]; simp))
  rw [readyEnqueue_eq _ hidle hready]
  have hun : ∀ d, s.own d ≠ some (.heap a) := by
    intro d ho
    have := (h.own d).mpr ⟨ho, rfl⟩
    rw [hloc] at this
    exact absurd this (by simp [Place.owner?])
  have hown : ∀ d b, ((s.enqueued (s.task (.heap a)).cpu (.heap a)).setPc c (.wake gap pp)).own d =
      some (.heap b) ↔ s.own d = some (.heap b) := by
    intro d b
    by_cases hd : d = c
    · subst hd
      rw [setPc_own, State.own, hpc]
      exact Iff.rfl
    · rw [(stepOf_setPc (s := s.enqueued (s.task (.heap a)).cpu (.heap a)) _).own hd]
      exact Iff.rfl
  refine E.enqueue L _ hp rfl rfl (fun d b _ => hown d b) (fun d b hh => ?_) (fun d b _ _ hset => ?_)
    (fun t ht => ht) (fun d ho => hun d ((hown d a).mp ho)) (fun d hd => ?_)
  · by_cases hd : d = c
    · subst hd
      rw [State.holds, setPc_pc] at hh
      exact Or.inl (hh.resolve_right (by simp [Pc.cur?, Pc.next?]))
    · rw [State.holds, (stepOf_setPc (s := s.enqueued (s.task (.heap a)).cpu (.heap a)) _).pc d hd] at hh
      exact hh
  · by_cases hd : d = c
    · subst hd
      rw [hpc]
      rfl
    · rwa [(stepOf_setPc (s := s.enqueued (s.task (.heap a)).cpu (.heap a)) _).pc d hd] at hset
  · rcases E.home d a hd with ho | ⟨-, hcpu⟩
    · exact absurd ho (hun d)
    · exact hcpu.symm

/-- **A task goes back to the queue of the CPU that leaves it.** -/
theorem Excl.requeued (E : Excl s) (L : Layout s loc Q S) {cur : Tid} (hpc : s.pc c = .requeue cur) :
    Excl ((s.readyEnqueue c cur).setPc c (.dequeue cur)) := by
  have h := L.at_loc cur
  have hown : s.own c = some cur := by rw [State.own, hpc]; rfl
  obtain ⟨a, rfl⟩ := Tid.exists_heap ((L.cpu c).live cur (by rw [hpc]; rfl))
  have hloc : loc (.heap a) = .own c := by
    rcases h.of_own hown rfl with hl | hl
    · exact hl
    · exact absurd (h.doze c hl) (by rw [hpc]; exact Bool.false_ne_true)
  have hp : (loc (.heap a)).unqueued = true := by rw [hloc]; rfl
  obtain ⟨hidle, hready, -⟩ := L.unqueued hp
  rw [readyEnqueue_eq _ hidle hready]
  have hstep := stepOf_setPc (s := s.enqueued c (.heap a)) (c := c) (.dequeue (.heap a))
  refine E.enqueue L c hp rfl rfl (fun d b hb => ?_) (fun d b hh => ?_) (fun d b hb ho hset => ?_)
    (fun t ht => ht) (fun d ho => ?_) (fun d hd => E.eq_of_own L hown hd)
  · by_cases hd : d = c
    · subst hd
      rw [setPc_own, hown]
      simp [Pc.own, Ne.symm hb]
    · rw [hstep.own hd]
      exact Iff.rfl
  · by_cases hd : d = c
    · subst hd
      rw [State.holds, setPc_pc] at hh
      rw [State.holds, hpc]
      exact hh
    · rw [State.holds, hstep.pc d hd] at hh
      exact hh
  · by_cases hd : d = c
    · subst hd
      rw [hpc]
      rfl
    · rwa [hstep.pc d hd] at hset
  · by_cases hd : d = c
    · subst hd
      rw [setPc_own] at ho
      exact absurd ho (by simp [Pc.own])
    · rw [hstep.own hd] at ho
      exact hd (E.eq_of_own L hown (L.holds_of_own (c := d) ho))

/-- **A steal takes a task that nobody holds**, if it is not the one its
victim is leaving. -/
theorem Excl.stolen (E : Excl s) (L : Layout s loc Q S) {cur : Tid} {l : List Tid} (hQ : Q d = t :: l)
    (hlook : (s.pc c).looks? = some cur) (hne : (s.pc d).cur? ≠ some t) :
    Excl ((s.dequeued d t l.head?).setPc c (.setOnCpu cur t)) := by
  have h := L.at_loc t
  have hmem : t ∈ Q d := by rw [hQ]; simp
  have hloc := (h.mem_queue _).mp hmem
  obtain ⟨a, rfl⟩ := Tid.exists_heap (h.heap (by rw [hloc]; simp))
  refine E.pick L hQ hlook fun e he => ?_
  have hed := E.eq_of_queue L hmem he
  subst hed
  refine absurd (L.leaving_of_holds he fun ho => ?_) hne
  have := (h.own _).mpr ⟨ho, rfl⟩
  rw [hloc] at this
  exact absurd this (by simp [Place.owner?])

/-- `g_current` becomes what the CPU has picked. -/
theorem Excl.assigned (E : Excl s) {cur next : Tid} (hpc : s.pc c = .assign cur next) (rsp : UInt64) :
    Excl ({ s with current := Function.update s.current c (some next) }.setPc c (.leave cur rsp)) := by
  have hown : s.own c = some next := by rw [State.own, hpc]; rfl
  generalize hs' : { s with current := Function.update s.current c (some next) }.setPc c
    (.leave cur rsp) = s'
  have hpc' : s'.pc c = .leave cur rsp := by rw [← hs', setPc_pc]
  have hcur' : s'.current c = some next := by rw [← hs']; exact Function.update_self _ _ _
  have hstep : StepOf s s' c := by
    subst hs'
    exact ⟨fun d hd => Function.update_of_ne hd _ _, fun d hd => Function.update_of_ne hd _ _⟩
  have htask : s'.task = s.task := by rw [← hs']; rfl
  have hhead : s'.head = s.head := by rw [← hs']; rfl
  refine E.frame (fun b => by rw [htask]) (fun d b => ?_) (fun d b hh => ?_) (fun d l hl => ?_)
    (fun d b ho hset => ?_) (fun t ht => by rw [← hs']; exact ht)
  · by_cases hd : d = c
    · subst hd
      rw [hown, State.own, hpc', hcur']
      exact Iff.rfl
    · rw [hstep.own hd]
  · by_cases hd : d = c
    · subst hd
      rw [State.holds, hpc', hcur'] at hh
      rw [State.holds, hpc]
      rcases hh with hh | hh | hh
      · exact Or.inr (Or.inr hh)
      · exact Or.inr (Or.inl hh)
      · exact absurd hh (by simp [Pc.next?])
    · rwa [State.holds, hstep.pc d hd, hstep.current d hd] at hh
  · rw [htask, hhead] at hl
    exact ⟨hl, fun x _ => by rw [htask]⟩
  · by_cases hd : d = c
    · subst hd
      rw [hpc]
      rfl
    · rwa [hstep.pc d hd] at hset

/-- **A step inside `sched_wake_sleepers` or `schedule_from_irq`.** -/
theorem Excl.goStep (E : Excl s) (L : Layout s loc Q S) (hok : Spares s (c, .go))
    (hs : s.goStep c = some s') : Excl s' := by
  cases goStep_went L.rep hs with
  | awake hpc _ =>
    exact E.outside ⟨fun d hd => Function.update_of_ne hd _ _, fun _ _ => rfl⟩ (by rw [hpc]; rfl)
      (by rw [setPc_pc]; rfl) rfl rfl (fun _ => ⟨rfl, rfl⟩) rfl
  | @woken gap pp t hpc _ =>
    refine E.outside ⟨fun d hd => ?_, fun d _ => ?_⟩ (by rw [hpc]; rfl)
      (by rw [setPc_pc]; split <;> rfl) ?_ ?_ wakeOne_task ?_ <;> cases pp
    · exact Function.update_of_ne hd _ _
    · exact Function.update_of_ne hd _ _
    all_goals rfl
  | passed hpc _ =>
    exact E.outside (stepOf_setPc _) (by rw [hpc]; rfl) (by rw [setPc_pc]; rfl) rfl rfl
      (fun _ => ⟨rfl, rfl⟩) rfl
  | enqueued hpc => exact E.wakeEnqueued L hpc
  | @idled cur hpc hi =>
    have hcur := (L.cpu c).stale cur (by rw [hpc]; rfl)
    have hown : s.own c = some cur := by rw [State.own, hpc]; exact hcur
    have hnh := L.not_heap_of_isIdle hown hi
    refine E.goes (stepOf_setPc _) (setPc_pc _) rfl rfl (fun _ => ⟨rfl, rfl⟩) rfl (fun b => ?_)
      (fun b hb => Or.inl (hcur.trans (hb.resolve_right (by simp [Pc.next?])))) (fun _ _ _ => by rw [hpc]; rfl)
    rw [hown]
    refine iff_of_false (by simp [Pc.own]) ?_
    rintro ⟨⟩
    exact absurd hnh (by simp [Tid.isHeap])
  | @left cur hpc hi =>
    have hcur := (L.cpu c).stale cur (by rw [hpc]; rfl)
    have hown : s.own c = some cur := by rw [State.own, hpc]; exact hcur
    have hh := L.isHeap_of_current hown (by rw [hcur]; simp) hi
    obtain ⟨a, rfl⟩ := Tid.exists_heap hh
    split
    · refine E.goes (c := c) (q := .requeue (.heap a)) ⟨fun d hd => Function.update_of_ne hd _ _,
        fun _ _ => rfl⟩ (setPc_pc _) rfl rfl (fun x => ?_) rfl (fun b => by rw [hown]; rfl)
        (fun b hb => Or.inl (hcur.trans (hb.resolve_right (by simp [Pc.next?]))))
        (fun _ _ _ => by rw [hpc]; rfl)
      simp only [State.setPc, State.setTask, Function.update_apply]
      split <;> simp_all
    · exact E.leftAsleep L hpc
  | requeued hpc => exact E.requeued L hpc
  | looked hlook hq => exact E.look hlook hq
  | @found cur t d l hlook hQ hd =>
    have hhead := L.rep.queue d
    rw [hQ] at hhead
    rcases hd with rfl | ⟨i, hpc, rfl, hpin⟩
    · have hmem : t ∈ Q d := by rw [hQ]; simp
      obtain ⟨a, rfl⟩ := Tid.exists_heap
        ((L.at_loc t).heap (by rw [((L.at_loc t).mem_queue d).mp hmem]; simp))
      exact E.pick L hQ hlook fun e he => E.eq_of_queue L hmem he
    · exact E.stolen L hQ hlook (hok cur i t rfl hpc hhead.1 hpin)
  | @gaveUp cur i hpc =>
    have hown : s.own c = none := by rw [State.own, hpc]; rfl
    refine E.goes (stepOf_setPc _) (setPc_pc _) rfl rfl (fun _ => ⟨rfl, rfl⟩) rfl (fun b => ?_)
      (fun b hb => ?_) (fun b ho => ?_)
    · rw [hown]
      simp [Pc.own]
    · rw [State.holds, hpc]
      exact Or.inr (Or.inl (hb.resolve_right (by simp [Pc.next?])))
    · rw [hown] at ho
      exact absurd ho (by simp)
  | @claimed cur next hpc =>
    have hown : s.own c = some next := by rw [State.own, hpc]; rfl
    refine E.goes (c := c) (q := .setCpu cur next) ⟨fun d hd => Function.update_of_ne hd _ _,
      fun _ _ => rfl⟩ (setPc_pc _) rfl rfl (fun x => ?_) rfl (fun b => by rw [hown]; rfl) (fun b hb => ?_)
      (fun _ _ h0 => absurd h0 Bool.false_ne_true)
    · simp only [State.setPc, State.setTask, Function.update_apply]
      split <;> simp_all
    · rw [State.holds, hpc]
      exact Or.inr hb
  | @moved cur next hpc =>
    obtain ⟨a, rfl⟩ := Tid.exists_heap ((L.cpu c).live next (by rw [hpc]; rfl))
    exact E.moved L hpc
  | assigned hpc => exact E.assigned hpc _
  | leaves hpc =>
    have hown : (Pc.out false).own (s.current c) = s.own c := by rw [State.own, hpc]; rfl
    refine E.goes (stepOf_setPc _) (setPc_pc _) rfl rfl (fun _ => ⟨rfl, rfl⟩) rfl
      (fun b => by rw [hown]) (fun b hb => ?_) (fun _ _ _ => by rw [hpc]; rfl)
    exact absurd hb (by simp [Pc.cur?, Pc.next?])

/-- `task_create_ex` writes to memory that no CPU holds. -/
theorem Excl.setUp (E : Excl s) (L : Layout s loc Q S) {e : Cpu} {r : Task}
    (hcd : .heap a ∉ s.created) (hcr : .heap a ∉ s.creating.map Prod.fst) (n : ℕ) :
    Excl { s.setTask (.heap a) fun _ => r with
      rrCreate := n
      creating := (.heap a, e) :: s.creating } := by
  have h := L.at_loc (.heap a)
  have hloc : loc (.heap a) = .none := by
    by_contra h0
    exact hcd (h.created.mpr ⟨h0, fun h1 => hcr (h.creating.mpr h1)⟩)
  have hne : ∀ x ≠ Tid.heap a, (s.setTask (.heap a) fun _ => r).task x = s.task x :=
    fun x hx => Function.update_of_ne hx _ _
  have hholds : ∀ d, ¬ s.holds d (.heap a) := fun d hd => hcd (E.created d a hd)
  refine E.move (a := a) (fun b hb => ?_) (fun _ _ _ => Iff.rfl) (fun _ _ _ hh => hh)
    (fun _ _ _ _ hset => hset) (fun _ ht => ht) (fun d hh => absurd hh (hholds d))
    (fun d l hl t ht => ?_) (fun d ho => absurd (L.holds_of_own ho) (hholds d))
    (fun d hh => absurd hh (hholds d))
  · exact congrArg Task.cpu (hne _ (by simp [hb]))
  · obtain rfl := hl.unique ((L.rep_of_none hloc fun _ => r).queue d)
    have hta : t ≠ .heap a := by
      rintro rfl
      have := (h.mem_queue d).mp ht
      rw [hloc] at this
      exact absurd this (by simp)
    exact (congrArg Task.cpu (hne t hta)).trans (E.queue d _ (L.rep.queue d) t ht)

/-- `sched_cpu_init` gives the CPU its idle task. -/
theorem Excl.cpuInit (E : Excl s) (L : Layout s loc Q S) (hpc : s.pc c = .out false)
    (hcur : s.current c = none) :
    Excl { s.setTask (.idle c) fun _ => idleInit with
      current := Function.update s.current c (some (.idle c)) } := by
  have h := L.at_loc (.idle c)
  have hloc : loc (.idle c) = .none := by
    by_contra h0
    exact absurd (h.heap h0) Bool.false_ne_true
  have hne : ∀ x ≠ Tid.idle c, (s.setTask (.idle c) fun _ => idleInit).task x = s.task x :=
    fun x hx => Function.update_of_ne hx _ _
  generalize hs' : { s.setTask (.idle c) fun _ => idleInit with
    current := Function.update s.current c (some (.idle c)) } = s'
  have hpc' : s'.pc = s.pc := by rw [← hs']; rfl
  have hcur' : s'.current = Function.update s.current c (some (.idle c)) := by rw [← hs']
  have hstep : StepOf s s' c := ⟨fun d _ => by rw [hpc'], fun d hd => by rw [hcur', Function.update_of_ne hd]⟩
  have htask : ∀ x ≠ Tid.idle c, s'.task x = s.task x := by subst hs'; exact hne
  refine E.frame (fun b => by rw [htask _ (by simp)]) (fun d b => ?_) (fun d b hh => ?_)
    (fun d l hl => ?_) (fun d b _ hset => by rwa [hpc'] at hset) (fun t ht => by rw [← hs']; exact ht)
  · by_cases hd : d = c
    · subst hd
      rw [State.own, State.own, hpc', hpc, hcur', Function.update_self, hcur]
      simp [Pc.own]
    · rw [hstep.own hd]
  · by_cases hd : d = c
    · subst hd
      rw [State.holds, hpc', hpc, hcur', Function.update_self] at hh
      exact absurd hh (by simp [Pc.cur?, Pc.next?])
    · rwa [State.holds, hpc', hcur', Function.update_of_ne hd] at hh
  · have hl' : Linked (fun t => ((s.setTask (.idle c) fun _ => idleInit).task t).next)
        ((s.setTask (.idle c) fun _ => idleInit).head d) l := by
      subst hs'
      exact hl
    obtain rfl := hl'.unique ((L.rep_of_none hloc fun _ => idleInit).queue d)
    refine ⟨L.rep.queue d, fun t ht => ?_⟩
    rw [htask]
    rintro rfl
    have := (h.mem_queue d).mp ht
    rw [hloc] at this
    exact absurd this (by simp)

/-- **Every step that spares the tasks being left.** -/
theorem Excl.step (E : Excl s) (L : Layout s loc Q S) {x : Action} (hok : Spares s (c, x))
    (hs : s.step c x = some s') : Excl s' := by
  cases x with
  | cpuInit =>
    simp only [State.step] at hs
    split at hs
    · rename_i hc
      cases hs
      exact E.cpuInit L hc.2 hc.1
    · exact absurd hs (by simp)
  | tick =>
    simp only [State.step] at hs
    split at hs
    · cases hs
      exact E.frame (fun _ => rfl) (fun _ _ => Iff.rfl) (fun _ _ hh => hh) (fun _ _ hl => ⟨hl, fun _ _ => rfl⟩)
        (fun _ _ _ hset => hset) (fun _ ht => ht)
    · exact absurd hs (by simp)
  | create addr rsp pinned =>
    simp only [State.step] at hs
    split at hs
    · rename_i hc
      cases hs
      exact E.setUp L hc.2.1 hc.2.2 _
    · exact absurd hs (by simp)
  | createEnqueue t target =>
    simp only [State.step] at hs
    split at hs
    · rename_i hc
      cases hs
      have h := L.at_loc t
      have hloc : loc t = .creating := h.creating.mp (List.mem_map_of_mem hc.2)
      have hp : (loc t).unqueued = true := by rw [hloc]; rfl
      obtain ⟨hidle, hready, -⟩ := L.unqueued hp
      obtain ⟨a, rfl⟩ := Tid.exists_heap (h.heap (by rw [hloc]; simp))
      have hholds : ∀ d, ¬ s.holds d (.heap a) := fun d hd => by
        have := h.created.mp (E.created d a hd)
        exact this.2 hloc
      rw [readyEnqueue_eq _ hidle hready]
      exact E.enqueue L target hp rfl rfl (fun _ _ _ => Iff.rfl) (fun _ _ hh => hh)
        (fun _ _ _ _ hset => hset) (fun _ ht => List.mem_cons_of_mem _ ht)
        (fun d ho => hholds d (L.holds_of_own (c := d) ho)) (fun d hd => absurd hd (hholds d))
    · exact absurd hs (by simp)
  | sleep jf =>
    simp only [State.step] at hs
    split at hs
    · exact absurd hs (by simp)
    · rename_i cur hcur
      split at hs
      · rename_i hc
        cases hs
        refine E.outside (c := c) ⟨fun d hd => Function.update_of_ne hd _ _, fun _ _ => rfl⟩
          (by rw [hc.1]; rfl) (by rw [setPc_pc]; rfl) rfl rfl (fun x => ?_) rfl
        simp only [State.setPc, State.sleepSection, State.setTask, Function.update_apply]
        split <;> simp_all
      · exact absurd hs (by simp)
  | wake =>
    simp only [State.step] at hs
    split at hs
    · rename_i gap hpc
      split at hs
      · cases hs
        exact E.outside (c := c) ⟨fun d hd => Function.update_of_ne hd _ _, fun _ _ => rfl⟩
          (by rw [hpc]; rfl) (by rw [setPc_pc]; rfl) rfl rfl (fun _ => ⟨rfl, rfl⟩) rfl
      · exact absurd hs (by simp)
    · exact absurd hs (by simp)
  | irq frame =>
    simp only [State.step] at hs
    split at hs
    · rename_i gap cur hpc hcur
      cases hs
      have hown : s.own c = some cur := by rw [State.own, hpc]; exact hcur
      refine E.goes (c := c) (q := .enter cur) ⟨fun d hd => Function.update_of_ne hd _ _, fun _ _ => rfl⟩
        (setPc_pc _) rfl rfl (fun x => ?_) rfl (fun b => ?_) (fun b hb => ?_)
        (fun _ _ _ => by rw [hpc]; rfl)
      · simp only [State.setPc, State.setTask, Function.update_apply]
        split <;> simp_all
      · rw [hown, hcur]
        exact Iff.rfl
      · exact Or.inl (hcur.trans (hb.resolve_right (by simp [Pc.next?])))
    · exact absurd hs (by simp)
  | go => exact E.goStep L hok hs

/-! ## Runs -/

theorem excl_of_booted {boot : Cpu} (h : Booted boot s) : Excl s := by
  obtain ⟨-, hcur, hrq, -, -, -, hpc, -, -⟩ := h
  have hholds : ∀ d b, ¬ s.holds d (.heap b) := by
    intro d b hh
    rw [State.holds, hpc, hcur, Function.update_apply] at hh
    split at hh <;> simp [Pc.cur?, Pc.next?] at hh
  have hown : ∀ d b, s.own d ≠ some (.heap b) := by
    intro d b ho
    rw [State.own, hpc, hcur, Function.update_apply] at ho
    split at ho <;> simp [Pc.own] at ho
  refine ⟨fun d b hh => absurd hh (hholds d b), fun d l hl t ht => ?_, fun d b ho => absurd ho (hown d b),
    fun d b hh => absurd hh (hholds d b)⟩
  rw [(hrq d).1] at hl
  obtain rfl := hl.unique (show Linked _ none [] from rfl)
  exact absurd ht (by simp)

/-- Every run whose steals spare the tasks being left keeps the invariant. -/
theorem excl_of_reachable (h : (machine.restrict Spares).Reachable s) : Excl s := by
  refine h.invariant (fun _ ⟨_, hb⟩ => excl_of_booted hb) fun s a s' hr E hs => ?_
  obtain ⟨loc, Q, S, L⟩ := laid_of_reachable hr.of_restrict
  exact E.step L hs.1 hs.2

/-- **A task never runs on two CPUs**, in every run in which no
`rq_steal_one` takes the task its victim is still leaving: of two CPUs that
have the task as `g_current`, are inside `schedule_from_irq` on its stack
or have picked it, both are the same. -/
theorem task_on_one_cpu (h : (machine.restrict Spares).Reachable s) (hc : s.holds c (.heap a))
    (hd : s.holds d (.heap a)) : c = d := by
  obtain ⟨loc, Q, S, L⟩ := laid_of_reachable h.of_restrict
  have E := excl_of_reachable h
  rcases E.home c a hc with ho | ⟨hun, hcpu⟩
  · exact (E.eq_of_own L ho hd).symm
  · rcases E.home d a hd with ho' | ⟨-, hcpu'⟩
    · exact absurd ho' (hun d)
    · exact hcpu.symm.trans hcpu'

/-- A step of `restrict Spares` as a function: a steal is refused when the
victim is leaving the task. -/
def spareStep (s : State) (x : Cpu × Action) : Option State :=
  match x.2, s.pc x.1 with
  | .go, .stealLock _ i =>
    if (s.head (State.nthCpu x.1.val i)).isSome ∧
        s.head (State.nthCpu x.1.val i) = (s.pc (State.nthCpu x.1.val i)).cur? then none
    else s.step x.1 x.2
  | _, _ => s.step x.1 x.2

theorem spareStep_spec {x : Cpu × Action} (h : spareStep s x = some s') :
    (machine.restrict Spares).step s x s' := by
  unfold spareStep at h
  split at h
  · rename_i cur i hx hpc
    split at h
    · exact absurd h (by simp)
    · rename_i hne
      refine ⟨fun cur' i' t _ hpc' hhead _ hcur => hne ?_, h⟩
      rw [hpc] at hpc'
      cases hpc'
      rw [hhead, hcur]
      exact ⟨rfl, rfl⟩
  · rename_i hno
    exact ⟨fun cur i t hx hpc => absurd hpc (hno cur i hx), h⟩

/-- CPU `1` runs one task and has another in its queue; CPU `0` comes up
and steals that one. -/
def sparedRun : List (Cpu × Action) :=
  [(1, .create 16 0 false), (1, .createEnqueue (.heap 16) 1), (1, .create 32 0 false),
    (1, .createEnqueue (.heap 32) 1)] ++ switch 1 6 ++ [(0, .cpuInit)] ++ switch 0 7

/-- The state `sparedRun` leads to. -/
def sparedState : State := (System.run spareStep (bootState 1) sparedRun).getD (bootState 1)

theorem sparedState_reachable : (machine.restrict Spares).Reachable sparedState := by
  have hboot : (machine.restrict Spares).Reachable (bootState 1) :=
    .init ⟨1, rfl, rfl, fun _ => ⟨rfl, rfl⟩, rfl, rfl, rfl, fun _ => rfl, rfl, rfl⟩
  refine hboot.run (fun _ _ _ hs => spareStep_spec hs) (l := sparedRun) ?_
  have : (System.run spareStep (bootState 1) sparedRun).isSome = true := by decide +kernel
  obtain ⟨s, hs⟩ := Option.isSome_iff_exists.mp this
  rw [sparedState, hs]
  rfl

/-- There each CPU holds its own task. -/
theorem task_on_one_cpu_spared :
    sparedState.current 1 = some (.heap 16) ∧ sparedState.current 0 = some (.heap 32) ∧
      ∀ d, sparedState.holds d (.heap 32) → (0 : Cpu) = d :=
  ⟨by decide +kernel, by decide +kernel, fun _ hd =>
    task_on_one_cpu sparedState_reachable (Or.inl (by decide +kernel)) hd⟩

/-- CPU `1` runs the task and is interrupted; it has put the task back into
its queue when CPU `0`, with nothing to run, steals it from there. -/
def stolenRun : List (Cpu × Action) :=
  [(1, .create 16 0 false), (1, .createEnqueue (.heap 16) 1)] ++ switch 1 6 ++ [(0, .cpuInit)] ++
    switch 1 2 ++ switch 0 7

/-- The state `stolenRun` leads to. -/
def stolenState : State :=
  (System.run (fun s a => s.step a.1 a.2) (bootState 1) stolenRun).getD (bootState 1)

theorem stolenState_reachable : machine.Reachable stolenState := by
  refine (bootState_reachable 1).run (f := fun s a => s.step a.1 a.2) (fun _ _ _ h => h)
    (l := stolenRun) ?_
  have : (System.run (fun s a => s.step a.1 a.2) (bootState 1) stolenRun).isSome = true := by
    decide +kernel
  obtain ⟨s, hs⟩ := Option.isSome_iff_exists.mp this
  rw [stolenState, hs]
  rfl

/-- **The task is then `g_current` of both.** -/
theorem task_on_two_cpus :
    machine.Reachable stolenState ∧ stolenState.current 0 = some (.heap 16) ∧
      stolenState.current 1 = some (.heap 16) ∧
      ¬ ∀ s, machine.Reachable s → ∀ a c d, s.current c = some (.heap a) →
        s.current d = some (.heap a) → c = d := by
  have h0 : stolenState.current 0 = some (.heap 16) := by decide +kernel
  have h1 : stolenState.current 1 = some (.heap 16) := by decide +kernel
  exact ⟨stolenState_reachable, h0, h1, fun h =>
    absurd (h _ stolenState_reachable 16 0 1 h0 h1) (by decide)⟩

end Sched

end Csos

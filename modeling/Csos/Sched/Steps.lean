import Csos.Sched.Layout
/-!
# The scheduler — what every step does to the layout

A step is taken by one CPU and moves at most one task. `Layout.move` settles
every other CPU and every other task once; each kind of step then answers
for its own.
-/

namespace Csos

namespace Sched

variable {s s' : State} {loc : Tid → Place} {Q Q' : Queues} {S S' : List Tid} {c d : Cpu}
  {t x : Tid} {p : Place}

/-- The flags a layout speaks of. -/
structure SameFlags (r r' : Task) : Prop where
  isIdle : r'.isIdle = r.isIdle
  state : r'.state = r.state
  onReady : r'.onReady = r.onReady
  onCpu : r'.onCpu = r.onCpu

/-- The step is one of CPU `c`. -/
structure StepOf (s s' : State) (c : Cpu) : Prop where
  pc : ∀ d ≠ c, s'.pc d = s.pc d
  current : ∀ d ≠ c, s'.current d = s.current d

/-- Task `x` keeps its flags and its lists, and CPU `c` its hold on it. -/
structure Keeps (s s' : State) (Q Q' : Queues) (S S' : List Tid) (c : Cpu) (x : Tid) : Prop where
  flags : SameFlags (s.task x) (s'.task x)
  mem_queue : ∀ d, x ∈ Q' d ↔ x ∈ Q d
  mem_sleep : x ∈ S' ↔ x ∈ S
  creating : x ∈ s'.creating.map Prod.fst ↔ x ∈ s.creating.map Prod.fst
  created : x ∈ s'.created ↔ x ∈ s.created
  own : x.isHeap = true → (s'.own c = some x ↔ s.own c = some x)
  waking : (s'.pc c).waking? = some x ↔ (s.pc c).waking? = some x
  on_cpu : x.isHeap = true → s.own c = some x → (s'.pc c).onCpuSet = true →
    (s.pc c).onCpuSet = true
  doze : x.isHeap = true → s.own c = some x → (s.pc c).mayDoze = true → (s'.pc c).mayDoze = true

theorem StepOf.own (h : StepOf s s' c) (hd : d ≠ c) : s'.own d = s.own d := by
  rw [State.own, State.own, h.pc d hd, h.current d hd]

/-- A task that is kept stays where it is. -/
theorem At.keep (h : At s Q S x p) (hs : StepOf s s' c) (hk : Keeps s s' Q Q' S S' c x) :
    At s' Q' S' x p := by
  have hf := hk.flags
  have hown : ∀ d, x.isHeap = true → (s'.own d = some x ↔ s.own d = some x) := by
    intro d hh
    by_cases hd : d = c
    · rw [hd]
      exact hk.own hh
    · rw [hs.own hd]
  refine ⟨fun d => (hk.mem_queue d).trans (h.mem_queue d), hk.mem_sleep.trans h.mem_sleep,
    fun d => (h.own d).trans ?_, fun d => ?_, hk.creating.trans h.creating,
    hk.created.trans h.created, h.heap, fun hp => hf.isIdle.trans (h.not_idle hp),
    fun hp => by rw [hf.state]; exact h.state hp, fun hp => by rw [hf.onReady]; exact h.on_ready hp,
    fun d hd hset => ?_, fun hp => hf.onCpu.trans (h.asleep hp), fun d hd => ?_⟩
  · exact ⟨fun ⟨ho, hh⟩ => ⟨(hown d hh).mpr ho, hh⟩, fun ⟨ho, hh⟩ => ⟨(hown d hh).mp ho, hh⟩⟩
  · by_cases hdc : d = c
    · rw [hdc]
      exact hk.waking.trans (h.waking c)
    · rw [hs.pc d hdc]
      exact h.waking d
  · rw [hf.onCpu]
    by_cases hdc : d = c
    · subst hdc
      obtain ⟨ho, hh⟩ := (h.own d).mp hd
      exact h.on_cpu d hd (hk.on_cpu hh ho hset)
    · rw [hs.pc d hdc] at hset
      exact h.on_cpu d hd hset
  · have hdz := h.doze d hd
    by_cases hdc : d = c
    · subst hdc
      obtain ⟨ho, hh⟩ := (h.own d).mp (by rw [hd]; rfl)
      exact hk.doze hh ho hdz
    · rw [hs.pc d hdc]
      exact hdz

/-- What a step of another CPU leaves of `g_sched_lock`, the sleep list and
the idle task, as far as CPU `d` sees them. -/
structure Unseen (s s' : State) (S' : List Tid) (d : Cpu) : Prop where
  lock : s'.lock = some d ↔ s.lock = some d
  pp : ∀ u, (s.pc d).pp? = some u → u ∈ S'
  is_idle : (s'.task (.idle d)).isIdle = (s.task (.idle d)).isIdle

/-- A CPU that takes no step stays as it is. -/
theorem CpuOk.keep (h : CpuOk s S d) (hs : StepOf s s' c) (hd : d ≠ c) (hu : Unseen s s' S' d) :
    CpuOk s' S' d := by
  have hpc := hs.pc d hd
  refine ⟨?_, ?_, ?_, ?_, ?_, ?_⟩
  · rw [hpc, hu.lock]
    exact h.lock
  · rw [hpc]
    exact hu.pp
  · rw [hpc, hs.current d hd]
    exact h.stale
  · rw [hpc]
    exact h.live
  · rw [hs.own hd]
    exact h.own_idle
  · rw [hs.current d hd, hu.is_idle]
    exact h.is_idle

/-- **One CPU moves one task.** -/
theorem Layout.move (L : Layout s loc Q S) (hs : StepOf s s' c) (hrep : Rep s' Q' S')
    (hkeep : ∀ x ≠ t, Keeps s s' Q Q' S S' c x) (hat : At s' Q' S' t p) (hcpu : CpuOk s' S' c)
    (hother : ∀ d ≠ c, Unseen s s' S' d) (hnd : (s'.creating.map Prod.fst).Nodup) :
    Layout s' (Function.update loc t p) Q' S' := by
  refine ⟨hrep, fun x => ?_, fun d => ?_, hnd⟩
  · by_cases hx : x = t
    · subst hx
      rw [Function.update_self]
      exact hat
    · rw [Function.update_of_ne hx]
      exact (L.at_loc x).keep hs (hkeep x hx)
  · by_cases hd : d = c
    · subst hd
      exact hcpu
    · exact (L.cpu d).keep hs hd (hother d hd)

/-- **A step that moves no task.** -/
theorem Layout.stay (L : Layout s loc Q S) (hs : StepOf s s' c) (hrep : Rep s' Q S)
    (hkeep : ∀ x, Keeps s s' Q Q S S c x) (hcpu : CpuOk s' S c)
    (hother : ∀ d ≠ c, Unseen s s' S d) (hnd : (s'.creating.map Prod.fst).Nodup) :
    Layout s' loc Q S := by
  have := L.move hs hrep (fun x _ => hkeep x) ((L.at_loc (.idle c)).keep hs (hkeep _)) hcpu hother hnd
  rwa [Function.update_eq_self] at this

/-- No task is in two queues. -/
theorem Layout.disjoint (L : Layout s loc Q S) {d d' : Cpu} (h : x ∈ Q d) (h' : x ∈ Q d') :
    d = d' := by
  have h1 := ((L.at_loc x).mem_queue d).mp h
  have h2 := ((L.at_loc x).mem_queue d').mp h'
  exact Place.queue.inj (h1.symm.trans h2)

/-- A CPU that advances with `g_current` and the idle task as they were, in
or out of `sched_wake_sleepers` as before. -/
theorem CpuOk.advance (h : CpuOk s S c) (hwaker : (s'.pc c).waker = (s.pc c).waker)
    (hlock : s'.lock = s.lock) (hcur : s'.current c = s.current c)
    (hidle : (s'.task (.idle c)).isIdle = (s.task (.idle c)).isIdle)
    (hpp : ∀ u, (s'.pc c).pp? = some u → u ∈ S')
    (hstale : ∀ u, (s'.pc c).stale? = some u → s.current c = some u)
    (hlive : ∀ u, (s'.pc c).live? = some u → u.isHeap = true)
    (hown : ∀ u, s'.own c = some u → u.isHeap = false → u = .idle c) : CpuOk s' S' c := by
  refine ⟨?_, hpp, ?_, hlive, hown, ?_⟩
  · rw [hwaker, hlock]
    exact h.lock
  · rw [hcur]
    exact hstale
  · rw [hcur, hidle]
    exact h.is_idle

/-! ## Steps that move no task -/

theorem stepOf_setPc (q : Pc) : StepOf s (s.setPc c q) c :=
  ⟨fun _ hd => Function.update_of_ne hd _ _, fun _ _ => rfl⟩

theorem SameFlags.refl (r : Task) : SameFlags r r := ⟨rfl, rfl, rfl, rfl⟩

@[simp] theorem setPc_pc (q : Pc) : (s.setPc c q).pc c = q := Function.update_self _ _ _

@[simp] theorem setPc_own (q : Pc) : (s.setPc c q).own c = q.own (s.current c) := by
  simp [State.own, State.setPc]

/-- A step that only moves CPU `c`, which goes on to own the task it owned:
only idle tasks come and go so. -/
theorem Layout.setPc (L : Layout s loc Q S) (q : Pc)
    (hown : ∀ x, x.isHeap = true → (q.own (s.current c) = some x ↔ s.own c = some x))
    (hidle : ∀ u, q.own (s.current c) = some u → u.isHeap = false → u = .idle c)
    (hwaking : q.waking? = (s.pc c).waking?) (hset : (s.pc c).onCpuSet = true)
    (hdoze : ∀ x, x.isHeap = true → s.own c = some x → (s.pc c).mayDoze = true → q.mayDoze = true)
    (hlock : q.waker = (s.pc c).waker) (hpp : ∀ u, q.pp? = some u → u ∈ S)
    (hstale : ∀ u, q.stale? = some u → s.current c = some u) (hlive : q.live? = none) :
    Layout (s.setPc c q) loc Q S := by
  refine L.stay (stepOf_setPc q) (L.rep.congr (fun _ => rfl) (fun _ => rfl) rfl rfl rfl)
    (fun x => ⟨SameFlags.refl _, fun _ => Iff.rfl, Iff.rfl, Iff.rfl, Iff.rfl, fun hh => ?_, ?_,
      fun _ _ _ => hset, fun hh ho => ?_⟩) ((L.cpu c).advance ?_ rfl rfl rfl ?_ ?_ ?_ ?_)
    (fun d _ => ⟨Iff.rfl, (L.cpu d).pp, rfl⟩) L.creating_nodup
  · rw [setPc_own]
    exact hown x hh
  · rw [setPc_pc, hwaking]
  · rw [setPc_pc]
    exact hdoze x hh ho
  · rwa [setPc_pc]
  · rwa [setPc_pc]
  · rwa [setPc_pc]
  · rw [setPc_pc, hlive]
    simp
  · rwa [setPc_own]

/-! ## Steps that move a task -/

/-- An owned task is awake or dozes. -/
theorem At.of_own (h : At s Q S t p) (hown : s.own c = some t) (hh : t.isHeap = true) :
    p = .own c ∨ p = .doze c := by
  have := (h.own c).mpr ⟨hown, hh⟩
  cases p <;> simp_all [Place.owner?]

/-- A task about to be enqueued is in no queue and says so. -/
theorem Layout.unqueued (L : Layout s loc Q S) (hp : (loc t).unqueued = true) :
    (s.task t).isIdle = false ∧ (s.task t).onReady = false ∧ (∀ d, t ∉ Q d) ∧
      (s.task t).state = .ready ∧ t ∉ S := by
  have h := L.at_loc t
  generalize loc t = p at h hp
  have hne : p ≠ .none := by rintro rfl; exact absurd hp (by decide)
  have hq : ∀ d, p ≠ .queue d := by rintro d rfl; exact absurd hp Bool.false_ne_true
  have hsl : p.sleeps = false := by
    cases p <;> first | rfl | exact absurd hp Bool.false_ne_true
  refine ⟨h.not_idle hne, ?_, fun d hd => hq d ((h.mem_queue d).mp hd), ?_, ?_⟩
  · have := h.on_ready hne
    grind
  · have := h.state hne
    cases hst : (s.task t).state <;> simp_all
  · rw [h.mem_sleep, hsl]
    simp

/-- **Enqueueing**, whatever else the step does to the CPU and to the lists
of `task_create_ex`. -/
theorem Layout.enqueue (L : Layout s loc Q S) (e : Cpu) (hp : (loc t).unqueued = true)
    (htask : s'.task = (s.enqueued e t).task) (hhead : s'.head = (s.enqueued e t).head)
    (htail : s'.tail = (s.enqueued e t).tail) (hsleep : s'.sleepHead = s.sleepHead)
    (hlock : s'.lock = s.lock) (hs : StepOf s s' c)
    (hcr : ∀ x ≠ t, x ∈ s'.creating.map Prod.fst ↔ x ∈ s.creating.map Prod.fst)
    (hcd : ∀ x ≠ t, x ∈ s'.created ↔ x ∈ s.created)
    (hkeep : ∀ x ≠ t, x.isHeap = true → (s'.own c = some x ↔ s.own c = some x) ∧
      (s.own c = some x → ((s'.pc c).onCpuSet = true → (s.pc c).onCpuSet = true) ∧
        ((s.pc c).mayDoze = true → (s'.pc c).mayDoze = true)))
    (hwk : ∀ x ≠ t, (s'.pc c).waking? = some x ↔ (s.pc c).waking? = some x)
    (hown : ∀ d, s'.own d ≠ some t) (hnwk : ∀ d, (s'.pc d).waking? ≠ some t)
    (hncr : t ∉ s'.creating.map Prod.fst) (hincd : t ∈ s'.created) (hcpu : CpuOk s' S c)
    (hnd : (s'.creating.map Prod.fst).Nodup) :
    Layout s' (Function.update loc t (.queue e)) (Function.update Q e (Q e ++ [t])) S := by
  obtain ⟨hidle, hready, hQ, hst, hS⟩ := L.unqueued hp
  have h := L.at_loc t
  have hne : loc t ≠ .none := by intro h0; rw [h0] at hp; exact absurd hp (by decide)
  have hrep : Rep s' (Function.update Q e (Q e ++ [t])) S :=
    (L.rep.enqueued (c := e) hQ fun _ _ _ => L.disjoint).congr (fun x => by simp only [htask])
      (fun x => by simp only [htask]) hhead htail hsleep
  have hmem : ∀ x d, x ∈ Function.update Q e (Q e ++ [t]) d ↔ x ∈ Q d ∨ (x = t ∧ d = e) := by
    intro x d
    rw [Function.update_apply]
    split
    · simp_all
    · simp_all
  refine L.move hs hrep
    (fun x hx => ⟨?_, fun d => ?_, Iff.rfl, hcr x hx, hcd x hx, fun hh => (hkeep x hx hh).1,
      hwk x hx, fun hh ho => ((hkeep x hx hh).2 ho).1, fun hh ho => ((hkeep x hx hh).2 ho).2⟩)
    ⟨fun d => ?_, ?_, fun d => ?_, fun d => ?_, ?_, ?_, fun _ => h.heap hne, fun _ => ?_, fun _ => ?_,
      fun _ => ?_, fun d hd => ?_, fun h0 => ?_, fun d hd => ?_⟩ hcpu
    (fun d _ => ⟨by rw [hlock], (L.cpu d).pp, by simp only [htask, State.enqueued]⟩) hnd
  · rw [htask]
    exact ⟨rfl, rfl, by simp [State.enqueued, hx], rfl⟩
  · rw [hmem]
    simp [hx]
  · rw [hmem]
    simp [hQ d, eq_comm]
  · simp [hS, Place.sleeps]
  · simp [Place.owner?, hown d]
  · simp [hnwk d]
  · simp [hncr]
  · simp [hincd]
  · rw [htask]
    exact hidle
  · rw [htask]
    simp [State.enqueued, hst, Place.sleeps]
  · rw [htask]
    simp [State.enqueued]
  · exact absurd hd (by simp [Place.owner?])
  · exact absurd h0 (by simp)
  · exact absurd hd (by simp)

/-- `schedule_from_irq` enqueues the task it leaves. -/
theorem Layout.requeued (L : Layout s loc Q S) (hpc : s.pc c = .requeue t) :
    Layout ((s.readyEnqueue c t).setPc c (.dequeue t)) (Function.update loc t (.queue c))
      (Function.update Q c (Q c ++ [t])) S := by
  have h := L.at_loc t
  have hc := L.cpu c
  have hown : s.own c = some t := by rw [State.own, hpc]; rfl
  have hh := hc.live t (by rw [hpc]; rfl)
  have hloc : loc t = .own c := by
    rcases h.of_own hown hh with hl | hl
    · exact hl
    · exact absurd (h.doze c hl) (by rw [hpc]; exact Bool.false_ne_true)
  have hp : (loc t).unqueued = true := by rw [hloc]; rfl
  obtain ⟨hidle, hready, -⟩ := L.unqueued hp
  rw [readyEnqueue_eq c hidle hready]
  have hne : ∀ x ≠ t, s.own c ≠ some x := fun x hx e => hx (Option.some.inj (e.symm.trans hown))
  refine L.enqueue c hp rfl rfl rfl rfl rfl ⟨fun d hd => Function.update_of_ne hd _ _, fun _ _ => rfl⟩
    (fun _ _ => Iff.rfl) (fun _ _ => Iff.rfl) (fun x hx _ => ⟨?_, fun ho => absurd ho (hne x hx)⟩)
    (fun x hx => ?_) (fun d => ?_) (fun d => ?_) ?_ ?_ (hc.advance ?_ rfl rfl rfl ?_ ?_ ?_ ?_)
    L.creating_nodup
  · rw [setPc_own]
    exact iff_of_false (by simp [Pc.own]) (hne x hx)
  · rw [setPc_pc, hpc]
    exact iff_of_false (by simp [Pc.waking?]) (by simp [Pc.waking?])
  · -- nobody else owned it
    by_cases hd : d = c
    · subst hd
      rw [setPc_own]
      simp [Pc.own]
    · rw [(stepOf_setPc (s := s.enqueued c t) _).own hd]
      intro ho
      have := (h.own d).mpr ⟨ho, hh⟩
      rw [hloc] at this
      exact hd (Option.some.inj this).symm
  · by_cases hd : d = c
    · subst hd
      rw [setPc_pc]
      simp [Pc.waking?]
    · rw [(stepOf_setPc (s := s.enqueued c t) _).pc d hd]
      intro hw
      have := (h.waking d).mp hw
      rw [hloc] at this
      exact absurd this (by simp)
  · exact fun hcr => absurd (h.creating.mp hcr) (by rw [hloc]; simp)
  · exact h.created.mpr (by rw [hloc]; simp)
  · rw [setPc_pc, hpc]
    rfl
  · rw [setPc_pc]
    simp [Pc.pp?]
  · rw [setPc_pc]
    intro u hu
    refine hc.stale u ?_
    rw [hpc]
    exact hu
  · rw [setPc_pc]
    simp [Pc.live?]
  · rw [setPc_own]
    simp [Pc.own]

/-- `sched_wake_sleepers` enqueues the sleeper it took off the list. -/
theorem Layout.wakeEnqueued (L : Layout s loc Q S) {gap : Bool} {pp : Option Tid}
    (hpc : s.pc c = .wakeEnqueue gap pp t) :
    Layout ((s.readyEnqueue (s.task t).cpu t).setPc c (.wake gap pp))
      (Function.update loc t (.queue (s.task t).cpu))
      (Function.update Q (s.task t).cpu (Q (s.task t).cpu ++ [t])) S := by
  have h := L.at_loc t
  have hc := L.cpu c
  have hloc : loc t = .waking c := (h.waking c).mp (by rw [hpc]; rfl)
  have hp : (loc t).unqueued = true := by rw [hloc]; rfl
  obtain ⟨hidle, hready, -⟩ := L.unqueued hp
  rw [readyEnqueue_eq _ hidle hready]
  have hhold : ((s.enqueued (s.task t).cpu t).setPc c (.wake gap pp)).own c = s.own c := by
    rw [setPc_own, State.own, hpc]
    rfl
  have hown : ∀ d, s.own d ≠ some t := by
    intro d ho
    have := (h.own d).mpr ⟨ho, h.heap (by rw [hloc]; simp)⟩
    rw [hloc] at this
    exact absurd this (by simp [Place.owner?])
  refine L.enqueue _ hp rfl rfl rfl rfl rfl ⟨fun d hd => Function.update_of_ne hd _ _, fun _ _ => rfl⟩
    (fun _ _ => Iff.rfl) (fun _ _ => Iff.rfl) (fun x hx _ => ⟨by rw [hhold], fun _ => ⟨?_, ?_⟩⟩)
    (fun x hx => ?_) (fun d => ?_) (fun d => ?_) ?_ ?_ (hc.advance ?_ rfl rfl rfl ?_ ?_ ?_ ?_)
    L.creating_nodup
  · rw [hpc]
    exact fun _ => rfl
  · rw [setPc_pc, hpc]
    exact id
  · rw [setPc_pc, hpc]
    exact iff_of_false (by simp [Pc.waking?]) (by simp [Pc.waking?, Ne.symm hx])
  · by_cases hd : d = c
    · subst hd
      rw [hhold]
      exact hown d
    · rw [(stepOf_setPc (s := s.enqueued (s.task t).cpu t) _).own hd]
      exact hown d
  · by_cases hd : d = c
    · subst hd
      rw [setPc_pc]
      simp [Pc.waking?]
    · rw [(stepOf_setPc (s := s.enqueued (s.task t).cpu t) _).pc d hd]
      intro hw
      have := (h.waking d).mp hw
      rw [hloc] at this
      exact hd (Place.waking.inj this).symm
  · exact fun hcr => absurd (h.creating.mp hcr) (by rw [hloc]; simp)
  · exact h.created.mpr (by rw [hloc]; simp)
  · rw [setPc_pc, hpc]
    rfl
  · rw [setPc_pc]
    intro u hu
    refine hc.pp u ?_
    rw [hpc]
    exact hu
  · rw [setPc_pc]
    simp [Pc.stale?]
  · rw [setPc_pc]
    simp [Pc.live?]
  · rw [hhold]
    exact hc.own_idle

/-- `task_create_ex` enqueues the new task. -/
theorem Layout.createEnqueued (L : Layout s loc Q S) {e : Cpu} (hmem : (t, e) ∈ s.creating) :
    Layout { s.readyEnqueue e t with
        creating := s.creating.erase (t, e)
        created := t :: s.created }
      (Function.update loc t (.queue e)) (Function.update Q e (Q e ++ [t])) S := by
  have h := L.at_loc t
  have hloc : loc t = .creating := h.creating.mp (List.mem_map_of_mem hmem)
  have hp : (loc t).unqueued = true := by rw [hloc]; rfl
  obtain ⟨hidle, hready, -⟩ := L.unqueued hp
  rw [readyEnqueue_eq _ hidle hready]
  have hown : ∀ d, s.own d ≠ some t := by
    intro d ho
    have := (h.own d).mpr ⟨ho, h.heap (by rw [hloc]; simp)⟩
    rw [hloc] at this
    exact absurd this (by simp [Place.owner?])
  -- `t` occurs once in `creating`, so that erasing it leaves the others
  have hinj := List.inj_on_of_nodup_map L.creating_nodup
  have hnd : s.creating.Nodup := List.Nodup.of_map _ L.creating_nodup
  have herase : ∀ x, x ∈ (s.creating.erase (t, e)).map Prod.fst ↔
      x ≠ t ∧ x ∈ s.creating.map Prod.fst := by
    intro x
    simp only [List.mem_map, hnd.mem_erase_iff]
    constructor
    · rintro ⟨y, ⟨hne, hy⟩, rfl⟩
      exact ⟨fun hyt => hne (hinj hy hmem hyt), y, hy, rfl⟩
    · rintro ⟨hne, y, hy, rfl⟩
      exact ⟨y, ⟨fun hyt => hne (by rw [hyt]), hy⟩, rfl⟩
  refine L.enqueue (c := e) _ hp rfl rfl rfl rfl rfl ⟨fun _ _ => rfl, fun _ _ => rfl⟩
    (fun x hx => by rw [herase]; simp [hx]) (fun x hx => by simp [hx])
    (fun _ _ _ => ⟨Iff.rfl, fun _ => ⟨id, id⟩⟩) (fun _ _ => Iff.rfl) hown (fun d hw => ?_)
    (by rw [herase]; simp) (by simp) ((L.cpu e).advance rfl rfl rfl rfl ?_ ?_ ?_ ?_)
    ((List.Sublist.map _ List.erase_sublist).nodup L.creating_nodup)
  · have := (h.waking d).mp hw
    rw [hloc] at this
    exact absurd this (by simp)
  · exact (L.cpu e).pp
  · exact (L.cpu e).stale
  · exact (L.cpu e).live
  · exact (L.cpu e).own_idle

/-- **A CPU takes the head of a queue**, its own or another's. -/
theorem Layout.picked (L : Layout s loc Q S) {cur : Tid} {l : List Tid} (hQ : Q d = t :: l)
    (hnone : s.own c = none) (hcur : (s.pc c).stale? = some cur)
    (hwaker : (s.pc c).waker = false) (hwk : (s.pc c).waking? = none) :
    Layout ((s.dequeued d t l.head?).setPc c (.setOnCpu cur t)) (Function.update loc t (.own c))
      (Function.update Q d l) S := by
  have h := L.at_loc t
  have hc := L.cpu c
  have hloc : loc t = .queue d := (h.mem_queue d).mp (by rw [hQ]; simp)
  have hheap : t.isHeap = true := h.heap (by rw [hloc]; simp)
  have hnd : (t :: l).Nodup := hQ ▸ (L.rep.queue d).nodup
  have hown : ∀ e, s.own e ≠ some t := by
    intro e ho
    have := (h.own e).mpr ⟨ho, hheap⟩
    rw [hloc] at this
    exact absurd this (by simp [Place.owner?])
  have hwaking : ∀ e, (s.pc e).waking? ≠ some t := by
    intro e hw
    have := (h.waking e).mp hw
    rw [hloc] at this
    exact absurd this (by simp)
  have hmem : ∀ x e, x ∈ Function.update Q d l e ↔ x ∈ Q e ∧ x ≠ t := by
    intro x e
    rw [Function.update_apply]
    split
    · rename_i he
      subst he
      rw [hQ, List.mem_cons]
      have := (List.nodup_cons.mp hnd).1
      constructor
      · exact fun hx => ⟨Or.inr hx, ne_of_mem_of_not_mem hx this⟩
      · exact fun hx => hx.1.resolve_left hx.2
    · rename_i he
      refine (and_iff_left_of_imp fun hx ht => he ?_).symm
      subst ht
      exact L.disjoint hx (by rw [hQ]; simp)
  have hs : StepOf s ((s.dequeued d t l.head?).setPc c (.setOnCpu cur t)) c :=
    ⟨fun e he => Function.update_of_ne he _ _, fun _ _ => rfl⟩
  have hrep : Rep ((s.dequeued d t l.head?).setPc c (.setOnCpu cur t)) (Function.update Q d l) S :=
    (L.rep.dequeued (fun _ _ _ => L.disjoint) hQ).congr (fun _ => rfl) (fun _ => rfl) rfl rfl rfl
  refine L.move hs hrep (fun x hx => ⟨⟨rfl, rfl, ?_, rfl⟩, fun e => ?_, Iff.rfl, Iff.rfl, Iff.rfl,
      fun _ => ?_, ?_, fun _ ho => ?_, fun _ ho => ?_⟩)
    ⟨fun e => ?_, ?_, fun e => ?_, fun e => ?_, ?_, ?_, fun _ => hheap,
      fun _ => h.not_idle (by rw [hloc]; simp), fun _ => ?_, fun _ => ?_, fun e he hset => ?_,
      fun h0 => ?_, fun e h0 => ?_⟩
    (hc.advance ?_ rfl rfl rfl ?_ ?_ ?_ ?_) (fun e _ => ⟨Iff.rfl, (L.cpu e).pp, rfl⟩) L.creating_nodup
  · simp [State.setPc, State.dequeued, hx]
  · rw [hmem]
    simp [hx]
  · rw [setPc_own, hnone]
    simp [Pc.own, Ne.symm hx]
  · rw [setPc_pc, hwk]
    simp [Pc.waking?]
  · rw [hnone] at ho
    exact absurd ho (by simp)
  · rw [hnone] at ho
    exact absurd ho (by simp)
  · rw [hmem]
    simp
  · rw [h.mem_sleep, hloc]
    simp [Place.sleeps]
  · by_cases he : e = c
    · subst he
      rw [setPc_own]
      simp [Place.owner?, Pc.own, hheap]
    · rw [hs.own he]
      simp [Place.owner?, hown e, Ne.symm he]
  · by_cases he : e = c
    · subst he
      rw [setPc_pc]
      simp [Pc.waking?]
    · rw [hs.pc e he]
      simp [hwaking e]
  · exact h.creating.trans (by rw [hloc]; simp)
  · exact h.created.trans (by rw [hloc]; simp)
  · have := h.state (by rw [hloc]; simp)
    rw [hloc] at this
    exact this
  · simp [State.setPc, State.dequeued]
  · obtain rfl : c = e := Option.some.inj he
    rw [setPc_pc] at hset
    exact absurd hset Bool.false_ne_true
  · exact absurd h0 (by simp)
  · exact absurd h0 (by simp)
  · rw [setPc_pc, hwaker]
    rfl
  · rw [setPc_pc]
    simp [Pc.pp?]
  · rw [setPc_pc]
    intro u hu
    obtain rfl : cur = u := Option.some.inj hu
    exact hc.stale _ hcur
  · rw [setPc_pc]
    rintro u ⟨⟩
    exact hheap
  · rw [setPc_own]
    intro u hu hh
    obtain rfl : t = u := Option.some.inj hu
    exact absurd hheap (by simp [hh])

/-- A step of CPU `c` to the position `q` that leaves `g_current`, the lock
and the lists of `task_create_ex` alone. -/
structure Goes (s s' : State) (c : Cpu) (q : Pc) : Prop where
  pc : s'.pc = Function.update s.pc c q
  current : s'.current = s.current
  lock : s'.lock = s.lock
  creating : s'.creating = s.creating
  created : s'.created = s.created

theorem Goes.stepOf {q : Pc} (h : Goes s s' c q) : StepOf s s' c :=
  ⟨fun d hd => by rw [h.pc, Function.update_of_ne hd], fun d _ => by rw [h.current]⟩

theorem Goes.at_pc {q : Pc} (h : Goes s s' c q) : s'.pc c = q := by rw [h.pc, Function.update_self]

theorem Goes.own {q : Pc} (h : Goes s s' c q) : s'.own c = q.own (s.current c) := by
  rw [State.own, h.at_pc, h.current]

/-- The CPU that goes on, once more: what is left of `CpuOk.advance`. -/
theorem CpuOk.goes {q : Pc} (h : CpuOk s S c) (hg : Goes s s' c q) (hwaker : q.waker = (s.pc c).waker)
    (hidle : (s'.task (.idle c)).isIdle = (s.task (.idle c)).isIdle)
    (hpp : ∀ u, q.pp? = some u → u ∈ S') (hstale : ∀ u, q.stale? = some u → s.current c = some u)
    (hlive : ∀ u, q.live? = some u → u.isHeap = true)
    (hown : ∀ u, q.own (s.current c) = some u → u.isHeap = false → u = .idle c) : CpuOk s' S' c :=
  h.advance (by rw [hg.at_pc, hwaker]) hg.lock (by rw [hg.current]) hidle (by rwa [hg.at_pc])
    (by rwa [hg.at_pc]) (by rwa [hg.at_pc]) (by rwa [hg.own])

/-- A store to `on_cpu` of the task CPU `c` owns: the CPU keeps it awake, or
lets go of it asleep. -/
theorem Layout.setOnCpu (L : Layout s loc Q S) {q : Pc} {b : Bool} (hown : s.own c = some t)
    (hh : t.isHeap = true)
    (hp : p = .own c ∧ loc t = .own c ∧ q.own (s.current c) = some t ∧
        (q.onCpuSet = true → b = true) ∨
      p = .asleep ∧ loc t = .doze c ∧ q.own (s.current c) = none ∧ b = false)
    (hwk : q.waking? = none) (hwk₀ : (s.pc c).waking? = none) (hwaker : q.waker = (s.pc c).waker)
    (hpp : q.pp? = none) (hstale : ∀ u, q.stale? = some u → s.current c = some u)
    (hlive : ∀ u, q.live? = some u → u.isHeap = true) :
    Layout ((s.setTask t fun r => { r with onCpu := b }).setPc c q) (Function.update loc t p) Q S := by
  have h := L.at_loc t
  generalize hs' : (s.setTask t fun r => { r with onCpu := b }).setPc c q = s'
  have hg : Goes s s' c q := by subst hs'; exact ⟨rfl, rfl, rfl, rfl, rfl⟩
  have htask : ∀ x, s'.task x =
      { s.task x with onCpu := if x = t then b else (s.task x).onCpu } := by
    intro x
    subst hs'
    simp only [State.setPc, State.setTask, Function.update_apply]
    split <;> simp_all
  have hrep : Rep s' Q S := by
    refine L.rep.congr (fun x => by rw [htask]) (fun x => by rw [htask]) ?_ ?_ ?_ <;> rw [← hs'] <;> rfl
  have hpc' := hg.at_pc
  have hown' := hg.own
  have hso := fun d => hg.stepOf.own (d := d)
  have hsp := hg.stepOf.pc
  have hcr := hg.creating
  have hcd := hg.created
  clear hs'
  obtain ⟨a1, a2, a3, a4, a5, a6, a7, a8, a9, a10, a11, a12, a13⟩ := h
  refine L.move hg.stepOf hrep (fun x hx => ?_) ?_
    ((L.cpu c).goes hg hwaker (by rw [htask]) (by simp [hpp]) hstale hlive ?_)
    (fun d _ => ⟨by rw [hg.lock], (L.cpu d).pp, by rw [htask]⟩) (hcr ▸ L.creating_nodup)
  · refine ⟨⟨?_, ?_, ?_, ?_⟩, ?_, ?_, ?_, ?_, ?_, ?_, ?_, ?_⟩ <;> grind
  · constructor <;> grind
  · grind

/-- **`schedule_from_irq` lets go of its task**: one that sleeps stays on
the sleep list; one that is ready is to be enqueued. -/
theorem Layout.left (L : Layout s loc Q S) (hpc : s.pc c = .enter t) (hh : t.isHeap = true) :
    ∃ p, Layout ((s.setTask t fun r => { r with onCpu := false }).setPc c
      (if (s.task t).state = .ready then .requeue t else .dequeue t)) (Function.update loc t p) Q S := by
  have h := L.at_loc t
  have hcur := (L.cpu c).stale t (by rw [hpc]; rfl)
  have hown : s.own c = some t := by rw [State.own, hpc]; exact hcur
  have hloc := h.of_own hown hh
  have hst := h.state (by rcases hloc with hl | hl <;> simp [hl])
  split
  · rename_i hr
    refine ⟨.own c, L.setOnCpu hown hh (Or.inl ⟨rfl, ?_, rfl, ?_⟩) rfl (by rw [hpc]; rfl)
      (by rw [hpc]; rfl) rfl ?_ ?_⟩
    · rcases hloc with hl | hl
      · exact hl
      · rw [hl, hr] at hst
        exact absurd (hst.mpr rfl) (by simp)
    · exact fun h0 => absurd h0 Bool.false_ne_true
    · rintro u ⟨⟩
      exact hcur
    · rintro u ⟨⟩
      exact hh
  · rename_i hr
    refine ⟨.asleep, L.setOnCpu hown hh (Or.inr ⟨rfl, ?_, rfl, rfl⟩) rfl (by rw [hpc]; rfl)
      (by rw [hpc]; rfl) rfl ?_ (by simp [Pc.live?])⟩
    · rcases hloc with hl | hl
      · rw [hl] at hst
        cases hs : (s.task t).state with
        | ready => exact absurd hs hr
        | sleeping => exact absurd (hst.mp hs) Bool.false_ne_true
      · exact hl
    · rintro u ⟨⟩
      exact hcur

/-- `next->on_cpu = 1`. -/
theorem Layout.claimed (L : Layout s loc Q S) {cur : Tid} (hpc : s.pc c = .setOnCpu cur t) :
    Layout ((s.setTask t fun r => { r with onCpu := true }).setPc c (.setCpu cur t)) loc Q S := by
  have h := L.at_loc t
  have hh := (L.cpu c).live t (by rw [hpc]; rfl)
  have hown : s.own c = some t := by rw [State.own, hpc]; rfl
  have hloc : loc t = .own c := by
    rcases h.of_own hown hh with hl | hl
    · exact hl
    · exact absurd (h.doze c hl) (by rw [hpc]; exact Bool.false_ne_true)
  have := L.setOnCpu (q := .setCpu cur t) (b := true) hown hh
    (Or.inl ⟨rfl, hloc, rfl, fun _ => rfl⟩) rfl (by rw [hpc]; rfl) (by rw [hpc]; rfl) rfl
    (fun u hu => (L.cpu c).stale u (by rw [hpc]; exact hu)) (by rintro u ⟨⟩; exact hh)
  rwa [← hloc, Function.update_eq_self] at this

/-! ## Sleeping and waking -/

/-- **A running task goes to sleep**: it is on the sleep list and still
owned. -/
theorem Layout.slept (L : Layout s loc Q S) (hpc : s.pc c = .out false) (hcur : s.current c = some t)
    (hh : t.isHeap = true) (jf : UInt64) :
    Layout ((s.sleepSection t jf).setPc c (.out true)) (Function.update loc t (.doze c)) Q (t :: S) := by
  have h := L.at_loc t
  have hown : s.own c = some t := by rw [State.own, hpc]; exact hcur
  have hloc : loc t = .own c := by
    rcases h.of_own hown hh with hl | hl
    · exact hl
    · exact absurd (h.doze c hl) (by rw [hpc]; exact Bool.false_ne_true)
  have htS : t ∉ S := by
    rw [h.mem_sleep, hloc]
    exact Bool.false_ne_true
  generalize hs' : (s.sleepSection t jf).setPc c (.out true) = s'
  have hg : Goes s s' c (.out true) := by subst hs'; exact ⟨rfl, rfl, rfl, rfl, rfl⟩
  have htask : ∀ x, s'.task x = if x = t then
      { s.task t with wakeJiffies := s.jiffies + jf, state := .sleeping, sleepNext := s.sleepHead }
      else s.task x := by
    intro x
    subst hs'
    simp only [State.setPc, State.sleepSection, State.setTask, Function.update_apply]
  have hrep : Rep s' Q (t :: S) := by
    subst hs'
    exact (L.rep.sleepSection htS jf).congr (fun _ => rfl) (fun _ => rfl) rfl rfl rfl
  have hpc' := hg.at_pc
  have hown' : s'.own c = some t := hg.own.trans hcur
  have hso := fun d => hg.stepOf.own (d := d)
  have hsp := hg.stepOf.pc
  have hcr := hg.creating
  have hcd := hg.created
  clear hs'
  obtain ⟨a1, a2, a3, a4, a5, a6, a7, a8, a9, a10, a11, a12, a13⟩ := h
  refine L.move hg.stepOf hrep (fun x hx => ?_) ?_
    ((L.cpu c).goes hg (by rw [hpc]; rfl) (by grind) (by simp [Pc.pp?]) (by simp [Pc.stale?])
      (by simp [Pc.live?]) (by grind))
    (fun d _ => ⟨by rw [hg.lock], fun u hu => List.mem_cons_of_mem _ ((L.cpu d).pp u hu), by grind⟩)
    (hcr ▸ L.creating_nodup)
  · refine ⟨⟨?_, ?_, ?_, ?_⟩, ?_, ?_, ?_, ?_, ?_, ?_, ?_, ?_⟩ <;> grind
  · constructor <;> grind

/-- **A sleeper whose time has come leaves the list**: one that a CPU owns
is awake there; another is on its way to a queue. -/
theorem Layout.woken (L : Layout s loc Q S) {gap : Bool} {pp : Option Tid}
    (hpc : s.pc c = .wake gap pp) (ht : s.sleepAt pp = some t) :
    ∃ p, Layout ((s.wakeOne pp t).setPc c
      (if (s.task t).onCpu then .wake gap pp else .wakeEnqueue gap pp t))
      (Function.update loc t p) Q (S.erase t) := by
  have h := L.at_loc t
  have hc := L.cpu c
  obtain ⟨htS, hrep⟩ := L.rep.wakeOne (fun u hu => hc.pp u (by rw [hpc]; exact hu)) ht
  have hnd := L.rep.sleep.nodup
  have hsl : (loc t).sleeps = true := h.mem_sleep.mp htS
  have hh : t.isHeap = true := h.heap (by intro h0; rw [h0] at hsl; exact Bool.false_ne_true hsl)
  generalize hq : (if (s.task t).onCpu then Pc.wake gap pp else .wakeEnqueue gap pp t) = q
  generalize hs' : (s.wakeOne pp t).setPc c q = s'
  have hg : Goes s s' c q := by
    subst hs'
    cases pp <;> exact ⟨rfl, rfl, rfl, rfl, rfl⟩
  have hflags : ∀ x, (s'.task x).isIdle = (s.task x).isIdle ∧ (s'.task x).onReady = (s.task x).onReady ∧
      (s'.task x).onCpu = (s.task x).onCpu ∧
      (s'.task x).state = if x = t then .ready else (s.task x).state := by
    intro x
    subst hs'
    cases pp <;> simp only [State.setPc, State.wakeOne, State.setSleepAt, State.setTask,
      Function.update_apply] <;> grind
  have hrep' : Rep s' Q (S.erase t) := by
    subst hs'
    exact hrep.congr (fun _ => rfl) (fun _ => rfl) rfl rfl rfl
  have hmem : ∀ x, x ∈ S.erase t ↔ x ≠ t ∧ x ∈ S := fun x => hnd.mem_erase_iff
  -- only this CPU is inside `sched_wake_sleepers`, so that no other `pp` is lost
  have hlock : s.lock = some c := hc.lock.mp (by rw [hpc]; rfl)
  have hother : ∀ d ≠ c, Unseen s s' (S.erase t) d := by
    intro d hd
    refine ⟨by rw [hg.lock], fun u hu => ?_, (hflags _).1⟩
    have hw : (s.pc d).waker = true := by
      cases hp : s.pc d <;> simp_all [Pc.pp?, Pc.waker]
    exact absurd (Option.some.inj (((L.cpu d).lock.mp hw).symm.trans hlock)) hd
  have hpc' := hg.at_pc
  have hown' : s'.own c = s.own c := by
    rw [hg.own, State.own, hpc, ← hq]
    split <;> rfl
  have hso := fun d => hg.stepOf.own (d := d)
  have hsp := hg.stepOf.pc
  have hcr := hg.creating
  have hcd := hg.created
  have hqw : q.waker = true ∧ q.stale? = none ∧ q.live? = none ∧ q.onCpuSet = true ∧
      q.mayDoze = gap := by
    rw [← hq]
    split <;> exact ⟨rfl, rfl, rfl, rfl, rfl⟩
  -- `pp` itself stays on the list: it is not the task it points at
  have hpp : ∀ u, q.pp? = some u → u ∈ S.erase t := by
    intro u hu
    have hu' : pp = some u := by
      rw [← hq] at hu
      split at hu <;> exact hu
    refine (hmem u).mpr ⟨?_, hc.pp u (by rw [hpc]; exact hu')⟩
    rintro rfl
    rw [hu'] at ht
    exact Linked.next_ne_self L.rep.sleep htS ht
  have hcpu : CpuOk s' (S.erase t) c := by
    refine hc.goes hg (by rw [hpc, hqw.1]; rfl) (hflags _).1 hpp (by simp [hqw]) (by simp [hqw]) ?_
    rw [← hg.own, hown']
    exact hc.own_idle
  have hkeep : ∀ x ≠ t, Keeps s s' Q Q S (S.erase t) c x := by
    intro x hx
    have hf := hflags x
    rw [if_neg hx] at hf
    refine ⟨⟨hf.1, hf.2.2.2, hf.2.1, hf.2.2.1⟩, fun _ => Iff.rfl, ?_, by rw [hcr], by rw [hcd],
      fun _ => by rw [hown'], ?_, fun _ _ _ => by rw [hpc]; rfl, fun _ _ => ?_⟩
    · rw [hmem]
      simp [hx]
    · rw [hpc', hpc, ← hq]
      split <;> simp [Pc.waking?, Ne.symm hx]
    · rw [hpc', hqw.2.2.2.2, hpc]
      exact id
  have hft := hflags t
  clear hs' hrep
  by_cases hon : (s.task t).onCpu = true
  · obtain ⟨d, hd⟩ : ∃ d, loc t = .doze d := by
      have := h.asleep
      cases hl : loc t <;> simp_all [Place.sleeps]
    rw [if_pos hon] at hq
    refine ⟨.own d, L.move hg.stepOf hrep' hkeep ?_ hcpu hother (hcr ▸ L.creating_nodup)⟩
    obtain ⟨a1, a2, a3, a4, a5, a6, a7, a8, a9, a10, a11, a12, a13⟩ := h
    constructor <;> grind
  · have hl : loc t = .asleep := by
      cases hl : loc t with
      | asleep => rfl
      | doze d =>
        have hm := h.doze d hl
        refine absurd (h.on_cpu d (by rw [hl]; rfl) ?_) hon
        cases hp : s.pc d <;> simp_all [Pc.mayDoze, Pc.onCpuSet]
      | _ => rw [hl] at hsl; exact absurd hsl Bool.false_ne_true
    rw [if_neg hon] at hq
    refine ⟨.waking c, L.move hg.stepOf hrep' hkeep ?_ hcpu hother (hcr ▸ L.creating_nodup)⟩
    obtain ⟨a1, a2, a3, a4, a5, a6, a7, a8, a9, a10, a11, a12, a13⟩ := h
    constructor <;> grind

/-! ## New tasks and new CPUs -/

/-- A task that is nowhere is in no list, and its memory may be written. -/
theorem Layout.rep_of_none (L : Layout s loc Q S) (hloc : loc t = .none) (f : Task → Task) :
    Rep (s.setTask t f) Q S := by
  have h := L.at_loc t
  rw [hloc] at h
  have hne : ∀ x, x ≠ t → (s.setTask t f).task x = s.task x := fun x hx => Function.update_of_ne hx _ _
  refine L.rep.congr_mem (fun d x hx => ?_) (fun x hx => ?_) rfl rfl rfl
  · rw [hne]
    rintro rfl
    exact absurd ((h.mem_queue d).mp hx) (by simp)
  · rw [hne]
    rintro rfl
    exact absurd (h.mem_sleep.mp hx) Bool.false_ne_true

/-- **`task_create_ex` sets up a task** at an address that is not one. -/
theorem Layout.setUp (L : Layout s loc Q S) {a : ℕ} {e : Cpu} {r : Task}
    (hcd : .heap a ∉ s.created) (hcr : .heap a ∉ s.creating.map Prod.fst) (hidle : r.isIdle = false)
    (hst : r.state = .ready) (hready : r.onReady = false) (n : ℕ) :
    Layout { s.setTask (.heap a) fun _ => r with
        rrCreate := n
        creating := (.heap a, e) :: s.creating }
      (Function.update loc (.heap a) .creating) Q S := by
  have h := L.at_loc (.heap a)
  have hloc : loc (.heap a) = .none := by
    by_contra h0
    refine hcd (h.created.mpr ⟨h0, fun h1 => hcr (h.creating.mpr h1)⟩)
  have htask : ∀ x ≠ Tid.heap a, (s.setTask (.heap a) fun _ => r).task x = s.task x :=
    fun x hx => Function.update_of_ne hx _ _
  have hself : (s.setTask (.heap a) fun _ => r).task (.heap a) = r := Function.update_self _ _ _
  rw [hloc] at h
  refine L.move (c := e) ⟨fun _ _ => rfl, fun _ _ => rfl⟩
    ((L.rep_of_none hloc fun _ => r).congr (fun _ => rfl) (fun _ => rfl) rfl rfl rfl)
    (fun x hx => ⟨⟨?_, ?_, ?_, ?_⟩, fun _ => Iff.rfl, Iff.rfl, ?_, Iff.rfl, fun _ => Iff.rfl, Iff.rfl,
      fun _ _ => id, fun _ _ => id⟩)
    ⟨fun d => ?_, ?_, fun d => ?_, fun d => ?_, ?_, ?_, fun _ => rfl, fun _ => ?_, fun _ => ?_,
      fun _ => ?_, fun d hd => ?_, fun h0 => ?_, fun d hd => ?_⟩
    ((L.cpu e).advance rfl rfl rfl ?_ (L.cpu e).pp (L.cpu e).stale (L.cpu e).live (L.cpu e).own_idle)
    (fun d _ => ⟨Iff.rfl, (L.cpu d).pp, ?_⟩) ?_
  · rw [htask x hx]
  · rw [htask x hx]
  · rw [htask x hx]
  · rw [htask x hx]
  · simp [hx]
  · exact (h.mem_queue d).trans (by simp)
  · exact h.mem_sleep
  · exact h.own d
  · exact (h.waking d).trans (by simp)
  · simp
  · exact iff_of_false hcd (by simp)
  · rw [hself]
    exact hidle
  · rw [hself, hst]
    simp [Place.sleeps]
  · rw [hself, hready]
    simp
  · exact absurd hd (by simp [Place.owner?])
  · exact absurd h0 (by simp)
  · exact absurd hd (by simp)
  · rw [htask _ (by simp)]
  · rw [htask _ (by simp)]
  · rw [List.map_cons, List.nodup_cons]
    exact ⟨hcr, L.creating_nodup⟩

/-- `sched_cpu_init`, on a CPU that runs nothing. -/
theorem Layout.cpuInit (L : Layout s loc Q S) (hpc : s.pc c = .out false)
    (hcur : s.current c = none) :
    Layout { s.setTask (.idle c) fun _ => idleInit with
      current := Function.update s.current c (some (.idle c)) } loc Q S := by
  have h := L.at_loc (.idle c)
  have hloc : loc (.idle c) = .none := by
    by_contra h0
    exact absurd (h.heap h0) Bool.false_ne_true
  rw [hloc] at h
  have hnone : s.own c = none := by rw [State.own, hpc]; exact hcur
  have htask : ∀ x ≠ Tid.idle c, (s.setTask (.idle c) fun _ => idleInit).task x = s.task x :=
    fun x hx => Function.update_of_ne hx _ _
  generalize hs' : { s.setTask (.idle c) fun _ => idleInit with
    current := Function.update s.current c (some (.idle c)) } = s'
  have htask' : s'.task = (s.setTask (.idle c) fun _ => idleInit).task := by rw [← hs']
  have hpc' : s'.pc = s.pc := by rw [← hs']; rfl
  have hcur' : s'.current c = some (.idle c) := by rw [← hs']; exact Function.update_self _ _ _
  have hcr : s'.creating = s.creating := by rw [← hs']; rfl
  have hcd : s'.created = s.created := by rw [← hs']; rfl
  have hlk : s'.lock = s.lock := by rw [← hs']; rfl
  have hs : StepOf s s' c := by
    subst hs'
    exact ⟨fun _ _ => rfl, fun d hd => Function.update_of_ne hd _ _⟩
  have hown' : s'.own c = some (.idle c) := by rw [State.own, hpc', hpc]; exact hcur'
  have hrep : Rep s' Q S := by
    subst hs'
    exact (L.rep_of_none hloc fun _ => idleInit).congr (fun _ => rfl) (fun _ => rfl) rfl rfl rfl
  have hc := L.cpu c
  have hmove : Layout s' (Function.update loc (.idle c) .none) Q S := by
    refine L.move hs hrep (fun x hx => ⟨?_, fun _ => Iff.rfl, Iff.rfl, by rw [hcr], by rw [hcd], ?_,
        by rw [hpc'], ?_, ?_⟩)
      ⟨h.mem_queue, h.mem_sleep, fun d => ?_, by rw [hpc']; exact h.waking, by rw [hcr]; exact h.creating,
        by rw [hcd]; exact h.created, fun h0 => absurd rfl h0, fun h0 => absurd rfl h0,
        fun h0 => absurd rfl h0, fun h0 => absurd rfl h0, ?_, ?_, ?_⟩
      ⟨by rw [hpc', hlk]; exact hc.lock, by rw [hpc']; exact hc.pp, ?_, by rw [hpc']; exact hc.live, ?_, ?_⟩
      (fun d hd => ⟨by rw [hlk], (L.cpu d).pp, ?_⟩) (hcr ▸ L.creating_nodup)
    · rw [htask', htask x hx]
      exact SameFlags.refl _
    · intro hh
      rw [hown', hnone]
      cases x <;> simp_all [Tid.isHeap]
    · rw [hpc']
      exact fun _ _ => id
    · rw [hpc']
      exact fun _ _ => id
    · simp [Place.owner?, Tid.isHeap]
    · simp [Place.owner?]
    · simp
    · simp
    · rw [hpc', hpc]
      simp [Pc.stale?]
    · rw [hown']
      rintro u ⟨⟩ -
      rfl
    · intro _
      rw [htask']
      simp [State.setTask, idleInit]
    · rw [htask', htask _ (by simp [hd])]
  rwa [← hloc, Function.update_eq_self] at hmove

/-! ## Steps of a CPU alone -/

/-- A step that keeps every task's flags and links and what the CPU owns,
and may set `g_current` or the lock. -/
theorem Layout.quiet (L : Layout s loc Q S) (hs : StepOf s s' c)
    (hflags : ∀ x, SameFlags (s.task x) (s'.task x)) (hrep : Rep s' Q S)
    (hcr : s'.creating = s.creating) (hcd : s'.created = s.created) (hown : s'.own c = s.own c)
    (hwk : (s'.pc c).waking? = (s.pc c).waking?)
    (hset : (s'.pc c).onCpuSet = true → (s.pc c).onCpuSet = true)
    (hdoze : (s.pc c).mayDoze = true → (s'.pc c).mayDoze = true) (hcpu : CpuOk s' S c)
    (hlock : ∀ d ≠ c, s'.lock = some d ↔ s.lock = some d) : Layout s' loc Q S :=
  L.stay hs hrep (fun x => ⟨hflags x, fun _ => Iff.rfl, Iff.rfl, by rw [hcr], by rw [hcd],
    fun _ => by rw [hown], by rw [hwk], fun _ _ => hset, fun _ _ => hdoze⟩) hcpu
    (fun d hd => ⟨hlock d hd, (L.cpu d).pp, (hflags _).isIdle⟩) (hcr ▸ L.creating_nodup)

/-- A store to a field of a task that no layout speaks of. -/
theorem sameFlags_setTask {f : Task → Task} (hf : SameFlags (s.task t) (f (s.task t))) (x : Tid) :
    SameFlags (s.task x) ((s.setTask t f).task x) := by
  by_cases hx : x = t
  · subst hx
    simpa [State.setTask] using hf
  · simp only [State.setTask, Function.update_of_ne hx]
    exact SameFlags.refl _

theorem Rep.setTask (h : Rep s Q S) {f : Task → Task} (hn : (f (s.task t)).next = (s.task t).next)
    (hsn : (f (s.task t)).sleepNext = (s.task t).sleepNext) : Rep (s.setTask t f) Q S := by
  refine h.congr (fun x => ?_) (fun x => ?_) rfl rfl rfl <;>
    simp only [State.setTask, Function.update_apply] <;> split <;> simp_all

/-- The interrupt saves the frame. -/
theorem Layout.entered (L : Layout s loc Q S) {gap : Bool} (hpc : s.pc c = .out gap)
    (hcur : s.current c = some t) (frame : UInt64) :
    Layout ((s.setTask t fun r => { r with rsp := frame }).setPc c (.enter t)) loc Q S := by
  have hf := sameFlags_setTask (s := s) (t := t) (f := fun r => { r with rsp := frame }) ⟨rfl, rfl, rfl, rfl⟩
  have hrep : Rep (s.setTask t fun r => { r with rsp := frame }) Q S := L.rep.setTask rfl rfl
  have hown : s.own c = some t := by rw [State.own, hpc]; exact hcur
  have hg : Goes s ((s.setTask t fun r => { r with rsp := frame }).setPc c (.enter t)) c (.enter t) :=
    ⟨rfl, rfl, rfl, rfl, rfl⟩
  refine L.quiet hg.stepOf hf (hrep.congr (fun _ => rfl) (fun _ => rfl) rfl rfl rfl)
    rfl rfl (hg.own.trans (hcur.trans hown.symm)) ?_ ?_ ?_
    ((L.cpu c).goes hg (by rw [hpc]; rfl) (hf _).isIdle (by simp [Pc.pp?]) ?_ (by simp [Pc.live?]) ?_)
    (fun _ _ => Iff.rfl)
  · rw [hg.at_pc, hpc]
    rfl
  · rw [hpc]
    exact fun _ => rfl
  · rw [hg.at_pc]
    exact fun _ => rfl
  · rintro u ⟨⟩
    exact hcur
  · exact fun u hu => (L.cpu c).own_idle u (hown.trans (hcur.symm.trans hu))

/-- `next->cpu = cpu`. -/
theorem Layout.moved (L : Layout s loc Q S) {cur : Tid} (hpc : s.pc c = .setCpu cur t) :
    Layout ((s.setTask t fun r => { r with cpu := c }).setPc c (.assign cur t)) loc Q S := by
  have hf := sameFlags_setTask (s := s) (t := t) (f := fun r => { r with cpu := c }) ⟨rfl, rfl, rfl, rfl⟩
  have hrep : Rep (s.setTask t fun r => { r with cpu := c }) Q S := L.rep.setTask rfl rfl
  have hown : s.own c = some t := by rw [State.own, hpc]; rfl
  have hg : Goes s ((s.setTask t fun r => { r with cpu := c }).setPc c (.assign cur t)) c (.assign cur t) :=
    ⟨rfl, rfl, rfl, rfl, rfl⟩
  refine L.quiet hg.stepOf hf (hrep.congr (fun _ => rfl) (fun _ => rfl) rfl rfl rfl)
    rfl rfl (hg.own.trans hown.symm) ?_ ?_ ?_
    ((L.cpu c).goes hg (by rw [hpc]; rfl) (hf _).isIdle (by simp [Pc.pp?]) ?_ (by simp [Pc.live?]) ?_)
    (fun _ _ => Iff.rfl)
  · rw [hg.at_pc, hpc]
    rfl
  · rw [hpc]
    exact fun _ => rfl
  · rw [hpc]
    exact fun h0 => absurd h0 Bool.false_ne_true
  · exact fun u hu => (L.cpu c).stale u (by rw [hpc]; exact hu)
  · exact fun u hu => (L.cpu c).own_idle u (hown.trans hu)

/-- `g_current[cpu] = next`. -/
theorem Layout.assigned (L : Layout s loc Q S) {cur : Tid} (hpc : s.pc c = .assign cur t)
    (rsp : UInt64) :
    Layout ({ s with current := Function.update s.current c (some t) }.setPc c (.leave cur rsp))
      loc Q S := by
  have hc := L.cpu c
  have hcur := hc.stale cur (by rw [hpc]; rfl)
  have hown : s.own c = some t := by rw [State.own, hpc]; rfl
  generalize hs' : { s with current := Function.update s.current c (some t) }.setPc c (.leave cur rsp) = s'
  have hpc' : s'.pc c = .leave cur rsp := by rw [← hs', setPc_pc]
  have hcur' : s'.current c = some t := by rw [← hs']; exact Function.update_self _ _ _
  have htask : s'.task = s.task := by rw [← hs']; rfl
  have hlk : s'.lock = s.lock := by rw [← hs']; rfl
  have hs : StepOf s s' c := by
    subst hs'
    exact ⟨fun d hd => Function.update_of_ne hd _ _, fun d hd => Function.update_of_ne hd _ _⟩
  have hown' : s'.own c = some t := by rw [State.own, hpc']; exact hcur'
  have hrep : Rep s' Q S := by
    subst hs'
    exact L.rep.congr (fun _ => rfl) (fun _ => rfl) rfl rfl rfl
  refine L.quiet hs (fun x => htask ▸ SameFlags.refl _) hrep (by rw [← hs']; rfl) (by rw [← hs']; rfl)
    (hown'.trans hown.symm) ?_ ?_ ?_ ⟨?_, ?_, ?_, ?_, ?_, ?_⟩ (fun _ _ => by rw [hlk])
  · rw [hpc', hpc]
    rfl
  · rw [hpc]
    exact fun _ => rfl
  · rw [hpc]
    exact fun h0 => absurd h0 Bool.false_ne_true
  · rw [hpc', hlk, ← hc.lock, hpc]
    exact Iff.rfl
  · rw [hpc']
    simp [Pc.pp?]
  · rw [hpc']
    simp [Pc.stale?]
  · rw [hpc']
    simp [Pc.live?]
  · rw [hown', ← hown]
    exact hc.own_idle
  · intro _
    rw [htask]
    exact hc.is_idle (by rw [hcur]; simp)

/-- `sched_wake_sleepers` takes or drops `g_sched_lock`. -/
theorem Layout.setLock (L : Layout s loc Q S) {q : Pc} {lk : Option Cpu}
    (hlk : (s.lock = none ∧ lk = some c ∧ q.waker = true) ∨
      (s.lock = some c ∧ lk = none ∧ q.waker = false))
    (hown : q.own (s.current c) = s.own c) (hwk : q.waking? = (s.pc c).waking?)
    (hset : (s.pc c).onCpuSet = true) (hdoze : q.mayDoze = (s.pc c).mayDoze) (hpp : q.pp? = none)
    (hstale : q.stale? = none) (hlive : q.live? = none) :
    Layout ({ s with lock := lk }.setPc c q) loc Q S := by
  have hc := L.cpu c
  refine L.quiet ⟨fun d hd => Function.update_of_ne hd _ _, fun _ _ => rfl⟩ (fun _ => SameFlags.refl _)
    (L.rep.congr (fun _ => rfl) (fun _ => rfl) rfl rfl rfl) rfl rfl ?_ ?_ (fun _ => hset) ?_
    ⟨?_, ?_, ?_, ?_, ?_, hc.is_idle⟩ ?_
  · rw [setPc_own]
    exact hown
  · rw [setPc_pc, hwk]
  · rw [setPc_pc, hdoze]
    exact id
  · rw [setPc_pc]
    change q.waker = true ↔ lk = some c
    grind
  · rw [setPc_pc, hpp]
    simp
  · rw [setPc_pc, hstale]
    simp
  · rw [setPc_pc, hlive]
    simp
  · rw [setPc_own]
    exact hown ▸ hc.own_idle
  · intro d hd
    change lk = some d ↔ s.lock = some d
    grind

end Sched

end Csos

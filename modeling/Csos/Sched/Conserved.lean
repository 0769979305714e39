import Csos.Sched.Steps
/-!
# The scheduler — no task is lost or duplicated

Every reachable state has a layout: `layout_step` says so of one step, of
any CPU at any position. What `sched.c` promises about its queues is read
off the layout.
-/

namespace Csos

namespace Sched

variable {s s' : State} {loc : Tid → Place} {Q : Queues} {S : List Tid} {c : Cpu} {t : Tid}

/-- The state has a layout. -/
def Laid (s : State) : Prop := ∃ loc Q S, Layout s loc Q S

/-- `init_sched` leaves every list empty and every task nowhere. -/
theorem laid_of_booted {boot : Cpu} (h : Booted boot s) : Laid s := by
  obtain ⟨hidle, hcur, hrq, hsl, -, hlock, hpc, hcr, hcd⟩ := h
  have hown : ∀ c, s.own c = if c = boot then some (.idle boot) else none := by
    intro c
    rw [State.own, hpc, hcur, Function.update_apply]
    rfl
  refine ⟨fun _ => .none, fun _ => [], [], ⟨fun c => (hrq c).1, fun c => (hrq c).2, hsl⟩, fun t => ?_,
    fun c => ?_, by rw [hcr]; exact List.nodup_nil⟩
  · refine ⟨fun _ => by simp, by simp [Place.sleeps], fun c => ?_, fun c => ?_, by simp [hcr],
      by simp [hcd], fun h0 => absurd rfl h0, fun h0 => absurd rfl h0, fun h0 => absurd rfl h0,
      fun h0 => absurd rfl h0, fun c h0 => absurd h0 (by simp [Place.owner?]),
      fun h0 => absurd h0 (by simp), fun c h0 => absurd h0 (by simp)⟩
    · rw [hown]
      split <;> cases t <;> simp [Place.owner?, Tid.isHeap]
    · rw [hpc]
      simp [Pc.waking?]
  · refine ⟨by rw [hpc, hlock]; simp [Pc.waker], by rw [hpc]; simp [Pc.pp?],
      by rw [hpc]; simp [Pc.stale?], by rw [hpc]; simp [Pc.live?], ?_, ?_⟩
    · rw [hown]
      split
      · rename_i hc
        rintro u ⟨⟩ -
        rw [hc]
      · simp
    · rw [hcur, Function.update_apply]
      split
      · rename_i hc
        rw [hc, hidle]
        exact fun _ => rfl
      · exact fun h0 => absurd rfl h0

/-- The `is_idle` the scheduler reads tells the idle tasks apart. -/
theorem Layout.isHeap_of_current (L : Layout s loc Q S) (hown : s.own c = some t)
    (hcur : s.current c ≠ none) (hi : (s.task t).isIdle = false) : t.isHeap = true := by
  by_contra hh
  rw [Bool.not_eq_true] at hh
  have := (L.cpu c).own_idle t hown hh
  subst this
  rw [(L.cpu c).is_idle hcur] at hi
  exact absurd hi (by simp)

theorem Layout.not_heap_of_isIdle (L : Layout s loc Q S) (hown : s.own c = some t)
    (hi : (s.task t).isIdle = true) : t.isHeap = false := by
  by_contra hh
  rw [Bool.not_eq_false] at hh
  have howner := ((L.at_loc t).own c).mpr ⟨hown, hh⟩
  rw [(L.at_loc t).not_idle fun h0 => ?_] at hi
  · exact Bool.false_ne_true hi
  · rw [h0] at howner
    exact absurd howner (by simp [Place.owner?])

/-- The `cur` of a CPU that is looking for a task to run. -/
def Pc.looks? : Pc → Option Tid
  | .dequeue cur | .steal cur _ | .stealLock cur _ => some cur
  | .out _ | .wake _ _ | .wakeEnqueue _ _ _ | .enter _ | .requeue _ | .setOnCpu _ _ | .setCpu _ _
  | .assign _ _ | .leave _ _ => none

/-- A CPU that is looking owns nothing and is still on its old stack. -/
theorem looks_spec {q : Pc} {cur : Tid} (h : q.looks? = some cur) :
    q.own (s.current c) = none ∧ q.stale? = some cur ∧ q.waker = false ∧ q.waking? = none ∧
      q.onCpuSet = true ∧ q.mayDoze = false ∧ q.pp? = none ∧ q.live? = none := by
  cases q <;> simp_all [Pc.looks?, Pc.own, Pc.stale?, Pc.waker, Pc.waking?, Pc.onCpuSet, Pc.mayDoze,
    Pc.pp?, Pc.live?]

/-- A CPU looks on. -/
theorem Layout.look (L : Layout s loc Q S) {q : Pc} {cur : Tid} (h : (s.pc c).looks? = some cur)
    (hq : q.looks? = some cur) : Layout (s.setPc c q) loc Q S := by
  obtain ⟨hown, hstale, hwaker, hwaking, hset, hdoze, -, -⟩ := looks_spec (s := s) (c := c) h
  obtain ⟨hown', hstale', hwaker', hwaking', -, -, hpp', hlive'⟩ := looks_spec (s := s) (c := c) hq
  refine L.setPc q (fun x _ => by rw [hown', State.own, hown]) (by simp [hown'])
    (hwaking'.trans hwaking.symm) hset (fun _ _ _ h0 => ?_) (hwaker'.trans hwaker.symm) (by simp [hpp'])
    (fun u hu => (L.cpu c).stale u (hstale.trans (hstale'.symm.trans hu))) hlive'
  rw [hdoze] at h0
  exact absurd h0 Bool.false_ne_true

/-- A CPU finds a task at the head of a queue. -/
theorem Layout.found (L : Layout s loc Q S) {cur : Tid} {d : Cpu} {l : List Tid}
    (h : (s.pc c).looks? = some cur) (hQ : Q d = t :: l) :
    Layout ((s.dequeued d t l.head?).setPc c (.setOnCpu cur t)) (Function.update loc t (.own c))
      (Function.update Q d l) S := by
  obtain ⟨hown, hstale, hwaker, hwaking, -, -, -, -⟩ := looks_spec (s := s) (c := c) h
  exact L.picked hQ hown hstale hwaker hwaking

/-! ## What a CPU does -/

/-- **A step inside `sched_wake_sleepers` or `schedule_from_irq`** of CPU `c`,
where the queues are `Q`. -/
inductive Went (s : State) (c : Cpu) (Q : Queues) : State → Prop
  /-- The end of the list of sleepers: the lock is dropped. -/
  | awake {gap : Bool} {pp : Option Tid} (hpc : s.pc c = .wake gap pp) (ht : s.sleepAt pp = none) :
      Went s c Q ({ s with lock := none }.setPc c (.out gap))
  | woken {gap : Bool} {pp : Option Tid} {t : Tid} (hpc : s.pc c = .wake gap pp)
      (ht : s.sleepAt pp = some t) : Went s c Q ((s.wakeOne pp t).setPc c
        (if (s.task t).onCpu then .wake gap pp else .wakeEnqueue gap pp t))
  | passed {gap : Bool} {pp : Option Tid} {t : Tid} (hpc : s.pc c = .wake gap pp)
      (ht : s.sleepAt pp = some t) : Went s c Q (s.setPc c (.wake gap (some t)))
  | enqueued {gap : Bool} {pp : Option Tid} {t : Tid} (hpc : s.pc c = .wakeEnqueue gap pp t) :
      Went s c Q ((s.readyEnqueue (s.task t).cpu t).setPc c (.wake gap pp))
  /-- An idle task is not enqueued: the CPU just lets go of it. -/
  | idled {cur : Tid} (hpc : s.pc c = .enter cur) (hi : (s.task cur).isIdle = true) :
      Went s c Q (s.setPc c (.dequeue cur))
  | left {cur : Tid} (hpc : s.pc c = .enter cur) (hi : (s.task cur).isIdle = false) :
      Went s c Q ((s.setTask cur fun r => { r with onCpu := false }).setPc c
        (if (s.task cur).state = .ready then .requeue cur else .dequeue cur))
  | requeued {cur : Tid} (hpc : s.pc c = .requeue cur) :
      Went s c Q ((s.readyEnqueue c cur).setPc c (.dequeue cur))
  /-- The CPU looks on for a task. -/
  | looked {cur : Tid} {q : Pc} (hlook : (s.pc c).looks? = some cur) (hq : q.looks? = some cur) :
      Went s c Q (s.setPc c q)
  /-- It takes the head of a queue: its own, or one whose head is not pinned. -/
  | found {cur t : Tid} {d : Cpu} {l : List Tid} (hlook : (s.pc c).looks? = some cur) (hQ : Q d = t :: l)
      (hd : d = c ∨ ∃ i, s.pc c = .stealLock cur i ∧ d = State.nthCpu c.val i ∧
        (s.task t).pinned = false) :
      Went s c Q ((s.dequeued d t l.head?).setPc c (.setOnCpu cur t))
  /-- There is no task anywhere: the idle task is next. -/
  | gaveUp {cur : Tid} {i : ℕ} (hpc : s.pc c = .steal cur i) :
      Went s c Q (s.setPc c (.assign cur (.idle c)))
  | claimed {cur next : Tid} (hpc : s.pc c = .setOnCpu cur next) :
      Went s c Q ((s.setTask next fun r => { r with onCpu := true }).setPc c (.setCpu cur next))
  | moved {cur next : Tid} (hpc : s.pc c = .setCpu cur next) :
      Went s c Q ((s.setTask next fun r => { r with cpu := c }).setPc c (.assign cur next))
  | assigned {cur next : Tid} (hpc : s.pc c = .assign cur next) :
      Went s c Q ({ s with current := Function.update s.current c (some next) }.setPc c
        (.leave cur (s.task next).rsp))
  | leaves {cur : Tid} {rsp : UInt64} (hpc : s.pc c = .leave cur rsp) :
      Went s c Q (s.setPc c (.out false))

/-- A CPU tries the queue of CPU `d`. -/
theorem Went.dequeue (h : Rep s Q S) {cur : Tid} {d : Cpu} {q : Pc} (hlook : (s.pc c).looks? = some cur)
    (hq : q.looks? = some cur)
    (hd : d = c ∨ ∃ i, s.pc c = .stealLock cur i ∧ d = State.nthCpu c.val i ∧
      ∀ t, s.head d = some t → (s.task t).pinned = false) :
    Went s c Q (match s.readyDequeue d with
      | (none, s) => s.setPc c q
      | (some t, s) => s.setPc c (.setOnCpu cur t)) := by
  rw [h.readyDequeue]
  have hlink := h.queue d
  cases hQ : Q d with
  | nil => exact .looked hlook hq
  | cons t l =>
    rw [hQ] at hlink
    refine .found hlook hQ (hd.imp_right ?_)
    rintro ⟨i, hpc, hi, hpin⟩
    exact ⟨i, hpc, hi, hpin t hlink.1⟩

/-- **The steps are these.** -/
theorem goStep_went (h : Rep s Q S) (hs : s.goStep c = some s') : Went s c Q s' := by
  unfold State.goStep at hs
  split at hs
  case h_1 => exact absurd hs.symm (Option.some_ne_none s')
  case h_2 hpc =>
    split at hs
    case h_1 ht =>
      cases hs
      exact .awake hpc ht
    case h_2 t ht =>
      split at hs
      · have hw := Went.woken (Q := Q) hpc ht
        split at hs
        · rename_i hon
          cases hs
          rwa [if_pos hon] at hw
        · rename_i hon
          cases hs
          rwa [if_neg hon] at hw
      · cases hs
        exact .passed hpc ht
  case h_3 hpc =>
    cases hs
    exact .enqueued hpc
  case h_4 hpc =>
    split at hs
    · rename_i hi
      cases hs
      exact .idled hpc hi
    · rename_i hi
      split at hs
      · exact absurd hs.symm (Option.some_ne_none s')
      · cases hs
        exact .left hpc (Bool.eq_false_iff.mpr hi)
  case h_5 hpc =>
    cases hs
    exact .requeued hpc
  case h_6 cur hpc =>
    have hw := Went.dequeue (d := c) (q := .steal cur 1) h (by rw [hpc]; rfl) rfl (.inl rfl)
    split at hs <;> rename_i hdq <;> cases hs <;> rwa [hdq] at hw
  case h_7 cur i hpc =>
    have hlook : (s.pc c).looks? = some cur := by rw [hpc]; rfl
    split at hs
    · cases hs
      exact .gaveUp hpc
    · split at hs <;> cases hs <;> exact .looked hlook rfl
  case h_8 cur i hpc =>
    have hlook : (s.pc c).looks? = some cur := by rw [hpc]; rfl
    split at hs
    · cases hs
      exact .looked hlook rfl
    · rename_i hpin
      have hw := Went.dequeue (d := State.nthCpu c.val i) (q := .steal cur (i + 1)) h hlook rfl
        (.inr ⟨i, hpc, rfl, fun t ht => by rw [ht] at hpin; simpa using hpin⟩)
      split at hs <;> rename_i hdq <;> cases hs <;> rwa [hdq] at hw
  case h_9 hpc =>
    cases hs
    exact .claimed hpc
  case h_10 hpc =>
    cases hs
    exact .moved hpc
  case h_11 hpc =>
    cases hs
    exact .assigned hpc
  case h_12 hpc =>
    cases hs
    exact .leaves hpc

/-- **A step inside `sched_wake_sleepers` or `schedule_from_irq` keeps the
layout.** -/
theorem Laid.goStep (h : Laid s) (hs : s.goStep c = some s') : Laid s' := by
  obtain ⟨loc, Q, S, L⟩ := h
  have hc := L.cpu c
  cases goStep_went L.rep hs with
  | awake hpc _ =>
    exact ⟨loc, Q, S, L.setLock (Or.inr ⟨hc.lock.mp (by rw [hpc]; rfl), rfl, rfl⟩)
      (by rw [State.own, hpc]; rfl) (by rw [hpc]; rfl) (by rw [hpc]; rfl) (by rw [hpc]; rfl)
      rfl rfl rfl⟩
  | woken hpc ht =>
    obtain ⟨p, L'⟩ := L.woken hpc ht
    exact ⟨_, _, _, L'⟩
  | @passed gap pp t hpc ht =>
    obtain ⟨htS, -⟩ := L.rep.wakeOne (fun u hu => hc.pp u (by rw [hpc]; exact hu)) ht
    have hown : (Pc.wake gap (some t)).own (s.current c) = s.own c := by rw [State.own, hpc]; rfl
    refine ⟨loc, Q, S, L.setPc _ (fun x _ => by rw [hown]) (hown ▸ hc.own_idle) (by rw [hpc]; rfl)
      (by rw [hpc]; rfl) (fun _ _ _ => by rw [hpc]; exact id) (by rw [hpc]; rfl) ?_
      (by simp [Pc.stale?]) rfl⟩
    rintro u ⟨⟩
    exact htS
  | enqueued hpc => exact ⟨_, _, _, L.wakeEnqueued hpc⟩
  | @idled cur hpc hi =>
    have hcur := hc.stale cur (by rw [hpc]; rfl)
    have hown : s.own c = some cur := by rw [State.own, hpc]; exact hcur
    have hnh : ∀ x, x.isHeap = true → s.own c ≠ some x := by
      intro x hx ho
      rw [L.not_heap_of_isIdle ho (Option.some.inj (hown.symm.trans ho) ▸ hi)] at hx
      exact Bool.false_ne_true hx
    exact ⟨loc, Q, S, L.setPc _ (fun x hx => iff_of_false (by simp [Pc.own]) (hnh x hx))
      (by simp [Pc.own]) (by rw [hpc]; rfl) (by rw [hpc]; rfl)
      (fun x hx ho => absurd ho (hnh x hx)) (by rw [hpc]; rfl) (by simp [Pc.pp?])
      (by rintro u ⟨⟩; exact hcur) rfl⟩
  | @left cur hpc hi =>
    have hcur := hc.stale cur (by rw [hpc]; rfl)
    have hown : s.own c = some cur := by rw [State.own, hpc]; exact hcur
    obtain ⟨p, L'⟩ := L.left hpc (L.isHeap_of_current hown (by rw [hcur]; simp) hi)
    exact ⟨_, _, _, L'⟩
  | requeued hpc => exact ⟨_, _, _, L.requeued hpc⟩
  | looked hlook hq => exact ⟨loc, Q, S, L.look hlook hq⟩
  | found hlook hQ _ => exact ⟨_, _, _, L.found hlook hQ⟩
  | @gaveUp cur i hpc =>
    have hlook : (s.pc c).looks? = some cur := by rw [hpc]; rfl
    obtain ⟨hown, hstale, -⟩ := looks_spec (s := s) (c := c) hlook
    refine ⟨loc, Q, S, L.setPc _ (fun x hx => ?_) (by rintro u ⟨⟩ -; rfl) (by rw [hpc]; rfl)
      (by rw [hpc]; rfl) (fun x _ ho => ?_) (by rw [hpc]; rfl) (by simp [Pc.pp?])
      (fun u hu => hc.stale u (hstale.trans hu)) rfl⟩
    · rw [State.own, hown]
      cases x <;> simp_all [Tid.isHeap, Pc.own]
    · rw [State.own, hown] at ho
      exact absurd ho (by simp)
  | claimed hpc => exact ⟨loc, Q, S, L.claimed hpc⟩
  | moved hpc => exact ⟨loc, Q, S, L.moved hpc⟩
  | assigned hpc => exact ⟨loc, Q, S, L.assigned hpc _⟩
  | leaves hpc =>
    have hown : (Pc.out false).own (s.current c) = s.own c := by rw [State.own, hpc]; rfl
    exact ⟨loc, Q, S, L.setPc _ (fun x _ => by rw [hown]) (hown ▸ hc.own_idle) (by rw [hpc]; rfl)
      (by rw [hpc]; rfl) (fun _ _ _ => by rw [hpc]; exact id) (by rw [hpc]; rfl) (by simp [Pc.pp?])
      (by simp [Pc.stale?]) rfl⟩

/-- **Every step keeps the layout.** -/
theorem Laid.step (h : Laid s) {a : Action} (hs : s.step c a = some s') : Laid s' := by
  cases a with
  | cpuInit =>
    obtain ⟨loc, Q, S, L⟩ := h
    simp only [State.step] at hs
    split at hs
    · rename_i hc
      cases hs
      exact ⟨loc, Q, S, L.cpuInit hc.2 hc.1⟩
    · exact absurd hs (by simp)
  | tick =>
    obtain ⟨loc, Q, S, L⟩ := h
    simp only [State.step] at hs
    split at hs
    · cases hs
      exact ⟨loc, Q, S, L.quiet (c := c) ⟨fun _ _ => rfl, fun _ _ => rfl⟩ (fun _ => SameFlags.refl _)
        (L.rep.congr (fun _ => rfl) (fun _ => rfl) rfl rfl rfl) rfl rfl rfl rfl id id
        ((L.cpu c).advance rfl rfl rfl rfl (L.cpu c).pp (L.cpu c).stale (L.cpu c).live
          (L.cpu c).own_idle) (fun _ _ => Iff.rfl)⟩
    · exact absurd hs (by simp)
  | create addr rsp pinned =>
    obtain ⟨loc, Q, S, L⟩ := h
    simp only [State.step] at hs
    split at hs
    · rename_i hc
      cases hs
      exact ⟨_, Q, S, L.setUp hc.2.1 hc.2.2 rfl rfl rfl _⟩
    · exact absurd hs (by simp)
  | createEnqueue t target =>
    obtain ⟨loc, Q, S, L⟩ := h
    simp only [State.step] at hs
    split at hs
    · rename_i hc
      cases hs
      exact ⟨_, _, _, L.createEnqueued hc.2⟩
    · exact absurd hs (by simp)
  | sleep jf =>
    obtain ⟨loc, Q, S, L⟩ := h
    simp only [State.step] at hs
    split at hs
    · exact absurd hs (by simp)
    · rename_i cur hcur
      split at hs
      · rename_i hc
        cases hs
        have hown : s.own c = some cur := by rw [State.own, hc.1]; exact hcur
        exact ⟨_, _, _, L.slept hc.1 hcur (L.isHeap_of_current hown (by rw [hcur]; simp) hc.2.2.1) jf⟩
      · exact absurd hs (by simp)
  | wake =>
    obtain ⟨loc, Q, S, L⟩ := h
    simp only [State.step] at hs
    split at hs
    · rename_i gap hpc
      split at hs
      · rename_i hl
        cases hs
        exact ⟨loc, Q, S, L.setLock (Or.inl ⟨hl, rfl, rfl⟩) (by rw [State.own, hpc]; rfl)
          (by rw [hpc]; rfl) (by rw [hpc]; rfl) (by rw [hpc]; rfl) rfl rfl rfl⟩
      · exact absurd hs (by simp)
    · exact absurd hs (by simp)
  | irq frame =>
    obtain ⟨loc, Q, S, L⟩ := h
    simp only [State.step] at hs
    split at hs
    · rename_i gap cur hpc hcur
      cases hs
      exact ⟨loc, Q, S, L.entered hpc hcur frame⟩
    · exact absurd hs (by simp)
  | go => exact h.goStep hs

/-- Every reachable state has a layout. -/
theorem laid_of_reachable (h : machine.Reachable s) : Laid s :=
  h.invariant (fun _ ⟨_, hb⟩ => laid_of_booted hb) fun _ _ _ _ hl hs => hl.step hs

/-! ## What the layout says -/

/-- The CPU is outside `schedule_from_irq`, not between the sleep-list
insertion of `sched_sleep_jiffies` and the schedule that follows, and not
in the middle of waking a task. -/
def Pc.quiet : Pc → Bool
  | .out gap | .wake gap _ => !gap
  | .wakeEnqueue _ _ _ | .enter _ | .requeue _ | .dequeue _ | .steal _ _ | .stealLock _ _
  | .setOnCpu _ _ | .setCpu _ _ | .assign _ _ | .leave _ _ => false

/-- **No task is lost or duplicated**, `Q` and `S` being what the run queues
and the sleep list hold. -/
structure Conserved (s : State) (Q : Queues) (S : List Tid) : Prop where
  /-- `head`, `tail` and the links of each queue agree. -/
  queue : ∀ c, Linked (fun t => (s.task t).next) (s.head c) (Q c) ∧ s.tail c = (Q c).getLast?
  sleep : Linked (fun t => (s.task t).sleepNext) s.sleepHead S
  /-- No task occurs twice in all of them together. -/
  once : ((List.finRange 256).flatMap Q ++ S).Nodup
  /-- `on_ready` says who is in a queue. -/
  on_ready : ∀ t ∈ s.created, ((s.task t).onReady = true ↔ ∃ c, t ∈ Q c)
  /-- When no CPU is in between, every task is in exactly one place. -/
  place : (∀ c, (s.pc c).quiet = true) → ∀ t ∈ s.created,
    ((∃! c, t ∈ Q c) ∧ t ∉ S ∧ ∀ c, s.current c ≠ some t) ∨
    ((∀ c, t ∉ Q c) ∧ t ∈ S ∧ ∀ c, s.current c ≠ some t) ∨
    ((∀ c, t ∉ Q c) ∧ t ∉ S ∧ ∃! c, s.current c = some t)

/-- The queues and the sleep list together hold no task twice. -/
theorem Layout.once (L : Layout s loc Q S) : ((List.finRange 256).flatMap Q ++ S).Nodup := by
  refine List.nodup_append.mpr ⟨List.nodup_flatMap.mpr ⟨fun c _ => (L.rep.queue c).nodup, ?_⟩,
    L.rep.sleep.nodup, ?_⟩
  · refine (List.nodup_finRange 256).imp fun {c d} hcd => ?_
    exact fun x hx hx' => hcd (L.disjoint hx hx')
  · rintro x hx y hy rfl
    obtain ⟨c, -, hc⟩ := List.mem_flatMap.mp hx
    have h1 := ((L.at_loc x).mem_queue c).mp hc
    have h2 := (L.at_loc x).mem_sleep.mp hy
    rw [h1] at h2
    exact Bool.false_ne_true h2

/-- A quiet CPU owns what it runs, wakes nothing, and its task does not
doze. -/
theorem quiet_spec {q : Pc} (h : q.quiet = true) (cur : Option Tid) :
    q.own cur = cur ∧ q.waking? = none ∧ q.mayDoze = false := by
  cases q <;> simp_all [Pc.quiet, Pc.own, Pc.waking?, Pc.mayDoze]

/-- Between the steps of the scheduler a task is in one place. -/
theorem Layout.place (L : Layout s loc Q S) (hq : ∀ c, (s.pc c).quiet = true)
    (ht : t ∈ s.created) :
    ((∃! c, t ∈ Q c) ∧ t ∉ S ∧ ∀ c, s.current c ≠ some t) ∨
    ((∀ c, t ∉ Q c) ∧ t ∈ S ∧ ∀ c, s.current c ≠ some t) ∨
    ((∀ c, t ∉ Q c) ∧ t ∉ S ∧ ∃! c, s.current c = some t) := by
  have h := L.at_loc t
  obtain ⟨hne, hncr⟩ := h.created.mp ht
  have hh := h.heap hne
  have hcur : ∀ c, s.current c = some t ↔ (loc t).owner? = some c := by
    intro c
    rw [h.own c, State.own, (quiet_spec (hq c) _).1]
    simp [hh]
  have hQ := h.mem_queue
  have hS := h.mem_sleep
  cases hl : loc t with
  | none => exact absurd hl hne
  | creating => exact absurd hl hncr
  | queue c =>
    rw [hl] at hcur hS
    simp only [hl] at hQ
    refine Or.inl ⟨⟨c, (hQ c).mpr rfl, fun d hd => ?_⟩, ?_, fun d hd => ?_⟩
    · exact (Place.queue.inj ((hQ d).mp hd)).symm
    · rw [hS]
      exact Bool.false_ne_true
    · exact absurd ((hcur d).mp hd) (by simp [Place.owner?])
  | own c =>
    rw [hl] at hcur hS
    simp only [hl] at hQ
    refine Or.inr (Or.inr ⟨fun d hd => ?_, ?_, c, (hcur c).mpr rfl, fun d hd => ?_⟩)
    · exact absurd ((hQ d).mp hd) (by simp)
    · rw [hS]
      exact Bool.false_ne_true
    · exact (Option.some.inj ((hcur d).mp hd)).symm
  | doze c =>
    have := h.doze c hl
    rw [(quiet_spec (hq c) (s.current c)).2.2] at this
    exact absurd this Bool.false_ne_true
  | asleep =>
    rw [hl] at hcur hS
    simp only [hl] at hQ
    refine Or.inr (Or.inl ⟨fun d hd => ?_, hS.mpr rfl, fun d hd => ?_⟩)
    · exact absurd ((hQ d).mp hd) (by simp)
    · exact absurd ((hcur d).mp hd) (by simp [Place.owner?])
  | waking c =>
    have := (h.waking c).mpr hl
    rw [(quiet_spec (hq c) (s.current c)).2.1] at this
    exact absurd this (by simp)

/-- **No task is lost or duplicated**, on any number of CPUs and in any
interleaving of `task_create_ex`, `sched_sleep_jiffies`,
`sched_wake_sleepers` and `schedule_from_irq`. -/
theorem no_task_lost_or_duplicated (h : machine.Reachable s) : ∃ Q S, Conserved s Q S := by
  obtain ⟨loc, Q, S, L⟩ := laid_of_reachable h
  refine ⟨Q, S, fun c => ⟨L.rep.queue c, L.rep.tail c⟩, L.rep.sleep, L.once, fun t ht => ?_,
    fun hq t ht => L.place hq ht⟩
  have h := L.at_loc t
  rw [h.on_ready (h.created.mp ht).1]
  exact exists_congr fun c => (h.mem_queue c).symm

/-! ### A run -/

/-- What `init_sched` leaves on CPU `boot` when every other task is zero. -/
def bootState (boot : Cpu) : State where
  task _ := idleInit
  current := Function.update (fun _ => none) boot (some (.idle boot))
  head _ := none
  tail _ := none
  sleepHead := none
  jiffies := 0
  rrCreate := 0
  lock := none
  pc _ := .out false
  creating := []
  created := []

theorem bootState_reachable (boot : Cpu) : machine.Reachable (bootState boot) :=
  .init ⟨boot, rfl, rfl, fun _ => ⟨rfl, rfl⟩, rfl, rfl, rfl, fun _ => rfl, rfl, rfl⟩

/-- The steps of one call of `schedule_from_irq` that finds a task in the
local queue. -/
def switch (c : Cpu) (steps : ℕ) : List (Cpu × Action) :=
  (c, .irq 0) :: List.replicate steps (c, .go)

/-- Two tasks on CPU `1`: the first runs, goes to sleep and is scheduled
away, and the second runs in its place. -/
def sleepRun : List (Cpu × Action) :=
  [(1, .create 16 0 false), (1, .createEnqueue (.heap 16) 1), (1, .create 32 0 false),
    (1, .createEnqueue (.heap 32) 1)] ++ switch 1 6 ++ [(1, .sleep 5)] ++ switch 1 6

/-- The state `sleepRun` leads to. -/
def sleepState : State :=
  (System.run (fun s a => s.step a.1 a.2) (bootState 1) sleepRun).getD (bootState 1)

theorem sleepState_reachable : machine.Reachable sleepState := by
  refine (bootState_reachable 1).run (f := fun s a => s.step a.1 a.2) (fun _ _ _ h => h)
    (l := sleepRun) ?_
  have : (System.run (fun s a => s.step a.1 a.2) (bootState 1) sleepRun).isSome = true := by
    decide +kernel
  obtain ⟨s, hs⟩ := Option.isSome_iff_exists.mp this
  rw [sleepState, hs]
  rfl

/-- After that run the first task is asleep and the second is running. -/
theorem no_task_lost_sleepRun :
    machine.Reachable sleepState ∧ sleepState.sleepHead = some (.heap 16) ∧
      sleepState.current 1 = some (.heap 32) ∧ sleepState.created = [.heap 32, .heap 16] ∧
      (∀ c, (sleepState.pc c).quiet = true) ∧ ∃ Q S, Conserved sleepState Q S :=
  ⟨sleepState_reachable, by decide +kernel, by decide +kernel, by decide +kernel, by decide +kernel,
    no_task_lost_or_duplicated sleepState_reachable⟩

end Sched

end Csos

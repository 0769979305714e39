import Csos.Sched.Exclusive
/-!
# The scheduler — pinned tasks

A task created with `pinned` set stays on the CPU it was created on. Its
`cpu` field is that CPU, and wherever the scheduler puts a task, it puts it at
its `cpu` or where it is already; a steal alone would move it, and it looks at
`pinned` under the lock of the queue. This holds in every run, also in those
in which a task that is not pinned runs on two CPUs.
-/

namespace Csos

namespace Sched

variable {s s' : State} {loc : Tid → Place} {Q : Queues} {S : List Tid} {c d : Cpu} {t : Tid} {a : ℕ}

/-- **The home of a task**: if it is pinned, it is queued and held at its `cpu`
only, and `task_create_ex` is to enqueue it there. -/
structure Home (s : State) (a : ℕ) : Prop where
  created : ∀ d, s.holds d (.heap a) → .heap a ∈ s.created
  held : (s.task (.heap a)).pinned = true → ∀ d, s.holds d (.heap a) → d = (s.task (.heap a)).cpu
  queue : (s.task (.heap a)).pinned = true →
    ∀ d l, Linked (fun t => (s.task t).next) (s.head d) l → .heap a ∈ l → d = (s.task (.heap a)).cpu
  target : (s.task (.heap a)).pinned = true →
    ∀ e, (.heap a, e) ∈ s.creating → e = (s.task (.heap a)).cpu

/-- The task is set up or created. -/
def Known (s : State) (a : ℕ) : Prop := .heap a ∈ s.created ∨ .heap a ∈ s.creating.map Prod.fst

/-- The step keeps the task at home, and its home where it is. -/
structure Stays (s s' : State) (a : ℕ) : Prop where
  home : Home s' a
  known : Known s a → Known s' a
  pinned : (s'.task (.heap a)).pinned = (s.task (.heap a)).pinned
  cpu : (s.task (.heap a)).pinned = true → (s'.task (.heap a)).cpu = (s.task (.heap a)).cpu

/-- **What a step may do to a task**: others may take it only if it is not
pinned or they are its home. -/
theorem Home.stays (H : Home s a) (hpin : (s'.task (.heap a)).pinned = (s.task (.heap a)).pinned)
    (hcpu : (s.task (.heap a)).pinned = true → (s'.task (.heap a)).cpu = (s.task (.heap a)).cpu)
    (hholds : ∀ d, s'.holds d (.heap a) → s.holds d (.heap a) ∨ .heap a ∈ s.created ∧
      ((s.task (.heap a)).pinned = true → d = (s.task (.heap a)).cpu))
    (hqueue : (s.task (.heap a)).pinned = true →
      ∀ d l, Linked (fun t => (s'.task t).next) (s'.head d) l → .heap a ∈ l →
        (∃ l, Linked (fun t => (s.task t).next) (s.head d) l ∧ .heap a ∈ l) ∨
          d = (s.task (.heap a)).cpu)
    (hcreating : ∀ e, (.heap a, e) ∈ s'.creating → (.heap a, e) ∈ s.creating)
    (hcreated : ∀ t ∈ s.created, t ∈ s'.created) (hknown : Known s a → Known s' a) :
    Stays s s' a := by
  refine ⟨⟨fun d hd => hcreated _ ?_, fun hp d hd => ?_, fun hp d l hl hal => ?_, fun hp e he => ?_⟩,
    hknown, hpin, hcpu⟩
  · rcases hholds d hd with hd | ⟨hcr, -⟩
    · exact H.created d hd
    · exact hcr
  · rw [hpin] at hp
    rw [hcpu hp]
    rcases hholds d hd with hd | ⟨-, hd⟩
    · exact H.held hp d hd
    · exact hd hp
  · rw [hpin] at hp
    rw [hcpu hp]
    rcases hqueue hp d l hl hal with ⟨l₀, hl₀, ha⟩ | hd
    · exact H.queue hp d l₀ hl₀ ha
    · exact hd
  · rw [hpin] at hp
    rw [hcpu hp]
    exact H.target hp e (hcreating e he)

/-! ## Steps -/

/-- The fields of a task that say where it belongs and what follows it. -/
def SameHome (r r' : Task) : Prop := r'.pinned = r.pinned ∧ r'.cpu = r.cpu ∧ r'.next = r.next

/-- A step of one CPU that leaves the queues alone and takes no task. -/
theorem Home.goes (H : Home s a) (hs : StepOf s s' c) (hcur : s'.current c = s.current c)
    (htask : ∀ x, SameHome (s.task x) (s'.task x)) (hhead : s'.head = s.head)
    (hcreating : s'.creating = s.creating) (hcreated : s'.created = s.created)
    (hholds : (s'.pc c).cur? = some (.heap a) ∨ (s'.pc c).next? = some (.heap a) →
      s.holds c (.heap a)) : Stays s s' a := by
  refine H.stays (htask _).1 (fun _ => (htask _).2.1) (fun d hd => .inl ?_) (fun _ d l hl hal => .inl ?_)
    (fun e he => by rwa [hcreating] at he) (fun t ht => by rwa [hcreated])
    (fun hk => by rwa [Known, hcreated, hcreating])
  · by_cases hdc : d = c
    · subst hdc
      rcases hd with hd | hd
      · exact .inl (hcur ▸ hd)
      · exact hholds hd
    · rwa [State.holds, hs.pc d hdc, hs.current d hdc] at hd
  · rw [hhead] at hl
    exact ⟨l, hl.congr fun x _ => (htask x).2.2.symm, hal⟩

/-- A step outside `schedule_from_irq` that leaves the queues alone. -/
theorem Home.outside (H : Home s a) (hs : StepOf s s' c) (hpc : (s'.pc c).outside = true)
    (hcur : s'.current c = s.current c) (htask : ∀ x, SameHome (s.task x) (s'.task x))
    (hhead : s'.head = s.head) (hcreating : s'.creating = s.creating)
    (hcreated : s'.created = s.created) : Stays s s' a := by
  refine H.goes hs hcur htask hhead hcreating hcreated fun hh => ?_
  cases hq : s'.pc c <;> simp_all [Pc.outside, Pc.cur?, Pc.next?]

/-- **A task is enqueued** at `e`, which is its home if it is pinned. -/
theorem Home.enqueue (H : Home s a) (L : Layout s loc Q S) (e : Cpu)
    (hp : (loc t).unqueued = true) (htask : s'.task = (s.enqueued e t).task)
    (hhead : s'.head = (s.enqueued e t).head)
    (hhome : t = .heap a → (s.task t).pinned = true → e = (s.task t).cpu)
    (hholds : ∀ d, s'.holds d (.heap a) → s.holds d (.heap a))
    (hcreating : ∀ e, (.heap a, e) ∈ s'.creating → (.heap a, e) ∈ s.creating)
    (hcreated : ∀ t ∈ s.created, t ∈ s'.created) (hknown : Known s a → Known s' a) :
    Stays s s' a := by
  obtain ⟨-, -, hQ, -, -⟩ := L.unqueued hp
  refine H.stays (by rw [htask]; rfl) (fun hpin => ?_) (fun d hd => .inl (hholds d hd))
    (fun hpin d l hl hal => ?_) hcreating hcreated hknown
  · rw [htask]
    simp only [State.enqueued]
    split
    · rename_i hta
      rw [hhome hta.symm (hta ▸ hpin), hta]
    · rfl
  · rw [htask, hhead] at hl
    obtain rfl := hl.unique ((L.rep.enqueued (c := e) hQ fun _ _ _ => L.disjoint).queue d)
    rw [Function.update_apply] at hal
    split at hal
    · rename_i hde
      subst hde
      rcases List.mem_append.mp hal with hal | hal
      · exact .inl ⟨Q d, L.rep.queue d, hal⟩
      · have hta := (List.mem_singleton.mp hal).symm
        exact .inr (hta ▸ hhome hta (hta ▸ hpin))
    · exact .inl ⟨Q d, L.rep.queue d, hal⟩

/-- **A CPU takes a task** from a queue: it is the home of the task, or the
task is not pinned. -/
theorem Home.pick (H : Home s a) (L : Layout s loc Q S) {cur : Tid} {l : List Tid}
    (hQ : Q d = t :: l) (hlook : (s.pc c).looks? = some cur)
    (hhome : t = .heap a → (s.task t).pinned = true → c = d) :
    Stays s ((s.dequeued d t l.head?).setPc c (.setOnCpu cur t)) a := by
  have hcur : (s.pc c).cur? = some cur := by
    cases hp : s.pc c <;> simp_all [Pc.looks?, Pc.cur?]
  have hmem : t ∈ Q d := by rw [hQ]; simp
  have hstep := stepOf_setPc (s := s.dequeued d t l.head?) (c := c) (.setOnCpu cur t)
  refine H.stays rfl (fun _ => rfl) (fun e he => ?_) (fun hpin e l' hl' hal => .inl ?_) (fun _ h => h)
    (fun _ h => h) id
  · by_cases hec : e = c
    · subst hec
      rw [State.holds, setPc_pc] at he
      rcases he with he | he | he
      · exact .inl (.inl he)
      · exact .inl (.inr (.inl (hcur.trans he)))
      · obtain rfl : t = .heap a := Option.some.inj he
        refine .inr ⟨?_, fun hpin => ?_⟩
        · have hloc := ((L.at_loc _).mem_queue d).mp hmem
          exact (L.at_loc _).created.mpr (by rw [hloc]; simp)
        · rw [hhome rfl hpin]
          exact H.queue hpin d _ (L.rep.queue d) hmem
    · rw [State.holds, hstep.pc e hec] at he
      exact .inl he
  · obtain rfl := hl'.unique ((L.rep.dequeued (fun _ _ _ => L.disjoint) hQ).queue e)
    refine ⟨Q e, L.rep.queue e, ?_⟩
    rw [Function.update_apply] at hal
    split at hal
    · rename_i he
      rw [he, hQ]
      exact List.mem_cons_of_mem _ hal
    · exact hal

theorem sameHome_update {r : Task} (htask : s'.task = Function.update s.task t r)
    (hr : SameHome (s.task t) r) (x : Tid) : SameHome (s.task x) (s'.task x) := by
  rw [htask, Function.update_apply]
  split
  · rename_i hx
    exact hx ▸ hr
  · exact ⟨rfl, rfl, rfl⟩

theorem sameHome_wakeOne {pp : Option Tid} (x : Tid) :
    SameHome (s.task x) ((s.wakeOne pp t).task x) := by
  obtain ⟨hcpu, hnext⟩ := @wakeOne_task s t pp x
  refine ⟨?_, hcpu, hnext⟩
  cases pp <;> simp only [State.wakeOne, State.setSleepAt, State.setTask, Function.update_apply] <;>
    grind

/-- A CPU looks on. -/
theorem Home.look (H : Home s a) {q : Pc} {cur : Tid} (h : (s.pc c).looks? = some cur)
    (hq : q.looks? = some cur) : Stays s (s.setPc c q) a := by
  have hcur : (s.pc c).cur? = some cur := by
    cases hp : s.pc c <;> simp_all [Pc.looks?, Pc.cur?]
  have hcur' : q.cur? = some cur ∧ q.next? = none := by
    cases q <;> simp_all [Pc.looks?, Pc.cur?, Pc.next?]
  refine H.goes (stepOf_setPc _) rfl (fun _ => ⟨rfl, rfl, rfl⟩) rfl rfl rfl ?_
  rw [setPc_pc, hcur'.1, hcur'.2, State.holds, hcur]
  exact fun hh => .inr (.inl (hh.resolve_right (by simp)))

/-- A CPU that changes its position, and nothing of what it holds. -/
theorem holds_of_setPc {q : Pc} {x : Tid} (hd : s'.holds d x) (hpc : s'.pc = Function.update s.pc c q)
    (hc : s'.current = s.current) (hcur : q.cur? = (s.pc c).cur?) (hnext : q.next? = (s.pc c).next?) :
    s.holds d x := by
  rw [State.holds, hpc, hc, Function.update_apply] at hd
  split at hd
  · rename_i hdc
    rw [hcur, hnext, ← hdc] at hd
    exact hd
  · exact hd

/-- **A step inside `sched_wake_sleepers` or `schedule_from_irq`.** -/
theorem Home.goStep (H : Home s a) (L : Layout s loc Q S) (hs : s.goStep c = some s') :
    Stays s s' a := by
  cases goStep_went L.rep hs with
  | awake hpc _ =>
    exact H.outside (c := c) ⟨fun d hd => Function.update_of_ne hd _ _, fun _ _ => rfl⟩
      (by rw [setPc_pc]; rfl) rfl (fun _ => ⟨rfl, rfl, rfl⟩) rfl rfl rfl
  | @woken gap pp t hpc _ =>
    refine H.outside (c := c) ⟨fun d hd => ?_, fun d _ => ?_⟩ (by rw [setPc_pc]; split <;> rfl) ?_
      sameHome_wakeOne ?_ ?_ ?_ <;> cases pp
    · exact Function.update_of_ne hd _ _
    · exact Function.update_of_ne hd _ _
    all_goals rfl
  | passed hpc _ =>
    exact H.outside (stepOf_setPc _) (by rw [setPc_pc]; rfl) rfl (fun _ => ⟨rfl, rfl, rfl⟩) rfl rfl rfl
  | @enqueued gap pp t hpc =>
    -- the waker enqueues at the `cpu` of the task
    have hloc : loc t = .waking c := ((L.at_loc t).waking c).mp (by rw [hpc]; rfl)
    have hp : (loc t).unqueued = true := by rw [hloc]; rfl
    obtain ⟨hidle, hready, -⟩ := L.unqueued hp
    rw [readyEnqueue_eq _ hidle hready]
    have hstep := stepOf_setPc (s := s.enqueued (s.task t).cpu t) (c := c) (.wake gap pp)
    refine H.enqueue L _ hp rfl rfl (fun _ _ => rfl) (fun d hd => ?_) (fun _ h => h) (fun _ h => h) id
    by_cases hdc : d = c
    · subst hdc
      rw [State.holds, setPc_pc] at hd
      exact .inl (hd.resolve_right (by simp [Pc.cur?, Pc.next?]))
    · rw [State.holds, hstep.pc d hdc] at hd
      exact hd
  | @idled cur hpc _ =>
    have hcur := (L.cpu c).stale cur (by rw [hpc]; rfl)
    refine H.goes (stepOf_setPc _) rfl (fun _ => ⟨rfl, rfl, rfl⟩) rfl rfl rfl ?_
    rw [setPc_pc]
    exact fun hh => .inl (hcur.trans (hh.resolve_right (by simp [Pc.next?])))
  | @left cur hpc _ =>
    have hcur := (L.cpu c).stale cur (by rw [hpc]; rfl)
    refine H.goes (c := c) ⟨fun d hd => Function.update_of_ne hd _ _, fun _ _ => rfl⟩ rfl
      (sameHome_update rfl ⟨rfl, rfl, rfl⟩) rfl rfl rfl ?_
    rw [setPc_pc]
    split
    · exact fun hh => .inl (hcur.trans (hh.resolve_right (by simp [Pc.next?])))
    · exact fun hh => .inl (hcur.trans (hh.resolve_right (by simp [Pc.next?])))
  | @requeued cur hpc =>
    -- a task goes back to the queue of the CPU that leaves it
    have h := L.at_loc cur
    have hown : s.own c = some cur := by rw [State.own, hpc]; rfl
    have hloc : loc cur = .own c := by
      rcases h.of_own hown ((L.cpu c).live cur (by rw [hpc]; rfl)) with hl | hl
      · exact hl
      · exact absurd (h.doze c hl) (by rw [hpc]; exact Bool.false_ne_true)
    have hp : (loc cur).unqueued = true := by rw [hloc]; rfl
    obtain ⟨hidle, hready, -⟩ := L.unqueued hp
    rw [readyEnqueue_eq _ hidle hready]
    refine H.enqueue L c hp rfl rfl (fun hcur hpin => ?_) (fun d hd => ?_) (fun _ h => h) (fun _ h => h)
      id
    · subst hcur
      exact H.held hpin c (L.holds_of_own hown)
    · exact holds_of_setPc (s := s) hd rfl rfl (by rw [hpc]; rfl) (by rw [hpc]; rfl)
  | looked hlook hq => exact H.look hlook hq
  | @found cur t d l hlook hQ hd =>
    rcases hd with rfl | ⟨i, -, -, hpin⟩
    · exact H.pick L hQ hlook fun _ _ => rfl
    · exact H.pick L hQ hlook fun _ hp => absurd hp (by rw [hpin]; exact Bool.false_ne_true)
  | @gaveUp cur i hpc =>
    refine H.goes (stepOf_setPc _) rfl (fun _ => ⟨rfl, rfl, rfl⟩) rfl rfl rfl ?_
    rw [setPc_pc, State.holds, hpc]
    exact fun hh => .inr (.inl (hh.resolve_right (by simp [Pc.next?])))
  | @claimed cur next hpc =>
    refine H.goes (c := c) ⟨fun d hd => Function.update_of_ne hd _ _, fun _ _ => rfl⟩ rfl
      (sameHome_update rfl ⟨rfl, rfl, rfl⟩) rfl rfl rfl ?_
    rw [setPc_pc, State.holds, hpc]
    exact .inr
  | @moved cur next hpc =>
    -- `next->cpu` is set by a CPU that holds the task
    refine H.stays ?_ (fun hpin => ?_) (fun d hd => .inl ?_) (fun _ d l hl hal => .inl ⟨l, ?_, hal⟩)
      (fun _ h => h) (fun _ h => h) id
    · simp only [State.setPc, State.setTask, Function.update_apply]
      split <;> simp_all
    · simp only [State.setPc, State.setTask, Function.update_apply]
      split
      · rename_i hnext
        exact H.held hpin c (.inr (.inr (by rw [hpc, hnext]; rfl)))
      · rfl
    · exact holds_of_setPc (s := s) hd rfl rfl (by rw [hpc]; rfl) (by rw [hpc]; rfl)
    · refine hl.congr fun x _ => ?_
      simp only [State.setPc, State.setTask, Function.update_apply]
      split <;> simp_all
  | @assigned cur next hpc =>
    -- `g_current` becomes what the CPU has picked
    refine H.stays rfl (fun _ => rfl) (fun d hd => .inl ?_) (fun _ d l hl hal => .inl ⟨l, hl, hal⟩)
      (fun _ h => h) (fun _ h => h) id
    by_cases hdc : d = c
    · subst hdc
      rw [State.holds, setPc_pc] at hd
      rw [State.holds, hpc]
      rcases hd with hd | hd | hd
      · have hcur : Function.update s.current d (some next) d = some (.heap a) := hd
        rw [Function.update_self] at hcur
        exact .inr (.inr hcur)
      · exact .inr (.inl hd)
      · exact absurd hd (by simp [Pc.next?])
    · rw [State.holds, (stepOf_setPc _).pc d hdc] at hd
      rcases hd with hd | hd
      · exact .inl ((Function.update_of_ne hdc _ _).symm.trans hd)
      · exact .inr hd
  | leaves _ =>
    exact H.outside (stepOf_setPc _) (by rw [setPc_pc]; rfl) rfl (fun _ => ⟨rfl, rfl, rfl⟩) rfl rfl rfl

/-- `task_create_ex` sets up a task that nobody has. -/
theorem Home.setUp (H : Home s a) (L : Layout s loc Q S) (hcd : .heap a ∉ s.created)
    (hcr : .heap a ∉ s.creating.map Prod.fst) {e : Cpu} {r : Task} (hr : r.cpu = e) (n : ℕ) :
    Home { s.setTask (.heap a) fun _ => r with
      rrCreate := n
      creating := (.heap a, e) :: s.creating } a := by
  have h := L.at_loc (.heap a)
  have hloc : loc (.heap a) = .none := by
    by_contra h0
    exact hcd (h.created.mpr ⟨h0, fun h1 => hcr (h.creating.mpr h1)⟩)
  have htask : (s.setTask (.heap a) fun _ => r).task (.heap a) = r := Function.update_self _ _ _
  refine ⟨fun d hd => H.created d hd, fun _ d hd => absurd (H.created d hd) hcd,
    fun _ d l hl hal => ?_, fun _ e' he => ?_⟩
  · obtain rfl := hl.unique ((L.rep_of_none hloc fun _ => r).queue d)
    have := (h.mem_queue d).mp hal
    rw [hloc] at this
    exact absurd this (by simp)
  · rcases List.mem_cons.mp he with he | he
    · rw [(Prod.mk.inj he).2, ← hr]
      exact (congrArg Task.cpu htask).symm
    · exact absurd (List.mem_map_of_mem he) hcr

theorem Stays.both (h : Stays s s' a) : Home s' a ∧ (Known s a → Stays s s' a) := ⟨h.home, fun _ => h⟩

/-- **Every step** keeps each task at home, once it is set up. -/
theorem Home.step (H : Home s a) (L : Layout s loc Q S) {x : Action} (hs : s.step c x = some s') :
    Home s' a ∧ (Known s a → Stays s s' a) := by
  cases x with
  | cpuInit =>
    simp only [State.step] at hs
    split at hs
    · cases hs
      have hloc : loc (.idle c) = .none := by
        by_contra h0
        exact absurd ((L.at_loc (.idle c)).heap h0) Bool.false_ne_true
      refine Stays.both (H.stays rfl (fun _ => rfl) (fun d hd => .inl ?_)
        (fun _ d l hl hal => .inl ⟨Q d, ?_⟩) (fun _ h => h) (fun _ h => h) id)
      · rcases hd with hd | hd
        · have hcur : Function.update s.current c (some (.idle c)) d = some (.heap a) := hd
          rw [Function.update_apply] at hcur
          split at hcur
          · exact absurd hcur (by simp)
          · exact .inl hcur
        · exact .inr hd
      · obtain rfl := hl.unique ((L.rep_of_none hloc fun _ => idleInit).queue d)
        exact ⟨L.rep.queue d, hal⟩
    · exact absurd hs (by simp)
  | tick =>
    simp only [State.step] at hs
    split at hs
    · cases hs
      exact Stays.both (H.stays rfl (fun _ => rfl) (fun _ hd => .inl hd)
        (fun _ _ l hl hal => .inl ⟨l, hl, hal⟩) (fun _ h => h) (fun _ h => h) id)
    · exact absurd hs (by simp)
  | create addr rsp pinned =>
    simp only [State.step] at hs
    split at hs
    · rename_i hc
      cases hs
      by_cases ha : a = addr
      · subst ha
        exact ⟨H.setUp L hc.2.1 hc.2.2 rfl _, fun hk => absurd hk (by simp [Known, hc.2.1, hc.2.2])⟩
      · have hne : Tid.heap a ≠ .heap addr := by simpa using ha
        have hloc : loc (.heap addr) = .none := by
          by_contra h0
          exact hc.2.1 ((L.at_loc _).created.mpr ⟨h0, fun h1 => hc.2.2 ((L.at_loc _).creating.mpr h1)⟩)
        generalize newTask rsp pinned (if pinned = true then c else s.pickCreateCpu c) = r
        have htask : (s.setTask (.heap addr) fun _ => r).task (.heap a) = s.task (.heap a) :=
          Function.update_of_ne hne _ _
        refine Stays.both (H.stays (congrArg Task.pinned htask) (fun _ => congrArg Task.cpu htask)
          (fun _ hd => .inl hd) (fun _ d l hl hal => .inl ⟨Q d, ?_⟩) (fun e he => ?_) (fun _ h => h)
          fun hk => hk.imp id fun hk => List.mem_cons_of_mem _ hk)
        · obtain rfl := hl.unique ((L.rep_of_none hloc fun _ => r).queue d)
          exact ⟨L.rep.queue d, hal⟩
        · rcases List.mem_cons.mp he with he | he
          · exact absurd (Prod.mk.inj he).1 hne
          · exact he
    · exact absurd hs (by simp)
  | createEnqueue t target =>
    simp only [State.step] at hs
    split at hs
    · rename_i hc
      cases hs
      have hloc : loc t = .creating := (L.at_loc t).creating.mp (List.mem_map_of_mem hc.2)
      have hp : (loc t).unqueued = true := by rw [hloc]; rfl
      obtain ⟨hidle, hready, -⟩ := L.unqueued hp
      rw [readyEnqueue_eq _ hidle hready]
      refine Stays.both (H.enqueue L target hp rfl rfl (fun ht hpin => ?_) (fun _ hd => hd)
        (fun _ he => List.mem_of_mem_erase he) (fun _ ht => List.mem_cons_of_mem _ ht) fun hk => ?_)
      · subst ht
        exact H.target hpin target hc.2
      · rcases hk with hk | hk
        · exact .inl (List.mem_cons_of_mem _ hk)
        · by_cases ht : Tid.heap a = t
          · exact .inl (ht ▸ List.mem_cons_self)
          · obtain ⟨x, hmem, hx⟩ := List.mem_map.mp hk
            refine .inr (List.mem_map.mpr ⟨x, (List.mem_erase_of_ne fun he => ?_).mpr hmem, hx⟩)
            exact ht (hx.symm.trans (congrArg Prod.fst he))
    · exact absurd hs (by simp)
  | sleep jf =>
    simp only [State.step] at hs
    split at hs
    · exact absurd hs (by simp)
    · split at hs
      · cases hs
        exact Stays.both (H.outside (c := c) ⟨fun d hd => Function.update_of_ne hd _ _, fun _ _ => rfl⟩
          (by rw [setPc_pc]; rfl) rfl (sameHome_update rfl ⟨rfl, rfl, rfl⟩) rfl rfl rfl)
      · exact absurd hs (by simp)
  | wake =>
    simp only [State.step] at hs
    split at hs
    · split at hs
      · cases hs
        exact Stays.both (H.outside (c := c) ⟨fun d hd => Function.update_of_ne hd _ _, fun _ _ => rfl⟩
          (by rw [setPc_pc]; rfl) rfl (fun _ => ⟨rfl, rfl, rfl⟩) rfl rfl rfl)
      · exact absurd hs (by simp)
    · exact absurd hs (by simp)
  | irq frame =>
    simp only [State.step] at hs
    split at hs
    · rename_i gap cur hpc hcur
      cases hs
      refine Stays.both (H.goes (c := c) ⟨fun d hd => Function.update_of_ne hd _ _, fun _ _ => rfl⟩ rfl
        (sameHome_update rfl ⟨rfl, rfl, rfl⟩) rfl rfl rfl ?_)
      rw [setPc_pc]
      intro hh
      exact .inl (hcur.trans (hh.resolve_right (by simp [Pc.next?])))
    · exact absurd hs (by simp)
  | go => exact Stays.both (H.goStep L hs)

/-! ## Runs -/

theorem home_of_booted {boot : Cpu} (h : Booted boot s) : Home s a := by
  obtain ⟨-, hcur, hrq, -, -, -, hpc, hcr, -⟩ := h
  have hholds : ∀ d, ¬ s.holds d (.heap a) := by
    intro d hh
    rw [State.holds, hpc, hcur, Function.update_apply] at hh
    split at hh <;> simp [Pc.cur?, Pc.next?] at hh
  refine ⟨fun d hd => absurd hd (hholds d), fun _ d hd => absurd hd (hholds d),
    fun _ d l hl hal => ?_, fun _ e he => ?_⟩
  · rw [(hrq d).1] at hl
    obtain rfl := hl.unique (show Linked _ none [] from rfl)
    exact absurd hal (by simp)
  · rw [hcr] at he
    exact absurd he (by simp)

theorem home_of_reachable (h : machine.Reachable s) (a : ℕ) : Home s a := by
  refine h.invariant (fun _ ⟨_, hb⟩ => home_of_booted hb) fun s x s' hr H hs => ?_
  obtain ⟨loc, Q, S, L⟩ := laid_of_reachable hr
  exact (H.step L hs).1

/-- The scheduler from a state on. -/
def machineFrom (s₀ : State) : System State (Cpu × Action) := { machine with init := (· = s₀) }

/-- **Pinned tasks stay on their CPU.** From the creation of a pinned task on
CPU `c` on, in every state any interleaving leads to, the only queue that the
task is in is that of `c`, the only `g_current` that it is is that of `c`, and
`c` alone has picked it or is about to. -/
theorem pinned_stays (h : machine.Reachable s) {rsp : UInt64} {s₁ : State}
    (hcreate : s.step c (.create a rsp true) = some s₁) (hlater : (machineFrom s₁).Reachable s') :
    (∀ d l, Linked (fun t => (s'.task t).next) (s'.head d) l → .heap a ∈ l → d = c) ∧
      (∀ d, s'.current d = some (.heap a) → d = c) ∧ ∀ d, s'.holds d (.heap a) → d = c := by
  -- at its creation the task gets the CPU as its home
  have hfirst : (s₁.task (.heap a)).pinned = true ∧ (s₁.task (.heap a)).cpu = c ∧ Known s₁ a := by
    simp only [State.step] at hcreate
    split at hcreate
    · cases hcreate
      have htask : (s.setTask (.heap a) fun _ => newTask rsp true c).task (.heap a) =
          newTask rsp true c := Function.update_self _ _ _
      exact ⟨congrArg Task.pinned htask, congrArg Task.cpu htask, .inr List.mem_cons_self⟩
    · exact absurd hcreate (by simp)
  have hreach : machine.Reachable s₁ := h.step (i := (c, .create a rsp true)) hcreate
  have hrun : machine.Reachable s' ∧ (s'.task (.heap a)).pinned = true ∧
      (s'.task (.heap a)).cpu = c ∧ Known s' a := by
    refine hlater.invariant (P := fun s => machine.Reachable s ∧ (s.task (.heap a)).pinned = true ∧
      (s.task (.heap a)).cpu = c ∧ Known s a) (fun s hs => ?_) fun s x s' _ ih hs => ?_
    · obtain rfl : s = s₁ := hs
      exact ⟨hreach, hfirst⟩
    · obtain ⟨hr, hpin, hcpu, hk⟩ := ih
      obtain ⟨loc, Q, S, L⟩ := laid_of_reachable hr
      have hstays := ((home_of_reachable hr a).step L hs).2 hk
      exact ⟨hr.step hs, hstays.pinned.trans hpin, (hstays.cpu hpin).trans hcpu, hstays.known hk⟩
  obtain ⟨hr, hpin, hcpu, -⟩ := hrun
  have H := home_of_reachable hr a
  rw [← hcpu]
  exact ⟨H.queue hpin, fun d hd => H.held hpin d (.inl hd), H.held hpin⟩

/-- CPU `1` creates a pinned task, and CPU `0` comes up with nothing to run. -/
def pinnedRun : List (Cpu × Action) :=
  [(1, .createEnqueue (.heap 16) 1), (0, .cpuInit)] ++ switch 0 3 ++ switch 1 6

/-- The steal finds the task pinned, and CPU `1` runs it. -/
theorem pinned_stays_run : ∃ s₁ s', (bootState 1).step 1 (.create 16 0 true) = some s₁ ∧
    System.run (fun s x => s.step x.1 x.2) s₁ pinnedRun = some s' ∧
    s'.current 1 = some (.heap 16) ∧ ∀ d, s'.current d = some (.heap 16) → d = 1 := by
  have hsome : (((bootState 1).step 1 (.create 16 0 true)).bind fun s₁ =>
      (System.run (fun s x => s.step x.1 x.2) s₁ pinnedRun).bind fun s' => s'.current 1) =
        some (.heap 16) := by decide +kernel
  obtain ⟨s₁, h1, hrun⟩ := Option.bind_eq_some_iff.mp hsome
  obtain ⟨s', h2, hcur⟩ := Option.bind_eq_some_iff.mp hrun
  have hlater : (machineFrom s₁).Reachable s' :=
    (System.Reachable.init rfl).run (fun _ _ _ hs => hs) h2
  exact ⟨s₁, s', h1, h2, hcur, (pinned_stays (bootState_reachable 1) h1 hlater).2.1⟩

end Sched

end Csos

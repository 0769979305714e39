import Csos.Sched.Model
/-!
# The scheduler — how long `msleep` sleeps

`timer.c` divides a 64-bit product and rounds down; `timer.h` promises at
least `ms` milliseconds, rounded up to a tick. The deadline that `msleep`
stores keeps the promise exactly when the product fits, the request is a
whole number of ticks or at most one, and the deadline does not wrap — or
when the deadline is the last value of the counter
(`msleep_long_enough_iff`). The scheduler itself wakes no task before its
deadline (`woken_at_deadline`).
-/

namespace Csos

namespace Sched

variable {s s' : State} {c : Cpu} {cur t x : Tid} {hz : UInt32} {ms ms' jf : UInt64} {j p n : ℕ}

/-- `ms_to_jiffies`, with `g_timer_hz` as `hz`. -/
def msToJiffies (hz : UInt32) (ms : UInt64) : UInt64 :=
  if ms = 0 then 0
  else
    let jf := ms * hz.toUInt64 / 1000
    if jf = 0 then 1 else jf

/-- `msleep` on CPU `c`, up to the `yield`. -/
def State.msleep (s : State) (c : Cpu) (hz : UInt32) (ms : UInt64) : Option State :=
  if ms = 0 then some s else s.step c (.sleep (msToJiffies hz ms))

/-- The ticks in `ms` milliseconds, rounded up. -/
def ticks (hz : UInt32) (ms : UInt64) : ℕ := (ms.toNat * hz.toNat + 999) / 1000

/-- What `timer.h` promises of the deadline `w` of a request at `j`. -/
def LongEnough (hz : UInt32) (ms : UInt64) (j w : ℕ) : Prop := min (2 ^ 64 - 1) (j + ticks hz ms) ≤ w

/-- The requests that sleep long enough. In the first case the product
fits, it is a whole number of ticks or at most one, and the deadline does
not wrap; in the second the deadline is the last value of the counter. -/
def Exact (hz : UInt32) (ms : UInt64) (j : ℕ) : Prop :=
  (ms.toNat * hz.toNat < 2 ^ 64 ∧ (1000 ∣ ms.toNat * hz.toNat ∨ ms.toNat * hz.toNat ≤ 1000) ∧
      j + ticks hz ms < 2 ^ 64) ∨
    j + max 1 (ms.toNat * hz.toNat % 2 ^ 64 / 1000) = 2 ^ 64 - 1

/-! ## The conversion -/

/-- **What `ms_to_jiffies` gives**: the product modulo `2 ^ 64`, rounded
down, and at least a tick. -/
theorem toNat_msToJiffies (h : ms ≠ 0) :
    (msToJiffies hz ms).toNat = max 1 (ms.toNat * hz.toNat % 2 ^ 64 / 1000) := by
  have hdiv : (ms * hz.toUInt64 / 1000).toNat = ms.toNat * hz.toNat % 2 ^ 64 / 1000 := by
    rw [UInt64.toNat_div, UInt64.toNat_mul, UInt32.toNat_toUInt64]
    rfl
  rw [msToJiffies, if_neg h]
  simp only
  split
  · rename_i h0
    rw [h0] at hdiv
    rw [← hdiv]
    rfl
  · rename_i h0
    have hpos : (ms * hz.toUInt64 / 1000).toNat ≠ 0 := fun hz' => h0 (UInt64.toNat_inj.mp hz')
    rw [hdiv] at hpos ⊢
    omega

/-- Rounding down loses nothing when there is nothing to lose. -/
theorem div_eq_ceil_iff (hp : 0 < p) : (p + 999) / 1000 ≤ max 1 (p % 2 ^ 64 / 1000) ↔
    p < 2 ^ 64 ∧ (1000 ∣ p ∨ p ≤ 1000) := by
  omega

/-- **The arithmetic of a deadline**: `n` ticks are added to the counter. -/
theorem deadline_iff (hj : j < 2 ^ 64) (hn : n < 2 ^ 64) (hpos : 0 < n) {k : ℕ} :
    min (2 ^ 64 - 1) (j + k) ≤ (j + n) % 2 ^ 64 ↔
      j + n < 2 ^ 64 ∧ (k ≤ n ∨ j + n = 2 ^ 64 - 1) := by
  rcases Nat.lt_or_ge (j + n) (2 ^ 64) with hlt | hge
  · rw [Nat.mod_eq_of_lt hlt]
    omega
  · -- the deadline wraps, and lies before the request
    rw [Nat.mod_eq_sub_mod hge, Nat.mod_eq_of_lt (by omega)]
    omega

/-! ## The deadline -/

/-- The deadline that `msleep` stores. -/
theorem msleep_deadline (hms : ms ≠ 0) (hcur : s.current c = some cur) (h : s.msleep c hz ms = some s') :
    (s'.task cur).wakeJiffies = s.jiffies + msToJiffies hz ms := by
  rw [State.msleep, if_neg hms] at h
  simp only [State.step, hcur] at h
  split at h
  · cases h
    simp [State.setPc, State.sleepSection, State.setTask]
  · cases h

theorem toNat_deadline (hms : ms ≠ 0) : (UInt64.ofNat j + msToJiffies hz ms).toNat =
    (j + max 1 (ms.toNat * hz.toNat % 2 ^ 64 / 1000)) % 2 ^ 64 := by
  rw [UInt64.toNat_add, toNat_msToJiffies hms, UInt64.toNat_ofNat', Nat.mod_add_mod]

theorem longEnough_iff (hhz : 1 ≤ hz.toNat) (hms : ms ≠ 0) (hj : j < 2 ^ 64) :
    LongEnough hz ms j (UInt64.ofNat j + msToJiffies hz ms).toNat ↔ Exact hz ms j := by
  have hpos : 0 < ms.toNat := Nat.pos_of_ne_zero fun h => hms (UInt64.toNat_inj.mp h)
  have hp : 0 < ms.toNat * hz.toNat := Nat.mul_pos hpos hhz
  rw [LongEnough, toNat_deadline hms, Exact, ticks]
  generalize ms.toNat * hz.toNat = p at hp ⊢
  have hn : max 1 (p % 2 ^ 64 / 1000) < 2 ^ 64 := by omega
  rw [deadline_iff hj hn (by omega), div_eq_ceil_iff hp]
  have hceil : p < 2 ^ 64 → 1000 ∣ p ∨ p ≤ 1000 → (p + 999) / 1000 = max 1 (p % 2 ^ 64 / 1000) := by
    intro hfit hwhole
    rw [Nat.mod_eq_of_lt hfit]
    omega
  constructor
  · rintro ⟨hlt, ⟨hfit, hwhole⟩ | hlast⟩
    · exact .inl ⟨hfit, hwhole, by rwa [hceil hfit hwhole]⟩
    · exact .inr hlast
  · rintro (⟨hfit, hwhole, hlt⟩ | hlast)
    · exact ⟨by rwa [← hceil hfit hwhole], .inl ⟨hfit, hwhole⟩⟩
    · exact ⟨by omega, .inr hlast⟩

/-- A request that sleeps long enough does not wake before a shorter one. -/
theorem Exact.mono (h' : Exact hz ms' j) (hms : ms ≠ 0) (hms' : ms' ≠ 0) (hle : ms ≤ ms')
    (hj : j < 2 ^ 64) :
    (UInt64.ofNat j + msToJiffies hz ms).toNat ≤ (UInt64.ofNat j + msToJiffies hz ms').toNat := by
  have hmul : ms.toNat * hz.toNat ≤ ms'.toNat * hz.toNat := Nat.mul_le_mul_right _ (UInt64.le_iff_toNat_le.mp hle)
  rw [toNat_deadline hms, toNat_deadline hms']
  rw [Exact, ticks] at h'
  generalize ms.toNat * hz.toNat = p at *
  generalize ms'.toNat * hz.toNat = q at *
  omega

/-- **When `msleep` sleeps at least the requested time**; such a request
does not wake before a shorter one made at the same time. -/
theorem msleep_long_enough_iff (hhz : 1 ≤ hz.toNat) (hms : ms ≠ 0) (hcur : s.current c = some cur)
    (h : s.msleep c hz ms = some s') :
    (LongEnough hz ms s.jiffies.toNat (s'.task cur).wakeJiffies.toNat ↔ Exact hz ms s.jiffies.toNat) ∧
      ∀ ms' s'', ms ≤ ms' → s.msleep c hz ms' = some s'' →
        Exact hz ms' s.jiffies.toNat → (s'.task cur).wakeJiffies ≤ (s''.task cur).wakeJiffies := by
  have hj : s.jiffies.toNat < 2 ^ 64 := s.jiffies.toNat_lt
  have hdead : ∀ {x : UInt64} {t : State}, x ≠ 0 → s.msleep c hz x = some t →
      (t.task cur).wakeJiffies = UInt64.ofNat s.jiffies.toNat + msToJiffies hz x := by
    intro x t hx ht
    rw [msleep_deadline hx hcur ht, UInt64.ofNat_toNat]
  refine ⟨?_, fun ms' s'' hle h' he => ?_⟩
  · rw [hdead hms h]
    exact longEnough_iff hhz hms hj
  · have hms' : ms' ≠ 0 := by
      rintro rfl
      exact hms (UInt64.le_zero_iff.mp hle)
    rw [hdead hms h, hdead hms' h', UInt64.le_iff_toNat_le]
    exact he.mono hms hms' hle hj

/-! ## The wake-up -/

/-- The fields that decide when a task is woken stay as they are. -/
def SameSleep (s s' : State) (x : Tid) : Prop :=
  (s'.task x).state = (s.task x).state ∧ (s'.task x).wakeJiffies = (s.task x).wakeJiffies

theorem SameSleep.refl (s : State) (x : Tid) : SameSleep s s x := ⟨rfl, rfl⟩

theorem SameSleep.trans {s₁ : State} (h : SameSleep s s₁ x) (h' : SameSleep s₁ s' x) : SameSleep s s' x :=
  ⟨h'.1.trans h.1, h'.2.trans h.2⟩

theorem sameSleep_setTask {f : Task → Task} (hstate : (f (s.task t)).state = (s.task t).state)
    (hwake : (f (s.task t)).wakeJiffies = (s.task t).wakeJiffies) (x : Tid) : SameSleep s (s.setTask t f) x := by
  by_cases hx : x = t
  · subst hx
    exact ⟨by simpa [State.setTask] using hstate, by simpa [State.setTask] using hwake⟩
  · simp [SameSleep, State.setTask, hx]

theorem SameSleep.setPc (h : SameSleep s s' x) (q : Pc) : SameSleep s (s'.setPc c q) x := h

theorem sameSleep_setTask_of_ne {f : Task → Task} (hx : x ≠ t) : SameSleep s (s.setTask t f) x := by
  simp [SameSleep, State.setTask, hx]

theorem sameSleep_readyEnqueue (t x : Tid) : SameSleep s (s.readyEnqueue c t) x := by
  unfold State.readyEnqueue
  split
  · exact SameSleep.refl s x
  have hself : SameSleep s (s.setTask t fun r => { r with cpu := c, next := none }) x :=
    sameSleep_setTask rfl rfl x
  refine hself.trans ?_
  generalize s.setTask t (fun r => { r with cpu := c, next := none }) = s₁
  refine SameSleep.trans ?_ (sameSleep_setTask rfl rfl x)
  cases ht : s₁.tail c with
  | none => exact SameSleep.refl s₁ x
  | some l =>
    have hlast : SameSleep s₁ (s₁.setTask l fun r => { r with next := some t }) x :=
      sameSleep_setTask rfl rfl x
    exact hlast

theorem sameSleep_readyDequeue {o : Option Tid} (h : s.readyDequeue c = (o, s')) (x : Tid) :
    SameSleep s s' x := by
  unfold State.readyDequeue at h
  split at h
  · cases h
    exact SameSleep.refl s x
  · cases h
    refine SameSleep.trans ?_ (sameSleep_setTask ?_ ?_ x)
    · exact SameSleep.refl s x
    · rfl
    · rfl

theorem sameSleep_setSleepAt (pp v : Option Tid) (x : Tid) : SameSleep s (s.setSleepAt pp v) x := by
  cases pp with
  | none => exact SameSleep.refl s x
  | some u => exact sameSleep_setTask (f := fun r => { r with sleepNext := v }) rfl rfl x

/-- Another task than the one that is woken. -/
theorem sameSleep_wakeOne {pp : Option Tid} (hx : x ≠ t) : SameSleep s (s.wakeOne pp t) x :=
  (sameSleep_setSleepAt pp _ x).trans (sameSleep_setTask_of_ne hx)

/-- **A step inside `sched_wake_sleepers` or `schedule_from_irq`** changes
these fields only of a task whose deadline has come. -/
theorem goStep_sleep (h : s.goStep c = some s') (x : Tid) :
    SameSleep s s' x ∨ (s.task x).wakeJiffies ≤ s.jiffies := by
  unfold State.goStep at h
  split at h
  · cases h
  · -- the loop of `sched_wake_sleepers`
    split at h
    · cases h
      exact .inl (SameSleep.refl s x)
    rename_i t ht
    split at h
    · rename_i hdue
      by_cases hx : x = t
      · exact .inr (hx ▸ hdue)
      · split at h <;> cases h <;> exact .inl (sameSleep_wakeOne hx)
    · cases h
      exact .inl (SameSleep.refl s x)
  · cases h
    exact .inl (sameSleep_readyEnqueue _ x)
  · -- `enter`
    split at h
    · cases h
      exact .inl (SameSleep.refl s x)
    split at h
    · cases h
    · cases h
      exact .inl ((sameSleep_setTask rfl rfl x).setPc _)
  · cases h
    exact .inl (sameSleep_readyEnqueue _ x)
  · split at h <;> rename_i hd <;> cases h <;> exact .inl (sameSleep_readyDequeue hd x)
  · split at h
    · cases h
      exact .inl (SameSleep.refl s x)
    split at h <;> cases h <;> exact .inl (SameSleep.refl s x)
  · -- `stealLock`
    split at h
    · cases h
      exact .inl (SameSleep.refl s x)
    split at h <;> rename_i hd <;> cases h <;> exact .inl (sameSleep_readyDequeue hd x)
  · cases h
    exact .inl ((sameSleep_setTask rfl rfl x).setPc _)
  · cases h
    exact .inl ((sameSleep_setTask rfl rfl x).setPc _)
  · cases h
    exact .inl (SameSleep.refl s x)
  · cases h
    exact .inl (SameSleep.refl s x)

/-- **A task that sleeps is woken only once its deadline has come**, by
whichever CPU takes the step. -/
theorem woken_at_deadline {a : ℕ} {act : Action} (h : s.step c act = some s') (hcreated : .heap a ∈ s.created)
    (hs : (s.task (.heap a)).state = .sleeping) (hs' : (s'.task (.heap a)).state = .ready) :
    (s.task (.heap a)).wakeJiffies ≤ s.jiffies := by
  by_contra hlt
  have hkeep : SameSleep s s' (.heap a) → False := fun hk => by
    rw [hk.1, hs] at hs'
    cases hs'
  cases act with
  | cpuInit =>
    simp only [State.step] at h
    split at h
    · cases h
      have hne : Tid.heap a ≠ .idle c := by simp
      exact hkeep (sameSleep_setTask_of_ne (f := fun _ => idleInit) hne)
    · cases h
  | tick =>
    simp only [State.step] at h
    split at h
    · cases h
      exact hkeep (SameSleep.refl s _)
    · cases h
  | create addr rsp pinned =>
    simp only [State.step] at h
    split at h
    · rename_i hg
      cases h
      have hne : (Tid.heap a) ≠ .heap addr := fun heq => hg.2.1 (heq ▸ hcreated)
      exact hkeep (sameSleep_setTask_of_ne (f := fun _ => newTask rsp pinned _) hne)
    · cases h
  | createEnqueue t target =>
    simp only [State.step] at h
    split at h
    · cases h
      exact hkeep (sameSleep_readyEnqueue t _)
    · cases h
  | sleep jf =>
    simp only [State.step] at h
    split at h
    · cases h
    rename_i cur hcur
    split at h
    · cases h
      -- a task that goes to sleep is not ready
      by_cases hx : Tid.heap a = cur
      · simp [State.setPc, State.sleepSection, State.setTask, hx] at hs'
      · exact hkeep (sameSleep_setTask_of_ne (f := fun r =>
          { r with wakeJiffies := s.jiffies + jf, state := .sleeping, sleepNext := s.sleepHead }) hx)
    · cases h
  | wake =>
    simp only [State.step] at h
    split at h
    · split at h
      · cases h
        exact hkeep (SameSleep.refl s _)
      · cases h
    · cases h
  | irq frame =>
    simp only [State.step] at h
    split at h
    · cases h
      exact hkeep ((sameSleep_setTask rfl rfl _).setPc _)
    · cases h
  | go =>
    rcases goStep_sleep h (.heap a) with hk | hdue
    · exact hkeep hk
    · exact hlt hdue

/-- A task runs on CPU `0` and the counter is at `j`. -/
def runningAt (j : UInt64) : State :=
  { task := fun _ => newTask 0 false 0
    current := fun _ => some (.heap 16)
    head := fun _ => none
    tail := fun _ => none
    sleepHead := none
    jiffies := j
    rrCreate := 0
    lock := none
    pc := fun _ => .out false
    creating := []
    created := [.heap 16] }

/-- At 100 ticks a second 20 milliseconds are two ticks, and no shorter
request wakes later. -/
theorem msleep_long_enough_twenty :
    ((runningAt 7).msleep 0 100 20).map (fun s' => (s'.task (.heap 16)).wakeJiffies) = some 9 ∧
      LongEnough 100 20 7 9 := by
  obtain ⟨s', hs'⟩ : ∃ s', (runningAt 7).msleep 0 100 20 = some s' := Option.isSome_iff_exists.mp (by decide)
  have hw : ((runningAt 7).msleep 0 100 20).map (fun s' => (s'.task (.heap 16)).wakeJiffies) = some 9 := by
    decide
  have hexact : Exact 100 20 (runningAt 7).jiffies.toNat := by
    rw [Exact, ticks]
    decide
  have hlong := (msleep_long_enough_iff (by decide : 1 ≤ (100 : UInt32).toNat) (by decide) rfl hs').1.mpr hexact
  rw [hs', Option.map_some, Option.some.injEq] at hw
  rw [hw] at hlong
  exact ⟨by rw [hs', Option.map_some, hw], hlong⟩

/-- At 100 ticks a second 15 milliseconds are given one tick, which is 10. -/
theorem msleep_wakes_early : ¬ ∀ (s s' : State) (c : Cpu) (cur : Tid) (hz : UInt32) (ms : UInt64),
    1 ≤ hz.toNat → ms ≠ 0 → s.current c = some cur → s.msleep c hz ms = some s' →
      LongEnough hz ms s.jiffies.toNat (s'.task cur).wakeJiffies.toNat := by
  intro h
  obtain ⟨s', hs'⟩ : ∃ s', (runningAt 0).msleep 0 100 15 = some s' := Option.isSome_iff_exists.mp (by decide)
  have hw : ((runningAt 0).msleep 0 100 15).map (fun s' => (s'.task (.heap 16)).wakeJiffies) = some 1 := by
    decide
  have hlong := h _ s' 0 (.heap 16) 100 15 (by decide) (by decide) rfl hs'
  rw [hs', Option.map_some, Option.some.injEq] at hw
  rw [hw] at hlong
  exact absurd hlong (by rw [LongEnough, ticks]; decide)

end Sched

end Csos

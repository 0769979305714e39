import Csos.Vfs.Accounting
/-!
# The VFS — mount and unmount side by side

Several callers are inside `vfs_mount`, `vfs_unmount`, `vfs_open` and
`vfs_close` at once; a step is one section of `g_vfs_lock` or one callback
of a driver. `vfs_unmount` clears `used` and only then, with the lock
dropped, calls the driver and clears the slot, while `vfs_mount` takes any
slot with `used == 0`: `tornState` is a run in which the slot is taken again
in between, and the driver is given the superblock of the new mount.
Nothing interferes in the runs in which no slot is reserved while it is
being unmounted or detached while it is being mounted (`Apart`).
-/

namespace Csos

namespace Vfs

/-! ## Model -/

/-- A mount that `vfs_mount` has returned `VFS_OK` for. -/
structure LiveMount where
  drv : Driver
  sb : ℕ
  mountpoint : Str

/-- Where a caller is. `detached` is the superblock of the mount that the
caller's `vfs_unmount` took out. -/
inductive Pc
  | idle
  | mountCall (i : Slot) (drv : Driver)
  | mountFailed (i : Slot)
  | unmountCall (i : Slot) (detached : Option ℕ)
  | unmountFailed (i : Slot)
  | unmountDone (i : Slot)
  | openCall (i : Slot)
  | unpin (i : Slot)

/-- The VFS with its callers. A successful `mount` of a driver makes a new
superblock, the number `nextSb`. `live` and `released` are ghosts: the
mounts in force, and the superblocks passed to a driver's `unmount`, each
with the one its caller had detached. -/
structure Shared where
  vfs : State
  pc : ℕ → Pc
  handles : List Slot
  nextSb : ℕ
  live : Slot → Option LiveMount
  released : List (ℕ × Option ℕ)

/-- The steps of a caller, with what the driver's callback answers: its
result, and the `priv` it leaves if that is not a new superblock. -/
inductive Act
  | mount (fsName mountpoint dev : Str)
  | mountCall (rc : ℤ) (priv : Option ℕ)
  | giveBack
  | unmount (mountpoint : Str)
  | unmountCall (rc : ℤ) (priv : Option ℕ)
  | reattach
  | clear
  | open (path : Str)
  | openCall (rc : ℤ)
  | close (i : Slot)
  | unpin

namespace Shared

variable (s : Shared) (t : ℕ)

/-- The caller goes on to `p`, leaving the table `v`. -/
def goto (v : State) (p : Pc) : Shared := { s with vfs := v, pc := Function.update s.pc t p }

/-- The driver's `mount` callback on the slot. -/
def mountCall (i : Slot) (drv : Driver) (rc : ℤ) (priv : Option ℕ) : Shared :=
  if rc = vfsOk then
    { s.goto t (s.vfs.setPriv i (some s.nextSb)) .idle with
      nextSb := s.nextSb + 1
      live := Function.update s.live i (some ⟨drv, s.nextSb, (s.vfs.mounts i).mountpoint⟩) }
  else s.goto t (s.vfs.setPriv i priv) (.mountFailed i)

/-- The first section of `vfs_unmount`, once it has found its slot. -/
def detached (norm : Str) (i : Slot) (v : State) : Shared :=
  { s.goto t v (.unmountCall i ((s.live i).map LiveMount.sb)) with
    live := Function.update s.live i ((s.live i).filter fun m => m.mountpoint ≠ norm) }

/-- The driver's `unmount` callback. The slot is read here, outside the
lock; `none` is the dereference of a `NULL` driver. -/
def unmountCall (i : Slot) (det : Option ℕ) (rc : ℤ) (priv : Option ℕ) : Option Shared :=
  (s.vfs.mounts i).drv.map fun drv =>
    if drv.has .unmount then
      { s.goto t (s.vfs.setPriv i priv) (if rc = vfsOk then .unmountDone i else .unmountFailed i) with
        released := ((s.vfs.mounts i).priv.map (·, det)).toList ++ s.released }
    else s.goto t s.vfs (.unmountDone i)

/-- One step of the caller `t`. -/
def step (x : ℕ × Act) : Option Shared :=
  match x.2, s.pc x.1 with
  | .mount fsName mountpoint dev, .idle =>
    match normalize mountpoint pathMax with
    | none => some s
    | some norm =>
      match s.vfs.reserve fsName norm dev with
      | .error _ => some s
      | .ok (i, drv, v) => some (s.goto x.1 v (.mountCall i drv))
  | .mountCall rc priv, .mountCall i drv => some (s.mountCall x.1 i drv rc priv)
  | .giveBack, .mountFailed i => some (s.goto x.1 (s.vfs.giveBack i) .idle)
  | .unmount mountpoint, .idle =>
    match normalize mountpoint pathMax with
    | none => some s
    | some norm =>
      match s.vfs.detach norm with
      | .error _ => some s
      | .ok (i, v) => some (s.detached x.1 norm i v)
  | .unmountCall rc priv, .unmountCall i det => s.unmountCall x.1 i det rc priv
  | .reattach, .unmountFailed i => some (s.goto x.1 (s.vfs.reattach i) .idle)
  | .clear, .unmountDone i => some (s.goto x.1 (s.vfs.clear i) .idle)
  | .open path, .idle =>
    match s.vfs.locate path with
    | .error _ => some s
    | .ok (i, _, v) => some (s.goto x.1 v (.openCall i))
  | .openCall rc, .openCall i =>
    if rc = vfsOk then some { s.goto x.1 s.vfs .idle with handles := i :: s.handles }
    else some (s.goto x.1 s.vfs (.unpin i))
  | .close i, .idle =>
    if i ∈ s.handles then
      some { s.goto x.1 s.vfs (.unpin i) with handles := s.handles.erase i }
    else none
  | .unpin, .unpin i => some (s.goto x.1 (s.vfs.unpin i) .idle)
  | _, _ => none

end Shared

/-- After boot: the drivers are registered and nothing is mounted. -/
def booted (drivers : List Driver) : Shared where
  vfs := { initVfs with drivers := drivers }
  pc := fun _ => .idle
  handles := []
  nextSb := 0
  live := fun _ => none
  released := []

/-- The callers of the VFS, interleaved. -/
def callers : System Shared (ℕ × Act) where
  init s := ∃ drivers, s = booted drivers
  step s x s' := s.step x = some s'

/-- **Mounts are left alone.** A superblock is passed to a driver's
`unmount` at most once and by the call that detached it, and the slot of a
mount in force has its driver and its superblock. -/
structure Undisturbed (s : Shared) : Prop where
  once : (s.released.map Prod.fst).Nodup
  own : ∀ e ∈ s.released, e.2 = some e.1
  kept : ∀ i m, s.live i = some m →
    (s.vfs.mounts i).drv = some m.drv ∧ (s.vfs.mounts i).priv = some m.sb

/-! ## The condition -/

/-- The slot a caller is mounting. -/
@[grind] def Pc.mounting? : Pc → Option Slot
  | .mountCall i _ | .mountFailed i => some i
  | .idle | .unmountCall _ _ | .unmountFailed _ | .unmountDone _ | .openCall _ | .unpin _ => none

/-- The slot a caller has detached and is not yet done with. -/
@[grind] def Pc.unmounting? : Pc → Option Slot
  | .unmountCall i _ | .unmountFailed i | .unmountDone i => some i
  | .idle | .mountCall _ _ | .mountFailed _ | .openCall _ | .unpin _ => none

/-- The superblock a caller has detached and not yet passed on. -/
@[grind] def Pc.detached? : Pc → Option ℕ
  | .unmountCall _ det => det
  | .idle | .mountCall _ _ | .mountFailed _ | .unmountFailed _ | .unmountDone _ | .openCall _
  | .unpin _ => none

/-- The step does not reserve a slot that a caller is unmounting, nor detach
one that a caller is mounting, and a driver's `unmount` succeeds. -/
structure Apart (s : Shared) (x : ℕ × Act) : Prop where
  mount : ∀ fsName mountpoint dev norm i drv v, x.2 = .mount fsName mountpoint dev →
    normalize mountpoint pathMax = some norm → s.vfs.reserve fsName norm dev = .ok (i, drv, v) →
    ∀ u, (s.pc u).unmounting? ≠ some i
  unmount : ∀ mountpoint norm i v, x.2 = .unmount mountpoint →
    normalize mountpoint pathMax = some norm → s.vfs.detach norm = .ok (i, v) →
    ∀ u, (s.pc u).mounting? ≠ some i
  succeeds : ∀ rc priv, x.2 = .unmountCall rc priv → rc = vfsOk

/-! ## The invariant -/

variable {s s' : Shared} {t u : ℕ} {i j : Slot} {norm : Str} {v : State}

/-- **The invariant.** At most one caller works on a slot, and knows what is
in it; a slot in use is a mount in force or is being mounted; a superblock
is in one place. -/
structure Tidy (s : Shared) : Prop where
  mounter : ∀ t u i, (s.pc t).mounting? = some i → (s.pc u).mounting? = some i → t = u
  unmounter : ∀ t u i, (s.pc t).unmounting? = some i → (s.pc u).unmounting? = some i → t = u
  mounting : ∀ t i, (s.pc t).mounting? = some i →
    (s.vfs.mounts i).used = true ∧ s.live i = none
  driver : ∀ t i d, s.pc t = .mountCall i d → (s.vfs.mounts i).drv = some d
  unmounting : ∀ t i, (s.pc t).unmounting? = some i →
    (s.vfs.mounts i).used = false ∧ s.live i = none
  detached : ∀ t i det, s.pc t = .unmountCall i det →
    ∃ b, det = some b ∧ (s.vfs.mounts i).priv = some b
  live : ∀ i m, s.live i = some m → (s.vfs.mounts i).used = true ∧
    (s.vfs.mounts i).drv = some m.drv ∧ (s.vfs.mounts i).priv = some m.sb ∧
    (s.vfs.mounts i).mountpoint = m.mountpoint
  used : ∀ i, (s.vfs.mounts i).used = true →
    (∃ m, s.live i = some m) ∨ ∃ t, (s.pc t).mounting? = some i
  noFailure : ∀ t i, s.pc t ≠ .unmountFailed i
  oneLive : ∀ i j m n, s.live i = some m → s.live j = some n → m.sb = n.sb → i = j
  oneDetached : ∀ t u b, (s.pc t).detached? = some b → (s.pc u).detached? = some b → t = u
  oneSide : ∀ i m t, s.live i = some m → (s.pc t).detached? ≠ some m.sb
  freshLive : ∀ i m, s.live i = some m → m.sb < s.nextSb ∧ m.sb ∉ s.released.map Prod.fst
  freshDetached : ∀ t b, (s.pc t).detached? = some b →
    b < s.nextSb ∧ b ∉ s.released.map Prod.fst
  released : ∀ e ∈ s.released, e.1 < s.nextSb ∧ e.2 = some e.1
  once : (s.released.map Prod.fst).Nodup

/-- What a step on the slot `i` leaves: the caller `t` is at `p`, and the
slot holds `m`, with `l` in force. -/
structure Goes (s s' : Shared) (t : ℕ) (p : Pc) (i : Slot) (m : Mount) (l : Option LiveMount) :
    Prop where
  pc : ∀ u, s'.pc u = if u = t then p else s.pc u
  mounts : ∀ j, s'.vfs.mounts j = if j = i then m else s.vfs.mounts j
  live : ∀ j, s'.live j = if j = i then l else s.live j

/-- A step that changes the slot `i`, as a `Goes`. -/
theorem goes_goto (s : Shared) (t : ℕ) (i : Slot) (f : Mount → Mount) (p : Pc) :
    Goes s (s.goto t (s.vfs.setMount i f) p) t p i (f (s.vfs.mounts i)) (s.live i) :=
  ⟨fun _ => Function.update_apply .., fun _ => Function.update_apply .., by grind [Shared.goto]⟩

/-- **A step that works on no slot.** -/
theorem Tidy.frame (T : Tidy s) {p : Pc} (hpc : ∀ u, s'.pc u = if u = t then p else s.pc u)
    (hold : (s.pc t).mounting? = none) (hm : p.mounting? = none) (hu : p.unmounting? = none)
    (hd : p.detached? = none) (hs : ∀ j, SameMount (s.vfs.mounts j) (s'.vfs.mounts j))
    (hl : ∀ j, s'.live j = s.live j) (hn : s'.nextSb = s.nextSb) (hr : s'.released = s.released) :
    Tidy s' := by
  have hself : s'.pc t = p := (hpc t).trans (if_pos rfl)
  have hne : ∀ u, u ≠ t → s'.pc u = s.pc u := fun u hut => (hpc u).trans (if_neg hut)
  -- whoever is at a slot, or has a superblock, is where it was
  have hkeep : ∀ {γ : Type} (f : Pc → Option γ), f p = none →
      ∀ u c, f (s'.pc u) = some c → s'.pc u = s.pc u := by
    intro γ f hf u c h
    refine hne u ?_
    rintro rfl
    rw [hself, hf] at h
    exact absurd h.symm (Option.some_ne_none c)
  have hmount := hkeep Pc.mounting? hm
  have hunmount := hkeep Pc.unmounting? hu
  have hdet := hkeep Pc.detached? hd
  refine ⟨fun u v i h h' => ?_, fun u v i h h' => ?_, fun u i h => ?_, fun u i d h => ?_,
    fun u i h => ?_, fun u i det h => ?_, fun i m h => ?_, fun i h => ?_, fun u i h => ?_,
    fun i j m n h h' => ?_, fun u v b h h' => ?_,
    fun i m u h h' => ?_, fun i m h => ?_, fun u b h => ?_, ?_, ?_⟩
  · exact T.mounter u v i (hmount u i h ▸ h) (hmount v i h' ▸ h')
  · exact T.unmounter u v i (hunmount u i h ▸ h) (hunmount v i h' ▸ h')
  · rw [(hs i).used, hl]
    exact T.mounting u i (hmount u i h ▸ h)
  · rw [(hs i).drv]
    exact T.driver u i d (hmount u i (by rw [h]; rfl) ▸ h)
  · rw [(hs i).used, hl]
    exact T.unmounting u i (hunmount u i h ▸ h)
  · rw [(hs i).priv]
    exact T.detached u i det (hunmount u i (by rw [h]; rfl) ▸ h)
  · rw [(hs i).used, (hs i).drv, (hs i).priv, (hs i).mountpoint]
    exact T.live i m (hl i ▸ h)
  · rw [hl]
    refine (T.used i ((hs i).used ▸ h)).imp_right ?_
    rintro ⟨u, h'⟩
    have hut : u ≠ t := by
      rintro rfl
      rw [hold] at h'
      exact absurd h'.symm (Option.some_ne_none i)
    exact ⟨u, by rw [hne u hut]; exact h'⟩
  · exact T.noFailure u i (hunmount u i (by rw [h]; rfl) ▸ h)
  · exact T.oneLive i j m n (hl i ▸ h) (hl j ▸ h')
  · exact T.oneDetached u v b (hdet u b h ▸ h) (hdet v b h' ▸ h')
  · exact T.oneSide i m u (hl i ▸ h) (hdet u m.sb h' ▸ h')
  · rw [hn, hr]
    exact T.freshLive i m (hl i ▸ h)
  · rw [hn, hr]
    exact T.freshDetached u b (hdet u b h ▸ h)
  · rw [hn, hr]
    exact T.released
  · rw [hr]
    exact T.once

/-- The caller `t` works on no slot but `i`, and no other caller on that one. -/
structure Alone (s : Shared) (t : ℕ) (i : Slot) : Prop where
  self : ∀ j, (s.pc t).mounting? = some j ∨ (s.pc t).unmounting? = some j → j = i
  mounting : ∀ u, u ≠ t → (s.pc u).mounting? ≠ some i
  unmounting : ∀ u, u ≠ t → (s.pc u).unmounting? ≠ some i

/-- The slot `i` is as a caller at `p` relies on, with `l` in force. -/
structure Serves (p : Pc) (i : Slot) (m : Mount) (l : Option LiveMount) : Prop where
  here : ∀ j, p.mounting? = some j ∨ p.unmounting? = some j → j = i
  mounting : p.mounting? = some i → m.used = true ∧ l = none
  driver : ∀ d, p = .mountCall i d → m.drv = some d
  unmounting : p.unmounting? = some i → m.used = false ∧ l = none
  detached : ∀ det, p = .unmountCall i det → ∃ b, det = some b ∧ m.priv = some b
  live : ∀ k, l = some k → m.used = true ∧ m.drv = some k.drv ∧ m.priv = some k.sb ∧
    m.mountpoint = k.mountpoint
  used : m.used = true → (∃ k, l = some k) ∨ p.mounting? = some i
  noFailure : ∀ j, p ≠ .unmountFailed j

/-- Where a superblock goes in a step: nowhere, from the driver to the slot,
from the slot to the caller, or from the caller to the driver. -/
inductive Moves (s s' : Shared) (t : ℕ) (p : Pc) (i : Slot) (l : Option LiveMount) : Prop
  | none (hl : l = s.live i) (hold : (s.pc t).detached? = none) (hp : p.detached? = none)
      (hn : s'.nextSb = s.nextSb) (hr : s'.released = s.released)
  | made (k : LiveMount) (hl : l = some k) (hk : k.sb = s.nextSb) (hold : (s.pc t).detached? = none)
      (hp : p.detached? = none) (hn : s'.nextSb = s.nextSb + 1) (hr : s'.released = s.released)
  | taken (k : LiveMount) (hk : s.live i = some k) (hl : l = none) (hp : p.detached? = some k.sb)
      (hn : s'.nextSb = s.nextSb) (hr : s'.released = s.released)
  | passed (b : ℕ) (hl : l = s.live i) (hold : (s.pc t).detached? = some b) (hp : p.detached? = none)
      (hn : s'.nextSb = s.nextSb) (hr : s'.released = (b, some b) :: s.released ∨ s'.released = s.released)

theorem Pc.not_both {p : Pc} (hm : p.mounting? = some i) (hu : p.unmounting? = some j) : False := by
  cases p <;> grind

theorem serves_mounting {p : Pc} {m : Mount} {l : Option LiveMount} (hp : p.mounting? = some i)
    (hu : m.used = true) (hl : l = none) (hd : ∀ d, p = .mountCall i d → m.drv = some d) :
    Serves p i m l := by
  refine ⟨fun j hj => ?_, fun _ => ⟨hu, hl⟩, hd, fun h => (Pc.not_both hp h).elim, ?_, ?_,
    fun _ => .inr hp, ?_⟩
  · rcases hj with hj | hj
    · exact Option.some.inj (hj.symm.trans hp)
    · exact (Pc.not_both hp hj).elim
  · rintro det rfl
    exact absurd hp.symm (Option.some_ne_none i)
  · rintro k rfl
    exact absurd hl (Option.some_ne_none k)
  · rintro j rfl
    exact absurd hp.symm (Option.some_ne_none i)

theorem serves_unmounting {p : Pc} {m : Mount} {l : Option LiveMount} (hp : p.unmounting? = some i)
    (hu : m.used = false) (hl : l = none)
    (hd : ∀ det, p = .unmountCall i det → ∃ b, det = some b ∧ m.priv = some b)
    (hf : ∀ j, p ≠ .unmountFailed j) : Serves p i m l := by
  refine ⟨fun j hj => ?_, fun h => (Pc.not_both h hp).elim, ?_, fun _ => ⟨hu, hl⟩, hd, ?_,
    fun h => absurd (hu.symm.trans h) Bool.false_ne_true, hf⟩
  · rcases hj with hj | hj
    · exact (Pc.not_both hj hp).elim
    · exact Option.some.inj (hj.symm.trans hp)
  · rintro d rfl
    exact absurd hp.symm (Option.some_ne_none i)
  · rintro k rfl
    exact absurd hl (Option.some_ne_none k)

theorem serves_idle {m : Mount} {l : Option LiveMount}
    (hl : ∀ k, l = some k → m.used = true ∧ m.drv = some k.drv ∧ m.priv = some k.sb ∧
      m.mountpoint = k.mountpoint) (hu : m.used = true → ∃ k, l = some k) : Serves .idle i m l := by
  refine ⟨fun j hj => ?_, fun h => ?_, fun d h => ?_, fun h => ?_, fun det h => ?_, hl,
    fun h => .inl (hu h), fun j h => ?_⟩
  · rcases hj with hj | hj <;> exact absurd hj.symm (Option.some_ne_none j)
  · exact absurd h.symm (Option.some_ne_none i)
  · exact Pc.noConfusion h
  · exact absurd h.symm (Option.some_ne_none i)
  · exact Pc.noConfusion h
  · exact Pc.noConfusion h

theorem Tidy.alone_of_mounting (T : Tidy s) (h : (s.pc t).mounting? = some i) : Alone s t i := by
  refine ⟨?_, fun u hu hm => hu (T.mounter u t i hm h), fun u _ hu => ?_⟩
  · rintro j (hj | hj)
    · exact Option.some.inj (hj.symm.trans h)
    · exact (Pc.not_both h hj).elim
  · have h1 := (T.mounting t i h).1
    rw [(T.unmounting u i hu).1] at h1
    exact absurd h1 Bool.false_ne_true

theorem Tidy.alone_of_unmounting (T : Tidy s) (h : (s.pc t).unmounting? = some i) : Alone s t i := by
  refine ⟨?_, fun u _ hm => ?_, fun u hu hm => hu (T.unmounter u t i hm h)⟩
  · rintro j (hj | hj)
    · exact (Pc.not_both hj h).elim
    · exact Option.some.inj (hj.symm.trans h)
  · have h1 := (T.mounting u i hm).1
    rw [(T.unmounting t i h).1] at h1
    exact absurd h1 Bool.false_ne_true

theorem alone_of_idle (hpc : s.pc t = .idle) (hm : ∀ u, (s.pc u).mounting? ≠ some i)
    (hu : ∀ u, (s.pc u).unmounting? ≠ some i) : Alone s t i := by
  refine ⟨fun j hj => ?_, fun u _ => hm u, fun u _ => hu u⟩
  rw [hpc] at hj
  exact absurd hj (by simp [Pc.mounting?, Pc.unmounting?])

/-- The next superblock has not been released. -/
theorem Tidy.nextSb_fresh (T : Tidy s) : s.nextSb ∉ s.released.map Prod.fst := by
  intro h
  obtain ⟨e, he, hsb⟩ := List.mem_map.mp h
  exact absurd (T.released e he).1 (by omega)

section Goes

variable {p : Pc} {m : Mount} {l : Option LiveMount} {f : Pc → Option Slot}

theorem Goes.pc_self (G : Goes s s' t p i m l) : s'.pc t = p := (G.pc t).trans (if_pos rfl)

theorem Goes.pc_of_ne (G : Goes s s' t p i m l) (hu : u ≠ t) : s'.pc u = s.pc u :=
  (G.pc u).trans (if_neg hu)

theorem Goes.live_self (G : Goes s s' t p i m l) : s'.live i = l := (G.live i).trans (if_pos rfl)

theorem Goes.live_of_ne (G : Goes s s' t p i m l) (hj : j ≠ i) : s'.live j = s.live j :=
  (G.live j).trans (if_neg hj)

theorem Goes.mounts_self (G : Goes s s' t p i m l) : s'.vfs.mounts i = m := (G.mounts i).trans (if_pos rfl)

theorem Goes.mounts_of_ne (G : Goes s s' t p i m l) (hj : j ≠ i) : s'.vfs.mounts j = s.vfs.mounts j :=
  (G.mounts j).trans (if_neg hj)

/-- A slot that was with at most one caller still is. -/
theorem Goes.unique (G : Goes s s' t p i m l)
    (hT : ∀ u v j, f (s.pc u) = some j → f (s.pc v) = some j → u = v)
    (hhere : ∀ j, f p = some j → j = i) (halone : ∀ u, u ≠ t → f (s.pc u) ≠ some i) :
    ∀ u v j, f (s'.pc u) = some j → f (s'.pc v) = some j → u = v := by
  intro u v j hu hv
  by_cases hut : u = t <;> by_cases hvt : v = t
  · rw [hut, hvt]
  · rw [hut, G.pc_self] at hu
    rw [G.pc_of_ne hvt, hhere j hu] at hv
    exact absurd hv (halone v hvt)
  · rw [hvt, G.pc_self] at hv
    rw [G.pc_of_ne hut, hhere j hv] at hu
    exact absurd hu (halone u hut)
  · rw [G.pc_of_ne hut] at hu
    rw [G.pc_of_ne hvt] at hv
    exact hT u v j hu hv

/-- What callers rely on at their slots, they still can. -/
theorem Goes.relied {P : Mount → Option LiveMount → Prop} (G : Goes s s' t p i m l)
    (hT : ∀ u j, f (s.pc u) = some j → P (s.vfs.mounts j) (s.live j))
    (hhere : ∀ j, f p = some j → j = i) (halone : ∀ u, u ≠ t → f (s.pc u) ≠ some i)
    (hK : f p = some i → P m l) : ∀ u j, f (s'.pc u) = some j → P (s'.vfs.mounts j) (s'.live j) := by
  intro u j hu
  by_cases hut : u = t
  · rw [hut, G.pc_self] at hu
    obtain rfl := hhere j hu
    rw [G.mounts_self, G.live_self]
    exact hK hu
  · rw [G.pc_of_ne hut] at hu
    have hj : j ≠ i := by
      rintro rfl
      exact halone u hut hu
    rw [G.mounts_of_ne hj, G.live_of_ne hj]
    exact hT u j hu

end Goes

/-- **A step on one slot** keeps the invariant, if nobody else works on it. -/
theorem Tidy.goes (T : Tidy s) {p : Pc} {m : Mount} {l : Option LiveMount} (G : Goes s s' t p i m l)
    (A : Alone s t i) (K : Serves p i m l) (M : Moves s s' t p i l) : Tidy s' where
  mounter := G.unique T.mounter (fun j hj => K.here j (.inl hj)) A.mounting
  unmounter := G.unique T.unmounter (fun j hj => K.here j (.inr hj)) A.unmounting
  mounting := G.relied (P := fun m l => m.used = true ∧ l = none) T.mounting
    (fun j hj => K.here j (.inl hj)) A.mounting K.mounting
  unmounting := G.relied (P := fun m l => m.used = false ∧ l = none) T.unmounting
    (fun j hj => K.here j (.inr hj)) A.unmounting K.unmounting
  driver u j d hu := by
    by_cases hut : u = t
    · rw [hut, G.pc_self] at hu
      obtain rfl := K.here j (.inl (by rw [hu]; rfl))
      rw [G.mounts_self]
      exact K.driver d hu
    · rw [G.pc_of_ne hut] at hu
      have hj : j ≠ i := by
        rintro rfl
        exact A.mounting u hut (by rw [hu]; rfl)
      rw [G.mounts_of_ne hj]
      exact T.driver u j d hu
  detached u j det hu := by
    by_cases hut : u = t
    · rw [hut, G.pc_self] at hu
      obtain rfl := K.here j (.inr (by rw [hu]; rfl))
      rw [G.mounts_self]
      exact K.detached det hu
    · rw [G.pc_of_ne hut] at hu
      have hj : j ≠ i := by
        rintro rfl
        exact A.unmounting u hut (by rw [hu]; rfl)
      rw [G.mounts_of_ne hj]
      exact T.detached u j det hu
  live j k hk := by
    by_cases hj : j = i
    · subst hj
      rw [G.live_self] at hk
      rw [G.mounts_self]
      exact K.live k hk
    · rw [G.live_of_ne hj] at hk
      rw [G.mounts_of_ne hj]
      exact T.live j k hk
  used j hu := by
    by_cases hj : j = i
    · subst hj
      rw [G.mounts_self] at hu
      rw [G.live_self]
      exact (K.used hu).imp_right fun hp => ⟨t, by rw [G.pc_self]; exact hp⟩
    · rw [G.mounts_of_ne hj] at hu
      rw [G.live_of_ne hj]
      refine (T.used j hu).imp_right ?_
      rintro ⟨u, hm⟩
      have hut : u ≠ t := by
        rintro rfl
        exact hj (A.self j (.inl hm))
      exact ⟨u, by rw [G.pc_of_ne hut]; exact hm⟩
  noFailure u j := by
    by_cases hut : u = t
    · rw [hut, G.pc_self]
      exact K.noFailure j
    · rw [G.pc_of_ne hut]
      exact T.noFailure u j
  oneLive := by
    obtain ⟨-, -, g⟩ := G
    have h := T.oneLive
    have hf := T.freshLive
    cases M <;> grind
  oneDetached := by
    obtain ⟨g, -, -⟩ := G
    have h := T.oneDetached
    have hs := T.oneSide
    cases M <;> grind
  oneSide := by
    obtain ⟨g, -, g'⟩ := G
    have h := T.oneSide
    have hl := T.oneLive
    have hf := T.freshDetached
    cases M <;> grind
  freshLive := by
    obtain ⟨-, -, g⟩ := G
    have h := T.freshLive
    have hs := T.oneSide
    have hn := T.nextSb_fresh
    cases M <;> grind
  freshDetached := by
    obtain ⟨g, -, -⟩ := G
    have h := T.freshDetached
    have hl := T.freshLive
    have ho := T.oneDetached
    cases M <;> grind
  released := by
    have h := T.released
    have hf := T.freshDetached
    cases M <;> grind
  once := by
    have h := T.once
    have hf := T.freshDetached
    cases M <;> grind

/-! ### The steps -/

/-- No mount is in force at a slot that is not used. -/
theorem Tidy.live_eq_none (T : Tidy s) (h : (s.vfs.mounts i).used = false) : s.live i = none := by
  by_contra hne
  obtain ⟨k, hk⟩ := Option.ne_none_iff_exists'.mp hne
  rw [(T.live i k hk).1] at h
  exact absurd h.symm Bool.false_ne_true

/-- `vfs_mount` reserves a slot that nobody is working on. -/
theorem reserve_tidy (T : Tidy s) {m : Mount} {drv : Driver}
    (G : Goes s s' t (.mountCall i drv) i m (s.live i)) (hold : s.pc t = .idle)
    (hfree : (s.vfs.mounts i).used = false) (hap : ∀ u, (s.pc u).unmounting? ≠ some i)
    (hmu : m.used = true) (hmd : m.drv = some drv)
    (hn : s'.nextSb = s.nextSb) (hr : s'.released = s.released) : Tidy s' := by
  have hm : ∀ u, (s.pc u).mounting? ≠ some i := by
    intro u hu
    rw [(T.mounting u i hu).1] at hfree
    exact absurd hfree.symm Bool.false_ne_true
  refine T.goes G (alone_of_idle hold hm hap) (serves_mounting rfl hmu (T.live_eq_none hfree) ?_)
    (.none rfl (by rw [hold]; rfl) rfl hn hr)
  rintro d ⟨⟩
  exact hmd

/-- The driver has made the superblock of a new mount. -/
theorem mounted_tidy (T : Tidy s) {m : Mount} {l : LiveMount} {drv : Driver}
    (G : Goes s s' t .idle i m (some l)) (hold : s.pc t = .mountCall i drv)
    (hm : m.used = true ∧ m.drv = some l.drv ∧ m.priv = some l.sb ∧ m.mountpoint = l.mountpoint)
    (hl : l.sb = s.nextSb)
    (hn : s'.nextSb = s.nextSb + 1) (hr : s'.released = s.released) : Tidy s' := by
  refine T.goes G (T.alone_of_mounting (by rw [hold]; rfl)) (serves_idle ?_ fun _ => ⟨l, rfl⟩)
    (.made l rfl hl (by rw [hold]; rfl) rfl hn hr)
  rintro k ⟨⟩
  exact hm

/-- The driver has failed, and the slot is still being mounted. -/
theorem mountFailed_tidy (T : Tidy s) {m : Mount} {drv : Driver}
    (G : Goes s s' t (.mountFailed i) i m (s.live i)) (hold : s.pc t = .mountCall i drv)
    (hm : m.used = true) (hn : s'.nextSb = s.nextSb) (hr : s'.released = s.released) : Tidy s' := by
  have hat : (s.pc t).mounting? = some i := by rw [hold]; rfl
  exact T.goes G (T.alone_of_mounting hat)
    (serves_mounting rfl hm (T.mounting t i hat).2 fun d h => Pc.noConfusion h)
    (.none rfl (by rw [hold]; rfl) rfl hn hr)

/-- A caller that leaves its slot, not used. -/
theorem left_tidy (T : Tidy s) {m : Mount} (G : Goes s s' t .idle i m (s.live i)) (A : Alone s t i)
    (hl : s.live i = none) (hold : (s.pc t).detached? = none)
    (hm : m.used = false) (hn : s'.nextSb = s.nextSb) (hr : s'.released = s.released) : Tidy s' := by
  refine T.goes G A (serves_idle (fun k hk => ?_) fun hu => ?_) (.none rfl hold rfl hn hr)
  · rw [hl] at hk
    exact absurd hk.symm (Option.some_ne_none k)
  · exact absurd (hm.symm.trans hu) Bool.false_ne_true

/-- A slot is given back. -/
theorem giveBack_tidy (T : Tidy s) {m : Mount} (G : Goes s s' t .idle i m (s.live i))
    (hold : s.pc t = .mountFailed i)
    (hm : m.used = false) (hn : s'.nextSb = s.nextSb) (hr : s'.released = s.released) : Tidy s' := by
  have hat : (s.pc t).mounting? = some i := by rw [hold]; rfl
  exact left_tidy T G (T.alone_of_mounting hat) (T.mounting t i hat).2 (by rw [hold]; rfl) hm hn hr

/-- `vfs_unmount` detaches a mount in force. -/
theorem detach_tidy (T : Tidy s) {m : Mount} {l : LiveMount}
    (G : Goes s s' t (.unmountCall i (some l.sb)) i m none) (hold : s.pc t = .idle)
    (hl : s.live i = some l) (hm : m.used = false ∧ m.priv = some l.sb)
    (hn : s'.nextSb = s.nextSb) (hr : s'.released = s.released) : Tidy s' := by
  have hne : s.live i ≠ none := by rw [hl]; exact Option.some_ne_none l
  refine T.goes G (alone_of_idle hold (fun u hu => hne (T.mounting u i hu).2)
    fun u hu => hne (T.unmounting u i hu).2) (serves_unmounting rfl hm.1 rfl ?_ fun j h => Pc.noConfusion h)
    (.taken l hl rfl rfl hn hr)
  rintro det ⟨⟩
  exact ⟨l.sb, rfl, hm.2⟩

/-- The driver's `unmount` has been given the superblock that was detached. -/
theorem released_tidy (T : Tidy s) {m : Mount} {b : ℕ}
    (G : Goes s s' t (.unmountDone i) i m (s.live i)) (hold : s.pc t = .unmountCall i (some b))
    (hm : m.used = false) (hn : s'.nextSb = s.nextSb)
    (hr : s'.released = (b, some b) :: s.released ∨ s'.released = s.released) : Tidy s' := by
  have hat : (s.pc t).unmounting? = some i := by rw [hold]; rfl
  exact T.goes G (T.alone_of_unmounting hat)
    (serves_unmounting rfl hm (T.unmounting t i hat).2 (fun det h => Pc.noConfusion h)
      fun j h => Pc.noConfusion h)
    (.passed b rfl (by rw [hold]; rfl) rfl hn hr)

/-- The slot is cleared, and free. -/
theorem clear_tidy (T : Tidy s) {m : Mount} (G : Goes s s' t .idle i m (s.live i))
    (hold : s.pc t = .unmountDone i)
    (hm : m.used = false) (hn : s'.nextSb = s.nextSb) (hr : s'.released = s.released) : Tidy s' := by
  have hat : (s.pc t).unmounting? = some i := by rw [hold]; rfl
  exact left_tidy T G (T.alone_of_unmounting hat) (T.unmounting t i hat).2 (by rw [hold]; rfl) hm hn hr

/-! ## Every step, every run -/

theorem tidy_booted (drivers : List Driver) : Tidy (booted drivers) := by
  constructor <;> simp [booted, initVfs, emptyMount, Pc.mounting?, Pc.unmounting?, Pc.detached?]

/-- The first section of `vfs_unmount` finds a mount in force, unless the
slot is still being mounted. -/
theorem detached_tidy (T : Tidy s) (hpc : s.pc t = .idle) (hd : s.vfs.detach norm = .ok (i, v))
    (hap : ∀ u, (s.pc u).mounting? ≠ some i) : Tidy (s.detached t norm i v) := by
  obtain ⟨hfind, -, rfl⟩ := detach_ok hd
  obtain ⟨hu, hmp⟩ := findMount_eq_some hfind
  obtain ⟨l, hl⟩ : ∃ l, s.live i = some l := by
    rcases T.used i hu with h | ⟨u, h⟩
    · exact h
    · exact absurd h (hap u)
  have hlive := T.live i l hl
  have hnone : (s.live i).filter (fun m => decide (m.mountpoint ≠ norm)) = none := by
    rw [hl, Option.filter_some, if_neg]
    simp [← hlive.2.2.2, hmp]
  refine detach_tidy (l := l) (m := { s.vfs.mounts i with used := false }) T ?_ hpc hl
    ⟨rfl, hlive.2.2.1⟩ rfl rfl
  rw [Shared.detached, hl, Option.map_some, ← hl, hnone]
  exact ⟨fun _ => Function.update_apply .., fun _ => Function.update_apply ..,
    fun _ => Function.update_apply ..⟩

/-- The callback of `vfs_unmount` finds the slot as the call left it. -/
theorem unmountCall_tidy (T : Tidy s) {det priv : Option ℕ} {rc : ℤ}
    (hpc : s.pc t = .unmountCall i det) (hrc : rc = vfsOk)
    (h : s.unmountCall t i det rc priv = some s') : Tidy s' := by
  obtain ⟨b, rfl, hb⟩ := T.detached t i det hpc
  have hun := (T.unmounting t i (by rw [hpc]; rfl)).1
  rw [Shared.unmountCall] at h
  obtain ⟨drv, hdrv, rfl⟩ := Option.map_eq_some_iff.mp h
  simp only [hrc, if_true, hb, Option.map_some, Option.toList_some, List.singleton_append]
  split
  · have hg := goes_goto s t i (fun m => { m with priv := priv }) (.unmountDone i)
    exact released_tidy T ⟨hg.pc, hg.mounts, hg.live⟩ hpc hun rfl (.inl rfl)
  · have hsame : s.vfs.setMount i id = s.vfs := setMount_eq_self rfl
    have hg := goes_goto s t i id (.unmountDone i)
    rw [hsame] at hg
    exact released_tidy T hg hpc hun rfl (.inr rfl)

/-- **A step that meets the condition keeps the invariant.** -/
theorem step_tidy (T : Tidy s) {x : ℕ × Act} (hap : Apart s x) (h : s.step x = some s') :
    Tidy s' := by
  obtain ⟨t, a⟩ := x
  have hsame : ∀ j, SameMount (s.vfs.mounts j) (s.vfs.mounts j) := fun _ => ⟨rfl, rfl, rfl, rfl⟩
  simp only [Shared.step] at h
  split at h
  next fsName mountpoint dev hpc =>
    split at h
    · cases h
      exact T
    rename_i norm hnorm
    split at h
    · cases h
      exact T
    rename_i i drv v hres
    cases h
    have hfree := hap.mount _ _ _ _ _ _ _ rfl hnorm hres
    obtain ⟨hunused, -, rfl⟩ := reserve_ok hres
    exact reserve_tidy T (goes_goto s t i _ _) hpc hunused hfree rfl rfl rfl rfl
  next rc priv i drv hpc =>
    have hi := T.mounting t i (by rw [hpc]; rfl)
    cases h
    rw [Shared.mountCall]
    split
    · refine mounted_tidy (m := { s.vfs.mounts i with priv := some s.nextSb }) T
        ⟨fun _ => Function.update_apply .., fun _ => Function.update_apply ..,
          fun _ => Function.update_apply ..⟩ hpc ⟨hi.1, T.driver t i drv hpc, rfl, rfl⟩ rfl rfl rfl
    · exact mountFailed_tidy T (goes_goto s t i _ _) hpc hi.1 rfl rfl
  next i hpc =>
    cases h
    exact giveBack_tidy T (goes_goto s t i _ _) hpc rfl rfl rfl
  next mountpoint hpc =>
    split at h
    · cases h
      exact T
    rename_i norm hnorm
    split at h
    · cases h
      exact T
    rename_i i v hd
    cases h
    exact detached_tidy T hpc hd (hap.unmount _ _ _ _ rfl hnorm hd)
  next rc priv i det hpc => exact unmountCall_tidy T hpc (hap.succeeds _ _ rfl) h
  next i hpc => exact absurd hpc (T.noFailure t i)
  next i hpc =>
    cases h
    exact clear_tidy T (goes_goto s t i _ _) hpc (T.unmounting t i (by rw [hpc]; rfl)).1 rfl rfl
  next path hpc =>
    split at h
    · cases h
      exact T
    rename_i i _ v hloc
    cases h
    obtain ⟨-, rfl⟩ := locate_ok hloc
    exact T.frame (fun _ => Function.update_apply ..) (by rw [hpc]; rfl) rfl rfl rfl
      (pin_same s.vfs i) (fun _ => rfl) rfl rfl
  next rc i hpc =>
    split at h <;> cases h <;>
      exact T.frame (fun _ => Function.update_apply ..) (by rw [hpc]; rfl) rfl rfl rfl hsame
        (fun _ => rfl) rfl rfl
  next i hpc =>
    split at h
    · cases h
      exact T.frame (fun _ => Function.update_apply ..) (by rw [hpc]; rfl) rfl rfl rfl hsame
        (fun _ => rfl) rfl rfl
    · exact absurd h (by simp)
  next i hpc =>
    cases h
    exact T.frame (fun _ => Function.update_apply ..) (by rw [hpc]; rfl) rfl rfl rfl
      (unpin_same s.vfs i) (fun _ => rfl) rfl rfl
  next => exact absurd h (by simp)

/-- **Mount and unmount do not interfere** in a run in which no slot is
reserved while it is being unmounted, none is detached while it is being
mounted, and the drivers' `unmount` succeeds. -/
theorem mounts_undisturbed (h : (callers.restrict Apart).Reachable s) : Undisturbed s := by
  have T : Tidy s := by
    refine h.invariant ?_ ?_
    · rintro _ ⟨drivers, rfl⟩
      exact tidy_booted drivers
    · rintro s x s' - T ⟨hap, hs⟩
      exact step_tidy T hap hs
  exact ⟨T.once, fun e he => (T.released e he).2, fun i m hm => ⟨(T.live i m hm).2.1, (T.live i m hm).2.2.1⟩⟩

/-- The steps of a list, taken in turn. -/
def afterSteps (l : List (ℕ × Act)) : Option Shared := System.run Shared.step (booted [plainDriver]) l

/-- Caller 0 mounts `/a` and caller 1 unmounts it. -/
def mountRun : List (ℕ × Act) :=
  [(0, .mount [102] [slash, 97] []), (0, .mountCall 0 none), (1, .unmount [slash, 97]),
    (1, .unmountCall 0 none), (1, .clear)]

/-- With nobody inside a call, any step but a failing callback is apart. -/
theorem apart_of_idle {x : ℕ × Act} (h : ∀ u, s.pc u = .idle) (hx : ∀ rc p, x.2 ≠ .unmountCall rc p) :
    Apart s x := by
  refine ⟨fun _ _ _ _ _ _ _ _ _ _ u => ?_, fun _ _ _ _ _ _ _ u => ?_, fun rc p hp => absurd hp (hx rc p)⟩
  · rw [h]
    simp [Pc.unmounting?]
  · rw [h]
    simp [Pc.mounting?]

/-- A step of a run that meets the condition. -/
theorem apart_step {x : ℕ × Act} (hr : (callers.restrict Apart).Reachable s)
    (h : s.step x = some s') (hap : Apart s x) : (callers.restrict Apart).Reachable s' :=
  hr.step ⟨hap, h⟩

/-- The mount of caller 0 is released by caller 1. -/
theorem mounts_undisturbed_mountRun :
    ∃ s, afterSteps mountRun = some s ∧ s.released = [(0, some 0)] ∧ Undisturbed s := by
  obtain ⟨s₁, h1⟩ : ∃ s, (booted [plainDriver]).step (0, .mount [102] [slash, 97] []) = some s := ⟨_, rfl⟩
  obtain ⟨s₂, h2⟩ : ∃ s, s₁.step (0, .mountCall 0 none) = some s := by cases h1; exact ⟨_, rfl⟩
  obtain ⟨s₃, h3⟩ : ∃ s, s₂.step (1, .unmount [slash, 97]) = some s := by cases h1; cases h2; exact ⟨_, rfl⟩
  obtain ⟨s₄, h4⟩ : ∃ s, s₃.step (1, .unmountCall 0 none) = some s := by
    cases h1; cases h2; cases h3; exact ⟨_, rfl⟩
  obtain ⟨s₅, h5⟩ : ∃ s, s₄.step (1, .clear) = some s := by
    cases h1; cases h2; cases h3; cases h4; exact ⟨_, rfl⟩
  have hidle : ∀ u, s₂.pc u = .idle := by
    intro u
    cases h1; cases h2
    by_cases hu : u = 0 <;> simp [Shared.mountCall, Shared.goto, booted, hu]
  have r0 : (callers.restrict Apart).Reachable (booted [plainDriver]) := .init ⟨_, rfl⟩
  have r1 := apart_step r0 h1 (apart_of_idle (fun _ => rfl) (by simp))
  have r2 := apart_step r1 h2 ⟨by simp, by simp, by simp⟩
  have r3 := apart_step r2 h3 (apart_of_idle hidle (by simp))
  have r4 := apart_step r3 h4 ⟨by simp, by simp, by simp⟩
  have r5 := apart_step r4 h5 ⟨by simp, by simp, by simp⟩
  refine ⟨s₅, ?_, ?_, mounts_undisturbed r5⟩
  · simp [afterSteps, mountRun, System.run, h1, h2, h3, h4, h5]
  · cases h1; cases h2; cases h3; cases h4; cases h5
    rfl

/-- Caller 1 has detached `/a`; caller 2 mounts `/b` in the same slot before
caller 1 calls the driver. -/
def tornRun : List (ℕ × Act) :=
  [(0, .mount [102] [slash, 97] []), (0, .mountCall 0 none), (1, .unmount [slash, 97]),
    (2, .mount [102] [slash, 98] []), (2, .mountCall 0 none), (1, .unmountCall 0 none)]

/-- The driver was given superblock 1 by the call that had detached
superblock 0, and the mount of `/b` has lost it. -/
theorem mount_torn_down : ¬ ∀ s, callers.Reachable s → Undisturbed s := by
  intro hall
  obtain ⟨s, hs⟩ : ∃ s, afterSteps tornRun = some s := ⟨_, rfl⟩
  have hr : callers.Reachable s :=
    System.Reachable.run (fun _ _ _ h => h) (.init ⟨[plainDriver], rfl⟩) hs
  have hrel : s.released = [(1, some 0)] := by
    cases hs
    rfl
  have := (hall s hr).own (1, some 0) (by rw [hrel]; exact List.mem_singleton.mpr rfl)
  exact absurd this (by simp)

end Vfs

end Csos

import Csos.Vfs.Calls
/-!
# The VFS — handle accounting

Every call does one of a few things to the table and the handles: nothing,
take a handle, let one go, or rewrite a slot nobody has a handle on
(`Move`). `call_move` says so of each entry point with all its exits, and
each kind of move keeps the invariant.
-/

namespace Csos

namespace Vfs

variable {w w' : World} {s : State} {a : Answers} {i j : Slot} {path norm : Str} {rc : ℤ}

/-! ## Paths fit their buffer -/

/-- A pop does not make the path longer. -/
theorem popComponent_length_le (dst : Str) : (popComponent dst).length ≤ dst.length := by
  have h : (dst.rdropWhile (· ≠ slash)).length ≤ dst.length := (List.rdropWhile_prefix _ _).length_le
  simp only [popComponent]
  split
  · rw [List.length_dropLast]
    omega
  · exact h

/-- The loop never writes past the buffer. -/
theorem normalizeLoop_length {n : ℕ} : ∀ (fuel : ℕ) (src dst : Str), dst.length < n →
    ∀ r, normalizeLoop n fuel src dst = some r → r.length < n := by
  intro fuel
  induction fuel with
  | zero =>
    rintro src dst hd r ⟨⟩
    exact hd
  | succ fuel ih =>
    intro src dst hd r hr
    simp only [normalizeLoop] at hr
    split at hr
    · cases hr
      exact hd
    split at hr
    · exact ih _ _ hd _ hr
    split at hr
    · exact ih _ _ ((popComponent_length_le dst).trans_lt hd) _ hr
    -- both forms of the append are within what the test allows
    by_cases h1 : 1 < dst.length <;> simp only [h1, if_true, if_false] at hr <;> split at hr
    · exact absurd hr (by simp)
    · refine ih _ _ ?_ _ hr
      simp only [List.length_append, List.length_singleton]
      omega
    · exact absurd hr (by simp)
    · refine ih _ _ ?_ _ hr
      rw [List.length_append]
      omega

/-- A normalised path and its terminator fit the buffer. -/
theorem normalize_length {src r : Str} {n : ℕ} (h : normalize src n = some r) : r.length < n := by
  rw [normalize] at h
  split at h
  · exact absurd h (by simp)
  · rename_i hn
    refine normalizeLoop_length _ _ _ ?_ _ h
    have : ¬ n < 2 := fun h2 => hn (.inl h2)
    rw [List.length_singleton]
    omega

/-- What fits the buffer is copied whole. -/
theorem strncpy_eq_self {n : ℕ} (h : norm.length < n) : strncpy norm n = norm :=
  List.take_of_length_le (by omega)

/-! ## One slot at a time -/

@[simp] theorem setMount_self (s : State) (i : Slot) (f : Mount → Mount) :
    (s.setMount i f).mounts i = f (s.mounts i) := Function.update_self ..

@[simp] theorem setMount_of_ne (s : State) (f : Mount → Mount) (h : j ≠ i) :
    (s.setMount i f).mounts j = s.mounts j := Function.update_of_ne h ..

@[simp] theorem setMount_setMount (s : State) (i : Slot) (f g : Mount → Mount) :
    (s.setMount i f).setMount i g = s.setMount i (g ∘ f) := by
  simp [State.setMount]

/-- Leaving a slot as it is leaves the state. -/
theorem setMount_eq_self {f : Mount → Mount} (h : f (s.mounts i) = s.mounts i) :
    s.setMount i f = s := by
  simp [State.setMount, h]

/-- A mount that is the same but for its count. -/
structure SameMount (m m' : Mount) : Prop where
  used : m'.used = m.used
  mountpoint : m'.mountpoint = m.mountpoint
  drv : m'.drv = m.drv
  priv : m'.priv = m.priv

/-- A pin changes counts only. -/
theorem pin_same (s : State) (i j : Slot) : SameMount (s.mounts j) ((s.pin i).mounts j) := by
  by_cases hj : j = i <;> constructor <;> simp [State.pin, hj]

/-- So does an unpin. -/
theorem unpin_same (s : State) (i j : Slot) : SameMount (s.mounts j) ((s.unpin i).mounts j) := by
  by_cases hj : j = i <;> constructor <;> simp [State.unpin, hj]

/-- An unpin undoes the pin. -/
theorem unpin_pin (h : (s.mounts i).openCount + 1 < 2 ^ 32) : (s.pin i).unpin i = s := by
  have hp : ((s.mounts i).openCount + 1) % 2 ^ 32 = (s.mounts i).openCount + 1 := Nat.mod_eq_of_lt h
  have hs : (s.pin i).setMount i (fun m =>
      { m with openCount := (m.openCount + (2 ^ 32 - 1)) % 2 ^ 32 }) = s := by
    rw [State.pin, setMount_setMount]
    refine setMount_eq_self ?_
    simp only [Function.comp_apply, hp]
    have : ((s.mounts i).openCount + 1 + (2 ^ 32 - 1)) % 2 ^ 32 = (s.mounts i).openCount := by omega
    rw [this]
  have hu : (s.pin i).underflow = s.underflow := rfl
  rw [State.unpin, hs, hu, State.pin, setMount_self, hp]
  simp

/-! ## What the searches find -/

/-- The slot of `vfs_resolve` is in use. -/
theorem used_of_resolve {rel : Str} (h : s.resolve path = some (i, rel)) :
    (s.mounts i).used = true := by
  have hfold : ∀ (l : List Slot) (best : Option (Slot × ℕ)),
      (∀ b ∈ best, (s.mounts b.1).used = true) →
      ∀ b ∈ l.foldl (s.resolveStep path) best, (s.mounts b.1).used = true := by
    intro l
    induction l with
    | nil => exact fun best hb => hb
    | cons k l ih =>
      intro best hb
      refine ih _ fun b hmem => ?_
      simp only [State.resolveStep] at hmem
      grind
  have hres := hfold (List.finRange maxMounts) none (by simp)
  rw [State.resolve] at h
  split at h
  · exact absurd h (by simp)
  · rename_i k len hk
    have hu := hres _ (by rw [hk]; rfl)
    split at h
    · cases h
      exact hu
    split at h <;> cases h <;> exact hu

/-- A located slot is in use, and pinned. -/
theorem locate_ok {rel : Str} {s' : State} (h : s.locate path = .ok (i, rel, s')) :
    (s.mounts i).used = true ∧ s' = s.pin i := by
  rw [State.locate] at h
  split at h
  · exact absurd h (by simp)
  split at h
  · exact absurd h (by simp)
  · rename_i hres
    cases h
    exact ⟨used_of_resolve hres, rfl⟩

/-- The slot `findMount` finds. -/
theorem findMount_eq_some (h : s.findMount norm = some i) :
    (s.mounts i).used = true ∧ (s.mounts i).mountpoint = norm := by
  have := List.find?_some h
  simpa using this

/-- No slot in use has a mountpoint that is not found. -/
theorem findMount_eq_none (h : s.findMount norm = none) (hu : (s.mounts i).used = true) :
    (s.mounts i).mountpoint ≠ norm := by
  have := List.find?_eq_none.mp h i (List.mem_finRange i)
  simpa [hu] using this

/-- What the first section of `vfs_mount` has done. -/
theorem reserve_ok {fsName dev : Str} {drv : Driver} {s' : State}
    (h : s.reserve fsName norm dev = .ok (i, drv, s')) :
    (s.mounts i).used = false ∧ s.findMount norm = none ∧ s' = s.setMount i fun m =>
      { m with
        used := true, drv := some drv, priv := none
        mountpoint := strncpy norm pathMax, dev := strncpy dev pathMax } := by
  rw [State.reserve] at h
  split at h
  · exact absurd h (by simp)
  split at h
  · exact absurd h (by simp)
  rename_i hfind
  split at h
  · exact absurd h (by simp)
  · rename_i hfree
    cases h
    have := List.find?_some hfree
    exact ⟨by simpa using this, by simpa using hfind, rfl⟩

/-- What the first section of `vfs_unmount` has done. -/
theorem detach_ok {s' : State} (h : s.detach norm = .ok (i, s')) :
    s.findMount norm = some i ∧ (s.mounts i).openCount = 0 ∧
      s' = s.setMount i fun m => { m with used := false } := by
  rw [State.detach] at h
  split at h
  · exact absurd h (by simp)
  · rename_i hf
    split at h
    · exact absurd h (by simp)
    · rename_i hc
      cases h
      exact ⟨hf, by omega, rfl⟩

/-! ## The invariant -/

/-- The handles that are open on a slot. -/
def World.openOn (w : World) (i : Slot) : ℕ := w.handles.countP fun h => h.2.mnt = i

/-- **The invariant.** Counts are the numbers of open handles; handles are
blocks of the heap, and refer to mounted slots. -/
structure Inv (w : World) : Prop where
  count : ∀ i, (w.vfs.mounts i).openCount = w.openOn i
  nodup : (w.handles.map Prod.fst).Nodup
  below : ∀ p ∈ w.handles.map Prod.fst, p < 512 * 1024 * 1024
  distinct : ∀ i j, (w.vfs.mounts i).used = true → (w.vfs.mounts j).used = true →
    (w.vfs.mounts i).mountpoint = (w.vfs.mounts j).mountpoint → i = j
  mounted : ∀ h ∈ w.handles, (w.vfs.mounts h.2.mnt).used = true
  driver : ∀ i, (w.vfs.mounts i).used = true → (w.vfs.mounts i).drv.isSome
  noUnderflow : w.vfs.underflow = false

/-- A handle is counted. -/
theorem openOn_pos {p : ℕ} {h : Handle} (hm : (p, h) ∈ w.handles) : 0 < w.openOn h.mnt :=
  List.countP_pos_iff.mpr ⟨(p, h), hm, by simp⟩

/-- Blocks that are apart cannot fill the counter. -/
theorem Inv.openOn_lt (I : Inv w) (i : Slot) : w.openOn i ≤ 512 * 1024 * 1024 := by
  have hsub : (w.handles.map Prod.fst).toFinset ⊆ Finset.range (512 * 1024 * 1024) := by
    intro p hp
    exact Finset.mem_range.mpr (I.below p (List.mem_toFinset.mp hp))
  have hcard := Finset.card_le_card hsub
  rw [List.toFinset_card_of_nodup I.nodup, List.length_map, Finset.card_range] at hcard
  exact List.countP_le_length.trans hcard

/-- A slot nobody uses has no handles. -/
theorem Inv.openOn_eq_zero (I : Inv w) (h : (w.vfs.mounts i).used = false) : w.openOn i = 0 := by
  rw [World.openOn, List.countP_eq_zero]
  intro x hx
  have := I.mounted x hx
  simp only [decide_eq_true_eq]
  rintro rfl
  rw [h] at this
  exact absurd this Bool.false_ne_true

/-- Under the invariant a pin can be taken back. -/
theorem Inv.unpin_pin (I : Inv w) (i : Slot) : (w.vfs.pin i).unpin i = w.vfs := by
  refine Vfs.unpin_pin ?_
  have := I.openOn_lt i
  rw [I.count i]
  omega

/-! ## What a call does -/

/-- What a call does to the world. -/
inductive Move (w : World) : World → Prop
  /-- The mounts and the handles stay. -/
  | keep (s : State) (hm : s.mounts = w.vfs.mounts) (hu : s.underflow = w.vfs.underflow) :
    Move w (w.withVfs s)
  /-- A handle is opened on a slot in use. -/
  | take (f : ℕ) (h : Handle) (hu : (w.vfs.mounts h.mnt).used = true)
    (hf : f ∉ w.handles.map Prod.fst) (hb : f < 512 * 1024 * 1024) :
    Move w ⟨w.vfs.pin h.mnt, (f, h) :: w.handles⟩
  /-- An open handle is closed. -/
  | drop (p : ℕ) (h : Handle) (hp : w.handleAt p = some h) : Move w (w.drop p h.mnt)
  /-- A slot without handles is rewritten. -/
  | slot (i : Slot) (f : Mount → Mount) (h0 : w.openOn i = 0)
    (hc : (f (w.vfs.mounts i)).openCount = 0)
    (hd : (f (w.vfs.mounts i)).used = true → (f (w.vfs.mounts i)).drv.isSome ∧
      ∀ j, j ≠ i → (w.vfs.mounts j).used = true →
        (w.vfs.mounts j).mountpoint ≠ (f (w.vfs.mounts i)).mountpoint) :
    Move w (w.withVfs (w.vfs.setMount i f))

/-- Nothing happens. -/
theorem Move.refl (w : World) : Move w w := .keep w.vfs rfl rfl

/-- A call ends with a move, and calls a driver's `unmount` only for a slot
without handles. -/
def Ends (w : World) (o : Option Outcome) : Prop :=
  ∃ r, o = some r ∧ Move w r.world ∧ ∀ d ∈ r.calls, d.callback = .op .unmount → w.openOn d.slot = 0

/-- A call that fails at once. -/
theorem ends_fail (w : World) (rc : ℤ) : Ends w (some (w.fail rc)) :=
  ⟨_, rfl, .refl w, by simp [World.fail]⟩

/-- A call that leaves the world, with one callback that is no `unmount`. -/
theorem ends_one (w : World) (rc : ℤ) (d : DrvCall) (hd : d.callback ≠ .op .unmount) :
    Ends w (some ⟨rc, w, [d]⟩) :=
  ⟨_, rfl, .refl w, by simpa using fun h => absurd h hd⟩

theorem register_ends (d : Driver) : Ends w (some (w.register d)) := by
  rw [World.register]
  split
  · exact ends_fail w _
  split
  · exact ends_fail w _
  · exact ⟨_, rfl, .keep _ rfl rfl, by simp⟩

/-- `vfs_mount` writes one slot, which nobody used. -/
theorem mount_ends (I : Inv w) (fsName mountpoint dev : Str) :
    Ends w (some (w.mount a fsName mountpoint dev)) := by
  rw [World.mount]
  split
  · exact ends_fail w _
  split
  · exact ends_fail w _
  rename_i norm hnorm
  split
  · exact ends_fail w _
  rename_i i drv s hs
  obtain ⟨hfree, hfind, rfl⟩ := reserve_ok hs
  have h0 := I.openOn_eq_zero hfree
  have hcount := I.count i
  have hlen := strncpy_eq_self (normalize_length hnorm)
  split <;> refine ⟨_, rfl, ?_, by simp⟩
  · simp only [State.setPriv, State.giveBack, setMount_setMount]
    exact .slot i _ h0 (hcount.trans h0) (fun h => absurd h (by simp))
  · simp only [State.setPriv, setMount_setMount]
    refine .slot i _ h0 (hcount.trans h0) fun _ => ⟨rfl, fun j _ hj => ?_⟩
    simp only [Function.comp_apply, hlen]
    exact findMount_eq_none hfind hj

/-- `vfs_unmount` writes one slot, which has no handles. -/
theorem unmount_ends (I : Inv w) (mountpoint : Str) : Ends w (w.unmount a mountpoint) := by
  rw [World.unmount]
  split
  · exact ends_fail w _
  rename_i norm hnorm
  split
  · exact ends_fail w _
  rename_i i s hs
  obtain ⟨hfind, hc, rfl⟩ := detach_ok hs
  obtain ⟨hu, hmp⟩ := findMount_eq_some hfind
  have h0 : w.openOn i = 0 := (I.count i).symm.trans hc
  have hdrv := I.driver i hu
  split
  · rename_i hnone
    simp only [setMount_self] at hnone
    simp [hnone] at hdrv
  rename_i drv hd
  split
  · simp only [State.setPriv, State.reattach, State.clear, setMount_setMount]
    split <;> refine ⟨_, rfl, ?_, by simp [h0]⟩
    · -- the failed callback puts the slot back where it was
      refine .slot i _ h0 hc fun _ => ⟨hdrv, fun j hne hj heq => hne (I.distinct j i hj hu heq)⟩
    · exact .slot i _ h0 hc (fun h => absurd h (by simp))
  · simp only [State.clear, setMount_setMount]
    exact ⟨_, rfl, .slot i _ h0 hc (fun h => absurd h (by simp)), by simp⟩

/-- A located slot has a driver, and unpinning it restores the table. -/
theorem Inv.located (I : Inv w) {rel : Str} {s : State} (h : w.vfs.locate path = .ok (i, rel, s)) :
    (w.vfs.mounts i).used = true ∧ s = w.vfs.pin i ∧ ((s.mounts i).drv).isSome ∧
      w.withVfs (s.unpin i) = w := by
  obtain ⟨hu, rfl⟩ := locate_ok h
  refine ⟨hu, rfl, ?_, ?_⟩
  · rw [State.pin, setMount_self]
    exact I.driver i hu
  · rw [I.unpin_pin i]
    rfl

theorem open_ends (I : Inv w) (hf : ∀ p, a.alloc = some p →
    p ∉ w.handles.map Prod.fst ∧ p < 512 * 1024 * 1024) (flags : ℕ) :
    Ends w (w.open_ a path flags) := by
  rw [World.open_]
  split
  · exact ends_fail w _
  rename_i i rel s hs
  obtain ⟨hu, rfl, hdrv, hback⟩ := I.located hs
  split
  · rename_i hnone
    simp [hnone] at hdrv
  split
  · rw [hback]
    exact ends_fail w _
  rename_i drv _ _ f halloc
  simp only
  split
  · rw [hback]
    exact ends_one w _ _ (by simp)
  · refine ⟨_, rfl, .take f ⟨i, drv, true, flags, a.isDir⟩ hu (hf f halloc).1 (hf f halloc).2, ?_⟩
    grind

theorem opendir_ends (I : Inv w) (hf : ∀ p, a.alloc = some p →
    p ∉ w.handles.map Prod.fst ∧ p < 512 * 1024 * 1024) : Ends w (w.opendir a path) := by
  rw [World.opendir]
  split
  · exact ends_fail w _
  rename_i i rel s hs
  obtain ⟨hu, rfl, hdrv, hback⟩ := I.located hs
  split
  · rename_i hnone
    simp [hnone] at hdrv
  split
  · rw [hback]
    exact ends_fail w _
  split
  · rw [hback]
    exact ends_fail w _
  rename_i drv _ _ _ f halloc
  simp only
  split
  · rw [hback]
    exact ends_one w _ _ (by simp)
  · exact ⟨_, rfl, .take f ⟨i, drv, false, 0, true⟩ hu (hf f halloc).1 (hf f halloc).2, by simp⟩

/-- `vfs_stat`, `vfs_mkdir` and `vfs_rmdir` leave the world as it was. -/
theorem pathOp_world (I : Inv w) (a : Answers) (path : Str) (rootRc : Option ℤ) (op : Op)
    (hop : op ≠ .unmount) : ∃ r, w.pathOp a path rootRc op = some r ∧ r.world = w ∧
      ∀ d ∈ r.calls, d.callback ≠ .op .unmount := by
  rw [World.pathOp]
  split
  · exact ⟨_, rfl, rfl, by simp [World.fail]⟩
  rename_i i rel s hs
  obtain ⟨hu, rfl, hdrv, hback⟩ := I.located hs
  split
  · exact ⟨_, rfl, hback, by simp⟩
  split
  · rename_i hnone
    simp [hnone] at hdrv
  split
  · exact ⟨_, rfl, hback, by simpa using hop⟩
  · exact ⟨_, rfl, hback, by simp⟩

theorem pathOp_ends (I : Inv w) (rootRc : Option ℤ) {op : Op} (hop : op ≠ .unmount) :
    Ends w (w.pathOp a path rootRc op) := by
  obtain ⟨r, hr, hw, hcalls⟩ := pathOp_world I a path rootRc op hop
  exact ⟨r, hr, hw ▸ .refl w, fun d hd h => absurd h (hcalls d hd)⟩

theorem chdir_ends (I : Inv w) : Ends w (w.chdir a path) := by
  rw [World.chdir]
  split
  · exact ends_fail w _
  rename_i norm hnorm
  obtain ⟨r, hr, hw, hcalls⟩ := pathOp_world I a norm none .stat (by simp)
  have hcalls' : ∀ d ∈ r.calls, d.callback = .op .unmount → w.openOn d.slot = 0 :=
    fun d hd h => absurd h (hcalls d hd)
  rw [World.stat, hr, Option.map_some]
  refine ⟨_, rfl, ?_, ?_⟩
  · split
    · exact hw ▸ .refl w
    split
    · exact hw ▸ .refl w
    · simp only [hw]
      exact .keep _ rfl rfl
  · split
    · exact hcalls'
    split <;> exact hcalls'

/-- A callback that is passed on leaves the world. -/
theorem pass_ends (h : Handle) {op : Op} (hop : op ≠ .unmount) : Ends w (some (w.pass a h op)) := by
  rw [World.pass]
  split
  · exact ends_one w _ _ (by simpa using hop)
  · exact ends_fail w _

/-- **Every call of a valid caller ends.** No `NULL` driver is called, and
the world makes one of the moves. -/
theorem call_ends (I : Inv w) {c : Call} (hv : Valid w a c) : Ends w (w.call a c) := by
  -- the callers' side: a handle argument is `NULL` or open
  have hopen : ∀ p k, c.handle? = some (p, k) → ∃ h, w.handleAt p = some h :=
    fun p k hp => (hv.handle p k hp).imp fun _ h => h.1
  cases c with
  | register d => exact register_ends d
  | mount fsName mountpoint dev => exact mount_ends I fsName mountpoint dev
  | unmount mountpoint => exact unmount_ends I mountpoint
  | «open» path flags => exact open_ends I hv.alloc flags
  | close f =>
    cases f with
    | none => exact ends_fail w _
    | some p =>
      obtain ⟨h, hp⟩ := hopen p true rfl
      simp only [World.call, World.close, hp]
      split <;> exact ⟨_, rfl, .drop p h hp, by simp⟩
  | read f buf len =>
    cases f with
    | none => exact ends_fail w _
    | some p =>
      obtain ⟨h, hp⟩ := hopen p true rfl
      simp only [World.call, World.read, hp, Option.map_some]
      repeat' split
      all_goals first | exact ends_fail w _ | exact pass_ends h (by simp)
  | write f buf len =>
    cases f with
    | none => exact ends_fail w _
    | some p =>
      obtain ⟨h, hp⟩ := hopen p true rfl
      simp only [World.call, World.write, hp, Option.map_some]
      repeat' split
      all_goals first | exact ends_fail w _ | exact pass_ends h (by simp)
  | seek f whence =>
    cases f with
    | none => exact ends_fail w _
    | some p =>
      obtain ⟨h, hp⟩ := hopen p true rfl
      simp only [World.call, World.seek, hp, Option.map_some]
      repeat' split
      all_goals first | exact ends_fail w _ | exact pass_ends h (by simp)
  | stat path => exact pathOp_ends I none (by simp)
  | mkdir path => exact pathOp_ends I _ (by simp)
  | rmdir path => exact pathOp_ends I _ (by simp)
  | opendir path => exact opendir_ends I hv.alloc
  | readdir d =>
    cases d with
    | none => exact ends_fail w _
    | some p =>
      obtain ⟨h, hp⟩ := hopen p false rfl
      simp only [World.call, World.readdir, hp, Option.map_some]
      exact ends_one w _ _ (by simp)
  | closedir d =>
    cases d with
    | none => exact ends_fail w _
    | some p =>
      obtain ⟨h, hp⟩ := hopen p false rfl
      simp only [World.call, World.closedir, hp, Option.map_some]
      exact ⟨_, rfl, .drop p h hp, by simp⟩
  | chdir path => exact chdir_ends I

/-! ## The moves keep the invariant -/

/-- The handle at an address is the only one there. -/
theorem openOn_drop (I : Inv w) {p : ℕ} {h : Handle} (hp : w.handleAt p = some h) (i : Slot) :
    w.openOn i = (w.drop p h.mnt).openOn i + if i = h.mnt then 1 else 0 := by
  obtain ⟨l₁, l₂, hl, hl₁⟩ := List.lookup_eq_some_iff.mp hp
  have hnd := I.nodup
  simp only [World.openOn, World.drop]
  rw [hl] at hnd ⊢
  rw [List.map_append, List.map_cons, List.nodup_append] at hnd
  have h₁ : l₁.filter (fun x => decide (x.1 ≠ p)) = l₁ := by
    rw [List.filter_eq_self]
    intro x hx
    have := hl₁ x hx
    grind
  have h₂ : l₂.filter (fun x => decide (x.1 ≠ p)) = l₂ := by
    rw [List.filter_eq_self]
    intro x hx
    have := (List.nodup_cons.mp hnd.2.1).1
    grind
  rw [List.filter_append, List.filter_cons, h₁, h₂]
  simp only [ne_eq, not_true_eq_false, decide_false, Bool.false_eq_true, if_false,
    List.countP_append, List.countP_cons]
  grind

/-- **A move keeps the invariant.** -/
theorem Move.inv (I : Inv w) (h : Move w w') : Inv w' := by
  cases h with
  | keep s hm hu =>
    refine ⟨?_, I.nodup, I.below, ?_, ?_, ?_, ?_⟩ <;> simp only [World.withVfs, hm, hu]
    · exact I.count
    · exact I.distinct
    · exact I.mounted
    · exact I.driver
    · exact I.noUnderflow
  | take f h hu hf hb =>
    have hslot := pin_same w.vfs h.mnt
    refine ⟨fun j => ?_, ?_, ?_, fun i j => ?_, fun x hx => ?_, fun j => ?_, I.noUnderflow⟩
    · have := I.openOn_lt j
      have hc := I.count j
      by_cases hj : j = h.mnt
      · subst hj
        simp only [State.pin, setMount_self, World.openOn, List.countP_cons, decide_true, if_true]
        rw [hc, Nat.mod_eq_of_lt (by omega)]
        rfl
      · simp only [State.pin, setMount_of_ne _ _ hj, World.openOn, List.countP_cons, Ne.symm hj,
          decide_false, Bool.false_eq_true, if_false]
        exact hc
    · exact List.nodup_cons.mpr ⟨hf, I.nodup⟩
    · intro p hp
      rcases List.mem_cons.mp hp with rfl | hp
      · exact hb
      · exact I.below p hp
    · rw [(hslot i).used, (hslot j).used, (hslot i).mountpoint, (hslot j).mountpoint]
      exact I.distinct i j
    · rw [(hslot _).used]
      rcases List.mem_cons.mp hx with rfl | hx
      · exact hu
      · exact I.mounted x hx
    · rw [(hslot j).used, (hslot j).drv]
      exact I.driver j
  | drop p h hp =>
    have hpos : 0 < w.openOn h.mnt := by
      rw [openOn_drop I hp, if_pos rfl]
      omega
    have hsub : ∀ x ∈ w.handles.filter (fun x => decide (x.1 ≠ p)), x ∈ w.handles :=
      fun x hx => List.mem_of_mem_filter hx
    have hslot := unpin_same w.vfs h.mnt
    refine ⟨fun j => ?_, ?_, ?_, fun i j => ?_, fun x hx => ?_, fun j => ?_, ?_⟩
    · have hd := openOn_drop I hp j
      have := I.openOn_lt j
      have hc := I.count j
      by_cases hj : j = h.mnt
      · subst hj
        rw [if_pos rfl] at hd
        simp only [World.drop, State.unpin, setMount_self, hc] at hd ⊢
        omega
      · rw [if_neg hj] at hd
        simp only [World.drop, State.unpin, setMount_of_ne _ _ hj, hc] at hd ⊢
        exact hd
    · exact I.nodup.sublist (List.filter_sublist.map _)
    · intro q hq
      obtain ⟨x, hx, rfl⟩ := List.mem_map.mp hq
      exact I.below _ (List.mem_map_of_mem (hsub x hx))
    · rw [World.drop, (hslot i).used, (hslot j).used, (hslot i).mountpoint, (hslot j).mountpoint]
      exact I.distinct i j
    · rw [World.drop, (hslot _).used]
      exact I.mounted x (hsub x hx)
    · rw [World.drop, (hslot j).used, (hslot j).drv]
      exact I.driver j
    · have hc := I.count h.mnt
      simp only [World.drop, State.unpin, I.noUnderflow, Bool.false_or, decide_eq_false_iff_not]
      omega
  | slot i f h0 hc hd =>
    have hmem : ∀ x ∈ w.handles, x.2.mnt ≠ i := by
      rintro x hx rfl
      exact absurd h0 (openOn_pos hx).ne'
    refine ⟨fun j => ?_, I.nodup, I.below, fun j k => ?_, fun x hx => ?_, fun j => ?_, I.noUnderflow⟩
    · by_cases hj : j = i
      · subst hj
        simp only [World.withVfs, setMount_self, hc]
        exact h0.symm
      · simp only [World.withVfs, setMount_of_ne _ _ hj]
        exact I.count j
    · by_cases hj : j = i <;> by_cases hk : k = i <;>
        simp only [World.withVfs, hj, hk, setMount_self, setMount_of_ne, ne_eq, not_false_eq_true]
      · simp
      · exact fun hu hu' heq => absurd heq.symm ((hd hu).2 k hk hu')
      · exact fun hu hu' heq => absurd heq ((hd hu').2 j hj hu)
      · exact I.distinct j k
    · simp only [World.withVfs, setMount_of_ne _ _ (hmem x hx)]
      exact I.mounted x hx
    · by_cases hj : j = i
      · subst hj
        simp only [World.withVfs, setMount_self]
        exact fun hu => (hd hu).1
      · simp only [World.withVfs, setMount_of_ne _ _ hj]
        exact I.driver j

/-- A move leaves a mount with handles in place. -/
theorem Move.same (h : Move w w') (hpos : 0 < w.openOn i) :
    SameMount (w.vfs.mounts i) (w'.vfs.mounts i) := by
  cases h with
  | keep s hm _ =>
    rw [World.withVfs, hm]
    exact ⟨rfl, rfl, rfl, rfl⟩
  | take _ h _ _ _ => exact pin_same w.vfs h.mnt i
  | drop _ h _ => exact unpin_same w.vfs h.mnt i
  | slot j f h0 _ _ =>
    have hne : i ≠ j := by
      rintro rfl
      omega
    rw [World.withVfs, setMount_of_ne _ _ hne]
    exact ⟨rfl, rfl, rfl, rfl⟩

/-! ## Every run -/

/-- After `init_vfs` there is nothing to count. -/
theorem inv_init : Inv ⟨initVfs, []⟩ := by
  refine ⟨fun _ => rfl, List.nodup_nil, ?_, ?_, ?_, ?_, rfl⟩ <;> simp [initVfs, emptyMount]

/-- The invariant holds after any calls. -/
theorem inv_reachable (h : vfs.Reachable w) : Inv w := by
  refine h.invariant ?_ ?_
  · rintro _ rfl
    exact inv_init
  · rintro w ⟨c, a⟩ _ - I ⟨hv, o, ho, rfl⟩
    obtain ⟨r, hr, hm, -⟩ := call_ends I hv
    rw [hr] at ho
    cases ho
    exact hm.inv I

/-- `vfs_unmount` of a point that is mounted. -/
theorem unmount_mounted (I : Inv w) {mountpoint : Str}
    (hn : normalize mountpoint pathMax = some norm) (hu : (w.vfs.mounts i).used = true)
    (hm : (w.vfs.mounts i).mountpoint = norm) :
    (0 < w.openOn i → w.unmount a mountpoint = some ⟨errBusy, w, []⟩) ∧
      (w.openOn i = 0 → ∀ d, (w.vfs.mounts i).drv = some d → d.has .unmount = true →
        ∃ r, w.unmount a mountpoint = some r ∧
          r.calls = [⟨i, .op .unmount, (w.vfs.mounts i).priv⟩]) := by
  have hfind : w.vfs.findMount norm = some i := by
    rcases h : w.vfs.findMount norm with _ | j
    · exact absurd hm (findMount_eq_none h hu)
    · obtain ⟨hju, hjm⟩ := findMount_eq_some h
      rw [I.distinct j i hju hu (hjm.trans hm.symm)]
  have hc := I.count i
  refine ⟨fun hpos => ?_, fun h0 d hd hop => ?_⟩
  · have : 0 < (w.vfs.mounts i).openCount := hc ▸ hpos
    simp only [World.unmount, hn, State.detach, hfind, this, if_true, World.fail]
  · have : ¬ 0 < (w.vfs.mounts i).openCount := by omega
    simp only [World.unmount, hn, State.detach, hfind, this, if_false, setMount_self, hd, hop, if_true]
    split <;> exact ⟨_, rfl, rfl⟩

/-- **Handle accounting.** After any sequence of calls, whatever the drivers
and `kmalloc` answered: every `open_count` is the number of handles open on
its slot and none has underflowed; the mountpoints in use are pairwise
different; `vfs_unmount` of a mounted point is refused without a callback
while there are handles on it, and otherwise calls the driver; and no call
faults, calls a driver's `unmount` for a slot with handles, or changes the
mount of one. -/
theorem open_count_eq_handles (h : vfs.Reachable w) :
    (∀ i, (w.vfs.mounts i).openCount = w.handles.countP fun h => h.2.mnt = i) ∧
    w.vfs.underflow = false ∧
    (∀ i j, (w.vfs.mounts i).used = true → (w.vfs.mounts j).used = true →
      (w.vfs.mounts i).mountpoint = (w.vfs.mounts j).mountpoint → i = j) ∧
    (∀ a mountpoint i, (w.vfs.mounts i).used = true →
      normalize mountpoint pathMax = some (w.vfs.mounts i).mountpoint →
      (0 < w.openOn i → w.unmount a mountpoint = some ⟨errBusy, w, []⟩) ∧
      (w.openOn i = 0 → ∀ d, (w.vfs.mounts i).drv = some d → d.has .unmount = true →
        ∃ r, w.unmount a mountpoint = some r ∧
          r.calls = [⟨i, .op .unmount, (w.vfs.mounts i).priv⟩])) ∧
    (∀ c a, Valid w a c → ∃ r, w.call a c = some r ∧ ∀ x ∈ w.handles,
      (∀ d ∈ r.calls, d.callback = .op .unmount → d.slot ≠ x.2.mnt) ∧
        SameMount (w.vfs.mounts x.2.mnt) (r.world.vfs.mounts x.2.mnt)) := by
  have I := inv_reachable h
  refine ⟨I.count, I.noUnderflow, I.distinct, fun a mp i hu hn => unmount_mounted I hn hu rfl,
    fun c a hv => ?_⟩
  obtain ⟨r, hr, hmove, hcalls⟩ := call_ends I hv
  refine ⟨r, hr, fun x hx => ⟨fun d hd hun heq => ?_, hmove.same (openOn_pos hx)⟩⟩
  have := hcalls d hd hun
  rw [heq] at this
  exact absurd this (openOn_pos hx).ne'

/-- A driver with every callback. -/
def plainDriver : Driver := ⟨[102], fun _ => true⟩

/-- The calls that register it, mount it at the root and open a file. -/
def openRun : List (Call × Answers) :=
  [(.register plainDriver, ⟨none, 0, none, false⟩),
    (.mount [102] [slash] [], ⟨none, 0, some 4096, false⟩),
    (.open [slash, 97] 0, ⟨some 8192, 0, none, false⟩)]

/-- The world after some calls. -/
def afterCalls (w : World) (l : List (Call × Answers)) : Option World :=
  System.run (fun w x => (w.call x.2 x.1).map Outcome.world) w l

/-- After the three calls one handle is open on slot 0 and counted there. -/
theorem open_count_after_open :
    ∃ w, afterCalls ⟨initVfs, []⟩ openRun = some w ∧ w.handles.length = 1 ∧
      (w.vfs.mounts 0).openCount = 1 := by
  let w₁ := (World.mk initVfs []).register plainDriver |>.world
  let w₂ := (w₁.mount ⟨none, 0, some 4096, false⟩ [102] [slash] []).world
  have h0 : vfs.Reachable ⟨initVfs, []⟩ := .init rfl
  have h1 : vfs.Reachable w₁ :=
    h0.step (i := (.register plainDriver, ⟨none, 0, none, false⟩))
      ⟨⟨by simp [Call.handle?], by simp⟩, _, rfl, rfl⟩
  have h2 : vfs.Reachable w₂ :=
    h1.step (i := (.mount [102] [slash] [], ⟨none, 0, some 4096, false⟩))
      ⟨⟨by simp [Call.handle?], by simp⟩, _, rfl, rfl⟩
  obtain ⟨o, ho⟩ : ∃ o, w₂.call ⟨some 8192, 0, none, false⟩ (.open [slash, 97] 0) = some o :=
    ⟨_, rfl⟩
  have h3 : vfs.Reachable o.world :=
    h2.step (i := (.open [slash, 97] 0, ⟨some 8192, 0, none, false⟩))
      ⟨⟨by simp [Call.handle?], by decide⟩, o, ho, rfl⟩
  cases ho
  refine ⟨_, rfl, rfl, ?_⟩
  rw [(open_count_eq_handles h3).1 0]
  rfl

end Vfs

end Csos

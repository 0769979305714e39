import Csos.Ata.TaskFile
/-!
# What the ATA driver asks for

A request is rejected before a port is written to, or its log decodes to
consecutive transfers from its first sector on. The task file is followed
through one command (`seen_chunk`), and the commands through the loop of a
request (`seen_chunkLoop`); `Served` says what the transfers are.
-/

namespace Csos

namespace Ata

/-- The transfers `xs` **serve** a request for `sectors` sectors from `lba` on
and the memory at `buf`, which ended with `rc`. -/
structure Served (d : PioDrive) (write : Bool) (lba sectors buf : ℕ) (rc : ℤ) (xs : List Xfer) :
    Prop where
  form : ∀ x ∈ xs, x.write = write ∧ x.unit = d.slave.val ∧ 1 ≤ x.count ∧ x.count ≤ 256
  ext : ∀ x ∈ xs, x.ext = true → d.lba48 = true
  low : ∀ x ∈ xs, x.ext = false → x.lba + x.count ≤ 2 ^ 28
  ranges : xs.flatMap Xfer.range <+: List.range' lba sectors
  parts : ∀ x ∈ xs, x.parts <+: x.range.map fun s => buf + (s - lba) * sectorSize
  earlier : ∀ x ∈ xs.dropLast, x.parts.length = x.count
  whole : rc = 0 → xs.flatMap Xfer.range = List.range' lba sectors ∧
    ∀ x ∈ xs, x.parts.length = x.count

/-- The command byte of a direction and a form. -/
def cmdByte : Bool → Bool → ℕ
  | false, false => cmdReadPio
  | false, true => cmdReadPioExt
  | true, false => cmdWritePio
  | true, true => cmdWritePioExt

/-- The transfer of one sector in a direction. -/
def moveOp : Bool → ℕ → ℕ → ℕ → PortOp
  | false => .insw
  | true => .outsw

/-- What the drive has made of the log. -/
def seen (io : ℕ) (v : Drive) (b : Bus) : Drive := Drive.run io v b.log

variable {d : PioDrive} {v : Drive} {b : Bus} {w : Bool} {x : Xfer} {xs : List Xfer} {rc : ℤ}
  {io lba n buf sectors : ℕ}

/-! ## The log -/

theorem seen_push (op : PortOp) : seen io v (b.push op) = (seen io v b).step io op :=
  Drive.run_append io v b.log [op]

theorem seen_outb (port byte : ℕ) :
    seen io v (outb port byte b) = (seen io v b).step io (.outb port (byte % 2 ^ 8)) := seen_push _

@[simp] theorem seen_delay (ctrl : ℕ) : seen io v (pioDelay400ns ctrl b) = seen io v b := rfl

/-- Waiting writes to no port. -/
theorem waitNotBusyLoop_log (i : ℕ) : (waitNotBusyLoop io i b).2.log = b.log := by
  induction i generalizing b with
  | zero => rfl
  | succ i ih =>
    rw [waitNotBusyLoop]
    split
    · rfl
    · exact ih

theorem waitDrqLoop_log (i : ℕ) : (waitDrqLoop io i b).2.log = b.log := by
  induction i generalizing b with
  | zero => rfl
  | succ i ih =>
    have hi : (waitDrqLoop io i (inb b (regStatus io)).2).2.log = b.log := ih
    rw [waitDrqLoop]
    split_ifs <;> first | rfl | exact hi

@[simp] theorem seen_waitNotBusy : seen io v (pioWaitNotBusy io b).2 = seen io v b := by
  rw [seen, pioWaitNotBusy, waitNotBusyLoop_log]
  rfl

@[simp] theorem seen_waitDrq : seen io v (pioWaitDrq io b).2 = seen io v b := by
  rw [seen, pioWaitDrq, waitDrqLoop_log]
  rfl

/-! ## The registers -/

/-- The four bits of the drive register that hold a part of the address. -/
theorem drive28 (s : Fin 2) {q : ℕ} (hq : q < 16) :
    (0xe0 ||| (s.val <<< 4) ||| (q &&& 0x0f)) % 2 ^ 8 = 0xe0 + s.val * 16 + q := by
  have h : ∀ s : Fin 2, ∀ q : Fin 16,
      (0xe0 ||| (s.val <<< 4) ||| (q.val &&& 0x0f)) % 2 ^ 8 = 0xe0 + s.val * 16 + q.val := by decide
  exact h s ⟨q, hq⟩

theorem drive48 (s : Fin 2) : (0x40 ||| (s.val <<< 4)) % 2 ^ 8 = 0x40 + s.val * 16 := by
  have h : ∀ s : Fin 2, (0x40 ||| (s.val <<< 4)) % 2 ^ 8 = 0x40 + s.val * 16 := by decide
  exact h s

/-- The registers are loaded for a command in the form `ext`. -/
structure Loaded (u u' : Drive) (ext : Bool) (unit lba n : ℕ) : Prop where
  past : u'.past = u.past
  now : u'.now = u.now
  lba : (if ext then u'.regs.lba48 else u'.regs.lba28) = lba
  count : (if ext then u'.regs.count48 else u'.regs.count28) = n
  mode : u'.regs.drive / 2 ^ 6 % 2 = 1
  unit : u'.regs.drive / 2 ^ 4 % 2 = unit

/-- The registers that a 28-bit command is issued with. -/
theorem loaded28 (hn : 1 ≤ n) (hn' : n ≤ 256) (hlba : lba < 2 ^ 28) :
    Loaded (seen d.io v b) (seen d.io v (setTaskFile28 d lba n b)) false d.slave.val lba n := by
  have hs := d.slave.isLt
  have hq : lba >>> 24 < 16 := by
    rw [Nat.shiftRight_eq_div_pow]
    omega
  simp only [setTaskFile28, seen_outb, Drive.step_count, Drive.step_lbaLo, Drive.step_lbaMid,
    Drive.step_lbaHi, Drive.step_drive, Drive.step_feat, drive28 d.slave hq]
  refine ⟨rfl, rfl, ?_, ?_, ?_, ?_⟩
  · simp only [TaskFile.lba28, Deep.write, Nat.shiftRight_eq_div_pow, Bool.false_eq_true, if_false]
    omega
  · simp only [TaskFile.count28, Deep.write, Bool.false_eq_true, if_false]
    split_ifs <;> omega
  · dsimp only
    rw [Nat.shiftRight_eq_div_pow] at hq ⊢
    omega
  · dsimp only
    rw [Nat.shiftRight_eq_div_pow] at hq ⊢
    omega

/-- The registers that a 48-bit command is issued with: what is written first
has moved on. -/
theorem loaded48 (hn : 1 ≤ n) (hn' : n ≤ 256) (hlba : lba < 2 ^ 48) :
    Loaded (seen d.io v b) (seen d.io v (setTaskFile48 d lba n b)) true d.slave.val lba n := by
  have hs := d.slave.isLt
  simp only [setTaskFile48, seen_outb, seen_delay, Drive.step_count, Drive.step_lbaLo,
    Drive.step_lbaMid, Drive.step_lbaHi, Drive.step_drive, Drive.step_feat, drive48]
  refine ⟨rfl, rfl, ?_, ?_, ?_, ?_⟩
  · simp only [TaskFile.lba48, Deep.write, Nat.shiftRight_eq_div_pow, if_true]
    omega
  · simp only [TaskFile.count48, Deep.write, Nat.shiftRight_eq_div_pow, if_true]
    split_ifs <;> omega
  · dsimp only
    omega
  · dsimp only
    omega

/-- The command byte of a direction and a form issues a transfer of them. -/
theorem TaskFile.issue_cmdByte (t : TaskFile) (w e : Bool) (h : t.drive / 2 ^ 6 % 2 = 1) :
    t.issue (cmdByte w e % 2 ^ 8) = some ⟨w, e, t.drive / 2 ^ 4 % 2,
      if e then t.lba48 else t.lba28, if e then t.count48 else t.count28, []⟩ := by
  unfold TaskFile.issue
  rw [if_neg (by omega)]
  cases w <;> cases e <;> rfl

/-! ## One command -/

/-- A transfer after its next sectors have been moved. -/
def Xfer.moved (x : Xfer) (l : List ℕ) : Xfer := { x with parts := x.parts ++ l }

/-- A drive with a transfer going on. -/
def Drive.during (u : Drive) (x : Xfer) : Drive := { u with now := some x }

/-- A block moved in the direction of the transfer is its next sector. -/
theorem Drive.step_move {u : Drive} (hx : u.now = some x) (hw : x.write = w) (addr : ℕ) :
    u.step io (moveOp w (regData io) addr (sectorSize / 2)) = u.during (x.moved [addr]) := by
  have hwords : sectorSize / 2 = 256 := rfl
  cases w <;> simp [Drive.step, moveOp, Drive.move, Drive.during, Xfer.moved, hx, hw, hwords]

/-- The loop over the sectors of a command moves some of them, in order, and all
if it succeeds. -/
theorem seen_moveSectors (hx : (seen io v b).now = some x) (hw : x.write = w) (n p : ℕ) :
    ∃ k ≤ n, seen io v (moveSectors (moveOp w) io n p b).2 =
        (seen io v b).during (x.moved ((List.range k).map fun i => p + i * sectorSize)) ∧
      ((moveSectors (moveOp w) io n p b).1 = 0 → k = n) := by
  have hnone : seen io v b = (seen io v b).during (x.moved ((List.range 0).map fun i => p + i * sectorSize)) := by
    rw [Drive.during, Xfer.moved, List.range_zero, List.map_nil, List.append_nil, ← hx]
  induction n generalizing p b x with
  | zero => exact ⟨0, le_rfl, hnone, fun _ => rfl⟩
  | succ n ih =>
    rw [moveSectors]
    by_cases hrc : (pioWaitDrq io b).1 ≠ 0
    · -- the sector is not offered
      rw [if_pos hrc, seen_waitDrq]
      exact ⟨0, Nat.zero_le _, hnone, fun h => absurd h hrc⟩
    · rw [if_neg hrc]
      have hstep : seen io v ((pioWaitDrq io b).2.push (moveOp w (regData io) p (sectorSize / 2))) =
          (seen io v b).during (x.moved [p]) := by
        rw [seen_push, seen_waitDrq, Drive.step_move hx hw]
      obtain ⟨k, hk, hseen, hall⟩ := ih (x := x.moved [p]) (by rw [hstep]; rfl) hw (p + sectorSize)
        (by rw [hstep]; simp [Drive.during, Xfer.moved])
      refine ⟨k + 1, Nat.succ_le_succ hk, ?_, fun h => congrArg (· + 1) (hall h)⟩
      rw [hseen, hstep, List.range_succ_eq_map]
      have hshift : ∀ i, p + sectorSize + i * sectorSize = p + (i + 1) * sectorSize := fun i => by ring
      simp [Drive.during, Xfer.moved, Function.comp_def, hshift]

/-- **A command** that is issued is a transfer of its sectors, of which some have
been moved. -/
theorem seen_chunk (hn : 1 ≤ n) (hn' : n ≤ 256) (hlba : lba + n < 2 ^ 48)
    (hform : d.lba48 = false → lba + n ≤ 0x0fffffff) {r : ℤ × Bus}
    (hr : r = pioChunk (cmdByte w false) (cmdByte w true) (moveOp w) d lba n buf b) :
    (r.1 ≠ 0 ∧ seen d.io v r.2 = seen d.io v b) ∨
      ∃ ext k, k ≤ n ∧ (r.1 = 0 → k = n) ∧ (ext = true → d.lba48 = true) ∧
        (ext = false → lba + n ≤ 2 ^ 28) ∧
        (seen d.io v r.2).xfers = (seen d.io v b).xfers ++
          [⟨w, ext, d.slave.val, lba, n, (List.range k).map fun i => buf + i * sectorSize⟩] := by
  subst hr
  have hmod : (lba + n) % 2 ^ 64 = lba + n := Nat.mod_eq_of_lt (by omega)
  -- the sectors of a command in the form `ext`, its registers being loaded
  have hissue : ∀ (ext : Bool) (b' : Bus),
      Loaded (seen d.io v b) (seen d.io v b') ext d.slave.val lba n →
      ∃ k ≤ n, ((moveSectors (moveOp w) d.io n buf (outb (regCmd d.io) (cmdByte w ext) b')).1 = 0 →
          k = n) ∧
        (seen d.io v (moveSectors (moveOp w) d.io n buf
            (outb (regCmd d.io) (cmdByte w ext) b')).2).xfers = (seen d.io v b).xfers ++
          [⟨w, ext, d.slave.val, lba, n, (List.range k).map fun i => buf + i * sectorSize⟩] := by
    intro ext b' hl
    have hcmd : seen d.io v (outb (regCmd d.io) (cmdByte w ext) b') =
        { regs := (seen d.io v b').regs, past := (seen d.io v b).xfers,
          now := some ⟨w, ext, d.slave.val, lba, n, []⟩ } := by
      rw [seen_outb, Drive.step_cmd, TaskFile.issue_cmdByte _ _ _ hl.mode, hl.unit, hl.lba, hl.count,
        hl.past, hl.now]
      rfl
    obtain ⟨k, hk, hseen, hall⟩ :=
      seen_moveSectors (x := ⟨w, ext, d.slave.val, lba, n, []⟩) (by rw [hcmd]) rfl n buf
    refine ⟨k, hk, hall, ?_⟩
    rw [hseen, hcmd]
    rfl
  have hwait : seen d.io v (pioWaitNotBusy d.io b).2 = seen d.io v b := seen_waitNotBusy
  unfold pioChunk
  by_cases hbusy : (pioWaitNotBusy d.io b).1 ≠ 0
  · rw [if_pos hbusy]
    exact .inl ⟨hbusy, hwait⟩
  rw [if_neg hbusy]
  by_cases h48 : use48 d lba n = true
  · rw [if_pos h48]
    have hl := loaded48 (v := v) (b := (pioWaitNotBusy d.io b).2) (d := d) hn hn' (by omega : lba < 2 ^ 48)
    rw [hwait] at hl
    obtain ⟨k, hk, hall, hseen⟩ := hissue true _ hl
    refine .inr ⟨true, k, hk, hall, fun _ => ?_, by simp, hseen⟩
    exact (of_decide_eq_true h48).1
  · rw [if_neg h48]
    have hlow : lba + n ≤ 0x0fffffff := by
      rw [use48, hmod] at h48
      by_cases hd : d.lba48 = false
      · exact hform hd
      · simpa [Bool.not_eq_false .. ▸ hd] using h48
    have hl := loaded28 (v := v) (b := (pioWaitNotBusy d.io b).2) (d := d) hn hn' (by omega : lba < 2 ^ 28)
    rw [hwait] at hl
    obtain ⟨k, hk, hall, hseen⟩ := hissue false _ hl
    exact .inr ⟨false, k, hk, hall, by simp, fun _ => by omega, hseen⟩

/-! ## A request -/

/-- Nothing has been asked for yet. -/
theorem Served.nil (h : rc = 0 → sectors = 0) : Served d w lba sectors buf rc [] where
  form := by simp
  ext := by simp
  low := by simp
  ranges := List.nil_prefix
  parts := by simp
  earlier := by simp
  whole hrc := by simp [h hrc]

/-- The sectors of a request are those of its first command and the rest. -/
theorem range'_split (h : n ≤ sectors) :
    List.range' lba sectors = List.range' lba n ++ List.range' (lba + n) (sectors - n) := by
  rw [List.range'_append_1, Nat.add_sub_cancel' h]

/-- Where the sectors of a command are in memory. -/
theorem range_places (hlba : x.lba = lba) :
    (x.range.map fun s => buf + (s - lba) * sectorSize) =
      (List.range x.count).map fun i => buf + i * sectorSize := by
  rw [Xfer.range, hlba, List.range'_eq_map_range, List.map_map]
  refine List.map_congr_left fun i _ => ?_
  simp

/-- The first command of a request, with the first `k` of its sectors moved. -/
structure First (d : PioDrive) (w : Bool) (lba sectors buf k : ℕ) (x : Xfer) : Prop where
  form : x.write = w ∧ x.unit = d.slave.val ∧ 1 ≤ x.count ∧ x.count ≤ 256
  ext : x.ext = true → d.lba48 = true
  low : x.ext = false → x.lba + x.count ≤ 2 ^ 28
  lba : x.lba = lba
  count : x.count ≤ sectors
  moved : k ≤ x.count
  parts : x.parts = (List.range k).map fun i => buf + i * sectorSize

theorem First.places {k : ℕ} (hx : First d w lba sectors buf k x) :
    x.parts <+: x.range.map fun s => buf + (s - lba) * sectorSize := by
  rw [range_places hx.lba, hx.parts, ← Nat.add_sub_cancel' hx.moved, List.range_add, List.map_append]
  exact List.prefix_append _ _

/-- A command that fails is the last. -/
theorem Served.last {k : ℕ} (hx : First d w lba sectors buf k x) (hrc : rc ≠ 0) :
    Served d w lba sectors buf rc [x] where
  form := by simpa using hx.form
  ext := by simpa using hx.ext
  low := by simpa using hx.low
  ranges := by
    rw [List.flatMap_singleton, Xfer.range, hx.lba, range'_split hx.count]
    exact List.prefix_append _ _
  parts := by
    rintro y hy
    obtain rfl := List.mem_singleton.mp hy
    exact hx.places
  earlier := by simp
  whole h := absurd h hrc

/-- **A command that succeeds** serves the first sectors, and the commands after
it the rest. -/
theorem Served.cons (hx : First d w lba sectors buf x.count x)
    (hxs : Served d w (lba + x.count) (sectors - x.count) (buf + x.count * sectorSize) rc xs) :
    Served d w lba sectors buf rc (x :: xs) where
  form := List.forall_mem_cons.mpr ⟨hx.form, hxs.form⟩
  ext := List.forall_mem_cons.mpr ⟨hx.ext, hxs.ext⟩
  low := List.forall_mem_cons.mpr ⟨hx.low, hxs.low⟩
  ranges := by
    rw [List.flatMap_cons, Xfer.range, hx.lba, range'_split hx.count]
    exact (List.prefix_append_right_inj _).mpr hxs.ranges
  parts := by
    refine List.forall_mem_cons.mpr ⟨hx.places, fun y hy => ?_⟩
    have hplaces : (y.range.map fun s => buf + x.count * sectorSize + (s - (lba + x.count)) * sectorSize) =
        y.range.map fun s => buf + (s - lba) * sectorSize := by
      refine List.map_congr_left fun s hs => ?_
      -- the sectors of the rest lie behind those of the first command
      have hmem := hxs.ranges.subset (List.mem_flatMap.mpr ⟨y, hy, hs⟩)
      have hle : lba + x.count ≤ s := (List.mem_range'_1.mp hmem).1
      obtain ⟨j, rfl⟩ := Nat.exists_eq_add_of_le hle
      rw [Nat.add_sub_cancel_left, Nat.add_assoc lba, Nat.add_sub_cancel_left]
      ring
    rw [← hplaces]
    exact hxs.parts y hy
  earlier := by
    intro y hy
    cases xs with
    | nil => simp at hy
    | cons z zs =>
      rw [List.dropLast_cons_of_ne_nil (List.cons_ne_nil z zs)] at hy
      rcases List.mem_cons.mp hy with rfl | hy
      · rw [hx.parts, List.length_map, List.length_range]
      · exact hxs.earlier y hy
  whole hrc := by
    obtain ⟨hranges, hparts⟩ := hxs.whole hrc
    refine ⟨?_, List.forall_mem_cons.mpr ⟨?_, hparts⟩⟩
    · rw [List.flatMap_cons, hranges, Xfer.range, hx.lba, ← range'_split hx.count]
    · rw [hx.parts, List.length_map, List.length_range]

/-- **The loop of a request.** -/
theorem seen_chunkLoop {fuel : ℕ} (hfuel : sectors ≤ fuel) (hlba : lba + sectors < 2 ^ 48)
    (hform : d.lba48 = false → lba + sectors ≤ 0x0fffffff) {r : ℤ × Bus}
    (hr : r = chunkLoop (pioChunk (cmdByte w false) (cmdByte w true) (moveOp w) d) fuel lba buf sectors b) :
    ∃ xs, (seen d.io v r.2).xfers = (seen d.io v b).xfers ++ xs ∧
      Served d w lba sectors buf r.1 xs := by
  induction fuel generalizing lba buf sectors b r with
  | zero =>
    subst hr
    exact ⟨[], (List.append_nil _).symm, .nil fun _ => Nat.le_zero.mp hfuel⟩
  | succ fuel ih =>
    rw [chunkLoop] at hr
    by_cases hpos : 0 < sectors
    case neg =>
      rw [if_neg hpos] at hr
      subst hr
      exact ⟨[], (List.append_nil _).symm, .nil fun _ => by omega⟩
    rw [if_pos hpos] at hr
    generalize hn : (if clampMaxSectors < sectors then clampMaxSectors else sectors) = n at hr
    have hclamp : 1 ≤ n ∧ n ≤ 256 ∧ n ≤ sectors := by
      rw [← hn]
      unfold clampMaxSectors
      split_ifs <;> omega
    obtain ⟨hn1, hn256, hle⟩ := hclamp
    have hmod : (lba + n) % 2 ^ 64 = lba + n := Nat.mod_eq_of_lt (by omega)
    rcases seen_chunk (v := v) (b := b) hn1 hn256 (by omega)
      (fun hd => (by omega : lba + n ≤ lba + sectors).trans (hform hd)) rfl with
      ⟨hrc, hsame⟩ | ⟨ext, k, hk, hall, hext, hlow, hseen⟩
    · -- the drive is busy
      rw [if_pos hrc] at hr
      subst hr
      exact ⟨[], by rw [hsame, List.append_nil], .nil fun h => absurd h hrc⟩
    have hfirst : First d w lba sectors buf k ⟨w, ext, d.slave.val, lba, n,
        (List.range k).map fun i => buf + i * sectorSize⟩ :=
      ⟨⟨rfl, rfl, hn1, hn256⟩, hext, hlow, rfl, hle, hk, rfl⟩
    by_cases hrc : (pioChunk (cmdByte w false) (cmdByte w true) (moveOp w) d lba n buf b).1 ≠ 0
    · rw [if_pos hrc] at hr
      subst hr
      exact ⟨_, hseen, .last hfirst hrc⟩
    · rw [if_neg hrc, hmod] at hr
      obtain rfl := hall (not_not.mp hrc)
      obtain ⟨xs, hxs, hserved⟩ := ih (by omega) (by omega)
        (fun hd => (by omega : lba + k + (sectors - k) ≤ lba + sectors).trans (hform hd)) hr
      refine ⟨_ :: xs, ?_, Served.cons (x := ⟨w, ext, d.slave.val, lba, k, _⟩) hfirst hserved⟩
      rw [hxs, hseen, List.append_assoc]
      rfl

/-- A request that is let through lies inside the drive, and below the last
sector of 28 bits if the drive knows no more. -/
theorem pioCheck_eq_zero {s : Pio} {drive : ℕ} (h : pioCheck s drive lba sectors buf = 0) :
    lba + sectors ≤ (s.drives drive).sectors ∧
      ((s.drives drive).lba48 = false → (lba + sectors) % 2 ^ 64 ≤ 0x0fffffff) := by
  unfold pioCheck at h
  by_cases h1 : sectors = 0 ∨ buf = 0
  · rw [if_pos h1] at h
    exact absurd h (by decide)
  by_cases h2 : maxDrives ≤ drive
  · rw [if_neg h1, if_pos h2] at h
    exact absurd h (by decide)
  by_cases h3 : s.ready = false ∨ (s.drives drive).present = false ∨ (s.drives drive).atapi = true
  · rw [if_neg h1, if_neg h2, if_pos h3] at h
    exact absurd h (by decide)
  by_cases h4 : (s.drives drive).sectors ≤ lba ∨ (s.drives drive).sectors - lba < sectors
  · rw [if_neg h1, if_neg h2, if_neg h3, if_pos h4] at h
    exact absurd h (by decide)
  by_cases h5 : (s.drives drive).lba48 = false ∧ 0x0fffffff < (lba + sectors) % 2 ^ 64
  · rw [if_neg h1, if_neg h2, if_neg h3, if_neg h4, if_pos h5] at h
    exact absurd h (by decide)
  exact ⟨by omega, fun hd => not_lt.mp fun hlt => h5 ⟨hd, hlt⟩⟩

/-- Flushing the drive is no transfer. -/
theorem seen_flush : (seen d.io v (pioFlushDrive d b).2).xfers = (seen d.io v b).xfers := by
  have hwait : seen d.io v (pioWaitNotBusy d.io b).2 = seen d.io v b := seen_waitNotBusy
  unfold pioFlushDrive
  by_cases hbusy : (pioWaitNotBusy d.io b).1 ≠ 0
  · rw [if_pos hbusy, hwait]
  · have hmode : ∀ s : Fin 2, (0xa0 ||| (s.val <<< 4)) % 2 ^ 8 / 2 ^ 6 % 2 = 0 := by decide
    rw [if_neg hbusy, seen_waitNotBusy, seen_outb, Drive.step_cmd, seen_delay, seen_outb,
      Drive.step_drive, hwait, TaskFile.issue, if_pos (hmode d.slave)]
    exact List.append_nil _

theorem Served.mono {rc' : ℤ} (h : Served d w lba sectors buf rc xs) (hrc : rc' = 0 → rc = 0) :
    Served d w lba sectors buf rc' xs :=
  { h with whole := fun h0 => h.whole (hrc h0) }

/-- The ports before a request: nothing is in the log yet. -/
def Bus.quiet (answer : ℕ → ℕ) (reads : ℕ) : Bus := ⟨answer, reads, []⟩

/-- A request that ended as `r` was **addressed**: it was rejected before a port
was written to, or it lies inside the drive and its commands, as the drive reads
them whatever the task file `t` held before, serve it. -/
def Addressed (d : PioDrive) (write : Bool) (lba sectors buf : ℕ) (t : TaskFile) (r : ℤ × Bus) : Prop :=
  r.1 ≠ 0 ∧ r.2.log = [] ∨
    lba + sectors ≤ d.sectors ∧ Served d write lba sectors buf r.1 (decode d.io t r.2.log)

/-- **ATA commands address exactly the sectors of the request**, whatever the
device answers. -/
theorem requests_addressed (s : Pio) (drive lba sectors buf : ℕ) (answer : ℕ → ℕ) (reads : ℕ)
    (t : TaskFile) (hcap : (s.drives drive).sectors < 2 ^ 48) :
    Addressed (s.drives drive) false lba sectors buf t
        (pioReadSectors s drive lba sectors buf (.quiet answer reads)) ∧
      Addressed (s.drives drive) true lba sectors buf t
        (pioWriteSectors s drive lba sectors buf (.quiet answer reads)) := by
  by_cases hcheck : pioCheck s drive lba sectors buf ≠ 0
  · -- rejected
    rw [pioReadSectors, if_pos hcheck, pioWriteSectors, if_pos hcheck]
    exact ⟨.inl ⟨hcheck, rfl⟩, .inl ⟨hcheck, rfl⟩⟩
  obtain ⟨hin, hlow⟩ := pioCheck_eq_zero (not_not.mp hcheck)
  rw [Nat.mod_eq_of_lt (by omega)] at hlow
  rw [pioReadSectors, if_neg hcheck, pioWriteSectors, if_neg hcheck]
  refine ⟨.inr ⟨hin, ?_⟩, .inr ⟨hin, ?_⟩⟩
  · obtain ⟨xs, hxs, hserved⟩ := seen_chunkLoop (w := false) (v := ⟨t, [], none⟩)
      (b := .quiet answer reads) le_rfl (by omega) hlow rfl
    rw [decode]
    exact hxs ▸ hserved
  · obtain ⟨xs, hxs, hserved⟩ := seen_chunkLoop (w := true) (v := ⟨t, [], none⟩)
      (b := .quiet answer reads) le_rfl (by omega) hlow rfl
    dsimp only
    split_ifs with hrc
    · rw [decode]
      exact (seen_flush.trans hxs) ▸ hserved.mono fun _ => hrc
    · rw [decode]
      exact hxs ▸ hserved

/-- A drive of `2 ^ 40` sectors. -/
def largeDrive : PioDrive := ⟨true, false, true, 2 ^ 40, 0x1f0, 0x3f6, 0⟩

/-- Two sectors at the end of what 28 bits reach, from a device that is always
ready. -/
theorem requests_addressed_large :
    (pioReadSectors ⟨true, fun _ => largeDrive⟩ 0 0x0ffffffe 2 0x1000 (.quiet (fun _ => 0x08) 0)).1 = 0 ∧
      decode 0x1f0 ⟨⟨0, 0⟩, ⟨0, 0⟩, ⟨0, 0⟩, ⟨0, 0⟩, 0⟩
          (pioReadSectors ⟨true, fun _ => largeDrive⟩ 0 0x0ffffffe 2 0x1000
            (.quiet (fun _ => 0x08) 0)).2.log =
        [⟨false, true, 0, 0x0ffffffe, 2, [0x1000, 0x1200]⟩] ∧
      Addressed largeDrive false 0x0ffffffe 2 0x1000 ⟨⟨0, 0⟩, ⟨0, 0⟩, ⟨0, 0⟩, ⟨0, 0⟩, 0⟩
        (pioReadSectors ⟨true, fun _ => largeDrive⟩ 0 0x0ffffffe 2 0x1000
          (.quiet (fun _ => 0x08) 0)) := by
  refine ⟨by decide +kernel, by decide +kernel, ?_⟩
  exact (requests_addressed ⟨true, fun _ => largeDrive⟩ 0 0x0ffffffe 2 0x1000 (fun _ => 0x08) 0 _
    (by decide)).1

end Ata

end Csos

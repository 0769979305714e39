import Csos.Config.Spec
/-!
# Boot configuration — the parser and its grammar

Each function of the parser is given by what it does to the settings that
`g_boot_config` shows: `BootConfig.visible` cuts a field at its first zero and
counts the first `mount_count` slots only, so what a rejected `mount` line
leaves in the next slot is not part of it.
-/

namespace Csos

namespace Config

open Vfs Checked Buf

/-- The string that a field shows. -/
def shown (b : Buf) : Str := (slice b.bytes 0 b.len).takeWhile (· ≠ 0)

/-- The mount that a slot shows. -/
def Slot.visible (m : Slot) : MountEntry := ⟨shown m.dev, shown m.mountpoint, shown m.fstype⟩

/-- **What `g_boot_config` shows.** -/
def BootConfig.visible (g : BootConfig) : Settings where
  pmm := shown g.pmm
  disk := shown g.disk
  root := shown g.root
  init := shown g.init
  debug := shown g.debug
  timeout := g.timeout
  mounts := (List.range g.mountCount).map fun i => (g.mounts i).visible

/-- The fields of a slot have their sizes. -/
structure Slot.Ok (m : Slot) : Prop where
  dev : m.dev.len = 32
  mountpoint : m.mountpoint.len = 64
  fstype : m.fstype.len = 16

/-- The fields of `g_boot_config` have their sizes, and the slots suffice. -/
structure BootConfig.Ok (g : BootConfig) : Prop where
  pmm : g.pmm.len = 16
  disk : g.disk.len = 16
  root : g.root.len = 32
  init : g.init.len = 256
  debug : g.debug.len = 16
  mounts : ∀ i, (g.mounts i).Ok
  count : g.mountCount ≤ maxMounts
  timeout : g.timeout ≤ 300

variable {text dst : Buf} {g : BootConfig} {m : Slot} {s p e n v line ls : ℕ} {u : Unit}

/-! ## Fields -/

theorem takeWhile_append_zero (l r : Str) :
    (l ++ 0 :: r).takeWhile (· ≠ 0) = l.takeWhile (· ≠ 0) := by
  induction l with
  | nil => rfl
  | cons c l ih =>
    rw [List.cons_append, List.takeWhile_cons, List.takeWhile_cons, ih]

theorem slice_shift (b : Bytes) (s n : ℕ) : slice (b.shift s) 0 n = slice b s (s + n) := by
  rw [slice, slice, Nat.add_sub_cancel_left, Nat.sub_zero, List.range'_eq_map_range,
    List.range'_eq_map_range, List.map_map, List.map_map]
  refine List.map_congr_left fun i _ => ?_
  simp [Bytes.shift]

/-- A field shows what is before its first zero. -/
theorem shown_of_zero {b : Buf} {k : ℕ} (hk : k < b.len) (hzero : b.bytes k = 0) :
    shown b = (slice b.bytes 0 k).takeWhile (· ≠ 0) := by
  rw [shown, slice_append (Nat.zero_le k) hk.le, slice_cons hk, hzero, takeWhile_append_zero]

/-- **`cfg_copy`** leaves a string of the field. -/
theorem cfgCopy_spec (hd : 0 < dst.len) (h : s + n ≤ text.len) : ∃ b, cfgCopy text dst s n u = .ret (b, u) ∧
    b.len = dst.len ∧ shown b = cstring dst.len (slice text.bytes s (s + n)) := by
  rw [cfgCopy, if_neg (by omega)]
  generalize hk : (if dst.len ≤ n then dst.len - 1 else n) = k
  have hkn : k ≤ n ∧ k < dst.len ∧ (k = dst.len - 1 ∨ k = n) := by
    rw [← hk]
    split <;> omega
  obtain ⟨hle, hlt, hor⟩ := hkn
  rw [bind_of_ret (Buf.copy_apply (by omega) (by omega) u)]
  refine ⟨_, Buf.fill_apply (by dsimp only; omega) u, rfl, ?_⟩
  have htake : (slice text.bytes s (s + n)).take (dst.len - 1) = slice text.bytes s (s + k) := by
    rcases hor with rfl | rfl
    · exact take_slice (by omega)
    · exact List.take_of_length_le (by rw [length_slice]; omega)
  rw [cstring, htake, ← slice_shift]
  refine Eq.trans (shown_of_zero (k := k) ?_ ?_) ?_
  · exact hlt
  · exact Bytes.blit_apply_of_mem (k := 0) (by omega)
  · congr 1
    refine slice_congr fun i _ hi => ?_
    dsimp only
    rw [Bytes.blit_apply_of_notMem (Or.inl hi), Bytes.blit_zero_apply hi]

/-- A field shows the string that it holds. -/
theorem shown_field {size : ℕ} {l : Str} (hl : l.length < size) (h0 : (0 : UInt8) ∉ l) :
    shown (field size l) = l := by
  have hheld : slice (field size l).bytes 0 l.length = l := by
    refine List.ext_getElem (by simp) fun i h1 h2 => ?_
    simp [slice, field, List.getD_eq_getElem?_getD, h2]
  rw [shown_of_zero (show l.length < (field size l).len from hl) (by simp [field]), hheld,
    List.takeWhile_eq_self_iff]
  intro c hc
  have hne : c ≠ 0 := fun h => h0 (h ▸ hc)
  simpa using hne

/-! ## Slots -/

theorem visible_setSlot : (g.setSlot m).visible = g.visible := by
  rw [BootConfig.visible, BootConfig.visible]
  congr 1
  refine List.map_congr_left fun i hi => ?_
  have hne : i ≠ g.mountCount := (List.mem_range.mp hi).ne
  rw [BootConfig.setSlot]
  dsimp only
  rw [Function.update_of_ne hne]

@[simp] theorem slot_setSlot : (g.setSlot m).slot = m := Function.update_self ..

@[simp] theorem mountCount_setSlot : (g.setSlot m).mountCount = g.mountCount := rfl

theorem BootConfig.Ok.setSlot (h : g.Ok) (hm : m.Ok) : (g.setSlot m).Ok := by
  refine { h with mounts := fun i => ?_ }
  by_cases hi : i = g.mountCount
  · subst hi
    rw [BootConfig.setSlot]
    dsimp only
    rw [Function.update_self]
    exact hm
  · rw [BootConfig.setSlot]
    dsimp only
    rw [Function.update_of_ne hi]
    exact h.mounts i

/-- The slot is taken. -/
theorem visible_addMount (h : g.mountCount < maxMounts) :
    ({ g with mountCount := g.mountCount + 1 } : BootConfig).visible =
      g.visible.addMount (some g.slot.visible) := by
  have hlen : g.visible.mounts.length < maxMounts := by
    simpa [BootConfig.visible] using h
  rw [Settings.addMount, if_pos hlen]
  simp [BootConfig.visible, List.range_succ, BootConfig.slot]

/-! ## Mount lines -/

/-- A token is found where `takeToken` has it. -/
theorem token_spec (h : s ≤ e) (he : e ≤ text.len) : ∃ p n, text.scan isWs s e u = .ret (p, u) ∧
    cfgTokLen text p e u = .ret (n, u) ∧ p + n ≤ e ∧
    takeToken (slice text.bytes s e) = (slice text.bytes p (p + n), slice text.bytes (p + n) e) := by
  obtain ⟨p, hp, hblank⟩ := scan_spec (f := isWs) h he u
  obtain ⟨q, hq, htok⟩ := scan_spec (f := isTok) hblank.le he u
  have hqp : p + (q - p) = q := Nat.add_sub_cancel' htok.ge
  refine ⟨p, q - p, hp, ?_, ?_, ?_⟩
  · rw [cfgTokLen, bind_of_ret hq]
    rfl
  · rw [hqp]
    exact htok.le
  · rw [hqp, takeToken, htok.taken, htok.left, hblank.left]

theorem head?_slice_token (h : n ≠ 0) : (slice text.bytes p (p + n)).head? = some (text.bytes p) := by
  rw [slice_cons (by omega)]
  rfl

/-- A copy into a field of `size` bytes. -/
theorem cfgCopy_sized {size : ℕ} (hd : dst.len = size) (h0 : 0 < size) (h : s + n ≤ text.len) :
    ∃ b, cfgCopy text dst s n u = .ret (b, u) ∧ b.len = size ∧
      shown b = cstring size (slice text.bytes s (s + n)) := by
  subst hd
  exact cfgCopy_spec h0 h

theorem addMount_of_full {o : Option MountEntry} (h : maxMounts ≤ g.mountCount) :
    g.visible.addMount o = g.visible := by
  cases o with
  | none => rfl
  | some m =>
    refine if_neg ?_
    simpa [BootConfig.visible] using h

/-- **`cfg_parse_mount`** adds the mount that the arguments give. -/
theorem cfgParseMount_spec (hg : g.Ok) (h : s ≤ e) (he : e ≤ text.len) :
    ∃ g', cfgParseMount text g s e u = .ret (g', u) ∧ g'.Ok ∧
      g'.visible = g.visible.addMount (plainTokens (slice text.bytes s e)) := by
  rw [cfgParseMount]
  by_cases hfull : maxMounts ≤ g.mountCount
  · rw [if_pos hfull]
    exact ⟨g, rfl, hg, (addMount_of_full hfull).symm⟩
  rw [if_neg hfull]
  have hslot : g.slot.Ok := hg.mounts g.mountCount
  obtain ⟨p₁, n₁, hp₁, hn₁, hle₁, ht₁⟩ := token_spec (u := u) h he
  obtain ⟨p₂, n₂, hp₂, hn₂, hle₂, ht₂⟩ := token_spec (u := u) hle₁ he
  obtain ⟨p₃, n₃, hp₃, hn₃, hle₃, ht₃⟩ := token_spec (u := u) hle₂ he
  obtain ⟨p₄, hp₄, hend⟩ := scan_spec (f := isWs) hle₃ he u
  have hplain := plainTokens_of_taken ht₁ ht₂ ht₃
  rw [← hend.left] at hplain
  simp only [ne_eq, slice_eq_nil_iff] at hplain
  -- a line that is rejected leaves what shows
  have hreject : ∀ g' : BootConfig, g'.Ok → g'.visible = g.visible →
      plainTokens (slice text.bytes s e) = none →
      ∃ g'', (pure g' : M BootConfig) u = .ret (g'', u) ∧ g''.Ok ∧
        g''.visible = g.visible.addMount (plainTokens (slice text.bytes s e)) := by
    intro g' hok hvis hnone
    rw [hnone]
    exact ⟨g', rfl, hok, hvis⟩
  rw [bind_of_ret hp₁, bind_of_ret hn₁]
  by_cases h₁ : n₁ = 0
  · rw [if_pos h₁]
    exact hreject g hg rfl (hplain.trans (if_pos (by omega)))
  obtain ⟨dev, hdev, hdevLen, hdevShown⟩ := cfgCopy_sized (u := u) hslot.dev (by omega)
    (show p₁ + n₁ ≤ text.len by omega)
  have hok₁ : (g.setSlot { g.slot with dev := dev }).Ok := hg.setSlot { hslot with dev := hdevLen }
  rw [if_neg h₁]
  rw [bind_of_ret hdev]
  dsimp only
  rw [bind_of_ret hp₂, bind_of_ret hn₂]
  by_cases h₂ : n₂ = 0
  · rw [if_pos h₂]
    exact hreject _ hok₁ visible_setSlot (hplain.trans (if_pos (by omega)))
  rw [if_neg h₂, bind_of_ret (get_apply (show p₂ < text.len by omega) u)]
  by_cases hslash : text.bytes p₂ = slash
  swap
  · rw [if_pos hslash]
    refine hreject _ hok₁ visible_setSlot (hplain.trans (if_pos ?_))
    rw [head?_slice_token h₂, Option.some.injEq]
    simp [hslash]
  obtain ⟨mp, hmp, hmpLen, hmpShown⟩ := cfgCopy_sized (u := u) hslot.mountpoint (by omega)
    (show p₂ + n₂ ≤ text.len by omega)
  have hok₂ : ((g.setSlot { g.slot with dev := dev }).setSlot
      { g.slot with dev := dev, mountpoint := mp }).Ok :=
    hok₁.setSlot { hslot with dev := hdevLen, mountpoint := hmpLen }
  rw [if_neg (not_not.mpr hslash), slot_setSlot, bind_of_ret hmp]
  dsimp only
  rw [bind_of_ret hp₃, bind_of_ret hn₃]
  by_cases h₃ : n₃ = 0
  · rw [if_pos h₃]
    exact hreject _ hok₂ (visible_setSlot.trans visible_setSlot) (hplain.trans (if_pos (by omega)))
  obtain ⟨fs, hfs, hfsLen, hfsShown⟩ := cfgCopy_sized (u := u) hslot.fstype (by omega)
    (show p₃ + n₃ ≤ text.len by omega)
  have hok₃ : (((g.setSlot { g.slot with dev := dev }).setSlot
      { g.slot with dev := dev, mountpoint := mp }).setSlot ⟨dev, mp, fs⟩).Ok :=
    hok₂.setSlot ⟨hdevLen, hmpLen, hfsLen⟩
  rw [if_neg h₃, slot_setSlot, bind_of_ret hfs]
  dsimp only
  rw [bind_of_ret hp₄]
  have hvisible : (((g.setSlot { g.slot with dev := dev }).setSlot
      { g.slot with dev := dev, mountpoint := mp }).setSlot ⟨dev, mp, fs⟩).visible = g.visible :=
    visible_setSlot.trans (visible_setSlot.trans visible_setSlot)
  by_cases h₄ : p₄ = e
  · rw [if_neg (not_not.mpr h₄)]
    refine ⟨_, rfl, { hok₃ with count := ?_ }, ?_⟩
    · dsimp only [mountCount_setSlot]
      omega
    · rw [visible_addMount (by simpa using hfull), hvisible, slot_setSlot, hplain, if_neg]
      · rw [Slot.visible, hdevShown, hmpShown, hfsShown]
      · rw [head?_slice_token h₂, hslash]
        simp
        omega
  · have hle₄ := hend.le
    rw [if_pos h₄]
    exact hreject _ hok₃ hvisible (hplain.trans (if_pos (by omega)))

/-! ## Keys and values -/

theorem strncmpEq_spec {key : Str} (h : p + key.length ≤ text.len) :
    strncmpEq text p key u = .ret (decide (slice text.bytes p (p + key.length) = key), u) := by
  induction key generalizing p with
  | nil =>
    rw [List.length_nil, Nat.add_zero, slice_of_le le_rfl]
    rfl
  | cons c key ih =>
    rw [List.length_cons] at h ⊢
    rw [strncmpEq, bind_of_ret (get_apply (by omega) u), slice_cons (by omega)]
    by_cases hc : text.bytes p = c
    · rw [if_neg (not_not.mpr hc), ih (by omega), hc, show p + (key.length + 1) = p + 1 + key.length by omega]
      simp
    · rw [if_pos hc]
      simp [hc]

theorem keyIs_spec {key : Str} (h : s + n ≤ text.len) :
    keyIs text s n key u = .ret (decide (slice text.bytes s (s + n) = key), u) := by
  rw [keyIs]
  by_cases hn : n = key.length
  · subst hn
    rw [if_neg (not_not.mpr rfl), strncmpEq_spec h]
  · have hne : slice text.bytes s (s + n) ≠ key := by
      rintro rfl
      rw [length_slice, Nat.add_sub_cancel_left] at hn
      exact hn rfl
    rw [if_pos hn, decide_eq_false hne]
    rfl

/-- A digit makes the number no smaller. -/
theorem le_foldl_digits (l : Str) (v : ℕ) : v ≤ l.foldl (fun n c => n * 10 + (c.toNat - 48)) v := by
  induction l generalizing v with
  | nil => exact le_rfl
  | cons c l ih => exact le_trans (by omega) (ih (v * 10 + (c.toNat - 48)))

/-- **The loop over the digits** stops at 300. -/
theorem timeoutLoop_spec (h : p + n ≤ text.len) (hv : v ≤ 300) :
    timeoutLoop text n p v u = .ret (min 300 (((slice text.bytes p (p + n)).takeWhile
      fun c => 48 ≤ c ∧ c ≤ 57).foldl (fun n c => n * 10 + (c.toNat - 48)) v), u) := by
  induction n generalizing p v with
  | zero =>
    rw [Nat.add_zero, slice_of_le le_rfl]
    exact congrArg (fun x => Outcome.ret (x, u)) (min_eq_right hv).symm
  | succ n ih =>
    rw [timeoutLoop, bind_of_ret (get_apply (by omega) u), slice_cons (by omega), List.takeWhile_cons,
      show p + (n + 1) = p + 1 + n by omega]
    by_cases hc : 48 ≤ text.bytes p ∧ text.bytes p ≤ 57
    · rw [if_pos hc, if_pos (decide_eq_true hc), List.foldl_cons]
      by_cases hbig : 300 < v * 10 + ((text.bytes p).toNat - 48)
      · rw [if_pos hbig]
        have hle := le_foldl_digits ((slice text.bytes (p + 1) (p + 1 + n)).takeWhile
          fun c => 48 ≤ c ∧ c ≤ 57) (v * 10 + ((text.bytes p).toNat - 48))
        rw [min_eq_left (by omega)]
        rfl
      · rw [if_neg hbig]
        exact ih (by omega) (by omega)
    · rw [if_neg hc, if_neg (by simpa using hc)]
      exact congrArg (fun x => Outcome.ret (x, u)) (min_eq_right hv).symm

theorem cfgAssign_spec (hg : g.Ok) {ks kn vs vn : ℕ} (hk : ks + kn ≤ text.len) (hv : vs + vn ≤ text.len) :
    ∃ g', cfgAssign text g ks kn vs vn u = .ret (g', u) ∧ g'.Ok ∧
      g'.visible = g.visible.assign (slice text.bytes ks (ks + kn)) (slice text.bytes vs (vs + vn)) := by
  rw [cfgAssign, Settings.assign, bind_of_ret (keyIs_spec hk)]
  by_cases h₁ : slice text.bytes ks (ks + kn) = pmmKey
  · obtain ⟨b, hb, hlen, hshown⟩ := cfgCopy_sized (u := u) hg.pmm (by omega) hv
    rw [if_pos (decide_eq_true h₁), if_pos h₁, bind_of_ret hb, ← hshown]
    exact ⟨_, rfl, { hg with pmm := hlen }, rfl⟩
  rw [if_neg (by simpa using h₁), if_neg h₁, bind_of_ret (keyIs_spec hk)]
  by_cases h₂ : slice text.bytes ks (ks + kn) = diskKey
  · obtain ⟨b, hb, hlen, hshown⟩ := cfgCopy_sized (u := u) hg.disk (by omega) hv
    rw [if_pos (decide_eq_true h₂), if_pos h₂, bind_of_ret hb, ← hshown]
    exact ⟨_, rfl, { hg with disk := hlen }, rfl⟩
  rw [if_neg (by simpa using h₂), if_neg h₂, bind_of_ret (keyIs_spec hk)]
  by_cases h₃ : slice text.bytes ks (ks + kn) = rootKey
  · obtain ⟨b, hb, hlen, hshown⟩ := cfgCopy_sized (u := u) hg.root (by omega) hv
    rw [if_pos (decide_eq_true h₃), if_pos h₃, bind_of_ret hb, ← hshown]
    exact ⟨_, rfl, { hg with root := hlen }, rfl⟩
  rw [if_neg (by simpa using h₃), if_neg h₃, bind_of_ret (keyIs_spec hk)]
  by_cases h₄ : slice text.bytes ks (ks + kn) = initKey
  · obtain ⟨b, hb, hlen, hshown⟩ := cfgCopy_sized (u := u) hg.init (by omega) hv
    rw [if_pos (decide_eq_true h₄), if_pos h₄, bind_of_ret hb, ← hshown]
    exact ⟨_, rfl, { hg with init := hlen }, rfl⟩
  rw [if_neg (by simpa using h₄), if_neg h₄, bind_of_ret (keyIs_spec hk)]
  by_cases h₅ : slice text.bytes ks (ks + kn) = debugKey
  · obtain ⟨b, hb, hlen, hshown⟩ := cfgCopy_sized (u := u) hg.debug (by omega) hv
    rw [if_pos (decide_eq_true h₅), if_pos h₅, bind_of_ret hb, ← hshown]
    exact ⟨_, rfl, { hg with debug := hlen }, rfl⟩
  rw [if_neg (by simpa using h₅), if_neg h₅, bind_of_ret (keyIs_spec hk)]
  by_cases h₆ : slice text.bytes ks (ks + kn) = timeoutKey
  · rw [if_pos (decide_eq_true h₆), if_pos h₆, bind_of_ret (timeoutLoop_spec hv (by omega))]
    exact ⟨_, rfl, { hg with timeout := min_le_left _ _ }, rfl⟩
  · rw [if_neg (by simpa using h₆), if_neg h₆]
    exact ⟨g, rfl, hg, rfl⟩

/-- **`cfg_parse_kv`** assigns the value to the key, if there is an equals
sign. -/
theorem cfgParseKv_spec (hg : g.Ok) (h : s ≤ e) (he : e ≤ text.len) :
    ∃ g', cfgParseKv text g s e u = .ret (g', u) ∧ g'.Ok ∧
      g'.visible = if equals ∈ slice text.bytes s e then
        g.visible.assign (keyOf (slice text.bytes s e)) (valueOf (slice text.bytes s e)) else g.visible := by
  obtain ⟨eq, heq, hscan⟩ := scan_spec (f := (· ≠ equals)) h he u
  have hmem : equals ∈ slice text.bytes s e ↔ eq ≠ e := by
    have hnil : eq = e ↔ slice text.bytes eq e = [] := by
      have := hscan.le
      rw [slice_eq_nil_iff]
      omega
    rw [ne_eq, hnil, hscan.left, List.dropWhile_eq_nil_iff]
    simp
  rw [cfgParseKv, bind_of_ret heq]
  by_cases hend : eq = e
  · rw [if_pos hend, if_neg (by rw [hmem]; simpa using hend)]
    exact ⟨g, rfl, hg, rfl⟩
  have hlt : eq < e := lt_of_le_of_ne hscan.le hend
  obtain ⟨ke, hke, hkge, hkle, hkey⟩ := scanBack_spec (f := isWs) hscan.ge (hlt.le.trans he) u
  obtain ⟨vs, hvs, hvscan⟩ := scan_spec (f := isWs) (show eq + 1 ≤ e from hlt) he u
  obtain ⟨ve, hve, hvge, hvle, hvalue⟩ :=
    scanBack_spec (f := fun c => isWs c || c == carriageReturn) hvscan.le he u
  rw [if_neg hend, bind_of_ret hke, bind_of_ret hvs, bind_of_ret hve, if_pos (hmem.mpr hend)]
  obtain ⟨g', hrun, hok, hvis⟩ := cfgAssign_spec (u := u) hg
    (show s + (ke - s) ≤ text.len by omega) (show vs + (ve - vs) ≤ text.len by omega)
  refine ⟨g', hrun, hok, ?_⟩
  have htail : (slice text.bytes eq e).drop 1 = slice text.bytes (eq + 1) e := drop_slice hlt
  rw [hvis, Nat.add_sub_cancel' hkge, Nat.add_sub_cancel' hvge, keyOf, valueOf, hkey, hvalue, hscan.taken,
    ← hscan.left, htail, ← hvscan.left]

/-! ## Lines -/

theorem lineEnd_spec (h : line ≤ ls) (he : ls ≤ text.len) : ∃ le, lineEnd text line ls u = .ret (le, u) ∧
    line ≤ le ∧ le ≤ ls ∧ slice text.bytes line le = dropCr (slice text.bytes line ls) := by
  rw [lineEnd]
  by_cases hempty : ls ≤ line
  · rw [if_pos hempty, slice_of_le hempty]
    exact ⟨ls, rfl, h, le_rfl, slice_of_le hempty⟩
  have hcat := slice_concat (m := text.bytes) (show line < ls by omega)
  rw [if_neg hempty, bind_of_ret (get_apply (by omega) u), dropCr]
  by_cases hcr : text.bytes (ls - 1) = carriageReturn
  · refine ⟨ls - 1, by rw [if_pos hcr]; rfl, by omega, by omega, ?_⟩
    rw [hcat, List.getLast?_concat, hcr, if_pos rfl, List.dropLast_concat]
  · refine ⟨ls, by rw [if_neg hcr]; rfl, h, le_rfl, ?_⟩
    rw [hcat, List.getLast?_concat, if_neg (by simpa using hcr)]

theorem isMountLine_spec (h : p ≤ e) (he : e ≤ text.len) :
    isMountLine text p e u = .ret (decide (StartsMount (slice text.bytes p e)), u) := by
  rw [isMountLine]
  by_cases hshort : e - p < 6
  · have hnot : ¬ StartsMount (slice text.bytes p e) := by
      rintro ⟨-, h5⟩
      rw [List.getElem?_eq_none (by rw [length_slice]; omega)] at h5
      cases h5
    rw [if_pos hshort, decide_eq_false hnot]
    rfl
  have htake : (slice text.bytes p e).take 5 = slice text.bytes p (p + 5) := take_slice (by omega)
  have hget : (slice text.bytes p e)[5]? = some (text.bytes (p + 5)) := by
    rw [← List.head?_drop, drop_slice (by omega), slice_cons (by omega)]
    rfl
  rw [if_neg hshort, bind_of_ret (strncmpEq_spec (show p + mountWord.length ≤ text.len by
    rw [show mountWord.length = 5 from rfl]; omega))]
  rw [show mountWord.length = 5 from rfl, ← htake]
  by_cases hword : (slice text.bytes p e).take 5 = mountWord
  · rw [decide_eq_true hword, if_neg (by simp), bind_of_ret (get_apply (by omega) u)]
    have hiff : StartsMount (slice text.bytes p e) ↔ isWs (text.bytes (p + 5)) = true := by
      rw [StartsMount, hget]
      simp [hword]
    rw [decide_eq_decide.mpr hiff, Bool.decide_coe]
    rfl
  · rw [decide_eq_false hword, if_pos (by simp), decide_eq_false fun hs => hword hs.1]
    rfl

/-- A line that is not blank keeps its first byte when the blanks at its end are
dropped. -/
theorem lt_of_rdropWhile {r : ℕ} (hp : p < e) (hge : p ≤ r) (hc : isWs (text.bytes p) = false)
    (hr : slice text.bytes p r = (slice text.bytes p e).rdropWhile isWs) : p < r := by
  refine lt_of_le_of_ne hge ?_
  rintro rfl
  rw [slice_of_le le_rfl, eq_comm, List.rdropWhile_eq_nil_iff] at hr
  have hws := hr (text.bytes p) (by rw [slice_cons hp]; exact List.mem_cons_self)
  rw [hc] at hws
  cases hws

/-- **A line** does what the grammar says. -/
theorem parseLine_spec (hg : g.Ok) (h : line ≤ ls) (he : ls ≤ text.len) :
    ∃ g', parseLine text g line ls u = .ret (g', u) ∧ g'.Ok ∧
      g'.visible = applyLine plainTokens g.visible (slice text.bytes line ls) := by
  obtain ⟨le, hle, hge, hlels, hcr⟩ := lineEnd_spec (u := u) h he
  obtain ⟨p, hp, hblank⟩ := scan_spec (f := isWs) hge (hlels.trans he) u
  have hple := hblank.le
  rw [parseLine, bind_of_ret hle, bind_of_ret hp, applyLine, trim, ← hcr, ← hblank.left]
  by_cases hempty : p = le
  · rw [if_pos hempty, slice_of_le hempty.ge]
    exact ⟨g, rfl, hg, rfl⟩
  have hws : isWs (text.bytes p) = false := by
    have hhead := List.head?_dropWhile_not isWs (slice text.bytes line le)
    rw [← hblank.left, slice_cons (by omega)] at hhead
    exact hhead
  obtain ⟨r, hr, hrge, hrle, htrim⟩ := scanBack_spec (f := isWs) hple (hlels.trans he) u
  have hlt := lt_of_rdropWhile (by omega) hrge hws htrim
  have hhead : (slice text.bytes p r).head? = some (text.bytes p) := by
    rw [slice_cons hlt]
    rfl
  rw [if_neg hempty, bind_of_ret (get_apply (by omega) u), ← htrim, applyTrimmed, hhead]
  by_cases hhash : text.bytes p = hash
  · rw [if_pos hhash, if_pos (Or.inr (by rw [hhash]))]
    exact ⟨g, rfl, hg, rfl⟩
  have hline : ¬ (slice text.bytes p r = [] ∨ some (text.bytes p) = some hash) := by
    simp [slice_eq_nil_iff, hlt, hhash]
  rw [if_neg hhash, bind_of_ret hr, bind_of_ret (isMountLine_spec hrge (by omega)), if_neg hline]
  by_cases hmount : StartsMount (slice text.bytes p r)
  · have hlen : p + 5 ≤ r := by
      have hfive := congrArg List.length hmount.1
      rw [List.length_take, length_slice] at hfive
      have : mountWord.length = 5 := rfl
      omega
    rw [if_pos (decide_eq_true hmount), if_pos hmount, drop_slice hlen]
    exact cfgParseMount_spec hg hlen (by omega)
  · rw [if_neg (by simpa using hmount), if_neg hmount]
    exact cfgParseKv_spec hg hrge (by omega)

/-! ## The text -/

/-- **The loop over the text** applies the lines that are left, the first of
which begins at `line`. -/
theorem parseLoop_spec (hg : g.Ok) (hn : ls + n = text.len) (hline : line ≤ ls)
    (hcur : newline ∉ slice text.bytes line ls) :
    ∃ g', parseLoop text (n + 1) ls line g u = .ret (g', u) ∧ g'.Ok ∧
      g'.visible = ((slice text.bytes line text.len).splitOn newline).foldl (applyLine plainTokens)
        g.visible := by
  induction n generalizing ls line g with
  | zero =>
    obtain rfl : ls = text.len := by omega
    obtain ⟨g', hrun, hok, hvis⟩ := parseLine_spec (u := u) hg hline le_rfl
    rw [parseLoop, if_pos rfl, bind_of_ret hrun, List.splitOn_eq_singleton hcur]
    exact ⟨g', rfl, hok, hvis⟩
  | succ n ih =>
    have hsplit : slice text.bytes line text.len =
        slice text.bytes line ls ++ text.bytes ls :: slice text.bytes (ls + 1) text.len := by
      rw [slice_append hline (show ls ≤ text.len by omega), slice_cons (show ls < text.len by omega)]
    rw [parseLoop, if_neg (by omega), bind_of_ret (get_apply (by omega) u)]
    by_cases hnl : text.bytes ls = newline
    · obtain ⟨g₁, hrun, hok, hvis⟩ := parseLine_spec (u := u) hg hline (show ls ≤ text.len by omega)
      obtain ⟨g', hrest, hok', hvis'⟩ := ih hok (show ls + 1 + n = text.len by omega) le_rfl
        (by rw [slice_of_le le_rfl]; exact List.not_mem_nil)
      rw [if_pos hnl, bind_of_ret hrun, hrest]
      refine ⟨g', rfl, hok', ?_⟩
      rw [hvis', hvis, hsplit, hnl, List.splitOn_append_cons_self_of_not_mem hcur, List.foldl_cons]
    · rw [if_neg hnl]
      refine ih hg (by omega) (by omega) ?_
      rw [slice_append hline (Nat.le_succ ls), slice_cons (Nat.lt_succ_self ls), slice_of_le le_rfl]
      simp [hcur, Ne.symm hnl]

end Config

end Csos

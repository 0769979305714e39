import Csos.Fat32.Leaks
import Csos.Fat32.Sessions
/-!
# FAT32 — from the mount on

A well-formed volume that is mounted from a device that does not fail. Every
run of sessions keeps the chains of its files and directories intact, and the
count of free clusters right if FSInfo had it right.
-/

namespace Csos

namespace Fat32

open Vfs (dot slash initVfs emptyMount)

variable {g : Geo} {v : Vol} {c h h' j n : ℕ} {l l' : List ℕ} {o o' : Option (ℕ × ℕ)} {P : Plan}
  {dev : Dev} {mem : Bool} {junk : ℕ → ℕ} {s : Sys}

/-! ## Mounting -/

/-- FSInfo records `n` as the number of free clusters. -/
def InfoCount (g : Geo) (disk : ℕ → Bytes) (n : ℕ) : Prop :=
  g.fsInfoSec ≠ 0 ∧ Bytes.load 4 (disk (g.baseLba + g.fsInfoSec)) 0 = 0x41615252 ∧
    Bytes.load 4 (disk (g.baseLba + g.fsInfoSec)) 484 = 0x61417272 ∧
    Bytes.load 4 (disk (g.baseLba + g.fsInfoSec)) 488 = n ∧ n ≠ 0xffffffff

theorem findBoot_quiet {sec : Bytes} {base : ℕ} {v v₀ : Vol} (hq : Quiet v)
    (h : findBoot v = .ok (sec, base, v₀)) : v₀ = v := by
  have hread : ∀ lba, readDev lba v = (some (v.disk lba), v) := by
    intro lba
    rw [readDev, Vol.transfer, show v.faults = [] from hq]
  unfold findBoot at h
  rw [hread] at h
  dsimp only at h
  split_ifs at h with hd hm
  · cases h
    rfl
  · rw [hread] at h
    dsimp only at h
    split_ifs at h
    cases h
    rfl

/-- What is taken from FSInfo. -/
theorem readInfo_quiet (hq : Quiet v) : Quiet (readInfo g v) ∧ (readInfo g v).disk = v.disk ∧
    (v.freeCount < 2 ^ 32 → (readInfo g v).freeCount < 2 ^ 32) ∧
    ∀ n, InfoCount g v.disk n → (readInfo g v).freeKnown = true ∧ (readInfo g v).freeCount = n := by
  rw [readInfo]
  by_cases h0 : g.fsInfoSec = 0
  · rw [if_pos h0]
    exact ⟨hq, rfl, id, fun n hn => absurd h0 hn.1⟩
  rw [if_neg h0, readSec_quiet hq]
  dsimp only
  by_cases hsig : Bytes.load 4 (v.sec g g.fsInfoSec) 0 = 0x41615252 ∧
      Bytes.load 4 (v.sec g g.fsInfoSec) 484 = 0x61417272
  case neg =>
    rw [if_neg hsig]
    exact ⟨hq, rfl, id, fun n hn => absurd ⟨hn.2.1, hn.2.2.1⟩ hsig⟩
  rw [if_pos hsig]
  have hlt := Bytes.load_lt 4 (v.sec g g.fsInfoSec) 488
  refine ⟨?_, ?_, fun hv => ?_, fun n hn => ?_⟩
  · split_ifs <;> exact hq
  · split_ifs <;> rfl
  · split_ifs
    · exact hlt
    · exact hv
    · exact hlt
    · exact hv
  · obtain ⟨-, -, -, hcount, hne⟩ := hn
    rw [if_pos (show Bytes.load 4 (v.sec g g.fsInfoSec) 488 ≠ 0xffffffff from hcount ▸ hne)]
    split_ifs
    · exact ⟨rfl, hcount⟩
    · exact ⟨rfl, hcount⟩

/-- **What `fat32_mount` leaves** on a device that does not fail. -/
theorem mount_starts (hm : mount (some dev) mem junk = .ok (g, v)) (hd : dev.faults = []) :
    Quiet v ∧ v.disk = dev.disk ∧ v.freeCount < 2 ^ 32 ∧
      ∀ n, InfoCount g dev.disk n → v.freeKnown = true ∧ v.freeCount = n := by
  unfold mount at hm
  dsimp only at hm
  split_ifs at hm
  match hf : findBoot ⟨2, 0, false, dev.disk, dev.faults, false, junk⟩ with
  | .error rc =>
    rw [hf] at hm
    exact absurd hm (by simp)
  | .ok (sec, base, v₀) =>
    rw [hf] at hm
    dsimp only at hm
    split_ifs at hm
    have hq : Quiet ⟨2, 0, false, dev.disk, dev.faults, false, junk⟩ := hd
    obtain rfl := findBoot_quiet hq hf
    cases hm
    obtain ⟨h1, h2, h3, h4⟩ := readInfo_quiet (g := geoOf sec base dev.writable) hq
    exact ⟨h1, h2, h3 (by norm_num), h4⟩

/-- **A well-formed volume**: the geometry is one that all of it can be
addressed in, the copies of the FAT agree, and the chains and the entries are
as some plan has them. -/
structure WellFormed (g : Geo) (v : Vol) : Prop where
  geo : g.Wf
  mirrored : Mirrored g v
  planned : ∃ P, Tree g P ∅ v

/-! ## Chains -/

/-- The objects of a volume and where they start: the root, or what an entry
of a directory leads to. -/
inductive Starts (g : Geo) (v : Vol) : Option (ℕ × ℕ) → ℕ → Prop
  | root : Starts g v none g.rootClus
  | entry {c j : ℕ} (h : Reached g v true c) (hj : j < perClus g) (hl : Live (slot g v c j)) :
    Starts g v (some (c, j)) (entClus (slot g v c j))

/-- What an entry leads to, by the plan. -/
theorem Starts.planned (ht : Tree g P ∅ v) (hs : Starts g v o h) : h = 0 ∨ h ∈ P.heads := by
  cases hs with
  | root => exact .inr (.inl ht.root)
  | @entry c j hr hj hl =>
    obtain ⟨r, hc, hd⟩ := hr.planned ht
    have hlead := ht.entry r c j ⟨hd, hc, hj⟩ (by simp) hl
    rw [Leads] at hlead
    split at hlead
    · exact .inr (.inl hlead.1)
    · exact hlead.imp id .inr

/-- Nothing starts at the root but the root. -/
theorem Starts.root_eq (ht : Tree g P ∅ v) (hs : Starts g v o g.rootClus) : o = none := by
  generalize hh : g.rootClus = h at hs
  cases hs with
  | root => rfl
  | @entry c j hr hj hl =>
    obtain ⟨r, hc, hd⟩ := hr.planned ht
    have hlead := ht.entry r c j ⟨hd, hc, hj⟩ (by simp) hl
    rw [Leads, ← hh] at hlead
    split at hlead
    · exact absurd rfl hlead.2.1
    · rcases hlead with h0 | hf
      · exact absurd h0 (ht.head_ne_zero (.inl ht.root))
      · exact absurd hf (Set.disjoint_left.mp ht.apart ht.root)

/-- Objects that start at the same cluster are the same. -/
theorem Starts.unique (ht : Tree g P ∅ v) (hs : Starts g v o h) (hs' : Starts g v o' h) (h0 : h ≠ 0) :
    o = o' := by
  cases hs with
  | root => exact (hs'.root_eq ht).symm
  | @entry c j hr hj hl =>
    generalize hh : entClus (slot g v c j) = e at hs'
    cases hs' with
    | root => exact absurd (Starts.root_eq ht (hh ▸ Starts.entry hr hj hl)) (by simp)
    | @entry c' j' hr' hj' hl' =>
      obtain ⟨r, hc, hd⟩ := hr.planned ht
      obtain ⟨r', hc', hd'⟩ := hr'.planned ht
      have := ht.once r c j r' c' j' ⟨hd, hc, hj⟩ ⟨hd', hc', hj'⟩ (by simp) (by simp) hl hl' h0 hh
      rw [this]

/-- **The count of free clusters is exact** after every run of sessions if
FSInfo had it right, and on any volume `fat32_alloc_cluster` fails only when
there is no free cluster. -/
theorem free_count_exact (hm : mount (some dev) mem junk = .ok (g, v)) (hd : dev.faults = [])
    (hw : WellFormed g v) (hc : InfoCount g dev.disk (freeSet g v).card)
    (hr : (sessions g v).Reachable s) :
    s.vol.freeKnown = true ∧ s.vol.freeCount = (freeSet g s.vol).card ∧
      ∀ w : Vol, Quiet w → (allocCluster g w).1 = 0 → freeSet g w = ∅ := by
  obtain ⟨hq, -, hword, hcount⟩ := mount_starts hm hd
  obtain ⟨P, ht⟩ := hw.planned
  have hs : Sound g True P ∅ v := ⟨ht, hq, hw.mirrored, hword, fun _ => hcount _ hc⟩
  obtain ⟨P', hs', -⟩ := sessions_kept hw.geo hs hr
  refine ⟨(hs'.count trivial).1, (hs'.count trivial).2, fun w hqw h0 => ?_⟩
  rw [Finset.eq_empty_iff_forall_notMem]
  intro d hd
  obtain ⟨hv, hz⟩ := (mem_freeSet hw.geo).mp hd
  rcases allocCluster_quiet hw.geo hqw with ⟨-, hno⟩ | ⟨c, w', hr, hT⟩
  · exact hno d hv hz
  · rw [hr] at h0
    have hcv := hT.valid
    rw [show c = 0 from h0] at hcv
    exact absurd hcv (by simp [clusValid])

/-! ### A directory is made -/

/-- A boot sector with FSInfo at sector 1. -/
def Boot.withInfo : Bytes := Boot.of 32 1 36 1

/-- A freshly formatted device of three clusters; FSInfo counts the two that
are free. -/
def Boot.counted (lba : ℕ) : Bytes :=
  if lba = 0 then Boot.withInfo
  else if lba = 1 then Bytes.store 4 (Bytes.store 4 infoSec 488 2) 492 2
  else if lba = 32 then
    Bytes.store 4 (Bytes.store 4 (Bytes.store 4 (Bytes.const 0) 0 eoc) 4 eoc) 8 eoc
  else Bytes.const 0

/-- Its geometry. -/
def Boot.infoGeo : Geo := geoOf Boot.withInfo 0 true

/-- The volume when it has been mounted. -/
def Boot.mounted : Vol := ⟨2, 2, true, Boot.counted, [], false, fun _ => 0⟩

theorem mount_counted :
    mount (some ⟨Boot.counted, [], 512, true, true⟩) true (fun _ => 0) = .ok (Boot.infoGeo, Boot.mounted) :=
  mount_quiet _ (by decide +kernel) (by decide +kernel) (by decide +kernel)

theorem wf_infoGeo : Boot.infoGeo.Wf := by decide +kernel

theorem wellFormed_mounted : WellFormed Boot.infoGeo Boot.mounted where
  geo := wf_infoGeo
  mirrored := by
    -- there is one copy
    intro _ k hk c _
    obtain rfl : k = 0 := Nat.lt_one_iff.mp hk
    rfl
  planned := by
    refine ⟨Plan.ofRoot Boot.infoGeo, .of_root wf_infoGeo ⟨⟨by decide +kernel, ?_⟩, ?_, by simp⟩ ?_ ?_ ?_⟩
    · rw [seg_nil]
      decide +kernel
    · intro x hx
      obtain rfl : x = Boot.infoGeo.rootClus := by simpa using hx.symm
      decide +kernel
    · exact not_isDot_of_blank (by decide +kernel)
    · exact fun hl => absurd hl (not_live_of_blank (by decide +kernel))
    · rw [show perClus Boot.infoGeo = 16 by decide +kernel]
      decide +kernel

/-- A mountpoint at `/`. -/
def rootMounted : Vfs.State :=
  { initVfs with mounts := fun _ => { emptyMount with used := true, mountpoint := [slash] } }

theorem handed_letter : Handed [0x62] := ⟨rootMounted, rootMounted.pin 0, [slash, 0x62], 0, rfl⟩

/-- `mkdir("/b")`. -/
theorem reachable_mkdir : (sessions Boot.infoGeo Boot.mounted).Reachable
    ⟨(mkdir Boot.infoGeo [0x62] Boot.mounted).2, none⟩ :=
  .step (i := .mkdir [0x62]) (.init rfl) ⟨⟨handed_letter, by decide⟩, rfl⟩

theorem free_count_exact_mkdir :
    (mkdir Boot.infoGeo [0x62] Boot.mounted).2.freeKnown = true ∧
      (mkdir Boot.infoGeo [0x62] Boot.mounted).2.freeCount =
        (freeSet Boot.infoGeo (mkdir Boot.infoGeo [0x62] Boot.mounted).2).card ∧
      ∀ w : Vol, Quiet w → (allocCluster Boot.infoGeo w).1 = 0 → freeSet Boot.infoGeo w = ∅ :=
  free_count_exact mount_counted rfl wellFormed_mounted
    ⟨by decide +kernel, by decide +kernel, by decide +kernel, by decide +kernel, by decide +kernel⟩
    reachable_mkdir

end Fat32

end Csos

import Csos.Fat32.Directory
import Csos.Fat32.Leaks
/-!
# FAT32 — edits of a directory

Over any run of insertions, updates and deletions in a tidy directory, a
lookup finds what the last edit of the name has left: the entry as it was
inserted or updated, or nothing. No insertion of the run may be one whose entries are stranded.
-/

namespace Csos

namespace Fat32

open Vfs (Str dot)

/-- An insertion that stays below 4 GiB and whose entries are not stranded. -/
def Roomy (g : Geo) (v : Vol) (d : ℕ) (name : Str) : Prop :=
  ∀ K l, Tidy (entAt g v d) K → IsChain g v d l → l.length * perClus g + 21 < 2 ^ 27 ∧
    ¬ Stranded (entAt g v d) K (l.length * perClus g) (needed g d name v)

/-- **Edits of a directory**, the last one first: what each has left under its
name. -/
inductive Edits (g : Geo) (d : ℕ) (v : Vol) : List (Str × Option Loc) → Vol → Prop
  | start : Edits g d v [] v
  /-- `fat32_dir_insert` of a name that was not found. -/
  | insert {h v₁ v' name isDir c size o} : Edits g d v h v₁ → PlainName name → c < 2 ^ 32 → size < 2 ^ 32 → Roomy g v₁ d name →
      find g v₁ d name = none → dirInsert g d name isDir c size v₁ = (fatOk, o, v') →
      Edits g d v ((name, o) :: h) v'
  /-- `fat32_update_entry` of a name that was found. -/
  | update {h v₁ name loc c size} : Edits g d v h v₁ → find g v₁ d name = some loc → c < 2 ^ 32 → size < 2 ^ 32 →
      Edits g d v ((name, some { loc with clus := c, size := size }) :: h)
        (updateEntry g loc.dirClus loc.off c size v₁).2
  /-- `fat32_delete_slots` of a name that was found. -/
  | delete {h v₁ name loc} : Edits g d v h v₁ → find g v₁ d name = some loc →
      Edits g d v ((name, none) :: h) (deleteSlots g loc.dirClus loc.lfnOff loc.off v₁)

variable {g : Geo} {v v₁ v' : Vol} {c d k K size : ℕ} {l : List ℕ} {name n : Str} {isDir : Bool} {loc : Loc}
  {o : Option Loc} {h : List (Str × Option Loc)}

/-- What the last edit of a name has left. -/
def left (h : List (Str × Option Loc)) (n : Str) : Option (Option Loc) :=
  (h.find? fun p => nameEq p.1 n).map Prod.snd

theorem left_cons (h : List (Str × Option Loc)) (n : Str) :
    left ((name, o) :: h) n = if nameEq name n = true then some o else left h n := by
  rw [left, List.find?_cons]
  split <;> simp_all [left]

/-- What every edit keeps. -/
structure Tended (g : Geo) (d : ℕ) (v : Vol) : Prop where
  quiet : Quiet v
  chain : ∃ l, IsChain g v d l
  tidy : ∃ K, Tidy (entAt g v d) K ∧ Catalog (entAt g v d) K

/-- **A lookup finds what the last edit has left.** -/
theorem edits_find (hg : g.Wf) (hv : Tended g d v) (he : Edits g d v h v') :
    Tended g d v' ∧ ∀ n, find g v' d n = (left h n).getD (find g v d n) := by
  induction he with
  | start => exact ⟨hv, fun n => rfl⟩
  | @insert h v₁ name c size isDir o v' _ hp hc hsize hroom hnew hrun ih =>
    obtain ⟨⟨hq, ⟨l, hl⟩, K, T, hcat⟩, hfind⟩ := ih
    obtain ⟨hN, hno⟩ := hroom K l T hl
    obtain ⟨hin, -, -, hq', hl', -⟩ := dirInsert_find hg hq hl hcat T hN hp hc hsize hnew hrun
    obtain ⟨htidy, hfind'⟩ := hin hno
    refine ⟨⟨hq', hl', htidy⟩, fun n => ?_⟩
    rw [hfind', left_cons]
    split_ifs
    · rfl
    · exact hfind n
  | @update h v₁ name loc c size _ hfound hc hsize ih =>
    obtain ⟨⟨hq, ⟨l, hl⟩, K, T, hcat⟩, hfind⟩ := ih
    obtain ⟨v', hr, hcat', htidy, hfind', hq', hl', -⟩ := updateEntry_find hg hq hl hcat hfound hc hsize
    rw [hr]
    refine ⟨⟨hq', ⟨l, hl'⟩, K, htidy T, hcat'⟩, fun n => ?_⟩
    rw [hfind', left_cons]
    split_ifs
    · rfl
    · exact hfind n
  | @delete h v₁ name loc _ hfound ih =>
    obtain ⟨⟨hq, ⟨l, hl⟩, K, T, hcat⟩, hfind⟩ := ih
    obtain ⟨v', rfl, hcat', htidy, hfind', hq', hl', -⟩ := deleteSlots_find hg hq hl hcat hfound
    refine ⟨⟨hq', ⟨l, hl'⟩, K, htidy T, hcat'⟩, fun n => ?_⟩
    rw [hfind', left_cons]
    split_ifs
    · rfl
    · exact hfind n

/-! ## Instances -/

deriving instance DecidableEq for Loc

/-- The root holds one short entry, and is one cluster long. -/
theorem shape_oneFile : (clusValid Boot.tiny 2 = true ∧ fat Boot.tiny Boot.oneFile 2 = eoc) ∧
    perClus Boot.tiny = 16 ∧ needed Boot.tiny 2 [0x62] Boot.oneFile = 2 ∧
    (dirSlot Boot.tiny Boot.oneFile [2] 0 0 ≠ 0 ∧ ¬ LfnPart (dirSlot Boot.tiny Boot.oneFile [2] 0)) ∧
    ∀ k < 16, 1 ≤ k → dirSlot Boot.tiny Boot.oneFile [2] k 0 = 0 := by
  decide +kernel

theorem root_oneFile : IsChain Boot.tiny Boot.oneFile 2 [2] :=
  isChain_of_mark wf_tiny shape_oneFile.1.1 shape_oneFile.1.2

theorem entAt_oneFile (hk : k < 2 ^ 27) : entAt Boot.tiny Boot.oneFile 2 k =
    if k < 16 then some (dirSlot Boot.tiny Boot.oneFile [2] k) else none := by
  obtain ⟨-, hper, -⟩ := shape_oneFile
  rw [entAt_slot wf_tiny (show Quiet Boot.oneFile from rfl) root_oneFile hk, hper]
  simp

theorem tidy_oneFile : Tidy (entAt Boot.tiny Boot.oneFile 2) 1 := by
  obtain ⟨-, -, -, ⟨hused, hpart⟩, hrest⟩ := shape_oneFile
  have hblank : ∀ k, 1 ≤ k → k < 2 ^ 27 → ∀ e ∈ entAt Boot.tiny Boot.oneFile 2 k, e 0 = 0 := by
    intro k h1 hk e he
    rw [entAt_oneFile hk] at he
    split_ifs at he with hlt
    · rw [← Option.some.inj he]
      exact hrest k hlt h1
    · exact absurd he (by simp)
  have hfirst : entAt Boot.tiny Boot.oneFile 2 0 = some (dirSlot Boot.tiny Boot.oneFile [2] 0) := by
    rw [entAt_oneFile (by norm_num), if_pos (by norm_num)]
  refine ⟨⟨by norm_num, fun k hk => ?_, hblank 1 le_rfl (by norm_num), fun k hk e he hp => ?_, fun k hk e he hc u => ?_⟩, hblank⟩
  · obtain rfl := Nat.lt_one_iff.mp hk
    exact ⟨_, hfirst, hused⟩
  · obtain rfl := Nat.lt_one_iff.mp hk
    obtain rfl := Option.some.inj (hfirst.symm.trans he)
    exact absurd hp hpart
  · obtain rfl := Nat.lt_one_iff.mp hk
    rfl

theorem catalog_oneFile : Catalog (entAt Boot.tiny Boot.oneFile 2) 1 :=
  ⟨tidy_oneFile.toOrderly, fun _ k _ k' _ h h' => by
    have := h.lt
    have := h'.lt
    omega⟩

theorem tended_oneFile : Tended Boot.tiny 2 Boot.oneFile := ⟨rfl, ⟨_, root_oneFile⟩, 1, tidy_oneFile, catalog_oneFile⟩

theorem roomy_oneFile : Roomy Boot.tiny Boot.oneFile 2 [0x62] := by
  intro K l T hl
  obtain rfl := hl.unique root_oneFile
  obtain ⟨-, hper, hneed, -⟩ := shape_oneFile
  have hK : K ≤ 1 := by
    by_contra hlt
    obtain ⟨e, he, h0⟩ := T.used 1 (by omega)
    exact h0 (tidy_oneFile.blank 1 le_rfl (by norm_num) e he)
  rw [hper, hneed]
  refine ⟨by norm_num, fun h => ?_⟩
  have := h.2.1
  simp only [List.length_singleton] at this
  omega

/-- A file `b` beside `a`, and `a` deleted. -/
def Boot.edited : Vol :=
  deleteSlots Boot.tiny 2 0 0 (dirInsert Boot.tiny 2 [0x62] false 0 0 Boot.oneFile).2.2

theorem plain_b : PlainName [0x62] := ⟨by decide, List.forall_mem_singleton.mpr (by decide)⟩

/-- What the calls on `b` and on `a` return. -/
theorem calls_oneFile : find Boot.tiny Boot.oneFile 2 [0x62] = none ∧
    (dirInsert Boot.tiny 2 [0x62] false 0 0 Boot.oneFile).1 = fatOk ∧
    (dirInsert Boot.tiny 2 [0x62] false 0 0 Boot.oneFile).2.1 = some (newLoc 2 1 1 0 0 false [0x62]) ∧
    find Boot.tiny (dirInsert Boot.tiny 2 [0x62] false 0 0 Boot.oneFile).2.2 2 [0x41] =
      some ⟨2, 0, 0, 0, 0, attrArch, [0x41]⟩ ∧
    find Boot.tiny Boot.oneFile 2 [0x41] = some ⟨2, 0, 0, 0, 0, attrArch, [0x41]⟩ := by
  decide +kernel

/-- `b` has been inserted, and then `A` deleted. -/
theorem edits_oneFile : Edits Boot.tiny 2 Boot.oneFile
    [([0x41], none), ([0x62], some (newLoc 2 1 1 0 0 false [0x62]))] Boot.edited := by
  obtain ⟨hnew, hok, hloc, hfound, -⟩ := calls_oneFile
  exact .delete (.insert .start plain_b (by norm_num) (by norm_num) roomy_oneFile hnew
    (Prod.ext hok (Prod.ext hloc rfl))) hfound

theorem edits_find_oneFile : find Boot.tiny Boot.edited 2 [0x42] = some (newLoc 2 1 1 0 0 false [0x62]) ∧
    find Boot.tiny Boot.edited 2 [0x61] = none := by
  obtain ⟨-, h⟩ := edits_find wf_tiny tended_oneFile edits_oneFile
  rw [h, h]
  decide +kernel

/-- `b` is found after it has been inserted, and `A` still is. -/
theorem dirInsert_find_oneFile :
    find Boot.tiny (dirInsert Boot.tiny 2 [0x62] false 0 0 Boot.oneFile).2.2 2 [0x62] =
      some (newLoc 2 1 1 0 0 false [0x62]) ∧
    find Boot.tiny (dirInsert Boot.tiny 2 [0x62] false 0 0 Boot.oneFile).2.2 2 [0x41] =
      find Boot.tiny Boot.oneFile 2 [0x41] := by
  obtain ⟨hnew, hok, hloc, -⟩ := calls_oneFile
  have hroom := roomy_oneFile 1 [2] tidy_oneFile root_oneFile
  have hfind := (dirInsert_find wf_tiny tended_oneFile.quiet root_oneFile catalog_oneFile tidy_oneFile hroom.1
    plain_b (by norm_num) (by norm_num) hnew (Prod.ext hok (Prod.ext hloc rfl))).1 hroom.2
  exact ⟨(hfind.2 _).trans (if_pos (by decide)), (hfind.2 _).trans (if_neg (by decide))⟩

/-- A root with room for one more slot. -/
def Boot.crowded : Vol :=
  { Boot.oneFile with
    disk := fun lba =>
      if lba = 33 then fun x =>
        if x < 480 then makeSlot (rawName [UInt8.ofNat (0x41 + x / 32)] []) attrArch 0 0 0 (x % 32) else 0
      else Boot.oneFile.disk lba }

/-- **An entry can be stranded**: `b`, which needs two slots, has been
inserted, and is not found. -/
theorem dirInsert_stranded : (dirInsert Boot.tiny 2 [0x62, 0x62] false 0 0 Boot.crowded).1 = fatOk ∧
    find Boot.tiny (dirInsert Boot.tiny 2 [0x62, 0x62] false 0 0 Boot.crowded).2.2 2 [0x62, 0x62] = none := by
  decide +kernel

end Fat32

end Csos

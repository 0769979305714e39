import Csos.Boot.Model
import Csos.Common.Layers
/-!
# The kernel's loader — what ends up in memory

Each turn of the loop lays the zeros and the file bytes of one segment over
the memory, and the run is the pile of them. What the code tests is less than
exactness needs: it takes a short read for a whole one, it reads as many bytes
as a header says into however many pages its memory size made, and it takes
the program headers to be 56 bytes apart. So a turn may stray (`Fits`), fail
(`Passes`) or leave a layer (`layer`), and `loadSegments_exact_iff` says what
the loop makes of them.
-/

namespace Csos

namespace Boot

open Layers

variable {file : List UInt8}

namespace Firmware

variable (fw : Firmware file)

/-! ## One turn -/

/-- The pages of the `i`th header. -/
def pages (i : ℕ) : Grant := ⟨(fw.phdr i).paddr, efiSizeToPages (fw.phdr i).memsz⟩

/-- The answer to the read of the `i`th segment. -/
def data (i : ℕ) : Answer := fw.read (i + 2) (position file (fw.phdr i).offset) (fw.phdr i).filesz

/-- The pages that have been granted before the `i`th turn. -/
def granted : ℕ → List Grant
  | 0 => []
  | i + 1 => if (fw.phdr i).type = ptLoad then fw.pages i :: granted i else granted i

/-- The `i`th segment has its pages, and the file is at its bytes. -/
structure Placed (i : ℕ) : Prop where
  pages : ¬ efiError (fw.allocatePages (fw.granted i) (fw.pages i))
  seek : ¬ efiError (fw.setPosition (i + 1) (fw.phdr i).offset)

/-- No call for the `i`th header fails. -/
def Passes (i : ℕ) : Prop :=
  (fw.phdr i).type = ptLoad → fw.Placed i ∧ ¬ efiError (fw.data i).status

/-- The bytes read for the `i`th header go to pages that have been granted. -/
def Fits (i : ℕ) : Prop :=
  (fw.phdr i).type = ptLoad → fw.Placed i →
    Inside (fw.granted (i + 1)) (fw.phdr i).paddr (fw.data i).count

/-- `n` bytes at an address, as a layer. -/
def patch (addr n : ℕ) (src : Bytes) : ℕ → Option UInt8 :=
  fun a => if addr ≤ a ∧ a < addr + n then some (src (a - addr)) else none

/-- What the `i`th turn lays over the memory: the bytes that were read, and
zeros after them. -/
def layer (i : ℕ) : ℕ → Option UInt8 :=
  let ph := fw.phdr i
  if ph.type = ptLoad then
    fun a => (patch ph.paddr (fw.data i).count ((content file).shift (position file ph.offset)) a).or
      (patch ph.paddr ph.memsz (Bytes.const 0) a)
  else fun _ => none

end Firmware

open Firmware

theorem blit_eq_lay (m : Bytes) (addr n : ℕ) (src : Bytes) : m.blit addr n src = lay (patch addr n src) m := by
  funext a
  unfold Bytes.blit lay patch
  split <;> rfl

theorem lay_none (m : Bytes) : lay (fun _ => none) m = m := rfl

/-- The pages hold the size they were computed from. -/
theorem le_efiSizeToPages (size : ℕ) : size ≤ 4096 * efiSizeToPages size := by
  unfold efiSizeToPages
  split <;> omega

variable {fw : Firmware file} {i : ℕ}

theorem granted_succ (hp : (fw.phdr i).type = ptLoad) : fw.granted (i + 1) = fw.pages i :: fw.granted i :=
  if_pos hp

theorem granted_succ_of_ne (hp : (fw.phdr i).type ≠ ptLoad) : fw.granted (i + 1) = fw.granted i :=
  if_neg hp

theorem layer_of_load (hp : (fw.phdr i).type = ptLoad) :
    fw.layer i = fun a => (patch (fw.phdr i).paddr (fw.data i).count
      ((content file).shift (position file (fw.phdr i).offset)) a).or
      (patch (fw.phdr i).paddr (fw.phdr i).memsz (Bytes.const 0) a) :=
  if_pos hp

theorem layer_of_ne (hp : (fw.phdr i).type ≠ ptLoad) : fw.layer i = fun _ => none := if_neg hp

/-- The pages of a header cover its memory. -/
theorem inside_memsz (granted : List Grant) :
    Inside (fw.pages i :: granted) (fw.phdr i).paddr (fw.phdr i).memsz := by
  intro k hk
  have hle := le_efiSizeToPages (fw.phdr i).memsz
  refine ⟨fw.pages i, List.mem_cons_self, Nat.le_add_right _ _, ?_⟩
  unfold pages
  dsimp only
  omega

/-- **What a turn does.** It passes and lays its segment over the memory, or a
call of it fails and the run ends with an error, or it strays. -/
theorem loadSegment_cases (fw : Firmware file) (i : ℕ) (out : Out) {status : ℕ} (hs : ¬ efiError status) :
    (fw.Fits i ∧ fw.Passes i ∧ ∃ status' out',
      loadSegment fw i (fw.granted i) status out = .ok (fw.granted (i + 1), status', out') ∧
      ¬ efiError status' ∧ out'.mem = lay (fw.layer i) out.mem) ∨
    (fw.Fits i ∧ ¬ fw.Passes i ∧ ∃ status' out',
      loadSegment fw i (fw.granted i) status out = .error (.returned status' out') ∧ efiError status') ∨
    (¬ fw.Fits i ∧ loadSegment fw i (fw.granted i) status out = .error .strayed) := by
  unfold loadSegment
  by_cases hp : (fw.phdr i).type = ptLoad
  · rw [granted_succ hp]
    dsimp only
    rw [if_neg (not_not.mpr hp)]
    by_cases ha : efiError (fw.allocatePages (fw.granted i) (fw.pages i))
    · refine .inr (.inl ⟨fun _ h => absurd ha h.pages, fun h => absurd ha (h hp).1.pages, _, _,
        if_pos ha, ha⟩)
    · have hin : Inside (fw.pages i :: fw.granted i) (fw.phdr i).paddr (fw.phdr i).memsz := inside_memsz _
      unfold pages at ha hin
      rw [if_neg ha, if_neg (not_not.mpr hin)]
      by_cases hk : efiError (fw.setPosition (i + 1) (fw.phdr i).offset)
      · refine .inr (.inl ⟨fun _ h => absurd hk h.seek, fun h => absurd hk (h hp).1.seek, _, _,
          if_pos hk, hk⟩)
      · rw [if_neg hk]
        have hpl : fw.Placed i := ⟨ha, hk⟩
        by_cases hf : Inside (fw.pages i :: fw.granted i) (fw.phdr i).paddr (fw.data i).count
        · have hfits : fw.Fits i := fun _ _ => by rw [granted_succ hp]; exact hf
          unfold data pages at hf
          rw [if_neg (not_not.mpr hf)]
          by_cases hr : efiError (fw.data i).status
          · exact .inr (.inl ⟨hfits, fun h => absurd hr (h hp).2, _, _, if_pos hr, hr⟩)
          · refine .inl ⟨hfits, fun _ => ⟨hpl, hr⟩, _, _, if_neg hr, hr, ?_⟩
            dsimp only
            rw [blit_eq_lay, blit_eq_lay, lay_lay, layer_of_load hp]
            rfl
        · refine .inr (.inr ⟨fun h => hf ?_, if_pos hf⟩)
          rw [← granted_succ hp]
          exact h hp hpl
  · dsimp only
    rw [if_pos hp]
    refine .inl ⟨fun h => absurd h hp, fun h => absurd h hp, status, out, ?_, hs, ?_⟩
    · rw [granted_succ_of_ne hp]
    · rw [layer_of_ne hp, lay_none]

/-! ## The loop -/

/-- Every turn that is reached stays in the pages. -/
def FitsFrom (fw : Firmware file) (i n : ℕ) : Prop :=
  ∀ k, i ≤ k → k < i + n → (∀ j, i ≤ j → j < k → fw.Passes j) → fw.Fits k

/-- No turn fails. -/
def PassesFrom (fw : Firmware file) (i n : ℕ) : Prop := ∀ k, i ≤ k → k < i + n → fw.Passes k

variable {n : ℕ}

theorem passesFrom_succ (h : fw.Passes i) : PassesFrom fw i (n + 1) ↔ PassesFrom fw (i + 1) n := by
  constructor
  · intro hall k hik hkn
    exact hall k (by omega) (by omega)
  · intro hall k hik hkn
    rcases Nat.eq_or_lt_of_le hik with rfl | hlt
    · exact h
    · exact hall k hlt (by omega)

theorem fitsFrom_succ (hf : fw.Fits i) (hp : fw.Passes i) :
    FitsFrom fw i (n + 1) ↔ FitsFrom fw (i + 1) n := by
  constructor
  · intro hall k hik hkn hpass
    refine hall k (by omega) (by omega) fun j hij hjk => ?_
    rcases Nat.eq_or_lt_of_le hij with rfl | hlt
    · exact hp
    · exact hpass j hlt hjk
  · intro hall k hik hkn hpass
    rcases Nat.eq_or_lt_of_le hik with rfl | hlt
    · exact hf
    · exact hall k hlt (by omega) fun j hij hjk => hpass j (by omega) hjk

/-- **The loop is exact** if the turns that are reached stay in the pages and
the pile of all of them, if all are reached, is the image. -/
theorem loadSegments_exact_iff {status : ℕ} {out : Out} (hs : ¬ efiError status) :
    LoadsExactly file (loadSegments fw n i (fw.granted i) status out) ↔
      FitsFrom fw i n ∧ (PassesFrom fw i n → Loaded file (pile fw.layer i n out.mem)) := by
  induction n generalizing i status out with
  | zero =>
    constructor
    · intro h
      exact ⟨fun k hik hkn => by omega, fun _ => h.resolve_left hs⟩
    · rintro ⟨-, h⟩
      exact .inr (h fun k hik hkn => by omega)
  | succ n ih =>
    rw [loadSegments]
    rcases loadSegment_cases fw i out hs with
      ⟨hf, hp, status', out', he, hs', hm⟩ | ⟨hf, hp, status', out', he, hs'⟩ | ⟨hf, he⟩
    · -- the turn passes
      rw [he]
      dsimp only
      rw [ih hs', fitsFrom_succ hf hp, passesFrom_succ hp, pile, hm]
    · -- a call fails: the turns after this one are not reached
      rw [he]
      refine iff_of_true (.inl hs') ⟨fun k hik hkn hpass => ?_, fun hall => ?_⟩
      · rcases Nat.eq_or_lt_of_le hik with rfl | hlt
        · exact hf
        · exact absurd (hpass i le_rfl hlt) hp
      · exact absurd (hall i le_rfl (by omega)) hp
    · -- the turn strays
      rw [he]
      refine iff_of_false id fun h => hf (h.1 i le_rfl (by omega) fun j hij hji => ?_)
      omega

end Boot

end Csos

import Csos.Pmm.Model
import Csos.Common.Runs
/-!
# Physical memory — the allocator

`free_pages` is the number of clear bits: every page that is used or freed
goes through `usePage` or `releasePage`, which change a bit and the counter
together. What `mark_used` and `mark_free` do to a range follows from one
page at a time. The one surprise is in the rounding: `page_align_up` wraps
to 0 in the last page of the address space, and a `mark_free` that starts
there frees pages from 0 on.
-/

namespace Csos

namespace Pmm

variable {bm : Bitmap} {s s' : State} {i j n page first last : ℕ}

/-! ## Bits -/

theorem one_shl_getLsbD {k m : ℕ} (hk : k < 8) :
    (1#8 <<< k).getLsbD m = decide (m = k) := by
  rw [BitVec.getLsbD_shiftLeft, BitVec.getLsbD_one]
  rw [Bool.eq_iff_iff]
  simp
  omega

namespace Bitmap

theorem test_eq (h : i < bm.size) : bm.test i = (bm.bits (i / 8)).getLsbD (i % 8) := by
  have hone : (1#8 : BitVec 8) = BitVec.twoPow 8 0 := by decide
  rw [test, if_neg (by omega), hone, BitVec.and_twoPow, BitVec.getLsbD_ushiftRight, Nat.add_zero]
  split
  · rename_i h1
    rw [h1]
    decide
  · rename_i h1
    rw [Bool.not_eq_true] at h1
    rw [h1]
    decide

theorem test_of_size_le (h : bm.size ≤ i) : bm.test i = true := if_pos h

/-- A bit that is set. -/
theorem test_set (bm : Bitmap) (i j : ℕ) : (bm.set i).test j = (bm.test j || decide (j = i)) := by
  rw [set]
  split
  · rename_i h
    by_cases hj : j = i
    · rw [hj, test_of_size_le h, Bool.true_or]
    · simp [hj]
  rename_i h
  by_cases hj : bm.size ≤ j
  · rw [test_of_size_le hj, Bool.true_or]
    exact test_of_size_le hj
  · rw [test_eq (by simpa using hj), test_eq (by omega)]
    dsimp only
    by_cases hb : j / 8 = i / 8
    · rw [if_pos hb, BitVec.getLsbD_or,
        one_shl_getLsbD (Nat.mod_lt _ (by norm_num))]
      congr 2
      rw [eq_iff_iff]
      omega
    · rw [if_neg hb, decide_eq_false (by rintro rfl; exact hb rfl), Bool.or_false]

/-- A bit that is cleared. -/
theorem test_clear (bm : Bitmap) (j : ℕ) (h : i < bm.size) :
    (bm.clear i).test j = (bm.test j && !decide (j = i)) := by
  rw [clear, if_neg (by omega)]
  by_cases hj : bm.size ≤ j
  · rw [test_of_size_le hj, decide_eq_false (by omega)]
    exact test_of_size_le hj
  · rw [test_eq (by simpa using hj), test_eq (by omega)]
    dsimp only
    by_cases hb : j / 8 = i / 8
    · rw [if_pos hb, BitVec.getLsbD_and, BitVec.getLsbD_not,
        one_shl_getLsbD (Nat.mod_lt _ (by norm_num)),
        decide_eq_true (Nat.mod_lt j (by norm_num : 0 < 8)), Bool.true_and]
      congr 3
      rw [eq_iff_iff]
      omega
    · rw [if_neg hb, decide_eq_false (by rintro rfl; exact hb rfl), Bool.not_false, Bool.and_true]

@[simp] theorem set_size (bm : Bitmap) (i : ℕ) : (bm.set i).size = bm.size := by
  rw [set]
  split <;> rfl

@[simp] theorem clear_size (bm : Bitmap) (i : ℕ) : (bm.clear i).size = bm.size := by
  rw [clear]
  split <;> rfl

/-- The search gives the least clear bit of its range. -/
theorem findLoop_spec : ∀ n i, match bm.findLoop n i with
    | none => ∀ j, i ≤ j → j < i + n → bm.test j = true
    | some p => i ≤ p ∧ p < i + n ∧ bm.test p = false ∧ ∀ j, i ≤ j → j < p → bm.test j = true := by
  intro n
  induction n with
  | zero =>
    intro i j h1 h2
    omega
  | succ n ih =>
    intro i
    rw [findLoop]
    by_cases ht : bm.test i = false
    · rw [if_pos ht]
      exact ⟨le_rfl, by omega, ht, fun j h1 h2 => absurd h1 (by omega)⟩
    · rw [if_neg ht]
      rw [Bool.not_eq_false] at ht
      have hi := ih (i + 1)
      split at hi
      · intro j h1 h2
        rcases h1.eq_or_lt with rfl | h1
        · exact ht
        · exact hi j h1 (by omega)
      · obtain ⟨h1, h2, h3, h4⟩ := hi
        refine ⟨by omega, by omega, h3, fun j hj1 hj2 => ?_⟩
        rcases hj1.eq_or_lt with rfl | hj1
        · exact ht
        · exact h4 j hj1 hj2

end Bitmap

/-! ## The invariant -/

/-- The free pages. -/
def State.freeSet (s : State) : Finset ℕ :=
  (Finset.range s.managedPages).filter fun page => s.bitmap.test page = false

theorem mem_freeSet : page ∈ s.freeSet ↔ s.isFree page := by
  rw [State.freeSet, Finset.mem_filter, Finset.mem_range, State.isFree]

/-- **The invariant of the allocator.** -/
structure Inv (s : State) : Prop where
  size : s.bitmap.size = s.managedPages
  managed : s.managedPages ≤ maxPages
  count : s.freePages = s.freeSet.card

theorem inv_unset : Inv unset := ⟨rfl, by decide, rfl⟩

theorem Inv.card_le (h : Inv s) : s.freeSet.card ≤ 131072 := by
  have h1 : s.freeSet.card ≤ s.managedPages :=
    (Finset.card_filter_le _ _).trans (Finset.card_range _).le
  exact h1.trans h.managed

/-- What a step leaves: the invariant, over the same pages, with `free` the
free ones. -/
structure Leaves (s s' : State) (free : Finset ℕ) : Prop where
  inv : Inv s'
  managed : s'.managedPages = s.managedPages
  freeSet : s'.freeSet = free

theorem Inv.usePage (h : Inv s) (page : ℕ) : Leaves s (s.usePage page) (s.freeSet.erase page) := by
  rw [State.usePage]
  split
  · rename_i ht
    have hlt : page < s.managedPages := by
      by_contra hle
      rw [Bitmap.test_of_size_le (by rw [h.size]; omega)] at ht
      exact absurd ht (by simp)
    have hmem : page ∈ s.freeSet := mem_freeSet.mpr ⟨hlt, ht⟩
    have hpos := Finset.card_pos.mpr ⟨page, hmem⟩
    have hset : State.freeSet { s with
        bitmap := s.bitmap.set page
        freePages := if 0 < s.freePages then s.freePages - 1 else s.freePages } =
        s.freeSet.erase page := by
      ext q
      rw [mem_freeSet, Finset.mem_erase, mem_freeSet, State.isFree, State.isFree, Bitmap.test_set]
      by_cases hq : q = page <;> simp [hq]
    refine ⟨⟨by simpa using h.size, h.managed, ?_⟩, rfl, hset⟩
    rw [hset, Finset.card_erase_of_mem hmem]
    have hc := h.count
    simp only
    rw [if_pos (by omega)]
    omega
  · rename_i ht
    have hnm : page ∉ s.freeSet := fun hm => ht (mem_freeSet.mp hm).2
    exact ⟨h, rfl, (Finset.erase_eq_of_notMem hnm).symm⟩

theorem Inv.releasePage (h : Inv s) (hlt : page < s.managedPages) :
    Leaves s (s.releasePage page) (insert page s.freeSet) := by
  rw [State.releasePage]
  split
  · rename_i ht
    have hnm : page ∉ s.freeSet := by
      intro hm
      rw [(mem_freeSet.mp hm).2] at ht
      exact absurd ht (by simp)
    have hset : State.freeSet { s with
        bitmap := s.bitmap.clear page, freePages := (s.freePages + 1) % 2 ^ 64 } =
        insert page s.freeSet := by
      ext q
      rw [mem_freeSet, Finset.mem_insert, mem_freeSet, State.isFree, State.isFree,
        Bitmap.test_clear _ _ (by rw [h.size]; exact hlt)]
      by_cases hq : q = page <;> simp [hq, hlt]
    refine ⟨⟨by simpa using h.size, h.managed, ?_⟩, rfl, hset⟩
    have hcard := h.card_le
    rw [hset, Finset.card_insert_of_notMem hnm]
    simp only [h.count]
    exact Nat.mod_eq_of_lt (by omega)
  · rename_i ht
    rw [Bool.not_eq_true] at ht
    exact ⟨h, rfl, (Finset.insert_eq_of_mem (mem_freeSet.mpr ⟨hlt, ht⟩)).symm⟩

theorem useLoop_leaves : ∀ (n page : ℕ) (s : State), Inv s →
    Leaves s (State.useLoop n page s) (s.freeSet \ Finset.Ico page (page + n)) := by
  intro n
  induction n with
  | zero =>
    intro page s h
    exact ⟨h, rfl, by simp [State.useLoop]⟩
  | succ n ih =>
    intro page s h
    rw [State.useLoop]
    split
    · -- past the managed pages there is nothing to use
      rename_i hle
      refine ⟨h, rfl, ?_⟩
      rw [Finset.sdiff_eq_self_iff_disjoint.mpr]
      rw [Finset.disjoint_left]
      intro q hq hq'
      have := (mem_freeSet.mp hq).1
      rw [Finset.mem_Ico] at hq'
      omega
    · have h1 := h.usePage page
      have h2 := ih (page + 1) _ h1.inv
      refine ⟨h2.inv, h2.managed.trans h1.managed, ?_⟩
      rw [h2.freeSet, h1.freeSet]
      ext q
      simp only [Finset.mem_sdiff, Finset.mem_erase, Finset.mem_Ico]
      constructor
      · rintro ⟨⟨hne, hq⟩, hn⟩
        exact ⟨hq, by omega⟩
      · rintro ⟨hq, hn⟩
        exact ⟨⟨by omega, hq⟩, by omega⟩

theorem releaseLoop_leaves : ∀ (n page : ℕ) (s : State), Inv s → page + n ≤ s.managedPages ∨ n = 0 →
    Leaves s (State.releaseLoop n page s) (s.freeSet ∪ Finset.Ico page (page + n)) := by
  intro n
  induction n with
  | zero =>
    intro page s h _
    exact ⟨h, rfl, by simp [State.releaseLoop]⟩
  | succ n ih =>
    intro page s h hle
    have hlt : page < s.managedPages := by omega
    rw [State.releaseLoop, if_neg (by omega)]
    have h1 := h.releasePage hlt
    have h2 := ih (page + 1) _ h1.inv (by rw [h1.managed]; omega)
    refine ⟨h2.inv, h2.managed.trans h1.managed, ?_⟩
    rw [h2.freeSet, h1.freeSet]
    ext q
    simp only [Finset.mem_union, Finset.mem_insert, Finset.mem_Ico]
    constructor
    · rintro ((rfl | hq) | hq)
      · exact .inr (by omega)
      · exact .inl hq
      · exact .inr (by omega)
    · rintro (hq | hq)
      · exact .inl (.inr hq)
      · by_cases hqp : q = page
        · exact .inl (.inl hqp)
        · exact .inr (by omega)

/-- **`mark_used`** uses the pages from the rounded start to the rounded
end. -/
theorem Inv.markUsed (h : Inv s) (start stop : ℕ) : Leaves s (s.markUsed start stop)
    (s.freeSet.filter fun page =>
      ¬ (start / pageSize ≤ page ∧ page < (stop + (pageSize - 1)) % 2 ^ 64 / pageSize)) := by
  have hd : pageAlignDown start / pageSize = start / pageSize := Nat.mul_div_cancel _ (by norm_num)
  have hu : pageAlignUp stop / pageSize = (stop + (pageSize - 1)) % 2 ^ 64 / pageSize :=
    Nat.mul_div_cancel _ (by norm_num)
  have hl := useLoop_leaves
    (min (pageAlignUp stop / pageSize) s.managedPages - pageAlignDown start / pageSize)
    (pageAlignDown start / pageSize) s h
  refine ⟨hl.inv, hl.managed, hl.freeSet.trans ?_⟩
  rw [hd, hu]
  ext q
  simp only [Finset.mem_sdiff, Finset.mem_filter, Finset.mem_Ico]
  refine and_congr_right fun hq => not_congr ?_
  have := (mem_freeSet.mp hq).1
  omega

/-- **`mark_free`** frees the pages from the rounded start to the rounded
end. -/
theorem Inv.markFree (h : Inv s) (start stop : ℕ) : Leaves s (s.markFree start stop)
    (s.freeSet ∪ (Finset.range s.managedPages).filter fun page =>
      (start + (pageSize - 1)) % 2 ^ 64 / pageSize ≤ page ∧ page < stop / pageSize) := by
  have hd : pageAlignDown stop / pageSize = stop / pageSize := Nat.mul_div_cancel _ (by norm_num)
  have hu : pageAlignUp start / pageSize = (start + (pageSize - 1)) % 2 ^ 64 / pageSize :=
    Nat.mul_div_cancel _ (by norm_num)
  have hl := releaseLoop_leaves
    (min (pageAlignDown stop / pageSize) s.managedPages - pageAlignUp start / pageSize)
    (pageAlignUp start / pageSize) s h (by omega)
  refine ⟨hl.inv, hl.managed, hl.freeSet.trans ?_⟩
  rw [hd, hu]
  ext q
  simp only [Finset.mem_union, Finset.mem_filter, Finset.mem_Ico, Finset.mem_range]
  refine or_congr Iff.rfl ?_
  omega

/-- **`bitmap_allocator_init`** leaves no page free. -/
theorem init_leaves {pages : ℕ} (h : s.init pages = some s') :
    Inv s' ∧ s'.managedPages = pages ∧ pages ≤ maxPages ∧ s'.freeSet = ∅ := by
  rw [State.init] at h
  split at h
  · exact absurd h (by simp)
  rename_i hle
  have hle : pages ≤ maxPages := by omega
  cases h
  have hbytes : (maxPages + 7) / 8 % 2 ^ 32 = 16384 := by norm_num
  have hempty : State.freeSet ⟨{ (Bitmap.mk s.bitmap.bits maxPages).setAll true with size := pages },
      pages, 0⟩ = ∅ := by
    rw [Finset.eq_empty_iff_forall_notMem]
    intro q hq
    obtain ⟨hlt, ht⟩ := mem_freeSet.mp hq
    rw [Bitmap.test_eq hlt] at ht
    have hin : q / 8 < 16384 := by
      have : q < 131072 := lt_of_lt_of_le hlt hle
      omega
    have hff : ∀ k < 8, (0xff#8).getLsbD k = true := by decide
    simp only [Bitmap.setAll, hbytes, if_pos hin, if_true] at ht
    rw [hff _ (Nat.mod_lt _ (by norm_num))] at ht
    exact absurd ht (by simp)
  exact ⟨⟨rfl, hle, by rw [hempty]; rfl⟩, rfl, hle, hempty⟩

/-- **`bitmap_alloc_page`** takes the least free page, and fails exactly if
there is none. -/
theorem Inv.allocPage (h : Inv s) :
    (s.freeSet = ∅ ∧ s.allocPage = (invalidAddr, s)) ∨
      ∃ page s', s.allocPage = (page * pageSize, s') ∧ page ∈ s.freeSet ∧
        (∀ q < page, q ∉ s.freeSet) ∧ Leaves s s' (s.freeSet.erase page) ∧
        s'.freePages + 1 = s.freePages ∧ s'.bitmap = s.bitmap.set page := by
  have hspec := s.bitmap.findLoop_spec s.bitmap.size 0
  rw [State.allocPage, Bitmap.findFirstClear]
  cases hf : s.bitmap.findLoop s.bitmap.size 0 with
  | none =>
    rw [hf] at hspec
    refine .inl ⟨?_, rfl⟩
    rw [Finset.eq_empty_iff_forall_notMem]
    intro q hq
    obtain ⟨hlt, ht⟩ := mem_freeSet.mp hq
    rw [hspec q (Nat.zero_le _) (by rw [h.size]; omega)] at ht
    exact absurd ht (by simp)
  | some page =>
    rw [hf] at hspec
    obtain ⟨-, hlt, ht, hmin⟩ := hspec
    rw [h.size, Nat.zero_add] at hlt
    have hmem : page ∈ s.freeSet := mem_freeSet.mpr ⟨hlt, ht⟩
    have hpos := Finset.card_pos.mpr ⟨page, hmem⟩
    have hcard := h.card_le
    have hmax : page < 131072 := lt_of_lt_of_le hlt h.managed
    have hu := h.usePage page
    -- the state is that of `usePage`, but for how the counter is written
    have hsub : (s.freePages + (2 ^ 64 - 1)) % 2 ^ 64 = s.freePages - 1 := by
      have := h.count
      omega
    have heq : s.usePage page = { s with
        bitmap := s.bitmap.set page, freePages := (s.freePages + (2 ^ 64 - 1)) % 2 ^ 64 } := by
      rw [State.usePage, if_pos ht, hsub, if_pos (by rw [h.count]; exact hpos)]
    refine .inr ⟨page, s.usePage page, ?_, hmem, fun q hq hqm => ?_, hu, ?_, by rw [heq]⟩
    · have hmod : page * pageSize % 2 ^ 64 = page * pageSize :=
        Nat.mod_eq_of_lt (by simp only [pageSize]; omega)
      rw [heq]
      dsimp only
      rw [hmod]
    · have := (mem_freeSet.mp hqm).2
      rw [hmin q (Nat.zero_le _) hq] at this
      exact absurd this (by simp)
    · rw [heq]
      simp only [hsub]
      have := h.count
      omega

/-- **`bitmap_free_page`** frees a managed page. -/
theorem Inv.freePage (h : Inv s) (addr : ℕ) : Leaves s (s.freePage addr)
    (s.freeSet ∪ (Finset.range s.managedPages).filter fun page => page * pageSize = addr) := by
  have hsame : (∀ page < s.managedPages, page * pageSize ≠ addr) →
      s.freeSet = s.freeSet ∪ (Finset.range s.managedPages).filter fun page => page * pageSize = addr := by
    intro hno
    rw [Finset.filter_eq_empty_iff.mpr fun page hp => hno page (Finset.mem_range.mp hp),
      Finset.union_empty]
  rw [State.freePage]
  split
  · rename_i hinv
    refine ⟨h, rfl, hsame fun page _ he => ?_⟩
    rw [hinv] at he
    simp only [pageSize, invalidAddr] at he
    omega
  split
  · rename_i hmod
    refine ⟨h, rfl, hsame fun page _ he => hmod ?_⟩
    rw [← he, Nat.mul_mod_left]
  split
  · rename_i hle
    refine ⟨h, rfl, hsame fun page hp he => ?_⟩
    rw [← he, Nat.mul_div_cancel _ (by norm_num)] at hle
    omega
  · rename_i hmod hle
    have hr : Leaves s (s.releasePage (addr / pageSize)) _ := h.releasePage (by omega)
    refine ⟨hr.inv, hr.managed, hr.freeSet.trans ?_⟩
    have hone : (Finset.range s.managedPages).filter (fun page => page * pageSize = addr)
        = {addr / pageSize} := by
      ext q
      simp only [Finset.mem_filter, Finset.mem_range, Finset.mem_singleton, pageSize] at *
      omega
    rw [hone, Finset.union_comm]
    rfl

/-! ## Every sequence of calls -/

/-- The calls, with 64-bit arguments. -/
inductive Op
  | init (pages : UInt64)
  | markUsed (start stop : UInt64)
  | markFree (start stop : UInt64)
  | allocPage
  | freePage (addr : UInt64)

/-- The allocator, and the pages that `alloc_page` has returned and no
`free_page` or `mark_free` has covered since. -/
structure Traced where
  pmm : State
  out : Finset ℕ

/-- The range `[start, stop)` covers the page. -/
def covers (start stop page : ℕ) : Prop := start ≤ page * pageSize ∧ (page + 1) * pageSize ≤ stop

instance (start stop page : ℕ) : Decidable (covers start stop page) := inferInstanceAs (Decidable (_ ∧ _))

/-- One call. -/
def Traced.step (x : Traced) : Op → Traced
  | .init pages => { x with pmm := (x.pmm.init pages.toNat).getD x.pmm }
  | .markUsed start stop => { x with pmm := x.pmm.markUsed start.toNat stop.toNat }
  | .markFree start stop =>
    ⟨x.pmm.markFree start.toNat stop.toNat,
      x.out.filter fun page => ¬ covers start.toNat stop.toNat page⟩
  | .allocPage =>
    ⟨x.pmm.allocPage.2, if x.pmm.allocPage.1 = invalidAddr then x.out
      else insert (x.pmm.allocPage.1 / pageSize) x.out⟩
  | .freePage addr =>
    ⟨x.pmm.freePage addr.toNat, x.out.filter fun page => page * pageSize ≠ addr.toNat⟩

/-- The allocator under any sequence of calls. -/
def allocator : System Traced Op where
  init x := x = ⟨unset, ∅⟩
  step x op x' := x.step op = x'

variable {x x' : Traced}

/-- Every call keeps the invariant, whatever its arguments. -/
theorem inv_step (h : Inv x.pmm) (op : Op) : Inv (x.step op).pmm := by
  cases op with
  | init pages =>
    rcases hi : x.pmm.init pages.toNat with _ | s
    · simpa [Traced.step, hi] using h
    · simpa [Traced.step, hi] using (init_leaves hi).1
  | markUsed start stop => exact (h.markUsed _ _).inv
  | markFree start stop => exact (h.markFree _ _).inv
  | allocPage =>
    rcases h.allocPage with ⟨-, hr⟩ | ⟨page, s', hr, -, -, hl, -⟩
    · simpa [Traced.step, hr] using h
    · simpa [Traced.step, hr] using hl.inv
  | freePage addr => exact (h.freePage _).inv

theorem inv_reachable (h : allocator.Reachable x) : Inv x.pmm := by
  refine h.invariant (P := fun x => Inv x.pmm) ?_ ?_
  · rintro _ rfl
    exact inv_unset
  · rintro x op _ - I rfl
    exact inv_step I op

/-- The start of a `mark_free` is not rounded up past the end of the address
space, or the call frees nothing. -/
def RoundsUp : Traced → Op → Prop
  | _, .markFree start stop => start.toNat + (pageSize - 1) < 2 ^ 64 ∨ stop.toNat < pageSize
  | _, _ => True

/-- Pages that are out are in use. -/
theorem out_step (h : Inv x.pmm) (ho : ∀ page ∈ x.out, page ∉ x.pmm.freeSet) (op : Op)
    (hr : RoundsUp x op) : ∀ page ∈ (x.step op).out, page ∉ (x.step op).pmm.freeSet := by
  cases op with
  | init pages =>
    rcases hi : x.pmm.init pages.toNat with _ | s
    · simpa [Traced.step, hi] using ho
    · simp [Traced.step, hi, (init_leaves hi).2.2.2]
  | markUsed start stop =>
    intro page hp
    rw [Traced.step, (h.markUsed _ _).freeSet, Finset.mem_filter]
    exact fun hm => ho page hp hm.1
  | markFree start stop =>
    intro page hp
    obtain ⟨hpo, hnc⟩ := Finset.mem_filter.mp hp
    rw [Traced.step, (h.markFree _ _).freeSet, Finset.mem_union, Finset.mem_filter]
    rintro (hm | ⟨-, h1, h2⟩)
    · exact ho page hpo hm
    · refine hnc ?_
      simp only [RoundsUp, covers, pageSize] at hr h1 h2 ⊢
      omega
  | allocPage =>
    rcases h.allocPage with ⟨-, hr⟩ | ⟨page, s', hr, -, -, hl, -⟩
    · simpa [Traced.step, hr] using ho
    · have hdiv : page * pageSize / pageSize = page := Nat.mul_div_cancel _ (by norm_num)
      simp only [Traced.step, hr, hdiv, hl.freeSet]
      intro q hq
      split at hq
      · exact fun hm => ho q hq (Finset.mem_of_mem_erase hm)
      · rcases Finset.mem_insert.mp hq with rfl | hq
        · exact Finset.notMem_erase _ _
        · exact fun hm => ho q hq (Finset.mem_of_mem_erase hm)
  | freePage addr =>
    intro page hp
    obtain ⟨hpo, hne⟩ := Finset.mem_filter.mp hp
    rw [Traced.step, (h.freePage _).freeSet, Finset.mem_union, Finset.mem_filter]
    rintro (hm | ⟨-, he⟩)
    · exact ho page hpo hm
    · exact hne he

/-- **The allocator is sound** in every run whose `mark_free` calls round
their start up without wrapping. `free_pages` is the number of clear bits;
`alloc_page` fails exactly if there is none, and otherwise takes the least
one off, which is not out. -/
theorem alloc_page_sound (h : (allocator.restrict RoundsUp).Reachable x) :
    x.pmm.freePages = ((Finset.range x.pmm.managedPages).filter fun page =>
      x.pmm.bitmap.test page = false).card ∧
    (((∀ page < x.pmm.managedPages, x.pmm.bitmap.test page = true) ∧
        x.pmm.allocPage = (invalidAddr, x.pmm)) ∨
      ∃ page s', x.pmm.allocPage = (page * pageSize, s') ∧ page < x.pmm.managedPages ∧
        x.pmm.bitmap.test page = false ∧ (∀ q < page, x.pmm.bitmap.test q = true) ∧
        (∀ q, s'.bitmap.test q = (x.pmm.bitmap.test q || decide (q = page))) ∧
        s'.freePages + 1 = x.pmm.freePages ∧ page ∉ x.out) := by
  have hI : Inv x.pmm := inv_reachable h.of_restrict
  have hout : ∀ page ∈ x.out, page ∉ x.pmm.freeSet := by
    refine h.invariant (P := fun x => ∀ page ∈ x.out, page ∉ x.pmm.freeSet) ?_ ?_
    · rintro _ rfl
      simp
    · rintro x op _ hx ho ⟨hr, rfl⟩
      exact out_step (inv_reachable hx.of_restrict) ho op hr
  refine ⟨hI.count, ?_⟩
  rcases hI.allocPage with ⟨hempty, hr⟩ | ⟨page, s', hr, hmem, hmin, hl, hcount, hbm⟩
  · refine .inl ⟨fun page hp => ?_, hr⟩
    by_contra ht
    rw [Bool.not_eq_true] at ht
    have : page ∈ x.pmm.freeSet := mem_freeSet.mpr ⟨hp, ht⟩
    rw [hempty] at this
    exact absurd this (by simp)
  · obtain ⟨hlt, ht⟩ := mem_freeSet.mp hmem
    refine .inr ⟨page, s', hr, hlt, ht, fun q hq => ?_, fun q => by rw [hbm, Bitmap.test_set],
      hcount, fun ho => hout page ho hmem⟩
    by_contra hq'
    rw [Bool.not_eq_true] at hq'
    exact hmin q hq (mem_freeSet.mpr ⟨hq.trans hlt, hq'⟩)

/-- Calls that are taken in turn. -/
theorem reachable_foldl {C : Traced → Op → Prop} (l : List Op) :
    ∀ x, (allocator.restrict C).Reachable x →
      (∀ k, (hk : k < l.length) → C ((l.take k).foldl Traced.step x) l[k]) →
      (allocator.restrict C).Reachable (l.foldl Traced.step x) := by
  induction l with
  | nil =>
    intro x h _
    exact h
  | cons op l ih =>
    intro x h hC
    refine ih _ (h.step ⟨hC 0 (by simp), rfl⟩) fun k hk => ?_
    exact hC (k + 1) (by simpa using hk)

/-- Two pages are freed and one is taken. -/
def twoRun : List Op := [.init 2, .markFree 0 8192, .allocPage]

theorem alloc_page_sound_two :
    ∃ s', (twoRun.foldl Traced.step ⟨unset, ∅⟩).pmm.allocPage = (4096, s') := by
  have hr : (allocator.restrict RoundsUp).Reachable (twoRun.foldl Traced.step ⟨unset, ∅⟩) := by
    refine reachable_foldl _ _ (.init rfl) fun k hk => ?_
    have hk : k < 3 := hk
    interval_cases k
    · exact trivial
    · exact .inl (by decide)
    · exact trivial
  rcases (alloc_page_sound hr).2 with ⟨-, h⟩ | ⟨page, s', h, hlt, ht, -⟩
  · exact absurd (congrArg Prod.fst h) (by decide +kernel)
  · have hp : page * pageSize = 4096 :=
      (congrArg Prod.fst h).symm.trans (by decide +kernel)
    exact ⟨s', by rw [h, hp]⟩

/-- Page 0 is taken, and a `mark_free` of a range that starts in the last
page of the address space frees it. -/
def wrapRun : List Op :=
  [.init 1, .markFree 0 4096, .allocPage, .markFree 0xffffffffffffffff 4096]

/-- `alloc_page` returns page 0 again, which nothing has covered. -/
theorem page_returned_twice : ¬ ∀ x, allocator.Reachable x → x.pmm.allocPage.1 ≠ invalidAddr →
    x.pmm.allocPage.1 / pageSize ∉ x.out := by
  intro hall
  have hr : allocator.Reachable (wrapRun.foldl Traced.step ⟨unset, ∅⟩) :=
    (reachable_foldl (C := fun _ _ => True) _ _ (.init rfl) fun _ _ => trivial).of_restrict
  have hpage : (wrapRun.foldl Traced.step ⟨unset, ∅⟩).pmm.allocPage.1 = 0 := by decide +kernel
  have hout : 0 ∈ (wrapRun.foldl Traced.step ⟨unset, ∅⟩).out := by decide +kernel
  have := hall _ hr (by rw [hpage]; decide)
  rw [hpage, Nat.zero_div] at this
  exact this hout

end Pmm

end Csos

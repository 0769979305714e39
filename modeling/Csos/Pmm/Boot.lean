import Csos.Pmm.Allocator
/-!
# Physical memory — after boot

What `init_pmm` leaves free: the whole pages inside usable regions of the
memory map, less those that meet page 0, the kernel image, the boot
information or the map itself. From it follows whether a later `alloc_page`
can hand out the page that `start_one_ap` copies the trampoline to: that
page is reserved nowhere, so it can whenever the firmware reports it as
usable.
-/

namespace Csos

namespace Pmm

variable {s s' : State} {mem : Bytes} {boot : BootInfo} {page : ℕ}

/-- The bounds of the kernel image, as the linker script places them: it is
not empty, and ends below the last page of the address space. -/
structure KernelImage where
  bootstrapStart : ℕ
  kernelPhysEnd : ℕ
  nonempty : bootstrapStart < kernelPhysEnd
  end_lt : kernelPhysEnd + pageSize ≤ 2 ^ 64

/-- The descriptors of the memory map. -/
def descriptors (mem : Bytes) (boot : BootInfo) : List Descriptor :=
  (List.range (boot.memoryMapSize / boot.descriptorSize)).map fun k =>
    descriptorAt mem (boot.memoryMap + k * boot.descriptorSize)

/-- A memory map as the firmware gives it. -/
structure WellFormed (mem : Bytes) (boot : BootInfo) : Prop where
  region : ∀ d ∈ descriptors mem boot, d.physicalStart + d.numberOfPages * pageSize < 2 ^ 63
  map : boot.memoryMap + boot.memoryMapSize < 2 ^ 63
  size : 40 ≤ boot.descriptorSize
  dvd : boot.descriptorSize ∣ boot.memoryMapSize

/-- The largest end of a usable region. -/
def usableEnd (l : List Descriptor) : ℕ :=
  ((l.filter fun d => regionIsUsable d.type).map
    fun d => d.physicalStart + d.numberOfPages * pageSize).foldr max 0

/-- Some address of the page is in `[start, stop)`. -/
def meets (start stop page : ℕ) : Prop :=
  ∃ addr, start ≤ addr ∧ addr < stop ∧ page * pageSize ≤ addr ∧ addr < (page + 1) * pageSize

/-- The whole page is in a usable region. -/
def usable (mem : Bytes) (boot : BootInfo) (page : ℕ) : Prop :=
  ∃ d ∈ descriptors mem boot, regionIsUsable d.type ∧
    covers d.physicalStart (d.physicalStart + d.numberOfPages * pageSize) page

/-- The page holds something that is in use from the start on. -/
def reserved (boot : BootInfo) (image : KernelImage) (page : ℕ) : Prop :=
  page = 0 ∨ meets image.bootstrapStart image.kernelPhysEnd page ∨
    meets bootInfoAddr (bootInfoAddr + pageSize) page ∨
    meets boot.memoryMap (boot.memoryMap + boot.memoryMapSize) page

theorem meets_iff {start stop : ℕ} (h : start < stop) :
    meets start stop page ↔ start / pageSize ≤ page ∧ page * pageSize < stop := by
  simp only [pageSize]
  constructor
  · rintro ⟨addr, h1, h2, h3, h4⟩
    simp only [pageSize] at h3 h4
    omega
  · rintro ⟨h1, h2⟩
    refine ⟨max start (page * 4096), by omega, by omega, ?_, ?_⟩ <;> simp only [pageSize] <;> omega

/-! ## The two passes -/

/-- The loop visits the descriptors in turn. -/
theorem overMap_eq {α : Type} {f : α → Descriptor → α} {step stop : ℕ} (hstep : 0 < step)
    (hstop : stop < 2 ^ 64) : ∀ (n fuel ptr : ℕ) (acc : α), n ≤ fuel → stop = ptr + n * step →
    overMap mem step stop f fuel ptr acc =
      ((List.range n).map fun k => descriptorAt mem (ptr + k * step)).foldl f acc := by
  intro n
  induction n with
  | zero =>
    intro fuel ptr acc _ hs
    cases fuel with
    | zero => rfl
    | succ fuel =>
      rw [overMap, if_neg (by omega)]
      rfl
  | succ n ih =>
    intro fuel ptr acc hf hs
    obtain ⟨fuel, rfl⟩ : ∃ k, fuel = k + 1 := ⟨fuel - 1, by omega⟩
    rw [Nat.succ_mul] at hs
    rw [overMap, if_pos (by omega), Nat.mod_eq_of_lt (by omega),
      ih fuel (ptr + step) _ (by omega) (by omega), List.range_succ_eq_map, List.map_cons,
      List.foldl_cons, List.map_map, Nat.zero_mul, Nat.add_zero]
    congr 1
    refine List.map_congr_left fun k _ => ?_
    rw [Function.comp_apply, Nat.succ_mul]
    congr 1
    omega

/-- Both passes run over the descriptors of the map. -/
theorem WellFormed.overMap (h : WellFormed mem boot) {α : Type} (f : α → Descriptor → α) (acc : α) :
    Pmm.overMap mem boot.descriptorSize ((boot.memoryMap + boot.memoryMapSize) % 2 ^ 64) f
      boot.memoryMapSize boot.memoryMap acc = (descriptors mem boot).foldl f acc := by
  have hsize := h.size
  have hmap := h.map
  rw [Nat.mod_eq_of_lt (by omega)]
  exact overMap_eq (by omega) (by omega) _ _ _ _ (Nat.div_le_self _ _)
    (by rw [Nat.div_mul_cancel h.dvd])

theorem regionEnd_eq {d : Descriptor} (h : d.physicalStart + d.numberOfPages * pageSize < 2 ^ 63) :
    d.regionEnd = d.physicalStart + d.numberOfPages * pageSize := by
  simp only [Descriptor.regionEnd, pageSize] at *
  omega

/-- The first pass finds the largest end. -/
theorem foldl_growEnd : ∀ (l : List Descriptor) (acc : ℕ),
    (∀ d ∈ l, d.physicalStart + d.numberOfPages * pageSize < 2 ^ 63) →
    l.foldl growEnd acc = max acc (usableEnd l) := by
  intro l
  induction l with
  | nil =>
    intro acc _
    exact (Nat.max_zero acc).symm
  | cons d l ih =>
    intro acc h
    have hd := regionEnd_eq (h d (by simp))
    rw [List.foldl_cons, ih _ fun d hd => h d (by simp [hd]), growEnd, hd, usableEnd, usableEnd,
      List.filter_cons]
    by_cases hu : regionIsUsable d.type
    · simp only [hu, true_and, if_true, List.map_cons, List.foldr_cons]
      split <;> omega
    · simp [hu]

/-- The second pass frees the whole pages of usable regions. -/
theorem foldl_releaseRegion : ∀ (l : List Descriptor) (s : State), Inv s →
    (∀ d ∈ l, d.physicalStart + d.numberOfPages * pageSize < 2 ^ 63) →
    Inv (l.foldl releaseRegion s) ∧
      (l.foldl releaseRegion s).managedPages = s.managedPages ∧
      ∀ page, page ∈ (l.foldl releaseRegion s).freeSet ↔
        page ∈ s.freeSet ∨ page < s.managedPages ∧ ∃ d ∈ l, regionIsUsable d.type ∧
          covers d.physicalStart (d.physicalStart + d.numberOfPages * pageSize) page := by
  intro l
  induction l with
  | nil =>
    intro s h _
    exact ⟨h, rfl, by simp⟩
  | cons d l ih =>
    intro s h hl
    have hd := hl d (by simp)
    rw [List.foldl_cons, releaseRegion, regionEnd_eq hd]
    by_cases hu : regionIsUsable d.type
    · rw [if_pos hu]
      have h1 := h.markFree d.physicalStart (d.physicalStart + d.numberOfPages * pageSize)
      obtain ⟨h2, h3, h4⟩ := ih _ h1.inv fun d hd => hl d (by simp [hd])
      refine ⟨h2, h3.trans h1.managed, fun page => ?_⟩
      -- rounding the start up and the end down leaves the pages inside
      have hround : (d.physicalStart + (pageSize - 1)) % 2 ^ 64 / pageSize ≤ page ∧
          page < (d.physicalStart + d.numberOfPages * pageSize) / pageSize ↔
          covers d.physicalStart (d.physicalStart + d.numberOfPages * pageSize) page := by
        simp only [covers, pageSize] at *
        omega
      rw [h4, h1.freeSet, h1.managed, Finset.mem_union, Finset.mem_filter, Finset.mem_range, hround]
      simp only [List.mem_cons, exists_eq_or_imp, hu, true_and]
      rw [or_assoc, ← and_or_left]
    · rw [if_neg hu]
      obtain ⟨h2, h3, h4⟩ := ih s h fun d hd => hl d (by simp [hd])
      refine ⟨h2, h3, fun page => ?_⟩
      rw [h4]
      simp [hu]

/-- `mark_used` of a range, rounded or not, uses the pages it meets. -/
theorem Inv.mem_markUsed (h : Inv s) {start stop start' stop' : ℕ} (hlt : start < stop)
    (hs : start' / pageSize = start / pageSize)
    (he : (stop' + (pageSize - 1)) % 2 ^ 64 / pageSize = (stop + (pageSize - 1)) / pageSize) :
    page ∈ (s.markUsed start' stop').freeSet ↔ page ∈ s.freeSet ∧ ¬ meets start stop page := by
  rw [(h.markUsed start' stop').freeSet, Finset.mem_filter, hs, he, meets_iff hlt]
  refine and_congr_right fun _ => not_congr (and_congr_right fun _ => ?_)
  simp only [pageSize]
  omega

theorem descriptors_eq_nil (h : boot.memoryMapSize = 0) : descriptors mem boot = [] := by
  rw [descriptors, h, Nat.zero_div]
  rfl

/-- What `init_pmm` leaves. -/
theorem WellFormed.initPmm (hw : WellFormed mem boot) (image : KernelImage)
    (h : initPmm s mem boot image.bootstrapStart image.kernelPhysEnd = some s') :
    Inv s' ∧ s'.managedPages = min (usableEnd (descriptors mem boot)) maxPhys / pageSize ∧
      ∀ page, page ∈ s'.freeSet ↔
        page < s'.managedPages ∧ usable mem boot page ∧ ¬ reserved boot image page := by
  have hsize := hw.size
  have hmap := hw.map
  have hend := image.end_lt
  rw [Pmm.initPmm] at h
  split at h
  · exact absurd h (by simp)
  simp only [hw.overMap] at h
  rw [foldl_growEnd _ _ hw.region, Nat.zero_max] at h
  split at h
  · exact absurd h (by simp)
  rename_i s₀ hs₀
  obtain ⟨h0, hm0, -, he0⟩ := init_leaves hs₀
  obtain ⟨h1, hm1, hf1⟩ := foldl_releaseRegion (descriptors mem boot) s₀ h0 hw.region
  set s₁ := (descriptors mem boot).foldl releaseRegion s₀
  have h2 := h1.markUsed 0 pageSize
  set s₂ := s₁.markUsed 0 pageSize
  have h3 := h2.inv.markUsed (pageAlignDown image.bootstrapStart) (pageAlignUp image.kernelPhysEnd)
  set s₃ := s₂.markUsed (pageAlignDown image.bootstrapStart) (pageAlignUp image.kernelPhysEnd)
  have h4 := h3.inv.markUsed bootInfoAddr (bootInfoAddr + pageSize)
  set s₄ := s₃.markUsed bootInfoAddr (bootInfoAddr + pageSize)
  have h5 := h4.inv.markUsed boot.memoryMap ((boot.memoryMap + boot.memoryMapSize) % 2 ^ 64)
  have hmanaged : s'.managedPages = s₀.managedPages := by
    rw [← Option.some.inj h, h5.managed, h4.managed, h3.managed, h2.managed, hm1]
  rw [← Option.some.inj h] at hmanaged ⊢
  refine ⟨h5.inv, hmanaged.trans hm0, fun page => ?_⟩
  rw [hmanaged]
  -- page 0, the image and the boot information are taken off what was freed
  have hf2 : page ∈ s₂.freeSet ↔ page ∈ s₁.freeSet ∧ ¬ meets 0 pageSize page :=
    h1.mem_markUsed (by decide) rfl (by norm_num)
  have hf3 : page ∈ s₃.freeSet ↔
      page ∈ s₂.freeSet ∧ ¬ meets image.bootstrapStart image.kernelPhysEnd page :=
    h2.inv.mem_markUsed image.nonempty (Nat.mul_div_cancel _ (by norm_num))
      (by simp only [pageAlignUp, pageSize] at hend ⊢; omega)
  have hf4 : page ∈ s₄.freeSet ↔
      page ∈ s₃.freeSet ∧ ¬ meets bootInfoAddr (bootInfoAddr + pageSize) page :=
    h3.inv.mem_markUsed (by decide) rfl (by norm_num)
  clear_value s₄ s₃ s₂ s₁
  have hzero : meets 0 pageSize page ↔ page = 0 := by
    rw [meets_iff (by decide)]
    simp only [pageSize]
    omega
  have hfree : page ∈ s₄.freeSet ↔ page < s₀.managedPages ∧ usable mem boot page ∧ page ≠ 0 ∧
      ¬ meets image.bootstrapStart image.kernelPhysEnd page ∧
      ¬ meets bootInfoAddr (bootInfoAddr + pageSize) page := by
    rw [hf4, hf3, hf2, hzero, hf1, he0]
    simp only [Finset.notMem_empty, false_or, usable, and_assoc, ne_eq]
  by_cases hnil : boot.memoryMapSize = 0
  · -- an empty map has no usable region
    have hno : ¬ usable mem boot page := by simp [usable, descriptors_eq_nil hnil]
    rw [h5.freeSet, Finset.mem_filter, hfree]
    simp only [hno, false_and, and_false]
  · have hf5 : page ∈ (s₄.markUsed boot.memoryMap
        ((boot.memoryMap + boot.memoryMapSize) % 2 ^ 64)).freeSet ↔
        page ∈ s₄.freeSet ∧ ¬ meets boot.memoryMap (boot.memoryMap + boot.memoryMapSize) page :=
      h4.inv.mem_markUsed (by omega) rfl (by simp only [pageSize]; omega)
    rw [hf5, hfree, reserved, not_or, not_or, not_or]
    simp only [and_assoc, ne_eq]

/-- **`init_pmm` frees exactly the usable memory.** -/
theorem init_pmm_frees_usable (hw : WellFormed mem boot) (image : KernelImage)
    (h : initPmm s mem boot image.bootstrapStart image.kernelPhysEnd = some s') :
    s'.managedPages = min (usableEnd (descriptors mem boot)) maxPhys / pageSize ∧
      (∀ page, s'.isFree page ↔
        page < s'.managedPages ∧ usable mem boot page ∧ ¬ reserved boot image page) ∧
      ∃ free : Finset ℕ, (∀ page, page ∈ free ↔
          page < s'.managedPages ∧ usable mem boot page ∧ ¬ reserved boot image page) ∧
        s'.freePages = free.card := by
  obtain ⟨hI, hm, hf⟩ := hw.initPmm image h
  exact ⟨hm, fun page => mem_freeSet.symm.trans (hf page), s'.freeSet, hf, hI.count⟩

/-- Sixteen pages of conventional memory from 0 on, described at `0x50000`. -/
def lowMap : Bytes := fun a => if a = 0x50000 then 7 else if a = 0x50018 then 16 else 0

/-- The boot information for it. -/
def lowBoot : BootInfo := ⟨bootInfoMagic, 0x50000, 48, 48⟩

/-- An image at 1 MiB. -/
def lowImage : KernelImage := ⟨0x100000, 0x110000, by decide, by decide⟩

theorem lowMap_wellFormed : WellFormed lowMap lowBoot where
  region := by decide
  map := by decide
  size := by decide
  dvd := by decide

theorem initPmm_lowMap_isSome :
    (initPmm unset lowMap lowBoot lowImage.bootstrapStart lowImage.kernelPhysEnd).isSome = true := by
  decide +kernel

theorem init_pmm_frees_usable_low : ∃ s',
    initPmm unset lowMap lowBoot lowImage.bootstrapStart lowImage.kernelPhysEnd = some s' ∧
      s'.managedPages = 16 := by
  obtain ⟨s', hs⟩ := Option.isSome_iff_exists.mp initPmm_lowMap_isSome
  refine ⟨s', hs, ?_⟩
  rw [(init_pmm_frees_usable lowMap_wellFormed lowImage hs).1]
  decide

/-! ## The page of the trampoline -/

/-- `SMP_TRAMPOLINE_PHYS`, where `start_one_ap` copies the trampoline. -/
abbrev smpTrampolinePhys : ℕ := 0x8000

/-- The calls after `init_pmm`. -/
inductive PageOp
  | alloc
  | free (addr : ℕ)

/-- The allocator and every address that `alloc_page` has returned. -/
structure Clients where
  pmm : State
  returned : Finset ℕ

/-- `alloc_page` and `free_page` from the state `s` on: only what was returned
is freed. -/
def pageClients (s : State) : System Clients PageOp where
  init x := x = ⟨s, ∅⟩
  step x op x' := match op with
    | .alloc => x' = ⟨x.pmm.allocPage.2, if x.pmm.allocPage.1 = invalidAddr then x.returned
        else insert x.pmm.allocPage.1 x.returned⟩
    | .free addr => addr ∈ x.returned ∧ x' = ⟨x.pmm.freePage addr, x.returned⟩

variable {x : Clients}

theorem clients_inv (hs : Inv s) (h : (pageClients s).Reachable x) : Inv x.pmm := by
  refine h.invariant (P := fun x => Inv x.pmm) ?_ ?_
  · rintro _ rfl
    exact hs
  · rintro x op x' - I hstep
    cases op with
    | alloc =>
      cases hstep
      rcases I.allocPage with ⟨-, hr⟩ | ⟨page, s', hr, -, -, hl, -⟩
      · simpa [hr] using I
      · simpa [hr] using hl.inv
    | free addr =>
      obtain ⟨-, rfl⟩ := hstep
      exact (I.freePage addr).inv

/-- A page that is not free to begin with is never handed out. -/
theorem not_returned (hs : Inv s) (hf : page ∉ s.freeSet) (h : (pageClients s).Reachable x) :
    page ∉ x.pmm.freeSet ∧ page * pageSize ∉ x.returned := by
  refine h.invariant (P := fun x => page ∉ x.pmm.freeSet ∧ page * pageSize ∉ x.returned) ?_ ?_
  · rintro _ rfl
    exact ⟨hf, Finset.notMem_empty _⟩
  · rintro x op x' hx ⟨hnf, hnr⟩ hstep
    have I := clients_inv hs hx
    cases op with
    | alloc =>
      cases hstep
      rcases I.allocPage with ⟨-, hr⟩ | ⟨q, s', hr, hmem, -, hl, -⟩
      · simpa [hr] using ⟨hnf, hnr⟩
      · have hq : page ≠ q := by
          rintro rfl
          exact hnf hmem
        rw [hr]
        refine ⟨fun hm => hnf (Finset.mem_of_mem_erase (hl.freeSet ▸ hm)), ?_⟩
        dsimp only
        split
        · exact hnr
        · rw [Finset.mem_insert]
          rintro (he | he)
          · exact hq (Nat.eq_of_mul_eq_mul_right (by norm_num) he)
          · exact hnr he
    | free addr =>
      obtain ⟨ha, rfl⟩ := hstep
      refine ⟨?_, hnr⟩
      rw [(I.freePage addr).freeSet, Finset.mem_union, Finset.mem_filter]
      rintro (hm | ⟨-, rfl⟩)
      · exact hnf hm
      · exact hnr ha

/-- A free page is handed out after enough calls: each takes the least free
page, and there are fewer of them below it. -/
theorem exists_returned (hs : Inv s) : ∀ n x, (pageClients s).Reachable x → page ∈ x.pmm.freeSet →
    (x.pmm.freeSet.filter (· < page)).card = n →
    ∃ x', (pageClients s).Reachable x' ∧ page * pageSize ∈ x'.returned := by
  intro n
  induction n using Nat.strong_induction_on with
  | _ n ih =>
    intro x hx hmem hn
    have I := clients_inv hs hx
    rcases I.allocPage with ⟨he, -⟩ | ⟨q, s', hr, hq, hmin, hl, -⟩
    · rw [he] at hmem
      exact absurd hmem (Finset.notMem_empty _)
    have hvalid : q * pageSize ≠ invalidAddr := by
      simp only [pageSize, invalidAddr]
      omega
    have hx' : (pageClients s).Reachable ⟨s', insert (q * pageSize) x.returned⟩ := by
      refine hx.step (i := .alloc) ?_
      change _ = _
      rw [hr, if_neg hvalid]
    rcases Nat.lt_trichotomy q page with hlt | rfl | hgt
    · refine ih _ ?_ _ hx' ?_ rfl
      · rw [← hn]
        refine Finset.card_lt_card ⟨?_, fun hsub => ?_⟩
        · exact Finset.filter_subset_filter _ (hl.freeSet ▸ Finset.erase_subset _ _)
        · have := hsub (Finset.mem_filter.mpr ⟨hq, hlt⟩)
          rw [Finset.mem_filter, hl.freeSet] at this
          exact Finset.notMem_erase _ _ this.1
      · rw [hl.freeSet]
        exact Finset.mem_erase.mpr ⟨by omega, hmem⟩
    · exact ⟨_, hx', Finset.mem_insert_self _ _⟩
    · exact absurd hmem (hmin page hgt)

theorem le_usableEnd {l : List Descriptor} {d : Descriptor} (hd : d ∈ l)
    (hu : regionIsUsable d.type) : d.physicalStart + d.numberOfPages * pageSize ≤ usableEnd l := by
  induction l with
  | nil => exact absurd hd (by simp)
  | cons e l ih =>
    rw [usableEnd, List.filter_cons]
    rcases List.mem_cons.mp hd with rfl | hd
    · rw [if_pos hu]
      exact le_max_left _ _
    · split
      · exact (ih hd).trans (le_max_right _ _)
      · exact ih hd

/-- Below `PMM_MAX_PHYS` every usable page is managed. -/
theorem usable.lt_managed (h : usable mem boot page) (hlt : page < maxPages) :
    page < min (usableEnd (descriptors mem boot)) maxPhys / pageSize := by
  obtain ⟨d, hd, hu, -, hc⟩ := h
  have := le_usableEnd hd hu
  have hmax : maxPages = 131072 := by norm_num
  simp only [pageSize, maxPhys] at *
  omega

/-- **The page of the trampoline is never handed out if and only if it is not
usable or reserved for something else**: nothing reserves it. -/
theorem trampoline_page_kept (hw : WellFormed mem boot) (image : KernelImage)
    (h : initPmm s mem boot image.bootstrapStart image.kernelPhysEnd = some s') :
    (∀ x, (pageClients s').Reachable x → smpTrampolinePhys ∉ x.returned) ↔
      (usable mem boot (smpTrampolinePhys / pageSize) →
        reserved boot image (smpTrampolinePhys / pageSize)) := by
  obtain ⟨hI, hm, hf⟩ := hw.initPmm image h
  have hpage : smpTrampolinePhys = smpTrampolinePhys / pageSize * pageSize := by norm_num
  constructor
  · intro hall hu
    by_contra hr
    have hfree : smpTrampolinePhys / pageSize ∈ s'.freeSet :=
      (hf _).mpr ⟨hm ▸ hu.lt_managed (by norm_num), hu, hr⟩
    obtain ⟨x, hx, hret⟩ := exists_returned hI _ ⟨s', ∅⟩ (.init rfl) hfree rfl
    exact hall x hx (hpage ▸ hret)
  · intro hur x hx hret
    rw [hpage] at hret
    exact (not_returned hI (fun hfree => ((hf _).mp hfree).2.2 (hur ((hf _).mp hfree).2.1)) hx).2 hret

/-- Seven pages from `0x9000` on. -/
def highMap : Bytes := fun a =>
  if a = 0x50000 then 7 else if a = 0x50009 then 0x90 else if a = 0x50018 then 7 else 0

theorem trampoline_page_kept_high : ∃ s',
    initPmm unset highMap lowBoot lowImage.bootstrapStart lowImage.kernelPhysEnd = some s' ∧
      ∀ x, (pageClients s').Reachable x → smpTrampolinePhys ∉ x.returned := by
  have hsome : (initPmm unset highMap lowBoot lowImage.bootstrapStart
      lowImage.kernelPhysEnd).isSome = true := by decide +kernel
  obtain ⟨s', hs⟩ := Option.isSome_iff_exists.mp hsome
  have hw : WellFormed highMap lowBoot :=
    ⟨by decide, by decide, by decide, by decide⟩
  have hno : ∀ d ∈ descriptors highMap lowBoot,
      ¬ covers d.physicalStart (d.physicalStart + d.numberOfPages * pageSize) 8 := by decide
  refine ⟨s', hs, (trampoline_page_kept hw lowImage hs).mpr ?_⟩
  rintro ⟨d, hd, -, hc⟩
  exact absurd hc (hno d hd)

/-- With sixteen pages of conventional memory from 0 on, the page of the
trampoline is handed out. -/
theorem trampoline_page_returned : ¬ ∀ (mem : Bytes) (boot : BootInfo) (image : KernelImage)
    (s' : State), WellFormed mem boot →
    initPmm unset mem boot image.bootstrapStart image.kernelPhysEnd = some s' →
    ∀ x, (pageClients s').Reachable x → smpTrampolinePhys ∉ x.returned := by
  intro hall
  obtain ⟨s', hs⟩ := Option.isSome_iff_exists.mp initPmm_lowMap_isSome
  obtain ⟨hI, hm, hf⟩ := lowMap_wellFormed.initPmm lowImage hs
  have hu : usable lowMap lowBoot 8 := by
    refine ⟨⟨7, 0, 16⟩, by decide, by decide, by decide⟩
  have hnr : ¬ reserved lowBoot lowImage 8 := by
    rw [reserved, meets_iff (by decide), meets_iff (by decide), meets_iff (by decide)]
    decide
  have hfree : 8 ∈ s'.freeSet := (hf _).mpr ⟨hm ▸ hu.lt_managed (by norm_num), hu, hnr⟩
  obtain ⟨x, hx, hret⟩ := exists_returned hI _ ⟨s', ∅⟩ (.init rfl) hfree rfl
  exact hall _ _ _ _ lowMap_wellFormed hs x hx hret

end Pmm

end Csos

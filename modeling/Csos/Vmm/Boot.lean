import Csos.Vmm.Init
/-!
# Virtual memory — the boot tables

`boot_paging.c` builds the tables that are in use before `init_vmm`: 2 MiB
pages for the first 512 MiB, and the kernel image page by page out of a pool
of 16 tables. The image lies in the higher half, so that the first entry of
`boot_pml4`, under which the large pages are, is never looked at while it is
mapped: without that entry `boot_map_page` is `map_page` with the pool for a
supply, and the map it builds is known.
-/

namespace Csos

namespace Vmm

/-- The pages of the boot tables: whole pages, all different. -/
structure BootPages where
  pml4 : Word
  pdptLow : Word
  pdLow : Word
  pool : List Word
  addr : ∀ x ∈ pml4 :: pdptLow :: pdLow :: pool, pteAddr x = x ∧ x ≠ 0
  nodup : (pml4 :: pdptLow :: pdLow :: pool).Nodup
  length : pool.length = 16

/-- One table of `boot_map_page`: present, or out of the pool. `hugeErr` is the
result for a large page, where the code tests for one; the first part of the
result is 0, or the error. -/
def bootGetTable (hugeErr : Option ℤ) (poolErr : ℤ) (s : State) (pool : List Word) (table : Word)
    (i : Fin 512) : ℤ × Word × List Word × State :=
  if s.mem table i &&& ptePresent ≠ 0 then
    match hugeErr with
    | none => (0, pteAddr (s.mem table i), pool, s)
    | some err =>
      if s.mem table i &&& pteHuge ≠ 0 then (err, 0, pool, s)
      else (0, pteAddr (s.mem table i), pool, s)
  else match pool with
    | [] => (poolErr, 0, [], s)
    | page :: pool => (0, page, pool, (s.clear page).set table i (page ||| ptePresent ||| pteWritable))

/-- `boot_map_page`. -/
def bootMapPage (s : State) (pool : List Word) (vaddr paddr flags : Word) : ℤ × List Word × State :=
  let (r, pdpt, pool, s) := bootGetTable none (-1) s pool s.pml4 (index vaddr 39)
  if r ≠ 0 then (r, pool, s)
  else
    let (r, pd, pool, s) := bootGetTable (some (-2)) (-3) s pool pdpt (index vaddr 30)
    if r ≠ 0 then (r, pool, s)
    else
      let (r, pt, pool, s) := bootGetTable (some (-4)) (-5) s pool pd (index vaddr 21)
      if r ≠ 0 then (r, pool, s)
      else (0, pool, s.set pt (index vaddr 12) ((paddr &&& pteAddrMask) ||| leafFlags flags))

/-- The loop of `boot_map_identity_huge`: `n` large pages from `pa` on. -/
def hugeLoop (pdLow : Word) : ℕ → ℕ → State → State
  | 0, _, s => s
  | n + 1, pa, s =>
    hugeLoop pdLow n (pa + 0x200000) (s.set pdLow (index (BitVec.ofNat 64 pa) 21)
      ((BitVec.ofNat 64 pa &&& pteAddrMask) ||| ptePresent ||| pteWritable ||| pteHuge))

/-- `boot_map_identity_huge`. -/
def bootMapIdentityHuge (b : BootPages) (s : State) : State :=
  let s : State := ⟨(((s.clear b.pml4).clear b.pdptLow).clear b.pdLow).mem, b.pml4⟩
  let s := s.set b.pml4 0 (b.pdptLow ||| ptePresent ||| pteWritable)
  let s := s.set b.pdptLow 0 (b.pdLow ||| ptePresent ||| pteWritable)
  hugeLoop b.pdLow 256 0 s

/-- The loop of `boot_map_kernel_image`: `n` pages. -/
def bootMapPages : ℕ → Word → Word → List Word → State → ℤ × List Word × State
  | 0, _, _, pool, s => (0, pool, s)
  | n + 1, virt, phys, pool, s =>
    let (r, pool, s) := bootMapPage s pool virt phys (ptePresent ||| pteWritable)
    if r ≠ 0 then (-1, pool, s) else bootMapPages n (virt + 4096#64) (phys + 4096#64) pool s

/-- `boot_map_identity_huge` and `boot_map_kernel_image`: the boot tables, if
both succeed. -/
def bootTables (b : BootPages) (layout : Layout) (s : State) : Option State :=
  let r := bootMapPages (pageCount layout.physStart layout.physEnd)
    (BitVec.ofNat 64 layout.virtStart) (BitVec.ofNat 64 layout.physStart) b.pool
    (bootMapIdentityHuge b s)
  if r.1 = 0 then some r.2.2 else none

/-! ## Without the first entry -/

variable {s s' h h' : State} {pool pool' : List Word} {e vaddr paddr flags t t' : Word} {i j : Fin 512}

/-- The state with `e` as the first entry of its top table. -/
def withLow (s : State) (e : Word) : State := s.set s.pml4 0 e

theorem withLow_mem (hne : ¬ (t = s.pml4 ∧ i = 0)) : (withLow s e).mem t i = s.mem t i :=
  State.set_mem_of_ne hne

theorem withLow_self : (withLow s e).mem s.pml4 0 = e := State.set_mem_self

theorem State.ext_mem (hp : s.pml4 = s'.pml4) (hm : ∀ t i, s.mem t i = s'.mem t i) : s = s' := by
  obtain ⟨m, p⟩ := s
  obtain ⟨m', p'⟩ := s'
  obtain rfl : p = p' := hp
  obtain rfl : m = m' := funext fun t => funext fun i => hm t i
  rfl

/-- Stores elsewhere do not mix with it. -/
theorem withLow_set {x : Word} (hne : ¬ (t = s.pml4 ∧ i = 0)) :
    (withLow s e).set t i x = withLow (s.set t i x) e := by
  refine State.ext_mem rfl fun u k => ?_
  by_cases h1 : u = t ∧ k = i
  · obtain ⟨rfl, rfl⟩ := h1
    rw [State.set_mem_self, withLow_mem (s := s.set u k x) hne, State.set_mem_self]
  · rw [State.set_mem_of_ne h1]
    by_cases h2 : u = s.pml4 ∧ k = 0
    · obtain ⟨rfl, rfl⟩ := h2
      exact withLow_self.trans (withLow_self (s := s.set t i x)).symm
    · rw [withLow_mem h2, withLow_mem (s := s.set t i x) h2, State.set_mem_of_ne h1]

theorem clear_mem_self {x : Word} : (s.clear x).mem x i = 0 := if_pos rfl

theorem clear_mem_of_ne {x : Word} (hne : t ≠ x) : (s.clear x).mem t i = s.mem t i := if_neg hne

theorem withLow_clear {x : Word} (hne : x ≠ s.pml4) :
    (withLow s e).clear x = withLow (s.clear x) e := by
  refine State.ext_mem rfl fun u k => ?_
  by_cases h1 : u = x
  · subst h1
    rw [clear_mem_self, withLow_mem (s := s.clear u) fun hc => hne hc.1, clear_mem_self]
  · rw [clear_mem_of_ne h1]
    by_cases h2 : u = s.pml4 ∧ k = 0
    · obtain ⟨rfl, rfl⟩ := h2
      exact withLow_self.trans (withLow_self (s := s.clear x)).symm
    · rw [withLow_mem h2, withLow_mem (s := s.clear x) h2, clear_mem_of_ne h1]

/-- A table of `boot_map_page` is a table of `map_page`. -/
theorem bootGetTable_eq {hugeErr : Option ℤ} {poolErr : ℤ} {p : List (Fin 512)} (hI : Inv h)
    (hs : Fresh h pool) (hz : ∀ x ∈ pool, x ≠ 0) (hp : p.length ≤ 2) (ht : tableAt h p = some t)
    (hne : ¬ (t = h.pml4 ∧ i = 0)) (hfail : poolErr ≠ 0)
    (hr : bootGetTable hugeErr poolErr (withLow h e) pool t i = (0, t', pool', s')) :
    ∃ h', s' = withLow h' e ∧ getOrAllocTable h pool t i = some (t', pool', h') ∧ t' ≠ 0 := by
  unfold bootGetTable at hr
  rw [withLow_mem hne] at hr
  unfold getOrAllocTable
  by_cases hpres : h.mem t i &&& ptePresent ≠ 0
  · rw [if_pos hpres] at hr ⊢
    obtain ⟨hlead, h0⟩ := hI.link p t i hp ht ((and_twoPow_ne_zero (by norm_num)).mp hpres)
    have h7 : ¬ (h.mem t i &&& pteHuge ≠ 0) := by
      rw [not_not, and_twoPow_eq_zero (by norm_num)]
      exact (leads_iff.mp hlead).2
    have hfrom : tableFromEntry (h.mem t i) = pteAddr (h.mem t i) := if_neg hpres
    rw [if_neg h7, hfrom]
    cases hugeErr with
    | none =>
      simp only [Prod.mk.injEq, true_and] at hr
      obtain ⟨rfl, rfl, rfl⟩ := hr
      exact ⟨h, rfl, rfl, h0⟩
    | some err =>
      simp only [if_neg h7, Prod.mk.injEq, true_and] at hr
      obtain ⟨rfl, rfl, rfl⟩ := hr
      exact ⟨h, rfl, rfl, h0⟩
  · rw [if_neg hpres] at hr ⊢
    cases pool with
    | nil =>
      simp only [Prod.mk.injEq] at hr
      exact absurd hr.1 hfail
    | cons page rest =>
      have hp0 := hz page List.mem_cons_self
      have hp4 : page ≠ h.pml4 := fun he =>
        (hs.page page List.mem_cons_self hp0).notTable [] (by simp) (congrArg some he.symm)
      simp only [Prod.mk.injEq, true_and] at hr
      obtain ⟨rfl, rfl, rfl⟩ := hr
      refine ⟨_, ?_, if_neg hp0, hp0⟩
      rw [withLow_clear hp4]
      exact withLow_set hne

/-- **`boot_map_page` in the higher half is `map_page`.** -/
theorem bootMapPage_eq (hI : Inv h) (hs : Fresh h pool) (hz : ∀ x ∈ pool, x ≠ 0)
    (hi : index vaddr 39 ≠ 0) (hal : (vaddr ||| paddr) &&& pageOffMask = 0)
    (hfl : leafFlags flags &&& pteUser = 0)
    (hr : bootMapPage (withLow h e) pool vaddr paddr flags = (0, pool', s')) :
    ∃ h', s' = withLow h' e ∧ mapPageVia physical h pool vaddr paddr flags = some (0, pool', h') := by
  unfold bootMapPage at hr
  unfold mapPageVia
  rw [if_neg hI.root_ne, if_neg (not_not.mpr hal)]
  simp only [getTableVia_physical, grantUserVia_physical, physical]
  rcases h₃ : bootGetTable none (-1) (withLow h e) pool (withLow h e).pml4 (index vaddr 39) with
    ⟨r, pdpt, pool₃, s₃⟩
  simp only [h₃] at hr
  split at hr
  · rename_i hne
    simp only [Prod.mk.injEq] at hr
    exact absurd hr.1 hne
  rename_i h0
  rw [not_not] at h0
  subst h0
  obtain ⟨g₃, rfl, hg₃, hz₃⟩ := bootGetTable_eq (p := []) hI hs hz (by simp) rfl
    (fun hc => hi hc.2) (by decide) h₃
  obtain ⟨hgr₃, hfr₃, ht₃⟩ := getOrAllocTable_spec (p := []) hI (by simp) rfl hs hg₃
  have hu₃ := getOrAllocTable_uses (p := []) hI (by simp) rfl hs hg₃
  have hzp₃ : ∀ x ∈ pool₃, x ≠ 0 := fun x hx => hz x (hu₃.suffix.subset hx)
  -- tables below the top one are not the top one
  have hroot : ∀ {g : State} {p : List (Fin 512)} {k : Fin 512} {u : Word}, Inv g → p.length ≤ 2 →
      tableAt g (k :: p) = some u → u ≠ g.pml4 := by
    intro g p k u hIg hp hu he
    have := hIg.tree (k :: p) [] u (by simp only [List.length_cons]; omega) (by simp) hu
      (congrArg some he.symm)
    exact absurd this (by simp)
  rcases h₂ : bootGetTable (some (-2)) (-3) (withLow g₃ e) pool₃ pdpt (index vaddr 30) with
    ⟨r, pd, pool₂, s₂⟩
  simp only [h₂] at hr
  split at hr
  · rename_i hne
    simp only [Prod.mk.injEq] at hr
    exact absurd hr.1 hne
  rename_i h0
  rw [not_not] at h0
  subst h0
  obtain ⟨g₂, rfl, hg₂, hz₂⟩ := bootGetTable_eq (p := [index vaddr 39]) hgr₃.inv hfr₃ hzp₃ (by simp)
    (ht₃ hz₃) (fun hc => hroot hgr₃.inv (by simp) (ht₃ hz₃) hc.1) (by decide) h₂
  obtain ⟨hgr₂, hfr₂, ht₂⟩ :=
    getOrAllocTable_spec (p := [index vaddr 39]) hgr₃.inv (by simp) (ht₃ hz₃) hfr₃ hg₂
  have hu₂ := getOrAllocTable_uses (p := [index vaddr 39]) hgr₃.inv (by simp) (ht₃ hz₃) hfr₃ hg₂
  have hzp₂ : ∀ x ∈ pool₂, x ≠ 0 := fun x hx => hzp₃ x (hu₂.suffix.subset hx)
  rcases h₁ : bootGetTable (some (-4)) (-5) (withLow g₂ e) pool₂ pd (index vaddr 21) with
    ⟨r, pt, pool₁, s₁⟩
  simp only [h₁] at hr
  split at hr
  · rename_i hne
    simp only [Prod.mk.injEq] at hr
    exact absurd hr.1 hne
  rename_i h0
  rw [not_not] at h0
  subst h0
  obtain ⟨g₁, rfl, hg₁, hz₁⟩ := bootGetTable_eq (p := [index vaddr 30, index vaddr 39]) hgr₂.inv hfr₂
    hzp₂ (by simp) (ht₂ hz₂) (fun hc => hroot hgr₂.inv (by simp) (ht₂ hz₂) hc.1) (by decide) h₁
  obtain ⟨hgr₁, hfr₁, ht₁⟩ := getOrAllocTable_spec (p := [index vaddr 30, index vaddr 39]) hgr₂.inv
    (by simp) (ht₂ hz₂) hfr₂ hg₁
  simp only [Prod.mk.injEq, true_and] at hr
  obtain ⟨rfl, rfl⟩ := hr
  refine ⟨g₁.set pt (index vaddr 12) ((paddr &&& pteAddrMask) ||| leafFlags flags), ?_, ?_⟩
  · exact withLow_set fun hc => hroot hgr₁.inv (by simp) (ht₁ hz₁) hc.1
  · have hgrant : grantUser g₁ vaddr flags pdpt pd = g₁ := if_neg (not_not.mpr hfl)
    simp only [hg₃, if_neg hz₃, hg₂, if_neg hz₂, hg₁, if_neg hz₁, hgrant]

theorem and_pageOffMask_eq_zero {x : Word} (hx : x.toNat % 4096 = 0) : x &&& pageOffMask = 0 := by
  apply BitVec.eq_of_toNat_eq
  rw [BitVec.toNat_and, show (pageOffMask).toNat = 2 ^ 12 - 1 by decide,
    Nat.and_two_pow_sub_one_eq_mod]
  exact hx

theorem index_ne_zero {v : Word} (hv : 2 ^ 64 - 2 ^ 47 ≤ v.toNat) : index v 39 ≠ 0 := by
  have hlt := v.isLt
  rw [ne_eq, Fin.ext_iff, index_val]
  change ¬ _ = 0
  omega

/-- **And so is the loop.** -/
theorem bootMapPages_eq {n : ℕ} {virt phys : Word} {M : ℕ → Option Translation} (hR : Realizes h M)
    (hs : Fresh h pool) (hz : ∀ x ∈ pool, x ≠ 0) (hv : virt.toNat % 4096 = 0)
    (hp : phys.toNat % 4096 = 0) (hhigh : 2 ^ 64 - 2 ^ 47 ≤ virt.toNat)
    (hfits : virt.toNat + n * 4096 ≤ 2 ^ 64) (hphys : phys.toNat + n * 4096 ≤ 2 ^ 52)
    (hr : bootMapPages n virt phys pool (withLow h e) = (0, pool', s')) :
    ∃ h', s' = withLow h' e ∧ mapPages physical kernelFlags n virt phys pool h = some (0, pool', h') := by
  induction n generalizing virt phys pool h M with
  | zero =>
    simp only [bootMapPages, Prod.mk.injEq, true_and] at hr
    obtain ⟨rfl, rfl⟩ := hr
    exact ⟨h, rfl, rfl⟩
  | succ n ih =>
    rw [bootMapPages] at hr
    rcases hc : bootMapPage (withLow h e) pool virt phys (ptePresent ||| pteWritable) with
      ⟨r, pool₁, s₁⟩
    simp only [hc] at hr
    split at hr
    · simp only [Prod.mk.injEq] at hr
      exact absurd hr.1 (by decide)
    rename_i h0
    rw [not_not] at h0
    subst h0
    have hal : (virt ||| phys) &&& pageOffMask = 0 := by
      rw [BitVec.and_or_distrib_right, and_pageOffMask_eq_zero hv, and_pageOffMask_eq_zero hp]
      simp
    obtain ⟨h₁, rfl, hm⟩ := bootMapPage_eq hR.inv hs hz (index_ne_zero hhigh) hal (by decide) hc
    obtain ⟨hR₁, hu₁, -⟩ := hR.mapPage hs (by omega) (by decide) hm
    rcases Nat.eq_zero_or_pos n with rfl | hn
    · simp only [bootMapPages, Prod.mk.injEq, true_and] at hr
      obtain ⟨rfl, rfl⟩ := hr
      refine ⟨h₁, rfl, ?_⟩
      rw [mapPages, hm]
      rfl
    have hv' : (virt + 4096#64).toNat = virt.toNat + 4096 := by
      rw [BitVec.toNat_add, BitVec.toNat_ofNat]
      omega
    have hp' : (phys + 4096#64).toNat = phys.toNat + 4096 := by
      rw [BitVec.toNat_add, BitVec.toNat_ofNat]
      omega
    obtain ⟨h', rfl, hrest⟩ := ih hR₁ hu₁.fresh (fun x hx => hz x (hu₁.suffix.subset hx)) (by omega)
      (by omega) (by omega) (by omega) (by omega) hr
    refine ⟨h', rfl, ?_⟩
    rw [mapPages, hm]
    exact hrest

/-! ## The large pages -/

theorem hugeLoop_pml4 (pdLow : Word) : ∀ n pa (s : State), (hugeLoop pdLow n pa s).pml4 = s.pml4 := by
  intro n
  induction n with
  | zero =>
    intro pa s
    rfl
  | succ n ih =>
    intro pa s
    rw [hugeLoop, ih]
    rfl

/-- The loop writes only its table. -/
theorem hugeLoop_mem_of_ne {pdLow : Word} (hne : t ≠ pdLow) : ∀ n pa (s : State),
    (hugeLoop pdLow n pa s).mem t = s.mem t := by
  intro n
  induction n with
  | zero =>
    intro pa s
    rfl
  | succ n ih =>
    intro pa s
    rw [hugeLoop, ih, set_mem_of_table_ne hne]

/-- The entry of a large page. -/
def hugeEntry (pa : ℕ) : Word :=
  (BitVec.ofNat 64 pa &&& pteAddrMask) ||| ptePresent ||| pteWritable ||| pteHuge

theorem hugeLoop_mem {pdLow : Word} : ∀ n k (s : State) (j : Fin 512), k + n ≤ 256 →
    (hugeLoop pdLow n (k * 0x200000) s).mem pdLow j =
      if k ≤ j.val ∧ j.val < k + n then hugeEntry (j.val * 0x200000) else s.mem pdLow j := by
  intro n
  induction n with
  | zero =>
    intro k s j _
    rw [hugeLoop, if_neg (by omega)]
  | succ n ih =>
    intro k s j hk
    rw [hugeLoop, show k * 0x200000 + 0x200000 = (k + 1) * 0x200000 by omega, ih (k + 1) _ j (by omega)]
    have hidx : index (BitVec.ofNat 64 (k * 0x200000)) 21 = Fin.ofNat 512 k := by
      rw [Fin.ext_iff, index_val, BitVec.toNat_ofNat, Fin.val_ofNat]
      omega
    have hkv : (Fin.ofNat 512 k).val = k := by
      rw [Fin.val_ofNat]
      omega
    rw [hidx]
    by_cases hj : j.val = k
    · obtain rfl : j = Fin.ofNat 512 k := Fin.ext (hj.trans hkv.symm)
      rw [if_neg (by omega), if_pos (by omega), State.set_mem_self, hkv]
      rfl
    · rw [State.set_mem_of_ne fun hc => hj ((congrArg Fin.val hc.2).trans hkv)]
      by_cases hin : k + 1 ≤ j.val ∧ j.val < k + 1 + n
      · rw [if_pos hin, if_pos (by omega)]
      · rw [if_neg hin, if_neg (by omega)]

theorem hugeLoop_mem_zero {pdLow : Word} (n : ℕ) (s : State) (j : Fin 512) (hn : n ≤ 256) :
    (hugeLoop pdLow n 0 s).mem pdLow j =
      if j.val < n then hugeEntry (j.val * 0x200000) else s.mem pdLow j := by
  simpa using hugeLoop_mem n 0 s j (by omega)

theorem hugeLoop_withLow {pdLow : Word} : ∀ n pa (s : State), pdLow ≠ s.pml4 →
    hugeLoop pdLow n pa (withLow s e) = withLow (hugeLoop pdLow n pa s) e := by
  intro n
  induction n with
  | zero =>
    intro pa s _
    rfl
  | succ n ih =>
    intro pa s hne
    rw [hugeLoop, hugeLoop, withLow_set fun hc => hne hc.1, ih]
    exact hne

/-- The boot tables before the kernel image, without the first entry. -/
def lowTables (b : BootPages) (s : State) : State :=
  hugeLoop b.pdLow 256 0
    (State.set ⟨(((s.clear b.pml4).clear b.pdptLow).clear b.pdLow).mem, b.pml4⟩ b.pdptLow 0
      (b.pdLow ||| ptePresent ||| pteWritable))

section Low

variable (b : BootPages) (s : State)

theorem BootPages.ne : b.pdptLow ≠ b.pml4 ∧ b.pdLow ≠ b.pml4 ∧ b.pdLow ≠ b.pdptLow ∧
    b.pml4 ∉ b.pool ∧ b.pdptLow ∉ b.pool ∧ b.pdLow ∉ b.pool := by
  have h := b.nodup
  simp only [List.nodup_cons, List.mem_cons, not_or] at h
  exact ⟨Ne.symm h.1.1, Ne.symm h.1.2.1, Ne.symm h.2.1.1, h.1.2.2, h.2.1.2, h.2.2.1⟩

theorem bootMapIdentityHuge_eq : bootMapIdentityHuge b s =
    withLow (lowTables b s) (b.pdptLow ||| ptePresent ||| pteWritable) := by
  obtain ⟨h1, h2, -⟩ := b.ne
  have hset : (State.set (withLow ⟨(((s.clear b.pml4).clear b.pdptLow).clear b.pdLow).mem, b.pml4⟩
      (b.pdptLow ||| ptePresent ||| pteWritable)) b.pdptLow 0
      (b.pdLow ||| ptePresent ||| pteWritable)) = withLow (State.set
        ⟨(((s.clear b.pml4).clear b.pdptLow).clear b.pdLow).mem, b.pml4⟩ b.pdptLow 0
        (b.pdLow ||| ptePresent ||| pteWritable)) (b.pdptLow ||| ptePresent ||| pteWritable) :=
    withLow_set fun hc => h1 hc.1
  rw [lowTables, ← hugeLoop_withLow _ _ _ h2, ← hset]
  rfl

theorem lowTables_pml4 : (lowTables b s).pml4 = b.pml4 := hugeLoop_pml4 _ _ _ _

theorem lowTables_empty (i : Fin 512) : (lowTables b s).mem b.pml4 i = 0 := by
  obtain ⟨h1, h2, -⟩ := b.ne
  rw [lowTables, hugeLoop_mem_of_ne (Ne.symm h2), set_mem_of_table_ne (Ne.symm h1)]
  change (((s.clear b.pml4).clear b.pdptLow).clear b.pdLow).mem b.pml4 i = 0
  rw [clear_mem_of_ne (Ne.symm h2), clear_mem_of_ne (Ne.symm h1), clear_mem_self]

theorem lowTables_pdptLow : (lowTables b s).mem b.pdptLow 0 = b.pdLow ||| ptePresent ||| pteWritable := by
  obtain ⟨-, -, h3, -⟩ := b.ne
  rw [lowTables, hugeLoop_mem_of_ne (Ne.symm h3), State.set_mem_self]

theorem lowTables_pdLow {j : Fin 512} (hj : j.val < 256) :
    (lowTables b s).mem b.pdLow j = hugeEntry (j.val * 0x200000) := by
  rw [lowTables, hugeLoop_mem_zero _ _ _ (le_refl 256), if_pos hj]

theorem lowTables_realizes : Realizes (lowTables b s) fun _ => none := by
  have hp := lowTables_pml4 b s
  refine realizes_empty ?_ fun i => ?_
  · rw [hp]
    exact (b.addr b.pml4 List.mem_cons_self).2
  · rw [hp]
    exact lowTables_empty b s i

theorem lowTables_fresh : Fresh (lowTables b s) b.pool := by
  have hp := lowTables_pml4 b s
  have hmem : ∀ x ∈ b.pool, x ∈ b.pml4 :: b.pdptLow :: b.pdLow :: b.pool := by
    intro x hx
    simp [hx]
  refine ⟨fun x hx _ => ⟨(b.addr x (hmem x hx)).1, fun p _ ht => ?_⟩, ?_⟩
  · obtain rfl := path_of_empty (fun i => by rw [hp]; exact lowTables_empty b s i) ht
    have : b.pml4 = x := hp.symm.trans (Option.some.inj ht)
    exact b.ne.2.2.2.1 (this ▸ hx)
  · have := b.nodup
    simp only [List.nodup_cons] at this
    exact List.Pairwise.imp (fun {a c} (hne : a ≠ c) (_ : a ≠ 0) => hne) this.2.2.2

end Low

/-- Above the first entry the walk does not look at it. -/
theorem resolve_withLow (hI : Inv h) {v : Word} (hi : index v 39 ≠ 0) :
    resolve (withLow h e) v = resolve h v := by
  have h4 : (withLow h e).mem (withLow h e).pml4 (index v 39) = h.mem h.pml4 (index v 39) :=
    withLow_mem fun hc => hi hc.2
  -- a table below the top one is not the top one
  have hmem : ∀ {p t}, p ≠ [] → p.length ≤ 3 → tableAt h p = some t →
      (withLow h e).mem t = h.mem t := by
    intro p t hp hlen ht
    refine set_mem_of_table_ne fun he => hp ?_
    exact hI.tree p [] t hlen (by simp) ht (congrArg some he.symm)
  simp only [resolve, h4]
  split
  · rename_i hc
    have ht₃ := tableAt_of_leads (p := []) (s := h) rfl hc.2
    rw [hmem (by simp) (by simp) ht₃]
    split
    · rename_i h3
      have ht₂ := tableAt_of_leads ht₃ h3
      rw [hmem (by simp) (by simp) ht₂]
      split
      · rename_i h2
        rw [hmem (by simp) (by simp) (tableAt_of_leads ht₂ h2)]
      · rfl
    · rfl
  · rfl

/-! ## What the boot tables map -/

/-- The bits of a page address below 12 are clear. -/
theorem getLsbD_of_pteAddr {x : Word} (hx : pteAddr x = x) {k : ℕ} (hk : k < 12) :
    x.getLsbD k = false := by
  have hm : ∀ k < 12, pteAddrMask.getLsbD k = false := by decide
  rw [← hx, pteAddr, BitVec.getLsbD_and, hm k hk, Bool.and_false]

theorem hugeEntry_spec {k : ℕ} (hk : k < 256) : leads (hugeEntry (k * 0x200000)) = false ∧
    hugeEntry (k * 0x200000) &&& ptePresent ≠ 0 ∧
    pteAddr (hugeEntry (k * 0x200000)) &&& ~~~hugeOffMask = BitVec.ofNat 64 (k * 0x200000) := by
  have hval : (BitVec.ofNat 64 (k * 0x200000)).toNat = k * 0x200000 := by
    rw [BitVec.toNat_ofNat]
    omega
  have haddr : pteAddr (BitVec.ofNat 64 (k * 0x200000)) = BitVec.ofNat 64 (k * 0x200000) :=
    pteAddr_eq_self (by omega) (and_pageOffMask_eq_zero (by omega))
  refine ⟨?_, ?_, ?_⟩
  · rw [Bool.eq_false_iff, ne_eq, leads_iff, hugeEntry]
    simp
  · rw [and_twoPow_ne_zero (by norm_num), hugeEntry]
    simp
  · have hpte : pteAddr (hugeEntry (k * 0x200000)) = BitVec.ofNat 64 (k * 0x200000) := by
      rw [hugeEntry, pteAddr_or, pteAddr_or, pteAddr_or, show pteAddr ptePresent = 0 by decide,
        show pteAddr pteWritable = 0 by decide, show pteAddr pteHuge = 0 by decide]
      change pteAddr (pteAddr _) ||| 0 ||| 0 ||| 0 = _
      rw [haddr, haddr]
      simp
    rw [hpte]
    refine and_not_eq_self (BitVec.eq_of_toNat_eq ?_)
    rw [BitVec.toNat_and, hval, show (hugeOffMask).toNat = 2 ^ 21 - 1 by decide,
      Nat.and_two_pow_sub_one_eq_mod]
    change _ = 0
    omega

/-- A walk through the first entry to a large page. -/
theorem resolve_huge {v pdpt pd : Word} (hv : v.toNat < 2 ^ 29) (hpdpt : pteAddr pdpt = pdpt)
    (hpd : pteAddr pd = pd) (h4 : s.mem s.pml4 0 = pdpt ||| ptePresent ||| pteWritable)
    (h3 : s.mem pdpt 0 = pd ||| ptePresent ||| pteWritable)
    (h2 : ∀ j : Fin 512, j.val < 256 → s.mem pd j = hugeEntry (j.val * 0x200000)) :
    resolve s v = some ⟨v, false⟩ := by
  have hi4 : index v 39 = 0 := by
    rw [Fin.ext_iff, index_val]
    change _ = 0
    omega
  have hi3 : index v 30 = 0 := by
    rw [Fin.ext_iff, index_val]
    change _ = 0
    omega
  have hi2 : (index v 21).val = v.toNat / 0x200000 := by
    rw [index_val]
    omega
  obtain ⟨hl, hp, ha⟩ := hugeEntry_spec (k := v.toNat / 0x200000) (by omega)
  have huser : (pdpt ||| ptePresent ||| pteWritable).getLsbD 2 = false := by
    rw [BitVec.getLsbD_or, BitVec.getLsbD_or, getLsbD_of_pteAddr hpdpt (by norm_num)]
    decide
  rw [resolve]
  simp only [hi4, hi3, h4, pteAddr_link hpdpt, h3, pteAddr_link hpd, h2 _ (by omega : (index v 21).val < 256),
    hi2, leads_link hpdpt, leads_link hpd, hl, ha]
  rw [if_pos ⟨.inl (by omega), trivial⟩, if_pos trivial, if_neg (by simp), if_pos hp]
  congr 2
  · apply BitVec.eq_of_toNat_eq
    have hlt : v.toNat % 0x200000 < 2 ^ 21 := by omega
    rw [BitVec.toNat_or, BitVec.toNat_and, BitVec.toNat_ofNat,
      show (hugeOffMask).toNat = 2 ^ 21 - 1 by decide, Nat.and_two_pow_sub_one_eq_mod,
      Nat.mod_eq_of_lt (by omega), show v.toNat / 0x200000 * 0x200000 = (v.toNat / 0x200000) <<< 21 by
        rw [Nat.shiftLeft_eq], ← Nat.shiftLeft_add_eq_or_of_lt hlt, Nat.shiftLeft_eq]
    omega
  · rw [decide_eq_false_iff_not, not_not, and_twoPow_eq_zero (by norm_num), BitVec.getLsbD_and,
      BitVec.getLsbD_and, huser]
    simp

/-- **The boot tables** map the first 512 MiB to themselves and the kernel
image as `init_vmm` does. -/
theorem bootTables_resolve {b : BootPages} {layout : Layout} {total : ℕ} (hl : layout.Ok total)
    (htotal : total ≤ 131072) (hr : bootTables b layout s = some s') :
    (∀ v : Word, v.toNat < 2 ^ 29 → resolve s' v = some ⟨v, false⟩) ∧
      ∀ v, inImage layout v → resolve s' v =
        some ⟨BitVec.ofNat 64 (layout.physStart + (v.toNat - layout.virtStart)), false⟩ := by
  obtain ⟨hp1, hp2⟩ := hl.phys
  have hv := hl.virt
  have hlt := hl.lt
  have hman := hl.managed
  have hhigh := hl.higher
  have hfits := hl.fits
  have hpages : pageCount layout.physStart layout.physEnd =
      (layout.physEnd - layout.physStart) / 4096 := by
    rw [pageCount]
    omega
  rw [bootTables, bootMapIdentityHuge_eq] at hr
  rcases hloop : bootMapPages (pageCount layout.physStart layout.physEnd)
    (BitVec.ofNat 64 layout.virtStart) (BitVec.ofNat 64 layout.physStart) b.pool
    (withLow (lowTables b s) (b.pdptLow ||| ptePresent ||| pteWritable)) with ⟨r, pool', s₁⟩
  simp only [hloop] at hr
  split at hr
  · rename_i h0
    subst h0
    obtain rfl := Option.some.inj hr
    have hmem : ∀ x ∈ b.pool, x ∈ b.pml4 :: b.pdptLow :: b.pdLow :: b.pool := by
      intro x hx
      simp [hx]
    have hpp : (BitVec.ofNat 64 layout.physStart).toNat = layout.physStart := by
      rw [BitVec.toNat_ofNat]
      omega
    have hvv : (BitVec.ofNat 64 layout.virtStart).toNat = layout.virtStart := by
      rw [BitVec.toNat_ofNat]
      omega
    obtain ⟨h', rfl, hm⟩ := bootMapPages_eq (lowTables_realizes b s) (lowTables_fresh b s)
      (fun x hx => (b.addr x (hmem x hx)).2) (by omega) (by omega) (by omega) (by omega) (by omega) hloop
    have hvp : vpage (BitVec.ofNat 64 layout.virtStart) = layout.virtStart % 2 ^ 48 / 4096 := by
      rw [vpage, hvv]
    obtain ⟨hR, hu⟩ := (lowTables_realizes b s).mapPages (lowTables_fresh b s) (by decide)
      (by rw [hvp]; omega) (by rw [hpp]; omega) hm
    rw [hvp, hpp] at hR
    obtain ⟨h1, h2, h3, -, h5, h6⟩ := b.ne
    have hpml4 : h'.pml4 = b.pml4 :=
      (Option.some.inj (hu.keeps [] _ (by simp) rfl)).trans (lowTables_pml4 b s)
    -- the tables of the large pages are not tables of the image
    have hkeep : ∀ x, x ≠ b.pml4 → x ∉ b.pool → h'.mem x = (lowTables b s).mem x := by
      intro x hx hxp
      refine hu.mem x fun q hq ht => ?_
      rcases hu.made q x hq ht with ht | ⟨ht, -⟩
      · obtain rfl := path_of_empty (fun i => by rw [lowTables_pml4]; exact lowTables_empty b s i) ht
        exact hx ((Option.some.inj ht).symm.trans (lowTables_pml4 b s))
      · exact hxp ht
    have hother : ∀ x, x ≠ b.pml4 →
        (withLow h' (b.pdptLow ||| ptePresent ||| pteWritable)).mem x = h'.mem x :=
      fun x hx => set_mem_of_table_ne fun he => hx (he.trans hpml4)
    refine ⟨fun v hv => ?_, fun v hv => ?_⟩
    · refine resolve_huge hv (b.addr b.pdptLow (by simp)).1 (b.addr b.pdLow (by simp)).1
        withLow_self ?_ fun j hj => ?_
      · rw [hother _ h1, hkeep _ h1 h5, lowTables_pdptLow]
      · rw [hother _ h2, hkeep _ h2 h6, lowTables_pdLow b s hj]
    · obtain ⟨hv1, hv2⟩ := hv
      have hvlt := v.isLt
      rw [resolve_withLow hR.inv (index_ne_zero (by omega))]
      refine hR.resolve_eq (.inr (by omega)) (by omega) (by omega) (f := leafFlags kernelFlags) ?_
      have ha : layout.physStart + (vpage v - layout.virtStart % 2 ^ 48 / 4096) * 4096 =
          (layout.physStart + (v.toNat - layout.virtStart)) / 4096 * 4096 := by
        rw [vpage]
        omega
      rw [mapRange, if_pos (by rw [vpage]; omega), ha, show kernelFlags.getLsbD 2 = false by decide]
  · exact absurd hr (by simp)

/-- **The tables of `init_vmm`** are complete, map themselves, and agree with
the boot tables, so that switching to them moves nothing. -/
theorem init_vmm_complete {m : Pmm.State} {n : ℕ} {boot : Option Framebuffer} {layout : Layout}
    {rest : List Word} (hm : Pmm.Inv m) (hv : ∀ a ∈ allocs n m, a ≠ Pmm.invalidAddr)
    (hfb : FramebufferOk boot) (hl : layout.Ok m.managedPages)
    (hr : initVmm m.managedPages boot layout (supplyOf n m) s = some (true, rest, s')) :
    (∀ v, inManaged m.managedPages v → resolve s' v = some ⟨v, false⟩) ∧
    (∀ v, inImage layout v → resolve s' v =
      some ⟨BitVec.ofNat 64 (layout.physStart + (v.toNat - layout.virtStart)), false⟩) ∧
    (∀ v, inFramebuffer boot v → resolve s' v = some ⟨v, false⟩) ∧
    (∀ v, ¬ inManaged m.managedPages v → ¬ inImage layout v → ¬ inFramebuffer boot v →
      resolve s' v = none) ∧
    (∀ q t, q.length ≤ 3 → tableAt s' q = some t → resolve s' t = some ⟨t, false⟩) ∧
    ∀ (b : BootPages) (s₀ bt : State), bootTables b layout s₀ = some bt →
      ∀ v, inManaged m.managedPages v ∨ inImage layout v → resolve bt v = resolve s' v := by
  have hsup := managed_supplyOf hm hv
  have htotal := hsup.total_le
  have hb := initVmm_built hsup hfb hl hr
  refine ⟨fun v h => hb.resolve_managed hl hfb htotal h, fun v h => hb.resolve_image hl htotal h,
    fun v h => hb.resolve_framebuffer hl hfb h,
    fun v h1 h2 h3 => hb.resolve_other hl hfb htotal h1 h3 h2, fun q t hq ht => ?_,
    fun b s₀ bt hbt v hvin => ?_⟩
  · exact hb.resolve_managed hl hfb htotal (hsup.page t (hb.tables q t hq ht)).2
  · obtain ⟨hlow, himg⟩ := bootTables_resolve hl htotal hbt
    rcases hvin with h | h
    · rw [hb.resolve_managed hl hfb htotal h, hlow v]
      rw [inManaged] at h
      omega
    · rw [hb.resolve_image hl htotal h, himg v h]

/-- Twelve managed pages, all free from the third on. -/
def twelvePages : Pmm.State :=
  ((Pmm.unset.init 12).getD Pmm.unset).markFree 0x2000 0xc000

theorem twelvePages_inv : Pmm.Inv twelvePages := by
  have hsome : (Pmm.unset.init 12).isSome = true := rfl
  obtain ⟨m, hm⟩ := Option.isSome_iff_exists.mp hsome
  rw [twelvePages, hm]
  exact ((Pmm.init_leaves hm).1.markFree _ _).inv

/-- A kernel of one page at `0x1000`. -/
def onePageKernel : Layout := ⟨0x1000, 0x2000, 0xFFFFFFFF80000000⟩

/-- A framebuffer of one page at 3 GiB. -/
def smallFramebuffer : Framebuffer := ⟨0xC0000000, 32, 32, 32⟩

theorem init_vmm_complete_small : ∃ rest s',
    initVmm 12 (some smallFramebuffer) onePageKernel (supplyOf 9 twelvePages) emptyTables =
      some (true, rest, s') ∧ resolve s' 0x1234#64 = some ⟨0x1234#64, false⟩ := by
  have hrun : (initVmm 12 (some smallFramebuffer) onePageKernel (supplyOf 9 twelvePages)
      emptyTables).map (fun x => x.1) = some true := by
    decide +kernel
  obtain ⟨⟨ok, rest, s'⟩, hr, hok⟩ := Option.map_eq_some_iff.mp hrun
  obtain rfl : ok = true := hok
  have hfb : FramebufferOk (some smallFramebuffer) := by
    intro fb hfb _
    obtain rfl := Option.some.inj hfb
    decide
  have h := init_vmm_complete (m := twelvePages) (n := 9) twelvePages_inv (by decide +kernel) hfb
    ⟨by decide, by decide, by decide, by decide +kernel, by decide, by decide⟩ hr
  exact ⟨rest, s', hr, h.1 0x1234#64 (show 0x1234 < 12 * 4096 by decide)⟩

end Vmm

end Csos

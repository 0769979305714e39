import Csos.Vmm.Range
/-!
# Virtual memory — pages that are not tables

A page that is no page table may be written without any effect on the walk.
The kernel writes it through a pointer, which leads to it as long as the
page maps to itself; `Direct` says this of every table and of the pages that
may become tables, and under it `map_page` through pointers is `map_page`.
-/

namespace Csos

namespace Vmm

variable {s s' : State} {supply supply' : List Word} {page t vaddr paddr flags : Word}
  {M : ℕ → Option Translation}

/-! ## Bytes of a page -/

/-- A byte of a page. -/
def pageByte (s : State) (page : Word) (off : ℕ) : BitVec 8 :=
  (s.mem page (Fin.ofNat 512 (off / 8))).extractLsb' (8 * (off % 8)) 8

/-- The word with one of its bytes replaced. -/
def putByte (w : Word) (k : ℕ) (b : BitVec 8) : Word :=
  (w &&& ~~~ (0xff#64 <<< (8 * k))) ||| (b.setWidth 64 <<< (8 * k))

/-- A byte of a page is written. -/
def setPageByte (s : State) (page : Word) (off : ℕ) (b : BitVec 8) : State :=
  s.set page (Fin.ofNat 512 (off / 8)) (putByte (s.mem page (Fin.ofNat 512 (off / 8))) (off % 8) b)

theorem putByte_extract {w : Word} {b : BitVec 8} {j k : ℕ} (hj : j < 8) (hk : k < 8) :
    (putByte w k b).extractLsb' (8 * j) 8 = if j = k then b else w.extractLsb' (8 * j) 8 := by
  have hff : ∀ i, (0xff#64).getLsbD i = decide (i < 8) := by
    intro i
    rw [show (0xff#64) = BitVec.ofNat 64 (2 ^ 8 - 1) by decide, BitVec.getLsbD_ofNat,
      Nat.testBit_two_pow_sub_one]
    by_cases hi : i < 8
    · simp [hi, show i < 64 by omega]
    · simp [hi]
  apply BitVec.eq_of_getLsbD_eq
  intro i hi
  rw [BitVec.getLsbD_extractLsb', putByte, BitVec.getLsbD_or, BitVec.getLsbD_and, BitVec.getLsbD_not,
    BitVec.getLsbD_shiftLeft, BitVec.getLsbD_shiftLeft, hff, BitVec.getLsbD_setWidth]
  by_cases hjk : j = k
  · subst hjk
    simp [hi, show 8 * j + i < 64 by omega, show i < 64 by omega]
  · rw [if_neg hjk, BitVec.getLsbD_extractLsb']
    rcases Nat.lt_or_gt_of_ne hjk with hlt | hgt
    · simp [hi, show 8 * j + i < 64 by omega, show 8 * j + i < 8 * k by omega]
    · have hge : ¬ (8 * j + i < 8 * k) := by omega
      have hbig : ¬ (8 * j + i - 8 * k < 8) := by omega
      have hzero : b.getLsbD (8 * j + i - 8 * k) = false := BitVec.getLsbD_of_ge _ _ (by omega)
      simp [hi, show 8 * j + i < 64 by omega, hge, hbig, hzero]

/-- The byte that is written, and the others. -/
theorem pageByte_setPageByte {off off' : ℕ} {b : BitVec 8} (ho : off < 4096) (ho' : off' < 4096) :
    pageByte (setPageByte s page off b) page off' = if off' = off then b else pageByte s page off' := by
  rw [pageByte, setPageByte, pageByte]
  have hval : ∀ x, x < 4096 → (Fin.ofNat 512 (x / 8)).val = x / 8 := by
    intro x hx
    rw [Fin.val_ofNat]
    omega
  by_cases hw : off' / 8 = off / 8
  · rw [hw, State.set_mem_self, putByte_extract (by omega) (by omega)]
    by_cases hb : off' = off
    · rw [if_pos hb, if_pos (by rw [hb])]
    · rw [if_neg hb, if_neg (by omega)]
  · rw [State.set_mem_of_ne fun hc => hw ?_, if_neg fun he => hw (by rw [he])]
    have := congrArg Fin.val hc.2
    rwa [hval _ ho', hval _ ho] at this

theorem pageByte_congr {off : ℕ} (h : s'.mem page = s.mem page) :
    pageByte s' page off = pageByte s page off := by
  rw [pageByte, pageByte, h]

theorem pageByte_clear {off : ℕ} : pageByte (s.clear page) page off = 0 := by
  rw [pageByte, State.clear]
  simp

theorem frame_toNat (a : Word) : (frame a).toNat = a.toNat / 4096 * 4096 := by
  have hmask : ∀ i < 64, (pageOffMask).getLsbD i = decide (i < 12) := by decide
  have hshift : a.toNat / 4096 * 4096 = (a.toNat >>> 12) <<< 12 := by
    rw [Nat.shiftRight_eq_div_pow, Nat.shiftLeft_eq]
  refine Nat.eq_of_testBit_eq fun i => ?_
  rw [hshift, Nat.testBit_shiftLeft, Nat.testBit_shiftRight]
  change (frame a).getLsbD i = _
  by_cases hi : i < 64
  · rw [frame, BitVec.getLsbD_and, BitVec.getLsbD_not, hmask i hi]
    by_cases h12 : i < 12
    · simp [h12]
    · simp [h12, hi, show 12 + (i - 12) = i by omega, show 12 ≤ i by omega, BitVec.getLsbD]
  · have hzero : a.toNat.testBit (12 + (i - 12)) = false := Nat.testBit_lt_two_pow <|
      calc a.toNat < 2 ^ 64 := a.isLt
        _ ≤ 2 ^ (12 + (i - 12)) := Nat.pow_le_pow_right (by norm_num) (by omega)
    rw [BitVec.getLsbD_of_ge _ _ (by omega), hzero, Bool.and_false]

theorem frame_eq_self {x : Word} (hx : x.toNat % 4096 = 0) : frame x = x := by
  apply BitVec.eq_of_toNat_eq
  rw [frame_toNat]
  omega

/-- A byte of memory is a byte of its page. -/
theorem byteAt_eq_pageByte (s : State) (a : Word) :
    byteAt s a = pageByte s (frame a) (a.toNat % 4096) := by
  have hfin : Fin.ofNat 512 (a.toNat / 8) = Fin.ofNat 512 (a.toNat % 4096 / 8) := by
    rw [Fin.ext_iff, Fin.val_ofNat, Fin.val_ofNat]
    omega
  have hmod : a.toNat % 8 = a.toNat % 4096 % 8 := by omega
  rw [byteAt, pageByte, hfin, hmod]

/-! ## Writes outside the tables -/

theorem TablesAgree.tableAt (h : TablesAgree s s') {q : List (Fin 512)} (hq : q.length ≤ 4) :
    tableAt s' q = tableAt s q := by
  induction q with
  | nil => rw [Vmm.tableAt, Vmm.tableAt, h.pml4]
  | cons i q ih =>
    simp only [List.length_cons] at hq
    rw [Vmm.tableAt, Vmm.tableAt, ih (by omega)]
    cases ht : Vmm.tableAt s q with
    | none => rfl
    | some t => rw [Option.bind_some, Option.bind_some, child, child, h.mem q t (by omega) ht]

theorem TablesAgree.walk (h : TablesAgree s s') {i₄ i₃ i₂ i₁ : Fin 512} {t₃ t₂ t₁ : Word}
    (hw : Walk s' i₄ i₃ i₂ i₁ t₃ t₂ t₁) : Walk s i₄ i₃ i₂ i₁ t₃ t₂ t₁ := by
  have ht₃ := (h.tableAt (by simp)).symm.trans hw.table₃
  have ht₂ := (h.tableAt (by simp)).symm.trans hw.table₂
  have ht₁ := (h.tableAt (by simp)).symm.trans hw.table₁
  have h4 := hw.child₄
  have h3 := hw.child₃
  have h2 := hw.child₂
  have h1 := hw.leaf
  rw [child, h.pml4, h.mem [] _ (by simp) rfl] at h4
  rw [child, h.mem _ _ (by simp) ht₃] at h3
  rw [child, h.mem _ _ (by simp) ht₂] at h2
  rw [h.mem _ _ (by simp) ht₁] at h1
  exact ⟨h4, h3, h2, h1⟩

/-- The invariant is about the tables only. -/
theorem TablesAgree.inv (h : TablesAgree s s') (hI : Inv s) : Inv s' := by
  refine ⟨by rw [h.pml4]; exact hI.root_ne, fun p q t hp hq hpt hqt => ?_,
    fun p t i hp hpt hpres => ?_, fun hw hu => ?_⟩
  · rw [h.tableAt (by omega)] at hpt hqt
    exact hI.tree p q t hp hq hpt hqt
  · rw [h.tableAt (by omega)] at hpt
    rw [h.mem p t (by omega) hpt] at hpres ⊢
    exact hI.link p t i hp hpt hpres
  · have hw' := h.walk hw
    rw [h.mem _ _ (by simp) hw'.table₁] at hu
    rw [h.pml4, h.mem [] _ (by simp) rfl, h.mem _ _ (by simp) hw'.table₃,
      h.mem _ _ (by simp) hw'.table₂]
    exact hI.user hw' hu

theorem TablesAgree.translate (h : TablesAgree s s') (v : Word) : translate s' v = translate s v := by
  have h4 : s'.mem s'.pml4 (index v 39) = s.mem s.pml4 (index v 39) := by
    rw [h.pml4, h.mem [] s.pml4 (by simp) rfl]
  simp only [Vmm.translate, h4]
  by_cases hl4 : leads (s.mem s.pml4 (index v 39)) = true
  · have ht₃ := tableAt_of_leads (p := []) (s := s) rfl hl4
    rw [h.mem _ _ (by simp) ht₃]
    by_cases hl3 : leads (s.mem (pteAddr (s.mem s.pml4 (index v 39))) (index v 30)) = true
    · have ht₂ := tableAt_of_leads ht₃ hl3
      rw [h.mem _ _ (by simp) ht₂]
      by_cases hl2 : leads (s.mem (pteAddr (s.mem (pteAddr (s.mem s.pml4 (index v 39))) (index v 30)))
          (index v 21)) = true
      · rw [h.mem _ _ (by simp) (tableAt_of_leads ht₂ hl2)]
      · rw [if_neg fun hc => hl2 hc.2.2.1, if_neg fun hc => hl2 hc.2.2.1]
    · rw [if_neg fun hc => hl3 hc.2.1, if_neg fun hc => hl3 hc.2.1]
  · rw [if_neg fun hc => hl4 hc.1, if_neg fun hc => hl4 hc.1]

theorem TablesAgree.realizes (h : TablesAgree s s') (hR : Realizes s M) : Realizes s' M :=
  ⟨h.inv hR.inv, fun v => (h.translate v).trans (hR.translate v)⟩

theorem TablesAgree.fresh (h : TablesAgree s s') (hs : Fresh s supply) : Fresh s' supply :=
  ⟨fun x hx h0 => ⟨(hs.page x hx h0).addr, fun q hq => by
    rw [h.tableAt (by omega)]
    exact (hs.page x hx h0).notTable q hq⟩, hs.nodup⟩

/-- A write to a page that is not a table. -/
theorem tablesAgree_of_page (hp : s'.pml4 = s.pml4) (hm : ∀ t, t ≠ page → s'.mem t = s.mem t)
    (hno : ∀ q, q.length ≤ 3 → tableAt s q ≠ some page) : TablesAgree s s' :=
  ⟨hp, fun q t hq ht => hm t fun he => hno q hq (he ▸ ht)⟩

/-! ## Pointers -/

/-- Pointers to the tables and to the pages of the supply lead where they
point. -/
structure Direct (s : State) (supply : List Word) : Prop where
  table : ∀ q t, q.length ≤ 3 → tableAt s q = some t → ownTables s t = some t
  page : ∀ x ∈ supply, x ≠ 0 → ownTables s x = some x

theorem ownTables_congr {v : Word} (h : resolve s' v = resolve s v) :
    ownTables s' v = ownTables s v := by
  rw [ownTables, ownTables, h]

theorem Grown.resolve (hI : Inv s) (hg : Grown s s') (v : Word) : resolve s' v = resolve s v := by
  by_cases hv : canonical v
  · rw [hg.inv.resolve_eq hv, hI.resolve_eq hv, hg.translate v]
  · rw [Vmm.resolve, Vmm.resolve, if_neg fun hc => hv hc.1, if_neg fun hc => hv hc.1]

theorem Direct.grown (h : Direct s supply) (hI : Inv s) (hg : Grown s s')
    (hu : Uses s s' supply supply') : Direct s' supply' := by
  have hown : ∀ x, ownTables s' x = ownTables s x := fun x => ownTables_congr (hg.resolve hI x)
  refine ⟨fun q t hq ht => ?_, fun x hx h0 => ?_⟩
  · rw [hown]
    rcases hu.made q t hq ht with ht | ⟨ht, h0⟩
    · exact h.table q t hq ht
    · exact h.page t ht h0
  · rw [hown]
    exact h.page x (hu.suffix.subset hx) h0

/-- `get_or_alloc_table` through pointers. -/
theorem getTableVia_own {q : List (Fin 512)} {i : Fin 512} (hs : Fresh s supply)
    (hd : Direct s supply) (hq : q.length ≤ 3) (ht : tableAt s q = some t) :
    getTableVia ownTables s supply t i = getOrAllocTable s supply t i := by
  have hptr := hd.table q t hq ht
  unfold getTableVia getOrAllocTable
  rw [hptr]
  dsimp only
  split
  · rfl
  · cases supply with
    | nil => rfl
    | cons page rest =>
      dsimp only
      split
      · rfl
      · rename_i h0
        have hf := hs.page page List.mem_cons_self h0
        have hagree : TablesAgree s (s.clear page) :=
          tablesAgree_of_page rfl (fun u hu => funext fun j => if_neg hu) hf.notTable
        rw [hd.page page List.mem_cons_self h0]
        dsimp only
        rw [ownTables_congr (hagree.resolve t), hptr]

/-- Granting user access through pointers. -/
theorem grantUserVia_own {pdpt pd pt : Word} (hI : Inv s) (hd : Direct s supply)
    (hp : Path s vaddr pdpt pd pt) :
    grantUserVia ownTables s vaddr flags pdpt pd = some (grantUser s vaddr flags pdpt pd) := by
  rw [grantUserVia, grantUser]
  split
  · have hres : ∀ {u : State} {p : List (Fin 512)} {x : Word} (k : Fin 512), Inv u → p.length ≤ 2 →
        tableAt u p = some x → ∀ y, ownTables (u.setUser x k) y = ownTables u y := by
      intro u p x k hu hp hx y
      refine ownTables_congr (Grown.resolve hu ⟨hu.setUser hp hx, rfl, fun q w hq hw => ?_,
        translate_setUser hu hp hx⟩ y)
      rw [sameTables_setUser.tableAt hq]
      exact hw
    have h₃ : Inv (s.setUser s.pml4 (index vaddr 39)) := hI.setUser (p := []) (by simp) rfl
    have ht₃ : tableAt (s.setUser s.pml4 (index vaddr 39)) [index vaddr 39] = some pdpt :=
      (sameTables_setUser.tableAt (by simp)).trans hp.pdpt
    rw [setUserVia, hd.table [] _ (by simp) rfl, Option.map_some]
    dsimp only
    rw [setUserVia, hres (p := []) _ hI (by simp) rfl, hd.table _ _ (by simp) hp.pdpt, Option.map_some]
    dsimp only
    rw [setUserVia, hres _ h₃ (by simp) ht₃, hres (p := []) _ hI (by simp) rfl,
      hd.table _ _ (by simp) hp.pd, Option.map_some]
  · rfl

/-- **`map_page` through pointers**, as long as they lead where they point. -/
theorem mapPageVia_own (hI : Inv s) (hs : Fresh s supply) (hd : Direct s supply) :
    mapPageVia ownTables s supply vaddr paddr flags =
      mapPageVia physical s supply vaddr paddr flags := by
  unfold mapPageVia
  split
  · rfl
  split
  · rfl
  simp only [getTableVia_physical, grantUserVia_physical, physical]
  rw [getTableVia_own (q := []) hs hd (by simp) rfl]
  cases h₃ : getOrAllocTable s supply s.pml4 (index vaddr 39) with
  | none => rfl
  | some x =>
    obtain ⟨pdpt, sup₃, s₃⟩ := x
    obtain ⟨hg₃, hs₃, ht₃⟩ := getOrAllocTable_spec (p := []) hI (by simp) rfl hs h₃
    have hd₃ := hd.grown hI hg₃ (getOrAllocTable_uses (p := []) hI (by simp) rfl hs h₃)
    dsimp only
    split
    · rfl
    rename_i h0
    rw [getTableVia_own hs₃ hd₃ (by simp) (ht₃ h0)]
    cases h₂ : getOrAllocTable s₃ sup₃ pdpt (index vaddr 30) with
    | none => rfl
    | some x =>
      obtain ⟨pd, sup₂, s₂⟩ := x
      obtain ⟨hg₂, hs₂, ht₂⟩ :=
        getOrAllocTable_spec (p := [index vaddr 39]) hg₃.inv (by simp) (ht₃ h0) hs₃ h₂
      have hd₂ := hd₃.grown hg₃.inv hg₂
        (getOrAllocTable_uses (p := [index vaddr 39]) hg₃.inv (by simp) (ht₃ h0) hs₃ h₂)
      dsimp only
      split
      · rfl
      rename_i h0'
      rw [getTableVia_own hs₂ hd₂ (by simp) (ht₂ h0')]
      cases h₁ : getOrAllocTable s₂ sup₂ pd (index vaddr 21) with
      | none => rfl
      | some x =>
        obtain ⟨pt, sup₁, s₁⟩ := x
        obtain ⟨hg₁, hs₁, ht₁⟩ := getOrAllocTable_spec (p := [index vaddr 30, index vaddr 39])
          hg₂.inv (by simp) (ht₂ h0') hs₂ h₁
        have hd₁ := hd₂.grown hg₂.inv hg₁ (getOrAllocTable_uses
          (p := [index vaddr 30, index vaddr 39]) hg₂.inv (by simp) (ht₂ h0') hs₂ h₁)
        dsimp only
        split
        · rfl
        rename_i h0''
        have hp : Path s₁ vaddr pdpt pd pt :=
          ⟨hg₁.table _ _ (by simp) (hg₂.table _ _ (by simp) (ht₃ h0)),
            hg₁.table _ _ (by simp) (ht₂ h0'), ht₁ h0''⟩
        rw [grantUserVia_own hg₁.inv hd₁ hp]
        obtain ⟨hg, -, -⟩ := grantUser_spec hg₁.inv hp flags
        dsimp only
        rw [ownTables_congr (hg.resolve hg₁.inv pt), hd₁.table _ _ (by simp) hp.pt]

end Vmm

end Csos

import Csos.Vmm.Walk
/-!
# Virtual memory — ranges of pages

`map_page` is called in loops, each call taking up where `alloc_page` was
left. `mapPageVia` is `map_page` with what is left of the supply; it also
makes explicit that tables are reached through pointers, which lead where
the page tables in use say. With pointers that lead where they point it is
`mapPage`.

The tables are then seen as a map from pages to translations (`Realizes`):
a call updates one page of it, a loop a range.
-/

namespace Csos

namespace Vmm

variable {s s' s'' : State} {supply supply' supply'' : List Word}
  {vaddr paddr flags page t : Word} {r : ℤ}

/-- Where a pointer to a page leads in a state; `none` is a page fault. -/
abbrev Ptr := State → Word → Option Word

/-- Pointers lead where they point. -/
def physical : Ptr := fun _ page => some page

/-- Pointers lead where the tables of the state say. -/
def ownTables : Ptr := fun s page => (resolve s page).map fun a => frame a.addr

/-- `get_or_alloc_table`. -/
def getTableVia (ptr : Ptr) (s : State) (supply : List Word) (parent : Word) (i : Fin 512) :
    Option (Word × List Word × State) :=
  match ptr s parent with
  | none => none
  | some f =>
    if s.mem f i &&& ptePresent ≠ 0 then
      if s.mem f i &&& pteHuge ≠ 0 then some (0, supply, s)
      else some (tableFromEntry (s.mem f i), supply, s)
    else
      match supply with
      | [] => none
      | page :: supply =>
        if page = 0 then some (0, supply, s)
        else match ptr s page with
          | none => none
          | some g => match ptr (s.clear g) parent with
            | none => none
            | some f => some (page, supply,
                (s.clear g).set f i (page ||| ptePresent ||| pteWritable))

/-- `table[i] |= PTE_USER`. -/
def setUserVia (ptr : Ptr) (s : State) (table : Word) (i : Fin 512) : Option State :=
  (ptr s table).map fun f => s.setUser f i

/-- The user bits on the way to a leaf. -/
def grantUserVia (ptr : Ptr) (s : State) (vaddr flags pdpt pd : Word) : Option State :=
  if leafFlags flags &&& pteUser ≠ 0 then
    match setUserVia ptr s s.pml4 (index vaddr 39) with
    | none => none
    | some s => match setUserVia ptr s pdpt (index vaddr 30) with
      | none => none
      | some s => setUserVia ptr s pd (index vaddr 21)
  else some s

/-- `map_page`, with the rest of the supply. -/
def mapPageVia (ptr : Ptr) (s : State) (supply : List Word) (vaddr paddr flags : Word) :
    Option (ℤ × List Word × State) :=
  if s.pml4 = 0 then some (-1, supply, s)
  else if (vaddr ||| paddr) &&& pageOffMask ≠ 0 then some (-1, supply, s)
  else
    match getTableVia ptr s supply s.pml4 (index vaddr 39) with
    | none => none
    | some (pdpt, supply, s) =>
      if pdpt = 0 then some (-1, supply, s)
      else match getTableVia ptr s supply pdpt (index vaddr 30) with
        | none => none
        | some (pd, supply, s) =>
          if pd = 0 then some (-1, supply, s)
          else match getTableVia ptr s supply pd (index vaddr 21) with
            | none => none
            | some (pt, supply, s) =>
              if pt = 0 then some (-1, supply, s)
              else match grantUserVia ptr s vaddr flags pdpt pd with
                | none => none
                | some s => match ptr s pt with
                  | none => none
                  | some f =>
                    some (0, supply, s.set f (index vaddr 12)
                      ((paddr &&& pteAddrMask) ||| leafFlags flags))

/-! ## With pointers that lead where they point -/

theorem getTableVia_physical (s : State) (supply : List Word) (parent : Word) (i : Fin 512) :
    getTableVia physical s supply parent i = getOrAllocTable s supply parent i := rfl

theorem grantUserVia_physical (s : State) (vaddr flags pdpt pd : Word) :
    grantUserVia physical s vaddr flags pdpt pd = some (grantUser s vaddr flags pdpt pd) := by
  rw [grantUserVia, grantUser]
  split
  · rfl
  · rfl

/-- **`mapPageVia` is `mapPage`.** -/
theorem mapPage_eq_via (s : State) (supply : List Word) (vaddr paddr flags : Word) :
    mapPage s supply vaddr paddr flags =
      (mapPageVia physical s supply vaddr paddr flags).map fun x => (x.1, x.2.2) := by
  rw [mapPage, mapPageVia]
  split
  · rfl
  split
  · rfl
  simp only [getTableVia_physical, grantUserVia_physical, physical]
  cases getOrAllocTable s supply s.pml4 (index vaddr 39) with
  | none => rfl
  | some x =>
    obtain ⟨pdpt, sup₃, s₃⟩ := x
    dsimp only
    split
    · rfl
    cases getOrAllocTable s₃ sup₃ pdpt (index vaddr 30) with
    | none => rfl
    | some x =>
      obtain ⟨pd, sup₂, s₂⟩ := x
      dsimp only
      split
      · rfl
      cases getOrAllocTable s₂ sup₂ pd (index vaddr 21) with
      | none => rfl
      | some x =>
        obtain ⟨pt, sup₁, s₁⟩ := x
        dsimp only
        split
        · rfl
        · rfl

/-! ## What the tables are made of -/

/-- What a call does to memory: the tables of `s` stay, the new ones come out
of the supply, and nothing else is written. -/
structure Uses (s s' : State) (supply supply' : List Word) : Prop where
  suffix : supply' <:+ supply
  fresh : Fresh s' supply'
  keeps : ∀ q t, q.length ≤ 3 → tableAt s q = some t → tableAt s' q = some t
  made : ∀ q t, q.length ≤ 3 → tableAt s' q = some t → tableAt s q = some t ∨ t ∈ supply ∧ t ≠ 0
  mem : ∀ page, (∀ q, q.length ≤ 3 → tableAt s' q ≠ some page) → s'.mem page = s.mem page

theorem Uses.refl (h : Fresh s supply) : Uses s s supply supply :=
  ⟨List.suffix_refl _, h, fun _ _ _ h => h, fun _ _ _ h => .inl h, fun _ _ => rfl⟩

theorem Uses.trans (h : Uses s s' supply supply') (h' : Uses s' s'' supply' supply'') :
    Uses s s'' supply supply'' := by
  refine ⟨h'.suffix.trans h.suffix, h'.fresh,
    fun q t hq ht => h'.keeps q t hq (h.keeps q t hq ht), fun q t hq ht => ?_, fun page hp => ?_⟩
  · rcases h'.made q t hq ht with ht | ⟨ht, h0⟩
    · exact h.made q t hq ht
    · exact .inr ⟨h.suffix.subset ht, h0⟩
  · have hp' : ∀ q, q.length ≤ 3 → tableAt s' q ≠ some page :=
      fun q hq ht => hp q hq (h'.keeps q page hq ht)
    rw [h'.mem page hp, h.mem page hp']

/-- Stores into tables that move none of them. -/
theorem Uses.of_sameTables (h : Fresh s supply) (hsame : SameTables s s')
    (hmem : ∀ page, (∀ q, q.length ≤ 3 → tableAt s q ≠ some page) → s'.mem page = s.mem page) :
    Uses s s' supply supply := by
  refine ⟨List.suffix_refl _, ⟨fun x hx h0 => ⟨(h.page x hx h0).addr, fun q hq => ?_⟩, h.nodup⟩,
    fun q t hq ht => (hsame.tableAt hq).trans ht,
    fun q t hq ht => .inl ((hsame.tableAt hq).symm.trans ht), fun page hp => hmem page fun q hq => ?_⟩
  · rw [hsame.tableAt hq]
    exact (h.page x hx h0).notTable q hq
  · rw [← hsame.tableAt hq]
    exact hp q hq

theorem set_mem_of_table_ne {i : Fin 512} {e : Word} (h : page ≠ t) :
    (s.set t i e).mem page = s.mem page := by
  funext j
  exact State.set_mem_of_ne fun hc => h hc.1

/-- `get_or_alloc_table`. -/
theorem getOrAllocTable_uses {p : List (Fin 512)} {i : Fin 512} {t' : Word} (h : Inv s)
    (hp : p.length ≤ 2) (ht : tableAt s p = some t) (hs : Fresh s supply)
    (hr : getOrAllocTable s supply t i = some (t', supply', s')) : Uses s s' supply supply' := by
  obtain ⟨hg, hfresh, -⟩ := getOrAllocTable_spec h hp ht hs hr
  unfold getOrAllocTable at hr
  split at hr
  · split at hr
    · simp only [Option.some.injEq, Prod.mk.injEq] at hr
      obtain ⟨-, rfl, rfl⟩ := hr
      exact .refl hs
    · simp only [Option.some.injEq, Prod.mk.injEq] at hr
      obtain ⟨-, rfl, rfl⟩ := hr
      exact .refl hs
  · rename_i hpres
    rw [not_not, and_twoPow_eq_zero (by norm_num)] at hpres
    cases supply with
    | nil => exact absurd hr (by simp)
    | cons page rest =>
      simp only at hr
      split at hr
      · simp only [Option.some.injEq, Prod.mk.injEq] at hr
        obtain ⟨-, rfl, rfl⟩ := hr
        exact ⟨List.suffix_cons _ _, hfresh, fun _ _ _ h => h, fun _ _ _ h => .inl h, fun _ _ => rfl⟩
      · rename_i h0
        have hf := hs.page page List.mem_cons_self h0
        simp only [Option.some.injEq, Prod.mk.injEq] at hr
        obtain ⟨-, rfl, rfl⟩ := hr
        refine ⟨List.suffix_cons _ _, hfresh, hg.table, fun q u hq hu => ?_, fun x hx => ?_⟩
        · change tableAt (addTable s t i page) q = some u at hu
          rw [tableAt_addTable h hp ht hpres hf hq] at hu
          split at hu
          · exact .inr ⟨by rw [← Option.some.inj hu]; exact List.mem_cons_self,
              by rw [← Option.some.inj hu]; exact h0⟩
          · exact .inl hu
        · have hxp : x ≠ page := by
            rintro rfl
            refine hx (i :: p) (by simp only [List.length_cons]; omega) ?_
            change tableAt (addTable s t i x) _ = _
            rw [tableAt_addTable h hp ht hpres hf (by simp only [List.length_cons]; omega), if_pos rfl]
          have hxt : x ≠ t := by
            rintro rfl
            exact hx p (by omega) (hg.table p x (by omega) ht)
          funext j
          exact addTable_mem_of_ne hxp fun hc => hxt hc.1

theorem grantUser_mem {pdpt pd : Word} (h₄ : page ≠ s.pml4) (h₃ : page ≠ pdpt) (h₂ : page ≠ pd) :
    (grantUser s vaddr flags pdpt pd).mem page = s.mem page := by
  rw [grantUser]
  split
  · rw [State.setUser, set_mem_of_table_ne h₂, State.setUser, set_mem_of_table_ne h₃,
      State.setUser, set_mem_of_table_ne h₄]
  · rfl

/-- The stores after the tables are found. -/
theorem storeLeaf_uses {pdpt pd pt : Word} (h : Inv s) (hp : Path s vaddr pdpt pd pt)
    (hs : Fresh s supply) (e : Word) :
    Uses s ((grantUser s vaddr flags pdpt pd).set pt (index vaddr 12) e) supply supply := by
  obtain ⟨hg, hsame, -⟩ := grantUser_spec h hp flags
  have hgrant : Uses s (grantUser s vaddr flags pdpt pd) supply supply := by
    refine .of_sameTables hs hsame fun page hno => grantUser_mem ?_ ?_ ?_
    · rintro rfl
      exact hno [] (by simp) rfl
    · rintro rfl
      exact hno _ (by simp) hp.pdpt
    · rintro rfl
      exact hno _ (by simp) hp.pd
  have hpt := (hsame.tableAt (by simp)).trans hp.pt
  refine hgrant.trans (.of_sameTables hgrant.fresh (sameTables_set_leaf hg.inv hpt) fun page hno => ?_)
  refine set_mem_of_table_ne ?_
  rintro rfl
  exact hno _ (by simp) hpt

/-- **What a call can do**, with what is left of the supply. -/
theorem mapPageVia_cases (h : Inv s) (hs : Fresh s supply)
    (hr : mapPageVia physical s supply vaddr paddr flags = some (r, supply', s')) :
    (r = -1 ∧ Grown s s' ∧ Uses s s' supply supply') ∨
      (r = 0 ∧ (vaddr ||| paddr) &&& pageOffMask = 0 ∧
        ∃ s₁ pdpt pd pt, Grown s s₁ ∧ Uses s s₁ supply supply' ∧ Path s₁ vaddr pdpt pd pt ∧
          s' = (grantUser s₁ vaddr flags pdpt pd).set pt (index vaddr 12)
            ((paddr &&& pteAddrMask) ||| leafFlags flags)) := by
  unfold mapPageVia at hr
  rw [if_neg h.root_ne] at hr
  split at hr
  · obtain ⟨rfl, rfl, rfl⟩ := by simpa using hr
    exact .inl ⟨rfl, .refl h, .refl hs⟩
  rename_i hal
  rw [not_not] at hal
  simp only [getTableVia_physical, grantUserVia_physical, physical] at hr
  cases h₃ : getOrAllocTable s supply s.pml4 (index vaddr 39) with
  | none => simp [h₃] at hr
  | some x =>
    obtain ⟨pdpt, sup₃, s₃⟩ := x
    obtain ⟨hg₃, hs₃, ht₃⟩ := getOrAllocTable_spec (p := []) h (by simp) rfl hs h₃
    have hu₃ := getOrAllocTable_uses (p := []) h (by simp) rfl hs h₃
    simp only [h₃] at hr
    split at hr
    · obtain ⟨rfl, rfl, rfl⟩ := by simpa using hr
      exact .inl ⟨rfl, hg₃, hu₃⟩
    rename_i h0
    cases h₂ : getOrAllocTable s₃ sup₃ pdpt (index vaddr 30) with
    | none => simp [h₂] at hr
    | some x =>
      obtain ⟨pd, sup₂, s₂⟩ := x
      obtain ⟨hg₂, hs₂, ht₂⟩ :=
        getOrAllocTable_spec (p := [index vaddr 39]) hg₃.inv (by simp) (ht₃ h0) hs₃ h₂
      have hu₂ := hu₃.trans
        (getOrAllocTable_uses (p := [index vaddr 39]) hg₃.inv (by simp) (ht₃ h0) hs₃ h₂)
      simp only [h₂] at hr
      split at hr
      · obtain ⟨rfl, rfl, rfl⟩ := by simpa using hr
        exact .inl ⟨rfl, hg₃.trans hg₂, hu₂⟩
      rename_i h0'
      cases h₁ : getOrAllocTable s₂ sup₂ pd (index vaddr 21) with
      | none => simp [h₁] at hr
      | some x =>
        obtain ⟨pt, sup₁, s₁⟩ := x
        obtain ⟨hg₁, -, ht₁⟩ :=
          getOrAllocTable_spec (p := [index vaddr 30, index vaddr 39]) hg₂.inv (by simp) (ht₂ h0')
            hs₂ h₁
        have hu₁ := hu₂.trans (getOrAllocTable_uses (p := [index vaddr 30, index vaddr 39]) hg₂.inv
          (by simp) (ht₂ h0') hs₂ h₁)
        simp only [h₁] at hr
        split at hr
        · obtain ⟨rfl, rfl, rfl⟩ := by simpa using hr
          exact .inl ⟨rfl, (hg₃.trans hg₂).trans hg₁, hu₁⟩
        rename_i h0''
        simp only [Option.some.injEq, Prod.mk.injEq] at hr
        obtain ⟨rfl, rfl, rfl⟩ := hr
        exact .inr ⟨rfl, hal, s₁, pdpt, pd, pt, (hg₃.trans hg₂).trans hg₁, hu₁,
          ⟨hg₁.table _ _ (by simp) (hg₂.table _ _ (by simp) (ht₃ h0)),
            hg₁.table _ _ (by simp) (ht₂ h0'), ht₁ h0''⟩, rfl⟩

/-! ## The tables as a map -/

/-- The number of the page of an address, modulo `2 ^ 48`. -/
def vpage (v : Word) : ℕ := v.toNat % 2 ^ 48 / 4096

/-- **The tables realize a map** from pages to translations. -/
structure Realizes (s : State) (M : ℕ → Option Translation) : Prop where
  inv : Inv s
  translate : ∀ v, translate s v = M (vpage v)

theorem index_val (v : Word) (sh : ℕ) : (index v sh).val = v.toNat / 2 ^ sh % 512 := by
  rw [index, Fin.val_ofNat, BitVec.toNat_ushiftRight, Nat.shiftRight_eq_div_pow]

/-- The page determines the walk. -/
theorem index_eq_of_vpage_eq {v v' : Word} (h : vpage v = vpage v') :
    index v 39 = index v' 39 ∧ index v 30 = index v' 30 ∧ index v 21 = index v' 21 ∧
      index v 12 = index v' 12 := by
  simp only [Fin.ext_iff, index_val, vpage] at h ⊢
  norm_num at h ⊢
  omega

theorem translate_eq_of_vpage_eq {v v' : Word} (h : vpage v = vpage v') :
    translate s v = translate s v' := by
  obtain ⟨h4, h3, h2, h1⟩ := index_eq_of_vpage_eq h
  simp only [translate, h4, h3, h2, h1]

/-- **A call updates the map at one page.** -/
theorem Realizes.mapPage {M : ℕ → Option Translation} (h : Realizes s M) (hs : Fresh s supply)
    (hpa : paddr.toNat < 2 ^ 52) (hfl : flags &&& ~~~pteFlags = 0)
    (hr : mapPageVia physical s supply vaddr paddr flags = some (0, supply', s')) :
    Realizes s' (Function.update M (vpage vaddr)
        (some ⟨paddr, leafFlags flags, flags.getLsbD 2⟩)) ∧ Uses s s' supply supply' ∧
      vaddr &&& pageOffMask = 0 ∧ paddr &&& pageOffMask = 0 := by
  rcases mapPageVia_cases h.inv hs hr with ⟨h0, -⟩ | ⟨-, hal, s₁, pdpt, pd, pt, hg, hu, hp, rfl⟩
  · exact absurd h0 (by decide)
  have hal' : vaddr &&& pageOffMask = 0 ∧ paddr &&& pageOffMask = 0 := by
    rw [BitVec.and_or_distrib_right] at hal
    exact BitVec.or_eq_zero_iff.mp hal
  have hub : userBit ((paddr &&& pteAddrMask) ||| leafFlags flags) = flags.getLsbD 2 := by
    rw [userBit, getLsbD_leaf (by norm_num)]
    simp [leafFlags]
  obtain ⟨hinv, hframe, hself⟩ := storeLeaf_spec hg.inv hp _ hub
  refine ⟨⟨hinv, fun v => ?_⟩, hu.trans (storeLeaf_uses hg.inv hp hu.fresh _), hal'⟩
  by_cases hv : vpage v = vpage vaddr
  · rw [translate_eq_of_vpage_eq hv, hv, Function.update_self,
      hself (by rw [getLsbD_leaf (by norm_num)]; exact leafFlags_present flags), hub,
      pteAddr_leaf (pteAddr_eq_self hpa hal'.2) hfl, flags_leaf hfl]
  · rw [Function.update_of_ne hv, ← h.translate v, ← hg.translate v]
    apply hframe
    rintro ⟨h4, h3, h2, h1⟩
    exact hv (page_eq_of_index_eq h4 h3 h2 h1)

/-! ## Loops -/

/-- A loop of `map_page` over `n` pages, up to the first call that fails. -/
def mapPages (ptr : Ptr) (flags : Word) : ℕ → Word → Word → List Word → State →
    Option (ℤ × List Word × State)
  | 0, _, _, supply, s => some (0, supply, s)
  | n + 1, virt, phys, supply, s =>
    match mapPageVia ptr s supply virt phys flags with
    | none => none
    | some (r, supply, s) =>
      if r ≠ 0 then some (-1, supply, s)
      else mapPages ptr flags n (virt + 4096#64) (phys + 4096#64) supply s

/-- The map with `n` pages from `first` on mapped to the pages from `phys` on. -/
def mapRange (M : ℕ → Option Translation) (first n phys : ℕ) (flags : Word) :
    ℕ → Option Translation := fun q =>
  if first ≤ q ∧ q < first + n then
    some ⟨BitVec.ofNat 64 (phys + (q - first) * 4096), leafFlags flags, flags.getLsbD 2⟩
  else M q

theorem mapRange_succ (M : ℕ → Option Translation) (first n phys : ℕ) (flags : Word) :
    mapRange (Function.update M first (some ⟨BitVec.ofNat 64 phys, leafFlags flags,
      flags.getLsbD 2⟩)) (first + 1) n (phys + 4096) flags = mapRange M first (n + 1) phys flags := by
  funext q
  rw [mapRange, mapRange]
  by_cases hq : q = first
  · subst hq
    rw [if_neg (by omega), if_pos (by omega), Function.update_self, Nat.sub_self, Nat.zero_mul,
      Nat.add_zero]
  · rw [Function.update_of_ne hq]
    by_cases hin : first + 1 ≤ q ∧ q < first + 1 + n
    · rw [if_pos hin, if_pos (by omega)]
      congr 3
      obtain ⟨k, rfl⟩ : ∃ k, q = first + 1 + k := ⟨q - (first + 1), by omega⟩
      rw [show first + 1 + k - (first + 1) = k by omega, show first + 1 + k - first = k + 1 by omega]
      omega
    · rw [if_neg hin, if_neg (by omega)]

/-- **A loop updates the map over a range.** -/
theorem Realizes.mapPages {n : ℕ} {virt phys : Word} {M : ℕ → Option Translation}
    (h : Realizes s M) (hs : Fresh s supply) (hfl : flags &&& ~~~pteFlags = 0)
    (hvirt : vpage virt + n ≤ 2 ^ 36) (hphys : phys.toNat + n * 4096 ≤ 2 ^ 52)
    (hr : mapPages physical flags n virt phys supply s = some (0, supply', s')) :
    Realizes s' (mapRange M (vpage virt) n phys.toNat flags) ∧ Uses s s' supply supply' := by
  induction n generalizing virt phys M supply s with
  | zero =>
    rw [Vmm.mapPages] at hr
    simp only [Option.some.injEq, Prod.mk.injEq] at hr
    obtain ⟨-, rfl, rfl⟩ := hr
    refine ⟨?_, .refl hs⟩
    have hM : mapRange M (vpage virt) 0 phys.toNat flags = M := by
      funext q
      rw [mapRange, if_neg (by omega)]
    rw [hM]
    exact h
  | succ n ih =>
    rw [Vmm.mapPages] at hr
    split at hr
    · exact absurd hr (by simp)
    rename_i r sup₁ s₁ hcall
    split at hr
    · simp only [Option.some.injEq, Prod.mk.injEq] at hr
      exact absurd hr.1 (by decide)
    rename_i hr0
    rw [not_not] at hr0
    subst hr0
    obtain ⟨h₁, hu₁, hal, -⟩ := h.mapPage hs (by omega) hfl hcall
    -- the next page: its number is one more, since the range does not wrap
    have hal : virt.toNat % 4096 = 0 := by
      have := congrArg BitVec.toNat hal
      rw [BitVec.toNat_and, show (pageOffMask).toNat = 2 ^ 12 - 1 by decide,
        Nat.and_two_pow_sub_one_eq_mod] at this
      exact this
    rcases Nat.eq_zero_or_pos n with rfl | hn
    · rw [Vmm.mapPages] at hr
      simp only [Option.some.injEq, Prod.mk.injEq] at hr
      obtain ⟨-, rfl, rfl⟩ := hr
      refine ⟨?_, hu₁⟩
      have hM : mapRange M (vpage virt) 1 phys.toNat flags = Function.update M (vpage virt)
          (some ⟨phys, leafFlags flags, flags.getLsbD 2⟩) := by
        rw [← mapRange_succ]
        funext q
        rw [mapRange, if_neg (by omega), BitVec.ofNat_toNat, BitVec.setWidth_eq]
      rw [hM]
      exact h₁
    have hnext : vpage (virt + 4096#64) = vpage virt + 1 := by
      simp only [vpage, BitVec.toNat_add, BitVec.toNat_ofNat] at hvirt ⊢
      omega
    have hp : (phys + 4096#64).toNat = phys.toNat + 4096 := by
      rw [BitVec.toNat_add, BitVec.toNat_ofNat]
      omega
    obtain ⟨h₂, hu₂⟩ := ih h₁ hu₁.fresh (by omega) (by omega) hr
    refine ⟨?_, hu₁.trans hu₂⟩
    rw [hnext, hp] at h₂
    rw [← mapRange_succ, BitVec.ofNat_toNat, BitVec.setWidth_eq]
    exact h₂

end Vmm

end Csos

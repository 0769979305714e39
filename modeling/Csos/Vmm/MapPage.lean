import Csos.Vmm.Tree
import Csos.Common.Runs
/-!
# Virtual memory — `map_page` changes one translation

The three calls of `get_or_alloc_table` grow the tree and change no
translation. The stores after them set user bits, which moves no table and,
by `Inv.user`, opens no other leaf, and write one leaf, which lies on one
path only.
-/

namespace Csos

namespace Vmm

variable {s s' s'' : State} {t t' e page : Word} {i j : Fin 512} {p q : List (Fin 512)}
  {supply supply' : List Word} {vaddr paddr flags : Word} {r : ℤ}
  {i₄ i₃ i₂ i₁ : Fin 512} {t₃ t₂ t₁ : Word}

/-- In a state that keeps the invariant the leaf alone says what a walk
makes of its entries. -/
theorem Inv.translation_eq (h : Inv s) (hw : Walk s i₄ i₃ i₂ i₁ t₃ t₂ t₁) :
    translation (s.mem s.pml4 i₄) (s.mem t₃ i₃) (s.mem t₂ i₂) (s.mem t₁ i₁) =
      ⟨pteAddr (s.mem t₁ i₁), s.mem t₁ i₁ &&& ~~~pteAddrMask, userBit (s.mem t₁ i₁)⟩ := by
  rw [translation]
  cases hu : userBit (s.mem t₁ i₁) with
  | false => rw [Bool.and_false]
  | true =>
    obtain ⟨h4, h3, h2⟩ := h.user hw hu
    rw [h4, h3, h2]
    rfl

/-- **Equal walks to equal leaves translate alike.** -/
theorem Inv.translate_congr (h : Inv s) (h' : Inv s') {v : Word}
    (hiff : ∀ t₃ t₂ t₁, Walk s' (index v 39) (index v 30) (index v 21) (index v 12) t₃ t₂ t₁ ↔
      Walk s (index v 39) (index v 30) (index v 21) (index v 12) t₃ t₂ t₁)
    (hleaf : ∀ t₃ t₂ t₁, Walk s (index v 39) (index v 30) (index v 21) (index v 12) t₃ t₂ t₁ →
      s'.mem t₁ (index v 12) = s.mem t₁ (index v 12)) :
    translate s' v = translate s v := by
  refine Vmm.translate_congr hiff fun t₃ t₂ t₁ hw => ?_
  rw [h'.translation_eq ((hiff _ _ _).mpr hw), h.translation_eq hw, hleaf _ _ _ hw]

/-! ## Stores that move no table -/

/-- `s'` has the tables of `s`. -/
structure SameTables (s s' : State) : Prop where
  pml4 : s'.pml4 = s.pml4
  child : ∀ p t i, p.length ≤ 2 → tableAt s p = some t → child s' t i = child s t i

theorem SameTables.tableAt (h : SameTables s s') (hp : p.length ≤ 3) :
    tableAt s' p = tableAt s p := by
  induction p with
  | nil => rw [Vmm.tableAt, Vmm.tableAt, h.pml4]
  | cons i p ih =>
    simp only [List.length_cons] at hp
    rw [Vmm.tableAt, Vmm.tableAt, ih (by omega)]
    cases ht : Vmm.tableAt s p with
    | none => rfl
    | some t => exact h.child p t i (by omega) ht

/-- The walks agree once their leaves do. -/
theorem SameTables.walk (h : SameTables s s')
    (hleaf : Vmm.tableAt s [i₂, i₃, i₄] = some t₁ →
      (s'.mem t₁ i₁).getLsbD 0 = (s.mem t₁ i₁).getLsbD 0) :
    Walk s' i₄ i₃ i₂ i₁ t₃ t₂ t₁ ↔ Walk s i₄ i₃ i₂ i₁ t₃ t₂ t₁ := by
  constructor
  · intro hw
    have ht₃ := (h.tableAt (by simp)).symm.trans hw.table₃
    have ht₂ := (h.tableAt (by simp)).symm.trans hw.table₂
    have ht₁ := (h.tableAt (by simp)).symm.trans hw.table₁
    exact ⟨by rw [← h.child [] _ i₄ (by simp) rfl, ← h.pml4]; exact hw.child₄,
      (h.child [i₄] _ i₃ (by simp) ht₃).symm.trans hw.child₃,
      (h.child [i₃, i₄] _ i₂ (by simp) ht₂).symm.trans hw.child₂, (hleaf ht₁).symm.trans hw.leaf⟩
  · intro hw
    exact ⟨by rw [h.pml4, h.child [] _ i₄ (by simp) rfl]; exact hw.child₄,
      (h.child [i₄] _ i₃ (by simp) hw.table₃).trans hw.child₃,
      (h.child [i₃, i₄] _ i₂ (by simp) hw.table₂).trans hw.child₂,
      (hleaf hw.table₁).trans hw.leaf⟩

theorem SameTables.tree (h : SameTables s s') (hi : Inv s) : ∀ p q t, p.length ≤ 3 →
    q.length ≤ 3 → Vmm.tableAt s' p = some t → Vmm.tableAt s' q = some t → p = q := by
  intro p q t hp hq hpt hqt
  rw [h.tableAt hp] at hpt
  rw [h.tableAt hq] at hqt
  exact hi.tree p q t hp hq hpt hqt

theorem State.set_mem_self : (s.set t i e).mem t i = e := by
  simp only [State.set, and_self, if_true]

theorem State.set_mem_of_ne (h : ¬ (t' = t ∧ j = i)) : (s.set t i e).mem t' j = s.mem t' j := by
  simp only [State.set, if_neg h]

/-! ### User bits -/

/-- What `PTE_USER` set in an entry leaves of every entry. -/
theorem setUser_mem (s : State) (t : Word) (i : Fin 512) (t' : Word) (j : Fin 512) :
    (s.setUser t i).mem t' j = s.mem t' j ∨ (s.setUser t i).mem t' j = s.mem t' j ||| pteUser := by
  by_cases hc : t' = t ∧ j = i
  · obtain ⟨rfl, rfl⟩ := hc
    exact Or.inr State.set_mem_self
  · exact Or.inl (State.set_mem_of_ne hc)

theorem userBit_or_user (e : Word) : userBit (e ||| pteUser) = true := by
  simp [userBit]

theorem setUser_present : ((s.setUser t i).mem t' j).getLsbD 0 = (s.mem t' j).getLsbD 0 := by
  rcases setUser_mem s t i t' j with he | he <;> rw [he]
  simp

/-- A user bit that is set stays set. -/
theorem setUser_userBit (h : userBit (s.mem t' j) = true) :
    userBit ((s.setUser t i).mem t' j) = true := by
  rcases setUser_mem s t i t' j with he | he <;> rw [he]
  · exact h
  · exact userBit_or_user _

theorem setUser_leads : leads ((s.setUser t i).mem t' j) = leads (s.mem t' j) := by
  rcases setUser_mem s t i t' j with he | he <;> rw [he]
  exact leads_or_user _

theorem setUser_pteAddr : pteAddr ((s.setUser t i).mem t' j) = pteAddr (s.mem t' j) := by
  rcases setUser_mem s t i t' j with he | he <;> rw [he]
  exact pteAddr_or_user _

theorem sameTables_setUser : SameTables s (s.setUser t i) :=
  ⟨rfl, fun _ _ _ _ _ => by rw [child, child, setUser_leads, setUser_pteAddr]⟩

section SetUser

variable (h : Inv s) (hp : p.length ≤ 2) (ht : tableAt s p = some t)
include h hp ht

/-- The last level is not touched. -/
theorem setUser_leaf (ht₁ : tableAt s [i₂, i₃, i₄] = some t₁) :
    (s.setUser t i).mem t₁ j = s.mem t₁ j := by
  refine State.set_mem_of_ne ?_
  rintro ⟨rfl, -⟩
  have := h.tree _ _ _ (by simp) (by omega) ht₁ ht
  rw [← this] at hp
  simp at hp

theorem Inv.setUser : Inv (s.setUser t i) := by
  have hsame : SameTables s (s.setUser t i) := sameTables_setUser
  refine ⟨h.root_ne, hsame.tree h, fun q t' j hq hqt hpres => ?_, fun hw hu => ?_⟩
  · rw [setUser_present] at hpres
    rw [setUser_leads, setUser_pteAddr]
    rw [hsame.tableAt (by omega)] at hqt
    exact h.link q t' j hq hqt hpres
  · have hw' := (hsame.walk fun _ => setUser_present).mp hw
    rw [setUser_leaf h hp ht hw'.table₁] at hu
    obtain ⟨h4, h3, h2⟩ := h.user hw' hu
    exact ⟨setUser_userBit h4, setUser_userBit h3, setUser_userBit h2⟩

/-- **Granting user access above the last level opens no page.** -/
theorem translate_setUser (v : Word) : translate (s.setUser t i) v = translate s v :=
  h.translate_congr (h.setUser hp ht)
    (fun _ _ _ => sameTables_setUser.walk fun _ => setUser_present)
    (fun _ _ _ hw => setUser_leaf h hp ht hw.table₁)

end SetUser

/-! ### The leaf -/

section Leaf

variable (h : Inv s) (ht : tableAt s [i₂, i₃, i₄] = some t)
include h ht

theorem sameTables_set_leaf : SameTables s (s.set t i₁ e) := by
  refine ⟨rfl, fun q t' j hq hqt => ?_⟩
  rw [child, child, State.set_mem_of_ne]
  rintro ⟨rfl, -⟩
  have := h.tree _ _ _ (by simp) (by omega) ht hqt
  rw [← this] at hq
  simp at hq

/-- An entry that is not the leaf's is kept. -/
theorem set_leaf_of_ne {j₄ j₃ j₂ j₁ : Fin 512} (ht₁ : tableAt s [j₂, j₃, j₄] = some t₁)
    (hne : ¬ (j₄ = i₄ ∧ j₃ = i₃ ∧ j₂ = i₂ ∧ j₁ = i₁)) :
    (s.set t i₁ e).mem t₁ j₁ = s.mem t₁ j₁ := by
  refine State.set_mem_of_ne ?_
  rintro ⟨rfl, rfl⟩
  have := h.tree _ _ _ (by simp) (by simp) ht₁ ht
  simp only [List.cons.injEq, and_true] at this
  exact hne ⟨this.2.2, this.2.1, this.1, rfl⟩

/-- An entry above the last level is kept. -/
theorem set_leaf_above (hq : q.length ≤ 2) (hqt : tableAt s q = some t') :
    (s.set t i₁ e).mem t' j = s.mem t' j := by
  refine State.set_mem_of_ne ?_
  rintro ⟨rfl, -⟩
  have := h.tree _ _ _ (by simp) (by omega) ht hqt
  rw [← this] at hq
  simp at hq

theorem Inv.set_leaf
    (huser : userBit e = true → ∀ t₃ t₂, Walk (s.set t i₁ e) i₄ i₃ i₂ i₁ t₃ t₂ t →
      userBit (s.mem s.pml4 i₄) = true ∧ userBit (s.mem t₃ i₃) = true ∧
        userBit (s.mem t₂ i₂) = true) :
    Inv (s.set t i₁ e) := by
  have hsame : SameTables s (s.set t i₁ e) := sameTables_set_leaf h ht
  refine ⟨h.root_ne, hsame.tree h, fun q t' j hq hqt hpres => ?_,
    fun {j₄ j₃ j₂ j₁ u₃ u₂ u₁} hw hu => ?_⟩
  · rw [hsame.tableAt (by omega)] at hqt
    rw [set_leaf_above h ht hq hqt] at hpres ⊢
    exact h.link q t' j hq hqt hpres
  · have hu₃ := (hsame.tableAt (by simp)).symm.trans hw.table₃
    have hu₂ := (hsame.tableAt (by simp)).symm.trans hw.table₂
    have hu₁ := (hsame.tableAt (by simp)).symm.trans hw.table₁
    rw [set_leaf_above h ht (q := [j₄]) (by simp) hu₃,
      set_leaf_above h ht (q := [j₃, j₄]) (by simp) hu₂]
    change userBit ((s.set t i₁ e).mem s.pml4 j₄) = true ∧ _
    rw [set_leaf_above h ht (q := []) (by simp) rfl]
    by_cases hc : j₄ = i₄ ∧ j₃ = i₃ ∧ j₂ = i₂ ∧ j₁ = i₁
    · obtain ⟨rfl, rfl, rfl, rfl⟩ := hc
      obtain rfl : u₁ = t := Option.some.inj (hu₁.symm.trans ht)
      rw [State.set_mem_self] at hu
      exact huser hu _ _ hw
    · have hkeep := set_leaf_of_ne (e := e) h ht hu₁ hc
      rw [hkeep] at hu
      exact h.user ((hsame.walk fun _ => by rw [hkeep]).mp hw) hu

end Leaf

/-! ## Growing the tree -/

/-- What `alloc_page` may answer in turn: `0`, or a fresh page, a page
once only. -/
structure Fresh (s : State) (supply : List Word) : Prop where
  page : ∀ x ∈ supply, x ≠ 0 → FreshPage s x
  nodup : supply.Pairwise fun a b => a ≠ 0 → a ≠ b

/-- `s'` has the tables of `s` and perhaps more, and translates as `s`. -/
structure Grown (s s' : State) : Prop where
  inv : Inv s'
  pml4 : s'.pml4 = s.pml4
  table : ∀ q u, q.length ≤ 3 → tableAt s q = some u → tableAt s' q = some u
  translate : ∀ v, translate s' v = translate s v

theorem Grown.refl (h : Inv s) : Grown s s :=
  ⟨h, rfl, fun _ _ _ h => h, fun _ => rfl⟩

theorem Grown.trans (h : Grown s s') (h' : Grown s' s'') : Grown s s'' :=
  ⟨h'.inv, h'.pml4.trans h.pml4, fun q u hq hu => h'.table q u hq (h.table q u hq hu),
    fun v => (h'.translate v).trans (h.translate v)⟩

/-- **`get_or_alloc_table`.** The tree grows, and a table that is returned
is the one the entry leads to. -/
theorem getOrAllocTable_spec (h : Inv s) (hp : p.length ≤ 2) (ht : tableAt s p = some t)
    (hs : Fresh s supply) (hr : getOrAllocTable s supply t i = some (t', supply', s')) :
    Grown s s' ∧ Fresh s' supply' ∧ (t' ≠ 0 → tableAt s' (i :: p) = some t') := by
  unfold getOrAllocTable at hr
  split at hr
  · rename_i hpres
    rw [and_twoPow_ne_zero (by norm_num)] at hpres
    obtain ⟨hlead, -⟩ := h.link p t i hp ht hpres
    have h7 := (leads_iff.mp hlead).2
    rw [if_neg (by rw [ne_eq, not_not, and_twoPow_eq_zero (by norm_num)]; exact h7)] at hr
    simp only [Option.some.injEq, Prod.mk.injEq] at hr
    obtain ⟨rfl, rfl, rfl⟩ := hr
    refine ⟨Grown.refl h, hs, fun _ => tableAt_cons.mpr ⟨t, ht, child_eq_some.mpr ⟨hlead, ?_⟩⟩⟩
    rw [tableFromEntry, if_neg (by rw [and_twoPow_eq_zero (by norm_num), hpres]; simp)]
  · rename_i hpres
    rw [not_not, and_twoPow_eq_zero (by norm_num)] at hpres
    cases supply with
    | nil => exact absurd hr (by simp)
    | cons page rest =>
      have hrest := List.pairwise_cons.mp hs.nodup
      simp only at hr
      split at hr
      · rename_i h0
        simp only [Option.some.injEq, Prod.mk.injEq] at hr
        obtain ⟨rfl, rfl, rfl⟩ := hr
        exact ⟨Grown.refl h, ⟨fun x hx => hs.page x (List.mem_cons_of_mem _ hx), hrest.2⟩,
          fun hne => absurd rfl hne⟩
      · rename_i h0
        have hf := hs.page page List.mem_cons_self h0
        simp only [Option.some.injEq, Prod.mk.injEq] at hr
        obtain ⟨rfl, rfl, rfl⟩ := hr
        change Grown s (addTable s t i page) ∧ Fresh (addTable s t i page) rest ∧
          (page ≠ 0 → tableAt (addTable s t i page) (i :: p) = some page)
        have htab : ∀ {q : List (Fin 512)}, q.length ≤ 3 →
            tableAt (addTable s t i page) q = if q = i :: p then some page else tableAt s q :=
          fun hq => tableAt_addTable h hp ht hpres hf hq
        refine ⟨⟨h.addTable hp ht hpres hf h0, rfl, fun q u hq hu => ?_,
          translate_addTable h hp ht hpres hf⟩, ⟨fun x hx hx0 => ?_, hrest.2⟩, fun _ => ?_⟩
        · rw [htab hq, if_neg, hu]
          rintro rfl
          rw [tableAt, ht, Option.bind_some, child_eq_none hpres] at hu
          exact absurd hu (by simp)
        · have hfx := hs.page x (List.mem_cons_of_mem _ hx) hx0
          refine ⟨hfx.addr, fun q hq => ?_⟩
          rw [htab hq]
          split
          · exact fun e => hrest.1 x hx h0 (Option.some.inj e)
          · exact hfx.notTable q hq
        · rw [htab (by simp only [List.length_cons]; omega), if_pos rfl]

/-- `get_or_alloc_table` takes at most one answer of `alloc_page`. -/
theorem getOrAllocTable_isSome {n : ℕ} (hn : n + 1 ≤ supply.length) :
    ∃ t' supply' s', getOrAllocTable s supply t i = some (t', supply', s') ∧
      n ≤ supply'.length := by
  unfold getOrAllocTable
  split
  · split
    · exact ⟨_, _, _, rfl, by omega⟩
    · exact ⟨_, _, _, rfl, by omega⟩
  · cases supply with
    | nil => exact absurd hn (by simp)
    | cons page rest =>
      simp only [List.length_cons] at hn
      simp only
      split
      · exact ⟨_, rest, _, rfl, by omega⟩
      · exact ⟨_, rest, _, rfl, by omega⟩

/-- **`map_page` returns**, with three answers of `alloc_page` at most. -/
theorem mapPage_isSome (h : 3 ≤ supply.length) :
    (mapPage s supply vaddr paddr flags).isSome = true := by
  unfold mapPage
  split
  · rfl
  split
  · rfl
  obtain ⟨pdpt, sup₃, s₃, h₃, hl₃⟩ := getOrAllocTable_isSome (n := 2) (s := s) (t := s.pml4)
    (i := index vaddr 39) h
  simp only [h₃]
  split
  · rfl
  obtain ⟨pd, sup₂, s₂, h₂, hl₂⟩ := getOrAllocTable_isSome (n := 1) (s := s₃) (t := pdpt)
    (i := index vaddr 30) hl₃
  simp only [h₂]
  split
  · rfl
  obtain ⟨pt, sup₁, s₁, h₁, -⟩ := getOrAllocTable_isSome (n := 0) (s := s₂) (t := pd)
    (i := index vaddr 21) hl₂
  simp only [h₁]
  split
  · rfl
  · rfl

/-! ## The call -/

/-- The user bits `map_page` sets on the way to a leaf. -/
def grantUser (s : State) (vaddr flags pdpt pd : Word) : State :=
  if leafFlags flags &&& pteUser ≠ 0 then
    ((s.setUser s.pml4 (index vaddr 39)).setUser pdpt (index vaddr 30)).setUser pd (index vaddr 21)
  else s

/-- The tables the walk of `vaddr` passes. -/
structure Path (s : State) (vaddr pdpt pd pt : Word) : Prop where
  pdpt : tableAt s [index vaddr 39] = some pdpt
  pd : tableAt s [index vaddr 30, index vaddr 39] = some pd
  pt : tableAt s [index vaddr 21, index vaddr 30, index vaddr 39] = some pt

/-- **What a call can do.** -/
theorem mapPage_cases (h : Inv s) (hs : Fresh s supply)
    (hr : mapPage s supply vaddr paddr flags = some (r, s')) :
    (r = -1 ∧ Grown s s') ∨
      (r = 0 ∧ (vaddr ||| paddr) &&& pageOffMask = 0 ∧
        ∃ s₁ pdpt pd pt, Grown s s₁ ∧ Path s₁ vaddr pdpt pd pt ∧
          s' = (grantUser s₁ vaddr flags pdpt pd).set pt (index vaddr 12)
            ((paddr &&& pteAddrMask) ||| leafFlags flags)) := by
  unfold mapPage at hr
  rw [if_neg h.root_ne] at hr
  split at hr
  · obtain ⟨rfl, rfl⟩ := by simpa using hr
    exact Or.inl ⟨rfl, Grown.refl h⟩
  rename_i hal
  rw [not_not] at hal
  simp only at hr
  cases h₃ : getOrAllocTable s supply s.pml4 (index vaddr 39) with
  | none => simp [h₃] at hr
  | some x =>
    obtain ⟨pdpt, sup₃, s₃⟩ := x
    obtain ⟨hg₃, hs₃, ht₃⟩ := getOrAllocTable_spec (p := []) h (by simp) rfl hs h₃
    simp only [h₃] at hr
    split at hr
    · obtain ⟨rfl, rfl⟩ := by simpa using hr
      exact Or.inl ⟨rfl, hg₃⟩
    rename_i h0
    cases h₂ : getOrAllocTable s₃ sup₃ pdpt (index vaddr 30) with
    | none => simp [h₂] at hr
    | some x =>
      obtain ⟨pd, sup₂, s₂⟩ := x
      obtain ⟨hg₂, hs₂, ht₂⟩ :=
        getOrAllocTable_spec (p := [index vaddr 39]) hg₃.inv (by simp) (ht₃ h0) hs₃ h₂
      simp only [h₂] at hr
      split at hr
      · obtain ⟨rfl, rfl⟩ := by simpa using hr
        exact Or.inl ⟨rfl, hg₃.trans hg₂⟩
      rename_i h0'
      cases h₁ : getOrAllocTable s₂ sup₂ pd (index vaddr 21) with
      | none => simp [h₁] at hr
      | some x =>
        obtain ⟨pt, sup₁, s₁⟩ := x
        obtain ⟨hg₁, -, ht₁⟩ :=
          getOrAllocTable_spec (p := [index vaddr 30, index vaddr 39]) hg₂.inv (by simp) (ht₂ h0')
            hs₂ h₁
        simp only [h₁] at hr
        split at hr
        · obtain ⟨rfl, rfl⟩ := by simpa using hr
          exact Or.inl ⟨rfl, (hg₃.trans hg₂).trans hg₁⟩
        rename_i h0''
        simp only [Option.some.injEq, Prod.mk.injEq] at hr
        obtain ⟨rfl, rfl⟩ := hr
        exact Or.inr ⟨rfl, hal, s₁, pdpt, pd, pt, (hg₃.trans hg₂).trans hg₁,
          ⟨hg₁.table _ _ (by simp) (hg₂.table _ _ (by simp) (ht₃ h0)),
            hg₁.table _ _ (by simp) (ht₂ h0'), ht₁ h0''⟩, rfl⟩

section Store

variable {pdpt pd pt : Word} (h : Inv s) (hp : Path s vaddr pdpt pd pt)
include h hp

/-- Granting user access on the way to a leaf: tables and translations
stay, and the way is open. -/
theorem grantUser_spec (flags : Word) : Grown s (grantUser s vaddr flags pdpt pd) ∧
    SameTables s (grantUser s vaddr flags pdpt pd) ∧
    (flags.getLsbD 2 = true →
      userBit ((grantUser s vaddr flags pdpt pd).mem s.pml4 (index vaddr 39)) = true ∧
        userBit ((grantUser s vaddr flags pdpt pd).mem pdpt (index vaddr 30)) = true ∧
        userBit ((grantUser s vaddr flags pdpt pd).mem pd (index vaddr 21)) = true) := by
  rw [grantUser]
  split
  · generalize hs₃ : s.setUser s.pml4 (index vaddr 39) = s₃
    have h₃ : Inv s₃ := hs₃ ▸ h.setUser (p := []) (by simp) rfl
    have hsame₃ : SameTables s s₃ := hs₃ ▸ sameTables_setUser
    have htr₃ : ∀ v, translate s₃ v = translate s v := by
      subst hs₃
      exact translate_setUser h (p := []) (by simp) rfl
    have hp₃ : tableAt s₃ [index vaddr 39] = some pdpt := (hsame₃.tableAt (by simp)).trans hp.pdpt
    generalize hs₂ : s₃.setUser pdpt (index vaddr 30) = s₂
    have h₂ : Inv s₂ := hs₂ ▸ h₃.setUser (by simp) hp₃
    have hsame₂ : SameTables s₃ s₂ := hs₂ ▸ sameTables_setUser
    have htr₂ : ∀ v, translate s₂ v = translate s₃ v := by
      subst hs₂
      exact translate_setUser h₃ (by simp) hp₃
    have hp₂ : tableAt s₂ [index vaddr 30, index vaddr 39] = some pd :=
      (hsame₂.tableAt (by simp)).trans ((hsame₃.tableAt (by simp)).trans hp.pd)
    have htab : ∀ q : List (Fin 512), q.length ≤ 3 →
        tableAt (s₂.setUser pd (index vaddr 21)) q = tableAt s q := fun q hq =>
      (sameTables_setUser.tableAt hq).trans ((hsame₂.tableAt hq).trans (hsame₃.tableAt hq))
    have hpml4 : s₂.pml4 = s.pml4 := hsame₂.pml4.trans hsame₃.pml4
    refine ⟨⟨h₂.setUser (by simp) hp₂, hpml4, fun q u hq hu => (htab q hq).trans hu, fun v => ?_⟩,
      ⟨hpml4, fun q t i hq hqt => ?_⟩, fun _ => ⟨?_, ?_, ?_⟩⟩
    · rw [translate_setUser h₂ (by simp) hp₂, htr₂, htr₃]
    · have hqt₃ := (hsame₃.tableAt (p := q) (by omega)).trans hqt
      have hqt₂ := (hsame₂.tableAt (p := q) (by omega)).trans hqt₃
      rw [sameTables_setUser.child q t i hq hqt₂, hsame₂.child q t i hq hqt₃,
        hsame₃.child q t i hq hqt]
    · refine setUser_userBit ?_
      rw [← hs₂]
      refine setUser_userBit ?_
      rw [← hs₃, State.setUser, State.set_mem_self]
      exact userBit_or_user _
    · refine setUser_userBit ?_
      rw [← hs₂, State.setUser, State.set_mem_self]
      exact userBit_or_user _
    · rw [State.setUser, State.set_mem_self]
      exact userBit_or_user _
  · rename_i hu
    exact ⟨Grown.refl h, ⟨rfl, fun _ _ _ _ _ => rfl⟩,
      fun hf => absurd ((leafFlags_user flags).mpr hf) hu⟩

/-- The store of the leaf. -/
theorem storeLeaf_spec (e : Word) (hu : userBit e = flags.getLsbD 2) :
    Inv ((grantUser s vaddr flags pdpt pd).set pt (index vaddr 12) e) ∧
      (∀ v, ¬ (index v 39 = index vaddr 39 ∧ index v 30 = index vaddr 30 ∧
          index v 21 = index vaddr 21 ∧ index v 12 = index vaddr 12) →
        translate ((grantUser s vaddr flags pdpt pd).set pt (index vaddr 12) e) v =
          translate s v) ∧
      (e.getLsbD 0 = true →
        translate ((grantUser s vaddr flags pdpt pd).set pt (index vaddr 12) e) vaddr =
          some ⟨pteAddr e, e &&& ~~~pteAddrMask, userBit e⟩) := by
  obtain ⟨hg, hsame, hopen⟩ := grantUser_spec h hp flags
  have hpml4 := hg.pml4
  generalize grantUser s vaddr flags pdpt pd = g at hg hsame hopen hpml4 ⊢
  have hpt := (hsame.tableAt (by simp)).trans hp.pt
  have hsame' : SameTables g (g.set pt (index vaddr 12) e) := sameTables_set_leaf hg.inv hpt
  have hinv : Inv (g.set pt (index vaddr 12) e) := by
    refine hg.inv.set_leaf hpt fun hue t₃ t₂ hw => ?_
    obtain rfl : t₃ = pdpt := by
      have := ((hsame'.tableAt (by simp)).trans (hsame.tableAt (by simp))).symm.trans hw.table₃
      exact Option.some.inj (this.symm.trans hp.pdpt)
    obtain rfl : t₂ = pd := by
      have := ((hsame'.tableAt (by simp)).trans (hsame.tableAt (by simp))).symm.trans hw.table₂
      exact Option.some.inj (this.symm.trans hp.pd)
    rw [hpml4]
    exact hopen (hu ▸ hue)
  refine ⟨hinv, fun v hne => ?_, fun hpres => ?_⟩
  · rw [← hg.translate v]
    have hkeep : ∀ {t₁}, tableAt g [index v 21, index v 30, index v 39] = some t₁ →
        (g.set pt (index vaddr 12) e).mem t₁ (index v 12) = g.mem t₁ (index v 12) :=
      fun ht₁ => set_leaf_of_ne hg.inv hpt ht₁ hne
    exact hg.inv.translate_congr hinv
      (fun _ _ _ => hsame'.walk fun ht₁ => by rw [hkeep ht₁]) (fun _ _ _ hw => hkeep hw.table₁)
  · have hchild : ∀ q t i u, q.length ≤ 2 → tableAt s q = some t → tableAt s (i :: q) = some u →
        child (g.set pt (index vaddr 12) e) t i = some u := by
      intro q t i u hq hqt hu
      have hqt' := (hsame.tableAt (p := q) (by omega)).trans hqt
      rw [hsame'.child q t i hq hqt', hsame.child q t i hq hqt]
      obtain ⟨t', ht', hc⟩ := tableAt_cons.mp hu
      rwa [Option.some.inj (hqt.symm.trans ht')]
    have hw : Walk (g.set pt (index vaddr 12) e) (index vaddr 39) (index vaddr 30)
        (index vaddr 21) (index vaddr 12) pdpt pd pt := by
      refine ⟨?_, hchild _ _ _ _ (by simp) hp.pdpt hp.pd, hchild _ _ _ _ (by simp) hp.pd hp.pt, ?_⟩
      · have := hchild [] s.pml4 (index vaddr 39) pdpt (by simp) rfl hp.pdpt
        rwa [← hpml4] at this
      · rw [State.set_mem_self]
        exact hpres
    have hself : (g.set pt (index vaddr 12) e).mem pt (index vaddr 12) = e := State.set_mem_self
    rw [translate_eq_some_iff]
    refine ⟨pdpt, pd, pt, hw, ?_⟩
    rw [hinv.translation_eq hw, hself]

end Store

/-- Addresses with the same four indices lie in the same page modulo
`2 ^ 48`. -/
theorem page_eq_of_index_eq {v v' : Word} (h₄ : index v 39 = index v' 39)
    (h₃ : index v 30 = index v' 30) (h₂ : index v 21 = index v' 21)
    (h₁ : index v 12 = index v' 12) :
    v.toNat % 2 ^ 48 / 4096 = v'.toNat % 2 ^ 48 / 4096 := by
  have hval : ∀ (w : Word) (sh : ℕ), (index w sh).val = w.toNat / 2 ^ sh % 512 := by
    intro w sh
    rw [index, Fin.val_ofNat, BitVec.toNat_ushiftRight, Nat.shiftRight_eq_div_pow]
  have h₄ := (hval v 39).symm.trans ((congrArg Fin.val h₄).trans (hval v' 39))
  have h₃ := (hval v 30).symm.trans ((congrArg Fin.val h₃).trans (hval v' 30))
  have h₂ := (hval v 21).symm.trans ((congrArg Fin.val h₂).trans (hval v' 21))
  have h₁ := (hval v 12).symm.trans ((congrArg Fin.val h₁).trans (hval v' 12))
  norm_num at h₄ h₃ h₂ h₁ ⊢
  omega

/-! ## Runs -/

/-- A call of `map_page`, with the answers of `alloc_page` it meets. -/
structure Call where
  supply : List Word
  vaddr : Word
  paddr : Word
  flags : Word

/-- Page-table states: from an empty `kernel_pml4`, by calls of
`map_page`. -/
def machine : System State Call where
  init s := s.pml4 ≠ 0 ∧ ∀ i, s.mem s.pml4 i = 0
  step s c s' := Fresh s c.supply ∧ ∃ r, mapPage s c.supply c.vaddr c.paddr c.flags = some (r, s')

/-- In an empty `kernel_pml4` no path leads on. -/
theorem path_of_empty (he : ∀ i, s.mem s.pml4 i = 0) (hp : tableAt s p = some t) : p = [] := by
  have hnone : ∀ i p, tableAt s (i :: p) = none := by
    intro i p
    induction p generalizing i with
    | nil =>
      rw [tableAt, tableAt, Option.bind_some, child, he i]
      decide
    | cons j p ih => rw [tableAt, ih j, Option.bind_none]
  cases p with
  | nil => rfl
  | cons i p => rw [hnone] at hp; exact absurd hp (by simp)

/-- An empty `kernel_pml4` is the whole tree. -/
theorem inv_of_empty (h0 : s.pml4 ≠ 0) (he : ∀ i, s.mem s.pml4 i = 0) : Inv s := by
  refine ⟨h0, fun p q t _ _ hp hq => (path_of_empty he hp).trans (path_of_empty he hq).symm,
    fun p t i _ hp hpres => ?_, fun hw _ => ?_⟩
  · obtain rfl := path_of_empty he hp
    obtain rfl := Option.some.inj hp
    rw [he i] at hpres
    exact absurd hpres (by simp)
  · exact absurd (path_of_empty he hw.table₃) (by simp)

/-- A call keeps the invariant. -/
theorem Inv.mapPage (h : Inv s) (hs : Fresh s supply)
    (hr : mapPage s supply vaddr paddr flags = some (r, s')) : Inv s' := by
  rcases mapPage_cases h hs hr with ⟨-, hg⟩ | ⟨-, -, s₁, pdpt, pd, pt, hg, hp, rfl⟩
  · exact hg.inv
  · refine (storeLeaf_spec hg.inv hp _ ?_).1
    rw [userBit, getLsbD_leaf (by norm_num)]
    simp [leafFlags]

theorem inv_of_reachable (h : machine.Reachable s) : Inv s :=
  h.invariant (fun _ hi => inv_of_empty hi.1 hi.2) fun _ _ _ _ hi ⟨hs, _, hr⟩ => hi.mapPage hs hr

/-- **`map_page` updates exactly one translation.** In every page-table
state, a call returns; if it returns `0` both addresses are aligned,
`vaddr` translates to `paddr` with the flags and the user bit asked for,
and every address of another page modulo `2 ^ 48` translates as before; if
it returns `-1` every address does; and the tables are still a tree. -/
theorem map_page_updates_one (supply : List Word) (vaddr paddr flags : Word)
    (h : machine.Reachable s) (hs : Fresh s supply) (hpa : paddr.toNat < 2 ^ 52)
    (hfl : flags &&& ~~~pteFlags = 0) :
    (3 ≤ supply.length → (mapPage s supply vaddr paddr flags).isSome = true) ∧
      ∀ r s', mapPage s supply vaddr paddr flags = some (r, s') →
        (r = 0 ∨ r = -1) ∧
        (r = 0 → vaddr &&& pageOffMask = 0 ∧ paddr &&& pageOffMask = 0 ∧
          translate s' vaddr =
            some ⟨paddr, (flags ||| ptePresent) &&& ~~~pteHuge, flags &&& pteUser ≠ 0⟩ ∧
          ∀ v' : Word, v'.toNat % 2 ^ 48 / 4096 ≠ vaddr.toNat % 2 ^ 48 / 4096 →
            translate s' v' = translate s v') ∧
        (r = -1 → ∀ v', translate s' v' = translate s v') ∧
        (∀ p q t, p.length ≤ 3 → q.length ≤ 3 → tableAt s' p = some t → tableAt s' q = some t →
          p = q) := by
  refine ⟨mapPage_isSome, fun r s' hr => ?_⟩
  have hinv := inv_of_reachable h
  have htree := (hinv.mapPage hs hr).tree
  rcases mapPage_cases hinv hs hr with ⟨rfl, hg⟩ | ⟨rfl, hal, s₁, pdpt, pd, pt, hg, hp, rfl⟩
  · exact ⟨Or.inr rfl, fun h0 => absurd h0 (by decide), fun _ => hg.translate, htree⟩
  · have hal' : vaddr &&& pageOffMask = 0 ∧ paddr &&& pageOffMask = 0 := by
      rw [BitVec.and_or_distrib_right] at hal
      exact BitVec.or_eq_zero_iff.mp hal
    have haddr := pteAddr_eq_self hpa hal'.2
    have hu : userBit ((paddr &&& pteAddrMask) ||| leafFlags flags) = flags.getLsbD 2 := by
      rw [userBit, getLsbD_leaf (by norm_num)]
      simp [leafFlags]
    obtain ⟨-, hframe, hself⟩ := storeLeaf_spec hg.inv hp _ hu
    refine ⟨Or.inl rfl, fun _ => ⟨hal'.1, hal'.2, ?_, fun v' hv' => ?_⟩,
      fun h1 => absurd h1 (by decide), htree⟩
    · rw [hself (by rw [getLsbD_leaf (by norm_num)]; exact leafFlags_present flags), hu,
        pteAddr_leaf haddr hfl, flags_leaf hfl]
      congr 2
      rw [Bool.eq_iff_iff, decide_eq_true_eq, and_twoPow_ne_zero (by norm_num)]
    · rw [← hg.translate v']
      apply hframe
      rintro ⟨h4, h3, h2, h1⟩
      exact hv' (page_eq_of_index_eq h4 h3 h2 h1)

/-- A `kernel_pml4` at `0x1000` with nothing mapped. -/
def emptyTables : State := ⟨fun _ _ => 0, 0x1000#64⟩

theorem emptyTables_fresh : Fresh emptyTables [0x2000#64, 0x3000#64, 0x4000#64] := by
  refine ⟨fun x hx _ => ⟨?_, fun p _ ht => ?_⟩, by decide⟩
  · simp only [List.mem_cons, List.not_mem_nil, or_false] at hx
    rcases hx with rfl | rfl | rfl <;> decide
  · obtain rfl := path_of_empty (s := emptyTables) (fun _ => rfl) ht
    have : x = 0x1000#64 := (Option.some.inj ht).symm
    subst this
    simp at hx

/-- A user page mapped at `0x400000` in empty tables. -/
theorem map_page_updates_one_empty :
    ∃ s', mapPage emptyTables [0x2000#64, 0x3000#64, 0x4000#64] 0x400000#64 0x5000#64
        (ptePresent ||| pteUser) = some (0, s') ∧
      translate s' 0x400000#64 = some ⟨0x5000#64, ptePresent ||| pteUser, true⟩ ∧
      translate s' 0x401000#64 = none := by
  have h := map_page_updates_one (s := emptyTables) [0x2000#64, 0x3000#64, 0x4000#64]
    0x400000#64 0x5000#64 (ptePresent ||| pteUser) (.init ⟨by decide, fun _ => rfl⟩)
    emptyTables_fresh (by decide) (by decide)
  obtain ⟨⟨r, s'⟩, hr⟩ := Option.isSome_iff_exists.mp (h.1 (by decide))
  have hr0 : r = 0 := by
    have hd : (mapPage emptyTables [0x2000#64, 0x3000#64, 0x4000#64] 0x400000#64 0x5000#64
        (ptePresent ||| pteUser)).map Prod.fst = some 0 := by decide
    rw [hr] at hd
    exact Option.some.inj hd
  subst hr0
  obtain ⟨-, hok, -, -⟩ := h.2 0 s' hr
  obtain ⟨-, -, hself, hframe⟩ := hok rfl
  refine ⟨s', hr, hself.trans (by decide), (hframe 0x401000#64 (by decide)).trans (by decide)⟩

end Vmm

end Csos

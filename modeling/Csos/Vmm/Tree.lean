import Csos.Vmm.Entries
/-!
# Virtual memory — the tables as a tree

A path is the list of indices that leads to a table, innermost first;
`tableAt` follows it from `kernel_pml4`. The tables form a tree when
different paths lead to different pages (`Inv.tree`), and then a store
into one table is seen along one path only. `Inv` adds what every call
keeps about the entries on the way, the important part being `user`: a
leaf that grants user access is granted it at every level above.
-/

namespace Csos

namespace Vmm

variable {s s' : State} {t t' e page : Word} {i j : Fin 512} {p q : List (Fin 512)}

/-- The table an entry leads to. -/
def child (s : State) (t : Word) (i : Fin 512) : Option Word :=
  if leads (s.mem t i) then some (pteAddr (s.mem t i)) else none

/-- The table at the end of a path, innermost index first. -/
def tableAt (s : State) : List (Fin 512) → Option Word
  | [] => some s.pml4
  | i :: p => (tableAt s p).bind (child s · i)

/-- The user bit of an entry. -/
def userBit (e : Word) : Bool := e.getLsbD 2

/-- A walk that reaches a present leaf: the tables it passes below
`kernel_pml4`. -/
structure Walk (s : State) (i₄ i₃ i₂ i₁ : Fin 512) (t₃ t₂ t₁ : Word) : Prop where
  child₄ : child s s.pml4 i₄ = some t₃
  child₃ : child s t₃ i₃ = some t₂
  child₂ : child s t₂ i₂ = some t₁
  leaf : (s.mem t₁ i₁).getLsbD 0 = true

/-- **The invariant of the page tables.** -/
structure Inv (s : State) : Prop where
  root_ne : s.pml4 ≠ 0
  /-- Different paths lead to different pages. -/
  tree : ∀ p q t, p.length ≤ 3 → q.length ≤ 3 → tableAt s p = some t → tableAt s q = some t → p = q
  /-- An entry above the last level that is present leads to a table. -/
  link : ∀ p t i, p.length ≤ 2 → tableAt s p = some t → (s.mem t i).getLsbD 0 = true →
    leads (s.mem t i) = true ∧ pteAddr (s.mem t i) ≠ 0
  /-- A leaf open to user mode is reached through entries open to it. -/
  user : ∀ {i₄ i₃ i₂ i₁ t₃ t₂ t₁}, Walk s i₄ i₃ i₂ i₁ t₃ t₂ t₁ → userBit (s.mem t₁ i₁) = true →
    userBit (s.mem s.pml4 i₄) = true ∧ userBit (s.mem t₃ i₃) = true ∧ userBit (s.mem t₂ i₂) = true

theorem tableAt_cons : tableAt s (i :: p) = some t' ↔
    ∃ t, tableAt s p = some t ∧ child s t i = some t' := by
  simp [tableAt, Option.bind_eq_some_iff]

theorem child_eq_some : child s t i = some t' ↔
    leads (s.mem t i) = true ∧ pteAddr (s.mem t i) = t' := by
  rw [child]
  split <;> simp_all

/-- What a walk makes of the entries it passes. -/
def translation (e₄ e₃ e₂ e₁ : Word) : Translation :=
  ⟨pteAddr e₁, e₁ &&& ~~~pteAddrMask, userBit e₄ && userBit e₃ && userBit e₂ && userBit e₁⟩

/-- **The walk, read along the path.** -/
theorem translate_eq_some_iff {v : Word} {τ : Translation} : translate s v = some τ ↔
    ∃ t₃ t₂ t₁, Walk s (index v 39) (index v 30) (index v 21) (index v 12) t₃ t₂ t₁ ∧
      τ = translation (s.mem s.pml4 (index v 39)) (s.mem t₃ (index v 30))
        (s.mem t₂ (index v 21)) (s.mem t₁ (index v 12)) := by
  have huser : ∀ a b c d : Word, decide ((a &&& b &&& c &&& d &&& pteUser) ≠ 0) =
      (userBit a && userBit b && userBit c && userBit d) := by
    intro a b c d
    rw [Bool.eq_iff_iff, decide_eq_true_eq, and_twoPow_ne_zero (by norm_num)]
    simp only [BitVec.getLsbD_and, userBit]
  simp only [translate, huser, and_twoPow_ne_zero (show 0 < 64 by norm_num)]
  constructor
  · intro h
    split at h
    · rename_i hc
      refine ⟨_, _, _, ⟨child_eq_some.mpr ⟨hc.1, rfl⟩, child_eq_some.mpr ⟨hc.2.1, rfl⟩,
        child_eq_some.mpr ⟨hc.2.2.1, rfl⟩, hc.2.2.2⟩, ?_⟩
      exact (Option.some.inj h).symm
    · exact absurd h (by simp)
  · rintro ⟨t₃, t₂, t₁, hw, rfl⟩
    obtain ⟨h4, rfl⟩ := child_eq_some.mp hw.child₄
    obtain ⟨h3, rfl⟩ := child_eq_some.mp hw.child₃
    obtain ⟨h2, rfl⟩ := child_eq_some.mp hw.child₂
    rw [if_pos ⟨h4, h3, h2, hw.leaf⟩]
    rfl

/-- States with the same walks of `v`, each making the same of its
entries, translate `v` alike. -/
theorem translate_congr {v : Word}
    (hiff : ∀ t₃ t₂ t₁, Walk s' (index v 39) (index v 30) (index v 21) (index v 12) t₃ t₂ t₁ ↔
      Walk s (index v 39) (index v 30) (index v 21) (index v 12) t₃ t₂ t₁)
    (heq : ∀ t₃ t₂ t₁, Walk s (index v 39) (index v 30) (index v 21) (index v 12) t₃ t₂ t₁ →
      translation (s'.mem s'.pml4 (index v 39)) (s'.mem t₃ (index v 30)) (s'.mem t₂ (index v 21))
          (s'.mem t₁ (index v 12)) =
        translation (s.mem s.pml4 (index v 39)) (s.mem t₃ (index v 30)) (s.mem t₂ (index v 21))
          (s.mem t₁ (index v 12))) :
    translate s' v = translate s v := by
  ext τ
  rw [translate_eq_some_iff, translate_eq_some_iff]
  constructor
  · rintro ⟨t₃, t₂, t₁, hw, rfl⟩
    have hw' := (hiff _ _ _).mp hw
    exact ⟨t₃, t₂, t₁, hw', heq _ _ _ hw'⟩
  · rintro ⟨t₃, t₂, t₁, hw, rfl⟩
    exact ⟨t₃, t₂, t₁, (hiff _ _ _).mpr hw, (heq _ _ _ hw).symm⟩

section Walk

variable {i₄ i₃ i₂ i₁ : Fin 512} {t₃ t₂ t₁ : Word}

theorem Walk.table₃ (h : Walk s i₄ i₃ i₂ i₁ t₃ t₂ t₁) : tableAt s [i₄] = some t₃ :=
  tableAt_cons.mpr ⟨_, rfl, h.child₄⟩

theorem Walk.table₂ (h : Walk s i₄ i₃ i₂ i₁ t₃ t₂ t₁) : tableAt s [i₃, i₄] = some t₂ :=
  tableAt_cons.mpr ⟨_, h.table₃, h.child₃⟩

theorem Walk.table₁ (h : Walk s i₄ i₃ i₂ i₁ t₃ t₂ t₁) : tableAt s [i₂, i₃, i₄] = some t₁ :=
  tableAt_cons.mpr ⟨_, h.table₂, h.child₂⟩

theorem child_present (h : child s t i = some t') : (s.mem t i).getLsbD 0 = true :=
  (leads_iff.mp (child_eq_some.mp h).1).1

end Walk

/-! ## Adding a table -/

/-- A page `alloc_page` may answer with: an aligned page below `2 ^ 52`
that no path leads to. -/
structure FreshPage (s : State) (page : Word) : Prop where
  addr : pteAddr page = page
  notTable : ∀ p, p.length ≤ 3 → tableAt s p ≠ some page

/-- `get_or_alloc_table` linking a fresh page into the tree. -/
def addTable (s : State) (t : Word) (i : Fin 512) (page : Word) : State :=
  (s.clear page).set t i (page ||| ptePresent ||| pteWritable)

theorem addTable_mem_of_ne (hpage : t' ≠ page) (h : ¬ (t' = t ∧ j = i)) :
    (addTable s t i page).mem t' j = s.mem t' j := by
  simp only [addTable, State.set, State.clear, if_neg h, if_neg hpage]

theorem addTable_mem_page (ht : t ≠ page) : (addTable s t i page).mem page j = 0 := by
  simp only [addTable, State.set, State.clear, if_neg (fun h : page = t ∧ j = i => ht h.1.symm),
    if_true]

theorem addTable_mem_self : (addTable s t i page).mem t i = page ||| ptePresent ||| pteWritable := by
  simp only [addTable, State.set, and_self, if_true]

theorem child_addTable_of_ne (hpage : t' ≠ page) (h : ¬ (t' = t ∧ j = i)) :
    child (addTable s t i page) t' j = child s t' j := by
  rw [child, child, addTable_mem_of_ne hpage h]

theorem child_addTable_page (ht : t ≠ page) : child (addTable s t i page) page j = none := by
  rw [child, addTable_mem_page ht]
  decide

theorem child_addTable_self (hpage : pteAddr page = page) :
    child (addTable s t i page) t i = some page := by
  rw [child_eq_some, addTable_mem_self]
  exact ⟨leads_link hpage, pteAddr_link hpage⟩

theorem child_eq_none (h : (s.mem t i).getLsbD 0 = false) : child s t i = none := by
  rw [child, if_neg]
  rw [leads_iff, h]
  simp

section Add

variable (h : Inv s) (hp : p.length ≤ 2) (ht : tableAt s p = some t)
  (hempty : (s.mem t i).getLsbD 0 = false) (hf : FreshPage s page)
include h hp ht hempty hf

/-- **One path is added, and no other moves.** -/
theorem tableAt_addTable (hq : q.length ≤ 3) :
    tableAt (addTable s t i page) q = if q = i :: p then some page else tableAt s q := by
  have htp : t ≠ page := fun e => hf.notTable p (by omega) (e ▸ ht)
  induction q with
  | nil => rfl
  | cons j q ih =>
    have hq' : q.length ≤ 2 := by simp only [List.length_cons] at hq; omega
    rw [tableAt, ih (by omega)]
    by_cases hqp : q = i :: p
    · -- below the new table there is nothing, before and after
      have hne : j :: q ≠ i :: p := by
        intro e
        have := congrArg List.length e
        simp [hqp] at this
      rw [if_pos hqp, if_neg hne, Option.bind_some, tableAt, hqp, tableAt, ht, Option.bind_some,
        child_eq_none hempty, Option.bind_none, child_addTable_page htp]
    · rw [if_neg hqp]
      cases hqt : tableAt s q with
      | none =>
        have hne : j :: q ≠ i :: p := by
          intro e
          rw [(List.cons.inj e).2, ht] at hqt
          exact absurd hqt (by simp)
        rw [Option.bind_none, if_neg hne, tableAt, hqt, Option.bind_none]
      | some t' =>
        have ht'p : t' ≠ page := fun e => hf.notTable q (by omega) (e ▸ hqt)
        rw [Option.bind_some]
        by_cases hji : j :: q = i :: p
        · obtain ⟨rfl, rfl⟩ := List.cons.inj hji
          obtain rfl : t' = t := Option.some.inj (hqt.symm.trans ht)
          rw [if_pos rfl, child_addTable_self hf.addr]
        · rw [if_neg hji, tableAt, hqt, Option.bind_some]
          refine child_addTable_of_ne ht'p fun hc => hji ?_
          rw [hc.2, h.tree q p t' (by omega) (by omega) hqt (hc.1 ▸ ht)]

/-- The walks are the same, and so are the entries they pass. -/
theorem walk_addTable {i₄ i₃ i₂ i₁ : Fin 512} {t₃ t₂ t₁ : Word} :
    Walk (addTable s t i page) i₄ i₃ i₂ i₁ t₃ t₂ t₁ ↔ Walk s i₄ i₃ i₂ i₁ t₃ t₂ t₁ := by
  have htp : t ≠ page := fun e => hf.notTable p (by omega) (e ▸ ht)
  have hpage : ∀ {q t'}, q.length ≤ 3 → tableAt s q = some t' → t' ≠ page :=
    fun hq hqt e => hf.notTable _ hq (e ▸ hqt)
  have hroot : s.pml4 ≠ page := hpage (q := []) (by simp) rfl
  -- what is present in `s` is not the entry that is written
  have hne : ∀ {t' j}, (s.mem t' j).getLsbD 0 = true → ¬ (t' = t ∧ j = i) := by
    rintro t' j hpres ⟨rfl, rfl⟩
    rw [hempty] at hpres
    exact absurd hpres (by simp)
  constructor
  · rintro ⟨h4, h3, h2, h1⟩
    have h4' : child s s.pml4 i₄ = some t₃ := by
      by_cases hc : s.pml4 = t ∧ i₄ = i
      · change child (addTable s t i page) s.pml4 i₄ = some t₃ at h4
        rw [hc.1, hc.2, child_addTable_self hf.addr] at h4
        obtain rfl := Option.some.inj h4
        rw [child_addTable_page htp] at h3
        exact absurd h3 (by simp)
      · exact (child_addTable_of_ne hroot hc).symm.trans h4
    have ht₃ : tableAt s [i₄] = some t₃ := tableAt_cons.mpr ⟨_, rfl, h4'⟩
    have h3' : child s t₃ i₃ = some t₂ := by
      by_cases hc : t₃ = t ∧ i₃ = i
      · rw [hc.1, hc.2, child_addTable_self hf.addr] at h3
        obtain rfl := Option.some.inj h3
        rw [child_addTable_page htp] at h2
        exact absurd h2 (by simp)
      · exact (child_addTable_of_ne (hpage (by simp) ht₃) hc).symm.trans h3
    have ht₂ : tableAt s [i₃, i₄] = some t₂ := tableAt_cons.mpr ⟨_, ht₃, h3'⟩
    have h2' : child s t₂ i₂ = some t₁ := by
      by_cases hc : t₂ = t ∧ i₂ = i
      · rw [hc.1, hc.2, child_addTable_self hf.addr] at h2
        obtain rfl := Option.some.inj h2
        rw [addTable_mem_page htp] at h1
        exact absurd h1 (by simp)
      · exact (child_addTable_of_ne (hpage (by simp) ht₂) hc).symm.trans h2
    have ht₁ : tableAt s [i₂, i₃, i₄] = some t₁ := tableAt_cons.mpr ⟨_, ht₂, h2'⟩
    refine ⟨h4', h3', h2', ?_⟩
    rw [addTable_mem_of_ne (hpage (by simp) ht₁)] at h1
    · exact h1
    · -- the leaf sits a level below every entry that can be written
      rintro ⟨rfl, -⟩
      have := h.tree _ _ _ (by simp) (by omega) ht₁ ht
      rw [← this] at hp
      simp at hp
  · intro hw
    have hc4 := hne (child_present hw.child₄)
    have hc3 := hne (child_present hw.child₃)
    have hc2 := hne (child_present hw.child₂)
    refine ⟨(child_addTable_of_ne hroot hc4).trans hw.child₄,
      (child_addTable_of_ne (hpage (by simp) hw.table₃) hc3).trans hw.child₃,
      (child_addTable_of_ne (hpage (by simp) hw.table₂) hc2).trans hw.child₂, ?_⟩
    rw [addTable_mem_of_ne (hpage (by simp) hw.table₁) (hne hw.leaf)]
    exact hw.leaf

omit h hp in
theorem mem_addTable_of_walk {i₄ i₃ i₂ i₁ : Fin 512} {t₃ t₂ t₁ : Word}
    (hw : Walk s i₄ i₃ i₂ i₁ t₃ t₂ t₁) :
    (addTable s t i page).mem s.pml4 i₄ = s.mem s.pml4 i₄ ∧
      (addTable s t i page).mem t₃ i₃ = s.mem t₃ i₃ ∧
      (addTable s t i page).mem t₂ i₂ = s.mem t₂ i₂ ∧
      (addTable s t i page).mem t₁ i₁ = s.mem t₁ i₁ := by
  have hpage : ∀ {q t'}, q.length ≤ 3 → tableAt s q = some t' → t' ≠ page :=
    fun hq hqt e => hf.notTable _ hq (e ▸ hqt)
  have hne : ∀ {t' j}, (s.mem t' j).getLsbD 0 = true → ¬ (t' = t ∧ j = i) := by
    rintro t' j hpres ⟨rfl, rfl⟩
    rw [hempty] at hpres
    exact absurd hpres (by simp)
  exact ⟨addTable_mem_of_ne (hpage (q := []) (by simp) rfl) (hne (child_present hw.child₄)),
    addTable_mem_of_ne (hpage (by simp) hw.table₃) (hne (child_present hw.child₃)),
    addTable_mem_of_ne (hpage (by simp) hw.table₂) (hne (child_present hw.child₂)),
    addTable_mem_of_ne (hpage (by simp) hw.table₁) (hne hw.leaf)⟩

/-- **Adding a table changes no translation.** -/
theorem translate_addTable (v : Word) : translate (addTable s t i page) v = translate s v := by
  refine translate_congr (fun _ _ _ => walk_addTable h hp ht hempty hf) fun t₃ t₂ t₁ hw => ?_
  obtain ⟨h4, h3, h2, h1⟩ := mem_addTable_of_walk ht hempty hf hw
  change translation ((addTable s t i page).mem s.pml4 _) _ _ _ = _
  rw [h4, h3, h2, h1]

/-- **And keeps the invariant.** -/
theorem Inv.addTable (h0 : page ≠ 0) : Inv (addTable s t i page) := by
  have htp : t ≠ page := fun e => hf.notTable p (by omega) (e ▸ ht)
  have htab : ∀ {q}, q.length ≤ 3 →
      tableAt (Vmm.addTable s t i page) q = if q = i :: p then some page else tableAt s q :=
    fun hq => tableAt_addTable h hp ht hempty hf hq
  refine ⟨h.root_ne, fun q r t' hq hr hqt hrt => ?_, fun q t' j hq hqt hpres => ?_, fun hw hu => ?_⟩
  · rw [htab hq] at hqt
    rw [htab hr] at hrt
    by_cases hqi : q = i :: p <;> by_cases hri : r = i :: p
    · rw [hqi, hri]
    · rw [if_pos hqi] at hqt
      rw [if_neg hri, ← hqt] at hrt
      exact absurd hrt (hf.notTable r hr)
    · rw [if_pos hri] at hrt
      rw [if_neg hqi, ← hrt] at hqt
      exact absurd hqt (hf.notTable q hq)
    · rw [if_neg hqi] at hqt
      rw [if_neg hri] at hrt
      exact h.tree q r t' hq hr hqt hrt
  · rw [htab (by omega)] at hqt
    by_cases hqi : q = i :: p
    · rw [if_pos hqi] at hqt
      obtain rfl := Option.some.inj hqt
      rw [addTable_mem_page htp] at hpres
      exact absurd hpres (by simp)
    · rw [if_neg hqi] at hqt
      have ht'p : t' ≠ page := fun e => hf.notTable q (by omega) (e ▸ hqt)
      by_cases hc : t' = t ∧ j = i
      · rw [hc.1, hc.2, addTable_mem_self]
        exact ⟨leads_link hf.addr, by rw [pteAddr_link hf.addr]; exact h0⟩
      · rw [addTable_mem_of_ne ht'p hc] at hpres ⊢
        exact h.link q t' j hq hqt hpres
  · have hw' := (walk_addTable h hp ht hempty hf).mp hw
    obtain ⟨h4, h3, h2, h1⟩ := mem_addTable_of_walk ht hempty hf hw'
    rw [h1] at hu
    rw [h3, h2]
    change userBit ((Vmm.addTable s t i page).mem s.pml4 _) = true ∧ _
    rw [h4]
    exact h.user hw' hu

end Add

end Vmm

end Csos

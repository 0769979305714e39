import Csos.Vmm.MapPage
/-!
# Virtual memory — when physical memory runs out

`get_or_alloc_table` takes the answer of `alloc_page` for a failure when it
is `NULL`, and `alloc_page` fails with `PMM_INVALID_ADDR`. A failed call is
taken for a page: the entry becomes `2 ^ 64 - 1`, present and a large page,
and the walk goes on through the pointer `2 ^ 64 - 1`. What follows touches
no table of the tree (`Blank`), so the entry stays (`Broken`). The result is
that `map_page` fails cleanly only where no `alloc_page` of it fails.
-/

namespace Csos

namespace Vmm

variable {s s' s'' : State} {t t' u x e : Word} {i j : Fin 512} {p q : List (Fin 512)}
  {supply supply' : List Word} {vaddr paddr flags : Word} {r : ℤ}

/-- `PMM_INVALID_ADDR`, as the code makes a pointer of it. -/
abbrev invalidPage : Word := BitVec.allOnes 64

/-- What `alloc_page` may answer in turn: `0`, a failure, or a fresh page, a
page once only. -/
structure Answers (s : State) (supply : List Word) : Prop where
  page : ∀ x ∈ supply, x ≠ 0 → x ≠ invalidPage → FreshPage s x
  nodup : supply.Pairwise fun a b => a ≠ 0 → a ≠ invalidPage → a ≠ b

/-- No path leads to the page. -/
def OffTree (s : State) (u : Word) : Prop := ∀ q, q.length ≤ 3 → tableAt s q ≠ some u

theorem Answers.tail (h : Answers s (x :: supply)) : Answers s supply :=
  ⟨fun y hy => h.page y (.tail _ hy), (List.pairwise_cons.mp h.nodup).2⟩

/-- An answer other than `0` is no table of the tree. -/
theorem Answers.offTree (h : Answers s supply) (hi : OffTree s invalidPage) (hx : x ∈ supply)
    (h0 : x ≠ 0) : OffTree s x := by
  by_cases hx' : x = invalidPage
  · rw [hx']
    exact hi
  · exact (h.page x hx h0 hx').notTable

/-! ## Changes that leave the tree alone -/

/-- `s'` has the tables of `s`, whose entries above the last level differ by
user bits at most. -/
structure TreeKept (s s' : State) : Prop where
  pml4 : s'.pml4 = s.pml4
  entry : ∀ q t j, q.length ≤ 2 → tableAt s q = some t →
    s'.mem t j = s.mem t j ∨ s'.mem t j = s.mem t j ||| pteUser

theorem TreeKept.refl (s : State) : TreeKept s s := ⟨rfl, fun _ _ _ _ _ => .inl rfl⟩

theorem TreeKept.sameTables (h : TreeKept s s') : SameTables s s' := by
  refine ⟨h.pml4, fun q t j hq hqt => ?_⟩
  unfold child
  rcases h.entry q t j hq hqt with he | he
  · rw [he]
  · rw [he, leads_or_user, pteAddr_or_user]

theorem TreeKept.trans (h : TreeKept s s') (h' : TreeKept s' s'') : TreeKept s s'' := by
  refine ⟨h'.pml4.trans h.pml4, fun q t j hq hqt => ?_⟩
  have hqt' := (h.sameTables.tableAt (by omega)).trans hqt
  rcases h'.entry q t j hq hqt' with he' | he' <;> rcases h.entry q t j hq hqt with he | he
  · exact .inl (he'.trans he)
  · exact .inr (he'.trans he)
  · exact .inr (by rw [he', he])
  · exact .inr (by rw [he', he, BitVec.or_assoc, BitVec.or_self])

theorem TreeKept.offTree (h : TreeKept s s') (hu : OffTree s u) : OffTree s' u := by
  intro q hq
  rw [h.sameTables.tableAt hq]
  exact hu q hq

theorem TreeKept.answers (h : TreeKept s s') (ha : Answers s supply) : Answers s' supply :=
  ⟨fun x hx h0 h1 => ⟨(ha.page x hx h0 h1).addr, h.offTree (ha.page x hx h0 h1).notTable⟩,
    ha.nodup⟩

theorem treeKept_set (hu : OffTree s u) : TreeKept s (s.set u j e) := by
  refine ⟨rfl, fun q t i hq hqt => .inl (State.set_mem_of_ne ?_)⟩
  rintro ⟨rfl, -⟩
  exact hu q (by omega) hqt

theorem State.clear_mem_of_ne (h : t ≠ u) : (s.clear u).mem t j = s.mem t j := if_neg h

theorem State.clear_mem_self : (s.clear u).mem u j = 0 := if_pos rfl

theorem treeKept_clear (hu : OffTree s u) : TreeKept s (s.clear u) := by
  refine ⟨rfl, fun q t i hq hqt => .inl (State.clear_mem_of_ne ?_)⟩
  rintro rfl
  exact hu q (by omega) hqt

theorem treeKept_setUser : TreeKept s (s.setUser u j) :=
  ⟨rfl, fun _ t i _ _ => setUser_mem s u j t i⟩

/-! ## The walk through `2 ^ 64 - 1` -/

/-- A page off the tree with no entry that leads on, and not one of the
answers to come. -/
structure Blank (s : State) (u : Word) (supply : List Word) : Prop where
  offTree : OffTree s u
  entry : ∀ j, s.mem u j = 0 ∨ s.mem u j = invalidPage
  notNext : ∀ x ∈ supply, x ≠ invalidPage → x ≠ u

/-- **`get_or_alloc_table` on a page off the tree** leaves the tree alone,
and gives `NULL` or another such page. -/
theorem Blank.getOrAllocTable (hb : Blank s u supply) (hi : OffTree s invalidPage)
    (hs : Answers s supply) (hr : getOrAllocTable s supply u i = some (t', supply', s')) :
    TreeKept s s' ∧ OffTree s' invalidPage ∧ Answers s' supply' ∧
      (t' ≠ 0 → Blank s' t' supply') := by
  unfold Vmm.getOrAllocTable at hr
  split at hr
  · -- what is present is the failed answer, which the large-page test stops
    rename_i hpres
    have he : s.mem u i = invalidPage := by
      rcases hb.entry i with he | he
      · rw [he] at hpres
        exact absurd (by decide) hpres
      · exact he
    rw [he, if_pos (by decide)] at hr
    simp only [Option.some.injEq, Prod.mk.injEq] at hr
    obtain ⟨rfl, rfl, rfl⟩ := hr
    exact ⟨.refl s, hi, hs, fun h => absurd rfl h⟩
  · cases supply with
    | nil => exact absurd hr (by simp)
    | cons x rest =>
      simp only at hr
      split at hr
      · simp only [Option.some.injEq, Prod.mk.injEq] at hr
        obtain ⟨rfl, rfl, rfl⟩ := hr
        exact ⟨.refl s, hi, hs.tail, fun h => absurd rfl h⟩
      · rename_i h0
        simp only [Option.some.injEq, Prod.mk.injEq] at hr
        obtain ⟨rfl, rfl, rfl⟩ := hr
        have hx : OffTree s x := hs.offTree hi (by simp) h0
        have hclear := treeKept_clear hx
        have hkept : TreeKept s ((s.clear x).set u i (x ||| ptePresent ||| pteWritable)) :=
          hclear.trans (treeKept_set (hclear.offTree hb.offTree))
        refine ⟨hkept, hkept.offTree hi, hkept.answers hs.tail, fun _ => ⟨hkept.offTree hx, fun k => ?_,
          fun y hy hyi => ?_⟩⟩
        · by_cases hc : x = u ∧ k = i
          · -- the page just answered is the parent itself: another failed answer
            have hxi : x = invalidPage := by
              by_contra hne
              exact hb.notNext x (by simp) hne hc.1
            right
            obtain ⟨rfl, rfl⟩ := hc
            rw [State.set_mem_self, hxi]
            decide
          · left
            rw [State.set_mem_of_ne hc]
            exact State.clear_mem_self
        · by_cases hxi : x = invalidPage
          · rw [hxi]
            exact hyi
          · exact fun hyx => (List.pairwise_cons.mp hs.nodup).1 y hy h0 hxi hyx.symm

/-! ## `map_page`, level by level -/

/-- The part of `map_page` below the page directory. -/
def mapFromPd (s : State) (supply : List Word) (vaddr paddr flags pdpt pd : Word) :
    Option (ℤ × State) :=
  match getOrAllocTable s supply pd (index vaddr 21) with
  | none => none
  | some (pt, _, s) =>
    if pt = 0 then some (-1, s)
    else some (0, (grantUser s vaddr flags pdpt pd).set pt (index vaddr 12)
      ((paddr &&& pteAddrMask) ||| leafFlags flags))

/-- The part of `map_page` below the page-directory-pointer table. -/
def mapFromPdpt (s : State) (supply : List Word) (vaddr paddr flags pdpt : Word) :
    Option (ℤ × State) :=
  match getOrAllocTable s supply pdpt (index vaddr 30) with
  | none => none
  | some (pd, supply, s) =>
    if pd = 0 then some (-1, s) else mapFromPd s supply vaddr paddr flags pdpt pd

/-- `map_page` in its parts. -/
theorem mapPage_eq (h0 : s.pml4 ≠ 0) (hal : (vaddr ||| paddr) &&& pageOffMask = 0) :
    mapPage s supply vaddr paddr flags =
      match getOrAllocTable s supply s.pml4 (index vaddr 39) with
      | none => none
      | some (pdpt, supply, s) =>
        if pdpt = 0 then some (-1, s) else mapFromPdpt s supply vaddr paddr flags pdpt := by
  unfold mapPage
  rw [if_neg h0, if_neg (by rw [not_not]; exact hal)]
  rfl

theorem treeKept_grantUser {pdpt pd : Word} : TreeKept s (grantUser s vaddr flags pdpt pd) := by
  unfold grantUser
  split
  · exact (treeKept_setUser.trans treeKept_setUser).trans treeKept_setUser
  · exact .refl s

/-- **From a page directory off the tree** nothing in the tree is changed. -/
theorem Blank.mapFromPd {pdpt pd : Word} (hb : Blank s pd supply) (hi : OffTree s invalidPage)
    (hs : Answers s supply)
    (hr : mapFromPd s supply vaddr paddr flags pdpt pd = some (r, s')) : TreeKept s s' := by
  unfold Vmm.mapFromPd at hr
  cases hg : Vmm.getOrAllocTable s supply pd (index vaddr 21) with
  | none => simp [hg] at hr
  | some y =>
    obtain ⟨pt, rest, s₁⟩ := y
    obtain ⟨hk, -, -, hpt⟩ := hb.getOrAllocTable hi hs hg
    simp only [hg] at hr
    split at hr
    · obtain ⟨-, rfl⟩ := by simpa using hr
      exact hk
    · rename_i h0
      simp only [Option.some.injEq, Prod.mk.injEq] at hr
      obtain ⟨-, rfl⟩ := hr
      exact (hk.trans treeKept_grantUser).trans
        (treeKept_set (treeKept_grantUser.offTree (hpt h0).offTree))

theorem Blank.mapFromPdpt {pdpt : Word} (hb : Blank s pdpt supply) (hi : OffTree s invalidPage)
    (hs : Answers s supply)
    (hr : mapFromPdpt s supply vaddr paddr flags pdpt = some (r, s')) : TreeKept s s' := by
  unfold Vmm.mapFromPdpt at hr
  cases hg : Vmm.getOrAllocTable s supply pdpt (index vaddr 30) with
  | none => simp [hg] at hr
  | some y =>
    obtain ⟨pd, rest, s₁⟩ := y
    obtain ⟨hk, hi₁, hs₁, hpd⟩ := hb.getOrAllocTable hi hs hg
    simp only [hg] at hr
    split at hr
    · obtain ⟨-, rfl⟩ := by simpa using hr
      exact hk
    · rename_i h0
      exact hk.trans ((hpd h0).mapFromPd hi₁ hs₁ hr)

/-! ## One call of `get_or_alloc_table` on the tree -/

/-- A failed answer was stored in the tree. -/
def Broken (s : State) : Prop :=
  ∃ p t i, p.length ≤ 2 ∧ tableAt s p = some t ∧ s.mem t i = invalidPage

theorem Broken.kept (h : Broken s) (hk : TreeKept s s') : Broken s' := by
  obtain ⟨p, t, i, hp, ht, he⟩ := h
  refine ⟨p, t, i, hp, (hk.sameTables.tableAt (by omega)).trans ht, ?_⟩
  rcases hk.entry p t i hp ht with h' | h'
  · exact h'.trans he
  · rw [h', he]
    decide

/-- A present entry above the last level leads to a table. -/
theorem Inv.tableAt_eq_none_iff (h : Inv s) (hp : p.length ≤ 2) (ht : tableAt s p = some t) :
    tableAt s (i :: p) = none ↔ (s.mem t i).getLsbD 0 = false := by
  rw [tableAt, ht, Option.bind_some]
  constructor
  · intro hc
    by_contra hpres
    rw [Bool.not_eq_false] at hpres
    have hl := (h.link p t i hp ht hpres).1
    rw [child, if_pos hl] at hc
    exact absurd hc (by simp)
  · exact child_eq_none

theorem Inv.table_ne_zero (h : Inv s) (hp : p.length ≤ 2) (ht : tableAt s (i :: p) = some t) :
    t ≠ 0 := by
  obtain ⟨t', htab, hc⟩ := tableAt_cons.mp ht
  obtain ⟨-, rfl⟩ := child_eq_some.mp hc
  exact (h.link _ _ _ hp htab (child_present hc)).2

/-- **A failed answer** at a table of the tree: the entry is `2 ^ 64 - 1`,
and so is the table that is returned. -/
theorem getOrAllocTable_invalid (h : Inv s) (hi : OffTree s invalidPage) (hp : p.length ≤ 2)
    (ht : tableAt s p = some t) (hs : Answers s (invalidPage :: supply))
    (habs : tableAt s (i :: p) = none)
    (hr : getOrAllocTable s (invalidPage :: supply) t i = some (t', supply', s')) :
    t' ≠ 0 ∧ Broken s' ∧ OffTree s' invalidPage ∧ Answers s' supply' ∧ Blank s' t' supply' := by
  rw [h.tableAt_eq_none_iff hp ht] at habs
  have hti : t ≠ invalidPage := fun e => hi p (by omega) (e ▸ ht)
  unfold getOrAllocTable at hr
  rw [if_neg (by rw [not_not, and_twoPow_eq_zero (by norm_num)]; exact habs)] at hr
  simp only at hr
  rw [if_neg (by decide)] at hr
  simp only [Option.some.injEq, Prod.mk.injEq] at hr
  obtain ⟨rfl, rfl, rfl⟩ := hr
  have hall : invalidPage ||| ptePresent ||| pteWritable = invalidPage := by decide
  rw [hall]
  -- no path changes: the entry led nowhere and still leads nowhere
  have hclear : TreeKept s (s.clear invalidPage) := treeKept_clear hi
  have hmem : (s.clear invalidPage).mem t i = s.mem t i := State.clear_mem_of_ne hti
  have hsame : SameTables s ((s.clear invalidPage).set t i invalidPage) := by
    refine ⟨rfl, fun q t' j hq hqt => ?_⟩
    rw [← hclear.sameTables.child q t' j hq hqt]
    by_cases hc : t' = t ∧ j = i
    · obtain ⟨rfl, rfl⟩ := hc
      rw [child, State.set_mem_self, child, hmem, if_neg (by decide), if_neg]
      rw [leads_iff, habs]
      simp
    · rw [child, child, State.set_mem_of_ne hc]
  have hoff : ∀ {u}, OffTree s u → OffTree ((s.clear invalidPage).set t i invalidPage) u :=
    fun hu q hq => by
      rw [hsame.tableAt hq]
      exact hu q hq
  have hs' := hs.tail
  refine ⟨by decide, ⟨p, t, i, hp, (hsame.tableAt (by omega)).trans ht, State.set_mem_self⟩, hoff hi,
    ⟨fun x hx h0 h1 => ⟨(hs'.page x hx h0 h1).addr, hoff (hs'.page x hx h0 h1).notTable⟩, hs'.nodup⟩,
    hoff hi, fun j => .inl ?_, fun x _ hx => hx⟩
  rw [State.set_mem_of_ne fun hc => hti hc.1.symm]
  exact State.clear_mem_self

/-- The tables of `s'` are those of `s` and pages that were answered. -/
def TablesFrom (s s' : State) (supply : List Word) : Prop :=
  ∀ q u, q.length ≤ 3 → tableAt s' q = some u → tableAt s q = some u ∨ u ∈ supply ∧ u ≠ invalidPage

theorem TablesFrom.trans {s₁ : State} {supply₁ : List Word} (h : TablesFrom s s₁ supply)
    (h' : TablesFrom s₁ s' supply₁) (hsub : ∀ x ∈ supply₁, x ∈ supply) : TablesFrom s s' supply := by
  intro q u hq hu
  rcases h' q u hq hu with hu | ⟨hu, hne⟩
  · exact h q u hq hu
  · exact .inr ⟨hsub u hu, hne⟩

/-- What a call that meets no failed answer did: nothing, the answer being
`0`; or it found the table; or it added the page that was answered. -/
inductive Took (s : State) (supply : List Word) (path : List (Fin 512)) (t' : Word)
    (supply' : List Word) (s' : State) : Prop
  | null (h0 : t' = 0) (habs : tableAt s path = none) (hhead : supply.head? = some 0)
  | found (ht : tableAt s path = some t') (hsup : supply' = supply) (hs : s' = s)
  | added (habs : tableAt s path = none) (hsup : supply = t' :: supply') (h0 : t' ≠ 0)
      (hi : t' ≠ invalidPage)
      (htab : ∀ q, q.length ≤ 3 → tableAt s' q = if q = path then some t' else tableAt s q)

/-- **A call that meets no failed answer** grows the tree by pages that
were answered. -/
theorem getOrAllocTable_took (h : Inv s) (hi : OffTree s invalidPage) (hp : p.length ≤ 2)
    (ht : tableAt s p = some t) (hs : Answers s supply)
    (hok : tableAt s (i :: p) = none → supply.head? ≠ some invalidPage)
    (hr : getOrAllocTable s supply t i = some (t', supply', s')) :
    Grown s s' ∧ OffTree s' invalidPage ∧ Answers s' supply' ∧ TablesFrom s s' supply ∧
      (∀ x ∈ supply', x ∈ supply) ∧ Took s supply (i :: p) t' supply' s' := by
  have habs := h.tableAt_eq_none_iff (i := i) hp ht
  unfold getOrAllocTable at hr
  split at hr
  · rename_i hpres
    rw [and_twoPow_ne_zero (by norm_num)] at hpres
    obtain ⟨hlead, -⟩ := h.link p t i hp ht hpres
    rw [if_neg (by
      rw [not_not, and_twoPow_eq_zero (by norm_num)]
      exact (leads_iff.mp hlead).2)] at hr
    simp only [Option.some.injEq, Prod.mk.injEq] at hr
    obtain ⟨rfl, rfl, rfl⟩ := hr
    refine ⟨.refl h, hi, hs, fun _ _ _ hu => .inl hu, fun _ hx => hx, .found ?_ rfl rfl⟩
    refine tableAt_cons.mpr ⟨t, ht, child_eq_some.mpr ⟨hlead, ?_⟩⟩
    rw [tableFromEntry, if_neg (by rw [and_twoPow_eq_zero (by norm_num), hpres]; simp)]
  · rename_i hpres
    rw [not_not, and_twoPow_eq_zero (by norm_num)] at hpres
    have hnone := habs.mpr hpres
    cases supply with
    | nil => exact absurd hr (by simp)
    | cons x rest =>
      simp only at hr
      split at hr
      · rename_i h0
        simp only [Option.some.injEq, Prod.mk.injEq] at hr
        obtain ⟨rfl, rfl, rfl⟩ := hr
        exact ⟨.refl h, hi, hs.tail, fun _ _ _ hu => .inl hu, fun _ hy => .tail _ hy,
          .null rfl hnone (by rw [h0]; rfl)⟩
      · rename_i h0
        have hxi : x ≠ invalidPage := fun e => hok hnone (by rw [e]; rfl)
        have hf := hs.page x (by simp) h0 hxi
        simp only [Option.some.injEq, Prod.mk.injEq] at hr
        obtain ⟨rfl, rfl, rfl⟩ := hr
        change Grown s (addTable s t i x) ∧ OffTree (addTable s t i x) invalidPage ∧
          Answers (addTable s t i x) rest ∧ TablesFrom s (addTable s t i x) (x :: rest) ∧ _ ∧
          Took s (x :: rest) (i :: p) x rest (addTable s t i x)
        have htab : ∀ q : List (Fin 512), q.length ≤ 3 →
            tableAt (addTable s t i x) q = if q = i :: p then some x else tableAt s q :=
          fun q hq => tableAt_addTable h hp ht hpres hf hq
        have hoff : ∀ {u}, u ≠ x → OffTree s u → OffTree (addTable s t i x) u := by
          intro u hux hu q hq
          rw [htab q hq]
          split
          · exact fun e => hux (Option.some.inj e).symm
          · exact hu q hq
        refine ⟨⟨h.addTable hp ht hpres hf h0, rfl, fun q u hq hu => ?_,
          translate_addTable h hp ht hpres hf⟩, hoff hxi.symm hi, ⟨fun y hy hy0 hyi => ?_, hs.tail.nodup⟩,
          fun q u hq hu => ?_, fun y hy => .tail _ hy, .added hnone rfl h0 hxi htab⟩
        · rw [htab q hq, if_neg, hu]
          rintro rfl
          rw [hnone] at hu
          exact absurd hu (by simp)
        · have hfy := hs.tail.page y hy hy0 hyi
          have hne := (List.pairwise_cons.mp hs.nodup).1 y hy h0 hxi
          exact ⟨hfy.addr, hoff hne.symm hfy.notTable⟩
        · rw [htab q hq] at hu
          split at hu
          · obtain rfl := Option.some.inj hu
            exact .inr ⟨by simp, hxi⟩
          · exact .inl hu

/-! ## Which answers a call meets -/

theorem tableAt_cons_of_none (h : tableAt s p = none) : tableAt s (i :: p) = none := by
  rw [tableAt, h, Option.bind_none]

/-- How many tables the path to `vaddr` lacks. -/
def missing (s : State) (vaddr : Word) : ℕ :=
  if (tableAt s [index vaddr 21, index vaddr 30, index vaddr 39]).isSome then 0
  else if (tableAt s [index vaddr 30, index vaddr 39]).isSome then 1
  else if (tableAt s [index vaddr 39]).isSome then 2
  else 3

/-- One of the next `n` answers is a failure, before the first that is `0`. -/
def Meets (supply : List Word) (n : ℕ) : Prop :=
  invalidPage ∈ (supply.take n).takeWhile (· ≠ 0)

theorem not_meets_zero : ¬ Meets supply 0 := by simp [Meets]

theorem not_meets_of_head {n : ℕ} (h : supply.head? = some 0) : ¬ Meets supply n := by
  cases supply with
  | nil => exact absurd h (by simp)
  | cons x rest =>
    obtain rfl := Option.some.inj h
    cases n <;> simp [Meets]

theorem meets_invalid {n : ℕ} : Meets (invalidPage :: supply) (n + 1) := by
  unfold Meets
  rw [List.take_succ_cons, List.takeWhile_cons_of_pos (by decide)]
  exact .head _

theorem meets_cons {n : ℕ} (h0 : x ≠ 0) (hi : x ≠ invalidPage) :
    Meets (x :: supply) (n + 1) ↔ Meets supply n := by
  unfold Meets
  rw [List.take_succ_cons, List.takeWhile_cons_of_pos (by simpa using h0), List.mem_cons]
  exact or_iff_right hi.symm

/-- A part of the call met a failed answer, which is in the tree from then
on; or it met none, and kept the invariant over tables that were answered. -/
def Settles (s : State) (supply : List Word) (n : ℕ) (s' : State) : Prop :=
  (Meets supply n ∧ Broken s') ∨ (¬ Meets supply n ∧ Inv s' ∧ TablesFrom s s' supply)

/-- What comes after the page just added. -/
theorem Settles.cons {n : ℕ} {s₁ : State} (h : Settles s₁ supply n s')
    (ht : TablesFrom s s₁ (x :: supply)) (h0 : x ≠ 0) (hi : x ≠ invalidPage) :
    Settles s (x :: supply) (n + 1) s' := by
  rcases h with ⟨hm, hb⟩ | ⟨hm, hinv, hfrom⟩
  · exact .inl ⟨(meets_cons h0 hi).mpr hm, hb⟩
  · exact .inr ⟨fun hc => hm ((meets_cons h0 hi).mp hc), hinv,
      ht.trans hfrom fun _ hy => .tail _ hy⟩

theorem exists_head (h : supply.head? = some x) : ∃ rest, supply = x :: rest := by
  cases supply with
  | nil => exact absurd h (by simp)
  | cons y rest => exact ⟨rest, by rw [Option.some.inj h]⟩

/-- The stores after the walk keep the invariant and every table. -/
theorem storeLeaf_settles {pdpt pd pt : Word} (h : Inv s) (hp : Path s vaddr pdpt pd pt) :
    Inv ((grantUser s vaddr flags pdpt pd).set pt (index vaddr 12)
        ((paddr &&& pteAddrMask) ||| leafFlags flags)) ∧
      TablesFrom s ((grantUser s vaddr flags pdpt pd).set pt (index vaddr 12)
        ((paddr &&& pteAddrMask) ||| leafFlags flags)) supply := by
  obtain ⟨hg, hsame, -⟩ := grantUser_spec h hp flags
  have hpt := (hsame.tableAt (by simp)).trans hp.pt
  have huser : userBit ((paddr &&& pteAddrMask) ||| leafFlags flags) = flags.getLsbD 2 := by
    rw [userBit, getLsbD_leaf (by norm_num)]
    simp [leafFlags]
  refine ⟨(storeLeaf_spec h hp _ huser).1, fun q u hq hu => .inl ?_⟩
  rw [(sameTables_set_leaf hg.inv hpt).tableAt hq, hsame.tableAt hq] at hu
  exact hu

section Levels

variable {pdpt pd : Word} (h : Inv s) (hi : OffTree s invalidPage) (hs : Answers s supply)
include h hi hs

theorem mapFromPd_settles (h₃ : tableAt s [index vaddr 39] = some pdpt)
    (h₂ : tableAt s [index vaddr 30, index vaddr 39] = some pd)
    (hr : mapFromPd s supply vaddr paddr flags pdpt pd = some (r, s')) :
    Settles s supply (missing s vaddr) s' := by
  have hone : tableAt s [index vaddr 21, index vaddr 30, index vaddr 39] = none →
      missing s vaddr = 1 := fun habs => by simp [missing, habs, h₂]
  unfold mapFromPd at hr
  cases hg : getOrAllocTable s supply pd (index vaddr 21) with
  | none => simp [hg] at hr
  | some y =>
    obtain ⟨pt, rest, s₁⟩ := y
    simp only [hg] at hr
    by_cases hbad : tableAt s [index vaddr 21, index vaddr 30, index vaddr 39] = none ∧
        supply.head? = some invalidPage
    · obtain ⟨habs, hhead⟩ := hbad
      obtain ⟨rest', rfl⟩ := exists_head hhead
      obtain ⟨h0, hb, hi₁, hs₁, hblank⟩ := getOrAllocTable_invalid h hi (by simp) h₂ hs habs hg
      rw [if_neg h0] at hr
      simp only [Option.some.injEq, Prod.mk.injEq] at hr
      obtain ⟨-, rfl⟩ := hr
      rw [hone habs]
      exact .inl ⟨meets_invalid, (hb.kept treeKept_grantUser).kept
        (treeKept_set (treeKept_grantUser.offTree hblank.offTree))⟩
    · obtain ⟨hgrown, -, -, hfrom, -, htook⟩ := getOrAllocTable_took h hi (by simp) h₂ hs
        (fun habs hhead => hbad ⟨habs, hhead⟩) hg
      -- with all four tables there, what is left are the stores
      have hstore : tableAt s₁ [index vaddr 21, index vaddr 30, index vaddr 39] = some pt →
          pt ≠ 0 → Inv s' ∧ TablesFrom s₁ s' rest := by
        intro ht h0
        rw [if_neg h0] at hr
        simp only [Option.some.injEq, Prod.mk.injEq] at hr
        obtain ⟨-, rfl⟩ := hr
        exact storeLeaf_settles hgrown.inv ⟨hgrown.table _ _ (by simp) h₃,
          hgrown.table _ _ (by simp) h₂, ht⟩
      cases htook with
      | null h0 habs hhead =>
        rw [if_pos h0] at hr
        obtain ⟨-, rfl⟩ := by simpa using hr
        exact .inr ⟨not_meets_of_head hhead, hgrown.inv, hfrom⟩
      | found ht hsup hs₁ =>
        subst hsup hs₁
        have h0 : pt ≠ 0 := h.table_ne_zero (by simp) ht
        have hmiss : missing s₁ vaddr = 0 := by simp [missing, ht]
        rw [hmiss]
        exact .inr ⟨not_meets_zero, hstore ht h0⟩
      | added habs hsup h0 hne htab =>
        subst hsup
        rw [hone habs]
        obtain ⟨hinv, hfrom'⟩ := hstore (by rw [htab _ (by simp), if_pos rfl]) h0
        exact Settles.cons (n := 0) (.inr ⟨not_meets_zero, hinv, hfrom'⟩) hfrom h0 hne

theorem mapFromPdpt_settles (h₃ : tableAt s [index vaddr 39] = some pdpt)
    (hr : mapFromPdpt s supply vaddr paddr flags pdpt = some (r, s')) :
    Settles s supply (missing s vaddr) s' := by
  have hone : tableAt s [index vaddr 30, index vaddr 39] = none → missing s vaddr = 2 :=
    fun habs => by simp [missing, tableAt_cons_of_none habs, habs, h₃]
  unfold mapFromPdpt at hr
  cases hg : getOrAllocTable s supply pdpt (index vaddr 30) with
  | none => simp [hg] at hr
  | some y =>
    obtain ⟨pd, rest, s₁⟩ := y
    simp only [hg] at hr
    by_cases hbad : tableAt s [index vaddr 30, index vaddr 39] = none ∧
        supply.head? = some invalidPage
    · obtain ⟨habs, hhead⟩ := hbad
      obtain ⟨rest', rfl⟩ := exists_head hhead
      obtain ⟨h0, hb, hi₁, hs₁, hblank⟩ := getOrAllocTable_invalid h hi (by simp) h₃ hs habs hg
      rw [if_neg h0] at hr
      rw [hone habs]
      exact .inl ⟨meets_invalid, hb.kept (hblank.mapFromPd hi₁ hs₁ hr)⟩
    · obtain ⟨hgrown, hi₁, hs₁, hfrom, -, htook⟩ := getOrAllocTable_took h hi (by simp) h₃ hs
        (fun habs hhead => hbad ⟨habs, hhead⟩) hg
      have h₃' := hgrown.table _ _ (by simp) h₃
      cases htook with
      | null h0 habs hhead =>
        rw [if_pos h0] at hr
        obtain ⟨-, rfl⟩ := by simpa using hr
        exact .inr ⟨not_meets_of_head hhead, hgrown.inv, hfrom⟩
      | found ht hsup hs₁' =>
        subst hsup hs₁'
        have h0 : pd ≠ 0 := h.table_ne_zero (by simp) ht
        rw [if_neg h0] at hr
        exact mapFromPd_settles h hi hs h₃ ht hr
      | added habs hsup h0 hne htab =>
        subst hsup
        rw [if_neg h0] at hr
        have ht : tableAt s₁ [index vaddr 30, index vaddr 39] = some pd := by
          rw [htab _ (by simp), if_pos rfl]
        have hmiss : missing s₁ vaddr = 1 := by
          have habs₁ : tableAt s₁ [index vaddr 21, index vaddr 30, index vaddr 39] = none := by
            rw [htab _ (by simp), if_neg (by simp)]
            exact tableAt_cons_of_none habs
          simp [missing, habs₁, ht]
        have hrest := mapFromPd_settles hgrown.inv hi₁ hs₁ h₃' ht hr
        rw [hmiss] at hrest
        rw [hone habs]
        exact hrest.cons hfrom h0 hne

theorem mapPage_settles (hal : (vaddr ||| paddr) &&& pageOffMask = 0)
    (hr : mapPage s supply vaddr paddr flags = some (r, s')) :
    Settles s supply (missing s vaddr) s' := by
  have hone : tableAt s [index vaddr 39] = none → missing s vaddr = 3 := fun habs => by
    have habs₂ := tableAt_cons_of_none (i := index vaddr 30) habs
    simp [missing, tableAt_cons_of_none habs₂, habs₂, habs]
  rw [mapPage_eq h.root_ne hal] at hr
  cases hg : getOrAllocTable s supply s.pml4 (index vaddr 39) with
  | none => simp [hg] at hr
  | some y =>
    obtain ⟨pdpt, rest, s₁⟩ := y
    simp only [hg] at hr
    by_cases hbad : tableAt s [index vaddr 39] = none ∧ supply.head? = some invalidPage
    · obtain ⟨habs, hhead⟩ := hbad
      obtain ⟨rest', rfl⟩ := exists_head hhead
      obtain ⟨h0, hb, hi₁, hs₁, hblank⟩ :=
        getOrAllocTable_invalid h hi (p := []) (by simp) rfl hs habs hg
      rw [if_neg h0] at hr
      rw [hone habs]
      exact .inl ⟨meets_invalid, hb.kept (hblank.mapFromPdpt hi₁ hs₁ hr)⟩
    · obtain ⟨hgrown, hi₁, hs₁, hfrom, -, htook⟩ := getOrAllocTable_took h hi (p := []) (by simp)
        rfl hs (fun habs hhead => hbad ⟨habs, hhead⟩) hg
      cases htook with
      | null h0 habs hhead =>
        rw [if_pos h0] at hr
        obtain ⟨-, rfl⟩ := by simpa using hr
        exact .inr ⟨not_meets_of_head hhead, hgrown.inv, hfrom⟩
      | found ht hsup hs₁' =>
        subst hsup hs₁'
        rw [if_neg (h.table_ne_zero (by simp) ht)] at hr
        exact mapFromPdpt_settles h hi hs ht hr
      | added habs hsup h0 hne htab =>
        subst hsup
        rw [if_neg h0] at hr
        have ht : tableAt s₁ [index vaddr 39] = some pdpt := by
          rw [htab _ (by simp), if_pos rfl]
        have hmiss : missing s₁ vaddr = 2 := by
          have habs₂ := tableAt_cons_of_none (i := index vaddr 30) habs
          have habs₂' : tableAt s₁ [index vaddr 30, index vaddr 39] = none := by
            rw [htab _ (by simp), if_neg (by simp)]
            exact habs₂
          simp [missing, tableAt_cons_of_none habs₂', habs₂', ht]
        have hrest := mapFromPdpt_settles hgrown.inv hi₁ hs₁ ht hr
        rw [hmiss] at hrest
        rw [hone habs]
        exact hrest.cons hfrom h0 hne

end Levels

/-! ## Failing cleanly -/

/-- A call of `map_page` needs a table that `alloc_page` fails to give. -/
def Fails (s : State) (supply : List Word) (vaddr paddr : Word) : Prop :=
  (vaddr ||| paddr) &&& pageOffMask = 0 ∧ Meets supply (missing s vaddr)

/-- **What `map_page` must do**: where `alloc_page` fails it returns `-1` and
changes no translation, and every present entry above the last level leads
to a page obtained, before the call or in it. -/
structure Clean (s : State) (supply : List Word) (vaddr paddr : Word) (r : ℤ) (s' : State) :
    Prop where
  fails : Fails s supply vaddr paddr → r = -1 ∧ ∀ v, translate s' v = translate s v
  links : ∀ p t i, p.length ≤ 2 → tableAt s' p = some t → (s'.mem t i).getLsbD 0 = true →
    leads (s'.mem t i) = true ∧
      ((∃ q, q.length ≤ 3 ∧ tableAt s q = some (pteAddr (s'.mem t i))) ∨
        pteAddr (s'.mem t i) ∈ supply ∧ pteAddr (s'.mem t i) ≠ invalidPage)

/-- Page-table states from an empty `kernel_pml4` that is a page, by calls of
which no `alloc_page` failed. -/
def paged : System State Call where
  init s := machine.init s ∧ pteAddr s.pml4 = s.pml4
  step := machine.step

theorem mapPage_pml4 (h : Inv s) (hs : Fresh s supply)
    (hr : mapPage s supply vaddr paddr flags = some (r, s')) : s'.pml4 = s.pml4 := by
  rcases mapPage_cases h hs hr with ⟨-, hg⟩ | ⟨-, -, s₁, pdpt, pd, pt, hg, hp, rfl⟩
  · exact hg.pml4
  · obtain ⟨hg', -, -⟩ := grantUser_spec hg.inv hp flags
    exact hg'.pml4.trans hg.pml4

/-- The address in an entry is that of a page. -/
theorem pteAddr_pteAddr (e : Word) : pteAddr (pteAddr e) = pteAddr e := by
  rw [pteAddr, pteAddr, BitVec.and_assoc, BitVec.and_self]

theorem paged_inv (h : paged.Reachable s) : Inv s ∧ pteAddr s.pml4 = s.pml4 := by
  refine h.invariant (P := fun s => Inv s ∧ pteAddr s.pml4 = s.pml4) ?_ ?_
  · rintro s ⟨⟨h0, he⟩, hp⟩
    exact ⟨inv_of_empty h0 he, hp⟩
  · rintro s c s' - ⟨hi, hp⟩ ⟨hs, r, hr⟩
    refine ⟨hi.mapPage hs hr, ?_⟩
    rw [mapPage_pml4 hi hs hr]
    exact hp

/-- Every table of the tree is a page, and `2 ^ 64 - 1` is none. -/
theorem offTree_invalid (h : pteAddr s.pml4 = s.pml4) : OffTree s invalidPage := by
  intro q _ hq
  have hpage : pteAddr invalidPage = invalidPage := by
    cases q with
    | nil =>
      rw [← Option.some.inj hq]
      exact h
    | cons i q =>
      obtain ⟨t, -, hc⟩ := tableAt_cons.mp hq
      obtain ⟨-, he⟩ := child_eq_some.mp hc
      rw [← he]
      exact pteAddr_pteAddr _
  exact absurd hpage (by decide)

/-- **`map_page` fails cleanly exactly when no `alloc_page` of it fails.**
It returns in either case. -/
theorem map_page_clean_iff (supply : List Word) (vaddr paddr flags : Word)
    (h : paged.Reachable s) (hs : Answers s supply) :
    (3 ≤ supply.length → (mapPage s supply vaddr paddr flags).isSome = true) ∧
      ∀ r s', mapPage s supply vaddr paddr flags = some (r, s') →
        (Clean s supply vaddr paddr r s' ↔ ¬ Fails s supply vaddr paddr) := by
  obtain ⟨hinv, hpml4⟩ := paged_inv h
  have hi := offTree_invalid hpml4
  refine ⟨mapPage_isSome, fun r s' hr => ?_⟩
  by_cases hal : (vaddr ||| paddr) &&& pageOffMask = 0
  · rcases mapPage_settles hinv hi hs hal hr with ⟨hm, p, t, i, hp, ht, he⟩ | ⟨hm, hinv', hfrom⟩
    · -- the failed answer is an entry that leads to no table
      refine iff_of_false (fun hc => ?_) fun hn => hn ⟨hal, hm⟩
      have hl := (hc.links p t i hp ht (by rw [he]; decide)).1
      rw [he] at hl
      exact absurd hl (by decide)
    · refine iff_of_true ⟨fun hf => absurd hf.2 hm, fun p t i hp ht hpres => ?_⟩ fun hf => hm hf.2
      obtain ⟨hl, -⟩ := hinv'.link p t i hp ht hpres
      refine ⟨hl, ?_⟩
      have htab : tableAt s' (i :: p) = some (pteAddr (s'.mem t i)) :=
        tableAt_cons.mpr ⟨t, ht, child_eq_some.mpr ⟨hl, rfl⟩⟩
      have hlen : (i :: p).length ≤ 3 := by simp only [List.length_cons]; omega
      rcases hfrom _ _ hlen htab with hold | hnew
      · exact .inl ⟨i :: p, hlen, hold⟩
      · exact .inr hnew
  · -- an unaligned call returns before it asks for anything
    have hsame : s' = s := by
      unfold mapPage at hr
      rw [if_neg hinv.root_ne, if_pos hal] at hr
      obtain ⟨-, rfl⟩ := by simpa using hr
      rfl
    refine iff_of_true ⟨fun hf => absurd hf.1 hal, fun p t i hp ht hpres => ?_⟩ fun hf => hal hf.1
    rw [hsame] at ht hpres ⊢
    obtain ⟨hl, -⟩ := hinv.link p t i hp ht hpres
    exact ⟨hl, .inl ⟨i :: p, by simp only [List.length_cons]; omega,
      tableAt_cons.mpr ⟨t, ht, child_eq_some.mpr ⟨hl, rfl⟩⟩⟩⟩

theorem emptyTables_paged : paged.Reachable emptyTables :=
  .init ⟨⟨by decide, fun _ => rfl⟩, by decide⟩

/-- With no page left, mapping `0x400000` in empty tables succeeds and puts
`2 ^ 64 - 1` into `kernel_pml4`. -/
theorem map_page_succeeds_without_pages :
    paged.Reachable emptyTables ∧
      Fails emptyTables [invalidPage, invalidPage, invalidPage] 0x400000#64 0x5000#64 ∧
      ∃ s', mapPage emptyTables [invalidPage, invalidPage, invalidPage] 0x400000#64 0x5000#64
          ptePresent = some (0, s') ∧ s'.mem s'.pml4 0 = invalidPage ∧
        ¬ Clean emptyTables [invalidPage, invalidPage, invalidPage] 0x400000#64 0x5000#64 0 s' := by
  obtain ⟨⟨r, s'⟩, hr, heq⟩ := Option.map_eq_some_iff.mp
    (show (mapPage emptyTables [invalidPage, invalidPage, invalidPage] 0x400000#64 0x5000#64
      ptePresent).map (fun y => (y.1, y.2.mem y.2.pml4 0)) = some (0, invalidPage) by decide +kernel)
  obtain ⟨rfl, he⟩ := Prod.mk.injEq _ _ _ _ ▸ heq
  have hfails : Fails emptyTables [invalidPage, invalidPage, invalidPage] 0x400000#64 0x5000#64 :=
    ⟨by decide, by
      have hmiss : missing emptyTables 0x400000#64 = 3 := by decide +kernel
      rw [hmiss]
      exact meets_invalid⟩
  refine ⟨emptyTables_paged, hfails, s', hr, he, fun hc => ?_⟩
  exact absurd (hc.fails hfails).1 (by decide)

/-- Three pages for the tables of `0x400000`. -/
theorem map_page_clean_empty :
    ∃ r s', mapPage emptyTables [0x2000#64, 0x3000#64, 0x4000#64] 0x400000#64 0x5000#64
        ptePresent = some (r, s') ∧
      Clean emptyTables [0x2000#64, 0x3000#64, 0x4000#64] 0x400000#64 0x5000#64 r s' := by
  have hs : Answers emptyTables [0x2000#64, 0x3000#64, 0x4000#64] :=
    ⟨fun x hx h0 _ => emptyTables_fresh.page x hx h0, by decide⟩
  obtain ⟨hsome, hiff⟩ := map_page_clean_iff _ 0x400000#64 0x5000#64 ptePresent
    emptyTables_paged hs
  obtain ⟨⟨r, s'⟩, hr⟩ := Option.isSome_iff_exists.mp (hsome (by decide))
  refine ⟨r, s', hr, (hiff r s' hr).mpr fun hf => ?_⟩
  have hnot : ∀ n, ¬ Meets [0x2000#64, 0x3000#64, 0x4000#64] n := by
    intro n hm
    have hmem := List.mem_of_mem_take ((List.takeWhile_sublist _).subset hm)
    simp [invalidPage] at hmem
  exact hnot _ hf.2

end Vmm

end Csos

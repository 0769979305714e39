import Csos.Vmm.MapPage
/-!
# Virtual memory — the processor's walk

`translate` follows the four levels that `map_page` builds. The boot tables
also use 2 MiB pages, and the processor takes no address that is not
canonical: `resolve` is the whole walk, from a virtual to a physical
address. Where there are no large pages the two agree.
-/

namespace Csos

namespace Vmm

variable {s s' : State} {v : Word} {p : List (Fin 512)} {t : Word}

/-- The address is in the lower or in the higher half. -/
def canonical (v : Word) : Prop := v.toNat < 2 ^ 47 ∨ 2 ^ 64 - 2 ^ 47 ≤ v.toNat

instance (v : Word) : Decidable (canonical v) := inferInstanceAs (Decidable (_ ∨ _))

/-- The offset in a 2 MiB page. -/
abbrev hugeOffMask : Word := 0x1FFFFF#64
/-- The offset in a 1 GiB page. -/
abbrev giantOffMask : Word := 0x3FFFFFFF#64

/-- What an address resolves to: a physical address, and whether user mode
may use it. -/
structure Access where
  addr : Word
  user : Bool
  deriving DecidableEq

/-- The page of a physical address. -/
def frame (a : Word) : Word := a &&& ~~~pageOffMask

/-- The byte at a physical address. -/
def byteAt (s : State) (a : Word) : BitVec 8 :=
  (s.mem (frame a) (Fin.ofNat 512 (a.toNat / 8))).extractLsb' (8 * (a.toNat % 8)) 8

/-- **The walk of the processor.** -/
def resolve (s : State) (v : Word) : Option Access :=
  let e4 := s.mem s.pml4 (index v 39)
  let e3 := s.mem (pteAddr e4) (index v 30)
  let e2 := s.mem (pteAddr e3) (index v 21)
  let e1 := s.mem (pteAddr e2) (index v 12)
  if canonical v ∧ leads e4 = true then
    if leads e3 = true then
      if leads e2 = true then
        if e1 &&& ptePresent ≠ 0 then
          some ⟨pteAddr e1 ||| (v &&& pageOffMask), (e4 &&& e3 &&& e2 &&& e1 &&& pteUser) ≠ 0⟩
        else none
      else if e2 &&& ptePresent ≠ 0 then
        some ⟨(pteAddr e2 &&& ~~~hugeOffMask) ||| (v &&& hugeOffMask),
          (e4 &&& e3 &&& e2 &&& pteUser) ≠ 0⟩
      else none
    else if e3 &&& ptePresent ≠ 0 then
      some ⟨(pteAddr e3 &&& ~~~giantOffMask) ||| (v &&& giantOffMask), (e4 &&& e3 &&& pteUser) ≠ 0⟩
    else none
  else none

/-- States that have the same contents in every page table. -/
structure TablesAgree (s s' : State) : Prop where
  pml4 : s'.pml4 = s.pml4
  mem : ∀ p t, p.length ≤ 3 → tableAt s p = some t → s'.mem t = s.mem t

theorem tableAt_of_leads {i : Fin 512} (ht : tableAt s p = some t)
    (hl : leads (s.mem t i) = true) : tableAt s (i :: p) = some (pteAddr (s.mem t i)) :=
  tableAt_cons.mpr ⟨t, ht, child_eq_some.mpr ⟨hl, rfl⟩⟩

/-- **The walk reads only page tables.** -/
theorem TablesAgree.resolve (h : TablesAgree s s') (v : Word) : resolve s' v = resolve s v := by
  have h4 : s'.mem s'.pml4 (index v 39) = s.mem s.pml4 (index v 39) := by
    rw [h.pml4, h.mem [] s.pml4 (by simp) rfl]
  simp only [Vmm.resolve, h4]
  split
  · rename_i hc
    have ht₃ := tableAt_of_leads (p := []) (s := s) rfl hc.2
    rw [h.mem _ _ (by simp) ht₃]
    split
    · rename_i h3
      have ht₂ := tableAt_of_leads ht₃ h3
      rw [h.mem _ _ (by simp) ht₂]
      split
      · rename_i h2
        rw [h.mem _ _ (by simp) (tableAt_of_leads ht₂ h2)]
      · rfl
    · rfl
  · rfl

/-- Where present entries above the last level lead to tables, the walk is
`translate`. -/
theorem Inv.resolve_eq (h : Inv s) (hv : canonical v) : resolve s v =
    (translate s v).map fun τ => ⟨τ.page ||| (v &&& pageOffMask), τ.user⟩ := by
  have hlink : ∀ {p t i}, p.length ≤ 2 → tableAt s p = some t → leads (s.mem t i) ≠ true →
      ¬ (s.mem t i &&& ptePresent ≠ 0) := by
    intro p t i hp ht hl hpres
    rw [and_twoPow_ne_zero (by norm_num)] at hpres
    exact hl (h.link p t i hp ht hpres).1
  simp only [resolve, translate, hv, true_and]
  by_cases h4 : leads (s.mem s.pml4 (index v 39)) = true
  · have ht₃ := tableAt_of_leads (p := []) (s := s) rfl h4
    rw [if_pos h4]
    by_cases h3 : leads (s.mem (pteAddr (s.mem s.pml4 (index v 39))) (index v 30)) = true
    · have ht₂ := tableAt_of_leads ht₃ h3
      rw [if_pos h3]
      split
      · rename_i h2
        simp only [h4, h3, h2, true_and]
        split <;> rfl
      · rename_i h2
        rw [if_neg (hlink (by simp) ht₂ h2), if_neg fun hc => h2 hc.2.2.1]
        rfl
    · rw [if_neg h3, if_neg (hlink (by simp) ht₃ h3), if_neg fun hc => h3 hc.2.1]
      rfl
  · rw [if_neg h4, if_neg fun hc => h4 hc.1]
    rfl

/-- User access is granted at the top level, if it is at all. -/
theorem resolve_user {a : Access} (h : resolve s v = some a) (hu : a.user = true) :
    userBit (s.mem s.pml4 (index v 39)) = true := by
  have hbit : ∀ e x : Word, decide ((e &&& (x &&& pteUser)) ≠ 0) = true → userBit e = true := by
    intro e x hx
    rw [← BitVec.and_assoc, decide_eq_true_eq, and_twoPow_ne_zero (by norm_num), BitVec.getLsbD_and] at hx
    exact (Bool.and_eq_true_iff.mp hx).1
  simp only [resolve, BitVec.and_assoc (s.mem s.pml4 (index v 39))] at h
  split at h
  · split at h
    · split at h
      · split at h
        · cases h
          exact hbit _ _ hu
        · exact absurd h (by simp)
      · split at h
        · cases h
          exact hbit _ _ hu
        · exact absurd h (by simp)
    · split at h
      · cases h
        exact hbit _ _ hu
      · exact absurd h (by simp)
  · exact absurd h (by simp)

end Vmm

end Csos

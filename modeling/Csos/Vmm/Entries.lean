import Csos.Vmm.Model
/-!
# Virtual memory — the bits of an entry

The facts about page-table entries the proofs use: which bits the flags
occupy, that the address part and the flags part of an entry do not mix,
and what the stores of `map_page` leave in each.
-/

namespace Csos

namespace Vmm

variable {e x p flags : Word} {k : ℕ}

theorem and_twoPow_ne_zero (hk : k < 64) : e &&& BitVec.twoPow 64 k ≠ 0 ↔ e.getLsbD k = true := by
  rw [BitVec.and_twoPow]
  split
  · rename_i h
    simp only [h, iff_true, ne_eq]
    intro h0
    have := congrArg (·.getLsbD k) h0
    simp [hk] at this
  · rename_i h
    simp [h]

theorem and_twoPow_eq_zero (hk : k < 64) :
    e &&& BitVec.twoPow 64 k = 0 ↔ e.getLsbD k = false := by
  rw [← not_iff_not, Bool.not_eq_false]
  exact and_twoPow_ne_zero hk

/-- Bits outside a mask survive its complement. -/
theorem and_not_eq_self (h : x &&& p = 0) : x &&& ~~~p = x := by
  refine BitVec.eq_of_getLsbD_eq fun i hi => ?_
  have h0 := congrArg (·.getLsbD i) h
  simp only [BitVec.getLsbD_and, BitVec.getLsbD_not, hi] at h0 ⊢
  cases hx : x.getLsbD i <;> cases hp : p.getLsbD i <;> simp_all

/-- An aligned address below `2 ^ 52` is its own address part. -/
theorem pteAddr_eq_self (hlt : x.toNat < 2 ^ 52) (hal : x &&& pageOffMask = 0) : pteAddr x = x := by
  have hmask : pteAddrMask = BitVec.ofNat 64 (2 ^ 52 - 1) &&& ~~~pageOffMask := by decide
  have hlow : x &&& BitVec.ofNat 64 (2 ^ 52 - 1) = x := by
    refine BitVec.eq_of_toNat_eq ?_
    rw [BitVec.toNat_and, BitVec.toNat_ofNat, Nat.mod_eq_of_lt (by norm_num),
      Nat.and_two_pow_sub_one_eq_mod, Nat.mod_eq_of_lt hlt]
  rw [pteAddr, hmask, ← BitVec.and_assoc, hlow, and_not_eq_self hal]

theorem pteAddr_or (x e : Word) : pteAddr (x ||| e) = pteAddr x ||| pteAddr e :=
  BitVec.and_or_distrib_right

/-- The link `get_or_alloc_table` stores leads to its page. -/
theorem pteAddr_link (h : pteAddr p = p) : pteAddr (p ||| ptePresent ||| pteWritable) = p := by
  rw [pteAddr_or, pteAddr_or, h, show pteAddr ptePresent = 0 by decide,
    show pteAddr pteWritable = 0 by decide]
  simp

theorem leads_iff : leads e = true ↔ e.getLsbD 0 = true ∧ e.getLsbD 7 = false := by
  rw [leads, decide_eq_true_eq, and_twoPow_ne_zero (by norm_num), and_twoPow_eq_zero (by norm_num)]

theorem leads_link (h : pteAddr p = p) : leads (p ||| ptePresent ||| pteWritable) = true := by
  have h7 : p.getLsbD 7 = false := by
    rw [← h, pteAddr, BitVec.getLsbD_and, show pteAddrMask.getLsbD 7 = false by decide,
      Bool.and_false]
  rw [leads_iff, BitVec.getLsbD_or, BitVec.getLsbD_or, BitVec.getLsbD_or, BitVec.getLsbD_or, h7]
  refine ⟨?_, by decide⟩
  rw [show ptePresent.getLsbD 0 = true by decide, Bool.or_true, Bool.true_or]

/-- Granting user access moves neither the address nor the level. -/
theorem pteAddr_or_user (e : Word) : pteAddr (e ||| pteUser) = pteAddr e := by
  rw [pteAddr_or, show pteAddr pteUser = 0 by decide]
  simp

theorem leads_or_user (e : Word) : leads (e ||| pteUser) = leads e := by
  rw [Bool.eq_iff_iff, leads_iff, leads_iff]
  simp

/-! ## The leaf entry -/

/-- The flags `map_page` stores. -/
abbrev leafFlags (flags : Word) : Word := (flags ||| ptePresent) &&& ~~~pteHuge

theorem leafFlags_present (flags : Word) : (leafFlags flags).getLsbD 0 = true := by
  simp [leafFlags]

theorem leafFlags_user (flags : Word) :
    leafFlags flags &&& pteUser ≠ 0 ↔ flags.getLsbD 2 = true := by
  rw [and_twoPow_ne_zero (by norm_num)]
  simp [leafFlags]

/-- Flags made of the named bits have no address part. -/
theorem leafFlags_addr (h : flags &&& ~~~pteFlags = 0) : leafFlags flags &&& pteAddrMask = 0 := by
  have hf : flags &&& pteFlags = flags := by
    have := and_not_eq_self h
    rwa [BitVec.not_not] at this
  have hm : (flags ||| ptePresent) &&& pteAddrMask = 0 := by
    rw [BitVec.and_or_distrib_right, ← hf, BitVec.and_assoc,
      show pteFlags &&& pteAddrMask = 0 by decide, show ptePresent &&& pteAddrMask = 0 by decide]
    simp
  rw [leafFlags, BitVec.and_assoc, BitVec.and_comm (~~~pteHuge), ← BitVec.and_assoc, hm]
  simp

/-- The address part of a leaf. -/
theorem pteAddr_leaf (hp : pteAddr p = p) (hf : flags &&& ~~~pteFlags = 0) :
    pteAddr ((p &&& pteAddrMask) ||| leafFlags flags) = p := by
  have h1 : pteAddr (leafFlags flags) = 0 := leafFlags_addr hf
  rw [pteAddr_or, h1, show p &&& pteAddrMask = p from hp, hp]
  simp

/-- And its flags part. -/
theorem flags_leaf (hf : flags &&& ~~~pteFlags = 0) :
    ((p &&& pteAddrMask) ||| leafFlags flags) &&& ~~~pteAddrMask = leafFlags flags := by
  rw [BitVec.and_or_distrib_right, BitVec.and_assoc, and_not_eq_self (leafFlags_addr hf)]
  simp

/-- The bits below the address: a leaf has those of its flags. -/
theorem getLsbD_leaf {k : ℕ} (hk : k < 12) :
    ((p &&& pteAddrMask) ||| leafFlags flags).getLsbD k = (leafFlags flags).getLsbD k := by
  have hm : ∀ k < 12, pteAddrMask.getLsbD k = false := by decide
  rw [BitVec.getLsbD_or, BitVec.getLsbD_and, hm k hk, Bool.and_false, Bool.false_or]

end Vmm

end Csos

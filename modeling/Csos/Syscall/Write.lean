import Csos.Vmm.Walk
/-!
# `sys_write` — what it discloses

`do_sys_write` hands the user's buffer to the console after `user_mem_ok`,
a test of the range alone: it does not look at the page tables. The kernel
then reads the buffer with its own rights, so that every mapped page of the
lower half is read, the identity-mapped ones included. The theorem says
exactly when nothing is disclosed by it: when each page that is read is open
to user mode anyway, or is a page table. What the console does with the
bytes it is sent is not modelled.
-/

namespace Csos

namespace Syscall

open Vmm

/-- `PAGE_SIZE`. -/
abbrev pageSize : Word := 4096#64
/-- `KERNEL_VIRT_BASE`. -/
abbrev kernelVirtBase : Word := 0xFFFFFFFF80000000#64

/-- `user_mem_ok`. -/
def userMemOk (vaddr size : Word) : Bool :=
  if size = 0 then true
  else if vaddr < pageSize then false
  else if vaddr + size < vaddr then false
  else if vaddr + size > 0x0000800000000000#64 then false
  else if vaddr + size > kernelVirtBase then false
  else true

/-- A byte the kernel reads; `none` is a page fault. -/
def loadByte (s : State) (v : Word) : Option (BitVec 8) :=
  (resolve s v).map fun a => byteAt s a.addr

/-- What a call does: the bytes it sends to the console, and its result unless
a page fault ends it. -/
structure Outcome where
  sent : List (BitVec 8)
  ret : Option Word
  deriving DecidableEq

/-- The loop of `fb_console_write`: the bytes that are sent, and whether it
ends without a fault. -/
def sendLoop (s : State) : ℕ → Word → List (BitVec 8) × Bool
  | 0, _ => ([], true)
  | n + 1, p =>
    match loadByte s p with
    | none => ([], false)
    | some b => (b :: (sendLoop s n (p + 1)).1, (sendLoop s n (p + 1)).2)

/-- `fb_console_write`, with `s_ready`. -/
def fbConsoleWrite (ready : Bool) (s : State) (buf len : Word) : List (BitVec 8) × Bool :=
  if buf = 0 ∨ len = 0 then ([], true)
  else if ready = false then ([], true)
  else sendLoop s len.toNat buf

/-- `do_sys_write`. -/
def doSysWrite (ready : Bool) (s : State) (_fd ubuf len : Word) : Outcome :=
  if len = 0 then ⟨[], some 0⟩
  else if userMemOk ubuf len = false then ⟨[], some (-1)⟩
  else
    let r := fbConsoleWrite ready s ubuf len
    ⟨r.1, if r.2 then some len else none⟩

variable {s s' : State} {ubuf len page : Word} {ready : Bool} {n i : ℕ}

/-! ## The loop -/

theorem add_one_add (p : Word) (j : ℕ) :
    p + 1 + BitVec.ofNat 64 j = p + BitVec.ofNat 64 (j + 1) := by
  rw [BitVec.add_assoc]
  congr 1
  apply BitVec.eq_of_toNat_eq
  simp
  omega

/-- Loads that agree up to the first fault send the same. -/
theorem sendLoop_congr : ∀ (n : ℕ) (p : Word),
    (∀ i < n, (∀ j < i, (loadByte s (p + BitVec.ofNat 64 j)).isSome) →
      loadByte s' (p + BitVec.ofNat 64 i) = loadByte s (p + BitVec.ofNat 64 i)) →
    sendLoop s' n p = sendLoop s n p := by
  intro n
  induction n with
  | zero =>
    intro p _
    rfl
  | succ n ih =>
    intro p h
    have h0 : loadByte s' p = loadByte s p := by
      simpa using h 0 (by omega) (by simp)
    rw [sendLoop, sendLoop, h0]
    cases hb : loadByte s p with
    | none => rfl
    | some b =>
      have hrest : sendLoop s' n (p + 1) = sendLoop s n (p + 1) := by
        refine ih (p + 1) fun i hi hj => ?_
        rw [add_one_add]
        refine h (i + 1) (by omega) fun j hji => ?_
        cases j with
        | zero => simp [hb]
        | succ j =>
          rw [← add_one_add]
          exact hj j (by omega)
      rw [hrest]

/-- A byte that is reached is sent. -/
theorem sendLoop_getElem : ∀ (n : ℕ) (p : Word) (i : ℕ), i < n →
    (∀ j < i, (loadByte s (p + BitVec.ofNat 64 j)).isSome) →
    (sendLoop s n p).1[i]? = loadByte s (p + BitVec.ofNat 64 i) := by
  intro n
  induction n with
  | zero =>
    intro p i hi
    omega
  | succ n ih =>
    intro p i hi hj
    rw [sendLoop]
    cases i with
    | zero =>
      rw [show p + BitVec.ofNat 64 0 = p by simp]
      cases loadByte s p <;> rfl
    | succ i =>
      have h0 : (loadByte s p).isSome := by simpa using hj 0 (by omega)
      obtain ⟨b, hb⟩ := Option.isSome_iff_exists.mp h0
      rw [hb, ← add_one_add]
      refine ih (p + 1) i (by omega) fun j hji => ?_
      rw [add_one_add]
      exact hj (j + 1) (by omega)

/-! ## Two machines -/

/-- The page is open to user mode at some address. -/
def userPage (s : State) (page : Word) : Prop :=
  ∃ v a, resolve s v = some a ∧ a.user = true ∧ frame a.addr = page

/-- The page is a page table. -/
def tablePage (s : State) (page : Word) : Prop := ∃ p, p.length ≤ 3 ∧ tableAt s p = some page

/-- **States a user cannot tell apart**: they have the same page tables, and
the same contents in every page open to user mode. -/
structure Agree (s s' : State) : Prop where
  tables : TablesAgree s s'
  user : ∀ page, userPage s page → s'.mem page = s.mem page

/-- The range is accepted and its `i`-th byte is reached. -/
structure Reaches (ready : Bool) (s : State) (ubuf len : Word) (i : ℕ) : Prop where
  ready : ready = true
  ok : userMemOk ubuf len = true
  lt : i < len.toNat
  before : ∀ j < i, (resolve s (ubuf + BitVec.ofNat 64 j)).isSome

theorem loadByte_isSome {v : Word} : (loadByte s v).isSome = (resolve s v).isSome := by
  rw [loadByte, Option.isSome_map]

/-- The loop is entered with the bytes of an accepted range. -/
theorem doSysWrite_sent (h : Reaches ready s ubuf len i) (fd : Word) (s' : State) :
    (doSysWrite ready s' fd ubuf len).sent = (sendLoop s' len.toNat ubuf).1 := by
  have hlen : len ≠ 0 := by
    rintro rfl
    exact absurd h.lt (by simp)
  have hbuf : ubuf ≠ 0 := by
    rintro rfl
    have := h.ok
    rw [userMemOk, if_neg hlen, if_pos (by decide)] at this
    exact absurd this (by simp)
  rw [doSysWrite, if_neg hlen, if_neg (by rw [h.ok]; simp), fbConsoleWrite,
    if_neg (not_or.mpr ⟨hbuf, hlen⟩), if_neg (by rw [h.ready]; simp)]

/-- Otherwise what is sent does not depend on memory. -/
theorem doSysWrite_not_reached (h : ¬ (ready = true ∧ userMemOk ubuf len = true ∧ 0 < len.toNat))
    (fd : Word) (s s' : State) :
    doSysWrite ready s' fd ubuf len = doSysWrite ready s fd ubuf len := by
  by_cases hlen : len = 0
  · rw [doSysWrite, doSysWrite, if_pos hlen, if_pos hlen]
  have hpos : 0 < len.toNat := by
    rw [Nat.pos_iff_ne_zero]
    exact fun h0 => hlen (BitVec.eq_of_toNat_eq h0)
  cases hok : userMemOk ubuf len with
  | false => rw [doSysWrite, doSysWrite, if_neg hlen, if_neg hlen, hok, if_pos rfl, if_pos rfl]
  | true =>
    have hr : ready = false := by
      cases ready with
      | false => rfl
      | true => exact absurd ⟨rfl, hok, hpos⟩ h
    rw [doSysWrite, doSysWrite, fbConsoleWrite, fbConsoleWrite, hr, if_pos rfl, if_pos rfl]

/-! ## A byte that is changed -/

/-- The state with a word inverted. -/
def flipWord (s : State) (page : Word) (k : Fin 512) : State :=
  s.set page k (~~~ s.mem page k)

theorem byteAt_flip (s : State) (a : Word) :
    byteAt (flipWord s (frame a) (Fin.ofNat 512 (a.toNat / 8))) a ≠ byteAt s a := by
  intro h
  have hlt : 8 * (a.toNat % 8) < 64 := by omega
  have hbit := congrArg (·.getLsbD 0) h
  rw [byteAt, flipWord, State.set_mem_self, byteAt] at hbit
  simp only [BitVec.getLsbD_extractLsb', BitVec.getLsbD_not, Nat.add_zero, hlt, decide_true,
    Bool.true_and] at hbit
  simp at hbit

/-- A page that is neither a table nor open to user mode may hold anything. -/
theorem agree_flip (ht : ¬ tablePage s page) (hu : ¬ userPage s page) (k : Fin 512) :
    Agree s (flipWord s page k) := by
  have hmem : ∀ t, t ≠ page → (flipWord s page k).mem t = s.mem t := by
    intro t hne
    funext j
    exact State.set_mem_of_ne fun hc => hne hc.1
  refine ⟨⟨rfl, fun p t hp htab => hmem t ?_⟩, fun q hq => hmem q ?_⟩
  · rintro rfl
    exact ht ⟨p, hp, htab⟩
  · rintro rfl
    exact hu hq

/-- No accepted range has the length -1. -/
theorem userMemOk_neg_one (ubuf : Word) : userMemOk ubuf (-1) = false := by
  rw [userMemOk, if_neg (by decide)]
  split
  · rfl
  · rename_i h
    rw [if_pos]
    have h1 : (-1 : Word) = 0xFFFFFFFFFFFFFFFF#64 := by decide
    rw [h1]
    bv_omega

/-- A range that is reached is not rejected. -/
theorem Reaches.ret_ne (h : Reaches ready s ubuf len i) (fd : Word) :
    (doSysWrite ready s fd ubuf len).ret ≠ some (-1) := by
  have hlen : len ≠ 0 := by
    rintro rfl
    exact absurd h.lt (by simp)
  rw [doSysWrite, if_neg hlen, if_neg (by rw [h.ok]; simp)]
  dsimp only
  split
  · intro he
    have := h.ok
    rw [Option.some.inj he, userMemOk_neg_one] at this
    exact absurd this (by simp)
  · simp

/-- **A page that must not be disclosed is**: there is a state that cannot be
told apart and that sends something else. -/
theorem discloses (fd : Word) (h : Reaches ready s ubuf len i) {a : Access}
    (ha : resolve s (ubuf + BitVec.ofNat 64 i) = some a) (ht : ¬ tablePage s (frame a.addr))
    (hu : ¬ userPage s (frame a.addr)) : ∃ s', Agree s s' ∧
      (doSysWrite ready s' fd ubuf len).sent ≠ (doSysWrite ready s fd ubuf len).sent := by
  have hag := agree_flip ht hu (Fin.ofNat 512 (a.addr.toNat / 8))
  refine ⟨_, hag, fun heq => ?_⟩
  rw [doSysWrite_sent h, doSysWrite_sent h] at heq
  have hs := sendLoop_getElem len.toNat ubuf i h.lt fun j hj =>
    loadByte_isSome.trans (h.before j hj)
  have hs' := sendLoop_getElem len.toNat ubuf i h.lt fun j hj =>
    (loadByte_isSome.trans (congrArg _ (hag.tables.resolve _))).trans (h.before j hj)
  rw [heq, hs, loadByte, loadByte, hag.tables.resolve, ha] at hs'
  exact byteAt_flip s a.addr (Option.some.inj hs').symm

/-- **`sys_write` discloses only user memory if and only if** every page it
reaches is open to user mode somewhere, or is one of the page tables. -/
theorem sys_write_discloses_only_user (ready : Bool) (s : State) (fd ubuf len : Word) :
    (∀ s', Agree s s' →
      ((doSysWrite ready s fd ubuf len).ret = some (-1) ∧
        (doSysWrite ready s' fd ubuf len).ret = some (-1)) ∨
      (doSysWrite ready s' fd ubuf len).sent = (doSysWrite ready s fd ubuf len).sent) ↔
    ∀ i a, Reaches ready s ubuf len i → resolve s (ubuf + BitVec.ofNat 64 i) = some a →
      userPage s (frame a.addr) ∨ tablePage s (frame a.addr) := by
  constructor
  · intro hall i a hr ha
    by_contra hno
    rw [not_or] at hno
    obtain ⟨s', hag, hne⟩ := discloses fd hr ha hno.2 hno.1
    rcases hall s' hag with ⟨h1, -⟩ | h1
    · exact hr.ret_ne fd h1
    · exact hne h1
  · intro hcond s' hag
    refine .inr ?_
    by_cases hreach : ready = true ∧ userMemOk ubuf len = true ∧ 0 < len.toNat
    · have hr : Reaches ready s ubuf len 0 := ⟨hreach.1, hreach.2.1, hreach.2.2, by simp⟩
      rw [doSysWrite_sent hr, doSysWrite_sent hr]
      congr 1
      refine sendLoop_congr _ _ fun i hi hj => ?_
      rw [loadByte, loadByte, hag.tables.resolve]
      cases ha : resolve s (ubuf + BitVec.ofNat 64 i) with
      | none => rfl
      | some a =>
        have hri : Reaches ready s ubuf len i :=
          ⟨hreach.1, hreach.2.1, hi, fun j hji => loadByte_isSome.symm.trans (hj j hji)⟩
        have hmem : s'.mem (frame a.addr) = s.mem (frame a.addr) := by
          rcases hcond i a hri ha with hu | ⟨p, hp, ht⟩
          · exact hag.user _ hu
          · exact hag.tables.mem p _ hp ht
        rw [Option.map_some, Option.map_some, byteAt, byteAt, hmem]
    · rw [doSysWrite_not_reached hreach]

/-! ## Kernel memory -/

/-- One page of kernel memory, mapped to itself as `init_vmm` maps it. -/
def identityPage : State where
  mem t i :=
    if t = 0x1000#64 ∧ i = 0 then 0x2003#64 else if t = 0x2000#64 ∧ i = 0 then 0x3003#64
    else if t = 0x3000#64 ∧ i = 0 then 0x4003#64 else if t = 0x4000#64 ∧ i = 5 then 0x5003#64 else 0
  pml4 := 0x1000#64

theorem child_identityPage {t u : Word} {i : Fin 512} (h : child identityPage t i = some u) :
    (t = 0x1000#64 ∧ u = 0x2000#64) ∨ (t = 0x2000#64 ∧ u = 0x3000#64) ∨
      (t = 0x3000#64 ∧ u = 0x4000#64) ∨ (t = 0x4000#64 ∧ u = 0x5000#64) := by
  obtain ⟨hl, rfl⟩ := child_eq_some.mp h
  simp only [identityPage] at hl ⊢
  split_ifs at hl ⊢ with h1 h2 h3 h4
  · exact .inl ⟨h1.1, by decide⟩
  · exact .inr (.inl ⟨h2.1, by decide⟩)
  · exact .inr (.inr (.inl ⟨h3.1, by decide⟩))
  · exact .inr (.inr (.inr ⟨h4.1, by decide⟩))
  · exact absurd hl (by decide)

/-- Its tables are the pages from `0x1000` to `0x4000`, one for each level. -/
theorem tableAt_identityPage : ∀ (p : List (Fin 512)) (t : Word), p.length ≤ 3 →
    tableAt identityPage p = some t → t = BitVec.ofNat 64 (0x1000 * (p.length + 1)) := by
  intro p
  induction p with
  | nil =>
    intro t _ ht
    exact (Option.some.inj ht).symm
  | cons i p ih =>
    intro t hp ht
    obtain ⟨u, hu, hc⟩ := tableAt_cons.mp ht
    have hu := ih u (by simp only [List.length_cons] at hp; omega) hu
    have hlen : p.length = 0 ∨ p.length = 1 ∨ p.length = 2 := by
      simp only [List.length_cons] at hp
      omega
    rcases hlen with hlen | hlen | hlen <;> rw [hlen] at hu <;>
      rcases child_identityPage hc with ⟨h1, h2⟩ | ⟨h1, h2⟩ | ⟨h1, h2⟩ | ⟨h1, h2⟩ <;>
      simp_all

/-- The page is read by a `sys_write` of one byte, and what it holds is
sent. -/
theorem sys_write_discloses_kernel : ¬ ∀ (ready : Bool) (s s' : State) (fd ubuf len : Word),
    Agree s s' →
      ((doSysWrite ready s fd ubuf len).ret = some (-1) ∧
        (doSysWrite ready s' fd ubuf len).ret = some (-1)) ∨
      (doSysWrite ready s' fd ubuf len).sent = (doSysWrite ready s fd ubuf len).sent := by
  intro hall
  have htab : ¬ tablePage identityPage 0x5000#64 := by
    rintro ⟨p, hp, ht⟩
    have h := congrArg BitVec.toNat (tableAt_identityPage p _ hp ht)
    simp only [BitVec.toNat_ofNat] at h
    omega
  have huser : ¬ userPage identityPage 0x5000#64 := by
    rintro ⟨v, a, ha, hu, -⟩
    have hbit := resolve_user ha hu
    have hroot : identityPage.mem identityPage.pml4 (index v 39) = 0x2003#64 ∨
        identityPage.mem identityPage.pml4 (index v 39) = 0 := by
      simp only [identityPage]
      split <;> simp
    rcases hroot with hr | hr <;> rw [hr] at hbit <;> exact absurd hbit (by decide)
  have hreach : Reaches true identityPage 0x5000#64 1#64 0 := ⟨rfl, by decide, by decide, by simp⟩
  have ha : resolve identityPage (0x5000#64 + BitVec.ofNat 64 0) = some ⟨0x5000#64, false⟩ := by
    decide
  obtain ⟨s', hag, hne⟩ := discloses 1#64 hreach ha htab huser
  rcases hall true identityPage s' 1#64 0x5000#64 1#64 hag with ⟨h1, -⟩ | h1
  · exact hreach.ret_ne _ h1
  · exact hne h1

end Syscall

end Csos

import Csos.Heap.Runs
/-!
# Kernel heap — the size of what is returned

`kmalloc` adds the header to the request and rounds up in `size_t`. For
the 47 sizes at the top of the type, from `2 ^ 64 - 47` on, the sum wraps
and the total it looks for is the least block. Here the clients may ask
for any size (`anySize`), and `kmalloc_holds_iff` says which calls return
too little.
-/

namespace Csos

namespace Heap

open Block

variable {sz p : ℕ} {b : Block} {free live : List Block} {s s' : State} {supply : List ℕ} {w : World}

/-- A step of `machine`, or a call with any `size_t`. What such a call
gives a client to write is the payload that was really returned. -/
inductive AnyStep : World → Op → World → Prop
  | step {w : World} {op : Op} {w' : World} (h : Step w op w') : AnyStep w op w'
  | malloc {w : World} {sz p : ℕ} {supply : List ℕ} {s' : State} (hlt : sz < addrTop)
      (hf : Fresh w.heap supply) (h : kmalloc w.heap supply sz = some (p, s')) :
      AnyStep w (.malloc sz supply) ⟨s', if p = 0 then w.live else (p, sz) :: w.live⟩

/-- The heap and its clients, asking for any size. -/
def anySize : System World Op where
  init := machine.init
  step := AnyStep

/-- The result is `NULL`, or the payload of a block of at least that
size. -/
def Holds (s : State) (p sz : ℕ) : Prop :=
  p = 0 ∨ hdrSize + sz ≤ size s.mem (payloadToBlock p)

/-! ## The invariant, for any request -/

theorem kmalloc_zero : kmalloc s supply 0 = some (0, s) := rfl

/-- The invariant of a world, the blocks beginning where the pointers
being served say. -/
def BeginsRep (w : World) : Prop :=
  ∃ free live, Rep w.heap free live ∧ List.Forall₂ Begins live w.live

/-- **The representation invariant holds whatever was asked for.** -/
theorem anySize_rep (h : anySize.Reachable w) : BeginsRep w := by
  refine h.invariant ?_ ?_
  · rintro ⟨s, live⟩ ⟨rfl, m, supply, hf, hinit⟩
    obtain ⟨free, hrep⟩ := initHeap_rep hf hinit
    exact ⟨free, [], hrep, .nil⟩
  · intro w op w' _ ⟨free, live, hrep, hlive⟩ hstep
    -- a call of any size is the only step that `machine` lacks
    have hmalloc : ∀ {sz p supply s'}, Fresh w.heap supply →
        kmalloc w.heap supply sz = some (p, s') → ∃ free' live', Rep s' free' live' ∧
          List.Forall₂ Begins live' (if p = 0 then w.live else (p, sz) :: w.live) := by
      intro sz p supply s' hf hk
      rcases Nat.eq_zero_or_pos sz with rfl | hpos
      · rw [kmalloc_zero, Option.some.injEq, Prod.mk.injEq] at hk
        obtain ⟨rfl, rfl⟩ := hk
        exact ⟨free, live, hrep, by simpa using hlive⟩
      · exact kmalloc_requests hrep hlive hf hpos hk fun b _ => rfl
    cases hstep with
    | malloc hlt hf hk => exact hmalloc hf hk
    | step h =>
      cases h with
      | malloc h1 hlt hf hk => exact hmalloc hf hk
      | free hl hk =>
        rw [hl] at hlive
        exact kfree_requests hrep hlive (fun b r hb => hb) hk
      | write hm => exact ⟨free, live, hrep.write hlive hm, hlive⟩

/-! ## The total that is looked for -/

/-- **From `2 ^ 64 - 47` on the total is the least block.** -/
theorem needTotal_wraps (h : addrTop ≤ sz + 47) (hsz : sz < addrTop) : needTotal sz = 48 := by
  have hal : alignUp ((hdrSize + sz) % addrTop) heapAlign < heapMinTotal := by
    unfold alignUp
    simp only [hdrSize, heapAlign, heapMinTotal, addrTop] at *
    omega
  exact if_pos hal

/-- The header of the block a pointer was made from. -/
theorem size_payloadToBlock (h : Rep s free (b :: live)) :
    size s.mem (payloadToBlock (b.addr + 32)) = b.size := by
  have hok := h.ok_live b (by simp)
  have hfin := hok.fin_le
  have hmin := hok.min_size
  have hptr : payloadToBlock (b.addr + 32) = b.addr := by
    unfold payloadToBlock
    simp only [fin, addrTop, hdrSize] at hfin ⊢
    omega
  rw [hptr]
  exact (h.hdr_live b (by simp)).size

/-- The chain is empty when `free_head` is `NULL`, and only then. -/
theorem freeHead_eq_zero_iff (h : Rep s free live) : s.freeHead = 0 ↔ free = [] := by
  have hhead := h.list.linked.head?_eq
  constructor
  · intro h0
    rw [h0, ptr_zero] at hhead
    exact List.map_eq_nil_iff.mp (List.head?_eq_none_iff.mp hhead.symm)
  · intro hnil
    subst hnil
    exact ptr_inj_headAddr (l := []) (by simp) hhead

/-- **When a request for the least block is answered with `NULL`**: the
chain is empty and no page was added. -/
theorem kmalloc_least_eq_zero (h : Rep s free live) (hf : Fresh s supply) (h1 : 1 ≤ sz)
    (hneed : needTotal sz = 48) (hk : kmalloc s supply sz = some (p, s')) :
    p = 0 ↔ s.freeHead = 0 ∧ supply.head? = some 0 := by
  have hexp : expandPages 48 = 1 := by decide
  have hnofit : ∀ {s free}, Rep s free live → (∀ b ∈ free, b.size < 48) → free = [] := by
    intro s free h hlt
    refine List.eq_nil_iff_forall_not_mem.mpr fun b hb => ?_
    exact absurd (h.list.ok b hb).min_size (Nat.not_le.mpr (hlt b hb))
  constructor
  · rintro rfl
    rcases (kmalloc_spec h hf h1).1 0 s' hk with ⟨-, hlt, ok, free', hgrow, hrep', hlt'⟩ | ⟨b, -, hb, -⟩
    · rw [hneed] at hlt hgrow hlt'
      refine ⟨(freeHead_eq_zero_iff h).mpr (hnofit h hlt), ?_⟩
      rw [heapExpand, hexp] at hgrow
      cases supply with
      | nil => exact absurd hgrow (by simp [addPages])
      | cons q supply =>
        by_contra hq
        have hq0 : q ≠ 0 := fun hc => hq (by rw [hc]; rfl)
        obtain ⟨s₁, hadd, -, hrep₁, -⟩ := heapAddPage_rep h (hf.fresh q (by simp)) hq0
        simp only [addPages, hadd, Option.some.injEq, Prod.mk.injEq] at hgrow
        obtain ⟨rfl, rfl⟩ := hgrow
        -- the page added is free, so the chain is not empty
        have hnil := (freeHead_eq_zero_iff hrep₁).mp
          ((freeHead_eq_zero_iff hrep').mpr (hnofit hrep' (hlt' rfl)))
        have hcov : Covers ((pageBlock q).insert free) q :=
          covers_insert.mpr (.inl (by simp [Mem, pageBlock, fin]))
        rw [hnil] at hcov
        exact covers_nil hcov
    · omega
  · rintro ⟨hhead, hq⟩
    obtain ⟨rest, rfl⟩ : ∃ rest, supply = 0 :: rest := by
      cases supply with
      | nil => exact absurd hq (by simp)
      | cons q rest => exact ⟨rest, by rw [Option.some.inj hq]⟩
    have hnil := (freeHead_eq_zero_iff h).mp hhead
    rcases freelistFindFit_spec h.list (needTotal sz) with ⟨hfind, -⟩ | ⟨b, hb, -, -⟩
    · have hsz0 : sz ≠ 0 := by omega
      have hgrow : heapExpand s (0 :: rest) (needTotal sz) = some (false, s) := by
        rw [heapExpand, hneed, hexp]
        rfl
      simp only [kmalloc, if_neg hsz0, hfind, hgrow, ne_eq, not_true_eq_false, if_false,
        Option.some.injEq, Prod.mk.injEq] at hk
      exact hk.1.symm
    · rw [hnil] at hb
      exact absurd hb (by simp)

/-! ## What is returned -/

/-- **`kmalloc` returns enough exactly when the rounded sum does not wrap**,
or where there is nothing it could return. -/
theorem kmalloc_holds_iff (h : anySize.Reachable w) (hsz : sz < addrTop) (hf : Fresh w.heap supply) :
    (expandPages (needTotal sz) ≤ supply.length ∨ 0 ∈ supply →
      (kmalloc w.heap supply sz).isSome) ∧
      ∀ p s', kmalloc w.heap supply sz = some (p, s') →
        (Holds s' p sz ↔
          sz + 47 < addrTop ∨ (w.heap.freeHead = 0 ∧ supply.head? = some 0)) := by
  obtain ⟨free, live, hrep, -⟩ := anySize_rep h
  rcases Nat.eq_zero_or_pos sz with rfl | hpos
  · refine ⟨fun _ => rfl, fun p s' hk => ?_⟩
    rw [kmalloc_zero, Option.some.injEq, Prod.mk.injEq] at hk
    exact iff_of_true (.inl hk.1.symm) (.inl (by norm_num))
  refine ⟨(kmalloc_spec hrep hf hpos).2, fun p s' hk => ?_⟩
  rcases Nat.lt_or_ge (sz + 47) addrTop with hlt | hwrap
  · refine iff_of_true ?_ (.inl hlt)
    rcases kmalloc_rep hrep hf hpos hk with ⟨hp, -⟩ | ⟨b, free', rfl, hb, hrep'⟩
    · exact .inl hp
    · refine .inr ?_
      rw [size_payloadToBlock hrep']
      exact (le_needTotal hlt).trans hb
  · have hnull := kmalloc_least_eq_zero hrep hf hpos (needTotal_wraps hwrap hsz) hk
    rw [or_iff_right (Nat.not_lt.mpr hwrap), ← hnull]
    refine ⟨fun hh => ?_, .inl⟩
    rcases hh with hp | hle
    · exact hp
    · -- no block is as large as the addresses past the page at `NULL`
      rcases kmalloc_rep hrep hf hpos hk with ⟨hp, -⟩ | ⟨b, free', rfl, hb, hrep'⟩
      · exact hp
      · rw [size_payloadToBlock hrep'] at hle
        have hok := hrep'.ok_live b (by simp)
        have h1 := hok.fin_le
        have h2 := hok.addr_ge
        simp only [fin, hdrSize, addrTop, pageSize] at *
        omega

/-- A request for the largest `size_t` is given 16 bytes. -/
theorem kmalloc_short_largest :
    ∃ w, anySize.Reachable w ∧ ∃ p s', kmalloc w.heap [] (2 ^ 64 - 1) = some (p, s') ∧
      p = 4128 ∧ size s'.mem (payloadToBlock p) = hdrSize + 16 ∧ ¬ Holds s' p (2 ^ 64 - 1) := by
  obtain ⟨r, hr, hp⟩ := Option.map_eq_some_iff.mp
    (show ((initHeap (Bytes.const 0) firstPages).bind (kmalloc · [] (2 ^ 64 - 1))).map
      (fun r => (r.1, size r.2.mem (payloadToBlock r.1))) = some (4128, 48) by decide +kernel)
  obtain ⟨s, hs, hr⟩ := Option.bind_eq_some_iff.mp hr
  obtain ⟨hp, hsize⟩ := Prod.mk.injEq _ _ _ _ ▸ hp
  have hinit : anySize.Reachable ⟨s, []⟩ := .init ⟨rfl, _, _, firstPages_fresh _, hs⟩
  refine ⟨⟨s, []⟩, hinit, r.1, r.2, hr, hp, hsize, ?_⟩
  rintro (h | h)
  · omega
  · rw [hsize] at h
    exact absurd h (by decide)

/-- The same heap and a request for 100 bytes. -/
theorem kmalloc_holds_hundred :
    ∃ w, anySize.Reachable w ∧ ∃ p s', kmalloc w.heap [] 100 = some (p, s') ∧ p ≠ 0 ∧
      Holds s' p 100 := by
  obtain ⟨r, hr, hp⟩ := Option.map_eq_some_iff.mp
    (show ((initHeap (Bytes.const 0) firstPages).bind (kmalloc · [] 100)).map Prod.fst
      = some 4128 by decide +kernel)
  obtain ⟨s, hs, hr⟩ := Option.bind_eq_some_iff.mp hr
  have hinit : anySize.Reachable ⟨s, []⟩ := .init ⟨rfl, _, _, firstPages_fresh _, hs⟩
  have hfresh : Fresh (⟨s, []⟩ : World).heap [] := ⟨by simp, .nil⟩
  have hiff := (kmalloc_holds_iff hinit (by norm_num) hfresh).2 r.1 r.2 hr
  exact ⟨_, hinit, r.1, r.2, hr, by omega, hiff.mpr (.inl (by norm_num))⟩

end Heap

end Csos

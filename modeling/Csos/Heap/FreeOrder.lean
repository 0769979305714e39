import Csos.Heap.Sizes
/-!
# Kernel heap — the order of frees

Each `kfree` may merge with either neighbour, both or none, depending on
what was freed before. What is left is nonetheless fixed by which blocks
were freed: the chain is coalesced, and a coalesced list is determined by
the addresses it covers (`Coalesced.eq_of_covers`). `kfree_order` states
it for the chain read from memory, and `PageRun` says what the chain is
once everything was freed.
-/

namespace Csos

namespace Heap

open Block

variable {b : Block} {free live l : List Block} {s s' : State} {ps qs pages : List ℕ} {w : World}

/-- Frees the pointers in turn. -/
def kfreeAll (s : State) (ps : List ℕ) : Option State := System.run kfree s ps

/-! ## The chain read from memory -/

/-- The blocks on the chain from `a`, with the sizes in their headers. -/
def chainFrom (m : Bytes) : ℕ → ℕ → Option (List Block)
  | 0, _ => none
  | fuel + 1, a =>
    if a = 0 then some []
    else (chainFrom m fuel (nextFree m a)).map (⟨a, size m a⟩ :: ·)

/-- The free list: addresses and sizes, in chain order. -/
def freeList (s : State) : Option (List Block) := chainFrom s.mem listFuel s.freeHead

/-- Induction on the list, which the chain follows header by header. -/
theorem chainFrom_eq {m : Bytes} {fuel a : ℕ} (hf : l.length < fuel)
    (hl : ∀ b ∈ l, Hdr m b 0 ∧ Ok b) (hlink : Linked (nextPtr m) (ptr a) (l.map addr)) :
    chainFrom m fuel a = some l := by
  induction l generalizing fuel a with
  | nil =>
    obtain ⟨fuel, rfl⟩ : ∃ k, fuel = k + 1 :=
      ⟨fuel - 1, by simp only [List.length_nil] at hf; omega⟩
    have ha : a = 0 := ptr_inj_headAddr (l := []) (by simp) hlink.head?_eq
    rw [chainFrom, if_pos ha]
  | cons b l ih =>
    obtain ⟨fuel, rfl⟩ : ∃ k, fuel = k + 1 := ⟨fuel - 1, by omega⟩
    obtain ⟨hhdr, hok⟩ := hl b (by simp)
    have ha : a = b.addr := ptr_inj_headAddr (l := b :: l) (fun c hc => (hl c hc).2)
      hlink.head?_eq
    have ha0 : a ≠ 0 := by have := hok.addr_pos; omega
    have hlink' : Linked (nextPtr m) (ptr (nextFree m a)) (l.map addr) := by
      rw [ha]
      exact hlink.2
    rw [chainFrom, if_neg ha0, ih (by simp only [List.length_cons] at hf; omega)
      (fun c hc => hl c (by simp [hc])) hlink', ha, hhdr.size]
    rfl

theorem Rep.freeList_eq (h : Rep s free live) : freeList s = some free :=
  chainFrom_eq h.list.length_lt (fun b hb => ⟨h.list.hdr b hb, h.list.ok b hb⟩) h.list.linked

/-! ## What a run of frees leaves -/

/-- The payload of the block is not one of these pointers. -/
abbrev Spared (ps : List ℕ) (b : Block) : Prop := b.addr + 32 ∉ ps

/-- **Freeing live pointers returns, and leaves the other live blocks.**
Induction on the pointers. -/
theorem kfreeAll_rep (h : Rep s free live) (hnd : ps.Nodup)
    (hps : ∀ p ∈ ps, ∃ b ∈ live, p = b.addr + 32) :
    ∃ s' free', kfreeAll s ps = some s' ∧ s'.pages = s.pages ∧
      Rep s' free' (live.filter (Spared ps)) := by
  induction ps generalizing s free live with
  | nil => exact ⟨s, free, rfl, rfl, by simpa [Spared] using h⟩
  | cons p ps ih =>
    obtain ⟨hp, hnd'⟩ := List.nodup_cons.mp hnd
    obtain ⟨b, hb, rfl⟩ := hps p (by simp)
    obtain ⟨L₁, L₂, rfl⟩ := List.append_of_mem hb
    obtain ⟨s₁, hs₁, hrep₁, hpages₁, -⟩ := kfree_rep h
    -- no other live block begins where this one does
    have hother : ∀ c ∈ L₁ ++ L₂, c.addr ≠ b.addr := by
      intro c hc heq
      have hbc : b.Apart c := by
        obtain ⟨-, ha₂, ha₁₂⟩ := List.pairwise_append.mp h.apart_live
        rcases List.mem_append.mp hc with hc | hc
        · exact (ha₁₂ c hc b (by simp)).symm
        · exact (List.pairwise_cons.mp ha₂).1 c hc
      have hbpos := (h.ok_live b hb).pos
      have hcpos := (hrep₁.ok_live c hc).pos
      simp only [Apart, fin] at hbc
      omega
    have hps₁ : ∀ q ∈ ps, ∃ c ∈ L₁ ++ L₂, q = c.addr + 32 := by
      intro q hq
      obtain ⟨c, hc, rfl⟩ := hps q (by simp [hq])
      refine ⟨c, ?_, rfl⟩
      rcases List.mem_append.mp hc with hc | hc
      · simp [hc]
      · rcases List.mem_cons.mp hc with rfl | hc
        · exact absurd hq hp
        · simp [hc]
    obtain ⟨s', free', hs', hpages', hrep'⟩ := ih hrep₁ hnd' hps₁
    have hfilter : (L₁ ++ b :: L₂).filter (Spared ((b.addr + 32) :: ps)) =
        (L₁ ++ L₂).filter (Spared ps) := by
      have hcongr : ∀ l : List Block, (∀ c ∈ l, c.addr ≠ b.addr) →
          l.filter (Spared ((b.addr + 32) :: ps)) = l.filter (Spared ps) := by
        intro l hl
        refine List.filter_congr fun c hc => ?_
        have := hl c hc
        simp [Spared, this]
      rw [List.filter_append, List.filter_append,
        List.filter_cons_of_neg (by simp [Spared]), hcongr L₁ fun c hc => hother c (by simp [hc]),
        hcongr L₂ fun c hc => hother c (by simp [hc])]
    refine ⟨s', free', ?_, hpages'.trans hpages₁, hfilter ▸ hrep'⟩
    rw [kfreeAll, System.run, hs₁]
    exact hs'

/-- The free blocks cover what the pages have and the live blocks do not. -/
theorem Rep.covers_free (h : Rep s free live) (x : ℕ) :
    Covers free x ↔ Covers (pageBlocks s.pages) x ∧ ¬ Covers live x := by
  rw [h.tiles x]
  have := h.disjoint x
  tauto

/-- **The pages and the live blocks fix the chain.** -/
theorem Rep.free_unique {s₁ s₂ : State} {free₁ free₂ : List Block} (h₁ : Rep s₁ free₁ live)
    (h₂ : Rep s₂ free₂ live) (hp : s₁.pages = s₂.pages) : free₁ = free₂ := by
  refine h₁.coalesced.eq_of_covers h₂.coalesced (fun c hc => (h₁.list.ok c hc).pos)
    (fun c hc => (h₂.list.ok c hc).pos) fun x => ?_
  rw [h₁.covers_free, h₂.covers_free, hp]

/-! ## When nothing is live -/

/-- The block is a maximal run of contiguous pages. -/
structure PageRun (pages : List ℕ) (b : Block) : Prop where
  pos : 0 < b.size
  addr_align : b.addr % pageSize = 0
  size_align : b.size % pageSize = 0
  inside : ∀ p, p % pageSize = 0 → b.Mem p → p ∈ pages
  not_next : b.fin ∉ pages
  not_prev : ∀ p ∈ pages, p + pageSize ≠ b.addr

/-- A maximal interval of the pages' addresses is a maximal run of pages. -/
theorem maximal_iff_pageRun (hal : ∀ p ∈ pages, p % pageSize = 0) :
    Maximal (Covers (pageBlocks pages)) b ↔ PageRun pages b := by
  simp only [pageSize] at hal
  constructor
  · intro h
    have hpos := h.pos
    have hstart : b.addr % 4096 = 0 := by
      obtain ⟨p, hp, h1, h2⟩ := covers_pageBlocks.mp (h.inside b.addr ⟨le_rfl, by simp only [fin]; omega⟩)
      by_contra hne
      have hpal := hal p hp
      refine h.not_before (b.addr - 1) (by omega) (covers_pageBlocks.mpr ⟨p, hp, by omega, by omega⟩)
    have hend : b.fin % 4096 = 0 := by
      obtain ⟨p, hp, h1, h2⟩ := covers_pageBlocks.mp
        (h.inside (b.fin - 1) ⟨by simp only [fin]; omega, by simp only [fin]; omega⟩)
      by_contra hne
      have hpal := hal p hp
      refine h.not_fin (covers_pageBlocks.mpr ⟨p, hp, by omega, ?_⟩)
      simp only [pageSize] at h2 ⊢
      omega
    refine ⟨hpos, hstart, ?_, fun p hp hb => ?_, fun hmem => ?_, fun p hp heq => ?_⟩
    · simp only [fin, pageSize] at hend ⊢
      omega
    · obtain ⟨q, hq, h1, h2⟩ := covers_pageBlocks.mp (h.inside p hb)
      have hqal := hal q hq
      simp only [pageSize] at hp h2
      obtain rfl : q = p := by omega
      exact hq
    · exact h.not_fin (covers_pageBlocks.mpr ⟨b.fin, hmem, le_rfl, by simp only [pageSize]; omega⟩)
    · simp only [pageSize] at heq
      refine h.not_before (p + 4095) (by omega) (covers_pageBlocks.mpr ⟨p, hp, by omega, ?_⟩)
      simp only [pageSize]
      omega
  · intro h
    have h1 := h.addr_align
    have h2 := h.size_align
    simp only [pageSize] at h1 h2
    refine ⟨h.pos, fun x hx => ?_, fun hc => ?_, fun y hy hc => ?_⟩
    · refine covers_pageBlocks.mpr ⟨x / 4096 * 4096, h.inside _ ?_ ?_, by omega, ?_⟩
      · exact Nat.mul_mod_left _ _
      · simp only [Mem, fin] at hx ⊢
        omega
      · simp only [pageSize]
        omega
    · obtain ⟨q, hq, hle, hlt⟩ := covers_pageBlocks.mp hc
      have hqal := hal q hq
      simp only [fin, pageSize] at hle hlt
      have hqb : q = b.fin := by simp only [fin]; omega
      exact h.not_next (hqb ▸ hq)
    · obtain ⟨q, hq, hle, hlt⟩ := covers_pageBlocks.mp hc
      have hqal := hal q hq
      simp only [pageSize] at hlt
      refine h.not_prev q hq ?_
      simp only [pageSize]
      omega

/-- **With nothing live the chain is the maximal runs of the pages.** -/
theorem Rep.mem_iff_pageRun (h : Rep s free []) : b ∈ free ↔ PageRun s.pages b := by
  have hcov : Covers free = Covers (pageBlocks s.pages) := by
    funext x
    simp [h.covers_free x]
  rw [h.coalesced.mem_iff_maximal fun c hc => (h.list.ok c hc).pos, hcov,
    maximal_iff_pageRun h.pages_align]

/-! ## Any two orders -/

/-- **Any two orders of freeing live pointers give the same free list and
the same live blocks**; freeing them all gives one block for each maximal
run of pages. -/
theorem kfree_order (h : anySize.Reachable w) (hps : ∀ p ∈ ps, ∃ sz, (p, sz) ∈ w.live)
    (hnd : ps.Nodup) (hperm : ps.Perm qs) :
    ∃ s₁ s₂ free live, kfreeAll w.heap ps = some s₁ ∧ kfreeAll w.heap qs = some s₂ ∧
      freeList s₁ = some free ∧ freeList s₂ = some free ∧
      Rep s₁ free live ∧ Rep s₂ free live ∧
      List.Forall₂ Begins live (w.live.filter (·.1 ∉ ps)) ∧
      ((∀ r ∈ w.live, r.1 ∈ ps) →
        live = [] ∧ free.Pairwise (fun b c => b.fin < c.addr) ∧
          ∀ b, b ∈ free ↔ PageRun w.heap.pages b) := by
  obtain ⟨free₀, live₀, hrep, hlive⟩ := anySize_rep h
  have hblock : ∀ p ∈ ps, ∃ b ∈ live₀, p = b.addr + 32 := by
    intro p hp
    obtain ⟨sz, hsz⟩ := hps p hp
    obtain ⟨L₁, L₂, hl⟩ := List.append_of_mem hsz
    obtain ⟨B₁, b, B₂, rfl, hb, -⟩ := exists_serving (hl ▸ hlive)
    exact ⟨b, by simp, hb⟩
  obtain ⟨s₁, free, hs₁, hpages₁, hrep₁⟩ := kfreeAll_rep hrep hnd hblock
  obtain ⟨s₂, free₂, hs₂, hpages₂, hrep₂⟩ := kfreeAll_rep hrep (hperm.nodup_iff.mp hnd)
    fun q hq => hblock q (hperm.mem_iff.mpr hq)
  -- which blocks are spared does not depend on the order
  have hspared : live₀.filter (Spared qs) = live₀.filter (Spared ps) :=
    List.filter_congr fun b _ => by simp [Spared, hperm.mem_iff]
  rw [hspared] at hrep₂
  obtain rfl := hrep₁.free_unique hrep₂ (hpages₁.trans hpages₂.symm)
  have hrest : List.Forall₂ Begins (live₀.filter (Spared ps)) (w.live.filter (·.1 ∉ ps)) := by
    refine List.rel_filter (fun b r hbr => ?_) hlive
    simp only [Begins, hdrSize] at hbr
    simp [Spared, hbr]
  refine ⟨s₁, s₂, free, _, hs₁, hs₂, hrep₁.freeList_eq, hrep₂.freeList_eq, hrep₁, hrep₂, hrest,
    fun hall => ?_⟩
  have hnil : live₀.filter (Spared ps) = [] := by
    have hfil : w.live.filter (·.1 ∉ ps) = [] := by
      rw [List.filter_eq_nil_iff]
      intro r hr
      simpa using hall r hr
    rw [hfil] at hrest
    exact List.forall₂_nil_right_iff.mp hrest
  rw [hnil] at hrep₁
  exact ⟨hnil, hrep₁.coalesced, fun b => hpages₁ ▸ hrep₁.mem_iff_pageRun⟩

/-- Two blocks of the first pages, freed in either order. -/
theorem kfree_order_two :
    ∃ w, anySize.Reachable w ∧ w.live = [(4272, 200), (4128, 100)] ∧
      ∃ s₁ s₂ free, kfreeAll w.heap [4128, 4272] = some s₁ ∧
        kfreeAll w.heap [4272, 4128] = some s₂ ∧
        freeList s₁ = some free ∧ freeList s₂ = some free := by
  obtain ⟨r, hr, hp⟩ := Option.map_eq_some_iff.mp
    (show ((initHeap (Bytes.const 0) firstPages).bind fun s => (kmalloc s [] 100).bind fun r =>
        (kmalloc r.2 [] 200).map fun q => (s, r, q)).map (fun t => (t.2.1.1, t.2.2.1))
      = some (4128, 4272) by decide +kernel)
  obtain ⟨s, hs, hr⟩ := Option.bind_eq_some_iff.mp hr
  obtain ⟨r₁, hr₁, hr⟩ := Option.bind_eq_some_iff.mp hr
  obtain ⟨r₂, hr₂, rfl⟩ := Option.map_eq_some_iff.mp hr
  obtain ⟨h₁, h₂⟩ := Prod.mk.injEq _ _ _ _ ▸ hp
  have hnil : ∀ w : World, Fresh w.heap [] := fun w => ⟨by simp, .nil⟩
  have hinit : anySize.Reachable ⟨s, []⟩ := .init ⟨rfl, _, _, firstPages_fresh _, hs⟩
  have hfirst := hinit.step (AnyStep.malloc (by norm_num) (hnil _) hr₁)
  have hsecond := hfirst.step (AnyStep.malloc (by norm_num) (hnil _) hr₂)
  simp only at h₁ h₂
  simp only [h₁, h₂] at hsecond
  obtain ⟨s₁, s₂, free, live, hs₁, hs₂, hf₁, hf₂, -⟩ :=
    kfree_order hsecond (by simp) (by decide)
      (show [4128, 4272].Perm [4272, 4128] from List.Perm.swap _ _ _)
  exact ⟨_, hsecond, rfl, s₁, s₂, free, hs₁, hs₂, hf₁, hf₂⟩

end Heap

end Csos

import Csos.Heap.Freelist
/-!
# Kernel heap — the representation invariant

`Rep s free live`: the chain in memory is `free`, coalesced; `live` are
the blocks handed out; together they tile the pages the heap has taken
over. Adding a page, taking a block and giving one back each keep it
(`heapAddPage_rep`, `takeBlock_rep`, `kfree_rep`), and each returns.
-/

namespace Csos

namespace Heap

open Block

variable {m m' : Bytes} {x need sz : ℕ} {b c : Block} {free live : List Block} {s s' : State}

/-- The pages of the heap, as blocks. -/
def pageBlocks (pages : List ℕ) : List Block := pages.map fun p => ⟨p, pageSize⟩

/-- **The representation invariant.** -/
structure Rep (s : State) (free live : List Block) : Prop where
  list : ListRep s.mem s.freeHead free
  coalesced : Coalesced free
  hdr_live : ∀ b ∈ live, Hdr s.mem b 1
  ok_live : ∀ b ∈ live, Ok b
  apart_live : live.Pairwise Apart
  disjoint : ∀ x, Covers free x → ¬ Covers live x
  tiles : ∀ x, Covers (pageBlocks s.pages) x ↔ Covers free x ∨ Covers live x
  pages_align : ∀ p ∈ s.pages, p % pageSize = 0

theorem Ok.pos (h : Ok b) : 0 < b.size := by have := h.min_size; omega

/-- A header lies in its block. -/
theorem offHdr_of_not_covers {l : List Block} (hl : ∀ b ∈ l, Ok b) (hx : ¬ Covers l x) :
    OffHdr l x := by
  intro b hb
  have hb48 := (hl b hb).min_size
  by_contra hc
  refine hx ⟨b, hb, ?_⟩
  simp only [Mem, fin]
  omega

/-- The bytes of a live block are not those of a free one. -/
theorem Rep.live_byte {i : ℕ} (h : Rep s free live) (hb : b ∈ live) (hi : i < b.size) :
    ¬ Covers free (b.addr + i) :=
  fun hc => h.disjoint _ hc ⟨b, hb, by simp only [Mem, fin]; omega⟩

/-- Headers of live blocks survive a change confined to the free ones. -/
theorem Rep.hdr_live_congr (h : Rep s free live) (hm : ∀ x, ¬ Covers free x → m' x = s.mem x) :
    ∀ b ∈ live, Hdr m' b 1 := by
  intro b hb
  have hb48 := (h.ok_live b hb).min_size
  exact (h.hdr_live b hb).congr fun i hi => hm _ (h.live_byte hb (by omega))

theorem covers_pageBlocks {pages : List ℕ} :
    Covers (pageBlocks pages) x ↔ ∃ p ∈ pages, p ≤ x ∧ x < p + pageSize := by
  simp [Covers, pageBlocks, Mem]

/-! ## Growing -/

/-- A page `alloc_page` may answer with: aligned, in the address space,
and not one the heap already has. -/
structure FreshPage (s : State) (p : ℕ) : Prop where
  align : p % pageSize = 0
  fin_le : p + pageSize ≤ addrTop
  notMem : p ∉ s.pages

/-- The block `heap_add_page` makes of a page. -/
def pageBlock (p : ℕ) : Block := ⟨p, pageSize⟩

theorem pageBlock_ok {p : ℕ} (hp : FreshPage s p) (h0 : p ≠ 0) : Ok (pageBlock p) := by
  have h1 := hp.align
  have h2 := hp.fin_le
  refine ⟨?_, by norm_num [pageBlock, pageSize], by norm_num [pageBlock, pageSize],
    by simp only [pageBlock, pageSize] at *; omega, h2⟩
  simp only [pageBlock, pageSize] at *
  omega

/-- A fresh page shares no address with the heap. -/
theorem Rep.page_disjoint {p : ℕ} (h : Rep s free live) (hp : FreshPage s p)
    (hx : (pageBlock p).Mem x) : ¬ Covers free x ∧ ¬ Covers live x := by
  rw [← not_or, ← h.tiles, covers_pageBlocks]
  rintro ⟨q, hq, h1, h2⟩
  have hqa := h.pages_align q hq
  have hpa := hp.align
  simp only [Mem, pageBlock, fin, pageSize] at *
  have hpq : p = q := by omega
  exact hp.notMem (hpq ▸ hq)

/-- **Adding a page keeps the invariant.** -/
theorem heapAddPage_rep {p : ℕ} (h : Rep s free live) (hp : FreshPage s p) (h0 : p ≠ 0) :
    ∃ s', heapAddPage s p = some (true, s') ∧ s'.pages = p :: s.pages ∧
      Rep s' ((pageBlock p).insert free) live ∧
      ∀ x, ¬ Covers free x → ¬ (pageBlock p).Mem x → s'.mem x = s.mem x := by
  have hok := pageBlock_ok hp h0
  have hap : ∀ c ∈ free, (pageBlock p).Apart c := fun c hc =>
    apart_of_disjoint hok.pos (h.list.ok c hc).pos fun x hx hcx =>
      (h.page_disjoint hp hx).1 ⟨c, hc, hcx⟩
  -- the header stores before the insertion
  let m₅ := setPad (setNextFree (setUsed (setMagic (setSize s.mem p pageSize) p heapMagic) p 0) p 0) p 0
  have hoff : ∀ x, x < p ∨ p + 32 ≤ x → m₅ x = s.mem x := by
    intro x hx
    simp only [m₅, setPad, setNextFree, setUsed, setMagic, setSize]
    rw [Bytes.store_apply_of_notMem (by omega), Bytes.store_apply_of_notMem (by omega),
      Bytes.store_apply_of_notMem (by omega), Bytes.store_apply_of_notMem (by omega),
      Bytes.store_apply_of_notMem (by omega)]
  have hhdr : Hdr m₅ (pageBlock p) 0 := by
    refine ⟨?_, ?_, ?_⟩
    · simp only [m₅, pageBlock, size, setPad, setNextFree, setUsed, setMagic, setSize]
      rw [Bytes.load_store_of_disjoint (by omega), Bytes.load_store_of_disjoint (by omega),
        Bytes.load_store_of_disjoint (by omega), Bytes.load_store_of_disjoint (by omega),
        Bytes.load_store_self_of_lt (by norm_num)]
    · simp only [m₅, pageBlock, magic, setPad, setNextFree, setUsed, setMagic]
      rw [Bytes.load_store_of_disjoint (by omega), Bytes.load_store_of_disjoint (by omega),
        Bytes.load_store_of_disjoint (by omega), Bytes.load_store_self_of_lt (by norm_num)]
    · simp only [m₅, pageBlock, used, setPad, setNextFree, setUsed]
      rw [Bytes.load_store_of_disjoint (by omega), Bytes.load_store_of_disjoint (by omega),
        Bytes.load_store_self_of_lt (by norm_num)]
  have hrep : ListRep m₅ s.freeHead free := by
    refine h.list.congr fun x hx => hoff x ?_
    by_contra hxp
    obtain ⟨i, hi, rfl⟩ : ∃ i, i < 32 ∧ x = (pageBlock p).addr + i :=
      ⟨x - p, by omega, by simp only [pageBlock]; omega⟩
    exact hx (OffHdr_of_apart hok.min_size
      (fun c hc => ⟨hap c hc, (h.list.ok c hc).min_size⟩) hi)
  obtain ⟨s', hs', hpages, hlist, hcoal, hframe⟩ :=
    freelistInsert_spec (s := ⟨m₅, s.freeHead, p :: s.pages⟩) hrep h.coalesced hhdr hok hap
  have hmem : ∀ x, ¬ Covers free x → ¬ (pageBlock p).Mem x → s'.mem x = s.mem x := by
    intro x hxf hxp
    have hx : OffHdr (pageBlock p :: free) x :=
      offHdr_of_not_covers (List.forall_mem_cons.mpr ⟨hok, h.list.ok⟩) (by simp [hxf, hxp])
    refine (hframe x hx).trans (hoff x ?_)
    exact hx (pageBlock p) (by simp)
  refine ⟨s', ?_, hpages, ⟨hlist, hcoal, ?_, h.ok_live, h.apart_live, ?_, ?_, ?_⟩, hmem⟩
  · change freelistInsert ⟨m₅, s.freeHead, p :: s.pages⟩ p = some s' at hs'
    simp only [heapAddPage, if_neg h0]
    simp only [m₅] at hs'
    rw [hs']
  · intro b hb
    have hb48 := (h.ok_live b hb).min_size
    refine (h.hdr_live b hb).congr fun i hi => hmem _ (h.live_byte hb (by omega)) fun hx => ?_
    exact (h.page_disjoint hp hx).2 ⟨b, hb, by simp only [Mem, fin]; omega⟩
  · intro x hx
    rcases covers_insert.mp hx with hx | hx
    · exact (h.page_disjoint hp hx).2
    · exact h.disjoint x hx
  · intro x
    rw [hpages, covers_insert, or_assoc, ← h.tiles x]
    exact covers_cons
  · rw [hpages]
    exact List.forall_mem_cons.mpr ⟨hp.align, h.pages_align⟩

/-- A supply `alloc_page` may answer from. -/
structure Fresh (s : State) (supply : List ℕ) : Prop where
  fresh : ∀ p ∈ supply, FreshPage s p
  nodup : supply.Nodup

theorem Fresh.tail {p : ℕ} {supply : List ℕ} (h : Fresh s (p :: supply))
    (hs : s'.pages = p :: s.pages) : Fresh s' supply := by
  obtain ⟨hp, hnd⟩ := List.nodup_cons.mp h.nodup
  refine ⟨fun q hq => ?_, hnd⟩
  have hq' := h.fresh q (by simp [hq])
  refine ⟨hq'.align, hq'.fin_le, fun hmem => ?_⟩
  rcases List.mem_cons.mp (hs ▸ hmem) with rfl | hmem
  · exact hp hq
  · exact hq'.notMem hmem

/-- **The growth loop keeps the invariant**, and runs to its end when the
supply is long enough or fails. Induction on the number of pages still to
add. -/
theorem addPages_rep {n : ℕ} {supply : List ℕ} (h : Rep s free live) (hf : Fresh s supply) :
    (∀ ok s', addPages n supply s = some (ok, s') →
      ∃ free', Rep s' free' live ∧ (∀ x, Covers free x → Covers free' x) ∧
        ∀ x, Covers live x → s'.mem x = s.mem x) ∧
      (n ≤ supply.length ∨ 0 ∈ supply → (addPages n supply s).isSome) := by
  induction n generalizing s free supply with
  | zero =>
    refine ⟨fun ok s' hs => ?_, fun _ => rfl⟩
    simp only [addPages, Option.some.injEq, Prod.mk.injEq] at hs
    obtain ⟨-, rfl⟩ := hs
    exact ⟨free, h, fun _ hx => hx, fun _ _ => rfl⟩
  | succ n ih =>
    cases supply with
    | nil => exact ⟨fun ok s' hs => absurd hs (by simp [addPages]), fun hn => by simp at hn⟩
    | cons p supply =>
      by_cases h0 : p = 0
      · have hadd : heapAddPage s p = some (false, s) := if_pos h0
        refine ⟨fun ok s' hs => ?_, fun _ => by simp [addPages, hadd]⟩
        simp only [addPages, hadd, Option.some.injEq, Prod.mk.injEq] at hs
        obtain ⟨-, rfl⟩ := hs
        exact ⟨free, h, fun _ hx => hx, fun _ _ => rfl⟩
      · obtain ⟨s₁, hadd, hpages, hrep, hmem⟩ := heapAddPage_rep h (hf.fresh p (by simp)) h0
        obtain ⟨ih1, ih2⟩ := ih hrep (hf.tail hpages)
        simp only [addPages, hadd]
        have hne : 0 ≠ p := fun hc => h0 hc.symm
        refine ⟨fun ok s' hs => ?_, fun hn => ih2 (by simpa [hne] using hn)⟩
        obtain ⟨free', hrep', hcov, hlive⟩ := ih1 ok s' hs
        refine ⟨free', hrep', fun x hx => hcov x (covers_insert.mpr (.inr hx)), fun x hx => ?_⟩
        rw [hlive x hx]
        exact hmem x (fun hc => h.disjoint x hc hx) fun hp =>
          (h.page_disjoint (hf.fresh p (by simp)) hp).2 hx

/-! ## Splitting and taking a block -/

/-- The stores of `block_split`: the block shortened to `need`, and the
header of what is left. -/
theorem split_stores {rest : ℕ} (hb : Hdr m b 0) (hok : Ok b) (hrest : rest = b.addr + need)
    (hmin : 48 ≤ need) (hfit : need + 48 ≤ b.size) :
    let m' := setPad (setNextFree (setUsed (setMagic (setSize (setSize m b.addr need) rest
      (b.size - need)) rest heapMagic) rest 0) rest 0) rest 0
    Hdr m' ⟨b.addr, need⟩ 0 ∧ Hdr m' ⟨rest, b.size - need⟩ 0 ∧
      ∀ x, ¬ b.Mem x → m' x = m x := by
  have h1 := hok.fin_le
  have h2 := hok.addr_pos
  simp only [fin, addrTop] at h1
  intro m'
  refine ⟨⟨?_, ?_, ?_⟩, ⟨?_, ?_, ?_⟩, fun x hx => ?_⟩
  · simp only [m', size, setPad, setNextFree, setUsed, setMagic, setSize]
    rw [Bytes.load_store_of_disjoint (by omega), Bytes.load_store_of_disjoint (by omega),
      Bytes.load_store_of_disjoint (by omega), Bytes.load_store_of_disjoint (by omega),
      Bytes.load_store_of_disjoint (by omega), Bytes.load_store_self_of_lt (by omega)]
  · have := hb.magic
    simp only [m', magic, setPad, setNextFree, setUsed, setMagic, setSize] at this ⊢
    rw [Bytes.load_store_of_disjoint (by omega), Bytes.load_store_of_disjoint (by omega),
      Bytes.load_store_of_disjoint (by omega), Bytes.load_store_of_disjoint (by omega),
      Bytes.load_store_of_disjoint (by omega), Bytes.load_store_of_disjoint (by omega), this]
  · have := hb.used
    simp only [m', used, setPad, setNextFree, setUsed, setMagic, setSize] at this ⊢
    rw [Bytes.load_store_of_disjoint (by omega), Bytes.load_store_of_disjoint (by omega),
      Bytes.load_store_of_disjoint (by omega), Bytes.load_store_of_disjoint (by omega),
      Bytes.load_store_of_disjoint (by omega), Bytes.load_store_of_disjoint (by omega), this]
  · simp only [m', size, setPad, setNextFree, setUsed, setMagic, setSize]
    rw [Bytes.load_store_of_disjoint (by omega), Bytes.load_store_of_disjoint (by omega),
      Bytes.load_store_of_disjoint (by omega), Bytes.load_store_of_disjoint (by omega),
      Bytes.load_store_self_of_lt (by omega)]
  · simp only [m', magic, setPad, setNextFree, setUsed, setMagic]
    rw [Bytes.load_store_of_disjoint (by omega), Bytes.load_store_of_disjoint (by omega),
      Bytes.load_store_of_disjoint (by omega), Bytes.load_store_self_of_lt (by norm_num)]
  · simp only [m', used, setPad, setNextFree, setUsed]
    rw [Bytes.load_store_of_disjoint (by omega), Bytes.load_store_of_disjoint (by omega),
      Bytes.load_store_self_of_lt (by norm_num)]
  · simp only [Mem, fin] at hx
    simp only [m', setPad, setNextFree, setUsed, setMagic, setSize]
    rw [Bytes.store_apply_of_notMem (by omega), Bytes.store_apply_of_notMem (by omega),
      Bytes.store_apply_of_notMem (by omega), Bytes.store_apply_of_notMem (by omega),
      Bytes.store_apply_of_notMem (by omega), Bytes.store_apply_of_notMem (by omega)]

/-- **`block_split`** leaves of the block a part of at least `need`, and
gives the rest to the chain. -/
theorem blockSplit_spec {l : List Block} (h : ListRep s.mem s.freeHead l) (hl : Coalesced l)
    (hb : Hdr s.mem b 0) (hok : Ok b) (hap : ∀ c ∈ l, b.Apart c) (hfit : need ≤ b.size)
    (hal : need % 16 = 0) (hmin : 48 ≤ need) :
    ∃ s' b' l', blockSplit s b.addr need = some s' ∧ b'.addr = b.addr ∧ need ≤ b'.size ∧ Ok b' ∧
      Hdr s'.mem b' 0 ∧ ListRep s'.mem s'.freeHead l' ∧ Coalesced l' ∧ s'.pages = s.pages ∧
      (∀ x, Covers l' x ↔ Covers l x ∨ (b.Mem x ∧ ¬ b'.Mem x)) ∧ b'.fin ≤ b.fin ∧
      ∀ x, ¬ Covers l x → ¬ b.Mem x → s'.mem x = s.mem x := by
  have h1 := hok.fin_le
  have h2 := hok.addr_ge
  have h3 := hok.size_align
  have h4 := hok.addr_align
  simp only [fin, addrTop, pageSize] at h1 h2
  have hmod : (need + heapMinTotal) % addrTop = need + 48 :=
    Nat.mod_eq_of_lt (by simp only [addrTop, heapMinTotal, hdrSize, heapAlign]; omega)
  by_cases hsplit : b.size < need + 48
  · refine ⟨s, b, l, ?_, rfl, hfit, hok, hb, h, hl, rfl, fun x => ?_, le_rfl, fun _ _ _ => rfl⟩
    · rw [blockSplit, hb.size, hmod, if_pos hsplit]
    · exact ⟨.inl, fun hx => hx.elim id fun hx => absurd hx.1 hx.2⟩
  · have hrestmod : (b.addr + need) % addrTop = b.addr + need :=
      Nat.mod_eq_of_lt (by simp only [addrTop]; omega)
    obtain ⟨hb', hr', hoff⟩ := split_stores hb hok
      (show b.addr + need = b.addr + need from rfl) hmin (by omega)
    have hbok : Ok ⟨b.addr, need⟩ := ⟨h4, hal, hmin, h2, by simp only [fin, addrTop]; omega⟩
    have hrok : Ok ⟨b.addr + need, b.size - need⟩ :=
      ⟨by simp only; omega, by simp only; omega, by simp only; omega,
        by simp only [pageSize]; omega, by simp only [fin, addrTop]; omega⟩
    have hrap : ∀ c ∈ l, Block.Apart ⟨b.addr + need, b.size - need⟩ c := by
      intro c hc
      have := hap c hc
      simp only [Apart, fin] at this ⊢
      omega
    have hcov : ∀ x, Covers l x → ¬ b.Mem x := by
      rintro x ⟨c, hc, hx⟩ hbx
      exact (hap c hc).disjoint hbx hx
    let m₆ := setPad (setNextFree (setUsed (setMagic (setSize (setSize s.mem b.addr need)
      (b.addr + need) (b.size - need)) (b.addr + need) heapMagic) (b.addr + need) 0)
      (b.addr + need) 0) (b.addr + need) 0
    have hrep : ListRep m₆ s.freeHead l := h.congr fun x hx => hoff x fun hbx =>
      hx (offHdr_of_not_covers h.ok fun hc => hcov x hc hbx)
    obtain ⟨s', hs', hpages, hlist, hcoal, hframe⟩ :=
      freelistInsert_spec (s := ⟨m₆, s.freeHead, s.pages⟩) hrep hl hr' hrok hrap
    have hs'' : blockSplit s b.addr need = some s' := by
      rw [blockSplit, hb.size, hmod, if_neg hsplit]
      simp only [hrestmod]
      exact hs'
    refine ⟨s', ⟨b.addr, need⟩, _, hs'', rfl, le_rfl, hbok, ?_, hlist, hcoal, hpages,
      fun x => ?_, by simp only [fin]; omega, fun x hxl hxb => ?_⟩
    · -- the insertion writes headers of the chain and of the rest
      refine hb'.congr fun i hi => hframe _ (List.forall_mem_cons.mpr ⟨?_, ?_⟩)
      · simp only; omega
      · refine offHdr_of_not_covers h.ok fun hc => hcov _ hc ?_
        simp only [Mem, fin]
        omega
    · rw [covers_insert, or_comm]
      simp only [Mem, fin]
      refine or_congr Iff.rfl ?_
      omega
    · refine (hframe x (List.forall_mem_cons.mpr ⟨?_, offHdr_of_not_covers h.ok hxl⟩)).trans
        (hoff x hxb)
      simp only [Mem, fin] at hxb ⊢
      omega

/-- **Taking a block keeps the invariant**: the block joins the live ones,
its payload is 32 bytes in, and only bytes of free blocks were written. -/
theorem takeBlock_rep (h : Rep s free live) (hb : b ∈ free) (hfit : need ≤ b.size)
    (hal : need % 16 = 0) (hmin : 48 ≤ need) :
    ∃ s' b' free', takeBlock s b.addr need = some (b.addr + 32, s') ∧ b'.addr = b.addr ∧
      need ≤ b'.size ∧ Rep s' free' (b' :: live) ∧ s'.pages = s.pages ∧
      ∀ x, ¬ Covers free x → s'.mem x = s.mem x := by
  obtain ⟨l₁, l₂, rfl⟩ := List.append_of_mem hb
  have hbok := h.list.ok b (by simp)
  obtain ⟨s₁, hs₁, hpages₁, hlist₁, hhdr₁, hframe₁⟩ := freelistRemove_spec h.list
  have hcoal₁ : Coalesced (l₁ ++ l₂) := h.coalesced.sublist (by simp)
  have hap : ∀ c ∈ l₁ ++ l₂, b.Apart c := by
    intro c hc
    obtain ⟨-, hs₂, hs₁₂⟩ := List.pairwise_append.mp h.list.sorted
    rcases List.mem_append.mp hc with hc | hc
    · exact .inr (hs₁₂ c hc b (by simp))
    · exact .inl ((List.pairwise_cons.mp hs₂).1 c hc)
  obtain ⟨s₂, b', l', hs₂, haddr, hsize, hok', hhdr₂, hlist₂, hcoal₂, hpages₂, hcov, hfin, hframe₂⟩ :=
    blockSplit_spec hlist₁ hcoal₁ hhdr₁ hbok hap hfit hal hmin
  have hcovb : ∀ x, Covers (l₁ ++ b :: l₂) x ↔ b.Mem x ∨ Covers (l₁ ++ l₂) x := fun x =>
    covers_middle
  have hb'b : ∀ x, b'.Mem x → b.Mem x := by
    intro x hx
    simp only [Mem, fin] at *
    omega
  have hcov' : ∀ x, Covers (l₁ ++ b :: l₂) x ↔ Covers l' x ∨ b'.Mem x := by
    intro x
    rw [hcovb, hcov]
    have := hb'b x
    tauto
  -- what the chain holds now, the block taken does not
  have hdisj' : ∀ x, Covers l' x → ¬ b'.Mem x := by
    intro x hx hx'
    rcases (hcov x).mp hx with ⟨c, hc, hcx⟩ | hx
    · exact (hap c hc).disjoint (hb'b x hx') hcx
    · exact hx.2 hx'
  have hblive : ∀ c ∈ live, b'.Apart c := fun c hc =>
    apart_of_disjoint hok'.pos (h.ok_live c hc).pos fun x hx hcx =>
      h.disjoint x ((hcovb x).mpr (.inl (hb'b x hx))) ⟨c, hc, hcx⟩
  let m := setNextFree (setUsed s₂.mem b.addr 1) b.addr 0
  have hmoff : ∀ x, x < b.addr ∨ b.addr + 32 ≤ x → m x = s₂.mem x := fun x hx =>
    (setNextFree_off hx).trans (Bytes.store_apply_of_notMem (by omega))
  have hframe : ∀ x, ¬ Covers (l₁ ++ b :: l₂) x → m x = s.mem x := by
    intro x hx
    have hb48 := hbok.min_size
    have hxb : ¬ b.Mem x := fun hc => hx ((hcovb x).mpr (.inl hc))
    have hxl : ¬ Covers (l₁ ++ l₂) x := fun hc => hx ((hcovb x).mpr (.inr hc))
    rw [hmoff x (by simp only [Mem, fin] at hxb; omega), hframe₂ x hxl hxb]
    exact hframe₁ x (offHdr_of_not_covers h.list.ok hx)
  refine ⟨{ s₂ with mem := m }, b', l', ?_, haddr, hsize,
    ⟨?_, hcoal₂, ?_, ?_, ?_, ?_, ?_, ?_⟩, hpages₂.trans hpages₁, hframe⟩
  · have hpay : blockPayload b.addr = b.addr + 32 := by
      have h1 := hbok.fin_le
      have h2 := hbok.min_size
      simp only [fin, addrTop] at h1
      exact Nat.mod_eq_of_lt (by simp only [addrTop, hdrSize]; omega)
    simp only [takeBlock, hs₁, hs₂, hpay, m]
  · refine hlist₂.congr fun x hx => hmoff x ?_
    by_contra hc
    refine hx (offHdr_of_not_covers hlist₂.ok fun hcx => hdisj' x hcx ?_)
    have := hok'.min_size
    simp only [Mem, fin]
    omega
  · refine List.forall_mem_cons.mpr ⟨?_, h.hdr_live_congr hframe⟩
    simp only [m, ← haddr]
    refine Hdr.store_next ⟨?_, ?_, ?_⟩
    · exact (Bytes.load_store_of_disjoint (by omega)).trans hhdr₂.size
    · exact (Bytes.load_store_of_disjoint (by omega)).trans hhdr₂.magic
    · exact Bytes.load_store_self_of_lt (by norm_num)
  · exact List.forall_mem_cons.mpr ⟨hok', h.ok_live⟩
  · exact List.pairwise_cons.mpr ⟨hblive, h.apart_live⟩
  · intro x hx hlx
    rcases covers_cons.mp hlx with hlx | hlx
    · exact hdisj' x hx hlx
    · exact h.disjoint x ((hcov' x).mpr (.inl hx)) hlx
  · intro x
    have htile := h.tiles x
    rw [← hpages₁, ← hpages₂] at htile
    rw [htile, hcov', covers_cons, or_assoc]
  · rw [hpages₂, hpages₁]
    exact h.pages_align

/-! ## Giving a block back -/

/-- **Freeing keeps the invariant**: the block leaves the live ones for
the chain. -/
theorem kfree_rep {L₁ L₂ : List Block} (h : Rep s free (L₁ ++ b :: L₂)) :
    ∃ s', kfree s (b.addr + 32) = some s' ∧ Rep s' (b.insert free) (L₁ ++ L₂) ∧
      s'.pages = s.pages ∧ ∀ x, Covers (L₁ ++ L₂) x → s'.mem x = s.mem x := by
  have hbok := h.ok_live b (by simp)
  have hhdr := h.hdr_live b (by simp)
  have h1 := hbok.fin_le
  have h2 := hbok.min_size
  have h3 := hbok.addr_pos
  simp only [fin, addrTop] at h1
  have hap : ∀ c ∈ free, b.Apart c := fun c hc =>
    apart_of_disjoint hbok.pos (h.list.ok c hc).pos fun x hx hcx =>
      h.disjoint x ⟨c, hc, hcx⟩ ⟨b, by simp, hx⟩
  obtain ⟨s', hs', hpages, hlist, hcoal, hframe⟩ :=
    freelistInsert_spec h.list h.coalesced hhdr hbok hap
  have hptr : payloadToBlock (b.addr + 32) = b.addr := by
    rw [payloadToBlock, show b.addr + 32 + addrTop - hdrSize = b.addr + addrTop by
      simp only [hdrSize]; omega, Nat.add_mod_right,
      Nat.mod_eq_of_lt (by simp only [addrTop]; omega)]
  have hvalid : blockValid s.mem b.addr = true := by
    simp only [blockValid, hhdr.magic, hhdr.size, decide_eq_true_eq]
    exact ⟨by omega, trivial, by simp only [heapMinTotal, hdrSize, heapAlign]; omega⟩
  have hlive : ∀ x, Covers (L₁ ++ L₂) x → ¬ Covers free x ∧ ¬ b.Mem x := by
    intro x hx
    have hx' : Covers (L₁ ++ b :: L₂) x := covers_middle.mpr (.inr hx)
    refine ⟨fun hc => h.disjoint x hc hx', fun hbx => ?_⟩
    obtain ⟨c, hc, hcx⟩ := hx
    obtain ⟨-, ha₂, ha₁₂⟩ := List.pairwise_append.mp h.apart_live
    rcases List.mem_append.mp hc with hc | hc
    · exact (ha₁₂ c hc b (by simp)).disjoint hcx hbx
    · exact ((List.pairwise_cons.mp ha₂).1 c hc).disjoint hbx hcx
  have hmem : ∀ x, Covers (L₁ ++ L₂) x → s'.mem x = s.mem x := by
    intro x hx
    obtain ⟨hxf, hxb⟩ := hlive x hx
    refine hframe x (offHdr_of_not_covers (List.forall_mem_cons.mpr ⟨hbok, h.list.ok⟩) ?_)
    simp [hxf, hxb]
  have hsub : ∀ c ∈ L₁ ++ L₂, c ∈ L₁ ++ b :: L₂ := fun c hc => by
    rcases List.mem_append.mp hc with hc | hc <;> simp [hc]
  refine ⟨s', ?_, ⟨hlist, hcoal, ?_, fun c hc => h.ok_live c (hsub c hc), ?_, ?_, ?_, ?_⟩,
    hpages, hmem⟩
  · rw [kfree, if_neg (by omega)]
    simp only [hptr, hvalid, hhdr.used]
    simpa using hs'
  · intro c hc
    have hc48 := (h.ok_live c (hsub c hc)).min_size
    refine (h.hdr_live c (hsub c hc)).congr fun i hi => hmem _ ⟨c, hc, ?_⟩
    simp only [Mem, fin]
    omega
  · exact h.apart_live.sublist (by simp)
  · intro x hx hlx
    obtain ⟨hxf, hxb⟩ := hlive x hlx
    rcases covers_insert.mp hx with hx | hx
    · exact hxb hx
    · exact hxf hx
  · intro x
    rw [hpages, h.tiles x, covers_insert, covers_middle, or_left_comm, or_assoc]
  · rw [hpages]
    exact h.pages_align

end Heap

end Csos

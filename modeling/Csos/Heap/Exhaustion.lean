import Csos.Heap.Sizes
import Csos.Pmm.Allocator
/-!
# Kernel heap — when physical memory runs out

`heap_add_page` takes the answer of `alloc_page` for a failure when it is
`NULL`; `alloc_page` fails with `PMM_INVALID_ADDR`, and `pmm.h` says that
`0` may be a success. So a failed call is taken for a page at `2 ^ 64 - 1`,
whose header is written and put on the free list. Here the heap and the
bitmap allocator run together. `heap_survives_iff` says that a call does
what it must exactly when no `alloc_page` of it fails.
-/

namespace Csos

namespace Heap

open Block Pmm

variable {sz n p x : ℕ} {b : Block} {free live : List Block} {s s' : State} {a a' : Pmm.State}

/-! ## Growing from the allocator -/

/-- The loop of `heap_expand` and of `init_heap`, each page from
`alloc_page`. -/
def addPagesFrom : ℕ → State → Pmm.State → Option (Bool × State × Pmm.State)
  | 0, s, a => some (true, s, a)
  | n + 1, s, a =>
    let (page, a₁) := a.allocPage
    match heapAddPage s page with
    | none => none
    | some (false, s₁) => some (false, s₁, a₁)
    | some (true, s₁) => addPagesFrom n s₁ a₁

/-- `init_heap`, on memory as the boot code left it. -/
def initHeapFrom (m : Bytes) (a : Pmm.State) : Option (State × Pmm.State) :=
  match addPagesFrom heapInitPages { mem := m, freeHead := 0, pages := [] } a with
  | none => none
  | some (_, s, a₁) => some (s, a₁)

/-- `kmalloc`, growing from the allocator. -/
def kmallocFrom (s : State) (a : Pmm.State) (sz : ℕ) : Option (ℕ × State × Pmm.State) :=
  if sz = 0 then some (0, s, a)
  else
    match freelistFindFit s (needTotal sz) with
    | none => none
    | some block =>
      if block ≠ 0 then (takeBlock s block (needTotal sz)).map fun r => (r.1, r.2, a)
      else
        match addPagesFrom (expandPages (needTotal sz)) s a with
        | none => none
        | some (false, s₁, a₁) => some (0, s₁, a₁)
        | some (true, s₁, a₁) =>
          match freelistFindFit s₁ (needTotal sz) with
          | none => none
          | some block =>
            if block = 0 then some (0, s₁, a₁)
            else (takeBlock s₁ block (needTotal sz)).map fun r => (r.1, r.2, a₁)

/-- The growth runs into a failing `alloc_page`: page 0 is not free, whose
address is taken for a failure and ends the loop, and fewer pages are free
than are asked for. -/
def RunsOut (a : Pmm.State) (n : ℕ) : Prop := a.bitmap.test 0 = true ∧ a.freePages < n

/-- The address is outside these pages. -/
def Outside (pages : List ℕ) (x : ℕ) : Prop := ∀ p ∈ pages, ¬ (p ≤ x ∧ x < p + pageSize)

/-- The pages really obtained. -/
def State.obtained (s : State) : List ℕ := s.pages.filter (· ≠ invalidAddr)

/-! ## A growth that does not run out -/

/-- What the heap holds, the allocator has given out. -/
structure Owned (s : State) (a : Pmm.State) : Prop where
  inv : Inv a
  used : ∀ p ∈ s.pages, p / pageSize ∉ a.freeSet
  low : ∀ p ∈ s.pages, p < maxPhys

/-- The page `alloc_page` answers with is one the heap may add. -/
theorem Owned.freshPage (h : Owned s a) {page : ℕ} (hp : page ∈ a.freeSet) :
    FreshPage s (page * pageSize) ∧ page * pageSize < maxPhys := by
  have hlt : page < 131072 := (mem_freeSet.mp hp).1.trans_le h.inv.managed
  refine ⟨⟨Nat.mul_mod_left _ _, ?_, fun hmem => ?_⟩, ?_⟩
  · simp only [pageSize, addrTop]
    omega
  · have hu := h.used _ hmem
    rw [Nat.mul_div_cancel _ (by norm_num)] at hu
    exact hu hp
  · simp only [pageSize, maxPhys]
    omega

/-- The heap goes on owning its pages when the one just given is added. -/
theorem Owned.add (h : Owned s a) {page : ℕ} (hp : page ∈ a.freeSet)
    (hl : Leaves a a' (a.freeSet.erase page)) (hs : s'.pages = page * pageSize :: s.pages) :
    Owned s' a' := by
  refine ⟨hl.inv, ?_, ?_⟩
  · rw [hs, hl.freeSet]
    refine List.forall_mem_cons.mpr ⟨?_, fun q hq hm => h.used q hq (Finset.mem_of_mem_erase hm)⟩
    rw [Nat.mul_div_cancel _ (by norm_num)]
    exact Finset.notMem_erase _ _
  · rw [hs]
    exact List.forall_mem_cons.mpr ⟨(h.freshPage hp).2, h.low⟩

/-- A free page 0 is the first to be given. -/
theorem page_zero_free (h : Inv a) : a.bitmap.test 0 = false ↔ 0 ∈ a.freeSet := by
  rw [mem_freeSet]
  refine ⟨fun ht => ⟨?_, ht⟩, fun hf => hf.2⟩
  by_contra hle
  rw [Bitmap.test_of_size_le (by rw [h.size]; omega)] at ht
  exact absurd ht (by simp)

/-- What a growth or a call leaves: the representation, and every byte
outside its pages as it was. -/
structure Kept (s : State) (live : List Block) (s' : State) (a' : Pmm.State) : Prop where
  rep : ∃ free', Rep s' free' live
  owned : Owned s' a'
  frame : ∀ x, Outside s'.pages x → s'.mem x = s.mem x
  pages : ∀ p ∈ s.pages, p ∈ s'.pages

/-- **A growth that does not run out keeps the representation** and writes
only to its pages. Induction on the pages still to add. -/
theorem addPagesFrom_kept (h : Rep s free live) (ho : Owned s a) (hr : ¬ RunsOut a n) :
    ∃ ok s' a', addPagesFrom n s a = some (ok, s', a') ∧ Kept s live s' a' := by
  induction n generalizing s free a with
  | zero => exact ⟨true, s, a, rfl, ⟨free, h⟩, ho, fun _ _ => rfl, fun _ hp => hp⟩
  | succ n ih =>
    rcases ho.inv.allocPage with ⟨hempty, -⟩ | ⟨page, a₁, ha, hmem, hmin, hl, hcount, hbm⟩
    · -- nothing is free: the growth runs out
      refine absurd ⟨?_, ?_⟩ hr
      · by_contra ht
        rw [Bool.not_eq_true, page_zero_free ho.inv, hempty] at ht
        exact absurd ht (by simp)
      · rw [ho.inv.count, hempty]
        exact Nat.succ_pos n
    · rcases Nat.eq_zero_or_pos page with rfl | hpos
      · refine ⟨false, s, a₁, ?_, ⟨free, h⟩, ?_, fun _ _ => rfl, fun _ hp => hp⟩
        · simp [addPagesFrom, ha, heapAddPage]
        · refine ⟨hl.inv, fun p hp hm => ?_, ho.low⟩
          rw [hl.freeSet] at hm
          exact ho.used p hp (Finset.mem_of_mem_erase hm)
      · obtain ⟨hfresh, -⟩ := ho.freshPage hmem
        obtain ⟨s₁, hadd, hpages, hrep₁, hframe⟩ :=
          heapAddPage_rep h hfresh (Nat.mul_ne_zero hpos.ne' (by norm_num))
        have hr₁ : ¬ RunsOut a₁ n := by
          rintro ⟨h1, h2⟩
          refine hr ⟨?_, by omega⟩
          by_contra ht
          rw [Bool.not_eq_true, page_zero_free ho.inv] at ht
          exact hmin 0 hpos ht
        obtain ⟨ok, s', a', hs', hk⟩ := ih hrep₁ (ho.add hmem hl hpages) hr₁
        refine ⟨ok, s', a', by simp only [addPagesFrom, ha, hadd, hs'], hk.rep, hk.owned,
          fun x hx => ?_, fun p hp => hk.pages p (by rw [hpages]; simp [hp])⟩
        have hout : ∀ p ∈ s₁.pages, ¬ (p ≤ x ∧ x < p + pageSize) := fun p hp => hx p (hk.pages p hp)
        rw [hpages] at hout
        obtain ⟨hnew, hold⟩ := List.forall_mem_cons.mp hout
        rw [hk.frame x hx]
        refine hframe x (fun hc => ?_) hnew
        obtain ⟨q, hq, hqx⟩ := covers_pageBlocks.mp ((h.tiles x).mpr (.inl hc))
        exact hold q hq hqx

/-! ## A failing `alloc_page` -/

/-- The header of a block lies before `2 ^ 64 - 1`. -/
theorem Ok.hdr_lt (h : Ok b) : b.addr + 32 ≤ invalidAddr := by
  have h1 := h.fin_le
  have h2 := h.min_size
  simp only [fin, addrTop, invalidAddr] at *
  omega

/-- The last block of the chain does not end at `2 ^ 64 - 1`. -/
theorem mergePrev_invalid {m : Bytes} (hok : ∀ b ∈ free, Ok b)
    (hsize : ∀ b ∈ free, b.addr = lastAddr 0 free → size m b.addr = b.size) :
    mergePrev m (lastAddr 0 free) invalidAddr = m := by
  refine if_neg ?_
  rintro ⟨h0, heq⟩
  rcases List.eq_nil_or_concat' free with rfl | ⟨l, d, rfl⟩
  · exact h0 rfl
  · have hd := hok d (by simp)
    have h1 := hd.addr_align
    have h2 := hd.size_align
    have hs := hsize d (by simp) (lastAddr_append_singleton 0).symm
    rw [lastAddr_append_singleton, hs] at heq
    simp only [addrTop, invalidAddr] at heq
    omega

/-- Storing the link of the last block leaves the bytes from `2 ^ 64 - 1`
on. -/
theorem setNextFree_last {m : Bytes} {v : ℕ} (hok : ∀ b ∈ free, Ok b) (h0 : lastAddr 0 free ≠ 0)
    (hx : invalidAddr ≤ x) : setNextFree m (lastAddr 0 free) v x = m x := by
  refine setNextFree_off (.inr ?_)
  rcases List.eq_nil_or_concat' free with rfl | ⟨l, d, rfl⟩
  · exact absurd rfl h0
  · have hd := (hok d (by simp)).hdr_lt
    rw [lastAddr_append_singleton]
    omega

/-- **What a failed `alloc_page` does**: the answer is taken for a page, and
a 0 is stored at `2 ^ 64 - 1`. -/
theorem heapAddPage_invalid (h : Rep s free live) :
    ∃ s', heapAddPage s invalidAddr = some (true, s') ∧ s'.mem invalidAddr = 0 ∧
      s'.pages = invalidAddr :: s.pages := by
  -- the stores to the header, which leave every block's header alone
  let m₁ := setPad (setNextFree (setUsed (setMagic (setSize s.mem invalidAddr pageSize) invalidAddr
    heapMagic) invalidAddr 0) invalidAddr 0) invalidAddr 0
  let m₂ := setNextFree (setUsed m₁ invalidAddr 0) invalidAddr 0
  have hbyte : m₂ invalidAddr = 0 := by
    have hsize : setSize s.mem invalidAddr pageSize invalidAddr = 0 := by
      simp only [setSize, Bytes.store]
      rw [if_pos (by omega), Nat.sub_self]
      rfl
    simp only [m₂, m₁, setPad, setNextFree, setUsed, setMagic]
    rw [Bytes.store_apply_of_notMem (by omega), Bytes.store_apply_of_notMem (by omega),
      Bytes.store_apply_of_notMem (by omega), Bytes.store_apply_of_notMem (by omega),
      Bytes.store_apply_of_notMem (by omega), Bytes.store_apply_of_notMem (by omega), hsize]
  have hlow : ∀ y, y < invalidAddr → m₂ y = s.mem y := by
    intro y hy
    simp only [m₂, m₁, setPad, setNextFree, setUsed, setMagic, setSize]
    rw [Bytes.store_apply_of_notMem (by omega), Bytes.store_apply_of_notMem (by omega),
      Bytes.store_apply_of_notMem (by omega), Bytes.store_apply_of_notMem (by omega),
      Bytes.store_apply_of_notMem (by omega), Bytes.store_apply_of_notMem (by omega),
      Bytes.store_apply_of_notMem (by omega)]
  have hrep : ListRep m₂ s.freeHead free := h.list.congr fun y hy => hlow y (by
    by_contra hge
    refine hy fun b hb => .inr ?_
    have := (h.list.ok b hb).hdr_lt
    omega)
  have hscan : insertScan m₂ invalidAddr listFuel 0 s.freeHead = some (lastAddr 0 free, 0) := by
    have hl : Linked (nextPtr m₂) (ptr s.freeHead) ((free ++ []).map addr) := by
      rw [List.append_nil]
      exact hrep.linked
    have hlt : ∀ c ∈ free, c.addr < invalidAddr := fun c hc => by
      have := (hrep.ok c hc).hdr_lt
      omega
    exact insertScan_spec hl (by simpa using hrep.ok) hlt (by simp) hrep.length_lt
  let m₃ := if lastAddr 0 free = 0 then m₂ else setNextFree m₂ (lastAddr 0 free) invalidAddr
  let m₄ := setNextFree m₃ invalidAddr 0
  have hmerge : mergePrev m₄ (lastAddr 0 free) invalidAddr = m₄ := by
    refine mergePrev_invalid h.list.ok fun b hb hlast => ?_
    have hb' := (h.list.ok b hb).hdr_lt
    have h₄ : size m₄ b.addr = size m₃ b.addr := by
      simp only [m₄, setNextFree, size]
      exact Bytes.load_store_of_disjoint (by omega)
    have h₃ : size m₃ b.addr = size m₂ b.addr := by
      by_cases h0 : lastAddr 0 free = 0
      · simp only [m₃, if_pos h0]
      · simp only [m₃, if_neg h0, setNextFree, size, hlast]
        exact Bytes.load_store_of_disjoint (by omega)
    rw [h₄, h₃]
    exact (hrep.hdr b hb).size
  refine ⟨⟨m₄, if lastAddr 0 free = 0 then invalidAddr else s.freeHead, invalidAddr :: s.pages⟩,
    ?_, ?_, rfl⟩
  · have hinsert : freelistInsert ⟨m₁, s.freeHead, invalidAddr :: s.pages⟩ invalidAddr =
        some ⟨m₄, if lastAddr 0 free = 0 then invalidAddr else s.freeHead,
          invalidAddr :: s.pages⟩ := by
      unfold freelistInsert
      have hm₂ : setNextFree (setUsed m₁ invalidAddr 0) invalidAddr 0 = m₂ := rfl
      have hnext : mergeNext m₄ invalidAddr 0 = m₄ := if_neg (by simp)
      simp only [hm₂, hscan]
      rw [← hnext] at hmerge
      exact congrArg (fun m => some (State.mk m _ _)) (hmerge.trans hnext)
    unfold heapAddPage
    rw [if_neg (by norm_num)]
    simp only [m₁] at hinsert
    simp only [hinsert]
  · have hlast : m₃ invalidAddr = m₂ invalidAddr := by
      by_cases h0 : lastAddr 0 free = 0
      · simp only [m₃, if_pos h0]
      · simp only [m₃, if_neg h0]
        exact setNextFree_last h.list.ok h0 le_rfl
    simp only [m₄, setNextFree]
    rw [Bytes.store_apply_of_notMem (by omega), hlast, hbyte]

/-- No page the heap owns holds the byte at `2 ^ 64 - 1`. -/
theorem outside_invalid {pages : List ℕ} (h : ∀ p ∈ pages, p < maxPhys) :
    Outside pages invalidAddr := by
  intro p hp hx
  have hlow := h p hp
  simp only [maxPhys, Heap.pageSize, invalidAddr] at *
  omega

theorem Owned.obtained_eq (h : Owned s a) : s.obtained = s.pages := by
  refine List.filter_eq_self.mpr fun p hp => ?_
  have hlow := h.low p hp
  simp only [maxPhys, invalidAddr, ne_eq, decide_not, Bool.not_eq_eq_eq_not, Bool.not_true,
    decide_eq_false_iff_not] at *
  omega

/-- **A growth that runs out stores a 0 at `2 ^ 64 - 1`**, after the pages
that were left. Induction on the pages still to add. -/
theorem addPagesFrom_invalid (h : Rep s free live) (ho : Owned s a) (hr : RunsOut a n) :
    ∃ k ≤ n, ∃ s' a', addPagesFrom k s a = some (true, s', a') ∧ s'.mem invalidAddr = 0 ∧
      Outside s'.obtained invalidAddr := by
  induction n generalizing s free a with
  | zero => exact absurd hr.2 (Nat.not_lt_zero _)
  | succ n ih =>
    obtain ⟨ht, hlt⟩ := hr
    rcases ho.inv.allocPage with ⟨-, ha⟩ | ⟨page, a₁, ha, hmem, -, hl, hcount, hbm⟩
    · obtain ⟨s', hadd, hbyte, hpages⟩ := heapAddPage_invalid h
      refine ⟨1, by omega, s', a, by simp [addPagesFrom, ha, hadd], hbyte, ?_⟩
      refine outside_invalid fun p hp => ?_
      simp only [State.obtained, hpages, ne_eq, decide_not, List.mem_filter, List.mem_cons,
        Bool.not_eq_eq_eq_not, Bool.not_true, decide_eq_false_iff_not] at hp
      exact ho.low p (hp.1.resolve_left hp.2)
    · have hpage : page ≠ 0 := by
        rintro rfl
        rw [(mem_freeSet.mp hmem).2] at ht
        exact absurd ht (by simp)
      obtain ⟨hfresh, -⟩ := ho.freshPage hmem
      obtain ⟨s₁, hadd, hpages, hrep₁, -⟩ :=
        heapAddPage_rep h hfresh (Nat.mul_ne_zero hpage (by norm_num))
      have hr₁ : RunsOut a₁ n := ⟨by rw [hbm, Bitmap.test_set, ht, Bool.true_or], by omega⟩
      obtain ⟨k, hk, s', a', hs', hbyte⟩ := ih hrep₁ (ho.add hmem hl hpages) hr₁
      exact ⟨k + 1, by omega, s', a', by simp only [addPagesFrom, ha, hadd, hs'], hbyte⟩

/-! ## A request that does not run out -/

/-- The request runs into a failing `alloc_page`: no block fits, and the
growth runs out. -/
def Exhausts (s : State) (a : Pmm.State) (sz : ℕ) : Prop :=
  sz ≠ 0 ∧ freelistFindFit s (needTotal sz) = some 0 ∧ RunsOut a (expandPages (needTotal sz))

theorem Rep.not_covers (h : Rep s free live) (hx : Outside s.pages x) : ¬ Covers free x := by
  intro hc
  obtain ⟨p, hp, hpx⟩ := covers_pageBlocks.mp ((h.tiles x).mpr (.inl hc))
  exact hx p hp hpx

theorem Kept.trans {live₁ : List Block} {s₁ : State} {a₁ : Pmm.State} (h₁ : Kept s live₁ s₁ a₁)
    (h₂ : Kept s₁ live s' a') : Kept s live s' a' :=
  ⟨h₂.rep, h₂.owned,
    fun x hx => (h₂.frame x hx).trans (h₁.frame x fun p hp => hx p (h₂.pages p hp)),
    fun p hp => h₂.pages p (h₁.pages p hp)⟩

/-- Taking a block out of the chain. -/
theorem takeBlock_kept (h : Rep s free live) (ho : Owned s a) (hb : b ∈ free)
    (hfit : needTotal sz ≤ b.size) :
    ∃ s' b', takeBlock s b.addr (needTotal sz) = some (b'.addr + 32, s') ∧
      Kept s (b' :: live) s' a := by
  obtain ⟨hal, hmin⟩ := needTotal_aligned sz
  obtain ⟨s', b', free', ht, haddr, -, hrep, hpages, hframe⟩ := takeBlock_rep h hb hfit hal hmin
  refine ⟨s', b', haddr ▸ ht, ⟨free', hrep⟩, ⟨ho.inv, hpages ▸ ho.used, hpages ▸ ho.low⟩,
    fun x hx => hframe x ?_, fun p hp => hpages ▸ hp⟩
  rw [hpages] at hx
  exact h.not_covers hx

/-- **`kmalloc` when no `alloc_page` of it fails** keeps the representation
and writes only to the heap's pages. -/
theorem kmallocFrom_kept (h : Rep s free live) (ho : Owned s a) (hx : ¬ Exhausts s a sz) :
    ∃ p s' a' live', kmallocFrom s a sz = some (p, s', a') ∧ Kept s live' s' a' ∧
      ((p = 0 ∧ live' = live) ∨ ∃ b, live' = b :: live ∧ p = b.addr + 32) := by
  have hself : Kept s live s a := ⟨⟨free, h⟩, ho, fun _ _ => rfl, fun _ hp => hp⟩
  by_cases hsz : sz = 0
  · exact ⟨0, s, a, live, by rw [kmallocFrom, if_pos hsz], hself, .inl ⟨rfl, rfl⟩⟩
  have hpos : ∀ {s free} {b : Block}, Rep s free live → b ∈ free → b.addr ≠ 0 := fun h hb => by
    have := (h.list.ok _ hb).addr_pos
    omega
  rcases freelistFindFit_spec h.list (needTotal sz) with ⟨hfind, -⟩ | ⟨b, hb, hfind, hfit⟩
  · obtain ⟨ok, s₁, a₁, hgrow, hk⟩ := addPagesFrom_kept h ho fun hr => hx ⟨hsz, hfind, hr⟩
    obtain ⟨free₁, hrep₁⟩ := hk.rep
    cases ok with
    | false =>
      exact ⟨0, s₁, a₁, live, by simp [kmallocFrom, hsz, hfind, hgrow], hk, .inl ⟨rfl, rfl⟩⟩
    | true =>
      rcases freelistFindFit_spec hrep₁.list (needTotal sz) with ⟨hfind₁, -⟩ | ⟨b, hb, hfind₁, hfit⟩
      · exact ⟨0, s₁, a₁, live, by simp [kmallocFrom, hsz, hfind, hgrow, hfind₁], hk,
          .inl ⟨rfl, rfl⟩⟩
      · obtain ⟨s₂, b', ht, hk₂⟩ := takeBlock_kept hrep₁ hk.owned hb hfit
        exact ⟨_, s₂, a₁, b' :: live,
          by simp [kmallocFrom, hsz, hfind, hgrow, hfind₁, hpos hrep₁ hb, ht], hk.trans hk₂,
          .inr ⟨b', rfl, rfl⟩⟩
  · obtain ⟨s₂, b', ht, hk₂⟩ := takeBlock_kept h ho hb hfit
    exact ⟨_, s₂, a, b' :: live, by simp [kmallocFrom, hsz, hfind, hpos h hb, ht], hk₂,
      .inr ⟨b', rfl, rfl⟩⟩

/-! ## The heap and the allocator together -/

/-- The heap with its clients, and the page allocator. -/
structure Joint where
  world : World
  pmm : Pmm.State

/-- `init_heap`, what the clients do, and the calls of others to the page
allocator. -/
inductive JointOp
  | init
  | malloc (sz : ℕ)
  | free (ptr : ℕ)
  | write (m : Bytes)
  | allocPage
  | freePage (addr : ℕ)

/-- One step. Nobody gives a page of the heap back. -/
inductive JointStep : Joint → JointOp → Joint → Prop
  | init {m : Bytes} {a a' : Pmm.State} {s' : State} (h : initHeapFrom m a = some (s', a')) :
      JointStep ⟨⟨⟨m, 0, []⟩, []⟩, a⟩ .init ⟨⟨s', []⟩, a'⟩
  | malloc {w : World} {a a' : Pmm.State} {sz p : ℕ} {s' : State} (hlt : sz < addrTop)
      (h : kmallocFrom w.heap a sz = some (p, s', a')) :
      JointStep ⟨w, a⟩ (.malloc sz) ⟨⟨s', if p = 0 then w.live else (p, sz) :: w.live⟩, a'⟩
  | free {w : World} {a : Pmm.State} {L₁ L₂ : List (ℕ × ℕ)} {p sz : ℕ} {s' : State}
      (hl : w.live = L₁ ++ (p, sz) :: L₂) (h : kfree w.heap p = some s') :
      JointStep ⟨w, a⟩ (.free p) ⟨⟨s', L₁ ++ L₂⟩, a⟩
  | write {w : World} {a : Pmm.State} {m : Bytes} (h : ∀ x, m x ≠ w.heap.mem x → Writable w x) :
      JointStep ⟨w, a⟩ (.write m) ⟨⟨{ w.heap with mem := m }, w.live⟩, a⟩
  | allocPage {w : World} {a : Pmm.State} : JointStep ⟨w, a⟩ .allocPage ⟨w, a.allocPage.2⟩
  | freePage {w : World} {a : Pmm.State} {addr : ℕ} (h : addr ∉ w.heap.pages) :
      JointStep ⟨w, a⟩ (.freePage addr) ⟨w, a.freePage addr⟩

/-- From any memory and any state of the allocator, before `init_heap`. -/
def joint : System Joint JointOp where
  init x := (∃ m, x.world = ⟨⟨m, 0, []⟩, []⟩) ∧ ∃ y, Pmm.allocator.Reachable y ∧ y.pmm = x.pmm
  step := JointStep

/-- The step runs into a failing `alloc_page`. -/
def Joint.Exhausts (x : Joint) : JointOp → Prop
  | .init => RunsOut x.pmm heapInitPages
  | .malloc sz => Heap.Exhausts x.world.heap x.pmm sz
  | _ => False

/-- The runs in which no `alloc_page` of a heap call fails. -/
def supplied : System Joint JointOp := joint.restrict fun x op => ¬ x.Exhausts op

/-- The invariant of the two. -/
def JointRep (x : Joint) : Prop :=
  Owned x.world.heap x.pmm ∧
    ∃ free live, Rep x.world.heap free live ∧ List.Forall₂ Begins live x.world.live

/-- What a request leaves, with the requests being served. -/
theorem kmallocFrom_joint {reqs : List (ℕ × ℕ)} (h : Rep s free live) (ho : Owned s a)
    (hs : List.Forall₂ Begins live reqs) (hx : ¬ Exhausts s a sz) :
    ∃ p s' a', kmallocFrom s a sz = some (p, s', a') ∧
      (∀ x, Outside s'.pages x → s'.mem x = s.mem x) ∧
      JointRep ⟨⟨s', if p = 0 then reqs else (p, sz) :: reqs⟩, a'⟩ := by
  obtain ⟨p, s', a', live', hk, hkept, hlive⟩ := kmallocFrom_kept h ho hx
  obtain ⟨free', hrep'⟩ := hkept.rep
  refine ⟨p, s', a', hk, hkept.frame, hkept.owned, free', live', hrep', ?_⟩
  rcases hlive with ⟨rfl, rfl⟩ | ⟨b, rfl, rfl⟩
  · rw [if_pos rfl]
    exact hs
  · rw [if_neg (by omega)]
    exact .cons rfl hs

theorem initHeapFrom_kept {m : Bytes} (hi : Inv a) (hr : ¬ RunsOut a heapInitPages) :
    ∃ s' a', initHeapFrom m a = some (s', a') ∧ Kept ⟨m, 0, []⟩ [] s' a' := by
  obtain ⟨ok, s', a', hs', hk⟩ :=
    addPagesFrom_kept (rep_empty m) ⟨hi, by simp, by simp⟩ hr
  exact ⟨s', a', by simp only [initHeapFrom, hs'], hk⟩

/-- **While no `alloc_page` of a heap call fails, the invariant holds.** -/
theorem joint_rep {x : Joint} (h : supplied.Reachable x) :
    JointRep x := by
  refine h.invariant ?_ ?_
  · rintro ⟨w, a⟩ ⟨⟨m, rfl⟩, y, hy, rfl⟩
    exact ⟨⟨inv_reachable hy, by simp, by simp⟩, [], [], rep_empty m, .nil⟩
  · intro x op x' _ ⟨ho, free, live, hrep, hlive⟩ ⟨hx, hstep⟩
    cases hstep with
    | init hinit =>
      obtain ⟨s'', a'', heq, hk⟩ := initHeapFrom_kept ho.inv hx
      obtain ⟨rfl, rfl⟩ : s'' = _ ∧ a'' = _ := by simpa using heq.symm.trans hinit
      obtain ⟨free', hrep'⟩ := hk.rep
      exact ⟨hk.owned, free', [], hrep', .nil⟩
    | malloc hlt hk =>
      obtain ⟨p, s'', a'', heq, -, hj⟩ := kmallocFrom_joint hrep ho hlive hx
      obtain ⟨rfl, rfl, rfl⟩ : p = _ ∧ s'' = _ ∧ a'' = _ := by simpa using heq.symm.trans hk
      exact hj
    | @free w a L₁ L₂ p sz s' hl hk =>
      rw [hl] at hlive
      obtain ⟨B₁, b, B₂, rfl, hb, hrest⟩ := exists_serving hlive
      obtain ⟨s'', hk', hrep', hpages, -⟩ := kfree_rep hrep
      obtain rfl : s'' = s' := by
        rw [show p = b.addr + 32 from hb, hk'] at hk
        exact Option.some.inj hk
      exact ⟨⟨ho.inv, hpages ▸ ho.used, hpages ▸ ho.low⟩, _, _, hrep', hrest⟩
    | write hm => exact ⟨⟨ho.inv, ho.used, ho.low⟩, free, live, hrep.write hlive hm, hlive⟩
    | allocPage =>
      refine ⟨?_, free, live, hrep, hlive⟩
      rcases ho.inv.allocPage with ⟨-, ha⟩ | ⟨page, a₁, ha, -, -, hl, -⟩
      · rw [ha]
        exact ho
      · rw [ha]
        refine ⟨hl.inv, fun p hp hm => ?_, ho.low⟩
        rw [hl.freeSet] at hm
        exact ho.used p hp (Finset.mem_of_mem_erase hm)
    | @freePage w a addr haddr =>
      have hl := ho.inv.freePage addr
      refine ⟨⟨hl.inv, fun p hp hm => ?_, ho.low⟩, free, live, hrep, hlive⟩
      rw [hl.freeSet, Finset.mem_union, Finset.mem_filter] at hm
      rcases hm with hm | ⟨-, heq⟩
      · exact ho.used p hp hm
      · -- the page given back is the heap's own
        have halign := hrep.pages_align p hp
        have hpa : p = addr := by
          simp only [Heap.pageSize, Pmm.pageSize] at halign heq
          omega
        exact haddr (hpa ▸ hp)

/-! ## What a call must do when memory runs out -/

/-- Memory that holds in the heap's pages what the heap has there, and
anything elsewhere. -/
def Elsewhere (s : State) (m : Bytes) : Prop := ∀ x, ¬ Outside s.pages x → m x = s.mem x

/-- A growth by `n` pages writes, in each of its steps and whatever memory
holds, only to pages it has obtained. -/
def WritesWithin (s : State) (a : Pmm.State) (n : ℕ) : Prop :=
  ∀ m, Elsewhere s m → ∀ k ≤ n, ∀ ok s' a',
    addPagesFrom k { s with mem := m } a = some (ok, s', a') →
      ∀ x, Outside s'.obtained x → s'.mem x = m x

/-- **What a heap call must do**, `alloc_page` failing or not: it returns,
it writes only to pages obtained, the representation holds, and where
`alloc_page` failed `kmalloc` gives `NULL` or a block that is large enough. -/
def Joint.Survives (x : Joint) : JointOp → Prop
  | .init => WritesWithin x.world.heap x.pmm heapInitPages ∧
      ∀ m, Elsewhere x.world.heap m → ∃ s' a', initHeapFrom m x.pmm = some (s', a') ∧
        BeginsRep ⟨s', []⟩
  | .malloc sz => (sz ≠ 0 → freelistFindFit x.world.heap (needTotal sz) = some 0 →
        WritesWithin x.world.heap x.pmm (expandPages (needTotal sz))) ∧
      ∀ m, Elsewhere x.world.heap m → ∃ p s' a',
        kmallocFrom { x.world.heap with mem := m } x.pmm sz = some (p, s', a') ∧
        (∀ y, Outside s'.obtained y → s'.mem y = m y) ∧
        BeginsRep ⟨s', if p = 0 then x.world.live else (p, sz) :: x.world.live⟩ ∧
        (Heap.Exhausts x.world.heap x.pmm sz → Holds s' p sz)
  | _ => True

theorem Rep.elsewhere {m : Bytes} {reqs : List (ℕ × ℕ)} (h : Rep s free live)
    (hs : List.Forall₂ Begins live reqs) (hm : Elsewhere s m) : Rep { s with mem := m } free live :=
  h.write hs fun x hx => .inl <| by
    by_contra hout
    exact hx (hm x hout)

theorem RunsOut.mono {k : ℕ} (h : RunsOut a k) (hk : k ≤ n) : RunsOut a n := ⟨h.1, h.2.trans_le hk⟩

/-- **A growth writes only to pages obtained exactly when it does not run
out.** -/
theorem writesWithin_iff {reqs : List (ℕ × ℕ)} (h : Rep s free live)
    (hs : List.Forall₂ Begins live reqs) (ho : Owned s a) :
    WritesWithin s a n ↔ ¬ RunsOut a n := by
  constructor
  · intro hw hr
    -- memory that holds a 1 where the 0 is stored
    let m : Bytes := fun x => if x = invalidAddr then 1 else s.mem x
    have hm : Elsewhere s m := by
      intro x hx
      have hne : x ≠ invalidAddr := by
        rintro rfl
        exact hx (outside_invalid ho.low)
      simp only [m, if_neg hne]
    obtain ⟨k, hk, s', a', hgrow, hbyte, hout⟩ :=
      addPagesFrom_invalid (h.elsewhere hs hm) ⟨ho.inv, ho.used, ho.low⟩ hr
    have hsame := hw m hm k hk true s' a' hgrow invalidAddr hout
    rw [hbyte] at hsame
    exact absurd hsame (by simp [m])
  · intro hr m hm k hk ok s' a' hgrow x hx
    obtain ⟨ok₁, s₁, a₁, hgrow₁, hkept⟩ := addPagesFrom_kept (n := k) (h.elsewhere hs hm)
      ⟨ho.inv, ho.used, ho.low⟩ fun hc => hr (hc.mono hk)
    obtain ⟨rfl, rfl, rfl⟩ : ok₁ = ok ∧ s₁ = s' ∧ a₁ = a' := by simpa using hgrow₁.symm.trans hgrow
    rw [hkept.owned.obtained_eq] at hx
    exact hkept.frame x hx

/-- Whether a block fits does not depend on the bytes outside the heap. -/
theorem freelistFindFit_zero_iff {need : ℕ} (h : Rep s free live) :
    freelistFindFit s need = some 0 ↔ ∀ b ∈ free, b.size < need := by
  rcases freelistFindFit_spec h.list need with ⟨hfind, hlt⟩ | ⟨b, hb, hfind, hfit⟩
  · exact iff_of_true hfind hlt
  · refine iff_of_false ?_ fun hlt => absurd (hlt b hb) (by omega)
    rw [hfind]
    have := (h.list.ok b hb).addr_pos
    simp only [Option.some.injEq]
    omega

/-- **A heap call does what it must exactly when no `alloc_page` of it
fails**, in every state that calls of which none failed lead to. -/
theorem heap_survives_iff {x : Joint}
    (h : supplied.Reachable x) :
    BeginsRep x.world ∧
      ((∃ m, x.world = ⟨⟨m, 0, []⟩, []⟩) → (x.Survives .init ↔ ¬ x.Exhausts .init)) ∧
      ∀ sz, x.Survives (.malloc sz) ↔ ¬ x.Exhausts (.malloc sz) := by
  obtain ⟨ho, free, live, hrep, hlive⟩ := joint_rep h
  obtain ⟨⟨s, reqs⟩, a⟩ := x
  refine ⟨⟨free, live, hrep, hlive⟩, ?_, fun sz => ⟨fun hs hx => ?_, fun hx => ⟨fun hsz hfind => ?_, ?_⟩⟩⟩
  · rintro ⟨m, hm⟩
    obtain ⟨rfl, rfl⟩ := World.mk.injEq _ _ _ _ ▸ hm
    refine ⟨fun hs => (writesWithin_iff hrep hlive ho).mp hs.1, fun hr =>
      ⟨(writesWithin_iff hrep hlive ho).mpr hr, fun m' _ => ?_⟩⟩
    obtain ⟨s', a', hinit, hk⟩ := initHeapFrom_kept (m := m') ho.inv hr
    obtain ⟨free', hrep'⟩ := hk.rep
    exact ⟨s', a', hinit, free', [], hrep', .nil⟩
  · exact (writesWithin_iff hrep hlive ho).mp (hs.1 hx.1 hx.2.1) hx.2.2
  · exact (writesWithin_iff hrep hlive ho).mpr fun hr => hx ⟨hsz, hfind, hr⟩
  · intro m hm
    have hrep' := hrep.elsewhere hlive hm
    have hx' : ¬ Exhausts { s with mem := m } a sz := by
      rintro ⟨hsz, hfind, hr⟩
      exact hx ⟨hsz, (freelistFindFit_zero_iff hrep).mpr ((freelistFindFit_zero_iff hrep').mp hfind), hr⟩
    obtain ⟨p, s', a', hk, hframe, ho', hj⟩ :=
      kmallocFrom_joint hrep' ⟨ho.inv, ho.used, ho.low⟩ hlive hx'
    refine ⟨p, s', a', hk, fun y hy => hframe y ?_, hj, fun hc => absurd hc hx⟩
    rw [ho'.obtained_eq] at hy
    exact hy

/-- An allocator with four free pages, from 4096 on. -/
def fourFree : Pmm.Traced :=
  [Pmm.Op.init 5, Pmm.Op.markFree 4096 20480].foldl Pmm.Traced.step ⟨Pmm.unset, ∅⟩

theorem fourFree_reachable : Pmm.allocator.Reachable fourFree :=
  (reachable_foldl (C := fun _ _ => True) _ _ (.init rfl) fun _ _ => trivial).of_restrict

/-- The four pages are the heap's, and all of them given out. -/
theorem exists_full : ∃ x : Joint, supplied.Reachable x ∧
    x.Exhausts (.malloc 100) ∧ ∃ s' a', kmallocFrom x.world.heap x.pmm 100 = some (31, s', a') ∧
      s'.obtained = [16384, 12288, 8192, 4096] ∧ s'.mem 151 ≠ x.world.heap.mem 151 := by
  obtain ⟨r, hr, heq⟩ := Option.map_eq_some_iff.mp
    (show ((initHeapFrom (Bytes.const 0) fourFree.pmm).bind fun r =>
        (kmallocFrom r.1 r.2 16352).bind fun q => (kmallocFrom q.2.1 q.2.2 100).map fun t =>
          (r, q, t)).map (fun u => decide (freelistFindFit u.1.1 (needTotal 16352) = some 4096 ∧
            freelistFindFit u.2.1.2.1 (needTotal 100) = some 0 ∧ u.2.1.2.2.bitmap.test 0 = true ∧
            u.2.1.2.2.freePages = 0 ∧ u.2.2.1 = 31 ∧
            u.2.2.2.1.obtained = [16384, 12288, 8192, 4096] ∧
            u.2.2.2.1.mem 151 ≠ u.2.1.2.1.mem 151)) = some true by decide +kernel)
  obtain ⟨⟨s₀, a₀⟩, h₀, hr⟩ := Option.bind_eq_some_iff.mp hr
  obtain ⟨⟨p₁, s₁, a₁⟩, h₁, hr⟩ := Option.bind_eq_some_iff.mp hr
  obtain ⟨⟨p₂, s₂, a₂⟩, h₂, rfl⟩ := Option.map_eq_some_iff.mp hr
  obtain ⟨hfit, hnofit, hzero, hfree, rfl, hobt, hbyte⟩ := of_decide_eq_true heq
  have hinit : supplied.Reachable ⟨⟨s₀, []⟩, a₀⟩ := by
    have hboot : supplied.Reachable ⟨⟨⟨Bytes.const 0, 0, []⟩, []⟩, fourFree.pmm⟩ :=
      .init ⟨⟨_, rfl⟩, _, fourFree_reachable, rfl⟩
    have hstep : supplied.step ⟨⟨⟨Bytes.const 0, 0, []⟩, []⟩, fourFree.pmm⟩ .init ⟨⟨s₀, []⟩, a₀⟩ :=
      ⟨fun hx => absurd hx.2 (by decide +kernel), .init h₀⟩
    exact hboot.step hstep
  have hfull : supplied.step ⟨⟨s₀, []⟩, a₀⟩ (.malloc 16352)
      ⟨⟨s₁, if p₁ = 0 then [] else [(p₁, 16352)]⟩, a₁⟩ := by
    refine ⟨fun hx => ?_, .malloc (by norm_num) h₁⟩
    have hnone := hx.2.1
    rw [hfit] at hnone
    exact absurd hnone (by decide)
  refine ⟨_, hinit.step hfull, ⟨by norm_num, hnofit, hzero, ?_⟩, s₂, a₂, h₂, hobt, hbyte⟩
  rw [hfree]
  decide

/-- `kmalloc(100)` with no page left: the pointer 31 is returned, and a
header is written at 143. -/
theorem kmalloc_exhausted : ∃ x : Joint,
    supplied.Reachable x ∧ x.Exhausts (.malloc 100) ∧
      (∃ s' a', kmallocFrom x.world.heap x.pmm 100 = some (31, s', a') ∧
        Outside s'.obtained 151 ∧ s'.mem 151 ≠ x.world.heap.mem 151) ∧
      ¬ x.Survives (.malloc 100) := by
  obtain ⟨x, hx, hex, s', a', hk, hobt, hbyte⟩ := exists_full
  refine ⟨x, hx, hex, ⟨s', a', hk, ?_, hbyte⟩, fun hs => ?_⟩
  · rw [hobt]
    intro p hp
    simp only [List.mem_cons, List.not_mem_nil, or_false] at hp
    omega
  · obtain ⟨p, s'', a'', hk', -, ⟨free, live, -, hlive⟩, -⟩ := hs.2 x.world.heap.mem fun _ _ => rfl
    obtain ⟨rfl, rfl, rfl⟩ : 31 = p ∧ s' = s'' ∧ a' = a'' := by simpa using hk.symm.trans hk'
    rw [if_neg (by norm_num)] at hlive
    -- no block begins 32 bytes before 31
    obtain ⟨b, -, hb, -, -⟩ := List.forall₂_cons_right_iff.mp hlive
    simp only [Begins, hdrSize] at hb
    omega

/-- Before `init_heap`, with four free pages. -/
theorem heap_survives_four :
    (⟨⟨⟨Bytes.const 0, 0, []⟩, []⟩, fourFree.pmm⟩ : Joint).Survives .init :=
  ((heap_survives_iff (.init ⟨⟨_, rfl⟩, _, fourFree_reachable, rfl⟩)).2.1 ⟨_, rfl⟩).mpr
    fun hx => absurd hx.2 (by decide +kernel)

end Heap

end Csos

import Csos.Common.Runs
import Csos.Heap.Invariant
/-!
# Kernel heap — every run

A world is the allocator's state and the requests being served. A run is
`init_heap`, then any order of `kmalloc`, `kfree` of a pointer being
served, and writes by the clients: into the payloads they were given, and
anywhere outside the pages of the heap. `Rep` holds in every state of it
(`reachable_rep`), and `heap_tiled` reads the heap's guarantees off it.
-/

namespace Csos

namespace Heap

open Block

variable {x sz p : ℕ} {b c : Block} {free live : List Block} {s s' : State} {supply : List ℕ}

/-! ## `kmalloc` -/

/-- Whatever the sum wraps to, the total asked for is a multiple of the
alignment and no smaller than the least block. -/
theorem needTotal_aligned (sz : ℕ) : needTotal sz % 16 = 0 ∧ 48 ≤ needTotal sz := by
  have hal : alignUp ((hdrSize + sz) % addrTop) heapAlign % 16 = 0 := by
    rw [alignUp]
    exact Nat.mul_mod_left _ _
  unfold needTotal
  simp only [heapMinTotal, hdrSize, heapAlign] at hal ⊢
  by_cases hlt : alignUp ((32 + sz) % addrTop) 16 < 32 + 16
  · rw [if_pos hlt]
    exact ⟨rfl, le_rfl⟩
  · rw [if_neg hlt]
    exact ⟨hal, by omega⟩

/-- Where the sum does not wrap, the total has room for the request. -/
theorem le_needTotal (h : sz + 47 < addrTop) : 32 + sz ≤ needTotal sz := by
  have hmod : (hdrSize + sz) % addrTop = 32 + sz :=
    Nat.mod_eq_of_lt (by simp only [addrTop, hdrSize] at *; omega)
  have hal : alignUp (32 + sz) heapAlign = (sz + 47) / 16 * 16 := by
    rw [alignUp, show 32 + sz + heapAlign - 1 = sz + 47 by simp only [heapAlign]; omega,
      Nat.mod_eq_of_lt h]
  simp only [needTotal, hmod, hal, heapMinTotal, hdrSize, heapAlign]
  split <;> omega

/-- **What `kmalloc` gives**: the payload of a block that is live from then
on and as large as the total; or `NULL`, when no block of the chain is,
and the growth failed or left no such block either. -/
theorem kmalloc_spec (h : Rep s free live) (hf : Fresh s supply) (h1 : 1 ≤ sz) :
    (∀ p s', kmalloc s supply sz = some (p, s') →
      (p = 0 ∧ (∀ b ∈ free, b.size < needTotal sz) ∧ ∃ ok free',
          heapExpand s supply (needTotal sz) = some (ok, s') ∧ Rep s' free' live ∧
          (ok = true → ∀ b ∈ free', b.size < needTotal sz)) ∨
        ∃ b free', p = b.addr + 32 ∧ needTotal sz ≤ b.size ∧ Rep s' free' (b :: live)) ∧
      (expandPages (needTotal sz) ≤ supply.length ∨ 0 ∈ supply →
        (kmalloc s supply sz).isSome) := by
  obtain ⟨hal, hmin⟩ := needTotal_aligned sz
  have hsz0 : sz ≠ 0 := by omega
  -- once a block is found, what is left is `takeBlock`
  have htake : ∀ {s free} {b : Block}, Rep s free live → b ∈ free → needTotal sz ≤ b.size →
      ∃ s' b' free', takeBlock s b.addr (needTotal sz) = some (b'.addr + 32, s') ∧
        needTotal sz ≤ b'.size ∧ Rep s' free' (b' :: live) := by
    intro s free b h hb hfit
    obtain ⟨s', b', free', ht, haddr, hsize, hrep, -⟩ := takeBlock_rep h hb hfit hal hmin
    exact ⟨s', b', free', haddr ▸ ht, hsize, hrep⟩
  rcases freelistFindFit_spec h.list (needTotal sz) with ⟨hfind, hnone⟩ | ⟨b, hb, hfind, hfit⟩
  · obtain ⟨hadd, hsome⟩ := addPages_rep (n := expandPages (needTotal sz)) h hf
    simp only [kmalloc, if_neg hsz0, hfind, ne_eq, not_true_eq_false, if_false]
    cases hexp : heapExpand s supply (needTotal sz) with
    | none => exact ⟨fun p s' hs => absurd hs (by simp), fun hn => absurd (hsome hn) (by rw [← heapExpand, hexp]; simp)⟩
    | some r =>
      obtain ⟨ok, s₁⟩ := r
      obtain ⟨free₁, hrep₁, -⟩ := hadd ok s₁ hexp
      cases ok with
      | false =>
        refine ⟨fun p s' hs => .inl ?_, fun _ => rfl⟩
        simp only [Option.some.injEq, Prod.mk.injEq] at hs
        obtain ⟨rfl, rfl⟩ := hs
        exact ⟨rfl, hnone, false, free₁, rfl, hrep₁, fun hc => absurd hc (by simp)⟩
      | true =>
        rcases freelistFindFit_spec hrep₁.list (needTotal sz) with ⟨hfind₁, hnone₁⟩ | ⟨b, hb, hfind₁, hfit⟩
        · simp only [hfind₁, if_true]
          refine ⟨fun p s' hs => .inl ?_, fun _ => rfl⟩
          simp only [Option.some.injEq, Prod.mk.injEq] at hs
          obtain ⟨rfl, rfl⟩ := hs
          exact ⟨rfl, hnone, true, free₁, rfl, hrep₁, fun _ => hnone₁⟩
        · have hb0 : b.addr ≠ 0 := by have := (hrep₁.list.ok b hb).addr_pos; omega
          obtain ⟨s₂, b', free', ht, hsize, hrep⟩ := htake hrep₁ hb hfit
          simp only [hfind₁, if_neg hb0, ht]
          refine ⟨fun p s' hs => .inr ?_, fun _ => rfl⟩
          simp only [Option.some.injEq, Prod.mk.injEq] at hs
          obtain ⟨rfl, rfl⟩ := hs
          exact ⟨b', free', rfl, hsize, hrep⟩
  · have hb0 : b.addr ≠ 0 := by have := (h.list.ok b hb).addr_pos; omega
    obtain ⟨s₂, b', free', ht, hsize, hrep⟩ := htake h hb hfit
    simp only [kmalloc, if_neg hsz0, hfind, ne_eq, hb0, not_false_eq_true, if_true, ht]
    refine ⟨fun p s' hs => .inr ?_, fun _ => rfl⟩
    simp only [Option.some.injEq, Prod.mk.injEq] at hs
    obtain ⟨rfl, rfl⟩ := hs
    exact ⟨b', free', rfl, hsize, hrep⟩

/-- **`kmalloc` keeps the invariant.** It returns `NULL`, or the payload
of a block that is live from then on. -/
theorem kmalloc_rep (h : Rep s free live) (hf : Fresh s supply) (h1 : 1 ≤ sz) {p : ℕ}
    (hk : kmalloc s supply sz = some (p, s')) :
    (p = 0 ∧ ∃ free', Rep s' free' live) ∨
      ∃ b free', p = b.addr + 32 ∧ needTotal sz ≤ b.size ∧ Rep s' free' (b :: live) := by
  rcases (kmalloc_spec h hf h1).1 p s' hk with ⟨hp, -, -, free', -, hrep, -⟩ | hb
  · exact .inl ⟨hp, free', hrep⟩
  · exact .inr hb

/-! ## Worlds and their steps -/

/-- The allocator, and the requests being served: a pointer and the size
asked for. -/
structure World where
  heap : State
  live : List (ℕ × ℕ)

/-- The bytes somebody other than the allocator may write: those outside
its pages, and the payloads of the blocks being served. -/
def Writable (w : World) (x : ℕ) : Prop :=
  (∀ p ∈ w.heap.pages, ¬ (p ≤ x ∧ x < p + pageSize)) ∨
    ∃ r ∈ w.live, r.1 ≤ x ∧ x < r.1 - hdrSize + size w.heap.mem (r.1 - hdrSize)

/-- What a client does. -/
inductive Op
  | malloc (sz : ℕ) (supply : List ℕ)
  | free (ptr : ℕ)
  | write (m : Bytes)

/-- One call, or one write by a client. -/
inductive Step : World → Op → World → Prop
  | malloc {w : World} {sz p : ℕ} {supply : List ℕ} {s' : State} (h1 : 1 ≤ sz)
      (hlt : sz + 47 < addrTop) (hf : Fresh w.heap supply)
      (h : kmalloc w.heap supply sz = some (p, s')) :
      Step w (.malloc sz supply) ⟨s', if p = 0 then w.live else (p, sz) :: w.live⟩
  | free {w : World} {L₁ L₂ : List (ℕ × ℕ)} {p sz : ℕ} {s' : State}
      (hl : w.live = L₁ ++ (p, sz) :: L₂) (h : kfree w.heap p = some s') :
      Step w (.free p) ⟨s', L₁ ++ L₂⟩
  | write {w : World} {m : Bytes} (h : ∀ x, m x ≠ w.heap.mem x → Writable w x) :
      Step w (.write m) ⟨{ w.heap with mem := m }, w.live⟩

/-- The heap and its clients, from `init_heap` on. -/
def machine : System World Op where
  init w := w.live = [] ∧ ∃ m supply, Fresh ⟨m, 0, []⟩ supply ∧ initHeap m supply = some w.heap
  step := Step

/-- The block serves the request. -/
def Serves (b : Block) (r : ℕ × ℕ) : Prop := r.1 = b.addr + hdrSize ∧ hdrSize + r.2 ≤ b.size

/-- The invariant of a world. -/
def WorldRep (w : World) : Prop :=
  ∃ free live, Rep w.heap free live ∧ List.Forall₂ Serves live w.live

/-- The request is for the payload of the block. -/
def Begins (b : Block) (r : ℕ × ℕ) : Prop := r.1 = b.addr + hdrSize

/-- The block of a request, and the blocks of the others. -/
theorem exists_serving {R : Block → ℕ × ℕ → Prop} {L₁ L₂ : List (ℕ × ℕ)} {r : ℕ × ℕ}
    (h : List.Forall₂ R live (L₁ ++ r :: L₂)) :
    ∃ B₁ b B₂, live = B₁ ++ b :: B₂ ∧ R b r ∧ List.Forall₂ R (B₁ ++ B₂) (L₁ ++ L₂) := by
  have h₁ := List.forall₂_take_append _ _ _ h
  obtain ⟨b, B₂, hb, h₂, heq⟩ := List.forall₂_cons_right_iff.mp (List.forall₂_drop_append _ _ _ h)
  refine ⟨_, b, B₂, ?_, hb, List.rel_append h₁ h₂⟩
  rw [← heq, List.take_append_drop]

theorem rep_empty (m : Bytes) : Rep ⟨m, 0, []⟩ [] [] :=
  ⟨⟨rfl, by simp, .nil, by simp⟩, .nil, by simp, by simp, .nil, by simp, by simp [pageBlocks],
    by simp⟩

/-- A client's write keeps the invariant: it reaches no header. -/
theorem Rep.write {m : Bytes} {reqs : List (ℕ × ℕ)} (h : Rep s free live)
    (hs : List.Forall₂ Begins live reqs)
    (hm : ∀ x, m x ≠ s.mem x → Writable ⟨s, reqs⟩ x) : Rep { s with mem := m } free live := by
  -- a writable byte is outside the heap or past the header of a live block
  have hw : ∀ x, m x ≠ s.mem x →
      (¬ Covers free x ∧ ¬ Covers live x) ∨ ∃ b ∈ live, b.Mem x ∧ b.addr + 32 ≤ x := by
    intro x hx
    rcases hm x hx with hout | ⟨r, hr, h1, h2⟩
    · left
      rw [← not_or, ← h.tiles, covers_pageBlocks]
      rintro ⟨p, hp, hpx⟩
      exact hout p hp hpx
    · right
      obtain ⟨L₁, L₂, rfl⟩ := List.append_of_mem hr
      obtain ⟨B₁, b, B₂, rfl, hbr, -⟩ := exists_serving hs
      have hb : b ∈ B₁ ++ b :: B₂ := by simp
      simp only [Begins, hdrSize] at hbr h1 h2
      have haddr : r.1 - 32 = b.addr := by omega
      rw [haddr, (h.hdr_live b hb).size] at h2
      exact ⟨b, hb, by simp only [Mem, fin]; omega, by omega⟩
  have hfree : ∀ x, Covers free x → m x = s.mem x := by
    intro x hx
    by_contra hne
    rcases hw x hne with ⟨h1, -⟩ | ⟨b, hb, hbx, -⟩
    · exact h1 hx
    · exact h.disjoint x hx ⟨b, hb, hbx⟩
  refine ⟨h.list.congr fun x hx => ?_, h.coalesced, fun b hb => ?_, h.ok_live, h.apart_live,
    h.disjoint, h.tiles, h.pages_align⟩
  · refine hfree x ?_
    by_contra hc
    exact hx (offHdr_of_not_covers h.list.ok hc)
  · have hb48 := (h.ok_live b hb).min_size
    refine (h.hdr_live b hb).congr fun i hi => ?_
    by_contra hne
    have hbx : b.Mem (b.addr + i) := by simp only [Mem, fin]; omega
    rcases hw _ hne with ⟨-, h2⟩ | ⟨c, hc, hcx, hge⟩
    · exact h2 ⟨b, hb, hbx⟩
    · by_cases hbc : b = c
      · rw [hbc] at hge
        omega
      · exact (h.apart_live.forall hb hc hbc).disjoint hbx hcx

/-! ## What a call does to the requests

`R` is what a block has to do with its request: to begin at the pointer,
and perhaps more. -/

section Requests

variable {R : Block → ℕ × ℕ → Prop} {reqs L₁ L₂ : List (ℕ × ℕ)}

theorem initHeap_rep {m : Bytes} (hf : Fresh ⟨m, 0, []⟩ supply)
    (hinit : initHeap m supply = some s) : ∃ free, Rep s free [] := by
  obtain ⟨hadd, -⟩ := addPages_rep (n := heapInitPages) (rep_empty m) hf
  simp only [initHeap] at hinit
  cases hp : addPages heapInitPages supply ⟨m, 0, []⟩ with
  | none => rw [hp] at hinit; exact absurd hinit (by simp)
  | some r =>
    rw [hp] at hinit
    obtain rfl := Option.some.inj hinit
    obtain ⟨free, hrep, -⟩ := hadd r.1 r.2 hp
    exact ⟨free, hrep⟩

/-- `kmalloc` adds the request it answered to the ones being served. -/
theorem kmalloc_requests (h : Rep s free live) (hs : List.Forall₂ R live reqs)
    (hf : Fresh s supply) (h1 : 1 ≤ sz) (hk : kmalloc s supply sz = some (p, s'))
    (hR : ∀ b, needTotal sz ≤ b.size → R b (b.addr + 32, sz)) :
    ∃ free' live', Rep s' free' live' ∧
      List.Forall₂ R live' (if p = 0 then reqs else (p, sz) :: reqs) := by
  rcases kmalloc_rep h hf h1 hk with ⟨rfl, free', hrep'⟩ | ⟨b, free', rfl, hsz, hrep'⟩
  · exact ⟨free', live, hrep', by simpa using hs⟩
  · refine ⟨free', b :: live, hrep', ?_⟩
    rw [if_neg (by omega)]
    exact .cons (hR b hsz) hs

/-- `kfree` takes the request out. -/
theorem kfree_requests (h : Rep s free live) (hs : List.Forall₂ R live (L₁ ++ (p, sz) :: L₂))
    (hR : ∀ b r, R b r → Begins b r) (hk : kfree s p = some s') :
    ∃ free' live', Rep s' free' live' ∧ List.Forall₂ R live' (L₁ ++ L₂) := by
  obtain ⟨B₁, b, B₂, rfl, hb, hrest⟩ := exists_serving hs
  obtain ⟨s'', hk', hrep', -⟩ := kfree_rep h
  have hp : p = b.addr + 32 := hR b _ hb
  obtain rfl : s'' = s' := by
    rw [← hp, hk] at hk'
    exact (Option.some.inj hk').symm
  exact ⟨_, _, hrep', hrest⟩

end Requests

/-- **The invariant holds in every reachable world.** -/
theorem reachable_rep {w : World} (h : machine.Reachable w) : WorldRep w := by
  refine h.invariant ?_ ?_
  · rintro ⟨s, live⟩ ⟨rfl, m, supply, hf, hinit⟩
    obtain ⟨free, hrep⟩ := initHeap_rep hf hinit
    exact ⟨free, [], hrep, .nil⟩
  · rintro w op w' - ⟨free, live, hrep, hserve⟩ hstep
    cases hstep with
    | malloc h1 hlt hf hk =>
      exact kmalloc_requests hrep hserve hf h1 hk fun b hb => ⟨rfl, (le_needTotal hlt).trans hb⟩
    | free hl hk =>
      rw [hl] at hserve
      exact kfree_requests hrep hserve (fun b r hb => hb.1) hk
    | write hm => exact ⟨free, live, hrep.write (hserve.imp fun b r hb => hb.1) hm, hserve⟩

/-! ## What the heap guarantees -/

/-- **The heap's guarantees in a world**, with the blocks of its free list
in chain order and the blocks being served. -/
structure Tiled (w : World) (free live : List Block) : Prop where
  /-- `free` is the chain from `free_head`. -/
  chain : Linked (nextPtr w.heap.mem) (ptr w.heap.freeHead) (free.map addr)
  /-- Every block carries its size in its header. -/
  sizes : ∀ b ∈ free ++ live, size w.heap.mem b.addr = b.size
  no_overlap : (free ++ live).Pairwise Apart
  no_gap : ∀ x, Covers (free ++ live) x ↔ ∃ p ∈ w.heap.pages, p ≤ x ∧ x < p + pageSize
  increasing : free.Pairwise fun b c => b.addr < c.addr
  /-- No block of the chain touches the next. -/
  coalesced : ∀ b c, [b, c] <:+: free → b.fin ≠ c.addr
  size_ok : ∀ b ∈ free ++ live, b.size % heapAlign = 0 ∧ heapMinTotal ≤ b.size
  served : List.Forall₂ Serves live w.live
  payload_align : ∀ r ∈ w.live, r.1 % heapAlign = 0
  payload_apart : w.live.Pairwise fun r q => Apart ⟨r.1, r.2⟩ ⟨q.1, q.2⟩
  payload_header : ∀ r ∈ w.live, ∀ b ∈ free ++ live, Apart ⟨r.1, r.2⟩ ⟨b.addr, hdrSize⟩

/-- The payload of a served request lies in its block, past the header. -/
theorem Serves.mem {r : ℕ × ℕ} (h : Serves b r) (hx : (⟨r.1, r.2⟩ : Block).Mem x) :
    b.Mem x ∧ b.addr + 32 ≤ x := by
  obtain ⟨h1, h2⟩ := h
  simp only [Mem, fin, hdrSize] at *
  omega

theorem Rep.pairwise_apart (h : Rep s free live) : (free ++ live).Pairwise Apart := by
  refine List.pairwise_append.mpr ⟨h.list.sorted.imp fun hbc => .inl hbc, h.apart_live, ?_⟩
  exact fun b hb c hc => apart_of_disjoint (h.list.ok b hb).pos (h.ok_live c hc).pos
    fun x hbx hcx => h.disjoint x ⟨b, hb, hbx⟩ ⟨c, hc, hcx⟩

theorem Rep.ok (h : Rep s free live) : ∀ b ∈ free ++ live, Ok b := by
  intro b hb
  rcases List.mem_append.mp hb with hb | hb
  · exact h.list.ok b hb
  · exact h.ok_live b hb

/-- The invariant gives the guarantees. -/
theorem Rep.tiled {w : World} (h : Rep w.heap free live) (hs : List.Forall₂ Serves live w.live) :
    Tiled w free live := by
  have hap := h.pairwise_apart
  have hreq : ∀ r ∈ w.live, ∃ b ∈ live, Serves b r := by
    intro r hr
    obtain ⟨L₁, L₂, hl⟩ := List.append_of_mem hr
    obtain ⟨B₁, b, B₂, rfl, hb, -⟩ := exists_serving (hl ▸ hs)
    exact ⟨b, by simp, hb⟩
  refine ⟨h.list.linked, fun b hb => ?_, hap, fun x => ?_, ?_, fun b c hbc => ?_, fun b hb => ?_,
    hs, fun r hr => ?_, ?_, fun r hr b hb => ?_⟩
  · rcases List.mem_append.mp hb with hb | hb
    · exact (h.list.hdr b hb).size
    · exact (h.hdr_live b hb).size
  · rw [covers_append, ← h.tiles, covers_pageBlocks]
  · exact h.coalesced.imp fun hbc => by simp only [fin] at hbc; omega
  · have hlt : b.fin < c.addr := List.rel_of_pairwise_cons (h.coalesced.sublist hbc.sublist) (by simp)
    exact hlt.ne
  · exact ⟨(h.ok b hb).size_align, (h.ok b hb).min_size⟩
  · obtain ⟨b, hb, hbr⟩ := hreq r hr
    have h1 := (h.ok_live b hb).addr_align
    have h2 := hbr.1
    simp only [heapAlign, hdrSize] at *
    omega
  · -- payloads of different requests lie in different live blocks
    have hla := h.apart_live
    generalize w.live = reqs at hs
    clear hap hreq h
    induction hs with
    | nil => exact .nil
    | @cons b r live reqs hbr hs ih =>
      obtain ⟨hb, hla⟩ := List.pairwise_cons.mp hla
      refine List.pairwise_cons.mpr ⟨fun q hq => ?_, ih hla⟩
      obtain ⟨L₁, L₂, rfl⟩ := List.append_of_mem hq
      obtain ⟨B₁, c, B₂, rfl, hcq, -⟩ := exists_serving hs
      have hbc := hb c (by simp)
      simp only [Serves, Apart, fin, hdrSize] at *
      omega
  · obtain ⟨c, hc, hcr⟩ := hreq r hr
    have hb48 := (h.ok b hb).min_size
    by_cases hbc : c = b
    · subst hbc
      have := hcr.1
      simp only [Apart, fin, hdrSize] at *
      omega
    · have hcb : c.Apart b := hap.forall (by simp [hc]) hb hbc
      have := hcr
      simp only [Serves, Apart, fin, hdrSize] at *
      omega

/-- **In every state of every run the free and the live blocks tile the
pages**, in order and coalesced, with every payload aligned, large enough
and clear of every other and of every header. And every call returns. -/
theorem heap_tiled {w : World} (h : machine.Reachable w) :
    (∃ free live, Tiled w free live) ∧
      (∀ sz supply, 1 ≤ sz → sz + 47 < addrTop → Fresh w.heap supply →
        expandPages (needTotal sz) ≤ supply.length → (kmalloc w.heap supply sz).isSome) ∧
      ∀ r ∈ w.live, (kfree w.heap r.1).isSome := by
  obtain ⟨free, live, hrep, hs⟩ := reachable_rep h
  refine ⟨⟨free, live, hrep.tiled hs⟩, fun sz supply h1 hlt hf hn => (kmalloc_spec hrep hf h1).2 (.inl hn), ?_⟩
  intro r hr
  obtain ⟨L₁, L₂, hl⟩ := List.append_of_mem hr
  obtain ⟨B₁, b, B₂, rfl, hb, -⟩ := exists_serving (hl ▸ hs)
  obtain ⟨s', hk, -⟩ := kfree_rep hrep
  rw [hb.1]
  exact Option.isSome_of_eq_some hk

/-- Four contiguous pages at 4096, for the heap's first call. -/
def firstPages : List ℕ := [4096, 8192, 12288, 16384]

theorem firstPages_fresh (m : Bytes) : Fresh ⟨m, 0, []⟩ firstPages := by
  refine ⟨fun p hp => ?_, by decide⟩
  simp only [firstPages, List.mem_cons, List.not_mem_nil, or_false] at hp
  rcases hp with rfl | rfl | rfl | rfl <;> exact ⟨by norm_num, by norm_num, by simp⟩

/-- After `init_heap` on four contiguous pages and a request for 100 bytes. -/
theorem heap_tiled_after_kmalloc :
    ∃ w : World, w.live = [(4128, 100)] ∧ ∃ free live, Tiled w free live := by
  obtain ⟨r, hr, hp⟩ := Option.map_eq_some_iff.mp
    (show ((initHeap (Bytes.const 0) firstPages).bind (kmalloc · [] 100)).map Prod.fst
      = some 4128 by decide +kernel)
  obtain ⟨s, hs, hr⟩ := Option.bind_eq_some_iff.mp hr
  have hinit : machine.Reachable ⟨s, []⟩ := .init ⟨rfl, _, _, firstPages_fresh _, hs⟩
  have hfresh : Fresh (⟨s, []⟩ : World).heap [] := ⟨by simp, .nil⟩
  have hstep := hinit.step (Step.malloc (by norm_num) (by norm_num) hfresh hr)
  exact ⟨_, by rw [hp]; rfl, (heap_tiled hstep).1⟩

end Heap

end Csos

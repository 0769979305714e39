import Csos.Common.Blocks
import Csos.Common.Links
import Csos.Heap.Model
/-!
# Kernel heap — the free list in memory

`ListRep m head l` says that the chain of headers from `head` is the list
of blocks `l`. Each function of `heap.c` that edits the chain is related
here to its edit of `l`: the two merges are both `Block.joinNext`
(`ListRep.merge`), `freelist_insert` is `Block.insert`
(`freelistInsert_spec`), `freelist_remove` takes a block out. Each result
carries its frame, the bytes it may have changed being those of the
headers on the chain.
-/

namespace Csos

namespace Heap

open Block

variable {m m' : Bytes} {a head x : ℕ} {b c d : Block} {l l₁ l₂ : List Block} {s s' : State}

/-- A C pointer, `0` being `NULL`. -/
def ptr (a : ℕ) : Option ℕ := if a = 0 then none else some a

@[simp] theorem ptr_zero : ptr 0 = none := rfl

theorem ptr_of_pos (h : 0 < a) : ptr a = some a := if_neg (by omega)

/-- The link of the chain. -/
def nextPtr (m : Bytes) (a : ℕ) : Option ℕ := ptr (nextFree m a)

/-- The address of the first block, or `NULL`. -/
def headAddr : List Block → ℕ
  | [] => 0
  | b :: _ => b.addr

/-- What every block satisfies: alignment, the minimal size, and an extent
inside the address space with the page at `NULL` left out. -/
structure Ok (b : Block) : Prop where
  addr_align : b.addr % 16 = 0
  size_align : b.size % 16 = 0
  min_size : 48 ≤ b.size
  addr_ge : pageSize ≤ b.addr
  fin_le : b.fin ≤ addrTop

theorem Ok.addr_pos (h : Ok b) : 0 < b.addr := lt_of_lt_of_le (by norm_num) h.addr_ge

/-- The header of `b` in memory, with its `used` word. -/
structure Hdr (m : Bytes) (b : Block) (u : ℕ) : Prop where
  size : size m b.addr = b.size
  magic : magic m b.addr = heapMagic
  used : used m b.addr = u

/-- The byte is outside every header of the list. -/
def OffHdr (l : List Block) (x : ℕ) : Prop := ∀ b ∈ l, x < b.addr ∨ b.addr + 32 ≤ x

/-- **The chain from `head` is `l`.** -/
structure ListRep (m : Bytes) (head : ℕ) (l : List Block) : Prop where
  linked : Linked (nextPtr m) (ptr head) (l.map addr)
  hdr : ∀ b ∈ l, Hdr m b 0
  sorted : l.Pairwise fun b c => b.fin ≤ c.addr
  ok : ∀ b ∈ l, Ok b

theorem ptr_headAddr (h : ∀ b ∈ l, Ok b) : ptr (headAddr l) = (l.map addr).head? := by
  cases l with
  | nil => rfl
  | cons b l => exact ptr_of_pos (h b (by simp)).addr_pos

theorem ptr_inj_headAddr (h : ∀ b ∈ l, Ok b) (hp : ptr a = (l.map addr).head?) :
    a = headAddr l := by
  cases l with
  | nil => simpa [ptr, headAddr] using hp
  | cons b l =>
    by_cases h0 : a = 0
    · rw [ptr, if_pos h0] at hp
      exact absurd hp (by simp)
    · rw [ptr, if_neg h0] at hp
      exact Option.some.inj hp

/-! ## Headers and the bytes under them -/

/-- The four fields are read from the 32 bytes of the header. -/
theorem fields_congr (h : ∀ i, i < 32 → m' (a + i) = m (a + i)) :
    size m' a = size m a ∧ magic m' a = magic m a ∧ used m' a = used m a ∧
      nextFree m' a = nextFree m a := by
  refine ⟨Bytes.load_congr fun i hi => h i (by omega),
    Bytes.load_congr fun i hi => ?_, Bytes.load_congr fun i hi => ?_,
    Bytes.load_congr fun i hi => ?_⟩
  · rw [Nat.add_assoc]; exact h (8 + i) (by omega)
  · rw [Nat.add_assoc]; exact h (12 + i) (by omega)
  · rw [Nat.add_assoc]; exact h (16 + i) (by omega)

theorem Hdr.congr {u : ℕ} (hb : Hdr m b u) (h : ∀ i, i < 32 → m' (b.addr + i) = m (b.addr + i)) :
    Hdr m' b u := by
  obtain ⟨h1, h2, h3, -⟩ := fields_congr h
  exact ⟨h1.trans hb.size, h2.trans hb.magic, h3.trans hb.used⟩

theorem nextPtr_congr (h : ∀ i, i < 32 → m' (a + i) = m (a + i)) : nextPtr m' a = nextPtr m a := by
  rw [nextPtr, nextPtr, (fields_congr h).2.2.2]

/-- A change outside the headers of the chain leaves the chain. -/
theorem ListRep.congr (h : ListRep m head l) (hm : ∀ x, ¬ OffHdr l x → m' x = m x) :
    ListRep m' head l := by
  have hb : ∀ b ∈ l, ∀ i, i < 32 → m' (b.addr + i) = m (b.addr + i) := by
    intro b hb i hi
    refine hm _ fun hoff => ?_
    have := hoff b hb
    omega
  refine ⟨h.linked.congr fun a ha => ?_, fun b hbl => (h.hdr b hbl).congr (hb b hbl), h.sorted, h.ok⟩
  obtain ⟨b, hbl, rfl⟩ := List.mem_map.mp ha
  exact nextPtr_congr (hb b hbl)

/-- Two blocks that do not overlap have separate headers. -/
theorem OffHdr_of_apart (hb : 48 ≤ b.size) (hl : ∀ c ∈ l, b.Apart c ∧ 48 ≤ c.size) {i : ℕ}
    (hi : i < 32) : OffHdr l (b.addr + i) := by
  intro c hc
  obtain ⟨hap, hcs⟩ := hl c hc
  simp only [Apart, fin] at hap
  omega

/-- The chain is no longer than the address space. -/
theorem ListRep.length_lt (h : ListRep m head l) : l.length < listFuel := by
  have hnd := h.linked.nodup
  have hsub : (l.map addr).toFinset ⊆ Finset.range addrTop := by
    intro a ha
    obtain ⟨b, hb, rfl⟩ := List.mem_map.mp (List.mem_toFinset.mp ha)
    have hok := h.ok b hb
    have h1 := hok.fin_le
    have h2 := hok.min_size
    simp only [fin] at h1
    exact Finset.mem_range.mpr (by omega)
  have hcard := Finset.card_le_card hsub
  rw [List.toFinset_card_of_nodup hnd, Finset.card_range, List.length_map] at hcard
  simp only [listFuel, addrTop] at *
  omega

/-! ## The merges -/

/-- The header fields after the three stores of a merge of `b` with the
block `c` that follows it. -/
theorem mergeNext_touch (hb : Ok b) (hc : Ok c) (hbs : size m b.addr = b.size)
    (hcs : size m c.addr = c.size) (ht : b.fin = c.addr) :
    let m' := mergeNext m b.addr c.addr
    size m' b.addr = b.size + c.size ∧ magic m' b.addr = magic m b.addr ∧
      used m' b.addr = used m b.addr ∧ nextFree m' b.addr = nextFree m c.addr ∧
      ∀ x, OffHdr [b, c] x → m' x = m x := by
  have h1 := hb.min_size
  have h2 := hc.min_size
  have h3 := hc.fin_le
  have h4 := hb.addr_pos
  have h5 := hc.addr_pos
  simp only [fin, addrTop] at ht h3
  have hcond : c.addr ≠ 0 ∧ (b.addr + size m b.addr) % addrTop = c.addr :=
    ⟨by omega, by rw [hbs, ht, Nat.mod_eq_of_lt (by simp only [addrTop]; omega)]⟩
  have hsum : (size m b.addr + size m c.addr) % addrTop = b.size + c.size := by
    rw [hbs, hcs, Nat.mod_eq_of_lt (by simp only [addrTop]; omega)]
  simp only [mergeNext, if_pos hcond, hsum]
  have hnext : nextFree (setSize m b.addr (b.size + c.size)) c.addr = nextFree m c.addr :=
    Bytes.load_store_of_disjoint (by omega)
  have hnlt : nextFree m c.addr < 256 ^ 8 := Bytes.load_lt _ _ _
  rw [hnext]
  simp only [size, magic, used, nextFree, setSize, setMagic, setNextFree] at hnlt ⊢
  refine ⟨?_, ?_, ?_, ?_, fun x hx => ?_⟩
  · rw [Bytes.load_store_of_disjoint (by omega), Bytes.load_store_of_disjoint (by omega),
      Bytes.load_store_self_of_lt (by omega)]
  · rw [Bytes.load_store_of_disjoint (by omega), Bytes.load_store_of_disjoint (by omega),
      Bytes.load_store_of_disjoint (by omega)]
  · rw [Bytes.load_store_of_disjoint (by omega), Bytes.load_store_of_disjoint (by omega),
      Bytes.load_store_of_disjoint (by omega)]
  · rw [Bytes.load_store_of_disjoint (by omega), Bytes.load_store_self_of_lt hnlt]
  · have hxb := hx b (by simp)
    have hxc := hx c (by simp)
    rw [Bytes.store_apply_of_notMem (by omega), Bytes.store_apply_of_notMem (by omega),
      Bytes.store_apply_of_notMem (by omega)]

theorem mergeNext_gap (hbs : size m b.addr = b.size) (hl : ∀ c ∈ l, Ok c)
    (hgap : ∀ c, l.head? = some c → b.fin < c.addr) :
    mergeNext m b.addr (headAddr l) = m := by
  refine if_neg fun ⟨h0, h⟩ => ?_
  cases l with
  | nil => exact h0 rfl
  | cons c l =>
    have h1 := hgap c rfl
    have h2 := (hl c (by simp)).fin_le
    simp only [fin, addrTop, headAddr, hbs] at h h1 h2
    rw [Nat.mod_eq_of_lt (by omega)] at h
    omega

/-- The header of a merged block is ok. -/
theorem Ok.join (hb : Ok b) (hc : Ok c) (ht : b.fin = c.addr) :
    Ok ⟨b.addr, b.size + c.size⟩ := by
  have h1 := hb.size_align
  have h2 := hc.size_align
  have h3 := hc.fin_le
  have h4 := hb.min_size
  simp only [fin] at ht h3
  exact ⟨hb.addr_align, by simp only; omega, by simp only; omega, hb.addr_ge, by simp only [fin]; omega⟩

/-- **A merge is `joinNext`.** The stores stay in the headers of the chain. -/
theorem ListRep.merge (h : ListRep m head (l₁ ++ b :: l₂)) :
    ListRep (mergeNext m b.addr (headAddr l₂)) head (l₁ ++ joinNext b l₂) ∧
      ∀ x, OffHdr (b :: l₂) x → mergeNext m b.addr (headAddr l₂) x = m x := by
  have hbok := h.ok b (by simp)
  have hbs := (h.hdr b (by simp)).size
  obtain ⟨hs₁, hs₂, hs₁₂⟩ := List.pairwise_append.mp h.sorted
  obtain ⟨hb₂, hs₂⟩ := List.pairwise_cons.mp hs₂
  by_cases ht : ∃ c l, l₂ = c :: l ∧ b.fin = c.addr
  · obtain ⟨c, l, rfl, ht⟩ := ht
    have hcok := h.ok c (by simp)
    obtain ⟨hc₂, hs₂'⟩ := List.pairwise_cons.mp hs₂
    obtain ⟨hsz, hmg, hus, hnx, hfr⟩ :=
      mergeNext_touch (m := m) hbok hcok hbs (h.hdr c (by simp)).size ht
    simp only [headAddr] at *
    set m' := mergeNext m b.addr c.addr with hm'
    -- the blocks before `b` and after `c` keep their headers
    have hother : ∀ d ∈ l₁ ++ l, ∀ i, i < 32 → m' (d.addr + i) = m (d.addr + i) := by
      intro d hd i hi
      have hdok : Ok d := h.ok d (by
        rcases List.mem_append.mp hd with hd | hd <;> simp [hd])
      refine hfr _ (OffHdr_of_apart hdok.min_size (fun e he => ⟨?_, ?_⟩) hi)
      · have he : e = b ∨ e = c := by simpa using he
        rcases List.mem_append.mp hd with hd | hd
        · exact .inl (hs₁₂ d hd e (by rcases he with rfl | rfl <;> simp))
        · rcases he with rfl | rfl
          · exact .inr (hb₂ d (by simp [hd]))
          · exact .inr (hc₂ d hd)
      · have he : e = b ∨ e = c := by simpa using he
        rcases he with rfl | rfl
        · exact hbok.min_size
        · exact hcok.min_size
    rw [joinNext, if_pos ht]
    have hframe : ∀ x, OffHdr (b :: c :: l) x → m' x = m x := by
      intro x hx
      refine hfr x (List.forall_mem_cons.mpr ⟨hx b (by simp), ?_⟩)
      exact List.forall_mem_singleton.mpr (hx c (by simp))
    refine ⟨⟨?_, ?_, ?_, ?_⟩, hframe⟩
    · have hl := h.linked
      simp only [List.map_append, List.map_cons] at hl ⊢
      obtain ⟨q, hq, rfl, -, hl⟩ := linked_append.mp hl
      refine linked_append.mpr ⟨_, hq.congr fun a ha => ?_, rfl, ?_⟩
      · obtain ⟨d, hd, rfl⟩ := List.mem_map.mp ha
        exact nextPtr_congr (hother d (by simp [hd]))
      · have hnb : nextPtr m' b.addr = nextPtr m c.addr := by rw [nextPtr, nextPtr, hnx]
        rw [hnb]
        refine hl.congr fun a ha => ?_
        obtain ⟨d, hd, rfl⟩ := List.mem_map.mp ha
        exact nextPtr_congr (hother d (by simp [hd]))
    · intro d hd
      rcases List.mem_append.mp hd with hd | hd
      · exact (h.hdr d (by simp [hd])).congr (hother d (by simp [hd]))
      · rcases List.mem_cons.mp hd with rfl | hd
        · exact ⟨hsz, hmg.trans (h.hdr b (by simp)).magic, hus.trans (h.hdr b (by simp)).used⟩
        · exact (h.hdr d (by simp [hd])).congr (hother d (by simp [hd]))
    · refine List.pairwise_append.mpr ⟨hs₁, List.pairwise_cons.mpr ⟨fun d hd => ?_, hs₂'⟩,
        fun d hd e he => ?_⟩
      · have := hc₂ d hd
        simp only [fin] at *
        omega
      · rcases List.mem_cons.mp he with rfl | he
        · exact hs₁₂ d hd b (by simp)
        · exact hs₁₂ d hd e (by simp [he])
    · intro d hd
      rcases List.mem_append.mp hd with hd | hd
      · exact h.ok d (by simp [hd])
      · rcases List.mem_cons.mp hd with rfl | hd
        · exact hbok.join hcok ht
        · exact h.ok d (by simp [hd])
  · -- nothing touches: neither the memory nor the list changes
    have hgap : ∀ c, l₂.head? = some c → b.fin < c.addr := by
      intro c hc
      obtain ⟨l, rfl⟩ := List.head?_eq_some_iff.mp hc
      exact lt_of_le_of_ne (hb₂ c (by simp)) fun e => ht ⟨c, l, rfl, e⟩
    have hm := mergeNext_gap (m := m) hbs (fun c hc => h.ok c (by simp [hc])) hgap
    have hj : joinNext b l₂ = b :: l₂ := by
      cases l₂ with
      | nil => rfl
      | cons c l => exact if_neg fun e => ht ⟨c, l, rfl, e⟩
    rw [hm, hj]
    exact ⟨h, fun _ _ => rfl⟩

/-! ## Setting a link -/

theorem Hdr.store_next {u v : ℕ} (h : Hdr m b u) : Hdr (setNextFree m b.addr v) b u :=
  ⟨(Bytes.load_store_of_disjoint (by omega)).trans h.size,
    (Bytes.load_store_of_disjoint (by omega)).trans h.magic,
    (Bytes.load_store_of_disjoint (by omega)).trans h.used⟩

theorem nextPtr_setNextFree {v : ℕ} (hv : v < addrTop) : nextPtr (setNextFree m a v) a = ptr v := by
  have h : v < 256 ^ 8 := by simp only [addrTop] at hv; omega
  rw [nextPtr, nextFree, setNextFree, Bytes.load_store_self_of_lt h]

/-- Storing a link of `b` changes nothing under the header of a block
apart from it. -/
theorem setNextFree_off {v : ℕ} (hx : x < a ∨ a + 32 ≤ x) : setNextFree m a v x = m x :=
  Bytes.store_apply_of_notMem (by omega)

theorem setNextFree_apart {v : ℕ} (hb : 48 ≤ b.size) (hc : 48 ≤ c.size) (hap : b.Apart c) :
    ∀ i, i < 32 → setNextFree m b.addr v (c.addr + i) = m (c.addr + i) := by
  intro i hi
  refine setNextFree_off ?_
  simp only [Apart, fin] at hap
  omega

theorem ListRep.store_next {v : ℕ} (h : ListRep m head l) (hb : 48 ≤ b.size)
    (hl : ∀ c ∈ l, b.Apart c) : ListRep (setNextFree m b.addr v) head l := by
  have hc : ∀ c ∈ l, ∀ i, i < 32 → setNextFree m b.addr v (c.addr + i) = m (c.addr + i) :=
    fun c hc => setNextFree_apart hb (h.ok c hc).min_size (hl c hc)
  refine ⟨h.linked.congr fun a ha => ?_, fun c hcl => (h.hdr c hcl).congr (hc c hcl), h.sorted, h.ok⟩
  obtain ⟨c, hcl, rfl⟩ := List.mem_map.mp ha
  exact nextPtr_congr (hc c hcl)

theorem Ok.addr_lt (h : Ok b) : b.addr < addrTop := by
  have h1 := h.fin_le
  have h2 := h.min_size
  simp only [fin] at h1
  omega

theorem headAddr_lt (h : ∀ b ∈ l, Ok b) : headAddr l < addrTop := by
  cases l with
  | nil => simp [headAddr]
  | cons b l => exact (h b (by simp)).addr_lt

/-- The last address of the list, or `p` if it is empty: where the `prev`
of a scan ends. -/
def lastAddr : ℕ → List Block → ℕ
  | p, [] => p
  | _, b :: l => lastAddr b.addr l

theorem lastAddr_append_singleton (p : ℕ) : lastAddr p (l ++ [d]) = d.addr := by
  induction l generalizing p with
  | nil => rfl
  | cons c l ih => exact ih c.addr

/-- **Threading `b` into the chain** between `l₁` and `l₂`. -/
theorem ListRep.link (h : ListRep m head (l₁ ++ l₂)) (hb : Hdr m b 0) (hok : Ok b)
    (h₁ : ∀ c ∈ l₁, c.fin ≤ b.addr) (h₂ : ∀ c ∈ l₂, b.fin ≤ c.addr) :
    let m₁ := if lastAddr 0 l₁ = 0 then m else setNextFree m (lastAddr 0 l₁) b.addr
    let m₂ := setNextFree m₁ b.addr (headAddr l₂)
    ListRep m₂ (if lastAddr 0 l₁ = 0 then b.addr else head) (l₁ ++ b :: l₂) ∧
      ∀ x, OffHdr (l₁ ++ b :: l₂) x → m₂ x = m x := by
  intro m₁ m₂
  have hmem : ∀ c ∈ l₁ ++ l₂, Ok c ∧ b.Apart c := by
    intro c hc
    refine ⟨h.ok c hc, ?_⟩
    rcases List.mem_append.mp hc with hc | hc
    · exact .inr (h₁ c hc)
    · exact .inl (h₂ c hc)
  have hok₂ : ∀ c ∈ l₂, Ok c := fun c hc => (hmem c (by simp [hc])).1
  have hsorted : (l₁ ++ b :: l₂).Pairwise fun b c => b.fin ≤ c.addr := by
    obtain ⟨hs₁, hs₂, hs₁₂⟩ := List.pairwise_append.mp h.sorted
    refine List.pairwise_append.mpr ⟨hs₁, List.pairwise_cons.mpr ⟨h₂, hs₂⟩, fun c hc e he => ?_⟩
    rcases List.mem_cons.mp he with rfl | he
    · exact h₁ c hc
    · exact hs₁₂ c hc e he
  have hokall : ∀ c ∈ l₁ ++ b :: l₂, Ok c := by
    intro c hc
    rcases List.mem_append.mp hc with hc | hc
    · exact h.ok c (by simp [hc])
    · rcases List.mem_cons.mp hc with rfl | hc
      · exact hok
      · exact h.ok c (by simp [hc])
  have hnb : nextPtr m₂ b.addr = (l₂.map addr).head? := by
    rw [nextPtr_setNextFree (headAddr_lt hok₂), ptr_headAddr hok₂]
  have hlast : ∀ {q}, Linked (nextPtr m) q (l₂.map addr) → q = (l₂.map addr).head? :=
    fun hq => hq.head?_eq
  rcases List.eq_nil_or_concat' l₁ with rfl | ⟨l, d, rfl⟩
  · -- `b` becomes the head
    have hm₁ : m₁ = m := if_pos rfl
    have hrep : ListRep m₂ head l₂ := by
      simp only [m₂, hm₁]
      exact ListRep.store_next h hok.min_size fun c hc => (hmem c hc).2
    refine ⟨⟨?_, ?_, hsorted, hokall⟩, fun x hx => ?_⟩
    · refine ⟨by simp only [lastAddr, if_pos]; exact ptr_of_pos hok.addr_pos, ?_⟩
      rw [hnb, ← hlast h.linked]
      exact hrep.linked
    · refine List.forall_mem_cons.mpr ⟨?_, hrep.hdr⟩
      simp only [m₂, hm₁]
      exact hb.store_next
    · simp only [m₂, hm₁]
      exact setNextFree_off (hx b (by simp))
  · -- the last block below `b` is redirected to it
    have hdok : Ok d := h.ok d (by simp)
    have hprev : lastAddr 0 (l ++ [d]) = d.addr := lastAddr_append_singleton 0
    have hd0 : d.addr ≠ 0 := by have := hdok.addr_pos; omega
    have hm₁ : m₁ = setNextFree m d.addr b.addr := by simp only [m₁, hprev, if_neg hd0]
    have hbd : b.Apart d := (hmem d (by simp)).2
    have hdl : ∀ c ∈ l ++ l₂, d.Apart c := by
      intro c hc
      have hs := h.sorted
      rw [List.append_assoc] at hs
      obtain ⟨-, hs₂, hs₁₂⟩ := List.pairwise_append.mp hs
      rcases List.mem_append.mp hc with hc | hc
      · exact .inr (hs₁₂ c hc d (by simp))
      · exact .inl ((List.pairwise_cons.mp hs₂).1 c hc)
    have hother : ∀ c ∈ l ++ l₂, ∀ i, i < 32 → m₂ (c.addr + i) = m (c.addr + i) := by
      intro c hc i hi
      have hcm : c ∈ l ++ [d] ++ l₂ := by
        rcases List.mem_append.mp hc with hc | hc <;> simp [hc]
      obtain ⟨hcok, hbc⟩ := hmem c hcm
      simp only [m₂, hm₁]
      rw [setNextFree_apart hok.min_size hcok.min_size hbc i hi,
        setNextFree_apart hdok.min_size hcok.min_size (hdl c hc) i hi]
    have hdm₂ : ∀ i, i < 32 → m₂ (d.addr + i) = m₁ (d.addr + i) :=
      setNextFree_apart hok.min_size hdok.min_size hbd
    have hbm₁ : ∀ i, i < 32 → m₁ (b.addr + i) = m (b.addr + i) := by
      rw [hm₁]
      exact setNextFree_apart hdok.min_size hok.min_size hbd.symm
    refine ⟨⟨?_, ?_, hsorted, hokall⟩, fun x hx => ?_⟩
    · rw [hprev, if_neg hd0]
      have hl := h.linked
      simp only [List.map_append, List.map_cons, List.append_assoc, List.singleton_append] at hl ⊢
      obtain ⟨q, hq, rfl, hl⟩ := linked_append.mp hl
      have hnd : nextPtr m₂ d.addr = some b.addr := by
        rw [nextPtr_congr hdm₂, hm₁, nextPtr_setNextFree hok.addr_lt, ptr_of_pos hok.addr_pos]
      refine linked_append.mpr ⟨_, hq.congr fun a ha => ?_, rfl, hnd, ?_⟩
      · obtain ⟨c, hc, rfl⟩ := List.mem_map.mp ha
        exact nextPtr_congr (hother c (by simp [hc]))
      · rw [hnb, ← hlast hl]
        refine hl.congr fun a ha => ?_
        obtain ⟨c, hc, rfl⟩ := List.mem_map.mp ha
        exact nextPtr_congr (hother c (by simp [hc]))
    · intro c hc
      have hcases : c ∈ l ++ l₂ ∨ c = d ∨ c = b := by
        simp only [List.mem_append, List.mem_cons, List.not_mem_nil, or_false] at hc ⊢
        rcases hc with (hc | hc) | hc | hc <;> simp [hc]
      rcases hcases with hc | rfl | rfl
      · refine (h.hdr c ?_).congr (hother c hc)
        rcases List.mem_append.mp hc with hc | hc <;> simp [hc]
      · refine Hdr.congr ?_ hdm₂
        rw [hm₁]
        exact (h.hdr c (by simp)).store_next
      · exact (hb.congr hbm₁).store_next
    · simp only [m₂, hm₁]
      rw [setNextFree_off (hx b (by simp)), setNextFree_off (hx d (by simp))]

/-! ## `freelist_insert` -/

/-- The scan stops between the blocks below `b` and the others. -/
theorem insertScan_spec {block p fuel : ℕ} (hl : Linked (nextPtr m) (ptr a) ((l₁ ++ l₂).map addr))
    (hok : ∀ c ∈ l₁ ++ l₂, Ok c) (h₁ : ∀ c ∈ l₁, c.addr < block)
    (h₂ : ∀ c, l₂.head? = some c → ¬ c.addr < block) (hf : l₁.length < fuel) :
    insertScan m block fuel p a = some (lastAddr p l₁, headAddr l₂) := by
  induction l₁ generalizing p a fuel with
  | nil =>
    obtain ⟨fuel, rfl⟩ : ∃ k, fuel = k + 1 := ⟨fuel - 1, by simp only [List.length_nil] at hf; omega⟩
    have ha : a = headAddr l₂ := ptr_inj_headAddr hok hl.head?_eq
    rw [insertScan, if_neg, ha]
    · rfl
    · rintro ⟨h0, hlt⟩
      cases l₂ with
      | nil => exact h0 ha
      | cons c l₂ => exact h₂ c rfl (lt_of_eq_of_lt ha.symm hlt)
  | cons c l₁ ih =>
    obtain ⟨fuel, rfl⟩ : ∃ k, fuel = k + 1 := ⟨fuel - 1, by omega⟩
    have ha : a = c.addr := ptr_inj_headAddr hok hl.head?_eq
    have hc := h₁ c (by simp)
    have hpos := (hok c (by simp)).addr_pos
    rw [insertScan, if_pos (by omega)]
    have hl' : Linked (nextPtr m) (ptr (nextFree m a)) ((l₁ ++ l₂).map addr) := by
      rw [ha]
      exact hl.2
    have hfuel : l₁.length < fuel := by
      rw [List.length_cons] at hf
      omega
    have := ih (p := a) hl'
      (fun e he => hok e (by simp only [List.cons_append]; exact .tail _ he))
      (fun e he => h₁ e (.tail _ he)) hfuel
    rw [this, ha]
    rfl

theorem headAddr_joinNext : headAddr (joinNext b l) = b.addr := by
  cases l with
  | nil => rfl
  | cons c l =>
    rw [joinNext]
    split <;> rfl

/-- A merge leaves no header where there was none. -/
theorem OffHdr.joinNext (h : OffHdr (b :: l) x) : OffHdr (joinNext b l) x := by
  cases l with
  | nil => exact h
  | cons c l =>
    rw [Block.joinNext]
    split
    · refine List.forall_mem_cons.mpr ⟨h b (by simp), fun d hd => h d (by simp [hd])⟩
    · exact h

theorem mergePrev_eq_mergeNext (hd : 0 < d.addr) (hb : 0 < b.addr) :
    mergePrev m d.addr b.addr = mergeNext m d.addr b.addr := by
  have hd0 : d.addr ≠ 0 := by omega
  have hb0 : b.addr ≠ 0 := by omega
  simp only [mergePrev, mergeNext, ne_eq, hd0, hb0, not_false_eq_true, true_and]

/-- The list cut at the first block not below `b`. -/
theorem exists_cut (hs : l.Pairwise fun b c => b.fin ≤ c.addr) (x : ℕ) :
    ∃ l₁ l₂, l = l₁ ++ l₂ ∧ (∀ c ∈ l₁, c.addr < x) ∧ ∀ c ∈ l₂, ¬ c.addr < x := by
  induction l with
  | nil => exact ⟨[], [], rfl, by simp, by simp⟩
  | cons c l ih =>
    obtain ⟨hc, hs⟩ := List.pairwise_cons.mp hs
    by_cases hcx : c.addr < x
    · obtain ⟨l₁, l₂, rfl, h1, h2⟩ := ih hs
      exact ⟨c :: l₁, l₂, rfl, List.forall_mem_cons.mpr ⟨hcx, h1⟩, h2⟩
    · refine ⟨[], c :: l, rfl, by simp, List.forall_mem_cons.mpr ⟨hcx, fun d hd => ?_⟩⟩
      have := hc d hd
      simp only [fin] at this
      omega

/-- **`freelist_insert` is `Block.insert`.** It returns, the chain is the
list with the block merged in, and it has written headers only. -/
theorem freelistInsert_spec {u : ℕ} (h : ListRep s.mem s.freeHead l) (hl : Coalesced l)
    (hb : Hdr s.mem b u) (hok : Ok b) (hap : ∀ c ∈ l, b.Apart c) :
    ∃ s', freelistInsert s b.addr = some s' ∧ s'.pages = s.pages ∧
      ListRep s'.mem s'.freeHead (b.insert l) ∧ Coalesced (b.insert l) ∧
      ∀ x, OffHdr (b :: l) x → s'.mem x = s.mem x := by
  have hpos : ∀ c ∈ l, 0 < c.size := fun c hc => by have := (h.ok c hc).min_size; omega
  obtain ⟨l₁, l₂, rfl, h₁, h₂⟩ := exists_cut h.sorted b.addr
  have hfin₁ : ∀ c ∈ l₁, c.fin ≤ b.addr := by
    intro c hc
    have := h₁ c hc
    have := hok.min_size
    have := hap c (by simp [hc])
    simp only [Apart, fin] at *
    omega
  have hfin₂ : ∀ c ∈ l₂, b.fin ≤ c.addr := by
    intro c hc
    have := h₂ c hc
    have := (h.ok c (by simp [hc])).min_size
    have := hap c (by simp [hc])
    simp only [Apart, fin] at *
    omega
  -- the two stores before the scan
  have hm₂off : ∀ x, x < b.addr ∨ b.addr + 32 ≤ x →
      setNextFree (setUsed s.mem b.addr 0) b.addr 0 x = s.mem x := fun x hx => by
    rw [setNextFree_off hx]
    exact Bytes.store_apply_of_notMem (by omega)
  have hm₂b : Hdr (setNextFree (setUsed s.mem b.addr 0) b.addr 0) b 0 := by
    refine Hdr.store_next ⟨?_, ?_, ?_⟩
    · exact (Bytes.load_store_of_disjoint (by omega)).trans hb.size
    · exact (Bytes.load_store_of_disjoint (by omega)).trans hb.magic
    · exact Bytes.load_store_self_of_lt (by omega)
  have hrep₂ : ListRep (setNextFree (setUsed s.mem b.addr 0) b.addr 0) s.freeHead (l₁ ++ l₂) := by
    refine h.congr fun x hx => hm₂off x ?_
    by_contra hxb
    obtain ⟨i, hi, rfl⟩ : ∃ i, i < 32 ∧ x = b.addr + i := ⟨x - b.addr, by omega, by omega⟩
    exact hx (OffHdr_of_apart hok.min_size
      (fun c hc => ⟨hap c hc, (h.ok c hc).min_size⟩) hi)
  generalize hm₂ : setNextFree (setUsed s.mem b.addr 0) b.addr 0 = m₂ at *
  have hscan : insertScan m₂ b.addr listFuel 0 s.freeHead = some (lastAddr 0 l₁, headAddr l₂) :=
    insertScan_spec hrep₂.linked hrep₂.ok h₁ (fun c hc => h₂ c (List.mem_of_mem_head? hc)) (by
      have := hrep₂.length_lt
      simp only [List.length_append] at this
      omega)
  obtain ⟨hrep₄, hoff₄⟩ := hrep₂.link hm₂b hok hfin₁ hfin₂
  obtain ⟨hrep₅, hoff₅⟩ := hrep₄.merge
  simp only [freelistInsert, hm₂, hscan]
  -- everything but the last merge writes headers only
  generalize setNextFree (if lastAddr 0 l₁ = 0 then m₂
    else setNextFree m₂ (lastAddr 0 l₁) b.addr) b.addr (headAddr l₂) = m₄ at *
  generalize mergeNext m₄ b.addr (headAddr l₂) = m₅ at *
  have hoff : ∀ x, OffHdr (b :: (l₁ ++ l₂)) x → m₅ x = s.mem x := by
    intro x hx
    have hx₂ : OffHdr (b :: l₂) x :=
      List.forall_mem_cons.mpr ⟨hx b (by simp), fun c hc => hx c (by simp [hc])⟩
    have hx₁₂ : OffHdr (l₁ ++ b :: l₂) x := by
      intro c hc
      refine hx c ?_
      simp only [List.mem_append, List.mem_cons] at hc ⊢
      tauto
    rw [hoff₅ x hx₂, hoff₄ x hx₁₂]
    exact hm₂off x (hx b (by simp))
  have hcoal := hl.insert hap hpos
  rcases List.eq_nil_or_concat' l₁ with rfl | ⟨l, d, rfl⟩
  · rw [List.nil_append, insert_of_forall_ge h₂] at hcoal
    rw [List.nil_append, insert_of_forall_ge h₂,
      show mergePrev _ (lastAddr 0 []) b.addr = _ from if_neg (by simp [lastAddr])]
    exact ⟨_, rfl, rfl, hrep₅, hcoal, hoff⟩
  · have hdpos := (h.ok d (by simp)).addr_pos
    have hgap : ∀ c ∈ l, c.fin < d.addr := by
      have := (List.pairwise_append.mp hl).1
      exact fun c hc => (List.pairwise_append.mp this).2.2 c hc d (by simp)
    rw [List.append_assoc, List.singleton_append] at hrep₅
    obtain ⟨hrep₆, hoff₆⟩ := hrep₅.merge
    rw [headAddr_joinNext, ← mergePrev_eq_mergeNext hdpos hok.addr_pos] at hrep₆ hoff₆
    rw [lastAddr_append_singleton] at hrep₆ ⊢
    refine ⟨_, rfl, rfl, ?_, hcoal, fun x hx => (hoff₆ x ?_).trans (hoff x hx)⟩
    · rw [List.append_assoc, List.singleton_append, insert_append hgap (h₁ d (by simp)) h₂]
      exact hrep₆
    · refine List.forall_mem_cons.mpr ⟨hx d (by simp), OffHdr.joinNext ?_⟩
      exact List.forall_mem_cons.mpr ⟨hx b (by simp), fun c hc => hx c (by simp [hc])⟩

/-! ## `freelist_remove` and `freelist_find_fit` -/

theorem removeScan_spec {p fuel : ℕ}
    (hl : Linked (nextPtr m) (ptr a) ((l₁ ++ b :: l₂).map addr))
    (hok : ∀ c ∈ l₁ ++ b :: l₂, Ok c) (h₁ : ∀ c ∈ l₁, c.addr ≠ b.addr) (hf : l₁.length < fuel) :
    removeScan m b.addr fuel p a = some (lastAddr p l₁, b.addr) := by
  induction l₁ generalizing p a fuel with
  | nil =>
    obtain ⟨fuel, rfl⟩ : ∃ k, fuel = k + 1 := ⟨fuel - 1, by simp only [List.length_nil] at hf; omega⟩
    have ha : a = b.addr := ptr_inj_headAddr hok hl.head?_eq
    rw [removeScan, if_neg (by simp [ha]), ha]
    rfl
  | cons c l₁ ih =>
    obtain ⟨fuel, rfl⟩ : ∃ k, fuel = k + 1 := ⟨fuel - 1, by omega⟩
    have ha : a = c.addr := ptr_inj_headAddr hok hl.head?_eq
    have hc := h₁ c (by simp)
    have hpos := (hok c (by simp)).addr_pos
    rw [removeScan, if_pos (by omega)]
    have hl' : Linked (nextPtr m) (ptr (nextFree m a)) ((l₁ ++ b :: l₂).map addr) := by
      rw [ha]
      exact hl.2
    have hfuel : l₁.length < fuel := by
      rw [List.length_cons] at hf
      omega
    have := ih (p := a) hl'
      (fun e he => hok e (by simp only [List.cons_append]; exact .tail _ he))
      (fun e he => h₁ e (.tail _ he)) hfuel
    rw [this, ha]
    rfl

/-- The link stored in a block of the chain. -/
theorem ListRep.nextFree_eq (h : ListRep m head (l₁ ++ b :: l₂)) :
    nextFree m b.addr = headAddr l₂ := by
  refine ptr_inj_headAddr (fun c hc => h.ok c (by simp [hc])) ?_
  have := h.linked
  simp only [List.map_append, List.map_cons] at this
  exact this.next_eq_head

/-- **`freelist_remove` takes the block out of the chain**, with its
header as it was. -/
theorem freelistRemove_spec (h : ListRep s.mem s.freeHead (l₁ ++ b :: l₂)) :
    ∃ s', freelistRemove s b.addr = some s' ∧ s'.pages = s.pages ∧
      ListRep s'.mem s'.freeHead (l₁ ++ l₂) ∧ Hdr s'.mem b 0 ∧
      ∀ x, OffHdr (l₁ ++ b :: l₂) x → s'.mem x = s.mem x := by
  have hbok := h.ok b (by simp)
  obtain ⟨hs₁, hs₂, hs₁₂⟩ := List.pairwise_append.mp h.sorted
  obtain ⟨hb₂, hs₂'⟩ := List.pairwise_cons.mp hs₂
  have hapart : ∀ c ∈ l₁ ++ l₂, b.Apart c := by
    intro c hc
    rcases List.mem_append.mp hc with hc | hc
    · exact .inr (hs₁₂ c hc b (by simp))
    · exact .inl (hb₂ c hc)
  have hok' : ∀ c ∈ l₁ ++ l₂, Ok c := by
    intro c hc
    refine h.ok c ?_
    rcases List.mem_append.mp hc with hc | hc <;> simp [hc]
  have hok₂ : ∀ c ∈ l₂, Ok c := fun c hc => hok' c (by simp [hc])
  have hne : ∀ c ∈ l₁, c.addr ≠ b.addr := by
    intro c hc
    have h1 := hs₁₂ c hc b (by simp)
    have h2 := (h.ok c (by simp [hc])).min_size
    simp only [fin] at h1
    omega
  have hscan : removeScan s.mem b.addr listFuel 0 s.freeHead = some (lastAddr 0 l₁, b.addr) :=
    removeScan_spec h.linked h.ok hne (by
      have := h.length_lt
      simp only [List.length_append] at this
      omega)
  have hb0 : b.addr ≠ 0 := by have := hbok.addr_pos; omega
  have hsorted : (l₁ ++ l₂).Pairwise fun b c => b.fin ≤ c.addr :=
    List.pairwise_append.mpr ⟨hs₁, hs₂', fun c hc e he => hs₁₂ c hc e (by simp [he])⟩
  simp only [freelistRemove, hscan, if_neg hb0, h.nextFree_eq]
  rcases List.eq_nil_or_concat' l₁ with rfl | ⟨l, d, rfl⟩
  · refine ⟨_, rfl, rfl, ?_, ?_, fun x hx => ?_⟩
    · -- the second block becomes the head
      have hrep : ListRep s.mem (headAddr l₂) l₂ :=
        ⟨by rw [ptr_headAddr hok₂, ← Linked.head?_eq h.linked.2]
            exact h.linked.2, fun c hc => h.hdr c (by simp [hc]), hs₂', hok₂⟩
      simpa [lastAddr] using hrep.store_next hbok.min_size (b := b) hapart
    · simpa [lastAddr] using (h.hdr b (by simp)).store_next
    · simpa [lastAddr] using setNextFree_off (hx b (by simp))
  · have hdok : Ok d := h.ok d (by simp)
    have hd0 : d.addr ≠ 0 := by have := hdok.addr_pos; omega
    have hdb : d.Apart b := .inl (hs₁₂ d (by simp) b (by simp))
    have hdl : ∀ c ∈ l ++ l₂, d.Apart c := by
      intro c hc
      rcases List.mem_append.mp hc with hc | hc
      · exact .inr ((List.pairwise_append.mp hs₁).2.2 c hc d (by simp))
      · exact .inl (hs₁₂ d (by simp) c (by simp [hc]))
    have hother : ∀ c ∈ l ++ l₂, ∀ i, i < 32 →
        setNextFree s.mem d.addr (headAddr l₂) (c.addr + i) = s.mem (c.addr + i) := by
      intro c hc
      refine setNextFree_apart hdok.min_size (hok' c ?_).min_size (hdl c hc)
      rcases List.mem_append.mp hc with hc | hc <;> simp [hc]
    simp only [lastAddr_append_singleton, if_neg hd0]
    refine ⟨_, rfl, rfl, ?_, ?_, fun x hx => ?_⟩
    · -- the block before `b` is redirected past it
      refine ListRep.store_next ⟨?_, ?_, hsorted, hok'⟩ hbok.min_size hapart
      · have hl := h.linked
        simp only [List.map_append, List.map_cons, List.append_assoc, List.singleton_append]
          at hl ⊢
        obtain ⟨q, hq, rfl, -, hl⟩ := linked_append.mp hl
        refine linked_append.mpr ⟨_, hq.congr fun a ha => ?_, rfl, ?_⟩
        · obtain ⟨c, hc, rfl⟩ := List.mem_map.mp ha
          exact nextPtr_congr (hother c (by simp [hc]))
        · rw [nextPtr_setNextFree (headAddr_lt hok₂), ptr_headAddr hok₂, ← Linked.head?_eq hl]
          refine hl.congr fun a ha => ?_
          obtain ⟨c, hc, rfl⟩ := List.mem_map.mp ha
          exact nextPtr_congr (hother c (by simp [hc]))
      · intro c hc
        have hcases : c ∈ l ++ l₂ ∨ c = d := by
          simp only [List.mem_append, List.mem_cons, List.not_mem_nil, or_false] at hc ⊢
          tauto
        rcases hcases with hc | rfl
        · refine (h.hdr c ?_).congr (hother c hc)
          rcases List.mem_append.mp hc with hc | hc <;> simp [hc]
        · exact (h.hdr c (by simp)).store_next
    · exact ((h.hdr b (by simp)).congr
        (setNextFree_apart hdok.min_size hbok.min_size hdb)).store_next
    · exact (setNextFree_off (hx b (by simp))).trans (setNextFree_off (hx d (by simp)))

/-- **`freelist_find_fit` finds a block of the chain that is large
enough**, or reports that there is none. -/
theorem freelistFindFit_spec (h : ListRep s.mem s.freeHead l) (need : ℕ) :
    (freelistFindFit s need = some 0 ∧ ∀ b ∈ l, b.size < need) ∨
      ∃ b ∈ l, freelistFindFit s need = some b.addr ∧ need ≤ b.size := by
  have key : ∀ (l : List Block) (fuel a : ℕ), l.length < fuel → (∀ b ∈ l, Hdr s.mem b 0 ∧ Ok b) →
      Linked (nextPtr s.mem) (ptr a) (l.map addr) →
      (findFitLoop s.mem need fuel a = some 0 ∧ ∀ b ∈ l, b.size < need) ∨
        ∃ b ∈ l, findFitLoop s.mem need fuel a = some b.addr ∧ need ≤ b.size := by
    intro l
    induction l with
    | nil =>
      intro fuel a hf hl hlink
      obtain ⟨fuel, rfl⟩ : ∃ k, fuel = k + 1 :=
        ⟨fuel - 1, by simp only [List.length_nil] at hf; omega⟩
      have ha : a = 0 := ptr_inj_headAddr (l := []) (by simp) hlink.head?_eq
      exact .inl ⟨by rw [findFitLoop, if_pos ha], by simp⟩
    | cons b l ih =>
      intro fuel a hf hl hlink
      obtain ⟨fuel, rfl⟩ : ∃ k, fuel = k + 1 := ⟨fuel - 1, by omega⟩
      obtain ⟨hhdr, hok⟩ := hl b (by simp)
      have ha : a = b.addr := ptr_inj_headAddr (l := b :: l) (fun c hc => (hl c hc).2)
        hlink.head?_eq
      have ha0 : a ≠ 0 := by have := hok.addr_pos; omega
      rw [findFitLoop, if_neg ha0]
      by_cases hfit : need ≤ b.size
      · rw [if_pos (by rw [ha, hhdr.used, hhdr.size]; exact ⟨rfl, hfit⟩)]
        exact .inr ⟨b, by simp, by rw [ha], hfit⟩
      · rw [if_neg (by rw [ha, hhdr.size]; exact fun h => hfit h.2)]
        have hlink' : Linked (nextPtr s.mem) (ptr (nextFree s.mem a)) (l.map addr) := by
          rw [ha]
          exact hlink.2
        rcases ih fuel _ (by simp only [List.length_cons] at hf; omega)
          (fun c hc => hl c (by simp [hc])) hlink' with ⟨h1, h2⟩ | ⟨c, hc, h1, h2⟩
        · exact .inl ⟨h1, List.forall_mem_cons.mpr ⟨by omega, h2⟩⟩
        · exact .inr ⟨c, by simp [hc], h1, h2⟩
  exact key l listFuel s.freeHead h.length_lt (fun b hb => ⟨h.hdr b hb, h.ok b hb⟩) h.linked

end Heap

end Csos

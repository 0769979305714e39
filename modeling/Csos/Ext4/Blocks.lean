import Csos.Ext4.Leaf
/-!
# ext4 — the mapping as a function

What `ext4_map` returns for a block depends on the image, the inode and the
block only: neither on what `scratch` holds before, though the walk reads nodes
from it, nor on the calls before. `mapAt` is that function; it is total, on any
tree the image may hold.
-/

namespace Csos

namespace Ext4

open Vfs Checked

/-- What `indexLoop` returns. -/
def indexFind (m : Bytes) (lb : ℕ) : ℕ → ℕ → Option ℕ → Option ℕ
  | 0, _, best => best
  | n + 1, e, best => if m.load 4 e ≤ lb then indexFind m lb n (e + 12) (some e) else best

/-- What a node of `nodeLen` bytes says. -/
def stepAt (m : Bytes) (nodeLen lb depthLeft : ℕ) : Step :=
  if nodeLen < 12 then .done (.error errInval)
  else if m.load 2 0 ≠ ehMagic then .done (.error errInval)
  else if m.load 2 4 < ehEntries m ∨ nodeLen < m.load 2 4 * 12 + 12 then .done (.error errInval)
  else if m.load 2 6 = 0 then .done (leafFind (leafExtents m) lb)
  else if depthLeft = 0 ∨ maxDepth < m.load 2 6 then .done (.error errInval)
  else match indexFind m lb (ehEntries m) 12 none with
    | none => .done (.error errNoent)
    | some best => .child (m.load 4 (best + 4) + m.load 2 (best + 6) * 2 ^ 32)

section

variable (d : Disk) (sb : Sb)

/-- What `ext4_map_walk` returns. -/
def walkAt (lb : ℕ) : ℕ → Bytes → ℕ → Except ℤ (ℕ × Bool)
  | depthLeft, m, nodeLen =>
    match stepAt m nodeLen lb depthLeft with
    | .done r => r
    | .child block =>
      match depthLeft with
      | 0 => .error errInval
      | depthLeft + 1 =>
        if d.Reads sb block then walkAt lb depthLeft (d.block sb block) sb.bs
        else .error (d.rc (block * sb.blkPerFs) sb.blkPerFs)

/-- What `ext4_map` returns. -/
def mapAt (ip : Inode) (lb : ℕ) : Except ℤ (ℕ × Bool) :=
  if ip.flags &&& extentsFl = 0 then .error errNotsup else walkAt d sb lb maxDepth ip.blk.bytes 60

end

variable {d : Disk} {sb : Sb} {ip : Inode} {m m' : Bytes} {node scratch blk : Buf}
  {lb n e len nodeLen depthLeft : ℕ} {best : Option ℕ} {w : World}

/-! ## A node -/

theorem indexLoop_eq (h : e + 12 * n ≤ node.len) (w : World) :
    indexLoop node lb n e best w = .ret (indexFind node.bytes lb n e best, w) := by
  induction n generalizing e best with
  | zero => rfl
  | succ n ih =>
    rw [indexLoop, indexFind, bind_of_ret (Buf.load_apply (by omega) w)]
    split
    · exact ih (by omega)
    · rfl

/-- The entry that is found is one of the node. -/
theorem indexFind_bound (h : e + 12 * n ≤ len) (hbest : ∀ b, best = some b → b + 12 ≤ len) {b : ℕ}
    (hb : indexFind m lb n e best = some b) : b + 12 ≤ len := by
  induction n generalizing e best with
  | zero => exact hbest b hb
  | succ n ih =>
    rw [indexFind] at hb
    split at hb
    · refine ih (by omega : e + 12 + 12 * n ≤ len) (fun b' hb' => ?_) hb
      obtain rfl := Option.some.inj hb'
      omega
    · exact hbest b hb

/-- **What a node says** does not depend on the world, and no node faults. -/
theorem mapStep_eq (h : nodeLen ≤ node.len) (w : World) :
    mapStep node nodeLen lb depthLeft w = .ret (stepAt node.bytes nodeLen lb depthLeft, w) := by
  rw [mapStep, stepAt]
  by_cases hlen : nodeLen < 12
  · rw [if_pos hlen, if_pos hlen]
    rfl
  rw [if_neg hlen, if_neg hlen]
  rw [bind_of_ret (Buf.load_apply (by omega) w), bind_of_ret (Buf.load_apply (by omega) w)]
  rw [bind_of_ret (Buf.load_apply (by omega) w), bind_of_ret (Buf.load_apply (by omega) w)]
  by_cases hmagic : node.bytes.load 2 0 ≠ ehMagic
  · rw [if_pos hmagic, if_pos hmagic]
    rfl
  rw [if_neg hmagic, if_neg hmagic, ehEntries]
  by_cases hroom : node.bytes.load 2 4 < node.bytes.load 2 2 ∨ nodeLen < node.bytes.load 2 4 * 12 + 12
  · rw [if_pos hroom, if_pos hroom]
    rfl
  rw [if_neg hroom, if_neg hroom]
  by_cases hleaf : node.bytes.load 2 6 = 0
  · rw [if_pos hleaf, if_pos hleaf, bind_of_ret (leafLoop_apply (by omega) w)]
    rfl
  rw [if_neg hleaf, if_neg hleaf]
  by_cases hdepth : depthLeft = 0 ∨ maxDepth < node.bytes.load 2 6
  · rw [if_pos hdepth, if_pos hdepth]
    rfl
  rw [if_neg hdepth, if_neg hdepth, bind_of_ret (indexLoop_eq (by omega) w)]
  cases hb : indexFind node.bytes lb (node.bytes.load 2 2) 12 none with
  | none => rfl
  | some b =>
    have hbound : b + 12 ≤ node.len := indexFind_bound (by omega) (by simp) hb
    dsimp only
    rw [bind_of_ret (Buf.load_apply (by omega) w), bind_of_ret (Buf.load_apply (by omega) w)]
    rfl

theorem indexFind_congr (h : ∀ i, i < 12 * n → m (e + i) = m' (e + i)) :
    indexFind m lb n e best = indexFind m' lb n e best := by
  induction n generalizing e best with
  | zero => rfl
  | succ n ih =>
    have hblock : m.load 4 e = m'.load 4 e := load_entry_congr (o := 0) h (by omega)
    rw [indexFind, indexFind, hblock, ih fun i hi => by rw [Nat.add_assoc]; exact h _ (by omega)]

/-- What a node says depends on its bytes only. -/
theorem stepAt_congr (h : ∀ i, i < nodeLen → m i = m' i) :
    stepAt m nodeLen lb depthLeft = stepAt m' nodeLen lb depthLeft := by
  rw [stepAt, stepAt]
  by_cases hlen : nodeLen < 12
  · rw [if_pos hlen, if_pos hlen]
  have hload : ∀ {k o : ℕ}, o + k ≤ nodeLen → m.load k o = m'.load k o := fun hk =>
    Bytes.load_congr fun i hi => h _ (by omega)
  have hcount : ehEntries m = ehEntries m' := hload (by omega)
  rw [if_neg hlen, if_neg hlen, hload (by omega), hload (o := 4) (by omega), hcount,
    hload (o := 6) (by omega)]
  by_cases hroom : m'.load 2 4 < ehEntries m' ∨ nodeLen < m'.load 2 4 * 12 + 12
  · simp only [if_pos hroom]
  have hextents : leafExtents m = leafExtents m' := by
    rw [leafExtents, leafExtents, hcount]
    exact extents_congr fun i hi => h _ (by omega)
  have hindex : indexFind m lb (ehEntries m') 12 none = indexFind m' lb (ehEntries m') 12 none :=
    indexFind_congr fun i hi => h _ (by omega)
  rw [hextents, hindex]
  cases hb : indexFind m' lb (ehEntries m') 12 none with
  | none => rfl
  | some b =>
    have hbound : b + 12 ≤ nodeLen := indexFind_bound (by omega) (by simp) hb
    dsimp only
    rw [hload (by omega), hload (by omega)]

/-- The block number of a child has 48 bits. -/
theorem stepAt_child {block : ℕ} (h : stepAt m nodeLen lb depthLeft = .child block) :
    block < 2 ^ 49 := by
  unfold stepAt at h
  split at h
  · cases h
  split at h
  · cases h
  split at h
  · cases h
  split at h
  · cases h
  split at h
  · cases h
  split at h
  · cases h
  · rename_i b _
    cases h
    have h1 : m.load 4 (b + 4) < 256 ^ 4 := Bytes.load_lt 4 m (b + 4)
    have h2 : m.load 2 (b + 6) < 256 ^ 2 := Bytes.load_lt 2 m (b + 6)
    omega

/-! ## The walk -/

/-- **The walk is the function of the image**, whatever `scratch` holds. -/
theorem mapWalk_eq (h : sb.Ok) (hbuf : ∀ i, i < nodeLen → node.bytes i = m i)
    (hlen : nodeLen ≤ node.len) (hscratch : scratch.len = sb.bs) (w : World) :
    ∃ scratch' w', mapWalk d sb lb depthLeft node nodeLen scratch w =
        .ret ((walkAt d sb lb depthLeft m nodeLen, scratch'), w') ∧
      scratch'.len = sb.bs ∧ w'.alloc = w.alloc ∧ w'.used = w.used := by
  induction depthLeft generalizing node m nodeLen scratch w with
  | zero =>
    rw [mapWalk, walkAt, bind_of_ret (mapStep_eq hlen w), stepAt_congr hbuf]
    cases stepAt m nodeLen lb 0 with
    | done r => exact ⟨scratch, w, rfl, hscratch, rfl, rfl⟩
    | child block => exact ⟨scratch, w, rfl, hscratch, rfl, rfl⟩
  | succ depthLeft ih =>
    rw [mapWalk, walkAt, bind_of_ret (mapStep_eq hlen w), stepAt_congr hbuf]
    cases hstep : stepAt m nodeLen lb (depthLeft + 1) with
    | done r => exact ⟨scratch, w, rfl, hscratch, rfl, rfl⟩
    | child block =>
      have hlt := stepAt_child hstep
      dsimp only
      by_cases hread : d.Reads sb block
      · rw [bind_of_ret (readFsBlocks_of_reads h hlt hscratch hread w), if_pos hread]
        dsimp only
        rw [if_neg (not_not.mpr rfl)]
        have hbuf' : ∀ i, i < sb.bs → ({ scratch with
            bytes := scratch.bytes.blit 0 sb.bs (d.block sb block) } : Buf).bytes i =
              d.block sb block i := fun i hi => Bytes.blit_zero_apply hi
        have hlen' : ({ scratch with
            bytes := scratch.bytes.blit 0 sb.bs (d.block sb block) } : Buf).len = sb.bs := hscratch
        exact ih hbuf' hscratch.ge hlen' _
      · rw [bind_of_ret (readFsBlocks_of_not_reads h hlt hread w), if_neg hread]
        dsimp only
        rw [Disk.Reads] at hread
        rw [if_pos hread]
        exact ⟨scratch, _, rfl, hscratch, rfl, rfl⟩

/-- **`ext4_map`** returns `mapAt`. -/
theorem map_eq (h : sb.Ok) (hip : ip.Ok) (hscratch : scratch.len = sb.bs) (w : World) :
    ∃ scratch' w', map d sb ip lb scratch w = .ret ((mapAt d sb ip lb, scratch'), w') ∧
      scratch'.len = sb.bs ∧ w'.alloc = w.alloc ∧ w'.used = w.used := by
  rw [map, mapAt]
  by_cases hflags : ip.flags &&& extentsFl = 0
  · rw [if_pos hflags, if_pos hflags]
    exact ⟨scratch, w, rfl, hscratch, rfl, rfl⟩
  · rw [if_neg hflags, if_neg hflags]
    exact mapWalk_eq h (fun _ _ => rfl) (le_of_eq hip.symm) hscratch w

/-- The blocks of a leaf have numbers of 49 bits. -/
theorem leafFind_lt {phys : ℕ} {u : Bool} (hlb : lb < 2 ^ 32)
    (h : leafFind (leafExtents m) lb = .ok (phys, u)) : phys < 2 ^ 49 := by
  rcases leafFind_cases (leafExtents m) lb with ⟨x, hx, -, heq⟩ | ⟨-, heq⟩
  · rw [heq] at h
    obtain ⟨rfl, -⟩ := Prod.mk.inj (Except.ok.inj h)
    have hw := (wide_of_mem hx).start
    change x.start + (lb - x.block) < 2 ^ 49
    omega
  · rw [heq] at h
    cases h

theorem walkAt_lt {phys : ℕ} {u : Bool} (hlb : lb < 2 ^ 32)
    (h : walkAt d sb lb depthLeft m nodeLen = .ok (phys, u)) : phys < 2 ^ 49 := by
  have hdone : ∀ {k : ℕ} {m : Bytes} {nodeLen : ℕ} {r : Except ℤ (ℕ × Bool)},
      stepAt m nodeLen lb k = .done r → r = .ok (phys, u) → phys < 2 ^ 49 := by
    rintro k m nodeLen r hs rfl
    unfold stepAt at hs
    split at hs
    · cases hs
    split at hs
    · cases hs
    split at hs
    · cases hs
    split at hs
    · exact leafFind_lt hlb (Step.done.inj hs)
    split at hs
    · cases hs
    split at hs
    · cases hs
    · cases hs
  induction depthLeft generalizing m nodeLen with
  | zero =>
    rw [walkAt] at h
    cases hs : stepAt m nodeLen lb 0 with
    | done r =>
      rw [hs] at h
      exact hdone hs h
    | child block =>
      rw [hs] at h
      cases h
  | succ depthLeft ih =>
    rw [walkAt] at h
    cases hs : stepAt m nodeLen lb (depthLeft + 1) with
    | done r =>
      rw [hs] at h
      exact hdone hs h
    | child block =>
      rw [hs] at h
      dsimp only at h
      split at h
      · exact ih h
      · cases h

theorem mapAt_lt {phys : ℕ} {u : Bool} (hlb : lb < 2 ^ 32) (h : mapAt d sb ip lb = .ok (phys, u)) :
    phys < 2 ^ 49 := by
  rw [mapAt] at h
  split at h
  · cases h
  · exact walkAt_lt hlb h

end Ext4

end Csos

import Csos.Ext4.Leaf
/-!
# ext4 — the descent of an extent tree

At an index entry the driver takes bytes 6 and 7, the upper half of
`ei_leaf_lo`, for `ei_leaf_hi`, which the format has at bytes 8 and 9. The walk
is therefore the one of the format exactly when, at each entry on the path, the
two are equal: for the blocks below `2 ^ 16`, and hardly any above.
-/

namespace Csos

namespace Ext4

open Vfs Checked

/-! ## The walk of the format -/

section

variable (d : Disk) (sb : Sb)

/-- **A well-formed tree of depth `k`** whose root is the node `m` of `len`
bytes: the entries are sorted, and each child is a tree on the device. -/
def Tree : ℕ → Bytes → ℕ → Prop
  | 0, m, len => Header m len 0
  | k + 1, m, len => Header m len (k + 1) ∧
    ((nodeIndexes m).Pairwise fun x y => x.block ≤ y.block) ∧
    ∀ x ∈ nodeIndexes m, Tree k (d.block sb x.child) sb.bs

/-- The children on the way to `lb`, and the leaf; or why there is none: no
entry is at most `lb`, or the device does not read a child. -/
def descend (lb : ℕ) : ℕ → Bytes → List ℕ × Except ℤ Bytes
  | 0, m => ([], .ok m)
  | k + 1, m =>
    match lastBelow lb (nodeIndexes m) with
    | none => ([], .error errNoent)
    | some x =>
      if d.Reads sb x.child then
        let r := descend lb k (d.block sb x.child)
        (x.child :: r.1, r.2)
      else ([x.child], .error (d.rc (x.child * sb.blkPerFs) sb.blkPerFs))

/-- At each entry on the way to `lb`, the half of `ei_leaf_lo` that the driver
reads is `ei_leaf_hi`. -/
def Low (lb : ℕ) : ℕ → Bytes → Prop
  | 0, _ => True
  | k + 1, m => ∀ x, lastBelow lb (nodeIndexes m) = some x → x.hi = x.lo / 2 ^ 16 ∧
    (d.Reads sb x.child → Low lb k (d.block sb x.child))

/-- **The walk from `node` is that of the format**: it requests the children on
the way, in this order and no others, and its result is that of the leaf. -/
def Follows (lb k : ℕ) (m : Bytes) (depthLeft : ℕ) (node : Buf) (nodeLen : ℕ) (scratch : Buf)
    (w : World) : Prop :=
  ∃ scratch' w', mapWalk d sb lb depthLeft node nodeLen scratch w =
      .ret (((descend d sb lb k m).2 >>= fun leaf => leafFind (leafExtents leaf) lb, scratch'), w') ∧
    w'.reads = w.reads ++ (descend d sb lb k m).1.map (blockRequest sb)

end

variable {d : Disk} {sb : Sb} {m m' : Bytes} {node scratch : Buf} {x : Index}
  {lb k n e len depth nodeLen depthLeft : ℕ} {w : World}

/-! ## Index entries -/

/-- The fields are as wide as on the disk. -/
structure Index.Wide (x : Index) : Prop where
  lo : x.lo < 2 ^ 32
  hi : x.hi < 2 ^ 16

theorem wide_index_of_mem (h : x ∈ indexes m n e) : x.Wide := by
  induction n generalizing e with
  | zero => cases h
  | succ n ih =>
    rcases List.mem_cons.mp h with rfl | h
    · exact ⟨Bytes.load_lt 4 m (e + 4), Bytes.load_lt 2 m (e + 8)⟩
    · exact ih h

theorem mem_of_lastBelow {xs : List Index} (h : lastBelow lb xs = some x) : x ∈ xs :=
  List.mem_of_mem_filter (List.mem_of_getLast? h)

theorem Index.Wide.followed_lt (h : x.Wide) : x.followed < 2 ^ 49 := by
  have h1 := h.lo
  rw [Index.followed]
  omega

/-- The driver goes to the child if and only if the half it reads is
`ei_leaf_hi`. -/
theorem followed_eq_child_iff (h : x.Wide) : x.followed = x.child ↔ x.hi = x.lo / 2 ^ 16 := by
  have h1 := h.lo
  have h2 := h.hi
  rw [Index.followed, Index.child]
  omega

theorem blockRequest_inj (h : sb.Ok) {a b : ℕ} (hab : blockRequest sb a = blockRequest sb b) : a = b :=
  Nat.eq_of_mul_eq_mul_right (blkPerFs_le h).1 (Prod.ext_iff.mp hab).1

/-! ## Nodes in a buffer -/

theorem leafExtents_congr (h : Header m len depth) (heq : ∀ i, i < len → m' i = m i) :
    leafExtents m' = leafExtents m := by
  have hroom := h.room
  have hentries := h.entries
  have hcount : ehEntries m' = ehEntries m := Bytes.load_congr fun i hi => heq _ (by omega)
  rw [leafExtents, leafExtents, hcount]
  exact extents_congr fun i hi => heq _ (by omega)

theorem nodeIndexes_congr (h : Header m len depth) (heq : ∀ i, i < len → m' i = m i) :
    nodeIndexes m' = nodeIndexes m := by
  have hroom := h.room
  have hentries := h.entries
  have hcount : ehEntries m' = ehEntries m := Bytes.load_congr fun i hi => heq _ (by omega)
  rw [nodeIndexes, nodeIndexes, hcount]
  exact indexes_congr fun i hi => heq _ (by omega)

theorem Header.of_buffer (h : Header m len depth) (heq : ∀ i, i < len → m' i = m i) :
    Header m' len depth := by
  have hroom := h.room
  exact h.congr fun i hi => (heq i (by omega)).symm

/-! ## What a walk requests -/

/-- Requests are added to the ones before. -/
def Grows (w w' : World) : Prop := w.reads <+: w'.reads

theorem Grows.refl (w : World) : Grows w w := List.prefix_rfl

theorem Grows.trans {w w' w'' : World} (h : Grows w w') (h' : Grows w' w'') : Grows w w'' :=
  List.IsPrefix.trans h h'

theorem grows_leafLoop : Along Grows (leafLoop node lb n e) := by
  induction n generalizing e with
  | zero => exact along_pure Grows.refl
  | succ n ih =>
    refine (Buf.along_load Grows.refl).bind Grows.trans fun b => ?_
    refine (Buf.along_load Grows.refl).bind Grows.trans fun len => ?_
    refine (Buf.along_load Grows.refl).bind Grows.trans fun lo => ?_
    refine (Buf.along_load Grows.refl).bind Grows.trans fun hi => ?_
    exact along_ite ih (along_ite (along_pure Grows.refl) ih)

theorem grows_indexLoop {best : Option ℕ} : Along Grows (indexLoop node lb n e best) := by
  induction n generalizing e best with
  | zero => exact along_pure Grows.refl
  | succ n ih =>
    refine (Buf.along_load Grows.refl).bind Grows.trans fun b => ?_
    exact along_ite ih (along_pure Grows.refl)

theorem grows_mapStep : Along Grows (mapStep node nodeLen lb depthLeft) := by
  refine along_ite (along_pure Grows.refl) ?_
  refine (Buf.along_load Grows.refl).bind Grows.trans fun magic => ?_
  refine (Buf.along_load Grows.refl).bind Grows.trans fun entries => ?_
  refine (Buf.along_load Grows.refl).bind Grows.trans fun max => ?_
  refine (Buf.along_load Grows.refl).bind Grows.trans fun depth => ?_
  refine along_ite (along_pure Grows.refl) (along_ite (along_pure Grows.refl) (along_ite ?_ ?_))
  · exact grows_leafLoop.bind Grows.trans fun r => along_pure Grows.refl
  refine along_ite (along_pure Grows.refl) (grows_indexLoop.bind Grows.trans fun best => ?_)
  cases best with
  | none => exact along_pure Grows.refl
  | some best =>
    refine (Buf.along_load Grows.refl).bind Grows.trans fun lo => ?_
    exact (Buf.along_load Grows.refl).bind Grows.trans fun hi => along_pure Grows.refl

theorem grows_readFsBlocks {fsblk count : ℕ} {buf : Buf} :
    Along Grows (readFsBlocks d sb fsblk count buf) := by
  have hrequest : ∀ lba count, Along Grows (request lba count) := by
    rintro lba count w a w' h
    cases h
    exact List.prefix_append _ _
  refine along_ite (along_pure Grows.refl) (along_ite (along_pure Grows.refl) ?_)
  refine (hrequest _ _).bind Grows.trans fun _ => along_ite (along_pure Grows.refl) ?_
  exact (along_require Grows.refl).bind Grows.trans fun _ => along_pure Grows.refl

theorem grows_mapWalk : Along Grows (mapWalk d sb lb depthLeft node nodeLen scratch) := by
  induction depthLeft generalizing node nodeLen scratch with
  | zero =>
    unfold mapWalk
    refine grows_mapStep.bind Grows.trans fun s => ?_
    cases s with
    | done r => exact along_pure Grows.refl
    | child block => exact along_pure Grows.refl
  | succ depthLeft ih =>
    unfold mapWalk
    refine grows_mapStep.bind Grows.trans fun s => ?_
    cases s with
    | done r => exact along_pure Grows.refl
    | child block =>
      refine grows_readFsBlocks.bind Grows.trans fun r => ?_
      exact along_ite (along_pure Grows.refl) ih

/-! ## The walk of the driver -/

/-- At a node with an entry that is at most `lb`, the driver requests the block
it takes for the child. -/
theorem mapWalk_of_lastBelow (h : sb.Ok) (hheader : Header node.bytes nodeLen (k + 1))
    (hlen : nodeLen ≤ node.len) (hk : k + 1 ≤ maxDepth)
    (hsorted : (nodeIndexes node.bytes).Pairwise fun x y => x.block ≤ y.block)
    (hscratch : scratch.len = sb.bs) (hx : lastBelow lb (nodeIndexes node.bytes) = some x) (w : World) :
    mapWalk d sb lb (depthLeft + 1) node nodeLen scratch w =
      if d.Reads sb x.followed then
        mapWalk d sb lb depthLeft
          { scratch with bytes := scratch.bytes.blit 0 sb.bs (d.block sb x.followed) } sb.bs
          { scratch with bytes := scratch.bytes.blit 0 sb.bs (d.block sb x.followed) }
          { w with reads := w.reads ++ [blockRequest sb x.followed] }
      else .ret ((.error (d.rc (x.followed * sb.blkPerFs) sb.blkPerFs), scratch),
        { w with reads := w.reads ++ [blockRequest sb x.followed] }) := by
  have hlt := (wide_index_of_mem (mem_of_lastBelow hx)).followed_lt
  have hstep : mapStep node nodeLen lb (depthLeft + 1) w = _ :=
    mapStep_index hheader hlen hk (Nat.succ_ne_zero depthLeft) hsorted w
  rw [hx] at hstep
  rw [mapWalk, bind_of_ret hstep]
  dsimp only
  by_cases hread : d.Reads sb x.followed
  · rw [bind_of_ret (readFsBlocks_of_reads h hlt hscratch hread w), if_pos hread]
    dsimp only
    rw [if_neg (not_not.mpr rfl)]
  · rw [bind_of_ret (readFsBlocks_of_not_reads h hlt hread w), if_neg hread]
    dsimp only
    rw [Disk.Reads] at hread
    rw [if_pos hread]
    rfl

theorem mapWalk_of_lastBelow_none (hheader : Header node.bytes nodeLen (k + 1))
    (hlen : nodeLen ≤ node.len) (hk : k + 1 ≤ maxDepth)
    (hsorted : (nodeIndexes node.bytes).Pairwise fun x y => x.block ≤ y.block)
    (hx : lastBelow lb (nodeIndexes node.bytes) = none) (w : World) :
    mapWalk d sb lb (depthLeft + 1) node nodeLen scratch w = .ret ((.error errNoent, scratch), w) := by
  have hstep : mapStep node nodeLen lb (depthLeft + 1) w = _ :=
    mapStep_index hheader hlen hk (Nat.succ_ne_zero depthLeft) hsorted w
  rw [hx] at hstep
  rw [mapWalk, bind_of_ret hstep]
  rfl

/-- The walk of the format from a node whose entry on the way is `x`. -/
theorem descend_of_reads (hx : lastBelow lb (nodeIndexes m) = some x) (hread : d.Reads sb x.child) :
    descend d sb lb (k + 1) m =
      (x.child :: (descend d sb lb k (d.block sb x.child)).1, (descend d sb lb k (d.block sb x.child)).2) := by
  rw [descend, hx]
  exact if_pos hread

theorem descend_of_not_reads (hx : lastBelow lb (nodeIndexes m) = some x) (hread : ¬ d.Reads sb x.child) :
    descend d sb lb (k + 1) m =
      ([x.child], .error (d.rc (x.child * sb.blkPerFs) sb.blkPerFs)) := by
  rw [descend, hx]
  exact if_neg hread

/-- The first child of the walk of the format. -/
theorem descend_head (hx : lastBelow lb (nodeIndexes m) = some x) :
    ∃ l, (descend d sb lb (k + 1) m).1 = x.child :: l := by
  by_cases hread : d.Reads sb x.child
  · rw [descend_of_reads hx hread]
    exact ⟨_, rfl⟩
  · rw [descend_of_not_reads hx hread]
    exact ⟨_, rfl⟩

/-- **A walk that follows the format goes to the child of the format.** -/
theorem followed_of_follows (h : sb.Ok) (hheader : Header node.bytes nodeLen (k + 1))
    (hlen : nodeLen ≤ node.len) (hk : k + 1 ≤ maxDepth)
    (hsorted : (nodeIndexes node.bytes).Pairwise fun x y => x.block ≤ y.block)
    (hscratch : scratch.len = sb.bs) (hx : lastBelow lb (nodeIndexes node.bytes) = some x)
    (hm : nodeIndexes node.bytes = nodeIndexes m)
    (hf : Follows d sb lb (k + 1) m (depthLeft + 1) node nodeLen scratch w) : x.followed = x.child := by
  obtain ⟨scratch', w', heq, hreads⟩ := hf
  obtain ⟨l, hl⟩ : ∃ l, (descend d sb lb (k + 1) m).1 = x.child :: l := descend_head (hm ▸ hx)
  -- whatever comes after, the first request stays
  have hprefix : w.reads ++ [blockRequest sb x.followed] <+: w'.reads := by
    rw [mapWalk_of_lastBelow h hheader hlen hk hsorted hscratch hx] at heq
    split at heq
    · exact grows_mapWalk _ _ _ heq
    · obtain ⟨-, rfl⟩ := Prod.mk.inj (Outcome.ret.inj heq)
      exact List.prefix_rfl
  rw [hreads, hl, List.map_cons] at hprefix
  have htail := (List.prefix_append_right_inj _).mp hprefix
  exact blockRequest_inj h (List.cons_prefix_cons.mp htail).1

/-- **The walk of the driver is that of the format** exactly if `ei_leaf_hi` is
the half it reads, at each entry on the way. -/
theorem follows_iff (h : sb.Ok) (htree : Tree d sb k m nodeLen)
    (hbuf : ∀ i, i < nodeLen → node.bytes i = m i) (hlen : nodeLen ≤ node.len) (hk : k ≤ maxDepth)
    (hleft : k ≤ depthLeft) (hscratch : scratch.len = sb.bs) :
    Follows d sb lb k m depthLeft node nodeLen scratch w ↔ Low d sb lb k m := by
  induction k generalizing m node nodeLen depthLeft scratch w with
  | zero =>
    refine iff_of_true ⟨scratch, w, ?_, by simp [descend]⟩ trivial
    rw [mapWalk_leaf (htree.of_buffer hbuf) hlen, leafExtents_congr htree hbuf]
    rfl
  | succ k ih =>
    obtain ⟨hheader, hsorted, hchild⟩ := htree
    obtain ⟨depthLeft, rfl⟩ : ∃ n, depthLeft = n + 1 := ⟨depthLeft - 1, by omega⟩
    have hm := nodeIndexes_congr hheader hbuf
    have hheader' := hheader.of_buffer hbuf
    have hsorted' := hm.symm ▸ hsorted
    cases hx : lastBelow lb (nodeIndexes m) with
    | none =>
      refine iff_of_true ⟨scratch, w, ?_, by simp [descend, hx]⟩ (by simp [Low, hx])
      rw [mapWalk_of_lastBelow_none hheader' hlen hk hsorted' (hm ▸ hx), descend, hx]
      rfl
    | some x =>
      have hx' : lastBelow lb (nodeIndexes node.bytes) = some x := hm ▸ hx
      have hwide := wide_index_of_mem (mem_of_lastBelow hx)
      have hlow : Low d sb lb (k + 1) m ↔
          x.hi = x.lo / 2 ^ 16 ∧ (d.Reads sb x.child → Low d sb lb k (d.block sb x.child)) := by
        simp [Low, hx]
      rw [hlow]
      by_cases hhi : x.hi = x.lo / 2 ^ 16
      · have hfc := (followed_eq_child_iff hwide).mpr hhi
        rw [Follows, mapWalk_of_lastBelow h hheader' hlen hk hsorted' hscratch hx', hfc]
        by_cases hread : d.Reads sb x.child
        · have hbuf' : ∀ i, i < sb.bs → ({ scratch with
              bytes := scratch.bytes.blit 0 sb.bs (d.block sb x.child) } : Buf).bytes i =
                d.block sb x.child i := fun i hi => Bytes.blit_zero_apply hi
          have hnode : ({ scratch with
              bytes := scratch.bytes.blit 0 sb.bs (d.block sb x.child) } : Buf).len = sb.bs := hscratch
          have hrest := ih (w := { w with reads := w.reads ++ [blockRequest sb x.child] })
            (hchild x (mem_of_lastBelow hx)) hbuf' hnode.ge (by omega)
            (show k ≤ depthLeft by omega) hnode
          rw [descend_of_reads hx hread, if_pos hread, and_iff_right hhi, forall_prop_of_true hread, ← hrest]
          simp only [Follows, List.map_cons, List.append_assoc, List.singleton_append]
        · rw [descend_of_not_reads hx hread, if_neg hread]
          exact iff_of_true ⟨scratch, _, rfl, rfl⟩ ⟨hhi, fun hr => absurd hr hread⟩
      · refine iff_of_false (fun hf => hhi ?_) fun hl => hhi hl.1
        exact (followed_eq_child_iff hwide).mp
          (followed_of_follows h hheader' hlen hk hsorted' hscratch hx' hm hf)

/-- **The descent of a well-formed tree** of depth up to 5 requests the child of
the last entry that is at most `lb` at each level, and so ends at the leaf for
`lb` or reports a hole, exactly if `ei_leaf_hi` is the upper half of
`ei_leaf_lo` at each of these entries. -/
theorem descent_follows_iff (h : sb.Ok) (hk : k ≤ maxDepth) (htree : Tree d sb k node.bytes nodeLen)
    (hlen : nodeLen ≤ node.len) (hscratch : scratch.len = sb.bs) :
    Follows d sb lb k node.bytes maxDepth node nodeLen scratch w ↔ Low d sb lb k node.bytes :=
  follows_iff h htree (fun _ _ => rfl) hlen hk hk hscratch

/-! ## A root with one entry -/

/-- A root of depth 1 with one entry, whose child is at the block
`100 + 65536 * third`. -/
def oneIndex (third : UInt8) : Bytes := fun i =>
  [0x0a, 0xf3, 1, 0, 4, 0, 1, 0, 0, 0, 0, 0, 0, 0, 0, 0, 100, 0, third].getD i 0

/-- A device where each block is a leaf without extents. -/
def leafDisk : Disk := ⟨fun a => [0x0a, 0xf3, 0, 0, 4].getD (a % 1024) 0, fun _ _ => 0⟩

theorem nodeIndexes_oneIndex (third : UInt8) :
    nodeIndexes (oneIndex third) = [⟨0, 100 + 65536 * third.toNat, 0⟩] := by
  simp [nodeIndexes, ehEntries, oneIndex, Bytes.load, indexes, indexAt]
  omega

theorem header_leafDisk (b : ℕ) : Header (leafDisk.block sampleSb b) 1024 0 := by
  have hbyte : ∀ i, i < 1024 → leafDisk.block sampleSb b i = [0x0a, 0xf3, 0, 0, 4].getD i 0 := by
    intro i hi
    have hmod : (512 * (b * 2) + i) % 1024 = i := by omega
    simp only [Disk.block, Bytes.shift, leafDisk, sampleSb, devBlk, hmod]
  refine ⟨?_, ?_, ?_, ?_⟩
  · simp [Bytes.load, hbyte]
  · simp [Bytes.load, hbyte, ehEntries]
  · simp [Bytes.load, hbyte]
  · simp [Bytes.load, hbyte]

theorem tree_oneIndex (third : UInt8) : Tree leafDisk sampleSb 1 (oneIndex third) 60 := by
  refine ⟨⟨?_, ?_, ?_, ?_⟩, ?_, fun x _ => header_leafDisk x.child⟩
  · simp [oneIndex, Bytes.load]
  · simp [oneIndex, Bytes.load, ehEntries]
  · simp [oneIndex, Bytes.load]
  · simp [oneIndex, Bytes.load]
  · rw [nodeIndexes_oneIndex]
    exact List.pairwise_singleton _ _

theorem low_oneIndex_iff (third : UInt8) :
    Low leafDisk sampleSb 7 1 (oneIndex third) ↔ third = 0 := by
  have hx : lastBelow 7 (nodeIndexes (oneIndex third)) = some ⟨0, 100 + 65536 * third.toNat, 0⟩ := by
    rw [nodeIndexes_oneIndex]
    rfl
  simp only [Low, hx, Option.some.injEq, forall_eq', implies_true, and_true]
  rw [← UInt8.toNat_inj]
  simp
  omega

/-- The child is at block 100. -/
theorem descent_follows_low :
    Follows leafDisk sampleSb 7 1 (oneIndex 0) maxDepth ⟨oneIndex 0, 60⟩ 60 ⟨Bytes.const 0, 1024⟩
      sampleWorld :=
  (descent_follows_iff sampleSb_ok (by decide) (tree_oneIndex 0) le_rfl rfl).mpr
    ((low_oneIndex_iff 0).mpr rfl)

/-- **A child at block 65636 is looked for elsewhere.** -/
theorem descent_leaves_format : Tree leafDisk sampleSb 1 (oneIndex 1) 60 ∧
    ¬ Follows leafDisk sampleSb 7 1 (oneIndex 1) maxDepth ⟨oneIndex 1, 60⟩ 60 ⟨Bytes.const 0, 1024⟩
      sampleWorld := by
  refine ⟨tree_oneIndex 1, fun hf => ?_⟩
  have hlow := (follows_iff sampleSb_ok (tree_oneIndex 1) (fun _ _ => rfl) le_rfl (by decide) (by decide)
    rfl).mp hf
  exact absurd ((low_oneIndex_iff 1).mp hlow) (by decide)

end Ext4

end Csos

import Csos.Ext4.Safe
/-!
# ext4 — the extent format and the search of a node

The fields of an extent and of an index entry are where the format has them,
and `Extent.blocks` and `Index.child` are what the format says they mean. The
loops of `ext4_map_walk` over a node are then functions of the entries of the
node: `leafLoop_apply` and `indexLoop_apply`.
-/

namespace Csos

namespace Ext4

open Vfs Checked

/-! ## The format -/

/-- An extent: `ee_block`, `ee_len` and `ee_start`. -/
structure Extent where
  block : ℕ
  len : ℕ
  start : ℕ

/-- The extent at `e`. -/
def extentAt (m : Bytes) (e : ℕ) : Extent where
  block := m.load 4 e
  len := m.load 2 (e + 4)
  start := m.load 4 (e + 8) + m.load 2 (e + 6) * 2 ^ 32

/-- The `n` extents from `e` on. -/
def extents (m : Bytes) : ℕ → ℕ → List Extent
  | 0, _ => []
  | n + 1, e => extentAt m e :: extents m n (e + 12)

/-- An index entry: `ei_block`, `ei_leaf_lo` and `ei_leaf_hi`. -/
structure Index where
  block : ℕ
  lo : ℕ
  hi : ℕ

/-- The index entry at `e`. -/
def indexAt (m : Bytes) (e : ℕ) : Index where
  block := m.load 4 e
  lo := m.load 4 (e + 4)
  hi := m.load 2 (e + 8)

/-- The `n` index entries from `e` on. -/
def indexes (m : Bytes) : ℕ → ℕ → List Index
  | 0, _ => []
  | n + 1, e => indexAt m e :: indexes m n (e + 12)

/-- `eh_entries`. -/
def ehEntries (m : Bytes) : ℕ := m.load 2 2

/-- The extents of a leaf. -/
def leafExtents (m : Bytes) : List Extent := extents m (ehEntries m) 12

/-- The entries of an index node. -/
def nodeIndexes (m : Bytes) : List Index := indexes m (ehEntries m) 12

/-- **A header of depth `depth`** for a node of `len` bytes. -/
structure Header (m : Bytes) (len depth : ℕ) : Prop where
  magic : m.load 2 0 = ehMagic
  entries : ehEntries m ≤ m.load 2 4
  room : m.load 2 4 * 12 + 12 ≤ len
  depth : m.load 2 6 = depth

/-- How many blocks the format gives an extent: a length above 32768 is that of
an unwritten extent. -/
def Extent.blocks (x : Extent) : ℕ := if x.len ≤ 32768 then x.len else x.len - 32768

/-- The blocks read as zeros. -/
def Extent.unwritten (x : Extent) : Bool := decide (32768 < x.len)

/-- `lb` is a block of the extent. -/
def Extent.Holds (x : Extent) (lb : ℕ) : Prop := x.block ≤ lb ∧ lb < x.block + x.blocks

/-- **A leaf**: its extents are sorted and do not overlap. -/
structure Leaf (m : Bytes) (len : ℕ) : Prop where
  header : Header m len 0
  sorted : (leafExtents m).Pairwise fun x y => x.block + x.blocks ≤ y.block

/-- The block of the child, as the format has it. -/
def Index.child (x : Index) : ℕ := x.hi * 2 ^ 32 + x.lo

/-! ## What the loops compute -/

/-- The test of the leaf loop. -/
def Extent.hit (x : Extent) (lb : ℕ) : Bool :=
  decide (x.len &&& eeLenMask ≠ 0 ∧ x.block ≤ lb ∧ lb < (x.block + (x.len &&& eeLenMask)) % 2 ^ 32)

/-- What the leaf loop makes of the extent that passes the test. -/
def Extent.mapped (x : Extent) (lb : ℕ) : ℕ × Bool :=
  (x.start + (lb - x.block), decide (x.len &&& eeUninit ≠ 0))

/-- What `ext4_map_walk` returns at a leaf. -/
def leafFind (xs : List Extent) (lb : ℕ) : Except ℤ (ℕ × Bool) :=
  match xs.find? (·.hit lb) with
  | none => .error errNoent
  | some x => .ok (x.mapped lb)

variable {m m' : Bytes} {node : Buf} {lb n e : ℕ}

theorem leafLoop_apply (h : e + 12 * n ≤ node.len) (w : World) :
    leafLoop node lb n e w = .ret (leafFind (extents node.bytes n e) lb, w) := by
  induction n generalizing e with
  | zero => rfl
  | succ n ih =>
    have ih := ih (e := e + 12) (by omega)
    rw [leafLoop, bind_of_ret (Buf.load_apply (by omega) w), bind_of_ret (Buf.load_apply (by omega) w)]
    dsimp only
    rw [bind_of_ret (Buf.load_apply (by omega) w), bind_of_ret (Buf.load_apply (by omega) w)]
    rw [leafFind, extents, List.find?_cons]
    by_cases hspan : node.bytes.load 2 (e + 4) &&& eeLenMask = 0
    · have hhit : (extentAt node.bytes e).hit lb = false := by simp [Extent.hit, extentAt, hspan]
      rw [if_pos hspan, ih, hhit]
      rfl
    · rw [if_neg hspan]
      split
      · rename_i hin
        have hhit : (extentAt node.bytes e).hit lb = true := decide_eq_true ⟨hspan, hin⟩
        rw [hhit]
        rfl
      · rename_i hin
        have hhit : (extentAt node.bytes e).hit lb = false := decide_eq_false fun h => hin h.2
        rw [ih, hhit]
        rfl

/-- The last entry that is not above `lb`. -/
def lastBelow (lb : ℕ) (xs : List Index) : Option Index := (xs.filter fun x => x.block ≤ lb).getLast?

/-- **The index loop finds the last entry that is not above `lb`**, if the
entries are sorted. -/
theorem indexLoop_apply (h : e + 12 * n ≤ node.len)
    (hsorted : (indexes node.bytes n e).Pairwise fun x y => x.block ≤ y.block) {best : Option ℕ}
    (hbest : ∀ p, best = some p → p + 12 ≤ node.len) (w : World) :
    ∃ o, indexLoop node lb n e best w = .ret (o, w) ∧ (∀ p, o = some p → p + 12 ≤ node.len) ∧
      o.map (indexAt node.bytes) =
        (lastBelow lb (indexes node.bytes n e)).or (best.map (indexAt node.bytes)) := by
  induction n generalizing e best with
  | zero => exact ⟨best, rfl, hbest, by simp [lastBelow, indexes]⟩
  | succ n ih =>
    obtain ⟨hhead, htail⟩ := List.pairwise_cons.mp hsorted
    rw [indexLoop, bind_of_ret (Buf.load_apply (by omega) w)]
    by_cases hle : node.bytes.load 4 e ≤ lb
    · rw [if_pos hle]
      have hstart : ∀ p, some e = some p → p + 12 ≤ node.len := by
        rintro p ⟨⟩
        omega
      obtain ⟨o, ho, hbound, hmap⟩ := ih (by omega) htail hstart
      refine ⟨o, ho, hbound, ?_⟩
      have hkeep : decide ((indexAt node.bytes e).block ≤ lb) = true := decide_eq_true hle
      rw [hmap, lastBelow, lastBelow, indexes, List.filter_cons, if_pos hkeep, List.getLast?_cons]
      cases (List.filter (fun x => decide (x.block ≤ lb)) (indexes node.bytes n (e + 12))).getLast? <;> rfl
    · rw [if_neg hle]
      refine ⟨best, rfl, hbest, ?_⟩
      -- the entries after it are above `lb` too
      have hnone : (indexes node.bytes (n + 1) e).filter (fun x => decide (x.block ≤ lb)) = [] := by
        rw [List.filter_eq_nil_iff]
        intro x hx
        have habove : lb < x.block := by
          rcases List.mem_cons.mp hx with rfl | hx
          · exact Nat.lt_of_not_le hle
          · exact lt_of_lt_of_le (Nat.lt_of_not_le hle) (hhead x hx)
        simpa using habove
      rw [lastBelow, hnone]
      rfl

/-! ## Nodes with the same bytes -/

theorem load_entry_congr (h : ∀ i, i < 12 * (n + 1) → m (e + i) = m' (e + i)) {k o : ℕ}
    (hk : o + k ≤ 12) : m.load k (e + o) = m'.load k (e + o) := by
  refine Bytes.load_congr fun i hi => ?_
  rw [Nat.add_assoc]
  exact h _ (by omega)

theorem extents_congr (h : ∀ i, i < 12 * n → m (e + i) = m' (e + i)) : extents m n e = extents m' n e := by
  induction n generalizing e with
  | zero => rfl
  | succ n ih =>
    have hblock : m.load 4 e = m'.load 4 e := load_entry_congr (o := 0) h (by omega)
    have hhead : extentAt m e = extentAt m' e := by
      rw [extentAt, extentAt, hblock, load_entry_congr h (by omega), load_entry_congr h (by omega),
        load_entry_congr h (by omega)]
    rw [extents, extents, hhead, ih fun i hi => by rw [Nat.add_assoc]; exact h _ (by omega)]

theorem indexes_congr (h : ∀ i, i < 12 * n → m (e + i) = m' (e + i)) : indexes m n e = indexes m' n e := by
  induction n generalizing e with
  | zero => rfl
  | succ n ih =>
    have hblock : m.load 4 e = m'.load 4 e := load_entry_congr (o := 0) h (by omega)
    have hhead : indexAt m e = indexAt m' e := by
      rw [indexAt, indexAt, hblock, load_entry_congr h (by omega), load_entry_congr h (by omega)]
    rw [indexes, indexes, hhead, ih fun i hi => by rw [Nat.add_assoc]; exact h _ (by omega)]

/-- A header depends on its eight bytes only. -/
theorem Header.congr {len depth : ℕ} (h : Header m len depth) (heq : ∀ i, i < 8 → m i = m' i) :
    Header m' len depth := by
  have hload : ∀ {k o : ℕ}, o + k ≤ 8 → m'.load k o = m.load k o := fun hk =>
    Bytes.load_congr fun i hi => (heq _ (by omega)).symm
  refine ⟨?_, ?_, ?_, ?_⟩
  · rw [hload (by omega), h.magic]
  · rw [ehEntries, hload (by omega), hload (by omega)]
    exact h.entries
  · rw [hload (by omega)]
    exact h.room
  · rw [hload (by omega), h.depth]

/-! ## A node -/

/-- The block that the driver takes for the child: the upper half of
`ei_leaf_lo` stands in for `ei_leaf_hi`. -/
def Index.followed (x : Index) : ℕ := x.lo + x.lo / 2 ^ 16 * 2 ^ 32

theorem load_upper (m : Bytes) (e : ℕ) : m.load 2 (e + 2) = m.load 4 e / 2 ^ 16 := by
  have h0 := (m e).toNat_lt
  have h1 := (m (e + 1)).toNat_lt
  simp only [Bytes.load, Nat.add_assoc, Nat.reduceAdd]
  omega

variable {nodeLen k depthLeft : ℕ}

theorem mapStep_leaf (h : Header node.bytes nodeLen 0) (hlen : nodeLen ≤ node.len) (w : World) :
    mapStep node nodeLen lb depthLeft w =
      .ret (.done (leafFind (leafExtents node.bytes) lb), w) := by
  have hroom := h.room
  have hentries := h.entries
  rw [ehEntries] at hentries
  rw [mapStep, if_neg (by omega)]
  rw [bind_of_ret (Buf.load_apply (by omega) w), bind_of_ret (Buf.load_apply (by omega) w)]
  rw [bind_of_ret (Buf.load_apply (by omega) w), bind_of_ret (Buf.load_apply (by omega) w)]
  rw [if_neg (not_not.mpr h.magic), if_neg (by omega), if_pos h.depth]
  rw [bind_of_ret (leafLoop_apply (by omega) w)]
  rfl

theorem mapStep_index (h : Header node.bytes nodeLen (k + 1)) (hlen : nodeLen ≤ node.len)
    (hk : k + 1 ≤ maxDepth) (hleft : depthLeft ≠ 0)
    (hsorted : (nodeIndexes node.bytes).Pairwise fun x y => x.block ≤ y.block) (w : World) :
    mapStep node nodeLen lb depthLeft w =
      .ret (match lastBelow lb (nodeIndexes node.bytes) with
        | none => .done (.error errNoent)
        | some x => .child x.followed, w) := by
  have hroom := h.room
  have hentries := h.entries
  have hdepth := h.depth
  rw [ehEntries] at hentries
  rw [nodeIndexes, ehEntries] at hsorted
  rw [mapStep, if_neg (by omega)]
  rw [bind_of_ret (Buf.load_apply (by omega) w), bind_of_ret (Buf.load_apply (by omega) w)]
  rw [bind_of_ret (Buf.load_apply (by omega) w), bind_of_ret (Buf.load_apply (by omega) w)]
  rw [if_neg (not_not.mpr h.magic), if_neg (by omega), if_neg (by omega), if_neg (by omega)]
  have hstart : ∀ p, (none : Option ℕ) = some p → p + 12 ≤ node.len := by simp
  obtain ⟨o, ho, hbound, hmap⟩ := indexLoop_apply (by omega) hsorted hstart w
  rw [bind_of_ret ho]
  rw [Option.map_none, Option.or_none] at hmap
  rw [nodeIndexes, ehEntries, ← hmap]
  cases o with
  | none => rfl
  | some p =>
    have hp := hbound p rfl
    dsimp only [Option.map_some]
    rw [bind_of_ret (Buf.load_apply (by omega) w), bind_of_ret (Buf.load_apply (by omega) w)]
    rw [Index.followed, indexAt, ← load_upper]
    rfl

/-! ## A block of the device -/

/-- The bytes of the block `b`. -/
def Disk.block (d : Disk) (sb : Sb) (b : ℕ) : Bytes := d.bytes.shift (devBlk * (b * sb.blkPerFs))

/-- The request for the block `b`. -/
def blockRequest (sb : Sb) (b : ℕ) : ℕ × ℕ := (b * sb.blkPerFs, sb.blkPerFs)

variable {d : Disk} {sb : Sb} {blk : Buf} {b : ℕ}

/-- The device returns 0 for the block `b`. -/
def Disk.Reads (d : Disk) (sb : Sb) (b : ℕ) : Prop := d.rc (b * sb.blkPerFs) sb.blkPerFs = 0

instance (b : ℕ) : Decidable (d.Reads sb b) := inferInstanceAs (Decidable (_ = _))

theorem blkPerFs_le (h : sb.Ok) : 0 < sb.blkPerFs ∧ sb.blkPerFs ≤ 16 := by
  have h1 := h.bs_pos
  have h2 := h.bs_le
  have h3 := h.blkPerFs
  dsimp only [devBlk] at h3
  omega

/-- No block number of 49 bits makes the address wrap. -/
theorem mul_blkPerFs_lt (h : sb.Ok) (hb : b < 2 ^ 49) : b * sb.blkPerFs < 2 ^ 64 :=
  calc b * sb.blkPerFs ≤ b * 16 := Nat.mul_le_mul_left b (blkPerFs_le h).2
    _ < 2 ^ 64 := by omega

theorem request_apply (lba count : ℕ) (w : World) :
    request lba count w = .ret ((), { w with reads := w.reads ++ [(lba, count)] }) := rfl

theorem readFsBlocks_block (h : sb.Ok) (hb : b < 2 ^ 49) (w : World) :
    readFsBlocks d sb b 1 blk w =
      d.readBlocks (b * sb.blkPerFs) sb.blkPerFs blk w := by
  have hle := blkPerFs_le h
  rw [readFsBlocks, if_neg one_ne_zero, one_mul, if_neg (by omega),
    Nat.mod_eq_of_lt (mul_blkPerFs_lt h hb)]

theorem readFsBlocks_of_reads (h : sb.Ok) (hb : b < 2 ^ 49) (hlen : blk.len = sb.bs)
    (hrc : d.Reads sb b) (w : World) :
    readFsBlocks d sb b 1 blk w =
      .ret ((0, { blk with bytes := blk.bytes.blit 0 sb.bs (d.block sb b) }),
        { w with reads := w.reads ++ [blockRequest sb b] }) := by
  have hbs := h.blkPerFs
  rw [Disk.Reads] at hrc
  rw [readFsBlocks_block h hb, Disk.readBlocks, bind_of_ret (request_apply _ _ w),
    if_neg (not_not.mpr hrc), bind_of_ret (require_apply (by omega) _), hbs]
  rfl

theorem readFsBlocks_of_not_reads (h : sb.Ok) (hb : b < 2 ^ 49) (hrc : ¬ d.Reads sb b) (w : World) :
    readFsBlocks d sb b 1 blk w =
      .ret ((d.rc (b * sb.blkPerFs) sb.blkPerFs, blk),
        { w with reads := w.reads ++ [blockRequest sb b] }) := by
  rw [Disk.Reads] at hrc
  rw [readFsBlocks_block h hb, Disk.readBlocks, bind_of_ret (request_apply _ _ w), if_pos hrc]
  rfl

end Ext4

end Csos

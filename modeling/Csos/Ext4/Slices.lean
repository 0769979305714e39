import Csos.Ext4.Blocks
/-!
# ext4 — reading is taking a slice

The file of an inode is the bytes that the mapping gives, block by block. If
every block of it can be read, `ext4_read` returns the slice that is asked for,
cut off at the end of the file, and moves on by its length; so a range may be
read in pieces of any sizes.
-/

namespace Csos

namespace Ext4

open Vfs Checked

section

variable (d : Disk) (sb : Sb) (ip : Inode)

/-- The byte `p` of the file: that of the block of the device that `ext4_map`
gives, or zero in a hole and in an unwritten extent. -/
def fileByte (p : ℕ) : UInt8 := byteOf d sb p (mapAt d sb ip (p / sb.bs))

/-- The `n` bytes of the file from `pos` on. -/
def slice (pos n : ℕ) : List UInt8 := (List.range n).map fun k => fileByte d sb ip (pos + k)

/-- **The extent tree is readable**: each block of the file is mapped and can be
read, or is a hole. -/
def Readable : Prop :=
  ∀ lb, lb * sb.bs < ip.size → mapAt d sb ip lb = .error errNoent ∨
    ∃ phys u, mapAt d sb ip lb = .ok (phys, u) ∧ (u = false → d.Reads sb phys)

/-- Calls of `ext4_read` one after the other, into buffers that hold `stack`
before: what is read, and the position after it. -/
def readMany (stack : Bytes) : List ℕ → ℕ → M (List UInt8 × ℕ)
  | [], pos => return ([], pos)
  | len :: lens, pos => do
    let (n, out, pos) ← read d sb ip pos len ⟨stack, len⟩
    let (rest, pos) ← readMany stack lens pos
    return ((List.range n.toNat).map out.bytes ++ rest, pos)

end

variable {d : Disk} {sb : Sb} {ip : Inode} {out blk : Buf} {pos len n k fuel done : ℕ} {w : World}

theorem slice_append (pos n k : ℕ) :
    slice d sb ip pos n ++ slice d sb ip (pos + n) k = slice d sb ip pos (n + k) := by
  rw [slice, slice, slice, List.range_add, List.map_append, List.map_map]
  simp only [Function.comp_def, Nat.add_assoc]

/-! ## One call -/

/-- What the loop needs of a byte of the file. -/
theorem Readable.mapped (hread : Readable d sb ip) (h : sb.Ok) (hsize : ip.size ≤ 2 ^ 32 * sb.bs) {p : ℕ}
    (hp : p < ip.size) : Mapped sb (mapAt d sb ip) p ∧
      ∀ phys, mapAt d sb ip (p / sb.bs) = .ok (phys, false) → d.Reads sb phys := by
  have hlb : p / sb.bs < 2 ^ 32 := by
    rw [Nat.div_lt_iff_lt_mul (Nat.pos_of_ne_zero h.bs_ne)]
    omega
  have hle := Nat.div_mul_le_self p sb.bs
  rcases hread (p / sb.bs) (by omega) with hhole | ⟨phys, u, hok, hdev⟩
  · refine ⟨⟨hlb, .inl hhole⟩, fun phys' he => ?_⟩
    rw [hhole] at he
    cases he
  · refine ⟨⟨hlb, .inr ⟨phys, u, hok, mapAt_lt hlb hok⟩⟩, fun phys' he => ?_⟩
    rw [hok] at he
    cases he
    exact hdev rfl

/-- **A call of `ext4_read`** takes a slice of the file. -/
theorem Readable.read (hread : Readable d sb ip) (h : sb.Ok) (hip : ip.Ok) (hfile : ip.isDir = false)
    (hsize : ip.size ≤ 2 ^ 32 * sb.bs) (ho : len ≤ out.len)
    (halloc : pos < ip.size → (w.alloc w.used).isSome) :
    ∃ (out' : Buf) (w' : World), read d sb ip pos len out w =
        .ret (((min len (ip.size - pos) : ℕ), out', pos + min len (ip.size - pos)), w') ∧
      (∀ k, k < min len (ip.size - pos) → out'.bytes k = fileByte d sb ip (pos + k)) ∧
      w'.alloc = w.alloc := by
  rw [Ext4.read, hfile, if_neg Bool.false_ne_true]
  by_cases hlen : len = 0
  · subst hlen
    rw [if_pos rfl, Nat.zero_min]
    exact ⟨out, w, rfl, fun k hk => absurd hk (by omega), rfl⟩
  rw [if_neg hlen]
  by_cases hpos : ip.size ≤ pos
  · rw [if_pos hpos, Nat.sub_eq_zero_of_le hpos, Nat.min_zero]
    exact ⟨out, w, rfl, fun k hk => absurd hk (by omega), rfl⟩
  rw [if_neg hpos]
  obtain ⟨bytes, hbytes⟩ := Option.isSome_iff_exists.mp (halloc (by omega))
  have hmalloc : kmalloc sb.bs w = .ret (some ⟨bytes, sb.bs⟩, { w with used := w.used + 1 }) := by
    rw [kmalloc, hbytes]
    rfl
  have hmin : (if ip.size - pos < len then ip.size - pos else len) = min len (ip.size - pos) := by
    split <;> omega
  have hroom : 0 + min len (ip.size - pos) ≤ out.len := by omega
  have hin : ∀ p, pos ≤ p → p < pos + min len (ip.size - pos) → p < ip.size := fun p _ _ => by omega
  have hblk : (⟨bytes, sb.bs⟩ : Buf).len = sb.bs := rfl
  obtain ⟨out', w', heq, hst, hw'⟩ := readLoop_slice h
    (fun lb _ blk w hb => by
      obtain ⟨blk', w', h1, h2, h3, -⟩ := map_eq h hip hb w
      exact ⟨blk', w', h1, h2, h3⟩)
    (fun p hp hp' => (hread.mapped h hsize (hin p hp hp')).1)
    (fun p hp hp' => (hread.mapped h hsize (hin p hp hp')).2)
    (Nat.lt_succ_self (min len (ip.size - pos))) hblk hroom { w with used := w.used + 1 }
  refine ⟨out', w', ?_, fun k hk => ?_, hw'⟩
  · dsimp only
    rw [bind_of_ret hmalloc, hmin]
    dsimp only
    rw [bind_of_ret heq]
    dsimp only
    rw [if_pos (by omega), Nat.zero_add]
    rfl
  · have hbyte := hst.1 k hk
    rwa [Nat.zero_add] at hbyte

/-! ## Calls in a row -/

/-- **Reads in a row** take the slices one after the other. -/
theorem Readable.readMany (hread : Readable d sb ip) (h : sb.Ok) (hip : ip.Ok)
    (hfile : ip.isDir = false) (hsize : ip.size ≤ 2 ^ 32 * sb.bs) (stack : Bytes) (lens : List ℕ)
    (halloc : ∀ i, (w.alloc i).isSome) : ∃ w', readMany d sb ip stack lens pos w =
      .ret ((slice d sb ip pos (min lens.sum (ip.size - pos)),
        pos + min lens.sum (ip.size - pos)), w') := by
  induction lens generalizing pos w with
  | nil =>
    rw [List.sum_nil, Nat.zero_min]
    exact ⟨w, rfl⟩
  | cons len lens ih =>
    have hroom : len ≤ (⟨stack, len⟩ : Buf).len := le_rfl
    have hserved : pos < ip.size → (w.alloc w.used).isSome := fun _ => halloc w.used
    obtain ⟨out', w', heq, hbytes, hw'⟩ := hread.read h hip hfile hsize hroom hserved
    have hfirst : (List.range (min len (ip.size - pos))).map out'.bytes =
        slice d sb ip pos (min len (ip.size - pos)) :=
      List.map_congr_left fun k hk => hbytes k (List.mem_range.mp hk)
    have halloc' : ∀ i, (w'.alloc i).isSome := by rwa [hw']
    obtain ⟨w'', hrest⟩ := @ih (pos + min len (ip.size - pos)) w' halloc'
    have hsum : min len (ip.size - pos) + min lens.sum (ip.size - (pos + min len (ip.size - pos))) =
        min (len + lens.sum) (ip.size - pos) := by
      omega
    refine ⟨w'', ?_⟩
    rw [Ext4.readMany, bind_of_ret heq]
    dsimp only
    rw [bind_of_ret hrest, List.sum_cons, ← hsum, ← slice_append, Int.toNat_natCast, hfirst,
      ← Nat.add_assoc]
    rfl

end Ext4

end Csos

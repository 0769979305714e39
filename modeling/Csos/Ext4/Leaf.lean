import Csos.Ext4.Extents
import Mathlib.Data.Nat.Bitwise
/-!
# ext4 — decoding a leaf

The driver takes the top bit of `ee_len` for the mark of an unwritten extent
and adds in 32 bits. Both agree with the format except on an extent of exactly
32768 blocks, which it does not see, and on one that ends at `2 ^ 32` or above.
-/

namespace Csos

namespace Ext4

open Vfs Checked

/-- **What the format says of a block**: the block of the extent that holds it
and whether that is unwritten, or that it is a hole. -/
inductive Maps (xs : List Extent) (lb : ℕ) : Except ℤ (ℕ × Bool) → Prop
  | held (x : Extent) (hx : x ∈ xs) (h : x.Holds lb) :
    Maps xs lb (.ok (x.start + (lb - x.block), x.unwritten))
  | hole (h : ∀ x ∈ xs, ¬ x.Holds lb) : Maps xs lb (.error errNoent)

/-- The extents that the driver decodes as the format does. -/
def Extent.Fits (x : Extent) : Prop := x.len ≠ 32768 ∧ x.block + x.blocks < 2 ^ 32

variable {d : Disk} {sb : Sb} {m : Bytes} {node scratch : Buf} {x y : Extent} {xs : List Extent}
  {lb n e nodeLen depthLeft : ℕ}

/-! ## One extent -/

/-- The fields are as wide as on the disk. -/
structure Extent.Wide (x : Extent) : Prop where
  block : x.block < 2 ^ 32
  len : x.len < 2 ^ 16
  start : x.start < 2 ^ 48

theorem wide_extentAt (m : Bytes) (e : ℕ) : (extentAt m e).Wide := by
  have h1 : m.load 4 e < 256 ^ 4 := Bytes.load_lt 4 m e
  have h2 : m.load 2 (e + 4) < 256 ^ 2 := Bytes.load_lt 2 m (e + 4)
  have h3 : m.load 4 (e + 8) < 256 ^ 4 := Bytes.load_lt 4 m (e + 8)
  have h4 : m.load 2 (e + 6) < 256 ^ 2 := Bytes.load_lt 2 m (e + 6)
  refine ⟨?_, ?_, ?_⟩
  · dsimp only [extentAt]
    omega
  · dsimp only [extentAt]
    omega
  · dsimp only [extentAt]
    omega

theorem wide_of_mem (h : x ∈ extents m n e) : x.Wide := by
  induction n generalizing e with
  | zero => cases h
  | succ n ih =>
    rcases List.mem_cons.mp h with rfl | h
    · exact wide_extentAt m e
    · exact ih h

theorem and_eeLenMask (len : ℕ) : len &&& eeLenMask = len % 32768 :=
  Nat.and_two_pow_sub_one_eq_mod len 15

theorem and_eeUninit_ne_zero {len : ℕ} (h : len < 2 ^ 16) : len &&& eeUninit ≠ 0 ↔ 32768 ≤ len := by
  rw [show eeUninit = 2 ^ 15 from rfl, Nat.and_comm, Nat.two_pow_and,
    Nat.testBit_eq_decide_div_mod_eq]
  by_cases hbit : len / 2 ^ 15 % 2 = 1
  · simp only [hbit, decide_true, Bool.toNat_true]
    omega
  · simp only [hbit, decide_false, Bool.toNat_false]
    omega

/-- **The test of the loop**: the extent holds the block, and is one that the
driver decodes. -/
theorem hit_iff (hw : x.Wide) (hlb : lb < 2 ^ 32) :
    x.hit lb = true ↔ x.Holds lb ∧ x.Fits := by
  have hb := hw.block
  have hl := hw.len
  rw [Extent.hit, decide_eq_true_iff, and_eeLenMask]
  unfold Extent.Holds Extent.Fits Extent.blocks
  by_cases htop : x.len ≤ 32768
  · rw [if_pos htop]
    omega
  · rw [if_neg htop]
    omega

theorem mapped_eq (hw : x.Wide) (hfits : x.Fits) :
    x.mapped lb = (x.start + (lb - x.block), x.unwritten) := by
  have hne := hfits.1
  have hiff : x.len &&& eeUninit ≠ 0 ↔ 32768 < x.len := by
    rw [and_eeUninit_ne_zero hw.len]
    omega
  rw [Extent.mapped, Extent.unwritten, decide_eq_decide.mpr hiff]

/-! ## A leaf -/

/-- Extents that do not overlap have no block in common. -/
theorem eq_of_holds (hs : xs.Pairwise fun x y => x.block + x.blocks ≤ y.block) (hx : x ∈ xs)
    (hy : y ∈ xs) (hxl : x.Holds lb) (hyl : y.Holds lb) : x = y := by
  by_contra hne
  have hsymm : Std.Symm fun x y : Extent =>
      x.block + x.blocks ≤ y.block ∨ y.block + y.blocks ≤ x.block := ⟨fun _ _ h => h.symm⟩
  have hor : xs.Pairwise fun x y => x.block + x.blocks ≤ y.block ∨ y.block + y.blocks ≤ x.block :=
    hs.imp Or.inl
  have hxy := hor.forall hx hy hne
  obtain ⟨h1, h2⟩ := hxl
  obtain ⟨h3, h4⟩ := hyl
  omega

theorem leafFind_cases (xs : List Extent) (lb : ℕ) :
    (∃ x ∈ xs, x.hit lb = true ∧ leafFind xs lb = .ok (x.mapped lb)) ∨
      (∀ x ∈ xs, x.hit lb ≠ true) ∧ leafFind xs lb = .error errNoent := by
  rw [leafFind]
  cases hfind : xs.find? (·.hit lb) with
  | none => exact .inr ⟨List.find?_eq_none.mp hfind, rfl⟩
  | some x =>
    have hhit := List.find?_some hfind
    exact .inl ⟨x, List.mem_of_find?_eq_some hfind, hhit, rfl⟩

/-- **A leaf is decoded as the format says** exactly at the blocks whose extent
the driver can decode. -/
theorem maps_leafFind_iff (hs : xs.Pairwise fun x y => x.block + x.blocks ≤ y.block)
    (hw : ∀ x ∈ xs, x.Wide) (hlb : lb < 2 ^ 32) :
    Maps xs lb (leafFind xs lb) ↔ ∀ x ∈ xs, x.Holds lb → x.Fits := by
  have hhit : ∀ x ∈ xs, x.hit lb = true ↔ x.Holds lb ∧ x.Fits := fun x hx =>
    hit_iff (hw x hx) hlb
  rcases leafFind_cases xs lb with ⟨x, hx, hxhit, heq⟩ | ⟨hmiss, heq⟩
  · obtain ⟨hholds, hfits⟩ := (hhit x hx).mp hxhit
    rw [heq, mapped_eq (hw x hx) hfits]
    refine ⟨fun _ y hy hyl => ?_, fun _ => .held x hx hholds⟩
    rw [eq_of_holds hs hy hx hyl hholds]
    exact hfits
  · rw [heq]
    constructor
    · intro hmaps x hx hholds
      cases hmaps with
      | hole h => exact absurd hholds (h x hx)
    · intro h
      exact .hole fun x hx hholds => hmiss x hx ((hhit x hx).mpr ⟨hholds, h x hx hholds⟩)

/-- The walk ends at a leaf without a read. -/
theorem mapWalk_leaf (h : Header node.bytes nodeLen 0) (hlen : nodeLen ≤ node.len) (w : World) :
    mapWalk d sb lb depthLeft node nodeLen scratch w =
      .ret ((leafFind (leafExtents node.bytes) lb, scratch), w) := by
  unfold mapWalk
  rw [bind_of_ret (mapStep_leaf h hlen w)]
  rfl

/-! ## Reading a file -/

/-- What the format says of the byte `p` of a file: the byte of the device, or
zero in an unwritten extent and in a hole. -/
inductive Content (d : Disk) (sb : Sb) (xs : List Extent) (p : ℕ) : UInt8 → Prop
  | data (x : Extent) (hx : x ∈ xs) (h : x.Holds (p / sb.bs)) (hw : x.unwritten = false) :
    Content d sb xs p (d.block sb (x.start + (p / sb.bs - x.block)) (p % sb.bs))
  | unwritten (x : Extent) (hx : x ∈ xs) (h : x.Holds (p / sb.bs)) (hw : x.unwritten = true) :
    Content d sb xs p 0
  | hole (h : ∀ x ∈ xs, ¬ x.Holds (p / sb.bs)) : Content d sb xs p 0

/-- The byte that `ext4_read` stores for `p`, from the mapping of its block. -/
def byteOf (d : Disk) (sb : Sb) (p : ℕ) : Except ℤ (ℕ × Bool) → UInt8
  | .ok (phys, false) => d.block sb phys (p % sb.bs)
  | _ => 0

theorem content_of_maps {p : ℕ} {r : Except ℤ (ℕ × Bool)} (h : Maps xs (p / sb.bs) r) :
    Content d sb xs p (byteOf d sb p r) := by
  cases h with
  | held x hx h =>
    cases hw : x.unwritten with
    | true => exact .unwritten x hx h hw
    | false => exact .data x hx h hw
  | hole h => exact .hole h

section

variable {ip : Inode} {out blk : Buf} {fuel pos len done : ℕ} {f : ℕ → Except ℤ (ℕ × Bool)}

/-- The bytes of a chunk are those of one block. -/
theorem chunk_bytes {bs k chunk : ℕ} (hbs : 0 < bs) (hchunk : pos % bs + chunk ≤ bs) (hk : k < chunk) :
    (pos + k) / bs = pos / bs ∧ (pos + k) % bs = pos % bs + k := by
  have hdiv := Nat.div_add_mod pos bs
  have hsplit : pos + k = bs * (pos / bs) + (pos % bs + k) := by omega
  have hlt : pos % bs + k < bs := by omega
  constructor
  · rw [hsplit, Nat.mul_add_div hbs, Nat.div_eq_of_lt hlt, Nat.add_zero]
  · rw [hsplit, Nat.mul_add_mod, Nat.mod_eq_of_lt hlt]

/-- What the loop of `ext4_read` leaves behind: the bytes it has stored, and
those before them as they were. -/
def Stored (d : Disk) (sb : Sb) (f : ℕ → Except ℤ (ℕ × Bool)) (out out' : Buf) (done pos len : ℕ) :
    Prop :=
  (∀ k, k < len → out'.bytes (done + k) = byteOf d sb (pos + k) (f ((pos + k) / sb.bs))) ∧
    ∀ i, i < done → out'.bytes i = out.bytes i

/-- A chunk and what comes after it. -/
theorem Stored.cons {out₁ out₂ : Buf} {chunk : ℕ} (hchunk : chunk ≤ len)
    (h₁ : Stored d sb f out out₁ done pos chunk)
    (h₂ : Stored d sb f out₁ out₂ (done + chunk) (pos + chunk) (len - chunk)) :
    Stored d sb f out out₂ done pos len := by
  constructor
  · intro k hk
    by_cases hlt : k < chunk
    · rw [h₂.2 _ (by omega), h₁.1 k hlt]
    · have hrest := h₂.1 (k - chunk) (by omega)
      rw [show done + chunk + (k - chunk) = done + k by omega,
        show pos + chunk + (k - chunk) = pos + k by omega] at hrest
      exact hrest
  · intro i hi
    rw [h₂.2 i (by omega), h₁.2 i hi]

/-- A chunk that is filled with `src`. -/
theorem stored_blit {chunk : ℕ} {src : Bytes}
    (h : ∀ k, k < chunk → src k = byteOf d sb (pos + k) (f ((pos + k) / sb.bs))) :
    Stored d sb f out { out with bytes := out.bytes.blit done chunk src } done pos chunk := by
  constructor
  · intro k hk
    rw [← h k hk]
    exact Bytes.blit_apply_of_mem hk
  · intro i hi
    exact Bytes.blit_apply_of_notMem (Or.inl hi)

/-- What the loop of `ext4_read` needs of the mapping at the bytes it reads. -/
def Mapped (sb : Sb) (f : ℕ → Except ℤ (ℕ × Bool)) (p : ℕ) : Prop :=
  p / sb.bs < 2 ^ 32 ∧
    (f (p / sb.bs) = .error errNoent ∨ ∃ phys u, f (p / sb.bs) = .ok (phys, u) ∧ phys < 2 ^ 49)

/-- **The loop of `ext4_read` stores the bytes that the mapping gives**, each
chunk from one block; `blk` may hold anything before and after. -/
theorem readLoop_slice (h : sb.Ok)
    (hmap : ∀ lb, lb < 2 ^ 32 → ∀ (blk : Buf) w, blk.len = sb.bs →
      ∃ blk' w', map d sb ip lb blk w = .ret ((f lb, blk'), w') ∧ blk'.len = sb.bs ∧
        w'.alloc = w.alloc)
    (hf : ∀ p, pos ≤ p → p < pos + len → Mapped sb f p)
    (hdev : ∀ p, pos ≤ p → p < pos + len → ∀ phys, f (p / sb.bs) = .ok (phys, false) →
      d.Reads sb phys)
    (hfuel : len < fuel) (hb : blk.len = sb.bs) (ho : done + len ≤ out.len) (w : World) :
    ∃ out' w', readLoop d sb ip fuel out blk done pos len w =
        .ret ((out', done + len, pos + len), w') ∧ Stored d sb f out out' done pos len ∧
          w'.alloc = w.alloc := by
  induction fuel generalizing out blk done pos len w with
  | zero => omega
  | succ fuel ih =>
    by_cases hlen : len = 0
    · subst hlen
      refine ⟨out, w, rfl, ⟨fun k hk => absurd hk (by omega), fun _ _ => rfl⟩, rfl⟩
    have hbs := h.bs_pos
    obtain ⟨hlb, hcase⟩ := hf pos le_rfl (by omega)
    have hinner : pos % sb.bs < sb.bs := Nat.mod_lt _ (by omega)
    rw [readLoop, if_neg hlen, bind_of_ret (div_apply h.bs_ne w), bind_of_ret (mod_apply h.bs_ne w)]
    dsimp only
    have hle := h.bs_le
    rw [Nat.mod_eq_of_lt hlb, Nat.mod_eq_of_lt (show pos % sb.bs < 2 ^ 32 by omega)]
    generalize hchunk : (if len < sb.bs - pos % sb.bs then len else sb.bs - pos % sb.bs) = chunk
    have hsize : 0 < chunk ∧ chunk ≤ len ∧ pos % sb.bs + chunk ≤ sb.bs := by
      rw [← hchunk]
      split <;> omega
    obtain ⟨hpos, hlec, hend⟩ := hsize
    -- the chunk and the rounds after it
    have hrest : ∀ (src : Bytes) (blk' : Buf) (w' : World), blk'.len = sb.bs →
        (∀ k, k < chunk → src k = byteOf d sb (pos + k) (f (pos / sb.bs))) →
        ∃ out' w'', readLoop d sb ip fuel { out with bytes := out.bytes.blit done chunk src } blk'
            (done + chunk) (pos + chunk) (len - chunk) w' =
              .ret ((out', done + len, pos + len), w'') ∧ Stored d sb f out out' done pos len ∧
                w''.alloc = w'.alloc := by
      intro src blk' w' hb' hsrc
      have hout : done + chunk + (len - chunk) ≤
          ({ out with bytes := out.bytes.blit done chunk src } : Buf).len := by
        dsimp only
        omega
      have hf' : ∀ p, pos + chunk ≤ p → p < pos + chunk + (len - chunk) → Mapped sb f p :=
        fun p hp hp' => hf p (by omega) (by omega)
      obtain ⟨out', w'', heq, hst, hw''⟩ := ih hf'
        (fun p hp hp' => hdev p (by omega) (by omega)) (by omega) hb' hout w'
      refine ⟨out', w'', ?_, Stored.cons hlec (stored_blit fun k hk => ?_) hst, hw''⟩
      · rw [heq, show done + chunk + (len - chunk) = done + len by omega,
          show pos + chunk + (len - chunk) = pos + len by omega]
      · rw [(chunk_bytes (by omega) hend hk).1]
        exact hsrc k hk
    obtain ⟨blk₁, w₁, hret, hb₁, hw₁⟩ := hmap _ hlb blk w hb
    rw [← hw₁]
    rw [bind_of_ret hret]
    rcases hcase with hnoent | ⟨phys, u, hok, hphys⟩
    · rw [hnoent] at hrest ⊢
      dsimp only
      rw [if_pos rfl, bind_of_ret (Buf.fill_apply (by omega) w₁)]
      exact hrest _ blk₁ w₁ hb₁ fun k _ => rfl
    · have hok₀ := hok
      rw [hok] at hrest ⊢
      dsimp only
      cases u with
      | true =>
        rw [if_pos rfl, bind_of_ret (Buf.fill_apply (by omega) w₁)]
        exact hrest _ blk₁ w₁ hb₁ fun k _ => rfl
      | false =>
        have hreads := hdev pos le_rfl (by omega) phys hok₀
        rw [if_neg Bool.false_ne_true, bind_of_ret (readFsBlocks_of_reads h hphys hb₁ hreads w₁)]
        dsimp only
        rw [if_neg (not_not.mpr rfl), bind_of_ret (Buf.copy_apply (by omega) (by dsimp only; omega) _)]
        refine hrest _ _ _ hb₁ fun k hk => ?_
        rw [byteOf, (chunk_bytes (by omega) hend hk).2]
        exact Bytes.blit_zero_apply (by omega)

/-- The same where the mapping neither uses `blk` nor reads the device. -/
theorem readLoop_stored (h : sb.Ok)
    (hmap : ∀ lb, lb < 2 ^ 32 → ∀ blk w, map d sb ip lb blk w = .ret ((f lb, blk), w))
    (hdev : ∀ b, d.Reads sb b) (hf : ∀ p, pos ≤ p → p < pos + len → Mapped sb f p)
    (hfuel : len < fuel) (hb : blk.len = sb.bs) (ho : done + len ≤ out.len) (w : World) :
    ∃ out' w', readLoop d sb ip fuel out blk done pos len w =
        .ret ((out', done + len, pos + len), w') ∧ Stored d sb f out out' done pos len := by
  obtain ⟨out', w', heq, hst, -⟩ := readLoop_slice h
    (fun lb hlb blk w hlen => ⟨blk, w, hmap lb hlb blk w, hlen, rfl⟩) hf
    (fun _ _ _ phys _ => hdev phys) hfuel hb ho w
  exact ⟨out', w', heq, hst⟩

theorem start_add_lt (hw : x.Wide) (hlb : lb < 2 ^ 32) :
    x.start + (lb - x.block) < 2 ^ 49 := by
  have := hw.start
  omega

/-- A block that is decoded as the format says can be read. -/
theorem mapped_of_maps {p : ℕ} (hw : ∀ x ∈ xs, x.Wide) (hlb : p / sb.bs < 2 ^ 32)
    (h : Maps xs (p / sb.bs) (f (p / sb.bs))) : Mapped sb f p := by
  refine ⟨hlb, ?_⟩
  generalize hr : f (p / sb.bs) = r at h
  cases h with
  | held x hx h => exact Or.inr ⟨_, _, rfl, start_add_lt (hw x hx) hlb⟩
  | hole h => exact Or.inl rfl

theorem map_root (hroot : Header ip.blk.bytes 60 0) (hlen : 60 ≤ ip.blk.len)
    (hflags : ip.flags &&& extentsFl ≠ 0) (w : World) :
    map d sb ip lb blk w = .ret ((leafFind (leafExtents ip.blk.bytes) lb, blk), w) := by
  rw [map, if_neg hflags]
  exact mapWalk_leaf hroot hlen w

/-- **`ext4_read` of a file whose root is a leaf** stores what the format says,
if each block it reads is decoded as the format says. -/
theorem read_content (h : sb.Ok) (hleaf : Leaf ip.blk.bytes 60) (hlen : 60 ≤ ip.blk.len)
    (hflags : ip.flags &&& extentsFl ≠ 0) (hreg : ip.isDir = false) (hdev : ∀ b, d.Reads sb b)
    (hpos : pos < ip.size) (hne : len ≠ 0) (ho : len ≤ out.len) {w : World}
    (halloc : (w.alloc w.used).isSome)
    (hfits : ∀ p, pos ≤ p → p < pos + len → p < ip.size → p / sb.bs < 2 ^ 32 ∧
      ∀ x ∈ leafExtents ip.blk.bytes, x.Holds (p / sb.bs) → x.Fits) :
    ∃ (n : ℕ) (out' : Buf) (w' : World), n = min len (ip.size - pos) ∧
      read d sb ip pos len out w = .ret ((n, out', pos + n), w') ∧
      ∀ k, k < n → Content d sb (leafExtents ip.blk.bytes) (pos + k) (out'.bytes k) := by
  obtain ⟨bytes, hbytes⟩ := Option.isSome_iff_exists.mp halloc
  have hmalloc : kmalloc sb.bs w = .ret (some ⟨bytes, sb.bs⟩, { w with used := w.used + 1 }) := by
    rw [kmalloc, hbytes]
    rfl
  have hmin : (if ip.size - pos < len then ip.size - pos else len) = min len (ip.size - pos) := by
    split <;> omega
  have hmaps : ∀ p, pos ≤ p → p < pos + min len (ip.size - pos) →
      Maps (leafExtents ip.blk.bytes) (p / sb.bs) (leafFind (leafExtents ip.blk.bytes) (p / sb.bs)) := by
    intro p hp hp'
    obtain ⟨hlb, hx⟩ := hfits p hp (by omega) (by omega)
    exact (maps_leafFind_iff hleaf.sorted (fun x => wide_of_mem) hlb).mpr hx
  obtain ⟨out', w', heq, hst⟩ := readLoop_stored h
    (fun lb _ blk w => map_root hleaf.header hlen hflags w) hdev
    (fun p hp hp' => mapped_of_maps (fun x => wide_of_mem) (hfits p hp (by omega) (by omega)).1
      (hmaps p hp hp'))
    (Nat.lt_succ_self (min len (ip.size - pos))) (show (⟨bytes, sb.bs⟩ : Buf).len = sb.bs from rfl)
    (show 0 + min len (ip.size - pos) ≤ out.len by omega) { w with used := w.used + 1 }
  refine ⟨_, out', w', rfl, ?_, fun k hk => ?_⟩
  · rw [read, hreg, if_neg Bool.false_ne_true, if_neg hne, if_neg (by omega)]
    dsimp only
    rw [bind_of_ret hmalloc, hmin]
    dsimp only
    rw [bind_of_ret heq]
    dsimp only
    rw [if_pos (by omega), Nat.zero_add]
    rfl
  · have hbyte := hst.1 k hk
    rw [Nat.zero_add] at hbyte
    rw [hbyte]
    exact content_of_maps (hmaps (pos + k) (by omega) (by omega))

end

/-- **Leaf extents are decoded as the format defines them** exactly at the
blocks whose extent has not 32768 blocks and ends below `2 ^ 32`; where that is
so at every block of a request, `ext4_read` stores the bytes of the file. -/
theorem leaf_decoded_iff (h : sb.Ok) (hleaf : Leaf node.bytes nodeLen) (hlen : nodeLen ≤ node.len) :
    (∀ lb, lb < 2 ^ 32 → ∀ depthLeft scratch w,
      (∃ r, mapWalk d sb lb depthLeft node nodeLen scratch w = .ret ((r, scratch), w) ∧
        Maps (leafExtents node.bytes) lb r) ↔
      ∀ x ∈ leafExtents node.bytes, x.Holds lb → x.Fits) ∧
    ∀ ip : Inode, ip.blk = node → nodeLen = 60 → ip.flags &&& extentsFl ≠ 0 → ip.isDir = false →
      (∀ b, d.Reads sb b) → ∀ pos len out w, pos < ip.size → len ≠ 0 → len ≤ out.len →
      (World.alloc w w.used).isSome →
      (∀ p, pos ≤ p → p < pos + len → p < ip.size → p / sb.bs < 2 ^ 32 ∧
        ∀ x ∈ leafExtents node.bytes, x.Holds (p / sb.bs) → x.Fits) →
      ∃ (n : ℕ) (out' : Buf) (w' : World), n = min len (ip.size - pos) ∧
        read d sb ip pos len out w = .ret ((n, out', pos + n), w') ∧
        ∀ k, k < n → Content d sb (leafExtents node.bytes) (pos + k) (out'.bytes k) := by
  constructor
  · intro lb hlb depthLeft scratch w
    rw [mapWalk_leaf hleaf.header hlen w, ← maps_leafFind_iff hleaf.sorted (fun x => wide_of_mem) hlb]
    constructor
    · rintro ⟨r, heq, hr⟩
      cases heq
      exact hr
    · intro hr
      exact ⟨_, rfl, hr⟩
  · rintro ip rfl rfl hflags hreg hdev pos len out w hpos hne ho halloc hfits
    exact read_content h hleaf hlen hflags hreg hdev hpos hne ho halloc hfits

/-! ## A leaf with one extent -/

/-- A root with one extent at block 0 of the file and block 100 of the device,
whose length has the upper byte `len`. -/
def oneExtent (len : UInt8) : Bytes := fun i =>
  [0x0a, 0xf3, 1, 0, 4, 0, 0, 0, 0, 0, 0, 0, 0, 0, 0, 0, 0, len, 0, 0, 100].getD i 0

theorem leafExtents_oneExtent (len : UInt8) :
    leafExtents (oneExtent len) = [⟨0, 256 * len.toNat, 100⟩] := by
  simp [leafExtents, ehEntries, oneExtent, Bytes.load, extents, extentAt]

theorem leaf_oneExtent (len : UInt8) : Leaf (oneExtent len) 60 := by
  refine ⟨⟨?_, ?_, ?_, ?_⟩, ?_⟩
  · simp [oneExtent, Bytes.load]
  · simp [oneExtent, Bytes.load, ehEntries]
  · simp [oneExtent, Bytes.load]
  · simp [oneExtent, Bytes.load]
  · rw [leafExtents_oneExtent]
    exact List.pairwise_singleton _ _

/-- A mounted file system with blocks of 1024 bytes. -/
def sampleSb : Sb where
  bs := 1024
  blkPerFs := 2
  totalBlocks := 64
  blocksPerGroup := 64
  inodesPerGroup := 8
  ngroups := 1
  inodeSize := 128
  descSize := 32
  is64bit := false
  gd := ⟨Bytes.const 0, 1024⟩

theorem sampleSb_ok : sampleSb.Ok := ⟨by decide, by decide, rfl, by decide, by decide, by decide, by decide⟩

/-- A device that never fails. -/
def sampleDisk : Disk := ⟨Bytes.const 0, fun _ _ => 0⟩

/-- Nothing has been read yet. -/
def sampleWorld : World := ⟨fun _ => some (Bytes.const 0), 0, []⟩

/-- The block 5 of an extent of 256 blocks. -/
theorem leaf_decoded_256 :
    ∃ r, mapWalk sampleDisk sampleSb 5 5 ⟨oneExtent 1, 60⟩ 60 ⟨Bytes.const 0, 1024⟩ sampleWorld =
      .ret ((r, ⟨Bytes.const 0, 1024⟩), sampleWorld) ∧ Maps (leafExtents (oneExtent 1)) 5 r := by
  refine ((leaf_decoded_iff sampleSb_ok (leaf_oneExtent 1) le_rfl).1 5 (by decide) _ _ _).mpr ?_
  intro x hx _
  rw [leafExtents_oneExtent, List.mem_singleton] at hx
  subst hx
  exact ⟨by decide, by decide⟩

/-- **An extent of 32768 blocks is taken for a hole.** -/
theorem extent_32768_is_lost : Leaf (oneExtent 128) 60 ∧ ∀ d sb scratch w,
    ¬ ∃ r, mapWalk d sb 5 5 ⟨oneExtent 128, 60⟩ 60 scratch w = .ret ((r, scratch), w) ∧
      Maps (leafExtents (oneExtent 128)) 5 r := by
  refine ⟨leaf_oneExtent 128, ?_⟩
  rintro d sb scratch w ⟨r, heq, hmaps⟩
  rw [mapWalk_leaf (leaf_oneExtent 128).header le_rfl w] at heq
  cases heq
  have hfits := (maps_leafFind_iff (leaf_oneExtent 128).sorted (fun x => wide_of_mem) (by decide)).mp
    hmaps ⟨0, 32768, 100⟩
  rw [leafExtents_oneExtent] at hfits
  exact (hfits (List.mem_singleton.mpr rfl) ⟨by decide, by decide⟩).1 rfl

end Ext4

end Csos

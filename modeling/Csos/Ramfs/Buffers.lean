import Csos.Ramfs.Lookup
/-!
# The RAM file system — buffers

A file has a buffer of `cap` bytes of which the first `size` are its contents;
what lies behind them is left over from `kmalloc` or from before a truncation.
`ramfs_grow` keeps the contents, and `ramfs_write` fills the gap before its
position with zeros, so that nothing left over is ever read.
-/

namespace Csos

namespace Ramfs

open Vfs

variable {n n₁ : Node} {need pos len fuel ncap : ℕ} {mem : Option Bytes} {buf : List UInt8}

/-- **The buffer of a node.** -/
structure BufferOk (n : Node) : Prop where
  dir : n.isDir = true → n.size = 0
  empty : n.data = none → n.size = 0
  cap_ne : n.data ≠ none → n.cap ≠ 0
  size_le : n.size ≤ n.cap
  cap_lt : n.cap < 2 ^ 32

@[simp] theorem Node.bytes_length (n : Node) : n.bytes.length = n.size := by
  rw [Node.bytes, List.length_map, List.length_range]

theorem Node.bytes_getD (n : Node) (i : ℕ) : n.bytes.getD i 0 = if i < n.size then n.byte i else 0 := by
  rw [Node.bytes, List.getD_eq_getElem?_getD, List.getElem?_map]
  by_cases hi : i < n.size
  · rw [List.getElem?_range hi, if_pos hi]
    rfl
  · rw [List.getElem?_eq_none (by simpa using hi), if_neg hi]
    rfl

/-! ## Reading -/

/-- **`ramfs_read`** gives what is left of the contents, up to `len` bytes. -/
theorem bytes_drop_take (hb : BufferOk n) (pos len : ℕ) :
    let avail := if pos < n.size then n.size - pos else 0
    let got := if avail < len then avail else len
    got = ((n.bytes.drop pos).take len).length ∧
      (List.range (got % 2 ^ 32)).map (fun i => n.byte (pos + i)) = (n.bytes.drop pos).take len := by
  intro avail got
  have h1 := hb.size_le
  have h2 := hb.cap_lt
  have hgot : got = min len (n.size - pos) := by
    simp only [got, avail]
    split <;> split <;> omega
  have hlen : ((n.bytes.drop pos).take len).length = got := by
    rw [List.length_take, List.length_drop, Node.bytes_length, hgot]
  refine ⟨hlen.symm, ?_⟩
  rw [Nat.mod_eq_of_lt (by omega)]
  refine List.ext_getElem (by rw [hlen, List.length_map, List.length_range]) fun i hi _ => ?_
  rw [List.length_map, List.length_range] at hi
  simp only [List.getElem_map, List.getElem_range, List.getElem_take, List.getElem_drop, Node.bytes]

/-! ## Growing -/

theorem growLoop_ge (h1 : 1 ≤ ncap) (hneed : need ≤ 2 ^ 63) (hf : need ≤ ncap * 2 ^ fuel) :
    need ≤ growLoop need fuel ncap ∧ 1 ≤ growLoop need fuel ncap := by
  induction fuel generalizing ncap with
  | zero =>
    rw [pow_zero, Nat.mul_one] at hf
    exact ⟨hf, h1⟩
  | succ fuel ih =>
    rw [growLoop]
    split
    · rw [Nat.mod_eq_of_lt (by omega)]
      exact ih (by omega) (by rw [pow_succ] at hf; nlinarith)
    · exact ⟨by omega, h1⟩

theorem Node.firstCap_pos (n : Node) : 1 ≤ n.firstCap := by
  rw [Node.firstCap]
  split
  · omega
  · norm_num

theorem Node.newCap_ge (n : Node) (hneed : need ≤ 2 ^ 63) : need ≤ n.newCap need ∧ 1 ≤ n.newCap need :=
  growLoop_ge n.firstCap_pos hneed (hneed.trans (by
    have := n.firstCap_pos
    calc 2 ^ 63 ≤ 1 * 2 ^ 64 := by norm_num
      _ ≤ n.firstCap * 2 ^ 64 := Nat.mul_le_mul_right _ this))

/-- What a change of the buffer leaves alone. -/
structure SameLinks (x y : Node) : Prop where
  name : y.name = x.name
  isDir : y.isDir = x.isDir
  refs : y.refs = x.refs
  parent : y.parent = x.parent
  child : y.child = x.child
  sibling : y.sibling = x.sibling

/-- **`ramfs_grow`** makes room and keeps the contents. -/
theorem grow_spec (hb : BufferOk n) (hdir : n.isDir = false) (hneed : need ≤ 2 ^ 63)
    (hmem : bufferOk n need mem = true) (hg : grow n need mem = some n₁) :
    BufferOk n₁ ∧ n₁.data ≠ none ∧ n₁.size = n.size ∧ need ≤ n₁.cap ∧ SameLinks n n₁ ∧
      ∀ i < n.size, n₁.byte i = n.byte i := by
  have hsize := hb.size_le
  have hcap := hb.cap_lt
  unfold grow at hg
  split at hg
  · rename_i hfits
    obtain rfl := Option.some.inj hg
    simp only [Node.fits, decide_eq_true_eq] at hfits
    obtain ⟨hdata, hle⟩ := hfits
    have hne : n.data ≠ none := by
      intro he
      rw [he] at hdata
      exact absurd hdata (by simp)
    have hfirst : n.firstCap = n.cap := if_pos (hb.cap_ne hne)
    exact ⟨hb, hne, rfl, hfirst ▸ hle, ⟨rfl, rfl, rfl, rfl, rfl, rfl⟩, fun _ _ => rfl⟩
  · rename_i hfits
    cases mem with
    | none => exact absurd hg (by simp)
    | some fresh =>
      obtain rfl := Option.some.inj hg
      have hlt : n.newCap need < 2 ^ 32 := by
        simpa [bufferOk, hfits] using hmem
      obtain ⟨hge, hge1⟩ := n.newCap_ge hneed
      -- the contents fit: they were in the smaller buffer, or there were none
      have hold : n.size ≤ n.newCap need := by
        rcases hdata : n.data with _ | old
        · rw [hb.empty hdata]
          exact Nat.zero_le _
        · have hc := hb.cap_ne (by rw [hdata]; simp)
          have hfirst : n.firstCap = n.cap := if_pos hc
          have hnot : ¬ need ≤ n.cap := by
            simpa [Node.fits, hdata, hfirst] using hfits
          omega
      refine ⟨⟨fun hd => absurd (hdir.symm.trans hd) (by simp), fun he => absurd he (by simp),
        fun _ => ?_, hold, hlt⟩, by simp, rfl, hge, ⟨rfl, rfl, rfl, rfl, rfl, rfl⟩, fun i hi => ?_⟩
      · change n.newCap need ≠ 0
        omega
      · rcases hdata : n.data with _ | old
        · rw [hb.empty hdata] at hi
          exact absurd hi (Nat.not_lt_zero i)
        · simp only [Node.byte, hdata]
          rw [if_pos (by omega), Bytes.blit, if_pos (by omega), Nat.sub_zero]

/-! ## Writing -/

/-- `n->size = f->pos` of `ramfs_write`. -/
def Node.extend (n : Node) (pos : ℕ) : Node := if n.size < pos then { n with size := pos } else n

theorem Node.extend_size (n : Node) (pos : ℕ) : (n.extend pos).size = max n.size pos := by
  rw [Node.extend]
  split
  · change pos = _
    omega
  · omega

theorem Node.extend_byte (n : Node) (pos i : ℕ) : (n.extend pos).byte i = n.byte i := by
  rw [Node.extend]
  split <;> rfl

theorem store_byte (hdata : n.data ≠ none) (hpos : pos + buf.length < 2 ^ 32) (i : ℕ) :
    (store n pos buf).byte i = if pos ≤ i ∧ i < pos + buf.length then buf.getD (i - pos) 0
      else if n.size ≤ i ∧ i < pos then 0 else n.byte i := by
  obtain ⟨data, hd⟩ := Option.ne_none_iff_exists'.mp hdata
  simp only [store, hd, Node.byte]
  rw [Nat.mod_eq_of_lt (by omega : buf.length < 2 ^ 32), Bytes.blit]
  split
  · rfl
  by_cases hgap : n.size < pos
  · rw [if_pos hgap, Nat.mod_eq_of_lt (by omega), Bytes.blit]
    by_cases hi : n.size ≤ i ∧ i < pos
    · rw [if_pos hi, if_pos (by omega)]
      rfl
    · rw [if_neg hi, if_neg (by omega)]
  · rw [if_neg hgap, if_neg (by omega)]

theorem store_links (n : Node) (pos : ℕ) (buf : List UInt8) :
    SameLinks n (store n pos buf) ∧ (store n pos buf).size = n.size ∧
      (store n pos buf).cap = n.cap ∧ (n.data ≠ none → (store n pos buf).data ≠ none) := by
  rw [store]
  split
  · rename_i hd
    exact ⟨⟨rfl, rfl, rfl, rfl, rfl, rfl⟩, rfl, rfl, fun h => absurd hd h⟩
  · exact ⟨⟨rfl, rfl, rfl, rfl, rfl, rfl⟩, rfl, rfl, fun _ => by simp⟩

/-- **`ramfs_write`** on a node: zeros up to the position, then the buffer. -/
theorem write_spec (hb : BufferOk n) (hdir : n.isDir = false) (hneed : pos + buf.length ≤ 2 ^ 63)
    (hmem : bufferOk n (pos + buf.length) mem = true)
    (hg : grow n (pos + buf.length) mem = some n₁) :
    let n' := (store n₁ pos buf).extend (pos + buf.length)
    BufferOk n' ∧ SameLinks n n' ∧ n'.bytes = writeAt n.bytes pos buf ∧ pos + buf.length < 2 ^ 32 := by
  intro n'
  obtain ⟨hb₁, hdata, hsize, hcap, hlinks, hbyte⟩ := grow_spec hb hdir hneed hmem hg
  obtain ⟨hl, hs, hc, hd⟩ := store_links n₁ pos buf
  have hlt : pos + buf.length < 2 ^ 32 := Nat.lt_of_le_of_lt hcap hb₁.cap_lt
  have hlinks' : SameLinks (store n₁ pos buf) n' := by
    simp only [n', Node.extend]
    split <;> exact ⟨rfl, rfl, rfl, rfl, rfl, rfl⟩
  have hcap' : n'.cap = n₁.cap := by
    rw [← hc]
    simp only [n', Node.extend]
    split <;> rfl
  have hdata' : n'.data ≠ none := by
    have := hd hdata
    simp only [n', Node.extend]
    split <;> exact this
  have hsize' : n'.size = max n.size (pos + buf.length) := by
    rw [Node.extend_size, hs, hsize]
  have hle := hb₁.size_le
  refine ⟨⟨fun hx => ?_, fun hx => absurd hx hdata', fun _ => ?_, ?_, ?_⟩, ?_, ?_, hlt⟩
  · rw [hlinks'.isDir, hl.isDir, hlinks.isDir, hdir] at hx
    exact absurd hx (by simp)
  · rw [hcap']
    exact hb₁.cap_ne hdata
  · rw [hsize', hcap']
    omega
  · rw [hcap']
    exact hb₁.cap_lt
  · exact ⟨hlinks'.name.trans (hl.name.trans hlinks.name),
      hlinks'.isDir.trans (hl.isDir.trans hlinks.isDir),
      hlinks'.refs.trans (hl.refs.trans hlinks.refs),
      hlinks'.parent.trans (hl.parent.trans hlinks.parent),
      hlinks'.child.trans (hl.child.trans hlinks.child),
      hlinks'.sibling.trans (hl.sibling.trans hlinks.sibling)⟩
  · rw [Node.bytes, hsize', writeAt, Node.bytes_length]
    refine List.map_congr_left fun i hi => ?_
    rw [List.mem_range] at hi
    rw [Node.extend_byte, store_byte hdata hlt, hsize, Node.bytes_getD]
    split
    · rfl
    · by_cases hin : i < n.size
      · rw [if_neg (by omega), if_pos hin, hbyte i hin]
      · rw [if_pos (by omega), if_neg hin]

end Ramfs

end Csos

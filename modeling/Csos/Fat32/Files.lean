import Csos.Common.Mealy
import Csos.Common.Seekable
import Csos.Fat32.Ops
import Csos.Fat32.Sizes
/-!
# FAT32 — a file is its bytes

What `fat32_read`, `fat32_write` and `fat32_seek` do through a handle, in any
order, is what they would do to a list of bytes with a position (`Doc`). The
list can grow to as many bytes as the clusters of the file and the free ones
hold. A write that does not fit fails, with as much of it stored as lies in
the file. After every call the entry of the file leads to the same bytes.
-/

namespace Csos

namespace Fat32

open Seekable

variable {g : Geo} {v v₁ v' v₂ : Vol} {i k n room : ℕ} {l l₁ l' l₂ dl : List ℕ} {buf q : List UInt8}
  {f : Handle} {d : Doc}

/-! ## What a file is for -/

/-- Bytes, and a position. -/
structure Doc where
  bytes : List UInt8
  pos : ℕ

/-- A call through a handle. -/
inductive FileCall
  | read (len : ℕ)
  | write (buf : List UInt8)
  | seek (off whence : ℤ)

/-- What a call is to do to a file that can grow to `room` bytes. -/
def Doc.call (room : ℕ) (d : Doc) : FileCall → (ℤ × List UInt8) × Doc
  | .read len =>
    let b := window d.bytes d.pos len
    ((b.length, b), { d with pos := d.pos + b.length })
  | .write buf =>
    let buf := buf.take (2 ^ 32 - 1)
    if room < d.pos + buf.length then
      ((errNospc, []), { d with bytes := (overlay 0 d.bytes d.pos buf).take d.bytes.length })
    else ((buf.length, []), ⟨overlay 0 d.bytes d.pos buf, d.pos + buf.length⟩)
  | .seek off whence =>
    let base : ℤ := if whence = seekSet then 0 else if whence = seekCur then d.pos else d.bytes.length
    if 0 ≤ base + off ∧ base + off < 2 ^ 63 then
      ((base + off, []), { d with pos := (base + off).toNat })
    else ((Vfs.errInval, []), d)

/-- An offset is an `int64_t`, and a write that fits ends below `2 ^ 32`. -/
def Doc.Fits (room : ℕ) (d : Doc) : FileCall → Prop
  | .read _ => True
  | .write buf => d.pos + (buf.take (2 ^ 32 - 1)).length < 2 ^ 32 ∨
      room < d.pos + (buf.take (2 ^ 32 - 1)).length
  | .seek off _ => -2 ^ 63 ≤ off ∧ off < 2 ^ 63

/-- The driver's functions, called on a handle. -/
def fileCall (g : Geo) (s : Handle × Vol) : FileCall → (ℤ × List UInt8) × Handle × Vol
  | .read len =>
    match read g s.1 len s.2 with
    | (rc, bytes, f, v) => ((rc, bytes), f, v)
  | .write buf =>
    match write g s.1 buf s.2 with
    | (rc, f, v) => ((rc, []), f, v)
  | .seek off whence =>
    match seek s.1 off whence with
    | (rc, f) => ((rc, []), f, s.2)

/-! ## What is stored -/

/-- **The file of a handle holds the bytes of `d`**: it has the clusters `l`,
and its entry is slot `k` of the directory with the clusters `dl`. -/
structure Stores (g : Geo) (dl : List ℕ) (k room : ℕ) (f : Handle) (v : Vol) (l : List ℕ) (d : Doc) :
    Prop where
  quiet : Quiet v
  file : OnFile g v l f
  entry : Recorded g v l dl k f
  size : f.ff.size = d.bytes.length
  word : d.bytes.length < 2 ^ 32
  pos : f.pos = d.pos
  far : d.pos < 2 ^ 63
  bytes : ∀ i < d.bytes.length, content g v l i = d.bytes.getD i 0
  clus : d.bytes = [] ∨ entClus (dirSlot g v dl k) = f.ff.chain.start
  recorded : recordedSize g v dl k = d.bytes.length
  room : (l.length + (freeSet g v).card) * g.clusBytes = room

/-- **What is left alone**: the clusters that the file has not got, and has
not taken from the free ones, and the other slots of its directory. -/
structure Aside (g : Geo) (dl : List ℕ) (k : ℕ) (l : List ℕ) (v : Vol) (l' : List ℕ) (v' : Vol) :
    Prop where
  touches : Touches g {c | c ∈ l'} {c | c ∈ l' ∨ c ∈ dl} v v'
  slots : ∀ c ∈ dl, ∀ j < perClus g, (c, j) ≠ place g dl k → slot g v' c j = slot g v c j
  grown : l <+: l'
  fresh : ∀ c ∈ l', c ∉ l → fat g v c = 0

theorem Aside.refl (g : Geo) (dl : List ℕ) (k : ℕ) (l : List ℕ) (v : Vol) : Aside g dl k l v l v :=
  ⟨.refl g v, fun _ _ _ _ _ => rfl, List.prefix_rfl, fun _ hc hn => absurd hc hn⟩

theorem Aside.trans (hg : g.Wf) (h₁ : Aside g dl k l v l₁ v₁) (h₂ : Aside g dl k l₁ v₁ l₂ v₂)
    (hv : ∀ c ∈ l₂, clusValid g c = true) : Aside g dl k l v l₂ v₂ := by
  have hsub : ∀ c ∈ l₁, c ∈ l₂ := fun c hc => h₂.grown.subset hc
  refine ⟨(h₁.touches.trans h₂.touches).mono ?_ ?_, fun c hc j hj hne => ?_, h₁.grown.trans h₂.grown,
    fun c hc hn => ?_⟩
  · rintro c (hc | hc)
    · exact hsub c hc
    · exact hc
  · rintro c ((hc | hc) | hc)
    · exact .inl (hsub c hc)
    · exact .inr hc
    · exact hc
  · rw [h₂.slots c hc j hj hne, h₁.slots c hc j hj hne]
  · by_cases hc₁ : c ∈ l₁
    · exact h₁.fresh c hc₁ hn
    · rw [← h₁.touches.fat_eq hg (hv c hc) hc₁]
      exact h₂.fresh c hc hc₁

/-! ## Reading -/

/-- **`fat32_read`** gives the bytes at the position. -/
theorem Stores.read (hg : g.Wf) (h : Stores g dl k room f v l d) (len : ℕ) :
    ∃ f', Fat32.read g f len v =
        (((window d.bytes d.pos len).length : ℤ), window d.bytes d.pos len, f', v) ∧
      Stores g dl k room f' v l { d with pos := d.pos + (window d.bytes d.pos len).length } := by
  have hwin : (window d.bytes d.pos len).length = min len (d.bytes.length - d.pos) := length_window
  have hword := h.word
  unfold Fat32.read
  rw [if_neg (by simp [h.file.file]), h.size, h.pos]
  by_cases hend : d.bytes.length ≤ d.pos
  · have hnil : window d.bytes d.pos len = [] := List.length_eq_zero_iff.mp (by omega)
    rw [if_pos hend, hnil]
    exact ⟨f, rfl, h⟩
  rw [if_neg hend]
  obtain ⟨m, hm⟩ : ∃ m, m = min (min len (d.bytes.length - d.pos)) (2 ^ 32 - 1) := ⟨_, rfl⟩
  have hmw : (window d.bytes d.pos len).length = m := by omega
  have hsize : d.bytes.length ≤ l.length * g.clusBytes := h.size ▸ h.file.size
  obtain ⟨ch', t, hr, hst, hcur, -⟩ := readLoop_quiet hg h.quiet h.file.chain m f.ff.chain d.pos m le_rfl
    h.file.cursor (by omega)
  have hbytes : (List.range m).map (fun i => content g v l (d.pos + i)) = window d.bytes d.pos len := by
    refine ext_getD (z := 0) (by rw [List.length_map, List.length_range, hmw]) fun i hi => ?_
    rw [List.length_map, List.length_range] at hi
    rw [getD_window (by omega), List.getD_eq_getElem _ _ (by rwa [List.length_map, List.length_range]),
      List.getElem_map, List.getElem_range]
    exact h.bytes _ (by omega)
  dsimp only
  rw [← hm, chainRead, hr, hbytes, hmw]
  dsimp only
  rw [if_neg (not_not.mpr rfl)]
  exact ⟨_, rfl, h.quiet, ⟨h.file.file, hst ▸ h.file.chain, hcur, h.file.size⟩,
    ⟨h.entry.dir, h.entry.has, h.entry.small, h.entry.off, h.entry.apart⟩, h.size, h.word, rfl,
    (show d.pos + m < 2 ^ 63 by omega), h.bytes, hst ▸ h.clus, h.recorded, h.room⟩

/-! ## Writing -/

theorem length_stored (f : Handle) (buf : List UInt8) : min f.pos f.ff.size + (stored f buf).length =
    f.pos + (buf.take (2 ^ 32 - 1)).length := by
  rw [stored, List.length_append, List.length_replicate]
  omega

/-- What a write stores are the bytes of the gap and of the buffer. -/
theorem Stores.getD_stored (h : Stores g dl k room f v l d) (hi : min f.pos f.ff.size ≤ i)
    (hlt : i < f.pos + (buf.take (2 ^ 32 - 1)).length) :
    (stored f buf).getD (i - min f.pos f.ff.size) 0 =
      (overlay 0 d.bytes d.pos (buf.take (2 ^ 32 - 1))).getD i 0 := by
  rw [getD_overlay, stored, ← h.pos]
  have hsize := h.size
  by_cases hgap : i < f.pos
  · rw [if_neg (by omega), List.getD_append _ _ _ _ (by rw [List.length_replicate]; omega),
      List.getD_replicate _ (by omega), List.getD_eq_default _ _ (by omega)]
  · rw [if_pos ⟨by omega, hlt⟩, List.getD_append_right _ _ _ _ (by rw [List.length_replicate]; omega),
      List.length_replicate]
    congr 1
    omega

/-- **The bytes after a write** of the whole of `stored f buf`, or of its
beginning `q`. -/
theorem Stores.content_after (h : Stores g dl k room f v l d) {s' : ℕ}
    (hw : Wrote g f.ff.chain.start l (min f.pos f.ff.size) q v s' l' v₁) (hq : q <+: stored f buf)
    (hi : i < l'.length * g.clusBytes)
    (hin : i < min f.pos f.ff.size + q.length ∨ q = stored f buf ∧ i < d.bytes.length) :
    content g v₁ l' i = (overlay 0 d.bytes d.pos (buf.take (2 ^ 32 - 1))).getD i 0 := by
  have hlen := length_stored f buf
  have hle := hq.length_le
  have hold : i < d.bytes.length → i < l.length * g.clusBytes := fun hlt =>
    hlt.trans_le (h.size ▸ h.file.size)
  rw [hw.bytes i hi]
  by_cases hnew : min f.pos f.ff.size ≤ i ∧ i < min f.pos f.ff.size + q.length
  · obtain ⟨r, hr⟩ := hq
    rw [if_pos hnew, ← h.getD_stored (i := i) hnew.1 (by omega), ← hr, List.getD_append _ _ _ _ (by omega)]
  · have hlt : i < d.bytes.length := by
      have := h.size
      rcases hin with hin | ⟨-, hin⟩
      · omega
      · exact hin
    rw [if_neg hnew, if_pos (hold hlt), h.bytes i hlt, getD_overlay, if_neg]
    have := h.pos
    have := h.size
    rcases hin with hin | ⟨rfl, -⟩ <;> omega

/-- The slots of a directory that is not written to. -/
theorem slot_touches {F C : Set ℕ} (hg : g.Wf) (ht : Touches g F C v v') {c j : ℕ}
    (hc : clusValid g c = true) (hn : c ∉ C) (hj : j < perClus g) : slot g v' c j = slot g v c j :=
  cut_congr fun _ hi => ht.byte_eq hg hc hn (hg.slot_end hj hi)

/-- A chain that has grown starts where it did, if it was not empty. -/
theorem Wrote.start_same {s s' off : ℕ} (hw : Wrote g s l off q v s' l' v₁) (h : IsChain g v s l)
    (hne : l ≠ []) : s' = s := by
  obtain ⟨c, t, rfl⟩ := List.exists_cons_of_ne_nil hne
  obtain ⟨r, hr⟩ := hw.grown
  have h₁ : firstClus g s' = some c := by
    rw [hw.chain.head, ← hr]
    rfl
  rw [(valid_of_firstClus h₁).1, (valid_of_firstClus h.head).1]

/-- What a write leaves alone before it comes to the entry. -/
theorem Stores.aside (hg : g.Wf) (h : Stores g dl k room f v l d) {s' off : ℕ}
    (hw : Wrote g f.ff.chain.start l off q v s' l' v₁) : IsChain g v₁ f.ff.dirClus dl ∧
      (∀ c ∈ dl, c ∉ l') ∧ (∀ c ∈ dl, ∀ j < perClus g, slot g v₁ c j = slot g v c j) ∧
      Aside g dl k l v l' v₁ := by
  obtain ⟨hdir, hapart⟩ := hw.dir_chain hg h.entry.dir h.entry.apart
  have hslot : ∀ c ∈ dl, ∀ j < perClus g, slot g v₁ c j = slot g v c j := fun c hc j hj =>
    slot_touches hg hw.touches (h.entry.dir.valid hc) (hapart c hc) hj
  exact ⟨hdir, hapart, hslot, hw.touches.mono subset_rfl fun c hc => .inl hc,
    fun c hc j hj _ => hslot c hc j hj, hw.grown, hw.fresh⟩

/-- **A write that does not fit** stores what lies in the file, and fails. -/
theorem Stores.write_fails (hg : g.Wf) (h : Stores g dl k room f v l d) {s' : ℕ} {ch' : Chain}
    (hcur : Cursor g l' ch') (hst : ch'.start = s')
    (hw : Wrote g f.ff.chain.start l (min f.pos f.ff.size) q v s' l' v₁) (hq : q <+: stored f buf)
    (hfull : min f.pos f.ff.size + q.length = l'.length * g.clusBytes) :
    Stores g dl k room { f with ff := { f.ff with chain := ch' } } v₁ l'
      { d with bytes := (overlay 0 d.bytes d.pos (buf.take (2 ^ 32 - 1))).take d.bytes.length } := by
  obtain ⟨hdir, hapart, hslot, -⟩ := h.aside hg hw
  have hlen : ((overlay 0 d.bytes d.pos (buf.take (2 ^ 32 - 1))).take d.bytes.length).length =
      d.bytes.length := by
    rw [List.length_take, length_overlay]
    omega
  have hgrown : l.length * g.clusBytes ≤ l'.length * g.clusBytes :=
    Nat.mul_le_mul_right _ hw.grown.length_le
  have hsize := h.file.size
  have hdsize := h.size
  have hdir' : dirSlot g v₁ dl k = dirSlot g v dl k :=
    hslot _ (place_mem h.entry.has) _ (hg.place_off dl k).2
  refine ⟨hw.touches.quiet h.quiet, ⟨h.file.file, hst ▸ hw.chain, hcur, hsize.trans hgrown⟩,
    ⟨hdir, h.entry.has, h.entry.small, h.entry.off, hapart⟩, ?_, ?_, h.pos, h.far, fun i hi => ?_, ?_, ?_, ?_⟩
  · rw [hlen]
    exact hdsize
  · rw [hlen]
    exact h.word
  · rw [hlen] at hi
    rw [h.content_after hw hq (by omega) (.inl (by omega)), List.getD_eq_getElem?_getD,
      List.getD_eq_getElem?_getD, List.getElem?_take_of_lt hi]
  · by_cases hl : l = []
    · left
      rw [hl, List.length_nil, Nat.zero_mul] at hsize
      exact List.length_eq_zero_iff.mp (hlen.trans (by omega))
    · rw [hdir', hst, hw.start_same h.file.chain hl]
      refine h.clus.imp_left fun hnil => List.length_eq_zero_iff.mp (hlen.trans ?_)
      rw [hnil, List.length_nil]
  · rw [recordedSize, hdir', hlen]
    exact h.recorded
  · rw [hw.free]
    exact h.room

/-- **A write that fits** stores the buffer, and the entry is brought up to
date. -/
theorem Stores.write_fits (hg : g.Wf) (h : Stores g dl k room f v l d) {ch' : Chain} {size : ℕ}
    (hcur : Cursor g l' ch')
    (hw : Wrote g f.ff.chain.start l (min f.pos f.ff.size) (stored f buf) v ch'.start l' v₁)
    (hfit : d.pos + (buf.take (2 ^ 32 - 1)).length < 2 ^ 32)
    (hsz : size = max d.bytes.length (d.pos + (buf.take (2 ^ 32 - 1)).length)) :
    ∃ v₂, updateEntry g f.ff.dirClus f.ff.dirOff ch'.start size v₁ = (fatOk, v₂) ∧
      Aside g dl k l v l' v₂ ∧
      Stores g dl k room ⟨f.pos + (buf.take (2 ^ 32 - 1)).length, size, f.isDir,
          { f.ff with chain := ch', size := size }⟩ v₂ l'
        ⟨overlay 0 d.bytes d.pos (buf.take (2 ^ 32 - 1)), d.pos + (buf.take (2 ^ 32 - 1)).length⟩ := by
  obtain ⟨hdir, hapart, hslot, haside⟩ := h.aside hg hw
  obtain ⟨v₂, hr, hrew, hent⟩ := updateEntry_quiet hg (hw.touches.quiet h.quiet) hdir h.entry.has
    h.entry.small ch'.start size
  have hlen : (overlay 0 d.bytes d.pos (buf.take (2 ^ 32 - 1))).length = size := by
    rw [length_overlay, hsz]
  have hgrown : l.length * g.clusBytes ≤ l'.length * g.clusBytes :=
    Nat.mul_le_mul_right _ hw.grown.length_le
  have hcovers := hw.covers
  have hstored := length_stored f buf
  have hfsize := h.file.size
  have hdsize := h.size
  have hpos := h.pos
  have hword := h.word
  have hstart : ch'.start < 2 ^ 32 := by
    by_cases hl : l' = []
    · rw [hw.chain.zero hl]
      norm_num
    · have := hg.marks
      have := (hg.valid_iff.mp (hw.chain.start_valid.mpr hl)).2
      omega
  have hchain := hw.chain.touches hg hrew.touches fun c _ => Set.notMem_empty c
  refine ⟨v₂, by rw [h.entry.off, hr],
    haside.trans hg ⟨hrew.touches.mono (by simp) fun c hc => .inr hc, ?_, List.prefix_rfl,
      fun c hc hn => absurd hc hn⟩ fun c hc => hw.chain.valid hc,
    hrew.touches.quiet (hw.touches.quiet h.quiet), ⟨h.file.file, hchain, hcur, ?_⟩,
    ⟨hdir.touches hg hrew.touches fun c _ => Set.notMem_empty c, h.entry.has, h.entry.small, h.entry.off,
      hapart⟩, hlen.symm, ?_, ?_, ?_, fun i hi => ?_, .inr ?_, ?_, ?_⟩
  · exact fun c hc j hj hne => hrew.other c hc j hj fun hm => hne hm
  · show size ≤ l'.length * g.clusBytes
    omega
  · rw [hlen]
    omega
  · rw [hpos]
  · show d.pos + (buf.take (2 ^ 32 - 1)).length < 2 ^ 63
    omega
  · rw [hlen] at hi
    rw [content_touches hg hw.chain hrew.touches (fun c hc hm => hapart c hm hc) (by omega)]
    refine h.content_after hw List.prefix_rfl (by omega) ?_
    by_cases hin : i < min f.pos f.ff.size + (stored f buf).length
    · exact .inl hin
    · exact .inr ⟨rfl, by omega⟩
  · rw [hent, entClus_cut, entClus_setEntry size hstart]
  · rw [recordedSize, hent, load_cut (by omega), setEntry_size _ (by omega), hlen]
  · rw [Sound.freeSet_eq hg hrew.touches, hw.free]
    exact h.room

/-- **`fat32_write`** stores the buffer, after zeros up to the position; or
there are too few clusters. -/
theorem Stores.write (hg : g.Wf) (h : Stores g dl k room f v l d) (hfit : d.Fits room (.write buf)) :
    ∃ f' v' l', Fat32.write g f buf v = ((d.call room (.write buf)).1.1, f', v') ∧
      Stores g dl k room f' v' l' (d.call room (.write buf)).2 ∧ Aside g dl k l v l' v' := by
  obtain ⟨rc, ch', l', v₁, q, hcur, hw, hend, hfail, hok⟩ := write_quiet hg h.quiet h.file buf
  have hiff := hw.ended_iff hend
  rw [length_stored, h.room, h.pos] at hiff
  by_cases hroom : room < d.pos + (buf.take (2 ^ 32 - 1)).length
  · have hrc : rc ≠ fatOk := fun hrc => absurd (hiff.mp hrc) (not_le.mpr hroom)
    obtain ⟨rfl, -, hq, -, hfull⟩ := hend.resolve_left fun he => hrc he.1
    obtain ⟨-, -, -, haside⟩ := h.aside hg hw
    refine ⟨{ f with ff := { f.ff with chain := ch' } }, v₁, l', ?_, ?_, haside⟩
    · rw [hfail hrc, Doc.call, if_pos hroom]
    · rw [Doc.call, if_pos hroom]
      exact h.write_fails hg hcur rfl hw hq hfull
  · have hrc : rc = fatOk := hiff.mpr (not_lt.mp hroom)
    obtain ⟨-, rfl⟩ := hend.resolve_right fun he => absurd (hrc.symm.trans he.1) (by decide)
    have hlt : d.pos + (buf.take (2 ^ 32 - 1)).length < 2 ^ 32 := hfit.resolve_right hroom
    obtain ⟨size, hsz⟩ : ∃ size, size = if f.ff.size < f.pos + (buf.take (2 ^ 32 - 1)).length
      then (f.pos + (buf.take (2 ^ 32 - 1)).length) % 2 ^ 32 else f.ff.size := ⟨_, rfl⟩
    have hmax : size = max d.bytes.length (d.pos + (buf.take (2 ^ 32 - 1)).length) := by
      rw [hsz, h.pos, h.size]
      split_ifs <;> omega
    obtain ⟨v₂, hr, haside, hstores⟩ := h.write_fits hg hcur hw hlt hmax
    have hcall := hok hrc
    simp only at hcall
    rw [← hsz, hr] at hcall
    refine ⟨⟨f.pos + (buf.take (2 ^ 32 - 1)).length, size, f.isDir, { f.ff with chain := ch', size := size }⟩,
      v₂, l', ?_, ?_, haside⟩
    · rw [hcall, Doc.call, if_neg hroom]
    · rw [Doc.call, if_neg hroom]
      exact hstores

/-! ## Seeking -/

/-- **`fat32_seek`** moves to a position that is not negative and has 63
bits. -/
theorem Stores.seek (h : Stores g dl k room f v l d) {off whence : ℤ} (hoff : d.Fits room (.seek off whence)) :
    ∃ f', Fat32.seek f off whence = ((d.call room (.seek off whence)).1.1, f') ∧
      Stores g dl k room f' v l (d.call room (.seek off whence)).2 := by
  obtain ⟨base, hbase⟩ : ∃ base : ℤ, base = if whence = seekSet then 0 else if whence = seekCur then (d.pos : ℤ)
    else (d.bytes.length : ℤ) := ⟨_, rfl⟩
  have hsum : (if whence = seekSet then off else if whence = seekCur then (f.pos : ℤ) + off
      else (f.ff.size : ℤ) + off) = base + off := by
    rw [hbase, h.pos, h.size]
    split_ifs
    · omega
    · rfl
    · rfl
  have hnonneg : 0 ≤ base ∧ base < 2 ^ 63 := by
    have := h.far
    have := h.word
    rw [hbase]
    split_ifs <;> omega
  have hlo : -2 ^ 63 ≤ off := hoff.1
  have hhi : off < 2 ^ 63 := hoff.2
  rw [Fat32.seek, if_neg (by simp [h.file.file]), hsum, Doc.call, ← hbase]
  by_cases hin : 0 ≤ base + off ∧ base + off < 2 ^ 63
  · have hmod : Int.bmod (base + off) (2 ^ 64) = base + off := Int.bmod_eq_of_le (by omega) (by omega)
    rw [if_pos hin, hmod]
    dsimp only
    rw [if_neg (by omega)]
    refine ⟨_, rfl, ⟨h.quiet, ⟨h.file.file, h.file.chain, h.file.cursor, h.file.size⟩,
      ⟨h.entry.dir, h.entry.has, h.entry.small, h.entry.off, h.entry.apart⟩, h.size, h.word, rfl, ?_, h.bytes,
      h.clus, h.recorded, h.room⟩⟩
    show (base + off).toNat < 2 ^ 63
    omega
  · have hneg : Int.bmod (base + off) (2 ^ 64) < 0 := by
      rw [Int.bmod_def]
      split_ifs <;> omega
    rw [if_neg hin]
    dsimp only
    rw [if_pos hneg]
    exact ⟨f, rfl, h⟩

/-! ## Opening -/

/-- **A file that has been found and opened** holds the bytes of its chain, if
the size in its entry is not larger than that. -/
theorem Found.stores {K : Prop} {P : Plan} {p : ℕ} {loc : Loc} (hg : g.Wf) (hs : Sound g K P ∅ v)
    (hF : Found g P v p k loc) (hfile : loc.attr &&& attrDir = 0)
    (hsize : loc.size = recordedSize g v (P.clusters p) k) {flags : ℕ} (hflags : flags &&& oTrunc = 0)
    (hl : l = if loc.clus = 0 then [] else P.clusters loc.clus) (hcap : loc.size ≤ l.length * g.clusBytes) :
    Stores g (P.clusters p) k ((l.length + (freeSet g v).card) * g.clusBytes) (openFile g loc flags v).1 v l
      ⟨(List.range loc.size).map (content g v l), if flags &&& oAppend ≠ 0 then loc.size else 0⟩ := by
  have hopen : (openFile g loc flags v).1 = ⟨if flags &&& oAppend ≠ 0 then loc.size else 0, loc.size, false,
      ⟨chainInit loc.clus, loc.size, loc.dirClus, loc.off, false⟩⟩ := by
    simp [openFile, hfile, hflags]
  have hword : loc.size < 2 ^ 32 := hsize ▸ Bytes.load_lt 4 _ _
  have hlen : ((List.range loc.size).map (content g v l)).length = loc.size := by
    rw [List.length_map, List.length_range]
  have hchain : IsChain g v loc.clus l ∧ ∀ c ∈ P.clusters p, c ∉ l := by
    by_cases h0 : loc.clus = 0
    · rw [hl, if_pos h0, h0]
      exact ⟨isChain_zero, by simp⟩
    · have hfiles := (hF.leads_file hs.toTree hg hfile).resolve_left h0
      rw [hl, if_neg h0]
      refine ⟨hs.file_chain hfiles, fun c hc hm => ?_⟩
      have he := hs.disjoint p (.inl hF.dir) loc.clus (.inr hfiles) c hc hm
      exact Set.disjoint_left.mp hs.apart hF.dir (he ▸ hfiles)
  have hdir : IsChain g v loc.dirClus (P.clusters p) := by
    rw [hF.dirClus]
    exact hs.dir_chain hF.dir
  rw [hopen]
  refine ⟨hs.quiet, ⟨rfl, hchain.1, hchain.1.cursor_init, hcap⟩,
    ⟨hdir, hF.has, hF.small, hF.off, hchain.2⟩, hlen.symm, ?_, rfl, ?_,
    fun i hi => ?_, .inr hF.clus.symm, ?_, rfl⟩
  · rwa [hlen]
  · dsimp only
    split_ifs <;> omega
  · rw [hlen] at hi
    rw [List.getD_eq_getElem _ _ (by rwa [hlen]), List.getElem_map, List.getElem_range]
  · rw [hlen, hsize]

/-! ## Runs -/

/-- **Each call** does to the file what it does to the bytes. -/
theorem Stores.call (hg : g.Wf) (h : Stores g dl k room f v l d) {c : FileCall} (hc : d.Fits room c) :
    (fileCall g (f, v) c).1 = (d.call room c).1 ∧ ∃ l',
      Stores g dl k room (fileCall g (f, v) c).2.1 (fileCall g (f, v) c).2.2 l' (d.call room c).2 ∧
      Aside g dl k l v l' (fileCall g (f, v) c).2.2 := by
  cases c with
  | read len =>
    obtain ⟨f', hr, h'⟩ := h.read hg len
    rw [fileCall, hr]
    exact ⟨rfl, l, h', .refl g dl k l v⟩
  | write buf =>
    obtain ⟨f', v', l', hr, h', haside⟩ := h.write hg hc
    rw [fileCall, hr]
    refine ⟨?_, l', h', haside⟩
    rw [Doc.call]
    dsimp only
    split_ifs <;> rfl
  | seek off whence =>
    obtain ⟨f', hr, h'⟩ := h.seek hc
    rw [fileCall, hr]
    refine ⟨?_, l, h', .refl g dl k l v⟩
    rw [Doc.call]
    dsimp only
    split_ifs <;> rfl

end Fat32

end Csos

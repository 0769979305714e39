import Csos.Devfs.Block
/-!
# The device file system — byte access to block devices

A request on a block device moves the bytes of the device between its position
and the buffer, from the first on and without a gap, until it is done or a call
fails. What holds of a request on its way is `OnWay`, with the bytes that it has
moved (`ReadInv`, `WriteInv`); each part of a request keeps it, and returns only
where the request is done or the last call failed (`Ends`).
-/

namespace Csos

namespace Bytes

variable {m m' src src' t : Bytes} {a n k off c : ℕ}

/-- Copies side by side are one copy. -/
theorem blit_blit (h : ∀ i < k, src' i = src (n + i)) :
    (m.blit a n src).blit (a + n) k src' = m.blit a (n + k) src := by
  funext x
  unfold blit
  by_cases h1 : a + n ≤ x ∧ x < a + n + k
  · rw [if_pos h1, if_pos (by omega), h _ (by omega)]
    congr 1
    omega
  · rw [if_neg h1]
    by_cases h2 : a ≤ x ∧ x < a + n
    · rw [if_pos h2, if_pos (by omega)]
    · rw [if_neg h2, if_neg (by omega)]

/-- A block that is read, changed in part and written back. -/
theorem blit_modify (h : off + c ≤ n) :
    m.blit a n ((t.blit 0 n (m.shift a)).blit off c src) = m.blit (a + off) c src := by
  funext x
  unfold blit shift
  by_cases h1 : a ≤ x ∧ x < a + n
  · rw [if_pos h1]
    by_cases h2 : a + off ≤ x ∧ x < a + off + c
    · rw [if_pos (by omega), if_pos h2]
      congr 1
      omega
    · rw [if_neg (by omega), if_pos (by omega), if_neg h2]
      congr 1
      omega
  · rw [if_neg h1, if_neg (by omega)]

end Bytes

namespace Devfs

open Vfs

variable {w : World} {d : BlockDev} {s₀ : Io} {pos₀ want n lba fuel : ℕ} {data buf src : Bytes} {r : Xfer}
  {x : Option ℤ × Xfer} {I Q : Xfer → Prop} {ret e : ℤ}

/-! ## A request on its way -/

/-- The last call to the device, or of `kmalloc`, failed with `e`. -/
def Failed (w : World) (s₀ s : Io) (e : ℤ) : Prop :=
  (e = errNomem ∧ s₀.allocs < s.allocs ∧ w.mem (s.allocs - 1) = none) ∨
    (e ≠ 0 ∧ s₀.calls < s.calls ∧ w.rc (s.calls - 1) = e)

/-- **What a request returns**: the count if it is done; if a call failed, the
count so far or, if that is 0, the error. -/
def Ends (w : World) (s₀ : Io) (ret : ℤ) (r : Xfer) : Prop :=
  (r.len = 0 ∧ ret = toInt64 r.done) ∨
    (0 < r.len ∧ ∃ e, Failed w s₀ r.io e ∧ ret = if r.done ≠ 0 then toInt64 r.done else e)

/-- A request for `want` bytes from `pos₀` on, on its way. -/
structure OnWay (s₀ : Io) (pos₀ want : ℕ) (r : Xfer) : Prop where
  pos : r.pos = pos₀ + r.done
  len : r.done + r.len = want
  calls : s₀.calls ≤ r.io.calls
  allocs : s₀.allocs ≤ r.io.allocs

/-- The bytes done are in the buffer. -/
structure ReadInv (s₀ : Io) (pos₀ want : ℕ) (buf : Bytes) (r : Xfer) : Prop extends OnWay s₀ pos₀ want r where
  data : r.io.data = s₀.data
  buf : r.buf = buf.blit 0 r.done (s₀.data.shift pos₀)

/-- The bytes done are on the device, and every other byte is as before. -/
structure WriteInv (s₀ : Io) (pos₀ want : ℕ) (buf : Bytes) (r : Xfer) : Prop extends OnWay s₀ pos₀ want r where
  data : r.io.data = s₀.data.blit pos₀ r.done buf
  buf : r.buf = buf

/-- After a part of a request the invariant holds, and the part has returned as it
should or left `Q`. -/
def After (w : World) (s₀ : Io) (I Q : Xfer → Prop) (x : Option ℤ × Xfer) : Prop :=
  I x.2 ∧ ((x.1 = none ∧ Q x.2) ∨ ∃ ret, x.1 = some ret ∧ Ends w s₀ ret x.2)

theorem After.andThen {f : Xfer → Option ℤ × Xfer} {Q' : Xfer → Prop} (h : After w s₀ I Q x)
    (hf : ∀ r, I r → Q r → After w s₀ I Q' (f r)) : After w s₀ I Q' (andThen x f) := by
  obtain ⟨hI, ⟨hnone, hQ⟩ | ⟨ret, hret, hends⟩⟩ := h
  · rw [Devfs.andThen, hnone]
    exact hf _ hI hQ
  · rw [Devfs.andThen, hret]
    exact ⟨hI, .inr ⟨ret, rfl, hends⟩⟩

/-- A part returns if nothing is left. -/
theorem after_checkDone (hI : I r) (hQ : 0 < r.len → Q r) : After w s₀ I Q r.checkDone := by
  refine ⟨hI, ?_⟩
  by_cases h : r.len = 0
  · exact .inr ⟨_, if_pos h, .inl ⟨h, rfl⟩⟩
  · exact .inl ⟨if_neg h, hQ (Nat.pos_of_ne_zero h)⟩

theorem after_fail (hI : I r) (hlen : 0 < r.len) (hf : Failed w s₀ r.io e) :
    After w s₀ I Q (r.fail e) := ⟨hI, .inr ⟨_, rfl, .inr ⟨hlen, e, hf, rfl⟩⟩⟩

/-- Failing before anything is done. -/
theorem after_error (hI : I r) (hlen : 0 < r.len) (hdone : r.done = 0) (hf : Failed w s₀ r.io e) :
    After w s₀ I Q (some e, r) :=
  ⟨hI, .inr ⟨_, rfl, .inr ⟨hlen, e, hf, by rw [hdone, if_neg (by simp)]⟩⟩⟩

/-- The request goes on after `n` more bytes. -/
theorem OnWay.advance (b : Bytes) {s : Io} (h : OnWay s₀ pos₀ want r) (hsize : pos₀ + want < 2 ^ 64)
    (hn : n ≤ r.len) (hcalls : s₀.calls ≤ s.calls) (hallocs : s₀.allocs ≤ s.allocs) :
    OnWay s₀ pos₀ want (Xfer.advance { r with buf := b, io := s } n) ∧
      (Xfer.advance { r with buf := b, io := s } n).pos = r.pos + n ∧
      (Xfer.advance { r with buf := b, io := s } n).done = r.done + n := by
  have hpos := h.pos
  have hlen := h.len
  have h1 : (r.pos + n) % 2 ^ 64 = r.pos + n := Nat.mod_eq_of_lt (by omega)
  have h2 : (r.done + n) % 2 ^ 64 = r.done + n := Nat.mod_eq_of_lt (by omega)
  unfold Xfer.advance
  dsimp only
  rw [h1, h2]
  refine ⟨⟨?_, ?_, hcalls, hallocs⟩, rfl, rfl⟩
  · dsimp only
    omega
  · dsimp only
    omega

/-- **More bytes are read**: those of the device at the position. -/
theorem ReadInv.copy (h : ReadInv s₀ pos₀ want buf r) (hsize : pos₀ + want < 2 ^ 64) (hn : n ≤ r.len)
    {s : Io} (hdata : s.data = s₀.data) (hcalls : s₀.calls ≤ s.calls) (hallocs : s₀.allocs ≤ s.allocs)
    (hsrc : ∀ i < n, src i = s₀.data (r.pos + i)) :
    ReadInv s₀ pos₀ want buf (Xfer.advance { r with buf := r.buf.blit r.done n src, io := s } n) := by
  obtain ⟨hon, -, hdone⟩ := h.toOnWay.advance (r.buf.blit r.done n src) hsize hn hcalls hallocs
  refine ⟨hon, hdata, ?_⟩
  rw [hdone]
  change r.buf.blit r.done n src = _
  rw [h.buf]
  have hnext : ∀ i < n, src i = s₀.data.shift pos₀ (r.done + i) := fun i hi => by
    rw [hsrc i hi, h.pos, Bytes.shift, Nat.add_assoc]
  have hjoin := Bytes.blit_blit (m := buf) (a := 0) hnext
  rwa [Nat.zero_add] at hjoin

/-- **More bytes are written**: those of the buffer, at the position. -/
theorem WriteInv.store (h : WriteInv s₀ pos₀ want buf r) (hsize : pos₀ + want < 2 ^ 64) (hn : n ≤ r.len)
    {s : Io} (hdata : s.data = r.io.data.blit r.pos n (buf.shift r.done)) (hcalls : s₀.calls ≤ s.calls)
    (hallocs : s₀.allocs ≤ s.allocs) : WriteInv s₀ pos₀ want buf (Xfer.advance { r with io := s } n) := by
  obtain ⟨hon, -, hdone⟩ := h.toOnWay.advance r.buf hsize hn hcalls hallocs
  refine ⟨hon, ?_, h.buf⟩
  rw [hdone]
  change s.data = _
  rw [hdata, h.data, h.pos]
  exact Bytes.blit_blit fun i _ => rfl

/-- Calls that move nothing change nothing. -/
theorem ReadInv.call (h : ReadInv s₀ pos₀ want buf r) {s : Io} (hdata : s.data = r.io.data)
    (hcalls : r.io.calls ≤ s.calls) (hallocs : r.io.allocs ≤ s.allocs) :
    ReadInv s₀ pos₀ want buf { r with io := s } :=
  ⟨⟨h.pos, h.len, h.calls.trans hcalls, h.allocs.trans hallocs⟩, hdata.trans h.data, h.buf⟩

theorem WriteInv.call (h : WriteInv s₀ pos₀ want buf r) {s : Io} (hdata : s.data = r.io.data)
    (hcalls : r.io.calls ≤ s.calls) (hallocs : r.io.allocs ≤ s.allocs) :
    WriteInv s₀ pos₀ want buf { r with io := s } :=
  ⟨⟨h.pos, h.len, h.calls.trans hcalls, h.allocs.trans hallocs⟩, hdata.trans h.data, h.buf⟩

/-- `kmalloc` gives nothing. -/
theorem failed_alloc {s s' : Io} (h : s₀.allocs ≤ s.allocs) (hs : s'.allocs = s.allocs + 1)
    (hm : w.mem s.allocs = none) : Failed w s₀ s' errNomem :=
  .inl ⟨rfl, by omega, by rw [hs, Nat.add_sub_cancel, hm]⟩

/-- The device fails. -/
theorem failed_call {s s' : Io} (h : s₀.calls ≤ s.calls) (hs : s'.calls = s.calls + 1)
    (hrc : w.rc s.calls ≠ 0) : Failed w s₀ s' (w.rc s.calls) :=
  .inr ⟨hrc, by omega, by rw [hs, Nat.add_sub_cancel]⟩

/-- A block that was read. -/
theorem readBlocks_apply {s : Io} {t : Bytes} {i : ℕ} (hrc : w.rc s.calls = 0) (hi : i < d.blockSize) :
    (readBlocks w d lba 1 t 0 s).2.1 i = s.data (lba * d.blockSize + i) := by
  have hblock : (readBlocks w d lba 1 t 0 s).2.1 =
      t.blit 0 (1 * d.blockSize) (s.data.shift (lba * d.blockSize)) := if_pos hrc
  rw [hblock, Nat.one_mul, Bytes.blit_zero_apply hi]
  rfl

/-- The head of a request: the rest of its block, or all that is wanted. -/
theorem chunk_spec (hbs : 0 < d.blockSize) (hlen : 0 < r.len) {c : ℕ}
    (hc : c = if r.len < d.blockSize - r.pos % d.blockSize then r.len
      else d.blockSize - r.pos % d.blockSize) :
    0 < c ∧ c ≤ r.len ∧ r.pos % d.blockSize + c ≤ d.blockSize ∧
      (c < r.len → (r.pos + c) % d.blockSize = 0) := by
  have hoff := Nat.mod_lt r.pos hbs
  refine ⟨?_, ?_, ?_, fun hlt => ?_⟩
  · rw [hc]
    split_ifs <;> omega
  · rw [hc]
    split_ifs <;> omega
  · rw [hc]
    split_ifs <;> omega
  · rw [if_neg fun hcond => by rw [if_pos hcond] at hc; omega] at hc
    have hdiv := Nat.div_add_mod r.pos d.blockSize
    have hsum : r.pos + c = d.blockSize * (r.pos / d.blockSize + 1) := by
      rw [Nat.mul_add, Nat.mul_one]
      omega
    rw [hsum, Nat.mul_mod_right]

/-- The share of one call, up to 128 of the blocks that are left, and where
the next call starts. -/
theorem share_spec {bs pos len : ℕ} (hbs : 0 < bs) (hz : n ≠ 0) (hal : pos % bs = 0)
    (hlba : lba = pos / bs) (hn : n * bs ≤ len) (hend : pos + len < 2 ^ 64) {c : ℕ}
    (hc : c = if 128 < n then 128 else n) :
    (0 < c ∧ c ≤ n ∧ c * bs ≤ len) ∧ lba * bs = pos ∧
      ((pos + c * bs) % bs = 0 ∧ (lba + c) % 2 ^ 64 = (pos + c * bs) / bs) ∧
      (n - c) * bs ≤ len - c * bs ∧ len - c * bs - (n - c) * bs = len - n * bs := by
  have hcn : 0 < c ∧ c ≤ n := by
    rw [hc]
    split_ifs <;> omega
  have hdiv := Nat.div_add_mod' pos bs
  rw [hal, Nat.add_zero, ← hlba] at hdiv
  have hbase : pos + c * bs = (lba + c) * bs := by rw [Nat.add_mul, hdiv]
  have hcl := Nat.mul_le_mul_right bs hcn.2
  have hrest : (n - c) * bs = n * bs - c * bs := Nat.sub_mul _ _ _
  have hlt : lba + c < 2 ^ 64 := by
    have := Nat.le_mul_of_pos_right (lba + c) hbs
    omega
  refine ⟨⟨hcn.1, hcn.2, hcl.trans hn⟩, hdiv, ⟨?_, ?_⟩, ?_, ?_⟩
  · rw [hbase, Nat.mul_mod_left]
  · rw [hbase, Nat.mul_div_cancel _ hbs, Nat.mod_eq_of_lt hlt]
  · rw [hrest]
    exact Nat.sub_le_sub_right hn _
  · rw [hrest]
    omega

/-! ## Reading -/

section

variable (hbs : 0 < d.blockSize) (hsize : pos₀ + want < 2 ^ 64)

include hbs hsize

theorem readHead_spec (hbs' : d.blockSize ≤ 2 ^ 32) (h : ReadInv s₀ pos₀ want buf r) (hdone : r.done = 0) (hlen : 0 < r.len) :
    After w s₀ (ReadInv s₀ pos₀ want buf) (fun r => r.pos % d.blockSize = 0 ∧ 0 < r.len)
      (readHead w d r) := by
  unfold readHead
  by_cases hal : r.pos % d.blockSize = 0
  · rw [if_pos hal]
    exact ⟨h, .inl ⟨rfl, hal, hlen⟩⟩
  rw [if_neg hal]
  dsimp only
  generalize hc : (if r.len < d.blockSize - r.pos % d.blockSize then r.len
    else d.blockSize - r.pos % d.blockSize) = c
  obtain ⟨hc0, hcl, hcb, hnext⟩ := chunk_spec hbs hlen hc.symm
  have hc32 : c % 2 ^ 32 = c := Nat.mod_eq_of_lt (by omega)
  cases hm : (kmalloc w r.io).1 with
  | none =>
    exact after_error (h.call rfl le_rfl (Nat.le_succ _)) hlen hdone
      (failed_alloc h.allocs rfl hm)
  | some tmp =>
    dsimp only
    by_cases hrc : (readBlocks w d (r.pos / d.blockSize) 1 tmp 0 (kmalloc w r.io).2).1 = 0
    · rw [if_neg (not_not.mpr hrc), hc32]
      have hcalls := h.calls.trans (Nat.le_succ _)
      have hallocs := h.allocs.trans (Nat.le_succ _)
      refine after_checkDone (r := Xfer.advance _ c) ?_ fun hpos => ⟨?_, hpos⟩
      · refine h.copy hsize hcl h.data hcalls hallocs fun i hi => ?_
        have hdiv := Nat.div_add_mod' r.pos d.blockSize
        rw [Bytes.shift, readBlocks_apply hrc (by omega), ← Nat.add_assoc, hdiv]
        exact congrFun h.data _
      · refine (congrArg (· % d.blockSize) (h.toOnWay.advance _ hsize hcl hcalls hallocs).2.1).trans
          (hnext ?_)
        exact Nat.lt_of_sub_pos hpos
    · rw [if_pos hrc]
      exact after_fail (h.call rfl (Nat.le_succ _) (Nat.le_succ _)) hlen (failed_call h.calls rfl hrc)

theorem readLoop_spec (h : ReadInv s₀ pos₀ want buf r) (hal : r.pos % d.blockSize = 0)
    (hlba : lba = r.pos / d.blockSize) (hn : n * d.blockSize ≤ r.len) (hfuel : n ≤ fuel) :
    After w s₀ (ReadInv s₀ pos₀ want buf)
      (fun r' => r'.pos % d.blockSize = 0 ∧ r'.len = r.len - n * d.blockSize)
      (readLoop w d fuel n lba r) := by
  induction fuel generalizing n lba r with
  | zero =>
    obtain rfl := Nat.le_zero.mp hfuel
    exact ⟨h, .inl ⟨rfl, hal, by simp [readLoop]⟩⟩
  | succ fuel ih =>
    rw [readLoop]
    by_cases hz : n = 0
    · rw [if_pos hz]
      exact ⟨h, .inl ⟨rfl, hal, by simp [hz]⟩⟩
    rw [if_neg hz]
    dsimp only
    generalize hc : (if 128 < n then 128 else n) = c
    have hpos := h.pos
    have hlen := h.len
    obtain ⟨⟨hc0, hcn, hcl⟩, hdiv, ⟨hal', hlba'⟩, hn', hrest⟩ :=
      share_spec hbs hz hal hlba hn (by omega) hc.symm
    by_cases hrc : (readBlocks w d lba c r.buf r.done r.io).1 = 0
    · have hbuf : (readBlocks w d lba c r.buf r.done r.io).2.1 =
          r.buf.blit r.done (c * d.blockSize) (r.io.data.shift (lba * d.blockSize)) := if_pos hrc
      rw [if_neg (not_not.mpr hrc), hbuf]
      have hcalls := h.calls.trans (Nat.le_succ _)
      have hinv : ReadInv s₀ pos₀ want buf (Xfer.advance
          { r with buf := r.buf.blit r.done (c * d.blockSize) (r.io.data.shift (lba * d.blockSize)),
                   io := (readBlocks w d lba c r.buf r.done r.io).2.2 } (c * d.blockSize)) :=
        h.copy hsize hcl h.data hcalls h.allocs fun i _ => by
          rw [Bytes.shift, hdiv]
          exact congrFun h.data _
      have hadv := (h.toOnWay.advance (s := (readBlocks w d lba c r.buf r.done r.io).2.2)
        (r.buf.blit r.done (c * d.blockSize) (r.io.data.shift (lba * d.blockSize))) hsize hcl hcalls
        h.allocs).2.1
      rcases ih hinv (by rw [hadv, hal']) (hlba'.trans (by rw [hadv])) hn' (by omega) with
        ⟨hI, ⟨hnone, hmod, hlen'⟩ | hret⟩
      · exact ⟨hI, .inl ⟨hnone, hmod, hlen'.trans hrest⟩⟩
      · exact ⟨hI, .inr hret⟩
    · rw [if_pos hrc]
      have hbuf : (readBlocks w d lba c r.buf r.done r.io).2.1 = r.buf := if_neg hrc
      rw [hbuf]
      have hpos' : 0 < c * d.blockSize := Nat.mul_pos hc0 hbs
      exact after_fail (h.call rfl (Nat.le_succ _) le_rfl) (by dsimp only; omega) (failed_call h.calls rfl hrc)

theorem readMiddle_spec (h : ReadInv s₀ pos₀ want buf r) (hal : r.pos % d.blockSize = 0) (hlen : 0 < r.len)
    (hblocks : r.len / d.blockSize < 2 ^ 32) :
    After w s₀ (ReadInv s₀ pos₀ want buf)
      (fun r => r.pos % d.blockSize = 0 ∧ 0 < r.len ∧ r.len < d.blockSize) (readMiddle w d r) := by
  unfold readMiddle
  by_cases hle : d.blockSize ≤ r.len
  · rw [if_pos hle]
    dsimp only
    rw [Nat.mod_eq_of_lt hblocks]
    refine (readLoop_spec hbs hsize h hal rfl (Nat.div_mul_le_self _ _) le_rfl).andThen
      fun r' hr' hq => after_checkDone hr' fun hpos => ⟨hq.1, hpos, ?_⟩
    have hmod := Nat.mod_lt r.len hbs
    have hdiv := Nat.div_add_mod' r.len d.blockSize
    have hq2 := hq.2
    omega
  · rw [if_neg hle]
    exact ⟨h, .inl ⟨rfl, hal, hlen, not_le.mp hle⟩⟩

omit hbs in
theorem readTail_spec (hbs' : d.blockSize ≤ 2 ^ 32) (h : ReadInv s₀ pos₀ want buf r)
    (hal : r.pos % d.blockSize = 0) (hlen : 0 < r.len) (hlt : r.len < d.blockSize) :
    After w s₀ (ReadInv s₀ pos₀ want buf) (fun r => r.len = 0) (readTail w d r) := by
  unfold readTail
  rw [if_pos hlen]
  dsimp only
  have h32 : r.len % 2 ^ 32 = r.len := Nat.mod_eq_of_lt (by omega)
  have hdiv := Nat.div_add_mod' r.pos d.blockSize
  rw [hal, Nat.add_zero] at hdiv
  cases hm : (kmalloc w r.io).1 with
  | none => exact after_fail (h.call rfl le_rfl (Nat.le_succ _)) hlen (failed_alloc h.allocs rfl hm)
  | some tmp =>
    dsimp only
    by_cases hrc : (readBlocks w d (r.pos / d.blockSize) 1 tmp 0 (kmalloc w r.io).2).1 = 0
    · rw [if_neg (not_not.mpr hrc), h32]
      refine ⟨?_, .inl ⟨rfl, Nat.sub_self r.len⟩⟩
      refine h.copy hsize le_rfl h.data (h.calls.trans (Nat.le_succ _)) (h.allocs.trans (Nat.le_succ _))
        fun i hi => ?_
      rw [readBlocks_apply hrc (by omega), hdiv]
      exact congrFun h.data _
    · rw [if_pos hrc]
      exact after_fail (h.call rfl (Nat.le_succ _) (Nat.le_succ _)) hlen (failed_call h.calls rfl hrc)

end

/-! ## Writing -/

/-- **A block is read, changed and written back**: the bytes that were changed are
changed on the device, if both calls succeed. -/
theorem modify_spec {s : Io} {t : Bytes} {off c : ℕ} {u : ℤ × Io} (hcalls : s₀.calls ≤ s.calls)
    (hrc : (readBlocks w d lba 1 t 0 s).1 = 0) (hc : off + c ≤ d.blockSize)
    (hu : u = writeBlocks w d lba 1 ((readBlocks w d lba 1 t 0 s).2.1.blit off c src)
      (readBlocks w d lba 1 t 0 s).2.2) :
    s.calls ≤ u.2.calls ∧ s.allocs ≤ u.2.allocs ∧
      (u.1 = 0 → u.2.data = s.data.blit (lba * d.blockSize + off) c src) ∧
      (u.1 ≠ 0 → u.2.data = s.data ∧ Failed w s₀ u.2 u.1) := by
  subst hu
  have hread : (readBlocks w d lba 1 t 0 s).2.1 =
      t.blit 0 d.blockSize (s.data.shift (lba * d.blockSize)) :=
    (if_pos hrc).trans (by rw [Nat.one_mul])
  refine ⟨Nat.le_add_right _ 2, le_rfl, fun hok => ?_, fun hbad => ⟨if_neg hbad, ?_⟩⟩
  · have hwrite : ∀ m, (writeBlocks w d lba 1 m (readBlocks w d lba 1 t 0 s).2.2).2.data =
        s.data.blit (lba * d.blockSize) d.blockSize m := fun m =>
      (if_pos hok).trans (by rw [Nat.one_mul]; rfl)
    rw [hwrite, hread, Bytes.blit_modify hc]
  · exact failed_call (s := (readBlocks w d lba 1 t 0 s).2.2) (hcalls.trans (Nat.le_succ _)) rfl hbad

section

variable (hbs : 0 < d.blockSize) (hsize : pos₀ + want < 2 ^ 64)

include hbs hsize

theorem writeHead_spec (hbs' : d.blockSize ≤ 2 ^ 32) (h : WriteInv s₀ pos₀ want buf r) (hdone : r.done = 0)
    (hlen : 0 < r.len) :
    After w s₀ (WriteInv s₀ pos₀ want buf) (fun r => r.pos % d.blockSize = 0 ∧ 0 < r.len)
      (writeHead w d r) := by
  unfold writeHead
  by_cases hal : r.pos % d.blockSize = 0
  · rw [if_pos hal]
    exact ⟨h, .inl ⟨rfl, hal, hlen⟩⟩
  rw [if_neg hal]
  dsimp only
  generalize hc : (if r.len < d.blockSize - r.pos % d.blockSize then r.len
    else d.blockSize - r.pos % d.blockSize) = c
  obtain ⟨hc0, hcl, hcb, hnext⟩ := chunk_spec hbs hlen hc.symm
  have hc32 : c % 2 ^ 32 = c := Nat.mod_eq_of_lt (by omega)
  rw [hc32]
  cases hm : (kmalloc w r.io).1 with
  | none =>
    exact after_error (h.call rfl le_rfl (Nat.le_succ _)) hlen hdone (failed_alloc h.allocs rfl hm)
  | some tmp =>
    dsimp only
    by_cases hrc : (readBlocks w d (r.pos / d.blockSize) 1 tmp 0 (kmalloc w r.io).2).1 = 0
    case neg =>
      rw [if_pos hrc]
      exact after_error (h.call rfl (Nat.le_succ _) (Nat.le_succ _)) hlen hdone
        (failed_call h.calls rfl hrc)
    rw [if_neg (not_not.mpr hrc)]
    generalize hu : writeBlocks w d (r.pos / d.blockSize) 1
      ((readBlocks w d (r.pos / d.blockSize) 1 tmp 0 (kmalloc w r.io).2).2.1.blit (r.pos % d.blockSize) c
        (r.buf.shift r.done)) (readBlocks w d (r.pos / d.blockSize) 1 tmp 0 (kmalloc w r.io).2).2.2 = u
    obtain ⟨hcalls, hallocs, hok, hbad⟩ := modify_spec (s := (kmalloc w r.io).2) h.calls hrc hcb hu.symm
    have hallocs' : r.io.allocs ≤ u.2.allocs := (Nat.le_succ _).trans hallocs
    by_cases hz : u.1 = 0
    · rw [if_neg (not_not.mpr hz)]
      refine after_checkDone (r := Xfer.advance _ c) ?_ fun hpos => ⟨?_, hpos⟩
      · refine h.store hsize hcl ((hok hz).trans ?_) (h.calls.trans hcalls) (h.allocs.trans hallocs')
        rw [Nat.div_add_mod' r.pos, h.buf]
        rfl
      · refine (congrArg (· % d.blockSize) (h.toOnWay.advance r.buf hsize hcl (h.calls.trans hcalls)
          (h.allocs.trans hallocs')).2.1).trans (hnext ?_)
        exact Nat.lt_of_sub_pos hpos
    · rw [if_pos hz]
      exact after_fail (h.call (hbad hz).1 hcalls hallocs') hlen (hbad hz).2

theorem writeLoop_spec (h : WriteInv s₀ pos₀ want buf r) (hal : r.pos % d.blockSize = 0)
    (hlba : lba = r.pos / d.blockSize) (hn : n * d.blockSize ≤ r.len) (hfuel : n ≤ fuel) :
    After w s₀ (WriteInv s₀ pos₀ want buf)
      (fun r' => r'.pos % d.blockSize = 0 ∧ r'.len = r.len - n * d.blockSize)
      (writeLoop w d fuel n lba r) := by
  induction fuel generalizing n lba r with
  | zero =>
    obtain rfl := Nat.le_zero.mp hfuel
    exact ⟨h, .inl ⟨rfl, hal, by simp [writeLoop]⟩⟩
  | succ fuel ih =>
    rw [writeLoop]
    by_cases hz : n = 0
    · rw [if_pos hz]
      exact ⟨h, .inl ⟨rfl, hal, by simp [hz]⟩⟩
    rw [if_neg hz]
    dsimp only
    generalize hc : (if 128 < n then 128 else n) = c
    have hpos := h.pos
    have hlen := h.len
    obtain ⟨⟨hc0, hcn, hcl⟩, hdiv, ⟨hal', hlba'⟩, hn', hrest⟩ :=
      share_spec hbs hz hal hlba hn (by omega) hc.symm
    by_cases hrc : (writeBlocks w d lba c (r.buf.shift r.done) r.io).1 = 0
    · have hdata : (writeBlocks w d lba c (r.buf.shift r.done) r.io).2.data =
          r.io.data.blit (lba * d.blockSize) (c * d.blockSize) (r.buf.shift r.done) := if_pos hrc
      rw [hdiv] at hdata
      rw [if_neg (not_not.mpr hrc)]
      have hcalls := h.calls.trans (Nat.le_succ _)
      have hbuf := h.buf
      have hinv := h.store (s := (writeBlocks w d lba c (r.buf.shift r.done) r.io).2) hsize hcl
        (by rw [hdata, hbuf]) hcalls h.allocs
      have hadv := (h.toOnWay.advance (s := (writeBlocks w d lba c (r.buf.shift r.done) r.io).2) r.buf
        hsize hcl hcalls h.allocs).2.1
      rcases ih hinv (by rw [hadv, hal']) (hlba'.trans (by rw [hadv])) hn' (by omega) with
        ⟨hI, ⟨hnone, hmod, hlen'⟩ | hret⟩
      · exact ⟨hI, .inl ⟨hnone, hmod, hlen'.trans hrest⟩⟩
      · exact ⟨hI, .inr hret⟩
    · rw [if_pos hrc]
      have hpos' : 0 < c * d.blockSize := Nat.mul_pos hc0 hbs
      exact after_fail (h.call (if_neg hrc) (Nat.le_succ _) le_rfl) (by dsimp only; omega)
        (failed_call h.calls rfl hrc)

theorem writeMiddle_spec (h : WriteInv s₀ pos₀ want buf r) (hal : r.pos % d.blockSize = 0)
    (hlen : 0 < r.len) (hblocks : r.len / d.blockSize < 2 ^ 32) :
    After w s₀ (WriteInv s₀ pos₀ want buf)
      (fun r => r.pos % d.blockSize = 0 ∧ 0 < r.len ∧ r.len < d.blockSize) (writeMiddle w d r) := by
  unfold writeMiddle
  by_cases hle : d.blockSize ≤ r.len
  · rw [if_pos hle]
    dsimp only
    rw [Nat.mod_eq_of_lt hblocks]
    refine (writeLoop_spec hbs hsize h hal rfl (Nat.div_mul_le_self _ _) le_rfl).andThen
      fun r' hr' hq => after_checkDone hr' fun hpos => ⟨hq.1, hpos, ?_⟩
    have hmod := Nat.mod_lt r.len hbs
    have hdiv := Nat.div_add_mod' r.len d.blockSize
    have hq2 := hq.2
    omega
  · rw [if_neg hle]
    exact ⟨h, .inl ⟨rfl, hal, hlen, not_le.mp hle⟩⟩

omit hbs in
theorem writeTail_spec (hbs' : d.blockSize ≤ 2 ^ 32) (h : WriteInv s₀ pos₀ want buf r)
    (hal : r.pos % d.blockSize = 0) (hlen : 0 < r.len) (hlt : r.len < d.blockSize) :
    After w s₀ (WriteInv s₀ pos₀ want buf) (fun r => r.len = 0) (writeTail w d r) := by
  unfold writeTail
  rw [if_pos hlen]
  dsimp only
  have h32 : r.len % 2 ^ 32 = r.len := Nat.mod_eq_of_lt (by omega)
  have hdiv := Nat.div_add_mod' r.pos d.blockSize
  rw [hal, Nat.add_zero] at hdiv
  rw [h32]
  cases hm : (kmalloc w r.io).1 with
  | none => exact after_fail (h.call rfl le_rfl (Nat.le_succ _)) hlen (failed_alloc h.allocs rfl hm)
  | some tmp =>
    dsimp only
    by_cases hrc : (readBlocks w d (r.pos / d.blockSize) 1 tmp 0 (kmalloc w r.io).2).1 = 0
    case neg =>
      rw [if_pos hrc]
      exact after_fail (h.call rfl (Nat.le_succ _) (Nat.le_succ _)) hlen (failed_call h.calls rfl hrc)
    rw [if_neg (not_not.mpr hrc)]
    generalize hu : writeBlocks w d (r.pos / d.blockSize) 1
      ((readBlocks w d (r.pos / d.blockSize) 1 tmp 0 (kmalloc w r.io).2).2.1.blit 0 r.len
        (r.buf.shift r.done)) (readBlocks w d (r.pos / d.blockSize) 1 tmp 0 (kmalloc w r.io).2).2.2 = u
    obtain ⟨hcalls, hallocs, hok, hbad⟩ := modify_spec (s := (kmalloc w r.io).2) h.calls hrc
      (by omega : 0 + r.len ≤ d.blockSize) hu.symm
    have hallocs' : r.io.allocs ≤ u.2.allocs := (Nat.le_succ _).trans hallocs
    by_cases hz : u.1 = 0
    · rw [if_neg (not_not.mpr hz)]
      refine ⟨?_, .inl ⟨rfl, Nat.sub_self r.len⟩⟩
      have hbuf := h.buf
      refine h.store hsize le_rfl ((hok hz).trans ?_) (h.calls.trans hcalls) (h.allocs.trans hallocs')
      rw [Nat.add_zero, hdiv, hbuf]
      rfl
    · rw [if_pos hz]
      exact after_fail (h.call (hbad hz).1 hcalls hallocs') hlen (hbad hz).2

end

/-! ## A whole request -/

/-- `k` of the `want` bytes from `pos` on have been moved: the position is behind
them, and the request returns their number, or the error of the call that failed
before the first of them; if no call fails they are all moved. -/
structure Access (w : World) (s₀ : Io) (pos want : ℕ) (ret : ℤ) (r : Xfer) (k : ℕ) : Prop where
  pos : r.pos = pos + k
  returned : (k = want ∧ ret = toInt64 k) ∨
    (k < want ∧ ∃ e, Failed w s₀ r.io e ∧ ret = if k ≠ 0 then toInt64 k else e)
  whole : (∀ i, s₀.calls ≤ i → i < r.io.calls → w.rc i = 0) →
    (∀ i, s₀.allocs ≤ i → i < r.io.allocs → w.mem i ≠ none) → k = want

/-- A failed call is one of those made. -/
theorem Failed.not_whole {s : Io} (h : Failed w s₀ s e) (hrc : ∀ i, s₀.calls ≤ i → i < s.calls → w.rc i = 0)
    (hmem : ∀ i, s₀.allocs ≤ i → i < s.allocs → w.mem i ≠ none) : False := by
  rcases h with ⟨-, hlt, hnone⟩ | ⟨hne, hlt, he⟩
  · exact hmem _ (by omega) (by omega) hnone
  · exact hne (he.symm.trans (hrc _ (by omega) (by omega)))

theorem OnWay.access (h : OnWay s₀ pos₀ want r) (hends : Ends w s₀ ret r) :
    Access w s₀ pos₀ want ret r r.done := by
  have hlen := h.len
  refine ⟨h.pos, ?_, fun hrc hmem => ?_⟩
  · rcases hends with ⟨hz, hret⟩ | ⟨hpos, e, hf, hret⟩
    · exact .inl ⟨by omega, hret⟩
    · exact .inr ⟨by omega, e, hf, hret⟩
  · rcases hends with ⟨hz, -⟩ | ⟨-, e, hf, -⟩
    · omega
    · exact (hf.not_whole hrc hmem).elim

/-- What is left to return at the end of a request. -/
theorem After.ends (h : After w s₀ I (fun r => r.len = 0) x) : Ends w s₀ (x.1.getD (toInt64 x.2.done)) x.2 := by
  rcases h.2 with ⟨hnone, hz⟩ | ⟨ret, hret, hends⟩
  · rw [hnone]
    exact .inl ⟨hz, rfl⟩
  · rw [hret]
    exact hends

/-- Nothing is wanted, and nothing moved. -/
theorem access_none (buf : Bytes) (len : ℕ) (hw : want = 0) : Access w s₀ pos₀ want 0 ⟨pos₀, 0, len, buf, s₀⟩ 0 :=
  ⟨rfl, .inl ⟨hw.symm, rfl⟩, fun _ _ => hw.symm⟩

theorem blit_none (m src : Bytes) (a : ℕ) : m.blit a 0 src = m :=
  funext fun _ => Bytes.blit_apply_of_notMem (by omega)

section

variable (hbs : 0 < d.blockSize) (hbs' : d.blockSize ≤ 2 ^ 32) {pos len : ℕ} {s : Io}
  (hsize : d.nblocks * d.blockSize < 2 ^ 64)

include hbs hbs' hsize

theorem devfsBlockRead_access (hlen : len / d.blockSize < 2 ^ 32) (hreads : d.reads = true) :
    ∃ k ≤ min len (d.nblocks * d.blockSize - pos),
      Access w s pos (min len (d.nblocks * d.blockSize - pos)) (devfsBlockRead w d pos buf len s).1
        (devfsBlockRead w d pos buf len s).2 k ∧
      (devfsBlockRead w d pos buf len s).2.buf = buf.blit 0 k (s.data.shift pos) ∧
      (devfsBlockRead w d pos buf len s).2.io.data = s.data := by
  have hz : d.blockSize ≠ 0 := hbs.ne'
  unfold devfsBlockRead
  dsimp only
  rw [Nat.mod_eq_of_lt hsize, hreads, if_neg (by simp), if_neg hz]
  by_cases h0 : len = 0
  · rw [if_pos h0, h0, Nat.zero_min]
    exact ⟨0, le_rfl, access_none _ _ rfl, (blit_none _ _ _).symm, rfl⟩
  rw [if_neg h0]
  by_cases hend : d.nblocks * d.blockSize ≤ pos
  · -- the end of the device
    rw [if_pos hend, Nat.sub_eq_zero_of_le hend, Nat.min_zero]
    exact ⟨0, le_rfl, access_none _ _ rfl, (blit_none _ _ _).symm, rfl⟩
  have hwant : (if d.nblocks * d.blockSize - pos < len then d.nblocks * d.blockSize - pos else len) =
      min len (d.nblocks * d.blockSize - pos) := by
    split_ifs <;> omega
  rw [if_neg hend, hwant]
  generalize hw : min len (d.nblocks * d.blockSize - pos) = want
  have hsum : pos + want < 2 ^ 64 := by omega
  have hblocks : ∀ n ≤ want, n / d.blockSize < 2 ^ 32 := fun n hn =>
    (Nat.div_le_div_right (by omega)).trans_lt hlen
  have hstart : ReadInv s pos want buf ⟨pos, 0, want, buf, s⟩ :=
    ⟨⟨rfl, Nat.zero_add _, le_rfl, le_rfl⟩, rfl, (blit_none _ _ _).symm⟩
  have hhead := readHead_spec (w := w) hbs hsum hbs' hstart rfl (by dsimp only; omega)
  have hmiddle := hhead.andThen fun r hr hq =>
    readMiddle_spec hbs hsum hr hq.1 hq.2 (hblocks _ (by have := hr.len; omega))
  have hrun := hmiddle.andThen fun r hr hq => readTail_spec hsum hbs' hr hq.1 hq.2.1 hq.2.2
  exact ⟨_, by have := hrun.1.len; omega, hrun.1.toOnWay.access hrun.ends, hrun.1.buf, hrun.1.data⟩

theorem devfsBlockWrite_access (hlen : len / d.blockSize < 2 ^ 32) (hwrites : d.writes = true)
    (hin : len = 0 ∨ pos < d.nblocks * d.blockSize) :
    ∃ k ≤ min len (d.nblocks * d.blockSize - pos),
      Access w s pos (min len (d.nblocks * d.blockSize - pos)) (devfsBlockWrite w d pos buf len s).1
        (devfsBlockWrite w d pos buf len s).2 k ∧
      (devfsBlockWrite w d pos buf len s).2.io.data = s.data.blit pos k buf := by
  have hz : d.blockSize ≠ 0 := hbs.ne'
  unfold devfsBlockWrite
  dsimp only
  rw [Nat.mod_eq_of_lt hsize, hwrites, if_neg (by simp), if_neg hz]
  by_cases h0 : len = 0
  · rw [if_pos h0, h0, Nat.zero_min]
    exact ⟨0, le_rfl, access_none _ _ rfl, (blit_none _ _ _).symm⟩
  have hend : ¬ d.nblocks * d.blockSize ≤ pos := not_le.mpr (hin.resolve_left h0)
  have hwant : (if d.nblocks * d.blockSize - pos < len then d.nblocks * d.blockSize - pos else len) =
      min len (d.nblocks * d.blockSize - pos) := by
    split_ifs <;> omega
  rw [if_neg h0, if_neg hend, hwant]
  generalize hw : min len (d.nblocks * d.blockSize - pos) = want
  have hsum : pos + want < 2 ^ 64 := by omega
  have hblocks : ∀ n ≤ want, n / d.blockSize < 2 ^ 32 := fun n hn =>
    (Nat.div_le_div_right (by omega)).trans_lt hlen
  have hstart : WriteInv s pos want buf ⟨pos, 0, want, buf, s⟩ :=
    ⟨⟨rfl, Nat.zero_add _, le_rfl, le_rfl⟩, (blit_none _ _ _).symm, rfl⟩
  have hhead := writeHead_spec (w := w) hbs hsum hbs' hstart rfl (by dsimp only; omega)
  have hmiddle := hhead.andThen fun r hr hq =>
    writeMiddle_spec hbs hsum hr hq.1 hq.2 (hblocks _ (by have := hr.len; omega))
  have hrun := hmiddle.andThen fun r hr hq => writeTail_spec hsum hbs' hr hq.1 hq.2.1 hq.2.2
  exact ⟨_, by have := hrun.1.len; omega, hrun.1.toOnWay.access hrun.ends, hrun.1.data⟩

end

/-- **Byte access to a block device.** A read gives the bytes at the position and
changes no byte of the device; a write puts the bytes of the buffer there and
changes no other byte of it; either moves the position by what it has moved. A
write at the end or past it moves nothing and returns `VFS_ERR_NOSPC`. -/
theorem block_access (w : World) (d : BlockDev) (pos len : ℕ) (buf : Bytes) (s : Io)
    (hbs : 0 < d.blockSize) (hbs' : d.blockSize ≤ 2 ^ 32) (hsize : d.nblocks * d.blockSize < 2 ^ 64)
    (hlen : len / d.blockSize < 2 ^ 32) (hreads : d.reads = true) (hwrites : d.writes = true) :
    (∃ k ≤ min len (d.nblocks * d.blockSize - pos),
      Access w s pos (min len (d.nblocks * d.blockSize - pos)) (devfsBlockRead w d pos buf len s).1
        (devfsBlockRead w d pos buf len s).2 k ∧
      (devfsBlockRead w d pos buf len s).2.buf = buf.blit 0 k (s.data.shift pos) ∧
      (devfsBlockRead w d pos buf len s).2.io.data = s.data) ∧
    (0 < len ∧ d.nblocks * d.blockSize ≤ pos →
      devfsBlockWrite w d pos buf len s = (errNospc, ⟨pos, 0, len, buf, s⟩)) ∧
    (len = 0 ∨ pos < d.nblocks * d.blockSize →
      ∃ k ≤ min len (d.nblocks * d.blockSize - pos),
        Access w s pos (min len (d.nblocks * d.blockSize - pos)) (devfsBlockWrite w d pos buf len s).1
          (devfsBlockWrite w d pos buf len s).2 k ∧
        (devfsBlockWrite w d pos buf len s).2.io.data = s.data.blit pos k buf) := by
  refine ⟨devfsBlockRead_access hbs hbs' hsize hlen hreads, fun ⟨hpos, hend⟩ => ?_,
    devfsBlockWrite_access hbs hbs' hsize hlen hwrites⟩
  unfold devfsBlockWrite
  dsimp only
  rw [Nat.mod_eq_of_lt hsize, hwrites, if_neg (by simp), if_neg hbs.ne', if_neg hpos.ne', if_pos hend]

/-! ## The limits -/

/-- A world in which everything succeeds. -/
def allGood : World := ⟨fun _ => 0, fun _ => some (Bytes.const 0)⟩

/-- A device whose bytes count up. -/
def counting : Io := ⟨fun i => UInt8.ofNat (i + 1), 0, 0⟩

/-- **At the end a write returns an error**, by which the position does not move;
a device of `2 ^ 64` bytes has no bytes to read; and of a block larger than
`2 ^ 32` bytes the bytes may not be copied that a read counts. -/
theorem block_access_limits :
    (devfsBlockWrite allGood ⟨512, 1, true, true⟩ 512 (Bytes.const 0) 1 counting).1 = errNospc ∧
    (devfsBlockWrite allGood ⟨512, 1, true, true⟩ 512 (Bytes.const 0) 1 counting).2.pos = 512 ∧
    (devfsBlockRead allGood ⟨512, 2 ^ 55, true, true⟩ 0 (Bytes.const 0) 1 counting).1 = 0 ∧
    (devfsBlockRead allGood ⟨2 ^ 33, 1, true, true⟩ 1 (Bytes.const 0) (2 ^ 32) counting).1 = 2 ^ 32 ∧
    (devfsBlockRead allGood ⟨2 ^ 33, 1, true, true⟩ 1 (Bytes.const 0) (2 ^ 32) counting).2.buf 0 ≠
      counting.data 1 := by
  decide +kernel

/-- Ten bytes across the ends of two blocks of 4. -/
theorem block_access_small :
    (∃ k ≤ min 10 (8 * 4 - 3),
      Access allGood counting 3 (min 10 (8 * 4 - 3))
        (devfsBlockRead allGood ⟨4, 8, true, true⟩ 3 (Bytes.const 0) 10 counting).1
        (devfsBlockRead allGood ⟨4, 8, true, true⟩ 3 (Bytes.const 0) 10 counting).2 k ∧
      (devfsBlockRead allGood ⟨4, 8, true, true⟩ 3 (Bytes.const 0) 10 counting).2.buf =
        (Bytes.const 0).blit 0 k (counting.data.shift 3) ∧
      (devfsBlockRead allGood ⟨4, 8, true, true⟩ 3 (Bytes.const 0) 10 counting).2.io.data =
        counting.data) ∧
    (devfsBlockRead allGood ⟨4, 8, true, true⟩ 3 (Bytes.const 0) 10 counting).1 = 10 :=
  ⟨(block_access allGood ⟨4, 8, true, true⟩ 3 10 (Bytes.const 0) counting (by decide) (by decide)
    (by decide) (by decide) rfl rfl).1, by decide +kernel⟩

end Devfs

end Csos

import Csos.Common.Checked
import Csos.Ramfs.Refine
/-!
# The RAM file system — when growing ends, and is enough

`ramfs_write` asks `ramfs_grow` for `pos + len` bytes, a sum of 64 bits, and
the capacity is doubled until it is as large. A capacity is a power of two;
past `2 ^ 63` the next one is 0, and the loop goes on forever. When the sum
itself wraps, `ramfs_grow` makes room for what is left of it
(`ramfs_grow_right_iff`).
-/

namespace Csos

namespace Ramfs

open Vfs

variable {s s' : State} {n n' : Node} {a b : Addr} {f : File} {need pos len fuel ncap c k : ℕ}
  {kmalloc : ℕ → Option Bytes}

/-! ## The code -/

/-- The loop of `ramfs_grow`, for as many rounds as there is fuel. -/
def capLoop (need : ℕ) : ℕ → ℕ → Outcome ℕ
  | 0, _ => .hang
  | fuel + 1, ncap => if ncap < need then capLoop need fuel (ncap * 2 % 2 ^ 64) else .ret ncap

/-- The node with another buffer, and the old contents in it. -/
def Node.moveTo (n : Node) (buf : Bytes) (ncap : ℕ) : Node :=
  let buf := match n.data with
    | none => buf
    | some old => if n.size ≠ 0 then buf.blit 0 (n.size % 2 ^ 32) old else buf
  { n with data := some buf, cap := ncap }

/-- `ramfs_grow`, with what `kmalloc` answers to each size. -/
def ramfsGrow (kmalloc : ℕ → Option Bytes) (fuel : ℕ) (n : Node) (need : ℕ) : Outcome (ℤ × Node) :=
  if n.fits need then .ret (vfsOk, n)
  else match capLoop need fuel n.firstCap with
    | .fault => .fault
    | .hang => .hang
    | .ret ncap => match kmalloc ncap with
      | none => .ret (errNomem, n)
      | some buf => .ret (vfsOk, n.moveTo buf ncap)

/-- `kmalloc` has no block of `2 ^ 32` bytes. -/
def Small (kmalloc : ℕ → Option Bytes) : Prop := ∀ c, 2 ^ 32 ≤ c → kmalloc c = none

/-- **The growth of a write of `len` bytes at `pos` is right**: it ends; if
it succeeds there is room for the bytes and the contents are the old ones,
and if it fails the node is the old one. -/
def GrowsRight (kmalloc : ℕ → Option Bytes) (n : Node) (pos len : ℕ) : Prop :=
  ∃ fuel rc n', ramfsGrow kmalloc fuel n ((pos + len) % 2 ^ 64) = .ret (rc, n') ∧
    (rc = vfsOk → pos + len ≤ n'.cap ∧ n'.size = n.size ∧ ∀ i < n.size, n'.byte i = n.byte i) ∧
    (rc ≠ vfsOk → n' = n)

/-! ## The loop -/

/-- **Up to `2 ^ 63` the loop ends**, and as the model of the file system
has it. -/
theorem capLoop_eq (h1 : 1 ≤ ncap) (hneed : need ≤ 2 ^ 63) (hf : need ≤ ncap * 2 ^ fuel) :
    capLoop need (fuel + 1) ncap = .ret (growLoop need (fuel + 1) ncap) := by
  induction fuel generalizing ncap with
  | zero =>
    rw [pow_zero, Nat.mul_one] at hf
    rw [capLoop, growLoop, if_neg (by omega), if_neg (by omega)]
  | succ fuel ih =>
    rw [capLoop, growLoop]
    split
    · rw [Nat.mod_eq_of_lt (by omega)]
      exact ih (by omega) (by rw [pow_succ] at hf; nlinarith)
    · rfl

/-- Past `2 ^ 63` no power of two is large enough, and neither is 0. -/
theorem capLoop_hang (hneed : 2 ^ 63 < need) (hcap : ncap = 0 ∨ ∃ k ≤ 63, ncap = 2 ^ k) :
    capLoop need fuel ncap = .hang := by
  induction fuel generalizing ncap with
  | zero => rfl
  | succ fuel ih =>
    have hle : ncap ≤ 2 ^ 63 := by
      rcases hcap with rfl | ⟨k, hk, rfl⟩
      · exact Nat.zero_le _
      · exact Nat.pow_le_pow_right (by decide) hk
    rw [capLoop, if_pos (by omega)]
    refine ih ?_
    rcases hcap with rfl | ⟨k, hk, rfl⟩
    · exact .inl rfl
    · rw [← pow_succ]
      rcases Nat.lt_or_ge k 63 with hlt | hge
      · exact .inr ⟨k + 1, hlt, Nat.mod_eq_of_lt (Nat.pow_lt_pow_right (by decide) (by omega))⟩
      · obtain rfl : k = 63 := by omega
        exact .inl (Nat.mod_self _)

/-- For at most half of `2 ^ 32` the loop stays below it. -/
theorem capLoop_lt (hneed : need ≤ 2 ^ 31) (hcap : ∃ k ≤ 31, ncap = 2 ^ k)
    (h : capLoop need fuel ncap = .ret c) : c < 2 ^ 32 := by
  induction fuel generalizing ncap with
  | zero => cases h
  | succ fuel ih =>
    obtain ⟨k, hk, rfl⟩ := hcap
    rw [capLoop] at h
    split at h
    · rename_i hlt
      have hk' : k < 31 := (Nat.pow_lt_pow_iff_right (by decide)).mp (hlt.trans_le hneed)
      rw [← pow_succ, Nat.mod_eq_of_lt (Nat.pow_lt_pow_right (by decide) (by omega))] at h
      exact ih ⟨k + 1, hk', rfl⟩ h
    · cases h
      exact Nat.pow_lt_pow_right (by decide) (by omega)

/-- The capacity stays a power of two. -/
theorem growLoop_pow (hneed : need ≤ 2 ^ 63) : ∃ k', growLoop need fuel (2 ^ k) = 2 ^ k' := by
  induction fuel generalizing k with
  | zero => exact ⟨k, rfl⟩
  | succ fuel ih =>
    rw [growLoop]
    split
    · rename_i hlt
      have hk : k < 63 := (Nat.pow_lt_pow_iff_right (by decide)).mp (hlt.trans_le hneed)
      rw [← pow_succ, Nat.mod_eq_of_lt (Nat.pow_lt_pow_right (by decide) (by omega))]
      exact ih
    · exact ⟨k, rfl⟩

/-! ## The capacities of a mount -/

/-- The capacity from which the loop starts is a power of two. -/
def PowCap (n : Node) : Prop := ∃ k, n.firstCap = 2 ^ k

theorem powCap_of_zero (h : n.cap = 0) : PowCap n := by
  refine ⟨9, ?_⟩
  rw [Node.firstCap, if_neg (not_not.mpr h)]
  rfl

theorem PowCap.congr (h : PowCap n) (hcap : n'.cap = n.cap) : PowCap n' := by
  obtain ⟨k, hk⟩ := h
  exact ⟨k, by rw [Node.firstCap, hcap, ← hk, Node.firstCap]⟩

theorem PowCap.le (h : PowCap n) (hb : BufferOk n) : ∃ k ≤ 31, n.firstCap = 2 ^ k := by
  obtain ⟨k, hk⟩ := h
  have hlt : n.firstCap < 2 ^ 32 := by
    have := hb.cap_lt
    rw [Node.firstCap]
    split
    · exact this
    · decide
  rw [hk] at hlt
  exact ⟨k, Nat.lt_succ_iff.mp ((Nat.pow_lt_pow_iff_right (by decide)).mp hlt), hk⟩

/-- Of the nodes in use, each has the capacity it had, or none. -/
def SameCaps (s s' : State) : Prop :=
  ∀ a, s'.live a = true → (s'.node a).cap = 0 ∨ s.live a = true ∧ (s'.node a).cap = (s.node a).cap

theorem SameCaps.refl (s : State) : SameCaps s s := fun _ ha => .inr ⟨ha, rfl⟩

theorem SameCaps.trans {s₁ : State} (h : SameCaps s s₁) (h' : SameCaps s₁ s') : SameCaps s s' := by
  intro a ha
  rcases h' a ha with h0 | ⟨ha₁, he₁⟩
  · exact .inl h0
  · rw [he₁]
    exact h a ha₁

theorem sameCaps_modify {g : Node → Node} (h : (g (s.node a)).cap = (s.node a).cap) :
    SameCaps s (s.modify a g) := by
  intro b hb
  refine .inr ⟨hb, ?_⟩
  rw [modify_node]
  split
  · rename_i he
    rw [he, h]
  · rfl

theorem sameCaps_setLink (dir : Addr) (prev v : Option Addr) : SameCaps s (setLink s dir prev v) := by
  intro b hb
  rw [setLink_live] at hb
  exact .inr ⟨hb, by rw [setLink_node]; rfl⟩

theorem sameCaps_childLink (dir node : Addr) : SameCaps s (childLink s dir node) := by
  unfold childLink
  refine SameCaps.trans (SameCaps.trans ?_ (sameCaps_setLink _ _ _)) (sameCaps_modify rfl)
  exact sameCaps_modify rfl

theorem sameCaps_childUnlink (node : Addr) : SameCaps s (childUnlink s node) := by
  unfold childUnlink
  split
  · exact SameCaps.refl s
  · refine SameCaps.trans ?_ (sameCaps_modify rfl)
    split
    · exact sameCaps_setLink _ _ _
    · exact SameCaps.refl s

theorem sameCaps_createLocked (rel : Str) (isDir : Bool) (mem : Option Addr) :
    SameCaps s (createLocked s rel isDir mem).2 := by
  unfold createLocked
  simp only
  split
  · exact SameCaps.refl s
  split
  · exact SameCaps.refl s
  split
  · exact SameCaps.refl s
  split
  · exact SameCaps.refl s
  split
  · exact SameCaps.refl s
  · rename_i n
    refine SameCaps.trans (fun b hb => ?_) (sameCaps_childLink _ _)
    rw [modify_node]
    split
    · exact .inl rfl
    · rename_i hne
      refine .inr ⟨?_, rfl⟩
      change Function.update s.live n true b = true at hb
      rwa [Function.update_of_ne hne] at hb

theorem sameCaps_ramfsOpen (rel : Str) (flags : ℕ) (mem : Option Addr) :
    SameCaps s (ramfsOpen s a rel flags mem).2 := by
  have hlookup : SameCaps s (openLookup s rel flags mem).2 := by
    unfold openLookup
    split
    · split
      · exact sameCaps_createLocked rel false mem
      · exact SameCaps.refl s
    · exact SameCaps.refl s
  unfold ramfsOpen
  split
  · rename_i h
    rw [h] at hlookup
    exact hlookup
  · rename_i n s₁ h
    rw [h] at hlookup
    split
    · exact hlookup
    split
    · exact hlookup
    · have htrunc : SameCaps s₁ (truncate s₁ n flags) := by
        unfold truncate
        split
        · exact sameCaps_modify rfl
        · exact SameCaps.refl s₁
      have href : SameCaps (truncate s₁ n flags) ((truncate s₁ n flags).modify n Node.ref) :=
        sameCaps_modify rfl
      exact hlookup.trans (htrunc.trans href)

theorem sameCaps_ramfsRead (f : File) (len : ℕ) : SameCaps s (ramfsRead s a f len).2 := by
  unfold ramfsRead
  split
  · exact SameCaps.refl s
  · exact SameCaps.refl s

theorem sameCaps_ramfsSeek (f : File) (off whence : ℤ) : SameCaps s (ramfsSeek s a f off whence).2 := by
  unfold ramfsSeek
  simp only
  split_ifs <;> exact SameCaps.refl s

theorem sameCaps_ramfsMkdir (rel : Str) (mem : Option Addr) : SameCaps s (ramfsMkdir s rel mem).2 := by
  have hcreate := sameCaps_createLocked (s := s) rel true mem
  unfold ramfsMkdir
  split <;> rename_i hc <;> rw [hc] at hcreate <;> exact hcreate

theorem sameCaps_ramfsRmdir (rel : Str) : SameCaps s (ramfsRmdir s rel).2 := by
  unfold ramfsRmdir
  split
  · exact SameCaps.refl s
  · rename_i n _
    split
    · exact SameCaps.refl s
    split
    · exact SameCaps.refl s
    split
    · exact SameCaps.refl s
    split
    · exact SameCaps.refl s
    · -- the node is not in use any more
      intro b hb
      change Function.update (childUnlink s n).live n false b = true at hb
      rw [Function.update_apply] at hb
      split at hb
      · cases hb
      · exact sameCaps_childUnlink n b hb

theorem sameCaps_ramfsOpendir (rel : Str) : SameCaps s (ramfsOpendir s a rel).2 := by
  unfold ramfsOpendir
  split
  · exact SameCaps.refl s
  split
  · exact SameCaps.refl s
  · rename_i n _ _
    have href : SameCaps s (s.modify n Node.ref) := sameCaps_modify rfl
    exact href

theorem sameCaps_ramfsReaddir (d : Dir) : SameCaps s (ramfsReaddir s a d).2 := by
  unfold ramfsReaddir
  split
  · exact SameCaps.refl s
  · rename_i next _
    have href : SameCaps s (s.modify next Node.ref) := sameCaps_modify rfl
    simp only
    split
    · rename_i prev _
      have hunref : SameCaps s ((s.modify next Node.ref).modify prev Node.unref) :=
        href.trans (sameCaps_modify rfl)
      exact hunref
    · exact href

theorem sameCaps_ramfsClosedir (d : Dir) : SameCaps s (ramfsClosedir s a d) := by
  unfold ramfsClosedir
  cases d.pos with
  | none =>
    have hunref : SameCaps s (s.modify d.node Node.unref) := sameCaps_modify rfl
    exact hunref
  | some prev =>
    have hprev : SameCaps s (s.modify prev Node.unref) := sameCaps_modify rfl
    have hunref : SameCaps s ((s.modify prev Node.unref).modify d.node Node.unref) :=
      hprev.trans (sameCaps_modify rfl)
    exact hunref

/-- **Every capacity of a mount is a power of two**, or there is none yet. -/
def Caps (s : State) : Prop := ∀ a, s.live a = true → PowCap (s.node a)

theorem Caps.same (h : Caps s) (hs : SameCaps s s') : Caps s' := by
  intro a ha
  rcases hs a ha with h0 | ⟨hl, he⟩
  · exact powCap_of_zero h0
  · exact (h a hl).congr he

/-- Growing leaves a power of two. -/
theorem PowCap.grow {mem : Option Bytes} (h : PowCap n) (hneed : need ≤ 2 ^ 63)
    (hg : Ramfs.grow n need mem = some n') : PowCap n' := by
  unfold Ramfs.grow at hg
  split at hg
  · cases hg
    exact h
  cases mem with
  | none => cases hg
  | some fresh =>
    cases hg
    obtain ⟨k, hk⟩ := h
    have hpow : ∃ k', growLoop need 64 (2 ^ k) = 2 ^ k' := growLoop_pow hneed
    obtain ⟨k', hk'⟩ := hpow
    rw [← hk] at hk'
    refine ⟨k', ?_⟩
    rw [Node.firstCap, Node.newCap, hk', if_pos (by positivity)]

theorem Caps.write {buf : List UInt8} {mem : Option Bytes} (h : Caps s)
    (hpos : f.pos + buf.length ≤ 2 ^ 63) : Caps (ramfsWrite s a f buf mem).2 := by
  unfold ramfsWrite
  split
  · exact h
  split
  · exact h
  · rename_i hdir n₁ hg
    rw [Nat.mod_eq_of_lt (by omega)] at hg
    have hcap := (store_links n₁ f.pos buf).2.2.1
    intro b hb
    -- only the node of the handle has changed
    have hnode : ∀ x : Node, x.cap = n₁.cap → PowCap ((s.modify f.node fun _ => x).node b) := by
      intro x hx
      rw [modify_node]
      split
      · rename_i he
        subst he
        exact ((h f.node hb).grow hpos hg).congr hx
      · exact h b hb
    refine hnode _ ?_
    split
    · exact hcap
    · exact hcap

/-- **A call keeps the capacities.** -/
theorem Caps.step {x : Call} {ans : Answer} (h : Caps s) (hs : step s x = some (ans, s')) : Caps s' := by
  cases x with
  | openFile k path flags mem =>
    simp only [Ramfs.step] at hs
    split at hs
    · cases hs
      exact h.same (sameCaps_ramfsOpen _ _ _)
    · cases hs
  | close k =>
    obtain ⟨f, -, he⟩ := Option.map_eq_some_iff.mp hs
    cases he
    have hunref : SameCaps s (s.modify f.node Node.unref) := sameCaps_modify rfl
    exact h.same hunref
  | read k len =>
    obtain ⟨f, -, he⟩ := Option.map_eq_some_iff.mp hs
    have hsame := sameCaps_ramfsRead (s := s) (a := k) f len
    rw [he] at hsame
    exact h.same hsame
  | write k buf mem =>
    obtain ⟨f, -, he⟩ := Option.bind_eq_some_iff.mp hs
    split at he
    · rename_i hguard
      have hw : Caps (ramfsWrite s k f buf mem).2 := h.write hguard.1
      rw [Option.some.inj he] at hw
      exact hw
    · cases he
  | seek k off whence =>
    obtain ⟨f, -, he⟩ := Option.bind_eq_some_iff.mp hs
    split at he
    · have hsame := sameCaps_ramfsSeek (s := s) (a := k) f off whence
      rw [Option.some.inj he] at hsame
      exact h.same hsame
    · cases he
  | stat path =>
    simp only [Ramfs.step] at hs
    split at hs
    · cases hs
      exact h
    · cases hs
  | mkdir path mem =>
    simp only [Ramfs.step] at hs
    split at hs
    · cases hs
      exact h.same (sameCaps_ramfsMkdir _ _)
    · cases hs
  | rmdir path =>
    simp only [Ramfs.step] at hs
    split at hs
    · cases hs
      exact h.same (sameCaps_ramfsRmdir _)
    · cases hs
  | opendir k path =>
    simp only [Ramfs.step] at hs
    split at hs
    · cases hs
      exact h.same (sameCaps_ramfsOpendir _)
    · cases hs
  | readdir k =>
    obtain ⟨d, -, he⟩ := Option.map_eq_some_iff.mp hs
    have hsame := sameCaps_ramfsReaddir (s := s) (a := k) d
    rw [he] at hsame
    exact h.same hsame
  | closedir k =>
    obtain ⟨d, -, he⟩ := Option.map_eq_some_iff.mp hs
    cases he
    exact h.same (sameCaps_ramfsClosedir d)

theorem Run.caps {node : Addr → Node} {root : Addr} {l : List (Call × Answer)}
    (h : Run (mounted node root) l s) : Caps s := by
  induction h with
  | nil =>
    intro a ha
    rw [mounted_live ha, mounted_node_root]
    exact powCap_of_zero rfl
  | snoc _ hs ih => exact ih.step hs

/-! ## When growing is right -/

/-- **Up to `2 ^ 63` the code is `grow` of the model**, with the answer of
`kmalloc` for the size that is asked for. -/
theorem ramfsGrow_eq (kmalloc : ℕ → Option Bytes) (n : Node) (hneed : need ≤ 2 ^ 63) :
    ramfsGrow kmalloc 64 n need = match grow n need (kmalloc (n.newCap need)) with
    | none => .ret (errNomem, n)
    | some n' => .ret (vfsOk, n') := by
  have hpos := n.firstCap_pos
  have hloop : capLoop need (63 + 1) n.firstCap = .ret (n.newCap need) :=
    capLoop_eq hpos hneed (by nlinarith [Nat.pow_pos (n := 63) (show 0 < 2 by decide)])
  unfold ramfsGrow grow
  split
  · rfl
  rw [hloop]
  simp only
  cases kmalloc (n.newCap need) with
  | none => rfl
  | some buf => rfl

/-- What is asked of `kmalloc` is a power of two. -/
theorem PowCap.newCap (h : PowCap n) (hneed : need ≤ 2 ^ 63) : ∃ k, n.newCap need = 2 ^ k := by
  obtain ⟨k, hk⟩ := h
  rw [Node.newCap, hk]
  exact growLoop_pow hneed

theorem growsRight_of_le (hb : BufferOk n) (hdir : n.isDir = false) (hk : Small kmalloc)
    (hle : pos + len ≤ 2 ^ 63) : GrowsRight kmalloc n pos len := by
  have hmem : bufferOk n (pos + len) (kmalloc (n.newCap (pos + len))) = true := by
    rw [bufferOk, decide_eq_true_eq]
    rcases Nat.lt_or_ge (n.newCap (pos + len)) (2 ^ 32) with hlt | hge
    · exact .inr (.inl hlt)
    · exact .inr (.inr (by rw [hk _ hge]; rfl))
  rw [GrowsRight, Nat.mod_eq_of_lt (by omega)]
  have heq := ramfsGrow_eq kmalloc n hle
  cases hg : grow n (pos + len) (kmalloc (n.newCap (pos + len))) with
  | none =>
    rw [hg] at heq
    exact ⟨64, errNomem, n, heq, fun h => absurd h (by decide), fun _ => rfl⟩
  | some n' =>
    rw [hg] at heq
    obtain ⟨-, -, hsize, hcap, -, hbyte⟩ := grow_spec hb hdir hle hmem hg
    exact ⟨64, vfsOk, n', heq, fun _ => ⟨hcap, hsize, hbyte⟩, fun h => absurd rfl h⟩

/-- Past `2 ^ 31` no buffer is large enough as it is. -/
theorem PowCap.fits_eq_false (h : PowCap n) (hb : BufferOk n) (hneed : 2 ^ 31 < need) :
    n.fits need = false := by
  obtain ⟨k, hk31, hfirst⟩ := h.le hb
  have hsmall : n.firstCap ≤ 2 ^ 31 := by
    rw [hfirst]
    exact Nat.pow_le_pow_right (by decide) hk31
  rw [Node.fits, decide_eq_false_iff_not]
  intro h
  omega

/-- The sum wraps, and what is left of it is more than `kmalloc` has. -/
theorem growsRight_of_large (hb : BufferOk n) (hp : PowCap n) (hk : Small kmalloc) (hpos : pos < 2 ^ 63)
    (hlen : len < 2 ^ 64) (hlt : 2 ^ 64 + 2 ^ 31 < pos + len) : GrowsRight kmalloc n pos len := by
  have hneed : (pos + len) % 2 ^ 64 = pos + len - 2 ^ 64 := by omega
  have hle : (pos + len) % 2 ^ 64 ≤ 2 ^ 63 := by omega
  have hge := (n.newCap_ge hle).1
  have hfits : n.fits ((pos + len) % 2 ^ 64) = false := hp.fits_eq_false hb (by omega)
  -- a power of two past `2 ^ 31`
  have hask : 2 ^ 32 ≤ n.newCap ((pos + len) % 2 ^ 64) := by
    obtain ⟨m, hm⟩ := hp.newCap hle
    rw [hm] at hge ⊢
    refine Nat.pow_le_pow_right (by decide) ?_
    have : 31 < m := (Nat.pow_lt_pow_iff_right (by decide)).mp (show 2 ^ 31 < 2 ^ m by omega)
    omega
  have heq := ramfsGrow_eq kmalloc n hle
  rw [hk _ hask, grow, hfits, if_neg (by decide)] at heq
  exact ⟨64, errNomem, n, heq, fun h => absurd h (by decide), fun _ => rfl⟩

/-- Past `2 ^ 63` the loop does not end. -/
theorem not_growsRight_of_hang (hb : BufferOk n) (hp : PowCap n) (hgt : 2 ^ 63 < pos + len)
    (hlt : pos + len < 2 ^ 64) : ¬ GrowsRight kmalloc n pos len := by
  obtain ⟨k, hk31, hfirst⟩ := hp.le hb
  rintro ⟨fuel, rc, n', hret, -⟩
  have hfits : n.fits (pos + len) = false := hp.fits_eq_false hb (by omega)
  rw [Nat.mod_eq_of_lt hlt, ramfsGrow, hfits, if_neg (by decide),
    capLoop_hang hgt (.inr ⟨k, by omega, hfirst⟩)] at hret
  cases hret

/-- The sum wraps, and there is room for what is left of it. -/
theorem not_growsRight_of_wrap (hb : BufferOk n) (hp : PowCap n) (hge : 2 ^ 64 ≤ pos + len)
    (hle : pos + len ≤ 2 ^ 64 + 2 ^ 31) :
    ¬ GrowsRight (fun c => if c < 2 ^ 32 then some (Bytes.const 0) else none) n pos len := by
  obtain ⟨k, hk31, hfirst⟩ := hp.le hb
  have hcap := hb.cap_lt
  rintro ⟨fuel, rc, n', hret, hok, -⟩
  rw [ramfsGrow] at hret
  split at hret
  · cases hret
    have := (hok rfl).1
    omega
  · cases hloop : capLoop ((pos + len) % 2 ^ 64) fuel n.firstCap with
    | fault =>
      rw [hloop] at hret
      cases hret
    | hang =>
      rw [hloop] at hret
      cases hret
    | ret c =>
      have hlt := capLoop_lt (by omega) ⟨k, hk31, hfirst⟩ hloop
      rw [hloop] at hret
      simp only [if_pos hlt] at hret
      cases hret
      have hroom : pos + len ≤ c := (hok rfl).1
      omega

/-! ## Every position -/

/-- On a new mount a file is created, with its handle at 3. -/
theorem open_first : ∃ s, step (mounted (fun _ => newNode [] true) 1)
    (.openFile 3 [[97]] oCreat (some 2)) = some (.code vfsOk, s) ∧
      s.files 3 = some ⟨2, 0, false, 0⟩ := by
  have hend : 3 < heapEnd := by
    rw [heapEnd_eq]
    norm_num
  generalize hs₀ : mounted (fun _ => newNode [] true) 1 = s₀
  have hroot : s₀.root = 1 := by rw [← hs₀]; rfl
  have hdir : (s₀.node 1).isDir = true := by rw [← hs₀]; rfl
  have hchild : childFind s₀ 1 [97] = none := by
    rw [← hs₀, childFind]
    generalize heapEnd = fuel
    cases fuel <;> rfl
  have hshape : Shape s₀ := by
    rw [← hs₀]
    exact mounted_shape _ (lt_trans (by decide) hend)
  have hfresh : freshNode s₀ (some 2) = true := by
    rw [← hs₀]
    simp [freshNode, mounted, lt_trans (show 2 < 3 by decide) hend]
  have hlookup : lookup s₀ [97] = .error errNoent := by
    have hcomp : List.takeWhile (fun x => decide (x ≠ slash))
        (List.dropWhile (fun x => decide (x = slash)) [97]) = [97] := by decide
    rw [lookup, lookupLoop]
    simp only [hcomp, hroot, hchild, hdir]
    rfl
  have hparent : lookup s₀ (parentOf [97]) = .ok 1 := by
    rw [show parentOf [97] = [] by decide, ← hroot]
    rfl
  have hcreate : openLookup s₀ [97] oCreat (some 2) = (.ok 2, created s₀ 1 2 [97] false) := by
    rw [openLookup, hlookup]
    simp only
    rw [if_pos (by decide), createLocked, show leafOf [97] = [97] by decide, hparent]
    simp only [hdir, hchild]
    rfl
  have hnew : Created s₀ (created s₀ 1 2 [97] false) 1 2 [97] false := by
    refine created_spec hshape ?_ hdir ?_ (lt_trans (by decide) hend) ?_ hchild
    · rw [← hs₀]; rfl
    · rw [← hs₀]; rfl
    · exact ⟨by decide, by decide⟩
  have hcomp : ∀ n ∈ [[(97 : UInt8)]], Component n := by decide
  have hfile : ((created s₀ 1 2 [97] false).node 2).isDir = false := hnew.new.isDir
  have hsize : ((created s₀ 1 2 [97] false).node 2).size = 0 := hnew.new.size
  have hopen : ramfsOpen s₀ 3 [97] oCreat (some 2) = (vfsOk,
      { (created s₀ 1 2 [97] false).modify 2 Node.ref with
        files := Function.update (created s₀ 1 2 [97] false).files 3 (some ⟨2, 0, false, 0⟩) }) := by
    have htrunc : truncate (created s₀ 1 2 [97] false) 2 oCreat = created s₀ 1 2 [97] false :=
      if_neg fun h => absurd h.2.1 (by decide)
    have hhandle : openHandle 2 (((created s₀ 1 2 [97] false).modify 2 Node.ref).node 2) oCreat =
        ⟨2, 0, false, 0⟩ := by
      rw [modify_node, if_pos rfl, openHandle, if_neg fun h => absurd h.2 (by decide), Node.ref, hfile,
        hsize]
    rw [ramfsOpen, hcreate]
    simp only
    rw [hfile, if_neg (by decide), if_neg (by decide), htrunc, hhandle]
    rfl
  rw [step, if_pos ⟨hcomp, hfresh, by rw [← hs₀]; rfl, hend⟩, show joinPath [[97]] = [97] from rfl, hopen]
  exact ⟨_, rfl, rfl⟩

/-- **Every position below `2 ^ 63` is one that a handle has.** -/
theorem seek_first (pos : ℕ) (hpos : pos < 2 ^ 63) : ∃ s, Run (mounted (fun _ => newNode [] true) 1)
    [(.openFile 3 [[97]] oCreat (some 2), .code vfsOk), (.seek 3 pos seekSet, .code pos)] s ∧
      s.files 3 = some ⟨2, pos, false, 0⟩ := by
  obtain ⟨s, hs, hf⟩ := open_first
  have hseek : step s (.seek 3 pos seekSet) = some (.code pos,
      { s with files := Function.update s.files 3 (some ⟨2, pos, false, 0⟩) }) := by
    have hneg : ¬ (pos : ℤ) < 0 := by omega
    have hrange : -2 ^ 63 ≤ (pos : ℤ) ∧ (pos : ℤ) < 2 ^ 63 := by omega
    rw [step, hf, Option.bind_some, if_pos hrange, ramfsSeek, if_neg (by decide)]
    simp only [if_pos, if_neg hneg, Int.toNat_natCast]
  exact ⟨_, .snoc (.snoc .nil hs) hseek, rfl⟩

/-! ## The writes of a run -/

/-- **When the growth of a write is right**, on any mount and at any position
that a handle has. -/
theorem ramfs_grow_right_iff {node : Addr → Node} {root : Addr} {l : List (Call × Answer)} {h : Addr}
    (hroot : root < heapEnd) (hrun : Run (mounted node root) l s) (hf : s.files h = some f)
    (hdir : f.isDir = false) (hlen : len < 2 ^ 64) :
    (∀ kmalloc, Small kmalloc → GrowsRight kmalloc (s.node f.node) f.pos len) ↔
      f.pos + len ≤ 2 ^ 63 ∨ 2 ^ 64 + 2 ^ 31 < f.pos + len := by
  obtain ⟨t, -, hsim⟩ := hrun.sim hroot
  obtain ⟨-, hlive, hkind, hpos⟩ := hsim.inv.file h f hf
  have hb := hsim.inv.buffer _ hlive
  have hp := hrun.caps _ hlive
  rw [hdir] at hkind
  constructor
  · intro hall
    by_contra hnot
    rw [not_or, not_le, not_lt] at hnot
    rcases Nat.lt_or_ge (f.pos + len) (2 ^ 64) with hlt | hge
    · exact not_growsRight_of_hang hb hp hnot.1 hlt (hall (fun _ => none) fun _ _ => rfl)
    · refine not_growsRight_of_wrap hb hp hge hnot.2 (hall _ fun c hc => ?_)
      exact if_neg (by omega)
  · rintro (hle | hgt) kmalloc hk
    · exact growsRight_of_le hb hkind.symm hk hle
    · exact growsRight_of_large hb hp hk hpos hlen hgt

/-- One byte at position 5 of a new file. -/
theorem ramfs_grow_right_five : ∃ s, Run (mounted (fun _ => newNode [] true) 1)
    [(.openFile 3 [[97]] oCreat (some 2), .code vfsOk), (.seek 3 5 seekSet, .code 5)] s ∧
      ∀ kmalloc, Small kmalloc → GrowsRight kmalloc (s.node 2) 5 1 := by
  obtain ⟨s, hrun, hf⟩ := seek_first 5 (by decide)
  have hroot : 1 < heapEnd := by
    rw [heapEnd_eq]
    norm_num
  have hlen : 1 < 2 ^ 64 := by decide
  exact ⟨s, hrun, (ramfs_grow_right_iff hroot hrun hf rfl hlen).mpr (.inl (by decide))⟩

/-- With two bytes to write at `2 ^ 63 - 1` the loop goes on forever. -/
theorem ramfs_grow_hangs : ∃ s, Run (mounted (fun _ => newNode [] true) 1)
    [(.openFile 3 [[97]] oCreat (some 2), .code vfsOk),
      (.seek 3 (2 ^ 63 - 1) seekSet, .code (2 ^ 63 - 1))] s ∧
      ¬ ∀ kmalloc, Small kmalloc → GrowsRight kmalloc (s.node 2) (2 ^ 63 - 1) 2 := by
  obtain ⟨s, hrun, hf⟩ := seek_first (2 ^ 63 - 1) (by decide)
  have hroot : 1 < heapEnd := by
    rw [heapEnd_eq]
    norm_num
  obtain ⟨t, -, hsim⟩ := hrun.sim hroot
  have hlive := (hsim.inv.file 3 _ hf).2.1
  refine ⟨s, hrun, fun hall => ?_⟩
  exact not_growsRight_of_hang (hsim.inv.buffer _ hlive) (hrun.caps _ hlive) (by decide) (by decide)
    (hall (fun _ => none) fun _ _ => rfl)

end Ramfs

end Csos

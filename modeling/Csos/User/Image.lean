import Csos.User.Load
import Csos.Vmm.Boot
/-!
# User programs — what user mode and the kernel see

A program is loaded with the tables of `init_vmm`. Two things are asked: that
the kernel's own pages stay as they are, and that user mode finds in each
segment what the file describes. Both are read off the map that loading
leaves; the first needs segments away from the kernel's pages, which
`user_range_ok` does not ask for, and the second needs that no segment is
given a page that an earlier one has filled.
-/

namespace Csos

namespace User

open Vmm

variable {img : Bytes} {s s₁ s' : State} {supply supply' supply₀ rest : List Word}
  {fileSize entry total limit : ℕ} {M₀ M : ℕ → Option Translation}
  {C : ℕ → Option (ℕ → BitVec 8)} {boot : Option Framebuffer} {layout : Layout}

/-! ## The kernel when a program is loaded -/

/-- The free pages when a program is loaded: managed memory, each page once,
none of them a table. -/
structure Free (total : ℕ) (s : State) (supply : List Word) : Prop where
  managed : Managed total supply
  notTable : ∀ q t, q.length ≤ 3 → tableAt s q = some t → t ∉ supply

theorem built_agree (h : Built total boot layout supply₀ rest s₁) (hs : TablesAgree s₁ s) :
    Built total boot layout supply₀ rest s :=
  ⟨hs.realizes h.realizes, hs.fresh h.fresh, h.suffix, fun q t hq ht =>
    h.tables q t hq ((hs.tableAt (by omega)).symm.trans ht)⟩

/-- **The kernel can load.** -/
theorem ready_of_built (h : Built total boot layout supply₀ rest s) (hm : Managed total supply₀)
    (hfb : FramebufferOk boot) (hl : layout.Ok total) (hf : Free total s supply) :
    Ready s supply (total * 4096) := by
  have htotal := hf.managed.total_le
  have hself : ∀ x : Word, x.toNat % 4096 = 0 ∧ x.toNat < total * 4096 → ownTables s x = some x := by
    intro x hx
    rw [ownTables, h.resolve_managed hl hfb htotal hx.2, Option.map_some, frame_eq_self hx.1]
  refine ⟨by omega, ⟨fun x hx _ => ⟨?_, fun q hq ht => hf.notTable q x hq ht hx⟩, ?_⟩,
    ⟨fun q t hq ht => hself t (hm.page t (h.tables q t hq ht)),
      fun x hx _ => hself x (hf.managed.page x hx)⟩,
    fun q t hq ht => (hm.page t (h.tables q t hq ht)).2, fun x hx => (hf.managed.page x hx).2⟩
  · have hx := hf.managed.page x hx
    exact pteAddr_eq_self (by omega) (and_pageOffMask_eq_zero hx.1)
  · exact List.Pairwise.imp (fun {a b} (hne : a ≠ b) (_ : a ≠ 0) => hne) hf.managed.nodup

/-! ## The kernel's pages -/

/-- The addresses that the kernel uses: managed memory from the second page
on, the framebuffer, the image. -/
def inKernel (total : ℕ) (boot : Option Framebuffer) (layout : Layout) (v : Word) : Prop :=
  (4096 ≤ v.toNat ∧ inManaged total v) ∨ inFramebuffer boot v ∨ inImage layout v

/-- The pages of the segment are neither managed memory nor framebuffer. -/
def Clear (total : ℕ) (boot : Option Framebuffer) (ph : Phdr) : Prop :=
  total * 4096 ≤ ph.first ∧
    ∀ v : Word, inPages ph (v.toNat / 4096) → ¬ inFramebuffer boot v

/-- A kernel page is no page of a segment that is clear of the kernel. -/
theorem Clear.not_inPages {ph : Phdr} {v : Word} (h : Clear total boot ph) (hok : SegmentOk ph)
    (hl : layout.Ok total) (hfb : FramebufferOk boot) (hv : inKernel total boot layout v) :
    ¬ inPages ph (vpage v) := by
  obtain ⟨hlim, hno⟩ := h
  have h1 := hok.le
  have h2 := hl.higher
  have h3 := v.isLt
  rw [Phdr.first] at hlim
  rintro ⟨hq1, hq2⟩
  rw [vpage] at hq1 hq2
  rcases hv with ⟨-, hman⟩ | hfbv | himg
  · rw [inManaged] at hman
    omega
  · have hlt : v.toNat < 2 ^ 47 := by
      obtain ⟨fb, hboot, hp, -, h2⟩ := hfbv
      have := hfb fb hboot hp
      omega
    rw [Nat.mod_eq_of_lt (by omega)] at hq1 hq2
    exact hno v ⟨hq1, hq2⟩ hfbv
  · have := himg.1
    omega

/-- What the kernel's addresses resolve to. -/
theorem resolve_kernel (h : Built total boot layout supply₀ rest s)
    (hm : Managed total supply₀) (hfb : FramebufferOk boot) (hl : layout.Ok total) {v : Word}
    (hv : inKernel total boot layout v) :
    canonical v ∧ ∃ a, resolve s v = some ⟨a, false⟩ := by
  have htotal := hm.total_le
  rcases hv with ⟨-, hman⟩ | hfbv | himg
  · have hlt : v.toNat < total * 4096 := hman
    exact ⟨.inl (by omega), _, h.resolve_managed hl hfb htotal hman⟩
  · refine ⟨.inl ?_, _, h.resolve_framebuffer hl hfb hfbv⟩
    obtain ⟨fb, hboot, hp, -, h2⟩ := hfbv
    have := hfb fb hboot hp
    omega
  · have h1 := himg.1
    have h2 := hl.higher
    exact ⟨.inr (by omega), _, h.resolve_image hl htotal himg⟩

/-- **Loading keeps the kernel's pages**: an accepted image whose segments are
clear of managed memory and of the framebuffer leaves every kernel address
where it was, and closed to user mode. -/
theorem map_elf_image_keeps_kernel {m : Pmm.State} {n : ℕ} {s₀ : State} (hm : Pmm.Inv m)
    (hv : ∀ a ∈ allocs n m, a ≠ Pmm.invalidAddr) (hfb : FramebufferOk boot)
    (hl : layout.Ok m.managedPages)
    (hinit : initVmm m.managedPages boot layout (supplyOf n m) s₀ = some (true, rest, s₁))
    (hs : TablesAgree s₁ s) (hfree : Free m.managedPages s supply)
    (hclear : ∀ ph ∈ loads img, Clear m.managedPages boot ph) (hentry : entry ≠ 0)
    (hrun : mapElfImage ownTables img fileSize supply s = some (entry, supply', s')) :
    ∀ v, inKernel m.managedPages boot layout v →
      ∃ a, resolve s v = some ⟨a, false⟩ ∧ resolve s' v = some ⟨a, false⟩ := by
  have hsup := managed_supplyOf hm hv
  have hb := built_agree (initVmm_built hsup hfb hl hinit) hs
  obtain ⟨hok, M', hL⟩ := mapElfImage_loaded hb.realizes (ready_of_built hb hsup hfb hl hfree)
    (fun ph hp => (hclear ph hp).1) hentry hrun
  intro v hvk
  obtain ⟨hcan, a, ha⟩ := resolve_kernel hb hsup hfb hl hvk
  refine ⟨a, ha, ?_⟩
  have hnone : (loads img).foldl (withSegment img) (fun _ => none) (vpage v) = none :=
    foldl_withSegment_none fun ph hp => (hclear ph hp).not_inPages (hok ph hp) hl hfb hvk
  rw [hL.realizes.resolve hcan, hL.kept _ hnone, ← hb.realizes.resolve hcan, ha]

theorem Managed.suffix (h : Managed total supply) (hs : rest <:+ supply) : Managed total rest :=
  ⟨h.total_le, fun x hx => h.page x (hs.subset hx), h.nodup.sublist hs.sublist⟩

/-- The pages that `init_vmm` leaves are free. -/
theorem free_of_built (h : Built total boot layout supply₀ rest s) (hm : Managed total supply₀)
    (h0 : ∀ x ∈ rest, x ≠ 0) : Free total s rest :=
  ⟨Managed.suffix hm h.suffix, fun q t hq ht hin => (h.fresh.page t hin (h0 t hin)).notTable q hq ht⟩

/-- Twenty-four managed pages, all free from the third on. -/
def moreMemory : Pmm.State := ((Pmm.unset.init 24).getD Pmm.unset).markFree 0x2000 0x18000

theorem moreMemory_inv : Pmm.Inv moreMemory := by
  have hsome : (Pmm.unset.init 24).isSome = true := rfl
  obtain ⟨m, hm⟩ := Option.isSome_iff_exists.mp hsome
  rw [moreMemory, hm]
  exact ((Pmm.init_leaves hm).1.markFree _ _).inv

/-- `ph` as the `i`-th header of a file. -/
def putPhdr (img : Bytes) (i : ℕ) (ph : Phdr) : Bytes :=
  let a := 64 + 56 * i
  let img := (img.store 4 a ph.type).store 4 (a + 4) ph.flags
  let img := (img.store 8 (a + 8) ph.offset).store 8 (a + 16) ph.vaddr
  (img.store 8 (a + 32) ph.filesz).store 8 (a + 40) ph.memsz

/-- A file with these headers, and `0x90` where nothing else is. -/
def fileOf (entry : ℕ) (phs : List Phdr) : Bytes :=
  let img := ((Bytes.const 0x90).store 4 0 0x464c457f).store 3 4 0x010102
  let img := ((img.store 2 16 2).store 2 18 62).store 8 24 entry
  let img := ((img.store 8 32 64).store 2 54 56).store 2 56 phs.length
  phs.zipIdx.foldl (fun img x => putPhdr img x.2 x.1) img

/-- A segment of one byte at 1 GiB, where `user.ld` links programs. -/
def linkedProgram : Bytes := fileOf 0x40000000 [⟨1, 2, 0, 0x40000000, 1, 1⟩]

/-- A segment of one byte in managed memory. -/
def lowProgram : Bytes := fileOf 0x8000 [⟨1, 2, 0, 0x8000, 1, 1⟩]

/-- `init_vmm` and then `map_elf_image`. -/
def loadAfterInit (img : Bytes) : Option (State × ℕ × State) :=
  (initVmm 24 none onePageKernel (supplyOf 20 moreMemory) emptyTables).bind fun x =>
    (mapElfImage ownTables img 0x1000 x.2.1 x.2.2).map fun y => (x.2.2, y.1, y.2.2)

theorem onePageKernel_ok : onePageKernel.Ok 24 :=
  ⟨by decide, by decide, by decide, by decide, by decide, by decide⟩

theorem framebufferOk_none : FramebufferOk none := fun _ h => absurd h (by simp)

/-- `init_vmm` succeeds there and leaves free pages. -/
theorem init_moreMemory : ∃ rest s,
    initVmm 24 none onePageKernel (supplyOf 20 moreMemory) emptyTables = some (true, rest, s) ∧
      Built 24 none onePageKernel (supplyOf 20 moreMemory) rest s ∧ Free 24 s rest := by
  have hrun : (initVmm 24 none onePageKernel (supplyOf 20 moreMemory) emptyTables).map
      (fun x => (x.1, x.2.1.all (· ≠ 0))) = some (true, true) := by
    decide +kernel
  obtain ⟨⟨ok, rest, s⟩, hr, hok⟩ := Option.map_eq_some_iff.mp hrun
  obtain ⟨rfl, h0⟩ := Prod.mk.inj hok
  have hm : Managed 24 (supplyOf 20 moreMemory) :=
    managed_supplyOf moreMemory_inv (by decide +kernel)
  have hb := initVmm_built hm framebufferOk_none onePageKernel_ok hr
  exact ⟨rest, s, hr, hb, free_of_built hb hm fun x hx => by simpa using List.all_eq_true.mp h0 x hx⟩

theorem loadAfterInit_eq
    (h : initVmm 24 none onePageKernel (supplyOf 20 moreMemory) emptyTables = some (true, rest, s)) :
    loadAfterInit img =
      (mapElfImage ownTables img 0x1000 rest s).map fun y => (s, y.1, y.2.2) := by
  rw [loadAfterInit, h]
  rfl

theorem map_elf_image_keeps_kernel_linked : ∃ rest s supply' s',
    initVmm 24 none onePageKernel (supplyOf 20 moreMemory) emptyTables = some (true, rest, s) ∧
    mapElfImage ownTables linkedProgram 0x1000 rest s = some (0x40000000, supply', s') ∧
    ∃ a, resolve s 0x8000#64 = some ⟨a, false⟩ ∧ resolve s' 0x8000#64 = some ⟨a, false⟩ := by
  obtain ⟨rest, s, hinit, -, hfree⟩ := init_moreMemory
  have hload : (loadAfterInit linkedProgram).map (fun x => x.2.1) = some 0x40000000 := by
    decide +kernel
  rw [loadAfterInit_eq hinit, Option.map_map] at hload
  obtain ⟨⟨entry, supply', s'⟩, hrun, rfl⟩ := Option.map_eq_some_iff.mp hload
  have hfirst : ∀ ph ∈ loads linkedProgram, 24 * 4096 ≤ ph.first := by decide +kernel
  refine ⟨rest, s, supply', s', hinit, hrun, ?_⟩
  refine map_elf_image_keeps_kernel moreMemory_inv (by decide +kernel) framebufferOk_none
    onePageKernel_ok hinit ⟨rfl, fun _ _ _ _ => rfl⟩ hfree
    (fun ph hp => ⟨hfirst ph hp, fun v _ ⟨fb, h, _⟩ => absurd h (by simp)⟩) (by decide) hrun _ ?_
  exact .inl ⟨by decide, show (0x8000#64).toNat < 24 * 4096 by decide⟩

/-- A program linked into managed memory takes a page of the kernel. -/
theorem map_elf_image_opens_kernel : ∃ rest s supply' s',
    initVmm 24 none onePageKernel (supplyOf 20 moreMemory) emptyTables = some (true, rest, s) ∧
    mapElfImage ownTables lowProgram 0x1000 rest s = some (0x8000, supply', s') ∧
    inKernel 24 none onePageKernel 0x8000#64 ∧
    resolve s 0x8000#64 = some ⟨0x8000#64, false⟩ ∧ resolve s' 0x8000#64 = some ⟨0x9000#64, true⟩ := by
  obtain ⟨rest, s, hinit, hb, -⟩ := init_moreMemory
  have hload : (loadAfterInit lowProgram).map (fun x => (x.2.1, resolve x.2.2 0x8000#64)) =
      some (0x8000, some ⟨0x9000#64, true⟩) := by
    decide +kernel
  rw [loadAfterInit_eq hinit, Option.map_map] at hload
  obtain ⟨⟨entry, supply', s'⟩, hrun, he⟩ := Option.map_eq_some_iff.mp hload
  obtain ⟨rfl, hres⟩ := Prod.mk.inj he
  have hin : inManaged 24 0x8000#64 := show (0x8000#64).toNat < 24 * 4096 by decide
  exact ⟨rest, s, supply', s', hinit, hrun, .inl ⟨by decide, hin⟩,
    hb.resolve_managed onePageKernel_ok framebufferOk_none (by norm_num) hin, hres⟩

/-! ## The contents of the segments -/

/-- The byte that user mode reads at an address. -/
def userByte (s : State) (a : ℕ) : Option (BitVec 8) :=
  (resolve s (BitVec.ofNat 64 a)).bind fun x => if x.user then some (byteAt s x.addr) else none

/-- User mode reads the segment as the file describes it. -/
def Matches (img : Bytes) (s : State) (ph : Phdr) : Prop :=
  ∀ i < ph.memsz, userByte s (ph.vaddr + i) =
    some (if i < ph.filesz then (img (ph.offset + i)).toBitVec else 0)

/-- The segments occupy disjoint ranges of addresses. -/
def Disjoint (p p' : Phdr) : Prop :=
  p.vaddr + p.memsz ≤ p'.vaddr ∨ p'.vaddr + p'.memsz ≤ p.vaddr

/-- What the file gives to the first segment in pages of the second is zero. -/
def SharesOnlyZeros (img : Bytes) (p p' : Phdr) : Prop :=
  ∀ i < p.filesz, inPages p' ((p.vaddr + i) / 4096) → img (p.offset + i) = 0

theorem expected_eq {ph : Phdr} (hok : SegmentOk ph) (i : ℕ) : expected img ph (ph.vaddr + i) =
    if i < ph.filesz then (img (ph.offset + i)).toBitVec else 0 := by
  have h1 := hok.file
  rw [expected, Nat.add_sub_cancel_left]
  by_cases hi : i < ph.filesz
  · rw [if_pos (by omega), if_pos hi, Nat.mod_eq_of_lt (by omega)]
  · rw [if_neg (by omega), if_neg hi]

/-- A segment asks for nothing in the range of another. -/
theorem Disjoint.expected_eq_zero {p p' : Phdr} (h : Disjoint p p') (hok : SegmentOk p') {i : ℕ}
    (hi : i < p.memsz) : expected img p' (p.vaddr + i) = 0 := by
  have h1 := hok.filesz_le
  rw [Disjoint] at h
  rw [expected, if_neg (by omega)]

theorem inPages_self {ph : Phdr} {i : ℕ} (hi : i < ph.memsz) : inPages ph ((ph.vaddr + i) / 4096) :=
  ⟨Nat.div_le_div_right (by omega), by omega⟩

/-- The last segment that has a page. -/
theorem exists_last_inPages {l : List Phdr} {q : ℕ} (h : ∃ p ∈ l, inPages p q) :
    ∃ l₁ p l₂, l = l₁ ++ p :: l₂ ∧ inPages p q ∧ ∀ p' ∈ l₂, ¬ inPages p' q := by
  induction l with
  | nil => simp at h
  | cons p l ih =>
    by_cases hl : ∃ p ∈ l, inPages p q
    · obtain ⟨l₁, p', l₂, rfl, h1, h2⟩ := ih hl
      exact ⟨p :: l₁, p', l₂, rfl, h1, h2⟩
    · rw [not_exists] at hl
      obtain ⟨p', hp', hq⟩ := h
      rcases List.mem_cons.mp hp' with rfl | hp'
      · exact ⟨[], p', l, rfl, hq, fun x hx hq' => hl x ⟨hx, hq'⟩⟩
      · exact absurd ⟨hp', hq⟩ (hl p')

theorem aligned_of_pteAddr {x : Word} (hx : pteAddr x = x) : x.toNat % 4096 = 0 := by
  have hoff : x &&& pageOffMask = 0 := by
    rw [← hx, pteAddr, BitVec.and_assoc, show pteAddrMask &&& pageOffMask = 0#64 by decide]
    exact BitVec.and_zero
  have hnat := congrArg BitVec.toNat hoff
  rwa [BitVec.toNat_and, show (pageOffMask).toNat = 2 ^ 12 - 1 by decide,
    Nat.and_two_pow_sub_one_eq_mod] at hnat

/-- **A loaded page as user mode reads it.** -/
theorem Loaded.userByte {ph : Phdr} {a : ℕ} (h : Loaded s supply M₀ M C) (ha : a < 2 ^ 47)
    (hC : C (a / 4096) = some (content img ph (a / 4096))) :
    userByte s a = some (expected img ph a) := by
  obtain ⟨page, f, hM, hpage, hb, -, -⟩ := h.data _ _ hC
  have hnat : (BitVec.ofNat 64 a).toNat = a := by
    rw [BitVec.toNat_ofNat]
    omega
  have haligned := aligned_of_pteAddr hpage
  have hres := h.realizes.resolve (v := BitVec.ofNat 64 a) (.inl (by omega))
  rw [vpage_ofNat (by omega), hM, Option.map_some] at hres
  have hto := page_or_off (v := BitVec.ofNat 64 a) haligned
  rw [hnat] at hto
  have hframe : frame (page ||| (BitVec.ofNat 64 a &&& pageOffMask)) = page := by
    apply BitVec.eq_of_toNat_eq
    rw [frame_toNat, hto]
    omega
  rw [User.userByte, hres, Option.bind_some, if_pos rfl, byteAt_eq_pageByte, hframe, hto,
    show (page.toNat + a % 4096) % 4096 = a % 4096 by omega, hb _ (Nat.mod_lt _ (by norm_num)),
    content, show a / 4096 * 4096 + a % 4096 = a by omega]

/-- **The image in memory.** For an accepted image with disjoint segments above
managed memory, user mode reads every segment as the file describes it if and
only if no segment has a byte other than zero in a page of a later segment. -/
theorem map_elf_image_contents (hR : Realizes s M₀) (hr : Ready s supply limit)
    (habove : ∀ ph ∈ loads img, limit ≤ ph.first) (hdisj : (loads img).Pairwise Disjoint)
    (hentry : entry ≠ 0)
    (hrun : mapElfImage ownTables img fileSize supply s = some (entry, supply', s')) :
    (∀ ph ∈ loads img, Matches img s' ph) ↔ (loads img).Pairwise (SharesOnlyZeros img) := by
  obtain ⟨hok, M', hL⟩ := mapElfImage_loaded hR hr habove hentry hrun
  -- a byte of a segment, by the last segment that has its page
  have hlast : ∀ l₁ p l₂ i, loads img = l₁ ++ p :: l₂ → i < p.memsz →
      (∃ p' ∈ l₂, inPages p' ((p.vaddr + i) / 4096)) → userByte s' (p.vaddr + i) = some 0 := by
    intro l₁ p l₂ i hl hi hex
    obtain ⟨l₃, p', l₄, rfl, hq, hno⟩ := exists_last_inPages hex
    have hp' : p' ∈ loads img := by simp [hl]
    have hp : SegmentOk p := hok p (by simp [hl])
    have hd : Disjoint p p' := by
      rw [hl, List.pairwise_append, List.pairwise_cons] at hdisj
      exact hdisj.2.1.1 p' (by simp)
    have hC : (l₁ ++ p :: l₃ ++ p' :: l₄).foldl (withSegment img) (fun _ => none) _ = some _ :=
      foldl_withSegment_last hq hno
    rw [List.append_assoc, List.cons_append, ← hl] at hC
    have hle := hp.le
    rw [hL.userByte (by omega) hC, hd.expected_eq_zero (hok p' hp') hi]
  have hown : ∀ l₁ p l₂ i, loads img = l₁ ++ p :: l₂ → i < p.memsz →
      (¬ ∃ p' ∈ l₂, inPages p' ((p.vaddr + i) / 4096)) → userByte s' (p.vaddr + i) =
        some (if i < p.filesz then (img (p.offset + i)).toBitVec else 0) := by
    intro l₁ p l₂ i hl hi hno
    have hp : SegmentOk p := hok p (by simp [hl])
    have hC : (l₁ ++ p :: l₂).foldl (withSegment img) (fun _ => none) _ = some _ :=
      foldl_withSegment_last (inPages_self hi) fun p' hp' hq => hno ⟨p', hp', hq⟩
    rw [← hl] at hC
    have hle := hp.le
    rw [hL.userByte (by omega) hC, expected_eq hp]
  constructor
  · intro hmatch
    refine List.pairwise_iff_forall_sublist.mpr fun {p p'} hsub i hi hq => ?_
    obtain ⟨r₁, r₂, hl, hp, hp'⟩ := List.cons_sublist_iff.mp hsub
    obtain ⟨l₁, l₂, rfl⟩ := List.append_of_mem hp
    rw [List.append_assoc, List.cons_append] at hl
    have hmem : p' ∈ l₂ ++ r₂ := List.mem_append_right _ (List.singleton_sublist.mp hp')
    have hpm : p ∈ loads img := by simp [hl]
    have hi' : i < p.memsz := Nat.lt_of_lt_of_le hi (hok p hpm).filesz_le
    have hbyte := hmatch p hpm i hi'
    rw [hlast l₁ p (l₂ ++ r₂) i hl hi' ⟨p', hmem, hq⟩, if_pos hi] at hbyte
    exact UInt8.toBitVec_inj.mp (Option.some.inj hbyte).symm
  · intro hzero ph hph i hi
    obtain ⟨l₁, l₂, hl⟩ := List.append_of_mem hph
    by_cases hex : ∃ p' ∈ l₂, inPages p' ((ph.vaddr + i) / 4096)
    · rw [hlast l₁ ph l₂ i hl hi hex]
      by_cases hif : i < ph.filesz
      · obtain ⟨p', hp', hq⟩ := hex
        rw [hl, List.pairwise_append, List.pairwise_cons] at hzero
        rw [if_pos hif, hzero.2.1.1 p' hp' i hif hq]
        rfl
      · rw [if_neg hif]
    · exact hown l₁ ph l₂ i hl hi hex

/-- Two segments that share no page. -/
def apartProgram : Bytes :=
  fileOf 0x40000000 [⟨1, 2, 0, 0x40000000, 1, 2⟩, ⟨1, 2, 0, 0x40001000, 1, 1⟩]

/-- Two segments in one page. -/
def sharingProgram : Bytes :=
  fileOf 0x40000000 [⟨1, 2, 0, 0x40000000, 1, 1⟩, ⟨1, 2, 0, 0x40000010, 0, 1⟩]

instance (p p' : Phdr) : Decidable (Disjoint p p') := inferInstanceAs (Decidable (_ ∨ _))

instance (img : Bytes) (p p' : Phdr) : Decidable (SharesOnlyZeros img p p') :=
  inferInstanceAs (Decidable (∀ i < p.filesz, _ → _))

theorem map_elf_image_contents_apart : ∃ rest s supply' s',
    initVmm 24 none onePageKernel (supplyOf 20 moreMemory) emptyTables = some (true, rest, s) ∧
    mapElfImage ownTables apartProgram 0x1000 rest s = some (0x40000000, supply', s') ∧
    ∀ ph ∈ loads apartProgram, Matches apartProgram s' ph := by
  obtain ⟨rest, s, hinit, hb, hfree⟩ := init_moreMemory
  have hload : (loadAfterInit apartProgram).map (fun x => x.2.1) = some 0x40000000 := by
    decide +kernel
  rw [loadAfterInit_eq hinit, Option.map_map] at hload
  obtain ⟨⟨entry, supply', s'⟩, hrun, rfl⟩ := Option.map_eq_some_iff.mp hload
  have hm : Managed 24 (supplyOf 20 moreMemory) :=
    managed_supplyOf moreMemory_inv (by decide +kernel)
  refine ⟨rest, s, supply', s', hinit, hrun, ?_⟩
  exact (map_elf_image_contents hb.realizes
    (ready_of_built hb hm framebufferOk_none onePageKernel_ok hfree) (by decide +kernel)
    (by decide +kernel) (by decide) hrun).mpr (by decide +kernel)

/-- Two segments in one page: the second takes a new page, and what the first
had written is lost. -/
theorem map_elf_image_loses_contents : ∃ rest s supply' s',
    initVmm 24 none onePageKernel (supplyOf 20 moreMemory) emptyTables = some (true, rest, s) ∧
    mapElfImage ownTables sharingProgram 0x1000 rest s = some (0x40000000, supply', s') ∧
    (loads sharingProgram).Pairwise Disjoint ∧
    ¬ ∀ ph ∈ loads sharingProgram, Matches sharingProgram s' ph := by
  obtain ⟨rest, s, hinit, -, -⟩ := init_moreMemory
  have hload : (loadAfterInit sharingProgram).map (fun x => (x.2.1, userByte x.2.2 0x40000000)) =
      some (0x40000000, some 0) := by
    decide +kernel
  rw [loadAfterInit_eq hinit, Option.map_map] at hload
  obtain ⟨⟨entry, supply', s'⟩, hrun, he⟩ := Option.map_eq_some_iff.mp hload
  obtain ⟨rfl, hbyte⟩ := Prod.mk.inj he
  refine ⟨rest, s, supply', s', hinit, hrun, by decide +kernel, fun hmatch => ?_⟩
  have hfirst : (phdr sharingProgram 0) ∈ loads sharingProgram := by
    have hne : (phdr sharingProgram 0).type = ptLoad := by decide +kernel
    have hn : (ehdr sharingProgram).phnum = 1 + 1 := by decide +kernel
    rw [loads, hn, loadsFrom, if_pos hne]
    exact List.mem_cons_self
  have hread := hmatch _ hfirst 0 (by decide +kernel)
  rw [show (phdr sharingProgram 0).vaddr + 0 = 0x40000000 by decide +kernel] at hread
  change userByte s' 0x40000000 = some 0 at hbyte
  rw [hbyte] at hread
  exact absurd hread (by decide +kernel)

end User

end Csos

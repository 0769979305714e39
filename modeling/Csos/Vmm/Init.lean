import Csos.Vmm.Range
import Csos.Pmm.Allocator
/-!
# Virtual memory — `init_vmm`

The tables of the kernel are built by three loops over `map_page`: managed
memory to itself, the framebuffer to itself, the kernel image at its virtual
address. They are built through the tables in use at boot, which map the
memory they are built in to itself, so that pointers lead where they point.
The pages come from `alloc_page`, and so are managed memory that the first
loop maps.
-/

namespace Csos

namespace Vmm

/-- The fields of `boot_info_t` that describe the framebuffer. -/
structure Framebuffer where
  base : ℕ
  width : ℕ
  height : ℕ
  pixelsPerScanline : ℕ

/-- The linker symbols `__kernel_phys_start`, `__kernel_phys_end` and
`__kernel_virt_start`. -/
structure Layout where
  physStart : ℕ
  physEnd : ℕ
  virtStart : ℕ

/-- The number of turns of a loop from `start` to `stop` by pages. -/
def pageCount (start stop : ℕ) : ℕ := (stop - start + 4095) / 4096

namespace Framebuffer

variable (fb : Framebuffer)

/-- The first page of the framebuffer. -/
def first : ℕ := fb.base / 4096 * 4096

/-- `size` of `map_framebuffer`. -/
def size : ℕ := fb.pixelsPerScanline * fb.height * 4 % 2 ^ 64

/-- `end` of `map_framebuffer`. -/
def stop : ℕ := (fb.base + fb.size + 4095) % 2 ^ 64 / 4096 * 4096

/-- There is something to map. -/
def present : Prop := ¬ (fb.base = 0 ∨ fb.width = 0 ∨ fb.height = 0)

instance : Decidable fb.present := inferInstanceAs (Decidable (¬ _))

end Framebuffer

/-- `map_framebuffer`; `boot` may be NULL. -/
def mapFramebuffer (boot : Option Framebuffer) (supply : List Word) (s : State) :
    Option (ℤ × List Word × State) :=
  match boot with
  | none => some (0, supply, s)
  | some fb =>
    if ¬ fb.present then some (0, supply, s)
    else mapPages physical (ptePresent ||| pteWritable ||| pteWriteThrough)
      (pageCount fb.first fb.stop) (BitVec.ofNat 64 fb.first) (BitVec.ofNat 64 fb.first) supply s

/-- `map_kernel_image`. -/
def mapKernelImage (layout : Layout) (supply : List Word) (s : State) :
    Option (ℤ × List Word × State) :=
  mapPages physical (ptePresent ||| pteWritable) (pageCount layout.physStart layout.physEnd)
    (BitVec.ofNat 64 layout.virtStart) (BitVec.ofNat 64 layout.physStart) supply s

/-- `init_vmm`, with `pmm_total_pages`; the result is true if `load_cr3` is
reached. -/
def initVmm (totalPages : ℕ) (boot : Option Framebuffer) (layout : Layout) (supply : List Word)
    (s : State) : Option (Bool × List Word × State) :=
  if totalPages * 4096 % 2 ^ 64 = 0 then some (false, supply, s)
  else match supply with
    | [] => none
    | page :: supply =>
      if page = 0 then some (false, supply, s)
      else match mapPages physical (ptePresent ||| pteWritable)
          (pageCount 0 (totalPages * 4096 % 2 ^ 64)) 0 0 supply ⟨(s.clear page).mem, page⟩ with
        | none => none
        | some (r, supply, s) =>
          if r ≠ 0 then some (false, supply, s)
          else match mapFramebuffer boot supply s with
            | none => none
            | some (r, supply, s) =>
              if r ≠ 0 then some (false, supply, s)
              else match mapKernelImage layout supply s with
                | none => none
                | some (r, supply, s) =>
                  if r ≠ 0 then some (false, supply, s) else some (true, supply, s)

/-! ## The answers of `alloc_page` -/

/-- The results of `n` calls of `alloc_page`. -/
def allocs : ℕ → Pmm.State → List ℕ
  | 0, _ => []
  | n + 1, m => m.allocPage.1 :: allocs n m.allocPage.2

/-- They are managed pages, each once, unless memory runs out. -/
theorem allocs_spec : ∀ (n : ℕ) (m : Pmm.State), Pmm.Inv m →
    (∀ a ∈ allocs n m, a ≠ Pmm.invalidAddr) →
    (∀ a ∈ allocs n m, ∃ page ∈ m.freeSet, a = page * 4096) ∧ (allocs n m).Nodup := by
  intro n
  induction n with
  | zero =>
    intro m _ _
    exact ⟨by simp [allocs], List.nodup_nil⟩
  | succ n ih =>
    intro m h hv
    rcases h.allocPage with ⟨-, hr⟩ | ⟨page, m', hr, hmem, -, hl, -⟩
    · exact absurd rfl (hv _ (by simp [allocs, hr]))
    have hrest : allocs (n + 1) m = page * 4096 :: allocs n m' := by simp [allocs, hr]
    rw [hrest] at hv ⊢
    obtain ⟨h1, h2⟩ := ih m' hl.inv fun a ha => hv a (List.mem_cons_of_mem _ ha)
    refine ⟨fun a ha => ?_, List.nodup_cons.mpr ⟨fun hin => ?_, h2⟩⟩
    · rcases List.mem_cons.mp ha with rfl | ha
      · exact ⟨page, hmem, rfl⟩
      · obtain ⟨q, hq, rfl⟩ := h1 a ha
        rw [hl.freeSet] at hq
        exact ⟨q, Finset.mem_of_mem_erase hq, rfl⟩
    · obtain ⟨q, hq, he⟩ := h1 _ hin
      rw [hl.freeSet] at hq
      exact Finset.ne_of_mem_erase hq (by omega)

/-- The supply that `init_vmm` meets. -/
def supplyOf (n : ℕ) (m : Pmm.State) : List Word := (allocs n m).map (BitVec.ofNat 64)

/-- Pages of managed memory, each once. -/
structure Managed (total : ℕ) (supply : List Word) : Prop where
  total_le : total ≤ 131072
  page : ∀ x ∈ supply, x.toNat % 4096 = 0 ∧ x.toNat < total * 4096
  nodup : supply.Nodup

theorem managed_supplyOf {n : ℕ} {m : Pmm.State} (h : Pmm.Inv m)
    (hv : ∀ a ∈ allocs n m, a ≠ Pmm.invalidAddr) : Managed m.managedPages (supplyOf n m) := by
  obtain ⟨h1, h2⟩ := allocs_spec n m h hv
  have hmax : m.managedPages ≤ 131072 := h.managed
  have hpage : ∀ a ∈ allocs n m, a % 4096 = 0 ∧ a < m.managedPages * 4096 := by
    intro a ha
    obtain ⟨q, hq, rfl⟩ := h1 a ha
    have := (Pmm.mem_freeSet.mp hq).1
    omega
  refine ⟨hmax, fun x hx => ?_, ?_⟩
  · obtain ⟨a, ha, rfl⟩ := List.mem_map.mp hx
    obtain ⟨h3, h4⟩ := hpage a ha
    have hlt : a % 2 ^ 64 = a := Nat.mod_eq_of_lt (by omega)
    rw [BitVec.toNat_ofNat, hlt]
    exact ⟨h3, h4⟩
  · refine List.Nodup.map_on (fun a ha b hb he => ?_) h2
    obtain ⟨-, h3⟩ := hpage a ha
    obtain ⟨-, h4⟩ := hpage b hb
    have := congrArg BitVec.toNat he
    rw [BitVec.toNat_ofNat, BitVec.toNat_ofNat, Nat.mod_eq_of_lt (by omega),
      Nat.mod_eq_of_lt (by omega)] at this
    exact this

/-! ## The map that is built -/

/-- A framebuffer below `2 ^ 47`, if there is one. -/
def FramebufferOk (boot : Option Framebuffer) : Prop :=
  ∀ fb, boot = some fb → fb.present → fb.base + fb.pixelsPerScanline * fb.height * 4 ≤ 2 ^ 47

/-- An image of whole pages inside managed memory, linked into the higher
half. -/
structure Layout.Ok (layout : Layout) (total : ℕ) : Prop where
  phys : layout.physStart % 4096 = 0 ∧ layout.physEnd % 4096 = 0
  virt : layout.virtStart % 4096 = 0
  lt : layout.physStart < layout.physEnd
  managed : layout.physEnd ≤ total * 4096
  higher : 2 ^ 64 - 2 ^ 47 ≤ layout.virtStart
  fits : layout.virtStart + (layout.physEnd - layout.physStart) ≤ 2 ^ 64

/-- The flags of kernel pages. -/
abbrev kernelFlags : Word := ptePresent ||| pteWritable
/-- The flags of the framebuffer. -/
abbrev fbFlags : Word := ptePresent ||| pteWritable ||| pteWriteThrough

/-- The map with the framebuffer. -/
def framebufferMap (M : ℕ → Option Translation) (boot : Option Framebuffer) :
    ℕ → Option Translation :=
  match boot with
  | none => M
  | some fb => if ¬ fb.present then M
    else mapRange M (fb.first / 4096) (pageCount fb.first fb.stop) fb.first fbFlags

/-- **The map of the kernel.** -/
def kernelMap (total : ℕ) (boot : Option Framebuffer) (layout : Layout) : ℕ → Option Translation :=
  mapRange (framebufferMap (mapRange (fun _ => none) 0 total 0 kernelFlags) boot)
    (layout.virtStart % 2 ^ 48 / 4096) (pageCount layout.physStart layout.physEnd)
    layout.physStart kernelFlags

variable {s s' : State} {supply rest : List Word} {total : ℕ} {boot : Option Framebuffer}
  {layout : Layout}

/-- An empty `kernel_pml4` maps nothing. -/
theorem realizes_empty (h0 : s.pml4 ≠ 0) (he : ∀ i, s.mem s.pml4 i = 0) :
    Realizes s fun _ => none := by
  refine ⟨inv_of_empty h0 he, fun v => ?_⟩
  rw [translate, he, if_neg]
  rintro ⟨h4, -⟩
  exact absurd h4 (by decide)

theorem Framebuffer.stop_eq {fb : Framebuffer}
    (h : fb.base + fb.pixelsPerScanline * fb.height * 4 ≤ 2 ^ 47) :
    fb.stop = (fb.base + fb.pixelsPerScanline * fb.height * 4 + 4095) / 4096 * 4096 := by
  rw [Framebuffer.stop, Framebuffer.size]
  omega

theorem vpage_ofNat {a : ℕ} (h : a < 2 ^ 48) : vpage (BitVec.ofNat 64 a) = a / 4096 := by
  rw [vpage, BitVec.toNat_ofNat]
  omega

theorem fresh_of_managed (hm : Managed total supply) {pml4 : Word} (hpml4 : pml4 ∉ supply)
    (he : ∀ i, s.mem pml4 i = 0) : Fresh ⟨s.mem, pml4⟩ supply := by
  have htotal := hm.total_le
  refine ⟨fun x hx _ => ⟨?_, fun p _ ht => ?_⟩, ?_⟩
  · obtain ⟨h1, h2⟩ := hm.page x hx
    refine pteAddr_eq_self (by omega) ?_
    apply BitVec.eq_of_toNat_eq
    rw [BitVec.toNat_and, show (pageOffMask).toNat = 2 ^ 12 - 1 by decide,
      Nat.and_two_pow_sub_one_eq_mod]
    exact h1
  · obtain rfl := path_of_empty he ht
    obtain rfl : pml4 = x := Option.some.inj ht
    exact hpml4 hx
  · exact List.Pairwise.imp (fun {a b} (hne : a ≠ b) (_ : a ≠ 0) => hne) hm.nodup

/-- What the tables are: the map of the kernel, in pages of the supply. -/
structure Built (total : ℕ) (boot : Option Framebuffer) (layout : Layout) (supply rest : List Word)
    (s' : State) : Prop where
  realizes : Realizes s' (kernelMap total boot layout)
  fresh : Fresh s' rest
  suffix : rest <:+ supply
  tables : ∀ q t, q.length ≤ 3 → tableAt s' q = some t → t ∈ supply

theorem mapFramebuffer_spec {M : ℕ → Option Translation} (h : Realizes s M) (hs : Fresh s supply)
    (hfb : FramebufferOk boot) (hr : mapFramebuffer boot supply s = some (0, rest, s')) :
    Realizes s' (framebufferMap M boot) ∧ Uses s s' supply rest := by
  rcases boot with _ | fb
  · simp only [mapFramebuffer, Option.some.injEq, Prod.mk.injEq] at hr
    obtain ⟨-, rfl, rfl⟩ := hr
    exact ⟨h, .refl hs⟩
  simp only [mapFramebuffer, framebufferMap] at hr ⊢
  split at hr
  · rename_i hp
    simp only [Option.some.injEq, Prod.mk.injEq] at hr
    obtain ⟨-, rfl, rfl⟩ := hr
    rw [if_pos hp]
    exact ⟨h, .refl hs⟩
  · rename_i hp
    rw [if_neg hp]
    have hlt := hfb fb rfl (not_not.mp hp)
    have hstop := Framebuffer.stop_eq hlt
    have hfirst : fb.first = fb.base / 4096 * 4096 := rfl
    have hcount : pageCount fb.first fb.stop = (fb.stop - fb.first + 4095) / 4096 := rfl
    have hv : vpage (BitVec.ofNat 64 fb.first) = fb.first / 4096 := vpage_ofNat (by omega)
    have hp : (BitVec.ofNat 64 fb.first).toNat = fb.first := by
      rw [BitVec.toNat_ofNat]
      omega
    have := h.mapPages hs (by decide) (by rw [hv]; omega) (by rw [hp]; omega) hr
    rwa [hv, hp] at this

/-- **What `init_vmm` builds.** -/
theorem initVmm_built (hm : Managed total supply) (hfb : FramebufferOk boot) (hl : layout.Ok total)
    (hr : initVmm total boot layout supply s = some (true, rest, s')) :
    Built total boot layout supply rest s' := by
  have htotal := hm.total_le
  unfold initVmm at hr
  split at hr
  · exact absurd hr (by simp)
  rename_i hpos
  cases supply with
  | nil => exact absurd hr (by simp)
  | cons page sup =>
    dsimp only at hr
    split at hr
    · exact absurd hr (by simp)
    rename_i h0
    obtain ⟨hnot, hnodup⟩ := List.nodup_cons.mp hm.nodup
    have hempty : ∀ i, (s.clear page).mem page i = 0 := fun i => if_pos rfl
    have hR₀ : Realizes ⟨(s.clear page).mem, page⟩ fun _ => none := realizes_empty h0 hempty
    have hF₀ : Fresh ⟨(s.clear page).mem, page⟩ sup :=
      fresh_of_managed ⟨htotal, fun x hx => hm.page x (List.mem_cons_of_mem _ hx), hnodup⟩ hnot hempty
    split at hr
    · exact absurd hr (by simp)
    rename_i r sup₁ s₁ h₁
    split at hr
    · exact absurd hr (by simp)
    rename_i hr₁
    rw [not_not] at hr₁
    subst hr₁
    have hcount : pageCount 0 (total * 4096 % 2 ^ 64) = total := by
      rw [pageCount]
      omega
    rw [hcount] at h₁
    obtain ⟨hR₁, hu₁⟩ := hR₀.mapPages hF₀ (by decide)
      (by rw [show vpage 0 = 0 by decide]; omega) (by rw [show (0 : Word).toNat = 0 by decide]; omega) h₁
    split at hr
    · exact absurd hr (by simp)
    rename_i r sup₂ s₂ h₂
    split at hr
    · exact absurd hr (by simp)
    rename_i hr₂
    rw [not_not] at hr₂
    subst hr₂
    obtain ⟨hR₂, hu₂⟩ := mapFramebuffer_spec hR₁ hu₁.fresh hfb h₂
    split at hr
    · exact absurd hr (by simp)
    rename_i r sup₃ s₃ h₃
    split at hr
    · exact absurd hr (by simp)
    rename_i hr₃
    rw [not_not] at hr₃
    subst hr₃
    simp only [Option.some.injEq, Prod.mk.injEq, true_and] at hr
    obtain ⟨rfl, rfl⟩ := hr
    obtain ⟨hp1, hp2⟩ := hl.phys
    have hv := hl.virt
    have hlt := hl.lt
    have hman := hl.managed
    have hhigh := hl.higher
    have hfits := hl.fits
    have hpages : pageCount layout.physStart layout.physEnd =
        (layout.physEnd - layout.physStart) / 4096 := by
      rw [pageCount]
      omega
    have hvp : vpage (BitVec.ofNat 64 layout.virtStart) = layout.virtStart % 2 ^ 48 / 4096 := by
      rw [vpage, BitVec.toNat_ofNat]
      omega
    have hpp : (BitVec.ofNat 64 layout.physStart).toNat = layout.physStart := by
      rw [BitVec.toNat_ofNat]
      omega
    obtain ⟨hR₃, hu₃⟩ := hR₂.mapPages hu₂.fresh (by decide) (by rw [hvp]; omega)
      (by rw [hpp]; omega) h₃
    have hu := (hu₁.trans hu₂).trans hu₃
    refine ⟨?_, hu.fresh, hu.suffix.trans (List.suffix_cons _ _), fun q t hq ht => ?_⟩
    · rwa [hvp, hpp] at hR₃
    rcases hu.made q t hq ht with ht | ⟨ht, -⟩
    · obtain rfl := path_of_empty hempty ht
      rw [← Option.some.inj ht]
      exact List.mem_cons_self
    · exact List.mem_cons_of_mem _ ht

/-! ## Addresses -/

/-- The addresses of managed memory. -/
def inManaged (total : ℕ) (v : Word) : Prop := v.toNat < total * 4096

/-- The addresses of pages that the framebuffer overlaps. -/
def inFramebuffer (boot : Option Framebuffer) (v : Word) : Prop :=
  ∃ fb, boot = some fb ∧ fb.present ∧ fb.base / 4096 ≤ v.toNat / 4096 ∧
    v.toNat / 4096 * 4096 < fb.base + fb.pixelsPerScanline * fb.height * 4

/-- The addresses of the kernel image. -/
def inImage (layout : Layout) (v : Word) : Prop :=
  layout.virtStart ≤ v.toNat ∧ v.toNat < layout.virtStart + (layout.physEnd - layout.physStart)

theorem page_or_off {a v : Word} (ha : a.toNat % 4096 = 0) :
    (a ||| (v &&& pageOffMask)).toNat = a.toNat + v.toNat % 4096 := by
  have hlt : v.toNat % 4096 < 2 ^ 12 := Nat.mod_lt _ (by norm_num)
  have hsh : a.toNat = (a.toNat / 4096) <<< 12 := by
    rw [Nat.shiftLeft_eq]
    omega
  rw [BitVec.toNat_or, BitVec.toNat_and, show (pageOffMask).toNat = 2 ^ 12 - 1 by decide,
    Nat.and_two_pow_sub_one_eq_mod, hsh, Nat.shiftLeft_add_eq_or_of_lt hlt]

/-- The translation of a page, as an access. -/
theorem Realizes.resolve {M : ℕ → Option Translation} (h : Realizes s M) {v : Word}
    (hv : canonical v) :
    resolve s v = (M (vpage v)).map fun τ => ⟨τ.page ||| (v &&& pageOffMask), τ.user⟩ := by
  rw [h.inv.resolve_eq hv, h.translate]

theorem Realizes.resolve_eq {M : ℕ → Option Translation} (h : Realizes s M) {v : Word}
    (hv : canonical v) {a : ℕ} {f : Word} {u : Bool} (ha : a % 4096 = v.toNat % 4096) (hlt : a < 2 ^ 64)
    (hM : M (vpage v) = some ⟨BitVec.ofNat 64 (a / 4096 * 4096), f, u⟩) :
    Vmm.resolve s v = some ⟨BitVec.ofNat 64 a, u⟩ := by
  rw [h.resolve hv, hM, Option.map_some]
  congr 2
  apply BitVec.eq_of_toNat_eq
  have hb : (BitVec.ofNat 64 (a / 4096 * 4096)).toNat = a / 4096 * 4096 := by
    rw [BitVec.toNat_ofNat]
    omega
  rw [page_or_off (by rw [hb]; omega), hb, BitVec.toNat_ofNat]
  omega

section Read

variable (hl : layout.Ok total) (hfb : FramebufferOk boot) (htotal : total ≤ 131072) {v : Word}
include hl

theorem kernelMap_image (h : inImage layout v) : kernelMap total boot layout (vpage v) =
    some ⟨BitVec.ofNat 64 ((layout.physStart + (v.toNat - layout.virtStart)) / 4096 * 4096),
      leafFlags kernelFlags, false⟩ := by
  obtain ⟨h1, h2⟩ := h
  obtain ⟨hp1, hp2⟩ := hl.phys
  have hv := hl.virt
  have hlt := hl.lt
  have hhigh := hl.higher
  have hfits := hl.fits
  have hvlt := v.isLt
  have ha : layout.physStart + (vpage v - layout.virtStart % 2 ^ 48 / 4096) * 4096 =
      (layout.physStart + (v.toNat - layout.virtStart)) / 4096 * 4096 := by
    rw [vpage]
    omega
  rw [kernelMap, mapRange, if_pos (by rw [vpage, pageCount]; omega), ha,
    show kernelFlags.getLsbD 2 = false by decide]

theorem kernelMap_lower (h : v.toNat < 2 ^ 47) : kernelMap total boot layout (vpage v) =
    framebufferMap (mapRange (fun _ => none) 0 total 0 kernelFlags) boot (v.toNat / 4096) := by
  have hhigh := hl.higher
  have hfits := hl.fits
  have hv := hl.virt
  have hlt := hl.lt
  obtain ⟨hp1, hp2⟩ := hl.phys
  rw [kernelMap, mapRange, if_neg (by rw [vpage, pageCount]; omega), vpage]
  congr 1
  omega

omit hl in
include hfb in
theorem framebufferMap_eq (M : ℕ → Option Translation) :
    (inFramebuffer boot v → framebufferMap M boot (v.toNat / 4096) =
      some ⟨BitVec.ofNat 64 (v.toNat / 4096 * 4096), leafFlags fbFlags, false⟩) ∧
    (¬ inFramebuffer boot v → framebufferMap M boot (v.toNat / 4096) = M (v.toNat / 4096)) := by
  rcases boot with _ | fb
  · refine ⟨?_, fun _ => rfl⟩
    rintro ⟨fb, h, -⟩
    exact absurd h (by simp)
  by_cases hp : fb.present
  · have hlt := hfb fb rfl hp
    have hin : inFramebuffer (some fb) v ↔ fb.first / 4096 ≤ v.toNat / 4096 ∧
        v.toNat / 4096 < fb.first / 4096 + pageCount fb.first fb.stop := by
      rw [pageCount, Framebuffer.stop_eq hlt, Framebuffer.first]
      constructor
      · rintro ⟨_, he, -, h1, h2⟩
        obtain rfl := Option.some.inj he
        omega
      · intro h
        exact ⟨fb, rfl, hp, by omega, by omega⟩
    have hM : framebufferMap M (some fb) =
        mapRange M (fb.first / 4096) (pageCount fb.first fb.stop) fb.first fbFlags :=
      if_neg (not_not.mpr hp)
    rw [hM, mapRange, hin]
    refine ⟨fun h => ?_, fun h => if_neg h⟩
    have ha : fb.first + (v.toNat / 4096 - fb.first / 4096) * 4096 = v.toNat / 4096 * 4096 := by
      rw [Framebuffer.first] at h ⊢
      omega
    rw [if_pos h, ha, show fbFlags.getLsbD 2 = false by decide]
  · constructor
    · rintro ⟨_, he, hp', -⟩
      exact absurd (Option.some.inj he ▸ hp') hp
    · intro _
      have hM : framebufferMap M (some fb) = M := if_pos hp
      rw [hM]

end Read

section Resolve

variable (hb : Built total boot layout supply rest s') (hl : layout.Ok total)
  (hfb : FramebufferOk boot) (htotal : total ≤ 131072) {v : Word}
include hb hl

include htotal in
theorem Built.resolve_image (h : inImage layout v) : resolve s' v =
    some ⟨BitVec.ofNat 64 (layout.physStart + (v.toNat - layout.virtStart)), false⟩ := by
  have hv := hl.virt
  have hp := hl.phys
  have hhigh := hl.higher
  have hman := hl.managed
  have hfits := hl.fits
  obtain ⟨h1, h2⟩ := h
  exact hb.realizes.resolve_eq (.inr (by omega)) (by omega) (by omega) (kernelMap_image hl ⟨h1, h2⟩)

include hfb in
theorem Built.resolve_framebuffer (h : inFramebuffer boot v) : resolve s' v = some ⟨v, false⟩ := by
  have hlt : v.toNat < 2 ^ 47 := by
    obtain ⟨fb, hboot, hp, -, h2⟩ := h
    have := hfb fb hboot hp
    omega
  have hM := (kernelMap_lower hl hlt).trans ((framebufferMap_eq hfb _).1 h)
  have := hb.realizes.resolve_eq (.inl hlt) rfl v.isLt hM
  rwa [BitVec.ofNat_toNat, BitVec.setWidth_eq] at this

include hfb htotal in
theorem Built.resolve_managed (h : inManaged total v) : resolve s' v = some ⟨v, false⟩ := by
  by_cases hin : inFramebuffer boot v
  · exact hb.resolve_framebuffer hl hfb hin
  have hlt : v.toNat < total * 4096 := h
  have hM := (kernelMap_lower hl (by omega)).trans ((framebufferMap_eq hfb _).2 hin)
  rw [mapRange, if_pos (by omega), Nat.sub_zero, Nat.zero_add,
    show kernelFlags.getLsbD 2 = false by decide] at hM
  have := hb.realizes.resolve_eq (.inl (by omega)) rfl v.isLt hM
  rwa [BitVec.ofNat_toNat, BitVec.setWidth_eq] at this

include hfb htotal in
/-- Nothing else is mapped. -/
theorem Built.resolve_other (h1 : ¬ inManaged total v) (h2 : ¬ inFramebuffer boot v)
    (h3 : ¬ inImage layout v) : resolve s' v = none := by
  by_cases hv : canonical v
  · rw [hb.realizes.resolve hv]
    rw [inManaged] at h1
    have hnone : kernelMap total boot layout (vpage v) = none := by
      rcases hv with hv | hv
      · rw [kernelMap_lower hl hv, (framebufferMap_eq hfb _).2 h2, mapRange, if_neg (by omega)]
      · have hp := hl.phys
        have hvs := hl.virt
        have hlt := hl.lt
        have hhigh := hl.higher
        have hfits := hl.fits
        have hvlt := v.isLt
        rw [inImage] at h3
        rw [kernelMap, mapRange, if_neg (by rw [vpage, pageCount]; omega)]
        -- the same page of the lower half is above the framebuffer and managed memory
        have hlow : (BitVec.ofNat 64 (v.toNat % 2 ^ 48)).toNat = v.toNat % 2 ^ 48 := by
          rw [BitVec.toNat_ofNat]
          omega
        have hno : ¬ inFramebuffer boot (BitVec.ofNat 64 (v.toNat % 2 ^ 48)) := by
          rintro ⟨fb, hboot, hp, -, h2⟩
          have := hfb fb hboot hp
          rw [hlow] at h2
          omega
        have hM := (framebufferMap_eq hfb (mapRange (fun _ => none) 0 total 0 kernelFlags)).2 hno
        rw [hlow] at hM
        rw [vpage, hM, mapRange, if_neg (by omega)]
    rw [hnone]
    rfl
  · rw [Vmm.resolve, if_neg fun hc => hv hc.1]

end Resolve

end Vmm

end Csos

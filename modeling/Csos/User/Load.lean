import Csos.User.Model
import Csos.Vmm.Init
/-!
# User programs — what loading does

A page of a segment is taken from `alloc_page`, filled and mapped. Seen from
the map of the page tables, a segment replaces its pages by pages with the
contents its header asks for (`content`), and an image does so segment by
segment. This holds as long as the pointers the kernel writes through lead
where they point, that is as long as no segment is mapped over the memory
that the tables and the free pages are in (`Ready`).
-/

namespace Csos

namespace User

open Vmm

variable {img : Bytes} {ph : Phdr} {s s' : State} {supply supply' : List Word} {page : Word}
  {fileSize limit : ℕ} {M₀ M : ℕ → Option Translation} {C : ℕ → Option (ℕ → BitVec 8)}

/-! ## One page -/

/-- The byte that the segment asks for at an address. -/
def expected (img : Bytes) (ph : Phdr) (a : ℕ) : BitVec 8 :=
  if ph.vaddr ≤ a ∧ a < ph.vaddr + ph.filesz then
    (img ((ph.offset + (a - ph.vaddr)) % 2 ^ 64)).toBitVec
  else 0

/-- The contents that a segment gives to one of its pages. -/
def content (img : Bytes) (ph : Phdr) (q : ℕ) : ℕ → BitVec 8 := fun off =>
  expected img ph (q * 4096 + off)

/-- A write to one page: it is no table, and nothing else is written. -/
structure Writes (s s' : State) (page : Word) : Prop where
  pml4 : s'.pml4 = s.pml4
  mem : ∀ t, t ≠ page → s'.mem t = s.mem t

theorem Writes.trans {s'' : State} (h : Writes s s' page) (h' : Writes s' s'' page) :
    Writes s s'' page :=
  ⟨h'.pml4.trans h.pml4, fun t ht => (h'.mem t ht).trans (h.mem t ht)⟩

theorem writes_clear (s : State) (page : Word) : Writes s (s.clear page) page :=
  ⟨rfl, fun _ ht => funext fun _ => if_neg ht⟩

theorem Writes.agree (h : Writes s s' page) (hno : ∀ q, q.length ≤ 3 → tableAt s q ≠ some page) :
    TablesAgree s s' :=
  tablesAgree_of_page h.pml4 h.mem hno

/-- **`raw_copy`** to a page that a pointer leads to and that is not a table. -/
theorem rawCopy_spec : ∀ (n off src : ℕ) (s : State),
    (∀ q, q.length ≤ 3 → tableAt s q ≠ some page) → ownTables s page = some page → off + n ≤ 4096 →
    rawCopy ownTables img page n off src s = some s' →
    Writes s s' page ∧ ∀ o < 4096, pageByte s' page o =
      if off ≤ o ∧ o < off + n then (img ((src + (o - off)) % 2 ^ 64)).toBitVec
      else pageByte s page o := by
  intro n
  induction n with
  | zero =>
    intro off src s _ _ _ hr
    obtain rfl := Option.some.inj hr
    refine ⟨⟨rfl, fun _ _ => rfl⟩, fun o _ => ?_⟩
    rw [if_neg (by omega)]
  | succ n ih =>
    intro off src s hno hptr hoff hr
    rw [rawCopy, hptr] at hr
    dsimp only at hr
    have hw : Writes s (setPageByte s page off (img (src % 2 ^ 64)).toBitVec) page :=
      ⟨rfl, fun t ht => set_mem_of_table_ne ht⟩
    have hag := hw.agree hno
    obtain ⟨hw', hb⟩ := ih (off + 1) (src + 1) _
      (fun q hq => by rw [hag.tableAt (by omega)]; exact hno q hq)
      ((ownTables_congr (hag.resolve page)).trans hptr) (by omega) hr
    refine ⟨hw.trans hw', fun o ho => ?_⟩
    rw [hb o ho, pageByte_setPageByte (by omega) ho]
    by_cases ho1 : o = off
    · subst ho1
      rw [if_neg (by omega), if_pos rfl, if_pos (by omega), Nat.sub_self, Nat.add_zero]
    · rw [if_neg ho1]
      by_cases hin : off + 1 ≤ o ∧ o < off + 1 + n
      · rw [if_pos hin, if_pos (by omega), show src + 1 + (o - (off + 1)) = src + (o - off) by omega]
      · rw [if_neg hin, if_neg (by omega)]

/-- What the tests of a segment leave. -/
structure SegmentOk (ph : Phdr) : Prop where
  filesz_le : ph.filesz ≤ ph.memsz
  pos : 0 < ph.memsz
  ge : 4096 ≤ ph.vaddr
  le : ph.vaddr + ph.memsz ≤ 2 ^ 47
  file : ph.offset + ph.filesz < 2 ^ 64

theorem field_lt (n : ℕ) (img : Bytes) (off : ℕ) : field n img off < 256 ^ n := Bytes.load_lt _ _ _

theorem segmentOk_spec (hv : ph.vaddr < 2 ^ 64) (ho : ph.offset < 2 ^ 64)
    (h : segmentOk ph fileSize = true) : SegmentOk ph := by
  rw [segmentOk] at h
  split at h
  · exact absurd h (by simp)
  split at h
  · exact absurd h (by simp)
  split at h
  · exact absurd h (by simp)
  rw [userRangeOk] at h
  split at h
  · exact absurd h (by simp)
  split at h
  · exact absurd h (by simp)
  split at h
  · exact absurd h (by simp)
  split at h
  · exact absurd h (by simp)
  rename_i h1 h2 h3 h4 h5 h6 h7
  simp only [elfMaxSegMemsz, lowerEnd] at *
  exact ⟨by omega, by omega, by omega, by omega, by omega⟩

/-- The page that `copyPage` fills has the contents the segment asks for. -/
theorem copyPage_spec {va : ℕ} (hok : SegmentOk ph) (hva : va % 4096 = 0) (hlt : va < 2 ^ 47)
    (hno : ∀ q, q.length ≤ 3 → tableAt s q ≠ some page) (hptr : ownTables s page = some page)
    (hr : copyPage ownTables img ph va page (s.clear page) = some s') :
    Writes s s' page ∧ ∀ o < 4096, pageByte s' page o = content img ph (va / 4096) o := by
  have hw := writes_clear s page
  have hag := hw.agree hno
  have h1 := hok.filesz_le
  have h2 := hok.le
  rw [copyPage, Nat.mod_eq_of_lt (by omega : va + 4096 < 2 ^ 64),
    Nat.mod_eq_of_lt (by omega : ph.vaddr + ph.filesz < 2 ^ 64)] at hr
  have hbase : va / 4096 * 4096 = va := by omega
  split at hr
  · rename_i hcopy
    obtain ⟨hw', hb⟩ := rawCopy_spec _ _ _ _
      (fun q hq => by rw [hag.tableAt (by omega)]; exact hno q hq)
      ((ownTables_congr (hag.resolve page)).trans hptr) (by omega) hr
    refine ⟨hw.trans hw', fun o ho => ?_⟩
    rw [hb o ho, pageByte_clear, content, expected, hbase]
    by_cases hin : max va ph.vaddr - va ≤ o ∧
        o < max va ph.vaddr - va + (min (va + 4096) (ph.vaddr + ph.filesz) - max va ph.vaddr)
    · rw [if_pos hin, if_pos (by omega)]
      congr 3
      omega
    · rw [if_neg hin, if_neg (by omega)]
  · rename_i hcopy
    obtain rfl := Option.some.inj hr
    refine ⟨hw, fun o ho => ?_⟩
    rw [pageByte_clear, content, expected, hbase, if_neg (by omega)]

/-! ## The state between pages -/

/-- **The kernel can load a segment**: the tables and the free pages lie below
`limit` and map to themselves. -/
structure Ready (s : State) (supply : List Word) (limit : ℕ) : Prop where
  limit_le : limit ≤ 2 ^ 47
  fresh : Fresh s supply
  direct : Direct s supply
  table : ∀ q t, q.length ≤ 3 → tableAt s q = some t → t.toNat < limit
  page : ∀ x ∈ supply, x.toNat < limit

/-- **What has been loaded**: `C` gives the contents of the pages loaded so
far, and the other pages are mapped as in `M₀`. -/
structure Loaded (s : State) (supply : List Word) (M₀ M : ℕ → Option Translation)
    (C : ℕ → Option (ℕ → BitVec 8)) : Prop where
  realizes : Realizes s M
  kept : ∀ q, C q = none → M q = M₀ q
  data : ∀ q c, C q = some c → ∃ page f, M q = some ⟨page, f, true⟩ ∧ pteAddr page = page ∧
    (∀ off < 4096, pageByte s page off = c off) ∧
    (∀ p, p.length ≤ 3 → tableAt s p ≠ some page) ∧ page ∉ supply

theorem segFlags_spec (ph : Phdr) : segFlags ph &&& ~~~pteFlags = 0 ∧ (segFlags ph).getLsbD 2 = true := by
  rw [segFlags]
  split <;> decide

/-- **A page of a segment is loaded.** -/
theorem Loaded.step {va : ℕ} {s₂ : State} (h : Loaded s (page :: supply) M₀ M C)
    (hr : Ready s (page :: supply) limit) (h0 : page ≠ 0) (hva : va % 4096 = 0) (hlt : va < 2 ^ 47)
    (hlim : limit ≤ va) (hw : Writes s s₂ page)
    (hb : ∀ o < 4096, pageByte s₂ page o = content img ph (va / 4096) o)
    (hm : mapPageVia ownTables s₂ supply (BitVec.ofNat 64 va) page (segFlags ph) =
      some (0, supply', s')) :
    Loaded s' supply' M₀ (Function.update M (va / 4096) (some ⟨page, leafFlags (segFlags ph), true⟩))
        (Function.update C (va / 4096) (some (content img ph (va / 4096)))) ∧
      Ready s' supply' limit := by
  obtain ⟨hfl, hub⟩ := segFlags_spec ph
  have hf := hr.fresh.page page List.mem_cons_self h0
  have hag := hw.agree hf.notTable
  have hrest : Fresh s supply := ⟨fun x hx => hr.fresh.page x (List.mem_cons_of_mem _ hx),
    (List.pairwise_cons.mp hr.fresh.nodup).2⟩
  have hnotin : page ∉ supply := fun hin =>
    (List.pairwise_cons.mp hr.fresh.nodup).1 page hin h0 rfl
  have hd₂ : Direct s₂ supply := by
    have hown : ∀ x, ownTables s₂ x = ownTables s x := fun x => ownTables_congr (hag.resolve x)
    refine ⟨fun q t hq ht => ?_, fun x hx hx0 => ?_⟩
    · rw [hown]
      rw [hag.tableAt (by omega)] at ht
      exact hr.direct.table q t hq ht
    · rw [hown]
      exact hr.direct.page x (List.mem_cons_of_mem _ hx) hx0
  have hR₂ : Realizes s₂ M := hag.realizes h.realizes
  have hpage : page.toNat < limit := hr.page page List.mem_cons_self
  rw [mapPageVia_own hR₂.inv (hag.fresh hrest) hd₂] at hm
  have hlimit := hr.limit_le
  obtain ⟨hR', hu, -, -⟩ := hR₂.mapPage (hag.fresh hrest) (by omega) hfl hm
  rw [vpage_ofNat (by omega), hub] at hR'
  -- pages that are neither tables nor free are not written
  have hmem : ∀ x, (∀ q, q.length ≤ 3 → tableAt s q ≠ some x) → x ∉ supply →
      (∀ q, q.length ≤ 3 → tableAt s' q ≠ some x) ∧ s'.mem x = s₂.mem x := by
    intro x hx hxs
    have hno : ∀ q, q.length ≤ 3 → tableAt s' q ≠ some x := by
      intro q hq ht
      rcases hu.made q x hq ht with ht | ⟨ht, -⟩
      · rw [hag.tableAt (by omega)] at ht
        exact hx q hq ht
      · exact hxs ht
    exact ⟨hno, hu.mem x hno⟩
  have hsub : supply' ⊆ supply := hu.suffix.subset
  refine ⟨⟨hR', fun q hq => ?_, fun q c hq => ?_⟩, ?_⟩
  · by_cases hqv : q = va / 4096
    · subst hqv
      rw [Function.update_self] at hq
      exact absurd hq (by simp)
    · rw [Function.update_of_ne hqv] at hq ⊢
      exact h.kept q hq
  · by_cases hqv : q = va / 4096
    · subst hqv
      rw [Function.update_self] at hq ⊢
      obtain rfl := Option.some.inj hq
      obtain ⟨hno, hmp⟩ := hmem page hf.notTable hnotin
      refine ⟨page, _, rfl, hf.addr, fun off ho => ?_, hno, fun hin => hnotin (hsub hin)⟩
      rw [pageByte_congr hmp, hb off ho]
    · rw [Function.update_of_ne hqv] at hq ⊢
      obtain ⟨x, f, hM, hx, hbx, hnx, hxs⟩ := h.data q c hq
      rw [List.mem_cons, not_or] at hxs
      obtain ⟨hno, hmx⟩ := hmem x hnx hxs.2
      refine ⟨x, f, hM, hx, fun off ho => ?_, hno, fun hin => hxs.2 (hsub hin)⟩
      rw [pageByte_congr hmx, pageByte_congr (hw.mem x hxs.1), hbx off ho]
  · -- the page that is mapped is above the tables and the free pages
    have hsame : ∀ v : Word, v.toNat < limit → resolve s' v = resolve s v := by
      intro v hv
      have hc : canonical v := .inl (by omega)
      have hne : vpage v ≠ va / 4096 := by
        rw [vpage]
        omega
      rw [hR'.resolve hc, h.realizes.resolve hc, Function.update_of_ne hne]
    have htab : ∀ q t, q.length ≤ 3 → tableAt s' q = some t →
        t.toNat < limit ∧ ownTables s t = some t := by
      intro q t hq ht
      rcases hu.made q t hq ht with ht | ⟨ht, ht0⟩
      · rw [hag.tableAt (by omega)] at ht
        exact ⟨hr.table q t hq ht, hr.direct.table q t hq ht⟩
      · exact ⟨hr.page t (List.mem_cons_of_mem _ ht), hr.direct.page t (List.mem_cons_of_mem _ ht) ht0⟩
    refine ⟨hlimit, hu.fresh, ⟨fun q t hq ht => ?_, fun x hx hx0 => ?_⟩,
      fun q t hq ht => (htab q t hq ht).1, fun x hx => hr.page x (List.mem_cons_of_mem _ (hsub hx))⟩
    · obtain ⟨h1, h2⟩ := htab q t hq ht
      rw [ownTables_congr (hsame t h1), h2]
    · have hxm := List.mem_cons_of_mem page (hsub hx)
      rw [ownTables_congr (hsame x (hr.page x hxm))]
      exact hr.direct.page x hxm hx0

/-! ## A segment -/

/-- The contents after `n` pages from `q₀` on. -/
def overlay (img : Bytes) (ph : Phdr) (q₀ n : ℕ) (C : ℕ → Option (ℕ → BitVec 8)) :
    ℕ → Option (ℕ → BitVec 8) := fun q =>
  if q₀ ≤ q ∧ q < q₀ + n then some (content img ph q) else C q

theorem overlay_succ (q₀ n : ℕ) : overlay img ph (q₀ + 1) n
    (Function.update C q₀ (some (content img ph q₀))) = overlay img ph q₀ (n + 1) C := by
  funext q
  rw [overlay, overlay]
  by_cases hq : q = q₀
  · subst hq
    rw [if_neg (by omega), if_pos (by omega), Function.update_self]
  · rw [Function.update_of_ne hq]
    by_cases hin : q₀ + 1 ≤ q ∧ q < q₀ + 1 + n
    · rw [if_pos hin, if_pos (by omega)]
    · rw [if_neg hin, if_neg (by omega)]

/-- **A page of a segment is taken, filled and mapped.** -/
theorem Loaded.segmentPage {va : ℕ} (hok : SegmentOk ph) (h : Loaded s supply M₀ M C)
    (hr : Ready s supply limit) (hva : va % 4096 = 0) (hlt : va < 2 ^ 47) (hlim : limit ≤ va)
    (hrun : mapSegmentPage ownTables img ph va supply s = some (0, supply', s')) :
    ∃ M', Loaded s' supply' M₀ M'
        (Function.update C (va / 4096) (some (content img ph (va / 4096)))) ∧
      Ready s' supply' limit := by
  cases supply with
  | nil => exact absurd hrun (by simp [mapSegmentPage])
  | cons page rest =>
    unfold mapSegmentPage at hrun
    dsimp only at hrun
    split at hrun
    · simp only [Option.some.injEq, Prod.mk.injEq] at hrun
      exact absurd hrun.1 (by decide)
    rename_i h0
    have hptr := hr.direct.page page List.mem_cons_self h0
    rw [hptr] at hrun
    dsimp only at hrun
    split at hrun
    · exact absurd hrun (by simp)
    rename_i s₂ hcopy
    obtain ⟨hw, hb⟩ := copyPage_spec hok hva hlt
      (hr.fresh.page page List.mem_cons_self h0).notTable hptr hcopy
    exact ⟨_, h.step hr h0 hva hlt hlim hw hb hrun⟩

/-- **The pages of a segment are loaded in turn.** -/
theorem Loaded.segmentLoop {n va : ℕ} (hok : SegmentOk ph) (h : Loaded s supply M₀ M C)
    (hr : Ready s supply limit) (hva : va % 4096 = 0) (hlt : va + n * 4096 ≤ 2 ^ 47)
    (hlim : limit ≤ va)
    (hrun : mapSegmentLoop ownTables img ph n va supply s = some (0, supply', s')) :
    ∃ M', Loaded s' supply' M₀ M' (overlay img ph (va / 4096) n C) ∧ Ready s' supply' limit := by
  induction n generalizing va M C supply s with
  | zero =>
    simp only [mapSegmentLoop, Option.some.injEq, Prod.mk.injEq, true_and] at hrun
    obtain ⟨rfl, rfl⟩ := hrun
    have hC : overlay img ph (va / 4096) 0 C = C := by
      funext q
      rw [overlay, if_neg (by omega)]
    rw [hC]
    exact ⟨M, h, hr⟩
  | succ n ih =>
    rw [mapSegmentLoop] at hrun
    split at hrun
    · exact absurd hrun (by simp)
    rename_i r sup₁ s₁ hpage
    split at hrun
    · simp only [Option.some.injEq, Prod.mk.injEq] at hrun
      exact absurd hrun.1 (by decide)
    rename_i hr0
    rw [not_not] at hr0
    subst hr0
    obtain ⟨M₁, hL₁, hr₁⟩ := h.segmentPage hok hr hva (by omega) hlim hpage
    rw [Nat.mod_eq_of_lt (by omega : va + 4096 < 2 ^ 64)] at hrun
    obtain ⟨M', hL', hr'⟩ := ih hL₁ hr₁ (by omega) (by omega) (by omega) hrun
    rw [show (va + 4096) / 4096 = va / 4096 + 1 by omega, overlay_succ] at hL'
    exact ⟨M', hL', hr'⟩

/-- The page is one of the segment's. -/
def inPages (ph : Phdr) (q : ℕ) : Prop := ph.vaddr / 4096 ≤ q ∧ q * 4096 < ph.vaddr + ph.memsz

instance (ph : Phdr) (q : ℕ) : Decidable (inPages ph q) := inferInstanceAs (Decidable (_ ∧ _))

/-- The contents with a segment. -/
def withSegment (img : Bytes) (C : ℕ → Option (ℕ → BitVec 8)) (ph : Phdr) :
    ℕ → Option (ℕ → BitVec 8) := fun q =>
  if inPages ph q then some (content img ph q) else C q

/-- **A segment is loaded.** -/
theorem Loaded.segment (hok : SegmentOk ph) (h : Loaded s supply M₀ M C)
    (hr : Ready s supply limit) (hlim : limit ≤ ph.vaddr / 4096 * 4096)
    (hrun : mapOneSegment ownTables img ph supply s = some (0, supply', s')) :
    ∃ M', Loaded s' supply' M₀ M' (withSegment img C ph) ∧ Ready s' supply' limit := by
  have h1 := hok.le
  have h2 := hok.pos
  have hstop : ph.stop = (ph.vaddr + ph.memsz + 4095) / 4096 * 4096 := by
    rw [Phdr.stop]
    omega
  have hfirst : ph.first = ph.vaddr / 4096 * 4096 := rfl
  rw [mapOneSegment] at hrun
  obtain ⟨M', hL, hr'⟩ := h.segmentLoop hok hr (by omega) (by omega) (by omega) hrun
  refine ⟨M', ?_, hr'⟩
  have hC : overlay img ph (ph.first / 4096) ((ph.stop - ph.first) / 4096) C = withSegment img C ph := by
    funext q
    rw [overlay, withSegment, hstop, hfirst]
    by_cases hin : inPages ph q
    · obtain ⟨h3, h4⟩ := id hin
      rw [if_pos hin, if_pos (by omega)]
    · rw [if_neg hin, if_neg fun hc => hin ⟨by omega, by omega⟩]
  rw [hC] at hL
  exact hL

/-! ## The image -/

/-- The `PT_LOAD` headers among `n` headers from the `i`-th on. -/
def loadsFrom (img : Bytes) : ℕ → ℕ → List Phdr
  | 0, _ => []
  | n + 1, i =>
    if (phdr img i).type = ptLoad then phdr img i :: loadsFrom img n (i + 1)
    else loadsFrom img n (i + 1)

/-- The `PT_LOAD` segments of an image. -/
def loads (img : Bytes) : List Phdr := loadsFrom img (ehdr img).phnum 0

theorem Loaded.loop {n i nLoad nLoad' : ℕ} (h : Loaded s supply M₀ M C) (hr : Ready s supply limit)
    (hlim : ∀ ph ∈ loadsFrom img n i, limit ≤ ph.vaddr / 4096 * 4096)
    (hrun : loadLoop ownTables img fileSize n i nLoad supply s = some (some nLoad', supply', s')) :
    (∀ ph ∈ loadsFrom img n i, SegmentOk ph) ∧ ∃ M',
      Loaded s' supply' M₀ M' ((loadsFrom img n i).foldl (withSegment img) C) ∧
        Ready s' supply' limit := by
  induction n generalizing i nLoad M C supply s with
  | zero =>
    simp only [loadLoop, Option.some.injEq, Prod.mk.injEq] at hrun
    obtain ⟨-, rfl, rfl⟩ := hrun
    exact ⟨by simp [loadsFrom], M, h, hr⟩
  | succ n ih =>
    rw [loadLoop] at hrun
    by_cases ht : (phdr img i).type = ptLoad
    · rw [if_neg (not_not.mpr ht)] at hrun
      split at hrun
      · simp at hrun
      rename_i hseg
      rw [Bool.not_eq_false] at hseg
      have hok : SegmentOk (phdr img i) := segmentOk_spec (field_lt 8 img _) (field_lt 8 img _) hseg
      split at hrun
      · exact absurd hrun (by simp)
      rename_i r sup₁ s₁ hone
      split at hrun
      · simp at hrun
      rename_i hr0
      rw [not_not] at hr0
      subst hr0
      have hloads : loadsFrom img (n + 1) i = phdr img i :: loadsFrom img n (i + 1) := by
        rw [loadsFrom, if_pos ht]
      rw [hloads] at hlim ⊢
      obtain ⟨M₁, hL₁, hr₁⟩ := h.segment hok hr (hlim _ List.mem_cons_self) hone
      obtain ⟨hoks, M', hL', hr'⟩ := ih hL₁ hr₁ (fun ph hp => hlim ph (List.mem_cons_of_mem _ hp)) hrun
      refine ⟨fun ph hp => ?_, M', hL', hr'⟩
      rcases List.mem_cons.mp hp with rfl | hp
      · exact hok
      · exact hoks ph hp
    · rw [if_pos ht] at hrun
      have hloads : loadsFrom img (n + 1) i = loadsFrom img n (i + 1) := by
        rw [loadsFrom, if_neg ht]
      rw [hloads] at hlim ⊢
      exact ih h hr hlim hrun

/-- **An image is loaded.** -/
theorem mapElfImage_loaded {entry : ℕ} (hR : Realizes s M₀) (hr : Ready s supply limit)
    (hlim : ∀ ph ∈ loads img, limit ≤ ph.vaddr / 4096 * 4096) (hentry : entry ≠ 0)
    (hrun : mapElfImage ownTables img fileSize supply s = some (entry, supply', s')) :
    (∀ ph ∈ loads img, SegmentOk ph) ∧ ∃ M',
      Loaded s' supply' M₀ M' ((loads img).foldl (withSegment img) fun _ => none) := by
  unfold mapElfImage at hrun
  split at hrun
  · simp only [Option.some.injEq, Prod.mk.injEq] at hrun
    exact absurd hrun.1.symm hentry
  split at hrun
  · exact absurd hrun (by simp)
  · simp only [Option.some.injEq, Prod.mk.injEq] at hrun
    exact absurd hrun.1.symm hentry
  · rename_i nLoad sup₁ s₁ hloop
    split at hrun
    · simp only [Option.some.injEq, Prod.mk.injEq] at hrun
      exact absurd hrun.1.symm hentry
    split at hrun
    · simp only [Option.some.injEq, Prod.mk.injEq] at hrun
      exact absurd hrun.1.symm hentry
    simp only [Option.some.injEq, Prod.mk.injEq] at hrun
    obtain ⟨-, rfl, rfl⟩ := hrun
    have hL₀ : Loaded s supply M₀ M₀ fun _ => none :=
      ⟨hR, fun _ _ => rfl, fun _ _ hq => absurd hq (by simp)⟩
    obtain ⟨hoks, M', hL, -⟩ := hL₀.loop hr hlim hloop
    exact ⟨hoks, M', hL⟩

/-! ## Where the contents come from -/

/-- A page that no segment has is not loaded. -/
theorem foldl_withSegment_none {l : List Phdr} {q : ℕ} (h : ∀ ph ∈ l, ¬ inPages ph q) :
    l.foldl (withSegment img) C q = C q := by
  induction l generalizing C with
  | nil => rfl
  | cons ph l ih =>
    rw [List.foldl_cons, ih fun ph' hp => h ph' (List.mem_cons_of_mem _ hp), withSegment,
      if_neg (h ph List.mem_cons_self)]

/-- The last segment of a page gives its contents. -/
theorem foldl_withSegment_last {l₁ l₂ : List Phdr} {q : ℕ} (hq : inPages ph q)
    (h : ∀ ph' ∈ l₂, ¬ inPages ph' q) :
    (l₁ ++ ph :: l₂).foldl (withSegment img) C q = some (content img ph q) := by
  rw [List.foldl_append, List.foldl_cons, foldl_withSegment_none h, withSegment, if_pos hq]

end User

end Csos

import Csos.Vfs.Stack
/-!
# The VFS — the mountpoint that `vfs_resolve` chooses

The loop compares bytes, takes the root where nothing has been seen and a
longer mountpoint where one matches. Over canonical paths this is the
mountpoint with the most components among those whose components begin the
path's (`vfs_resolve_longest`), whatever the order of the slots.
-/

namespace Csos

namespace Vfs

open Components

variable {s : State} {path mp rel : Str} {st pc a r : List Str} {best : Option (Slot × ℕ)} {i j : Slot}

/-! ## Canonical paths -/

/-- The components of a path. -/
def components (p : Str) : List Str := (p.splitOn slash).filter (· ≠ [])

/-- **A canonical path**: the rendering of clean components. -/
def Canonical (p : Str) : Prop := ∃ st, (∀ c ∈ st, Clean c) ∧ p = render slash st

theorem components_render (hst : ∀ c ∈ st, Clean c) : components (render slash st) = st := by
  by_cases hnil : st = []
  · rw [hnil]
    rfl
  · rw [components, render_of_ne_nil hnil, splitOn_body fun c hc => (hst c hc).noSlash,
      List.filter_cons_of_neg (by simp), List.filter_eq_self]
    intro c hc
    simpa using (hst c hc).ne_nil

theorem Canonical.render (h : Canonical path) : path = render slash (components path) := by
  obtain ⟨st, hst, rfl⟩ := h
  rw [components_render hst]

theorem Canonical.clean (h : Canonical path) : ∀ c ∈ components path, Clean c := by
  obtain ⟨st, hst, rfl⟩ := h
  rwa [components_render hst]

/-- A path below a mountpoint. -/
def join (mp rel : Str) : Str :=
  if rel = [] then mp else if mp = [slash] then slash :: rel else mp ++ slash :: rel

/-! ## The comparison -/

/-- `kernel_strncmp`. -/
def strncmp : ℕ → Str → Str → ℤ
  | 0, _, _ => 0
  | n + 1, str1, str2 =>
    if str1.head?.getD 0 ≠ str2.head?.getD 0 then
      (str1.head?.getD 0).toNat - (str2.head?.getD 0).toNat
    else if str1.head?.getD 0 = 0 then 0
    else strncmp n str1.tail str2.tail

/-- Of a string's own length the comparison is that of a prefix. -/
theorem strncmp_eq_zero_iff (h : 0 ∉ mp) : strncmp mp.length mp path = 0 ↔ mp <+: path := by
  induction mp generalizing path with
  | nil => simp [strncmp]
  | cons x mp ih =>
    have hx : x ≠ 0 := fun hx => h (by simp [hx])
    rw [List.length_cons, strncmp, List.head?_cons, Option.getD_some]
    cases path with
    | nil =>
      rw [List.head?_nil, Option.getD_none, if_pos hx]
      have hnat : x.toNat ≠ 0 := fun hn => hx (UInt8.toNat_inj.mp hn)
      simpa using hnat
    | cons y path =>
      rw [List.head?_cons, Option.getD_some, List.cons_prefix_cons]
      by_cases hxy : x = y
      · rw [if_neg (not_not.mpr hxy), if_neg hx, List.tail_cons, List.tail_cons,
          ih (fun hm => h (by simp [hm]))]
        simp [hxy]
      · rw [if_pos hxy]
        refine iff_of_false (fun hsub => hxy ?_) (fun hand => hxy hand.1)
        exact UInt8.toNat_inj.mp (by omega)

/-- The test of the loop, as the code makes it. -/
theorem matches_iff (h : 0 ∉ mp) : State.matches_ mp path = true ↔ path.head? = mp.head? ∧
    strncmp mp.length mp path = 0 ∧
    ((path.drop mp.length).head? = none ∨ (path.drop mp.length).head? = some slash) := by
  rw [State.matches_, decide_eq_true_eq, strncmp_eq_zero_iff h]

/-- **The test is that the components of the mountpoint begin the path's.** -/
theorem matches_render (hst : ∀ c ∈ st, Clean c) (hpc : ∀ c ∈ pc, Clean c) (hne : st ≠ []) :
    State.matches_ (render slash st) (render slash pc) = true ↔ st <+: pc := by
  rw [State.matches_, decide_eq_true_eq, head?_render, head?_render, render_of_ne_nil hne]
  by_cases hnil : pc = []
  · subst hnil
    have hlen : 1 < (body slash st).length := one_lt_length_body hne fun c hc => (hst c hc).ne_nil
    refine iff_of_false (fun h => ?_) fun h => hne (List.prefix_nil.mp h)
    have := h.2.1.length_le
    rw [render_nil, List.length_singleton] at this
    omega
  rw [render_of_ne_nil hnil, ← prefix_iff (fun c hc => (hst c hc).noSlash) fun c hc => (hpc c hc).noSlash]
  constructor
  · rintro ⟨-, ⟨r, hr⟩, hend⟩
    rw [← hr, List.drop_left', List.head?_eq_none_iff] at hend
    · exact ⟨r, hr.symm, hend⟩
    · rfl
  · rintro ⟨r, hr, hend⟩
    refine ⟨rfl, ⟨r, hr.symm⟩, ?_⟩
    rwa [hr, List.drop_left', List.head?_eq_none_iff]
    rfl

/-! ## The loop -/

/-- The mountpoint of the slot begins the path. -/
def Covers (s : State) (path : Str) (i : Slot) : Prop :=
  (s.mounts i).used ∧ components (s.mounts i).mountpoint <+: components path

/-- What the loop has found among the slots it has seen. -/
def Found (s : State) (path : Str) (seen : List Slot) : Option (Slot × ℕ) → Prop
  | none => ∀ j ∈ seen, ¬ Covers s path j
  | some (i, n) => Covers s path i ∧ n = (s.mounts i).mountpoint.length ∧
      ∀ j ∈ seen, Covers s path j → (s.mounts j).mountpoint.length ≤ n

theorem Found.skip {seen : List Slot} (h : Found s path seen best) (hi : ¬ Covers s path i) :
    Found s path (seen ++ [i]) best := by
  have hseen : ∀ j ∈ seen ++ [i], Covers s path j → j ∈ seen := by
    intro j hj hc
    rcases List.mem_append.mp hj with hj | hj
    · exact hj
    · exact absurd (List.mem_singleton.mp hj ▸ hc) hi
  cases best with
  | none => exact fun j hj hc => h j (hseen j hj hc) hc
  | some b => exact ⟨h.1, h.2.1, fun j hj hc => h.2.2 j (hseen j hj hc) hc⟩

/-- A slot that is not longer than the one found. -/
theorem Found.keep {seen : List Slot} {b : Slot × ℕ} (h : Found s path seen (some b))
    (hle : (s.mounts i).mountpoint.length ≤ b.2) : Found s path (seen ++ [i]) (some b) := by
  refine ⟨h.1, h.2.1, fun j hj hc => ?_⟩
  rcases List.mem_append.mp hj with hj | hj
  · exact h.2.2 j hj hc
  · rwa [List.mem_singleton.mp hj]

/-- A slot that is longer than all before it. -/
theorem Found.take {seen : List Slot} (h : Found s path seen best) (hi : Covers s path i)
    (hlt : ∀ b, best = some b → b.2 < (s.mounts i).mountpoint.length) :
    Found s path (seen ++ [i]) (some (i, (s.mounts i).mountpoint.length)) := by
  refine ⟨hi, rfl, fun j hj hc => ?_⟩
  rcases List.mem_append.mp hj with hj | hj
  · cases best with
    | none => exact absurd hc (h j hj)
    | some b => exact (h.2.2 j hj hc).trans (hlt b rfl).le
  · rw [List.mem_singleton.mp hj]

/-- **One slot of the loop.** The root is taken when nothing has been found:
then it is also the longest. -/
theorem resolveStep_found {seen : List Slot} (hmp : ∀ i, (s.mounts i).used → Canonical (s.mounts i).mountpoint)
    (hpath : Canonical path) (h : Found s path seen best) :
    Found s path (seen ++ [i]) (s.resolveStep path best i) := by
  unfold State.resolveStep
  simp only
  by_cases hu : (s.mounts i).used = true
  swap
  · rw [if_pos hu]
    exact h.skip fun hc => hu hc.1
  have hcan := hmp i hu
  have hlen : 1 < (s.mounts i).mountpoint.length ↔ components (s.mounts i).mountpoint ≠ [] := by
    conv_lhs => rw [hcan.render]
    exact one_lt_length_render fun c hc => (hcan.clean c hc).ne_nil
  have hpos : 0 < (s.mounts i).mountpoint.length := by
    rw [hcan.render]
    exact length_render_pos
  rw [if_neg (not_not.mpr hu)]
  by_cases hone : (s.mounts i).mountpoint.length = 1
  · have hroot : components (s.mounts i).mountpoint = [] := by
      by_contra hne
      have := hlen.mpr hne
      omega
    have hc : Covers s path i := ⟨hu, by rw [hroot]; exact List.nil_prefix⟩
    rw [if_pos hone]
    cases best with
    | none =>
      rw [if_pos rfl, ← hone]
      exact h.take hc fun b hb => by cases hb
    | some b =>
      have hb : 0 < b.2 := by
        rw [h.2.1, (hmp b.1 h.1.1).render]
        exact length_render_pos
      rw [if_neg (by simp)]
      exact h.keep (by omega)
  rw [if_neg hone]
  have hiff : State.matches_ (s.mounts i).mountpoint path = true ↔ Covers s path i := by
    rw [Covers, and_iff_right hu]
    conv_lhs => rw [hcan.render, hpath.render]
    exact matches_render hcan.clean hpath.clean (hlen.mp (by omega))
  by_cases hm : State.matches_ (s.mounts i).mountpoint path = true
  swap
  · rw [if_pos hm]
    exact h.skip fun hc => hm (hiff.mpr hc)
  rw [if_neg (not_not.mpr hm)]
  cases best with
  | none =>
    rw [if_pos (by simpa using hpos)]
    exact h.take (hiff.mp hm) fun b hb => by cases hb
  | some b =>
    by_cases hlt : b.2 < (s.mounts i).mountpoint.length
    · rw [if_pos (by simpa using hlt)]
      refine h.take (hiff.mp hm) fun c hc => ?_
      rwa [← Option.some.inj hc]
    · rw [if_neg (by simpa using hlt)]
      exact h.keep (by omega)

theorem foldl_resolveStep_found (hmp : ∀ i, (s.mounts i).used → Canonical (s.mounts i).mountpoint)
    (hpath : Canonical path) (is : List Slot) : ∀ (seen : List Slot) (best : Option (Slot × ℕ)),
    Found s path seen best → Found s path (seen ++ is) (is.foldl (s.resolveStep path) best) := by
  induction is with
  | nil =>
    intro seen best h
    rwa [List.append_nil]
  | cons i is ih =>
    intro seen best h
    have := ih (seen ++ [i]) _ (resolveStep_found hmp hpath h)
    rwa [List.append_assoc, List.singleton_append] at this

/-! ## The path below the mountpoint -/

/-- The components below a mountpoint, without the first separator. -/
def below (r : List Str) : Str := (body slash r).drop 1

theorem below_eq_nil (hr : ∀ c ∈ r, Clean c) : below r = [] ↔ r = [] := by
  cases r with
  | nil => exact iff_of_true rfl rfl
  | cons c r =>
    refine iff_of_false (fun h => ?_) (by simp)
    exact (hr c (by simp)).ne_nil (List.append_eq_nil_iff.mp h).1

theorem slash_cons_below (hr : r ≠ []) : slash :: below r = body slash r := by
  cases r with
  | nil => exact absurd rfl hr
  | cons c r => rfl

/-- **The mountpoint and the path below it are the path.** -/
theorem join_below (ha : ∀ c ∈ a, Clean c) (hr : ∀ c ∈ r, Clean c) :
    join (render slash a) (below r) = render slash (a ++ r) := by
  unfold join
  by_cases hnil : r = []
  · rw [if_pos ((below_eq_nil hr).mpr hnil), hnil, List.append_nil]
  rw [if_neg (fun h => hnil ((below_eq_nil hr).mp h)), slash_cons_below hnil]
  by_cases hroot : a = []
  · rw [hroot, render_nil, if_pos rfl, List.nil_append, render_of_ne_nil hnil]
  · have hlen : 1 < (render slash a).length := (one_lt_length_render fun c hc => (ha c hc).ne_nil).mpr hroot
    rw [if_neg, render_of_ne_nil hroot, render_of_ne_nil (by simp [hroot]), body_append]
    intro h
    rw [h] at hlen
    exact absurd hlen (by decide)

/-- More components make a longer path. -/
theorem length_render_append_lt (hr : ∀ c ∈ r, Clean c) (hne : r ≠ []) :
    (render slash a).length < (render slash (a ++ r)).length := by
  have hlen : 1 < (body slash r).length := one_lt_length_body hne fun c hc => (hr c hc).ne_nil
  have happ : (render slash (a ++ r)).length = (body slash a).length + (body slash r).length := by
    rw [render_of_ne_nil (List.append_ne_nil_of_right_ne_nil a hne), body_append, List.length_append]
  rw [happ]
  by_cases hroot : a = []
  · rw [hroot, render_nil, List.length_singleton]
    omega
  · rw [render_of_ne_nil hroot]
    omega

/-- The mountpoints that begin a path are told apart by their length. -/
theorem eq_of_prefix_of_length (hpc : ∀ c ∈ pc, Clean c) {b : List Str} (ha : a <+: pc) (hb : b <+: pc)
    (hlen : (render slash a).length = (render slash b).length) : a = b := by
  have hcase : ∀ {x y : List Str}, y <+: pc → x <+: y →
      (render slash x).length = (render slash y).length → x = y := by
    rintro x y hy ⟨r, rfl⟩ hl
    by_contra hne
    have hr : r ≠ [] := fun h => hne (by rw [h, List.append_nil])
    have := length_render_append_lt (a := x) (fun c hc => hpc c (hy.subset (by simp [hc]))) hr
    omega
  rcases List.prefix_or_prefix_of_prefix ha hb with h | h
  · exact hcase hb h hlen
  · exact (hcase ha h hlen.symm).symm

/-- The pointer that the code returns beside a mountpoint of `n` bytes. -/
theorem rel_eq (ha : ∀ c ∈ a, Clean c) :
    (if (render slash a).length = 1 then (render slash (a ++ r)).drop 1
      else if ((render slash (a ++ r)).drop (render slash a).length).head? = some slash then
        (render slash (a ++ r)).drop ((render slash a).length + 1)
      else (render slash (a ++ r)).drop (render slash a).length) = below r := by
  have hiff : 1 < (render slash a).length ↔ a ≠ [] := one_lt_length_render fun c hc => (ha c hc).ne_nil
  by_cases hroot : a = []
  · subst hroot
    rw [render_nil, List.length_singleton, if_pos rfl, List.nil_append]
    by_cases hnil : r = []
    · rw [hnil]
      rfl
    · rw [render_of_ne_nil hnil, below]
  · have := hiff.mpr hroot
    rw [if_neg (by omega), render_of_ne_nil hroot, render_of_ne_nil (by simp [hroot]), body_append,
      List.drop_left' rfl, ← List.drop_drop, List.drop_left' rfl]
    by_cases hnil : r = []
    · rw [hnil]
      rfl
    · rw [if_pos (head?_body hnil), below]

/-! ## The mountpoint chosen -/

/-- **What `vfs_resolve` answers**: the longest mountpoint that begins the
path, and the path below it. -/
structure Chosen (s : State) (path : Str) (i : Slot) (rel : Str) : Prop where
  covers : Covers s path i
  longest : ∀ j, Covers s path j → (s.mounts j).mountpoint.length ≤ (s.mounts i).mountpoint.length
  rel : ∃ r, components path = components (s.mounts i).mountpoint ++ r ∧ rel = below r

theorem resolve_spec (hmp : ∀ i, (s.mounts i).used → Canonical (s.mounts i).mountpoint)
    (hpath : Canonical path) :
    match s.resolve path with
    | none => ∀ j, ¬ Covers s path j
    | some x => Chosen s path x.1 x.2 := by
  have h := foldl_resolveStep_found hmp hpath (List.finRange maxMounts) [] none (by simp [Found])
  rw [List.nil_append] at h
  unfold State.resolve
  cases hfold : (List.finRange maxMounts).foldl (s.resolveStep path) none with
  | none =>
    rw [hfold] at h
    exact fun j => h j (List.mem_finRange j)
  | some b =>
    obtain ⟨i, n⟩ := b
    rw [hfold] at h
    obtain ⟨hc, rfl, hmax⟩ := h
    have hcan := hmp i hc.1
    obtain ⟨r, hr⟩ := hc.2
    have hrel := rel_eq hcan.clean (r := r)
    rw [← hcan.render, hr, ← hpath.render] at hrel
    have hchosen : Chosen s path i (below r) :=
      ⟨hc, fun j hj => hmax j (List.mem_finRange j) hj, r, hr.symm, rfl⟩
    rw [← hrel] at hchosen
    simp only
    split_ifs at hchosen ⊢ <;> exact hchosen

/-- Two tables with the same mountpoints choose the same one. -/
theorem Chosen.unique {s' : State} (hmp : ∀ i, (s.mounts i).used → Canonical (s.mounts i).mountpoint)
    (hpath : Canonical path) (σ : Equiv.Perm Slot) (hs : ∀ i, s'.mounts i = s.mounts (σ i))
    (h : Chosen s path i rel) {rel' : Str} (h' : Chosen s' path j rel') :
    (s.mounts (σ j)).mountpoint = (s.mounts i).mountpoint ∧ rel' = rel := by
  have hcovers : ∀ k, Covers s' path k ↔ Covers s path (σ k) := fun k => by rw [Covers, hs, Covers]
  have hj := (hcovers j).mp h'.covers
  have hle := h.longest _ hj
  have hge := h'.longest (σ.symm i) ((hcovers _).mpr (by rw [Equiv.apply_symm_apply]; exact h.covers))
  rw [hs, hs, Equiv.apply_symm_apply] at hge
  have hlen := le_antisymm hle hge
  rw [(hmp _ hj.1).render, (hmp i h.covers.1).render] at hlen
  have hcomp := eq_of_prefix_of_length hpath.clean hj.2 h.covers.2 hlen
  refine ⟨by rw [(hmp _ hj.1).render, (hmp i h.covers.1).render, hcomp], ?_⟩
  obtain ⟨r, hr, rfl⟩ := h.rel
  obtain ⟨r', hr', rfl⟩ := h'.rel
  rw [hs, hr, hcomp] at hr'
  rw [List.append_cancel_left hr']

/-- The table with its slots in another order. -/
def State.permute (s : State) (σ : Equiv.Perm Slot) : State := { s with mounts := fun i => s.mounts (σ i) }

/-- **Mount resolution is by the longest prefix**, and no order of the slots
changes the mountpoint or the path below it. -/
theorem vfs_resolve_longest (hmp : ∀ i, (s.mounts i).used → Canonical (s.mounts i).mountpoint)
    (hdiff : ∀ i j, (s.mounts i).used → (s.mounts j).used →
      (s.mounts i).mountpoint = (s.mounts j).mountpoint → i = j) (hpath : Canonical path) :
    (s.resolve path = none ↔
      ∀ i, (s.mounts i).used → ¬ components (s.mounts i).mountpoint <+: components path) ∧
    (∀ i rel, s.resolve path = some (i, rel) →
      (s.mounts i).used ∧ components (s.mounts i).mountpoint <+: components path ∧
      (∀ j, (s.mounts j).used → components (s.mounts j).mountpoint <+: components path → j ≠ i →
        (s.mounts j).mountpoint.length < (s.mounts i).mountpoint.length) ∧
      join (s.mounts i).mountpoint rel = path ∧ (rel = [] ↔ path = (s.mounts i).mountpoint)) ∧
    ∀ σ : Equiv.Perm Slot,
      ((s.permute σ).resolve path).map (fun x => ((s.mounts (σ x.1)).mountpoint, x.2)) =
        (s.resolve path).map fun x => ((s.mounts x.1).mountpoint, x.2) := by
  have hspec := resolve_spec hmp hpath
  refine ⟨?_, ?_, ?_⟩
  · cases hres : s.resolve path with
    | none =>
      rw [hres] at hspec
      exact iff_of_true rfl fun i hu hp => hspec i ⟨hu, hp⟩
    | some x =>
      rw [hres] at hspec
      exact iff_of_false (by simp) fun h => h x.1 hspec.covers.1 hspec.covers.2
  · intro i rel hres
    rw [hres] at hspec
    obtain ⟨r, hr, rfl⟩ := hspec.rel
    have hcan := hmp i hspec.covers.1
    have hrc : ∀ c ∈ r, Clean c := fun c hm => hpath.clean c (by rw [hr]; simp [hm])
    refine ⟨hspec.covers.1, hspec.covers.2, fun j hu hp hne => ?_, ?_, ?_⟩
    · refine lt_of_le_of_ne (hspec.longest j ⟨hu, hp⟩) fun hlen => hne ?_
      have hj := hmp j hu
      rw [hj.render, hcan.render] at hlen
      refine hdiff j i hu hspec.covers.1 ?_
      rw [hj.render, hcan.render, eq_of_prefix_of_length hpath.clean hp hspec.covers.2 hlen]
    · have hjoin := join_below hcan.clean hrc
      rwa [← hr, ← hcan.render, ← hpath.render] at hjoin
    · rw [below_eq_nil hrc]
      constructor
      · rintro rfl
        rw [List.append_nil] at hr
        rw [hpath.render, hr, ← hcan.render]
      · intro heq
        rw [← heq] at hr
        exact List.self_eq_append_right.mp hr
  · intro σ
    have hspec' := resolve_spec (s := s.permute σ) (fun i => hmp (σ i)) hpath
    cases hres : s.resolve path with
    | none =>
      rw [hres] at hspec
      cases hres' : (s.permute σ).resolve path with
      | none => rfl
      | some y =>
        rw [hres'] at hspec'
        exact absurd hspec'.covers (hspec (σ y.1))
    | some x =>
      rw [hres] at hspec
      cases hres' : (s.permute σ).resolve path with
      | none =>
        rw [hres'] at hspec'
        refine absurd ?_ (hspec' (σ.symm x.1))
        rw [Covers, State.permute]
        simp only [Equiv.apply_symm_apply]
        exact hspec.covers
      | some y =>
        rw [hres'] at hspec'
        obtain ⟨hm, hr⟩ := hspec.unique hmp hpath σ (fun _ => rfl) hspec'
        rw [Option.map_some, Option.map_some, hm, hr]

/-- `/fat`, `/` and `/fat32`, in this order. -/
def threeMounts : State :=
  { initVfs with mounts := fun i =>
      { emptyMount with
        used := i.val < 3
        mountpoint := [[47, 102, 97, 116], [47], [47, 102, 97, 116, 51, 50]].getD i.val [] } }

/-- `/fat32/x` is `x` on `/fat32`, neither below `/fat` nor below `/`. -/
theorem vfs_resolve_longest_fat :
    threeMounts.resolve [47, 102, 97, 116, 51, 50, 47, 120] = some (2, [120]) ∧
      join [47, 102, 97, 116, 51, 50] [120] = [47, 102, 97, 116, 51, 50, 47, 120] := by
  have hclean : ∀ st : List Str, (∀ c ∈ st, c ≠ [] ∧ c ≠ [dot] ∧ c ≠ [dot, dot] ∧ slash ∉ c) →
      Canonical (render slash st) := by
    intro st h
    refine ⟨st, fun c hc => ?_, rfl⟩
    obtain ⟨h1, h2, h3, h4⟩ := h c hc
    exact ⟨h1, ⟨h2, h3⟩, h4⟩
  have hmp : ∀ i, (threeMounts.mounts i).used → Canonical (threeMounts.mounts i).mountpoint := by
    intro i hu
    have hi : i.val < 3 := by simpa [threeMounts] using hu
    have hthree : ∀ i : Slot, i.val < 3 → i = 0 ∨ i = 1 ∨ i = 2 := by decide
    obtain rfl | rfl | rfl := hthree i hi
    · exact hclean [[102, 97, 116]] (by decide)
    · exact hclean [] (by decide)
    · exact hclean [[102, 97, 116, 51, 50]] (by decide)
  have hpath := hclean [[102, 97, 116, 51, 50], [120]] (by decide)
  have hres : threeMounts.resolve [47, 102, 97, 116, 51, 50, 47, 120] = some (2, [120]) := by decide
  exact ⟨hres, ((vfs_resolve_longest hmp (by decide) hpath).2.1 2 [120] hres).2.2.2.1⟩

end Vfs

end Csos

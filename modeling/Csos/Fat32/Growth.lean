import Csos.Fat32.Catalog
import Csos.Fat32.Cursor
import Csos.Fat32.Ops
/-!
# FAT32 — where a new name goes

The entries of a directory are the slots of its clusters. `fat32_dir_insert`
may link more clusters to it, whose slots are blank, and changes nothing else
on the way (`Widens`). `fat32_find_slots` finds a run of deleted entries, or
the end of the directory; it takes the slots after the end mark only if there
is room for all entries before the clusters end, and has the directory grow
otherwise.
-/

namespace Csos

namespace Fat32

variable {g : Geo} {v v₁ v' : Vol} {a b c d i j k n r s K N idx need fuel total : ℕ} {l l₁ l' lr : List ℕ} {ch ch' : Chain}
  {e : Bytes} {f : Ents}

/-! ## Slots and entries -/

theorem hasSlot_iff (hg : g.Wf) : HasSlot g l k ↔ k < l.length * perClus g := by
  have hc := hg.perClus_eq.2
  have hpos := hg.clusBytes_pos
  rw [HasSlot, Nat.div_lt_iff_lt_mul hpos, hc, ← mul_assoc, Nat.mul_lt_mul_right (by norm_num)]

/-- **The entries of a directory are its slots.** -/
theorem entAt_slot (hg : g.Wf) (hq : Quiet v) (h : IsChain g v d l) (hk : k < 2 ^ 27) :
    entAt g v d k = if k < l.length * perClus g then some (dirSlot g v l k) else none := by
  obtain ⟨ch₁, hst₁, -, hr₁⟩ := entRead_eq hq (cached_init (g := g) (v := v) d) k
  obtain ⟨ch₂, -, -, hr₂⟩ := entRead_quiet hg hq h h.cursor_init k
  have hst : (chainInit d).start = d := rfl
  rw [hst] at hr₁
  rw [Nat.mod_eq_of_lt hk] at hr₂
  rcases he : entAt g v d k with _ | e <;> rw [he] at hr₁
  · rw [if_neg]
    intro hlt
    rcases hr₂ with ⟨-, hr₂⟩ | ⟨hno, -⟩
    · rw [hr₁] at hr₂
      exact absurd (congrArg Prod.fst hr₂) (by dsimp only; decide)
    · exact hno ((hasSlot_iff hg).mpr hlt)
  · rcases hr₂ with ⟨hin, hr₂⟩ | ⟨-, hr₂⟩
    · rw [if_pos ((hasSlot_iff hg).mp hin)]
      rw [hr₁] at hr₂
      exact congrArg some (congrArg (fun r => r.2.1) hr₂)
    · rw [hr₁] at hr₂
      exact absurd (congrArg Prod.fst hr₂) (by dsimp only; decide)

/-! ## Growth -/

/-- **Blank clusters have been linked** to the chain `l`, which is `l'` now,
and nothing else has been written. -/
structure Widens (g : Geo) (v : Vol) (l : List ℕ) (v' : Vol) (l' : List ℕ) : Prop where
  pre : l <+: l'
  touches : Touches g {b | b ∈ l'} {b | b ∈ l' ∧ b ∉ l} v v'
  free : ∀ b ∈ l', b ∉ l → fat g v b = 0
  blank : ∀ b ∈ l', b ∉ l → ∀ j < perClus g, slot g v' b j 0 = 0

theorem Widens.refl (g : Geo) (v : Vol) (l : List ℕ) : Widens g v l v l :=
  ⟨List.prefix_rfl, .refl g v, fun _ h hn => absurd h hn, fun _ h hn => absurd h hn⟩

/-- The slots of clusters that are not written. -/
theorem Touches.slot_eq {F C : Set ℕ} (h : Touches g F C v v') (hg : g.Wf) (hb : clusValid g b = true)
    (hC : b ∉ C) (hj : j < perClus g) : slot g v' b j = slot g v b j :=
  cut_congr fun _ hi => h.byte_eq hg hb hC (hg.slot_end hj hi)

theorem Widens.trans (hg : g.Wf) (h : Widens g v l v₁ l₁) (h' : Widens g v₁ l₁ v' l')
    (hv : ∀ b ∈ l', clusValid g b = true) : Widens g v l v' l' := by
  have hsub : ∀ b ∈ l₁, b ∈ l' := fun b hb => h'.pre.subset hb
  refine ⟨h.pre.trans h'.pre, (h.touches.trans h'.touches).mono ?_ ?_, fun b hb hn => ?_, fun b hb hn j hj => ?_⟩
  · rintro b (hb | hb)
    · exact hsub b hb
    · exact hb
  · rintro b (⟨hb, hn⟩ | ⟨hb, hn⟩)
    · exact ⟨hsub b hb, hn⟩
    · exact ⟨hb, fun hl => hn (h.pre.subset hl)⟩
  · by_cases h₁ : b ∈ l₁
    · exact h.free b h₁ hn
    · rw [← h.touches.fat_eq hg (hv b hb) h₁]
      exact h'.free b hb h₁
  · by_cases h₁ : b ∈ l₁
    · rw [h'.touches.slot_eq hg (hv b hb) (fun hm => hm.2 h₁) hj]
      exact h.blank b h₁ hn j hj
    · exact h'.blank b hb h₁ j hj

/-- **`fat32_dir_grow`** links one cluster. -/
theorem dirGrow_widens (hg : g.Wf) (hq : Quiet v) (h : Threaded g v ch l) (hrun : dirGrow g ch v = (fatOk, n, ch', v')) :
    ∃ l', Quiet v' ∧ ch'.start = ch.start ∧ Threaded g v' ch' l' ∧ Widens g v l v' l' ∧
      n = l'.length * g.clusBytes % 2 ^ 32 := by
  unfold dirGrow at hrun
  rw [chainCount_quiet hg hq h.1] at hrun
  dsimp only at hrun
  obtain ⟨ch₁, hr₁, hst₁, hcur₁⟩ := chainAt_quiet hq h.1 h.2 ((l.length + (2 ^ 32 - 1)) % 2 ^ 32)
  have h₁ : Threaded g v ch₁ l := ⟨hst₁ ▸ h.1, hcur₁⟩
  rw [hr₁] at hrun
  dsimp only at hrun
  by_cases hv : clusValid g ((l[(l.length + (2 ^ 32 - 1)) % 2 ^ 32]?).getD 0) = true
  case neg =>
    rw [if_pos hv] at hrun
    exact absurd (congrArg Prod.fst hrun) (by dsimp only; decide)
  rw [if_neg (not_not.mpr hv)] at hrun
  -- the cluster found is the last one
  have hlt := (h.1.valid_getD _).mp hv
  obtain ⟨l₀, k, rfl⟩ : ∃ l₀ k, l = l₀ ++ [k] :=
    ⟨_, _, (List.dropLast_append_getLast (List.ne_nil_of_length_pos (by omega))).symm⟩
  have hlast : (((l₀ ++ [k])[((l₀ ++ [k]).length + (2 ^ 32 - 1)) % 2 ^ 32]?).getD 0) = k := by
    have hlen := h.1.length_le hg
    have hmarks := hg.marks
    have hidx : ((l₀ ++ [k]).length + (2 ^ 32 - 1)) % 2 ^ 32 = l₀.length := by
      rw [List.length_append, List.length_singleton] at hlen ⊢
      omega
    rw [hidx]
    simp
  rw [hlast] at hrun
  rcases allocCluster_quiet hg hq with ⟨hr, -⟩ | ⟨nc, v₁, hr, hT⟩
  · rw [hr] at hrun
    simp only [clusValid, nonpos_iff_eq_zero, OfNat.ofNat_ne_zero, false_and, decide_false,
      Bool.false_eq_true, not_false_eq_true, if_true] at hrun
    exact absurd (congrArg Prod.fst hrun) (by dsimp only; decide)
  · obtain ⟨v₂, hr₂, ht₂, h₂, -⟩ := h₁.1.link hg hq hT
    rw [hr] at hrun
    dsimp only at hrun
    rw [if_neg (not_not.mpr hT.valid), hr₂] at hrun
    dsimp only at hrun
    rw [if_neg (by decide)] at hrun
    obtain ⟨-, hn, hch, rfl⟩ := Prod.mk.inj hrun |>.imp id Prod.mk.inj |>.imp id (And.imp id Prod.mk.inj)
    have hmem : ∀ b, b ∈ l₀ ++ [k] ++ [nc] → b ∉ l₀ ++ [k] → b = nc := fun b hb hnb =>
      List.mem_singleton.mp ((List.mem_append.mp hb).resolve_left hnb)
    refine ⟨l₀ ++ [k] ++ [nc], ht₂.quiet (hT.touches.quiet hq), hch ▸ hst₁, hch ▸ ⟨h₂, ⟨h₂.head, by simp⟩⟩,
      ⟨List.prefix_append _ _, (hT.touches.trans ht₂).mono ?_ ?_, fun b hb hnb => ?_, fun b hb hnb j hj => ?_⟩, ?_⟩
    · rintro b (rfl | rfl) <;> simp
    · rintro b (rfl | hb)
      · exact ⟨by simp, hT.notMem h.1⟩
      · exact absurd hb (by simp)
    · rw [hmem b hb hnb]
      exact hT.free
    · rw [hmem b hb hnb, ht₂.slot_eq hg hT.valid (by simp) hj]
      exact Sound.blank_of_taken hg hT hj
    · rw [← hn]
      simp only [List.length_append, List.length_singleton]

/-- **Room is made.** -/
theorem growLoop_widens (hg : g.Wf) (idx need : ℕ) : ∀ {fuel : ℕ} {total : ℕ} {ch : Chain} {l : List ℕ} {v : Vol}, Quiet v →
    Threaded g v ch l → total = l.length * g.clusBytes % 2 ^ 32 →
    growLoop g idx need fuel total ch v = (fatOk, ch', v') →
    ∃ l', Quiet v' ∧ ch'.start = ch.start ∧ Threaded g v' ch' l' ∧ Widens g v l v' l' ∧
      (idx + need) % 2 ^ 32 * 32 ≤ l'.length * g.clusBytes % 2 ^ 32 := by
  intro fuel
  induction fuel with
  | zero =>
    intro total ch l v _ _ _ hrun
    exact absurd (congrArg Prod.fst hrun) (by rw [growLoop]; dsimp only; decide)
  | succ fuel ih =>
    intro total ch l v hq h htot hrun
    rw [growLoop] at hrun
    split_ifs at hrun with hle
    · obtain ⟨-, rfl, rfl⟩ := Prod.mk.inj hrun |>.imp id Prod.mk.inj
      exact ⟨l, hq, rfl, h, .refl g v l, htot ▸ hle⟩
    · rcases hr : dirGrow g ch v with ⟨rc, n, ch₁, v₁⟩
      rw [hr] at hrun
      dsimp only at hrun
      by_cases hrc : rc = fatOk
      · rw [if_neg (not_not.mpr hrc)] at hrun
        obtain ⟨l₁, hq₁, hst₁, h₁, hw₁, hn⟩ := dirGrow_widens hg hq h (hrc ▸ hr)
        obtain ⟨l', hq', hst', h', hw', hroom⟩ := ih hq₁ h₁ hn hrun
        exact ⟨l', hq', hst'.trans hst₁, h', hw₁.trans hg hw' fun b hb => h'.1.valid hb, hroom⟩
      · rw [if_pos hrc] at hrun
        exact absurd (congrArg Prod.fst hrun) hrc

/-! ## What growing and writing leave -/

/-- The clusters that were there keep their places. -/
theorem place_prefix (hg : g.Wf) (hp : l <+: l') (hk : k < l.length * perClus g) : place g l' k = place g l k := by
  have hlt : k * 32 / g.clusBytes < l.length := (hasSlot_iff hg).mpr hk
  obtain ⟨t, rfl⟩ := hp
  rw [place, place, List.getD_append _ _ _ _ hlt]

theorem Widens.quiet (h : Widens g v l v' l') (hq : Quiet v) : Quiet v' := h.touches.quiet hq

/-- The entries of the directory that has grown. -/
theorem Widens.entAt (hg : g.Wf) (hw : Widens g v l v' l') (hq : Quiet v) (h : IsChain g v d l)
    (h' : IsChain g v' d l') (hk : k < 2 ^ 27) :
    (k < l.length * perClus g → entAt g v' d k = entAt g v d k) ∧
      (l.length * perClus g ≤ k → ∀ e ∈ Fat32.entAt g v' d k, e 0 = 0) := by
  have hlen := Nat.mul_le_mul_right (perClus g) hw.pre.length_le
  have hat := hg.place_off l k
  rw [entAt_slot hg (hw.quiet hq) h' hk]
  refine ⟨fun hlt => ?_, fun hge e he => ?_⟩
  · have hmem := place_mem ((hasSlot_iff hg).mpr hlt)
    rw [if_pos (by omega), entAt_slot hg hq h hk, if_pos hlt, dirSlot, dirSlot, place_prefix hg hw.pre hlt,
      hw.touches.slot_eq hg (h.valid hmem) (fun hm => hm.2 hmem) hat.2]
  · split_ifs at he with hlt
    · obtain rfl := Option.some.inj he
      refine hw.blank _ (place_mem ((hasSlot_iff hg).mpr hlt)) (fun hmem => ?_) _ (hg.place_off l' k).2
      -- the clusters of a chain are different
      have hin : k * 32 / g.clusBytes < l'.length := (hasSlot_iff hg).mpr hlt
      have hout : l.length ≤ k * 32 / g.clusBytes := by
        by_contra hc
        have := (hasSlot_iff hg).mp (show HasSlot g l k from by rw [HasSlot]; omega)
        omega
      obtain ⟨t, rfl⟩ := hw.pre
      have hnd := h'.nodup
      rw [List.nodup_append] at hnd
      rw [place, List.getD_append_right _ _ _ _ hout, List.getD_eq_getElem _ _ (by rw [List.length_append] at hin; omega)] at hmem
      exact hnd.2.2 _ hmem _ (List.getElem_mem _) rfl
    · exact absurd he (by simp)

/-- What a change may not touch of another chain. -/
theorem entAt_frame {F C : Set ℕ} (hg : g.Wf) (hq : Quiet v) (ht : Touches g F C v v') (h : IsChain g v r lr)
    (hF : ∀ b ∈ lr, b ∉ F) (hC : ∀ b ∈ lr, b ∉ C) (k : ℕ) : entAt g v' r k = entAt g v r k := by
  have hk : k % 2 ^ 27 < 2 ^ 27 := Nat.mod_lt _ (by norm_num)
  rw [← entAt_mod, ← entAt_mod (v := v), entAt_slot hg (ht.quiet hq) (h.touches hg ht hF) hk, entAt_slot hg hq h hk]
  split_ifs with hlt
  · have hmem := place_mem ((hasSlot_iff hg).mpr hlt)
    rw [dirSlot, dirSlot, ht.slot_eq hg (h.valid hmem) (hC _ hmem) (hg.place_off _ _).2]
  · rfl

/-- Another chain has none of the clusters that are linked. -/
theorem Widens.apart (hw : Widens g v l v' l') (h : IsChain g v r lr) (hd : ∀ b ∈ lr, b ∉ l) : ∀ b ∈ lr, b ∉ l' :=
  fun b hb hl' => h.fat_ne_zero hb (hw.free b hl' (hd b hb))

/-- **Slots have been rewritten**: the entries of the directory. -/
theorem Rewrites.entAt {W : Set (ℕ × ℕ)} (hg : g.Wf) (hq : Quiet v) (h : IsChain g v d l) (hw : Rewrites g l W v v')
    (hk : k < 2 ^ 27) : entAt g v' d k = if k < l.length * perClus g then some (dirSlot g v' l k) else none :=
  entAt_slot hg (hw.touches.quiet hq) (h.touches hg hw.touches (by simp)) hk

theorem Rewrites.entAt_other (hg : g.Wf) (hq : Quiet v) (h : IsChain g v d l)
    (hw : Rewrites g l (group g l idx n) v v') (hfit : idx + n ≤ l.length * perClus g) (hk : k < 2 ^ 27)
    (hout : k < idx ∨ idx + n ≤ k) : Fat32.entAt g v' d k = Fat32.entAt g v d k := by
  rw [hw.entAt hg hq h hk, entAt_slot hg hq h hk]
  split_ifs with hlt
  · have hhas := (hasSlot_iff hg).mpr hlt
    rw [dirSlot, dirSlot, hw.other _ (place_mem hhas) _ (hg.place_off _ _).2]
    rintro ⟨i, hi, hp⟩
    have := hg.place_inj h.nodup hhas ((hasSlot_iff hg).mpr (by omega)) hp
    omega
  · rfl

/-! ## Room -/

/-- The `need` entries from `i` on are deleted. -/
def Gap (f : Ents) (i need : ℕ) : Prop := ∀ j < need, ∃ e ∈ f (i + j), Deleted e

/-- **The slots that `fat32_find_slots` gives**, in a tidy directory with `N`
slots. -/
def Gives (f : Ents) (K N need idx : ℕ) (grow : Bool) : Prop :=
  grow = false ∧ idx + need ≤ K ∧ Gap f idx need ∨
    idx = K ∧ (∀ i, i + need ≤ K → ¬ Gap f i need) ∧ (grow = true ↔ N < K + need)

/-- Where the loop of `fat32_find_slots` is: the entries before `i` have no
gap that is large enough, and the last `run` of them are deleted. -/
structure Seeking (f : Ents) (K need i run start : ℕ) : Prop where
  le : i ≤ K
  run_le : run ≤ i
  small : run < need
  gap : Gap f (i - run) run
  start : run ≠ 0 → start = i - run
  edge : run < i → ∀ e ∈ f (i - run - 1), ¬ Deleted e
  none : ∀ s, s + need ≤ i → ¬ Gap f s need

theorem Seeking.used {run start : ℕ} (h : Seeking f K need i run start) (hi : i < K) (hneed : 0 < need)
    (hno : ∀ e ∈ f i, ¬ Deleted e) (start' : ℕ) : Seeking f K need (i + 1) 0 start' := by
  refine ⟨hi, Nat.zero_le _, hneed, fun j hj => absurd hj (by omega), fun h0 => absurd rfl h0, fun _ => ?_,
    fun s hs hgap => ?_⟩
  · rwa [Nat.sub_zero, Nat.add_sub_cancel]
  · rcases Nat.lt_or_ge i (s + need) with hlt | hge
    · obtain ⟨e, he, hd⟩ := hgap (i - s) (by omega)
      rw [show s + (i - s) = i by omega] at he
      exact hno e he hd
    · exact h.none s hge hgap

theorem Seeking.deleted {run start : ℕ} (h : Seeking f K need i run start) (hi : i < K) (hrun : run + 1 < need)
    (he : e ∈ f i) (hd : Deleted e) :
    Seeking f K need (i + 1) (run + 1) (if run = 0 then i else start) := by
  have hle := h.run_le
  refine ⟨hi, by omega, hrun, fun j hj => ?_, fun _ => ?_, fun hlt => ?_, fun s hs hgap => ?_⟩
  · rcases Nat.lt_succ_iff_lt_or_eq.mp hj with hlt | rfl
    · rw [show i + 1 - (run + 1) + j = i - run + j by omega]
      exact h.gap j hlt
    · rw [show i + 1 - (j + 1) + j = i by omega]
      exact ⟨e, he, hd⟩
  · split_ifs with h0
    · omega
    · rw [h.start h0]
      omega
  · rw [show i + 1 - (run + 1) - 1 = i - run - 1 by omega]
    exact h.edge (by omega)
  · rcases Nat.lt_or_ge i (s + need) with hlt | hge
    · -- a gap that ends here would be longer than the run
      obtain ⟨e', he', hd'⟩ := hgap (i - run - 1 - s) (by omega)
      rw [show s + (i - run - 1 - s) = i - run - 1 by omega] at he'
      exact h.edge (by omega) e' he' hd'
    · exact h.none s hge hgap

theorem findLoop_found (hq : Quiet v) (T : Tidy (entAt g v d) K) (hKN : K ≤ N)
    (hend : ∀ k < 2 ^ 27, (∃ e, entAt g v d k = some e) ↔ k < N) (hN : N < 2 ^ 27) (hneed : 0 < need) :
    ∀ {fuel : ℕ} {ch : Chain} {i run start : ℕ}, Cached g v ch → ch.start = d → i + fuel = N + 1 →
      Seeking (entAt g v d) K need i run start →
      ∃ idx grow ch', findLoop g need (N * 32) fuel ch i run start v = (fatOk, idx, grow, ch', v) ∧
        Gives (entAt g v d) K N need idx grow ∧ Cached g v ch' ∧ ch'.start = d := by
  intro fuel
  induction fuel with
  | zero =>
    intro ch i run start _ _ hf h
    have := h.le
    omega
  | succ fuel ih =>
    intro ch i run start hc hst hf h
    have hsmall := T.small
    rw [findLoop]
    by_cases hfull : N * 32 ≤ i * 32
    · -- the clusters end here
      rw [if_pos hfull]
      have hle := h.le
      obtain rfl : i = K := by omega
      exact ⟨i, true, ch, rfl, .inr ⟨rfl, h.none, by simp; omega⟩, hc, hst⟩
    rw [if_neg hfull]
    obtain ⟨ch₁, hst₁, hc₁, hr⟩ := entRead_eq hq hc i
    rw [hst] at hr hst₁
    obtain ⟨e, he⟩ := (hend i (by omega)).mpr (by omega)
    rw [he] at hr
    rw [hr]
    dsimp only
    rw [if_neg (by decide), if_neg (by decide)]
    by_cases h0 : e 0 = 0
    · -- the end mark
      rw [if_pos h0]
      have hiK : i = K := by
        by_contra hne
        obtain ⟨e', he', h0'⟩ := T.used i (lt_of_le_of_ne h.le hne)
        obtain rfl := Option.some.inj (he.symm.trans he')
        exact h0' h0
      subst hiK
      refine ⟨i, _, ch₁, rfl, .inr ⟨rfl, h.none, ?_⟩, hc₁, hst₁⟩
      rw [decide_eq_true_eq]
      omega
    rw [if_neg h0]
    have hiK : i < K := by
      by_contra hge
      exact h0 (T.blank i (by omega) (by omega) e he)
    by_cases hd : e 0 = 0xe5
    · rw [if_pos hd]
      have hle := h.run_le
      have hlt := h.small
      by_cases hdone : need ≤ run + 1
      · rw [if_pos hdone]
        have hstart : (if run = 0 then i else start) = i - run := by
          split_ifs with h0'
          · omega
          · exact h.start h0'
        refine ⟨_, false, ch₁, rfl, .inl ⟨rfl, by omega, fun j hj => ?_⟩, hc₁, hst₁⟩
        rw [hstart]
        rcases Nat.lt_or_ge j run with hj' | hj'
        · exact h.gap j hj'
        · rw [show i - run + j = i by omega]
          exact ⟨e, he, hd⟩
      · rw [if_neg hdone]
        exact ih hc₁ hst₁ (by omega) (h.deleted hiK (by omega) he hd)
    · rw [if_neg hd]
      refine ih hc₁ hst₁ (by omega) (h.used hiK hneed (fun e' he' hd' => ?_) start)
      obtain rfl := Option.some.inj (he.symm.trans he')
      exact hd hd'

/-- **`fat32_find_slots`** in a tidy directory. -/
theorem findSlots_found (hg : g.Wf) (hq : Quiet v) (h : IsChain g v d l) (T : Tidy (entAt g v d) K)
    (hN : l.length * perClus g < 2 ^ 27) (hneed : 0 < need) :
    K ≤ l.length * perClus g ∧ ∃ idx grow ch, findSlots g (chainInit d) need v = (fatOk, idx, grow, ch, v) ∧
      Gives (entAt g v d) K (l.length * perClus g) need idx grow ∧ Threaded g v ch l ∧ ch.start = d := by
  have hc := hg.perClus_eq.2
  have hend : ∀ k < 2 ^ 27, (∃ e, entAt g v d k = some e) ↔ k < l.length * perClus g := by
    intro k hk
    rw [entAt_slot hg hq h hk]
    split_ifs with hlt
    · exact iff_of_true ⟨_, rfl⟩ hlt
    · exact iff_of_false (by simp) hlt
  have hKN : K ≤ l.length * perClus g := by
    by_contra hlt
    have hsmall := T.small
    obtain ⟨e, he, -⟩ := T.used (l.length * perClus g) (by omega)
    exact absurd ((hend _ (by omega)).mp ⟨e, he⟩) (lt_irrefl _)
  have htotal : l.length * g.clusBytes % 2 ^ 32 = l.length * perClus g * 32 := by
    rw [hc, ← mul_assoc]
    exact Nat.mod_eq_of_lt (by omega)
  have hstart : Seeking (entAt g v d) K need 0 0 0 :=
    ⟨Nat.zero_le _, le_rfl, hneed, fun j hj => absurd hj (by omega), fun h0 => absurd rfl h0,
      fun h0 => absurd h0 (by omega), fun s hs => absurd hs (by omega)⟩
  obtain ⟨idx, grow, ch, hr, hfound, hcached, hst⟩ := findLoop_found hq T hKN hend hN hneed
    (cached_init d) rfl (Nat.zero_add (l.length * perClus g + 1)) hstart
  refine ⟨hKN, idx, grow, ch, ?_, hfound, ⟨hst ▸ h, ((hst ▸ h : IsChain g v ch.start l).cursor_iff hq).mpr hcached⟩, hst⟩
  rw [findSlots, chainCount_quiet hg hq h]
  dsimp only
  rw [htotal, Nat.mul_div_cancel _ (by norm_num), hr]

end Fat32

end Csos

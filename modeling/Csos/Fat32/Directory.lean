import Csos.Fat32.Growth
/-!
# FAT32 — a directory is a map

What `fat32_dir_lookup` finds in an orderly directory is a map from names, up
to case, to entries. `fat32_delete_slots`, on the entry that a lookup has
found, takes that name out of the map. `fat32_dir_insert` adds the name,
unless the entries are stranded behind the end mark: then it has succeeded,
and no lookup finds anything else than before.
-/

namespace Csos

namespace Fat32

open Vfs (Str dot)

variable {g : Geo} {v v₁ v' : Vol} {a b c d i k m n r K N idx size seq : ℕ} {l l' lr : List ℕ} {name : Str} {e : Bytes}
  {raw : Bytes} {x isDir : Bool} {f f' : Ents} {loc : Loc} {o : Option Loc} {P : Plan} {X : Set (ℕ × ℕ)} {C : Prop}
  {sum : UInt8}

/-! ## Lookups -/

/-- **What `fat32_dir_lookup` finds.** -/
def find (g : Geo) (v : Vol) (d : ℕ) (name : Str) : Option Loc := (dirLookup g d name v).2.1

theorem find_eq_some (hq : Quiet v) : find g v d name = some loc ↔ EntryOf g v d name loc := by
  rw [find]
  rcases dirLookup_eq (g := g) hq d name with ⟨loc', hr, he⟩ | ⟨hr | hr, hno⟩ <;> rw [hr]
  · refine ⟨fun h => ?_, fun h => congrArg some (he.unique h)⟩
    obtain rfl := Option.some.inj h
    exact he
  · exact iff_of_false (by simp) (hno loc)
  · exact iff_of_false (by simp) (hno loc)

theorem Catalog.find_iff (hq : Quiet v) (h : Catalog (entAt g v d) K) : find g v d name = some loc ↔
    ∃ k e, Has (entAt g v d) K name k e ∧ loc = locIn d (entAt g v d) k e :=
  (find_eq_some hq).trans (entryOf_iff h.toOrderly h.single)

/-- No entry bears a name that is not found. -/
theorem Catalog.not_has (hq : Quiet v) (h : Catalog (entAt g v d) K) (hnew : find g v d name = none) :
    ∀ k e, ¬ Has (entAt g v d) K name k e := fun k e hk => by
  have := (h.find_iff hq).mpr ⟨k, e, hk, rfl⟩
  rw [hnew] at this
  exact absurd this (by simp)

/-- A directory that is the same up to its end is the same to a lookup. -/
theorem Catalog.congr (hq : Quiet v) (hq' : Quiet v') (h : Catalog (entAt g v d) K)
    (hsame : ∀ k ≤ K, entAt g v' d k = entAt g v d k) :
    Catalog (entAt g v' d) K ∧ ∀ name, find g v' d name = find g v d name := by
  obtain ⟨horder, hrun⟩ := h.toOrderly.congr hsame
  have hname : ∀ k < K, ∀ e, nameOf (entAt g v' d) k e = nameOf (entAt g v d) k e := fun k hk e => by
    rw [nameOf, nameOf, (hrun k hk).1]
  have hhas : ∀ name k e, Has (entAt g v' d) K name k e ↔ Has (entAt g v d) K name k e := by
    intro name k e
    constructor
    · rintro ⟨hlt, he, hc, heq⟩
      exact ⟨hlt, hsame k hlt.le ▸ he, hc, hname k hlt e ▸ heq⟩
    · rintro ⟨hlt, he, hc, heq⟩
      exact ⟨hlt, (hsame k hlt.le).trans he, hc, (hname k hlt e).symm ▸ heq⟩
  have hcat : Catalog (entAt g v' d) K := ⟨horder, fun name k e k' e' h₁ h₂ =>
    h.single name k e k' e' ((hhas _ _ _).mp h₁) ((hhas _ _ _).mp h₂)⟩
  refine ⟨hcat, fun name => Option.ext fun loc => ?_⟩
  rw [hcat.find_iff hq', h.find_iff hq]
  refine exists_congr fun k => exists_congr fun e => ?_
  rw [hhas, and_congr_right_iff]
  intro hk
  rw [locIn, locIn, hname k hk.lt, (hrun k hk.lt).2]

/-! ## The entries of a name -/

theorem cut_eq_self (h : ∀ i, 32 ≤ i → e i = 0) : cut e = e := by
  funext i
  by_cases hi : i < 32
  · exact cut_apply hi
  · rw [cut, Bytes.blit_apply_of_notMem (by omega), h i (by omega)]
    rfl

theorem lfnOff_lt (k : ℕ) : lfnOff.getD k 0 + 2 ≤ 32 := by
  by_cases hk : k < 13
  · revert k
    decide
  · rw [List.getD_eq_default _ _ (by rw [show lfnOff.length = 13 from rfl]; omega)]
    norm_num

theorem cut_lfnEntry (name : Str) (sum : UInt8) (n seq : ℕ) : cut (lfnEntry name sum n seq) = lfnEntry name sum n seq := by
  refine cut_eq_self fun i hi => ?_
  rw [lfnEntry]
  rw [Function.update_of_ne (by omega), Function.update_of_ne (by omega), Function.update_of_ne (by omega)]
  refine List.foldlRecOn (motive := fun e : Bytes => e i = 0) _ _ rfl fun e he k _ => ?_
  have := lfnOff_lt k
  rw [Bytes.store_apply_of_notMem (by omega), he]

theorem cut_makeSlot {attr nt : UInt8} : cut (makeSlot raw attr nt c size) = makeSlot raw attr nt c size := by
  refine cut_eq_self fun i hi => ?_
  rw [makeSlot]
  repeat rw [Bytes.store_apply_of_notMem (by omega)]
  rw [Function.update_of_ne (by omega), Function.update_of_ne (by omega), Bytes.blit_apply_of_notMem (by omega)]
  rfl

theorem lfnEntry_first (h1 : 1 ≤ seq) (h20 : seq ≤ 20) : lfnEntry name sum n seq 0 ≠ 0 ∧ lfnEntry name sum n seq 0 ≠ 0xe5 := by
  have hfin : ∀ q ≤ 20, 1 ≤ q → (UInt8.ofNat (q ||| 0x40) ≠ 0 ∧ UInt8.ofNat (q ||| 0x40) ≠ 0xe5) ∧
      UInt8.ofNat (q ||| 0) ≠ 0 ∧ UInt8.ofNat (q ||| 0) ≠ 0xe5 := by decide
  rw [lfnEntry, Function.update_of_ne (by omega), Function.update_of_ne (by omega), Function.update_self]
  split_ifs
  · exact (hfin seq h20 h1).1
  · exact (hfin seq h20 h1).2

/-- The entries of a long name. -/
theorem buildLfn_part (h : e ∈ buildLfn name raw) : (e 0 ≠ 0 ∧ LfnPart e) ∧ cut e = e := by
  have hattr := buildLfn_attr h
  obtain ⟨i, hi, rfl⟩ := List.mem_map.mp h
  have hcount : lfnCount name ≤ 20 := by
    rw [lfnCount]
    omega
  have hi' := List.mem_range.mp hi
  obtain ⟨h0, hdel⟩ := @lfnEntry_first (lfnCount name) (lfnCount name - i) name (shortSum raw)
    (show 1 ≤ lfnCount name - i by omega) (by omega)
  exact ⟨⟨h0, hdel, hattr⟩, cut_lfnEntry ..⟩

theorem ShortChar.first (h : ShortChar sum) : sum ≠ 0 ∧ sum ≠ 0xe5 := by
  constructor <;> rintro rfl <;> exact absurd h (by decide)

/-- A short name begins with a character. -/
theorem IsAlias.first (h : IsAlias raw) : raw 0 ≠ 0 ∧ raw 0 ≠ 0xe5 := by
  obtain ⟨base, ext, h1, -, -, hb, -, hraw⟩ := h
  rw [hraw 0 (by omega), rawName, if_pos (by omega), List.getD_eq_getElem _ _ h1]
  exact (hb _ (List.getElem_mem h1)).first

theorem tildeLoop_some {cb ce : Str} : ∀ {n i : ℕ} {v : Vol}, (tildeLoop g d cb ce n i v).1 = some raw →
    ∃ j < i + n, raw = tildeName cb ce j := by
  intro n
  induction n with
  | zero =>
    intro i v h
    exact absurd h (by rw [tildeLoop]; simp)
  | succ n ih =>
    intro i v h
    rw [tildeLoop_succ] at h
    rcases hr : shortExists g d (tildeName cb ce i) v with ⟨_ | _, v₁⟩ <;> rw [hr] at h
    · exact ⟨i, by omega, (Option.some.inj h).symm⟩
    · obtain ⟨j, hj, he⟩ := ih h
      exact ⟨j, by omega, he⟩

/-- **`fat32_make_short`** gives a short name. -/
theorem makeShort_isAlias (h : (makeShort g d name v).1 = some (raw, x)) : IsAlias raw := by
  have htilde : ∀ v, (tildeLoop g d (mangledBase (splitExt name).1) (mangledExt (splitExt name).2)
      999 1 v).1.map (fun raw => (raw, true)) = some (raw, x) → IsAlias raw := by
    intro v he
    obtain ⟨r, hr, heq⟩ := Option.map_eq_some_iff.mp he
    obtain ⟨j, hj, rfl⟩ := tildeLoop_some hr
    obtain rfl := (Prod.mk.inj heq).1
    exact isAlias_tildeName _ _ (by omega)
  rw [makeShort] at h
  simp only at h
  by_cases hfit : fitsShort (splitExt name).1 (splitExt name).2 = true
  case neg =>
    rw [if_neg hfit] at h
    exact htilde v h
  rw [if_pos hfit] at h
  generalize shortExists g d (rawName ((splitExt name).1.map upper) ((splitExt name).2.map upper)) v = r at h
  obtain ⟨_ | _, v'⟩ := r
  · obtain rfl := (Prod.mk.inj (Option.some.inj h)).1
    exact isAlias_upper hfit
  · exact htilde v' h

theorem Same.quiet (h : Same v v') (hq : Quiet v) : Quiet v' := by
  rcases h with rfl | rfl <;> exact hq

theorem shortExists_same (hq : Quiet v) (d : ℕ) (raw : Bytes) : Same v (shortExists g d raw v).2 := by
  rcases shortExists_eq (g := g) hq d raw with ⟨hr, -⟩ | ⟨hr, -⟩ | hr <;> rw [hr]
  · exact .refl v
  · exact .refl v
  · exact .inr rfl

theorem tildeLoop_same (d : ℕ) (cb ce : Str) : ∀ (n i : ℕ) {v : Vol}, Quiet v → Same v (tildeLoop g d cb ce n i v).2 := by
  intro n
  induction n with
  | zero => exact fun i v _ => .refl v
  | succ n ih =>
    intro i v hq
    have hsame := shortExists_same (g := g) hq d (tildeName cb ce i)
    rw [tildeLoop_succ]
    rcases hr : shortExists g d (tildeName cb ce i) v with ⟨_ | _, v₁⟩ <;> rw [hr] at hsame
    · exact hsame
    · exact hsame.trans (ih (i + 1) (hsame.quiet hq))

/-- **`fat32_make_short`** leaves the volume. -/
theorem makeShort_same (hq : Quiet v) (d : ℕ) (name : Str) : Same v (makeShort g d name v).2 := by
  rw [makeShort]
  simp only
  by_cases hfit : fitsShort (splitExt name).1 (splitExt name).2 = true
  case neg =>
    rw [if_neg hfit]
    exact tildeLoop_same d _ _ _ _ hq
  rw [if_pos hfit]
  have hsame := shortExists_same (g := g) hq d (rawName ((splitExt name).1.map upper) ((splitExt name).2.map upper))
  rcases hr : shortExists g d (rawName ((splitExt name).1.map upper) ((splitExt name).2.map upper)) v with ⟨_ | _, v₁⟩ <;>
    rw [hr] at hsame
  · exact hsame
  · exact hsame.trans (tildeLoop_same d _ _ _ _ (hsame.quiet hq))

/-! ## Inserting -/

/-- The end mark is before the last slot, there is no room between the two,
and none before it. -/
def Stranded (f : Ents) (K N need : ℕ) : Prop :=
  K < N ∧ N < K + need ∧ ∀ i, i + need ≤ K → ¬ Gap f i need

/-- The slots that a name needs. -/
def needed (g : Geo) (d : ℕ) (name : Str) (v : Vol) : ℕ :=
  match (makeShort g d name v).1 with
  | some (_, true) => lfnCount name + 1
  | _ => 1

/-- The entry of a new name. -/
def newLoc (d idx n c size : ℕ) (isDir : Bool) (name : Str) : Loc :=
  ⟨d, (idx + n) * 32, idx * 32, c, size, if isDir then attrDir else attrArch, Vfs.strncpy name nameMax⟩

theorem entAt_same (h : Same v v') (d k : ℕ) : entAt g v' d k = entAt g v d k := by
  rcases h with rfl | rfl
  · rfl
  · exact entAt_disk rfl

/-- **The entries have been written** to the slots from `idx` on, of a
directory that has grown before that. -/
structure Laid (g : Geo) (v : Vol) (d : ℕ) (l : List ℕ) (idx : ℕ) (es : List Bytes) (v' : Vol) : Prop where
  quiet : Quiet v'
  chain : ∃ l', IsChain g v' d l'
  entry : ∀ i (hi : i < es.length), entAt g v' d (idx + i) = some es[i]
  other : ∀ k < l.length * perClus g, k < idx ∨ idx + es.length ≤ k → entAt g v' d k = entAt g v d k
  blank : ∀ k, l.length * perClus g ≤ k → k < 2 ^ 27 → idx + es.length ≤ k → ∀ e ∈ entAt g v' d k, e 0 = 0
  frame : ∀ r lr, IsChain g v r lr → (∀ b ∈ lr, b ∉ l) → ∀ k, entAt g v' r k = entAt g v r k

theorem Laid.of_same {es : List Bytes} (hw : Laid g v₁ d l idx es v') (h : Same v v₁)
    (hch : ∀ r lr, IsChain g v r lr → IsChain g v₁ r lr) : Laid g v d l idx es v' :=
  ⟨hw.quiet, hw.chain, hw.entry, fun k hk hout => (hw.other k hk hout).trans (entAt_same h d k), hw.blank,
    fun r lr hr hdis k => (hw.frame r lr (hch r lr hr) hdis k).trans (entAt_same h r k)⟩

/-- **The second half of `fat32_dir_insert`.** -/
theorem insertRoom_written (hg : g.Wf) (hq : Quiet v) {ch : Chain} (h : Threaded g v ch l) (hst : ch.start = d)
    {lfns : List Bytes} (hlfns : ∀ e ∈ lfns, cut e = e) (hlen : lfns.length ≤ 20) {grow : Bool}
    (hN : l.length * perClus g + 21 < 2 ^ 27) (hidx : idx ≤ l.length * perClus g)
    (hrun : insertRoom g d name isDir c size raw lfns idx grow ch v = (fatOk, o, v')) :
    ∃ i, i = (if grow then l.length * perClus g else idx) ∧ o = some (newLoc d i lfns.length c size isDir name) ∧
      Laid g v d l i (lfns ++ [makeSlot raw (if isDir then attrDir else attrArch) 0 c size]) v' := by
  have hc := hg.perClus_eq.2
  have htotal : l.length * g.clusBytes % 2 ^ 32 = l.length * perClus g * 32 := by
    rw [hc, ← mul_assoc]
    exact Nat.mod_eq_of_lt (by omega)
  obtain ⟨j, hj⟩ : ∃ j, j = if grow = true then l.length * perClus g else idx := ⟨_, rfl⟩
  have hjle : j ≤ l.length * perClus g := by
    rw [hj]
    split_ifs <;> omega
  obtain ⟨rc, ch₁, v₁, hgrow⟩ : ∃ rc ch₁ v₁, growLoop g j (lfns.length + 1) (g.clusterCount + 2)
      (l.length * perClus g * 32) ch v = (rc, ch₁, v₁) := ⟨_, _, _, rfl⟩
  have hdiv : l.length * perClus g * 32 / 32 = l.length * perClus g := Nat.mul_div_cancel _ (by norm_num)
  simp only [insertRoom, chainCount_quiet hg hq h.1, htotal, hdiv, ← hj, hgrow] at hrun
  by_cases hrc : rc = fatOk
  case neg =>
    rw [if_pos hrc] at hrun
    exact absurd (Prod.mk.inj hrun).1 hrc
  rw [if_neg (not_not.mpr hrc)] at hrun
  rw [hrc] at hgrow
  obtain ⟨l', hq₁, hst₁, h₁, hw, hroom⟩ := growLoop_widens hg j (lfns.length + 1) hq h htotal.symm hgrow
  have hstd : ch₁.start = d := hst₁.trans hst
  have hd := hstd ▸ h₁.1
  -- the entries fit
  have hfit : j + (lfns.length + 1) ≤ l'.length * perClus g := by
    rw [Nat.mod_eq_of_lt (by omega)] at hroom
    have hle := Nat.mod_le (l'.length * g.clusBytes) (2 ^ 32)
    have hmul : l'.length * g.clusBytes = l'.length * perClus g * 32 := by rw [hc, ← mul_assoc]
    omega
  obtain ⟨es, hes⟩ : ∃ es, es = lfns ++ [makeSlot raw (if isDir = true then attrDir else attrArch) 0 c size] := ⟨_, rfl⟩
  have hlen' : es.length = lfns.length + 1 := by rw [hes, List.length_append, List.length_singleton]
  obtain ⟨v₂, hr₂, hw₂, hall⟩ := writeSlots_quiet hg es j ch₁ v₁ hq₁ hd h₁.2
    (fun i hi => (hasSlot_iff hg).mpr (by omega)) (by omega)
  rw [insertWrite] at hrun
  dsimp only at hrun
  rw [← hes, hr₂] at hrun
  dsimp only at hrun
  rw [if_neg (by decide)] at hrun
  obtain ⟨-, ho, rfl⟩ := Prod.mk.inj hrun |>.imp id Prod.mk.inj
  have hcut : ∀ e ∈ es, cut e = e := by
    intro e he
    rw [hes] at he
    rcases List.mem_append.mp he with he | he
    · exact hlfns e he
    · rw [List.mem_singleton.mp he]
      exact cut_makeSlot
  have hq₂ : Quiet v₂ := hw₂.touches.quiet hq₁
  have hl : IsChain g v d l := hst ▸ h.1
  refine ⟨j, hj, ?_, hes ▸ ⟨hq₂, ⟨l', hd.touches hg hw₂.touches (by simp)⟩, fun i hi => ?_,
    fun k hk hout => ?_, fun k hk hk27 hout => ?_, fun r lr hr hdis k => ?_⟩⟩
  · rw [← ho, Nat.mod_eq_of_lt (show (j + lfns.length) * 32 < 2 ^ 32 by omega), Nat.mod_eq_of_lt (show j * 32 < 2 ^ 32 by omega)]
    rfl
  · rw [hw₂.entAt hg hq₁ hd (by omega), if_pos (by omega), hall i hi, hcut _ (List.getElem_mem hi)]
  · rw [hw₂.entAt_other hg hq₁ hd (by omega) (by omega) hout]
    exact (hw.entAt hg hq hl hd (by omega)).1 hk
  · rw [hw₂.entAt_other hg hq₁ hd (by omega) hk27 (.inr hout)]
    exact (hw.entAt hg hq hl hd hk27).2 hk
  · have hapart := hw.apart hr hdis
    rw [entAt_frame hg hq₁ hw₂.touches (hr.touches hg hw.touches hapart) (by simp) hapart,
      entAt_frame hg hq hw.touches hr hapart fun b hb hm => hapart b hb hm.1]

/-- **How a successful `fat32_dir_insert` ends**: the entries are put where
they extend the catalog, or they are stranded. -/
theorem dirInsert_cases (hg : g.Wf) (hq : Quiet v) (h : IsChain g v d l) (T : Tidy (entAt g v d) K)
    (hN : l.length * perClus g + 21 < 2 ^ 27) (hrun : dirInsert g d name isDir c size v = (fatOk, o, v')) :
    ∃ raw x idx es e, (makeShort g d name v).1 = some (raw, x) ∧
      (es, e) = entriesOf name raw x (if isDir then attrDir else attrArch) c size ∧
      o = some (newLoc d idx es.length c size isDir name) ∧ Laid g v d l idx (es ++ [e]) v' ∧
      (¬ Stranded (entAt g v d) K (l.length * perClus g) (needed g d name v) ∧
          Puts (entAt g v d) (entAt g v' d) K idx es e ∨
        Stranded (entAt g v d) K (l.length * perClus g) (needed g d name v) ∧
          ∀ k ≤ K, entAt g v' d k = entAt g v d k) := by
  obtain ⟨o₁, v₁, hms⟩ : ∃ o₁ v₁, makeShort g d name v = (o₁, v₁) := ⟨_, _, rfl⟩
  have hsame : Same v v₁ := by
    have := makeShort_same (g := g) hq d name
    rwa [hms] at this
  have hsmall := T.small
  have hq₁ := hsame.quiet hq
  have h₁ : ∀ r lr, IsChain g v r lr → IsChain g v₁ r lr := by
    rcases hsame with rfl | rfl
    · exact fun _ _ hr => hr
    · exact fun _ _ hr => hr.congr fun _ _ => rfl
  have hent : ∀ r k, entAt g v₁ r k = entAt g v r k := entAt_same hsame
  have hentd : entAt g v₁ d = entAt g v d := funext (hent d)
  rw [dirInsert, hms] at hrun
  rcases o₁ with _ | ⟨raw, x⟩
  · exact absurd (Prod.mk.inj hrun).1 (by decide)
  dsimp only at hrun
  have hraw : (makeShort g d name v).1 = some (raw, x) := by rw [hms]
  -- the entries
  obtain ⟨es, hes⟩ : ∃ es, es = if x = true then buildLfn name raw else [] := ⟨_, rfl⟩
  have hlen : es.length ≤ 20 ∧ es.length + 1 = needed g d name v := by
    rw [hes, needed, hraw]
    cases x
    · exact ⟨by simp, rfl⟩
    · refine ⟨?_, ?_⟩ <;> simp [buildLfn, lfnCount]
  have hpart : ∀ e ∈ es, (e 0 ≠ 0 ∧ LfnPart e) ∧ cut e = e := by
    intro e he
    rw [hes] at he
    split_ifs at he
    · exact buildLfn_part he
    · exact absurd he (by simp)
  rw [insertNamed, ← hes] at hrun
  dsimp only at hrun
  obtain ⟨hKN, idx, grow, ch, hfind, hgives, hth, hst⟩ :=
    findSlots_found hg hq₁ (h₁ d l h) (hentd ▸ T) (by omega) (Nat.succ_pos es.length)
  rw [hfind] at hrun
  dsimp only at hrun
  rw [if_neg (by decide)] at hrun
  have hidx : idx ≤ l.length * perClus g := by
    rcases hgives with ⟨-, hle, -⟩ | ⟨rfl, -⟩ <;> omega
  obtain ⟨i, hi, ho, hw⟩ := insertRoom_written hg hq₁ hth hst (fun e he => (hpart e he).2) hlen.1 hN hidx hrun
  have hlen' : (es ++ [makeSlot raw (if isDir = true then attrDir else attrArch) 0 c size]).length = es.length + 1 := by
    rw [List.length_append, List.length_singleton]
  rw [hentd] at hgives
  have hother := fun k hk hout => (hw.other k hk hout).trans (hent d k)
  have hblank := hw.blank
  have hentry := hw.entry
  rw [hlen'] at hother hblank
  refine ⟨raw, x, i, es, makeSlot raw (if isDir = true then attrDir else attrArch) 0 c size, hraw,
    by rw [entriesOf, hes], ho, hw.of_same hsame h₁, ?_⟩
  rw [← hlen.2]
  by_cases hstr : Stranded (entAt g v d) K (l.length * perClus g) (es.length + 1)
  · -- the slots are given after the end mark
    refine .inr ⟨hstr, fun k hk => hother k (by have := hstr.1; omega) (.inl ?_)⟩
    rcases hgives with ⟨-, hle, hgap⟩ | ⟨rfl, -, hgrow⟩
    · exact absurd hgap (hstr.2.2 idx hle)
    · rw [hi, if_pos (hgrow.mpr hstr.2.1)]
      have := hstr.1
      omega
  · refine .inl ⟨hstr, ?_⟩
    have hcase : i = K ∨ i + es.length < K ∧ ∀ j ≤ es.length, ∃ e ∈ entAt g v d (i + j), Deleted e := by
      rcases hgives with ⟨rfl, hle, hgap⟩ | ⟨rfl, hno, hgrow⟩
      · rw [if_neg (by decide)] at hi
        subst hi
        exact .inr ⟨by omega, fun j hj => hgap j (by omega)⟩
      · refine .inl ?_
        rw [hi]
        split_ifs with hg'
        · by_contra hne
          exact hstr ⟨by omega, hgrow.mp hg', hno⟩
        · rfl
    have hiK : i ≤ K := hcase.elim (fun h => h.le) fun h => by omega
    refine ⟨hcase, fun k hk => hother k (by omega) (.inl hk), fun j hj => ?_, ?_, fun k hk hkK => hother k (by omega) (.inr hk),
      fun k hk hKk hk27 => ?_, by omega, fun e he => (hpart e he).1, ?_⟩
    · rw [hentry j (by omega), List.getElem_append_left hj]
    · rw [hentry es.length (by omega), List.getElem_append_right le_rfl]
      simp
    · rcases Nat.lt_or_ge k (l.length * perClus g) with hlt | hge
      · rw [hother k hlt (.inr hk)]
        exact T.blank k hKk hk27
      · exact hblank k hge hk27 hk
    · obtain ⟨h0, hdel⟩ := (makeShort_isAlias hraw).first
      have hfirst : makeSlot raw (if isDir = true then attrDir else attrArch) 0 c size 0 = raw 0 := makeSlot_name (by omega)
      rw [Considered, hfirst, makeSlot_attr]
      refine ⟨h0, ?_⟩
      rintro (h | h)
      · exact hdel h
      · revert h
        cases isDir <;> decide

/-- A name that `fat32_dir_lookup` reads as it was given. -/
def PlainName (name : Str) : Prop := name.length < nameMax ∧ ∀ c ∈ name, c ≠ 0 ∧ c < 0x80

/-- The entries of such a name are read back as it. -/
theorem decoded_plain (hp : PlainName name) (hraw : (makeShort g d name v).1 = some (raw, x)) {s : Lfn} (hs : s.on = false)
    (idx : ℕ) (attr : UInt8) : decoded idx s (entriesOf name raw x attr c size) = name := by
  cases x with
  | true =>
    rw [decoded_long hp.1 (fun c hc => (hp.2 c hc).1) hs]
    exact (List.map_congr_left fun c hc => if_pos (hp.2 c hc).2).trans (List.map_id name)
  | false => exact (decoded_short hraw hs idx attr c size).1

/-- The entry of a new name, as a lookup sees it. -/
theorem Puts.locIn_new {es : List Bytes} {attr : UInt8} (hP : Puts f f' K idx es e) (T : Tidy f K)
    (hname : ∀ s : Lfn, s.on = false → decoded idx s (es, e) = name) (he : e = makeSlot raw attr 0 c size)
    (hc : c < 2 ^ 32) (hsize : size < 2 ^ 32) : locIn d f' (idx + es.length) e =
      ⟨d, (idx + es.length) * 32, idx * 32, c, size, attr, Vfs.strncpy name nameMax⟩ := by
  have hclus : entClus e = c := by rw [he, entClus_makeSlot hc]
  have hsz : Bytes.load 4 e 28 = size := by
    rw [he, makeSlot, Bytes.load_store_self_of_lt]
    exact hsize
  have hattr : e 11 = attr := by rw [he, makeSlot_attr]
  rw [locIn, hP.runStart_new T _ le_rfl, hclus, hsz, hattr, nameOf, hP.nameOf_new T, hname _ rfl]

/-- **What `fat32_dir_insert` does to the map.** If it succeeds with a name
that was not found, the name is found after, as the entry that it returned,
and every other name is what it was; or the entries are stranded, and every
name is what it was. -/
theorem dirInsert_find (hg : g.Wf) (hq : Quiet v) (h : IsChain g v d l) (hcat : Catalog (entAt g v d) K)
    (T : Tidy (entAt g v d) K) (hN : l.length * perClus g + 21 < 2 ^ 27) (hp : PlainName name) (hc : c < 2 ^ 32)
    (hsize : size < 2 ^ 32) (hnew : find g v d name = none)
    (hrun : dirInsert g d name isDir c size v = (fatOk, o, v')) :
    (¬ Stranded (entAt g v d) K (l.length * perClus g) (needed g d name v) →
      (∃ K', Tidy (entAt g v' d) K' ∧ Catalog (entAt g v' d) K') ∧
      ∀ n, find g v' d n = if nameEq name n = true then o else find g v d n) ∧
    (Stranded (entAt g v d) K (l.length * perClus g) (needed g d name v) →
      Catalog (entAt g v' d) K ∧ ∀ n, find g v' d n = find g v d n) ∧
    o.isSome = true ∧ Quiet v' ∧ (∃ l', IsChain g v' d l') ∧
    ∀ r lr, IsChain g v r lr → (∀ b ∈ lr, b ∉ l) → ∀ k, entAt g v' r k = entAt g v r k := by
  obtain ⟨raw, x, idx, es, e, hraw, hes, ho, hw, hcase⟩ := dirInsert_cases hg hq h T hN hrun
  refine ⟨fun hno => ?_, fun hstr => ?_, by rw [ho]; rfl, hw.quiet, hw.chain, hw.frame⟩
  · have hP := (hcase.resolve_right fun hr => hno hr.1).2
    have hname : ∀ s : Lfn, s.on = false → decoded idx s (es, e) = name := fun s hs => by
      rw [hes]
      exact decoded_plain hp hraw hs idx _
    have he : e = makeSlot raw (if isDir = true then attrDir else attrArch) 0 c size := by
      have := congrArg Prod.snd hes
      exact this
    have hnot := hcat.not_has hq hnew
    have hcat' := hP.catalog T hname hcat hnot
    refine ⟨⟨_, hP.tidy T hname, hcat'⟩, fun n => Option.ext fun loc => ?_⟩
    have hs := hP.splice T
    rw [hcat'.find_iff hw.quiet]
    by_cases hn : nameEq name n = true
    · rw [if_pos hn, ho]
      have hold : ∀ k e', ¬ Has (entAt g v d) K n k e' := fun k e' hk =>
        hnot k e' ⟨hk.lt, hk.ent, hk.considered, nameEq_trans hk.eq (nameEq_symm hn)⟩
      have hloc := hP.locIn_new (d := d) T hname he hc hsize
      constructor
      · rintro ⟨k, e', hk, rfl⟩
        obtain ⟨rfl, rfl, -⟩ := ((hP.has T hname).mp hk).resolve_right (hold k e')
        exact congrArg some hloc.symm
      · intro hl
        exact ⟨_, e, (hP.has T hname).mpr (.inl ⟨rfl, rfl, hn⟩), (Option.some.inj hl).symm.trans hloc.symm⟩
    · rw [if_neg hn, hcat.find_iff hq]
      refine exists_congr fun k => exists_congr fun e' => ?_
      rw [hP.has T hname, or_iff_right fun hr => hn hr.2.2, and_congr_right_iff]
      intro hk
      rw [hs.locIn_eq hk.lt (hP.outside T hk)]
  · have hsame := (hcase.resolve_left fun hl => hl.1 hstr).2
    exact hcat.congr hq hw.quiet hsame

/-! ## Deleting -/

/-- **`fat32_delete_slots`**, on an entry that is there. -/
theorem deleteSlots_marks (hg : g.Wf) (hq : Quiet v) (h : IsChain g v d l) (hO : Orderly (entAt g v d) K)
    (hhas : Has (entAt g v d) K name k e) :
    ∃ v', deleteSlots g d (runStart (entAt g v d) k * 32) (k * 32) v = v' ∧ Quiet v' ∧ IsChain g v' d l ∧
      Marks (entAt g v d) (entAt g v' d) K k e ∧
      ∀ r lr, IsChain g v r lr → (∀ b ∈ lr, b ∉ l) → ∀ k, entAt g v' r k = entAt g v r k := by
  have hlt := hhas.lt
  have hsmall := hO.small
  have hle := runStart_le (f := entAt g v d) k
  obtain ⟨a, ha⟩ : ∃ a, a = runStart (entAt g v d) k := ⟨_, rfl⟩
  rw [← ha] at hle
  have hkN : k < l.length * perClus g := by
    by_contra hge
    have := hhas.ent
    rw [entAt_slot hg hq h (by omega), if_neg hge] at this
    exact absurd this (by simp)
  have hdiv : ∀ x, x * 32 / 32 = x := fun x => Nat.mul_div_cancel x (by norm_num)
  obtain ⟨v', hr, hw, hall⟩ := deleteLoop_quiet hg (k + 1 - a) a (chainInit d) v hq h h.cursor_init (by omega)
    fun j hj => (hasSlot_iff hg).mpr (by omega)
  have hother : ∀ j, j < 2 ^ 27 → j < a ∨ k < j → entAt g v' d j = entAt g v d j := fun j hj hout =>
    hw.entAt_other hg hq h (by omega) hj (by omega)
  refine ⟨v', ?_, hw.touches.quiet hq, h.touches hg hw.touches (by simp),
    ⟨hlt, hhas.ent, hhas.considered, fun j hj => hother j (by omega) (.inl (ha ▸ hj)), fun j h1 h2 => ?_,
      fun j hj hj27 => hother j hj27 (.inr hj)⟩, fun r lr hr hdis => ?_⟩
  · rw [deleteSlots, ← ha, hdiv, hdiv, hr]
  · rw [← ha] at h1
    refine ⟨dirSlot g v' l j, ?_, ?_⟩
    · rw [hw.entAt hg hq h (by omega), if_pos (by omega)]
      rfl
    · have := hall (j - a) (by omega)
      rwa [show a + (j - a) = j by omega] at this
  · exact entAt_frame hg hq hw.touches hr (by simp) hdis

/-- **What `fat32_delete_slots` does to the map**: the name that was found is
not found any more, and every other name is what it was. -/
theorem deleteSlots_find (hg : g.Wf) (hq : Quiet v) (h : IsChain g v d l) (hcat : Catalog (entAt g v d) K)
    (hfind : find g v d name = some loc) :
    ∃ v', deleteSlots g loc.dirClus loc.lfnOff loc.off v = v' ∧ Catalog (entAt g v' d) K ∧
      (Tidy (entAt g v d) K → Tidy (entAt g v' d) K) ∧
      (∀ n, find g v' d n = if nameEq name n = true then none else find g v d n) ∧ Quiet v' ∧ IsChain g v' d l ∧
      ∀ r lr, IsChain g v r lr → (∀ b ∈ lr, b ∉ l) → ∀ k, entAt g v' r k = entAt g v r k := by
  obtain ⟨k, e, hhas, rfl⟩ := (hcat.find_iff hq).mp hfind
  obtain ⟨v', hr, hq', h', hM, hframe⟩ := deleteSlots_marks hg hq h hcat.toOrderly hhas
  have hcat' := hM.catalog hcat
  refine ⟨v', hr, hcat', hM.tidy, fun n => Option.ext fun loc => ?_, hq', h', hframe⟩
  have hs := hM.splice hcat.toOrderly
  rw [hcat'.find_iff hq']
  have hiff : ∀ j e', Has (entAt g v' d) K n j e' ↔ j ≠ k ∧ Has (entAt g v d) K n j e' := fun j e' =>
    hM.has hcat.toOrderly
  by_cases hn : nameEq name n = true
  · rw [if_pos hn]
    refine iff_of_false ?_ (by simp)
    rintro ⟨j, e', hj, -⟩
    obtain ⟨hne, hj⟩ := (hiff j e').mp hj
    exact hne (hcat.single n j e' k e hj ⟨hhas.lt, hhas.ent, hhas.considered, nameEq_trans hhas.eq hn⟩)
  · rw [if_neg hn, hcat.find_iff hq]
    refine exists_congr fun j => exists_congr fun e' => ?_
    rw [hiff, and_assoc]
    constructor
    · rintro ⟨hne, hj, rfl⟩
      exact ⟨hj, hs.locIn_eq hj.lt (hj.outside_run hne) d e'⟩
    · rintro ⟨hj, rfl⟩
      have hne : j ≠ k := by
        rintro rfl
        obtain rfl := Option.some.inj (hj.ent.symm.trans hhas.ent)
        exact hn (nameEq_trans (nameEq_symm hhas.eq) hj.eq)
      exact ⟨hne, hj, (hs.locIn_eq hj.lt (hj.outside_run hne) d e').symm⟩

/-! ## Updating -/

/-- **What `fat32_update_entry` does to the map**: the entry that was found
has the new cluster and size, and every other name is what it was. -/
theorem updateEntry_find (hg : g.Wf) (hq : Quiet v) (h : IsChain g v d l) (hcat : Catalog (entAt g v d) K)
    (hfind : find g v d name = some loc) (hc : c < 2 ^ 32) (hsize : size < 2 ^ 32) :
    ∃ v', updateEntry g loc.dirClus loc.off c size v = (fatOk, v') ∧ Catalog (entAt g v' d) K ∧
      (Tidy (entAt g v d) K → Tidy (entAt g v' d) K) ∧
      (∀ n, find g v' d n = if nameEq name n = true then some { loc with clus := c, size := size } else find g v d n) ∧
      Quiet v' ∧ IsChain g v' d l ∧
      ∀ r lr, IsChain g v r lr → (∀ b ∈ lr, b ∉ l) → ∀ k, entAt g v' r k = entAt g v r k := by
  obtain ⟨k, e, hhas, rfl⟩ := (hcat.find_iff hq).mp hfind
  have hlt := hhas.lt
  have hsmall := hcat.small
  have hent := hhas.ent
  rw [entAt_slot hg hq h (by omega)] at hent
  split_ifs at hent with hkN
  obtain rfl := Option.some.inj hent
  obtain ⟨v', hr, hw, he⟩ := updateEntry_quiet hg hq h ((hasSlot_iff hg).mpr hkN) (by omega) c size
  obtain ⟨e', he'⟩ : ∃ e', e' = setEntry c size (dirSlot g v l k) := ⟨_, rfl⟩
  have hq' := hw.touches.quiet hq
  have hother : ∀ j < 2 ^ 27, j ≠ k → entAt g v' d j = entAt g v d j := by
    intro j hj hne
    rw [hw.entAt hg hq h hj, entAt_slot hg hq h hj]
    split_ifs with hjN
    · have hjhas := (hasSlot_iff hg).mpr hjN
      rw [dirSlot, dirSlot, hw.other _ (place_mem hjhas) _ (hg.place_off _ _).2]
      exact fun hp => hne (hg.place_inj h.nodup hjhas ((hasSlot_iff hg).mpr hkN) hp)
    · rfl
  -- the entry as it is written
  have hcut : ∀ i < 32, cut e' i = e' i := fun i hi => cut_apply hi
  have hfirst : ∀ i < 20, cut e' i = dirSlot g v l k i := fun i hi => by
    rw [hcut i (by omega), he', setEntry_apply c size hi]
  have hS : Sets (entAt g v d) (entAt g v' d) K k (dirSlot g v l k) (cut e') :=
    ⟨hlt, hhas.ent, by rw [hw.entAt hg hq h (by omega), if_pos hkN, he, he'], hhas.considered,
      fun i hi => hfirst i (by omega), hother⟩
  have hO := hcat.toOrderly
  have hclus : entClus (cut e') = c := by rw [entClus_cut, he', entClus_setEntry size hc]
  have hsz : Bytes.load 4 (cut e') 28 = size := by
    rw [Bytes.load_congr fun i hi => hcut (28 + i) (by omega), he', setEntry, Bytes.load_store_self_of_lt]
    exact hsize
  have hloc : locIn d (entAt g v' d) k (cut e') =
      { locIn d (entAt g v d) k (dirSlot g v l k) with clus := c, size := size } := by
    rw [locIn, locIn, hS.nameOf_set hO, (hS.collected_eq hO k hlt.le).2, hclus, hsz, hfirst 11 (by omega)]
  have hcat' := hS.catalog hcat
  refine ⟨v', hr, hcat', hS.tidy, fun n => Option.ext fun loc => ?_, hq', h.touches hg hw.touches (by simp),
    fun r lr hlr hdis => entAt_frame hg hq hw.touches hlr (by simp) hdis⟩
  rw [hcat'.find_iff hq']
  by_cases hn : nameEq name n = true
  · rw [if_pos hn]
    have hbears : Has (entAt g v d) K n k (dirSlot g v l k) :=
      ⟨hlt, hhas.ent, hhas.considered, nameEq_trans hhas.eq hn⟩
    have hnew : Has (entAt g v' d) K n k (cut e') := (hS.has hO).mpr (by rw [if_pos rfl]; exact ⟨rfl, hbears⟩)
    constructor
    · rintro ⟨j, e₁, hj, rfl⟩
      obtain rfl := hcat'.single n j e₁ k _ hj hnew
      obtain rfl := Option.some.inj (hj.ent.symm.trans hnew.ent)
      exact congrArg some hloc.symm
    · intro hl
      exact ⟨k, _, hnew, (Option.some.inj hl).symm.trans hloc.symm⟩
  · rw [if_neg hn, hcat.find_iff hq]
    refine exists_congr fun j => exists_congr fun e₁ => ?_
    rw [hS.has hO]
    have hne : ∀ e₁, Has (entAt g v d) K n j e₁ → j ≠ k := by
      rintro e₁ hj rfl
      obtain rfl := Option.some.inj (hj.ent.symm.trans hhas.ent)
      exact hn (nameEq_trans (nameEq_symm hhas.eq) hj.eq)
    split_ifs with hjk
    · subst hjk
      exact iff_of_false (fun hj => hne _ hj.1.2 rfl) fun hj => hne _ hj.1 rfl
    · rw [and_congr_right_iff]
      intro hj
      rw [locIn, locIn, hS.nameOf_eq hO hj.lt.le, (hS.collected_eq hO j hj.lt.le).2]

end Fat32

end Csos

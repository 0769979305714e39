import Csos.Fat32.Lookup
/-!
# FAT32 — inserting entries

`fat32_dir_insert` looks for room, grows the directory if there is none, and
writes the entries of the long name and the short one. Wherever it writes
them, they lie before the offset `2 ^ 32`, they replace whole slots, and the
short one comes last. That is all that soundness needs: an entry that is
overwritten is lost, but leads nowhere any more.
-/

namespace Csos

namespace Fat32

open Vfs (Str dot slash Plain Normal)

variable {g : Geo} {v v' v₁ : Vol} {a b c d h i j k n r s idx need total : ℕ} {l : List ℕ} {e : Bytes}
  {ch : Chain} {K : Prop} {W X : Set (ℕ × ℕ)} {P P₁ P' : Plan} {name : Str} {es : List Bytes}

/-! ## Names of new entries -/

theorem validChar_ne_dot {x : UInt8} (h : validChar x = true) : x ≠ dot := by
  rintro rfl
  exact absurd h (by decide)

theorem mangle_ne_dot (x : UInt8) : mangle x ≠ dot := by
  rw [mangle]
  split
  · exact validChar_ne_dot ‹_›
  · decide

theorem mangledBase_ne_dot {base : Str} : ∀ x ∈ mangledBase base, x ≠ dot := by
  intro x hx
  rw [mangledBase] at hx
  split at hx
  · revert x
    decide +kernel
  · obtain ⟨y, -, rfl⟩ := List.mem_map.mp hx
    exact mangle_ne_dot y

theorem tildeName_ne_dot {cb ce : Str} (h : ∀ x ∈ cb, x ≠ dot) (i : ℕ) : tildeName cb ce i 0 ≠ dot := by
  rw [tildeName, rawName, if_pos (by omega)]
  have htilde : (0x7e : UInt8) ≠ dot := by decide
  cases cb with
  | nil => simpa using htilde
  | cons y cb =>
    have hy := h y (List.mem_cons_self ..)
    generalize (if 7 < 1 + (digitsLoop 8 i).reverse.length then 1
      else 7 - (digitsLoop 8 i).reverse.length) = hd
    cases hd with
    | zero => simpa using htilde
    | succ hd =>
      rw [List.length_cons, Nat.succ_min_succ, List.take_succ_cons]
      simpa using hy

theorem fitsShort_ne_dot {base ext ext' : Str} (h : fitsShort base ext = true) :
    rawName (base.map upper) ext' 0 ≠ dot := by
  rw [fitsShort, decide_eq_true_eq] at h
  rw [rawName, if_pos (by omega)]
  cases base with
  | nil => exact absurd h.1 (by simp)
  | cons y base =>
    have hy : validChar y = true := by
      have := h.2.2.2.1
      rw [List.all_cons, Bool.and_eq_true] at this
      exact this.1
    intro he
    exact validChar_ne_dot hy (upper_eq_dot (by simpa using he))

/-! ## Reading loops -/

theorem shortExistsLoop_quiet (hg : g.Wf) (hs : Sound g K P X v) (hd : d ∈ P.dirs) (raw : Bytes) :
    ∀ (fuel : ℕ) (ch : Chain) (i : ℕ), Cursor g (P.clusters d) ch →
      ∃ x v', shortExistsLoop g raw fuel ch i v = (x, v') ∧ Same v v' := by
  intro fuel
  induction fuel with
  | zero =>
    intro ch i _
    exact ⟨false, v.hung, rfl, .inr rfl⟩
  | succ fuel ih =>
    intro ch i hcur
    obtain ⟨ch', -, hcur', hread⟩ := entRead_quiet hg hs.quiet (hs.dir_chain hd) hcur i
    rw [shortExistsLoop]
    rcases hread with ⟨-, hr⟩ | ⟨-, hr⟩
    · simp only [hr, ne_eq, not_true_eq_false, if_false]
      split
      · exact ⟨false, v, rfl, .refl v⟩
      split
      · exact ih ch' (i + 1) hcur'
      split
      · exact ⟨true, v, rfl, .refl v⟩
      · exact ih ch' (i + 1) hcur'
    · exact ⟨false, v, by simp only [hr]; rfl, .refl v⟩

theorem shortExists_quiet (hg : g.Wf) (hs : Sound g K P X v) (hd : d ∈ P.dirs) (raw : Bytes) :
    ∃ x v', shortExists g d raw v = (x, v') ∧ Same v v' :=
  shortExistsLoop_quiet hg hs hd raw rounds _ 0 (hs.dir_chain hd).cursor_init

theorem tildeLoop_quiet (hg : g.Wf) (hd : d ∈ P.dirs) {cb : Str} (hcb : ∀ x ∈ cb, x ≠ dot) (ce : Str) :
    ∀ (n i : ℕ) (v : Vol), Sound g K P X v → ∃ o v', tildeLoop g d cb ce n i v = (o, v') ∧ Same v v' ∧
      ∀ raw, o = some raw → raw 0 ≠ dot := by
  intro n
  induction n with
  | zero =>
    intro i v _
    exact ⟨none, v, rfl, .refl v, by simp⟩
  | succ n ih =>
    intro i v hs
    obtain ⟨x, v₁, hr, hsame⟩ := shortExists_quiet hg hs hd (tildeName cb ce i)
    rw [tildeLoop_succ, hr]
    cases x with
    | false =>
      refine ⟨_, v₁, rfl, hsame, fun raw h => ?_⟩
      rw [← Option.some.inj h]
      exact tildeName_ne_dot hcb i
    | true =>
      obtain ⟨o, v', hr', hsame', hraw⟩ := ih (i + 1) v₁ (hsame.sound hs hg)
      exact ⟨o, v', hr', hsame.trans hsame', hraw⟩

/-- **`fat32_make_short`** gives a name that does not begin with a dot. -/
theorem makeShort_quiet (hg : g.Wf) (hs : Sound g K P X v) (hd : d ∈ P.dirs) (name : Str) :
    ∃ o v', makeShort g d name v = (o, v') ∧ Same v v' ∧ ∀ raw x, o = some (raw, x) → raw 0 ≠ dot := by
  -- the names with a tail
  have htilde : ∀ v, Sound g K P X v → ∃ o v',
      Prod.map (Option.map fun raw => (raw, true)) id (tildeLoop g d (mangledBase (splitExt name).1)
        (mangledExt (splitExt name).2) 999 1 v) = ((o, v') : Option (Bytes × Bool) × Vol) ∧
      Same v v' ∧ ∀ raw x, o = some (raw, x) → raw 0 ≠ dot := by
    intro v hs
    obtain ⟨o, v', hr, hsame, hraw⟩ := tildeLoop_quiet hg hd mangledBase_ne_dot
      (mangledExt (splitExt name).2) 999 1 v hs
    refine ⟨_, v', by rw [hr]; rfl, hsame, fun raw x h => ?_⟩
    obtain ⟨raw', ho, hp⟩ := Option.map_eq_some_iff.mp h
    cases hp
    exact hraw raw ho
  rw [makeShort]
  simp only
  split
  · rename_i hfit
    obtain ⟨x, v₁, hr, hsame⟩ := shortExists_quiet hg hs hd
      (rawName ((splitExt name).1.map upper) ((splitExt name).2.map upper))
    rw [hr]
    cases x with
    | false =>
      refine ⟨_, v₁, rfl, hsame, fun raw x h => ?_⟩
      cases h
      exact fitsShort_ne_dot hfit
    | true =>
      obtain ⟨o, v', hr', hsame', hraw⟩ := htilde v₁ (hsame.sound hs hg)
      exact ⟨o, v', hr', hsame.trans hsame', hraw⟩
  · exact htilde v hs

/-! ## Room for the entries -/

/-- The rounds of `fat32_find_slots`. -/
theorem findLoop_quiet (hg : g.Wf) (hs : Sound g K P X v) (hd : d ∈ P.dirs) (need total : ℕ) :
    ∀ (fuel : ℕ) (ch : Chain) (i run start : ℕ), Cursor g (P.clusters d) ch → ch.start = d →
      start ≤ i →
      ∃ idx grow ch', findLoop g need total fuel ch i run start v = (fatOk, idx, grow, ch', v) ∧
        idx ≤ i + fuel ∧ Cursor g (P.clusters d) ch' ∧ ch'.start = d := by
  intro fuel
  induction fuel with
  | zero =>
    intro ch i run start hcur hst _
    exact ⟨i, true, ch, rfl, le_rfl, hcur, hst⟩
  | succ fuel ih =>
    intro ch i run start hcur hst hle
    rw [findLoop]
    split
    · exact ⟨i, true, ch, rfl, by omega, hcur, hst⟩
    obtain ⟨ch', hst', hcur', hread⟩ := entRead_quiet hg hs.quiet (hs.dir_chain hd) hcur i
    rw [hst] at hst'
    -- the next entry
    have hnext : ∀ run' start', start' ≤ i + 1 → ∃ idx grow ch'',
        findLoop g need total fuel ch' (i + 1) run' start' v = (fatOk, idx, grow, ch'', v) ∧
        idx ≤ i + (fuel + 1) ∧ Cursor g (P.clusters d) ch'' ∧ ch''.start = d := by
      intro run' start' hle'
      obtain ⟨idx, grow, ch'', hr, hi, hc, hs⟩ := ih ch' (i + 1) run' start' hcur' hst' hle'
      exact ⟨idx, grow, ch'', hr, by omega, hc, hs⟩
    rcases hread with ⟨-, hr⟩ | ⟨-, hr⟩
    case inr => exact ⟨i, true, ch', by simp only [hr, if_true], by omega, hcur', hst'⟩
    have hne : (fatOk : ℤ) ≠ errEof := by decide
    simp only [hr, hne, if_false, ne_eq, not_true_eq_false]
    split
    · exact ⟨i, _, ch', rfl, by omega, hcur', hst'⟩
    split
    · split
      · refine ⟨_, _, ch', rfl, ?_, hcur', hst'⟩
        split <;> omega
      · refine hnext _ _ ?_
        split <;> omega
    · exact hnext _ _ (by omega)

/-- What has been added to the plan and the volume is blank. -/
structure Extends (g : Geo) (P : Plan) (v : Vol) (P' : Plan) (v' : Vol) : Prop where
  dirs : P'.dirs = P.dirs
  files : P'.files = P.files
  slots : ∀ r b j, P'.At g r b j →
    P.At g r b j ∧ slot g v' b j = slot g v b j ∨ slot g v' b j 0 = 0

theorem Extends.of_same (h : Same v v') : Extends g P v P v' :=
  ⟨rfl, rfl, fun _ _ _ ha => .inl ⟨ha, by rw [h.slot]⟩⟩

theorem Extends.trans (h : Extends g P v P₁ v₁) (h' : Extends g P₁ v₁ P' v') : Extends g P v P' v' := by
  refine ⟨h'.dirs.trans h.dirs, h'.files.trans h.files, fun r b j ha => ?_⟩
  rcases h'.slots r b j ha with ⟨ha₁, he₁⟩ | hb
  · rcases h.slots r b j ha₁ with ⟨ha₀, he₀⟩ | hb
    · exact .inl ⟨ha₀, he₁.trans he₀⟩
    · exact .inr (by rw [he₁, hb])
  · exact .inr hb

/-- No entry leads to `c`. -/
def Unnamed (g : Geo) (P : Plan) (v : Vol) (c : ℕ) : Prop :=
  ∀ d b j, P.At g d b j → Live (slot g v b j) → entClus (slot g v b j) ≠ c

theorem Unnamed.extends (h : Unnamed g P v c) (hx : Extends g P v P' v') : Unnamed g P' v' c := by
  intro d b j ha hl
  rcases hx.slots d b j ha with ⟨ha₀, he⟩ | hb
  · rw [he] at hl ⊢
    exact h d b j ha₀ hl
  · exact absurd hl (not_live_of_blank hb)

/-- **`fat32_dir_grow`** links a blank cluster to the directory, or there is
none. -/
theorem dirGrow_quiet (hg : g.Wf) (hs : Sound g K P X v) (hd : d ∈ P.dirs)
    (hcur : Cursor g (P.clusters d) ch) (hst : ch.start = d) :
    (∃ ch', dirGrow g ch v = (errNospc, 0, ch', v) ∧ Cursor g (P.clusters d) ch' ∧ ch'.start = d) ∨
    ∃ c ch' v', dirGrow g ch v = (fatOk, (P.grow d c |>.clusters d).length * g.clusBytes % 2 ^ 32, ch', v') ∧
      Sound g K (P.grow d c) X v' ∧ Extends g P v (P.grow d c) v' ∧
      Cursor g ((P.grow d c).clusters d) ch' ∧ ch'.start = d := by
  obtain ⟨hch, hne⟩ := hs.chain d (.inl hd)
  obtain ⟨l, k, hl⟩ : ∃ l k, P.clusters d = l ++ [k] :=
    ⟨_, _, (List.dropLast_append_getLast hne).symm⟩
  have hlen : (P.clusters d).length = l.length + 1 := by simp [hl]
  have hmax := hch.length_le hg
  have hmarks := hg.marks
  have hself : ∀ c, (P.grow d c).clusters d = P.clusters d ++ [c] := fun c => Function.update_self ..
  have hlast : (P.clusters d)[l.length]?.getD 0 = k := by simp [hl]
  have hkv : clusValid g k = true := hch.valid (by simp [hl])
  obtain ⟨ch₁, hr₁, hst₁, hcur₁⟩ := chainAt_quiet hs.quiet hch hcur l.length
  rw [hlast] at hr₁
  have hcount : chainCount g ch v = ((P.clusters d).length, v) :=
    chainCount_quiet hg hs.quiet (by rw [hst]; exact hch)
  have hidx : ((P.clusters d).length + (2 ^ 32 - 1)) % 2 ^ 32 = l.length := by omega
  rw [dirGrow, hcount]
  dsimp only
  rw [hidx, hr₁]
  dsimp only
  rw [if_neg (not_not.mpr hkv)]
  rcases allocCluster_quiet hg hs.quiet with ⟨hr, -⟩ | ⟨c, v₁, hr, hT⟩
  · refine .inl ⟨ch₁, ?_, hcur₁, hst₁.trans hst⟩
    simp [hr, clusValid]
  · obtain ⟨v', hr₂, hs', hch', hslot, hblank⟩ := hs.link hg hT (.inl hd) hl
    refine .inr ⟨c, { ch₁ with cacheOk := false }, v', ?_, hs', ?_, ?_, hst₁.trans hst⟩
    · simp only [hr, hT.valid, not_true_eq_false, if_false, hr₂, ne_eq, hself, List.length_append, hlen,
        List.length_singleton]
    · refine ⟨rfl, rfl, fun r b j ha => ?_⟩
      have hmem : b ∈ P.clusters r ∨ b = c := by
        by_cases hrd : r = d
        · have := ha.2.1
          rw [hrd, hself, List.mem_append, List.mem_singleton] at this
          exact hrd ▸ this
        · have hold : (P.grow d c).clusters r = P.clusters r := Function.update_of_ne hrd _ _
          exact .inl (hold ▸ ha.2.1)
      rcases hmem with hb | rfl
      · have hbv := (hs.dir_chain ha.1).valid hb
        exact .inl ⟨⟨ha.1, hb, ha.2.2⟩, hslot b j hbv
          (fun he => hs.taken_new hT r (.inl ha.1) (he ▸ hb)) ha.2.2⟩
      · exact .inr (hblank j ha.2.2)
    · refine ⟨?_, by simp⟩
      rw [hself, ← hch'.head]
      simp only [hst₁, hst]

/-- The rounds of `fat32_dir_insert` that make room. -/
theorem growLoop_quiet (hg : g.Wf) (idx need : ℕ) :
    ∀ (fuel total : ℕ) (ch : Chain) (P : Plan) (v : Vol), d ∈ P.dirs → Sound g K P X v →
      Cursor g (P.clusters d) ch → ch.start = d → total ≤ (P.clusters d).length * g.clusBytes →
      total < 2 ^ 32 →
      ∃ rc ch' P' v', growLoop g idx need fuel total ch v = (rc, ch', v') ∧ Sound g K P' X v' ∧
        Extends g P v P' v' ∧ Cursor g (P'.clusters d) ch' ∧ ch'.start = d ∧
        (rc = fatOk → (idx + need) % 2 ^ 32 * 32 ≤ (P'.clusters d).length * g.clusBytes ∧
          (idx + need) % 2 ^ 32 * 32 < 2 ^ 32) := by
  intro fuel
  induction fuel with
  | zero =>
    intro total ch P v _ hs hcur hst _ _
    exact ⟨errIo, ch, P, v.hung, rfl, hs.hung hg, .of_same (.inr rfl), hcur, hst,
      fun h => absurd h (by decide)⟩
  | succ fuel ih =>
    intro total ch P v hd hs hcur hst htot hlt
    rw [growLoop]
    split
    · rename_i hle
      exact ⟨fatOk, ch, P, v, rfl, hs, .of_same (.refl v), hcur, hst, fun _ => ⟨by omega, by omega⟩⟩
    rcases dirGrow_quiet hg hs hd hcur hst with
      ⟨ch', hr, hcur', hst'⟩ | ⟨c, ch', v₁, hr, hs₁, hx, hcur₁, hst₁⟩
    · -- no cluster is left
      rw [hr]
      dsimp only
      rw [if_pos (by decide)]
      exact ⟨errNospc, ch', P, v, rfl, hs, .of_same (.refl v), hcur', hst', fun h => absurd h (by decide)⟩
    · rw [hr]
      dsimp only
      rw [if_neg (by decide)]
      obtain ⟨rc, ch₂, P', v', hr', hs', hx', hcur', hst', hroom⟩ := ih _ ch' (P.grow d c) v₁ hd hs₁ hcur₁
        hst₁ (Nat.mod_le _ _) (Nat.mod_lt _ (by norm_num))
      exact ⟨rc, ch₂, P', v', hr', hs', hx.trans hx', hcur', hst', hroom⟩

/-! ## Writing the entries -/

/-- The places of `n` slots from `idx` on. -/
def group (g : Geo) (l : List ℕ) (idx n : ℕ) : Set (ℕ × ℕ) := {p | ∃ i < n, p = place g l (idx + i)}

/-- The writes of `fat32_dir_insert`. -/
theorem writeSlots_quiet (hg : g.Wf) : ∀ (es : List Bytes) (idx : ℕ) (ch : Chain) (v : Vol),
    Quiet v → IsChain g v s l → Cursor g l ch → (∀ i < es.length, HasSlot g l (idx + i)) →
    idx + es.length ≤ 2 ^ 27 →
    ∃ v', writeSlots g es idx ch v = (fatOk, v') ∧ Rewrites g l (group g l idx es.length) v v' ∧
      ∀ i (hi : i < es.length), dirSlot g v' l (idx + i) = cut es[i] := by
  intro es
  induction es with
  | nil =>
    intro idx ch v _ _ _ _ _
    exact ⟨v, rfl, .refl g l v, fun i hi => absurd hi (by simp)⟩
  | cons e es ih =>
    intro idx ch v hq hch hcur hhas hend
    rw [List.length_cons] at hend hhas
    have hmod : idx % 2 ^ 27 = idx := Nat.mod_eq_of_lt (by omega)
    have h0 : HasSlot g l idx := hhas 0 (by omega)
    obtain ⟨ch₁, v₁, hr₁, -, hcur₁, hw₁, he₁⟩ := entWrite_quiet hg hq hch hcur
      (show HasSlot g l (idx % 2 ^ 27) by rw [hmod]; exact h0) e
    rw [hmod] at hw₁ he₁
    obtain ⟨v', hr, hw, hall⟩ := ih (idx + 1) ch₁ v₁ (hw₁.touches.quiet hq)
      (hch.touches hg hw₁.touches (by simp)) hcur₁
      (fun i hi => by
        have := hhas (i + 1) (by omega)
        rwa [show idx + (i + 1) = idx + 1 + i by omega] at this) (by omega)
    refine ⟨v', ?_, (hw₁.trans hw).mono ?_, fun i hi => ?_⟩
    · rw [writeSlots, hr₁]
      exact hr
    · rintro p (rfl | ⟨i, hi, rfl⟩)
      · exact ⟨0, by simp, rfl⟩
      · exact ⟨i + 1, by simpa using hi, by rw [show idx + 1 + i = idx + (i + 1) by omega]⟩
    · cases i with
      | zero =>
        -- the entries after this one are at other places
        rw [Nat.add_zero, List.getElem_cons_zero, ← he₁]
        refine hw.other _ (place_mem h0) _ (hg.place_off _ _).2 ?_
        rintro ⟨i, hi', he⟩
        have := hg.place_inj hch.nodup h0 (by
          have := hhas (i + 1) (by omega)
          rwa [show idx + (i + 1) = idx + 1 + i by omega] at this) he
        omega
      | succ i =>
        rw [show idx + (i + 1) = idx + 1 + i by omega]
        exact hall i (by simpa using hi)

/-! ## What the entries are -/

theorem cut_isEntry : IsEntry (cut e) ↔ IsEntry e := by
  rw [IsEntry, IsEntry, cut_apply (by omega), cut_apply (by omega)]

theorem cut_isDot : IsDot (cut e) ↔ IsDot e := by
  have hcut : ∀ b : Bytes, (∀ i < 11, cut e i = b i) ↔ ∀ i < 11, e i = b i := fun b =>
    forall₂_congr fun i hi => by rw [cut_apply (by omega)]
  rw [IsDot, IsDot, cut_isEntry, hcut, hcut]

theorem cut_isLfn : IsLfn (cut e) ↔ IsLfn e := by
  rw [IsLfn, IsLfn, cut_apply (by omega), cut_apply (by omega)]

theorem entClus_cut (e : Bytes) : entClus (cut e) = entClus e := by
  rw [entClus, entClus, Bytes.load_congr fun i hi => cut_apply (by omega),
    Bytes.load_congr fun i hi => cut_apply (by omega)]

/-- The entries of a long name are none of their own. -/
theorem buildLfn_attr {raw : Bytes} (h : e ∈ buildLfn name raw) : e 11 = attrLfn := by
  obtain ⟨i, -, rfl⟩ := List.mem_map.mp h
  rw [lfnEntry]
  rw [Function.update_of_ne (by decide), Function.update_self]

theorem entClus_makeSlot {raw : Bytes} {attr nt : UInt8} {clus size : ℕ} (h : clus < 2 ^ 32) :
    entClus (makeSlot raw attr nt clus size) = clus := by
  have hlo : Bytes.load 2 (makeSlot raw attr nt clus size) 26 = clus % 2 ^ 16 := by
    rw [makeSlot]
    rw [Bytes.load_store_of_disjoint (by omega), Bytes.load_store_self_of_lt]
    omega
  have hhi : Bytes.load 2 (makeSlot raw attr nt clus size) 20 = clus / 2 ^ 16 % 2 ^ 16 := by
    rw [makeSlot]
    rw [Bytes.load_store_of_disjoint (by omega), Bytes.load_store_of_disjoint (by omega),
      Bytes.load_store_of_disjoint (by omega), Bytes.load_store_of_disjoint (by omega),
      Bytes.load_store_self_of_lt]
    omega
  rw [entClus, hlo, hhi]
  omega

/-- A new entry is not `.` or `..`. -/
theorem not_isDot_makeSlot {raw : Bytes} {attr nt : UInt8} {clus size : ℕ} (h : raw 0 ≠ dot) :
    ¬ IsDot (makeSlot raw attr nt clus size) := by
  have h1 : dots 1 0 = dot := by decide
  have h2 : dots 2 0 = dot := by decide
  rintro ⟨-, hd | hd⟩
  · exact h ((makeSlot_name (by omega)).symm.trans ((hd 0 (by omega)).trans h1))
  · exact h ((makeSlot_name (by omega)).symm.trans ((hd 0 (by omega)).trans h2))

end Fat32

end Csos

import Csos.Fat32.Mount
import Csos.Fat32.Scan
/-!
# FAT32 — short names

What `fat32_make_short` returns: a valid short name that no entry of the
directory has. It tries the name itself and then 999 names with a numbered
tail, which are pairwise different because the last `~` of each parts it
into a head and its number.
-/

namespace Csos

namespace Fat32

open Vfs (Str dot)

variable {g : Geo} {v v' : Vol} {d i j k m n t : ℕ} {e raw : Bytes} {base ext cb ce name l l' : Str}
  {c : UInt8}

/-! ## Characters -/

/-- A fact about each of the 256 bytes. -/
theorem byte_cases {p : UInt8 → Prop} (h : ∀ n < 256, p (UInt8.ofNat n)) (c : UInt8) : p c := by
  have hc := h c.toNat c.toNat_lt
  rwa [UInt8.ofNat_toNat] at hc

/-- A character of a short name: a valid one, and no lower case letter. -/
def ShortChar (c : UInt8) : Prop := validChar c = true ∧ ¬ (0x61 ≤ c ∧ c ≤ 0x7a)

instance : DecidablePred ShortChar := fun _ => inferInstanceAs (Decidable (_ ∧ _))

theorem shortChar_upper (h : validChar c = true) : ShortChar (upper c) := by
  revert h
  exact byte_cases (p := fun c => validChar c = true → ShortChar (upper c)) (by decide +kernel) c

theorem shortChar_mangle (c : UInt8) : ShortChar (mangle c) :=
  byte_cases (p := fun c => ShortChar (mangle c)) (by decide +kernel) c

theorem ShortChar.ne_space (h : ShortChar c) : c ≠ space := by
  rintro rfl
  exact absurd h (by decide)

/-- **A short name**: a base of one to eight characters and an extension of
up to three, padded with spaces. -/
def IsAlias (raw : Bytes) : Prop :=
  ∃ base ext : Str, 1 ≤ base.length ∧ base.length ≤ 8 ∧ ext.length ≤ 3 ∧
    (∀ c ∈ base, ShortChar c) ∧ (∀ c ∈ ext, ShortChar c) ∧ ∀ i < 11, raw i = rawName base ext i

/-! ## Numbers -/

/-- A digit. -/
def IsDigit (c : UInt8) : Prop := ∃ m < 10, c = UInt8.ofNat (0x30 + m)

theorem digitsLoop_digits (n t : ℕ) : ∀ c ∈ digitsLoop n t, IsDigit c := by
  induction n generalizing t with
  | zero => simp [digitsLoop]
  | succ n ih =>
    intro c hc
    rw [digitsLoop] at hc
    split_ifs at hc
    · exact absurd hc (by simp)
    · rcases List.mem_cons.mp hc with rfl | hc
      · exact ⟨t % 10, Nat.mod_lt _ (by omega), rfl⟩
      · exact ih _ c hc

theorem IsDigit.shortChar (h : IsDigit c) : ShortChar c := by
  obtain ⟨m, hm, rfl⟩ := h
  revert m
  decide

theorem IsDigit.ne_tilde (h : IsDigit c) : c ≠ 0x7e := by
  obtain ⟨m, hm, rfl⟩ := h
  revert m
  decide

theorem digit_inj (hm : m < 10) (hn : n < 10) (h : UInt8.ofNat (0x30 + m) = UInt8.ofNat (0x30 + n)) :
    m = n := by
  have := congrArg UInt8.toNat h
  simp only [UInt8.toNat_ofNat'] at this
  omega

theorem digitsLoop_length (n t : ℕ) (k : ℕ) (h : t < 10 ^ k) : (digitsLoop n t).length ≤ k := by
  induction n generalizing t k with
  | zero => simp [digitsLoop]
  | succ n ih =>
    rw [digitsLoop]
    split_ifs with h0
    · simp
    · cases k with
      | zero => omega
      | succ k =>
        have := ih (t / 10) k (by rw [pow_succ] at h; omega)
        rw [List.length_cons]
        omega

/-- The digits tell the number. -/
theorem digitsLoop_inj (hm : m < 10 ^ n) (ht : t < 10 ^ n) (h : digitsLoop n m = digitsLoop n t) :
    m = t := by
  induction n generalizing m t with
  | zero =>
    rw [pow_zero] at hm ht
    omega
  | succ n ih =>
    rw [digitsLoop, digitsLoop] at h
    rw [pow_succ] at hm ht
    split_ifs at h with h1 h2 h2
    · omega
    · obtain ⟨hd, hrest⟩ := List.cons.inj h
      have hlow := digit_inj (Nat.mod_lt m (by omega)) (Nat.mod_lt t (by omega)) hd
      have hhigh := ih (by omega) (by omega) hrest
      omega

/-! ## The numbered names -/

/-- The digits of a number, most significant first. -/
def number (i : ℕ) : Str := (digitsLoop 8 i).reverse

theorem number_length (h : i < 1000) : (number i).length ≤ 3 := by
  rw [number, List.length_reverse]
  exact digitsLoop_length 8 i 3 h

/-- The base of a numbered name. -/
def tildeBase (cb : Str) (i : ℕ) : Str := cb.take (7 - (number i).length) ++ 0x7e :: number i

theorem tildeName_eq (cb ce : Str) (h : i < 1000) : tildeName cb ce i = rawName (tildeBase cb i) (ce.take 3) := by
  have hlen := number_length h
  rw [tildeName, tildeBase]
  change rawName (cb.take (min cb.length (if 7 < 1 + (number i).length then 1 else 7 - (number i).length)) ++
    0x7e :: (number i).take (8 - (min cb.length (if 7 < 1 + (number i).length then 1
      else 7 - (number i).length) + 1))) (ce.take 3) = _
  rw [if_neg (by omega), List.take_of_length_le (l := number i) (by omega), Nat.min_comm, ← List.take_eq_take_min]

theorem tildeBase_length (cb : Str) (h : i < 1000) : (tildeBase cb i).length ≤ 8 := by
  have hlen := number_length h
  rw [tildeBase, List.length_append, List.length_take, List.length_cons]
  omega

theorem tildeBase_shortChar (hcb : ∀ c ∈ cb, ShortChar c) : ∀ c ∈ tildeBase cb i, ShortChar c := by
  intro c hc
  rcases List.mem_append.mp hc with hc | hc
  · exact hcb c (List.mem_of_mem_take hc)
  · rcases List.mem_cons.mp hc with rfl | hc
    · decide
    · exact (digitsLoop_digits 8 i c (List.mem_reverse.mp hc)).shortChar

/-- A padded list without spaces tells what it is. -/
theorem eq_of_padded {n : ℕ} (hl : l.length ≤ n) (hl' : l'.length ≤ n) (hs : ∀ c ∈ l, c ≠ space)
    (hs' : ∀ c ∈ l', c ≠ space) (h : ∀ x < n, l.getD x space = l'.getD x space) : l = l' := by
  refine List.ext_getElem? fun x => ?_
  by_cases hx : x < n
  · have hx' := h x hx
    rw [List.getD_eq_getElem?_getD, List.getD_eq_getElem?_getD] at hx'
    rcases ha : l[x]? with _ | a <;> rcases hb : l'[x]? with _ | b <;> rw [ha, hb] at hx'
    · exact absurd hx'.symm (hs' b (List.mem_of_getElem? hb))
    · exact absurd hx' (hs a (List.mem_of_getElem? ha))
    · exact congrArg some hx'
  · rw [List.getElem?_eq_none (by omega), List.getElem?_eq_none (by omega)]

/-- What follows the last `~`. -/
theorem after_tilde (cb : Str) (i : ℕ) : (tildeBase cb i).rtakeWhile (· ≠ 0x7e) = number i := by
  have hall : ∀ c ∈ digitsLoop 8 i, decide (c ≠ 0x7e) = true := fun c hc =>
    decide_eq_true (digitsLoop_digits 8 i c hc).ne_tilde
  rw [tildeBase, List.rtakeWhile, List.reverse_append, List.reverse_cons, number, List.reverse_reverse,
    List.append_assoc, List.takeWhile_append_of_pos hall, List.singleton_append,
    List.takeWhile_cons_of_neg (by simp), List.append_nil]

/-- **The numbered names are pairwise different.** -/
theorem tildeName_inj (hcb : ∀ c ∈ cb, ShortChar c) (hi : i < 1000) (hj : j < 1000)
    (h : ∀ x < 11, tildeName cb ce i x = tildeName cb ce j x) : i = j := by
  have hbase : tildeBase cb i = tildeBase cb j := by
    refine eq_of_padded (tildeBase_length cb hi) (tildeBase_length cb hj)
      (fun c hc => (tildeBase_shortChar hcb c hc).ne_space)
      (fun c hc => (tildeBase_shortChar hcb c hc).ne_space) fun x hx => ?_
    have hx' := h x (by omega)
    rwa [tildeName_eq cb ce hi, tildeName_eq cb ce hj, rawName, rawName, if_pos hx, if_pos hx] at hx'
  have hnum : number i = number j := by rw [← after_tilde cb i, hbase, after_tilde]
  refine digitsLoop_inj (n := 8) (by omega) (by omega) ?_
  rw [← List.reverse_inj]
  exact hnum

theorem mangledBase_shortChar (base : Str) : ∀ c ∈ mangledBase base, ShortChar c := by
  intro c hc
  rw [mangledBase] at hc
  split_ifs at hc
  · revert c
    decide +kernel
  · obtain ⟨x, -, rfl⟩ := List.mem_map.mp hc
    exact shortChar_mangle x

/-- Numbered names are short names. -/
theorem isAlias_tildeName (base ext : Str) (h : i < 1000) :
    IsAlias (tildeName (mangledBase base) (mangledExt ext) i) := by
  have hshort := tildeBase_shortChar (i := i) (mangledBase_shortChar base)
  refine ⟨tildeBase (mangledBase base) i, (mangledExt ext).take 3, ?_, tildeBase_length _ h,
    List.length_take_le _ _, hshort, fun c hc => ?_, fun x _ => by rw [tildeName_eq _ _ h]⟩
  · rw [tildeBase, List.length_append, List.length_cons]
    omega
  · obtain ⟨x, -, rfl⟩ := List.mem_map.mp (List.mem_of_mem_take hc)
    exact shortChar_mangle x

/-- A name that is a short name up to case. -/
theorem isAlias_upper (h : fitsShort base ext = true) : IsAlias (rawName (base.map upper) (ext.map upper)) := by
  rw [fitsShort, decide_eq_true_eq] at h
  obtain ⟨h1, h8, h3, hbase, hext⟩ := h
  have hmap : ∀ l : Str, l.all validChar = true → ∀ c ∈ l.map upper, ShortChar c := by
    intro l hl c hc
    obtain ⟨x, hx, rfl⟩ := List.mem_map.mp hc
    exact shortChar_upper (List.all_eq_true.mp hl x hx)
  exact ⟨base.map upper, ext.map upper, by rwa [List.length_map], by rwa [List.length_map],
    by rwa [List.length_map], hmap base hbase, hmap ext hext, fun _ _ => rfl⟩

/-! ## The directory -/

/-- An entry that is in use, before the end marker. -/
def InUse (g : Geo) (v : Vol) (d k : ℕ) (e : Bytes) : Prop :=
  Reaches g v d (k + 1) ∧ entAt g v d k = some e ∧ e 0 ≠ 0xe5 ∧ e 11 ≠ attrLfn

/-- The entry has this 11-byte name. -/
def Bears (e raw : Bytes) : Prop := ∀ i < 11, e i = raw i

/-- No entry of the directory has the name. -/
def IsNew (g : Geo) (v : Vol) (d : ℕ) (raw : Bytes) : Prop := ∀ k e, InUse g v d k e → ¬ Bears e raw

/-- Offsets wrap, so an entry in use is one below offset `2 ^ 32`. -/
theorem InUse.wrap (h : InUse g v d k e) : InUse g v d (k % 2 ^ 27) e :=
  ⟨h.1.mono (Nat.succ_le_succ (Nat.mod_le _ _)), by rw [entAt_mod]; exact h.2.1, h.2.2⟩

/-- An entry that settles nothing is no stop, and does not have the name. -/
theorem existsAt_none (h : existsAt raw (entAt g v d k) = none) :
    ¬ Stops g v d k ∧ ∀ e, entAt g v d k = some e → e 0 ≠ 0xe5 → e 11 ≠ attrLfn → ¬ Bears e raw := by
  rcases he : entAt g v d k with _ | e <;> rw [he] at h
  · exact absurd h (by simp [existsAt])
  rw [existsAt] at h
  split_ifs at h with h0 h5 hall
  · refine ⟨not_stops_iff.mpr ⟨e, he, h0⟩, fun e' he' hn5 hn11 => ?_⟩
    obtain rfl := Option.some.inj he'
    exact absurd h5 (not_or.mpr ⟨hn5, hn11⟩)
  · refine ⟨not_stops_iff.mpr ⟨e, he, h0⟩, fun e' he' _ _ hb => hall fun i hi => ?_⟩
    obtain rfl := Option.some.inj he'
    exact hb i (List.mem_range.mp hi)

/-- An entry that is taken for the name has it. -/
theorem existsAt_true {o : Option Bytes} (h : existsAt raw o = some true) :
    ∃ e, o = some e ∧ e 0 ≠ 0 ∧ e 0 ≠ 0xe5 ∧ e 11 ≠ attrLfn ∧ Bears e raw := by
  rcases o with _ | e
  · exact absurd h (by simp [existsAt])
  rw [existsAt] at h
  split_ifs at h with h0 h5 hall
  · exact absurd h (by simp)
  · obtain ⟨hn5, hn11⟩ := not_or.mp h5
    exact ⟨e, rfl, h0, hn5, hn11, fun i hi => hall i (List.mem_range.mpr hi)⟩

/-- An entry that ends the search without the name is a stop. -/
theorem existsAt_false (h : existsAt raw (entAt g v d k) = some false) : Stops g v d k := by
  intro e he
  rw [Option.mem_def.mp he, existsAt] at h
  split_ifs at h with h0
  · exact h0
  · exact absurd h (by simp)

/-- **`fat32_short_exists`** says whether an entry has the name, if it
returns. -/
theorem shortExists_eq (hq : Quiet v) (d : ℕ) (raw : Bytes) :
    (shortExists g d raw v = (true, v) ∧ ∃ k e, InUse g v d k e ∧ Bears e raw) ∨
    (shortExists g d raw v = (false, v) ∧ IsNew g v d raw) ∨ shortExists g d raw v = (false, v.hung) := by
  rcases (shortExists_searches hq d raw).cases ⟨rfl, cached_init d⟩ rounds with
    ⟨k, r, -, -, hbefore, hk, hr⟩ | ⟨-, hout⟩
  case inr => exact .inr (.inr hout)
  have hnone : ∀ j < k, existsAt raw (entAt g v d j) = none :=
    fun j hj => Option.map_eq_none_iff.mp (hbefore j (Nat.zero_le j) hj)
  have hreach : Reaches g v d k := fun j hj => (existsAt_none (hnone j hj)).1
  obtain ⟨b, hb, rfl⟩ := Option.map_eq_some_iff.mp hk
  cases b with
  | true =>
    obtain ⟨e, he, h0, hn5, hn11, hbears⟩ := existsAt_true hb
    exact .inl ⟨hr, k, e, ⟨hreach.succ (not_stops_iff.mpr ⟨e, he, h0⟩), he, hn5, hn11⟩, hbears⟩
  | false =>
    refine .inr (.inl ⟨hr, fun j e hin hbears => ?_⟩)
    -- the search has stopped at the end of the directory, so it has seen the entry
    have hjk : j < k := by
      by_contra hge
      exact hin.1 k (by omega) (existsAt_false hb)
    exact (existsAt_none (hnone j hjk)).2 e hin.2.1 hin.2.2.1 hin.2.2.2 hbears

/-! ## Making a short name -/

/-- The numbered names that `fat32_make_short` tries. -/
def candidate (name : Str) (i : ℕ) : Bytes :=
  tildeName (mangledBase (splitExt name).1) (mangledExt (splitExt name).2) i

/-- The loop over the numbered names, if it returns: the first one that is
new, or all of them are in the directory. -/
theorem tildeLoop_eq (hq : Quiet v) (d : ℕ) (cb ce : Str) (n i : ℕ)
    (hh : (tildeLoop g d cb ce n i v).2.hang = false) :
    (∃ j, i ≤ j ∧ j < i + n ∧ tildeLoop g d cb ce n i v = (some (tildeName cb ce j), v) ∧
      IsNew g v d (tildeName cb ce j)) ∨
    (tildeLoop g d cb ce n i v = (none, v) ∧
      ∀ j, i ≤ j → j < i + n → ∃ k e, InUse g v d k e ∧ Bears e (tildeName cb ce j)) := by
  induction n generalizing i with
  | zero => exact .inr ⟨rfl, fun j h1 h2 => by omega⟩
  | succ n ih =>
    have hex := shortExists_eq (g := g) hq d (tildeName cb ce i)
    rw [tildeLoop_succ] at hh ⊢
    generalize shortExists g d (tildeName cb ce i) v = r at hex hh ⊢
    rcases hex with ⟨rfl, hold⟩ | ⟨rfl, hnew⟩ | rfl
    · rcases ih (i + 1) hh with ⟨j, h1, h2, hj⟩ | ⟨hrest, hall⟩
      · exact .inl ⟨j, by omega, by omega, hj⟩
      · refine .inr ⟨hrest, fun j h1 h2 => ?_⟩
        rcases Nat.eq_or_lt_of_le h1 with rfl | hlt
        · exact hold
        · exact hall j hlt (by omega)
    · exact .inl ⟨i, le_rfl, by omega, rfl, hnew⟩
    · exact absurd hh (by simp [Vol.hung])

/-- The name itself, or the numbered names. -/
theorem makeShort_cases (hq : Quiet v) (d : ℕ) (name : Str)
    (hh : (makeShort g d name v).2.hang = false) :
    (fitsShort (splitExt name).1 (splitExt name).2 = true ∧
      makeShort g d name v = (some (rawName ((splitExt name).1.map upper) ((splitExt name).2.map upper),
        name.any fun c => 0x61 ≤ c ∧ c ≤ 0x7a), v) ∧
      IsNew g v d (rawName ((splitExt name).1.map upper) ((splitExt name).2.map upper))) ∨
    (∃ j, 1 ≤ j ∧ j < 1000 ∧ makeShort g d name v = (some (candidate name j, true), v) ∧
      IsNew g v d (candidate name j)) ∨
    (makeShort g d name v = (none, v) ∧
      ∀ j, 1 ≤ j → j < 1000 → ∃ k e, InUse g v d k e ∧ Bears e (candidate name j)) := by
  -- the numbered names
  have htilde : ∀ r : Option (Bytes × Bool) × Vol,
      r = Prod.map (Option.map fun raw => (raw, true)) id
        (tildeLoop g d (mangledBase (splitExt name).1) (mangledExt (splitExt name).2) 999 1 v) →
      r.2.hang = false →
      (∃ j, 1 ≤ j ∧ j < 1000 ∧ r = (some (candidate name j, true), v) ∧ IsNew g v d (candidate name j)) ∨
      (r = (none, v) ∧ ∀ j, 1 ≤ j → j < 1000 → ∃ k e, InUse g v d k e ∧ Bears e (candidate name j)) := by
    rintro r rfl hh
    rcases tildeLoop_eq hq d _ _ 999 1 hh with ⟨j, h1, h2, hr, hnew⟩ | ⟨hr, hall⟩ <;> rw [hr]
    · exact .inl ⟨j, h1, h2, rfl, hnew⟩
    · exact .inr ⟨rfl, hall⟩
  rw [makeShort] at hh ⊢
  simp only at hh ⊢
  by_cases hfit : fitsShort (splitExt name).1 (splitExt name).2 = true
  case neg =>
    rw [if_neg hfit] at hh ⊢
    exact .inr (htilde _ rfl hh)
  rw [if_pos hfit] at hh ⊢
  rcases shortExists_eq hq d (rawName ((splitExt name).1.map upper) ((splitExt name).2.map upper)) with
    ⟨hr, -⟩ | ⟨hr, hnew⟩ | hr <;> rw [hr] at hh ⊢
  · exact .inr (htilde _ rfl hh)
  · exact .inl ⟨hfit, rfl, hnew⟩
  · exact absurd hh (by simp [Vol.hung])

/-- **Generated names are valid and new.** On a device that does not fail,
`fat32_make_short`, if it returns, gives a short name that no entry of the
directory has. The 999 numbered names are pairwise different, and it gives
none only when as many entries have them. -/
theorem makeShort_alias (hq : Quiet v) (d : ℕ) (name : Str)
    (hh : (makeShort g d name v).2.hang = false) :
    (∀ raw x, (makeShort g d name v).1 = some (raw, x) → IsAlias raw ∧ IsNew g v d raw) ∧
    (∀ i j, 1 ≤ i → i < 1000 → 1 ≤ j → j < 1000 → i ≠ j →
      ∃ x < 11, candidate name i x ≠ candidate name j x) ∧
    ((makeShort g d name v).1 = none → ∃ S : Finset ℕ, 999 ≤ S.card ∧ ∀ k ∈ S, k < 2 ^ 27 ∧
      ∃ e i, InUse g v d k e ∧ 1 ≤ i ∧ i < 1000 ∧ Bears e (candidate name i)) := by
  have hinj : ∀ i j, i < 1000 → j < 1000 → (∀ x < 11, candidate name i x = candidate name j x) → i = j :=
    fun i j hi hj h => tildeName_inj (mangledBase_shortChar _) hi hj h
  refine ⟨fun raw x hsome => ?_, fun i j _ hi _ hj hne => ?_, fun hnone => ?_⟩
  · rcases makeShort_cases hq d name hh with ⟨hfit, hr, hnew⟩ | ⟨j, -, h2, hr, hnew⟩ | ⟨hr, -⟩ <;>
      rw [hr] at hsome
    · obtain rfl := (Prod.mk.inj (Option.some.inj hsome)).1
      exact ⟨isAlias_upper hfit, hnew⟩
    · obtain rfl := (Prod.mk.inj (Option.some.inj hsome)).1
      exact ⟨isAlias_tildeName _ _ h2, hnew⟩
    · exact absurd hsome (by simp)
  · by_contra hall
    exact hne (hinj i j hi hj fun x hx => by_contra fun hx' => hall ⟨x, hx, hx'⟩)
  · rcases makeShort_cases hq d name hh with ⟨-, hr, -⟩ | ⟨j, -, -, hr, -⟩ | ⟨-, hall⟩
    · rw [hr] at hnone
      exact absurd hnone (by simp)
    · rw [hr] at hnone
      exact absurd hnone (by simp)
    -- for each number the entry that has its name
    have hchoose : ∀ i : ℕ, ∃ k, 1 ≤ i → i < 1000 → k < 2 ^ 27 ∧ ∃ e, InUse g v d k e ∧ Bears e (candidate name i) := by
      intro i
      by_cases hi : 1 ≤ i ∧ i < 1000
      · obtain ⟨k, e, hin, hb⟩ := hall i hi.1 hi.2
        exact ⟨k % 2 ^ 27, fun _ _ => ⟨Nat.mod_lt _ (by norm_num), e, hin.wrap, hb⟩⟩
      · exact ⟨0, fun h1 h2 => absurd ⟨h1, h2⟩ hi⟩
    choose f hf using hchoose
    refine ⟨(Finset.Ico 1 1000).image f, ?_, fun k hk => ?_⟩
    · rw [Finset.card_image_of_injOn, Nat.card_Ico]
      intro i hi j hj he
      obtain ⟨hi1, hi2⟩ := Finset.mem_Ico.mp hi
      obtain ⟨hj1, hj2⟩ := Finset.mem_Ico.mp hj
      obtain ⟨-, e, hin, hb⟩ := hf i hi1 hi2
      obtain ⟨-, e', hin', hb'⟩ := hf j hj1 hj2
      rw [he] at hin
      obtain rfl := Option.some.inj (hin.2.1.symm.trans hin'.2.1)
      exact hinj i j hi2 hj2 fun x hx => (hb x hx).symm.trans (hb' x hx)
    · obtain ⟨i, hi, rfl⟩ := Finset.mem_image.mp hk
      obtain ⟨hi1, hi2⟩ := Finset.mem_Ico.mp hi
      obtain ⟨hlt, e, hin, hb⟩ := hf i hi1 hi2
      exact ⟨hlt, e, i, hin, hi1, hi2, hb⟩

/-- A new name in an empty root. -/
theorem makeShort_alias_formatted :
    (∀ raw x, (makeShort Boot.small 2 [0x61] Boot.formatted).1 = some (raw, x) →
      IsAlias raw ∧ IsNew Boot.small Boot.formatted 2 raw) ∧
    (∀ i j, 1 ≤ i → i < 1000 → 1 ≤ j → j < 1000 → i ≠ j →
      ∃ x < 11, candidate [0x61] i x ≠ candidate [0x61] j x) ∧
    ((makeShort Boot.small 2 [0x61] Boot.formatted).1 = none → ∃ S : Finset ℕ, 999 ≤ S.card ∧
      ∀ k ∈ S, k < 2 ^ 27 ∧ ∃ e i, InUse Boot.small Boot.formatted 2 k e ∧ 1 ≤ i ∧ i < 1000 ∧
        Bears e (candidate [0x61] i)) :=
  makeShort_alias (show Quiet Boot.formatted from rfl) 2 [0x61] (by decide +kernel)

end Fat32

end Csos

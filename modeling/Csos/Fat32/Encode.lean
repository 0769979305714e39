import Mathlib.Data.List.GetD
import Csos.Fat32.Alias
/-!
# FAT32 — names and their entries

A name is stored as the entries of a long name, from its last part to its
first, before a short one; a name that is a short name as it stands is
stored as that alone. Read back the way `fat32_dir_lookup` does, the entries
give the name again, but for bytes from 0x80 on: they are stored as code
units and read as question marks.
-/

namespace Csos

namespace Fat32

open Vfs (Str dot)

variable {g : Geo} {v : Vol} {d i j k m n seq : ℕ} {e raw : Bytes} {base ext name : Str} {s : Lfn}
  {x : Bool} {c sum : UInt8}

/-! ## Reading entries back -/

/-- The long name after a list of its entries, the first at index `idx`. -/
def collect : List Bytes → ℕ → Lfn → Lfn
  | [], _, s => s
  | e :: es, idx, s => collect es (idx + 1) (s.add (idx * 32 % 2 ^ 32) e)

/-- The entries that a new name gets: those of the long name, if it needs
one, and the short one. -/
def entriesOf (name : Str) (raw : Bytes) (needLfn : Bool) (attr : UInt8) (clus size : ℕ) :
    List Bytes × Bytes :=
  (if needLfn then buildLfn name raw else [], makeSlot raw attr 0 clus size)

/-- The name that a lookup reads there, when it comes with `s`. -/
def decoded (idx : ℕ) (s : Lfn) (es : List Bytes × Bytes) : Str := dispName (collect es.1 idx s) es.2

/-! ## Long names -/

/-- The offsets of the units do not overlap, nor do they meet the other
fields. -/
theorem lfnOff_apart : ∀ j < 13, ∀ k < j, lfnOff.getD k 0 + 2 ≤ lfnOff.getD j 0 := by decide

theorem lfnOff_fields : ∀ k < 13, 1 ≤ lfnOff.getD k 0 ∧
    (lfnOff.getD k 0 + 2 ≤ 11 ∨ 14 ≤ lfnOff.getD k 0) := by decide

theorem lfnUnit_lt (name : Str) (idx : ℕ) : lfnUnit name idx < 256 ^ 2 := by
  rw [lfnUnit]
  split_ifs
  · exact (UInt8.toNat_lt _).trans (by norm_num)
  · norm_num
  · norm_num

/-- Each unit of an entry is where the decoder reads it. -/
theorem lfnEntry_unit (name : Str) (sum : UInt8) (n seq : ℕ) (hk : k < 13) :
    Bytes.load 2 (lfnEntry name sum n seq) (lfnOff.getD k 0) = lfnUnit name ((seq - 1) * 13 + k) := by
  have hstores : ∀ m, k < m → m ≤ 13 → Bytes.load 2 ((List.range m).foldl
      (fun e k => Bytes.store 2 e (lfnOff.getD k 0) (lfnUnit name ((seq - 1) * 13 + k))) (Bytes.const 0))
      (lfnOff.getD k 0) = lfnUnit name ((seq - 1) * 13 + k) := by
    intro m
    induction m with
    | zero => omega
    | succ m ih =>
      intro hkm hm
      rw [List.range_succ, List.foldl_append, List.foldl_cons, List.foldl_nil]
      rcases Nat.lt_succ_iff_lt_or_eq.mp hkm with hlt | rfl
      · rw [Bytes.load_store_of_disjoint (.inl (lfnOff_apart m (by omega) k hlt))]
        exact ih hlt (by omega)
      · exact Bytes.load_store_self_of_lt (lfnUnit_lt _ _)
  rw [← hstores 13 hk le_rfl, lfnEntry]
  have hf := lfnOff_fields k hk
  refine Bytes.load_congr fun i hi => ?_
  rw [Function.update_of_ne (by omega), Function.update_of_ne (by omega), Function.update_of_ne (by omega)]

theorem lfnEntry_seq (name : Str) (sum : UInt8) (h20 : seq ≤ 20) :
    (lfnEntry name sum n seq 0 &&& 0x1f).toNat = seq := by
  have hfin : ∀ q ≤ 20, ((UInt8.ofNat (q ||| 0x40)) &&& 0x1f).toNat = q ∧
      ((UInt8.ofNat (q ||| 0)) &&& 0x1f).toNat = q := by decide
  rw [lfnEntry, Function.update_of_ne (by omega), Function.update_of_ne (by omega), Function.update_self]
  split_ifs
  · exact (hfin seq h20).1
  · exact (hfin seq h20).2

theorem lfnEntry_sum (name : Str) (sum : UInt8) (n seq : ℕ) : lfnEntry name sum n seq 13 = sum := by
  rw [lfnEntry, Function.update_self]

/-- The units of an entry as they are stored. -/
theorem lfnStore_unit (name : Str) (sum : UInt8) (n : ℕ) (units : ℕ → ℕ) (h1 : m * 13 ≤ k)
    (h2 : k < (m + 1) * 13) :
    lfnStore units (m + 1) (lfnEntry name sum n (m + 1)) k = lfnUnit name k := by
  rw [lfnStore, Nat.add_sub_cancel, if_pos ⟨h1, by omega⟩, lfnEntry_unit _ _ _ _ (by omega),
    Nat.add_sub_cancel]
  congr 1
  omega

theorem lfnStore_of_notMem {units : ℕ → ℕ} (h : (m + 1) * 13 ≤ k) : lfnStore units (m + 1) e k = units k :=
  if_neg (by omega)

/-- What has been collected of the long name of `n` entries when the entries
from `m + 1` on have been read. -/
structure Partly (name : Str) (sum : UInt8) (n m : ℕ) (s : Lfn) : Prop where
  on : s.on = true
  max : s.max = n
  sum : s.sum = sum
  units : ∀ x, m * 13 ≤ x → x < n * 13 → s.units x = lfnUnit name x

/-- The entry that comes next. -/
theorem Partly.add (h : Partly name sum n (m + 1) s) (hm : m + 1 ≤ n) (hn : n ≤ 20) (off : ℕ) :
    Partly name sum n m (s.add off (lfnEntry name sum n (m + 1))) := by
  have hseq := lfnEntry_seq (n := n) name sum (hm.trans hn)
  have hadd : s.add off (lfnEntry name sum n (m + 1)) =
      { s with units := lfnStore s.units (m + 1) (lfnEntry name sum n (m + 1)), sum := sum } := by
    rw [Lfn.add, hseq]
    rw [if_pos h.on, if_pos ⟨by omega, by omega⟩, if_neg (by rw [h.max]; omega), lfnEntry_sum]
  rw [hadd]
  refine ⟨h.on, h.max, rfl, fun x h1 h2 => ?_⟩
  by_cases hx : x < (m + 1) * 13
  · exact lfnStore_unit name sum n s.units h1 hx
  · exact (lfnStore_of_notMem (by omega)).trans (h.units x (by omega) h2)

/-- The last part of the name comes first. -/
theorem partly_first (hoff : s.on = false) (h1 : 1 ≤ n) (hn : n ≤ 20) (off : ℕ) :
    Partly name sum n (n - 1) (s.add off (lfnEntry name sum n n)) := by
  have hseq := lfnEntry_seq (n := n) name sum hn
  have hadd : s.add off (lfnEntry name sum n n) =
      { s with on := true, start := off, max := n, units := lfnStore s.units n (lfnEntry name sum n n), sum := sum } := by
    rw [Lfn.add, hseq]
    simp only [hoff, Bool.false_eq_true, if_false]
    rw [if_pos ⟨h1, hn⟩, if_pos (by omega), lfnEntry_sum]
  rw [hadd]
  refine ⟨rfl, rfl, rfl, fun x hx1 hx2 => ?_⟩
  obtain ⟨m, rfl⟩ : ∃ m, n = m + 1 := ⟨n - 1, by omega⟩
  exact lfnStore_unit name sum (m + 1) s.units hx1 hx2

/-- All entries of the long name have been read. -/
theorem collect_buildLfn (hoff : s.on = false) (idx : ℕ) :
    Partly name (shortSum raw) (lfnCount name) 0 (collect (buildLfn name raw) idx s) := by
  have hcount : 1 ≤ lfnCount name ∧ lfnCount name ≤ 20 := by
    rw [lfnCount]
    omega
  set n := lfnCount name with hn
  -- the entries from number `m` down
  have hrest : ∀ m idx s, m ≤ n → Partly name (shortSum raw) n m s →
      Partly name (shortSum raw) n 0
        (collect ((List.range' (n - m) m).map fun i => lfnEntry name (shortSum raw) n (n - i)) idx s) := by
    intro m
    induction m with
    | zero => exact fun idx s _ h => h
    | succ m ih =>
      intro idx s hm h
      rw [List.range'_succ, List.map_cons, collect, show n - (n - (m + 1)) = m + 1 by omega,
        show n - (m + 1) + 1 = n - m by omega]
      exact ih _ _ (by omega) (h.add hm hcount.2 _)
  have hlist : buildLfn name raw =
      (List.range' 0 n).map fun i => lfnEntry name (shortSum raw) n (n - i) := by
    rw [buildLfn, List.range_eq_range', hn]
  rw [hlist]
  clear_value n
  obtain ⟨m, rfl⟩ : ∃ m, n = m + 1 := ⟨n - 1, by omega⟩
  have hfirst : Partly name (shortSum raw) (m + 1) (m + 1 - 1) _ :=
    partly_first hoff hcount.1 hcount.2 (idx * 32 % 2 ^ 32)
  have hend := hrest m (idx + 1) _ (by omega) hfirst
  rwa [Nat.add_sub_cancel_left] at hend

/-- The byte that the decoder makes of a code unit. -/
def shown (c : UInt8) : UInt8 := if c < 0x80 then c else 0x3f

/-- The units of a name give its bytes, as they are shown. -/
theorem lfnNameLoop_units {units : ℕ → ℕ} (hlen : name.length < nameMax) (hz : ∀ c ∈ name, c ≠ 0) :
    ∀ m i, i ≤ name.length → name.length ≤ i + m → (∀ x < i + m, units x = lfnUnit name x) →
      lfnNameLoop units nameMax m i i = (name.drop i).map shown := by
  intro m
  induction m with
  | zero =>
    intro i h1 h2 _
    rw [lfnNameLoop, List.drop_eq_nil_of_le (by omega), List.map_nil]
  | succ m ih =>
    intro i h1 h2 hu
    rw [lfnNameLoop, hu i (by omega)]
    rcases Nat.eq_or_lt_of_le h1 with rfl | hlt
    · -- the terminator, or the end of the buffer
      have hend : lfnUnit name name.length = 0 := by rw [lfnUnit, if_neg (by omega), if_pos rfl]
      rw [hend, List.drop_length, List.map_nil, if_pos rfl, ite_self]
    · have hunit : lfnUnit name i = (name[i]).toNat := by
        rw [lfnUnit, if_pos hlt, List.getD_eq_getElem _ _ hlt]
      have hne : name[i].toNat ≠ 0 := fun h0 => hz _ (List.getElem_mem hlt) (UInt8.toNat_inj.mp h0)
      have hbyte : name[i].toNat < 256 := UInt8.toNat_lt _
      rw [hunit, if_neg (by simp only [nameMax] at hlen ⊢; omega), if_neg hne, if_neg (by omega),
        ih (i + 1) hlt (by omega) fun x hx => hu x (by omega), List.drop_eq_getElem_cons hlt, List.map_cons]
      congr 1
      rw [shown, UInt8.ofNat_toNat]
      congr 1

/-- A byte is shown as itself exactly if it is below 0x80. -/
theorem upper_shown (c : UInt8) : upper (shown c) = upper c ↔ c < 0x80 :=
  byte_cases (p := fun c => upper (shown c) = upper c ↔ c < 0x80) (by decide +kernel) c

theorem nameEq_shown (name : Str) : nameEq (name.map shown) name = true ↔ ∀ c ∈ name, c < 0x80 := by
  induction name with
  | nil => simp [nameEq]
  | cons c name ih =>
    have hc := upper_shown c
    rw [List.map_cons, nameEq, List.forall_mem_cons]
    split_ifs with hne
    · exact iff_of_false (by simp) fun hall => hne (hc.mpr hall.1)
    · rw [ih]
      simp [hc.mp (not_not.mp hne)]

/-! ## Short names -/

theorem shortSum_congr {e e' : Bytes} (h : ∀ i < 11, e i = e' i) : shortSum e = shortSum e' := by
  rw [shortSum, shortSum]
  refine List.foldl_ext _ _ _ fun sum i hi => ?_
  rw [h i (List.mem_range.mp hi)]

/-- The characters before the padding. -/
theorem takeWhile_padded {l : Str} {n : ℕ} {f : ℕ → UInt8} (hl : l.length ≤ n)
    (hs : ∀ c ∈ l, validChar c = true) (hf : ∀ i < n, f i = l.getD i space) :
    ((List.range n).takeWhile fun i => f i ≠ space) = List.range l.length := by
  obtain ⟨k, rfl⟩ : ∃ k, n = l.length + k := ⟨n - l.length, by omega⟩
  have hin : ∀ i ∈ List.range l.length, decide (f i ≠ space) = true := by
    intro i hi
    have hi' := List.mem_range.mp hi
    rw [hf i (by omega), List.getD_eq_getElem _ _ hi']
    refine decide_eq_true fun h => ?_
    exact absurd (hs _ (List.getElem_mem hi')) (by rw [h]; decide)
  rw [List.range_add, List.takeWhile_append_of_pos hin]
  cases k with
  | zero => simp
  | succ k =>
    rw [List.range_succ_eq_map, List.map_cons, List.takeWhile_cons_of_neg, List.append_nil]
    rw [Nat.add_zero, hf _ (by omega)]
    simp

/-- A list is read off its positions. -/
theorem map_getD_range (l : Str) : (List.range l.length).map (fun i => l.getD i space) = l := by
  refine List.ext_getElem (by simp) fun i h1 h2 => ?_
  rw [List.getElem_map, List.getElem_range, List.getD_eq_getElem _ _ h2]

/-- A short name without lower case letters is stored as it is. -/
theorem upper_eq_self (h : ¬ (0x61 ≤ c ∧ c ≤ 0x7a)) : upper c = c := if_neg h

theorem map_upper_eq {l : Str} (h : ∀ c ∈ l, ¬ (0x61 ≤ c ∧ c ≤ 0x7a)) : l.map upper = l :=
  (List.map_congr_left fun c hc => upper_eq_self (h c hc)).trans (List.map_id l)

/-- What is read of a short entry with these characters. -/
theorem shortName_eq (hb1 : 1 ≤ base.length) (hb8 : base.length ≤ 8) (he3 : ext.length ≤ 3)
    (hb : ∀ c ∈ base, validChar c = true) (he : ∀ c ∈ ext, validChar c = true)
    (hraw : ∀ i < 11, e i = rawName base ext i) (hnt : e 12 = 0) :
    shortName e nameMax = base ++ if ext = [] then [] else dot :: ext := by
  have hz : ∀ c : UInt8, validChar c = true → c ≠ 0 := by
    rintro c hc rfl
    exact absurd hc (by decide)
  have hbase : shortBase e = base := by
    have hat : ∀ i < 8, e i = base.getD i space := by
      intro i hi
      rw [hraw i (by omega), rawName, if_pos hi]
    rw [shortBase, takeWhile_padded hb8 hb hat]
    refine (List.map_congr_left fun i hi => ?_).trans (map_getD_range base)
    have hi' := List.mem_range.mp hi
    have h5 : e i ≠ 0x05 := by
      rw [hat i (by omega), List.getD_eq_getElem _ _ hi']
      exact fun h5 => absurd (hb _ (List.getElem_mem hi')) (by rw [h5]; decide)
    rw [hnt, if_neg (by decide), if_neg fun h => h5 h.2, hat i (by omega)]
  have hext : shortExt e = ext := by
    have hat : ∀ i < 3, e (8 + i) = ext.getD i space := by
      intro i hi
      rw [hraw (8 + i) (by omega), rawName, if_neg (by omega), Nat.add_sub_cancel_left]
    rw [shortExt, takeWhile_padded he3 he hat]
    refine (List.map_congr_left fun i hi => ?_).trans (map_getD_range ext)
    have hi' := List.mem_range.mp hi
    rw [hnt, if_neg (by decide), hat i (by omega)]
  rw [shortName, hbase, hext, List.take_of_length_le (by simp only [nameMax]; omega)]
  by_cases hnil : ext = []
  · rw [if_neg (by simp [hnil]), if_pos hnil, List.append_nil]
    exact List.takeWhile_eq_self_iff.mpr fun c hc => decide_eq_true (hz c (hb c hc))
  · rw [if_pos ⟨hnil, by simp only [nameMax]; omega⟩, if_neg hnil,
      List.take_of_length_le (by simp only [nameMax]; omega)]
    refine List.takeWhile_eq_self_iff.mpr fun c hc => decide_eq_true ?_
    rcases List.mem_append.mp hc with hc | hc
    · exact hz c (hb c hc)
    · rcases List.mem_cons.mp hc with rfl | hc
      · decide
      · exact hz c (he c hc)

/-- The parts that a name is split into. -/
theorem splitExt_join (name : Str) :
    (splitExt name).1 ++ (if (splitExt name).2 = [] then [] else dot :: (splitExt name).2) = name := by
  rw [splitExt]
  rcases hd : dotAt name with _ | i
  · simp
  · rw [dotAt] at hd
    split at hd
    · exact absurd hd (by simp)
    · rename_i k hk
      split_ifs at hd with hlt
      obtain rfl := Option.some.inj hd
      have hdot := List.find?_some hk
      simp only [decide_eq_true_eq] at hdot
      have hne : name.drop (k + 1) ≠ [] := by
        rw [ne_eq, List.drop_eq_nil_iff]
        omega
      dsimp only
      rw [if_neg hne]
      have hsplit : name.drop k = dot :: name.drop (k + 1) := by
        rw [List.drop_eq_getElem_cons (by omega), ← hdot.2, List.getD_eq_getElem _ _ (by omega)]
      rw [← hsplit, List.take_append_drop]

/-! ## Round trip -/

/-- A name that `fat32_make_short` gives no long name is one without lower
case letters, and its short name is the name itself. -/
theorem makeShort_needLfn (h : (makeShort g d name v).1 = some (raw, false)) :
    fitsShort (splitExt name).1 (splitExt name).2 = true ∧ (∀ c ∈ name, ¬ (0x61 ≤ c ∧ c ≤ 0x7a)) ∧
      raw = rawName ((splitExt name).1.map upper) ((splitExt name).2.map upper) := by
  have htilde : ∀ v, (tildeLoop g d (mangledBase (splitExt name).1) (mangledExt (splitExt name).2)
      999 1 v).1.map (fun raw => (raw, true)) ≠ some (raw, false) := by
    intro v he
    obtain ⟨r, -, hr⟩ := Option.map_eq_some_iff.mp he
    exact absurd (Prod.mk.inj hr).2 (by decide)
  rw [makeShort] at h
  simp only at h
  by_cases hfit : fitsShort (splitExt name).1 (splitExt name).2 = true
  case neg =>
    rw [if_neg hfit] at h
    exact absurd h (htilde v)
  rw [if_pos hfit] at h
  generalize shortExists g d (rawName ((splitExt name).1.map upper) ((splitExt name).2.map upper)) v = r at h
  obtain ⟨_ | _, v'⟩ := r
  · obtain ⟨hraw, hlower⟩ := Prod.mk.inj (Option.some.inj h)
    refine ⟨hfit, fun c hc hl => ?_, hraw.symm⟩
    exact absurd hlower (by simpa using ⟨c, hc, hl.1, hl.2⟩)
  · exact absurd h (htilde v')

theorem nameEq_refl (name : Str) : nameEq name name = true := by
  induction name with
  | nil => rfl
  | cons c name ih => rw [nameEq, if_neg (by simp), ih]

/-- The long name that is read, when all of its entries have been. -/
theorem lfnName_collect (hlen : name.length < nameMax) (hz : ∀ c ∈ name, c ≠ 0)
    (h : Partly name sum (lfnCount name) 0 s) : lfnName s.units s.max nameMax = name.map shown := by
  have hcount : name.length ≤ lfnCount name * 13 := by
    simp only [nameMax] at hlen
    rw [lfnCount]
    omega
  rw [lfnName, h.max, lfnNameLoop_units hlen hz _ 0 (Nat.zero_le _) (by omega)
    fun x hx => h.units x (Nat.zero_le _) (by omega), List.drop_zero]

/-- A long name is shown byte by byte. -/
theorem decoded_long (hlen : name.length < nameMax) (hz : ∀ c ∈ name, c ≠ 0) (hoff : s.on = false) (idx : ℕ)
    (attr : UInt8) (clus size : ℕ) :
    decoded idx s (entriesOf name raw true attr clus size) = name.map shown := by
  have hall : Partly name (shortSum raw) (lfnCount name) 0 (collect (buildLfn name raw) idx s) :=
    collect_buildLfn hoff idx
  have hsum : shortSum (makeSlot raw attr 0 clus size) = shortSum raw :=
    shortSum_congr fun i hi => makeSlot_name hi
  have hpos : 0 < lfnCount name := by
    rw [lfnCount]
    omega
  rw [decoded, entriesOf, if_pos rfl, dispName, if_pos ⟨hall.on, by rw [hall.max]; exact hpos,
    by rw [hall.sum, hsum]⟩, lfnName_collect hlen hz hall]

/-- A short name that needs no long one is shown as it is. -/
theorem decoded_short (h : (makeShort g d name v).1 = some (raw, false)) (hoff : s.on = false) (idx : ℕ)
    (attr : UInt8) (clus size : ℕ) :
    decoded idx s (entriesOf name raw false attr clus size) = name ∧ ∀ c ∈ name, c < 0x80 := by
  obtain ⟨hfit, hlower, rfl⟩ := makeShort_needLfn h
  rw [fitsShort, decide_eq_true_eq] at hfit
  obtain ⟨h1, h8, h3, hbase, hext⟩ := hfit
  have hb := List.all_eq_true.mp hbase
  have he := List.all_eq_true.mp hext
  have hjoin := splitExt_join name
  have hmem : ∀ c ∈ name, c ∈ (splitExt name).1 ∨ c ∈ (splitExt name).2 ∨ c = dot := by
    intro c hc
    rw [← hjoin] at hc
    rcases List.mem_append.mp hc with hc | hc
    · exact .inl hc
    · split_ifs at hc
      · exact absurd hc (by simp)
      · rcases List.mem_cons.mp hc with rfl | hc
        · exact .inr (.inr rfl)
        · exact .inr (.inl hc)
  have hin : ∀ c, c ∈ (splitExt name).1 ∨ c ∈ (splitExt name).2 → c ∈ name := by
    intro c hc
    rw [← hjoin, List.mem_append]
    rcases hc with hc | hc
    · exact .inl hc
    · rw [if_neg (List.ne_nil_of_mem hc)]
      exact .inr (List.mem_cons_of_mem _ hc)
  rw [map_upper_eq fun c hc => hlower c (hin c (.inl hc)), map_upper_eq fun c hc => hlower c (hin c (.inr hc))]
  refine ⟨?_, fun c hc => ?_⟩
  · rw [decoded, entriesOf, if_neg (by decide), collect, dispName, if_neg (by simp [hoff])]
    exact (shortName_eq h1 h8 h3 hb he (fun i hi => makeSlot_name hi) makeSlot_ntRes).trans hjoin
  · have hlow : ∀ c, validChar c = true → c < 0x80 :=
      byte_cases (p := fun c => validChar c = true → c < 0x80) (by decide +kernel)
    rcases hmem c hc with hc | hc | rfl
    · exact hlow c (hb c hc)
    · exact hlow c (he c hc)
    · decide

/-- **Which names survive encoding.** The entries of a name of up to 63
bytes are read back as that name, up to case, exactly when all of its bytes
are below 0x80. -/
theorem decoded_eq_iff (hlen : name.length < nameMax) (hz : ∀ c ∈ name, c ≠ 0)
    (h : (makeShort g d name v).1 = some (raw, x)) (hoff : s.on = false) (idx : ℕ) (attr : UInt8)
    (clus size : ℕ) :
    nameEq (decoded idx s (entriesOf name raw x attr clus size)) name = true ↔ ∀ c ∈ name, c < 0x80 := by
  cases x with
  | true =>
    rw [decoded_long hlen hz hoff]
    exact nameEq_shown name
  | false =>
    obtain ⟨hdec, hlow⟩ := decoded_short h hoff idx attr clus size
    rw [hdec]
    exact iff_of_true (nameEq_refl name) hlow

/-- `a` in an empty root. -/
theorem decoded_eq_iff_letter : ∃ raw x, (makeShort Boot.small 2 [0x61] Boot.formatted).1 = some (raw, x) ∧
    (nameEq (decoded 0 ⟨fun _ => 0, 0, 0, 0, false⟩ (entriesOf [0x61] raw x attrArch 0 0)) [0x61] = true ↔
      ∀ c ∈ ([0x61] : Str), c < 0x80) := by
  have hsome : (makeShort Boot.small 2 [0x61] Boot.formatted).1.isSome = true := by decide +kernel
  obtain ⟨⟨raw, x⟩, h⟩ := Option.isSome_iff_exists.mp hsome
  exact ⟨raw, x, h, decoded_eq_iff (by decide) (by decide +kernel) h rfl 0 attrArch 0 0⟩

/-- **Not every name survives.** The byte 0xe9 is read back as `?`. -/
theorem decoded_ne : ((makeShort Boot.small 2 [0xe9] Boot.formatted).1.map fun r =>
    nameEq (decoded 0 ⟨fun _ => 0, 0, 0, 0, false⟩ (entriesOf [0xe9] r.1 r.2 attrArch 0 0)) [0xe9]) =
      some false := by
  decide +kernel

end Fat32

end Csos

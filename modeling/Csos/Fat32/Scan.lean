import Csos.Common.Search
import Csos.Fat32.Chains
import Csos.Fat32.Driver
/-!
# FAT32 — directories of any image

Nothing is assumed of the FAT here: a chain may be cut off or run in a
circle. What a reader finds at an entry index depends on the contents of the
device only, not on the cursor it comes with; the scans of a directory are
followed on these entries, and so is the name each entry is displayed with.
-/

namespace Csos

namespace Fat32

open Vfs (Str)

variable {g : Geo} {v v' : Vol} {a c d i k m n idx : ℕ} {e : Bytes} {ch : Chain} {s : Lfn}

/-! ## The clusters of a directory -/

/-- The cluster `n` links after `c`, if there are so many. -/
def linkAt (g : Geo) (v : Vol) : ℕ → ℕ → Option ℕ
  | 0, c => some c
  | n + 1, c => (nextClus g v c).bind (linkAt g v n)

/-- The cluster at an index of the chain from `d`. -/
def clusAt (g : Geo) (v : Vol) (d i : ℕ) : Option ℕ := (firstClus g d).bind (linkAt g v i)

theorem linkAt_add (m n c : ℕ) : linkAt g v (m + n) c = (linkAt g v m c).bind (linkAt g v n) := by
  induction m generalizing c with
  | zero => rw [Nat.zero_add, linkAt, Option.bind_some]
  | succ m ih =>
    rw [Nat.succ_add, linkAt, linkAt, Option.bind_assoc]
    congr 1
    funext x
    exact ih x

theorem linkAt_valid (hc : clusValid g c = true) (h : linkAt g v n c = some a) : clusValid g a = true := by
  induction n generalizing c with
  | zero =>
    obtain rfl := Option.some.inj h
    exact hc
  | succ n ih =>
    obtain ⟨x, hx, ha⟩ := Option.bind_eq_some_iff.mp h
    exact ih (valid_of_nextClus hx).2 ha

theorem clusAt_valid (h : clusAt g v d i = some c) : clusValid g c = true := by
  obtain ⟨x, hx, hc⟩ := Option.bind_eq_some_iff.mp h
  obtain ⟨rfl, hv⟩ := valid_of_firstClus hx
  exact linkAt_valid hv hc

/-- The walk of `fat32_chain_at2` goes there. -/
theorem walk_eq (hq : Quiet v) (n c : ℕ) : walk g n c v = (linkAt g v n c, v) := by
  induction n generalizing c with
  | zero => rfl
  | succ n ih =>
    rw [walk, fatGet_quiet hq, linkAt, nextClus]
    by_cases hv : clusValid g (fat g v c) = true
    · simp only [hv, not_true_eq_false, if_false, if_true, Option.bind_some, ih]
    · simp only [hv, not_false_eq_true, if_true, Bool.false_eq_true, if_false, Option.bind_none]

/-- What the cursor has cached is on the chain. -/
def Cached (g : Geo) (v : Vol) (ch : Chain) : Prop :=
  ch.cacheOk = true → clusAt g v ch.start ch.cacheIndex = some ch.cacheClus

theorem cached_init (d : ℕ) : Cached g v (chainInit d) := by simp [Cached, chainInit]

/-- **`fat32_chain_at2`** finds the cluster at an index, if there is one. -/
theorem chainAt2_eq (hq : Quiet v) (h : Cached g v ch) (idx : ℕ) :
    ∃ ch', chainAt2 g ch idx v = (clusAt g v ch.start idx, ch', v) ∧ ch'.start = ch.start ∧
      Cached g v ch' := by
  by_cases hv : clusValid g ch.start = true
  case neg =>
    exact ⟨ch, by simp [chainAt2, hv, clusAt, firstClus], rfl, h⟩
  -- where the walk starts, it has the right number of links to go
  obtain ⟨c, i, hci, hc, hle⟩ : ∃ c i,
      (if ch.cacheOk = true ∧ ch.cacheIndex ≤ idx then (ch.cacheClus, ch.cacheIndex)
        else (ch.start, 0)) = (c, i) ∧ clusAt g v ch.start i = some c ∧ i ≤ idx := by
    split
    · rename_i hc
      exact ⟨_, _, rfl, h hc.1, hc.2⟩
    · exact ⟨_, _, rfl, by simp [clusAt, firstClus, hv, linkAt], Nat.zero_le _⟩
  have hrest : linkAt g v (idx - i) c = clusAt g v ch.start idx := by
    rw [clusAt] at hc ⊢
    rw [← Nat.add_sub_cancel' hle]
    obtain ⟨x, hx, hx'⟩ := Option.bind_eq_some_iff.mp hc
    rw [hx, Option.bind_some, linkAt_add, hx', Option.bind_some, Nat.add_sub_cancel_left]
  simp only [chainAt2, hv, not_true_eq_false, if_false, hci, walk_eq hq, hrest]
  rcases hs : clusAt g v ch.start idx with _ | x
  · exact ⟨ch, rfl, rfl, h⟩
  · exact ⟨_, rfl, rfl, fun _ => hs⟩

/-- **`fat32_chain_at`** gives 0 if there is none. -/
theorem chainAt_eq (hq : Quiet v) (h : Cached g v ch) (idx : ℕ) :
    ∃ ch', chainAt g ch idx v = ((clusAt g v ch.start idx).getD 0, ch', v) ∧ ch'.start = ch.start ∧
      Cached g v ch' := by
  obtain ⟨ch', hr, hst, hc⟩ := chainAt2_eq hq h idx
  exact ⟨ch', by rw [chainAt, hr], hst, hc⟩

/-! ## The entries of a directory -/

/-- **Entry `k` of a directory**, `none` if it is past the end of the chain. -/
def entAt (g : Geo) (v : Vol) (d k : ℕ) : Option Bytes :=
  (clusAt g v d (k * 32 % 2 ^ 32 / g.clusBytes)).map fun c =>
    Bytes.blit (Bytes.const 0) 0 32 ((v.sec g (entPlace g c k).1).shift (entPlace g c k).2)

/-- Offsets are 32 bits wide. -/
theorem entAt_mod (k : ℕ) : entAt g v d (k % 2 ^ 27) = entAt g v d k := by
  have h : k % 2 ^ 27 * 32 % 2 ^ 32 = k * 32 % 2 ^ 32 := by omega
  have hp : ∀ c, entPlace g c (k % 2 ^ 27) = entPlace g c k := by
    intro c
    rw [entPlace, entPlace, h]
  rw [entAt, entAt, h]
  congr 1
  funext c
  rw [hp]

/-- **`fat32_ent_read`** reads that entry, whatever the cursor. -/
theorem entRead_eq (hq : Quiet v) (h : Cached g v ch) (k : ℕ) :
    ∃ ch', ch'.start = ch.start ∧ Cached g v ch' ∧ entRead g ch k v =
      match entAt g v ch.start k with
      | none => (errEof, Bytes.const 0, ch', v)
      | some e => (fatOk, e, ch', v) := by
  obtain ⟨ch', hr, hst, hc⟩ := chainAt_eq hq h (k * 32 % 2 ^ 32 / g.clusBytes)
  refine ⟨ch', hst, hc, ?_⟩
  rw [entRead, hr, entAt]
  rcases hs : clusAt g v ch.start (k * 32 % 2 ^ 32 / g.clusBytes) with _ | c
  · dsimp only [Option.getD_none, Option.map_none]
    rw [if_pos (by simp [clusValid])]
  · dsimp only [Option.getD_some, Option.map_some]
    rw [if_neg (not_not.mpr (clusAt_valid hs)), readSec_quiet hq]

/-- The entries are the device's. -/
theorem entAt_disk (h : v'.disk = v.disk) : entAt g v' d k = entAt g v d k := by
  have hsec : v'.sec g = v.sec g := by
    funext lba
    rw [Vol.sec, Vol.sec, h]
  have hnext : nextClus g v' = nextClus g v := by
    funext c
    have hfat : fat g v' c = fat g v c := by rw [fat, fat, fatEnt, fatEnt, hsec]
    rw [nextClus, nextClus, hfat]
  have hlink : ∀ n c, linkAt g v' n c = linkAt g v n c := by
    intro n
    induction n with
    | zero => exact fun c => rfl
    | succ n ih =>
      intro c
      rw [linkAt, linkAt, hnext, funext ih]
  rw [entAt, entAt, clusAt, clusAt, funext (hlink _), hsec]

/-- An entry that ends a scan: it is missing, or the end marker. -/
def Stops (g : Geo) (v : Vol) (d k : ℕ) : Prop := ∀ e ∈ entAt g v d k, e 0 = 0

/-- The entries before `k` do not end a scan. -/
def Reaches (g : Geo) (v : Vol) (d k : ℕ) : Prop := ∀ j < k, ¬ Stops g v d j

theorem not_stops_iff : ¬ Stops g v d k ↔ ∃ e, entAt g v d k = some e ∧ e 0 ≠ 0 := by
  simp [Stops]

theorem stops_disk (h : v'.disk = v.disk) : Stops g v' d k ↔ Stops g v d k := by
  rw [Stops, Stops, entAt_disk h]

theorem stops_mod : Stops g v d (k % 2 ^ 27) ↔ Stops g v d k := by rw [Stops, Stops, entAt_mod]

/-- A scan that comes to entry `k` comes to all before it. -/
theorem Reaches.mono (h : Reaches g v d k) (hm : m ≤ k) : Reaches g v d m :=
  fun j hj => h j (hj.trans_le hm)

theorem Reaches.succ (h : Reaches g v d k) (hk : ¬ Stops g v d k) : Reaches g v d (k + 1) := by
  intro j hj
  rcases Nat.lt_succ_iff_lt_or_eq.mp hj with hlt | rfl
  · exact h j hlt
  · exact hk

/-! ## The name an entry is displayed with -/

/-- What an entry does to the long name that is being collected. -/
def Lfn.step (s : Lfn) (off : ℕ) (e : Bytes) : Lfn :=
  if e 0 ≠ 0xe5 ∧ e 11 = attrLfn then s.add off e else s.reset

/-- The long name that a lookup has collected before entry `k`. -/
def lfnAt (g : Geo) (v : Vol) (d : ℕ) : ℕ → Lfn
  | 0 => ⟨v.junk, 0, 0, 0, false⟩
  | k + 1 => (lfnAt g v d k).step (k * 32 % 2 ^ 32) ((entAt g v d k).getD (Bytes.const 0))

theorem lfnAt_succ (he : entAt g v d k = some e) :
    lfnAt g v d (k + 1) = (lfnAt g v d k).step (k * 32 % 2 ^ 32) e := by
  rw [lfnAt, he, Option.getD_some]

/-- Where a lookup is: its cursor is on the directory, and the long name is
the one it has come past. -/
def Reads (g : Geo) (v : Vol) (d k : ℕ) (st : Chain × Lfn) : Prop :=
  st.1.start = d ∧ Cached g v st.1 ∧ st.2 = lfnAt g v d k

theorem reads_start : Reads g v d 0 (chainInit d, ⟨v.junk, 0, 0, 0, false⟩) := ⟨rfl, cached_init d, rfl⟩

/-! ## What an entry settles -/

/-- `fat32_short_exists` at an entry. -/
def existsAt (raw : Bytes) : Option Bytes → Option Bool
  | none => some false
  | some e =>
    if e 0 = 0 then some false
    else if e 0 = 0xe5 ∨ e 11 = attrLfn then none
    else if ∀ k ∈ List.range 11, e k = raw k then some true
    else none

/-- The entry that a lookup returns. -/
def locOf (d idx : ℕ) (s : Lfn) (e : Bytes) : Loc where
  dirClus := d
  off := idx * 32 % 2 ^ 32
  lfnOff := if s.on then s.start else idx * 32 % 2 ^ 32
  clus := entClus e
  size := Bytes.load 4 e 28
  attr := e 11
  name := Vfs.strncpy (dispName s e) nameMax

/-- `fat32_dir_lookup` at an entry. -/
def lookupAt (d : ℕ) (name : Str) (idx : ℕ) (s : Lfn) : Option Bytes → Option (Option Loc)
  | none => some none
  | some e =>
    if e 0 = 0 then some none
    else if e 0 = 0xe5 ∨ e 11 = attrLfn ∨ e 11 &&& attrVol ≠ 0 then none
    else if nameEq (dispName s e) name then some (some (locOf d idx s e))
    else none

theorem shortExists_searches (hq : Quiet v) (d : ℕ) (raw : Bytes) :
    Searches (fun n ch idx => shortExistsLoop g raw n ch idx v)
      (fun _ ch => ch.start = d ∧ Cached g v ch)
      (fun k => (existsAt raw (entAt g v d k)).map fun b => (b, v)) (false, v.hung) where
  zero _ _ := rfl
  found n ch idx r hf hr := by
    obtain ⟨rfl, hc⟩ := hf
    obtain ⟨ch', -, -, hread⟩ := entRead_eq hq hc idx
    obtain ⟨b, hb, rfl⟩ := Option.map_eq_some_iff.mp hr
    rw [shortExistsLoop, hread]
    rcases he : entAt g v ch.start idx with _ | e <;> rw [he] at hb
    · obtain rfl := Option.some.inj hb
      rfl
    · rw [existsAt] at hb
      dsimp only
      rw [if_neg (by decide)]
      split_ifs at hb ⊢ <;> simp_all
  next n ch idx hf hr := by
    obtain ⟨rfl, hc⟩ := hf
    obtain ⟨ch', hst, hc', hread⟩ := entRead_eq hq hc idx
    have hr := Option.map_eq_none_iff.mp hr
    refine ⟨ch', ⟨hst, hc'⟩, ?_⟩
    rw [shortExistsLoop, hread]
    rcases he : entAt g v ch.start idx with _ | e <;> rw [he] at hr
    · exact absurd hr (by simp [existsAt])
    · rw [existsAt] at hr
      dsimp only
      rw [if_neg (by decide)]
      split_ifs at hr ⊢ <;> simp_all

theorem lookup_searches (hq : Quiet v) (d : ℕ) (name : Str) :
    Searches (fun n (st : Chain × Lfn) idx => lookupLoop g d name n st.1 idx st.2 v)
      (Reads g v d)
      (fun k => (lookupAt d name k (lfnAt g v d k) (entAt g v d k)).map fun o => (fatOk, o, v))
      (errIo, none, v.hung) where
  zero _ _ := rfl
  found n st idx r hf hr := by
    obtain ⟨rfl, hc, hst⟩ := hf
    obtain ⟨ch', -, -, hread⟩ := entRead_eq hq hc idx
    obtain ⟨o, ho, rfl⟩ := Option.map_eq_some_iff.mp hr
    rw [lookupLoop, hread, hst]
    rcases he : entAt g v st.1.start idx with _ | e <;> rw [he] at ho
    · obtain rfl := Option.some.inj ho
      rfl
    · rw [lookupAt] at ho
      dsimp only
      rw [if_neg (by decide), if_neg (by decide)]
      split_ifs at ho ⊢ <;> simp_all [locOf]
  next n st idx hf hr := by
    obtain ⟨rfl, hc, hst⟩ := hf
    obtain ⟨ch', hst', hc', hread⟩ := entRead_eq hq hc idx
    have hr := Option.map_eq_none_iff.mp hr
    rcases he : entAt g v st.1.start idx with _ | e
    · exact absurd hr (by simp [he, lookupAt])
    refine ⟨(ch', (lfnAt g v st.1.start idx).step (idx * 32 % 2 ^ 32) e),
      ⟨hst', hc', (lfnAt_succ he).symm⟩, ?_⟩
    rw [he, lookupAt] at hr
    rw [lookupLoop, hread, he, hst]
    dsimp only
    rw [if_neg (by decide), if_neg (by decide), Lfn.step]
    split_ifs at hr ⊢ <;> simp_all

end Fat32

end Csos

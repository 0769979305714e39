import Csos.Fat32.Encode
import Csos.Fat32.Listing
/-!
# FAT32 — a directory as a catalog of names

A directory is looked at as the entries at its indices. In a tidy one, which
ends at index `K`, a run of long-name entries comes right before the entry it
names, and the names do not depend on what was in the lookup's buffer before.
A group of entries that is put over deleted ones or at the end adds one name
(`Tidy.put`), and one that is marked deleted takes one name off
(`Tidy.mark`); all other names stay where they are.
-/

namespace Csos

namespace Fat32

open Vfs (Str)

/-- What a directory holds at each index. -/
abbrev Ents := ℕ → Option Bytes

variable {g : Geo} {v : Vol} {a b d i j k m n K K' idx : ℕ} {e e' : Bytes} {f f' : Ents} {name : Str} {s : Lfn}
  {u units : ℕ → ℕ} {loc : Loc} {es : List Bytes}

/-! ## Runs of long-name entries -/

/-- A part of a long name, as a lookup sees it. -/
def LfnPart (e : Bytes) : Prop := e 0 ≠ 0xe5 ∧ e 11 = attrLfn

instance (e : Bytes) : Decidable (LfnPart e) := inferInstanceAs (Decidable (_ ∧ _))

/-- No long name, over a buffer. -/
def noLfn (u : ℕ → ℕ) : Lfn := ⟨u, 0, 0, 0, false⟩

/-- The long name collected from the run before index `k`, in a buffer that
held `u` when the run began. -/
def collected (f : Ents) (u : ℕ → ℕ) : ℕ → Lfn
  | 0 => noLfn u
  | k + 1 =>
    match f k with
    | some e => if LfnPart e then (collected f u k).add (k * 32 % 2 ^ 32) e else noLfn u
    | none => noLfn u

/-- Where the run before index `k` begins. -/
def runStart (f : Ents) : ℕ → ℕ
  | 0 => 0
  | k + 1 =>
    match f k with
    | some e => if LfnPart e then runStart f k else k + 1
    | none => k + 1

theorem collected_part (he : f k = some e) (h : LfnPart e) :
    collected f u (k + 1) = (collected f u k).add (k * 32 % 2 ^ 32) e := by
  rw [collected, he]
  exact if_pos h

theorem collected_other (h : ∀ e ∈ f k, ¬ LfnPart e) : collected f u (k + 1) = noLfn u := by
  rw [collected]
  rcases he : f k with _ | e
  · rfl
  · exact if_neg (h e he)

theorem runStart_part (he : f k = some e) (h : LfnPart e) : runStart f (k + 1) = runStart f k := by
  rw [runStart, he]
  exact if_pos h

theorem runStart_other (h : ∀ e ∈ f k, ¬ LfnPart e) : runStart f (k + 1) = k + 1 := by
  rw [runStart]
  rcases he : f k with _ | e
  · rfl
  · exact if_neg (h e he)

theorem runStart_le : ∀ k, runStart f k ≤ k := by
  intro k
  induction k with
  | zero => exact le_rfl
  | succ k ih =>
    by_cases h : ∃ e, f k = some e ∧ LfnPart e
    · obtain ⟨e, he, hp⟩ := h
      rw [runStart_part he hp]
      omega
    · rw [runStart_other fun e he hp => h ⟨e, he, hp⟩]

/-- The entries of the run. -/
theorem part_of_run : ∀ {k j}, runStart f k ≤ j → j < k → ∃ e, f j = some e ∧ LfnPart e := by
  intro k
  induction k with
  | zero =>
    intro j _ hj
    omega
  | succ k ih =>
    intro j hle hlt
    by_cases h : ∃ e, f k = some e ∧ LfnPart e
    · obtain ⟨e, he, hp⟩ := h
      rw [runStart_part he hp] at hle
      rcases Nat.lt_succ_iff_lt_or_eq.mp hlt with hj | rfl
      · exact ih hle hj
      · exact ⟨e, he, hp⟩
    · rw [runStart_other fun e he hp => h ⟨e, he, hp⟩] at hle
      omega

theorem Lfn.add_on (s : Lfn) (off : ℕ) (e : Bytes) : (s.add off e).on = true := by
  rw [Lfn.add]
  split_ifs <;> simp_all

theorem Lfn.add_start (s : Lfn) (off : ℕ) (e : Bytes) :
    (s.add off e).start = if s.on then s.start else off := by
  rw [Lfn.add]
  split_ifs <;> rfl

/-- Inside a run, and only there, a long name is on, and it has started where
the run begins. -/
theorem collected_run : ∀ k, ((collected f u k).on = true ↔ runStart f k < k) ∧
    ((collected f u k).on = true → (collected f u k).start = runStart f k * 32 % 2 ^ 32) := by
  intro k
  induction k with
  | zero => exact ⟨⟨fun h => absurd h (by simp [collected, noLfn]), fun h => absurd h (by simp [runStart])⟩,
      fun h => absurd h (by simp [collected, noLfn])⟩
  | succ k ih =>
    by_cases h : ∃ e, f k = some e ∧ LfnPart e
    · obtain ⟨e, he, hp⟩ := h
      have hle := runStart_le (f := f) k
      rw [collected_part he hp, runStart_part he hp]
      refine ⟨⟨fun _ => by omega, fun _ => Lfn.add_on ..⟩, fun _ => ?_⟩
      rw [Lfn.add_start]
      split_ifs with hon
      · exact ih.2 hon
      · have : runStart f k = k := by
          have := mt ih.1.mpr hon
          omega
        rw [this]
    · have hno : ∀ e ∈ f k, ¬ LfnPart e := fun e he hp => h ⟨e, he, hp⟩
      rw [collected_other hno, runStart_other hno]
      simp [noLfn]

/-- What a lookup has collected, but for the state of its buffer. -/
theorem lfnAt_collected (g : Geo) (v : Vol) (d : ℕ) : ∀ k, ∃ u,
    Lfn.Like (lfnAt g v d k) (collected (entAt g v d) u k) ∧
      ((lfnAt g v d k).on = true → (lfnAt g v d k).start = (collected (entAt g v d) u k).start) := by
  intro k
  induction k with
  | zero => exact ⟨v.junk, ⟨rfl, rfl, rfl, fun _ => rfl⟩, fun _ => rfl⟩
  | succ k ih =>
    obtain ⟨u, hlike, hstart⟩ := ih
    by_cases h : ∃ e, entAt g v d k = some e ∧ LfnPart e
    · obtain ⟨e, he, hp⟩ := h
      refine ⟨u, ?_, fun _ => ?_⟩
      · rw [lfnAt_succ he, Lfn.step, if_pos (show e 0 ≠ 0xe5 ∧ e 11 = attrLfn from hp), collected_part he hp]
        exact hlike.add _ _ e
      · rw [lfnAt_succ he, Lfn.step, if_pos (show e 0 ≠ 0xe5 ∧ e 11 = attrLfn from hp), collected_part he hp, Lfn.add_start, Lfn.add_start, ← hlike.on]
        split_ifs with hon
        · exact hstart hon
        · rfl
    · have hno : ∀ e ∈ entAt g v d k, ¬ LfnPart e := fun e he hp => h ⟨e, he, hp⟩
      have hreset : lfnAt g v d (k + 1) = (lfnAt g v d k).reset := by
        rw [lfnAt, Lfn.step, if_neg]
        rcases he : entAt g v d k with _ | e
        · rw [Option.getD_none]
          exact fun hp => absurd hp.2 (by decide)
        · rw [Option.getD_some]
          exact hno e he
      refine ⟨(lfnAt g v d k).units, ?_, fun hon => ?_⟩
      · rw [hreset, collected_other hno]
        exact ⟨rfl, rfl, rfl, fun h0 => absurd h0 (by simp [Lfn.reset])⟩
      · rw [hreset] at hon
        exact absurd hon (by simp [Lfn.reset])

/-! ## Tidy directories -/

/-- The name of entry `k`. -/
def nameOf (f : Ents) (k : ℕ) (e : Bytes) : Str := dispName (collected f (fun _ => 0) k) e

/-- **An orderly directory**, which ends at index `K`. -/
structure Orderly (f : Ents) (K : ℕ) : Prop where
  small : K < 2 ^ 27
  used : ∀ k < K, ∃ e, f k = some e ∧ e 0 ≠ 0
  stop : ∀ e ∈ f K, e 0 = 0
  runs : ∀ k < K, ∀ e, f k = some e → LfnPart e →
    ∃ e', k + 1 < K ∧ f (k + 1) = some e' ∧ (LfnPart e' ∨ Considered e')
  names : ∀ k < K, ∀ e, f k = some e → Considered e → ∀ u, dispName (collected f u k) e = nameOf f k e

/-- **A tidy directory** has nothing after its end. -/
structure Tidy (f : Ents) (K : ℕ) : Prop extends Orderly f K where
  blank : ∀ k, K ≤ k → k < 2 ^ 27 → ∀ e ∈ f k, e 0 = 0

/-- **Entry `k` bears the name**, up to case. -/
structure Has (f : Ents) (K : ℕ) (name : Str) (k : ℕ) (e : Bytes) : Prop where
  lt : k < K
  ent : f k = some e
  considered : Considered e
  eq : nameEq (nameOf f k e) name = true

/-- No two entries bear one name. -/
def Single (f : Ents) (K : ℕ) : Prop :=
  ∀ name k e k' e', Has f K name k e → Has f K name k' e' → k = k'

/-- What a lookup says of entry `k`. -/
def locIn (d : ℕ) (f : Ents) (k : ℕ) (e : Bytes) : Loc :=
  ⟨d, k * 32, runStart f k * 32, entClus e, Bytes.load 4 e 28, e 11, Vfs.strncpy (nameOf f k e) nameMax⟩

theorem Orderly.reaches (T : Orderly (entAt g v d) K) : Reaches g v d k ↔ k ≤ K := by
  constructor
  · intro h
    by_contra hlt
    exact h K (by omega) T.stop
  · intro hle j hj hstop
    obtain ⟨e, he, h0⟩ := T.used j (by omega)
    exact h0 (hstop e he)

/-- A lookup shows the names. -/
theorem Orderly.dispName_eq (T : Orderly (entAt g v d) K) (hk : k < K) (he : entAt g v d k = some e)
    (hc : Considered e) : dispName (lfnAt g v d k) e = nameOf (entAt g v d) k e := by
  obtain ⟨u, hlike, -⟩ := lfnAt_collected g v d k
  rw [hlike.dispName, T.names k hk e he hc]

theorem Orderly.locOf_eq (T : Orderly (entAt g v d) K) (hk : k < K) (he : entAt g v d k = some e)
    (hc : Considered e) : locOf d k (lfnAt g v d k) e = locIn d (entAt g v d) k e := by
  obtain ⟨u, hlike, hstart⟩ := lfnAt_collected g v d k
  obtain ⟨hon, hrun⟩ := collected_run (f := entAt g v d) (u := u) k
  have hle := runStart_le (f := entAt g v d) k
  have hsmall := T.small
  have hoff : k * 32 % 2 ^ 32 = k * 32 := Nat.mod_eq_of_lt (by omega)
  have hlfn : (if (lfnAt g v d k).on then (lfnAt g v d k).start else k * 32 % 2 ^ 32) =
      runStart (entAt g v d) k * 32 := by
    by_cases h : (lfnAt g v d k).on = true
    · rw [if_pos h, hstart h, hrun (hlike.on ▸ h)]
      exact Nat.mod_eq_of_lt (by omega)
    · rw [if_neg h, hoff]
      have : ¬ runStart (entAt g v d) k < k := fun hlt => h (hlike.on.trans (hon.mpr hlt))
      have : runStart (entAt g v d) k = k := by omega
      rw [this]
  rw [locOf, hlfn, hoff, T.dispName_eq hk he hc]
  rfl

theorem displayed_iff (T : Orderly (entAt g v d) K) :
    Displayed g v d k e ↔ k < K ∧ entAt g v d k = some e ∧ Considered e := by
  constructor
  · rintro ⟨hreach, he, hused⟩
    have hlt : k < K := T.reaches.mp hreach
    obtain ⟨e', he', h0⟩ := T.used k hlt
    obtain rfl := Option.some.inj (he.symm.trans he')
    exact ⟨hlt, he, h0, by tauto⟩
  · rintro ⟨hlt, he, h0, hno⟩
    exact ⟨T.reaches.mpr hlt, he, by tauto⟩

theorem named_iff (T : Orderly (entAt g v d) K) : Named g v d k e name ↔ Has (entAt g v d) K name k e := by
  rw [Named, displayed_iff T]
  constructor
  · rintro ⟨⟨hlt, he, hc⟩, heq⟩
    exact ⟨hlt, he, hc, T.dispName_eq hlt he hc ▸ heq⟩
  · rintro ⟨hlt, he, hc, heq⟩
    exact ⟨⟨hlt, he, hc⟩, (T.dispName_eq hlt he hc).symm ▸ heq⟩

/-- **The entry of a name**, where names are single. -/
theorem entryOf_iff (T : Orderly (entAt g v d) K) (hs : Single (entAt g v d) K) :
    EntryOf g v d name loc ↔ ∃ k e, Has (entAt g v d) K name k e ∧ loc = locIn d (entAt g v d) k e := by
  constructor
  · rintro ⟨k, -, e, hn, -, rfl⟩
    have h := (named_iff T).mp hn
    exact ⟨k, e, h, T.locOf_eq h.lt h.ent h.considered⟩
  · rintro ⟨k, e, h, rfl⟩
    refine ⟨k, by have := h.lt; have := T.small; omega, e, (named_iff T).mpr h, fun j hj e' hn => ?_,
      (T.locOf_eq h.lt h.ent h.considered).symm⟩
    have := hs _ _ _ _ _ ((named_iff T).mp hn) h
    omega

/-- What a lookup reads ends with the directory. -/
theorem Orderly.congr (T : Orderly f K) (h : ∀ k ≤ K, f' k = f k) : Orderly f' K ∧
    ∀ k < K, (∀ u, collected f' u k = collected f u k) ∧ runStart f' k = runStart f k := by
  have hrun : ∀ k ≤ K, (∀ u, collected f' u k = collected f u k) ∧ runStart f' k = runStart f k := by
    intro k
    induction k with
    | zero => exact fun _ => ⟨fun u => rfl, rfl⟩
    | succ k ih =>
      intro hk
      obtain ⟨hc, hr⟩ := ih (by omega)
      refine ⟨fun u => ?_, ?_⟩
      · rw [collected, collected, h k (by omega), hc]
      · rw [runStart, runStart, h k (by omega), hr]
  refine ⟨⟨T.small, fun k hk => h k hk.le ▸ T.used k hk, h K le_rfl ▸ T.stop, fun k hk e he hp => ?_,
    fun k hk e he hc u => ?_⟩, fun k hk => hrun k hk.le⟩
  · obtain ⟨e', hlt, he', hor⟩ := T.runs k hk e (h k hk.le ▸ he) hp
    exact ⟨e', hlt, (h (k + 1) hlt.le).trans he', hor⟩
  · rw [nameOf, (hrun k hk.le).1, (hrun k hk.le).1]
    exact T.names k hk e (h k hk.le ▸ he) hc u

/-! ## Changes inside a window -/

/-- **A change to the entries `a` to `b`** of a directory that ends at `K`. No
part of a long name comes right before them, and the last is none. -/
structure Splice (f f' : Ents) (K a b : ℕ) : Prop where
  before : ∀ k < a, f' k = f k
  after : ∀ k, b < k → k < K → f' k = f k
  alone : ∀ k, k + 1 = a → ∀ e ∈ f k, ¬ LfnPart e
  last : b < K → ∀ e ∈ f b, ¬ LfnPart e
  last' : ∀ e ∈ f' b, ¬ LfnPart e

/-- The run before an index depends on what is before it only. -/
theorem collected_congr (u : ℕ → ℕ) (ha : collected f' u a = collected f u a) (hrun : runStart f' a = runStart f a)
    (h : ∀ j, a ≤ j → j < k → f' j = f j) (hle : a ≤ k) :
    collected f' u k = collected f u k ∧ runStart f' k = runStart f k := by
  induction k with
  | zero =>
    obtain rfl : a = 0 := by omega
    exact ⟨rfl, rfl⟩
  | succ k ih =>
    rcases Nat.lt_or_ge k a with hlt | hge
    · obtain rfl : a = k + 1 := by omega
      exact ⟨ha, hrun⟩
    · obtain ⟨hc, hr⟩ := ih (fun j h1 h2 => h j h1 (by omega)) hge
      rw [collected, collected, runStart, runStart, h k hge (by omega), hc, hr]
      exact ⟨rfl, rfl⟩

/-- Where no run ends there is no long name. -/
theorem collected_alone (h : ∀ k, k + 1 = a → ∀ e ∈ f k, ¬ LfnPart e) (u : ℕ → ℕ) :
    collected f u a = noLfn u ∧ runStart f a = a := by
  cases a with
  | zero => exact ⟨rfl, rfl⟩
  | succ k => exact ⟨collected_other (h k rfl), runStart_other (h k rfl)⟩

theorem Splice.lo (h : Splice f f' K a b) (hk : k ≤ a) (u : ℕ → ℕ) :
    collected f' u k = collected f u k ∧ runStart f' k = runStart f k :=
  collected_congr u (a := 0) rfl rfl (fun j _ hj => h.before j (by omega)) (Nat.zero_le k)

theorem Splice.hi (h : Splice f f' K a b) (hb : b < k) (hk : k ≤ K) (u : ℕ → ℕ) :
    collected f' u k = collected f u k ∧ runStart f' k = runStart f k := by
  refine collected_congr u (a := b + 1) ?_ ?_ (fun j h1 h2 => h.after j (by omega) (by omega)) hb
  · rw [collected_other h.last', collected_other (h.last (by omega))]
  · rw [runStart_other h.last', runStart_other (h.last (by omega))]

/-- What is outside of the window stays as it is. -/
theorem Splice.outside (h : Splice f f' K a b) (hk : k < K) (hout : k < a ∨ b < k) :
    f' k = f k ∧ (∀ u, collected f' u k = collected f u k) ∧ runStart f' k = runStart f k := by
  rcases hout with hlt | hgt
  · exact ⟨h.before k hlt, fun u => (h.lo hlt.le u).1, (h.lo hlt.le fun _ => 0).2⟩
  · exact ⟨h.after k hgt hk, fun u => (h.hi hgt hk.le u).1, (h.hi hgt hk.le fun _ => 0).2⟩

theorem Splice.nameOf_eq (h : Splice f f' K a b) (hk : k < K) (hout : k < a ∨ b < k) (e : Bytes) :
    nameOf f' k e = nameOf f k e := by
  rw [nameOf, nameOf, (h.outside hk hout).2.1]

theorem Splice.locIn_eq (h : Splice f f' K a b) (hk : k < K) (hout : k < a ∨ b < k) (d : ℕ) (e : Bytes) :
    locIn d f' k e = locIn d f k e := by
  rw [locIn, locIn, h.nameOf_eq hk hout, (h.outside hk hout).2.2]

/-- The entries outside of the window bear the names they bore. -/
theorem Splice.has (h : Splice f f' K a b) (hKK : K ≤ K') (hk : k < K) (hout : k < a ∨ b < k) :
    Has f' K' name k e ↔ Has f K name k e := by
  have hf := (h.outside hk hout).1
  have hn := h.nameOf_eq hk hout e
  constructor
  · rintro ⟨-, he, hc, heq⟩
    exact ⟨hk, hf ▸ he, hc, hn ▸ heq⟩
  · rintro ⟨-, he, hc, heq⟩
    exact ⟨by omega, hf.symm ▸ he, hc, hn.symm ▸ heq⟩

/-! ## Names up to case -/

theorem nameEq_iff {x y : Str} : nameEq x y = true ↔ x.map upper = y.map upper := by
  induction x generalizing y with
  | nil => cases y <;> simp [nameEq]
  | cons c x ih =>
    cases y with
    | nil => simp [nameEq]
    | cons c' y =>
      rw [nameEq, List.map_cons, List.map_cons, List.cons.injEq]
      split_ifs with hne
      · simp [hne]
      · rw [ih, and_iff_right (not_not.mp hne)]

theorem nameEq_symm {x y : Str} (h : nameEq x y = true) : nameEq y x = true :=
  nameEq_iff.mpr (nameEq_iff.mp h).symm

theorem nameEq_trans {x y z : Str} (h : nameEq x y = true) (h' : nameEq y z = true) : nameEq x z = true :=
  nameEq_iff.mpr ((nameEq_iff.mp h).trans (nameEq_iff.mp h'))

/-! ## Adding a name -/

/-- An entry that is in use for nothing. -/
def Deleted (e : Bytes) : Prop := e 0 = 0xe5

/-- **The entries `es` and then `e` are put at `idx`**, over deleted ones or
where the directory ends. -/
structure Puts (f f' : Ents) (K idx : ℕ) (es : List Bytes) (e : Bytes) : Prop where
  room : idx = K ∨ idx + es.length < K ∧ ∀ i ≤ es.length, ∃ e ∈ f (idx + i), Deleted e
  before : ∀ k < idx, f' k = f k
  parts : ∀ i (hi : i < es.length), f' (idx + i) = some es[i]
  short : f' (idx + es.length) = some e
  after : ∀ k, idx + es.length < k → k < K → f' k = f k
  blank : ∀ k, idx + es.length < k → K ≤ k → k < 2 ^ 27 → ∀ e ∈ f' k, e 0 = 0
  small : idx + es.length + 1 < 2 ^ 27
  part : ∀ e ∈ es, e 0 ≠ 0 ∧ LfnPart e
  considered : Considered e

theorem Deleted.not_part (h : Deleted e) : ¬ LfnPart e := fun hp => hp.1 h

theorem Considered.not_part (h : Considered e) : ¬ LfnPart e := fun hp => h.2 (.inr (.inl hp.2))

/-- No part of a long name comes right before a deleted entry, or the end. -/
theorem Orderly.alone (T : Orderly f K) (hidx : idx = K ∨ idx < K ∧ ∃ e ∈ f idx, Deleted e) :
    ∀ k, k + 1 = idx → ∀ e ∈ f k, ¬ LfnPart e := by
  rintro k rfl e he hp
  rcases hidx with rfl | ⟨hlt, e', he', hdel⟩
  · obtain ⟨e', hlt, -⟩ := T.runs k (by omega) e he hp
    omega
  · obtain ⟨e'', -, he'', h⟩ := T.runs k (by omega) e he hp
    obtain rfl := Option.some.inj (he''.symm.trans he')
    rcases h with h | h
    · exact hdel.not_part h
    · exact h.2 (.inl hdel)

theorem collect_snoc (e : Bytes) : ∀ (es : List Bytes) (idx : ℕ) (s : Lfn),
    collect (es ++ [e]) idx s = (collect es idx s).add ((idx + es.length) * 32 % 2 ^ 32) e := by
  intro es
  induction es with
  | nil => exact fun idx s => rfl
  | cons e' es ih =>
    intro idx s
    rw [List.cons_append, collect, collect, ih, List.length_cons, Nat.add_assoc, Nat.add_comm 1]

/-- An index is outside of a group or one of its. -/
theorem cases_group (idx : ℕ) (es : List Bytes) (k : ℕ) : (k < idx ∨ idx + es.length < k) ∨ (∃ i < es.length, k = idx + i) ∨ k = idx + es.length := by
  by_cases hlt : k < idx
  · exact .inl (.inl hlt)
  · by_cases hin : k < idx + es.length
    · exact .inr (.inl ⟨k - idx, by omega, by omega⟩)
    · by_cases heq : k = idx + es.length
      · exact .inr (.inr heq)
      · exact .inl (.inr (by omega))

namespace Puts

variable (T : Tidy f K) (P : Puts f f' K idx es e)

include T P

theorem splice : Splice f f' K idx (idx + es.length) := by
  refine ⟨P.before, P.after, ?_, fun hlt e' he' => ?_, fun e' he' => ?_⟩
  · refine T.alone (P.room.imp id fun h => ⟨by omega, ?_⟩)
    exact h.2 0 (Nat.zero_le _)
  · obtain ⟨-, hdel⟩ := P.room.resolve_left (by omega)
    obtain ⟨e'', he'', hd⟩ := hdel es.length le_rfl
    obtain rfl := Option.some.inj (he''.symm.trans he')
    exact hd.not_part
  · obtain rfl := Option.some.inj (P.short.symm.trans he')
    exact P.considered.not_part

/-- What a lookup has collected inside the new group. -/
theorem collected_in (u : ℕ → ℕ) : ∀ i ≤ es.length,
    collected f' u (idx + i) = collect (es.take i) idx (noLfn u) := by
  intro i
  induction i with
  | zero =>
    intro _
    have hs := P.splice T
    rw [List.take_zero, collect, Nat.add_zero, (hs.lo le_rfl u).1, (collected_alone hs.alone u).1]
  | succ i ih =>
    intro hi
    have hpart := (P.part _ (List.getElem_mem (show i < es.length from hi))).2
    rw [← Nat.add_assoc, collected_part (P.parts i hi) hpart, ih (by omega), ← List.take_concat_get' es i hi,
      collect_snoc, List.length_take, min_eq_left (by omega)]

theorem nameOf_new (u : ℕ → ℕ) :
    dispName (collected f' u (idx + es.length)) e = decoded idx (noLfn u) (es, e) := by
  rw [P.collected_in T u _ le_rfl, List.take_length]
  rfl

/-- **The directory stays tidy.** -/
theorem tidy (hname : ∀ s : Lfn, s.on = false → decoded idx s (es, e) = name) :
    Tidy f' (max K (idx + es.length + 1)) := by
  have hs := P.splice T
  have hroom : idx ≤ K := P.room.elim (fun h => h.le) fun h => by omega
  have hlt : ∀ {k}, k < max K (idx + es.length + 1) → (k < idx ∨ idx + es.length < k) → k < K := by
    intro k hk hout
    rcases P.room with h | h <;> omega
  have hend : ∀ k, max K (idx + es.length + 1) ≤ k → k < 2 ^ 27 → ∀ e ∈ f' k, e 0 = 0 := fun k hk hk27 =>
    P.blank k (by omega) (by omega) hk27
  refine ⟨⟨max_lt T.small P.small, fun k hk => ?_, hend _ le_rfl (max_lt T.small P.small),
    fun k hk e' he' hp => ?_, fun k hk e' he' hc u => ?_⟩, hend⟩
  · rcases cases_group idx es k with hout | ⟨i, hi, rfl⟩ | rfl
    · rw [(hs.outside (hlt hk hout) hout).1]
      exact T.used k (hlt hk hout)
    · exact ⟨_, P.parts i hi, (P.part _ (List.getElem_mem hi)).1⟩
    · exact ⟨e, P.short, P.considered.1⟩
  · rcases cases_group idx es k with hout | ⟨i, hi, rfl⟩ | rfl
    · have hkK := hlt hk hout
      obtain ⟨e'', hnext, hf, hor⟩ := T.runs k hkK e' ((hs.outside hkK hout).1 ▸ he') hp
      refine ⟨e'', by omega, ?_, hor⟩
      have hne : k + 1 ≠ idx := fun h => hs.alone k h e' ((hs.outside hkK hout).1 ▸ he') hp
      rw [(hs.outside hnext (by omega)).1]
      exact hf
    · rcases Nat.lt_or_ge (i + 1) es.length with hi' | hi'
      · exact ⟨_, by omega, P.parts (i + 1) hi', .inl (P.part _ (List.getElem_mem hi')).2⟩
      · have : idx + i + 1 = idx + es.length := by omega
        exact ⟨e, by omega, this ▸ P.short, .inr P.considered⟩
    · obtain rfl := Option.some.inj (P.short.symm.trans he')
      exact absurd hp P.considered.not_part
  · rcases cases_group idx es k with hout | ⟨i, hi, rfl⟩ | rfl
    · have hkK := hlt hk hout
      rw [(hs.outside hkK hout).2.1, hs.nameOf_eq hkK hout]
      exact T.names k hkK e' ((hs.outside hkK hout).1 ▸ he') hc u
    · obtain rfl := Option.some.inj ((P.parts i hi).symm.trans he')
      exact absurd (P.part _ (List.getElem_mem hi)).2 hc.not_part
    · obtain rfl := Option.some.inj (P.short.symm.trans he')
      rw [nameOf, P.nameOf_new T, P.nameOf_new T, hname _ rfl, hname _ rfl]

/-- No entry of the group bore a name. -/
theorem outside (h : Has f K name k e') : k < idx ∨ idx + es.length < k := by
  by_contra hin
  have hlt := h.lt
  rcases P.room with rfl | ⟨-, hdel⟩
  · omega
  · obtain ⟨e'', he'', hd⟩ := hdel (k - idx) (by omega)
    rw [show idx + (k - idx) = k by omega] at he''
    obtain rfl := Option.some.inj (Eq.trans (Eq.symm he'') h.ent)
    exact h.considered.2 (.inl hd)

/-- **One name is added.** -/
theorem has (hname : ∀ s : Lfn, s.on = false → decoded idx s (es, e) = name) {name' : Str} :
    Has f' (max K (idx + es.length + 1)) name' k e' ↔
      k = idx + es.length ∧ e' = e ∧ nameEq name name' = true ∨ Has f K name' k e' := by
  have hs := P.splice T
  have hn : nameOf f' (idx + es.length) e = name := (P.nameOf_new T _).trans (hname _ rfl)
  constructor
  · intro h
    rcases cases_group idx es k with hout | ⟨i, hi, rfl⟩ | rfl
    · refine .inr ((hs.has (le_max_left _ _) ?_ hout).mp h)
      have := h.lt
      rcases P.room with h' | h' <;> omega
    · obtain rfl := Option.some.inj ((P.parts i hi).symm.trans h.ent)
      exact absurd (P.part _ (List.getElem_mem hi)).2 h.considered.not_part
    · obtain rfl := Option.some.inj (P.short.symm.trans h.ent)
      exact .inl ⟨rfl, rfl, hn ▸ h.eq⟩
  · rintro (⟨rfl, rfl, heq⟩ | h)
    · exact ⟨by omega, P.short, P.considered, hn.symm ▸ heq⟩
    · exact (hs.has (le_max_left _ _) h.lt (P.outside T h)).mpr h

/-- The run before the new entry. -/
theorem runStart_new : ∀ i ≤ es.length, runStart f' (idx + i) = idx := by
  have hs := P.splice T
  intro i
  induction i with
  | zero =>
    intro _
    rw [Nat.add_zero, (hs.lo le_rfl fun _ => 0).2, (collected_alone hs.alone fun _ => 0).2]
  | succ i ih =>
    intro hi
    rw [← Nat.add_assoc, runStart_part (P.parts i hi) (P.part _ (List.getElem_mem hi)).2, ih (by omega)]

end Puts

/-! ## Taking a name off -/

/-- **Entry `k`, which is considered, and the run before it are deleted.** -/
structure Marks (f f' : Ents) (K k : ℕ) (e : Bytes) : Prop where
  lt : k < K
  ent : f k = some e
  considered : Considered e
  before : ∀ j < runStart f k, f' j = f j
  inside : ∀ j, runStart f k ≤ j → j ≤ k → ∃ e ∈ f' j, Deleted e
  after : ∀ j, k < j → j < 2 ^ 27 → f' j = f j

/-- What comes before a run is no part of a long name. -/
theorem not_part_before_run : ∀ k j, j + 1 = runStart f k → ∀ e ∈ f j, ¬ LfnPart e := by
  intro k
  induction k with
  | zero =>
    intro j hj
    exact absurd hj (by simp [runStart])
  | succ k ih =>
    intro j hj e he hp
    by_cases h : ∃ e, f k = some e ∧ LfnPart e
    · obtain ⟨e', he', hp'⟩ := h
      rw [runStart_part he' hp'] at hj
      exact ih j hj e he hp
    · rw [runStart_other fun e he hp => h ⟨e, he, hp⟩] at hj
      obtain rfl : j = k := by omega
      exact h ⟨e, he, hp⟩

/-- The names that are not of the run's entry are outside of it. -/
theorem Has.outside_run (h : Has f K name j e') (hne : j ≠ k) : j < runStart f k ∨ k < j := by
  by_contra hin
  obtain ⟨p, hp, hpart⟩ := part_of_run (show runStart f k ≤ j by omega) (by omega)
  obtain rfl := Option.some.inj (hp.symm.trans h.ent)
  exact h.considered.not_part hpart

theorem Marks.cases_run (M : Marks f f' K k e) (j : ℕ) :
    (j < runStart f k ∨ k < j) ∨ ∃ e ∈ f' j, Deleted e := by
  by_cases hin : runStart f k ≤ j ∧ j ≤ k
  · exact .inr (M.inside j hin.1 hin.2)
  · exact .inl (by omega)

namespace Marks

variable (T : Orderly f K) (M : Marks f f' K k e)

include T M

theorem splice : Splice f f' K (runStart f k) k := by
  refine ⟨M.before, fun j hj hK => M.after j hj (hK.trans T.small), not_part_before_run k, fun _ e' he' => ?_,
    fun e' he' => ?_⟩
  · obtain rfl := Option.some.inj (M.ent.symm.trans he')
    exact M.considered.not_part
  · obtain ⟨e'', he'', hd⟩ := M.inside k (runStart_le k) le_rfl
    obtain rfl := Option.some.inj (he''.symm.trans he')
    exact hd.not_part

/-- **The directory stays orderly.** -/
theorem orderly : Orderly f' K := by
  have hs := M.splice T
  refine ⟨T.small, fun j hj => ?_, M.after K M.lt T.small ▸ T.stop, fun j hj e' he' hp => ?_,
    fun j hj e' he' hc u => ?_⟩
  · rcases M.cases_run j with hout | ⟨e', he', hd⟩
    · rw [(hs.outside hj hout).1]
      exact T.used j hj
    · exact ⟨e', he', by rw [hd]; decide⟩
  · rcases M.cases_run j with hout | ⟨e'', he'', hd⟩
    · have hf := (hs.outside hj hout).1 ▸ he'
      obtain ⟨e'', hnext, hf', hor⟩ := T.runs j hj e' hf hp
      have hne : j + 1 ≠ runStart f k := fun h => hs.alone j h e' hf hp
      exact ⟨e'', hnext, (hs.outside hnext (by omega)).1.trans hf', hor⟩
    · obtain rfl := Option.some.inj (he''.symm.trans he')
      exact absurd hp hd.not_part
  · rcases M.cases_run j with hout | ⟨e'', he'', hd⟩
    · rw [(hs.outside hj hout).2.1, hs.nameOf_eq hj hout]
      exact T.names j hj e' ((hs.outside hj hout).1 ▸ he') hc u
    · obtain rfl := Option.some.inj (he''.symm.trans he')
      exact absurd (.inl hd) hc.2

/-- **One name is taken off.** -/
theorem has : Has f' K name j e' ↔ j ≠ k ∧ Has f K name j e' := by
  have hs := M.splice T
  constructor
  · intro h
    rcases M.cases_run j with hout | ⟨e'', he'', hd⟩
    · refine ⟨?_, (hs.has le_rfl h.lt hout).mp h⟩
      rintro rfl
      have := runStart_le (f := f) j
      omega
    · obtain rfl := Option.some.inj (he''.symm.trans h.ent)
      exact absurd (.inl hd) h.considered.2
  · rintro ⟨hne, h⟩
    exact (hs.has le_rfl h.lt (h.outside_run hne)).mpr h

end Marks

/-! ## Rewriting an entry -/

theorem takeWhile_range_congr {n : ℕ} {p q : ℕ → Bool} (h : ∀ i < n, p i = q i) :
    (List.range n).takeWhile p = (List.range n).takeWhile q := by
  induction n with
  | zero => rfl
  | succ n ih =>
    rw [List.range_succ, List.takeWhile_append, List.takeWhile_append, ih fun i hi => h i (by omega),
      List.takeWhile_cons, List.takeWhile_cons, h n (by omega), List.takeWhile_nil, List.takeWhile_nil]

/-- The name of an entry is in its first bytes. -/
theorem dispName_congr (h : ∀ i < 13, e' i = e i) (s : Lfn) : dispName s e' = dispName s e := by
  have hmem : ∀ {n : ℕ} {p : ℕ → Bool} {i : ℕ}, i ∈ (List.range n).takeWhile p → i < n := fun hi =>
    List.mem_range.mp (List.takeWhile_subset _ hi)
  have hbase : shortBase e' = shortBase e := by
    rw [shortBase, shortBase, takeWhile_range_congr (q := fun i => e i ≠ space) fun i hi => by rw [h i (by omega)]]
    refine List.map_congr_left fun i hi => ?_
    have := hmem hi
    rw [h i (by omega), h 12 (by omega)]
  have hext : shortExt e' = shortExt e := by
    rw [shortExt, shortExt, takeWhile_range_congr (q := fun i => e (8 + i) ≠ space) fun i hi => by rw [h (8 + i) (by omega)]]
    refine List.map_congr_left fun i hi => ?_
    have := hmem hi
    rw [h (8 + i) (by omega), h 12 (by omega)]
  rw [dispName, dispName, shortSum_congr fun i hi => h i (by omega), shortName, shortName, hbase, hext]

/-- **Entry `k`, which is considered, has become `e'`**, under its old name. -/
structure Sets (f f' : Ents) (K k : ℕ) (e e' : Bytes) : Prop where
  lt : k < K
  ent : f k = some e
  ent' : f' k = some e'
  considered : Considered e
  same : ∀ i < 13, e' i = e i
  other : ∀ j < 2 ^ 27, j ≠ k → f' j = f j

theorem considered_congr (h : ∀ i < 13, e' i = e i) : Considered e' ↔ Considered e := by
  rw [Considered, Considered, h 0 (by omega), h 11 (by omega)]

theorem Sets.considered' (S : Sets f f' K k e e') : Considered e' := (considered_congr S.same).mpr S.considered

namespace Sets

variable (T : Orderly f K) (S : Sets f f' K k e e')

include T S

/-- No run is another than it was. -/
theorem collected_eq : ∀ j ≤ K, (∀ u, collected f' u j = collected f u j) ∧ runStart f' j = runStart f j := by
  have hsmall := T.small
  intro j
  induction j with
  | zero => exact fun _ => ⟨fun _ => rfl, rfl⟩
  | succ j ih =>
    intro hj
    obtain ⟨hc, hr⟩ := ih (by omega)
    by_cases hjk : j = k
    · subst hjk
      have hno : ∀ e ∈ f j, ¬ LfnPart e := fun e₁ he₁ =>
        Option.some.inj (S.ent.symm.trans he₁) ▸ S.considered.not_part
      have hno' : ∀ e ∈ f' j, ¬ LfnPart e := fun e₁ he₁ =>
        Option.some.inj (S.ent'.symm.trans he₁) ▸ S.considered'.not_part
      exact ⟨fun u => by rw [collected_other hno, collected_other hno'],
        by rw [runStart_other hno, runStart_other hno']⟩
    · refine ⟨fun u => ?_, ?_⟩
      · rw [collected, collected, S.other j (by omega) hjk, hc]
      · rw [runStart, runStart, S.other j (by omega) hjk, hr]

theorem nameOf_eq (hj : j ≤ K) (e₁ : Bytes) : nameOf f' j e₁ = nameOf f j e₁ := by
  rw [nameOf, nameOf, (S.collected_eq T j hj).1]

theorem nameOf_set : nameOf f' k e' = nameOf f k e :=
  (S.nameOf_eq T S.lt.le e').trans (dispName_congr S.same _)

/-- **The directory stays orderly.** -/
theorem orderly : Orderly f' K := by
  have hsmall := T.small
  have hlt := S.lt
  refine ⟨T.small, fun j hj => ?_, ?_, fun j hj e₁ he₁ hp => ?_, fun j hj e₁ he₁ hc u => ?_⟩
  · by_cases hjk : j = k
    · exact ⟨e', hjk ▸ S.ent', S.considered'.1⟩
    · rw [S.other j (by omega) hjk]
      exact T.used j hj
  · rw [S.other K T.small (by omega)]
    exact T.stop
  · have hjk : j ≠ k := by
      rintro rfl
      obtain rfl := Option.some.inj (S.ent'.symm.trans he₁)
      exact S.considered'.not_part hp
    obtain ⟨e₂, hnext, he₂, hor⟩ := T.runs j hj e₁ (S.other j (by omega) hjk ▸ he₁) hp
    by_cases hk : j + 1 = k
    · exact ⟨e', hnext, hk ▸ S.ent', .inr S.considered'⟩
    · exact ⟨e₂, hnext, (S.other _ (by omega) hk).trans he₂, hor⟩
  · rw [(S.collected_eq T j hj.le).1, S.nameOf_eq T hj.le]
    by_cases hjk : j = k
    · subst hjk
      obtain rfl := Option.some.inj (S.ent'.symm.trans he₁)
      rw [dispName_congr S.same, nameOf, dispName_congr S.same]
      exact T.names j hj e S.ent S.considered u
    · exact T.names j hj e₁ (S.other j (by omega) hjk ▸ he₁) hc u

/-- **The names stay.** -/
theorem has {e₁ : Bytes} : Has f' K name j e₁ ↔
    if j = k then e₁ = e' ∧ Has f K name k e else Has f K name j e₁ := by
  have hsmall := T.small
  split_ifs with hjk
  · subst hjk
    constructor
    · rintro ⟨hlt, he, hc, heq⟩
      obtain rfl := Option.some.inj (S.ent'.symm.trans he)
      exact ⟨rfl, hlt, S.ent, S.considered, S.nameOf_set T ▸ heq⟩
    · rintro ⟨rfl, hlt, -, -, heq⟩
      exact ⟨hlt, S.ent', S.considered', (S.nameOf_set T).symm ▸ heq⟩
  · constructor
    · rintro ⟨hlt, he, hc, heq⟩
      exact ⟨hlt, S.other j (by omega) hjk ▸ he, hc, S.nameOf_eq T hlt.le e₁ ▸ heq⟩
    · rintro ⟨hlt, he, hc, heq⟩
      exact ⟨hlt, (S.other j (by omega) hjk).trans he, hc, (S.nameOf_eq T hlt.le e₁).symm ▸ heq⟩

end Sets

/-! ## Catalogs -/

/-- **A catalog**: the names of an orderly directory are single. -/
structure Catalog (f : Ents) (K : ℕ) : Prop extends Orderly f K where
  single : Single f K

theorem Marks.catalog (M : Marks f f' K k e) (h : Catalog f K) : Catalog f' K :=
  ⟨M.orderly h.toOrderly, fun name j e₁ j' e₂ h₁ h₂ =>
    h.single name j e₁ j' e₂ ((M.has h.toOrderly).mp h₁).2 ((M.has h.toOrderly).mp h₂).2⟩

/-- After the end it stays blank. -/
theorem Marks.tidy (M : Marks f f' K k e) (T : Tidy f K) : Tidy f' K := by
  have hlt := M.lt
  refine ⟨M.orderly T.toOrderly, fun j hj hj27 => ?_⟩
  rw [M.after j (by omega) hj27]
  exact T.blank j hj hj27

theorem Puts.catalog (P : Puts f f' K idx es e) (T : Tidy f K)
    (hname : ∀ s : Lfn, s.on = false → decoded idx s (es, e) = name) (h : Catalog f K)
    (hnew : ∀ k e, ¬ Has f K name k e) : Catalog f' (max K (idx + es.length + 1)) := by
  refine ⟨(P.tidy T hname).toOrderly, fun name' k e₁ k' e₂ h₁ h₂ => ?_⟩
  rcases (P.has T hname).mp h₁ with ⟨rfl, rfl, heq⟩ | h₁ <;> rcases (P.has T hname).mp h₂ with ⟨rfl, rfl, heq'⟩ | h₂
  · rfl
  · exact absurd ⟨h₂.lt, h₂.ent, h₂.considered, nameEq_trans h₂.eq (nameEq_symm heq)⟩ (hnew k' e₂)
  · exact absurd ⟨h₁.lt, h₁.ent, h₁.considered, nameEq_trans h₁.eq (nameEq_symm heq')⟩ (hnew k e₁)
  · exact h.single name' k e₁ k' e₂ h₁ h₂

theorem Sets.catalog (S : Sets f f' K k e e') (h : Catalog f K) : Catalog f' K := by
  have hhas : ∀ {n j e₁}, Has f' K n j e₁ → ∃ e₂, Has f K n j e₂ := by
    intro n j e₁ hj
    have := (S.has h.toOrderly).mp hj
    split_ifs at this with hjk
    · exact ⟨e, hjk ▸ this.2⟩
    · exact ⟨e₁, this⟩
  refine ⟨S.orderly h.toOrderly, fun n j e₁ j' e₂ h₁ h₂ => ?_⟩
  obtain ⟨_, h₁⟩ := hhas h₁
  obtain ⟨_, h₂⟩ := hhas h₂
  exact h.single n _ _ _ _ h₁ h₂

theorem Sets.tidy (S : Sets f f' K k e e') (T : Tidy f K) : Tidy f' K := by
  have hlt := S.lt
  refine ⟨S.orderly T.toOrderly, fun j hj hj27 => ?_⟩
  rw [S.other j hj27 (by omega)]
  exact T.blank j hj hj27

end Fat32

end Csos

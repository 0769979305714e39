import Csos.Fat32.Ends
import Csos.Fat32.Resolve
/-!
# FAT32 — listings and lookups

`fat32_readdir`, called until it says `NOENT`, against the entries that
`fat32_dir_lookup` considers, and `fat32_dir_is_empty`. The three scans treat
long names alike, but each call of `fat32_readdir` begins with an `lfn` buffer
of its own, and the three leave entries out by different tests: the displayed
name begins with a dot, or the raw name does. A directory where this makes no
difference is `Plain`, and those are the ones that are listed as they are
looked up (`listing_agrees_iff`).
-/

namespace Csos

namespace Fat32

open Vfs (Str dot errNoent)

/-! ## Considered entries -/

/-- An entry whose name `fat32_dir_lookup` compares. -/
def Considered (e : Bytes) : Prop :=
  e 0 ≠ 0 ∧ ¬ (e 0 = 0xe5 ∨ e 11 = attrLfn ∨ e 11 &&& attrVol ≠ 0)

instance (e : Bytes) : Decidable (Considered e) := inferInstanceAs (Decidable (_ ∧ ¬ _))

/-- One of the entries `.` and `..`. -/
def IsDots (e : Bytes) : Prop :=
  (∀ i ∈ List.range 11, e i = dots 1 i) ∨ ∀ i ∈ List.range 11, e i = dots 2 i

instance (e : Bytes) : Decidable (IsDots e) := inferInstanceAs (Decidable (_ ∨ _))

/-- An entry that a listing should have. -/
def Listable (e : Bytes) : Prop := Considered e ∧ ¬ IsDots e

instance (e : Bytes) : Decidable (Listable e) := inferInstanceAs (Decidable (_ ∧ ¬ _))

/-- What `fat32_readdir` stores of an entry after the long name `s`. -/
def direntOf (s : Lfn) (e : Bytes) : Dirent where
  name := Vfs.strncpy (dispName s e) nameMax
  isDir := e 11 &&& attrDir ≠ 0
  size := Bytes.load 4 e 28

/-- The calls of `fat32_readdir` until one says `NOENT`: what they return, each
with the index that the handle has then; `junk i` is what is on the stack of
call `i`. -/
def listing (g : Geo) : ℕ → (ℕ → ℕ → ℕ) → DirHandle → Vol → Option (List (Dirent × ℕ))
  | 0, _, _, _ => none
  | n + 1, junk, h, v =>
    match readdir g h { v with junk := junk 0 } with
    | (_, some o, h, v) => (listing g n (fun i => junk (i + 1)) h v).map ((o, h.nextIndex) :: ·)
    | (rc, none, _, _) => if rc = errNoent then some [] else none

section

variable (g : Geo) (v : Vol) (d : ℕ)

/-- **What a listing should be**: the entries from `k` on that a lookup considers,
except `.` and `..`, under the names it displays them with. -/
def listed : ℕ → ℕ → List (Dirent × ℕ)
  | 0, _ => []
  | n + 1, k =>
    match entAt g v d k with
    | none => []
    | some e =>
      if e 0 = 0 then []
      else if Listable e then (direntOf (lfnAt g v d k) e, k + 1) :: listed n (k + 1)
      else listed n (k + 1)

/-- **Listing and lookup agree**: whatever is on the stack, the listing of the
directory is complete and has the entries that a lookup considers, each one
time, and it is empty if and only if `fat32_dir_is_empty` says so. -/
def Agrees : Prop :=
  ∀ junk junks, (∃ n, listing g n junks ⟨d, 0⟩ v =
      some (listed g { v with junk := junk } d (2 ^ 27) 0)) ∧
    (listed g { v with junk := junk } d (2 ^ 27) 0 = [] ↔ (dirIsEmpty g d v).1 = true)

/-- The long name that a scan has collected `n` entries after entry `a`, where it
began with `units` in its buffer. -/
def lfnFrom (units : ℕ → ℕ) (a : ℕ) : ℕ → Lfn
  | 0 => ⟨units, 0, 0, 0, false⟩
  | n + 1 => (lfnFrom units a n).step 0 ((entAt g v d (a + n)).getD (Bytes.const 0))

/-- The call that comes to entry `k` begins at `a`: it is the first, or the one
after a call that has listed the entry before `a`. -/
def CallAt (a k : ℕ) : Prop :=
  (a = 0 ∨ ∃ b e, a = b + 1 ∧ entAt g v d b = some e ∧ Listable e) ∧ a ≤ k ∧
    ∀ j e, a ≤ j → j < k → entAt g v d j = some e → ¬ Listable e

/-- Entry `k` comes before the end of the directory. -/
def Entry (k : ℕ) (e : Bytes) : Prop := Reaches g v d k ∧ entAt g v d k = some e

/-- **A plain directory.** It has an end; `.` and `..` are displayed with a dot in
front, all other entries without, and with names that do not depend on what the
buffer of the call held; and if a raw name begins with a dot, besides those two,
then there is one that does not. -/
structure Plain : Prop where
  ends : ∃ k < 2 ^ 27, Stops g v d k
  dots : ∀ a k e units, CallAt g v d a k → Entry g v d k e → Considered e → IsDots e →
    (dispName (lfnFrom g v d units a (k - a)) e).head? = some dot
  names : ∀ a k e, CallAt g v d a k → Entry g v d k e → Listable e →
    ∃ name : Str, name.head? ≠ some dot ∧ ∀ units, dispName (lfnFrom g v d units a (k - a)) e = name
  empty : (∃ k e, Entry g v d k e ∧ Listable e ∧ e 0 = dot) →
    ∃ k e, Entry g v d k e ∧ Considered e ∧ e 0 ≠ dot

end

variable {g : Geo} {v : Vol} {a d i k m n K : ℕ} {e : Bytes} {s t : Lfn} {units : ℕ → ℕ}

/-! ## Long names -/

/-- Two collected names that display alike. -/
structure Lfn.Like (s t : Lfn) : Prop where
  units : s.units = t.units
  on : s.on = t.on
  max : s.max = t.max
  sum : 0 < s.max → s.sum = t.sum

theorem Lfn.Like.add (h : Lfn.Like s t) (off off' : ℕ) (e : Bytes) :
    Lfn.Like (s.add off e) (t.add off' e) := by
  have hbegun : Lfn.Like (if s.on then s else { s with on := true, max := 0, start := off })
      (if t.on then t else { t with on := true, max := 0, start := off' }) := by
    rw [h.on]
    split
    · exact h
    · exact ⟨h.units, rfl, rfl, fun h0 => absurd h0 (by simp)⟩
  rw [Lfn.add, Lfn.add]
  generalize (if s.on then s else { s with on := true, max := 0, start := off }) = s' at hbegun ⊢
  generalize (if t.on then t else { t with on := true, max := 0, start := off' }) = t' at hbegun ⊢
  obtain ⟨hu, ho, hm, hs⟩ := hbegun
  by_cases hseq : 1 ≤ (e 0 &&& 0x1f).toNat ∧ (e 0 &&& 0x1f).toNat ≤ 20
  · rw [if_pos hseq, if_pos hseq, hu, hm]
    exact ⟨rfl, ho, rfl, fun _ => rfl⟩
  · rw [if_neg hseq, if_neg hseq]
    exact ⟨hu, ho, hm, hs⟩

theorem Lfn.Like.step (h : Lfn.Like s t) (off off' : ℕ) (e : Bytes) :
    Lfn.Like (s.step off e) (t.step off' e) := by
  rw [Lfn.step, Lfn.step]
  split
  · exact h.add off off' e
  · exact ⟨h.units, rfl, rfl, fun h0 => absurd h0 (by simp [Lfn.reset])⟩

theorem Lfn.Like.dispName (h : Lfn.Like s t) (e : Bytes) : dispName s e = dispName t e := by
  rw [Fat32.dispName, Fat32.dispName, h.units, h.on, h.max]
  by_cases h0 : 0 < t.max
  · rw [h.sum (by rwa [h.max])]
  · simp [h0]

/-- A considered entry ends the long name. -/
theorem Lfn.step_considered (s : Lfn) (off : ℕ) (he : Considered e) : s.step off e = s.reset := by
  rw [Lfn.step, if_neg]
  exact fun h => he.2 (.inr (.inl h.2))

/-- What a lookup has collected is what the call that comes to the entry would
collect from the buffer that the lookup has then. -/
theorem lfnAt_like (hc : CallAt g v d a k) :
    Lfn.Like (lfnAt g v d k) (lfnFrom g v d (lfnAt g v d a).units a (k - a)) := by
  obtain ⟨hbegin, hak, -⟩ := hc
  obtain ⟨n, rfl⟩ := Nat.exists_eq_add_of_le hak
  rw [Nat.add_sub_cancel_left]
  induction n with
  | zero =>
    rcases hbegin with rfl | ⟨b, e, rfl, he, hlist⟩
    · exact ⟨rfl, rfl, rfl, fun _ => rfl⟩
    · rw [Nat.add_zero, lfnAt_succ he, Lfn.step_considered _ _ hlist.1]
      exact ⟨rfl, rfl, rfl, fun h0 => absurd h0 (by simp [Lfn.reset])⟩
  | succ n ih =>
    rw [← Nat.add_assoc, lfnAt, lfnFrom]
    exact (ih (Nat.le_add_right a n)).step _ _ _

/-! ## The stack of a call -/

theorem entAt_junk (junk : ℕ → ℕ) (k : ℕ) : entAt g { v with junk := junk } d k = entAt g v d k :=
  entAt_disk rfl

theorem lfnFrom_junk (junk units : ℕ → ℕ) (a n : ℕ) :
    lfnFrom g { v with junk := junk } d units a n = lfnFrom g v d units a n := by
  induction n with
  | zero => rfl
  | succ n ih => rw [lfnFrom, lfnFrom, ih, entAt_junk]

theorem callAt_junk (junk : ℕ → ℕ) : CallAt g { v with junk := junk } d a k ↔ CallAt g v d a k := by
  simp only [CallAt, entAt_junk]

/-- If the name does not depend on the buffer, it is that of the lookup. -/
theorem dispName_eq_lfnAt {name : Str} (junk : ℕ → ℕ) (hc : CallAt g v d a k)
    (hname : ∀ units, dispName (lfnFrom g v d units a (k - a)) e = name) :
    dispName (lfnAt g { v with junk := junk } d k) e = name := by
  have hlike := lfnAt_like ((callAt_junk junk).mpr hc)
  rw [hlike.dispName, lfnFrom_junk, hname]

theorem stops_junk (junk : ℕ → ℕ) : Stops g { v with junk := junk } d k ↔ Stops g v d k :=
  stops_disk rfl

theorem reaches_junk (junk : ℕ → ℕ) : Reaches g { v with junk := junk } d k ↔ Reaches g v d k := by
  simp only [Reaches, stops_junk]

theorem listing_junk (junk : ℕ → ℕ) (junks : ℕ → ℕ → ℕ) (n : ℕ) (h : DirHandle) :
    listing g n junks h { v with junk := junk } = listing g n junks h v := by
  cases n <;> rfl

/-! ## The scans -/

/-- `fat32_readdir` at an entry. -/
def readdirAt (k : ℕ) (s : Lfn) : Option Bytes → Option (ℤ × Option Dirent × ℕ)
  | none => some (errNoent, none, k)
  | some e =>
    if e 0 = 0 then some (errNoent, none, k + 1)
    else if Considered e ∧ (dispName s e).head? ≠ some dot then some (fatOk, some (direntOf s e), k + 1)
    else none

/-- `fat32_dir_is_empty` at an entry. -/
def isEmptyAt : Option Bytes → Option Bool
  | none => some true
  | some e => if e 0 = 0 then some true else if Considered e ∧ e 0 ≠ dot then some false else none

theorem readdirLoop_searches (hq : Quiet v) (d a : ℕ) (units : ℕ → ℕ) :
    Searches (fun n (st : Chain × Lfn) idx => readdirLoop g n st.1 idx st.2 v)
      (fun k st => st.1.start = d ∧ Cached g v st.1 ∧ a ≤ k ∧ st.2 = lfnFrom g v d units a (k - a))
      (fun k => (readdirAt k (lfnFrom g v d units a (k - a)) (entAt g v d k)).map fun r =>
        (r.1, r.2.1, r.2.2, v))
      (errIo, none, 0, v.hung) where
  zero _ _ := rfl
  found n st idx r hf hr := by
    obtain ⟨rfl, hc, hak, hst⟩ := hf
    obtain ⟨ch', -, -, hread⟩ := entRead_eq hq hc idx
    obtain ⟨⟨rc, o, j⟩, ho, rfl⟩ := Option.map_eq_some_iff.mp hr
    rw [readdirLoop, hread, hst]
    rcases he : entAt g v st.1.start idx with _ | e <;> rw [he] at ho
    · cases Option.some.inj ho
      rfl
    · rw [readdirAt] at ho
      dsimp only
      rw [if_neg (by decide), if_neg (by decide)]
      split_ifs at ho ⊢ <;> simp_all [direntOf, Considered]
  next n st idx hf hr := by
    obtain ⟨rfl, hc, hak, hst⟩ := hf
    obtain ⟨ch', hst', hc', hread⟩ := entRead_eq hq hc idx
    have hr := Option.map_eq_none_iff.mp hr
    rcases he : entAt g v st.1.start idx with _ | e
    · exact absurd hr (by simp [he, readdirAt])
    have hnext : lfnFrom g v st.1.start units a (idx + 1 - a) =
        (lfnFrom g v st.1.start units a (idx - a)).step 0 e := by
      rw [Nat.succ_sub hak, lfnFrom, Nat.add_sub_cancel' hak, he, Option.getD_some]
    refine ⟨(ch', (lfnFrom g v st.1.start units a (idx - a)).step 0 e),
      ⟨hst', hc', Nat.le_succ_of_le hak, hnext.symm⟩, ?_⟩
    rw [he, readdirAt] at hr
    rw [readdirLoop, hread, he, hst]
    dsimp only
    rw [if_neg (by decide), if_neg (by decide), Lfn.step]
    split_ifs at hr ⊢ <;> simp_all [Considered]

theorem dirIsEmpty_searches (hq : Quiet v) (d : ℕ) :
    Searches (fun n ch idx => dirIsEmptyLoop g n ch idx v)
      (fun _ ch => ch.start = d ∧ Cached g v ch)
      (fun k => (isEmptyAt (entAt g v d k)).map fun b => (b, v)) (false, v.hung) where
  zero _ _ := rfl
  found n ch idx r hf hr := by
    obtain ⟨rfl, hc⟩ := hf
    obtain ⟨ch', -, -, hread⟩ := entRead_eq hq hc idx
    obtain ⟨b, hb, rfl⟩ := Option.map_eq_some_iff.mp hr
    rw [dirIsEmptyLoop, hread]
    rcases he : entAt g v ch.start idx with _ | e <;> rw [he] at hb
    · obtain rfl := Option.some.inj hb
      rfl
    · rw [isEmptyAt] at hb
      dsimp only
      rw [if_neg (by decide), if_neg (by decide)]
      split_ifs at hb ⊢ <;> simp_all [Considered]
  next n ch idx hf hr := by
    obtain ⟨rfl, hc⟩ := hf
    obtain ⟨ch', hst, hc', hread⟩ := entRead_eq hq hc idx
    have hr := Option.map_eq_none_iff.mp hr
    refine ⟨ch', ⟨hst, hc'⟩, ?_⟩
    rw [dirIsEmptyLoop, hread]
    rcases he : entAt g v ch.start idx with _ | e <;> rw [he] at hr
    · exact absurd hr (by simp [isEmptyAt])
    · rw [isEmptyAt] at hr
      dsimp only
      rw [if_neg (by decide), if_neg (by decide)]
      split_ifs at hr ⊢ <;> simp_all [Considered]

/-- The call that begins at `a` goes on past the entries before `k`. -/
def Passes (g : Geo) (v : Vol) (d : ℕ) (units : ℕ → ℕ) (a k : ℕ) : Prop :=
  ∀ j, a ≤ j → j < k → readdirAt j (lfnFrom g v d units a (j - a)) (entAt g v d j) = none

theorem Passes.succ (hp : Passes g v d units a k)
    (hk : readdirAt k (lfnFrom g v d units a (k - a)) (entAt g v d k) = none) :
    Passes g v d units a (k + 1) := by
  intro j haj hj
  rcases Nat.lt_succ_iff_lt_or_eq.mp hj with hlt | rfl
  · exact hp j haj hlt
  · exact hk

/-- A call searches on the entries, whatever is on the stack. -/
theorem readdir_searches (hq : Quiet v) (d a : ℕ) (units : ℕ → ℕ) :
    Searches
      (fun n (st : Chain × Lfn) idx => readdirLoop g n st.1 idx st.2 { v with junk := units })
      (fun k st => st.1.start = d ∧ Cached g { v with junk := units } st.1 ∧ a ≤ k ∧
        st.2 = lfnFrom g v d units a (k - a))
      (fun k => (readdirAt k (lfnFrom g v d units a (k - a)) (entAt g v d k)).map fun r =>
        (r.1, r.2.1, r.2.2, { v with junk := units }))
      (errIo, none, 0, { v with junk := units }.hung) := by
  have h := readdirLoop_searches (g := g) (v := { v with junk := units }) hq d a units
  simpa only [lfnFrom_junk, entAt_junk] using h

theorem readdir_start (v : Vol) (units : ℕ → ℕ) (a : ℕ) :
    (chainInit d).start = d ∧ Cached g { v with junk := units } (chainInit d) ∧ a ≤ a ∧
      (⟨units, 0, 0, 0, false⟩ : Lfn) = lfnFrom g v d units a (a - a) := by
  rw [Nat.sub_self]
  exact ⟨rfl, cached_init d, le_rfl, rfl⟩

/-- **A call of `fat32_readdir`** returns what it finds first. -/
theorem readdir_eq {rc : ℤ} {o : Option Dirent} (hq : Quiet v) (hp : Passes g v d units a k)
    (hak : a ≤ k) (hk : k < rounds)
    (hr : readdirAt k (lfnFrom g v d units a (k - a)) (entAt g v d k) = some (rc, o, i)) :
    readdir g ⟨d, a⟩ { v with junk := units } =
      (rc, o, ⟨d, i % 2 ^ 32⟩, { v with junk := units }) := by
  have hfound := (readdir_searches (g := g) hq d a units).first
    (s := (chainInit d, ⟨units, 0, 0, 0, false⟩)) (n := rounds) (readdir_start v units a) hak (by omega)
    (fun j haj hj => by rw [hp j haj hj, Option.map_none]) (by rw [hr, Option.map_some])
  dsimp only at hfound
  rw [readdir]
  dsimp only
  rw [hfound]

/-- **A call of `fat32_readdir`** has found something and passed all before it, or
it has failed. -/
theorem readdir_cases (hq : Quiet v) (d a : ℕ) (units : ℕ → ℕ) :
    (∃ k rc o i, a ≤ k ∧ Passes g v d units a k ∧
      readdirAt k (lfnFrom g v d units a (k - a)) (entAt g v d k) = some (rc, o, i) ∧
      readdir g ⟨d, a⟩ { v with junk := units } =
        (rc, o, ⟨d, i % 2 ^ 32⟩, { v with junk := units })) ∨
    ∃ h w, readdir g ⟨d, a⟩ { v with junk := units } = (errIo, none, h, w) := by
  rcases (readdir_searches (g := g) hq d a units).cases (s := (chainInit d, ⟨units, 0, 0, 0, false⟩))
    (readdir_start v units a) rounds with ⟨k, r, hak, -, hbefore, hr, hloop⟩ | ⟨-, hout⟩
  · obtain ⟨⟨rc, o, i⟩, hat, rfl⟩ := Option.map_eq_some_iff.mp hr
    refine .inl ⟨k, rc, o, i, hak, fun j haj hj => Option.map_eq_none_iff.mp (hbefore j haj hj), hat, ?_⟩
    dsimp only at hloop
    rw [readdir]
    dsimp only
    rw [hloop]
  · refine .inr ⟨⟨d, 0⟩, { v with junk := units }.hung, ?_⟩
    dsimp only at hout
    rw [readdir]
    dsimp only
    rw [hout]
    rfl

/-! ## What should be listed -/

theorem listed_of_stops (hs : Stops g v d k) (n : ℕ) : listed g v d n k = [] := by
  cases n with
  | zero => rfl
  | succ n =>
    rw [listed]
    cases he : entAt g v d k with
    | none => rfl
    | some e => exact if_pos (hs e he)

theorem listed_succ (he : entAt g v d k = some e) (h0 : e 0 ≠ 0) (n : ℕ) : listed g v d (n + 1) k =
    if Listable e then (direntOf (lfnAt g v d k) e, k + 1) :: listed g v d n (k + 1)
    else listed g v d n (k + 1) := by
  rw [listed, he]
  exact if_neg h0

/-! ## Plain directories are listed as they are looked up -/

theorem callAt_zero : CallAt g v d 0 0 := ⟨.inl rfl, le_rfl, fun _ _ _ h => absurd h (by omega)⟩

/-- The call goes on past an entry that is not listed. -/
theorem CallAt.skip (hc : CallAt g v d a k) (he : entAt g v d k = some e) (hno : ¬ Listable e) :
    CallAt g v d a (k + 1) := by
  obtain ⟨hbegin, hak, hbefore⟩ := hc
  refine ⟨hbegin, Nat.le_succ_of_le hak, fun j e' haj hj he' => ?_⟩
  rcases Nat.lt_succ_iff_lt_or_eq.mp hj with hlt | rfl
  · exact hbefore j e' haj hlt he'
  · rw [he] at he'
    cases he'
    exact hno

/-- The next call begins after an entry that is listed. -/
theorem callAt_succ (he : entAt g v d k = some e) (hlist : Listable e) :
    CallAt g v d (k + 1) (k + 1) :=
  ⟨.inr ⟨k, e, rfl, he, hlist⟩, le_rfl, fun _ _ h1 h2 => absurd h1 (by omega)⟩

theorem passes_self (a : ℕ) : Passes g v d units a a := fun _ h1 h2 => absurd h1 (by omega)

/-- A name is copied whole. -/
theorem direntOf_congr (h : dispName s e = dispName t e) : direntOf s e = direntOf t e := by
  rw [direntOf, direntOf, h]

theorem dispName_of_direntOf (h : direntOf s e = direntOf t e) : dispName s e = dispName t e := by
  have hname : (dispName s e).take (nameMax - 1) = (dispName t e).take (nameMax - 1) :=
    congrArg Dirent.name h
  have hs := dispName_length s e
  have ht := dispName_length t e
  rwa [List.take_of_length_le (by omega), List.take_of_length_le (by omega)] at hname

/-- Of an entry that a call lists or passes, as long as it is not the last. -/
theorem readdirAt_eq (h0 : e 0 ≠ 0) (k : ℕ) (s : Lfn) : readdirAt k s (some e) =
    if Considered e ∧ (dispName s e).head? ≠ some dot then some (fatOk, some (direntOf s e), k + 1)
    else none := if_neg h0

/-- **The calls from entry `k` on** list what should be listed. -/
theorem Plain.listing (hp : Plain g v d) (hq : Quiet v) (hK : Stops g v d K) (hreach : Reaches g v d K)
    (hlt : K < 2 ^ 27) (junk : ℕ → ℕ) (hc : CallAt g v d a k) (hkK : k ≤ K) (junks : ℕ → ℕ → ℕ)
    (hpass : ∀ units, Passes g v d units a k) : ∃ n, listing g n junks ⟨d, a⟩ v =
      some (listed g { v with junk := junk } d (2 ^ 27 - k) k) := by
  have hak := hc.2.1
  induction hn : K - k generalizing a k junks with
  | zero =>
    obtain rfl : k = K := by omega
    -- the call comes to the end of the directory
    have hend : ∃ i, readdirAt k (lfnFrom g v d (junks 0) a (k - a)) (entAt g v d k) =
        some (errNoent, none, i) := by
      cases he : entAt g v d k with
      | none => exact ⟨k, rfl⟩
      | some e => exact ⟨k + 1, if_pos (hK e he)⟩
    obtain ⟨i, hend⟩ := hend
    have hret := readdir_eq hq (hpass (junks 0)) hak (show k < 2 ^ 32 by omega) hend
    refine ⟨1, ?_⟩
    rw [listed_of_stops fun e he => hK e (by rwa [entAt_junk] at he), Fat32.listing, hret]
    exact if_pos rfl
  | succ n ih =>
    obtain ⟨e, he, h0⟩ := not_stops_iff.mp (hreach k (by omega))
    have hentry : Entry g v d k e := ⟨hreach.mono hkK, he⟩
    have hstep := listed_succ (g := g) (v := { v with junk := junk }) (d := d) (k := k)
      (by rwa [entAt_junk]) h0 (2 ^ 27 - (k + 1))
    rw [show 2 ^ 27 - k = 2 ^ 27 - (k + 1) + 1 by omega, hstep]
    by_cases hlist : Listable e
    · -- the call lists this entry
      obtain ⟨name, hdot, hname⟩ := hp.names a k e hc hentry hlist
      have hat : readdirAt k (lfnFrom g v d (junks 0) a (k - a)) (entAt g v d k) =
          some (fatOk, some (direntOf (lfnFrom g v d (junks 0) a (k - a)) e), k + 1) := by
        rw [he, readdirAt_eq h0, if_pos ⟨hlist.1, by rwa [hname]⟩]
      have hret := readdir_eq hq (hpass (junks 0)) hak (show k < 2 ^ 32 by omega) hat
      have hlook := dispName_eq_lfnAt junk hc hname
      obtain ⟨m, hm⟩ := ih (callAt_succ he hlist) (by omega) (fun i => junks (i + 1))
        (fun _ => passes_self _) le_rfl (by omega)
      refine ⟨m + 1, ?_⟩
      rw [if_pos hlist, Fat32.listing, hret]
      dsimp only
      rw [Nat.mod_eq_of_lt (by omega : k + 1 < 2 ^ 32), listing_junk, hm, Option.map_some,
        direntOf_congr ((hname (junks 0)).trans hlook.symm)]
    · rw [if_neg hlist]
      refine ih (hc.skip he hlist) (by omega) junks (fun units => (hpass units).succ ?_) (by omega) (by omega)
      rw [he, readdirAt_eq h0]
      refine if_neg fun hcon => ?_
      have hdots : IsDots e := by
        by_contra hno
        exact hlist ⟨hcon.1, hno⟩
      exact hcon.2 (hp.dots a k e units hc hentry hcon.1 hdots)

/-! ## Empty directories -/

/-- The considered entries come before the first stop. -/
theorem Entry.lt (h : Entry g v d k e) (hcon : Considered e) (hK : Stops g v d K) : k < K := by
  rcases Nat.lt_trichotomy k K with hlt | rfl | hgt
  · exact hlt
  · exact absurd (hK e h.2) hcon.1
  · exact absurd hK (h.1 K hgt)

/-- A listing is empty if there is nothing to list. -/
theorem listed_eq_nil_iff (hK : Stops g v d K) (hreach : Reaches g v d K) (hlt : K < 2 ^ 27) (hkK : k ≤ K) :
    listed g v d (2 ^ 27 - k) k = [] ↔ ∀ j e, k ≤ j → Entry g v d j e → ¬ Listable e := by
  induction hn : K - k generalizing k with
  | zero =>
    obtain rfl : k = K := by omega
    rw [listed_of_stops hK]
    refine iff_of_true rfl fun j e hj hentry hlist => ?_
    exact absurd (hentry.lt hlist.1 hK) (by omega)
  | succ n ih =>
    obtain ⟨e, he, h0⟩ := not_stops_iff.mp (hreach k (by omega))
    have hentry : Entry g v d k e := ⟨hreach.mono hkK, he⟩
    rw [show 2 ^ 27 - k = 2 ^ 27 - (k + 1) + 1 by omega, listed_succ he h0]
    by_cases hlist : Listable e
    · rw [if_pos hlist]
      refine iff_of_false (by simp) fun hall => hall k e le_rfl hentry hlist
    · rw [if_neg hlist, ih (by omega) (by omega)]
      constructor
      · intro hall j e' hj hentry'
        rcases Nat.eq_or_lt_of_le hj with rfl | hlt'
        · obtain rfl := Option.some.inj (he.symm.trans hentry'.2)
          exact hlist
        · exact hall j e' hlt' hentry'
      · exact fun hall j e' hj => hall j e' (by omega)

/-- **`fat32_dir_is_empty`** says whether all considered entries have raw names
with a dot in front. -/
theorem dirIsEmpty_iff (hq : Quiet v) (hK : Stops g v d K) (hreach : Reaches g v d K) (hlt : K < 2 ^ 27) :
    (dirIsEmpty g d v).1 = true ↔ ∀ j e, Entry g v d j e → Considered e → e 0 = dot := by
  have hend : isEmptyAt (entAt g v d K) = some true := by
    cases he : entAt g v d K with
    | none => rfl
    | some e => exact if_pos (hK e he)
  have hgo : ∀ k e, entAt g v d k = some e → e 0 ≠ 0 →
      isEmptyAt (entAt g v d k) = if Considered e ∧ e 0 ≠ dot then some false else none := by
    intro k e he h0
    rw [he]
    exact if_neg h0
  have hfit : (chainInit d).start = d ∧ Cached g v (chainInit d) := ⟨rfl, cached_init d⟩
  rcases (dirIsEmpty_searches hq d).cases hfit rounds with
    ⟨k, r, -, -, hbefore, hr, hloop⟩ | ⟨hnone, -⟩
  · obtain ⟨b, hb, rfl⟩ := Option.map_eq_some_iff.mp hr
    have hkK : k ≤ K := by
      by_contra hgt
      have hnone := Option.map_eq_none_iff.mp (hbefore K (Nat.zero_le K) (by omega))
      rw [hend] at hnone
      cases hnone
    rw [dirIsEmpty, hloop]
    rcases Nat.eq_or_lt_of_le hkK with rfl | hk
    · -- the end of the directory
      obtain rfl : true = b := Option.some.inj (hend.symm.trans hb)
      refine iff_of_true rfl fun j e hentry hcon => ?_
      have hnone := Option.map_eq_none_iff.mp (hbefore j (Nat.zero_le j) (hentry.lt hcon hK))
      rw [hgo j e hentry.2 hcon.1] at hnone
      by_contra hdot
      rw [if_pos ⟨hcon, hdot⟩] at hnone
      cases hnone
    · -- an entry that counts
      obtain ⟨e, he, h0⟩ := not_stops_iff.mp (hreach k hk)
      rw [hgo k e he h0] at hb
      split at hb
      · rename_i hcon
        obtain rfl := Option.some.inj hb
        refine iff_of_false (by simp) fun hall => ?_
        exact hcon.2 (hall k e ⟨hreach.mono hkK, he⟩ hcon.1)
      · cases hb
  · have hnone := Option.map_eq_none_iff.mp (hnone K (Nat.zero_le K) (show K < 0 + 2 ^ 32 by omega))
    rw [hend] at hnone
    cases hnone

theorem IsDots.dot (h : IsDots e) : e 0 = dot := by
  rcases h with h | h <;> exact h 0 (by simp)

/-- The first stop of a directory. -/
theorem first_stop (h : ∃ k < 2 ^ 27, Stops g v d k) : ∃ K < 2 ^ 27, Stops g v d K ∧ Reaches g v d K := by
  classical
  have hex : ∃ k, k < 2 ^ 27 ∧ Stops g v d k := by
    obtain ⟨k, hlt, hk⟩ := h
    exact ⟨k, hlt, hk⟩
  obtain ⟨hlt, hK⟩ := Nat.find_spec hex
  refine ⟨Nat.find hex, hlt, hK, fun j hj hstop => Nat.find_min hex hj ⟨hj.trans hlt, hstop⟩⟩

theorem listed_nil_junk (junk : ℕ → ℕ) (hK : Stops g v d K) (hreach : Reaches g v d K) (hlt : K < 2 ^ 27) :
    listed g { v with junk := junk } d (2 ^ 27) 0 = [] ↔ ∀ j e, Entry g v d j e → ¬ Listable e := by
  have h := listed_eq_nil_iff ((stops_junk junk).mpr hK) ((reaches_junk junk).mpr hreach) hlt (Nat.zero_le K)
  rw [Nat.sub_zero] at h
  rw [h]
  constructor
  · intro hall j e hentry
    exact hall j e (Nat.zero_le j) ⟨(reaches_junk junk).mpr hentry.1, by rw [entAt_junk, hentry.2]⟩
  · intro hall j e _ hentry
    exact hall j e ⟨(reaches_junk junk).mp hentry.1, by rw [← entAt_junk junk, hentry.2]⟩

/-- **A plain directory is listed as it is looked up.** -/
theorem Plain.agrees (hp : Plain g v d) (hq : Quiet v) : Agrees g v d := by
  obtain ⟨K, hlt, hK, hreach⟩ := first_stop hp.ends
  intro junk junks
  refine ⟨hp.listing hq hK hreach hlt junk callAt_zero (Nat.zero_le K) junks fun _ => passes_self 0, ?_⟩
  rw [listed_nil_junk junk hK hreach hlt, dirIsEmpty_iff hq hK hreach hlt]
  constructor
  · intro hno j e hentry hcon
    have hdots : IsDots e := by
      by_contra hne
      exact hno j e hentry ⟨hcon, hne⟩
    exact hdots.dot
  · intro hall j e hentry hlist
    obtain ⟨k, e', hentry', hcon, hne⟩ := hp.empty ⟨j, e, hentry, hlist, hall j e hentry hlist.1⟩
    exact hne (hall k e' hentry' hcon)

/-! ## Directories that agree are plain -/

/-- A listing that is complete has come to a stop. -/
theorem stops_of_listing (hq : Quiet v) {n a : ℕ} {junks : ℕ → ℕ → ℕ} {l : List (Dirent × ℕ)}
    (h : Fat32.listing g n junks ⟨d, a⟩ v = some l) : ∃ k, Stops g v d k := by
  induction n generalizing a junks l with
  | zero => cases h
  | succ n ih =>
    rw [Fat32.listing] at h
    rcases readdir_cases (g := g) hq d a (junks 0) with ⟨k, rc, o, i, -, -, hat, hret⟩ | ⟨h', w, hret⟩
    · rw [hret] at h
      cases o with
      | some o =>
        dsimp only at h
        rw [listing_junk] at h
        obtain ⟨l', hl', -⟩ := Option.map_eq_some_iff.mp h
        exact ih hl'
      | none =>
        refine ⟨k, fun e he => ?_⟩
        by_contra h0
        rw [Option.mem_def.mp he, readdirAt_eq h0] at hat
        split at hat <;> simp at hat
    · rw [hret] at h
      exact absurd h (by simp)

theorem exists_callAt (k : ℕ) : ∃ a, CallAt g v d a k := by
  induction k with
  | zero => exact ⟨0, callAt_zero⟩
  | succ k ih =>
    obtain ⟨a, hc⟩ := ih
    cases he : entAt g v d k with
    | none =>
      refine ⟨a, hc.1, Nat.le_succ_of_le hc.2.1, fun j e haj hj hej => ?_⟩
      rcases Nat.lt_succ_iff_lt_or_eq.mp hj with hlt | rfl
      · exact hc.2.2 j e haj hlt hej
      · rw [he] at hej
        cases hej
    | some e =>
      by_cases hlist : Listable e
      · exact ⟨k + 1, callAt_succ he hlist⟩
      · exact ⟨a, hc.skip he hlist⟩

/-- What is listed has the index after it. -/
theorem lt_of_mem_listed {x : Dirent × ℕ} (h : x ∈ listed g v d n k) : k < x.2 := by
  induction n generalizing k with
  | zero => cases h
  | succ n ih =>
    rw [listed] at h
    split at h
    · cases h
    · split_ifs at h
      · cases h
      · rcases List.mem_cons.mp h with rfl | hmem
        · exact Nat.lt_succ_self k
        · exact (Nat.lt_succ_self k).trans (ih hmem)
      · exact (Nat.lt_succ_self k).trans (ih h)

/-- Entries that are not listed make no difference. -/
theorem listed_skip (hc : CallAt g v d a k) (hreach : Reaches g v d k) (hlt : k ≤ 2 ^ 27) :
    listed g v d (2 ^ 27 - a) a = listed g v d (2 ^ 27 - k) k := by
  obtain ⟨-, hak, hbefore⟩ := hc
  induction hn : k - a generalizing a with
  | zero =>
    obtain rfl : a = k := by omega
    rfl
  | succ n ih =>
    obtain ⟨e, he, h0⟩ := not_stops_iff.mp (hreach a (by omega))
    rw [show 2 ^ 27 - a = 2 ^ 27 - (a + 1) + 1 by omega, listed_succ he h0,
      if_neg (hbefore a e le_rfl (by omega) he)]
    exact ih (by omega) (fun j e' h1 => hbefore j e' (by omega)) (by omega)

/-- The calls from entry `a` on list what should be listed. -/
def AgreesFrom (g : Geo) (v : Vol) (d a : ℕ) : Prop :=
  ∀ junk junks, ∃ n, Fat32.listing g n junks ⟨d, a⟩ v =
    some (listed g { v with junk := junk } d (2 ^ 27 - a) a)

/-- The stack of a call, and those of the calls after it. -/
def stackAt (units : ℕ → ℕ) (junks : ℕ → ℕ → ℕ) : ℕ → ℕ → ℕ
  | 0 => units
  | i + 1 => junks i

theorem readdirAt_of_some {o : Dirent} {rc : ℤ} {r : Option Bytes}
    (h : readdirAt k s r = some (rc, some o, i)) : ∃ e, r = some e ∧ e 0 ≠ 0 ∧ Considered e ∧
      (dispName s e).head? ≠ some dot ∧ o = direntOf s e ∧ i = k + 1 := by
  cases r with
  | none => cases h
  | some e =>
    rw [readdirAt] at h
    split_ifs at h with h0 hcon
    · cases h
    · cases h
      exact ⟨e, rfl, h0, hcon.1, hcon.2, rfl, rfl⟩

/-- **The next call and those after it**, where something should be listed. -/
theorem AgreesFrom.call (h : AgreesFrom g v d a) (hq : Quiet v) (hK : Stops g v d K) (haK : a ≤ K)
    (hlt : K < 2 ^ 27) (junk units : ℕ → ℕ) (junks : ℕ → ℕ → ℕ) {x : Dirent × ℕ}
    {l : List (Dirent × ℕ)} (hl : listed g { v with junk := junk } d (2 ^ 27 - a) a = x :: l) :
    ∃ k e, a ≤ k ∧ Passes g v d units a k ∧ entAt g v d k = some e ∧ Considered e ∧
      (dispName (lfnFrom g v d units a (k - a)) e).head? ≠ some dot ∧
      x = (direntOf (lfnFrom g v d units a (k - a)) e, k + 1) ∧
      ∃ n, Fat32.listing g n junks ⟨d, k + 1⟩ v = some l := by
  obtain ⟨n, hn⟩ := h junk (stackAt units junks)
  rw [hl] at hn
  cases n with
  | zero => cases hn
  | succ n =>
    simp only [Fat32.listing, stackAt] at hn
    rcases readdir_cases (g := g) hq d a units with ⟨k, rc, o, i, hak, hpass, hat, hret⟩ | ⟨h', w, hret⟩
    · rw [hret] at hn
      cases o with
      | none =>
        -- the listing would end here
        dsimp only at hn
        split at hn
        · cases hn
        · cases hn
      | some o =>
        obtain ⟨e, he, h0, hcon, hdot, rfl, rfl⟩ := readdirAt_of_some hat
        have hkK : k ≤ K := by
          by_contra hgt
          have hnone := hpass K haK (by omega)
          cases hs : entAt g v d K with
          | none =>
            rw [hs] at hnone
            cases hnone
          | some e' =>
            rw [hs, readdirAt, if_pos (hK e' hs)] at hnone
            cases hnone
        dsimp only at hn
        rw [listing_junk, Nat.mod_eq_of_lt (by omega : k + 1 < 2 ^ 32)] at hn
        obtain ⟨l', hl', hcons⟩ := Option.map_eq_some_iff.mp hn
        obtain ⟨rfl, rfl⟩ := List.cons.inj hcons
        exact ⟨k, e, hak, hpass, he, hcon, hdot, rfl, n, hl'⟩
    · rw [hret] at hn
      exact absurd hn (by simp)

/-- **At an entry that should not be listed** the call goes on. -/
theorem AgreesFrom.skip (h : AgreesFrom g v d a) (hq : Quiet v) (hc : CallAt g v d a k)
    (hpass : ∀ units, Passes g v d units a k) (hreach : Reaches g v d k) (hlt : k < 2 ^ 27)
    (he : entAt g v d k = some e) (h0 : e 0 ≠ 0) (hno : ¬ Listable e) (units : ℕ → ℕ) :
    readdirAt k (lfnFrom g v d units a (k - a)) (entAt g v d k) = none := by
  rw [he, readdirAt_eq h0]
  refine if_neg fun hcon => ?_
  have hat : readdirAt k (lfnFrom g v d units a (k - a)) (entAt g v d k) =
      some (fatOk, some (direntOf (lfnFrom g v d units a (k - a)) e), k + 1) := by
    rw [he, readdirAt_eq h0, if_pos hcon]
  have hret := readdir_eq hq (hpass units) hc.2.1 (show k < 2 ^ 32 by omega) hat
  obtain ⟨n, hn⟩ := h v.junk fun _ => units
  cases n with
  | zero => cases hn
  | succ n =>
    rw [Fat32.listing] at hn
    rw [hret] at hn
    dsimp only at hn
    rw [Nat.mod_eq_of_lt (by omega : k + 1 < 2 ^ 32)] at hn
    obtain ⟨l, -, hl⟩ := Option.map_eq_some_iff.mp hn
    -- but what is listed has a later index
    have hskip := listed_skip ((callAt_junk v.junk).mpr hc) ((reaches_junk v.junk).mpr hreach) hlt.le
    have hstep := listed_succ (g := g) (v := { v with junk := v.junk }) (d := d) (k := k)
      (by rwa [entAt_junk]) h0 (2 ^ 27 - (k + 1))
    rw [if_neg hno, show 2 ^ 27 - (k + 1) + 1 = 2 ^ 27 - k by omega] at hstep
    rw [hskip, hstep] at hl
    have hmem : (direntOf (lfnFrom g v d units a (k - a)) e, k + 1) ∈
        listed g { v with junk := v.junk } d (2 ^ 27 - (k + 1)) (k + 1) := by
      rw [← hl]
      exact List.mem_cons_self
    exact absurd (lt_of_mem_listed hmem) (lt_irrefl _)

/-- **At an entry that should be listed** the call lists it, whatever its buffer
held, and the calls after it list what should be listed. -/
theorem AgreesFrom.names (h : AgreesFrom g v d a) (hq : Quiet v) (hK : Stops g v d K) (hlt : K < 2 ^ 27)
    (hc : CallAt g v d a k) (hreach : Reaches g v d k) (hkK : k < K) (he : entAt g v d k = some e)
    (hlist : Listable e) :
    (∃ name : Str, name.head? ≠ some dot ∧ ∀ units, dispName (lfnFrom g v d units a (k - a)) e = name) ∧
      AgreesFrom g v d (k + 1) := by
  have hak := hc.2.1
  have hl : ∀ junk, listed g { v with junk := junk } d (2 ^ 27 - a) a =
      (direntOf (lfnAt g { v with junk := junk } d k) e, k + 1) ::
        listed g { v with junk := junk } d (2 ^ 27 - (k + 1)) (k + 1) := by
    intro junk
    have hstep := listed_succ (g := g) (v := { v with junk := junk }) (d := d) (k := k)
      (by rwa [entAt_junk]) hlist.1.1 (2 ^ 27 - (k + 1))
    rw [if_pos hlist, show 2 ^ 27 - (k + 1) + 1 = 2 ^ 27 - k by omega] at hstep
    rw [listed_skip ((callAt_junk junk).mpr hc) ((reaches_junk junk).mpr hreach) (by omega), hstep]
  have hcall : ∀ junk units junks, (dispName (lfnFrom g v d units a (k - a)) e).head? ≠ some dot ∧
      dispName (lfnAt g { v with junk := junk } d k) e = dispName (lfnFrom g v d units a (k - a)) e ∧
      ∃ n, Fat32.listing g n junks ⟨d, k + 1⟩ v =
        some (listed g { v with junk := junk } d (2 ^ 27 - (k + 1)) (k + 1)) := by
    intro junk units junks
    obtain ⟨k', e', -, -, he', -, hdot, hx, hrest⟩ :=
      h.call hq hK (hak.trans hkK.le) hlt junk units junks (hl junk)
    obtain ⟨hdir, hk⟩ := Prod.mk.inj hx
    obtain rfl : k = k' := Nat.succ.inj hk
    obtain rfl : e = e' := Option.some.inj (he.symm.trans he')
    exact ⟨hdot, dispName_of_direntOf hdir, hrest⟩
  refine ⟨⟨dispName (lfnAt g { v with junk := v.junk } d k) e, ?_, fun units => ?_⟩, fun junk junks => ?_⟩
  · obtain ⟨hdot, hsame, -⟩ := hcall v.junk v.junk fun _ => v.junk
    rwa [hsame]
  · exact (hcall v.junk units fun _ => v.junk).2.1.symm
  · exact (hcall junk v.junk junks).2.2

/-- The calls come to every entry as they should. -/
theorem Agrees.from_call (h : Agrees g v d) (hq : Quiet v) (hK : Stops g v d K) (hreach : Reaches g v d K)
    (hlt : K < 2 ^ 27) (hkK : k ≤ K) (hc : CallAt g v d a k) :
    AgreesFrom g v d a ∧ ∀ units, Passes g v d units a k := by
  induction k generalizing a with
  | zero =>
    obtain rfl : a = 0 := Nat.le_zero.mp hc.2.1
    exact ⟨fun junk junks => (h junk junks).1, fun units => passes_self 0⟩
  | succ k ih =>
    obtain ⟨e, he, h0⟩ := not_stops_iff.mp (hreach k (by omega))
    rcases Nat.eq_or_lt_of_le hc.2.1 with rfl | hak
    · -- the call begins here
      obtain ⟨hbegin, -, -⟩ := hc
      rcases hbegin with hcon | ⟨b, e', hb, he', hlist⟩
      · cases hcon
      obtain rfl := Nat.succ.inj hb
      obtain ⟨a, hca⟩ := exists_callAt (g := g) (v := v) (d := d) k
      obtain ⟨hfrom, -⟩ := ih (by omega) hca
      exact ⟨(hfrom.names hq hK hlt hca (hreach.mono (by omega)) (by omega) he' hlist).2,
        fun units => passes_self _⟩
    · have hca : CallAt g v d a k := ⟨hc.1, by omega, fun j e' h1 h2 => hc.2.2 j e' h1 (by omega)⟩
      obtain ⟨hfrom, hpass⟩ := ih (by omega) hca
      have hno := hc.2.2 k e (by omega) (Nat.lt_succ_self k) he
      refine ⟨hfrom, fun units => (hpass units).succ ?_⟩
      exact hfrom.skip hq hca hpass (hreach.mono (by omega)) (by omega) he h0 hno units

/-- **A directory that is listed as it is looked up is plain.** -/
theorem Agrees.plain (h : Agrees g v d) (hq : Quiet v) : Plain g v d := by
  have hends : ∃ k < 2 ^ 27, Stops g v d k := by
    obtain ⟨n, hn⟩ := (h v.junk fun _ => v.junk).1
    obtain ⟨k, hk⟩ := stops_of_listing hq hn
    exact ⟨k % 2 ^ 27, Nat.mod_lt _ (by norm_num), stops_mod.mpr hk⟩
  obtain ⟨K, hlt, hK, hreach⟩ := first_stop hends
  refine ⟨hends, fun a k e units hc hentry hcon hdots => ?_, fun a k e hc hentry hlist => ?_, ?_⟩
  · have hkK := hentry.lt hcon hK
    obtain ⟨hfrom, hpass⟩ := h.from_call hq hK hreach hlt hkK.le hc
    have hat := hfrom.skip hq hc hpass hentry.1 (by omega) hentry.2 hcon.1 (fun hl => hl.2 hdots) units
    rw [hentry.2, readdirAt_eq hcon.1] at hat
    by_contra hne
    rw [if_pos ⟨hcon, hne⟩] at hat
    cases hat
  · have hkK := hentry.lt hlist.1 hK
    obtain ⟨hfrom, -⟩ := h.from_call hq hK hreach hlt hkK.le hc
    exact (hfrom.names hq hK hlt hc hentry.1 hkK hentry.2 hlist).1
  · rintro ⟨k, e, hentry, hlist, -⟩
    by_contra hno
    have hempty : (dirIsEmpty g d v).1 = true := by
      refine (dirIsEmpty_iff hq hK hreach hlt).mpr fun j e' hentry' hcon => ?_
      by_contra hne
      exact hno ⟨j, e', hentry', hcon, hne⟩
    have hnil := (h v.junk fun _ => v.junk).2.mpr hempty
    exact (listed_nil_junk v.junk hK hreach hlt).mp hnil k e hentry hlist

/-- **Listing and lookup agree exactly on plain directories**, on a device that
does not fail. -/
theorem listing_agrees_iff (g : Geo) (hq : Quiet v) (d : ℕ) : Agrees g v d ↔ Plain g v d :=
  ⟨fun h => h.plain hq, fun h => h.agrees hq⟩

/-! ### A file in the root -/

/-- A volume whose root directory has one cluster, with these contents. -/
def Boot.root (sec : Bytes) : ℕ → Bytes := fun lba =>
  if lba = 0 then Boot.of 32 1 133 0
  else if lba = 32 then Bytes.store 4 (Bytes.const 0) 8 eoc
  else if lba = 33 then sec
  else Bytes.const 0

/-- That volume, mounted. -/
def Boot.rooted (sec : Bytes) : Vol := ⟨2, 0, false, Boot.root sec, [], false, fun _ => 0⟩

/-- The entry of a file `A` of five bytes. -/
def Boot.letter : Bytes := makeSlot (rawName [0x41] []) attrArch 0 0 5

theorem plain_letter : Plain Boot.small (Boot.rooted Boot.letter) 2 := by
  have hK : Stops Boot.small (Boot.rooted Boot.letter) 2 1 := by
    intro e he
    cases he
    decide +kernel
  have hzero : ∀ k e, Entry Boot.small (Boot.rooted Boot.letter) 2 k e → Considered e → k = 0 := by
    intro k e hentry hcon
    exact Nat.lt_one_iff.mp (hentry.lt hcon hK)
  refine ⟨⟨1, by norm_num, hK⟩, ?_, ?_, ?_⟩
  · intro a k e units hc hentry hcon hdots
    obtain rfl := hzero k e hentry hcon
    have hraw := hdots.dot
    cases hentry.2
    exact absurd hraw (by decide +kernel)
  · intro a k e hc hentry hlist
    obtain rfl := hzero k e hentry hlist.1
    obtain rfl := Nat.le_zero.mp hc.2.1
    cases hentry.2
    refine ⟨[0x41], by decide, fun units => ?_⟩
    rw [lfnFrom, dispName, if_neg (by simp)]
    decide +kernel
  · rintro ⟨k, e, hentry, hlist, hraw⟩
    obtain rfl := hzero k e hentry hlist.1
    cases hentry.2
    exact absurd hraw (by decide +kernel)

/-- That file is listed as it is looked up. -/
theorem listing_agrees_letter : Agrees Boot.small (Boot.rooted Boot.letter) 2 :=
  (listing_agrees_iff Boot.small (v := Boot.rooted Boot.letter) rfl 2).mpr plain_letter

/-- The entries of a file `.rc`, with a long name. -/
def Boot.dotFile : Bytes :=
  let raw := tildeName (mangledBase [0x2e, 0x72, 0x63]) [] 1
  Bytes.blit (lfnEntry [0x2e, 0x72, 0x63] (shortSum raw) 1 1) 32 32 (makeSlot raw attrArch 0 0 5)

/-- **A file `.rc` is hidden**: a lookup finds it and the directory is not empty,
but there is nothing in its listing. -/
theorem listing_hides_file :
    mount (some ⟨Boot.root Boot.dotFile, [], 512, true, true⟩) true (fun _ => 0) =
      .ok (Boot.small, Boot.rooted Boot.dotFile) ∧
    (dirLookup Boot.small 2 [0x2e, 0x72, 0x63] (Boot.rooted Boot.dotFile)).2.1.isSome = true ∧
    (listing Boot.small 1 (fun _ _ => 0) ⟨2, 0⟩ (Boot.rooted Boot.dotFile)).map List.length = some 0 ∧
    (dirIsEmpty Boot.small 2 (Boot.rooted Boot.dotFile)).1 = false ∧
    ¬ Agrees Boot.small (Boot.rooted Boot.dotFile) 2 := by
  refine ⟨(mount_quiet _ (by decide) (by decide) (by decide)).trans rfl, by decide +kernel,
    by decide +kernel, by decide +kernel, fun h => ?_⟩
  have hplain := h.plain rfl
  -- the call that begins at the long name comes to the file
  have hcall : CallAt Boot.small (Boot.rooted Boot.dotFile) 2 0 1 := by
    refine ⟨.inl rfl, Nat.zero_le 1, fun j e _ hj he => ?_⟩
    obtain rfl := Nat.lt_one_iff.mp hj
    cases he
    decide +kernel
  have hreach : Reaches Boot.small (Boot.rooted Boot.dotFile) 2 1 := by
    intro j hj
    obtain rfl := Nat.lt_one_iff.mp hj
    exact not_stops_iff.mpr ⟨_, rfl, by decide +kernel⟩
  obtain ⟨name, hdot, hname⟩ := hplain.names 0 1 _ hcall ⟨hreach, rfl⟩ (by decide +kernel)
  rw [← hname fun _ => 0] at hdot
  exact hdot (by decide +kernel)

end Fat32

end Csos

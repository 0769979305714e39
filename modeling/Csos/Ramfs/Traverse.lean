import Csos.Ramfs.Refine
/-!
# The RAM file system — traversal

A directory handle goes through the children in the order of their names, and
the child it stands at cannot be removed. So whatever other callers do
meanwhile, it returns no name twice and misses no child that stays. The
argument is made on the map, where the handle is its path and the last name.
-/

namespace Csos

namespace Ramfs

open Vfs

variable {s s' : State} {t t' : View} {k : Addr} {p out : List Str} {kept : Set Str} {x : Call}
  {ans : Answer}

/-! ## Names in order -/

theorem nextName_isLeast {T : Tree} {last : Option Str} {n : Str} (h : T.nextName p last = some n) :
    IsLeast {n | n ∈ T.names p ∧ ∀ l, last = some l → l < n} n := by
  unfold Tree.nextName at h
  split at h
  · rename_i hex
    rw [← Option.some.inj h]
    exact hex.choose_spec
  · exact absurd h (by simp)

theorem View.create_dirs (t : View) (path : List Str) (e : Entry) (mem : Option Addr) :
    (t.create path e mem).2.dirs = t.dirs := by
  unfold View.create
  repeat' split
  all_goals rfl

theorem View.openEntry_dirs (t : View) (path : List Str) (flags : ℕ) (mem : Option Addr) :
    (t.openEntry path flags mem).2.dirs = t.dirs := by
  unfold View.openEntry
  split
  · split
    · exact View.create_dirs t path _ mem
    · rfl
  · rfl

theorem View.truncate_dirs (t : View) (p : List Str) (flags : ℕ) :
    (t.truncate p flags).dirs = t.dirs := by
  unfold View.truncate
  split
  · split <;> rfl
  · rfl

/-- **Calls on other handles** leave a directory handle alone. -/
theorem View.Allowed.dirs_of_ne (h : t.Allowed x ans t') (hk : (t.dirs k).isSome = true)
    (hread : x ≠ .readdir k) (hclose : x ≠ .closedir k) : t'.dirs k = t.dirs k := by
  rcases h with h | ⟨_, _, -, -, rfl⟩
  swap
  · rfl
  cases x with
  | openFile k' path flags mem =>
    have hd := View.openEntry_dirs t path flags mem
    simp only [View.apply] at h
    split at h
    · exact absurd h (by simp)
    · split at h
      · rename_i heq
        rw [heq] at hd
        rw [← (Prod.mk.inj (Option.some.inj h)).2, hd]
      · rename_i heq
        rw [heq] at hd
        split at h
        · rw [← (Prod.mk.inj (Option.some.inj h)).2, hd]
        · split at h
          · rw [← (Prod.mk.inj (Option.some.inj h)).2, hd]
          · rw [← (Prod.mk.inj (Option.some.inj h)).2]
            exact congrFun ((View.truncate_dirs _ _ _).trans hd) k
  | close k' =>
    obtain ⟨f, -, he⟩ := Option.map_eq_some_iff.mp h
    rw [← (Prod.mk.inj he).2]
  | read k' len =>
    obtain ⟨f, -, he⟩ := Option.map_eq_some_iff.mp h
    split at he <;> rw [← (Prod.mk.inj he).2]
  | write k' buf mem =>
    obtain ⟨f, -, he⟩ := Option.map_eq_some_iff.mp h
    split at he <;> rw [← (Prod.mk.inj he).2]
  | seek k' off whence =>
    obtain ⟨f, -, he⟩ := Option.map_eq_some_iff.mp h
    split at he
    · rw [← (Prod.mk.inj he).2]
    · dsimp only at he
      generalize (if whence = seekSet then off
        else if whence = seekCur then f.pos + off else t.sizeAt f.path + off) = base at he
      split at he <;> rw [← (Prod.mk.inj he).2]
  | stat path =>
    simp only [View.apply] at h
    split at h <;> rw [← (Prod.mk.inj (Option.some.inj h)).2]
  | mkdir path mem =>
    have hd := View.create_dirs t path .dir mem
    simp only [View.apply] at h
    split at h
    all_goals
      rename_i heq
      rw [heq] at hd
      rw [← (Prod.mk.inj (Option.some.inj h)).2, hd]
  | rmdir path =>
    simp only [View.apply] at h
    repeat' split at h
    all_goals rw [← (Prod.mk.inj (Option.some.inj h)).2]
  | opendir k' path =>
    simp only [View.apply] at h
    split at h
    · exact absurd h (by simp)
    · rename_i hfree
      split at h
      · rw [← (Prod.mk.inj (Option.some.inj h)).2]
      · rw [← (Prod.mk.inj (Option.some.inj h)).2]
      · have hne : k ≠ k' := fun he => hfree (he ▸ hk)
        rw [← (Prod.mk.inj (Option.some.inj h)).2]
        exact Function.update_of_ne hne _ _
  | readdir k' =>
    have hne : k ≠ k' := fun he => hread (he ▸ rfl)
    obtain ⟨d, -, he⟩ := Option.map_eq_some_iff.mp h
    split at he
    · rw [← (Prod.mk.inj he).2]
    · split at he
      · rw [← (Prod.mk.inj he).2]
      · rw [← (Prod.mk.inj he).2]
        exact Function.update_of_ne hne _ _
  | closedir k' =>
    have hne : k ≠ k' := fun he => hclose (he ▸ rfl)
    obtain ⟨d, -, he⟩ := Option.map_eq_some_iff.mp h
    rw [← (Prod.mk.inj he).2]
    exact Function.update_of_ne hne _ _

/-- **`readdir`** returns the least name above the last, or there is none. -/
theorem View.Allowed.readdir {v : DirView} (h : t.Allowed (.readdir k) ans t')
    (hv : t.dirs k = some v) :
    (ans = .code errNoent ∧ t' = t ∧ t.tree.nextName v.path v.last = none) ∨
      ∃ n e, t.tree.nextName v.path v.last = some n ∧ t.tree.entry (v.path ++ [n]) = some e ∧
        ans = .entry n e.isDir e.size ∧
        t' = { t with dirs := Function.update t.dirs k (some { v with last := some n }) } := by
  rcases h with h | ⟨_, _, hc, -⟩
  swap
  · exact absurd hc (by simp)
  obtain ⟨d, hd, he⟩ := Option.map_eq_some_iff.mp h
  obtain rfl := Option.some.inj (hv.symm.trans hd)
  split at he
  · rename_i hnone
    obtain ⟨rfl, rfl⟩ := Prod.mk.inj he
    exact .inl ⟨rfl, rfl, hnone⟩
  · rename_i n hsome
    split at he
    · rename_i hentry
      exact absurd hentry (nextName_isLeast hsome).1.1
    · rename_i e hentry
      obtain ⟨rfl, rfl⟩ := Prod.mk.inj he
      exact .inr ⟨n, e, hsome, hentry, rfl, rfl⟩

/-! ## A traversal on the map -/

/-- **Where a traversal is**: the names returned increase, the handle stands at
the last of them, and of the names that were kept those up to it have been
returned and the others are there. -/
structure Passing (t : View) (k : Addr) (p out : List Str) (kept : Set Str) : Prop where
  handle : t.dirs k = some ⟨p, out.getLast?⟩
  sorted : out.Pairwise (· < ·)
  passed : ∀ n ∈ kept, (∃ m ∈ out, n ≤ m) → n ∈ out
  ahead : ∀ n ∈ kept, n ∈ t.tree.names p ∨ ∃ m ∈ out, n ≤ m

theorem le_getLast {m l : Str} (h : out.Pairwise (· < ·)) (hm : m ∈ out)
    (hl : out.getLast? = some l) : m ≤ l := by
  obtain ⟨init, rfl⟩ := List.getLast?_eq_some_iff.mp hl
  rcases List.mem_append.mp hm with hm | hm
  · exact le_of_lt ((List.pairwise_append.mp h).2.2 m hm l (by simp))
  · rw [List.mem_singleton.mp hm]

/-- A name is above the last one if none that was returned is above it. -/
theorem above_of_not_passed {n : Str} (hn : ¬ ∃ m ∈ out, n ≤ m) :
    ∀ l, out.getLast? = some l → l < n := fun l hl =>
  lt_of_not_ge fun hle => hn ⟨l, List.mem_of_getLast? hl, hle⟩

/-- The call leaves the handle where it is. -/
theorem Passing.stay (h : Passing t k p out kept) (hd : t'.dirs k = t.dirs k) :
    Passing t' k p out {n ∈ kept | n ∈ t'.tree.names p ∨ ∃ m ∈ out, n ≤ m} :=
  ⟨hd.trans h.handle, h.sorted, fun n hn => h.passed n hn.1, fun _ hn => hn.2⟩

/-- **One more name**: it is above the last, and no kept name is between. -/
theorem Passing.next (h : Passing t k p out kept) {n : Str}
    (hn : t.tree.nextName p out.getLast? = some n) (hd : t'.dirs k = some ⟨p, some n⟩) :
    Passing t' k p (out ++ [n]) {m ∈ kept | m ∈ t'.tree.names p ∨ ∃ l ∈ out ++ [n], m ≤ l} := by
  obtain ⟨⟨-, habove⟩, hleast⟩ := nextName_isLeast hn
  refine ⟨by rw [hd, List.getLast?_concat], ?_, fun m hm hpassed => ?_, fun _ hm => hm.2⟩
  · refine List.pairwise_append.mpr ⟨h.sorted, List.pairwise_singleton _ _, fun m hm l hl => ?_⟩
    rw [List.mem_singleton.mp hl]
    obtain ⟨last, hlast⟩ := Option.ne_none_iff_exists'.mp fun he =>
      List.ne_nil_of_mem hm (List.getLast?_eq_none_iff.mp he)
    exact lt_of_le_of_lt (le_getLast h.sorted hm hlast) (habove last hlast)
  · by_cases hout : ∃ l ∈ out, m ≤ l
    · exact List.mem_append_left _ (h.passed m hm.1 hout)
    · -- the name is ahead, and the next one is the least of these
      have hmem := (h.ahead m hm.1).resolve_right hout
      have hge : n ≤ m := hleast ⟨hmem, above_of_not_passed hout⟩
      obtain ⟨l, hl, hml⟩ := hpassed
      rcases List.mem_append.mp hl with hl | hl
      · exact absurd ⟨l, hl, hml⟩ hout
      · rw [List.mem_singleton.mp hl] at hml
        rw [le_antisymm hml hge]
        simp

/-- The names of the children of the directory a handle is open on. -/
def childNames (s : State) (k : Addr) : Set Str :=
  {n | ∃ d, s.dirs k = some d ∧ childFind s d.node n ≠ none}

/-- The name that a call returns through the handle. -/
def returned (k : Addr) : Call → Answer → List Str
  | .readdir k', .entry n _ _ => if k' = k then [n] else []
  | _, _ => []

theorem Sim.childNames_eq (hsim : Sim s t) {v : DirView} (hv : t.dirs k = some v) :
    childNames s k = t.tree.names v.path := by
  ext n
  cases hd : s.dirs k with
  | none => exact absurd (hv.symm.trans (rel_none (hd ▸ hsim.dirs k))) (by simp)
  | some d =>
    obtain ⟨w, hw, hR⟩ := hsim.dir hd
    obtain rfl := Option.some.inj (hv.symm.trans hw)
    have hentry : t.tree.entry (v.path ++ [n]) =
        (childFind s d.node n).map fun a => (s.node a).entry := by
      rw [hsim.shows, follow_concat_of_some hR.1]
    simp [childNames, Tree.names, hd, hentry]

/-- A call of a traversal, on the map. -/
theorem Passing.call (h : Passing t k p out kept) (hsim : Sim s' t') (hx : x ≠ .closedir k)
    (ha : t.Allowed x ans t') :
    Passing t' k p (out ++ returned k x ans)
      {n ∈ kept | n ∈ childNames s' k ∨ ∃ m ∈ out ++ returned k x ans, n ≤ m} := by
  by_cases hread : x = .readdir k
  · subst hread
    rcases ha.readdir h.handle with ⟨rfl, rfl, -⟩ | ⟨n, e, hn, -, rfl, rfl⟩
    · rw [hsim.childNames_eq h.handle, returned, List.append_nil]
      · exact h.stay rfl
      · exact fun _ _ _ _ _ he => absurd he (by simp)
    · have hd : ({ t with dirs := Function.update t.dirs k (some ⟨p, some n⟩) } : View).dirs k =
          some ⟨p, some n⟩ := Function.update_self _ _ _
      have hret : returned k (.readdir k) (.entry n e.isDir e.size) = [n] := if_pos rfl
      rw [hsim.childNames_eq hd, hret]
      exact h.next hn hd
  · have hd : t'.dirs k = t.dirs k := ha.dirs_of_ne (by rw [h.handle]; rfl) hread hx
    have hret : returned k x ans = [] := by
      unfold returned
      split
      · rename_i k' _ _ _
        exact if_neg fun (he : k' = k) => hread (he ▸ rfl)
      · rfl
    rw [hsim.childNames_eq (hd.trans h.handle), hret, List.append_nil]
    exact h.stay hd

theorem Tree.find_error {T : Tree} {q : List Str} {e : ℤ} (h : T.find q p = .error e) : e < 0 := by
  induction p generalizing q with
  | nil =>
    unfold Tree.find at h
    split at h
    · rw [← Except.error.inj h]
      decide
    · exact absurd h (by simp)
  | cons m p ih =>
    unfold Tree.find at h
    split at h
    · rw [← Except.error.inj h]
      decide
    · rw [← Except.error.inj h]
      decide
    · exact ih h

/-- What `opendir` leaves. -/
theorem View.Allowed.opendir {path : List Str} (h : t.Allowed (.opendir k path) (.code vfsOk) t') :
    ∃ p, t'.dirs k = some ⟨p, none⟩ := by
  rcases h with h | ⟨_, _, hc, -⟩
  swap
  · exact absurd hc (by simp)
  simp only [View.apply] at h
  split at h
  · exact absurd h (by simp)
  · split at h
    · rename_i e he
      obtain ⟨hrc, -⟩ := Prod.mk.inj (Option.some.inj h)
      exact absurd (Answer.code.inj hrc) (ne_of_lt (Tree.find_error he))
    · exact absurd (Prod.mk.inj (Option.some.inj h)).1 (by decide)
    · rename_i q _ _
      rw [← (Prod.mk.inj (Option.some.inj h)).2]
      exact ⟨q, Function.update_self _ _ _⟩

end Ramfs

end Csos

import Csos.Ramfs.Linking
import Csos.Ramfs.Spec
/-!
# The RAM file system — looking up paths

`ramfs_lookup` goes through a string; on a normalised path it goes through the
components (`walk`), and `ramfs_split` splits off the last. Where the tree of
nodes and the map of paths agree, a lookup in the one is a lookup in the
other.
-/

namespace Csos

namespace Ramfs

open Vfs

variable {s : State} {a c cur : Addr} {m n : Str} {p q : List Str} {fuel : ℕ}

/-! ## Strings -/

theorem joinPath_cons (n : Str) (hp : p ≠ []) : joinPath (n :: p) = n ++ slash :: joinPath p := by
  cases p with
  | nil => exact absurd rfl hp
  | cons m p => rfl

theorem joinPath_concat (hp : p ≠ []) (n : Str) :
    joinPath (p ++ [n]) = joinPath p ++ slash :: n := by
  induction p with
  | nil => exact absurd rfl hp
  | cons m p ih =>
    cases p with
    | nil => rfl
    | cons k p =>
      rw [List.cons_append, joinPath_cons m (by simp), ih (by simp), joinPath_cons m (by simp),
        List.append_assoc, List.cons_append]

theorem takeWhile_component (hn : Component n) (t : Str) :
    (n ++ slash :: t).takeWhile (· ≠ slash) = n ∧
      (n ++ slash :: t).dropWhile (· ≠ slash) = slash :: t := by
  have hall : ∀ x ∈ n, decide (x ≠ slash) = true := fun x hx => by
    simpa using ne_of_mem_of_not_mem hx hn.2.1
  rw [List.takeWhile_append_of_pos hall, List.dropWhile_append_of_pos hall]
  simp

theorem takeWhile_component_self (hn : Component n) :
    n.takeWhile (· ≠ slash) = n ∧ n.dropWhile (· ≠ slash) = [] := by
  have hall : ∀ x ∈ n, decide (x ≠ slash) = true := fun x hx => by
    simpa using ne_of_mem_of_not_mem hx hn.2.1
  exact ⟨List.takeWhile_eq_self_iff.mpr hall, List.dropWhile_eq_nil_iff.mpr hall⟩

/-- No separator stands before a path. -/
theorem dropWhile_joinPath (hp : ∀ n ∈ p, Component n) :
    (joinPath p).dropWhile (· = slash) = joinPath p := by
  cases p with
  | nil => rfl
  | cons n p =>
    obtain ⟨h1, h2, -⟩ := hp n List.mem_cons_self
    obtain ⟨x, n, rfl⟩ := List.exists_cons_of_ne_nil h1
    have hx : x ≠ slash := fun he => h2 (by simp [he])
    cases p with
    | nil => simp [joinPath, hx]
    | cons m p => simp [joinPath, hx]

/-- `ramfs_next_comp` takes the first component. -/
theorem nextComp_joinPath (hp : ∀ k ∈ n :: p, Component k) :
    (joinPath (n :: p)).takeWhile (· ≠ slash) = n ∧
      ((joinPath (n :: p)).dropWhile (· ≠ slash)).dropWhile (· = slash) = joinPath p := by
  have hn := hp n List.mem_cons_self
  cases p with
  | nil =>
    obtain ⟨h1, h2⟩ := takeWhile_component_self hn
    refine ⟨h1, ?_⟩
    change (n.dropWhile (· ≠ slash)).dropWhile (· = slash) = []
    rw [h2, List.dropWhile_nil]
  | cons m p =>
    obtain ⟨h1, h2⟩ := takeWhile_component hn (joinPath (m :: p))
    rw [joinPath]
    refine ⟨h1, ?_⟩
    rw [h2, List.dropWhile_cons_of_pos (by simp)]
    exact dropWhile_joinPath fun k hk => hp k (List.mem_cons_of_mem _ hk)

/-- `ramfs_split` splits off the last component. -/
theorem split_joinPath (hn : Component n) :
    leafOf (joinPath (p ++ [n])) = n ∧ parentOf (joinPath (p ++ [n])) = joinPath p := by
  have hleaf : leafOf (joinPath (p ++ [n])) = n := by
    have hall : ∀ x ∈ n.reverse, decide (x ≠ slash) = true := fun x hx => by
      simpa using ne_of_mem_of_not_mem (List.mem_reverse.mp hx) hn.2.1
    rw [leafOf, List.rtakeWhile]
    by_cases hp : p = []
    · subst hp
      rw [List.nil_append, joinPath, List.takeWhile_eq_self_iff.mpr hall, List.reverse_reverse]
    · rw [joinPath_concat hp, List.reverse_append, List.reverse_cons, List.append_assoc,
        List.takeWhile_append_of_pos hall]
      simp
  refine ⟨hleaf, ?_⟩
  rw [parentOf, hleaf]
  by_cases hp : p = []
  · subst hp
    simp [joinPath]
  · rw [joinPath_concat hp, List.length_append, List.length_cons,
      show (joinPath p).length + (n.length + 1) - n.length - 1 = (joinPath p).length by omega,
      List.take_left]

theorem length_le_joinPath (hp : ∀ n ∈ p, Component n) : p.length ≤ (joinPath p).length := by
  induction p with
  | nil => simp
  | cons n p ih =>
    have hn := List.length_pos_of_ne_nil (hp n List.mem_cons_self).1
    have := ih fun k hk => hp k (List.mem_cons_of_mem _ hk)
    cases p with
    | nil => exact hn
    | cons m p =>
      simp only [joinPath, List.length_append, List.length_cons] at this ⊢
      omega

/-! ## Nodes -/

/-- `ramfs_lookup` by components. -/
def walk (s : State) : Addr → List Str → Except ℤ Addr
  | cur, [] => .ok cur
  | cur, n :: p =>
    if (s.node cur).isDir = false then .error errNotdir
    else match childFind s cur n with
      | none => .error errNoent
      | some c => walk s c p

theorem lookupLoop_eq (hp : ∀ n ∈ p, Component n) {t : Str}
    (ht : t.dropWhile (· = slash) = joinPath p) (hf : p.length < fuel) :
    lookupLoop s fuel t cur = walk s cur p := by
  induction p generalizing t cur fuel with
  | nil =>
    obtain ⟨fuel, rfl⟩ : ∃ k, fuel = k + 1 := ⟨fuel - 1, by simp at hf; omega⟩
    rw [lookupLoop, ht]
    rfl
  | cons n p ih =>
    obtain ⟨fuel, rfl⟩ : ∃ k, fuel = k + 1 := ⟨fuel - 1, by simp at hf; omega⟩
    obtain ⟨h1, h2⟩ := nextComp_joinPath hp
    rw [lookupLoop, ht, h1, if_neg (hp n List.mem_cons_self).1, walk]
    split
    · rfl
    cases childFind s cur n with
    | none => rfl
    | some c => exact ih (fun k hk => hp k (List.mem_cons_of_mem _ hk)) h2 (by simpa using hf)

/-- **`ramfs_lookup`** of a normalised path. -/
theorem lookup_joinPath (hp : ∀ n ∈ p, Component n) : lookup s (joinPath p) = walk s s.root p :=
  lookupLoop_eq hp (dropWhile_joinPath hp) (Nat.lt_succ_of_le (length_le_joinPath hp))

/-! ## What the map shows -/

/-- The contents of a file. -/
def Node.bytes (n : Node) : List UInt8 := (List.range n.size).map n.byte

/-- What a node is at its path. -/
def Node.entry (n : Node) : Entry := if n.isDir = true then .dir else .file n.bytes

theorem Node.entry_isDir (n : Node) : n.entry.isDir = n.isDir := by
  rw [Node.entry]
  cases n.isDir <;> rfl

theorem Node.entry_of_dir {n : Node} (h : n.isDir = true) : n.entry = .dir := if_pos h

theorem Node.entry_of_file {n : Node} (h : n.isDir = false) : n.entry = .file n.bytes :=
  if_neg (by simp [h])

/-- **The nodes and the map agree.** -/
def Shows (s : State) (T : Tree) : Prop :=
  ∀ p, T.entry p = (follow (childFind s) s.root p).map fun a => (s.node a).entry

variable {T : Tree}

theorem Shows.entry (h : Shows s T) (hp : follow (childFind s) s.root p = some a) :
    T.entry p = some (s.node a).entry := by
  rw [h p, hp]
  rfl

/-- **A lookup in the nodes is a lookup in the map.** -/
theorem Shows.find (h : Shows s T) (hq : follow (childFind s) s.root q = some cur) :
    match walk s cur p with
    | .error e => T.find q p = .error e
    | .ok c => follow (childFind s) s.root (q ++ p) = some c ∧
      ∃ hc, T.find q p = .ok ⟨q ++ p, (s.node c).entry, hc⟩ := by
  induction p generalizing q cur with
  | nil =>
    have he := h.entry hq
    simp only [walk, List.append_nil]
    refine ⟨hq, he, ?_⟩
    rw [Tree.find]
    split
    · rename_i hn
      exact absurd (hn.symm.trans he) (by simp)
    · rename_i e hn
      obtain rfl := Option.some.inj (hn.symm.trans he)
      rfl
  | cons n p ih =>
    have he := h.entry hq
    rw [walk]
    by_cases hd : (s.node cur).isDir = false
    · rw [if_pos hd]
      rw [Node.entry_of_file hd] at he
      simp only [Tree.find, he]
    · rw [if_neg hd]
      rw [Bool.not_eq_false] at hd
      rw [Node.entry_of_dir hd] at he
      have hqn : follow (childFind s) s.root (q ++ [n]) = childFind s cur n :=
        follow_concat_of_some hq
      have hfind : T.find q (n :: p) = T.find (q ++ [n]) p := by
        simp only [Tree.find, he]
      cases hc : childFind s cur n with
      | none =>
        have hnone : T.entry (q ++ [n]) = none := by
          rw [h, hqn, hc]
          rfl
        dsimp only
        rw [hfind]
        cases p with
        | nil =>
          rw [Tree.find]
          split
          · rfl
          · rename_i e hn
            exact absurd (hnone.symm.trans hn) (by simp)
        | cons k p => simp only [Tree.find, hnone]
      | some c =>
        have := ih (hqn.trans hc)
        dsimp only
        rw [hfind]
        simpa only [List.append_assoc, List.singleton_append] using this

end Ramfs

end Csos

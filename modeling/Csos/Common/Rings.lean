import Mathlib.Tactic
/-!
# Bounded queues in a ring of cells

A ring is cells, a head, a tail and a count; in a ring of `n` cells indices go
round at `n`. Its contents are the cells from the head on (`toList`), and to
push and to pop is to append to them and to take from their front.

`Fifo` is the queue that a ring implements, as the log of what was done to it:
a value that comes when the queue is full is dropped.
-/

namespace Csos

namespace Rings

variable {α : Type*} {n len : ℕ} {x : α} {q : List α}

structure Cells (α : Type*) where
  cells : ℕ → α
  head : ℕ
  tail : ℕ
  count : ℕ

def Cells.toList (n : ℕ) (r : Cells α) : List α :=
  (List.range r.count).map fun i => r.cells ((r.head + i) % n)

structure Cells.Wf (n : ℕ) (r : Cells α) : Prop where
  head : r.head < n
  count : r.count ≤ n
  tail : r.tail = (r.head + r.count) % n

/-- `x` is stored at the tail, which moves on. -/
def Cells.push (n : ℕ) (r : Cells α) (x : α) : Cells α :=
  ⟨Function.update r.cells r.tail x, r.head, (r.tail + 1) % n, r.count + 1⟩

/-- The head moves on. -/
def Cells.pop (n : ℕ) (r : Cells α) : Cells α :=
  { r with head := (r.head + 1) % n, count := r.count - 1 }

variable {r : Cells α}

@[simp] theorem length_toList : (r.toList n).length = r.count := by simp [Cells.toList]

theorem Cells.Wf.push (h : r.Wf n) (hroom : r.count < n) : (r.push n x).Wf n := by
  refine ⟨h.head, hroom, ?_⟩
  show (r.tail + 1) % n = (r.head + (r.count + 1)) % n
  rw [h.tail, Nat.mod_add_mod, Nat.add_assoc]

theorem Cells.Wf.pop (h : r.Wf n) (hne : 0 < r.count) : (r.pop n).Wf n := by
  have hcount := h.count
  refine ⟨Nat.mod_lt _ (by omega), ?_, ?_⟩
  · show r.count - 1 ≤ n
    omega
  · show r.tail = ((r.head + 1) % n + (r.count - 1)) % n
    rw [h.tail, Nat.mod_add_mod]
    congr 1
    omega

/-- The cells in use and the next are different. -/
theorem Cells.Wf.cell_ne (h : r.Wf n) (hroom : r.count < n) {i : ℕ} (hi : i < r.count) :
    (r.head + i) % n ≠ r.tail := by
  rw [h.tail]
  intro he
  have hmod : r.head + i ≡ r.head + r.count [MOD n] := he
  have hcancel := Nat.ModEq.add_left_cancel' r.head hmod
  rw [Nat.ModEq, Nat.mod_eq_of_lt (by omega), Nat.mod_eq_of_lt hroom] at hcancel
  omega

/-- **A push appends.** -/
theorem Cells.Wf.toList_push (h : r.Wf n) (hroom : r.count < n) : (r.push n x).toList n = r.toList n ++ [x] := by
  unfold Cells.toList
  show (List.range (r.count + 1)).map (fun i => Function.update r.cells r.tail x ((r.head + i) % n)) = _
  rw [List.range_succ, List.map_append, List.map_singleton, ← h.tail, Function.update_self]
  congr 1
  refine List.map_congr_left fun i hi => ?_
  rw [Function.update_of_ne (h.cell_ne hroom (List.mem_range.mp hi))]

/-- **A pop takes the front.** -/
theorem toList_pop (hne : 0 < r.count) : r.toList n = r.cells (r.head % n) :: (r.pop n).toList n := by
  obtain ⟨m, hm⟩ : ∃ m, r.count = m + 1 := ⟨r.count - 1, by omega⟩
  unfold Cells.toList
  show _ = r.cells (r.head % n) ::
    (List.range (r.count - 1)).map (fun i => r.cells (((r.head + 1) % n + i) % n))
  rw [hm, List.range_succ_eq_map, List.map_cons, List.map_map, Nat.add_zero, Nat.add_sub_cancel]
  congr 1
  refine List.map_congr_left fun i _ => ?_
  show r.cells ((r.head + (i + 1)) % n) = _
  rw [Nat.mod_add_mod]
  congr 2
  omega

/-! ## The queue -/

/-- What is done to a queue: a value comes and is kept or not; up to `len`
values are asked for and `out` is given. -/
inductive Op (α : Type*)
  | push (x : α) (kept : Bool)
  | pop (len : ℕ) (out : List α)

/-- **The log of a queue** of at most `n` values, and what is in the queue
after it. -/
inductive Fifo (n : ℕ) : List (Op α) → List α → Prop
  | nil : Fifo n [] []
  | keep {l : List (Op α)} {q : List α} {x : α} (h : Fifo n l q) (hq : q.length < n) :
      Fifo n (l ++ [.push x true]) (q ++ [x])
  | drop {l : List (Op α)} {q : List α} {x : α} (h : Fifo n l q) (hq : n ≤ q.length) :
      Fifo n (l ++ [.push x false]) q
  | pop {l : List (Op α)} {q : List α} (h : Fifo n l q) (len : ℕ) :
      Fifo n (l ++ [.pop len (q.take len)]) (q.drop len)

def Op.kept : Op α → List α
  | .push x true => [x]
  | _ => []

def Op.given : Op α → List α
  | .pop _ out => out
  | _ => []

/-- **Nothing is lost, doubled or reordered**: what was kept has been given
out or is in the queue. -/
theorem Fifo.kept_eq {l : List (Op α)} (h : Fifo n l q) :
    l.flatMap Op.kept = l.flatMap Op.given ++ q := by
  induction h with
  | nil => rfl
  | keep h hq ih => simp [ih, Op.kept, Op.given]
  | drop h hq ih => simp [ih, Op.kept, Op.given]
  | pop h len ih => simp [ih, Op.kept, Op.given]

theorem Fifo.length_le {l : List (Op α)} (h : Fifo n l q) : q.length ≤ n := by
  induction h with
  | nil => exact Nat.zero_le n
  | keep h hq ih =>
    rw [List.length_append, List.length_singleton]
    omega
  | drop h hq ih => exact ih
  | pop h len ih =>
    rw [List.length_drop]
    omega

end Rings

end Csos

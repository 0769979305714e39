import Csos.Ext4.Records
/-!
# ext4 — going through a directory ends

The loop of `ext4_dir_next` moves on with every round, except in two places: at
an offset less than eight bytes before the end of a block that can be read, the
scan does not run and the loop stands still; and at `2 ^ 32` blocks the number
of the block wraps, and it starts over. A directory whose walk meets neither
below its size is `Clear`, and the calls of a traversal end and move on exactly
there (`dir_progress_iff`).
-/

namespace Csos

namespace Ext4

open Vfs Checked

section

variable (d : Disk) (sb : Sb) (dir : Inode)

/-- **The walk from `o`**: over holes by blocks, and over records by their
lengths, whether they are entries or not, up to the size of the directory. -/
inductive Visits (o : ℕ) : ℕ → Prop
  | start : Visits o o
  | hole {off : ℕ} (h : Visits o off) (hoff : off < dir.size)
    (hb : dirBlock d sb dir (off / sb.bs % 2 ^ 32) = .hole) :
    Visits o ((off / sb.bs % 2 ^ 32 + 1) * sb.bs)
  | record {off : ℕ} {m : Bytes} (h : Visits o off) (hoff : off < dir.size)
    (hb : dirBlock d sb dir (off / sb.bs % 2 ^ 32) = .data m) (hend : off % sb.bs + 8 ≤ sb.bs)
    (hok : RecOk m sb.bs (off % sb.bs)) :
    Visits o (off / sb.bs % 2 ^ 32 * sb.bs + off % sb.bs + recLen m (off % sb.bs))

/-- **The walk meets no place where the loop goes wrong**: below the size, no
offset at or above `2 ^ 32` blocks, and none in the last seven bytes of a block
that can be read. -/
def Clear (o : ℕ) : Prop :=
  ∀ off, Visits d sb dir o off → off < dir.size → off < 2 ^ 32 * sb.bs ∧
    ∀ m, dirBlock d sb dir (off / sb.bs % 2 ^ 32) = .data m → off % sb.bs + 8 ≤ sb.bs

/-- The offsets at which a traversal from `o` calls: each is what the call
before has stored. -/
inductive Called (o : ℕ) : ℕ → Prop
  | start : Called o o
  | next {off off' fuel : ℕ} {nameOut : Buf} {e : DirEntry} {w w' : World} (h : Called o off)
    (hret : dirNext d sb dir nameOut fuel off w = .ret ((.ok e, off'), w')) : Called o off'

/-- **The call at `off` ends**, and moves on if it returns `VFS_OK`. -/
def Advances (off : ℕ) : Prop :=
  ∀ nameOut w, ∃ fuel r off' w', dirNext d sb dir nameOut fuel off w = .ret ((r, off'), w') ∧
    ∀ e, r = .ok e → off < off'

/-- Every call of a traversal from `o` ends and moves on. -/
def Progress (o : ℕ) : Prop := ∀ off, Called d sb dir o off → Advances d sb dir off

/-- A full traversal: `ext4_readdir` from `off` on until it fails, with the name
stored in `out` each time. -/
def traverse (stack : Bytes) (out : Buf) : ℕ → ℕ → M (List (Buf × ℕ))
  | 0, _ => hang
  | fuel + 1, off => do
    match ← readdir d sb dir stack fuel off out with
    | (.error _, _) => return []
    | (.ok e, off) =>
      let es ← traverse stack out fuel off
      return e :: es

/-- A call at `off` returns `VFS_OK` with `q` stored. -/
def Gives (off q : ℕ) : Prop := ∃ fuel m p, dirAt d sb dir fuel off = some (.gives m p q)

end

variable {d : Disk} {sb : Sb} {dir : Inode} {m : Bytes} {nameOut : Buf}
  {o off p q c lb fuel k : ℕ} {w : World}

/-! ## Calls and answers -/

/-- A world in which `kmalloc` has a block for every call. -/
def served : World := ⟨fun _ => some (Bytes.const 0), 0, []⟩

/-- Two answers to one call are the same. -/
theorem dirAt_unique {r r' : Round} {fuel' : ℕ} (h : dirAt d sb dir fuel off = some r)
    (h' : dirAt d sb dir fuel' off = some r') : r = r' := by
  have h1 := dirAt_mono h fuel'
  have h2 := dirAt_mono h' fuel
  rw [Nat.add_comm, h2] at h1
  exact (Option.some.inj h1).symm

theorem advances_iff (h : sb.Ok) (hdir : dir.Ok) (hd : dir.isDir = true) :
    Advances d sb dir off ↔
      ∃ fuel r, dirAt d sb dir fuel off = some r ∧ ∀ m p q, r = .gives m p q → off < q := by
  constructor
  · intro ha
    obtain ⟨fuel, r, off', w', hret, hlt⟩ := ha ⟨Bytes.const 0, 0⟩ served
    have hans := dirNext_answers (d := d) h hdir hd
      (show (served.alloc served.used).isSome from rfl) ⟨Bytes.const 0, 0⟩ fuel off
    rw [hret] at hans
    cases hr : dirAt d sb dir fuel off with
    | none =>
      rw [hr] at hans
      cases hans
    | some r' =>
      refine ⟨fuel, r', hr, ?_⟩
      rintro m p q rfl
      rw [hr] at hans
      obtain ⟨w'', -, heq⟩ := hans
      cases heq
      exact hlt _ rfl
  · rintro ⟨fuel, r, hr, hlt⟩ nameOut w
    by_cases halloc : (w.alloc w.used).isSome
    · have hans := dirNext_answers (d := d) h hdir hd halloc nameOut fuel off
      rw [hr] at hans
      cases r with
      | ends rc =>
        obtain ⟨off', w', -, heq⟩ := hans
        exact ⟨fuel, _, off', w', heq, fun e he => by cases he⟩
      | gives m p q =>
        obtain ⟨w', -, heq⟩ := hans
        exact ⟨fuel, _, q, w', heq, fun _ _ => hlt m p q rfl⟩
      | goes q => exact absurd hr dirAt_ne_goes
    · rw [Option.not_isSome_iff_eq_none] at halloc
      exact ⟨fuel, _, off, _, dirNext_nomem hd halloc, fun e he => by cases he⟩

theorem Called.gives (h : sb.Ok) (hdir : dir.Ok) (hd : dir.isDir = true) (hc : Called d sb dir o off)
    (hg : Gives d sb dir off q) : Called d sb dir o q := by
  obtain ⟨fuel, m, p, hr⟩ := hg
  have hans := dirNext_answers (d := d) h hdir hd
    (show (served.alloc served.used).isSome from rfl) ⟨Bytes.const 0, 0⟩ fuel off
  rw [hr] at hans
  obtain ⟨w', -, heq⟩ := hans
  exact .next hc heq

theorem gives_of_ret (h : sb.Ok) (hdir : dir.Ok) (hd : dir.isDir = true) {e : DirEntry} {w' : World}
    (hret : dirNext d sb dir nameOut fuel off w = .ret ((.ok e, q), w')) : Gives d sb dir off q := by
  by_cases halloc : (w.alloc w.used).isSome
  · have hans := dirNext_answers (d := d) h hdir hd halloc nameOut fuel off
    rw [hret] at hans
    cases hr : dirAt d sb dir fuel off with
    | none =>
      rw [hr] at hans
      cases hans
    | some r =>
      rw [hr] at hans
      cases r with
      | ends rc =>
        obtain ⟨off', w'', -, heq⟩ := hans
        cases heq
      | gives m p q' =>
        obtain ⟨w'', -, heq⟩ := hans
        cases heq
        exact ⟨fuel, m, p, hr⟩
      | goes q' => exact absurd hr dirAt_ne_goes
  · rw [Option.not_isSome_iff_eq_none] at halloc
    rw [dirNext_nomem hd halloc] at hret
    cases hret

/-! ## A clear walk moves on -/

theorem div_mod_of_lt (h : sb.Ok) (hoff : off < 2 ^ 32 * sb.bs) :
    off / sb.bs % 2 ^ 32 = off / sb.bs ∧ off = off / sb.bs * sb.bs + off % sb.bs := by
  have hdiv : off / sb.bs < 2 ^ 32 := by
    rw [Nat.div_lt_iff_lt_mul (Nat.pos_of_ne_zero h.bs_ne)]
    exact hoff
  refine ⟨Nat.mod_eq_of_lt hdiv, ?_⟩
  rw [Nat.mul_comm]
  exact (Nat.div_add_mod off sb.bs).symm

/-- An offset that the walk comes to, or that is past the end. -/
def Comes (d : Disk) (sb : Sb) (dir : Inode) (o off : ℕ) : Prop :=
  Visits d sb dir o off ∨ dir.size ≤ off

theorem Comes.record (hv : Comes d sb dir o (lb * sb.bs + p)) (hlb : lb < 2 ^ 32)
    (hb : dirBlock d sb dir lb = .data m) (hend : p + 8 ≤ sb.bs) (hok : RecOk m sb.bs p) :
    Comes d sb dir o (lb * sb.bs + p + recLen m p) := by
  by_cases hsize : dir.size ≤ lb * sb.bs + p
  · exact .inr (by omega)
  · obtain ⟨h1, h2⟩ := block_pos (show p < sb.bs by omega) lb
    have hlb' : (lb * sb.bs + p) / sb.bs % 2 ^ 32 = lb := by
      rw [h1, Nat.mod_eq_of_lt hlb]
    have hrec := Visits.record (hv.resolve_right hsize) (by omega) (hlb'.symm ▸ hb)
      (h2.symm ▸ hend) (h2.symm ▸ hok)
    rw [hlb', h2] at hrec
    exact .inl hrec

/-- **The scan of a block** follows the walk. -/
theorem scanAt_comes (fuel : ℕ) (hv : Comes d sb dir o (lb * sb.bs + p)) (hlb : lb < 2 ^ 32)
    (hb : dirBlock d sb dir lb = .data m) :
    (∀ q, scanAt m sb.bs fuel p = .found q → Comes d sb dir o (lb * sb.bs + q + recLen m q)) ∧
    ∀ q, scanAt m sb.bs fuel p = .done q → Comes d sb dir o (lb * sb.bs + q) := by
  induction fuel generalizing p with
  | zero => exact ⟨fun q hq => absurd hq (by simp [scanAt]), fun q hq => absurd hq (by simp [scanAt])⟩
  | succ fuel ih =>
    rw [scanAt]
    split
    · refine ⟨fun q hq => absurd hq (by simp), fun q hq => ?_⟩
      obtain rfl := ScanAt.done.inj hq
      exact hv
    split
    · exact ⟨fun q hq => absurd hq (by simp), fun q hq => absurd hq (by simp)⟩
    rename_i hend hok
    rw [not_not] at hok
    have hnext := hv.record hlb hb (by omega) hok
    split
    · refine ⟨fun q hq => ?_, fun q hq => absurd hq (by simp)⟩
      obtain rfl := ScanAt.found.inj hq
      exact hnext
    · rw [Nat.add_assoc] at hnext
      exact ih hnext

/-- **A call at an offset of a clear walk** ends and moves on along it. -/
theorem Clear.dirAt (hc : Clear d sb dir o) (h : sb.Ok) (hv : Comes d sb dir o off) :
    ∃ r, dirAt d sb dir (dir.size - off + 1) off = some r ∧
      ∀ m p q, r = .gives m p q → off < q ∧ off < dir.size ∧ Comes d sb dir o q := by
  induction hn : dir.size - off using Nat.strong_induction_on generalizing off with
  | _ n ih =>
    rw [Ext4.dirAt]
    by_cases hsize : dir.size ≤ off
    · rw [dirRound, if_pos hsize]
      exact ⟨_, rfl, fun m p q he => absurd he (by simp)⟩
    obtain ⟨hW, htail⟩ := hc off (hv.resolve_right hsize) (by omega)
    obtain ⟨hmod, hoff⟩ := div_mod_of_lt h hW
    have hlb : off / sb.bs < 2 ^ 32 := by
      rw [← hmod]
      exact Nat.mod_lt _ (by norm_num)
    have hpos : off % sb.bs < sb.bs := Nat.mod_lt _ (Nat.pos_of_ne_zero h.bs_ne)
    -- a round that goes on leaves less to do
    have hgoes : ∀ q, off < q → Comes d sb dir o q →
        ∃ r, Ext4.dirAt d sb dir n q = some r ∧
          ∀ m p q, r = .gives m p q → off < q ∧ off < dir.size ∧ Comes d sb dir o q := by
      intro q hlt hq
      obtain ⟨r, hr, hgives⟩ := ih (dir.size - q) (by omega) hq rfl
      have hmono := dirAt_mono hr (n - (dir.size - q + 1))
      rw [show dir.size - q + 1 + (n - (dir.size - q + 1)) = n by omega] at hmono
      refine ⟨r, hmono, fun m p q' he => ?_⟩
      obtain ⟨h1, h2, h3⟩ := hgives m p q' he
      exact ⟨by omega, by omega, h3⟩
    have hround : dirRound d sb dir off = _ := if_neg hsize
    rw [hround]
    dsimp only
    rw [hmod] at htail ⊢
    cases hb : dirBlock d sb dir (off / sb.bs) with
    | hole =>
      have hvis := Visits.hole (hv.resolve_right hsize) (by omega) (hmod.symm ▸ hb)
      rw [hmod] at hvis
      refine hgoes _ ?_ (.inl hvis)
      rw [Nat.add_mul]
      omega
    | bad => exact ⟨_, rfl, fun m p q he => absurd he (by simp)⟩
    | data m =>
      have hend := htail m hb
      obtain ⟨hfound, hdone⟩ := scanAt_comes (sb.bs + 1) (hoff ▸ hv) hlb hb
      obtain ⟨bfound, bdone⟩ := scanAt_bounds (m := m) hpos.le (by omega : sb.bs < off % sb.bs + (sb.bs + 1))
      dsimp only
      cases hs : scanAt m sb.bs (sb.bs + 1) (off % sb.bs) with
      | broken => exact ⟨_, rfl, fun m p q he => absurd he (by simp)⟩
      | found p =>
        obtain ⟨hle, -, hok, -⟩ := bfound p hs
        refine ⟨_, rfl, fun m' p' q he => ?_⟩
        cases he
        have h8 := hok.1
        exact ⟨by omega, by omega, hfound p hs⟩
      | done p =>
        obtain ⟨hle, -, hp⟩ := bdone p hs
        have hne : p ≠ off % sb.bs := by omega
        dsimp only
        rw [if_neg hne]
        exact hgoes _ (by omega) (hdone p hs)

theorem Called.comes (h : sb.Ok) (hdir : dir.Ok) (hd : dir.isDir = true) (hc : Clear d sb dir o)
    (hcall : Called d sb dir o off) : Comes d sb dir o off := by
  induction hcall with
  | start => exact .inl .start
  | next _ hret ih =>
    obtain ⟨r, hr, hgives⟩ := hc.dirAt h ih
    obtain ⟨fuel, m, p, hr'⟩ := gives_of_ret h hdir hd hret
    exact (hgives m p _ (dirAt_unique hr hr')).2.2

/-- **A traversal of a clear directory** makes progress. -/
theorem Clear.progress (h : sb.Ok) (hdir : dir.Ok) (hd : dir.isDir = true) (hc : Clear d sb dir o) :
    Progress d sb dir o := fun off hcall => by
  obtain ⟨r, hr, hgives⟩ := hc.dirAt h (hcall.comes h hdir hd hc)
  exact (advances_iff h hdir hd).mpr ⟨_, r, hr, fun m p q he => (hgives m p q he).1⟩

/-! ## A walk that is not clear -/

/-- **In the last bytes of a block the loop stands still.** -/
theorem dirAt_of_tail (hsize : off < dir.size)
    (hb : dirBlock d sb dir (off / sb.bs % 2 ^ 32) = .data m) (hend : sb.bs < off % sb.bs + 8)
    (fuel : ℕ) : dirAt d sb dir fuel off = none := by
  have hround : dirRound d sb dir off = .goes off := by
    rw [dirRound_of_data hsize hb, scanAt, if_pos hend]
    dsimp only
    rw [if_pos rfl]
  induction fuel with
  | zero => rfl
  | succ fuel ih => rw [dirAt_of_goes hround, ih]

/-- **A record that is not an entry** is passed over: the round is that of the
next record, or goes on to the next block. -/
theorem dirRound_of_dead (hsize : off < dir.size)
    (hb : dirBlock d sb dir (off / sb.bs % 2 ^ 32) = .data m) (hend : off % sb.bs + 8 ≤ sb.bs)
    (hok : RecOk m sb.bs (off % sb.bs)) (hdead : ¬ Live m (off % sb.bs)) {next : ℕ}
    (hnext : next = off / sb.bs % 2 ^ 32 * sb.bs + off % sb.bs + recLen m (off % sb.bs)) :
    (off % sb.bs + recLen m (off % sb.bs) = sb.bs → dirRound d sb dir off = .goes next) ∧
    (off % sb.bs + recLen m (off % sb.bs) < sb.bs → next < dir.size →
      dirRound d sb dir off = dirRound d sb dir next) := by
  have h8 := hok.1
  have hlb : off / sb.bs % 2 ^ 32 < 2 ^ 32 := Nat.mod_lt _ (by norm_num)
  have hmod : off / sb.bs % 2 ^ 32 % 2 ^ 32 = off / sb.bs % 2 ^ 32 := Nat.mod_eq_of_lt hlb
  rw [dirRound_of_data hsize hb, scanAt_step hend hok hdead]
  generalize off / sb.bs % 2 ^ 32 = lb at *
  generalize off % sb.bs = p at *
  rw [Nat.add_assoc] at hnext
  constructor
  · intro hlast
    rw [scanAt_fuel 1 hok.2 (by omega) (by omega), scanAt, if_pos (by omega)]
    dsimp only
    rw [if_neg (by omega), hnext]
  · intro hlt hnsize
    obtain ⟨h1, h2⟩ := block_pos hlt lb
    rw [← hnext] at h1 h2
    have hb' : dirBlock d sb dir (next / sb.bs % 2 ^ 32) = .data m := by
      rw [h1, hmod]
      exact hb
    rw [dirRound_of_data hnsize hb', h1, h2, hmod,
      scanAt_fuel (sb.bs + 1) hok.2 (by omega) (by omega)]
    obtain ⟨-, bdone⟩ := scanAt_bounds (m := m) hok.2
      (by omega : sb.bs < p + recLen m p + (sb.bs + 1))
    cases hs : scanAt m sb.bs (sb.bs + 1) (p + recLen m p) with
    | broken => rfl
    | found q => rfl
    | done q =>
      have hq := (bdone q hs).1
      dsimp only
      rw [if_neg (by omega)]
      split
      · rename_i he
        rw [he, hnext]
      · rfl

/-- **A call leads to every offset of the walk**: after `k` rounds it is where a
call at that offset would be. -/
theorem Visits.leads (h : sb.Ok) (hdir : dir.Ok) (hd : dir.isDir = true) (hv : Visits d sb dir o off) :
    off < dir.size → ∃ c k, Called d sb dir o c ∧
      (∀ fuel, dirAt d sb dir (fuel + k) c = dirAt d sb dir fuel off) ∧
      (off % sb.bs = 0 → c ≠ off → 0 < k) := by
  induction hv with
  | start => exact fun _ => ⟨o, 0, .start, fun _ => rfl, fun _ hne => absurd rfl hne⟩
  | @hole off hv hoff hb ih =>
    intro _
    obtain ⟨c, k, hc, hk, -⟩ := ih hoff
    have hround : dirRound d sb dir off = .goes ((off / sb.bs % 2 ^ 32 + 1) * sb.bs) := by
      rw [dirRound, if_neg (by omega)]
      dsimp only
      rw [hb]
    refine ⟨c, k + 1, hc, fun fuel => ?_, fun _ _ => Nat.succ_pos k⟩
    rw [← Nat.add_assoc, Nat.add_right_comm, hk, dirAt_of_goes hround]
  | @record off m hv hoff hb hend hok ih =>
    intro hnsize
    obtain ⟨c, k, hc, hk, -⟩ := ih hoff
    generalize hnext : off / sb.bs % 2 ^ 32 * sb.bs + off % sb.bs + recLen m (off % sb.bs) = next at *
    by_cases hlive : Live m (off % sb.bs)
    · -- the call returns the entry, and the next call is past it
      have hscan : scanAt m sb.bs (sb.bs + 1) (off % sb.bs) = .found (off % sb.bs) := by
        rw [scanAt, if_neg (by omega), if_neg (not_not.mpr hok), if_pos hlive]
      have hround : dirRound d sb dir off = .gives m (off % sb.bs) next := by
        rw [dirRound_of_data hoff hb, hscan, ← hnext]
      have hgive : dirAt d sb dir (1 + k) c = some (.gives m (off % sb.bs) next) := by
        rw [hk, dirAt, hround]
      exact ⟨next, 0, hc.gives h hdir hd ⟨_, _, _, hgive⟩, fun _ => rfl, fun _ hne => absurd rfl hne⟩
    · obtain ⟨hlast, hmid⟩ := dirRound_of_dead hoff hb hend hok hlive hnext.symm
      rcases Nat.lt_or_eq_of_le hok.2 with hlt | heq
      · refine ⟨c, k, hc, fun fuel => ?_, fun hz => ?_⟩
        · rw [hk]
          cases fuel with
          | zero => rfl
          | succ fuel => rw [dirAt, dirAt, hmid hlt hnsize]
        · have hpos := (block_pos hlt (off / sb.bs % 2 ^ 32)).2
          rw [← Nat.add_assoc, hnext, hz] at hpos
          have := hok.1
          omega
      · refine ⟨c, k + 1, hc, fun fuel => ?_, fun _ _ => Nat.succ_pos k⟩
        rw [← Nat.add_assoc, Nat.add_right_comm, hk, dirAt_of_goes (hlast heq)]

/-- The number of a block has 32 bits: no walk from the start goes past
`2 ^ 32` blocks. -/
theorem Visits.le_of_zero (hv : Visits d sb dir 0 off) : off ≤ 2 ^ 32 * sb.bs := by
  have hrow : ∀ lb q, lb < 2 ^ 32 → q ≤ sb.bs → lb * sb.bs + q ≤ 2 ^ 32 * sb.bs := by
    intro lb q hlb hq
    calc lb * sb.bs + q ≤ (lb + 1) * sb.bs := by rw [Nat.add_mul]; omega
      _ ≤ 2 ^ 32 * sb.bs := Nat.mul_le_mul_right _ hlb
  induction hv with
  | start => exact Nat.zero_le _
  | hole _ _ _ _ => exact Nat.mul_le_mul_right _ (Nat.mod_lt _ (by norm_num))
  | record _ _ _ _ hok _ =>
    rw [Nat.add_assoc]
    exact hrow _ _ (Nat.mod_lt _ (by norm_num)) hok.2

/-- A traversal from the start that is past it has had its first entry. -/
theorem Called.first (h : sb.Ok) (hdir : dir.Ok) (hd : dir.isDir = true) (hp : Progress d sb dir 0)
    (hc : Called d sb dir 0 c) (hne : c ≠ 0) : ∃ q, Gives d sb dir 0 q ∧ q ≤ c := by
  induction hc with
  | start => exact absurd rfl hne
  | @next off off' _ _ _ _ _ hc hret ih =>
    have hg := gives_of_ret h hdir hd hret
    by_cases h0 : off = 0
    · subst h0
      exact ⟨off', hg, le_rfl⟩
    · obtain ⟨q, hq, hle⟩ := ih h0
      obtain ⟨fuel, r, hr, hlt⟩ := (advances_iff h hdir hd).mp (hp off hc)
      obtain ⟨fuel', m, p, hr'⟩ := hg
      have := hlt m p off' (dirAt_unique hr hr')
      exact ⟨q, hq, by omega⟩

/-- At `2 ^ 32` blocks the loop starts over. -/
theorem dirAt_wraps (h : sb.Ok) (hsize : 2 ^ 32 * sb.bs < dir.size) (fuel : ℕ) :
    dirAt d sb dir fuel (2 ^ 32 * sb.bs) = dirAt d sb dir fuel 0 := by
  have hbs := h.bs_pos
  have hdiv : 2 ^ 32 * sb.bs / sb.bs % 2 ^ 32 = 0 := by
    rw [Nat.mul_div_cancel _ (by omega), Nat.mod_self]
  have hmod : 2 ^ 32 * sb.bs % sb.bs = 0 := Nat.mul_mod_left _ _
  have hround : dirRound d sb dir (2 ^ 32 * sb.bs) = dirRound d sb dir 0 := by
    rw [dirRound, dirRound, if_neg (by omega), if_neg (by omega), hdiv, hmod, Nat.zero_div,
      Nat.zero_mod, Nat.zero_mod]
    dsimp only
    cases dirBlock d sb dir 0 with
    | hole => rfl
    | bad => rfl
    | data m =>
      obtain ⟨-, bdone⟩ := scanAt_bounds (m := m) (Nat.zero_le sb.bs) (by omega : sb.bs < 0 + (sb.bs + 1))
      dsimp only
      cases hs : scanAt m sb.bs (sb.bs + 1) 0 with
      | broken => rfl
      | found q => rfl
      | done q =>
        have hq := (bdone q hs).2.2
        dsimp only
        rw [if_neg (by omega), if_neg (by omega)]
  cases fuel with
  | zero => rfl
  | succ fuel => rw [dirAt, dirAt, hround]

/-- **A traversal that makes progress** is on a clear walk. -/
theorem Progress.clear (h : sb.Ok) (hdir : dir.Ok) (hd : dir.isDir = true)
    (ho : o = 0 ∨ dir.size ≤ 2 ^ 32 * sb.bs) (hp : Progress d sb dir o) : Clear d sb dir o := by
  intro off hv hsize
  obtain ⟨c, k, hc, hk, hpos⟩ := hv.leads h hdir hd hsize
  obtain ⟨fuel, r, hr, hlt⟩ := (advances_iff h hdir hd).mp (hp c hc)
  have hans : dirAt d sb dir fuel off = some r := by
    rw [← hk]
    exact dirAt_mono hr k
  refine ⟨?_, fun m hb => ?_⟩
  · -- past `2 ^ 32` blocks the first entry, if there is one, is found again
    by_contra hge
    have h0 : o = 0 := ho.resolve_right (by omega)
    subst h0
    have heq : off = 2 ^ 32 * sb.bs := le_antisymm hv.le_of_zero (by omega)
    subst heq
    simp only [dirAt_wraps h hsize] at hk hans
    by_cases hc0 : c = 0
    · subst hc0
      have hbs := h.bs_pos
      have hkpos : 0 < k := hpos (Nat.mul_mod_left _ _) (by omega)
      have hnone : ∀ n, dirAt d sb dir (n * k) 0 = none := fun n => by
        induction n with
        | zero => rw [Nat.zero_mul]; rfl
        | succ n ih => rw [Nat.succ_mul, hk, ih]
      have hle : fuel ≤ fuel * k := Nat.le_mul_of_pos_right _ hkpos
      have hmono := dirAt_mono hr (fuel * k - fuel)
      rw [show fuel + (fuel * k - fuel) = fuel * k by omega, hnone] at hmono
      cases hmono
    · obtain ⟨q, ⟨fuel', m, p, hq⟩, hle⟩ := hc.first h hdir hd hp hc0
      have := hlt m p q (dirAt_unique hans hq)
      omega
  · by_contra hend
    rw [dirAt_of_tail hsize hb (by omega)] at hans
    cases hans

/-! ## Lookups and traversals end -/

theorem halts_readFsBlocks {fsblk count : ℕ} {buf : Buf} : Halts (readFsBlocks d sb fsblk count buf) := by
  refine halts_ite halts_pure (halts_ite halts_pure ?_)
  refine Halts.bind (fun w hw => by cases hw) fun _ => halts_ite halts_pure ?_
  exact halts_require.bind fun _ => halts_pure

/-- **`ext4_read_inode`** ends. -/
theorem halts_readInode (ino : ℕ) : Halts (readInode d sb ino) := by
  refine halts_ite halts_pure (halts_ite halts_pure ?_)
  refine halts_div.bind fun group => halts_mod.bind fun idx => ?_
  have hitab : Halts (itabBlock sb group) :=
    Buf.halts_load.bind fun _ => halts_ite (Buf.halts_load.bind fun _ => halts_pure) halts_pure
  refine hitab.bind fun itab => halts_div.bind fun q => halts_mod.bind fun inner => ?_
  refine halts_ite halts_pure (Halts.bind (fun w hw => by cases hw) fun blk => ?_)
  cases blk with
  | none => exact halts_pure
  | some blk =>
    refine halts_readFsBlocks.bind fun r => halts_ite halts_pure ?_
    refine Buf.halts_load.bind fun _ => Buf.halts_load.bind fun _ => Buf.halts_load.bind fun _ => ?_
    exact Buf.halts_load.bind fun _ => Buf.halts_copy.bind fun _ => halts_pure

theorem halts_nameEq {entry : Buf} (comp : Str) (i : ℕ) : Halts (nameEq entry comp i) := by
  induction comp generalizing i with
  | nil => exact Buf.halts_load.bind fun _ => halts_pure
  | cons x comp ih => exact Buf.halts_load.bind fun c => halts_ite halts_pure (ih (i + 1))

theorem halts_strncpyLoop {src dst : Buf} (n i : ℕ) : Halts (strncpyLoop src n dst i) := by
  induction n generalizing dst i with
  | zero => exact Buf.halts_fill
  | succ n ih =>
    refine Buf.halts_load.bind fun c => halts_ite Buf.halts_fill ?_
    exact Buf.halts_copy.bind fun _ => ih (i + 1)

/-- How a call at an offset of a clear walk ends, if it has rounds enough: with
an error, or past the offset with an entry. -/
theorem Clear.dirNext (hc : Clear d sb dir o) (h : sb.Ok) (hdir : dir.Ok) (hd : dir.isDir = true)
    (hv : Comes d sb dir o off) (hf : dir.size - off < fuel) (nameOut : Buf) (w : World) :
    (∃ rc off' w', Ext4.dirNext d sb dir nameOut fuel off w = .ret ((.error rc, off'), w')) ∨
    ∃ e q w', Ext4.dirNext d sb dir nameOut fuel off w = .ret ((.ok e, q), w') ∧
      off < q ∧ off < dir.size ∧ Comes d sb dir o q := by
  by_cases halloc : (w.alloc w.used).isSome
  · obtain ⟨r, hr, hgives⟩ := hc.dirAt h hv
    have hmono := dirAt_mono hr (fuel - (dir.size - off + 1))
    rw [show dir.size - off + 1 + (fuel - (dir.size - off + 1)) = fuel by omega] at hmono
    have hans := dirNext_answers (d := d) h hdir hd halloc nameOut fuel off
    rw [hmono] at hans
    cases r with
    | ends rc =>
      obtain ⟨off', w', -, heq⟩ := hans
      exact .inl ⟨rc, off', w', heq⟩
    | gives m p q =>
      obtain ⟨w', -, heq⟩ := hans
      exact .inr ⟨_, q, w', heq, hgives m p q rfl⟩
    | goes q => exact absurd hr dirAt_ne_goes
  · rw [Option.not_isSome_iff_eq_none] at halloc
    exact .inl ⟨_, off, _, dirNext_nomem hd halloc⟩

/-- **The search for a component** ends. -/
theorem Clear.findLoop (hc : Clear d sb dir o) (h : sb.Ok) (hdir : dir.Ok) (hd : dir.isDir = true)
    (hv : Comes d sb dir o off) (comp : Str) (stack : Bytes) (hf : dir.size + (dir.size - off) + 1 < fuel) :
    Halts (findLoop d sb dir comp stack fuel off) := by
  induction fuel generalizing off with
  | zero => omega
  | succ fuel ih =>
    intro w
    rw [Ext4.findLoop]
    rcases hc.dirNext h hdir hd hv (by omega : dir.size - off < fuel) ⟨stack, nameMax⟩ w with
      ⟨rc, off', w', heq⟩ | ⟨e, q, w', heq, hlt, hsize, hq⟩
    · rw [bind_of_ret heq]
      exact fun hw => by cases hw
    · rw [bind_of_ret heq]
      refine Halts.bind (halts_nameEq comp 0) (fun b => halts_ite ?_ (ih hq (by omega))) w'
      refine (halts_readInode e.ino).bind fun r => ?_
      cases r with
      | error rc => exact halts_pure
      | ok t => exact halts_ite halts_pure halts_pure

/-- **A full traversal** ends. -/
theorem Clear.traverse (hc : Clear d sb dir o) (h : sb.Ok) (hdir : dir.Ok) (hd : dir.isDir = true)
    (hv : Comes d sb dir o off) (stack : Bytes) (out : Buf)
    (hf : dir.size + (dir.size - off) + 1 < fuel) : Halts (traverse d sb dir stack out fuel off) := by
  induction fuel generalizing off with
  | zero => omega
  | succ fuel ih =>
    intro w
    rw [Ext4.traverse]
    rcases hc.dirNext h hdir hd hv (by omega : dir.size - off < fuel) ⟨stack, nameMax⟩ w with
      ⟨rc, off', w', heq⟩ | ⟨e, q, w', heq, hlt, hsize, hq⟩
    · have hread : readdir d sb dir stack fuel off out w = .ret ((.error rc, off), w') := by
        rw [readdir, bind_of_ret heq]
        rfl
      rw [bind_of_ret hread]
      exact fun hw => by cases hw
    · have hread : ∀ f : Except ℤ (Buf × ℕ) × ℕ → M (List (Buf × ℕ)),
          (readdir d sb dir stack fuel off out >>= f) w =
            ((strncpyLoop e.name (nameMax - 1) out 0) >>= fun out => f (.ok (out, e.ftype), q)) w' := by
        intro f
        rw [bind_apply, readdir, bind_of_ret heq, bind_apply]
        dsimp only
        rw [bind_apply]
        cases strncpyLoop e.name (nameMax - 1) out 0 w' <;> rfl
      rw [hread]
      refine Halts.bind (halts_strncpyLoop (nameMax - 1) 0) (fun out' => ?_) w'
      exact (ih hq (by omega)).bind fun es => halts_pure

/-- **`ext4_lookup`** ends, if the directories of the volume are clear. -/
theorem halts_lookup (h : sb.Ok) (stack : Bytes) (rel : Str)
    (hall : ∀ ino w ip w', readInode d sb ino w = .ret (.ok ip, w') → ip.isDir = true → Clear d sb ip 0)
    (hf : 2 ^ 65 + rel.length < fuel) : Halts (lookup d sb stack fuel rel) := by
  have hloop : ∀ (fuel : ℕ) (p : Str) (ino : ℕ), 2 ^ 65 + p.length < fuel →
      Halts (lookupLoop d sb stack fuel p ino) := by
    intro fuel
    induction fuel with
    | zero => exact fun p ino hf => by omega
    | succ fuel ih =>
      intro p ino hf w
      rw [lookupLoop]
      dsimp only
      by_cases hcomp : (p.takeWhile (· ≠ slash)).length = 0 ∨ nameMax ≤ (p.takeWhile (· ≠ slash)).length
      · rw [if_pos hcomp]
        exact fun hw => by cases hw
      rw [if_neg hcomp, bind_apply]
      cases hread : readInode d sb ino w with
      | fault => exact fun hw => by cases hw
      | hang => exact fun _ => halts_readInode ino w hread
      | ret r =>
        obtain ⟨r, w'⟩ := r
        cases r with
        | error rc => exact fun hw => by cases hw
        | ok dir =>
          dsimp only
          obtain ⟨hdir, hsize⟩ := (safe_readInode_fields h ino).of_ret hread dir rfl
          by_cases hd : dir.isDir = false
          · rw [if_pos hd]
            exact fun hw => by cases hw
          rw [if_neg hd]
          rw [Bool.not_eq_false] at hd
          refine halts_ite halts_pure (Halts.bind ?_ fun r => ?_) w'
          · exact (hall ino w dir w' hread hd).findLoop h hdir hd (.inl .start) _ stack (by omega)
          · cases r with
            | error rc => exact halts_pure
            | ok found =>
              refine halts_ite halts_pure (ih _ found ?_)
              have hsplit : (p.takeWhile (· ≠ slash)).length + (p.dropWhile (· ≠ slash)).length =
                  p.length := by
                rw [← List.length_append, List.takeWhile_append_dropWhile]
              have hle := (List.dropWhile_suffix (l := p.dropWhile (· ≠ slash)) (· = slash)).length_le
              omega
  refine halts_ite halts_pure (hloop fuel _ rootIno ?_)
  have hle := (List.dropWhile_suffix (l := rel) (· = slash)).length_le
  omega

/-- **Going through a directory makes progress** exactly where its walk is
clear: at any offset of a directory of up to `2 ^ 32` blocks, and from the start
of any. Lookups and full traversals then end. -/
theorem dir_progress_iff (h : sb.Ok) :
    (∀ dir : Inode, dir.Ok → dir.isDir = true →
      (∀ o, Clear d sb dir o → Progress d sb dir o) ∧
      (∀ o, o = 0 ∨ dir.size ≤ 2 ^ 32 * sb.bs → (Progress d sb dir o ↔ Clear d sb dir o)) ∧
      (Clear d sb dir 0 → ∀ stack out, ∃ fuel, Halts (traverse d sb dir stack out fuel 0))) ∧
    ((∀ ino w ip w', readInode d sb ino w = .ret (.ok ip, w') → ip.isDir = true → Clear d sb ip 0) →
      ∀ stack rel, ∃ fuel, Halts (lookup d sb stack fuel rel)) := by
  refine ⟨fun dir hdir hd => ⟨fun o hc => hc.progress h hdir hd, fun o ho => ⟨?_, ?_⟩, ?_⟩, ?_⟩
  · exact fun hp => hp.clear h hdir hd ho
  · exact fun hc => hc.progress h hdir hd
  · exact fun hc stack out =>
      ⟨_, hc.traverse h hdir hd (.inl .start) stack out (Nat.lt_succ_self _)⟩
  · exact fun hall stack rel => ⟨_, halts_lookup h stack rel hall (Nat.lt_succ_self _)⟩

/-! ### A directory of one block -/

/-- A device whose block 100 has an entry in a record of `len` bytes at its
start, and after it a record of the rest. -/
def recordDisk (len : ℕ) : Disk where
  bytes a := ([(102400, 11), (102404, len), (102405, len / 256), (102406, 1), (102408, 97),
    (102404 + len, 1024 - len), (102405 + len, (1024 - len) / 256)].lookup a).elim 0 UInt8.ofNat
  rc _ _ := 0

/-- A directory of the block 100. -/
def recordDir : Inode where
  ino := 2
  mode := 0x4000
  size := 1024
  flags := extentsFl
  isDir := true
  isReg := false
  blk := ⟨oneExtent 1, 60⟩

theorem recordDir_ok : recordDir.Ok := rfl

theorem dirBlock_recordDir (len : ℕ) : dirBlock (recordDisk len) sampleSb recordDir 0 =
    .data ((recordDisk len).block sampleSb 100) := rfl

/-- The walk over two records of half a block. -/
theorem clear_recordDir : Clear (recordDisk 512) sampleSb recordDir 0 := by
  have hvis : ∀ off, Visits (recordDisk 512) sampleSb recordDir 0 off → off = 0 ∨ off = 512 ∨ 1024 ≤ off := by
    intro off hv
    induction hv with
    | start => exact .inl rfl
    | @hole off hv hoff hb ih =>
      rcases ih with rfl | rfl | hle
      · exact absurd hb (by rw [show 0 / sampleSb.bs % 2 ^ 32 = 0 by decide, dirBlock_recordDir]; simp)
      · exact absurd hb (by rw [show 512 / sampleSb.bs % 2 ^ 32 = 0 by decide, dirBlock_recordDir]; simp)
      · exact absurd hoff (not_lt.mpr hle)
    | @record off m hv hoff hb hend hok ih =>
      rcases ih with rfl | rfl | hle
      · rw [show 0 / sampleSb.bs % 2 ^ 32 = 0 by decide, dirBlock_recordDir] at hb
        obtain rfl := DirBlock.data.inj hb
        right; left
        decide +kernel
      · rw [show 512 / sampleSb.bs % 2 ^ 32 = 0 by decide, dirBlock_recordDir] at hb
        obtain rfl := DirBlock.data.inj hb
        right; right
        decide +kernel
      · exact absurd hoff (not_lt.mpr hle)
  intro off hv hsize
  rcases hvis off hv with rfl | rfl | hle
  · exact ⟨by decide, fun m hb => by decide⟩
  · exact ⟨by decide, fun m hb => by decide⟩
  · exact absurd hsize (not_lt.mpr hle)

/-- A traversal of that directory. -/
theorem dir_progress_records : Progress (recordDisk 512) sampleSb recordDir 0 :=
  ((dir_progress_iff sampleSb_ok).1 recordDir rfl rfl).1 0 clear_recordDir

/-- **A record that ends four bytes before its block**: the call after it never
returns. -/
theorem dir_next_stands_still : Called (recordDisk 1020) sampleSb recordDir 0 1020 ∧
    (∀ nameOut fuel, dirNext (recordDisk 1020) sampleSb recordDir nameOut fuel 1020 sampleWorld = .hang) ∧
    ¬ Progress (recordDisk 1020) sampleSb recordDir 0 := by
  have hblock : dirBlock (recordDisk 1020) sampleSb recordDir (1020 / sampleSb.bs % 2 ^ 32) =
      .data ((recordDisk 1020).block sampleSb 100) := dirBlock_recordDir 1020
  have hnone : ∀ fuel, dirAt (recordDisk 1020) sampleSb recordDir fuel 1020 = none :=
    dirAt_of_tail (by decide) hblock (by decide)
  have hgives : Gives (recordDisk 1020) sampleSb recordDir 0 1020 := by
    have hblock₀ : dirBlock (recordDisk 1020) sampleSb recordDir (0 / sampleSb.bs % 2 ^ 32) =
        .data ((recordDisk 1020).block sampleSb 100) := dirBlock_recordDir 1020
    have hlen : recLen ((recordDisk 1020).block sampleSb 100) 0 = 1020 := by decide +kernel
    refine ⟨1, (recordDisk 1020).block sampleSb 100, 0, ?_⟩
    rw [dirAt, dirRound_of_data (by decide) hblock₀, scanAt, if_neg (by decide),
      if_neg (by decide +kernel), if_pos (by decide +kernel)]
    change some (Round.gives _ 0 (0 * 1024 + 0 + recLen ((recordDisk 1020).block sampleSb 100) 0)) = _
    rw [hlen]
  have hcalled := Called.gives sampleSb_ok recordDir_ok rfl Called.start hgives
  refine ⟨hcalled, fun nameOut fuel => ?_, fun hp => ?_⟩
  · have hans := dirNext_answers (d := recordDisk 1020) sampleSb_ok recordDir_ok rfl
      (show (sampleWorld.alloc sampleWorld.used).isSome from rfl) nameOut fuel 1020
    rw [hnone] at hans
    exact hans
  · obtain ⟨fuel, r, hr, -⟩ := (advances_iff sampleSb_ok recordDir_ok rfl).mp (hp 1020 hcalled)
    rw [hnone] at hr
    cases hr

end Ext4

end Csos

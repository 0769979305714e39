import Csos.Fat32.Scan
import Csos.Fat32.Mount
/-!
# FAT32 — scans that end

The scans of a directory stop at a missing entry, at the end marker, or when
they have what they look for. Entry offsets wrap, so they come past every
entry again and again; whether they are bound to end is a question about the
directory alone. Transfers that fail end a scan or send its cursor astray,
but only until the index has wrapped.
-/

namespace Csos

namespace Fat32

open Vfs (Str)

variable {g : Geo} {v v' v₁ : Vol} {c d k m n idx : ℕ} {e : Bytes} {ch ch' : Chain}
  {S R : Type} {loop : ℕ → Chain → ℕ → S → Vol → R} {vol : R → Vol}

/-! ## Reading uses transfers up -/

/-- A volume after `m` transfers that have changed nothing. -/
def Vol.after (v : Vol) (m : ℕ) : Vol := { v with faults := v.faults.drop m }

@[simp] theorem after_hang : (v.after m).hang = v.hang := rfl

theorem after_after : (v.after m).after n = v.after (m + n) := by
  rw [Vol.after, Vol.after, Vol.after, List.drop_drop]

theorem after_quiet (hq : Quiet v) : v.after m = v := by
  rw [Vol.after, show v.faults = [] from hq, List.drop_nil, ← show v.faults = [] from hq]

theorem transfer_after (v : Vol) : v.transfer.2 = v.after 1 := by
  rw [Vol.transfer, Vol.after]
  split
  · rename_i h
    rw [h, List.drop_nil, ← h]
  · rename_i h
    rw [h]
    rfl

theorem readSec_after (lba : ℕ) (v : Vol) : (readSec g lba v).2 = v.after 1 := by
  rw [← transfer_after, readSec]
  split <;> rename_i h <;> rw [h]

theorem fatGet_after (c : ℕ) (v : Vol) : (fatGet g c v).2 = v.after 1 := by
  have h := readSec_after (g := g) (fatLba g (fatCopy g) c) v
  rw [fatGet]
  split <;> rename_i heq <;> rw [heq] at h <;> exact h

theorem walk_after : ∀ (n c : ℕ) (v : Vol), ∃ m, (walk g n c v).2 = v.after m := by
  intro n
  induction n with
  | zero => exact fun c v => ⟨0, rfl⟩
  | succ n ih =>
    intro c v
    have hget := fatGet_after (g := g) c v
    rw [walk]
    rcases hx : fatGet g c v with ⟨x, v₁⟩
    rw [hx] at hget
    obtain rfl : v₁ = v.after 1 := hget
    dsimp only
    split_ifs
    · obtain ⟨m, hm⟩ := ih x (v.after 1)
      exact ⟨1 + m, by rw [hm, after_after]⟩
    · exact ⟨1, rfl⟩

/-- A cache of the first position is the start. -/
def Rooted (ch : Chain) : Prop := ch.cacheOk = true → ch.cacheIndex = 0 → ch.cacheClus = ch.start

theorem rooted_init (d : ℕ) : Rooted (chainInit d) := by simp [Rooted, chainInit]

/-- What `fat32_chain_at` leaves of the cursor and the volume. -/
theorem chainAt_after (hr : Rooted ch) (idx : ℕ) (v : Vol) :
    ∃ m, (chainAt g ch idx v).2.2 = v.after m ∧ (chainAt g ch idx v).2.1.start = ch.start ∧
      Rooted (chainAt g ch idx v).2.1 := by
  rw [chainAt, chainAt2]
  by_cases hv : clusValid g ch.start = true
  case neg =>
    rw [if_pos hv]
    exact ⟨0, rfl, rfl, hr⟩
  rw [if_neg (not_not.mpr hv)]
  obtain ⟨c, i, hci, hstart⟩ : ∃ c i,
      (if ch.cacheOk = true ∧ ch.cacheIndex ≤ idx then (ch.cacheClus, ch.cacheIndex)
        else (ch.start, 0)) = (c, i) ∧ (idx = 0 → c = ch.start ∧ i = 0) := by
    split
    · rename_i hc
      exact ⟨_, _, rfl, fun h0 => ⟨hr hc.1 (by omega), by omega⟩⟩
    · exact ⟨_, _, rfl, fun _ => ⟨rfl, rfl⟩⟩
  rw [hci]
  obtain ⟨m, hm⟩ := walk_after (g := g) (idx - i) c v
  refine ⟨m, ?_⟩
  dsimp only
  rcases hw : walk g (idx - i) c v with ⟨_ | x, v₁⟩ <;> rw [hw] at hm
  · exact ⟨hm, rfl, hr⟩
  · refine ⟨hm, rfl, fun _ h0 => ?_⟩
    obtain ⟨rfl, rfl⟩ := hstart h0
    obtain rfl : idx = 0 := h0
    exact (Option.some.inj (Prod.mk.inj hw).1).symm

/-- A read of an entry that succeeds has used a transfer up. -/
theorem entRead_ok (hr : Rooted ch) (h : entRead g ch idx v = (fatOk, e, ch', v')) :
    (∃ m, v' = v.after (m + 1)) ∧ ch'.start = ch.start ∧ Rooted ch' := by
  obtain ⟨m, hm, hst, hroot⟩ := chainAt_after (g := g) hr (idx * 32 % 2 ^ 32 / g.clusBytes) v
  rw [entRead] at h
  rcases hc : chainAt g ch (idx * 32 % 2 ^ 32 / g.clusBytes) v with ⟨c, ch₁, v₁⟩
  rw [hc] at h hm hst hroot
  dsimp only at h hm hst hroot
  subst hm
  by_cases hv : clusValid g c = true
  case neg =>
    rw [if_pos hv] at h
    exact absurd (Prod.mk.inj h).1 (by decide)
  rw [if_neg (not_not.mpr hv)] at h
  have hread := readSec_after (g := g) (entPlace g c idx).1 (v.after m)
  rcases hs : readSec g (entPlace g c idx).1 (v.after m) with ⟨_ | s, v₂⟩
  · rw [hs] at h
    exact absurd (Prod.mk.inj h).1 (by decide)
  · rw [hs] at h hread
    obtain ⟨-, rfl, rfl⟩ : _ ∧ ch₁ = ch' ∧ v₂ = v' := by simpa using h
    exact ⟨⟨m, hread.trans after_after⟩, hst, hroot⟩

/-- A read of an entry leaves `hang` alone. -/
theorem entRead_hang (hr : Rooted ch) (idx : ℕ) (v : Vol) : (entRead g ch idx v).2.2.2.hang = v.hang := by
  obtain ⟨m, hm, -, -⟩ := chainAt_after (g := g) hr (idx * 32 % 2 ^ 32 / g.clusBytes) v
  rw [entRead]
  rcases hc : chainAt g ch (idx * 32 % 2 ^ 32 / g.clusBytes) v with ⟨c, ch₁, v₁⟩
  rw [hc] at hm
  obtain rfl : v₁ = v.after m := hm
  dsimp only
  split_ifs
  · have hread := readSec_after (g := g) (entPlace g c idx).1 (v.after m)
    rcases hs : readSec g (entPlace g c idx).1 (v.after m) with ⟨_ | s, v₂⟩ <;> rw [hs] at hread
    · obtain rfl : v₂ = (v.after m).after 1 := hread
      rfl
    · obtain rfl : v₂ = (v.after m).after 1 := hread
      rfl
  · rfl

/-- At the first entry every cursor of the directory is as good as a new one. -/
theorem entRead_front (hr : Rooted ch) (h0 : idx % 2 ^ 27 = 0)
    (h : entRead g ch idx v = (fatOk, e, ch', v')) : entRead g (chainInit ch.start) idx v = (fatOk, e, ch', v') := by
  have hz : idx * 32 % 2 ^ 32 / g.clusBytes = 0 := by
    rw [show idx * 32 % 2 ^ 32 = 0 by omega, Nat.zero_div]
  rw [entRead, hz] at h ⊢
  by_cases hv : clusValid g ch.start = true
  case neg =>
    have hc : chainAt g ch 0 v = (0, ch, v) := by simp [chainAt, chainAt2, hv]
    rw [hc] at h
    dsimp only at h
    rw [if_pos (by simp [clusValid])] at h
    exact absurd (Prod.mk.inj h).1 (by decide)
  have hstart : (if ch.cacheOk = true ∧ ch.cacheIndex ≤ 0 then (ch.cacheClus, ch.cacheIndex)
      else (ch.start, 0)) = (ch.start, 0) := by
    split_ifs with hc
    · rw [hr hc.1 (by omega), show ch.cacheIndex = 0 by omega]
    · rfl
  have hsame : chainAt g ch 0 v = chainAt g (chainInit ch.start) 0 v := by
    have hv' : clusValid g (chainInit ch.start).start = true := hv
    rw [chainAt, chainAt, chainAt2, chainAt2, hstart, if_neg (not_not.mpr hv), if_neg (not_not.mpr hv'),
      if_neg (by simp [chainInit])]
    rfl
  rwa [hsame] at h

/-! ## Scans -/

/-- **A loop over the entries of a directory.** A round ends it, or it has
read an entry that is not the end marker and goes on to the next. -/
def Scans (g : Geo) (loop : ℕ → Chain → ℕ → S → Vol → R) (vol : R → Vol) : Prop :=
  ∀ ch idx s v, Rooted ch → (∀ n, (vol (loop (n + 1) ch idx s v)).hang = v.hang) ∨
    ∃ e ch' s' v', entRead g ch idx v = (fatOk, e, ch', v') ∧ e 0 ≠ 0 ∧
      ∀ n, loop (n + 1) ch idx s v = loop n ch' (idx + 1) s' v'

/-- A round that ends the scan, or the scan of the rest. -/
theorem Scans.round (hl : Scans g loop vol) {s : S} (hr : Rooted ch)
    (hrest : ∀ e ch' s' v', entRead g ch idx v = (fatOk, e, ch', v') → e 0 ≠ 0 →
      ∃ n, (vol (loop n ch' (idx + 1) s' v')).hang = v'.hang) :
    ∃ n, (vol (loop n ch idx s v)).hang = v.hang := by
  rcases hl ch idx s v hr with hend | ⟨e, ch', s', v', hread, hne, hgo⟩
  · exact ⟨1, hend 0⟩
  · obtain ⟨n, hn⟩ := hrest e ch' s' v' hread hne
    obtain ⟨⟨m, rfl⟩, -, -⟩ := entRead_ok hr hread
    exact ⟨n + 1, by rw [hgo, hn, after_hang]⟩

/-- On a device that does not fail, a scan with its cursor on the directory
ends: the stop is `m` entries away. -/
theorem Scans.ends_cached (hl : Scans g loop vol) (hq : Quiet v) (m : ℕ) :
    ∀ (ch : Chain) (idx : ℕ) (s : S), Rooted ch → Cached g v ch →
      Stops g v ch.start (idx + m) → ∃ n, (vol (loop n ch idx s v)).hang = v.hang := by
  induction m with
  | zero =>
    intro ch idx s hr hc hstop
    refine hl.round hr fun e ch' s' v' hread hne => ?_
    obtain ⟨ch₁, -, -, hr₁⟩ := entRead_eq hq hc idx
    rcases he : entAt g v ch.start idx with _ | e' <;> rw [hread, he] at hr₁
    · exact absurd (Prod.mk.inj hr₁).1 (by decide)
    · obtain rfl := (Prod.mk.inj (Prod.mk.inj hr₁).2).1
      exact absurd (hstop e he) hne
  | succ m ih =>
    intro ch idx s hr hc hstop
    refine hl.round hr fun e ch' s' v' hread _ => ?_
    obtain ⟨ch₁, hst₁, hc₁, hr₁⟩ := entRead_eq hq hc idx
    have hok := (entRead_ok hr hread).2
    rcases he : entAt g v ch.start idx with _ | e' <;> rw [hread, he] at hr₁
    · exact absurd (Prod.mk.inj hr₁).1 (by decide)
    obtain ⟨hch, hv⟩ := Prod.mk.inj (Prod.mk.inj (Prod.mk.inj hr₁).2).2
    subst hch hv
    exact ih ch' (idx + 1) s' hok.2 hc₁ (by rwa [hst₁, Nat.add_right_comm])

/-- From any cursor: the index wraps `m` entries from here, and then the
cursor is on the directory. -/
theorem Scans.ends_quiet (hl : Scans g loop vol) (hq : Quiet v) (hstop : ∃ k, Stops g v d k) (m : ℕ) :
    ∀ (ch : Chain) (idx : ℕ) (s : S), Rooted ch → ch.start = d → (idx + m) % 2 ^ 27 = 0 →
      ∃ n, (vol (loop n ch idx s v)).hang = v.hang := by
  obtain ⟨k, hk⟩ := hstop
  induction m with
  | zero =>
    intro ch idx s hr hst h0
    refine hl.round hr fun e ch' s' v' hread _ => ?_
    obtain ⟨ch₁, hst₁, hc₁, hr₁⟩ := entRead_eq hq (cached_init ch.start) idx
    have hfront := entRead_front hr (by omega) hread
    have hok := (entRead_ok hr hread).2
    rcases he : entAt g v (chainInit ch.start).start idx with _ | e' <;> rw [hfront, he] at hr₁
    · exact absurd (Prod.mk.inj hr₁).1 (by decide)
    obtain ⟨hch, hv⟩ := Prod.mk.inj (Prod.mk.inj (Prod.mk.inj hr₁).2).2
    subst hch hv
    -- the stop, as the entry it is in the round after this one
    refine hl.ends_cached hq (k % 2 ^ 27 + (2 ^ 27 - 1)) ch' (idx + 1) s' hok.2 hc₁ ?_
    have hmod : (idx + 1 + (k % 2 ^ 27 + (2 ^ 27 - 1))) % 2 ^ 27 = k % 2 ^ 27 := by omega
    rw [← stops_mod, hmod, stops_mod, hok.1, hst]
    exact hk
  | succ m ih =>
    intro ch idx s hr hst h0
    refine hl.round hr fun e ch' s' v' hread _ => ?_
    obtain ⟨⟨j, rfl⟩, hst', hr'⟩ := entRead_ok hr hread
    rw [after_quiet hq]
    exact ih ch' (idx + 1) s' hr' (hst'.trans hst) (by rwa [Nat.add_right_comm])

/-- **A scan of a directory with a stop ends**, whatever transfers fail: each
entry that is read uses one of them up. -/
theorem Scans.ends (hl : Scans g loop vol) (hstop : ∃ k, Stops g v d k) (ch : Chain) (idx : ℕ) (s : S)
    (hr : Rooted ch) (hst : ch.start = d) : ∃ n, (vol (loop n ch idx s v)).hang = v.hang := by
  induction hlen : v.faults.length using Nat.strong_induction_on generalizing v ch idx s with
  | _ len ih =>
  by_cases hq : Quiet v
  · exact hl.ends_quiet hq hstop (2 ^ 27 - idx % 2 ^ 27) ch idx s hr hst (by omega)
  · refine hl.round hr fun e ch' s' v' hread _ => ?_
    obtain ⟨⟨m, rfl⟩, hst', hr'⟩ := entRead_ok hr hread
    have hpos : 0 < v.faults.length := List.length_pos_iff.mpr hq
    have hless : (v.after (m + 1)).faults.length < v.faults.length := by
      rw [Vol.after, List.length_drop]
      omega
    obtain ⟨k, hk⟩ := hstop
    have hdisk : (v.after (m + 1)).disk = v.disk := rfl
    exact ih _ (hlen ▸ hless) ⟨k, (stops_disk hdisk).mpr hk⟩ ch' (idx + 1) s' hr' (hst'.trans hst) rfl

/-! ## The four scans -/

/-- A loop that ends at an error and at the end marker is a scan, when each of
its other rounds ends it or goes on. -/
theorem scans_of_live
    (hstop : ∀ {ch idx s v rc e ch' v'}, entRead g ch idx v = (rc, e, ch', v') → rc ≠ fatOk ∨ e 0 = 0 →
      ∀ n, vol (loop (n + 1) ch idx s v) = v')
    (hlive : ∀ {ch idx s v e ch' v'}, entRead g ch idx v = (fatOk, e, ch', v') → e 0 ≠ 0 →
      (∀ n, vol (loop (n + 1) ch idx s v) = v') ∨
        ∃ s', ∀ n, loop (n + 1) ch idx s v = loop n ch' (idx + 1) s' v') : Scans g loop vol := by
  intro ch idx s v hr
  have hhang := entRead_hang (g := g) hr idx v
  match hread : entRead g ch idx v with
  | (rc, e, ch', v') =>
    rw [hread] at hhang
    by_cases hend : rc ≠ fatOk ∨ e 0 = 0
    · exact .inl fun n => by rw [hstop hread hend, hhang]
    obtain ⟨hrc, h0⟩ := not_or.mp hend
    obtain rfl := not_not.mp hrc
    rcases hlive hread h0 with hdone | ⟨s', hgo⟩
    · exact .inl fun n => by rw [hdone, hhang]
    · exact .inr ⟨e, ch', s', v', rfl, h0, hgo⟩

/-- The end of a loop that tells the end of the chain apart from an error. -/
theorem vol_stop {α : Type} {rc : ℤ} {e : Bytes} {f : α → Vol} {a b c d : α}
    (h : rc ≠ fatOk ∨ e 0 = 0) (ha : f a = v) (hb : f b = v) (hc : f c = v) :
    f (if rc = errEof then a else if rc ≠ fatOk then b else if e 0 = 0 then c else d) = v := by
  split_ifs with _ h1 h2
  · exact ha
  · exact hb
  · exact hc
  · exact absurd h (not_or.mpr ⟨h1, h2⟩)

theorem shortExists_scans (raw : Bytes) :
    Scans g (fun n ch idx (_ : Unit) v => shortExistsLoop g raw n ch idx v) Prod.snd := by
  refine scans_of_live (fun hread hend n => ?_) fun hread h0 => ?_
  · simp only [shortExistsLoop, hread]
    rcases hend with hrc | h0
    · rw [if_pos hrc]
    · simp only [if_pos h0, ite_self]
  · simp only [shortExistsLoop, hread, ne_eq, not_true_eq_false, if_false, h0]
    split_ifs
    · exact .inr ⟨(), fun n => rfl⟩
    · exact .inl fun n => rfl
    · exact .inr ⟨(), fun n => rfl⟩

theorem dirIsEmpty_scans : Scans g (fun n ch idx (_ : Unit) v => dirIsEmptyLoop g n ch idx v) Prod.snd := by
  refine scans_of_live (fun hread hend n => ?_) fun hread h0 => ?_
  · simp only [dirIsEmptyLoop, hread]
    exact vol_stop hend rfl rfl rfl
  · simp only [dirIsEmptyLoop, hread, if_neg (show fatOk ≠ errEof by decide), ne_eq, not_true_eq_false,
      if_false, h0]
    split_ifs
    · exact .inr ⟨(), fun n => rfl⟩
    · exact .inl fun n => rfl

theorem lookup_scans (d : ℕ) (name : Str) :
    Scans g (fun n ch idx s v => lookupLoop g d name n ch idx s v) fun r => r.2.2 := by
  refine scans_of_live (fun hread hend n => ?_) fun {_ _ s _ _ _ _} hread h0 => ?_
  · simp only [lookupLoop, hread]
    exact vol_stop (f := fun r : ℤ × Option Loc × Vol => r.2.2) hend rfl rfl rfl
  · simp only [lookupLoop, hread, if_neg (show fatOk ≠ errEof by decide), ne_eq, not_true_eq_false,
      if_false, h0]
    split_ifs
    · exact .inr ⟨s.reset, fun n => rfl⟩
    · exact .inr ⟨_, fun n => rfl⟩
    · exact .inl fun n => rfl
    · exact .inl fun n => rfl
    · exact .inr ⟨s.reset, fun n => rfl⟩
    · exact .inr ⟨s.reset, fun n => rfl⟩

theorem readdir_scans : Scans g (fun n ch idx s v => readdirLoop g n ch idx s v) fun r => r.2.2.2 := by
  refine scans_of_live (fun hread hend n => ?_) fun {_ _ s _ _ _ _} hread h0 => ?_
  · simp only [readdirLoop, hread]
    exact vol_stop (f := fun r : ℤ × Option Dirent × ℕ × Vol => r.2.2.2) hend rfl rfl rfl
  · simp only [readdirLoop, hread, if_neg (show fatOk ≠ errEof by decide), ne_eq, not_true_eq_false,
      if_false, h0]
    split_ifs
    · exact .inr ⟨s.reset, fun n => rfl⟩
    · exact .inr ⟨_, fun n => rfl⟩
    · exact .inr ⟨s.reset, fun n => rfl⟩
    · exact .inl fun n => rfl
    · exact .inr ⟨s.reset, fun n => rfl⟩

/-- **The scans of a directory end**: for each, some number of rounds is
enough, whatever it is looking for. -/
structure ScansEnd (g : Geo) (v : Vol) (d : ℕ) : Prop where
  lookup : ∀ name, ∃ n,
    (lookupLoop g d name n (chainInit d) 0 ⟨v.junk, 0, 0, 0, false⟩ v).2.2.hang = false
  exists_ : ∀ raw, ∃ n, (shortExistsLoop g raw n (chainInit d) 0 v).2.hang = false
  empty : ∃ n, (dirIsEmptyLoop g n (chainInit d) 0 v).2.hang = false
  readdir : ∀ i, ∃ n, (readdirLoop g n (chainInit d) i ⟨v.junk, 0, 0, 0, false⟩ v).2.2.2.hang = false

/-- A directory with a stop has scans that end. -/
theorem scansEnd_of_stops (hstop : ∃ k, Stops g v d k) (hh : v.hang = false) : ScansEnd g v d where
  lookup name := hh ▸ (lookup_scans d name).ends hstop (chainInit d) 0 _ (rooted_init d) rfl
  exists_ raw := hh ▸ (shortExists_scans raw).ends hstop (chainInit d) 0 () (rooted_init d) rfl
  empty := hh ▸ dirIsEmpty_scans.ends hstop (chainInit d) 0 () (rooted_init d) rfl
  readdir i := hh ▸ readdir_scans.ends hstop (chainInit d) i _ (rooted_init d) rfl

/-- A search for a name that no entry can have ends at a stop only. -/
theorem stops_of_ends (hq : Quiet v)
    (h : ∃ n, (shortExistsLoop g (Bytes.const 0xe5) n (chainInit d) 0 v).2.hang = false) :
    ∃ k, Stops g v d k := by
  obtain ⟨n, hn⟩ := h
  rcases (shortExists_searches hq d (Bytes.const 0xe5)).cases ⟨rfl, cached_init d⟩ n with
    ⟨k, r, -, -, -, hr, -⟩ | ⟨-, hout⟩
  · obtain ⟨b, hb, -⟩ := Option.map_eq_some_iff.mp hr
    refine ⟨k, fun e he => ?_⟩
    rw [Option.mem_def.mp he, existsAt] at hb
    split_ifs at hb with h0 h5 hall
    · exact h0
    · exact absurd (.inl (hall 0 (by simp))) h5
  · rw [hout] at hn
    exact absurd hn (by simp [Vol.hung])

/-- **Scans end exactly on directories with a stop.** Whatever transfers
fail, the four scans of a directory end, if and only if one of the entries
below offset `2 ^ 32` is missing or an end marker. -/
theorem scans_end_iff (g : Geo) (v : Vol) (d : ℕ) :
    (∀ faults, ScansEnd g { v with faults := faults, hang := false } d) ↔ ∃ k < 2 ^ 27, Stops g v d k := by
  constructor
  · intro h
    obtain ⟨k, hk⟩ := stops_of_ends (v := { v with faults := [], hang := false }) rfl ((h []).exists_ _)
    have hdisk : ({ v with faults := [], hang := false } : Vol).disk = v.disk := rfl
    exact ⟨k % 2 ^ 27, Nat.mod_lt _ (by norm_num), stops_mod.mpr ((stops_disk hdisk).mp hk)⟩
  · rintro ⟨k, -, hk⟩ faults
    have hdisk : ({ v with faults := faults, hang := false } : Vol).disk = v.disk := rfl
    exact scansEnd_of_stops ⟨k, (stops_disk hdisk).mpr hk⟩ rfl

/-! ### A directory that runs in a circle -/

/-- The root's only cluster is linked to itself, and all of its entries have
been deleted. -/
def Boot.circle : ℕ → Bytes := fun lba =>
  if lba = 0 then Boot.of 32 1 133 0
  else if lba = 32 then Bytes.store 4 (Bytes.const 0) 8 2
  else Bytes.const 0xe5

/-- The geometry of that volume. -/
abbrev Boot.circleGeo : Geo := geoOf (Boot.of 32 1 133 0) 0 true

/-- **Not every directory has scans that end.** -/
theorem scans_without_end : ∃ v,
    mount (some ⟨Boot.circle, [], 512, true, true⟩) true (fun _ => 0) = .ok (Boot.circleGeo, v) ∧
    v.faults = [] ∧ v.hang = false ∧ ¬ ScansEnd Boot.circleGeo v Boot.circleGeo.rootClus := by
  refine ⟨_, mount_quiet _ (by decide) (by decide) (by decide), rfl, rfl, fun hends => ?_⟩
  set v := readInfo (geoOf (Boot.circle 0) 0 true) ⟨2, 0, false, Boot.circle, [], false, fun _ => 0⟩ with hv
  -- a lookup reads the same deleted entries again and again
  have hnext : nextClus Boot.circleGeo v 2 = some 2 := by decide
  have hlink : ∀ i, linkAt Boot.circleGeo v i 2 = some 2 := by
    intro i
    induction i with
    | zero => rfl
    | succ i ih => rw [linkAt, hnext, Option.bind_some, ih]
  have hent : ∀ k, ∃ e, entAt Boot.circleGeo v 2 k = some e ∧ e 0 = 0xe5 := by
    intro k
    have hclus : clusAt Boot.circleGeo v 2 (k * 32 % 2 ^ 32 / Boot.circleGeo.clusBytes) = some 2 := by
      rw [clusAt, show firstClus Boot.circleGeo 2 = some 2 by decide, Option.bind_some, hlink]
    have hlba : (entPlace Boot.circleGeo 2 k).1 = 33 := by
      have hbase : clusLba Boot.circleGeo 2 = 33 := by decide
      have hbytes : Boot.circleGeo.clusBytes = 512 := by decide
      rw [entPlace, hbase, hbytes]
      dsimp only
      omega
    refine ⟨_, by rw [entAt, hclus, Option.map_some], ?_⟩
    rw [hlba]
    rfl
  obtain ⟨n, hn⟩ := hends.lookup [0x41]
  have hout := (lookup_searches (show Quiet v from rfl) 2 [0x41]).exhausted (n := n) reads_start
    fun k _ _ => by
      obtain ⟨e, he, h5⟩ := hent k
      rw [he, lookupAt, if_neg (by rw [h5]; decide), if_pos (.inl h5), Option.map_none]
  have hroot : Boot.circleGeo.rootClus = 2 := by decide
  rw [hroot] at hn
  rw [hout] at hn
  exact absurd hn (by simp [Vol.hung])

end Fat32

end Csos

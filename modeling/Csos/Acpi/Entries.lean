import Csos.Acpi.Model
import Csos.Common.Frames
/-!
# ACPI tables — the entries of the MADT

After its header a MADT is a list of entries: a type, a length, and a body
of a form that depends on the type. The bytes of a table are the entries of one
list at most (`entries_unique`), and the loop of `parse_madt_entries` gives
what this list records, or stops at what is not an entry (`entryLoop_spec`).
-/

namespace Csos

namespace Acpi

open Checked

variable {m : Bytes} {madt : Buf} {g : MadtInfo} {e : Entry} {l l' : List Entry} {bytes : List UInt8}
  {p stop fuel n i : ℕ}

/-! ## Entries -/

/-- An entry: its type and what follows its header. The length has 8 bits. -/
@[ext]
structure Entry where
  type : UInt8
  body : List UInt8
  short : body.length + 2 < 256

namespace Entry

/-- The length that the header has. -/
def length (e : Entry) : ℕ := e.body.length + 2

/-- The bytes of an entry. -/
def encode (e : Entry) : List UInt8 := e.type :: UInt8.ofNat e.length :: e.body

theorem toNat_length (e : Entry) : (UInt8.ofNat e.length).toNat = e.length :=
  UInt8.toNat_ofNat_of_lt' e.short

/-- A field of the body. -/
def field (n : ℕ) (e : Entry) (i : ℕ) : ℕ := Bytes.load n (fun k => e.body.getD k 0) i

/-- The length that an entry of a type has at least. -/
def minLength (type : UInt8) : ℕ :=
  if type = madtLocalApic then 8
  else if type = madtIoApic then 12
  else if type = madtIso then 10
  else if type = madtLapicAddrOverride then 12
  else 2

/-- The processor that an entry describes. -/
def cpu (e : Entry) : Option Cpu :=
  if e.type = madtLocalApic then some ⟨e.field 1 0, e.field 1 1, e.field 4 2⟩ else none

/-- The I/O APIC that an entry describes. -/
def ioapic (e : Entry) : Option Ioapic :=
  if e.type = madtIoApic then some ⟨e.field 1 0, e.field 4 2, e.field 4 6⟩ else none

/-- The override of an interrupt that an entry describes. -/
def iso (e : Entry) : Option Iso :=
  if e.type = madtIso then some ⟨e.field 1 0, e.field 1 1, e.field 4 2, e.field 2 6⟩ else none

/-- The address that an entry gives the local APIC. -/
def lapicAddr (e : Entry) : Option ℕ :=
  if e.type = madtLapicAddrOverride then some (e.field 8 2) else none

end Entry

/-- The bytes are these entries, each as long as its type asks, and at most
one byte more. -/
structure Entries (bytes : List UInt8) (l : List Entry) : Prop where
  frames : Frames Entry.encode 2 bytes l
  sized : ∀ e ∈ l, Entry.minLength e.type ≤ e.length

/-- What the entries of a list record: in order, and as far as there is room. -/
def recorded (lapicAddr flags : ℕ) (l : List Entry) : MadtInfo where
  lapicAddr := (l.filterMap Entry.lapicAddr).getLast?.getD lapicAddr
  flags := flags
  cpus := (l.filterMap Entry.cpu).take maxCpus
  ioapics := (l.filterMap Entry.ioapic).take maxIoapics
  overrides := (l.filterMap Entry.iso).take maxOverrides

theorem delimited_encode : Delimited Entry.encode 2 where
  le e := by
    rw [Entry.encode, List.length_cons, List.length_cons]
    omega
  inj {a b s t} h := by
    obtain ⟨htype, h⟩ := List.cons.inj h
    obtain ⟨hlen, hbody⟩ := List.cons.inj h
    have hlength : a.length = b.length := by
      rw [← a.toNat_length, ← b.toNat_length, hlen]
    exact Entry.ext htype (List.append_inj_left hbody (Nat.add_right_cancel hlength))

/-- **The bytes of a table are the entries of one list at most.** -/
theorem entries_unique (h : Entries bytes l) (h' : Entries bytes l') : l = l' :=
  delimited_encode.unique h.frames h'.frames

/-! ## Entries in a table -/

/-- What stands at `p`, read as an entry. -/
def entryAt (m : Bytes) (p : ℕ) : Entry where
  type := m p
  body := slice m (p + 2) (p + (m (p + 1)).toNat)
  short := by
    have := (m (p + 1)).toNat_lt
    rw [length_slice]
    omega

theorem entryAt_length (h : 2 ≤ (m (p + 1)).toNat) : (entryAt m p).length = (m (p + 1)).toNat := by
  rw [Entry.length, entryAt, length_slice]
  omega

theorem encode_entryAt (h : 2 ≤ (m (p + 1)).toNat) :
    (entryAt m p).encode = slice m p (p + (m (p + 1)).toNat) := by
  rw [slice_cons (by omega), slice_cons (by omega), Entry.encode, entryAt_length h, UInt8.ofNat_toNat]
  rfl

/-- An entry that the bytes from `p` on start with is the one at `p`. -/
theorem eq_entryAt {s : List UInt8} (h : slice m p stop = e.encode ++ s) :
    e = entryAt m p ∧ 2 ≤ (m (p + 1)).toNat ∧ p + (m (p + 1)).toNat ≤ stop := by
  have hlen := congrArg List.length h
  rw [length_slice, List.length_append, Entry.encode, List.length_cons, List.length_cons] at hlen
  have heq := h
  rw [slice_cons (by omega), slice_cons (by omega), Entry.encode, List.cons_append, List.cons_append,
    List.cons.injEq, List.cons.injEq] at heq
  have hnat : (m (p + 1)).toNat = e.length := by
    rw [heq.2.1, e.toNat_length]
  have h2 : 2 ≤ (m (p + 1)).toNat := by
    rw [hnat, Entry.length]
    omega
  have hle : p + (m (p + 1)).toNat ≤ stop := by
    rw [hnat, Entry.length]
    omega
  refine ⟨?_, h2, hle⟩
  rw [slice_append (Nat.le_add_right p _) hle, ← encode_entryAt h2] at h
  exact (delimited_encode.inj h).symm

/-- **The first entry from `p` on**, and the others. -/
theorem entries_cons_iff (h : p + 2 ≤ stop) : Entries (slice m p stop) l ↔
    2 ≤ (m (p + 1)).toNat ∧ p + (m (p + 1)).toNat ≤ stop ∧
      Entry.minLength (m p) ≤ (m (p + 1)).toNat ∧
      ∃ l', l = entryAt m p :: l' ∧ Entries (slice m (p + (m (p + 1)).toNat) stop) l' := by
  constructor
  · rintro ⟨hf, hs⟩
    cases l with
    | nil => exact absurd rfl (hf.ne_nil (by rw [length_slice]; omega))
    | cons e l' =>
      obtain ⟨s, heq, hrest⟩ := hf.exists_eq
      obtain ⟨rfl, h2, hle⟩ := eq_entryAt heq
      rw [slice_append (Nat.le_add_right p _) hle, ← encode_entryAt h2] at heq
      rw [← List.append_cancel_left heq] at hrest
      have hmin := hs _ List.mem_cons_self
      rw [entryAt_length h2] at hmin
      exact ⟨h2, hle, hmin, l', rfl, hrest, fun e he => hs e (List.mem_cons_of_mem _ he)⟩
  · rintro ⟨h2, hle, hmin, l', rfl, hf, hs⟩
    refine ⟨?_, fun e he => ?_⟩
    · rw [slice_append (Nat.le_add_right p _) hle, ← encode_entryAt h2]
      exact hf.cons _
    · rcases List.mem_cons.mp he with rfl | he
      · rw [entryAt_length h2]
        exact hmin
      · exact hs e he

theorem entries_nil (h : stop < p + 2) : Entries (slice m p stop) l ↔ l = [] := by
  have hlen : (slice m p stop).length < 2 := by
    rw [length_slice]
    omega
  constructor
  · intro hl
    exact delimited_encode.eq_nil hl.frames hlen
  · rintro rfl
    exact ⟨frames_nil hlen, by simp⟩

/-- A field of the entry at `p`, in the table. -/
theorem load_entryAt (h : i + n + 2 ≤ (m (p + 1)).toNat) :
    m.load n (p + 2 + i) = (entryAt m p).field n i := by
  refine Bytes.load_congr fun k hk => ?_
  have hget : (slice m (p + 2) (p + (m (p + 1)).toNat)).getD (i + k) 0 = m (p + 2 + (i + k)) := by
    rw [slice, List.getD_eq_getElem?_getD, List.getElem?_map, List.getElem?_range' (by omega)]
    simp
  rw [entryAt, hget, Nat.add_assoc]

/-! ## What is recorded -/

/-- What is recorded after one entry more. -/
def MadtInfo.add (g : MadtInfo) (e : Entry) : MadtInfo where
  lapicAddr := e.lapicAddr.getD g.lapicAddr
  flags := g.flags
  cpus := (g.cpus ++ e.cpu.toList).take maxCpus
  ioapics := (g.ioapics ++ e.ioapic.toList).take maxIoapics
  overrides := (g.overrides ++ e.iso.toList).take maxOverrides

/-- The arrays hold no more than they can. -/
structure MadtInfo.Bounded (g : MadtInfo) : Prop where
  cpus : g.cpus.length ≤ maxCpus
  ioapics : g.ioapics.length ≤ maxIoapics
  overrides : g.overrides.length ≤ maxOverrides

theorem MadtInfo.bounded_add (g : MadtInfo) (e : Entry) : (g.add e).Bounded where
  cpus := List.length_take_le ..
  ioapics := List.length_take_le ..
  overrides := List.length_take_le ..

section

variable {α : Type} {cap : ℕ} {xs ys : List α} {x : α}

theorem take_push_of_lt (h : xs.length < cap) : (xs ++ [x]).take cap = xs ++ [x] :=
  List.take_of_length_le (by rw [List.length_append, List.length_singleton]; omega)

theorem take_push_of_ge (h : xs.length ≤ cap) (hge : ¬ xs.length < cap) : (xs ++ [x]).take cap = xs :=
  List.take_left' (by omega)

theorem take_push_none (h : xs.length ≤ cap) : (xs ++ []).take cap = xs := by
  rw [List.append_nil, List.take_of_length_le h]

theorem take_take_append : (xs.take cap ++ ys).take cap = (xs ++ ys).take cap := by
  rw [List.take_append, List.take_append, List.take_take, Nat.min_self, List.length_take]
  congr 2
  omega

theorem filterMap_cons_toList {f : Entry → Option α} :
    (e :: l).filterMap f = (f e).toList ++ l.filterMap f := by
  cases h : f e <;> simp [h]

end

/-- **What is recorded after a list of entries.** -/
theorem foldl_add (hg : g.Bounded) (l : List Entry) : l.foldl MadtInfo.add g =
    { lapicAddr := (l.filterMap Entry.lapicAddr).getLast?.getD g.lapicAddr
      flags := g.flags
      cpus := (g.cpus ++ l.filterMap Entry.cpu).take maxCpus
      ioapics := (g.ioapics ++ l.filterMap Entry.ioapic).take maxIoapics
      overrides := (g.overrides ++ l.filterMap Entry.iso).take maxOverrides } := by
  induction l generalizing g with
  | nil =>
    simp only [List.foldl_nil, List.filterMap_nil, take_push_none hg.cpus, take_push_none hg.ioapics,
      take_push_none hg.overrides]
    rfl
  | cons e l ih =>
    rw [List.foldl_cons, ih (g.bounded_add e)]
    have haddr : ((e :: l).filterMap Entry.lapicAddr).getLast?.getD g.lapicAddr =
        (l.filterMap Entry.lapicAddr).getLast?.getD (e.lapicAddr.getD g.lapicAddr) := by
      rw [filterMap_cons_toList]
      cases e.lapicAddr with
      | none => rfl
      | some a => rw [Option.toList_some, List.singleton_append, List.getLast?_cons]; rfl
    rw [haddr]
    simp only [MadtInfo.add, take_take_append, List.append_assoc, filterMap_cons_toList]

theorem foldl_add_eq_recorded (lapicAddr flags : ℕ) (l : List Entry) :
    l.foldl MadtInfo.add ⟨lapicAddr, flags, [], [], []⟩ = recorded lapicAddr flags l :=
  foldl_add ⟨Nat.zero_le _, Nat.zero_le _, Nat.zero_le _⟩ l

/-! ## The loop -/

/-- An entry that is too short for its type stops the machine. -/
theorem parseEntry_short (madt : Buf) (p : ℕ) (g : MadtInfo) {type : UInt8} (h2 : 2 ≤ n)
    (h : n < Entry.minLength type) : ∃ msg, parseEntry madt p type n g () = .ret (.error msg, ()) := by
  unfold Entry.minLength at h
  unfold parseEntry
  split_ifs at h with h0 h1 h2' h5
  · exact ⟨_, by rw [if_pos h0, if_pos h]; rfl⟩
  · exact ⟨_, by rw [if_neg h0, if_pos h1, if_pos h]; rfl⟩
  · exact ⟨_, by rw [if_neg h0, if_neg h1, if_pos h2', if_pos h]; rfl⟩
  · exact ⟨_, by rw [if_neg h0, if_neg h1, if_neg h2', if_pos h5, if_pos h]; rfl⟩
  · omega

/-! ## One entry -/

section

variable (hg : g.Bounded)
include hg

theorem add_localApic (h : e.type = madtLocalApic) : g.add e =
    if g.cpus.length < maxCpus then
      { g with cpus := g.cpus ++ [⟨e.field 1 0, e.field 1 1, e.field 4 2⟩] } else g := by
  have hlapic : e.lapicAddr = none := if_neg (by rw [h]; decide)
  have hioapic : e.ioapic = none := if_neg (by rw [h]; decide)
  have hiso : e.iso = none := if_neg (by rw [h]; decide)
  have hcpu : e.cpu = some ⟨e.field 1 0, e.field 1 1, e.field 4 2⟩ := if_pos h
  simp only [MadtInfo.add, hlapic, hioapic, hiso, hcpu, Option.getD_none, Option.toList_none,
    Option.toList_some, take_push_none hg.ioapics, take_push_none hg.overrides]
  split
  · rw [take_push_of_lt ‹_›]
  · rw [take_push_of_ge hg.cpus ‹_›]

theorem add_ioApic (h : e.type = madtIoApic) : g.add e =
    if g.ioapics.length < maxIoapics then
      { g with ioapics := g.ioapics ++ [⟨e.field 1 0, e.field 4 2, e.field 4 6⟩] } else g := by
  have hlapic : e.lapicAddr = none := if_neg (by rw [h]; decide)
  have hcpu : e.cpu = none := if_neg (by rw [h]; decide)
  have hiso : e.iso = none := if_neg (by rw [h]; decide)
  have hioapic : e.ioapic = some ⟨e.field 1 0, e.field 4 2, e.field 4 6⟩ := if_pos h
  simp only [MadtInfo.add, hlapic, hioapic, hiso, hcpu, Option.getD_none, Option.toList_none,
    Option.toList_some, take_push_none hg.cpus, take_push_none hg.overrides]
  split
  · rw [take_push_of_lt ‹_›]
  · rw [take_push_of_ge hg.ioapics ‹_›]

theorem add_iso (h : e.type = madtIso) : g.add e =
    if g.overrides.length < maxOverrides then
      { g with overrides := g.overrides ++ [⟨e.field 1 0, e.field 1 1, e.field 4 2, e.field 2 6⟩] }
    else g := by
  have hlapic : e.lapicAddr = none := if_neg (by rw [h]; decide)
  have hcpu : e.cpu = none := if_neg (by rw [h]; decide)
  have hioapic : e.ioapic = none := if_neg (by rw [h]; decide)
  have hiso : e.iso = some ⟨e.field 1 0, e.field 1 1, e.field 4 2, e.field 2 6⟩ := if_pos h
  simp only [MadtInfo.add, hlapic, hioapic, hiso, hcpu, Option.getD_none, Option.toList_none,
    Option.toList_some, take_push_none hg.cpus, take_push_none hg.ioapics]
  split
  · rw [take_push_of_lt ‹_›]
  · rw [take_push_of_ge hg.overrides ‹_›]

theorem add_lapicAddr (h : e.type = madtLapicAddrOverride) :
    g.add e = { g with lapicAddr := e.field 8 2 } := by
  have hcpu : e.cpu = none := if_neg (by rw [h]; decide)
  have hioapic : e.ioapic = none := if_neg (by rw [h]; decide)
  have hiso : e.iso = none := if_neg (by rw [h]; decide)
  have hlapic : e.lapicAddr = some (e.field 8 2) := if_pos h
  simp only [MadtInfo.add, hlapic, hioapic, hiso, hcpu, Option.getD_some, Option.toList_none,
    take_push_none hg.cpus, take_push_none hg.ioapics, take_push_none hg.overrides]

theorem add_other (h0 : e.type ≠ madtLocalApic) (h1 : e.type ≠ madtIoApic) (h2 : e.type ≠ madtIso)
    (h5 : e.type ≠ madtLapicAddrOverride) : g.add e = g := by
  simp only [MadtInfo.add, Entry.lapicAddr, Entry.cpu, Entry.ioapic, Entry.iso, if_neg h0, if_neg h1,
    if_neg h2, if_neg h5, Option.getD_none, Option.toList_none, take_push_none hg.cpus,
    take_push_none hg.ioapics, take_push_none hg.overrides]

end

section

variable (hle : p + (madt.bytes (p + 1)).toNat ≤ madt.len)
include hle

/-- A field of the entry at `p` is read inside the table. -/
theorem loadField_apply (n i : ℕ) (h : i + n + 2 ≤ (madt.bytes (p + 1)).toNat) :
    (madt.load n (p + 2 + i) : Checked Unit ℕ) () = .ret ((entryAt madt.bytes p).field n i, ()) := by
  rw [Buf.load_apply (by omega), load_entryAt h]

/-- **An entry that is long enough is recorded.** -/
theorem parseEntry_apply (hg : g.Bounded)
    (hmin : Entry.minLength (madt.bytes p) ≤ (madt.bytes (p + 1)).toNat) :
    parseEntry madt p (madt.bytes p) (madt.bytes (p + 1)).toNat g () =
      .ret (.ok (g.add (entryAt madt.bytes p)), ()) := by
  have htype : (entryAt madt.bytes p).type = madt.bytes p := rfl
  have hload := fun n i => loadField_apply hle n i
  unfold Entry.minLength at hmin
  unfold parseEntry
  by_cases h0 : madt.bytes p = madtLocalApic
  · rw [if_pos h0] at hmin ⊢
    rw [if_neg (by omega), add_localApic hg h0]
    split
    · rw [bind_of_ret (hload 1 0 (by omega)), bind_of_ret (hload 1 1 (by omega)),
        bind_of_ret (hload 4 2 (by omega))]
      rfl
    · rfl
  rw [if_neg h0] at hmin ⊢
  by_cases h1 : madt.bytes p = madtIoApic
  · rw [if_pos h1] at hmin ⊢
    rw [if_neg (by omega), add_ioApic hg h1]
    split
    · rw [bind_of_ret (hload 1 0 (by omega)), bind_of_ret (hload 4 2 (by omega)),
        bind_of_ret (hload 4 6 (by omega))]
      rfl
    · rfl
  rw [if_neg h1] at hmin ⊢
  by_cases h2 : madt.bytes p = madtIso
  · rw [if_pos h2] at hmin ⊢
    rw [if_neg (by omega), add_iso hg h2]
    split
    · rw [bind_of_ret (hload 1 0 (by omega)), bind_of_ret (hload 1 1 (by omega)),
        bind_of_ret (hload 4 2 (by omega)), bind_of_ret (hload 2 6 (by omega))]
      rfl
    · rfl
  rw [if_neg h2] at hmin ⊢
  by_cases h5 : madt.bytes p = madtLapicAddrOverride
  · rw [if_pos h5] at hmin ⊢
    rw [if_neg (by omega), add_lapicAddr hg h5, bind_of_ret (hload 8 2 (by omega))]
    rfl
  · rw [if_neg h5, add_other hg h0 h1 h2 h5]
    rfl

end

/-- **What the loop ends with**: the record of the entries from `p` on, or a
message if there is no list of entries. -/
theorem entryLoop_spec (hstop : stop ≤ madt.len) (hg : g.Bounded) (hp : p ≤ stop) (hf : stop < p + fuel) :
    ∃ r, entryLoop madt stop fuel p g () = .ret (r, ()) ∧ match r with
      | .error _ => ∀ l, ¬ Entries (slice madt.bytes p stop) l
      | .ok g' => ∃ l, Entries (slice madt.bytes p stop) l ∧ g' = l.foldl MadtInfo.add g := by
  induction fuel generalizing p g with
  | zero => omega
  | succ fuel ih =>
    rw [entryLoop]
    by_cases hend : p + 2 ≤ stop
    swap
    · rw [if_neg hend]
      exact ⟨.ok g, rfl, [], (entries_nil (by omega)).mpr rfl, rfl⟩
    have hlen : (madt.load 1 (p + 1) : Checked Unit ℕ) () = .ret ((madt.bytes (p + 1)).toNat, ()) := by
      rw [Buf.load_apply (by omega)]
      rfl
    have hiff := fun l => entries_cons_iff (m := madt.bytes) (l := l) hend
    rw [if_pos hend, bind_of_ret (Buf.get_apply (by omega) ()), bind_of_ret hlen]
    by_cases h2 : 2 ≤ (madt.bytes (p + 1)).toNat
    swap
    · rw [if_pos (by omega)]
      exact ⟨.error _, rfl, fun l hl => h2 ((hiff l).mp hl).1⟩
    rw [if_neg (by omega)]
    by_cases hle : p + (madt.bytes (p + 1)).toNat ≤ stop
    swap
    · rw [if_pos (by omega)]
      exact ⟨.error _, rfl, fun l hl => hle ((hiff l).mp hl).2.1⟩
    rw [if_neg (by omega)]
    by_cases hmin : Entry.minLength (madt.bytes p) ≤ (madt.bytes (p + 1)).toNat
    swap
    · obtain ⟨msg, hmsg⟩ := parseEntry_short madt p g h2 (not_le.mp hmin)
      rw [bind_of_ret hmsg]
      exact ⟨.error msg, rfl, fun l hl => hmin ((hiff l).mp hl).2.2.1⟩
    rw [bind_of_ret (parseEntry_apply (hle.trans hstop) hg hmin)]
    obtain ⟨r, hr, hspec⟩ := ih (g.bounded_add (entryAt madt.bytes p)) hle (by omega)
    refine ⟨r, hr, ?_⟩
    cases r with
    | error msg =>
      intro l hl
      obtain ⟨l', -, hl'⟩ := ((hiff l).mp hl).2.2.2
      exact hspec l' hl'
    | ok g' =>
      obtain ⟨l, hl, hg'⟩ := hspec
      exact ⟨entryAt madt.bytes p :: l, (hiff _).mpr ⟨h2, hle, hmin, l, rfl, hl⟩, hg'⟩

end Acpi

end Csos

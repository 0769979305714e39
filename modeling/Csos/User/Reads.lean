import Csos.Common.Scan
import Csos.User.Load
/-!
# User programs — what the loader reads of the file

`check_ehdr`, `map_elf_image` and `map_one_segment` again, over a buffer
with the file's length: a read of the file at an index past its end faults.
Segments are read inside the file. The program header table is, except when
the sum that bounds it wraps: then the first header is read outside
(`elf_reads_inside_iff`). A load that does not fault is the load of the
model (`mapElfImage_eq`).
-/

namespace Csos

namespace User

open Vmm Checked

/-- The free pages and the machine. -/
abbrev World := List Word × State

/-- A part of the loader that reads nothing of the file; `none` is where the
machine stops. -/
def lift {α : Type} (o : Option (α × World)) : Outcome (α × World) :=
  match o with
  | none => .hang
  | some r => .ret r

namespace Reads

variable {img : Buf} {ptr : Ptr} {ph : Phdr} {s : State} {supply : List Word} {page : Word} {w : World}
  {n i off src va start phoff entry nLoad : ℕ}

/-- A field of the file. -/
def field (n : ℕ) (img : Buf) (off : ℕ) : Checked World ℕ := img.load n (off % 2 ^ 64)

/-- `e_ident` has these bytes. -/
def identOk (img : Buf) : List (ℕ × UInt8) → Checked World Bool
  | [] => return true
  | (k, v) :: l => do
    let x ← img.get k
    if x ≠ v then return false else identOk img l

/-- `check_ehdr`. -/
def checkEhdr (img : Buf) : Checked World Bool := do
  let ok ← identOk img [(0, 0x7f), (1, 0x45), (2, 0x4c), (3, 0x46), (4, 2), (5, 1), (6, 1)]
  if ok = false then return false
  else do
    let type ← field 2 img 16
    if type ≠ 2 then return false
    else do
      let machine ← field 2 img 18
      if machine ≠ 62 then return false
      else do
        let phentsize ← field 2 img 54
        if phentsize ≠ 56 then return false
        else do
          let phnum ← field 2 img 56
          if phnum = 0 ∨ elfMaxSegs < phnum then return false
          else do
            let phoff ← field 8 img 32
            if img.len < (phoff + phnum * 56) % 2 ^ 64 then return false
            else do
              let entry ← field 8 img 24
              if entry < 4096 ∨ lowerEnd ≤ entry then return false else return true

/-- A byte stored through a pointer to a page. -/
def poke (ptr : Ptr) (page : Word) (off : ℕ) (x : UInt8) : Checked World Unit := fun w =>
  lift ((ptr w.2 page).map fun f => ((), w.1, setPageByte w.2 f off x.toBitVec))

/-- `raw_copy` of `n` bytes of the file to an offset in a page. -/
def rawCopy (ptr : Ptr) (img : Buf) (page : Word) : ℕ → ℕ → ℕ → Checked World Unit
  | 0, _, _ => return ()
  | n + 1, off, src => do
    let x ← img.get (src % 2 ^ 64)
    poke ptr page off x
    rawCopy ptr img page n (off + 1) (src + 1)

/-- The copy of one page of `map_one_segment`. -/
def copyPage (ptr : Ptr) (img : Buf) (ph : Phdr) (va : ℕ) (page : Word) : Checked World Unit :=
  let copyStart := max va ph.vaddr
  let copyEnd := min ((va + 4096) % 2 ^ 64) ((ph.vaddr + ph.filesz) % 2 ^ 64)
  if copyStart < copyEnd then
    rawCopy ptr img page (copyEnd - copyStart) (copyStart - va) (ph.offset + (copyStart - ph.vaddr))
  else return ()

/-- `alloc_page`. -/
def allocPage : Checked World Word := fun w =>
  lift (match w.1 with
    | [] => none
    | page :: supply => some (page, supply, w.2))

/-- `kernel_memset` of a page. -/
def clearPage (ptr : Ptr) (page : Word) : Checked World Unit := fun w =>
  lift ((ptr w.2 page).map fun f => ((), w.1, w.2.clear f))

/-- `map_page`. -/
def mapPage (ptr : Ptr) (va page flags : Word) : Checked World ℤ := fun w =>
  lift (mapPageVia ptr w.2 w.1 va page flags)

/-- One turn of the loop of `map_one_segment`. -/
def mapSegmentPage (ptr : Ptr) (img : Buf) (ph : Phdr) (va : ℕ) : Checked World ℤ := do
  let page ← allocPage
  if page = 0 then return -1
  else do
    clearPage ptr page
    copyPage ptr img ph va page
    mapPage ptr (BitVec.ofNat 64 va) page (segFlags ph)

/-- The loop of `map_one_segment`. -/
def mapSegmentLoop (ptr : Ptr) (img : Buf) (ph : Phdr) : ℕ → ℕ → Checked World ℤ
  | 0, _ => return 0
  | n + 1, va => do
    let r ← mapSegmentPage ptr img ph va
    if r ≠ 0 then return -1 else mapSegmentLoop ptr img ph n ((va + 4096) % 2 ^ 64)

/-- `map_one_segment`. -/
def mapOneSegment (ptr : Ptr) (img : Buf) (ph : Phdr) : Checked World ℤ :=
  mapSegmentLoop ptr img ph ((ph.stop - ph.first) / 4096) ph.first

/-- The tests of the `PT_LOAD` segment whose header is at `off`. -/
def segmentOk (img : Buf) (off : ℕ) : Checked World Bool := do
  let filesz ← field 8 img (off + 32)
  let memsz ← field 8 img (off + 40)
  if memsz < filesz then return false
  else if elfMaxSegMemsz < memsz then return false
  else do
    let offset ← field 8 img (off + 8)
    if img.len < (offset + filesz) % 2 ^ 64 ∨ (offset + filesz) % 2 ^ 64 < offset then return false
    else do
      let vaddr ← field 8 img (off + 16)
      return userRangeOk vaddr memsz

/-- The header at `off`. -/
def phdr (img : Buf) (off : ℕ) : Checked World Phdr := do
  let type ← field 4 img off
  let flags ← field 4 img (off + 4)
  let offset ← field 8 img (off + 8)
  let vaddr ← field 8 img (off + 16)
  let filesz ← field 8 img (off + 32)
  let memsz ← field 8 img (off + 40)
  return ⟨type, flags, offset, vaddr, filesz, memsz⟩

/-- The first loop of `map_elf_image`. -/
def loadLoop (ptr : Ptr) (img : Buf) (phoff : ℕ) : ℕ → ℕ → ℕ → Checked World (Option ℕ)
  | 0, _, nLoad => return some nLoad
  | n + 1, i, nLoad => do
    let type ← field 4 img (phoff + 56 * i)
    if type ≠ ptLoad then loadLoop ptr img phoff n (i + 1) nLoad
    else do
      let ok ← segmentOk img (phoff + 56 * i)
      if ok = false then return none
      else do
        let ph ← phdr img (phoff + 56 * i)
        let r ← mapOneSegment ptr img ph
        if r ≠ 0 then return none else loadLoop ptr img phoff n (i + 1) (nLoad + 1)

/-- The second loop of `map_elf_image`. -/
def entryLoop (img : Buf) (phoff entry : ℕ) : ℕ → ℕ → Checked World Bool
  | 0, _ => return false
  | n + 1, i => do
    let type ← field 4 img (phoff + 56 * i)
    if type ≠ ptLoad then entryLoop img phoff entry n (i + 1)
    else do
      let vaddr ← field 8 img (phoff + 56 * i + 16)
      if entry < vaddr then entryLoop img phoff entry n (i + 1)
      else do
        let memsz ← field 8 img (phoff + 56 * i + 40)
        if entry < (vaddr + memsz) % 2 ^ 64 then return true
        else entryLoop img phoff entry n (i + 1)

/-- `map_elf_image`. -/
def mapElfImage (ptr : Ptr) (img : Buf) : Checked World ℕ := do
  let ok ← checkEhdr img
  if ok = false then return 0
  else do
    let phoff ← field 8 img 32
    let phnum ← field 2 img 56
    let loaded ← loadLoop ptr img phoff phnum 0 0
    match loaded with
    | none => return 0
    | some nLoad =>
      if nLoad = 0 then return 0
      else do
        let entry ← field 8 img 24
        let ok ← entryLoop img phoff entry phnum 0
        if ok = false then return 0 else return entry

/-- A test of the loader and the test of the model. -/
theorem ite_apply {α : Type} {c : Prop} [Decidable c] {x y : Checked World α} {a b : α}
    (hx : c → x w = .ret (a, w)) (hy : ¬ c → y w = .ret (b, w)) :
    (if c then x else y) w = .ret (if c then a else b, w) := by
  split
  · exact hx ‹_›
  · exact hy ‹_›

/-! ## The header -/

theorem field_apply (h : off + n ≤ img.len) (hn : 0 < n) (hlen : img.len ≤ 2 ^ 64) (w : World) :
    field n img off w = .ret (User.field n img.bytes off, w) := by
  rw [field, Nat.mod_eq_of_lt (by omega), Buf.load_apply h, User.field]
  refine congrArg (fun x => Outcome.ret (x, w)) (Bytes.load_congr fun k hk => ?_)
  rw [Nat.mod_eq_of_lt (by omega)]

theorem identOk_apply (l : List (ℕ × UInt8)) (h : ∀ x ∈ l, x.1 < img.len) (w : World) :
    identOk img l w = .ret (decide (∀ x ∈ l, img.bytes x.1 = x.2), w) := by
  induction l with
  | nil => simp [identOk]
  | cons x l ih =>
    rw [identOk, bind_of_ret (Buf.get_apply (h x (by simp)) w)]
    by_cases hx : img.bytes x.1 = x.2
    · rw [if_neg (not_not.mpr hx), ih fun y hy => h y (by simp [hy])]
      simp [hx]
    · rw [if_pos hx, pure_apply]
      simp [hx]

/-- The tests of `check_ehdr`, less the one on the end of the program header
table. -/
structure HeaderOk (e : Ehdr) : Prop where
  ident : e.ident = [0x7f, 0x45, 0x4c, 0x46, 2, 1, 1]
  type : e.type = 2
  machine : e.machine = 62
  phentsize : e.phentsize = 56
  phnum : 1 ≤ e.phnum ∧ e.phnum ≤ elfMaxSegs
  entry : 4096 ≤ e.entry ∧ e.entry < lowerEnd

theorem ident_iff (m : Bytes) : (ehdr m).ident = [0x7f, 0x45, 0x4c, 0x46, 2, 1, 1] ↔
    (ehdr m).ident.take 4 = [0x7f, 0x45, 0x4c, 0x46] ∧ (ehdr m).ident.drop 4 = [2, 1, 1] := by
  change [m 0, m 1, m 2, m 3, m 4, m 5, m 6] = _ ↔ [m 0, m 1, m 2, m 3] = _ ∧ [m 4, m 5, m 6] = _
  simp [and_assoc]

theorem checkEhdr_iff {m : Bytes} {size : ℕ} : User.checkEhdr (ehdr m) size = true ↔
    HeaderOk (ehdr m) ∧ ((ehdr m).phoff + (ehdr m).phnum * 56) % 2 ^ 64 ≤ size := by
  rw [User.checkEhdr]
  constructor
  · intro h
    split_ifs at h with h1 h2 h3 h4 h5 h6 h7 h8
    exact ⟨⟨(ident_iff m).mpr ⟨not_not.mp h1, not_not.mp h2⟩, not_not.mp h3, not_not.mp h4, not_not.mp h5,
      by omega, by omega⟩, by omega⟩
  · rintro ⟨h, hend⟩
    obtain ⟨h1, h2⟩ := (ident_iff m).mp h.ident
    have := h.phnum
    have := h.entry
    rw [if_neg (not_not.mpr h1), if_neg (not_not.mpr h2), if_neg (not_not.mpr h.type),
      if_neg (not_not.mpr h.machine), if_neg (not_not.mpr h.phentsize), if_neg (by omega), if_neg (by omega),
      if_neg (by omega)]

/-- **`check_ehdr`** reads the file inside. -/
theorem checkEhdr_apply (hmin : 64 ≤ img.len) (hlen : img.len ≤ 2 ^ 64) (w : World) :
    checkEhdr img w = .ret (User.checkEhdr (ehdr img.bytes) img.len, w) := by
  have hident : identOk img [(0, 0x7f), (1, 0x45), (2, 0x4c), (3, 0x46), (4, 2), (5, 1), (6, 1)] w = _ :=
    identOk_apply _ (by simp; omega) w
  have hiff : (∀ x ∈ [(0, (0x7f : UInt8)), (1, 0x45), (2, 0x4c), (3, 0x46), (4, 2), (5, 1), (6, 1)],
      img.bytes x.1 = x.2) ↔ (ehdr img.bytes).ident = [0x7f, 0x45, 0x4c, 0x46, 2, 1, 1] := by
    change _ ↔ [img.bytes 0, img.bytes 1, img.bytes 2, img.bytes 3, img.bytes 4, img.bytes 5, img.bytes 6] = _
    simp
  have htype : field 2 img 16 w = .ret ((ehdr img.bytes).type, w) := field_apply (by omega) (by decide) hlen w
  have hmach : field 2 img 18 w = .ret ((ehdr img.bytes).machine, w) :=
    field_apply (by omega) (by decide) hlen w
  have hsize : field 2 img 54 w = .ret ((ehdr img.bytes).phentsize, w) :=
    field_apply (by omega) (by decide) hlen w
  have hnum : field 2 img 56 w = .ret ((ehdr img.bytes).phnum, w) := field_apply (by omega) (by decide) hlen w
  have hoff : field 8 img 32 w = .ret ((ehdr img.bytes).phoff, w) := field_apply (by omega) (by decide) hlen w
  have hent : field 8 img 24 w = .ret ((ehdr img.bytes).entry, w) := field_apply (by omega) (by decide) hlen w
  rw [checkEhdr, bind_of_ret hident]
  by_cases h0 : (ehdr img.bytes).ident = [0x7f, 0x45, 0x4c, 0x46, 2, 1, 1]
  swap
  · rw [decide_eq_false (fun h => h0 (hiff.mp h)), if_pos rfl, pure_apply,
      Bool.eq_false_iff.mpr fun h => h0 (checkEhdr_iff.mp h).1.ident]
  obtain ⟨ht, hd⟩ := (ident_iff _).mp h0
  rw [decide_eq_true (hiff.mpr h0), if_neg (by decide), User.checkEhdr, if_neg (not_not.mpr ht),
    if_neg (not_not.mpr hd), bind_of_ret htype]
  refine ite_apply (fun _ => rfl) fun _ => ?_
  rw [bind_of_ret hmach]
  refine ite_apply (fun _ => rfl) fun _ => ?_
  rw [bind_of_ret hsize]
  refine ite_apply (fun _ => rfl) fun _ => ?_
  rw [bind_of_ret hnum]
  refine ite_apply (fun _ => rfl) fun _ => ?_
  rw [bind_of_ret hoff]
  refine ite_apply (fun _ => rfl) fun _ => ?_
  rw [bind_of_ret hent]
  exact ite_apply (fun _ => rfl) fun _ => rfl

/-! ## A segment -/

theorem bind_lift {α β : Type} {x : Checked World α} {f : α → Checked World β} {o : Option (α × World)}
    (h : x w = lift o) : (x >>= f) w = o.elim .hang fun r => f r.1 r.2 := by
  rw [bind_apply, h]
  cases o <;> rfl

/-- **`raw_copy`** from a range of the file. -/
theorem rawCopy_apply (hlen : img.len ≤ 2 ^ 64) : ∀ (n off src : ℕ) (supply : List Word) (s : State),
    src + n ≤ img.len → rawCopy ptr img page n off src (supply, s) =
      lift ((User.rawCopy ptr img.bytes page n off src s).map fun s => ((), supply, s)) := by
  intro n
  induction n with
  | zero =>
    intro off src supply s _
    rfl
  | succ n ih =>
    intro off src supply s h
    have hget : (img.get (src % 2 ^ 64) : Checked World UInt8) (supply, s) =
        .ret (img.bytes (src % 2 ^ 64), supply, s) :=
      Buf.get_apply (by rw [Nat.mod_eq_of_lt (by omega)]; omega) _
    have hpoke : poke ptr page off (img.bytes (src % 2 ^ 64)) (supply, s) = lift ((ptr s page).map fun f =>
      ((), supply, setPageByte s f off (img.bytes (src % 2 ^ 64)).toBitVec)) := rfl
    rw [rawCopy, bind_of_ret hget, User.rawCopy, bind_lift hpoke]
    cases ptr s page with
    | none => rfl
    | some f => exact ih (off + 1) (src + 1) supply _ (by omega)

/-- The part of the file that goes into a page is in the segment's. -/
theorem copyPage_apply (hlen : img.len ≤ 2 ^ 64) (hok : SegmentOk ph) (hfile : ph.offset + ph.filesz ≤ img.len)
    (va : ℕ) (supply : List Word) (s : State) : copyPage ptr img ph va page (supply, s) =
      lift ((User.copyPage ptr img.bytes ph va page s).map fun s => ((), supply, s)) := by
  have h1 := hok.filesz_le
  have h2 := hok.le
  rw [copyPage, User.copyPage]
  rw [Nat.mod_eq_of_lt (by omega : ph.vaddr + ph.filesz < 2 ^ 64)]
  split
  · exact rawCopy_apply hlen _ _ _ _ _ (by omega)
  · rfl

theorem mapSegmentPage_apply (hlen : img.len ≤ 2 ^ 64) (hok : SegmentOk ph)
    (hfile : ph.offset + ph.filesz ≤ img.len) (va : ℕ) (supply : List Word) (s : State) :
    mapSegmentPage ptr img ph va (supply, s) = lift (User.mapSegmentPage ptr img.bytes ph va supply s) := by
  cases supply with
  | nil => rfl
  | cons page supply =>
    have halloc : allocPage (page :: supply, s) = .ret (page, supply, s) := rfl
    rw [mapSegmentPage, bind_of_ret halloc, User.mapSegmentPage]
    by_cases h0 : page = 0
    · simp only [if_pos h0]
      rfl
    simp only [if_neg h0]
    have hclear : clearPage ptr page (supply, s) = lift ((ptr s page).map fun f => ((), supply, s.clear f)) := rfl
    rw [bind_lift hclear]
    cases hp : ptr s page with
    | none => rfl
    | some f =>
      simp only [Option.map_some, Option.elim_some]
      rw [bind_lift (copyPage_apply hlen hok hfile va supply (s.clear f))]
      cases User.copyPage ptr img.bytes ph va page (s.clear f) with
      | none => rfl
      | some s => rfl

theorem mapSegmentLoop_apply (hlen : img.len ≤ 2 ^ 64) (hok : SegmentOk ph)
    (hfile : ph.offset + ph.filesz ≤ img.len) : ∀ (n va : ℕ) (supply : List Word) (s : State),
    mapSegmentLoop ptr img ph n va (supply, s) =
      lift (User.mapSegmentLoop ptr img.bytes ph n va supply s) := by
  intro n
  induction n with
  | zero =>
    intro va supply s
    rfl
  | succ n ih =>
    intro va supply s
    rw [mapSegmentLoop, bind_lift (mapSegmentPage_apply hlen hok hfile va supply s), User.mapSegmentLoop]
    cases User.mapSegmentPage ptr img.bytes ph va supply s with
    | none => rfl
    | some r =>
      obtain ⟨r, supply, s⟩ := r
      simp only [Option.elim_some]
      split
      · rfl
      · exact ih _ supply s

theorem mapOneSegment_apply (hlen : img.len ≤ 2 ^ 64) (hok : SegmentOk ph)
    (hfile : ph.offset + ph.filesz ≤ img.len) (supply : List Word) (s : State) :
    mapOneSegment ptr img ph (supply, s) = lift (User.mapOneSegment ptr img.bytes ph supply s) :=
  mapSegmentLoop_apply hlen hok hfile _ _ supply s

/-! ## The program header table -/

/-- The fields of a header of the table, where they are read. -/
structure FieldsAt (img : Buf) (off : ℕ) (ph : Phdr) : Prop where
  type : ∀ w, field 4 img off w = .ret (ph.type, w)
  flags : ∀ w, field 4 img (off + 4) w = .ret (ph.flags, w)
  offset : ∀ w, field 8 img (off + 8) w = .ret (ph.offset, w)
  vaddr : ∀ w, field 8 img (off + 16) w = .ret (ph.vaddr, w)
  filesz : ∀ w, field 8 img (off + 32) w = .ret (ph.filesz, w)
  memsz : ∀ w, field 8 img (off + 40) w = .ret (ph.memsz, w)
  offset_lt : ph.offset < 2 ^ 64
  vaddr_lt : ph.vaddr < 2 ^ 64
  filesz_lt : ph.filesz < 2 ^ 64

theorem fieldsAt (hlen : img.len ≤ 2 ^ 64) (h : (ehdr img.bytes).phoff + 56 * i + 56 ≤ img.len) :
    FieldsAt img ((ehdr img.bytes).phoff + 56 * i) (User.phdr img.bytes i) :=
  ⟨field_apply (by omega) (by decide) hlen, field_apply (by omega) (by decide) hlen,
    field_apply (by omega) (by decide) hlen, field_apply (by omega) (by decide) hlen,
    field_apply (by omega) (by decide) hlen, field_apply (by omega) (by decide) hlen,
    field_lt _ _ _, field_lt _ _ _, field_lt _ _ _⟩

theorem segmentOk_apply (h : FieldsAt img off ph) (w : World) :
    segmentOk img off w = .ret (User.segmentOk ph img.len, w) := by
  rw [segmentOk, bind_of_ret (h.filesz w), bind_of_ret (h.memsz w), User.segmentOk]
  refine ite_apply (fun _ => rfl) fun _ => ?_
  refine ite_apply (fun _ => rfl) fun _ => ?_
  rw [bind_of_ret (h.offset w)]
  refine ite_apply (fun _ => rfl) fun _ => ?_
  rw [bind_of_ret (h.vaddr w)]
  rfl

theorem phdr_apply (h : FieldsAt img off ph) (w : World) : phdr img off w = .ret (ph, w) := by
  rw [phdr, bind_of_ret (h.type w), bind_of_ret (h.flags w), bind_of_ret (h.offset w),
    bind_of_ret (h.vaddr w), bind_of_ret (h.filesz w), bind_of_ret (h.memsz w)]
  rfl

/-- The segment lies in the file. -/
theorem segmentOk_file (h : FieldsAt img off ph) {size : ℕ} (hok : User.segmentOk ph size = true) :
    ph.offset + ph.filesz ≤ size := by
  have h1 := h.offset_lt
  have h2 := h.filesz_lt
  rw [User.segmentOk] at hok
  split_ifs at hok
  omega

/-- **The first loop of `map_elf_image`**, over headers that are in the
file. -/
theorem loadLoop_apply (hlen : img.len ≤ 2 ^ 64) : ∀ (n i nLoad : ℕ) (supply : List Word) (s : State),
    (ehdr img.bytes).phoff + 56 * (i + n) ≤ img.len →
    loadLoop ptr img (ehdr img.bytes).phoff n i nLoad (supply, s) =
      lift (User.loadLoop ptr img.bytes img.len n i nLoad supply s) := by
  intro n
  induction n with
  | zero =>
    intro i nLoad supply s _
    rfl
  | succ n ih =>
    intro i nLoad supply s h
    have hf := fieldsAt (i := i) hlen (by omega)
    rw [loadLoop, bind_of_ret (hf.type _), User.loadLoop]
    by_cases htype : (User.phdr img.bytes i).type = ptLoad
    swap
    · rw [if_pos htype, if_pos htype]
      exact ih (i + 1) nLoad supply s (by omega)
    rw [if_neg (not_not.mpr htype), if_neg (not_not.mpr htype), bind_of_ret (segmentOk_apply hf _)]
    cases hok : User.segmentOk (User.phdr img.bytes i) img.len with
    | false => rfl
    | true =>
      rw [if_neg (by decide), if_neg (by decide), bind_of_ret (phdr_apply hf _),
        bind_lift (mapOneSegment_apply hlen (segmentOk_spec hf.vaddr_lt hf.offset_lt hok)
          (segmentOk_file hf hok) supply s)]
      cases User.mapOneSegment ptr img.bytes (User.phdr img.bytes i) supply s with
      | none => rfl
      | some r =>
        obtain ⟨r, supply, s⟩ := r
        simp only [Option.elim_some]
        split
        · rfl
        · exact ih (i + 1) (nLoad + 1) supply s (by omega)

/-- The second loop of `map_elf_image`. -/
theorem entryLoop_apply (hlen : img.len ≤ 2 ^ 64) : ∀ (n i : ℕ) (w : World),
    (ehdr img.bytes).phoff + 56 * (i + n) ≤ img.len →
    entryLoop img (ehdr img.bytes).phoff entry n i w = .ret ((List.range' i n).any fun i =>
      (User.phdr img.bytes i).type = ptLoad ∧ (User.phdr img.bytes i).vaddr ≤ entry ∧
        entry < ((User.phdr img.bytes i).vaddr + (User.phdr img.bytes i).memsz) % 2 ^ 64, w) := by
  intro n
  induction n with
  | zero =>
    intro i w _
    rfl
  | succ n ih =>
    intro i w h
    have hf := fieldsAt (i := i) hlen (by omega)
    have hrest := ih (i + 1) w (by omega)
    rw [entryLoop, bind_of_ret (hf.type _), List.range'_succ, List.any_cons]
    by_cases htype : (User.phdr img.bytes i).type = ptLoad
    swap
    · rw [if_pos htype, hrest, decide_eq_false fun hc => htype hc.1, Bool.false_or]
    rw [if_neg (not_not.mpr htype), bind_of_ret (hf.vaddr _)]
    by_cases hv : entry < (User.phdr img.bytes i).vaddr
    · rw [if_pos hv, hrest, decide_eq_false fun hc => absurd hc.2.1 (by omega), Bool.false_or]
    rw [if_neg hv, bind_of_ret (hf.memsz _)]
    by_cases hm : entry < ((User.phdr img.bytes i).vaddr + (User.phdr img.bytes i).memsz) % 2 ^ 64
    · rw [if_pos hm, pure_apply, decide_eq_true ⟨htype, by omega, hm⟩, Bool.true_or]
    · rw [if_neg hm, hrest, decide_eq_false fun hc => hm hc.2.2, Bool.false_or]

/-! ## The image -/

/-- The end of the program header table does not wrap where `check_ehdr`
compares it. -/
def TableEnds (e : Ehdr) (fileSize : ℕ) : Prop :=
  HeaderOk e → (e.phoff + e.phnum * 56) % 2 ^ 64 ≤ fileSize → e.phoff + e.phnum * 56 < 2 ^ 64

/-- **The loader over the file is the loader of the model.** -/
theorem mapElfImage_eq (hmin : 64 ≤ img.len) (hlen : img.len ≤ 2 ^ 64)
    (hend : TableEnds (ehdr img.bytes) img.len) (supply : List Word) (s : State) :
    mapElfImage ptr img (supply, s) = lift (User.mapElfImage ptr img.bytes img.len supply s) := by
  rw [mapElfImage, bind_of_ret (checkEhdr_apply hmin hlen _), User.mapElfImage]
  cases hcheck : User.checkEhdr (ehdr img.bytes) img.len with
  | false => rfl
  | true =>
    obtain ⟨hok, hle⟩ := checkEhdr_iff.mp hcheck
    have hlt := hend hok hle
    rw [Nat.mod_eq_of_lt hlt] at hle
    have hoff : field 8 img 32 (supply, s) = .ret ((ehdr img.bytes).phoff, supply, s) :=
      field_apply (by omega) (by decide) hlen _
    have hnum : field 2 img 56 (supply, s) = .ret ((ehdr img.bytes).phnum, supply, s) :=
      field_apply (by omega) (by decide) hlen _
    have hloop : loadLoop ptr img (ehdr img.bytes).phoff (ehdr img.bytes).phnum 0 0 (supply, s) = _ :=
      loadLoop_apply hlen (ehdr img.bytes).phnum 0 0 supply s (by omega)
    rw [if_neg (by decide), if_neg (by decide), bind_of_ret hoff, bind_of_ret hnum, bind_lift hloop]
    cases User.loadLoop ptr img.bytes img.len (ehdr img.bytes).phnum 0 0 supply s with
    | none => rfl
    | some r =>
      obtain ⟨r, supply, s⟩ := r
      cases r with
      | none => rfl
      | some nLoad =>
        simp only [Option.elim_some]
        by_cases h0 : nLoad = 0
        · rw [if_pos h0, if_pos h0]
          rfl
        have hent : field 8 img 24 (supply, s) = .ret ((ehdr img.bytes).entry, supply, s) :=
          field_apply (by omega) (by decide) hlen _
        have hentry : entryLoop img _ (ehdr img.bytes).entry _ 0 (supply, s) = _ :=
          entryLoop_apply hlen (ehdr img.bytes).phnum 0 (supply, s) (by omega)
        rw [← List.range_eq_range'] at hentry
        rw [if_neg h0, if_neg h0, bind_of_ret hent, bind_of_ret hentry, entryOk]
        split <;> rfl

/-- **A table whose end wraps is read outside the file**, with the type of
its first header. -/
theorem mapElfImage_fault (hmin : 64 ≤ img.len) (hlen : img.len ≤ 2 ^ 64 - 4096)
    (hend : ¬ TableEnds (ehdr img.bytes) img.len) (w : World) : mapElfImage ptr img w = .fault := by
  unfold TableEnds at hend
  push Not at hend
  obtain ⟨hok, hle, hge⟩ := hend
  have hnum := hok.phnum
  have hoff : field 8 img 32 w = .ret ((ehdr img.bytes).phoff, w) :=
    field_apply (by omega) (by decide) (by omega) w
  have hn : field 2 img 56 w = .ret ((ehdr img.bytes).phnum, w) :=
    field_apply (by omega) (by decide) (by omega) w
  have hlt : (ehdr img.bytes).phoff < 2 ^ 64 := field_lt _ _ _
  rw [mapElfImage, bind_of_ret (checkEhdr_apply hmin (by omega) w), checkEhdr_iff.mpr ⟨hok, hle⟩,
    if_neg (by decide), bind_of_ret hoff, bind_of_ret hn]
  obtain ⟨n, hn⟩ : ∃ n, (ehdr img.bytes).phnum = n + 1 := ⟨_, (Nat.sub_add_cancel hnum.1).symm⟩
  have hread : field 4 img ((ehdr img.bytes).phoff + 56 * 0) w = .fault := by
    simp only [elfMaxSegs] at hnum
    rw [field, Buf.load, bind_apply, require, if_neg (by omega)]
    rfl
  rw [hn, loadLoop, bind_apply, bind_apply, hread]

/-- **When the loader reads only the file.** -/
theorem elf_reads_inside_iff (hmin : 64 ≤ img.len) (hlen : img.len ≤ 2 ^ 64 - 4096) (ptr : Ptr) (w : World) :
    mapElfImage ptr img w ≠ .fault ↔ TableEnds (ehdr img.bytes) img.len := by
  constructor
  · intro h
    by_contra hend
    exact h (mapElfImage_fault hmin hlen hend w)
  · intro hend
    rw [mapElfImage_eq hmin (by omega) hend]
    cases User.mapElfImage ptr img.bytes img.len w.1 w.2 with
    | none => exact fun h => by cases h
    | some r => exact fun h => by cases h

/-- A file that is a header with one program header, at `phoff`. -/
def headerFile (phoff : List UInt8) : Buf where
  bytes := fun k =>
    ([0x7f, 0x45, 0x4c, 0x46, 2, 1, 1, 0, 0, 0, 0, 0, 0, 0, 0, 0, 2, 0, 62, 0, 1, 0, 0, 0, 0, 16, 0, 0, 0, 0,
      0, 0] ++ phoff ++ [0, 0, 0, 0, 0, 0, 0, 0, 0, 0, 0, 0, 64, 0, 56, 0, 1, 0]).getD k 0
  len := 120

/-- The table that follows the header is read inside. -/
theorem elf_reads_inside_after :
    mapElfImage ownTables (headerFile [64, 0, 0, 0, 0, 0, 0, 0]) ([], ⟨fun _ _ => 0, 0⟩) ≠ .fault :=
  (elf_reads_inside_iff (by decide) (by decide) ownTables _).mpr fun _ _ => by decide +kernel

/-- A table of one header that ends where the file begins is accepted, and
read before it. -/
theorem elf_reads_before_file : ¬ ∀ (img : Buf) (ptr : Ptr) (w : World), 64 ≤ img.len →
    mapElfImage ptr img w ≠ .fault := by
  intro h
  have hok : HeaderOk (ehdr (headerFile [200, 255, 255, 255, 255, 255, 255, 255]).bytes) :=
    ⟨by decide +kernel, by decide +kernel, by decide +kernel, by decide +kernel, by decide +kernel,
      by decide +kernel⟩
  refine h (headerFile [200, 255, 255, 255, 255, 255, 255, 255]) ownTables ([], ⟨fun _ _ => 0, 0⟩) (by decide)
    (mapElfImage_fault (by decide) (by decide) ?_ _)
  intro hend
  exact absurd (hend hok (by decide +kernel)) (by decide +kernel)

end Reads

end User

end Csos

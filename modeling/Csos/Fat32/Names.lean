import Csos.Common.Bytes
import Csos.Vfs.Model
/-!
# FAT32 — names

The name functions of `fat32.c`: comparison without case, the checksum that
ties a long name to its short entry, reading the name of an entry, and making
the entries of a new name. A C string is the list of its bytes before the
terminator, an entry is a `Bytes` of which the first 32 count.
-/

namespace Csos

namespace Fat32

open Vfs (Str dot)

/-- `VFS_NAME_MAX`. -/
abbrev nameMax : ℕ := 64

/-- `FAT32_ATTR_VOL`. -/
abbrev attrVol : UInt8 := 0x08
/-- `FAT32_ATTR_DIR`. -/
abbrev attrDir : UInt8 := 0x10
/-- `FAT32_ATTR_ARCH`. -/
abbrev attrArch : UInt8 := 0x20
/-- `FAT32_ATTR_LFN`. -/
abbrev attrLfn : UInt8 := 0x0f

/-- `' '`. -/
abbrev space : UInt8 := 0x20

/-- `fat32_upper`. -/
def upper (c : UInt8) : UInt8 := if 0x61 ≤ c ∧ c ≤ 0x7a then c - 32 else c

/-- `fat32_lower`. -/
def lower (c : UInt8) : UInt8 := if 0x41 ≤ c ∧ c ≤ 0x5a then c + 32 else c

/-- `fat32_name_eq`. -/
def nameEq : Str → Str → Bool
  | [], [] => true
  | a :: as, b :: bs => if upper a ≠ upper b then false else nameEq as bs
  | _, _ => false

/-- The characters `$%'-_@~` and so on that a short name may have besides
letters and digits. -/
def extraChars : Str :=
  [0x24, 0x25, 0x27, 0x2d, 0x5f, 0x40, 0x7e, 0x60, 0x21, 0x28, 0x29, 0x7b, 0x7d, 0x5e, 0x23, 0x26]

/-- `fat32_valid_char`. -/
def validChar (c : UInt8) : Bool :=
  (0x41 ≤ c ∧ c ≤ 0x5a) ∨ (0x61 ≤ c ∧ c ≤ 0x7a) ∨ (0x30 ≤ c ∧ c ≤ 0x39) ∨ c ∈ extraChars

/-- `fat32_short_sum`. -/
def shortSum (e : Bytes) : UInt8 :=
  (List.range 11).foldl (fun sum i => (((sum &&& 1) <<< 7) ||| (sum >>> 1)) + e i) 0

/-! ## Reading a name -/

/-- `g_lfn_off`. -/
def lfnOff : List ℕ := [1, 3, 5, 7, 9, 14, 16, 18, 20, 22, 24, 28, 30]

/-- `fat32_lfn_store`. -/
def lfnStore (units : ℕ → ℕ) (seq : ℕ) (e : Bytes) : ℕ → ℕ := fun x =>
  if (seq - 1) * 13 ≤ x ∧ x < (seq - 1) * 13 + 13 then
    Bytes.load 2 e (lfnOff.getD (x - (seq - 1) * 13) 0)
  else units x

/-- The loop of `fat32_lfn_name`: `n` units from `i` on, `j` characters
having been put out. -/
def lfnNameLoop (units : ℕ → ℕ) (outsz : ℕ) : ℕ → ℕ → ℕ → Str
  | 0, _, _ => []
  | n + 1, i, j =>
    if ¬ j + 1 < outsz then []
    else if units i = 0 then []
    else if units i = 0xffff then lfnNameLoop units outsz n (i + 1) j
    else
      (if units i < 0x80 then UInt8.ofNat (units i) else 0x3f) ::
        lfnNameLoop units outsz n (i + 1) (j + 1)

/-- `fat32_lfn_name`. -/
def lfnName (units : ℕ → ℕ) (maxSeq outsz : ℕ) : Str := lfnNameLoop units outsz (maxSeq * 13) 0 0

/-- The base of `fat32_short_name`. -/
def shortBase (e : Bytes) : Str :=
  (((List.range 8).takeWhile fun i => e i ≠ space).map fun i =>
    let c := if i = 0 ∧ e i = 0x05 then 0xe5 else e i
    if e 12 &&& 0x08 ≠ 0 then lower c else c)

/-- The extension of `fat32_short_name`. -/
def shortExt (e : Bytes) : Str :=
  (((List.range 3).takeWhile fun i => e (8 + i) ≠ space).map fun i =>
    if e 12 &&& 0x10 ≠ 0 then lower (e (8 + i)) else e (8 + i))

/-- `fat32_short_name`; a zero byte in it ends the string. -/
def shortName (e : Bytes) (outsz : ℕ) : Str :=
  let base := (shortBase e).take (outsz - 1)
  let out := if shortExt e ≠ [] ∧ base.length + 1 < outsz then
      base ++ dot :: (shortExt e).take (outsz - 1 - (base.length + 1))
    else base
  out.takeWhile (· ≠ 0)

/-! ## Making the entries of a name -/

/-- The 11 bytes of a short name with a base and an extension. -/
def rawName (base ext : Str) : Bytes := fun i =>
  if i < 8 then base.getD i space else ext.getD (i - 8) space

/-- The position of the dot that `fat32_make_short` splits at, if it does. -/
def dotAt (name : Str) : Option ℕ :=
  match (List.range name.length).reverse.find? fun i => 0 < i ∧ name.getD i 0 = dot with
  | none => none
  | some i => if i + 1 < name.length then some i else none

/-- The base and the extension that `fat32_make_short` splits a name into. -/
def splitExt (name : Str) : Str × Str :=
  match dotAt name with
  | none => (name, [])
  | some i => (name.take i, name.drop (i + 1))

/-- The name is a short name up to case. -/
def fitsShort (base ext : Str) : Bool :=
  1 ≤ base.length ∧ base.length ≤ 8 ∧ ext.length ≤ 3 ∧ base.all validChar ∧ ext.all validChar

/-- A character of the short name that stands for a long one. -/
def mangle (c : UInt8) : UInt8 := if validChar (upper c) then upper c else 0x5f

/-- `cb` of `fat32_make_short`; it is `FILE` if there is no base. -/
def mangledBase (base : Str) : Str :=
  if base = [] then [0x46, 0x49, 0x4c, 0x45] else (base.take 31).map mangle

/-- `ce` of `fat32_make_short`. -/
def mangledExt (ext : Str) : Str := (ext.take 7).map mangle

/-- The decimal digits of `i`, least significant first. -/
def digitsLoop : ℕ → ℕ → Str
  | 0, _ => []
  | n + 1, t => if t = 0 then [] else UInt8.ofNat (0x30 + t % 10) :: digitsLoop n (t / 10)

/-- The short name with the tail `~i`. -/
def tildeName (cb ce : Str) (i : ℕ) : Bytes :=
  let num := (digitsLoop 8 i).reverse
  let head := if 7 < 1 + num.length then 1 else 7 - num.length
  let use := min cb.length head
  rawName (cb.take use ++ 0x7e :: num.take (8 - (use + 1))) (ce.take 3)

/-- The number of entries of a long name. -/
def lfnCount (name : Str) : ℕ := min (max ((name.length + 12) / 13) 1) 20

/-- A unit of a long name. -/
def lfnUnit (name : Str) (idx : ℕ) : ℕ :=
  if idx < name.length then (name.getD idx 0).toNat else if idx = name.length then 0 else 0xffff

/-- Entry `seq` of the `n` entries of a long name. -/
def lfnEntry (name : Str) (sum : UInt8) (n seq : ℕ) : Bytes :=
  let e := (List.range 13).foldl
    (fun e k => Bytes.store 2 e (lfnOff.getD k 0) (lfnUnit name ((seq - 1) * 13 + k))) (Bytes.const 0)
  Function.update (Function.update (Function.update e 0
    (UInt8.ofNat (seq ||| if seq = n then 0x40 else 0))) 11 attrLfn) 13 sum

/-- `fat32_build_lfn`: the entries from the last of the name to its first. -/
def buildLfn (name : Str) (raw : Bytes) : List Bytes :=
  (List.range (lfnCount name)).map fun i =>
    lfnEntry name (shortSum raw) (lfnCount name) (lfnCount name - i)

/-- `fat32_make_slot`, with the fixed date and time. -/
def makeSlot (raw : Bytes) (attr ntRes : UInt8) (clus size : ℕ) : Bytes :=
  let e := Bytes.blit (Bytes.const 0) 0 11 raw
  let e := Function.update (Function.update e 11 attr) 12 ntRes
  let e := Bytes.store 2 e 14 0
  let e := Bytes.store 2 e 16 0x5c21
  let e := Bytes.store 2 e 18 0x5c21
  let e := Bytes.store 2 e 20 (clus / 2 ^ 16 % 2 ^ 16)
  let e := Bytes.store 2 e 22 0
  let e := Bytes.store 2 e 24 0x5c21
  let e := Bytes.store 2 e 26 (clus % 2 ^ 16)
  Bytes.store 4 e 28 size

section

variable {raw : Bytes} {attr nt : UInt8} {clus size i : ℕ}

theorem makeSlot_name (hi : i < 11) : makeSlot raw attr nt clus size i = raw i := by
  rw [makeSlot]
  repeat rw [Bytes.store_apply_of_notMem (by omega)]
  rw [Function.update_of_ne (by omega), Function.update_of_ne (by omega), Bytes.blit_zero_apply hi]

theorem makeSlot_attr : makeSlot raw attr nt clus size 11 = attr := by
  rw [makeSlot]
  repeat rw [Bytes.store_apply_of_notMem (by omega)]
  rw [Function.update_of_ne (by omega), Function.update_self]

theorem makeSlot_ntRes : makeSlot raw attr nt clus size 12 = nt := by
  rw [makeSlot]
  repeat rw [Bytes.store_apply_of_notMem (by omega)]
  rw [Function.update_self]

end

end Fat32

end Csos

import Mathlib.Data.Nat.Digits.Defs
import Csos.Vfs.Model
/-!
# The log — formatting

`vsprintf.c`: the text of a format and its arguments. A `*` for the width or
the precision takes its argument, but the source does not step over it, so
that the star is then printed as an unknown conversion.
-/

namespace Csos

namespace Serial

open Vfs

/-- An argument: the 64-bit word, and the string at it if it points at one. -/
structure Arg where
  word : ℕ
  text : Str

/-- `flags`. -/
structure Flags where
  zeropad : Bool := false
  sign : Bool := false
  plus : Bool := false
  space : Bool := false
  left : Bool := false
  special : Bool := false
  small : Bool := false

/-- `is_digit`. -/
def isDigit (c : UInt8) : Bool := 48 ≤ c ∧ c ≤ 57

/-- `skip_atoi`, from `i` on. -/
def skipAtoi : ℤ → Str → ℤ × Str
  | i, [] => (i, [])
  | i, c :: s => if isDigit c then skipAtoi (i * 10 + c.toNat - 48) s else (i, c :: s)

/-- `digits[d]`. -/
def digit (small : Bool) (d : ℕ) : UInt8 :=
  if d < 10 then .ofNat (48 + d) else if small then .ofNat (97 + (d - 10)) else .ofNat (65 + (d - 10))

/-- `number`. -/
def number (num base : ℕ) (size precision : ℤ) (type : Flags) : Str :=
  let zeropad := type.zeropad && !type.left
  let neg := type.sign && 2 ^ 63 ≤ num
  let num := if neg then 2 ^ 64 - num else num
  let sign : Str := if neg then [45] else if type.plus then [43] else if type.space then [32] else []
  let size := size - sign.length
  let size := if type.special = false then size
    else if base = 16 then size - 2 else if base = 8 then size - 1 else size
  let mark : Str := if type.special = false then []
    else if base = 8 then [48] else if base = 16 then [48, digit type.small 33] else []
  -- least significant first, as in `tmp`
  let tmp := if num = 0 then [48] else (Nat.digits base num).map (digit type.small)
  let precision := max precision tmp.length
  let size := (size - precision).toNat
  (if !zeropad && !type.left then List.replicate size 32 else []) ++ sign ++ mark ++
    (if zeropad then List.replicate size 48 else []) ++
    List.replicate (precision - tmp.length).toNat 48 ++ tmp.reverse ++
    (if type.left then List.replicate size 32 else [])

/-- `va_arg`. -/
def vaArg : List Arg → Arg × List Arg
  | [] => (⟨0, []⟩, [])
  | a :: args => (a, args)

/-- `int` as a number. -/
def toInt32 (word : ℕ) : ℤ := Int.bmod word (2 ^ 32)

/-- The qualifiers. -/
inductive Qualifier
  | none
  | h
  | l
  | ll
  deriving DecidableEq

/-- `get_uint_arg`. -/
def getUintArg (a : Arg) : Qualifier → ℕ
  | .l | .ll => a.word
  | _ => a.word % 2 ^ 32

/-- `get_int_arg`, as the `unsigned long long` it is cast to. -/
def getIntArg (a : Arg) : Qualifier → ℕ
  | .l | .ll => a.word
  | _ => (toInt32 a.word % 2 ^ 64).toNat

/-- The flags after `%`. -/
def parseFlags : Flags → Str → Flags × Str
  | f, 45 :: s => parseFlags { f with left := true } s
  | f, 43 :: s => parseFlags { f with plus := true } s
  | f, 32 :: s => parseFlags { f with space := true } s
  | f, 35 :: s => parseFlags { f with special := true } s
  | f, 48 :: s => parseFlags { f with zeropad := true } s
  | f, s => (f, s)

/-- The field width. -/
def parseWidth (f : Flags) (args : List Arg) : Str → ℤ × Flags × List Arg × Str
  | [] => (-1, f, args, [])
  | c :: s =>
    if isDigit c then
      let r := skipAtoi 0 (c :: s)
      (r.1, f, args, r.2)
    else if c = 42 then
      let a := vaArg args
      let w := toInt32 a.1.word
      if w < 0 then (-w, { f with left := true }, a.2, c :: s) else (w, f, a.2, c :: s)
    else (-1, f, args, c :: s)

/-- The precision. -/
def parsePrecision (args : List Arg) : Str → ℤ × List Arg × Str
  | 46 :: [] => (0, args, [])
  | 46 :: c :: s =>
    if isDigit c then
      let r := skipAtoi 0 (c :: s)
      (r.1, args, r.2)
    else if c = 42 then
      let a := vaArg args
      (max 0 (toInt32 a.1.word), a.2, c :: s)
    else (0, args, c :: s)
  | s => (-1, args, s)

/-- The qualifier. -/
def parseQualifier : Str → Qualifier × Str
  | 104 :: s => (.h, s)
  | 108 :: 108 :: s => (.ll, s)
  | 108 :: s => (.l, s)
  | 76 :: s => (.ll, s)
  | s => (.none, s)

/-- The switch on the conversion: what is written, and what is left. -/
def convert (f : Flags) (width precision : ℤ) (q : Qualifier) (args : List Arg) :
    Str → Str × List Arg × Str
  | [] => ([37], args, [])
  | c :: s =>
    let a := vaArg args
    if c = 99 then
      let pad := List.replicate (width - 1).toNat 32
      ((if f.left then [] else pad) ++ .ofNat (a.1.word % 2 ^ 8) :: (if f.left then pad else []), a.2, s)
    else if c = 115 then
      let len := if precision < 0 then a.1.text.length else min a.1.text.length precision.toNat
      let pad := List.replicate (width - len).toNat 32
      ((if f.left then [] else pad) ++ a.1.text.take len ++ (if f.left then pad else []), a.2, s)
    else if c = 111 then (number (getUintArg a.1 q) 8 width precision f, a.2, s)
    else if c = 112 then
      if width = -1 then (number a.1.word 16 16 precision { f with zeropad := true }, a.2, s)
      else (number a.1.word 16 width precision f, a.2, s)
    else if c = 120 then
      (number (getUintArg a.1 q) 16 width precision { f with small := true }, a.2, s)
    else if c = 88 then (number (getUintArg a.1 q) 16 width precision f, a.2, s)
    else if c = 100 ∨ c = 105 then
      (number (getIntArg a.1 q) 10 width precision { f with sign := true }, a.2, s)
    else if c = 117 then (number (getUintArg a.1 q) 10 width precision f, a.2, s)
    -- the store of `%n` is to the memory of the caller
    else if c = 110 then ([], a.2, s)
    else if c = 37 then ([37], args, s)
    else ([37, c], args, s)

/-- What stands after a `%`. -/
def conversion (args : List Arg) (fmt : Str) : Str × List Arg × Str :=
  let flags := parseFlags {} fmt
  let width := parseWidth flags.1 args flags.2
  let precision := parsePrecision width.2.2.1 width.2.2.2
  let q := parseQualifier precision.2.2
  convert width.2.1 width.1 precision.1 q.1 precision.2.1 q.2

/-- The loop of `vsprintf`. -/
def vsprintfLoop : ℕ → Str → List Arg → Str
  | 0, _, _ => []
  | _ + 1, [], _ => []
  | fuel + 1, c :: fmt, args =>
    if c ≠ 37 then c :: vsprintfLoop fuel fmt args
    else
      let r := conversion args fmt
      r.1 ++ vsprintfLoop fuel r.2.2 r.2.1

/-- `vsprintf`: what it leaves in the buffer. Each round of the loop takes a
byte of the format at least. -/
def vsprintf (fmt : Str) (args : List Arg) : Str := vsprintfLoop fmt.length fmt args

end Serial

end Csos

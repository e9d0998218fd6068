import Mathlib.Tactic
import Frosk.Lib.Bytes
import Frosk.Lib.Run
import Frosk.Strings

/-!
# Formatted output: definitions

`vsnprintf` of `lib/cstd/src/stdio.c` with what it calls: `get_size_class`,
`format_int`, `format_uint`, `utoa`, `itoa`, and `strncpy`, which in this
library does not pad. A format is the list of its bytes before the terminator.

The output position `i` is a natural number: a conversion adds the length of
its text less one and the loop adds one. `took` records which argument each
`va_arg` took, as the index in the format and the number of the argument.
-/

namespace Frosk.Stdio

open Lib

def INT_MAX : Nat := 0x7FFFFFFF

-- ---------------------------------------------------------------------------
-- utoa, itoa
-- ---------------------------------------------------------------------------

/-- The largest power of the radix that is not above the value; 64 rounds are enough for a word. -/
def divisor (radix : Nat) : Nat → Nat → Nat → Nat
  | 0, _, div => div
  | n + 1, tmp, div => if tmp > 0 then divisor radix n (tmp / radix) (div * radix) else div

def digit (letterA ch : Nat) : UInt8 :=
  UInt8.ofNat (if ch < 10 then ch + '0'.toNat else ch + (letterA - 10))

def digits (radix letterA : Nat) : Nat → Nat → Nat → List UInt8
  | 0, _, _ => []
  | n + 1, val, div =>
    if div > 0 then digit letterA (val / div) :: digits radix letterA n (val % div) (div / radix)
    else []

def utoa (val radix letterA : Nat) : List UInt8 :=
  if val = 0 then ['0'.toUInt8]
  else digits radix letterA 64 val (divisor radix 64 (val / radix) 1)

def itoa (v : Int) (radix letterA : Nat) : List UInt8 :=
  if v < 0 then '-'.toUInt8 :: utoa v.natAbs radix letterA else utoa v.toNat radix letterA

-- ---------------------------------------------------------------------------
-- get_size_class
-- ---------------------------------------------------------------------------

inductive SizeClass where
  | UNDEF | HALF | HALF_HALF | LONG | LONG_LONG | LONG_DBL | MAX | SIZE | PTRDIFF
deriving DecidableEq, Repr

/-- The byte at an index of a format, which ends with a terminator. -/
def charAt (fmt : List UInt8) (j : Nat) : UInt8 := fmt.getD j 0

/-- The class, and the index of the conversion's letter; `j` is that of the `%`. -/
def getSizeClass (fmt : List UInt8) (j : Nat) : SizeClass × Nat :=
  match Char.ofNat (charAt fmt (j + 1)).toNat with
  | 'h' => if charAt fmt (j + 2) = 'h'.toUInt8 then (.HALF_HALF, j + 3) else (.HALF, j + 2)
  | 'l' => if charAt fmt (j + 2) = 'l'.toUInt8 then (.LONG_LONG, j + 3) else (.LONG, j + 2)
  | 'j' => (.MAX, j + 2)
  | 'z' => (.SIZE, j + 2)
  | 't' => (.PTRDIFF, j + 2)
  | 'L' => (.LONG_DBL, j + 2)
  | _ => (.UNDEF, j + 1)

-- ---------------------------------------------------------------------------
-- format_int, format_uint
-- ---------------------------------------------------------------------------

/-- An argument as `format_int` takes it: by the class, a whole word or its low half. -/
def signedOf (cls : SizeClass) (v : UInt64) : Int :=
  match cls with
  | .LONG | .LONG_LONG | .MAX | .SIZE | .PTRDIFF => v.toInt64.toInt
  | .HALF_HALF | .HALF | .UNDEF | .LONG_DBL => v.toUInt32.toInt32.toInt

def unsignedOf (cls : SizeClass) (v : UInt64) : Nat :=
  match cls with
  | .LONG | .LONG_LONG | .MAX | .SIZE | .PTRDIFF => v.toNat
  | .HALF_HALF | .HALF | .UNDEF | .LONG_DBL => v.toUInt32.toNat

/-- The text of `format_int`, which passes 10 on for the radix it was given. -/
def formatInt (cls : SizeClass) (_radix letterA : Nat) (v : UInt64) : List UInt8 :=
  itoa (signedOf cls v) 10 letterA

/-- The text of `format_uint`, which passes 10 on as well. -/
def formatUint (cls : SizeClass) (_radix letterA : Nat) (v : UInt64) : List UInt8 :=
  utoa (unsignedOf cls v) 10 letterA

-- ---------------------------------------------------------------------------
-- vsnprintf
-- ---------------------------------------------------------------------------

/-- What a call reads besides its format: the arguments in order, each the bits of an integer, a
pointer or a double, the strings in memory, and the text of a double. -/
structure Args where
  arg : Nat → UInt64
  str : UInt64 → CStr
  ftoa : UInt64 → List UInt8

structure State where
  i : Nat
  j : Nat
  /-- The arguments taken. -/
  k : Nat
  took : List (Nat × Nat)
  buf : Memory

variable (A : Args) (len : Nat) (fmt : List UInt8)

/-- `va_arg` for the conversion at `j`. -/
def State.vaArg (j : Nat) (s : State) : State := { s with k := s.k + 1, took := s.took ++ [(j, s.k)] }

/-- Text at the output position: what fits is stored, all of it is counted. -/
def State.emit (t : List UInt8) (s : State) : State :=
  { s with
    i := s.i + t.length
    buf := if s.i < len then s.buf.blit s.i (t.take (len - s.i)) else s.buf }

/-- The text of a pointer. -/
def pointerText (v : UInt64) : List UInt8 :=
  if v = 0 then "(null)".toList.map Char.toUInt8 else utoa v.toNat 0x10 'A'.toNat

/-- The `switch` on the conversion; `j` is the index of the `%`, `s.j` that of the letter. -/
def convert (j : Nat) (cls : SizeClass) (s : State) : State :=
  let v := A.arg s.k
  match Char.ofNat (charAt fmt s.j).toNat with
  -- only a character that is stored is taken
  | 'c' => if s.i < len then (s.vaArg j).emit len [v.toUInt8] else s.emit len [v.toUInt8]
  | 's' => (s.vaArg j).emit len (A.str v).chars
  | 'd' => (s.vaArg j).emit len (formatInt cls 10 'a'.toNat v)
  | 'i' => (s.vaArg j).emit len (formatInt cls 10 'a'.toNat v)
  | 'u' => (s.vaArg j).emit len (formatUint cls 10 'a'.toNat v)
  | 'x' => (s.vaArg j).emit len (formatUint cls 0x10 'a'.toNat v)
  | 'X' => (s.vaArg j).emit len (formatUint cls 0x10 'A'.toNat v)
  | 'o' => (s.vaArg j).emit len (formatUint cls 8 'a'.toNat v)
  | 'g' => (s.vaArg j).emit len (A.ftoa v)
  | 'p' => (s.vaArg j).emit len (pointerText v)
  | '%' => s.emit len ['%'.toUInt8]
  | _ => { s.emit len ['%'.toUInt8] with j := s.j - 1 }

/-- The body of the loop. -/
def format (s : State) : State :=
  if charAt fmt s.j = '%'.toUInt8 then
    let (cls, j) := getSizeClass fmt s.j
    convert A len fmt s.j cls { s with j := j }
  else s.emit len [charAt fmt s.j]

/-- One round: the test, the body and `i++, j++`, of which the first is in `emit`. -/
def formatBody (s : State) : State ⊕ State :=
  if charAt fmt s.j = 0 then .inr s
  else .inl { format A len fmt s with j := (format A len fmt s).j + 1 }

/-- The terminator; an output of exactly the length is cut off twice, at one place. -/
def terminate (len i : Nat) (buf : Memory) : Memory :=
  let buf := if i = len then (if 0 < i then buf.blit (i - 1) [0] else buf) else buf
  if i < len then buf.blit i [0]
  else if 0 < len then buf.blit (len - 1) [0] else buf

/-- The `int` that a count is returned as. -/
def toInt (n : Nat) : Int :=
  if n % 0x100000000 ≤ INT_MAX then (n % 0x100000000 : Nat)
  else (n % 0x100000000 : Nat) - 0x100000000

structure Output where
  ret : Int
  took : List (Nat × Nat)
  buf : Memory
  /-- The characters of the buffer before the terminator. -/
  text : List UInt8

/-- `vsnprintf`; every round advances in the format, so there is one for each of its bytes at most. -/
def vsnprintf (buf : Memory) : Option Output :=
  (iterate (formatBody A len fmt) (fmt.length + 1) ⟨0, 0, 0, [], buf⟩).map fun s =>
    let buf := terminate len s.i s.buf
    ⟨toInt s.i, s.took, buf, buf.slice 0 (min s.i (len - 1))⟩

def vsprintf (buf : Memory) : Option Output := vsnprintf A INT_MAX fmt buf

end Frosk.Stdio

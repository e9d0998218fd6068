import Mathlib.Tactic
import Frosk.Lib.Run
import Frosk.Strings
import Frosk.Builder.Entries

/-!
# The image builder: parsing

The embedding of `util/fsb/src/parse.c` and `directive.c`: how the text of a description is
taken apart, and what each directive has the builder make.

* A character is an `int`. From a file it is an `unsigned char`, from a string a `char`,
  which is signed; `EOF` is -1.
* Every round of a loop reads a character, so a loop that has not left when there is
  nothing more to read never does. `Source.rounds` is that bound, and `none` a call that
  does not return. The contents of a directory are shorter than the text they are in.
* `free` is left out, and the text of a string grows without bound.
-/

namespace Frosk.Builder.Text

open Lib Fs

abbrev eof : Int := -1

/-- The value of a character of the source. -/
abbrev code (c : Char) : Int := c.toNat

/-- `isspace` of the host. -/
def isspace (c : Int) : Bool := decide (c = 32 ∨ 9 ≤ c ∧ c ≤ 13)

/-- The `char` that an `int` is stored as. -/
def toByte (c : Int) : UInt8 := UInt8.ofNat (c % 256).toNat

/-- What `error` is called with. -/
inductive Message where
  /-- `Expected '%c', got '%c'.` -/
  | expected (c got : Int)
  /-- `Field '%s' invalid for directive '%c'.` -/
  | invalidField (left : CStr) (type : Int)
  /-- `Could not verify directive '%c'.` -/
  | unverified (type : Int)
  /-- `Unknown character '%c' in permission string.` -/
  | unknownPerm (c : UInt8)
deriving DecidableEq

/-- A line of the output for errors. -/
structure Report where
  line    : Nat
  message : Message
deriving DecidableEq

/-- What the parser changes: the image, `line_num`, and the errors that were printed. -/
structure Parser where
  image  : Image
  line   : Nat
  errors : List Report

/-- `error`. -/
def Parser.error (p : Parser) (m : Message) : Parser :=
  { p with errors := p.errors ++ [⟨p.line, m⟩] }

-- ---------------------------------------------------------------------------
-- Sources
-- ---------------------------------------------------------------------------

/-- `source_t`, with what is still to be read. -/
structure Source where
  file  : Bool
  rest  : List UInt8
  ungot : Int

/-- `source_file`. -/
def sourceFile (text : List UInt8) : Source := ⟨true, text, -1⟩

/-- `source_string`. -/
def sourceString (str : CStr) : Source := ⟨false, str.chars, -1⟩

/-- More rounds than there are characters, the end included. -/
def Source.rounds (src : Source) : Nat := src.rest.length + 2

/-- The `int` that a byte of the source is read as. -/
def Source.char (src : Source) (b : UInt8) : Int := if src.file then b.toNat else schar b

/-- `src_getc`. -/
def srcGetc (src : Source) : Int × Source :=
  if src.ungot < 0 then
    match src.rest with
    | [] => (eof, src)
    | b :: rest => (src.char b, { src with rest := rest })
  else (src.ungot, { src with ungot := -1 })

/-- `src_ungetc`. -/
def srcUngetc (c : Int) (src : Source) : Option Source :=
  if src.ungot < 0 then some { src with ungot := c } else none

/-- The loop over a comment. -/
def commentBody (src : Source) : Source ⊕ Source :=
  let (c, src) := srcGetc src
  if c = code '\n' then .inr src else .inl src

/-- The loop of `nextc`. -/
def nextcBody : Source × Parser → (Source × Parser) ⊕ Option (Int × Source × Parser)
  | (src, p) =>
    let (c, src) := srcGetc src
    let skipped := if c = code '#' then (iterate commentBody src.rounds src).map ((code '\n', ·))
      else some (c, src)
    match skipped with
    | none => .inr none
    | some (c, src) =>
      let p := if c = code '\n' then { p with line := p.line + 1 } else p
      if isspace c then .inl (src, p) else .inr (some (c, src, p))

def nextc (src : Source) (p : Parser) : Option (Int × Source × Parser) :=
  (iterate nextcBody src.rounds (src, p)).join

def expect (c : Char) (src : Source) (p : Parser) : Option (Source × Parser) :=
  (nextc src p).map fun (got, src, p) =>
    (src, if got ≠ code c then p.error (.expected (code c) got) else p)

def peekc (src : Source) (p : Parser) : Option (Int × Source × Parser) :=
  (nextc src p).bind fun (c, src, p) => (srcUngetc c src).map fun src => (c, src, p)

-- ---------------------------------------------------------------------------
-- getstr
-- ---------------------------------------------------------------------------

/-- The loop of `getstr` in braces: to the next brace that closes, or to the end. -/
def bracesBody : Int × Source × List UInt8 → (Int × Source × List UInt8) ⊕ (Source × List UInt8)
  | (c, src, str) =>
    if c ≠ code '}' ∧ c ≠ eof then
      let (c', src) := srcGetc src
      .inl (c', src, str ++ [toByte c])
    else .inr (src, str)

/-- The loop of `getstr` over a word, which does not look for the end. -/
def wordBody (term : List Char) :
    Int × Source × List UInt8 → (Int × Source × List UInt8) ⊕ Option (Source × List UInt8)
  | (c, src, str) =>
    if isspace c then .inr (some (src, str))
    else if c ∈ term.map code then .inr ((srcUngetc c src).map fun src => (src, str))
    else
      let (c', src) := srcGetc src
      .inl (c', src, str ++ [toByte c])

def getstr (term : List Char) (src : Source) (p : Parser) : Option (CStr × Source × Parser) :=
  (nextc src p).bind fun (c, src, p) =>
    (if c = code '{' then
      let (c, src) := srcGetc src
      iterate bracesBody src.rounds (c, src, [])
    else (iterate (wordBody term) src.rounds (c, src, [])).join).map fun (src, str) =>
      (.ofChars str, src, p)

-- ---------------------------------------------------------------------------
-- Directives
-- ---------------------------------------------------------------------------

def bytes (s : String) : List UInt8 := s.toList.map Char.toUInt8

def nameField : CStr := ⟨bytes "name", by decide⟩
def actualField : CStr := ⟨bytes "actual", by decide⟩
def contentsField : CStr := ⟨bytes "contents", by decide⟩
def targetField : CStr := ⟨bytes "target", by decide⟩
def offsetField : CStr := ⟨bytes "offset", by decide⟩
def permField : CStr := ⟨bytes "perm", by decide⟩
def ownerField : CStr := ⟨bytes "owner", by decide⟩
def sizeField : CStr := ⟨bytes "size", by decide⟩

/-- The members of `classes`, by their marks. -/
inductive Class where
  | f
  | d
  | i
  | v
deriving DecidableEq

def Class.mark : Class → Char
  | f => 'f'
  | d => 'd'
  | i => 'i'
  | v => 'v'

def Class.fields : Class → List CStr
  | f => [nameField, actualField, permField, ownerField]
  | d => [nameField, contentsField, permField, ownerField]
  | i => [nameField, targetField, permField, ownerField]
  | v => [nameField, offsetField, permField, ownerField, sizeField]

def classes : List Class := [.f, .d, .i, .v]

/-- `directive_t`; `nd` is made and used by `confirm` only. -/
structure Directive where
  cls    : Class
  par    : Ptr
  values : Nat → Option CStr

/-- `get_directive`. -/
def getDirective (mark : Int) (par : Ptr) : Option Directive :=
  (classes.find? fun cls => code cls.mark = mark).map fun cls => ⟨cls, par, fun _ => none⟩

/-- `set_field`; `none` if the class has no such field. -/
def setField (d : Directive) (what value : CStr) : Option Directive :=
  (d.cls.fields.findIdx? fun field => hostStrcmp what field = 0).map fun i =>
    { d with values := Function.update d.values i (some value) }

/-- The letters of a permission that `parse_perm` does not know. -/
def unknownPerms (str : CStr) : List UInt8 := str.chars.filter fun c => permMask c = 0

/-- `confirm_common`, with the errors of `parse_perm`. -/
def confirmCommon (H : Host) (k : Nat) (fields : Fields) (nd : Ptr) (p : Parser) : Option Parser :=
  let reports := (fields.perm.toList.flatMap unknownPerms).map fun c => ⟨p.line, .unknownPerm c⟩
  (Builder.confirmCommon H k fields nd p.image).map fun image =>
    { p with image := image, errors := p.errors ++ reports }

/-- `fconfirm`. -/
def fconfirm (H : Host) (k : Nat) (d : Directive) (p : Parser) : Option (Bool × Parser) :=
  match d.values 0, d.values 1 with
  | some name, some actual => do
    let (image, nd) ← newFile H k name actual d.par p.image
    let p ← confirmCommon H k ⟨name, d.values 2, d.values 3⟩ nd { p with image := image }
    some (true, p)
  | _, _ => some (false, p)

/-- `dconfirm`, given `parse_directory`. -/
def dconfirm (H : Host) (k : Nat) (sub : Source → Ptr → Parser → Option Parser) (d : Directive)
    (p : Parser) : Option (Bool × Parser) :=
  match d.values 0 with
  | some name => do
    let (image, nd) ← newDir H k (some name) d.par p.image
    let p ← confirmCommon H k ⟨name, d.values 2, d.values 3⟩ nd { p with image := image }
    match d.values 1 with
    | some contents => do
      let p ← sub (sourceString contents) nd p
      some (true, p)
    | none => some (true, p)
  | none => some (false, p)

/-- `iconfirm`. -/
def iconfirm (H : Host) (k : Nat) (d : Directive) (p : Parser) : Option (Bool × Parser) :=
  match d.values 0, d.values 1 with
  | some name, some target => do
    let (image, nd) ← newIndir H k name target d.par p.image
    let p ← confirmCommon H k ⟨name, d.values 2, d.values 3⟩ nd { p with image := image }
    some (true, p)
  | _, _ => some (false, p)

/-- The number that a string of digits begins with. -/
def digitsValue (l : List UInt8) : Nat :=
  (l.takeWhile fun b => 48 ≤ b.toNat ∧ b.toNat ≤ 57).foldl (fun n b => 10 * n + (b.toNat - 48)) 0

/-- `atoi` of the host, for numbers that an `int` holds. -/
def atoi (str : CStr) : Int :=
  let l := str.chars.dropWhile fun b => isspace b.toNat
  if l.head? = some '-'.toUInt8 then -(digitsValue l.tail : Int)
  else if l.head? = some '+'.toUInt8 then digitsValue l.tail
  else digitsValue l

/-- `vconfirm`; the numbers are passed on as `ulong`. -/
def vconfirm (H : Host) (k : Nat) (d : Directive) (p : Parser) : Option (Bool × Parser) :=
  match d.values 0, d.values 1, d.values 4 with
  | some name, some offset, some size => do
    let (image, nd) ← newVirt H k name (atoi offset % wordSize).toNat (atoi size % wordSize).toNat
      d.par p.image
    let p ← confirmCommon H k ⟨name, d.values 2, d.values 3⟩ nd { p with image := image }
    some (true, p)
  | _, _, _ => some (false, p)

/-- `confirm_directive`. -/
def confirmDirective (H : Host) (k : Nat) (sub : Source → Ptr → Parser → Option Parser)
    (d : Directive) (p : Parser) : Option (Bool × Parser) :=
  match d.cls with
  | .f => fconfirm H k d p
  | .d => dconfirm H k sub d p
  | .i => iconfirm H k d p
  | .v => vconfirm H k d p

-- ---------------------------------------------------------------------------
-- parse_next and parse_directory
-- ---------------------------------------------------------------------------

/-- One field of a directive. -/
def parseField (type : Int) (first : Bool) (d : Directive) (src : Source) (p : Parser) :
    Option (Directive × Source × Parser) := do
  let (src, p) ← if first then some (src, p) else expect ',' src p
  let (left, src, p) ← getstr ['=', ']'] src p
  let (src, p) ← expect '=' src p
  let (right, src, p) ← getstr [',', ']'] src p
  match setField d left right with
  | some d => some (d, src, p)
  | none => some (d, src, p.error (.invalidField left type))

/-- The loop of `parse_next`. -/
def fieldBody (type : Int) : Directive × Source × Parser × Bool →
    (Directive × Source × Parser × Bool) ⊕ Option (Directive × Source × Parser)
  | (d, src, p, first) =>
    match peekc src p with
    | none => .inr none
    | some (c, src, p) =>
      if c = code ']' then .inr (some (d, src, p))
      else
        match parseField type first d src p with
        | none => .inr none
        | some (d, src, p) => .inl (d, src, p, false)

/-- `parse_next`. Where there is no directive of the type it prints an error, and then reads
`d->nd` through `NULL`. -/
def parseNext (H : Host) (k : Nat) (sub : Source → Ptr → Parser → Option Parser) (src : Source)
    (parent : Ptr) (p : Parser) : Option (Source × Parser) := do
  let (type, src, p) ← nextc src p
  let (src, p) ← expect ':' src p
  let (src, p) ← expect '[' src p
  let d ← getDirective type parent
  let (d, src, p) ← (iterate (fieldBody type) src.rounds (d, src, p, true)).join
  let (ok, p) ← confirmDirective H k sub d p
  expect ']' src (if ok then p else p.error (.unverified type))

/-- The loop of `parse_directory`. -/
def directoryBody (H : Host) (k : Nat) (sub : Source → Ptr → Parser → Option Parser) (dir : Ptr) :
    Source × Parser → (Source × Parser) ⊕ Option Parser
  | (src, p) =>
    match peekc src p with
    | none => .inr none
    | some (c, src, p) =>
      if c = eof then .inr (some p)
      else
        match parseNext H k sub src dir p with
        | none => .inr none
        | some r => .inl r

/-- `parse_directory`, with a bound on the depth of contents in contents. -/
def parseDirectory (H : Host) (k : Nat) : Nat → Source → Ptr → Parser → Option Parser
  | 0, _, _, _ => none
  | depth + 1, src, dir, p =>
    (iterate (directoryBody H k (parseDirectory H k depth) dir) src.rounds (src, p)).join

/-- `parse_fsd` on the text of a file, in storage that holds what is in `s`. -/
def parseFsd (H : Host) (k bs sb rperm : Nat) (rowner : Option CStr) (text : List UInt8) (s : Image) :
    Option Parser := do
  let s : Image := { s with
    nodes := [], metas := [], blockSize := bs, nextLba := sb, freeData := NULL, freeMeta := NULL,
    strtbl := NULL }
  let (fs, m) ← newMeta H.toEnv NULL s.toState
  let s : Image := { s with toState := fs, firstMeta := m }
  let (s, root) ← newDir H k none NULL s
  let s : Image := { s with root := root }.setCommon root fun v => { v with perm := rperm % 0x10000 }
  let (s, owner) ← getString H k rowner s
  let s : Image := s.setCommon root fun v => { v with owner := owner }
  parseDirectory H k (text.length + 1) (sourceFile text) root ⟨s, 1, []⟩

end Frosk.Builder.Text

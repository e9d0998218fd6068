import Mathlib.Tactic
import Frosk.Builder.Parsing
import Frosk.Builder.Writing

/-!
# The image builder: the command

The embedding of `main` of `util/fsb/src/main.c`: the options of the command line, and the
image that is written for them.

* The output can be opened, and what is written to it can be sought in. What is printed besides the
  image is not here, and neither is the debugging output of `-d`.
-/

namespace Frosk.Builder.Text

/-- The variables of `main` that the options set; no file is the standard stream. -/
structure Options where
  input      : Option CStr
  output     : Option CStr
  blockSize  : Int
  startBlock : Int
  rootOwner  : Option CStr
  rootPerm   : Nat
  debug      : Bool

def Options.default : Options where
  input := none
  output := none
  blockSize := 0x1000
  startBlock := 1
  rootOwner := none
  rootPerm := 0x03 ||| 0x04
  debug := false

/-- Where the loop over the options ends. -/
inductive Command where
  | run (o : Options)
  | help
  | error

/-- What comes after the letter of an option. -/
def CStr.behindLetter (arg : CStr) : CStr :=
  ⟨arg.chars.drop 2, fun h => arg.clean (List.mem_of_mem_drop h)⟩

/-- The loop of `main` over `argv + 1`. -/
def options (H : Host) : List CStr → Options → Command
  | [], o => .run o
  | arg :: args, o =>
    let letter := arg.chars.getD 1 0
    if arg.chars.head? ≠ some '-'.toUInt8 then .error
    else if letter = 'i'.toUInt8 then
      let name := CStr.behindLetter arg
      if (H.file name).isSome then options H args { o with input := some name } else .error
    else if letter = 'o'.toUInt8 then
      options H args { o with output := some (CStr.behindLetter arg) }
    else if letter = 'b'.toUInt8 then
      match args with
      | [] => .run o
      | x :: args => options H args { o with blockSize := atoi x }
    else if letter = 's'.toUInt8 then
      match args with
      | [] => .run o
      | x :: args => options H args { o with startBlock := atoi x }
    else if letter = 'u'.toUInt8 then
      match args with
      | [] => .run o
      | x :: args => options H args { o with rootOwner := some x }
    else if letter = 'p'.toUInt8 then
      match args with
      | [] => .run o
      | x :: args => options H args { o with rootPerm := parsePerm x }
    else if letter = 'd'.toUInt8 then options H args { o with debug := true }
    else if letter = 'h'.toUInt8 then .help
    else .error

/-- The text that is read. -/
def Options.text (H : Host) (stdin : List UInt8) (o : Options) : List UInt8 :=
  match o.input with
  | some name => (H.file name).getD []
  | none => stdin

/-- The image that `main` writes, with `s` for the variables of `fs.c`. -/
def image (H : Host) (k : Nat) (stdin : List UInt8) (o : Options) (s : Image) : Option Stream := do
  let out ← parseFsd H k (o.blockSize % 0x100000000).toNat (o.startBlock % wordSize).toNat o.rootPerm
    o.rootOwner (o.text H stdin) s
  writeFs H out.image k .new

def main (H : Host) (k : Nat) (argv : List CStr) (stdin : List UInt8) (s : Image) : Option Stream :=
  match options H argv.tail .default with
  | .run o => if o.debug then none else image H k stdin o s
  | .help => none
  | .error => none

end Frosk.Builder.Text

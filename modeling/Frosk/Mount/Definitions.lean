import Mathlib.Tactic
import Frosk.Fs.Retrieval
import Frosk.Builder.Building

/-!
# Images in the kernel: definitions

What a description says is at a path, and what the kernel finds there. The kernel follows a
path with `fs_resolve`, one name after the other from the root, which loads a directory when
it is first used. The size and the contents of a file are those of `fs_size` and of
`fs_read` from the start of the file.
-/

namespace Frosk.Mount

open Lib Fs
open Builder (Fsd Host)

-- ---------------------------------------------------------------------------
-- Descriptions
-- ---------------------------------------------------------------------------

/-- What an entry is. -/
inductive Kind where
  | file (actual : CStr)
  | dir (contents : Fsd)
  | indir (target : CStr)

/-- The type of its node in the image. -/
def Kind.nodeType : Kind → FnodeType
  | .file _ => .FILE
  | .dir _ => .DIRECTORY
  | .indir _ => .INDIRECT

/-- The type of its entry in the kernel. -/
def Kind.entType : Kind → EntType
  | .file _ => .FILE
  | .dir _ => .DIRECTORY
  | .indir _ => .INDIRECT

/-- The entries of a directory, in the order of the description. -/
def rows : Fsd → List (CStr × Kind)
  | .done => []
  | .file fields actual rest => (fields.name, .file actual) :: rows rest
  | .dir fields contents rest => (fields.name, .dir contents) :: rows rest
  | .indir fields target rest => (fields.name, .indir target) :: rows rest

/-- The names of a directory. -/
def names (fsd : Fsd) : List CStr := (rows fsd).map Prod.fst

/-- No directory has two entries of one name. -/
def Distinct : Fsd → Prop
  | .done => True
  | .file fields _ rest => fields.name ∉ names rest ∧ Distinct rest
  | .dir fields contents rest => fields.name ∉ names rest ∧ Distinct contents ∧ Distinct rest
  | .indir fields _ rest => fields.name ∉ names rest ∧ Distinct rest

/-- The entry of that name. -/
def findRow (rs : List (CStr × Kind)) (name : CStr) : Option Kind :=
  (rs.find? fun r => r.1 = name).map Prod.snd

/-- What is at a path. -/
def Kind.follow : Kind → List CStr → Option Kind
  | k, [] => some k
  | .dir contents, c :: cs => (findRow (rows contents) c).bind fun k => k.follow cs
  | .file _, _ :: _ | .indir _, _ :: _ => none

-- ---------------------------------------------------------------------------
-- Queries
-- ---------------------------------------------------------------------------

/-- What is found at a path: of a file its size, and what `fs_read` returns and stores. -/
inductive Answer where
  | nothing
  | directory
  | indirect
  | file (size count : Nat) (bytes : List UInt8)
deriving DecidableEq

/-- The answer of the description. -/
def answer (H : Host) (fsd : Fsd) (path : List CStr) : Answer :=
  match (Kind.dir fsd).follow path with
  | none => .nothing
  | some (.dir _) => .directory
  | some (.indir _) => .indirect
  | some (.file actual) =>
    let bytes := (H.file actual).getD []
    .file bytes.length bytes.length bytes

/-- The answer of the kernel. -/
def query (E : Env) (path : List CStr) (k : Nat) (s : State) : Option (State × Answer) := do
  let (s, x) ← walk E k path s.rootDir s
  if x = NULL then some (s, .nothing)
  else
    match (s.ent x).type with
    | .DIRECTORY => some (s, .directory)
    | .INDIRECT => some (s, .indirect)
    | .FILE => do
      let (s, size) ← fsSize E k x s
      let (s, count, bytes) ← fsRead E k 0 size x s
      some (s, .file size count bytes)

def Step (E : Env) (s : State) (path : List CStr) (s' : State) (a : Answer) : Prop :=
  ∃ k, query E path k s = some (s', a)

end Frosk.Mount

import Mathlib.Tactic
import Frosk.Lib.SearchTree
import Frosk.Builder.Definitions

/-!
# The image builder: entries

The embedding of the rest of `util/fsb/src/fs.c` up to `write_fs`, of `directive.c`, and
of `parse_fsd`: the entries of directories, the table of strings, and the blocks of files.

* Each member of the union of a node has its own record here, next to the fields the
  allocator uses. The type of a node says which member is in use, and the source reads no
  other.
* `m` in `get_string` is the address of a field that holds a string node, which is a
  `Slot`: the root of the table, or the left or right link of a string.
* A description file is the tree of its directives here, each with the fields it has; how the
  text is taken apart is in `Frosk.Builder.Parsing`. `dconfirm` goes on with the directives in
  `contents` before the next of its own directory.
* The files of the host do not change while the builder runs.
-/

namespace Frosk.Builder

open Lib Fs

-- ---------------------------------------------------------------------------
-- Nodes
-- ---------------------------------------------------------------------------

/-- `u.common`. -/
structure Common where
  perm  : Nat
  name  : Ptr
  owner : Ptr
  next  : Ptr
  data  : Ptr

/-- `u.string`. -/
structure StringNode where
  size  : Nat
  next  : Ptr
  left  : Ptr
  right : Ptr
  value : CStr

/-- `u.block`; the filename is `NULL` for a virtual file. -/
structure BlockNode where
  filename : Option CStr
  next     : Ptr
  lba      : Nat
  size     : Nat

/-- What the builder runs on: the files by their names, and what the stack holds where
`write_node` has its node. -/
structure Host extends Env where
  file  : CStr → Option (List UInt8)
  frame : Ptr → Memory

/-- The variable `fs`, with the members of its nodes. -/
structure Image extends State where
  common    : Ptr → Common
  string    : Ptr → StringNode
  block     : Ptr → BlockNode
  firstMeta : Ptr
  root      : Ptr
  freeData  : Ptr
  strtbl    : Ptr

namespace Image

def setType (s : Image) (n : Ptr) (t : FnodeType) : Image :=
  { s with toState := s.toState.modify n fun v => { v with type := t } }

def setCommon (s : Image) (n : Ptr) (f : Common → Common) : Image :=
  { s with common := Function.update s.common n (f (s.common n)) }

def setString (s : Image) (n : Ptr) (v : StringNode) : Image :=
  { s with string := Function.update s.string n v }

def setBlock (s : Image) (n : Ptr) (v : BlockNode) : Image :=
  { s with block := Function.update s.block n v }

/-- The table of strings. The builder keeps no link to the parent. -/
def links (s : Image) : Links Ptr where
  root := s.strtbl
  left n := (s.string n).left
  right n := (s.string n).right
  parent _ := NULL

/-- `*m = n`. -/
def storeString (s : Image) (n : Ptr) : Slot Ptr → Image
  | .root => { s with strtbl := n }
  | .left p => s.setString p { s.string p with left := n }
  | .right p => s.setString p { s.string p with right := n }

end Image

/-- `new_node` on the whole image. -/
def Image.newNode (H : Host) (k size : Nat) (s : Image) : Option (Image × Ptr) :=
  (Builder.newNode H.toEnv k size s.toState).map fun r => ({ s with toState := r.1 }, r.2)

-- ---------------------------------------------------------------------------
-- get_string
-- ---------------------------------------------------------------------------

/-- `strcmp` of the host, which compares bytes as `unsigned char`. -/
def hostStrcmpChars : List UInt8 → List UInt8 → Int
  | a :: as, b :: bs => if a ≠ b then (a.toNat : Int) - b.toNat else hostStrcmpChars as bs
  | a :: _, [] => a.toNat
  | [], b :: _ => -(b.toNat : Int)
  | [], [] => 0

def hostStrcmp (a b : CStr) : Int := hostStrcmpChars a.chars b.chars

/-- A string that is not in the table, by `get_string`. -/
def newString (H : Host) (k : Nat) (str : CStr) (sl : Slot Ptr) (s : Image) :
    Option (Image × Ptr) := do
  let length := str.chars.length + 1
  if ¬ length < 2000 then none
  else
    let (s, n) ← s.newNode H k (sizeofString + length)
    let s := (s.setType n .STRING).setString n ⟨length, NULL, NULL, NULL, str⟩
    some (s.storeString n sl, n)

/-- `get_string`; `none` is `NULL`. -/
def getString (H : Host) (k : Nat) (str : Option CStr) (s : Image) : Option (Image × Ptr) :=
  match str with
  | none => some (s, NULL)
  | some str => do
    let (sl, _) ← iterate (descendBody s.links NULL fun n => hostStrcmp str (s.string n).value) k
      (.root, NULL)
    if s.links.load sl ≠ NULL then some (s, s.links.load sl)
    else newString H k str sl s

-- ---------------------------------------------------------------------------
-- Entries
-- ---------------------------------------------------------------------------

/-- What `new_common` stores in the new node and in its parent. -/
def Image.enter (s : Image) (new parent : Ptr) : Option Image :=
  if parent ≠ NULL then
    if (s.node parent).type ≠ .DIRECTORY then none
    else
      let p := s.common parent
      some ((s.setCommon new fun v => { v with perm := p.perm, owner := p.owner, next := p.data }).setCommon
        parent fun v => { v with data := new })
  else some (s.setCommon new fun v => { v with perm := 0, owner := NULL, next := NULL })

def newCommon (H : Host) (k : Nat) (name : Option CStr) (parent : Ptr) (s : Image) :
    Option (Image × Ptr) := do
  let (s, new) ← s.newNode H k sizeofCommon
  let s ← s.enter new parent
  let (s, str) ← getString H k name s
  some (s.setCommon new fun v => { v with name := str }, new)

/-- A block node for `size` bytes at `lba`, for the file `new`. -/
def newBlock (H : Host) (k : Nat) (new : Ptr) (filename : Option CStr) (lba size : Nat) (s : Image) :
    Option (Image × Ptr) := do
  let (s, bl) ← s.newNode H k sizeofBlock
  let s := (s.setType bl .BLOCK).setBlock bl ⟨filename, NULL, lba, size⟩
  some (s.setCommon new fun v => { v with data := bl }, bl)

/-- `new_file`: `NULL` if the host has no such file. -/
def newFile (H : Host) (k : Nat) (name actual : CStr) (parent : Ptr) (s : Image) :
    Option (Image × Ptr) :=
  match H.file actual with
  | none => some (s, NULL)
  | some bytes => do
    let (s, new) ← newCommon H k (some name) parent s
    let s := s.setType new .FILE
    let (s, _) ← newBlock H k new (some actual) s.nextLba bytes.length s
    let blocks := align bytes.length s.blockSize / s.blockSize
    some ({ s with nextLba := (s.nextLba + blocks) % wordSize }, new)

/-- `new_virt`. -/
def newVirt (H : Host) (k : Nat) (name : CStr) (lba size : Nat) (parent : Ptr) (s : Image) :
    Option (Image × Ptr) := do
  let (s, new) ← newCommon H k (some name) parent s
  let s := s.setType new .FILE
  let (s, _) ← newBlock H k new none (lba * s.blockSize % wordSize) size s
  some (s, new)

/-- `new_dir`; the root has no name. -/
def newDir (H : Host) (k : Nat) (name : Option CStr) (parent : Ptr) (s : Image) :
    Option (Image × Ptr) := do
  let (s, new) ← newCommon H k name parent s
  some ((s.setType new .DIRECTORY).setCommon new fun v => { v with data := NULL }, new)

/-- `new_indir`. -/
def newIndir (H : Host) (k : Nat) (name target : CStr) (parent : Ptr) (s : Image) :
    Option (Image × Ptr) := do
  let (s, new) ← newCommon H k (some name) parent s
  let s := s.setType new .INDIRECT
  let (s, str) ← getString H k (some target) s
  some (s.setCommon new fun v => { v with data := str }, new)

-- ---------------------------------------------------------------------------
-- Directives
-- ---------------------------------------------------------------------------

/-- The bits of a letter of a permission string. -/
def permMask (c : UInt8) : Nat :=
  if c = 'r'.toUInt8 then 0x01
  else if c = 'R'.toUInt8 then 0x03
  else if c = 'w'.toUInt8 then 0x04
  else if c = 'W'.toUInt8 then 0x0c
  else if c = 'e'.toUInt8 then 0x10
  else if c = 'E'.toUInt8 then 0x30
  else 0

/-- `parse_perm`; a letter it does not know is reported and skipped. -/
def parsePerm (str : CStr) : Nat := str.chars.foldl (fun perm c => perm ||| permMask c) 0

/-- The fields that each class of directives has. -/
structure Fields where
  name  : CStr
  perm  : Option CStr
  owner : Option CStr

/-- The directives of a directory, up to the end of the text. -/
inductive Fsd where
  | done
  | file (fields : Fields) (actual : CStr) (rest : Fsd)
  | dir (fields : Fields) (contents : Fsd) (rest : Fsd)
  | indir (fields : Fields) (target : CStr) (rest : Fsd)

/-- `confirm_common`, for a node that may be `NULL`. -/
def confirmCommon (H : Host) (k : Nat) (fields : Fields) (nd : Ptr) (s : Image) : Option Image := do
  let s ← (match fields.perm with
    | none => some s
    | some perm =>
      if nd = NULL then none
      else some (s.setCommon nd fun v => { v with perm := parsePerm perm }))
  match fields.owner with
  | none => some s
  | some owner => do
    let (s, str) ← getString H k (some owner) s
    if nd = NULL then none else some (s.setCommon nd fun v => { v with owner := str })

/-- `parse_directory`, with what `fconfirm`, `dconfirm` and `iconfirm` do for each
directive. -/
def parseDirectory (H : Host) (k : Nat) : Fsd → Ptr → Image → Option Image
  | .done, _, s => some s
  | .file fields actual rest, dir, s => do
    let (s, nd) ← newFile H k fields.name actual dir s
    let s ← confirmCommon H k fields nd s
    parseDirectory H k rest dir s
  | .dir fields contents rest, dir, s => do
    let (s, nd) ← newDir H k (some fields.name) dir s
    let s ← confirmCommon H k fields nd s
    let s ← parseDirectory H k contents nd s
    parseDirectory H k rest dir s
  | .indir fields target rest, dir, s => do
    let (s, nd) ← newIndir H k fields.name target dir s
    let s ← confirmCommon H k fields nd s
    parseDirectory H k rest dir s

/-- `parse_fsd`, in storage that holds what is in `s`. -/
def parseFsd (H : Host) (k bs sb rperm : Nat) (rowner : Option CStr) (fsd : Fsd) (s : Image) :
    Option Image := do
  let s : Image := { s with
    nodes := [], metas := [], blockSize := bs, nextLba := sb, freeData := NULL, freeMeta := NULL,
    strtbl := NULL }
  let (fs, m) ← newMeta H.toEnv NULL s.toState
  let s : Image := { s with toState := fs, firstMeta := m }
  let (s, root) ← newDir H k none NULL s
  let s : Image := { s with root := root }.setCommon root fun v => { v with perm := rperm % 0x10000 }
  let (s, owner) ← getString H k rowner s
  let s : Image := s.setCommon root fun v => { v with owner := owner }
  parseDirectory H k fsd root s

end Frosk.Builder

import Mathlib.Tactic
import Frosk.Lib.Run
import Frosk.Lib.Inorder
import Frosk.Fs.Node

/-!
# The kernel's file system: definitions

The embedding of `kernel/src/fs/fs.c`: entries of directories, which are loaded
from the nodes of the image when a directory is first used.

* Entries are records at addresses. The union of an entry is flattened: each
  member has its own field, and the source never reads a member that does not
  belong to the entry's type. An entry owns its name, so the name is a field
  and its storage is not tracked.
* `x` in `find` is the address of a field that holds an entry, which is a
  `Slot`: the root of the directory, or the left or right link of an entry.
* `assure_dir` and `find` call each other. The inner `assure_dir` returns at
  once, but that is a fact about the code, so the model has the recursion, to a
  depth that is the bound of its loops too.
* A function that does not return (an assertion fails, or a bound is too small)
  yields `none`.
-/

namespace Frosk.Fs

open Lib

/-- `RFSMB_LOC`, where the root metadata block is. -/
abbrev rfsmbLoc : Nat := 0x1000

/-- `FS_SIZE_UNKNOWN`. -/
abbrev fsSizeUnknown : Nat := wordSize - 1

/-- The types of entries. -/
inductive EntType where
  | FILE
  | DIRECTORY
  | INDIRECT
deriving DecidableEq, Repr

/-- The flags of an entry. -/
structure Flags where
  virt     : Bool := false
  present  : Bool := false
  hasname  : Bool := false
  hasdata  : Bool := false
  hooked   : Bool := false
  static   : Bool := false
deriving DecidableEq, Repr

/-- `fs_entry_t`. -/
structure Entry where
  left      : Ptr
  right     : Ptr
  parent    : Ptr
  name      : CStr
  node      : Nat
  type      : EntType
  flags     : Flags
  lock      : Lock
  data      : Ptr
  size      : Nat
  readHook  : Ptr
  writeHook : Ptr
  root      : Ptr
  dest      : Ptr

def Entry.setRoot (e : Ptr) (v : Entry) : Entry := { v with root := e }

def Entry.setLeft (e : Ptr) (v : Entry) : Entry := { v with left := e }

def Entry.setRight (e : Ptr) (v : Entry) : Entry := { v with right := e }

/-- What the file system uses: the allocators, the disk behind `root_dev`, and
the functions that hooks point to, which answer a count and the bytes they
store. -/
structure Env where
  kalloc : Kalloc
  phys   : PageSource
  virt   : PageSource
  disk   : Memory
  hook   : Ptr → Nat → Nat → Ptr → Nat × List UInt8

/-- The variables of `fs.c`, with the entries and the memory they are in.
`used` are the addresses of entries in use, `frames` and `pages` what
`alloc_pgs` handed out. -/
structure State where
  ent      : Ptr → Entry
  used     : List Ptr
  mem      : Memory
  frames   : List Nat
  pages    : List Nat
  rootDev  : Bool
  rootDir  : Ptr
  nodeSize : Nat

namespace State

def modify (s : State) (x : Ptr) (f : Entry → Entry) : State :=
  { s with ent := Function.update s.ent x (f (s.ent x)) }

/-- The links of the entries, from the root of directory `d`. -/
def links (s : State) (d : Ptr) : Links Ptr where
  root := (s.ent d).root
  left x := (s.ent x).left
  right x := (s.ent x).right
  parent x := (s.ent x).parent

/-- `*x = e`, where `x` is a slot of directory `d`. -/
def store (s : State) (d : Ptr) (e : Ptr) : Slot Ptr → State
  | .root => s.modify d (Entry.setRoot e)
  | .left p => s.modify p (Entry.setLeft e)
  | .right p => s.modify p (Entry.setRight e)

/-- `kfree` of an entry. -/
def kfree (s : State) (x : Ptr) : State := { s with used := s.used.erase x }

end State

-- ---------------------------------------------------------------------------
-- create_entry
-- ---------------------------------------------------------------------------

/-- The stores of `create_entry` into storage that holds `old`. -/
def initEntry (old : Entry) (name : Option CStr) (lpar : Ptr) (type : EntType) : Entry :=
  let x := { old with
    name := name.getD old.name, left := NULL, right := NULL, parent := lpar, type := type,
    flags := {}, node := NULL, lock := .UNLOCKED }
  match type with
  | .FILE => { x with data := NULL, size := 0 }
  | .DIRECTORY => { x with root := NULL }
  | .INDIRECT => { x with dest := NULL }

def createEntry (E : Env) (name : Option CStr) (lpar : Ptr) (type : EntType) (s : State) :
    State × Ptr :=
  let x := E.kalloc.pick s.used
  ({ s with used := x :: s.used }.modify x fun old => initEntry old name lpar type, x)

-- ---------------------------------------------------------------------------
-- resolve_node and setup_fs
-- ---------------------------------------------------------------------------

/-- The pages of a range of `n` bytes at `v`. -/
def pageRange (v n : Nat) : List Nat :=
  (List.range (n / pageSize)).map fun k => v + k * pageSize

/-- A metadata block is read into a new page, unless it was before. Only the first page of
the range is mapped, so a larger block faults at the second. -/
def loadBranch (E : Env) (n : Nat) (s : State) : Option State :=
  if branchOsUse s.mem n ≠ 0 then some s
  else do
    let ps := headerPageSize s.mem rfsmbLoc
    let phys ← E.phys.pick ps s.frames
    let virt ← E.virt.pick ps s.pages
    let block := E.disk.slice (branchLba1 s.mem n * ps % wordSize) ps
    if pageSize < ps then none
    else
      some { s with
        frames := pageRange phys ps ++ s.frames
        pages := pageRange virt ps ++ s.pages
        mem := (s.mem.blit virt block).put 8 (n + 24) virt }

/-- One round of the loop of `resolve_node`. -/
def resolveBody (E : Env) : State × Nat × Nat → (State × Nat × Nat) ⊕ Option (State × Nat)
  | (s, p, mb) =>
    let n := (mb + p % 0x100 * s.nodeSize) % wordSize
    if p / 0x100 = 0 ∨ nodeType s.mem n ≠ some .BRANCH then .inr (some (s, n))
    else
      match loadBranch E n s with
      | none => .inr none
      | some s' => .inl (s', p / 0x100, branchOsUse s'.mem n)

/-- `resolve_node`. An `fptr` has four bytes, so four rounds are enough. -/
def resolveNode (E : Env) (p : Nat) (s : State) : Option (State × Nat) :=
  if p = 0 then some (s, NULL) else (iterate (resolveBody E) 4 (s, p, rfsmbLoc)).join

def setupFs (E : Env) (s : State) : Option State := do
  let s := { s with nodeSize := headerPageSize s.mem rfsmbLoc / 0x100 }
  let (s, d) := createEntry E none NULL .DIRECTORY s
  let s := { s with rootDir := d }.modify d fun v => { v with flags.hasdata := true }
  let (s, n) ← resolveNode E (headerRoot s.mem rfsmbLoc) s
  some (s.modify d fun v => { v with node := n })

-- ---------------------------------------------------------------------------
-- destroy and decimate
-- ---------------------------------------------------------------------------

/-- `decimate`, given `destroy`. -/
def decimateWith (destroy : Ptr → State → Option State) (x : Ptr) (s : State) : Option State :=
  if (s.ent x).flags.hasdata then
    match (s.ent x).type with
    | .FILE => some (s.kfree (s.ent x).data)
    | .DIRECTORY => destroy (s.ent x).root s
    | .INDIRECT => some (s.kfree (s.ent x).dest)
  else some s

def destroy : Nat → Ptr → State → Option State
  | 0, _, _ => none
  | n + 1, x, s =>
    if x = NULL then some s
    else do
      let s ← destroy n (s.ent x).left s
      let s ← destroy n (s.ent x).right s
      let s ← decimateWith (destroy n) x s
      some (s.kfree x)

def decimate (n : Nat) : Ptr → State → Option State := decimateWith (destroy n)

-- ---------------------------------------------------------------------------
-- find, insert_entry and assure_dir
-- ---------------------------------------------------------------------------

/-- `find`, given `assure_dir`: the slot of the name, and the entry it is in. -/
def findWith (assure : Ptr → State → Option State) (n : Nat) (name : CStr) (par : Ptr) (s : State) :
    Option (State × Slot Ptr × Ptr) :=
  if par = NULL ∨ (s.ent par).type ≠ .DIRECTORY then none
  else do
    let s ← assure par s
    let x ← iterate (descendBody (s.links par) NULL fun x => strcmp name (s.ent x).name) n
      (.root, NULL)
    some (s, x)

/-- The end of `insert_entry` and `fs_mkdir`: what the slot holds is replaced. -/
def replaceEntry (E : Env) (n : Nat) (name : CStr) (par : Ptr) (type : EntType) (sl : Slot Ptr)
    (lpar : Ptr) (s : State) : Option (State × Ptr) := do
  let old := (s.links par).load sl
  let s ← (if old ≠ NULL then decimate n old s else some s)
  let (s, e) := createEntry E (some name) lpar type s
  some (s.store par e sl, e)

/-- `insert_entry`, given `assure_dir`. -/
def insertEntryWith (assure : Ptr → State → Option State) (E : Env) (n : Nat) (name : CStr)
    (par : Ptr) (type : EntType) (s : State) : Option (State × Ptr) := do
  let (s, sl, lpar) ← findWith assure n name par s
  replaceEntry E n name par type sl lpar s

/-- The entry type for a node type. -/
def FnodeType.entType : FnodeType → Option EntType
  | .FILE => some .FILE
  | .DIRECTORY => some .DIRECTORY
  | .INDIRECT => some .INDIRECT
  | _ => none

/-- What `assure_dir` stores in an entry it made for node `n`. -/
def markLoaded (n : Nat) (type : EntType) (e : Entry) : Entry :=
  match type with
  | .FILE => { e with node := n, size := fsSizeUnknown }
  | .DIRECTORY => { e with node := n, flags.hasdata := true }
  | .INDIRECT => { e with node := n }

/-- An entry for node `n` of the directory, by `assure_dir`. -/
def loadEntryWith (assure : Ptr → State → Option State) (E : Env) (k n : Nat) (name : CStr)
    (dir : Ptr) (type : EntType) (s : State) : Option (State × Ptr) := do
  let (s, e) ← insertEntryWith assure E k name dir type s
  some (s.modify e (markLoaded n type), e)

/-- One round of the loop of `assure_dir`, at a node that is not `NULL`. -/
def assureRound (assure : Ptr → State → Option State) (E : Env) (k : Nat) (dir : Ptr) (s : State)
    (n : Nat) : Option (State × Nat) := do
  let type ← (nodeType s.mem n).bind FnodeType.entType
  let (s, name) ← resolveNode E (commonName s.mem n) s
  if nodeType s.mem name ≠ some .STRING then none
  else do
    let str ← strAt s.mem k (fnodeString name)
    let (s, _) ← loadEntryWith assure E k n str dir type s
    resolveNode E (commonNext s.mem n) s

def assureBody (assure : Ptr → State → Option State) (E : Env) (k : Nat) (dir : Ptr) :
    State × Nat → (State × Nat) ⊕ Option State
  | (s, n) =>
    if n = NULL then .inr (some s)
    else
      match assureRound assure E k dir s n with
      | none => .inr none
      | some r => .inl r

def assureDir (E : Env) : Nat → Ptr → State → Option State
  | 0, _, _ => none
  | k + 1, dir, s =>
    if (s.ent dir).type ≠ .DIRECTORY then none
    else if ¬ s.rootDev ∨ (s.ent dir).flags.present then some s
    else if ¬ (s.ent dir).flags.hasdata ∨ (s.ent dir).node = NULL ∨
        nodeType s.mem (s.ent dir).node ≠ some .DIRECTORY then none
    else do
      let s := s.modify dir fun v => { v with flags.present := true }
      let (s, n) ← resolveNode E (commonData s.mem (s.ent dir).node) s
      (iterate (assureBody (assureDir E k) E k dir) k (s, n)).join

def find (E : Env) (n : Nat) : CStr → Ptr → State → Option (State × Slot Ptr × Ptr) :=
  findWith (assureDir E n) n

def insertEntry (E : Env) (n : Nat) : CStr → Ptr → EntType → State → Option (State × Ptr) :=
  insertEntryWith (assureDir E n) E n

def loadEntry (E : Env) (k n : Nat) : CStr → Ptr → EntType → State → Option (State × Ptr) :=
  loadEntryWith (assureDir E k) E k n

-- ---------------------------------------------------------------------------
-- The functions of fs.h
-- ---------------------------------------------------------------------------

def fsResolve (E : Env) (n : Nat) (name : CStr) (par : Ptr) (s : State) : Option (State × Ptr) := do
  let (s, sl, _) ← find E n name par s
  some (s, (s.links par).load sl)

def fsMkdir (E : Env) (n : Nat) (name : CStr) (par : Ptr) (s : State) : Option (State × Ptr) := do
  let (s, sl, lpar) ← find E n name par s
  let (s, e) ← replaceEntry E n name par .DIRECTORY sl lpar s
  some (s.modify e fun v => { v with flags.present := true, flags.hasdata := true }, e)

def fsMkvdir (E : Env) (n : Nat) (name : CStr) (par : Ptr) (s : State) : Option (State × Ptr) := do
  let (s, e) ← fsMkdir E n name par s
  some (s.modify e fun v => { v with flags.virt := true }, e)

def fsEnter (E : Env) (n : Nat) (name : CStr) (data : Ptr) (size : Nat) (par : Ptr) (s : State) :
    Option (State × Ptr) := do
  let (s, ent) ← insertEntry E n name par .FILE s
  some (s.modify ent fun v => { v with flags.virt := true, data := data, size := size }, ent)

/-- The character `/`. -/
abbrev slash : UInt8 := 47

/-- One round of the loop of `fs_retrieve`. -/
def retrieveBody (E : Env) (n : Nat) :
    State × List UInt8 × Ptr → (State × List UInt8 × Ptr) ⊕ Option (State × Ptr)
  | (s, name, x) =>
    if name = [] then .inr (some (s, x))
    else if x = NULL ∨ (s.ent x).type ≠ .DIRECTORY then .inr none
    else
      match fsResolve E n (.ofChars (name.takeWhile (· ≠ slash))) x s with
      | none => .inr none
      | some (s, x) => .inl (s, (name.dropWhile (· ≠ slash)).tail, x)

/-- `fs_retrieve`; the copy of the name that it works on is not tracked. -/
def fsRetrieve (E : Env) (n : Nat) (name0 : CStr) (x : Ptr) (s : State) : Option (State × Ptr) :=
  let name := if name0.chars.head? = some slash then name0.chars.tail else name0.chars
  let x := if name0.chars.head? = some slash then s.rootDir else x
  if x = NULL then some (s, NULL) else (iterate (retrieveBody E n) n (s, name, x)).join

/-- `leftmost`. -/
def leftmost (k : Nat) (x : Ptr) (s : State) : Option Ptr :=
  if x = NULL then some x else iterate ((s.links NULL).leftmostBody NULL) k x

def fsFirst (E : Env) (k : Nat) (x : Ptr) (s : State) : Option (State × Ptr) := do
  let s ← assureDir E k x s
  let e ← leftmost k (s.ent x).root s
  some (s, e)

def fsNext (k : Nat) (x : Ptr) (s : State) : Option Ptr :=
  if (s.ent x).right ≠ NULL then leftmost k (s.ent x).right s
  else iterate ((s.links NULL).climbBody NULL) k x

/-- One round of the loop of `fs_size`. -/
def sizeBody (E : Env) (e : Ptr) : State × Nat → (State × Nat) ⊕ Option State
  | (s, n) =>
    if n = NULL then .inr (some s)
    else if nodeType s.mem n ≠ some .BLOCK then .inr none
    else
      let s := s.modify e fun v => { v with size := (v.size + blockSize s.mem n) % wordSize }
      match resolveNode E (blockNext s.mem n) s with
      | none => .inr none
      | some r => .inl r

def fsSize (E : Env) (k : Nat) (e : Ptr) (s : State) : Option (State × Nat) :=
  if e = NULL ∨ (s.ent e).type ≠ .FILE then none
  else if (s.ent e).size ≠ fsSizeUnknown then some (s, (s.ent e).size)
  else if (s.ent e).flags.virt ∨ (s.ent e).node = NULL then none
  else do
    let (s, n) ← resolveNode E (commonData s.mem (s.ent e).node) s
    let s := s.modify e fun v => { v with size := 0 }
    let s ← (iterate (sizeBody E e) k (s, n)).join
    some (s, (s.ent e).size)

/-- The variables of the loop of `fs_read`, with the bytes stored so far. -/
structure ReadState where
  fs   : State
  addr : Nat
  rem  : Nat
  node : Nat
  buf  : List UInt8

/-- One round of the loop of `fs_read`. -/
def readBody (E : Env) (r : ReadState) : ReadState ⊕ Option ReadState :=
  if r.rem = 0 ∨ r.node = NULL then .inr (some r)
  else if nodeType r.fs.mem r.node ≠ some .BLOCK then .inr none
  else
    let size := blockSize r.fs.mem r.node
    if size ≤ r.addr then .inl { r with addr := r.addr - size }
    else
      let a := (blockLba r.fs.mem r.node * headerPageSize r.fs.mem rfsmbLoc + r.addr) % wordSize
      let s := if r.rem < size then r.rem else size
      match resolveNode E (blockNext r.fs.mem r.node) r.fs with
      | none => .inr none
      | some (fs, n) => .inl ⟨fs, 0, r.rem - s, n, r.buf ++ E.disk.slice a s⟩

/-- `fs_read`: the count it returns and the bytes it stores at `buf`. -/
def fsRead (E : Env) (k : Nat) (addr size : Nat) (e : Ptr) (s : State) :
    Option (State × Nat × List UInt8) :=
  if (s.ent e).type ≠ .FILE then some (s, 0, [])
  else if (s.ent e).size ≤ addr then some (s, 0, [])
  else do
    let (s, fsz) ← fsSize E k e s
    let max := wsub fsz addr
    let size := if max < size then max else size
    if size = 0 then some (s, 0, [])
    else if (s.ent e).flags.hooked then
      if (s.ent e).readHook = NULL then some (s, 0, [])
      else
        let r := E.hook (s.ent e).readHook addr size (s.ent e).data
        some (s, r.1, r.2)
    else if (s.ent e).flags.present ∨ (s.ent e).flags.virt then
      if addr < (s.ent e).size then
        let size := if (s.ent e).size < (addr + size) % wordSize then wsub (s.ent e).size addr
          else size
        some (s, size, s.mem.slice ((s.ent e).data + addr) size)
      else some (s, size, [])
    else if (s.ent e).node = NULL then none
    else do
      let (s, n) ← resolveNode E (commonData s.mem (s.ent e).node) s
      let r ← (iterate (readBody E) k ⟨s, addr, size, n, []⟩).join
      some (r.fs, size - r.rem, r.buf)

/-- The functions that write hooks point to: given the bytes, they answer a count and
leave a memory. -/
abbrev WriteHook := Ptr → List UInt8 → Nat → Ptr → Memory → Nat × Memory

/-- `fs_write` of the bytes at `buf`, of which there are `size`. -/
def fsWrite (W : WriteHook) (buf : List UInt8) (addr size : Nat) (e : Ptr) (s : State) :
    Option (State × Nat) :=
  if (s.ent e).type ≠ .FILE then some (s, 0)
  else if (s.ent e).flags.hooked then
    if (s.ent e).writeHook = NULL then some (s, 0)
    else
      let r := W (s.ent e).writeHook buf addr (s.ent e).data s.mem
      some ({ s with mem := r.2 }, r.1)
  else if (s.ent e).flags.virt then
    if addr < (s.ent e).size then
      let size := if (s.ent e).size < (addr + size) % wordSize then wsub (s.ent e).size addr
        else size
      some ({ s with mem := s.mem.blit ((s.ent e).data + addr) (buf.take size) }, size)
    else some (s, size)
  else none

end Frosk.Fs

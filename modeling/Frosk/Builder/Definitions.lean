import Mathlib.Tactic
import Frosk.Lib.Run
import Frosk.Fs.Node

/-!
# The image builder: definitions

The embedding of the allocator of `util/fsb/src/fs.c`, which hands out the nodes of
metadata blocks.

* Nodes and metadata blocks are records at addresses. What `malloc` returns holds
  whatever was there.
* `u.free.next` and `u.branch.sub` are the same bytes of the union of a node, so they
  are one field here.
* `unsigned` arithmetic is modulo `2^32`.
* A function that does not return (an assertion fails, or a bound is too small)
  yields `none`.
-/

namespace Frosk.Builder

open Lib Fs

/-- `unsigned` arithmetic is modulo `2^32`. -/
abbrev uintSize : Nat := 0x100000000

/-- The macro `align` of `fs.c`, which goes up from a multiple too. -/
def align (addr n : Nat) : Nat := addr - addr % n + n

/-- `node_t`, with the part of the union that the allocator uses. -/
structure Node where
  type     : FnodeType
  size     : Nat
  ptr      : Nat
  location : Ptr
  next     : Ptr
  prev     : Ptr
  freeNext : Ptr
  freePrev : Ptr

/-- `u.branch.sub`. -/
def Node.setSub (m : Ptr) (n : Node) : Node := { n with freeNext := m }

/-- `meta_t`. -/
structure Meta where
  lba   : Nat
  shift : Nat
  subs  : Nat
  first : Ptr

structure Env where
  malloc : Kalloc

/-- The variable `fs`, with the nodes and metadata blocks that were allocated. -/
structure State where
  node      : Ptr → Node
  nodes     : List Ptr
  metaAt    : Ptr → Meta
  metas     : List Ptr
  blockSize : Nat
  nextLba   : Nat
  freeMeta  : Ptr

namespace State

def modify (s : State) (n : Ptr) (f : Node → Node) : State :=
  { s with node := Function.update s.node n (f (s.node n)) }

theorem modify_node_self (s : State) (n : Ptr) (f : Node → Node) :
    (s.modify n f).node n = f (s.node n) :=
  Function.update_self ..

theorem modify_node_ne {s : State} {n y : Ptr} (h : y ≠ n) (f : Node → Node) :
    (s.modify n f).node y = s.node y :=
  Function.update_of_ne h ..

def modifyMeta (s : State) (m : Ptr) (f : Meta → Meta) : State :=
  { s with metaAt := Function.update s.metaAt m (f (s.metaAt m)) }

/-- `ENTRY_SIZE`. -/
def entrySize (s : State) : Nat := s.blockSize / 0x100

/-- What `malloc` has to avoid. -/
def used (s : State) : List Ptr := s.nodes ++ s.metas

def hdrSize (s : State) : Nat := align sizeofHeader s.entrySize

end State

/-- `new_meta`. -/
def newMeta (E : Env) (branch : Ptr) (s : State) : Option (State × Ptr) :=
  let fr := E.malloc.pick s.used
  let m := E.malloc.pick (fr :: s.used)
  if branch ≠ NULL ∧ ¬ (s.metaAt (s.node branch).location).shift < 24 then none
  else
    let shift := if branch ≠ NULL then (s.metaAt (s.node branch).location).shift + 8 else 0
    let ptr := if branch ≠ NULL then (s.node branch).ptr else s.hdrSize / s.entrySize
    let size := if branch ≠ NULL then s.blockSize else s.blockSize - s.hdrSize
    some ({ s with
      node := Function.update s.node fr { s.node fr with
        type := .FREE, next := NULL, prev := NULL, location := m, ptr := ptr, size := size,
        freeNext := s.freeMeta, freePrev := NULL }
      nodes := fr :: s.nodes
      metaAt := Function.update s.metaAt m ⟨s.nextLba, shift, 0, fr⟩
      metas := m :: s.metas
      nextLba := (s.nextLba + 2) % wordSize
      freeMeta := fr }, m)

-- ---------------------------------------------------------------------------
-- find_free and new_node
-- ---------------------------------------------------------------------------

/-- One round of the loop of `find_free`. -/
def findFreeBody (s : State) (size : Nat) (f : Ptr) : Ptr ⊕ Option Ptr :=
  if f ≠ NULL ∧ (s.node f).size < size then
    if (s.node f).type ≠ .FREE then .inr none else .inl (s.node f).freeNext
  else .inr (some f)

def findFree (k size : Nat) (s : State) : Option Ptr :=
  if s.freeMeta ≠ NULL ∧ (s.node s.freeMeta).type ≠ .FREE then none
  else (iterate (findFreeBody s size) k s.freeMeta).join

/-- The end of `new_nodeh`: a node of `size` bytes out of the node `fnd`. -/
def carve (E : Env) (size : Nat) (fnd : Ptr) (s : State) : Option (State × Ptr) :=
  if (s.node fnd).size = size then
    let p := (s.node fnd).freePrev
    let next := (s.node fnd).freeNext
    some (if p = NULL then { s with freeMeta := next }
      else s.modify p fun v => { v with freeNext := next }, fnd)
  else
    let new := E.malloc.pick s.used
    let ptr := (s.node fnd).ptr
    let loc := (s.node fnd).location
    let s := { s with nodes := new :: s.nodes }.modify new fun v =>
      { v with size := size, ptr := ptr, location := loc }
    let step := size / s.entrySize * 2 ^ (s.metaAt loc).shift
    let s := s.modify fnd fun v => { v with
      ptr := (v.ptr + step) % uintSize, size := (v.size + (uintSize - size)) % uintSize }
    if (s.node fnd).size % s.entrySize ≠ 0 then none
    else
      let prev := (s.node fnd).prev
      let s := if prev ≠ NULL then s.modify prev fun v => { v with next := new }
        else s.modifyMeta loc fun v => { v with first := new }
      let s := s.modify new fun v => { v with prev := prev, next := fnd }
      some (s.modify fnd fun v => { v with prev := new }, new)

/-- The size of a node, given the size that is asked for. -/
def State.aligned (s : State) (size : Nat) : Nat :=
  align (size + fnodeAddSize) s.entrySize % uintSize

/-- `new_nodeh`, given what it does without a free node; the warning it prints is
left out. -/
def newNodehWith (more : State → Option (State × Ptr)) (E : Env) (k size : Nat) (s : State) :
    Option (State × Ptr) := do
  let fnd ← findFree k (s.aligned size) s
  let (s, fnd) ← (if fnd = NULL then more s else some (s, fnd))
  if fnd = NULL then some (s, NULL) else carve E (s.aligned size) fnd s

/-- A new metadata block, below a branch node. -/
def newBranch (E : Env) (k : Nat) (s : State) : Option (State × Ptr) := do
  let (s, fnd) ← newNodehWith (fun s => some (s, NULL)) E k sizeofBranch s
  if fnd = NULL then none
  else do
    let s := s.modify fnd fun v => { v with type := .BRANCH }
    let (s, m) ← newMeta E fnd s
    some (s.modify fnd (Node.setSub m), fnd)

/-- `new_node`. -/
def newNode (E : Env) (k size : Nat) (s : State) : Option (State × Ptr) :=
  newNodehWith (newBranch E k) E k size s

end Frosk.Builder

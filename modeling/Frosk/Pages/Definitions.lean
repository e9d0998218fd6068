import Mathlib.Tactic
import Frosk.Lib.Ring
import Frosk.Lib.Range
import Frosk.Common

/-!
# Page pools: definitions

The embedding of `kernel/src/memory/pages.c`: two pools of pages, physical and
virtual, each a ring of nodes that describe free ranges, with an entry node
`heads[type]` that is a node like the others.

The node records live in kernel storage. `live` is the part of it that nodes
occupy; `kfree` takes a record out of it and leaves its bytes as they are, so
that a ring which goes through a freed node can still be followed, as it can in
the kernel until the storage is handed out again.
-/

namespace Frosk.Pages

open Lib

/-- `PHYS_PAGES` and `VIRT_PAGES`. -/
inductive PageType where
  | PHYS_PAGES
  | VIRT_PAGES
deriving DecidableEq, Repr

/-- `INVALID_PAGE`, as the `ulong` that `alloc_pgs` returns. -/
abbrev invalidPage : Nat := wordSize - 1

/-- `pages_t`. -/
structure Node where
  addr : Nat
  size : Nat
  next : Ptr
deriving DecidableEq, Repr

structure State where
  heads : PageType → Ptr
  node  : Ptr → Node
  live  : List Ptr

namespace State

def next (s : State) (p : Ptr) : Ptr := (s.node p).next

/-- The range that the node at `p` describes. -/
def range (s : State) (p : Ptr) : Nat × Nat := ((s.node p).addr, (s.node p).size)

def setNode (s : State) (p : Ptr) (n : Node) : State :=
  { s with node := Function.update s.node p n }

def setNext (s : State) (p v : Ptr) : State := s.setNode p { s.node p with next := v }

def setSize (s : State) (p : Ptr) (v : Nat) : State := s.setNode p { s.node p with size := v }

def setAddr (s : State) (p : Ptr) (v : Nat) : State := s.setNode p { s.node p with addr := v }

/-- `kalloc(sizeof(pages_t))`, with the fields stored into it. -/
def kalloc (K : Kalloc) (s : State) (n : Node) : State :=
  { s with node := Function.update s.node (K.pick s.live) n, live := K.pick s.live :: s.live }

def kfree (s : State) (p : Ptr) : State := { s with live := s.live.erase p }

end State

/-- The loop both functions share: from the node behind the head until one is
found or the head has been looked at. -/
def search (s : State) (ty : PageType) (hit : Ptr → Bool) (fuel : Nat) :
    Option ((Ptr × Ptr) × Bool) :=
  iterate (scanBody s.next hit fun cur _ => cur == s.heads ty) fuel
    (s.heads ty, s.next (s.heads ty))

/-- What `alloc_pgs` does at a node that is large enough. -/
def take (prev pg : Ptr) (size : Nat) (s : State) : Nat × State :=
  if (s.node pg).size = size then
    ((s.node pg).addr, (s.setNext prev (s.node pg).next).kfree pg)
  else
    let s := s.setSize pg ((s.node pg).size - size)
    (((s.node pg).addr + (s.node pg).size) % wordSize, s)

/-- `alloc_pgs`, with a bound on the rounds of its loop. -/
def allocPgs (size : Nat) (ty : PageType) (s : State) (fuel : Nat) : Option (Nat × State) :=
  let size := align size pageSize
  (search s ty (fun p => size ≤ (s.node p).size) fuel).map fun
    | ((prev, pg), true) => take prev pg size s
    | (_, false) => (invalidPage, s)

/-- What `free_pgs` does at a node that the range borders on. -/
def join (pg : Ptr) (addr size : Nat) (s : State) : State :=
  if ((s.node pg).addr + (s.node pg).size) % wordSize = addr then
    s.setSize pg (((s.node pg).size + size) % wordSize)
  else (s.setSize pg (((s.node pg).size + size) % wordSize)).setAddr pg addr

/-- What `free_pgs` does where the range borders on no node: a new node behind
the head. -/
def insert (K : Kalloc) (ty : PageType) (addr size : Nat) (s : State) : State :=
  (s.kalloc K ⟨addr, size, s.next (s.heads ty)⟩).setNext (s.heads ty) (K.pick s.live)

/-- `free_pgs`, with a bound on the rounds of its loop. -/
def freePgs (K : Kalloc) (addr size : Nat) (ty : PageType) (s : State) (fuel : Nat) :
    Option State :=
  let size := floor size pageSize
  let borders := fun p => ((s.node p).addr + (s.node p).size) % wordSize = addr ∨
    (addr + size) % wordSize = (s.node p).addr
  (search s ty (fun p => borders p) fuel).map fun
    | ((_, pg), true) => join pg addr size s
    | (_, false) => insert K ty addr size s

end Frosk.Pages

import Mathlib.Tactic
import Frosk.Lib.Ring
import Frosk.Lib.Range
import Frosk.Common

/-!
# Kernel heap: definitions

The embedding of `kernel/src/memory/kernel.c`: chunks with a header of two words
in front, the free ones on a ring that `head` roves along, and one more page of
free memory, `staged`, that is brought in when the ring has nothing large
enough.

* Chunk headers are records at multiples of their size, so a header is named by
  its address. A header that is no longer in use keeps what was last stored in
  it.
* `PageSource` is `alloc_pgs` (twice) and `pageto` as this file uses them: they
  give a page aligned range of fresh, mapped pages, or fail. `pages` are the
  pages the heap was given so far.
* A function that cannot return (an assertion fails, or the source reads
  through `NULL`) yields `none`.
-/

namespace Frosk.KernelHeap

open Lib

/-- `sizeof(chunk_t)`. -/
abbrev sizeofChunk : Nat := 16

/-- `ADJ_PAGE_SIZE`. -/
abbrev adjPageSize : Nat := pageSize - sizeofChunk

/-- `KMEM_START`. -/
abbrev kmemStart : Nat := 0xA000

/-- `chunk_t`. -/
structure Chunk where
  size : Nat
  next : Nat
deriving DecidableEq, Repr

structure Heap where
  head           : Nat
  staged         : Nat
  chunk          : Nat → Chunk
  freeKernelSize : Nat
  pages          : List Nat

namespace Heap

def next (h : Heap) (c : Nat) : Nat := (h.chunk c).next

def size (h : Heap) (c : Nat) : Nat := (h.chunk c).size

def setNext (h : Heap) (c v : Nat) : Heap :=
  { h with chunk := Function.update h.chunk c { h.chunk c with next := v } }

def setSize (h : Heap) (c v : Nat) : Heap :=
  { h with chunk := Function.update h.chunk c { h.chunk c with size := v } }

def setHead (h : Heap) (v : Nat) : Heap := { h with head := v }

/-- `free_kernel_size += n`. -/
def addFree (h : Heap) (n : Nat) : Heap :=
  { h with freeKernelSize := (h.freeKernelSize + n) % wordSize }

/-- `free_kernel_size -= n`. -/
def subFree (h : Heap) (n : Nat) : Heap := { h with freeKernelSize := wsub h.freeKernelSize n }

/-- The address after the chunk, `(ulong)(c + 1) + c->size`. -/
def top (h : Heap) (c : Nat) : Nat := (c + sizeofChunk + h.size c) % wordSize

/-- The pages of a range of `n` bytes at `v` are the heap's. -/
def addPages (h : Heap) (v n : Nat) : Heap :=
  { h with pages := (List.range (n / pageSize)).map (fun k => v + k * pageSize) ++ h.pages }

end Heap

/-- `setup_kernel_memory`, in memory that holds anything. -/
def setupKernelMemory (chunk : Nat → Chunk) : Heap :=
  let h : Heap := ⟨kmemStart, kmemStart + pageSize, chunk, adjPageSize,
    [kmemStart, kmemStart + pageSize]⟩
  ((h.setSize kmemStart adjPageSize).setNext kmemStart kmemStart).setSize
    (kmemStart + pageSize) adjPageSize

/-- `stage_new_page`. -/
def stageNewPage (S : PageSource) (h : Heap) : Option Heap :=
  (S.pick pageSize h.pages).map fun virt =>
    ({ h.addPages virt pageSize with staged := virt }).setSize virt adjPageSize

-- ---------------------------------------------------------------------------
-- _kalloc
-- ---------------------------------------------------------------------------

/-- The end of `_kalloc`: the request is met from the chunk at `head`. -/
def take (prev size : Nat) (h : Heap) : Option (Nat × Heap) :=
  if h.size h.head = size then
    some (h.head + sizeofChunk,
      (if prev = h.head then h.setHead NULL
      else (h.setHead (h.next h.head)).setNext prev (h.next h.head)).subFree size)
  else if size + sizeofChunk ≤ h.size h.head then
    let h := h.setSize h.head (h.size h.head - (size + sizeofChunk))
    let ret := h.head + sizeofChunk + h.size h.head
    some (ret + sizeofChunk, ((h.setSize ret size).subFree sizeofChunk).subFree size)
  else none

/-- The staged page goes behind the chunk at `head`, which moves on to it. -/
def addStaged (S : PageSource) (h : Heap) : Option Heap :=
  if h.staged = NULL then none
  else
    let h := h.addFree (h.size h.staged)
    stageNewPage S
      (((h.setNext h.staged (h.next h.head)).setNext h.head h.staged).setHead h.staged)

/-- The staged page becomes a ring of its own. -/
def onlyStaged (S : PageSource) (h : Heap) : Option Heap :=
  if h.staged = NULL then none
  else
    let h := (h.addFree (h.size h.staged)).setHead h.staged
    stageNewPage S (h.setNext h.head h.head)

/-- A request larger than a page: new pages, put behind `head`. Nothing was
stored in `prev` on this path; `prev` is what the register held. -/
def kallocBig (S : PageSource) (prev size : Nat) (h : Heap) : Option (Nat × Heap) :=
  let adj := align ((size + sizeofChunk) % wordSize) pageSize
  (S.pick adj h.pages).bind fun virt =>
    if h.head = NULL then none
    else
      let h := (h.addPages virt adj).setSize virt (wsub adj sizeofChunk)
      let h := h.setNext virt (h.next (h.next h.head))
      take prev size ((h.setNext h.head virt).setHead virt)

/-- The loop of `_kalloc`, from the chunk behind `head`: it ends at a chunk that
is large enough, or when it is about to come to its first chunk again. -/
def kallocSearch (h : Heap) (size fuel : Nat) : Option ((Nat × Nat) × Bool) :=
  iterate (scanBody h.next (fun c => size ≤ h.size c) fun _ n => n == h.next h.head) fuel
    (h.head, h.next h.head)

/-- `_kalloc`, with a bound on the rounds of its loop. -/
def kalloc (S : PageSource) (junk size : Nat) (h : Heap) (fuel : Nat) : Option (Nat × Heap) :=
  let size := align size sizeofChunk
  if adjPageSize < size then kallocBig S junk size h
  else if h.head ≠ NULL then
    (kallocSearch h size fuel).bind fun
      | ((prev, cur), true) => take prev size (h.setHead cur)
      | ((prev, cur), false) => (addStaged S (h.setHead cur)).bind (take prev size)
  else (onlyStaged S h).bind (take h.staged size)

-- ---------------------------------------------------------------------------
-- _kfree
-- ---------------------------------------------------------------------------

/-- The chunk `it` lies right above the block, or right below it. -/
def adjacent (h : Heap) (ptr ck it : Nat) : Bool :=
  it == (ptr + h.size ck) % wordSize || ck == h.top it

/-- The loop of `_kfree`, from the chunk behind `head` round to `head`. -/
def kfreeSearch (h : Heap) (ptr ck fuel : Nat) : Option ((Nat × Nat) × Bool) :=
  iterate (scanBody h.next (adjacent h ptr ck) fun cur _ => cur == h.head) fuel
    (h.head, h.next h.head)

/-- The block takes the place of the chunk above it, or is added to the chunk
below it. -/
def merge (ptr ck prev it : Nat) (h : Heap) : Heap :=
  if it = (ptr + h.size ck) % wordSize then
    let h := h.setNext prev ck
    let h := h.setNext ck (h.next it)
    (h.setSize ck ((h.size ck + (h.size it + sizeofChunk)) % wordSize)).addFree sizeofChunk
  else (h.setSize it ((h.size it + (h.size ck + sizeofChunk)) % wordSize)).addFree sizeofChunk

/-- `_kfree`, with a bound on the rounds of its loop. -/
def kfree (ptr : Nat) (h : Heap) (fuel : Nat) : Option Heap :=
  let ck := wsub ptr sizeofChunk
  let h := h.addFree (h.size ck)
  if h.head = NULL then some ((h.setHead ck).setNext ck ck)
  else (kfreeSearch h ptr ck fuel).map fun
    | ((prev, it), true) => merge ptr ck prev it h
    | (_, false) => (h.setNext ck (h.next h.head)).setNext h.head ck

end Frosk.KernelHeap

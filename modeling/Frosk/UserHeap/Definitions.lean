import Mathlib.Tactic
import Frosk.Lib.Ring
import Frosk.Common

/-!
# User heap: definitions

The embedding of `malloc` and `free` of `lib/cstd/src/malloc.c`: one range of
the low half, divided into chunks with a header of two words in front, and a
list of the free chunks in ascending order of address.

Chunk headers are records at multiples of their size, so a header is named by
its address. In `free`, `sizeof(chunk)` is the size of a pointer, half the size
of the header it stands for; the definitions keep the two apart as the source
does. An access through `NULL` yields `none`.
-/

namespace Frosk.UserHeap

open Lib

/-- `sizeof(chunk_t)`. -/
abbrev sizeofChunk : Nat := 16

/-- `sizeof(chunk)`, where `chunk` is a pointer. -/
abbrev sizeofPtr : Nat := 8

/-- `HALF_LOW`. -/
abbrev halfLow : Nat := lowHalfTop / 2

/-- Where the linker put `_heap_bottom`. -/
structure Layout where
  heapBottom : Nat
  pos        : 0 < heapBottom
  fits       : heapBottom + sizeofChunk ≤ halfLow

/-- `HEAP_SIZE`. -/
def Layout.heapSize (L : Layout) : Nat := halfLow - sizeofChunk - L.heapBottom

/-- The aligned `_heap_bottom`. -/
def Layout.heapStart (L : Layout) : Nat := align L.heapBottom sizeofChunk

/-- The end of the first chunk. -/
def Layout.heapTop (L : Layout) : Nat := L.heapStart + sizeofChunk + L.heapSize

/-- `chunk_t`. -/
structure Chunk where
  next : Nat
  size : Nat
deriving DecidableEq, Repr

structure Heap where
  head  : Nat
  chunk : Nat → Chunk

/-- What `pnext` points to: `head`, or the `next` field of a chunk. -/
inductive Slot where
  | head
  | next (c : Nat)
deriving DecidableEq, Repr

namespace Heap

def next (h : Heap) (c : Nat) : Nat := (h.chunk c).next

def size (h : Heap) (c : Nat) : Nat := (h.chunk c).size

def setNext (h : Heap) (c v : Nat) : Heap :=
  { h with chunk := Function.update h.chunk c { h.chunk c with next := v } }

def setSize (h : Heap) (c : Nat) (v : Nat) : Heap :=
  { h with chunk := Function.update h.chunk c { h.chunk c with size := v } }

/-- `*pnext`. -/
def load (h : Heap) : Slot → Nat
  | .head => h.head
  | .next c => h.next c

/-- `*pnext = v`. -/
def store (h : Heap) (v : Nat) : Slot → Heap
  | .head => { h with head := v }
  | .next c => h.setNext c v

/-- `CHUNK_TOP`. -/
def chunkTop (h : Heap) (c : Nat) : Nat := (c + sizeofChunk + h.size c) % wordSize

end Heap

-- ---------------------------------------------------------------------------
-- malloc
-- ---------------------------------------------------------------------------

/-- The first chunk, made by the first call. -/
def firstChunk (L : Layout) (h : Heap) : Heap :=
  (({ h with head := L.heapStart }).setSize L.heapStart L.heapSize).setNext L.heapStart NULL

/-- One round of the search, at the chunk `ch` that the slot holds. -/
def mallocBody (h : Heap) (size : Nat) : Slot × Nat → (Slot × Nat) ⊕ Option (Slot × Nat)
  | (pnext, ch) =>
    if ch = NULL then .inr none
    else if size ≤ h.size ch then .inr (some (pnext, ch))
    else .inl (.next ch, h.next ch)

/-- Taking the chunk that was found. The header of a chunk that is divided
keeps the size it had. -/
def grant (h : Heap) (size : Nat) (pnext : Slot) (ch : Nat) : Heap :=
  if h.size ch ≤ (size + sizeofChunk) % wordSize then h.store (h.next ch) pnext
  else
    let h := h.store ((ch + sizeofChunk * (1 + size / sizeofChunk)) % wordSize) pnext
    let h := h.setNext (h.load pnext) (h.next ch)
    h.setSize (h.load pnext) (wsub (wsub (h.size ch) size) sizeofChunk)

/-- `malloc` once the list exists and the size is rounded up. -/
def mallocFrom (h : Heap) (size fuel : Nat) : Option (Nat × Heap) :=
  (iterate (mallocBody h size) fuel (.head, h.head)).map fun
    | none => (NULL, h)
    | some (pnext, ch) => ((ch + sizeofChunk) % wordSize, grant h size pnext ch)

/-- `malloc`. -/
def malloc (L : Layout) (size : Nat) (h : Heap) (fuel : Nat) : Option (Nat × Heap) :=
  mallocFrom (if h.head = NULL then firstChunk L h else h) (align size sizeofChunk) fuel

-- ---------------------------------------------------------------------------
-- free
-- ---------------------------------------------------------------------------

/-- A chunk below all free ones. -/
def freeFirst (h : Heap) (chunk : Nat) : Heap :=
  if h.chunkTop chunk = h.head then
    let h := h.setSize chunk ((h.size chunk + (h.size h.head + sizeofPtr)) % wordSize)
    { h.setNext chunk (h.next h.head) with head := chunk }
  else { h.setNext chunk h.head with head := chunk }

/-- One round of the search for the free chunk before `chunk`. -/
def priorBody (h : Heap) (chunk prior : Nat) : Nat ⊕ Nat :=
  if h.next prior ≠ NULL ∧ h.next prior < chunk then .inl (h.next prior) else .inr prior

/-- A chunk above the free chunk `prior`. -/
def freeAfter (h : Heap) (prior chunk : Nat) : Heap :=
  if h.chunkTop prior = chunk then
    let h := h.setSize prior ((h.size prior + (sizeofPtr + h.size chunk)) % wordSize)
    if h.chunkTop prior = h.next prior then
      let h := h.setSize prior ((h.size prior + (h.size (h.next prior) + sizeofChunk)) % wordSize)
      h.setNext prior (h.next (h.next prior))
    else h
  else if h.chunkTop chunk = h.next prior then
    let h := h.setNext chunk (h.next (h.next prior))
    let h := h.setSize chunk ((h.size chunk + (h.size (h.next prior) + sizeofPtr)) % wordSize)
    h.setNext prior chunk
  else (h.setNext chunk (h.next prior)).setNext prior chunk

/-- `free`. -/
def free (p : Nat) (h : Heap) (fuel : Nat) : Option Heap :=
  let chunk := wsub p sizeofChunk
  if p = NULL then some h
  else if chunk < h.head then some (freeFirst h chunk)
  else if h.head = NULL then none
  else (iterate (priorBody h chunk) fuel h.head).map fun prior => freeAfter h prior chunk

end Frosk.UserHeap

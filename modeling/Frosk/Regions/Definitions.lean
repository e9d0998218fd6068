import Mathlib.Tactic
import Frosk.Lib.Bytes
import Frosk.Common

/-!
# Regions: definitions

The embedding of `kernel/src/memory/region.c`: parts of an address space, each a
range with the blocks of memory that are behind it, which are mapped as a whole
(`swapin`) and unmapped (`swapout`), and which get a new block where one is
missing (`assure`).

* The blocks of a region are the list from `first` on. `in` is the list of
  regions that are swapped in, without its cells.
* `map` is the page map: the entry of each page, as `pageto` sets it. Physical
  memory is `mem`, and the kernel stores through the map.
* `frames` and `vpages` are the pages `alloc_pgs` handed out, of either kind.
* `refused` counts how often `swapin` returned 0, which none of its callers
  looks at.
* A function that does not return says why: there are no pages left, an
  assertion failed, or the kernel hangs.
-/

namespace Frosk.Regions

open Lib

/-- Why a call does not return. -/
inductive Fault where
  | noPages
  | assertion
  | hang
deriving DecidableEq, Repr

/-- `block_t`. -/
structure Block where
  virt : Nat
  phys : Nat
  size : Nat
deriving DecidableEq, Repr

/-- `region_t`. -/
structure Region where
  virt   : Nat
  size   : Nat
  blocks : List Block
  growup : Bool
deriving DecidableEq, Repr

/-- The allocators. Frames have addresses of 52 bits, as entries hold them, and
virtual pages are those of the high half. -/
structure Env where
  kalloc : Kalloc
  phys   : PageSource
  virt   : PageSource
  wide   : ∀ {n l v}, phys.pick n l = some v → v + n ≤ 2 ^ 52
  high   : ∀ {n l v}, virt.pick n l = some v → highHalfBot ≤ v

/-- Regions, and the memory and page map they are of. -/
structure Space where
  rgn     : Ptr → Region
  used    : List Ptr
  swapped : List Ptr
  map     : Nat → Nat
  mem     : Memory
  frames  : List Nat
  vpages  : List Nat
  refused : Nat

/-- The macro `region_lower`. -/
def Region.lower (r : Region) : Nat := if r.growup then r.virt else wsub r.virt r.size

/-- The macro `region_upper`. -/
def Region.upper (r : Region) : Nat := if r.growup then (r.virt + r.size) % wordSize else r.virt

/-- The pages of `n` bytes from `v` on. -/
def pageRange (v n : Nat) : List Nat :=
  (List.range ((n + (pageSize - 1)) / pageSize)).map fun k => v + k * pageSize

/-- A new object at a fresh address. -/
def Space.alloc (E : Env) (s : Space) : Space × Ptr :=
  ({ s with used := E.kalloc.pick s.used :: s.used }, E.kalloc.pick s.used)

def Space.modify (s : Space) (r : Ptr) (f : Region → Region) : Space :=
  { s with rgn := Function.update s.rgn r (f (s.rgn r)) }

-- ---------------------------------------------------------------------------
-- Pages
-- ---------------------------------------------------------------------------

/-- `alloc_pgs(n, PHYS_PAGES)`. -/
def allocPhys (E : Env) (n : Nat) (s : Space) : Except Fault (Space × Nat) :=
  match E.phys.pick n s.frames with
  | none => .error .noPages
  | some v => .ok ({ s with frames := pageRange v n ++ s.frames }, v)

/-- `alloc_pgs(n, VIRT_PAGES)`. -/
def allocVirt (E : Env) (n : Nat) (s : Space) : Except Fault (Space × Nat) :=
  match E.virt.pick n s.vpages with
  | none => .error .noPages
  | some v => .ok ({ s with vpages := pageRange v n ++ s.vpages }, v)

/-- `free_pgs(v, n, VIRT_PAGES)`, which leaves a last page that is not full. -/
def freeVirt (v n : Nat) (s : Space) : Space :=
  { s with vpages := s.vpages.filter (· ∉ pageRange v (floor n pageSize)) }

def pageto (virt value : Nat) (s : Space) : Except Fault Space :=
  if virt % pageSize ≠ 0 then .error .assertion
  else .ok { s with map := Function.update s.map virt value }

/-- Where the kernel stores a byte at `a`: a page that is not present hangs it. -/
def storeByte (a : Nat) (b : UInt8) (s : Space) : Except Fault Space :=
  let e := s.map (a / pageSize * pageSize)
  if e % 2 = 1 then
    .ok { s with mem := s.mem.blit (e / pageSize % 2 ^ 40 * pageSize + a % pageSize) [b] }
  else .error .hang

def storeBytes : Nat → List UInt8 → Space → Except Fault Space
  | _, [], s => .ok s
  | a, b :: l, s => do
    let s ← storeByte a b s
    storeBytes (a + 1) l s

-- ---------------------------------------------------------------------------
-- region.c
-- ---------------------------------------------------------------------------

/-- `create_block`: no block for no size. -/
def createBlock (virt phys size : Nat) : List Block :=
  if size > 0 then [⟨virt, phys, align size pageSize⟩] else []

def allocBlock (E : Env) (virt size : Nat) (s : Space) : Except Fault (Space × List Block) := do
  let size := align size pageSize
  let (s, phys) ← allocPhys E size s
  .ok (s, createBlock virt phys size)

def allocate (E : Env) (virt size : Nat) (growup : Bool) (s : Space) :
    Except Fault (Space × Ptr) := do
  let (s, r) := s.alloc E
  let size := align size pageSize
  let (s, first) ← allocBlock E (if growup then virt else wsub virt size) size s
  .ok (s.modify r fun _ => ⟨virt, size, first, growup⟩, r)

/-- The value of a `long`. -/
def slong (n : Nat) : Int := if n < wordSize / 2 then n else (n : Int) - wordSize

def grow (r : Ptr) (upto : Nat) (s : Space) : Except Fault Space :=
  let v := s.rgn r
  let newSize := wsub upto v.virt
  if ¬ (v.growup ∨ slong newSize ≤ 0) then .error .assertion
  else if ¬ (¬ v.growup ∨ 0 ≤ slong newSize) then .error .assertion
  else
    let newSize := if v.growup then newSize else wsub 0 newSize
    if v.size < newSize then
      .ok (s.modify r fun v => { v with size := align newSize pageSize })
    else .error .assertion

def inRegion (r : Region) (addr : Nat) : Bool := r.lower ≤ addr ∧ addr < r.upper

/-- The block has the address. -/
def Block.has (b : Block) (addr : Nat) : Bool := b.virt ≤ addr ∧ (b.virt + b.size) % wordSize > addr

def assure (E : Env) (r : Ptr) (addr flags : Nat) (s : Space) : Except Fault (Space × Bool) :=
  if ¬ inRegion (s.rgn r) addr then .ok (s, false)
  else if (s.rgn r).blocks.any (·.has addr) then .ok (s, true)
  else do
    let (s, first) ← allocBlock E (floor addr pageSize) pageSize s
    match first with
    | [] => .error .hang
    | b :: _ =>
      let s ← pageto b.virt (b.phys ||| flags) s
      .ok (s.modify r fun v => { v with blocks := b :: v.blocks }, true)

/-- `overlap`, which takes the lower end of `y` for its upper one. -/
def overlap (x y : Region) : Bool :=
  let uy := y.lower
  x.lower < uy ∧ x.upper > y.lower

/-- The pages of a block, each with its offset. -/
def Block.offsets (b : Block) : List Nat := pageRange 0 b.size

/-- Each page of a block is given an entry. -/
def pageBlock (entry : Block → Nat → Nat) (b : Block) (s : Space) : Except Fault Space :=
  b.offsets.foldlM (fun s off => pageto ((b.virt + off) % wordSize) (entry b off) s) s

/-- The entry of a page of a block that is swapped in. -/
def blockEntry (flags : Nat) (b : Block) (off : Nat) : Nat := (b.phys + off) % wordSize ||| flags

def swapin (r : Ptr) (flags : Nat) (s : Space) : Except Fault (Space × Bool) :=
  if s.swapped.any fun y => overlap (s.rgn r) (s.rgn y) then
    .ok ({ s with refused := s.refused + 1 }, false)
  else do
    let s := { s with swapped := r :: s.swapped }
    let s ← (s.rgn r).blocks.foldlM (fun s b => pageBlock (blockEntry flags) b s) s
    .ok (s, true)

def swapout (r : Ptr) (s : Space) : Except Fault Space := do
  let s ← (s.rgn r).blocks.foldlM (fun s b =>
    if b.virt % pageSize ≠ 0 then .error .assertion else pageBlock (fun _ _ => 0) b s) s
  if r ∈ s.swapped then .ok { s with swapped := s.swapped.erase r } else .error .assertion

def swapflop (old new : Ptr) (flags : Nat) (s : Space) : Except Fault (Space × Bool) := do
  let s ← (if old ≠ NULL then swapout old s else .ok s)
  if new ≠ NULL then swapin new flags s else .ok (s, true)

def shiftRgn (r : Ptr) (nv : Nat) (s : Space) : Space :=
  s.modify r fun v => { v with
    virt := nv
    blocks := v.blocks.map fun b => { b with virt := wsub b.virt (wsub v.virt nv) } }

end Frosk.Regions

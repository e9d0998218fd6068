import Mathlib.Tactic
import Frosk.Lib.Radix
import Frosk.Lib.Bytes
import Frosk.Common

/-!
# Paging: definitions

The embedding of `getpage` and `pageto` of `kernel/src/paging.c` over physical
memory, with the tables `boot.asm` leaves.

* The processor walks four levels of tables, from the one at `PM_L4_LOC`, by
  nine bits of the address each. `walk` is the entry at the end of that walk;
  where a table is missing on the way there is nothing mapped, as with an entry
  of zero. An entry that leads to a table is a frame with the flags 7, so none
  of them is a large page.
* The kernel reads and writes through the tables it edits: `atq` and `atb`
  translate their address by `walk`. The table in hand is the one that the
  window page `PG_SWP_LOC` is mapped to. Every change of the window is followed
  by `invlpg`, so no access uses an older mapping.
* `Frames` is `alloc_pgs(PAGE_SIZE, PHYS_PAGES)`: given the frames in use, by
  number, another one, or none.
* An access to a page that is not mapped, and an assertion that fails, yield
  `none`.
-/

namespace Frosk.Paging

open Lib

abbrev pmL4Loc : Nat := 0x2000

abbrev pmL3Loc : Nat := 0x3000

abbrev pmL2Loc : Nat := 0x4000

abbrev pmL1Loc : Nat := 0x5000

abbrev pgSwpLoc : Nat := 0x6000

/-- `PG_SWP_ENT`, the entry that maps the window. -/
abbrev pgSwpEnt : Nat := pmL1Loc + pgSwpLoc / pageSize * 8

abbrev nonCanonSize : Nat := 0xFFFF000000000000

-- ---------------------------------------------------------------------------
-- The processor
-- ---------------------------------------------------------------------------

/-- The frame of a present entry: bits 12 to 51. -/
def entryFrame (e : Nat) : Option Nat := if e % 2 = 1 then some (e / 0x1000 % 2 ^ 40) else none

/-- Four levels, from the table at `PM_L4_LOC`. -/
def hw : Radix Nat (Fin 512) where
  idx d v := Fin.ofNat 512 (v / 2 ^ (39 - 9 * d))
  top := pmL4Loc / pageSize
  dec := entryFrame

/-- The entries of the tables in physical memory, a table being a frame. -/
def entries (m : Memory) : Entries (Fin 512) := fun t i => m.get 8 (t * pageSize + 8 * i)

/-- The entry for the page of an address. -/
def walk (m : Memory) (v : Nat) : Nat := hw.leaf (entries m) 3 v

/-- The physical address of a virtual one. -/
def translate (m : Memory) (a : Nat) : Option Nat :=
  (entryFrame (walk m a)).map fun f => f * pageSize + a % pageSize

/-- `atq(a)`, read. -/
def atq (m : Memory) (a : Nat) : Option Nat := (translate m a).map fun p => m.get 8 p

/-- `atq(a) = v`. -/
def setq (m : Memory) (a v : Nat) : Option Memory := (translate m a).map fun p => m.put 8 p v

/-- `atb(a) = b`. -/
def setb (m : Memory) (a : Nat) (b : UInt8) : Option Memory :=
  (translate m a).map fun p => m.blit p [b]

-- ---------------------------------------------------------------------------
-- boot.asm
-- ---------------------------------------------------------------------------

/-- One round of `.page_loop`. -/
def bootEntry (m : Memory) (i : Nat) : Memory := m.put 4 (pmL1Loc + i * 8) (i <<< 12 ||| 3)

/-- The tables at the start: the first two megabytes are mapped to themselves. -/
def bootTables (m : Memory) : Memory :=
  let m := m.blit pmL4Loc (List.replicate 0x4000 0)
  let m := m.put 4 pmL4Loc (pmL3Loc ||| 7)
  let m := m.put 4 pmL3Loc (pmL2Loc ||| 7)
  let m := m.put 4 pmL2Loc (pmL1Loc ||| 7)
  (List.range 512).foldl bootEntry m

-- ---------------------------------------------------------------------------
-- paging.c
-- ---------------------------------------------------------------------------

/-- Fresh frames, by number. -/
structure Frames where
  pick  : List Nat → Option Nat
  lt    : ∀ {l f}, pick l = some f → f < 2 ^ 40
  fresh : ∀ {l f}, pick l = some f → f ∉ l

/-- Physical memory, and the frames in use. -/
structure Machine where
  mem    : Memory
  frames : List Nat

def getEntry (addr tbl shf : Nat) : Nat := tbl + (addr >>> shf <<< 3 &&& 0xfff)

/-- The loop of `down` that clears the page in the window. -/
def clearWindow (m : Memory) : Option Memory :=
  (List.range pageSize).foldlM (fun m i => setb m (pgSwpLoc + i) 0) m

def down (S : Frames) (addr tbl shift : Nat) (s : Machine) : Option Machine :=
  (atq s.mem (getEntry addr tbl shift)).bind fun v =>
    if v &&& 1 = 0 then do
      let f ← S.pick s.frames
      let m ← setq s.mem (getEntry addr tbl shift) (f * pageSize ||| 7)
      let m ← setq m pgSwpEnt (f * pageSize ||| 7)
      let m ← clearWindow m
      some ⟨m, f :: s.frames⟩
    else (setq s.mem pgSwpEnt v).map fun m => ⟨m, s.frames⟩

/-- `getpage`: the address of the entry, in the window. -/
def getpage (S : Frames) (virt : Nat) (s : Machine) : Option (Machine × Nat) :=
  if virt % pageSize ≠ 0 then none
  else do
    let virt := if highHalfBot ≤ virt then virt - nonCanonSize else virt
    let s ← down S virt pmL4Loc 39 s
    let s ← down S virt pgSwpLoc 30 s
    let s ← down S virt pgSwpLoc 21 s
    some (s, getEntry virt pgSwpLoc 12)

def pageto (S : Frames) (virt value : Nat) (s : Machine) : Option Machine := do
  let (s, e) ← getpage S virt s
  let m ← setq s.mem e value
  some { s with mem := m }

end Frosk.Paging

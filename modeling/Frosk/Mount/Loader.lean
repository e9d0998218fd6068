import Mathlib.Tactic
import Frosk.Mount.Boot
import Frosk.Paging.Definitions

/-!
# Images in the kernel: the boot loader

The embedding of `boot/src/boot.asm` with `before/read.inc`, `after/detect.inc`, `after/fs.inc`
and `after/graphics.inc`, from the first instruction to the jump to `KERNEL_LOC`.

* `Bios` has all that the boot loader is told: by `int 0x13` the disk extensions, the medium and
  sectors, by `int 0x15` the memory map, by `int 0x10` the graphics mode, and by `cpuid` long mode.
  A read moves as many sectors as the packet asks for, but may fail, and has stored anything then
  where the sectors belong. One that asks for more sectors than the limit always fails.
* `error_str` says which error there is (`Error`); what `error16` shows of it is left out.
* `dap` and `error_str` are in the first sector, and are stored to there. Where is up to the
  assembler (`Loader`).
* What else the boot loader stores goes to `leftovers`. The stack is below `bootLoc`; what is pushed
  there is left out, but for how much it is (`Bios.stack`).
* The A20 gate is left out.

Each stage keeps the memory that is not `Scratch`, and ends with an error only for what the error
says (`Bios.Fails`).
-/

namespace Frosk.Mount

open Lib Fs

-- ---------------------------------------------------------------------------
-- Places
-- ---------------------------------------------------------------------------

abbrev bootLoc : Nat := 0x7C00

abbrev kernelLoc : Nat := 0x10000

abbrev defStackLoc : Nat := 0x80000

abbrev sectorSize : Nat := 0x200

namespace Leftovers

abbrev partitionDs : Nat := 0x7000

abbrev partitionSi : Nat := 0x7002

abbrev driveLetter : Nat := 0x7004

abbrev mmEntrySize : Nat := 0x7005

abbrev mmSize : Nat := 0x7006

abbrev kernelSize : Nat := 0x7008

abbrev diskData : Nat := 0x700A

abbrev vmInfo : Nat := 0x704C

abbrev memoryMap : Nat := 0x714C

end Leftovers

/-- The texts that `error_str` is set to. -/
inductive Error where
  | noDiskExt
  | noLoadBoot2
  | driveCheck
  | detectMemory
  | noFilesystem
  | noKernel
  | cantReadKernel
  | getGrinfo
  | setGrmode
  | noLongMode
deriving DecidableEq

/-- The boot loader as it is assembled: its bytes, and where `dap`, `error_str` and the texts are. -/
structure Loader where
  bytes    : List UInt8
  dap      : Nat
  errorStr : Nat
  text     : Error → Nat
  length   : bytes.length = 0x1000
  dapIn    : bootLoc ≤ dap ∧ dap + 0x10 ≤ bootLoc + sectorSize
  errorIn  : bootLoc ≤ errorStr ∧ errorStr + 2 ≤ bootLoc + sectorSize

/-- Where the boot loader stores to, but for what it reads and the tables of the kernel. -/
def Loader.Scratch (L : Loader) (a : Nat) : Prop :=
  Leftovers.partitionDs ≤ a ∧ a < bootLoc ∨ L.dap ≤ a ∧ a < L.dap + 0x10 ∨
    L.errorStr ≤ a ∧ a < L.errorStr + 2

-- ---------------------------------------------------------------------------
-- The BIOS
-- ---------------------------------------------------------------------------

/-- `dap`, without its size. -/
structure Dap where
  count   : Nat
  dest    : Nat
  segment : Nat
  lbaLow  : Nat
  lbaHigh : Nat

/-- `lba` of the packet. -/
def Dap.lba (d : Dap) : Nat := d.lbaLow + 0x100000000 * d.lbaHigh

/-- An answer of `int 0x15` with `ax = 0xE820`: the carry flag, whether `eax` has the signature and
`ebx` is not zero, what is stored, and `cl`. -/
structure MapAnswer where
  carry : Bool
  smap  : Bool
  more  : Bool
  entry : List UInt8
  size  : UInt8

/-- What the boot loader is started with, and what it is told. Where something is stored and can
fail, the flag says whether it does. `stack` is the most that is ever pushed, by the calls too. -/
structure Bios where
  si         : UInt16
  dl         : UInt8
  stack      : Nat
  extensions : Bool
  disk       : Memory
  limit      : Nat
  torn       : Nat → Option (List UInt8)
  medium     : Bool × List UInt8
  map        : Nat → MapAnswer
  modeInfo   : Bool × List UInt8
  mode       : Bool
  longMode   : Bool

structure Machine where
  mem   : Memory
  dap   : Dap
  error : Error
  calls : Nat

namespace Machine

variable (L : Loader) (m : Machine)

def put (n a v : Nat) : Machine := { m with mem := m.mem.put n a v }

def blit (a : Nat) (l : List UInt8) : Machine := { m with mem := m.mem.blit a l }

/-- `mov word [error_str], e` -/
def setError (e : Error) : Machine := { m with error := e, mem := m.mem.put 2 L.errorStr (L.text e) }

/-- `mov word [dap + 2], v` -/
def setCount (v : Nat) : Machine := { m with dap.count := v, mem := m.mem.put 2 (L.dap + 2) v }

/-- `mov word [dap + 4], v` and `mov word [dap + 6], segment` -/
def setDest (v segment : Nat) : Machine :=
  { m with
    dap.dest := v, dap.segment := segment
    mem := (m.mem.put 2 (L.dap + 4) v).put 2 (L.dap + 6) segment }

/-- `mov dword [dap + 8], v` -/
def setLow (v : Nat) : Machine := { m with dap.lbaLow := v, mem := m.mem.put 4 (L.dap + 8) v }

/-- `mov dword [dap + 12], v` -/
def setHigh (v : Nat) : Machine := { m with dap.lbaHigh := v, mem := m.mem.put 4 (L.dap + 12) v }

end Machine

/-- The sectors that the packet asks for. -/
def Bios.sectors (B : Bios) (d : Dap) : List UInt8 :=
  B.disk.slice (d.lba * sectorSize) (d.count * sectorSize)

/-- `int 0x13` with `ah = 0x42`: the carry flag, and the machine. -/
def Bios.int13 (B : Bios) (m : Machine) : Bool × Machine :=
  let place := m.dap.segment * 0x10 + m.dap.dest
  if B.limit < m.dap.count then (true, { m with calls := m.calls + 1 })
  else
    match B.torn m.calls with
    | none => (false, { m with mem := m.mem.blit place (B.sectors m.dap), calls := m.calls + 1 })
    | some l =>
      (true, { m with mem := m.mem.blit place (l.take (m.dap.count * sectorSize)), calls := m.calls + 1 })

/-- `do_read`, with `cx`. -/
def doRead (B : Bios) : Nat → Machine → Except Error Machine
  | 0, m => .error m.error
  | cx + 1, m =>
    let (carry, m) := B.int13 m
    if carry then doRead B cx m else .ok m

-- ---------------------------------------------------------------------------
-- boot.asm
-- ---------------------------------------------------------------------------

/-- The first stage before its read; the BIOS has read its sector. `ds` is zero when it is saved. -/
def bootStart (B : Bios) (M : Memory) : Machine where
  mem := (((M.blit bootLoc (B.disk.slice 0 sectorSize)).put 2 Leftovers.partitionDs 0).put 2
    Leftovers.partitionSi B.si.toNat).put 1 Leftovers.driveLetter B.dl.toNat
  dap := { count := 7, dest := bootLoc + sectorSize, segment := 0, lbaLow := 1, lbaHigh := 0 }
  error := .noDiskExt
  calls := 0

/-- Up to the jump to `after_break`. -/
def firstStage (L : Loader) (B : Bios) (M : Memory) : Except Error Machine :=
  let m := (bootStart B M).setError L .noDiskExt
  if ¬ B.extensions then .error m.error else doRead B 4 (m.setError L .noLoadBoot2)

/-- The check of the drive at `after_break`. -/
def checkDrive (L : Loader) (B : Bios) (m : Machine) : Except Error Machine :=
  let m := ((m.put 4 Leftovers.diskData 0x42).blit Leftovers.diskData (B.medium.2.take 0x42)).setError L
    .driveCheck
  if B.medium.1 then .error m.error else .ok m

/-- `sub` of 16 bits. -/
@[irreducible] def sub16 (a b : Nat) : Nat := (a + 0x10000 - b) % 0x10000

/-- `.mm_done`, with `cl` of the last answer. -/
def mmDone (cl : UInt8) (di : Nat) (m : Machine) : Except Error Machine :=
  let di := sub16 di (Leftovers.memoryMap - 24)
  if di = 0 then .error m.error
  else .ok ((m.put 2 Leftovers.mmSize di).put 1 Leftovers.mmEntrySize cl.toNat)

/-- `.mm_loop`, from the answer `i` on. -/
def mmLoop (B : Bios) : Nat → Nat → Nat → Machine → Option (Except Error Machine)
  | 0, _, _, _ => none
  | k + 1, i, di, m =>
    let m := m.blit di ((B.map i).entry.take 24)
    if (B.map i).carry then some (mmDone (B.map i).size di m)
    else if ¬ (B.map i).smap then some (.error m.error)
    else if ¬ (B.map i).more then some (mmDone (B.map i).size di m)
    else mmLoop B k (i + 1) ((di + 24) % 0x10000) m

/-- `detect_memory` -/
def detectMemory (L : Loader) (B : Bios) (k : Nat) (m : Machine) : Option (Except Error Machine) :=
  mmLoop B k 0 Leftovers.memoryMap (m.setError L .detectMemory)

/-- `load_fs`, behind the read. -/
def checkMark (L : Loader) (m : Machine) : Except Error Machine :=
  let m := m.setError L .noFilesystem
  if fromLE (Builder.froskFsMark.take 4) ≠ m.mem.get 4 rfsmbLoc then .error m.error
  else if fromLE (Builder.froskFsMark.drop 4) ≠ m.mem.get 4 (rfsmbLoc + 4) then .error m.error
  else .ok m

/-- `load_fs` -/
def loadFs (L : Loader) (B : Bios) (m : Machine) : Except Error Machine :=
  (doRead B 4 (((m.setCount L 8).setDest L rfsmbLoc 0).setLow L 8)).bind (checkMark L)

/-- The number of sectors in `eax`, from the size of the kernel. -/
def kernelSectors (eax : Nat) : Nat :=
  let cx := eax % 0x10000 &&& 0x1ff
  if cx = 0 then eax >>> 9 else eax >>> 9 + 1

/-- The packet for the kernel, whose node is in `bx`. -/
def kernelDap (L : Loader) (bx : Nat) (m : Machine) : Machine :=
  let si := deref (m.mem.get 4 ((bx + 0x10) % 0x10000))
  let count := kernelSectors (m.mem.get 4 ((si + 0x10) % 0x10000)) % 0x10000
  let m := (m.setCount L count).put 2 Leftovers.kernelSize count
  let m := m.setLow L (m.mem.get 4 ((si + 8) % 0x10000) <<< 3 % 0x100000000)
  let m := m.setHigh L (m.mem.get 4 ((si + 12) % 0x10000))
  m.setDest L (kernelLoc % 0x10000) (kernelLoc / 0x10000 * 0x1000)

/-- `load_kernel` from `.found` on. -/
def readKernel (L : Loader) (B : Bios) (bx : Nat) (m : Machine) : Except Error Machine :=
  doRead B 4 ((kernelDap L bx m).setError L .cantReadKernel)

/-- `init_graphics` -/
def initGraphics (L : Loader) (B : Bios) (m : Machine) : Except Error Machine :=
  let m := (m.blit Leftovers.vmInfo (B.modeInfo.2.take 0x100)).setError L .getGrinfo
  if B.modeInfo.1 then .error m.error
  else
    let m := m.setError L .setGrmode
    if ¬ B.mode then .error m.error else .ok m

/-- The check for long mode. -/
def checkLongMode (L : Loader) (B : Bios) (m : Machine) : Except Error Machine :=
  let m := m.setError L .noLongMode
  if ¬ B.longMode then .error m.error else .ok m

/-- A stage after another one. -/
def andThen {α β : Type} (x : Option (Except Error α)) (f : α → Option (Except Error β)) :
    Option (Except Error β) :=
  match x with
  | none => none
  | some (.error e) => some (.error e)
  | some (.ok a) => f a

/-- `load_kernel` -/
def findKernel (L : Loader) (B : Bios) (k : Nat) (m : Machine) : Option (Except Error Machine) :=
  match loadKernel m.mem k with
  | none => none
  | some none => some (.error (m.setError L .noKernel).error)
  | some (some bx) => some (readKernel L B bx m)

/-- The boot loader, from the first instruction to the jump to the kernel: the memory, with paging
switched on. -/
def boot (L : Loader) (B : Bios) (k : Nat) (M : Memory) : Option (Except Error Memory) :=
  andThen (some ((firstStage L B M).bind (checkDrive L B))) fun m =>
  andThen (detectMemory L B k m) fun m =>
  andThen (some (loadFs L B m)) fun m =>
  andThen (findKernel L B k m) fun m =>
  some (((initGraphics L B m).bind (checkLongMode L B)).map fun m => Paging.bootTables m.mem)

-- ---------------------------------------------------------------------------
-- What can go wrong
-- ---------------------------------------------------------------------------

/-- Of four calls in a row one does not fail. -/
def Bios.Reliable (B : Bios) : Prop := ∀ n, ∃ j < 4, B.torn (n + j) = none

/-- Reads of `n` sectors do not fail four times in a row. -/
def Bios.Reads (B : Bios) (n : Nat) : Prop := B.Reliable ∧ n ≤ B.limit

/-- The memory map ends before it reaches the stack. -/
def Bios.MapEnds (B : Bios) : Prop :=
  ∃ n, Leftovers.memoryMap + 24 * (n + 1) + B.stack ≤ bootLoc ∧
    ((B.map n).carry ∨ ¬ (B.map n).smap ∨ ¬ (B.map n).more)

/-- The memory map is answered without the signature. -/
def Bios.NoSignature (B : Bios) : Prop := ∃ n, (B.map n).carry = false ∧ (B.map n).smap = false

/-- What an error is for, when the kernel has so many sectors, or is `missing`. The first metadata
block is read before `error_str` is set. -/
def Bios.Fails (B : Bios) (missing : Prop) (sectors : Nat) : Error → Prop
  | .noDiskExt => B.extensions = false
  | .noLoadBoot2 => ¬ B.Reads 7
  | .driveCheck => B.medium.1 = true
  | .detectMemory => B.NoSignature ∨ ¬ B.Reads 8
  | .noFilesystem => False
  | .noKernel => missing
  | .cantReadKernel => ¬ B.Reads sectors
  | .getGrinfo => B.modeInfo.1 = true
  | .setGrmode => B.mode = false
  | .noLongMode => B.longMode = false

/-- What is left is as it should be, or there is an error that is `bad`. -/
def Ends {α : Type} (bad : Error → Prop) (P : α → Prop) : Except Error α → Prop
  | .ok a => P a
  | .error e => bad e

/-- The same of a stage with loops, which end. -/
def Comes {α : Type} (bad : Error → Prop) (P : α → Prop) (f : Nat → Option (Except Error α)) : Prop :=
  ∃ r, Settles f r ∧ Ends bad P r

section Ends

variable {α β : Type} {bad : Error → Prop} {P : α → Prop} {Q : β → Prop}

/-- A part that ends well is followed by the next one. -/
theorem Ends.bind {x : Except Error α} {f : α → Except Error β} (h : Ends bad P x)
    (hf : ∀ a, P a → Ends bad Q (f a)) : Ends bad Q (x.bind f) := by
  cases x with
  | ok a => exact hf a h
  | error e => exact h

/-- An end with a property has every weaker one. -/
theorem Ends.imp {P' : α → Prop} {x : Except Error α} (h : Ends bad P x) (hP : ∀ a, P a → P' a) :
    Ends bad P' x := by
  cases x with
  | ok a => exact hP a h
  | error e => exact h

theorem Ends.map {f : β → α} {x : Except Error β} (h : Ends bad (fun b => P (f b)) x) :
    Ends bad P (x.map f) := by
  cases x with
  | ok a => exact h
  | error e => exact h

theorem Ends.comes {x : Except Error α} (h : Ends bad P x) : Comes bad P fun _ => some x :=
  ⟨x, settles_of_eq fun _ => rfl, h⟩

/-- Two parts of the run that come to an end come to an end together. -/
theorem Comes.andThen {f : Nat → Option (Except Error α)} {g : Nat → α → Option (Except Error β)}
    (h : Comes bad P f) (hg : ∀ a, P a → Comes bad Q fun k => g k a) :
    Comes bad Q fun k => Mount.andThen (f k) (g k) := by
  obtain ⟨x, ⟨n, hn⟩, hx⟩ := h
  cases x with
  | error e =>
    refine ⟨.error e, ⟨n, ?_⟩, hx⟩
    intro k hk
    dsimp only
    rw [hn k hk]
    rfl
  | ok a =>
    obtain ⟨y, ⟨i, hi⟩, hy⟩ := hg a hx
    refine ⟨y, ⟨max n i, ?_⟩, hy⟩
    intro k hk
    dsimp only
    rw [hn k (le_of_max_le_left hk)]
    exact hi k (le_of_max_le_right hk)

end Ends

-- ---------------------------------------------------------------------------
-- do_read
-- ---------------------------------------------------------------------------

section Reads

variable {B : Bios} {m : Machine}

/-- If a read ends, the sectors are where they belong, whatever the calls that failed have stored
there. -/
theorem doRead_ends (B : Bios) (cx : Nat) (m : Machine) :
    Ends (fun e => e = m.error ∧ (B.limit < m.dap.count ∨ ∀ j < cx, B.torn (m.calls + j) ≠ none))
      (fun m' => ∃ calls, m' = { m with
        mem := m.mem.blit (m.dap.segment * 0x10 + m.dap.dest) (B.sectors m.dap), calls := calls })
      (doRead B cx m) := by
  induction cx generalizing m with
  | zero => exact ⟨rfl, .inr fun j hj => absurd hj (Nat.not_lt_zero j)⟩
  | succ cx ih =>
    let place := m.dap.segment * 0x10 + m.dap.dest
    by_cases hlimit : B.limit < m.dap.count
    · have hfail : doRead B (cx + 1) m = doRead B cx { m with calls := m.calls + 1 } := by
        simp [doRead, Bios.int13, hlimit]
      rw [hfail]
      have hrest := ih { m with calls := m.calls + 1 }
      cases hx : doRead B cx { m with calls := m.calls + 1 } with
      | error e =>
        rw [hx] at hrest
        exact ⟨hrest.1, .inl hlimit⟩
      | ok m' =>
        rw [hx] at hrest
        exact hrest
    · cases htorn : B.torn m.calls with
      | none =>
        have hgood : doRead B (cx + 1) m =
            .ok { m with mem := m.mem.blit place (B.sectors m.dap), calls := m.calls + 1 } := by
          simp [doRead, Bios.int13, hlimit, htorn, place]
        rw [hgood]
        exact ⟨m.calls + 1, rfl⟩
      | some l =>
        let m₁ : Machine := { m with
          mem := m.mem.blit place (l.take (m.dap.count * sectorSize)), calls := m.calls + 1 }
        have hfail : doRead B (cx + 1) m = doRead B cx m₁ := by
          simp [doRead, Bios.int13, hlimit, htorn, m₁, place]
        rw [hfail]
        have hrest := ih m₁
        cases hx : doRead B cx m₁ with
        | error e =>
          rw [hx] at hrest
          refine ⟨hrest.1, hrest.2.imp_right ?_⟩
          intro hnone j hj
          cases j with
          | zero =>
            rw [Nat.add_zero, htorn]
            exact Option.some_ne_none l
          | succ j =>
            have hsum : m.calls + (j + 1) = m₁.calls + j := by
              rw [Nat.add_comm j, ← Nat.add_assoc]
            rw [hsum]
            exact hnone j (Nat.lt_of_succ_lt_succ hj)
        | ok m' =>
          rw [hx] at hrest
          obtain ⟨calls, rfl⟩ := hrest
          refine ⟨calls, congrArg (fun mem => { m with mem := mem, calls := calls }) ?_⟩
          refine Memory.blit_cover ?_
          rw [Bios.sectors, Memory.slice_length]
          exact List.length_take_le ..

/-- A read of `n` sectors from byte `a` of the disk on, with an error that is for reads. -/
theorem doRead_spec (bad : Error → Prop) {place a n : Nat} (hcount : m.dap.count = n)
    (hplace : m.dap.segment * 0x10 + m.dap.dest = place) (hlba : m.dap.lba * sectorSize = a)
    (hbad : ¬ B.Reads n → bad m.error) :
    Ends bad (fun m' => m'.mem = m.mem.blit place (B.disk.slice a (n * sectorSize)) ∧ m'.dap = m.dap ∧
      m'.error = m.error) (doRead B 4 m) := by
  have hends := doRead_ends B 4 m
  cases hx : doRead B 4 m with
  | error e =>
    rw [hx] at hends
    obtain ⟨rfl, hfail⟩ := hends
    refine hbad ?_
    intro hreads
    rcases hfail with hlimit | hnone
    · exact absurd (hcount.trans_le hreads.2) (Nat.not_le.mpr hlimit)
    · obtain ⟨j, hj, hgood⟩ := hreads.1 m.calls
      exact hnone j hj hgood
  | ok m' =>
    rw [hx] at hends
    obtain ⟨calls, rfl⟩ := hends
    refine ⟨?_, rfl, rfl⟩
    rw [← hplace, ← hlba, ← hcount]
    rfl

end Reads

-- ---------------------------------------------------------------------------
-- Memory that stays
-- ---------------------------------------------------------------------------

/-- Alike where the boot loader does not store to. -/
def Loader.Same (L : Loader) (M M' : Memory) : Prop := ∀ a, ¬ L.Scratch a → M' a = M a

section Same

variable {L : Loader} {M M' M'' : Memory} {m : Machine}

theorem Loader.Same.refl (L : Loader) (M : Memory) : L.Same M M := fun _ _ => rfl

/-- The loader stays in both of two parts. -/
theorem Loader.Same.trans (h : L.Same M M') (h' : L.Same M' M'') : L.Same M M'' :=
  fun a ha => (h' a ha).trans (h a ha)

/-- A store to the scratch leaves the loader. -/
theorem same_blit {a : Nat} {l : List UInt8} (h : ∀ b, a ≤ b → b < a + l.length → L.Scratch b) :
    L.Same M (M.blit a l) := by
  intro b hb
  refine Memory.blit_outside ?_
  by_contra hin
  exact hb (h b (by omega) (by omega))

/-- A word stored to the scratch leaves the loader. -/
theorem same_put {n a v : Nat} (h : ∀ b, a ≤ b → b < a + n → L.Scratch b) : L.Same M (M.put n a v) :=
  same_blit (by rwa [leBytes_length])

/-- A store to the leftovers. -/
theorem same_left {a : Nat} {l : List UInt8} (hlo : Leftovers.partitionDs ≤ a)
    (hhi : a + l.length ≤ bootLoc) : L.Same M (M.blit a l) :=
  same_blit fun b hb hlt => .inl ⟨hlo.trans hb, by omega⟩

/-- A word stored among the leftovers of the first sector leaves it too. -/
theorem same_leftPut {n a v : Nat} (hlo : Leftovers.partitionDs ≤ a) (hhi : a + n ≤ bootLoc) :
    L.Same M (M.put n a v) :=
  same_left hlo (by rwa [leBytes_length])

/-- A store to `dap`. -/
theorem same_dap {n i v : Nat} (h : i + n ≤ 0x10) : L.Same M (M.put n (L.dap + i) v) :=
  same_put fun b hb hlt => .inr (.inl (by omega))

/-- Setting the error leaves the loader. -/
theorem same_setError (L : Loader) (m : Machine) (e : Error) : L.Same m.mem (m.setError L e).mem :=
  same_put fun b hb hlt => .inr (.inr (by omega))

/-- Setting the destination leaves the loader. -/
theorem same_setDest (L : Loader) (m : Machine) (v segment : Nat) :
    L.Same m.mem (m.setDest L v segment).mem :=
  (same_dap (by decide)).trans (same_dap (by decide))

/-- The leftovers are all that a stage changes. -/
structure Stays (L : Loader) (m m' : Machine) : Prop where
  mem   : L.Same m.mem m'.mem
  dap   : m'.dap = m.dap
  error : m'.error = m.error

/-- What stays in both of two parts stays. -/
theorem Stays.trans {m m' m'' : Machine} (h : Stays L m m') (h' : Stays L m' m'') : Stays L m m'' :=
  ⟨h.mem.trans h'.mem, h'.dap.trans h.dap, h'.error.trans h.error⟩

/-- A subtraction that does not wrap. -/
theorem sub16_eq {a b : Nat} (hle : b ≤ a) (ha : a < 0x10000) : sub16 a b = a - b := by
  unfold sub16
  omega

/-- The end of the memory map stays among the leftovers. -/
theorem mmDone_ends (bad : Error → Prop) (cl : UInt8) {i di : Nat} (hdi : di = Leftovers.memoryMap + 24 * i)
    (hi : di + 24 ≤ bootLoc) (m : Machine) : Ends bad (Stays L m) (mmDone cl di m) := by
  have hsub : sub16 di (Leftovers.memoryMap - 24) = di - (Leftovers.memoryMap - 24) := by
    unfold Leftovers.memoryMap bootLoc at *
    exact sub16_eq (by omega) (by omega)
  have hne : ¬ sub16 di (Leftovers.memoryMap - 24) = 0 := by
    rw [hsub, hdi]
    unfold Leftovers.memoryMap
    omega
  rw [mmDone, if_neg hne]
  exact ⟨(same_leftPut (by decide) (by decide)).trans (same_leftPut (by decide) (by decide)), rfl, rfl⟩

/-- One round of the loop. -/
theorem mmLoop_round {B : Bios} {i di : Nat} (hdi : di = Leftovers.memoryMap + 24 * i)
    (hi : di + 24 ≤ bootLoc) (m : Machine)
    (hrest : (B.map i).carry = false → (B.map i).smap = true → (B.map i).more = true → ∀ m',
      m'.error = m.error → Comes (fun e => e = m.error ∧ B.NoSignature) (Stays L m')
        fun k => mmLoop B k (i + 1) (di + 24) m') :
    Comes (fun e => e = m.error ∧ B.NoSignature) (Stays L m) fun k => mmLoop B k i di m := by
  have hlow : Leftovers.partitionDs ≤ di := by
    rw [hdi]
    unfold Leftovers.partitionDs Leftovers.memoryMap
    omega
  have hlen := List.length_take_le 24 (B.map i).entry
  let m₁ := m.blit di ((B.map i).entry.take 24)
  have hstored : Stays L m m₁ := ⟨same_left hlow (by omega), rfl, rfl⟩
  have hafter : ∀ {r}, Ends (fun e => e = m.error ∧ B.NoSignature) (Stays L m₁) r →
      Ends (fun e => e = m.error ∧ B.NoSignature) (Stays L m) r := by
    intro r hends
    cases r with
    | error e => exact hends
    | ok m' => exact hstored.trans hends
  have hdone := hafter (r := mmDone (B.map i).size di m₁) (mmDone_ends _ (B.map i).size hdi hi m₁)
  -- a bound is one larger than what is left of it
  have hone : ∀ {r}, (∀ k, mmLoop B (k + 1) i di m = some r) → Settles (fun k => mmLoop B k i di m) r := by
    intro r hr
    refine ⟨1, ?_⟩
    intro k hk
    obtain ⟨k, rfl⟩ : ∃ j, k = j + 1 := ⟨k - 1, by omega⟩
    exact hr k
  by_cases hcarry : (B.map i).carry = true
  · refine ⟨_, hone fun k => ?_, hdone⟩
    rw [mmLoop, if_pos hcarry]
  by_cases hsmap : (B.map i).smap = true
  · by_cases hmore : (B.map i).more = true
    · obtain ⟨r, ⟨n, hn⟩, hends⟩ := hrest (by simpa using hcarry) hsmap hmore m₁ rfl
      have hnext : (di + 24) % 0x10000 = di + 24 := by
        unfold bootLoc at hi
        omega
      refine ⟨r, ⟨n + 1, ?_⟩, hafter hends⟩
      intro k hk
      obtain ⟨k, rfl⟩ : ∃ j, k = j + 1 := ⟨k - 1, by omega⟩
      have hround : mmLoop B (k + 1) i di m = mmLoop B k (i + 1) (di + 24) m₁ := by
        rw [mmLoop, if_neg hcarry, if_neg (not_not_intro hsmap), if_neg (not_not_intro hmore), hnext]
      exact hround.trans (hn k (by omega))
    · refine ⟨_, hone fun k => ?_, hdone⟩
      rw [mmLoop, if_neg hcarry, if_neg (not_not_intro hsmap), if_pos hmore]
  · have herror : ∀ k, mmLoop B (k + 1) i di m = some (.error m.error) := by
      intro k
      rw [mmLoop, if_neg hcarry, if_pos hsmap]
      rfl
    exact ⟨_, hone herror, rfl, i, by simpa using hcarry, by simpa using hsmap⟩

/-- By induction on the answers that are still to come before the one that ends the map. -/
theorem mmLoop_comes {B : Bios} {i d di : Nat} (hdi : di = Leftovers.memoryMap + 24 * i)
    (hfits : di + 24 * (d + 1) ≤ bootLoc)
    (hend : (B.map (i + d)).carry ∨ ¬ (B.map (i + d)).smap ∨ ¬ (B.map (i + d)).more) (m : Machine) :
    Comes (fun e => e = m.error ∧ B.NoSignature) (Stays L m) fun k => mmLoop B k i di m := by
  induction d generalizing i di m with
  | zero =>
    refine mmLoop_round hdi hfits m ?_
    intro hcarry hsmap hmore
    rw [Nat.add_zero, hcarry, hsmap, hmore] at hend
    simp at hend
  | succ d ih =>
    refine mmLoop_round hdi (by omega) m ?_
    intro _ _ _ m' herror
    have hsum : i + (d + 1) = i + 1 + d := by omega
    rw [hsum] at hend
    rw [← herror]
    exact ih (by omega) (by omega) hend m'

end Same

-- ---------------------------------------------------------------------------
-- The stages before the kernel
-- ---------------------------------------------------------------------------

/-- The boot loader is in memory, but for what it stores to. -/
def Loader.Intact (L : Loader) (M : Memory) : Prop :=
  ∀ i (hi : i < L.bytes.length), ¬ L.Scratch (bootLoc + i) → M (bootLoc + i) = L.bytes[i]

section Stages

variable {L : Loader} {B : Bios} {M M' D : Memory} {m : Machine} {missing : Prop} {n : Nat}

/-- The loader is intact when no byte of it changed. -/
theorem Loader.Intact.same (h : L.Intact M) (hsame : L.Same M M') : L.Intact M' :=
  fun i hi hout => (hsame _ hout).trans (h i hi hout)

/-- The first metadata block is not where the boot loader stores to. -/
theorem loaded_same (h : Loaded M D) (hsame : L.Same M M') : Loaded M' D := by
  have hdap := L.dapIn.1
  have herror := L.errorIn.1
  intro a hlo hhi
  refine (hsame a ?_).trans (h a hlo hhi)
  rintro (⟨hleft, -⟩ | ⟨hleft, -⟩ | ⟨hleft, -⟩)
  · unfold Leftovers.partitionDs at hleft
    omega
  · unfold bootLoc at hdap
    omega
  · unfold bootLoc at herror
    omega

/-- The second stage is read behind the first. -/
theorem firstStage_ends (hloader : B.disk.slice 0 0x1000 = L.bytes) (M : Memory) :
    Ends (B.Fails missing n) (fun m => L.Intact m.mem ∧ m.dap.lbaHigh = 0) (firstStage L B M) := by
  have hbyte : ∀ i (hi : i < L.bytes.length), B.disk i = L.bytes[i] := by
    intro i hi
    have hget := Memory.slice_getElem? (m := B.disk) (a := 0) (n := 0x1000) (i := i) (L.length ▸ hi)
    rw [hloader, List.getElem?_eq_getElem hi, Nat.zero_add] at hget
    exact (Option.some.inj hget).symm
  let m := ((bootStart B M).setError L .noDiskExt).setError L .noLoadBoot2
  have hsaved : L.Same (M.blit bootLoc (B.disk.slice 0 sectorSize)) (bootStart B M).mem :=
    ((same_leftPut (by decide) (by decide)).trans (same_leftPut (by decide) (by decide))).trans
      (same_leftPut (by decide) (by decide))
  have hstart : L.Same (M.blit bootLoc (B.disk.slice 0 sectorSize)) m.mem :=
    hsaved.trans ((same_setError L _ .noDiskExt).trans (same_setError L _ .noLoadBoot2))
  unfold firstStage
  by_cases hext : B.extensions = true
  · rw [if_neg (not_not_intro hext)]
    have hread := doRead_spec (B := B) (m := m) (B.Fails missing n) (n := 7) rfl
      (show 0 * 0x10 + (bootLoc + sectorSize) = bootLoc + sectorSize by decide)
      (show (1 + 0x100000000 * 0) * sectorSize = sectorSize by decide) id
    refine hread.imp ?_
    rintro m' ⟨hmem, hdap, -⟩
    refine ⟨?_, hdap ▸ rfl⟩
    intro i hi hout
    rw [hmem, ← hbyte i hi]
    rw [L.length] at hi
    by_cases hfirst : i < sectorSize
    · rw [Memory.blit_outside (.inl (by omega)), hstart _ hout, Memory.blit_slice_inside hfirst, Nat.zero_add]
    · obtain ⟨j, rfl⟩ : ∃ j, i = sectorSize + j := ⟨i - sectorSize, by omega⟩
      rw [← Nat.add_assoc, Memory.blit_slice_inside (by unfold sectorSize at *; omega)]
  · rw [if_pos hext]
    exact (Bool.not_eq_true _).mp hext

/-- The check of the drive fails with its own errors, or changes only the scratch. -/
theorem checkDrive_ends (h : L.Intact m.mem ∧ m.dap.lbaHigh = 0) :
    Ends (B.Fails missing n) (fun m => L.Intact m.mem ∧ m.dap.lbaHigh = 0) (checkDrive L B m) := by
  have hlen := List.length_take_le 0x42 B.medium.2
  have hsame : L.Same m.mem (((m.put 4 Leftovers.diskData 0x42).blit Leftovers.diskData
      (B.medium.2.take 0x42)).setError L .driveCheck).mem := by
    refine Loader.Same.trans ?_ (same_setError L _ .driveCheck)
    refine (same_leftPut (by decide) (by decide)).trans (same_left (by decide) ?_)
    unfold Leftovers.diskData bootLoc
    omega
  unfold checkDrive
  by_cases hcarry : B.medium.1 = true
  · rw [if_pos hcarry]
    exact hcarry
  · rw [if_neg hcarry]
    exact ⟨h.1.same hsame, h.2⟩

/-- The memory map comes to its end and leaves the loader. -/
theorem detectMemory_comes (hmap : B.MapEnds) (h : L.Intact m.mem ∧ m.dap.lbaHigh = 0) :
    Comes (B.Fails missing n) (fun m => L.Intact m.mem ∧ m.dap.lbaHigh = 0 ∧ m.error = .detectMemory)
      fun k => detectMemory L B k m := by
  obtain ⟨last, hfits, hend⟩ := hmap
  obtain ⟨r, hrun, hends⟩ := mmLoop_comes (L := L) (i := 0) (d := last) rfl
    (Nat.le_of_add_right_le hfits)
    (by rwa [Nat.zero_add]) (m.setError L .detectMemory)
  refine ⟨r, hrun, ?_⟩
  cases r with
  | error e =>
    obtain ⟨rfl, hnone⟩ := hends
    exact .inl hnone
  | ok m' => exact ⟨h.1.same ((same_setError L m _).trans hends.mem), hends.dap ▸ h.2, hends.error⟩

/-- The mark of the file system is found. -/
theorem checkMark_spec (hmark : m.mem.slice rfsmbLoc 8 = Builder.froskFsMark) :
    checkMark L m = .ok (m.setError L .noFilesystem) := by
  have hslice : (m.setError L .noFilesystem).mem.slice rfsmbLoc 8 = Builder.froskFsMark := by
    have herror := L.errorIn.1
    rw [← hmark]
    refine Memory.slice_congr fun i hi => Memory.blit_outside (.inl ?_)
    unfold rfsmbLoc
    unfold bootLoc at herror
    omega
  have hlow : (m.setError L .noFilesystem).mem.get 4 rfsmbLoc = fromLE (Builder.froskFsMark.take 4) :=
    Memory.get_of_slice (i := 0) hslice (by decide)
  have hrest : (m.setError L .noFilesystem).mem.get 4 (rfsmbLoc + 4) =
      fromLE (Builder.froskFsMark.drop 4) :=
    Memory.get_of_slice (i := 4) hslice (by decide)
  unfold checkMark
  rw [if_neg (not_not_intro hlow.symm), if_neg (not_not_intro hrest.symm)]

/-- The first metadata block is read to where nothing of the boot loader is. -/
theorem loadFs_ends (h : L.Intact m.mem ∧ m.dap.lbaHigh = 0 ∧ m.error = .detectMemory)
    (hmark : B.disk.slice 0x1000 8 = Builder.froskFsMark) :
    Ends (B.Fails missing n) (fun m => L.Intact m.mem ∧ Loaded m.mem B.disk) (loadFs L B m) := by
  obtain ⟨hintact, hhigh, herror⟩ := h
  let m₁ := ((m.setCount L 8).setDest L rfsmbLoc 0).setLow L 8
  have hsame : L.Same m.mem m₁.mem :=
    ((same_dap (by decide)).trans (same_setDest L _ rfsmbLoc 0)).trans (same_dap (by decide))
  have hlba : m₁.dap.lba * sectorSize = 0x1000 := by
    show (8 + 0x100000000 * m.dap.lbaHigh) * sectorSize = 0x1000
    rw [hhigh]
    decide
  have hread := doRead_spec (B := B) (m := m₁) (B.Fails missing n) (n := 8) rfl
    (show 0 * 0x10 + rfsmbLoc = rfsmbLoc by decide) hlba fun hreads => ?_
  · refine hread.bind ?_
    intro m' hm'
    obtain ⟨hmem, -, -⟩ := hm'
    have hloaded : Loaded m'.mem B.disk := by
      intro a hlo hhi
      obtain ⟨i, rfl⟩ := Nat.exists_eq_add_of_le hlo
      rw [hmem]
      exact Memory.blit_slice_inside (by unfold sectorSize; omega)
    have hslice : m'.mem.slice rfsmbLoc 8 = Builder.froskFsMark := by
      rw [← hmark]
      exact List.map_congr_left fun i hi => hloaded _ (Nat.le_add_right ..) (by
        have hlt := List.mem_range.mp hi
        unfold rfsmbLoc
        omega)
    have hafter := same_setError L m' .noFilesystem
    rw [checkMark_spec hslice]
    refine ⟨Loader.Intact.same (fun i hi hout => ?_) hafter, loaded_same hloaded hafter⟩
    rw [hmem, Memory.blit_outside (.inr ?_)]
    · exact hintact.same hsame i hi hout
    · rw [Memory.slice_length]
      unfold rfsmbLoc sectorSize bootLoc
      omega
  · have hlabel : m₁.error = .detectMemory := herror
    rw [hlabel]
    exact .inr hreads

/-- What is asked for behind the kernel changes nothing that matters. -/
theorem initGraphics_ends (L : Loader) (B : Bios) (m : Machine) :
    Ends (B.Fails missing n) (fun m' => L.Same m.mem m'.mem)
      ((initGraphics L B m).bind (checkLongMode L B)) := by
  have hlen := List.length_take_le 0x100 B.modeInfo.2
  have hsame :
      L.Same m.mem ((m.blit Leftovers.vmInfo (B.modeInfo.2.take 0x100)).setError L .getGrinfo).mem := by
    refine Loader.Same.trans (same_left (by decide) ?_) (same_setError L _ .getGrinfo)
    unfold Leftovers.vmInfo bootLoc
    omega
  refine Ends.bind (P := fun m' => L.Same m.mem m'.mem) ?_ fun m' hm' => ?_
  · unfold initGraphics
    by_cases hinfo : B.modeInfo.1 = true
    · rw [if_pos hinfo]
      exact hinfo
    · rw [if_neg hinfo]
      by_cases hmode : B.mode = true
      · exact (if_neg (not_not_intro hmode)).symm ▸ hsame.trans (same_setError L _ .setGrmode)
      · exact (if_pos hmode).symm ▸ (Bool.not_eq_true _).mp hmode
  · unfold checkLongMode
    by_cases hlong : B.longMode = true
    · rw [if_neg (not_not_intro hlong)]
      exact hm'.trans (same_setError L m' .noLongMode)
    · rw [if_pos hlong]
      exact (Bool.not_eq_true _).mp hlong

end Stages

end Frosk.Mount

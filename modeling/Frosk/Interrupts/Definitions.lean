import Mathlib.Tactic
import Frosk.Lib.Pic

/-!
# Interrupts: definitions

The embedding of `interrupt.c` and `interrupt.asm`: the interrupt descriptor table, and how the
two interrupt controllers are set up and their lines are switched on. With it, `setup_faults`
of `fault.c` and the system calls of `syscall.asm`.

* A gate is entered at its address if it is present; `int` in a user program needs one that a
  user program may call. All gates are interrupt gates, so a function is entered with interrupts
  switched off.
* The high half of `esi`, which `set_irq` and `clr_irq` shift along, is what the caller left
  there.
* The second controller is on line 2 of the first.
-/

namespace Frosk.Interrupts

open Lib

abbrev irq0 : Nat := 0x20

abbrev syscallInt : Nat := 0x40

abbrev kernCs : UInt16 := 8

abbrev pic1 : Nat := 0x20

abbrev pic2 : Nat := 0xA0

-- ---------------------------------------------------------------------------
-- The table
-- ---------------------------------------------------------------------------

/-- `idt_entry_t` -/
structure Gate where
  lowaddr  : UInt16
  selector : UInt16
  ist      : UInt8
  flags    : UInt8
  midaddr  : UInt16
  highaddr : UInt32
  zero     : UInt32
deriving DecidableEq

abbrev Idt := Nat → Gate

/-- The table in `.bss`. -/
def Idt.start : Idt := fun _ => ⟨0, 0, 0, 0, 0, 0, 0⟩

def xregInt (i : Nat) (func : UInt64) (fl ist : UInt8) (idt : Idt) : Idt :=
  Function.update idt i
    { lowaddr := (func &&& 0xffff).toUInt16
      midaddr := ((func >>> 16) &&& 0xffff).toUInt16
      selector := kernCs
      flags := fl
      ist := ist
      highaddr := (func >>> 32).toUInt32
      zero := 0 }

def regInt (i : Nat) (func : UInt64) (idt : Idt) : Idt := xregInt i func 0x8E 0 idt

def isInterruptSet (i : Nat) (idt : Idt) : Bool :=
  (idt i).lowaddr != 0 || (idt i).midaddr != 0 || (idt i).highaddr != 0

/-- The address of a gate, as the processor puts it together. -/
def Gate.address (g : Gate) : UInt64 :=
  g.lowaddr.toUInt64 ||| (g.midaddr.toUInt64 <<< 16) ||| (g.highaddr.toUInt64 <<< 32)

def Gate.present (g : Gate) : Bool := g.flags &&& 0x80 ≠ 0

/-- The privilege that `int` needs. -/
def Gate.dpl (g : Gate) : UInt8 := (g.flags >>> 5) &&& 3

/-- Where the processor goes at an interrupt or a fault. -/
def enter (idt : Idt) (v : Nat) : Option UInt64 :=
  if (idt v).present then some (idt v).address else none

-- ---------------------------------------------------------------------------
-- The controllers
-- ---------------------------------------------------------------------------

structure Pics where
  master : Pic
  slave  : Pic

def Pics.outb (port : Nat) (v : UInt8) (s : Pics) : Pics :=
  if port = pic1 then { s with master := s.master.command v }
  else if port = pic1 + 1 then { s with master := s.master.data v }
  else if port = pic2 then { s with slave := s.slave.command v }
  else if port = pic2 + 1 then { s with slave := s.slave.data v }
  else s

/-- A read of a data port. -/
def Pics.inb (port : Nat) (s : Pics) : UInt8 := if port = pic1 + 1 then s.master.mask else s.slave.mask

/-- `setup_irqs`, without the writes of `io_wait`. -/
def setupIrqs (s : Pics) : Pics :=
  let s := (s.outb pic1 0x11).outb pic2 0x11
  let al : UInt8 := 0x20
  let s := s.outb (pic1 + 1) al
  let al := al + 8
  let s := s.outb (pic2 + 1) al
  let s := (s.outb (pic1 + 1) 4).outb (pic2 + 1) 2
  let s := (s.outb (pic1 + 1) 5).outb (pic2 + 1) 1
  (s.outb (pic1 + 1) 0xff).outb (pic2 + 1) 0xff

/-- `esi` after `shl esi, cl`. -/
def irqBit (esi : UInt32) (di : UInt16) : UInt32 :=
  let cl := di.toUInt32 &&& 0xff
  ((esi &&& 0xffff0000) ||| 1) <<< cl

/-- The port and the `di` for a line. -/
def irqPlace (di : UInt16) : Nat × UInt16 := if 7 < di then (pic2 + 1, di - 8) else (pic1 + 1, di)

def setIrq (esi : UInt32) (di : UInt16) (s : Pics) : Pics :=
  let (dx, di) := irqPlace di
  s.outb dx (s.inb dx &&& (~~~ irqBit esi di).toUInt8)

def clrIrq (esi : UInt32) (di : UInt16) (s : Pics) : Pics :=
  let (dx, di) := irqPlace di
  s.outb dx (s.inb dx ||| (irqBit esi di).toUInt8)

/-- A device changes its line. -/
def Pics.line (l : Nat) (b : Bool) (s : Pics) : Pics :=
  if l < 8 then { s with master := s.master.setRequest l b }
  else { s with slave := s.slave.setRequest (l - 8) b }

/-- The processor takes an interrupt: its number. -/
def Pics.acknowledge (s : Pics) : Pics × Nat :=
  let (master, i) := (s.master.setRequest 2 s.slave.ready.isSome).acknowledge
  if i = 2 then
    let (slave, j) := s.slave.acknowledge
    (⟨master, slave⟩, slave.vector j)
  else (⟨master, s.slave⟩, master.vector i)

-- ---------------------------------------------------------------------------
-- fault.c
-- ---------------------------------------------------------------------------

/-- The functions of `fault.asm`. -/
structure Faults where
  dbz            : UInt64
  uop            : UInt64
  dbl            : UInt64
  ssf            : UInt64
  gpf            : UInt64
  undefinedFault : UInt64

/-- One round of the loop of `setup_faults`. -/
def faultRound (f : Faults) (idt : Idt) (i : Nat) : Idt :=
  if isInterruptSet i idt then idt else regInt i f.undefinedFault idt

def setupFaults (f : Faults) (idt : Idt) : Idt :=
  let idt := regInt 0 f.dbz idt
  let idt := regInt 6 f.uop idt
  let idt := regInt 8 f.dbl idt
  let idt := regInt 12 f.ssf idt
  let idt := regInt 13 f.gpf idt
  (List.range 0x20).foldl (faultRound f) idt

-- ---------------------------------------------------------------------------
-- syscall.asm
-- ---------------------------------------------------------------------------

def setupSyscalls (syscall : UInt64) (idt : Idt) : Idt := xregInt syscallInt syscall 0xEE 0 idt

/-- `syscalls_ls`, of the addresses of its functions. -/
def syscallsLs (funcs : Fin 15 → UInt64) : List UInt64 := List.ofFn funcs ++ [0]

/-- Where `syscall` calls for `rax`, if it does. -/
def syscallTarget (funcs : Fin 15 → UInt64) (rax : UInt64) : Option UInt64 :=
  if (syscallsLs funcs).length ≤ rax.toNat then none else (syscallsLs funcs)[rax.toNat]?

end Frosk.Interrupts

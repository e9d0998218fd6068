import Mathlib.Tactic
import Frosk.Common
import Frosk.Lib.Bytes

/-!
# Devices: definitions

The embedding of `dev_read`, of `dev/dev.c`.

* The function behind `d->read` is given with the device. It has a state of its own, so it may
  fail at one call and not at another.
* `kalloc` is the address of the block it would give; its own headers, and what `kfree` does
  with them, are in nobody's buffer.
* An assertion that fails stops the kernel, which is `Flow.halt`.
-/

namespace Frosk.Dev

open Lib

/-- The callback `read` of a device: called with a buffer, the first block and the number of
blocks, it returns a number, and leaves its own state and the memory changed. -/
abbrev ReadFn (σ : Type*) := σ → Memory → Nat → Nat → Nat → Nat × σ × Memory

/-- The fields of a `device_t` that `dev_read` uses; `read` may be `NULL`. -/
structure Device (σ : Type*) where
  read       : Option (ReadFn σ)
  block_size : Nat

/-- A call of the callback: what was asked for, and what it returned. -/
structure Call where
  block    : Nat
  count    : Nat
  returned : Nat
deriving DecidableEq, Repr

def Call.Failed (c : Call) : Prop := c.returned ≠ c.count

instance (c : Call) : Decidable c.Failed := inferInstanceAs (Decidable (_ ≠ _))

/-- The variables of `dev_read`, what it works on, and the calls it made, the last one first. -/
structure Vars (σ : Type*) where
  dev   : σ
  mem   : Memory
  buf   : Nat
  addr  : Nat
  size  : Nat
  m     : Nat
  calls : List Call

/-- How a part of `dev_read` ends: it goes on, jumps to `ret`, or an assertion fails. -/
inductive Flow (α : Type*) where
  | next (a : α)
  | ret (a : α)
  | halt

def Flow.andThen {α : Type*} (x : Flow α) (f : α → Flow α) : Flow α :=
  match x with
  | .next a => f a
  | .ret a => .ret a
  | .halt => .halt

section DevRead

variable {σ : Type*} (kalloc : Nat → Nat) (read : ReadFn σ) (bs : Nat)

/-- `d->read(d, data, addr / d->block_size, count)`. -/
def callRead (r : Vars σ) (data count : Nat) : Nat × Vars σ :=
  let (k, dev, mem) := read r.dev r.mem data (r.addr / bs) count
  (k, { r with dev, mem, calls := ⟨r.addr / bs, count, k⟩ :: r.calls })

/-- `if (m == NULL) { m = kalloc(d->block_size); }` -/
def needBlock (r : Vars σ) : Vars σ := if r.m = NULL then { r with m := kalloc bs } else r

/-- The section that does not begin on a block boundary, possibly not ending on one. -/
def readHead (r : Vars σ) : Flow (Vars σ) :=
  let t := r.addr % bs
  if t ≠ 0 then
    let r := needBlock kalloc bs r
    match callRead read bs r r.m 1 with
    | (k, r) =>
      if k = 0 then .ret r
      else
        let s := if bs - t < r.size then bs - t else r.size
        .next { r with
          mem  := r.mem.blit r.buf (r.mem.slice (r.m + t) s)
          size := r.size - s
          addr := (r.addr + s) % wordSize
          buf  := r.buf + s }
  else .next r

/-- The aligned section. -/
def readBody (r : Vars σ) : Flow (Vars σ) :=
  let s := r.size / bs
  if s ≠ 0 then
    match callRead read bs r r.buf s with
    | (k, r) =>
      if k ≠ s then .ret r
      else
        .next { r with
          addr := (r.addr + s * bs) % wordSize
          buf  := r.buf + s * bs
          size := r.size - s * bs }
  else .next r

/-- The section that ends not on a boundary. -/
def readTail (r : Vars σ) : Flow (Vars σ) :=
  if r.size ≠ 0 then
    let r := needBlock kalloc bs r
    match callRead read bs r r.m 1 with
    | (k, r) =>
      if k = 0 then .ret r
      else .next { r with mem := r.mem.blit r.buf (r.mem.slice r.m r.size), size := r.size - r.size }
  else .next r

/-- `assert(X)` -/
def assertion (X : Vars σ → Prop) [DecidablePred X] (r : Vars σ) : Flow (Vars σ) :=
  if X r then .next r else .halt

end DevRead

/-- What `dev_read` returns and leaves. -/
structure Answer (σ : Type*) where
  value : Nat
  dev   : σ
  mem   : Memory
  calls : List Call

/-- `dev_read`: `none` when one of its assertions fails. -/
def dev_read {σ : Type*} (kalloc : Nat → Nat) (d : Device σ) (dev : σ) (mem : Memory)
    (buf addr size : Nat) : Option (Answer σ) :=
  let leave (r : Vars σ) : Answer σ := ⟨size - r.size, r.dev, r.mem, r.calls⟩
  match d.read with
  | none => some ⟨0, dev, mem, []⟩
  | some read =>
    if size = 0 then some ⟨0, dev, mem, []⟩
    else
      let bs := d.block_size
      let start : Vars σ := ⟨dev, mem, buf, addr, size, NULL, []⟩
      let flow := readHead kalloc read bs start
        |>.andThen (assertion fun r => r.addr % bs = 0 ∨ r.size = 0)
        |>.andThen (readBody read bs)
        |>.andThen (assertion fun r => r.addr % bs = 0 ∨ r.size = 0)
        |>.andThen (assertion fun r => r.size < bs)
        |>.andThen (readTail kalloc read bs)
      match flow with
      | .next r => some (leave r)
      | .ret r => some (leave r)
      | .halt => none

end Frosk.Dev

import Mathlib.Tactic
import Frosk.Queue.Definitions

/-!
# Standard input: definitions

The embedding of `fgets` on `stdin` and `unbuffer`, of `lib/cstd/src/stdio.c`, over
the queue of the process.

* A step of `fgets` is what it does up to the end of its next system call, or the
  reading of the buffer, which no other thread can see. Sends by other threads come
  between them; a system call is not interrupted.
* `buffer` is what lies from `f->buffer` on. A byte of it remembers whether anything
  was stored there; `realloc` and `malloc` give storage that holds anything.
* What the code itself does not keep is beside it: the bytes sent, the bytes that
  `fgets` took out of the buffer, before it edits them, and the lines it returned.
-/

namespace Frosk.Stdin

open Queue (Tid)

/-- A byte of the buffer, and whether it was stored there. -/
structure Cell where
  val  : UInt8
  init : Bool
deriving DecidableEq, Repr

def stored (b : UInt8) : Cell := ⟨b, true⟩

/-- The fields of a `FILE` that `stdin` uses. -/
structure File where
  buffer : Nat → Cell
  length : Nat
  size   : Nat

namespace File

/-- `f->buffer_size - f->buffer_length`, which are unsigned. -/
def available (f : File) : Nat :=
  if f.length ≤ f.size then f.size - f.length else wordSize + f.size - f.length

/-- `memcpy` to `f->buffer`, by `recv_msg`. -/
def copy (f : File) (data : List UInt8) : File :=
  { f with buffer := fun i => (data[i]?.map stored).getD (f.buffer i) }

/-- `realloc` to a buffer of `size` bytes. -/
def grow (junk : Nat → UInt8) (size : Nat) (f : File) : File :=
  { f with
    buffer := fun i => if i < min f.size size then f.buffer i else ⟨junk i, false⟩
    size := size }

/-- The part of the buffer that is in use. -/
def contents (f : File) : List Cell := (List.range f.length).map f.buffer

/-- `unbuffer`. No place that the loop stores to is read by it. -/
def unbuffer (sz : Nat) (f : File) : File :=
  { f with
    buffer := fun i => if i < sz ∧ i + sz < f.length then f.buffer (i + sz) else f.buffer i
    length := if sz ≤ f.length then f.length - sz else wordSize + f.length - sz }

/-- `free(f->buffer)`, and a file without a buffer. -/
def closed (junk : Nat → UInt8) : File := ⟨fun i => ⟨junk i, false⟩, 0, 0⟩

end File

-- ---------------------------------------------------------------------------
-- Reading the buffer
-- ---------------------------------------------------------------------------

/-- How the loop over the buffer ends: it returns a line, or goes on with `max` and
the characters stored so far. -/
inductive Scan where
  | done (line : List UInt8)
  | more (max : Nat) (line : List UInt8)

/-- What a byte that does not end the line does to `max` and to the characters between
`buf0` and `buf`. -/
def edit (b : UInt8) (max : Nat) (line : List UInt8) : Nat × List UInt8 :=
  if b = 8 then
    if line ≠ [] then (max + 1, line.dropLast) else (max, line)
  else (max - 1, line ++ [b])

/-- The loop over the buffer: the bytes it takes, and how it ends. -/
def scan : List Cell → Nat → List UInt8 → List Cell × Scan
  | [], max, line => ([], .more max line)
  | c :: cs, max, line =>
    if c.val = 10 ∨ max = 0 then ([c], .done (line ++ [c.val]))
    else
      let r := scan cs (edit c.val max line).1 (edit c.val max line).2
      (c :: r.1, r.2)

-- ---------------------------------------------------------------------------
-- fgets
-- ---------------------------------------------------------------------------

/-- Where the process is: not in `fgets`, or before one of its system calls, or
before the loop over the buffer. -/
inductive Pc where
  | out
  | recv
  | retry (available : Nat)
  | consume (sz : Nat)
  | stop
  | scan
deriving DecidableEq, Repr

structure State where
  queue : Queue.State
  file  : File
  pc    : Pc
  next  : Ptr
  max   : Nat
  line  : List UInt8
  sent  : List UInt8
  taken : List Cell
  lines : List (List UInt8)

inductive Act where
  | send (t : Tid) (data : List UInt8)
  | call (n : Nat)
  | run

/-- What `proc_recv_msg` leaves in the process. -/
def State.received (y : State) (out : Queue.Received) (q : Queue.State) : State :=
  { y with
    queue := q
    next := out.current
    file := match out.copied with
      | some data => y.file.copy data
      | none => y.file }

/-- What `fgets` does with the answer of the first `proc_recv_msg` of a round. -/
def State.checked (junk : Nat → UInt8) (available : Nat) (y : State) (out : Queue.Received)
    (q : Queue.State) : State :=
  let y := y.received out q
  if out.size > available then
    { y with
      file := y.file.grow junk (y.file.size + (out.size - available))
      pc := .retry out.size }
  else { y with pc := .consume out.size }

/-- One step of `fgets`, called by the thread `r`. -/
def State.run (junk : Nat → UInt8) (r : Tid) (y : State) : Option State :=
  match y.pc with
  | .out => none
  | .recv =>
    (Queue.recvMsg r y.file.available y.next y.queue).map fun (out, q) =>
      y.checked junk y.file.available out q
  | .retry available =>
    (Queue.recvMsg r available y.next y.queue).map fun (out, q) =>
      { y.received out q with pc := .consume out.size }
  | .consume sz =>
    (Queue.consumeMsg r y.next y.queue).map fun (next, q) =>
      { y with
        file := { y.file with length := y.file.length + sz }
        queue := q
        next := next
        pc := if next ≠ NULL then .recv else .stop }
  | .stop => some { y with queue := Queue.stopRecv r y.next y.queue, pc := .scan }
  | .scan =>
    if y.file.length > 0 then
      match scan y.file.contents y.max y.line with
      | (taken, .done line) => some { y with
          taken := y.taken ++ taken
          lines := y.lines ++ [line]
          file := .closed junk
          pc := .out }
      | (taken, .more max line) => some { y with
          taken := y.taken ++ taken
          max := max
          line := line
          file := y.file.unbuffer y.file.length
          pc := .recv }
    else some { y with pc := .recv }

/-- The call `fgets(buf, n, stdin)`. -/
def State.call (n : Nat) (y : State) : Option State :=
  match y.pc with
  | .out => some { y with next := NULL, max := wsub n 1, line := [], pc := .recv }
  | _ => none

/-- A send by another thread, which does not return if the queue is locked. -/
def State.send (K : Kalloc) (t : Tid) (data : List UInt8) (y : State) : Option State :=
  (Queue.sendMsg K t data y.queue).map fun q => { y with queue := q, sent := y.sent ++ data }

def State.act (K : Kalloc) (junk : Nat → UInt8) (r : Tid) (y : State) : Act → Option State
  | .send t data => y.send K t data
  | .call n => y.call n
  | .run => y.run junk r

/-- A process that has not read anything, with an empty queue. -/
def State.start (junk : Nat → UInt8) (mem : Queue.Kmem) : State :=
  ⟨Queue.initMqueue mem, .closed junk, .out, NULL, 0, [], [], [], []⟩

end Frosk.Stdin

import Mathlib.Tactic
import Frosk.Common

/-!
# Message queues: definitions

The embedding of `kernel/src/mqueue.c`: a queue of messages as a doubly linked
list of kernel records, `head` the newest and `tail` the oldest, with a byte
lock that `recv_msg` takes and that is given back by whichever call ends the
iteration.

* `Kmem` is the kernel storage the queue lives in. `kfree` leaves the bytes of
  a record as they are (it only edits chunk headers), so a read through a
  pointer to freed storage is not an error here but yields what happens to be
  there; `used` and `freed` record what `kalloc` and `kfree` did.
* `owner` and `stray` are bookkeeping the C code does not have: who took the
  lock and has not given it back, and how many times a thread executed
  `unlock` without holding the lock.
* A function that cannot return (it spins on a taken lock, or an assertion
  fails and the kernel halts) yields `none`.
-/

namespace Frosk.Queue

/-- Threads, as the scheduler names them. -/
abbrev Tid := Nat

/-- `struct message`. -/
structure Message where
  data : Ptr
  size : Nat
  next : Ptr
  prev : Ptr
deriving DecidableEq, Repr

/-- `struct mqueue`. -/
structure MQueue where
  head : Ptr
  tail : Ptr
  lock : Lock
deriving DecidableEq, Repr

/-- The message records, the byte buffers they point to, and the history of
the storage behind both. -/
structure Kmem where
  msg   : Ptr → Message
  buf   : Ptr → List UInt8
  used  : List Ptr
  freed : List Ptr

/-- A queue in its kernel. -/
structure State where
  mem   : Kmem
  q     : MQueue
  owner : Option Tid
  stray : Nat

namespace State

def msg (s : State) (p : Ptr) : Message := s.mem.msg p

/-- The bytes of the message record at `p`. -/
def bytes (s : State) (p : Ptr) : List UInt8 := s.mem.buf (s.msg p).data

def setMsg (s : State) (p : Ptr) (m : Message) : State :=
  { s with mem := { s.mem with msg := Function.update s.mem.msg p m } }

/-- `p->next = v`. -/
def setNext (s : State) (p v : Ptr) : State := s.setMsg p { s.msg p with next := v }

/-- `p->prev = v`. -/
def setPrev (s : State) (p v : Ptr) : State := s.setMsg p { s.msg p with prev := v }

/-- `if (p) p->next = v`. -/
def tryNext (s : State) (p v : Ptr) : State := if p ≠ NULL then s.setNext p v else s

/-- `if (p) p->prev = v`. -/
def tryPrev (s : State) (p v : Ptr) : State := if p ≠ NULL then s.setPrev p v else s

/-- `queue->head = v`. -/
def setHead (s : State) (v : Ptr) : State := { s with q := { s.q with head := v } }

/-- `queue->tail = v`. -/
def setTail (s : State) (v : Ptr) : State := { s with q := { s.q with tail := v } }

def kfree (s : State) (p : Ptr) : State :=
  { s with mem := { s.mem with used := s.mem.used.erase p, freed := p :: s.mem.freed } }

end State

/-- `lock_queue`, called by thread `t`. -/
def lockQueue (t : Tid) (s : State) : Option State :=
  (getlock s.q.lock).map fun l => { s with q := { s.q with lock := l }, owner := some t }

/-- `unlock_queue`, called by thread `t`. -/
def unlockQueue (t : Tid) (s : State) : State :=
  { s with
    q := { s.q with lock := .UNLOCKED }
    owner := none
    stray := if s.owner = some t then s.stray else s.stray + 1 }

/-- `create_message`: a record and a buffer, the bytes copied over. -/
def createMessage (K : Kalloc) (data : List UInt8) (mem : Kmem) : Ptr × Kmem :=
  let m := K.pick mem.used
  let d := K.pick (m :: mem.used)
  (m, { msg := Function.update mem.msg m ⟨d, data.length, NULL, NULL⟩
        buf := Function.update mem.buf d data
        used := d :: m :: mem.used
        freed := mem.freed })

/-- `is_empty`. -/
def isEmpty (q : MQueue) : Bool := q.head == NULL

/-- `send_msg`. -/
def sendMsg (K : Kalloc) (t : Tid) (data : List UInt8) (s : State) : Option State :=
  (lockQueue t s).map fun s =>
    let m := (createMessage K data s.mem).1
    let s := { s with mem := (createMessage K data s.mem).2 }
    unlockQueue t <|
      if isEmpty s.q then (s.setHead m).setTail m
      else ((s.setPrev s.q.head m).setNext m s.q.head).setHead m

/-- What `recv_msg` hands back: the cursor, the size it returns, and the bytes
it copied into the caller's buffer, if it did. -/
structure Received where
  current : Ptr
  size    : Nat
  copied  : Option (List UInt8)

/-- The rest of `recv_msg`, once the cursor has moved to `current`. -/
def recvAt (t : Tid) (size : Nat) (current : Ptr) (s : State) : Received × State :=
  if current = NULL then (⟨NULL, 0, none⟩, unlockQueue t s)
  else
    let m := s.msg current
    (⟨current, m.size, if m.size ≤ size then some (s.bytes current) else none⟩, s)

/-- `recv_msg` with a buffer of `size` bytes. A `NULL` cursor starts an
iteration, with the lock, at the oldest message; another one moves on. -/
def recvMsg (t : Tid) (size : Nat) (current : Ptr) (s : State) : Option (Received × State) :=
  if current = NULL then (lockQueue t s).map fun s => recvAt t size s.q.tail s
  else some (recvAt t size (s.msg current).prev s)

/-- The part of `consume_msg` that takes the message at the cursor out of the
list, with the cursor it leaves. The head case asserts that there is an older
message. -/
def unlink (m : Ptr) (s : State) : Option (Ptr × State) :=
  let prev := (s.msg m).prev
  let next := (s.msg m).next
  if m = s.q.tail then
    let s := (s.setTail prev).tryNext prev NULL
    some (NULL, if m = s.q.head then s.setHead NULL else s)
  else if m = s.q.head then
    if next = NULL then none
    else some (m, (s.setHead next).setPrev next NULL)
  else some (next, (s.tryNext prev next).tryPrev next prev)

/-- `consume_msg`. The storage is freed only while the cursor stays non-`NULL`;
otherwise the lock is given back. -/
def consumeMsg (t : Tid) (current : Ptr) (s : State) : Option (Ptr × State) :=
  let m := current
  let taken : Option (Ptr × State) := if current = NULL then some (NULL, s) else unlink m s
  taken.map fun (current, s) =>
    if current ≠ NULL then (current, (s.kfree (s.msg m).data).kfree m)
    else (NULL, unlockQueue t s)

/-- `stop_recv`. It does not touch the cursor. -/
def stopRecv (t : Tid) (current : Ptr) (s : State) : State :=
  if current ≠ NULL then unlockQueue t s else s

/-- Kernel storage before anything was allocated in it. -/
def Kmem.empty : Kmem := ⟨fun _ => ⟨NULL, 0, NULL, NULL⟩, fun _ => [], [], []⟩

/-- `init_mqueue`. -/
def initMqueue (mem : Kmem) : State :=
  { mem := mem, q := ⟨NULL, NULL, .UNLOCKED⟩, owner := none, stray := 0 }

-- ---------------------------------------------------------------------------
-- The receiver's protocol
-- ---------------------------------------------------------------------------

/-- Where a receiver stands in its iteration: not iterating; at a message it
just received; at the neighbour of a message it consumed; at the freed record
of the newest message, which it consumed; stopped, with a stale cursor. -/
inductive Phase where
  | idle
  | received
  | passed
  | dangling
  | stopped
deriving DecidableEq, Repr

/-- The iteration has begun and no call has ended it. -/
def Phase.isOpen : Phase → Bool
  | .received | .passed | .dangling => true
  | .idle | .stopped => false

def Phase.afterRecv (current : Ptr) : Phase :=
  if current = NULL then .idle else .received

/-- `consume_msg` leaves the cursor where it was only at the newest message. -/
def Phase.afterConsume (before current : Ptr) : Phase :=
  if current = NULL then .idle else if current = before then .dangling else .passed

def Phase.afterStop (current : Ptr) (ph : Phase) : Phase :=
  if current = NULL then ph else .stopped

end Frosk.Queue

import Mathlib.Tactic
import Frosk.Common

/-!
# Keyboard: definitions

The embedding of `kernel/src/dev/ps2.c`: the buffer of scancodes behind the file
`kb`, and the two ways into it. `kb_put`, called by the interrupt, stores a scancode
at once if the file is not locked; otherwise it goes to a list that the thread
`kb_put_delayed` takes from.

* The buffer is by index, with what is in memory around it: an index that is not
  its own is an access to something else.
* `head` is an `int`, and `%` on it rounds towards zero, so it is `-1` below `0`.
* The list between `first` and `last` is a list. Its `ls_lock` is only held by the
  worker between two steps; an interrupt that needs it meanwhile never returns.
* A step of the worker is what it does between two places where another thread or an
  interrupt can be seen. The interrupt itself runs with interrupts off.
-/

namespace Frosk.Keyboard

/-- `KB_BUFFER_SIZE`. -/
abbrev kbBufferSize : Nat := 1024

/-- The buffer and the file `kb`. -/
structure Kb where
  buffer : Int → UInt8
  head   : Int
  size   : Nat
  lock   : Lock

/-- What `kb_put_actual` does while it has the lock. -/
def store (sc : UInt8) (kb : Kb) : Kb :=
  let head := (kb.head + 1).tmod kbBufferSize
  { kb with
    head := head
    buffer := Function.update kb.buffer head sc
    size := (kb.size + 1) % wordSize }

def kbPutActual (sc : UInt8) (kb : Kb) : Kb × Bool :=
  let (free, lock) := trylock kb.lock
  if ¬ free then ({ kb with lock := lock }, false)
  else ({ store sc { kb with lock := lock } with lock := .UNLOCKED }, true)

/-- With the lock free the code is stored. -/
theorem kbPutActual_free {kb : Kb} (h : kb.lock = .UNLOCKED) (sc : UInt8) :
    kbPutActual sc kb = (store sc kb, true) := by
  rw [kbPutActual, h]
  rw [store, h]
  rfl

/-- With the lock held nothing is stored. -/
theorem kbPutActual_locked {kb : Kb} (h : kb.lock = .LOCKED) (sc : UInt8) :
    kbPutActual sc kb = (kb, false) := by
  cases kb
  subst h
  rfl

/-- The loop of `kb_fs_read`: the places it reads from, and where it ends. -/
def readLoop : Nat → Int → List Int × Int
  | 0, head => ([], head)
  | n + 1, head =>
    let (places, last) := readLoop n ((head - 1).tmod kbBufferSize)
    (head :: places, last)

/-- `kb_fs_read`, which does not use its address: the places it reads, and what it
leaves. The bytes it returns are those at the places. -/
def kbFsRead (size : Nat) (kb : Kb) : Kb × List Int :=
  let size := if size > kb.size then kb.size else size
  let (places, head) := readLoop size kb.head
  ({ kb with head := head, size := kb.size - size }, places)

-- ---------------------------------------------------------------------------
-- kb_put and kb_put_delayed
-- ---------------------------------------------------------------------------

/-- A scancode, with the number of its interrupt. -/
structure Item where
  sc  : UInt8
  num : Nat
deriving DecidableEq

/-- Where the worker is. -/
inductive Worker where
  | none
  | check
  | getlock
  | take
  | unlock (l : Item)
  | try (l : Item)
  | store (l : Item)
  | release (l : Item)

/-- The keyboard, the list, the worker, and whether a process has the lock of the
file. What has arrived and what was stored is kept beside it. -/
structure State where
  kb      : Kb
  list    : List Item
  lsLock  : Lock
  worker  : Worker
  user    : Bool
  arrived : List Item
  stored  : List Item

inductive Act where
  | interrupt (sc : UInt8)
  | acquire
  | release
  | work

/-- `kb_put`, as the interrupt calls it. -/
def kbPut (sc : UInt8) (s : State) : Option State :=
  let l : Item := ⟨sc, s.arrived.length⟩
  let s := { s with arrived := s.arrived ++ [l] }
  let (kb, done) := kbPutActual sc s.kb
  let s := { s with kb := kb }
  if done then some { s with stored := s.stored ++ [l] }
  else
    match getlock s.lsLock with
    | none => none
    | some _ =>
      let s := { s with list := s.list ++ [l], lsLock := .UNLOCKED }
      some (match s.worker with
        | .none => { s with worker := .check }
        | _ => s)

/-- One step of `kb_put_delayed`, once it was spawned. -/
def kbPutDelayed (s : State) : Option State :=
  match s.worker with
  | .none => some s
  | .check => if s.list ≠ [] then some { s with worker := .getlock } else some s
  | .getlock =>
    match getlock s.lsLock with
    | none => none
    | some l => some { s with lsLock := l, worker := .take }
  | .take =>
    match s.list with
    | [] => none
    | l :: list => some { s with list := list, worker := .unlock l }
  | .unlock l => some { s with lsLock := .UNLOCKED, worker := .try l }
  | .try l =>
    let (free, lock) := trylock s.kb.lock
    let s := { s with kb := { s.kb with lock := lock } }
    if free then some { s with worker := .store l } else some s
  | .store l => some { s with
      kb := store l.sc s.kb, stored := s.stored ++ [l], worker := .release l }
  | .release _ => some { s with kb := { s.kb with lock := .UNLOCKED }, worker := .check }

/-- `pub_fs_acquire` on the file `kb`. -/
def acquire (s : State) : State :=
  let (free, lock) := trylock s.kb.lock
  { s with kb := { s.kb with lock := lock }, user := s.user || free }

/-- `pub_fs_release`: a process gives back the lock it has. -/
def release (s : State) : State :=
  if s.user then { s with kb := { s.kb with lock := .UNLOCKED }, user := false } else s

/-- No result if `getlock` is called on a lock that is not given back. -/
def act (s : State) : Act → Option State
  | .interrupt sc => kbPut sc s
  | .acquire => some (acquire s)
  | .release => some (release s)
  | .work => kbPutDelayed s

end Frosk.Keyboard

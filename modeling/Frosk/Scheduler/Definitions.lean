import Mathlib.Tactic
import Frosk.Lib.Run
import Frosk.Lib.Ring
import Frosk.Strings
import Frosk.Regions.Definitions

/-!
# Scheduler: definitions

The embedding of `kernel/src/scheduler.c`, of `yield` in `scheduler.asm` and of
`page_fault` in `paging.c`.

* Threads are on a ring by `next_sched`; `yield` looks round it from `head_thrd`
  for a ready thread other than the current one.
* What `uspawn` and `schedule` put into the new regions is stored through the
  page map, as the source does it, while they are mapped at a temporary place.
* The message queue of a process, its time slice and the floating point
  registers of a thread are not part of the model.
-/

namespace Frosk.Scheduler

open Lib Regions

inductive ThreadState where
  | READY
  | SETUP
  | RUNNING
deriving DecidableEq, Repr

structure Process where
  next   : Ptr
  parent : Ptr
  first  : Ptr
  code   : Ptr

structure Thread where
  parent     : Ptr
  nextInproc : Ptr
  nextSched  : Ptr
  stack      : Ptr
  rsp        : Nat
  state      : ThreadState
  pageFl     : Nat

structure State where
  space         : Space
  proc          : Ptr → Process
  thr           : Ptr → Thread
  headProc      : Ptr
  headThrd      : Ptr
  curThrd       : Ptr
  schedulerLock : Lock

/-- The code that starts a user thread, whose instructions take 29 bytes at least,
and the flags register. -/
structure Image where
  preamble : List UInt8
  long     : 29 ≤ preamble.length
  flags    : Nat

namespace State

def modifyProc (s : State) (p : Ptr) (f : Process → Process) : State :=
  { s with proc := Function.update s.proc p (f (s.proc p)) }

def modifyThr (s : State) (t : Ptr) (f : Thread → Thread) : State :=
  { s with thr := Function.update s.thr t (f (s.thr t)) }

/-- `getlock(&scheduler_lock)`. -/
def lock (s : State) : Except Fault State :=
  match getlock s.schedulerLock with
  | none => .error .hang
  | some l => .ok { s with schedulerLock := l }

def unlock (s : State) : State := { s with schedulerLock := .UNLOCKED }

end State

-- ---------------------------------------------------------------------------
-- scheduler.c
-- ---------------------------------------------------------------------------

def createProcess (E : Env) (s : State) : State × Ptr :=
  let (space, p) := s.space.alloc E
  let parent := if s.curThrd ≠ NULL then (s.thr s.curThrd).parent else NULL
  ({ s with space := space }.modifyProc p fun v => { v with first := NULL, parent := parent }, p)

def addProcess (p : Ptr) (s : State) : Except Fault State := do
  let s ← s.lock
  let s :=
    if s.headProc = NULL then { s.modifyProc p fun v => { v with next := p } with headProc := p }
    else
      (s.modifyProc p fun v => { v with next := (s.proc s.headProc).next }).modifyProc s.headProc
        fun v => { v with next := p }
  .ok s.unlock

abbrev kernCs : Nat := 0x08

abbrev kernDs : Nat := 0x10

abbrev userCs : Nat := 0x18

abbrev userDs : Nat := 0x20

/-- The words `schedule` puts below the top of the new stack, the lowest first. -/
def startFrame (I : Image) (start : Nat) (extv : List Nat) (kthrd : Bool) : List Nat :=
  [1, start, if kthrd then kernCs else userCs ||| 3, I.flags ||| 0x200,
    lowHalfTop - pageSize - 8 * extv.length, if kthrd then kernDs else userDs ||| 3] ++
    extv.reverse

/-- The thread is put on the ring of threads, behind its head. -/
def linkThread (t : Ptr) (s : State) : State :=
  if s.headThrd = NULL then
    { s.modifyThr t fun v => { v with nextSched := t } with headThrd := t }
  else
    (s.modifyThr t fun v => { v with nextSched := (s.thr s.headThrd).nextSched }).modifyThr
      s.headThrd fun v => { v with nextSched := t }

def schedule (E : Env) (I : Image) (par start : Nat) (extv : List Nat) (kthrd : Bool) (s : State) :
    Except Fault (State × Ptr) := do
  let (space, t) := s.space.alloc E
  let (space, tvirt) ← allocVirt E (2 * pageSize) space
  let (space, stack) ← allocate E ((tvirt + 2 * pageSize) % wordSize) (2 * pageSize) false space
  let rsp := lowHalfTop - pageSize - 8 * (6 + extv.length)
  let s := { s with space := space }.modifyThr t fun v => { v with
    stack := stack, state := .SETUP, parent := par, rsp := rsp, pageFl := if kthrd then 3 else 7 }
  let (space, _) ← swapin stack 3 s.space
  let frame := (startFrame I start extv kthrd).flatMap (leBytes 8)
  let space ← storeBytes (tvirt + pageSize - 8 * (6 + extv.length)) frame space
  let space ← swapout stack space
  let space := freeVirt tvirt (2 * pageSize) (shiftRgn stack lowHalfTop space)
  let s ← { s with space := space }.lock
  let s := (linkThread t s).unlock
  let s := s.modifyThr t fun v => { v with nextInproc := (s.proc par).first }
  let s := s.modifyProc par fun v => { v with first := t }
  .ok (s.modifyThr t fun v => { v with state := .READY }, t)

/-- The size of what `uspawn` loads: code, zeros and the preamble, then the
array of arguments and their texts. -/
def imageSize (I : Image) (csz bsz : Nat) (argv : List CStr) : Nat :=
  let size := align ((csz + bsz + I.preamble.length) % wordSize) 8
  (size + argv.length * 8 + (argv.map fun a => a.chars.length + 1).sum) % wordSize

/-- The loop that copies the arguments: the array is at `argvt`, the texts are
from `i` on, and `i` moves behind them, which may be the end of all addresses. -/
def storeArgs (tvirt : Nat) : Nat → Nat → List CStr → Space → Except Fault (Space × Nat)
  | _, i, [], s => .ok (s, i)
  | argvt, i, a :: argv, s => do
    let s ← storeBytes argvt (leBytes 8 ((wsub i tvirt + uspaceBot) % wordSize)) s
    let s ← storeBytes i (a.chars ++ [0]) s
    storeArgs tvirt (argvt + 8) ((i + (a.chars.length + 1)) % wordSize) argv s

def uspawn (E : Env) (I : Image) (data : List UInt8) (bsz entry : Nat) (argv : List CStr)
    (s : State) : Except Fault (State × Ptr) := do
  let (s, p) := createProcess E s
  let csz := data.length
  let size := imageSize I csz bsz argv
  let (space, tvirt) ← allocVirt E size s.space
  let (space, code) ← allocate E tvirt size true space
  let s := { s with space := space }.modifyProc p fun v => { v with code := code }
  let (space, _) ← swapin code 3 s.space
  let space ← storeBytes tvirt (data ++ List.replicate bsz 0 ++ I.preamble) space
  let i := align ((tvirt + csz + bsz + I.preamble.length) % wordSize) 8
  let (space, top) ← storeArgs tvirt i ((i + argv.length * 8) % wordSize) argv space
  if wsub top tvirt ≠ size then .error .assertion
  else do
    let space ← swapout code space
    let space := freeVirt tvirt size (shiftRgn code uspaceBot space)
    let s ← addProcess p { s with space := space }
    let (s, _) ← schedule E I p (csz + bsz + uspaceBot)
      [entry, (wsub i tvirt + uspaceBot) % wordSize, argv.length] false s
    .ok (s, p)

def kspawn (E : Env) (I : Image) (func : Nat) (s : State) : Except Fault (State × Ptr) := do
  let (s, p) := createProcess E s
  let s ← addProcess p (s.modifyProc p fun v => { v with code := NULL })
  let (s, _) ← schedule E I p func [] true s
  .ok (s, p)

-- ---------------------------------------------------------------------------
-- yield
-- ---------------------------------------------------------------------------

/-- The search for a thread that is ready and not the current one; it ends back
at `head_thrd`. -/
def searchThread (n : Nat) (s : State) : Option (Option Ptr) :=
  (iterate (scanBody (fun t => (s.thr t).nextSched)
    (fun t => (s.thr t).state = .READY ∧ t ≠ s.curThrd)
    (fun _ next => next = s.headThrd)) n (s.headThrd, s.headThrd)).map fun r =>
      if r.2 then some r.1.2 else none

/-- The switch to thread `t`, with `rsp` in hand. -/
def switchTo (rsp : Nat) (t : Ptr) (s : State) : Except Fault State := do
  let s := s.modifyThr t fun v => { v with state := .RUNNING }
  let s := { s with headThrd := (s.thr t).nextSched }
  let old := if s.curThrd = NULL then NULL else (s.proc (s.thr s.curThrd).parent).code
  let (space, _) ← swapflop old (s.proc (s.thr t).parent).code 7 s.space
  let s := { s with space := space }
  let oldStack := if s.curThrd = NULL then NULL else (s.thr s.curThrd).stack
  let s := if s.curThrd = NULL then s
    else s.modifyThr s.curThrd fun v => { v with state := .READY, rsp := rsp }
  let s := { s with curThrd := t }
  let (space, _) ← swapflop oldStack (s.thr t).stack 7 s.space
  .ok { s with space := space }

/-- `yield`, with a bound on its search: it returns early if the scheduler is
locked or nothing else is ready. -/
def yield (n rsp : Nat) (s : State) : Except Fault State :=
  if s.schedulerLock = .LOCKED ∨ s.headThrd = NULL then .ok s
  else
    match searchThread n s with
    | none => .error .hang
    | some none => .ok s
    | some (some t) => switchTo rsp t s

-- ---------------------------------------------------------------------------
-- page_fault
-- ---------------------------------------------------------------------------

/-- `ERROR_WRITE | ERROR_USER`. -/
abbrev userWrite : Nat := 0x02 ||| 0x04

def pageFault (E : Env) (error cr2 : Nat) (s : State) : Except Fault State :=
  if error ≠ userWrite then .error .hang
  else do
    let page := floor cr2 pageSize
    let heap := (s.proc (s.thr s.curThrd).parent).code
    let stack := (s.thr s.curThrd).stack
    let (space, found) ← assure E stack page 7 s.space
    if found then .ok { s with space := space }
    else do
      let (space, found) ← assure E heap page 7 space
      if found then .ok { s with space := space }
      else if page < lowHalfTop / 2 then do
        let space ← grow heap ((page + pageSize) % wordSize) space
        let (space, _) ← assure E heap page 7 space
        .ok { s with space := space }
      else do
        let space ← grow stack page space
        let (space, _) ← assure E stack page 7 space
        .ok { s with space := space }

end Frosk.Scheduler

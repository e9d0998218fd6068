import Mathlib.Tactic
import Frosk.Strings
import Frosk.Lib.Run
import Frosk.Fs.Definitions
import Frosk.Scheduler.Definitions

/-!
# Execution of files: definitions

The embedding of `kernel/src/exec.c`, over the file system and the scheduler.

* A buffer is a part of the kernel's memory. Every access to a buffer is recorded with
  the size that the buffer has (`Touch`), also if the call does not return in the end.
* Arguments are the addresses of their texts, which `uspawn` reads.
* `kalloc` finds a place for every block; which one is its own business. The
  array of arguments is a list, but its storage is allocated and freed.
* The index of the scan is an `int`, which comes to the negative numbers behind `0x7FFFFFFF`.
* A call that does not return (an assertion fails, or a bound is too small) has no result.
-/

namespace Frosk.Exec

open Lib

/-- What `exec.c` uses. `heap` is where `kalloc` puts a block when some are in use. -/
structure Env where
  fs    : Fs.Env
  rgn   : Regions.Env
  image : Scheduler.Image
  heap  : List (Ptr × Nat) → Nat → Ptr

structure State where
  fs    : Fs.State
  sched : Scheduler.State
  used  : List (Ptr × Nat)

/-- An access to a byte of a buffer. -/
structure Touch where
  size  : Nat
  index : Int
deriving DecidableEq

/-- The bytes of a buffer from `a` on, of which there are `n`. -/
def touches (size a n : Nat) : List Touch := (List.range n).map fun j => ⟨size, (a + j : Nat)⟩

def kalloc (E : Env) (n : Nat) (s : State) : State × Ptr :=
  ({ s with used := (E.heap s.used n, n) :: s.used }, E.heap s.used n)

def kfree (p : Ptr) (s : State) : State := { s with used := s.used.filter fun b => b.1 ≠ p }

-- ---------------------------------------------------------------------------
-- Binaries
-- ---------------------------------------------------------------------------

/-- `FBE_MARK`. -/
abbrev fbeMark : Nat := 0xFBE0FBE0

/-- `fbe_hdr`, which has 32 bytes. -/
structure FbeHdr where
  mark     : Nat
  version  : Nat
  codeSize : Nat
  bssSize  : Nat
  entry    : Nat

/-- The header at the start of a buffer. -/
def fbeHdr (m : Memory) (buf : Ptr) : FbeHdr :=
  ⟨m.get 4 buf, m.get 4 (buf + 4), m.get 8 (buf + 8), m.get 8 (buf + 16), m.get 8 (buf + 24)⟩

/-- `uspawn` of the code behind the header. -/
def spawnBinary (E : Env) (k : Nat) (buf : Ptr) (argv : List Ptr) (s : State) : Option (State × Ptr) := do
  let hdr := fbeHdr s.fs.mem buf
  let args ← argv.mapM (Fs.strAt s.fs.mem k)
  let data := s.fs.mem.slice (buf + 32) hdr.codeSize
  let (sched, p) ← (Scheduler.uspawn E.rgn E.image data hdr.bssSize hdr.entry args s.sched).toOption
  some ({ s with sched := sched }, p)

/-- `bexec`. Of the header all fields but `version` are read. -/
def bexec (E : Env) (k : Nat) (buf : Ptr) (size : Nat) (argv : List Ptr) (s : State) :
    List Touch × Option (State × Ptr) :=
  if size > 4 then
    if s.fs.mem.get 4 buf = fbeMark then
      (touches size 0 4 ++ touches size 8 24 ++ touches size 32 (fbeHdr s.fs.mem buf).codeSize,
        spawnBinary E k buf argv s)
    else (touches size 0 4, some (s, NULL))
  else ([], some (s, NULL))

/-- `pub_bexec`, with a buffer of the caller. -/
def pubBexec (E : Env) (k : Nat) (buf : Ptr) (size : Nat) (argv : List Ptr) (s : State) :
    List Touch × Option (State × Ptr) :=
  bexec E k buf size argv s

-- ---------------------------------------------------------------------------
-- Scripts
-- ---------------------------------------------------------------------------

/-- The byte `buf[i]`. -/
def byteAt (m : Memory) (buf : Ptr) (i : Int) : UInt8 := m (buf + i).toNat

/-- `i++` of an `int`. -/
def succInt (i : Int) : Int := if i = 0x7FFFFFFF then -0x80000000 else i + 1

/-- The byte ends a name. -/
abbrev EndsName (c : UInt8) : Prop := c = 10 ∨ c = 0

/-- The loop that looks for the end of the line: the indices it reads at, and where it stops. -/
def scan (m : Memory) (buf : Ptr) : Nat → Int → List Int × Option Int
  | 0, _ => ([], none)
  | k + 1, i =>
    if EndsName (byteAt m buf i) then ([i], some i)
    else (i :: (scan m buf k (succInt i)).1, (scan m buf k (succInt i)).2)

/-- The buffer begins with `SHEBANG`. -/
def isScript (m : Memory) (buf : Ptr) (size : Nat) : Prop :=
  size > 2 ∧ m buf = 35 ∧ m (buf + 1) = 33

instance (m : Memory) (buf : Ptr) (size : Nat) : Decidable (isScript m buf size) :=
  inferInstanceAs (Decidable (_ ∧ _))

/-- A call of `fexec` in the making: its arguments, and the state. -/
structure Call where
  fn    : CStr
  argv  : List Ptr
  state : State

/-- What `fexec` has loaded. -/
structure Buffer where
  buf   : Ptr
  size  : Nat
  argv  : List Ptr
  state : State

namespace Buffer

def mem (B : Buffer) : Memory := B.state.fs.mem

/-- The state with `nargv` allocated, and its address. -/
def withNargv (E : Env) (B : Buffer) : State × Ptr := kalloc E (8 * (B.argv.length + 1)) B.state

/-- `buf[i] = 0`. -/
def cut (B : Buffer) (i : Int) (s : State) : State :=
  { s with fs := { s.fs with mem := Function.update s.fs.mem (B.buf + i).toNat 0 } }

/-- The accesses up to the call for the interpreter. -/
def scanned (k : Nat) (B : Buffer) : List Touch :=
  ((scan B.mem B.buf k 2).1 ++ (scan B.mem B.buf k 2).2.toList).map fun i => ⟨B.size, i⟩

/-- The call for the interpreter of a script. -/
def interpreter (E : Env) (k : Nat) (B : Buffer) : Option Call := do
  let i ← (scan B.mem B.buf k 2).2
  let s := B.cut i (B.withNargv E).1
  let name ← Fs.strAt s.fs.mem k (B.buf + 2)
  some ⟨name, (B.buf + 2) :: B.argv, s⟩

end Buffer

-- ---------------------------------------------------------------------------
-- fexec
-- ---------------------------------------------------------------------------

/-- What a call comes to when it is clear what there is to execute. -/
inductive Found where
  | nothing (s : State)
  | loaded (B : Buffer)

/-- `fexec` up to the test for a script. -/
def load (E : Env) (k : Nat) (cd : Ptr) (c : Call) : Option Found := do
  let (fs, file) ← Fs.fsRetrieve E.fs k c.fn cd c.state.fs
  let s := { c.state with fs := fs }
  if file = NULL then some (.nothing s)
  else do
    let (fs, size) ← Fs.fsSize E.fs k file s.fs
    let s := { s with fs := fs }
    if size > 1 then do
      let (s, buf) := kalloc E size s
      let (fs, _, bytes) ← Fs.fsRead E.fs k 0 size file s.fs
      let fs := { fs with mem := fs.mem.blit buf bytes }
      some (.loaded ⟨buf, size, c.argv, { s with fs := fs }⟩)
    else some (.nothing s)

/-- `fexec`, to the given depth of calls. -/
def fexec (E : Env) (k : Nat) (cd : Ptr) : Nat → Call → List Touch × Option (State × Ptr)
  | 0, _ => ([], none)
  | d + 1, c =>
    match load E k cd c with
    | none => ([], none)
    | some (.nothing s) => ([], some (s, NULL))
    | some (.loaded B) =>
      let marks := if B.size > 2 then touches B.size 0 2 else []
      if isScript B.mem B.buf B.size then
        match B.interpreter E k with
        | none => (marks ++ B.scanned k, none)
        | some c' =>
          let r := fexec E k cd d c'
          (marks ++ B.scanned k ++ r.1, r.2.map fun (s, p) => (kfree B.buf (kfree (B.withNargv E).2 s), p))
      else
        let r := bexec E k B.buf B.size B.argv B.state
        (marks ++ r.1, r.2.map fun (s, p) => (kfree B.buf s, p))

end Frosk.Exec

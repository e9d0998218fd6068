import Mathlib.Tactic
import Frosk.Fcurses.Definitions
import Frosk.Keyboard.Buffer
import Frosk.Keyboard.Order
import Frosk.Stdin.Definitions

/-!
# The first program: definitions

The embedding of `prgm/start/src/start.c`: the program that draws the screen, passes
the keys on to the program it started, and shows what that program prints.

* A step is what it does up to the end of its next system call on a queue or on the
  file `kb`. Messages, interrupts, the worker of the keyboard and the program it
  started come between them. Nobody else writes to the screen.
* `fs_acquire` answers `NULL` if `kb` is locked, and then `fs_release` stores to
  kernel memory that nothing uses.
* The program that it started reads its keys by `fgets`, whenever it likes, and sends
  messages, with whatever bytes it likes.
* What the code does not keep is beside it: the messages sent to it, the scancodes it
  went through, and what it put on the screen.
-/

namespace Frosk.Shell

open Lib Fcurses
open Queue (Tid)

-- ---------------------------------------------------------------------------
-- Keys
-- ---------------------------------------------------------------------------

abbrev RELEASE : UInt8 := 0x80

abbrev LSHIFT : UInt8 := 0x2A

abbrev RSHIFT : UInt8 := 0x36

/-- `key_state_t`. -/
structure KeyState where
  lshift : Bool
  rshift : Bool
deriving DecidableEq

/-- Characters of a table, those that are `0` included. -/
def chars (l : List Char) : List UInt8 := l.map fun c => UInt8.ofNat c.toNat

def scanCode1ToChar : List UInt8 := chars [
  '\x00', '\x00', '1', '2', '3', '4', '5', '6', '7', '8', '9', '0', '-', '=', '\x08', '\t',
  'q', 'w', 'e', 'r', 't', 'y', 'u', 'i', 'o', 'p', '[', ']', '\n', '\x00',
  'a', 's', 'd', 'f', 'g', 'h', 'j', 'k', 'l', ';', '\x27', '\x60', '\x00', '\\',
  'z', 'x', 'c', 'v', 'b', 'n', 'm', ',', '.', '/', '\x00', '*', '\x00', ' ', '\x00',
  '\x00', '\x00', '\x00', '\x00', '\x00', '\x00', '\x00', '\x00', '\x00', '\x00', '\x00', '\x00',
  '7', '8', '9', '-', '4', '5', '6', '+', '1', '2', '3', '0', '.',
  '\x00', '\x00', '\x00', '\x00']

def scanCode1ToCharShifted : List UInt8 := chars [
  '\x00', '\x00', '!', '@', '#', '$', '%', '^', '&', '*', '(', ')', '_', '+', '\x08', '\t',
  'Q', 'W', 'E', 'R', 'T', 'Y', 'U', 'I', 'O', 'P', '\x7b', '\x7d', '\n', '\x00',
  'A', 'S', 'D', 'F', 'G', 'H', 'J', 'K', 'L', ':', '\x22', '~', '\x00', '?',
  'Z', 'X', 'C', 'V', 'B', 'N', 'M', '<', '>', '?', '\x00', '*', '\x00', ' ', '\x00',
  '\x00', '\x00', '\x00', '\x00', '\x00', '\x00', '\x00', '\x00', '\x00', '\x00', '\x00', '\x00',
  '7', '8', '9', '-', '4', '5', '6', '+', '1', '2', '3', '0', '.',
  '\x00', '\x00', '\x00', '\x00']

/-- What `process_key` does to the state of the shift keys. -/
def KeyState.after (scancode : UInt8) (state : KeyState) : KeyState :=
  if scancode ≥ RELEASE then
    let state := if scancode = LSHIFT ||| RELEASE then { state with lshift := false } else state
    if scancode = RSHIFT ||| RELEASE then { state with rshift := false } else state
  else
    let state := if scancode = LSHIFT then { state with lshift := true } else state
    if scancode = RSHIFT then { state with rshift := true } else state

/-- The `ch` of `process_key`, which is `0` also where the code does not get to it. -/
def KeyState.char (scancode : UInt8) (state : KeyState) : UInt8 :=
  if scancode ≥ RELEASE then 0
  else if scancode.toNat < scanCode1ToChar.length then
    if state.lshift ∨ state.rshift then scanCode1ToCharShifted.getD scancode.toNat 0
    else scanCode1ToChar.getD scancode.toNat 0
  else 0

-- ---------------------------------------------------------------------------
-- The box
-- ---------------------------------------------------------------------------

abbrev DBOX_VERT : Int := 0xBA

abbrev DBOX_HORZ : Int := 0xCD

abbrev DBOX_TL_C : Int := 0xC9

abbrev DBOX_TR_C : Int := 0xBB

abbrev DBOX_BL_C : Int := 0xC8

abbrev DBOX_BR_C : Int := 0xBC

/-- The first loop of `box_screen`, up to line `n`. -/
def boxSides (style : Int) (scr : Screen) (n : Nat) : Screen :=
  (List.range n).foldl (fun scr (i : Nat) =>
    fcPutc (fcPutc scr DBOX_VERT 0 (i + 1) style) DBOX_VERT (scr.width - 1) (i + 1) style) scr

/-- The second loop of `box_screen`, up to column `n`. -/
def boxEnds (style : Int) (scr : Screen) (n : Nat) : Screen :=
  (List.range n).foldl (fun scr (i : Nat) =>
    fcPutc (fcPutc scr DBOX_HORZ (i + 1) 0 style) DBOX_HORZ (i + 1) (scr.height - 1) style) scr

def boxScreen (scr : Screen) (style : Int) : Screen :=
  let scr := fcPutc scr DBOX_TL_C 0 0 style
  let scr := fcPutc scr DBOX_BL_C 0 (scr.height - 1) style
  let scr := fcPutc scr DBOX_TR_C (scr.width - 1) 0 style
  let scr := fcPutc scr DBOX_BR_C (scr.width - 1) (scr.height - 1) style
  let scr := boxSides style scr (scr.height - 2).toNat
  boxEnds style scr (scr.width - 2).toNat

-- ---------------------------------------------------------------------------
-- The program
-- ---------------------------------------------------------------------------

/-- `sizeof(msg)` and `sizeof(buf)`. -/
abbrev bufSize : Nat := 128

/-- A buffer of the program, and what a system call copies to it. -/
abbrev Buffer := Nat → UInt8

def Buffer.copy (data : List UInt8) (buf : Buffer) : Buffer := fun i => (data[i]?).getD (buf i)

/-- Where the program is: before a system call, or before it looks at `buf[i]`, or
in `halt`. -/
inductive Pc where
  | recv
  | consume
  | stop
  | acquire
  | size
  | read (size : Nat)
  | key (i : Nat)
  | release
  | halt
deriving DecidableEq

/-- What it puts on the screen at once: a message, the character of a key, or that
there was too much input. -/
inductive Output where
  | message (data : List UInt8)
  | key (ch : UInt8)
  | full
deriving DecidableEq

structure State where
  queue : Queue.State
  next  : Ptr
  kb    : Keyboard.State
  child : Stdin.State
  win   : Window
  state : KeyState
  msg   : Buffer
  buf   : Buffer
  pc    : Pc
  sent  : List (List UInt8)
  typed : List UInt8
  log   : List Output

/-- `"-Discarding-"`. -/
def discarding : CStr :=
  ⟨chars ['-', 'D', 'i', 's', 'c', 'a', 'r', 'd', 'i', 'n', 'g', '-'], by decide⟩

/-- `"\nToo much input!\n"`. -/
def tooMuch : CStr :=
  ⟨chars ['\n', 'T', 'o', 'o', ' ', 'm', 'u', 'c', 'h', ' ', 'i', 'n', 'p', 'u', 't', '!', '\n'],
    by decide⟩

/-- What the answer of `proc_recv_msg` is followed by. -/
def State.show (frame : Memory) (size : Nat) (y : State) : Option State :=
  if size > 0 ∧ size ≤ bufSize then
    ((List.range size).foldlM (fun win i => fcWputc frame win (schar (y.msg i)) 15) y.win).map
      fun win => { y with win := win, pc := .consume }
  else if size > bufSize then
    (fcWputs frame y.win discarding 5).map fun win => { y with win := win, pc := .consume }
  else some { y with pc := .stop }

/-- `process_key`, by thread `r`. The call does not return if the queue of the program
it sends to is locked. -/
def State.processKey (K : Kalloc) (frame : Memory) (r : Tid) (scancode : UInt8) (y : State) :
    Option State :=
  let y := { y with state := y.state.after scancode }
  let ch := y.state.char scancode
  if ch ≠ 0 then
    (fcWputc frame y.win (schar ch) 14).bind fun win =>
      (y.child.send K r [ch]).map fun child =>
        { y with win := win, child := child, log := y.log ++ [.key ch] }
  else some y

/-- One step of `main`, which thread `r` runs. -/
def State.run (K : Kalloc) (frame : Memory) (r : Tid) (y : State) : Option State :=
  match y.pc with
  | .recv =>
    (Queue.recvMsg r bufSize y.next y.queue).bind fun (out, q) =>
      State.show frame out.size { y with
        queue := q
        next := out.current
        msg := match out.copied with
          | some data => Buffer.copy data y.msg
          | none => y.msg
        log := if out.size > 0 then y.log ++ [.message (q.bytes out.current)] else y.log }
  | .consume =>
    (Queue.consumeMsg r y.next y.queue).map fun (next, q) =>
      { y with queue := q, next := next, pc := .recv }
  | .stop => some { y with queue := Queue.stopRecv r y.next y.queue, pc := .acquire }
  | .acquire => some { y with
      kb := Keyboard.acquire y.kb
      pc := if (trylock y.kb.kb.lock).1 then .size else .release }
  | .size =>
    let size := y.kb.kb.size
    if size = 0 then some { y with pc := .release }
    else if (size + 1) % wordSize > bufSize then
      (fcWputs frame y.win tooMuch 15).map fun win =>
        { y with win := win, log := y.log ++ [.full], pc := .halt }
    else some { y with pc := .read size }
  | .read size =>
    let (kb, places) := Keyboard.kbFsRead size y.kb.kb
    some { y with
      kb := { y.kb with kb := kb }
      buf := Buffer.copy (places.map y.kb.kb.buffer) y.buf
      pc := .key (size - 1) }
  | .key i =>
    (y.processKey K frame r (y.buf i)).map fun y' =>
      { y' with
        typed := y.typed ++ [y.buf i]
        pc := if 0 < i then .key (i - 1) else .release }
  | .release => some { y with kb := Keyboard.release y.kb, pc := .recv }
  | .halt => some y

/-- What happens: a message is sent to the program, a key is pressed or released, the
worker of the keyboard goes on, the child calls `fgets` or goes on in it, or the
program itself goes on. -/
inductive Event where
  | send (t : Tid) (data : List UInt8)
  | interrupt (sc : UInt8)
  | work
  | fgets (n : Nat)
  | child
  | run

/-- No result where a call does not return. -/
def State.event (K : Kalloc) (junk : Nat → UInt8) (frame : Memory) (r c : Tid) (y : State) :
    Event → Option State
  | .send t data =>
    (Queue.sendMsg K t data y.queue).map fun q => { y with queue := q, sent := y.sent ++ [data] }
  | .interrupt sc => (Keyboard.kbPut sc y.kb).map fun kb => { y with kb := kb }
  | .work => (Keyboard.kbPutDelayed y.kb).map fun kb => { y with kb := kb }
  | .fgets n => (y.child.call n).map fun child => { y with child := child }
  | .child => (y.child.run junk c).map fun child => { y with child := child }
  | .run => y.run K frame r

/-- The screen once `main` has drawn it. -/
def startScreen (out cursorf : File) : Screen :=
  fcMoveCursor (boxScreen (createCgaScreen out cursorf) 11) 1 1

/-- Before the first round of `main`. -/
def State.start (out cursorf : File) (buffer : Int → UInt8) (mem : Queue.Kmem)
    (child : Stdin.State) (msg buf : Buffer) : State where
  queue := Queue.initMqueue mem
  next := NULL
  kb := Keyboard.State.start (Keyboard.Unread.start buffer).kb
  child := child
  win :=
    let scr := startScreen out cursorf
    createWindow scr 1 1 (scr.width - 2) (scr.height - 2)
  state := ⟨false, false⟩
  msg := msg
  buf := buf
  pc := .recv
  sent := []
  typed := []
  log := []

end Frosk.Shell

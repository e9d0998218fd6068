import Mathlib.Tactic
import Frosk.Common
import Frosk.Strings
import Frosk.Lib.Run
import Frosk.Lib.Bytes

/-!
# Text windows: definitions

The embedding of `prgm/start/src/fcurses.c`: the screen and its windows.

* The coordinates are `int`s, which do not overflow on a screen whose size in
  bytes is an `int`. As an address of a file an `int` becomes a `qword`.
* The files of a screen answer reads and take writes as far as they go. What the
  buffer of `fc_move_buf` holds before is arbitrary.
* There is one output format, with two bytes for each character.
-/

namespace Frosk.Fcurses

open Lib

-- ---------------------------------------------------------------------------
-- Files
-- ---------------------------------------------------------------------------

/-- A file of fixed size. -/
structure File where
  size  : Nat
  bytes : Memory

/-- An `int` that is passed as a `qword`. -/
def toQword (i : Int) : Nat := (i % wordSize).toNat

/-- An `int` that is stored as a `byte`. -/
def toByte (i : Int) : UInt8 := UInt8.ofNat (i % 0x100).toNat

def File.write (buf : List UInt8) (addr : Nat) (f : File) : File :=
  { f with bytes := if addr < f.size then f.bytes.blit addr (buf.take (f.size - addr)) else f.bytes }

def File.read (addr size : Nat) (f : File) : List UInt8 :=
  if addr < f.size then f.bytes.slice addr (min size (f.size - addr)) else []

-- ---------------------------------------------------------------------------
-- Screens
-- ---------------------------------------------------------------------------

/-- `fc_screen_t`. -/
structure Screen where
  width      : Int
  height     : Int
  bufSize    : Int
  file       : File
  cursorFile : File

/-- The screen of the files `/dev/tvb` and `/dev/cursor`. -/
def createCgaScreen (out cursorf : File) : Screen := ⟨80, 25, 80 * 25 * 2, out, cursorf⟩

/-- `format_width` of the format there is. -/
abbrev formatWidth : Int := 2

/-- The place of a character in the file. -/
def Screen.pos (scr : Screen) (x y : Int) : Int := (x + y * scr.width) * formatWidth

def fcPutc (scr : Screen) (ch x y style : Int) : Screen :=
  let pos := scr.pos x y
  if 0 ≤ pos ∧ pos ≤ scr.bufSize then
    { scr with file := scr.file.write [toByte ch, toByte style] (toQword pos) }
  else scr

/-- `MAX` of `fc_move_buf`. -/
abbrev moveMax : Int := 1024

def fcMoveBuf (frame : Memory) (scr : Screen) (sx sy dx dy len : Int) : Screen :=
  let dpos := scr.pos dx dy
  let spos := scr.pos sx sy
  let len := len * formatWidth
  let len := if len > moveMax then moveMax else len
  let buf := frame.blit 0 (scr.file.read (toQword spos) (toQword len))
  { scr with file := scr.file.write (buf.slice 0 (toQword len)) (toQword dpos) }

def fcMoveCursor (scr : Screen) (x y : Int) : Screen :=
  let cursor := leBytes 4 (x % 0x100000000).toNat ++ leBytes 4 (y % 0x100000000).toNat
  { scr with cursorFile := scr.cursorFile.write cursor 0 }

-- ---------------------------------------------------------------------------
-- Windows
-- ---------------------------------------------------------------------------

/-- `fc_window_t`. -/
structure Window where
  scr : Screen
  x   : Int
  y   : Int
  w   : Int
  h   : Int
  ptX : Int
  ptY : Int

def createWindow (scr : Screen) (x y w h : Int) : Window := ⟨scr, x, y, w, h, 0, 0⟩

/-- The loop over the lines of a window, each of which goes up by one. -/
def scrollLines (frame : Memory) (win : Window) (scr : Screen) (n : Nat) : Screen :=
  (List.range n).foldl (fun scr (i : Nat) =>
    fcMoveBuf frame scr win.x (win.y + (i + 1)) win.x (win.y + (i + 1) - 1) win.w) scr

/-- The loop over the characters of the last line. -/
def clearLine (win : Window) (scr : Screen) (n : Nat) : Screen :=
  (List.range n).foldl (fun scr (i : Nat) => fcPutc scr 0 (win.x + i) (win.y + win.h - 1) 0) scr

/-- The second loop of `scroll_check`. -/
def scrollBody (frame : Memory) (win : Window) : Window ⊕ Window :=
  if win.ptY ≥ win.h then
    let scr := scrollLines frame win win.scr (win.h - 1).toNat
    .inl { win with scr := clearLine win scr win.w.toNat, ptY := win.ptY - 1 }
  else .inr win

def scrollCheck (frame : Memory) (win : Window) : Option Window :=
  let win := if win.ptX ≥ win.w then { win with ptX := win.ptX.tmod win.w, ptY := win.ptY + 1 } else win
  iterate (scrollBody frame) ((win.ptY - win.h).toNat + 2) win

def fcWputc (frame : Memory) (win : Window) (ch style : Int) : Option Window :=
  let win :=
    if ch = '\n'.toNat then { win with ptX := 0, ptY := win.ptY + 1 }
    else if ch = 8 then
      if win.ptX > 0 then
        { win with
          ptX := win.ptX - 1
          scr := fcPutc win.scr 0 (win.x + (win.ptX - 1)) (win.y + win.ptY) style }
      else win
    else
      { win with
        scr := fcPutc win.scr ch (win.x + win.ptX) (win.y + win.ptY) style
        ptX := win.ptX + 1 }
  (scrollCheck frame win).map fun win =>
    { win with scr := fcMoveCursor win.scr (win.x + win.ptX) (win.y + win.ptY) }

def fcWputs (frame : Memory) (win : Window) (s : CStr) (style : Int) : Option Window :=
  s.chars.foldlM (fun win c => fcWputc frame win (schar c) style) win

end Frosk.Fcurses

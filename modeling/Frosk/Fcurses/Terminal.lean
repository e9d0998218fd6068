import Mathlib.Tactic
import Frosk.Fcurses.Definitions

/-!
# Text windows: the terminal

`Terminal` is what a window is for: a grid of cells and a place to write, which
wraps at the right edge and scrolls at the bottom.

`window_terminal` : after any characters the cells of a window are those of the
terminal, its insertion point is that of the terminal and inside, and every cell
of the screen that is outside of the window is as before.
-/

namespace Frosk.Fcurses

open Lib

-- ---------------------------------------------------------------------------
-- Terminals
-- ---------------------------------------------------------------------------

/-- A character and its style. -/
abbrev Cell := UInt8 × UInt8

abbrev blank : Cell := (0, 0)

/-- Cells by column and line, and the insertion point. -/
structure Terminal where
  cells : Nat → Nat → Cell
  x     : Nat
  y     : Nat

namespace Terminal

def cleared : Terminal := ⟨fun _ _ => blank, 0, 0⟩

/-- The cells, of which the one in column `x` of line `y` is `c`. -/
def setCell (cells : Nat → Nat → Cell) (x y : Nat) (c : Cell) : Nat → Nat → Cell :=
  fun a b => if a = x ∧ b = y then c else cells a b

/-- All lines go up by one, and the last one of `h` lines is blank. -/
def scroll (h : Nat) (cells : Nat → Nat → Cell) : Nat → Nat → Cell :=
  fun a b => if b + 1 < h then cells a (b + 1) else blank

def newline (h : Nat) (t : Terminal) : Terminal :=
  if t.y + 1 < h then { t with x := 0, y := t.y + 1 } else { t with cells := scroll h t.cells, x := 0 }

/-- The cell to the left is cleared, unless the insertion point is at the left edge. -/
def backspace (style : UInt8) (t : Terminal) : Terminal :=
  if 0 < t.x then { t with cells := setCell t.cells (t.x - 1) t.y (0, style), x := t.x - 1 } else t

/-- A character that is shown; behind the right edge comes the next line. -/
def put (w h : Nat) (c : Cell) (t : Terminal) : Terminal :=
  let t := { t with cells := setCell t.cells t.x t.y c }
  if t.x + 1 < w then { t with x := t.x + 1 } else t.newline h

/-- One character on a terminal of `w` columns and `h` lines. -/
def type (w h : Nat) (t : Terminal) (c : Int × Int) : Terminal :=
  if c.1 = '\n'.toNat then t.newline h
  else if c.1 = 8 then t.backspace (toByte c.2)
  else t.put w h (toByte c.1, toByte c.2)

end Terminal

-- ---------------------------------------------------------------------------
-- Screens
-- ---------------------------------------------------------------------------

/-- The cell of a screen. -/
def Screen.cell (scr : Screen) (a b : Int) : Cell :=
  (scr.file.bytes (toQword (scr.pos a b)), scr.file.bytes (toQword (scr.pos a b) + 1))

/-- A screen whose file has two bytes for each cell. -/
structure Screen.Sized (scr : Screen) : Prop where
  file : (scr.file.size : Int) = 2 * (scr.width * scr.height)
  buf  : scr.bufSize = 2 * (scr.width * scr.height)
  int  : scr.bufSize < 0x80000000

def Screen.Has (scr : Screen) (a b : Int) : Prop := (0 ≤ a ∧ a < scr.width) ∧ 0 ≤ b ∧ b < scr.height

/-- The same geometry. -/
structure Screen.Alike (scr scr' : Screen) : Prop where
  width  : scr'.width = scr.width
  height : scr'.height = scr.height
  buf    : scr'.bufSize = scr.bufSize
  size   : scr'.file.size = scr.file.size

variable {scr scr' base : Screen} {a b a' b' x y : Int}

theorem Screen.Alike.refl (scr : Screen) : scr.Alike scr := ⟨rfl, rfl, rfl, rfl⟩

/-- Screens that are alike in their measures. -/
theorem Screen.Alike.trans {scr₁ : Screen} (h : scr.Alike scr₁) (h' : scr₁.Alike scr') : scr.Alike scr' :=
  ⟨h'.width.trans h.width, h'.height.trans h.height, h'.buf.trans h.buf, h'.size.trans h.size⟩

/-- A screen that is alike has room too. -/
theorem Screen.Sized.alike (h : scr.Sized) (h' : scr.Alike scr') : scr'.Sized where
  file := by rw [h'.size, h'.width, h'.height, h.file]
  buf := by rw [h'.buf, h'.width, h'.height, h.buf]
  int := by rw [h'.buf]; exact h.int

theorem Screen.Has.alike (h : scr.Has a b) (h' : scr.Alike scr') : scr'.Has a b := by
  unfold Screen.Has at *
  rwa [h'.width, h'.height]

/-- A line ends before the next begins. -/
theorem line_le {w : Int} (hw : 0 ≤ w) (h : b < b') : b * w + w ≤ b' * w := by
  have hle := Int.mul_le_mul_of_nonneg_right (show b + 1 ≤ b' by omega) hw
  rwa [Int.add_mul, Int.one_mul] at hle

/-- The bytes of a cell are in the file. -/
theorem pos_bounds (hs : scr.Sized) (h : scr.Has a b) :
    0 ≤ scr.pos a b ∧ scr.pos a b + 2 ≤ scr.file.size ∧ toQword (scr.pos a b) = (scr.pos a b).toNat := by
  obtain ⟨⟨ha, ha'⟩, hb, hb'⟩ := h
  have hfirst := Int.mul_nonneg hb (ha.trans ha'.le)
  have hlast := line_le (ha.trans ha'.le) hb'
  have hfile := hs.file
  have hbuf := hs.buf
  have hint := hs.int
  rw [Int.mul_comm scr.width] at hfile hbuf
  unfold toQword Screen.pos formatWidth wordSize
  omega

/-- Two cells have no byte in common. -/
theorem pos_apart (h : scr.Has a b) (h' : scr.Has a' b') (hne : ¬ (a' = a ∧ b' = b)) :
    scr.pos a' b' + 2 ≤ scr.pos a b ∨ scr.pos a b + 2 ≤ scr.pos a' b' := by
  obtain ⟨⟨ha, haw⟩, hb, -⟩ := h
  obtain ⟨⟨ha', haw'⟩, hb', -⟩ := h'
  unfold Screen.pos formatWidth
  rcases Int.lt_trichotomy b b' with hlt | rfl | hlt
  · have hline := line_le (ha.trans haw.le) hlt
    omega
  · omega
  · have hline := line_le (ha.trans haw.le) hlt
    omega

/-- A character changes no measure. -/
theorem putc_alike (scr : Screen) (ch x y style : Int) : scr.Alike (fcPutc scr ch x y style) := by
  simp only [fcPutc]
  split
  · exact ⟨rfl, rfl, rfl, rfl⟩
  · exact .refl scr

/-- `fc_putc` changes one cell. -/
theorem putc_cell (hs : scr.Sized) (h : scr.Has x y) (hab : scr.Has a b) (ch style : Int) :
    (fcPutc scr ch x y style).cell a b =
      if a = x ∧ b = y then (toByte ch, toByte style) else scr.cell a b := by
  obtain ⟨hlow, hhigh, hq⟩ := pos_bounds hs h
  obtain ⟨hlow', hhigh', hq'⟩ := pos_bounds hs hab
  have hbuf := hs.buf
  have hfile := hs.file
  have htwo : [toByte ch, toByte style].length = 2 := rfl
  have hput : fcPutc scr ch x y style = { scr with file := { scr.file with
      bytes := scr.file.bytes.blit (scr.pos x y).toNat [toByte ch, toByte style] } } := by
    have htake : [toByte ch, toByte style].take (scr.file.size - (scr.pos x y).toNat) =
        [toByte ch, toByte style] := List.take_of_length_le (by omega)
    unfold fcPutc File.write
    rw [if_pos ⟨hlow, by omega⟩, hq, if_pos (by omega), htake]
  rw [hput]
  unfold Screen.cell
  show (scr.file.bytes.blit _ _ (toQword (scr.pos a b)),
    scr.file.bytes.blit _ _ (toQword (scr.pos a b) + 1)) = _
  rw [hq']
  by_cases hsame : a = x ∧ b = y
  · obtain ⟨rfl, rfl⟩ := hsame
    rw [if_pos ⟨rfl, rfl⟩]
    have hfst := Memory.blit_inside (m := scr.file.bytes) (a := (scr.pos a b).toNat)
      (l := [toByte ch, toByte style]) (i := 0) (by omega)
    have hsnd := Memory.blit_inside (m := scr.file.bytes) (a := (scr.pos a b).toNat)
      (l := [toByte ch, toByte style]) (i := 1) (by omega)
    exact Prod.ext hfst hsnd
  · have hapart := pos_apart h hab hsame
    rw [if_neg hsame, Memory.blit_outside (by omega),
      Memory.blit_outside (by omega)]

theorem move_alike (frame : Memory) (scr : Screen) (sx sy dx dy len : Int) :
    scr.Alike (fcMoveBuf frame scr sx sy dx dy len) := ⟨rfl, rfl, rfl, rfl⟩

/-- The bytes of the cells in a part of a line. -/
theorem line_bounds (hs : scr.Sized) {w : Int} (hw : 1 ≤ w) (hx : 0 ≤ x) (hxw : x + w ≤ scr.width)
    (hy : 0 ≤ y ∧ y < scr.height) :
    scr.Has x y ∧ scr.pos x y + 2 * w ≤ scr.file.size := by
  have hlast : scr.Has (x + w - 1) y := ⟨by omega, hy⟩
  have hend := (pos_bounds hs hlast).2.1
  refine ⟨⟨by omega, hy⟩, ?_⟩
  unfold Screen.pos formatWidth at *
  omega

/-- The cells of a part of a line are one after another. -/
theorem pos_in_line (hs : scr.Sized) (hfirst : scr.Has x b) {k : Nat} (hab : scr.Has (x + k) b) :
    (scr.pos (x + k) b).toNat = (scr.pos x b).toNat + 2 * k := by
  have hlow := (pos_bounds hs hfirst).1
  have hlow' := (pos_bounds hs hab).1
  unfold Screen.pos formatWidth at *
  omega

/-- The other cells have no byte in that part of the line. -/
theorem pos_outside (hs : scr.Sized) {w dy : Int} (hw : 1 ≤ w) (hx : 0 ≤ x) (hxw : x + w ≤ scr.width)
    (hdy : 0 ≤ dy ∧ dy < scr.height) (hab : scr.Has a b) (hout : ¬ ((x ≤ a ∧ a < x + w) ∧ b = dy)) :
    (scr.pos a b).toNat + 2 ≤ (scr.pos x dy).toNat ∨
      (scr.pos x dy).toNat + 2 * w.toNat ≤ (scr.pos a b).toNat := by
  have hlow := (pos_bounds hs hab).1
  have hdlow := (pos_bounds hs (line_bounds hs hw hx hxw hdy).1).1
  have hfirst := hab.1
  have hline : b < dy → b * scr.width + scr.width ≤ dy * scr.width := line_le (by omega)
  have hline' : dy < b → dy * scr.width + scr.width ≤ b * scr.width := line_le (by omega)
  unfold Screen.pos formatWidth at *
  rcases Int.lt_trichotomy b dy with hlt | rfl | hlt
  · have hline := hline hlt
    omega
  · omega
  · have hline' := hline' hlt
    omega

/-- `fc_move_buf` on a part of a line puts its bytes in another line. -/
theorem move_bytes (hs : scr.Sized) {w sy dy : Int} (hw : 1 ≤ w) (hmax : w ≤ 512) (hx : 0 ≤ x)
    (hxw : x + w ≤ scr.width) (hsy : 0 ≤ sy ∧ sy < scr.height) (hdy : 0 ≤ dy ∧ dy < scr.height)
    (frame : Memory) :
    (fcMoveBuf frame scr x sy x dy w).file.bytes = scr.file.bytes.blit (scr.pos x dy).toNat
      (scr.file.bytes.slice (scr.pos x sy).toNat (2 * w.toNat)) := by
  obtain ⟨hs₁, hsend⟩ := line_bounds hs hw hx hxw hsy
  obtain ⟨hd₁, hdend⟩ := line_bounds hs hw hx hxw hdy
  obtain ⟨hslow, -, hsq⟩ := pos_bounds hs hs₁
  obtain ⟨hdlow, -, hdq⟩ := pos_bounds hs hd₁
  have hlen : toQword (w * formatWidth) = 2 * w.toNat := by
    unfold toQword wordSize formatWidth
    omega
  have hread :
      (frame.blit 0 (scr.file.bytes.slice (scr.pos x sy).toNat (2 * w.toNat))).slice 0 (2 * w.toNat) =
      scr.file.bytes.slice (scr.pos x sy).toNat (2 * w.toNat) := by
    have hself := Memory.slice_blit_self (m := frame) (a := 0)
      (l := scr.file.bytes.slice (scr.pos x sy).toNat (2 * w.toNat))
    rwa [Memory.slice_length] at hself
  have hcut : ¬ w * formatWidth > moveMax := by
    unfold formatWidth moveMax
    omega
  have htake : (scr.file.bytes.slice (scr.pos x sy).toNat (2 * w.toNat)).take
      (scr.file.size - (scr.pos x dy).toNat) = scr.file.bytes.slice (scr.pos x sy).toNat (2 * w.toNat) :=
    List.take_of_length_le (by rw [Memory.slice_length]; omega)
  simp only [fcMoveBuf, if_neg hcut, hlen, hsq, hdq, File.read, File.write]
  rw [if_pos (by omega), if_pos (by omega), Nat.min_eq_left (by omega), hread, htake]

/-- `fc_move_buf` on a line of a window copies its cells to another line. -/
theorem move_cell (hs : scr.Sized) {w sy dy : Int} (hw : 1 ≤ w) (hmax : w ≤ 512) (hx : 0 ≤ x)
    (hxw : x + w ≤ scr.width) (hsy : 0 ≤ sy ∧ sy < scr.height) (hdy : 0 ≤ dy ∧ dy < scr.height)
    (hab : scr.Has a b) (frame : Memory) :
    (fcMoveBuf frame scr x sy x dy w).cell a b =
      if (x ≤ a ∧ a < x + w) ∧ b = dy then scr.cell a sy else scr.cell a b := by
  have hpos : (fcMoveBuf frame scr x sy x dy w).pos a b = scr.pos a b := rfl
  unfold Screen.cell
  rw [move_bytes hs hw hmax hx hxw hsy hdy frame, hpos, (pos_bounds hs hab).2.2]
  by_cases hin : (x ≤ a ∧ a < x + w) ∧ b = dy
  · obtain ⟨⟨hxa, haw⟩, rfl⟩ := hin
    obtain ⟨k, rfl⟩ : ∃ k : Nat, a = x + k := ⟨(a - x).toNat, by omega⟩
    have hsrc : scr.Has (x + k) sy := ⟨hab.1, hsy⟩
    rw [if_pos ⟨⟨hxa, haw⟩, rfl⟩, (pos_bounds hs hsrc).2.2,
      pos_in_line hs (line_bounds hs hw hx hxw hdy).1 hab,
      pos_in_line hs (line_bounds hs hw hx hxw hsy).1 hsrc, Nat.add_assoc, Nat.add_assoc,
      Memory.blit_slice_inside (by omega), Memory.blit_slice_inside (by omega)]
  · have hout := pos_outside hs hw hx hxw hdy hab hin
    rw [if_neg hin, Memory.blit_slice_outside (by omega), Memory.blit_slice_outside (by omega)]

-- ---------------------------------------------------------------------------
-- The part of a screen under a window
-- ---------------------------------------------------------------------------

/-- A window of `w` columns and `h` lines at `(x, y)` inside a screen. -/
structure Fits (x y : Int) (w h : Nat) (scr : Screen) : Prop where
  sized   : scr.Sized
  columns : 1 ≤ w ∧ w ≤ 512
  lines   : 1 ≤ h
  across  : 0 ≤ x ∧ x + w ≤ scr.width
  down    : 0 ≤ y ∧ y + h ≤ scr.height

/-- The cell is one of the window. -/
def Under (x y : Int) (w h : Nat) (a b : Int) : Prop := (x ≤ a ∧ a < x + w) ∧ y ≤ b ∧ b < y + h

/-- The screen has `cells` in the window, and what `base` has around it. -/
structure Painted (x y : Int) (w h : Nat) (base scr : Screen) (cells : Nat → Nat → Cell) : Prop where
  alike : base.Alike scr
  cells : ∀ a b : Nat, a < w → b < h → scr.cell (x + a) (y + b) = cells a b
  frame : ∀ a b, base.Has a b → ¬ Under x y w h a b → scr.cell a b = base.cell a b

section Painting

variable (frame : Memory) {w h : Nat} {cells cells' : Nat → Nat → Cell}

/-- What is in a window is on its screen. -/
theorem Fits.has (hf : Fits x y w h base) {a b : Nat} (ha : a < w) (hb : b < h) :
    base.Has (x + a) (y + b) := by
  have hacross := hf.across
  have hdown := hf.down
  exact ⟨by omega, by omega⟩

/-- Only the cells in the window count. -/
theorem Painted.congr (hp : Painted x y w h base scr cells)
    (heq : ∀ a b : Nat, a < w → b < h → cells a b = cells' a b) : Painted x y w h base scr cells' :=
  ⟨hp.alike, fun a b ha hb => (hp.cells a b ha hb).trans (heq a b ha hb), hp.frame⟩

/-- An operation that sets some cells of the window keeps the rest of the screen. -/
theorem Painted.step (hp : Painted x y w h base scr cells)
    (halike : scr.Alike scr') (set : Int → Int → Prop) (hset : ∀ a b, set a b → Under x y w h a b)
    (hin : ∀ a b : Nat, a < w → b < h → scr'.cell (x + a) (y + b) = cells' a b)
    (hout : ∀ a b, scr.Has a b → ¬ set a b → scr'.cell a b = scr.cell a b) :
    Painted x y w h base scr' cells' where
  alike := hp.alike.trans halike
  cells := hin
  frame := by
    intro a b hab hnot
    rw [hout a b (hab.alike hp.alike) fun h => hnot (hset a b h)]
    exact hp.frame a b hab hnot

/-- One character of the window. -/
theorem painted_putc (hf : Fits x y w h base) (hp : Painted x y w h base scr cells) {px py : Nat}
    (hpx : px < w) (hpy : py < h) (ch style : Int) :
    Painted x y w h base (fcPutc scr ch (x + px) (y + py) style)
      (Terminal.setCell cells px py (toByte ch, toByte style)) := by
  have hsized := hf.sized.alike hp.alike
  have hput := (hf.has hpx hpy).alike hp.alike
  refine hp.step (putc_alike scr ch _ _ style) (fun a b => a = x + px ∧ b = y + py) ?_ ?_ ?_
  · rintro a b ⟨rfl, rfl⟩
    exact ⟨by omega, by omega⟩
  · intro a b ha hb
    rw [putc_cell hsized hput ((hf.has ha hb).alike hp.alike), hp.cells a b ha hb]
    unfold Terminal.setCell
    exact if_congr (by omega) rfl rfl
  · intro a b hab hnot
    rw [putc_cell hsized hput hab, if_neg hnot]

/-- One line of the window goes up. -/
theorem painted_move (hf : Fits x y w h base) (hp : Painted x y w h base scr cells) {i : Nat}
    (hi : i + 1 < h) :
    Painted x y w h base (fcMoveBuf frame scr x (y + (i + 1)) x (y + (i + 1) - 1) w)
      (fun a b => if b = i then cells a (i + 1) else cells a b) := by
  have hsized := hf.sized.alike hp.alike
  have hwidth := hp.alike.width
  have hheight := hp.alike.height
  obtain ⟨hw, hmax⟩ := hf.columns
  obtain ⟨hx, hxw⟩ := hf.across
  obtain ⟨hy, hyh⟩ := hf.down
  have hcell : ∀ {a b : Int}, scr.Has a b →
      (fcMoveBuf frame scr x (y + (i + 1)) x (y + (i + 1) - 1) w).cell a b =
        if (x ≤ a ∧ a < x + w) ∧ b = y + (i + 1) - 1 then scr.cell a (y + (i + 1)) else scr.cell a b :=
    fun hab => move_cell hsized (by omega) (by omega) hx (by omega) (by omega) (by omega) hab frame
  refine hp.step (move_alike frame scr _ _ _ _ _)
    (fun a b => (x ≤ a ∧ a < x + w) ∧ b = y + (i + 1) - 1) ?_ ?_ ?_
  · rintro a b ⟨ha, rfl⟩
    exact ⟨ha, by omega⟩
  · intro a b ha hb
    rw [hcell ((hf.has ha hb).alike hp.alike), hp.cells a b ha hb]
    have hsrc := hp.cells a (i + 1) ha hi
    rw [Nat.cast_add_one] at hsrc
    rw [hsrc]
    exact if_congr (by omega) rfl rfl
  · intro a b hab hnot
    rw [hcell hab, if_neg hnot]

/-- After `n` lines the lines above line `n` are those that were below them. -/
theorem painted_lines (hf : Fits x y w h base) (hp : Painted x y w h base scr cells)
    (px py : Int) (scr₀ : Screen) {n : Nat} (hn : n < h) :
    Painted x y w h base (scrollLines frame ⟨scr₀, x, y, w, h, px, py⟩ scr n)
      (fun a b => if b < n then cells a (b + 1) else cells a b) := by
  induction n with
  | zero => exact hp.congr fun a b _ _ => (if_neg (Nat.not_lt_zero b)).symm
  | succ n ih =>
    have hline := painted_move frame hf (ih (by omega)) hn
    unfold scrollLines at hline ⊢
    rw [List.range_succ, List.foldl_append]
    refine Painted.congr hline ?_
    intro a b _ _
    by_cases hb : b = n
    · rw [if_pos hb, if_neg (by omega), if_pos (by omega), hb]
    · rw [if_neg hb]
      exact if_congr (by omega) rfl rfl

/-- After `n` characters as many cells of the last line are blank. -/
theorem painted_clear (hf : Fits x y w h base) (hp : Painted x y w h base scr cells)
    (px py : Int) (scr₀ : Screen) {n : Nat} (hn : n ≤ w) :
    Painted x y w h base (clearLine ⟨scr₀, x, y, w, h, px, py⟩ scr n)
      (fun a b => if b + 1 = h ∧ a < n then blank else cells a b) := by
  have hlines := hf.lines
  induction n with
  | zero => exact hp.congr fun a b _ _ => (if_neg (by omega)).symm
  | succ n ih =>
    have hput := painted_putc hf (ih (by omega)) (show n < w by omega) (show h - 1 < h by omega) 0 0
    have hlast : y + ((h - 1 : Nat) : Int) = y + h - 1 := by omega
    rw [hlast] at hput
    unfold clearLine at hput ⊢
    rw [List.range_succ, List.foldl_append]
    refine Painted.congr hput ?_
    intro a b _ _
    unfold Terminal.setCell
    by_cases hset : a = n ∧ b = h - 1
    · rw [if_pos hset, if_pos (by omega)]
      rfl
    · rw [if_neg hset]
      exact if_congr (by omega) rfl rfl

/-- One round of the loop of `scroll_check`. -/
theorem scroll_round (hf : Fits x y w h base) (hp : Painted x y w h base scr cells) (px : Int) :
    ∃ scr', scrollBody frame ⟨scr, x, y, w, h, px, h⟩ = .inl ⟨scr', x, y, w, h, px, (h - 1 : Nat)⟩ ∧
      Painted x y w h base scr' (Terminal.scroll h cells) := by
  have hlines := hf.lines
  have hup := painted_lines frame hf hp px h scr (show h - 1 < h by omega)
  have hclear := painted_clear hf hup px h scr le_rfl
  have hcount : ((h : Int) - 1).toNat = h - 1 := by omega
  refine ⟨_, ?_, hclear.congr fun a b ha hb => ?_⟩
  · simp only [scrollBody, ge_iff_le, le_refl, if_true, hcount, Int.toNat_natCast, Int.ofNat_sub hlines]
    rfl
  · unfold Terminal.scroll
    by_cases hb' : b + 1 < h
    · rw [if_neg (by omega), if_pos (by omega), if_pos hb']
    · rw [if_pos (by omega), if_neg hb']

/-- The insertion point is inside. -/
theorem scroll_leave (px : Int) {py : Nat} (hpy : py < h) (k : Nat) :
    iterate (scrollBody frame) (k + 1) ⟨scr, x, y, w, h, px, py⟩ =
      some ⟨scr, x, y, w, h, px, py⟩ := by
  have hleave : scrollBody frame ⟨scr, x, y, w, h, px, py⟩ = .inr ⟨scr, x, y, w, h, px, py⟩ :=
    if_neg (by simpa using hpy)
  exact iterate_succ_inr hleave k

end Painting

-- ---------------------------------------------------------------------------
-- Windows
-- ---------------------------------------------------------------------------

/-- The window of a screen with the insertion point of a terminal. -/
def Terminal.window (x y : Int) (w h : Nat) (t : Terminal) (scr : Screen) : Window :=
  ⟨scr, x, y, w, h, t.x, t.y⟩

/-- The window shows the terminal, and the rest of the screen is that of `base`. -/
structure Shows (x y : Int) (w h : Nat) (base : Screen) (win : Window) (t : Terminal) : Prop where
  window  : win = t.window x y w h win.scr
  painted : Painted x y w h base win.scr t.cells
  inside  : t.x < w ∧ t.y < h

/-- The window and the terminal have one point. -/
theorem Shows.point {w h : Nat} {win : Window} {t : Terminal} (hs : Shows x y w h base win t) :
    win.ptX = t.x ∧ win.ptY = t.y :=
  ⟨congrArg Window.ptX hs.window, congrArg Window.ptY hs.window⟩

section Windows

variable (frame : Memory) {w h : Nat} {cells : Nat → Nat → Cell} {t : Terminal} {win : Window}

/-- Moving the cursor changes nothing on the screen. -/
theorem painted_cursor (hp : Painted x y w h base scr cells) (cx cy : Int) :
    Painted x y w h base (fcMoveCursor scr cx cy) cells where
  alike := hp.alike.trans ⟨rfl, rfl, rfl, rfl⟩
  cells := hp.cells
  frame := hp.frame

/-- `scroll_check` in front of the right edge. -/
theorem scrollCheck_inside (hin : t.x < w ∧ t.y < h) :
    scrollCheck frame ⟨scr, x, y, w, h, t.x, t.y⟩ = some (t.window x y w h scr) := by
  have hedge : ¬ ((t.x : Int) ≥ w) := by omega
  simp only [scrollCheck, if_neg hedge]
  exact scroll_leave frame t.x hin.2 _

/-- `scroll_check` at the beginning of the next line. -/
theorem scrollCheck_line (hf : Fits x y w h base) (hp : Painted x y w h base scr t.cells)
    (hy : t.y < h) :
    ∃ scr', scrollCheck frame ⟨scr, x, y, w, h, 0, t.y + 1⟩ =
        some ((t.newline h).window x y w h scr') ∧
      Painted x y w h base scr' (t.newline h).cells ∧ (t.newline h).x < w ∧ (t.newline h).y < h := by
  have hw := hf.columns.1
  have hedge : ¬ ((0 : Int) ≥ w) := by omega
  simp only [scrollCheck, if_neg hedge]
  unfold Terminal.newline
  by_cases hlast : t.y + 1 < h
  · rw [if_pos hlast]
    exact ⟨scr, scroll_leave frame 0 hlast _, hp, hw, hlast⟩
  · rw [if_neg hlast]
    obtain ⟨scr', hround, hp'⟩ := scroll_round frame hf hp 0
    have hbottom : (t.y : Int) + 1 = h := by omega
    have hy' : t.y = h - 1 := by omega
    refine ⟨scr', ?_, hp', hw, hy⟩
    rw [hbottom, iterate_succ_inl hround, hy']
    exact scroll_leave frame 0 (by omega) _

/-- A character behind which there is a next line. -/
theorem scrollCheck_wrap (hw : 1 ≤ w) (hx : t.x + 1 = w) :
    scrollCheck frame ⟨scr, x, y, w, h, t.x + 1, t.y⟩ = scrollCheck frame ⟨scr, x, y, w, h, 0, t.y + 1⟩ := by
  have hedge : ((t.x : Int) + 1) = w := by omega
  have hfirst : ¬ ((0 : Int) ≥ w) := by omega
  simp only [scrollCheck, hedge, ge_iff_le, le_refl, if_true, if_neg hfirst, Int.tmod_self]

/-- **One character.** The window goes on as the terminal does. -/
theorem wputc_shows (hf : Fits x y w h base) (hs : Shows x y w h base win t) (c : Int × Int) :
    ∃ win', fcWputc frame win c.1 c.2 = some win' ∧ Shows x y w h base win' (t.type w h c) := by
  obtain ⟨hwin, hp, hin⟩ := hs
  -- a call ends with the cursor, whatever `scroll_check` leaves
  have hend : ∀ {win₁ : Window} {t' : Terminal} {scr' : Screen},
      scrollCheck frame win₁ = some (t'.window x y w h scr') →
      Painted x y w h base scr' t'.cells → t'.x < w ∧ t'.y < h →
      ∃ win', (scrollCheck frame win₁).map (fun win =>
          { win with scr := fcMoveCursor win.scr (win.x + win.ptX) (win.y + win.ptY) }) = some win' ∧
        Shows x y w h base win' t' := by
    intro win₁ t' scr' hcheck hp' hin'
    refine ⟨_, by rw [hcheck]; rfl, ?_⟩
    exact ⟨rfl, painted_cursor hp' _ _, hin'⟩
  rw [hwin]
  unfold Terminal.window fcWputc Terminal.type
  by_cases hline : c.1 = '\n'.toNat
  · simp only [if_pos hline]
    obtain ⟨scr', hcheck, hp', hin'⟩ := scrollCheck_line frame hf hp hin.2
    exact hend hcheck hp' hin'
  simp only [if_neg hline]
  by_cases hback : c.1 = 8
  · simp only [if_pos hback]
    unfold Terminal.backspace
    by_cases hleft : 0 < t.x
    · have hpt : ((t.x : Int) - 1) = (t.x - 1 : Nat) := by omega
      have hput := painted_putc hf hp (show t.x - 1 < w by omega) hin.2 0 c.2
      rw [if_pos (by simpa using hleft), if_pos hleft, hpt]
      have hin' : t.x - 1 < w ∧ t.y < h := ⟨by omega, hin.2⟩
      exact hend (scrollCheck_inside frame (t := { t with x := t.x - 1 }) hin') hput hin'
    · rw [if_neg (by simpa using hleft), if_neg hleft]
      exact hend (scrollCheck_inside frame hin) hp hin
  simp only [if_neg hback]
  have hput := painted_putc hf hp hin.1 hin.2 c.1 c.2
  unfold Terminal.put
  by_cases hnext : t.x + 1 < w
  · rw [if_pos hnext]
    exact hend (scrollCheck_inside frame (t := { t with x := t.x + 1 }) ⟨hnext, hin.2⟩) hput ⟨hnext, hin.2⟩
  · rw [if_neg hnext, scrollCheck_wrap frame hf.columns.1 (by omega)]
    obtain ⟨scr', hcheck, hp', hin'⟩ := scrollCheck_line frame
      (t := { t with cells := Terminal.setCell t.cells t.x t.y (toByte c.1, toByte c.2) }) hf hput hin.2
    exact hend hcheck hp' hin'

/-- After every call of a run. -/
theorem run_shows (hf : Fits x y w h base) (typed : List (Int × Int)) (hs : Shows x y w h base win t) :
    ∃ win', typed.foldlM (fun win c => fcWputc frame win c.1 c.2) win = some win' ∧
      Shows x y w h base win' (typed.foldl (Terminal.type w h) t) := by
  induction typed generalizing win t with
  | nil => exact ⟨win, rfl, hs⟩
  | cons c typed ih =>
    obtain ⟨win₁, hc, hs₁⟩ := wputc_shows frame hf hs c
    obtain ⟨win', hrun, hs'⟩ := ih hs₁
    refine ⟨win', ?_, hs'⟩
    rw [List.foldlM_cons, hc]
    exact hrun

/-- `fc_wputs` types the characters of a string. -/
theorem wputs_shows (hf : Fits x y w h base) (hs : Shows x y w h base win t) (s : CStr) (style : Int) :
    ∃ win', fcWputs frame win s style = some win' ∧
      Shows x y w h base win' ((s.chars.map fun c => (schar c, style)).foldl (Terminal.type w h) t) := by
  obtain ⟨win', hrun, hs'⟩ := run_shows frame hf (s.chars.map fun c => (schar c, style)) hs
  rw [List.foldlM_map] at hrun
  exact ⟨win', hrun, hs'⟩

end Windows

-- ---------------------------------------------------------------------------
-- Main result
-- ---------------------------------------------------------------------------

/-- **A window is a scrolling terminal**, for any characters, and leaves the rest
of its screen alone. -/
theorem window_terminal (frame : Memory) {w h : Nat} (hf : Fits x y w h scr)
    (hclear : ∀ a b : Nat, a < w → b < h → scr.cell (x + a) (y + b) = blank)
    (typed : List (Int × Int)) :
    ∃ win, typed.foldlM (fun win c => fcWputc frame win c.1 c.2) (createWindow scr x y w h) = some win ∧
      (0 ≤ win.ptX ∧ win.ptX < w) ∧ (0 ≤ win.ptY ∧ win.ptY < h) ∧
      (win.ptX = (typed.foldl (Terminal.type w h) .cleared).x ∧
        win.ptY = (typed.foldl (Terminal.type w h) .cleared).y) ∧
      (∀ a b : Nat, a < w → b < h →
        win.scr.cell (x + a) (y + b) = (typed.foldl (Terminal.type w h) .cleared).cells a b) ∧
      ∀ a b, scr.Has a b → ¬ Under x y w h a b → win.scr.cell a b = scr.cell a b := by
  have hstart : Shows x y w h scr (createWindow scr x y w h) .cleared :=
    ⟨rfl, ⟨.refl scr, hclear, fun _ _ _ _ => rfl⟩, hf.columns.1, hf.lines⟩
  obtain ⟨win, hrun, hs⟩ := run_shows frame hf typed hstart
  obtain ⟨hptX, hptY⟩ := hs.point
  obtain ⟨hx, hy⟩ := hs.inside
  exact ⟨win, hrun, by omega, by omega, hs.point, hs.painted.cells, hs.painted.frame⟩

/-- A screen with nothing on it. -/
def cgaScreen : Screen := createCgaScreen ⟨80 * 25 * 2, fun _ => 0⟩ ⟨8, fun _ => 0⟩

/-- The window of the first program. -/
theorem cgaScreen_fits : Fits 1 1 78 23 cgaScreen where
  sized := ⟨rfl, rfl, by decide⟩
  columns := by omega
  lines := by omega
  across := ⟨by omega, show (1 : Int) + (78 : Nat) ≤ 80 by omega⟩
  down := ⟨by omega, show (1 : Int) + (23 : Nat) ≤ 25 by omega⟩

/-- The window inside of the box that `start` draws. -/
theorem window_terminal_start :
    ∃ win, [((65 : Int), (7 : Int)), (10, 7), (8, 7)].foldlM
        (fun win c => fcWputc (fun _ => 0) win c.1 c.2) (createWindow cgaScreen 1 1 (78 : Nat) (23 : Nat)) =
          some win ∧ win.scr.cell 1 1 = (65, 7) := by
  obtain ⟨win, hrun, -, -, -, hcells, -⟩ := window_terminal (fun _ => 0) cgaScreen_fits
    (fun _ _ _ _ => rfl) [(65, 7), (10, 7), (8, 7)]
  exact ⟨win, hrun, hcells 0 0 (by omega) (by omega)⟩

end Frosk.Fcurses

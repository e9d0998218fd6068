import Mathlib.Tactic
import Frosk.Fs.Definitions

/-!
# The cursor file

The hooks `cursor_read` and `cursor_write` of `kernel/src/dev/video/video.c`, and `fc_move_cursor`,
which calls the second through `fs_write`. Two ports of the display controller select one of its
registers and write it; the registers `0x0E` and `0x0F` are the position of the cursor.

Both hooks copy from and to the first byte of `cursor_data`, whatever the address is, and the
position joins its parts with `|`. `cursor_file_iff` : a write in pieces and a read are right
exactly when each call that has bytes begins at 0 or behind the structure, and the position exactly
when `x` and `y * width` have no bit in common.
-/

namespace Frosk.Dev

open Lib

-- ---------------------------------------------------------------------------
-- The display controller
-- ---------------------------------------------------------------------------

/-- The selected register, and the registers. -/
structure Display where
  index : UInt8
  reg   : UInt8 → UInt8

def outb (port : Nat) (b : UInt8) (d : Display) : Display :=
  if port = 0x3D4 then { d with index := b }
  else if port = 0x3D5 then { d with reg := Function.update d.reg d.index b }
  else d

/-- The position that is programmed. -/
def Display.position (d : Display) : Nat := (d.reg 0x0E).toNat * 256 + (d.reg 0x0F).toNat

-- ---------------------------------------------------------------------------
-- video.c and fcurses.c
-- ---------------------------------------------------------------------------

/-- The memory of the kernel, and the controller. -/
structure Screen where
  mem     : Memory
  display : Display

/-- Nothing is stored or programmed yet. -/
def blank : Screen := ⟨fun _ => 0, ⟨0, fun _ => 0⟩⟩

/-- `sizeof(cursor_data)`. -/
abbrev cursorSize : Nat := 8

/-- The size after the test for the end of the structure. -/
def clipped (addr size : Nat) : Nat :=
  if (addr + size) % wordSize ≥ cursorSize then cursorSize - addr else size

section

variable (cursorData : Ptr) (width : Nat)

/-- The number of bytes, and the bytes that are stored to `buf`. -/
def cursorRead (mem : Memory) (addr size : Nat) : Nat × List UInt8 :=
  if addr ≥ cursorSize then (0, [])
  else (clipped addr size, mem.slice cursorData (clipped addr size))

/-- `cursor_data.x | (cursor_data.y * leftovers.vmi.width)` as a `word`. -/
def cursorPos (mem : Memory) : Nat :=
  (mem.get 4 cursorData ||| mem.get 4 (cursorData + 4) * width % 2 ^ 32) % 2 ^ 16

/-- `cursor_write` of all the bytes of `buf`. -/
def cursorWrite (buf : List UInt8) (addr : Nat) (s : Screen) : Nat × Screen :=
  if addr ≥ cursorSize then (0, s)
  else
    let size := clipped addr buf.length
    let mem := s.mem.blit cursorData (buf.take size)
    let pos := cursorPos cursorData width mem
    let d := outb 0x3D4 0x0F s.display
    let d := outb 0x3D5 (UInt8.ofNat (pos &&& 0xff)) d
    let d := outb 0x3D4 0x0E d
    let d := outb 0x3D5 (UInt8.ofNat ((pos >>> 8) &&& 0xff)) d
    (size, ⟨mem, d⟩)

/-- The hook as `fs_write` calls it. -/
def cursorHook (d : Display) : Fs.WriteHook := fun _ buf addr _ mem =>
  let r := cursorWrite cursorData width buf addr ⟨mem, d⟩
  (r.1, r.2.mem)

/-- `fc_move_cursor`, whose `fs_write` is the hook. -/
def fcMoveCursor (x y : Nat) (s : Screen) : Screen :=
  (cursorWrite cursorData width (leBytes 4 x ++ leBytes 4 y) 0 s).2

/-- A write in pieces, one behind the other, with the number of bytes that they report. -/
def writePieces : Nat → List (List UInt8) → Screen → Nat × Screen
  | _, [], s => (0, s)
  | addr, buf :: pieces, s =>
    let r := cursorWrite cursorData width buf addr s
    let rest := writePieces (addr + buf.length) pieces r.2
    (r.1 + rest.1, rest.2)

-- ---------------------------------------------------------------------------
-- What is expected
-- ---------------------------------------------------------------------------

/-- The bytes from `addr` on that lie in the structure are replaced, and no others. -/
def WritesExactly (addr : Nat) (sizes : List Nat) : Prop :=
  ∀ (s : Screen) (pieces : List (List UInt8)), pieces.map List.length = sizes →
    (writePieces cursorData width addr pieces s).1 = min sizes.sum (cursorSize - addr) ∧
    (writePieces cursorData width addr pieces s).2.mem =
      s.mem.blit (cursorData + addr) (pieces.flatten.take (cursorSize - addr))

/-- The bytes from `addr` on that lie in the structure are returned. -/
def ReadsExactly (addr size : Nat) : Prop :=
  ∀ mem : Memory, cursorRead cursorData mem addr size =
    (min size (cursorSize - addr), mem.slice (cursorData + addr) (min size (cursorSize - addr)))

/-- After a write that leaves these coordinates. -/
def PlacesCursor (x y : Nat) : Prop :=
  ∀ (s : Screen) (buf : List UInt8) (addr : Nat), addr < cursorSize →
    let s' := (cursorWrite cursorData width buf addr s).2
    s'.mem.get 4 cursorData = x → s'.mem.get 4 (cursorData + 4) = y →
      s'.display.position = x + y * width

end

/-- A call that begins with the structure or behind it, or has no bytes. -/
def WellPlaced (addr size : Nat) : Prop := size = 0 ∨ addr = 0 ∨ cursorSize ≤ addr

instance {addr size : Nat} : Decidable (WellPlaced addr size) :=
  inferInstanceAs (Decidable (_ ∨ _ ∨ _))

def PiecesPlaced : Nat → List Nat → Prop
  | _, [] => True
  | addr, size :: sizes => WellPlaced addr size ∧ PiecesPlaced (addr + size) sizes

variable {cursorData width addr size n x y : Nat} {sizes : List Nat} {s : Screen} {mem : Memory}
  {buf : List UInt8} {pieces : List (List UInt8)}

-- ---------------------------------------------------------------------------
-- One call
-- ---------------------------------------------------------------------------

/-- Behind the end nothing is written. -/
theorem cursorWrite_behind (h : cursorSize ≤ addr) :
    cursorWrite cursorData width buf addr s = (0, s) := by
  rw [cursorWrite, if_pos h]

/-- A write copies the first bytes of the buffer to the beginning of the data. -/
theorem cursorWrite_mem (h : addr < cursorSize) :
    (cursorWrite cursorData width buf addr s).2.mem =
      s.mem.blit cursorData (buf.take (clipped addr buf.length)) := by
  rw [cursorWrite, if_neg (Nat.not_le.mpr h)]

/-- It returns how many bytes there was room for. -/
theorem cursorWrite_count (h : addr < cursorSize) :
    (cursorWrite cursorData width buf addr s).1 = clipped addr buf.length := by
  rw [cursorWrite, if_neg (Nat.not_le.mpr h)]

/-- From the beginning on there is room for all eight bytes. -/
theorem clipped_zero (hsize : size < wordSize) : clipped 0 size = min size cursorSize := by
  unfold clipped cursorSize wordSize at *
  split <;> omega

theorem clipped_empty (h : addr < cursorSize) : clipped addr 0 = 0 := by
  unfold clipped cursorSize wordSize at *
  split <;> omega

theorem clipped_pos (h : addr < cursorSize) (hsize : size ≠ 0) : 0 < clipped addr size := by
  unfold clipped
  split
  · exact Nat.sub_pos_of_lt h
  · exact Nat.pos_of_ne_zero hsize

/-- Bytes that begin at 0 or behind the structure, or none, are stored where they should be. -/
theorem cursorWrite_placed (cursorData width : Nat) (s : Screen) (hsize : buf.length < wordSize)
    (h : WellPlaced addr buf.length) :
    (cursorWrite cursorData width buf addr s).1 = min buf.length (cursorSize - addr) ∧
    (cursorWrite cursorData width buf addr s).2.mem =
      s.mem.blit (cursorData + addr) (buf.take (cursorSize - addr)) := by
  rcases Nat.lt_or_ge addr cursorSize with haddr | haddr
  · rw [cursorWrite_count haddr, cursorWrite_mem haddr]
    rcases h with hnil | rfl | hbehind
    · obtain rfl := List.eq_nil_of_length_eq_zero hnil
      rw [List.length_nil, clipped_empty haddr, List.take_nil, List.take_nil, Memory.blit_nil,
        Memory.blit_nil, Nat.zero_min]
      exact ⟨rfl, rfl⟩
    · rw [clipped_zero hsize, Nat.sub_zero, Nat.add_zero]
      refine ⟨rfl, ?_⟩
      rw [Nat.min_comm, ← List.take_take, List.take_length]
    · omega
  · rw [cursorWrite_behind haddr, Nat.sub_eq_zero_of_le haddr, Nat.min_zero, List.take_zero,
      Memory.blit_nil]
    exact ⟨rfl, rfl⟩

/-- Nothing is copied from an empty buffer. -/
theorem cursorWrite_nothing (h : buf = [] ∨ cursorSize ≤ addr) :
    (cursorWrite cursorData width buf addr s).2.mem = s.mem := by
  rcases Nat.lt_or_ge addr cursorSize with haddr | haddr
  · obtain rfl := h.resolve_right (Nat.not_le.mpr haddr)
    rw [cursorWrite_mem haddr, List.take_nil, Memory.blit_nil]
  · rw [cursorWrite_behind haddr]

/-- Bytes that begin inside of the structure begin at its first byte. -/
theorem cursorWrite_misplaced (haddr : addr < cursorSize) (hne : buf ≠ []) :
    (cursorWrite cursorData width buf addr s).2.mem cursorData = buf.head hne := by
  have hpos := clipped_pos haddr (List.length_pos_iff.mpr hne).ne'
  have hlen : 0 < (buf.take (clipped addr buf.length)).length := by
    rw [List.length_take]
    exact Nat.lt_min.mpr ⟨hpos, List.length_pos_iff.mpr hne⟩
  have hinside := Memory.blit_inside (m := s.mem) (a := cursorData) hlen
  rw [Nat.add_zero] at hinside
  rw [cursorWrite_mem haddr, hinside, List.getElem_take, List.head_eq_getElem]

/-- What `fs_write` does with `cursor_file`, as `video_detect` enters it. -/
theorem fsWrite_cursor (fs : Fs.State) (e : Ptr) (d : Display) (hfile : (fs.ent e).type = .FILE)
    (hhooked : (fs.ent e).flags.hooked) (hhook : (fs.ent e).writeHook ≠ NULL) :
    Fs.fsWrite (cursorHook cursorData width d) buf addr buf.length e fs =
      some ({ fs with mem := (cursorWrite cursorData width buf addr ⟨fs.mem, d⟩).2.mem },
        (cursorWrite cursorData width buf addr ⟨fs.mem, d⟩).1) := by
  rw [Fs.fsWrite, if_neg (not_not_intro hfile), if_pos hhooked, if_neg hhook]
  rfl

-- ---------------------------------------------------------------------------
-- A write in pieces
-- ---------------------------------------------------------------------------

/-- A piece stored in its place, and then the others. -/
theorem blit_pieces (m : Memory) (a k : Nat) (p l : List UInt8) :
    (m.blit a (p.take k)).blit (a + p.length) (l.take (k - p.length)) = m.blit a ((p ++ l).take k) := by
  rw [List.take_append]
  rcases Nat.le_total p.length k with hle | hle
  · rw [List.take_of_length_le hle, Memory.blit_append]
  · rw [Nat.sub_eq_zero_of_le hle, List.take_zero, Memory.blit_nil, List.append_nil]

/-- By induction on the pieces: those before have stored their part of the bytes. -/
theorem writesExactly_of_placed (hsizes : ∀ size ∈ sizes, size < wordSize)
    (h : PiecesPlaced addr sizes) : WritesExactly cursorData width addr sizes := by
  intro s pieces hpieces
  induction pieces generalizing addr sizes s with
  | nil =>
    obtain rfl : sizes = [] := hpieces.symm
    rw [writePieces, List.sum_nil, Nat.zero_min, List.flatten_nil, List.take_nil, Memory.blit_nil]
    exact ⟨rfl, rfl⟩
  | cons buf pieces ih =>
    obtain rfl : buf.length :: pieces.map List.length = sizes := hpieces
    obtain ⟨hplaced, hrest⟩ := h
    obtain ⟨hsize, hsizes⟩ := List.forall_mem_cons.mp hsizes
    obtain ⟨hcount, hmem⟩ := cursorWrite_placed cursorData width s hsize hplaced
    obtain ⟨hcounts, hmems⟩ := ih hsizes hrest (cursorWrite cursorData width buf addr s).2 rfl
    rw [writePieces, List.sum_cons, List.flatten_cons, hcounts, hcount, hmems, hmem, ← Nat.add_assoc,
      ← Nat.sub_sub, blit_pieces]
    exact ⟨by omega, rfl⟩

/-- The byte at the beginning of the structure is 0, the others are 1. -/
def marked : Memory := fun a => if a = 0 then 0 else 1

def markedPieces : Nat → List Nat → List (List UInt8)
  | _, [] => []
  | addr, size :: sizes => marked.slice addr size :: markedPieces (addr + size) sizes

theorem markedPieces_sizes : (markedPieces addr sizes).map List.length = sizes := by
  induction sizes generalizing addr with
  | nil => rfl
  | cons size sizes ih => rw [markedPieces, List.map_cons, Memory.slice_length, ih]

theorem markedPieces_flatten : (markedPieces addr sizes).flatten = marked.slice addr sizes.sum := by
  induction sizes generalizing addr with
  | nil => rfl
  | cons size sizes ih =>
    rw [markedPieces, List.flatten_cons, ih, List.sum_cons, Memory.slice_append]

theorem slice_head (m : Memory) (hne : m.slice addr size ≠ []) :
    (m.slice addr size).head hne = m addr := by
  have hpos : 0 < size := by
    rw [← Memory.slice_length (m := m) (a := addr) (n := size)]
    exact List.length_pos_iff.mpr hne
  rw [List.head_eq_getElem]
  exact List.getElem_eq_iff _ |>.mpr (Memory.slice_getElem? hpos)

/-- After a piece that begins inside of the structure its first byte is marked, and remains so. -/
theorem marked_after (cursorData width : Nat) (s : Screen)
    (h : ¬ PiecesPlaced addr sizes ∨ addr ≠ 0 ∧ s.mem cursorData = 1) :
    (writePieces cursorData width addr (markedPieces addr sizes) s).2.mem cursorData = 1 := by
  induction sizes generalizing addr s with
  | nil =>
    rcases h with h | h
    · exact absurd trivial h
    · exact h.2
  | cons size sizes ih =>
    rw [markedPieces, writePieces, Memory.slice_length]
    refine ih _ ?_
    by_cases hplaced : WellPlaced addr size
    · have hrest : ¬ PiecesPlaced (addr + size) sizes ∨ addr ≠ 0 ∧ s.mem cursorData = 1 :=
        h.imp_left fun h hrest => h ⟨hplaced, hrest⟩
      refine hrest.imp_right fun ⟨hne, hmark⟩ => ⟨by omega, ?_⟩
      rw [cursorWrite_nothing, hmark]
      rcases hplaced with rfl | hzero | hbehind
      · exact .inl rfl
      · exact absurd hzero hne
      · exact .inr hbehind
    · obtain ⟨hsize, haddr, hinside⟩ : size ≠ 0 ∧ addr ≠ 0 ∧ ¬ cursorSize ≤ addr := by
        rwa [WellPlaced, not_or, not_or] at hplaced
      have hne : marked.slice addr size ≠ [] :=
        List.ne_nil_of_length_pos (by rw [Memory.slice_length]; exact Nat.pos_of_ne_zero hsize)
      refine .inr ⟨by omega, ?_⟩
      rw [cursorWrite_misplaced (Nat.not_le.mp hinside) hne, slice_head, marked, if_neg haddr]

/-- All pieces land where they belong exactly if each one is empty, or begins at 0, or is behind the
end. -/
theorem writesExactly_iff (hsizes : ∀ size ∈ sizes, size < wordSize) :
    WritesExactly cursorData width addr sizes ↔ PiecesPlaced addr sizes := by
  refine ⟨fun h => by_contra fun hplaced => ?_, writesExactly_of_placed hsizes⟩
  have hmark := marked_after cursorData width blank (.inl hplaced)
  rw [(h _ _ markedPieces_sizes).2, markedPieces_flatten] at hmark
  have hzero : Memory.blit (fun _ => 0) (cursorData + addr)
      ((marked.slice addr sizes.sum).take (cursorSize - addr)) cursorData = 0 := by
    rw [Memory.slice_take]
    rcases Nat.eq_zero_or_pos addr with rfl | hpos
    · rw [Nat.add_zero]
      rcases Nat.eq_zero_or_pos (min (cursorSize - 0) sizes.sum) with hnil | hsome
      · exact Memory.blit_slice_outside (.inr (by omega))
      · exact Memory.blit_slice_inside (a := cursorData) (i := 0) hsome
    · exact Memory.blit_slice_outside (.inl (by omega))
  exact absurd (hzero.symm.trans hmark) (by decide)

-- ---------------------------------------------------------------------------
-- A read
-- ---------------------------------------------------------------------------

/-- So does a read, under the same condition. -/
theorem readsExactly_iff (hsize : size < wordSize) :
    ReadsExactly cursorData addr size ↔ WellPlaced addr size := by
  constructor
  · intro h
    by_contra hplaced
    obtain ⟨hpos, haddr, hinside⟩ : size ≠ 0 ∧ addr ≠ 0 ∧ ¬ cursorSize ≤ addr := by
      rwa [WellPlaced, not_or, not_or] at hplaced
    -- the first byte of the structure is read in place of the one at the address
    have hbytes := congrArg (fun r => r.2[0]?) (h fun a => if a = cursorData then 1 else 0)
    have hsome := clipped_pos (Nat.not_le.mp hinside) hpos
    simp only [cursorRead, if_neg hinside] at hbytes
    rw [Memory.slice_getElem? hsome, Memory.slice_getElem? (by omega), Nat.add_zero, Nat.add_zero,
      if_pos rfl, if_neg (by omega)] at hbytes
    exact absurd hbytes (by decide)
  · intro h mem
    rw [cursorRead]
    split_ifs with haddr
    · rw [Nat.sub_eq_zero_of_le haddr, Nat.min_zero]
      rfl
    · rcases h with rfl | rfl | hbehind
      · rw [clipped_empty (Nat.not_le.mp haddr), Nat.zero_min]
        rfl
      · rw [clipped_zero hsize, Nat.sub_zero, Nat.add_zero]
      · exact absurd hbehind haddr

-- ---------------------------------------------------------------------------
-- The position
-- ---------------------------------------------------------------------------

/-- Bits that both have are counted twice by the sum. By induction on the bits. -/
theorem or_add_and (a b : Nat) : (a ||| b) + (a &&& b) = a + b := by
  induction a using Nat.strong_induction_on generalizing b with
  | _ a ih =>
    rcases Nat.eq_zero_or_pos a with rfl | hpos
    · rw [Nat.zero_or, Nat.zero_and, Nat.add_comm]
    · have hrest := ih (a / 2) (Nat.div_lt_self hpos Nat.one_lt_two) (b / 2)
      rw [← Nat.or_div_two, ← Nat.and_div_two] at hrest
      have hor : (a ||| b) % 2 = 1 ↔ a % 2 = 1 ∨ b % 2 = 1 := Nat.or_mod_two_eq_one
      have hand : (a &&& b) % 2 = 1 ↔ a % 2 = 1 ∧ b % 2 = 1 := Nat.and_mod_two_eq_one
      omega

/-- An `or` is the sum exactly where no bit is in both. -/
theorem or_eq_add_iff (a b : Nat) : a ||| b = a + b ↔ a &&& b = 0 := by
  have h := or_add_and a b
  omega

theorem or_lt {a b : Nat} (h : a + b < 2 ^ 16) : a ||| b < 2 ^ 16 := by
  have h := or_add_and a b
  omega

/-- The two registers hold the two bytes of the position. -/
theorem position_eq {pos : Nat} {d : Display} (hpos : pos < 2 ^ 16) :
    (outb 0x3D5 (UInt8.ofNat ((pos >>> 8) &&& 0xff)) (outb 0x3D4 0x0E
      (outb 0x3D5 (UInt8.ofNat (pos &&& 0xff)) (outb 0x3D4 0x0F d)))).position = pos := by
  have hlow : pos &&& 0xff = pos % 256 := Nat.and_two_pow_sub_one_eq_mod pos 8
  have hhigh : (pos >>> 8) &&& 0xff = pos / 256 := by
    rw [Nat.shiftRight_eq_div_pow, show 0xff = 2 ^ 8 - 1 from rfl, Nat.and_two_pow_sub_one_eq_mod]
    exact Nat.mod_eq_of_lt (by omega)
  rw [hlow, hhigh]
  simp only [outb, Display.position, if_true, Nat.reduceEqDiff, if_false, Function.update_self]
  rw [Function.update_of_ne (by decide), Function.update_self, UInt8.toNat_ofNat', UInt8.toNat_ofNat']
  omega

/-- The cursor is placed at what the coordinates make after the write. -/
theorem cursorWrite_position (h : addr < cursorSize) :
    (cursorWrite cursorData width buf addr s).2.display.position =
      cursorPos cursorData width (cursorWrite cursorData width buf addr s).2.mem := by
  rw [cursorWrite, if_neg (Nat.not_le.mpr h)]
  exact position_eq (Nat.mod_lt _ (by decide))

/-- The coordinates as `fc_move_cursor` writes them. -/
theorem fcMoveCursor_get (cursorData width : Nat) (s : Screen) (hx : x < 2 ^ 32) (hy : y < 2 ^ 32) :
    (fcMoveCursor cursorData width x y s).mem.get 4 cursorData = x ∧
      (fcMoveCursor cursorData width x y s).mem.get 4 (cursorData + 4) = y := by
  have hlen : (leBytes 4 x ++ leBytes 4 y).length = 8 := by
    rw [List.length_append, leBytes_length, leBytes_length]
  have hword : (leBytes 4 x ++ leBytes 4 y).length < wordSize := by
    rw [hlen]
    decide
  have hmem := (cursorWrite_placed cursorData width s hword (.inr (.inl rfl))).2
  rw [Nat.sub_zero, List.take_of_length_le hlen.le, Nat.add_zero] at hmem
  have hslice : (fcMoveCursor cursorData width x y s).mem.slice cursorData 8 =
      leBytes 4 x ++ leBytes 4 y := by
    rw [fcMoveCursor, hmem, ← hlen]
    exact Memory.slice_blit_self
  constructor
  · have hget := Memory.get_of_slice (k := 4) (i := 0) hslice (by omega)
    rwa [Nat.add_zero, List.drop_zero, List.take_left' (leBytes_length 4 x), fromLE_leBytes,
      Nat.mod_eq_of_lt (show x < 256 ^ 4 from hx)] at hget
  · have hget := Memory.get_of_slice (k := 4) (i := 4) hslice (by omega)
    rwa [List.drop_left' (leBytes_length 4 x), List.take_of_length_le (leBytes_length 4 y).le,
      fromLE_leBytes, Nat.mod_eq_of_lt (show y < 256 ^ 4 from hy)] at hget

/-- So it is at its cell exactly if they have no bit in common. -/
theorem placesCursor_iff (hx : x < width) (hpos : x + y * width < 2 ^ 16) :
    PlacesCursor cursorData width x y ↔ x &&& y * width = 0 := by
  have hy : y ≤ y * width := Nat.le_mul_of_pos_right y (Nat.zero_lt_of_lt hx)
  have hcell : (x ||| y * width % 2 ^ 32) % 2 ^ 16 = x ||| y * width := by
    rw [Nat.mod_eq_of_lt (show y * width < 2 ^ 32 by omega), Nat.mod_eq_of_lt (or_lt hpos)]
  rw [← or_eq_add_iff, ← hcell]
  constructor
  · intro h
    obtain ⟨hgetx, hgety⟩ := fcMoveCursor_get cursorData width blank
      (show x < 2 ^ 32 by omega) (show y < 2 ^ 32 by omega)
    rw [← h blank _ 0 (by decide) hgetx hgety, cursorWrite_position (by decide), cursorPos]
    rw [fcMoveCursor] at hgetx hgety
    rw [hgetx, hgety]
  · intro h s buf addr haddr s' hgetx hgety
    rw [cursorWrite_position haddr, cursorPos, hgetx, hgety]
    exact h

/-- **The cursor file.** A write that is cut into pieces and a read treat the bytes from the address
on, and the cursor is placed at its cell, if and only if each call that has bytes begins with the
structure or behind it, and the coordinate has no bit of the line's offset. -/
theorem cursor_file_iff {addr' : Nat} (hsizes : ∀ n ∈ sizes, n < wordSize)
    (hsize : size < wordSize) (hx : x < width) (hpos : x + y * width < 2 ^ 16) :
    WritesExactly cursorData width addr sizes ∧ ReadsExactly cursorData addr' size ∧
      PlacesCursor cursorData width x y ↔
    PiecesPlaced addr sizes ∧ WellPlaced addr' size ∧ x &&& y * width = 0 := by
  rw [writesExactly_iff hsizes, readsExactly_iff hsize, placesCursor_iff hx hpos]

/-- The whole cursor in one write, in the third column of the second line. -/
theorem whole_cursor_placed :
    WritesExactly 0x1000 80 0 [8] ∧ ReadsExactly 0x1000 0 8 ∧ PlacesCursor 0x1000 80 3 1 :=
  (cursor_file_iff (fun n hn => by rw [List.mem_singleton.mp hn]; decide) (by decide) (by decide)
    (by decide)).mpr ⟨⟨.inr (.inl rfl), trivial⟩, .inr (.inl rfl), rfl⟩

/-- The four bytes of `y` go to `x`, and the last cell of the second line is programmed as one of
its first cells. -/
theorem second_field_misplaced :
    (cursorWrite 0x1000 80 [1, 0, 0, 0] 4 blank).2.mem.get 4 0x1000 = 1 ∧
      ¬ WritesExactly 0x1000 80 4 [4] ∧
      (fcMoveCursor 0x1000 80 79 1 blank).display.position = 95 ∧ ¬ PlacesCursor 0x1000 80 79 1 := by
  have hsizes : ∀ n ∈ [4], n < wordSize := by decide
  refine ⟨by decide, ?_, by decide, ?_⟩
  · intro h
    exact absurd ((writesExactly_iff hsizes).mp h).1 (by decide)
  · intro h
    exact absurd ((placesCursor_iff (by decide) (by decide)).mp h) (by decide)

end Frosk.Dev

import Mathlib.Data.List.GetD
import Frosk.Shell.Definitions
import Frosk.Fcurses.Terminal

/-!
# The first program: its keys and its box

`decode` says what scancodes mean, without a state: a key that is pressed stands for
its character, from the second table if the last that happened to one of the shift
keys was that it was pressed. `process_key`, called on one scancode after the other,
sends just these characters (`decode_concat`).

`boxScreen_cell` is the box that `box_screen` draws: its border and nothing else.
-/

namespace Frosk.Shell

open Lib Fcurses

-- ---------------------------------------------------------------------------
-- What scancodes mean
-- ---------------------------------------------------------------------------

/-- Whether the key was pressed last and not released since. -/
def held (key : UInt8) (l : List UInt8) : Bool :=
  (l.filter fun sc => sc = key ∨ sc = key ||| RELEASE).getLast? = some key

def shifted (l : List UInt8) : Bool := held LSHIFT l || held RSHIFT l

/-- The character of a key, or `0`. -/
def keyChar (shift : Bool) (sc : UInt8) : UInt8 :=
  (if shift then scanCode1ToCharShifted else scanCode1ToChar).getD sc.toNat 0

/-- What the scancode at `i` stands for, after those before it. -/
def meaning (l : List UInt8) (i : Nat) : Option UInt8 :=
  let ch := keyChar (shifted (l.take i)) (l.getD i 0)
  if ch ≠ 0 then some ch else none

def decode (l : List UInt8) : List UInt8 := (List.range l.length).filterMap (meaning l)

example : decode [0x23, 0xA3, LSHIFT, 0x17, LSHIFT ||| RELEASE, 0x97, 0x1C] = chars ['h', 'I', '\n'] := by
  decide

/-- The state of the shift keys after the scancodes. -/
def KeyState.of (l : List UInt8) : KeyState := ⟨held LSHIFT l, held RSHIFT l⟩

/-- A key is held after it went down, until it comes up. -/
theorem held_concat {key : UInt8} (hkey : key ||| RELEASE ≠ key) (l : List UInt8) (sc : UInt8) :
    held key (l ++ [sc]) =
      if sc = key then true else if sc = key ||| RELEASE then false else held key l := by
  unfold held
  rw [List.filter_append]
  by_cases hpress : sc = key
  · rw [if_pos hpress, hpress]
    simp
  by_cases hrelease : sc = key ||| RELEASE
  · rw [if_neg hpress, if_pos hrelease, hrelease]
    simpa using hkey
  · rw [if_neg hpress, if_neg hrelease]
    simp [hpress, hrelease]

/-- The state of the keys is that of all codes so far. -/
theorem after_of (l : List UInt8) (sc : UInt8) :
    (KeyState.of l).after sc = KeyState.of (l ++ [sc]) := by
  have hkeys : LSHIFT ≠ RSHIFT ∧ LSHIFT ||| RELEASE ≠ RSHIFT ||| RELEASE := by decide
  rw [KeyState.of, KeyState.of, held_concat (by decide), held_concat (by decide), KeyState.after]
  by_cases hrelease : sc ≥ RELEASE
  · have hl : sc ≠ LSHIFT := fun h => absurd (h ▸ hrelease) (by decide)
    have hr : sc ≠ RSHIFT := fun h => absurd (h ▸ hrelease) (by decide)
    rw [if_pos hrelease, if_neg hl, if_neg hr]
    by_cases hl' : sc = LSHIFT ||| RELEASE <;> by_cases hr' : sc = RSHIFT ||| RELEASE <;>
      simp [hl', hr', hkeys, hkeys.2.symm]
  · have hl : sc ≠ LSHIFT ||| RELEASE := fun h => absurd (h ▸ hrelease) (by decide)
    have hr : sc ≠ RSHIFT ||| RELEASE := fun h => absurd (h ▸ hrelease) (by decide)
    rw [if_neg hrelease, if_neg hl, if_neg hr]
    by_cases hl' : sc = LSHIFT <;> by_cases hr' : sc = RSHIFT <;>
      simp [hl', hr', hkeys, hkeys.1.symm]

/-- Both tables have a character for each key. -/
theorem table_lengths :
    scanCode1ToChar.length = 88 ∧ scanCode1ToCharShifted.length = 88 := by decide

/-- A released key has no character. -/
theorem keyChar_release (shift : Bool) {sc : UInt8} (h : sc ≥ RELEASE) : keyChar shift sc = 0 := by
  have hlarge : 0x80 ≤ sc.toNat := UInt8.le_iff_toNat_le.mp h
  obtain ⟨hplain, hshifted⟩ := table_lengths
  cases shift
  · exact List.getD_eq_default _ _ (by simp only [Bool.false_eq_true, if_false, hplain]; omega)
  · exact List.getD_eq_default _ _ (by simp only [if_true, hshifted]; omega)

/-- Neither has a shift key. -/
theorem keyChar_shift (shift : Bool) : keyChar shift LSHIFT = 0 ∧ keyChar shift RSHIFT = 0 := by
  cases shift <;> decide

/-- The character of a code depends on the shift keys. -/
theorem char_eq (state : KeyState) (sc : UInt8) :
    state.char sc = keyChar (state.lshift || state.rshift) sc := by
  unfold KeyState.char
  by_cases hrelease : sc ≥ RELEASE
  · rw [if_pos hrelease, keyChar_release _ hrelease]
  rw [if_neg hrelease]
  obtain ⟨hplain, hshifted⟩ := table_lengths
  by_cases hsmall : sc.toNat < scanCode1ToChar.length
  · rw [if_pos hsmall, keyChar]
    by_cases hshift : state.lshift = true ∨ state.rshift = true
    · rw [if_pos hshift, if_pos (by simpa using hshift)]
    · rw [if_neg hshift, if_neg (by simpa using hshift)]
  · rw [if_neg hsmall, keyChar, List.getD_eq_default]
    split <;> omega

/-- The character of the last scancode, whose own effect on the shift keys is not felt. -/
theorem char_of_concat (l : List UInt8) (sc : UInt8) :
    (KeyState.of (l ++ [sc])).char sc = keyChar (shifted l) sc := by
  have hshift : ∀ shift, sc = LSHIFT ∨ sc = RSHIFT ∨ sc ≥ RELEASE → keyChar shift sc = 0 := by
    rintro shift (h | h | h)
    · rw [h]
      exact (keyChar_shift shift).1
    · rw [h]
      exact (keyChar_shift shift).2
    · exact keyChar_release shift h
  rw [char_eq]
  by_cases hspecial : sc = LSHIFT ∨ sc = RSHIFT ∨ sc ≥ RELEASE
  · rw [hshift _ hspecial, hshift _ hspecial]
  · push Not at hspecial
    have hl : sc ≠ LSHIFT ||| RELEASE := fun h => absurd (h ▸ hspecial.2.2) (by decide)
    have hr : sc ≠ RSHIFT ||| RELEASE := fun h => absurd (h ▸ hspecial.2.2) (by decide)
    rw [KeyState.of, held_concat (by decide), held_concat (by decide), if_neg hspecial.1, if_neg hl,
      if_neg hspecial.2.1, if_neg hr]
    rfl

/-- What a code means does not depend on later ones. -/
theorem meaning_append {l : List UInt8} (l' : List UInt8) {i : Nat} (hi : i < l.length) :
    meaning (l ++ l') i = meaning l i := by
  rw [meaning, meaning, List.take_append_of_le_length hi.le, List.getD_append _ _ _ _ hi]

/-- What `process_key` sends for one more scancode. -/
theorem decode_concat (l : List UInt8) (sc : UInt8) :
    decode (l ++ [sc]) = decode l ++
      if (KeyState.of (l ++ [sc])).char sc ≠ 0 then [(KeyState.of (l ++ [sc])).char sc] else [] := by
  have hlast : meaning (l ++ [sc]) l.length =
      if keyChar (shifted l) sc ≠ 0 then some (keyChar (shifted l) sc) else none := by
    rw [meaning, List.take_left', List.getD_append_right _ _ _ _ le_rfl, Nat.sub_self]
    · rfl
    · rfl
  have hfirst : (List.range l.length).filterMap (meaning (l ++ [sc])) = decode l :=
    List.filterMap_congr fun i hi => meaning_append [sc] (List.mem_range.mp hi)
  rw [char_of_concat, decode, List.length_append, List.length_singleton, List.range_succ,
    List.filterMap_append, hfirst]
  split <;> simp_all

-- ---------------------------------------------------------------------------
-- The box
-- ---------------------------------------------------------------------------

variable {scr : Screen} {a b : Int}

/-- The character of the box at a place of its border. -/
def boxChar (scr : Screen) (a b : Int) : Int :=
  if a = 0 ∧ b = 0 then DBOX_TL_C
  else if a = 0 ∧ b = scr.height - 1 then DBOX_BL_C
  else if a = scr.width - 1 ∧ b = 0 then DBOX_TR_C
  else if a = scr.width - 1 ∧ b = scr.height - 1 then DBOX_BR_C
  else if a = 0 ∨ a = scr.width - 1 then DBOX_VERT
  else DBOX_HORZ

/-- The place is on the border. -/
def Border (scr : Screen) (a b : Int) : Prop :=
  (a = 0 ∨ a = scr.width - 1) ∨ b = 0 ∨ b = scr.height - 1

instance : Decidable (Border scr a b) := inferInstanceAs (Decidable (_ ∨ _))

/-- The sides of the box are drawn in their columns. -/
theorem boxSides_cell (style : Int) (hs : scr.Sized) (hw : 1 ≤ scr.width) {n : Nat}
    (hn : n + 1 < scr.height) :
    scr.Alike (boxSides style scr n) ∧ ∀ a b, scr.Has a b →
      (boxSides style scr n).cell a b =
        if (a = 0 ∨ a = scr.width - 1) ∧ 1 ≤ b ∧ b ≤ n then (toByte DBOX_VERT, toByte style)
        else scr.cell a b := by
  induction n with
  | zero =>
    refine ⟨Screen.Alike.refl scr, ?_⟩
    intro a b _
    rw [if_neg (by omega)]
    rfl
  | succ n ih =>
    obtain ⟨halike, hcell⟩ := ih (by omega)
    have hstep : boxSides style scr (n + 1) =
        fcPutc (fcPutc (boxSides style scr n) DBOX_VERT 0 (n + 1) style) DBOX_VERT
          ((boxSides style scr n).width - 1) (n + 1) style := by
      rw [boxSides, List.range_succ, List.foldl_append]
      rfl
    have hleft := putc_alike (boxSides style scr n) DBOX_VERT 0 (n + 1) style
    have hright := putc_alike (fcPutc (boxSides style scr n) DBOX_VERT 0 (n + 1) style) DBOX_VERT
      ((boxSides style scr n).width - 1) (n + 1) style
    have hall := halike.trans hleft
    rw [hstep]
    refine ⟨hall.trans hright, ?_⟩
    intro a b hab
    have hhas : scr.Has 0 (n + 1) ∧ scr.Has (scr.width - 1) (n + 1) := by
      unfold Screen.Has
      omega
    rw [halike.width, putc_cell (hs.alike hall) (hhas.2.alike hall) (hab.alike hall),
      putc_cell (hs.alike halike) (hhas.1.alike halike) (hab.alike halike), hcell a b hab]
    split_ifs <;> first | rfl | (exfalso; omega)

/-- The ends of the box are drawn in their rows. -/
theorem boxEnds_cell (style : Int) (hs : scr.Sized) (hh : 1 ≤ scr.height) {n : Nat}
    (hn : n + 1 < scr.width) :
    scr.Alike (boxEnds style scr n) ∧ ∀ a b, scr.Has a b →
      (boxEnds style scr n).cell a b =
        if (b = 0 ∨ b = scr.height - 1) ∧ 1 ≤ a ∧ a ≤ n then (toByte DBOX_HORZ, toByte style)
        else scr.cell a b := by
  induction n with
  | zero =>
    refine ⟨Screen.Alike.refl scr, ?_⟩
    intro a b _
    rw [if_neg (by omega)]
    rfl
  | succ n ih =>
    obtain ⟨halike, hcell⟩ := ih (by omega)
    have hstep : boxEnds style scr (n + 1) =
        fcPutc (fcPutc (boxEnds style scr n) DBOX_HORZ (n + 1) 0 style) DBOX_HORZ (n + 1)
          ((boxEnds style scr n).height - 1) style := by
      rw [boxEnds, List.range_succ, List.foldl_append]
      rfl
    have htop := putc_alike (boxEnds style scr n) DBOX_HORZ (n + 1) 0 style
    have hbottom := putc_alike (fcPutc (boxEnds style scr n) DBOX_HORZ (n + 1) 0 style) DBOX_HORZ
      (n + 1) ((boxEnds style scr n).height - 1) style
    have hall := halike.trans htop
    rw [hstep]
    refine ⟨hall.trans hbottom, ?_⟩
    intro a b hab
    have hhas : scr.Has (n + 1) 0 ∧ scr.Has (n + 1) (scr.height - 1) := by
      unfold Screen.Has
      omega
    rw [halike.height, putc_cell (hs.alike hall) (hhas.2.alike hall) (hab.alike hall),
      putc_cell (hs.alike halike) (hhas.1.alike halike) (hab.alike halike), hcell a b hab]
    split_ifs <;> first | rfl | (exfalso; omega)

/-- `box_screen` draws a box around the screen, and nothing in it. -/
theorem boxScreen_cell (style : Int) (hs : scr.Sized) (hw : 2 ≤ scr.width) (hh : 2 ≤ scr.height) :
    scr.Alike (boxScreen scr style) ∧ ∀ a b, scr.Has a b →
      (boxScreen scr style).cell a b =
        if Border scr a b then (toByte (boxChar scr a b), toByte style) else scr.cell a b := by
  obtain ⟨s₁, hs₁⟩ : ∃ s, s = fcPutc scr DBOX_TL_C 0 0 style := ⟨_, rfl⟩
  obtain ⟨s₂, hs₂⟩ : ∃ s, s = fcPutc s₁ DBOX_BL_C 0 (s₁.height - 1) style := ⟨_, rfl⟩
  obtain ⟨s₃, hs₃⟩ : ∃ s, s = fcPutc s₂ DBOX_TR_C (s₂.width - 1) 0 style := ⟨_, rfl⟩
  obtain ⟨s₄, hs₄⟩ : ∃ s, s = fcPutc s₃ DBOX_BR_C (s₃.width - 1) (s₃.height - 1) style := ⟨_, rfl⟩
  have h₁ : scr.Alike s₁ := hs₁ ▸ putc_alike _ _ _ _ _
  have h₂ : scr.Alike s₂ := h₁.trans (hs₂ ▸ putc_alike _ _ _ _ _)
  have h₃ : scr.Alike s₃ := h₂.trans (hs₃ ▸ putc_alike _ _ _ _ _)
  have h₄ : scr.Alike s₄ := h₃.trans (hs₄ ▸ putc_alike _ _ _ _ _)
  obtain ⟨hsides, hsidesCell⟩ := boxSides_cell style (hs.alike h₄) (by rw [h₄.width]; omega)
    (show ((scr.height - 2).toNat : Int) + 1 < s₄.height by rw [h₄.height]; omega)
  have h₅ := h₄.trans hsides
  obtain ⟨hends, hendsCell⟩ := boxEnds_cell style (hs.alike h₅) (by rw [h₅.height]; omega)
    (show ((scr.width - 2).toNat : Int) + 1 < _ by rw [h₅.width]; omega)
  have hbox : boxScreen scr style =
      boxEnds style (boxSides style s₄ (scr.height - 2).toNat) (scr.width - 2).toNat := by
    unfold boxScreen
    dsimp only
    rw [← hs₁, ← hs₂, ← hs₃, ← hs₄, h₄.height, h₅.width]
  rw [hbox]
  refine ⟨h₅.trans hends, ?_⟩
  intro a b hab
  have hcorners : (scr.Has 0 0 ∧ scr.Has 0 (scr.height - 1)) ∧
      scr.Has (scr.width - 1) 0 ∧ scr.Has (scr.width - 1) (scr.height - 1) := by
    unfold Screen.Has
    omega
  obtain ⟨⟨htl, hbl⟩, htr, hbr⟩ := hcorners
  have hcell : s₄.cell a b =
      if a = scr.width - 1 ∧ b = scr.height - 1 then (toByte DBOX_BR_C, toByte style)
      else if a = scr.width - 1 ∧ b = 0 then (toByte DBOX_TR_C, toByte style)
      else if a = 0 ∧ b = scr.height - 1 then (toByte DBOX_BL_C, toByte style)
      else if a = 0 ∧ b = 0 then (toByte DBOX_TL_C, toByte style) else scr.cell a b := by
    rw [hs₄, h₃.width, h₃.height, putc_cell (hs.alike h₃) (hbr.alike h₃) (hab.alike h₃), hs₃, h₂.width,
      putc_cell (hs.alike h₂) (htr.alike h₂) (hab.alike h₂), hs₂, h₁.height,
      putc_cell (hs.alike h₁) (hbl.alike h₁) (hab.alike h₁), hs₁, putc_cell hs htl hab]
  rw [hendsCell a b (hab.alike h₅), hsidesCell a b (hab.alike h₄), hcell, h₅.height, h₄.width]
  obtain ⟨⟨ha, ha'⟩, hb, hb'⟩ := hab
  rw [Int.toNat_of_nonneg (by omega), Int.toNat_of_nonneg (by omega)]
  by_cases hborder : Border scr a b
  · rw [if_pos hborder]
    unfold Border at hborder
    unfold boxChar
    split_ifs <;> first | rfl | (exfalso; omega)
  · rw [if_neg hborder]
    unfold Border at hborder
    split_ifs <;> first | rfl | (exfalso; omega)

end Frosk.Shell

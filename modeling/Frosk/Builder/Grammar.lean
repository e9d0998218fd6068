import Mathlib.Tactic
import Frosk.Builder.Directives

/-!
# The image builder: the texts of descriptions

A grammar of the bytes that a description is written in, and of what its directives have the
builder make (`Describes`).

* With `lax` it has the texts that are not well formed too, but for those in which the end comes
  inside of a comment, a word or a directive, or a directive has a letter that no class has. The
  flag says whether something is reported.
* A byte that a string has for a negative `char` cannot be put back (`Kept`), so that it is lost
  where the parser looks ahead, and 0xFF is taken for the end (`AtEnd`).
-/

namespace Frosk.Builder.Text

open Lib Fs

-- ---------------------------------------------------------------------------
-- Characters
-- ---------------------------------------------------------------------------

/-- White space and comments are skipped, up to the character that `r` begins with. -/
inductive Skips : List UInt8 → List UInt8 → Prop
  | stop {t : List UInt8} (hvisible : ∀ b ∈ t.head?, Visible b) : Skips t t
  | blank {b : UInt8} {t r : List UInt8} (hb : isspace b.toNat = true) (h : Skips t r) :
      Skips (b :: t) r
  | comment {l t r : List UInt8} (hl : '\n'.toUInt8 ∉ l) (h : Skips t r) :
      Skips ('#'.toUInt8 :: (l ++ '\n'.toUInt8 :: t)) r

/-- The next character is `c`, or another is reported and skipped. -/
inductive Expects (lax : Prop) (c : Char) : List UInt8 → List UInt8 → Bool → Prop
  | found {t r : List UInt8} (h : Skips t (c.toUInt8 :: r)) : Expects lax c t r false
  | other {t r : List UInt8} (hlax : lax) (h : Skips t r) (hne : r.head? ≠ some c.toUInt8) :
      Expects lax c t r.tail true

/-- The character of a byte is not negative. -/
def Kept (file : Bool) (b : UInt8) : Prop := file = true ∨ b.toNat < 128

/-- There is no character, or one that is taken for the end. -/
def AtEnd (file : Bool) (o : Option UInt8) : Prop := o = none ∨ file = false ∧ o = some 0xFF

/-- The next character is `o`, which is put back. -/
inductive Peeks (lax : Prop) (file : Bool) : List UInt8 → Option UInt8 → List UInt8 → Prop
  | kept {t r : List UInt8} (h : Skips t r) (hkept : ∀ b ∈ r.head?, Kept file b) :
      Peeks lax file t r.head? r
  | lost {t r : List UInt8} {b : UInt8} (hlax : lax) (h : Skips t (b :: r)) (hlost : ¬ Kept file b) :
      Peeks lax file t (some b) r

-- ---------------------------------------------------------------------------
-- Strings
-- ---------------------------------------------------------------------------

def InWord (term : List Char) (b : UInt8) : Prop :=
  isspace b.toNat = false ∧ b ∉ term.map Char.toUInt8

/-- What a word ends with: white space, or a mark that is left. -/
inductive WordEnds (term : List Char) : List UInt8 → List UInt8 → Prop
  | space {b : UInt8} {t : List UInt8} (hb : isspace b.toNat = true) : WordEnds term (b :: t) t
  | mark {b : UInt8} {t : List UInt8} (hb : b ∈ term.map Char.toUInt8) : WordEnds term (b :: t) (b :: t)

def InBraces (file : Bool) (b : UInt8) : Prop :=
  b ≠ '}'.toUInt8 ∧ (file = false → b ≠ 0xFF)

inductive BracesEnd (lax : Prop) (file : Bool) : List UInt8 → List UInt8 → Prop
  | close {t : List UInt8} : BracesEnd lax file ('}'.toUInt8 :: t) t
  | cut {t : List UInt8} (hlax : lax) (hfile : file = false) : BracesEnd lax file (0xFF :: t) t
  | missing (hlax : lax) : BracesEnd lax file [] []

/-- A string, which a terminator would cut. -/
inductive Takes (lax : Prop) (file : Bool) (term : List Char) : List UInt8 → CStr → List UInt8 → Prop
  | word {t w r t' : List UInt8} (h : Skips t (w ++ r)) (hopen : (w ++ r).head? ≠ some '{'.toUInt8)
      (hw : ∀ b ∈ w, InWord term b) (hend : WordEnds term r t') (hzero : lax ∨ 0 ∉ w) :
      Takes lax file term t (.ofChars w) t'
  | braces {t w r t' : List UInt8} (h : Skips t ('{'.toUInt8 :: (w ++ r)))
      (hw : ∀ b ∈ w, InBraces file b) (hend : BracesEnd lax file r t') (hzero : lax ∨ 0 ∉ w) :
      Takes lax file term t (.ofChars w) t'

-- ---------------------------------------------------------------------------
-- Directives
-- ---------------------------------------------------------------------------

/-- The values of the fields of a directive. -/
abbrev Values := Nat → Option CStr

/-- A field that the class has is set, and another is reported. -/
inductive Assigns (lax : Prop) (cls : Class) (left right : CStr) (values : Values) : Values → Bool → Prop
  | known {i : Nat} (h : Known cls left i) :
      Assigns lax cls left right values (Function.update values i (some right)) false
  | unknown (hlax : lax) (h : ∀ i, ¬ Known cls left i) : Assigns lax cls left right values values true

/-- The comma before every field but the first. -/
def Comma (lax : Prop) : Bool → List UInt8 → List UInt8 → Bool → Prop
  | true, t, t', e => t' = t ∧ e = false
  | false, t, t', e => Expects lax ',' t t' e

/-- One field. -/
inductive Field (lax : Prop) (file : Bool) (cls : Class) :
    Bool → Values → List UInt8 → Values → List UInt8 → Bool → Prop
  | mk {first : Bool} {values values' : Values} {t t₁ t₂ t₃ t' : List UInt8} {left right : CStr}
      {e₁ e₂ e₃ : Bool} (hcomma : Comma lax first t t₁ e₁) (hleft : Takes lax file ['=', ']'] t₁ left t₂)
      (hequal : Expects lax '=' t₂ t₃ e₂) (hright : Takes lax file [',', ']'] t₃ right t')
      (hset : Assigns lax cls left right values values' e₃) :
      Field lax file cls first values t values' t' (e₁ || e₂ || e₃)

/-- The fields, and the bracket behind them. -/
inductive Fills (lax : Prop) (file : Bool) (cls : Class) :
    Bool → Values → List UInt8 → Values → List UInt8 → Bool → Prop
  | close {first : Bool} {values : Values} {t t' : List UInt8} (h : Skips t (']'.toUInt8 :: t')) :
      Fills lax file cls first values t values t' false
  | field {first : Bool} {values values₁ values' : Values} {t t₁ t₂ t' : List UInt8} {o : Option UInt8}
      {e₁ e₂ : Bool} (hpeek : Peeks lax file t o t₁) (hne : o ≠ some ']'.toUInt8)
      (hfield : Field lax file cls first values t₁ values₁ t₂ e₁)
      (hrest : Fills lax file cls false values₁ t₂ values' t' e₂) :
      Fills lax file cls first values t values' t' (e₁ || e₂)

/-- A directive of a class that there is. -/
inductive Declares (lax : Prop) (file : Bool) : List UInt8 → Class → Values → List UInt8 → Bool → Prop
  | mk {cls : Class} {values : Values} {t t₁ t₂ t₃ t₄ t' : List UInt8} {o : Option UInt8} {e₁ e₂ e₃ : Bool}
      (hpeek : Peeks lax file t o t₁) (ho : ¬ AtEnd file o) (htype : Skips t₁ (cls.mark.toUInt8 :: t₂))
      (hcolon : Expects lax ':' t₂ t₃ e₁) (hopen : Expects lax '[' t₃ t₄ e₂)
      (hfields : Fills lax file cls true (fun _ => none) t₄ values t' e₃) :
      Declares lax file t cls values t' (e₁ || e₂ || e₃)

-- ---------------------------------------------------------------------------
-- Directories
-- ---------------------------------------------------------------------------

/-- The fields that a class cannot do without. -/
def Class.needs : Class → List Nat
  | f => [0, 1]
  | d => [0]
  | i => [0, 1]
  | v => [0, 1, 4]

def Verified (cls : Class) (values : Values) : Prop := ∀ i ∈ cls.needs, values i ≠ none

/-- The contents that are parsed. -/
def contents (values : Values) : Class → Option CStr
  | .d => values 1
  | _ => none

/-- A letter of the permission is reported. -/
def complains (values : Values) : Bool := (values 2).any fun perm => decide (unknownPerms perm ≠ [])

/-- The directives of a directory that are verified, each with those in its contents. -/
inductive Items where
  | done
  | entry (cls : Class) (values : Values) (hverified : Verified cls values) (inner rest : Items)

/-- The text of a directory. -/
inductive Describes (lax : Prop) : Bool → List UInt8 → Items → Bool → Prop
  | stop {file : Bool} {t t' : List UInt8} {o : Option UInt8} (h : Peeks lax file t o t')
      (ho : AtEnd file o) : Describes lax file t .done false
  | unverified {file : Bool} {t t' : List UInt8} {cls : Class} {values : Values} {rest : Items}
      {e e' : Bool} (hlax : lax) (h : Declares lax file t cls values t' e) (hnot : ¬ Verified cls values)
      (hrest : Describes lax file t' rest e') : Describes lax file t rest true
  | plain {file : Bool} {t t' : List UInt8} {cls : Class} {values : Values} {rest : Items} {e e' : Bool}
      (h : Declares lax file t cls values t' e) (hverified : Verified cls values)
      (hperm : lax ∨ complains values = false) (hcontents : contents values cls = none)
      (hrest : Describes lax file t' rest e') :
      Describes lax file t (.entry cls values hverified .done rest) (e || complains values || e')
  | directory {file : Bool} {t t' : List UInt8} {cls : Class} {values : Values} {raw : CStr}
      {inner rest : Items} {e e₁ e' : Bool} (h : Declares lax file t cls values t' e)
      (hverified : Verified cls values) (hperm : lax ∨ complains values = false)
      (hcontents : contents values cls = some raw) (hinner : Describes lax false raw.chars inner e₁)
      (hrest : Describes lax file t' rest e') :
      Describes lax file t (.entry cls values hverified inner rest) (e || complains values || e₁ || e')

/-- The text is well formed. -/
def WellFormed (file : Bool) (text : List UInt8) : Prop := ∃ items e, Describes False file text items e

-- ---------------------------------------------------------------------------
-- Lengths
-- ---------------------------------------------------------------------------

section Lengths

variable {lax : Prop} {file first : Bool} {t t' r : List UInt8} {c : Char} {e : Bool} {o : Option UInt8}
  {term : List Char} {str : CStr} {cls : Class} {values values' : Values}

/-- Nothing of the grammar makes the text longer. -/
theorem Skips.length_le (h : Skips t r) : r.length ≤ t.length := by
  induction h with
  | stop _ => exact le_rfl
  | blank _ _ ih => exact ih.trans (Nat.le_succ _)
  | comment _ _ ih =>
    rw [List.length_cons, List.length_append, List.length_cons]
    omega

theorem Expects.length_le (h : Expects lax c t t' e) : t'.length ≤ t.length := by
  cases h with
  | found h => exact (Nat.le_succ _).trans h.length_le
  | other _ h _ => exact (List.length_tail ▸ Nat.sub_le _ _).trans h.length_le

/-- A character is consumed, if there is one. -/
theorem Expects.length_lt (h : Expects lax c t t' e) (hne : t ≠ []) : t'.length < t.length := by
  have hpos := List.length_pos_of_ne_nil hne
  cases h with
  | found h => exact h.length_le
  | other _ h _ =>
    have hle := h.length_le
    rw [List.length_tail]
    omega

theorem Peeks.length_le (h : Peeks lax file t o t') : t'.length ≤ t.length := by
  cases h with
  | kept h _ => exact h.length_le
  | lost _ h _ => exact (Nat.le_succ _).trans h.length_le

theorem ofChars_length (w : List UInt8) : (CStr.ofChars w).chars.length ≤ w.length :=
  (List.takeWhile_sublist _).length_le

/-- A string is shorter than the text that it is taken from. -/
theorem Takes.length_lt (h : Takes lax file term t str t') : str.chars.length < t.length := by
  cases h with
  | word h _ _ hend _ =>
    refine (ofChars_length _).trans_lt (lt_of_lt_of_le ?_ h.length_le)
    rw [List.length_append]
    cases hend with
    | space _ => exact Nat.lt_add_of_pos_right (Nat.succ_pos _)
    | mark _ => exact Nat.lt_add_of_pos_right (Nat.succ_pos _)
  | braces h _ _ _ =>
    refine (ofChars_length _).trans_lt (lt_of_lt_of_le ?_ h.length_le)
    rw [List.length_cons, List.length_append]
    omega

theorem Takes.length_le (h : Takes lax file term t str t') : t'.length ≤ t.length := by
  cases h with
  | word h _ _ hend _ =>
    refine le_trans ?_ h.length_le
    rw [List.length_append]
    cases hend with
    | space _ => exact (Nat.le_succ _).trans (Nat.le_add_left ..)
    | mark _ => exact Nat.le_add_left ..
  | braces h _ hend _ =>
    refine le_trans ?_ h.length_le
    rw [List.length_cons, List.length_append]
    cases hend with
    | close => exact (Nat.le_succ _).trans ((Nat.le_add_left ..).trans (Nat.le_succ _))
    | cut _ _ => exact (Nat.le_succ _).trans ((Nat.le_add_left ..).trans (Nat.le_succ _))
    | missing _ => exact Nat.zero_le _

/-- Behind a string a character is consumed, if none was for the string. -/
theorem Takes.length_lt_of_expects (h : Takes lax file term t str t') (h' : Expects lax c t' r e) :
    r.length < t.length := by
  have hle := h.length_le
  by_cases hnil : t' = []
  · subst hnil
    exact h'.length_le.trans_lt ((Nat.zero_le _).trans_lt h.length_lt)
  · exact (h'.length_lt hnil).trans_le hle

theorem Comma.length_le (h : Comma lax first t t' e) : t'.length ≤ t.length := by
  cases first with
  | true => exact h.1 ▸ le_rfl
  | false => exact Expects.length_le h

/-- A field takes at least one byte. -/
theorem Field.length_lt (h : Field lax file cls first values t values' t' e) : t'.length < t.length := by
  cases h with
  | mk hcomma hleft hequal hright _ =>
    have hcomma := hcomma.length_le
    have hequal := hleft.length_lt_of_expects hequal
    have hright := hright.length_le
    omega

/-- The value of a field is shorter than the text, if it was not there before. -/
theorem Field.values_short (h : Field lax file cls first values t values' t' e) {i : Nat} {v : CStr}
    (hv : values' i = some v) : values i = some v ∨ v.chars.length < t.length := by
  cases h with
  | mk hcomma hleft hequal hright hset =>
    have hcomma := hcomma.length_le
    have hleft := hleft.length_le
    have hequal := hequal.length_le
    have hright := hright.length_lt
    cases hset with
    | unknown _ _ => exact .inl hv
    | @known j _ =>
      by_cases hij : i = j
      · rw [hij, Function.update_self] at hv
        obtain rfl := Option.some.inj hv
        exact .inr (by omega)
      · rw [Function.update_of_ne hij] at hv
        exact .inl hv

/-- All fields with their bracket take at least one byte. -/
theorem Fills.length_lt (h : Fills lax file cls first values t values' t' e) : t'.length < t.length := by
  induction h with
  | close h => exact h.length_le
  | field hpeek _ hfield _ ih => exact ih.trans (hfield.length_lt.trans_le hpeek.length_le)

/-- A value that was read is shorter than the text. -/
theorem Fills.values_short (h : Fills lax file cls first values t values' t' e) {i : Nat} {v : CStr}
    (hv : values' i = some v) : values i = some v ∨ v.chars.length < t.length := by
  induction h with
  | close _ => exact .inl hv
  | field hpeek _ hfield _ ih =>
    have hpeek := hpeek.length_le
    rcases ih hv with hold | hlt
    · exact (hfield.values_short hold).imp_right fun hlt => hlt.trans_le hpeek
    · exact .inr (hlt.trans (hfield.length_lt.trans_le hpeek))

/-- A directive takes at least one byte. -/
theorem Declares.length_lt (h : Declares lax file t cls values t' e) : t'.length < t.length := by
  cases h with
  | mk hpeek _ htype hcolon hopen hfields =>
    have hpeek := hpeek.length_le
    have htype := htype.length_le
    have hcolon := hcolon.length_le
    have hopen := hopen.length_le
    have hfields := hfields.length_lt
    rw [List.length_cons] at htype
    omega

/-- Its values are shorter than the text. -/
theorem Declares.values_short (h : Declares lax file t cls values t' e) {i : Nat} {v : CStr}
    (hv : values i = some v) : v.chars.length < t.length := by
  cases h with
  | mk hpeek _ htype hcolon hopen hfields =>
    have hpeek := hpeek.length_le
    have htype := htype.length_le
    have hcolon := hcolon.length_le
    have hopen := hopen.length_le
    have hlt := (hfields.values_short hv).resolve_left (Option.some_ne_none v).symm
    rw [List.length_cons] at htype
    omega

/-- Only a directory has contents. -/
theorem contents_some {raw : CStr} (h : contents values cls = some raw) : cls = .d ∧ values 1 = some raw := by
  cases cls with
  | d => exact ⟨rfl, h⟩
  | f => cases h
  | i => cases h
  | v => cases h

end Lengths

end Frosk.Builder.Text

import Mathlib.Tactic
import Frosk.Builder.Tokens

/-!
# The image builder: what a text describes

A text describes at most one thing (`Describes.unique`), although the grammar does not say where
a string ends, or how the white space before a character is divided.

* `directory_describes` — the text of a directory of any plain name.
-/

namespace Frosk.Builder.Text

open Lib Fs

variable {t t' t₁ t₁' r r' : List UInt8} {o o' : Option UInt8} {e e' : Bool} {file first : Bool} {c : Char}
  {cls cls' : Class} {values values₁ values₁' : Values} {left right str str' : CStr} {term : List Char}

-- ---------------------------------------------------------------------------
-- Characters
-- ---------------------------------------------------------------------------

/-- Where the characters that `P` holds of end is unique. -/
theorem span_unique {P : UInt8 → Prop} {w w' : List UInt8} (heq : w ++ r = w' ++ r') (hw : ∀ b ∈ w, P b)
    (hw' : ∀ b ∈ w', P b) (hr : ∀ b ∈ r.head?, ¬ P b) (hr' : ∀ b ∈ r'.head?, ¬ P b) : w = w' ∧ r = r' := by
  induction w generalizing w' with
  | nil =>
    cases w' with
    | nil => exact ⟨rfl, heq⟩
    | cons b w' =>
      obtain rfl : r = b :: (w' ++ r') := heq
      exact absurd (hw' b List.mem_cons_self) (hr b rfl)
  | cons b w ih =>
    cases w' with
    | nil =>
      obtain rfl : b :: (w ++ r) = r' := heq
      exact absurd (hw b List.mem_cons_self) (hr' b rfl)
    | cons b' w' =>
      obtain ⟨rfl, htail⟩ := List.cons.inj heq
      obtain ⟨rfl, rfl⟩ := ih htail (fun x hx => hw x (List.mem_cons_of_mem _ hx)) fun x hx =>
        hw' x (List.mem_cons_of_mem _ hx)
      exact ⟨rfl, rfl⟩

/-- A comment ends at the first line break. -/
theorem Skips.of_hash (h : Skips ('#'.toUInt8 :: t) r) :
    ∃ l t', '\n'.toUInt8 ∉ l ∧ t = l ++ '\n'.toUInt8 :: t' ∧ Skips t' r := by
  cases h with
  | stop hvisible => exact absurd rfl (hvisible _ rfl).2
  | blank hb _ => cases hb
  | comment hl h => exact ⟨_, _, hl, rfl, h⟩

/-- White space and comments end at one place. -/
theorem Skips.unique (h : Skips t r) (h' : Skips t r') : r = r' := by
  induction h with
  | stop hvisible =>
    cases h' with
    | stop _ => rfl
    | blank hb _ => exact absurd hb (by rw [(hvisible _ rfl).1]; exact Bool.false_ne_true)
    | comment _ _ => exact absurd rfl (hvisible _ rfl).2
  | blank hb _ ih =>
    cases h' with
    | stop hvisible => exact absurd hb (by rw [(hvisible _ rfl).1]; exact Bool.false_ne_true)
    | blank _ h' => exact ih h'
    | comment _ _ => cases hb
  | comment hl _ ih =>
    obtain ⟨l, t', hl', heq, h'⟩ := h'.of_hash
    have hbreak : ∀ (u : List UInt8), ∀ b ∈ ('\n'.toUInt8 :: u).head?, ¬ b ≠ '\n'.toUInt8 := fun u b hb =>
      not_not_intro (Option.some.inj hb).symm
    obtain ⟨-, htail⟩ := span_unique heq (fun b hb => ne_of_mem_of_not_mem hb hl)
      (fun b hb => ne_of_mem_of_not_mem hb hl') (hbreak _) (hbreak _)
    obtain ⟨-, rfl⟩ := List.cons.inj htail
    exact ih h'

/-- A mark is there, or it is not. -/
theorem Expects.unique (h : Expects True c t r e) (h' : Expects True c t r' e') : r = r' ∧ e = e' := by
  cases h with
  | found h =>
    cases h' with
    | found h' => exact ⟨(List.cons.inj (h.unique h')).2, rfl⟩
    | other _ h' hne =>
      rw [← h.unique h'] at hne
      exact absurd rfl hne
  | other _ h hne =>
    cases h' with
    | found h' =>
      rw [h.unique h'] at hne
      exact absurd rfl hne
    | other _ h' _ => exact ⟨congrArg List.tail (h.unique h'), rfl⟩

/-- One byte comes next. -/
theorem Peeks.unique (h : Peeks True file t o r) (h' : Peeks True file t o' r') : o = o' ∧ r = r' := by
  cases h with
  | kept h hkept =>
    cases h' with
    | kept h' _ => exact ⟨congrArg List.head? (h.unique h'), h.unique h'⟩
    | lost _ h' hlost =>
      rw [h.unique h'] at hkept
      exact absurd (hkept _ rfl) hlost
  | lost _ h hlost =>
    cases h' with
    | kept h' hkept =>
      rw [← h.unique h'] at hkept
      exact absurd (hkept _ rfl) hlost
    | lost _ h' _ =>
      obtain ⟨rfl, rfl⟩ := List.cons.inj (h.unique h')
      exact ⟨rfl, rfl⟩

-- ---------------------------------------------------------------------------
-- Strings
-- ---------------------------------------------------------------------------

/-- Behind a word there is a byte that is not in it. -/
theorem WordEnds.stops (h : WordEnds term r t) : ∀ b ∈ r.head?, ¬ InWord term b := by
  cases h with
  | space hb =>
    rintro b hhead ⟨hspace, -⟩
    obtain rfl := Option.some.inj hhead
    exact Bool.false_ne_true (hspace.symm.trans hb)
  | mark hb =>
    rintro b hhead ⟨-, hmark⟩
    obtain rfl := Option.some.inj hhead
    exact hmark hb

theorem Marks.visible (hterm : Marks term) {b : UInt8} (hb : b ∈ term.map Char.toUInt8) :
    isspace b.toNat = false := by
  obtain ⟨c, hc, rfl⟩ := List.mem_map.mp hb
  obtain ⟨hascii, hspace⟩ := hterm c hc
  rwa [toNat_toUInt8 hascii]

/-- So a word has one end. -/
theorem WordEnds.unique (hterm : Marks term) (h : WordEnds term r t) (h' : WordEnds term r t') : t = t' := by
  cases h with
  | space hb =>
    cases h' with
    | space _ => rfl
    | mark hmark => exact absurd ((hterm.visible hmark).symm.trans hb) Bool.false_ne_true
  | mark hmark =>
    cases h' with
    | space hb => exact absurd ((hterm.visible hmark).symm.trans hb) Bool.false_ne_true
    | mark _ => rfl

/-- Behind what is in braces there is a byte that is not in it. -/
theorem BracesEnd.stops (h : BracesEnd True file r t) : ∀ b ∈ r.head?, ¬ InBraces file b := by
  cases h with
  | close =>
    rintro b hhead ⟨hne, -⟩
    exact hne (Option.some.inj hhead).symm
  | cut _ hfile =>
    rintro b hhead ⟨-, hne⟩
    exact hne hfile (Option.some.inj hhead).symm
  | missing _ => exact fun b hb => absurd hb (Option.not_mem_none b)

/-- So what is in braces has one end only. -/
theorem BracesEnd.unique (h : BracesEnd True file r t) (h' : BracesEnd True file r t') : t = t' := by
  cases h with
  | close =>
    cases h' with
    | close => rfl
  | cut _ _ =>
    cases h' with
    | cut _ _ => rfl
  | missing _ =>
    cases h' with
    | missing _ => rfl

/-- A value is read in one way. -/
theorem Takes.unique (hterm : Marks term) (h : Takes True file term t str r)
    (h' : Takes True file term t str' r') :
    str = str' ∧ r = r' := by
  cases h with
  | word h hopen hw hend _ =>
    cases h' with
    | word h' _ hw' hend' _ =>
      obtain ⟨rfl, rfl⟩ := span_unique (h.unique h') hw hw' hend.stops hend'.stops
      exact ⟨rfl, hend.unique hterm hend'⟩
    | braces h' _ _ _ =>
      rw [h.unique h'] at hopen
      exact absurd rfl hopen
  | braces h hw hend _ =>
    cases h' with
    | word h' hopen _ _ _ =>
      rw [← h.unique h'] at hopen
      exact absurd rfl hopen
    | braces h' hw' hend' _ =>
      obtain ⟨rfl, rfl⟩ := span_unique (List.cons.inj (h.unique h')).2 hw hw' hend.stops hend'.stops
      exact ⟨rfl, hend.unique hend'⟩

-- ---------------------------------------------------------------------------
-- Directives
-- ---------------------------------------------------------------------------

theorem Assigns.unique {v v' : Values} (h : Assigns True cls left right values v e)
    (h' : Assigns True cls left right values v' e') : v = v' ∧ e = e' := by
  cases h with
  | known hi =>
    cases h' with
    | known hi' =>
      obtain rfl := Option.some.inj (hi.symm.trans hi')
      exact ⟨rfl, rfl⟩
    | unknown _ hnone => exact absurd hi (hnone _)
  | unknown _ hnone =>
    cases h' with
    | known hi => exact absurd hi (hnone _)
    | unknown _ _ => exact ⟨rfl, rfl⟩

/-- One comma is read in front of the next value. -/
theorem Comma.unique (h : Comma True first t r e) (h' : Comma True first t r' e') : r = r' ∧ e = e' := by
  cases first with
  | true => exact ⟨h.1.trans h'.1.symm, h.2.trans h'.2.symm⟩
  | false => exact Expects.unique h h'

/-- So a field is read in one way. -/
theorem Field.unique {v v' : Values} (h : Field True file cls first values t v r e)
    (h' : Field True file cls first values t v' r' e') : v = v' ∧ r = r' ∧ e = e' := by
  cases h with
  | mk hcomma hleft hequal hright hset =>
    cases h' with
    | mk hcomma' hleft' hequal' hright' hset' =>
      obtain ⟨rfl, rfl⟩ := hcomma.unique hcomma'
      obtain ⟨rfl, rfl⟩ := hleft.unique marks_equal hleft'
      obtain ⟨rfl, rfl⟩ := hequal.unique hequal'
      obtain ⟨rfl, rfl⟩ := hright.unique marks_comma hright'
      obtain ⟨rfl, rfl⟩ := hset.unique hset'
      exact ⟨rfl, rfl, rfl⟩

/-- The bracket is what is next. -/
theorem Skips.peeks_close (h : Skips t (']'.toUInt8 :: r)) :
    Peeks True file t (some ']'.toUInt8) (']'.toUInt8 :: r) := by
  refine .kept h ?_
  intro b hb
  obtain rfl := Option.some.inj hb
  exact .inr (by decide)

/-- All fields are read in one way, by induction on them. -/
theorem Fills.unique {v v' : Values} (h : Fills True file cls first values t v r e)
    (h' : Fills True file cls first values t v' r' e') : v = v' ∧ r = r' ∧ e = e' := by
  induction h generalizing e' with
  | close h =>
    cases h' with
    | close h' => exact ⟨rfl, (List.cons.inj (h.unique h')).2, rfl⟩
    | field hpeek hne _ _ => exact absurd (hpeek.unique h.peeks_close).1 hne
  | field hpeek hne hfield _ ih =>
    cases h' with
    | close h' => exact absurd (hpeek.unique h'.peeks_close).1 hne
    | field hpeek' _ hfield' hrest' =>
      obtain ⟨rfl, rfl⟩ := hpeek.unique hpeek'
      obtain ⟨rfl, rfl, rfl⟩ := hfield.unique hfield'
      obtain ⟨rfl, rfl, rfl⟩ := ih hrest'
      exact ⟨rfl, rfl, rfl⟩

/-- Each class has a letter of its own. -/
theorem mark_inj (h : cls.mark.toUInt8 = cls'.mark.toUInt8) : cls = cls' := by
  revert h
  cases cls <;> cases cls' <;> decide

/-- A directive is read in one way. -/
theorem Declares.unique {v v' : Values} (h : Declares True file t cls v r e)
    (h' : Declares True file t cls' v' r' e') :
    cls = cls' ∧ v = v' ∧ r = r' ∧ e = e' := by
  cases h with
  | mk hpeek _ htype hcolon hopen hfields =>
    cases h' with
    | mk hpeek' _ htype' hcolon' hopen' hfields' =>
      obtain ⟨rfl, rfl⟩ := hpeek.unique hpeek'
      obtain ⟨hmark, rfl⟩ := List.cons.inj (htype.unique htype')
      obtain rfl := mark_inj hmark
      obtain ⟨rfl, rfl⟩ := hcolon.unique hcolon'
      obtain ⟨rfl, rfl⟩ := hopen.unique hopen'
      obtain ⟨rfl, rfl, rfl⟩ := hfields.unique hfields'
      exact ⟨rfl, rfl, rfl, rfl⟩

/-- Where there is a directive the text is not at its end. -/
theorem Declares.not_atEnd (h : Declares True file t cls values r e) (hpeek : Peeks True file t o r') :
    ¬ AtEnd file o := by
  cases h with
  | mk hpeek' ho _ _ _ _ => rwa [(hpeek.unique hpeek').1]

/-- **The grammar is unambiguous.** -/
theorem Describes.unique {items items' : Items} (h : Describes True file t items e)
    (h' : Describes True file t items' e') : items = items' ∧ e = e' := by
  induction h generalizing items' e' with
  | stop hpeek ho =>
    cases h' with
    | stop _ _ => exact ⟨rfl, rfl⟩
    | unverified _ h' _ _ => exact absurd ho (h'.not_atEnd hpeek)
    | plain h' _ _ _ _ => exact absurd ho (h'.not_atEnd hpeek)
    | directory h' _ _ _ _ _ => exact absurd ho (h'.not_atEnd hpeek)
  | unverified _ h hnot _ ih =>
    cases h' with
    | stop hpeek ho => exact absurd ho (h.not_atEnd hpeek)
    | unverified _ h' _ hrest' =>
      obtain ⟨rfl, rfl, rfl, rfl⟩ := h.unique h'
      exact ⟨(ih hrest').1, rfl⟩
    | plain h' hverified _ _ _ =>
      obtain ⟨rfl, rfl, -, -⟩ := h.unique h'
      exact absurd hverified hnot
    | directory h' hverified _ _ _ _ =>
      obtain ⟨rfl, rfl, -, -⟩ := h.unique h'
      exact absurd hverified hnot
  | plain h hverified _ hcontents _ ih =>
    cases h' with
    | stop hpeek ho => exact absurd ho (h.not_atEnd hpeek)
    | unverified _ h' hnot _ =>
      obtain ⟨rfl, rfl, -, -⟩ := h.unique h'
      exact absurd hverified hnot
    | plain h' _ _ _ hrest' =>
      obtain ⟨rfl, rfl, rfl, rfl⟩ := h.unique h'
      obtain ⟨rfl, rfl⟩ := ih hrest'
      exact ⟨rfl, rfl⟩
    | directory h' _ _ hcontents' _ _ =>
      obtain ⟨rfl, rfl, -, -⟩ := h.unique h'
      exact absurd (hcontents.symm.trans hcontents') (Option.some_ne_none _).symm
  | directory h hverified _ hcontents _ _ ihinner ihrest =>
    cases h' with
    | stop hpeek ho => exact absurd ho (h.not_atEnd hpeek)
    | unverified _ h' hnot _ =>
      obtain ⟨rfl, rfl, -, -⟩ := h.unique h'
      exact absurd hverified hnot
    | plain h' _ _ hcontents' _ =>
      obtain ⟨rfl, rfl, -, -⟩ := h.unique h'
      exact absurd (hcontents'.symm.trans hcontents) (Option.some_ne_none _).symm
    | directory h' _ _ hcontents' hinner' hrest' =>
      obtain ⟨rfl, rfl, rfl, rfl⟩ := h.unique h'
      obtain rfl := Option.some.inj (hcontents.symm.trans hcontents')
      obtain ⟨rfl, rfl⟩ := ihinner hinner'
      obtain ⟨rfl, rfl⟩ := ihrest hrest'
      exact ⟨rfl, rfl⟩

-- ---------------------------------------------------------------------------
-- Texts
-- ---------------------------------------------------------------------------

section Directories

variable {lax : Prop} {name : CStr}

/-- A word that needs no braces. -/
theorem takes_plain {term : List Char} {str : CStr} (hstr : Plain str)
    (hterm : ∀ c ∈ term, c ∈ marks) (hc : c ∈ term)
    (hmark : Visible c.toUInt8) (hopen : c.toUInt8 ≠ '{'.toUInt8) :
    Takes lax true term (str.chars ++ c.toUInt8 :: t) str (c.toUInt8 :: t) := by
  have hplain : ∀ b ∈ str.chars, isspace b.toNat = false ∧ b ∉ marks.map Char.toUInt8 := by
    intro b hb
    have hb := hstr b hb
    rw [plainByte, Bool.and_eq_true, Bool.not_eq_true', Bool.not_eq_true', List.contains_eq_mem,
      decide_eq_false_iff_not] at hb
    exact hb
  have hhead : ∀ b ∈ (str.chars ++ c.toUInt8 :: t).head?, Visible b ∧ b ≠ '{'.toUInt8 := by
    intro b hb
    cases hchars : str.chars with
    | nil =>
      rw [hchars] at hb
      obtain rfl := Option.some.inj hb
      exact ⟨hmark, hopen⟩
    | cons x w =>
      rw [hchars] at hb
      obtain rfl := Option.some.inj hb
      obtain ⟨hspace, hnot⟩ := hplain x (hchars ▸ List.mem_cons_self)
      exact ⟨⟨hspace, ne_of_mem_of_not_mem (by decide) hnot |>.symm⟩,
        ne_of_mem_of_not_mem (by decide) hnot |>.symm⟩
  have hword : ∀ b ∈ str.chars, InWord term b := by
    intro b hb
    obtain ⟨hspace, hnot⟩ := hplain b hb
    refine ⟨hspace, fun hmem => hnot ?_⟩
    obtain ⟨d, hd, rfl⟩ := List.mem_map.mp hmem
    exact List.mem_map_of_mem (hterm d hd)
  have htakes : Takes lax true term (str.chars ++ c.toUInt8 :: t) (.ofChars str.chars) (c.toUInt8 :: t) :=
    .word (.stop fun b hb => (hhead b hb).1) (fun hb => (hhead _ hb).2 rfl) hword
      (.mark (List.mem_map_of_mem hc)) (.inr str.clean)
  rwa [ofChars_eq str.clean] at htakes

/-- A directory with nothing in it, as it is written. -/
def directoryText (name : CStr) : List UInt8 :=
  'd'.toUInt8 :: ':'.toUInt8 :: '['.toUInt8 ::
    (nameField.chars ++ '='.toUInt8 :: (name.chars ++ [']'.toUInt8]))

def directoryValues (name : CStr) : Values := Function.update (fun _ => none) 0 (some name)

/-- The fields that `d` needs. -/
theorem directory_verified (name : CStr) : Verified .d (directoryValues name) := by
  intro i hi
  obtain rfl := List.mem_singleton.mp hi
  exact Option.some_ne_none _

def directoryItems (name : CStr) : Items :=
  .entry .d (directoryValues name) (directory_verified name) .done .done

/-- The text of a directory without entries. -/
theorem directory_describes (lax : Prop) (hname : Plain name) :
    Describes lax true (directoryText name) (directoryItems name) false := by
  have hstop : ∀ {c : Char} {t : List UInt8}, Visible c.toUInt8 → Skips (c.toUInt8 :: t) (c.toUInt8 :: t) :=
    fun hc => .stop fun b hb => Option.some.inj hb ▸ hc
  have hequal : ∀ c ∈ ['=', ']'], c ∈ marks := by
    rw [List.forall_mem_cons, List.forall_mem_singleton]
    decide
  have hcomma : ∀ c ∈ [',', ']'], c ∈ marks := by
    rw [List.forall_mem_cons, List.forall_mem_singleton]
    decide
  have hleft : Takes lax true ['=', ']'] (nameField.chars ++ '='.toUInt8 :: (name.chars ++ [']'.toUInt8]))
      nameField ('='.toUInt8 :: (name.chars ++ [']'.toUInt8])) :=
    takes_plain (by decide) hequal (by decide) ⟨by decide, by decide⟩ (by decide)
  have hright : Takes lax true [',', ']'] (name.chars ++ [']'.toUInt8]) name [']'.toUInt8] :=
    takes_plain hname hcomma (by decide) ⟨by decide, by decide⟩ (by decide)
  have hset : Assigns lax .d nameField name (fun _ => none) (directoryValues name) false :=
    .known (show Known .d nameField 0 by decide)
  have hfield : Field lax true .d true (fun _ => none) _ (directoryValues name) [']'.toUInt8] _ :=
    .mk ⟨rfl, rfl⟩ hleft (.found (hstop ⟨by decide, by decide⟩)) hright hset
  have hpeek : Peeks lax true (nameField.chars ++ '='.toUInt8 :: (name.chars ++ [']'.toUInt8]))
      (some 'n'.toUInt8) (nameField.chars ++ '='.toUInt8 :: (name.chars ++ [']'.toUInt8])) :=
    .kept (hstop ⟨by decide, by decide⟩) fun _ _ => .inl rfl
  have hfields : Fills lax true .d true (fun _ => none) _ (directoryValues name) [] _ :=
    .field hpeek (by decide) hfield (.close (hstop ⟨by decide, by decide⟩))
  have hdeclares : Declares lax true (directoryText name) .d (directoryValues name) [] false :=
    .mk (.kept (hstop ⟨by decide, by decide⟩) fun _ _ => .inl rfl) (by simp [AtEnd])
      (hstop ⟨by decide, by decide⟩) (.found (hstop ⟨by decide, by decide⟩))
      (.found (hstop ⟨by decide, by decide⟩)) hfields
  have hend : Describes lax true [] .done false :=
    .stop (.kept (.stop fun b hb => absurd hb (Option.not_mem_none b)) fun _ _ => .inl rfl) (.inl rfl)
  exact .plain hdeclares (directory_verified name) (.inr rfl) rfl hend

end Directories

/-- A comment without an end is no description. -/
theorem hash_not_described {items : Items} {e : Bool} : ¬ Describes True true ['#'.toUInt8] items e := by
  have hskips : ∀ r, ¬ Skips ['#'.toUInt8] r := by
    intro r h
    obtain ⟨l, t, -, heq, -⟩ := h.of_hash
    exact List.append_ne_nil_of_right_ne_nil l (List.cons_ne_nil _ t) heq.symm
  have hpeeks : ∀ o r, ¬ Peeks True true ['#'.toUInt8] o r := by
    intro o r h
    cases h with
    | kept h _ => exact hskips _ h
    | lost _ h _ => exact hskips _ h
  have hdeclares : ∀ cls values r e, ¬ Declares True true ['#'.toUInt8] cls values r e := by
    intro cls values r e h
    cases h with
    | mk hpeek _ _ _ _ _ => exact hpeeks _ _ hpeek
  intro h
  cases h with
  | stop h _ => exact hpeeks _ _ h
  | unverified _ h _ _ => exact hdeclares _ _ _ _ h
  | plain h _ _ _ _ => exact hdeclares _ _ _ _ h
  | directory h _ _ _ _ _ => exact hdeclares _ _ _ _ h


end Frosk.Builder.Text

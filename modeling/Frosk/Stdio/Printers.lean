import Mathlib.Tactic
import Mathlib.Data.Nat.Digits.Lemmas
import Frosk.Stdio.Numbers

/-!
# Printers of numbers

Besides `utoa` there are `dputu` of `kernel/src/stubout.c`, which has the same loops and puts each
character out, and `number_to_string` of `prgm/start/src/fcurses.c`, which counts the digits and
stores them from the last one on.

The three of them print one numeral (`printers_agree`). The divisor of the first two is at most the
number, so that it does not wrap, and `number_to_string` stores nothing if the text does not fit.
-/

namespace Frosk.Stdio

open Lib

-- ---------------------------------------------------------------------------
-- dputu
-- ---------------------------------------------------------------------------

/-- The divisor of `dputu`, which is a word. -/
def wordDivisor (radix : Nat) : Nat → Nat → Nat → Nat
  | n + 1, tmp, div =>
    if tmp > 0 then wordDivisor radix n (tmp / radix) (div * radix % wordSize) else div
  | 0, _, div => div

/-- `dputu`: the characters that `dputc` puts out. -/
def dputu (val radix : Nat) : List UInt8 :=
  if val = 0 then ['0'.toUInt8]
  else digits radix 'A'.toNat 64 val (wordDivisor radix 64 (val / radix) 1)

-- ---------------------------------------------------------------------------
-- number_to_string
-- ---------------------------------------------------------------------------

/-- The character of a digit. -/
def digitChar (digit : Nat) : UInt8 :=
  UInt8.ofNat (if digit ≥ 10 then 'A'.toNat + digit - 10 else '0'.toNat + digit)

/-- The loop that counts the digits. -/
def lenBody (radix : Nat) : Nat × Nat → (Nat × Nat) ⊕ Nat
  | (len, v) => if v > 0 then .inl (len + 1, v / radix) else .inr len

/-- The loop that stores the digits, with the places that it stores to. -/
def storeBody (radix : Nat) : Nat × Int × Memory × List Nat →
    (Nat × Int × Memory × List Nat) ⊕ Memory × List Nat
  | (value, i, str, written) =>
    if value ≠ 0 ∧ i ≥ 0 then
      .inl (value / radix, i - 1, Function.update str i.toNat (digitChar (value % radix)),
        written ++ [i.toNat])
    else .inr (str, written)

/-- What a call returns and leaves, with the places of the characters that it stored. -/
structure Stored where
  ret     : Int
  str     : Memory
  written : List Nat

/-- `number_to_string`; a word has at most 64 digits. -/
def numberToString (value : Nat) (str : Memory) (max : Int) (radix : Nat) : Option Stored :=
  if value = 0 then
    if max < 2 then some ⟨2, str, []⟩
    else some ⟨0, Function.update (Function.update str 0 '0'.toUInt8) 1 0, [0, 1]⟩
  else do
    let len ← iterate (lenBody radix) 65 (0, value)
    if (len : Int) ≥ max then some ⟨len, str, []⟩
    else
      let (str, written) ← iterate (storeBody radix) 65 (value, (len : Int) - 1, str, [])
      some ⟨0, Function.update str len 0, written ++ [len]⟩

-- ---------------------------------------------------------------------------
-- What is expected
-- ---------------------------------------------------------------------------

/-- The digits of all radixes. -/
def letters : List Char := "0123456789ABCDEFGHIJKLMNOPQRSTUVWXYZ".toList

/-- The string is stored whole, if there is room for it. -/
def StoresText (val radix : Nat) (t : List UInt8) : Prop :=
  ∀ (str : Memory) (max : Int), t.length < max → ∃ r, numberToString val str max radix = some r ∧
    r.ret = 0 ∧ r.str.slice 0 (t.length + 1) = t ++ [0]

/-- Nothing is stored outside of the first `max` characters. -/
def StaysBelow (val radix : Nat) : Prop :=
  ∀ (str : Memory) (max : Int), ∃ r, numberToString val str max radix = some r ∧
    (∀ i ∈ r.written, (i : Int) < max) ∧ ∀ i ∉ r.written, r.str i = str i

/-- The divisor after any number of rounds is the product, and a word. -/
def NeverOverflows (val radix : Nat) : Prop :=
  ∀ n, divisor radix n (val / radix) 1 < wordSize ∧
    wordDivisor radix n (val / radix) 1 = divisor radix n (val / radix) 1

variable {radix val tmp div n v len : Nat}

-- ---------------------------------------------------------------------------
-- The divisor
-- ---------------------------------------------------------------------------

/-- Each round multiplies by the radix only if the product is at most the number. -/
theorem divisor_le (hdiv : div ≤ val) (htmp : div * radix * tmp ≤ val) (n : Nat) :
    divisor radix n tmp div ≤ val := by
  induction n generalizing tmp div with
  | zero => exact hdiv
  | succ n ih =>
    rw [divisor]
    split_ifs with hpos
    · refine ih ?_ ?_
      · exact (Nat.le_mul_of_pos_right _ hpos).trans htmp
      · have hback : radix * (tmp / radix) ≤ tmp := Nat.mul_div_le tmp radix
        calc div * radix * radix * (tmp / radix) = div * radix * (radix * (tmp / radix)) := by ring
          _ ≤ div * radix * tmp := Nat.mul_le_mul_left _ hback
          _ ≤ val := htmp
    · exact hdiv

/-- The divisor in words does not wrap. -/
theorem wordDivisor_eq (hval : val < wordSize) (hdiv : div ≤ val) (htmp : div * radix * tmp ≤ val) (n : Nat) :
    wordDivisor radix n tmp div = divisor radix n tmp div := by
  induction n generalizing tmp div with
  | zero => rfl
  | succ n ih =>
    rw [wordDivisor, divisor]
    split_ifs with hpos
    · have hmul : div * radix ≤ val := (Nat.le_mul_of_pos_right _ hpos).trans htmp
      have hback : radix * (tmp / radix) ≤ tmp := Nat.mul_div_le tmp radix
      rw [Nat.mod_eq_of_lt (hmul.trans_lt hval)]
      refine ih hmul ?_
      calc div * radix * radix * (tmp / radix) = div * radix * (radix * (tmp / radix)) := by ring
        _ ≤ div * radix * tmp := Nat.mul_le_mul_left _ hback
        _ ≤ val := htmp
    · rfl

/-- So no step of it overflows. -/
theorem never_overflows (hval : val < wordSize) (radix : Nat) : NeverOverflows val radix := by
  intro n
  rcases Nat.eq_zero_or_pos val with rfl | hpos
  · rw [Nat.zero_div, divisor_zero]
    refine ⟨by decide, ?_⟩
    cases n <;> rfl
  · have htmp : 1 * radix * (val / radix) ≤ val := by
      rw [Nat.one_mul]
      exact Nat.mul_div_le val radix
    exact ⟨(divisor_le hpos htmp n).trans_lt hval, wordDivisor_eq hval hpos htmp n⟩

/-- Both printers print the same digits. -/
theorem dputu_eq_utoa (hval : val < wordSize) (radix : Nat) : dputu val radix = utoa val radix 'A'.toNat := by
  rw [dputu, utoa, (never_overflows hval radix 64).2]

-- ---------------------------------------------------------------------------
-- The loops of number_to_string
-- ---------------------------------------------------------------------------

/-- The digits are counted. -/
theorem lenLoop (hradix : 1 < radix) (hn : (Nat.digits radix v).length < n) :
    iterate (lenBody radix) n (len, v) = some (len + (Nat.digits radix v).length) := by
  induction n generalizing len v with
  | zero => omega
  | succ n ih =>
    rcases Nat.eq_zero_or_pos v with rfl | hpos
    · refine (iterate_succ_inr (by rw [lenBody, if_neg (Nat.lt_irrefl 0)]) n).trans ?_
      rw [Nat.digits_zero, List.length_nil, Nat.add_zero]
    · rw [Nat.digits_def' hradix hpos, List.length_cons] at hn ⊢
      rw [iterate_succ_inl (by rw [lenBody, if_pos hpos]), ih (by omega), Nat.add_assoc,
        Nat.add_comm 1]

/-- Storing one byte. -/
theorem update_eq_blit (m : Memory) (n : Nat) (c : UInt8) : Function.update m n c = m.blit n [c] := by
  funext x
  by_cases hx : x = n
  · subst hx
    have hlen : 0 < [c].length := Nat.one_pos
    have hinside := Memory.blit_inside (m := m) (a := x) hlen
    rw [Nat.add_zero] at hinside
    rw [Function.update_self, hinside]
    rfl
  · rw [Function.update_of_ne hx, Memory.blit_outside]
    rw [List.length_singleton]
    omega

/-- The text before a character that was stored. -/
theorem blit_before (m : Memory) (l : List UInt8) (c : UInt8) :
    Memory.blit (Function.update m l.length c) 0 l = m.blit 0 (l ++ [c]) := by
  rw [← Memory.blit_append, Nat.zero_add, ← update_eq_blit]
  funext x
  rcases Nat.lt_or_ge x l.length with hx | hx
  · have hinside : ∀ m : Memory, m.blit 0 l x = l[x] := by
      intro m
      have h := Memory.blit_inside (m := m) (a := 0) hx
      rwa [Nat.zero_add] at h
    rw [Function.update_of_ne hx.ne, hinside, hinside]
  · have houtside : ∀ m : Memory, m.blit 0 l x = m x := by
      intro m
      exact Memory.blit_outside (.inr (by omega))
    rw [houtside]
    by_cases hxl : x = l.length
    · rw [hxl, Function.update_self, Function.update_self]
    · rw [Function.update_of_ne hxl, Function.update_of_ne hxl, houtside]

/-- The text of a number, from its digits. -/
def textOf (radix v : Nat) : List UInt8 := (Nat.digits radix v).reverse.map digitChar

/-- The text has one character for each digit. -/
theorem textOf_length : (textOf radix v).length = (Nat.digits radix v).length := by
  rw [textOf, List.length_map, List.length_reverse]

/-- The last digit comes behind the text of the others. -/
theorem textOf_succ (hradix : 1 < radix) (hpos : 0 < v) :
    textOf radix v = textOf radix (v / radix) ++ [digitChar (v % radix)] := by
  rw [textOf, Nat.digits_def' hradix hpos, List.reverse_cons, List.map_append]
  rfl

/-- The digits are stored, from the last one on. -/
theorem storeLoop (str : Memory) (written : List Nat) (hradix : 1 < radix)
    (hn : (textOf radix v).length < n) :
    iterate (storeBody radix) n (v, ((textOf radix v).length : Int) - 1, str, written) =
      some (str.blit 0 (textOf radix v), written ++ (List.range (textOf radix v).length).reverse) := by
  induction n generalizing v str written with
  | zero => omega
  | succ n ih =>
    rcases Nat.eq_zero_or_pos v with rfl | hpos
    · have hnil : textOf radix 0 = [] := by rw [textOf, Nat.digits_zero]; rfl
      refine (iterate_succ_inr (by rw [storeBody, if_neg fun h => h.1 rfl]) n).trans ?_
      rw [hnil, Memory.blit_nil, List.length_nil, List.range_zero, List.reverse_nil, List.append_nil]
    · have hsucc := textOf_succ hradix hpos
      have hlen : (textOf radix v).length = (textOf radix (v / radix)).length + 1 := by
        rw [hsucc, List.length_append, List.length_singleton]
      have hplace : ((textOf radix v).length : Int) - 1 = ((textOf radix (v / radix)).length : Nat) := by
        rw [hlen]
        omega
      have hround : storeBody radix (v, ((textOf radix v).length : Int) - 1, str, written) =
          .inl (v / radix, ((textOf radix (v / radix)).length : Int) - 1,
            Function.update str (textOf radix (v / radix)).length (digitChar (v % radix)),
            written ++ [(textOf radix (v / radix)).length]) := by
        rw [hplace, storeBody, if_pos ⟨hpos.ne', Int.natCast_nonneg _⟩, Int.toNat_natCast]
      rw [iterate_succ_inl hround, ih _ _ (by omega), blit_before, ← hsucc, hlen, List.range_succ,
        List.reverse_append, List.append_assoc, List.reverse_singleton]

-- ---------------------------------------------------------------------------
-- number_to_string
-- ---------------------------------------------------------------------------

theorem textOf_length_le (hradix : 1 < radix) (hval : val < 2 ^ 64) : (textOf radix val).length ≤ 64 := by
  rw [textOf_length]
  have hpow : val < radix ^ 64 := hval.trans_le (Nat.pow_le_pow_left hradix 64)
  exact (Nat.digits_length_le_iff hradix val).mpr hpow

/-- The call for a number other than 0. -/
theorem numberToString_eq (hradix : 1 < radix) (hval : val < 2 ^ 64) (hne : val ≠ 0) (str : Memory)
    (max : Int) :
    numberToString val str max radix = some
      (if ((textOf radix val).length : Int) ≥ max then ⟨(textOf radix val).length, str, []⟩
      else ⟨0, str.blit 0 (textOf radix val ++ [0]),
        (List.range (textOf radix val).length).reverse ++ [(textOf radix val).length]⟩) := by
  have hdigits := textOf_length_le hradix hval
  have hlen : iterate (lenBody radix) 65 (0, val) = some (textOf radix val).length := by
    rw [textOf_length] at hdigits ⊢
    rw [lenLoop hradix (by omega), Nat.zero_add]
  have hstore := storeLoop str [] hradix (show (textOf radix val).length < 65 by omega)
  have hterminated := Memory.blit_append str 0 (textOf radix val) [0]
  rw [Nat.zero_add, ← update_eq_blit] at hterminated
  rw [numberToString, if_neg hne, hlen, Option.bind_eq_bind, Option.bind_some]
  split_ifs with hmax
  · rfl
  · rw [hstore, Option.bind_eq_bind, Option.bind_some]
    exact congrArg (fun m => some (Stored.mk 0 m _)) hterminated

-- ---------------------------------------------------------------------------
-- The numeral
-- ---------------------------------------------------------------------------

/-- Both printers show a digit the same way. -/
theorem digitChar_eq (d : Nat) : digitChar d = digit 'A'.toNat d := by
  have hletter : 10 ≤ 'A'.toNat := by decide
  rw [digitChar, digit]
  rcases Nat.lt_or_ge d 10 with hd | hd
  · rw [if_neg (Nat.not_le.mpr hd), if_pos hd, Nat.add_comm]
  · rw [if_pos hd, if_neg (Nat.not_lt.mpr hd), Nat.add_comm d, Nat.sub_add_comm hletter]

theorem glyph_letters {d : Nat} (hd : d < radix) (hhigh : radix ≤ 36) :
    glyph (letters.take radix) d = digitChar d := by
  have hall : ∀ d < 36, (letters.getD d ' ').toUInt8 = digitChar d := by decide
  rw [glyph, List.getD_eq_getElem?_getD, List.getElem?_take_of_lt hd, ← List.getD_eq_getElem?_getD]
  exact hall d (hd.trans_le hhigh)

theorem letters_length (hhigh : radix ≤ 36) : (letters.take radix).length = radix := by
  rw [List.length_take]
  exact Nat.min_eq_left hhigh

/-- `utoa` shows its number in every radix. -/
theorem shows_utoa (hval : val < 2 ^ 64) (hradix : 1 < radix) (hhigh : radix ≤ 36) :
    ShowsNat (letters.take radix) val (utoa val radix 'A'.toNat) := by
  obtain ⟨ds, hds, htext⟩ := utoa_numeral 'A'.toNat hradix hval
  refine ⟨ds, (letters_length hhigh).symm ▸ hds, htext.trans (List.map_congr_left fun d hd => ?_)⟩
  rw [glyph_letters (hds.below d hd) hhigh, digitChar_eq]

/-- Its digits are those of the number, from the last to the first. -/
theorem utoa_eq_textOf (hval : val < 2 ^ 64) (hradix : 1 < radix) (hne : val ≠ 0) :
    utoa val radix 'A'.toNat = textOf radix val := by
  obtain ⟨ds, hds, htext⟩ := utoa_numeral 'A'.toNat hradix hval
  rw [htext, textOf, ← hds.reverse_eq hradix hne, List.reverse_reverse]
  exact List.map_congr_left fun d _ => (digitChar_eq d).symm

/-- `number_to_string` stores this text. -/
theorem stores_text (hval : val < 2 ^ 64) (hradix : 1 < radix) :
    StoresText val radix (utoa val radix 'A'.toNat) := by
  intro str max hmax
  by_cases hne : val = 0
  · subst hne
    have hroom : ¬ max < 2 := not_lt.mpr (Int.add_one_le_of_lt hmax)
    rw [numberToString, if_pos rfl, if_neg hroom]
    exact ⟨_, rfl, rfl, rfl⟩
  · rw [utoa_eq_textOf hval hradix hne] at hmax ⊢
    rw [numberToString_eq hradix hval hne, if_neg (not_le.mpr hmax)]
    refine ⟨_, rfl, rfl, ?_⟩
    have hlen : (textOf radix val).length + 1 = (textOf radix val ++ [0]).length := by
      rw [List.length_append, List.length_singleton]
    rw [hlen]
    exact Memory.slice_blit_self (m := str) (a := 0) (l := textOf radix val ++ [0])

/-- It stays below the end of its buffer. -/
theorem stays_below (hval : val < 2 ^ 64) (hradix : 1 < radix) : StaysBelow val radix := by
  intro str max
  by_cases hne : val = 0
  · subst hne
    rw [numberToString, if_pos rfl]
    split_ifs with hroom
    · exact ⟨_, rfl, fun i hi => absurd hi List.not_mem_nil, fun i _ => rfl⟩
    · refine ⟨_, rfl, ?_, ?_⟩
      · intro i hi
        rw [List.mem_pair] at hi
        omega
      · intro i hi
        rw [List.mem_pair, not_or] at hi
        exact (Function.update_of_ne hi.2 ..).trans (Function.update_of_ne hi.1 ..)
  · rw [numberToString_eq hradix hval hne]
    split_ifs with hroom
    · exact ⟨_, rfl, fun i hi => absurd hi List.not_mem_nil, fun i _ => rfl⟩
    · have hwritten : ∀ i, i ∈ (List.range (textOf radix val).length).reverse ++
          [(textOf radix val).length] ↔ i ≤ (textOf radix val).length := by
        intro i
        rw [List.mem_append, List.mem_reverse, List.mem_range, List.mem_singleton, Nat.le_iff_lt_or_eq]
      refine ⟨_, rfl, ?_, ?_⟩
      · intro i hi
        have hle := (hwritten i).mp hi
        omega
      · intro i hi
        have hbehind := mt (hwritten i).mpr hi
        change Memory.blit str 0 (textOf radix val ++ [0]) i = str i
        refine Memory.blit_outside (.inr ?_)
        rw [List.length_append, List.length_singleton]
        omega

/-- The three printers print one numeral, which is the number's. -/
theorem printers_agree (hval : val < 2 ^ 64) (hlow : 2 ≤ radix) (hhigh : radix ≤ 36) :
    ∃ t, ShowsNat (letters.take radix) val t ∧ utoa val radix 'A'.toNat = t ∧ dputu val radix = t ∧
      StoresText val radix t ∧ StaysBelow val radix ∧ NeverOverflows val radix :=
  ⟨utoa val radix 'A'.toNat, shows_utoa hval hlow hhigh, rfl, dputu_eq_utoa hval radix,
    stores_text hval hlow, stays_below hval hlow, never_overflows hval radix⟩

/-- They print 255 in radix 16. -/
theorem printers_hexadecimal :
    ∃ t, ShowsNat (letters.take 16) 255 t ∧ utoa 255 16 'A'.toNat = t ∧ dputu 255 16 = t ∧
      StoresText 255 16 t ∧ StaysBelow 255 16 ∧ NeverOverflows 255 16 :=
  printers_agree (by decide) (by decide) (by decide)

end Frosk.Stdio

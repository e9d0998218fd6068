import Mathlib.Data.List.TakeWhile
import Mathlib.Tactic
import Frosk.Common

/-!
# Strings

`strcmp` of `lib/cstd/src/string.c` on strings of signed characters. A string
is the list of its bytes before the terminator, so none of them is zero.

`strcmp` compares the strings, each with its terminator, in the lexicographic
order of the signed values of their bytes (`strcmp_lt`, `strcmp_gt`), and tells
any two different strings apart.
-/

namespace Frosk

/-- A string without its terminator. -/
structure CStr where
  chars : List UInt8
  clean : 0 ∉ chars
deriving DecidableEq

theorem CStr.clean_nil : (0 : UInt8) ∉ ([] : List UInt8) := List.not_mem_nil

/-- The string at the start of a buffer: what is before the first terminator. -/
def CStr.ofChars (l : List UInt8) : CStr :=
  ⟨l.takeWhile (· ≠ 0), fun h => by simpa using List.mem_takeWhile_imp h⟩

/-- The first `n` characters. -/
def CStr.take (n : Nat) (s : CStr) : CStr :=
  ⟨s.chars.take n, fun h => s.clean (List.mem_of_mem_take h)⟩

/-- The value of a `char`, which is signed. -/
def schar (b : UInt8) : Int := if b.toNat < 128 then b.toNat else (b.toNat : Int) - 256

/-- `strcmp`; the cases without a byte are at a terminator. -/
def strcmpChars : List UInt8 → List UInt8 → Int
  | a :: as, b :: bs =>
    if a ≠ b then (if schar a > schar b then 1 else 0) * 2 - 1 else strcmpChars as bs
  | a :: _, [] => if schar a < 0 then -1 else if schar a > 0 then 1 else 0
  | [], b :: _ => if 0 < schar b then -1 else if 0 > schar b then 1 else 0
  | [], [] => 0

def strcmp (a b : CStr) : Int := strcmpChars a.chars b.chars

/-- Signed characters are different when the bytes are. -/
theorem schar_inj {a b : UInt8} (h : schar a = schar b) : a = b := by
  have ha := a.toNat_lt
  have hb := b.toNat_lt
  refine UInt8.toNat_inj.mp ?_
  unfold schar at h
  split at h <;> split at h <;> omega

/-- A signed character is zero for the terminator only. -/
theorem schar_ne_zero {a : UInt8} (h : a ≠ 0) : schar a ≠ 0 :=
  fun hz => h (schar_inj hz)

/-- The order of `strcmp`: lexicographic, the terminator included. -/
def strKey (l : List UInt8) : List Int := l.map schar ++ [0]

/-- `strcmp` compares by the keys. -/
theorem strcmpChars_sign {a b : List UInt8} (ha : 0 ∉ a) (hb : 0 ∉ b) :
    (strcmpChars a b < 0 ↔ strKey a < strKey b) ∧
    (0 < strcmpChars a b ↔ strKey b < strKey a) := by
  induction a generalizing b with
  | nil =>
    cases b with
    | nil => simp [strcmpChars, strKey]
    | cons y b =>
      have hy : schar y ≠ 0 := schar_ne_zero fun h => hb (by simp [h])
      simp only [strcmpChars, strKey, List.map_cons, List.map_nil, List.nil_append,
        List.cons_append, List.cons_lt_cons_iff]
      split_ifs <;> constructor <;> constructor <;> intro h <;> omega
  | cons x a ih =>
    have hx : schar x ≠ 0 := schar_ne_zero fun h => ha (by simp [h])
    cases b with
    | nil =>
      simp only [strcmpChars, strKey, List.map_cons, List.map_nil, List.nil_append,
        List.cons_append, List.cons_lt_cons_iff]
      split_ifs <;> constructor <;> constructor <;> intro h <;> omega
    | cons y b =>
      simp only [List.mem_cons, not_or] at ha hb
      obtain ⟨hlt, hgt⟩ := ih ha.2 hb.2
      simp only [strcmpChars, strKey, List.map_cons, List.cons_append, List.cons_lt_cons_iff]
      by_cases hxy : x = y
      · subst hxy
        simp only [strKey] at hlt hgt
        simp [hlt, hgt]
      · have hne : schar x ≠ schar y := fun h => hxy (schar_inj h)
        rw [if_pos hxy]
        split_ifs <;> constructor <;> constructor <;> intro h <;> omega

/-- The key of a string decides it. -/
theorem strKey_inj {a b : List UInt8} (h : strKey a = strKey b) : a = b := by
  have hmap : a.map schar = b.map schar := List.append_cancel_right h
  exact List.map_injective_iff.mpr (fun _ _ => schar_inj) hmap

/-- The place of a string in the order of `strcmp`. -/
def CStr.key (a : CStr) : List Int := strKey a.chars

theorem CStr.key_inj {a b : CStr} (h : a.key = b.key) : a = b := by
  cases a
  cases b
  obtain rfl := strKey_inj h
  rfl

/-- Below zero is before. -/
theorem strcmp_lt (a b : CStr) : strcmp a b < 0 ↔ a.key < b.key :=
  (strcmpChars_sign a.clean b.clean).1

theorem strcmp_gt (a b : CStr) : 0 < strcmp a b ↔ b.key < a.key :=
  (strcmpChars_sign a.clean b.clean).2

end Frosk

import Mathlib.Tactic
import Mathlib.Data.Nat.Digits.Defs

/-!
# Numerals

The digits of a number in a radix, the leading one first. A number has one
numeral in each radix (`Numeral.unique`). In a smaller radix the same digits say
a smaller number, unless there is only one of them (`Numeral.eq_iff`).
-/

namespace Frosk.Lib

variable {b b' n n' k : Nat} {ds ds' : List Nat}

/-- The digits of `n`, with no zero in front. -/
structure Numeral (b n : Nat) (ds : List Nat) : Prop where
  nonempty : ds ≠ []
  below : ∀ d ∈ ds, d < b
  leading : ds.head? = some 0 → ds = [0]
  /-- The digits read back. -/
  value : Nat.ofDigits b ds.reverse = n

/-- A number below the base is one digit. -/
theorem numeral_single (h : n < b) : Numeral b n [n] where
  nonempty := List.cons_ne_nil n []
  below d hd := by rwa [List.mem_singleton.mp hd]
  leading hzero := by rw [Option.some.inj hzero]
  value := Nat.ofDigits_singleton

/-- A digit in front of the numeral's others counts for its place. -/
theorem ofDigits_leading (b d : Nat) (ds : List Nat) :
    Nat.ofDigits b (d :: ds).reverse = Nat.ofDigits b ds.reverse + b ^ ds.length * d := by
  rw [List.reverse_cons, Nat.ofDigits_append, Nat.ofDigits_singleton, List.length_reverse]

/-- Digits with no leading zero are a numeral of their value. -/
theorem Numeral.of_leading (hne : ds ≠ []) (hbelow : ∀ d ∈ ds, d < b) (hhead : ds.head? ≠ some 0)
    (hvalue : Nat.ofDigits b ds.reverse = n) : Numeral b n ds :=
  ⟨hne, hbelow, fun h => absurd h hhead, hvalue⟩

/-- The digits of a number other than zero, from the last one on. -/
theorem Numeral.reverse_eq (hb : 1 < b) (h : Numeral b n ds) (hn : n ≠ 0) :
    ds.reverse = Nat.digits b n := by
  rw [← h.value]
  refine (Nat.digits_ofDigits b hb ds.reverse ?_ fun hne hlast => hn ?_).symm
  · intro d hd
    exact h.below d (List.mem_reverse.mp hd)
  · have hhead : ds.head? = some 0 := by
      rw [← hlast, ← List.getLast?_reverse, List.getLast?_eq_some_getLast hne]
    rw [← h.value, h.leading hhead]
    rfl

/-- The numeral of zero is the digit zero. -/
theorem Numeral.zero_eq (hb : 1 < b) (h : Numeral b 0 ds) : ds = [0] := by
  refine h.leading ?_
  obtain ⟨d, rest, rfl⟩ := List.exists_cons_of_ne_nil h.nonempty
  have hzero := Nat.digits_zero_of_eq_zero (by omega) h.value d
    (List.mem_reverse.mpr List.mem_cons_self)
  rw [hzero, List.head?_cons]

/-- Every number has one numeral only. -/
theorem Numeral.unique (hb : 1 < b) (h : Numeral b n ds) (h' : Numeral b n ds') : ds = ds' := by
  by_cases hn : n = 0
  · subst hn
    rw [h.zero_eq hb, h'.zero_eq hb]
  · exact List.reverse_injective ((h.reverse_eq hb hn).trans (h'.reverse_eq hb hn).symm)

/-- The digits of a numeral, read in another radix. -/
theorem Numeral.reread (hb : 1 < b) (h : Numeral b n ds) (h' : Numeral b' n' ds) :
    n' = Nat.ofDigits b' (Nat.digits b n) := by
  by_cases hn : n = 0
  · subst hn
    obtain rfl := h.zero_eq hb
    rw [← h'.value, Nat.digits_zero]
    rfl
  · rw [← h'.value, h.reverse_eq hb hn]

/-- The same digits are worth no less in a larger base. -/
theorem Numeral.value_le (hle : b ≤ b') (h : Numeral b n ds) (h' : Numeral b' n' ds) : n ≤ n' := by
  rw [← h.value, ← h'.value]
  exact Nat.ofDigits_monotone ds.reverse hle

/-- Digits that say one number in two radixes are one digit. -/
theorem Numeral.eq_iff (hlt : b < b') (h : Numeral b n ds) (h' : Numeral b' n' ds) :
    n = n' ↔ n < b := by
  obtain ⟨d, rest, rfl⟩ := List.exists_cons_of_ne_nil h.nonempty
  have hvalue := h.value
  have hvalue' := h'.value
  rw [ofDigits_leading] at hvalue hvalue'
  rcases rest with - | ⟨e, rest⟩
  · have hd := h.below d List.mem_cons_self
    simp only [List.reverse_nil, Nat.ofDigits_nil, List.length_nil, pow_zero] at hvalue hvalue'
    omega
  · have hpos : 0 < d := by
      refine Nat.pos_of_ne_zero ?_
      intro hd
      have hone := h.leading (by rw [hd, List.head?_cons])
      exact absurd (List.cons.inj hone).2 (List.cons_ne_nil e rest)
    have hb : 0 < b := Nat.zero_lt_of_lt (h.below d List.mem_cons_self)
    have hrest := Nat.ofDigits_monotone (e :: rest).reverse hlt.le
    have hpow : b ^ (e :: rest).length < b' ^ (e :: rest).length :=
      Nat.pow_lt_pow_left hlt (Nat.succ_ne_zero _)
    have hmore := Nat.mul_lt_mul_of_pos_right hpow hpos
    have hbig : b ^ 1 ≤ b ^ (e :: rest).length := Nat.pow_le_pow_right hb (Nat.succ_pos _)
    have hdigit : b ^ (e :: rest).length ≤ b ^ (e :: rest).length * d := Nat.le_mul_of_pos_right _ hpos
    rw [pow_one] at hbig
    omega

end Frosk.Lib

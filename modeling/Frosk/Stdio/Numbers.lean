import Mathlib.Tactic
import Frosk.Lib.Numeral
import Frosk.Stdio.Formatting

/-!
# Integer conversions

`Conv.Shows` is what a conversion of an integer should print: the numeral of the
argument, narrowed by the length modifier, in the conversion's radix.

`utoa` writes the numeral in the radix that it is given (`utoa_numeral`), but
`format_int` and `format_uint` give it 10 whatever theirs is, and they take the
argument of `h` and `hh` as the `int` that it was promoted to.
`prints_number_iff` : a conversion prints its number exactly when the argument
was promoted from the modifier's type and has the same numeral in both radixes.
-/

namespace Frosk.Stdio

open Lib

-- ---------------------------------------------------------------------------
-- What a conversion should print
-- ---------------------------------------------------------------------------

def decimals : List Char := "0123456789".toList
def octals : List Char := "01234567".toList
def lowerHexes : List Char := "0123456789abcdef".toList
def upperHexes : List Char := "0123456789ABCDEF".toList

/-- The character of a digit. -/
def glyph (alphabet : List Char) (d : Nat) : UInt8 := (alphabet.getD d ' ').toUInt8

/-- A numeral in the characters of an alphabet, which has one for each digit. -/
def ShowsNat (alphabet : List Char) (n : Nat) (t : List UInt8) : Prop :=
  ∃ ds, Numeral alphabet.length n ds ∧ t = ds.map (glyph alphabet)

def ShowsInt (n : Int) (t : List UInt8) : Prop :=
  if n < 0 then ∃ u, t = '-'.toUInt8 :: u ∧ ShowsNat decimals n.natAbs u
  else ShowsNat decimals n.natAbs t

/-- An argument in the signed type of the length modifier. -/
def SizeClass.signed (v : UInt64) : SizeClass → Int
  | HALF_HALF => v.toUInt8.toInt8.toInt
  | HALF => v.toUInt16.toInt16.toInt
  | UNDEF | LONG_DBL => v.toUInt32.toInt32.toInt
  | LONG | LONG_LONG | MAX | SIZE | PTRDIFF => v.toInt64.toInt

/-- An argument in the unsigned type of the length modifier. -/
def SizeClass.unsigned (v : UInt64) : SizeClass → Nat
  | HALF_HALF => v.toUInt8.toNat
  | HALF => v.toUInt16.toNat
  | UNDEF | LONG_DBL => v.toUInt32.toNat
  | LONG | LONG_LONG | MAX | SIZE | PTRDIFF => v.toNat

/-- The texts of the number that an integer conversion was asked for. -/
def Conv.Shows (cls : SizeClass) (v : UInt64) (t : List UInt8) : Conv → Prop
  | d => ShowsInt (cls.signed v) t
  | i => ShowsInt (cls.signed v) t
  | u => ShowsNat decimals (cls.unsigned v) t
  | o => ShowsNat octals (cls.unsigned v) t
  | x => ShowsNat lowerHexes (cls.unsigned v) t
  | X => ShowsNat upperHexes (cls.unsigned v) t
  | _ => False

/-- An `int` or `unsigned` that an argument of the length modifier's type was promoted to. -/
def SizeClass.Promoted (v : UInt64) : SizeClass → Prop
  | HALF_HALF => -0x80 ≤ v.toUInt32.toInt32.toInt ∧ v.toUInt32.toInt32.toInt < 0x80
  | HALF => -0x8000 ≤ v.toUInt32.toInt32.toInt ∧ v.toUInt32.toInt32.toInt < 0x8000
  | _ => True

def SizeClass.PromotedUnsigned (v : UInt64) : SizeClass → Prop
  | HALF_HALF => v.toUInt32.toNat < 0x100
  | HALF => v.toUInt32.toNat < 0x10000
  | _ => True

/-- The arguments whose numeral is the decimal one of what was promoted. -/
def Conv.Decimal (cls : SizeClass) (v : UInt64) : Conv → Prop
  | d => cls.Promoted v
  | i => cls.Promoted v
  | u => cls.PromotedUnsigned v
  | o => cls.PromotedUnsigned v ∧ cls.unsigned v < 8
  | x => cls.PromotedUnsigned v ∧ cls.unsigned v < 10
  | X => cls.PromotedUnsigned v ∧ cls.unsigned v < 10
  | _ => False

-- ---------------------------------------------------------------------------
-- utoa
-- ---------------------------------------------------------------------------

variable {radix letterA val n tmp div k : Nat} {ds : List Nat} {t : List UInt8}
  {cls : SizeClass} {ty : Conv} {v : UInt64}

/-- With no round left the divisor stays. -/
theorem divisor_zero : divisor radix n 0 div = div := by cases n <;> rfl

theorem digits_zero : digits radix letterA n val 0 = [] := by cases n <;> rfl

/-- The first loop of `utoa`: a power of the radix, the first that is above the value left. -/
theorem divisor_pow (div : Nat) (hradix : 1 < radix) (htmp : tmp < radix ^ n) :
    ∃ k ≤ n, divisor radix n tmp div = div * radix ^ k ∧ tmp < radix ^ k ∧
      (0 < k → radix ^ (k - 1) ≤ tmp) := by
  induction n generalizing tmp div with
  | zero =>
    rw [pow_zero, Nat.lt_one_iff] at htmp
    subst htmp
    exact ⟨0, le_rfl, (mul_one div).symm, Nat.one_pos, fun h => absurd h (Nat.lt_irrefl 0)⟩
  | succ n ih =>
    rcases Nat.eq_zero_or_pos tmp with rfl | hpos
    · exact ⟨0, Nat.zero_le _, by rw [divisor_zero, pow_zero, mul_one], Nat.one_pos,
        fun h => absurd h (Nat.lt_irrefl 0)⟩
    · have hdiv : tmp / radix < radix ^ n := by
        rw [Nat.div_lt_iff_lt_mul (by omega), ← pow_succ]
        exact htmp
      obtain ⟨k, hk, heq, hlt, hle⟩ := ih (div * radix) hdiv
      refine ⟨k + 1, by omega, ?_, ?_, ?_⟩
      · rw [divisor, if_pos hpos, heq, pow_succ]
        ring
      · rw [pow_succ]
        exact (Nat.div_lt_iff_lt_mul (by omega)).mp hlt
      · intro _
        rw [Nat.add_sub_cancel]
        rcases Nat.eq_zero_or_pos k with rfl | hkpos
        · rwa [pow_zero]
        · obtain ⟨m, rfl⟩ := Nat.exists_eq_add_of_lt hkpos
          rw [Nat.zero_add, Nat.add_sub_cancel] at hle
          rw [Nat.zero_add, pow_succ]
          exact (Nat.le_div_iff_mul_le (by omega)).mp (hle (Nat.succ_pos m))

/-- The second loop of `utoa`: a digit for each power of the radix. -/
theorem digits_pow (letterA : Nat) (hradix : 1 < radix) (hval : val < radix ^ (k + 1)) (hn : k < n) :
    ∃ ds : List Nat, digits radix letterA n val (radix ^ k) = ds.map (digit letterA) ∧
      ds.length = k + 1 ∧ (∀ d ∈ ds, d < radix) ∧ ds.head? = some (val / radix ^ k) ∧
      Nat.ofDigits radix ds.reverse = val := by
  obtain ⟨n, rfl⟩ := Nat.exists_eq_add_of_lt hn
  induction k generalizing val n with
  | zero =>
    have hone : 1 / radix = 0 := Nat.div_eq_of_lt hradix
    rw [zero_add, pow_one] at hval
    refine ⟨[val], ?_, rfl, ?_, ?_, Nat.ofDigits_singleton⟩
    · rw [pow_zero, digits, if_pos Nat.one_pos, hone, digits_zero, Nat.div_one, List.map_singleton]
    · intro d hd
      rwa [List.mem_singleton.mp hd]
    · rw [pow_zero, Nat.div_one, List.head?_cons]
  | succ k ih =>
    have hpos : 0 < radix ^ (k + 1) := Nat.pow_pos (by omega)
    have hrest : val % radix ^ (k + 1) < radix ^ (k + 1) := Nat.mod_lt _ hpos
    obtain ⟨ds, hds, hlen, hbelow, -, hvalue⟩ := ih hrest n (by omega)
    refine ⟨val / radix ^ (k + 1) :: ds, ?_, ?_, ?_, ?_, ?_⟩
    · have hdiv : radix ^ (k + 1) / radix = radix ^ k := by
        rw [pow_succ, Nat.mul_div_cancel _ (by omega)]
      have hfuel : k + 1 + n + 1 = (k + n + 1) + 1 := by omega
      rw [hfuel, digits, if_pos hpos, hdiv, hds, List.map_cons]
    · rw [List.length_cons, hlen]
    · intro d hd
      rcases List.mem_cons.mp hd with rfl | hd
      · rw [Nat.div_lt_iff_lt_mul hpos, ← pow_succ']
        exact hval
      · exact hbelow d hd
    · exact List.head?_cons
    · rw [ofDigits_leading, hvalue, hlen]
      exact Nat.mod_add_div val _

/-- `utoa` in any radix. -/
theorem utoa_numeral (letterA : Nat) (hradix : 1 < radix) (hval : val < 2 ^ 64) :
    ∃ ds, Numeral radix val ds ∧ utoa val radix letterA = ds.map (digit letterA) := by
  by_cases hzero : val = 0
  · subst hzero
    exact ⟨[0], numeral_single (by omega), rfl⟩
  have hmax : val < radix ^ 64 := hval.trans_le (Nat.pow_le_pow_left hradix 64)
  have htmp : val / radix < radix ^ 63 := by
    rwa [Nat.div_lt_iff_lt_mul (by omega), ← pow_succ]
  obtain ⟨k, hk, heq, hlt, hle⟩ :=
    divisor_pow 1 hradix (htmp.trans_le (Nat.pow_le_pow_right (by omega) (Nat.le_succ 63)))
  have hk : k < 64 := by
    by_contra hbig
    have hkmin := hle (by omega)
    have hpow : radix ^ 63 ≤ radix ^ (k - 1) := Nat.pow_le_pow_right (by omega) (by omega)
    omega
  have hvalk : val < radix ^ (k + 1) := by
    rw [pow_succ]
    exact (Nat.div_lt_iff_lt_mul (by omega)).mp hlt
  obtain ⟨ds, hds, hlen, hbelow, hhead, hvalue⟩ := digits_pow letterA hradix hvalk hk
  refine ⟨ds, Numeral.of_leading ?_ hbelow ?_ hvalue, ?_⟩
  · exact List.ne_nil_of_length_pos (by omega)
  · -- the first digit is of the highest power below the value
    rw [hhead]
    intro hfirst
    have hsmall : val < radix ^ k := Nat.lt_of_div_eq_zero (Nat.pow_pos (by omega)) (Option.some.inj hfirst)
    rcases Nat.eq_zero_or_pos k with rfl | hkpos
    · rw [pow_zero] at hsmall
      omega
    · have hkmin := hle hkpos
      have hback : radix ^ k = radix ^ (k - 1) * radix := by
        rw [← pow_succ, Nat.sub_add_cancel hkpos]
      have hval' := Nat.div_mul_le_self val radix
      have hmul := Nat.mul_le_mul_right radix hkmin
      omega
  · rw [utoa, if_neg hzero, heq, one_mul, hds]

-- ---------------------------------------------------------------------------
-- Texts and numbers
-- ---------------------------------------------------------------------------

variable {alphabet : List Char} {n' : Nat} {m m' : Int}

/-- A digit is shown by its glyph. -/
theorem digit_glyph {d : Nat} (letterA : Nat) (h : d < 10) : digit letterA d = glyph decimals d := by
  rw [digit, if_pos h]
  interval_cases d <;> rfl

/-- The decimal digits are the same characters in every alphabet. -/
theorem glyph_inj : ∀ alphabet ∈ [decimals, octals, lowerHexes, upperHexes],
    ∀ d < 10, ∀ d' < alphabet.length, glyph decimals d = glyph alphabet d' → d = d' := by
  decide

/-- No digit looks like a minus. -/
theorem glyph_ne_minus : ∀ d < 10, glyph decimals d ≠ '-'.toUInt8 := by decide

/-- `utoa` shows its number. -/
theorem utoa_shows (letterA : Nat) (hval : val < 2 ^ 64) : ShowsNat decimals val (utoa val 10 letterA) := by
  obtain ⟨ds, hds, htext⟩ := utoa_numeral letterA (show 1 < 10 by omega) hval
  refine ⟨ds, hds, htext.trans (List.map_congr_left fun d hd => ?_)⟩
  exact digit_glyph letterA (hds.below d hd)

/-- A text that shows a number in decimal shows another by the same digits. -/
theorem ShowsNat.digits (halphabet : alphabet ∈ [decimals, octals, lowerHexes, upperHexes])
    (h : ShowsNat decimals n t) (h' : ShowsNat alphabet n' t) :
    ∃ ds, Numeral 10 n ds ∧ Numeral alphabet.length n' ds := by
  obtain ⟨ds, hds, rfl⟩ := h
  obtain ⟨ds', hds', heq⟩ := h'
  have hsame : ds = ds' := by
    have hlen := congrArg List.length heq
    rw [List.length_map, List.length_map] at hlen
    refine List.ext_getElem hlen ?_
    intro k hk hk'
    have hchar := congrArg (fun l => l[k]?) heq
    simp only [List.getElem?_map, List.getElem?_eq_getElem hk, List.getElem?_eq_getElem hk',
      Option.map_some, Option.some.injEq] at hchar
    exact glyph_inj alphabet halphabet _ (hds.below _ (List.getElem_mem hk)) _
      (hds'.below _ (List.getElem_mem hk')) hchar
  subst hsame
  exact ⟨ds, hds, hds'⟩

/-- A text shows one number only. -/
theorem ShowsNat.inj (h : ShowsNat decimals n t) (h' : ShowsNat decimals n' t) : n = n' := by
  obtain ⟨ds, hds, hds'⟩ := h.digits List.mem_cons_self h'
  exact hds.value.symm.trans hds'.value

/-- A text that shows a number does not start with a minus. -/
theorem ShowsNat.head (h : ShowsNat decimals n t) : t.head? ≠ some '-'.toUInt8 := by
  obtain ⟨ds, hds, rfl⟩ := h
  obtain ⟨d, rest, rfl⟩ := List.exists_cons_of_ne_nil hds.nonempty
  rw [List.map_cons, List.head?_cons]
  intro hminus
  exact glyph_ne_minus d (hds.below d List.mem_cons_self) (Option.some.inj hminus)

/-- The same with a sign. -/
theorem ShowsInt.inj (h : ShowsInt m t) (h' : ShowsInt m' t) : m = m' := by
  unfold ShowsInt at h h'
  split at h <;> split at h'
  · obtain ⟨u, rfl, hu⟩ := h
    obtain ⟨u', heq, hu'⟩ := h'
    obtain rfl := (List.cons.inj heq).2
    have habs := hu.inj hu'
    omega
  · obtain ⟨u, rfl, -⟩ := h
    exact absurd List.head?_cons h'.head
  · obtain ⟨u, rfl, -⟩ := h'
    exact absurd List.head?_cons h.head
  · have habs := h.inj h'
    omega

/-- `itoa`, also of the most negative number. -/
theorem itoa_shows (letterA : Nat) (hm : m.natAbs < 2 ^ 64) : ShowsInt m (itoa m 10 letterA) := by
  unfold ShowsInt itoa
  by_cases hneg : m < 0
  · rw [if_pos hneg, if_pos hneg]
    exact ⟨_, rfl, utoa_shows letterA hm⟩
  · have habs : m.toNat = m.natAbs := by omega
    rw [if_neg hneg, if_neg hneg, habs]
    exact utoa_shows letterA hm

/-- What `itoa` prints shows its number and no other. -/
theorem itoa_shows_iff (letterA : Nat) (hm : m.natAbs < 2 ^ 64) :
    ShowsInt m' (itoa m 10 letterA) ↔ m' = m := by
  constructor
  · intro h
    exact h.inj (itoa_shows letterA hm)
  · rintro rfl
    exact itoa_shows letterA hm

/-- What `utoa` prints shows its number and no other. -/
theorem utoa_shows_iff (letterA : Nat) (hval : val < 2 ^ 64) :
    ShowsNat decimals n' (utoa val 10 letterA) ↔ n' = val := by
  constructor
  · intro h
    exact h.inj (utoa_shows letterA hval)
  · rintro rfl
    exact utoa_shows letterA hval

/-- A number below both radixes. -/
theorem utoa_small (halphabet : ∀ d < alphabet.length, d < 10 → glyph decimals d = glyph alphabet d)
    (letterA : Nat) (h : val < 10) (h' : val < alphabet.length) :
    ShowsNat alphabet val (utoa val 10 letterA) := by
  obtain ⟨ds, hds, htext⟩ := utoa_shows letterA (show val < 2 ^ 64 by omega)
  obtain rfl := hds.unique (by decide) (numeral_single h)
  refine ⟨[val], numeral_single h', htext.trans ?_⟩
  rw [List.map_singleton, List.map_singleton, halphabet val h' h]

/-- The decimal numeral of a number, read in hexadecimal, is not the number cut to fewer bits. -/
theorem hex_shows_iff (halphabet : alphabet ∈ [lowerHexes, upperHexes]) (letterA : Nat)
    (hval : val < 2 ^ 64) (hle : n' ≤ val) :
    ShowsNat alphabet n' (utoa val 10 letterA) ↔ n' = val ∧ n' < 10 := by
  have hlen : alphabet.length = 16 := by
    rcases List.mem_pair.mp halphabet with rfl | rfl <;> rfl
  constructor
  · intro h
    obtain ⟨ds, hds, hds'⟩ := (utoa_shows letterA hval).digits
      (List.mem_cons_of_mem _ (List.mem_cons_of_mem _ halphabet)) h
    have hge := hds.value_le (by omega) hds'
    have heq : val = n' := by omega
    exact ⟨heq.symm, heq ▸ (hds.eq_iff (by omega) hds').mp heq⟩
  · rintro ⟨rfl, hsmall⟩
    refine utoa_small ?_ letterA hsmall (by omega)
    rcases List.mem_pair.mp halphabet with rfl | rfl <;> decide

/-- One digit of a number read in another radix. -/
theorem reread_succ (b b' n : Nat) (hb : 1 < b) :
    Nat.ofDigits b' (Nat.digits b n) = n % b + b' * Nat.ofDigits b' (Nat.digits b (n / b)) := by
  rcases Nat.eq_zero_or_pos n with rfl | hn
  · rw [Nat.zero_div, Nat.digits_zero, Nat.zero_mod, Nat.ofDigits_nil, Nat.mul_zero]
  · rw [Nat.digits_def' hb hn, Nat.ofDigits_cons]

/-- The octal digits of a number of 8 or 16 bits, read in decimal, do not add a multiple of what was
cut off. -/
theorem reread_octal (h : n' < 0x10000) (hn : n = Nat.ofDigits 10 (Nat.digits 8 n')) :
    (n < n' + 0x10000 ∨ n' + 0x10000 < n ∧ n < n' + 2 * 0x10000) ∧ (n' < 0x100 → n < n' + 0x100) := by
  have hlast : n' / 8 / 8 / 8 / 8 / 8 < 8 := by omega
  have hdigit : Nat.ofDigits 10 (Nat.digits 8 (n' / 8 / 8 / 8 / 8 / 8)) = n' / 8 / 8 / 8 / 8 / 8 := by
    rw [reread_succ 8 10 _ (by decide), Nat.div_eq_of_lt hlast, Nat.digits_zero, Nat.ofDigits_nil,
      Nat.mul_zero, Nat.add_zero, Nat.mod_eq_of_lt hlast]
  rw [reread_succ 8 10 n' (by decide), reread_succ 8 10 (n' / 8) (by decide),
    reread_succ 8 10 (n' / 8 / 8) (by decide), reread_succ 8 10 (n' / 8 / 8 / 8) (by decide),
    reread_succ 8 10 (n' / 8 / 8 / 8 / 8) (by decide), hdigit] at hn
  omega

/-- Nor is it in octal, where the digits say less. -/
theorem octal_shows_iff (letterA : Nat) (hval : val < 2 ^ 64)
    (hcut : n' = val ∨ n' = val % 0x100 ∨ n' = val % 0x10000) :
    ShowsNat octals n' (utoa val 10 letterA) ↔ n' = val ∧ n' < 8 := by
  constructor
  · intro h
    obtain ⟨ds, hds, hds'⟩ := (utoa_shows letterA hval).digits
      (List.mem_cons_of_mem _ List.mem_cons_self) h
    have heq : n' = val := by
      by_contra hne
      have hsmall : n' < 0x10000 := by omega
      have hread : val = Nat.ofDigits 10 (Nat.digits 8 n') := Numeral.reread (by decide) hds' hds
      have hmore := reread_octal hsmall hread
      omega
    exact ⟨heq, (hds'.eq_iff (by decide) hds).mp heq⟩
  · rintro ⟨rfl, hsmall⟩
    exact utoa_small (by decide) letterA (by omega) hsmall

-- ---------------------------------------------------------------------------
-- Length modifiers
-- ---------------------------------------------------------------------------

/-- The argument of a conversion is within 64 bits. -/
theorem unsignedOf_lt (cls : SizeClass) (v : UInt64) : unsignedOf cls v < 2 ^ 64 := by
  have hword := v.toNat_lt
  have hlow := v.toUInt32.toNat_lt
  cases cls <;> simp only [unsignedOf] <;> omega

/-- What a length modifier cuts off. -/
theorem unsigned_cut (cls : SizeClass) (v : UInt64) :
    cls.unsigned v = unsignedOf cls v ∨ cls.unsigned v = unsignedOf cls v % 0x100 ∨
      cls.unsigned v = unsignedOf cls v % 0x10000 := by
  have h8 := v.toNat_toUInt8
  have h16 := v.toNat_toUInt16
  have h32 := v.toNat_toUInt32
  cases cls with
  | HALF_HALF => exact .inr (.inl (by simp only [SizeClass.unsigned, unsignedOf]; omega))
  | HALF => exact .inr (.inr (by simp only [SizeClass.unsigned, unsignedOf]; omega))
  | _ => exact .inl rfl

/-- It is read as it was passed when it was promoted without a sign. -/
theorem unsigned_eq_iff (cls : SizeClass) (v : UInt64) :
    cls.unsigned v = unsignedOf cls v ↔ cls.PromotedUnsigned v := by
  have h8 := v.toNat_toUInt8
  have h16 := v.toNat_toUInt16
  have h32 := v.toNat_toUInt32
  cases cls with
  | HALF_HALF =>
    simp only [SizeClass.unsigned, unsignedOf, SizeClass.PromotedUnsigned]
    omega
  | HALF =>
    simp only [SizeClass.unsigned, unsignedOf, SizeClass.PromotedUnsigned]
    omega
  | _ => exact iff_of_true rfl trivial

/-- The low 32 bits with a sign. -/
theorem toInt32_bmod (v : UInt64) : v.toUInt32.toInt32.toInt = Int.bmod v.toUInt32.toNat 0x100000000 :=
  BitVec.toInt_eq_toNat_bmod v.toUInt32.toBitVec

/-- With a sign it is read as it was passed when it was promoted so. -/
theorem signed_eq_iff (cls : SizeClass) (v : UInt64) :
    cls.signed v = signedOf cls v ↔ cls.Promoted v := by
  have h8 : v.toUInt8.toInt8.toInt = Int.bmod v.toUInt8.toNat 0x100 :=
    BitVec.toInt_eq_toNat_bmod v.toUInt8.toBitVec
  have h16 : v.toUInt16.toInt16.toInt = Int.bmod v.toUInt16.toNat 0x10000 :=
    BitVec.toInt_eq_toNat_bmod v.toUInt16.toBitVec
  rw [UInt64.toNat_toUInt8, Int.bmod] at h8
  rw [UInt64.toNat_toUInt16, Int.bmod] at h16
  have h32 := toInt32_bmod v
  rw [UInt64.toNat_toUInt32, Int.bmod] at h32
  cases cls with
  | HALF_HALF =>
    simp only [SizeClass.signed, signedOf, SizeClass.Promoted]
    omega
  | HALF =>
    simp only [SizeClass.signed, signedOf, SizeClass.Promoted]
    omega
  | _ => exact iff_of_true rfl trivial

/-- Its value is within 64 bits as well. -/
theorem signedOf_natAbs_lt (cls : SizeClass) (v : UInt64) : (signedOf cls v).natAbs < 2 ^ 64 := by
  have hword : v.toInt64.toInt = Int.bmod v.toNat (2 ^ 64) := BitVec.toInt_eq_toNat_bmod v.toBitVec
  have hlow := toInt32_bmod v
  rw [Int.bmod] at hword hlow
  cases cls <;> simp only [signedOf] <;> omega

/-- The text of a conversion, and the number that it was asked for. -/
theorem text_shows_iff (A : Args) (cls : SizeClass) (v : UInt64) (ty : Conv) :
    ty.Shows cls v (ty.text A cls v) ↔ ty.Decimal cls v := by
  have hval := unsignedOf_lt cls v
  have hcut := unsigned_cut cls v
  have hle : cls.unsigned v ≤ unsignedOf cls v := by omega
  have hint : ∀ letterA, ShowsInt (cls.signed v) (itoa (signedOf cls v) 10 letterA) ↔ cls.Promoted v :=
    fun letterA => (itoa_shows_iff letterA (signedOf_natAbs_lt cls v)).trans (signed_eq_iff cls v)
  have hpromoted := unsigned_eq_iff cls v
  cases ty with
  | d => exact hint _
  | i => exact hint _
  | u => exact (utoa_shows_iff _ hval).trans hpromoted
  | o => exact (octal_shows_iff _ hval hcut).trans (and_congr_left' hpromoted)
  | x => exact (hex_shows_iff (.head _) _ hval hle).trans (and_congr_left' hpromoted)
  | X => exact (hex_shows_iff (.tail _ (.head _)) _ hval hle).trans (and_congr_left' hpromoted)
  | _ => exact Iff.rfl

-- ---------------------------------------------------------------------------
-- The calls
-- ---------------------------------------------------------------------------

/-- The number of the argument behind those of the items. -/
def nextArg (items : List Item) : Nat := (items.map Item.takes).sum

/-- Wherever it stands in a format, the conversion prints the number asked for, in every buffer that
has room for the whole text. -/
def PrintsNumber (A : Args) (pre : List Item) (cls : SizeClass) (ty : Conv) (post : List Item) : Prop :=
  let items := pre ++ .conv cls ty :: post
  ∀ len buf, (expand A 0 items).length < len → ∃ r t,
    vsnprintf A len (render items) buf = some r ∧
      r.text = expand A 0 pre ++ t ++ expand A (nextArg pre + 1) post ∧
      ty.Shows cls (A.arg (nextArg pre)) t

variable {A : Args} {pre post items : List Item}

/-- A format in two parts. -/
theorem expand_append (A : Args) (k : Nat) (pre items : List Item) :
    expand A k (pre ++ items) = expand A k pre ++ expand A (k + nextArg pre) items := by
  induction pre generalizing k with
  | nil => rfl
  | cons it pre ih =>
    have hnext : nextArg (it :: pre) = it.takes + nextArg pre := List.sum_cons
    rw [List.cons_append, expand, expand, ih, List.append_assoc, hnext, Nat.add_assoc]

/-- The text in a buffer that has room for all of it. -/
theorem vsnprintf_whole {len : Nat} (buf : Memory) (h : (expand A 0 items).length < len) :
    ∃ r, vsnprintf A len (render items) buf = some r ∧ r.text = expand A 0 items :=
  ⟨_, vsnprintf_items A len items buf, (formatted_whole buf h).2.1⟩

/-- The text between those of the items around a conversion that takes its argument. -/
theorem expand_conv (hty : ty ≠ .percent) (A : Args) (pre post : List Item) (cls : SizeClass) :
    expand A 0 (pre ++ .conv cls ty :: post) =
      expand A 0 pre ++ ty.text A cls (A.arg (nextArg pre)) ++ expand A (nextArg pre + 1) post := by
  have htakes : (Item.conv cls ty).takes = 1 := by cases ty <;> first | rfl | exact absurd rfl hty
  rw [expand_append, Nat.zero_add, expand, htakes, List.append_assoc]
  rfl

/-- Where a number is printed, its text shows it. -/
theorem PrintsNumber.shows (hty : ty ≠ .percent) (h : PrintsNumber A pre cls ty post) :
    ty.Shows cls (A.arg (nextArg pre)) (ty.text A cls (A.arg (nextArg pre))) := by
  obtain ⟨r, t, hr, ht, hshows⟩ := h _ (fun _ => 0) (Nat.lt_succ_self _)
  obtain ⟨r', hr', ht'⟩ := vsnprintf_whole (A := A) (fun _ => 0) (Nat.lt_succ_self _)
  obtain rfl := Option.some.inj (hr.symm.trans hr')
  rw [expand_conv hty] at ht'
  have hsame : t = ty.text A cls (A.arg (nextArg pre)) :=
    List.append_cancel_left (List.append_cancel_right (ht.symm.trans ht'))
  rwa [hsame] at hshows

/-- `format_int` and `format_uint` print in decimal. -/
theorem prints_number_iff :
    PrintsNumber A pre cls ty post ↔ ty.Decimal cls (A.arg (nextArg pre)) := by
  by_cases hty : ty = .percent
  · subst hty
    constructor
    · intro h
      obtain ⟨_, _, _, _, hshows⟩ := h _ (fun _ => 0) (Nat.lt_succ_self _)
      exact hshows
    · exact False.elim
  · rw [← text_shows_iff A]
    refine ⟨PrintsNumber.shows hty, ?_⟩
    intro h len buf hlen
    obtain ⟨r, hr, ht⟩ := vsnprintf_whole buf hlen
    exact ⟨r, _, hr, ht.trans (expand_conv hty A pre post cls), h⟩

/-- `%x` of 255 prints `255`. -/
theorem hexadecimal_in_decimal :
    ¬ ∀ (A : Args) (pre : List Item) (cls : SizeClass) (ty : Conv) (post : List Item),
      ty ∈ [.d, .i, .u, .o, .x, .X] → PrintsNumber A pre cls ty post := by
  intro h
  have hprints := h ⟨fun _ => 255, fun _ => ⟨[], CStr.clean_nil⟩, fun _ => []⟩ [] .UNDEF .x [] (by simp)
  have hshows := (text_shows_iff _ _ _ _).mp (hprints.shows (by decide))
  exact absurd hshows.2 (by decide)

end Frosk.Stdio

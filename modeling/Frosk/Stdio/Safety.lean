import Mathlib.Tactic
import Frosk.Stdio.Numbers

/-!
# The accesses of `vsnprintf`

`vsnprintfChecked` is `vsnprintf` with every access looked at: a byte of the
format is read up to its terminator only (`fetch`), a byte of the buffer is
stored below the length only (`store`), and a number has to fit into the array
that it is printed to (`numbuf`). It has no result where an access fails.

Any format will do, whether its conversions are complete or not. It is read as a
list of pieces, in which a `%` that begins no conversion stands for itself and
what follows its length modifier is read again.

`vsnprintf_safe` : without `c` and `g`, every access is in bounds on every
format, the buffer is changed below the length only, and the terminator is
behind the text that was stored.
-/

namespace Frosk.Stdio

open Lib

-- ---------------------------------------------------------------------------
-- The checked accesses
-- ---------------------------------------------------------------------------

/-- A byte of the format or its terminator. -/
def fetch (fmt : List UInt8) (j : Nat) : Option UInt8 := (fmt ++ [0])[j]?

/-- A store to the buffer, which has room for `len` bytes. -/
def store (len : Nat) (buf : Memory) (a : Nat) (l : List UInt8) : Option Memory :=
  if a + l.length ≤ len then some (buf.blit a l) else none

/-- A number printed to an array of `n` bytes, with its terminator. -/
def numbuf (n : Nat) (t : List UInt8) : Option (List UInt8) := if t.length < n then some t else none

/-- `get_size_class`, which looks at a second byte behind an `h` or an `l` only. -/
def getSizeClassChecked (fmt : List UInt8) (j : Nat) : Option (SizeClass × Nat) :=
  (fetch fmt (j + 1)).bind fun first =>
    if first = 'h'.toUInt8 ∨ first = 'l'.toUInt8 then
      (fetch fmt (j + 2)).map fun _ => getSizeClass fmt j
    else some (getSizeClass fmt j)

variable (A : Args) (len : Nat) (fmt : List UInt8)

/-- `strncpy` to the output position, or the store of one character. -/
def State.emitChecked (t : List UInt8) (s : State) : Option State :=
  if s.i < len then
    (store len s.buf s.i (t.take (len - s.i))).map fun buf => { s with i := s.i + t.length, buf }
  else some { s with i := s.i + t.length }

/-- The `switch`; `format_int` and `format_uint` have an array of 128 bytes, `vsnprintf` has one
of 100. -/
def convertChecked (j : Nat) (cls : SizeClass) (s : State) : Option State :=
  (fetch fmt s.j).bind fun ch =>
    let v := A.arg s.k
    match Char.ofNat ch.toNat with
    | 'c' => if s.i < len then (s.vaArg j).emitChecked len [v.toUInt8] else s.emitChecked len [v.toUInt8]
    | 's' => (s.vaArg j).emitChecked len (A.str v).chars
    | 'i' => (numbuf 128 (formatInt cls 10 'a'.toNat v)).bind fun t => (s.vaArg j).emitChecked len t
    | 'd' => (numbuf 128 (formatInt cls 10 'a'.toNat v)).bind fun t => (s.vaArg j).emitChecked len t
    | 'u' => (numbuf 128 (formatUint cls 10 'a'.toNat v)).bind fun t => (s.vaArg j).emitChecked len t
    | 'x' => (numbuf 128 (formatUint cls 0x10 'a'.toNat v)).bind fun t => (s.vaArg j).emitChecked len t
    | 'X' => (numbuf 128 (formatUint cls 0x10 'A'.toNat v)).bind fun t => (s.vaArg j).emitChecked len t
    | 'o' => (numbuf 128 (formatUint cls 8 'a'.toNat v)).bind fun t => (s.vaArg j).emitChecked len t
    | 'g' => (numbuf 100 (A.ftoa v)).bind fun t => (s.vaArg j).emitChecked len t
    | 'p' => (numbuf 100 (pointerText v)).bind fun t => (s.vaArg j).emitChecked len t
    | '%' => s.emitChecked len ['%'.toUInt8]
    | _ => (s.emitChecked len ['%'.toUInt8]).map fun s => { s with j := s.j - 1 }

/-- One round of the loop; it leaves without a state where an access fails. -/
def formatBodyChecked (s : State) : State ⊕ Option State :=
  match fetch fmt s.j with
  | none => .inr none
  | some ch =>
    if ch = 0 then .inr (some s)
    else
      let next :=
        if ch = '%'.toUInt8 then
          (getSizeClassChecked fmt s.j).bind fun c => convertChecked A len fmt s.j c.1 { s with j := c.2 }
        else s.emitChecked len [ch]
      match next with
      | none => .inr none
      | some s' => .inl { s' with j := s'.j + 1 }

def terminateChecked (len i : Nat) (buf : Memory) : Option Memory :=
  let cut := if i = len then (if 0 < i then store len buf (i - 1) [0] else some buf) else some buf
  cut.bind fun buf =>
    if i < len then store len buf i [0]
    else if 0 < len then store len buf (len - 1) [0] else some buf

def vsnprintfChecked (buf : Memory) : Option Output :=
  (iterate (formatBodyChecked A len fmt) (fmt.length + 1) ⟨0, 0, 0, [], buf⟩).join.bind fun s =>
    (terminateChecked len s.i s.buf).map fun buf =>
      ⟨toInt s.i, s.took, buf, buf.slice 0 (min s.i (len - 1))⟩

-- ---------------------------------------------------------------------------
-- What a format stands for
-- ---------------------------------------------------------------------------

/-- A character that stands for itself, a conversion, or the conversion of a double. -/
inductive Piece where
  | lit (b : UInt8)
  | conv (cls : SizeClass) (ty : Conv)
  | double
deriving DecidableEq

def Conv.ofLetter (b : UInt8) : Option Conv :=
  [c, s, d, i, u, x, X, o, p, percent].find? fun ty => ty.letter = b

/-- The pieces from the index `j` on. -/
def parse (fmt : List UInt8) : Nat → Nat → List Piece
  | 0, _ => []
  | n + 1, j =>
    if charAt fmt j = 0 then []
    else if charAt fmt j = '%'.toUInt8 then
      let (cls, l) := getSizeClass fmt j
      if charAt fmt l = 'g'.toUInt8 then .double :: parse fmt n (l + 1)
      else
        match Conv.ofLetter (charAt fmt l) with
        | some ty => .conv cls ty :: parse fmt n (l + 1)
        | none => .lit '%'.toUInt8 :: parse fmt n l
    else .lit (charAt fmt j) :: parse fmt n (j + 1)

def pieces (fmt : List UInt8) : List Piece := parse fmt (fmt.length + 1) 0

def Piece.text (A : Args) (k : Nat) : Piece → List UInt8
  | lit b => [b]
  | conv cls ty => ty.text A cls (A.arg k)
  | double => A.ftoa (A.arg k)

def Piece.takes : Piece → Nat
  | lit _ => 0
  | conv _ .percent => 0
  | conv _ _ => 1
  | double => 1

/-- The whole text of the pieces, whose arguments are those from `k` on. -/
def spell (A : Args) : Nat → List Piece → List UInt8
  | _, [] => []
  | k, p :: ps => p.text A k ++ spell A (k + p.takes) ps

/-- Not the conversion of a character or of a double. -/
def Piece.Plain (p : Piece) : Prop := p ≠ .double ∧ ∀ cls, p ≠ .conv cls .c

-- ---------------------------------------------------------------------------
-- The checks succeed
-- ---------------------------------------------------------------------------

variable {A len fmt} {n j i : Nat} {s : State} {cls : SizeClass} {ty : Conv} {t t' : List UInt8}

/-- Up to the terminator the format may be read. -/
theorem fetch_eq (h : j ≤ fmt.length) : fetch fmt j = some (charAt fmt j) := by
  rw [fetch, charAt, List.getD_eq_getElem?_getD]
  rcases Nat.lt_or_eq_of_le h with hlt | rfl
  · rw [List.getElem?_append_left hlt, List.getElem?_eq_getElem hlt, Option.getD_some]
  · rw [List.getElem?_append_right le_rfl, List.getElem?_eq_none le_rfl, Nat.sub_self]
    rfl

/-- A character that is not zero is before the terminator. -/
theorem lt_of_charAt (h : charAt fmt j ≠ 0) : j < fmt.length := by
  by_contra hj
  refine h ?_
  rw [charAt, List.getD_eq_getElem?_getD, List.getElem?_eq_none (Nat.le_of_not_lt hj), Option.getD_none]

/-- A byte is the character of its number. -/
theorem char_of_byte {b : UInt8} {ch : Char} (h : Char.ofNat b.toNat = ch) : b = ch.toUInt8 := by
  have hlt := b.toNat_lt
  have hnat : (Char.ofNat b.toNat).val.toNat = b.toNat := by
    rw [Char.ofNat, dif_pos (Or.inl (by omega))]
    rfl
  rw [← h, Char.toUInt8, ← UInt8.toNat_inj, UInt32.toNat_toUInt8, hnat]
  exact (Nat.mod_eq_of_lt hlt).symm

/-- `get_size_class` does not pass the terminator. -/
theorem getSizeClass_bounds (h : j < fmt.length) :
    j < (getSizeClass fmt j).2 ∧ (getSizeClass fmt j).2 ≤ fmt.length := by
  have hfirst : ∀ ch : Char, Char.ofNat (charAt fmt (j + 1)).toNat = ch → ch.toUInt8 ≠ 0 →
      j + 2 ≤ fmt.length :=
    fun ch hch hne => lt_of_charAt (char_of_byte hch ▸ hne)
  have hsecond : ∀ b : UInt8, charAt fmt (j + 2) = b → b ≠ 0 → j + 3 ≤ fmt.length :=
    fun b hb hne => lt_of_charAt (hb ▸ hne)
  unfold getSizeClass
  split
  · rename_i hch
    have hlast := hfirst _ hch (by decide)
    split
    · rename_i hb
      exact ⟨by simp, hsecond _ hb (by decide)⟩
    · exact ⟨by simp, hlast⟩
  · rename_i hch
    have hlast := hfirst _ hch (by decide)
    split
    · rename_i hb
      exact ⟨by simp, hsecond _ hb (by decide)⟩
    · exact ⟨by simp, hlast⟩
  · rename_i hch
    exact ⟨by simp, hfirst _ hch (by decide)⟩
  · rename_i hch
    exact ⟨by simp, hfirst _ hch (by decide)⟩
  · rename_i hch
    exact ⟨by simp, hfirst _ hch (by decide)⟩
  · rename_i hch
    exact ⟨by simp, hfirst _ hch (by decide)⟩
  · exact ⟨by simp, h⟩

/-- The size class reads the format only. -/
theorem getSizeClassChecked_eq (h : j < fmt.length) :
    getSizeClassChecked fmt j = some (getSizeClass fmt j) := by
  rw [getSizeClassChecked, fetch_eq h, Option.bind_some]
  split
  · rename_i hfirst
    have hlast : j + 2 ≤ fmt.length := by
      refine lt_of_charAt ?_
      rcases hfirst with hfirst | hfirst <;> rw [hfirst] <;> decide
    rw [fetch_eq hlast, Option.map_some]
  · rfl

/-- A store within the buffer succeeds. -/
theorem store_eq {buf : Memory} {a : Nat} {l : List UInt8} (h : a + l.length ≤ len) :
    store len buf a l = some (buf.blit a l) := if_pos h

/-- So nothing is emitted outside. -/
theorem emitChecked_eq (t : List UInt8) (s : State) : s.emitChecked len t = some (s.emit len t) := by
  unfold State.emitChecked State.emit
  by_cases hi : s.i < len
  · have hfits : s.i + (t.take (len - s.i)).length ≤ len := by
      rw [List.length_take]
      omega
    rw [if_pos hi, if_pos hi, store_eq hfits, Option.map_some]
  · rw [if_neg hi, if_neg hi]

theorem terminateChecked_eq (i : Nat) (buf : Memory) :
    terminateChecked len i buf = some (terminate len i buf) := by
  have hcut : (if i = len then (if 0 < i then store len buf (i - 1) [0] else some buf) else some buf) =
      some (if i = len then (if 0 < i then buf.blit (i - 1) [0] else buf) else buf) := by
    split
    · split
      · exact store_eq (by rw [List.length_singleton]; omega)
      · rfl
    · rfl
  rw [terminateChecked, hcut, Option.bind_some, terminate]
  split
  · exact store_eq (by rw [List.length_singleton]; omega)
  · split
    · exact store_eq (by rw [List.length_singleton]; omega)
    · rfl

/-- There are at most as many digits as rounds. -/
theorem digits_length_le (radix letterA n val div : Nat) :
    (digits radix letterA n val div).length ≤ n := by
  induction n generalizing val div with
  | zero => exact le_rfl
  | succ n ih =>
    rw [digits]
    split
    · exact Nat.succ_le_succ (ih _ _)
    · exact Nat.zero_le _

/-- No number is longer than its digits in binary. -/
theorem utoa_length_le (val radix letterA : Nat) : (utoa val radix letterA).length ≤ 64 := by
  unfold utoa
  split
  · decide
  · exact digits_length_le _ _ _ _ _

/-- So a number has 65 characters at most. -/
theorem itoa_length_le (v : Int) (radix letterA : Nat) : (itoa v radix letterA).length ≤ 65 := by
  unfold itoa
  split
  · exact Nat.succ_le_succ (utoa_length_le _ _ _)
  · exact (utoa_length_le _ _ _).trans (Nat.le_succ 64)

/-- A text shorter than the buffer fits. -/
theorem numbuf_eq (h : t.length < n) : numbuf n t = some t := if_pos h

/-- The numbers of the signed conversions fit. -/
theorem formatInt_numbuf (cls : SizeClass) (radix letterA : Nat) (v : UInt64) :
    numbuf 128 (formatInt cls radix letterA v) = some (formatInt cls radix letterA v) :=
  numbuf_eq ((itoa_length_le _ _ _).trans_lt (by decide))

theorem formatUint_numbuf (cls : SizeClass) (radix letterA : Nat) (v : UInt64) :
    numbuf 128 (formatUint cls radix letterA v) = some (formatUint cls radix letterA v) :=
  numbuf_eq ((utoa_length_le _ _ _).trans_lt (by decide))

theorem pointerText_numbuf (v : UInt64) : numbuf 100 (pointerText v) = some (pointerText v) := by
  refine numbuf_eq ?_
  unfold pointerText
  split
  · decide
  · exact (utoa_length_le _ _ _).trans_lt (by decide)

/-- Every conversion but `g` is safe. -/
theorem convertChecked_eq (h : s.j ≤ fmt.length) (hg : charAt fmt s.j ≠ 'g'.toUInt8) :
    convertChecked A len fmt j cls s = some (convert A len fmt j cls s) := by
  have hg' : Char.ofNat (charAt fmt s.j).toNat ≠ 'g' := fun hch => hg (char_of_byte hch)
  rw [convertChecked, fetch_eq h, Option.bind_some, convert]
  generalize Char.ofNat (charAt fmt s.j).toNat = ch at hg'
  simp only [formatInt_numbuf, formatUint_numbuf, pointerText_numbuf, emitChecked_eq, Option.bind_some,
    Option.map_some]
  split
  case h_1 => split <;> rfl
  case h_9 => exact absurd rfl hg'
  case h_12 => split <;> first | rfl | contradiction
  all_goals rfl

-- ---------------------------------------------------------------------------
-- One round
-- ---------------------------------------------------------------------------

/-- The letter of a conversion. -/
theorem ofLetter_some {b : UInt8} (h : Conv.ofLetter b = some ty) : b = ty.letter := by
  have hfound := List.find?_some h
  exact (of_decide_eq_true hfound).symm

theorem letter_ne_zero (ty : Conv) : ty.letter ≠ 0 := by cases ty <;> decide

theorem ofLetter_letter (ty : Conv) : Conv.ofLetter ty.letter = some ty := by cases ty <;> rfl

/-- A byte that begins no conversion is read again. -/
theorem convert_stray (h : Conv.ofLetter (charAt fmt s.j) = none) (hg : charAt fmt s.j ≠ 'g'.toUInt8) :
    convert A len fmt j cls s = { s.emit len ['%'.toUInt8] with j := s.j - 1 } := by
  have hletter : ∀ ty : Conv, Char.ofNat (charAt fmt s.j).toNat = Char.ofNat ty.letter.toNat → False := by
    intro ty hch
    have hbyte : charAt fmt s.j = ty.letter := by
      rw [char_of_byte hch]
      cases ty <;> rfl
    rw [hbyte, ofLetter_letter] at h
    cases h
  have hdouble : Char.ofNat (charAt fmt s.j).toNat ≠ 'g' := fun hch => hg (char_of_byte hch)
  unfold convert
  generalize Char.ofNat (charAt fmt s.j).toNat = ch at hletter hdouble
  split
  case h_1 => exact (hletter .c rfl).elim
  case h_2 => exact (hletter .s rfl).elim
  case h_3 => exact (hletter .d rfl).elim
  case h_4 => exact (hletter .i rfl).elim
  case h_5 => exact (hletter .u rfl).elim
  case h_6 => exact (hletter .x rfl).elim
  case h_7 => exact (hletter .X rfl).elim
  case h_8 => exact (hletter .o rfl).elim
  case h_9 => exact absurd rfl hdouble
  case h_10 => exact (hletter .p rfl).elim
  case h_11 => exact (hletter .percent rfl).elim
  case h_12 => rfl

/-- What a round does for a piece. -/
structure Spelled (A : Args) (len : Nat) (p : Piece) (s s' : State) : Prop where
  i : s'.i = s.i + (p.text A s.k).length
  k : s'.k = s.k + p.takes
  buf : s'.buf = (s.emit len (p.text A s.k)).buf

/-- The conversions but that of a character take their argument whether or not it is stored. -/
theorem spelled_conv (hc : ty ≠ .c) (j l : Nat) :
    Spelled A len (.conv cls ty) s
      { (s.take len j (.conv cls ty)).emit len ((Item.conv cls ty).text A s.k) with j := l } where
  i := congrArg (· + _) take_i
  k := by
    have hchar : (Item.conv cls ty).isChar = true → s.i < len := by
      cases ty <;> first | exact absurd rfl hc | exact fun h => absurd h Bool.false_ne_true
    rcases takes_cases (Item.conv cls ty) with htakes | htakes
    · have hpiece : (Piece.conv cls ty).takes = 0 := by cases ty <;> first | rfl | cases htakes
      rw [take_none htakes, hpiece]
      rfl
    · have hpiece : (Piece.conv cls ty).takes = 1 := by cases ty <;> first | rfl | cases htakes
      rw [take_arg htakes hchar, hpiece]
      rfl
  buf := by
    simp only [State.emit, take_i, take_buf]
    rfl

/-- A character stands for itself. -/
theorem spelled_lit (b : UInt8) (l : Nat) : Spelled A len (.lit b) s { s.emit len [b] with j := l } :=
  ⟨rfl, rfl, rfl⟩

/-- A round at a `%`. -/
theorem percent_safe (len : Nat) {l : Nat} (hpercent : charAt fmt s.j = '%'.toUInt8)
    (hclass : getSizeClass fmt s.j = (cls, l)) (hplain : ∀ p ∈ parse fmt (n + 1) s.j, p.Plain) :
    ∃ p s', convertChecked A len fmt s.j cls { s with j := l } = some s' ∧
      convert A len fmt s.j cls { s with j := l } = s' ∧
      parse fmt (n + 1) s.j = p :: parse fmt n (s'.j + 1) ∧ s.j < s'.j + 1 ∧ s'.j + 1 ≤ fmt.length ∧
      Spelled A len p s { s' with j := s'.j + 1 } := by
  have hne : charAt fmt s.j ≠ 0 := by rw [hpercent]; decide
  have hbounds := getSizeClass_bounds (lt_of_charAt hne)
  rw [hclass] at hbounds
  have hg : charAt fmt l ≠ 'g'.toUInt8 := by
    intro hg
    have hdouble : parse fmt (n + 1) s.j = .double :: parse fmt n (l + 1) := by
      simp only [parse, if_neg hne, if_pos hpercent, hclass, if_pos hg]
    exact (hplain .double (hdouble ▸ List.mem_cons_self)).1 rfl
  have hchecked : convertChecked A len fmt s.j cls { s with j := l } =
      some (convert A len fmt s.j cls { s with j := l }) := convertChecked_eq hbounds.2 hg
  cases hty : Conv.ofLetter (charAt fmt l) with
  | some ty =>
    have hparse : parse fmt (n + 1) s.j = .conv cls ty :: parse fmt n (l + 1) := by
      simp only [parse, if_neg hne, if_pos hpercent, hclass, if_neg hg, hty]
    have hletter := ofLetter_some hty
    have hc : ty ≠ .c := by
      rintro rfl
      exact (hplain _ (hparse ▸ List.mem_cons_self)).2 cls rfl
    have hl : l < fmt.length := lt_of_charAt (hletter ▸ letter_ne_zero ty)
    have hconv : convert A len fmt s.j cls { s with j := l } = _ := convert_conv hletter
    have htake : ({ s with j := l } : State).take len s.j (.conv cls ty) =
        { s.take len s.j (.conv cls ty) with j := l } := by
      unfold State.take
      split <;> rfl
    rw [htake] at hconv
    refine ⟨.conv cls ty, _, hchecked, rfl, ?_, ?_, ?_, ?_⟩
    all_goals rw [hconv]
    · exact hparse
    · exact Nat.lt_succ_of_lt hbounds.1
    · exact hl
    · exact spelled_conv hc s.j (l + 1)
  | none =>
    have hparse : parse fmt (n + 1) s.j = .lit '%'.toUInt8 :: parse fmt n l := by
      simp only [parse, if_neg hne, if_pos hpercent, hclass, if_neg hg, hty]
    have hconv : convert A len fmt s.j cls { s with j := l } = _ := convert_stray hty hg
    have hback : l - 1 + 1 = l := Nat.sub_add_cancel (by omega)
    refine ⟨.lit '%'.toUInt8, _, hchecked, rfl, ?_, ?_, ?_, ?_⟩
    all_goals rw [hconv]
    · exact hparse.trans (by rw [hback])
    · exact hback.symm ▸ hbounds.1
    · exact hback.symm ▸ hbounds.2
    · exact spelled_lit _ _

/-- One round of the loop, wherever in a format it begins. -/
theorem round_safe (len : Nat) (hj : s.j ≤ fmt.length) (hplain : ∀ p ∈ parse fmt (n + 1) s.j, p.Plain) :
    (formatBodyChecked A len fmt s = .inr (some s) ∧ formatBody A len fmt s = .inr s ∧
      parse fmt (n + 1) s.j = []) ∨
    ∃ p s', formatBodyChecked A len fmt s = .inl s' ∧ formatBody A len fmt s = .inl s' ∧
      parse fmt (n + 1) s.j = p :: parse fmt n s'.j ∧ s.j < s'.j ∧ s'.j ≤ fmt.length ∧
      Spelled A len p s s' := by
  unfold formatBodyChecked formatBody
  rw [fetch_eq hj]
  by_cases hzero : charAt fmt s.j = 0
  · exact .inl ⟨if_pos hzero, if_pos hzero, if_pos hzero⟩
  have hlt := lt_of_charAt hzero
  simp only [if_neg hzero, format]
  by_cases hpercent : charAt fmt s.j = '%'.toUInt8
  · rcases hclass : getSizeClass fmt s.j with ⟨cls, l⟩
    obtain ⟨p, s', hchecked, hconv, hparse, hafter, hbound, hspelled⟩ :=
      percent_safe (A := A) len hpercent hclass hplain
    refine .inr ⟨p, { s' with j := s'.j + 1 }, ?_, ?_, hparse, hafter, hbound, hspelled⟩
    · simp only [if_pos hpercent, getSizeClassChecked_eq hlt, hclass, Option.bind_some, hchecked]
    · simp only [if_pos hpercent, hconv]
  · refine .inr ⟨.lit (charAt fmt s.j), { s.emit len [charAt fmt s.j] with j := s.j + 1 }, ?_, ?_, ?_,
      Nat.lt_succ_self _, hlt, spelled_lit _ _⟩
    · simp only [if_neg hpercent, emitChecked_eq]
      rfl
    · simp only [if_neg hpercent]
      rfl
    · simp only [parse, if_neg hzero, if_neg hpercent]

-- ---------------------------------------------------------------------------
-- The whole call
-- ---------------------------------------------------------------------------

/-- Text behind text is one text. -/
theorem emit_append (s₁ : State) (hi : s₁.i = s.i + t.length) (hbuf : s₁.buf = (s.emit len t).buf) :
    (s₁.emit len t').buf = (s.emit len (t ++ t')).buf := by
  simp only [State.emit] at hbuf ⊢
  by_cases hlt : s.i < len
  · rw [if_pos hlt] at hbuf ⊢
    rw [hbuf, hi, List.take_append]
    by_cases hlt' : s.i + t.length < len
    · rw [if_pos hlt', List.take_of_length_le (by omega), Memory.blit_append, Nat.sub_add_eq]
    · rw [if_neg hlt', Nat.sub_eq_zero_of_le (show len - s.i ≤ t.length by omega), List.take_zero,
        List.append_nil]
  · rw [if_neg hlt] at hbuf
    rw [if_neg (by omega), if_neg hlt, hbuf]

/-- The loop from anywhere in a format on: its rounds are enough, and its checks succeed. -/
theorem loop_safe (len : Nat) (fmt : List UInt8) (hj : s.j ≤ fmt.length) (hn : fmt.length < s.j + n)
    (hplain : ∀ p ∈ parse fmt n s.j, p.Plain) :
    ∃ s', iterate (formatBodyChecked A len fmt) n s = some (some s') ∧
      iterate (formatBody A len fmt) n s = some s' ∧
      s'.i = s.i + (spell A s.k (parse fmt n s.j)).length ∧
      s'.buf = (s.emit len (spell A s.k (parse fmt n s.j))).buf := by
  induction n generalizing s with
  | zero => omega
  | succ n ih =>
    rcases round_safe (A := A) len hj hplain with
      ⟨hchecked, hbody, hparse⟩ | ⟨p, s₁, hchecked, hbody, hparse, hafter, hbound, hspelled⟩
    · refine ⟨s, iterate_succ_inr hchecked n, iterate_succ_inr hbody n, ?_, ?_⟩
      · rw [hparse]
        rfl
      · rw [hparse, spell]
        simp only [State.emit, List.take_nil, Memory.blit_nil, ite_self]
    · rw [hparse] at hplain
      obtain ⟨s', hchecked', hloop, hi, hbuf⟩ :=
        ih hbound (by omega) fun q hq => hplain q (List.mem_cons_of_mem p hq)
      refine ⟨s', ?_, ?_, ?_, ?_⟩
      · rw [iterate_succ_inl hchecked, hchecked']
      · rw [iterate_succ_inl hbody, hloop]
      · rw [hi, hspelled.i, hspelled.k, hparse, spell, List.length_append, Nat.add_assoc]
      · rw [hbuf, hspelled.k, hparse, spell]
        exact emit_append s₁ hspelled.i hspelled.buf

/-- A call of `vsnprintf` on a format. -/
structure SafeCall (A : Args) (len : Nat) (fmt : CStr) (buf : Memory) (r : Output) : Prop where
  returns : vsnprintf A len fmt.chars buf = some r
  /-- No access was out of bounds. -/
  checked : vsnprintfChecked A len fmt.chars buf = some r
  outside : ∀ x, len ≤ x → r.buf x = buf x
  count : r.ret = toInt (spell A 0 (pieces fmt.chars)).length
  text : r.text = (spell A 0 (pieces fmt.chars)).take (len - 1)
  terminated : 0 < len → r.buf (min (spell A 0 (pieces fmt.chars)).length (len - 1)) = 0

/-- The buffer at the end: the text that fits, and the terminator behind it. -/
theorem terminate_text (len : Nat) (t : List UInt8) (buf : Memory) :
    let out := terminate len t.length (if 0 < len then buf.blit 0 (t.take len) else buf)
    (∀ x, len ≤ x → out x = buf x) ∧ out.slice 0 (min t.length (len - 1)) = t.take (len - 1) ∧
      (0 < len → out (min t.length (len - 1)) = 0) := by
  rcases Nat.eq_zero_or_pos len with rfl | hpos
  · rw [if_neg (Nat.lt_irrefl 0), terminate_zero, Nat.zero_sub, Nat.min_zero, List.take_zero]
    exact ⟨fun _ _ => rfl, rfl, fun h => absurd h (Nat.lt_irrefl 0)⟩
  rw [if_pos hpos, terminate_eq hpos]
  have hlen : (t.take len).length = min len t.length := List.length_take
  refine ⟨?_, ?_, ?_⟩
  · intro x hx
    rw [Memory.blit_outside (by rw [List.length_singleton]; omega), Memory.blit_outside (by omega)]
  · have hslice := Memory.slice_blit_within (m := buf) (a := 0) (k := 0) (l := t.take len)
      (n := min t.length (len - 1)) (by omega)
    rw [List.drop_zero, List.take_take] at hslice
    rw [Memory.slice_blit_of_disjoint (.inl (Nat.zero_add _).le), hslice]
    rcases Nat.le_total t.length (len - 1) with hle | hle
    · rw [List.take_of_length_le (by omega), List.take_of_length_le hle]
    · rw [Nat.min_eq_right hle, Nat.min_eq_left (Nat.sub_le len 1)]
  · intro _
    have hzero := Memory.blit_inside (m := buf.blit 0 (t.take len)) (a := min t.length (len - 1))
      (l := [0]) (i := 0) Nat.one_pos
    rwa [Nat.add_zero] at hzero

/-- `vsnprintf` is safe on every format without `c` and `g`, also on one that is not well formed. -/
theorem vsnprintf_safe (A : Args) (len : Nat) (fmt : CStr) (buf : Memory)
    (h : ∀ p ∈ pieces fmt.chars, p.Plain) : ∃ r, SafeCall A len fmt buf r := by
  obtain ⟨s, hchecked, hloop, hi, hbuf⟩ :=
    loop_safe (A := A) len fmt.chars (n := fmt.chars.length + 1)
      (s := ⟨0, 0, 0, [], buf⟩) (Nat.zero_le _) (by simp) h
  change s.i = 0 + (spell A 0 (pieces fmt.chars)).length at hi
  change s.buf = if 0 < len then buf.blit 0 ((spell A 0 (pieces fmt.chars)).take len) else buf at hbuf
  rw [Nat.zero_add] at hi
  obtain ⟨houtside, htext, hterminated⟩ := terminate_text len (spell A 0 (pieces fmt.chars)) buf
  rw [← hi, ← hbuf] at houtside htext hterminated
  have hout : terminateChecked len s.i s.buf = _ := terminateChecked_eq s.i s.buf
  refine ⟨⟨toInt s.i, s.took, terminate len s.i s.buf,
    (terminate len s.i s.buf).slice 0 (min s.i (len - 1))⟩, ?_, ?_, houtside, congrArg toInt hi, htext, ?_⟩
  · rw [vsnprintf, hloop]
    rfl
  · rw [vsnprintfChecked, hchecked, Option.join_some, Option.bind_some, hout]
    rfl
  · rw [← hi]
    exact hterminated

/-- A format that ends in the middle of a conversion. -/
theorem incomplete_clean : (0 : UInt8) ∉ "%d %l".toList.map Char.toUInt8 := by decide

/-- `%d` and a `%` with a length modifier that nothing follows, in a buffer of three bytes. -/
theorem vsnprintf_safe_incomplete :
    (∀ p ∈ pieces ("%d %l".toList.map Char.toUInt8), p.Plain) ∧
      ∃ r, SafeCall newlineNumber 3 ⟨"%d %l".toList.map Char.toUInt8, incomplete_clean⟩ (fun _ => 0) r := by
  have hplain : ∀ p ∈ pieces ("%d %l".toList.map Char.toUInt8), p.Plain := by
    intro p hp
    have hpieces : pieces ("%d %l".toList.map Char.toUInt8) =
        [.conv .UNDEF .d, .lit ' '.toUInt8, .lit '%'.toUInt8] := by decide
    rw [hpieces] at hp
    have hkind : p = .conv .UNDEF .d ∨ p = .lit ' '.toUInt8 ∨ p = .lit '%'.toUInt8 := by simpa using hp
    rcases hkind with rfl | rfl | rfl <;> exact ⟨by decide, fun cls => by cases cls <;> decide⟩
  exact ⟨hplain, vsnprintf_safe newlineNumber 3 ⟨_, incomplete_clean⟩ (fun _ => 0) hplain⟩

end Frosk.Stdio

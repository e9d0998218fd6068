import Mathlib.Tactic
import Frosk.Stdio.Definitions

/-!
# Formatting and the size of the buffer

Two runs of `vsnprintf` on one format and one argument list, under two lengths.
A format is a list of items, literals and conversions; one round of the loop is
one item (`formatBody_item`).

Every conversion takes its argument whether or not its text fits, except `c`,
which takes none when the output is full. `formats_alike_iff` : two lengths give
the same count, the same arguments and one text cut off at two places exactly
when no `c` starts between them. For the two passes of `fprintf` the buffer then
holds the whole text, if that is shorter than the length `vsprintf` passes on.
-/

namespace Frosk.Stdio

open Lib

-- ---------------------------------------------------------------------------
-- Formats
-- ---------------------------------------------------------------------------

inductive Conv where
  | c | s | d | i | u | x | X | o | p | percent
deriving DecidableEq, Repr

def Conv.letter : Conv → UInt8
  | c => 'c'.toUInt8
  | s => 's'.toUInt8
  | d => 'd'.toUInt8
  | i => 'i'.toUInt8
  | u => 'u'.toUInt8
  | x => 'x'.toUInt8
  | X => 'X'.toUInt8
  | o => 'o'.toUInt8
  | p => 'p'.toUInt8
  | percent => '%'.toUInt8

/-- The length modifier of a class. -/
def SizeClass.letters : SizeClass → List UInt8
  | UNDEF => []
  | HALF => ['h'.toUInt8]
  | HALF_HALF => ['h'.toUInt8, 'h'.toUInt8]
  | LONG => ['l'.toUInt8]
  | LONG_LONG => ['l'.toUInt8, 'l'.toUInt8]
  | LONG_DBL => ['L'.toUInt8]
  | MAX => ['j'.toUInt8]
  | SIZE => ['z'.toUInt8]
  | PTRDIFF => ['t'.toUInt8]

/-- A literal is any byte but the terminator and `%`. -/
inductive Item where
  | lit (b : UInt8) (hzero : b ≠ 0) (hpercent : b ≠ '%'.toUInt8)
  | conv (cls : SizeClass) (ty : Conv)

def Item.bytes : Item → List UInt8
  | lit b _ _ => [b]
  | conv cls ty => '%'.toUInt8 :: (cls.letters ++ [ty.letter])

def render (items : List Item) : List UInt8 := items.flatMap Item.bytes

-- ---------------------------------------------------------------------------
-- What the items stand for
-- ---------------------------------------------------------------------------

/-- The arguments of an item. -/
def Item.takes : Item → Nat
  | lit _ _ _ => 0
  | conv _ .percent => 0
  | conv _ _ => 1

def Item.isChar : Item → Bool
  | conv _ .c => true
  | _ => false

/-- The text of a conversion of the argument `v`. -/
def Conv.text (A : Args) (cls : SizeClass) (v : UInt64) : Conv → List UInt8
  | c => [v.toUInt8]
  | s => (A.str v).chars
  | d => formatInt cls 10 'a'.toNat v
  | i => formatInt cls 10 'a'.toNat v
  | u => formatUint cls 10 'a'.toNat v
  | x => formatUint cls 0x10 'a'.toNat v
  | X => formatUint cls 0x10 'A'.toNat v
  | o => formatUint cls 8 'a'.toNat v
  | p => pointerText v
  | percent => ['%'.toUInt8]

/-- The text of an item whose argument is the one with the number `k`. -/
def Item.text (A : Args) (k : Nat) : Item → List UInt8
  | lit b _ _ => [b]
  | conv cls ty => ty.text A cls (A.arg k)

/-- The whole text: every item with its own arguments. -/
def expand (A : Args) : Nat → List Item → List UInt8
  | _, [] => []
  | k, it :: items => it.text A k ++ expand A (k + it.takes) items

variable {A : Args} {len len₁ len₂ : Nat} {it : Item} {items : List Item} {s s₁ s₂ : State}

/-- The argument of an item, which a `c` that is not stored leaves. -/
def State.take (len j : Nat) (it : Item) (s : State) : State :=
  if it.takes = 1 ∧ (it.isChar = true → s.i < len) then s.vaArg j else s

/-- What one round does for an item. -/
def advance (A : Args) (len : Nat) (s : State) (it : Item) : State :=
  { (s.take len s.j it).emit len (it.text A s.k) with j := s.j + it.bytes.length }

/-- The characters behind a prefix. -/
theorem charAt_append (pre l : List UInt8) (n : Nat) :
    charAt (pre ++ l) (pre.length + n) = charAt l n := by
  rw [charAt, charAt, List.getD_eq_getElem?_getD, List.getD_eq_getElem?_getD,
    List.getElem?_append_right (by omega), Nat.add_sub_cancel_left]

/-- `get_size_class` reads the modifier and leaves the index at the letter. -/
theorem getSizeClass_conv (pre post : List UInt8) (cls : SizeClass) (ty : Conv) :
    getSizeClass (pre ++ ((Item.conv cls ty).bytes ++ post)) pre.length =
      (cls, pre.length + (1 + cls.letters.length)) := by
  rw [getSizeClass, charAt_append, charAt_append]
  cases cls <;> cases ty <;> rfl

/-- The letter of a conversion stands behind its size class. -/
theorem charAt_letter (pre post : List UInt8) (cls : SizeClass) (ty : Conv) :
    charAt (pre ++ ((Item.conv cls ty).bytes ++ post)) (pre.length + (1 + cls.letters.length)) =
      ty.letter := by
  rw [charAt_append]
  cases cls <;> rfl

/-- A conversion takes its argument. -/
theorem take_arg {j : Nat} (h : it.takes = 1) (hi : it.isChar = true → s.i < len) :
    s.take len j it = s.vaArg j := if_pos ⟨h, hi⟩

/-- A character that is not stored takes none. -/
theorem take_full {j : Nat} (h : it.isChar = true) (hi : ¬ s.i < len) : s.take len j it = s :=
  if_neg fun hc => hi (hc.2 h)

/-- The branch of the `switch` for each conversion. -/
theorem convert_conv {fmt : List UInt8} {cls : SizeClass} {ty : Conv} {j : Nat}
    (h : charAt fmt s.j = ty.letter) :
    convert A len fmt j cls s =
      (s.take len j (.conv cls ty)).emit len ((Item.conv cls ty).text A s.k) := by
  unfold convert
  rw [h]
  cases ty with
  | c =>
    by_cases hi : s.i < len
    · rw [take_arg rfl fun _ => hi]
      exact if_pos hi
    · rw [take_full rfl hi]
      exact if_neg hi
  | percent => rfl
  | _ =>
    refine Eq.trans ?_ (congrArg (State.emit len _) (take_arg ?_ ?_).symm)
    · rfl
    · rfl
    · exact fun hc => (Bool.false_ne_true hc).elim

/-- A character that is no percent is copied. -/
theorem format_lit {fmt : List UInt8} {b : UInt8} (hb : charAt fmt s.j = b)
    (hpercent : b ≠ '%'.toUInt8) : format A len fmt s = s.emit len [b] := by
  rw [format, hb, if_neg hpercent]

/-- A conversion prints its text. -/
theorem format_conv {fmt : List UInt8} {cls : SizeClass} {ty : Conv} {j : Nat}
    (hpercent : charAt fmt s.j = '%'.toUInt8) (hclass : getSizeClass fmt s.j = (cls, j))
    (hletter : charAt fmt j = ty.letter) :
    format A len fmt s =
      { (s.take len s.j (.conv cls ty)).emit len ((Item.conv cls ty).text A s.k) with j := j } := by
  rw [format, if_pos hpercent, hclass]
  refine (convert_conv (s := { s with j := j }) hletter).trans ?_
  unfold State.take
  split <;> rfl

/-- One round of the loop at the start of an item. -/
theorem formatBody_item {pre post : List UInt8} (hj : s.j = pre.length) :
    formatBody A len (pre ++ (it.bytes ++ post)) s = .inl (advance A len s it) := by
  cases it with
  | lit b hzero hpercent =>
    have hb : charAt (pre ++ ([b] ++ post)) s.j = b := by
      rw [hj]
      exact charAt_append pre ([b] ++ post) 0
    rw [formatBody, Item.bytes, format_lit hb hpercent, if_neg (by rw [hb]; exact hzero)]
    rfl
  | conv cls ty =>
    have hpercent : charAt (pre ++ ((Item.conv cls ty).bytes ++ post)) s.j = '%'.toUInt8 := by
      rw [hj]
      exact charAt_append pre _ 0
    have hclass := getSizeClass_conv pre post cls ty
    rw [← hj] at hclass
    rw [formatBody, format_conv hpercent hclass (hj ▸ charAt_letter pre post cls ty),
      if_neg (by rw [hpercent]; decide)]
    have hlen : s.j + (1 + cls.letters.length) + 1 = s.j + (Item.conv cls ty).bytes.length := by
      rw [Item.bytes, List.length_cons, List.length_append, List.length_singleton]
      omega
    rw [advance, ← hlen]

-- ---------------------------------------------------------------------------
-- Two runs
-- ---------------------------------------------------------------------------

/-- The runs under two lengths: the same counts and arguments, and the same characters where both
store. -/
structure Alike (len₁ : Nat) (s₁ s₂ : State) : Prop where
  i : s₁.i = s₂.i
  j : s₁.j = s₂.j
  k : s₁.k = s₂.k
  took : s₁.took = s₂.took
  buf : ∀ x < s₁.i, x < len₁ → s₁.buf x = s₂.buf x

/-- No `c` starts at a place in the text from `len₁` on and before `len₂`; the items are those at
the place `i`, with the arguments from `k` on. -/
def NoCharBetween (A : Args) (len₁ len₂ i k : Nat) (items : List Item) : Prop :=
  ∀ pre it post, items = pre ++ it :: post → it.isChar = true →
    i + (expand A k pre).length < len₁ ∨ len₂ ≤ i + (expand A k pre).length

/-- One item more. -/
theorem noCharBetween_cons {i k : Nat} :
    NoCharBetween A len₁ len₂ i k (it :: items) ↔
      (it.isChar = true → i < len₁ ∨ len₂ ≤ i) ∧
        NoCharBetween A len₁ len₂ (i + (it.text A k).length) (k + it.takes) items := by
  constructor
  · intro h
    refine ⟨fun hc => h [] it items rfl hc, fun pre it' post heq hc => ?_⟩
    have hplace := h (it :: pre) it' post (congrArg (it :: ·) heq) hc
    rwa [expand, List.length_append, ← Nat.add_assoc] at hplace
  · rintro ⟨hfirst, hrest⟩ pre it' post heq hc
    cases pre with
    | nil =>
      obtain ⟨rfl, -⟩ := List.cons.inj heq
      exact hfirst hc
    | cons _ pre =>
      obtain ⟨rfl, hitems⟩ := List.cons.inj heq
      rw [expand, List.length_append, ← Nat.add_assoc]
      exact hrest pre it' post hitems hc

/-- Behind both lengths there is nothing to ask for. -/
theorem noCharBetween_behind {i k : Nat} (h : len₂ ≤ i) : NoCharBetween A len₁ len₂ i k items :=
  fun _ _ _ _ _ => .inr (by omega)

/-- The conversion of a character takes one argument. -/
theorem isChar_takes (h : it.isChar = true) : it.takes = 1 := by
  cases it with
  | lit b h₀ h₁ => cases h
  | conv cls ty => cases ty <;> first | rfl | cases h

theorem isChar_text {k : Nat} (h : it.isChar = true) : (it.text A k).length = 1 := by
  cases it with
  | lit b h₀ h₁ => rfl
  | conv cls ty => cases ty <;> first | rfl | cases h

/-- Other items take none or one. -/
theorem takes_cases (it : Item) : it.takes = 0 ∨ it.takes = 1 := by
  cases it with
  | lit b h₀ h₁ => exact .inl rfl
  | conv cls ty => cases ty <;> first | exact .inr rfl | exact .inl rfl

/-- An item that takes none leaves the arguments. -/
theorem take_none {j : Nat} (h : it.takes = 0) : s.take len j it = s :=
  if_neg fun hc => by omega

/-- Taking an argument leaves the place. -/
theorem take_i {j : Nat} : (s.take len j it).i = s.i := by
  unfold State.take
  split <;> rfl

theorem take_buf {j : Nat} : (s.take len j it).buf = s.buf := by
  unfold State.take
  split <;> rfl

/-- An item moves the place on by its text. -/
theorem advance_i (A : Args) (len : Nat) (s : State) (it : Item) :
    (advance A len s it).i = s.i + (it.text A s.k).length := by
  simp only [advance, State.emit, take_i]

theorem advance_buf : (advance A len s it).buf =
    if s.i < len then s.buf.blit s.i ((it.text A s.k).take (len - s.i)) else s.buf := by
  simp only [advance, State.emit, take_i, take_buf]

/-- An item that is not a `c` behind the end takes its arguments. -/
theorem advance_k (hi : it.isChar = true → s.i < len) :
    (advance A len s it).k = s.k + it.takes := by
  rcases takes_cases it with h | h
  · simp only [advance, take_none h, State.emit, h, Nat.add_zero]
  · simp only [advance, take_arg h hi, State.emit, State.vaArg, h]

/-- An item takes at most one argument. -/
theorem advance_took (A : Args) (len : Nat) (s : State) (it : Item) :
    (advance A len s it).took = s.took ∨ (advance A len s it).took = s.took ++ [(s.j, s.k)] := by
  simp only [advance, State.emit, State.take]
  split
  · exact .inr rfl
  · exact .inl rfl

/-- No item is empty. -/
theorem bytes_pos (it : Item) : 0 < it.bytes.length := by
  cases it with
  | lit b h₀ h₁ => exact Nat.zero_lt_one
  | conv cls ty => exact Nat.succ_pos _

/-- A round keeps two runs alike, unless it is for a `c` that only one of them stores. -/
theorem advance_alike (hle : len₁ ≤ len₂) (h : Alike len₁ s₁ s₂)
    (hc : it.isChar = true → s₁.i < len₁ ∨ len₂ ≤ s₁.i) :
    Alike len₁ (advance A len₁ s₁ it) (advance A len₂ s₂ it) := by
  have hi := h.i
  have hcond : (it.isChar = true → s₁.i < len₁) ↔ (it.isChar = true → s₂.i < len₂) := by
    refine forall_congr' ?_
    intro hchar
    have := hc hchar
    omega
  have htake : (s₁.take len₁ s₁.j it).k = (s₂.take len₂ s₂.j it).k ∧
      (s₁.take len₁ s₁.j it).took = (s₂.take len₂ s₂.j it).took := by
    unfold State.take
    by_cases htakes : it.takes = 1 ∧ (it.isChar = true → s₁.i < len₁)
    · rw [if_pos htakes, if_pos ⟨htakes.1, hcond.mp htakes.2⟩]
      simp only [State.vaArg, h.j, h.k, h.took, and_self]
    · rw [if_neg htakes, if_neg fun hn => htakes ⟨hn.1, hcond.mpr hn.2⟩]
      exact ⟨h.k, h.took⟩
  refine ⟨?_, ?_, htake.1, htake.2, ?_⟩
  · rw [advance_i, advance_i, h.i, h.k]
  · simp only [advance, h.j]
  · intro x hx hlen
    rw [advance_i] at hx
    rw [advance_buf, advance_buf, ← h.i, ← h.k]
    by_cases hold : x < s₁.i
    · -- stored before
      have hkeep : ∀ {len : Nat} {s : State}, s.i = s₁.i →
          (if s₁.i < len then s.buf.blit s₁.i ((it.text A s₁.k).take (len - s₁.i)) else s.buf) x =
            s.buf x := by
        intro len s _
        split
        · exact Memory.blit_outside (.inl hold)
        · rfl
      rw [hkeep rfl, hkeep h.i.symm]
      exact h.buf x hold hlen
    · obtain ⟨n, rfl⟩ := Nat.exists_eq_add_of_le (Nat.le_of_not_lt hold)
      rw [if_pos (by omega), if_pos (by omega), Memory.blit_inside (by rw [List.length_take]; omega),
        Memory.blit_inside (by rw [List.length_take]; omega), List.getElem_take, List.getElem_take]

/-- The loop over the items that are left. -/
theorem loop_items (A : Args) (len : Nat) (items : List Item) {pre : List UInt8} (hj : s.j = pre.length) :
    iterate (formatBody A len (pre ++ render items)) ((render items).length + 1) s =
      some (items.foldl (advance A len) s) := by
  induction items generalizing pre s with
  | nil =>
    have hend : charAt (pre ++ render []) s.j = 0 := by
      rw [hj]
      exact charAt_append pre [] 0
    have hstop : formatBody A len (pre ++ render []) s = .inr s := if_pos hend
    exact iterate_succ_inr hstop 0
  | cons it items ih =>
    have hrender : render (it :: items) = it.bytes ++ render items := List.flatMap_cons
    have hstart : (advance A len s it).j = (pre ++ it.bytes).length := by
      rw [List.length_append, ← hj]
      rfl
    have hnext := ih hstart
    rw [List.append_assoc] at hnext
    rw [hrender, iterate_succ_inl (formatBody_item hj)]
    refine iterate_mono hnext ?_
    have hpos := bytes_pos it
    rw [List.length_append]
    omega

/-- What the rest of a run takes, it takes for later conversions. -/
theorem run_took (A : Args) (len : Nat) (items : List Item) (s : State) :
    ∃ l, (items.foldl (advance A len) s).took = s.took ++ l ∧ ∀ e ∈ l, s.j ≤ e.1 := by
  induction items generalizing s with
  | nil => exact ⟨[], (List.append_nil _).symm, nofun⟩
  | cons it items ih =>
    obtain ⟨l, hl, hlater⟩ := ih (advance A len s it)
    have hj : s.j ≤ (advance A len s it).j := Nat.le_add_right _ _
    rcases advance_took A len s it with htook | htook
    · exact ⟨l, by rw [List.foldl_cons, hl, htook], fun e he => hj.trans (hlater e he)⟩
    · refine ⟨(s.j, s.k) :: l, ?_, ?_⟩
      · rw [List.foldl_cons, hl, htook, List.append_assoc, List.singleton_append]
      · intro e he
        rcases List.mem_cons.mp he with rfl | he
        · exact le_rfl
        · exact hj.trans (hlater e he)

/-- Two runs with lengths that the characters do not tell apart go alike. -/
theorem run_alike (hle : len₁ ≤ len₂) (h : Alike len₁ s₁ s₂)
    (hc : NoCharBetween A len₁ len₂ s₁.i s₁.k items) :
    Alike len₁ (items.foldl (advance A len₁) s₁) (items.foldl (advance A len₂) s₂) := by
  induction items generalizing s₁ s₂ with
  | nil => exact h
  | cons it items ih =>
    obtain ⟨hfirst, hrest⟩ := noCharBetween_cons.mp hc
    refine ih (advance_alike hle h hfirst) ?_
    rw [advance_i]
    by_cases hbehind : len₂ ≤ s₁.i
    · exact noCharBetween_behind (by omega)
    · rw [advance_k fun hchar => (hfirst hchar).resolve_right hbehind]
      exact hrest

/-- The first `c` that only one of the runs stores: the other leaves its argument. -/
theorem run_differs (hle : len₁ ≤ len₂) (h : Alike len₁ s₁ s₂)
    (hc : ¬ NoCharBetween A len₁ len₂ s₁.i s₁.k items) :
    (items.foldl (advance A len₁) s₁).took ≠ (items.foldl (advance A len₂) s₂).took := by
  induction items generalizing s₁ s₂ with
  | nil => exact absurd (fun pre it post heq _ => absurd heq (by simp)) hc
  | cons it items ih =>
    have hin : s₁.i < len₂ := by
      by_contra hout
      exact hc (noCharBetween_behind (Nat.le_of_not_lt hout))
    by_cases hfirst : it.isChar = true → s₁.i < len₁ ∨ len₂ ≤ s₁.i
    · refine ih (advance_alike hle h hfirst) fun hrest => hc (noCharBetween_cons.mpr ⟨hfirst, ?_⟩)
      rw [advance_i, advance_k fun hchar => (hfirst hchar).resolve_right (by omega)] at hrest
      exact hrest
    · obtain ⟨hchar, hbetween⟩ := Classical.not_imp.mp hfirst
      intro heq
      have hi := h.i
      obtain ⟨l₁, hl₁, hlater⟩ := run_took A len₁ items (advance A len₁ s₁ it)
      obtain ⟨l₂, hl₂, -⟩ := run_took A len₂ items (advance A len₂ s₂ it)
      have hleft : (advance A len₁ s₁ it).took = s₁.took := by
        simp only [advance, take_full hchar (show ¬ s₁.i < len₁ by omega), State.emit]
      have htaken : (advance A len₂ s₂ it).took = s₂.took ++ [(s₂.j, s₂.k)] := by
        simp only [advance, take_arg (isChar_takes hchar) fun _ => (show s₂.i < len₂ by omega),
          State.emit, State.vaArg]
      rw [List.foldl_cons, List.foldl_cons, hl₁, hl₂, hleft, htaken, h.took, List.append_assoc] at heq
      have hnext := hlater (s₂.j, s₂.k) (by rw [List.append_cancel_left heq]; exact List.mem_cons_self)
      have hj : (advance A len₁ s₁ it).j = s₂.j + it.bytes.length := by rw [← h.j]; rfl
      have hpos := bytes_pos it
      omega

/-- Without room nothing is stored. -/
theorem run_unused : (items.foldl (advance A 0) s).buf = s.buf := by
  induction items generalizing s with
  | nil => rfl
  | cons it items ih => rw [List.foldl_cons, ih, advance_buf, if_neg (Nat.not_lt_zero _)]

/-- A text that fits is stored as it is. -/
theorem run_whole (h : s.i + (expand A s.k items).length ≤ len) :
    (items.foldl (advance A len) s).i = s.i + (expand A s.k items).length ∧
      (items.foldl (advance A len) s).buf = s.buf.blit s.i (expand A s.k items) := by
  induction items generalizing s with
  | nil => exact ⟨rfl, Memory.blit_nil.symm⟩
  | cons it items ih =>
    rw [expand, List.length_append] at h ⊢
    have hstored : it.isChar = true → s.i < len := by
      intro hchar
      have hone : (it.text A s.k).length = 1 := isChar_text hchar
      omega
    have hk := advance_k (A := A) hstored
    have hi := advance_i A len s it
    have hbuf : (advance A len s it).buf = s.buf.blit s.i (it.text A s.k) := by
      rw [advance_buf]
      split
      · rw [List.take_of_length_le (by omega)]
      · rw [List.eq_nil_of_length_eq_zero (show (it.text A s.k).length = 0 by omega), Memory.blit_nil]
    obtain ⟨hcount, hrest⟩ := ih (s := advance A len s it) (by rw [hi, hk]; omega)
    rw [hi, hk] at hcount hrest
    constructor
    · rw [List.foldl_cons, hcount, Nat.add_assoc]
    · rw [List.foldl_cons, hrest, hbuf, Memory.blit_append]

-- ---------------------------------------------------------------------------
-- The calls
-- ---------------------------------------------------------------------------

/-- With no buffer nothing is terminated. -/
theorem terminate_zero (i : Nat) (buf : Memory) : terminate 0 i buf = buf := by
  simp only [terminate, Nat.not_lt_zero, Nat.lt_irrefl, if_false]
  split
  · rename_i hi
    rw [if_neg (by omega)]
  · rfl

/-- The terminator is behind the text that is stored. -/
theorem terminate_eq (h : 0 < len) (i : Nat) (buf : Memory) :
    terminate len i buf = buf.blit (min i (len - 1)) [0] := by
  unfold terminate
  rcases Nat.lt_trichotomy i len with hi | rfl | hi
  · rw [if_neg hi.ne, if_pos hi, Nat.min_eq_left (by omega)]
  · rw [if_pos rfl, if_pos h, if_neg (Nat.lt_irrefl i), if_pos h, Nat.min_eq_right (Nat.sub_le i 1)]
    exact Memory.blit_cover le_rfl
  · rw [if_neg hi.ne', if_neg (Nat.not_lt.mpr hi.le), if_pos h, Nat.min_eq_right (by omega)]

/-- The state at the end of the loop. -/
def formatted (A : Args) (len : Nat) (items : List Item) (buf : Memory) : State :=
  items.foldl (advance A len) ⟨0, 0, 0, [], buf⟩

/-- `vsnprintf` returns on every format. -/
theorem vsnprintf_items (A : Args) (len : Nat) (items : List Item) (buf : Memory) :
    vsnprintf A len (render items) buf =
      let s := formatted A len items buf
      let out := terminate len s.i s.buf
      some ⟨toInt s.i, s.took, out, out.slice 0 (min s.i (len - 1))⟩ := by
  have hj : (⟨0, 0, 0, [], buf⟩ : State).j = ([] : List UInt8).length := rfl
  have hloop := loop_items A len items hj
  rw [List.nil_append] at hloop
  rw [vsnprintf, hloop]
  rfl

/-- Two calls that differ in their length and their buffer. -/
structure SameOutput (A : Args) (items : List Item) (len₁ len₂ : Nat) (buf₁ buf₂ : Memory)
    (r₁ r₂ : Output) : Prop where
  ret : r₁.ret = r₂.ret
  took : r₁.took = r₂.took
  text : r₁.text = r₂.text.take (len₁ - 1)
  /-- A buffer without room, which may be `NULL`, is left alone. -/
  unused : len₁ = 0 → r₁.buf = buf₁
  /-- The passes of `fprintf`: the buffer of the size returned and one holds the whole text. -/
  fits : len₁ = 0 → len₂ = INT_MAX → r₂.text = expand A 0 items ∧
    ∀ x : Nat, r₁.ret + 1 ≤ x → r₂.buf x = buf₂ x

def FormatsAlike (A : Args) (items : List Item) (len₁ len₂ : Nat) : Prop :=
  ∀ buf₁ buf₂, ∃ r₁ r₂, vsnprintf A len₁ (render items) buf₁ = some r₁ ∧
    vsnprintf A len₂ (render items) buf₂ = some r₂ ∧ SameOutput A items len₁ len₂ buf₁ buf₂ r₁ r₂

/-- A length below the limit of an int is returned. -/
theorem toInt_eq {n : Nat} (h : n ≤ INT_MAX) : toInt n = n := by
  have hsmall : n % 0x100000000 = n := Nat.mod_eq_of_lt (h.trans_lt (by decide))
  rw [toInt, hsmall, if_pos h]

variable {buf₁ buf₂ : Memory}

/-- At the start the two runs are alike. -/
theorem alike_start : Alike len₁ ⟨0, 0, 0, [], buf₁⟩ ⟨0, 0, 0, [], buf₂⟩ :=
  ⟨rfl, rfl, rfl, rfl, nofun⟩

/-- One text, cut off at two places. -/
theorem Alike.text (hle : len₁ ≤ len₂) (h : Alike len₁ s₁ s₂) :
    (terminate len₁ s₁.i s₁.buf).slice 0 (min s₁.i (len₁ - 1)) =
      ((terminate len₂ s₂.i s₂.buf).slice 0 (min s₂.i (len₂ - 1))).take (len₁ - 1) := by
  rcases Nat.eq_zero_or_pos len₁ with rfl | hpos
  · rw [Nat.zero_sub, Nat.min_zero, List.take_zero]
    rfl
  have hcut : min (len₁ - 1) (min s₁.i (len₂ - 1)) = min s₁.i (len₁ - 1) := by omega
  rw [terminate_eq hpos, terminate_eq (hpos.trans_le hle), ← h.i, Memory.slice_take, hcut]
  refine Memory.slice_congr ?_
  intro x hx
  rw [Memory.blit_outside (by omega), Memory.blit_outside (by omega)]
  exact h.buf (0 + x) (by omega) (by omega)

/-- A buffer with room for the whole text and the terminator. -/
theorem formatted_whole (buf : Memory) (h : (expand A 0 items).length < len) :
    let s := formatted A len items buf
    let out := terminate len s.i s.buf
    s.i = (expand A 0 items).length ∧ out.slice 0 (min s.i (len - 1)) = expand A 0 items ∧
      ∀ x, s.i < x → out x = buf x := by
  have hfits : (⟨0, 0, 0, [], buf⟩ : State).i + (expand A 0 items).length ≤ len :=
    (Nat.zero_add _).trans_le h.le
  obtain ⟨hi, hbuf⟩ : (formatted A len items buf).i = 0 + (expand A 0 items).length ∧
    (formatted A len items buf).buf = buf.blit 0 (expand A 0 items) := run_whole hfits
  rw [Nat.zero_add] at hi
  intro s out
  have hout : out = (buf.blit 0 (expand A 0 items)).blit (expand A 0 items).length [0] := by
    show terminate len s.i s.buf = _
    rw [terminate_eq (by omega), hi, hbuf, Nat.min_eq_left (by omega)]
  refine ⟨hi, ?_, ?_⟩
  · rw [hout, hi, Nat.min_eq_left (by omega),
      Memory.slice_blit_of_disjoint (.inl (Nat.zero_add _).le), Memory.slice_blit_self]
  · intro x hx
    rw [hi] at hx
    rw [hout, Memory.blit_outside (.inr hx), Memory.blit_outside (.inr (by omega))]

/-- Formatting depends on the length only through a `c` that one of the runs stores and the other
does not. -/
theorem formats_alike_iff (hle : len₁ ≤ len₂) :
    FormatsAlike A items len₁ len₂ ↔
      NoCharBetween A len₁ len₂ 0 0 items ∧
        (len₁ = 0 → len₂ = INT_MAX → (expand A 0 items).length < INT_MAX) := by
  constructor
  · intro h
    obtain ⟨r₁, r₂, h₁, h₂, hsame⟩ := h (fun _ => 0) (fun _ => 0)
    rw [vsnprintf_items] at h₁ h₂
    obtain rfl := Option.some.inj h₁
    obtain rfl := Option.some.inj h₂
    constructor
    · by_contra hbetween
      exact run_differs hle alike_start hbetween hsame.took
    · intro hzero hmax
      have hlen := congrArg List.length (hsame.fits hzero hmax).1
      rw [Memory.slice_length] at hlen
      have hmin := Nat.min_le_right (formatted A len₂ items fun _ => 0).i (len₂ - 1)
      have hpos : 0 < INT_MAX := by decide
      omega
  · rintro ⟨hbetween, hshort⟩ buf₁ buf₂
    have halike : Alike len₁ (formatted A len₁ items buf₁) (formatted A len₂ items buf₂) :=
      run_alike hle alike_start hbetween
    refine ⟨_, _, vsnprintf_items A len₁ items buf₁, vsnprintf_items A len₂ items buf₂, ?_⟩
    refine ⟨?_, halike.took, halike.text hle, ?_, ?_⟩
    · show toInt _ = toInt _
      rw [halike.i]
    · rintro rfl
      exact (terminate_zero _ _).trans run_unused
    · rintro rfl rfl
      obtain ⟨hi, htext, hbuf⟩ := formatted_whole buf₂ (hshort rfl rfl)
      refine ⟨htext, fun x hx => hbuf x ?_⟩
      have hret : toInt (formatted A 0 items buf₁).i = (expand A 0 items).length := by
        rw [halike.i, hi]
        exact toInt_eq (hshort rfl rfl).le
      have hx' : toInt (formatted A 0 items buf₁).i + 1 ≤ (x : Int) := hx
      omega

/-- A newline and a number. -/
def newlineNumber : Args :=
  ⟨fun k => if k = 0 then 10 else 100000, fun _ => ⟨[], CStr.clean_nil⟩, fun _ => []⟩

/-- `%c%ld` in buffers of three and of eight bytes, which both have room for the character. -/
theorem formats_alike_newline :
    3 ≤ 8 ∧ FormatsAlike newlineNumber [.conv .UNDEF .c, .conv .LONG .d] 3 8 := by
  have hplaces : NoCharBetween newlineNumber 3 8 0 0 [.conv .UNDEF .c, .conv .LONG .d] := by
    rw [noCharBetween_cons, noCharBetween_cons]
    exact ⟨fun _ => .inl (by decide), fun h => absurd h (by decide), fun pre _ _ h => absurd h (by simp)⟩
  exact ⟨by decide, (formats_alike_iff (by decide)).mpr ⟨hplaces, fun h => absurd h (by decide)⟩⟩

/-- `%c%d` with a newline and 100000: the sizing pass prints the newline as a number, and the second
pass stores eight bytes in a buffer of four. -/
theorem character_left_behind :
    ¬ ∀ (A : Args) (items : List Item) (len₁ len₂ : Nat), len₁ ≤ len₂ →
      FormatsAlike A items len₁ len₂ := by
  intro h
  obtain ⟨r₁, r₂, h₁, h₂, hsame⟩ := h newlineNumber [.conv .UNDEF .c, .conv .UNDEF .d] 0 INT_MAX
    (Nat.zero_le _) (fun _ => 0) (fun _ => 0)
  rw [vsnprintf_items] at h₁ h₂
  obtain rfl := Option.some.inj h₁
  obtain rfl := Option.some.inj h₂
  exact absurd hsame.ret (by decide)

end Frosk.Stdio

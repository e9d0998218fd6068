import Mathlib.Tactic
import Frosk.Lib.Bytes
import Frosk.Strings
import Frosk.UserHeap.Safety

/-!
# Copies of strings

`strdup` and `strndup` of `lib/cstd/src/string.c`, with `strlen`, `strnlen` and `memcpy`, on the
bytes of a process and the `malloc` of its heap. What `malloc` stores itself, in the headers of
chunks, is in the heap and not in the bytes.

`strdup` counts the terminator as a character of the string, copies it, and stores another one
behind it. That one is outside of the block exactly if the string with its terminator fills it
(`duplicates_iff`).
-/

namespace Frosk.Cstd

open Lib UserHeap

-- ---------------------------------------------------------------------------
-- Definitions
-- ---------------------------------------------------------------------------

/-- One round of a loop that counts while `P` holds. -/
def countBody (P : Nat → Prop) [DecidablePred P] (i : Nat) : Nat ⊕ Nat :=
  if P i then .inl (i + 1) else .inr i

def strlen (m : Memory) (a : Nat) (k : Nat) : Option Nat :=
  iterate (countBody fun i => m (a + i) ≠ 0) k 0

def strnlen (m : Memory) (a n : Nat) (k : Nat) : Option Nat :=
  iterate (countBody fun i => m (a + i) ≠ 0 ∧ i < n) k 0

/-- What a call returns and leaves, with the places of the bytes that it stored. -/
structure Copied where
  dst     : Nat
  mem     : Memory
  heap    : Heap
  written : List Nat

/-- The end of both functions: `len` characters are copied, and a terminator is stored behind. -/
def duplicate (m : Memory) (h : Heap) (dst src len : Nat) : Copied where
  dst := dst
  mem := Function.update (m.copy dst src len) (dst + len) 0
  heap := h
  written := (List.range len).map (dst + ·) ++ [dst + len]

/-- `strdup`. -/
def strdup (L : Layout) (m : Memory) (h : Heap) (src k : Nat) : Option Copied := do
  let n ← strlen m src k
  let len := n + 1
  let (dst, h) ← malloc L len h k
  some (duplicate m h dst src len)

/-- `strndup`. -/
def strndup (L : Layout) (m : Memory) (h : Heap) (src max k : Nat) : Option Copied := do
  let len ← strnlen m src max k
  let (dst, h) ← malloc L (len + 1) h k
  some (duplicate m h dst src len)

-- ---------------------------------------------------------------------------
-- What is expected
-- ---------------------------------------------------------------------------

/-- The string is in memory at `a`, with its terminator. -/
def StringAt (m : Memory) (a : Nat) (s : CStr) : Prop := m.slice a (s.chars.length + 1) = s.chars ++ [0]

/-- A request rounded up to 16 bytes. -/
def roundUp (n : Nat) : Nat := (n + 15) / 16 * 16

/-- `malloc` hands out a block for `n` bytes, which is apart from the `len` bytes at `src`. -/
structure HandsOut (L : Layout) (h : Heap) (n src len p : Nat) (h' : Heap) : Prop where
  call  : Settles (fun k => malloc L n h k) (p, h')
  null  : p ≠ NULL
  fits  : p + roundUp n ≤ wordSize
  apart : src + len ≤ p ∨ p + roundUp n ≤ src

/-- The call stores nothing outside of the block of `n` bytes, rounded up, that it returns, and the
string is there. -/
def Duplicates (call : Nat → Option Copied) (m : Memory) (n : Nat) (s : CStr) : Prop :=
  ∃ r, Settles call r ∧ (∀ a ∉ r.written, r.mem a = m a) ∧
    (∀ a ∈ r.written, r.dst ≤ a ∧ a < r.dst + roundUp n) ∧ StringAt r.mem r.dst s

variable {L : Layout} {m : Memory} {h h' : Heap} {src dst len n t max p : Nat} {s : CStr}

-- ---------------------------------------------------------------------------
-- Lengths
-- ---------------------------------------------------------------------------

/-- A loop that counts ends where its condition fails first. -/
theorem count_settles {P : Nat → Prop} [DecidablePred P] (hbelow : ∀ i < t, P i) (hend : ¬ P t) :
    Settles (fun k => iterate (countBody P) k 0) t := by
  suffices hloop : ∀ j ≤ t, Exits (countBody P) (t - j) t by
    have hall := hloop t le_rfl
    rw [Nat.sub_self] at hall
    exact settles_of_exits hall
  intro j hj
  induction j with
  | zero =>
    refine exits_of_inr ?_
    rw [Nat.sub_zero, countBody, if_neg hend]
  | succ j ih =>
    have hround : countBody P (t - (j + 1)) = .inl (t - j) := by
      rw [countBody, if_pos (hbelow _ (by omega))]
      exact congrArg Sum.inl (by omega)
    exact exits_of_inl hround (ih (by omega))

/-- A character of a string in memory. -/
theorem StringAt.char (hs : StringAt m src s) {i : Nat} (hi : i < s.chars.length) :
    m (src + i) = s.chars[i] := by
  have hget := congrArg (fun l => l[i]?) hs
  rw [Memory.slice_getElem? (by omega), List.getElem?_append_left hi, List.getElem?_eq_getElem hi] at hget
  exact Option.some.inj hget

/-- The terminator. -/
theorem StringAt.end (hs : StringAt m src s) : m (src + s.chars.length) = 0 := by
  have hget := congrArg (fun l => l[s.chars.length]?) hs
  rw [Memory.slice_getElem? (Nat.lt_succ_self _), List.getElem?_append_right le_rfl, Nat.sub_self] at hget
  exact Option.some.inj hget

/-- Before it no character is zero. -/
theorem StringAt.char_ne_zero (hs : StringAt m src s) {i : Nat} (hi : i < s.chars.length) :
    m (src + i) ≠ 0 := by
  rw [hs.char hi]
  exact fun hz => s.clean (hz ▸ List.getElem_mem hi)

/-- `strlen` comes to the terminator. -/
theorem strlen_settles (hs : StringAt m src s) : Settles (strlen m src) s.chars.length :=
  count_settles (fun _ hi => hs.char_ne_zero hi) (not_not_intro hs.end)

/-- `strnlen` comes to the terminator or to its bound. -/
theorem strnlen_settles (hs : StringAt m src s) (max : Nat) :
    Settles (strnlen m src max) (min max s.chars.length) := by
  refine count_settles (fun i hi => ⟨hs.char_ne_zero (by omega), by omega⟩) ?_
  rintro ⟨hchar, hlt⟩
  have hlen : min max s.chars.length = s.chars.length := by omega
  rw [hlen] at hchar
  exact hchar hs.end

-- ---------------------------------------------------------------------------
-- Copies
-- ---------------------------------------------------------------------------

/-- What `duplicate` stores: the characters and two terminators. -/
theorem duplicate_written {a : Nat} :
    a ∈ (duplicate m h dst src len).written ↔ dst ≤ a ∧ a ≤ dst + len := by
  rw [duplicate, List.mem_append, List.mem_map, List.mem_singleton]
  constructor
  · rintro (⟨i, hi, rfl⟩ | rfl)
    · rw [List.mem_range] at hi
      omega
    · omega
  · rintro ⟨hlow, hhigh⟩
    rcases Nat.lt_or_ge a (dst + len) with hlt | hge
    · exact .inl ⟨a - dst, List.mem_range.mpr (by omega), by omega⟩
    · exact .inr (by omega)

/-- Everything else is as before. -/
theorem duplicate_outside {a : Nat} (ha : a ∉ (duplicate m h dst src len).written) :
    (duplicate m h dst src len).mem a = m a := by
  rw [duplicate_written] at ha
  have hcopy : m.copy dst src len a = m a := Memory.copy_outside (by omega)
  rw [← hcopy]
  exact Function.update_of_ne (by omega) ..

/-- The characters are copied, and the terminator is behind them. -/
theorem duplicate_slice (m : Memory) (h : Heap) (hapart : src + len ≤ dst ∨ dst + len ≤ src) :
    (duplicate m h dst src len).mem.slice dst (len + 1) = m.slice src len ++ [0] := by
  rw [Memory.slice_append]
  congr 1
  · refine List.map_congr_left ?_
    intro i hi
    have hi : i < len := List.mem_range.mp hi
    have hcopy : m.copy dst src len (dst + i) = m (src + i) := Memory.copy_inside hi (by omega)
    rw [← hcopy]
    exact Function.update_of_ne (by omega) ..
  · exact congrArg (fun b => [b]) (Function.update_self ..)

theorem le_roundUp (n : Nat) : n ≤ roundUp n := by
  rw [roundUp]
  omega

/-- The calls, once their length is known. -/
theorem strdup_settles (hs : StringAt m src s) (hmalloc : HandsOut L h (s.chars.length + 1) src len p h') :
    Settles (strdup L m h src) (duplicate m h' p src (s.chars.length + 1)) :=
  (strlen_settles hs).bind (hmalloc.call.bind (settles_of_eq fun _ => rfl))

/-- `strndup` returns the duplicate, if `malloc` returns a block. -/
theorem strndup_settles (hs : StringAt m src s)
    (hmalloc : HandsOut L h (min max s.chars.length + 1) src len p h') :
    Settles (strndup L m h src max) (duplicate m h' p src (min max s.chars.length)) :=
  (strnlen_settles hs max).bind (hmalloc.call.bind (settles_of_eq fun _ => rfl))

/-- `strdup` stays in its block if the terminator it adds does. -/
theorem strdup_duplicates_iff (hs : StringAt m src s)
    (hmalloc : HandsOut L h (s.chars.length + 1) src (s.chars.length + 1) p h') :
    Duplicates (strdup L m h src) m (s.chars.length + 1) s ↔ (s.chars.length + 1) % 16 ≠ 0 := by
  have hcall := strdup_settles hs hmalloc
  constructor
  · rintro ⟨r, hr, -, hinside, -⟩
    obtain rfl := hr.unique hcall
    have hlast := (hinside _ (duplicate_written.mpr ⟨Nat.le_add_right .., le_rfl⟩)).2
    intro hmod
    have hblock : (duplicate m h' p src (s.chars.length + 1)).dst = p := rfl
    rw [hblock, roundUp] at hlast
    omega
  · intro hmod
    have hfit := le_roundUp (s.chars.length + 1)
    have hapart := hmalloc.apart
    refine ⟨_, hcall, fun a ha => duplicate_outside ha, fun a ha => ?_, ?_⟩
    · rw [duplicate_written] at ha
      refine ⟨ha.1, ?_⟩
      show a < p + roundUp (s.chars.length + 1)
      rw [roundUp] at *
      omega
    · -- the terminator of the copy is the one that was copied
      have hslice :=
        duplicate_slice m h' (show src + (s.chars.length + 1) ≤ p ∨ p + (s.chars.length + 1) ≤ src by omega)
      rw [Memory.slice_append, hs] at hslice
      exact (List.append_inj hslice (by simp)).1

/-- `strndup` stays in its block. -/
theorem strndup_duplicates (hs : StringAt m src s)
    (hmalloc : HandsOut L h (min max s.chars.length + 1) src (s.chars.length + 1) p h') :
    Duplicates (strndup L m h src max) m (min max s.chars.length + 1) (s.take max) := by
  have hfit := le_roundUp (min max s.chars.length + 1)
  have hapart := hmalloc.apart
  refine ⟨_, strndup_settles hs hmalloc, fun a ha => duplicate_outside ha, fun a ha => ?_, ?_⟩
  · rw [duplicate_written] at ha
    refine ⟨ha.1, ?_⟩
    show a < p + roundUp (min max s.chars.length + 1)
    omega
  · have hslice := duplicate_slice m h'
      (show src + min max s.chars.length ≤ p ∨ p + min max s.chars.length ≤ src by omega)
    have htaken : m.slice src (min max s.chars.length) = s.chars.take max := by
      have htake := congrArg (List.take (min max s.chars.length)) hs
      rw [Memory.slice_take, Nat.min_eq_left (by omega), List.take_append_of_le_length (by omega)] at htake
      rw [htake, ← List.take_take, List.take_length]
    have hlen : (s.take max).chars.length = min max s.chars.length := List.length_take
    rw [htaken] at hslice
    rw [StringAt, hlen]
    exact hslice

/-- **Duplication.** On a heap where `malloc` hands out the two blocks, `strdup` and `strndup` stay
in theirs and leave copies, if and only if the string and its terminator do not fill a number of
16 byte units. -/
theorem duplicates_iff {q : Nat} {h'' : Heap} (hs : StringAt m src s)
    (hdup : HandsOut L h (s.chars.length + 1) src (s.chars.length + 1) p h')
    (hndup : HandsOut L h (min max s.chars.length + 1) src (s.chars.length + 1) q h'') :
    Duplicates (strdup L m h src) m (s.chars.length + 1) s ∧
      Duplicates (strndup L m h src max) m (min max s.chars.length + 1) (s.take max) ↔
    (s.chars.length + 1) % 16 ≠ 0 := by
  rw [strdup_duplicates_iff hs hdup]
  exact and_iff_left (strndup_duplicates hs hndup)

/-- A heap before the first call. -/
def heapUnused : Heap := ⟨NULL, fun _ => ⟨NULL, 0⟩⟩

/-- A call of `malloc` that is known. -/
theorem handsOut_of_call {k : Nat} (hcall : (malloc L n h k).map Prod.fst = some p) (hnull : p ≠ NULL)
    (hfits : p + roundUp n ≤ wordSize) (hapart : src + len ≤ p ∨ p + roundUp n ≤ src) :
    ∃ h', HandsOut L h n src len p h' := by
  obtain ⟨⟨q, h'⟩, hmalloc, rfl⟩ := Option.map_eq_some_iff.mp hcall
  exact ⟨h', ⟨k, fun j hj => malloc_mono hmalloc hj⟩, hnull, hfits, hapart⟩

/-- The letters `a` and `b`. -/
def twoLetters : CStr := ⟨['a'.toUInt8, 'b'.toUInt8], by decide⟩

/-- Both letters of a string of two, with room for a second terminator. -/
theorem duplicates_two_letters :
    let m : Memory := Memory.blit (fun _ => 7) 0x100 (twoLetters.chars ++ [0])
    Duplicates (strdup .low m heapUnused 0x100) m 3 twoLetters ∧
      Duplicates (strndup .low m heapUnused 0x100 1) m 2 (twoLetters.take 1) := by
  intro m
  obtain ⟨h', hdup⟩ : ∃ h', HandsOut .low heapUnused 3 0x100 3 0x200020 h' :=
    handsOut_of_call (k := 1) (by decide) (by decide) (by decide) (by decide)
  obtain ⟨h'', hndup⟩ : ∃ h', HandsOut .low heapUnused 2 0x100 3 0x200020 h' :=
    handsOut_of_call (k := 1) (by decide) (by decide) (by decide) (by decide)
  have hs : StringAt m 0x100 twoLetters := Memory.slice_blit_self
  exact (duplicates_iff hs hdup hndup).mpr (by decide)

/-- Fifteen letters. -/
def fifteenLetters : CStr := ⟨List.replicate 15 'a'.toUInt8, by decide⟩

/-- The second terminator of fifteen letters is the first byte behind the block. -/
theorem fifteen_overrun :
    let m : Memory := Memory.blit (fun _ => 7) 0x100 (fifteenLetters.chars ++ [0])
    StringAt m 0x100 fifteenLetters ∧ (∃ h', HandsOut .low heapUnused 16 0x100 16 0x200020 h') ∧
      ¬ Duplicates (strdup .low m heapUnused 0x100) m 16 fifteenLetters := by
  intro m
  have hs : StringAt m 0x100 fifteenLetters := Memory.slice_blit_self
  obtain ⟨h', hdup⟩ : ∃ h', HandsOut .low heapUnused 16 0x100 16 0x200020 h' :=
    handsOut_of_call (k := 1) (by decide) (by decide) (by decide) (by decide)
  refine ⟨hs, ⟨h', hdup⟩, ?_⟩
  intro h
  exact (strdup_duplicates_iff hs hdup).mp h (by decide)

end Frosk.Cstd

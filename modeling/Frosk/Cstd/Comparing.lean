import Mathlib.Tactic
import Frosk.Lib.Bytes
import Frosk.Lib.Run
import Frosk.Strings

/-!
# Comparing strings

`strcmp` is the comparison of a linear order (`strcmp_order`): that of the strings with their
terminators, character by character.

`strncmp` of `lib/cstd/src/string.c` stops at a terminator if `*a` is one, which is the first
character of the string and not the one it is at. It agrees with `strcmp` as long as it leaves
before or at a terminator for another reason (`strncmp_agrees_iff`): the strings differ, the first
is empty, or the count ends the loop.
-/

namespace Frosk

open Lib

-- ---------------------------------------------------------------------------
-- strcmp
-- ---------------------------------------------------------------------------

/-- The result is -1, 0 or 1. -/
theorem strcmpChars_values (a b : List UInt8) :
    strcmpChars a b = -1 ∨ strcmpChars a b = 0 ∨ strcmpChars a b = 1 := by
  induction a generalizing b with
  | nil =>
    cases b with
    | nil => exact .inr (.inl rfl)
    | cons y b =>
      rw [strcmpChars]
      split_ifs <;> simp
  | cons x a ih =>
    cases b with
    | nil =>
      rw [strcmpChars]
      split_ifs <;> simp
    | cons y b =>
      rw [strcmpChars]
      split_ifs
      · exact .inr (.inr rfl)
      · exact .inl rfl
      · exact ih b

/-- Strings that compare equal are equal. -/
theorem strcmp_zero (a b : CStr) : strcmp a b = 0 ↔ a = b := by
  have hlt := strcmp_lt a b
  have hgt := strcmp_gt a b
  constructor
  · intro h
    rw [h] at hlt hgt
    refine CStr.key_inj (le_antisymm (not_lt.mp fun hba => ?_) (not_lt.mp fun hab => ?_))
    · exact absurd (hgt.mpr hba) (lt_irrefl 0)
    · exact absurd (hlt.mpr hab) (lt_irrefl 0)
  · rintro rfl
    have hnlt : ¬ strcmp a a < 0 := fun h => lt_irrefl _ (hlt.mp h)
    have hngt : ¬ 0 < strcmp a a := fun h => lt_irrefl _ (hgt.mp h)
    omega

/-- The other way round the sign changes. -/
theorem strcmp_swap (a b : CStr) : strcmp b a = -strcmp a b := by
  have hlt : strcmp b a < 0 ↔ 0 < strcmp a b := (strcmp_lt b a).trans (strcmp_gt a b).symm
  have hgt : 0 < strcmp b a ↔ strcmp a b < 0 := (strcmp_gt b a).trans (strcmp_lt a b).symm
  have hab : strcmp a b = -1 ∨ strcmp a b = 0 ∨ strcmp a b = 1 := strcmpChars_values a.chars b.chars
  have hba : strcmp b a = -1 ∨ strcmp b a = 0 ∨ strcmp b a = 1 := strcmpChars_values b.chars a.chars
  omega

/-- The order is transitive. -/
theorem strcmp_lt_trans {a b c : CStr} (hab : strcmp a b < 0) (hbc : strcmp b c < 0) :
    strcmp a c < 0 := by
  rw [strcmp_lt] at hab hbc ⊢
  exact hab.trans hbc

/-- **The order of strings.** `strcmp` tells any two strings apart, changes its sign with the order
of the strings, and is transitive. -/
theorem strcmp_order :
    (∀ a b : CStr, strcmp a b = 0 ↔ a = b) ∧ (∀ a b : CStr, strcmp b a = -strcmp a b) ∧
      ∀ a b c : CStr, strcmp a b < 0 → strcmp b c < 0 → strcmp a c < 0 :=
  ⟨strcmp_zero, strcmp_swap, fun _ _ _ => strcmp_lt_trans⟩

-- ---------------------------------------------------------------------------
-- strncmp
-- ---------------------------------------------------------------------------

/-- One round of the loop of `strncmp`, with the places of the characters that were examined. -/
def strncmpBody (a b : Memory) (size : Nat) : Nat × List Nat → (Nat × List Nat) ⊕ Int × List Nat
  | (i, seen) =>
    if i < size then
      let seen := seen ++ [i]
      if a i ≠ b i then .inr ((if schar (a i) > schar (b i) then 1 else 0) * 2 - 1, seen)
      -- `*a`, not `a[i]`
      else if a 0 = 0 then .inr (0, seen)
      else .inl (i + 1, seen)
    else .inr (0, seen)

/-- `strncmp` of the strings at the start of `a` and of `b`. -/
def strncmp (a b : Memory) (size : Nat) : Option (Int × List Nat) :=
  iterate (strncmpBody a b size) (size + 1) (0, [])

/-- A string in memory, with its terminator, before whatever is in `rest`. -/
def CStr.before (s : CStr) (rest : Memory) : Memory := rest.blit 0 (s.chars ++ [0])

/-- What is expected of `strncmp`, whatever follows the strings in memory. -/
def Agrees (a b : CStr) (n : Nat) : Prop :=
  ∀ x y : Memory, ∃ r seen, strncmp (a.before x) (b.before y) n = some (r, seen) ∧
    r.sign = (strcmp (a.take n) (b.take n)).sign ∧
    ∀ i ∈ seen, i ≤ a.chars.length ∧ i ≤ b.chars.length

variable {a b s : CStr} {x y rest : Memory} {n i j : Nat} {p l as bs : List UInt8} {c : UInt8}
  {seen : List Nat}

/-- Within the string there is its character. -/
theorem before_char (h : s.chars = p ++ c :: l) : s.before rest p.length = c := by
  have hplace : p.length < (s.chars ++ [0]).length := by simp [h]
  have hinside := Memory.blit_inside (m := rest) (a := 0) hplace
  rw [Nat.zero_add] at hinside
  rw [CStr.before, hinside]
  simp [h]

theorem before_end (h : s.chars = p) : s.before rest p.length = 0 := by
  have hplace : p.length < (s.chars ++ [0]).length := by simp [h]
  have hinside := Memory.blit_inside (m := rest) (a := 0) hplace
  rw [Nat.zero_add] at hinside
  rw [CStr.before, hinside]
  simp [h]

/-- Behind the string there is what else is in memory. -/
theorem before_behind (h : s.chars.length < i) : s.before rest i = rest i := by
  refine Memory.blit_outside (.inr ?_)
  rw [List.length_append, List.length_singleton]
  omega

/-- The first character is the terminator if there is no other. -/
theorem before_zero : s.before rest 0 = 0 ↔ s.chars = [] := by
  constructor
  · intro h
    cases hs : s.chars with
    | nil => rfl
    | cons c l =>
      have hc : s.before rest 0 = c := before_char (p := []) hs
      have hmem : c ∈ s.chars := hs ▸ List.mem_cons_self
      exact absurd (hc.symm.trans h ▸ hmem) s.clean
  · intro h
    exact before_end (p := []) h

/-- The characters differ at the place `i`. -/
theorem strncmpBody_apart (hi : i < n) (hne : a.before x i ≠ b.before y i) :
    strncmpBody (a.before x) (b.before y) n (i, seen) =
      .inr ((if schar (a.before x i) > schar (b.before y i) then 1 else 0) * 2 - 1, seen ++ [i]) := by
  rw [strncmpBody, if_pos hi, if_pos hne]

/-- The characters are the same at the place `i`. -/
theorem strncmpBody_same (hi : i < n) (heq : a.before x i = b.before y i) (hne : a.chars ≠ []) :
    strncmpBody (a.before x) (b.before y) n (i, seen) = .inl (i + 1, seen ++ [i]) := by
  rw [strncmpBody, if_pos hi, if_neg (not_not_intro heq), if_neg fun h => hne (before_zero.mp h)]

/-- What is expected of the loop, behind the characters that the strings have in common. -/
def Compares (a b : CStr) (x y : Memory) (as bs : List UInt8) (i m : Nat) (seen : List Nat) : Prop :=
  ∃ r seen', iterate (strncmpBody (a.before x) (b.before y) (i + m)) (m + 1) (i, seen) = some (r, seen') ∧
    r.sign = (strcmpChars (as.take m) (bs.take m)).sign ∧
    ∀ j ∈ seen', j ∈ seen ∨ j ≤ a.chars.length ∧ j ≤ b.chars.length

/-- One more place that was examined. -/
theorem mem_seen (hi : i ≤ a.chars.length ∧ i ≤ b.chars.length) (hj : j ∈ seen ++ [i]) :
    j ∈ seen ∨ j ≤ a.chars.length ∧ j ≤ b.chars.length := by
  rcases List.mem_append.mp hj with hj | hj
  · exact .inl hj
  · rw [List.mem_singleton.mp hj]
    exact .inr hi

/-- The loop leaves at the place `i`. -/
theorem compares_of_leaves {m : Nat} {r : Int}
    (hbody : strncmpBody (a.before x) (b.before y) (i + m) (i, seen) =
    .inr (r, seen ++ [i])) (hsign : r.sign = (strcmpChars (as.take m) (bs.take m)).sign)
    (hi : i ≤ a.chars.length ∧ i ≤ b.chars.length) : Compares a b x y as bs i m seen :=
  ⟨r, _, iterate_succ_inr hbody m, hsign, fun _ => mem_seen hi⟩

/-- The loop, where it does not go on behind the end of two strings that are the same. -/
theorem strncmp_loop (x y : Memory) (m : Nat) (ha : a.chars = p ++ as) (hb : b.chars = p ++ bs)
    (hstop : as = bs → a.chars = [] ∨ m ≤ as.length + 1) (seen : List Nat) :
    Compares a b x y as bs p.length m seen := by
  have hp : p.length ≤ a.chars.length ∧ p.length ≤ b.chars.length := by
    rw [ha, hb, List.length_append, List.length_append]
    omega
  induction m generalizing p as bs seen with
  | zero =>
    refine ⟨0, seen, iterate_succ_inr ?_ 0, ?_, fun j hj => .inl hj⟩
    · rw [strncmpBody, if_neg (by omega)]
    · rw [List.take_zero, List.take_zero]
      rfl
  | succ m ih =>
    have hi : p.length < p.length + (m + 1) := by omega
    cases as with
    | nil =>
      have hx : a.before x p.length = 0 := before_end (ha.trans (List.append_nil p))
      cases bs with
      | nil =>
        -- both strings end here
        have hy : b.before y p.length = 0 := before_end (hb.trans (List.append_nil p))
        by_cases hempty : a.chars = []
        · refine compares_of_leaves (r := 0) ?_ rfl hp
          rw [strncmpBody, if_pos hi, if_neg (not_not_intro (hx.trans hy.symm)),
            if_pos (before_zero.mpr hempty)]
        · have hm : m = 0 := by
            have hcount := (hstop rfl).resolve_left hempty
            rw [List.length_nil] at hcount
            omega
          subst hm
          have hlast :
              strncmpBody (a.before x) (b.before y) (p.length + 1) (p.length + 1, seen ++ [p.length]) =
              .inr (0, seen ++ [p.length]) := by rw [strncmpBody, if_neg (Nat.lt_irrefl _)]
          refine ⟨0, seen ++ [p.length], ?_, rfl, fun j => mem_seen hp⟩
          rw [iterate_succ_inl (strncmpBody_same hi (hx.trans hy.symm) hempty)]
          exact iterate_succ_inr hlast 0
      | cons d bs =>
        have hy : b.before y p.length = d := before_char hb
        have hd : d ≠ 0 := by
          rintro rfl
          exact b.clean (hb ▸ by simp)
        have hne : a.before x p.length ≠ b.before y p.length := by rw [hx, hy]; exact hd.symm
        refine compares_of_leaves (strncmpBody_apart hi hne) ?_ hp
        have hsd := schar_ne_zero hd
        have hzero : schar 0 = 0 := rfl
        rw [hx, hy, List.take_nil, List.take_succ_cons, strcmpChars, hzero]
        split_ifs <;> first | rfl | omega
    | cons c as =>
      have hx : a.before x p.length = c := before_char ha
      have hc : c ≠ 0 := by
        rintro rfl
        exact a.clean (ha ▸ by simp)
      have hsc := schar_ne_zero hc
      cases bs with
      | nil =>
        have hy : b.before y p.length = 0 := before_end (hb.trans (List.append_nil p))
        have hne : a.before x p.length ≠ b.before y p.length := by rw [hx, hy]; exact hc
        refine compares_of_leaves (strncmpBody_apart hi hne) ?_ hp
        have hzero : schar 0 = 0 := rfl
        rw [hx, hy, List.take_nil, List.take_succ_cons, strcmpChars, hzero]
        split_ifs <;> first | rfl | omega
      | cons d bs =>
        have hy : b.before y p.length = d := before_char hb
        by_cases hcd : c = d
        · subst hcd
          have hne : a.chars ≠ [] := by rw [ha]; simp
          have hlen : (p ++ [c]).length = p.length + 1 := by simp
          have ha' : a.chars = (p ++ [c]) ++ as := by rw [ha, List.append_assoc]; rfl
          have hb' : b.chars = (p ++ [c]) ++ bs := by rw [hb, List.append_assoc]; rfl
          have hstop' : as = bs → a.chars = [] ∨ m ≤ as.length + 1 := by
            rintro rfl
            refine (hstop rfl).imp_right ?_
            intro hcount
            rw [List.length_cons] at hcount
            omega
          have hplace : (p ++ [c]).length ≤ a.chars.length ∧ (p ++ [c]).length ≤ b.chars.length := by
            simp only [ha', hb', List.length_append]
            omega
          obtain ⟨r, seen', hloop, hsign, hseen⟩ := ih ha' hb' hstop' (seen ++ [p.length]) hplace
          refine ⟨r, seen', ?_, ?_, ?_⟩
          · rw [iterate_succ_inl (strncmpBody_same hi (hx.trans hy.symm) hne)]
            rw [hlen, Nat.add_assoc, Nat.add_comm 1 m] at hloop
            exact hloop
          · rw [List.take_succ_cons, List.take_succ_cons, strcmpChars, if_neg (not_not_intro rfl)]
            exact hsign
          · intro j hj
            exact (hseen j hj).elim (mem_seen hp) .inr
        · have hne : a.before x p.length ≠ b.before y p.length := by rw [hx, hy]; exact hcd
          refine compares_of_leaves (strncmpBody_apart hi hne) ?_ hp
          rw [hx, hy, List.take_succ_cons, List.take_succ_cons, strcmpChars, if_pos hcd]

/-- Up to its terminator and the place behind it, a string is the same as itself. -/
theorem strncmp_reaches (hne : s.chars ≠ []) (hlong : s.chars.length + 1 < n)
    (hj : j ≤ s.chars.length + 1) (k : Nat) :
    iterate (strncmpBody (s.before x) (s.before y) n) (k + j) (0, []) =
      iterate (strncmpBody (s.before x) (s.before y) n) k (j, List.range j) := by
  induction j generalizing k with
  | zero => rfl
  | succ j ih =>
    have hsame : s.before x j = s.before y j := by
      have hplace : j < (s.chars ++ [0]).length := by
        rw [List.length_append, List.length_singleton]
        omega
      have hx := Memory.blit_inside (m := x) (a := 0) hplace
      have hy := Memory.blit_inside (m := y) (a := 0) hplace
      rw [Nat.zero_add] at hx hy
      rw [CStr.before, CStr.before, hx, hy]
    rw [show k + (j + 1) = k + 1 + j by omega, ih (by omega),
      iterate_succ_inl (strncmpBody_same (by omega) hsame hne), List.range_succ]

/-- **Comparing the first characters.** Whatever follows the strings in memory, `strncmp` has the
sign of `strcmp` on the first characters and stays in the strings, if and only if it does not
compare a string with itself that is not empty and ends more than one character before the count
does. -/
theorem strncmp_agrees_iff (a b : CStr) (n : Nat) :
    Agrees a b n ↔ (a = b → a.chars = [] ∨ n ≤ a.chars.length + 1) := by
  constructor
  · rintro h rfl
    by_contra hcon
    obtain ⟨hne, hlong⟩ := not_or.mp hcon
    have hlong : a.chars.length + 1 < n := Nat.lt_of_not_le hlong
    -- behind the terminators there are different bytes
    obtain ⟨r, seen, hr, -, hseen⟩ := h (fun _ => 0) fun _ => 1
    have hapart :
        a.before (fun _ => 0) (a.chars.length + 1) ≠ a.before (fun _ => 1) (a.chars.length + 1) := by
      rw [before_behind (Nat.lt_succ_self _), before_behind (Nat.lt_succ_self _)]
      decide
    obtain ⟨k, rfl⟩ : ∃ k, n = k + (a.chars.length + 1) := ⟨n - (a.chars.length + 1), by omega⟩
    rw [strncmp, show k + (a.chars.length + 1) + 1 = k + 1 + (a.chars.length + 1) by omega,
      strncmp_reaches hne hlong le_rfl, iterate_succ_inr (strncmpBody_apart hlong hapart)] at hr
    obtain ⟨-, rfl⟩ := Prod.mk.inj (Option.some.inj hr)
    have hlast := (hseen (a.chars.length + 1) (by simp)).1
    omega
  · intro h x y
    have hstop : a.chars = b.chars → a.chars = [] ∨ n ≤ a.chars.length + 1 := by
      intro hchars
      refine h ?_
      cases a
      cases b
      obtain rfl := hchars
      rfl
    obtain ⟨r, seen, hloop, hsign, hseen⟩ := strncmp_loop (p := []) x y n rfl rfl hstop []
    refine ⟨r, seen, ?_, hsign, ?_⟩
    · rw [List.length_nil, Nat.zero_add] at hloop
      exact hloop
    · intro i hi
      exact (hseen i hi).resolve_left List.not_mem_nil

/-- The string of one letter. -/
def letter : CStr := ⟨['a'.toUInt8], by decide⟩

/-- Three characters of the string `a`, of which the third is behind its terminator. -/
theorem garbage_compared :
    strncmp (letter.before fun _ => 1) (letter.before fun _ => 0) 3 = some (1, [0, 1, 2]) ∧
      ¬ ∀ (a b : CStr) (n : Nat), Agrees a b n := by
  have hrun : strncmp (letter.before fun _ => 1) (letter.before fun _ => 0) 3 = some (1, [0, 1, 2]) := by
    decide
  refine ⟨hrun, ?_⟩
  intro h
  obtain ⟨r, seen, hr, -, hseen⟩ := h letter letter 3 (fun _ => 1) fun _ => 0
  obtain ⟨-, rfl⟩ := Prod.mk.inj (Option.some.inj (hr.symm.trans hrun))
  exact absurd (hseen 2 (by decide)).1 (by decide)

end Frosk

import Mathlib.Tactic

/-!
# Addresses covered by pieces

A piece of storage has a start and a length; a list of starts and a function `len` for the
lengths stand for the pieces of a store. `cover` is the set of the addresses in some piece, and
`Separate` says that no two pieces overlap. What allocators do to pieces: two that touch become
one (`cover_join`, `separate_join`), and one is cut in two (`cover_cut`).
-/

namespace Frosk.Lib

/-- The addresses in the pieces that start at the elements of `l`. -/
def cover (len : Nat → Nat) (l : List Nat) : Set Nat := {x | ∃ c ∈ l, c ≤ x ∧ x < c + len c}

/-- No two pieces overlap. -/
def Separate (len : Nat → Nat) (l : List Nat) : Prop :=
  l.Pairwise fun c d => c + len c ≤ d ∨ d + len d ≤ c

variable {len len' : Nat → Nat} {l l' : List Nat} {a b c x : Nat}

@[simp] theorem mem_cover : x ∈ cover len l ↔ ∃ c ∈ l, c ≤ x ∧ x < c + len c := Iff.rfl

@[simp] theorem cover_nil : cover len [] = ∅ := by
  ext x
  simp

/-- The cover of a list is that of its elements. -/
@[simp] theorem cover_cons : cover len (c :: l) = Set.Ico c (c + len c) ∪ cover len l := by
  ext x
  simp

/-- The order of the chunks does not matter. -/
theorem cover_perm (h : l.Perm l') : cover len l = cover len l' := by
  ext x
  simp only [mem_cover, h.mem_iff]

theorem cover_congr (h : ∀ c ∈ l, len' c = len c) : cover len' l = cover len l := by
  ext x
  refine exists_congr fun c => and_congr_right fun hc => ?_
  rw [h c hc]

/-- A piece and the one right above it. -/
theorem Ico_join (a m n : Nat) :
    Set.Ico a (a + (m + n)) = Set.Ico a (a + m) ∪ Set.Ico (a + m) (a + m + n) := by
  rw [Set.Ico_union_Ico_eq_Ico (by omega) (by omega), Nat.add_assoc]

/-- The piece at `b` becomes part of the one at `a`, which ends there. -/
theorem cover_join (hab : b = a + len a) (hlen : len' a = len a + len b)
    (hsame : ∀ c ∈ l, len' c = len c) : cover len' (a :: l) = cover len (a :: b :: l) := by
  rw [cover_cons, cover_cons, cover_cons, cover_congr hsame, hlen, Ico_join, ← hab, Set.union_assoc]

/-- Being apart does not depend on the order. -/
theorem separate_perm (h : l.Perm l') : Separate len l ↔ Separate len l' :=
  h.pairwise_iff fun hcd => hcd.symm

theorem Separate.congr (hs : Separate len l) (h : ∀ c ∈ l, len' c = len c) : Separate len' l := by
  refine hs.imp_of_mem fun {c d} hc hd hcd => ?_
  rwa [h c hc, h d hd]

/-- Some of the chunks are apart as well. -/
theorem Separate.sublist (hs : Separate len l) (h : l'.Sublist l) : Separate len l' :=
  List.Pairwise.sublist h hs

/-- One chunk more is apart from each of the others. -/
theorem separate_cons :
    Separate len (c :: l) ↔ (∀ d ∈ l, c + len c ≤ d ∨ d + len d ≤ c) ∧ Separate len l :=
  List.pairwise_cons

/-- Chunks that are apart and not empty are different. -/
theorem Separate.nodup (hs : Separate len l) (hpos : ∀ c ∈ l, 0 < len c) : l.Nodup := by
  refine hs.imp_of_mem fun {c d} hc _ hcd => ?_
  rintro rfl
  have := hpos c hc
  omega

/-- Two neighbours may be joined to one. -/
theorem separate_join (hs : Separate len (a :: b :: l)) (hab : b = a + len a)
    (hlen : len' a = len a + len b) (hpos : ∀ c ∈ l, 0 < len c)
    (hsame : ∀ c ∈ l, len' c = len c) : Separate len' (a :: l) := by
  obtain ⟨ha, hrest⟩ := separate_cons.mp hs
  obtain ⟨hb, hl⟩ := separate_cons.mp hrest
  refine separate_cons.mpr ⟨?_, hl.congr hsame⟩
  intro c hc
  have hac := ha c (List.mem_cons_of_mem _ hc)
  have hbc := hb c hc
  have hc0 := hpos c hc
  rw [hsame c hc, hlen]
  omega

/-- No address is in two separate pieces. -/
theorem Separate.not_mem_cover (hs : Separate len (c :: l)) (hx : x ∈ Set.Ico c (c + len c)) :
    x ∉ cover len l := by
  rintro ⟨d, hd, hdx⟩
  have hcd := (separate_cons.mp hs).1 d hd
  rw [Set.mem_Ico] at hx
  omega

/-- The pieces without the first one. -/
theorem cover_tail (hs : Separate len (c :: l)) :
    cover len l = cover len (c :: l) \ Set.Ico c (c + len c) := by
  rw [cover_cons, Set.union_sdiff_left]
  refine (sdiff_eq_left.mpr (Set.disjoint_right.mpr fun x hx => ?_)).symm
  exact hs.not_mem_cover hx

/-- The upper end of the first piece is cut off. -/
theorem cover_cut (hs : Separate len (c :: l)) (hlen : len' c ≤ len c)
    (hsame : ∀ d ∈ l, len' d = len d) :
    cover len' (c :: l) = cover len (c :: l) \ Set.Ico (c + len' c) (c + len c) := by
  have hrest : cover len l \ Set.Ico (c + len' c) (c + len c) = cover len l := by
    refine sdiff_eq_left.mpr (Set.disjoint_right.mpr fun x hx => hs.not_mem_cover ?_)
    rw [Set.mem_Ico] at hx ⊢
    omega
  have hfirst : Set.Ico c (c + len c) \ Set.Ico (c + len' c) (c + len c) =
      Set.Ico c (c + len' c) := by
    ext x
    simp only [Set.mem_sdiff, Set.mem_Ico]
    omega
  rw [cover_cons, cover_cons, Set.union_sdiff_distrib, hrest, hfirst, cover_congr hsame]

end Frosk.Lib

import Mathlib.Tactic

/-!
# Ranges of addresses

Addresses are numbers below a modulus `W` and a range is a start and a length,
so a range may run over the top and go on at the bottom, as machine arithmetic
has it. `InRange`, `Apart` and the three edits an allocator makes on a list of
pairwise disjoint ranges: dividing one (`apart_divide`), joining two
(`apart_join`), and changing their order (`apart_perm`).
-/

namespace Frosk.Lib

/-- The address `x` lies in the range `r`. -/
def InRange (W : Nat) (x : Nat) (r : Nat × Nat) : Prop := (x + (W - r.1)) % W < r.2

/-- No address lies in both ranges. -/
def Disjointed (W : Nat) (r r' : Nat × Nat) : Prop :=
  ∀ x < W, ¬ (InRange W x r ∧ InRange W x r')

/-- The ranges of a list are pairwise disjoint. -/
def Apart (W : Nat) (l : List (Nat × Nat)) : Prop := l.Pairwise (Disjointed W)

variable {W : Nat} {r r₁ r₂ : Nat × Nat} {l l' : List (Nat × Nat)}

/-- Ranges are apart from each other. -/
theorem Disjointed.symm (h : Disjointed W r r₁) : Disjointed W r₁ r :=
  fun x hx hin => h x hx ⟨hin.2, hin.1⟩

/-- Ranges are apart in any order. -/
theorem apart_perm (h : l.Perm l') : Apart W l ↔ Apart W l' :=
  h.pairwise_iff Disjointed.symm

/-- An address is its distance from `a` above `a`. -/
theorem eq_add_distance {x a : Nat} (ha : a < W) (hx : x < W) :
    x = (a + (x + (W - a)) % W) % W := by
  have hsum : x + W = a + (x + (W - a)) := by omega
  calc x = (x + W) % W := by rw [Nat.add_mod_right, Nat.mod_eq_of_lt hx]
    _ = (a + (x + (W - a))) % W := by rw [hsum]
    _ = (a + (x + (W - a)) % W) % W := by rw [Nat.add_mod_mod]

/-- The distance from `a + n` is `n` less than the distance from `a`, round the
top where that is less than `n`. -/
theorem distance_add {x a n : Nat} (hW : 0 < W) (ha : a < W) (hn : n < W) (hx : x < W) :
    (x + (W - (a + n) % W)) % W =
      if n ≤ (x + (W - a)) % W then (x + (W - a)) % W - n else (x + (W - a)) % W + W - n := by
  have hadd := eq_add_distance ha hx
  have hd : (x + (W - a)) % W < W := Nat.mod_lt _ hW
  generalize (x + (W - a)) % W = d at hadd hd
  have mod_lt : ∀ {y : Nat}, y < W → y % W = y := Nat.mod_eq_of_lt
  have mod_ge : ∀ {y : Nat}, W ≤ y → y < W + W → y % W = y - W := by
    intro y h₁ h₂
    rw [Nat.mod_eq_sub_mod h₁, mod_lt (by omega)]
  have hx' : x = if a + d < W then a + d else a + d - W := by
    split
    · exact hadd.trans (mod_lt ‹_›)
    · exact hadd.trans (mod_ge (by omega) (by omega))
  have hb : (a + n) % W = if a + n < W then a + n else a + n - W := by
    split
    · exact mod_lt ‹_›
    · exact mod_ge (by omega) (by omega)
  have hin : x + (W - (a + n) % W) < W + W := by
    rw [hb]
    split <;> omega
  rcases Nat.lt_or_ge (x + (W - (a + n) % W)) W with hlow | hhigh
  · rw [mod_lt hlow]
    rw [hb] at hlow ⊢
    split_ifs at * <;> omega
  · rw [mod_ge hhigh hin]
    rw [hb] at hhigh ⊢
    split_ifs at * <;> omega

/-- The address `d` above `a` has the distance `d` from it. -/
theorem distance_self {a d : Nat} (ha : a < W) (hd : d < W) :
    ((a + d) % W + (W - a)) % W = d := by
  have hsum : a + d + (W - a) = d + W := by omega
  rw [Nat.mod_add_mod, hsum, Nat.add_mod_right, Nat.mod_eq_of_lt hd]

/-- A range starts at its first address. -/
theorem inRange_start {a n : Nat} (ha : a < W) (hn : 0 < n) : InRange W a (a, n) := by
  have hsum : a + (W - a) = W := by omega
  simp only [InRange, hsum, Nat.mod_self]
  exact hn

/-- The lower part of a range that is divided. -/
theorem inRange_lower {x a s n : Nat} (h : InRange W x (a, s - n)) : InRange W x (a, s) := by
  simp only [InRange] at h ⊢
  omega

/-- The upper part of a range that is divided. -/
theorem inRange_upper {x a s n : Nat} (ha : a < W) (hs : s < W) (hn : n ≤ s) (hx : x < W)
    (h : InRange W x ((a + (s - n)) % W, n)) :
    InRange W x (a, s) ∧ ¬ InRange W x (a, s - n) := by
  have hW : 0 < W := by omega
  have hd : (x + (W - a)) % W < W := Nat.mod_lt _ hW
  simp only [InRange] at h ⊢
  rw [distance_add hW ha (by omega) hx] at h
  split at h <;> omega

/-- An address of two ranges, one above the other, that leave some address out. -/
theorem inRange_join {x a s n : Nat} (ha : a < W) (hsum : s + n < W) (hx : x < W) :
    InRange W x (a, s + n) ↔ InRange W x (a, s) ∨ InRange W x ((a + s) % W, n) := by
  have hW : 0 < W := by omega
  have hd : (x + (W - a)) % W < W := Nat.mod_lt _ hW
  simp only [InRange]
  rw [distance_add hW ha (by omega) hx]
  split <;> omega

/-- Two ranges that leave some address out have fewer than `W` addresses together. -/
theorem sum_lt_of_room {x a s n : Nat} (ha : a < W) (hs : s < W) (hx : x < W)
    (hlow : ¬ InRange W x (a, s)) (hhigh : ¬ InRange W x ((a + s) % W, n)) : s + n < W := by
  have hW : 0 < W := by omega
  have hd : (x + (W - a)) % W < W := Nat.mod_lt _ hW
  simp only [InRange] at hlow hhigh
  rw [distance_add hW ha hs hx, if_pos (by omega)] at hhigh
  omega

/-- A range and the one that starts where it ends, joined. -/
theorem inRange_joined {x a s n : Nat} (ha : a < W) (hs : s < W) (hx : x < W)
    (h : InRange W x (a, (s + n) % W)) :
    InRange W x (a, s) ∨ InRange W x ((a + s) % W, n) := by
  have hW : 0 < W := by omega
  have hle : (s + n) % W ≤ s + n := Nat.mod_le _ _
  by_cases hlow : InRange W x (a, s)
  · exact .inl hlow
  · refine .inr ?_
    simp only [InRange] at h hlow ⊢
    rw [distance_add hW ha hs hx, if_pos (by omega)]
    omega

/-- Dividing a range: the upper `n` addresses become a range of their own. -/
theorem apart_divide {a s n : Nat} (ha : a < W) (hs : s < W) (hn : n ≤ s)
    (h : Apart W ((a, s) :: l)) :
    Apart W ((a, s - n) :: ((a + (s - n)) % W, n) :: l) := by
  obtain ⟨hrest, hl⟩ := List.pairwise_cons.mp h
  refine List.pairwise_cons.mpr ⟨?_, List.pairwise_cons.mpr ⟨?_, hl⟩⟩
  · intro r hr x hx
    rintro ⟨h₁, h₂⟩
    rcases List.mem_cons.mp hr with rfl | hr
    · exact (inRange_upper ha hs hn hx h₂).2 h₁
    · exact hrest r hr x hx ⟨inRange_lower h₁, h₂⟩
  · rintro r hr x hx ⟨h₁, h₂⟩
    exact hrest r hr x hx ⟨(inRange_upper ha hs hn hx h₁).1, h₂⟩

/-- Joining a range and the one that starts where it ends. -/
theorem apart_join {a s n : Nat} (ha : a < W) (hs : s < W)
    (h : Apart W ((a, s) :: ((a + s) % W, n) :: l)) : Apart W ((a, (s + n) % W) :: l) := by
  obtain ⟨h₁, h₂⟩ := List.pairwise_cons.mp h
  obtain ⟨h₂, hl⟩ := List.pairwise_cons.mp h₂
  refine List.pairwise_cons.mpr ⟨?_, hl⟩
  rintro r hr x hx ⟨hin, hr'⟩
  rcases inRange_joined ha hs hx hin with hlow | hhigh
  · exact h₁ r (List.mem_cons_of_mem _ hr) x hx ⟨hlow, hr'⟩
  · exact h₂ r hr x hx ⟨hhigh, hr'⟩

end Frosk.Lib

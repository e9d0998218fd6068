import Mathlib.Tactic

/-!
# Random numbers

`rand` and `srand` of `lib/cstd/src/stdlib.c`. `rand` has the three shifts of the xorshift
recurrence, but stores each of them where the recurrence combines it with what was there. So 17
bits of the state are lost in every call (`rand_toNat`), the others go up by one place
(`rand_moves_up`), and after 16 calls there is nothing left (`rand_degenerates`).
-/

namespace Frosk.Cstd

/-- `srand`: what is left in `rand_seed`. -/
def srand (seed : BitVec 32) : BitVec 32 := seed

/-- `rand`: the number it returns, and what is left in `rand_seed`. -/
def rand (randSeed : BitVec 32) : BitVec 32 × BitVec 32 :=
  let randSeed := randSeed <<< 13
  let randSeed := randSeed >>> 17
  let randSeed := randSeed <<< 5
  (randSeed, randSeed)

/-- The state that a call leaves. -/
def next (s : BitVec 32) : BitVec 32 := (rand s).2

/-- The state after `n` calls. -/
def after (s : BitVec 32) : Nat → BitVec 32
  | 0 => s
  | n + 1 => next (after s n)

/-- What is expected of the generator, for a seed. -/
structure Lively (seed : BitVec 32) : Prop where
  nonzero   : ∀ n, after (srand seed) n ≠ 0
  injective : ∀ s t : BitVec 32, s ≠ 0 → t ≠ 0 → next s = next t → s = t

variable {s seed : BitVec 32} {n : Nat}

-- ---------------------------------------------------------------------------
-- One call
-- ---------------------------------------------------------------------------

/-- The bits from 4 to 18, one place up. -/
theorem rand_toNat (s : BitVec 32) : (next s).toNat = s.toNat / 2 ^ 4 % 2 ^ 15 * 2 ^ 5 := by
  have hs : s.toNat < 2 ^ 32 := s.isLt
  have hshifts : next s = ((s <<< 13) >>> 17) <<< 5 := rfl
  rw [hshifts, BitVec.toNat_shiftLeft, BitVec.toNat_ushiftRight, BitVec.toNat_shiftLeft,
    Nat.shiftLeft_eq, Nat.shiftLeft_eq, Nat.shiftRight_eq_div_pow]
  omega

/-- A result has 20 bits. -/
theorem rand_lt (s : BitVec 32) : (next s).toNat < 2 ^ 20 := by
  rw [rand_toNat]
  omega

/-- Where the low bits are clear, one more is clear after the call. -/
theorem rand_moves_up (h : 2 ^ (n + 4) ∣ s.toNat) : 2 ^ (n + 5) ∣ (next s).toNat := by
  have hhigh : 2 ^ n ∣ s.toNat / 2 ^ 4 := by
    rw [pow_add] at h
    exact Nat.dvd_div_of_mul_dvd (by rwa [mul_comm])
  have hcut : 2 ^ n ∣ s.toNat / 2 ^ 4 % 2 ^ 15 := by
    rcases Nat.le_total n 15 with hle | hle
    · exact (Nat.dvd_mod_iff (Nat.pow_dvd_pow 2 hle)).mpr hhigh
    · -- all that is left of it was lost
      have hnone : s.toNat / 2 ^ 4 % 2 ^ 15 = 0 :=
        Nat.mod_eq_zero_of_dvd ((Nat.pow_dvd_pow 2 hle).trans hhigh)
      rw [hnone]
      exact dvd_zero _
  rw [rand_toNat, pow_add]
  exact Nat.mul_dvd_mul_right hcut _

-- ---------------------------------------------------------------------------
-- Runs of calls
-- ---------------------------------------------------------------------------

/-- Each call moves the lowest bit that is set further up. -/
theorem after_moves_up (s : BitVec 32) (n : Nat) : 2 ^ (n + 5) ∣ (after s (n + 1)).toNat := by
  induction n with
  | zero =>
    rw [after, rand_toNat]
    exact Nat.dvd_mul_left ..
  | succ n ih => exact rand_moves_up ih

/-- So after 16 calls no bit is left. -/
theorem after_eq_zero (s : BitVec 32) (h : 16 ≤ n) : after s n = 0 := by
  obtain ⟨m, rfl⟩ : ∃ m, n = m + 1 := ⟨n - 1, by omega⟩
  have hclear : 2 ^ 20 ∣ (after s (m + 1)).toNat :=
    (Nat.pow_dvd_pow 2 (by omega)).trans (after_moves_up s m)
  refine BitVec.eq_of_toNat_eq ?_
  exact Nat.eq_zero_of_dvd_of_lt hclear (rand_lt (after s m))

/-- **The generator dies out.** Whatever the seed, the state is 0 from the sixteenth call on, and a
call takes states that are not 0 to one state. -/
theorem rand_degenerates (seed : BitVec 32) :
    (∀ n, 16 ≤ n → after (srand seed) n = 0) ∧ next 1 = next 2 ∧ ¬ Lively seed := by
  refine ⟨fun n hn => after_eq_zero _ hn, by decide, fun h => ?_⟩
  exact h.nonzero 16 (after_eq_zero _ le_rfl)

/-- The first call after `srand(1)` leaves 0. -/
theorem seed_one_fails : after (srand 1) 1 = 0 ∧ ¬ ∀ seed : BitVec 32, seed ≠ 0 → Lively seed := by
  have hzero : after (srand 1) 1 = 0 := by decide
  exact ⟨hzero, fun h => (h 1 (by decide)).nonzero 1 hzero⟩

end Frosk.Cstd

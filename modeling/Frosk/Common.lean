import Mathlib.Tactic
import Frosk.Lib.Run

/-!
# Shared definitions

What the headers of the source give to every component: pointers, the macros
`align` and `floor`, the memory layout constants, and the byte locks of
`lock.asm`. Machine integers are `Nat`; a place where the source can wrap says
`% wordSize`.

`Kalloc` is the kernel allocator as the components that only use it see it.
Which free address `kalloc` picks is its own business; what its users rely on
is that the address is not in use and is not `NULL`.
-/

namespace Frosk

/-- Addresses of records; `NULL` is `0`. -/
abbrev Ptr := Nat

abbrev NULL : Ptr := 0

/-- `ulong`, `size_t` and `qword` arithmetic is modulo `2^64`. -/
abbrev wordSize : Nat := 0x10000000000000000

abbrev pageSize : Nat := 0x1000

/-- Everything below is the first page table, which is by identity paged. -/
abbrev uspaceBot : Nat := 0x200000

abbrev lowHalfTop : Nat := 0x800000000000

abbrev highHalfBot : Nat := 0xFFFF800000000000

/-- Subtraction of machine words. -/
@[irreducible] def wsub (a b : Nat) : Nat := (a + (wordSize - b)) % wordSize

/-- Without a borrow it is the difference. -/
theorem wsub_eq {a b : Nat} (h : b ≤ a) (ha : a < wordSize) : wsub a b = a - b := by
  unfold wsub wordSize at *
  omega

/-- Taking away what was added. -/
theorem wsub_add {a b : Nat} (ha : a < wordSize) (hb : b ≤ wordSize) : wsub (a + b) b = a := by
  unfold wsub wordSize at *
  omega

/-- The macro `align(X, TO)` of `util.h` and `malloc.c` on an unsigned long. -/
def align (x n : Nat) : Nat :=
  if x % n ≠ 0 then (x - x % n + n) % wordSize else x

/-- Rounding up to a multiple of 16 that does not wrap. -/
theorem align_sixteen {x : Nat} (h : x + 15 < wordSize) :
    x ≤ align x 16 ∧ align x 16 < x + 16 ∧ align x 16 % 16 = 0 := by
  unfold align wordSize at *
  split <;> omega

/-- Flags in the low bits of a page aligned address. -/
theorem paged_or {x k : Nat} (hx : x % pageSize = 0) (hk : k < pageSize) : x ||| k = x + k := by
  have h := Nat.shiftLeft_add_eq_or_of_lt (show k < 2 ^ 12 from hk) (x / pageSize)
  have hval : (x / pageSize) <<< 12 = x := by
    rw [Nat.shiftLeft_eq]
    unfold pageSize at *
    omega
  rw [hval] at h
  exact h.symm

/-- The macro `floor(X, TO)` of `util.h`. -/
def floor (x n : Nat) : Nat :=
  if x % n ≠ 0 then x - x % n else x

/-- Rounding down takes the remainder away. -/
theorem floor_eq (x n : Nat) : floor x n = x - x % n := by
  unfold floor
  split <;> omega

-- ---------------------------------------------------------------------------
-- lock.asm
-- ---------------------------------------------------------------------------

/-- The values of a `lock_t` byte. -/
inductive Lock where
  | LOCKED
  | UNLOCKED
deriving DecidableEq, Repr

/-- `xchg` with zero: the old value tells whether the lock was free. -/
def trylock (l : Lock) : Bool × Lock := (l == .UNLOCKED, .LOCKED)

/-- `getlock` tries until `trylock` answers non-zero. -/
def getlockBody (l : Lock) : Lock ⊕ Lock :=
  if (trylock l).1 then .inr (trylock l).2 else .inl (trylock l).2

/-- `getlock` when nothing else can run meanwhile: `none` when it spins for
ever. -/
def getlock (l : Lock) : Option Lock :=
  if l = .UNLOCKED then some .LOCKED else none

/-- A lock that is taken stays taken while `getlock` spins on it. -/
theorem getlock_eq (l r : Lock) : getlock l = some r ↔ Lib.Exits getlockBody l r := by
  have hspin : ∀ n, Lib.iterate getlockBody n .LOCKED = none := by
    intro n
    induction n with
    | zero => rfl
    | succ n ih =>
      have hround : getlockBody .LOCKED = .inl .LOCKED := rfl
      rw [Lib.iterate_succ_inl hround, ih]
  cases l with
  | LOCKED =>
    constructor
    · intro h
      simp [getlock] at h
    · rintro ⟨n, hn⟩
      rw [hspin n] at hn
      simp at hn
  | UNLOCKED =>
    have hex : Lib.Exits getlockBody .UNLOCKED .LOCKED := Lib.exits_of_inr rfl
    constructor
    · intro h
      obtain rfl : r = .LOCKED := by simpa [getlock, eq_comm] using h
      exact hex
    · intro h
      rw [Lib.exits_unique h hex]
      rfl

-- ---------------------------------------------------------------------------
-- kalloc as its users see it
-- ---------------------------------------------------------------------------

/-- A choice of storage: given the addresses in use, another one. -/
structure Kalloc where
  pick    : List Ptr → Ptr
  fresh   : ∀ used, pick used ∉ used
  ne_null : ∀ used, pick used ≠ NULL

/-- No number of a list is above its maximum. -/
theorem le_foldr_max (b : Nat) {l : List Nat} {p : Nat} (hp : p ∈ l) : p ≤ l.foldr max b := by
  induction l with
  | nil => simp at hp
  | cons a l ih =>
    rw [List.foldr_cons]
    rcases List.mem_cons.mp hp with rfl | hp
    · exact Nat.le_max_left ..
    · exact (ih hp).trans (Nat.le_max_right ..)

/-- The simplest choice: above everything in use. -/
def Kalloc.above : Kalloc where
  pick used := used.foldr max 0 + 1
  fresh used := by
    intro hmem
    exact absurd (le_foldr_max 0 hmem) (Nat.not_succ_le_self _)
  ne_null used := by simp

-- ---------------------------------------------------------------------------
-- alloc_pgs as its users see it
-- ---------------------------------------------------------------------------

/-- Fresh pages: a range of `n` bytes, given the pages handed out before. -/
structure PageSource where
  pick  : Nat → List Nat → Option Nat
  paged : ∀ {n l v}, pick n l = some v → v % pageSize = 0
  pos   : ∀ {n l v}, pick n l = some v → 0 < v
  fits  : ∀ {n l v}, pick n l = some v → v + n ≤ wordSize
  fresh : ∀ {n l v}, pick n l = some v → ∀ k, k * pageSize < n → v + k * pageSize ∉ l

/-- Pages above `bot` and below `top`, one range above another. -/
def PageSource.between (bot top : Nat) (htop : top ≤ wordSize) : PageSource where
  pick n l :=
    let v := l.foldr max bot + pageSize
    if v % pageSize = 0 ∧ v + n ≤ top then some v else none
  paged h := by
    simp only at h
    split at h
    · rename_i hv
      rw [← Option.some.inj h]
      exact hv.1
    · cases h
  pos h := by
    simp only at h
    split at h
    · rw [← Option.some.inj h]
      exact Nat.lt_of_lt_of_le (by decide) (Nat.le_add_left pageSize _)
    · cases h
  fits h := by
    simp only at h
    split at h
    · rename_i hv
      rw [← Option.some.inj h]
      exact hv.2.trans htop
    · cases h
  fresh {n l v} h k _ hmem := by
    simp only at h
    split at h
    · have hv := Option.some.inj h
      have hbound := le_foldr_max bot hmem
      have hpos : 0 < pageSize := by decide
      omega
    · cases h

/-- Pages from the bottom of the high half upwards, one range above another. -/
def PageSource.upward : PageSource := .between highHalfBot wordSize le_rfl

theorem le_foldr_max_base (b : Nat) (l : List Nat) : b ≤ l.foldr max b := by
  induction l with
  | nil => exact Nat.le_refl b
  | cons a l ih => exact ih.trans (Nat.le_max_right ..)

/-- Pages lie between the bounds of their source. -/
theorem PageSource.between_bounds {bot top : Nat} {htop : top ≤ wordSize} {n : Nat} {l : List Nat}
    {v : Nat} (h : (PageSource.between bot top htop).pick n l = some v) : bot ≤ v ∧ v + n ≤ top := by
  simp only [PageSource.between] at h
  split at h
  · rename_i hv
    rw [← Option.some.inj h]
    exact ⟨(le_foldr_max_base bot l).trans (Nat.le_add_right ..), hv.2⟩
  · cases h

end Frosk

import Mathlib.Tactic

/-!
# Byte memory

A memory is a function from addresses to bytes. `slice` reads a block, `blit`
writes one; `get` and `put` read and write a little-endian number of a given
width. A number read back is the number written, cut to its width
(`get_put_self`), and what lies outside a block that is written is as before
(`slice_blit_of_disjoint`, `get_blit_of_disjoint`).
-/

namespace Frosk.Lib

/-- Bytes by address. -/
abbrev Memory := Nat → UInt8

/-- The low `n` bytes of `v`, the lowest first. -/
def leBytes : Nat → Nat → List UInt8
  | 0, _ => []
  | n + 1, v => UInt8.ofNat v :: leBytes n (v / 256)

def fromLE : List UInt8 → Nat
  | [] => 0
  | b :: bs => b.toNat + 256 * fromLE bs

/-- A word of n bytes has n bytes. -/
@[simp] theorem leBytes_length (n v : Nat) : (leBytes n v).length = n := by
  induction n generalizing v with
  | zero => rfl
  | succ n ih => rw [leBytes, List.length_cons, ih]

/-- What is written is read again, cut to n bytes. -/
theorem fromLE_leBytes (n v : Nat) : fromLE (leBytes n v) = v % 256 ^ n := by
  induction n generalizing v with
  | zero => rw [leBytes, fromLE, pow_zero, Nat.mod_one]
  | succ n ih =>
    rw [leBytes, fromLE, ih, pow_succ', Nat.mod_mul, UInt8.toNat_ofNat']

/-- A word is read in two parts. -/
theorem fromLE_append (l l' : List UInt8) :
    fromLE (l ++ l') = fromLE l + 256 ^ l.length * fromLE l' := by
  induction l with
  | nil => simp [fromLE]
  | cons b l ih =>
    rw [List.cons_append, fromLE, fromLE, ih, List.length_cons, pow_succ']
    ring

/-- A word of n bytes is below `256 ^ n`. -/
theorem fromLE_lt (l : List UInt8) : fromLE l < 256 ^ l.length := by
  induction l with
  | nil => exact Nat.one_pos
  | cons b l ih =>
    have hb : b.toNat < 256 := b.toNat_lt
    rw [fromLE, List.length_cons, pow_succ']
    omega

/-- The bytes of one of many words. -/
theorem flatMap_leBytes_word {n j : Nat} {ws : List Nat} (hj : j < ws.length) :
    ((ws.flatMap (leBytes n)).drop (n * j)).take n = leBytes n ws[j] := by
  induction ws generalizing j with
  | nil => simp at hj
  | cons w ws ih =>
    rw [List.flatMap_cons]
    cases j with
    | zero =>
      rw [Nat.mul_zero, List.drop_zero]
      exact List.take_left' (leBytes_length n w)
    | succ j =>
      have hskip : n * (j + 1) = (leBytes n w).length + n * j := by
        rw [leBytes_length]
        ring
      rw [hskip, List.drop_length_add_append, List.getElem_cons_succ]
      exact ih _

namespace Memory

variable {m : Memory} {a b n k v : Nat} {l : List UInt8}

/-- `n` bytes from `a` on. -/
def slice (m : Memory) (a n : Nat) : List UInt8 := (List.range n).map fun i => m (a + i)

/-- The bytes of `l` stored from `a` on. -/
def blit (m : Memory) (a : Nat) (l : List UInt8) : Memory :=
  fun x => if a ≤ x then (l[x - a]?).getD (m x) else m x

/-- The number stored in `n` bytes at `a`. -/
def get (m : Memory) (n a : Nat) : Nat := fromLE (m.slice a n)

def put (m : Memory) (n a v : Nat) : Memory := m.blit a (leBytes n v)

@[simp] theorem slice_length : (m.slice a n).length = n := by simp [slice]

/-- The bytes of a slice are those of the memory. -/
theorem slice_getElem? {i : Nat} (hi : i < n) : (m.slice a n)[i]? = some (m (a + i)) := by
  simp [slice, hi]

/-- A slice depends on its own bytes only. -/
theorem slice_congr {m' : Memory} (h : ∀ i < n, m' (a + i) = m (a + i)) :
    m'.slice a n = m.slice a n := by
  refine List.map_congr_left ?_
  intro i hi
  exact h i (List.mem_range.mp hi)

/-- A slice in two parts. -/
theorem slice_append : m.slice a (n + k) = m.slice a n ++ m.slice (a + n) k := by
  rw [slice, List.range_add, List.map_append, List.map_map]
  refine congrArg (m.slice a n ++ ·) (List.map_congr_left fun i _ => ?_)
  rw [Function.comp_apply, Nat.add_assoc]

/-- The front of a slice is a slice. -/
theorem slice_take : (m.slice a n).take k = m.slice a (min k n) := by
  rw [slice, ← List.map_take, List.take_range, slice]

/-- A store changes nothing outside. -/
theorem blit_outside {x : Nat} (h : x < a ∨ a + l.length ≤ x) : m.blit a l x = m x := by
  rw [blit]
  split
  · rw [List.getElem?_eq_none (by omega)]
    rfl
  · rfl

/-- Inside, a store leaves what was stored. -/
theorem blit_inside {i : Nat} (hi : i < l.length) : m.blit a l (a + i) = l[i] := by
  rw [blit, if_pos (Nat.le_add_right a i), Nat.add_sub_cancel_left, List.getElem?_eq_getElem hi,
    Option.getD_some]

/-- What `memcpy` does to one byte. -/
theorem blit_slice_inside {m' : Memory} {i : Nat} (hi : i < n) :
    m.blit a (m'.slice b n) (a + i) = m' (b + i) := by
  have hlen : i < (m'.slice b n).length := by rwa [slice_length]
  rw [blit_inside hlen]
  exact List.getElem_eq_iff hlen |>.mpr (slice_getElem? hi)

/-- The same of a copied slice. -/
theorem blit_slice_outside {m' : Memory} {x : Nat} (h : x < a ∨ a + n ≤ x) :
    m.blit a (m'.slice b n) x = m x :=
  blit_outside (by rwa [slice_length])

/-- `n` bytes copied from `b` to `a`, the first one first. -/
def copy (m : Memory) (a b : Nat) : Nat → Memory
  | 0 => m
  | n + 1 => Function.update (m.copy a b n) (a + n) (m.copy a b n (b + n))

/-- A copy changes nothing outside of its target. -/
theorem copy_outside {x : Nat} (h : x < a ∨ a + n ≤ x) : m.copy a b n x = m x := by
  induction n with
  | zero => rfl
  | succ n ih =>
    have hne : x ≠ a + n := by omega
    rw [copy, Function.update_of_ne hne]
    exact ih (by omega)

/-- A byte that the copy does not write over arrives. -/
theorem copy_inside {i : Nat} (hi : i < n) (h : b + i < a ∨ a + n ≤ b + i) :
    m.copy a b n (a + i) = m (b + i) := by
  induction n with
  | zero => omega
  | succ n ih =>
    rw [copy]
    rcases Nat.lt_succ_iff_lt_or_eq.mp hi with hlt | rfl
    · rw [Function.update_of_ne (by omega)]
      exact ih hlt (by omega)
    · rw [Function.update_self]
      exact copy_outside (by omega)

/-- A store beside a slice leaves it. -/
theorem slice_blit_of_disjoint (h : b + n ≤ a ∨ a + l.length ≤ b) :
    (m.blit a l).slice b n = m.slice b n :=
  slice_congr fun i hi => blit_outside (by omega)

/-- Reading inside a block that was written. -/
theorem slice_blit_within (h : k + n ≤ l.length) :
    (m.blit a l).slice (a + k) n = (l.drop k).take n := by
  refine List.ext_getElem? ?_
  intro i
  by_cases hi : i < n
  · rw [slice_getElem? hi, List.getElem?_take_of_lt hi, List.getElem?_drop, Nat.add_assoc,
      blit_inside (by omega), List.getElem?_eq_getElem]
  · rw [List.getElem?_eq_none (by simpa using hi), List.getElem?_eq_none]
    rw [List.length_take]
    omega

/-- A slice that was stored is read again. -/
theorem slice_blit_self : (m.blit a l).slice a l.length = l := by
  have h := slice_blit_within (m := m) (a := a) (k := 0) (n := l.length) (l := l) (by omega)
  rwa [Nat.add_zero, List.drop_zero, List.take_length] at h

/-- The front of what was stored. -/
theorem slice_blit_left {l' : List UInt8} : (m.blit a (l ++ l')).slice a l.length = l := by
  have h := slice_blit_within (m := m) (a := a) (k := 0) (n := l.length) (l := l ++ l')
    (by rw [List.length_append]; omega)
  rwa [Nat.add_zero, List.drop_zero, List.take_left] at h

theorem blit_nil : m.blit a [] = m := by
  funext x
  exact blit_outside (by rw [List.length_nil]; omega)

/-- A block written over another. -/
theorem blit_cover {l' : List UInt8} (h : l.length ≤ l'.length) :
    (m.blit a l).blit a l' = m.blit a l' := by
  funext x
  by_cases hx : a ≤ x ∧ x < a + l'.length
  · obtain ⟨i, rfl⟩ := Nat.exists_eq_add_of_le hx.1
    rw [blit_inside (by omega), blit_inside (by omega)]
  · rw [blit_outside (by omega), blit_outside (by omega), blit_outside (by omega)]

/-- Two blocks written one after the other. -/
theorem blit_append (m : Memory) (a : Nat) (l l' : List UInt8) :
    (m.blit a l).blit (a + l.length) l' = m.blit a (l ++ l') := by
  funext x
  rcases Nat.lt_or_ge x a with hx | hx
  · rw [blit_outside (.inl (by omega)), blit_outside (.inl hx), blit_outside (.inl hx)]
  obtain ⟨i, rfl⟩ := Nat.exists_eq_add_of_le hx
  rcases Nat.lt_or_ge i l.length with hi | hi
  · rw [blit_outside (.inl (by omega)), blit_inside hi,
      blit_inside (show i < (l ++ l').length by rw [List.length_append]; omega),
      List.getElem_append_left]
  obtain ⟨j, rfl⟩ := Nat.exists_eq_add_of_le hi
  rcases Nat.lt_or_ge j l'.length with hj | hj
  · rw [← Nat.add_assoc, blit_inside hj, Nat.add_assoc,
      blit_inside (show l.length + j < (l ++ l').length by rw [List.length_append]; omega),
      List.getElem_append_right (by omega)]
    simp
  · rw [blit_outside (.inr (by omega)), blit_outside (.inr (by omega)), blit_outside]
    right
    rw [List.length_append]
    omega

/-- Of two blocks side by side either may be written first. -/
theorem blit_prepend (m : Memory) (a : Nat) (l l' : List UInt8) :
    (m.blit (a + l.length) l').blit a l = m.blit a (l ++ l') := by
  rw [← blit_append]
  funext x
  by_cases hx : a ≤ x ∧ x < a + l.length
  · obtain ⟨i, rfl⟩ := Nat.exists_eq_add_of_le hx.1
    rw [blit_inside (by omega), blit_outside (.inl hx.2), blit_inside (by omega)]
  · rw [blit_outside (m := m.blit (a + l.length) l') (by omega)]
    by_cases hx' : a + l.length ≤ x ∧ x < a + l.length + l'.length
    · obtain ⟨i, rfl⟩ := Nat.exists_eq_add_of_le hx'.1
      rw [blit_inside (by omega), blit_inside (by omega)]
    · rw [blit_outside (l := l') (by omega), blit_outside (l := l') (by omega),
        blit_outside (by omega)]

/-- A block written over zeros. -/
theorem blit_over_zeros (h : l.length ≤ n) :
    (m.blit a (List.replicate n 0)).blit a l = m.blit a (l ++ List.replicate (n - l.length) 0) := by
  rw [← blit_append]
  funext x
  rcases Nat.lt_or_ge x (a + l.length) with hx | hx
  · rw [blit_outside (a := a + l.length) (.inl hx)]
    rcases Nat.lt_or_ge x a with hlow | hlow
    · rw [blit_outside (.inl hlow), blit_outside (.inl hlow), blit_outside (.inl hlow)]
    · obtain ⟨i, rfl⟩ := Nat.exists_eq_add_of_le hlow
      rw [blit_inside (by omega), blit_inside (by omega)]
  · rw [blit_outside (l := l) (.inr hx)]
    obtain ⟨i, rfl⟩ := Nat.exists_eq_add_of_le hx
    rcases Nat.lt_or_ge (l.length + i) n with hi | hi
    · rw [Nat.add_assoc, blit_inside (by simpa using hi), List.getElem_replicate, ← Nat.add_assoc,
        blit_inside (by simpa using (by omega : i < n - l.length)), List.getElem_replicate]
    · have hlen : ∀ k, (List.replicate k (0 : UInt8)).length = k := fun k => List.length_replicate
      rw [blit_outside (.inr (by rw [hlen]; omega)), blit_outside (.inr (by rw [hlen]; omega)),
        blit_outside (.inr (by omega))]

/-- A field depends on its own bytes only. -/
theorem get_congr {m' : Memory} (h : ∀ i < n, m' (a + i) = m (a + i)) :
    m'.get n a = m.get n a := congrArg fromLE (slice_congr h)

/-- Numbers inside of blocks that are the same. -/
theorem get_of_slice_eq {m' : Memory} {i : Nat} (h : m.slice a n = m'.slice b n) (hle : i + k ≤ n) :
    m.get k (a + i) = m'.get k (b + i) := by
  refine congrArg fromLE (List.map_congr_left fun j hj => ?_)
  have hlt : i + j < n := by
    rw [List.mem_range] at hj
    omega
  have heq := congrArg (·[i + j]?) h
  simp only [slice_getElem? hlt, Option.some.injEq] at heq
  rw [Nat.add_assoc, Nat.add_assoc]
  exact heq

/-- A number inside of a block that is known. -/
theorem get_of_slice {i : Nat} (h : m.slice a n = l) (hle : i + k ≤ n) :
    m.get k (a + i) = fromLE ((l.drop i).take k) := by
  obtain ⟨j, rfl⟩ := Nat.exists_eq_add_of_le hle
  rw [← h, Nat.add_assoc, slice_append, List.drop_left' slice_length, slice_take,
    Nat.min_eq_left (Nat.le_add_right ..)]
  rfl

/-- A number is its low part and its high part. -/
theorem get_add : m.get (n + k) a = m.get n a + 256 ^ n * m.get k (a + n) := by
  rw [get, slice_append, fromLE_append, slice_length]
  rfl

/-- A field is below `256 ^ n`. -/
theorem get_lt : m.get n a < 256 ^ n := by
  have h := fromLE_lt (m.slice a n)
  rwa [slice_length] at h

/-- A store beside a field leaves it. -/
theorem get_blit_of_disjoint (h : b + n ≤ a ∨ a + l.length ≤ b) :
    (m.blit a l).get n b = m.get n b :=
  congrArg fromLE (slice_blit_of_disjoint h)

/-- A field that was written is read again. -/
theorem get_put_self (hv : v < 256 ^ n) : (m.put n a v).get n a = v := by
  have h := slice_blit_self (m := m) (a := a) (l := leBytes n v)
  rw [leBytes_length] at h
  rw [get, put, h, fromLE_leBytes, Nat.mod_eq_of_lt hv]

/-- A field that was written leaves the fields beside it. -/
theorem get_put_of_disjoint (h : b + k ≤ a ∨ a + n ≤ b) :
    (m.put n a v).get k b = m.get k b :=
  get_blit_of_disjoint (by simpa using h)

theorem put_outside {x : Nat} (h : x < a ∨ a + n ≤ x) : m.put n a v x = m x :=
  blit_outside (by simpa using h)

end Memory

end Frosk.Lib

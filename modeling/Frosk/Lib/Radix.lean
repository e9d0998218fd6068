import Mathlib.Tactic

/-!
# Radix trees of tables

Tables of entries, addressed by number, `ent t i` being entry `i` of table `t`.
A key is followed from a top table down: at depth `d` its index there selects an
entry, which may lead to a table of depth `d + 1`. The tables of depth `n` hold
the leaves.

`IsTree` says that no table is reached on two different paths. On such a tree

* changing one leaf changes that leaf and no other, and no table (`isTree_set`,
  `leaf_set_self`, `leaf_set_other`);
* hanging an empty table into an absent entry makes exactly the table it was
  meant to be, and no leaf of any key changes (`table_grow_self`, `table_grow_other`,
  `isTree_grow`, `leaf_grow`).
-/

namespace Frosk.Lib

/-- How keys are followed: their index at each depth, the table at the top, and
the table an entry leads to. -/
structure Radix (κ ι : Type*) where
  idx : Nat → κ → ι
  top : Nat
  dec : Nat → Option Nat

/-- Entries of tables. -/
abbrev Entries (ι : Type*) := Nat → ι → Nat

namespace Radix

variable {κ ι : Type*} (R : Radix κ ι)

/-- The table of depth `d` on the path of a key. -/
def table (ent : Entries ι) (v : κ) : Nat → Option Nat
  | 0 => some R.top
  | d + 1 => (table ent v d).bind fun t => R.dec (ent t (R.idx d v))

/-- The entry of a key in its table of depth `n`; zero if there is no table. -/
def leaf (ent : Entries ι) (n : Nat) (v : κ) : Nat :=
  match R.table ent v n with
  | none => 0
  | some t => ent t (R.idx n v)

/-- Two keys take the same way for `d` steps. -/
def SamePath (d : Nat) (v w : κ) : Prop := ∀ j < d, R.idx j v = R.idx j w

/-- The tables down to depth `n` are among `used`, and each is on one path. -/
structure IsTree (ent : Entries ι) (n : Nat) (used : List Nat) : Prop where
  used : ∀ v d t, d ≤ n → R.table ent v d = some t → t ∈ used
  inj  : ∀ v w i j t, i ≤ n → j ≤ n → R.table ent v i = some t → R.table ent w j = some t →
    i = j ∧ R.SamePath i v w

variable {R} {ent ent' : Entries ι} {n d j t f : Nat} {v w : κ} {used : List Nat}

theorem SamePath.symm (h : R.SamePath d v w) : R.SamePath d w v := fun j hj => (h j hj).symm

/-- Keys that go the same way do so in the levels above. -/
theorem SamePath.mono (h : R.SamePath d v w) (hle : j ≤ d) : R.SamePath j v w :=
  fun i hi => h i (by omega)

/-- One level more of the way. -/
theorem samePath_succ : R.SamePath (d + 1) v w ↔ R.SamePath d v w ∧ R.idx d v = R.idx d w := by
  constructor
  · exact fun h => ⟨h.mono (Nat.le_succ d), h d (Nat.lt_succ_self d)⟩
  · rintro ⟨h, hd⟩ j hj
    rcases Nat.lt_succ_iff_lt_or_eq.mp hj with hj | rfl
    · exact h j hj
    · exact hd

/-- Keys that go the same way meet the same table. -/
theorem table_of_samePath (h : R.SamePath d v w) : R.table ent v d = R.table ent w d := by
  induction d with
  | zero => rfl
  | succ d ih =>
    obtain ⟨h, hd⟩ := samePath_succ.mp h
    rw [table, table, ih h, hd]

/-- They find the same entry at the end. -/
theorem leaf_of_samePath (h : R.SamePath (n + 1) v w) : R.leaf ent n v = R.leaf ent n w := by
  obtain ⟨h, hn⟩ := samePath_succ.mp h
  rw [leaf, leaf, table_of_samePath h, hn]

/-- A path depends only on the entries on it. -/
theorem table_congr (h : ∀ j < d, ∀ t, R.table ent v j = some t →
    R.dec (ent' t (R.idx j v)) = R.dec (ent t (R.idx j v))) :
    R.table ent' v d = R.table ent v d := by
  induction d with
  | zero => rfl
  | succ d ih =>
    rw [table, table, ih fun j hj => h j (by omega)]
    cases ht : R.table ent v d with
    | none => rfl
    | some t => exact h d (Nat.lt_succ_self d) t ht

/-- Below a table that is missing all are missing. -/
theorem table_none_mono (h : R.table ent v d = none) (hle : d ≤ j) : R.table ent v j = none := by
  induction j with
  | zero =>
    obtain rfl : d = 0 := by omega
    exact h
  | succ j ih =>
    rcases Nat.lt_succ_iff_lt_or_eq.mp (Nat.lt_succ_of_le hle) with hlt | rfl
    · rw [table, ih (by omega), Option.bind_none]
    · exact h

/-- Two different entries of a tree: the paths that lead through them part. -/
theorem isTree_slot_ne (h : R.IsTree ent n used) {i : Nat} {t' : Nat} (hi : i ≤ n) (hj : j ≤ n)
    (ht : R.table ent v i = some t) (ht' : R.table ent w j = some t')
    (hne : ¬ (i = j ∧ R.SamePath (i + 1) v w)) : t ≠ t' ∨ R.idx i v ≠ R.idx j w := by
  by_contra hcon
  push Not at hcon
  obtain ⟨rfl, hidx⟩ := hcon
  obtain ⟨rfl, hpath⟩ := h.inj v w i j t hi hj ht ht'
  exact hne ⟨rfl, samePath_succ.mpr ⟨hpath, hidx⟩⟩

-- ---------------------------------------------------------------------------
-- Changing a leaf
-- ---------------------------------------------------------------------------

variable [DecidableEq ι]

/-- Entry `i` of table `t` is changed. -/
def set (ent : Entries ι) (t : Nat) (i : ι) (e : Nat) : Entries ι :=
  fun t' i' => if t' = t ∧ i' = i then e else ent t' i'

/-- The entry that is set. -/
theorem set_self (ent : Entries ι) (t : Nat) (i : ι) (e : Nat) : set ent t i e t i = e := if_pos ⟨rfl, rfl⟩

theorem set_ne {i i' : ι} {t' e : Nat} (h : t' ≠ t ∨ i' ≠ i) : set ent t i e t' i' = ent t' i' := by
  refine if_neg ?_
  rintro ⟨ht, hi⟩
  rcases h with h | h
  · exact h ht
  · exact h hi

section Set

variable (h : R.IsTree ent n used) (ht : R.table ent v n = some t) (e : Nat)
include h ht

/-- Setting an entry of the last level leaves the tables. -/
theorem table_set (hd : d ≤ n) (w : κ) :
    R.table (set ent t (R.idx n v) e) w d = R.table ent w d := by
  refine table_congr ?_
  intro j hj t' ht'
  have hne := isTree_slot_ne h (by omega) (Nat.le_refl n) ht' ht (by omega)
  rw [set_ne hne]

theorem isTree_set : R.IsTree (set ent t (R.idx n v) e) n used where
  used w d t' hd htab := h.used w d t' hd (by rwa [table_set h ht e hd] at htab)
  inj w x i j t' hi hj hw hx := by
    rw [table_set h ht e hi] at hw
    rw [table_set h ht e hj] at hx
    exact h.inj w x i j t' hi hj hw hx

/-- The entry that was set is what its key finds. -/
theorem leaf_set_self : R.leaf (set ent t (R.idx n v) e) n v = e := by
  rw [leaf, table_set h ht e (Nat.le_refl n), ht]
  exact set_self ..

/-- The other keys find what they found. -/
theorem leaf_set_other (hw : ¬ R.SamePath (n + 1) v w) :
    R.leaf (set ent t (R.idx n v) e) n w = R.leaf ent n w := by
  rw [leaf, leaf, table_set h ht e (Nat.le_refl n)]
  cases hwt : R.table ent w n with
  | none => rfl
  | some t' =>
    refine set_ne (isTree_slot_ne h (Nat.le_refl n) (Nat.le_refl n) hwt ht ?_)
    exact fun hsame => hw hsame.2.symm

end Set

-- ---------------------------------------------------------------------------
-- Hanging in an empty table
-- ---------------------------------------------------------------------------

/-- Table `f` is empty. -/
def clear (ent : Entries ι) (f : Nat) : Entries ι := fun t i => if t = f then 0 else ent t i

omit [DecidableEq ι] in
/-- A cleared table has no entries. -/
theorem clear_self (ent : Entries ι) (f : Nat) (i : ι) : clear ent f f i = 0 := if_pos rfl

omit [DecidableEq ι] in
theorem clear_ne {i : ι} (h : t ≠ f) : clear ent f t i = ent t i := if_neg h

/-- The new table may be cleared before or after it is linked in. -/
theorem clear_set_comm {i : ι} {e : Nat} (h : t ≠ f) :
    clear (set ent t i e) f = set (clear ent f) t i e := by
  funext t' i'
  by_cases hf : t' = f
  · rw [hf, clear_self, set_ne (.inl h.symm), clear_self]
  · rw [clear_ne hf, set, set, clear_ne hf]

section Grow

variable (h : R.IsTree ent n used) (hd : d < n) (ht : R.table ent v d = some t)
  (hf : f ∉ used) {e : Nat}
include h hd ht hf

/-- A new table leaves every entry but the one it hangs on. -/
theorem grow_apply {w : κ} {t' : Nat} (hj : j ≤ n) (ht' : R.table ent w j = some t')
    (hne : ¬ (j = d ∧ R.SamePath (d + 1) v w)) :
    clear (set ent t (R.idx d v) e) f t' (R.idx j w) = ent t' (R.idx j w) := by
  have htf : t' ≠ f := fun hcon => hf (hcon ▸ h.used w j t' hj ht')
  rw [clear_ne htf, set_ne]
  refine isTree_slot_ne h hj (by omega) ht' ht ?_
  rintro ⟨rfl, hpath⟩
  exact hne ⟨rfl, hpath.symm⟩

/-- Paths that do not go through the new entry are as before. -/
theorem table_grow_other (hj : j ≤ n) (hne : ¬ (d < j ∧ R.SamePath (d + 1) v w)) :
    R.table (clear (set ent t (R.idx d v) e) f) w j = R.table ent w j := by
  refine table_congr ?_
  intro i hi t' ht'
  rw [grow_apply h hd ht hf (by omega) ht']
  rintro ⟨rfl, hpath⟩
  exact hne ⟨hi, hpath⟩

variable (he : R.dec e = some f)
include he

/-- The new table is at the end of the path it was made for. -/
theorem table_grow_self (hpath : R.SamePath (d + 1) v w) :
    R.table (clear (set ent t (R.idx d v) e) f) w (d + 1) = some f := by
  have hdw : R.table (clear (set ent t (R.idx d v) e) f) w d = some t := by
    rw [table_grow_other h hd ht hf (by omega) (by omega)]
    rw [← table_of_samePath (hpath.mono (Nat.le_succ d)), ht]
  have htf : t ≠ f := fun hcon => hf (hcon ▸ h.used v d t (by omega) ht)
  rw [table, hdw, Option.bind_some, ← (samePath_succ.mp hpath).2, clear_ne htf, set_self, he]

variable (hzero : R.dec 0 = none)
include hzero

/-- Nothing hangs below it. -/
theorem table_grow_below (hpath : R.SamePath (d + 1) v w) (hj : d + 1 < j) :
    R.table (clear (set ent t (R.idx d v) e) f) w j = none := by
  refine table_none_mono (d := d + 2) ?_ hj
  rw [table, table_grow_self h hd ht hf he hpath, Option.bind_some, clear_self,
    hzero]

/-- The tables are a tree again with the new one. -/
theorem isTree_grow :
    R.IsTree (clear (set ent t (R.idx d v) e) f) n (f :: used) := by
  -- a table is an old one on its old path, or `f` at the end of the new one
  have hcases : ∀ w j t', j ≤ n → R.table (clear (set ent t (R.idx d v) e) f) w j = some t' →
      (R.table ent w j = some t' ∧ t' ∈ used) ∨ (t' = f ∧ j = d + 1 ∧ R.SamePath (d + 1) v w) := by
    intro w j t' hj htab
    by_cases hnew : d < j ∧ R.SamePath (d + 1) v w
    · obtain ⟨hlt, hpath⟩ := hnew
      rcases Nat.lt_or_eq_of_le (show d + 1 ≤ j from hlt) with hlt | rfl
      · rw [table_grow_below h hd ht hf he hzero hpath hlt] at htab
        cases htab
      · rw [table_grow_self h hd ht hf he hpath] at htab
        exact .inr ⟨(Option.some.inj htab).symm, rfl, hpath⟩
    · rw [table_grow_other h hd ht hf hj hnew] at htab
      exact .inl ⟨htab, h.used w j t' hj htab⟩
  constructor
  · intro w j t' hj htab
    rcases hcases w j t' hj htab with ⟨_, hmem⟩ | ⟨rfl, _⟩
    · exact List.mem_cons_of_mem _ hmem
    · exact List.mem_cons_self
  · intro w x i j t' hi hj hw hx
    rcases hcases w i t' hi hw with ⟨hw, hwu⟩ | ⟨rfl, rfl, hwp⟩ <;>
      rcases hcases x j _ hj hx with ⟨hx, hxu⟩ | ⟨hxf, rfl, hxp⟩
    · exact h.inj w x i j t' hi hj hw hx
    · exact absurd (hxf ▸ hwu) hf
    · exact absurd hxu hf
    · exact ⟨rfl, fun k hk => (hwp k hk).symm.trans (hxp k hk)⟩

/-- A table hung into an absent entry changes no leaf. -/
theorem leaf_grow (habs : R.dec (ent t (R.idx d v)) = none) (w : κ) :
    R.leaf (clear (set ent t (R.idx d v) e) f) n w = R.leaf ent n w := by
  by_cases hpath : R.SamePath (d + 1) v w
  · -- there was no leaf before, and the new table is empty
    have hbefore : R.table ent w n = none := by
      refine table_none_mono (d := d + 1) ?_ hd
      rw [table, ← table_of_samePath (hpath.mono (Nat.le_succ d)), ht, Option.bind_some,
        ← (samePath_succ.mp hpath).2, habs]
    rw [leaf, leaf, hbefore]
    rcases Nat.lt_or_eq_of_le (show d + 1 ≤ n from hd) with hlt | rfl
    · rw [table_grow_below h hd ht hf he hzero hpath hlt]
    · rw [table_grow_self h hd ht hf he hpath]
      exact clear_self ..
  · have hne : ¬ (d < n ∧ R.SamePath (d + 1) v w) := fun hcon => hpath hcon.2
    rw [leaf, leaf, table_grow_other h hd ht hf (Nat.le_refl n) hne]
    cases htab : R.table ent w n with
    | none => rfl
    | some t' =>
      exact grow_apply h hd ht hf (Nat.le_refl n) htab (by omega)

end Grow

end Radix

end Frosk.Lib

import Mathlib.Tactic
import Frosk.Paging.Definitions

/-!
# Paging: accesses through the window

`Boot m` is what every access of `paging.c` rests on: the tables of the first
two megabytes are where the boot code put them, the pages that hold them are
mapped to themselves, and the window is mapped somewhere. It is enough to say
where an access to these pages goes (`translate_ident`, `translate_window`) and
that the loop of `down` clears the frame in the window (`clearWindow_eq`).

`entries_put` and `entries_clear` take writes of memory to the entries of the
tables.
-/

namespace Frosk.Paging

open Lib

theorem entries_apply (m : Memory) (t : Nat) (i : Fin 512) :
    entries m t i = m.get 8 (t * pageSize + 8 * i) := rfl

theorem idx_val (d v : Nat) : ((hw.idx d v : Fin 512) : Nat) = v / 2 ^ (39 - 9 * d) % 512 := rfl

/-- The first table is the one of the start up. -/
theorem table_zero (ent : Entries (Fin 512)) (v : Nat) : hw.table ent v 0 = some 2 := rfl

/-- Each other table hangs on an entry of the one before. -/
theorem table_succ (ent : Entries (Fin 512)) (v d : Nat) :
    hw.table ent v (d + 1) = (hw.table ent v d).bind fun t => entryFrame (ent t (hw.idx d v)) :=
  rfl

/-- The walk reads the entry of the last table. -/
theorem walk_of_table {m : Memory} {v t : Nat} (h : hw.table (entries m) v 3 = some t) :
    walk m v = entries m t (hw.idx 3 v) := by
  rw [walk, Radix.leaf, h]

/-- A small address has index zero. -/
theorem idx_eq_zero {d a : Nat} (ha : a < 2 ^ (39 - 9 * d)) : hw.idx d a = 0 := by
  refine Fin.ext ?_
  rw [idx_val, Nat.div_eq_of_lt ha]
  rfl

-- ---------------------------------------------------------------------------
-- Memory and entries
-- ---------------------------------------------------------------------------

/-- Storing an entry changes that entry. -/
theorem entries_put (m : Memory) (t : Nat) (i : Fin 512) {e : Nat} (he : e < wordSize) :
    entries (m.put 8 (t * pageSize + 8 * i) e) = Radix.set (entries m) t i e := by
  funext t' i'
  by_cases h : t' = t ∧ i' = i
  · obtain ⟨rfl, rfl⟩ := h
    rw [Radix.set_self, entries_apply, Memory.get_put_self he]
  · have hne : t' ≠ t ∨ i' ≠ i := by
      by_contra hcon
      push Not at hcon
      exact h hcon
    rw [Radix.set_ne hne, entries_apply, entries_apply, Memory.get_put_of_disjoint]
    have hi := i.isLt
    have hi' := i'.isLt
    unfold pageSize
    rcases hne with hne | hne
    · omega
    · have hval : i'.val ≠ i.val := fun hv => hne (Fin.ext hv)
      by_cases ht : t' = t <;> omega

/-- A word of zeros is zero. -/
theorem fromLE_replicate (n : Nat) : fromLE (List.replicate n 0) = 0 := by
  induction n with
  | zero => rfl
  | succ n ih => rw [List.replicate_succ, fromLE, ih]; rfl

/-- Clearing a frame clears its table. -/
theorem entries_clear (m : Memory) (f : Nat) :
    entries (m.blit (f * pageSize) (List.replicate pageSize 0)) = Radix.clear (entries m) f := by
  funext t i
  have hi := i.isLt
  have hlen : (List.replicate pageSize (0 : UInt8)).length = 0x1000 := List.length_replicate
  by_cases ht : t = f
  · subst ht
    rw [Radix.clear_self, entries_apply, Memory.get,
      Memory.slice_blit_within (by rw [hlen]; omega), List.drop_replicate, List.take_replicate,
      fromLE_replicate]
  · rw [Radix.clear_ne ht, entries_apply, entries_apply, Memory.get_blit_of_disjoint]
    rw [hlen]
    unfold pageSize
    omega

-- ---------------------------------------------------------------------------
-- The first two megabytes
-- ---------------------------------------------------------------------------

/-- The tables of the boot code. -/
structure Boot (m : Memory) : Prop where
  l4     : m.get 8 pmL4Loc = pmL3Loc + 7
  l3     : m.get 8 pmL3Loc = pmL2Loc + 7
  l2     : m.get 8 pmL2Loc = pmL1Loc + 7
  ident  : ∀ i, 2 ≤ i → i ≤ 5 → m.get 8 (pmL1Loc + 8 * i) = i * pageSize + 3
  window : m.get 8 pgSwpEnt % 2 = 1

section Low

variable {m : Memory} (h : Boot m)
include h

/-- The low addresses are in the table of the start up. -/
theorem table_one {a : Nat} (ha : a < 2 ^ 39) : hw.table (entries m) a 1 = some 3 := by
  rw [table_succ, table_zero, Option.bind_some, idx_eq_zero (d := 0) ha, entries_apply]
  rw [show 2 * pageSize + 8 * ((0 : Fin 512) : Nat) = pmL4Loc by decide, h.l4]
  decide

theorem table_two {a : Nat} (ha : a < 2 ^ 30) : hw.table (entries m) a 2 = some 4 := by
  rw [table_succ, table_one h (by omega), Option.bind_some, idx_eq_zero (d := 1) ha, entries_apply]
  rw [show 3 * pageSize + 8 * ((0 : Fin 512) : Nat) = pmL3Loc by decide, h.l3]
  decide

theorem table_three {a : Nat} (ha : a < 2 ^ 21) : hw.table (entries m) a 3 = some 5 := by
  rw [table_succ, table_two h (by omega), Option.bind_some, idx_eq_zero (d := 2) ha, entries_apply]
  rw [show 4 * pageSize + 8 * ((0 : Fin 512) : Nat) = pmL2Loc by decide, h.l2]
  decide

/-- The low addresses are mapped by the last of these tables. -/
theorem walk_low {a : Nat} (ha : a < 2 ^ 21) :
    walk m a = m.get 8 (pmL1Loc + 8 * (a / pageSize)) := by
  have hidx : ((hw.idx 3 a : Fin 512) : Nat) = a / pageSize := by
    rw [idx_val]
    unfold pageSize
    omega
  rw [walk_of_table (table_three h ha), entries_apply, hidx, show 5 * pageSize = pmL1Loc by decide]

/-- The pages of the tables are mapped to themselves. -/
theorem translate_ident {a : Nat} (hlo : pmL4Loc ≤ a) (hhi : a < pgSwpLoc) :
    translate m a = some a := by
  have hpage : 2 ≤ a / pageSize ∧ a / pageSize ≤ 5 := by
    unfold pmL4Loc pgSwpLoc pageSize at *
    omega
  have hodd : (a / pageSize * pageSize + 3) % 2 = 1 := by
    unfold pageSize
    omega
  rw [translate, walk_low h (by unfold pgSwpLoc at hhi; omega), h.ident _ hpage.1 hpage.2,
    entryFrame, if_pos hodd, Option.map_some]
  refine congrArg some ?_
  unfold pageSize at *
  omega

/-- The window shows the frame of its entry. -/
theorem translate_window {off f : Nat} (hoff : off < pageSize)
    (hf : entryFrame (m.get 8 pgSwpEnt) = some f) :
    translate m (pgSwpLoc + off) = some (f * pageSize + off) := by
  have hpage : (pgSwpLoc + off) / pageSize = 6 := by
    unfold pgSwpLoc pageSize at *
    omega
  rw [translate, walk_low h (by unfold pgSwpLoc pageSize at *; omega), hpage]
  rw [show pmL1Loc + 8 * 6 = pgSwpEnt by decide, hf, Option.map_some]
  refine congrArg (fun x => some (f * pageSize + x)) ?_
  unfold pgSwpLoc pageSize at *
  omega

/-- The window may always be set. -/
theorem setq_window (e : Nat) : setq m pgSwpEnt e = some (m.put 8 pgSwpEnt e) := by
  rw [setq, translate_ident h (by decide) (by decide), Option.map_some]

/-- A write that does not meet the boot tables leaves them. -/
theorem boot_blit {a : Nat} {l : List UInt8}
    (hout : a + l.length ≤ pmL4Loc ∨ pgSwpLoc ≤ a) : Boot (m.blit a l) where
  l4 := by rw [Memory.get_blit_of_disjoint (by unfold pmL4Loc pgSwpLoc at *; omega), h.l4]
  l3 := by
    rw [Memory.get_blit_of_disjoint (by unfold pmL4Loc pmL3Loc pgSwpLoc at *; omega), h.l3]
  l2 := by
    rw [Memory.get_blit_of_disjoint (by unfold pmL4Loc pmL2Loc pgSwpLoc at *; omega), h.l2]
  ident i hlo hhi := by
    rw [Memory.get_blit_of_disjoint (by unfold pmL4Loc pmL1Loc pgSwpLoc at *; omega),
      h.ident i hlo hhi]
  window := by
    rw [Memory.get_blit_of_disjoint
      (by unfold pgSwpEnt pmL4Loc pmL1Loc pgSwpLoc pageSize at *; omega), h.window]

/-- The loop clears the frame in the window, if the tables are elsewhere. -/
theorem clearWindow_eq {f : Nat} (hf : entryFrame (m.get 8 pgSwpEnt) = some f)
    (hout : f < 2 ∨ 6 ≤ f) :
    clearWindow m = some (m.blit (f * pageSize) (List.replicate pageSize 0)) := by
  -- the first `n` rounds write `n` zeros
  have hrounds : ∀ n, n ≤ pageSize →
      (List.range n).foldlM (fun m i => setb m (pgSwpLoc + i) 0) m =
        some (m.blit (f * pageSize) (List.replicate n 0)) := by
    intro n
    induction n with
    | zero =>
      intro _
      refine congrArg some (funext fun x => ?_)
      rw [Memory.blit_outside (by simp [Nat.lt_or_ge])]
    | succ n ih =>
      intro hn
      have hlen : (List.replicate n (0 : UInt8)).length = n := List.length_replicate
      have hdis : f * pageSize + n ≤ pmL4Loc ∨ pgSwpLoc ≤ f * pageSize := by
        unfold pmL4Loc pgSwpLoc pageSize at *
        omega
      have hboot : Boot (m.blit (f * pageSize) (List.replicate n 0)) :=
        boot_blit h (by rw [hlen]; exact hdis)
      have hwin : (m.blit (f * pageSize) (List.replicate n 0)).get 8 pgSwpEnt =
          m.get 8 pgSwpEnt := by
        refine Memory.get_blit_of_disjoint ?_
        rw [hlen]
        unfold pgSwpEnt pmL1Loc pmL4Loc pgSwpLoc pageSize at *
        omega
      rw [List.range_succ, List.foldlM_append, ih (by omega)]
      simp only [Option.bind_eq_bind, Option.bind_some, List.foldlM_cons, List.foldlM_nil]
      rw [setb, translate_window hboot (by omega) (by rw [hwin]; exact hf)]
      simp only [Option.map_some, Option.bind_some, Option.pure_def]
      have happ := Memory.blit_append m (f * pageSize) (List.replicate n 0) [0]
      rw [hlen] at happ
      rw [happ, List.replicate_succ']
  exact hrounds pageSize (Nat.le_refl _)

end Low

end Frosk.Paging

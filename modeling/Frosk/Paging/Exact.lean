import Mathlib.Tactic
import Frosk.Paging.Window

/-!
# Paging: updates are exact

`Sound` is the invariant of the tables: those of the boot code, and a tree in
which every table is a frame in use. `down_spec` is one level of `getpage`.

Main result: `pageto_exact`. In every state that calls of `pageto` lead to from
the boot tables, `pageto(v, value)` makes the walk of `v` end at `value`, leaves
the walk of every other page but the window as it was, and makes no table with
anything in it but the path of `v`; asking for the page again needs no frame.
-/

namespace Frosk.Paging

open Lib

/-- The boot tables are there, and the tables are a tree of frames in use. -/
structure Sound (s : Machine) : Prop where
  boot : Boot s.mem
  tree : hw.IsTree (entries s.mem) 3 s.frames

/-- A page of either half. -/
def Canonical (v : Nat) : Prop :=
  v % pageSize = 0 ∧ (v < lowHalfTop ∨ (highHalfBot ≤ v ∧ v < wordSize))

/-- A page `pageto` may be applied to: it holds no boot table and is not the
window. -/
def Target (v : Nat) : Prop := Canonical v ∧ (v < pmL4Loc ∨ pgSwpLoc < v)

/-- `alloc_pgs` finds a frame as long as no more than `n` are in use. -/
def Supplies (S : Frames) (n : Nat) : Prop := ∀ l : List Nat, l.length ≤ n → S.pick l ≠ none

-- ---------------------------------------------------------------------------
-- Addresses
-- ---------------------------------------------------------------------------

/-- The address `getpage` works with. -/
def lowered (v : Nat) : Nat := if highHalfBot ≤ v then v - nonCanonSize else v

/-- The tables know an address by its low bits. -/
theorem idx_lowered {v d : Nat} (hd : d ≤ 3) : hw.idx d (lowered v) = hw.idx d v := by
  refine Fin.ext ?_
  rw [idx_val, idx_val, lowered]
  split
  · rename_i hv
    unfold highHalfBot nonCanonSize at *
    obtain rfl | rfl | rfl | rfl : d = 0 ∨ d = 1 ∨ d = 2 ∨ d = 3 := by omega
    all_goals norm_num only
    all_goals omega
  · rfl

/-- So the lowered address goes the same way. -/
theorem samePath_lowered (v : Nat) : hw.SamePath 4 (lowered v) v :=
  fun _ hj => idx_lowered (by omega)

/-- Pages are told apart by their way through the tables. -/
theorem eq_of_samePath {v w : Nat} (hv : Canonical v) (hw' : Canonical w)
    (h : hw.SamePath 4 v w) : v = w := by
  have h₀ := congrArg Fin.val (h 0 (by omega))
  have h₁ := congrArg Fin.val (h 1 (by omega))
  have h₂ := congrArg Fin.val (h 2 (by omega))
  have h₃ := congrArg Fin.val (h 3 (by omega))
  rw [idx_val, idx_val] at h₀ h₁ h₂ h₃
  unfold Canonical lowHalfTop highHalfBot wordSize pageSize at *
  norm_num only at h₀ h₁ h₂ h₃
  omega

/-- `getEntry` computes the place of the entry in its table. -/
theorem getEntry_eq (d addr tbl : Nat) :
    getEntry addr tbl (39 - 9 * d) = tbl + 8 * (hw.idx d addr : Fin 512) := by
  rw [getEntry, idx_val, show (0xfff : Nat) = 2 ^ 12 - 1 by decide, Nat.and_two_pow_sub_one_eq_mod,
    Nat.shiftLeft_eq, Nat.shiftRight_eq_div_pow]
  omega

/-- A frame with its flags. -/
theorem frame_or (f : Nat) : f * pageSize ||| 7 = f * pageSize + 7 :=
  paged_or (Nat.mul_mod_left _ _) (by decide)

/-- The frame is read from an entry with its flags. -/
theorem entryFrame_or {f : Nat} (hf : f < 2 ^ 40) : entryFrame (f * pageSize ||| 7) = some f := by
  rw [frame_or, entryFrame, if_pos (by unfold pageSize; omega)]
  refine congrArg some ?_
  unfold pageSize
  omega

theorem dec_eq (e : Nat) : hw.dec e = entryFrame e := rfl

/-- An entry without the present bit has no frame. -/
theorem entryFrame_eq_none {e : Nat} : entryFrame e = none ↔ e &&& 1 = 0 := by
  rw [Nat.and_one_is_mod, entryFrame]
  split
  · rename_i h
    simp [h]
  · rename_i h
    simp only [true_iff]
    omega

-- ---------------------------------------------------------------------------
-- One write
-- ---------------------------------------------------------------------------

section Write

variable {s : Machine} (h : Sound s)
include h

/-- A slot of a tree is not one of the boot code's, if it is on another path. -/
theorem boot_put {v d t : Nat} (hd : d ≤ 3) (ht : hw.table (entries s.mem) v d = some t)
    (hout : ∀ a, a % pageSize = 0 → pmL4Loc ≤ a → a ≤ pgSwpLoc → ¬ hw.SamePath (d + 1) a v)
    (e : Nat) :
    Boot (s.mem.put 8 (t * pageSize + 8 * (hw.idx d v : Fin 512)) e) := by
  have hsep : ∀ {a i t'}, i ≤ 3 → hw.table (entries s.mem) a i = some t' → a % pageSize = 0 →
      pmL4Loc ≤ a → a ≤ pgSwpLoc → (s.mem.put 8 (t * pageSize + 8 * (hw.idx d v : Fin 512)) e).get 8
        (t' * pageSize + 8 * (hw.idx i a : Fin 512)) =
          s.mem.get 8 (t' * pageSize + 8 * (hw.idx i a : Fin 512)) := by
    intro a i t' hi ht' hpage hlo hhi
    have hne := Radix.isTree_slot_ne h.tree hi hd ht' ht (by
      rintro ⟨rfl, hpath⟩
      exact hout a hpage hlo hhi hpath)
    have hia := (hw.idx i a).isLt
    have hdv := (hw.idx d v).isLt
    refine Memory.get_put_of_disjoint ?_
    unfold pageSize
    rcases hne with hne | hne
    · omega
    · have hval : ((hw.idx i a : Fin 512) : Nat) ≠ (hw.idx d v : Fin 512) :=
        fun hv => hne (Fin.ext hv)
      by_cases htt : t' = t <;> omega
  have hlow : ∀ i, i ≤ 3 → ∀ a, a ≤ pgSwpLoc → ((hw.idx i a : Fin 512) : Nat) =
      if i = 3 then a / pageSize else 0 := by
    intro i hi a ha
    rw [idx_val]
    unfold pgSwpLoc pageSize at *
    obtain rfl | rfl | rfl | rfl : i = 0 ∨ i = 1 ∨ i = 2 ∨ i = 3 := by omega
    all_goals norm_num only
    all_goals simp only [reduceIte]
    all_goals omega
  refine ⟨?_, ?_, ?_, ?_, ?_⟩
  · have hget := hsep (a := pmL4Loc) (i := 0) (by omega) (table_zero _ _) (by decide)
      (Nat.le_refl _) (by decide)
    rw [hlow 0 (by omega) _ (by decide)] at hget
    exact hget.trans h.boot.l4
  · have hget := hsep (a := pmL4Loc) (i := 1) (by omega) (table_one h.boot (by decide))
      (by decide) (Nat.le_refl _) (by decide)
    rw [hlow 1 (by omega) _ (by decide)] at hget
    exact hget.trans h.boot.l3
  · have hget := hsep (a := pmL4Loc) (i := 2) (by omega) (table_two h.boot (by decide))
      (by decide) (Nat.le_refl _) (by decide)
    rw [hlow 2 (by omega) _ (by decide)] at hget
    exact hget.trans h.boot.l2
  · intro i hlo hhi
    have hpage : i * pageSize / pageSize = i := Nat.mul_div_cancel i (by decide)
    have hget := hsep (a := i * pageSize) (i := 3) (by omega)
      (table_three h.boot (by unfold pageSize; omega)) (Nat.mul_mod_left _ _)
      (by unfold pmL4Loc pageSize; omega) (by unfold pgSwpLoc pageSize; omega)
    rw [hlow 3 (by omega) _ (by unfold pgSwpLoc pageSize; omega), if_pos rfl, hpage] at hget
    exact hget.trans (h.boot.ident i hlo hhi)
  · have hget := hsep (a := pgSwpLoc) (i := 3) (by omega) (table_three h.boot (by decide))
      (by decide) (by decide) (Nat.le_refl _)
    rw [hlow 3 (by omega) _ (by decide)] at hget
    exact (congrArg (· % 2) hget).trans h.boot.window

end Write

/-- Moving the window keeps the tables of the start up. -/
theorem boot_window {m : Memory} (h : Boot m) {e : Nat} (he : e < wordSize) (hodd : e % 2 = 1) :
    Boot (m.put 8 pgSwpEnt e) where
  l4 := by rw [Memory.get_put_of_disjoint (by decide), h.l4]
  l3 := by rw [Memory.get_put_of_disjoint (by decide), h.l3]
  l2 := by rw [Memory.get_put_of_disjoint (by decide), h.l2]
  ident i hlo hhi := by
    rw [Memory.get_put_of_disjoint (by unfold pgSwpEnt pmL1Loc pgSwpLoc pageSize; omega),
      h.ident i hlo hhi]
  window := by rw [Memory.get_put_self he, hodd]

theorem entries_window (m : Memory) {e : Nat} (he : e < wordSize) :
    entries (m.put 8 pgSwpEnt e) = Radix.set (entries m) 5 (hw.idx 3 pgSwpLoc) e :=
  entries_put m 5 (hw.idx 3 pgSwpLoc) he

/-- The frames of the boot tables are in use. -/
theorem boot_frames {s : Machine} (h : Sound s) {f : Nat} (hlo : 2 ≤ f) (hhi : f ≤ 5) :
    f ∈ s.frames := by
  obtain rfl | rfl | rfl | rfl : f = 2 ∨ f = 3 ∨ f = 4 ∨ f = 5 := by omega
  · exact h.tree.used 0 0 2 (by omega) (table_zero _ _)
  · exact h.tree.used 0 1 3 (by omega) (table_one h.boot (by decide))
  · exact h.tree.used 0 2 4 (by omega) (table_two h.boot (by decide))
  · exact h.tree.used 0 3 5 (by omega) (table_three h.boot (by decide))

-- ---------------------------------------------------------------------------
-- One level
-- ---------------------------------------------------------------------------

/-- The window was moved to the table of `addr` one level below depth `d`. -/
structure Descended (s s' : Machine) (addr d : Nat) : Prop where
  sound  : Sound s'
  shown  : ∃ t, hw.table (entries s'.mem) addr (d + 1) = some t ∧
    entryFrame (s'.mem.get 8 pgSwpEnt) = some t
  tables : ∀ w j t, j ≤ 3 → hw.table (entries s.mem) w j = some t →
    hw.table (entries s'.mem) w j = some t
  walks  : ∀ w, ¬ hw.SamePath 4 pgSwpLoc w → walk s'.mem w = walk s.mem w
  frames : s.frames ⊆ s'.frames ∧ s'.frames.length ≤ s.frames.length + 1
  fresh  : ∀ f ∈ s'.frames, f ∉ s.frames →
    hw.table (entries s'.mem) addr (d + 1) = some f ∧ ∀ i, entries s'.mem f i = 0
  others : ∀ t i, t ∈ s.frames → t ≠ 5 →
    ¬ (hw.table (entries s.mem) addr d = some t ∧ i = hw.idx d addr) →
      entries s'.mem t i = entries s.mem t i
  again  : hw.table (entries s.mem) addr (d + 1) ≠ none → s'.frames = s.frames

section Down

variable {s : Machine} {addr d t : Nat} (h : Sound s) (hd : d < 3)
  (ht : hw.table (entries s.mem) addr d = some t)
include h hd ht

/-- The entry is present: the window shows its table. -/
theorem descended_present {e f : Nat} (he : entries s.mem t (hw.idx d addr) = e)
    (hf : entryFrame e = some f) : Descended s ⟨s.mem.put 8 pgSwpEnt e, s.frames⟩ addr d := by
  have hlt : e < wordSize := he ▸ Memory.get_lt
  have hodd : e % 2 = 1 := by
    rw [entryFrame] at hf
    split at hf
    · assumption
    · cases hf
  have hwin := table_three h.boot (show pgSwpLoc < 2 ^ 21 by decide)
  have hsucc : hw.table (entries s.mem) addr (d + 1) = some f := by
    rw [table_succ, ht, Option.bind_some, he, hf]
  have hent := entries_window s.mem hlt
  have htab : ∀ w j, j ≤ 3 → hw.table (entries (s.mem.put 8 pgSwpEnt e)) w j =
      hw.table (entries s.mem) w j := by
    intro w j hj
    rw [hent, Radix.table_set h.tree hwin e hj]
  refine ⟨⟨boot_window h.boot hlt hodd, ?_⟩, ⟨f, ?_, ?_⟩, ?_, ?_, ?_, ?_, ?_, fun _ => rfl⟩
  · rw [hent]
    exact Radix.isTree_set h.tree hwin e
  · rw [htab addr (d + 1) (by omega), hsucc]
  · rw [Memory.get_put_self hlt, hf]
  · intro w j t' hj ht'
    rw [htab w j hj, ht']
  · intro w hw'
    rw [walk, walk, hent, Radix.leaf_set_other h.tree hwin e hw']
  · exact ⟨List.Subset.refl _, Nat.le_succ _⟩
  · exact fun f' hmem hnot => absurd hmem hnot
  · intro t' i _ ht5 _
    rw [hent, Radix.set_ne (.inl ht5)]

/-- Nothing hangs in an absent entry, so no path of the boot code goes through
it. -/
theorem low_apart (habs : entryFrame (entries s.mem t (hw.idx d addr)) = none) :
    (∀ a, hw.SamePath (d + 1) addr a → hw.table (entries s.mem) a (d + 1) = none) ∧
    ∀ a, a < 2 ^ 21 → ¬ hw.SamePath (d + 1) addr a := by
  have hnone : ∀ a, hw.SamePath (d + 1) addr a → hw.table (entries s.mem) a (d + 1) = none := by
    intro a ha
    rw [← Radix.table_of_samePath ha, table_succ, ht, Option.bind_some, habs]
  refine ⟨hnone, ?_⟩
  intro a ha hpath
  have hthree := Radix.table_none_mono (hnone a hpath) (show d + 1 ≤ 3 by omega)
  rw [table_three h.boot ha] at hthree
  cases hthree

section Hang

variable {f e : Nat} (habs : entryFrame (entries s.mem t (hw.idx d addr)) = none)
  (hfresh : f ∉ s.frames) (he : entryFrame e = some f)
include habs hfresh he

/-- An empty table is hung in and shown in the window, as a change of entries. -/
theorem descended_hung {m : Memory} (hboot : Boot m)
    (hent : entries m = Radix.set (Radix.clear (Radix.set (entries s.mem) t (hw.idx d addr) e) f) 5
      (hw.idx 3 pgSwpLoc) e) (hwindow : m.get 8 pgSwpEnt = e) :
    Descended s ⟨m, f :: s.frames⟩ addr d := by
  obtain ⟨hnone, hlow⟩ := low_apart h hd ht habs
  have hzero : hw.dec 0 = none := by decide
  have hfive : f ≠ 5 := fun hcon => hfresh (hcon ▸ boot_frames h (by omega) (by omega))
  have hgrown := Radix.isTree_grow h.tree hd ht hfresh he hzero
  have hwin : hw.table (Radix.clear (Radix.set (entries s.mem) t (hw.idx d addr) e) f) pgSwpLoc 3 =
      some 5 := by
    rw [Radix.table_grow_other h.tree hd ht hfresh (Nat.le_refl 3)
      (fun hcon => hlow pgSwpLoc (by decide) hcon.2)]
    exact table_three h.boot (by decide)
  have htabf : hw.table (entries m) addr (d + 1) = some f := by
    rw [hent, Radix.table_set hgrown hwin e (by omega)]
    exact Radix.table_grow_self h.tree hd ht hfresh he fun _ _ => rfl
  refine ⟨⟨hboot, ?_⟩, ⟨f, htabf, ?_⟩, ?_, ?_, ?_, ?_, ?_, ?_⟩
  · rw [hent]
    exact Radix.isTree_set hgrown hwin e
  · rw [hwindow, he]
  · intro w j t' hj ht'
    rw [hent, Radix.table_set hgrown hwin e hj, Radix.table_grow_other h.tree hd ht hfresh hj, ht']
    rintro ⟨hlt, hpath⟩
    rw [Radix.table_none_mono (hnone w hpath) hlt] at ht'
    cases ht'
  · intro w hw'
    have hleaf := Radix.leaf_grow h.tree hd ht hfresh he hzero (by rw [dec_eq, habs]) w
    rw [walk, walk, hent, Radix.leaf_set_other hgrown hwin e hw', hleaf]
  · exact ⟨List.subset_cons_self f _, Nat.le_refl _⟩
  · intro f' hmem hnot
    have hff : f' = f := (List.mem_cons.mp hmem).resolve_right hnot
    rw [hff]
    refine ⟨htabf, ?_⟩
    intro i
    rw [hent, Radix.set_ne (.inl hfive), Radix.clear_self]
  · intro t' i ht' ht5 hslot
    have hne : t' ≠ f := fun hcon => hfresh (hcon ▸ ht')
    rw [hent, Radix.set_ne (.inl ht5), Radix.clear_ne hne, Radix.set_ne]
    by_contra hcon
    push Not at hcon
    exact hslot ⟨by rw [ht, hcon.1], hcon.2⟩
  · intro hpresent
    rw [table_succ, ht, Option.bind_some, habs] at hpresent
    exact absurd rfl hpresent

/-- The entry is absent: the stores of `down` hang in an empty table. -/
theorem descended_absent (hlt : e < wordSize) (hodd : e % 2 = 1) :
    ∃ m, setq (s.mem.put 8 (t * pageSize + 8 * (hw.idx d addr : Fin 512)) e) pgSwpEnt e = some m ∧
      ∃ m', clearWindow m = some m' ∧ Descended s ⟨m', f :: s.frames⟩ addr d := by
  have hsix : f < 2 ∨ 6 ≤ f := by
    by_contra hcon
    exact hfresh (boot_frames h (by omega) (by omega))
  have hboot₁ : Boot (s.mem.put 8 (t * pageSize + 8 * (hw.idx d addr : Fin 512)) e) := by
    refine boot_put h (by omega) ht (fun a _ _ hhi hpath => ?_) e
    refine (low_apart h hd ht habs).2 a ?_ hpath.symm
    unfold pgSwpLoc at hhi
    omega
  have hboot₂ := boot_window hboot₁ hlt hodd
  have hget := Memory.get_put_self (n := 8)
    (m := s.mem.put 8 (t * pageSize + 8 * (hw.idx d addr : Fin 512)) e) (a := pgSwpEnt) hlt
  refine ⟨_, setq_window hboot₁ e, _, clearWindow_eq hboot₂ (by rw [hget, he]) hsix, ?_⟩
  have hdis : f * pageSize + (List.replicate pageSize (0 : UInt8)).length ≤ pmL4Loc ∨
      pgSwpLoc ≤ f * pageSize := by
    rw [List.length_replicate]
    unfold pageSize pmL4Loc pgSwpLoc
    omega
  refine descended_hung h hd ht habs hfresh he (boot_blit hboot₂ hdis) ?_ ?_
  · rw [entries_clear, entries_window _ hlt, entries_put _ _ _ hlt,
      Radix.clear_set_comm (show (5 : Nat) ≠ f by omega)]
  · rw [Memory.get_blit_of_disjoint, hget]
    unfold pgSwpEnt pmL1Loc pmL4Loc pgSwpLoc pageSize at *
    omega

end Hang

/-- One level of `getpage`, with a view of the table in hand at `tbl`. -/
theorem down_spec {S : Frames} {tbl : Nat}
    (hS : hw.table (entries s.mem) addr (d + 1) = none → S.pick s.frames ≠ none)
    (hview : ∀ off, off < pageSize → translate s.mem (tbl + off) = some (t * pageSize + off)) :
    ∃ s', down S addr tbl (39 - 9 * d) s = some s' ∧ Descended s s' addr d := by
  have hoff : 8 * ((hw.idx d addr : Fin 512) : Nat) < pageSize := by
    have hlt := (hw.idx d addr).isLt
    unfold pageSize
    omega
  have hread : atq s.mem (getEntry addr tbl (39 - 9 * d)) =
      some (entries s.mem t (hw.idx d addr)) := by
    rw [getEntry_eq, atq, hview _ hoff, Option.map_some, entries_apply]
  have hwrite : ∀ v, setq s.mem (getEntry addr tbl (39 - 9 * d)) v =
      some (s.mem.put 8 (t * pageSize + 8 * (hw.idx d addr : Fin 512)) v) := by
    intro v
    rw [getEntry_eq, setq, hview _ hoff, Option.map_some]
  rw [down, hread, Option.bind_some]
  cases hf : entryFrame (entries s.mem t (hw.idx d addr)) with
  | none =>
    rw [if_pos (entryFrame_eq_none.mp hf)]
    have hnone : hw.table (entries s.mem) addr (d + 1) = none := by
      rw [table_succ, ht, Option.bind_some, hf]
    obtain ⟨f, hpick⟩ := Option.ne_none_iff_exists'.mp (hS hnone)
    have hval := frame_or f
    have hlt := S.lt hpick
    obtain ⟨m, hm, m', hm', hdesc⟩ := descended_absent h hd ht hf (S.fresh hpick)
      (entryFrame_or hlt) (by rw [hval]; unfold pageSize wordSize; omega)
      (by rw [hval]; unfold pageSize; omega)
    refine ⟨_, ?_, hdesc⟩
    simp only [hpick, hwrite, hm, hm', Option.bind_eq_bind, Option.bind_some]
  | some f =>
    have hne : ¬ entries s.mem t (hw.idx d addr) &&& 1 = 0 := by
      intro hz
      rw [entryFrame_eq_none.mpr hz] at hf
      cases hf
    rw [if_neg hne, setq_window h.boot, Option.map_some]
    exact ⟨_, rfl, descended_present h hd ht rfl hf⟩

end Down

-- ---------------------------------------------------------------------------
-- getpage
-- ---------------------------------------------------------------------------

/-- What `getpage` has done after `d` levels, from a state `s`. -/
structure Reached (s s' : Machine) (addr d : Nat) : Prop where
  sound  : Sound s'
  shown  : ∃ t, hw.table (entries s'.mem) addr d = some t ∧
    (0 < d → entryFrame (s'.mem.get 8 pgSwpEnt) = some t)
  tables : ∀ w j t, j ≤ 3 → hw.table (entries s.mem) w j = some t →
    hw.table (entries s'.mem) w j = some t
  walks  : ∀ w, ¬ hw.SamePath 4 pgSwpLoc w → walk s'.mem w = walk s.mem w
  frames : s.frames ⊆ s'.frames ∧ s'.frames.length ≤ s.frames.length + d
  fresh  : ∀ f ∈ s'.frames, f ∉ s.frames → ∃ j, j ≤ d ∧ hw.table (entries s'.mem) addr j = some f ∧
    ∀ i, ¬ (j < d ∧ i = hw.idx j addr) → entries s'.mem f i = 0
  again  : hw.table (entries s.mem) addr d ≠ none → s'.frames = s.frames

/-- At the first level nothing has happened yet. -/
theorem reached_zero {s : Machine} (h : Sound s) (addr : Nat) : Reached s s addr 0 where
  sound := h
  shown := ⟨2, table_zero _ _, fun hpos => absurd hpos (Nat.lt_irrefl 0)⟩
  tables _ _ _ _ ht := ht
  walks _ _ := rfl
  frames := ⟨List.Subset.refl _, Nat.le_refl _⟩
  fresh _ hmem hnot := absurd hmem hnot
  again _ := rfl

/-- One level more is reached from the last. -/
theorem reached_succ {s₀ s s' : Machine} {addr d : Nat} (hd : d < 3) (hstart : Sound s₀)
    (h : Reached s₀ s addr d) (hstep : Descended s s' addr d) : Reached s₀ s' addr (d + 1) where
  sound := hstep.sound
  shown := by
    obtain ⟨t, ht, hwin⟩ := hstep.shown
    exact ⟨t, ht, fun _ => hwin⟩
  tables w j t hj ht := hstep.tables w j t hj (h.tables w j t hj ht)
  walks w hw' := (hstep.walks w hw').trans (h.walks w hw')
  frames := by
    refine ⟨List.Subset.trans h.frames.1 hstep.frames.1, ?_⟩
    have h₁ := h.frames.2
    have h₂ := hstep.frames.2
    omega
  fresh f hmem hnot := by
    by_cases hf : f ∈ s.frames
    · -- made on an earlier level: only its entry for the next level was set since
      obtain ⟨j, hj, htab, hzero⟩ := h.fresh f hf hnot
      refine ⟨j, by omega, hstep.tables addr j f (by omega) htab, ?_⟩
      intro i hi
      have hfive : f ≠ 5 := fun hcon => hnot (hcon ▸ boot_frames hstart (by omega) (by omega))
      have hidx : i ≠ hw.idx j addr := fun hcon => hi ⟨by omega, hcon⟩
      rw [hstep.others f i hf hfive, hzero i fun hcon => hidx hcon.2]
      rintro ⟨hfd, hid⟩
      obtain ⟨rfl, _⟩ := h.sound.tree.inj addr addr d j f (by omega) (by omega) hfd htab
      exact hidx hid
    · obtain ⟨htab, hzero⟩ := hstep.fresh f hmem hf
      exact ⟨d + 1, Nat.le_refl _, htab, fun i _ => hzero i⟩
  again hsome := by
    obtain ⟨t, ht⟩ := Option.ne_none_iff_exists'.mp hsome
    have hd' : hw.table (entries s₀.mem) addr d ≠ none := by
      intro hnone
      rw [table_succ, hnone] at ht
      cases ht
    have hsome' : hw.table (entries s.mem) addr (d + 1) ≠ none := by
      rw [h.tables addr (d + 1) t (by omega) ht]
      exact Option.some_ne_none t
    rw [hstep.again hsome', h.again hd']

section Getpage

variable {S : Frames} {s : Machine} {virt : Nat} (h : Sound s) (hpage : virt % pageSize = 0)
include h hpage

/-- `getpage` reaches the last level and returns the entry in the window. -/
theorem getpage_spec (hS : hw.table (entries s.mem) (lowered virt) 3 = none →
      Supplies S (s.frames.length + 2)) :
    ∃ s', getpage S virt s = some (s', getEntry (lowered virt) pgSwpLoc 12) ∧
      Reached s s' (lowered virt) 3 := by
  -- each level is a `down`; only the view of the table in hand differs
  have hlevel : ∀ {d s₁} (tbl : Nat), d < 3 → Reached s s₁ (lowered virt) d →
      (∀ t off, hw.table (entries s₁.mem) (lowered virt) d = some t → off < pageSize →
        translate s₁.mem (tbl + off) = some (t * pageSize + off)) →
      ∃ s₂, down S (lowered virt) tbl (39 - 9 * d) s₁ = some s₂ ∧
        Reached s s₂ (lowered virt) (d + 1) := by
    intro d s₁ tbl hd hr hview
    obtain ⟨t, ht, _⟩ := hr.shown
    have hpick : hw.table (entries s₁.mem) (lowered virt) (d + 1) = none →
        S.pick s₁.frames ≠ none := by
      intro hnone
      refine hS ?_ _ ?_
      · cases htop : hw.table (entries s.mem) (lowered virt) 3 with
        | none => rfl
        | some t' =>
          have hthree := hr.tables _ 3 t' (by omega) htop
          rw [Radix.table_none_mono hnone (by omega)] at hthree
          cases hthree
      · have hlen := hr.frames.2
        omega
    obtain ⟨s₂, hdown, hdesc⟩ := down_spec hr.sound hd ht hpick
      (fun off hoff => hview t off ht hoff)
    exact ⟨s₂, hdown, reached_succ hd h hr hdesc⟩
  have hwindow : ∀ {d s₁}, 0 < d → Reached s s₁ (lowered virt) d →
      ∀ t off, hw.table (entries s₁.mem) (lowered virt) d = some t → off < pageSize →
        translate s₁.mem (pgSwpLoc + off) = some (t * pageSize + off) := by
    intro d s₁ hpos hr t off ht hoff
    obtain ⟨t', ht', hwin⟩ := hr.shown
    obtain rfl : t = t' := Option.some.inj (ht.symm.trans ht')
    exact translate_window hr.sound.boot hoff (hwin hpos)
  obtain ⟨s₁, h₁, hr₁⟩ := hlevel pmL4Loc (by omega) (reached_zero h (lowered virt))
    (fun t off ht hoff => by
      obtain rfl : 2 = t := Option.some.inj ht
      exact translate_ident h.boot (by omega) (by unfold pmL4Loc pgSwpLoc pageSize at *; omega))
  obtain ⟨s₂, h₂, hr₂⟩ := hlevel pgSwpLoc (by omega) hr₁ (hwindow (by omega) hr₁)
  obtain ⟨s₃, h₃, hr₃⟩ := hlevel pgSwpLoc (by omega) hr₂ (hwindow (by omega) hr₂)
  refine ⟨s₃, ?_, hr₃⟩
  rw [getpage, if_neg (by omega)]
  simp only [Option.bind_eq_bind]
  show ((down S (lowered virt) pmL4Loc (39 - 9 * 0) s).bind fun s =>
    (down S (lowered virt) pgSwpLoc (39 - 9 * 1) s).bind fun s =>
      (down S (lowered virt) pgSwpLoc (39 - 9 * 2) s).bind fun s => _) = _
  rw [h₁, Option.bind_some, h₂, Option.bind_some, h₃, Option.bind_some]
  rfl

end Getpage

-- ---------------------------------------------------------------------------
-- The boot tables
-- ---------------------------------------------------------------------------

/-- The entries of the first table. -/
theorem shift_or (i : Nat) : i <<< 12 ||| 3 = i * pageSize + 3 := by
  rw [Nat.shiftLeft_eq]
  exact paged_or (Nat.mul_mod_left _ _) (by decide)

/-- The loop of the boot code sets every other double word of its table. -/
theorem bootEntry_get {m : Memory} {n a : Nat} (hn : n ≤ 512) (ha : a % 4 = 0) :
    ((List.range n).foldl bootEntry m).get 4 a =
      if pmL1Loc ≤ a ∧ (a - pmL1Loc) % 8 = 0 ∧ (a - pmL1Loc) / 8 < n then
        (a - pmL1Loc) / 8 * pageSize + 3
      else m.get 4 a := by
  induction n with
  | zero => simp
  | succ n ih =>
    rw [List.range_succ, List.foldl_append, List.foldl_cons, List.foldl_nil, bootEntry]
    by_cases hlast : a = pmL1Loc + n * 8
    · have hval : (a - pmL1Loc) / 8 = n := by omega
      have hlt : n <<< 12 ||| 3 < 256 ^ 4 := by
        rw [shift_or]
        unfold pageSize
        omega
      rw [if_pos (by omega), hval, hlast, Memory.get_put_self hlt, shift_or]
    · rw [Memory.get_put_of_disjoint (by unfold pmL1Loc at *; omega), ih (by omega)]
      refine if_congr ?_ rfl rfl
      unfold pmL1Loc at *
      omega

/-- The double words of the boot tables. -/
theorem bootTables_get (m : Memory) {a : Nat} (ha : a % 4 = 0) (hlo : pmL4Loc ≤ a)
    (hhi : a < pgSwpLoc) : (bootTables m).get 4 a =
      if a < pmL1Loc then if a % pageSize = 0 then a + pageSize + 7 else 0
      else if a % 8 = 0 then (a - pmL1Loc) / 8 * pageSize + 3 else 0 := by
  have hzero : (m.blit pmL4Loc (List.replicate 0x4000 0)).get 4 a = 0 := by
    obtain ⟨k, rfl⟩ := Nat.exists_eq_add_of_le hlo
    rw [Memory.get, Memory.slice_blit_within
      (by rw [List.length_replicate]; unfold pmL4Loc pgSwpLoc at *; omega), List.drop_replicate,
      List.take_replicate, fromLE_replicate]
  have hrest : ((((m.blit pmL4Loc (List.replicate 0x4000 0)).put 4 pmL4Loc (pmL3Loc ||| 7)).put 4
      pmL3Loc (pmL2Loc ||| 7)).put 4 pmL2Loc (pmL1Loc ||| 7)).get 4 a =
        if a < pmL1Loc ∧ a % pageSize = 0 then a + pageSize + 7 else 0 := by
    split
    · rename_i hhead
      obtain rfl | rfl | rfl : a = pmL4Loc ∨ a = pmL3Loc ∨ a = pmL2Loc := by
        simp only [pmL4Loc, pmL3Loc, pmL2Loc, pmL1Loc, pageSize] at *
        omega
      · rw [Memory.get_put_of_disjoint (by decide), Memory.get_put_of_disjoint (by decide),
          Memory.get_put_self (by decide)]
        rfl
      · rw [Memory.get_put_of_disjoint (by decide), Memory.get_put_self (by decide)]
        rfl
      · rw [Memory.get_put_self (by decide)]
        rfl
    · rename_i hhead
      have hoff : ∀ b, b = pmL4Loc ∨ b = pmL3Loc ∨ b = pmL2Loc → a + 4 ≤ b ∨ b + 4 ≤ a := by
        intro b hb
        simp only [pmL4Loc, pmL3Loc, pmL2Loc, pmL1Loc, pageSize] at *
        omega
      rw [Memory.get_put_of_disjoint (hoff _ (.inr (.inr rfl))),
        Memory.get_put_of_disjoint (hoff _ (.inr (.inl rfl))),
        Memory.get_put_of_disjoint (hoff _ (.inl rfl)), hzero]
  have hloop : (pmL1Loc ≤ a ∧ (a - pmL1Loc) % 8 = 0 ∧ (a - pmL1Loc) / 8 < 512) ↔
      (pmL1Loc ≤ a ∧ a % 8 = 0) := by
    simp only [pmL1Loc, pgSwpLoc] at *
    omega
  rw [bootTables, bootEntry_get (Nat.le_refl _) ha, if_congr hloop rfl rfl]
  rcases Nat.lt_or_ge a pmL1Loc with hlt | hge
  · rw [if_neg (fun h => absurd hlt (Nat.not_lt.mpr h.1)), if_pos hlt]
    refine hrest.trans (if_congr ?_ rfl rfl)
    exact and_iff_right hlt
  · rw [if_neg (Nat.not_lt.mpr hge)]
    refine if_congr (and_iff_right hge) rfl (hrest.trans (if_neg ?_))
    exact fun h => absurd h.1 (Nat.not_lt.mpr hge)

/-- The entries of the tables that the start up builds. -/
theorem bootTables_entry (m : Memory) {t : Nat} (hlo : 2 ≤ t) (hhi : t ≤ 5) (i : Fin 512) :
    entries (bootTables m) t i =
      if t = 5 then i * pageSize + 3 else if i = 0 then (t + 1) * pageSize + 7 else 0 := by
  have hi := i.isLt
  have hlow := bootTables_get m (a := t * pageSize + 8 * i) (by simp only [pageSize]; omega)
    (by simp only [pmL4Loc, pageSize]; omega) (by simp only [pgSwpLoc, pageSize]; omega)
  have hhigh := bootTables_get m (a := t * pageSize + 8 * i + 4) (by simp only [pageSize]; omega)
    (by simp only [pmL4Loc, pageSize]; omega) (by simp only [pgSwpLoc, pageSize]; omega)
  have hhigh' : (bootTables m).get 4 (t * pageSize + 8 * i + 4) = 0 := by
    have hpage : ¬ (t * pageSize + 8 * i + 4) % pageSize = 0 := by
      simp only [pageSize]
      omega
    rw [hhigh, if_neg hpage, if_neg (show ¬ (t * pageSize + 8 * i + 4) % 8 = 0 by
      simp only [pageSize]; omega), ite_self]
  rw [entries_apply, show 8 = 4 + 4 from rfl, Memory.get_add, hhigh', Nat.mul_zero, Nat.add_zero,
    hlow]
  by_cases ht : t = 5
  · subst ht
    rw [if_pos rfl, if_neg (by simp only [pmL1Loc, pageSize]; omega),
      if_pos (by simp only [pageSize]; omega)]
    simp only [pmL1Loc, pageSize]
    omega
  · rw [if_neg ht, if_pos (by simp only [pmL1Loc, pageSize]; omega)]
    by_cases hi0 : i = 0
    · subst hi0
      rw [if_pos rfl, if_pos (by simp only [pageSize]; omega)]
      simp only [pageSize, Fin.val_zero]
      omega
    · have hne : (i : Nat) ≠ 0 := fun h => hi0 (Fin.ext h)
      rw [if_neg hi0, if_neg (by simp only [pageSize]; omega)]

/-- Tables like those of the boot code are sound. -/
theorem sound_of_entries {m : Memory} (hent : ∀ t, 2 ≤ t → t ≤ 5 → ∀ i : Fin 512, entries m t i =
      if t = 5 then i * pageSize + 3 else if i = 0 then (t + 1) * pageSize + 7 else 0)
    (l : List Nat) : Sound ⟨m, [2, 3, 4, 5] ++ l⟩ := by
  -- a table of the boot code is reached by the first index on every level
  have htab : ∀ v j t, j ≤ 3 → hw.table (entries m) v j = some t →
      t = j + 2 ∧ ∀ i < j, hw.idx i v = 0 := by
    intro v j
    induction j with
    | zero =>
      intro t _ ht
      exact ⟨(Option.some.inj ht).symm, fun i hi => absurd hi (Nat.not_lt_zero i)⟩
    | succ j ih =>
      intro t hj ht
      rw [table_succ] at ht
      obtain ⟨u, hu, ht⟩ := Option.bind_eq_some_iff.mp ht
      obtain ⟨rfl, hzero⟩ := ih u (by omega) hu
      rw [hent _ (by omega) (by omega), if_neg (by omega)] at ht
      by_cases hidx : hw.idx j v = 0
      · rw [if_pos hidx, entryFrame, if_pos (by simp only [pageSize]; omega)] at ht
        have hval := Option.some.inj ht
        constructor
        · simp only [pageSize] at hval
          omega
        · intro i hi
          rcases Nat.lt_succ_iff_lt_or_eq.mp hi with hi | rfl
          · exact hzero i hi
          · exact hidx
      · rw [if_neg hidx] at ht
        cases ht
  have hhead : ∀ t, 2 ≤ t → t ≤ 4 → m.get 8 (t * pageSize) = (t + 1) * pageSize + 7 := by
    intro t hlo hhi
    have hget := hent t hlo (by omega) 0
    rwa [entries_apply, Fin.val_zero, Nat.mul_zero, Nat.add_zero, if_neg (by omega),
      if_pos rfl] at hget
  have hleaf : ∀ i, i < 512 → m.get 8 (5 * pageSize + 8 * i) = i * pageSize + 3 := by
    intro i hi
    have hget := hent 5 (by omega) (by omega) ⟨i, hi⟩
    rwa [if_pos rfl] at hget
  refine ⟨⟨hhead 2 (by omega) (by omega), hhead 3 (by omega) (by omega),
    hhead 4 (by omega) (by omega), fun i _ hhi => hleaf i (by omega), ?_⟩,
    ⟨fun v j t hj ht => ?_, ?_⟩⟩
  · have hsix := hleaf 6 (by omega)
    rw [show 5 * pageSize + 8 * 6 = pgSwpEnt by decide] at hsix
    show m.get 8 pgSwpEnt % 2 = 1
    rw [hsix]
    unfold pageSize
    omega
  · obtain ⟨rfl, _⟩ := htab v j t hj ht
    obtain rfl | rfl | rfl | rfl : j = 0 ∨ j = 1 ∨ j = 2 ∨ j = 3 := by omega
    all_goals simp
  · intro v w i j t hi hj hv hw'
    obtain ⟨rfl, hvz⟩ := htab v i t hi hv
    obtain ⟨hij, hwz⟩ := htab w j _ hj hw'
    obtain rfl : i = j := by omega
    exact ⟨rfl, fun k hk => (hvz k hk).trans (hwz k hk).symm⟩

/-- These tables are sound. -/
theorem sound_boot (m : Memory) (l : List Nat) : Sound ⟨bootTables m, [2, 3, 4, 5] ++ l⟩ :=
  sound_of_entries (fun _ hlo hhi i => bootTables_entry m hlo hhi i) l

-- ---------------------------------------------------------------------------
-- pageto
-- ---------------------------------------------------------------------------

/-- The machine as the boot code leaves it; the frames in `l` are in use for
other things. -/
def Machine.boot (m : Memory) (l : List Nat) : Machine := ⟨bootTables m, [2, 3, 4, 5] ++ l⟩

/-- States that calls of `pageto` lead to from the boot tables. Any supply may
serve each call. -/
inductive Reachable (m : Memory) (l : List Nat) : Machine → Prop where
  | boot : Reachable m l (.boot m l)
  | pageto {s s' : Machine} (S : Frames) (v value : Nat) : Reachable m l s → Target v →
      value < wordSize → Supplies S (s.frames.length + 2) → pageto S v value s = some s' →
      Reachable m l s'

/-- What `pageto(v, value)` makes of the tables. -/
structure Paged (s s' : Machine) (v value : Nat) : Prop where
  sound : Sound s'
  table : hw.table (entries s'.mem) v 3 ≠ none
  self  : walk s'.mem v = value
  other : ∀ w, Canonical w → w ≠ v → w ≠ pgSwpLoc → walk s'.mem w = walk s.mem w
  fresh : ∀ f ∈ s'.frames, f ∉ s.frames → ∃ j, j ≤ 3 ∧ hw.table (entries s'.mem) v j = some f ∧
    ∀ i, i ≠ hw.idx j v → entries s'.mem f i = 0

/-- `pageto` returns, and the page has the value. -/
theorem pageto_spec {S : Frames} {s : Machine} {v value : Nat} (h : Sound s) (hv : Target v)
    (hvalue : value < wordSize) (hS : Supplies S (s.frames.length + 2)) :
    ∃ s', pageto S v value s = some s' ∧ Paged s s' v value := by
  obtain ⟨s₁, hget, hr⟩ := getpage_spec h hv.1.1 fun _ => hS
  obtain ⟨t, ht, hwin⟩ := hr.shown
  have hsound := hr.sound
  have hlow := samePath_lowered v
  -- the entry is at its place in the table that the window shows
  have hoff : 8 * ((hw.idx 3 (lowered v) : Fin 512) : Nat) < pageSize := by
    have hlt := (hw.idx 3 (lowered v)).isLt
    unfold pageSize
    omega
  have hset : setq s₁.mem (getEntry (lowered v) pgSwpLoc 12) value =
      some (s₁.mem.put 8 (t * pageSize + 8 * (hw.idx 3 (lowered v) : Fin 512)) value) := by
    rw [show (12 : Nat) = 39 - 9 * 3 by decide, getEntry_eq, setq,
      translate_window hsound.boot hoff (hwin (by omega)), Option.map_some]
  have hent := entries_put s₁.mem t (hw.idx 3 (lowered v)) hvalue
  have hboot : Boot (s₁.mem.put 8 (t * pageSize + 8 * (hw.idx 3 (lowered v) : Fin 512)) value) := by
    refine boot_put hsound (Nat.le_refl 3) ht (fun a ha hlo hhi hpath => ?_) value
    have hcan : Canonical a := ⟨ha, .inl (by unfold pgSwpLoc lowHalfTop at *; omega)⟩
    have heq := eq_of_samePath hcan hv.1 (fun j hj => (hpath j hj).trans (hlow j hj))
    have hout := hv.2
    omega
  have htab : ∀ w j, j ≤ 3 → hw.table (entries (s₁.mem.put 8 (t * pageSize + 8 *
      (hw.idx 3 (lowered v) : Fin 512)) value)) w j = hw.table (entries s₁.mem) w j := by
    intro w j hj
    rw [hent, Radix.table_set hsound.tree ht value hj]
  have htabv : ∀ j, j ≤ 3 → hw.table (entries s₁.mem) v j =
      hw.table (entries s₁.mem) (lowered v) j :=
    fun j hj => (Radix.table_of_samePath (hlow.mono (by omega))).symm
  have hcall : pageto S v value s = some ⟨s₁.mem.put 8 (t * pageSize + 8 *
      (hw.idx 3 (lowered v) : Fin 512)) value, s₁.frames⟩ := by
    rw [pageto, hget]
    simp only [Option.bind_eq_bind, Option.bind_some, hset]
  refine ⟨_, hcall, ?_⟩
  refine ⟨⟨hboot, ?_⟩, ?_, ?_, ?_, ?_⟩
  · rw [hent]
    exact Radix.isTree_set hsound.tree ht value
  · rw [htab v 3 (Nat.le_refl 3), htabv 3 (Nat.le_refl 3), ht]
    exact Option.some_ne_none t
  · rw [walk, ← Radix.leaf_of_samePath hlow, hent]
    exact Radix.leaf_set_self hsound.tree ht value
  · intro w hw' hne hnwin
    have hpath : ¬ hw.SamePath (3 + 1) (lowered v) w := by
      intro hcon
      exact hne (eq_of_samePath hw' hv.1 fun j hj => (hcon j hj).symm.trans (hlow j hj))
    have hwcan : Canonical pgSwpLoc := ⟨by decide, .inl (by decide)⟩
    have hleaf := Radix.leaf_set_other hsound.tree ht value hpath
    rw [walk, hent, hleaf]
    exact hr.walks w fun hcon => hnwin (eq_of_samePath hwcan hw' hcon).symm
  · intro f hmem hnot
    obtain ⟨j, hj, hjf, hzero⟩ := hr.fresh f hmem hnot
    refine ⟨j, hj, by rw [htab v j hj, htabv j hj, hjf], ?_⟩
    intro i hi
    have hidx : i ≠ hw.idx j (lowered v) := by rw [idx_lowered hj]; exact hi
    rw [hent, Radix.set_ne, hzero i fun hcon => hidx hcon.2]
    by_cases hft : f = t
    · subst hft
      obtain ⟨rfl, _⟩ := hsound.tree.inj _ _ j 3 f hj (Nat.le_refl 3) hjf ht
      exact .inr hidx
    · exact .inl hft

/-- Every state reached is sound. -/
theorem sound_of_reachable {m : Memory} {l : List Nat} {s : Machine} (h : Reachable m l s) :
    Sound s := by
  induction h with
  | boot => exact sound_boot m l
  | pageto S v value _ hv hvalue hS hcall ih =>
    obtain ⟨s', hs', hpaged⟩ := pageto_spec ih hv hvalue hS
    rw [hs'] at hcall
    obtain rfl := Option.some.inj hcall
    exact hpaged.sound

/-- **Updates are exact.** -/
theorem pageto_exact {m : Memory} {l : List Nat} {s : Machine} (h : Reachable m l s) (S : Frames)
    (v value : Nat) (hv : Target v) (hvalue : value < wordSize)
    (hS : Supplies S (s.frames.length + 2)) :
    ∃ s', pageto S v value s = some s' ∧
      walk s'.mem v = value ∧
      (∀ w, Canonical w → w ≠ v → w ≠ pgSwpLoc → walk s'.mem w = walk s.mem w) ∧
      (∀ f ∈ s'.frames, f ∉ s.frames → ∃ j, j ≤ 3 ∧ hw.table (entries s'.mem) v j = some f ∧
        ∀ i, i ≠ hw.idx j v → entries s'.mem f i = 0) ∧
      ∀ S', ∃ s'' e, getpage S' v s' = some (s'', e) ∧ s''.frames = s'.frames := by
  obtain ⟨s', hcall, hpaged⟩ := pageto_spec (sound_of_reachable h) hv hvalue hS
  refine ⟨s', hcall, hpaged.self, hpaged.other, hpaged.fresh, ?_⟩
  intro S'
  have hsome : hw.table (entries s'.mem) (lowered v) 3 ≠ none := by
    rw [Radix.table_of_samePath ((samePath_lowered v).mono (by omega))]
    exact hpaged.table
  obtain ⟨s'', hget, hr⟩ := getpage_spec (S := S') hpaged.sound hv.1.1 fun hnone => absurd hnone hsome
  exact ⟨s'', _, hget, hr.again hsome⟩

-- ---------------------------------------------------------------------------
-- A supply, and a call
-- ---------------------------------------------------------------------------

/-- The lowest frame from `0x80000` on that is not in use. -/
def Frames.lowest : Frames where
  pick l := (((List.range (l.length + 1)).map (· + 0x80)).find? (· ∉ l)).filter (· < 2 ^ 40)
  lt h := by
    obtain ⟨_, hlt⟩ := Option.filter_eq_some_iff.mp h
    exact of_decide_eq_true hlt
  fresh h := by
    obtain ⟨hfind, _⟩ := Option.filter_eq_some_iff.mp h
    have hfree := List.find?_some hfind
    exact of_decide_eq_true hfree

/-- Taking the lowest free frame supplies enough. -/
theorem supplies_lowest {n : Nat} (hn : n + 0x81 ≤ 2 ^ 40) : Supplies .lowest n := by
  intro l hl hnone
  -- one of `l.length + 1` frames is free, since not all of them are in `l`
  obtain ⟨f, hf⟩ : ∃ f, ((List.range (l.length + 1)).map (· + 0x80)).find? (· ∉ l) = some f := by
    rw [← Option.ne_none_iff_exists']
    intro hfind
    have hall : ((List.range (l.length + 1)).map (· + 0x80)) ⊆ l := by
      intro f hf
      simpa using List.find?_eq_none.mp hfind f hf
    have hnodup : ((List.range (l.length + 1)).map (· + 0x80)).Nodup :=
      List.nodup_range.map fun a b hab => Nat.add_right_cancel hab
    have hlen := (hnodup.subperm hall).length_le
    rw [List.length_map, List.length_range] at hlen
    omega
  obtain ⟨k, hk, rfl⟩ := List.mem_map.mp (List.mem_of_find?_eq_some hf)
  have hlt : k < l.length + 1 := List.mem_range.mp hk
  have hpick : Frames.lowest.pick l = some (k + 0x80) :=
    Option.filter_eq_some_iff.mpr ⟨hf, decide_eq_true (by omega)⟩
  rw [hpick] at hnone
  cases hnone

/-- The first page of user space is mapped to a frame; the page at `0x7000`
stays where it was. -/
theorem pageto_exact_first : ∃ s',
    pageto .lowest 0x200000 0x90007 (.boot (fun _ => 0) []) = some s' ∧
      walk s'.mem 0x200000 = 0x90007 ∧
      walk s'.mem 0x7000 = walk (Machine.boot (fun _ => 0) []).mem 0x7000 := by
  have hcan : Canonical 0x200000 := ⟨by decide, .inl (by decide)⟩
  have hcan' : Canonical 0x7000 := ⟨by decide, .inl (by decide)⟩
  have hframes : (Machine.boot (fun _ => 0) []).frames.length = 4 := rfl
  obtain ⟨s', hcall, hself, hother, _⟩ := pageto_exact (m := fun _ => 0) (l := []) .boot .lowest
    0x200000 0x90007 ⟨hcan, .inr (by decide)⟩ (by decide)
    (supplies_lowest (by rw [hframes]; decide))
  exact ⟨s', hcall, hself, hother 0x7000 hcan' (by decide) (by decide)⟩

end Frosk.Paging

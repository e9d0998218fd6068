import Mathlib.Tactic
import Frosk.Lib.Run
import Frosk.Regions.Swapping

/-!
# Regions: overlaps

The regions that are swapped in are meant to be disjoint: `swapin` refuses a
region that meets one of them. Its test, `overlap`, takes the lower end of the
other region for both of its ends, so it finds the regions that begin inside of
the new one and no others.

Main result: `swapin_exact_iff`, over every run of `swapin`, `swapout` and
`swapflop` calls that return, from an empty list: each call refuses a region
exactly when it meets one on the list, and the list stays disjoint, if and only
if every region that is swapped in is found out by one that begins inside of it
whenever it has to be (`Told`).
-/

namespace Frosk.Regions

open Lib

-- ---------------------------------------------------------------------------
-- Ranges that meet
-- ---------------------------------------------------------------------------

/-- The ranges of two regions have an address in common. -/
def Meets (x y : Region) : Prop :=
  ∃ a, (x.lower ≤ a ∧ a < x.upper) ∧ y.lower ≤ a ∧ a < y.upper

/-- The region `y` begins behind the lower end of `x` and before its upper one. -/
def Begins (x y : Region) : Prop := x.lower < y.lower ∧ y.lower < x.upper

/-- The lower end of `x` is in the region `y`. -/
def Covers (x y : Region) : Prop := y.lower ≤ x.lower ∧ x.lower < y.upper ∧ x.lower < x.upper

instance (x y : Region) : Decidable (Begins x y) := inferInstanceAs (Decidable (_ ∧ _))

instance (x y : Region) : Decidable (Covers x y) := inferInstanceAs (Decidable (_ ∧ _))

/-- `overlap` tests whether one region begins in the other. -/
theorem overlap_iff (x y : Region) : overlap x y = true ↔ Begins x y := by
  rw [overlap, decide_eq_true_iff]
  exact Iff.rfl

/-- Ranges meet where one of them begins. -/
theorem meets_iff {x y : Region} :
    Meets x y ↔ Covers x y ∨ Begins x y ∧ y.lower < y.upper := by
  unfold Covers Begins
  constructor
  · intro ⟨a, hx, hy⟩
    rcases Nat.lt_or_ge x.lower y.lower with hlt | hge
    · exact .inr ⟨⟨hlt, by omega⟩, by omega⟩
    · exact .inl ⟨hge, by omega, by omega⟩
  · rintro (⟨hle, hlt, hx⟩ | ⟨⟨hlt, hx⟩, hy⟩)
    · exact ⟨x.lower, ⟨le_rfl, hx⟩, hle, hlt⟩
    · exact ⟨y.lower, ⟨hlt.le, hx⟩, le_rfl, hy⟩

/-- Where the lower end of a region is in one of the list, another one of the list
begins inside of it; and where one begins inside of it, it meets one. -/
def Told (s : Space) (l : List Ptr) (r : Ptr) : Prop :=
  ((∃ y ∈ l, Covers (s.rgn r) (s.rgn y)) → ∃ y ∈ l, Begins (s.rgn r) (s.rgn y)) ∧
  ((∃ y ∈ l, Begins (s.rgn r) (s.rgn y)) →
    ∃ y ∈ l, Covers (s.rgn r) (s.rgn y) ∨
      Begins (s.rgn r) (s.rgn y) ∧ (s.rgn y).lower < (s.rgn y).upper)

instance (s : Space) (l : List Ptr) (r : Ptr) : Decidable (Told s l r) :=
  inferInstanceAs (Decidable (_ ∧ _))

/-- The test of `swapin` is right exactly for the regions that are told. -/
theorem told_iff {s : Space} {l : List Ptr} {r : Ptr} :
    Told s l r ↔ ((∃ y ∈ l, Begins (s.rgn r) (s.rgn y)) ↔ ∃ y ∈ l, Meets (s.rgn r) (s.rgn y)) := by
  simp only [meets_iff]
  constructor
  · intro ⟨hcov, hbeg⟩
    refine ⟨hbeg, fun ⟨y, hy, hmeet⟩ => ?_⟩
    rcases hmeet with hc | hb
    · exact hcov ⟨y, hy, hc⟩
    · exact ⟨y, hy, hb.1⟩
  · intro hiff
    refine ⟨fun ⟨y, hy, hc⟩ => hiff.mpr ⟨y, hy, .inl hc⟩, hiff.mp⟩

-- ---------------------------------------------------------------------------
-- Calls
-- ---------------------------------------------------------------------------

inductive Call where
  | swapin (r : Ptr) (flags : Nat)
  | swapout (r : Ptr)
  | swapflop (old new : Ptr) (flags : Nat)

/-- One call, with what it returns; `swapout` returns nothing. -/
def call (s : Space) : Call → Except Fault (Space × Bool)
  | .swapin r flags => swapin r flags s
  | .swapout r => (swapout r s).map fun s => (s, true)
  | .swapflop old new flags => swapflop old new flags s

def Step (s : Space) (a : Call) (s' : Space) (b : Bool) : Prop := call s a = .ok (s', b)

/-- The list and the region a call puts on it. -/
def Call.enters (s : Space) : Call → Option (List Ptr × Ptr)
  | .swapin r _ => some (s.swapped, r)
  | .swapout _ => none
  | .swapflop old new _ =>
    if new = NULL then none
    else some (if old = NULL then s.swapped else s.swapped.erase old, new)

/-- No two regions of the list meet. -/
def Disjoint (s : Space) : Prop :=
  s.swapped.Pairwise fun x y => ¬ Meets (s.rgn x) (s.rgn y)

/-- A region is refused exactly when it meets one of the list, and the list is
disjoint. -/
def Exact (s : Space) (a : Call) (s' : Space) (b : Bool) : Prop :=
  (b = false ↔ ∃ l r, a.enters s = some (l, r) ∧ ∃ y ∈ l, Meets (s.rgn r) (s.rgn y)) ∧
    Disjoint s'

/-- What a call puts on the list is told. -/
def Call.Told (s : Space) (a : Call) : Prop :=
  ∀ l r, a.enters s = some (l, r) → Regions.Told s l r

/-- The call returns. -/
def Call.Ends (s : Space) (a : Call) : Prop := ∃ s' b, Step s a s' b

instance (s : Space) (a : Call) : Decidable (a.Told s) :=
  match h : a.enters s with
  | none => .isTrue fun l r hsome => absurd (h.symm.trans hsome) (by simp)
  | some (l, r) => decidable_of_iff (Regions.Told s l r)
      ⟨fun htold l' r' hsome => by
        obtain ⟨rfl, rfl⟩ := Prod.mk.inj (Option.some.inj (h.symm.trans hsome))
        exact htold, fun htold => htold l r h⟩

instance (s : Space) (a : Call) : Decidable (a.Ends s) :=
  match h : call s a with
  | .ok (s', b) => .isTrue ⟨s', b, h⟩
  | .error _ => .isFalse fun ⟨_, _, h'⟩ => absurd (h.symm.trans h') (by simp)

-- ---------------------------------------------------------------------------
-- What a call does to the list
-- ---------------------------------------------------------------------------

/-- A loop that returns keeps what each round keeps. -/
theorem foldlM_keeps {σ α : Type} {f : σ → α → Except Fault σ} {P : σ → Prop}
    (hf : ∀ s a s', P s → f s a = .ok s' → P s') :
    ∀ {l : List α} {s s' : σ}, P s → l.foldlM f s = .ok s' → P s'
  | [], s, s', hs, h => by
    have heq : s = s' := Except.ok.inj h
    exact heq ▸ hs
  | a :: l, s, s', hs, h => by
    rw [List.foldlM_cons, bind_eq_ok] at h
    obtain ⟨s₁, hfa, hrest⟩ := h
    exact foldlM_keeps hf (hf s a s₁ hs hfa) hrest

/-- The two spaces have the same regions and the same list. -/
def SameList (s s' : Space) : Prop := s'.rgn = s.rgn ∧ s'.swapped = s.swapped

/-- Mapping a block leaves the list of regions. -/
theorem pageBlock_sameList {entry : Block → Nat → Nat} {b : Block} {s t t' : Space}
    (hst : SameList s t) (h : pageBlock entry b t = .ok t') : SameList s t' := by
  refine foldlM_keeps (P := SameList s) ?_ hst h
  intro u off u' hu hok
  rw [pageto] at hok
  split at hok
  · cases hok
  · rw [← Except.ok.inj hok]
    exact hu

/-- Mapping the blocks of a region leaves the list alone. -/
theorem foldlM_sameList {entry : Block → Nat → Nat} {bs : List Block} {s s' : Space}
    (h : bs.foldlM (fun s b => pageBlock entry b s) s = .ok s') : SameList s s' := by
  refine foldlM_keeps (P := SameList s) ?_ ⟨rfl, rfl⟩ h
  intro t b t' ht hok
  exact pageBlock_sameList ht hok

/-- `swapin` adds the region, or finds one that it overlaps. -/
theorem swapin_list {r : Ptr} {flags : Nat} {s s' : Space} {b : Bool}
    (h : swapin r flags s = .ok (s', b)) :
    s'.rgn = s.rgn ∧
    ((b = false ∧ (∃ y ∈ s.swapped, Begins (s.rgn r) (s.rgn y)) ∧ s'.swapped = s.swapped) ∨
      (b = true ∧ (¬ ∃ y ∈ s.swapped, Begins (s.rgn r) (s.rgn y)) ∧
        s'.swapped = r :: s.swapped)) := by
  have hany : (s.swapped.any fun y => overlap (s.rgn r) (s.rgn y)) = true ↔
      ∃ y ∈ s.swapped, Begins (s.rgn r) (s.rgn y) := by
    rw [List.any_eq_true]
    simp only [overlap_iff]
  rw [swapin] at h
  split at h
  · rename_i hover
    obtain ⟨rfl, rfl⟩ := Prod.mk.inj (Except.ok.inj h)
    exact ⟨rfl, .inl ⟨rfl, hany.mp hover, rfl⟩⟩
  · rename_i hover
    obtain ⟨s₁, hmap, hok⟩ := bind_eq_ok.mp h
    obtain ⟨rfl, rfl⟩ := Prod.mk.inj (Except.ok.inj hok)
    obtain ⟨hrgn, hlist⟩ := foldlM_sameList hmap
    exact ⟨hrgn, .inr ⟨rfl, fun hsome => hover (hany.mpr hsome), hlist⟩⟩

/-- `swapout` takes the region off the list. -/
theorem swapout_list {r : Ptr} {s s' : Space} (h : swapout r s = .ok s') :
    s'.rgn = s.rgn ∧ s'.swapped = s.swapped.erase r := by
  rw [swapout] at h
  obtain ⟨s₁, hmap, hok⟩ := bind_eq_ok.mp h
  have hsame : SameList s s₁ := by
    refine foldlM_keeps (P := SameList s) ?_ ⟨rfl, rfl⟩ hmap
    intro t b t' ht hround
    split at hround
    · cases hround
    · exact pageBlock_sameList ht hround
  split at hok
  · rw [← Except.ok.inj hok]
    exact ⟨hsame.1, congrArg (List.erase · r) hsame.2⟩
  · cases hok

/-- What any call does: it takes a region off the list and perhaps puts one on, by
the test of `swapin`. -/
theorem call_list {s s' : Space} {a : Call} {b : Bool} (h : Step s a s' b) :
    s'.rgn = s.rgn ∧
    ((a.enters s = none ∧ b = true ∧ s'.swapped.Sublist s.swapped) ∨
      ∃ l r, a.enters s = some (l, r) ∧ l.Sublist s.swapped ∧
        ((b = false ∧ (∃ y ∈ l, Begins (s.rgn r) (s.rgn y)) ∧ s'.swapped = l) ∨
          (b = true ∧ (¬ ∃ y ∈ l, Begins (s.rgn r) (s.rgn y)) ∧ s'.swapped = r :: l))) := by
  cases a with
  | swapin r flags =>
    obtain ⟨hrgn, hlist⟩ := swapin_list h
    exact ⟨hrgn, .inr ⟨s.swapped, r, rfl, List.Sublist.refl _, hlist⟩⟩
  | swapout r =>
    have hmap : (swapout r s).map (fun s => (s, true)) = .ok (s', b) := h
    cases hout : swapout r s with
    | error e =>
      rw [hout] at hmap
      cases hmap
    | ok s₁ =>
      rw [hout] at hmap
      obtain ⟨rfl, rfl⟩ := Prod.mk.inj (Except.ok.inj hmap)
      obtain ⟨hrgn, hlist⟩ := swapout_list hout
      refine ⟨hrgn, .inl ⟨rfl, rfl, ?_⟩⟩
      rw [hlist]
      exact List.erase_sublist
  | swapflop old new flags =>
    have hflop : swapflop old new flags s = .ok (s', b) := h
    rw [swapflop] at hflop
    obtain ⟨s₁, hfirst, hrest⟩ := bind_eq_ok.mp hflop
    have hout : s₁.rgn = s.rgn ∧
        s₁.swapped = if old = NULL then s.swapped else s.swapped.erase old := by
      by_cases ho : old = NULL
      · rw [if_neg (fun hne => hne ho)] at hfirst
        rw [if_pos ho, Except.ok.inj hfirst]
        exact ⟨rfl, rfl⟩
      · rw [if_pos ho] at hfirst
        rw [if_neg ho]
        exact swapout_list hfirst
    have hsub : s₁.swapped.Sublist s.swapped := by
      rw [hout.2]
      split
      · exact List.Sublist.refl _
      · exact List.erase_sublist
    by_cases hn : new = NULL
    · rw [if_neg (fun hne => hne hn)] at hrest
      obtain ⟨rfl, rfl⟩ := Prod.mk.inj (Except.ok.inj hrest)
      exact ⟨hout.1, .inl ⟨if_pos hn, rfl, hsub⟩⟩
    · rw [if_pos hn] at hrest
      obtain ⟨hrgn, hlist⟩ := swapin_list hrest
      rw [hout.1] at hrgn hlist
      refine ⟨hrgn, .inr ⟨s₁.swapped, new, ?_, hsub, hlist⟩⟩
      rw [Call.enters, if_neg hn, hout.2]

-- ---------------------------------------------------------------------------
-- Runs
-- ---------------------------------------------------------------------------

/-- A step that is told the right way does what it says. -/
theorem step_exact {s s' : Space} {a : Call} {b : Bool} (hdis : Disjoint s) (htold : a.Told s)
    (h : Step s a s' b) : Exact s a s' b := by
  obtain ⟨hrgn, hcase⟩ := call_list h
  unfold Exact Disjoint at *
  rw [hrgn]
  rcases hcase with ⟨hnone, rfl, hsub⟩ | ⟨l, r, hsome, hsub, hcase⟩
  · refine ⟨⟨fun hb => (by cases hb), fun ⟨l, r, hsome, _⟩ => ?_⟩, hdis.sublist hsub⟩
    rw [hnone] at hsome
    cases hsome
  · have hiff := told_iff.mp (htold l r hsome)
    rcases hcase with ⟨rfl, hbegin, hlist⟩ | ⟨rfl, hnot, hlist⟩
    · rw [hlist]
      exact ⟨⟨fun _ => ⟨l, r, hsome, hiff.mp hbegin⟩, fun _ => rfl⟩, hdis.sublist hsub⟩
    · refine ⟨⟨fun hb => (by cases hb), fun ⟨l', r', hsome', hmeet⟩ => ?_⟩, ?_⟩
      · obtain ⟨rfl, rfl⟩ := Prod.mk.inj (Option.some.inj (hsome.symm.trans hsome'))
        exact absurd (hiff.mpr hmeet) hnot
      · rw [hlist]
        refine List.pairwise_cons.mpr ⟨?_, hdis.sublist hsub⟩
        intro y hy hmeet
        exact hnot (hiff.mpr ⟨y, hy, hmeet⟩)

/-- A region that is not told is refused wrongly or let in wrongly. -/
theorem step_inexact {s s' : Space} {a : Call} {b : Bool} (htold : ¬ a.Told s)
    (h : Step s a s' b) : ¬ Exact s a s' b := by
  intro ⟨hret, _⟩
  refine htold fun l r hsome => told_iff.mpr ?_
  have hmeets : (∃ l' r', a.enters s = some (l', r') ∧ ∃ y ∈ l', Meets (s.rgn r') (s.rgn y)) ↔
      ∃ y ∈ l, Meets (s.rgn r) (s.rgn y) := by
    constructor
    · intro ⟨l', r', hsome', hmeet⟩
      obtain ⟨rfl, rfl⟩ := Prod.mk.inj (Option.some.inj (hsome.symm.trans hsome'))
      exact hmeet
    · exact fun hmeet => ⟨l, r, hsome, hmeet⟩
  obtain ⟨_, ⟨hnone, _⟩ | ⟨l', r', hsome', _, hcase⟩⟩ := call_list h
  · rw [hnone] at hsome
    cases hsome
  obtain ⟨rfl, rfl⟩ := Prod.mk.inj (Option.some.inj (hsome.symm.trans hsome'))
  rw [hmeets] at hret
  rcases hcase with ⟨rfl, hbegin, _⟩ | ⟨rfl, hnot, _⟩
  · exact ⟨fun _ => hret.mp rfl, fun _ => hbegin⟩
  · exact ⟨fun hbegin => absurd hbegin hnot, fun hmeet => by cases hret.mpr hmeet⟩

/-- Over every run of calls that return, with nothing swapped in at first, the
regions are refused as they should be exactly when all of them are told. -/
theorem swapin_exact_iff {s : Space} (hempty : s.swapped = []) {as : List Call}
    (hends : Whenever Step (fun s a => a.Ends s) s as) :
    Along Step Exact s as ↔ Whenever Step (fun s a => a.Told s) s as := by
  have hdis : Disjoint s := by
    rw [Disjoint, hempty]
    exact List.Pairwise.nil
  have hgood : ∀ s (a : Call), Disjoint s → a.Ends s → a.Told s →
      ∃ s' b, Step s a s' b ∧ Exact s a s' b ∧ Disjoint s' := by
    intro s a hinv ⟨s', b, hstep⟩ htold
    have hexact := step_exact hinv htold hstep
    exact ⟨s', b, hstep, hexact, hexact.2⟩
  refine along_iff_whenever hgood ?_ ?_ hdis hends
  · intro s a s' b _ _ htold hstep
    exact step_inexact htold hstep
  · intro s a s₁ b₁ s₂ b₂ h₁ h₂
    exact Prod.mk.inj (Except.ok.inj (h₁.symm.trans h₂))

/-- Three regions behind each other, the second of them across both others. -/
def threeRegions : Space where
  rgn r :=
    if r = 0x10 then ⟨0x200000, 0x2000, [⟨0x200000, 0x100000, 0x2000⟩], true⟩
    else if r = 0x20 then ⟨0x201000, 0x2000, [⟨0x201000, 0x110000, 0x2000⟩], true⟩
    else ⟨0x204000, 0x2000, [⟨0x202000, 0x120000, 0x2000⟩], false⟩
  used := [0x10, 0x20, 0x30]
  swapped := []
  map _ := 0
  mem _ := 0
  frames := []
  vpages := []
  refused := 0

/-- A step is computed by its call. -/
theorem call_computes : Computes (fun s a => (call s a).toOption) Step := by
  intro s a s₁ b₁ s' b h hstep
  have hval : call s a = .ok (s', b) := hstep
  simp only [hval, Except.toOption, Option.some.injEq, Prod.mk.injEq] at h
  exact ⟨h.1, h.2⟩

/-- Three regions that do not meet. -/
theorem swapin_exact_three :
    Along Step Exact threeRegions [.swapin 0x30 7, .swapin 0x20 7, .swapin 0x10 7, .swapout 0x30,
      .swapflop 0x10 0x20 7] := by
  refine (swapin_exact_iff rfl (whenever_of_checkRun call_computes ?_)).mpr
    (whenever_of_checkRun call_computes ?_)
  · decide +kernel
  · decide +kernel

/-- A region that begins inside of one on the list is let in. -/
theorem swapin_admits_overlap :
    ¬ Along Step Exact threeRegions [.swapin 0x10 7, .swapin 0x20 7] := by
  intro ⟨s₁, b₁, h₁, _, s₂, b₂, h₂, hexact, _⟩
  obtain ⟨hrgn, hcase⟩ := swapin_list h₁
  have hlist : s₁.swapped = [0x10] := by
    rcases hcase with ⟨_, ⟨y, hy, _⟩, _⟩ | ⟨_, _, hlist⟩
    · cases hy
    · exact hlist
  refine step_inexact (fun htold => ?_) h₂ hexact
  have htold := (htold [0x10] 0x20 (by rw [Call.enters, hlist])).1
  rw [hrgn] at htold
  revert htold
  decide +kernel

end Frosk.Regions

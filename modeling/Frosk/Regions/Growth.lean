import Mathlib.Tactic
import Frosk.Regions.Swapping

/-!
# Regions: allocation and growth

`Fits lo hi r` says that a region grows from one end of the range `lo` to `hi`
towards the other, with blocks of whole pages that are inside of it and apart.
A page of the range without a block gets one, by `assure` if it is in the region
and by `grow` and `assure` if it is not; both keep `Fits` (`assure_spec`,
`grow_spec`, `Fits.cons`).
-/

namespace Frosk.Regions

open Lib

variable {E : Env}

-- ---------------------------------------------------------------------------
-- Allocation
-- ---------------------------------------------------------------------------

/-- Whole pages are not rounded. -/
theorem align_paged {x : Nat} (h : x % pageSize = 0) : align x pageSize = x :=
  if_neg fun hne => hne h

/-- Rounding up to whole pages within what whole pages hold. -/
theorem align_page {x : Nat} (top : Nat) (hx : x ≤ top) (htop : top % pageSize = 0)
    (hword : top < wordSize) :
    x ≤ align x pageSize ∧ align x pageSize ≤ top ∧ align x pageSize % pageSize = 0 := by
  unfold align wordSize pageSize at *
  split <;> omega

/-- `allocVirt` gives whole pages in the high half. -/
theorem allocVirt_spec (n : Nat) (s : Space) :
    Returns (allocVirt E n s) fun x =>
      (∃ l, x.1 = { s with vpages := l }) ∧ x.2 % pageSize = 0 ∧ highHalfBot ≤ x.2 ∧
        x.2 + n ≤ wordSize := by
  rw [allocVirt]
  split
  · exact rfl
  · rename_i v hv
    exact ⟨⟨_, rfl⟩, E.virt.paged hv, E.high hv, E.virt.fits hv⟩

/-- The block behind a new region. -/
def Env.block (E : Env) (virt n : Nat) (s : Space) (phys : Nat) : List Block → Prop :=
  fun bs => E.phys.pick n s.frames = some phys ∧ bs = if 0 < n then [⟨virt, phys, n⟩] else []

/-- `allocBlock` takes new frames for each page of the block. -/
theorem allocBlock_spec {n : Nat} (hn : n % pageSize = 0) (virt : Nat) (s : Space) :
    Returns (allocBlock E virt n s) fun x =>
      ∃ phys, x.1 = { s with frames := pageRange phys n ++ s.frames } ∧
        E.block virt n s phys x.2 := by
  rw [allocBlock, align_paged hn, allocPhys]
  cases hpick : E.phys.pick n s.frames with
  | none => exact rfl
  | some phys =>
    refine ⟨phys, rfl, hpick, ?_⟩
    show createBlock virt phys n = _
    rw [createBlock, align_paged hn]

/-- `allocate` makes a new region of one block. -/
theorem allocate_spec {size n : Nat} (hsize : align size pageSize = n) (hn : n % pageSize = 0)
    (virt : Nat) (growup : Bool) (s : Space) :
    Returns (allocate E virt size growup s) fun x =>
      x.2 = E.kalloc.pick s.used ∧
      ∃ phys bs, E.block (if growup then virt else wsub virt n) n s phys bs ∧
        x.1 = { s with
          used := E.kalloc.pick s.used :: s.used
          frames := pageRange phys n ++ s.frames
          rgn := Function.update s.rgn (E.kalloc.pick s.used) ⟨virt, n, bs, growup⟩ } := by
  rw [allocate, hsize]
  refine returns_bind (allocBlock_spec hn _ _) ?_
  intro ⟨s', bs⟩ ⟨phys, hs', hbs⟩
  refine ⟨rfl, phys, bs, hbs, ?_⟩
  dsimp only at hs' ⊢
  rw [hs']
  rfl

/-- The frames of a block come from the physical pages. -/
theorem Env.block.frame {virt n phys : Nat} {s : Space} {bs : List Block}
    (h : E.block virt n s phys bs) {b : Block} (hb : b ∈ bs) :
    b = ⟨virt, phys, n⟩ ∧ 0 < n := by
  rw [h.2] at hb
  split at hb
  · exact ⟨List.mem_singleton.mp hb, ‹_›⟩
  · cases hb

-- ---------------------------------------------------------------------------
-- Regions that fit a range
-- ---------------------------------------------------------------------------

/-- The region grows from one end of the range towards the other. -/
structure Spans (lo hi : Nat) (r : Region) : Prop where
  virt : r.virt = if r.growup then lo else hi
  size : r.size % pageSize = 0
  room : lo + r.size ≤ hi

/-- Its blocks are whole, inside of it and apart. -/
structure Fits (lo hi : Nat) (r : Region) : Prop extends Spans lo hi r where
  whole  : ∀ b ∈ r.blocks, b.Whole
  inside : ∀ b ∈ r.blocks, r.lower ≤ b.virt ∧ b.virt + b.size ≤ r.upper
  apart  : Apart r.blocks

/-- The frames behind a region. -/
def Region.frames (r : Region) : List Nat := r.blocks.flatMap fun b => pageRange b.phys b.size

section Fits

variable {lo hi : Nat} {r : Region}

/-- A region that grows up starts at its lower bound, another one ends at the upper. -/
theorem Spans.lower_eq (h : Spans lo hi r) (hword : hi < wordSize) :
    r.lower = if r.growup then lo else hi - r.size := by
  have hroom := h.room
  rw [Region.lower, h.virt]
  split
  · rfl
  · exact wsub_eq (by omega) hword

theorem Spans.upper_eq (h : Spans lo hi r) (hword : hi < wordSize) :
    r.upper = if r.growup then lo + r.size else hi := by
  have hroom := h.room
  rw [Region.upper, h.virt]
  split
  · exact Nat.mod_eq_of_lt (by omega)
  · rfl

theorem Spans.bounds (h : Spans lo hi r) (hword : hi < wordSize) :
    lo ≤ r.lower ∧ r.lower + r.size = r.upper ∧ r.upper ≤ hi := by
  have hroom := h.room
  rw [h.lower_eq hword, h.upper_eq hword]
  split <;> omega

/-- A region that fits lies beside what is outside of its bounds. -/
theorem Fits.beside (h : Fits lo hi r) (hword : hi < wordSize) {lo' hi' : Nat}
    (hside : hi ≤ lo' ∨ hi' ≤ lo) : Beside lo' hi' r.blocks := by
  intro b hb
  have hin := h.inside b hb
  have hbounds := h.bounds hword
  omega

/-- In a region that fits, the pages of a block are those it has. -/
theorem Fits.has_iff (h : Fits lo hi r) (hword : hi < wordSize) {b : Block} (hb : b ∈ r.blocks)
    {page : Nat} (hpage : page % pageSize = 0) : b.has page = true ↔ b.HasPage page := by
  have hin := h.inside b hb
  have hbounds := h.bounds hword
  have hvirt := (h.whole b hb).virt
  rw [Block.has, decide_eq_true_iff, Nat.mod_eq_of_lt (by omega), Block.HasPage]
  unfold pageSize at *
  omega

/-- A larger region around the same blocks. -/
theorem Fits.widen (h : Fits lo hi r) (hword : hi < wordSize) {n : Nat}
    (hn : n % pageSize = 0) (hle : r.size ≤ n) (hroom : lo + n ≤ hi) :
    Fits lo hi { r with size := n } := by
  have hspans : Spans lo hi { r with size := n } := ⟨h.virt, hn, hroom⟩
  refine ⟨hspans, h.whole, ?_, h.apart⟩
  intro b hb
  have hin := h.inside b hb
  rw [h.lower_eq hword, h.upper_eq hword] at hin
  rw [hspans.lower_eq hword, hspans.upper_eq hword]
  dsimp only
  split at hin
  · rename_i hup
    rw [if_pos hup, if_pos hup]
    omega
  · rename_i hup
    rw [if_neg hup, if_neg hup]
    omega

/-- One more page of the region. -/
theorem Fits.cons (h : Fits lo hi r) (hword : hi < wordSize) {b : Block} (hb : b.Whole)
    (hsize : b.size = pageSize) (hlower : r.lower ≤ b.virt) (hupper : b.virt < r.upper)
    (hlo : lo % pageSize = 0) (hhi : hi % pageSize = 0)
    (hnew : ∀ c ∈ r.blocks, ¬ c.HasPage b.virt) :
    Fits lo hi { r with blocks := b :: r.blocks } := by
  have hvirt := hb.virt
  refine ⟨⟨h.virt, h.size, h.room⟩, ?_, ?_, ?_⟩
  · intro c hc
    rcases List.mem_cons.mp hc with rfl | hc
    · exact hb
    · exact h.whole c hc
  · intro c hc
    rcases List.mem_cons.mp hc with rfl | hc
    · -- the end of the region is one of a page
      refine ⟨hlower, ?_⟩
      have hend : c.virt + c.size ≤ r.upper := by
        have hpaged := h.size
        rw [h.upper_eq hword] at hupper ⊢
        rw [hsize]
        split at hupper
        · rename_i hup
          rw [if_pos hup]
          unfold pageSize at *
          omega
        · rename_i hup
          rw [if_neg hup]
          unfold pageSize at *
          omega
      exact hend
    · exact h.inside c hc
  · refine List.pairwise_cons.mpr ⟨?_, h.apart⟩
    intro c hc
    have hno := hnew c hc
    have hcw := h.whole c hc
    have hcv := hcw.virt
    have hcs := hcw.size
    rw [hsize]
    unfold Block.HasPage pageSize at *
    omega

-- ---------------------------------------------------------------------------
-- assure and grow
-- ---------------------------------------------------------------------------

/-- A region got a block of one page, which is mapped for the user. -/
structure Gained (E : Env) (s s' : Space) (r : Ptr) (page phys : Nat) : Prop where
  fresh : E.phys.pick pageSize s.frames = some phys
  eq    : s' = { s with
    frames := phys :: s.frames
    map := Function.update s.map page (phys ||| 7)
    rgn := Function.update s.rgn r
      { s.rgn r with blocks := ⟨page, phys, pageSize⟩ :: (s.rgn r).blocks } }

/-- One page is a range. -/
theorem pageRange_page (v : Nat) : pageRange v pageSize = [v] := by
  rw [pageRange]
  rfl

/-- An address is in a region between its ends. -/
theorem inRegion_iff {r : Region} {addr : Nat} :
    inRegion r addr = true ↔ r.lower ≤ addr ∧ addr < r.upper := by
  rw [inRegion, decide_eq_true_iff]

/-- Outside of the region `assure` does nothing. -/
theorem assure_outside {r : Ptr} {s : Space} {page : Nat} (flags : Nat)
    (h : ¬ ((s.rgn r).lower ≤ page ∧ page < (s.rgn r).upper)) :
    assure E r page flags s = .ok (s, false) :=
  if_pos fun hin => h (inRegion_iff.mp hin)

/-- A page of the region that no block has gets one. -/
theorem assure_spec {r : Ptr} {s : Space} (hfits : Fits lo hi (s.rgn r)) (hword : hi < wordSize)
    {page : Nat} (hpage : page % pageSize = 0) (hlower : (s.rgn r).lower ≤ page)
    (hupper : page < (s.rgn r).upper) (hnew : ∀ b ∈ (s.rgn r).blocks, ¬ b.HasPage page) :
    Returns (assure E r page 7 s) fun x =>
      x.2 = true ∧ ∃ phys, Gained E s x.1 r page phys := by
  have hin : ¬ ¬ inRegion (s.rgn r) page = true := fun hn => hn (inRegion_iff.mpr ⟨hlower, hupper⟩)
  have hnone : ¬ ((s.rgn r).blocks.any (·.has page)) = true := by
    intro hany
    obtain ⟨b, hb, hhas⟩ := List.any_eq_true.mp hany
    exact hnew b hb ((hfits.has_iff hword hb hpage).mp hhas)
  have hfloor : floor page pageSize = page := by
    rw [floor_eq, hpage, Nat.sub_zero]
  rw [assure, if_neg hin, if_neg hnone, hfloor]
  refine returns_bind (allocBlock_spec (by decide) page s) ?_
  intro ⟨s', bs⟩ ⟨phys, hs', hpick, hbs⟩
  dsimp only at hs' hbs ⊢
  rw [if_pos (by decide)] at hbs
  rw [hs', hbs]
  dsimp only
  rw [pageto_eq hpage]
  refine ⟨rfl, phys, hpick, ?_⟩
  rw [pageRange_page]
  rfl

/-- Growing up to a page above, or down to one below. -/
theorem grow_spec {r : Ptr} {s : Space} (hfits : Fits lo hi (s.rgn r)) (hword : hi < wordSize)
    {upto n : Nat} (hn : n % pageSize = 0) (hroom : lo + n ≤ hi) (hlt : (s.rgn r).size < n)
    (hsigned : hi < wordSize / 2)
    (hupto : upto = if (s.rgn r).growup then lo + n else hi - n) :
    grow r upto s = .ok (s.modify r fun v => { v with size := n }) := by
  have hvirt := hfits.virt
  have hpos : 0 < n := by omega
  cases hup : (s.rgn r).growup with
  | true =>
    rw [hup, if_pos rfl] at hvirt hupto
    have hsize : wsub upto (s.rgn r).virt = n := by
      rw [hvirt, hupto, wsub_eq (by omega) (by omega)]
      omega
    have hlong : 0 ≤ slong n := by
      unfold slong wordSize at *
      split <;> omega
    unfold grow
    dsimp only
    rw [hsize, hup, if_neg (by simp), if_neg (by simpa using hlong), if_pos rfl, if_pos hlt,
      align_paged hn]
  | false =>
    rw [hup, if_neg (by simp)] at hvirt hupto
    have hdiff : wsub upto (s.rgn r).virt = wordSize - n := by
      rw [hvirt, hupto]
      unfold wsub wordSize at *
      omega
    have hsize : wsub 0 (wordSize - n) = n := by
      unfold wsub wordSize at *
      omega
    have hlong : slong (wordSize - n) ≤ 0 := by
      unfold slong wordSize at *
      split <;> omega
    unfold grow
    dsimp only
    rw [hdiff, hup, if_neg (by simpa using hlong), if_neg (by simp)]
    simp only [Bool.false_eq_true, if_false]
    rw [hsize, if_pos hlt, align_paged hn]

end Fits

end Frosk.Regions

import Mathlib.Tactic
import Frosk.Pages.Safety

/-!
# Page pools: freeing undoes allocating

`alloc_pgs` and `free_pgs` are given the same size, and each rounds it to whole pages for
itself: the one up, the other down. The pages of a pool are compared as sets of addresses,
since `free_pgs` may put a range back into another node than the one it came from.

Main result: `free_undoes_alloc_iff`, the pool has the pages it had before exactly if the
size was a multiple of the page size. Otherwise the last page is lost.
-/

namespace Frosk.Pages

open Lib

/-- The addresses of the pages in a range. -/
def pagesOf (r : Nat × Nat) : Set Nat :=
  {x | x < wordSize ∧ x % pageSize = 0 ∧ InRange wordSize x r}

/-- The pages in the ranges of a list. -/
def pagesIn (l : List (Nat × Nat)) : Set Nat := {x | ∃ r ∈ l, x ∈ pagesOf r}

/-- The free pages of a pool. -/
def freePages (s : State) (ty : PageType) : Set Nat :=
  {x | ∃ n, x ∈ pagesOf (s.range (s.next^[n] (s.heads ty)))}

/-- A ring of disjoint ranges of pages that leave some page out, as all pools leave out the
one at `NULL`. -/
structure Ready (s : State) (ty : PageType) (t : List Ptr) : Prop where
  pool : PoolInv s ty t []
  live : s.live.Nodup
  room : ∃ x < wordSize, x % pageSize = 0 ∧ x ∉ freePages s ty

/-- Both functions return, and the pool has the pages that it had. -/
def Undone (K : Kalloc) (size : Nat) (ty : PageType) (s : State) : Prop :=
  ∃ fuel ret s₁ s₂, allocPgs size ty s fuel = some (ret, s₁) ∧
    freePgs K ret size ty s₁ fuel = some s₂ ∧ freePages s₂ ty = freePages s ty

section Sets

variable {s : State} {ty : PageType} {t : List Ptr} {l l' : List (Nat × Nat)} {r : Nat × Nat}

/-- The pages of one range and of the others. -/
theorem pagesIn_cons : pagesIn (r :: l) = pagesOf r ∪ pagesIn l := by
  ext x
  simp [pagesIn]

theorem pagesIn_perm (h : l.Perm l') : pagesIn l = pagesIn l' := by
  ext x
  simp only [pagesIn, h.mem_iff, Set.mem_ofPred_eq]

/-- The free pages are those of the nodes of the ring. -/
theorem freePages_eq (hr : IsRing s.next (s.heads ty) t) :
    freePages s ty = pagesIn ((s.heads ty :: t).map s.range) := by
  ext x
  constructor
  · rintro ⟨n, hx⟩
    exact ⟨_, List.mem_map_of_mem (hr.iterate_mem n), hx⟩
  · rintro ⟨_, hmem, hx⟩
    obtain ⟨p, hp, rfl⟩ := List.mem_map.mp hmem
    obtain ⟨n, rfl⟩ := hr.exists_iterate hp
    exact ⟨n, hx⟩

/-- Two ranges, one above the other. -/
theorem pagesOf_join {a s n : Nat} (ha : a < wordSize) (hsum : s + n < wordSize) :
    pagesOf (a, s + n) = pagesOf (a, s) ∪ pagesOf ((a + s) % wordSize, n) := by
  ext x
  simp only [pagesOf, Set.mem_ofPred_eq, Set.mem_union, ← and_or_left]
  refine and_congr_right fun hx => and_congr_right fun _ => ?_
  exact inRange_join ha hsum hx

/-- Ranges of disjoint lists have no page in common. -/
theorem disjoint_pages {x : Nat} (h : Apart wordSize (r :: l)) (hx : x ∈ pagesOf r) :
    x ∉ pagesIn l := by
  rintro ⟨r', hr', hx'⟩
  exact (List.pairwise_cons.mp h).1 r' hr' x hx.1 ⟨hx.2.2, hx'.2.2⟩

end Sets

-- ---------------------------------------------------------------------------
-- What each call does to the pages
-- ---------------------------------------------------------------------------

section Calls

variable {K : Kalloc} {s : State} {ty : PageType} {t : List Ptr} {x : Ptr} {addr n size : Nat}

/-- A ring with another range for one of its nodes. -/
theorem freePages_edit {s' : State} (hr : IsRing s.next (s.heads ty) t)
    (hr' : IsRing s'.next (s'.heads ty) t) (hheads : s'.heads = s.heads) (hx : x ∈ s.heads ty :: t)
    (hnode : ∀ p, p ≠ x → s'.node p = s.node p) :
    ∃ l, freePages s ty = pagesOf (s.range x) ∪ pagesIn l ∧
      freePages s' ty = pagesOf (s'.range x) ∪ pagesIn l := by
  have hrest : ((s.heads ty :: t).erase x).map s'.range = ((s.heads ty :: t).erase x).map s.range := by
    refine List.map_congr_left ?_
    intro p hp
    have hne : p ≠ x := by
      rintro rfl
      exact hr.nodup.not_mem_erase hp
    rw [State.range, hnode p hne, State.range]
  have hperm : ∀ f : Ptr → Nat × Nat, ((s.heads ty :: t).map f).Perm
      (f x :: ((s.heads ty :: t).erase x).map f) := fun f => (List.perm_cons_erase hx).map f
  refine ⟨((s.heads ty :: t).erase x).map s.range, ?_, ?_⟩
  · rw [freePages_eq hr, pagesIn_perm (hperm s.range), pagesIn_cons]
  · rw [freePages_eq hr', hheads, pagesIn_perm (hperm s'.range), pagesIn_cons, hrest]

/-- Dividing a node takes the pages that are handed out. -/
theorem divide_pages (h : PoolInv s ty t []) (hnd : s.live.Nodup) (hx : x ∈ s.heads ty :: t)
    (hsize : size % pageSize = 0) (hlt : size < (s.node x).size) (prev : Ptr) :
    ∃ ret s', take prev x size s = (ret, s') ∧ PoolInv s' ty t [(ret, size)] ∧ s'.live.Nodup ∧
      freePages s ty = pagesOf (ret, size) ∪ freePages s' ty := by
  obtain ⟨ret, s', htake, hp, hf⟩ := divide_spec h hnd hx hsize hlt prev
  obtain ⟨-, haw, -, hsw⟩ := h.paged_at hx
  simp only [State.range] at haw hsw
  have hne : (s.node x).size ≠ size := by omega
  have hself : (s.setSize x ((s.node x).size - size)).node x =
      { s.node x with size := (s.node x).size - size } := Function.update_self ..
  rw [take, if_neg hne] at htake
  obtain ⟨hret, hs'⟩ := Prod.mk.inj htake
  simp only [hself] at hret
  have hnode : ∀ p, p ≠ x → s'.node p = s.node p := fun p hpx => by
    rw [← hs']
    exact Function.update_of_ne hpx ..
  obtain ⟨l, hold, hnew⟩ := freePages_edit h.ring hp.ring hf.heads hx hnode
  have hrange : s'.range x = ((s.node x).addr, (s.node x).size - size) := by
    rw [← hs', State.range, hself]
  have hjoin : pagesOf (s.range x) =
      pagesOf ((s.node x).addr, (s.node x).size - size) ∪ pagesOf (ret, size) := by
    have hsum : (s.node x).size - size + size = (s.node x).size := by omega
    rw [← hret, ← pagesOf_join haw (by rw [hsum]; exact hsw), hsum]
    rfl
  refine ⟨ret, s', by rw [take, if_neg hne]; exact htake, hp, hf.nodup, ?_⟩
  rw [hold, hnew, hrange, hjoin]
  ac_rfl

/-- So does giving away a node. -/
theorem exact_pages {t₁ t₂ : List Ptr} (h : PoolInv s ty (t₁ ++ x :: t₂) [])
    (hnd : s.live.Nodup) (heq : (s.node x).size = size) :
    ∃ ret s', take (t₁.getLastD (s.heads ty)) x size s = (ret, s') ∧
      PoolInv s' ty (t₁ ++ t₂) [(ret, size)] ∧ s'.live.Nodup ∧
      freePages s ty = pagesOf (ret, size) ∪ freePages s' ty := by
  obtain ⟨ret, s', htake, hp, hf⟩ := exact_spec h hnd heq
  refine ⟨ret, s', htake, hp, hf.nodup, ?_⟩
  rw [take, if_pos heq] at htake
  obtain ⟨hret, hs'⟩ := Prod.mk.inj htake
  have hrange : s'.range = s.range := by
    rw [← hs']
    exact setNext_range ..
  have hperm : (s.heads ty :: (t₁ ++ x :: t₂)).Perm (x :: s.heads ty :: (t₁ ++ t₂)) :=
    (List.Perm.cons _ List.perm_middle).trans (List.Perm.swap ..)
  have hx : s.range x = (ret, size) := by
    rw [← hret, ← heq]
    rfl
  rw [freePages_eq h.ring, freePages_eq hp.ring, hf.heads, hrange, pagesIn_perm (hperm.map s.range),
    List.map_cons, pagesIn_cons, hx]

/-- Of an outstanding range only the lower part is given back. -/
theorem PoolInv.shrink (h : PoolInv s ty t [(addr, n)]) {m : Nat} (hle : m ≤ n)
    (hm : m % pageSize = 0) : PoolInv s ty t [(addr, m)] := by
  have hout := h.paged (addr, n) (by simp)
  obtain ⟨hl, -, happ⟩ := List.pairwise_append.mp h.apart
  refine ⟨h.ring, h.live, List.pairwise_append.mpr ⟨hl, List.pairwise_singleton .., ?_⟩, ?_⟩
  · intro r hr r' hr' x hx hin
    rw [List.mem_singleton.mp hr'] at hin
    have hlow : InRange wordSize x (addr, n) := lt_of_lt_of_le hin.2 hle
    exact happ r hr (addr, n) (List.mem_singleton_self _) x hx ⟨hin.1, hlow⟩
  · intro r hr
    rcases List.mem_append.mp hr with hr | hr
    · exact h.paged r (List.mem_append_left _ hr)
    · rw [List.mem_singleton.mp hr]
      exact ⟨hout.addr, hout.addr_lt, hm, lt_of_le_of_lt hle hout.size_lt⟩

/-- A range that goes back into a node that it borders on. -/
theorem join_pages (h : PoolInv s ty t [(addr, n)]) (hnd : s.live.Nodup) (hx : x ∈ s.heads ty :: t)
    (hborder : ((s.node x).addr + (s.node x).size) % wordSize = addr ∨
      (addr + n) % wordSize = (s.node x).addr) {y : Nat} (hy : y < wordSize)
    (hroom : ¬ InRange wordSize y (s.range x)) (hout : ¬ InRange wordSize y (addr, n)) :
    PoolInv (join x addr n s) ty t [] ∧
      freePages (join x addr n s) ty = pagesOf (addr, n) ∪ freePages s ty := by
  obtain ⟨hp, hf⟩ := join_spec h hnd hx (List.mem_singleton_self _) hborder
  rw [List.erase_cons_head] at hp
  refine ⟨hp, ?_⟩
  obtain ⟨-, haw, -, hsw⟩ := h.paged_at hx
  obtain ⟨-, haw', -, hsw'⟩ := h.paged (addr, n) (by simp)
  simp only [State.range] at haw hsw haw' hsw' hroom
  have hnode : ∀ p, p ≠ x → (join x addr n s).node p = s.node p := fun p hpx => by
    unfold join
    split
    · exact Function.update_of_ne hpx ..
    · simp [State.setAddr, State.setSize, State.setNode, hpx]
  obtain ⟨l, hold, hnew⟩ := freePages_edit h.ring hp.ring hf.heads hx hnode
  have hrange : pagesOf ((join x addr n s).range x) = pagesOf (addr, n) ∪ pagesOf (s.range x) := by
    by_cases hleft : ((s.node x).addr + (s.node x).size) % wordSize = addr
    · have hsum : (s.node x).size + n < wordSize :=
        sum_lt_of_room haw hsw hy hroom (by rwa [hleft])
      have hself : (join x addr n s).range x = ((s.node x).addr, (s.node x).size + n) := by
        rw [join, if_pos hleft, Nat.mod_eq_of_lt hsum]
        simp [State.range, State.setSize, State.setNode]
      rw [hself, pagesOf_join haw hsum, hleft, Set.union_comm]
      rfl
    · have hright := hborder.resolve_left hleft
      have hsum : n + (s.node x).size < wordSize :=
        sum_lt_of_room haw' hsw' hy hout (by rwa [hright])
      have hself : (join x addr n s).range x = (addr, n + (s.node x).size) := by
        rw [join, if_neg hleft, Nat.add_comm (s.node x).size, Nat.mod_eq_of_lt hsum]
        simp [State.range, State.setAddr, State.setSize, State.setNode]
      rw [hself, pagesOf_join haw' hsum, hright]
      rfl
  rw [hold, hnew, hrange, Set.union_assoc]

/-- A range that gets a node of its own. -/
theorem insert_pages (h : PoolInv s ty t [(addr, n)]) (hnd : s.live.Nodup) :
    ∃ t', PoolInv (insert K ty addr n s) ty t' [] ∧
      freePages (insert K ty addr n s) ty = pagesOf (addr, n) ∪ freePages s ty := by
  obtain ⟨hp, hf⟩ := insert_spec (K := K) h hnd (List.mem_singleton_self _)
  rw [List.erase_cons_head] at hp
  refine ⟨_, hp, ?_⟩
  have hheads : (insert K ty addr n s).heads ty = s.heads ty := congrFun hf.heads ty
  rw [freePages_eq hp.ring, hheads, insert_ranges addr n h.live, freePages_eq h.ring, List.map_cons,
    pagesIn_cons, pagesIn_cons, pagesIn_cons]
  ac_rfl

/-- **What `alloc_pgs` takes**, if a range is larger than the size rounded up. -/
theorem allocPgs_pages (h : PoolInv s ty t []) (hnd : s.live.Nodup)
    (hn : align size pageSize = n) (hpaged : n % pageSize = 0)
    (hlarge : ∃ p ∈ s.heads ty :: t, n < (s.node p).size) :
    ∃ fuel ret s' t', allocPgs size ty s fuel = some (ret, s') ∧ PoolInv s' ty t' [(ret, n)] ∧
      s'.live.Nodup ∧ freePages s ty = pagesOf (ret, n) ∪ freePages s' ty := by
  have hcall : ∀ {fuel prev x}, search s ty (fun p => n ≤ (s.node p).size) fuel =
      some ((prev, x), true) → allocPgs size ty s fuel = some (take prev x n s) := by
    intro fuel prev x hfuel
    rw [allocPgs]
    simp only [hn, hfuel, Option.map_some]
  rcases search_spec h.ring (fun p => n ≤ (s.node p).size) with
    ⟨t₁, x, t₂, ht, hx, fuel, hfuel⟩ | ⟨hbefore, hx, fuel, hfuel⟩ | ⟨hnone, -⟩
  · have hfit : n ≤ (s.node x).size := of_decide_eq_true hx
    by_cases heq : (s.node x).size = n
    · rw [ht] at h
      obtain ⟨ret, s', htake, hp, hnd', hpages⟩ := exact_pages h hnd heq
      exact ⟨fuel, ret, s', _, by rw [hcall hfuel, htake], hp, hnd', hpages⟩
    · have hmem : x ∈ s.heads ty :: t := by rw [ht]; simp
      obtain ⟨ret, s', htake, hp, hnd', hpages⟩ := divide_pages h hnd hmem hpaged (by omega) _
      exact ⟨fuel, ret, s', _, by rw [hcall hfuel, htake], hp, hnd', hpages⟩
  · -- then it is the head that is larger, and it is not given away whole
    have hlt : n < (s.node (s.heads ty)).size := by
      obtain ⟨p, hp, hlt⟩ := hlarge
      rcases List.mem_cons.mp hp with rfl | hp
      · exact hlt
      · have := of_decide_eq_false (hbefore p hp)
        omega
    obtain ⟨ret, s', htake, hp, hnd', hpages⟩ :=
      divide_pages h hnd (List.mem_cons_self ..) hpaged hlt _
    exact ⟨fuel, ret, s', _, by rw [hcall hfuel, htake], hp, hnd', hpages⟩
  · obtain ⟨p, hp, hlt⟩ := hlarge
    have := of_decide_eq_false (hnone p hp)
    omega

/-- **What `free_pgs` gives back**. -/
theorem freePgs_pages (h : PoolInv s ty t [(addr, n)]) (hnd : s.live.Nodup)
    (hn : floor size pageSize = n)
    (hroom : ∃ y < wordSize, y % pageSize = 0 ∧ y ∉ freePages s ty ∧ y ∉ pagesOf (addr, n)) :
    ∃ fuel s' t', freePgs K addr size ty s fuel = some s' ∧ PoolInv s' ty t' [] ∧
      freePages s' ty = pagesOf (addr, n) ∪ freePages s ty := by
  obtain ⟨y, hy, hypage, hfree, hnot⟩ := hroom
  have hout : ∀ p ∈ s.heads ty :: t, ¬ InRange wordSize y (s.range p) := fun p hp hin => by
    rw [freePages_eq h.ring] at hfree
    exact hfree ⟨_, List.mem_map_of_mem hp, hy, hypage, hin⟩
  have hnot : ¬ InRange wordSize y (addr, n) := fun hin => hnot ⟨hy, hypage, hin⟩
  have hjoin : ∀ {fuel : Nat} {prev x : Ptr}, x ∈ s.heads ty :: t →
      decide (((s.node x).addr + (s.node x).size) % wordSize = addr ∨
        (addr + n) % wordSize = (s.node x).addr) = true →
      search s ty (fun p => ((s.node p).addr + (s.node p).size) % wordSize = addr ∨
        (addr + n) % wordSize = (s.node p).addr) fuel = some ((prev, x), true) →
      ∃ fuel s' t', freePgs K addr size ty s fuel = some s' ∧ PoolInv s' ty t' [] ∧
        freePages s' ty = pagesOf (addr, n) ∪ freePages s ty := by
    intro fuel prev x hx hit hfuel
    obtain ⟨hp, hpages⟩ := join_pages h hnd hx (of_decide_eq_true hit) hy (hout x hx) hnot
    refine ⟨fuel, _, t, ?_, hp, hpages⟩
    rw [freePgs]
    simp only [hn, hfuel, Option.map_some]
  rcases search_spec h.ring (fun p => ((s.node p).addr + (s.node p).size) % wordSize = addr ∨
      (addr + n) % wordSize = (s.node p).addr) with
    ⟨t₁, x, t₂, ht, hx, fuel, hfuel⟩ | ⟨_, hx, fuel, hfuel⟩ | ⟨_, fuel, r, hfuel⟩
  · exact hjoin (by rw [ht]; simp) hx hfuel
  · exact hjoin (List.mem_cons_self ..) hx hfuel
  · obtain ⟨t', hp, hpages⟩ := insert_pages (K := K) h hnd
    refine ⟨fuel, _, t', ?_, hp, hpages⟩
    rw [freePgs]
    simp only [hn, hfuel, Option.map_some]

/-- More fuel changes no result of `alloc`. -/
theorem allocPgs_mono {k m : Nat} {r : Nat × State} (h : allocPgs size ty s k = some r)
    (hle : k ≤ m) : allocPgs size ty s m = some r := by
  rw [allocPgs, Option.map_eq_some_iff] at h ⊢
  obtain ⟨found, hfound, hr⟩ := h
  exact ⟨found, iterate_mono hfound hle, hr⟩

theorem freePgs_mono {k m : Nat} {s' : State} (h : freePgs K addr size ty s k = some s')
    (hle : k ≤ m) : freePgs K addr size ty s m = some s' := by
  rw [freePgs, Option.map_eq_some_iff] at h ⊢
  obtain ⟨found, hfound, hr⟩ := h
  exact ⟨found, iterate_mono hfound hle, hr⟩

end Calls

-- ---------------------------------------------------------------------------
-- Both calls
-- ---------------------------------------------------------------------------

section RoundTrip

variable {K : Kalloc} {s : State} {ty : PageType} {t : List Ptr} {size : Nat}

/-- The size rounded up to whole pages, whatever fits into a word. -/
def wholePages (size : Nat) : Nat := (size + (pageSize - 1)) / pageSize * pageSize

/-- How a size is rounded up by `alloc` and down by `free`. -/
theorem rounding (hpos : 0 < size) (hlt : wholePages size < wordSize) :
    align size pageSize = wholePages size ∧ wholePages size % pageSize = 0 ∧ 0 < wholePages size ∧
      floor size pageSize % pageSize = 0 ∧ floor size pageSize ≤ wholePages size ∧
      (size % pageSize = 0 → floor size pageSize = wholePages size) ∧
      (size % pageSize ≠ 0 → floor size pageSize + pageSize = wholePages size) := by
  rw [floor_eq]
  unfold align wholePages pageSize wordSize at *
  split <;> omega

/-- **Both calls** in a row: all pages that were taken come back but those above the size
rounded down. -/
theorem both_pages (h : Ready s ty t) (hpos : 0 < size)
    (hlarge : ∃ p ∈ s.heads ty :: t, wholePages size < (s.node p).size) :
    ∃ fuel ret s₁ s₂ t₁, allocPgs size ty s fuel = some (ret, s₁) ∧
      freePgs K ret size ty s₁ fuel = some s₂ ∧ PoolInv s₁ ty t₁ [(ret, wholePages size)] ∧
      freePages s ty = pagesOf (ret, wholePages size) ∪ freePages s₁ ty ∧
      freePages s₂ ty = pagesOf (ret, floor size pageSize) ∪ freePages s₁ ty := by
  obtain ⟨p, hp, hlt⟩ := hlarge
  have hword : wholePages size < wordSize := hlt.trans (h.pool.paged_at hp).size_lt
  obtain ⟨halign, hwhole, -, hfloor, hle, -⟩ := rounding hpos hword
  obtain ⟨fuel₁, ret, s₁, t₁, halloc, hp₁, hnd₁, hpages₁⟩ :=
    allocPgs_pages h.pool h.live halign hwhole ⟨p, hp, hlt⟩
  have hsub : pagesOf (ret, floor size pageSize) ⊆ pagesOf (ret, wholePages size) :=
    fun x hx => ⟨hx.1, hx.2.1, lt_of_lt_of_le hx.2.2 hle⟩
  -- the page that the pool leaves out is still left out
  obtain ⟨y, hy, hypage, hnot⟩ := h.room
  rw [hpages₁, Set.mem_union, not_or] at hnot
  obtain ⟨fuel₂, s₂, -, hfree, -, hpages₂⟩ := freePgs_pages (K := K) (hp₁.shrink hle hfloor) hnd₁ rfl
    ⟨y, hy, hypage, hnot.2, fun hin => hnot.1 (hsub hin)⟩
  exact ⟨max fuel₁ fuel₂, ret, s₁, s₂, t₁, allocPgs_mono halloc (Nat.le_max_left ..),
    freePgs_mono hfree (Nat.le_max_right ..), hp₁, hpages₁, hpages₂⟩

/-- The last page of an odd size is lost. -/
theorem not_undone (h : Ready s ty t) (hpos : 0 < size)
    (hlarge : ∃ p ∈ s.heads ty :: t, wholePages size < (s.node p).size)
    (hodd : size % pageSize ≠ 0) : ¬ Undone K size ty s := by
  obtain ⟨k, ret, s₁, s₂, t₁, halloc, hfree, hp₁, hpages₁, hpages₂⟩ := both_pages (K := K) h hpos hlarge
  rintro ⟨k', ret', s₁', s₂', halloc', hfree', hsame⟩
  obtain ⟨rfl, rfl⟩ := Prod.mk.inj (Option.some.inj
    ((allocPgs_mono halloc (Nat.le_max_left k k')).symm.trans
      (allocPgs_mono halloc' (Nat.le_max_right k k'))))
  obtain rfl := Option.some.inj ((freePgs_mono hfree (Nat.le_max_left k k')).symm.trans
    (freePgs_mono hfree' (Nat.le_max_right k k')))
  obtain ⟨p, hp, hlt⟩ := hlarge
  have hword : wholePages size < wordSize := hlt.trans (h.pool.paged_at hp).size_lt
  obtain ⟨-, -, -, hfloor, -, -, hlast⟩ := rounding hpos hword
  obtain ⟨ha, haw, -, -⟩ := hp₁.paged (ret, wholePages size) (by simp)
  simp only at ha haw
  -- the page behind the part that comes back
  set f := floor size pageSize with hf
  have hlast := hlast hodd
  obtain ⟨hpage, hlt'⟩ := paged_add ha hfloor
  have hfw : f < wordSize := by omega
  have hdistance : ((ret + f) % wordSize + (wordSize - ret)) % wordSize = f := distance_self haw hfw
  have hx : (ret + f) % wordSize ∈ pagesOf (ret, wholePages size) := by
    refine ⟨hlt', hpage, ?_⟩
    rw [InRange, hdistance, ← hlast]
    exact Nat.lt_add_of_pos_right (by decide)
  have hx' : (ret + f) % wordSize ∉ pagesOf (ret, f) := fun hin => by
    have hlow := hin.2.2
    rw [InRange, hdistance] at hlow
    exact lt_irrefl _ hlow
  have hout : (ret + f) % wordSize ∉ freePages s₁ ty := by
    rw [freePages_eq hp₁.ring]
    exact disjoint_pages ((apart_perm List.perm_append_comm).mp hp₁.apart) hx
  have hin : (ret + f) % wordSize ∈ freePages s₂ ty := hsame ▸ hpages₁ ▸ .inl hx
  rw [hpages₂] at hin
  exact hin.elim hx' hout

end RoundTrip

/-- **Freeing undoes allocating** exactly for whole pages. -/
theorem free_undoes_alloc_iff {K : Kalloc} {s : State} {ty : PageType} {t : List Ptr} {size : Nat}
    (h : Ready s ty t) (hpos : 0 < size)
    (hlarge : ∃ p ∈ s.heads ty :: t, wholePages size < (s.node p).size) :
    Undone K size ty s ↔ size % pageSize = 0 := by
  constructor
  · intro hundone
    by_contra hodd
    exact not_undone h hpos hlarge hodd hundone
  · intro heven
    obtain ⟨k, ret, s₁, s₂, t₁, halloc, hfree, -, hpages₁, hpages₂⟩ :=
      both_pages (K := K) h hpos hlarge
    obtain ⟨p, hp, hlt⟩ := hlarge
    have hword : wholePages size < wordSize := hlt.trans (h.pool.paged_at hp).size_lt
    have hfloor := (rounding hpos hword).2.2.2.2.2.1 heven
    refine ⟨k, ret, s₁, s₂, halloc, hfree, ?_⟩
    rw [hpages₁, hpages₂, hfloor]

/-- Two pages can be handed out. -/
theorem two_ready : Ready Pool.two.s .VIRT_PAGES [] := by
  have hpool : PoolInv Pool.two.s .VIRT_PAGES [] [] := Pool.two_initial.inv.pool .VIRT_PAGES
  refine ⟨hpool, Pool.two_initial.nodup, 0, by decide, by decide, ?_⟩
  rw [freePages_eq hpool.ring]
  rintro ⟨r, hr, -, -, hin⟩
  obtain rfl := List.mem_singleton.mp hr
  exact absurd hin (by unfold InRange; decide)

/-- Two of the four virtual pages are taken and given back. -/
theorem free_undoes_alloc_two : Undone Kalloc.above 0x2000 .VIRT_PAGES Pool.two.s :=
  (free_undoes_alloc_iff two_ready (by decide) ⟨_, List.mem_cons_self .., by decide⟩).mpr (by decide)

/-- One byte takes a page and gives none back. -/
theorem one_byte_lost :
    Ready Pool.two.s .VIRT_PAGES [] ∧ ¬ Undone Kalloc.above 1 .VIRT_PAGES Pool.two.s :=
  ⟨two_ready, not_undone two_ready (by decide) ⟨_, List.mem_cons_self .., by decide⟩ (by decide)⟩

end Frosk.Pages

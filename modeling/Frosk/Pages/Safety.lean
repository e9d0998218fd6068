import Frosk.Pages.Definitions

/-!
# Page pools: safety

A `Pool` is the allocator's state with the ranges that are outstanding, which
the code does not keep.

Main result: `pool_safe_iff`, over every run of `alloc_pgs` and `free_pgs` from
rings of disjoint page aligned ranges. The head stays on its ring, the ranges
on the rings stay disjoint, no range is handed out twice and `INVALID_PAGE`
means that no single range is large enough (`SafeAfter`), exactly when no
request has to be met by giving away the whole range of the head node
(`HeadSpared`): the node is freed then, and `heads[type]` still points to it.
-/

namespace Frosk.Pages

open Lib

structure Pool where
  s   : State
  out : PageType → List (Nat × Nat)

inductive Call where
  | alloc (size : Nat) (ty : PageType)
  | free (addr size : Nat) (ty : PageType)

/-- One call, with the value it returns; `free_pgs` returns nothing. -/
def Pool.call (K : Kalloc) (y : Pool) (a : Call) (fuel : Nat) : Option (Pool × Nat) :=
  match a with
  | .alloc size ty => (allocPgs size ty y.s fuel).map fun (ret, s) =>
    (⟨s, if ret = invalidPage then y.out
      else Function.update y.out ty ((ret, size) :: y.out ty)⟩, ret)
  | .free addr size ty => (freePgs K addr size ty y.s fuel).map fun s =>
    (⟨s, Function.update y.out ty ((y.out ty).erase (addr, size))⟩, 0)

def Pool.Step (K : Kalloc) (y : Pool) (a : Call) (y' : Pool) (b : Nat) : Prop :=
  ∃ fuel, y.call K a fuel = some (y', b)

/-- Sizes are positive multiples of the page size, frees are of outstanding
ranges. -/
def Pool.Legal (y : Pool) : Call → Prop
  | .alloc size _ => 0 < size ∧ size % pageSize = 0 ∧ size < wordSize
  | .free addr size ty => (addr, size) ∈ y.out ty

instance (y : Pool) : (a : Call) → Decidable (y.Legal a)
  | .alloc size _ =>
    inferInstanceAs (Decidable (0 < size ∧ size % pageSize = 0 ∧ size < wordSize))
  | .free addr size ty => inferInstanceAs (Decidable ((addr, size) ∈ y.out ty))

/-- The head and `t` are a ring of nodes in use, with disjoint ranges. -/
structure RingOf (s : State) (ty : PageType) (t : List Ptr) : Prop where
  ring  : IsRing s.next (s.heads ty) t
  live  : ∀ p ∈ s.heads ty :: t, p ∈ s.live
  apart : Apart wordSize ((s.heads ty :: t).map s.range)

/-- What the value returned says about the pool it was taken from. -/
def Answer (y : Pool) (b : Nat) : Call → Prop
  | .alloc size ty => (∀ t, RingOf y.s ty t →
      (b = invalidPage ↔ ∀ p ∈ y.s.heads ty :: t, (y.s.node p).size < size)) ∧
      (b ≠ invalidPage → ∀ r ∈ y.out ty, Disjointed wordSize (b, size) r)
  | .free _ _ _ => True

def SafeAfter (y : Pool) (a : Call) (y' : Pool) (b : Nat) : Prop :=
  (∀ ty, ∃ t, RingOf y'.s ty t) ∧ Answer y b a

/-- If the head's range is exactly what is asked for, then another node of the
ring is large enough. -/
def HeadSpared (y : Pool) : Call → Prop
  | .alloc size ty => (y.s.node (y.s.heads ty)).size = size →
      ∃ n, y.s.next^[n] (y.s.heads ty) ≠ y.s.heads ty ∧
        size ≤ (y.s.node (y.s.next^[n] (y.s.heads ty))).size
  | .free _ _ _ => True

/-- Page aligned, as machine words. -/
structure Paged (r : Nat × Nat) : Prop where
  addr    : r.1 % pageSize = 0
  addr_lt : r.1 < wordSize
  size    : r.2 % pageSize = 0
  size_lt : r.2 < wordSize

/-- Two rings of disjoint page aligned ranges, and nothing outstanding. -/
structure Pool.Initial (y : Pool) (t : PageType → List Ptr) : Prop where
  rings    : ∀ ty, RingOf y.s ty (t ty)
  paged    : ∀ ty, ∀ p ∈ y.s.heads ty :: t ty, Paged (y.s.range p)
  separate : ∀ ty ty', ty ≠ ty' →
    ∀ p ∈ y.s.heads ty :: t ty, p ∉ y.s.heads ty' :: t ty'
  nodup    : y.s.live.Nodup
  out      : ∀ ty, y.out ty = []

-- ---------------------------------------------------------------------------
-- The invariant
-- ---------------------------------------------------------------------------

/-- One pool: a ring of nodes in use, whose ranges are disjoint from each other
and from the outstanding ones. -/
structure PoolInv (s : State) (ty : PageType) (t : List Ptr) (out : List (Nat × Nat)) :
    Prop where
  ring  : IsRing s.next (s.heads ty) t
  live  : ∀ p ∈ s.heads ty :: t, p ∈ s.live
  apart : Apart wordSize ((s.heads ty :: t).map s.range ++ out)
  paged : ∀ r ∈ (s.heads ty :: t).map s.range ++ out, Paged r

structure Inv (y : Pool) (t : PageType → List Ptr) : Prop where
  pool     : ∀ ty, PoolInv y.s ty (t ty) (y.out ty)
  separate : ∀ ty ty', ty ≠ ty' →
    ∀ p ∈ y.s.heads ty :: t ty, p ∉ y.s.heads ty' :: t ty'
  nodup    : y.s.live.Nodup

/-- The ranges of a pool are on a ring. -/
theorem PoolInv.ringOf {s : State} {ty : PageType} {t : List Ptr} {out : List (Nat × Nat)}
    (h : PoolInv s ty t out) : RingOf s ty t :=
  ⟨h.ring, h.live, (List.pairwise_append.mp h.apart).1⟩

/-- What a call on one ring does to the records of the other. -/
structure Frame (s s' : State) (R R' : List Ptr) : Prop where
  heads : s'.heads = s.heads
  node  : ∀ p ∈ s.live, p ∉ R → s'.node p = s.node p
  live  : ∀ p ∈ s.live, p ∉ R → p ∈ s'.live
  ring  : ∀ p ∈ R', p ∈ R ∨ p ∉ s.live
  nodup : s'.live.Nodup

/-- A call that keeps its own pool keeps both. -/
theorem inv_of_frame {y : Pool} {t : PageType → List Ptr} (h : Inv y t) {s' : State}
    {ty : PageType} {t' : List Ptr} {out' : List (Nat × Nat)} (hp : PoolInv s' ty t' out')
    (hf : Frame y.s s' (y.s.heads ty :: t ty) (s'.heads ty :: t')) :
    Inv ⟨s', Function.update y.out ty out'⟩ (Function.update t ty t') := by
  have hother : ∀ ty', ty' ≠ ty → ∀ p ∈ y.s.heads ty' :: t ty',
      p ∈ y.s.live ∧ p ∉ y.s.heads ty :: t ty := fun ty' hne p hpm =>
    ⟨(h.pool ty').live p hpm, h.separate ty' ty hne p hpm⟩
  have hnot : ∀ ty', ty' ≠ ty → ∀ p ∈ s'.heads ty :: t', p ∉ y.s.heads ty' :: t ty' := by
    intro ty' hne p hpm hpm'
    obtain ⟨hlive, hout⟩ := hother ty' hne p hpm'
    rcases hf.ring p hpm with hin | hnl
    · exact hout hin
    · exact hnl hlive
  refine ⟨?_, ?_, hf.nodup⟩
  · intro ty'
    by_cases hty : ty' = ty
    · subst hty
      simpa using hp
    · have hold := h.pool ty'
      have hnode : ∀ p ∈ y.s.heads ty' :: t ty', s'.node p = y.s.node p := fun p hpm =>
        hf.node p (hother ty' hty p hpm).1 (hother ty' hty p hpm).2
      have hmap : (y.s.heads ty' :: t ty').map s'.range =
          (y.s.heads ty' :: t ty').map y.s.range :=
        List.map_congr_left fun p hpm => by
          unfold State.range
          rw [hnode p hpm]
      simp only [Function.update_of_ne hty]
      refine ⟨?_, ?_, ?_, ?_⟩
      · rw [hf.heads]
        refine isRing_congr hold.ring ?_
        intro p hpm
        unfold State.next
        rw [hnode p hpm]
      · rw [hf.heads]
        exact fun p hpm => hf.live p (hother ty' hty p hpm).1 (hother ty' hty p hpm).2
      · rw [hf.heads, hmap]
        exact hold.apart
      · rw [hf.heads, hmap]
        exact hold.paged
  · intro ty₁ ty₂ hne p hpm
    by_cases h₁ : ty₁ = ty
    · subst h₁
      rw [Function.update_self] at hpm
      rw [Function.update_of_ne (Ne.symm hne), congrFun hf.heads ty₂]
      exact hnot ty₂ (Ne.symm hne) p hpm
    · rw [Function.update_of_ne h₁, congrFun hf.heads ty₁] at hpm
      by_cases h₂ : ty₂ = ty
      · subst h₂
        rw [Function.update_self]
        exact fun hpm' => hnot ty₁ h₁ p hpm' hpm
      · rw [Function.update_of_ne h₂, congrFun hf.heads ty₂]
        exact h.separate ty₁ ty₂ hne p hpm

/-- Whole pages less whole pages are whole pages. -/
theorem paged_sub {a b : Nat} (ha : a % pageSize = 0) (hb : b % pageSize = 0) :
    (a - b) % pageSize = 0 := by
  unfold pageSize at *
  omega

/-- A sum of whole pages is whole pages, also when it wraps. -/
theorem paged_add {a b : Nat} (ha : a % pageSize = 0) (hb : b % pageSize = 0) :
    (a + b) % wordSize % pageSize = 0 ∧ (a + b) % wordSize < wordSize := by
  unfold pageSize wordSize at *
  omega

-- ---------------------------------------------------------------------------
-- The search loop
-- ---------------------------------------------------------------------------

/-- The loop ends: at the first node with the property, the head last, or with
the answer that there is none. -/
theorem search_spec {s : State} {ty : PageType} {t : List Ptr}
    (hr : IsRing s.next (s.heads ty) t) (hit : Ptr → Bool) :
    (∃ t₁ x t₂, t = t₁ ++ x :: t₂ ∧ hit x = true ∧
      ∃ fuel, search s ty hit fuel = some ((t₁.getLastD (s.heads ty), x), true)) ∨
    ((∀ p ∈ t, hit p = false) ∧ hit (s.heads ty) = true ∧
      ∃ fuel, search s ty hit fuel = some ((t.getLastD (s.heads ty), s.heads ty), true)) ∨
    ((∀ p ∈ s.heads ty :: t, hit p = false) ∧
      ∃ fuel r, search s ty hit fuel = some (r, false)) := by
  have hstop : ∀ x ∈ t, (x == s.heads ty) = false := fun x hx => by
    rw [beq_eq_false_iff_ne]
    rintro rfl
    exact (List.nodup_cons.mp hr.nodup).1 hx
  rcases scan_ring hr hit (fun cur _ => cur == s.heads ty) hstop (beq_self_eq_true _) with
    ⟨t₁, x, t₂, ht, hx, hex⟩ | ⟨hbefore, hx, hex⟩ | ⟨hnone, fuel, hfuel⟩
  · exact .inl ⟨t₁, x, t₂, ht, hx, hex⟩
  · exact .inr (.inl ⟨hbefore, hx, hex⟩)
  · exact .inr (.inr ⟨hnone, fuel, _, hfuel⟩)

-- ---------------------------------------------------------------------------
-- Edits of a ring
-- ---------------------------------------------------------------------------

/-- One node of the ring may be taken to the front. -/
theorem ranges_perm {s : State} {R : List Ptr} {x : Ptr} (hx : x ∈ R) (l : List (Nat × Nat)) :
    (R.map s.range ++ l).Perm (s.range x :: ((R.erase x).map s.range ++ l)) :=
  ((List.perm_cons_erase hx).map s.range).append_right l

/-- A new range for one node of the ring. -/
theorem PoolInv.edit {s s' : State} {ty : PageType} {t : List Ptr} {out out' : List (Nat × Nat)}
    {x : Ptr} (h : PoolInv s ty t out) (hx : x ∈ s.heads ty :: t) (hheads : s'.heads = s.heads)
    (hlive : s'.live = s.live) (hnext : s'.next = s.next)
    (hnode : ∀ p, p ≠ x → s'.node p = s.node p)
    (hap : Apart wordSize
      (s'.range x :: (((s.heads ty :: t).erase x).map s.range ++ out')))
    (hpx : Paged (s'.range x)) (hpo : ∀ r ∈ out', Paged r) : PoolInv s' ty t out' := by
  have hrest : ((s.heads ty :: t).erase x).map s'.range =
      ((s.heads ty :: t).erase x).map s.range := by
    refine List.map_congr_left ?_
    intro p hp
    have hpx : p ≠ x := by
      rintro rfl
      exact h.ring.nodup.not_mem_erase hp
    unfold State.range
    rw [hnode p hpx]
  refine ⟨?_, ?_, ?_, ?_⟩
  · rw [hnext, hheads]
    exact h.ring
  · rw [hheads, hlive]
    exact h.live
  · rw [hheads, apart_perm (ranges_perm hx out'), hrest]
    exact hap
  · rw [hheads]
    intro r hr
    rw [(ranges_perm hx out').mem_iff, hrest, List.mem_cons, List.mem_append] at hr
    rcases hr with rfl | hr | hr
    · exact hpx
    · obtain ⟨p, hp, rfl⟩ := List.mem_map.mp hr
      exact h.paged _ (List.mem_append_left _ (List.mem_map_of_mem (List.mem_of_mem_erase hp)))
    · exact hpo r hr

/-- The range of a node is apart from all others. -/
theorem PoolInv.apart_at {s : State} {ty : PageType} {t : List Ptr} {out : List (Nat × Nat)}
    {x : Ptr} (h : PoolInv s ty t out) (hx : x ∈ s.heads ty :: t) :
    Apart wordSize (s.range x :: (((s.heads ty :: t).erase x).map s.range ++ out)) :=
  (apart_perm (ranges_perm hx out)).mp h.apart

theorem PoolInv.paged_at {s : State} {ty : PageType} {t : List Ptr} {out : List (Nat × Nat)}
    {x : Ptr} (h : PoolInv s ty t out) (hx : x ∈ s.heads ty :: t) : Paged (s.range x) :=
  h.paged _ (List.mem_append_left _ (List.mem_map_of_mem hx))

theorem setSize_next (s : State) (x : Ptr) (v : Nat) : (s.setSize x v).next = s.next := by
  funext p
  by_cases hp : p = x
  · simp [State.next, State.setSize, State.setNode, hp]
  · simp [State.next, State.setSize, State.setNode, hp]

theorem setAddr_next (s : State) (x : Ptr) (v : Nat) : (s.setAddr x v).next = s.next := by
  funext p
  by_cases hp : p = x
  · simp [State.next, State.setAddr, State.setNode, hp]
  · simp [State.next, State.setAddr, State.setNode, hp]

theorem setNext_range (s : State) (p v : Ptr) : (s.setNext p v).range = s.range := by
  funext q
  by_cases hq : q = p
  · simp [State.range, State.setNext, State.setNode, hq]
  · simp [State.range, State.setNext, State.setNode, hq]

/-- Records change at one address only. -/
theorem frame_of_edit {s s' : State} {R : List Ptr} {x : Ptr} (hx : x ∈ R)
    (hheads : s'.heads = s.heads) (hlive : s'.live = s.live) (hnd : s.live.Nodup)
    (hnode : ∀ p, p ≠ x → s'.node p = s.node p) : Frame s s' R R :=
  ⟨hheads, fun p _ hp => hnode p fun heq => hp (heq ▸ hx), fun _ hp _ => hlive ▸ hp,
    fun _ hp => .inl hp, hlive ▸ hnd⟩

/-- Dividing a node that is larger than what is asked for. -/
theorem divide_spec {s : State} {ty : PageType} {t : List Ptr} {out : List (Nat × Nat)}
    {x : Ptr} {size : Nat} (h : PoolInv s ty t out) (hnd : s.live.Nodup)
    (hx : x ∈ s.heads ty :: t) (hpos : size % pageSize = 0)
    (hlt : size < (s.node x).size) (prev : Ptr) :
    ∃ ret s', take prev x size s = (ret, s') ∧ PoolInv s' ty t ((ret, size) :: out) ∧
      Frame s s' (s.heads ty :: t) (s'.heads ty :: t) := by
  obtain ⟨ha, haw, hs, hsw⟩ := h.paged_at hx
  simp only [State.range] at ha haw hs hsw
  have hne : (s.node x).size ≠ size := by omega
  have hself : (s.setSize x ((s.node x).size - size)).node x =
      { s.node x with size := (s.node x).size - size } := Function.update_self ..
  have hnode : ∀ p, p ≠ x → (s.setSize x ((s.node x).size - size)).node p = s.node p :=
    fun p hp => Function.update_of_ne hp ..
  refine ⟨((s.node x).addr + ((s.node x).size - size)) % wordSize,
    s.setSize x ((s.node x).size - size), ?_, ?_, ?_⟩
  · rw [take, if_neg hne]
    simp only [hself]
  · have hrange : (s.setSize x ((s.node x).size - size)).range x =
        ((s.node x).addr, (s.node x).size - size) := by rw [State.range, hself]
    have hdiv := apart_divide haw hsw (by omega : size ≤ (s.node x).size) (h.apart_at hx)
    refine h.edit hx rfl rfl (setSize_next ..) hnode ?_ ?_ ?_
    · rw [hrange, apart_perm (List.Perm.cons _ List.perm_middle)]
      exact hdiv
    · rw [hrange]
      exact ⟨ha, haw, paged_sub hs hpos, lt_of_le_of_lt (Nat.sub_le _ _) hsw⟩
    · intro r hr
      rcases List.mem_cons.mp hr with rfl | hr
      · obtain ⟨hadd, hlt'⟩ := paged_add ha (paged_sub hs hpos)
        exact ⟨hadd, hlt', hpos, hlt.trans hsw⟩
      · exact h.paged r (List.mem_append_right _ hr)
  · exact frame_of_edit hx rfl rfl hnd hnode

/-- Giving away the whole range of a node other than the head. -/
theorem exact_spec {s : State} {ty : PageType} {t₁ t₂ : List Ptr} {out : List (Nat × Nat)}
    {x : Ptr} {size : Nat} (h : PoolInv s ty (t₁ ++ x :: t₂) out) (hnd : s.live.Nodup)
    (heq : (s.node x).size = size) :
    ∃ ret s', take (t₁.getLastD (s.heads ty)) x size s = (ret, s') ∧
      PoolInv s' ty (t₁ ++ t₂) ((ret, size) :: out) ∧
      Frame s s' (s.heads ty :: (t₁ ++ x :: t₂)) (s'.heads ty :: (t₁ ++ t₂)) := by
  set prev := t₁.getLastD (s.heads ty) with hprev
  have hx : x ∈ s.heads ty :: (t₁ ++ x :: t₂) := by simp
  have hsub : (s.heads ty :: (t₁ ++ t₂)).Sublist (s.heads ty :: (t₁ ++ x :: t₂)) :=
    (List.Sublist.append_left (List.sublist_cons_self x t₂) t₁).cons_cons _
  have hprev_mem : prev ∈ s.heads ty :: (t₁ ++ x :: t₂) := by
    have hmem : prev ∈ s.heads ty :: t₁ := List.getLastD_mem_cons
    simp only [List.mem_cons, List.mem_append] at hmem ⊢
    tauto
  have hnotx : ∀ p ∈ s.heads ty :: (t₁ ++ t₂), p ≠ x := by
    have hrot := (List.nodup_cons.mp (isRing_rotate h.ring).nodup).1
    rintro p hp rfl
    refine hrot ?_
    simp only [List.mem_cons, List.mem_append] at hp ⊢
    tauto
  have hself : (s.setNext prev (s.node x).next).node prev =
      { s.node prev with next := (s.node x).next } := Function.update_self ..
  have hnode : ∀ p, p ≠ prev → (s.setNext prev (s.node x).next).node p = s.node p :=
    fun p hp => Function.update_of_ne hp ..
  have hrange : (s.setNext prev (s.node x).next).range = s.range := setNext_range ..
  refine ⟨(s.node x).addr, (s.setNext prev (s.node x).next).kfree x,
    by rw [take, if_pos heq], ⟨?_, ?_, ?_, ?_⟩, ⟨rfl, ?_, ?_, ?_, ?_⟩⟩
  · refine isRing_unlink_at h.ring ?_ fun p hp => ?_
    · show ((s.setNext prev (s.node x).next).node prev).next = (s.node x).next
      rw [hself]
    · exact congrArg Node.next (hnode p hp)
  · intro p hp
    exact (List.mem_erase_of_ne (hnotx p hp)).mpr (h.live p (hsub.subset hp))
  · -- the range changes sides: the two lists of ranges are permutations of each other
    have hperm : ((s.heads ty :: (t₁ ++ x :: t₂)).map s.range ++ out).Perm
        ((s.heads ty :: (t₁ ++ t₂)).map s.range ++ s.range x :: out) := by
      have hring : (s.heads ty :: (t₁ ++ x :: t₂)).Perm (x :: s.heads ty :: (t₁ ++ t₂)) :=
        (List.Perm.cons _ List.perm_middle).trans (List.Perm.swap ..)
      exact ((hring.map s.range).append_right out).trans List.perm_middle.symm
    have hap := (apart_perm hperm).mp h.apart
    rw [show s.range x = ((s.node x).addr, size) by rw [← heq]; rfl] at hap
    show Apart wordSize (List.map (s.setNext prev (s.node x).next).range _ ++ _)
    rw [hrange]
    exact hap
  · intro r hr
    have hr' : r ∈ (s.heads ty :: (t₁ ++ t₂)).map s.range ++ ((s.node x).addr, size) :: out := by
      rw [← hrange]
      exact hr
    rcases List.mem_append.mp hr' with hm | hm
    · obtain ⟨p, hp, rfl⟩ := List.mem_map.mp hm
      exact h.paged_at (hsub.subset hp)
    · rcases List.mem_cons.mp hm with rfl | hm
      · rw [← heq]
        exact h.paged_at hx
      · exact h.paged r (List.mem_append_right _ hm)
  · intro p _ hp
    exact hnode p fun heq => hp (heq ▸ hprev_mem)
  · intro p hlive hp
    have hpx : p ≠ x := fun heq => hp (heq ▸ hx)
    exact (List.mem_erase_of_ne hpx).mpr hlive
  · exact fun p hp => .inl (hsub.subset hp)
  · exact hnd.erase x

/-- A range that borders on a node goes back into it. -/
theorem join_spec {s : State} {ty : PageType} {t : List Ptr} {out : List (Nat × Nat)}
    {x : Ptr} {addr size : Nat} (h : PoolInv s ty t out) (hnd : s.live.Nodup)
    (hx : x ∈ s.heads ty :: t) (hmem : (addr, size) ∈ out)
    (hborder : ((s.node x).addr + (s.node x).size) % wordSize = addr ∨
      (addr + size) % wordSize = (s.node x).addr) :
    PoolInv (join x addr size s) ty t (out.erase (addr, size)) ∧
      Frame s (join x addr size s) (s.heads ty :: t) ((join x addr size s).heads ty :: t) := by
  obtain ⟨ha, haw, hs, hsw⟩ := h.paged_at hx
  simp only [State.range] at ha haw hs hsw
  obtain ⟨ha', haw', hs', hsw'⟩ := h.paged _ (List.mem_append_right _ hmem)
  simp only at ha' haw' hs' hsw'
  obtain ⟨hadd, hlt⟩ := paged_add hs hs'
  have hpo : ∀ r ∈ out.erase (addr, size), Paged r := fun r hr =>
    h.paged r (List.mem_append_right _ (List.mem_of_mem_erase hr))
  -- the outstanding range in front, next to the node's
  have hperm := (List.perm_cons_erase hmem).append_left
    (((s.heads ty :: t).erase x).map s.range)
  have hap : Apart wordSize (s.range x :: (addr, size) ::
      (((s.heads ty :: t).erase x).map s.range ++ out.erase (addr, size))) :=
    (apart_perm ((hperm.trans List.perm_middle).cons _)).mp (h.apart_at hx)
  unfold join
  by_cases hleft : ((s.node x).addr + (s.node x).size) % wordSize = addr
  · rw [if_pos hleft]
    have hnode : ∀ p, p ≠ x → (s.setSize x (((s.node x).size + size) % wordSize)).node p =
        s.node p := fun p hp => Function.update_of_ne hp ..
    have hrange : (s.setSize x (((s.node x).size + size) % wordSize)).range x =
        ((s.node x).addr, ((s.node x).size + size) % wordSize) := by
      simp [State.range, State.setSize, State.setNode]
    refine ⟨h.edit hx rfl rfl (setSize_next ..) hnode ?_ ?_ hpo, frame_of_edit hx rfl rfl hnd hnode⟩
    · rw [hrange]
      rw [← hleft] at hap
      rw [← hleft]
      exact apart_join haw hsw hap
    · rw [hrange]
      exact ⟨ha, haw, hadd, hlt⟩
  · rw [if_neg hleft]
    have hright := hborder.resolve_left hleft
    set s' := (s.setSize x (((s.node x).size + size) % wordSize)).setAddr x addr with hs'
    have hnode : ∀ p, p ≠ x → s'.node p = s.node p := fun p hp => by
      simp [hs', State.setAddr, State.setSize, State.setNode, hp]
    have hrange : s'.range x = (addr, ((s.node x).size + size) % wordSize) := by
      simp [hs', State.range, State.setAddr, State.setSize, State.setNode]
    have hnext : s'.next = s.next := by rw [hs', setAddr_next, setSize_next]
    refine ⟨h.edit hx rfl rfl hnext hnode ?_ ?_ hpo, frame_of_edit hx rfl rfl hnd hnode⟩
    · rw [hrange, Nat.add_comm (s.node x).size size]
      refine apart_join haw' hsw' ?_
      rw [hright]
      exact (apart_perm (List.Perm.swap ..)).mp hap
    · rw [hrange]
      exact ⟨ha', haw', hadd, hlt⟩

/-- The new node behind the head. -/
theorem insert_nodes {K : Kalloc} {s : State} {ty : PageType} (addr size : Nat)
    (hch : K.pick s.live ≠ s.heads ty) :
    (∀ p, p ≠ K.pick s.live → p ≠ s.heads ty → (insert K ty addr size s).node p = s.node p) ∧
      (insert K ty addr size s).node (K.pick s.live) = ⟨addr, size, s.next (s.heads ty)⟩ ∧
      (insert K ty addr size s).node (s.heads ty) =
        { s.node (s.heads ty) with next := K.pick s.live } := by
  refine ⟨?_, ?_, ?_⟩
  · intro p hpc hph
    simp [insert, State.kalloc, State.setNext, State.setNode, hph, hpc]
  · simp [insert, State.kalloc, State.setNext, State.setNode, hch]
  · simp [insert, State.kalloc, State.setNext, State.setNode, Ne.symm hch]

/-- The new node has the range that was given back, the others keep theirs. -/
theorem insert_ranges {K : Kalloc} {s : State} {ty : PageType} {t : List Ptr} (addr size : Nat)
    (hlive : ∀ p ∈ s.heads ty :: t, p ∈ s.live) :
    (s.heads ty :: K.pick s.live :: t).map (insert K ty addr size s).range =
      s.range (s.heads ty) :: (addr, size) :: t.map s.range := by
  have hfresh : K.pick s.live ∉ s.live := K.fresh _
  have hch : K.pick s.live ≠ s.heads ty := fun heq =>
    hfresh (hlive _ (heq ▸ List.mem_cons_self ..))
  obtain ⟨hnode, hnew, hhead⟩ := insert_nodes addr size hch
  have hrange : ∀ p ∈ s.heads ty :: t, (insert K ty addr size s).range p = s.range p := by
    intro p hp
    have hpc : p ≠ K.pick s.live := fun heq => hfresh (hlive _ (heq ▸ hp))
    by_cases hph : p = s.heads ty
    · rw [hph, State.range, hhead, State.range]
    · rw [State.range, hnode p hpc hph, State.range]
  have htail : t.map (insert K ty addr size s).range = t.map s.range :=
    List.map_congr_left fun p hp => hrange p (List.mem_cons_of_mem _ hp)
  have hcr : (insert K ty addr size s).range (K.pick s.live) = (addr, size) := by
    rw [State.range, hnew]
  rw [List.map_cons, List.map_cons, htail, hrange _ (List.mem_cons_self ..), hcr]

/-- A range that borders on no node gets one of its own. -/
theorem insert_spec {K : Kalloc} {s : State} {ty : PageType} {t : List Ptr}
    {out : List (Nat × Nat)} {addr size : Nat} (h : PoolInv s ty t out) (hnd : s.live.Nodup)
    (hmem : (addr, size) ∈ out) :
    PoolInv (insert K ty addr size s) ty (K.pick s.live :: t) (out.erase (addr, size)) ∧
      Frame s (insert K ty addr size s) (s.heads ty :: t)
        ((insert K ty addr size s).heads ty :: (K.pick s.live :: t)) := by
  have hmap := insert_ranges (K := K) addr size h.live
  have hnodes := insert_nodes (K := K) addr size fun heq : K.pick s.live = s.heads ty =>
    K.fresh _ (h.live _ (heq ▸ List.mem_cons_self ..))
  set c := K.pick s.live with hc
  have hfresh : c ∉ s.live := K.fresh _
  have hcring : c ∉ s.heads ty :: t := fun hm => hfresh (h.live c hm)
  set s' := insert K ty addr size s with hs'
  obtain ⟨hnode, hnew, hhead⟩ := hnodes
  have hperm : ((s.heads ty :: t).map s.range ++ out).Perm
      ((s.heads ty :: c :: t).map s'.range ++ out.erase (addr, size)) := by
    rw [hmap]
    have h₁ := (List.perm_cons_erase hmem).append_left (t.map s.range)
    exact (h₁.trans List.perm_middle).cons _
  refine ⟨⟨?_, ?_, ?_, ?_⟩, ⟨rfl, ?_, ?_, ?_, ?_⟩⟩
  · refine isRing_insert h.ring hcring ?_ ?_ fun p hp => ?_
    · exact congrArg Node.next hhead
    · show (s'.node c).next = _
      rw [hnew]
      rfl
    · have hpc : p ≠ c := fun heq => hcring (heq ▸ List.mem_cons_of_mem _ hp)
      have hph : p ≠ s.heads ty := fun heq => (List.nodup_cons.mp h.ring.nodup).1 (heq ▸ hp)
      exact congrArg Node.next (hnode p hpc hph)
  · intro p hp
    show p ∈ c :: s.live
    have hin : p = c ∨ p ∈ s.heads ty :: t := by
      have hp' : p ∈ s.heads ty :: c :: t := hp
      simp only [List.mem_cons] at hp' ⊢
      tauto
    rcases hin with rfl | hin
    · exact List.mem_cons_self ..
    · exact List.mem_cons_of_mem _ (h.live p hin)
  · exact (apart_perm hperm).mp h.apart
  · exact fun r hr => h.paged r (hperm.mem_iff.mpr hr)
  · intro p hlive hp
    refine hnode p ?_ ?_
    · rintro rfl
      exact hfresh hlive
    · rintro rfl
      exact hp (List.mem_cons_self ..)
  · exact fun p hlive _ => List.mem_cons_of_mem _ hlive
  · intro p hp
    have hp' : p ∈ s.heads ty :: c :: t := hp
    by_cases hpc : p = c
    · exact .inr (hpc ▸ hfresh)
    · simp only [List.mem_cons, hpc, false_or] at hp'
      exact .inl (List.mem_cons.mpr hp')
  · exact List.nodup_cons.mpr ⟨hfresh, hnd⟩

-- ---------------------------------------------------------------------------
-- One call
-- ---------------------------------------------------------------------------

/-- Whole pages are not rounded up. -/
theorem align_paged {size : Nat} (h : size % pageSize = 0) : align size pageSize = size := by
  rw [align, if_neg (not_not.mpr h)]

theorem floor_paged {size : Nat} (h : size % pageSize = 0) : floor size pageSize = size := by
  rw [floor, if_neg (not_not.mpr h)]

/-- `alloc_pgs` hands out what `take` gives it at a node that `search` found. -/
theorem call_alloc {K : Kalloc} {y : Pool} {ty : PageType} {size fuel ret : Nat} {prev x : Ptr}
    {s' : State} (hsize : size % pageSize = 0)
    (hfuel : search y.s ty (fun p => size ≤ (y.s.node p).size) fuel = some ((prev, x), true))
    (htake : take prev x size y.s = (ret, s')) (hret : ret ≠ invalidPage) :
    y.Step K (.alloc size ty)
      ⟨s', Function.update y.out ty ((ret, size) :: y.out ty)⟩ ret := by
  refine ⟨fuel, ?_⟩
  rw [Pool.call, allocPgs, align_paged hsize]
  simp only [hfuel, Option.map_some, htake, if_neg hret]

/-- No range of whole pages starts at the invalid page. -/
theorem Paged.ne_invalid {r : Nat × Nat} (h : Paged r) : r.1 ≠ invalidPage := by
  have := h.addr
  unfold invalidPage wordSize pageSize at *
  omega

/-- A range that is a new head of the outstanding ones meets the answer. -/
theorem answer_of_out {y : Pool} {t : PageType → List Ptr} {ty : PageType} {size ret : Nat}
    {x : Ptr} {s' : State} {t' : List Ptr} (h : Inv y t) (hx : x ∈ y.s.heads ty :: t ty)
    (hfit : size ≤ (y.s.node x).size) (hp : PoolInv s' ty t' ((ret, size) :: y.out ty)) :
    ret ≠ invalidPage ∧ Answer y ret (.alloc size ty) := by
  have hpaged : Paged (ret, size) := hp.paged _ (by simp)
  have hret : ret ≠ invalidPage := hpaged.ne_invalid
  have hout := (List.pairwise_append.mp hp.apart).2.1
  refine ⟨hret, fun t₀ ht₀ => ⟨fun heq => absurd heq hret, fun hall => ?_⟩, fun _ r hr => ?_⟩
  · -- the ring is the same list of nodes, whoever looks at it
    obtain ⟨n, hn⟩ := (h.pool ty).ring.exists_iterate hx
    have hmem := ht₀.ring.iterate_mem n
    rw [hn] at hmem
    exact absurd (hall x hmem) (Nat.not_lt.mpr hfit)
  · exact (List.pairwise_cons.mp hout).1 r hr

/-- An allocation that spares the head returns and keeps the pools. -/
theorem alloc_good {K : Kalloc} {y : Pool} {t : PageType → List Ptr} {ty : PageType} {size : Nat}
    (h : Inv y t) (hl : y.Legal (.alloc size ty)) (hc : HeadSpared y (.alloc size ty)) :
    ∃ y' b, y.Step K (.alloc size ty) y' b ∧ SafeAfter y (.alloc size ty) y' b ∧
      ∃ t', Inv y' t' := by
  obtain ⟨hpos, hsize, hlt⟩ := hl
  have hpool := h.pool ty
  -- once a node is at hand and its pool is kept, the rest is the same in all cases
  have finish : ∀ {fuel ret : Nat} {prev x : Ptr} {s' : State} {t' : List Ptr},
      x ∈ y.s.heads ty :: t ty → size ≤ (y.s.node x).size →
      search y.s ty (fun p => size ≤ (y.s.node p).size) fuel = some ((prev, x), true) →
      take prev x size y.s = (ret, s') → PoolInv s' ty t' ((ret, size) :: y.out ty) →
      Frame y.s s' (y.s.heads ty :: t ty) (s'.heads ty :: t') →
      ∃ y' b, y.Step K (.alloc size ty) y' b ∧ SafeAfter y (.alloc size ty) y' b ∧
        ∃ t', Inv y' t' := by
    intro fuel ret prev x s' t' hx hfit hfuel htake hp hf
    obtain ⟨hret, hans⟩ := answer_of_out h hx hfit hp
    have hinv := inv_of_frame h hp hf
    exact ⟨_, ret, call_alloc hsize hfuel htake hret,
      ⟨fun ty' => ⟨_, (hinv.pool ty').ringOf⟩, hans⟩, _, hinv⟩
  rcases search_spec hpool.ring (fun p => size ≤ (y.s.node p).size) with
    ⟨t₁, x, t₂, ht, hx, fuel, hfuel⟩ | ⟨hbefore, hx, fuel, hfuel⟩ | ⟨hnone, fuel, r, hfuel⟩
  · have hfit : size ≤ (y.s.node x).size := of_decide_eq_true hx
    have hmem : x ∈ y.s.heads ty :: t ty := by rw [ht]; simp
    by_cases heq : (y.s.node x).size = size
    · rw [ht] at hpool
      obtain ⟨ret, s', htake, hp, hf⟩ := exact_spec hpool h.nodup heq
      rw [← ht] at hf
      exact finish hmem hfit hfuel htake hp hf
    · obtain ⟨ret, s', htake, hp, hf⟩ :=
        divide_spec hpool h.nodup hmem hsize (by omega) (t₁.getLastD (y.s.heads ty))
      exact finish hmem hfit hfuel htake hp hf
  · -- only the head is left, and it is not given away whole
    have hfit : size ≤ (y.s.node (y.s.heads ty)).size := of_decide_eq_true hx
    have hmem : y.s.heads ty ∈ y.s.heads ty :: t ty := List.mem_cons_self ..
    have hne : (y.s.node (y.s.heads ty)).size ≠ size := by
      intro heq
      obtain ⟨n, hn, hle⟩ := hc heq
      rcases List.mem_cons.mp (hpool.ring.iterate_mem n) with hhead | htail
      · exact hn hhead
      · exact absurd hle (of_decide_eq_false (hbefore _ htail))
    obtain ⟨ret, s', htake, hp, hf⟩ :=
      divide_spec hpool h.nodup hmem hsize (by omega) ((t ty).getLastD (y.s.heads ty))
    exact finish hmem hfit hfuel htake hp hf
  · refine ⟨y, invalidPage, ⟨fuel, ?_⟩, ⟨fun ty' => ⟨_, (h.pool ty').ringOf⟩, ?_, ?_⟩, t, h⟩
    · rw [Pool.call, allocPgs, align_paged hsize]
      simp only [hfuel, Option.map_some, if_pos]
    · intro t₀ ht₀
      refine ⟨fun _ p hp => ?_, fun _ => rfl⟩
      obtain ⟨n, rfl⟩ := ht₀.ring.exists_iterate hp
      have := of_decide_eq_false (hnone _ (hpool.ring.iterate_mem n))
      omega
    · exact fun hne => absurd rfl hne

/-- Giving back what was handed out returns and keeps the pools. -/
theorem free_good {K : Kalloc} {y : Pool} {t : PageType → List Ptr} {ty : PageType}
    {addr size : Nat} (h : Inv y t) (hl : (addr, size) ∈ y.out ty) :
    ∃ y' b, y.Step K (.free addr size ty) y' b ∧ SafeAfter y (.free addr size ty) y' b ∧
      ∃ t', Inv y' t' := by
  have hpool := h.pool ty
  have hsize : size % pageSize = 0 := (hpool.paged _ (List.mem_append_right _ hl)).size
  have finish : ∀ (fuel : Nat) {s' : State} {t' : List Ptr},
      freePgs K addr size ty y.s fuel = some s' →
      PoolInv s' ty t' ((y.out ty).erase (addr, size)) →
      Frame y.s s' (y.s.heads ty :: t ty) (s'.heads ty :: t') →
      ∃ y' b, y.Step K (.free addr size ty) y' b ∧ SafeAfter y (.free addr size ty) y' b ∧
        ∃ t', Inv y' t' := by
    intro fuel s' t' hfree hp hf
    have hinv := inv_of_frame h hp hf
    exact ⟨_, 0, ⟨fuel, by rw [Pool.call]; simp only [hfree, Option.map_some]⟩,
      ⟨fun ty' => ⟨_, (hinv.pool ty').ringOf⟩, trivial⟩, _, hinv⟩
  have hjoin : ∀ {fuel : Nat} {prev x : Ptr}, x ∈ y.s.heads ty :: t ty →
      decide (((y.s.node x).addr + (y.s.node x).size) % wordSize = addr ∨
        (addr + size) % wordSize = (y.s.node x).addr) = true →
      search y.s ty (fun p => ((y.s.node p).addr + (y.s.node p).size) % wordSize = addr ∨
        (addr + size) % wordSize = (y.s.node p).addr) fuel = some ((prev, x), true) →
      ∃ y' b, y.Step K (.free addr size ty) y' b ∧ SafeAfter y (.free addr size ty) y' b ∧
        ∃ t', Inv y' t' := by
    intro fuel prev x hx hit hfuel
    obtain ⟨hp, hf⟩ := join_spec hpool h.nodup hx hl (of_decide_eq_true hit)
    refine finish fuel ?_ hp hf
    rw [freePgs, floor_paged hsize]
    simp only [hfuel, Option.map_some]
  rcases search_spec hpool.ring (fun p => ((y.s.node p).addr + (y.s.node p).size) % wordSize =
      addr ∨ (addr + size) % wordSize = (y.s.node p).addr) with
    ⟨t₁, x, t₂, ht, hx, fuel, hfuel⟩ | ⟨_, hx, fuel, hfuel⟩ | ⟨_, fuel, r, hfuel⟩
  · exact hjoin (by rw [ht]; simp) hx hfuel
  · exact hjoin (List.mem_cons_self ..) hx hfuel
  · obtain ⟨hp, hf⟩ := insert_spec (K := K) hpool h.nodup hl
    refine finish fuel ?_ hp hf
    rw [freePgs, floor_paged hsize]
    simp only [hfuel, Option.map_some]

/-- More fuel changes no result of a call. -/
theorem call_fueled (K : Kalloc) : Fueled (Pool.call K) := by
  have hsearch : ∀ (s : State) (ty : PageType) (hit : Ptr → Bool) (n m : Nat)
      (r : (Ptr × Ptr) × Bool), n ≤ m → search s ty hit n = some r → search s ty hit m = some r :=
    fun s ty hit n m r hle h => iterate_mono h hle
  intro y a n m r hle h
  cases a with
  | alloc size ty =>
    rw [Pool.call, allocPgs, Option.map_map, Option.map_eq_some_iff] at h ⊢
    obtain ⟨found, hfound, hr⟩ := h
    exact ⟨found, hsearch _ _ _ n m _ hle hfound, hr⟩
  | free addr size ty =>
    rw [Pool.call, freePgs, Option.map_map, Option.map_eq_some_iff] at h ⊢
    obtain ⟨found, hfound, hr⟩ := h
    exact ⟨found, hsearch _ _ _ n m _ hle hfound, hr⟩

/-- Giving away the head leaves `heads[type]` at a node that is not in use. -/
theorem alloc_bad {K : Kalloc} {y y' : Pool} {t : PageType → List Ptr} {ty : PageType}
    {size b : Nat} (h : Inv y t) (hl : y.Legal (.alloc size ty))
    (hc : ¬ HeadSpared y (.alloc size ty)) (hstep : y.Step K (.alloc size ty) y' b) :
    ¬ SafeAfter y (.alloc size ty) y' b := by
  have hpool := h.pool ty
  obtain ⟨heq, hothers⟩ : (y.s.node (y.s.heads ty)).size = size ∧
      ∀ n, y.s.next^[n] (y.s.heads ty) ≠ y.s.heads ty →
        (y.s.node (y.s.next^[n] (y.s.heads ty))).size < size := by
    simp only [HeadSpared, Classical.not_imp, not_exists, not_and, Nat.not_le] at hc
    exact hc
  have hsmall : ∀ p ∈ t ty, (y.s.node p).size < size := by
    intro p hp
    obtain ⟨n, rfl⟩ := hpool.ring.exists_iterate (List.mem_cons_of_mem _ hp)
    refine hothers n ?_
    intro hhead
    exact (List.nodup_cons.mp hpool.ring.nodup).1 (hhead ▸ hp)
  rcases search_spec hpool.ring (fun p => size ≤ (y.s.node p).size) with
    ⟨t₁, x, t₂, ht, hx, _⟩ | ⟨_, _, fuel, hfuel⟩ | ⟨hnone, _⟩
  · have := hsmall x (by rw [ht]; simp)
    have := of_decide_eq_true hx
    omega
  · have hcall : y.call K (.alloc size ty) fuel = some
        (⟨(y.s.setNext ((t ty).getLastD (y.s.heads ty))
            (y.s.node (y.s.heads ty)).next).kfree (y.s.heads ty),
          if (y.s.node (y.s.heads ty)).addr = invalidPage then y.out
          else Function.update y.out ty (((y.s.node (y.s.heads ty)).addr, size) :: y.out ty)⟩,
        (y.s.node (y.s.heads ty)).addr) := by
      rw [Pool.call, allocPgs, align_paged hl.2.1]
      simp only [hfuel, Option.map_some, take, if_pos heq]
    obtain ⟨k, hk⟩ := hstep
    obtain ⟨rfl, rfl⟩ := Prod.mk.inj ((call_fueled K).unique hk hcall)
    rintro ⟨hrings, _⟩
    obtain ⟨t', ht'⟩ := hrings ty
    exact h.nodup.not_mem_erase (ht'.live _ (List.mem_cons_self ..))
  · have := of_decide_eq_false (hnone _ (List.mem_cons_self ..))
    omega

-- ---------------------------------------------------------------------------
-- Whole runs
-- ---------------------------------------------------------------------------

/-- The invariant holds of the pools at the start. -/
theorem Pool.Initial.inv {y : Pool} {t : PageType → List Ptr} (h : y.Initial t) : Inv y t := by
  refine ⟨fun ty => ⟨(h.rings ty).ring, (h.rings ty).live, ?_, ?_⟩, h.separate, h.nodup⟩
  · rw [h.out ty, List.append_nil]
    exact (h.rings ty).apart
  · rw [h.out ty, List.append_nil]
    intro r hr
    obtain ⟨p, hp, rfl⟩ := List.mem_map.mp hr
    exact h.paged ty p hp

/-- **Page pool safety**, over whole runs, exactly when no request takes the
whole range of a head. -/
theorem pool_safe_iff (K : Kalloc) (y : Pool) (t : PageType → List Ptr) (calls : List Call)
    (hinit : y.Initial t) (hl : Whenever (Pool.Step K) Pool.Legal y calls) :
    Along (Pool.Step K) SafeAfter y calls ↔ Whenever (Pool.Step K) HeadSpared y calls := by
  have hgood : ∀ y a, (∃ t, Inv y t) → y.Legal a → HeadSpared y a →
      ∃ y' b, y.Step K a y' b ∧ SafeAfter y a y' b ∧ ∃ t, Inv y' t := by
    rintro y a ⟨t, h⟩ hl hc
    cases a with
    | alloc size ty => exact alloc_good h hl hc
    | free addr size ty => exact free_good h hl
  have hbad : ∀ y a y' b, (∃ t, Inv y t) → y.Legal a → ¬ HeadSpared y a → y.Step K a y' b →
      ¬ SafeAfter y a y' b := by
    rintro y a y' b ⟨t, h⟩ hl hc hstep
    cases a with
    | alloc size ty => exact alloc_bad h hl hc hstep
    | free addr size ty => exact absurd trivial hc
  have hdet : ∀ y a y₁ b₁ y₂ b₂, Pool.Step K y a y₁ b₁ → Pool.Step K y a y₂ b₂ →
      y₁ = y₂ ∧ b₁ = b₂ := by
    rintro y a y₁ b₁ y₂ b₂ ⟨n, hn⟩ ⟨m, hm⟩
    exact Prod.mk.inj ((call_fueled K).unique hn hm)
  exact along_iff_whenever hgood hbad hdet ⟨t, hinit.inv⟩ hl

/-- One node for each pool: two physical pages, and four virtual ones. -/
def Pool.two : Pool where
  s :=
    { heads := fun
        | .PHYS_PAGES => 1
        | .VIRT_PAGES => 2
      node := fun p => if p = 1 then ⟨0x100000, 0x2000, 1⟩ else ⟨highHalfBot, 0x4000, p⟩
      live := [1, 2] }
  out := fun _ => []

/-- Two pages are such a start. -/
theorem Pool.two_initial : Pool.two.Initial fun _ => [] := by
  have hmem : ∀ ty, ∀ p ∈ Pool.two.s.heads ty :: [], p = Pool.two.s.heads ty :=
    fun ty p hp => List.mem_singleton.mp hp
  refine ⟨fun ty => ⟨isRing_single ?_, fun p hp => ?_, List.pairwise_singleton ..⟩,
    fun ty p hp => ?_, fun ty ty' hne p hp hp' => ?_, by decide, fun _ => rfl⟩
  · cases ty <;> rfl
  · rw [hmem ty p hp]
    cases ty <;> decide
  · rw [hmem ty p hp]
    cases ty <;> exact ⟨by decide, by decide, by decide, by decide⟩
  · have heq := (hmem ty p hp).symm.trans (hmem ty' p hp')
    cases ty <;> cases ty' <;> first | exact hne rfl | exact absurd heq (by decide)

/-- One of the two physical pages is taken and given back. -/
theorem pool_safe_half :
    Along (Pool.Step Kalloc.above) SafeAfter Pool.two
      [.alloc 0x1000 .PHYS_PAGES, .free 0x101000 0x1000 .PHYS_PAGES] := by
  refine (pool_safe_iff Kalloc.above Pool.two (fun _ => []) _ Pool.two_initial ?_).mpr ?_
  · exact whenever_of_checkRun ((call_fueled Kalloc.above).computes 3) (by decide)
  · have hne : (Pool.two.s.node (Pool.two.s.heads .PHYS_PAGES)).size ≠ 0x1000 := by decide
    exact ⟨fun heq => absurd heq hne, fun _ _ _ => ⟨trivial, fun _ _ _ => trivial⟩⟩

/-- Both physical pages are taken in one call, which frees the head: the next
call finds them there again. -/
theorem head_given_away :
    Whenever (Pool.Step Kalloc.above) Pool.Legal Pool.two
        [.alloc 0x2000 .PHYS_PAGES, .alloc 0x2000 .PHYS_PAGES] ∧
      ¬ Along (Pool.Step Kalloc.above) SafeAfter Pool.two
        [.alloc 0x2000 .PHYS_PAGES, .alloc 0x2000 .PHYS_PAGES] ∧
      Along (Pool.Step Kalloc.above) (fun _ _ _ b => b = 0x100000) Pool.two
        [.alloc 0x2000 .PHYS_PAGES, .alloc 0x2000 .PHYS_PAGES] := by
  refine ⟨whenever_of_checkRun ((call_fueled Kalloc.above).computes 3) (by decide), fun h => ?_,
    _, _, ⟨3, rfl⟩, rfl, _, _, ⟨3, rfl⟩, rfl, trivial⟩
  have hcheck := checkPost_of_along ((call_fueled Kalloc.above).computes 3)
    (q := fun _ _ y' _ => y'.s.heads .PHYS_PAGES ∈ y'.s.live) (fun y a y' b hsafe => ?_) h
  · exact absurd hcheck (by decide)
  · obtain ⟨t, ht⟩ := hsafe.1 .PHYS_PAGES
    exact decide_eq_true (ht.live _ (List.mem_cons_self ..))

end Frosk.Pages

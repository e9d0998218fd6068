import Mathlib.Tactic
import Frosk.Scheduler.Threads

/-!
# Scheduler: the invariant

The low half has two parts: below a cut the code of a process grows up from
`USPACE_BOT`, above it the stack of a thread grows down from `LOW_HALF_TOP`. Page
faults need the cut in the middle, images may need it higher up. `Inv` relates the
ring of threads, their regions and the page map: the regions of a thread fit their
parts, no two threads share a region or a frame, and what is
swapped in and present is what the current thread has.

A call that only adds things keeps the invariant (`Quiet`, `inv_quiet`).
-/

namespace Frosk.Scheduler

open Lib Regions

variable {E : Env} {I : Image}

/-- `LOW_HALF_TOP / 2`. -/
abbrev middle : Nat := lowHalfTop / 2

/-- A place that may separate code from stacks: it is not below the middle, and
leaves room for a new stack. -/
structure IsCut (cut : Nat) : Prop where
  paged : cut % pageSize = 0
  low   : middle ≤ cut
  high  : cut + 2 * pageSize ≤ lowHalfTop

/-- The middle is a cut. -/
theorem isCut_middle : IsCut middle := ⟨by decide, le_rfl, by decide⟩

theorem IsCut.below {cut : Nat} (h : IsCut cut) : cut < lowHalfTop := by
  have hhigh := h.high
  unfold pageSize at hhigh
  omega

theorem IsCut.word {cut : Nat} (h : IsCut cut) : cut < wordSize := h.below.trans (by decide)

theorem IsCut.above {cut : Nat} (h : IsCut cut) : uspaceBot ≤ cut := h.low.trans' (by decide)

/-- The region is one of the thread. -/
def Owns (s : State) (t r : Ptr) : Prop := r ≠ NULL ∧ (r = stackOf s t ∨ r = codeOf s t)

structure ThreadOk (cut : Nat) (s : State) (t : Ptr) : Prop where
  used   : t ∈ s.space.used
  parent : (s.thr t).parent ∈ s.space.used
  owned  : ∀ r, Owns s t r → r ∈ s.space.used ∧
    ∀ f ∈ (s.space.rgn r).frames, f ∈ s.space.frames
  some   : stackOf s t ≠ NULL
  differ : stackOf s t ≠ codeOf s t
  stack  : (s.space.rgn (stackOf s t)).growup = false ∧
    Fits cut lowHalfTop (s.space.rgn (stackOf s t))
  code   : codeOf s t ≠ NULL → (s.space.rgn (codeOf s t)).growup = true ∧
    Fits uspaceBot cut (s.space.rgn (codeOf s t))

/-- The pointers that are not `NULL`. -/
def live (l : List Ptr) : List Ptr := l.filter (· ≠ NULL)

/-- Two regions have no frame in common. -/
def FramesApart (r q : Region) : Prop := ∀ f ∈ r.frames, f ∉ q.frames

structure Inv (cut : Nat) (s : State) (l : List Ptr) : Prop where
  split   : IsCut cut
  ring    : OnRing s l
  each    : ∀ t ∈ l, ThreadOk cut s t
  apart   : ∀ t ∈ l, ∀ u ∈ l, t ≠ u → ∀ r q, Owns s t r → Owns s u q →
    r ≠ q ∧ FramesApart (s.space.rgn r) (s.space.rgn q)
  cur     : s.curThrd ≠ NULL → s.curThrd ∈ l
  swapped : s.space.swapped = live [stackOf s s.curThrd, codeOf s s.curThrd]
  high    : Shows cut lowHalfTop (s.space.blocks (stackOf s s.curThrd)) s.space.map
  low     : Shows uspaceBot cut (s.space.blocks (codeOf s s.curThrd)) s.space.map
  lock    : s.schedulerLock = .UNLOCKED
  refused : s.space.refused = 0

/-- A thread has its stack. -/
theorem stackOf_ne {s : State} {t : Ptr} (ht : t ≠ NULL) : stackOf s t = (s.thr t).stack :=
  if_neg ht

/-- A thread has the code of its process. -/
theorem codeOf_ne {s : State} {t : Ptr} (ht : t ≠ NULL) :
    codeOf s t = (s.proc (s.thr t).parent).code :=
  if_neg ht

/-- The live regions are those that are not null. -/
theorem mem_live {l : List Ptr} {r : Ptr} : r ∈ live l ↔ r ∈ l ∧ r ≠ NULL := by
  rw [live, List.mem_filter, decide_eq_true_iff]

theorem live_cons (r : Ptr) (l : List Ptr) :
    live (r :: l) = if r = NULL then live l else r :: live l := by
  rw [live, List.filter_cons]
  by_cases hr : r = NULL
  · rw [if_pos hr, if_neg (by simpa using hr), live]
  · rw [if_neg hr, if_pos (by simpa using hr), live]

theorem live_erase {r q : Ptr} (h : r ≠ NULL → r ≠ q) : (live [r, q]).erase q = live [r] := by
  have hnil : live [] = [] := rfl
  rw [live_cons, live_cons, live_cons, hnil]
  by_cases hr : r = NULL
  · rw [if_pos hr, if_pos hr]
    split
    · rfl
    · rw [List.erase_cons_head]
  · have hne : ¬ (r == q) = true := by
      simpa using h hr
    rw [if_neg hr, if_neg hr, List.erase_cons_tail hne]
    split
    · rfl
    · rw [List.erase_cons_head]

namespace Inv

variable {cut : Nat} {s : State} {l : List Ptr}

/-- No thread of the ring is null. -/
theorem nonnull (h : Inv cut s l) {t : Ptr} (ht : t ∈ l) : t ≠ NULL := by
  intro heq
  exact h.ring.null (heq ▸ ht)

/-- What is swapped in belongs to the current thread. -/
theorem owns_of_swapped (h : Inv cut s l) {r : Ptr} (hr : r ∈ s.space.swapped) :
    s.curThrd ∈ l ∧ Owns s s.curThrd r := by
  rw [h.swapped, mem_live] at hr
  have hcur : s.curThrd ≠ NULL := by
    intro heq
    rw [heq] at hr
    have hnull : stackOf s NULL = NULL ∧ codeOf s NULL = NULL := ⟨if_pos rfl, if_pos rfl⟩
    rw [hnull.1, hnull.2] at hr
    simp at hr
  refine ⟨h.cur hcur, hr.2, ?_⟩
  simpa using hr.1

/-- A region of a thread begins in the low half, and its blocks are whole. -/
theorem owned_spec (h : Inv cut s l) {t r : Ptr} (ht : t ∈ l) (hr : Owns s t r) :
    (s.space.rgn r).lower ≤ lowHalfTop ∧ ∀ b ∈ (s.space.rgn r).blocks, b.Whole := by
  obtain ⟨hne, rfl | rfl⟩ := hr
  · have hfits := ((h.each t ht).stack).2
    have hbounds := hfits.bounds (by decide)
    exact ⟨by omega, hfits.whole⟩
  · have hfits := ((h.each t ht).code hne).2
    have hbounds := hfits.bounds h.split.word
    have hcut := h.split.below
    refine ⟨?_, hfits.whole⟩
    omega

/-- The low half is laid out as the regions need it. -/
theorem lowSpace (h : Inv cut s l) : Low s.space := by
  intro y hy
  obtain ⟨hcur, howns⟩ := h.owns_of_swapped hy
  have hlow := (h.owned_spec hcur howns).1
  exact hlow.trans (by decide)

/-- What is swapped in is in use. -/
theorem swapped_used (h : Inv cut s l) {r : Ptr} (hr : r ∈ s.space.swapped) : r ∈ s.space.used := by
  obtain ⟨hcur, howns⟩ := h.owns_of_swapped hr
  exact ((h.each _ hcur).owned r howns).1

end Inv

-- ---------------------------------------------------------------------------
-- What only adds
-- ---------------------------------------------------------------------------

/-- Everything in use stays as it is, with the memory of its frames, and so does the
page map below the high half. -/
structure Quiet (s s' : State) : Prop where
  used    : ∀ x ∈ s.space.used, x ∈ s'.space.used
  thr     : ∀ t ∈ s.space.used, (s'.thr t).nextSched = (s.thr t).nextSched ∧
    (s'.thr t).stack = (s.thr t).stack ∧ (s'.thr t).parent = (s.thr t).parent
  rsp     : ∀ t ∈ s.space.used, (s'.thr t).rsp = (s.thr t).rsp
  code    : ∀ p ∈ s.space.used, (s'.proc p).code = (s.proc p).code
  rgn     : ∀ r ∈ s.space.used, s'.space.rgn r = s.space.rgn r
  frames  : ∀ f ∈ s.space.frames, f ∈ s'.space.frames
  mem     : ∀ f ∈ s.space.frames, f % pageSize = 0 → ∀ i < pageSize,
    s'.space.mem (f + i) = s.space.mem (f + i)
  low     : ∀ v < highHalfBot, s'.space.map v = s.space.map v
  swapped : s'.space.swapped = s.space.swapped
  head    : s'.headThrd = s.headThrd
  cur     : s'.curThrd = s.curThrd
  lock    : s'.schedulerLock = s.schedulerLock
  refused : s'.space.refused = s.space.refused

/-- Two quiet steps are one. -/
theorem Quiet.trans {s s' s'' : State} (h : Quiet s s') (h' : Quiet s' s'') : Quiet s s'' where
  used x hx := h'.used x (h.used x hx)
  thr t ht := by
    obtain ⟨hn, hs, hp⟩ := h.thr t ht
    obtain ⟨hn', hs', hp'⟩ := h'.thr t (h.used t ht)
    exact ⟨hn'.trans hn, hs'.trans hs, hp'.trans hp⟩
  rsp t ht := (h'.rsp t (h.used t ht)).trans (h.rsp t ht)
  code p hp := (h'.code p (h.used p hp)).trans (h.code p hp)
  rgn r hr := (h'.rgn r (h.used r hr)).trans (h.rgn r hr)
  frames f hf := h'.frames f (h.frames f hf)
  mem f hf hpaged i hi := (h'.mem f (h.frames f hf) hpaged i hi).trans (h.mem f hf hpaged i hi)
  low v hv := (h'.low v hv).trans (h.low v hv)
  swapped := h'.swapped.trans h.swapped
  head := h'.head.trans h.head
  cur := h'.cur.trans h.cur
  lock := h'.lock.trans h.lock
  refused := h'.refused.trans h.refused

/-- A thread whose own things stay is still in order. -/
theorem threadOk_congr {cut : Nat} {s s' : State} {t : Ptr} (h : ThreadOk cut s t)
    (hparent : (s'.thr t).parent = (s.thr t).parent) (hstack : stackOf s' t = stackOf s t)
    (hcode : codeOf s' t = codeOf s t)
    (hrgn : ∀ r, Owns s t r → s'.space.rgn r = s.space.rgn r)
    (hused : ∀ x ∈ s.space.used, x ∈ s'.space.used)
    (hframes : ∀ f ∈ s.space.frames, f ∈ s'.space.frames) : ThreadOk cut s' t := by
  have hs := hrgn (stackOf s t) ⟨h.some, .inl rfl⟩
  refine ⟨hused t h.used, ?_, ?_, ?_, ?_, ?_, ?_⟩
  · rw [hparent]
    exact hused _ h.parent
  · intro r hr
    have howns : Owns s t r := by
      rw [Owns, hstack, hcode] at hr
      exact hr
    obtain ⟨hmem, hown⟩ := h.owned r howns
    refine ⟨hused r hmem, fun f hf => hframes f (hown f ?_)⟩
    rw [hrgn r howns] at hf
    exact hf
  · rw [hstack]
    exact h.some
  · rw [hstack, hcode]
    exact h.differ
  · rw [hstack, hs]
    exact h.stack
  · intro hne
    rw [hcode] at hne ⊢
    rw [hrgn _ ⟨hne, .inr rfl⟩]
    exact h.code hne

section Quiet

variable {cut : Nat} {s s' : State} {l : List Ptr}

/-- A quiet step keeps the stack of each thread. -/
theorem quiet_stackOf (h : Inv cut s l) (hq : Quiet s s') {t : Ptr} (ht : t ∈ l) :
    stackOf s' t = stackOf s t := by
  rw [stackOf_ne (h.nonnull ht), stackOf_ne (h.nonnull ht)]
  exact (hq.thr t (h.each t ht).used).2.1

theorem quiet_codeOf (h : Inv cut s l) (hq : Quiet s s') {t : Ptr} (ht : t ∈ l) :
    codeOf s' t = codeOf s t := by
  rw [codeOf_ne (h.nonnull ht), codeOf_ne (h.nonnull ht), (hq.thr t (h.each t ht).used).2.2]
  exact hq.code _ (h.each t ht).parent

theorem quiet_owns (h : Inv cut s l) (hq : Quiet s s') {t r : Ptr} (ht : t ∈ l) :
    Owns s' t r ↔ Owns s t r := by
  rw [Owns, quiet_stackOf h hq ht, quiet_codeOf h hq ht, Owns]

/-- It keeps the stack and the code of the running thread. -/
theorem quiet_cur (h : Inv cut s l) (hq : Quiet s s') :
    stackOf s' s'.curThrd = stackOf s s.curThrd ∧ codeOf s' s'.curThrd = codeOf s s.curThrd := by
  rw [hq.cur]
  by_cases hcur : s.curThrd = NULL
  · rw [hcur]
    exact ⟨rfl, rfl⟩
  · exact ⟨quiet_stackOf h hq (h.cur hcur), quiet_codeOf h hq (h.cur hcur)⟩

/-- It keeps the blocks of the regions of that thread. -/
theorem quiet_blocks (h : Inv cut s l) (hq : Quiet s s') {r : Ptr}
    (hr : r = stackOf s s.curThrd ∨ r = codeOf s s.curThrd) :
    s'.space.blocks r = s.space.blocks r := by
  unfold Space.blocks
  by_cases hnull : r = NULL
  · rw [if_pos hnull, if_pos hnull]
  · rw [if_neg hnull, if_neg hnull, hq.rgn]
    have hcur : s.curThrd ≠ NULL := by
      intro heq
      rw [heq] at hr
      exact hnull (hr.elim id id)
    exact ((h.each _ (h.cur hcur)).owned r ⟨hnull, hr⟩).1

/-- What only adds keeps the invariant. -/
theorem inv_quiet (h : Inv cut s l) (hq : Quiet s s') : Inv cut s' l := by
  obtain ⟨hstack, hcode⟩ := quiet_cur h hq
  have hmap : ∀ v, v < lowHalfTop → s'.space.map v = s.space.map v :=
    fun v hv => hq.low v (hv.trans (by decide))
  refine ⟨h.split, ?_, fun t ht => ?_, fun t ht u hu hne r q hr hq' => ?_, fun hne => ?_, ?_, ?_, ?_,
    hq.lock.trans h.lock, hq.refused.trans h.refused⟩
  · exact onRing_congr h.ring hq.head fun t ht => (hq.thr t (h.each t ht).used).1
  · exact threadOk_congr (h.each t ht) (hq.thr t (h.each t ht).used).2.2
      (quiet_stackOf h hq ht) (quiet_codeOf h hq ht)
      (fun r hr => hq.rgn r ((h.each t ht).owned r hr).1) hq.used hq.frames
  · have hr := (quiet_owns h hq ht).mp hr
    have hq' := (quiet_owns h hq hu).mp hq'
    rw [hq.rgn r ((h.each t ht).owned r hr).1, hq.rgn q ((h.each u hu).owned q hq').1]
    exact h.apart t ht u hu hne r q hr hq'
  · rw [hq.cur] at hne ⊢
    exact h.cur hne
  · rw [hq.swapped, h.swapped, hstack, hcode]
  · rw [hstack, quiet_blocks h hq (.inl rfl)]
    exact shows_congr h.high fun v _ hv => hmap v hv
  · rw [hcode, quiet_blocks h hq (.inr rfl)]
    exact shows_congr h.low fun v _ hv => hmap v (hv.trans h.split.below)

end Quiet

-- ---------------------------------------------------------------------------
-- What a call leaves alone of a thread
-- ---------------------------------------------------------------------------

/-- Where the thread goes on, its regions and their memory are as before. -/
structure Untouched (s s' : State) (t : Ptr) : Prop where
  rsp   : (s'.thr t).rsp = (s.thr t).rsp
  stack : stackOf s' t = stackOf s t
  code  : codeOf s' t = codeOf s t
  rgn   : ∀ r, Owns s t r → s'.space.rgn r = s.space.rgn r
  mem   : ∀ r, Owns s t r → ∀ f ∈ (s.space.rgn r).frames, ∀ i < pageSize,
    s'.space.mem (f + i) = s.space.mem (f + i)

/-- What two steps leave untouched is untouched. -/
theorem Untouched.trans {s s' s'' : State} {t : Ptr} (h : Untouched s s' t)
    (h' : Untouched s' s'' t) : Untouched s s'' t := by
  have howns : ∀ r, Owns s t r → Owns s' t r := by
    intro r hr
    rw [Owns, h.stack, h.code]
    exact hr
  refine ⟨h'.rsp.trans h.rsp, h'.stack.trans h.stack, h'.code.trans h.code,
    fun r hr => (h'.rgn r (howns r hr)).trans (h.rgn r hr), fun r hr f hf i hi => ?_⟩
  have hf' : f ∈ (s'.space.rgn r).frames := by
    rw [h.rgn r hr]
    exact hf
  exact (h'.mem r (howns r hr) f hf' i hi).trans (h.mem r hr f hf i hi)

section Untouched

variable {cut : Nat} {s s' : State} {l : List Ptr} {t : Ptr}

/-- The frames of a thread are whole pages that were handed out. -/
theorem Inv.frame (h : Inv cut s l) (ht : t ∈ l) {r : Ptr} (hr : Owns s t r) {f : Nat}
    (hf : f ∈ (s.space.rgn r).frames) : f ∈ s.space.frames ∧ f % pageSize = 0 := by
  refine ⟨((h.each t ht).owned r hr).2 f hf, ?_⟩
  rw [Region.frames, List.mem_flatMap] at hf
  obtain ⟨b, hb, hf⟩ := hf
  obtain ⟨k, _, rfl⟩ := mem_pageRange.mp hf
  have hphys := ((h.owned_spec ht hr).2 b hb).phys
  unfold pageSize at *
  omega

/-- A quiet step touches no thread. -/
theorem untouched_quiet (h : Inv cut s l) (hq : Quiet s s') (ht : t ∈ l) : Untouched s s' t := by
  refine ⟨hq.rsp t (h.each t ht).used, quiet_stackOf h hq ht, quiet_codeOf h hq ht,
    fun r hr => hq.rgn r ((h.each t ht).owned r hr).1, fun r hr f hf i hi => ?_⟩
  obtain ⟨hused, hpaged⟩ := h.frame ht hr hf
  exact hq.mem f hused hpaged i hi

/-- Enlisting another thread touches none. -/
theorem untouched_enlisted {u : Ptr} (h : Enlisted s s' u l) : Untouched s s' t := by
  refine ⟨h.rsp t, h.stackOf_eq t, h.codeOf_eq t, ?_, ?_⟩
  · intro r _
    rw [h.space]
  · intro r _ f _ i _
    rw [h.space]

end Untouched

end Frosk.Scheduler

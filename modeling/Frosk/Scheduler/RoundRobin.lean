import Mathlib.Tactic
import Frosk.Lib.Rotation
import Frosk.Regions.Overlap
import Frosk.Scheduler.Isolation

/-!
# Scheduler: round robin

Runs of `schedule` and `yield`, in any order and whatever the regions are. The
threads wait in an order: that of the ring from `head_thrd` on, with the current
thread last. A new thread comes in as the first or second of them, and `yield`
dispatches the first and makes it the last, so that the run is one of a rotating
queue and its threads take turns.

The ring itself is not in this order: when only the current thread is on it, a new
one comes behind the current one, which is then the head.

Main result: `round_robin`.
-/

namespace Frosk.Scheduler

open Lib Regions

inductive Call where
  | schedule (par start : Nat) (extv : List Nat) (kthrd : Bool)
  | yield (rsp : Nat)

/-- One call, with a bound on the search of `yield`, and the turn it is: a thread is
dispatched when `yield` leaves another current thread. -/
def perform (E : Env) (I : Image) (n : Nat) (s : State) : Call → Except Fault (State × Turn Ptr)
  | .schedule par start extv kthrd =>
    (Scheduler.schedule E I par start extv kthrd s).map fun x => (x.1, .joined x.2)
  | .yield rsp => (Scheduler.yield n rsp s).map fun s' =>
    (s', if s'.curThrd = s.curThrd then .idle else .served s'.curThrd)

/-- A call that returns. -/
def Happens (E : Env) (I : Image) (s : State) (e : Turn Ptr) (s' : State) : Prop :=
  ∃ n a, perform E I n s a = .ok (s', e)

/-- The order in which the threads of the ring wait. -/
def order (cur : Ptr) (l : List Ptr) : List Ptr := l.filter (· ≠ cur) ++ l.filter (· = cur)

/-- The current thread is at an end of the ring, and the others are ready. -/
structure InTurn (s : State) (l : List Ptr) : Prop where
  ring  : OnRing s l
  used  : ∀ t ∈ l, t ∈ s.space.used
  lock  : s.schedulerLock = .UNLOCKED
  place : s.curThrd = NULL ∨ ∃ r, l = r ++ [s.curThrd] ∨ l = s.curThrd :: r
  state : ∀ t ∈ l, (s.thr t).state = if t = s.curThrd then .RUNNING else .READY

-- ---------------------------------------------------------------------------
-- The order
-- ---------------------------------------------------------------------------

section Order

variable {c t : Ptr} {l : List Ptr}

/-- Nothing is filtered out when it is not there. -/
theorem filter_ne_self (h : c ∉ l) : l.filter (· ≠ c) = l := by
  rw [List.filter_eq_self]
  intro x hx
  rw [decide_eq_true_iff]
  rintro rfl
  exact h hx

theorem filter_eq_nil (h : c ∉ l) : l.filter (· = c) = [] := by
  rw [List.filter_eq_nil_iff]
  intro x hx hxc
  rw [decide_eq_true_iff] at hxc
  exact h (hxc ▸ hx)

/-- The last one is not among the others. -/
theorem not_mem_of_nodup_last (h : (l ++ [c]).Nodup) : c ∉ l :=
  fun hmem => List.disjoint_of_nodup_append h hmem (by simp)

/-- The order has the same threads. -/
theorem mem_order {x : Ptr} : x ∈ order c l ↔ x ∈ l := by
  rw [order, List.mem_append, List.mem_filter, List.mem_filter]
  by_cases hx : x = c <;> simp [hx]

/-- When nobody runs the order is the list itself. -/
theorem order_of_not_mem (h : c ∉ l) : order c l = l := by
  rw [order, filter_ne_self h, filter_eq_nil h, List.append_nil]

/-- It is the list as well when the last thread runs. -/
theorem order_last (h : c ∉ l) : order c (l ++ [c]) = l ++ [c] := by
  rw [order, List.filter_append, List.filter_append, filter_ne_self h, filter_eq_nil h]
  simp

/-- When the first thread runs it is moved to the end. -/
theorem order_first (h : c ∉ l) : order c (c :: l) = l ++ [c] := by
  rw [order, List.filter_cons_of_neg (by simp), List.filter_cons_of_pos (by simp),
    filter_ne_self h, filter_eq_nil h]

/-- One thread more in front. -/
theorem order_cons (h : t ≠ c) : order c (t :: l) = t :: order c l := by
  rw [order, List.filter_cons_of_pos (by simpa using h), List.filter_cons_of_neg (by simpa using h)]
  rfl

/-- A new thread waits as the first or the second. -/
theorem order_insertSecond (ht : t ∉ l) (hne : t ≠ c) :
    Rotates (order c l) (.joined t) (order c (insertSecond t l)) := by
  have hnot : t ∉ order c l := fun hmem => ht (mem_order.mp hmem)
  have hsplit : ∃ a b, order c l = a ++ b ∧ order c (insertSecond t l) = a ++ t :: b := by
    cases l with
    | nil => exact ⟨[], [], rfl, order_cons hne⟩
    | cons x l =>
      rw [insertSecond]
      by_cases hx : x = c
      · refine ⟨[], order c (x :: l), rfl, ?_⟩
        simp [order, hx, hne]
      · refine ⟨[x], order c l, order_cons hx, ?_⟩
        rw [order_cons hx, order_cons hne, List.singleton_append]
  obtain ⟨a, b, hold, hnew⟩ := hsplit
  rw [hold] at hnot
  rw [hold, hnew]
  exact .joined hnot

end Order

-- ---------------------------------------------------------------------------
-- What is in use
-- ---------------------------------------------------------------------------

section Used

variable {E : Env} {I : Image} {s s' : Space} {r : Ptr} {b : Bool}

/-- Mapping a block allocates nothing. -/
theorem pageBlock_used {entry : Block → Nat → Nat} {b : Block} {l : List Ptr} (hs : s.used = l)
    (h : pageBlock entry b s = .ok s') : s'.used = l := by
  refine foldlM_keeps (P := fun s => s.used = l) ?_ hs h
  intro u off u' hu hok
  rw [pageto] at hok
  split at hok
  · cases hok
  · rw [← Except.ok.inj hok]
    exact hu

theorem swapin_used {flags : Nat} (h : swapin r flags s = .ok (s', b)) : s'.used = s.used := by
  rw [swapin] at h
  split at h
  · rw [← (Prod.mk.inj (Except.ok.inj h)).1]
  · obtain ⟨s₁, hmap, hok⟩ := bind_eq_ok.mp h
    rw [← (Prod.mk.inj (Except.ok.inj hok)).1]
    refine foldlM_keeps (P := fun t => t.used = s.used) ?_ rfl hmap
    intro t b t' ht hok
    exact pageBlock_used ht hok

/-- `swapout`. -/
theorem swapout_used (h : swapout r s = .ok s') : s'.used = s.used := by
  obtain ⟨s₁, hmap, hok⟩ := bind_eq_ok.mp h
  have hkept : s₁.used = s.used := by
    refine foldlM_keeps (P := fun t => t.used = s.used) ?_ rfl hmap
    intro t b t' ht hok
    split at hok
    · cases hok
    · exact pageBlock_used ht hok
  split at hok
  · rw [← Except.ok.inj hok]
    exact hkept
  · cases hok

/-- `swapflop`. -/
theorem swapflop_used {old new : Ptr} {flags : Nat} (h : swapflop old new flags s = .ok (s', b)) :
    s'.used = s.used := by
  obtain ⟨s₁, hout, hin⟩ := bind_eq_ok.mp h
  have hkept : s₁.used = s.used := by
    split at hout
    · exact swapout_used hout
    · rw [Except.ok.inj hout]
  rw [← hkept]
  split at hin
  · exact swapin_used hin
  · rw [(Prod.mk.inj (Except.ok.inj hin)).1]

theorem storeBytes_used {bytes : List UInt8} {a : Nat} (h : storeBytes a bytes s = .ok s') :
    s'.used = s.used := by
  induction bytes generalizing a s with
  | nil => rw [Except.ok.inj h]
  | cons x bytes ih =>
    obtain ⟨s₁, hbyte, hrest⟩ := bind_eq_ok.mp h
    rw [ih hrest]
    simp only [storeByte] at hbyte
    split at hbyte
    · rw [← Except.ok.inj hbyte]
    · cases hbyte

/-- `loadStack` frees nothing. -/
theorem loadStack_used {start : Nat} {extv : List Nat} {kthrd : Bool}
    (h : loadStack E I start extv kthrd s = .ok (s', r)) : ∀ x ∈ s.used, x ∈ s'.used := by
  obtain ⟨⟨s₁, tvirt⟩, hvirt, h⟩ := bind_eq_ok.mp h
  obtain ⟨⟨s₂, stack⟩, halloc, h⟩ := bind_eq_ok.mp h
  obtain ⟨⟨s₃, _⟩, hin, h⟩ := bind_eq_ok.mp h
  obtain ⟨s₄, hstore, h⟩ := bind_eq_ok.mp h
  obtain ⟨s₅, hout, h⟩ := bind_eq_ok.mp h
  have h₁ : s₁.used = s.used := by
    rw [allocVirt] at hvirt
    split at hvirt
    · cases hvirt
    · rw [← (Prod.mk.inj (Except.ok.inj hvirt)).1]
  have h₂ : ∀ x ∈ s₁.used, x ∈ s₂.used := by
    have hsize : align (2 * pageSize) pageSize = 2 * pageSize := rfl
    have hspec := allocate_spec (E := E) hsize (by decide) ((tvirt + 2 * pageSize) % wordSize)
      false s₁
    rw [halloc] at hspec
    obtain ⟨_, phys, bs, _, rfl⟩ := hspec
    exact fun x hx => List.mem_cons_of_mem _ hx
  have hend : s'.used = s₂.used := by
    rw [← (Prod.mk.inj (Except.ok.inj h)).1]
    show s₅.used = s₂.used
    rw [swapout_used hout, storeBytes_used hstore, swapin_used hin]
  intro x hx
  rw [hend]
  rw [← h₁] at hx
  exact h₂ x hx

end Used

-- ---------------------------------------------------------------------------
-- The calls
-- ---------------------------------------------------------------------------

section Calls

variable {E : Env} {I : Image} {s s' : State} {l : List Ptr} {t : Ptr}

/-- The running thread is on the ring. -/
theorem InTurn.cur (h : InTurn s l) : s.curThrd = NULL ∨ s.curThrd ∈ l := by
  rcases h.place with hnull | ⟨r, heq | heq⟩
  · exact .inl hnull
  · exact .inr (heq ▸ by simp)
  · exact .inr (heq ▸ by simp)

/-- A new thread is put in behind the head of the ring. -/
theorem schedule_inTurn (h : InTurn s l) {par start : Nat} {extv : List Nat} {kthrd : Bool}
    (hcall : schedule E I par start extv kthrd s = .ok (s', t)) :
    InTurn s' (insertSecond t l) ∧ s'.curThrd = s.curThrd ∧ t ∉ l ∧ t ≠ s.curThrd := by
  rw [schedule_eq] at hcall
  obtain ⟨⟨space, stack⟩, hload, hcall⟩ := bind_eq_ok.mp hcall
  obtain ⟨s₁, henlist, hcall⟩ := bind_eq_ok.mp hcall
  obtain ⟨rfl, rfl⟩ := Prod.mk.inj (Except.ok.inj hcall)
  have hused := loadStack_used hload
  have hfresh : E.kalloc.pick s.space.used ∉ s.space.used := E.kalloc.fresh _
  have hnull : E.kalloc.pick s.space.used ≠ NULL := E.kalloc.ne_null _
  change enlist par (E.kalloc.pick s.space.used) _ = _ at henlist
  change InTurn s₁ (insertSecond (E.kalloc.pick s.space.used) l) ∧ _ ∧
    E.kalloc.pick s.space.used ∉ l ∧ E.kalloc.pick s.space.used ≠ s.curThrd
  have hmine : E.kalloc.pick s.space.used ∈ space.used := hused _ List.mem_cons_self
  generalize E.kalloc.pick s.space.used = t at *
  have ht : t ∉ l := fun hmem => hfresh (h.used t hmem)
  have hcur : t ≠ s.curThrd := by
    rintro rfl
    exact h.cur.elim hnull ht
  have hsame : ∀ u, u ≠ t →
      (({ s with space := space }.modifyThr t (newThread par stack extv.length kthrd)).thr u) =
        s.thr u := fun u hu => Function.update_of_ne hu ..
  have hring : OnRing ({ s with space := space }.modifyThr t
      (newThread par stack extv.length kthrd)) l := by
    refine onRing_congr h.ring rfl ?_
    intro u hu
    have hne : u ≠ t := fun heq => ht (heq ▸ hu)
    rw [State.next, hsame u hne, State.next]
  obtain ⟨s₂, henlist', he⟩ := enlist_spec par hring ht hnull h.lock
  obtain rfl := Except.ok.inj (henlist.symm.trans henlist')
  have hcurrent : s₁.curThrd = s.curThrd := he.cur
  refine ⟨⟨he.ring, ?_, he.lock, ?_, ?_⟩, hcurrent, ht, hcur⟩
  · intro u hu
    rw [he.space]
    rcases mem_insertSecond.mp hu with rfl | hu
    · exact hmine
    · exact hused u (List.mem_cons_of_mem _ (h.used u hu))
  · rw [hcurrent]
    rcases h.place with hnull | ⟨r, rfl | rfl⟩
    · exact .inl hnull
    · right
      cases r with
      | nil => exact ⟨[t], .inr rfl⟩
      | cons x r => exact ⟨x :: t :: r, .inl rfl⟩
    · exact .inr ⟨t :: r, .inr rfl⟩
  · intro u hu
    rw [hcurrent]
    by_cases hut : u = t
    · rw [hut, he.ready, if_neg hcur]
    · rw [he.state u hut, hsame u hut]
      exact h.state u ((mem_insertSecond.mp hu).resolve_left hut)

/-- The switch does what it does to the threads, whatever the regions are. -/
theorem switchTo_switched {rsp : Nat} (ht : t ≠ NULL) (hcall : switchTo rsp t s = .ok s') :
    Switched s s' rsp t ∧ s'.space.used = s.space.used := by
  rw [switchTo_eq ht] at hcall
  obtain ⟨⟨space₁, _⟩, hcode, hcall⟩ := bind_eq_ok.mp hcall
  obtain ⟨⟨space₂, _⟩, hstack, hcall⟩ := bind_eq_ok.mp hcall
  rw [← Except.ok.inj hcall]
  exact ⟨switched_spec rsp t space₂, (swapflop_used hstack).trans (swapflop_used hcode)⟩

/-- In front of the thread that `yield` finds is at most the current one. -/
theorem InTurn.before {l₁ l₂ : List Ptr} (h : InTurn s (l₁ ++ t :: l₂)) (hne : t ≠ s.curThrd)
    (hbefore : ∀ u ∈ l₁, ¬ Ready s u = true) :
    order s.curThrd (l₁ ++ t :: l₂) = t :: (l₂ ++ l₁) := by
  have hnodup := h.ring.nodup
  have hall : ∀ u ∈ l₁, u = s.curThrd := by
    intro u hu
    by_contra hcur
    refine hbefore u hu ?_
    rw [Ready, decide_eq_true_iff, h.state u (List.mem_append_left _ hu), if_neg hcur]
    exact ⟨rfl, hcur⟩
  cases l₁ with
  | nil =>
    rw [List.nil_append, order_cons hne, List.append_nil]
    refine congrArg (t :: ·) ?_
    rcases h.place with hnull | ⟨r, heq | heq⟩
    · refine order_of_not_mem fun hmem => h.ring.null ?_
      rw [← hnull]
      simp [hmem]
    · cases r with
      | nil => exact absurd (List.cons.inj heq).1 hne
      | cons x r =>
        obtain ⟨rfl, hl₂⟩ := List.cons.inj heq
        rw [hl₂] at hnodup ⊢
        exact order_last (not_mem_of_nodup_last (List.nodup_cons.mp hnodup).2)
    · exact absurd (List.cons.inj heq).1 hne
  | cons x l₁ =>
    obtain rfl := hall x List.mem_cons_self
    have hnil : l₁ = [] := by
      refine List.eq_nil_iff_forall_not_mem.mpr ?_
      intro u hu
      obtain rfl := hall u (List.mem_cons_of_mem _ hu)
      simp [hu] at hnodup
    rw [hnil] at hnodup ⊢
    have hnot : s.curThrd ∉ t :: l₂ := (List.nodup_cons.mp hnodup).1
    exact order_first hnot

/-- A switch moves the ring on to its thread. -/
theorem switchTo_inTurn {l₁ l₂ : List Ptr} (h : InTurn s (l₁ ++ t :: l₂)) (hne : t ≠ s.curThrd)
    {rsp : Nat} (hcall : switchTo rsp t s = .ok s') :
    InTurn s' (l₂ ++ (l₁ ++ [t])) ∧ s'.curThrd = t := by
  have hnull : NULL ∉ l₁ ++ t :: l₂ := h.ring.null
  have ht : t ≠ NULL := fun heq => hnull (by simp [heq])
  obtain ⟨hsw, hused⟩ := switchTo_switched ht hcall
  have hmem : ∀ u, u ∈ l₂ ++ (l₁ ++ [t]) → u ∈ l₁ ++ t :: l₂ := by
    intro u hu
    simp only [List.mem_append, List.mem_cons] at hu ⊢
    tauto
  refine ⟨⟨onRing_rotate h.ring hsw.head hsw.next, fun u hu => ?_, hsw.lock.trans h.lock, ?_,
    fun u hu => ?_⟩, hsw.cur⟩
  · rw [hused]
    exact h.used u (hmem u hu)
  · refine .inr ⟨l₂ ++ l₁, .inl ?_⟩
    rw [hsw.cur, List.append_assoc]
  · rw [hsw.cur, hsw.state, h.state u (hmem u hu)]
    by_cases hcur : u = s.curThrd
    · have hlive : s.curThrd ≠ NULL := fun heq => hnull (heq ▸ hcur ▸ hmem u hu)
      have hut : u ≠ t := fun heq => hne (heq.symm.trans hcur)
      rw [if_pos ⟨hcur, hlive⟩, if_neg hut]
    · rw [if_neg (fun hand => hcur hand.1), if_neg hcur]

/-- A call is a turn of the queue in which the threads wait. -/
theorem happens_rotates {e : Turn Ptr} (h : InTurn s l) (hstep : Happens E I s e s') :
    ∃ l', InTurn s' l' ∧ Rotates (order s.curThrd l) e (order s'.curThrd l') ∧
      ((s.curThrd ≠ NULL ∨ ∃ t, e = .served t) → s'.curThrd ≠ NULL) := by
  obtain ⟨n, a, hcall⟩ := hstep
  cases a with
  | schedule par start extv kthrd =>
    rw [perform] at hcall
    cases hsched : schedule E I par start extv kthrd s with
    | error f =>
      rw [hsched] at hcall
      cases hcall
    | ok x =>
      rw [hsched] at hcall
      obtain ⟨rfl, rfl⟩ := Prod.mk.inj (Except.ok.inj hcall)
      obtain ⟨hturn, hcur, hnot, hne⟩ := schedule_inTurn h hsched
      refine ⟨_, hturn, ?_, ?_⟩
      · rw [hcur]
        exact order_insertSecond hnot hne
      · intro hor
        rw [hcur]
        exact hor.resolve_right (by simp)
  | yield rsp =>
    rw [perform] at hcall
    cases hyield : yield n rsp s with
    | error f =>
      rw [hyield] at hcall
      cases hcall
    | ok s₁ =>
      rw [hyield] at hcall
      obtain ⟨rfl, rfl⟩ := Prod.mk.inj (Except.ok.inj hcall)
      have hdone : yielded rsp l s = .ok s₁ := by
        rcases (yield_spec h.ring h.lock rsp).2 n with heq | heq
        · exact heq.symm.trans hyield
        · rw [heq] at hyield
          cases hyield
      rw [yielded] at hdone
      cases hfind : l.find? (Ready s) with
      | none =>
        rw [hfind] at hdone
        obtain rfl := Except.ok.inj hdone
        rw [if_pos rfl]
        exact ⟨l, h, .idle, fun hor => hor.resolve_right (by simp)⟩
      | some t =>
        rw [hfind] at hdone
        obtain ⟨hready, l₁, l₂, rfl, hbefore⟩ := List.find?_eq_some_iff_append.mp hfind
        have hne : t ≠ s.curThrd := (of_decide_eq_true hready).2
        obtain ⟨hturn, hcur⟩ := switchTo_inTurn h hne hdone
        refine ⟨_, hturn, ?_, ?_⟩
        · have hnodup := hturn.ring.nodup
          rw [← List.append_assoc] at hnodup ⊢
          rw [hcur, if_neg hne, h.before hne (by simpa using hbefore),
            order_last (not_mem_of_nodup_last hnodup)]
          exact .served
        · intro _ heq
          rw [hcur] at heq
          exact h.ring.null (by simp [heq])

/-- Nothing is scheduled. -/
structure Unscheduled (s : State) : Prop where
  head : s.headThrd = NULL
  cur  : s.curThrd = NULL
  lock : s.schedulerLock = .UNLOCKED

/-- At the start the ring is empty. -/
theorem Unscheduled.inTurn (h : Unscheduled s) : InTurn s [] :=
  ⟨⟨h.head, fun hne => absurd rfl hne, by simp⟩, by simp, h.lock, .inl h.cur, by simp⟩

/-- A run of calls is a run of the queue. -/
theorem trace_rotates {es : List (Turn Ptr)} (htrace : Trace (Happens E I) s es s')
    (h : InTurn s l) :
    ∃ l', InTurn s' l' ∧ Trace Rotates (order s.curThrd l) es (order s'.curThrd l') := by
  have hstep : ∀ s e s' p, (∃ l, InTurn s l ∧ p = order s.curThrd l) → Happens E I s e s' →
      ∃ p', Rotates p e p' ∧ ∃ l, InTurn s' l ∧ p' = order s'.curThrd l := by
    rintro s e s' p ⟨l, hturn, rfl⟩ hhappens
    obtain ⟨l', hturn', hrotates, _⟩ := happens_rotates hturn hhappens
    exact ⟨_, hrotates, l', hturn', rfl⟩
  obtain ⟨p', hrotates, l', hturn, rfl⟩ := trace_simulates Rotates _ hstep htrace ⟨l, h, rfl⟩
  exact ⟨l', hturn, hrotates⟩

/-- From the first dispatch on there is a current thread. -/
theorem trace_current {es : List (Turn Ptr)} (htrace : Trace (Happens E I) s es s')
    (h : InTurn s l) (hor : s.curThrd ≠ NULL ∨ ∃ t, .served t ∈ es) : s'.curThrd ≠ NULL := by
  induction htrace generalizing l with
  | nil s => exact hor.resolve_right (by simp)
  | @cons s e s₁ es s' hstep _ ih =>
    obtain ⟨l₁, hturn, _, hcur⟩ := happens_rotates h hstep
    refine ih hturn ?_
    rcases hor with hlive | ⟨t, ht⟩
    · exact .inl (hcur (.inl hlive))
    · rcases List.mem_cons.mp ht with rfl | ht
      · exact .inl (hcur (.inr ⟨t, rfl⟩))
      · exact .inr ⟨t, ht⟩

/-- Over every run of calls of `schedule` and `yield` from an empty ring: the ring
holds every scheduled thread once; from the first dispatch on the current thread is
the one that runs, and the others are ready; and between two dispatches of a thread
every other one that was scheduled before is dispatched once. -/
theorem round_robin (hboot : Unscheduled s) {es : List (Turn Ptr)}
    (htrace : Trace (Happens E I) s es s') :
    (∃ l, OnRing s' l ∧ l.Nodup ∧ l.Perm (joiners es)) ∧
    ((∃ t, .served t ∈ es) → s'.curThrd ∈ joiners es ∧
      ∀ t ∈ joiners es, (s'.thr t).state = if t = s'.curThrd then .RUNNING else .READY) ∧
    ∀ pre mid post t u, es = pre ++ .served t :: (mid ++ .served t :: post) → .served t ∉ mid →
      u ∈ joiners pre → u ≠ t → mid.count (.served u) = 1 := by
  obtain ⟨l, hturn, hrotates⟩ := trace_rotates htrace hboot.inTurn
  have hempty : order s.curThrd [] = [] := rfl
  rw [hempty] at hrotates
  have hperm : l.Perm (joiners es) := by
    have hsame : (order s'.curThrd l).Perm l := by
      simpa [order] using List.filter_append_perm (· ≠ s'.curThrd) l
    have hall := rotations_perm hrotates
    rw [List.append_nil] at hall
    exact hsame.symm.trans hall
  refine ⟨⟨l, hturn.ring, hturn.ring.nodup, hperm⟩, ?_, ?_⟩
  · intro hserved
    have hlive := trace_current htrace hboot.inTurn (.inr hserved)
    refine ⟨hperm.mem_iff.mp (hturn.cur.resolve_left hlive), ?_⟩
    intro t ht
    exact hturn.state t (hperm.mem_iff.mpr ht)
  · intro pre mid post t u hes hmid hu hne
    refine fair hrotates List.nodup_nil hes hmid ?_ hne
    rw [List.append_nil]
    exact hu

end Calls

/-- A run of calls, with a bound on each search. -/
def performs (E : Env) (I : Image) (n : Nat) : State → List Call → Except Fault (State × List (Turn Ptr))
  | s, [] => .ok (s, [])
  | s, a :: as => do
    let (s, e) ← perform E I n s a
    let (s, es) ← performs E I n s as
    .ok (s, e :: es)

/-- A run that is performed is a trace. -/
theorem trace_of_performs {E : Env} {I : Image} {n : Nat} {as : List Call} {s s' : State}
    {es : List (Turn Ptr)} (h : performs E I n s as = .ok (s', es)) :
    Trace (Happens E I) s es s' := by
  induction as generalizing s es with
  | nil =>
    obtain ⟨rfl, rfl⟩ := Prod.mk.inj (Except.ok.inj h)
    exact .nil _
  | cons a as ih =>
    obtain ⟨⟨s₁, e⟩, hcall, h⟩ := bind_eq_ok.mp h
    obtain ⟨⟨s₂, es₁⟩, hrest, h⟩ := bind_eq_ok.mp h
    obtain ⟨rfl, rfl⟩ := Prod.mk.inj (Except.ok.inj h)
    exact .cons ⟨n, a, hcall⟩ (ih hrest)

/-- A thread that starts alone is joined by two others, of which the later one is
dispatched first. -/
theorem round_robin_of_three :
    ∃ s', Trace (Happens smallEnv smallImage) bootState
      [.joined 1, .served 1, .idle, .joined 3, .joined 5, .served 5, .served 3, .served 1] s' ∧
    (∃ l, OnRing s' l ∧ l.Nodup ∧ l.Perm [1, 3, 5]) ∧
    (s'.curThrd ∈ [1, 3, 5] ∧
      ∀ t ∈ [1, 3, 5], (s'.thr t).state = if t = s'.curThrd then .RUNNING else .READY) := by
  have hrun : (performs smallEnv smallImage 10 bootState
      [.schedule 0 0x1000 [] true, .yield 0, .yield 0, .schedule 0 0x2000 [] true,
        .schedule 0 0x3000 [] true, .yield 0, .yield 0, .yield 0]).toOption.map Prod.snd =
      some [.joined 1, .served 1, .idle, .joined 3, .joined 5, .served 5, .served 3, .served 1] := by
    decide +kernel
  cases hperforms : performs smallEnv smallImage 10 bootState
      [.schedule 0 0x1000 [] true, .yield 0, .yield 0, .schedule 0 0x2000 [] true,
        .schedule 0 0x3000 [] true, .yield 0, .yield 0, .yield 0] with
  | error f =>
    rw [hperforms] at hrun
    cases hrun
  | ok x =>
    rw [hperforms] at hrun
    have hes := Option.some.inj hrun
    have htrace : Trace (Happens smallEnv smallImage) bootState x.2 x.1 :=
      trace_of_performs hperforms
    rw [hes] at htrace
    obtain ⟨hring, hstate, _⟩ := round_robin ⟨rfl, rfl, rfl⟩ htrace
    exact ⟨x.1, htrace, hring, hstate ⟨1, by simp⟩⟩

end Frosk.Scheduler

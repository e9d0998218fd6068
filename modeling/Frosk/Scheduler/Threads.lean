import Mathlib.Tactic
import Frosk.Scheduler.Spawn

/-!
# Scheduler: the ring of threads

`OnRing s l` says that the threads on the ring are those of `l`, in this order
from `head_thrd` on. A new thread comes second (`enlist_spec`), `yield` looks
for the first one of the list that is ready and not the current one
(`searchThread_spec`), and the dispatch of a thread moves what is up to it to the
end (`onRing_rotate`).
-/

namespace Frosk.Scheduler

open Lib Regions

variable {E : Env} {I : Image}

def State.next (s : State) (t : Ptr) : Ptr := (s.thr t).nextSched

/-- The threads on the ring, in order. -/
structure OnRing (s : State) (l : List Ptr) : Prop where
  head : s.headThrd = l.headD NULL
  ring : l ≠ [] → Ring s.next l
  null : NULL ∉ l

/-- No thread is on the ring twice. -/
theorem OnRing.nodup {s : State} {l : List Ptr} (h : OnRing s l) : l.Nodup := by
  cases l with
  | nil => exact List.nodup_nil
  | cons x l => exact (h.ring (by simp)).nodup

/-- The order does not depend on anything but the head and the links. -/
theorem onRing_congr {s s' : State} {l : List Ptr} (h : OnRing s l)
    (hhead : s'.headThrd = s.headThrd) (hnext : ∀ t ∈ l, s'.next t = s.next t) :
    OnRing s' l :=
  ⟨hhead.trans h.head, fun hne => ring_congr (h.ring hne) hnext, h.null⟩

/-- The ring from the thread behind `t` on. -/
theorem onRing_rotate {s s' : State} {l l' : List Ptr} {t : Ptr} (h : OnRing s (l ++ t :: l'))
    (hhead : s'.headThrd = s.next t) (hnext : ∀ u, s'.next u = s.next u) :
    OnRing s' (l' ++ (l ++ [t])) := by
  have hring := h.ring (by simp)
  have hrot : Ring s.next (l' ++ (l ++ [t])) := by
    refine ring_append_comm ?_
    rw [List.append_assoc]
    exact hring
  refine ⟨?_, fun _ => ring_congr hrot fun u _ => hnext u, ?_⟩
  · rw [hhead, hring.next_eq, List.append_assoc]
    cases l' with
    | nil => cases l <;> rfl
    | cons x l' => rfl
  · have hnull := h.null
    simp only [List.mem_append, List.mem_cons] at hnull ⊢
    tauto

-- ---------------------------------------------------------------------------
-- Fields that an edit leaves alone
-- ---------------------------------------------------------------------------

/-- Changing threads but for one field keeps the field. -/
theorem modifyThr_field {β : Type} (field : Thread → β) {f : Thread → Thread}
    (hf : ∀ v, field (f v) = field v) (t u : Ptr) (s : State) :
    field ((s.modifyThr t f).thr u) = field (s.thr u) := by
  show field (Function.update s.thr t (f (s.thr t)) u) = _
  by_cases hu : u = t
  · rw [hu, Function.update_self, hf]
  · rw [Function.update_of_ne hu]

theorem modifyProc_field {β : Type} (field : Process → β) {f : Process → Process}
    (hf : ∀ v, field (f v) = field v) (p q : Ptr) (s : State) :
    field ((s.modifyProc p f).proc q) = field (s.proc q) := by
  show field (Function.update s.proc p (f (s.proc p)) q) = _
  by_cases hq : q = p
  · rw [hq, Function.update_self, hf]
  · rw [Function.update_of_ne hq]

-- ---------------------------------------------------------------------------
-- A new thread
-- ---------------------------------------------------------------------------

/-- A new thread is put behind the first one. -/
def insertSecond (t : Ptr) : List Ptr → List Ptr
  | [] => [t]
  | h :: l => h :: t :: l

/-- The second place takes one thread more. -/
theorem mem_insertSecond {t u : Ptr} {l : List Ptr} : u ∈ insertSecond t l ↔ u = t ∨ u ∈ l := by
  cases l with
  | nil => simp [insertSecond]
  | cons h l =>
    simp only [insertSecond, List.mem_cons]
    tauto

/-- `linkThread` puts the thread in at the second place. -/
theorem linkThread_onRing {s : State} {l : List Ptr} {t : Ptr} (h : OnRing s l) (ht : t ∉ l)
    (hnull : t ≠ NULL) : OnRing (linkThread t s) (insertSecond t l) := by
  have hnot : NULL ∉ insertSecond t l := by
    rw [mem_insertSecond]
    exact fun hmem => hmem.elim (fun heq => hnull heq.symm) h.null
  cases l with
  | nil =>
    have hhead : s.headThrd = NULL := h.head
    refine ⟨?_, fun _ => isRing_single ?_, hnot⟩
    · rw [linkThread, if_pos hhead]
      rfl
    · rw [linkThread, if_pos hhead]
      show (Function.update s.thr t _ t).nextSched = t
      rw [Function.update_self]
  | cons x l =>
    have hhead : s.headThrd = x := h.head
    have hx : x ≠ NULL := fun heq => h.null (heq ▸ List.mem_cons_self)
    have hxt : x ≠ t := fun heq => ht (heq ▸ List.mem_cons_self)
    have hne : ¬ s.headThrd = NULL := by
      rw [hhead]
      exact hx
    have hlink : (linkThread t s).next = Function.update (Function.update s.next t (s.next x)) x t := by
      funext u
      rw [linkThread, if_neg hne, hhead]
      show (Function.update (Function.update s.thr t _) x _ u).nextSched = _
      rw [Function.update_apply, Function.update_apply, Function.update_apply,
        Function.update_apply]
      split
      · rfl
      · split
        · rfl
        · rfl
    refine ⟨?_, ?_, hnot⟩
    · rw [linkThread, if_neg hne]
      exact hhead
    · intro _
      refine isRing_insert (h.ring (by simp)) ht ?_ ?_ fun u hu => ?_
      · rw [hlink, Function.update_self]
      · rw [hlink, Function.update_of_ne (Ne.symm hxt), Function.update_self]
      · have hnd := List.nodup_cons.mp h.nodup
        have hux : u ≠ x := fun heq => hnd.1 (heq ▸ hu)
        have hut : u ≠ t := fun heq => ht (heq ▸ List.mem_cons_of_mem _ hu)
        rw [hlink, Function.update_of_ne hux, Function.update_of_ne hut]

/-- Only links change when a thread is linked. -/
theorem linkThread_field {β : Type} (field : Thread → β)
    (hfield : ∀ v x, field { v with nextSched := x } = field v) (t u : Ptr) (s : State) :
    field ((linkThread t s).thr u) = field (s.thr u) := by
  rw [linkThread]
  split
  · exact modifyThr_field field (fun v => hfield v _) t u s
  · exact (modifyThr_field field (fun v => hfield v _) _ u _).trans
      (modifyThr_field field (fun v => hfield v _) t u s)

theorem linkThread_same (t : Ptr) (s : State) :
    (linkThread t s).space = s.space ∧ (linkThread t s).proc = s.proc ∧
      (linkThread t s).curThrd = s.curThrd := by
  rw [linkThread]
  split <;> exact ⟨rfl, rfl, rfl⟩

/-- What is left alone when the ring changes: the regions of each thread, and where
it goes on. -/
structure SameThreads (s s' : State) : Prop where
  stack  : ∀ u, (s'.thr u).stack = (s.thr u).stack
  parent : ∀ u, (s'.thr u).parent = (s.thr u).parent
  code   : ∀ p, (s'.proc p).code = (s.proc p).code

/-- The thread is on the ring, and ready. -/
structure Enlisted (s s' : State) (t : Ptr) (l : List Ptr) : Prop extends SameThreads s s' where
  ring  : OnRing s' (insertSecond t l)
  space : s'.space = s.space
  cur   : s'.curThrd = s.curThrd
  rsp   : ∀ u, (s'.thr u).rsp = (s.thr u).rsp
  ready : (s'.thr t).state = .READY
  state : ∀ u, u ≠ t → (s'.thr u).state = (s.thr u).state
  lock  : s'.schedulerLock = .UNLOCKED

/-- `enlist` returns when the lock is free, with the thread on the ring. -/
theorem enlist_spec {s : State} {l : List Ptr} {t : Ptr} (par : Ptr) (h : OnRing s l) (ht : t ∉ l)
    (hnull : t ≠ NULL) (hlock : s.schedulerLock = .UNLOCKED) :
    ∃ s', enlist par t s = .ok s' ∧ Enlisted s s' t l := by
  have hget : s.lock = .ok { s with schedulerLock := .LOCKED } := by
    rw [State.lock, hlock]
    rfl
  have hring : OnRing { s with schedulerLock := .LOCKED } l := onRing_congr h rfl fun _ _ => rfl
  have hlinked := linkThread_onRing hring ht hnull
  obtain ⟨hspace, hproc, hcur⟩ := linkThread_same t { s with schedulerLock := .LOCKED }
  have hfield : ∀ {β : Type} (field : Thread → β),
      (∀ v x, field { v with nextSched := x } = field v) → ∀ u,
      field ((linkThread t { s with schedulerLock := .LOCKED }).thr u) = field (s.thr u) :=
    fun field hlink u => linkThread_field field hlink t u { s with schedulerLock := .LOCKED }
  rw [enlist, hget, ok_bind]
  generalize linkThread t { s with schedulerLock := .LOCKED } = s₁ at *
  dsimp only
  refine ⟨_, rfl, ?_⟩
  -- the edits behind the link are of other fields of the new thread
  have hthr : ∀ u, (((s₁.unlock.modifyThr t fun v =>
      { v with nextInproc := (s₁.unlock.proc par).first }).modifyProc par fun v =>
      { v with first := t }).modifyThr t fun v => { v with state := .READY }).thr u =
      if u = t then { s₁.thr u with nextInproc := (s₁.unlock.proc par).first, state := .READY }
      else s₁.thr u := by
    intro u
    show Function.update (Function.update s₁.thr t _) t _ u = _
    by_cases hu : u = t
    · subst hu
      rw [if_pos rfl, Function.update_self]
      show { Function.update s₁.thr u _ u with state := .READY } = _
      rw [Function.update_self]
      rfl
    · rw [if_neg hu, Function.update_of_ne hu, Function.update_of_ne hu]
  refine ⟨⟨fun u => ?_, fun u => ?_, fun p => ?_⟩, onRing_congr hlinked rfl fun u _ => ?_,
    hspace, hcur, fun u => ?_, ?_, fun u hu => ?_, rfl⟩
  · rw [hthr, ← hfield (·.stack) (fun _ _ => rfl)]
    split_ifs <;> rfl
  · rw [hthr, ← hfield (·.parent) (fun _ _ => rfl)]
    split_ifs <;> rfl
  · show (Function.update s₁.proc par { s₁.proc par with first := t } p).code = _
    rw [Function.update_apply, hproc]
    split
    · rename_i hp
      rw [hp]
    · rfl
  · rw [State.next, hthr]
    split_ifs <;> rfl
  · rw [hthr, ← hfield (·.rsp) (fun _ _ => rfl)]
    split_ifs <;> rfl
  · rw [hthr, if_pos rfl]
  · rw [hthr, if_neg hu]
    exact hfield (·.state) (fun _ _ => rfl) u

-- ---------------------------------------------------------------------------
-- The search of yield
-- ---------------------------------------------------------------------------

/-- A thread that `yield` may switch to. -/
def Ready (s : State) (t : Ptr) : Bool := (s.thr t).state = .READY ∧ t ≠ s.curThrd

/-- The search returns the first ready thread behind the running one. -/
theorem searchThread_spec {s : State} {l : List Ptr} (h : OnRing s l) (hne : l ≠ []) :
    ∃ n, searchThread n s = some (l.find? (Ready s)) := by
  cases l with
  | nil => exact absurd rfl hne
  | cons x l =>
    have hhead : s.headThrd = x := h.head
    obtain ⟨q, ⟨n, hn⟩, hq⟩ := scan_list (h.ring hne) s.headThrd (Ready s)
      (fun _ next => next = s.headThrd) fun _ y => by simp [hhead]
    refine ⟨n, ?_⟩
    have hrun : iterate (scanBody (fun t => (s.thr t).nextSched)
        (fun t => (s.thr t).state = .READY ∧ t ≠ s.curThrd)
        (fun _ next => next = s.headThrd)) n (s.headThrd, s.headThrd) =
        some (q, ((x :: l).find? (Ready s)).isSome) := by
      rw [hhead] at hn ⊢
      exact hn
    rw [searchThread, hrun, Option.map_some]
    cases hfind : (x :: l).find? (Ready s) with
    | none => rfl
    | some y => exact congrArg (fun y => some (some y)) (hq y hfind)

theorem searchThread_mono {s : State} {n m : Nat} {r : Option Ptr}
    (h : searchThread n s = some r) (hle : n ≤ m) : searchThread m s = some r := by
  rw [searchThread, Option.map_eq_some_iff] at h ⊢
  obtain ⟨a, ha, hr⟩ := h
  exact ⟨a, iterate_mono ha hle, hr⟩

/-- What `yield` does with the scheduler unlocked, once its search may take long
enough. -/
def yielded (rsp : Nat) (l : List Ptr) (s : State) : Except Fault State :=
  match l.find? (Ready s) with
  | none => .ok s
  | some t => switchTo rsp t s

/-- `yield` switches to that thread, unless the fuel does not reach. -/
theorem yield_spec {s : State} {l : List Ptr} (h : OnRing s l)
    (hlock : s.schedulerLock = .UNLOCKED) (rsp : Nat) :
    (∃ n, yield n rsp s = yielded rsp l s) ∧
      ∀ n, yield n rsp s = yielded rsp l s ∨ yield n rsp s = .error .hang := by
  cases l with
  | nil =>
    have hhead : s.headThrd = NULL := h.head
    have hidle : ∀ n, yield n rsp s = yielded rsp [] s := fun n => if_pos (.inr hhead)
    exact ⟨⟨0, hidle 0⟩, fun n => .inl (hidle n)⟩
  | cons x l =>
    have hgo : ¬ (s.schedulerLock = .LOCKED ∨ s.headThrd = NULL) := by
      have hx : x ≠ NULL := fun heq => h.null (heq ▸ List.mem_cons_self)
      have hhead : s.headThrd = x := h.head
      simp [hlock, hhead, hx]
    obtain ⟨n, hn⟩ := searchThread_spec h (by simp)
    have hsome : ∀ m, searchThread m s = some ((x :: l).find? (Ready s)) →
        yield m rsp s = yielded rsp (x :: l) s := by
      intro m hm
      rw [yield, if_neg hgo, hm, yielded]
      cases (x :: l).find? (Ready s) <;> rfl
    refine ⟨⟨n, hsome n hn⟩, ?_⟩
    intro m
    cases hm : searchThread m s with
    | none =>
      right
      rw [yield, if_neg hgo, hm]
    | some r =>
      left
      refine hsome m ?_
      have h₁ := searchThread_mono hm (Nat.le_max_left m n)
      have h₂ := searchThread_mono hn (Nat.le_max_right m n)
      rw [hm, h₁.symm.trans h₂]

-- ---------------------------------------------------------------------------
-- The switch
-- ---------------------------------------------------------------------------

/-- The threads after the switch to `t`. -/
structure Switched (s s' : State) (rsp : Nat) (t : Ptr) : Prop extends SameThreads s s' where
  cur   : s'.curThrd = t
  head  : s'.headThrd = s.next t
  next  : ∀ u, s'.next u = s.next u
  state : ∀ u, (s'.thr u).state = if u = s.curThrd ∧ s.curThrd ≠ NULL then .READY
    else if u = t then .RUNNING else (s.thr u).state
  rsp   : ∀ u, (s'.thr u).rsp = if u = s.curThrd ∧ s.curThrd ≠ NULL then rsp else (s.thr u).rsp
  lock  : s'.schedulerLock = s.schedulerLock

/-- The state that `switchTo` leaves, with the regions as they are then. -/
def switched (rsp : Nat) (t : Ptr) (s : State) (space : Space) : State :=
  let run := s.modifyThr t fun v => { v with state := .RUNNING }
  let run := if s.curThrd = NULL then run
    else run.modifyThr s.curThrd fun v => { v with state := .READY, rsp := rsp }
  { run with headThrd := s.next t, curThrd := t, space := space }

/-- The threads after a switch. -/
theorem switched_thr (rsp : Nat) (t u : Ptr) (s : State) (space : Space) :
    (switched rsp t s space).thr u =
      if u = s.curThrd ∧ s.curThrd ≠ NULL then
        { s.thr u with state := .READY, rsp := rsp }
      else if u = t then { s.thr u with state := .RUNNING } else s.thr u := by
  have hrun : (s.modifyThr t fun v => { v with state := .RUNNING }).thr u =
      if u = t then { s.thr u with state := .RUNNING } else s.thr u := by
    show Function.update s.thr t _ u = _
    rw [Function.update_apply]
    split
    · rename_i hu
      rw [hu]
    · rfl
  unfold switched
  dsimp only
  by_cases hcur : s.curThrd = NULL
  · rw [if_pos hcur, if_neg (fun h => h.2 hcur)]
    exact hrun
  · rw [if_neg hcur]
    show Function.update (s.modifyThr t _).thr s.curThrd _ u = _
    by_cases hu : u = s.curThrd
    · rw [if_pos ⟨hu, hcur⟩, ← hu, Function.update_self, hrun]
      split <;> rfl
    · rw [if_neg (fun h => hu h.1), Function.update_of_ne hu]
      exact hrun

/-- A switch stores the stack pointer of the old thread, and the new one runs. -/
theorem switched_spec {s : State} (rsp : Nat) (t : Ptr) (space : Space) :
    Switched s (switched rsp t s space) rsp t := by
  have hproc : (switched rsp t s space).proc = s.proc := by
    unfold switched
    dsimp only
    split <;> rfl
  have hlock : (switched rsp t s space).schedulerLock = s.schedulerLock := by
    unfold switched
    dsimp only
    split <;> rfl
  refine ⟨⟨fun u => ?_, fun u => ?_, fun p => ?_⟩, rfl, rfl, fun u => ?_, fun u => ?_, fun u => ?_,
    hlock⟩
  · rw [switched_thr]
    split_ifs <;> rfl
  · rw [switched_thr]
    split_ifs <;> rfl
  · rw [hproc]
  · rw [State.next, switched_thr]
    split_ifs <;> rfl
  · rw [switched_thr]
    split_ifs <;> rfl
  · rw [switched_thr]
    split_ifs <;> rfl

/-- The stack of a thread, none for no thread. -/
def stackOf (s : State) (t : Ptr) : Ptr := if t = NULL then NULL else (s.thr t).stack

/-- The code of the process of a thread, none for no thread. -/
def codeOf (s : State) (t : Ptr) : Ptr :=
  if t = NULL then NULL else (s.proc (s.thr t).parent).code

/-- Where the threads are the same, so are their stacks. -/
theorem SameThreads.stackOf_eq {s s' : State} (h : SameThreads s s') (t : Ptr) :
    stackOf s' t = stackOf s t := by
  rw [stackOf, stackOf, h.stack]

theorem SameThreads.codeOf_eq {s s' : State} (h : SameThreads s s') (t : Ptr) :
    codeOf s' t = codeOf s t := by
  rw [codeOf, codeOf, h.parent, h.code]

/-- The switch is two exchanges of regions, that of the code and that of the stack. -/
theorem switchTo_eq {t : Ptr} (ht : t ≠ NULL) (rsp : Nat) (s : State) :
    switchTo rsp t s = (do
      let (space, _) ← swapflop (codeOf s s.curThrd) (codeOf s t) 7 s.space
      let (space, _) ← swapflop (stackOf s s.curThrd) (stackOf s t) 7 space
      .ok (switched rsp t s space)) := by
  have hparent : ∀ u, ((s.modifyThr t fun v => { v with state := .RUNNING }).thr u).parent =
      (s.thr u).parent := fun u => modifyThr_field (·.parent) (by intros; rfl) t u s
  have hstack : ∀ u, ((s.modifyThr t fun v => { v with state := .RUNNING }).thr u).stack =
      (s.thr u).stack := fun u => modifyThr_field (·.stack) (by intros; rfl) t u s
  have hnext : ((s.modifyThr t fun v => { v with state := .RUNNING }).thr t).nextSched =
      s.next t := modifyThr_field (·.nextSched) (by intros; rfl) t t s
  unfold switchTo codeOf stackOf
  dsimp only
  rw [if_neg ht, if_neg ht, hparent, hparent]
  refine bind_congr fun ⟨space, _⟩ => ?_
  have hnew : ((switched rsp t s space).thr t).stack = (s.thr t).stack :=
    (switched_spec rsp t space).stack t
  rw [← hnew]
  unfold switched
  dsimp only
  by_cases hcur : s.curThrd = NULL
  · have hrun : (s.modifyThr t fun v => { v with state := .RUNNING }).curThrd = NULL := hcur
    simp only [if_pos hcur, if_pos hrun, hstack, hnext]
  · have hrun : ¬ (s.modifyThr t fun v => { v with state := .RUNNING }).curThrd = NULL := hcur
    simp only [if_neg hcur, if_neg hrun, hstack, hnext]
    rfl

end Frosk.Scheduler

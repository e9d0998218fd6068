import Frosk.Queue.Definitions

/-!
# Message queues: the lock

A receiver holds the queue's lock from the `recv_msg` that gives it a message
to the call that ends its iteration, and the only thing that remembers this is
the cursor. `Settled` is the agreement between the two: a non-`NULL` cursor and
a lock the receiver holds, or a `NULL` cursor and a free lock.

One lemma for each call says what it does to a settled queue. They do not ask
that the queue is well formed: whatever records the pointers lead to, freed
ones included, the calls end on one of these two sides.

Main results:

* `lock_follows_cursor_iff` — over every run of a receiver that consumes only
  straight after receiving, with other threads sending and freed storage being
  overwritten in between: the receiver holds the lock exactly while its cursor
  is non-`NULL`, and never unlocks without holding it, if and only if no
  `consume_msg` is called with a `NULL` cursor and no `stop_recv` with a
  non-`NULL` one.
* `fgets_unlocks_unheld` — the first of the two happens in `fgets`, on an empty
  queue.
-/

namespace Frosk.Queue

open Lib

-- ---------------------------------------------------------------------------
-- Fields that the list edits leave alone
-- ---------------------------------------------------------------------------

namespace State

/-- `tryNext` leaves the owner of the lock. -/
@[simp] theorem setNext_owner (s : State) (p v : Ptr) : (s.setNext p v).owner = s.owner := rfl
@[simp] theorem setNext_stray (s : State) (p v : Ptr) : (s.setNext p v).stray = s.stray := rfl
@[simp] theorem setNext_q (s : State) (p v : Ptr) : (s.setNext p v).q = s.q := rfl
@[simp] theorem setPrev_owner (s : State) (p v : Ptr) : (s.setPrev p v).owner = s.owner := rfl
@[simp] theorem setPrev_stray (s : State) (p v : Ptr) : (s.setPrev p v).stray = s.stray := rfl
@[simp] theorem setPrev_q (s : State) (p v : Ptr) : (s.setPrev p v).q = s.q := rfl
@[simp] theorem tryNext_owner (s : State) (p v : Ptr) : (s.tryNext p v).owner = s.owner := by
  unfold tryNext; split <;> rfl
@[simp] theorem tryNext_stray (s : State) (p v : Ptr) : (s.tryNext p v).stray = s.stray := by
  unfold tryNext; split <;> rfl
@[simp] theorem tryNext_q (s : State) (p v : Ptr) : (s.tryNext p v).q = s.q := by
  unfold tryNext; split <;> rfl
/-- So does `tryPrev`. -/
@[simp] theorem tryPrev_owner (s : State) (p v : Ptr) : (s.tryPrev p v).owner = s.owner := by
  unfold tryPrev; split <;> rfl
@[simp] theorem tryPrev_stray (s : State) (p v : Ptr) : (s.tryPrev p v).stray = s.stray := by
  unfold tryPrev; split <;> rfl
@[simp] theorem tryPrev_q (s : State) (p v : Ptr) : (s.tryPrev p v).q = s.q := by
  unfold tryPrev; split <;> rfl
@[simp] theorem setHead_owner (s : State) (v : Ptr) : (s.setHead v).owner = s.owner := rfl
@[simp] theorem setHead_stray (s : State) (v : Ptr) : (s.setHead v).stray = s.stray := rfl
@[simp] theorem setHead_mem (s : State) (v : Ptr) : (s.setHead v).mem = s.mem := rfl
@[simp] theorem setHead_lock (s : State) (v : Ptr) : (s.setHead v).q.lock = s.q.lock := rfl
@[simp] theorem setTail_owner (s : State) (v : Ptr) : (s.setTail v).owner = s.owner := rfl
@[simp] theorem setTail_stray (s : State) (v : Ptr) : (s.setTail v).stray = s.stray := rfl
@[simp] theorem setTail_mem (s : State) (v : Ptr) : (s.setTail v).mem = s.mem := rfl
@[simp] theorem setTail_lock (s : State) (v : Ptr) : (s.setTail v).q.lock = s.q.lock := rfl
@[simp] theorem kfree_owner (s : State) (p : Ptr) : (s.kfree p).owner = s.owner := rfl
@[simp] theorem kfree_stray (s : State) (p : Ptr) : (s.kfree p).stray = s.stray := rfl
@[simp] theorem kfree_q (s : State) (p : Ptr) : (s.kfree p).q = s.q := rfl

end State

-- ---------------------------------------------------------------------------
-- The calls and the lock
-- ---------------------------------------------------------------------------

/-- The lock agrees with the cursor of receiver `r`. -/
def Settled (r : Tid) (cur : Ptr) (s : State) : Prop :=
  (cur ≠ NULL ∧ s.owner = some r ∧ s.q.lock = .LOCKED) ∨
    (cur = NULL ∧ s.owner = none ∧ s.q.lock = .UNLOCKED)

/-- The reader owns the lock when it has a message. -/
theorem Settled.owner_iff {r : Tid} {cur : Ptr} {s : State} (h : Settled r cur s) :
    s.owner = some r ↔ cur ≠ NULL := by
  rcases h with ⟨hc, ho, _⟩ | ⟨hc, ho, _⟩
  · simp [hc, ho]
  · simp [hc, ho]

/-- A free lock is taken. -/
theorem lockQueue_free {t : Tid} {s : State} (h : s.q.lock = .UNLOCKED) :
    lockQueue t s = some { s with q := { s.q with lock := .LOCKED }, owner := some t } := by
  simp [lockQueue, getlock, h]

/-- A lock that is taken is waited for. -/
theorem lockQueue_taken {t : Tid} {s : State} (h : s.q.lock = .LOCKED) :
    lockQueue t s = none := by
  simp [lockQueue, getlock, h]

/-- The owner gives it back. -/
theorem unlockQueue_settled {r : Tid} {s : State} (h : s.owner = some r) :
    Settled r NULL (unlockQueue r s) ∧ (unlockQueue r s).stray = s.stray := by
  refine ⟨Or.inr ⟨rfl, rfl, rfl⟩, ?_⟩
  simp [unlockQueue, h]

/-- Every `recv_msg` on a settled queue returns. -/
theorem recvMsg_returns {r : Tid} {cur : Ptr} {s : State} (h : Settled r cur s) (size : Nat) :
    ∃ out, recvMsg r size cur s = some out := by
  rcases h with ⟨hc, _, _⟩ | ⟨hc, _, hl⟩
  · simp [recvMsg, hc]
  · simp [recvMsg, hc, lockQueue_free hl]

/-- Whatever cursor `recv_msg` moves to, it holds the lock when it gets there. -/
theorem recvAt_settled {r : Tid} (size : Nat) (c : Ptr) {s : State} (ho : s.owner = some r)
    (hl : s.q.lock = .LOCKED) :
    Settled r (recvAt r size c s).1.current (recvAt r size c s).2 ∧
      (recvAt r size c s).2.stray = s.stray := by
  by_cases hc : c = NULL
  · rw [recvAt, if_pos hc]
    exact unlockQueue_settled ho
  · rw [recvAt, if_neg hc]
    exact ⟨Or.inl ⟨hc, ho, hl⟩, rfl⟩

/-- `recv_msg` keeps the queue settled. -/
theorem recvMsg_settled {r : Tid} {size : Nat} {cur : Ptr} {s s' : State} {out : Received}
    (h : Settled r cur s) (hr : recvMsg r size cur s = some (out, s')) :
    Settled r out.current s' ∧ s'.stray = s.stray := by
  rcases h with ⟨hc, ho, hl⟩ | ⟨hc, ho, hl⟩
  · rw [recvMsg, if_neg hc, Option.some.injEq] at hr
    have hat := recvAt_settled size (s.msg cur).prev ho hl
    rw [hr] at hat
    exact hat
  · rw [recvMsg, if_pos hc, lockQueue_free hl, Option.map_some, Option.some.injEq] at hr
    have hat := recvAt_settled (r := r) (s := { s with
      q := { s.q with lock := .LOCKED }, owner := some r }) size s.q.tail rfl rfl
    rw [hr] at hat
    exact hat

/-- Taking a message out of the list does not touch the lock. -/
theorem unlink_lock {m c : Ptr} {s s' : State} (h : unlink m s = some (c, s')) :
    s'.owner = s.owner ∧ s'.q.lock = s.q.lock ∧ s'.stray = s.stray := by
  unfold unlink at h
  by_cases ht : m = s.q.tail
  · rw [if_pos ht, Option.some.injEq, Prod.mk.injEq] at h
    obtain ⟨_, rfl⟩ := h
    split <;> simp
  · rw [if_neg ht] at h
    by_cases hh : m = s.q.head
    · rw [if_pos hh] at h
      by_cases hn : (s.msg m).next = NULL
      · simp [hn] at h
      · rw [if_neg hn, Option.some.injEq, Prod.mk.injEq] at h
        obtain ⟨_, rfl⟩ := h
        simp
    · rw [if_neg hh, Option.some.injEq, Prod.mk.injEq] at h
      obtain ⟨_, rfl⟩ := h
      simp

/-- `consume_msg` of a message the receiver holds keeps the queue settled. -/
theorem consumeMsg_settled {r : Tid} {cur c : Ptr} {s s' : State} (h : Settled r cur s)
    (hcur : cur ≠ NULL) (hr : consumeMsg r cur s = some (c, s')) :
    Settled r c s' ∧ s'.stray = s.stray := by
  obtain ⟨_, ho, hl⟩ : cur ≠ NULL ∧ s.owner = some r ∧ s.q.lock = .LOCKED := by
    rcases h with h | h
    · exact h
    · exact absurd h.1 hcur
  simp only [consumeMsg, if_neg hcur, Option.map_eq_some_iff] at hr
  obtain ⟨⟨c', u⟩, hu, heq⟩ := hr
  obtain ⟨huo, hul, hust⟩ := unlink_lock hu
  by_cases hc : c' = NULL
  · simp only [hc, ne_eq, not_true_eq_false, if_false, Prod.mk.injEq] at heq
    obtain ⟨rfl, rfl⟩ := heq
    have hun := unlockQueue_settled (huo.trans ho)
    exact ⟨hun.1, hun.2.trans hust⟩
  · simp only [hc, ne_eq, not_false_eq_true, if_true, Prod.mk.injEq] at heq
    obtain ⟨rfl, rfl⟩ := heq
    exact ⟨Or.inl ⟨hc, by simp [huo, ho], by simp [hul, hl]⟩, by simp [hust]⟩

/-- `consume_msg` with a `NULL` cursor does one thing: it unlocks. -/
theorem consumeMsg_null (r : Tid) (s : State) :
    consumeMsg r NULL s = some (NULL, unlockQueue r s) := by
  simp [consumeMsg]

/-- A send finds the lock free or does not return; it leaves the lock free. -/
theorem sendMsg_lock {K : Kalloc} {t : Tid} {data : List UInt8} {s s' : State}
    (h : sendMsg K t data s = some s') :
    s.q.lock = .UNLOCKED ∧ s'.q.lock = .UNLOCKED ∧ s'.owner = none ∧ s'.stray = s.stray := by
  cases hl : s.q.lock with
  | LOCKED => simp [sendMsg, lockQueue_taken hl] at h
  | UNLOCKED =>
    simp only [sendMsg, lockQueue_free hl, Option.map_some, Option.some.injEq] at h
    subst h
    refine ⟨rfl, rfl, rfl, ?_⟩
    simp only [unlockQueue]
    split <;> split <;> simp_all

-- ---------------------------------------------------------------------------
-- Runs of one receiver
-- ---------------------------------------------------------------------------

/-- A queue with its receiver's cursor, and whether the receiver's last call
was a `recv_msg`. -/
structure Client where
  s       : State
  current : Ptr
  fresh   : Bool

/-- What can happen between two states of a run: the receiver's calls, a send
by another thread, and the reuse of freed storage by anything in the kernel. -/
inductive Call where
  | recv (size : Nat)
  | consume
  | stop
  | send (t : Tid) (data : List UInt8)
  | reuse (p : Ptr) (m : Message) (b : List UInt8)

/-- One event, with `r` the receiver. -/
def Client.call (K : Kalloc) (r : Tid) (c : Client) : Call → Option Client
  | .recv size => (recvMsg r size c.current c.s).map fun (out, s) => ⟨s, out.current, true⟩
  | .consume => (consumeMsg r c.current c.s).map fun (cur, s) => ⟨s, cur, false⟩
  | .stop => some ⟨stopRecv r c.current c.s, c.current, false⟩
  | .send t data => (sendMsg K t data c.s).map fun s => { c with s := s }
  | .reuse p m b =>
    some { c with s := { c.s with mem := { c.s.mem with
      msg := Function.update c.s.mem.msg p m
      buf := Function.update c.s.mem.buf p b } } }

def Client.Step (K : Kalloc) (r : Tid) (c : Client) (a : Call) (c' : Client) (_ : Unit) : Prop :=
  c.call K r a = some c'

/-- The callers' discipline: `consume_msg` only straight after `recv_msg`;
other threads send, and only storage that is not in use is reused. -/
def Client.Alternates (r : Tid) (c : Client) : Call → Prop
  | .consume => c.fresh = true
  | .send t _ => t ≠ r
  | .reuse p _ _ => p ∉ c.s.mem.used
  | _ => True

/-- What the run should keep: the receiver holds the lock exactly while its
cursor is non-`NULL`, and no unlock was executed by a thread without it. -/
def LockFollowsCursor (r : Tid) (c : Client) (_ : Call) (c' : Client) (_ : Unit) : Prop :=
  (c'.s.owner = some r ↔ c'.current ≠ NULL) ∧ c'.s.stray = c.s.stray

/-- Nothing is consumed at a `NULL` cursor and nothing stopped at another. -/
def CursorFits (c : Client) : Call → Prop
  | .consume => c.current ≠ NULL
  | .stop => c.current = NULL
  | _ => True

/-- A call that fits the cursor keeps the queue settled. -/
theorem call_settled {K : Kalloc} {r : Tid} {c c' : Client} {a : Call}
    (h : Settled r c.current c.s) (hal : c.Alternates r a) (hfit : CursorFits c a)
    (hc : c.call K r a = some c') :
    Settled r c'.current c'.s ∧ c'.s.stray = c.s.stray := by
  cases a with
  | recv size =>
    simp only [Client.call, Option.map_eq_some_iff] at hc
    obtain ⟨⟨out, s⟩, hr, rfl⟩ := hc
    exact recvMsg_settled h hr
  | consume =>
    simp only [Client.call, Option.map_eq_some_iff] at hc
    obtain ⟨⟨cur, s⟩, hr, rfl⟩ := hc
    exact consumeMsg_settled h hfit hr
  | stop =>
    have hnull : c.current = NULL := hfit
    simp only [Client.call, stopRecv, hnull, Option.some.injEq] at hc
    subst hc
    rw [hnull] at h
    exact ⟨h, rfl⟩
  | send t data =>
    simp only [Client.call, Option.map_eq_some_iff] at hc
    obtain ⟨s, hs, rfl⟩ := hc
    obtain ⟨hbefore, hl, ho, hst⟩ := sendMsg_lock hs
    rcases h with ⟨_, _, hlocked⟩ | ⟨hnull, _, _⟩
    · rw [hbefore] at hlocked
      exact absurd hlocked (by decide)
    · exact ⟨Or.inr ⟨hnull, ho, hl⟩, hst⟩
  | reuse p m b =>
    simp only [Client.call, Option.some.injEq] at hc
    subst hc
    exact ⟨h, rfl⟩

/-- A call that does not fit the cursor returns and breaks the discipline. -/
theorem call_breaks {K : Kalloc} {r : Tid} {c : Client} {a : Call}
    (h : Settled r c.current c.s) (hfit : ¬ CursorFits c a) :
    ∃ c' b, c.Step K r a c' b ∧ ¬ LockFollowsCursor r c a c' b := by
  cases a with
  | consume =>
    have hnull : c.current = NULL := not_not.mp hfit
    refine ⟨⟨unlockQueue r c.s, NULL, false⟩, (), ?_, ?_⟩
    · simp [Client.Step, Client.call, hnull, consumeMsg_null]
    · rcases h with ⟨hne, _, _⟩ | ⟨_, ho, _⟩
      · exact absurd hnull hne
      · rintro ⟨_, hstray⟩
        simp [unlockQueue, ho] at hstray
  | stop =>
    have hne : c.current ≠ NULL := hfit
    refine ⟨⟨stopRecv r c.current c.s, c.current, false⟩, (), rfl, ?_⟩
    rintro ⟨hiff, _⟩
    have howner := hiff.mpr hne
    simp [stopRecv, hne, unlockQueue] at howner
  | recv size => exact absurd trivial hfit
  | send t data => exact absurd trivial hfit
  | reuse p m b => exact absurd trivial hfit

/-- **The lock follows the cursor**, over whole runs and for any contents of
the queue and of freed storage, exactly when every call fits the cursor. -/
theorem lock_follows_cursor_iff (K : Kalloc) (r : Tid) (c : Client) (calls : List Call)
    (hnull : c.current = NULL) (hfree : c.s.q.lock = .UNLOCKED) (hnone : c.s.owner = none)
    (hal : Whenever (Client.Step K r) (Client.Alternates r) c calls) :
    Upon (Client.Step K r) (LockFollowsCursor r) c calls ↔
      Whenever (Client.Step K r) CursorFits c calls := by
  have hgood : ∀ (c : Client) (a : Call) (c' : Client) (b : Unit), Settled r c.current c.s →
      c.Alternates r a → CursorFits c a → c.Step K r a c' b →
      LockFollowsCursor r c a c' b ∧ Settled r c'.current c'.s := by
    intro c a c' b hs hal hfit hstep
    obtain ⟨hs', hstray⟩ := call_settled hs hal hfit hstep
    exact ⟨⟨hs'.owner_iff, hstray⟩, hs'⟩
  have hbad : ∀ (c : Client) (a : Call), Settled r c.current c.s → c.Alternates r a →
      ¬ CursorFits c a → ∃ c' b, c.Step K r a c' b ∧ ¬ LockFollowsCursor r c a c' b :=
    fun c a hs _ hfit => call_breaks hs hfit
  exact upon_iff_whenever hgood hbad (Or.inr ⟨hnull, hnone, hfree⟩) hal

/-- A receiver that reads an empty queue to its end and stops. -/
theorem lock_follows_cursor_empty :
    Upon (Client.Step Kalloc.above 1) (LockFollowsCursor 1)
      ⟨initMqueue Kmem.empty, NULL, false⟩ [.recv 128, .stop] := by
  refine (lock_follows_cursor_iff Kalloc.above 1 ⟨initMqueue Kmem.empty, NULL, false⟩
    [.recv 128, .stop] rfl rfl rfl ?_).mpr ?_
  · exact ⟨trivial, fun _ _ _ => ⟨trivial, fun _ _ _ => trivial⟩⟩
  · refine ⟨trivial, fun c _ hc => ⟨?_, fun _ _ _ => trivial⟩⟩
    obtain rfl := Option.some.inj hc
    rfl

/-- `fgets` calls `consume_msg` whether or not `recv_msg` found a message: on an
empty queue the second call unlocks what the first had already unlocked. -/
theorem fgets_unlocks_unheld :
    Whenever (Client.Step Kalloc.above 1) (Client.Alternates 1)
        ⟨initMqueue Kmem.empty, NULL, false⟩ [.recv 0, .consume] ∧
      ¬ Upon (Client.Step Kalloc.above 1) (LockFollowsCursor 1)
        ⟨initMqueue Kmem.empty, NULL, false⟩ [.recv 0, .consume] := by
  constructor
  · refine ⟨trivial, fun c _ hc => ⟨?_, fun _ _ _ => trivial⟩⟩
    obtain rfl := Option.some.inj hc
    rfl
  · intro h
    have hconsume := ((h _ () rfl).2 _ () rfl).1
    exact absurd hconsume.2 (by decide)

end Frosk.Queue

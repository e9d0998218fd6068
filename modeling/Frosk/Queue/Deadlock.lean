import Frosk.Queue.Locking

/-!
# Message queues: one CPU, one lock

System calls run with interrupts off: `setup_syscalls` registers the gate with
flags `0xEE`, an interrupt gate. A thread is therefore switched away from only
in user code, between two system calls, and a thread that spins in `getlock`
keeps the CPU for good. The receiver's iteration spans several system calls, so
it can be switched away from with the queue's lock in hand.

`Sys` is the product of the three: the queue, the receiver's protocol, and the
scheduler's choices. Main results:

* `no_deadlock_iff` — over every interleaving, no sender ever spins on a lock
  whose holder is not running, if and only if no send is issued while the
  receiver's iteration is open.
* `no_deadlock_of_no_preemption` — a scheduler that leaves an open iteration
  alone is enough.
* `send_into_open_iteration` — the shortest interleaving that deadlocks.
-/

namespace Frosk.Queue

open Lib

/-- The flags `setup_syscalls` passes to `xreg_int`. -/
def syscallFlags : Nat := 0xEE

/-- Gate type `0xE` clears the interrupt flag on entry, type `0xF` does not. -/
def isInterruptGate (flags : Nat) : Bool := flags % 0x10 == 0xE

/-- The call a spinning thread is in. -/
inductive Pending where
  | send (data : List UInt8)
  | recv (size : Nat)
deriving DecidableEq, Repr

structure Sys where
  s       : State
  current : Ptr
  phase   : Phase
  running : Tid
  spin    : Option (Tid × Pending)

inductive Event where
  | timer (t : Tid)
  | recv (size : Nat)
  | consume
  | stop
  | reset
  | send (data : List UInt8)
  | retry

/-- The timer interrupt gets through: user code is running, or the gate left
interrupts on. -/
def Sys.interruptible (y : Sys) : Bool :=
  y.spin.isNone || !isInterruptGate syscallFlags

def Sys.received (y : Sys) (out : Received × State) : Sys :=
  { y with s := out.2, current := out.1.current, phase := .afterRecv out.1.current, spin := none }

/-- One event. The receiver `r` and the senders make their calls while they are
running; a call that finds the lock taken leaves its thread spinning. -/
def Sys.event (K : Kalloc) (r : Tid) (y : Sys) : Event → Option Sys
  | .timer t => some { y with running := t }
  | .recv size =>
    match recvMsg r size y.current y.s with
    | some out => some (y.received out)
    | none => some { y with spin := some (r, .recv size) }
  | .consume =>
    (consumeMsg r y.current y.s).map fun (cur, s) =>
      { y with s := s, current := cur, phase := .afterConsume y.current cur }
  | .stop =>
    some { y with s := stopRecv r y.current y.s, phase := y.phase.afterStop y.current }
  | .reset => some { y with current := NULL, phase := .idle }
  | .send data =>
    match sendMsg K y.running data y.s with
    | some s => some { y with s := s }
    | none => some { y with spin := some (y.running, .send data) }
  | .retry =>
    match y.spin with
    | some (t, .send data) =>
      match sendMsg K t data y.s with
      | some s => some { y with s := s, spin := none }
      | none => some y
    | some (t, .recv size) =>
      match recvMsg t size y.current y.s with
      | some out => some (y.received out)
      | none => some y
    | none => none

def Sys.Step (K : Kalloc) (r : Tid) (y : Sys) (a : Event) (y' : Sys) (_ : Unit) : Prop :=
  y.event K r a = some y'

/-- What can happen next. The receiver follows the protocol: it consumes only a
message it just received, and sets its cursor back only after `stop_recv`. -/
def Sys.Enabled (r : Tid) (y : Sys) : Event → Prop
  | .timer _ => y.interruptible = true
  | .recv _ => y.running = r ∧ y.spin = none ∧ y.phase ≠ .stopped
  | .consume => y.running = r ∧ y.spin = none ∧ y.phase = .received
  | .stop => y.running = r ∧ y.spin = none
  | .reset => y.running = r ∧ y.spin = none ∧ y.phase = .stopped
  | .send _ => y.running ≠ r ∧ y.spin = none
  | .retry => y.spin ≠ none

instance (r : Tid) (y : Sys) : (a : Event) → Decidable (y.Enabled r a)
  | .timer _ => inferInstanceAs (Decidable (y.interruptible = true))
  | .recv _ => inferInstanceAs (Decidable (y.running = r ∧ y.spin = none ∧ y.phase ≠ .stopped))
  | .consume => inferInstanceAs (Decidable (y.running = r ∧ y.spin = none ∧ y.phase = .received))
  | .stop => inferInstanceAs (Decidable (y.running = r ∧ y.spin = none))
  | .reset => inferInstanceAs (Decidable (y.running = r ∧ y.spin = none ∧ y.phase = .stopped))
  | .send _ => inferInstanceAs (Decidable (y.running ≠ r ∧ y.spin = none))
  | .retry => inferInstanceAs (Decidable (y.spin ≠ none))

/-- A sender spins on a lock that a thread which is not running has taken. -/
def Sys.Deadlocked (y : Sys) : Prop :=
  ∃ t data o, y.spin = some (t, .send data) ∧ y.s.owner = some o ∧ o ≠ t ∧ o ≠ y.running

def NotDeadlocked (_ : Sys) (_ : Event) (y' : Sys) (_ : Unit) : Prop := ¬ y'.Deadlocked

/-- No send is issued into an open iteration. -/
def SendsOutside (y : Sys) : Event → Prop
  | .send _ => y.phase.isOpen = false
  | _ => True

instance (y : Sys) : (a : Event) → Decidable (SendsOutside y a)
  | .send _ => inferInstanceAs (Decidable (y.phase.isOpen = false))
  | .timer _ | .recv _ | .consume | .stop | .reset | .retry => isTrue trivial

-- ---------------------------------------------------------------------------
-- The invariant
-- ---------------------------------------------------------------------------

/-- Nobody spins, and the lock is held by the receiver exactly during its
iteration. A stopped receiver has a stale cursor and no lock. -/
structure Coherent (r : Tid) (y : Sys) : Prop where
  quiet   : y.spin = none
  stopped : y.phase = .stopped → y.s.owner = none ∧ y.s.q.lock = .UNLOCKED
  settled : y.phase ≠ .stopped → Settled r y.current y.s
  cursor  : y.phase ≠ .stopped → (y.phase.isOpen = true ↔ y.current ≠ NULL)

/-- A free queue, a receiver that has not begun, and nobody in a system call. -/
structure Sys.Initial (y : Sys) : Prop where
  quiet : y.spin = none
  idle  : y.phase = .idle
  null  : y.current = NULL
  free  : y.s.q.lock = .UNLOCKED
  none  : y.s.owner = none

/-- While the reader iterates the lock is its own. -/
theorem Coherent.open_locked {r : Tid} {y : Sys} (h : Coherent r y)
    (ho : y.phase.isOpen = true) : y.s.owner = some r ∧ y.s.q.lock = .LOCKED := by
  have hne : y.phase ≠ .stopped := by
    intro hs
    rw [hs] at ho
    exact absurd ho (by decide)
  rcases h.settled hne with ⟨_, howner, hlock⟩ | ⟨hnull, _, _⟩
  · exact ⟨howner, hlock⟩
  · exact absurd hnull ((h.cursor hne).mp ho)

theorem Coherent.closed_free {r : Tid} {y : Sys} (h : Coherent r y)
    (hc : y.phase.isOpen = false) : y.s.owner = none ∧ y.s.q.lock = .UNLOCKED := by
  by_cases hs : y.phase = .stopped
  · exact h.stopped hs
  · rcases h.settled hs with ⟨hne, _, _⟩ | ⟨_, howner, hlock⟩
    · have := (h.cursor hs).mpr hne
      rw [hc] at this
      exact absurd this (by decide)
    · exact ⟨howner, hlock⟩

/-- So nobody waits for ever. -/
theorem Coherent.not_deadlocked {r : Tid} {y : Sys} (h : Coherent r y) : ¬ y.Deadlocked := by
  rintro ⟨t, data, o, hspin, _⟩
  rw [h.quiet] at hspin
  exact absurd hspin (by simp)

/-- A state that a call of the receiver left settled. -/
theorem coherent_of_settled {r run : Tid} {s : State} {cur : Ptr} {ph : Phase}
    (hne : ph ≠ .stopped) (hopen : ph.isOpen = true ↔ cur ≠ NULL) (hs : Settled r cur s) :
    Coherent r ⟨s, cur, ph, run, none⟩ :=
  ⟨rfl, fun h => absurd h hne, fun _ => hs, fun _ => hopen⟩

/-- At the start the lock is free. -/
theorem coherent_initial {r : Tid} {y : Sys} (h : y.Initial) : Coherent r y := by
  obtain ⟨s, cur, ph, run, spin⟩ := y
  obtain ⟨rfl, rfl, rfl, hfree, hnone⟩ := h
  exact coherent_of_settled (by decide) (by simp [Phase.isOpen]) (Or.inr ⟨rfl, hnone, hfree⟩)

/-- `sendMsg` returns when the lock is free. -/
theorem sendMsg_returns (K : Kalloc) (t : Tid) (data : List UInt8) {s : State}
    (h : s.q.lock = .UNLOCKED) : ∃ s', sendMsg K t data s = some s' := by
  simp [sendMsg, lockQueue_free h]

/-- Every event but a send into an open iteration keeps the system coherent. -/
theorem event_coherent {K : Kalloc} {r : Tid} {y y' : Sys} {a : Event} (h : Coherent r y)
    (hen : y.Enabled r a) (hout : SendsOutside y a) (he : y.event K r a = some y') :
    Coherent r y' := by
  obtain ⟨s, cur, ph, run, spin⟩ := y
  obtain rfl : spin = none := h.quiet
  cases a with
  | timer t =>
    obtain rfl := Option.some.inj he
    exact ⟨h.quiet, h.stopped, h.settled, h.cursor⟩
  | recv size =>
    obtain ⟨_, _, hph⟩ := hen
    have hset := h.settled hph
    obtain ⟨⟨out, s'⟩, hr⟩ := recvMsg_returns hset size
    simp only [Sys.event, hr, Option.some.injEq] at he
    subst he
    refine coherent_of_settled ?_ ?_ (recvMsg_settled hset hr).1
    · unfold Phase.afterRecv
      split <;> decide
    · unfold Phase.afterRecv
      split <;> simp_all [Phase.isOpen]
  | consume =>
    obtain ⟨_, _, hph⟩ := hen
    obtain rfl : ph = .received := hph
    have hne : Phase.received ≠ .stopped := by decide
    have hcur : cur ≠ NULL := (h.cursor hne).mp rfl
    simp only [Sys.event, Option.map_eq_some_iff] at he
    obtain ⟨⟨cur', s'⟩, hr, rfl⟩ := he
    refine coherent_of_settled ?_ ?_ (consumeMsg_settled (h.settled hne) hcur hr).1
    · unfold Phase.afterConsume
      split_ifs <;> decide
    · unfold Phase.afterConsume
      split_ifs <;> simp_all [Phase.isOpen]
  | stop =>
    obtain rfl := Option.some.inj he
    by_cases hc : cur = NULL
    · have hsame : stopRecv r cur s = s := by simp [stopRecv, hc]
      have hph : ph.afterStop cur = ph := by simp [Phase.afterStop, hc]
      rw [hsame, hph]
      exact h
    · have hph : ph.afterStop cur = .stopped := by simp [Phase.afterStop, hc]
      rw [hph]
      refine ⟨rfl, fun _ => ?_, fun hn => absurd rfl hn, fun hn => absurd rfl hn⟩
      simp [stopRecv, hc, unlockQueue]
  | reset =>
    obtain rfl := Option.some.inj he
    obtain ⟨howner, hlock⟩ := h.stopped hen.2.2
    exact coherent_of_settled (by decide) (by simp [Phase.isOpen])
      (Or.inr ⟨rfl, howner, hlock⟩)
  | send data =>
    have hclosed : ph.isOpen = false := hout
    obtain ⟨_, hfree⟩ := h.closed_free hclosed
    obtain ⟨s', hs⟩ := sendMsg_returns K run data hfree
    simp only [Sys.event, hs, Option.some.injEq] at he
    subst he
    obtain ⟨_, hl, ho, _⟩ := sendMsg_lock hs
    refine ⟨rfl, fun _ => ⟨ho, hl⟩, fun hph => Or.inr ⟨?_, ho, hl⟩, h.cursor⟩
    by_contra hne
    have := (h.cursor hph).mpr hne
    rw [hclosed] at this
    exact absurd this (by decide)
  | retry => exact absurd h.quiet hen

/-- A send into an open iteration leaves its thread spinning on the lock of a
thread that is not running. -/
theorem send_deadlocks {K : Kalloc} {r : Tid} {y : Sys} {data : List UInt8} (h : Coherent r y)
    (hrun : y.running ≠ r) (hopen : y.phase.isOpen = true) :
    ∃ y', y.event K r (.send data) = some y' ∧ y'.Deadlocked := by
  obtain ⟨howner, hlock⟩ := h.open_locked hopen
  refine ⟨{ y with spin := some (y.running, .send data) }, ?_, ?_⟩
  · simp [Sys.event, sendMsg, lockQueue_taken hlock]
  · exact ⟨y.running, data, r, rfl, howner, Ne.symm hrun, Ne.symm hrun⟩

-- ---------------------------------------------------------------------------
-- Results
-- ---------------------------------------------------------------------------

/-- **Deadlock freedom**, exactly: over every interleaving of the receiver, the
senders and the timer. -/
theorem no_deadlock_iff (K : Kalloc) (r : Tid) (y : Sys) (events : List Event)
    (hinit : y.Initial) (hen : Whenever (Sys.Step K r) (Sys.Enabled r) y events) :
    Upon (Sys.Step K r) NotDeadlocked y events ↔
      Whenever (Sys.Step K r) SendsOutside y events := by
  have hgood : ∀ (y : Sys) (a : Event) (y' : Sys) (b : Unit), Coherent r y → y.Enabled r a →
      SendsOutside y a → y.Step K r a y' b → NotDeadlocked y a y' b ∧ Coherent r y' := by
    intro y a y' b hc hen hout hs
    have hc' := event_coherent hc hen hout hs
    exact ⟨hc'.not_deadlocked, hc'⟩
  have hbad : ∀ (y : Sys) (a : Event), Coherent r y → y.Enabled r a → ¬ SendsOutside y a →
      ∃ y' b, y.Step K r a y' b ∧ ¬ NotDeadlocked y a y' b := by
    intro y a hc hen hout
    cases a with
    | send data =>
      have hopen : y.phase.isOpen = true := by simpa [SendsOutside] using hout
      obtain ⟨y', he, hd⟩ := send_deadlocks hc hen.1 hopen
      exact ⟨y', (), he, not_not.mpr hd⟩
    | _ => exact absurd trivial hout
  exact upon_iff_whenever hgood hbad (coherent_initial hinit) hen

/-- A timer that never fires inside an open iteration keeps every send outside
one: the receiver is running for as long as it holds the lock. -/
theorem no_deadlock_of_no_preemption (K : Kalloc) (r : Tid) (y : Sys) (events : List Event)
    (hinit : y.Initial)
    (hen : Whenever (Sys.Step K r) (fun y a => y.Enabled r a ∧
      ∀ t, a = .timer t → y.phase.isOpen = false) y events) :
    Upon (Sys.Step K r) NotDeadlocked y events := by
  have hstep : ∀ (y : Sys) (a : Event) (y' : Sys) (b : Unit),
      (Coherent r y ∧ (y.phase.isOpen = true → y.running = r)) →
      (y.Enabled r a ∧ ∀ t, a = .timer t → y.phase.isOpen = false) → y.Step K r a y' b →
      NotDeadlocked y a y' b ∧ Coherent r y' ∧ (y'.phase.isOpen = true → y'.running = r) := by
    rintro y a y' b ⟨hc, hrun⟩ ⟨hen, htimer⟩ hs
    have hout : SendsOutside y a := by
      cases a with
      | send data =>
        cases hopen : y.phase.isOpen with
        | false => exact hopen
        | true => exact absurd (hrun hopen) hen.1
      | _ => trivial
    have hc' := event_coherent hc hen hout hs
    refine ⟨hc'.not_deadlocked, hc', ?_⟩
    intro hopen
    have hs : y.event K r a = some y' := hs
    cases a with
    | timer t =>
      obtain rfl := Option.some.inj hs
      rw [htimer t rfl] at hopen
      exact absurd hopen (by decide)
    | recv size =>
      obtain ⟨out, hr⟩ := recvMsg_returns (hc.settled hen.2.2) size
      simp only [Sys.event, hr, Option.some.injEq] at hs
      subst hs
      exact hen.1
    | consume =>
      simp only [Sys.event, Option.map_eq_some_iff] at hs
      obtain ⟨_, _, rfl⟩ := hs
      exact hen.1
    | stop =>
      obtain rfl := Option.some.inj hs
      exact hen.1
    | reset =>
      obtain rfl := Option.some.inj hs
      exact hen.1
    | send data =>
      obtain ⟨s, hsend⟩ := sendMsg_returns K y.running data (hc.closed_free hout).2
      simp only [Sys.event, hsend, Option.some.injEq] at hs
      subst hs
      exact hrun hopen
    | retry => exact absurd hc.quiet hen
  have hopen : y.phase.isOpen = true → y.running = r := by simp [hinit.idle, Phase.isOpen]
  exact upon_of_invariant hstep ⟨coherent_initial hinit, hopen⟩ hen

/-- An empty queue, thread `2` running; thread `1` is the receiver. -/
def Sys.start : Sys := ⟨initMqueue Kmem.empty, NULL, .idle, 2, none⟩

/-- Two sends around a complete iteration. -/
theorem no_deadlock_between_iterations :
    Upon (Sys.Step Kalloc.above 1) NotDeadlocked Sys.start
      [.send [97], .timer 1, .recv 16, .consume, .timer 2, .send [98]] :=
  (no_deadlock_iff Kalloc.above 1 Sys.start _ ⟨rfl, rfl, rfl, rfl, rfl⟩
    (whenever_of_checkRun (computes_of_eq fun _ _ _ _ h => h) (by decide))).mpr
    (whenever_of_checkRun (computes_of_eq fun _ _ _ _ h => h) (by decide))

/-- The receiver takes a message and is switched away from; the thread that runs
next sends to the same queue. -/
theorem send_into_open_iteration :
    Whenever (Sys.Step Kalloc.above 1) (Sys.Enabled 1) Sys.start
        [.send [97], .timer 1, .recv 16, .timer 2, .send [98]] ∧
      ¬ Upon (Sys.Step Kalloc.above 1) NotDeadlocked Sys.start
        [.send [97], .timer 1, .recv 16, .timer 2, .send [98]] := by
  refine ⟨whenever_of_checkRun (computes_of_eq fun _ _ _ _ h => h) (by decide), fun h => ?_⟩
  have hlast := ((((h _ () rfl).2 _ () rfl).2 _ () rfl).2 _ () rfl).2 _ () rfl
  exact hlast.1 ⟨2, [98], 1, rfl, rfl, by decide, by decide⟩

end Frosk.Queue

import Mathlib.Tactic
import Frosk.Lib.Run
import Frosk.Keyboard.Definitions

/-!
# Keyboard: the order of scancodes

A scancode that finds the file locked waits in the list, and the worker takes the list
in its order. One that finds the file free is stored at once, whatever waits: it
overtakes what came before it. And one that finds the file locked while the worker
has the lock of the list never gets there: the interrupt spins, and the worker, which
would have to give the lock back, does not run again.

Main result: `in_order_iff`, over every interleaving: scancodes are stored in the order
of their interrupts, each once, exactly if no interrupt comes at such a moment.
-/

namespace Frosk.Keyboard

open Lib

/-- The scancode that the worker has taken from the list and not stored yet. -/
def Worker.hand : Worker → List Item
  | .unlock l => [l]
  | .try l => [l]
  | .store l => [l]
  | _ => []

/-- What waits to be stored. -/
def State.pending (s : State) : List Item := s.worker.hand ++ s.list

/-- Steps of the worker alone. -/
def workFor : Nat → State → Option State
  | 0, s => some s
  | n + 1, s => (kbPutDelayed s).bind (workFor n)

/-- What is stored and then what waits are the scancodes of the interrupts in the order
they came. When no process has the file, the worker stores what waits. -/
structure InOrder (s : State) : Prop where
  order  : s.stored ++ s.pending = s.arrived
  served : s.user = false → ∃ n s', workFor n s = some s' ∧ s'.stored = s.arrived

def Step (s : State) (a : Act) (s' : State) (_ : Unit) : Prop := act s a = some s'

/-- An interrupt that finds the file free finds nothing waiting, and one that finds it
locked finds the list free. -/
def Undisturbed (s : State) : Act → Prop
  | .interrupt _ =>
    (s.kb.lock = .UNLOCKED → s.pending = []) ∧ (s.kb.lock = .LOCKED → s.lsLock = .UNLOCKED)
  | _ => True

/-- Before the first interrupt. -/
def State.start (kb : Kb) : State :=
  ⟨{ kb with lock := .UNLOCKED }, [], .UNLOCKED, .none, false, [], []⟩

-- ---------------------------------------------------------------------------
-- What every step keeps
-- ---------------------------------------------------------------------------

/-- Where the worker has the lock of the file. -/
def Worker.HasFile : Worker → Prop
  | .store _ => True
  | .release _ => True
  | _ => False

/-- Where the worker has the lock of the list. -/
def Worker.HasList : Worker → Prop
  | .take => True
  | .unlock _ => True
  | _ => False

/-- Where the worker relies on the list not being empty. -/
def Worker.Takes : Worker → Prop
  | .getlock => True
  | .take => True
  | _ => False

structure Inv (s : State) : Prop where
  order  : s.stored ++ s.pending = s.arrived
  nums   : s.arrived.map Item.num = List.range s.arrived.length
  file   : s.kb.lock = .LOCKED ↔ s.user = true ∨ s.worker.HasFile
  one    : s.user = true → ¬ s.worker.HasFile
  ls     : s.lsLock = .LOCKED ↔ s.worker.HasList
  takes  : s.worker.Takes → s.list ≠ []
  idle   : s.worker = .none → s.list = []

/-- The invariant holds at the start. -/
theorem start_inv (kb : Kb) : Inv (State.start kb) where
  order := rfl
  nums := rfl
  file := by simp [State.start, Worker.HasFile]
  one := fun _ h => h
  ls := by simp [State.start, Worker.HasList]
  takes := fun h => h.elim
  idle := fun _ => rfl

/-- The scancode of the next interrupt. -/
def State.next (s : State) (sc : UInt8) : Item := ⟨sc, s.arrived.length⟩

/-- The codes are numbered as they arrive. -/
theorem nums_next {s : State} (h : s.arrived.map Item.num = List.range s.arrived.length)
    (sc : UInt8) : (s.arrived ++ [s.next sc]).map Item.num =
      List.range (s.arrived ++ [s.next sc]).length := by
  rw [List.map_append, h, List.length_append]
  exact List.range_succ.symm

-- ---------------------------------------------------------------------------
-- The interrupt
-- ---------------------------------------------------------------------------

/-- The interrupt stores the code when the lock is free. -/
theorem kbPut_free {s : State} (h : s.kb.lock = .UNLOCKED) (sc : UInt8) :
    kbPut sc s = some { s with
      kb := store sc s.kb
      arrived := s.arrived ++ [s.next sc]
      stored := s.stored ++ [s.next sc] } := by
  rw [kbPut]
  simp only [kbPutActual_free h]
  rfl

/-- The worker after an interrupt has put something on the list. -/
def Worker.awake : Worker → Worker
  | .none => .check
  | w => w

/-- The interrupt defers the code when the lock is held. -/
theorem kbPut_locked {s : State} (h : s.kb.lock = .LOCKED) (hls : s.lsLock = .UNLOCKED)
    (sc : UInt8) :
    kbPut sc s = some { s with
      list := s.list ++ [s.next sc]
      arrived := s.arrived ++ [s.next sc]
      worker := s.worker.awake } := by
  rw [kbPut]
  simp only [kbPutActual_locked h, hls, getlock]
  cases s.worker <;> simp [Worker.awake, State.next, ← hls]

/-- It spins when the list is locked too. -/
theorem kbPut_spins {s : State} (h : s.kb.lock = .LOCKED) (hls : s.lsLock = .LOCKED)
    (sc : UInt8) : kbPut sc s = none := by
  rw [kbPut]
  simp only [kbPutActual_locked h, hls, getlock]
  rfl

/-- An undisturbed interrupt returns and keeps the invariant. -/
theorem interrupt_inv {s : State} (h : Inv s) (sc : UInt8)
    (hundisturbed : Undisturbed s (.interrupt sc)) : ∃ s', kbPut sc s = some s' ∧ Inv s' := by
  cases hlock : s.kb.lock with
  | UNLOCKED =>
    have hnone : s.pending = [] := hundisturbed.1 hlock
    refine ⟨_, kbPut_free hlock sc, ?_, nums_next h.nums sc, h.file, h.one, h.ls, h.takes,
      h.idle⟩
    show s.stored ++ [s.next sc] ++ s.pending = s.arrived ++ [s.next sc]
    rw [← h.order, hnone]
    simp
  | LOCKED =>
    have hls : s.lsLock = .UNLOCKED := hundisturbed.2 hlock
    have hfile : s.worker.awake.HasFile ↔ s.worker.HasFile := by cases s.worker <;> rfl
    refine ⟨_, kbPut_locked hlock hls sc, ?_, nums_next h.nums sc, ?_, ?_, ?_, ?_, ?_⟩
    · show s.stored ++ (s.worker.awake.hand ++ (s.list ++ [s.next sc])) = s.arrived ++ [s.next sc]
      have hhand : s.worker.awake.hand = s.worker.hand := by cases s.worker <;> rfl
      rw [← h.order, hhand, State.pending]
      simp
    · show s.kb.lock = .LOCKED ↔ s.user = true ∨ s.worker.awake.HasFile
      rw [hfile]
      exact h.file
    · show s.user = true → ¬ s.worker.awake.HasFile
      rw [hfile]
      exact h.one
    · have hhas : s.worker.awake.HasList ↔ s.worker.HasList := by cases s.worker <;> rfl
      simpa [hhas] using h.ls
    · intro _
      simp
    · intro hidle
      have hawake : s.worker.awake ≠ .none := by cases s.worker <;> nofun
      exact absurd hidle hawake

/-- What is stored at once overtakes what waits. -/
theorem interrupt_overtakes {s s' : State} (h : Inv s) {sc : UInt8} (hlock : s.kb.lock = .UNLOCKED)
    (hpending : s.pending ≠ []) (hput : kbPut sc s = some s') : ¬ InOrder s' := by
  intro hin
  rw [kbPut_free hlock] at hput
  obtain rfl := Option.some.inj hput
  obtain ⟨l, ls, hl⟩ := List.exists_cons_of_ne_nil hpending
  have horder : s.stored ++ [s.next sc] ++ s.pending = s.arrived ++ [s.next sc] := hin.order
  rw [← h.order, hl, List.append_assoc, List.append_assoc] at horder
  have hfirst : s.next sc = l := (List.cons.inj (List.append_cancel_left horder)).1
  -- the number of the new scancode is not one that has arrived
  have hmem : (s.next sc).num ∈ s.arrived.map Item.num := by
    refine List.mem_map_of_mem ?_
    rw [← h.order, hl, hfirst]
    exact List.mem_append_right _ List.mem_cons_self
  rw [h.nums, List.mem_range] at hmem
  exact absurd hmem (Nat.lt_irrefl _)

-- ---------------------------------------------------------------------------
-- Processes and the worker
-- ---------------------------------------------------------------------------

/-- Taking the lock keeps the invariant. -/
theorem acquire_inv {s : State} (h : Inv s) : Inv (acquire s) := by
  have hfile := h.file
  have hone := h.one
  cases hlock : s.kb.lock with
  | LOCKED =>
    have hsame : acquire s = s := by
      obtain ⟨⟨buffer, head, size, lock⟩, list, lsLock, worker, user, arrived, stored⟩ := s
      obtain rfl : lock = .LOCKED := hlock
      simp [acquire, trylock]
    rw [hsame]
    exact h
  | UNLOCKED =>
    have hnone : ¬ s.worker.HasFile := fun hw => by simp [hlock, hw] at hfile
    refine ⟨h.order, h.nums, ?_, fun _ => hnone, h.ls, h.takes, h.idle⟩
    simp [acquire, trylock, hlock]

/-- Giving the lock back keeps the invariant. -/
theorem release_inv {s : State} (h : Inv s) : Inv (release s) := by
  rw [release]
  split
  · rename_i huser
    refine ⟨h.order, h.nums, ?_, nofun, h.ls, h.takes, h.idle⟩
    simp [h.one huser]
  · exact h

/-- The worker never spins on the lock of the list, and never takes from an empty list. -/
theorem work_inv {s : State} (h : Inv s) : ∃ s', kbPutDelayed s = some s' ∧ Inv s' ∧
    s'.arrived = s.arrived ∧ s'.user = s.user := by
  obtain ⟨kb, list, lsLock, worker, user, arrived, stored⟩ := s
  obtain ⟨horder, hnums, hfile, hone, hls, htakes, hidle⟩ := h
  cases worker with
  | none => exact ⟨_, rfl, ⟨horder, hnums, hfile, hone, hls, htakes, hidle⟩, rfl, rfl⟩
  | check =>
    cases list with
    | nil => exact ⟨_, rfl, ⟨horder, hnums, hfile, hone, hls, htakes, hidle⟩, rfl, rfl⟩
    | cons l list =>
      exact ⟨_, rfl, ⟨horder, hnums, hfile, hone, hls, fun _ => List.cons_ne_nil l list, nofun⟩,
        rfl, rfl⟩
  | getlock =>
    have hfree : lsLock = .UNLOCKED := by
      cases lsLock with
      | LOCKED => exact (hls.mp rfl).elim
      | UNLOCKED => rfl
    subst hfree
    exact ⟨_, rfl, ⟨horder, hnums, hfile, hone, by simp [Worker.HasList], htakes, nofun⟩, rfl, rfl⟩
  | take =>
    cases list with
    | nil => exact absurd rfl (htakes trivial)
    | cons l list => exact ⟨_, rfl, ⟨horder, hnums, hfile, hone, hls, nofun, nofun⟩, rfl, rfl⟩
  | unlock l =>
    exact ⟨_, rfl, ⟨horder, hnums, hfile, hone, by simp [Worker.HasList], nofun, nofun⟩, rfl, rfl⟩
  | «try» l =>
    obtain ⟨buffer, head, size, lock⟩ := kb
    cases lock with
    | LOCKED => exact ⟨_, rfl, ⟨horder, hnums, hfile, hone, hls, nofun, nofun⟩, rfl, rfl⟩
    | UNLOCKED =>
      refine ⟨_, rfl, ⟨horder, hnums, ?_, ?_, hls, nofun, nofun⟩, rfl, rfl⟩
      · simp [Worker.HasFile]
      · intro huser
        exact absurd (hfile.mpr (.inl huser)) (by simp)
  | store l =>
    refine ⟨_, rfl, ⟨?_, hnums, hfile, hone, hls, nofun, nofun⟩, rfl, rfl⟩
    show stored ++ [l] ++ ([] ++ list) = arrived
    have hhand : stored ++ ([l] ++ list) = arrived := horder
    rw [← hhand, List.append_assoc, List.nil_append]
  | release l =>
    refine ⟨_, rfl, ⟨horder, hnums, ?_, ?_, hls, nofun, nofun⟩, rfl, rfl⟩
    · have huser : user ≠ true := fun hu => hone hu trivial
      simp [Worker.HasFile, huser]
    · exact fun _ hw => hw

-- ---------------------------------------------------------------------------
-- The worker stores what waits
-- ---------------------------------------------------------------------------

/-- How far the worker is from the end of its round. -/
def Worker.rank : Worker → Nat
  | .none => 0
  | .check => 6
  | .getlock => 5
  | .take => 4
  | .unlock _ => 10
  | .try _ => 9
  | .store _ => 8
  | .release _ => 7

def State.rank (s : State) : Nat := 7 * s.list.length + s.worker.rank

/-- Each round of the worker has less left to do. -/
theorem work_progress {s s' : State} (h : Inv s) (huser : s.user = false) (hpending : s.pending ≠ [])
    (hwork : kbPutDelayed s = some s') : s'.rank < s.rank := by
  obtain ⟨⟨buffer, head, size, lock⟩, list, lsLock, worker, user, arrived, stored⟩ := s
  cases worker with
  | none =>
    have hlist : list = [] := h.idle rfl
    exact absurd hlist hpending
  | check =>
    cases list with
    | nil => exact absurd rfl hpending
    | cons l list =>
      obtain rfl := Option.some.inj hwork
      exact Nat.lt_succ_self _
  | getlock =>
    cases lsLock with
    | LOCKED => exact (h.ls.mp rfl).elim
    | UNLOCKED =>
      obtain rfl := Option.some.inj hwork
      exact Nat.lt_succ_self _
  | take =>
    cases list with
    | nil => exact absurd rfl (h.takes trivial)
    | cons l list =>
      obtain rfl := Option.some.inj hwork
      show 7 * list.length + 10 < 7 * (list.length + 1) + 4
      omega
  | «try» l =>
    cases lock with
    | LOCKED =>
      -- nobody has the file
      have hheld : user = true ∨ False := h.file.mp rfl
      simp [show user = false from huser] at hheld
    | UNLOCKED =>
      obtain rfl := Option.some.inj hwork
      exact Nat.lt_succ_self _
  | unlock l | store l | release l =>
    obtain rfl := Option.some.inj hwork
    exact Nat.lt_succ_self _

/-- So the worker comes to the end of the list. -/
theorem worker_serves (n : Nat) : ∀ {s : State}, s.rank = n → Inv s → s.user = false →
    ∃ k s', workFor k s = some s' ∧ s'.stored = s.arrived := by
  induction n using Nat.strong_induction_on with
  | _ n ih =>
    intro s hrank h huser
    by_cases hpending : s.pending = []
    · have horder := h.order
      rw [hpending, List.append_nil] at horder
      exact ⟨0, s, rfl, horder⟩
    · obtain ⟨s₁, hwork, hinv, harrived, huser₁⟩ := work_inv h
      have hless : s₁.rank < n := hrank ▸ work_progress h huser hpending hwork
      obtain ⟨k, s', hrun, hstored⟩ := ih _ hless rfl hinv (huser₁.trans huser)
      refine ⟨k + 1, s', ?_, hstored.trans harrived⟩
      rw [workFor, hwork]
      exact hrun

/-- In the invariant the stored codes are in order. -/
theorem Inv.inOrder {s : State} (h : Inv s) : InOrder s :=
  ⟨h.order, worker_serves s.rank rfl h⟩

/-- Over every interleaving of interrupts, processes and the worker: no step spins and
scancodes are stored in order, each once, if and only if every interrupt that finds the
file free finds nothing waiting, and every other finds the list free. -/
theorem in_order_iff (kb : Kb) (acts : List Act) :
    Along Step (fun _ _ s' _ => InOrder s') (State.start kb) acts ↔
      Whenever Step Undisturbed (State.start kb) acts := by
  have hgood : ∀ s a, Inv s → True → Undisturbed s a →
      ∃ s' b, Step s a s' b ∧ InOrder s' ∧ Inv s' := by
    intro s a hinv _ hundisturbed
    have hstep : ∃ s', act s a = some s' ∧ Inv s' := by
      cases a with
      | interrupt sc => exact interrupt_inv hinv sc hundisturbed
      | acquire => exact ⟨_, rfl, acquire_inv hinv⟩
      | release => exact ⟨_, rfl, release_inv hinv⟩
      | work =>
        obtain ⟨s', hwork, hinv', -⟩ := work_inv hinv
        exact ⟨s', hwork, hinv'⟩
    obtain ⟨s', hact, hinv'⟩ := hstep
    exact ⟨s', (), hact, hinv'.inOrder, hinv'⟩
  have hbad : ∀ s a s' b, Inv s → True → ¬ Undisturbed s a → Step s a s' b → ¬ InOrder s' := by
    intro s a s' b hinv _ hdisturbed hstep
    cases a with
    | interrupt sc =>
      cases hlock : s.kb.lock with
      | UNLOCKED =>
        have hpending : s.pending ≠ [] := by
          intro hnone
          exact hdisturbed ⟨fun _ => hnone, fun h => by simp [hlock] at h⟩
        exact interrupt_overtakes hinv hlock hpending hstep
      | LOCKED =>
        have hls : s.lsLock = .LOCKED := by
          cases hls : s.lsLock with
          | LOCKED => rfl
          | UNLOCKED => exact absurd ⟨fun h => by simp [hlock] at h, fun _ => hls⟩ hdisturbed
        have hspins := kbPut_spins hlock hls sc
        exact absurd (hspins.symm.trans hstep) nofun
    | acquire | release | work => exact absurd trivial hdisturbed
  have hdet : ∀ s a s₁ (b₁ : Unit) s₂ b₂, Step s a s₁ b₁ → Step s a s₂ b₂ →
      s₁ = s₂ ∧ b₁ = b₂ :=
    fun s a s₁ b₁ s₂ b₂ h₁ h₂ => ⟨Option.some.inj (h₁.symm.trans h₂), rfl⟩
  exact along_iff_whenever hgood hbad hdet (start_inv kb) (whenever_of_forall fun _ _ => trivial)

/-- A process takes the file, the first scancode is put off, the process gives the file
back, and the second scancode is stored before the first. -/
theorem second_overtakes_first :
    ¬ Along Step (fun _ _ s' _ => InOrder s') (State.start ⟨fun _ => 0, 1023, 0, .UNLOCKED⟩)
      [.acquire, .interrupt 30, .release, .interrupt 48] := by
  intro h
  have hcheck := checkPost_of_along (computes_of_eq fun _ _ _ _ hstep => hstep)
    (q := fun _ _ s' _ => decide (s'.stored ++ s'.pending = s'.arrived))
    (fun _ _ _ _ hin => decide_eq_true hin.order) h
  exact absurd hcheck (by decide)

end Frosk.Keyboard

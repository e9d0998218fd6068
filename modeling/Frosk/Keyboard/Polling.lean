import Frosk.Keyboard.Buffer
import Frosk.Keyboard.Order

/-!
# Keyboard: a process that reads all there is

A process that acquires the file `kb`, reads as much as its size says, and releases
it, gets the scancodes in the order in which they were stored, newest first each time.
`Polled` is what holds before and after every step of the interrupt, of the worker and
of the process: nothing is stored while the process has the lock, so the size it asked
for is still the size when it reads.

What is asked of the run is `HasRoom`: that a scancode is only stored if the buffer is
not full.
-/

namespace Frosk.Keyboard

/-- The worker is about to store. -/
def Worker.Stores : Worker → Prop
  | .store _ => True
  | _ => False

instance : (w : Worker) → Decidable w.Stores
  | .store _ => isTrue trivial
  | .none | .check | .getlock | .take | .unlock _ | .try _ | .release _ => isFalse id

/-- A step that stores finds room. -/
def HasRoom (s : State) : Act → Prop
  | .interrupt _ => s.kb.lock = .UNLOCKED → s.kb.size < kbBufferSize
  | .work => s.worker.Stores → s.kb.size < kbBufferSize
  | _ => True

instance (s : State) : (a : Act) → Decidable (HasRoom s a)
  | .interrupt _ => inferInstanceAs (Decidable (_ → _))
  | .work => inferInstanceAs (Decidable (_ → _))
  | .acquire | .release => isTrue trivial

/-- The keyboard and the scancodes that the process has read, and those it has not,
the newest first. -/
structure Polled (s : State) (polled unread : List UInt8) : Prop where
  file   : s.kb.lock = .LOCKED ↔ s.user = true ∨ s.worker.HasFile
  one    : s.user = true → ¬ s.worker.HasFile
  stack  : Stack ⟨{ s.kb with lock := .UNLOCKED }, unread⟩
  stored : s.stored.map Item.sc = polled ++ unread.reverse

variable {s s' : State} {polled unread : List UInt8}

/-- At the start nothing is unread. -/
theorem start_polled (buffer : Int → UInt8) : Polled (State.start (Unread.start buffer).kb) [] [] where
  file := by simp [State.start, Worker.HasFile]
  one := fun h => by cases h
  stack := start_stack buffer
  stored := rfl

/-- The buffer holds what is unread. -/
theorem Polled.size (h : Polled s polled unread) : s.kb.size = unread.length := h.stack.size

/-- One more scancode is stored. -/
theorem Polled.store (h : Polled s polled unread) (l : Item) (hroom : s.kb.size < kbBufferSize) :
    Stack ⟨{ store l.sc s.kb with lock := .UNLOCKED }, l.sc :: unread⟩ ∧
      (s.stored ++ [l]).map Item.sc = polled ++ (l.sc :: unread).reverse := by
  refine ⟨(put_good h.stack l.sc hroom).2, ?_⟩
  rw [List.map_append, h.stored, List.reverse_cons, List.append_assoc]
  rfl

/-- What an interrupt or the worker does: it stores one scancode or none, and none
while the process has the lock. -/
def Grows (s s' : State) (unread unread' : List UInt8) : Prop :=
  s'.user = s.user ∧ (s.user = true → unread' = unread)

/-- An interrupt adds to what is unread. -/
theorem interrupt_polled (h : Polled s polled unread) {sc : UInt8}
    (hroom : HasRoom s (.interrupt sc)) (hput : kbPut sc s = some s') :
    ∃ unread', Polled s' polled unread' ∧ Grows s s' unread unread' := by
  cases hlock : s.kb.lock with
  | UNLOCKED =>
    have huser : ¬ (s.user = true ∨ s.worker.HasFile) := fun hheld =>
      absurd (h.file.mpr hheld) (by rw [hlock]; decide)
    obtain ⟨hstack, hstored⟩ := h.store (s.next sc) (hroom hlock)
    obtain rfl := Option.some.inj ((kbPut_free hlock sc).symm.trans hput)
    refine ⟨sc :: unread, ⟨?_, h.one, hstack, hstored⟩, rfl, fun hu => absurd (.inl hu) huser⟩
    show s.kb.lock = .LOCKED ↔ _
    exact h.file
  | LOCKED =>
    cases hls : s.lsLock with
    | LOCKED => exact absurd ((kbPut_spins hlock hls sc).symm.trans hput) (by simp)
    | UNLOCKED =>
      obtain rfl := Option.some.inj ((kbPut_locked hlock hls sc).symm.trans hput)
      have hawake : s.worker.awake.HasFile ↔ s.worker.HasFile := by
        cases s.worker <;> exact Iff.rfl
      refine ⟨unread, ⟨?_, ?_, h.stack, h.stored⟩, rfl, fun _ => rfl⟩
      · show s.kb.lock = .LOCKED ↔ s.user = true ∨ s.worker.awake.HasFile
        rw [hawake]
        exact h.file
      · show s.user = true → ¬ s.worker.awake.HasFile
        rw [hawake]
        exact h.one

/-- A round of the worker adds to what is unread as well. -/
theorem work_polled (h : Polled s polled unread) (hroom : HasRoom s .work)
    (hwork : kbPutDelayed s = some s') :
    ∃ unread', Polled s' polled unread' ∧ Grows s s' unread unread' := by
  -- a step that neither stores nor touches the lock of the file
  have hkeep : ∀ t : State, t.kb = s.kb → t.user = s.user → t.stored = s.stored →
      (t.worker.HasFile ↔ s.worker.HasFile) →
        ∃ unread', Polled t polled unread' ∧ Grows s t unread unread' := by
    intro t hkb huser hstored hfile
    refine ⟨unread, ⟨?_, ?_, ?_, ?_⟩, huser, fun _ => rfl⟩
    · rw [hkb, huser, hfile]
      exact h.file
    · rw [huser, hfile]
      exact h.one
    · rw [hkb]
      exact h.stack
    · rw [hstored]
      exact h.stored
  unfold kbPutDelayed at hwork
  cases hworker : s.worker with
  | none =>
    rw [hworker] at hwork
    obtain rfl := Option.some.inj hwork
    exact hkeep _ rfl rfl rfl Iff.rfl
  | check =>
    simp only [hworker] at hwork
    split at hwork
    · obtain rfl := Option.some.inj hwork
      exact hkeep _ rfl rfl rfl (by rw [hworker]; exact Iff.rfl)
    · obtain rfl := Option.some.inj hwork
      exact hkeep _ rfl rfl rfl Iff.rfl
  | getlock =>
    simp only [hworker] at hwork
    split at hwork
    · cases hwork
    · obtain rfl := Option.some.inj hwork
      exact hkeep _ rfl rfl rfl (by rw [hworker]; exact Iff.rfl)
  | take =>
    simp only [hworker] at hwork
    split at hwork
    · cases hwork
    · obtain rfl := Option.some.inj hwork
      exact hkeep _ rfl rfl rfl (by rw [hworker]; exact Iff.rfl)
  | unlock l =>
    simp only [hworker] at hwork
    obtain rfl := Option.some.inj hwork
    exact hkeep _ rfl rfl rfl (by rw [hworker]; exact Iff.rfl)
  | «try» l =>
    have hnone : ¬ s.worker.HasFile := by
      rw [hworker]
      exact id
    cases hlock : s.kb.lock with
    | LOCKED =>
      simp only [hworker, hlock, trylock] at hwork
      obtain rfl := Option.some.inj hwork
      exact hkeep _ (by simp [← hlock]) rfl rfl (by rw [hworker])
    | UNLOCKED =>
      have huser : ¬ s.user = true := fun hu =>
        absurd (h.file.mpr (.inl hu)) (by rw [hlock]; decide)
      simp only [hworker, hlock, trylock] at hwork
      obtain rfl := Option.some.inj hwork
      refine ⟨unread, ⟨?_, fun hu => absurd hu huser, h.stack, h.stored⟩, rfl, fun _ => rfl⟩
      simp [Worker.HasFile]
  | store l =>
    have hfile : s.worker.HasFile := by
      rw [hworker]
      trivial
    have huser : ¬ s.user = true := fun hu => h.one hu hfile
    simp only [hworker] at hwork
    obtain rfl := Option.some.inj hwork
    obtain ⟨hstack, hstored⟩ := h.store l (hroom (by rw [hworker]; trivial))
    refine ⟨l.sc :: unread, ⟨?_, fun hu => absurd hu huser, hstack, hstored⟩, rfl,
      fun hu => absurd hu huser⟩
    show s.kb.lock = .LOCKED ↔ _
    exact ⟨fun _ => .inr trivial, fun _ => h.file.mpr (.inr hfile)⟩
  | release l =>
    have huser : ¬ s.user = true := fun hu => h.one hu (by rw [hworker]; trivial)
    simp only [hworker] at hwork
    obtain rfl := Option.some.inj hwork
    refine ⟨unread, ⟨?_, fun hu => absurd hu huser, h.stack, h.stored⟩, rfl, fun _ => rfl⟩
    simp [Worker.HasFile, huser]

/-- The process gets the lock if nobody has it. -/
theorem acquire_polled (h : Polled s polled unread) (huser : s.user = false) :
    Polled (acquire s) polled unread ∧ ((acquire s).user = true ↔ s.kb.lock = .UNLOCKED) := by
  cases hlock : s.kb.lock with
  | UNLOCKED =>
    have hnone : ¬ s.worker.HasFile := fun hfile =>
      absurd (h.file.mpr (.inr hfile)) (by rw [hlock]; decide)
    have hacquire : acquire s = { s with kb := { s.kb with lock := .LOCKED }, user := true } := by
      simp [acquire, trylock, hlock]
    rw [hacquire]
    exact ⟨⟨by simp, fun _ => hnone, h.stack, h.stored⟩, by simp⟩
  | LOCKED =>
    have hkb : { s.kb with lock := .LOCKED } = s.kb := by rw [← hlock]
    have hacquire : acquire s = s := by
      unfold acquire trylock
      dsimp only
      rw [hkb, hlock]
      show { s with user := s.user || false } = s
      rw [Bool.or_false]
    rw [hacquire]
    exact ⟨h, by simp [huser]⟩

/-- Giving the lock back changes nothing unread. -/
theorem release_polled (h : Polled s polled unread) :
    Polled (release s) polled unread ∧ (release s).user = false := by
  unfold release
  split
  · rename_i huser
    refine ⟨⟨?_, fun hu => absurd hu Bool.false_ne_true, h.stack, h.stored⟩, rfl⟩
    have hnone := h.one huser
    simp [hnone]
  · rename_i huser
    exact ⟨h, by simpa using huser⟩

/-- A read of all there is. -/
theorem read_polled (h : Polled s polled unread) :
    Polled { s with kb := (kbFsRead s.kb.size s.kb).1 } (polled ++ unread.reverse) [] ∧
      (kbFsRead s.kb.size s.kb).2.map s.kb.buffer = unread := by
  obtain ⟨hwithin, hstack⟩ := read_good h.stack 0 s.kb.size
  have hbytes : (kbFsRead s.kb.size s.kb).2.map s.kb.buffer = unread.take s.kb.size := hwithin.bytes
  have hrest : Stack ⟨{ (kbFsRead s.kb.size s.kb).1 with lock := .UNLOCKED },
      unread.drop s.kb.size⟩ := hstack
  rw [List.take_of_length_le h.size.ge] at hbytes
  rw [List.drop_eq_nil_of_le h.size.ge] at hrest
  refine ⟨⟨h.file, h.one, hrest, ?_⟩, hbytes⟩
  rw [List.reverse_nil, List.append_nil]
  exact h.stored

end Frosk.Keyboard

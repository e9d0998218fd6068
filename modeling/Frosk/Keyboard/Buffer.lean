import Mathlib.Tactic
import Frosk.Lib.Run
import Frosk.Keyboard.Definitions

/-!
# Keyboard: the buffer

While no more scancodes are unread than the buffer has places, it is a stack that
begins at place 0: the newest scancode is at `head`, one below the file size, and a
read takes the newest ones off. Nothing keeps the file size from growing beyond the
buffer.

Main result: `buffer_iff`, over every run of puts and reads: all places are in the
buffer, the size stays within it, and reads return the newest scancodes, exactly if
no put is made when the buffer is full.
-/

namespace Frosk.Keyboard

open Lib

inductive Call where
  | put (sc : UInt8)
  | read (addr size : Nat)

/-- The keyboard, and the scancodes that are unread, the newest first. -/
structure Unread where
  kb     : Kb
  unread : List UInt8

/-- The places a call uses, and the bytes it returns. -/
structure Used where
  places : List Int
  bytes  : List UInt8

def Unread.call (s : Unread) : Call → Unread × Used
  | .put sc =>
    let (kb, _) := kbPutActual sc s.kb
    (⟨kb, sc :: s.unread⟩, ⟨[kb.head], []⟩)
  | .read _ size =>
    let (kb, places) := kbFsRead size s.kb
    (⟨kb, s.unread.drop size⟩, ⟨places, places.map s.kb.buffer⟩)

def Unread.Step (s : Unread) (a : Call) (s' : Unread) (b : Used) : Prop := s.call a = (s', b)

/-- The bytes that a call has to return: the newest ones. -/
def Call.newest (s : Unread) : Call → List UInt8
  | .put _ => []
  | .read _ size => s.unread.take size

/-- The places are in the buffer, which holds what the file size says, and the bytes
are the newest ones. -/
structure Within (s : Unread) (a : Call) (s' : Unread) (b : Used) : Prop where
  places : ∀ i ∈ b.places, 0 ≤ i ∧ i < kbBufferSize
  size   : s'.kb.size ≤ kbBufferSize
  bytes  : b.bytes = a.newest s

/-- A put finds room. -/
def Call.HasRoom (s : Unread) : Call → Prop
  | .put _ => s.kb.size < kbBufferSize
  | .read .. => True

/-- Nothing was put, whatever the buffer holds. -/
def Unread.start (buffer : Int → UInt8) : Unread :=
  ⟨⟨buffer, kbBufferSize - 1, 0, .UNLOCKED⟩, []⟩

-- ---------------------------------------------------------------------------
-- The buffer as a stack
-- ---------------------------------------------------------------------------

/-- The unread scancodes are in the first places, the newest at `head`. -/
structure Stack (s : Unread) : Prop where
  size  : s.kb.size = s.unread.length
  room  : s.kb.size ≤ kbBufferSize
  head  : s.kb.head = s.kb.size - 1 ∨ s.kb.size = 0 ∧ s.kb.head = kbBufferSize - 1
  place : ∀ i (hi : i < s.unread.length), s.kb.buffer (s.kb.size - 1 - i) = s.unread[i]
  lock  : s.kb.lock = .UNLOCKED

/-- The empty buffer is a stack. -/
theorem start_stack (buffer : Int → UInt8) : Stack (Unread.start buffer) :=
  ⟨rfl, Nat.zero_le _, .inr ⟨rfl, rfl⟩, fun i hi => absurd hi (Nat.not_lt_zero i), rfl⟩

/-- The place of a new scancode. -/
theorem Stack.next {s : Unread} (h : Stack s) (hroom : s.kb.size < kbBufferSize) :
    (s.kb.head + 1).tmod kbBufferSize = s.kb.size := by
  rcases h.head with hhead | ⟨hsize, hhead⟩
  · rw [hhead, Int.sub_add_cancel]
    exact Int.tmod_eq_of_lt (by omega) (by omega)
  · rw [hhead, hsize]
    rfl

/-- A put with room left stays within the buffer and keeps the stack. -/
theorem put_good {s : Unread} (h : Stack s) (sc : UInt8) (hroom : s.kb.size < kbBufferSize) :
    Within s (.put sc) (s.call (.put sc)).1 (s.call (.put sc)).2 ∧ Stack (s.call (.put sc)).1 := by
  have hplace := h.next hroom
  have hsize : (s.kb.size + 1) % wordSize = s.kb.size + 1 := by
    refine Nat.mod_eq_of_lt ?_
    unfold kbBufferSize wordSize at *
    omega
  have hcall : s.call (.put sc) = (⟨{ s.kb with
      head := s.kb.size
      buffer := Function.update s.kb.buffer s.kb.size sc
      size := s.kb.size + 1 }, sc :: s.unread⟩, ⟨[(s.kb.size : Int)], []⟩) := by
    rw [Unread.call, kbPutActual_free h.lock, store, hplace, hsize]
  rw [hcall]
  constructor
  · refine ⟨?_, hroom, rfl⟩
    intro i hi
    rw [List.mem_singleton.mp hi]
    exact ⟨by omega, by omega⟩
  · refine ⟨?_, hroom, .inl ?_, ?_, h.lock⟩
    · exact congrArg (· + 1) h.size
    · show (s.kb.size : Int) = ((s.kb.size + 1 : Nat) : Int) - 1
      omega
    · intro i hi
      show Function.update s.kb.buffer s.kb.size sc (((s.kb.size + 1 : Nat) : Int) - 1 - i) = _
      cases i with
      | zero =>
        have hlast : ((s.kb.size + 1 : Nat) : Int) - 1 - (0 : Nat) = s.kb.size := by omega
        rw [hlast, Function.update_self]
        rfl
      | succ i =>
        have hbelow : ((s.kb.size + 1 : Nat) : Int) - 1 - ((i + 1 : Nat) : Int) =
            s.kb.size - 1 - i := by omega
        have hne : ((s.kb.size : Int) - 1 - i) ≠ s.kb.size := by omega
        rw [hbelow, Function.update_of_ne hne]
        exact h.place i (by simpa using hi)

/-- The loop goes down from `head`, and ends below the last place it read. -/
theorem readLoop_spec (n : Nat) (head : Int) (hlow : (n : Int) ≤ head + 1)
    (hhigh : head < kbBufferSize) :
    readLoop n head = ((List.range n).map fun i : Nat => head - (i : Int), head - n) := by
  induction n generalizing head with
  | zero => simp [readLoop]
  | succ n ih =>
    have hdown : (head - 1).tmod kbBufferSize = head - 1 := by
      rcases Int.lt_or_le 0 head with hpos | hzero
      · exact Int.tmod_eq_of_lt (by omega) (by omega)
      · obtain rfl : head = 0 := by omega
        rfl
    have hrest : ∀ i : Nat, head - 1 - (i : Int) = head - ((i + 1 : Nat) : Int) := by
      intro i
      omega
    rw [readLoop, hdown, ih (head - 1) (by omega) (by omega), List.range_succ_eq_map, hrest n]
    simp only [List.map_cons, List.map_map, Function.comp_def, hrest, Nat.succ_eq_add_one]
    simp

/-- A read stays within the buffer and keeps the stack. -/
theorem read_good {s : Unread} (h : Stack s) (addr size : Nat) :
    Within s (.read addr size) (s.call (.read addr size)).1 (s.call (.read addr size)).2 ∧
      Stack (s.call (.read addr size)).1 := by
  have hsize := h.size
  have hroom := h.room
  obtain ⟨n, hn⟩ : ∃ n, n = if size > s.kb.size then s.kb.size else size := ⟨_, rfl⟩
  have hle : n ≤ s.kb.size := by
    rw [hn]
    split <;> omega
  have htake : s.unread.take size = s.unread.take n := by
    rw [hn]
    split
    · rw [List.take_of_length_le (by omega), List.take_of_length_le (by omega)]
    · rfl
  have hdrop : s.unread.drop size = s.unread.drop n := by
    rw [hn]
    split
    · rw [List.drop_eq_nil_of_le (by omega), List.drop_eq_nil_of_le (by omega)]
    · rfl
  have hcall : s.call (.read addr size) = (⟨{ s.kb with
      head := (readLoop n s.kb.head).2, size := s.kb.size - n }, s.unread.drop n⟩,
      ⟨(readLoop n s.kb.head).1, (readLoop n s.kb.head).1.map s.kb.buffer⟩) := by
    rw [Unread.call, kbFsRead, ← hn, hdrop]
  rw [hcall]
  rcases Nat.eq_zero_or_pos n with hzero | hpos
  · -- nothing is read
    have hnone : readLoop n s.kb.head = ([], s.kb.head) := by
      rw [hzero]
      rfl
    rw [hnone, hzero]
    refine ⟨⟨by simp, hroom, ?_⟩, hsize, hroom, h.head, h.place, h.lock⟩
    show [] = s.unread.take size
    rw [htake, hzero]
    rfl
  · have hhead : s.kb.head = s.kb.size - 1 := h.head.resolve_right (by omega)
    have hloop := readLoop_spec n s.kb.head (by omega) (by omega)
    rw [hloop]
    refine ⟨⟨?_, ?_, ?_⟩, ?_, ?_, ?_, ?_, h.lock⟩
    · intro i hi
      obtain ⟨k, hk, rfl⟩ := List.mem_map.mp hi
      have hlt := List.mem_range.mp hk
      omega
    · exact (Nat.sub_le ..).trans hroom
    · show ((List.range n).map fun i : Nat => s.kb.head - (i : Int)).map s.kb.buffer =
        s.unread.take size
      rw [htake, List.map_map]
      refine List.ext_getElem (by simp; omega) ?_
      intro i hi hi'
      have hlt : i < s.unread.length := by
        rw [List.length_take] at hi'
        omega
      simp only [List.getElem_map, List.getElem_range, Function.comp_apply, List.getElem_take]
      rw [hhead]
      exact h.place i hlt
    · show s.kb.size - n = (s.unread.drop n).length
      rw [List.length_drop, hsize]
    · exact (Nat.sub_le ..).trans hroom
    · refine .inl ?_
      show s.kb.head - n = ((s.kb.size - n : Nat) : Int) - 1
      omega
    · intro i hi
      have hlt : n + i < s.unread.length := by
        have hlen : i < (s.unread.drop n).length := hi
        rw [List.length_drop] at hlen
        omega
      have hplace := h.place (n + i) hlt
      show s.kb.buffer (((s.kb.size - n : Nat) : Int) - 1 - i) = (s.unread.drop n)[i]
      have hsame : ((s.kb.size - n : Nat) : Int) - 1 - i = s.kb.size - 1 - ((n + i : Nat) : Int) := by
        omega
      rw [hsame, hplace, List.getElem_drop]

/-- A put into a full buffer makes the file larger than the buffer. -/
theorem put_full {s : Unread} (h : Stack s) (sc : UInt8) (hfull : ¬ s.kb.size < kbBufferSize) :
    ¬ Within s (.put sc) (s.call (.put sc)).1 (s.call (.put sc)).2 := by
  intro hwithin
  have hsize := hwithin.size
  rw [Unread.call, kbPutActual_free h.lock] at hsize
  have hroom := h.room
  have hgrown : (s.kb.size + 1) % wordSize ≤ kbBufferSize := hsize
  unfold kbBufferSize wordSize at *
  omega

/-- The next read of more than one scancode then uses the place before the buffer. -/
theorem read_before_buffer {s : Unread} (h : Stack s) (sc : UInt8) (addr : Nat) {size : Nat}
    (hfull : s.kb.size = kbBufferSize) (hsize : 2 ≤ size) :
    (-1) ∈ ((s.call (.put sc)).1.call (.read addr size)).2.places := by
  have hhead : s.kb.head = kbBufferSize - 1 := by
    rcases h.head with hhead | ⟨-, hhead⟩
    · rw [hhead, hfull]
    · exact hhead
  obtain ⟨kb, hkb⟩ : ∃ kb, kb = (s.call (.put sc)).1.kb := ⟨_, rfl⟩
  have hput : kb.head = 0 ∧ kb.size = kbBufferSize + 1 := by
    rw [hkb, Unread.call, kbPutActual_free h.lock, store, hhead, hfull]
    exact ⟨rfl, rfl⟩
  obtain ⟨n, hn⟩ : ∃ n, (if size > kb.size then kb.size else size) = n + 2 := by
    have htwo : 2 ≤ if size > kb.size then kb.size else size := by
      rw [hput.2]
      unfold kbBufferSize
      split <;> omega
    exact ⟨_, (Nat.sub_add_cancel htwo).symm⟩
  show (-1) ∈ (kbFsRead size (s.call (.put sc)).1.kb).2
  rw [← hkb, kbFsRead, hn, readLoop, readLoop, hput.1]
  exact List.mem_cons_of_mem _ List.mem_cons_self

/-- Over every run of puts and reads: places, size and bytes are as they should be if
and only if every put finds room. -/
theorem buffer_iff (buffer : Int → UInt8) (calls : List Call) :
    Along Unread.Step Within (Unread.start buffer) calls ↔
      Whenever Unread.Step Call.HasRoom (Unread.start buffer) calls := by
  have hgood : ∀ s a, Stack s → True → Call.HasRoom s a →
      ∃ s' b, Unread.Step s a s' b ∧ Within s a s' b ∧ Stack s' := by
    intro s a hstack _ hroom
    refine ⟨_, _, rfl, ?_⟩
    cases a with
    | put sc => exact put_good hstack sc hroom
    | read addr size => exact read_good hstack addr size
  have hbad : ∀ s a s' b, Stack s → True → ¬ Call.HasRoom s a → Unread.Step s a s' b →
      ¬ Within s a s' b := by
    intro s a s' b hstack _ hfull hstep
    cases a with
    | put sc =>
      have hput := put_full hstack sc hfull
      rw [show s.call (.put sc) = (s', b) from hstep] at hput
      exact hput
    | read addr size => exact absurd trivial hfull
  have hdet : ∀ s a s₁ b₁ s₂ b₂, Unread.Step s a s₁ b₁ → Unread.Step s a s₂ b₂ →
      s₁ = s₂ ∧ b₁ = b₂ :=
    fun s a s₁ b₁ s₂ b₂ h₁ h₂ => Prod.mk.inj (h₁.symm.trans h₂)
  exact along_iff_whenever hgood hbad hdet (start_stack buffer)
    (whenever_of_forall fun _ _ => trivial)

/-- A step of the buffer is computed by its call. -/
theorem step_computes : Computes (fun s a => some (Unread.call s a)) Unread.Step := by
  intro s a s₁ b₁ s' b hf hstep
  exact Prod.mk.inj (hstep.symm.trans (Option.some.inj hf))

/-- The buffer holds 1024 codes, and the next one overruns it. -/
theorem overfull_after_puts :
    ¬ Along Unread.Step Within (Unread.start fun _ => 0) (List.replicate 1025 (.put 0)) := by
  intro h
  have hcheck := checkPost_of_along step_computes
    (q := fun _ _ s' _ => decide (s'.kb.size ≤ kbBufferSize))
    (fun _ _ _ _ hwithin => decide_eq_true hwithin.size) h
  exact absurd hcheck (by decide +kernel)

end Frosk.Keyboard

import Mathlib.Tactic
import Frosk.Lib.Run
import Frosk.Queue.Order
import Frosk.Stdin.Definitions

/-!
# Standard input: the byte stream

`fgets` takes one message at a time, the oldest, into a buffer that is empty before.
Two things go wrong.

* If the oldest message does not fit, `fgets` makes the buffer larger and calls
  `proc_recv_msg` again, which goes on to the next message and takes that one first.
  With no next message the call ends the iteration, and the next round, with the
  larger buffer, finds the message again.
* At a newline, or at the length limit, the rest of the buffer is thrown away.

Main result: `stream_faithful`, over every interleaving of sends and steps of `fgets` in
which neither happens: what was taken, what is in the buffer and what is queued
together are the bytes sent, in order.
-/

namespace Frosk.Stdin

open Lib
open Queue (Lists Stored Tid)

-- ---------------------------------------------------------------------------
-- The property and the condition
-- ---------------------------------------------------------------------------

/-- The bytes of the messages `l`. -/
def State.queued (y : State) (l : List Ptr) : List UInt8 := l.flatMap y.queue.bytes

/-- Nothing is lost, doubled, out of order or made up; and `fgets` goes on. -/
structure Faithful (junk : Nat → UInt8) (r : Tid) (y : State) : Prop where
  stream  : ∃ l, Lists y.queue l ∧
    y.taken ++ y.file.contents ++ (y.queued l).map stored = y.sent.map stored
  returns : y.pc ≠ .out → ∃ y', y.run junk r = some y'

def Step (K : Kalloc) (junk : Nat → UInt8) (r : Tid) (y : State) (a : Act) (y' : State) (_ : Unit) :
    Prop :=
  y.act K junk r a = some y'

def Scan.isDone : Scan → Bool
  | .done _ => true
  | .more .. => false

/-- The loop ends at one of these bytes. -/
def stops (cs : List Cell) (max : Nat) (line : List UInt8) : Bool := (scan cs max line).2.isDone

/-- Before a `recv_msg`: the oldest message fits in the buffer, or is the only one. Before
the loop over the buffer: no newline or length limit comes before its last byte. -/
def State.WholeAt (y : State) : Pc → Prop
  | .recv => (y.queue.msg y.queue.q.tail).size ≤ y.file.available ∨ y.queue.q.tail = y.queue.q.head
  | .scan => stops y.file.contents.dropLast y.max y.line = false
  | _ => True

def Whole (y : State) : Act → Prop
  | .run => y.WholeAt y.pc
  | _ => True

instance (y : State) : (pc : Pc) → Decidable (y.WholeAt pc)
  | .recv => inferInstanceAs (Decidable (_ ∨ _))
  | .scan => inferInstanceAs (Decidable (_ = _))
  | .out | .retry _ | .consume _ | .stop => isTrue trivial

instance (y : State) : (a : Act) → Decidable (Whole y a)
  | .run => inferInstanceAs (Decidable (y.WholeAt y.pc))
  | .send .. | .call _ => isTrue trivial

-- ---------------------------------------------------------------------------
-- The loop over the buffer
-- ---------------------------------------------------------------------------

/-- A scan that asks for more goes on with the rest. -/
theorem scan_append {cs : List Cell} {max : Nat} {line : List UInt8} (ds : List Cell) {max' : Nat}
    {line' : List UInt8} (h : (scan cs max line).2 = .more max' line') :
    (scan (cs ++ ds) max line).1 = cs ++ (scan ds max' line').1 := by
  induction cs generalizing max line with
  | nil =>
    obtain ⟨rfl, rfl⟩ := Scan.more.inj h
    rfl
  | cons c cs ih =>
    rw [List.cons_append, scan]
    rw [scan] at h
    by_cases hstop : c.val = 10 ∨ max = 0
    · rw [if_pos hstop] at h
      cases h
    · rw [if_neg hstop] at h ⊢
      exact congrArg (c :: ·) (ih h)

/-- A scan of one character takes it. -/
theorem scan_last (c : Cell) (max : Nat) (line : List UInt8) : (scan [c] max line).1 = [c] := by
  rw [scan]
  split
  · rfl
  · rfl

/-- A loop that does not stop early takes every byte. -/
theorem scan_takes_all {cs : List Cell} {max : Nat} {line : List UInt8}
    (h : stops cs.dropLast max line = false) : (scan cs max line).1 = cs := by
  rcases List.eq_nil_or_concat cs with rfl | ⟨ds, c, rfl⟩
  · rfl
  · rw [List.concat_eq_append, List.dropLast_concat] at h
    rw [List.concat_eq_append]
    cases hend : (scan ds max line).2 with
    | done line' =>
      rw [stops, hend] at h
      cases h
    | more max' line' => rw [scan_append [c] hend, scan_last]

-- ---------------------------------------------------------------------------
-- The calls of fgets on the queue
-- ---------------------------------------------------------------------------

/-- `recv_msg` past the newest message gives the lock back. -/
theorem recvAt_end (r : Tid) (size : Nat) (s : Queue.State) :
    Queue.recvAt r size NULL s = (⟨NULL, 0, none⟩, Queue.unlockQueue r s) := rfl

/-- From an empty queue there is nothing. -/
theorem recvMsg_empty (r : Tid) (size : Nat) {s : Queue.State} (h : Lists s [])
    (hfree : s.q.lock = .UNLOCKED) :
    ∃ s', Queue.recvMsg r size NULL s = some (⟨NULL, 0, none⟩, s') ∧ Queue.SameList s s' ∧
      s'.q.lock = .UNLOCKED := by
  have htail : s.q.tail = NULL := h.tail
  refine ⟨Queue.unlockQueue r { s with q := { s.q with lock := .LOCKED }, owner := some r }, ?_,
    ⟨rfl, rfl, rfl⟩, rfl⟩
  rw [Queue.recvMsg, if_pos rfl, Queue.lockQueue_free hfree, Option.map_some]
  simp only [htail, recvAt_end]

/-- From a queue with messages it is the oldest, if it fits. -/
theorem recvMsg_oldest (r : Tid) (size : Nat) {s : Queue.State} {p : Ptr} {l : List Ptr}
    (h : Lists s (p :: l)) (hst : Stored s (p :: l)) (hfree : s.q.lock = .UNLOCKED) :
    ∃ s', Queue.recvMsg r size NULL s = some (⟨p, (s.bytes p).length,
        if (s.bytes p).length ≤ size then some (s.bytes p) else none⟩, s') ∧
      Queue.SameList s s' ∧ s'.q.lock = .LOCKED := by
  have htail : s.q.tail = p := h.tail
  have hp : p ≠ NULL := fun hp => h.nonnull (hp ▸ List.mem_cons_self)
  refine ⟨{ s with q := { s.q with lock := .LOCKED }, owner := some r }, ?_, ⟨rfl, rfl, rfl⟩, rfl⟩
  rw [Queue.recvMsg, if_pos rfl, Queue.lockQueue_free hfree, Option.map_some]
  simp only [htail, Queue.recvAt, if_neg hp]
  have hsize : (s.msg p).size = (s.bytes p).length := hst.size p List.mem_cons_self
  rw [← hsize]
  rfl

/-- The second `recv_msg`, after the only message. -/
theorem recvMsg_after_only (r : Tid) (size : Nat) {s : Queue.State} {p : Ptr} (h : Lists s [p]) :
    ∃ s', Queue.recvMsg r size p s = some (⟨NULL, 0, none⟩, s') ∧ Queue.SameList s s' ∧
      s'.q.lock = .UNLOCKED := by
  have hp : p ≠ NULL := fun hp => h.nonnull (hp ▸ List.mem_cons_self)
  have hprev : (s.msg p).prev = NULL := h.linked.2.1
  refine ⟨Queue.unlockQueue r s, ?_, ⟨rfl, rfl, rfl⟩, rfl⟩
  rw [Queue.recvMsg, if_neg hp, hprev, recvAt_end]

/-- `consume_msg` of the oldest message ends the iteration. -/
theorem consumeMsg_oldest (r : Tid) {s : Queue.State} {p : Ptr} {l : List Ptr}
    (h : Lists s (p :: l)) (hst : Stored s (p :: l)) :
    ∃ s', Queue.consumeMsg r p s = some (NULL, s') ∧ Lists s' l ∧ Stored s' l ∧
      s'.q.lock = .UNLOCKED ∧ ∀ x, s'.bytes x = s.bytes x := by
  have hp : p ≠ NULL := fun hp => h.nonnull (hp ▸ List.mem_cons_self)
  obtain ⟨s₁, hunlink, hlists, hsame⟩ :=
    Queue.unlink_spec (show Lists s ([] ++ p :: l) from h)
  have hused : ∀ x ∈ s.mem.used, x ≠ p → x ≠ (s.msg p).data → x ∈ (Queue.unlockQueue r s₁).mem.used := by
    intro x hx _ _
    show x ∈ s₁.mem.used
    rw [hsame.2.2.1]
    exact hx
  obtain ⟨hstored, hbytes⟩ :=
    Queue.stored_remove (show Stored s ([] ++ p :: l) from hst) hsame
      (show (Queue.unlockQueue r s₁).msg = s₁.msg from rfl) rfl hused
  refine ⟨Queue.unlockQueue r s₁, ?_, ?_, hstored, rfl, hbytes⟩
  · rw [Queue.consumeMsg, if_neg hp, hunlink]
    rfl
  · exact (Queue.SameList.mk rfl rfl rfl : Queue.SameList s₁ (Queue.unlockQueue r s₁)).lists hlists

-- ---------------------------------------------------------------------------
-- The invariant
-- ---------------------------------------------------------------------------

/-- What holds where the process is. Only between `recv_msg` and `consume_msg` it has
the lock, and only before the loop over the buffer there is something in the buffer. -/
def State.At (y : State) (l : List Ptr) : Pc → Prop
  | .out => y.queue.q.lock = .UNLOCKED ∧ y.file.length = 0
  | .recv => y.queue.q.lock = .UNLOCKED ∧ y.file.length = 0 ∧ y.next = NULL
  | .retry _ => y.queue.q.lock = .LOCKED ∧ y.file.length = 0 ∧ l = [y.next]
  | .consume sz => y.file.length = 0 ∧
      (y.queue.q.lock = .UNLOCKED ∧ y.next = NULL ∧ sz = 0 ∨
        y.queue.q.lock = .LOCKED ∧ ∃ l', l = y.next :: l' ∧
          (List.range sz).map y.file.buffer = (y.queue.bytes y.next).map stored)
  | .stop => y.queue.q.lock = .UNLOCKED ∧ y.next = NULL
  | .scan => y.queue.q.lock = .UNLOCKED ∧ y.next = NULL

structure Inv (y : State) (l : List Ptr) : Prop where
  lists  : Lists y.queue l
  stored : Stored y.queue l
  stream : y.taken ++ y.file.contents ++ (y.queued l).map Stdin.stored = y.sent.map Stdin.stored
  here   : y.At l y.pc

/-- The invariant holds at the start. -/
theorem start_inv (junk : Nat → UInt8) (mem : Queue.Kmem) : Inv (State.start junk mem) [] where
  lists := ⟨rfl, rfl, trivial, List.nodup_nil, List.not_mem_nil⟩
  stored := ⟨nofun, List.nodup_nil, nofun⟩
  stream := rfl
  here := ⟨rfl, rfl⟩

/-- An empty file has no contents. -/
theorem contents_nil {f : File} (h : f.length = 0) : f.contents = [] := by
  rw [File.contents, h]
  rfl

theorem contents_same {f f' : File} (h : f.length = 0) (h' : f'.length = 0) :
    f'.contents = f.contents := by
  rw [contents_nil h, contents_nil h']

/-- The stream where the messages of the queue are the same. -/
theorem Inv.stream_same {y y' : State} {l : List Ptr} (h : Inv y l) (htaken : y'.taken = y.taken)
    (hsent : y'.sent = y.sent) (hcontents : y'.file.contents = y.file.contents)
    (hsame : Queue.SameList y.queue y'.queue) :
    y'.taken ++ y'.file.contents ++ (y'.queued l).map Stdin.stored = y'.sent.map Stdin.stored := by
  rw [htaken, hsent, hcontents, State.queued, hsame.bytes]
  exact h.stream

/-- The places that `recv_msg` copies to hold the bytes of the message. -/
theorem copy_contents (f : File) (data : List UInt8) :
    (List.range data.length).map (f.copy data).buffer = data.map stored := by
  refine List.ext_getElem (by simp) ?_
  intro i hi hi'
  have hlt : i < data.length := by simpa using hi
  simp [File.copy, hlt]

-- ---------------------------------------------------------------------------
-- One step
-- ---------------------------------------------------------------------------

variable {K : Kalloc} {junk : Nat → UInt8} {r : Tid} {y y' : State} {l : List Ptr}

/-- A send keeps the invariant. -/
theorem send_inv {t : Tid} {data : List UInt8} (h : Inv y l) (hsend : y.send K t data = some y') :
    ∃ l', Inv y' l' := by
  obtain ⟨q, hq, rfl⟩ := Option.map_eq_some_iff.mp hsend
  obtain ⟨hfree, hfree', -⟩ := Queue.sendMsg_lock hq
  obtain ⟨s', hs', hlists, hstored, hnew, hold⟩ := Queue.sendMsg_spec K t data h.lists h.stored hfree
  obtain rfl := Option.some.inj (hq.symm.trans hs')
  refine ⟨_, hlists, hstored, ?_, ?_⟩
  · have hqueued : State.queued { y with queue := q, sent := y.sent ++ data }
        (l ++ [K.pick y.queue.mem.used]) = y.queued l ++ data := by
      rw [State.queued, List.flatMap_append, List.flatMap_congr hold]
      simp [State.queued, hnew]
    rw [hqueued, List.map_append, List.map_append, ← h.stream]
    simp only [List.append_assoc]
  · have hhere := h.here
    show State.At _ _ y.pc
    cases hpc : y.pc with
    | out | recv | stop | scan =>
      rw [hpc] at hhere
      exact ⟨hfree', hhere.2⟩
    | retry a =>
      rw [hpc] at hhere
      exact absurd (hfree.symm.trans hhere.1) nofun
    | consume sz =>
      rw [hpc] at hhere
      obtain ⟨hlen, ⟨-, hnext, hsz⟩ | ⟨hlock, -⟩⟩ := hhere
      · exact ⟨hlen, .inl ⟨hfree', hnext, hsz⟩⟩
      · exact absurd (hfree.symm.trans hlock) nofun

/-- The first `recv_msg` of a round. -/
theorem recv_inv (h : Inv y l) (hpc : y.pc = .recv) (hwhole : Whole y .run) :
    ∃ y', y.run junk r = some y' ∧ Inv y' l := by
  have hhere := h.here
  rw [hpc] at hhere
  obtain ⟨hfree, hlen, hnext⟩ := hhere
  rw [Whole, hpc] at hwhole
  rw [State.run, hpc]
  simp only [hnext]
  cases l with
  | nil =>
    obtain ⟨s', hrecv, hsame, hfree'⟩ := recvMsg_empty r y.file.available h.lists hfree
    have hcheck : y.checked junk y.file.available ⟨NULL, 0, none⟩ s' =
        { y with queue := s', next := NULL, pc := .consume 0 } := by
      simp [State.checked, State.received]
    refine ⟨{ y with queue := s', next := NULL, pc := .consume 0 }, ?_, hsame.lists h.lists,
      hsame.stored h.stored, h.stream, hlen, .inl ⟨hfree', rfl, rfl⟩⟩
    rw [hrecv, Option.map_some, hcheck]
  | cons p l =>
    obtain ⟨s', hrecv, hsame, hlock⟩ := recvMsg_oldest r y.file.available h.lists h.stored hfree
    by_cases hfits : (y.queue.bytes p).length ≤ y.file.available
    · -- the message is copied
      rw [hrecv, if_pos hfits, Option.map_some]
      refine ⟨{ y with
        queue := s'
        next := p
        file := y.file.copy (y.queue.bytes p)
        pc := .consume (y.queue.bytes p).length }, ?_, hsame.lists h.lists, hsame.stored h.stored, ?_,
        hlen, .inr ⟨hlock, l, rfl, ?_⟩⟩
      · exact congrArg some (if_neg (Nat.not_lt.mpr hfits))
      · exact h.stream_same rfl rfl (contents_same hlen hlen) hsame
      · show _ = (s'.bytes p).map stored
        rw [hsame.bytes]
        exact copy_contents y.file (y.queue.bytes p)
    · -- it is the only one, and the buffer grows
      have hsize : (y.queue.msg p).size = (y.queue.bytes p).length :=
        h.stored.size p List.mem_cons_self
      have htail : y.queue.q.tail = p := h.lists.tail
      have honly : l = [] := by
        rcases hwhole with hle | hsame'
        · rw [htail, hsize] at hle
          exact absurd hle hfits
        · by_contra hne
          have hhead : y.queue.q.head = l.getLastD p := by
            rw [h.lists.head, List.getLastD_cons]
          have hmem : p ∈ l := by
            rw [htail, hhead] at hsame'
            rw [hsame']
            exact getLastD_mem hne p
          exact (List.nodup_cons.mp h.lists.nodup).1 hmem
      rw [hrecv, if_neg hfits, Option.map_some]
      refine ⟨{ y with
        queue := s'
        next := p
        file := y.file.grow junk (y.file.size + ((y.queue.bytes p).length - y.file.available))
        pc := .retry (y.queue.bytes p).length }, ?_, hsame.lists h.lists, hsame.stored h.stored, ?_,
        hlock, hlen, by rw [honly]⟩
      · exact congrArg some (if_pos (Nat.lt_of_not_le hfits))
      · exact h.stream_same rfl rfl (contents_same hlen hlen) hsame

/-- The second `recv_msg` finds no newer message, and ends the iteration. -/
theorem retry_inv {a : Nat} (h : Inv y l) (hpc : y.pc = .retry a) :
    ∃ y', y.run junk r = some y' ∧ Inv y' l := by
  have hhere := h.here
  rw [hpc] at hhere
  obtain ⟨hlock, hlen, rfl⟩ := hhere
  obtain ⟨s', hrecv, hsame, hfree⟩ := recvMsg_after_only r a h.lists
  refine ⟨{ y with queue := s', next := NULL, pc := .consume 0 }, ?_, hsame.lists h.lists,
    hsame.stored h.stored, ?_, hlen, .inl ⟨hfree, rfl, rfl⟩⟩
  · rw [State.run, hpc]
    simp only [hrecv, Option.map_some]
    rfl
  · exact h.stream_same rfl rfl rfl hsame

/-- In `fgets` the consume keeps the invariant. -/
theorem consume_inv {sz : Nat} (h : Inv y l) (hpc : y.pc = .consume sz) :
    ∃ y' l', y.run junk r = some y' ∧ Inv y' l' := by
  have hhere := h.here
  rw [hpc] at hhere
  obtain ⟨hlen, ⟨hfree, hnext, rfl⟩ | ⟨hlock, l', rfl, hcopied⟩⟩ := hhere
  · -- nothing was received: the lock is given back once more
    have hsame : Queue.SameList y.queue (Queue.unlockQueue r y.queue) := ⟨rfl, rfl, rfl⟩
    refine ⟨{ y with queue := Queue.unlockQueue r y.queue, next := NULL, pc := .stop }, l, ?_,
      hsame.lists h.lists, hsame.stored h.stored, h.stream_same rfl rfl rfl hsame, rfl, rfl⟩
    rw [State.run, hpc]
    simp only [hnext, Queue.consumeMsg_null, Option.map_some]
    rfl
  · obtain ⟨s', hconsume, hlists, hstored, hfree, hbytes⟩ :=
      consumeMsg_oldest r h.lists h.stored
    refine ⟨{ y with
      queue := s', next := NULL, pc := .stop, file := { y.file with length := sz } }, l', ?_, hlists,
      hstored, ?_, hfree, rfl⟩
    · rw [State.run, hpc]
      simp only [hconsume, Option.map_some, hlen, Nat.zero_add]
      rfl
    · have hstream := h.stream
      rw [contents_nil hlen, List.append_nil, State.queued, List.flatMap_cons, List.map_append,
        ← hcopied] at hstream
      have hqueued : State.queued { y with
          queue := s', next := NULL, pc := .stop, file := { y.file with length := sz } } l' =
          l'.flatMap y.queue.bytes := List.flatMap_congr fun x _ => hbytes x
      rw [hqueued, List.append_assoc]
      exact hstream

theorem stop_inv (h : Inv y l) (hpc : y.pc = .stop) : ∃ y', y.run junk r = some y' ∧ Inv y' l := by
  have hhere := h.here
  rw [hpc] at hhere
  refine ⟨{ y with pc := .scan }, ?_, h.lists, h.stored, h.stream, hhere⟩
  rw [State.run, hpc]
  simp only [hhere.2]
  rfl

/-- The scan of what was received keeps the invariant. -/
theorem scan_inv (h : Inv y l) (hpc : y.pc = .scan) (hwhole : Whole y .run) :
    ∃ y', y.run junk r = some y' ∧ Inv y' l := by
  have hhere := h.here
  rw [hpc] at hhere
  rw [Whole, hpc] at hwhole
  have hall := scan_takes_all hwhole
  rw [State.run, hpc]
  by_cases hlen : y.file.length > 0
  · simp only [if_pos hlen]
    generalize hscan : scan y.file.contents y.max y.line = result at hall
    obtain ⟨taken, ending⟩ := result
    obtain rfl : taken = y.file.contents := hall
    cases ending with
    | done line =>
      refine ⟨_, rfl, h.lists, h.stored, ?_, hhere.1, rfl⟩
      have hnil : (File.closed junk).contents = [] := rfl
      show y.taken ++ y.file.contents ++ (File.closed junk).contents ++ _ = _
      rw [hnil, List.append_nil]
      exact h.stream
    | more max line =>
      have hzero : (y.file.unbuffer y.file.length).length = 0 := by
        show (if y.file.length ≤ y.file.length then _ else _) = 0
        rw [if_pos (Nat.le_refl _), Nat.sub_self]
      refine ⟨_, rfl, h.lists, h.stored, ?_, hhere.1, hzero, hhere.2⟩
      show y.taken ++ y.file.contents ++ (y.file.unbuffer y.file.length).contents ++ _ = _
      rw [contents_nil hzero, List.append_nil]
      exact h.stream
  · simp only [if_neg hlen]
    exact ⟨_, rfl, h.lists, h.stored, h.stream, hhere.1, Nat.eq_zero_of_not_pos hlen, hhere.2⟩

/-- A call keeps the invariant. -/
theorem call_inv {n : Nat} (h : Inv y l) (hcall : y.call n = some y') : Inv y' l := by
  rw [State.call] at hcall
  split at hcall
  · rename_i hpc
    have hhere := h.here
    rw [hpc] at hhere
    obtain rfl := Option.some.inj hcall
    exact ⟨h.lists, h.stored, h.stream, hhere.1, hhere.2, rfl⟩
  · cases hcall

/-- Every step of the call keeps the invariant. -/
theorem run_inv (h : Inv y l) (hpc : y.pc ≠ .out) (hwhole : Whole y .run) :
    ∃ y' l', y.run junk r = some y' ∧ Inv y' l' := by
  have hsame : (∃ y', y.run junk r = some y' ∧ Inv y' l) → ∃ y' l', y.run junk r = some y' ∧ Inv y' l' :=
    fun ⟨y', hrun, hinv⟩ => ⟨y', l, hrun, hinv⟩
  cases hp : y.pc with
  | out => exact absurd hp hpc
  | recv => exact hsame (recv_inv h hp hwhole)
  | retry a => exact hsame (retry_inv h hp)
  | consume sz => exact consume_inv h hp
  | stop => exact hsame (stop_inv h hp)
  | scan => exact hsame (scan_inv h hp hwhole)

/-- Every step of `fgets` returns, whatever comes. -/
theorem run_returns (h : Inv y l) (hpc : y.pc ≠ .out) : ∃ y', y.run junk r = some y' := by
  have hhere := h.here
  cases hp : y.pc with
  | out => exact absurd hp hpc
  | recv =>
    rw [hp] at hhere
    rw [State.run, hp]
    simp only [hhere.2.2, Queue.recvMsg, if_true, Queue.lockQueue_free hhere.1, Option.map_some]
    exact ⟨_, rfl⟩
  | retry a =>
    obtain ⟨y', hrun, -⟩ := retry_inv (r := r) h hp
    exact ⟨y', hrun⟩
  | consume sz =>
    obtain ⟨y', -, hrun, -⟩ := consume_inv (r := r) h hp
    exact ⟨y', hrun⟩
  | stop =>
    obtain ⟨y', hrun, -⟩ := stop_inv (r := r) h hp
    exact ⟨y', hrun⟩
  | scan =>
    rw [State.run, hp]
    by_cases hlen : y.file.length > 0
    · simp only [if_pos hlen]
      split
      · exact ⟨_, rfl⟩
      · exact ⟨_, rfl⟩
    · simp only [if_neg hlen]
      exact ⟨_, rfl⟩

/-- In the invariant the stream is faithful. -/
theorem Inv.faithful (h : Inv y l) : Faithful junk r y :=
  ⟨⟨l, h.lists, h.stream⟩, run_returns h⟩

/-- Over every interleaving of sends with calls and steps of `fgets`: if neither an
oldest message that is too large has another behind it, nor a line ends inside the
buffer, standard input is the bytes sent, in order. -/
theorem stream_faithful (K : Kalloc) (junk : Nat → UInt8) (r : Tid) (mem : Queue.Kmem) (acts : List Act)
    (hwhole : Whenever (Step K junk r) Whole (State.start junk mem) acts) :
    Upon (Step K junk r) (fun _ _ y' _ => Faithful junk r y') (State.start junk mem) acts := by
  have hstep : ∀ y a y' b, (∃ l, Inv y l) → Whole y a → Step K junk r y a y' b →
      Faithful junk r y' ∧ ∃ l, Inv y' l := by
    rintro y a y' b ⟨l, hinv⟩ hw hstep
    have hinv' : ∃ l', Inv y' l' := by
      cases a with
      | send t data => exact send_inv hinv hstep
      | call n => exact ⟨l, call_inv hinv hstep⟩
      | run =>
        have hpc : y.pc ≠ .out := by
          intro hout
          have hnone : y.run junk r = none := by
            rw [State.run, hout]
          exact absurd (hnone.symm.trans hstep) nofun
        obtain ⟨y₁, l', hrun, hinv₁⟩ := run_inv (r := r) hinv hpc hw
        obtain rfl := Option.some.inj (hrun.symm.trans hstep)
        exact ⟨l', hinv₁⟩
    obtain ⟨l', h'⟩ := hinv'
    exact ⟨h'.faithful, l', h'⟩
  exact upon_of_invariant hstep ⟨[], start_inv junk mem⟩ hwhole

/-- A step of the stream is computed by its action. -/
theorem step_computes (K : Kalloc) (junk : Nat → UInt8) (r : Tid) :
    Computes (fun y a => (y.act K junk r a).map fun y' => (y', ())) (Step K junk r) :=
  computes_of_eq fun _ _ _ _ h => h

/-- Two messages, each with its line, the second sent while the first is read. -/
theorem two_lines_faithful :
    Upon (Step .above (fun _ => 0) 1) (fun _ _ y' _ => Faithful (fun _ => 0) 1 y')
      (State.start (fun _ => 0) .empty)
      ([.send 2 [97, 98, 10], .call 512] ++ List.replicate 5 .run ++ [.send 2 [99, 10]] ++
        List.replicate 4 .run ++ [.call 512] ++ List.replicate 9 .run) :=
  stream_faithful .above (fun _ => 0) 1 .empty _
    (whenever_of_checkRun (step_computes .above (fun _ => 0) 1) (by decide +kernel))

/-- Of two messages that are there before the first call, the second is taken first. -/
theorem second_message_first :
    ¬ Upon (Step .above (fun _ => 0) 1) (fun _ _ y' _ => Faithful (fun _ => 0) 1 y')
      (State.start (fun _ => 0) .empty)
      ([.send 2 [97, 98], .send 2 [99], .call 512] ++ List.replicate 7 .run) := by
  intro h
  have hreal : ∀ y a y' (b : Unit), ((y.act .above (fun _ => 0) 1 a).map fun y' => (y', ())) =
      some (y', b) → Step .above (fun _ => 0) 1 y a y' b :=
    fun _ _ _ _ => step_of_eq fun _ _ _ _ h => h
  have hcheck := checkPost_of_upon hreal
    (q := fun _ _ y' _ => y'.taken.isPrefixOf (y'.sent.map stored)) (fun _ _ y' _ hf => by
      obtain ⟨l, -, hstream⟩ := hf.stream
      rw [List.isPrefixOf_iff_prefix, ← hstream, List.append_assoc]
      exact List.prefix_append ..) h
  exact absurd hcheck (by decide +kernel)

end Frosk.Stdin

import Frosk.Queue.Links

/-!
# Message queues: contents and order

A `Session` is a queue with its receiver and what the code itself does not keep:
the messages sent so far, the send number of each record, the numbers of the
messages consumed, and what the receiver read.

Main result: `queue_content_and_order`, over every run in which the receiver
follows its protocol.

* The list stays well formed, its contents are exactly the messages sent and
  not consumed, in send order with their bytes, and every call changes it as it
  should (`Effect`).
* A receiver that consumes each message it receives, with buffers that are
  large enough, has read exactly the messages sent, up to those still queued.
-/

namespace Frosk.Queue

open Lib

structure Session where
  s       : State
  current : Ptr
  phase   : Phase
  number  : Ptr → Nat
  sent    : List (List UInt8)
  gone    : List Nat
  buffer  : Option (List UInt8)
  got     : List (List UInt8)

inductive Op where
  | send (t : Tid) (data : List UInt8)
  | recv (size : Nat)
  | consume
  | stop
  | reset

/-- One call, with `r` the receiver. -/
def Session.op (K : Kalloc) (r : Tid) (y : Session) : Op → Option Session
  | .send t data => (sendMsg K t data y.s).map fun s =>
    { y with
      s := s
      number := Function.update y.number (K.pick y.s.mem.used) y.sent.length
      sent := y.sent ++ [data] }
  | .recv size => (recvMsg r size y.current y.s).map fun (out, s) =>
    { y with
      s := s
      current := out.current
      phase := .afterRecv out.current
      buffer := out.copied }
  | .consume => (consumeMsg r y.current y.s).map fun (cur, s) =>
    { y with
      s := s
      current := cur
      phase := .afterConsume y.current cur
      gone := y.gone ++ [y.number y.current]
      got := y.got ++ [y.buffer.getD []] }
  | .stop => some { y with
      s := stopRecv r y.current y.s
      phase := y.phase.afterStop y.current }
  | .reset => some { y with current := NULL, phase := .idle }

def Session.Step (K : Kalloc) (r : Tid) (y : Session) (a : Op) (y' : Session) (_ : Unit) : Prop :=
  y.op K r a = some y'

/-- The receiver's protocol, and turns: a send and the start of an iteration
wait for the lock. The cursor is set back after `stop_recv` and after consuming
the newest message of a longer queue. -/
def Session.Follows (y : Session) : Op → Prop
  | .send _ _ => y.s.q.lock = .UNLOCKED
  | .recv _ => (y.phase = .idle ∧ y.s.q.lock = .UNLOCKED) ∨ y.phase = .received ∨
      y.phase = .passed
  | .consume => y.phase = .received
  | .stop => True
  | .reset => y.phase = .stopped ∨ y.phase = .dangling

instance (y : Session) : (a : Op) → Decidable (y.Follows a)
  | .send _ _ => inferInstanceAs (Decidable (y.s.q.lock = .UNLOCKED))
  | .recv _ => inferInstanceAs (Decidable ((y.phase = .idle ∧ y.s.q.lock = .UNLOCKED) ∨
      y.phase = .received ∨ y.phase = .passed))
  | .consume => inferInstanceAs (Decidable (y.phase = .received))
  | .stop => isTrue trivial
  | .reset => inferInstanceAs (Decidable (y.phase = .stopped ∨ y.phase = .dangling))

/-- An empty queue in any kernel storage. -/
def Session.start (mem : Kmem) : Session :=
  ⟨initMqueue mem, NULL, .idle, fun _ => 0, [], [], none, []⟩

/-- The messages sent and not consumed, in send order, with their numbers. -/
def Session.unconsumed (y : Session) : List (List UInt8 × Nat) :=
  y.sent.zipIdx.filter fun x => x.2 ∉ y.gone

/-- The queue is the list `l`, and holds exactly the unconsumed messages. -/
structure Session.Holds (y : Session) (l : List Ptr) : Prop where
  lists    : Lists y.s l
  contents : l.map (fun p => (y.s.bytes p, y.number p)) = y.unconsumed
  size     : ∀ p ∈ l, (y.s.msg p).size = (y.s.bytes p).length

/-- What each call does to the list, and what the receiver sees of it. -/
def Effect (y : Session) (l : List Ptr) (y' : Session) (l' : List Ptr) : Op → Prop
  | .send _ data => ∃ m, l' = l ++ [m] ∧ y'.s.bytes m = data
  | .recv size => l' = l ∧ ∃ l₁ l₂, l = l₁ ++ l₂ ∧
      (if y.phase = .idle then l₁ = [] else l₁.getLast? = some y.current) ∧
      y'.current = l₂.headD NULL ∧
      ∀ m ∈ l₂.head?, y'.buffer =
        if (y.s.bytes m).length ≤ size then some (y.s.bytes m) else none
  | .consume => ∃ l₁ l₂, l = l₁ ++ y.current :: l₂ ∧ l' = l₁ ++ l₂
  | .stop => l' = l
  | .reset => l' = l

def QueueKept (y : Session) (a : Op) (y' : Session) (_ : Unit) : Prop :=
  ∃ l l', y.Holds l ∧ y'.Holds l' ∧ Effect y l y' l' a ∧
    (y'.s.q.head = NULL ↔ y'.s.q.tail = NULL)

/-- The message the next `recv_msg` will come to. -/
def Session.upcoming (y : Session) : Ptr :=
  if y.current = NULL then y.s.q.tail else (y.s.msg y.current).prev

/-- The receiver leaves no message it received unconsumed, and its buffer is
large enough for the next one. -/
def Session.Eager (y : Session) : Op → Prop
  | .send _ _ => True
  | .recv size => y.phase ≠ .received ∧
      (y.upcoming ≠ NULL → (y.s.msg y.upcoming).size ≤ size)
  | .consume => True
  | .stop => y.phase ≠ .received
  | .reset => True

instance (y : Session) : (a : Op) → Decidable (y.Eager a)
  | .send _ _ | .consume | .reset => isTrue trivial
  | .recv size => inferInstanceAs (Decidable (y.phase ≠ .received ∧
      (y.upcoming ≠ NULL → (y.s.msg y.upcoming).size ≤ size)))
  | .stop => inferInstanceAs (Decidable (y.phase ≠ .received))

/-- What was read and what is queued together are what was sent. -/
def ReadInOrder (_ : Session) (_ : Op) (y' : Session) (_ : Unit) : Prop :=
  ∃ l', y'.Holds l' ∧ y'.got ++ l'.map y'.s.bytes = y'.sent

-- ---------------------------------------------------------------------------
-- Numbers
-- ---------------------------------------------------------------------------

/-- What is sent comes behind what is left. -/
theorem unconsumed_send {y : Session} (h : ∀ k ∈ y.gone, k < y.sent.length)
    (data : List UInt8) :
    (y.sent ++ [data]).zipIdx.filter (fun x => x.2 ∉ y.gone) =
      y.unconsumed ++ [(data, y.sent.length)] := by
  have hnew : y.sent.length ∉ y.gone := fun hmem => lt_irrefl _ (h _ hmem)
  rw [List.zipIdx_append, List.filter_append]
  simp [Session.unconsumed, hnew]

theorem unconsumed_nodup (y : Session) : (y.unconsumed.map Prod.snd).Nodup := by
  have hsub : (y.unconsumed.map Prod.snd).Sublist (y.sent.zipIdx.map Prod.snd) :=
    List.filter_sublist.map _
  refine List.Nodup.sublist hsub ?_
  rw [List.zipIdx_map_snd]
  exact List.nodup_range' ..

theorem unconsumed_lt {y : Session} {x : List UInt8 × Nat} (h : x ∈ y.unconsumed) :
    x.2 < y.sent.length := by
  have hx : x ∈ y.sent.zipIdx := (List.mem_filter.mp h).1
  simpa using (List.mem_zipIdx hx).2.1

/-- Consuming the message with number `k` takes out that message. -/
theorem unconsumed_consume {y : Session} {A B : List (List UInt8 × Nat)}
    {x : List UInt8 × Nat} (h : y.unconsumed = A ++ x :: B) :
    y.sent.zipIdx.filter (fun z => z.2 ∉ y.gone ++ [x.2]) = A ++ B := by
  have hsplit : y.sent.zipIdx.filter (fun z => z.2 ∉ y.gone ++ [x.2]) =
      y.unconsumed.filter fun z => z.2 ≠ x.2 := by
    rw [Session.unconsumed, List.filter_filter]
    apply List.filter_congr
    intro z _
    simp [not_or, and_comm]
  have hnd := unconsumed_nodup y
  rw [h, List.map_append, List.map_cons] at hnd
  obtain ⟨_, hB, hAB⟩ := List.nodup_append.mp hnd
  rw [hsplit, h, List.filter_append, List.filter_cons_of_neg (by simp)]
  congr 1
  · rw [List.filter_eq_self]
    intro z hz
    have := hAB z.2 (List.mem_map_of_mem hz) x.2 (List.mem_cons_self ..)
    simpa using this
  · rw [List.filter_eq_self]
    intro z hz
    have hne : z.2 ≠ x.2 := fun heq =>
      (List.nodup_cons.mp hB).1 (heq ▸ List.mem_map_of_mem hz)
    simpa using hne

-- ---------------------------------------------------------------------------
-- The invariant
-- ---------------------------------------------------------------------------

/-- The cursor of an open iteration is a record of the queue, unless that was
the newest one and is gone; the lock is held meanwhile. -/
structure Inv (y : Session) (l : List Ptr) : Prop where
  holds    : y.Holds l
  stored   : Stored y.s l
  gone_lt  : ∀ k ∈ y.gone, k < y.sent.length
  idle     : y.phase = .idle → y.current = NULL
  atCursor : y.phase = .received ∨ y.phase = .passed →
    y.current ∈ l ∧ y.s.q.lock = .LOCKED
  stale    : y.phase = .dangling ∨ y.phase = .stopped → y.current ≠ NULL
  locked   : y.phase = .dangling → y.s.q.lock = .LOCKED

/-- The invariant holds of the empty queue. -/
theorem inv_start (mem : Kmem) : Inv (Session.start mem) [] := by
  refine ⟨⟨⟨rfl, rfl, trivial, List.nodup_nil, by simp⟩, rfl, by simp⟩,
    ⟨by simp, List.nodup_nil, by simp⟩, ?_, fun _ => rfl, ?_, ?_, ?_⟩
  · simp [Session.start]
  all_goals simp [Session.start]

/-- The list is determined by the queue. -/
theorem Lists.unique {s : State} {l l' : List Ptr} (h : Lists s l) (h' : Lists s l') : l = l' := by
  have key : ∀ {l l' : List Ptr} {o : Ptr},
      Linked (fun p => (s.msg p).next) (fun p => (s.msg p).prev) o l NULL → NULL ∉ l →
      Linked (fun p => (s.msg p).next) (fun p => (s.msg p).prev) o l' NULL → NULL ∉ l' →
      l.headD NULL = l'.headD NULL → l = l' := by
    intro l
    induction l with
    | nil =>
      intro l' _ _ _ _ hn' hhead
      cases l' with
      | nil => rfl
      | cons q l' => exact absurd (by simpa using hhead) (fun hq : NULL = q => hn' (by simp [← hq]))
    | cons p l ih =>
      intro l' _ hl hn hl' hn' hhead
      cases l' with
      | nil => exact absurd (by simpa using hhead) (fun hp : p = NULL => hn (by simp [hp]))
      | cons q l' =>
        obtain rfl : p = q := by simpa using hhead
        have hp : NULL ∉ l := fun hm => hn (List.mem_cons_of_mem _ hm)
        have hq : NULL ∉ l' := fun hm => hn' (List.mem_cons_of_mem _ hm)
        rw [ih hl.2.2 hp hl'.2.2 hq (hl.2.1.symm.trans hl'.2.1)]
  exact key h.linked h.nonnull h'.linked h'.nonnull (h.tail.symm.trans h'.tail)

-- ---------------------------------------------------------------------------
-- One call
-- ---------------------------------------------------------------------------

/-- The states differ at most in the lock. -/
structure SameList (s s' : State) : Prop where
  mem  : s'.mem = s.mem
  head : s'.q.head = s.q.head
  tail : s'.q.tail = s.q.tail

/-- The same list has the same messages. -/
theorem SameList.msg {s s' : State} (h : SameList s s') : s'.msg = s.msg := by
  unfold State.msg
  rw [h.mem]

theorem SameList.bytes {s s' : State} (h : SameList s s') : s'.bytes = s.bytes := by
  funext p
  unfold State.bytes
  rw [h.msg, h.mem]

/-- The same list is laid out the same way. -/
theorem SameList.lists {s s' : State} {l : List Ptr} (h : SameList s s') (hl : Lists s l) :
    Lists s' l := by
  refine ⟨h.tail.trans hl.tail, h.head.trans hl.head, ?_, hl.nodup, hl.nonnull⟩
  rw [h.msg]
  exact hl.linked

theorem SameList.stored {s s' : State} {l : List Ptr} (h : SameList s s') (hl : Stored s l) :
    Stored s' l := by
  obtain ⟨hused, hapart, hsize⟩ := hl
  refine ⟨?_, ?_, ?_⟩
  · rw [h.msg, h.mem]
    exact hused
  · rw [h.msg]
    exact hapart
  · rw [h.msg, h.bytes]
    exact hsize

/-- `recvAt` copies the message if it fits, and keeps the lock as long as there is one. -/
theorem recvAt_spec (t : Tid) (size : Nat) (current : Ptr) (s : State) :
    SameList s (recvAt t size current s).2 ∧
      (recvAt t size current s).1.current = current ∧
      (current ≠ NULL → (recvAt t size current s).1.copied =
          (if (s.msg current).size ≤ size then some (s.bytes current) else none) ∧
        (recvAt t size current s).2.q.lock = s.q.lock) := by
  unfold recvAt
  by_cases hcur : current = NULL
  · rw [if_pos hcur]
    exact ⟨⟨rfl, rfl, rfl⟩, hcur.symm, fun hne => absurd hcur hne⟩
  · rw [if_neg hcur]
    exact ⟨⟨rfl, rfl, rfl⟩, rfl, fun _ => ⟨rfl, rfl⟩⟩

/-- **What `recv_msg` does**: the cursor goes to the oldest message, or to the
next newer one, and its bytes to the buffer if they fit. -/
theorem recvMsg_spec (r : Tid) (size : Nat) {current : Ptr} {s : State} {l₁ l₂ : List Ptr}
    (h : Lists s (l₁ ++ l₂)) (hst : Stored s (l₁ ++ l₂))
    (hcur : current = NULL ∧ s.q.lock = .UNLOCKED ∧ l₁ = [] ∨
      l₁.getLast? = some current ∧ s.q.lock = .LOCKED) :
    ∃ out s', recvMsg r size current s = some (out, s') ∧ SameList s s' ∧
      out.current = l₂.headD NULL ∧
      ∀ m ∈ l₂.head?, s'.q.lock = .LOCKED ∧
        out.copied = if (s.bytes m).length ≤ size then some (s.bytes m) else none := by
  -- both ways in go on with `recvAt`, at the first record of `l₂`, under the lock
  have hrest : ∀ s₀, SameList s s₀ → s₀.q.lock = .LOCKED →
      SameList s (recvAt r size (l₂.headD NULL) s₀).2 ∧
      (recvAt r size (l₂.headD NULL) s₀).1.current = l₂.headD NULL ∧
      ∀ m ∈ l₂.head?, (recvAt r size (l₂.headD NULL) s₀).2.q.lock = .LOCKED ∧
        (recvAt r size (l₂.headD NULL) s₀).1.copied =
          if (s.bytes m).length ≤ size then some (s.bytes m) else none := by
    intro s₀ h₀ hlock
    obtain ⟨hsame, hcurrent, hcopied⟩ := recvAt_spec r size (l₂.headD NULL) s₀
    refine ⟨⟨hsame.mem.trans h₀.mem, hsame.head.trans h₀.head, hsame.tail.trans h₀.tail⟩,
      hcurrent, fun m hm => ?_⟩
    obtain ⟨l₃, rfl⟩ : ∃ l₃, l₂ = m :: l₃ := by
      cases l₂ with
      | nil => simp at hm
      | cons q l₃ => exact ⟨l₃, by simpa using hm⟩
    have hml : m ∈ l₁ ++ m :: l₃ := by simp
    have hm0 : m ≠ NULL := fun heq => h.nonnull (heq ▸ hml)
    obtain ⟨hcopy, hl⟩ := hcopied hm0
    refine ⟨hl.trans hlock, ?_⟩
    rw [hcopy, h₀.msg, h₀.bytes]
    show (if (s.msg m).size ≤ size then _ else _) = _
    rw [hst.size m hml]
    rfl
  unfold recvMsg
  rcases hcur with ⟨rfl, hfree, rfl⟩ | ⟨hlast, hlock⟩
  · rw [if_pos rfl, lockQueue_free hfree, Option.map_some]
    have htail : s.q.tail = l₂.headD NULL := h.tail
    obtain ⟨hsame, hrest⟩ := hrest
      { s with q := { s.q with lock := .LOCKED }, owner := some r } ⟨rfl, rfl, rfl⟩ rfl
    refine ⟨_, _, rfl, ?_⟩
    rw [← htail] at hsame hrest
    rw [← htail]
    exact ⟨hsame, hrest⟩
  · obtain ⟨l₀, rfl⟩ := List.getLast?_eq_some_iff.mp hlast
    have hl : Lists s (l₀ ++ current :: l₂) := by simpa using h
    have hne : current ≠ NULL := fun heq => h.nonnull (by simp [heq])
    rw [if_neg hne, hl.neighbours.2]
    exact ⟨_, _, rfl, hrest s ⟨rfl, rfl, rfl⟩ hlock⟩

/-- Messages keep their bytes and numbers in a state with the same list. -/
theorem Session.Holds.sameList {y y' : Session} {l : List Ptr} (h : y.Holds l)
    (hs : SameList y.s y'.s) (hnum : y'.number = y.number) (hsent : y'.sent = y.sent)
    (hgone : y'.gone = y.gone) : y'.Holds l := by
  refine ⟨hs.lists h.lists, ?_, ?_⟩
  · unfold Session.unconsumed
    rw [hs.bytes, hnum, hsent, hgone]
    exact h.contents
  · rw [hs.msg, hs.bytes]
    exact h.size

/-- A send returns and appends its message. -/
theorem send_step {K : Kalloc} {r t : Tid} {data : List UInt8} {y : Session} {l : List Ptr}
    (h : Inv y l) (hfree : y.s.q.lock = .UNLOCKED) :
    ∃ y' l', y.op K r (.send t data) = some y' ∧ Inv y' l' ∧ Effect y l y' l' (.send t data) := by
  obtain ⟨s', hs', hlists, hstored, hnew, hold⟩ :=
    sendMsg_spec K t data h.holds.lists h.stored hfree
  have hml : K.pick y.s.mem.used ∉ l := fun hmem => K.fresh _ (h.stored.used _ hmem).1
  have hnone : y.s.q.lock ≠ .LOCKED := by simp [hfree]
  rw [Session.op, hs', Option.map_some]
  refine ⟨_, l ++ [K.pick y.s.mem.used], rfl,
    ⟨⟨hlists, ?_, hstored.size⟩, hstored, ?_, h.idle, fun hph => ?_, h.stale, fun hph => ?_⟩,
    ⟨_, rfl, hnew⟩⟩
  · have hmap : l.map (fun p => (s'.bytes p, Function.update y.number (K.pick y.s.mem.used)
          y.sent.length p)) = y.unconsumed := by
      rw [← h.holds.contents]
      refine List.map_congr_left ?_
      intro p hp
      have hpm : p ≠ K.pick y.s.mem.used := fun heq => hml (heq ▸ hp)
      rw [hold p hp, Function.update_of_ne hpm]
    rw [List.map_append, List.map_singleton, hmap, hnew]
    show _ ++ [(data, Function.update y.number _ _ _)] = _
    rw [Function.update_self]
    exact (unconsumed_send h.gone_lt data).symm
  · intro k hk
    have := h.gone_lt k hk
    simp only [List.length_append, List.length_singleton]
    omega
  · exact absurd (h.atCursor hph).2 hnone
  · exact absurd (h.locked hph) hnone

/-- After a receive the reader has a message or none. -/
theorem Phase.afterRecv_ne (c : Ptr) :
    afterRecv c ≠ .passed ∧ afterRecv c ≠ .dangling ∧ afterRecv c ≠ .stopped := by
  unfold afterRecv
  split <;> simp

/-- A receive returns, and gives the message behind the current one. -/
theorem recv_step {K : Kalloc} {r : Tid} {size : Nat} {y : Session} {l : List Ptr}
    (h : Inv y l) (hf : y.Follows (.recv size)) :
    ∃ y', y.op K r (.recv size) = some y' ∧ Inv y' l ∧ Effect y l y' l (.recv size) := by
  -- where the cursor stands splits the list into what it has passed and the rest
  obtain ⟨l₁, l₂, rfl, hcur, hpos⟩ : ∃ l₁ l₂, l = l₁ ++ l₂ ∧
      (y.current = NULL ∧ y.s.q.lock = .UNLOCKED ∧ l₁ = [] ∨
        l₁.getLast? = some y.current ∧ y.s.q.lock = .LOCKED) ∧
      (if y.phase = .idle then l₁ = [] else l₁.getLast? = some y.current) := by
    rcases hf with ⟨hidle, hfree⟩ | hopen
    · exact ⟨[], l, rfl, .inl ⟨h.idle hidle, hfree, rfl⟩, by rw [if_pos hidle]⟩
    · obtain ⟨hmem, hlock⟩ := h.atCursor hopen
      obtain ⟨l₁, l₂, rfl⟩ := List.append_of_mem hmem
      have hne : y.phase ≠ .idle := by rcases hopen with hph | hph <;> simp [hph]
      exact ⟨l₁ ++ [y.current], l₂, by simp, .inr ⟨by simp, hlock⟩, by simp [hne]⟩
  obtain ⟨out, s', hrecv, hsame, hout, hcopy⟩ :=
    recvMsg_spec r size h.holds.lists h.stored hcur
  rw [Session.op, hrecv, Option.map_some]
  refine ⟨_, rfl,
    ⟨h.holds.sameList hsame rfl rfl rfl, hsame.stored h.stored, h.gone_lt, fun hph => ?_,
      fun hph => ?_, fun hph => ?_, fun hph => ?_⟩,
    ⟨rfl, l₁, l₂, rfl, hpos, hout, fun m hm => (hcopy m hm).2⟩⟩
  · show out.current = NULL
    by_contra hne
    simp [Phase.afterRecv, hne] at hph
  · -- still iterating: there was a next message
    cases l₂ with
    | nil => simp [Phase.afterRecv, hout] at hph
    | cons q l₂ =>
      show out.current ∈ _ ∧ _
      rw [hout]
      exact ⟨by simp, (hcopy q rfl).1⟩
  · exact absurd hph (by simp [Phase.afterRecv_ne])
  · exact absurd hph (by simp [Phase.afterRecv_ne])

/-- After a consume the reader is idle when no message is left. -/
theorem Phase.afterConsume_idle {b c : Ptr} (h : afterConsume b c = .idle) : c = NULL := by
  by_contra hne
  rw [afterConsume, if_neg hne] at h
  split at h <;> cases h

/-- A consume returns and takes the current message out of the list. -/
theorem consume_step {K : Kalloc} {r : Tid} {y : Session} {l : List Ptr}
    (h : Inv y l) (hf : y.phase = .received) :
    ∃ y' l', y.op K r .consume = some y' ∧ Inv y' l' ∧ Effect y l y' l' .consume := by
  obtain ⟨hmem, hlock⟩ := h.atCursor (.inl hf)
  obtain ⟨l₁, l₂, rfl⟩ := List.append_of_mem hmem
  have hne : y.current ≠ NULL := fun heq => h.holds.lists.nonnull (heq ▸ hmem)
  obtain ⟨s', hun, hlists, hsame⟩ := unlink_spec h.holds.lists
  generalize hc : (if l₁ = [] then NULL else if l₂ = [] then y.current
    else l₁.getLastD NULL) = c at hun
  -- the message's own storage goes, unless the iteration ended
  obtain ⟨s'', hs'', hmsg, hbuf, hq, hused, hlock'⟩ : ∃ s'', consumeMsg r y.current y.s =
      some (c, s'') ∧ s''.msg = s'.msg ∧ s''.mem.buf = s'.mem.buf ∧
      (s''.q.head = s'.q.head ∧ s''.q.tail = s'.q.tail) ∧
      (∀ p ∈ y.s.mem.used, p ≠ y.current → p ≠ (y.s.msg y.current).data →
        p ∈ s''.mem.used) ∧ (c ≠ NULL → s''.q.lock = .LOCKED) := by
    rw [consumeMsg, if_neg hne, hun, Option.map_some]
    by_cases hcn : c = NULL
    · refine ⟨unlockQueue r s', by simp [hcn], rfl, rfl, ⟨rfl, rfl⟩, ?_, fun hn => absurd hcn hn⟩
      intro p hp _ _
      show p ∈ s'.mem.used
      rw [hsame.2.2.1]
      exact hp
    · refine ⟨(s'.kfree (s'.msg y.current).data).kfree y.current, by simp [hcn], rfl, rfl,
        ⟨rfl, rfl⟩, ?_, fun _ => hsame.2.2.2.trans hlock⟩
      intro p hp hpm hpd
      show p ∈ (s'.mem.used.erase (s'.msg y.current).data).erase y.current
      rw [hsame.2.2.1, (hsame.1 y.current).1, List.mem_erase_of_ne hpm, List.mem_erase_of_ne hpd]
      exact hp
  obtain ⟨hstored, hbytes⟩ := stored_remove h.stored hsame hmsg hbuf hused
  have hlists'' : Lists s'' (l₁ ++ l₂) := by
    refine ⟨hq.2.trans hlists.tail, hq.1.trans hlists.head, ?_, hlists.nodup, hlists.nonnull⟩
    rw [hmsg]
    exact hlists.linked
  have hcontents := h.holds.contents
  rw [List.map_append, List.map_cons] at hcontents
  rw [Session.op, hs'', Option.map_some]
  refine ⟨_, l₁ ++ l₂, rfl,
    ⟨⟨hlists'', ?_, hstored.size⟩, hstored, ?_, fun hph => ?_, fun hph => ?_, fun hph => ?_,
      fun hph => ?_⟩, ⟨l₁, l₂, rfl, rfl⟩⟩
  · refine Eq.trans ?_ (unconsumed_consume hcontents.symm).symm
    rw [← List.map_append]
    exact List.map_congr_left fun p _ => by rw [hbytes p]
  · intro k hk
    rcases List.mem_append.mp hk with hk | hk
    · exact h.gone_lt k hk
    · rw [List.mem_singleton.mp hk]
      have hin : (y.s.bytes y.current, y.number y.current) ∈ y.unconsumed := by
        rw [← hcontents]
        simp
      exact unconsumed_lt hin
  · exact Phase.afterConsume_idle hph
  · -- the cursor moved to the older neighbour
    have hcn : c ≠ NULL := by rintro rfl; simp [Phase.afterConsume] at hph
    have hcy : c ≠ y.current := by rintro rfl; simp [Phase.afterConsume, hcn] at hph
    refine ⟨?_, hlock' hcn⟩
    show c ∈ l₁ ++ l₂
    by_cases hl₁ : l₁ = []
    · exact absurd (by rw [← hc, if_pos hl₁]) hcn
    · by_cases hl₂ : l₂ = []
      · exact absurd (by rw [← hc, if_neg hl₁, if_pos hl₂]) hcy
      · rw [← hc, if_neg hl₁, if_neg hl₂]
        exact List.mem_append_left _ (getLastD_mem hl₁ NULL)
  · show c ≠ NULL
    rintro rfl
    simp [Phase.afterConsume] at hph
  · have hcn : c ≠ NULL := by rintro rfl; simp [Phase.afterConsume] at hph
    exact hlock' hcn

/-- The end of an iteration leaves the list. -/
theorem stop_step {K : Kalloc} {r : Tid} {y : Session} {l : List Ptr} (h : Inv y l) :
    ∃ y', y.op K r .stop = some y' ∧ Inv y' l ∧ Effect y l y' l .stop := by
  have hsame : SameList y.s (stopRecv r y.current y.s) := by
    unfold stopRecv
    split <;> exact ⟨rfl, rfl, rfl⟩
  have hholds : ∀ ph, ({ y with s := stopRecv r y.current y.s, phase := ph } : Session).Holds l :=
    fun ph => h.holds.sameList hsame rfl rfl rfl
  by_cases hcur : y.current = NULL
  · -- nothing to give back: only an idle receiver has no cursor
    have hidle : y.phase = .idle := by
      cases hph : y.phase with
      | idle => rfl
      | received => exact absurd (hcur ▸ (h.atCursor (.inl hph)).1) h.holds.lists.nonnull
      | passed => exact absurd (hcur ▸ (h.atCursor (.inr hph)).1) h.holds.lists.nonnull
      | dangling => exact absurd hcur (h.stale (.inl hph))
      | stopped => exact absurd hcur (h.stale (.inr hph))
    have hph : y.phase.afterStop y.current = .idle := by rw [Phase.afterStop, if_pos hcur, hidle]
    refine ⟨_, rfl, ⟨hholds _, hsame.stored h.stored, h.gone_lt, fun _ => hcur, ?_, ?_, ?_⟩, rfl⟩
    all_goals
      show _ → _
      simp [hph]
  · have hph : y.phase.afterStop y.current = .stopped := by rw [Phase.afterStop, if_neg hcur]
    refine ⟨_, rfl, ⟨hholds _, hsame.stored h.stored, h.gone_lt, ?_, ?_, fun _ => hcur, ?_⟩, rfl⟩
    all_goals
      show _ → _
      simp [hph]

theorem reset_step {K : Kalloc} {r : Tid} {y : Session} {l : List Ptr} (h : Inv y l) :
    ∃ y', y.op K r .reset = some y' ∧ Inv y' l ∧ Effect y l y' l .reset :=
  ⟨_, rfl, ⟨⟨h.holds.lists, h.holds.contents, h.holds.size⟩, h.stored, h.gone_lt, fun _ => rfl,
    by simp, by simp, by simp⟩, rfl⟩

/-- Every call of a receiver that follows its protocol returns, and does to the
list what `Effect` says. -/
theorem op_step {K : Kalloc} {r : Tid} {y : Session} {l : List Ptr} {a : Op}
    (h : Inv y l) (hf : y.Follows a) :
    ∃ y' l', y.op K r a = some y' ∧ Inv y' l' ∧ Effect y l y' l' a := by
  cases a with
  | send t data => exact send_step h hf
  | recv size =>
    obtain ⟨y', hy'⟩ := recv_step h hf
    exact ⟨y', l, hy'⟩
  | consume => exact consume_step h hf
  | stop =>
    obtain ⟨y', hy'⟩ := stop_step h
    exact ⟨y', l, hy'⟩
  | reset =>
    obtain ⟨y', hy'⟩ := reset_step h
    exact ⟨y', l, hy'⟩

/-- The head and the tail are null together. -/
theorem Session.Holds.ends {y : Session} {l : List Ptr} (h : y.Holds l) :
    y.s.q.head = NULL ↔ y.s.q.tail = NULL := by
  rw [h.lists.head_null_iff, h.lists.tail]
  cases l with
  | nil => simp
  | cons p l =>
    have hp : p ≠ NULL := fun heq => h.lists.nonnull (by simp [heq])
    simp [hp]

-- ---------------------------------------------------------------------------
-- An eager receiver
-- ---------------------------------------------------------------------------

/-- An eager receiver is at the oldest message or at none, and what it read and
what it has not consumed together are what was sent. -/
structure EagerInv (y : Session) (l : List Ptr) : Prop where
  inv   : Inv y l
  phase : y.phase = .idle ∨ y.phase = .received
  front : y.phase = .received → l.head? = some y.current ∧
    y.buffer = some (y.s.bytes y.current)
  read  : y.got ++ y.unconsumed.map Prod.fst = y.sent

/-- The list holds what is not consumed. -/
theorem Session.Holds.fst {y : Session} {l : List Ptr} (h : y.Holds l) :
    l.map y.s.bytes = y.unconsumed.map Prod.fst := by
  rw [← h.contents, List.map_map]
  rfl

/-- A reader that consumes each message gets the oldest one. -/
theorem eager_recv {K : Kalloc} {r : Tid} {size : Nat} {y y' : Session} {l : List Ptr}
    (h : EagerInv y l) (he : y.Eager (.recv size)) (hop : y.op K r (.recv size) = some y')
    (h' : Inv y' l) (heff : Effect y l y' l (.recv size)) : EagerInv y' l := by
  have hidle : y.phase = .idle := h.phase.resolve_right he.1
  obtain ⟨_, l₁, l₂, hl, hpos, hcur, hcopy⟩ := heff
  rw [if_pos hidle] at hpos
  obtain rfl : l = l₂ := by rw [hl, hpos, List.nil_append]
  obtain ⟨⟨out, s⟩, _, rfl⟩ := Option.map_eq_some_iff.mp hop
  have hcur : out.current = l.headD NULL := hcur
  refine ⟨h', ?_, ?_, h.read⟩
  · show Phase.afterRecv out.current = _ ∨ Phase.afterRecv out.current = _
    unfold Phase.afterRecv
    split
    · exact .inl rfl
    · exact .inr rfl
  · intro (hph : Phase.afterRecv out.current = .received)
    cases l with
    | nil =>
      rw [hcur] at hph
      simp [Phase.afterRecv] at hph
    | cons p l =>
      have hp : out.current = p := hcur
      refine ⟨congrArg some hp.symm, ?_⟩
      -- the record at the front is the one the buffer was made for
      have hup : y.upcoming = p := by
        rw [Session.upcoming, if_pos (h.inv.idle hidle), h.inv.holds.lists.tail]
        rfl
      have hp0 : p ≠ NULL := fun heq => h.inv.holds.lists.nonnull (by simp [heq])
      have hfits := he.2 (by rw [hup]; exact hp0)
      rw [hup, h.inv.holds.size p (List.mem_cons_self ..)] at hfits
      have hbuf : out.copied = _ := hcopy p rfl
      have hbytes : s.bytes p = y.s.bytes p :=
        congrArg Prod.fst (List.cons.inj
          (h'.holds.contents.trans h.inv.holds.contents.symm)).1
      show out.copied = some (s.bytes out.current)
      rw [hbuf, if_pos hfits, hp, hbytes]

/-- After the consume it has the next message in front of it. -/
theorem eager_consume {K : Kalloc} {r : Tid} {y y' : Session} {l l' : List Ptr}
    (h : EagerInv y l) (hf : y.phase = .received) (hop : y.op K r .consume = some y')
    (h' : Inv y' l') (heff : Effect y l y' l' .consume) : EagerInv y' l' := by
  obtain ⟨hfront, hbuf⟩ := h.front hf
  obtain ⟨l₁, l₂, hl, hl'⟩ := heff
  -- the cursor is at the oldest message, so the iteration ends here
  obtain rfl : l₁ = [] := by
    cases l₁ with
    | nil => rfl
    | cons p l₁ =>
      obtain rfl : p = y.current := by rw [hl] at hfront; simpa using hfront
      have hnd := h.inv.holds.lists.nodup
      rw [hl] at hnd
      simp at hnd
  subst hl
  have hlists : Lists y.s ([] ++ y.current :: l₂) := h.inv.holds.lists
  obtain ⟨s', hun, _⟩ := unlink_spec hlists
  obtain ⟨⟨c, s⟩, hc, rfl⟩ := Option.map_eq_some_iff.mp hop
  have hcur : c = NULL := by
    have hne : y.current ≠ NULL := fun heq => h.inv.holds.lists.nonnull (by simp [heq])
    rw [consumeMsg, if_neg hne, hun, Option.map_some, if_pos rfl] at hc
    exact (congrArg Prod.fst (Option.some.inj hc)).symm
  have hph : Phase.afterConsume y.current c = .idle := by rw [Phase.afterConsume, if_pos hcur]
  have hcontents := h.inv.holds.contents
  refine ⟨h', .inl hph, ?_, ?_⟩
  · intro hrec
    exact absurd (hph.symm.trans hrec) (by simp)
  · have hrest := unconsumed_consume (A := []) hcontents.symm
    have hread := h.read
    rw [← hcontents] at hread
    show (y.got ++ [y.buffer.getD []]) ++ List.map Prod.fst (List.filter _ _) = y.sent
    rw [hrest, hbuf, ← hread]
    simp

/-- Every call of an eager receiver keeps `EagerInv`. -/
theorem eager_step {K : Kalloc} {r : Tid} {y : Session} {l : List Ptr} {a : Op}
    (h : EagerInv y l) (hf : y.Follows a) (he : y.Eager a) :
    ∃ y' l', y.op K r a = some y' ∧ EagerInv y' l' := by
  obtain ⟨y', l', hop, h', heff⟩ := op_step (K := K) (r := r) h.inv hf
  refine ⟨y', l', hop, ?_⟩
  cases a with
  | send t data =>
    obtain ⟨s, _, rfl⟩ := Option.map_eq_some_iff.mp hop
    have hidle : y.phase = .idle := by
      refine h.phase.resolve_right ?_
      intro hrec
      have hlock := (h.inv.atCursor (.inl hrec)).2
      rw [show y.s.q.lock = .UNLOCKED from hf] at hlock
      exact absurd hlock (by simp)
    refine ⟨h', .inl hidle, fun hrec => absurd (hidle.symm.trans hrec) (by simp), ?_⟩
    show y.got ++ List.map Prod.fst (List.filter _ _) = y.sent ++ [data]
    rw [unconsumed_send h.inv.gone_lt, ← h.read]
    simp
  | recv size =>
    obtain ⟨rfl, _⟩ := id heff
    exact eager_recv h he hop h' heff
  | consume => exact eager_consume h hf hop h' heff
  | stop =>
    have hidle : y.phase = .idle := h.phase.resolve_right he
    obtain rfl := Option.some.inj hop
    have hph : y.phase.afterStop y.current = .idle := by
      rw [Phase.afterStop, if_pos (h.inv.idle hidle), hidle]
    exact ⟨h', .inl hph, fun hrec => absurd (hph.symm.trans hrec) (by simp), h.read⟩
  | reset =>
    rcases h.phase with hph | hph <;> rcases hf with hf | hf <;> simp [hph] at hf

-- ---------------------------------------------------------------------------
-- Whole runs
-- ---------------------------------------------------------------------------

/-- **Contents and order of a queue.** Every call of a receiver that follows its
protocol returns, the list stays well formed and holds exactly the messages
sent and not consumed; and an eager receiver has read them in send order. -/
theorem queue_content_and_order (K : Kalloc) (r : Tid) (mem : Kmem) (ops : List Op)
    (hf : Whenever (Session.Step K r) Session.Follows (Session.start mem) ops) :
    Along (Session.Step K r) QueueKept (Session.start mem) ops ∧
    (Whenever (Session.Step K r) Session.Eager (Session.start mem) ops →
      Along (Session.Step K r) ReadInOrder (Session.start mem) ops) := by
  constructor
  · have hstep : ∀ y a, (∃ l, Inv y l) → y.Follows a →
        ∃ y' b, Session.Step K r y a y' b ∧ QueueKept y a y' b ∧ ∃ l', Inv y' l' := by
      rintro y a ⟨l, h⟩ hf
      obtain ⟨y', l', hop, h', heff⟩ := op_step (K := K) (r := r) h hf
      exact ⟨y', (), hop, ⟨l, l', h.holds, h'.holds, heff, h'.holds.ends⟩, l', h'⟩
    exact along_of_invariant hstep ⟨[], inv_start mem⟩ hf
  · intro he
    have hstep : ∀ y a, (∃ l, EagerInv y l) → (y.Follows a ∧ y.Eager a) →
        ∃ y' b, Session.Step K r y a y' b ∧ ReadInOrder y a y' b ∧ ∃ l', EagerInv y' l' := by
      rintro y a ⟨l, h⟩ ⟨hf, he⟩
      obtain ⟨y', l', hop, h'⟩ := eager_step (K := K) (r := r) h hf he
      refine ⟨y', (), hop, ⟨l', h'.inv.holds, ?_⟩, l', h'⟩
      rw [h'.inv.holds.fst]
      exact h'.read
    have hstart : EagerInv (Session.start mem) [] :=
      ⟨inv_start mem, .inl rfl, fun h => absurd h (by simp [Session.start]), rfl⟩
    exact along_of_invariant hstep ⟨[], hstart⟩ (whenever_and hf he)

/-- Two messages, of which the first is read and consumed before the second is
sent, and a third receive that finds the queue empty. -/
theorem queue_content_and_order_two :
    Along (Session.Step Kalloc.above 1) QueueKept (Session.start Kmem.empty)
        [.send 2 [7, 8], .recv 4, .consume, .send 3 [9], .recv 4, .consume, .recv 4, .stop] ∧
      Along (Session.Step Kalloc.above 1) ReadInOrder (Session.start Kmem.empty)
        [.send 2 [7, 8], .recv 4, .consume, .send 3 [9], .recv 4, .consume, .recv 4, .stop] := by
  obtain ⟨hkept, hread⟩ := queue_content_and_order Kalloc.above 1 Kmem.empty
    [.send 2 [7, 8], .recv 4, .consume, .send 3 [9], .recv 4, .consume, .recv 4, .stop]
    (whenever_of_checkRun (computes_of_eq fun _ _ _ _ h => h) (by decide))
  exact ⟨hkept, hread (whenever_of_checkRun (computes_of_eq fun _ _ _ _ h => h) (by decide))⟩

end Frosk.Queue

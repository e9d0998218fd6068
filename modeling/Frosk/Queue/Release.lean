import Frosk.Queue.Order

/-!
# Message queues: storage

All queues of a kernel lie in one storage, with whatever else it holds. `records` is
the ledger of the message records that `create_message` made and that were not given
back since.

Main result: `released_iff`, over every run of calls on any number of queues, each with
`NULL` or with a message of its queue for its cursor, and with other users of the
storage in between.

* `consume_msg` in the middle of a queue gives back the record and the data of that
  message, once and nothing else, and leaves the cursor at a message of the queue.
* At the oldest message it gives back nothing, since the cursor is `NULL` by then; at the
  newest of several it leaves the cursor at the record it has given back.
-/

namespace Frosk.Queue

open Lib

variable {ι : Type*} [DecidableEq ι]

-- ---------------------------------------------------------------------------
-- A kernel with queues
-- ---------------------------------------------------------------------------

/-- What a queue has of its own. -/
structure Part where
  q     : MQueue
  owner : Option Tid
  stray : Nat

structure Kernel (ι : Type*) where
  mem     : Kmem
  part    : ι → Part
  records : List Ptr

namespace Kernel

def queue (k : Kernel ι) (i : ι) : State := ⟨k.mem, (k.part i).q, (k.part i).owner, (k.part i).stray⟩

/-- What is given back is off the ledger. -/
def put (k : Kernel ι) (i : ι) (s : State) : Kernel ι where
  mem := s.mem
  part := Function.update k.part i ⟨s.q, s.owner, s.stray⟩
  records := k.records.filter (· ∈ s.mem.used)

/-- The message at `p` is in the queue `i`. -/
def Holds (k : Kernel ι) (i : ι) (p : Ptr) : Prop := ∃ l, Lists (k.queue i) l ∧ p ∈ l

end Kernel

/-- Calls by any thread on any queue, and the other users of `kalloc` and `kfree`. -/
inductive Request (ι : Type*) where
  | send (i : ι) (t : Tid) (data : List UInt8)
  | recv (i : ι) (t : Tid) (size : Nat) (current : Ptr)
  | consume (i : ι) (t : Tid) (current : Ptr)
  | stop (i : ι) (t : Tid) (current : Ptr)
  | kalloc (m : Message) (b : List UInt8)
  | kfree (p : Ptr)

/-- A request, and the cursor it leaves. -/
def Kernel.request (K : Kalloc) (k : Kernel ι) : Request ι → Option (Kernel ι × Ptr)
  | .send i t data => (sendMsg K t data (k.queue i)).map fun s =>
    ({ k with records := K.pick k.mem.used :: k.records }.put i s, NULL)
  | .recv i t size current => (recvMsg t size current (k.queue i)).map fun (out, s) =>
    (k.put i s, out.current)
  | .consume i t current => (consumeMsg t current (k.queue i)).map fun (c, s) => (k.put i s, c)
  | .stop i t current => some (k.put i (stopRecv t current (k.queue i)), current)
  | .kalloc m b =>
    let p := K.pick k.mem.used
    some ({ k with mem := { k.mem with
      msg := Function.update k.mem.msg p m
      buf := Function.update k.mem.buf p b
      used := p :: k.mem.used } }, NULL)
  | .kfree p => some ({ k with mem := { k.mem with
      used := k.mem.used.erase p
      freed := p :: k.mem.freed } }, NULL)

def Kernel.Step (K : Kalloc) (k : Kernel ι) (a : Request ι) (k' : Kernel ι) (c : Ptr) : Prop :=
  k.request K a = some (k', c)

/-- A send and the start of an iteration wait for the lock, a cursor is `NULL` or at a
message of the queue, and nobody else gives back the storage of a message. -/
def Kernel.Allows (k : Kernel ι) : Request ι → Prop
  | .send i _ _ => (k.part i).q.lock = .UNLOCKED
  | .recv i _ _ current =>
    current = NULL ∧ (k.part i).q.lock = .UNLOCKED ∨ current ≠ NULL ∧ k.Holds i current
  | .consume i _ current => current = NULL ∨ k.Holds i current
  | .stop _ _ _ => True
  | .kalloc _ _ => True
  | .kfree p => ∀ r ∈ k.records, p ≠ r ∧ p ≠ (k.mem.msg r).data

/-- What `recv_msg` reads of the storage: the record at the cursor, the one it goes on to,
and its data if they fit. -/
def recvReads (size : Nat) (current : Ptr) (s : State) : List Ptr :=
  let next := if current = NULL then s.q.tail else (s.msg current).prev
  (if current = NULL then [] else [current]) ++
    if next = NULL then []
    else if (s.msg next).size ≤ size then [next, (s.msg next).data] else [next]

/-- The storage of the message at the cursor, if there is one, and no other is given back; the
message leaves its queue; and the cursor is fit for the next `recv_msg`. -/
structure Released (k : Kernel ι) (i : ι) (current : Ptr) (k' : Kernel ι) (c : Ptr) : Prop where
  freed  : k'.mem.freed.Perm
    ((if current = NULL then [] else [current, (k.mem.msg current).data]) ++ k.mem.freed)
  held   : ∀ p, k'.Holds i p ↔ k.Holds i p ∧ p ≠ current
  cursor : c = NULL ∨ k'.Holds i c
  reads  : ∀ size, ∀ p ∈ recvReads size c (k'.queue i), p ∈ k'.mem.used

/-- The ledger has the records of the queues, and a `consume_msg` releases its message. -/
structure Kept (k : Kernel ι) (a : Request ι) (k' : Kernel ι) (c : Ptr) : Prop where
  ledger   : ∀ p, p ∈ k'.records ↔ ∃ i, k'.Holds i p
  released : ∀ i t current, a = .consume i t current → Released k i current k' c

/-- No message is consumed at an end of its queue. -/
def BetweenEnds (k : Kernel ι) : Request ι → Prop
  | .consume i _ current =>
    current = NULL ∨ current ≠ (k.part i).q.tail ∧ current ≠ (k.part i).q.head
  | _ => True

-- ---------------------------------------------------------------------------
-- What a call on one queue leaves alone
-- ---------------------------------------------------------------------------

/-- The records `l` and their data. -/
def storage (m : Kmem) (l : List Ptr) : List Ptr := l ++ l.map fun p => (m.msg p).data

/-- The storage of a list has its records and their data. -/
theorem mem_storage {m : Kmem} {l : List Ptr} {p : Ptr} (hp : p ∈ l) :
    p ∈ storage m l ∧ (m.msg p).data ∈ storage m l :=
  ⟨List.mem_append_left _ hp, List.mem_append_right _ (List.mem_map_of_mem hp)⟩

/-- It depends on the records only. -/
theorem storage_congr {m m' : Kmem} {l : List Ptr} (h : ∀ p ∈ l, m'.msg p = m.msg p) :
    storage m' l = storage m l :=
  congrArg (l ++ ·) (List.map_congr_left fun p hp => congrArg Message.data (h p hp))

/-- What is stored is in use. -/
theorem Stored.in_use {s : State} {l : List Ptr} (h : Stored s l) {p : Ptr}
    (hp : p ∈ storage s.mem l) : p ∈ s.mem.used := by
  rcases List.mem_append.mp hp with hp | hp
  · exact (h.used p hp).1
  · obtain ⟨r, hr, rfl⟩ := List.mem_map.mp hp
    exact (h.used r hr).2

/-- Storage in use stays as it is outside of `own`. -/
def Frame (m m' : Kmem) (own : List Ptr) : Prop :=
  ∀ p ∈ m.used, p ∉ own → m'.msg p = m.msg p ∧ m'.buf p = m.buf p ∧ p ∈ m'.used

/-- A queue whose storage stays as it is. -/
theorem Frame.queue {m' : Kmem} {s t : State} {l own : List Ptr} (hf : Frame s.mem m' own)
    (hl : Lists s l) (hst : Stored s l) (hown : ∀ p ∈ storage s.mem l, p ∉ own)
    (hmem : t.mem = m') (hq : t.q = s.q) :
    Lists t l ∧ Stored t l ∧ ∀ p ∈ l, t.msg p = s.msg p := by
  subst hmem
  have hmsg : ∀ p ∈ l, t.msg p = s.msg p := fun p hp =>
    (hf p (hst.used p hp).1 (hown p (mem_storage hp).1)).1
  refine ⟨⟨?_, ?_, ?_, hl.nodup, hl.nonnull⟩, ⟨?_, ?_, ?_⟩, hmsg⟩
  · rw [hq]
    exact hl.tail
  · rw [hq]
    exact hl.head
  · refine linked_congr hl.linked (fun p hp => ?_) fun p hp => ?_
    · rw [hmsg p hp]
    · rw [hmsg p hp]
  · intro p hp
    obtain ⟨hp₁, hp₂⟩ := hst.used p hp
    rw [hmsg p hp]
    exact ⟨(hf p hp₁ (hown p (mem_storage hp).1)).2.2, (hf _ hp₂ (hown _ (mem_storage hp).2)).2.2⟩
  · have hsame : storage t.mem l = storage s.mem l := storage_congr hmsg
    show (storage t.mem l).Nodup
    rw [hsame]
    exact hst.apart
  · intro p hp
    have hbytes : t.bytes p = s.bytes p := by
      rw [State.bytes, State.bytes, hmsg p hp]
      exact (hf _ (hst.used p hp).2 (hown _ (mem_storage hp).2)).2.1
    rw [hmsg p hp, hbytes]
    exact hst.size p hp

/-- `tryNext` changes the one record only. -/
theorem tryNext_frame (s : State) (p v : Ptr) :
    (s.tryNext p v).mem.buf = s.mem.buf ∧ (s.tryNext p v).mem.used = s.mem.used ∧
      (s.tryNext p v).mem.freed = s.mem.freed ∧
      ∀ x, (x = p → p = NULL) → (s.tryNext p v).msg x = s.msg x := by
  unfold State.tryNext
  split
  · rename_i hp
    refine ⟨rfl, rfl, rfl, ?_⟩
    intro x hx
    rw [State.setNext_msg, if_neg fun heq => hp (hx heq)]
  · exact ⟨rfl, rfl, rfl, fun _ _ => rfl⟩

theorem tryPrev_frame (s : State) (p v : Ptr) :
    (s.tryPrev p v).mem.buf = s.mem.buf ∧ (s.tryPrev p v).mem.used = s.mem.used ∧
      (s.tryPrev p v).mem.freed = s.mem.freed ∧
      ∀ x, (x = p → p = NULL) → (s.tryPrev p v).msg x = s.msg x := by
  unfold State.tryPrev
  split
  · rename_i hp
    refine ⟨rfl, rfl, rfl, ?_⟩
    intro x hx
    rw [State.setPrev_msg, if_neg fun heq => hp (hx heq)]
  · exact ⟨rfl, rfl, rfl, fun _ _ => rfl⟩

/-- Taking a message out stores to its neighbours only. -/
theorem unlink_frame {m c : Ptr} {s s' : State} (h : unlink m s = some (c, s')) :
    s'.mem.buf = s.mem.buf ∧ s'.mem.used = s.mem.used ∧ s'.mem.freed = s.mem.freed ∧
      ∀ x, (x = (s.msg m).prev → (s.msg m).prev = NULL) →
        (x = (s.msg m).next → (s.msg m).next = NULL) → s'.msg x = s.msg x := by
  unfold unlink at h
  by_cases htail : m = s.q.tail
  · rw [if_pos htail, Option.some.injEq, Prod.mk.injEq] at h
    obtain ⟨-, rfl⟩ := h
    obtain ⟨hbuf, hused, hfreed, hmsg⟩ := tryNext_frame (s.setTail (s.msg m).prev) (s.msg m).prev NULL
    split
    · exact ⟨hbuf, hused, hfreed, fun x hprev _ => hmsg x hprev⟩
    · exact ⟨hbuf, hused, hfreed, fun x hprev _ => hmsg x hprev⟩
  · rw [if_neg htail] at h
    by_cases hhead : m = s.q.head
    · rw [if_pos hhead] at h
      by_cases hnext : (s.msg m).next = NULL
      · simp [hnext] at h
      · rw [if_neg hnext, Option.some.injEq, Prod.mk.injEq] at h
        obtain ⟨-, rfl⟩ := h
        refine ⟨rfl, rfl, rfl, ?_⟩
        intro x _ hx
        rw [State.setPrev_msg, if_neg fun heq => hnext (hx heq)]
        rfl
    · rw [if_neg hhead, Option.some.injEq, Prod.mk.injEq] at h
      obtain ⟨-, rfl⟩ := h
      obtain ⟨hbuf, hused, hfreed, hmsg⟩ := tryNext_frame s (s.msg m).prev (s.msg m).next
      obtain ⟨hbuf', hused', hfreed', hmsg'⟩ :=
        tryPrev_frame (s.tryNext (s.msg m).prev (s.msg m).next) (s.msg m).next (s.msg m).prev
      exact ⟨hbuf'.trans hbuf, hused'.trans hused, hfreed'.trans hfreed, fun x hprev hnext =>
        (hmsg' x hnext).trans (hmsg x hprev)⟩

/-- A send stores to its new record, its new data and the newest message. -/
theorem sendMsg_frame {K : Kalloc} {t : Tid} {data : List UInt8} {s s' : State} {l : List Ptr}
    (hl : Lists s l) (h : sendMsg K t data s = some s') :
    Frame s.mem s'.mem l ∧ (∀ p ∈ s.mem.used, (s'.msg p).data = (s.msg p).data) ∧
      ∃ d, s'.mem.used = d :: K.pick s.mem.used :: s.mem.used ∧
        d ∉ K.pick s.mem.used :: s.mem.used ∧ (s'.msg (K.pick s.mem.used)).data = d := by
  set m := K.pick s.mem.used with hm
  have hfree := (sendMsg_lock h).1
  rw [sendMsg, lockQueue_free hfree, Option.map_some, Option.some.injEq] at h
  have hmfresh : m ∉ s.mem.used := K.fresh _
  have hdfresh : K.pick (m :: s.mem.used) ∉ m :: s.mem.used := K.fresh _
  have hother : ∀ p ∈ s.mem.used, p ≠ m ∧ p ≠ K.pick (m :: s.mem.used) := fun p hp =>
    ⟨fun heq => hmfresh (heq ▸ hp), fun heq => hdfresh (heq ▸ List.mem_cons_of_mem _ hp)⟩
  by_cases hnil : s.q.head = NULL
  · simp only [createMessage, isEmpty, hnil, beq_self_eq_true, if_true, ← hm] at h
    subst h
    have hmsg : ∀ p ∈ s.mem.used, Function.update s.mem.msg m
        ⟨K.pick (m :: s.mem.used), data.length, NULL, NULL⟩ p = s.mem.msg p := fun p hp =>
      Function.update_of_ne (hother p hp).1 ..
    refine ⟨fun p hp _ => ⟨hmsg p hp, ?_, ?_⟩, fun p hp => congrArg Message.data (hmsg p hp), _, rfl,
      hdfresh, ?_⟩
    · exact Function.update_of_ne (hother p hp).2 ..
    · exact List.mem_cons_of_mem _ (List.mem_cons_of_mem _ hp)
    · show (Function.update s.mem.msg m _ m).data = _
      rw [Function.update_self]
  · have hmem : s.q.head ∈ l := by
      rw [hl.head]
      exact getLastD_mem (fun heq => hnil (hl.head_null_iff.mpr heq)) NULL
    simp only [createMessage, isEmpty, beq_iff_eq, hnil, if_false, ← hm] at h
    subst h
    refine ⟨fun p hp hpl => ⟨?_, ?_, ?_⟩, fun p hp => ?_, _, rfl, hdfresh, ?_⟩
    · show State.msg _ p = State.msg _ p
      rw [State.unlockQueue_msg, State.setHead_msg, State.setNext_msg, if_neg (hother p hp).1,
        State.setPrev_msg, if_neg fun heq : p = s.q.head => hpl (heq ▸ hmem)]
      exact Function.update_of_ne (hother p hp).1 ..
    · exact Function.update_of_ne (hother p hp).2 ..
    · exact List.mem_cons_of_mem _ (List.mem_cons_of_mem _ hp)
    · rw [State.unlockQueue_msg, State.setHead_msg, State.setNext_msg, if_neg (hother p hp).1,
        State.setPrev_msg]
      split
      · rename_i heq
        show (Function.update s.mem.msg m _ s.q.head).data = _
        rw [← show p = s.q.head from heq, Function.update_of_ne (hother p hp).1]
        rfl
      · show (Function.update s.mem.msg m _ p).data = _
        rw [Function.update_of_ne (hother p hp).1]
        rfl
    · rw [State.unlockQueue_msg, State.setHead_msg, State.setNext_msg, if_pos rfl]
      show (State.msg _ m).data = _
      rw [State.setPrev_msg]
      split
      · rename_i heq
        show (Function.update s.mem.msg m _ s.q.head).data = _
        rw [← heq, Function.update_self]
      · show (Function.update s.mem.msg m _ m).data = _
        rw [Function.update_self]

-- ---------------------------------------------------------------------------
-- The invariant
-- ---------------------------------------------------------------------------

/-- The queues are the lists `l`, no two of them share storage, and the ledger is right. -/
structure Kernel.WellFormed (k : Kernel ι) (l : ι → List Ptr) : Prop where
  lists   : ∀ i, Lists (k.queue i) (l i)
  stored  : ∀ i, Stored (k.queue i) (l i)
  apart   : ∀ i j, i ≠ j → ∀ p ∈ storage k.mem (l i), p ∉ storage k.mem (l j)
  used    : k.mem.used.Nodup
  records : ∀ p, p ∈ k.records ↔ ∃ i, p ∈ l i

variable {k k' : Kernel ι} {l : ι → List Ptr} {i : ι} {s' : State} {l' : List Ptr}

omit [DecidableEq ι] in
/-- A queue holds the records of its list. -/
theorem Kernel.WellFormed.holds_iff (h : k.WellFormed l) {p : Ptr} : k.Holds i p ↔ p ∈ l i := by
  constructor
  · rintro ⟨l', hl', hp⟩
    rwa [(h.lists i).unique hl']
  · intro hp
    exact ⟨l i, h.lists i, hp⟩

omit [DecidableEq ι] in
/-- Every record that was made is held by a queue. -/
theorem Kernel.WellFormed.ledger (h : k.WellFormed l) (p : Ptr) :
    p ∈ k.records ↔ ∃ i, k.Holds i p := by
  rw [h.records]
  exact exists_congr fun i => h.holds_iff.symm

omit [DecidableEq ι] in
theorem Kernel.WellFormed.in_use (h : k.WellFormed l) {p : Ptr} (hp : p ∈ storage k.mem (l i)) :
    p ∈ k.mem.used :=
  (h.stored i).in_use hp

/-- A call on the queue `i` that stores to its own and to fresh storage. -/
theorem Kernel.WellFormed.put (h : k.WellFormed l) (records : List Ptr) (hlists : Lists s' l')
    (hstored : Stored s' l') (hframe : Frame k.mem s'.mem (storage k.mem (l i)))
    (hnew : ∀ p ∈ storage s'.mem l', p ∈ storage k.mem (l i) ∨ p ∉ k.mem.used)
    (hused : s'.mem.used.Nodup)
    (hrecords : ∀ p ∈ s'.mem.used, p ∈ records ↔ p ∈ l' ∨ ∃ j, j ≠ i ∧ p ∈ l j) :
    ({ k with records := records }.put i s').WellFormed (Function.update l i l') := by
  have hself : ({ k with records := records }.put i s').queue i = s' := by
    rw [Kernel.queue, Kernel.put]
    simp only [Function.update_self]
  have hother : ∀ j, j ≠ i → Lists (({ k with records := records }.put i s').queue j) (l j) ∧
      Stored (({ k with records := records }.put i s').queue j) (l j) ∧
        ∀ p ∈ l j, s'.mem.msg p = k.mem.msg p := by
    intro j hj
    refine Frame.queue (s := k.queue j) hframe (h.lists j) (h.stored j) (fun p hp => ?_) rfl ?_
    · exact h.apart j i hj p hp
    · rw [Kernel.queue, Kernel.put]
      simp only [Function.update_of_ne hj]
      rfl
  have hstorage : ∀ j, j ≠ i → storage s'.mem (l j) = storage k.mem (l j) := fun j hj =>
    storage_congr (hother j hj).2.2
  have hnew' : ∀ j, j ≠ i → ∀ p ∈ storage s'.mem l', p ∉ storage s'.mem (l j) := by
    intro j hj p hp hpj
    rw [hstorage j hj] at hpj
    rcases hnew p hp with hold | hfresh
    · exact h.apart i j hj.symm p hold hpj
    · exact hfresh (h.in_use hpj)
  refine ⟨?_, ?_, ?_, hused, ?_⟩
  · intro j
    by_cases hj : j = i
    · subst hj
      rw [hself, Function.update_self]
      exact hlists
    · rw [Function.update_of_ne hj]
      exact (hother j hj).1
  · intro j
    by_cases hj : j = i
    · subst hj
      rw [hself, Function.update_self]
      exact hstored
    · rw [Function.update_of_ne hj]
      exact (hother j hj).2.1
  · intro j j' hne p hp hp'
    change p ∈ storage s'.mem _ at hp
    change p ∈ storage s'.mem _ at hp'
    by_cases hj : j = i
    · subst hj
      rw [Function.update_self] at hp
      rw [Function.update_of_ne hne.symm] at hp'
      exact hnew' j' hne.symm p hp hp'
    · rw [Function.update_of_ne hj] at hp
      by_cases hj' : j' = i
      · subst hj'
        rw [Function.update_self] at hp'
        exact hnew' j hj p hp' hp
      · rw [Function.update_of_ne hj', hstorage j' hj'] at hp'
        rw [hstorage j hj] at hp
        exact h.apart j j' hne p hp hp'
  · intro p
    have hin : (∃ j, p ∈ Function.update l i l' j) ↔ p ∈ l' ∨ ∃ j, j ≠ i ∧ p ∈ l j := by
      constructor
      · rintro ⟨j, hp⟩
        by_cases hj : j = i
        · subst hj
          rw [Function.update_self] at hp
          exact .inl hp
        · rw [Function.update_of_ne hj] at hp
          exact .inr ⟨j, hj, hp⟩
      · rintro (hp | ⟨j, hj, hp⟩)
        · exact ⟨i, by rwa [Function.update_self]⟩
        · exact ⟨j, by rwa [Function.update_of_ne hj]⟩
    rw [hin]
    show p ∈ records.filter (· ∈ s'.mem.used) ↔ _
    rw [List.mem_filter, decide_eq_true_eq]
    constructor
    · rintro ⟨hp, hpu⟩
      exact (hrecords p hpu).mp hp
    · intro hp
      have hpu : p ∈ s'.mem.used := by
        rcases hp with hp | ⟨j, hj, hp⟩
        · exact (hstored.used p hp).1
        · exact ((hother j hj).2.1.used p hp).1
      exact ⟨(hrecords p hpu).mpr hp, hpu⟩

-- ---------------------------------------------------------------------------
-- One call
-- ---------------------------------------------------------------------------

/-- A call that changes the lock at most. -/
theorem Kernel.WellFormed.put_same (h : k.WellFormed l) (hs : SameList (k.queue i) s') :
    (k.put i s').WellFormed l := by
  have hmem : s'.mem = k.mem := hs.mem
  have hlists := hs.lists (h.lists i)
  have hkept := h.put k.records hlists (hs.stored (h.stored i))
    (fun p hp _ => by rw [hmem]; exact ⟨rfl, rfl, hp⟩) (fun p hp => by rw [hmem] at hp; exact .inl hp)
    (by rw [hmem]; exact h.used) fun p _ => ?_
  · rwa [Function.update_eq_self] at hkept
  · rw [h.records]
    constructor
    · rintro ⟨j, hp⟩
      by_cases hj : j = i
      · exact .inl (hj ▸ hp)
      · exact .inr ⟨j, hj, hp⟩
    · rintro (hp | ⟨j, -, hp⟩)
      · exact ⟨i, hp⟩
      · exact ⟨j, hp⟩

/-- A send keeps the kernel well formed. -/
theorem send_kept (K : Kalloc) (h : k.WellFormed l) (t : Tid) (data : List UInt8)
    (hfree : (k.part i).q.lock = .UNLOCKED) :
    ∃ k' l', k.request K (.send i t data) = some (k', NULL) ∧ k'.WellFormed l' := by
  obtain ⟨s', hsend, hlists, hstored, -, -⟩ := sendMsg_spec K t data (h.lists i) (h.stored i) hfree
  obtain ⟨hframe, hkept, d, hused, hd, hdata⟩ := sendMsg_frame (h.lists i) hsend
  have hmfresh : K.pick k.mem.used ∉ k.mem.used := K.fresh _
  rw [Kernel.request, hsend]
  refine ⟨_, _, rfl, h.put _ hlists hstored (fun p hp hpi => ?_) (fun p hp => ?_) ?_ fun p hp => ?_⟩
  · exact hframe p hp fun hpl => hpi (mem_storage hpl).1
  · -- the new storage is fresh
    rcases List.mem_append.mp hp with hp | hp
    · rcases List.mem_append.mp hp with hp | hp
      · exact .inl (mem_storage hp).1
      · rw [List.mem_singleton.mp hp]
        exact .inr hmfresh
    · obtain ⟨r, hr, rfl⟩ := List.mem_map.mp hp
      rcases List.mem_append.mp hr with hr | hr
      · have hsame : (s'.mem.msg r).data = (k.mem.msg r).data := hkept r ((h.stored i).used r hr).1
        rw [hsame]
        exact .inl (mem_storage hr).2
      · rw [List.mem_singleton.mp hr]
        have hnew : (s'.mem.msg (K.pick (k.queue i).mem.used)).data = d := hdata
        rw [hnew]
        exact .inr fun hmem => hd (List.mem_cons_of_mem _ hmem)
  · rw [hused]
    exact List.nodup_cons.mpr ⟨hd, List.nodup_cons.mpr ⟨hmfresh, h.used⟩⟩
  · rw [List.mem_cons, h.records, List.mem_append, List.mem_singleton]
    constructor
    · rintro (hp | ⟨j, hp⟩)
      · exact .inl (.inr hp)
      · by_cases hj : j = i
        · exact .inl (.inl (hj ▸ hp))
        · exact .inr ⟨j, hj, hp⟩
    · rintro ((hp | hp) | ⟨j, -, hp⟩)
      · exact .inr ⟨i, hp⟩
      · exact .inl hp
      · exact .inr ⟨j, hp⟩

/-- A receive changes no list. -/
theorem recvMsg_same (t : Tid) (size : Nat) {current : Ptr} {s : State}
    (hcur : current = NULL ∧ s.q.lock = .UNLOCKED ∨ current ≠ NULL) :
    ∃ out s', recvMsg t size current s = some (out, s') ∧ SameList s s' := by
  unfold recvMsg
  rcases hcur with ⟨rfl, hfree⟩ | hne
  · rw [if_pos rfl, lockQueue_free hfree, Option.map_some]
    obtain ⟨hmem, hhead, htail⟩ :=
      (recvAt_spec t size s.q.tail { s with q := { s.q with lock := .LOCKED }, owner := some t }).1
    exact ⟨_, _, rfl, hmem, hhead, htail⟩
  · rw [if_neg hne]
    exact ⟨_, _, rfl, (recvAt_spec t size (s.msg current).prev s).1⟩

omit [DecidableEq ι] in
/-- Where the cursor is fit, `recv_msg` reads storage of messages only. -/
theorem Kernel.WellFormed.reads (h : k.WellFormed l) {c : Ptr} (hc : c = NULL ∨ c ∈ l i) (size : Nat) :
    ∀ p ∈ recvReads size c (k.queue i), p ∈ k.mem.used := by
  have hstorage : ∀ q ∈ l i, q ∈ k.mem.used ∧ (k.mem.msg q).data ∈ k.mem.used := (h.stored i).used
  have hnext : ∀ q, q = NULL ∨ q ∈ l i → ∀ p ∈ (if q = NULL then []
      else if ((k.queue i).msg q).size ≤ size then [q, ((k.queue i).msg q).data] else [q]),
      p ∈ k.mem.used := by
    intro q hq p hp
    split at hp
    · cases hp
    · rename_i hne
      obtain ⟨hq₁, hq₂⟩ := hstorage q (hq.resolve_left hne)
      split at hp
      · simp only [List.mem_cons, List.not_mem_nil, or_false] at hp
        rcases hp with rfl | rfl
        · exact hq₁
        · exact hq₂
      · rw [List.mem_singleton.mp hp]
        exact hq₁
  intro p hp
  rw [recvReads] at hp
  rcases List.mem_append.mp hp with hp | hp
  · split at hp
    · cases hp
    · rename_i hne
      rw [List.mem_singleton.mp hp]
      exact (hstorage c (hc.resolve_left hne)).1
  · refine hnext _ ?_ p hp
    split
    · rw [(h.lists i).tail]
      cases l i with
      | nil => exact .inl rfl
      | cons q qs => exact .inr List.mem_cons_self
    · rename_i hne
      obtain ⟨l₁, l₂, hl⟩ := List.append_of_mem (hc.resolve_left hne)
      have hlists := h.lists i
      rw [hl] at hlists ⊢
      rw [hlists.neighbours.2]
      cases l₂ with
      | nil => exact .inl rfl
      | cons q qs => exact .inr (by simp)

omit [DecidableEq ι] in
/-- Between the ends of its queue a message has neighbours. -/
theorem Kernel.WellFormed.between (h : k.WellFormed l) {current : Ptr} (hmem : current ∈ l i)
    (htail : current ≠ (k.part i).q.tail) (hhead : current ≠ (k.part i).q.head) :
    ∃ l₁ l₂, l i = l₁ ++ current :: l₂ ∧ l₁ ≠ [] ∧ l₂ ≠ [] := by
  obtain ⟨l₁, l₂, hl⟩ := List.append_of_mem hmem
  have hlists := h.lists i
  rw [hl] at hlists
  refine ⟨l₁, l₂, hl, ?_, ?_⟩
  · rintro rfl
    exact htail hlists.tail.symm
  · rintro rfl
    have hlast : (l₁ ++ [current]).getLastD NULL = current := by
      rw [getLastD_append (List.cons_ne_nil current [])]
      rfl
    exact hhead (hlast.symm.trans hlists.head.symm)

/-- `consumeMsg` frees the message that it unlinks, unless none is behind it. -/
theorem consumeMsg_of_unlink (t : Tid) {current c : Ptr} {s s' : State} (hne : current ≠ NULL)
    (h : unlink current s = some (c, s')) :
    consumeMsg t current s = some (if c ≠ NULL then (c, (s'.kfree (s'.msg current).data).kfree current)
      else (NULL, unlockQueue t s')) := by
  rw [consumeMsg, if_neg hne, h]
  rfl

/-- `consume_msg` between the ends of a queue. -/
theorem consumeMsg_between (t : Tid) {s : State} {l₁ l₂ : List Ptr} {current : Ptr}
    (hlists : Lists s (l₁ ++ current :: l₂)) (hstored : Stored s (l₁ ++ current :: l₂))
    (hl₁ : l₁ ≠ []) (hl₂ : l₂ ≠ []) :
    ∃ s', consumeMsg t current s = some (l₁.getLastD NULL, s') ∧ Lists s' (l₁ ++ l₂) ∧
      Stored s' (l₁ ++ l₂) ∧ Frame s.mem s'.mem (storage s.mem (l₁ ++ current :: l₂)) ∧
      (∀ p, (s'.msg p).data = (s.msg p).data) ∧
      s'.mem.used = (s.mem.used.erase (s.msg current).data).erase current ∧
      s'.mem.freed = current :: (s.msg current).data :: s.mem.freed := by
  obtain ⟨s', hunlink, hlists', hsame⟩ := unlink_spec hlists
  rw [if_neg hl₁, if_neg hl₂] at hunlink
  obtain ⟨hbuf, hused, hfreed, hmsg⟩ := unlink_frame hunlink
  have hcur : current ∈ l₁ ++ current :: l₂ := by simp
  have hne : current ≠ NULL := fun heq => hlists.nonnull (heq ▸ hcur)
  have hlast : l₁.getLastD NULL ∈ l₁ := getLastD_mem hl₁ NULL
  have hcne : l₁.getLastD NULL ≠ NULL := fun heq =>
    hlists'.nonnull (heq ▸ List.mem_append_left l₂ hlast)
  have hdata : (s'.msg current).data = (s.msg current).data := (hsame.1 current).1
  have hcall := consumeMsg_of_unlink t hne hunlink
  rw [if_pos hcne, hdata] at hcall
  have hkeep : ∀ p ∈ s.mem.used, p ≠ current → p ≠ (s.msg current).data →
      p ∈ (s'.mem.used.erase (s.msg current).data).erase current := by
    intro p hp hpm hpd
    rw [List.mem_erase_of_ne hpm, List.mem_erase_of_ne hpd, hused]
    exact hp
  refine ⟨_, hcall, ?_, ?_, fun p hp hown => ⟨?_, ?_, ?_⟩, fun p => (hsame.1 p).1, ?_, ?_⟩
  · exact ⟨hlists'.tail, hlists'.head, hlists'.linked, hlists'.nodup, hlists'.nonnull⟩
  · have hrest : Stored ((s'.kfree (s.msg current).data).kfree current) (l₁ ++ l₂) ∧ _ :=
      stored_remove hstored hsame rfl rfl hkeep
    exact hrest.1
  · -- the records that are stored to are its neighbours
    have hneighbours := hlists.neighbours
    refine hmsg p (fun heq => ?_) fun heq => ?_
    · rw [hneighbours.2] at heq
      refine absurd (mem_storage (m := s.mem) ?_).1 hown
      rw [heq]
      cases l₂ with
      | nil => exact absurd rfl hl₂
      | cons q qs => simp
    · rw [hneighbours.1] at heq
      refine absurd (mem_storage (m := s.mem) ?_).1 hown
      rw [heq]
      exact List.mem_append_left _ hlast
  · exact congrFun hbuf p
  · obtain ⟨hown₁, hown₂⟩ := mem_storage (m := s.mem) hcur
    exact hkeep p hp (fun heq => hown (heq ▸ hown₁)) fun heq => hown (heq ▸ hown₂)
  · show (s'.mem.used.erase _).erase _ = _
    rw [hused]
  · show current :: _ :: s'.mem.freed = _
    rw [hfreed]

/-- In the middle of a queue the message is released, and all stays well formed. -/
theorem consume_kept (K : Kalloc) (h : k.WellFormed l) (t : Tid) {current : Ptr} (hcur : current ∈ l i)
    (htail : current ≠ (k.part i).q.tail) (hhead : current ≠ (k.part i).q.head) :
    ∃ k' c l', k.request K (.consume i t current) = some (k', c) ∧ k'.WellFormed l' ∧
      Released k i current k' c := by
  obtain ⟨l₁, l₂, hl, hl₁, hl₂⟩ := h.between hcur htail hhead
  have hlists := h.lists i
  have hstored := h.stored i
  rw [hl] at hlists hstored
  obtain ⟨s', hcall, hlists', hstored', hframe, hdata, hused, hfreed⟩ :=
    consumeMsg_between t hlists hstored hl₁ hl₂
  rw [← hl] at hframe
  have hsub : (l₁ ++ l₂).Sublist (l i) :=
    hl ▸ List.Sublist.append_left (List.sublist_cons_self current l₂) l₁
  have hrest : ∀ p, p ∈ l₁ ++ l₂ ↔ p ∈ l i ∧ p ≠ current := by
    intro p
    have hnodup := List.nodup_cons.mp (List.nodup_middle.mp hlists.nodup)
    constructor
    · intro hp
      exact ⟨hsub.subset hp, fun heq => hnodup.1 (heq ▸ hp)⟩
    · rintro ⟨hp, hne⟩
      rw [hl] at hp
      simp only [List.mem_append, List.mem_cons, hne, false_or] at hp ⊢
      exact hp
  have hwf : (k.put i s').WellFormed (Function.update l i (l₁ ++ l₂)) := by
    refine h.put _ hlists' hstored' hframe (fun p hp => .inl ?_) ?_ fun p hp => ?_
    · have hstorage : storage s'.mem (l₁ ++ l₂) = storage k.mem (l₁ ++ l₂) :=
        congrArg ((l₁ ++ l₂) ++ ·) (List.map_congr_left fun p _ => hdata p)
      rw [hstorage] at hp
      exact (hsub.append (hsub.map _)).subset hp
    · rw [hused]
      exact (h.used.erase _).erase _
    · have hgone : p ≠ current := by
        rintro rfl
        rw [hused] at hp
        exact (h.used.erase _).not_mem_erase hp
      rw [h.records, hrest]
      constructor
      · rintro ⟨j, hp⟩
        by_cases hj : j = i
        · exact .inl ⟨hj ▸ hp, hgone⟩
        · exact .inr ⟨j, hj, hp⟩
      · rintro (⟨hp, -⟩ | ⟨j, -, hp⟩)
        · exact ⟨i, hp⟩
        · exact ⟨j, hp⟩
  have hc : l₁.getLastD NULL ∈ Function.update l i (l₁ ++ l₂) i := by
    rw [Function.update_self]
    exact List.mem_append_left _ (getLastD_mem hl₁ NULL)
  have hne : current ≠ NULL := fun heq => (h.lists i).nonnull (heq ▸ hcur)
  refine ⟨_, _, _, ?_, hwf, ?_, ?_, .inr (hwf.holds_iff.mpr hc), hwf.reads (.inr hc)⟩
  · rw [Kernel.request, hcall]
    rfl
  · rw [if_neg hne]
    show s'.mem.freed.Perm _
    rw [hfreed]
    exact List.Perm.refl _
  · intro p
    rw [hwf.holds_iff, h.holds_iff, Function.update_self, hrest]

/-- Consuming nothing releases nothing. -/
theorem consume_null_kept (K : Kalloc) (h : k.WellFormed l) (t : Tid) :
    ∃ k', k.request K (.consume i t NULL) = some (k', NULL) ∧ k'.WellFormed l ∧
      Released k i NULL k' NULL := by
  have hwf : (k.put i (unlockQueue t (k.queue i))).WellFormed l := h.put_same ⟨rfl, rfl, rfl⟩
  refine ⟨_, ?_, hwf, List.Perm.refl _, ?_, .inl rfl, hwf.reads (.inl rfl)⟩
  · rw [Kernel.request, consumeMsg_null]
    rfl
  · intro p
    rw [hwf.holds_iff, h.holds_iff]
    constructor
    · intro hp
      exact ⟨hp, fun heq => (h.lists i).nonnull (heq ▸ hp)⟩
    · exact And.left

/-- At an end of the queue the message is not released. -/
theorem consume_breaks (K : Kalloc) (h : k.WellFormed l) {t : Tid} {current c : Ptr}
    (hcur : current ∈ l i) (hend : current = (k.part i).q.tail ∨ current = (k.part i).q.head)
    (hcall : k.request K (.consume i t current) = some (k', c)) : ¬ Released k i current k' c := by
  intro hreleased
  obtain ⟨l₁, l₂, hl⟩ := List.append_of_mem hcur
  have hlists := h.lists i
  rw [hl] at hlists
  have hne : current ≠ NULL := fun heq => (h.lists i).nonnull (heq ▸ hcur)
  obtain ⟨s', hunlink, -, -⟩ := unlink_spec hlists
  obtain ⟨-, -, hfreed, -⟩ := unlink_frame hunlink
  rw [Kernel.request, consumeMsg_of_unlink t hne hunlink, Option.map_some, Option.some.injEq] at hcall
  by_cases hl₁ : l₁ = []
  · -- the oldest: nothing is given back
    rw [if_pos hl₁, if_neg (not_not_intro rfl)] at hcall
    obtain ⟨rfl, -⟩ := Prod.mk.inj hcall
    have hlength := hreleased.freed.length_eq
    rw [if_neg hne] at hlength
    change s'.mem.freed.length = _ at hlength
    rw [hfreed, List.length_append] at hlength
    change k.mem.freed.length = 2 + k.mem.freed.length at hlength
    omega
  · have hhead : current = (k.part i).q.head := by
      refine hend.resolve_left ?_
      intro htail
      have hfirst : current = (l₁ ++ current :: l₂).headD NULL := htail.trans hlists.tail
      cases l₁ with
      | nil => exact hl₁ rfl
      | cons q l₁ =>
        obtain rfl : current = q := hfirst
        exact (List.nodup_cons.mp hlists.nodup).1 (by simp)
    have hl₂ : l₂ = [] := by
      by_contra hl₂
      have hlast : current = (l₁ ++ current :: l₂).getLastD NULL := hhead.trans hlists.head
      rw [getLastD_append (List.cons_ne_nil current l₂), List.getLastD_cons] at hlast
      have hmem : current ∈ l₂ := by
        have hlast' := getLastD_mem hl₂ current
        rwa [← hlast] at hlast'
      exact (List.nodup_cons.mp (List.nodup_append.mp hlists.nodup).2.1).1 hmem
    -- the newest of several: the cursor stays at it
    rw [if_neg hl₁, if_pos hl₂, if_pos hne] at hcall
    obtain ⟨-, rfl⟩ := Prod.mk.inj hcall
    exact ((hreleased.held current).mp (hreleased.cursor.resolve_left hne)).2 rfl

omit [DecidableEq ι] in
/-- Whoever else uses the storage leaves the queues alone. -/
theorem Kernel.WellFormed.other (h : k.WellFormed l) {mem : Kmem} (own : List Ptr)
    (hframe : Frame k.mem mem own) (hown : ∀ i, ∀ p ∈ storage k.mem (l i), p ∉ own)
    (hused : mem.used.Nodup) : ({ k with mem := mem } : Kernel ι).WellFormed l := by
  have hqueue := fun i => Frame.queue (s := k.queue i) (t := ({ k with mem := mem } : Kernel ι).queue i)
    hframe (h.lists i) (h.stored i) (hown i) rfl rfl
  have hstorage : ∀ i, storage mem (l i) = storage k.mem (l i) := fun i => storage_congr (hqueue i).2.2
  refine ⟨fun i => (hqueue i).1, fun i => (hqueue i).2.1, fun i j hne p hp hp' => ?_, hused, h.records⟩
  change p ∈ storage mem (l i) at hp
  change p ∈ storage mem (l j) at hp'
  rw [hstorage] at hp hp'
  exact h.apart i j hne p hp hp'

/-- Another allocation keeps the kernel well formed. -/
theorem kalloc_kept (K : Kalloc) (h : k.WellFormed l) (m : Message) (b : List UInt8) :
    ∃ k', k.request K (.kalloc m b) = some (k', NULL) ∧ k'.WellFormed l := by
  have hfresh : K.pick k.mem.used ∉ k.mem.used := K.fresh _
  have hne : ∀ p ∈ k.mem.used, p ≠ K.pick k.mem.used := fun p hp heq => hfresh (heq ▸ hp)
  refine ⟨_, rfl, h.other [] (fun p hp _ => ⟨?_, ?_, ?_⟩) (fun _ _ _ => List.not_mem_nil) ?_⟩
  · exact Function.update_of_ne (hne p hp) ..
  · exact Function.update_of_ne (hne p hp) ..
  · exact List.mem_cons_of_mem _ hp
  · exact List.nodup_cons.mpr ⟨hfresh, h.used⟩

theorem kfree_kept (K : Kalloc) (h : k.WellFormed l) {p : Ptr} (hp : k.Allows (.kfree p)) :
    ∃ k', k.request K (.kfree p) = some (k', NULL) ∧ k'.WellFormed l := by
  refine ⟨_, rfl, h.other [p] (fun q hq hne => ⟨rfl, rfl, ?_⟩) (fun i q hq hmem => ?_)
    (h.used.erase p)⟩
  · exact (List.mem_erase_of_ne fun heq => hne (List.mem_singleton.mpr heq)).mpr hq
  · rw [List.mem_singleton] at hmem
    subst hmem
    rcases List.mem_append.mp hq with hq | hq
    · exact (hp q ((h.records q).mpr ⟨i, hq⟩)).1 rfl
    · obtain ⟨r, hr, hdata⟩ := List.mem_map.mp hq
      exact (hp r ((h.records r).mpr ⟨i, hr⟩)).2 hdata.symm

-- ---------------------------------------------------------------------------
-- Whole runs
-- ---------------------------------------------------------------------------

/-- Every call returns, and keeps the ledger; a `consume_msg` between the ends releases its
message. -/
theorem request_kept (K : Kalloc) (h : k.WellFormed l) {a : Request ι} (hallows : k.Allows a)
    (hends : BetweenEnds k a) :
    ∃ k' c l', k.request K a = some (k', c) ∧ k'.WellFormed l' ∧
      ∀ i t current, a = .consume i t current → Released k i current k' c := by
  cases a with
  | send i t data =>
    obtain ⟨k', l', hcall, hwf⟩ := send_kept K h t data hallows
    exact ⟨k', _, l', hcall, hwf, fun _ _ _ heq => by cases heq⟩
  | recv i t size current =>
    obtain ⟨out, s', hrecv, hsame⟩ := recvMsg_same t size (s := k.queue i)
      (hallows.imp_right And.left)
    refine ⟨k.put i s', out.current, l, ?_, h.put_same hsame, fun _ _ _ heq => by cases heq⟩
    rw [Kernel.request, hrecv]
    rfl
  | consume i t current =>
    by_cases hne : current = NULL
    · subst hne
      obtain ⟨k', hcall, hwf, hreleased⟩ := consume_null_kept (i := i) K h t
      refine ⟨k', NULL, l, hcall, hwf, ?_⟩
      intro _ _ _ heq
      obtain ⟨rfl, rfl, rfl⟩ := Request.consume.inj heq
      exact hreleased
    · obtain ⟨htail, hhead⟩ := hends.resolve_left hne
      obtain ⟨k', c, l', hcall, hwf, hreleased⟩ :=
        consume_kept K h t (h.holds_iff.mp (hallows.resolve_left hne)) htail hhead
      refine ⟨k', c, l', hcall, hwf, ?_⟩
      intro _ _ _ heq
      obtain ⟨rfl, rfl, rfl⟩ := Request.consume.inj heq
      exact hreleased
  | stop i t current =>
    refine ⟨_, _, l, rfl, h.put_same ?_, fun _ _ _ heq => by cases heq⟩
    unfold stopRecv
    split
    · exact ⟨rfl, rfl, rfl⟩
    · exact ⟨rfl, rfl, rfl⟩
  | kalloc m b =>
    obtain ⟨k', hcall, hwf⟩ := kalloc_kept K h m b
    exact ⟨k', _, l, hcall, hwf, fun _ _ _ heq => by cases heq⟩
  | kfree p =>
    obtain ⟨k', hcall, hwf⟩ := kfree_kept K h hallows
    exact ⟨k', _, l, hcall, hwf, fun _ _ _ heq => by cases heq⟩

/-- **Messages are released once, and only then**: over every run on any number of queues the
records that are on the ledger are those in the queues, and each `consume_msg` gives back the
storage of its message and leaves a cursor that is fit, exactly if none is at an end of its queue. -/
theorem released_iff (K : Kalloc) (h : k.WellFormed l) (calls : List (Request ι))
    (hallows : Whenever (Kernel.Step K) Kernel.Allows k calls) :
    Along (Kernel.Step K) Kept k calls ↔ Whenever (Kernel.Step K) BetweenEnds k calls := by
  have hgood : ∀ (k : Kernel ι) a, (∃ l, k.WellFormed l) → k.Allows a → BetweenEnds k a →
      ∃ k' c, k.Step K a k' c ∧ Kept k a k' c ∧ ∃ l', k'.WellFormed l' := by
    rintro k a ⟨l, hwf⟩ hallows hends
    obtain ⟨k', c, l', hcall, hwf', hreleased⟩ := request_kept K hwf hallows hends
    exact ⟨k', c, hcall, ⟨hwf'.ledger, hreleased⟩, l', hwf'⟩
  have hbad : ∀ (k : Kernel ι) a k' c, (∃ l, k.WellFormed l) → k.Allows a → ¬ BetweenEnds k a →
      k.Step K a k' c → ¬ Kept k a k' c := by
    rintro k a k' c ⟨l, hwf⟩ hallows hends hcall hkept
    cases a with
    | consume i t current =>
      obtain ⟨hne, hend⟩ := not_or.mp hends
      refine consume_breaks K hwf (hwf.holds_iff.mp (hallows.resolve_left hne)) ?_ hcall
        (hkept.released i t current rfl)
      by_contra hout
      exact hend (not_or.mp hout)
    | _ => exact hends trivial
  have hdet : ∀ (k : Kernel ι) a k₁ c₁ k₂ c₂, k.Step K a k₁ c₁ → k.Step K a k₂ c₂ →
      k₁ = k₂ ∧ c₁ = c₂ := by
    intro k a k₁ c₁ k₂ c₂ h₁ h₂
    exact Prod.mk.inj (Option.some.inj (h₁.symm.trans h₂))
  exact along_iff_whenever hgood hbad hdet ⟨l, h⟩ hallows

/-- A queue of three messages, with the records 1, 3 and 5 and the data 2, 4 and 6. -/
def threeQueued : Kernel Unit where
  mem := {
    msg := fun p => if p = 1 then ⟨2, 1, NULL, 3⟩ else if p = 3 then ⟨4, 1, 1, 5⟩ else ⟨6, 1, 3, NULL⟩
    buf := fun p => [UInt8.ofNat p]
    used := [1, 2, 3, 4, 5, 6]
    freed := [] }
  part _ := ⟨⟨5, 1, .LOCKED⟩, some 1, 0⟩
  records := [1, 3, 5]

/-- Three messages in one queue. -/
theorem threeQueued_wellFormed : threeQueued.WellFormed fun _ => [1, 3, 5] where
  lists _ := ⟨rfl, rfl, ⟨rfl, rfl, rfl, rfl, rfl, rfl, trivial⟩, by decide, by decide⟩
  stored := by
    rintro ⟨⟩
    exact ⟨by decide, by decide, by decide⟩
  apart _ _ hne := absurd rfl hne
  used := by decide
  records p := ⟨fun hp => ⟨(), hp⟩, fun ⟨_, hp⟩ => hp⟩

/-- The second of three messages is released. -/
theorem middle_released :
    Along (Kernel.Step .above) Kept threeQueued [.consume () 1 3, .stop () 1 1] := by
  refine (released_iff .above threeQueued_wellFormed [.consume () 1 3, .stop () 1 1] ?_).mpr ?_
  · exact ⟨.inr (threeQueued_wellFormed.holds_iff.mpr (by decide)), fun _ _ _ =>
      ⟨trivial, fun _ _ _ => trivial⟩⟩
  · exact ⟨.inr (by decide), fun _ _ _ => ⟨trivial, fun _ _ _ => trivial⟩⟩

/-- The oldest is taken out of the queue, and its storage stays. -/
theorem oldest_leaked :
    ¬ ∀ (k : Kernel Unit) (l : Unit → List Ptr) (calls : List (Request Unit)), k.WellFormed l →
      Whenever (Kernel.Step .above) Kernel.Allows k calls → Along (Kernel.Step .above) Kept k calls := by
  intro hall
  have hcur : threeQueued.Holds () 1 := threeQueued_wellFormed.holds_iff.mpr (by decide)
  obtain ⟨k', c, hcall, hkept, -⟩ := hall threeQueued (fun _ => [1, 3, 5]) [.consume () 1 1]
    threeQueued_wellFormed ⟨.inr hcur, fun _ _ _ => trivial⟩
  exact consume_breaks .above threeQueued_wellFormed (i := ()) (by decide) (.inl rfl) hcall
    (hkept.released () 1 1 rfl)

end Frosk.Queue

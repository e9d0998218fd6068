import Frosk.Keyboard.Polling
import Frosk.Shell.Keys
import Frosk.Stdin.Stream

/-!
# The first program: every run

What the program shows and passes on, over every run of its steps, the messages sent to
it, the interrupts, the worker of the keyboard and the program it started.

* Every message is shown once, in the order in which they were sent, or as
  `-Discarding-` if it is longer than the buffer.
* The child is sent, and the screen shows, what the scancodes mean that were stored, in
  their order; none is lost on the way, and what the child takes from its standard
  input is a beginning of it.
* The window is the terminal that all this was typed into, and the box stays around it.
* The program goes on, unless the queue of the child is locked when a character is sent
  to it, or it finds more than 127 scancodes, and halts.
-/

namespace Frosk.Shell

open Lib Fcurses Keyboard
open Queue (Tid Lists Stored)

-- ---------------------------------------------------------------------------
-- What the program is to do
-- ---------------------------------------------------------------------------

def Output.message? : Output → Option (List UInt8)
  | .message data => some data
  | .key _ => none
  | .full => none

def Output.key? : Output → Option UInt8
  | .message _ => none
  | .key ch => some ch
  | .full => none

/-- The characters of it, each with its style. -/
def Output.chars : Output → List (Int × Int)
  | .message data =>
    if data.length ≤ bufSize then data.map fun c => (schar c, 15)
    else discarding.chars.map fun c => (schar c, 5)
  | .key ch => [(schar ch, 14)]
  | .full => tooMuch.chars.map fun c => (schar c, 15)

/-- The scancodes that were read and are still to be looked at, in the order in which
they will be. -/
def State.todo (y : State) : List UInt8 :=
  match y.pc with
  | .key i => ((List.range (i + 1)).map y.buf).reverse
  | _ => []

/-- The messages that were not shown. -/
def State.waiting (y : State) (l : List Ptr) : List Ptr :=
  match y.pc with
  | .consume => l.tail
  | _ => l

/-- What the window held when the program began. -/
def before (base : Screen) : Terminal := ⟨fun a b => base.cell (1 + a) (1 + b), 0, 0⟩

/-- What was typed into the window so far. -/
def State.terminal (base : Screen) (y : State) : Terminal :=
  (y.log.flatMap Output.chars).foldl (Terminal.type 78 23) (before base)

structure Faithful (K : Kalloc) (junk : Nat → UInt8) (frame : Memory) (r c : Tid) (base : Screen)
    (y : State) : Prop where
  messages : ∃ l, Lists y.queue l ∧
    y.log.filterMap Output.message? ++ (y.waiting l).map y.queue.bytes = y.sent
  typed    : ∃ unread : List UInt8, y.kb.stored.map Item.sc = y.typed ++ y.todo ++ unread.reverse ∧
    (y.pc = .size → ∃ y', y.run K frame r = some y' ∧ (y'.pc = .halt ↔ bufSize ≤ unread.length))
  keys     : y.log.filterMap Output.key? = decode y.typed
  child    : y.child.sent = decode y.typed ∧ Stdin.Faithful junk c y.child
  window   : ∀ a b : Nat, a < 78 → b < 23 →
    y.win.scr.cell (1 + a) (1 + b) = (y.terminal base).cells a b
  box      : ∀ a b, base.Has a b → Border base a b →
    y.win.scr.cell a b = (toByte (boxChar base a b), toByte 11)
  returns  : (∀ i, y.pc = .key i → y.child.queue.q.lock = .UNLOCKED ∨
    (y.state.after (y.buf i)).char (y.buf i) = 0) → ∃ y', y.run K frame r = some y'

def Step (K : Kalloc) (junk : Nat → UInt8) (frame : Memory) (r c : Tid) (y : State) (e : Event)
    (y' : State) (_ : Unit) : Prop :=
  y.event K junk frame r c e = some y'

/-- No message is empty, no scancode is stored in a full buffer, and the child takes
what it reads in the order of its queue. -/
def Allowed (y : State) : Event → Prop
  | .send _ data => data ≠ []
  | .interrupt sc => HasRoom y.kb (.interrupt sc)
  | .work => HasRoom y.kb .work
  | .child => Stdin.Whole y.child .run
  | _ => True

instance (y : State) : (e : Event) → Decidable (Allowed y e)
  | .send _ data => inferInstanceAs (Decidable (data ≠ []))
  | .interrupt sc => inferInstanceAs (Decidable (HasRoom y.kb (.interrupt sc)))
  | .work => inferInstanceAs (Decidable (HasRoom y.kb .work))
  | .child => inferInstanceAs (Decidable (Stdin.Whole y.child .run))
  | .fgets _ | .run => isTrue trivial

-- ---------------------------------------------------------------------------
-- The invariant
-- ---------------------------------------------------------------------------

def State.QueueAt (y : State) (l : List Ptr) : Pc → Prop
  | .consume => y.queue.q.lock = .LOCKED ∧ ∃ l', l = y.next :: l'
  | _ => y.queue.q.lock = .UNLOCKED ∧ y.next = NULL

structure Messages (y : State) (l : List Ptr) : Prop where
  lists   : Lists y.queue l
  stored  : Stored y.queue l
  some    : ∀ p ∈ l, y.queue.bytes p ≠ []
  here    : y.QueueAt l y.pc
  inOrder : y.log.filterMap Output.message? ++ (y.waiting l).map y.queue.bytes = y.sent

/-- Whether the program has the lock of the file, and what it knows of it. -/
def State.KbAt (y : State) (unread : List UInt8) : Pc → Prop
  | .recv | .consume | .stop | .acquire => y.kb.user = false
  | .size | .key _ | .halt => y.kb.user = true
  | .read size => y.kb.user = true ∧ size = unread.length ∧ 0 < size
  | .release => True

structure Keys (y : State) (unread : List UInt8) : Prop where
  polled : Polled y.kb (y.typed ++ y.todo) unread
  here   : y.KbAt unread y.pc
  state  : y.state = KeyState.of y.typed
  keys   : y.log.filterMap Output.key? = decode y.typed
  sent   : y.child.sent = decode y.typed

structure Inv (base : Screen) (y : State) (l : List Ptr) (unread : List UInt8) : Prop where
  messages : Messages y l
  keys     : Keys y unread
  child    : ∃ lc, Stdin.Inv y.child lc
  shows    : Shows 1 1 78 23 base y.win (y.terminal base)

variable (K : Kalloc) {junk : Nat → UInt8} (frame : Memory) (r : Tid) {c : Tid} {base : Screen}
  {y y' : State} {l : List Ptr} {unread : List UInt8}

/-- But for a consume the shell has no message in hand. -/
theorem queueAt_free {pc : Pc} (hpc : pc ≠ .consume) :
    y.QueueAt l pc ↔ y.queue.q.lock = .UNLOCKED ∧ y.next = NULL := by
  cases pc with
  | consume => exact absurd rfl hpc
  | _ => exact Iff.rfl

theorem waiting_free (hpc : y.pc ≠ .consume) (l : List Ptr) : y.waiting l = l := by
  rw [State.waiting]
  split
  · exact absurd ‹_› hpc
  · rfl

/-- A message that was copied is read whole. -/
theorem copy_bytes (data : List UInt8) (buf : Buffer) :
    (List.range data.length).map (buf.copy data) = data := by
  refine List.ext_getElem (by simp) ?_
  intro i hi hi'
  rw [List.getElem_map, List.getElem_range, Buffer.copy, List.getElem?_eq_getElem hi', Option.getD_some]

/-- What is written comes after what was on the terminal. -/
theorem terminal_append {log : List Output} {o : Output} (h : y'.log = log ++ [o])
    (hlog : y.log = log) :
    y'.terminal base = o.chars.foldl (Terminal.type 78 23) (y.terminal base) := by
  rw [State.terminal, State.terminal, h, hlog, List.flatMap_append, List.flatMap_singleton,
    List.foldl_append]

-- ---------------------------------------------------------------------------
-- What happens around the program
-- ---------------------------------------------------------------------------

/-- A message sent is one more in the queue. -/
theorem send_messages {t : Tid} {data : List UInt8} (h : Messages y l) (hdata : data ≠ [])
    {q : Queue.State} (hsend : Queue.sendMsg K t data y.queue = some q) :
    ∃ l', Messages { y with queue := q, sent := y.sent ++ [data] } l' := by
  obtain ⟨hfree, hfree', -, -⟩ := Queue.sendMsg_lock hsend
  obtain ⟨q₁, hsend₁, hlists, hstored, hnew, hold⟩ :=
    Queue.sendMsg_spec K t data h.lists h.stored hfree
  obtain rfl := Option.some.inj (hsend₁.symm.trans hsend)
  have hpc : y.pc ≠ .consume := by
    intro hpc
    have hhere := h.here
    rw [hpc] at hhere
    exact absurd (hfree.symm.trans hhere.1) (by decide)
  refine ⟨l ++ [K.pick y.queue.mem.used], hlists, hstored, ?_, ?_, ?_⟩
  · intro p hp
    rcases List.mem_append.mp hp with hp | hp
    · show q₁.bytes p ≠ []
      rw [hold p hp]
      exact h.some p hp
    · show q₁.bytes p ≠ []
      rw [List.mem_singleton.mp hp, hnew]
      exact hdata
  · show State.QueueAt _ _ y.pc
    exact (queueAt_free hpc).mpr ⟨hfree', ((queueAt_free hpc).mp h.here).2⟩
  · have horder := h.inOrder
    rw [waiting_free hpc] at horder
    show _ ++ (y.waiting _).map q₁.bytes = y.sent ++ [data]
    rw [waiting_free hpc, List.map_append, ← horder, List.append_assoc, List.map_congr_left hold,
      List.map_singleton, hnew]

/-- Keys that come in are unread behind the others. -/
theorem kbAt_grows {kb : Keyboard.State} {unread' : List UInt8} (h : y.KbAt unread y.pc)
    (hgrows : Grows y.kb kb unread unread') : State.KbAt { y with kb := kb } unread' y.pc := by
  obtain ⟨huser, hsame⟩ := hgrows
  cases hpc : y.pc with
  | recv | consume | stop | acquire | size | key i | halt =>
    rw [hpc] at h
    exact huser.trans h
  | read n =>
    rw [hpc] at h
    obtain ⟨hheld, hsize, hpos⟩ := h
    refine ⟨huser.trans hheld, ?_, hpos⟩
    rw [hsame hheld]
    exact hsize
  | release => trivial

/-- The steps of `fgets` send nothing. -/
theorem child_sent {child child' : Stdin.State} (h : child.run junk c = some child') :
    child'.sent = child.sent := by
  unfold Stdin.State.run at h
  cases hpc : child.pc with
  | out =>
    simp only [hpc] at h
    cases h
  | recv =>
    simp only [hpc] at h
    obtain ⟨x, -, rfl⟩ := Option.map_eq_some_iff.mp h
    unfold Stdin.State.checked
    dsimp only
    split <;> rfl
  | retry a =>
    simp only [hpc] at h
    obtain ⟨x, -, rfl⟩ := Option.map_eq_some_iff.mp h
    rfl
  | consume sz =>
    simp only [hpc] at h
    obtain ⟨x, -, rfl⟩ := Option.map_eq_some_iff.mp h
    rfl
  | stop =>
    simp only [hpc] at h
    obtain rfl := Option.some.inj h
    rfl
  | scan =>
    simp only [hpc] at h
    split at h
    · split at h <;> (obtain rfl := Option.some.inj h; rfl)
    · obtain rfl := Option.some.inj h
      rfl

/-- A call of the child sends nothing. -/
theorem call_sent {n : Nat} {child child' : Stdin.State} (h : child.call n = some child') :
    child'.sent = child.sent := by
  unfold Stdin.State.call at h
  split at h
  · obtain rfl := Option.some.inj h
    rfl
  · cases h

-- ---------------------------------------------------------------------------
-- Messages
-- ---------------------------------------------------------------------------

/-- What changes when something is put on the screen. -/
theorem show_output (hf : Fits 1 1 78 23 base) (h : Shows 1 1 78 23 base y.win (y.terminal base))
    (o : Output) :
    ∃ win, o.chars.foldlM (fun win ch => fcWputc frame win ch.1 ch.2) y.win = some win ∧
      ∀ y' : State, y'.win = win → y'.log = y.log ++ [o] →
        Shows 1 1 78 23 base y'.win (y'.terminal base) := by
  obtain ⟨win, hrun, hshows⟩ := run_shows frame hf o.chars h
  refine ⟨win, hrun, ?_⟩
  intro y' hwin hlog
  rw [hwin, terminal_append hlog rfl]
  exact hshows

/-- A string is written one character at a time. -/
theorem wputs_eq (win : Window) (s : CStr) (style : Int) :
    fcWputs frame win s style =
      (s.chars.map fun ch => (schar ch, style)).foldlM (fun win ch => fcWputc frame win ch.1 ch.2) win := by
  rw [List.foldlM_map]
  rfl

/-- A message that was received is shown. -/
theorem show_message (hf : Fits 1 1 78 23 base) (h : Shows 1 1 78 23 base y.win (y.terminal base))
    {data : List UInt8} (hdata : data ≠ []) (hlog : y'.log = y.log ++ [.message data])
    (hwin : y'.win = y.win) (hmsg : data.length ≤ bufSize → (List.range data.length).map y'.msg = data) :
    ∃ win, y'.show frame data.length = some { y' with win := win, pc := .consume } ∧
      Shows 1 1 78 23 base win (y'.terminal base) := by
  obtain ⟨win, hrun, hshows⟩ := show_output frame hf h (.message data)
  have hpos : 0 < data.length := List.length_pos_of_ne_nil hdata
  refine ⟨win, ?_, hshows { y' with win := win } rfl hlog⟩
  unfold State.show
  by_cases hsmall : data.length ≤ bufSize
  · have hchars : (Output.message data).chars =
        (List.range data.length).map fun i => (schar (y'.msg i), 15) := by
      rw [Output.chars, if_pos hsmall]
      conv_lhs => rw [← hmsg hsmall, List.map_map]
      rfl
    rw [hchars, List.foldlM_map] at hrun
    rw [if_pos ⟨hpos, hsmall⟩, hwin, hrun, Option.map_some]
  · have hchars : (Output.message data).chars = discarding.chars.map fun ch => (schar ch, 5) := by
      rw [Output.chars, if_neg hsmall]
    rw [if_neg (fun hboth => hsmall hboth.2), if_pos (by omega), hwin, wputs_eq, ← hchars, hrun,
      Option.map_some]

/-- The receive of the loop keeps the invariant. -/
theorem recv_inv (hf : Fits 1 1 78 23 base) (h : Inv base y l unread) (hpc : y.pc = .recv) :
    ∃ y', y.run K frame r = some y' ∧ Inv base y' l unread := by
  obtain ⟨hm, hk, hc, hs⟩ := h
  have hhere := hm.here
  have hkb := hk.here
  have horder := hm.inOrder
  have hpolled := hk.polled
  rw [hpc] at hhere hkb
  rw [State.waiting, hpc] at horder
  rw [State.todo, hpc] at hpolled
  obtain ⟨hfree, hnext⟩ := hhere
  rw [State.run, hpc]
  simp only [hnext]
  cases l with
  | nil =>
    obtain ⟨q, hrecv, hsame, hfree'⟩ := Stdin.recvMsg_empty r bufSize hm.lists hfree
    rw [hrecv]
    refine ⟨{ y with queue := q, next := NULL, pc := .stop }, rfl, ?_, ?_, hc, hs⟩
    · exact ⟨hsame.lists hm.lists, hsame.stored hm.stored, fun p hp => absurd hp List.not_mem_nil,
        ⟨hfree', rfl⟩, horder⟩
    · exact ⟨hpolled, hkb, hk.state, hk.keys, hk.sent⟩
  | cons p l =>
    obtain ⟨q, hrecv, hsame, hlock⟩ := Stdin.recvMsg_oldest r bufSize hm.lists hm.stored hfree
    obtain ⟨data, hdata⟩ : ∃ data, data = y.queue.bytes p := ⟨_, rfl⟩
    have hne : data ≠ [] := hdata ▸ hm.some p List.mem_cons_self
    have hbytes : q.bytes p = data := by rw [hsame.bytes, hdata]
    rw [← hdata] at hrecv
    obtain ⟨y₁, hy₁⟩ : ∃ y₁ : State, y₁ = { y with
        queue := q
        next := p
        msg := if data.length ≤ bufSize then Buffer.copy data y.msg else y.msg
        log := y.log ++ [.message data] } := ⟨_, rfl⟩
    obtain ⟨win, hshow, hshows⟩ := show_message frame hf hs hne
      (show y₁.log = _ by rw [hy₁])
      (by rw [hy₁]) (fun hsmall => by
        rw [hy₁]
        simp only [if_pos hsmall]
        exact copy_bytes data y.msg)
    rw [hrecv]
    refine ⟨{ y₁ with win := win, pc := .consume }, Eq.trans ?_ hshow, ?_, ?_, ?_, hshows⟩
    · rw [Option.bind_some]
      simp only [List.length_pos_of_ne_nil hne, hbytes, hy₁, if_true]
      split_ifs <;> rfl
    · subst hy₁
      refine ⟨hsame.lists hm.lists, hsame.stored hm.stored, ?_, ⟨hlock, l, rfl⟩, ?_⟩
      · intro x hx
        show q.bytes x ≠ []
        rw [hsame.bytes]
        exact hm.some x hx
      · show (y.log ++ [Output.message data]).filterMap Output.message? ++ l.map q.bytes = y.sent
        rw [← horder, List.filterMap_append, hsame.bytes, hdata]
        simp [Output.message?]
    · subst hy₁
      refine ⟨hpolled, hkb, hk.state, ?_, hk.sent⟩
      show (y.log ++ [Output.message data]).filterMap Output.key? = decode y.typed
      rw [List.filterMap_append, hk.keys]
      exact List.append_nil _
    · subst hy₁
      exact hc

theorem consume_inv (h : Inv base y l unread) (hpc : y.pc = .consume) :
    ∃ y' l', y.run K frame r = some y' ∧ Inv base y' l' unread := by
  obtain ⟨hm, hk, hc, hs⟩ := h
  have hhere := hm.here
  have hkb := hk.here
  have horder := hm.inOrder
  have hpolled := hk.polled
  rw [hpc] at hhere hkb
  rw [State.waiting, hpc] at horder
  rw [State.todo, hpc] at hpolled
  obtain ⟨-, l', rfl⟩ := hhere
  obtain ⟨q, hconsume, hlists, hstored, hfree, hbytes⟩ :=
    Stdin.consumeMsg_oldest r hm.lists hm.stored
  refine ⟨{ y with queue := q, next := NULL, pc := .recv }, l', ?_, ?_, ?_, hc, hs⟩
  · rw [State.run, hpc]
    simp only [hconsume, Option.map_some]
  · refine ⟨hlists, hstored, ?_, ⟨hfree, rfl⟩, ?_⟩
    · intro p hp
      show q.bytes p ≠ []
      rw [hbytes]
      exact hm.some p (List.mem_cons_of_mem _ hp)
    · show y.log.filterMap Output.message? ++ l'.map q.bytes = y.sent
      rw [List.map_congr_left fun p _ => hbytes p]
      exact horder
  · exact ⟨hpolled, hkb, hk.state, hk.keys, hk.sent⟩

-- ---------------------------------------------------------------------------
-- Keys
-- ---------------------------------------------------------------------------

/-- The steps that touch neither a queue nor the screen. -/
theorem Inv.congr (h : Inv base y l unread) {unread' : List UInt8} (hqueue : y'.queue = y.queue)
    (hnext : y'.next = y.next) (hsent : y'.sent = y.sent) (hlog : y'.log = y.log)
    (hchild : y'.child = y.child) (hwin : y'.win = y.win) (hpc : y.pc ≠ .consume)
    (hpc' : y'.pc ≠ .consume) (hk : Keys y' unread') : Inv base y' l unread' := by
  obtain ⟨⟨hlists, hstored, hsome, hhere, horder⟩, -, hc, hs⟩ := h
  refine ⟨⟨hqueue ▸ hlists, hqueue ▸ hstored, hqueue ▸ hsome, ?_, ?_⟩, hk, hchild ▸ hc, ?_⟩
  · rw [queueAt_free hpc', hqueue, hnext]
    exact (queueAt_free hpc).mp hhere
  · rw [waiting_free hpc] at horder
    rw [waiting_free hpc', hqueue, hsent, hlog]
    exact horder
  · rw [hwin, State.terminal, hlog]
    exact hs

theorem stop_inv (h : Inv base y l unread) (hpc : y.pc = .stop) :
    ∃ y', y.run K frame r = some y' ∧ Inv base y' l unread := by
  have hhere := h.messages.here
  have hkb := h.keys.here
  have hpolled := h.keys.polled
  rw [hpc] at hhere hkb
  rw [State.todo, hpc] at hpolled
  have hstop : Queue.stopRecv r y.next y.queue = y.queue := by
    rw [Queue.stopRecv, if_neg (fun hne => hne hhere.2)]
  refine ⟨{ y with pc := .acquire }, ?_, h.congr rfl rfl rfl rfl rfl rfl (by rw [hpc]; decide)
    (show Pc.acquire ≠ .consume by decide) ⟨hpolled, hkb, h.keys.state, h.keys.keys, h.keys.sent⟩⟩
  rw [State.run, hpc]
  simp only [hstop]

theorem acquire_inv (h : Inv base y l unread) (hpc : y.pc = .acquire) :
    ∃ y', y.run K frame r = some y' ∧ Inv base y' l unread := by
  have hkb := h.keys.here
  have hpolled := h.keys.polled
  rw [hpc] at hkb
  rw [State.todo, hpc] at hpolled
  obtain ⟨hpolled', huser⟩ := acquire_polled hpolled hkb
  have hne : y.pc ≠ .consume := by rw [hpc]; decide
  cases hlock : y.kb.kb.lock with
  | UNLOCKED =>
    refine ⟨{ y with kb := Keyboard.acquire y.kb, pc := .size }, ?_,
      h.congr rfl rfl rfl rfl rfl rfl hne (show Pc.size ≠ .consume by decide)
        ⟨hpolled', huser.mpr hlock, h.keys.state, h.keys.keys, h.keys.sent⟩⟩
    rw [State.run, hpc]
    simp only [hlock]
    rfl
  | LOCKED =>
    refine ⟨{ y with kb := Keyboard.acquire y.kb, pc := .release }, ?_,
      h.congr rfl rfl rfl rfl rfl rfl hne (show Pc.release ≠ .consume by decide)
        ⟨hpolled', trivial, h.keys.state, h.keys.keys, h.keys.sent⟩⟩
    rw [State.run, hpc]
    simp only [hlock]
    rfl

/-- What the program finds in the file. -/
theorem size_inv (hf : Fits 1 1 78 23 base) (h : Inv base y l unread) (hpc : y.pc = .size) :
    ∃ y', y.run K frame r = some y' ∧ Inv base y' l unread ∧
      (y'.pc = .halt ↔ bufSize ≤ unread.length) := by
  have hkb := h.keys.here
  have hpolled := h.keys.polled
  rw [hpc] at hkb
  rw [State.todo, hpc] at hpolled
  have hsize : y.kb.kb.size = unread.length := hpolled.size
  have hroom : unread.length ≤ kbBufferSize := hsize ▸ hpolled.stack.room
  have hword : (unread.length + 1) % wordSize = unread.length + 1 :=
    Nat.mod_eq_of_lt (by unfold kbBufferSize wordSize at *; omega)
  have hne : y.pc ≠ .consume := by rw [hpc]; decide
  rw [State.run, hpc]
  simp only [hsize, hword]
  by_cases hzero : unread.length = 0
  · rw [if_pos hzero]
    refine ⟨_, rfl, h.congr rfl rfl rfl rfl rfl rfl hne (show Pc.release ≠ .consume by decide)
      ⟨hpolled, trivial, h.keys.state, h.keys.keys, h.keys.sent⟩, ?_⟩
    simp [hzero]
  rw [if_neg hzero]
  by_cases hmuch : unread.length + 1 > bufSize
  · obtain ⟨win, hrun, hshows⟩ := show_output frame hf h.shows .full
    rw [if_pos hmuch, wputs_eq, show (tooMuch.chars.map fun ch => (schar ch, (15 : Int))) =
      Output.full.chars from rfl, hrun]
    refine ⟨_, rfl, ⟨?_, ?_, h.child, hshows _ rfl rfl⟩, ?_⟩
    · obtain ⟨hlists, hstored, hsome, hhere, horder⟩ := h.messages
      rw [hpc] at hhere
      rw [State.waiting, hpc] at horder
      refine ⟨hlists, hstored, hsome, hhere, ?_⟩
      show (y.log ++ [Output.full]).filterMap Output.message? ++ l.map y.queue.bytes = y.sent
      rw [← horder, List.filterMap_append]
      simp [Output.message?]
    · refine ⟨hpolled, hkb, h.keys.state, ?_, h.keys.sent⟩
      show (y.log ++ [Output.full]).filterMap Output.key? = decode y.typed
      rw [List.filterMap_append, h.keys.keys]
      exact List.append_nil _
    · exact ⟨fun _ => Nat.le_of_lt_succ hmuch, fun _ => rfl⟩
  · rw [if_neg hmuch]
    refine ⟨_, rfl, h.congr rfl rfl rfl rfl rfl rfl hne (show Pc.read _ ≠ .consume by simp)
      ⟨hpolled, ⟨hkb, rfl, Nat.pos_of_ne_zero hzero⟩, h.keys.state, h.keys.keys, h.keys.sent⟩, ?_⟩
    constructor
    · intro hhalt
      cases hhalt
    · intro hle
      exact absurd (Nat.lt_succ_of_le hle) hmuch

theorem read_inv {size : Nat} (h : Inv base y l unread) (hpc : y.pc = .read size) :
    ∃ y', y.run K frame r = some y' ∧ Inv base y' l [] := by
  have hkb := h.keys.here
  have hpolled := h.keys.polled
  rw [hpc] at hkb
  rw [State.todo, hpc, List.append_nil] at hpolled
  obtain ⟨huser, hsize, hpos⟩ := hkb
  have hall : size = y.kb.kb.size := hsize.trans hpolled.size.symm
  obtain ⟨hpolled', hbytes⟩ := read_polled hpolled
  refine ⟨{ y with
      kb := { y.kb with kb := (kbFsRead y.kb.kb.size y.kb.kb).1 }
      buf := Buffer.copy unread y.buf
      pc := .key (size - 1) }, ?_, ?_⟩
  · rw [State.run, hpc]
    simp only [hall, hbytes]
  · refine h.congr rfl rfl rfl rfl rfl rfl (by rw [hpc]; simp) (show Pc.key _ ≠ .consume by simp)
      ⟨?_, huser, h.keys.state, h.keys.keys, h.keys.sent⟩
    show Polled _ (y.typed ++ ((List.range (size - 1 + 1)).map (Buffer.copy unread y.buf)).reverse) []
    rw [Nat.sub_add_cancel hpos, hsize, copy_bytes]
    exact hpolled'

theorem release_inv (h : Inv base y l unread) (hpc : y.pc = .release) :
    ∃ y', y.run K frame r = some y' ∧ Inv base y' l unread := by
  have hpolled := h.keys.polled
  rw [State.todo, hpc] at hpolled
  obtain ⟨hpolled', huser⟩ := release_polled hpolled
  refine ⟨{ y with kb := Keyboard.release y.kb, pc := .recv }, ?_,
    h.congr rfl rfl rfl rfl rfl rfl (by rw [hpc]; decide) (show Pc.recv ≠ .consume by decide)
      ⟨hpolled', huser, h.keys.state, h.keys.keys, h.keys.sent⟩⟩
  rw [State.run, hpc]

/-- What is left after the next scancode. -/
theorem todo_key {i : Nat} (hpc : y.pc = .key i)
    (hpc' : y'.pc = if 0 < i then .key (i - 1) else .release) (hbuf : y'.buf = y.buf) :
    y.todo = y.buf i :: y'.todo := by
  rw [State.todo, hpc, State.todo, hpc', hbuf]
  cases i with
  | zero => rfl
  | succ i =>
    rw [if_pos (Nat.succ_pos i), Nat.add_sub_cancel]
    simp only [List.range_succ (n := i + 1), List.map_append, List.reverse_append]
    rfl

/-- A scancode is looked at. -/
theorem key_inv (hf : Fits 1 1 78 23 base) {i : Nat} (h : Inv base y l unread) (hpc : y.pc = .key i)
    (hchild : y.child.queue.q.lock = .UNLOCKED ∨
      (y.state.after (y.buf i)).char (y.buf i) = 0) :
    ∃ y', y.run K frame r = some y' ∧ Inv base y' l unread := by
  obtain ⟨sc, hsc⟩ : ∃ sc, sc = y.buf i := ⟨_, rfl⟩
  rw [← hsc] at hchild
  have hne : y.pc ≠ .consume := by rw [hpc]; simp
  have hstate : y.state.after sc = KeyState.of (y.typed ++ [sc]) := by
    rw [h.keys.state, after_of]
  have hdecode := decode_concat y.typed sc
  rw [← hstate] at hdecode
  obtain ⟨ch, hch⟩ : ∃ ch, ch = (y.state.after sc).char sc := ⟨_, rfl⟩
  rw [← hch] at hchild hdecode
  -- whatever is sent, the program then looks at the next scancode
  have hnext : ∀ y₁ : State, y₁.kb = y.kb → y₁.state = y.state.after sc → y₁.typed = y.typed ++ [sc] →
      y₁.pc = (if 0 < i then .key (i - 1) else .release) → y₁.buf = y.buf →
      y₁.log.filterMap Output.key? = decode (y.typed ++ [sc]) →
      y₁.child.sent = decode (y.typed ++ [sc]) → Keys y₁ unread := by
    intro y₁ hkb hst htyped hpc₁ hbuf hkeys hsent
    have hpolled := h.keys.polled
    have hheld := h.keys.here
    rw [todo_key hpc hpc₁ hbuf, ← hsc, List.append_cons] at hpolled
    rw [hpc] at hheld
    refine ⟨?_, ?_, ?_, htyped ▸ hkeys, htyped ▸ hsent⟩
    · rw [hkb, htyped]
      exact hpolled
    · rw [hpc₁]
      split
      · show y₁.kb.user = true
        rw [hkb]
        exact hheld
      · trivial
    · rw [hst, htyped, hstate]
  have hpc' : (if 0 < i then Pc.key (i - 1) else Pc.release) ≠ .consume := by
    split <;> simp
  by_cases hzero : ch = 0
  · -- a key without a character
    rw [hzero] at hdecode
    simp only [ne_eq, not_true_eq_false, if_false, List.append_nil] at hdecode
    have hprocess : y.processKey K frame r sc = some { y with state := y.state.after sc } := by
      rw [State.processKey]
      simp only [← hch, hzero, ne_eq, not_true_eq_false, if_false]
    refine ⟨{ y with
        state := y.state.after sc
        typed := y.typed ++ [sc]
        pc := if 0 < i then .key (i - 1) else .release }, ?_, ?_⟩
    · rw [State.run, hpc]
      simp only [← hsc, hprocess, Option.map_some]
    · exact h.congr rfl rfl rfl rfl rfl rfl hne hpc' (hnext _ rfl rfl rfl rfl rfl
        (hdecode ▸ h.keys.keys) (hdecode ▸ h.keys.sent))
  · -- the character is shown and sent
    have hfree := hchild.resolve_right hzero
    rw [if_pos hzero] at hdecode
    obtain ⟨lc, hc⟩ := h.child
    obtain ⟨q, hsend, -⟩ := Queue.sendMsg_spec K r [ch] hc.lists hc.stored hfree
    obtain ⟨child, hchild⟩ : ∃ child, y.child.send K r [ch] = some child :=
      ⟨_, by rw [Stdin.State.send, hsend, Option.map_some]⟩
    have hsent : child.sent = y.child.sent ++ [ch] := by
      rw [Stdin.State.send, hsend, Option.map_some] at hchild
      rw [← Option.some.inj hchild]
    obtain ⟨lc', hc'⟩ := Stdin.send_inv hc hchild
    obtain ⟨win, hrun, hshows⟩ := show_output frame hf h.shows (.key ch)
    have hput : fcWputc frame y.win (schar ch) 14 = some win := by
      rw [Output.chars, List.foldlM_cons] at hrun
      simpa using hrun
    have hprocess : y.processKey K frame r sc = some { y with
        state := y.state.after sc, win := win, child := child, log := y.log ++ [.key ch] } := by
      rw [State.processKey]
      simp only [← hch, ne_eq, hzero, not_false_eq_true, if_true, hput, hchild, Option.bind_some,
        Option.map_some]
    refine ⟨{ y with
        state := y.state.after sc
        win := win
        child := child
        log := y.log ++ [.key ch]
        typed := y.typed ++ [sc]
        pc := if 0 < i then .key (i - 1) else .release }, ?_, ?_, hnext _ rfl rfl rfl rfl rfl ?_ ?_,
      ⟨lc', hc'⟩, hshows _ rfl rfl⟩
    · rw [State.run, hpc]
      simp only [← hsc, hprocess, Option.map_some]
    · obtain ⟨hlists, hstored, hsome, hhere, horder⟩ := h.messages
      rw [waiting_free hne] at horder
      refine ⟨hlists, hstored, hsome, (queueAt_free hpc').mpr ((queueAt_free hne).mp hhere), ?_⟩
      rw [waiting_free (show _ ≠ Pc.consume from hpc')]
      show (y.log ++ [Output.key ch]).filterMap Output.message? ++ l.map y.queue.bytes = y.sent
      rw [← horder, List.filterMap_append]
      simp [Output.message?]
    · show (y.log ++ [Output.key ch]).filterMap Output.key? = _
      rw [List.filterMap_append, h.keys.keys, hdecode]
      rfl
    · show child.sent = _
      rw [hsent, h.keys.sent, hdecode]

/-- The program goes on. -/
theorem run_inv (hf : Fits 1 1 78 23 base) (h : Inv base y l unread)
    (hchild : ∀ i, y.pc = .key i → y.child.queue.q.lock = .UNLOCKED ∨
      (y.state.after (y.buf i)).char (y.buf i) = 0) :
    ∃ y' l' unread', y.run K frame r = some y' ∧ Inv base y' l' unread' := by
  cases hpc : y.pc with
  | recv =>
    obtain ⟨y', hrun, h'⟩ := recv_inv K frame r hf h hpc
    exact ⟨y', l, unread, hrun, h'⟩
  | consume =>
    obtain ⟨y', l', hrun, h'⟩ := consume_inv K frame r h hpc
    exact ⟨y', l', unread, hrun, h'⟩
  | stop =>
    obtain ⟨y', hrun, h'⟩ := stop_inv K frame r h hpc
    exact ⟨y', l, unread, hrun, h'⟩
  | acquire =>
    obtain ⟨y', hrun, h'⟩ := acquire_inv K frame r h hpc
    exact ⟨y', l, unread, hrun, h'⟩
  | size =>
    obtain ⟨y', hrun, h', -⟩ := size_inv K frame r hf h hpc
    exact ⟨y', l, unread, hrun, h'⟩
  | read size =>
    obtain ⟨y', hrun, h'⟩ := read_inv K frame r h hpc
    exact ⟨y', l, [], hrun, h'⟩
  | key i =>
    obtain ⟨y', hrun, h'⟩ := key_inv K frame r hf h hpc (hchild i hpc)
    exact ⟨y', l, unread, hrun, h'⟩
  | release =>
    obtain ⟨y', hrun, h'⟩ := release_inv K frame r h hpc
    exact ⟨y', l, unread, hrun, h'⟩
  | halt => exact ⟨y, l, unread, by rw [State.run, hpc], h⟩

-- ---------------------------------------------------------------------------
-- Every run
-- ---------------------------------------------------------------------------

/-- The screen of the start has the window and the box around it. -/
theorem startScreen_fits {out : File} (hout : out.size = 80 * 25 * 2) (cursorf : File) :
    Fits 1 1 78 23 (startScreen out cursorf) ∧
      (∀ a b, (startScreen out cursorf).Has a b → Border (startScreen out cursorf) a b →
        (startScreen out cursorf).cell a b = (toByte (boxChar (startScreen out cursorf) a b), toByte 11)) ∧
      (startScreen out cursorf).width = 80 ∧ (startScreen out cursorf).height = 25 := by
  have hsized : (createCgaScreen out cursorf).Sized :=
    ⟨congrArg Int.ofNat hout, rfl, show (80 * 25 * 2 : Int) < 0x80000000 by decide⟩
  obtain ⟨halike, hcell⟩ := boxScreen_cell 11 hsized (show (2 : Int) ≤ 80 by decide)
    (show (2 : Int) ≤ 25 by decide)
  have hmove : ∀ scr, Screen.Alike scr (fcMoveCursor scr 1 1) ∧
      ∀ a b, (fcMoveCursor scr 1 1).cell a b = scr.cell a b :=
    fun scr => ⟨⟨rfl, rfl, rfl, rfl⟩, fun a b => rfl⟩
  have hsame : (createCgaScreen out cursorf).Alike (startScreen out cursorf) :=
    halike.trans (hmove _).1
  have hwidth : (startScreen out cursorf).width = 80 := hsame.width
  have hheight : (startScreen out cursorf).height = 25 := hsame.height
  refine ⟨⟨hsized.alike hsame, by omega, by omega, ?_, ?_⟩, ?_, hwidth, hheight⟩
  · rw [hwidth]
    omega
  · rw [hheight]
    omega
  · intro a b hab hborder
    have hat : (createCgaScreen out cursorf).Has a b := by
      unfold Screen.Has at hab ⊢
      rw [hwidth, hheight] at hab
      exact hab
    have hon : Border (createCgaScreen out cursorf) a b := by
      unfold Border at hborder ⊢
      rw [hwidth, hheight] at hborder
      exact hborder
    have hchar : boxChar (startScreen out cursorf) a b = boxChar (createCgaScreen out cursorf) a b := by
      rw [boxChar, boxChar, hsame.width, hsame.height]
    rw [hchar, startScreen, (hmove _).2, hcell a b hat, if_pos hon]

/-- At the start the terminal is empty. -/
theorem start_terminal (base : Screen) (out cursorf : File) (buffer : Int → UInt8) (mem : Queue.Kmem)
    (child : Stdin.State) (msg buf : Buffer) :
    (State.start out cursorf buffer mem child msg buf).terminal base = before base := rfl

/-- The invariant holds at the start. -/
theorem start_inv {out : File} (hout : out.size = 80 * 25 * 2) (cursorf : File) (buffer : Int → UInt8)
    (mem mem' : Queue.Kmem) (msg buf : Buffer) :
    Inv (startScreen out cursorf)
      (State.start out cursorf buffer mem (Stdin.State.start junk mem') msg buf) [] [] := by
  obtain ⟨hf, -, hwidth, hheight⟩ := startScreen_fits hout cursorf
  refine ⟨?_, ⟨start_polled buffer, rfl, rfl, rfl, rfl⟩, ⟨[], Stdin.start_inv junk mem'⟩, ?_⟩
  · exact ⟨⟨rfl, rfl, trivial, List.nodup_nil, List.not_mem_nil⟩,
      ⟨fun p hp => absurd hp List.not_mem_nil, List.nodup_nil, fun p hp => absurd hp List.not_mem_nil⟩,
      fun p hp => absurd hp List.not_mem_nil, ⟨rfl, rfl⟩, rfl⟩
  · rw [start_terminal]
    obtain ⟨base, hbase⟩ : ∃ base, base = startScreen out cursorf := ⟨_, rfl⟩
    have hwin : (State.start out cursorf buffer mem (Stdin.State.start junk mem') msg buf).win =
        createWindow base 1 1 (base.width - 2) (base.height - 2) := by
      rw [hbase]
      rfl
    rw [hwin, ← hbase]
    rw [← hbase] at hwidth hheight
    rw [hwidth, hheight]
    exact ⟨rfl, ⟨Screen.Alike.refl _, fun a b _ _ => rfl, fun a b _ _ => rfl⟩,
      show 0 < 78 ∧ 0 < 23 by decide⟩

/-- Every allowed event keeps the invariant. -/
theorem event_inv (hf : Fits 1 1 78 23 base) (h : Inv base y l unread) {e : Event}
    (hallowed : Allowed y e) (hstep : y.event K junk frame r c e = some y') :
    ∃ l' unread', Inv base y' l' unread' := by
  obtain ⟨hm, hk, ⟨lc, hc⟩, hs⟩ := h
  obtain ⟨hlists, hstored, hsome, hhere, horder⟩ := hm
  obtain ⟨hpolled, hkb, hstate, hkeys, hsent⟩ := hk
  cases e with
  | send t data =>
    obtain ⟨q, hsend, rfl⟩ := Option.map_eq_some_iff.mp hstep
    obtain ⟨l', hm⟩ := send_messages K ⟨hlists, hstored, hsome, hhere, horder⟩ hallowed hsend
    exact ⟨l', unread, hm, ⟨hpolled, hkb, hstate, hkeys, hsent⟩, ⟨lc, hc⟩, hs⟩
  | interrupt sc =>
    obtain ⟨kb, hput, rfl⟩ := Option.map_eq_some_iff.mp hstep
    obtain ⟨unread', hpolled', hgrows⟩ := interrupt_polled hpolled hallowed hput
    exact ⟨l, unread', ⟨hlists, hstored, hsome, hhere, horder⟩,
      ⟨hpolled', kbAt_grows hkb hgrows, hstate, hkeys, hsent⟩, ⟨lc, hc⟩, hs⟩
  | work =>
    obtain ⟨kb, hwork, rfl⟩ := Option.map_eq_some_iff.mp hstep
    obtain ⟨unread', hpolled', hgrows⟩ := work_polled hpolled hallowed hwork
    exact ⟨l, unread', ⟨hlists, hstored, hsome, hhere, horder⟩,
      ⟨hpolled', kbAt_grows hkb hgrows, hstate, hkeys, hsent⟩, ⟨lc, hc⟩, hs⟩
  | fgets n =>
    obtain ⟨child, hcall, rfl⟩ := Option.map_eq_some_iff.mp hstep
    exact ⟨l, unread, ⟨hlists, hstored, hsome, hhere, horder⟩,
      ⟨hpolled, hkb, hstate, hkeys, (call_sent hcall).trans hsent⟩,
      ⟨lc, Stdin.call_inv hc hcall⟩, hs⟩
  | child =>
    obtain ⟨child, hrun, rfl⟩ := Option.map_eq_some_iff.mp hstep
    have hpc : y.child.pc ≠ .out := by
      intro hout
      have hnone : y.child.run junk c = none := by
        rw [Stdin.State.run, hout]
      exact Option.some_ne_none _ (hrun.symm.trans hnone)
    obtain ⟨child', lc', hrun', hc'⟩ := Stdin.run_inv (r := c) hc hpc hallowed
    obtain rfl := Option.some.inj (hrun'.symm.trans hrun)
    exact ⟨l, unread, ⟨hlists, hstored, hsome, hhere, horder⟩,
      ⟨hpolled, hkb, hstate, hkeys, (child_sent hrun).trans hsent⟩, ⟨lc', hc'⟩, hs⟩
  | run =>
    have hchild : ∀ i, y.pc = .key i → y.child.queue.q.lock = .UNLOCKED ∨
        (y.state.after (y.buf i)).char (y.buf i) = 0 := by
      intro i hpc
      by_contra hnot
      push Not at hnot
      obtain ⟨hlock, hchar⟩ := hnot
      have hheld : y.child.queue.q.lock = .LOCKED := by
        cases hl : y.child.queue.q.lock with
        | LOCKED => rfl
        | UNLOCKED => exact absurd hl hlock
      have hnone : y.run K frame r = none := by
        have hsend : ∀ data, y.child.send K r data = none := fun data => by
          rw [Stdin.State.send, Queue.sendMsg, Queue.lockQueue_taken hheld]
          rfl
        rw [State.run, hpc]
        simp only [State.processKey, ne_eq, hchar, not_false_eq_true, if_true, hsend, Option.map_none,
          Option.bind_fun_none]
      exact Option.some_ne_none _ (hstep.symm.trans hnone)
    obtain ⟨y₁, l', unread', hrun, h'⟩ := run_inv K frame r hf
      ⟨⟨hlists, hstored, hsome, hhere, horder⟩, ⟨hpolled, hkb, hstate, hkeys, hsent⟩, ⟨lc, hc⟩, hs⟩ hchild
    obtain rfl := Option.some.inj (hrun.symm.trans hstep)
    exact ⟨l', unread', h'⟩

/-- In the invariant the shell is faithful. -/
theorem Inv.faithful (hf : Fits 1 1 78 23 base)
    (hbox : ∀ a b, base.Has a b → Border base a b →
      base.cell a b = (toByte (boxChar base a b), toByte 11))
    (hsize : base.width = 80 ∧ base.height = 25) (h : Inv base y l unread) :
    Faithful K junk frame r c base y where
  messages := ⟨l, h.messages.lists, h.messages.inOrder⟩
  typed := by
    refine ⟨unread, h.keys.polled.stored, ?_⟩
    intro hpc
    obtain ⟨y', hrun, -, hhalt⟩ := size_inv K frame r hf h hpc
    exact ⟨y', hrun, hhalt⟩
  keys := h.keys.keys
  child := by
    obtain ⟨lc, hc⟩ := h.child
    exact ⟨h.keys.sent, hc.faithful⟩
  window := h.shows.painted.cells
  box := by
    intro a b hab hborder
    rw [h.shows.painted.frame a b hab, hbox a b hab hborder]
    unfold Border at hborder
    unfold Under
    rw [hsize.1, hsize.2] at hborder
    omega
  returns := by
    intro hchild
    obtain ⟨y', l', unread', hrun, -⟩ := run_inv K frame r hf h hchild
    exact ⟨y', hrun⟩

/-- Over every run: what was sent to the program is shown, what was typed is shown and
passed on, all of it in order and none of it twice. -/
theorem shell_faithful (junk : Nat → UInt8) (c : Tid) {out : File} (hout : out.size = 80 * 25 * 2)
    (cursorf : File) (buffer : Int → UInt8) (mem mem' : Queue.Kmem) (msg buf : Buffer)
    (events : List Event)
    (hallowed : Whenever (Step K junk frame r c) Allowed
      (State.start out cursorf buffer mem (Stdin.State.start junk mem') msg buf) events) :
    Upon (Step K junk frame r c)
      (fun _ _ y' _ => Faithful K junk frame r c (startScreen out cursorf) y')
      (State.start out cursorf buffer mem (Stdin.State.start junk mem') msg buf) events := by
  obtain ⟨hf, hbox, hsize⟩ := startScreen_fits hout cursorf
  have hstep : ∀ y e y' (_ : Unit), (∃ l unread, Inv (startScreen out cursorf) y l unread) →
      Allowed y e → Step K junk frame r c y e y' () →
        Faithful K junk frame r c (startScreen out cursorf) y' ∧
          ∃ l unread, Inv (startScreen out cursorf) y' l unread := by
    rintro y e y' _ ⟨l, unread, h⟩ hal hstep
    obtain ⟨l', unread', h'⟩ := event_inv K frame r hf h hal hstep
    exact ⟨h'.faithful K frame r hf hbox hsize, l', unread', h'⟩
  exact upon_of_invariant hstep ⟨[], [], start_inv hout cursorf buffer mem mem' msg buf⟩ hallowed

/-- A step of the shell is computed by its event. -/
theorem step_computes (junk : Nat → UInt8) (c : Tid) :
    Computes (fun y e => (y.event K junk frame r c e).map fun y' => (y', ())) (Step K junk frame r c) :=
  computes_of_eq fun _ _ _ _ h => h

/-- Shift and `h` are pressed and `h` released while the child sends a message and the
program goes its round; the child then reads what it was sent. -/
theorem shell_faithful_round :
    Upon (Step .above (fun _ => 0) (fun _ => 0) 1 2)
      (fun _ _ y' _ => Faithful .above (fun _ => 0) (fun _ => 0) 1 2
        (startScreen ⟨4000, fun _ => 0⟩ ⟨8, fun _ => 0⟩) y')
      (State.start ⟨4000, fun _ => 0⟩ ⟨8, fun _ => 0⟩ (fun _ => 0) .empty
        (Stdin.State.start (fun _ => 0) .empty) (fun _ => 0) (fun _ => 0))
      ([.interrupt 0x2A, .send 2 [72, 105, 10], .run, .run, .interrupt 0x23] ++ List.replicate 4 .run ++
        [.interrupt 0xA3, .fgets 512] ++ List.replicate 5 .run ++ [.work] ++ List.replicate 6 .child) :=
  shell_faithful .above (fun _ => 0) 1 (fun _ => 0) 2 rfl ⟨8, fun _ => 0⟩ (fun _ => 0) .empty .empty
    (fun _ => 0) (fun _ => 0) _
    (whenever_of_checkRun (step_computes .above (fun _ => 0) 1 (fun _ => 0) 2) (by decide +kernel))

end Frosk.Shell

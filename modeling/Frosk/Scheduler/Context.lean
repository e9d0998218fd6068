import Mathlib.Tactic
import Frosk.Scheduler.Startup

/-!
# Scheduler: the context of a thread

The embedding of `timer_irq` and `yield` in `scheduler.asm` with the macros of
`stack.inc`, and of what the processor does at an interrupt and at `iretq`: what
`Definitions` leaves out of `yield`.

* Pushes and pops go through the page map. An interrupt of a user thread pushes from
  `RSP0` on, which `setup_tss` sets to `LOW_HALF_TOP - 4` and the processor aligns
  down to 16; one of a kernel thread pushes below the stack pointer, aligned.
* `Fx` is the state of the floating point unit, which `fxsave64` and `fxrstor64` copy
  to and from the block of a thread as a whole.
* The calls of `swapflop` leave their return addresses and frames below the stack pointer, the
  first one on the stack of the thread that was interrupted, the second one below
  `handlerStack`. How many bytes that are, and which, is not part of the model (`Handler`).

`pushAll_spec`, `popAll_spec` : pushes to a mapped block leave the items one below
another, and pops take them again.
-/

namespace Frosk.Scheduler

open Lib Regions

/-- The registers of a thread. -/
structure Context where
  rax    : UInt64
  rcx    : UInt64
  rdx    : UInt64
  rsi    : UInt64
  rdi    : UInt64
  r8     : UInt64
  r9     : UInt64
  r10    : UInt64
  r11    : UInt64
  rbx    : UInt64
  rbp    : UInt64
  r12    : UInt64
  r13    : UInt64
  r14    : UInt64
  r15    : UInt64
  ds     : UInt16
  es     : UInt16
  fs     : UInt16
  gs     : UInt16
  rip    : UInt64
  cs     : UInt16
  rflags : UInt64
  rsp    : UInt64
  ss     : UInt16
deriving DecidableEq

-- ---------------------------------------------------------------------------
-- Stack
-- ---------------------------------------------------------------------------

/-- Items are pushed one after another. -/
def pushAll : List (List UInt8) → Space → Nat → Except Fault (Space × Nat)
  | [], s, rsp => .ok (s, rsp)
  | w :: ws, s, rsp => do
    let s ← storeBytes (wsub rsp w.length) w s
    pushAll ws s (wsub rsp w.length)

/-- Numbers of the given widths are popped one after another. -/
def popAll : List Nat → Space → Nat → Except Fault (List Nat × Nat)
  | [], _, rsp => .ok ([], rsp)
  | n :: ns, s, rsp =>
    match loadBytes s rsp n with
    | none => .error .hang
    | some l => do
      let (vs, rsp) ← popAll ns s ((rsp + n) % wordSize)
      .ok (fromLE l :: vs, rsp)

/-- What the processor pushes at an interrupt. -/
def interruptFrame (c : Context) : List (List UInt8) :=
  [leBytes 8 c.ss.toNat, leBytes 8 c.rsp.toNat, leBytes 8 c.rflags.toNat, leBytes 8 c.cs.toNat,
    leBytes 8 c.rip.toNat]

/-- `PUSH_CALLER`. -/
def pushCaller (c : Context) : List (List UInt8) :=
  [c.rax, c.rcx, c.rdx, c.rsi, c.rdi, c.r8, c.r9, c.r10, c.r11].map fun r => leBytes 8 r.toNat

/-- `PUSH_CALLEE`. -/
def pushCallee (c : Context) : List (List UInt8) :=
  [c.rbx, c.rbp, c.r12, c.r13, c.r14, c.r15].map fun r => leBytes 8 r.toNat

/-- `SAVE_SEGMENTS`. -/
def saveSegments (c : Context) : List (List UInt8) :=
  [c.ds, c.es, c.fs, c.gs].map fun r => leBytes 2 r.toNat

/-- `RESTORE_SEGMENTS`. -/
def restoreSegments (s : Space) (rsp : Nat) (c : Context) : Except Fault (Context × Nat) := do
  let (vs, rsp) ← popAll [2, 2, 2, 2] s rsp
  match vs with
  | [gs, fs, es, ds] =>
    .ok ({ c with gs := .ofNat gs, fs := .ofNat fs, es := .ofNat es, ds := .ofNat ds }, rsp)
  | _ => .error .hang

/-- `POP_CALLEE`. -/
def popCallee (s : Space) (rsp : Nat) (c : Context) : Except Fault (Context × Nat) := do
  let (vs, rsp) ← popAll [8, 8, 8, 8, 8, 8] s rsp
  match vs with
  | [r15, r14, r13, r12, rbp, rbx] =>
    .ok ({ c with
      r15 := .ofNat r15, r14 := .ofNat r14, r13 := .ofNat r13, r12 := .ofNat r12
      rbp := .ofNat rbp, rbx := .ofNat rbx }, rsp)
  | _ => .error .hang

/-- `POP_CALLER`. -/
def popCaller (s : Space) (rsp : Nat) (c : Context) : Except Fault (Context × Nat) := do
  let (vs, rsp) ← popAll [8, 8, 8, 8, 8, 8, 8, 8, 8] s rsp
  match vs with
  | [r11, r10, r9, r8, rdi, rsi, rdx, rcx, rax] =>
    .ok ({ c with
      r11 := .ofNat r11, r10 := .ofNat r10, r9 := .ofNat r9, r8 := .ofNat r8
      rdi := .ofNat rdi, rsi := .ofNat rsi, rdx := .ofNat rdx, rcx := .ofNat rcx
      rax := .ofNat rax }, rsp)
  | _ => .error .hang

def iretq (s : Space) (rsp : Nat) (c : Context) : Except Fault Context := do
  let (vs, _) ← popAll [8, 8, 8, 8, 8] s rsp
  match vs with
  | [rip, cs, rflags, rsp, ss] =>
    .ok { c with
      rip := .ofNat rip, cs := .ofNat cs, rflags := .ofNat rflags, rsp := .ofNat rsp
      ss := .ofNat ss }
  | _ => .error .hang

-- ---------------------------------------------------------------------------
-- timer_irq
-- ---------------------------------------------------------------------------

/-- What runs, and the `fxsave_block` of each thread. -/
structure Machine (Fx : Type) where
  s     : State
  ctx   : Context
  fpu   : Fx
  block : Ptr → Fx

/-- `RSP0`, as the processor aligns it. -/
def rsp0 : Nat := (lowHalfTop - 4) / 16 * 16

/-- Where an interrupt begins to push: a user thread changes to `RSP0`. -/
def kernelRsp (c : Context) : Nat := if c.cs.toNat % 4 = 3 then rsp0 else c.rsp.toNat / 16 * 16

/-- What the code of a timer interrupt leaves: the flags when it calls `yield`, the registers
before they are taken from a stack, and the bytes of the two calls of `swapflop`. -/
structure Handler where
  flags : Nat
  left  : Context
  code  : List UInt8
  stack : List UInt8

/-- Where the stack is swapped in, `yield` uses the memory below. -/
abbrev handlerStack : Nat := 0x70000

/-- The switch to thread `t`, and the stack pointer to go on with. The code pages are swapped
in on the stack of the old thread. -/
def yieldTo (rsp : Nat) (h : Handler) (t : Ptr) (s : State) : Except Fault (State × Nat) := do
  let (space, _) ← pushAll [h.code] s.space rsp
  let s ← switchTo rsp t { s with space := space }
  let (space, _) ← pushAll [h.stack] s.space handlerStack
  .ok ({ s with space := space }, (s.thr t).rsp)

/-- `yield` with the stack pointer that it goes on with: that of the new thread if
there is one. -/
def yieldRsp (n rsp : Nat) (h : Handler) (s : State) : Except Fault (State × Nat) :=
  if s.schedulerLock = .LOCKED ∨ s.headThrd = NULL then .ok (s, rsp)
  else
    match searchThread n s with
    | none => .error .hang
    | some none => .ok (s, rsp)
    | some (some t) => yieldTo rsp h t s

/-- The end of `yield` and of `timer_irq`. The word on top of the stack says whether
context data is below it; `left` is what the kernel has in the registers, and `ret`
the place of the `iretq` behind the call of `yield`. -/
def leave {Fx : Type} (ret : Nat) (left : Context) (fpu : Fx) (block : Ptr → Fx) (s : State)
    (rsp : Nat) : Except Fault (Machine Fx) := do
  let (vs, rsp) ← popAll [8] s.space rsp
  if vs ≠ [0] then
    let c ← iretq s.space rsp left
    .ok ⟨s, c, fpu, block⟩
  else
    let fpu := if s.curThrd = NULL then fpu else block s.curThrd
    let (c, rsp) ← restoreSegments s.space rsp left
    let (c, rsp) ← popCallee s.space rsp c
    let (c, rsp) ← popCaller s.space rsp c
    let (vs, rsp) ← popAll [8, 8] s.space rsp
    match vs with
    | [_, rip] =>
      if rip ≠ ret then .error .hang
      else
        let c ← iretq s.space rsp c
        .ok ⟨s, c, fpu, block⟩
    | _ => .error .hang

/-- A timer interrupt, with a bound on the search of `yield`. -/
def timerIrq {Fx : Type} (n ret : Nat) (h : Handler) (m : Machine Fx) : Except Fault (Machine Fx) := do
  let (space, rsp) ← pushAll (interruptFrame m.ctx) m.s.space (kernelRsp m.ctx)
  let (space, rsp) ← pushAll [leBytes 8 ret, leBytes 8 h.flags] space rsp
  let (space, rsp) ← pushAll (pushCaller m.ctx) space rsp
  let (space, rsp) ← pushAll (pushCallee m.ctx) space rsp
  let (space, rsp) ← pushAll (saveSegments m.ctx) space rsp
  let block :=
    if m.s.curThrd = NULL then m.block else Function.update m.block m.s.curThrd m.fpu
  let (space, rsp) ← pushAll [leBytes 8 0] space rsp
  let (s, rsp) ← yieldRsp n rsp h { m.s with space := space }
  leave ret h.left m.fpu block s rsp

-- ---------------------------------------------------------------------------
-- Pushing and popping
-- ---------------------------------------------------------------------------

/-- The block is mapped, whoever may use it. -/
structure Reached (s : Space) (b : Block) : Prop where
  whole : b.Whole
  wide  : b.phys + b.size ≤ 2 ^ 52
  map   : ∃ flags, flags % 2 = 1 ∧ flags < pageSize ∧
    ∀ v, b.HasPage v → s.map v = blockEntry flags b (v - b.virt)

/-- A mapped block is reached. -/
theorem Mapped.reached {s : Space} {b : Block} (h : Mapped s b) : Reached s b :=
  ⟨h.whole, h.wide, 7, by decide, by decide, h.map⟩

/-- The items are in memory one behind another, from `a` on. -/
def Stacked (s : Space) (a : Nat) (ws : List (List UInt8)) : Prop :=
  loadBytes s a ws.flatten.length = some ws.flatten

/-- A load in two parts. -/
theorem loadBytes_add (s : Space) (a n k : Nat) :
    loadBytes s a (n + k) = (loadBytes s a n).bind fun l =>
      (loadBytes s (a + n) k).map fun l' => l ++ l' := by
  induction n generalizing a with
  | zero => simp [loadBytes]
  | succ n ih =>
    rw [Nat.succ_add, loadBytes, loadBytes, ih, Nat.add_assoc, Nat.add_comm 1 n]
    cases loadByte s a with
    | none => rfl
    | some b =>
      cases loadBytes s (a + 1) n with
      | none => rfl
      | some l => cases loadBytes s (a + (n + 1)) k <;> rfl

/-- A load gives as many bytes as it was asked for. -/
theorem loadBytes_length {s : Space} {a n : Nat} {l : List UInt8} (h : loadBytes s a n = some l) :
    l.length = n := by
  induction n generalizing a l with
  | zero =>
    obtain rfl : [] = l := Option.some.inj h
    rfl
  | succ n ih =>
    rw [loadBytes] at h
    simp only [Option.bind_eq_bind, Option.bind_eq_some_iff] at h
    obtain ⟨b, _, l', hl', hl⟩ := h
    obtain rfl := Option.some.inj hl
    rw [List.length_cons, ih hl']

/-- What is stacked in two parts. -/
theorem Stacked.append {s : Space} {a : Nat} {ws vs : List (List UInt8)}
    (h : Stacked s a (ws ++ vs)) : Stacked s a ws ∧ Stacked s (a + ws.flatten.length) vs := by
  unfold Stacked at *
  rw [List.flatten_append, List.length_append, loadBytes_add, Option.bind_eq_some_iff] at h
  obtain ⟨l, hl, hrest⟩ := h
  obtain ⟨l', hl', happ⟩ := Option.map_eq_some_iff.mp hrest
  obtain ⟨rfl, rfl⟩ := List.append_inj happ (loadBytes_length hl)
  exact ⟨hl, hl'⟩

/-- Popping gives the words that were stacked. -/
theorem popAll_spec {s : Space} {a : Nat} {ws : List (List UInt8)} (h : Stacked s a ws)
    (hword : a + ws.flatten.length < wordSize) :
    popAll (ws.map List.length) s a = .ok (ws.map fromLE, a + ws.flatten.length) := by
  induction ws generalizing a with
  | nil => rfl
  | cons w ws ih =>
    obtain ⟨hw, hws⟩ := (show Stacked s a ([w] ++ ws) from h).append
    rw [Stacked, List.flatten_singleton] at hw
    rw [List.flatten_singleton] at hws
    rw [List.flatten_cons, List.length_append] at hword ⊢
    have hnext : (a + w.length) % wordSize = a + w.length := Nat.mod_eq_of_lt (by omega)
    rw [List.map_cons, popAll, hw]
    dsimp only
    rw [hnext, ih hws (by omega), ok_bind, Nat.add_assoc]
    rfl

section Reached

variable {s : Space} {b : Block} {k : Nat}

/-- A byte of a block that is reached is loaded. -/
theorem Reached.loadByte (h : Reached s b) (hk : k < b.size) :
    loadByte s (b.virt + k) = some (s.mem (b.phys + k)) := by
  obtain ⟨flags, hodd, hflags, hmap⟩ := h.map
  obtain ⟨hpresent, hplace⟩ := mapped_place flags hodd hflags h.whole h.wide hmap hk
  rw [Scheduler.loadByte, if_pos hpresent, hplace]

/-- The bytes of such a block are loaded in a row. -/
theorem Reached.loadBytes (h : Reached s b) {n : Nat} (hk : k + n ≤ b.size) :
    loadBytes s (b.virt + k) n = some (s.mem.slice (b.phys + k) n) := by
  induction n generalizing k with
  | zero => rfl
  | succ n ih =>
    have hsplit : s.mem.slice (b.phys + k) (n + 1) =
        s.mem (b.phys + k) :: s.mem.slice (b.phys + k + 1) n := by
      rw [Nat.add_comm n 1, Memory.slice_append]
      rfl
    rw [Scheduler.loadBytes, h.loadByte (by omega), Nat.add_assoc, ih (by omega), hsplit]
    rfl

/-- The items lie one below another, the last one lowest. -/
theorem pushAll_spec (h : Reached s b) (ws : List (List UInt8)) (hlow : ws.flatten.length ≤ k)
    (hk : k ≤ b.size) (hword : b.virt + k < wordSize) :
    pushAll ws s (b.virt + k) = .ok ({ s with
        mem := s.mem.blit (b.phys + (k - ws.flatten.length)) ws.reverse.flatten },
      b.virt + (k - ws.flatten.length)) := by
  induction ws generalizing s k with
  | nil =>
    rw [pushAll, List.reverse_nil, List.flatten_nil, Memory.blit_nil]
    rfl
  | cons w ws ih =>
    rw [List.flatten_cons, List.length_append] at hlow ⊢
    obtain ⟨flags, hodd, hflags, hmap⟩ := h.map
    have hdown : wsub (b.virt + k) w.length = b.virt + (k - w.length) := by
      rw [wsub_eq (by omega) hword]
      omega
    have hstore := storeBytes_spec flags hodd hflags h.whole h.wide w (k := k - w.length) hmap (by omega)
    have hlen : ws.reverse.flatten.length = ws.flatten.length := by simp [List.length_flatten]
    have hplace : b.phys + (k - w.length) =
        b.phys + (k - (w.length + ws.flatten.length)) + ws.reverse.flatten.length := by
      omega
    have hsub : k - w.length - ws.flatten.length = k - (w.length + ws.flatten.length) := by omega
    have hrest := ih (s := { s with mem := s.mem.blit (b.phys + (k - w.length)) w }) (k := k - w.length)
      ⟨h.whole, h.wide, flags, hodd, hflags, hmap⟩ (by omega) (by omega) (by omega)
    rw [pushAll, hdown, hstore, ok_bind, hrest, List.reverse_cons, List.flatten_append,
      List.flatten_singleton, hsub]
    dsimp only
    rw [hplace, Memory.blit_prepend]

end Reached

-- ---------------------------------------------------------------------------
-- What an interrupt saves
-- ---------------------------------------------------------------------------

/-- All that an interrupt pushes, whether it switches or not. -/
def savedItems (ret flags : Nat) (c : Context) : List (List UInt8) :=
  interruptFrame c ++ [leBytes 8 ret, leBytes 8 flags] ++ pushCaller c ++ pushCallee c ++
    saveSegments c ++ [leBytes 8 0]

/-- The same as it lies on the stack. -/
def savedImage (ret flags : Nat) (c : Context) : List UInt8 := (savedItems ret flags c).reverse.flatten

/-- The bytes that an interrupt pushes. -/
abbrev savedSize : Nat := 192

/-- The bytes of the stack that a switch to another thread takes. -/
abbrev Handler.depth (h : Handler) : Nat := h.code.length + savedSize

section Saved

variable {Fx : Type} {n ret flags : Nat} {left c : Context} {s : State} {rsp : Nat}

/-- Pushing in two parts. -/
theorem pushAll_append (ws vs : List (List UInt8)) (s : Space) (rsp : Nat) :
    pushAll (ws ++ vs) s rsp = (do
      let (s, rsp) ← pushAll ws s rsp
      pushAll vs s rsp) := by
  induction ws generalizing s rsp with
  | nil => rfl
  | cons w ws ih =>
    rw [List.cons_append, pushAll, pushAll, bind_assoc]
    exact bind_congr fun s => ih s _

/-- The words saved of an interrupted thread. -/
theorem savedItems_length (ret flags : Nat) (c : Context) :
    (savedItems ret flags c).flatten.length = savedSize := by
  simp [savedItems, interruptFrame, pushCaller, pushCallee, saveSegments]

/-- The image of an interrupted thread has this size. -/
theorem savedImage_length (ret flags : Nat) (c : Context) :
    (savedImage ret flags c).length = savedSize := by
  rw [savedImage, ← savedItems_length ret flags c]
  simp [List.length_flatten]

/-- An interrupt pushes all at once, as it were. -/
theorem timerIrq_eq (n ret : Nat) (h : Handler) (m : Machine Fx) :
    timerIrq n ret h m = (do
      let (space, rsp) ← pushAll (savedItems ret h.flags m.ctx) m.s.space (kernelRsp m.ctx)
      let (s, rsp) ← yieldRsp n rsp h { m.s with space := space }
      leave ret h.left m.fpu
        (if m.s.curThrd = NULL then m.block else Function.update m.block m.s.curThrd m.fpu) s rsp) := by
  simp only [timerIrq, savedItems, pushAll_append, bind_assoc]

/-- A register that is stored is read again. -/
theorem quad_read (r : UInt64) : UInt64.ofNat (fromLE (leBytes 8 r.toNat)) = r := by
  have hlt : r.toNat < 256 ^ 8 := r.toNat_lt
  rw [fromLE_leBytes, Nat.mod_eq_of_lt hlt]
  exact UInt64.ofNat_toNat

/-- A selector, in as many bytes as it is pushed with. -/
theorem word_read {k : Nat} (hk : 2 ≤ k) (r : UInt16) :
    UInt16.ofNat (fromLE (leBytes k r.toNat)) = r := by
  have hwide : 256 ^ 2 ≤ 256 ^ k := Nat.pow_le_pow_right (by decide) hk
  have hlt : r.toNat < 256 ^ 2 := r.toNat_lt
  rw [fromLE_leBytes, Nat.mod_eq_of_lt (by omega)]
  exact UInt16.ofNat_toNat

/-- `iretq` takes up the frame of the interrupt. -/
theorem iretq_spec {s : Space} (h : Stacked s rsp (interruptFrame c).reverse)
    (hword : rsp + 40 < wordSize) (left : Context) :
    iretq s rsp left = .ok { left with
      rip := c.rip, cs := c.cs, rflags := c.rflags, rsp := c.rsp, ss := c.ss } := by
  have hpop := popAll_spec h (by simpa [interruptFrame] using hword)
  have hwidths : (interruptFrame c).reverse.map List.length = [8, 8, 8, 8, 8] := by
    simp [interruptFrame]
  rw [hwidths] at hpop
  rw [iretq, hpop, ok_bind]
  simp only [interruptFrame, List.reverse_cons, List.reverse_nil, List.nil_append, List.cons_append,
    List.map_cons, List.map_nil, quad_read, word_read (show 2 ≤ 8 by decide)]

/-- The segments are restored. -/
theorem restoreSegments_spec {s : Space} (h : Stacked s rsp (saveSegments c).reverse)
    (hword : rsp + 8 < wordSize) (left : Context) :
    restoreSegments s rsp left =
      .ok ({ left with gs := c.gs, fs := c.fs, es := c.es, ds := c.ds }, rsp + 8) := by
  have hpop := popAll_spec h (by simpa [saveSegments] using hword)
  have hwidths : (saveSegments c).reverse.map List.length = [2, 2, 2, 2] := by simp [saveSegments]
  have hlen : (saveSegments c).reverse.flatten.length = 8 := by simp [saveSegments]
  rw [hwidths, hlen] at hpop
  rw [restoreSegments, hpop, ok_bind]
  simp only [saveSegments, List.map_cons, List.map_nil, List.reverse_cons, List.reverse_nil,
    List.nil_append, List.cons_append, word_read le_rfl]

theorem popCallee_spec {s : Space} (h : Stacked s rsp (pushCallee c).reverse)
    (hword : rsp + 48 < wordSize) (left : Context) :
    popCallee s rsp left = .ok ({ left with
      r15 := c.r15, r14 := c.r14, r13 := c.r13, r12 := c.r12, rbp := c.rbp, rbx := c.rbx },
      rsp + 48) := by
  have hpop := popAll_spec h (by simpa [pushCallee] using hword)
  have hwidths : (pushCallee c).reverse.map List.length = [8, 8, 8, 8, 8, 8] := by
    simp [pushCallee]
  have hlen : (pushCallee c).reverse.flatten.length = 48 := by simp [pushCallee]
  rw [hwidths, hlen] at hpop
  rw [popCallee, hpop, ok_bind]
  simp only [pushCallee, List.map_cons, List.map_nil, List.reverse_cons, List.reverse_nil,
    List.nil_append, List.cons_append, quad_read]

theorem popCaller_spec {s : Space} (h : Stacked s rsp (pushCaller c).reverse)
    (hword : rsp + 72 < wordSize) (left : Context) :
    popCaller s rsp left = .ok ({ left with
      r11 := c.r11, r10 := c.r10, r9 := c.r9, r8 := c.r8, rdi := c.rdi, rsi := c.rsi
      rdx := c.rdx, rcx := c.rcx, rax := c.rax }, rsp + 72) := by
  have hpop := popAll_spec h (by simpa [pushCaller] using hword)
  have hwidths : (pushCaller c).reverse.map List.length = [8, 8, 8, 8, 8, 8, 8, 8, 8] := by
    simp [pushCaller]
  have hlen : (pushCaller c).reverse.flatten.length = 72 := by simp [pushCaller]
  rw [hwidths, hlen] at hpop
  rw [popCaller, hpop, ok_bind]
  simp only [pushCaller, List.map_cons, List.map_nil, List.reverse_cons, List.reverse_nil,
    List.nil_append, List.cons_append, quad_read]

/-- What was pushed is taken back: all registers are as they were. -/
theorem leave_saved (fpu : Fx) (block : Ptr → Fx)
    (h : loadBytes s.space rsp savedSize = some (savedImage ret flags c))
    (hword : rsp + savedSize < wordSize) (hret : ret < wordSize) (left : Context) :
    leave ret left fpu block s rsp =
      .ok ⟨s, c, if s.curThrd = NULL then fpu else block s.curThrd, block⟩ := by
  have hall : Stacked s.space rsp ([leBytes 8 0] ++ ((saveSegments c).reverse ++
      ((pushCallee c).reverse ++ ((pushCaller c).reverse ++
        ([leBytes 8 flags, leBytes 8 ret] ++ (interruptFrame c).reverse))))) := by
    have hlist : (savedItems ret flags c).reverse = [leBytes 8 0] ++ ((saveSegments c).reverse ++
        ((pushCallee c).reverse ++ ((pushCaller c).reverse ++
          ([leBytes 8 flags, leBytes 8 ret] ++ (interruptFrame c).reverse)))) := rfl
    rw [Stacked, ← hlist]
    rw [← savedImage_length ret flags c] at h
    exact h
  obtain ⟨hflag, hall⟩ := hall.append
  obtain ⟨hsegments, hall⟩ := hall.append
  obtain ⟨hcallee, hall⟩ := hall.append
  obtain ⟨hcaller, hall⟩ := hall.append
  obtain ⟨hret', hframe⟩ := hall.append
  have hlens : ([leBytes 8 0] : List (List UInt8)).flatten.length = 8 ∧
      (saveSegments c).reverse.flatten.length = 8 ∧ (pushCallee c).reverse.flatten.length = 48 ∧
      (pushCaller c).reverse.flatten.length = 72 ∧
      [leBytes 8 flags, leBytes 8 ret].flatten.length = 16 := by
    simp [saveSegments, pushCallee, pushCaller]
  obtain ⟨hl₁, hl₂, hl₃, hl₄, hl₅⟩ := hlens
  unfold savedSize at hword
  rw [hl₁] at hsegments hcallee hcaller hret' hframe
  rw [hl₂] at hcallee hcaller hret' hframe
  rw [hl₃] at hcaller hret' hframe
  rw [hl₄] at hret' hframe
  rw [hl₅] at hframe
  have hpopFlag : popAll [8] s.space rsp = .ok ([0], rsp + 8) := popAll_spec hflag (by omega)
  have hpopRet : popAll [8, 8] s.space (rsp + 8 + 8 + 48 + 72) =
      .ok ([flags % 256 ^ 8, ret], rsp + 8 + 8 + 48 + 72 + 16) := by
    have hpop := popAll_spec hret' (by omega)
    have hsmall : ret % 256 ^ 8 = ret := Nat.mod_eq_of_lt hret
    simp only [List.map_cons, List.map_nil, leBytes_length, fromLE_leBytes, hsmall, hl₅] at hpop
    exact hpop
  rw [leave, hpopFlag, ok_bind]
  dsimp only
  rw [if_neg (by simp), restoreSegments_spec hsegments (by omega), ok_bind]
  dsimp only
  rw [popCallee_spec hcallee (by omega), ok_bind]
  dsimp only
  rw [popCaller_spec hcaller (by omega), ok_bind]
  dsimp only
  rw [hpopRet, ok_bind]
  dsimp only
  rw [if_neg (fun hne => hne rfl), iretq_spec hframe (by omega), ok_bind]

/-- The registers of a thread that `schedule` made. -/
def begun (I : Image) (start : Nat) (extv : List Nat) (kthrd : Bool) (left : Context) : Context :=
  { left with
    rip := .ofNat start
    cs := .ofNat (if kthrd then kernCs else userCs ||| 3)
    rflags := .ofNat (I.flags ||| 0x200)
    rsp := .ofNat (lowHalfTop - pageSize - 8 * extv.length)
    ss := .ofNat (if kthrd then kernDs else userDs ||| 3) }

/-- A thread without context data begins where `schedule` says. -/
theorem leave_begun {I : Image} {start : Nat} {extv : List Nat} {kthrd : Bool} {fpu : Fx}
    {block : Ptr → Fx}
    (h : Stacked s.space rsp ((startFrame I start extv kthrd).map (leBytes 8)))
    (hword : rsp + 48 < wordSize) (left : Context) :
    leave ret left fpu block s rsp = .ok ⟨s, begun I start extv kthrd left, fpu, block⟩ := by
  rw [startFrame, List.map_append] at h
  have hfront : Stacked s.space rsp ([leBytes 8 1] ++ _) := h.append.1
  obtain ⟨hflag, hframe⟩ := hfront.append
  have hpopFlag : popAll [8] s.space rsp = .ok ([1], rsp + 8) := popAll_spec hflag (by simp; omega)
  have hpop := popAll_spec hframe (by simp; omega)
  have hmod : ∀ x, UInt64.ofNat (x % 256 ^ 8) = UInt64.ofNat x := fun x =>
    UInt64.ofNat_mod_size
  have hmod' : ∀ x, UInt16.ofNat (x % 256 ^ 8) = UInt16.ofNat x := fun x => by
    rw [← UInt16.ofNat_mod_size, Nat.mod_mod_of_dvd x (by decide), UInt16.ofNat_mod_size]
  simp only [List.map_cons, List.map_nil, leBytes_length, fromLE_leBytes, List.flatten_singleton] at hpop
  rw [leave, hpopFlag, ok_bind]
  dsimp only
  rw [if_pos (by simp), iretq, hpop, ok_bind]
  simp only [hmod, hmod', ok_bind]
  rfl

end Saved

end Frosk.Scheduler

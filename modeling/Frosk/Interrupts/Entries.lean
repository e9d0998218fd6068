import Mathlib.Tactic
import Frosk.Interrupts.Delivery
import Frosk.Scheduler.Context

/-!
# Interrupts: the ways into the kernel

The table as `kmain` leaves it, and the embedding of `syscall` of `syscall.asm`, on the
registers and the stack of `Context`.

* `Kernel` is the addresses of the functions that the kernel registers, none of which is 0.
* What a system call does is a function of what it finds; it keeps the registers that the
  calling convention says, and what is on the stack above its return address (`Abi`).

Main results:

* `setupFaults_apply` — every fault is handled, and a gate that was set before stays.
* `user_enters` — the only way from a user program is `int 0x40`. A call of one of the 15 functions
  comes back behind it with the segments, the stack and the flags of the program; the call of
  number 15 goes to address 0, and one of a number that is higher does nothing.
-/

namespace Frosk.Interrupts

open Lib Regions Scheduler

-- ---------------------------------------------------------------------------
-- setup_faults
-- ---------------------------------------------------------------------------

/-- The address of a gate is put together from its three parts. -/
theorem address_toNat (g : Gate) :
    g.address.toNat = g.lowaddr.toNat ||| g.midaddr.toNat * 2 ^ 16 ||| g.highaddr.toNat * 2 ^ 32 := by
  have hmid := g.midaddr.toNat_lt
  have hhigh := g.highaddr.toNat_lt
  simp only [Gate.address, UInt64.toNat_or, UInt64.toNat_shiftLeft, UInt16.toNat_toUInt64,
    UInt32.toNat_toUInt64, show UInt64.toNat 16 % 64 = 16 by decide,
    show UInt64.toNat 32 % 64 = 32 by decide, Nat.shiftLeft_eq]
  rw [Nat.mod_eq_of_lt (by omega), Nat.mod_eq_of_lt (by omega)]

/-- What `is_interrupt_set` asks is whether there is an address. -/
theorem isInterruptSet_iff (i : Nat) (idt : Idt) : isInterruptSet i idt = true ↔ (idt i).address ≠ 0 := by
  rw [ne_eq, ← UInt64.toNat_inj, address_toNat, isInterruptSet]
  simp only [Bool.or_eq_true, bne_iff_ne, ne_eq, ← UInt16.toNat_inj, ← UInt32.toNat_inj, UInt64.toNat_zero,
    UInt16.toNat_zero, UInt32.toNat_zero, Nat.or_eq_zero_iff, Nat.mul_eq_zero]
  simp
  tauto

/-- What `reg_int` installs counts as installed. -/
theorem regInt_set {i : Nat} {func : UInt64} {idt : Idt} (hfunc : func ≠ 0) :
    isInterruptSet i (regInt i func idt) = true := by
  rw [isInterruptSet_iff, regInt, (xregInt_self ..).1]
  exact hfunc

/-- The function of `setup_faults` for a fault that has one of its own. -/
def Faults.own (f : Faults) (i : Nat) : Option UInt64 :=
  if i = 0 then some f.dbz
  else if i = 6 then some f.uop
  else if i = 8 then some f.dbl
  else if i = 12 then some f.ssf
  else if i = 13 then some f.gpf
  else none

/-- No function of `fault.asm` is at address 0. -/
structure Faults.Placed (f : Faults) : Prop where
  own       : ∀ i func, f.own i = some func → func ≠ 0
  undefined : f.undefinedFault ≠ 0

/-- The gate that `reg_int` writes does not depend on what was there. -/
theorem regInt_self (i : Nat) (func : UInt64) (idt idt' : Idt) :
    regInt i func idt i = regInt i func idt' i := by
  rw [regInt, regInt, xregInt, xregInt, Function.update_self, Function.update_self]

/-- The other gates stay. -/
theorem regInt_other {i v : Nat} {func : UInt64} {idt : Idt} (h : v ≠ i) : regInt i func idt v = idt v :=
  xregInt_other h

/-- The loop of `setup_faults` leaves the gates that are set. -/
theorem faultRounds (f : Faults) (n : Nat) (idt : Idt) (v : Nat) :
    (List.range n).foldl (faultRound f) idt v =
      if v < n ∧ isInterruptSet v idt = false then regInt v f.undefinedFault idt v else idt v := by
  induction n with
  | zero => simp
  | succ n ih =>
    rw [List.range_succ, List.foldl_append, List.foldl_cons, List.foldl_nil]
    generalize (List.range n).foldl (faultRound f) idt = before at ih ⊢
    by_cases hv : v = n
    · subst hv
      have hsame : before v = idt v := by simpa using ih
      have hset : isInterruptSet v before = isInterruptSet v idt :=
        by rw [isInterruptSet, isInterruptSet, hsame]
      rw [faultRound, hset]
      cases isInterruptSet v idt with
      | true => simpa using hsame
      | false => simpa using regInt_self v f.undefinedFault before idt
    · have hround : faultRound f before n v = before v := by
        rw [faultRound]
        split
        · rfl
        · exact xregInt_other hv
      rw [hround, ih]
      refine if_congr ?_ rfl rfl
      refine and_congr_left ?_
      intro _
      omega

/-- The table after `setup_faults`: the five faults, and the rest of the first 32 that had no gate. -/
theorem setupFaults_apply {f : Faults} (hf : f.Placed) (idt : Idt) (v : Nat) :
    setupFaults f idt v = (f.own v).elim
      (if v < 0x20 ∧ isInterruptSet v idt = false then regInt v f.undefinedFault idt v else idt v)
      fun func => regInt v func idt v := by
  rw [setupFaults]
  generalize hnamed :
    regInt 13 f.gpf (regInt 12 f.ssf (regInt 8 f.dbl (regInt 6 f.uop (regInt 0 f.dbz idt)))) = named
  have hv : named v = (f.own v).elim (idt v) fun func => regInt v func idt v := by
    subst hnamed
    unfold Faults.own
    split_ifs with h0 h6 h8 h12 h13
    · rw [h0, regInt_other (by decide), regInt_other (by decide), regInt_other (by decide),
        regInt_other (by decide)]
      rfl
    · rw [h6, regInt_other (by decide), regInt_other (by decide), regInt_other (by decide)]
      exact regInt_self 6 f.uop _ idt
    · rw [h8, regInt_other (by decide), regInt_other (by decide)]
      exact regInt_self 8 f.dbl _ idt
    · rw [h12, regInt_other (by decide)]
      exact regInt_self 12 f.ssf _ idt
    · rw [h13]
      exact regInt_self 13 f.gpf _ idt
    · rw [regInt_other h13, regInt_other h12, regInt_other h8, regInt_other h6, regInt_other h0]
      rfl
  rw [faultRounds]
  cases hown : f.own v with
  | none =>
    rw [hown] at hv
    have hset : isInterruptSet v named = isInterruptSet v idt := by
      rw [isInterruptSet, isInterruptSet, hv]
      rfl
    rw [hset, hv, regInt_self v f.undefinedFault named idt]
    rfl
  | some func =>
    rw [hown] at hv
    have hset : isInterruptSet v named = true := by
      rw [isInterruptSet_iff, hv]
      exact (isInterruptSet_iff v _).mp (regInt_set (hf.own v func hown))
    rw [hset, if_neg (by simp), hv]
    rfl

-- ---------------------------------------------------------------------------
-- kmain
-- ---------------------------------------------------------------------------

/-- The addresses of what the kernel registers. -/
structure Kernel where
  dummyInt     : UInt64
  pageFaultInt : UInt64
  faults       : Faults
  syscall      : UInt64
  ps2KbIrq     : UInt64
  timerIrq     : UInt64

structure Kernel.Placed (k : Kernel) : Prop where
  pageFault : k.pageFaultInt ≠ 0
  faults    : k.faults.Placed

/-- What `kmain` registers, in its order: `setup_ints`, `setup_paging`, `setup_faults`,
`setup_syscalls`, `init_ps2_kb`, `start_scheduler`. -/
def Kernel.idt (k : Kernel) : Idt :=
  let idt := regInt (irq0 + 7) k.dummyInt Idt.start
  let idt := regInt 0xE k.pageFaultInt idt
  let idt := setupFaults k.faults idt
  let idt := setupSyscalls k.syscall idt
  let idt := regInt (irq0 + 1) k.ps2KbIrq idt
  regInt irq0 k.timerIrq idt

/-- What is entered at a number. -/
def Kernel.entry (k : Kernel) (v : Nat) : Option UInt64 :=
  if v = 0xE then some k.pageFaultInt
  else if v < 0x20 then some ((k.faults.own v).getD k.faults.undefinedFault)
  else if v = irq0 then some k.timerIrq
  else if v = irq0 + 1 then some k.ps2KbIrq
  else if v = irq0 + 7 then some k.dummyInt
  else if v = syscallInt then some k.syscall
  else none

/-- A gate of `reg_int` is not open to user threads. -/
theorem regInt_dpl (i : Nat) (func : UInt64) (idt : Idt) : (regInt i func idt i).dpl = 0 := by
  rw [Gate.dpl, regInt, (xregInt_self ..).2]
  decide

/-- The installed function is the one entered. -/
theorem enter_regInt_self (i : Nat) (func : UInt64) (idt : Idt) :
    enter (regInt i func idt) i = some func := by
  rw [enter_regInt, Function.update_self]

/-- A gate of the table is entered as `entry` says, and only that of the system calls by a user
program. -/
theorem Kernel.idt_spec {k : Kernel} (hk : k.Placed) (v : Nat) :
    enter k.idt v = k.entry v ∧ (k.idt v).dpl = if v = syscallInt then 3 else 0 := by
  let early := regInt 0xE k.pageFaultInt (regInt (irq0 + 7) k.dummyInt Idt.start)
  have hlate : ∀ w, w ≠ irq0 → w ≠ irq0 + 1 → w ≠ syscallInt → k.idt w = setupFaults k.faults early w :=
    fun w h0 h1 h2 => (regInt_other h0).trans ((regInt_other h1).trans (xregInt_other h2))
  by_cases h0 : v = irq0
  · subst h0
    exact ⟨enter_regInt_self _ _ _, regInt_dpl _ _ _⟩
  by_cases h1 : v = irq0 + 1
  · subst h1
    have hsame : k.idt (irq0 + 1) = regInt (irq0 + 1) k.ps2KbIrq (setupSyscalls k.syscall
      (setupFaults k.faults early)) (irq0 + 1) := regInt_other (by decide)
    constructor
    · exact (congrArg (fun g : Gate => if g.present then some g.address else none) hsame).trans
        (enter_regInt_self _ _ _)
    · rw [hsame]
      exact regInt_dpl _ _ _
  by_cases h2 : v = syscallInt
  · subst h2
    have hsame :
        k.idt syscallInt = xregInt syscallInt k.syscall 0xEE 0 (setupFaults k.faults early) syscallInt :=
      (regInt_other (by decide)).trans (regInt_other (by decide))
    obtain ⟨haddress, hflags⟩ := xregInt_self syscallInt k.syscall 0xEE 0 (setupFaults k.faults early)
    constructor
    · have hpresent : (k.idt syscallInt).present = true := by
        rw [hsame, Gate.present, hflags]
        decide
      rw [enter, if_pos hpresent, hsame, haddress]
      rfl
    · rw [hsame, Gate.dpl, hflags, if_pos rfl]
      decide
  rw [if_neg h2, enter, hlate v h0 h1 h2, setupFaults_apply hk.faults, Kernel.entry, if_neg h0, if_neg h1,
    if_neg h2]
  have hreg : ∀ func : UInt64, ∀ idt : Idt,
      (if (regInt v func idt v).present then some (regInt v func idt v).address else none) = some func :=
    fun func idt => enter_regInt_self v func idt
  cases hown : k.faults.own v with
  | some func =>
    have hlow : v ≠ 0xE ∧ v < 0x20 := by
      unfold Faults.own at hown
      split_ifs at hown <;> omega
    rw [if_neg hlow.1, if_pos hlow.2]
    exact ⟨hreg func early, regInt_dpl v func early⟩
  | none =>
    simp only [Option.elim_none, Option.getD_none]
    by_cases hE : v = 0xE
    · subst hE
      have hset : isInterruptSet 0xE early = true := regInt_set hk.pageFault
      rw [if_pos rfl, hset, if_neg (by simp)]
      exact ⟨enter_regInt_self _ _ _, regInt_dpl _ _ _⟩
    · rw [if_neg hE]
      by_cases h7 : v = irq0 + 7
      · subst h7
        have hsame : early (irq0 + 7) = regInt (irq0 + 7) k.dummyInt Idt.start (irq0 + 7) :=
          regInt_other (by decide)
        rw [if_neg (by simp), if_neg (by decide), if_pos rfl, hsame]
        exact ⟨enter_regInt_self _ _ _, regInt_dpl _ _ _⟩
      · have hstart : early v = ⟨0, 0, 0, 0, 0, 0, 0⟩ := (regInt_other hE).trans (regInt_other h7)
        have hclear : isInterruptSet v early = false := by
          rw [isInterruptSet, hstart]
          rfl
        rw [if_neg h7, hclear]
        by_cases hlow : v < 0x20
        · rw [if_pos ⟨hlow, rfl⟩, if_pos hlow]
          exact ⟨hreg _ early, regInt_dpl v _ early⟩
        · rw [if_neg (fun h => hlow h.1), if_neg hlow, hstart]
          exact ⟨if_neg (by decide), rfl⟩

/-- Where `int v` of a user program goes: without the privilege to a general protection fault, and
where there is no gate to the fault that says so. -/
def userInt (idt : Idt) (v : Nat) : Option UInt64 :=
  if (idt v).dpl < 3 then enter idt 13 else (enter idt v).or (enter idt 11)

/-- A user thread enters by the system call gate, and faults by every other. -/
theorem userInt_spec {k : Kernel} (hk : k.Placed) (v : Nat) :
    userInt k.idt v = if v = syscallInt then some k.syscall else some k.faults.gpf := by
  obtain ⟨henter, hdpl⟩ := k.idt_spec hk v
  obtain ⟨hfault, -⟩ := k.idt_spec hk 13
  by_cases hv : v = syscallInt
  · subst hv
    rw [if_pos rfl] at hdpl
    rw [userInt, hdpl, if_neg (by decide), henter, if_pos rfl]
    rfl
  · rw [if_neg hv] at hdpl
    rw [userInt, hdpl, if_pos (by decide), hfault, if_neg hv]
    rfl

-- ---------------------------------------------------------------------------
-- syscall
-- ---------------------------------------------------------------------------

/-- What is called, with what is in the registers and in memory; the result is that at its `ret`. -/
abbrev Calls := UInt64 → Context → Space → Except Fault (Context × Space)

/-- The registers when `syscall` calls: the program's arguments, and the segments of the kernel.
The processor has changed the stack. -/
def inside (c : Context) (target table : UInt64) (flags : UInt64) (rsp : Nat) : Context :=
  { c with
    rax := target, r11 := table, rip := target, rflags := flags, rsp := .ofNat rsp, cs := kernCs, ss := 0
    ds := 0x10, es := 0x10, fs := 0x10, gs := 0x10 }

/-- `int 0x40`, up to the end of `syscall`. `table` is the address of `syscalls_ls`, and `ret` the
place behind the `call`. -/
def syscall (funcs : Fin 15 → UInt64) (calls : Calls) (table flags : UInt64) (ret : Nat) (c : Context)
    (s : Space) : Except Fault (Context × Space) := do
  let (s, rsp) ← pushAll (interruptFrame c) s (kernelRsp c)
  match syscallTarget funcs c.rax with
  | none =>
    let c ← iretq s rsp c
    .ok (c, s)
  | some target =>
    let (s, rsp) ← pushAll (saveSegments c) s rsp
    let (s, rsp) ← pushAll [leBytes 8 ret] s rsp
    let (out, s) ← calls target (inside c target table flags rsp) s
    let (vs, rsp) ← popAll [8] s out.rsp.toNat
    if vs ≠ [ret] then .error .hang
    else
      let (c, rsp) ← restoreSegments s rsp out
      let c ← iretq s rsp { c with r11 := out.rax, rax := out.rax }
      .ok (c, s)

/-- What the calling convention says of a function that returns: the registers that it keeps, and
the stack from its return address on. -/
structure Abi (c out : Context) (s s' : Space) (top : Nat) : Prop where
  rbx   : out.rbx = c.rbx
  rbp   : out.rbp = c.rbp
  r12   : out.r12 = c.r12
  r13   : out.r13 = c.r13
  r14   : out.r14 = c.r14
  r15   : out.r15 = c.r15
  rsp   : out.rsp = c.rsp
  stack : ∀ a, c.rsp.toNat ≤ a → a < top → loadByte s' a = loadByte s a

/-- What a program sees of a system call: `rax` is the result, and what a function may change is
changed. -/
def returned (c out : Context) : Context :=
  { c with
    rax := out.rax, r11 := out.rax, rcx := out.rcx, rdx := out.rdx, rsi := out.rsi, rdi := out.rdi
    r8 := out.r8, r9 := out.r9, r10 := out.r10 }

section Syscall

variable {funcs : Fin 15 → UInt64} {calls : Calls} {table flags : UInt64} {ret : Nat} {c : Context}
  {s : Space}
  {b : Block}

/-- A load depends on the bytes it covers only. -/
theorem loadBytes_congr {s s' : Space} {a n : Nat} (h : ∀ i < n, loadByte s' (a + i) = loadByte s (a + i)) :
    loadBytes s' a n = loadBytes s a n := by
  induction n generalizing a with
  | zero => rfl
  | succ n ih =>
    have hfirst := h 0 (Nat.succ_pos n)
    rw [Nat.add_zero] at hfirst
    rw [loadBytes, loadBytes, hfirst, ih fun i hi => ?_]
    have hnext := h (i + 1) (by omega)
    rwa [Nat.add_comm i 1, ← Nat.add_assoc] at hnext

/-- The table of the functions, and what is behind it. -/
theorem syscallTarget_spec (funcs : Fin 15 → UInt64) (rax : UInt64) :
    (∀ h : rax.toNat < 15, syscallTarget funcs rax = some (funcs ⟨rax.toNat, h⟩)) ∧
    (rax.toNat = 15 → syscallTarget funcs rax = some 0) ∧
    (16 ≤ rax.toNat → syscallTarget funcs rax = none) := by
  have hlen : (syscallsLs funcs).length = 16 := by simp [syscallsLs]
  refine ⟨?_, ?_, ?_⟩
  · intro h
    rw [syscallTarget, hlen, if_neg (by omega), syscallsLs, List.getElem?_append_left (by simpa using h),
      List.getElem?_ofFn]
    simp [h]
  · intro h
    rw [syscallTarget, hlen, if_neg (by omega), h, syscallsLs, List.getElem?_append_right (by simp)]
    simp
  · intro h
    rw [syscallTarget, hlen, if_pos h]

/-- All that is pushed before a function is called. -/
def callItems (ret : Nat) (c : Context) : List (List UInt8) :=
  interruptFrame c ++ saveSegments c ++ [leBytes 8 ret]

/-- The frame of a call has 56 bytes. -/
theorem callItems_length (ret : Nat) (c : Context) : (callItems ret c).flatten.length = 56 := by
  simp [callItems, saveSegments, interruptFrame]

/-- The same as it lies on the stack. -/
theorem callItems_reverse (ret : Nat) (c : Context) : (callItems ret c).reverse =
    [leBytes 8 ret] ++ ((saveSegments c).reverse ++ (interruptFrame c).reverse) := by
  simp [callItems]

/-- A block of the stack that is pushed to. What is above is as before. -/
theorem pushed_stacked (hb : Reached s b) (ws : List (List UInt8)) {k : Nat} (hlow : ws.flatten.length ≤ k)
    (hk : k ≤ b.size) (hword : b.virt + k < wordSize) :
    ∃ s', Reached s' b ∧ pushAll ws s (b.virt + k) = .ok (s', b.virt + (k - ws.flatten.length)) ∧
      Stacked s' (b.virt + (k - ws.flatten.length)) ws.reverse ∧
      ∀ a, b.virt + k ≤ a → a < b.virt + b.size → loadByte s' a = loadByte s a := by
  have hpush := pushAll_spec hb ws hlow hk hword
  have hlen : ws.reverse.flatten.length = ws.flatten.length := by simp [List.length_flatten]
  obtain ⟨mem, hmem⟩ : ∃ mem, mem = s.mem.blit (b.phys + (k - ws.flatten.length)) ws.reverse.flatten :=
    ⟨_, rfl⟩
  rw [← hmem] at hpush
  have hreached : Reached { s with mem := mem } b := ⟨hb.whole, hb.wide, hb.map⟩
  refine ⟨_, hreached, hpush, ?_, ?_⟩
  · have hload := hreached.loadBytes (k := k - ws.flatten.length) (n := ws.flatten.length) (by omega)
    have hself := Memory.slice_blit_self (m := s.mem) (a := b.phys + (k - ws.flatten.length))
      (l := ws.reverse.flatten)
    rw [hlen, ← hmem] at hself
    rw [Stacked, hlen]
    exact hload.trans (congrArg some hself)
  · intro a hlo hhi
    obtain ⟨j, rfl⟩ := Nat.exists_eq_add_of_le (show b.virt ≤ a by omega)
    have hkept : mem (b.phys + j) = s.mem (b.phys + j) := by
      rw [hmem]
      exact Memory.blit_outside (.inr (by omega))
    rw [hreached.loadByte (by omega), hb.loadByte (by omega)]
    exact congrArg some hkept

/-- What is stacked stays while its bytes do. -/
theorem stacked_congr {s' : Space} {a : Nat} {ws : List (List UInt8)} (h : Stacked s a ws)
    (hsame : ∀ i < ws.flatten.length, loadByte s' (a + i) = loadByte s (a + i)) : Stacked s' a ws :=
  (loadBytes_congr hsame).trans h

/-- A system call whose number is too high. -/
theorem syscall_none (huser : c.cs.toNat % 4 = 3) (hb : Reached s b) (hlow : b.virt + 56 ≤ rsp0)
    (hhigh : rsp0 ≤ b.virt + b.size) (htarget : syscallTarget funcs c.rax = none) :
    ∃ s', pushAll (interruptFrame c) s (kernelRsp c) = .ok (s', rsp0 - 40) ∧
      syscall funcs calls table flags ret c s = .ok (c, s') := by
  have hrsp : kernelRsp c = b.virt + (rsp0 - b.virt) := by
    rw [kernelRsp, if_pos huser]
    omega
  have hlen : (interruptFrame c).flatten.length = 40 := by simp [interruptFrame]
  have hword : rsp0 < wordSize := by decide
  obtain ⟨s', -, hpush, hstacked, -⟩ := pushed_stacked hb (interruptFrame c) (k := rsp0 - b.virt) (by omega)
    (by omega) (by omega)
  have hdown : b.virt + (rsp0 - b.virt - 40) = rsp0 - 40 := by omega
  rw [hlen, hdown, ← hrsp] at hpush
  rw [hlen, hdown] at hstacked
  have hiret := iretq_spec hstacked (by omega) c
  refine ⟨s', hpush, ?_⟩
  rw [syscall, hpush, ok_bind]
  simp only [htarget, hiret, ok_bind]

/-- A system call of a function, from the call on. -/
theorem syscall_calls {s₁ : Space} {target : UInt64} (htarget : syscallTarget funcs c.rax = some target)
    (hpush : pushAll (callItems ret c) s (kernelRsp c) = .ok (s₁, rsp0 - 56)) :
    syscall funcs calls table flags ret c s = (do
      let (out, s) ← calls target (inside c target table flags (rsp0 - 56)) s₁
      let (vs, rsp) ← popAll [8] s out.rsp.toNat
      if vs ≠ [ret] then .error .hang
      else
        let (c, rsp) ← restoreSegments s rsp out
        let c ← iretq s rsp { c with r11 := out.rax, rax := out.rax }
        .ok (c, s)) := by
  rw [callItems, pushAll_append, pushAll_append] at hpush
  obtain ⟨⟨space, rsp⟩, hframes, hlast⟩ := bind_eq_ok.mp hpush
  obtain ⟨⟨space₀, rsp₀⟩, hfirst, hsegs⟩ := bind_eq_ok.mp hframes
  dsimp only at hlast hsegs
  rw [syscall, hfirst, ok_bind]
  simp only [htarget]
  rw [hsegs, ok_bind]
  dsimp only
  rw [hlast, ok_bind]

/-- A function that keeps the calling convention comes back to the program. -/
theorem syscall_returns (hret : ret < wordSize) {s₁ s₂ : Space} {out : Context} {target : UInt64}
    (htarget : syscallTarget funcs c.rax = some target)
    (hpush : pushAll (callItems ret c) s (kernelRsp c) = .ok (s₁, rsp0 - 56))
    (hstacked : Stacked s₁ (rsp0 - 56) (callItems ret c).reverse)
    (hcall : calls target (inside c target table flags (rsp0 - 56)) s₁ = .ok (out, s₂))
    (habi : Abi (inside c target table flags (rsp0 - 56)) out s₁ s₂ rsp0) :
    syscall funcs calls table flags ret c s = .ok (returned c out, s₂) := by
  have hword : rsp0 < wordSize := by decide
  have hlow : 56 ≤ rsp0 := by decide
  have hlen : (callItems ret c).reverse.flatten.length = 56 := by
    rw [← callItems_length ret c]
    simp [List.length_flatten]
  have hout : out.rsp.toNat = rsp0 - 56 := by
    rw [habi.rsp]
    exact UInt64.toNat_ofNat_of_lt' (show rsp0 - 56 < wordSize by decide)
  -- the frame is as it was pushed
  have hkept : Stacked s₂ (rsp0 - 56) (callItems ret c).reverse := by
    refine stacked_congr hstacked fun i hi => habi.stack _ ?_ (by omega)
    rw [← habi.rsp, hout]
    exact Nat.le_add_right ..
  rw [callItems_reverse] at hkept
  obtain ⟨hretaddr, hrest⟩ := hkept.append
  obtain ⟨hsegments, hframe⟩ := hrest.append
  have hretlen : [leBytes 8 ret].flatten.length = 8 := by simp
  have hseglen : (saveSegments c).reverse.flatten.length = 8 := by simp [saveSegments]
  rw [hretlen] at hsegments hframe
  rw [hseglen] at hframe
  have hpop := popAll_spec hretaddr (by rw [hretlen]; decide)
  have hvalue : fromLE (leBytes 8 ret) = ret := by
    rw [fromLE_leBytes]
    exact Nat.mod_eq_of_lt hret
  rw [List.map_singleton, List.map_singleton, leBytes_length, hvalue, hretlen] at hpop
  have hrestore := restoreSegments_spec hsegments (by decide) out
  have hiret := iretq_spec hframe (by decide) { out with
    gs := c.gs, fs := c.fs, es := c.es, ds := c.ds, r11 := out.rax, rax := out.rax }
  rw [syscall_calls htarget hpush, hcall, ok_bind]
  dsimp only
  rw [hout, hpop, ok_bind]
  simp only [ne_eq, not_true_eq_false, if_false]
  rw [hrestore, ok_bind]
  dsimp only
  rw [hiret, ok_bind, returned, habi.rbx, habi.rbp, habi.r12, habi.r13, habi.r14, habi.r15]
  rfl

/-- A system call of a function, which is called in the space that the pushes leave. -/
theorem syscall_some (hret : ret < wordSize) (huser : c.cs.toNat % 4 = 3) (hb : Reached s b)
    (hlow : b.virt + 56 ≤ rsp0) (hhigh : rsp0 ≤ b.virt + b.size) {target : UInt64}
    (htarget : syscallTarget funcs c.rax = some target) :
    ∃ s₁, pushAll (callItems ret c) s (kernelRsp c) = .ok (s₁, rsp0 - 56) ∧ Reached s₁ b ∧
      (∀ e, calls target (inside c target table flags (rsp0 - 56)) s₁ = .error e →
        syscall funcs calls table flags ret c s = .error e) ∧
      ∀ out s₂, calls target (inside c target table flags (rsp0 - 56)) s₁ = .ok (out, s₂) →
        Abi (inside c target table flags (rsp0 - 56)) out s₁ s₂ rsp0 →
        syscall funcs calls table flags ret c s = .ok (returned c out, s₂) := by
  have hrsp : kernelRsp c = b.virt + (rsp0 - b.virt) := by
    rw [kernelRsp, if_pos huser]
    omega
  have hlen := callItems_length ret c
  have hword : rsp0 < wordSize := by decide
  obtain ⟨s₁, hreached, hpush, hstacked, -⟩ := pushed_stacked hb (callItems ret c) (k := rsp0 - b.virt)
    (by omega) (by omega) (by omega)
  have hdown : b.virt + (rsp0 - b.virt - 56) = rsp0 - 56 := by omega
  rw [hlen, hdown, ← hrsp] at hpush
  rw [hlen, hdown] at hstacked
  refine ⟨s₁, hpush, hreached, fun e hfail => ?_, fun out s₂ hcall habi =>
    syscall_returns hret htarget hpush hstacked hcall habi⟩
  rw [syscall_calls htarget hpush, hfail]
  rfl

/-- **The ways of a user program into the kernel**: with the table of `kmain`, `int` has an effect but
a general protection fault only for the number of the system calls. There a number in `rax` above
15 changes nothing, and one up to 15 calls what `syscalls_ls` has there, which for 15 is address 0, in
the space that 56 pushed bytes leave. What fails in it fails; if it returns, and has kept what the
calling convention says, the program goes on with its segments, its stack, its flags and the registers
that the convention keeps. -/
theorem user_enters {k : Kernel} (hk : k.Placed) (funcs : Fin 15 → UInt64) (calls : Calls)
    (table flags : UInt64) {ret : Nat} (hret : ret < wordSize) {c : Context} (huser : c.cs.toNat % 4 = 3)
    {s : Space} {b : Block} (hb : Reached s b) (hlow : b.virt + 56 ≤ rsp0) (hhigh : rsp0 ≤ b.virt + b.size) :
    (∀ v, userInt k.idt v = if v = syscallInt then some k.syscall else some k.faults.gpf) ∧
    (16 ≤ c.rax.toNat → ∃ s', pushAll (interruptFrame c) s (kernelRsp c) = .ok (s', rsp0 - 40) ∧
      syscall funcs calls table flags ret c s = .ok (c, s')) ∧
    ∀ target, (∃ h : c.rax.toNat < 15, target = funcs ⟨c.rax.toNat, h⟩) ∨ c.rax.toNat = 15 ∧ target = 0 →
      ∃ s₁, pushAll (callItems ret c) s (kernelRsp c) = .ok (s₁, rsp0 - 56) ∧ Reached s₁ b ∧
        (∀ e, calls target (inside c target table flags (rsp0 - 56)) s₁ = .error e →
          syscall funcs calls table flags ret c s = .error e) ∧
        ∀ out s₂, calls target (inside c target table flags (rsp0 - 56)) s₁ = .ok (out, s₂) →
          Abi (inside c target table flags (rsp0 - 56)) out s₁ s₂ rsp0 →
          syscall funcs calls table flags ret c s = .ok (returned c out, s₂) := by
  obtain ⟨hlisted, hbehind, habove⟩ := syscallTarget_spec funcs c.rax
  refine ⟨userInt_spec hk, fun h => syscall_none huser hb hlow hhigh (habove h), ?_⟩
  rintro target (⟨h, rfl⟩ | ⟨h, rfl⟩)
  · exact syscall_some hret huser hb hlow hhigh (hlisted h)
  · exact syscall_some hret huser hb hlow hhigh (hbehind h)

end Syscall

/-- The pages at the top of the user half. -/
def stackBlock : Block := ⟨lowHalfTop - 2 * pageSize, 0x100000, 2 * pageSize⟩

def stackSpace : Space where
  rgn _ := ⟨0, 0, [], true⟩
  used := []
  swapped := []
  map v := blockEntry 7 stackBlock (v - stackBlock.virt)
  mem _ := 0
  frames := []
  vpages := []
  refused := 0

/-- A user program at `0x200000` that asks for system call 8. -/
def userContext : Context :=
  ⟨8, 1, 2, 3, 4, 5, 6, 7, 8, 9, 10, 11, 12, 13, 14, 0x23, 0x23, 0x23, 0x23, 0x200000, 0x1B, 0x202,
    0x7FFFFFFFE000, 0x23⟩

/-- A function that saves two numbers on its stack, and comes back with 42. -/
def saving : Calls := fun _ c s => do
  let (s, _) ← pushAll [leBytes 8 c.rbx.toNat, leBytes 8 c.rdi.toNat] s c.rsp.toNat
  .ok ({ c with rax := 42, rcx := 0 }, s)

/-- The function that uses its stack keeps what the calling convention asks. -/
theorem saving_spec {s : Space} {b : Block} (hb : Reached s b) (target : UInt64) {c : Context}
    (hlow : b.virt + 16 ≤ c.rsp.toNat) (hhigh : c.rsp.toNat ≤ b.virt + b.size) :
    ∃ out s', saving target c s = .ok (out, s') ∧ Abi c out s s' (b.virt + b.size) ∧ out.rax = 42 := by
  obtain ⟨k, hk⟩ := Nat.exists_eq_add_of_le (Nat.le_of_add_right_le hlow)
  have hlen : [leBytes 8 c.rbx.toNat, leBytes 8 c.rdi.toNat].flatten.length = 16 := by simp
  obtain ⟨s', -, hpush, -, habove⟩ := pushed_stacked hb [leBytes 8 c.rbx.toNat, leBytes 8 c.rdi.toNat]
    (k := k) (by omega) (by omega) (hk ▸ c.rsp.toNat_lt)
  rw [← hk] at hpush habove
  have hsaving : saving target c s = .ok ({ c with rax := 42, rcx := 0 }, s') := by
    rw [saving, hpush]
    rfl
  exact ⟨_, s', hsaving, ⟨rfl, rfl, rfl, rfl, rfl, rfl, rfl, habove⟩, rfl⟩

/-- A call of it. -/
theorem user_enters_size :
    ∃ c' s', syscall (fun i => 0x10000 + UInt64.ofNat i) saving 0x20000 2 0x10100 userContext stackSpace =
        .ok (c', s') ∧ c'.rax = 42 ∧ c'.rip = 0x200000 ∧ c'.rbx = userContext.rbx := by
  have hreached : Reached stackSpace stackBlock :=
    ⟨⟨by decide, by decide, by decide, by decide⟩, by decide, 7, by decide, by decide, fun _ _ => rfl⟩
  have hplaced : Kernel.Placed ⟨1, 2, ⟨3, 4, 5, 6, 7, 8⟩, 9, 10, 11⟩ := by
    refine ⟨by decide, ?_, by decide⟩
    intro i func hown
    unfold Faults.own at hown
    split_ifs at hown <;> (obtain rfl := Option.some.inj hown; decide)
  have huser : userContext.cs.toNat % 4 = 3 := by decide
  obtain ⟨-, -, hcalls⟩ := user_enters hplaced (fun i => 0x10000 + UInt64.ofNat i) saving 0x20000 2
    (show 0x10100 < wordSize by decide) huser hreached (by decide) (by decide)
  obtain ⟨s₁, -, hreached₁, -, hreturn⟩ := hcalls _ (.inl ⟨by decide, rfl⟩)
  obtain ⟨out, s₂, hsaving, habi, hresult⟩ := saving_spec hreached₁ 0x10008
    (c := inside userContext 0x10008 0x20000 2 (rsp0 - 56)) (by decide) (by decide)
  have habi' : Abi (inside userContext 0x10008 0x20000 2 (rsp0 - 56)) out s₁ s₂ rsp0 :=
    { habi with stack := fun a hlo hhi => habi.stack a hlo (hhi.trans_le (by decide)) }
  exact ⟨_, s₂, hreturn out s₂ hsaving habi', hresult, rfl, rfl⟩

end Frosk.Interrupts

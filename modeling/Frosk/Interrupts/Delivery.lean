import Mathlib.Tactic
import Mathlib.Data.List.Find
import Frosk.Lib.Lockstep
import Frosk.Interrupts.Definitions

/-!
# Interrupts: delivery

Which function runs at an interrupt, over every run of devices that change their lines, the
processor that takes interrupts whenever they are switched on, and the kernel that registers
functions in between.

* `System` is the table and the controllers. `reg_irq` is two steps (`regIrq`), as an interrupt
  may come between its calls. In the middle of `reg_int`, `set_irq` or `clr_irq` there is none.
* `Dispatch` says what it is for: a line that is switched on and waits is taken before those
  behind it, and the last function registered for it is called.
* A function is one that ends its interrupt (`ends`) or not. The lines before 7 have only such
  that do, as `timer_irq` and `ps2_kb_irq`.
* Line 2, which is for the second controller, is never switched on (`Allowed`). So the lines of the
  second controller have no effect.

Main result: `interrupts_refined`. The system calls the functions that `Dispatch` calls.
-/

namespace Frosk.Interrupts

open Lib

-- ---------------------------------------------------------------------------
-- The system
-- ---------------------------------------------------------------------------

inductive Event where
  | regInt (i : Nat) (func : UInt64)
  | setIrq (esi : UInt32) (i : UInt16)
  | clrIrq (esi : UInt32) (i : UInt16)
  | line (l : Nat) (b : Bool)
  | accept
  | finish

/-- `reg_irq` -/
def regIrq (i : UInt16) (func : UInt64) (esi : UInt32) : List Event :=
  [.regInt (irq0 + i.toNat) func, .setIrq esi i]

/-- `handling` is the function that handles an interrupt. -/
structure System where
  pics     : Pics
  idt      : Idt
  handling : Option UInt64

/-- An interrupt is put out with its number and its function; without a gate there is a fault. -/
def System.step (ends : UInt64 → Bool) (s : System) : Event → System × Option (Nat × UInt64)
  | .regInt i func => ({ s with idt := regInt i func s.idt }, none)
  | .setIrq esi i => ({ s with pics := setIrq esi i s.pics }, none)
  | .clrIrq esi i => ({ s with pics := clrIrq esi i s.pics }, none)
  | .line l b => ({ s with pics := s.pics.line l b }, none)
  | .accept =>
    let (pics, v) := s.pics.acknowledge
    match enter s.idt v with
    | some func => ({ s with pics := pics, handling := some func }, some (v, func))
    | none => ({ s with pics := pics }, none)
  | .finish =>
    match s.handling with
    | some func =>
      ({ s with pics := if ends func then s.pics.outb pic1 0x20 else s.pics, handling := none }, none)
    | none => (s, none)

/-- After `setup_ints`. -/
def System.start (pics : Pics) (esi : UInt32) (dummyInt : UInt64) : System where
  pics := setIrq esi 7 (setupIrqs pics)
  idt := regInt (irq0 + 7) dummyInt Idt.start
  handling := none

-- ---------------------------------------------------------------------------
-- What it is for
-- ---------------------------------------------------------------------------

/-- The functions, the lines that are switched on and those that wait. Line 7 is held back
once it was taken by a function that did not end the interrupt. -/
structure Dispatch where
  table   : Nat → Option UInt64
  enabled : Nat → Bool
  waiting : Nat → Bool
  held    : Bool
  current : Option (Nat × UInt64)

/-- The line that comes next. -/
def Dispatch.next (d : Dispatch) : Option Nat :=
  (List.range 8).find? fun i => d.enabled i && d.waiting i && !(i == 7 && d.held)

/-- If no line waits, the interrupt is one of line 7. -/
def Dispatch.taken (d : Dispatch) : Dispatch × Nat :=
  match d.next with
  | some i => ({ d with waiting := Function.update d.waiting i false, held := d.held || i == 7 }, irq0 + i)
  | none => (d, irq0 + 7)

def Dispatch.step (ends : UInt64 → Bool) (d : Dispatch) : Event → Dispatch × Option (Nat × UInt64)
  | .regInt i func => ({ d with table := Function.update d.table i (some func) }, none)
  | .setIrq _ i => ({ d with enabled := Function.update d.enabled i.toNat true }, none)
  | .clrIrq _ i => ({ d with enabled := Function.update d.enabled i.toNat false }, none)
  | .line l b => ({ d with waiting := Function.update d.waiting l b }, none)
  | .accept =>
    let (d, v) := d.taken
    match d.table v with
    | some func => ({ d with current := some (v, func) }, some (v, func))
    | none => (d, none)
  | .finish =>
    match d.current with
    | some (v, func) => ({ d with held := d.held && !(v == irq0 + 7 && ends func), current := none }, none)
    | none => (d, none)

def Dispatch.start (dummyInt : UInt64) : Dispatch where
  table := Function.update (fun _ => none) (irq0 + 7) (some dummyInt)
  enabled i := i == 7
  waiting _ := false
  held := false
  current := none

/-- What is registered has a gate in the table, and the functions of the lines before 7 end their
interrupts. A line of the first controller is switched on with a function, and line 2 is not. An
interrupt is taken only if none is handled. -/
def Allowed (ends : UInt64 → Bool) (d : Dispatch) : Event → Prop
  | .regInt i func => i < 0x100 ∧ (irq0 ≤ i → i < irq0 + 7 → ends func)
  | .setIrq _ i => i ≠ 2 ∧ (i.toNat < 8 → d.table (irq0 + i.toNat) ≠ none)
  | .accept => d.current = none
  | .clrIrq .. | .line .. | .finish => True

/-- A whole `reg_irq` may always be called. -/
theorem permitted_regIrq {ends : UInt64 → Bool} {i : UInt16} {func : UInt64} (hi : i.toNat < 16) (h2 : i ≠ 2)
    (hends : i.toNat < 7 → ends func) (esi : UInt32) (d : Dispatch) :
    Permitted (Dispatch.step ends) (Allowed ends) d (regIrq i func esi) := by
  refine ⟨⟨?_, fun _ hlt => hends (by omega)⟩, ⟨h2, fun _ => ?_⟩, trivial⟩
  · unfold irq0
    omega
  · show Function.update d.table (irq0 + i.toNat) (some func) (irq0 + i.toNat) ≠ none
    rw [Function.update_self]
    exact Option.some_ne_none func

-- ---------------------------------------------------------------------------
-- Gates
-- ---------------------------------------------------------------------------

/-- The parts of an address make it. -/
theorem address_parts (f : UInt64) :
    ((f &&& 0xffff).toUInt16.toUInt64 ||| (((f >>> 16) &&& 0xffff).toUInt16.toUInt64 <<< 16) |||
      ((f >>> 32).toUInt32.toUInt64 <<< 32)) = f := by
  have hmask : UInt64.toNat 0xffff = 2 ^ 16 - 1 := by decide
  have hmid : UInt64.toNat 16 % 64 = 16 := by decide
  have hhigh : UInt64.toNat 32 % 64 = 32 := by decide
  refine UInt64.toNat_inj.mp (Nat.eq_of_testBit_eq fun i => ?_)
  simp only [UInt64.toNat_or, UInt64.toNat_shiftLeft, UInt64.toNat_and, UInt64.toNat_shiftRight,
    UInt16.toNat_toUInt64, UInt32.toNat_toUInt64, UInt64.toNat_toUInt16, UInt64.toNat_toUInt32, hmask,
    hmid, hhigh, Nat.testBit_or, Nat.testBit_mod_two_pow, Nat.testBit_and, Nat.testBit_shiftLeft,
    Nat.testBit_shiftRight, Nat.testBit_two_pow_sub_one]
  rcases Nat.lt_or_ge i 64 with hlt | hge
  · rcases Nat.lt_or_ge i 16 with h16 | h16
    · simp [h16, show ¬ 32 ≤ i by omega]
    · rcases Nat.lt_or_ge i 32 with h32 | h32
      · simp [h16, show ¬ i < 16 by omega, show i - 16 < 16 by omega, show ¬ 32 ≤ i by omega, hlt]
      · simp [h16, h32, show ¬ i < 16 by omega, show ¬ i - 16 < 16 by omega, show i - 32 < 32 by omega, hlt]
  · have hzero : f.toNat.testBit i = false :=
      Nat.testBit_lt_two_pow (f.toNat_lt.trans_le (Nat.pow_le_pow_right (by decide) hge))
    simp [hzero, show ¬ i < 64 by omega, show ¬ i < 16 by omega]

section Table

variable {i v : Nat} {func : UInt64} {fl ist : UInt8} {idt : Idt}

theorem xregInt_self (i : Nat) (func : UInt64) (fl ist : UInt8) (idt : Idt) :
    (xregInt i func fl ist idt i).address = func ∧
      (xregInt i func fl ist idt i).flags = fl := by
  rw [xregInt, Function.update_self]
  exact ⟨address_parts func, rfl⟩

/-- An entry that is not installed is as it was. -/
theorem xregInt_other (h : v ≠ i) : xregInt i func fl ist idt v = idt v := Function.update_of_ne h ..

/-- The gate of the last function that was registered. -/
theorem enter_regInt : enter (regInt i func idt) = Function.update (enter idt) i (some func) := by
  funext v
  by_cases hv : v = i
  · subst hv
    obtain ⟨haddress, hflags⟩ := xregInt_self v func 0x8E 0 idt
    have hpresent : (regInt v func idt v).present = true := by
      rw [Gate.present, regInt, hflags]
      decide
    rw [Function.update_self, enter, if_pos hpresent, regInt, haddress]
  · rw [Function.update_of_ne hv, enter, regInt, xregInt_other hv, enter]

end Table

-- ---------------------------------------------------------------------------
-- Masks
-- ---------------------------------------------------------------------------

section Masks

variable {esi : UInt32} {di : UInt16} {j : Nat} {s : Pics}

/-- `set_irq` and `clr_irq` build the mask of one line. -/
theorem irqBit_testBit (hdi : di.toNat < 8) (hj : j < 8) :
    (irqBit esi di).toUInt8.toNat.testBit j = decide (j = di.toNat) := by
  have hcl : (di.toNat &&& UInt32.toNat 0xff) % 32 = di.toNat := by
    rw [show UInt32.toNat 0xff = 2 ^ 8 - 1 by decide, Nat.and_two_pow_sub_one_eq_mod]
    omega
  -- nothing of what was in the high half comes down to the low byte
  have hhigh : ∀ k < 8, (UInt32.toNat 0xffff0000).testBit k = false := by decide
  have hone : ∀ k, (UInt32.toNat 1).testBit k = decide (k = 0) := by
    intro k
    cases k <;> simp [Nat.testBit_succ]
  simp only [irqBit, UInt32.toNat_toUInt8, UInt32.toNat_shiftLeft, UInt32.toNat_or, UInt32.toNat_and,
    UInt16.toNat_toUInt32, hcl, Nat.testBit_mod_two_pow, Nat.testBit_shiftLeft, Nat.testBit_or,
    Nat.testBit_and, hhigh (j - di.toNat) (by omega), hone, hj, show j < 32 by omega, Bool.and_false,
    Bool.false_or, decide_true, Bool.true_and]
  rw [Bool.eq_iff_iff]
  simp
  omega

/-- Clearing the bits of one mask in another. -/
theorem testBit_and_not (m b : UInt8) (hj : j < 8) :
    (m &&& ~~~ b).toNat.testBit j = (m.toNat.testBit j && !b.toNat.testBit j) := by
  rw [UInt8.toNat_and, Nat.testBit_and, UInt8.toNat_not, Nat.sub_sub, Nat.add_comm 1,
    show UInt8.size = 2 ^ 8 from rfl, Nat.testBit_two_pow_sub_succ b.toNat_lt]
  simp [hj]

/-- `set_irq` switches on its line, if it is one of the first controller. -/
theorem setIrq_master (esi : UInt32) (di : UInt16) {s : Pics} (hready : s.master.expect = []) :
    ∃ mask, (setIrq esi di s).master = { s.master with mask := mask } ∧
      ∀ j < 8, mask.toNat.testBit j = (s.master.mask.toNat.testBit j && decide (j ≠ di.toNat)) := by
  by_cases hdi : 7 < di
  · have hfar : 7 < di.toNat := hdi
    refine ⟨s.master.mask, ?_, ?_⟩
    · simp only [setIrq, irqPlace, if_pos hdi]
      rfl
    · intro j hj
      rw [decide_eq_true (by omega), Bool.and_true]
  · have hnear : di.toNat < 8 := by
      have hle : ¬ 7 < di.toNat := hdi
      omega
    refine ⟨s.master.mask &&& (~~~ irqBit esi di).toUInt8, ?_, ?_⟩
    · simp only [setIrq, irqPlace, if_neg hdi]
      show s.master.data _ = _
      rw [Pic.data, hready]
      rfl
    · intro j hj
      have hnot : (~~~ irqBit esi di).toUInt8 = ~~~ (irqBit esi di).toUInt8 := by simp
      rw [hnot, testBit_and_not _ _ hj, irqBit_testBit hnear hj, decide_not]

/-- `clr_irq` switches it off. -/
theorem clrIrq_master (esi : UInt32) (di : UInt16) {s : Pics} (hready : s.master.expect = []) :
    ∃ mask, (clrIrq esi di s).master = { s.master with mask := mask } ∧
      ∀ j < 8, mask.toNat.testBit j = (s.master.mask.toNat.testBit j || decide (j = di.toNat)) := by
  by_cases hdi : 7 < di
  · have hfar : 7 < di.toNat := hdi
    refine ⟨s.master.mask, ?_, ?_⟩
    · simp only [clrIrq, irqPlace, if_pos hdi]
      rfl
    · intro j hj
      rw [decide_eq_false (by omega), Bool.or_false]
  · have hnear : di.toNat < 8 := by
      have hle : ¬ 7 < di.toNat := hdi
      omega
    refine ⟨s.master.mask ||| (irqBit esi di).toUInt8, ?_, ?_⟩
    · simp only [clrIrq, irqPlace, if_neg hdi]
      show s.master.data _ = _
      rw [Pic.data, hready]
      rfl
    · intro j hj
      rw [UInt8.toNat_or, Nat.testBit_or, irqBit_testBit hnear hj]

end Masks

-- ---------------------------------------------------------------------------
-- What is kept
-- ---------------------------------------------------------------------------

/-- A line that is switched on has a function, and so has the last one always. -/
structure Dispatch.Sound (ends : UInt64 → Bool) (d : Dispatch) : Prop where
  cascade : d.enabled 2 = false
  known   : ∀ i < 8, d.enabled i → d.table (irq0 + i) ≠ none
  last    : d.table (irq0 + 7) ≠ none
  ended   : ∀ i < 7, ∀ f, d.table (irq0 + i) = some f → ends f
  current : ∀ v f, d.current = some (v, f) → irq0 ≤ v ∧ v ≤ irq0 + 7 ∧ (v < irq0 + 7 → ends f)

/-- The registers of the first controller, and the table, as `d` says. Only the line that is
handled is in service, with one exception. -/
structure Refines (s : System) (d : Dispatch) : Prop where
  table    : enter s.idt = d.table
  expect   : s.pics.master.expect = []
  base     : s.pics.master.base = 0x20
  auto     : s.pics.master.auto = false
  enabled  : ∀ i < 8, d.enabled i = !s.pics.master.mask.toNat.testBit i
  waiting  : ∀ i < 8, i ≠ 2 → d.waiting i = s.pics.master.request i
  service  : ∀ j < 7, s.pics.master.service j ↔ ∃ f, d.current = some (irq0 + j, f)
  held     : s.pics.master.service 7 = d.held
  handling : s.handling = d.current.map Prod.snd

section Steps

variable {ends : UInt64 → Bool} {s : System} {d : Dispatch}

/-- The line served next is one of the first controller, and enabled. -/
theorem next_spec {i : Nat} (h : d.next = some i) : i < 8 ∧ d.enabled i := by
  obtain ⟨hi, hlt, -⟩ := List.find?_range_eq_some.mp h
  rw [Bool.and_eq_true, Bool.and_eq_true] at hi
  exact ⟨List.mem_range.mp hlt, hi.1.1⟩

/-- The number of an interrupt that is taken. -/
theorem taken_spec (hd : d.Sound ends) :
    irq0 ≤ d.taken.2 ∧ d.taken.2 ≤ irq0 + 7 ∧ d.table d.taken.2 ≠ none := by
  unfold Dispatch.taken
  split
  · rename_i i hi
    obtain ⟨hlt, henabled⟩ := next_spec hi
    exact ⟨Nat.le_add_right .., Nat.add_le_add_left (Nat.le_of_lt_succ hlt) _, hd.known i hlt henabled⟩
  · exact ⟨Nat.le_add_right .., le_rfl, hd.last⟩

/-- What taking an interrupt leaves as it is. -/
theorem taken_frame (d : Dispatch) : d.taken.1.table = d.table ∧ d.taken.1.enabled = d.enabled ∧
    d.taken.1.current = d.current := by
  unfold Dispatch.taken
  split <;> exact ⟨rfl, rfl, rfl⟩

/-- Installing an entry takes no other entry away. -/
theorem update_ne_none {α : Type} {table : Nat → Option α} {v i : Nat} {a : α} (h : table v ≠ none) :
    Function.update table i (some a) v ≠ none := by
  by_cases hv : v = i
  · subst hv
    rw [Function.update_self]
    exact Option.some_ne_none a
  · rwa [Function.update_of_ne hv]

/-- A function that is registered for a line before 7 ends its interrupt. -/
theorem Dispatch.Sound.register (hd : d.Sound ends) {v : Nat} {func : UInt64}
    (hends : irq0 ≤ v → v < irq0 + 7 → ends func) :
    ({ d with table := Function.update d.table v (some func) } : Dispatch).Sound ends where
  cascade := hd.cascade
  known i hi henabled := update_ne_none (hd.known i hi henabled)
  last := update_ne_none hd.last
  ended i hi f hf := by
    simp only [Function.update_apply] at hf
    split at hf
    · rename_i heq
      obtain rfl := Option.some.inj hf
      exact hends (by omega) (by omega)
    · exact hd.ended i hi f hf
  current := hd.current

/-- Every allowed event keeps the abstract state sound. -/
theorem sound_step (hd : d.Sound ends) {e : Event} (he : Allowed ends d e) :
    (d.step ends e).1.Sound ends := by
  cases e with
  | regInt i func => exact hd.register he.2
  | setIrq esi i =>
    obtain ⟨hne, htable⟩ := he
    refine { hd with cascade := ?_, known := fun j hj henabled => ?_ }
    · have hne' : 2 ≠ i.toNat := fun heq => hne (UInt16.toNat_inj.mp heq.symm)
      exact (Function.update_of_ne hne' ..).trans hd.cascade
    · by_cases hji : j = i.toNat
      · subst hji
        exact htable hj
      · have hon : Function.update d.enabled i.toNat true j = true := henabled
        rw [Function.update_of_ne hji] at hon
        exact hd.known j hj hon
  | clrIrq esi i =>
    refine { hd with cascade := ?_, known := fun j hj henabled => hd.known j hj ?_ }
    · show Function.update d.enabled i.toNat false 2 = false
      rw [Function.update_apply, hd.cascade, ite_self]
    · have hon : Function.update d.enabled i.toNat false j = true := henabled
      rw [Function.update_apply] at hon
      split at hon
      · cases hon
      · exact hon
  | line l b => exact { hd with }
  | accept =>
    obtain ⟨hlo, hhi, htable⟩ := taken_spec hd
    obtain ⟨func, hfunc⟩ := Option.ne_none_iff_exists'.mp htable
    obtain ⟨hframe, henabled, -⟩ := taken_frame d
    simp only [Dispatch.step, hframe, hfunc]
    refine ⟨henabled ▸ hd.cascade, ?_, hframe ▸ hd.last, hframe ▸ hd.ended, ?_⟩
    · simp only [henabled]
      exact hd.known
    · intro v f hvf
      obtain ⟨rfl, rfl⟩ := Prod.mk.inj (Option.some.inj hvf)
      refine ⟨hlo, hhi, fun hv => hd.ended (d.taken.2 - irq0) (by omega) func ?_⟩
      rwa [Nat.add_sub_of_le hlo]
  | finish =>
    cases hcurrent : d.current with
    | none => simpa only [Dispatch.step, hcurrent] using hd
    | some current =>
      simp only [Dispatch.step, hcurrent]
      exact { hd with current := nofun }

-- ---------------------------------------------------------------------------
-- Taking an interrupt
-- ---------------------------------------------------------------------------

/-- With nothing in service but line 7, the first controller has the line that comes next. -/
theorem ready_eq (hd : d.Sound ends) (h : Refines s d) (hidle : d.current = none) (b : Bool) :
    (s.pics.master.setRequest 2 b).ready = d.next := by
  have hfree : ∀ j < 7, s.pics.master.service j = false := by
    intro j hj
    rw [Bool.eq_false_iff]
    intro hin
    obtain ⟨f, hf⟩ := (h.service j hj).mp hin
    rw [hidle] at hf
    cases hf
  have hall :
      ∀ i < 8, ((List.range (i + 1)).all fun j => !s.pics.master.service j) = !(i == 7 && d.held) := by
    intro i hi
    rw [Bool.eq_iff_iff]
    simp only [List.all_eq_true, List.mem_range, Bool.not_eq_true', Bool.and_eq_false_iff,
      beq_eq_false_iff_ne]
    constructor
    · intro hno
      by_cases h7 : i = 7
      · exact .inr (h.held ▸ hno 7 (by omega))
      · exact .inl h7
    · intro hheld j hj
      by_cases h7 : j = 7
      · rcases hheld with hne | hheld
        · omega
        · rw [h7, h.held, hheld]
      · exact hfree j (by omega)
  have hasks : ∀ i < 8, (s.pics.master.setRequest 2 b).asks i = (d.enabled i && d.waiting i) := by
    intro i hi
    rw [Pic.asks, Pic.setRequest_mask, ← h.enabled i hi, Bool.and_comm]
    by_cases h2 : i = 2
    · rw [h2, hd.cascade, Bool.false_and, Bool.false_and]
    · rw [h.waiting i hi h2]
      exact congrArg (d.enabled i && ·) (Function.update_of_ne h2 ..)
  rw [Pic.ready, Dispatch.next]
  refine List.find?_congr fun i hi => ?_
  have hlt := List.mem_range.mp hi
  rw [hasks i hlt, Pic.setRequest_service, hall i hlt]

/-- The first controller after an interrupt is taken. -/
theorem acknowledge_spec (hd : d.Sound ends) (h : Refines s d) (hidle : d.current = none) :
    s.pics.acknowledge.2 = d.taken.2 ∧ ∃ request service,
      s.pics.acknowledge.1.master = { s.pics.master with request := request, service := service } ∧
      (∀ i < 8, i ≠ 2 → d.taken.1.waiting i = request i) ∧
      (∀ j < 7, service j ↔ d.taken.2 = irq0 + j) ∧ service 7 = d.taken.1.held := by
  let b := s.pics.slave.ready.isSome
  have hready := ready_eq hd h hidle b
  have hother : ∀ i, i ≠ 2 → (s.pics.master.setRequest 2 b).request i = s.pics.master.request i :=
    fun i hi => Function.update_of_ne hi ..
  have hfree : ∀ j < 7, ¬ s.pics.master.service j := by
    intro j hj hin
    obtain ⟨f, hf⟩ := (h.service j hj).mp hin
    rw [hidle] at hf
    cases hf
  cases hnext : d.next with
  | none =>
    rw [hnext] at hready
    have hack : s.pics.acknowledge = (⟨s.pics.master.setRequest 2 b, s.pics.slave⟩, irq0 + 7) := by
      have hseven : (s.pics.master.setRequest 2 b).acknowledge = (s.pics.master.setRequest 2 b, 7) := by
        rw [Pic.acknowledge, hready]
      rw [Pics.acknowledge, hseven]
      exact congrArg (fun n => ((⟨s.pics.master.setRequest 2 b, s.pics.slave⟩, n + 7) : Pics × Nat))
        (congrArg UInt8.toNat h.base)
    have htaken : d.taken = (d, irq0 + 7) := by rw [Dispatch.taken, hnext]
    rw [hack, htaken]
    refine ⟨rfl, _, _, rfl, fun i hi h2 => (h.waiting i hi h2).trans (hother i h2).symm,
      fun j hj => ?_, h.held⟩
    exact iff_of_false (hfree j hj) (by omega)
  | some i =>
    obtain ⟨hlt, henabled⟩ := next_spec hnext
    have h2 : i ≠ 2 := by
      rintro rfl
      rw [hd.cascade] at henabled
      cases henabled
    rw [hnext] at hready
    let master : Pic := { (s.pics.master.setRequest 2 b).setRequest i false with
      service := Function.update s.pics.master.service i true }
    have hack : s.pics.acknowledge = (⟨master, s.pics.slave⟩, irq0 + i) := by
      have hline : (s.pics.master.setRequest 2 b).acknowledge = (master, i) := by
        have hon : (!(s.pics.master.setRequest 2 b).auto) = true := by
          rw [Pic.setRequest_auto, h.auto, Bool.not_false]
        rw [Pic.acknowledge, hready]
        simp only [hon]
        rfl
      rw [Pics.acknowledge, hline]
      simp only [if_neg h2]
      exact congrArg (fun n => ((⟨master, s.pics.slave⟩, n + i) : Pics × Nat)) (congrArg UInt8.toNat h.base)
    have htaken : d.taken =
        ({ d with waiting := Function.update d.waiting i false, held := d.held || i == 7 }, irq0 + i) := by
      rw [Dispatch.taken, hnext]
    rw [hack, htaken]
    refine ⟨rfl, master.request, master.service, rfl, ?_, ?_, ?_⟩
    · intro k hk hk2
      show Function.update d.waiting i false k =
        Function.update (s.pics.master.setRequest 2 b).request i false k
      rw [Function.update_apply, Function.update_apply, hother k hk2, h.waiting k hk hk2]
    · intro j hj
      show Function.update s.pics.master.service i true j = true ↔ irq0 + i = irq0 + j
      by_cases hji : j = i
      · subst hji
        exact iff_of_true (Function.update_self ..) rfl
      · rw [Function.update_of_ne hji]
        exact iff_of_false (hfree j hj) (by omega)
    · show Function.update s.pics.master.service i true 7 = (d.held || i == 7)
      by_cases h7 : i = 7
      · subst h7
        rw [Function.update_self, beq_self_eq_true, Bool.or_true]
      · rw [Function.update_of_ne (Ne.symm h7), h.held, beq_eq_false_iff_ne.mpr h7, Bool.or_false]

/-- The first controller after the function of an interrupt. -/
theorem finish_spec (hd : d.Sound ends) (h : Refines s d) {v : Nat} {func : UInt64}
    (hcurrent : d.current = some (v, func)) :
    ∃ service, (if ends func then s.pics.outb pic1 0x20 else s.pics).master =
        { s.pics.master with service := service } ∧
      (∀ j < 7, ¬ service j) ∧ service 7 = (d.held && !(v == irq0 + 7 && ends func)) := by
  obtain ⟨hlo, hhi, hends⟩ := hd.current v func hcurrent
  have hin : ∀ j < 7, s.pics.master.service j ↔ v = irq0 + j := by
    intro j hj
    rw [h.service j hj, hcurrent]
    exact ⟨fun ⟨f, hf⟩ => (Prod.mk.inj (Option.some.inj hf)).1, fun hv => ⟨func, by rw [hv]⟩⟩
  by_cases hv : v < irq0 + 7
  · obtain ⟨i, rfl⟩ := Nat.exists_eq_add_of_le hlo
    have hi : i < 7 := by omega
    have hfirst := Pic.endOfInterrupt_first (p := s.pics.master) (i := i) (by omega) ((hin i hi).mpr rfl)
      fun j hj hservice => by
        have heq := (hin j (by omega)).mp hservice
        omega
    rw [if_pos (hends hv)]
    refine ⟨Function.update s.pics.master.service i false, hfirst, ?_, ?_⟩
    · intro j hj
      by_cases hji : j = i
      · rw [hji, Function.update_self]
        exact Bool.false_ne_true
      · rw [Function.update_of_ne hji, hin j hj]
        omega
    · have hne : (irq0 + i == irq0 + 7) = false := beq_eq_false_iff_ne.mpr (by omega)
      rw [Function.update_of_ne (by omega), h.held, hne, Bool.false_and, Bool.not_false, Bool.and_true]
  · obtain rfl : v = irq0 + 7 := by omega
    have hfree : ∀ j < 7, ¬ s.pics.master.service j := fun j hj hservice => by
      have heq := (hin j hj).mp hservice
      omega
    by_cases hfunc : ends func = true
    · rw [if_pos hfunc]
      cases h7 : s.pics.master.service 7 with
      | true =>
        have hfirst := Pic.endOfInterrupt_first (p := s.pics.master) (i := 7) (by decide) h7 hfree
        refine ⟨Function.update s.pics.master.service 7 false, hfirst, ?_, ?_⟩
        · intro j hj
          rw [Function.update_of_ne (by omega)]
          exact hfree j hj
        · rw [Function.update_self, beq_self_eq_true, hfunc]
          simp
      | false =>
        -- there is nothing to end
        obtain ⟨service, heq, hkeep⟩ := Pic.endOfInterrupt_spec s.pics.master
        refine ⟨service, heq, fun j hj hservice => hfree j hj (hkeep j hservice), ?_⟩
        have hno : service 7 = false := by
          rw [Bool.eq_false_iff]
          intro hservice
          rw [hkeep 7 hservice] at h7
          cases h7
        rw [hno, hfunc, beq_self_eq_true]
        simp
    · rw [if_neg hfunc]
      refine ⟨s.pics.master.service, rfl, hfree, ?_⟩
      rw [h.held, Bool.eq_false_iff.mpr hfunc, Bool.and_false, Bool.not_false, Bool.and_true]

/-- One step of both. -/
theorem refines_step (hd : d.Sound ends) (h : Refines s d) {e : Event} (he : Allowed ends d e) :
    (s.step ends e).2 = (d.step ends e).2 ∧ Refines (s.step ends e).1 (d.step ends e).1 := by
  cases e with
  | regInt i func =>
    refine ⟨rfl, { h with table := ?_ }⟩
    show enter (regInt i func s.idt) = Function.update d.table i (some func)
    rw [enter_regInt, h.table]
  | setIrq esi i =>
    obtain ⟨mask, hmaster, hmask⟩ := setIrq_master esi i h.expect
    simp only [System.step, Dispatch.step]
    refine ⟨trivial, ?_⟩
    constructor <;> simp only [hmaster]
    · exact h.table
    · exact h.expect
    · exact h.base
    · exact h.auto
    · intro j hj
      rw [hmask j hj, Function.update_apply, h.enabled j hj, decide_not]
      by_cases hji : j = i.toNat <;> simp [hji]
    · exact h.waiting
    · exact h.service
    · exact h.held
    · exact h.handling
  | clrIrq esi i =>
    obtain ⟨mask, hmaster, hmask⟩ := clrIrq_master esi i h.expect
    simp only [System.step, Dispatch.step]
    refine ⟨trivial, ?_⟩
    constructor <;> simp only [hmaster]
    · exact h.table
    · exact h.expect
    · exact h.base
    · exact h.auto
    · intro j hj
      rw [hmask j hj, Function.update_apply, h.enabled j hj]
      by_cases hji : j = i.toNat <;> simp [hji]
    · exact h.waiting
    · exact h.service
    · exact h.held
    · exact h.handling
  | line l b =>
    refine ⟨rfl, ?_⟩
    simp only [System.step, Dispatch.step, Pics.line]
    by_cases hl : l < 8
    · rw [if_pos hl]
      refine { h with waiting := fun i hi h2 => ?_ }
      show Function.update d.waiting l b i = Function.update s.pics.master.request l b i
      rw [Function.update_apply, Function.update_apply, h.waiting i hi h2]
    · rw [if_neg hl]
      exact { h with
        waiting := fun i hi h2 => (Function.update_of_ne (by omega) ..).trans (h.waiting i hi h2) }
  | accept =>
    obtain ⟨hnumber, request, service, hmaster, hwaiting, hservice, hheld⟩ := acknowledge_spec hd h he
    obtain ⟨func, hfunc⟩ := Option.ne_none_iff_exists'.mp (taken_spec hd).2.2
    obtain ⟨htable, henabled, -⟩ := taken_frame d
    have henter : enter s.idt s.pics.acknowledge.2 = some func := by rw [hnumber, h.table, hfunc]
    simp only [System.step, Dispatch.step, henter, htable, hfunc]
    refine ⟨by rw [hnumber], ?_⟩
    constructor <;> simp only [hmaster, henabled]
    · exact h.table
    · exact h.expect
    · exact h.base
    · exact h.auto
    · exact h.enabled
    · exact hwaiting
    · intro j hj
      rw [hservice j hj]
      exact ⟨fun heq => ⟨func, by rw [heq]⟩, fun ⟨f, hf⟩ => (Prod.mk.inj (Option.some.inj hf)).1⟩
    · exact hheld
    · rfl
  | finish =>
    have hhandling := h.handling
    cases hcurrent : d.current with
    | none =>
      rw [hcurrent] at hhandling
      simp only [System.step, Dispatch.step, hhandling, hcurrent, Option.map_none]
      exact ⟨trivial, h⟩
    | some current =>
      obtain ⟨v, func⟩ := current
      obtain ⟨service, hmaster, hfree, hheld⟩ := finish_spec hd h hcurrent
      rw [hcurrent] at hhandling
      simp only [System.step, Dispatch.step, hhandling, hcurrent, Option.map_some]
      refine ⟨trivial, ?_⟩
      constructor <;> simp only [hmaster]
      · exact h.table
      · exact h.expect
      · exact h.base
      · exact h.auto
      · exact h.enabled
      · exact h.waiting
      · intro j hj
        refine iff_of_false (hfree j hj) ?_
        rintro ⟨f, hf⟩
        cases hf
      · exact hheld
      · rfl

end Steps

/-- The hardware and the abstract dispatcher go on in lockstep. -/
theorem delivery_lockstep (ends : UInt64 → Bool) : Lockstep (System.step ends) (Dispatch.step ends)
    (Allowed ends) fun s d => Refines s d ∧ d.Sound ends := by
  rintro s d e ⟨href, hsound⟩ he
  obtain ⟨hout, hnext⟩ := refines_step hsound href he
  exact ⟨hout, hnext, sound_step hsound he⟩

/-- `setup_ints`, whatever was in the controllers before. -/
theorem refines_start (pics : Pics) (esi : UInt32) (dummyInt : UInt64) :
    Refines (.start pics esi dummyInt) (.start dummyInt) := by
  have hreset : (setupIrqs pics).master = ⟨[], 0x20, false, 0xff, fun _ => false, fun _ => false⟩ := rfl
  obtain ⟨mask, hmaster, hmask⟩ :=
    setIrq_master esi 7 (show (setupIrqs pics).master.expect = [] by rw [hreset])
  rw [hreset] at hmaster hmask
  have hall : ∀ j < 8, (0xff : UInt8).toNat.testBit j = true := by decide
  have hempty : enter Idt.start = fun _ => none :=
    funext fun _ => if_neg (show ¬ Gate.present ⟨0, 0, 0, 0, 0, 0, 0⟩ = true by decide)
  constructor <;> simp only [System.start, Dispatch.start, hmaster]
  · rw [enter_regInt, hempty]
  · intro i hi
    rw [hmask i hi, hall i hi, Bool.true_and, decide_not, Bool.not_not]
    rfl
  · exact fun _ _ _ => trivial
  · intro j _
    simp
  · rfl

/-- The state after the start up is sound. -/
theorem sound_start (ends : UInt64 → Bool) (dummyInt : UInt64) : (Dispatch.start dummyInt).Sound ends where
  cascade := rfl
  known i _ henabled := by
    obtain rfl : i = 7 := beq_iff_eq.mp henabled
    exact Option.some_ne_none dummyInt
  last := Option.some_ne_none dummyInt
  ended i hi f hf := by
    have hne : irq0 + i ≠ irq0 + 7 := by omega
    have hnone : (Dispatch.start dummyInt).table (irq0 + i) = none := by
      show Function.update (fun _ => none) (irq0 + 7) (some dummyInt) (irq0 + i) = none
      exact Function.update_of_ne hne ..
    rw [hnone] at hf
    cases hf
  current := nofun

/-- A line before 7 that is switched on and waits is next, or one before it. -/
theorem next_of_waiting {d : Dispatch} {i : Nat} (hi : i < 7) (henabled : d.enabled i)
    (hwaiting : d.waiting i) : ∃ j ≤ i, d.next = some j := by
  have hfound : ((List.range 8).find? fun i => d.enabled i && d.waiting i && !(i == 7 && d.held)).isSome := by
    rw [List.find?_isSome]
    refine ⟨i, List.mem_range.mpr (by omega), ?_⟩
    rw [henabled, hwaiting, beq_eq_false_iff_ne.mpr (show i ≠ 7 by omega)]
    rfl
  obtain ⟨j, hj⟩ := Option.isSome_iff_exists.mp hfound
  refine ⟨j, Nat.le_of_not_lt fun hlt => ?_, hj⟩
  obtain ⟨-, -, hfirst⟩ := List.find?_range_eq_some.mp hj
  have hno := hfirst i hlt
  rw [henabled, hwaiting, beq_eq_false_iff_ne.mpr (show i ≠ 7 by omega)] at hno
  cases hno

/-- **Interrupts arrive as registered**: for every state of the controllers before `setup_ints` and
every run of registrations, changes of the lines and interrupts, the functions that are called are
those that `Dispatch` calls. Where nothing is handled, the next interrupt calls a function that is
registered, and it is one of the first line that waits, unless only line 7 does. -/
theorem interrupts_refined (ends : UInt64 → Bool) (pics : Pics) (esi : UInt32) (dummyInt : UInt64)
    (es : List Event) (h : Permitted (Dispatch.step ends) (Allowed ends) (.start dummyInt) es) :
    outputs (System.step ends) (.start pics esi dummyInt) es =
      outputs (Dispatch.step ends) (.start dummyInt) es ∧
    ∀ d, d = after (Dispatch.step ends) (.start dummyInt) es → d.current = none →
      (∃ func, d.table d.taken.2 = some func ∧
        (System.step ends (after (System.step ends) (.start pics esi dummyInt) es) .accept).2 =
          some (d.taken.2, func)) ∧
      ∀ i < 7, d.enabled i → d.waiting i → ∃ j ≤ i, d.taken.2 = irq0 + j := by
  obtain ⟨hout, href, hsound⟩ := outputs_eq (delivery_lockstep ends)
    ⟨refines_start pics esi dummyInt, sound_start ends dummyInt⟩ h
  refine ⟨hout, ?_⟩
  rintro d rfl hidle
  obtain ⟨func, hfunc⟩ := Option.ne_none_iff_exists'.mp (taken_spec hsound).2.2
  obtain ⟨htable, -⟩ := taken_frame (after (Dispatch.step ends) (.start dummyInt) es)
  refine ⟨⟨func, hfunc, ?_⟩, ?_⟩
  · rw [(refines_step hsound href (e := .accept) hidle).1]
    simp only [Dispatch.step, htable, hfunc]
  · intro i hi henabled hwaiting
    obtain ⟨j, hj, hnext⟩ := next_of_waiting hi henabled hwaiting
    exact ⟨j, hj, by rw [Dispatch.taken, hnext]⟩

/-- A controller that was in the middle of everything. -/
def picUsed : Pic := ⟨[.mode], 8, true, 0, fun _ => true, fun _ => true⟩

/-- The keyboard is registered at 2, and both it and the printer interrupt. -/
theorem interrupts_refined_keyboard :
    outputs (System.step fun f => f == 2) (.start ⟨picUsed, picUsed⟩ 0xABCD0000 1)
      (regIrq 1 2 0x12340002 ++ [.line 7 true, .line 12 true, .line 1 true, .accept, .finish, .accept]) =
      [none, none, none, none, none, some (0x21, 2), none, some (0x27, 1)] := by
  have hpermitted : Permitted (Dispatch.step fun f => f == 2) (Allowed fun f => f == 2) (.start 1)
      (regIrq 1 2 0x12340002 ++ [.line 7 true, .line 12 true, .line 1 true, .accept, .finish, .accept]) :=
    permitted_append (permitted_regIrq (by decide) (by decide) (fun _ => rfl) 0x12340002 _)
      ⟨trivial, trivial, trivial, rfl, trivial, rfl, trivial⟩
  exact (interrupts_refined (fun f => f == 2) ⟨picUsed, picUsed⟩ 0xABCD0000 1 _ hpermitted).1.trans rfl

end Frosk.Interrupts

import Mathlib.Tactic

/-!
# Interrupt controllers

A controller of eight lines, as the 8259A is in the modes of the 8086: a request waits until
it is acknowledged, line 0 comes first, and a line in service holds back itself and the lines
behind it until the end of the interrupt. Priorities do not rotate.

`endOfInterrupt_first` says what is left in service, and `reset` that initialization leaves
nothing of what was before.
-/

namespace Frosk.Lib

/-- What the next write to the data port sets, before it sets the mask. -/
inductive Icw where
  | base
  | cascade
  | mode
deriving DecidableEq

structure Pic where
  expect  : List Icw
  base    : UInt8
  auto    : Bool
  mask    : UInt8
  request : Nat → Bool
  service : Nat → Bool

namespace Pic

/-- The end of the interrupt that comes first among those in service. -/
def endOfInterrupt (p : Pic) : Pic :=
  match (List.range 8).find? p.service with
  | some i => { p with service := Function.update p.service i false }
  | none => p

/-- A write to the command port. -/
def command (p : Pic) (v : UInt8) : Pic :=
  if v &&& 0x10 ≠ 0 then
    { p with
      expect := .base :: ((if v &&& 2 = 0 then [.cascade] else []) ++ if v &&& 1 = 0 then [] else [.mode])
      auto := false, mask := 0, request := fun _ => false, service := fun _ => false }
  else if v &&& 8 ≠ 0 then p
  else if v &&& 0xE0 = 0x20 then p.endOfInterrupt
  else if v &&& 0xE0 = 0x60 then { p with service := Function.update p.service (v &&& 7).toNat false }
  else p

/-- A write to the data port. -/
def data (p : Pic) (v : UInt8) : Pic :=
  match p.expect with
  | [] => { p with mask := v }
  | .base :: rest => { p with expect := rest, base := v &&& 0xF8 }
  | .cascade :: rest => { p with expect := rest }
  | .mode :: rest => { p with expect := rest, auto := v &&& 2 ≠ 0 }

/-- The line has a request that is not masked. -/
def asks (p : Pic) (i : Nat) : Bool := p.request i && !p.mask.toNat.testBit i

/-- The line that interrupts. -/
def ready (p : Pic) : Option Nat :=
  (List.range 8).find? fun i => p.asks i && (List.range (i + 1)).all fun j => !p.service j

def setRequest (p : Pic) (i : Nat) (b : Bool) : Pic := { p with request := Function.update p.request i b }

/-- The processor takes the interrupt: the line that is served. A request that is gone counts as
one of the last line, which is not in service then. -/
def acknowledge (p : Pic) : Pic × Nat :=
  match p.ready with
  | some i => ({ p.setRequest i false with service := Function.update p.service i (!p.auto) }, i)
  | none => (p, 7)

/-- The number of the interrupt. -/
def vector (p : Pic) (i : Nat) : Nat := p.base.toNat + i

-- ---------------------------------------------------------------------------
-- Rules
-- ---------------------------------------------------------------------------

variable {p : Pic} {i j : Nat}

@[simp] theorem setRequest_mask (b : Bool) : (p.setRequest i b).mask = p.mask := rfl

@[simp] theorem setRequest_base (b : Bool) : (p.setRequest i b).base = p.base := rfl

@[simp] theorem setRequest_auto (b : Bool) : (p.setRequest i b).auto = p.auto := rfl

@[simp] theorem setRequest_expect (b : Bool) : (p.setRequest i b).expect = p.expect := rfl

@[simp] theorem setRequest_service (b : Bool) : (p.setRequest i b).service = p.service := rfl

/-- Four writes and a mask, whatever the controller was in. -/
theorem reset (p : Pic) (base cascade mode mask : UInt8) :
    ((((p.command 0x11).data base).data cascade).data mode).data mask =
      ⟨[], base &&& 0xF8, mode &&& 2 ≠ 0, mask, fun _ => false, fun _ => false⟩ := rfl

/-- The end of an interrupt ends the first one in service. -/
theorem endOfInterrupt_first (hi : i < 8) (hin : p.service i) (hfirst : ∀ j < i, ¬ p.service j) :
    p.endOfInterrupt = { p with service := Function.update p.service i false } := by
  have hfind : (List.range 8).find? p.service = some i := by
    rw [List.find?_range_eq_some]
    refine ⟨hin, List.mem_range.mpr hi, ?_⟩
    intro j hj
    simpa using hfirst j hj
  rw [endOfInterrupt, hfind]

/-- The end of an interrupt takes nothing into service, and changes nothing else. -/
theorem endOfInterrupt_spec (p : Pic) : ∃ service, p.endOfInterrupt = { p with service := service } ∧
    ∀ j, service j → p.service j := by
  unfold endOfInterrupt
  split
  · rename_i i hi
    refine ⟨_, rfl, ?_⟩
    intro j hj
    by_cases hji : j = i
    · subst hji
      rw [Function.update_self] at hj
      cases hj
    · rwa [Function.update_of_ne hji] at hj
  · exact ⟨p.service, rfl, fun _ h => h⟩

end Pic

end Frosk.Lib

import Mathlib.Tactic

/-!
# Lockstep

Two machines that take the same inputs. Where one step keeps a relation between their states
and has the same output in both, for the inputs that are allowed, whole runs do
(`outputs_eq`).
-/

namespace Frosk.Lib

variable {σ τ α β : Type*}

/-- What a run puts out. -/
def outputs (step : σ → α → σ × β) : σ → List α → List β
  | _, [] => []
  | s, a :: as => (step s a).2 :: outputs step (step s a).1 as

/-- Where a run ends. -/
def after (step : σ → α → σ × β) (s : σ) (as : List α) : σ := as.foldl (fun s a => (step s a).1) s

/-- The condition holds before each step of a run. -/
def Permitted (step : σ → α → σ × β) (cond : σ → α → Prop) : σ → List α → Prop
  | _, [] => True
  | s, a :: as => cond s a ∧ Permitted step cond (step s a).1 as

/-- A run in two parts is permitted when both are. -/
theorem permitted_append {step : σ → α → σ × β} {cond : σ → α → Prop} {s : σ} {as bs : List α}
    (has : Permitted step cond s as) (hbs : Permitted step cond (after step s as) bs) :
    Permitted step cond s (as ++ bs) := by
  induction as generalizing s with
  | nil => exact hbs
  | cons a as ih => exact ⟨has.1, ih has.2 hbs⟩

/-- A relation that every step keeps that the second machine allows, with one output. -/
def Lockstep (step : σ → α → σ × β) (step' : τ → α → τ × β) (cond : τ → α → Prop)
    (sim : σ → τ → Prop) : Prop :=
  ∀ s t a, sim s t → cond t a → (step s a).2 = (step' t a).2 ∧ sim (step s a).1 (step' t a).1

/-- Two systems in lockstep have the same outputs. -/
theorem outputs_eq {step : σ → α → σ × β} {step' : τ → α → τ × β} {cond : τ → α → Prop}
    {sim : σ → τ → Prop} (h : Lockstep step step' cond sim) {s : σ} {t : τ} {as : List α}
    (hst : sim s t) (hcond : Permitted step' cond t as) :
    outputs step s as = outputs step' t as ∧ sim (after step s as) (after step' t as) := by
  induction as generalizing s t with
  | nil => exact ⟨rfl, hst⟩
  | cons a as ih =>
    obtain ⟨ha, has⟩ := hcond
    obtain ⟨hout, hnext⟩ := h s t a hst ha
    obtain ⟨houts, hend⟩ := ih hnext has
    refine ⟨?_, hend⟩
    rw [outputs, outputs, hout, houts]

end Frosk.Lib

import Mathlib.Tactic
import Frosk.Lib.Run

/-!
# Taking turns

A queue in which the one in front is served and goes to the back, and which others
may join at any place. Between two turns of one member, every other one that was
there at the first of them has exactly one turn, wherever others join meanwhile.

Main result: `fair`.
-/

namespace Frosk.Lib

variable {α : Type*}

inductive Turn (α : Type*) where
  | joined (x : α)
  | served (x : α)
  | idle
deriving DecidableEq, Repr

inductive Rotates : List α → Turn α → List α → Prop
  | joined {a b : List α} {x : α} (hx : x ∉ a ++ b) : Rotates (a ++ b) (.joined x) (a ++ x :: b)
  | served {x : α} {q : List α} : Rotates (x :: q) (.served x) (q ++ [x])
  | idle {p : List α} : Rotates p .idle p

/-- Those that join, in order. -/
def joiners : List (Turn α) → List α
  | [] => []
  | .joined x :: es => x :: joiners es
  | .served _ :: es => joiners es
  | .idle :: es => joiners es

/-- Those who join in two parts of a run. -/
theorem joiners_append (es es' : List (Turn α)) : joiners (es ++ es') = joiners es ++ joiners es' := by
  induction es with
  | nil => rfl
  | cons e es ih =>
    cases e with
    | joined x => exact congrArg (x :: ·) ih
    | served x => exact ih
    | idle => exact ih

/-- A turn moves the queue and adds who joins. -/
theorem Rotates.perm {p p' : List α} {e : Turn α} (h : Rotates p e p') :
    p'.Perm (joiners [e] ++ p) := by
  cases h with
  | joined hx => exact List.perm_middle
  | served => exact List.perm_append_singleton ..
  | idle => exact List.Perm.refl _

/-- So after a turn nobody is in the queue twice. -/
theorem Rotates.nodup {p p' : List α} {e : Turn α} (h : Rotates p e p') (hp : p.Nodup) :
    p'.Nodup := by
  rw [h.perm.nodup_iff]
  cases h with
  | joined hx => exact List.nodup_cons.mpr ⟨hx, hp⟩
  | served => exact hp
  | idle => exact hp

/-- The one that is served goes to the end. -/
theorem Rotates.front {p p' : List α} {t : α} (h : Rotates p (.served t) p') :
    ∃ q, p = t :: q ∧ p' = q ++ [t] := by
  generalize he : Turn.served t = e at h
  cases h with
  | joined hx => cases he
  | @served x q =>
    cases he
    exact ⟨q, rfl, rfl⟩
  | idle => cases he

/-- The queue holds what was there and what joined. -/
theorem rotations_perm {p p' : List α} {es : List (Turn α)} (h : Trace Rotates p es p') :
    p'.Perm (joiners es ++ p) := by
  induction h with
  | nil p => exact List.Perm.refl _
  | @cons p e p₁ es p' hstep _ ih =>
    have hsplit : joiners (e :: es) = joiners [e] ++ joiners es := joiners_append [e] es
    rw [hsplit]
    calc p'.Perm (joiners es ++ p₁) := ih
      _ |>.Perm (joiners es ++ (joiners [e] ++ p)) := hstep.perm.append_left _
      _ |>.Perm (joiners [e] ++ joiners es ++ p) := by
        rw [← List.append_assoc]
        exact List.perm_append_comm.append_right _

/-- The same of a whole run. -/
theorem rotations_nodup {p p' : List α} {es : List (Turn α)} (h : Trace Rotates p es p')
    (hp : p.Nodup) : p'.Nodup := by
  induction h with
  | nil p => exact hp
  | cons hstep _ ih => exact ih (hstep.nodup hp)

section Fair

variable [DecidableEq α]

/-- While `t` is not served, those before it are served at most once, and are then
behind it; those behind it wait. -/
structure Round (a b a' b' : List α) (es : List (Turn α)) : Prop where
  before : ∀ u ∈ a, (u ∈ a' ∧ es.count (.served u) = 0) ∨ (u ∈ b' ∧ es.count (.served u) = 1)
  behind : ∀ u ∈ b, u ∈ b' ∧ es.count (.served u) = 0

/-- An event at which nobody is served. -/
theorem Round.skip {a b a₁ b₁ a' b' : List α} {e : Turn α} {es : List (Turn α)}
    (h : Round a₁ b₁ a' b' es) (ha : a ⊆ a₁) (hb : b ⊆ b₁) (he : ∀ u, e ≠ .served u) :
    Round a b a' b' (e :: es) := by
  have hcount : ∀ u, (e :: es).count (.served u) = es.count (.served u) :=
    fun u => List.count_cons_of_ne (he u)
  constructor
  · intro u hu
    rw [hcount]
    exact h.before u (ha hu)
  · intro u hu
    rw [hcount]
    exact h.behind u (hb hu)

/-- Until the next turn of `t`, those before it are served in order. -/
theorem round_of_trace {t : α} {p p' : List α} {es : List (Turn α)} (h : Trace Rotates p es p')
    (hp : p.Nodup) (ht : .served t ∉ es) {a b : List α} (heq : p = a ++ t :: b) :
    ∃ a' b', p' = a' ++ t :: b' ∧ Round a b a' b' es := by
  induction h generalizing a b with
  | nil p =>
    exact ⟨a, b, heq, fun u hu => .inl ⟨hu, List.count_nil⟩, fun u hu => ⟨hu, List.count_nil⟩⟩
  | @cons p e p₁ es p' hstep htrace ih =>
    have hp₁ := hstep.nodup hp
    have ht₁ : Turn.served t ∉ es := List.not_mem_of_not_mem_cons ht
    cases hstep with
    | idle =>
      obtain ⟨a', b', heq', hround⟩ := ih hp₁ ht₁ heq
      exact ⟨a', b', heq', hround.skip (List.Subset.refl a) (List.Subset.refl b) (by simp)⟩
    | @joined c d x hx =>
      -- the newcomer is in front of `t` or behind it
      rcases List.append_eq_append_iff.mp heq with ⟨f, rfl, hd⟩ | ⟨f, rfl, hb⟩
      · obtain ⟨a', b', heq', hround⟩ := ih hp₁ ht₁ (a := c ++ x :: f) (b := b) (by simp [hd])
        exact ⟨a', b', heq', hround.skip (by simp) (List.Subset.refl b) (by simp)⟩
      · cases f with
        | nil =>
          rw [List.nil_append] at hb
          obtain ⟨a', b', heq', hround⟩ := ih hp₁ ht₁ (a := a ++ [x]) (b := b) (by simp [← hb])
          exact ⟨a', b', heq', hround.skip (by simp) (List.Subset.refl b) (by simp)⟩
        | cons y f =>
          rw [List.cons_append] at hb
          obtain ⟨rfl, rfl⟩ := List.cons.inj hb
          obtain ⟨a', b', heq', hround⟩ := ih hp₁ ht₁ (a := a) (b := f ++ x :: d) (by simp)
          exact ⟨a', b', heq', hround.skip (List.Subset.refl a) (by simp) (by simp)⟩
    | @served x q =>
      cases a with
      | nil =>
        obtain ⟨rfl, _⟩ := List.cons.inj heq
        exact absurd List.mem_cons_self ht
      | cons y a =>
        obtain ⟨rfl, rfl⟩ := List.cons.inj heq
        have hnot := (List.nodup_cons.mp hp).1
        have hself : (Turn.served x :: es).count (.served x) = es.count (.served x) + 1 :=
          List.count_cons_self
        have hother : ∀ u ≠ x, (Turn.served x :: es).count (.served u) = es.count (.served u) :=
          fun u hu => List.count_cons_of_ne fun h => hu (Turn.served.inj h).symm
        obtain ⟨a', b', heq', hround⟩ := ih hp₁ ht₁ (a := a) (b := b ++ [x]) (by simp)
        refine ⟨a', b', heq', ?_, ?_⟩
        · intro u hu
          by_cases hux : u = x
          · subst hux
            obtain ⟨hmem, hzero⟩ := hround.behind u (by simp)
            rw [hself, hzero]
            exact .inr ⟨hmem, rfl⟩
          · rw [hother u hux]
            exact hround.before u ((List.mem_cons.mp hu).resolve_left hux)
        · intro u hu
          have hux : u ≠ x := by
            rintro rfl
            exact hnot (by simp [hu])
          rw [hother u hux]
          exact hround.behind u (List.mem_append_left _ hu)

/-- Between two turns of `t` every other member has one. -/
theorem fair {p p' : List α} {es : List (Turn α)} (h : Trace Rotates p es p') (hp : p.Nodup)
    {pre mid post : List (Turn α)} {t u : α}
    (hes : es = pre ++ .served t :: (mid ++ .served t :: post)) (hmid : .served t ∉ mid)
    (hu : u ∈ joiners pre ++ p) (hne : u ≠ t) : mid.count (.served u) = 1 := by
  rw [hes, trace_append] at h
  obtain ⟨p₁, hpre, hrest⟩ := h
  have hp₁ := rotations_nodup hpre hp
  have hu₁ : u ∈ p₁ := (rotations_perm hpre).mem_iff.mpr hu
  cases hrest with
  | cons hserved hrest =>
    obtain ⟨q, rfl, rfl⟩ := hserved.front
    have hp₂ := hserved.nodup hp₁
    obtain ⟨p₃, hmidway, hlast⟩ := trace_append.mp hrest
    have hp₃ := rotations_nodup hmidway hp₂
    obtain ⟨a, b, heq, hround⟩ := round_of_trace hmidway hp₂ hmid (a := q) (b := []) rfl
    cases hlast with
    | cons hserved' _ =>
      obtain ⟨q', heq', _⟩ := hserved'.front
      -- `t` is in front again, so nothing is before it
      have hnil : a = [] := by
        cases a with
        | nil => rfl
        | cons y a =>
          rw [heq] at heq' hp₃
          obtain ⟨rfl, _⟩ := List.cons.inj heq'
          exact absurd (by simp) (List.nodup_cons.mp hp₃).1
      have huq : u ∈ q := (List.mem_cons.mp hu₁).resolve_left hne
      rcases hround.before u huq with ⟨hmem, _⟩ | ⟨_, hone⟩
      · rw [hnil] at hmem
        cases hmem
      · exact hone

end Fair

end Frosk.Lib

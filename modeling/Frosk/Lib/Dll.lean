import Mathlib.Tactic

/-!
# Doubly linked lists

`Linked next prev o l n` says that the cells `l` are threaded both ways between
an outer cell `o` before the first and an outer cell `n` after the last: `next`
leads back towards `o` and `prev` on towards `n`. With both ends fixed a list is
the concatenation of its segments (`linked_append`), and the two edits of a
queue, `linked_snoc` and `linked_splice`, are edits at a seam.
-/

namespace Frosk.Lib

variable {α : Type*}

def Linked (next prev : α → α) : α → List α → α → Prop
  | _, [], _ => True
  | o, p :: l, n => next p = o ∧ prev p = l.headD n ∧ Linked next prev p l n

/-- A linked list in two parts. -/
theorem linked_append {next prev : α → α} {l₁ l₂ : List α} {o n : α} :
    Linked next prev o (l₁ ++ l₂) n ↔
      Linked next prev o l₁ (l₂.headD n) ∧ Linked next prev (l₁.getLastD o) l₂ n := by
  induction l₁ generalizing o with
  | nil => simp [Linked]
  | cons p l ih =>
    have hhead : (l ++ l₂).headD n = l.headD (l₂.headD n) := by
      cases l <;> rfl
    simp only [List.cons_append, Linked, ih, hhead, List.getLastD_cons]
    constructor
    · rintro ⟨h₁, h₂, h₃, h₄⟩
      exact ⟨⟨h₁, h₂, h₃⟩, h₄⟩
    · rintro ⟨⟨h₁, h₂, h₃⟩, h₄⟩
      exact ⟨h₁, h₂, h₃, h₄⟩

/-- The last element is in the second part. -/
theorem getLastD_append {l₁ l₂ : List α} (h : l₂ ≠ []) (d : α) :
    (l₁ ++ l₂).getLastD d = l₂.getLastD d := by
  induction l₁ generalizing d with
  | nil => rfl
  | cons a l ih =>
    rw [List.cons_append, List.getLastD_cons, ih]
    cases l₂ with
    | nil => exact absurd rfl h
    | cons b l₂ => rw [List.getLastD_cons, List.getLastD_cons]

/-- The last element of a list is one of the list. -/
theorem getLastD_mem {l : List α} (h : l ≠ []) (d : α) : l.getLastD d ∈ l := by
  obtain ⟨l', x, rfl⟩ := List.eq_nil_or_concat l |>.resolve_left h
  rw [List.concat_eq_append, getLastD_append (List.cons_ne_nil x [])]
  simp

/-- The two ways to say which one is the last. -/
theorem getLast?_eq_some_iff {l : List α} (h : l ≠ []) (d x : α) :
    l.getLast? = some x ↔ x = l.getLastD d := by
  rw [List.getLastD_eq_getLast?]
  cases hl : l.getLast? with
  | none => exact absurd (List.getLast?_eq_none_iff.mp hl) h
  | some y => simp [eq_comm]

/-- Other cells do not matter. -/
theorem linked_congr {next prev next' prev' : α → α} {l : List α} {o n : α}
    (h : Linked next prev o l n) (hnext : ∀ x ∈ l, next' x = next x)
    (hprev : ∀ x ∈ l, prev' x = prev x) : Linked next' prev' o l n := by
  induction l generalizing o with
  | nil => trivial
  | cons p l ih =>
    obtain ⟨h₁, h₂, h₃⟩ := h
    refine ⟨?_, ?_, ih h₃ (fun x hx => hnext x (List.mem_cons_of_mem _ hx))
      fun x hx => hprev x (List.mem_cons_of_mem _ hx)⟩
    · rw [hnext p (List.mem_cons_self ..), h₁]
    · rw [hprev p (List.mem_cons_self ..), h₂]

variable [DecidableEq α]

/-- Moving the far end: only the last cell's `prev` changes. -/
theorem linked_newer {next prev next' prev' : α → α} {l : List α} {o n n' : α}
    (h : Linked next prev o l n) (hnd : l.Nodup) (hnext : ∀ x ∈ l, next' x = next x)
    (hprev : ∀ x ∈ l, prev' x = if l.getLast? = some x then n' else prev x) :
    Linked next' prev' o l n' := by
  induction l generalizing o with
  | nil => trivial
  | cons p l ih =>
    obtain ⟨h₁, h₂, h₃⟩ := h
    obtain ⟨hp, hnd'⟩ := List.nodup_cons.mp hnd
    refine ⟨?_, ?_, ih h₃ hnd' (fun x hx => hnext x (List.mem_cons_of_mem _ hx)) ?_⟩
    · rw [hnext p (List.mem_cons_self ..), h₁]
    · rw [hprev p (List.mem_cons_self ..)]
      cases l with
      | nil => simp
      | cons q l =>
        have hne : (p :: q :: l).getLast? ≠ some p := by
          intro hlast
          rw [List.getLast?_cons_cons] at hlast
          exact hp (List.mem_of_getLast? hlast)
        rw [if_neg hne, h₂]
        rfl
    · intro x hx
      rw [hprev x (List.mem_cons_of_mem _ hx)]
      cases l with
      | nil => simp at hx
      | cons q l => rw [List.getLast?_cons_cons]

/-- Moving the near end: only the first cell's `next` changes. -/
theorem linked_older {next prev next' prev' : α → α} {l : List α} {o o' n : α}
    (h : Linked next prev o l n) (hnd : l.Nodup) (hprev : ∀ x ∈ l, prev' x = prev x)
    (hnext : ∀ x ∈ l, next' x = if l.head? = some x then o' else next x) :
    Linked next' prev' o' l n := by
  cases l with
  | nil => trivial
  | cons p l =>
    obtain ⟨_, h₂, h₃⟩ := h
    obtain ⟨hp, _⟩ := List.nodup_cons.mp hnd
    refine ⟨?_, ?_, linked_congr h₃ (fun x hx => ?_) fun x hx => hprev x (List.mem_cons_of_mem _ hx)⟩
    · rw [hnext p (List.mem_cons_self ..)]
      simp
    · rw [hprev p (List.mem_cons_self ..), h₂]
    · rw [hnext x (List.mem_cons_of_mem _ hx), if_neg]
      intro heq
      have hpx : p = x := by simpa using heq
      exact hp (hpx ▸ hx)

/-- Taking the cell `m` out. -/
theorem linked_splice {next prev next' prev' : α → α} {l₁ l₂ : List α} {m o n : α}
    (h : Linked next prev o (l₁ ++ m :: l₂) n) (hnd : (l₁ ++ m :: l₂).Nodup)
    (hnext : ∀ x ∈ l₁ ++ l₂,
      next' x = if l₂.head? = some x then l₁.getLastD o else next x)
    (hprev : ∀ x ∈ l₁ ++ l₂,
      prev' x = if l₁.getLast? = some x then l₂.headD n else prev x) :
    Linked next' prev' o (l₁ ++ l₂) n := by
  obtain ⟨h₁, _, _, h₂⟩ := linked_append.mp h
  obtain ⟨hnd₁, hnd₂, hdisj⟩ := List.nodup_append.mp hnd
  have hnd₂' := (List.nodup_cons.mp hnd₂).2
  refine linked_append.mpr ⟨linked_newer h₁ hnd₁ ?_ ?_, linked_older h₂ hnd₂' ?_ ?_⟩
  · intro x hx
    rw [hnext x (List.mem_append_left _ hx), if_neg]
    intro heq
    have hx₂ : x ∈ l₂ := List.mem_of_head? heq
    exact hdisj x hx x (List.mem_cons_of_mem _ hx₂) rfl
  · intro x hx
    exact hprev x (List.mem_append_left _ hx)
  · intro x hx
    rw [hprev x (List.mem_append_right _ hx), if_neg]
    intro heq
    have hx₁ : x ∈ l₁ := List.mem_of_getLast? heq
    exact hdisj x hx₁ x (List.mem_cons_of_mem _ hx) rfl
  · intro x hx
    exact hnext x (List.mem_append_right _ hx)

/-- Adding the cell `m` at the far end. -/
theorem linked_snoc {next prev next' prev' : α → α} {l : List α} {m o n : α}
    (h : Linked next prev o l n) (hnd : l.Nodup) (hm : next' m = l.getLastD o)
    (hn : prev' m = n) (hnext : ∀ x ∈ l, next' x = next x)
    (hprev : ∀ x ∈ l, prev' x = if l.getLast? = some x then m else prev x) :
    Linked next' prev' o (l ++ [m]) n :=
  linked_append.mpr ⟨linked_newer h hnd hnext hprev, hm, hn, trivial⟩

end Frosk.Lib
